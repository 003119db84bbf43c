import PinCore.Scan.Cursor

/-!
# Seeking in a plan

A plan denotes a set of owners: the postings left in its cursors, intersected and united along
the tree of its nodes.  Seeking returns the next owner of that set past the bound, and what it
drops from the cursors never removes an owner of `K` past the bound from the set.  The one-term and
two-term fast paths and the continuation interpreter meet the same specification.
-/

namespace PinCore

open Obs

/-- The tree that a node of a plan spans, with the cursors at its leaves. -/
inductive Expr where
  | term (cursor : ℕ)
  | and (left right : Expr)
  | or (left right : Expr)

namespace Expr

/-- The cursors of a tree. -/
def cursors : Expr → List ℕ
  | term i => [i]
  | and l r => l.cursors ++ r.cursors
  | or l r => l.cursors ++ r.cursors

/-- The owners a tree denotes, given the postings of each cursor. -/
def den (R : ℕ → List OwnerRef) : Expr → Set OwnerRef
  | term i => {r | r ∈ R i}
  | and l r => l.den R ∩ r.den R
  | or l r => l.den R ∪ r.den R

end Expr

/-- Node `i` spans the tree. -/
inductive Spans (nodes : List Node) : ℕ → Expr → Prop
  | term {i : ℕ} {text : Text} {c : ℕ} (h : nodes.getD i .empty = .term text (some c)) :
      Spans nodes i (.term c)
  | and {i l r : ℕ} {el er : Expr} (h : nodes.getD i .empty = .and l r) (hl : Spans nodes l el)
      (hr : Spans nodes r er) : Spans nodes i (.and el er)
  | or {i l r : ℕ} {el er : Expr} (h : nodes.getD i .empty = .or l r) (hl : Spans nodes l el)
      (hr : Spans nodes r er) : Spans nodes i (.or el er)

/-- The postings left in the cursors. -/
def Hold (H : ℕ → Store) (F : Store) (K : Set OwnerRef) (t : ℕ) (cursors : List Cursor)
    (R : ℕ → List OwnerRef) : Prop :=
  ∀ (i : ℕ) (c : Cursor), cursors[i]? = some c → c.Holds H F K t (R i)

/-- What a seek past `B` may change: only the postings of the tree's cursors, which only shrink,
and nothing of `K` in the denoted set past the bound. -/
structure Dropped (K : Set OwnerRef) (e : Expr) (B : Set OwnerRef) (R R' : ℕ → List OwnerRef) :
    Prop where
  other : ∀ i, i ∉ e.cursors → R' i = R i
  sublist : ∀ i, (R' i).Sublist (R i)
  keeps : e.den R ∩ B ∩ K ⊆ e.den R'

section

variable {H : ℕ → Store} {F : Store} {K : Set OwnerRef} {t t' : ℕ} {nodes : List Node}
  {cursors : List Cursor} {R R' R'' : ℕ → List OwnerRef} {e el er : Expr} {B B' : Set OwnerRef}

theorem Expr.den_mono (h : ∀ i, (R' i).Sublist (R i)) : e.den R' ⊆ e.den R := by
  induction e with
  | term i => exact fun r hr => (h i).subset hr
  | and l r hl hr => exact Set.inter_subset_inter hl hr
  | or l r hl hr => exact Set.union_subset_union hl hr

theorem Expr.den_congr (h : ∀ i ∈ e.cursors, R' i = R i) : e.den R' = e.den R := by
  induction e with
  | term i => rw [Expr.den, Expr.den, h i List.mem_cons_self]
  | and l r hl hr =>
    rw [Expr.den, Expr.den, hl fun i hi => h i (List.mem_append_left _ hi),
      hr fun i hi => h i (List.mem_append_right _ hi)]
  | or l r hl hr =>
    rw [Expr.den, Expr.den, hl fun i hi => h i (List.mem_append_left _ hi),
      hr fun i hi => h i (List.mem_append_right _ hi)]

namespace Dropped

theorem refl : Dropped K e B R R :=
  ⟨fun _ _ => rfl, fun _ => List.Sublist.refl _, fun _ hx => hx.1.1⟩

theorem trans (h : Dropped K e B R R') (h' : Dropped K e B' R' R'')
    (hB : e.den R' ∩ B ∩ K ⊆ B') : Dropped K e B R R'' where
  other i hi := (h'.other i hi).trans (h.other i hi)
  sublist i := (h'.sublist i).trans (h.sublist i)
  keeps _ hx := h'.keeps ⟨⟨h.keeps hx, hB ⟨⟨h.keeps hx, hx.1.2⟩, hx.2⟩⟩, hx.2⟩

theorem widen (h : Dropped K e B R R') (hB : e.den R ∩ B' ∩ K ⊆ B) : Dropped K e B' R R' :=
  ⟨h.other, h.sublist, fun _ hx => h.keeps ⟨⟨hx.1.1, hB hx⟩, hx.2⟩⟩

/-- A tree with other cursors is not affected. -/
theorem den_other {e' : Expr} (h : Dropped K e B R R') (hd : ∀ i ∈ e'.cursors, i ∉ e.cursors) :
    e'.den R' = e'.den R := Expr.den_congr fun i hi => h.other i (hd i hi)

/-- Seeking both operands of a disjunction. -/
theorem or (hl : Dropped K el B R R') (hr : Dropped K er B R' R'')
    (hd : ∀ i ∈ er.cursors, i ∉ el.cursors) : Dropped K (.or el er) B R R'' where
  other i hi := by
    rw [Expr.cursors, List.mem_append, not_or] at hi
    exact (hr.other i hi.2).trans (hl.other i hi.1)
  sublist i := (hr.sublist i).trans (hl.sublist i)
  keeps := by
    rintro x ⟨⟨hx | hx, hB⟩, hK⟩
    · refine .inl ?_
      rw [hr.den_other fun i hi hi' => hd i hi' hi]
      exact hl.keeps ⟨⟨hx, hB⟩, hK⟩
    · refine .inr (hr.keeps ⟨⟨?_, hB⟩, hK⟩)
      rwa [hl.den_other hd]

/-- Seeking the left operand of a conjunction, then the right one from the answer on. -/
theorem and (hl : Dropped K el B R R') (hr : Dropped K er B' R' R'')
    (hd : ∀ i ∈ er.cursors, i ∉ el.cursors) (hB : el.den R ∩ B ∩ K ⊆ B') :
    Dropped K (.and el er) B R R'' where
  other i hi := by
    rw [Expr.cursors, List.mem_append, not_or] at hi
    exact (hr.other i hi.2).trans (hl.other i hi.1)
  sublist i := (hr.sublist i).trans (hl.sublist i)
  keeps := by
    rintro x ⟨⟨⟨hxl, hxr⟩, hxB⟩, hK⟩
    refine ⟨?_, hr.keeps ⟨⟨?_, hB ⟨⟨hxl, hxB⟩, hK⟩⟩, hK⟩⟩
    · rw [hr.den_other fun i hi hi' => hd i hi' hi]
      exact hl.keeps ⟨⟨hxl, hxB⟩, hK⟩
    · rwa [hl.den_other hd]

end Dropped

/-! ### The specification of a seek -/

/-- What a seek of the tree past `B` returns, and what it leaves in the cursors. -/
structure Sought (H : ℕ → Store) (F : Store) (K : Set OwnerRef) (t : ℕ) (e : Expr)
    (B : Set OwnerRef) (R : ℕ → List OwnerRef) (cursors : List Cursor) (value : Option OwnerRef)
    (cursors' : List Cursor) (R' : ℕ → List OwnerRef) : Prop where
  hold : Hold H F K t cursors' R'
  length : cursors'.length = cursors.length
  dropped : Dropped K e B R R'
  next : Next K (e.den R ∩ B) value
  known : ∀ x ∈ value, (H t).Known x

/-- Cursor `i` was moved past the bound. -/
structure Moved (H : ℕ → Store) (F : Store) (K : Set OwnerRef) (t i : ℕ) (target : Option OwnerRef)
    (exclusive : Bool) (R : ℕ → List OwnerRef) (cursors : List Cursor) (value : Option OwnerRef)
    (cursors' : List Cursor) (R' : ℕ → List OwnerRef) : Prop extends
    Sought H F K t (.term i) (past target exclusive) R cursors value cursors' R' where
  head : value = (R' i).head?
  past : (R' i).Sublist ((R i).filter fun q => decide (q ∈ past target exclusive))

variable {cursors' cursors'' : List Cursor} {value : Option OwnerRef}

theorem Hold.mono (hH : History H F K) (h : Hold H F K t cursors R) (ht : t ≤ t') :
    Hold H F K t' cursors R := fun i c hi => (h i c hi).mono hH ht

/-- The owners that a tree denotes are known. -/
theorem Hold.known (h : Hold H F K t cursors R) (he : ∀ i ∈ e.cursors, i < cursors.length) :
    ∀ x ∈ e.den R, F.Known x := by
  induction e with
  | term i =>
    have hi := he i List.mem_cons_self
    exact fun x hx => (h i _ (List.getElem?_eq_getElem hi)).known x hx
  | and l r hl hr =>
    exact fun x hx => hl (fun i hi => he i (List.mem_append_left _ hi)) x hx.1
  | or l r hl hr =>
    rintro x (hx | hx)
    · exact hl (fun i hi => he i (List.mem_append_left _ hi)) x hx
    · exact hr (fun i hi => he i (List.mem_append_right _ hi)) x hx

theorem Sought.known_final (hH : History H F K)
    (h : Sought H F K t e B R cursors value cursors' R') : ∀ x ∈ value, F.Known x :=
  fun x hx => hH.known_final (h.known x hx)

section

variable {i k : ℕ} {target : Option OwnerRef} {exclusive : Bool} {L : List OwnerRef}

/-- Cursor `i` keeps only its postings past the bound. -/
theorem dropped_update
    (h : Trim K L ((R i).filter fun q => decide (q ∈ past target exclusive))) :
    Dropped K (.term i) (past target exclusive) R (Function.update R i L) where
  other k hk := Function.update_of_ne (by rintro rfl; exact hk List.mem_cons_self) ..
  sublist k := by
    by_cases hk : k = i
    · subst hk
      rw [Function.update_self]
      exact h.sublist.trans List.filter_sublist
    · rw [Function.update_of_ne hk]
  keeps := by
    rintro x ⟨⟨hx, hB⟩, hK⟩
    change x ∈ Function.update R i L i
    rw [Function.update_self]
    exact h.keeps x (List.mem_filter.2 ⟨hx, decide_eq_true hB⟩) hK

theorem seekCursor_settles (hH : History H F K) (hc : Hold H F K t cursors R)
    (hi : i < cursors.length) (ht : ∀ q ∈ target, F.Known q) :
    Settles H t (fun fuel => Plan.seekCursor fuel cursors (some i) target exclusive) fun x t' =>
      ∃ R', Moved H F K t' i target exclusive R cursors x.1 x.2 R' := by
  have hget : cursors[i]? = some cursors[i] := List.getElem?_eq_getElem hi
  unfold Plan.seekCursor
  simp only [hget]
  refine (seek_settles hH (hc i _ hget) ht).bind ?_
  rintro ⟨value, c⟩ t' ht' ⟨L, htrim, rfl, hc'⟩
  refine Settles.pure ⟨Function.update R i L, ⟨?_, List.length_set, dropped_update htrim, ?_,
    hc'.known_head⟩, ?_, ?_⟩
  · intro k d hd
    by_cases hk : k = i
    · subst hk
      rw [List.getElem?_set_self hi, Option.some.injEq] at hd
      subst hd
      rwa [Function.update_self]
    · rw [List.getElem?_set_ne (Ne.symm hk)] at hd
      rw [Function.update_of_ne hk]
      exact (hc k d hd).mono hH ht'
  · have hset : (Expr.term i).den R ∩ past target exclusive =
        {x | x ∈ (R i).filter fun q => decide (q ∈ past target exclusive)} := by
      ext x
      simp [Expr.den]
    rw [hset]
    exact next_head? (hc'.sorted.imp fun hb => hb.lt) htrim
  · rw [Function.update_self]
  · rw [Function.update_self]
    exact htrim.sublist

end

/-- The smaller of two known owners. -/
theorem smaller_eq {s : Store} {l r : Option OwnerRef} (hl : ∀ x ∈ l, s.Known x)
    (hr : ∀ x ∈ r, s.Known x) : Plan.smaller l r = .ok (lesser l r) := by
  cases l with
  | none => cases r <;> rfl
  | some l =>
    cases r with
    | none => rfl
    | some r =>
      have hl := hl l rfl
      have hr := hr r rfl
      unfold Plan.smaller lesser
      rcases lt_trichotomy l r with h | rfl | h
      · simp only [compareOwner_lt hl hr h, ok_bind, min_eq_left (le_of_lt h)]
        rfl
      · simp only [compareOwner_self, ok_bind, min_self]
        rfl
      · simp only [compareOwner_gt hl hr h, ok_bind, min_eq_right (le_of_lt h)]
        rfl

/-- Both operands of a disjunction were sought. -/
theorem Sought.or {v w : Option OwnerRef} (hH : History H F K) (ht : t ≤ t')
    (hl : Sought H F K t el B R cursors v cursors' R')
    (hr : Sought H F K t' er B R' cursors' w cursors'' R'')
    (hd : ∀ i ∈ er.cursors, i ∉ el.cursors) :
    Sought H F K t' (.or el er) B R cursors (lesser v w) cursors'' R'' where
  hold := hr.hold
  length := hr.length.trans hl.length
  dropped := hl.dropped.or hr.dropped hd
  next := by
    have := next_union hl.next hr.next
    rwa [hl.dropped.den_other hd, ← Set.union_inter_distrib_right] at this
  known x hx := by
    rcases lesser_mem hx with hx | hx
    · exact hH.known ht (hl.known x hx)
    · exact hr.known x hx

/-- A later bound that cuts off nothing of the tree. -/
theorem Sought.restart (h : Dropped K e B R R') (hlen : cursors'.length = cursors.length)
    (hB : e.den R ∩ B ∩ K ⊆ B') (hB' : B' ⊆ B)
    (h' : Sought H F K t e B' R' cursors' value cursors'' R'') :
    Sought H F K t e B R cursors value cursors'' R'' where
  hold := h'.hold
  length := h'.length.trans hlen
  dropped := h.trans h'.dropped fun _ hx => hB ⟨⟨Expr.den_mono h.sublist hx.1.1, hx.1.2⟩, hx.2⟩
  next := h'.next.narrow (Set.inter_subset_inter (Expr.den_mono h.sublist) hB') fun _ hx hK =>
    ⟨h.keeps ⟨hx, hK⟩, hB ⟨hx, hK⟩⟩
  known := h'.known

/-! ### The interpreter -/

/-- The continuation of a seek may assume what the seek establishes. -/
def Continues (H : ℕ → Store) (F : Store) (K : Set OwnerRef) (t : ℕ) (nodes : List Node) (e : Expr)
    (B : Set OwnerRef) (R : ℕ → List OwnerRef) (cursors : List Cursor) (tasks : List Task)
    (Q : Option OwnerRef × List Cursor → ℕ → Prop) : Prop :=
  ∀ value cursors' R' t', t ≤ t' → Sought H F K t' e B R cursors value cursors' R' →
    Settles H t' (fun fuel => Plan.interpret nodes fuel cursors' tasks value) Q

/-- The interpreter seeks the tree of a node. -/
def Interprets (H : ℕ → Store) (F : Store) (K : Set OwnerRef) (nodes : List Node) (i : ℕ)
    (e : Expr) : Prop :=
  ∀ t target exclusive cursors R tasks value Q, Hold H F K t cursors R →
    (∀ c ∈ e.cursors, c < cursors.length) → (∀ q ∈ target, F.Known q) →
    Continues H F K t nodes e (past target exclusive) R cursors tasks Q →
    Settles H t (fun fuel =>
      Plan.interpret nodes fuel cursors (.seek i target exclusive :: tasks) value) Q

theorem interprets_term {i c : ℕ} {text : Text} (hH : History H F K)
    (hn : nodes.getD i .empty = .term text (some c)) : Interprets H F K nodes i (.term c) := by
  intro t target exclusive cursors R tasks value Q hold he ht hk
  refine Settles.succ ?_
  simp only [Plan.interpret, hn]
  refine (seekCursor_settles hH hold (he c List.mem_cons_self) ht).bind ?_
  rintro ⟨value, cursors'⟩ t' ht' ⟨R', hs⟩
  exact hk value cursors' R' t' ht' hs.toSought

theorem interprets_or {i l r : ℕ} (hH : History H F K) (hn : nodes.getD i .empty = .or l r)
    (hl : Interprets H F K nodes l el) (hr : Interprets H F K nodes r er)
    (hd : ∀ i ∈ er.cursors, i ∉ el.cursors) : Interprets H F K nodes i (.or el er) := by
  intro t target exclusive cursors R tasks value Q hold he ht hk
  have hel : ∀ c ∈ el.cursors, c < cursors.length := fun c hc => he c (List.mem_append_left _ hc)
  have her : ∀ c ∈ er.cursors, c < cursors.length := fun c hc => he c (List.mem_append_right _ hc)
  refine Settles.succ ?_
  simp only [Plan.interpret, hn]
  refine hl t target exclusive cursors R _ value Q hold hel ht fun v cursors' R' t' ht' hv => ?_
  refine Settles.succ ?_
  simp only [Plan.interpret]
  refine hr t' target exclusive cursors' R' _ v Q hv.hold (hv.length ▸ her) ht
    fun w cursors'' R'' t'' ht'' hw => ?_
  refine Settles.succ ?_
  simp only [Plan.interpret]
  refine Settles.ofExcept_bind (smaller_eq (hv.known_final hH) (hw.known_final hH)) ?_
  exact hk _ cursors'' R'' t'' (Nat.le_trans ht' ht'') (hv.or hH ht'' hw hd)

/-- The number of postings past a bound. -/
def postingsPast (U : List OwnerRef) (target : Option OwnerRef) (exclusive : Bool) : ℕ :=
  (U.filter fun q => decide (q ∈ past target exclusive)).length

theorem Expr.mem_flatMap_of_den {x : OwnerRef} (h : x ∈ e.den R) : x ∈ e.cursors.flatMap R := by
  induction e with
  | term i => exact List.mem_flatMap.2 ⟨i, List.mem_cons_self, h⟩
  | and l r hl hr =>
    rw [Expr.cursors, List.flatMap_append]
    exact List.mem_append_left _ (hl h.1)
  | or l r hl hr =>
    rw [Expr.cursors, List.flatMap_append]
    rcases h with h | h
    · exact List.mem_append_left _ (hl h)
    · exact List.mem_append_right _ (hr h)

/-- Both operands of a conjunction were sought, the right one from the left answer on. -/
theorem Sought.and_dropped {l : OwnerRef} {w : Option OwnerRef}
    (hl : Sought H F K t el B R cursors (some l) cursors' R')
    (hr : Sought H F K t' er (Set.Ici l) R' cursors' w cursors'' R'')
    (hd : ∀ i ∈ er.cursors, i ∉ el.cursors) : Dropped K (.and el er) B R R'' :=
  hl.dropped.and hr.dropped hd fun x hx => hl.next.2 x hx.1 hx.2

theorem interprets_and {i l r : ℕ} (hH : History H F K) (hn : nodes.getD i .empty = .and l r)
    (hl : Interprets H F K nodes l el) (hr : Interprets H F K nodes r er)
    (hd : ∀ i ∈ er.cursors, i ∉ el.cursors) : Interprets H F K nodes i (.and el er) := by
  intro t target exclusive cursors R tasks value Q hold he ht hk
  -- every restart has a later bound, so fewer of the left postings are past it
  suffices hmain : ∀ (U : List OwnerRef) n t target exclusive cursors R value,
      postingsPast U target exclusive < n → (∀ x ∈ el.den R, x ∈ U) → Hold H F K t cursors R →
      (∀ c ∈ (Expr.and el er).cursors, c < cursors.length) → (∀ q ∈ target, F.Known q) →
      Continues H F K t nodes (.and el er) (past target exclusive) R cursors tasks Q →
      Settles H t (fun fuel =>
        Plan.interpret nodes fuel cursors (.seek i target exclusive :: tasks) value) Q from
    hmain (el.cursors.flatMap R) _ t target exclusive cursors R value (Nat.lt_succ_self _)
      (fun _ hx => Expr.mem_flatMap_of_den hx) hold he ht hk
  clear hold he ht hk value R cursors exclusive target t
  intro U n
  induction n with
  | zero => exact fun _ _ _ _ _ _ hn => absurd hn (Nat.not_lt_zero _)
  | succ n ih =>
    intro t target exclusive cursors R value hlt hU hold he ht hk
    have hel : ∀ c ∈ el.cursors, c < cursors.length := fun c hc => he c (List.mem_append_left _ hc)
    have her : ∀ c ∈ er.cursors, c < cursors.length := fun c hc => he c (List.mem_append_right _ hc)
    refine Settles.succ ?_
    simp only [Plan.interpret, hn]
    refine hl t target exclusive cursors R _ value Q hold hel ht fun v cursors' R' t' ht' hv => ?_
    refine Settles.succ ?_
    cases v with
    | none =>
      simp only [Plan.interpret]
      refine hk none cursors' R' t' ht'
        ⟨hv.hold, hv.length, ?_, next_inter_none hv.next, hv.known⟩
      exact hv.dropped.and (.refl : Dropped K er Set.univ R' R') hd (Set.subset_univ _)
    | some l =>
      simp only [Plan.interpret]
      have hlk : F.Known l := hv.known_final hH l rfl
      refine hr t' (some l) false cursors' R' _ (some l) Q hv.hold (hv.length ▸ her) ?_
        fun w cursors'' R'' t'' ht'' hw => ?_
      · rintro _ ⟨⟩
        exact hlk
      have ht₂ := Nat.le_trans ht' ht''
      have hdrop := hv.and_dropped hw hd
      have hlen := hw.length.trans hv.length
      refine Settles.succ ?_
      have hnext : Next K (er.den R ∩ Set.Ici l) w := by
        have := hw.next
        rwa [hv.dropped.den_other hd] at this
      cases w with
      | none =>
        simp only [Plan.interpret]
        exact hk none cursors'' R'' t'' ht₂
          ⟨hw.hold, hlen, hdrop, next_inter_none_right hv.next hnext, hw.known⟩
      | some r =>
        have hrk : F.Known r := hw.known_final hH r rfl
        have hle : l ≤ r := hnext.1.2
        simp only [Plan.interpret]
        rcases eq_or_lt_of_le hle with rfl | hlt'
        · refine Settles.ofExcept_bind (compareOwner_self l) ?_
          exact hk (some l) cursors'' R'' t'' ht₂
            ⟨hw.hold, hlen, hdrop, next_inter_eq hv.next hnext.1.1, hw.known⟩
        · refine Settles.ofExcept_bind (compareOwner_lt hlk hrk hlt') ?_
          have hsub : past (some r) false ⊆ past target exclusive := fun x hx =>
            mem_past_of_le hv.next.1.2 (le_trans hle hx)
          refine ih t'' (some r) false cursors'' R'' (some r) ?_
            (fun x hx => hU x (Expr.den_mono hdrop.sublist hx)) hw.hold (hlen ▸ he) ?_ ?_
          · have : postingsPast U (some r) false < postingsPast U target exclusive := by
              refine length_filter_lt (a := l) (fun x hx => ?_) (hU l hv.next.1.1)
                (decide_eq_true hv.next.1.2) (decide_eq_false (not_le.2 hlt'))
              exact decide_eq_true (hsub (of_decide_eq_true hx))
            omega
          · rintro _ ⟨⟩
            exact hrk
          · intro x ds S t₃ ht₃ hs
            refine hk x ds S t₃ (Nat.le_trans ht₂ ht₃) (.restart hdrop hlen ?_ hsub hs)
            exact fun y hy => inter_from_right hv.next hnext y hy.1 hy.2

theorem interprets {i : ℕ} (hH : History H F K) (hs : Spans nodes i e) (hd : e.cursors.Nodup) :
    Interprets H F K nodes i e := by
  induction hs with
  | term hn => exact interprets_term hH hn
  | and hn _ _ ihl ihr =>
    obtain ⟨hl, hr, hlr⟩ := List.nodup_append.1 hd
    exact interprets_and hH hn (ihl hl) (ihr hr) fun i hi hi' => hlr i hi' i hi rfl
  | or hn _ _ ihl ihr =>
    obtain ⟨hl, hr, hlr⟩ := List.nodup_append.1 hd
    exact interprets_or hH hn (ihl hl) (ihr hr) fun i hi hi' => hlr i hi' i hi rfl

/-! ### The two-term paths -/

section

variable {i j : ℕ} {target : Option OwnerRef} {a : OwnerRef} {as : List OwnerRef}

/-- The owner that a cursor stands on is the next of its term. -/
theorem Hold.next (h : Hold H F K t cursors R) (hi : i < cursors.length) (ha : R i = a :: as) :
    Next K ((Expr.term i).den R ∩ Set.univ) (some a) ∧ (H t).Known a := by
  have hc := h i _ (List.getElem?_eq_getElem hi)
  have hhead : (R i).head? = some a := by rw [ha]; rfl
  refine ⟨?_, hc.known_head a hhead⟩
  have := next_head? (hc.sorted.imp fun hb => hb.lt) (.refl (K := K) (R i))
  rwa [hhead, ← Set.inter_univ {x | x ∈ R i}] at this

/-- A move past another owner drops the owner that the cursor stood on. -/
theorem Moved.length_lt {b : OwnerRef}
    (h : Moved H F K t i (some b) false R cursors value cursors' R') (ha : a ∈ R i) (hab : a < b) :
    (R' i).length < (R i).length := by
  refine Nat.lt_of_le_of_lt h.past.length_le ?_
  refine List.length_filter_lt_length_iff_exists.2 ⟨a, ha, ?_⟩
  simpa using hab

/-- The loop over two cursors that already stand on their next owners. -/
theorem pairAndFrom_settles (hH : History H F K) (hij : i ≠ j) (hi : i < cursors.length)
    (hj : j < cursors.length) (hold : Hold H F K t cursors R) :
    Settles H t
      (fun fuel => Plan.pairAndFrom (some i) (some j) fuel cursors (R i).head? (R j).head?)
      fun x t' => ∃ R', Sought H F K t' (.and (.term i) (.term j)) Set.univ R cursors x.1 x.2
        R' := by
  suffices hmain : ∀ n t cursors (R : ℕ → List OwnerRef), (R i).length + (R j).length < n →
      i < cursors.length → j < cursors.length → Hold H F K t cursors R →
      Settles H t
        (fun fuel => Plan.pairAndFrom (some i) (some j) fuel cursors (R i).head? (R j).head?)
        fun x t' => ∃ R',
          Sought H F K t' (.and (.term i) (.term j)) Set.univ R cursors x.1 x.2 R' from
    hmain _ t cursors R (Nat.lt_succ_self _) hi hj hold
  clear hi hj hold
  intro n
  induction n with
  | zero => exact fun _ _ _ hn => absurd hn (Nat.not_lt_zero _)
  | succ n ih =>
    intro t cursors R hn hi hj hold
    have hdis : ∀ k ∈ (Expr.term j).cursors, k ∉ (Expr.term i).cursors := by
      simpa [Expr.cursors] using Ne.symm hij
    have hstop : Next K ((Expr.and (.term i) (.term j)).den R ∩ Set.univ) none →
        Settles H t (fun _ => (pure (none, cursors) : Rd _)) fun x t' => ∃ R',
          Sought H F K t' (.and (.term i) (.term j)) Set.univ R cursors x.1 x.2 R' := fun hnone =>
      Settles.pure ⟨R, hold, rfl, .refl, hnone, fun _ hx => absurd hx (Option.not_mem_none _)⟩
    refine Settles.succ ?_
    cases hl : R i with
    | nil =>
      simp only [Plan.pairAndFrom, List.head?_nil]
      refine hstop fun x hx => ?_
      have : x ∈ R i := hx.1.1
      rw [hl] at this
      exact absurd this List.not_mem_nil
    | cons l ls =>
      cases hr : R j with
      | nil =>
        simp only [Plan.pairAndFrom, List.head?_nil]
        refine hstop fun x hx => ?_
        have : x ∈ R j := hx.1.2
        rw [hr] at this
        exact absurd this List.not_mem_nil
      | cons r rs =>
        obtain ⟨hll, hln⟩ := hold.next hi hl
        obtain ⟨hrr, hrn⟩ := hold.next hj hr
        have hlk : F.Known l := hH.known_final hln
        have hrk : F.Known r := hH.known_final hrn
        simp only [Plan.pairAndFrom, List.head?_cons]
        -- whichever cursor is behind moves up to the other's owner; nothing common lies between
        rcases lt_trichotomy l r with hlt | rfl | hgt
        · refine Settles.ofExcept_bind (compareOwner_lt hlk hrk hlt) ?_
          refine (seekCursor_settles hH hold hi (by rintro _ ⟨⟩; exact hrk)).bind ?_
          rintro ⟨value, cursors'⟩ t' ht' ⟨S, hs⟩
          have hdrop : Dropped K (.and (.term i) (.term j)) Set.univ R S :=
            (hs.dropped.and (.refl : Dropped K (.term j) Set.univ _ _) hdis
              (Set.subset_univ _)).widen fun x hx => hrr.2 x ⟨hx.1.1.2, trivial⟩ hx.2
          have hlen := hs.length_lt hll.1.1 hlt
          have hj' : S j = R j := hs.dropped.other j (hdis j List.mem_cons_self)
          have := ih t' cursors' S (by rw [hj']; omega) (hs.length ▸ hi) (hs.length ▸ hj) hs.hold
          rw [hj', hr, ← hs.head] at this
          refine this.mono ?_
          rintro x t'' - ⟨R', hx⟩
          exact ⟨R', .restart hdrop hs.length (Set.subset_univ _) (Set.subset_univ _) hx⟩
        · refine Settles.ofExcept_bind (compareOwner_self l) ?_
          refine Settles.pure ⟨R, hold, rfl, .refl, next_inter_eq hll hrr.1.1, ?_⟩
          rintro _ ⟨⟩
          exact hln
        · refine Settles.ofExcept_bind (compareOwner_gt hlk hrk hgt) ?_
          refine (seekCursor_settles hH hold hj (by rintro _ ⟨⟩; exact hlk)).bind ?_
          rintro ⟨value, cursors'⟩ t' ht' ⟨S, hs⟩
          have hdrop : Dropped K (.and (.term i) (.term j)) Set.univ R S :=
            ((.refl : Dropped K (.term i) (past (some l) false) R R).and hs.dropped hdis
              fun x hx => hx.1.2).widen fun x hx => hll.2 x ⟨hx.1.1.1, trivial⟩ hx.2
          have hlen := hs.length_lt hrr.1.1 hgt
          have hi' : S i = R i :=
            hs.dropped.other i (by simpa [Expr.cursors] using hij)
          have := ih t' cursors' S (by rw [hi']; omega) (hs.length ▸ hi) (hs.length ▸ hj) hs.hold
          rw [hi', hl, ← hs.head] at this
          refine this.mono ?_
          rintro x t'' - ⟨R', hx⟩
          exact ⟨R', .restart hdrop hs.length (Set.subset_univ _) (Set.subset_univ _) hx⟩

theorem seekPairAnd_settles (hH : History H F K) (hij : i ≠ j) (hi : i < cursors.length)
    (hj : j < cursors.length) (hold : Hold H F K t cursors R) (ht : ∀ q ∈ target, F.Known q) :
    Settles H t (fun fuel => Plan.seekPairAnd fuel cursors (some i) (some j) target) fun x t' =>
      ∃ R', Sought H F K t' (.and (.term i) (.term j)) (past target true) R cursors x.1 x.2 R' := by
  unfold Plan.seekPairAnd
  refine Settles.ensure_bind (fun he => hij (Option.some.inj he)) ?_
  refine (seekCursor_settles hH hold hi ht).bind ?_
  rintro ⟨v, cursors₁⟩ t₁ - ⟨R₁, h₁⟩
  refine (seekCursor_settles hH h₁.hold (h₁.length ▸ hj) ht).bind ?_
  rintro ⟨w, cursors₂⟩ t₂ - ⟨R₂, h₂⟩
  have hlen := h₂.length.trans h₁.length
  have hd : ∀ k ∈ (Expr.term j).cursors, k ∉ (Expr.term i).cursors := by
    simpa [Expr.cursors] using Ne.symm hij
  have hi' : R₂ i = R₁ i := h₂.dropped.other i (by simpa [Expr.cursors] using hij)
  have := pairAndFrom_settles hH hij (hlen ▸ hi) (hlen ▸ hj) h₂.hold
  rw [hi', ← h₁.head, ← h₂.head] at this
  refine this.mono ?_
  rintro x t₃ - ⟨R', hx⟩
  have hdrop := h₁.dropped.and h₂.dropped hd fun y hy => hy.1.2
  refine ⟨R', hx.hold, hx.length.trans hlen, hdrop.trans hx.dropped (Set.subset_univ _), ?_,
    hx.known⟩
  -- both cursors now hold only owners past the target
  refine hx.next.narrow (fun y hy => ⟨Expr.den_mono hdrop.sublist hy.1, ?_⟩) fun y hy hK =>
    ⟨hdrop.keeps ⟨hy, hK⟩, trivial⟩
  have hyj : y ∈ R₂ j := hy.1.2
  exact of_decide_eq_true (List.mem_filter.1 (h₂.past.subset hyj)).2

theorem seekPairOr_settles (hH : History H F K) (hij : i ≠ j) (hi : i < cursors.length)
    (hj : j < cursors.length) (hold : Hold H F K t cursors R) (ht : ∀ q ∈ target, F.Known q) :
    Settles H t (fun fuel => Plan.seekPairOr fuel cursors (some i) (some j) target) fun x t' =>
      ∃ R', Sought H F K t' (.or (.term i) (.term j)) (past target true) R cursors x.1 x.2 R' := by
  unfold Plan.seekPairOr
  refine Settles.ensure_bind (fun he => hij (Option.some.inj he)) ?_
  refine (seekCursor_settles hH hold hi ht).bind ?_
  rintro ⟨v, cursors₁⟩ t₁ - ⟨R₁, h₁⟩
  refine (seekCursor_settles hH h₁.hold (h₁.length ▸ hj) ht).bind ?_
  rintro ⟨w, cursors₂⟩ t₂ ht₂ ⟨R₂, h₂⟩
  refine Settles.ofExcept_bind (smaller_eq (h₁.known_final hH) (h₂.known_final hH)) ?_
  refine Settles.pure ⟨R₂, h₁.toSought.or hH ht₂ h₂.toSought ?_⟩
  simpa [Expr.cursors] using Ne.symm hij

/-- Every path of `Plan.seek` meets the specification. -/
theorem planSeek_settles {p : Plan} (hH : History H F K) (hs : Spans p.nodes p.root e)
    (hd : e.cursors.Nodup) (he : ∀ c ∈ e.cursors, c < p.cursors.length)
    (hold : Hold H F K t p.cursors R) (ht : ∀ q ∈ target, F.Known q) :
    Settles H t (fun fuel => p.seek fuel target) fun x t' =>
      ∃ R', Sought H F K t' e (past target true) R p.cursors x.1 x.2.cursors R' ∧
        x.2.nodes = p.nodes ∧ x.2.root = p.root := by
  -- the interpreter, run on the root alone
  have hint : Settles H t (fun fuel =>
        Plan.interpret p.nodes fuel p.cursors [.seek p.root target true] none) fun x t' =>
      ∃ R', Sought H F K t' e (past target true) R p.cursors x.1 x.2 R' := by
    refine interprets hH hs hd t target true p.cursors R [] none _ hold he ht ?_
    intro value cursors' R' t' ht' hv
    refine Settles.succ ?_
    simp only [Plan.interpret]
    exact Settles.pure ⟨R', hv⟩
  have hfinish : ∀ {x : ℕ → Rd (Option OwnerRef × List Cursor)},
      Settles H t x (fun y t' =>
        ∃ R', Sought H F K t' e (past target true) R p.cursors y.1 y.2 R') →
      Settles H t (fun fuel => do
        let y ← x fuel
        return (y.1, { p with cursors := y.2 })) fun x t' =>
          ∃ R', Sought H F K t' e (past target true) R p.cursors x.1 x.2.cursors R' ∧
            x.2.nodes = p.nodes ∧ x.2.root = p.root := by
    intro x hx
    refine hx.bind ?_
    rintro ⟨value, cursors'⟩ t' - ⟨R', hv⟩
    exact Settles.pure ⟨R', hv, rfl, rfl⟩
  unfold Plan.seek
  cases hs with
  | @term _ text c hn =>
    simp only [hn]
    refine hfinish ((seekCursor_settles hH hold (he c List.mem_cons_self) ht).mono ?_)
    rintro x t' - ⟨R', hx⟩
    exact ⟨R', hx.toSought⟩
  | @and _ l r el er hn hl hr =>
    simp only [hn]
    cases hl with
    | @term _ _ i hni =>
      cases hr with
      | @term _ _ j hnj =>
        simp only [hni, hnj]
        have hij : i ≠ j := by simpa [Expr.cursors] using hd
        refine hfinish (seekPairAnd_settles hH hij (he i ?_) (he j ?_) hold ht)
        · exact List.mem_cons_self
        · exact List.mem_cons_of_mem _ List.mem_cons_self
      | and hnj => simp only [hni, hnj]; exact hfinish hint
      | or hnj => simp only [hni, hnj]; exact hfinish hint
    | and hni => simp only [hni]; exact hfinish hint
    | or hni => simp only [hni]; exact hfinish hint
  | @or _ l r el er hn hl hr =>
    simp only [hn]
    cases hl with
    | @term _ _ i hni =>
      cases hr with
      | @term _ _ j hnj =>
        simp only [hni, hnj]
        have hij : i ≠ j := by simpa [Expr.cursors] using hd
        refine hfinish (seekPairOr_settles hH hij (he i ?_) (he j ?_) hold ht)
        · exact List.mem_cons_self
        · exact List.mem_cons_of_mem _ List.mem_cons_self
      | and hnj => simp only [hni, hnj]; exact hfinish hint
      | or hnj => simp only [hni, hnj]; exact hfinish hint
    | and hni => simp only [hni]; exact hfinish hint
    | or hni => simp only [hni]; exact hfinish hint

end

end

end PinCore
