import Mathlib.Data.Prod.Lex
import PinCore.Lib.Fuel
import PinCore.Lib.Seek
import PinCore.Scan.Terms

/-!
# Cursors

A cursor stands on an owner of one term and holds the rest of the term's postings.  Seeking
drops the postings before a bound, whole direct pages at a time where it can, and nothing else but
owners that were listed after the chain was captured.
-/

namespace PinCore

open Obs

/-! ### The order of owners -/

/-- Owners are ordered by place, then by incarnation. -/
instance : LinearOrder OwnerRef :=
  LinearOrder.lift' (fun r => toLex (r.page, toLex (r.slot, r.incarnation))) fun a b h => by
    cases a
    cases b
    simp_all

section

variable {s : Store} {a b : OwnerRef}

theorem OwnerRef.lt_iff :
    a < b ↔ a.posLt b ∨ (a.page = b.page ∧ a.slot = b.slot ∧ a.incarnation < b.incarnation) := by
  change toLex (a.page, toLex (a.slot, a.incarnation)) <
    toLex (b.page, toLex (b.slot, b.incarnation)) ↔ _
  rw [Prod.Lex.toLex_lt_toLex, Prod.Lex.toLex_lt_toLex]
  unfold OwnerRef.posLt
  tauto

theorem OwnerRef.Before.lt (h : a.Before b) : a < b := OwnerRef.lt_iff.2 (.inl h.1)

/-- Known owners of the same place are the same. -/
theorem Store.Known.eq_of_place (ha : s.Known a) (hb : s.Known b) (hp : a.page = b.page)
    (hs : a.slot = b.slot) : a = b := by
  obtain ⟨o, ho, hi⟩ := ha
  obtain ⟨o', ho', hi'⟩ := hb
  rw [hp, hs, ho', Option.some.injEq] at ho
  subst ho
  cases a
  cases b
  simp_all

theorem Store.Known.posLt (ha : s.Known a) (hb : s.Known b) (h : a < b) : a.posLt b := by
  rcases OwnerRef.lt_iff.1 h with h | ⟨hp, hs, hi⟩
  · exact h
  · obtain rfl := ha.eq_of_place hb hp hs
    exact absurd hi (Nat.lt_irrefl _)

theorem compareOwner_lt (ha : s.Known a) (hb : s.Known b) (h : a < b) :
    compareOwner a b = .ok .lt := if_pos (ha.posLt hb h)

theorem compareOwner_gt (ha : s.Known a) (hb : s.Known b) (h : b < a) :
    compareOwner a b = .ok .gt := by
  have hpos := hb.posLt ha h
  have hn : ¬ a.posLt b := fun h' => OwnerRef.posLt_irrefl (OwnerRef.posLt_trans h' hpos)
  rw [compareOwner, if_neg hn, if_pos hpos]

theorem compareOwner_self (a : OwnerRef) : compareOwner a a = .ok .eq := by
  rw [compareOwner, if_neg OwnerRef.posLt_irrefl, if_neg OwnerRef.posLt_irrefl,
    if_neg (not_not.2 rfl)]

end

/-! ### Chain cursors -/

/-- The cursor is at the end of a page, with the pages `cs` to come. -/
structure ChainCursor.Between (H : ℕ → Store) (F : Store) (K : Set OwnerRef) (t : ℕ)
    (c : ChainCursor) (cs : List ℕ) : Prop where
  inline : c.inlineSecond = none
  page : c.page = none
  block : c.block = cs.head?.getD noBlock
  trail : Trail H F K t c.reference c.tail cs
  room : cs.length ≤ c.remaining

/-- The postings that a chain cursor has not returned yet. -/
inductive ChainCursor.Rests (H : ℕ → Store) (F : Store) (K : Set OwnerRef) (t : ℕ)
    (c : ChainCursor) : List OwnerRef → Prop
  | inline (second : OwnerRef) (hs : c.inlineSecond = some second) (hp : c.page = none)
      (hb : c.block = noBlock) (hk : (H t).Known second) : Rests H F K t c [second]
  | opened (t₁ b : ℕ) (cs : List ℕ) (pre us : List OwnerRef) (h₁ : t₁ ≤ t)
      (hs : c.inlineSecond = none) (hp : c.page = some ⟨(H t₁).page b, us⟩)
      (hu : ((H t₁).body b).postingRefs = pre ++ us)
      (htr : Trail H F K t₁ c.reference c.tail (b :: cs)) (hr : cs.length < c.remaining) :
      Rests H F K t c (us ++ chainRefs F cs)
  | closed (cs : List ℕ) (h : c.Between H F K t cs) : Rests H F K t c (chainRefs F cs)

/-- The open page of a cursor on `r` was read up to `r`. -/
def ChainCursor.OnPage (H : ℕ → Store) (t : ℕ) (c : ChainCursor) (r : OwnerRef) : Prop :=
  ∀ p ∈ c.page, ∃ t₁ b pre, t₁ ≤ t ∧ p.page = (H t₁).page b ∧
    ((H t₁).body b).postingRefs = pre ++ r :: p.rest

section

variable {H : ℕ → Store} {F : Store} {K : Set OwnerRef} {t t' t₁ : ℕ} {c : ChainCursor}
  {r : OwnerRef} {rest : List OwnerRef} {cs : List ℕ}

theorem ChainCursor.Between.mono (hH : History H F K) (h : c.Between H F K t cs) (ht : t ≤ t') :
    c.Between H F K t' cs := ⟨h.inline, h.page, h.block, h.trail.mono hH ht, h.room⟩

theorem ChainCursor.Rests.mono (hH : History H F K) (h : c.Rests H F K t rest) (ht : t ≤ t') :
    c.Rests H F K t' rest := by
  cases h with
  | inline second hs hp hb hk => exact .inline second hs hp hb (hH.known ht hk)
  | opened t₁ b cs pre us h₁ hs hp hu htr hr =>
    exact .opened t₁ b cs pre us (Nat.le_trans h₁ ht) hs hp hu htr hr
  | closed cs h => exact .closed cs (h.mono hH ht)

theorem ChainCursor.OnPage.mono (h : c.OnPage H t r) (ht : t ≤ t') : c.OnPage H t' r := by
  intro p hp
  obtain ⟨t₁, b, pre, h₁, h⟩ := h p hp
  exact ⟨t₁, b, pre, Nat.le_trans h₁ ht, h⟩

theorem accept_eq {owner : OwnerRef} (h : c.previous.Before owner) : c.accept owner = .ok ⟨⟩ := by
  have hc : compareOwner c.previous owner = .ok .lt := if_pos h.1
  rw [ChainCursor.accept, hc]
  have hn : ¬ (Ordering.lt ≠ Ordering.lt ∨ owner.incarnation ≤ c.previous.incarnation) := by
    rintro (hn | hn)
    · exact hn rfl
    · exact Nat.not_lt.2 hn h.2
  exact if_neg hn

/-- What `advance` returns when the postings `rest` are left. -/
def Advanced (H : ℕ → Store) (F : Store) (K : Set OwnerRef) (rest : List OwnerRef)
    (x : Option OwnerRef × ChainCursor) (t : ℕ) : Prop :=
  match rest with
  | [] => x.1 = none
  | r :: rest =>
    x.1 = some r ∧ x.2.Rests H F K t rest ∧ x.2.previous = r ∧ x.2.OnPage H t r ∧ (H t).Known r

/-- The step to the page after the current one. -/
theorem ChainCursor.Between.next {b : ℕ} (hH : History H F K) (h₁ : t₁ ≤ t)
    (htr : Trail H F K t₁ c.reference c.tail (b :: cs)) (hs : c.inlineSecond = none)
    (hr : cs.length < c.remaining) {previous : OwnerRef} :
    ChainCursor.Between H F K t { c with
      previous, block := cs.head?.getD noBlock, remaining := c.remaining - 1,
      page := none } cs where
  inline := hs
  page := rfl
  block := rfl
  trail := htr.rest.mono hH h₁
  room := by
    simp only
    omega

theorem advance_inline {second : OwnerRef} (hs : c.inlineSecond = some second)
    (ho : c.previous.Before second) :
    Settles H t (fun fuel => c.advance fuel) fun x t' =>
      t' = t ∧ x = (some second, { c with inlineSecond := none, previous := second }) := by
  refine Settles.succ ?_
  simp only [ChainCursor.advance, hs]
  exact Settles.ofExcept_bind (accept_eq ho) (Settles.pure ⟨rfl, rfl⟩)

theorem advance_take {p : Page} {us : List OwnerRef} (hs : c.inlineSecond = none)
    (hp : c.page = some ⟨p, r :: us⟩) (ho : c.previous.Before r) :
    Settles H t (fun fuel => c.advance fuel) fun x t' =>
      t' = t ∧ x = (some r, { c with previous := r, page := some ⟨p, us⟩ }) := by
  refine Settles.succ ?_
  simp only [ChainCursor.advance, hs, hp]
  exact Settles.ofExcept_bind (accept_eq ho) (Settles.pure ⟨rfl, rfl⟩)

theorem advance_close {b : ℕ} {Q : Option OwnerRef × ChainCursor → ℕ → Prop}
    (hH : History H F K) (hs : c.inlineSecond = none) (hpage : c.page = some ⟨(H t₁).page b, []⟩)
    (htr : Trail H F K t₁ c.reference c.tail (b :: cs)) (hr : cs.length < c.remaining)
    (hrest : Settles H t (fun fuel => ChainCursor.advance fuel { c with
      block := cs.head?.getD noBlock, remaining := c.remaining - 1, page := none }) Q) :
    Settles H t (fun fuel => c.advance fuel) Q := by
  refine Settles.succ ?_
  simp only [hs] at hrest
  simp only [ChainCursor.advance, hs, hpage]
  exact Settles.ofExcept_bind (htr.next hH (Nat.le_refl t₁) hr) hrest

theorem advance_open {Q : Option OwnerRef × ChainCursor → ℕ → Prop} (hH : History H F K)
    (hs : c.inlineSecond = none) (hpage : c.page = none) (hb : c.block ≠ noBlock)
    (htag : ((H t).body c.block).postingTag = some c.reference)
    (hrest : ∀ t₁ t', t ≤ t₁ → t₁ ≤ t' → Settles H t' (fun fuel => ChainCursor.advance fuel { c with
      page := some ⟨(H t₁).page c.block, ((H t₁).body c.block).postingRefs⟩ }) Q) :
    Settles H t (fun fuel => c.advance fuel) Q := by
  refine Settles.succ ?_
  simp only [hs] at hrest
  simp only [ChainCursor.advance, hs, hpage, if_neg hb]
  refine (loadPosting_sees hH htag).bind_settles ?_
  rintro _ t' ht' ⟨t₁, h₁, h₂, rfl⟩
  have htag₁ := ((hH.mono t t₁ h₁).posting _ _ htag).1
  refine Settles.ofExcept_bind
    (a := ⟨(H t₁).page c.block, ((H t₁).body c.block).postingRefs⟩) ?_ (hrest t₁ t' h₁ h₂)
  rw [OwnedPostings.new, postingRefs_eq (hH.pages t₁) htag₁]
  rfl

/-- From the end of a page on, over as many empty pages as there are. -/
theorem advance_closed (hH : History H F K) (hc : c.Between H F K t cs)
    (ho : (c.previous :: chainRefs F cs).Pairwise OwnerRef.Before) :
    Settles H t (fun fuel => c.advance fuel) fun x t' =>
      ∃ rest, Trim K rest (chainRefs F cs) ∧ Advanced H F K rest x t' := by
  induction cs generalizing c t with
  | nil =>
    have hb : c.block = noBlock := hc.block
    refine Settles.succ ?_
    simp only [ChainCursor.advance, hc.inline, hc.page, if_pos hb]
    exact Settles.pure ⟨[], .refl _, rfl⟩
  | cons b cs ih =>
    obtain rfl : c.block = b := hc.block
    have htr := hc.trail
    have hb : c.block ≠ noBlock := htr.ne_noBlock hH _ List.mem_cons_self
    have hst := htr.steady c.block List.mem_cons_self
    have hrefs : chainRefs F (c.block :: cs) = (F.body c.block).postingRefs ++ chainRefs F cs := rfl
    refine advance_open hH hc.inline hc.page hb hst.tag fun t₁ t' h₁ h₂ => ?_
    -- the page lacks only owners added after it was read
    have htrim : Trim K (((H t₁).body c.block).postingRefs ++ chainRefs F cs)
        (chainRefs F (c.block :: cs)) := ((hst.mono hH h₁).trim hH).append (.refl _)
    have ho' := ho.sublist (htrim.sublist.cons_cons c.previous)
    have htr₁ := htr.mono hH h₁
    cases hu : ((H t₁).body c.block).postingRefs with
    | nil =>
      rw [hu] at htrim ho'
      refine advance_close hH hc.inline rfl htr₁ hc.room ?_
      refine (ih (.next hH h₂ htr₁ hc.inline hc.room) ho').mono ?_
      rintro x t'' - ⟨rest, hrest, hadv⟩
      exact ⟨rest, hrest.trans htrim, hadv⟩
    | cons r us =>
      rw [hu] at htrim ho'
      refine (advance_take (c := { c with page := some ⟨(H t₁).page c.block, r :: us⟩ }) hc.inline
        rfl ((List.pairwise_cons.1 ho').1 r List.mem_cons_self)).mono ?_
      rintro _ _ - ⟨rfl, rfl⟩
      have hknown : (H t₁).Known r := (hH.refs t₁).posting c.block r (by rw [hu]; simp)
      refine ⟨_, htrim, rfl, .opened t₁ c.block cs [r] us h₂ hc.inline rfl hu htr₁ hc.room, rfl, ?_,
        hH.known h₂ hknown⟩
      rintro p ⟨⟩
      exact ⟨t₁, c.block, [], h₂, rfl, hu⟩

/-- `advance` returns the next posting. -/
theorem advance_settles (hH : History H F K) (hc : c.Rests H F K t rest)
    (ho : (c.previous :: rest).Pairwise OwnerRef.Before) :
    Settles H t (fun fuel => c.advance fuel) fun x t' =>
      ∃ rest', Trim K rest' rest ∧ Advanced H F K rest' x t' := by
  cases hc with
  | inline second hs hp hb hk =>
    refine (advance_inline hs ((List.pairwise_cons.1 ho).1 second List.mem_cons_self)).mono ?_
    rintro _ t' - ⟨rfl, rfl⟩
    refine ⟨_, .refl _, rfl, ?_, rfl, fun p hm => absurd hm (by simp [hp]), hk⟩
    have hrest : ChainCursor.Rests H F K t' { c with inlineSecond := none, previous := second }
        (chainRefs F []) := .closed [] ⟨rfl, hp, hb, .nil, Nat.zero_le _⟩
    exact hrest
  | opened t₁ b cs pre us h₁ hs hp hu htr hr =>
    cases us with
    | nil => exact advance_close hH hs hp htr hr (advance_closed hH (.next hH h₁ htr hs hr) ho)
    | cons r us =>
      refine (advance_take hs hp ((List.pairwise_cons.1 ho).1 r List.mem_cons_self)).mono ?_
      rintro _ _ - ⟨rfl, rfl⟩
      have hknown : (H t₁).Known r := (hH.refs t₁).posting b r (by rw [hu]; simp)
      refine ⟨_, .refl _, rfl, .opened t₁ b cs (pre ++ [r]) us h₁ hs rfl ?_ htr hr, rfl, ?_,
        hH.known h₁ hknown⟩
      · rw [hu, List.append_assoc]; rfl
      · rintro p ⟨⟩
        exact ⟨t₁, b, pre, h₁, rfl, hu⟩
  | closed cs hc => exact advance_closed hH hc ho

/-! ### Seeking -/

/-- The test that ends a seek decides whether an owner is past the bound. -/
theorem compareOwner_past {s : Store} {a target : OwnerRef} (exclusive : Bool) (ha : s.Known a)
    (ht : s.Known target) :
    ∃ order, compareOwner a target = .ok order ∧
      ((order = .gt ∨ (order = .eq ∧ exclusive = false)) ↔ a ∈ past (some target) exclusive) := by
  rcases lt_trichotomy a target with h | h | h
  · refine ⟨.lt, compareOwner_lt ha ht h, ?_⟩
    cases exclusive <;> simp [le_of_lt h, not_le.2 h]
  · subst h
    refine ⟨.eq, compareOwner_self a, ?_⟩
    cases exclusive <;> simp
  · refine ⟨.gt, compareOwner_gt ha ht h, ?_⟩
    cases exclusive <;> simp [h, le_of_lt h]

/-- The last owner of the open page is the last of what was not returned, or the current one. -/
theorem le_getLast {us : List OwnerRef} (ho : (r :: us).Pairwise OwnerRef.Before) :
    ∀ q ∈ r :: us, q = us.getLastD r ∨ q.Before (us.getLastD r) := by
  intro q hq
  rcases List.eq_nil_or_concat us with rfl | ⟨init, last, rfl⟩
  · exact .inl (List.mem_singleton.1 hq)
  · rw [List.concat_eq_append] at hq ho ⊢
    rw [List.getLastD_concat]
    rw [← List.cons_append] at hq ho
    rcases List.mem_append.1 hq with hq | hq
    · exact .inr ((List.pairwise_append.1 ho).2.2 q hq last List.mem_cons_self)
    · exact .inl (List.mem_singleton.1 hq)

theorem skipDirectBefore_stay {target first last : OwnerRef} {exclusive : Bool} {p : Page}
    {us : List OwnerRef} {order : Ordering} (hpage : c.page = some ⟨p, us⟩)
    (hends : p.directEndpoints = .ok (first, last)) (horder : compareOwner last target = .ok order)
    (hin : order = .gt ∨ (order = .eq ∧ exclusive = false)) :
    c.skipDirectBefore target exclusive = .ok c := by
  rw [ChainCursor.skipDirectBefore, hpage]
  simp only [hends, horder, ok_bind, if_pos hin, ite_self]

theorem skipDirectBefore_jump {target first last : OwnerRef} {exclusive : Bool} {p : Page}
    {us : List OwnerRef} {order back : Ordering} {next : Option ℕ} {remaining : ℕ}
    (hpage : c.page = some ⟨p, us⟩) (hkind : p.kind = .directPostings)
    (hends : p.directEndpoints = .ok (first, last)) (horder : compareOwner last target = .ok order)
    (hout : ¬ (order = .gt ∨ (order = .eq ∧ exclusive = false)))
    (hback : compareOwner c.previous last = .ok back)
    (hle : ¬ (back = .gt ∨ last.incarnation < c.previous.incarnation))
    (hnext : postingNext p c.tail c.remaining = .ok (next, remaining)) :
    c.skipDirectBefore target exclusive =
      .ok { c with previous := last, block := next.getD noBlock, remaining, page := none } := by
  rw [ChainCursor.skipDirectBefore, hpage]
  simp only [if_neg (not_not.2 hkind), hends, horder, ok_bind, if_neg hout, hback, if_neg hle,
    hnext]

/-- Skipping drops only postings before the bound. -/
theorem skipDirectBefore_ok {target : OwnerRef} (exclusive : Bool) (hH : History H F K)
    (hc : c.Rests H F K t rest) (hp : c.previous = r) (hon : c.OnPage H t r)
    (ho : (r :: rest).Pairwise OwnerRef.Before) (hk : ∀ q ∈ r :: rest, F.Known q)
    (ht : F.Known target) :
    ∃ c' dropped rest', c.skipDirectBefore target exclusive = .ok c' ∧ c'.Rests H F K t rest' ∧
      (c'.previous :: rest').Pairwise OwnerRef.Before ∧ rest = dropped ++ rest' ∧
      ∀ q ∈ dropped, q ∉ past (some target) exclusive := by
  have hstay : c.skipDirectBefore target exclusive = .ok c → ∃ c' dropped rest',
      c.skipDirectBefore target exclusive = .ok c' ∧ c'.Rests H F K t rest' ∧
      (c'.previous :: rest').Pairwise OwnerRef.Before ∧ rest = dropped ++ rest' ∧
      ∀ q ∈ dropped, q ∉ past (some target) exclusive := fun he =>
    ⟨c, [], rest, he, hc, hp ▸ ho, rfl, fun q hq => absurd hq List.not_mem_nil⟩
  cases hc with
  | inline second hs hpage hb hks =>
    exact hstay (by rw [ChainCursor.skipDirectBefore, hpage])
  | closed cs hcs =>
    exact hstay (by rw [ChainCursor.skipDirectBefore, hcs.page])
  | opened t₁ b cs pre us h₁ hs hpage hu htr hr =>
    by_cases hkind : ((H t₁).page b).kind ≠ .directPostings
    · exact hstay (by rw [ChainCursor.skipDirectBefore, hpage]; exact if_pos hkind)
    obtain ⟨u, first, last, records, hb⟩ := direct_of_kind ((H t₁).body b) (not_not.1 hkind)
    -- the last owner of the page is the last one not returned yet
    have hlast : last = us.getLastD r := by
      obtain ⟨t₂, b', pre', -, hb', hu'⟩ := hon _ hpage
      have hbody : (H t₁).body b = (H t₂).body b' := congrArg Page.body hb'
      rw [← hbody] at hu'
      have hok := (hH.pages t₁).ok b
      rw [hb] at hok
      have hrefs : ((H t₁).body b).postingRefs = records.map (·.owner) := by rw [hb]; rfl
      have := hok.2.2.2.2
      rw [← hrefs, hu', List.getLast?_append, List.getLast?_cons] at this
      rw [List.getLastD_eq_getLast?]
      exact (Option.some.inj this).symm
    have hends : ((H t₁).page b).directEndpoints = .ok (first, last) := by
      have hb' : ((H t₁).page b).body = .direct u first last records := hb
      rw [Page.directEndpoints, hb']
    have hsub : (r :: us).Sublist (r :: (us ++ chainRefs F cs)) :=
      (List.sublist_append_left _ _).cons_cons _
    have hlk : F.Known last := hk last (hsub.subset (hlast ▸ List.getLastD_mem_cons))
    have hle := le_getLast (ho.sublist hsub)
    rw [← hlast] at hle
    obtain ⟨order, horder, hpast⟩ := compareOwner_past exclusive hlk ht
    by_cases hin : last ∈ past (some target) exclusive
    · exact hstay (skipDirectBefore_stay hpage hends horder (hpast.2 hin))
    · have hback : ∃ back, compareOwner c.previous last = .ok back ∧
          ¬ (back = .gt ∨ last.incarnation < c.previous.incarnation) := by
        rw [hp]
        rcases hle r List.mem_cons_self with heq | hlt
        · rw [← heq]; exact ⟨.eq, compareOwner_self r, by simp⟩
        · refine ⟨.lt, if_pos hlt.1, ?_⟩
          have := hlt.2
          simp only [reduceCtorEq, false_or]
          omega
      obtain ⟨back, hback, hn⟩ := hback
      have hskip := skipDirectBefore_jump hpage (not_not.1 hkind) hends horder
        (fun hh => hin (hpast.1 hh)) hback hn (htr.next hH (Nat.le_refl t₁) hr)
      refine ⟨_, us, chainRefs F cs, hskip, .closed cs (.next hH h₁ htr hs hr), ?_, rfl, ?_⟩
      · rw [hlast]
        exact (before_after_page ho).2
      · intro q hq hqp
        rcases hle q (List.mem_cons_of_mem _ hq) with rfl | hlt
        · exact hin hqp
        · exact hin (mem_past_of_le hqp (le_of_lt hlt.lt))

/-- The postings of a cursor: the owner it stands on and those after it. -/
inductive Cursor.Holds (H : ℕ → Store) (F : Store) (K : Set OwnerRef) (t : ℕ) (c : Cursor) :
    List OwnerRef → Prop
  | done (hc : c.current = none) : Holds H F K t c []
  | standing (r : OwnerRef) (rest : List OwnerRef) (chain : ChainCursor) (hc : c.current = some r)
      (hch : c.chain = some chain) (hr : chain.Rests H F K t rest) (hp : chain.previous = r)
      (hon : chain.OnPage H t r) (ho : (r :: rest).Pairwise OwnerRef.Before)
      (hk : ∀ q ∈ r :: rest, F.Known q) (hn : (H t).Known r) : Holds H F K t c (r :: rest)

variable {cursor : Cursor} {R : List OwnerRef}

theorem Cursor.Holds.mono (hH : History H F K) (h : cursor.Holds H F K t R) (ht : t ≤ t') :
    cursor.Holds H F K t' R := by
  cases h with
  | done hc => exact .done hc
  | standing r rest chain hc hch hr hp hon ho hk hn =>
    exact .standing r rest chain hc hch (hr.mono hH ht) hp (hon.mono ht) ho hk (hH.known ht hn)

theorem Cursor.Holds.current (h : cursor.Holds H F K t R) : cursor.current = R.head? := by
  cases h with
  | done hc => exact hc
  | standing r rest chain hc => exact hc

theorem Cursor.Holds.known (h : cursor.Holds H F K t R) : ∀ q ∈ R, F.Known q := by
  cases h with
  | done hc => exact fun q hq => absurd hq List.not_mem_nil
  | standing r rest chain hc hch hr hp hon ho hk => exact hk

theorem Cursor.Holds.known_head (h : cursor.Holds H F K t R) : ∀ q ∈ R.head?, (H t).Known q := by
  cases h with
  | done hc => exact fun q hq => absurd hq (Option.not_mem_none q)
  | standing r rest chain hc hch hr hp hon ho hk hn =>
    rintro q ⟨⟩
    exact hn

theorem Cursor.Holds.sorted (h : cursor.Holds H F K t R) : R.Pairwise OwnerRef.Before := by
  cases h with
  | done hc => exact List.Pairwise.nil
  | standing r rest chain hc hch hr hp hon ho hk => exact ho

/-- The postings that `advance` leaves behind the one it returns. -/
theorem Advanced.holds {value : Option OwnerRef} {chain : ChainCursor}
    (h : Advanced H F K rest (value, chain) t) (ho : rest.Pairwise OwnerRef.Before)
    (hk : ∀ q ∈ rest, F.Known q) : Cursor.Holds H F K t ⟨value, some chain⟩ rest := by
  cases rest with
  | nil => exact .done h
  | cons r rest =>
    obtain ⟨rfl, hr, hp, hon, hn⟩ := h
    exact .standing r rest chain rfl rfl hr hp hon ho hk hn

/-- In owner order, what is past a bound is a suffix. -/
theorem filter_past_of_head (target : Option OwnerRef) {exclusive : Bool}
    (ho : (r :: rest).Pairwise OwnerRef.Before) (hr : r ∈ past target exclusive) :
    (r :: rest).filter (fun q => decide (q ∈ past target exclusive)) = r :: rest := by
  refine List.filter_eq_self.2 fun q hq => decide_eq_true ?_
  rcases List.mem_cons.1 hq with rfl | hq
  · exact hr
  · exact mem_past_of_le hr (le_of_lt ((List.pairwise_cons.1 ho).1 q hq).lt)

/-- Seeking keeps the postings past the bound, apart from later ones, and returns the first. -/
theorem seek_settles {target : Option OwnerRef} {exclusive : Bool} (hH : History H F K)
    (hc : cursor.Holds H F K t R) (ht : ∀ q ∈ target, F.Known q) :
    Settles H t (fun fuel => cursor.seek fuel target exclusive) fun x t' =>
      ∃ R', Trim K R' (R.filter fun q => decide (q ∈ past target exclusive)) ∧
        x.1 = R'.head? ∧ x.2.Holds H F K t' R' := by
  -- every owner passed makes the list of postings shorter
  suffices hmain : ∀ n t (cursor : Cursor) (R : List OwnerRef), R.length ≤ n →
      cursor.Holds H F K t R → Settles H t (fun fuel => cursor.seek fuel target exclusive)
        fun x t' => ∃ R', Trim K R' (R.filter fun q => decide (q ∈ past target exclusive)) ∧
          x.1 = R'.head? ∧ x.2.Holds H F K t' R' from hmain R.length t cursor R (Nat.le_refl _) hc
  intro n
  induction n with
  | zero =>
    intro t cursor R hn hc
    obtain rfl := List.eq_nil_of_length_eq_zero (Nat.le_zero.1 hn)
    refine Settles.succ ?_
    have hcur : cursor.current = none := hc.current
    simp only [Cursor.seek, hcur]
    exact Settles.pure ⟨[], .refl _, rfl, hc⟩
  | succ n ih =>
    intro t cursor R hn hc
    cases hc with
    | done hcur =>
      refine Settles.succ ?_
      simp only [Cursor.seek, hcur]
      exact Settles.pure ⟨[], .refl _, rfl, .done hcur⟩
    | standing r rest chain hcur hch hr hp hon ho hk hkn =>
      refine Settles.succ ?_
      cases target with
      | none =>
        simp only [Cursor.seek, hcur]
        rw [filter_past_of_head none ho (Set.mem_univ r)]
        exact Settles.pure ⟨_, .refl _, rfl, .standing r rest chain hcur hch hr hp hon ho hk hkn⟩
      | some target =>
        have htk := ht target rfl
        obtain ⟨order, horder, hpast⟩ :=
          compareOwner_past exclusive (hk r List.mem_cons_self) htk
        simp only [Cursor.seek, hcur, hch]
        refine Settles.ofExcept_bind horder ?_
        by_cases hin : r ∈ past (some target) exclusive
        · simp only [if_pos (hpast.2 hin)]
          rw [filter_past_of_head _ ho hin]
          exact Settles.pure ⟨_, .refl _, rfl, .standing r rest chain hcur hch hr hp hon ho hk hkn⟩
        · simp only [if_neg fun hh => hin (hpast.1 hh)]
          obtain ⟨chain', dropped, rest', hskip, hrests, ho', rfl, hdrop⟩ :=
            skipDirectBefore_ok exclusive hH hr hp hon ho hk htk
          refine Settles.ofExcept_bind hskip ?_
          refine (advance_settles hH hrests ho').bind ?_
          have hfilter : (r :: (dropped ++ rest')).filter
                (fun q => decide (q ∈ past (some target) exclusive)) =
              rest'.filter fun q => decide (q ∈ past (some target) exclusive) := by
            rw [List.filter_cons_of_neg (by simpa using hin), List.filter_append,
              List.filter_eq_nil_iff.2 fun q hq => by simpa using hdrop q hq, List.nil_append]
          rintro ⟨value, chain''⟩ t' ht' ⟨rest'', htrim, hadv⟩
          rw [hfilter]
          have hsub : rest''.Sublist (r :: (dropped ++ rest')) :=
            htrim.sublist.trans (List.Sublist.cons _ (List.sublist_append_right _ _))
          have hlen : rest''.length ≤ n := by
            have := htrim.sublist.length_le
            simp only [List.length_cons, List.length_append] at hn
            omega
          refine (ih t' _ rest'' hlen (hadv.holds (ho.sublist hsub)
            fun q hq => hk q (hsub.subset hq))).mono ?_
          rintro x t'' - ⟨R', htrim', hx⟩
          exact ⟨R', htrim'.trans (htrim.filter _), hx⟩

/-! ### Coordinates of the current owner -/

/-- A coordinate read from the page of a cursor is the root of the owner it stands on. -/
theorem currentDirect_eq {p : OwnedPostings} {b : ℕ} {pre : List OwnerRef} (hH : History H F K)
    (h₁ : t₁ ≤ t) (hp : p.page = (H t₁).page b)
    (hu : ((H t₁).body b).postingRefs = pre ++ r :: p.rest) :
    p.currentDirect F.layout = .ok none ∨
      ∃ v, Seen H t r v ∧ p.currentDirect F.layout = .ok (some v) := by
  obtain ⟨m, h⟩ := hH.wf t₁
  unfold OwnedPostings.currentDirect
  rw [hp]
  by_cases hk : ((H t₁).page b).kind ≠ .directPostings
  · exact .inl (by rw [if_pos hk])
  refine .inr ⟨_, ⟨t₁, h₁, rfl⟩, ?_⟩
  obtain ⟨u, first, last, records, hb⟩ := direct_of_kind ((H t₁).body b) (not_not.1 hk)
  have hb' : ((H t₁).page b).body = .direct u first last records := hb
  have hcount : ((H t₁).page b).postingCount = .ok records.length := by
    rw [Page.postingCount, Page.directRecords, hb']; rfl
  have hrefs : records.map (·.owner) = pre ++ r :: p.rest := by rw [← hu, hb]; rfl
  have hlen : records.length = pre.length + (p.rest.length + 1) := by
    rw [← List.length_map (·.owner), hrefs, List.length_append, List.length_cons]
  have hpre : records.length - (p.rest.length + 1) = pre.length := by omega
  have hlt : ¬ records.length < p.rest.length + 1 := by omega
  have hget : (records[pre.length]?).map (·.owner) = some r := by
    rw [← List.getElem?_map, hrefs]
    simp
  obtain ⟨x, hx, rfl⟩ := Option.map_eq_some_iff.1 hget
  have hxm : x ∈ records := List.mem_of_getElem? hx
  have hok := h.pages.ok b
  rw [hb] at hok
  have hroot := directRoot_eq hb' hx (hok.2.1 x hxm).2
  rw [h.direct.coordinate (b := b) h.refs (by rw [hb]; exact hxm)
    (by rw [hb]; exact List.mem_map_of_mem hxm), hH.layout t₁] at hroot
  simp only [if_neg hk, hcount, ok_bind, if_neg hlt, hpre, hroot]

/-- The coordinate that any of the cursors supplies for an owner was its root. -/
theorem directOf_eq {cursors : List Cursor} (owner : OwnerRef) (hH : History H F K)
    (hc : ∀ c ∈ cursors, ∃ R, c.Holds H F K t R) :
    directOf owner F.layout cursors = .ok none ∨
      ∃ v, Seen H t owner v ∧ directOf owner F.layout cursors = .ok (some v) := by
  induction cursors with
  | nil => exact .inl rfl
  | cons c cs ih =>
    have hrest := ih fun d hd => hc d (List.mem_cons_of_mem _ hd)
    unfold directOf
    by_cases hcur : c.current = some owner
    · rw [if_pos hcur]
      obtain ⟨R, hR⟩ := hc c List.mem_cons_self
      cases hR with
      | done hnone => rw [hnone] at hcur; cases hcur
      | standing r rest chain hr hch _ _ hon =>
        obtain rfl : r = owner := Option.some.inj (hr.symm.trans hcur)
        rw [hch, Option.bind_some]
        cases hpage : chain.page with
        | none => exact hrest
        | some p =>
          obtain ⟨t₁, b, pre, h₁, hp, hu⟩ := hon p hpage
          rcases currentDirect_eq hH h₁ hp hu with hd | ⟨v, hv, hd⟩
          · simp only [hd, ok_bind]; exact hrest
          · simp only [hd, ok_bind]; exact .inr ⟨v, hv, rfl⟩
    · rw [if_neg hcur]
      exact hrest

end

end PinCore
