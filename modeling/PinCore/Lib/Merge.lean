import Mathlib.Data.List.Forall2
import Mathlib.Order.Lattice
import PinCore.Lib.Except

/-!
# Merging sorted inputs

Several inputs, each ascending by a key, are read through cursors and merged into one ascending
output.  Inputs may share keys: an element is emitted once, every cursor that stands at its key
moves on, and two inputs with different elements at one key are a conflict.
-/

namespace PinCore

/-- How the inputs of a merge are read and compared. -/
structure Inputs (σ α κ ε : Type) where
  current : σ → Option α
  advance : σ → Except ε σ
  key : α → κ
  /-- Two elements at one key are the same. -/
  agree : α → α → Bool
  conflict : ε

variable {σ α κ ε β : Type} [LinearOrder κ]

/-- The first of the elements with the least key. -/
def firstLeast (key : α → κ) : List α → Option α
  | [] => none
  | a :: rest =>
    match firstLeast key rest with
    | none => some a
    | some b => if key b < key a then some b else some a

namespace Inputs

variable (i : Inputs σ α κ ε)

/-- Move the cursors that stand at the key of `a` on; their elements must agree with `a`. -/
def pass (a : α) : List σ → Except ε (List σ)
  | [] => .ok []
  | c :: cs => do
    let c ← match i.current c with
      | none => .ok c
      | some b =>
        if i.key b ≠ i.key a then .ok c
        else if i.agree b a then i.advance c
        else .error i.conflict
    let cs ← pass a cs
    .ok (c :: cs)

/-- Emit the least current element until no cursor has one. -/
def mergeInto (emit : β → α → Except ε β) : ℕ → List σ → β → Except ε β
  | 0, _, b => .ok b
  | fuel + 1, cs, b =>
    match firstLeast i.key (cs.filterMap i.current) with
    | none => .ok b
    | some a => do
      let cs ← i.pass a cs
      let b ← emit b a
      mergeInto emit fuel cs b

/-- The elements that a cursor has still to yield. -/
inductive Yields : σ → List α → Prop
  | done {c : σ} : i.current c = none → Yields c []
  | more {c c' : σ} {a : α} {l : List α} :
      i.current c = some a → i.advance c = .ok c' → Yields c' l → Yields c (a :: l)

end Inputs

/-! ### The least element -/

section

variable {key : α → κ} {l : List α} {a : α}

theorem firstLeast_eq_none : firstLeast key l = none ↔ l = [] := by
  cases l with
  | nil => simp [firstLeast]
  | cons a l =>
    simp only [firstLeast, reduceCtorEq, iff_false]
    split
    · simp
    · split_ifs <;> simp

theorem firstLeast_spec (h : firstLeast key l = some a) : a ∈ l ∧ ∀ b ∈ l, key a ≤ key b := by
  induction l generalizing a with
  | nil => cases h
  | cons x l ih =>
    rw [firstLeast] at h
    cases hl : firstLeast key l with
    | none =>
      rw [hl] at h
      obtain rfl := firstLeast_eq_none.1 hl
      cases h
      simp
    | some b =>
      rw [hl] at h
      obtain ⟨hb, hle⟩ := ih hl
      simp only at h
      split_ifs at h with hlt
      · cases h
        refine ⟨List.mem_cons_of_mem _ hb, fun y hy => ?_⟩
        rcases List.mem_cons.1 hy with rfl | hy
        · exact le_of_lt hlt
        · exact hle y hy
      · cases h
        refine ⟨List.mem_cons_self, fun y hy => ?_⟩
        rcases List.mem_cons.1 hy with rfl | hy
        · exact le_refl _
        · exact le_trans (not_lt.1 hlt) (hle y hy)

end

namespace Inputs

variable {i : Inputs σ α κ ε} {cs : List σ} {ls : List (List α)} {a : α}

/-! ### One round -/

/-- The list is strictly ascending by key. -/
def Ascending (i : Inputs σ α κ ε) (l : List α) : Prop := l.Pairwise fun a b => i.key a < i.key b

/-- What is left of a list behind a key. -/
def behind (i : Inputs σ α κ ε) (k : κ) (l : List α) : List α := l.filter fun a => k < i.key a

theorem mem_behind {k : κ} {x : α} {l : List α} : x ∈ i.behind k l ↔ x ∈ l ∧ k < i.key x := by
  simp [behind]

theorem mem_flatten_behind {k : κ} {x : α} :
    x ∈ (ls.map (i.behind k)).flatten ↔ x ∈ ls.flatten ∧ k < i.key x := by
  simp only [List.mem_flatten, List.mem_map, exists_exists_and_eq_and, mem_behind]
  exact ⟨fun ⟨l, hl, hx, hk⟩ => ⟨⟨l, hl, hx⟩, hk⟩, fun ⟨⟨l, hl, hx⟩, hk⟩ => ⟨l, hl, hx, hk⟩⟩

theorem behind_eq_self {k : κ} {l : List α} (h : ∀ x ∈ l, k < i.key x) : i.behind k l = l :=
  List.filter_eq_self.2 fun x hx => by simpa using h x hx

theorem behind_cons {l : List α} (h : i.Ascending (a :: l)) : i.behind (i.key a) (a :: l) = l := by
  have hl := (List.pairwise_cons.1 h).1
  rw [behind, List.filter_cons_of_neg (by simp)]
  exact behind_eq_self hl

omit [LinearOrder κ] in
theorem filterMap_current (h : List.Forall₂ i.Yields cs ls) :
    cs.filterMap i.current = ls.filterMap List.head? := by
  induction h with
  | nil => rfl
  | cons hc _ ih =>
    cases hc with
    | done hn => simp only [List.filterMap_cons, hn, List.head?_nil, ih]
    | more hs _ _ => simp only [List.filterMap_cons, hs, List.head?_cons, ih]

/-- The least of the heads is the least of all elements. -/
theorem le_of_heads (hs : ∀ l ∈ ls, i.Ascending l)
    (hle : ∀ b ∈ ls.filterMap List.head?, i.key a ≤ i.key b) :
      ∀ x ∈ ls.flatten, i.key a ≤ i.key x := by
  intro x hx
  obtain ⟨l, hl, hxl⟩ := List.mem_flatten.1 hx
  cases l with
  | nil => cases hxl
  | cons b l =>
    have hb := hle b (List.mem_filterMap.2 ⟨_, hl, rfl⟩)
    rcases List.mem_cons.1 hxl with rfl | hxl
    · exact hb
    · exact le_trans hb (le_of_lt ((List.pairwise_cons.1 (hs _ hl)).1 x hxl))

/-- Cursors whose elements at the least key are all the same pass it. -/
theorem pass_ok (hagree : ∀ b c, i.key b = i.key c → (i.agree b c = true ↔ b = c))
    (h : List.Forall₂ i.Yields cs ls) (hs : ∀ l ∈ ls, i.Ascending l)
    (hle : ∀ x ∈ ls.flatten, i.key a ≤ i.key x)
    (hsame : ∀ x ∈ ls.flatten, i.key x = i.key a → x = a) :
    ∃ cs', i.pass a cs = .ok cs' ∧
      List.Forall₂ i.Yields cs' (ls.map (i.behind (i.key a))) := by
  induction h with
  | nil => exact ⟨[], rfl, .nil⟩
  | @cons c l cs ls hc _ ih =>
    simp only [List.flatten_cons, List.mem_append] at hle hsame
    obtain ⟨cs', hcs, hall⟩ := ih (fun l hl => hs l (List.mem_cons_of_mem _ hl))
      (fun x hx => hle x (.inr hx)) (fun x hx => hsame x (.inr hx))
    have hl := hs l List.mem_cons_self
    cases hc with
    | done hn =>
      refine ⟨c :: cs', ?_, .cons (.done hn) hall⟩
      simp only [pass, hn, ok_bind, hcs]
    | @more _ c' b l hb hadv hrest =>
      by_cases hk : i.key b = i.key a
      · -- the cursor stands at the least key, so its element is `a`
        obtain rfl := hsame b (.inl List.mem_cons_self) hk
        have hself := (hagree b b rfl).2 rfl
        refine ⟨c' :: cs', ?_, .cons ?_ hall⟩
        · simp only [pass, hb, hself, hadv, ok_bind, hcs, ne_eq, not_true_eq_false, if_false,
            if_true]
        · rwa [behind_cons hl]
      · have hlt : ∀ x ∈ b :: l, i.key a < i.key x := by
          have hb' := lt_of_le_of_ne (hle b (.inl List.mem_cons_self)) (Ne.symm hk)
          intro x hx
          rcases List.mem_cons.1 hx with rfl | hx
          · exact hb'
          · exact lt_trans hb' ((List.pairwise_cons.1 hl).1 x hx)
        refine ⟨c :: cs', ?_, .cons ?_ hall⟩
        · simp only [pass, hb, ne_eq, hk, not_false_eq_true, if_true, ok_bind, hcs]
        · rw [behind_eq_self hlt]
          exact .more hb hadv hrest

/-- A cursor with another element at the key is a conflict. -/
theorem pass_error (hagree : ∀ b c, i.key b = i.key c → (i.agree b c = true ↔ b = c))
    (h : List.Forall₂ i.Yields cs ls) {b : α} (hb : b ∈ ls.filterMap List.head?)
    (hk : i.key b = i.key a) (hne : b ≠ a) : i.pass a cs = .error i.conflict := by
  induction h with
  | nil => cases hb
  | @cons c l cs ls hc _ ih =>
    cases hc with
    | done hn =>
      simp only [List.filterMap_cons, List.head?_nil] at hb
      simp only [pass, hn, ok_bind, ih hb, error_bind]
    | @more _ c' x l hx hadv _ =>
      simp only [List.filterMap_cons, List.head?_cons, List.mem_cons] at hb
      by_cases hxk : i.key x = i.key a
      · by_cases hxa : i.agree x a = true
        · obtain rfl := (hagree x a hxk).1 hxa
          simp only [pass, hx, hxa, hadv, ok_bind, ih (hb.resolve_left hne), error_bind, ne_eq,
            not_true_eq_false, if_false, if_true]
        · simp only [pass, hx, hxk, hxa, error_bind, ne_eq, not_true_eq_false, if_false,
            Bool.false_eq_true]
      · have hb' := hb.resolve_left fun h => hxk (h ▸ hk)
        simp only [pass, hx, ne_eq, hxk, not_false_eq_true, if_true, ok_bind, ih hb', error_bind]

/-! ### The whole merge -/

theorem length_behind_lt {x : α} (hx : x ∈ ls.flatten) :
    (ls.map (i.behind (i.key x))).flatten.length < ls.flatten.length := by
  have hflat : (ls.map (i.behind (i.key x))).flatten = i.behind (i.key x) ls.flatten := by
    rw [behind, List.filter_flatten]
    rfl
  rw [hflat]
  refine List.length_filter_lt_length_iff_exists.2 ⟨x, hx, ?_⟩
  simp

theorem ascending_behind {k : κ} (hs : ∀ l ∈ ls, i.Ascending l) :
    ∀ l ∈ ls.map (i.behind k), i.Ascending l := by
  intro l hl
  obtain ⟨l', hl', rfl⟩ := List.mem_map.1 hl
  exact (hs l' hl').filter _

/-- Inputs whose elements are determined by their keys merge into their union. -/
theorem mergeInto_ok (hagree : ∀ b c, i.key b = i.key c → (i.agree b c = true ↔ b = c)) {fuel : ℕ}
    (h : List.Forall₂ i.Yields cs ls) (hs : ∀ l ∈ ls, i.Ascending l)
    (hfuel : ls.flatten.length < fuel)
    (hone : ∀ x ∈ ls.flatten, ∀ y ∈ ls.flatten, i.key x = i.key y → x = y) :
    ∃ out, i.Ascending out ∧ (∀ x, x ∈ out ↔ x ∈ ls.flatten) ∧
      ∀ {β : Type} (emit : β → α → Except ε β) (b : β),
        i.mergeInto emit fuel cs b = out.foldlM emit b := by
  induction fuel generalizing cs ls with
  | zero => exact absurd hfuel (Nat.not_lt_zero _)
  | succ fuel ih =>
    cases ha : firstLeast i.key (cs.filterMap i.current) with
    | none =>
      have hheads := (filterMap_current h).symm.trans (firstLeast_eq_none.1 ha)
      have hempty : ∀ x, x ∉ ls.flatten := by
        intro x hx
        obtain ⟨l, hl, hxl⟩ := List.mem_flatten.1 hx
        cases l with
        | nil => cases hxl
        | cons b l =>
          have hb : b ∈ ls.filterMap List.head? := List.mem_filterMap.2 ⟨_, hl, rfl⟩
          rw [hheads] at hb
          cases hb
      refine ⟨[], .nil, fun x => iff_of_false List.not_mem_nil (hempty x), fun emit b => ?_⟩
      rw [mergeInto, ha]
      rfl
    | some a =>
      obtain ⟨hmem, hle⟩ := firstLeast_spec ha
      rw [filterMap_current h] at hmem hle
      have hin : a ∈ ls.flatten := by
        obtain ⟨l, hl, hhead⟩ := List.mem_filterMap.1 hmem
        exact List.mem_flatten.2 ⟨l, hl, List.mem_of_head? hhead⟩
      have hall := le_of_heads hs hle
      obtain ⟨cs', hpass, h'⟩ := pass_ok hagree h hs hall fun x hx hk => hone x hx a hin hk
      obtain ⟨out, hout, hmem', hrun⟩ := ih h' (ascending_behind hs)
        (Nat.lt_of_lt_of_le (length_behind_lt hin) (Nat.le_of_lt_succ hfuel))
        fun x hx y hy => hone x (mem_flatten_behind.1 hx).1 y (mem_flatten_behind.1 hy).1
      refine ⟨a :: out, ?_, fun x => ?_, fun emit b => ?_⟩
      · exact List.pairwise_cons.2 ⟨fun x hx => (mem_flatten_behind.1 ((hmem' x).1 hx)).2, hout⟩
      · rw [List.mem_cons, hmem', mem_flatten_behind]
        constructor
        · rintro (rfl | ⟨hx, -⟩)
          · exact hin
          · exact hx
        · intro hx
          rcases lt_or_eq_of_le (hall x hx) with hlt | heq
          · exact .inr ⟨hx, hlt⟩
          · exact .inl (hone x hx a hin heq.symm)
      · rw [mergeInto, ha]
        simp only [hpass, ok_bind, List.foldlM_cons, hrun]

/-- Two inputs with different elements at one key are found out, if nothing else fails first. -/
theorem mergeInto_error (hagree : ∀ b c, i.key b = i.key c → (i.agree b c = true ↔ b = c))
    {fuel : ℕ}
    {emit : β → α → Except ε β} (hemit : ∀ b a, ∃ b', emit b a = .ok b')
    (h : List.Forall₂ i.Yields cs ls) (hs : ∀ l ∈ ls, i.Ascending l)
    (hfuel : ls.flatten.length < fuel) {x y : α} (hx : x ∈ ls.flatten) (hy : y ∈ ls.flatten)
    (hk : i.key x = i.key y) (hne : x ≠ y) (b : β) :
    i.mergeInto emit fuel cs b = .error i.conflict := by
  induction fuel generalizing cs ls b with
  | zero => exact absurd hfuel (Nat.not_lt_zero _)
  | succ fuel ih =>
    have hhead : ∀ z ∈ ls.flatten, ∃ c ∈ ls.filterMap List.head?, i.key c ≤ i.key z := by
      intro z hz
      obtain ⟨l, hl, hzl⟩ := List.mem_flatten.1 hz
      cases l with
      | nil => cases hzl
      | cons c l =>
        refine ⟨c, List.mem_filterMap.2 ⟨_, hl, rfl⟩, ?_⟩
        rcases List.mem_cons.1 hzl with rfl | hzl
        · exact le_refl _
        · exact le_of_lt ((List.pairwise_cons.1 (hs _ hl)).1 z hzl)
    cases ha : firstLeast i.key (cs.filterMap i.current) with
    | none =>
      have hheads := (filterMap_current h).symm.trans (firstLeast_eq_none.1 ha)
      obtain ⟨c, hc, -⟩ := hhead x hx
      rw [hheads] at hc
      cases hc
    | some a =>
      obtain ⟨hmem, hle⟩ := firstLeast_spec ha
      rw [filterMap_current h] at hmem hle
      have hin : a ∈ ls.flatten := by
        obtain ⟨l, hl, hheadl⟩ := List.mem_filterMap.1 hmem
        exact List.mem_flatten.2 ⟨l, hl, List.mem_of_head? hheadl⟩
      have hall := le_of_heads hs hle
      -- an element at the least key stands at the front of its input
      have hfront : ∀ z ∈ ls.flatten, i.key z = i.key a → z ∈ ls.filterMap List.head? := by
        intro z hz hza
        obtain ⟨l, hl, hzl⟩ := List.mem_flatten.1 hz
        cases l with
        | nil => cases hzl
        | cons c l =>
          have hc : c ∈ ls.filterMap List.head? := List.mem_filterMap.2 ⟨_, hl, rfl⟩
          rcases List.mem_cons.1 hzl with rfl | hzl
          · exact hc
          · have hlt := (List.pairwise_cons.1 (hs _ hl)).1 z hzl
            exact absurd (hza ▸ hle c hc) (not_le.2 hlt)
      rw [mergeInto, ha]
      by_cases hbad : ∃ z ∈ ls.flatten, i.key z = i.key a ∧ z ≠ a
      · obtain ⟨z, hz, hza, hneza⟩ := hbad
        simp only [pass_error hagree h (hfront z hz hza) hza hneza, error_bind]
      · have hsame : ∀ z ∈ ls.flatten, i.key z = i.key a → z = a := by
          intro z hz hza
          by_contra hneza
          exact hbad ⟨z, hz, hza, hneza⟩
        obtain ⟨cs', hpass, h'⟩ := pass_ok hagree h hs hall hsame
        have hlt : i.key a < i.key x := by
          refine lt_of_le_of_ne (hall x hx) fun heq => hne ?_
          rw [hsame x hx heq.symm, hsame y hy (hk.symm.trans heq.symm)]
        obtain ⟨b', hb'⟩ := hemit b a
        simp only [hpass, ok_bind, hb']
        exact ih h' (ascending_behind hs)
          (Nat.lt_of_lt_of_le (length_behind_lt hin) (Nat.le_of_lt_succ hfuel))
          (mem_flatten_behind.2 ⟨hx, hlt⟩) (mem_flatten_behind.2 ⟨hy, hk ▸ hlt⟩) b'

end Inputs

end PinCore
