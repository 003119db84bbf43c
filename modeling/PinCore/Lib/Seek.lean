import Mathlib.Order.Bounds.Basic
import Mathlib.Order.Interval.Set.Basic
import Mathlib.Data.List.Sort
import Mathlib.Data.List.Perm.Subperm
import Mathlib.Tactic.Common

/-!
# Seeking in ordered sets

A cursor is asked for the first element past a bound, over a listing that may still grow: the
elements of `K` are listed for good, others may be met or missed.  `Next K S v` says that `v` is
an element of `S` with no element of `S ∩ K` before it, or that `S ∩ K` is empty; with everything
in `K` it is the least element.  The lemmas here are those behind merging cursors: a common
element of two sets is found by asking each in turn for the first element from the other's answer
on, and the next element of a union is the smaller of the two answers.
-/

namespace PinCore

/-- A narrower test keeps fewer elements of a list, if it drops one of them. -/
theorem length_filter_lt {β : Type*} {U : List β} {a : β} {p q : β → Bool}
    (hpq : ∀ x, q x = true → p x = true)
    (ha : a ∈ U) (hp : p a = true) (hq : q a = false) :
    (U.filter q).length < (U.filter p).length := by
  induction U with
  | nil => exact absurd ha List.not_mem_nil
  | cons u U ih =>
    have hle : (U.filter q).length ≤ (U.filter p).length :=
      (List.monotone_filter_right U fun x => hpq x).length_le
    rcases List.mem_cons.1 ha with rfl | ha
    · rw [List.filter_cons_of_pos hp, List.filter_cons_of_neg (by simp [hq]), List.length_cons]
      omega
    · have := ih ha
      by_cases hu : p u = true
      · rw [List.filter_cons_of_pos hu, List.length_cons]
        by_cases hv : q u = true
        · rw [List.filter_cons_of_pos hv, List.length_cons]; omega
        · rw [List.filter_cons_of_neg hv]; omega
      · have hv : ¬ q u = true := fun h => hu (hpq u h)
        rw [List.filter_cons_of_neg hu, List.filter_cons_of_neg hv]
        exact this

/-! ### Listings that lack some elements -/

section

variable {β : Type*} {K : Set β} {L L' L'' M M' : List β} {a : β}

/-- `L` is `L'`, perhaps without some elements outside `K`. -/
structure Trim (K : Set β) (L L' : List β) : Prop where
  sublist : L.Sublist L'
  keeps : ∀ x ∈ L', x ∈ K → x ∈ L

namespace Trim

theorem refl (L : List β) : Trim K L L := ⟨.refl L, fun _ hx _ => hx⟩

theorem trans (h : Trim K L L') (h' : Trim K L' L'') : Trim K L L'' :=
  ⟨h.sublist.trans h'.sublist, fun x hx hK => h.keeps x (h'.keeps x hx hK) hK⟩

theorem cons (a : β) (h : Trim K L L') : Trim K (a :: L) (a :: L') where
  sublist := h.sublist.cons_cons a
  keeps x hx hK := by
    rcases List.mem_cons.1 hx with rfl | hx
    · exact List.mem_cons_self
    · exact List.mem_cons_of_mem _ (h.keeps x hx hK)

theorem append (h : Trim K L L') (h' : Trim K M M') : Trim K (L ++ M) (L' ++ M') where
  sublist := h.sublist.append h'.sublist
  keeps x hx hK := by
    rcases List.mem_append.1 hx with hx | hx
    · exact List.mem_append_left _ (h.keeps x hx hK)
    · exact List.mem_append_right _ (h'.keeps x hx hK)

theorem filter (p : β → Bool) (h : Trim K L L') : Trim K (L.filter p) (L'.filter p) where
  sublist := h.sublist.filter p
  keeps x hx hK := by
    obtain ⟨hx, hp⟩ := List.mem_filter.1 hx
    exact List.mem_filter.2 ⟨h.keeps x hx hK, hp⟩

/-- Nothing is missing if everything is kept. -/
theorem eq (h : Trim Set.univ L L') (hn : L'.Nodup) : L = L' := by
  refine h.sublist.eq_of_length_le ?_
  exact (List.subperm_of_subset hn fun x hx => h.keeps x hx trivial).length_le

end Trim

end

/-! ### The next element -/

variable {α : Type*} [LinearOrder α]

/-- The elements past a target; past the target itself too unless `exclusive`. -/
def past (target : Option α) (exclusive : Bool) : Set α :=
  match target with
  | none => Set.univ
  | some t => if exclusive then Set.Ioi t else Set.Ici t

/-- `v` is an element of `S` with none of `S ∩ K` before it; there may be no such element only if
`S ∩ K` is empty. -/
def Next (K S : Set α) : Option α → Prop
  | none => ∀ x ∈ S, x ∉ K
  | some a => a ∈ S ∧ ∀ x ∈ S, x ∈ K → a ≤ x

section

variable {K S T B B' : Set α} {v w : Option α} {a l r t : α} {exclusive : Bool}

@[simp] theorem past_none : past (none : Option α) exclusive = Set.univ := rfl

@[simp] theorem past_exclusive : past (some t) true = Set.Ioi t := rfl

@[simp] theorem past_inclusive : past (some t) false = Set.Ici t := rfl

instance (target : Option α) : DecidablePred (· ∈ past target exclusive) := fun a =>
  match target with
  | none => isTrue trivial
  | some t => match exclusive with
    | true => inferInstanceAs (Decidable (t < a))
    | false => inferInstanceAs (Decidable (t ≤ a))

theorem mem_past_of_le {target : Option α} (h : a ∈ past target exclusive) (hl : a ≤ l) :
    l ∈ past target exclusive := by
  cases target with
  | none => trivial
  | some t =>
    cases exclusive with
    | true => exact lt_of_lt_of_le h hl
    | false => exact le_trans h hl

/-- The head of a strictly sorted listing is next. -/
theorem next_head? {L L' : List α} (hL : L.Pairwise (· < ·)) (h : Trim K L L') :
    Next K {x | x ∈ L'} L.head? := by
  cases L with
  | nil => exact fun x hx hK => absurd (h.keeps x hx hK) List.not_mem_nil
  | cons a L =>
    refine ⟨h.sublist.subset List.mem_cons_self, fun x hx hK => ?_⟩
    rcases List.mem_cons.1 (h.keeps x hx hK) with rfl | hx
    · exact le_refl _
    · exact le_of_lt ((List.pairwise_cons.1 hL).1 x hx)

/-- A later bound that cuts off nothing of `K`, on a set that kept what is in `K`. -/
theorem Next.narrow (h : Next K T v) (hsub : T ⊆ S) (hkeep : ∀ x ∈ S, x ∈ K → x ∈ T) :
    Next K S v := by
  cases v with
  | none => exact fun x hx hK => h x (hkeep x hx hK) hK
  | some a => exact ⟨hsub h.1, fun x hx hK => h.2 x (hkeep x hx hK) hK⟩

/-! ### Intersection -/

theorem next_inter_none (h : Next K (S ∩ B) none) : Next K (S ∩ T ∩ B) none :=
  fun x hx => h x ⟨hx.1.1, hx.2⟩

/-- Nothing from the left answer on: nothing common. -/
theorem next_inter_none_right (hl : Next K (S ∩ B) (some l)) (hr : Next K (T ∩ Set.Ici l) none) :
    Next K (S ∩ T ∩ B) none := fun x hx hK =>
  hr x ⟨hx.1.2, hl.2 x ⟨hx.1.1, hx.2⟩ hK⟩ hK

/-- Both answers agree: it is the next common element. -/
theorem next_inter_eq (hl : Next K (S ∩ B) (some l)) (hr : l ∈ T) :
    Next K (S ∩ T ∩ B) (some l) :=
  ⟨⟨⟨hl.1.1, hr⟩, hl.1.2⟩, fun x hx hK => hl.2 x ⟨hx.1.1, hx.2⟩ hK⟩

/-- The right answer is later: nothing common lies before it. -/
theorem inter_from_right (hl : Next K (S ∩ B) (some l)) (hr : Next K (T ∩ Set.Ici l) (some r)) :
    ∀ x ∈ S ∩ T ∩ B, x ∈ K → r ≤ x := fun x hx hK =>
  hr.2 x ⟨hx.1.2, hl.2 x ⟨hx.1.1, hx.2⟩ hK⟩ hK

/-! ### Union -/

/-- The smaller of two optional answers. -/
def lesser : Option α → Option α → Option α
  | some l, some r => some (min l r)
  | l, r => l.or r

theorem next_union (hl : Next K S v) (hr : Next K T w) : Next K (S ∪ T) (lesser v w) := by
  cases v with
  | none =>
    cases w with
    | none => exact fun x hx hK => hx.elim (fun hx => hl x hx hK) fun hx => hr x hx hK
    | some r =>
      exact ⟨.inr hr.1, fun x hx hK =>
        hx.elim (fun hx => absurd hK (hl x hx)) fun hx => hr.2 x hx hK⟩
  | some l =>
    cases w with
    | none =>
      exact ⟨.inl hl.1, fun x hx hK =>
        hx.elim (fun hx => hl.2 x hx hK) fun hx => absurd hK (hr x hx)⟩
    | some r =>
      refine ⟨?_, fun x hx hK => ?_⟩
      · rcases le_total l r with h | h
        · rw [min_eq_left h]; exact .inl hl.1
        · rw [min_eq_right h]; exact .inr hr.1
      · rcases hx with hx | hx
        · exact le_trans (min_le_left l r) (hl.2 x hx hK)
        · exact le_trans (min_le_right l r) (hr.2 x hx hK)

theorem lesser_mem (h : lesser v w = some a) : v = some a ∨ w = some a := by
  cases v with
  | none => exact .inr (by simpa [lesser] using h)
  | some l =>
    cases w with
    | none => exact .inl (by simpa [lesser] using h)
    | some r =>
      have h' : min l r = a := Option.some.inj h
      rcases le_total l r with hm | hm
      · rw [min_eq_left hm] at h'
        exact .inl (by rw [h'])
      · rw [min_eq_right hm] at h'
        exact .inr (by rw [h'])

/-! ### Enumeration -/

/-- `L` lists elements of `S` in order, all those in `K` among them. -/
structure Enumerates (K : Set α) (L : List α) (S : Set α) : Prop where
  sorted : L.Pairwise (· < ·)
  sub : ∀ x ∈ L, x ∈ S
  all : ∀ x ∈ S, x ∈ K → x ∈ L

/-- A set is listed by its next element and a listing of what is past it. -/
theorem Enumerates.cons {L : List α} (ha : Next K S (some a)) (hL : Enumerates K L T)
    (hsub : ∀ x ∈ T, x ∈ S ∧ a < x) (hkeep : ∀ x ∈ S, x ∈ K → a < x → x ∈ T) :
    Enumerates K (a :: L) S where
  sorted := List.pairwise_cons.2 ⟨fun x hx => (hsub x (hL.sub x hx)).2, hL.sorted⟩
  sub x hx := by
    rcases List.mem_cons.1 hx with rfl | hx
    · exact ha.1
    · exact (hsub x (hL.sub x hx)).1
  all x hx hK := by
    rcases eq_or_lt_of_le (ha.2 x hx hK) with h | h
    · exact h ▸ List.mem_cons_self
    · exact List.mem_cons_of_mem _ (hL.all x (hkeep x hx hK h) hK)

theorem Enumerates.nil (h : Next K S none) : Enumerates K ([] : List α) S :=
  ⟨List.Pairwise.nil, fun _ hx => absurd hx List.not_mem_nil, fun x hx hK => absurd hK (h x hx)⟩

end

end PinCore
