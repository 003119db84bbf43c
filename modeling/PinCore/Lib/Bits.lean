import Mathlib.Data.List.Sort
import Mathlib.Data.Nat.Bitwise
import Mathlib.Tactic.Common

/-!
# Masks

A mask is a natural number; its members are its set bits.  A fixed-width mask is visited lowest
bit first by clearing the lowest set bit again and again, which is the same as listing the set
bits in ascending order.
-/

namespace PinCore

/-- The set bits of a mask below `bound`, ascending. -/
def setBits (mask bound : ℕ) : List ℕ := (List.range bound).filter fun i => mask.testBit i

/-- The index of the lowest set bit of a word, or `bits`. -/
def trailingZeros (bits word : ℕ) : ℕ := ((List.range bits).find? fun i => word.testBit i).getD bits

/-- The bits of a word in the order in which clearing the lowest one visits them. -/
def lowestFirst (bits : ℕ) : ℕ → ℕ → List ℕ
  | 0, _ => []
  | fuel + 1, word =>
    if word = 0 then []
    else trailingZeros bits word :: lowestFirst bits fuel (word &&& (word - 1))

/-- The mask without one bit. -/
def dropBit (mask bit : ℕ) : ℕ := if mask.testBit bit then mask - 2 ^ bit else mask

section

variable {mask word bits bound i : ℕ}

theorem mem_setBits : i ∈ setBits mask bound ↔ i < bound ∧ mask.testBit i = true := by
  simp [setBits]

theorem setBits_sorted : (setBits mask bound).Pairwise (· < ·) :=
  List.Pairwise.filter _ List.pairwise_lt_range

theorem setBits_nodup : (setBits mask bound).Nodup :=
  setBits_sorted.imp fun h => Nat.ne_of_lt h

/-- A list in ascending order with the right members is the list of set bits. -/
theorem eq_setBits {l : List ℕ} (hl : l.Pairwise (· < ·))
    (h : ∀ i, i ∈ l ↔ i < bound ∧ mask.testBit i = true) : l = setBits mask bound :=
  hl.eq_of_mem_iff setBits_sorted fun {i} => (h i).trans mem_setBits.symm

theorem testBit_lt (h : mask < 2 ^ bound) (hi : mask.testBit i = true) : i < bound := by
  by_contra hge
  rw [Nat.testBit_eq_false_of_lt (Nat.lt_of_lt_of_le h
    (Nat.pow_le_pow_right (by decide) (Nat.le_of_not_lt hge)))] at hi
  cases hi

theorem setBits_eq_nil (h : mask < 2 ^ bound) : setBits mask bound = [] ↔ mask = 0 := by
  constructor
  · intro hn
    refine Nat.zero_of_testBit_eq_false fun i => Bool.eq_false_iff.2 fun hi => ?_
    have hm := mem_setBits.2 ⟨testBit_lt h hi, hi⟩
    rw [hn] at hm
    exact List.not_mem_nil hm
  · rintro rfl
    simp [setBits]

/-! ### Clearing one bit -/

theorem testBit_dropBit {bit : ℕ} :
    (dropBit mask bit).testBit i = (mask.testBit i && decide (i ≠ bit)) := by
  rw [dropBit]
  split_ifs with hbit
  swap
  · by_cases hi : i = bit
    · rw [hi, Bool.eq_false_iff.2 hbit, Bool.false_and]
    · rw [decide_eq_true hi, Bool.and_true]
  -- the bits above, the bit itself and those below
  have hmod : (mask % 2 ^ (bit + 1)).testBit bit = true := by
    rw [Nat.testBit_mod_two_pow, hbit, decide_eq_true (Nat.lt_succ_self bit), Bool.and_true]
  have hle := Nat.ge_two_pow_of_testBit hmod
  have hlt := Nat.mod_lt mask (Nat.two_pow_pos (bit + 1))
  obtain ⟨low, hlow⟩ := Nat.exists_eq_add_of_le hle
  have hlow' : low < 2 ^ bit := by
    rw [hlow, Nat.pow_succ] at hlt
    omega
  have hmask : mask = 2 ^ (bit + 1) * (mask / 2 ^ (bit + 1)) + (2 ^ bit + low) := by
    rw [← hlow, Nat.div_add_mod]
  have hrest : mask - 2 ^ bit = 2 ^ (bit + 1) * (mask / 2 ^ (bit + 1)) + low := by omega
  have hwide : low < 2 ^ (bit + 1) := by
    rw [Nat.pow_succ]
    omega
  rw [hrest, Nat.testBit_two_pow_mul_add _ hwide]
  conv_rhs => rw [hmask, Nat.testBit_two_pow_mul_add _ (hlow ▸ hlt)]
  rcases Nat.lt_trichotomy i bit with hi | rfl | hi
  · rw [if_pos (by omega), if_pos (by omega), Nat.testBit_two_pow_add_gt hi,
      decide_eq_true (Nat.ne_of_lt hi), Bool.and_true]
  · rw [if_pos (by omega), Nat.testBit_lt_two_pow hlow']
    simp
  · rw [if_neg (by omega), if_neg (by omega), decide_eq_true (Nat.ne_of_gt hi), Bool.and_true]

theorem setBits_dropBit {bit : ℕ} :
    setBits (dropBit mask bit) bound = (setBits mask bound).filter fun i => i ≠ bit := by
  rw [setBits, setBits, List.filter_filter]
  refine List.filter_congr fun i _ => ?_
  rw [testBit_dropBit, Bool.and_comm]

/-! ### The lowest set bit -/

theorem trailingZeros_spec (h : word < 2 ^ bits) (h0 : word ≠ 0) :
    word.testBit (trailingZeros bits word) = true ∧
      ∀ j < trailingZeros bits word, word.testBit j = false := by
  obtain ⟨i, hi⟩ := Nat.exists_testBit_of_ne_zero h0
  unfold trailingZeros
  cases hf : (List.range bits).find? fun i => word.testBit i with
  | none =>
    rw [List.find?_eq_none] at hf
    exact absurd hi (hf i (List.mem_range.2 (testBit_lt h hi)))
  | some t =>
    obtain ⟨ht, -, hlow⟩ := List.find?_range_eq_some.1 hf
    exact ⟨ht, fun j hj => by simpa using hlow j hj⟩

/-- Clearing the lowest set bit leaves the others. -/
theorem testBit_and_pred {t : ℕ} (ht : word.testBit t = true)
    (hlow : ∀ j < t, word.testBit j = false) :
    (word &&& (word - 1)).testBit i = (word.testBit i && decide (i ≠ t)) := by
  -- the word is an odd multiple of `2 ^ t`
  obtain ⟨k, hk⟩ : ∃ k, word = 2 ^ t * (2 * k + 1) := by
    have hr : word % 2 ^ t = 0 := by
      refine Nat.zero_of_testBit_eq_false fun j => ?_
      rw [Nat.testBit_mod_two_pow]
      by_cases hj : j < t
      · rw [hlow j hj, Bool.and_false]
      · simp [hj]
    have hq : word / 2 ^ t % 2 = 1 := by
      rw [Nat.testBit_eq_decide_div_mod_eq] at ht
      exact of_decide_eq_true ht
    refine ⟨word / 2 ^ t / 2, ?_⟩
    have := Nat.div_add_mod word (2 ^ t)
    have := Nat.div_add_mod (word / 2 ^ t) 2
    rw [hq] at this
    rw [this]
    omega
  have hpos := Nat.two_pow_pos t
  have hpred : word - 1 = 2 ^ t * (2 * k) + (2 ^ t - 1) := by
    rw [hk, Nat.mul_add]
    omega
  have hword : word.testBit i = if i < t then false else (2 * k + 1).testBit (i - t) := by
    have := Nat.testBit_two_pow_mul_add (2 * k + 1) hpos i
    rw [Nat.add_zero, ← hk, Nat.zero_testBit] at this
    exact this
  rw [Nat.testBit_and, hpred, Nat.testBit_two_pow_mul_add _ (Nat.sub_lt hpos Nat.one_pos), hword]
  by_cases hlt : i < t
  · simp [hlt]
  · rw [if_neg hlt, if_neg hlt]
    by_cases heq : i = t
    · subst heq
      simp
    · have hsucc : i - t = (i - t - 1) + 1 := by omega
      rw [hsucc, Nat.testBit_succ, Nat.testBit_succ]
      have h₁ : (2 * k + 1) / 2 = k := by omega
      have h₂ : 2 * k / 2 = k := by omega
      rw [h₁, h₂]
      simp [heq]

/-- The lowest set bit comes first. -/
theorem setBits_eq_cons (h : word < 2 ^ bits) (h0 : word ≠ 0) :
    setBits word bits = trailingZeros bits word :: setBits (word &&& (word - 1)) bits := by
  obtain ⟨ht, hlow⟩ := trailingZeros_spec h h0
  have hlt := testBit_lt h ht
  have hbit : ∀ i, (word &&& (word - 1)).testBit i =
      (word.testBit i && decide (i ≠ trailingZeros bits word)) := fun i => testBit_and_pred ht hlow
  refine (eq_setBits (List.pairwise_cons.2 ⟨fun j hj => ?_, setBits_sorted⟩) fun j => ?_).symm
  · rw [mem_setBits, hbit, Bool.and_eq_true, decide_eq_true_iff] at hj
    rcases Nat.lt_trichotomy j (trailingZeros bits word) with hj' | hj' | hj'
    · rw [hlow j hj'] at hj; exact absurd hj.2.1 (by decide)
    · exact absurd hj' hj.2.2
    · exact hj'
  · rw [List.mem_cons, mem_setBits, hbit, Bool.and_eq_true, decide_eq_true_iff]
    constructor
    · rintro (rfl | ⟨hj, hb, -⟩)
      · exact ⟨hlt, ht⟩
      · exact ⟨hj, hb⟩
    · rintro ⟨hj, hb⟩
      by_cases heq : j = trailingZeros bits word
      · exact .inl heq
      · exact .inr ⟨hj, hb, heq⟩

/-- Visiting lowest bit first lists the set bits in ascending order. -/
theorem lowestFirst_eq {fuel : ℕ} (h : word < 2 ^ bits)
    (hfuel : (setBits word bits).length ≤ fuel) :
      lowestFirst bits fuel word = setBits word bits := by
  induction fuel generalizing word with
  | zero => rw [List.length_eq_zero_iff.1 (Nat.le_zero.1 hfuel), lowestFirst]
  | succ fuel ih =>
    rw [lowestFirst]
    by_cases h0 : word = 0
    · rw [if_pos h0, (setBits_eq_nil h).2 h0]
    have hcons := setBits_eq_cons h h0
    rw [if_neg h0, hcons, ih (Nat.lt_of_le_of_lt Nat.and_le_left h)]
    rw [hcons, List.length_cons] at hfuel
    omega

end

end PinCore
