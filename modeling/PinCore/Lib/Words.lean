import PinCore.Lib.Bits

/-!
# Masks in words

A mask kept in words of a fixed width, lowest word first.  Counting and combining bits word by
word is the same as on the whole mask; the bits that begin a run of set bits are found word by
word with one bit carried on.
-/

namespace PinCore

/-- The mask whose bits are those of the words, one word after another. -/
def wordsMask (bits : ℕ) : List ℕ → ℕ
  | [] => 0
  | w :: ws => w + 2 ^ bits * wordsMask bits ws

/-- The number of set bits of a word. -/
def popCount (bits word : ℕ) : ℕ := (setBits word bits).length

/-- The bits of a word that are not set. -/
def notBits (bits word : ℕ) : ℕ := 2 ^ bits - (word + 1)

/-- The set bits of each word whose predecessor is clear; `carry` is the bit before the first. -/
def startWords (bits : ℕ) : ℕ → List ℕ → List ℕ
  | _, [] => []
  | carry, w :: ws =>
    (w &&& notBits bits (w <<< 1 % 2 ^ bits ||| carry)) :: startWords bits (w >>> (bits - 1)) ws

section

variable {bits n i k v w : ℕ} {ws : List ℕ}

theorem testBit_wordsMask_cons (hw : w < 2 ^ bits) :
    (wordsMask bits (w :: ws)).testBit i =
      if i < bits then w.testBit i else (wordsMask bits ws).testBit (i - bits) := by
  rw [wordsMask, Nat.add_comm, Nat.testBit_two_pow_mul_add _ hw]

/-- A bit of the mask is a bit of one word. -/
theorem testBit_wordsMask (h : ∀ w ∈ ws, w < 2 ^ bits) (hbits : 0 < bits) :
    (wordsMask bits ws).testBit i = (ws.getD (i / bits) 0).testBit (i % bits) := by
  induction ws generalizing i with
  | nil => simp [wordsMask]
  | cons w ws ih =>
    rw [testBit_wordsMask_cons (h w List.mem_cons_self)]
    split_ifs with hi
    · rw [Nat.div_eq_of_lt hi, Nat.mod_eq_of_lt hi, List.getD_cons_zero]
    · have hle : bits ≤ i := Nat.le_of_not_lt hi
      rw [ih fun w hw => h w (List.mem_cons_of_mem _ hw), Nat.div_eq_sub_div hbits hle,
        List.getD_cons_succ, ← Nat.mod_eq_sub_mod hle]

/-- The mask determines its words. -/
theorem wordsMask_injective {us : List ℕ} (hu : ∀ w ∈ us, w < 2 ^ bits)
    (hw : ∀ w ∈ ws, w < 2 ^ bits) (hlen : us.length = ws.length)
    (h : wordsMask bits us = wordsMask bits ws) : us = ws := by
  induction us generalizing ws with
  | nil => exact (List.length_eq_zero_iff.1 hlen.symm).symm
  | cons u us ih =>
    cases ws with
    | nil => cases hlen
    | cons w ws =>
      have hu' := hu u List.mem_cons_self
      have hw' := hw w List.mem_cons_self
      rw [wordsMask, wordsMask] at h
      have hmod := congrArg (· % 2 ^ bits) h
      simp only [Nat.add_mul_mod_self_left, Nat.mod_eq_of_lt hu', Nat.mod_eq_of_lt hw'] at hmod
      subst hmod
      have hrest := Nat.eq_of_mul_eq_mul_left (Nat.two_pow_pos bits) (Nat.add_left_cancel h)
      rw [ih (fun w hw => hu w (List.mem_cons_of_mem _ hw))
        (fun w h => hw w (List.mem_cons_of_mem _ h)) (Nat.succ.inj hlen) hrest]

theorem forall_modify_or (h : ∀ w ∈ ws, w < 2 ^ bits) (hv : v < 2 ^ bits) :
    ∀ w ∈ ws.modify k (· ||| v), w < 2 ^ bits := by
  induction ws generalizing k with
  | nil => simp
  | cons w ws ih =>
    have hw := h w List.mem_cons_self
    have hws : ∀ w ∈ ws, w < 2 ^ bits := fun w hw => h w (List.mem_cons_of_mem _ hw)
    cases k with
    | zero =>
      rw [List.modify_zero_cons]
      exact List.forall_mem_cons.2 ⟨Nat.or_lt_two_pow hw hv, hws⟩
    | succ k =>
      rw [List.modify_succ_cons]
      exact List.forall_mem_cons.2 ⟨hw, ih hws⟩

/-- Bits are added to one word. -/
theorem wordsMask_modify_or (h : ∀ w ∈ ws, w < 2 ^ bits) (hv : v < 2 ^ bits) (hk : k < ws.length) :
    wordsMask bits (ws.modify k (· ||| v)) = wordsMask bits ws ||| v <<< (bits * k) := by
  refine Nat.eq_of_testBit_eq fun i => ?_
  rw [Nat.testBit_or, Nat.testBit_shiftLeft]
  induction ws generalizing k i with
  | nil => exact absurd hk (Nat.not_lt_zero k)
  | cons w ws ih =>
    have hw := h w List.mem_cons_self
    have hws : ∀ w ∈ ws, w < 2 ^ bits := fun w hw => h w (List.mem_cons_of_mem _ hw)
    rw [testBit_wordsMask_cons hw]
    cases k with
    | zero =>
      rw [List.modify_zero_cons, testBit_wordsMask_cons (Nat.or_lt_two_pow hw hv), Nat.mul_zero,
        Nat.sub_zero, decide_eq_true (Nat.zero_le i), Bool.true_and]
      split_ifs with hi
      · exact Nat.testBit_or w v i
      · have hpow : 2 ^ bits ≤ 2 ^ i := Nat.pow_le_pow_right (by decide) (Nat.le_of_not_lt hi)
        rw [Nat.testBit_lt_two_pow (Nat.lt_of_lt_of_le hv hpow), Bool.or_false]
    | succ k =>
      rw [List.modify_succ_cons, testBit_wordsMask_cons hw, Nat.mul_succ]
      split_ifs with hi
      · have hlt : ¬ i ≥ bits * k + bits := by omega
        rw [decide_eq_false hlt, Bool.false_and, Bool.or_false]
      · have hiff : i - bits ≥ bits * k ↔ i ≥ bits * k + bits := by omega
        rw [ih hws (Nat.lt_of_succ_lt_succ hk), Nat.sub_sub, Nat.add_comm bits,
          decide_eq_decide.2 hiff]

/-- The words of two masks are combined bit by bit. -/
theorem testBit_wordsMask_zipWith {us : List ℕ} {f : ℕ → ℕ → ℕ} {g : Bool → Bool → Bool}
    (hf : ∀ u w, u < 2 ^ bits → w < 2 ^ bits → f u w < 2 ^ bits ∧
      ∀ i < bits, (f u w).testBit i = g (u.testBit i) (w.testBit i))
    (hu : ∀ w ∈ us, w < 2 ^ bits) (hw : ∀ w ∈ ws, w < 2 ^ bits) (hlen : us.length = ws.length)
    (hg : g false false = false) :
    (wordsMask bits (List.zipWith f us ws)).testBit i =
      g ((wordsMask bits us).testBit i) ((wordsMask bits ws).testBit i) := by
  induction us generalizing ws i with
  | nil =>
    rw [List.length_eq_zero_iff.1 hlen.symm]
    simp [wordsMask, hg]
  | cons u us ih =>
    cases ws with
    | nil => cases hlen
    | cons w ws =>
      have hu' := hu u List.mem_cons_self
      have hw' := hw w List.mem_cons_self
      obtain ⟨hlt, hbit⟩ := hf u w hu' hw'
      rw [List.zipWith_cons_cons, testBit_wordsMask_cons hlt, testBit_wordsMask_cons hu',
        testBit_wordsMask_cons hw']
      split_ifs with hi
      · exact hbit i hi
      · exact ih (fun w hw => hu w (List.mem_cons_of_mem _ hw))
          (fun w h => hw w (List.mem_cons_of_mem _ h)) (Nat.succ.inj hlen)

/-! ### Listing and counting -/

/-- The bits of the first word, and those behind it. -/
theorem setBits_wordsMask_cons (hw : w < 2 ^ bits) :
    setBits (wordsMask bits (w :: ws)) (bits + n) =
      setBits w bits ++ (setBits (wordsMask bits ws) n).map (bits + ·) := by
  unfold setBits
  rw [List.range_add, List.filter_append, List.filter_map]
  congr 1
  · refine List.filter_congr fun i hi => ?_
    rw [testBit_wordsMask_cons hw, if_pos (List.mem_range.1 hi)]
  · congr 1
    refine List.filter_congr fun i _ => ?_
    rw [Function.comp_apply, testBit_wordsMask_cons hw,
      if_neg (Nat.not_lt.2 (Nat.le_add_right _ _)),
      Nat.add_sub_cancel_left]

/-- Bits are counted word by word. -/
theorem sum_popCount (h : ∀ w ∈ ws, w < 2 ^ bits) :
    (ws.map (popCount bits)).sum = popCount (bits * ws.length) (wordsMask bits ws) := by
  induction ws with
  | nil => rfl
  | cons w ws ih =>
    rw [List.map_cons, List.sum_cons, ih fun w hw => h w (List.mem_cons_of_mem _ hw),
      List.length_cons, Nat.mul_succ, Nat.add_comm (bits * ws.length), popCount, popCount, popCount,
      setBits_wordsMask_cons (h w List.mem_cons_self), List.length_append, List.length_map]

/-! ### The beginnings of runs -/

theorem notBits_lt : notBits bits v < 2 ^ bits := by
  have := Nat.two_pow_pos bits
  unfold notBits
  omega

theorem testBit_notBits (hv : v < 2 ^ bits) :
    (notBits bits v).testBit i = (decide (i < bits) && ! v.testBit i) :=
  Nat.testBit_two_pow_sub_succ hv i

theorem length_startWords {carry : ℕ} : (startWords bits carry ws).length = ws.length := by
  induction ws generalizing carry with
  | nil => rfl
  | cons w ws ih => rw [startWords, List.length_cons, List.length_cons, ih]

theorem startWords_lt {carry : ℕ} : ∀ w ∈ startWords bits carry ws, w < 2 ^ bits := by
  induction ws generalizing carry with
  | nil => exact fun w hw => absurd hw List.not_mem_nil
  | cons w ws ih =>
    exact List.forall_mem_cons.2
      ⟨Nat.lt_of_le_of_lt Nat.and_le_right notBits_lt, ih⟩

/-- A bit begins a run if it is set and the bit before it is clear, also where the bit before it
is in another word. -/
theorem testBit_startWords {carry : ℕ} (h : ∀ w ∈ ws, w < 2 ^ bits) (hbits : 0 < bits)
    (hc : carry < 2) :
    (wordsMask bits (startWords bits carry ws)).testBit i = ((wordsMask bits ws).testBit i &&
      ! if i = 0 then carry.testBit 0 else (wordsMask bits ws).testBit (i - 1)) := by
  induction ws generalizing carry i with
  | nil => simp [startWords, wordsMask]
  | cons w ws ih =>
    have hw := h w List.mem_cons_self
    have hws : ∀ w ∈ ws, w < 2 ^ bits := fun w hw => h w (List.mem_cons_of_mem _ hw)
    have hpow : 2 ≤ 2 ^ bits := by
      have : 2 ^ 1 ≤ 2 ^ bits := Nat.pow_le_pow_right (by decide) hbits
      exact this
    have hor : w <<< 1 % 2 ^ bits ||| carry < 2 ^ bits :=
      Nat.or_lt_two_pow (Nat.mod_lt _ (Nat.two_pow_pos bits)) (by omega)
    rw [startWords, testBit_wordsMask_cons (Nat.lt_of_le_of_lt Nat.and_le_right notBits_lt),
      testBit_wordsMask_cons hw]
    split_ifs with hi h0
    · subst h0
      rw [Nat.testBit_and, testBit_notBits hor, Nat.testBit_or, Nat.testBit_mod_two_pow]
      simp [hbits]
    · have hcarry : carry.testBit i = false :=
        Nat.testBit_lt_two_pow (Nat.lt_of_lt_of_le hc (by
          have : 2 ^ 1 ≤ 2 ^ i := Nat.pow_le_pow_right (by decide) (Nat.pos_of_ne_zero h0)
          exact this))
      have hi' : i - 1 < bits := by omega
      rw [Nat.testBit_and, testBit_notBits hor, Nat.testBit_or, Nat.testBit_mod_two_pow, hcarry,
        Nat.testBit_shiftLeft, testBit_wordsMask_cons hw, if_pos hi']
      simp [hi, Nat.one_le_iff_ne_zero.2 h0]
    · omega
    · have hshift : w >>> (bits - 1) < 2 := by
        rw [Nat.shiftRight_eq_div_pow]
        refine Nat.div_lt_of_lt_mul ?_
        rwa [← Nat.pow_succ, Nat.sub_one, Nat.succ_pred_eq_of_pos hbits]
      rw [ih hws hshift, testBit_wordsMask_cons hw]
      congr 2
      by_cases hib : i = bits
      · -- the first bit of a word follows the last bit of the word before
        subst hib
        rw [if_pos (Nat.sub_self i), if_pos (by omega), Nat.testBit_shiftRight, Nat.add_zero]
      · rw [if_neg (by omega), if_neg (by omega), Nat.sub_right_comm]

end

end PinCore
