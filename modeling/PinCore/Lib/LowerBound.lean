import Mathlib.Data.List.TakeWhile
import PinCore.Lib.Except

/-!
# Binary search under a work limit

`lowerBound` halves the interval of candidate indices and charges each comparison.  Where the
values fall into a part for which `before` holds and a part for which it does not, it returns the
length of the first part.
-/

namespace PinCore

universe u

variable {ω ε α : Type}

/-- Halves the interval from `low` up to `high`; each round needs one unit of fuel. -/
def lowerBoundFrom (charge : ω → Except ε ω) (before : α → Bool) (values : List α) :
    ℕ → ℕ → ℕ → ω → Except ε (ℕ × ω)
  | 0, low, _, work => .ok (low, work)
  | fuel + 1, low, high, work =>
    if low < high then do
      let work ← charge work
      let middle := low + (high - low) / 2
      if values[middle]?.any before then
        lowerBoundFrom charge before values fuel (middle + 1) high work
      else lowerBoundFrom charge before values fuel low middle work
    else .ok (low, work)

/-- The index of the first value for which `before` fails. -/
def lowerBound (charge : ω → Except ε ω) (before : α → Bool) (values : List α) (work : ω) :
    Except ε (ℕ × ω) :=
  lowerBoundFrom charge before values values.length 0 values.length work

variable {charge : ω → Except ε ω} {before : α → Bool} {values l r : List α} {work work' : ω}

/-- An interval that contains the boundary is narrowed down to it. -/
theorem lowerBoundFrom_ok {boundary fuel low high i : ℕ}
    (hbefore : ∀ j, j < high → (values[j]?.any before = true ↔ j < boundary))
    (hlow : low ≤ boundary) (hhigh : boundary ≤ high) (hfuel : high - low ≤ fuel)
    (h : lowerBoundFrom charge before values fuel low high work = .ok (i, work')) :
    i = boundary := by
  induction fuel generalizing low high work with
  | zero =>
    cases h
    omega
  | succ fuel ih =>
    unfold lowerBoundFrom at h
    split_ifs at h with hlt
    · obtain ⟨w, -, h⟩ := ok_of_bind h
      simp only at h
      have hmiddle := hbefore (low + (high - low) / 2) (by omega)
      by_cases hm : values[low + (high - low) / 2]?.any before = true
      · rw [if_pos hm] at h
        have := hmiddle.1 hm
        exact ih hbefore (by omega) hhigh (by omega) h
      · rw [if_neg hm] at h
        have := mt hmiddle.2 hm
        exact ih (fun j hj => hbefore j (by omega)) hlow (by omega) (by omega) h
    · cases h
      omega

/-- With enough fuel the search returns where the first part ends. -/
theorem lowerBoundFrom_append {fuel i : ℕ} (hl : ∀ a ∈ l, before a = true)
    (hr : ∀ a ∈ r, before a = false) (hfuel : (l ++ r).length ≤ fuel)
    (h : lowerBoundFrom charge before (l ++ r) fuel 0 (l ++ r).length work = .ok (i, work')) :
    i = l.length := by
  refine lowerBoundFrom_ok (fun j hj => ?_) (Nat.zero_le _) ?_ (by rwa [Nat.sub_zero]) h
  · by_cases hlt : j < l.length
    · rw [List.getElem?_append_left hlt, List.getElem?_eq_getElem hlt, Option.any_some,
        hl _ (List.getElem_mem hlt)]
      exact iff_of_true rfl hlt
    · have hin : j - l.length < r.length := by
        rw [List.length_append] at hj
        omega
      rw [List.getElem?_append_right (Nat.not_lt.1 hlt), List.getElem?_eq_getElem hin,
        Option.any_some, hr _ (List.getElem_mem hin)]
      exact iff_of_false Bool.false_ne_true hlt
  · rw [List.length_append]
    exact Nat.le_add_right _ _

/-- A search whose comparisons cost nothing returns. -/
theorem lowerBoundFrom_total (hcharge : ∀ w, ∃ w', charge w = .ok w') (fuel low high : ℕ)
    (work : ω) :
    ∃ x, lowerBoundFrom charge before values fuel low high work = .ok x := by
  induction fuel generalizing low high work with
  | zero => exact ⟨_, rfl⟩
  | succ fuel ih =>
    unfold lowerBoundFrom
    obtain ⟨w, hw⟩ := hcharge work
    split
    · simp only [hw, ok_bind]
      split
      · exact ih _ _ _
      · exact ih _ _ _
    · exact ⟨_, rfl⟩

/-- In a list ordered by `before` nothing after the first part is before. -/
theorem dropWhile_after (h : values.Pairwise fun a b => before b = true → before a = true) :
    ∀ a ∈ values.dropWhile before, before a = false := by
  induction values with
  | nil => exact nofun
  | cons b values ih =>
    obtain ⟨hb, hvalues⟩ := List.pairwise_cons.1 h
    by_cases hbefore : before b = true
    · rw [List.dropWhile_cons_of_pos hbefore]
      exact ih hvalues
    · rw [List.dropWhile_cons_of_neg hbefore]
      intro a ha
      rcases List.mem_cons.1 ha with rfl | ha
      · exact Bool.eq_false_iff.2 hbefore
      · exact Bool.eq_false_iff.2 fun h => hbefore (hb a ha h)

/-- A part that comes first is cut off whole. -/
theorem mem_takeWhile_of_pairwise {a : α}
    (h : values.Pairwise fun a b => before b = true → before a = true) :
    a ∈ values.takeWhile before ↔ a ∈ values ∧ before a = true := by
  constructor
  · exact fun ha => ⟨(List.takeWhile_sublist _).subset ha, List.mem_takeWhile_imp ha⟩
  · rintro ⟨ha, hb⟩
    rw [← List.takeWhile_append_dropWhile (p := before) (l := values), List.mem_append] at ha
    refine ha.resolve_right fun hd => ?_
    rw [dropWhile_after h a hd] at hb
    cases hb

theorem lowerBoundFrom_pairwise {fuel i : ℕ}
    (hsorted : values.Pairwise fun a b => before b = true → before a = true)
    (hfuel : values.length ≤ fuel)
    (h : lowerBoundFrom charge before values fuel 0 values.length work = .ok (i, work')) :
    i = (values.takeWhile before).length := by
  have hsplit : values = values.takeWhile before ++ values.dropWhile before :=
    List.takeWhile_append_dropWhile.symm
  rw [hsplit] at h hfuel
  exact lowerBoundFrom_append (fun a ha => List.mem_takeWhile_imp ha) (dropWhile_after hsorted)
    hfuel h

theorem lowerBound_pairwise {i : ℕ}
    (hsorted : values.Pairwise fun a b => before b = true → before a = true)
    (h : lowerBound charge before values work = .ok (i, work')) :
    i = (values.takeWhile before).length :=
  lowerBoundFrom_pairwise hsorted (Nat.le_refl _) h

theorem drop_length_takeWhile : values.drop (values.takeWhile before).length =
    values.dropWhile before := by
  induction values with
  | nil => rfl
  | cons a values ih =>
    by_cases h : before a = true
    · rw [List.takeWhile_cons_of_pos h, List.dropWhile_cons_of_pos h]
      exact ih
    · rw [List.takeWhile_cons_of_neg h, List.dropWhile_cons_of_neg h]
      rfl

theorem getElem?_length_takeWhile : values[(values.takeWhile before).length]? =
    (values.dropWhile before).head? := by
  rw [← drop_length_takeWhile, List.head?_drop]

/-- The value found is a hit if there is one: hits are not before, and what stands in front of a hit
is before it or a hit itself. -/
theorem lowerBound_hit {hit : α → Bool} {i : ℕ}
    (hsorted : values.Pairwise fun a b => before b = true → before a = true)
    (hhit : ∀ a, hit a = true → before a = false)
    (hfirst : values.Pairwise fun a b => before a = false → hit b = true → hit a = true)
    (h : lowerBound charge before values work = .ok (i, work')) :
    values[i]?.any hit = true ↔ ∃ a ∈ values, hit a = true := by
  rw [lowerBound_pairwise hsorted h, getElem?_length_takeWhile]
  have hafter := dropWhile_after hsorted
  have hordered := hfirst.sublist (List.dropWhile_sublist before)
  have hmem : ∀ a, hit a = true → (a ∈ values ↔ a ∈ values.dropWhile before) := by
    intro a ha
    have hsplit : values = values.takeWhile before ++ values.dropWhile before :=
      List.takeWhile_append_dropWhile.symm
    constructor
    · intro hin
      rw [hsplit] at hin
      refine (List.mem_append.1 hin).resolve_left fun htake => ?_
      exact absurd (List.mem_takeWhile_imp htake) (Bool.eq_false_iff.1 (hhit a ha))
    · exact fun hin => (List.dropWhile_sublist before).subset hin
  cases hdrop : values.dropWhile before with
  | nil =>
    rw [hdrop] at hmem
    refine iff_of_false Bool.false_ne_true ?_
    rintro ⟨a, hin, ha⟩
    cases (hmem a ha).1 hin
  | cons b rest =>
    rw [hdrop] at hmem hafter hordered
    rw [List.head?_cons, Option.any_some]
    constructor
    · exact fun hb => ⟨b, (hmem b hb).2 List.mem_cons_self, hb⟩
    · rintro ⟨a, hin, ha⟩
      rcases List.mem_cons.1 ((hmem a ha).1 hin) with rfl | hrest
      · exact ha
      · exact (List.pairwise_cons.1 hordered).1 a hrest (hafter b List.mem_cons_self) ha

/-- Two searches, for the first value that is not before and for the first one behind it that is no
hit, cut the run of hits out. -/
theorem lowerBound_run {hit : α → Bool} {first count : ℕ} {middle : ω}
    (hsorted : values.Pairwise fun a b => before b = true → before a = true)
    (hhit : values.Pairwise fun a b => before a = false → hit b = true → hit a = true)
    (hfirst : lowerBound charge before values work = .ok (first, middle))
    (hcount : lowerBound charge hit (values.drop first) middle = .ok (count, work')) :
    ∃ earlier run later, values = earlier ++ run ++ later ∧ earlier.length = first ∧
      run.length = count ∧ (∀ a ∈ earlier, before a = true) ∧ (∀ a ∈ run, hit a = true) ∧
      ∀ a ∈ later, hit a = false := by
  have hfirst' := lowerBound_pairwise hsorted hfirst
  rw [hfirst', drop_length_takeWhile] at hcount
  have hrest : (values.dropWhile before).Pairwise fun a b => hit b = true → hit a = true :=
    (hhit.sublist (List.dropWhile_sublist _)).imp_of_mem fun {a b} ha _ hab =>
      hab (dropWhile_after hsorted a ha)
  refine ⟨_, _, _, ?_, hfirst'.symm, (lowerBound_pairwise hrest hcount).symm,
    fun a ha => List.mem_takeWhile_imp ha, fun a ha => List.mem_takeWhile_imp ha,
    dropWhile_after hrest⟩
  rw [List.append_assoc, List.takeWhile_append_dropWhile, List.takeWhile_append_dropWhile]

/-- An ordered list is cut at the length of its first part. -/
theorem lt_length_takeWhile
    (h : values.Pairwise fun a b => before b = true → before a = true) {j : ℕ}
    (hj : j < values.length) :
    j < (values.takeWhile before).length ↔ before values[j] = true := by
  have hsplit : values[j]? = (values.takeWhile before ++ values.dropWhile before)[j]? := by
    rw [List.takeWhile_append_dropWhile]
  rw [List.getElem?_eq_getElem hj] at hsplit
  by_cases hlt : j < (values.takeWhile before).length
  · rw [List.getElem?_append_left hlt] at hsplit
    exact iff_of_true hlt (List.mem_takeWhile_imp (List.mem_of_getElem? hsplit.symm))
  · rw [List.getElem?_append_right (Nat.not_lt.1 hlt)] at hsplit
    have hafter := dropWhile_after h _ (List.mem_of_getElem? hsplit.symm)
    exact iff_of_false hlt (Bool.eq_false_iff.1 hafter)

/-! ### Searches that read what they compare -/

/-- Halves the interval from `low` up to `high`; of each middle index `probe` tells whether it
belongs to the first part. -/
def probeFrom (probe : ℕ → Except ε Bool) : ℕ → ℕ → ℕ → Except ε ℕ
  | 0, low, _ => .ok low
  | fuel + 1, low, high =>
    if low < high then do
      let before ← probe (low + (high - low) / 2)
      if before then probeFrom probe fuel (low + (high - low) / 2 + 1) high
      else probeFrom probe fuel low (low + (high - low) / 2)
    else .ok low

/-- The search returns the boundary of the two parts. -/
theorem probeFrom_ok {probe : ℕ → Except ε Bool} {boundary fuel low high : ℕ}
    (hprobe : ∀ j, low ≤ j → j < high → probe j = .ok (decide (j < boundary)))
    (hlow : low ≤ boundary) (hhigh : boundary ≤ high) (hfuel : high - low ≤ fuel) :
    probeFrom probe fuel low high = .ok boundary := by
  induction fuel generalizing low high with
  | zero =>
    rw [probeFrom, show low = boundary by omega]
  | succ fuel ih =>
    unfold probeFrom
    split_ifs with hlt
    · rw [hprobe _ (by omega) (by omega), ok_bind]
      by_cases hm : low + (high - low) / 2 < boundary
      · rw [if_pos (decide_eq_true hm)]
        exact ih (fun j hj => hprobe j (by omega)) hm hhigh (by omega)
      · rw [decide_eq_false hm, if_neg Bool.false_ne_true]
        exact ih (fun j hj hj' => hprobe j hj (by omega)) hlow (by omega) (by omega)
    · rw [show low = boundary by omega]

/-- What a search meets: probes inside of the interval, and then an index of it. -/
theorem probeFrom_cases {probe : ℕ → Except ε Bool} {fuel low high : ℕ} (hle : low ≤ high) :
    (∃ i ≤ high, probeFrom probe fuel low high = .ok i) ∨
      ∃ j < high, ∃ e, probe j = .error e ∧ probeFrom probe fuel low high = .error e := by
  induction fuel generalizing low high with
  | zero => exact .inl ⟨low, hle, rfl⟩
  | succ fuel ih =>
    unfold probeFrom
    split_ifs with hlt
    · have hmid : low + (high - low) / 2 < high := by omega
      rcases hp : probe (low + (high - low) / 2) with e | b
      · exact .inr ⟨_, hmid, e, hp, rfl⟩
      · rw [ok_bind]
        cases b
        · rcases @ih low (low + (high - low) / 2) (by omega) with ⟨i, hi, h⟩ | ⟨j, hj, e, he, h⟩
          · exact .inl ⟨i, by omega, h⟩
          · exact .inr ⟨j, by omega, e, he, h⟩
        · exact ih hmid
    · exact .inl ⟨low, hle, rfl⟩

end PinCore
