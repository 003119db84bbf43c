import Mathlib.Data.List.Basic
import Mathlib.Tactic.Common

/-!
# Runs of numbers

An ascending list is the concatenation of its maximal runs of successive numbers.  The runs are
the only ones that are nonempty, keep a gap between two of them and have this concatenation; there
are as many as numbers whose predecessor is missing.
-/

namespace PinCore

/-- The numbers of runs, each with its first number and its length. -/
def expandRuns (runs : List (ℕ × ℕ)) : List ℕ := runs.flatMap fun r => List.range' r.1 r.2

/-- The runs of a list after a run from `start` to `last`. -/
def runsFrom (start last : ℕ) : List ℕ → List (ℕ × ℕ)
  | [] => [(start, last - start + 1)]
  | o :: os =>
    if o = last + 1 then runsFrom start o os else (start, last - start + 1) :: runsFrom o o os

/-- The maximal runs of an ascending list. -/
def runsOf : List ℕ → List (ℕ × ℕ)
  | [] => []
  | o :: os => runsFrom o o os

/-- Nonempty runs from `bound` on with a gap between two of them. -/
def RunsApart : ℕ → List (ℕ × ℕ) → Prop
  | _, [] => True
  | bound, r :: rs => bound ≤ r.1 ∧ 0 < r.2 ∧ RunsApart (r.1 + r.2 + 1) rs

section

variable {start last bound n m : ℕ} {os : List ℕ} {r : ℕ × ℕ} {runs : List (ℕ × ℕ)}

theorem expandRuns_cons : expandRuns (r :: runs) = List.range' r.1 r.2 ++ expandRuns runs :=
  List.flatMap_cons

theorem RunsApart.mono (h : RunsApart bound runs) (hle : n ≤ bound) : RunsApart n runs := by
  cases runs with
  | nil => trivial
  | cons r rs => exact ⟨Nat.le_trans hle h.1, h.2⟩

theorem RunsApart.le_of_mem (h : RunsApart bound runs) : ∀ o ∈ expandRuns runs, bound ≤ o := by
  induction runs generalizing bound with
  | nil => exact fun o ho => absurd ho List.not_mem_nil
  | cons r rs ih =>
    obtain ⟨hle, hpos, hrest⟩ := h
    intro o ho
    rw [expandRuns_cons, List.mem_append, List.mem_range'_1] at ho
    rcases ho with ho | ho
    · omega
    · have := ih hrest o ho
      omega

/-- Runs with gaps are ascending. -/
theorem RunsApart.sorted (h : RunsApart bound runs) : (expandRuns runs).Pairwise (· < ·) := by
  induction runs generalizing bound with
  | nil => exact List.Pairwise.nil
  | cons r rs ih =>
    obtain ⟨-, -, hrest⟩ := h
    rw [expandRuns_cons]
    refine List.pairwise_append.2 ⟨List.pairwise_lt_range', ih hrest, fun a ha b hb => ?_⟩
    have hge := hrest.le_of_mem b hb
    rw [List.mem_range'_1] at ha
    omega

theorem range'_snoc (h : start ≤ last) :
    List.range' start (last + 1 - start) ++ [last + 1] = List.range' start (last + 2 - start) := by
  have hlen : last + 2 - start = last + 1 - start + 1 := by omega
  have hend : last + 1 = start + 1 * (last + 1 - start) := by omega
  rw [hlen, List.range'_concat, ← hend]

theorem expandRuns_runsFrom (h : start ≤ last) :
    expandRuns (runsFrom start last os) = List.range' start (last + 1 - start) ++ os := by
  have hlen : last - start + 1 = last + 1 - start := by omega
  induction os generalizing start last with
  | nil => rw [runsFrom, expandRuns_cons, hlen]; rfl
  | cons o os ih =>
    rw [runsFrom]
    split_ifs with ho
    · rw [ih (by omega) (by omega), ho, ← range'_snoc h, List.append_assoc, List.singleton_append]
    · rw [expandRuns_cons, ih (Nat.le_refl o) (by omega), hlen, Nat.add_sub_cancel_left]
      rfl

/-- The runs of a list have its numbers. -/
theorem expandRuns_runsOf : expandRuns (runsOf os) = os := by
  cases os with
  | nil => rfl
  | cons o os =>
    rw [runsOf, expandRuns_runsFrom (Nat.le_refl o), Nat.add_sub_cancel_left]
    rfl

theorem runsFrom_apart (h : start ≤ last) (hs : (last :: os).Pairwise (· < ·)) :
    RunsApart start (runsFrom start last os) := by
  induction os generalizing start last with
  | nil => exact ⟨Nat.le_refl start, Nat.succ_pos _, trivial⟩
  | cons o os ih =>
    have hlt := List.rel_of_pairwise_cons hs List.mem_cons_self
    have htail := hs.of_cons
    rw [runsFrom]
    split_ifs with ho
    · exact ih (by omega) htail
    · exact ⟨Nat.le_refl start, Nat.succ_pos _, (ih (Nat.le_refl o) htail).mono (by omega)⟩

/-- The runs of an ascending list are maximal. -/
theorem runsOf_apart (hs : os.Pairwise (· < ·)) (hb : ∀ o ∈ os, bound ≤ o) :
    RunsApart bound (runsOf os) := by
  cases os with
  | nil => trivial
  | cons o os => exact (runsFrom_apart (Nat.le_refl o) hs).mono (hb o List.mem_cons_self)

theorem runsFrom_range' (h : RunsApart (last + m + 2) runs) (hle : start ≤ last) :
    runsFrom start last (List.range' (last + 1) m ++ expandRuns runs) =
      (start, last + m - start + 1) :: runsOf (expandRuns runs) := by
  induction m generalizing last with
  | zero =>
    rw [List.range'_zero, List.nil_append]
    cases hr : expandRuns runs with
    | nil => rfl
    | cons o os =>
      have hge := h.le_of_mem o (hr ▸ List.mem_cons_self)
      rw [runsFrom, if_neg (by omega), runsOf, Nat.add_zero last]
  | succ m ih =>
    rw [List.range'_succ, List.cons_append, runsFrom, if_pos rfl,
      ih (h.mono (by omega)) (by omega)]
    congr 3
    omega

/-- Only the maximal runs keep gaps. -/
theorem runsOf_expandRuns (h : RunsApart bound runs) : runsOf (expandRuns runs) = runs := by
  induction runs generalizing bound with
  | nil => rfl
  | cons r rs ih =>
    obtain ⟨start, len⟩ := r
    obtain ⟨-, hpos, hrest⟩ := h
    obtain ⟨m, rfl⟩ := Nat.exists_eq_add_one_of_ne_zero (Nat.ne_of_gt hpos)
    have hlen : start + m - start + 1 = m + 1 := by omega
    rw [expandRuns_cons, List.range'_succ, List.cons_append, runsOf,
      runsFrom_range' (hrest.mono (by simp only; omega)) (Nat.le_refl start), ih hrest, hlen]

/-! ### Counting -/

theorem length_runsFrom (h : start ≤ last) (hs : (last :: os).Pairwise (· < ·)) :
    (runsFrom start last os).length = 1 + (os.filter fun o => o - 1 ∉ last :: os).length := by
  induction os generalizing start last with
  | nil => rfl
  | cons o os ih =>
    have hlt := List.rel_of_pairwise_cons hs List.mem_cons_self
    have htail := hs.of_cons
    have hmem : o - 1 ∉ last :: o :: os ↔ o ≠ last + 1 := by
      rw [List.mem_cons, List.mem_cons]
      constructor
      · intro hnot heq
        exact hnot (.inl (by omega))
      · rintro hne (heq | heq | hin)
        · omega
        · omega
        · have := List.rel_of_pairwise_cons htail hin
          omega
    -- behind `o` the number `last` is no predecessor
    have hfilter : (os.filter fun x => x - 1 ∉ last :: o :: os) =
        os.filter fun x => x - 1 ∉ o :: os := by
      refine List.filter_congr fun x hx => decide_eq_decide.2 (not_congr ?_)
      have hxo := List.rel_of_pairwise_cons htail hx
      have hne : x - 1 ≠ last := by omega
      rw [List.mem_cons, or_iff_right hne]
    rw [runsFrom, List.filter_cons, hfilter]
    split_ifs with ho hd hd
    · exact absurd ho (hmem.1 (of_decide_eq_true hd))
    · exact ih (by omega) htail
    · rw [List.length_cons, List.length_cons, ih (Nat.le_refl o) htail]
      omega
    · exact absurd (decide_eq_true (hmem.2 ho)) hd

/-- There are as many runs as numbers whose predecessor is missing. -/
theorem length_runsOf (hs : os.Pairwise (· < ·)) (hpos : ∀ o ∈ os, 0 < o) :
    (runsOf os).length = (os.filter fun o => o - 1 ∉ os).length := by
  cases os with
  | nil => rfl
  | cons o os =>
    have hfirst : o - 1 ∉ o :: os := by
      have ho := hpos o List.mem_cons_self
      intro hin
      rcases List.mem_cons.1 hin with heq | hin
      · omega
      · have := List.rel_of_pairwise_cons hs hin
        omega
    rw [runsOf, length_runsFrom (Nat.le_refl o) hs, List.filter_cons,
      if_pos (decide_eq_true hfirst), List.length_cons, Nat.add_comm]

end

end PinCore
