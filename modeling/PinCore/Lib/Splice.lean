import Mathlib.Data.List.Basic

/-!
# Replacing a part of a list

`splice l i xs` puts `xs` over the elements of `l` from `i` on.  What lies in front of the part and
behind it stays where it was.
-/

namespace PinCore

universe u

variable {α : Type u} {l xs ys : List α} {i j n : ℕ}

/-- `xs` over the elements from `i` on. -/
def splice (l : List α) (i : ℕ) (xs : List α) : List α := l.take i ++ xs ++ l.drop (i + xs.length)

theorem length_splice (h : i + xs.length ≤ l.length) : (splice l i xs).length = l.length := by
  rw [splice, List.length_append, List.length_append, List.length_take_of_le (by omega),
    List.length_drop]
  omega

/-- In front of the part nothing changes. -/
theorem take_splice (h : n ≤ i) (hi : i ≤ l.length) : (splice l i xs).take n = l.take n := by
  rw [splice, List.append_assoc, List.take_append_of_le_length, List.take_take, Nat.min_eq_left h]
  rw [List.length_take_of_le hi]
  exact h

/-- The elements from `i` to the end of the part. -/
theorem take_splice_self (hi : i ≤ l.length) :
    ((splice l i xs).take (i + xs.length)) = l.take i ++ xs := by
  have hlen : (l.take i ++ xs).length = i + xs.length := by
    rw [List.length_append, List.length_take_of_le hi]
  rw [splice, ← hlen, List.take_left]

/-- A part in the middle of three. -/
theorem splice_append (h : ys.length = xs.length) (front rest : List α) :
    splice (front ++ (ys ++ rest)) front.length xs = front ++ (xs ++ rest) := by
  rw [splice, List.take_left, ← h, ← List.drop_drop, List.drop_left, List.drop_left,
    List.append_assoc]

end PinCore
