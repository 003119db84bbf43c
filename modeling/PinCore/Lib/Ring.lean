import Mathlib.Data.List.Basic

/-!
# Ring buffers

A row of slots and the slot that is written next.  `Ring.contents` lists the slots from the oldest
to the newest; a write drops the oldest and appends the new value.
-/

namespace PinCore

universe u

/-- A row of slots with a write position. -/
structure Ring (α : Type u) where
  slots : List α
  cursor : ℕ

namespace Ring

variable {α : Type u}

/-- Writes the next slot of a ring of `width` slots. -/
def push (r : Ring α) (width : ℕ) (a : α) : Ring α where
  slots := r.slots.set r.cursor a
  cursor := if r.cursor + 1 = width then 0 else r.cursor + 1

/-- The first `width` slots, the oldest first. -/
def contents (r : Ring α) (width : ℕ) : List α :=
  (r.slots.take width).drop r.cursor ++ r.slots.take r.cursor

variable {r : Ring α} {width : ℕ} {a : α}

theorem cursor_push_lt (hc : r.cursor < width) : (r.push width a).cursor < width := by
  unfold push
  split_ifs <;> simp only <;> omega

theorem length_slots_push : (r.push width a).slots.length = r.slots.length := List.length_set

/-- The slots below the cursor, before it wraps. -/
theorem take_push (hc : r.cursor < r.slots.length) :
    (r.push width a).slots.take (r.cursor + 1) = r.slots.take r.cursor ++ [a] := by
  change (r.slots.set r.cursor a).take (r.cursor + 1) = _
  rw [List.take_add_one, List.take_set_of_le (Nat.le_refl _), List.getElem?_set_self hc]
  rfl

/-- A write drops the oldest slot and appends the new value. -/
theorem contents_push (hc : r.cursor < width) (hw : width ≤ r.slots.length) :
    (r.push width a).contents width = (r.contents width).tail ++ [a] := by
  have hlt : r.cursor < (r.slots.take width).length := by
    rw [List.length_take]
    omega
  have holdest : (r.slots.take width).drop r.cursor =
      (r.slots.take width)[r.cursor] :: (r.slots.take width).drop (r.cursor + 1) :=
    List.drop_eq_getElem_cons hlt
  have htail : (r.contents width).tail =
      (r.slots.take width).drop (r.cursor + 1) ++ r.slots.take r.cursor := by
    rw [contents, holdest, List.cons_append, List.tail_cons]
  have hnewer : ((r.slots.set r.cursor a).take width).drop (r.cursor + 1) =
      (r.slots.take width).drop (r.cursor + 1) := by
    rw [List.take_set, List.drop_set_of_lt (Nat.lt_succ_self _)]
  have holder := @take_push α r width a (Nat.lt_of_lt_of_le hc hw)
  rw [htail]
  by_cases hwrap : r.cursor + 1 = width
  · have hcursor : (r.push width a).cursor = 0 := if_pos hwrap
    have hnone : (r.slots.take width).drop (r.cursor + 1) = [] := by
      rw [List.drop_eq_nil_iff, List.length_take]
      omega
    rw [contents, hcursor, List.drop_zero, List.take_zero, List.append_nil, hnone, List.nil_append,
      ← hwrap]
    rw [hwrap] at holder
    rw [hwrap, holder]
  · have hcursor : (r.push width a).cursor = r.cursor + 1 := if_neg hwrap
    rw [contents, hcursor, holder, ← List.append_assoc]
    change ((r.slots.set r.cursor a).take width).drop (r.cursor + 1) ++ _ ++ _ = _
    rw [hnewer]

end Ring

end PinCore
