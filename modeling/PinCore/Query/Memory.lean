import PinCore.Query.Basic

/-!
# Accounted buffers and work

`reserve` grows the capacity of a vector under an element limit and a memory budget; `charge`
takes units from a work limit.  An allocation gives exactly the capacity that was asked for.
-/

namespace PinCore

/-- Makes room for `additional` more elements of `size` bytes in a vector of `length` elements:
the new capacity and the charged budget. -/
def reserve (length capacity additional limit size : ℕ) (budget : MemoryBudget) :
    Except Error (ℕ × MemoryBudget) :=
  let required := length + additional
  if limit < required then .error (.limit "element count")
  else if required ≤ capacity then .ok (capacity, budget)
  else
    let doubled := min (max (2 * capacity) required) limit
    let target := if budget.remaining < (doubled - capacity) * size then required else doubled
    if budget.remaining < (target - capacity) * size then .error .budget
    else .ok (target, { budget with used := budget.used + (target - capacity) * size })

/-- Growing stays within the element limit, and only the budget can refuse it there. -/
theorem reserve_cases {length additional limit : ℕ} (capacity size : ℕ) (budget : MemoryBudget)
    (h : length + additional ≤ limit) :
    reserve length capacity additional limit size budget = .error .budget ∨
      ∃ grown, reserve length capacity additional limit size budget = .ok grown := by
  rw [reserve, if_neg (Nat.not_lt.2 h)]
  by_cases hroom : length + additional ≤ capacity
  · exact .inr ⟨_, if_pos hroom⟩
  · rw [if_neg hroom]
    dsimp only
    generalize (if budget.remaining < _ then length + additional else _) = target
    by_cases hbudget : budget.remaining < (target - capacity) * size
    · exact .inl (if_pos hbudget)
    · exact .inr ⟨_, if_neg hbudget⟩

theorem reserve_limit {length capacity additional limit size : ℕ} (budget : MemoryBudget)
    (h : limit < length + additional) :
    reserve length capacity additional limit size budget = .error (.limit "element count") :=
  if_pos h

/-- Takes units of work. -/
def charge (units work : ℕ) : Except Error ℕ :=
  if units ≤ work then .ok (work - units) else .error (.limit "search work")

theorem charge_of_le {units work : ℕ} (h : units ≤ work) :
    charge units work = .ok (work - units) := if_pos h

theorem charge_of_lt {units work : ℕ} (h : work < units) :
    charge units work = .error (.limit "search work") := if_neg (Nat.not_le.2 h)

@[simp] theorem charge_succ (work : ℕ) : charge 1 (work + 1) = .ok work :=
  charge_of_le (Nat.le_add_left 1 work)

@[simp] theorem charge_zero : charge 1 0 = .error (.limit "search work") := rfl

end PinCore
