import Mathlib.Data.List.Basic
import PinCore.Lib.Except

/-!
# Iterators

A function `next` gives an item, or none at the end, and the state behind it.  `Drains` lists the
items up to an end that stays the end; what any number of calls gives follows from the list.  An
iterator that follows another one step by step drains the same list.
-/

namespace PinCore

universe u v w

variable {σ : Type u} {τ : Type v} {α β ε : Type w}

namespace Iterate

/-- What the first `n` calls give. -/
def calls (next : σ → Option α × σ) : ℕ → σ → List (Option α)
  | 0, _ => []
  | n + 1, s => (next s).1 :: calls next n (next s).2

/-- The state after `n` calls. -/
def after (next : σ → Option α × σ) : ℕ → σ → σ
  | 0, s => s
  | n + 1, s => after next n (next s).2

/-- Collects the items of at most `n` calls; the first error ends it. -/
def collect (next : σ → Option (Except ε β) × σ) : ℕ → σ → Except ε (List β)
  | 0, _ => .ok []
  | n + 1, s =>
    match next s with
    | (none, _) => .ok []
    | (some (.error e), _) => .error e
    | (some (.ok b), s') => do
      let bs ← collect next n s'
      .ok (b :: bs)

/-- The items of at most `n` calls, up to the first call without one. -/
def items (next : σ → Option α × σ) : ℕ → σ → List α
  | 0, _ => []
  | n + 1, s =>
    match next s with
    | (none, _) => []
    | (some a, s') => a :: items next n s'

/-- The items of successive calls. -/
inductive Drains (next : σ → Option α × σ) : σ → List α → Prop
  | done {s : σ} : next s = (none, s) → Drains next s []
  | item {s s' : σ} {a : α} {as : List α} : next s = (some a, s') → Drains next s' as →
    Drains next s (a :: as)

section

variable {next : σ → Option α × σ} {step : τ → Option α × τ} {s s' : σ} {t : τ} {as : List α}
  {n : ℕ}

/-- The calls give the items in order and then none. -/
theorem Drains.calls (h : Drains next s as) :
    Iterate.calls next n s = (List.range n).map (as[·]?) := by
  induction n generalizing s as with
  | zero => rfl
  | succ n ih =>
    cases h with
    | done hnext =>
      rw [Iterate.calls, hnext, ih (.done hnext), List.range_succ_eq_map, List.map_cons,
        List.map_map]
      rfl
    | item hnext hrest =>
      rw [Iterate.calls, hnext, ih hrest, List.range_succ_eq_map, List.map_cons, List.map_map]
      rfl

/-- Enough calls collect all items. -/
theorem Drains.collect {next : σ → Option (Except ε β) × σ} {bs : List β}
    (h : Drains next s (bs.map .ok)) (hn : bs.length < n) : Iterate.collect next n s = .ok bs := by
  induction bs generalizing s n with
  | nil =>
    cases h with
    | done hnext =>
      obtain ⟨n, rfl⟩ := Nat.exists_eq_add_one_of_ne_zero (Nat.ne_of_gt hn)
      rw [Iterate.collect, hnext]
  | cons b bs ih =>
    cases h with
    | item hnext hrest =>
      obtain ⟨n, rfl⟩ := Nat.exists_eq_add_one_of_ne_zero (Nat.ne_of_gt (Nat.zero_lt_of_lt hn))
      rw [Iterate.collect, hnext]
      dsimp only
      rw [ih hrest (Nat.lt_of_succ_lt_succ hn), ok_bind]

/-- The items are those of a list if each call takes the first of what is left of it. -/
theorem items_eq {left : σ → List α} {P : σ → Prop}
    (hnext : ∀ s, P s → ((next s).1 = none ∧ left s = []) ∨
      ∃ a s', next s = (some a, s') ∧ left s = a :: left s' ∧ P s')
    (hs : P s) (hn : (left s).length ≤ n) : items next n s = left s := by
  induction n generalizing s with
  | zero => rw [List.length_eq_zero_iff.1 (Nat.le_zero.1 hn), items]
  | succ n ih =>
    rw [items]
    rcases hnext s hs with ⟨hnone, hleft⟩ | ⟨a, s', hsome, hleft, hs'⟩
    · rcases hcall : next s with ⟨_ | a, s'⟩
      · rw [hleft]
      · rw [hcall] at hnone
        cases hnone
    · rw [hleft, List.length_cons] at hn
      rw [hsome, hleft]
      exact congrArg (a :: ·) (ih hs' (Nat.le_of_succ_le_succ hn))

/-- An iterator that follows another one drains the same items. -/
theorem Drains.follow {R : σ → τ → List α → Prop}
    (hdone : ∀ s t, R s t [] → next s = (none, s) → step t = (none, t))
    (hitem : ∀ s t a as s', R s t (a :: as) → next s = (some a, s') →
      ∃ t', step t = (some a, t') ∧ R s' t' as)
    (h : Drains next s as) (hR : R s t as) : Drains step t as := by
  induction h generalizing t with
  | done hnext => exact .done (hdone _ _ hR hnext)
  | item hnext _ ih =>
    obtain ⟨t', hstep, hR'⟩ := hitem _ _ _ _ _ hR hnext
    exact .item hstep (ih hR')

end

end Iterate

end PinCore
