import Mathlib.Data.List.Induction
import Mathlib.Tactic.Common

/-!
# Evaluating a flat program

The nodes of a flat program are evaluated in order, each from the values of the nodes before
it.  A node that only reads earlier values has the value it would have in the finished list.
-/

namespace PinCore

variable {α β : Type*}

/-- Evaluate nodes in order, each from the values of those before it. -/
def inOrder (f : List β → α → β) (ks : List α) : List β :=
  ks.foldl (fun values k => values ++ [f values k]) []

variable {f : List β → α → β} {ks : List α} {k : α} {i : ℕ}

theorem inOrder_concat : inOrder f (ks ++ [k]) = inOrder f ks ++ [f (inOrder f ks) k] := by
  simp only [inOrder, List.foldl_append, List.foldl_cons, List.foldl_nil]

theorem length_inOrder : (inOrder f ks).length = ks.length := by
  induction ks using List.reverseRecOn with
  | nil => rfl
  | append_singleton ks k ih => rw [inOrder_concat, List.length_append, ih]; simp

theorem inOrder_take : (inOrder f ks).take i = inOrder f (ks.take i) := by
  induction ks using List.reverseRecOn with
  | nil => simp [inOrder]
  | append_singleton ks k ih =>
    rcases Nat.lt_or_ge ks.length i with h | h
    · have hlen : (ks ++ [k]).length ≤ i := by
        rw [List.length_append, List.length_singleton]
        exact h
      rw [List.take_of_length_le (by rwa [length_inOrder]), List.take_of_length_le hlen]
    · rw [inOrder_concat, List.take_append_of_le_length (by rwa [length_inOrder]),
        List.take_append_of_le_length h, ih]

theorem inOrder_getElem? (h : ks[i]? = some k) :
    (inOrder f ks)[i]? = some (f ((inOrder f ks).take i) k) := by
  have hi := (List.getElem?_eq_some_iff.1 h).1
  have htake : ks.take (i + 1) = ks.take i ++ [k] := by
    rw [List.take_add_one, h]; rfl
  have hlen : (inOrder f (ks.take i)).length = i := by
    rw [length_inOrder, List.length_take, Nat.min_eq_left (Nat.le_of_lt hi)]
  rw [← List.getElem?_take_of_lt (Nat.lt_succ_self i), inOrder_take, inOrder_take, htake,
    inOrder_concat, List.getElem?_append_right (Nat.le_of_eq hlen), hlen, Nat.sub_self]
  rfl

/-- The value of a node that reads the same from the values before it as from all values. -/
theorem inOrder_getD {x : β} (h : ks[i]? = some k)
    (hlocal : f ((inOrder f ks).take i) k = f (inOrder f ks) k) :
    (inOrder f ks).getD i x = f (inOrder f ks) k := by
  rw [List.getD_eq_getElem?_getD, inOrder_getElem? h, Option.getD_some, hlocal]

/-- Two programs whose nodes have the same values, in pairs, have the same values. -/
theorem inOrder_congr {γ : Type*} {g : List β → γ → β} {ls : List γ}
    (h : List.Forall₂ (fun k l => ∀ values, f values k = g values l) ks ls) :
    inOrder f ks = inOrder g ls := by
  have hfold : ∀ values, ks.foldl (fun values k => values ++ [f values k]) values =
      ls.foldl (fun values l => values ++ [g values l]) values := by
    induction h with
    | nil => exact fun _ => rfl
    | cons hkl _ ih =>
      intro values
      rw [List.foldl_cons, List.foldl_cons, hkl, ih]
  exact hfold []

theorem getD_take {l : List β} {x : β} {c : ℕ} (h : c < i) : (l.take i).getD c x = l.getD c x := by
  rw [List.getD_eq_getElem?_getD, List.getD_eq_getElem?_getD, List.getElem?_take_of_lt h]

end PinCore
