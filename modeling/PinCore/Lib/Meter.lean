import PinCore.Lib.LowerBound

/-!
# Computations that draw on work

A computation that draws on a counter of work is affordable when some amount of work is enough for
it: it then has one result, and all further work is left.
-/

namespace PinCore

variable {ε α α' γ δ : Type} {mk : α → ℕ → γ} {mk' : α' → ℕ → δ}
  {f : ℕ → Except ε γ} {g : γ → Except ε δ}

/-- With `cost` units of work or more, `f` returns; `mk` puts the work that is left into the
result. -/
def Affordable (mk : α → ℕ → γ) (f : ℕ → Except ε γ) : Prop :=
  ∃ a cost, ∀ work, f (work + cost) = .ok (mk a work)

theorem Affordable.pure (a : α) : Affordable mk fun work => (.ok (mk a work) : Except ε γ) :=
  ⟨a, 0, fun _ => rfl⟩

theorem Affordable.bind (hf : Affordable mk f)
    (hg : ∀ a, (∃ work work', f work = .ok (mk a work')) →
      Affordable mk' fun work => g (mk a work)) :
    Affordable mk' fun work => f work >>= g := by
  obtain ⟨a, cost, ha⟩ := hf
  obtain ⟨b, cost', hb⟩ := hg a ⟨_, 0, ha 0⟩
  refine ⟨b, cost' + cost, fun work => ?_⟩
  dsimp only at hb ⊢
  rw [← Nat.add_assoc, ha, ok_bind, hb]

/-- A step that takes one unit of work. -/
theorem Affordable.tick {charge : ℕ → Except ε ℕ} {g : ℕ → Except ε δ}
    (hcharge : ∀ work, charge (work + 1) = .ok work) (hg : Affordable mk' g) :
    Affordable mk' fun work => charge work >>= g := by
  obtain ⟨b, cost, hb⟩ := hg
  refine ⟨b, cost + 1, fun work => ?_⟩
  dsimp only
  rw [← Nat.add_assoc, hcharge, ok_bind, hb]

theorem Affordable.ite {c : Prop} [Decidable c] {f f' : ℕ → Except ε γ} (h : c → Affordable mk f)
    (h' : ¬ c → Affordable mk f') : Affordable mk fun work => if c then f work else f' work := by
  by_cases hc : c
  · simp only [if_pos hc]
    exact h hc
  · simp only [if_neg hc]
    exact h' hc

section LowerBound

variable {β : Type} {charge : ℕ → Except ε ℕ} {before : β → Bool} {values : List β}

theorem affordable_lowerBoundFrom (hcharge : ∀ work, charge (work + 1) = .ok work)
    (fuel low high : ℕ) :
    Affordable Prod.mk fun work => lowerBoundFrom charge before values fuel low high work := by
  induction fuel generalizing low high with
  | zero => exact .pure low
  | succ fuel ih =>
    unfold lowerBoundFrom
    refine .ite (fun _ => .tick hcharge ?_) fun _ => .pure low
    exact .ite (fun _ => ih _ _) fun _ => ih _ _

theorem affordable_lowerBound (hcharge : ∀ work, charge (work + 1) = .ok work) :
    Affordable Prod.mk fun work => lowerBound charge before values work :=
  affordable_lowerBoundFrom hcharge _ _ _

end LowerBound

end PinCore
