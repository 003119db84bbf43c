import PinCore.Lib.History

/-!
# Loops with a fuel argument

A loop of the source that has no counter of its own is modelled with a fuel argument.  `Settles`
says that, reading a history from some moment on, from some amount of fuel on the program
returns one and the same value at one and the same moment; so a loop that settles is one that
terminates.
-/

namespace PinCore

universe u v w

namespace Obs

variable {σ : Type u} {ε : Type v} {α β : Type w} {h : ℕ → σ} {t : ℕ} {Q : α → ℕ → Prop}
  {R : β → ℕ → Prop}

/-- With enough fuel the program returns a value and a moment satisfying `Q`, which more fuel
does not change. -/
def Settles (h : ℕ → σ) (t : ℕ) (x : ℕ → Obs σ ε α) (Q : α → ℕ → Prop) : Prop :=
  ∃ a t', t ≤ t' ∧ Q a t' ∧ ∃ n, ∀ fuel, n ≤ fuel → x fuel h t = .ok (a, t')

theorem Settles.pure {a : α} (ha : Q a t) : Settles h t (fun _ => (Pure.pure a : Obs σ ε α)) Q :=
  ⟨a, t, Nat.le_refl t, ha, 0, fun _ _ => rfl⟩

/-- A program without a loop. -/
theorem Sees.settles {x : Obs σ ε α} (hx : Sees h t x Q) : Settles h t (fun _ => x) Q :=
  let ⟨a, t', ht, ha, e⟩ := hx
  ⟨a, t', ht, ha, 0, fun _ _ => e⟩

theorem Settles.bind {x : ℕ → Obs σ ε α} {f : ℕ → α → Obs σ ε β} (hx : Settles h t x Q)
    (hf : ∀ a t', t ≤ t' → Q a t' → Settles h t' (fun fuel => f fuel a) R) :
    Settles h t (fun fuel => x fuel >>= f fuel) R := by
  obtain ⟨a, t', ht, ha, n, hn⟩ := hx
  obtain ⟨b, t'', ht', hb, k, hk⟩ := hf a t' ht ha
  refine ⟨b, t'', Nat.le_trans ht ht', hb, max n k, fun fuel hfuel => ?_⟩
  change Obs.bind (x fuel) (f fuel) _ _ = _
  simp only [Obs.bind, hn fuel (Nat.le_trans (Nat.le_max_left n k) hfuel),
    hk fuel (Nat.le_trans (Nat.le_max_right n k) hfuel)]

theorem Settles.mono {x : ℕ → Obs σ ε α} {Q' : α → ℕ → Prop} (hx : Settles h t x Q)
    (hq : ∀ a t', t ≤ t' → Q a t' → Q' a t') : Settles h t x Q' :=
  let ⟨a, t', ht, ha, hn⟩ := hx
  ⟨a, t', ht, hq a t' ht ha, hn⟩

/-- One unit of fuel pays for one pass of the loop. -/
theorem Settles.succ {x : ℕ → Obs σ ε α} (hx : Settles h t (fun fuel => x (fuel + 1)) Q) :
    Settles h t x Q := by
  obtain ⟨a, t', ht, ha, n, hn⟩ := hx
  refine ⟨a, t', ht, ha, n + 1, fun fuel hfuel => ?_⟩
  obtain ⟨k, rfl⟩ := Nat.exists_eq_add_of_le' (Nat.le_trans (Nat.le_add_left 1 n) hfuel)
  exact hn k (Nat.le_of_succ_le_succ hfuel)

/-- Run an observation first, then the loop. -/
theorem Sees.bind_settles {x : Obs σ ε α} {f : ℕ → α → Obs σ ε β} (hx : Sees h t x Q)
    (hf : ∀ a t', t ≤ t' → Q a t' → Settles h t' (fun fuel => f fuel a) R) :
    Settles h t (fun fuel => x >>= f fuel) R :=
  Settles.bind hx.settles hf

theorem Settles.ofExcept_bind {x : Except ε α} {a : α} {f : ℕ → α → Obs σ ε β} (hx : x = .ok a)
    (hf : Settles h t (fun fuel => f fuel a) R) :
    Settles h t (fun fuel => Obs.ofExcept x >>= f fuel) R := by
  subst hx; exact hf

theorem Settles.ensure_bind {c : Prop} [Decidable c] {e : ε} {f : ℕ → PUnit → Obs σ ε β} (hc : c)
    (hf : Settles h t (fun fuel => f fuel ⟨⟩) R) :
    Settles h t (fun fuel => Obs.ensure c e >>= f fuel) R := by
  have : (Obs.ensure c e : Obs σ ε PUnit) = Obs.pure ⟨⟩ := if_pos hc
  rw [this]
  exact hf

/-- The value a settled program evaluates to on an unchanging state. -/
theorem Settles.eval {s : σ} {x : ℕ → Obs σ ε α} (hx : Settles (fun _ => s) 0 x Q) :
    ∃ a t', Q a t' ∧ ∃ n, ∀ fuel, n ≤ fuel → (x fuel).eval s = .ok a := by
  obtain ⟨a, t', -, ha, n, hn⟩ := hx
  refine ⟨a, t', ha, n, fun fuel hfuel => ?_⟩
  simp only [Obs.eval, hn fuel hfuel]
  rfl

end Obs

end PinCore
