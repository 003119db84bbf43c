import PinCore.Lib.Crash

/-!
# What a program can return

`Gives x P` says of an observing program that whatever it returns, on any history, satisfies `P`;
it may fail.  A program may be replaced by another one that agrees with it on such values.
-/

namespace PinCore

universe u v w

namespace Obs

variable {σ : Type u} {ε : Type v} {α β : Type w} {P : α → Prop} {R : β → Prop}

/-- Every value that the program returns satisfies `P`. -/
def Gives (x : Obs σ ε α) (P : α → Prop) : Prop :=
  ∀ h t a t', x h t = .ok (a, t') → P a

namespace Gives

theorem pure {a : α} (ha : P a) : Gives (Pure.pure a : Obs σ ε α) P := by
  intro h t b t' hb
  cases hb
  exact ha

theorem fail {e : ε} : Gives (fail e : Obs σ ε α) P := nofun

theorem any {x : Obs σ ε α} : Gives x fun _ => True := fun _ _ _ _ _ => trivial

theorem bind {x : Obs σ ε α} {f : α → Obs σ ε β} (hx : Gives x P) (hf : ∀ a, P a → Gives (f a) R) :
    Gives (x >>= f) R := by
  intro h t b t' hb
  change Obs.bind x f h t = _ at hb
  rw [Obs.bind] at hb
  rcases hxr : x h t with e | ⟨a, t₁⟩
  · rw [hxr] at hb
    cases hb
  · rw [hxr] at hb
    exact hf a (hx h t a t₁ hxr) h t₁ b t' hb

theorem ofExcept {x : Except ε α} (hx : ∀ a, x = .ok a → P a) :
    Gives (Obs.ofExcept x : Obs σ ε α) P := by
  cases x with
  | error e => exact fail
  | ok a => exact pure (hx a rfl)

theorem ensure_bind {c : Prop} [Decidable c] {e : ε} {f : PUnit → Obs σ ε β}
    (hf : c → Gives (f ⟨⟩) R) : Gives (Obs.ensure c e >>= f) R := by
  unfold Obs.ensure
  split_ifs with hc
  · exact hf hc
  · exact fail

/-- Programs that agree on what `x` can return agree behind it. -/
theorem bind_congr {x : Obs σ ε α} {f g : α → Obs σ ε β} (hx : Gives x P)
    (hfg : ∀ a, P a → f a = g a) : x >>= f = x >>= g := by
  funext h t
  change Obs.bind x f h t = Obs.bind x g h t
  rw [Obs.bind, Obs.bind]
  rcases hxr : x h t with e | ⟨a, t₁⟩
  · rfl
  · dsimp only
    rw [hfg a (hx h t a t₁ hxr)]

end Gives

end Obs

end PinCore
