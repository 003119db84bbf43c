import PinCore.Lib.Gives

/-!
# Programs that keep to a discipline

A discipline is an invariant of states and a preorder that keeps it.  A program respects it when,
run from a state of the invariant, every durable state it passes through and the state it returns in
are related to the one it was started in.  A program does so as soon as its writing steps do,
whatever it computes in between and however it ends.
-/

namespace PinCore

universe u v w

/-- An invariant of states, and what may happen to a state that satisfies it. -/
structure Discipline (σ : Type u) where
  inv : σ → Prop
  rel : σ → σ → Prop
  refl : ∀ s, rel s s
  trans : ∀ {s s' s''}, rel s s' → rel s' s'' → rel s s''
  keeps : ∀ {s s'}, inv s → rel s s' → inv s'

namespace Prog

variable {σ : Type u} {ε : Type v} {α β : Type w}

/-- The step from `s` to `s'` is a run of the program, completed or cut off. -/
def Leads (x : Prog σ ε α) (s s' : σ) : Prop := x.Crash s s' ∨ ∃ a, x.Completes s a s'

/-! ### Steps that may fail -/

section

variable {s : σ} {C : σ → Prop} {Q : β → σ → Prop}

theorem spec_fail {e : ε} : Spec (fun _ => True) C s (fail e : Prog σ ε β) Q :=
  ⟨fun _ hs => absurd hs List.not_mem_nil, trivial⟩

theorem spec_ofExcept {x : Except ε α} {f : α → Prog σ ε β}
    (hf : ∀ a, x = .ok a → Spec (fun _ => True) C s (f a) Q) :
    Spec (fun _ => True) C s (ofExcept x >>= f) Q := by
  cases x with
  | ok a => exact hf a rfl
  | error e => exact spec_fail

theorem spec_ensure {c : Prop} [Decidable c] {e : ε} {f : PUnit → Prog σ ε β}
    (hf : c → Spec (fun _ => True) C s (f ⟨⟩) Q) :
    Spec (fun _ => True) C s (ensure c e >>= f) Q := by
  unfold Prog.ensure
  split_ifs with hc
  · exact hf hc
  · exact spec_fail

theorem spec_read {x : Obs σ ε α} {P : α → Prop} (hx : Obs.Gives x P) :
    Spec (fun _ => True) C s (reading x) fun a s' => s' = s ∧ P a := by
  refine ⟨fun _ hs => absurd hs List.not_mem_nil, ?_⟩
  unfold reading Obs.eval
  dsimp only
  rcases hr : x (fun _ => s) 0 with e | ⟨a, t⟩
  · trivial
  · exact ⟨rfl, hx _ _ _ _ hr⟩

theorem spec_reading {x : Obs σ ε α} {P : α → Prop} {f : α → Prog σ ε β} (hx : Obs.Gives x P)
    (hf : ∀ a, P a → Spec (fun _ => True) C s (f a) Q) :
    Spec (fun _ => True) C s (reading x >>= f) Q := by
  refine (spec_read hx).bind ?_
  rintro a s' ⟨rfl, ha⟩
  exact hf a ha

end

end Prog

/-! ### Whole programs -/

namespace Discipline

open Prog

variable {σ : Type u} {ε : Type v} {α β : Type w} {D : Discipline σ} {P : α → Prop}
  {R : β → Prop} {x : Prog σ ε α}

/-- The program respects the discipline, and what it returns satisfies `P`. -/
def Respects (D : Discipline σ) (x : Prog σ ε α) (P : α → Prop) : Prop :=
  ∀ s, D.inv s → Spec (fun _ => True) (D.rel s) s x fun a s' => D.rel s s' ∧ P a

namespace Respects

theorem pure {a : α} (ha : P a) : D.Respects (Pure.pure a : Prog σ ε α) P := by
  intro s _
  exact Spec.pure ⟨D.refl s, ha⟩

theorem fail {e : ε} : D.Respects (Prog.fail e : Prog σ ε α) P := by
  intro s _
  exact spec_fail

theorem bind {f : α → Prog σ ε β} (hx : D.Respects x P) (hf : ∀ a, P a → D.Respects (f a) R) :
    D.Respects (x >>= f) R := by
  intro s hs
  refine (hx s hs).bind ?_
  rintro a s' ⟨hr, ha⟩
  refine (hf a ha s' (D.keeps hs hr)).mono (fun _ h => D.trans hr h) ?_
  rintro b s'' ⟨hr', hb⟩
  exact ⟨D.trans hr hr', hb⟩

theorem ofExcept {y : Except ε α} (hy : ∀ a, y = .ok a → P a) :
    D.Respects (Prog.ofExcept y : Prog σ ε α) P := by
  cases y with
  | ok a => exact pure (hy a rfl)
  | error e => exact fail

theorem ensure_bind {c : Prop} [Decidable c] {e : ε} {f : PUnit → Prog σ ε β}
    (hf : c → D.Respects (f ⟨⟩) R) : D.Respects (Prog.ensure c e >>= f) R := by
  intro s hs
  exact spec_ensure fun hc => hf hc s hs

theorem ite {c : Prop} [Decidable c] {y : Prog σ ε α} (hx : c → D.Respects x P)
    (hy : ¬ c → D.Respects y P) : D.Respects (if c then x else y) P := by
  split_ifs with hc
  · exact hx hc
  · exact hy hc

/-- Wherever the program ends or is cut off, the discipline was kept. -/
theorem leads {s s' : σ} (hx : D.Respects x P) (hs : D.inv s) (h : x.Leads s s') : D.rel s s' := by
  rcases h with h | ⟨a, h⟩
  · exact (hx s hs).crash (D.refl s) h
  · exact ((hx s hs).completes h).1

end Respects

end Discipline

end PinCore
