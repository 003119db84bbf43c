import PinCore.Lib.Crash

/-!
# Reading while others write

An observing program reads a history of states, each observation at its own moment.  `Obs.Sees`
is its rule of total correctness: the program returns, and the postcondition speaks of the value
and of the moment it was returned at.  What is known of the past carries over through whatever
the writers preserve.

For the writers, `Prog.Along T` says that every durable step of a run is related to the one
before by `T`; a preorder on states that holds along every writer orders the whole history.
-/

namespace PinCore

universe u v w

/-! ### Readers -/

namespace Obs

variable {σ : Type u} {ε : Type v} {α β : Type w} {h : ℕ → σ} {t : ℕ} {Q : α → ℕ → Prop}
  {R : β → ℕ → Prop}

/-- Reading the history `h` from the moment `t` on, the program returns, and `Q` holds of the
value and of the moment after the last observation. -/
def Sees (h : ℕ → σ) (t : ℕ) (x : Obs σ ε α) (Q : α → ℕ → Prop) : Prop :=
  ∃ a t', t ≤ t' ∧ Q a t' ∧ x h t = .ok (a, t')

theorem Sees.pure {a : α} (ha : Q a t) : Sees h t (Pure.pure a : Obs σ ε α) Q :=
  ⟨a, t, Nat.le_refl t, ha, rfl⟩

theorem Sees.bind {x : Obs σ ε α} {f : α → Obs σ ε β} (hx : Sees h t x Q)
    (hf : ∀ a t', t ≤ t' → Q a t' → Sees h t' (f a) R) : Sees h t (x >>= f) R := by
  obtain ⟨a, t', ht, ha, hxa⟩ := hx
  obtain ⟨b, t'', ht', hb, hfb⟩ := hf a t' ht ha
  refine ⟨b, t'', Nat.le_trans ht ht', hb, ?_⟩
  change Obs.bind x f _ _ = _
  simp only [Obs.bind, hxa, hfb]

theorem Sees.mono {x : Obs σ ε α} {Q' : α → ℕ → Prop} (hx : Sees h t x Q)
    (hq : ∀ a t', t ≤ t' → Q a t' → Q' a t') : Sees h t x Q' :=
  let ⟨a, t', ht, ha, e⟩ := hx
  ⟨a, t', ht, hq a t' ht ha, e⟩

theorem Sees.observe {f : σ → α} (ha : Q (f (h t)) (t + 1)) :
    Sees h t (observe f : Obs σ ε α) Q :=
  ⟨f (h t), t + 1, Nat.le_succ t, ha, rfl⟩

/-- Continue with the value of a pure computation that succeeds. -/
theorem Sees.ofExcept_bind {x : Except ε α} {a : α} {f : α → Obs σ ε β} (hx : x = .ok a)
    (hf : Sees h t (f a) R) : Sees h t (Obs.ofExcept x >>= f) R := by
  subst hx; exact hf

theorem Sees.ensure_bind {c : Prop} [Decidable c] {e : ε} {f : PUnit → Obs σ ε β} (hc : c)
    (hf : Sees h t (f ⟨⟩) R) : Sees h t (Obs.ensure c e >>= f) R := by
  have : (Obs.ensure c e : Obs σ ε PUnit) = Obs.pure ⟨⟩ := if_pos hc
  rw [this]
  exact hf

end Obs

/-! ### Writers -/

namespace Prog

variable {σ : Type u} {ε : Type v} {α β : Type w} {T T' : σ → σ → Prop} {s s' s'' : σ}
  {tr tr' : List σ}

/-- The states `tr` lead from `s` to `s'`, each related by `T` to the one before. -/
inductive Passes (T : σ → σ → Prop) : σ → List σ → σ → Prop
  | nil (s : σ) : Passes T s [] s
  | cons {s s₁ s' : σ} {tr : List σ} (h : T s s₁) (hr : Passes T s₁ tr s') :
      Passes T s (s₁ :: tr) s'

theorem Passes.append (h : Passes T s tr s') (h' : Passes T s' tr' s'') :
    Passes T s (tr ++ tr') s'' := by
  induction h with
  | nil => exact h'
  | cons h _ ih => exact .cons h (ih h')

/-- The first states of a path are a path. -/
theorem Passes.left (h : Passes T s (tr ++ tr') s'') : ∃ s', Passes T s tr s' := by
  induction tr generalizing s with
  | nil => exact ⟨s, .nil s⟩
  | cons a tr ih =>
    cases h with
    | cons h hr =>
      obtain ⟨s', hs'⟩ := ih hr
      exact ⟨s', .cons h hs'⟩

theorem Passes.last (h : Passes T s tr s') : s' = tr.getLastD s := by
  induction h with
  | nil => rfl
  | cons _ _ ih => rw [List.getLastD_cons]; exact ih

/-- Along a path every state is related to all those after it. -/
theorem Passes.pairwise (h : Passes T s tr s') (ht : ∀ a b c, T a b → T b c → T a c) :
    (s :: tr).Pairwise T := by
  induction h with
  | nil => exact List.pairwise_singleton _ _
  | cons h _ ih =>
    refine List.pairwise_cons.2 ⟨fun b hb => ?_, ih⟩
    rcases List.mem_cons.1 hb with rfl | hb
    · exact h
    · exact ht _ _ _ h ((List.pairwise_cons.1 ih).1 b hb)

/-- Every durable state of the run from `s` is related by `T` to the one before it. -/
def Along (T : σ → σ → Prop) (s : σ) (x : Prog σ ε α) : Prop :=
  Passes T s (x s).trace (x s).final

theorem Along.pure {a : α} : Along T s (Pure.pure a : Prog σ ε α) := .nil s

theorem Along.fail {e : ε} : Along T s (fail e : Prog σ ε α) := .nil s

theorem Along.bind {x : Prog σ ε α} {f : α → Prog σ ε β} (hx : Along T s x)
    (hf : ∀ a s', x.Completes s a s' → Along T s' (f a)) : Along T s (x >>= f) := by
  change Along T s (Prog.bind x f)
  have hf' : ∀ a, (x s).result = .ok a → Along T (x s).final (f a) := fun a ha => hf a _ ⟨ha, rfl⟩
  unfold Along Prog.bind at *
  rcases hr : x s with ⟨tr, s', r⟩
  rw [hr] at hx hf'
  cases r with
  | error e => exact hx
  | ok a => exact hx.append (hf' a rfl)

theorem Along.step {f : σ → Except ε (α × σ)} (hf : ∀ a s', f s = .ok (a, s') → T s s') :
    Along T s (step f) := by
  unfold Along Prog.step
  cases hs : f s with
  | error e => exact .nil s
  | ok p => exact .cons (hf p.1 p.2 hs) (.nil p.2)

theorem Along.ensure_bind {c : Prop} [Decidable c] {e : ε} {f : PUnit → Prog σ ε β}
    (hf : c → Along T s (f ⟨⟩)) : Along T s (Prog.ensure c e >>= f) := by
  by_cases hc : c
  · have : (Prog.ensure c e : Prog σ ε PUnit) = Prog.pure ⟨⟩ := if_pos hc
    rw [this]
    exact hf hc
  · have : (Prog.ensure c e : Prog σ ε PUnit) = Prog.fail e := if_neg hc
    rw [this]
    exact .nil s

theorem Along.reading_bind {x : Obs σ ε α} {P : α → Prop} {f : α → Prog σ ε β}
    (hx : Obs.Returns s x P) (hf : ∀ a, P a → Along T s (f a)) :
    Along T s (Prog.reading x >>= f) := by
  obtain ⟨a, ha, hp⟩ := hx.eval
  refine Along.bind (Passes.nil s) fun b s' hc => ?_
  obtain ⟨hr, rfl⟩ := hc
  obtain rfl : a = b := Except.ok.inj (ha.symm.trans hr)
  exact hf a hp

/-- A state that a run was cut off in is related to the first. -/
theorem Along.crash {x : Prog σ ε α} (h : Along T s x) (hr : ∀ a, T a a)
    (ht : ∀ a b c, T a b → T b c → T a c) (hc : x.Crash s s') : T s s' := by
  rcases hc with rfl | hc
  · exact hr _
  · exact (List.pairwise_cons.1 (h.pairwise ht)).1 s' hc

/-- The last state of a run is related to the first. -/
theorem Along.final {x : Prog σ ε α} (h : Along T s x) (hr : ∀ a, T a a)
    (ht : ∀ a b c, T a b → T b c → T a c) : T s (x s).final := by
  refine h.crash hr ht ?_
  rw [Passes.last h]
  exact List.mem_cons.1 List.getLastD_mem_cons

/-! ### Writers with a specification -/

/-- Total correctness with crash states, where moreover `T` holds along the run. -/
structure SpecAlong (E : ε → Prop) (C : σ → Prop) (T : σ → σ → Prop) (s : σ) (x : Prog σ ε α)
    (Q : α → σ → Prop) : Prop where
  spec : Spec E C s x Q
  along : Along T s x

variable {E : ε → Prop} {C : σ → Prop} {Q : α → σ → Prop} {R : β → σ → Prop}

theorem SpecAlong.pure {a : α} (h : Q a s) : SpecAlong E C T s (Pure.pure a : Prog σ ε α) Q :=
  ⟨Spec.pure h, .pure⟩

theorem SpecAlong.fail {e : ε} (h : E e) : SpecAlong E C T s (fail e : Prog σ ε α) Q :=
  ⟨⟨fun _ hs => absurd hs List.not_mem_nil, h⟩, .fail⟩

theorem SpecAlong.bind {x : Prog σ ε α} {f : α → Prog σ ε β} (hx : SpecAlong E C T s x Q)
    (hf : ∀ a s', Q a s' → SpecAlong E C T s' (f a) R) : SpecAlong E C T s (x >>= f) R :=
  ⟨hx.spec.bind fun a s' h => (hf a s' h).spec,
    hx.along.bind fun a s' h => (hf a s' (hx.spec.completes h)).along⟩

theorem SpecAlong.mono {x : Prog σ ε α} {C' : σ → Prop} {Q' : α → σ → Prop}
    (hx : SpecAlong E C T s x Q) (hC : ∀ s', C s' → C' s') (hQ : ∀ a s', Q a s' → Q' a s') :
    SpecAlong E C' T s x Q' := ⟨hx.spec.mono hC hQ, hx.along⟩

theorem SpecAlong.post {x : Prog σ ε α} {Q' : α → σ → Prop} (hx : SpecAlong E C T s x Q)
    (hQ : ∀ a s', Q a s' → Q' a s') : SpecAlong E C T s x Q' := hx.mono (fun _ => id) hQ

theorem SpecAlong.ofExcept_bind {x : Except ε α} {a : α} {f : α → Prog σ ε β} (hx : x = .ok a)
    (hf : SpecAlong E C T s (f a) R) : SpecAlong E C T s (Prog.ofExcept x >>= f) R := by
  subst hx; exact hf

theorem SpecAlong.ensure_bind {c : Prop} [Decidable c] {e : ε} {f : PUnit → Prog σ ε β} (h : c)
    (hf : SpecAlong E C T s (f ⟨⟩) R) : SpecAlong E C T s (Prog.ensure c e >>= f) R :=
  ⟨Spec.ensure_bind h hf.spec, .ensure_bind fun _ => hf.along⟩

theorem SpecAlong.reading_bind {x : Obs σ ε α} {P : α → Prop} {f : α → Prog σ ε β}
    (hx : Obs.Returns s x P) (hf : ∀ a, P a → SpecAlong E C T s (f a) R) :
    SpecAlong E C T s (Prog.reading x >>= f) R :=
  ⟨Spec.reading_bind hx fun a ha => (hf a ha).spec, .reading_bind hx fun a ha => (hf a ha).along⟩

theorem SpecAlong.step {f : σ → Except ε (α × σ)}
    (h : match f s with | .ok (a, s') => T s s' ∧ C s' ∧ Q a s' | .error e => E e) :
    SpecAlong E C T s (step f) Q := by
  refine ⟨Spec.step ?_, .step fun a s' hf => ?_⟩
  · revert h
    cases f s with
    | error e => exact id
    | ok p => exact fun h => h.2
  · rw [hf] at h
    exact h.1

end Prog

end PinCore
