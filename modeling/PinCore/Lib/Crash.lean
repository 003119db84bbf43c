import Mathlib.Order.Basic
import PinCore.Lib.Except

/-!
# Programs over durable state that may be cut off

A program reads and writes a durable state.  Two kinds of program are distinguished.

* `Obs σ ε α` only observes.  Every observation happens at its own moment: the state is a
  history `h : ℕ → σ`, an observation at time `t` sees `h t` and moves the clock on.  A store
  that does not change underneath is the constant history.
* `Prog σ ε α` is the single writer.  Besides its result it records every durable state it
  passed through, so that the states in which a crash can leave the store are exactly the
  members of that trace.

`Obs.Returns` and `Prog.Spec` are the rules of total correctness for the two.  `Prog.Spec`
also carries a predicate that every durable state on the way must satisfy, and a set of errors
which the environment may cause.
-/

namespace PinCore

universe u v w

/-! ### Observing programs -/

/-- A program that observes a history of states, starting at some moment. -/
def Obs (σ : Type u) (ε : Type v) (α : Type w) : Type (max u v w) :=
  (ℕ → σ) → ℕ → Except ε (α × ℕ)

namespace Obs

variable {σ : Type u} {ε : Type v} {α β γ : Type w}

/-- Return a value without observing. -/
protected def pure (a : α) : Obs σ ε α := fun _ t => .ok (a, t)

/-- Sequential composition; an error ends the program. -/
protected def bind (x : Obs σ ε α) (f : α → Obs σ ε β) : Obs σ ε β := fun h t =>
  match x h t with
  | .error e => .error e
  | .ok (a, t') => f a h t'

instance : Monad (Obs σ ε) where
  pure := Obs.pure
  bind := Obs.bind

/-- Stop with an error. -/
def fail (e : ε) : Obs σ ε α := fun _ _ => .error e

/-- One observation of the state at the current moment. -/
def observe (f : σ → α) : Obs σ ε α := fun h t => .ok (f (h t), t + 1)

/-- A pure computation that may fail. -/
def ofExcept : Except ε α → Obs σ ε α
  | .ok a => Obs.pure a
  | .error e => fail e

/-- Continue only if `c` holds. -/
def ensure (c : Prop) [Decidable c] (e : ε) : Obs σ ε PUnit :=
  if c then Obs.pure ⟨⟩ else fail e

/-- The result on a state that does not change. -/
def eval (x : Obs σ ε α) (s : σ) : Except ε α := (x (fun _ => s) 0).map Prod.fst

/-- On the unchanging state `s` the program returns a value satisfying `Q`, the same one at every
moment. -/
def Returns (s : σ) (x : Obs σ ε α) (Q : α → Prop) : Prop :=
  ∃ a, Q a ∧ ∀ t, ∃ t', x (fun _ => s) t = .ok (a, t')

variable {s : σ} {Q : α → Prop} {R : β → Prop}

theorem Returns.pure {a : α} (h : Q a) : Returns s (Pure.pure a : Obs σ ε α) Q :=
  ⟨a, h, fun t => ⟨t, rfl⟩⟩

theorem Returns.bind {x : Obs σ ε α} {f : α → Obs σ ε β} (hx : Returns s x Q)
    (hf : ∀ a, Q a → Returns s (f a) R) : Returns s (x >>= f) R := by
  obtain ⟨a, ha, hxa⟩ := hx
  obtain ⟨b, hb, hfb⟩ := hf a ha
  refine ⟨b, hb, fun t => ?_⟩
  obtain ⟨t', hxa⟩ := hxa t
  obtain ⟨t'', hfb⟩ := hfb t'
  refine ⟨t'', ?_⟩
  change Obs.bind x f _ _ = _
  simp only [Obs.bind, hxa, hfb]

theorem Returns.mono {x : Obs σ ε α} {Q' : α → Prop} (hx : Returns s x Q)
    (h : ∀ a, Q a → Q' a) : Returns s x Q' :=
  let ⟨a, ha, e⟩ := hx
  ⟨a, h a ha, e⟩

theorem Returns.observe {f : σ → α} (h : Q (f s)) : Returns s (observe f : Obs σ ε α) Q :=
  ⟨f s, h, fun t => ⟨t + 1, rfl⟩⟩

theorem Returns.ofExcept {x : Except ε α} {a : α} (hx : x = .ok a) (h : Q a) :
    Returns s (ofExcept x : Obs σ ε α) Q := by
  subst hx; exact ⟨a, h, fun t => ⟨t, rfl⟩⟩

theorem Returns.ensure {c : Prop} [Decidable c] {e : ε} (h : c) :
    Returns s (ensure c e : Obs σ ε PUnit) fun _ => True :=
  ⟨⟨⟩, trivial, fun t => ⟨t, by simp only [Obs.ensure, if_pos h]; rfl⟩⟩

/-- Continue with the value of a pure computation that succeeds. -/
theorem Returns.ofExcept_bind {x : Except ε α} {a : α} {f : α → Obs σ ε β} (hx : x = .ok a)
    (hf : Returns s (f a) R) : Returns s (Obs.ofExcept x >>= f) R := by
  subst hx; exact hf

theorem Returns.ensure_bind {c : Prop} [Decidable c] {e : ε} {f : PUnit → Obs σ ε β} (h : c)
    (hf : Returns s (f ⟨⟩) R) : Returns s (Obs.ensure c e >>= f) R := by
  refine Returns.bind (Q := fun _ => True) (Returns.ensure h) fun _ _ => hf

theorem Returns.eval {x : Obs σ ε α} (hx : Returns s x Q) :
    ∃ a, x.eval s = .ok a ∧ Q a := by
  obtain ⟨a, ha, e⟩ := hx
  obtain ⟨t', e⟩ := e 0
  exact ⟨a, by simp only [Obs.eval, e]; rfl, ha⟩

/-- Whatever the program returns on the unchanging state `s` satisfies `Q`; it may fail. -/
def Yields (s : σ) (x : Obs σ ε α) (Q : α → Prop) : Prop :=
  ∀ t a t', x (fun _ => s) t = .ok (a, t') → Q a

theorem Returns.yields {x : Obs σ ε α} (hx : Returns s x Q) : Yields s x Q := by
  intro t a t' h
  obtain ⟨b, hb, e⟩ := hx
  obtain ⟨t'', e⟩ := e t
  rw [e] at h
  cases h
  exact hb

theorem Yields.ofExcept {x : Except ε α} (h : ∀ a, x = .ok a → Q a) :
    Yields s (ofExcept x : Obs σ ε α) Q := by
  intro t a t' hx
  cases x with
  | error e => cases hx
  | ok b => cases hx; exact h a rfl

/-- Continue after a program that returns. -/
theorem Returns.bind_yields {x : Obs σ ε α} {f : α → Obs σ ε β} (hx : Returns s x Q)
    (hf : ∀ a, Q a → Yields s (f a) R) : Yields s (x >>= f) R := by
  obtain ⟨a, ha, e⟩ := hx
  intro t b t' h
  obtain ⟨t'', e⟩ := e t
  change Obs.bind x f _ _ = _ at h
  simp only [Obs.bind, e] at h
  exact hf a ha t'' b t' h

theorem Yields.ofExcept_bind {x : Except ε α} {f : α → Obs σ ε β}
    (hf : ∀ a, x = .ok a → Yields s (f a) R) : Yields s (Obs.ofExcept x >>= f) R := by
  cases x with
  | error e => exact fun t b t' h => nomatch h
  | ok a => exact hf a rfl

theorem Yields.ensure_bind {c : Prop} [Decidable c] {e : ε} {f : PUnit → Obs σ ε β}
    (hf : c → Yields s (f ⟨⟩) R) : Yields s (Obs.ensure c e >>= f) R := by
  by_cases hc : c
  · exact (Returns.ensure hc).bind_yields fun _ _ => hf hc
  · intro t b t' h
    have : (Obs.ensure c e : Obs σ ε PUnit) = Obs.fail e := if_neg hc
    rw [this] at h
    cases h

theorem Yields.eval {x : Obs σ ε α} (hx : Yields s x Q) {a : α} (h : x.eval s = .ok a) : Q a := by
  unfold Obs.eval at h
  cases hr : x (fun _ => s) 0 with
  | error e => rw [hr] at h; cases h
  | ok r =>
    rw [hr] at h
    cases h
    exact hx 0 r.1 r.2 hr

end Obs

/-! ### Writing programs -/

/-- What a run of a writer leaves behind. -/
structure Outcome (σ : Type u) (ε : Type v) (α : Type w) where
  /-- The durable states passed through, oldest first. -/
  trace : List σ
  /-- The durable state at the end of the run. -/
  final : σ
  /-- The value returned, or the error. -/
  result : Except ε α

/-- A writer of durable state. -/
def Prog (σ : Type u) (ε : Type v) (α : Type w) : Type (max u v w) := σ → Outcome σ ε α

namespace Prog

variable {σ : Type u} {ε : Type v} {α β γ : Type w}

/-- Return a value without touching the state. -/
protected def pure (a : α) : Prog σ ε α := fun s => ⟨[], s, .ok a⟩

/-- Sequential composition; an error ends the program and keeps what is durable. -/
protected def bind (x : Prog σ ε α) (f : α → Prog σ ε β) : Prog σ ε β := fun s =>
  match x s with
  | ⟨tr, s', .error e⟩ => ⟨tr, s', .error e⟩
  | ⟨tr, s', .ok a⟩ =>
    let o := f a s'
    ⟨tr ++ o.trace, o.final, o.result⟩

instance : Monad (Prog σ ε) where
  pure := Prog.pure
  bind := Prog.bind

/-- Stop with an error. -/
def fail (e : ε) : Prog σ ε α := fun s => ⟨[], s, .error e⟩

/-- A pure computation that may fail. -/
def ofExcept : Except ε α → Prog σ ε α
  | .ok a => Prog.pure a
  | .error e => fail e

/-- Continue only if `c` holds. -/
def ensure (c : Prop) [Decidable c] (e : ε) : Prog σ ε PUnit :=
  if c then Prog.pure ⟨⟩ else fail e

/-- Run an observing program; the writer excludes every other writer meanwhile. -/
def reading (x : Obs σ ε α) : Prog σ ε α := fun s => ⟨[], s, x.eval s⟩

/-- One atomic durable step, which the environment may refuse. -/
def step (f : σ → Except ε (α × σ)) : Prog σ ε α := fun s =>
  match f s with
  | .ok (a, s') => ⟨[s'], s', .ok a⟩
  | .error e => ⟨[], s, .error e⟩

/-- The states in which a run from `s` can be cut off. -/
def Crash (x : Prog σ ε α) (s s' : σ) : Prop := s' = s ∨ s' ∈ (x s).trace

/-- The run from `s` ends with the value `a` in the state `s'`. -/
def Completes (x : Prog σ ε α) (s : σ) (a : α) (s' : σ) : Prop :=
  (x s).result = .ok a ∧ (x s).final = s'

/-- Total correctness with crash states: run from `s`, every durable state satisfies `C`, and
the program returns a value and a state satisfying `Q` unless it stops with an error in `E`. -/
def Spec (E : ε → Prop) (C : σ → Prop) (s : σ) (x : Prog σ ε α) (Q : α → σ → Prop) : Prop :=
  (∀ s' ∈ (x s).trace, C s') ∧
    match (x s).result with
    | .ok a => Q a (x s).final
    | .error e => E e

variable {E : ε → Prop} {C : σ → Prop} {s : σ} {Q : α → σ → Prop} {R : β → σ → Prop}

theorem Spec.pure {a : α} (h : Q a s) : Spec E C s (Pure.pure a : Prog σ ε α) Q :=
  ⟨fun _ hs => absurd hs List.not_mem_nil, h⟩

theorem Spec.bind {x : Prog σ ε α} {f : α → Prog σ ε β} (hx : Spec E C s x Q)
    (hf : ∀ a s', Q a s' → Spec E C s' (f a) R) : Spec E C s (x >>= f) R := by
  change Spec E C s (Prog.bind x f) R
  obtain ⟨hC, hres⟩ := hx
  unfold Spec Prog.bind
  rcases hr : x s with ⟨tr, s', r⟩
  rw [hr] at hC hres
  cases r with
  | error e => exact ⟨hC, hres⟩
  | ok a =>
    obtain ⟨hC', hres'⟩ := hf a s' hres
    refine ⟨fun s'' hs => ?_, hres'⟩
    rcases List.mem_append.1 hs with h | h
    · exact hC s'' h
    · exact hC' s'' h

theorem Spec.mono {x : Prog σ ε α} {Q' : α → σ → Prop} {C' : σ → Prop}
    (hx : Spec E C s x Q) (hC : ∀ s', C s' → C' s') (hQ : ∀ a s', Q a s' → Q' a s') :
    Spec E C' s x Q' := by
  refine ⟨fun s' hs => hC s' (hx.1 s' hs), ?_⟩
  have := hx.2
  revert this
  cases (x s).result with
  | ok a => exact hQ a _
  | error e => exact id

theorem Spec.post {x : Prog σ ε α} {Q' : α → σ → Prop} (hx : Spec E C s x Q)
    (hQ : ∀ a s', Q a s' → Q' a s') : Spec E C s x Q' :=
  hx.mono (fun _ => id) hQ

theorem Spec.weaken {x : Prog σ ε α} {E' : ε → Prop} (hx : Spec E C s x Q)
    (hE : ∀ e, E e → E' e) : Spec E' C s x Q := by
  refine ⟨hx.1, ?_⟩
  have := hx.2
  revert this
  cases (x s).result with
  | ok a => exact id
  | error e => exact hE e

theorem Spec.reading {x : Obs σ ε α} {P : α → Prop} (hx : Obs.Returns s x P) :
    Spec E C s (reading x) fun a s' => s' = s ∧ P a := by
  obtain ⟨a, e, ha⟩ := hx.eval
  refine ⟨fun _ hs => absurd hs List.not_mem_nil, ?_⟩
  change match x.eval s with
    | .ok a => s = s ∧ P a
    | .error e => E e
  rw [e]
  exact ⟨rfl, ha⟩

theorem Spec.ensure {c : Prop} [Decidable c] {e : ε} (h : c) :
    Spec E C s (ensure c e : Prog σ ε PUnit) fun _ s' => s' = s := by
  simp only [Prog.ensure, if_pos h]; exact Spec.pure rfl

theorem Spec.ofExcept_bind {x : Except ε α} {a : α} {f : α → Prog σ ε β} (hx : x = .ok a)
    (hf : Spec E C s (f a) R) : Spec E C s (Prog.ofExcept x >>= f) R := by
  subst hx; exact hf

theorem Spec.ensure_bind {c : Prop} [Decidable c] {e : ε} {f : PUnit → Prog σ ε β} (h : c)
    (hf : Spec E C s (f ⟨⟩) R) : Spec E C s (Prog.ensure c e >>= f) R := by
  refine (Spec.ensure h).bind fun _ s' hs => ?_
  subst hs; exact hf

theorem Spec.reading_bind {x : Obs σ ε α} {P : α → Prop} {f : α → Prog σ ε β}
    (hx : Obs.Returns s x P) (hf : ∀ a, P a → Spec E C s (f a) R) :
    Spec E C s (Prog.reading x >>= f) R := by
  refine (Spec.reading hx).bind ?_
  rintro a s' ⟨rfl, ha⟩
  exact hf a ha

theorem Spec.fail {e : ε} (h : E e) : Spec E C s (fail e : Prog σ ε α) Q :=
  ⟨fun _ hs => absurd hs List.not_mem_nil, h⟩

/-- A check that may fail, where its error is allowed. -/
theorem Spec.guard_bind {c : Prop} [Decidable c] {e : ε} {f : PUnit → Prog σ ε β} (hE : ¬ c → E e)
    (hf : c → Spec E C s (f ⟨⟩) R) : Spec E C s (Prog.ensure c e >>= f) R := by
  by_cases h : c
  · exact Spec.ensure_bind h (hf h)
  · have hfail : (Prog.ensure c e : Prog σ ε PUnit) = Prog.fail e := if_neg h
    rw [hfail]
    exact ⟨fun _ hs => absurd hs List.not_mem_nil, hE h⟩

/-- A computation that may fail, where its errors are allowed. -/
theorem Spec.attempt_bind {x : Except ε α} {f : α → Prog σ ε β} (hE : ∀ e, x = .error e → E e)
    (hf : ∀ a, x = .ok a → Spec E C s (f a) R) : Spec E C s (Prog.ofExcept x >>= f) R := by
  cases hx : x with
  | ok a => exact hf a hx
  | error e => exact ⟨fun _ hs => absurd hs List.not_mem_nil, hE e hx⟩

/-- Two alternatives before the rest of a program. -/
theorem Spec.ite_bind {c : Prop} [Decidable c] {x y : Prog σ ε α} {f : α → Prog σ ε β}
    (hx : Spec E C s (if c then x else y) Q) (hf : ∀ a s', Q a s' → Spec E C s' (f a) R) :
    Spec E C s (if c then x >>= f else y >>= f) R := by
  split_ifs with hc
  · rw [if_pos hc] at hx; exact hx.bind hf
  · rw [if_neg hc] at hx; exact hx.bind hf

/-- A conditional step before the rest of a program. -/
theorem Spec.when_bind {c : Prop} [Decidable c] {x : Prog σ ε PUnit} {f : PUnit → Prog σ ε β}
    {P : PUnit → σ → Prop} (hx : Spec E C s (if c then x else Pure.pure ⟨⟩) P)
    (hf : ∀ a s', P a s' → Spec E C s' (f a) R) :
    Spec E C s (if c then x >>= f else f ⟨⟩) R := by
  by_cases hc : c
  · rw [if_pos hc] at hx ⊢
    exact hx.bind hf
  · rw [if_neg hc] at hx ⊢
    exact hf ⟨⟩ s hx.2

theorem Spec.step {f : σ → Except ε (α × σ)}
    (h : match f s with | .ok (a, s') => C s' ∧ Q a s' | .error e => E e) :
    Spec E C s (step f) Q := by
  unfold Spec Prog.step
  cases hf : f s with
  | error e =>
    rw [hf] at h
    exact ⟨fun _ hs => absurd hs List.not_mem_nil, h⟩
  | ok p =>
    rw [hf] at h
    exact ⟨fun s' hs => (List.mem_singleton.1 hs) ▸ h.1, h.2⟩

/-- Every state a run can be cut off in satisfies what holds at the start and on the way. -/
theorem Spec.crash {x : Prog σ ε α} (hx : Spec E C s x Q) (h₀ : C s) {s' : σ}
    (hs : x.Crash s s') : C s' := by
  rcases hs with rfl | hs
  · exact h₀
  · exact hx.1 s' hs

theorem Spec.completes {x : Prog σ ε α} {a : α} {s' : σ} (hx : Spec E C s x Q)
    (hc : x.Completes s a s') : Q a s' := by
  obtain ⟨hr, rfl⟩ := hc
  have := hx.2
  rwa [hr] at this

theorem completes_of_isOk {x : Prog σ ε α} (h : (x s).result.isOk = true) :
    ∃ a, x.Completes s a (x s).final := by
  unfold Completes
  cases hr : (x s).result with
  | error e => rw [hr] at h; cases h
  | ok a => exact ⟨a, rfl, rfl⟩

theorem completes_of_result {x : Prog σ ε α} {a : α} (h : (x s).result = .ok a) :
    x.Completes s a (x s).final :=
  ⟨h, rfl⟩

/-- A program whose errors are all excluded returns. -/
theorem Spec.exists_completes {x : Prog σ ε α} (hx : Spec E C s x Q)
    (hE : ∀ e, (x s).result = .error e → ¬ E e) : ∃ a s', x.Completes s a s' ∧ Q a s' := by
  have h := hx.2
  cases hr : (x s).result with
  | error e =>
    rw [hr] at h
    exact absurd h (hE e hr)
  | ok a =>
    rw [hr] at h
    exact ⟨a, _, ⟨hr, rfl⟩, h⟩

theorem Completes.bind {x : Prog σ ε α} {f : α → Prog σ ε β} {a : α} {b : β} {s₁ s₂ : σ}
    (hx : x.Completes s a s₁) (hf : (f a).Completes s₁ b s₂) : (x >>= f).Completes s b s₂ := by
  obtain ⟨hr, rfl⟩ := hx
  obtain ⟨hr', rfl⟩ := hf
  change (Prog.bind x f s).result = _ ∧ (Prog.bind x f s).final = _
  unfold Prog.bind
  rcases hxs : x s with ⟨tr, s₁, r⟩
  rw [hxs] at hr hr'
  obtain rfl : r = .ok a := hr
  exact ⟨hr', rfl⟩

/-- A sequence that returned is its two parts, each of which returned. -/
theorem Completes.of_bind {x : Prog σ ε α} {f : α → Prog σ ε β} {b : β} {s₂ : σ}
    (h : (x >>= f).Completes s b s₂) :
    ∃ a s₁, x.Completes s a s₁ ∧ (f a).Completes s₁ b s₂ := by
  change (Prog.bind x f s).result = _ ∧ (Prog.bind x f s).final = _ at h
  unfold Prog.bind at h
  rcases hr : x s with ⟨tr, s₁, r⟩
  rw [hr] at h
  cases r with
  | error e => cases h.1
  | ok a => exact ⟨a, s₁, ⟨by rw [hr], by rw [hr]⟩, h⟩

/-- A durable state of a sequence belongs to its first part, or to its second part after the
first returned. -/
theorem mem_trace_bind {x : Prog σ ε α} {f : α → Prog σ ε β} {c : σ}
    (h : c ∈ ((x >>= f) s).trace) :
    c ∈ (x s).trace ∨ ∃ a s₁, x.Completes s a s₁ ∧ c ∈ (f a s₁).trace := by
  change c ∈ (Prog.bind x f s).trace at h
  unfold Prog.bind at h
  rcases hr : x s with ⟨tr, s₁, r⟩
  rw [hr] at h
  cases r with
  | error e => exact .inl h
  | ok a =>
    rcases List.mem_append.1 h with h | h
    · exact .inl h
    · exact .inr ⟨a, s₁, ⟨by rw [hr], by rw [hr]⟩, h⟩

theorem mem_trace_step {f : σ → Except ε (α × σ)} {c : σ} (h : c ∈ (Prog.step f s).trace) :
    ∃ a, (Prog.step f).Completes s a c := by
  unfold Completes
  unfold Prog.step at h ⊢
  cases hf : f s with
  | error e => rw [hf] at h; exact absurd h List.not_mem_nil
  | ok p =>
    rw [hf] at h
    exact ⟨p.1, rfl, (List.mem_singleton.1 h).symm⟩

/-- A sequence that only reads first has no durable state before its second part. -/
theorem mem_trace_reading_bind {x : Obs σ ε α} {f : α → Prog σ ε β} {c : σ}
    (h : c ∈ ((Prog.reading x >>= f) s).trace) :
    ∃ a, (Prog.reading x).Completes s a s ∧ c ∈ (f a s).trace := by
  rcases mem_trace_bind h with h | ⟨a, s₁, hc, h⟩
  · exact absurd h List.not_mem_nil
  · obtain rfl : s = s₁ := hc.2
    exact ⟨a, hc, h⟩

theorem mem_trace_ofExcept_bind {x : Except ε α} {f : α → Prog σ ε β} {c : σ}
    (h : c ∈ ((Prog.ofExcept x >>= f) s).trace) :
    ∃ a, (Prog.ofExcept x).Completes s a s ∧ c ∈ (f a s).trace := by
  rcases mem_trace_bind h with h | ⟨a, s₁, hc, h⟩
  · cases x <;> exact absurd h List.not_mem_nil
  · obtain rfl : s = s₁ := by
      cases x <;> exact hc.2
    exact ⟨a, hc, h⟩

end Prog

end PinCore
