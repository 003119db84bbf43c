import PinCore.Lib.Except

/-!
# Readers with a cursor

A reading program takes a cursor and returns a value or an error together with the cursor it leaves
behind; a failed program leaves the cursor where it stopped.  `Read.Cut` relates a program to its
run on a shorter input: it gives the same value, or fails for want of input.
-/

namespace PinCore

universe u

/-- A program that moves a cursor and returns a value or an error. -/
def Read (ρ ε α : Type u) : Type u := ρ → Except ε α × ρ

namespace Read

variable {ρ ε α β : Type u}

/-- Return a value without reading. -/
protected def pure (a : α) : Read ρ ε α := fun r => (.ok a, r)

/-- Sequential composition; an error ends the program. -/
protected def bind (x : Read ρ ε α) (f : α → Read ρ ε β) : Read ρ ε β := fun r =>
  match x r with
  | (.ok a, r') => f a r'
  | (.error e, r') => (.error e, r')

instance : Monad (Read ρ ε) where
  pure := Read.pure
  bind := Read.bind

/-- Stop with an error. -/
def fail (e : ε) : Read ρ ε α := fun r => (.error e, r)

/-- A pure computation that may fail. -/
def ofExcept (x : Except ε α) : Read ρ ε α := fun r => (x, r)

/-- The cursor itself. -/
def cursor : Read ρ ε ρ := fun r => (.ok r, r)

/-- Continue only if `c` holds. -/
def ensure (c : Prop) [Decidable c] (e : ε) : Read ρ ε PUnit :=
  if c then Read.pure ⟨⟩ else fail e

variable {x : Read ρ ε α} {f : α → Read ρ ε β} {r r' r'' : ρ} {a : α} {b : β} {e : ε}

theorem ok_bind (h : x r = (.ok a, r')) : (x >>= f) r = f a r' := by
  change Read.bind x f r = _
  simp only [Read.bind, h]

theorem error_bind (h : x r = (.error e, r')) : (x >>= f) r = (.error e, r') := by
  change Read.bind x f r = _
  simp only [Read.bind, h]

theorem of_bind (h : (x >>= f) r = (.ok b, r'')) :
    ∃ a r', x r = (.ok a, r') ∧ f a r' = (.ok b, r'') := by
  change Read.bind x f r = _ at h
  unfold Read.bind at h
  rcases hx : x r with ⟨_ | a, r'⟩
  · rw [hx] at h
    cases h
  · rw [hx] at h
    exact ⟨a, r', rfl, h⟩

@[simp] theorem pure_eq : (Pure.pure a : Read ρ ε α) r = (.ok a, r) := rfl

theorem cursor_bind {f : ρ → Read ρ ε β} : ((cursor : Read ρ ε ρ) >>= f) r = f r r := rfl

theorem ensure_bind {c : Prop} [Decidable c] {f : PUnit → Read ρ ε β} (hc : c) :
    (ensure c e >>= f) r = f ⟨⟩ r := by
  have : (ensure c e : Read ρ ε PUnit) = Read.pure ⟨⟩ := if_pos hc
  rw [this]
  rfl

theorem not_ensure_bind {c : Prop} [Decidable c] {f : PUnit → Read ρ ε β} (hc : ¬ c) :
    (ensure c e >>= f) r = (.error e, r) := by
  have : (ensure c e : Read ρ ε PUnit) = fail e := if_neg hc
  rw [this]
  rfl

theorem of_ensure_bind {c : Prop} [Decidable c] {f : PUnit → Read ρ ε β}
    (h : (ensure c e >>= f) r = (.ok b, r'')) : c ∧ f ⟨⟩ r = (.ok b, r'') := by
  by_cases hc : c
  · exact ⟨hc, by rwa [ensure_bind hc] at h⟩
  · have : (ensure c e : Read ρ ε PUnit) = fail e := if_neg hc
    rw [this] at h
    cases h

theorem ofExcept_bind {y : Except ε α} (hy : y = .ok a) :
    ((ofExcept y : Read ρ ε α) >>= f) r = f a r := by
  subst hy
  rfl

theorem of_ofExcept_bind {y : Except ε α}
    (h : ((ofExcept y : Read ρ ε α) >>= f) r = (.ok b, r'')) :
    ∃ a, y = .ok a ∧ f a r = (.ok b, r'') := by
  cases y with
  | error e => cases h
  | ok a => exact ⟨a, rfl, h⟩

/-! ### Errors -/

/-- Every error of the program is in `E`. -/
def Errors (E : ε → Prop) (x : Read ρ ε α) : Prop := ∀ r e r', x r = (.error e, r') → E e

section

variable {E : ε → Prop}

theorem Errors.pure : Errors E (Pure.pure a : Read ρ ε α) := nofun

theorem Errors.fail (h : E e) : Errors E (fail e : Read ρ ε α) := by
  intro r e' r' hr
  cases hr
  exact h

theorem Errors.bind (hx : Errors E x) (hf : ∀ a, Errors E (f a)) : Errors E (x >>= f) := by
  intro r e r' h
  rcases hxr : x r with ⟨e' | a, r₁⟩
  · rw [error_bind hxr] at h
    cases h
    exact hx r _ _ hxr
  · rw [ok_bind hxr] at h
    exact hf a r₁ e r' h

theorem Errors.ensure {c : Prop} [Decidable c] (h : E e) :
    Errors E (ensure c e : Read ρ ε PUnit) := by
  unfold Read.ensure
  split_ifs
  · exact Errors.pure
  · exact Errors.fail h

end

/-! ### Shorter inputs -/

/-- If the program returns from `r`, then from a cursor `r₀` related to `r` by `S` it returns the
same, again at a related cursor, or it fails with an error in `E`. -/
def Cut (S : ρ → ρ → Prop) (E : ε → Prop) (x : Read ρ ε α) : Prop :=
  ∀ r₀ r a r', S r₀ r → x r = (.ok a, r') →
    (∃ r₀', S r₀' r' ∧ x r₀ = (.ok a, r₀')) ∨ ∃ e r₀', E e ∧ x r₀ = (.error e, r₀')

variable {S : ρ → ρ → Prop} {E : ε → Prop}

theorem Cut.pure : Cut S E (Pure.pure a : Read ρ ε α) := by
  rintro r₀ r _ _ hs h
  cases h
  exact .inl ⟨r₀, hs, rfl⟩

theorem Cut.fail : Cut S E (fail e : Read ρ ε α) := by
  rintro r₀ r _ _ hs h
  cases h

theorem Cut.bind (hx : Cut S E x) (hf : ∀ a, Cut S E (f a)) : Cut S E (x >>= f) := by
  intro r₀ r b r'' hs h
  obtain ⟨a, r', hxr, hfr⟩ := of_bind h
  rcases hx r₀ r a r' hs hxr with ⟨r₀', hs', hx₀⟩ | ⟨e, r₀', he, hx₀⟩
  · rw [ok_bind hx₀]
    exact hf a r₀' r' b r'' hs' hfr
  · exact .inr ⟨e, r₀', he, error_bind hx₀⟩

theorem Cut.ensure {c : Prop} [Decidable c] : Cut S E (ensure c e : Read ρ ε PUnit) := by
  unfold Read.ensure
  split_ifs
  · exact Cut.pure
  · exact Cut.fail

end Read

end PinCore
