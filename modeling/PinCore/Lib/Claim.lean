import Mathlib.Logic.Function.Basic
import Mathlib.Logic.Relation
import Mathlib.Tactic.Common

/-!
# Claiming work by compare-and-replace

Participants share one state.  Each takes a snapshot of it, prepares from the snapshot one batch
and a successor without looking at the shared state again, and claims the batch by replacing the
snapshot by the successor; the claim is lost if the shared state has changed.  If preparing from
the first state on comes to an end, then in every interleaving the claimed batches are those of
one participant working alone, in its order.
-/

namespace PinCore

variable {P σ β ε : Type}

/-- What a participant holds between two of its steps. -/
inductive Holding (σ β : Type) where
  | idle
  | taken (snapshot : σ)
  | prepared (snapshot next : σ) (batch : β)

/-- The shared state, what each participant holds, and the batches claimed so far. -/
structure Claims (P σ β : Type) where
  shared : σ
  holding : P → Holding σ β
  claimed : List (P × β)

/-- One step of one participant. -/
inductive Claims.Step [DecidableEq P] (prepare : σ → Except ε (Option (σ × β))) :
    Claims P σ β → Claims P σ β → Prop
  | snapshot (x : Claims P σ β) (p : P) (hp : x.holding p = .idle) :
      Step prepare x { x with holding := Function.update x.holding p (.taken x.shared) }
  | prepare (x : Claims P σ β) (p : P) {w w' : σ} {b : β} (hp : x.holding p = .taken w)
      (hw : prepare w = .ok (some (w', b))) :
      Step prepare x { x with holding := Function.update x.holding p (.prepared w w' b) }
  | finish (x : Claims P σ β) (p : P) {w : σ} (hp : x.holding p = .taken w)
      (hw : prepare w = .ok none) :
      Step prepare x { x with holding := Function.update x.holding p .idle }
  | claim (x : Claims P σ β) (p : P) {w' : σ} {b : β} (hp : x.holding p = .prepared x.shared w' b) :
      Step prepare x {
        shared := w'
        holding := Function.update x.holding p .idle
        claimed := x.claimed ++ [(p, b)] }
  | lose (x : Claims P σ β) (p : P) {w w' : σ} {b : β} (hp : x.holding p = .prepared w w' b)
      (hne : w ≠ x.shared) :
      Step prepare x { x with holding := Function.update x.holding p .idle }

/-- Any number of steps in any order. -/
def Claims.Run [DecidableEq P] (prepare : σ → Except ε (Option (σ × β))) :
    Claims P σ β → Claims P σ β → Prop := Relation.ReflTransGen (Claims.Step prepare)

/-- Nobody has started. -/
def Claims.start (w : σ) : Claims P σ β := ⟨w, fun _ => .idle, []⟩

/-- Preparing from `w` on, one batch after the other, gives these batches and ends. -/
inductive Drains (prepare : σ → Except ε (Option (σ × β))) : σ → List β → Prop
  | done {w : σ} (h : prepare w = .ok none) : Drains prepare w []
  | next {w w' : σ} {b : β} {bs : List β} (h : prepare w = .ok (some (w', b)))
      (hs : Drains prepare w' bs) : Drains prepare w (b :: bs)

variable {prepare : σ → Except ε (Option (σ × β))} {w w' : σ} {b : β} {bs bs' : List β}

theorem Drains.unique (h : Drains prepare w bs) (h' : Drains prepare w bs') : bs = bs' := by
  induction h generalizing bs' with
  | done h =>
    cases h' with
    | done => rfl
    | next hn => rw [h] at hn; cases hn
  | next h _ ih =>
    cases h' with
    | done hn => rw [h] at hn; cases hn
    | next hn hs =>
      rw [h] at hn
      cases hn
      rw [ih hs]

theorem Drains.prepares (h : Drains prepare w bs) : ∃ r, prepare w = .ok r := by
  cases h with
  | done h => exact ⟨_, h⟩
  | next h => exact ⟨_, h⟩

/-- Replacing a state that prepares `b` by its successor leaves the rest of the batches. -/
theorem Drains.tail (h : Drains prepare w bs) (hw : prepare w = .ok (some (w', b))) :
    ∃ rest, bs = b :: rest ∧ Drains prepare w' rest := by
  cases h with
  | done h => rw [h] at hw; cases hw
  | next h hs =>
    rw [h] at hw
    cases hw
    exact ⟨_, rfl, hs⟩

/-- What a participant holds came from a state the serial sequence passes. -/
def Holding.Ok (prepare : σ → Except ε (Option (σ × β))) : Holding σ β → Prop
  | .idle => True
  | .taken w => ∃ bs, Drains prepare w bs
  | .prepared w w' b => prepare w = .ok (some (w', b))

/-- The claimed batches are the first of the serial ones; the shared state stands for the rest. -/
structure Claims.Inv (prepare : σ → Except ε (Option (σ × β))) (bs : List β) (x : Claims P σ β) :
    Prop where
  serial : ∃ rest, bs = x.claimed.map Prod.snd ++ rest ∧ Drains prepare x.shared rest
  holding : ∀ p, (x.holding p).Ok prepare

namespace Claims

variable {x y z : Claims P σ β}

theorem Inv.start (h : Drains prepare w bs) : Inv prepare bs (Claims.start w : Claims P σ β) :=
  ⟨⟨bs, rfl, h⟩, fun _ => trivial⟩

/-- No participant fails to prepare. -/
theorem Inv.prepares (h : Inv prepare bs x) {p : P} (hp : x.holding p = .taken w) :
    ∃ r, prepare w = .ok r := by
  have hh := h.holding p
  rw [hp] at hh
  obtain ⟨bs', hd⟩ := hh
  exact hd.prepares

theorem Inv.claimed_prefix (h : Inv prepare bs x) : x.claimed.map Prod.snd <+: bs := by
  obtain ⟨rest, hbs, -⟩ := h.serial
  exact ⟨rest, hbs.symm⟩

/-- Once nothing is left to prepare, every batch was claimed. -/
theorem Inv.claimed_eq (h : Inv prepare bs x) (hx : prepare x.shared = .ok none) :
    x.claimed.map Prod.snd = bs := by
  obtain ⟨rest, hbs, hd⟩ := h.serial
  rw [hbs, hd.unique (.done hx), List.append_nil]

/-- The state determines how many batches were claimed. -/
theorem Inv.length_eq (hx : Inv prepare bs x) (hy : Inv prepare bs y)
    (h : y.shared = x.shared) : y.claimed.length = x.claimed.length := by
  obtain ⟨rest, hbs, hd⟩ := hx.serial
  obtain ⟨rest', hbs', hd'⟩ := hy.serial
  rw [h] at hd'
  have hlen := congrArg List.length (hbs.symm.trans hbs')
  rw [hd.unique hd'] at hlen
  simp only [List.length_append, List.length_map] at hlen
  omega

variable [DecidableEq P]

theorem holding_update {p q : P} {v : Holding σ β} (h : ∀ p, (x.holding p).Ok prepare)
    (hv : v.Ok prepare) : (Function.update x.holding p v q).Ok prepare := by
  rw [Function.update_apply]
  split_ifs
  · exact hv
  · exact h q

theorem Inv.step (h : Inv prepare bs x) (hs : Step prepare x y) : Inv prepare bs y := by
  obtain ⟨⟨rest, hbs, hd⟩, hh⟩ := h
  cases hs with
  | snapshot p hp => exact ⟨⟨rest, hbs, hd⟩, fun q => holding_update hh ⟨rest, hd⟩⟩
  | prepare p hp hw => exact ⟨⟨rest, hbs, hd⟩, fun q => holding_update hh hw⟩
  | finish p hp hw => exact ⟨⟨rest, hbs, hd⟩, fun q => holding_update hh trivial⟩
  | claim p hp =>
    -- the batch was prepared from the state it replaces, so it is the next serial one
    have hw := hh p
    rw [hp] at hw
    obtain ⟨rest', rfl, hd'⟩ := hd.tail hw
    refine ⟨⟨rest', ?_, hd'⟩, fun q => holding_update hh trivial⟩
    rw [hbs, List.map_append, List.append_assoc]
    rfl
  | lose p hp hne => exact ⟨⟨rest, hbs, hd⟩, fun q => holding_update hh trivial⟩

theorem Inv.run (h : Inv prepare bs x) (hr : Run prepare x y) : Inv prepare bs y := by
  induction hr with
  | refl => exact h
  | tail _ hs ih => exact ih.step hs

/-- A step claims one batch or leaves the shared state alone. -/
theorem Step.progress (hs : Step prepare x y) :
    (y.claimed.length = x.claimed.length ∧ y.shared = x.shared) ∨
      y.claimed.length = x.claimed.length + 1 := by
  cases hs with
  | claim p hp => exact .inr (by simp)
  | _ => exact .inl ⟨rfl, rfl⟩

theorem Run.progress (hr : Run prepare x y) :
    x.claimed.length ≤ y.claimed.length ∧
      (y.claimed.length = x.claimed.length → y.shared = x.shared) := by
  induction hr with
  | refl => exact ⟨Nat.le_refl _, fun _ => rfl⟩
  | tail _ hs ih =>
    obtain ⟨hle, heq⟩ := ih
    rcases hs.progress with ⟨hlen, hsh⟩ | hlen
    · rw [hlen, hsh]
      exact ⟨hle, heq⟩
    · exact ⟨by omega, fun h => by omega⟩

/-- The shared state never comes back to a value it has left. -/
theorem Inv.never_returns (hx : Inv prepare bs x) (hxy : Run prepare x y) (hyz : Run prepare y z)
    (h : z.shared = x.shared) : y.shared = x.shared := by
  have hlen := hx.length_eq (hx.run (hxy.trans hyz)) h
  have h₁ := hxy.progress
  have h₂ := hyz.progress
  exact h₁.2 (by omega)

end Claims

end PinCore
