import Mathlib.Tactic.Common

/-!
# Operator precedence

Expressions of leaves, one prefix operator, left-associative binary operators with precedences and
grouping tokens.  `Derives` is the grammar: an expression of level `k` has no binary operator below
`k` outside groups.  `accept` reads the tokens once with a stack of operators and a stack of values.
The two agree (`accept_iff`): the machine accepts exactly the expressions, each with its tree.

Soundness rests on `Stack`, what the operators on the stack have consumed; completeness on the fact
that behind an expression of level `k` every reduction down to some `p ≤ k` meets its tree.
-/

namespace PinCore

namespace Precedence

universe u v

variable {α : Type u} {β : Type v}

/-- The tokens of an expression. -/
inductive Tok (α : Type u) (β : Type v) where
  | leaf (a : α)
  | unary
  | binary (b : β)
  | opening
  | closing
  deriving DecidableEq, Repr

/-- The trees of expressions. -/
inductive Tree (α : Type u) (β : Type v) where
  | leaf (a : α)
  | unary (t : Tree α β)
  | binary (b : β) (l r : Tree α β)
  deriving DecidableEq, Repr

/-- What waits for its right operand, or for the end of its group. -/
inductive Op (β : Type v) where
  | opening
  | unary
  | binary (b : β)
  deriving DecidableEq, Repr

/-- The precedences of the binary operators lie between those of groups and of the prefix
operator. -/
structure Levels (β : Type v) where
  prec : β → ℕ
  top : ℕ
  pos : ∀ b, 1 ≤ prec b
  lt : ∀ b, prec b < top
  one_le_top : 1 ≤ top

variable (L : Levels β)

/-! ### The grammar -/

/-- The tokens are an expression of level `k` with this tree. -/
inductive Derives : ℕ → List (Tok α β) → Tree α β → Prop
  | leaf {k : ℕ} (a : α) : Derives k [.leaf a] (.leaf a)
  | group {k : ℕ} {ts : List (Tok α β)} {t : Tree α β} (h : Derives 1 ts t) :
    Derives k (.opening :: (ts ++ [.closing])) t
  | unary {k : ℕ} {ts : List (Tok α β)} {t : Tree α β} (h : Derives L.top ts t) :
    Derives k (.unary :: ts) (.unary t)
  | binary {k : ℕ} {b : β} {ls rs : List (Tok α β)} {l r : Tree α β} (hk : k ≤ L.prec b)
    (hl : Derives (L.prec b) ls l) (hr : Derives (L.prec b + 1) rs r) :
    Derives k (ls ++ .binary b :: rs) (.binary b l r)

/-- The leaves from left to right. -/
def Tree.leaves : Tree α β → List α
  | leaf a => [a]
  | unary t => t.leaves
  | binary _ l r => l.leaves ++ r.leaves

/-! ### The machine -/

/-- How strongly an operator on the stack binds; an opening parenthesis stops every reduction. -/
def Op.prec : Op β → ℕ
  | opening => 0
  | unary => L.top
  | binary b => L.prec b

/-- Takes the operands of an operator from the values. -/
def reduce : Op β → List (Tree α β) → Option (List (Tree α β))
  | .unary, t :: vals => some (.unary t :: vals)
  | .binary b, r :: l :: vals => some (.binary b l r :: vals)
  | _, _ => none

/-- Reduces all operators on top of the stack that bind at least as strongly as `p`. -/
def popWhile (p : ℕ) : List (Op β) → List (Tree α β) → Option (List (Op β) × List (Tree α β))
  | [], vals => some ([], vals)
  | op :: ops, vals =>
    if p ≤ op.prec L then (reduce op vals).bind fun vals => popWhile p ops vals
    else some (op :: ops, vals)

/-- The stacks, and whether an operand comes next. -/
structure State (α : Type u) (β : Type v) where
  ops : List (Op β)
  vals : List (Tree α β)
  need : Bool

/-- Before the first token. -/
def State.start : State α β := ⟨[], [], true⟩

/-- Takes one token; `none` when it cannot stand here. -/
def step (s : State α β) : Tok α β → Option (State α β)
  | .leaf a => if s.need then some ⟨s.ops, .leaf a :: s.vals, false⟩ else none
  | .unary => if s.need then some ⟨.unary :: s.ops, s.vals, true⟩ else none
  | .opening => if s.need then some ⟨.opening :: s.ops, s.vals, true⟩ else none
  | .binary b =>
    if s.need then none
    else (popWhile L (L.prec b) s.ops s.vals).map fun (ops, vals) => ⟨.binary b :: ops, vals, true⟩
  | .closing =>
    if s.need then none
    else
      match popWhile L 1 s.ops s.vals with
      | some (.opening :: ops, vals) => some ⟨ops, vals, false⟩
      | _ => none

/-- Reads the tokens. -/
def run : State α β → List (Tok α β) → Option (State α β)
  | s, [] => some s
  | s, tok :: ts => (step L s tok).bind fun s => run s ts

/-- The tree of the whole input. -/
def finish (s : State α β) : Option (Tree α β) :=
  if s.need then none
  else
    match popWhile L 1 s.ops s.vals with
    | some ([], [t]) => some t
    | _ => none

/-- The tree of the tokens. -/
def accept (ts : List (Tok α β)) : Option (Tree α β) := (run L .start ts).bind (finish L)

/-! ### Levels -/

section

variable {L} {k j p : ℕ} {ts ts' us : List (Tok α β)} {t v : Tree α β} {ops : List (Op β)}
  {vals : List (Tree α β)} {s : State α β} {b : β}

theorem Derives.mem_leaves (h : Derives L k ts t) : ∀ a ∈ t.leaves, .leaf a ∈ ts := by
  induction h with
  | leaf a =>
    intro a' ha'
    rw [List.mem_singleton.1 ha']
    exact List.mem_singleton_self _
  | group _ ih =>
    exact fun a ha => List.mem_cons_of_mem _ (List.mem_append_left _ (ih a ha))
  | unary _ ih => exact fun a ha => List.mem_cons_of_mem _ (ih a ha)
  | binary _ _ _ ihl ihr =>
    intro a ha
    rcases List.mem_append.1 ha with ha | ha
    · exact List.mem_append_left _ (ihl a ha)
    · exact List.mem_append_right _ (List.mem_cons_of_mem _ (ihr a ha))

/-- The operator on top of the stack binds less strongly than `p`. -/
def Below (L : Levels β) (p : ℕ) : List (Op β) → Prop
  | [] => True
  | op :: _ => op.prec L < p

theorem popWhile_below (h : Below L p ops) : popWhile L p ops vals = some (ops, vals) := by
  cases ops with
  | nil => rfl
  | cons op ops => exact if_neg (Nat.not_le_of_lt h)

/-- An open group stops every reduction. -/
theorem popWhile_opening (hp : 1 ≤ p) :
    popWhile L p (.opening :: ops) vals = some (.opening :: ops, vals) :=
  popWhile_below (show Below L p (.opening :: ops) from hp)

theorem popWhile_unary (h : p ≤ L.top) :
    popWhile L p (.unary :: ops) (t :: vals) = popWhile L p ops (.unary t :: vals) := by
  rw [popWhile, Op.prec, if_pos h]
  rfl

theorem popWhile_binary {l r : Tree α β} (h : p ≤ L.prec b) :
    popWhile L p (.binary b :: ops) (r :: l :: vals) =
      popWhile L p ops (.binary b l r :: vals) := by
  rw [popWhile, Op.prec, if_pos h]
  rfl

/-- Within a group everything is reduced. -/
theorem popWhile_one {op : Op β} (h : op ≠ .opening) :
    popWhile L 1 (op :: ops) vals = (reduce op vals).bind fun vals => popWhile L 1 ops vals := by
  cases op with
  | opening => exact absurd rfl h
  | unary => rw [popWhile, Op.prec, if_pos L.one_le_top]
  | binary b => rw [popWhile, Op.prec, if_pos (L.pos b)]

theorem run_append : run L s (ts ++ ts') = (run L s ts).bind fun s => run L s ts' := by
  induction ts generalizing s with
  | nil => rfl
  | cons tok ts ih =>
    rw [List.cons_append, run, run, Option.bind_assoc]
    exact Option.bind_congr fun s _ => ih

theorem finish_iff (hneed : s.need = false) :
    finish L s = some t ↔ popWhile L 1 s.ops s.vals = some ([], [t]) := by
  rw [finish, hneed, if_neg Bool.false_ne_true]
  split
  · next t' hpop => rw [hpop, Option.some_inj, Option.some_inj, Prod.mk.injEq, List.singleton_inj,
      eq_self_iff_true, true_and]
  · next hno => exact ⟨nofun, fun h => absurd h (hno t)⟩

/-! ### Completeness -/

/-- Behind an expression of level `k` every reduction down to `p ≤ k` meets its tree. -/
theorem Derives.run (h : Derives L k ts t) (hops : ∀ b, k ≤ L.prec b → Below L (L.prec b) ops) :
    ∃ ops' vals', Precedence.run L ⟨ops, vals, true⟩ ts = some ⟨ops', vals', false⟩ ∧
      ∀ p ≤ k, p ≤ L.top → popWhile L p ops' vals' = popWhile L p ops (t :: vals) := by
  induction h generalizing ops vals with
  | leaf a => exact ⟨ops, .leaf a :: vals, rfl, fun _ _ _ => rfl⟩
  | @group k ts t h ih =>
    obtain ⟨ops', vals', hrun, hpop⟩ := @ih (.opening :: ops) vals fun b _ => L.pos b
    have hclose : popWhile L 1 ops' vals' = some (.opening :: ops, t :: vals) := by
      rw [hpop 1 (Nat.le_refl 1) L.one_le_top, popWhile_opening (Nat.le_refl 1)]
    refine ⟨ops, t :: vals, ?_, fun _ _ _ => rfl⟩
    change Precedence.run L ⟨.opening :: ops, vals, true⟩ (ts ++ [.closing]) = _
    rw [run_append, hrun]
    change (step L _ .closing).bind _ = _
    rw [step, if_neg Bool.false_ne_true, hclose]
    rfl
  | @unary k ts t h ih =>
    obtain ⟨ops', vals', hrun, hpop⟩ := @ih (.unary :: ops) vals
      fun b hb => absurd hb (Nat.not_le_of_lt (L.lt b))
    refine ⟨ops', vals', hrun, fun p _ hp => ?_⟩
    rw [hpop p hp hp, popWhile_unary hp]
  | @binary k b ls rs l r hk _ _ ihl ihr =>
    obtain ⟨ops₁, vals₁, hrun₁, hpop₁⟩ := @ihl ops vals fun b' hb' =>
      hops b' (Nat.le_trans hk hb')
    obtain ⟨ops₂, vals₂, hrun₂, hpop₂⟩ := @ihr (.binary b :: ops) (l :: vals) fun b' hb' => hb'
    refine ⟨ops₂, vals₂, ?_, fun p hp htop => ?_⟩
    · have hstep : popWhile L (L.prec b) ops₁ vals₁ = some (ops, l :: vals) := by
        rw [hpop₁ _ (Nat.le_refl _) (Nat.le_of_lt (L.lt b)), popWhile_below (hops b hk)]
      rw [run_append, hrun₁]
      change (step L _ (.binary b)).bind _ = _
      rw [step, if_neg Bool.false_ne_true, hstep]
      exact hrun₂
    · rw [hpop₂ p (by omega) htop, popWhile_binary (Nat.le_trans hp hk)]

/-- The machine accepts every expression with its tree. -/
theorem Derives.accept (h : Derives L 1 ts t) : Precedence.accept L ts = some t := by
  obtain ⟨ops, vals, hrun, hpop⟩ := @Derives.run α β L 1 ts t [] [] h fun _ _ => trivial
  have hend : popWhile L 1 ops vals = some ([], [t]) := hpop 1 (Nat.le_refl 1) L.one_le_top
  rw [Precedence.accept, State.start, hrun]
  exact (finish_iff rfl).2 hend

/-! ### Soundness -/

/-- The tokens that led to these stacks; an operand comes next.  A binary operator on the stack
binds more strongly than what is below it, and its left operand has its level. -/
inductive Stack (L : Levels β) : List (Tok α β) → List (Op β) → List (Tree α β) → Prop
  | nil : Stack L [] [] []
  | opening {ts : List (Tok α β)} {ops : List (Op β)} {vals : List (Tree α β)}
    (h : Stack L ts ops vals) : Stack L (ts ++ [.opening]) (.opening :: ops) vals
  | unary {ts : List (Tok α β)} {ops : List (Op β)} {vals : List (Tree α β)}
    (h : Stack L ts ops vals) : Stack L (ts ++ [.unary]) (.unary :: ops) vals
  | binary {ts ls : List (Tok α β)} {ops : List (Op β)} {vals : List (Tree α β)} {b : β}
    {l : Tree α β} (h : Stack L ts ops vals) (hops : Below L (L.prec b) ops)
    (hl : Derives L (L.prec b) ls l) :
    Stack L (ts ++ (ls ++ [.binary b])) (.binary b :: ops) (l :: vals)

/-- The level that the right operand of the operator on top must have. -/
def operandLevel (L : Levels β) : List (Op β) → ℕ
  | [] => 0
  | .opening :: _ => 0
  | .unary :: _ => L.top
  | .binary b :: _ => L.prec b + 1

/-- The stacks, with an operand on top: it serves the operator below it, and has level `p`. -/
def Holds (L : Levels β) (p : ℕ) (ts : List (Tok α β)) (ops : List (Op β))
    (vals : List (Tree α β)) : Prop :=
  ∃ us vs t vals', ts = us ++ vs ∧ vals = t :: vals' ∧ Stack L us ops vals' ∧
    Derives L (operandLevel L ops) vs t ∧ Derives L p vs t

theorem operandLevel_le (h : Below L p ops) (hp : p ≤ L.top) : operandLevel L ops ≤ p := by
  cases ops with
  | nil => exact Nat.zero_le p
  | cons op ops =>
    cases op with
    | opening => exact Nat.zero_le p
    | unary => exact absurd hp (Nat.not_le_of_lt h)
    | binary b => exact h

/-- Reducing keeps the tokens and the level down to which it reduces. -/
theorem Holds.pop (hp : 1 ≤ p) (h : Holds L p ts ops vals) {ops' : List (Op β)}
    {vals' : List (Tree α β)} (hpop : popWhile L p ops vals = some (ops', vals')) :
    Holds L p ts ops' vals' ∧ Below L p ops' := by
  induction ops generalizing vals with
  | nil =>
    cases hpop
    exact ⟨h, trivial⟩
  | cons op ops ih =>
    obtain ⟨us, vs, t, rest, rfl, rfl, hstack, hlevel, hp'⟩ := h
    by_cases hle : p ≤ op.prec L
    · cases hstack with
      | opening _ => exact absurd hle (Nat.not_le_of_lt hp)
      | @unary us _ _ hstack =>
        rw [popWhile_unary hle] at hpop
        refine ih ⟨us, .unary :: vs, .unary t, rest, ?_, rfl, hstack, ?_, ?_⟩ hpop
        · rw [List.append_assoc, List.singleton_append]
        · exact .unary hlevel
        · exact .unary hlevel
      | @binary us ls _ vals b l hstack hops hl =>
        rw [popWhile_binary hle] at hpop
        refine ih ⟨us, ls ++ .binary b :: vs, .binary b l t, vals, ?_, rfl, hstack, ?_, ?_⟩ hpop
        · simp
        · exact .binary (operandLevel_le hops (Nat.le_of_lt (L.lt b))) hl hlevel
        · exact .binary hle hl hlevel
    · rw [popWhile, if_neg hle] at hpop
      cases hpop
      exact ⟨⟨us, vs, t, rest, rfl, rfl, hstack, hlevel, hp'⟩, Nat.lt_of_not_le hle⟩

/-- The stacks have consumed these tokens. -/
def Reads (L : Levels β) (ts : List (Tok α β)) (s : State α β) : Prop :=
  if s.need then Stack L ts s.ops s.vals
  else ∃ us vs t vals, ts = us ++ vs ∧ s.vals = t :: vals ∧ Stack L us s.ops vals ∧
    ∀ k, Derives L k vs t

theorem Reads.holds {vals : List (Tree α β)} (h : Reads L ts ⟨ops, vals, false⟩) :
    Holds L p ts ops vals := by
  obtain ⟨us, vs, t, rest, hts, hvals, hstack, hder⟩ := h
  exact ⟨us, vs, t, rest, hts, hvals, hstack, hder _, hder _⟩

theorem Reads.step {s' : State α β} {tok : Tok α β} (h : Reads L ts s)
    (hs : Precedence.step L s tok = some s') : Reads L (ts ++ [tok]) s' := by
  obtain ⟨ops, vals, need⟩ := s
  cases tok with
  | leaf a =>
    cases need with
    | false => cases hs
    | true =>
      cases hs
      exact ⟨ts, [.leaf a], .leaf a, vals, rfl, rfl, h, fun _ => .leaf a⟩
  | unary =>
    cases need with
    | false => cases hs
    | true =>
      cases hs
      exact Stack.unary h
  | opening =>
    cases need with
    | false => cases hs
    | true =>
      cases hs
      exact Stack.opening h
  | binary b =>
    cases need with
    | true => cases hs
    | false =>
      obtain ⟨⟨ops', vals'⟩, hpop, rfl⟩ := Option.map_eq_some_iff.1 hs
      obtain ⟨hholds, hbelow⟩ := h.holds.pop (L.pos b) hpop
      obtain ⟨us, vs, t, rest, rfl, rfl, hstack, -, hlevel⟩ := hholds
      rw [List.append_assoc]
      exact Stack.binary hstack hbelow hlevel
  | closing =>
    cases need with
    | true => cases hs
    | false =>
      rw [Precedence.step, if_neg Bool.false_ne_true] at hs
      split at hs
      · next ops' vals' hpop =>
        cases hs
        obtain ⟨hholds, -⟩ := h.holds.pop (Nat.le_refl 1) hpop
        obtain ⟨us, vs, t, rest, rfl, rfl, hstack, -, hlevel⟩ := hholds
        cases hstack with
        | @opening us _ _ hstack =>
          refine ⟨us, .opening :: (vs ++ [.closing]), t, rest, ?_, rfl, hstack,
            fun _ => .group hlevel⟩
          simp
      · cases hs

theorem Reads.run {s' : State α β} (h : Reads L us s) (hs : Precedence.run L s ts = some s') :
    Reads L (us ++ ts) s' := by
  induction ts generalizing us s with
  | nil =>
    cases hs
    rwa [List.append_nil]
  | cons tok ts ih =>
    obtain ⟨s₁, hstep, hrun⟩ := Option.bind_eq_some_iff.1 hs
    have := ih (h.step hstep) hrun
    rwa [List.append_assoc, List.singleton_append] at this

/-- The machine accepts exactly the expressions. -/
theorem accept_iff : accept L ts = some t ↔ Derives L 1 ts t := by
  refine ⟨fun h => ?_, Derives.accept⟩
  obtain ⟨⟨ops, vals, need⟩, hrun, hfinish⟩ := Option.bind_eq_some_iff.1 h
  have hreads := @Reads.run α β L ts [] .start ⟨ops, vals, need⟩ Stack.nil hrun
  cases need with
  | true => cases hfinish
  | false =>
    obtain ⟨hholds, -⟩ := hreads.holds.pop (Nat.le_refl 1) ((finish_iff rfl).1 hfinish)
    obtain ⟨us, vs, t', rest, hts, hvals, hstack, -, hlevel⟩ := hholds
    cases hvals
    cases hstack
    rw [List.nil_append, List.nil_append] at hts
    rwa [hts]

/-- Only the empty input leaves the stacks empty. -/
theorem Reads.eq_nil {need : Bool} (h : Reads L ts ⟨[], [], need⟩) : ts = [] ∧ need = true := by
  cases need with
  | false =>
    obtain ⟨us, vs, t, vals, -, hvals, -⟩ := h
    cases hvals
  | true =>
    cases h
    exact ⟨rfl, rfl⟩

/-! ### Open groups -/

/-- The number of groups that are open. -/
def groups : List (Op β) → ℕ
  | [] => 0
  | .opening :: ops => groups ops + 1
  | _ :: ops => groups ops

/-- Reductions leave the groups open. -/
theorem groups_popWhile (hp : 1 ≤ p) {ops' : List (Op β)} {vals' : List (Tree α β)}
    (h : popWhile L p ops vals = some (ops', vals')) : groups ops' = groups ops := by
  induction ops generalizing vals with
  | nil =>
    cases h
    rfl
  | cons op ops ih =>
    rw [popWhile] at h
    split_ifs at h with hle
    · obtain ⟨vals₁, -, hrest⟩ := Option.bind_eq_some_iff.1 h
      cases op with
      | opening => exact absurd hle (Nat.not_le_of_lt hp)
      | unary => exact ih hrest
      | binary b => exact ih hrest
    · cases h
      rfl

/-- Only groups change the number of open groups. -/
theorem groups_step {s' : State α β} {tok : Tok α β} (hopening : tok ≠ .opening)
    (hclosing : tok ≠ .closing) (h : step L s tok = some s') : groups s'.ops = groups s.ops := by
  obtain ⟨ops, vals, need⟩ := s
  cases tok with
  | leaf a =>
    cases need with
    | false => cases h
    | true =>
      cases h
      rfl
  | unary =>
    cases need with
    | false => cases h
    | true =>
      cases h
      rfl
  | binary b =>
    cases need with
    | true => cases h
    | false =>
      obtain ⟨⟨ops', vals'⟩, hpop, rfl⟩ := Option.map_eq_some_iff.1 h
      exact @groups_popWhile _ _ L _ ops vals (L.pos b) ops' vals' hpop
  | opening => exact absurd rfl hopening
  | closing => exact absurd rfl hclosing

end

end Precedence

end PinCore
