import PinCore.Query.Reading

/-!
# The parser follows the grammar

`Follows` compares a computation of the parser with what the grammar allows: it is refused for want
of resources, or rejects with a syntax error where the grammar has nothing, or returns what the
grammar has.  Each operation of `Builder` follows the precedence machine on trees, with `Rep` for
the array of nodes.
-/

namespace PinCore

namespace QuerySyntax

open Precedence

/-! ### Following the grammar -/

/-- `x` is refused, or rejects where nothing satisfies `Y`, or returns something related by `R` to
what satisfies `Y`. -/
def Follows {α β : Type} (x : Except Error α) (Y : β → Prop) (R : α → β → Prop) : Prop :=
  (∃ e, Resource e ∧ x = .error e) ∨ (∃ offset, x = .error (.querySyntax offset) ∧ ∀ b, ¬ Y b) ∨
    ∃ a b, x = .ok a ∧ Y b ∧ R a b

section

variable {α β γ δ : Type} {x : Except Error α} {Y Y' : β → Prop} {R R' : α → β → Prop}
  {f : α → Except Error γ} {S : γ → δ → Prop} {a : α} {b : β} {offset : ℕ}

theorem Follows.ok (hb : Y b) (h : R a b) : Follows (.ok a) Y R := .inr (.inr ⟨a, b, rfl, hb, h⟩)

theorem Follows.reject (h : ∀ b, ¬ Y b) : Follows (.error (.querySyntax offset)) Y R :=
  .inr (.inl ⟨offset, rfl, h⟩)

theorem Follows.limit {what : String} : Follows (.error (.limit what)) Y R :=
  .inl ⟨_, .limit, rfl⟩

/-- What the computation is not the cause of: it fails for want of resources or goes on. -/
theorem Follows.refusable_bind {x : Except Error α} {f : α → Except Error γ} {Z : δ → Prop}
    (hx : Refusable x) (hf : ∀ a, x = .ok a → Follows (f a) Z S) : Follows (x >>= f) Z S := by
  cases x with
  | error e => exact .inl ⟨e, hx e rfl, rfl⟩
  | ok a => exact hf a rfl

/-- In sequence; `Z b` is what the grammar allows after `b`. -/
theorem Follows.bind {Z : β → δ → Prop} {W : δ → Prop} (hx : Follows x Y R)
    (hf : ∀ a b, Y b → R a b → Follows (f a) (Z b) S)
    (hW : ∀ d, W d ↔ ∃ b, Y b ∧ Z b d) (hY : ∀ b b', Y b → Y b' → b = b') :
    Follows (x >>= f) W S := by
  rcases hx with ⟨e, he, rfl⟩ | ⟨offset, rfl, hno⟩ | ⟨a, b, rfl, hb, hR⟩
  · exact .inl ⟨e, he, rfl⟩
  · refine .reject fun d hd => ?_
    obtain ⟨b, hb, -⟩ := (hW d).1 hd
    exact hno b hb
  · rcases hf a b hb hR with ⟨e, he, hfa⟩ | ⟨offset, hfa, hno⟩ | ⟨c, d, hfa, hd, hS⟩
    · exact .inl ⟨e, he, hfa⟩
    · refine .inr (.inl ⟨offset, hfa, fun d hd => ?_⟩)
      obtain ⟨b', hb', hd⟩ := (hW d).1 hd
      rw [hY b' b hb' hb] at hd
      exact hno d hd
    · exact .inr (.inr ⟨c, d, hfa, (hW d).2 ⟨b, hb, hd⟩, hS⟩)

theorem Follows.mono (hx : Follows x Y R) (hY : ∀ b, Y b ↔ Y' b) (hR : ∀ a b, R a b → R' a b) :
    Follows x Y' R' := by
  rcases hx with h | ⟨offset, rfl, hno⟩ | ⟨a, b, rfl, hb, h⟩
  · exact .inl h
  · exact .reject fun b hb => hno b ((hY b).2 hb)
  · exact .ok ((hY b).1 hb) (hR a b h)

end

/-! ### Trees in arrays -/

/-- The nodes of the values, bottom first, and their roots. -/
inductive Rep : List Kind → List ℕ → List QueryTree → Prop
  | nil : Rep [] [] []
  | cons {nodes : List Kind} {values : List ℕ} {vals : List QueryTree} (h : Rep nodes values vals)
    (t : QueryTree) : Rep (nodes ++ t.kinds nodes.length)
      ((nodes.length + t.size - 1) :: values) (t :: vals)

section

variable {nodes : List Kind} {values : List ℕ} {vals : List QueryTree} {c d : ℕ}
  {t l r : QueryTree}

theorem Rep.leaf (h : Rep nodes values vals) (a : Operand) :
    Rep (nodes ++ [a.kind]) (nodes.length :: values) (.leaf a :: vals) := h.cons (.leaf a)

theorem Rep.unary (h : Rep nodes (c :: values) (t :: vals)) :
    Rep (nodes ++ [.not c]) (nodes.length :: values) (.unary t :: vals) := by
  cases h with
  | @cons nodes _ _ h _ =>
    have hrep := h.cons (.unary t)
    rw [Precedence.Tree.kinds, ← List.append_assoc] at hrep
    rwa [List.length_append, length_kinds]

theorem Rep.binary (b : Connective) (h : Rep nodes (d :: c :: values) (r :: l :: vals)) :
    Rep (nodes ++ [b.kind c d]) (nodes.length :: values) (.binary b l r :: vals) := by
  cases h with
  | cons h _ =>
    cases h with
    | @cons nodes _ _ h _ =>
      have hrep := h.cons (.binary b l r)
      rw [Precedence.Tree.kinds, ← List.append_assoc, ← List.append_assoc] at hrep
      rw [List.length_append, List.length_append, length_kinds, length_kinds, List.length_append,
        length_kinds]
      rwa [Precedence.Tree.size, ← Nat.add_assoc, ← Nat.add_assoc, Nat.add_sub_cancel] at hrep

/-- Every tree has nodes. -/
theorem Rep.nodes_eq_nil (h : Rep nodes values vals) : nodes = [] ↔ vals = [] := by
  cases h with
  | nil => exact ⟨fun _ => rfl, fun _ => rfl⟩
  | cons h t =>
    refine ⟨fun hnodes => ?_, nofun⟩
    have hpos := size_pos t
    rw [← length_kinds, (List.append_eq_nil_iff.1 hnodes).2] at hpos
    exact absurd hpos (Nat.lt_irrefl 0)

end

/-- The operator as the grammar has it. -/
def OperatorKind.op : OperatorKind → Op Connective
  | .opening => .opening
  | .not => .unary
  | .and => .binary .and
  | .or => .binary .or

/-- The builder holds these trees and operators. -/
structure Builds (b : Builder) (ops : List (Op Connective)) (vals : List QueryTree) : Prop where
  rep : Rep (b.nodes.map (·.kind)) b.values vals
  ops : b.operators.map (fun o => o.kind.op) = ops

theorem precedence_eq (o : Operator) : o.precedence = o.kind.op.prec levels := by
  obtain ⟨kind, offset⟩ := o
  cases kind <;> rfl

section

variable {limits : QueryLimits} {sizes : ParseSizes} {b b' : Builder}
  {ops : List (Op Connective)} {vals : List QueryTree} {kind : Kind} {o : Operator}

theorem nodeDepth_refusable : Refusable (b.nodeDepth limits kind) := .ite (.error .limit) .ok

theorem addNode_refusable : Refusable (b.addNode limits sizes kind) :=
  nodeDepth_refusable.bind fun _ => Refusable.reserve.bind fun _ =>
    Refusable.reserve.bind fun _ => .ok

/-- What a successful `add_node` did. -/
theorem of_addNode (h : b.addNode limits sizes kind = .ok b') :
    b'.nodes.map (·.kind) = b.nodes.map (·.kind) ++ [kind] ∧
      b'.values = b.nodes.length :: b.values ∧ b'.operators = b.operators := by
  obtain ⟨depth, -, h⟩ := ok_of_bind h
  obtain ⟨⟨nodeCapacity, budget⟩, -, h⟩ := ok_of_bind h
  obtain ⟨⟨valueCapacity, budget'⟩, -, h⟩ := ok_of_bind h
  cases h
  exact ⟨by rw [List.map_append]; rfl, rfl, rfl⟩

/-- A leaf is added to the array. -/
theorem Builds.leaf (h : Builds b ops vals) {a : Operand}
    (hb : b.addNode limits sizes a.kind = .ok b') : Builds b' ops (.leaf a :: vals) := by
  obtain ⟨hnodes, hvalues, hops⟩ := of_addNode hb
  refine ⟨?_, by rw [hops, h.ops]⟩
  have hrep := h.rep.leaf a
  rw [hnodes, hvalues]
  rwa [List.length_map] at hrep

theorem addNode_follows {values : List ℕ} {vals' : List QueryTree}
    (hops : b.operators.map (fun o => o.kind.op) = ops)
    (hrep : Rep (b.nodes.map (·.kind) ++ [kind]) ((b.nodes.map (·.kind)).length :: values) vals') :
    Follows ({ b with values := values }.addNode limits sizes kind) (fun v => some vals' = some v)
      fun b' vals' => Builds b' ops vals' := by
  cases hadd : { b with values := values }.addNode limits sizes kind with
  | error e => exact .inl ⟨e, addNode_refusable e hadd, rfl⟩
  | ok b' =>
    obtain ⟨hnodes, hvalues, hops'⟩ := of_addNode hadd
    refine .ok rfl ⟨?_, by rw [hops', hops]⟩
    rw [hnodes, hvalues]
    rwa [List.length_map] at hrep

/-- `reduce` takes the operands that the machine takes. -/
theorem reduce_follows (h : Builds b ops vals) : Follows (b.reduce limits sizes o)
    (fun vals' => Precedence.reduce o.kind.op vals = some vals') fun b' vals' =>
      Builds b' ops vals' := by
  obtain ⟨hrep, hops⟩ := h
  obtain ⟨kind, offset⟩ := o
  unfold Builder.reduce
  generalize hnodes : b.nodes.map (·.kind) = nodes at hrep
  generalize b.values = values at hrep
  cases hrep with
  | nil =>
    have hnone : ∀ op : Op Connective, Precedence.reduce op ([] : List QueryTree) = none := by
      intro op
      cases op <;> rfl
    cases kind
    all_goals exact .reject fun v hv => by rw [hnone] at hv; cases hv
  | @cons nodes values vals h t =>
    cases kind with
    | opening => exact .reject nofun
    | not => exact addNode_follows hops (by rw [hnodes]; exact (h.cons t).unary)
    | and =>
      cases h with
      | nil => exact .reject nofun
      | @cons nodes values vals h t' =>
        exact addNode_follows hops (by rw [hnodes]; exact ((h.cons t').cons t).binary .and)
    | or =>
      cases h with
      | nil => exact .reject nofun
      | @cons nodes values vals h t' =>
        exact addNode_follows hops (by rw [hnodes]; exact ((h.cons t').cons t).binary .or)

/-! ### The stack of operators -/

theorem kinds_op {kind : OperatorKind} : kind.op = .opening ↔ kind = .opening := by
  cases kind <;> simp [OperatorKind.op]

/-- `reduce_above` pops what the machine pops. -/
theorem reduceAbove_follows {p : ℕ} {l : List Operator} (h : Builds b ops vals) :
    Follows (b.reduceAbove limits sizes p l)
      (fun m => popWhile levels p (l.map fun o => o.kind.op) vals = some m)
      fun b' m => Builds b' m.1 m.2 := by
  induction l generalizing b vals with
  | nil => exact .ok rfl ⟨h.rep, rfl⟩
  | cons top l ih =>
    rw [Builder.reduceAbove, List.map_cons, popWhile, ← precedence_eq]
    by_cases hp : p ≤ top.precedence
    · rw [if_pos hp, if_pos hp]
      refine (reduce_follows h).bind (fun b' vals' _ h' => ih h')
        (fun m => ?_) fun v v' hv hv' => ?_
      · exact Option.bind_eq_some_iff
      · exact Option.some.inj (hv.symm.trans hv')
    · rw [if_neg hp, if_neg hp]
      exact .ok rfl ⟨h.rep, rfl⟩

/-- `close` pops down to the opening of the group. -/
theorem closeFrom_follows {l : List Operator} {offset : ℕ} (h : Builds b ops vals) :
    Follows (b.closeFrom limits sizes offset l)
      (fun m : List (Op Connective) × List QueryTree =>
        popWhile levels 1 (l.map fun o => o.kind.op) vals = some (.opening :: m.1, m.2))
      fun b' m => Builds b' m.1 m.2 := by
  induction l generalizing b vals with
  | nil => exact .reject nofun
  | cons top l ih =>
    rw [Builder.closeFrom, List.map_cons]
    by_cases hop : top.kind = .opening
    · rw [if_pos hop, kinds_op.2 hop, popWhile_opening (Nat.le_refl 1)]
      exact @Follows.ok _ _ _ _ _ (_, _) rfl ⟨h.rep, rfl⟩
    · rw [if_neg hop, popWhile_one (kinds_op.not.2 hop)]
      refine (reduce_follows h).bind (fun b' vals' _ h' => ih h')
        (fun m => ?_) fun v v' hv hv' => ?_
      · exact Option.bind_eq_some_iff
      · exact Option.some.inj (hv.symm.trans hv')

/-- At the end every operator is reduced, and no group is open. -/
theorem reduceAll_follows {l : List Operator} (h : Builds b ops vals) :
    Follows (b.reduceAll limits sizes l)
      (fun vals' => popWhile levels 1 (l.map fun o => o.kind.op) vals = some ([], vals'))
      fun b' vals' => Builds b' [] vals' := by
  induction l generalizing b vals with
  | nil => exact .ok rfl ⟨h.rep, rfl⟩
  | cons top l ih =>
    rw [Builder.reduceAll, List.map_cons]
    refine (reduce_follows h).bind (fun b' vals' _ h' => ih h') (fun v => ?_) fun v v' hv hv' => ?_
    · by_cases hop : top.kind.op = .opening
      · rw [hop, popWhile_opening (Nat.le_refl 1)]
        exact ⟨nofun, fun ⟨v, hv, _⟩ => nomatch hv⟩
      · rw [popWhile_one hop]
        exact Option.bind_eq_some_iff
    · exact Option.some.inj (hv.symm.trans hv')

theorem pushOperator_follows (h : Builds b ops vals) :
    Follows (b.pushOperator limits sizes o)
      (fun m : Precedence.State Operand Connective => ⟨o.kind.op :: ops, vals, true⟩ = m)
      fun b' m => Builds b' m.ops m.vals ∧ m.need = true :=
  .refusable_bind Refusable.reserve fun _ _ =>
    .ok rfl ⟨⟨h.rep, by rw [← h.ops]; rfl⟩, rfl⟩

/-- `operator` is a step of the machine. -/
theorem operator_follows {m : Precedence.State Operand Connective} (h : Builds b m.ops m.vals)
    (hneed : m.need = decide (o.kind = .opening ∨ o.kind = .not)) :
    Follows (b.operator limits sizes o) (fun m' => step levels m o.kind.tok = some m')
      fun b' m' => Builds b' m'.ops m'.vals ∧ m'.need = true := by
  obtain ⟨kind, offset⟩ := o
  obtain ⟨ops, vals, need⟩ := m
  subst hneed
  have hshift : ∀ kind : OperatorKind, kind = .opening ∨ kind = .not →
      Follows (b.operator limits sizes ⟨kind, offset⟩)
        (fun m : Precedence.State Operand Connective => some ⟨kind.op :: ops, vals, true⟩ = some m)
        fun b' m => Builds b' m.ops m.vals ∧ m.need = true := by
    intro kind hkind
    have hne : ¬ (kind = .and ∨ kind = .or) := by rcases hkind with rfl | rfl <;> decide
    unfold Builder.operator
    rw [if_neg hne]
    exact (pushOperator_follows h).mono (fun m => Option.some_inj.symm) fun _ _ h => h
  have hbinary : ∀ (kind : OperatorKind) (c : Connective), kind.op = .binary c →
      Follows (b.operator limits sizes ⟨kind, offset⟩)
        (fun m => (popWhile levels (levels.prec c) ops vals).map
          (fun x => (⟨.binary c :: x.1, x.2, true⟩ : Precedence.State Operand Connective)) = some m)
        fun b' m => Builds b' m.ops m.vals ∧ m.need = true := by
    intro kind c hkind
    have hand : kind = .and ∨ kind = .or := by cases kind <;> simp_all [OperatorKind.op]
    unfold Builder.operator
    rw [if_pos hand]
    have hprec : (⟨kind, offset⟩ : Operator).precedence = levels.prec c := by
      rw [precedence_eq, hkind]
      rfl
    have hpop := @reduceAbove_follows limits sizes b ops vals (levels.prec c) b.operators h
    rw [h.ops] at hpop
    rw [hprec]
    refine hpop.bind (fun b' m _ hb' => pushOperator_follows hb') (fun m => ?_)
      fun m m' hm hm' => Option.some.inj (hm.symm.trans hm')
    rw [hkind]
    exact Option.map_eq_some_iff
  cases kind with
  | opening => exact hshift .opening (.inl rfl)
  | not => exact hshift .not (.inr rfl)
  | and => exact hbinary .and .and rfl
  | or => exact hbinary .or .or rfl

/-- `close` is a step of the machine. -/
theorem close_follows {m : Precedence.State Operand Connective} {offset : ℕ}
    (h : Builds b m.ops m.vals) (hneed : m.need = false) :
    Follows (b.close limits sizes offset) (fun m' => step levels m .closing = some m')
      fun b' m' => Builds b' m'.ops m'.vals ∧ m'.need = false ∧
        groups m'.ops + 1 = groups m.ops := by
  obtain ⟨ops, vals, need⟩ := m
  subst hneed
  have hclose := @closeFrom_follows limits sizes b ops vals b.operators offset h
  rw [h.ops] at hclose
  have hstep : ∀ m', step levels ⟨ops, vals, false⟩ .closing = some m' ↔
      ∃ x : List (Op Connective) × List QueryTree,
        popWhile levels 1 ops vals = some (.opening :: x.1, x.2) ∧ ⟨x.1, x.2, false⟩ = m' := by
    intro m'
    rw [step, if_neg Bool.false_ne_true]
    split
    · next ops' vals' hpop =>
      rw [hpop]
      constructor
      · intro h
        exact ⟨(ops', vals'), rfl, Option.some.inj h⟩
      · rintro ⟨⟨ops₁, vals₁⟩, hx, rfl⟩
        cases hx
        rfl
    · next hno =>
      refine iff_of_false (Option.some_ne_none _).symm ?_
      rintro ⟨x, hx, -⟩
      exact hno x.1 x.2 hx
  unfold Builder.close
  rcases hclose with hres | ⟨offset, heq, hno⟩ | ⟨b', x, heq, hpop, hb'⟩
  · exact .inl hres
  · rw [heq]
    refine .reject fun m' hm' => ?_
    obtain ⟨x, hx, -⟩ := (hstep m').1 hm'
    exact hno x hx
  · rw [heq]
    exact .ok ((hstep _).2 ⟨x, hpop, rfl⟩) ⟨hb', rfl, groups_popWhile (Nat.le_refl 1) hpop⟩

end

end QuerySyntax

end PinCore
