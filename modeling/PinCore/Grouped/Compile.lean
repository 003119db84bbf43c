import PinCore.Grouped.Evaluate
import PinCore.Query.Cover

/-!
# Programs of the group kernel

A query over terms is compiled to a program of the group kernel.  The compiler interns the names of
the terms, so that a name is one term however often it stands in the query; it notes whether the
query is a universe, which a document without any of its terms may match, and which terms bound the
groups that a scan visits.

`compile` takes exactly the small queries without prefixes and phrases (`compile_isSome_iff`).  The
program is valid (`compile_valid`), has the value of the query at every document
(`compile_preserves`), and unless it is a universe a match holds one of the terms that are sought
(`compile_sought`).
-/

namespace PinCore

namespace Grouped

/-! ### The compiler -/

/-- A compiled query.  In a universe a match may stand in a group without any of its terms. -/
structure ScanProgram where
  nodes : List Node
  names : List (Option Text)
  isUniverse : Bool
  seekTerms : ℕ
  deriving DecidableEq, Repr

/-- The index of a name among those met so far, which it may join. -/
def internName (names : List (Option Text)) (name : Option Text) : List (Option Text) × ℕ :=
  match names.findIdx? (· = name) with
  | some term => (names, term)
  | none => (names ++ [name], names.length)

/-- Compiles one node: the names, the node, and whether it is a universe. -/
def compileNode (names : List (Option Text)) (universes : List Bool) :
    Kind → Option (List (Option Text) × Node × Bool)
  | .none => some ((internName names none).1, .term (internName names none).2, false)
  | .term text =>
    some ((internName names (some text)).1, .term (internName names (some text)).2, false)
  | .and l r => some (names, .and l r, universes.getD l false && universes.getD r false)
  | .or l r => some (names, .or l r, universes.getD l false || universes.getD r false)
  | .not c => some (names, .not c, true)
  | .prefixed _ => none
  | .phrase _ => none

/-- Compiles the nodes in order. -/
def compileNodes : List Kind → List Node → List (Option Text) → List Bool →
    Option (List Node × List (Option Text) × List Bool)
  | [], nodes, names, universes => some (nodes, names, universes)
  | kind :: kinds, nodes, names, universes =>
    match compileNode names universes kind with
    | none => none
    | some (names, node, unbounded) =>
      compileNodes kinds (nodes ++ [node]) names (universes ++ [unbounded])

/-- One step of the backward pass that finds the terms which bound the next group. -/
def seekStep (x : ℕ × Node) (s : Option (ℕ × ℕ)) : Option (ℕ × ℕ) :=
  match s with
  | none => none
  | some (active, seekTerms) =>
    if active.testBit x.1 = false then some (active, seekTerms)
    else
      match x.2 with
      | .term t => some (active, seekTerms ||| 2 ^ t)
      | .and l r => some (active ||| (2 ^ l ||| 2 ^ r), seekTerms)
      | .or l r => some (active ||| (2 ^ l ||| 2 ^ r), seekTerms)
      | .not _ => some (active, seekTerms)
      | _ => none

/-- Compiles a query to a program of the group kernel. -/
def compile (query : Query) : Option ScanProgram :=
  if maxNodes < query.nodeCount ∨ query.root + 1 ≠ query.nodeCount then none
  else
    match compileNodes query.nodes [] [] [] with
    | none => none
    | some (nodes, names, universes) =>
      match (indexed nodes).foldr seekStep (some (2 ^ query.root, 0)) with
      | none => none
      | some (_, seekTerms) => some ⟨nodes, names, universes.getD query.root false, seekTerms⟩

/-! ### One node -/

/-- The kinds that the compiler takes. -/
def Direct : Kind → Bool
  | .prefixed _ => false
  | .phrase _ => false
  | _ => true

/-- The node is a universe, given which of the nodes before it are. -/
def unboundedNode (universes : List Bool) : Kind → Bool
  | .and l r => universes.getD l false && universes.getD r false
  | .or l r => universes.getD l false || universes.getD r false
  | .not _ => true
  | _ => false

/-- The node of the program stands for the node of the query. -/
inductive Compiles (names : List (Option Text)) : Kind → Node → Prop
  | none {t : ℕ} (h : names[t]? = some none) : Compiles names .none (.term t)
  | term {text : Text} {t : ℕ} (h : names[t]? = some (some text)) :
      Compiles names (.term text) (.term t)
  | not (c : ℕ) : Compiles names (.not c) (.not c)
  | and (l r : ℕ) : Compiles names (.and l r) (.and l r)
  | or (l r : ℕ) : Compiles names (.or l r) (.or l r)

section

variable {names names' rest : List (Option Text)} {universes universes' : List Bool} {kind : Kind}
  {kinds : List Kind} {node : Node} {nodes nodes' : List Node} {name : Option Text} {u : Bool}

/-- An interned name is found at its index, and no name moves. -/
theorem internName_spec : names <+: (internName names name).1 ∧
    (internName names name).1[(internName names name).2]? = some name := by
  unfold internName
  cases h : names.findIdx? (· = name) with
  | none =>
    refine ⟨List.prefix_append _ _, ?_⟩
    rw [List.getElem?_append_right (Nat.le_refl _), Nat.sub_self]
    rfl
  | some i =>
    refine ⟨List.prefix_refl _, ?_⟩
    obtain ⟨hi, hp, -⟩ := List.findIdx?_eq_some_iff_getElem.1 h
    rw [List.getElem?_eq_getElem hi, of_decide_eq_true hp]

theorem length_internName : (internName names name).1.length ≤ names.length + 1 := by
  unfold internName
  split <;> simp

theorem Compiles.mono (h : Compiles names kind node) (hp : names <+: names') :
    Compiles names' kind node := by
  obtain ⟨rest, rfl⟩ := hp
  have hget : ∀ {t : ℕ} {name : Option Text}, names[t]? = some name →
      (names ++ rest)[t]? = some name := by
    intro t name ht
    rw [List.getElem?_append_left (List.getElem?_eq_some_iff.1 ht).1, ht]
  cases h with
  | none h => exact .none (hget h)
  | term h => exact .term (hget h)
  | not c => exact .not c
  | and l r => exact .and l r
  | or l r => exact .or l r

theorem compileNode_eq_none_iff : compileNode names universes kind = none ↔
    Direct kind = false := by
  cases kind <;> simp [compileNode, Direct]

/-- What the compilation of one node leaves. -/
theorem compileNode_spec (h : compileNode names universes kind = some (names', node, u)) :
    names <+: names' ∧ names'.length ≤ names.length + 1 ∧ Compiles names' kind node ∧
      u = unboundedNode universes kind := by
  cases kind <;> simp only [compileNode, Option.some.injEq, Prod.mk.injEq, reduceCtorEq] at h <;>
    obtain ⟨rfl, rfl, rfl⟩ := h
  case none => exact ⟨internName_spec.1, length_internName, .none internName_spec.2, rfl⟩
  case term => exact ⟨internName_spec.1, length_internName, .term internName_spec.2, rfl⟩
  case not c => exact ⟨List.prefix_refl _, Nat.le_succ _, .not c, rfl⟩
  case and l r => exact ⟨List.prefix_refl _, Nat.le_succ _, .and l r, rfl⟩
  case or l r => exact ⟨List.prefix_refl _, Nat.le_succ _, .or l r, rfl⟩

/-! ### All nodes -/

theorem compileNodes_isSome_iff :
    (compileNodes kinds nodes names universes).isSome ↔ ∀ k ∈ kinds, Direct k = true := by
  induction kinds generalizing nodes names universes with
  | nil => exact iff_of_true rfl fun k hk => absurd hk List.not_mem_nil
  | cons kind kinds ih =>
    rw [compileNodes, List.forall_mem_cons]
    cases h : compileNode names universes kind with
    | none =>
      rw [compileNode_eq_none_iff.1 h]
      exact iff_of_false (by rintro ⟨⟩) (by rintro ⟨⟨⟩, -⟩)
    | some x =>
      have hd : Direct kind = true := by
        by_contra hd
        rw [compileNode_eq_none_iff.2 (Bool.eq_false_of_not_eq_true hd)] at h
        cases h
      exact ih.trans (and_iff_right hd).symm

/-- What the compilation of all nodes leaves: the names met so far stay, each node has its
counterpart, and the universes are those of the nodes in order. -/
theorem compileNodes_spec
    (h : compileNodes kinds nodes names universes = some (nodes', names', universes')) :
    names <+: names' ∧ names'.length ≤ names.length + kinds.length ∧
      (∃ ms, nodes' = nodes ++ ms ∧ List.Forall₂ (Compiles names') kinds ms) ∧
      universes' = kinds.foldl (fun us k => us ++ [unboundedNode us k]) universes := by
  induction kinds generalizing nodes names universes with
  | nil =>
    cases h
    exact ⟨List.prefix_refl _, Nat.le_refl _, ⟨[], (List.append_nil _).symm, .nil⟩, rfl⟩
  | cons kind kinds ih =>
    rw [compileNodes] at h
    cases hk : compileNode names universes kind with
    | none => rw [hk] at h; cases h
    | some x =>
      obtain ⟨names₁, node, u⟩ := x
      rw [hk] at h
      obtain ⟨hp, hlen, hnode, rfl⟩ := compileNode_spec hk
      obtain ⟨hp', hlen', ⟨ms, rfl, hms⟩, rfl⟩ := ih h
      refine ⟨hp.trans hp', ?_, ⟨node :: ms, ?_, .cons (hnode.mono hp') hms⟩, rfl⟩
      · rw [List.length_cons]
        omega
      · rw [List.append_assoc]
        rfl

end

/-! ### The terms that are sought -/

section

variable {l : List (ℕ × Node)} {active active' seek seek' j t : ℕ} {x : ℕ × Node}

/-- The nodes that the compiler writes. -/
def Written : Node → Bool
  | .all => false
  | .difference _ _ => false
  | _ => true

/-- The operands that bound the groups of a node: those of a complement do not. -/
def boundChildren : Node → List ℕ
  | .and l r => [l, r]
  | .or l r => [l, r]
  | _ => []

/-- A step of the backward pass: the node, when it is active, adds its operands or its term. -/
theorem seekStep_spec (hw : Written x.2 = true) : ∃ active' seek',
    seekStep x (some (active, seek)) = some (active', seek') ∧
      (∀ j, active'.testBit j = true ↔ active.testBit j = true ∨
        (active.testBit x.1 = true ∧ j ∈ boundChildren x.2)) ∧
      ∀ t, seek'.testBit t = true ↔ seek.testBit t = true ∨
        (active.testBit x.1 = true ∧ x.2 = .term t) := by
  obtain ⟨i, node⟩ := x
  unfold seekStep
  dsimp only
  by_cases hi : active.testBit i = true
  · rw [if_neg (by rw [hi]; decide)]
    have hadd : ∀ l r j, (active ||| (2 ^ l ||| 2 ^ r)).testBit j = true ↔
        active.testBit j = true ∨ (active.testBit i = true ∧ j ∈ [l, r]) := by
      intro l r j
      simp only [Nat.testBit_or, Nat.testBit_two_pow, Bool.or_eq_true, decide_eq_true_eq, hi,
        List.mem_cons, List.not_mem_nil, or_false, true_and]
      exact or_congr Iff.rfl (or_congr eq_comm eq_comm)
    cases node with
    | all => cases hw
    | difference l r => cases hw
    | term t =>
      refine ⟨_, _, rfl, by simp [boundChildren], fun u => ?_⟩
      simp [hi, Nat.testBit_or, Nat.testBit_two_pow]
    | and l r => exact ⟨_, _, rfl, hadd l r, by simp⟩
    | or l r => exact ⟨_, _, rfl, hadd l r, by simp⟩
    | not c => exact ⟨_, _, rfl, by simp [boundChildren], by simp⟩
  · rw [if_pos (Bool.eq_false_of_not_eq_true hi)]
    exact ⟨_, _, rfl, by simp [hi], by simp [hi]⟩

/-- The nodes of the program with their indices, as the backward pass meets them. -/
structure Passed (l : List (ℕ × Node)) : Prop where
  sorted : (l.map Prod.fst).Pairwise (· < ·)
  written : ∀ x ∈ l, Written x.2 = true
  below : ∀ x ∈ l, ∀ c ∈ boundChildren x.2, c < x.1

/-- The backward pass over written nodes finds an active set that is closed under the operands
which bound, and seeks the terms of the active nodes. -/
theorem seek_spec (hl : Passed l) : ∃ active' seek',
    l.foldr seekStep (some (active, seek)) = some (active', seek') ∧
      (∀ j, active.testBit j = true → active'.testBit j = true) ∧
      (∀ x ∈ l, active'.testBit x.1 = true → ∀ c ∈ boundChildren x.2, active'.testBit c = true) ∧
      (∀ x ∈ l, active'.testBit x.1 = true → ∀ t, x.2 = .term t → seek'.testBit t = true) ∧
      ∀ t, seek'.testBit t = true → seek.testBit t = true ∨ ∃ x ∈ l, x.2 = .term t := by
  induction l with
  | nil =>
    exact ⟨active, seek, rfl, fun _ => id, fun x hx => absurd hx List.not_mem_nil,
      fun x hx => absurd hx List.not_mem_nil, fun _ => .inl⟩
  | cons y l ih =>
    obtain ⟨hs, hw, hb⟩ := hl
    rw [List.map_cons, List.pairwise_cons] at hs
    obtain ⟨a, s, hrun, hmono, hclosed, hterm, hsub⟩ := ih ⟨hs.2,
      fun x hx => hw x (List.mem_cons_of_mem _ hx), fun x hx => hb x (List.mem_cons_of_mem _ hx)⟩
    obtain ⟨a', s', hstep, ha, ht⟩ := @seekStep_spec a s y (hw y List.mem_cons_self)
    -- what a node adds is below it, so it is settled for all later nodes
    have hold : ∀ x ∈ y :: l, a'.testBit x.1 = true → a.testBit x.1 = true := by
      intro x hx hx'
      refine ((ha _).1 hx').resolve_right fun h => ?_
      have hlt := hb y List.mem_cons_self _ h.2
      rcases List.mem_cons.1 hx with rfl | hx
      · exact Nat.lt_irrefl _ hlt
      · exact Nat.lt_asymm hlt (hs.1 _ (List.mem_map.2 ⟨x, hx, rfl⟩))
    refine ⟨a', s', ?_, fun j hj => (ha j).2 (.inl (hmono j hj)), fun x hx hx' c hc => ?_,
      fun x hx hx' t htx => ?_, fun t htb => ?_⟩
    · rw [List.foldr_cons, hrun, hstep]
    · have hx₁ := hold x hx hx'
      rcases List.mem_cons.1 hx with rfl | hx
      · exact (ha c).2 (.inr ⟨hx₁, hc⟩)
      · exact (ha c).2 (.inl (hclosed x hx hx₁ c hc))
    · have hx₁ := hold x hx hx'
      rcases List.mem_cons.1 hx with rfl | hx
      · exact (ht t).2 (.inr ⟨hx₁, htx⟩)
      · exact (ht t).2 (.inl (hterm x hx hx₁ t htx))
    · rcases (ht t).1 htb with h | ⟨-, h⟩
      · exact (hsub t h).imp_right fun hx => hx.imp fun _ hx => ⟨List.mem_cons_of_mem _ hx.1, hx.2⟩
      · exact .inr ⟨y, List.mem_cons_self, h⟩

end

/-! ### The program of a query -/

/-- The document holds the name; no document holds the missing one. -/
def holdsName (d : Document) (name : Option Text) : Bool :=
  name.any fun t => d.any fun u => decide (u = t)

section

variable {names : List (Option Text)} {kind : Kind} {node : Node} {i : ℕ} {q : Query}
  {p : ScanProgram} {d : Document}

theorem Compiles.written (h : Compiles names kind node) : Written node = true := by
  cases h <;> rfl

theorem Compiles.direct (h : Compiles names kind node) : Direct kind = true := by
  cases h <;> rfl

theorem Compiles.valid (h : Compiles names kind node) (hc : ∀ c ∈ kind.children, c < i) :
    node.valid names.length i = true := by
  cases h with
  | none h => exact decide_eq_true (List.getElem?_eq_some_iff.1 h).1
  | term h => exact decide_eq_true (List.getElem?_eq_some_iff.1 h).1
  | not c => simpa [Node.valid, Kind.children] using hc
  | and l r => simpa [Node.valid, Kind.children] using hc
  | or l r => simpa [Node.valid, Kind.children] using hc

/-- A compiled node has the value of the node it stands for. -/
theorem Compiles.value (h : Compiles names kind node) (values : List Bool) :
    oracleNode d values kind =
      nodeValue true (fun t => holdsName d (names.getD t Option.none)) values node := by
  have hget : ∀ {t : ℕ} {name : Option Text}, names[t]? = some name →
      names.getD t Option.none = name :=
    fun h => by rw [List.getD_eq_getElem?_getD, h, Option.getD_some]
  cases h with
  | none h => exact (congrArg (holdsName d) (hget h)).symm
  | term h => exact (congrArg (holdsName d) (hget h)).symm
  | not c => rfl
  | and l r => rfl
  | or l r => rfl

theorem validateFrom_of_valid {program : List Node} {terms : ℕ}
    (h : ∀ (j : ℕ) (n : Node), program[j]? = some n → n.valid terms (i + j) = true) :
    validateFrom terms i program = .ok ⟨⟩ := by
  induction program generalizing i with
  | nil => rfl
  | cons node program ih =>
    have h0 : node.valid terms i = true := h 0 node rfl
    rw [validateFrom, if_pos h0]
    refine ih fun j n hj => ?_
    have := h (j + 1) n hj
    rwa [← Nat.add_assoc, Nat.add_right_comm] at this

/-- What a compiled query consists of. -/
structure Compiled (q : Query) (p : ScanProgram) : Prop where
  small : q.nodeCount ≤ maxNodes
  names_le : p.names.length ≤ q.nodeCount
  nodes : List.Forall₂ (Compiles p.names) q.nodes p.nodes
  isUniverse : p.isUniverse = (inOrder unboundedNode q.nodes).getD q.root false
  sought : ∃ active, (indexed p.nodes).foldr seekStep (some (2 ^ q.root, 0)) =
    some (active, p.seekTerms)

theorem compiled_of_compile (h : compile q = some p) : Compiled q p := by
  unfold compile at h
  split_ifs at h with hsize
  cases hn : compileNodes q.nodes [] [] [] with
  | none => rw [hn] at h; cases h
  | some x =>
    obtain ⟨nodes, names, universes⟩ := x
    rw [hn] at h
    dsimp only at h
    cases hs : (indexed nodes).foldr seekStep (some (2 ^ q.root, 0)) with
    | none =>
      rw [hs] at h
      cases h
    | some y =>
      obtain ⟨active, seek⟩ := y
      rw [hs] at h
      cases h
      obtain ⟨-, hlen, ⟨ms, hms, hc⟩, rfl⟩ := compileNodes_spec hn
      obtain rfl : nodes = ms := hms
      rw [List.length_nil, Nat.zero_add] at hlen
      exact ⟨Nat.le_of_not_lt fun hlt => hsize (.inl hlt), hlen, hc, rfl, active, hs⟩

theorem kind_at {nodes : List Node} (h : List.Forall₂ (Compiles names) q.nodes nodes)
    (hi : nodes[i]? = some node) : ∃ kind, q.nodes[i]? = some kind ∧ Compiles names kind node := by
  obtain ⟨hlt, rfl⟩ := List.getElem?_eq_some_iff.1 hi
  have hlt' : i < q.nodes.length := h.length_eq ▸ hlt
  exact ⟨q.nodes[i], List.getElem?_eq_getElem hlt', h.get hlt' hlt⟩

/-- The backward pass meets written nodes, each above its operands. -/
theorem passed_of_compiles {nodes : List Node} (h : List.Forall₂ (Compiles names) q.nodes nodes) :
    Passed (indexed nodes) where
  sorted := indexed_fst
  written x hx := by
    obtain ⟨kind, -, hc⟩ := kind_at h (mem_indexed.1 hx)
    exact hc.written
  below x hx c hc := by
    obtain ⟨kind, hk, hcomp⟩ := kind_at h (mem_indexed.1 hx)
    refine q.child_lt _ _ hk c ?_
    obtain ⟨j, node⟩ := x
    cases hcomp with
    | none => exact absurd hc List.not_mem_nil
    | term => exact absurd hc List.not_mem_nil
    | not => exact absurd hc List.not_mem_nil
    | and => exact hc
    | or => exact hc

/-- The compiler takes exactly the queries of at most 64 nodes without prefixes and phrases.
(`supports_exact` in the source.) -/
theorem compile_isSome_iff : (compile q).isSome ↔
    q.nodeCount ≤ maxNodes ∧ ∀ k ∈ q.nodes, Direct k = true := by
  constructor
  · intro h
    obtain ⟨p, hp⟩ := Option.isSome_iff_exists.1 h
    have hc := compiled_of_compile hp
    refine ⟨hc.small, fun k hk => ?_⟩
    obtain ⟨i, hi, rfl⟩ := List.mem_iff_getElem.1 hk
    exact (hc.nodes.get hi (hc.nodes.length_eq ▸ hi)).direct
  · rintro ⟨hsmall, hd⟩
    have hsize : ¬ (maxNodes < q.nodeCount ∨ q.root + 1 ≠ q.nodeCount) := by
      rw [not_or, not_not]
      exact ⟨Nat.not_lt.2 hsmall, q.root_last⟩
    have hnodes : (compileNodes q.nodes [] [] []).isSome := compileNodes_isSome_iff.2 hd
    obtain ⟨⟨nodes, names, universes⟩, hn⟩ := Option.isSome_iff_exists.1 hnodes
    obtain ⟨-, -, ⟨ms, hms, hc⟩, -⟩ := compileNodes_spec hn
    obtain rfl : nodes = ms := hms
    obtain ⟨active, seek, hs, -⟩ := @seek_spec _ (2 ^ q.root) 0 (passed_of_compiles hc)
    rw [compile, if_neg hsize, hn]
    dsimp only
    rw [hs]
    rfl

/-- A compiled program is one that the group kernel accepts. -/
theorem compile_valid (h : compile q = some p) :
    validateProgram p.names.length p.nodes = .ok ⟨⟩ := by
  obtain ⟨hsmall, hnames, hc, -⟩ := compiled_of_compile h
  have hlen : p.nodes.length = q.nodeCount := hc.length_eq.symm
  have hroot : q.root + 1 = q.nodeCount := q.root_last
  have hgood : ¬ (p.nodes = [] ∨ maxNodes < p.nodes.length ∨ maxNodes < p.names.length) := by
    rintro (hn | hn | hn)
    · rw [hn, List.length_nil] at hlen
      omega
    · omega
    · omega
  rw [validateProgram, if_neg hgood]
  refine validateFrom_of_valid fun j node hj => ?_
  obtain ⟨kind, hk, hcomp⟩ := kind_at hc hj
  rw [Nat.zero_add]
  exact hcomp.valid (q.child_lt j kind hk)

/-- **The program has the value of the query.**  Where the terms of the program are those whose
names the document holds, the program is true exactly if the document matches. -/
theorem compile_preserves (h : compile q = some p) (d : Document) :
    programValue true (fun t => holdsName d (p.names.getD t none)) p.nodes = oracle d q := by
  have hc := (compiled_of_compile h).nodes
  have hvalues : oracleValues d q.nodes =
      programValues true (fun t => holdsName d (p.names.getD t none)) p.nodes :=
    inOrder_congr (hc.imp fun _ _ hcomp values => hcomp.value values)
  have hlen : p.nodes.length = q.root + 1 := hc.length_eq.symm.trans q.root_last.symm
  rw [programValue, oracle, hvalues, hlen, Nat.add_sub_cancel]

/-- The node is a universe. -/
def unboundedAt (q : Query) (i : ℕ) : Bool := (inOrder unboundedNode q.nodes).getD i false

theorem unboundedAt_eq (h : q.nodes[i]? = some kind) :
    unboundedAt q i = unboundedNode (inOrder unboundedNode q.nodes) kind := by
  refine inOrder_getD h ?_
  have hc := q.child_lt i kind h
  cases kind with
  | and l r =>
    simp only [unboundedNode, getD_take (hc l (by simp [Kind.children])),
      getD_take (hc r (by simp [Kind.children]))]
  | or l r =>
    simp only [unboundedNode, getD_take (hc l (by simp [Kind.children])),
      getD_take (hc r (by simp [Kind.children]))]
  | _ => rfl

/-- A node that is true and no universe stands for a term that the document holds, or has an operand
that bounds it and is again true and no universe. -/
theorem Compiles.descend (h : Compiles names kind node) (hk : q.nodes[i]? = some kind)
    (hu : unboundedAt q i = false) (hv : oracleAt d q i = true) :
    (∃ t, node = .term t ∧ holdsName d (names.getD t Option.none) = true) ∨
      ∃ c ∈ boundChildren node, c < i ∧ unboundedAt q c = false ∧ oracleAt d q c = true := by
  have hc := q.child_lt i kind hk
  have hval := (oracleAt_eq hk).symm.trans hv
  rw [unboundedAt_eq hk] at hu
  rw [h.value] at hval
  cases h with
  | none => exact .inl ⟨_, rfl, hval⟩
  | term => exact .inl ⟨_, rfl, hval⟩
  | not => cases hu
  | and l r =>
    obtain ⟨hl, hr⟩ := Bool.and_eq_true_iff.1 hval
    rcases Bool.and_eq_false_iff.1 hu with hul | hur
    · exact .inr ⟨l, by simp [boundChildren], hc l (by simp [Kind.children]), hul, hl⟩
    · exact .inr ⟨r, by simp [boundChildren], hc r (by simp [Kind.children]), hur, hr⟩
  | or l r =>
    obtain ⟨hul, hur⟩ := Bool.or_eq_false_iff.1 hu
    rcases Bool.or_eq_true_iff.1 hval with hl | hr
    · exact .inr ⟨l, by simp [boundChildren], hc l (by simp [Kind.children]), hul, hl⟩
    · exact .inr ⟨r, by simp [boundChildren], hc r (by simp [Kind.children]), hur, hr⟩

/-- Unless the program is a universe, a document that matches holds a term that is sought. -/
theorem compile_sought (h : compile q = some p) (hu : p.isUniverse = false)
    (hd : oracle d q = true) :
    ∃ t, p.seekTerms.testBit t = true ∧ holdsName d (p.names.getD t none) = true := by
  obtain ⟨-, -, hc, huniverse, active, hrun⟩ := compiled_of_compile h
  obtain ⟨active', seek', hrun', hmono, hclosed, hterm, -⟩ :=
    @seek_spec _ (2 ^ q.root) 0 (passed_of_compiles hc)
  cases hrun.symm.trans hrun'
  -- from an active node down to a term; the pass kept every operand on the way active
  have hdown : ∀ i, i < q.nodes.length → active.testBit i = true → unboundedAt q i = false →
      oracleAt d q i = true →
      ∃ t, p.seekTerms.testBit t = true ∧ holdsName d (p.names.getD t none) = true := by
    intro i
    induction i using Nat.strong_induction_on with
    | _ i ih =>
      intro hi hact hunb hval
      have hi' : i < p.nodes.length := hc.length_eq ▸ hi
      have hnode : p.nodes[i]? = some p.nodes[i] := List.getElem?_eq_getElem hi'
      obtain ⟨kind, hk, hcomp⟩ := kind_at hc hnode
      have hmem : (i, p.nodes[i]) ∈ indexed p.nodes := mem_indexed.2 hnode
      rcases hcomp.descend hk hunb hval with ⟨t, ht, hholds⟩ | ⟨c, hcb, hlt, hcu, hcv⟩
      · exact ⟨t, hterm _ hmem hact t ht, hholds⟩
      · exact ih c hlt (hlt.trans hi) (hclosed _ hmem hact c hcb) hcu hcv
  have hlt : q.root < q.nodes.length := by
    have := q.root_last
    omega
  have hroot : active.testBit q.root = true := hmono _ (by
    rw [Nat.testBit_two_pow]
    exact decide_eq_true rfl)
  exact hdown q.root hlt hroot (huniverse.symm.trans hu) hd

end

end Grouped

end PinCore
