import PinCore.Document

/-!
# Queries

A parsed query is a flat tree: children come before their parents, the root is the last node,
and every other node has one parent.  `oracle` is the document-at-a-time evaluator;
`CandidatePlan.build` chooses a term cover.  Work and memory limits of the evaluator are not
modelled; the memory budget of the plans is, over arbitrary element sizes.
-/

namespace PinCore

/-- The node kinds of a parsed query. -/
inductive Kind where
  | none
  | term (text : Text)
  | prefixed (text : Text)
  | phrase (terms : List Text)
  | not (child : ℕ)
  | and (left right : ℕ)
  | or (left right : ℕ)
  deriving DecidableEq, Repr

/-- The child nodes of a node. -/
def Kind.children : Kind → List ℕ
  | not c => [c]
  | and l r => [l, r]
  | or l r => [l, r]
  | _ => []

/-- A parsed query. -/
structure Query where
  nodes : List Kind
  root : ℕ
  root_last : root + 1 = nodes.length
  child_lt : ∀ (i : ℕ) (k : Kind), nodes[i]? = some k → ∀ c ∈ k.children, c < i
  child_nodup : (nodes.flatMap Kind.children).Nodup
  phrase_ne : ∀ ts, Kind.phrase ts ∈ nodes → ts ≠ []

namespace Query

/-- The number of nodes. -/
def nodeCount (q : Query) : ℕ := q.nodes.length

/-- The node at the root. -/
def rootKind (q : Query) : Kind := q.nodes.getD q.root .none

/-- The query is one term. -/
def isSingleTerm (q : Query) : Bool :=
  match q.rootKind with
  | .term _ => true
  | _ => false

end Query

/-! ### The oracle -/

/-- Some window of consecutive tokens equals the phrase. -/
def phraseIn (terms : List Text) : Document → Bool
  | [] => false
  | t :: ts => terms.isPrefixOf (t :: ts) || phraseIn terms ts

theorem isPrefixOf_iff {ts : List Text} {d : Document} :
    ts.isPrefixOf d = true ↔ ∀ i, i < ts.length → d[i]? = ts[i]? := by
  rw [List.isPrefixOf_iff_prefix, List.prefix_iff_getElem?]
  refine forall_congr' fun i => forall_congr' fun hi => ?_
  rw [List.getElem?_eq_getElem hi]

/-- A phrase is found where its terms stand in a row. -/
theorem phraseIn_iff {ts : List Text} {d : Document} (hne : ts ≠ []) :
    phraseIn ts d = true ↔ ∃ start, ∀ i, i < ts.length → d[start + i]? = ts[i]? := by
  induction d with
  | nil =>
    refine ⟨nofun, fun ⟨start, h⟩ => ?_⟩
    have hpos := List.length_pos_iff.2 hne
    have := h 0 hpos
    rw [List.getElem?_nil, List.getElem?_eq_getElem hpos] at this
    cases this
  | cons t d ih =>
    rw [phraseIn, Bool.or_eq_true, isPrefixOf_iff, ih]
    constructor
    · rintro (h | ⟨start, h⟩)
      · exact ⟨0, fun i hi => by rw [Nat.zero_add, h i hi]⟩
      · exact ⟨start + 1, fun i hi => by
          rw [Nat.add_right_comm, List.getElem?_cons_succ, h i hi]⟩
    · rintro ⟨start, h⟩
      cases start with
      | zero => exact .inl fun i hi => by rw [← h i hi, Nat.zero_add]
      | succ start =>
        exact .inr ⟨start, fun i hi => by
          rw [← h i hi, Nat.add_right_comm, List.getElem?_cons_succ]⟩

/-- The value of one node, given the values of the nodes before it. -/
def oracleNode (d : Document) (values : List Bool) : Kind → Bool
  | .none => false
  | .term t => d.any fun u => decide (u = t)
  | .prefixed t => d.any fun u => t.isPrefixOf u
  | .phrase ts => phraseIn ts d
  | .not c => !values.getD c false
  | .and l r => values.getD l false && values.getD r false
  | .or l r => values.getD l false || values.getD r false

/-- The values of all nodes in order. -/
def oracleValues (d : Document) (nodes : List Kind) : List Bool :=
  nodes.foldl (fun values k => values ++ [oracleNode d values k]) []

/-- The evaluator accepts the document. -/
def oracle (d : Document) (q : Query) : Bool := (oracleValues d q.nodes).getD q.root false

/-! ### Memory budgets -/

/-- Element sizes of the buffers that the plans charge. -/
structure Sizes where
  usize : ℕ
  text : ℕ
  node : ℕ
  flag : ℕ
  cursor : ℕ
  task : ℕ

/-- An accounting counter. -/
structure MemoryBudget where
  limit : ℕ
  used : ℕ

namespace MemoryBudget

/-- A budget of which nothing is used. -/
def new (limit : ℕ) : MemoryBudget := ⟨limit, 0⟩

/-- Charge an exactly reserved vector. -/
def vector (b : MemoryBudget) (count size : ℕ) : Except Error MemoryBudget :=
  if b.used + count * size ≤ b.limit then .ok { b with used := b.used + count * size }
  else .error .budget

theorem of_vector {b b' : MemoryBudget} {count size : ℕ} (h : b.vector count size = .ok b') :
    b.used + count * size ≤ b.limit ∧ b' = { b with used := b.used + count * size } := by
  unfold vector at h
  split_ifs at h with hle
  cases h
  exact ⟨hle, rfl⟩

/-- Gives charged bytes back. -/
def release (b : MemoryBudget) (bytes : ℕ) : Except Error MemoryBudget :=
  if bytes ≤ b.used then .ok { b with used := b.used - bytes } else .error .budget

/-- What is left of the budget. -/
def remaining (b : MemoryBudget) : ℕ := b.limit - b.used

end MemoryBudget

/-! ### Candidate covers -/

/-- A union of term postings, or the complete indexed universe. -/
inductive CandidatePlan where
  | empty
  | universal
  | terms (ts : List Text)
  deriving DecidableEq, Repr

namespace CandidatePlan

/-- The cost of covering by the universe: `usize::MAX`. -/
def all : ℕ := 18446744073709551615

/-- The cover cost of one node, given the costs before it. -/
def costNode (costs : List ℕ) : Kind → Except Error ℕ
  | .none => .ok 0
  | .term _ => .ok 1
  | .phrase ts => .ok (if ts = [] then 0 else 1)
  | .prefixed _ => .ok all
  | .not _ => .ok all
  | .and l r => .ok (min (costs.getD l 0) (costs.getD r 0))
  | .or l r =>
    if costs.getD l 0 = all ∨ costs.getD r 0 = all then .ok all
    else if all < costs.getD l 0 + costs.getD r 0 then .error (.limit "candidate covers")
    else .ok (costs.getD l 0 + costs.getD r 0)

/-- The bottom-up cost pass. -/
def costsFrom : List ℕ → List Kind → Except Error (List ℕ)
  | costs, [] => .ok costs
  | costs, k :: ks => do
    let c ← costNode costs k
    costsFrom (costs ++ [c]) ks

/-- The top-down collection pass.  Every node has one parent, so `fuel` bounds the pops. -/
def collect (nodes : List Kind) (costs : List ℕ) : ℕ → List ℕ → List Text → Except Error (List Text)
  | _, [], acc => .ok acc
  | 0, _ :: _, _ => .error .invalidState
  | fuel + 1, index :: pending, acc =>
    if costs.getD index 0 = 0 then collect nodes costs fuel pending acc
    else
      match nodes.getD index .none with
      | .term t => collect nodes costs fuel pending (acc ++ [t])
      | .phrase ts =>
        collect nodes costs fuel pending (match ts.head? with
          | some t => acc ++ [t]
          | none => acc)
      | .and l r =>
        collect nodes costs fuel
          ((if costs.getD l 0 ≤ costs.getD r 0 then l else r) :: pending) acc
      | .or l r => collect nodes costs fuel (l :: r :: pending) acc
      | .none | .prefixed _ | .not _ => .error .invalidState

/-- Builds a necessary-condition cover. -/
def build (z : Sizes) (q : Query) (memoryBytes : ℕ) : Except Error CandidatePlan := do
  let budget ← (MemoryBudget.new memoryBytes).vector q.nodeCount z.usize
  let costs ← costsFrom [] q.nodes
  let cost := costs.getD q.root 0
  if cost = 0 then .ok .empty
  else if cost = all then .ok .universal
  else do
    let budget ← budget.vector q.nodeCount z.usize
    let _ ← budget.vector cost z.text
    let terms ← collect q.nodes costs (q.nodeCount + 1) [q.root] []
    -- sorting and removing repeats leaves the distinct terms in byte order
    .ok (.terms (directory terms))

end CandidatePlan

end PinCore
