import PinCore.Mutable.Reader

/-!
# Cursor plans

`Plan::build` simplifies a query to a tree of term cursors; `Plan::open` positions the cursors
on the captured posting chains; `Plan::seek` moves them forward to the next owner of the
denoted set, through the one-term and two-term fast paths or the continuation interpreter.  The
loops of the cursors and of the interpreter carry a fuel argument.
-/

namespace PinCore

/-! ### Plan nodes -/

/-- A node of a cursor plan; a cursor is an index. -/
inductive Node where
  | empty
  | universal
  | term (text : Text) (cursor : Option ℕ)
  | and (left right : ℕ)
  | or (left right : ℕ)
  deriving DecidableEq, Repr

/-- Index of the empty node. -/
def emptyNode : ℕ := 0

/-- Index of the universe node. -/
def universalNode : ℕ := 1

/-- The node is a term. -/
def Node.isTerm : Node → Bool
  | term .. => true
  | _ => false

namespace Plan

/-- Adds the node of a term. -/
def addTerm (nodes : List Node) (text : Text) : List Node × ℕ :=
  (nodes ++ [.term text none], nodes.length)

/-- Adds a conjunction or disjunction, simplified by its identity and absorbing operands. -/
def combine (nodes : List Node) (left right : ℕ) (and : Bool) : List Node × ℕ :=
  let identity := if and then universalNode else emptyNode
  let absorbing := if and then emptyNode else universalNode
  if nodes.getD left .empty = nodes.getD right .empty then (nodes, left)
  else if left = absorbing ∨ right = absorbing then (nodes, absorbing)
  else if left = identity then (nodes, right)
  else if right = identity then (nodes, left)
  else (nodes ++ [if and then .and left right else .or left right], nodes.length)

/-- A phrase intersects its terms. -/
def addPhrase : List Node → ℕ → List Text → List Node × ℕ
  | nodes, result, [] => (nodes, result)
  | nodes, result, t :: ts =>
    let (nodes, next) := addTerm nodes t
    let (nodes, result) := combine nodes result next true
    addPhrase nodes result ts

/-- The plan node of one query node, given the plan nodes of the nodes before it. -/
def addNode (nodes : List Node) (mapped : List ℕ) : Kind → List Node × ℕ
  | .none => (nodes, emptyNode)
  | .prefixed _ => (nodes, universalNode)
  | .not _ => (nodes, universalNode)
  | .term t => addTerm nodes t
  | .phrase ts =>
    let (nodes, result) := addPhrase nodes universalNode ts
    (nodes, if ts = [] then emptyNode else result)
  | .and l r => combine nodes (mapped.getD l 0) (mapped.getD r 0) true
  | .or l r => combine nodes (mapped.getD l 0) (mapped.getD r 0) false

/-- Adds the nodes of a query in order; `mapped` holds the indices of their counterparts. -/
def addNodes : List Node → List ℕ → List Kind → List Node × List ℕ
  | nodes, mapped, [] => (nodes, mapped)
  | nodes, mapped, k :: ks =>
    let (nodes, index) := addNode nodes mapped k
    addNodes nodes (mapped ++ [index]) ks

/-- Marks the operands of one active node. -/
def markNode (nodes : List Node) (active : List Bool) (index : ℕ) : List Bool :=
  if active.getD index false = true then
    match nodes.getD index .empty with
    | .and l r => (active.set l true).set r true
    | .or l r => (active.set l true).set r true
    | _ => active
  else active

/-- Marks the nodes reachable from `root`, parents before children. -/
def markActive (nodes : List Node) (root : ℕ) : List Bool :=
  (List.range nodes.length).reverse.foldl (markNode nodes)
    ((List.replicate nodes.length false).set root true)

/-- Numbers the cursors of the active term nodes in node order. -/
def assignCursors : List Node → List Bool → ℕ → List Node × ℕ
  | [], _, count => ([], count)
  | node :: nodes, active, count =>
    match node, active.headD false with
    | .term text _, true =>
      let (rest, total) := assignCursors nodes active.tail (count + 1)
      (.term text (some count) :: rest, total)
    | node, _ =>
      let (rest, total) := assignCursors nodes active.tail count
      (node :: rest, total)

/-- Buffer capacity of the plan nodes: two constants, one node for each query node, and two for
each phrase term. -/
def capacity (q : Query) : ℕ :=
  q.nodeCount + 2 + (q.nodes.map fun k => match k with
    | .phrase ts => 2 * ts.length
    | _ => 0).sum

/-- Roots that never enter the continuation interpreter. -/
def direct (nodes : List Node) (root : ℕ) : Bool :=
  match nodes.getD root .empty with
  | .and l r => (nodes.getD l .empty).isTerm && (nodes.getD r .empty).isTerm
  | .or l r => (nodes.getD l .empty).isTerm && (nodes.getD r .empty).isTerm
  | _ => true

end Plan

/-! ### Cursors -/

/-- A decoder over one posting page. -/
structure OwnedPostings where
  page : Page
  rest : List OwnerRef

/-- The postings of a page from the first one on. -/
def OwnedPostings.new (p : Page) : Except Error OwnedPostings := do
  let refs ← p.postingRefs
  .ok ⟨p, refs⟩

/-- The direct coordinate of the last decoded owner, if the page has coordinates. -/
def OwnedPostings.currentDirect (o : OwnedPostings) (layout : HeapLayout) :
    Except Error (Option (Option RootTid)) := do
  if o.page.kind ≠ .directPostings then .ok none
  else
    let count ← o.page.postingCount
    if count < o.rest.length + 1 then .error .invalidState
    else
      let root ← o.page.directRoot (count - (o.rest.length + 1)) layout
      .ok (some root)

/-- Position on the captured chain of one term. -/
structure ChainCursor where
  reference : TermRef
  block : ℕ
  tail : ℕ
  remaining : ℕ
  previous : OwnerRef
  inlineSecond : Option OwnerRef
  page : Option OwnedPostings

/-- A cursor over the postings of a term: the current one and the chain behind it. -/
structure Cursor where
  current : Option OwnerRef
  chain : Option ChainCursor

/-- A cursor over no postings. -/
def Cursor.empty : Cursor := ⟨none, none⟩

/-- Equal coordinates must identify the same owner incarnation. -/
def compareOwner (left right : OwnerRef) : Except Error Ordering :=
  if left.posLt right then .ok .lt
  else if right.posLt left then .ok .gt
  else if left.incarnation ≠ right.incarnation then .error .invalidState
  else .ok .eq

/-- Skips the rest of a direct page whose last owner is before the target. -/
def ChainCursor.skipDirectBefore (c : ChainCursor) (target : OwnerRef) (exclusive : Bool) :
    Except Error ChainCursor :=
  match c.page with
  | none => .ok c
  | some p =>
    if p.page.kind ≠ .directPostings then .ok c
    else do
      let (_, last) ← p.page.directEndpoints
      let order ← compareOwner last target
      if order = .gt ∨ (order = .eq ∧ exclusive = false) then .ok c
      else
        let back ← compareOwner c.previous last
        if back = .gt ∨ last.incarnation < c.previous.incarnation then .error .invalidState
        else
          let (next, remaining) ← postingNext p.page c.tail c.remaining
          .ok { c with previous := last, block := next.getD noBlock, remaining, page := none }

/-- The next posting of an open page, checked against the previous one. -/
def ChainCursor.accept (c : ChainCursor) (owner : OwnerRef) : Except Error PUnit := do
  let order ← compareOwner c.previous owner
  if order ≠ .lt ∨ owner.incarnation ≤ c.previous.incarnation then .error .invalidState
  else .ok ⟨⟩

/-- Moves to the next posting of the chain. -/
def ChainCursor.advance : ℕ → ChainCursor → Rd (Option OwnerRef × ChainCursor)
  | 0, _ => Obs.fail .invalidState
  | fuel + 1, c => do
    match c.inlineSecond with
    | some second =>
      Obs.ofExcept (c.accept second)
      return (some second, { c with inlineSecond := none, previous := second })
    | none =>
      match c.page with
      | some ⟨p, owner :: rest⟩ =>
        Obs.ofExcept (c.accept owner)
        return (some owner, { c with previous := owner, page := some ⟨p, rest⟩ })
      | some ⟨p, []⟩ =>
        let (next, remaining) ← Obs.ofExcept (postingNext p c.tail c.remaining)
        advance fuel { c with block := next.getD noBlock, remaining, page := none }
      | none =>
        if c.block = noBlock then return (none, c)
        else
          let p ← loadPosting c.block c.reference
          let open' ← Obs.ofExcept (OwnedPostings.new p)
          advance fuel { c with page := some open' }

/-- Moves a cursor to the first owner at or after the target. -/
def Cursor.seek : ℕ → Cursor → Option OwnerRef → Bool → Rd (Option OwnerRef × Cursor)
  | 0, _, _, _ => Obs.fail .invalidState
  | fuel + 1, c, target, exclusive => do
    match c.current, target with
    | some current, some target =>
      let order ← Obs.ofExcept (compareOwner current target)
      if order = .gt ∨ (order = .eq ∧ exclusive = false) then return (c.current, c)
      else
        match c.chain with
        | none => Obs.fail .invalidState
        | some chain =>
          let chain ← Obs.ofExcept (chain.skipDirectBefore target exclusive)
          let (current, chain) ← chain.advance fuel
          seek fuel ⟨current, some chain⟩ (some target) exclusive
    | current, _ => return (current, c)

/-! ### Seeking -/

/-- A cursor plan with its cursors. -/
structure Plan where
  nodes : List Node
  cursors : List Cursor
  root : ℕ
  scratchBytes : ℕ

/-- Continuations of the interpreter. -/
inductive Task where
  | seek (node : ℕ) (target : Option OwnerRef) (exclusive : Bool)
  | andLeft (node right : ℕ)
  | andRight (node : ℕ) (left : OwnerRef)
  | orLeft (right : ℕ) (target : Option OwnerRef) (exclusive : Bool)
  | orRight (left : Option OwnerRef)
  deriving DecidableEq, Repr

namespace Plan

/-- Builds the cursor plan of a query within a memory budget. -/
def build (z : Sizes) (q : Query) (memoryBytes : ℕ) : Except Error Plan := do
  let budget ← (MemoryBudget.new memoryBytes).vector (capacity q) z.node
  let budget ← budget.vector q.nodeCount z.usize
  let (nodes, mapped) := addNodes [.empty, .universal] [] q.nodes
  let root := mapped.getD q.root 0
  let budget ← budget.release (q.nodeCount * z.usize)
  let budget ← budget.vector nodes.length z.flag
  let active := markActive nodes root
  let (nodes, count) := assignCursors nodes active 0
  let budget ← budget.vector count z.cursor
  let budget ← budget.release (nodes.length * z.flag)
  let budget ← if direct nodes root then .ok budget else budget.vector nodes.length z.task
  .ok ⟨nodes, List.replicate count .empty, root, budget.remaining⟩

/-- Seek one cursor of the plan. -/
def seekCursor (fuel : ℕ) (cursors : List Cursor) (i : Option ℕ) (target : Option OwnerRef)
    (exclusive : Bool) : Rd (Option OwnerRef × List Cursor) := do
  match i with
  | none => Obs.fail .invalidState
  | some i =>
    match cursors[i]? with
    | none => Obs.fail .invalidState
    | some c =>
      let (value, c) ← c.seek fuel target exclusive
      return (value, cursors.set i c)

/-- The loop of `seek_pair_and`. -/
def pairAndFrom (left right : Option ℕ) : ℕ → List Cursor → Option OwnerRef → Option OwnerRef →
    Rd (Option OwnerRef × List Cursor)
  | 0, _, _, _ => Obs.fail .invalidState
  | fuel + 1, cursors, leftValue, rightValue => do
    match leftValue, rightValue with
    | some l, some r =>
      match ← Obs.ofExcept (compareOwner l r) with
      | .eq => return (some l, cursors)
      | .lt =>
        let (leftValue, cursors) ← seekCursor fuel cursors left (some r) false
        pairAndFrom left right fuel cursors leftValue (some r)
      | .gt =>
        let (rightValue, cursors) ← seekCursor fuel cursors right (some l) false
        pairAndFrom left right fuel cursors (some l) rightValue
    | _, _ => return (none, cursors)

/-- The least owner past the target in both cursors. -/
def seekPairAnd (fuel : ℕ) (cursors : List Cursor) (left right : Option ℕ)
    (target : Option OwnerRef) : Rd (Option OwnerRef × List Cursor) := do
  Obs.ensure (left ≠ right) .invalidState
  let (leftValue, cursors) ← seekCursor fuel cursors left target true
  let (rightValue, cursors) ← seekCursor fuel cursors right target true
  pairAndFrom left right fuel cursors leftValue rightValue

/-- The smaller of two optional owners. -/
def smaller (left right : Option OwnerRef) : Except Error (Option OwnerRef) :=
  match left, right with
  | some l, some r => do
    let order ← compareOwner l r
    .ok (some (if order = .gt then r else l))
  | left, right => .ok (left.or right)

/-- The least owner past the target in one of the cursors. -/
def seekPairOr (fuel : ℕ) (cursors : List Cursor) (left right : Option ℕ)
    (target : Option OwnerRef) : Rd (Option OwnerRef × List Cursor) := do
  Obs.ensure (left ≠ right) .invalidState
  let (leftValue, cursors) ← seekCursor fuel cursors left target true
  let (rightValue, cursors) ← seekCursor fuel cursors right target true
  let value ← Obs.ofExcept (smaller leftValue rightValue)
  return (value, cursors)

/-- The continuation interpreter. -/
def interpret (nodes : List Node) : ℕ → List Cursor → List Task → Option OwnerRef →
    Rd (Option OwnerRef × List Cursor)
  | _, cursors, [], value => return (value, cursors)
  | 0, _, _ :: _, _ => Obs.fail .invalidState
  | fuel + 1, cursors, task :: tasks, value => do
    match task with
    | .seek node target exclusive =>
      match nodes.getD node .empty with
      | .term _ cursor =>
        let (value, cursors) ← seekCursor fuel cursors cursor target exclusive
        interpret nodes fuel cursors tasks value
      | .and left right =>
        interpret nodes fuel cursors
          (.seek left target exclusive :: .andLeft node right :: tasks) value
      | .or left right =>
        interpret nodes fuel cursors
          (.seek left target exclusive :: .orLeft right target exclusive :: tasks) value
      | .empty => interpret nodes fuel cursors tasks none
      | .universal => Obs.fail .invalidState
    | .andLeft node right =>
      match value with
      | some left =>
        interpret nodes fuel cursors
          (.seek right (some left) false :: .andRight node left :: tasks) value
      | none => interpret nodes fuel cursors tasks value
    | .andRight node left =>
      match value with
      | some right =>
        match ← Obs.ofExcept (compareOwner left right) with
        | .eq => interpret nodes fuel cursors tasks (some left)
        | .lt => interpret nodes fuel cursors (.seek node (some right) false :: tasks) value
        | .gt => Obs.fail .invalidState
      | none => interpret nodes fuel cursors tasks value
    | .orLeft right target exclusive =>
      interpret nodes fuel cursors (.seek right target exclusive :: .orRight value :: tasks) value
    | .orRight left =>
      let value ← Obs.ofExcept (smaller left value)
      interpret nodes fuel cursors tasks value

/-- Moves the plan to the next owner after the target. -/
def seek (fuel : ℕ) (p : Plan) (target : Option OwnerRef) : Rd (Option OwnerRef × Plan) := do
  let (value, cursors) ←
    match p.nodes.getD p.root .empty with
    | .term _ cursor => seekCursor fuel p.cursors cursor target true
    | .and l r =>
      match p.nodes.getD l .empty, p.nodes.getD r .empty with
      | .term _ left, .term _ right => seekPairAnd fuel p.cursors left right target
      | _, _ => interpret p.nodes fuel p.cursors [.seek p.root target true] none
    | .or l r =>
      match p.nodes.getD l .empty, p.nodes.getD r .empty with
      | .term _ left, .term _ right => seekPairOr fuel p.cursors left right target
      | _, _ => interpret p.nodes fuel p.cursors [.seek p.root target true] none
    | .empty | .universal => Obs.fail .invalidState
  return (value, { p with cursors })

/-! ### Opening -/

/-- Sets the cursors of every active node with the given text. -/
def positionAll (text : Text) (cursor : Cursor) : List Node → List Cursor → List Cursor
  | [], cursors => cursors
  | .term t (some i) :: nodes, cursors =>
    positionAll text cursor nodes (if t = text then cursors.set i cursor else cursors)
  | _ :: nodes, cursors => positionAll text cursor nodes cursors

/-- Positions the cursors of the nodes from `rest` on; `seen` holds the active texts before. -/
def openFrom (info : Page) : List Text → List Node → List Cursor → Rd (List Cursor)
  | _, [], cursors => return cursors
  | seen, .term text (some i) :: rest, cursors => do
    if text ∈ seen then openFrom info seen rest cursors
    else
      match ← findTerm info text with
      | none => openFrom info (text :: seen) rest cursors
      | some (dictionary, reference) =>
        let entry ← Obs.ofExcept (dictionary.term reference)
        let remaining ← blocks
        let chain : ChainCursor := {
          reference
          block := if entry.inlineSecond ≠ none then noBlock else entry.head
          tail := entry.tail
          remaining
          previous := entry.first
          inlineSecond := entry.inlineSecond
          page := none }
        openFrom info (text :: seen) rest
          (positionAll text ⟨some entry.first, some chain⟩ (.term text (some i) :: rest) cursors)
  | seen, _ :: rest, cursors => openFrom info seen rest cursors

/-- Opens the cursors of a plan. -/
def openPlan (p : Plan) : Rd Plan := do
  let info ← load 0 .info
  let cursors ← openFrom info [] p.nodes p.cursors
  return { p with cursors }

end Plan

end PinCore
