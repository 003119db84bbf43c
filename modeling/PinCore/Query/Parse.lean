import PinCore.Codec.Bytes
import PinCore.Query.Syntax

/-!
# The query parser

An iterative operator-precedence parser over two explicit stacks that builds a flat tree.  Buffers
and analyses are charged to a memory budget.  Stacks keep their top at the head; vectors are lists
with their capacities beside them.  `parse_exact` relates the parser to the grammar.
-/

namespace PinCore

namespace QuerySyntax

/-- The limits of the parser. -/
structure QueryLimits where
  bytes : ℕ
  nodes : ℕ
  depth : ℕ
  terms : ℕ
  termBytes : ℕ
  memoryBytes : ℕ

instance : Inhabited QueryLimits := ⟨16384, 1024, 64, 256, 1024, 1048576⟩

/-- Element sizes of the buffers that the parser charges. -/
structure ParseSizes where
  node : ℕ
  value : ℕ
  operator : ℕ
  text : ℕ

/-- The operators on the stack; an opening parenthesis is one of them. -/
inductive OperatorKind where
  | opening
  | not
  | and
  | or
  deriving DecidableEq, Repr

/-- An operator with its offset in the input. -/
structure Operator where
  kind : OperatorKind
  offset : ℕ
  deriving DecidableEq, Repr

/-- How strongly an operator binds. -/
def Operator.precedence (o : Operator) : ℕ :=
  match o.kind with
  | .opening => 0
  | .or => 1
  | .and => 2
  | .not => 3

/-- A node with its depth.  (`Node` in the source.) -/
structure ParsedNode where
  kind : Kind
  depth : ℕ

/-- The tree so far with the stacks of operands and operators, their capacities and the budget. -/
structure Builder where
  budget : MemoryBudget
  nodes : List ParsedNode
  nodeCapacity : ℕ
  values : List ℕ
  valueCapacity : ℕ
  operators : List Operator
  operatorCapacity : ℕ
  terms : ℕ

namespace Builder

variable (U : Unicode) (limits : QueryLimits) (sizes : ParseSizes)

/-- The builder before any node. -/
def new : Builder := ⟨.new limits.memoryBytes, [], 0, [], 0, [], 0, 0⟩

/-- The depth of a node. -/
def depthOf (b : Builder) (index : ℕ) : ℕ := (b.nodes[index]?.map (·.depth)).getD 0

/-- The depth of a new node; it is kept in 16 bits. -/
def nodeDepth (b : Builder) (kind : Kind) : Except Error ℕ :=
  let depth := match kind with
    | .not c => b.depthOf c + 1
    | .and l r => max (b.depthOf l) (b.depthOf r) + 1
    | .or l r => max (b.depthOf l) (b.depthOf r) + 1
    | _ => 1
  if 65536 ≤ depth ∨ limits.depth < depth then .error (.limit "query depth") else .ok depth

/-- Appends a node and pushes it as an operand. -/
def addNode (b : Builder) (kind : Kind) : Except Error Builder := do
  let depth ← b.nodeDepth limits kind
  let (nodeCapacity, budget) ←
    reserve b.nodes.length b.nodeCapacity 1 limits.nodes sizes.node b.budget
  let (valueCapacity, budget) ←
    reserve b.values.length b.valueCapacity 1 limits.nodes sizes.value budget
  .ok { b with
    budget := budget
    nodes := b.nodes ++ [⟨kind, depth⟩]
    nodeCapacity := nodeCapacity
    values := b.nodes.length :: b.values
    valueCapacity := valueCapacity }

/-- Takes the operands of an operator from the stack and adds its node. -/
def reduce (b : Builder) (operator : Operator) : Except Error Builder :=
  match operator.kind, b.values with
  | .not, right :: values => { b with values := values }.addNode limits sizes (.not right)
  | .and, right :: left :: values =>
    { b with values := values }.addNode limits sizes (.and left right)
  | .or, right :: left :: values =>
    { b with values := values }.addNode limits sizes (.or left right)
  | _, _ => .error (.querySyntax operator.offset)

/-- Reduces the operators on top that bind at least as strongly as `precedence`. -/
def reduceAbove (precedence : ℕ) : List Operator → Builder → Except Error Builder
  | [], b => .ok { b with operators := [] }
  | top :: operators, b =>
    if precedence ≤ top.precedence then do
      let b ← b.reduce limits sizes top
      reduceAbove precedence operators b
    else .ok { b with operators := top :: operators }

/-- The end of `operator`. -/
def pushOperator (b : Builder) (operator : Operator) : Except Error Builder := do
  let (operatorCapacity, budget) ←
    reserve b.operators.length b.operatorCapacity 1 limits.nodes sizes.operator b.budget
  .ok { b with
    budget := budget
    operators := operator :: b.operators
    operatorCapacity := operatorCapacity }

/-- Pushes an operator; a binary one first reduces those that bind at least as strongly. -/
def operator (b : Builder) (operator : Operator) : Except Error Builder := do
  let b ← if operator.kind = .and ∨ operator.kind = .or then
      reduceAbove limits sizes operator.precedence b.operators b
    else .ok b
  b.pushOperator limits sizes operator

/-- Reduces the operators up to the opening parenthesis. -/
def closeFrom (offset : ℕ) : List Operator → Builder → Except Error Builder
  | [], _ => .error (.querySyntax offset)
  | top :: operators, b =>
    if top.kind = .opening then .ok { b with operators := operators }
    else do
      let b ← b.reduce limits sizes top
      closeFrom offset operators b

/-- Closes a group. -/
def close (b : Builder) (offset : ℕ) : Except Error Builder :=
  closeFrom limits sizes offset b.operators b

/-- Reduces all operators. -/
def reduceAll : List Operator → Builder → Except Error Builder
  | [], b => .ok { b with operators := [] }
  | top :: operators, b => do
    let b ← b.reduce limits sizes top
    reduceAll operators b

/-- Copies the terms of a phrase. -/
def copyTexts : List Text → MemoryBudget → Except Error MemoryBudget
  | [], budget => .ok budget
  | t :: ts, budget => do
    let budget ← budget.vector t.length 1
    copyTexts ts budget

/-- The kind of an analyzed literal, and the budget after its terms were copied. -/
def literalKind (document : Document) (isQuoted isPrefix : Bool) (offset : ℕ)
    (budget : MemoryBudget) : Except Error (Kind × MemoryBudget) :=
  if isQuoted then
    if document = [] then .ok (.none, budget)
    else do
      let budget ← budget.vector document.length sizes.text
      let budget ← copyTexts document budget
      .ok (.phrase document, budget)
  else
    match document with
    | [] => .error (.querySyntax offset)
    | t :: _ => do
      let budget ← budget.vector t.length 1
      .ok (if isPrefix then .prefixed t else .term t, budget)

/-- Adds the node of a literal after its analysis. -/
def literal (b : Builder) (text : Str) (isQuoted isPrefix : Bool) (offset : ℕ) :
    Except Error Builder :=
  if usizeLimit ≤ limits.bytes * 4 then .error (.limit "query bytes")
  else if u32Limit ≤ limits.terms then .error (.limit "query terms")
  else do
    let analyzed ← Analyzed.analyze U text ⟨limits.bytes, limits.bytes * 4, limits.terms,
      limits.termBytes, b.budget.remaining⟩
    let count := analyzed.tokens.length
    if isQuoted = false ∧ count ≠ 1 then .error (.querySyntax offset)
    else if usizeLimit ≤ b.terms + count ∨ limits.terms < b.terms + count then
      .error (.limit "query terms")
    else do
      let budget ← b.budget.vector analyzed.retainedBytes 1
      let (kind, budget) ← literalKind sizes analyzed.document isQuoted isPrefix offset budget
      let budget ← budget.release analyzed.retainedBytes
      { b with
        budget := budget
        terms := b.terms + count }.addNode limits sizes kind

end Builder

/-- What `quoted` leaves: the text with its capacity, and the input behind the closing quote. -/
structure QuotedText where
  text : Str
  capacity : ℕ
  rest : Str
  cursor : ℕ
  budget : MemoryBudget

/-- The text up to the closing quote; the cursor is behind the opening quote, at `start`. -/
def quotedFrom (limit start : ℕ) :
    Str → ℕ → Str → ℕ → MemoryBudget → Except Error QuotedText
  | [], _, _, _, _ => .error (.querySyntax start)
  | '"' :: rest, cursor, text, capacity, budget => .ok ⟨text, capacity, rest, cursor + 1, budget⟩
  | ['\\'], _, _, _, _ => .error (.querySyntax start)
  | '\\' :: c :: rest, cursor, text, capacity, budget =>
    if c ≠ '"' ∧ c ≠ '\\' then .error (.querySyntax (cursor + 1))
    else do
      let (capacity, budget) ← reserve text.len capacity 1 limit 1 budget
      quotedFrom limit start rest (cursor + 2) (text ++ [c]) capacity budget
  | c :: rest, cursor, text, capacity, budget => do
    let (capacity, budget) ← reserve text.len capacity (Str.len [c]) limit 1 budget
    quotedFrom limit start rest (cursor + Str.len [c]) (text ++ [c]) capacity budget

/-- The operator that a word names. -/
def keyword (raw : Str) : Option OperatorKind :=
  if raw = notWord then some .not
  else if raw = andWord then some .and
  else if raw = orWord then some .or
  else none

/-- Strips a terminal star. -/
def stripStar (raw : Str) : Str × Bool :=
  if raw.getLast? = some '*' then (raw.dropLast, true) else (raw, false)

/-- The loop state: the input that is left with its offset, whether an operand comes next, and the
groups that are open. -/
structure ParseState where
  rest : Str
  cursor : ℕ
  need : Bool
  parentheses : ℕ
  builder : Builder

section

variable (U : Unicode) (limits : QueryLimits) (sizes : ParseSizes)

/-- An opening parenthesis, in the loop of `parse`. -/
def parseOpening (rest : Str) (s : ParseState) : Except Error ParseState :=
  if s.need = false then .error (.querySyntax s.cursor)
  else if 65536 ≤ s.parentheses + 1 ∨ limits.depth < s.parentheses + 1 then
    .error (.limit "query depth")
  else do
    let builder ← s.builder.operator limits sizes ⟨.opening, s.cursor⟩
    .ok ⟨rest, s.cursor + 1, true, s.parentheses + 1, builder⟩

/-- A closing parenthesis. -/
def parseClosing (rest : Str) (s : ParseState) : Except Error ParseState :=
  if s.need then .error (.querySyntax s.cursor)
  else do
    let builder ← s.builder.close limits sizes s.cursor
    if s.parentheses = 0 then .error (.querySyntax s.cursor)
    else .ok ⟨rest, s.cursor + 1, false, s.parentheses - 1, builder⟩

/-- A quote; the phrase begins behind it. -/
def parseQuoted (rest : Str) (s : ParseState) : Except Error ParseState :=
  if s.need = false then .error (.querySyntax s.cursor)
  else do
    let q ← quotedFrom limits.bytes s.cursor rest (s.cursor + 1) [] 0 s.builder.budget
    let builder ← { s.builder with budget := q.budget }.literal U limits sizes q.text true false
      s.cursor
    let budget ← builder.budget.release q.capacity
    .ok ⟨q.rest, q.cursor, false, s.parentheses, { builder with budget := budget }⟩

/-- A word: an operator or a literal. -/
def parseWord (raw rest : Str) (s : ParseState) : Except Error ParseState :=
  match keyword raw with
  | some kind =>
    if decide (kind = .not) ≠ s.need then .error (.querySyntax s.cursor)
    else do
      let builder ← s.builder.operator limits sizes ⟨kind, s.cursor⟩
      .ok ⟨rest, s.cursor + raw.len, true, s.parentheses, builder⟩
  | none =>
    if s.need = false then .error (.querySyntax s.cursor)
    else if (stripStar raw).1 = [] ∨ '*' ∈ (stripStar raw).1 ∨ '\\' ∈ (stripStar raw).1 then
      .error (.querySyntax s.cursor)
    else do
      let builder ← s.builder.literal U limits sizes (stripStar raw).1 false (stripStar raw).2
        s.cursor
      .ok ⟨rest, s.cursor + raw.len, false, s.parentheses, builder⟩

/-- One turn of the loop; the input is not empty. -/
def parseStep (c : Char) (rest : Str) (s : ParseState) : Except Error ParseState :=
  if isSpace c then .ok { s with rest := rest, cursor := s.cursor + 1 }
  else if c = '(' then parseOpening limits sizes rest s
  else if c = ')' then parseClosing limits sizes rest s
  else if c = '"' then parseQuoted U limits sizes rest s
  else parseWord U limits sizes ((c :: rest).takeWhile isWord) ((c :: rest).dropWhile isWord) s

/-- The loop; every turn consumes input, so its length bounds it. -/
def parseLoop : ℕ → ParseState → Except Error ParseState
  | 0, _ => .error .invalidState
  | fuel + 1, s =>
    match s.rest with
    | [] => .ok s
    | c :: rest => do
      let s ← parseStep U limits sizes c rest s
      parseLoop fuel s

/-- A parsed query: the flat tree with the source text and what it retains. -/
structure ParsedQuery where
  nodes : List ParsedNode
  root : ℕ
  source : Str
  terms : ℕ
  retainedBytes : ℕ

/-- The end of `parse`: reduces what is left and takes the root. -/
def parseRoot (input : Str) (parentheses : ℕ) (b : Builder) : Except Error ParsedQuery := do
  let b ← b.reduceAll limits sizes b.operators
  match b.values with
  | [root] =>
    if parentheses ≠ 0 then .error (.querySyntax input.len)
    else do
      let budget ← b.budget.release
        (b.valueCapacity * sizes.value + b.operatorCapacity * sizes.operator)
      let budget ← budget.vector input.len 1
      .ok ⟨b.nodes, root, input, b.terms, budget.used⟩
  | _ => .error (.querySyntax input.len)

/-- The end of the input. -/
def parseEnd (input : Str) (s : ParseState) : Except Error ParsedQuery :=
  if s.builder.nodes = [] ∧ s.builder.operators = [] then do
    let builder ← s.builder.addNode limits sizes .none
    parseRoot limits sizes input s.parentheses builder
  else if s.need then .error (.querySyntax input.len)
  else parseRoot limits sizes input s.parentheses s.builder

/-- Rejects malformed syntax and resource excess; no partial query is returned. -/
def parse (input : Str) : Except Error ParsedQuery :=
  if limits.bytes < input.len then .error (.limit "query bytes")
  else do
    let s ← parseLoop U limits sizes (input.length + 1) ⟨input, 0, true, 0, .new limits⟩
    parseEnd limits sizes input s

end

end QuerySyntax

end PinCore
