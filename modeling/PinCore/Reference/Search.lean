import PinCore.Query.Oracle
import PinCore.Reference.Build

/-!
# Searching the reference index

`search` binds a query to the index once; `Search.next` then evaluates the documents in order.
Terms, prefixes and phrases are answered by binary searches in the sorted postings.  A search that
runs to its end yields the documents that the oracle accepts.
-/

namespace PinCore

namespace ReferenceIndex

/-- The limits of a search. -/
structure SearchLimits where
  expandedTerms : ℕ
  memoryBytes : ℕ
  workSteps : ℕ

/-! ### Binary searches -/

variable (index : ReferenceIndex)

/-- The index of a term, found by binary search. -/
def lookup (term : Text) (work : ℕ) : Except Error (Option ℕ × ℕ) := do
  let (first, work) ← lowerBound (charge 1) (fun entry => decide (entry.text < term)) index.terms
    work
  .ok ((index.terms[first]?.filter fun entry => entry.text = term).map fun _ => first, work)

/-- The terms that start with `start`. -/
def prefixed (start : Text) (work : ℕ) : Except Error (IndexRange × ℕ) := do
  let (first, work) ← lowerBound (charge 1) (fun entry => decide (entry.text < start)) index.terms
    work
  let (count, work) ← lowerBound (charge 1) (fun entry => start.isPrefixOf entry.text)
    (index.terms.drop first) work
  .ok (⟨first, first + count⟩, work)

/-- The postings of one term in one document. -/
def termPostings (term document work : ℕ) : Except Error (IndexRange × ℕ) :=
  match index.terms[term]? with
  | none => .error .invalidState
  | some entry => do
    let postings := entry.postings.slice index.postings
    let (first, work) ← lowerBound (charge 1) (fun p => decide (p.document < document))
      postings work
    let (count, work) ← lowerBound (charge 1) (fun p => decide (p.document = document))
      (postings.drop first) work
    .ok (⟨entry.postings.first + first, entry.postings.first + first + count⟩, work)

/-- The range holds the position, found by binary search. -/
def hasPosition (range : IndexRange) (position work : ℕ) : Except Error (Bool × ℕ) := do
  let postings := range.slice index.postings
  let (i, work) ← lowerBound (charge 1) (fun p => decide (p.position < position)) postings work
  .ok (postings[i]?.any fun p => p.position = position, work)

/-! ### Binding a query -/

/-- A query node with the terms it was bound to. -/
inductive Bound where
  | never
  | term (found : Option ℕ)
  | prefixed (terms : IndexRange)
  | phrase (terms : IndexRange)
  | not (child : ℕ)
  | and (left right : ℕ)
  | or (left right : ℕ)

/-- A term of a phrase with its distance from the first one. -/
structure PhraseTerm where
  term : Option ℕ
  offset : ℕ

/-- The bound nodes so far, with the counters of the pass. -/
structure Binding where
  nodes : List Bound
  phraseTerms : List PhraseTerm
  longest : ℕ
  expanded : ℕ
  work : ℕ

/-- Looks the terms of a phrase up; `offset` is the next one's place. -/
def bindTerms : List Text → ℕ → List PhraseTerm → ℕ → Except Error (List PhraseTerm × ℕ)
  | [], _, bound, work => .ok (bound, work)
  | term :: terms, offset, bound, work => do
    let work ← charge 1 work
    let (found, work) ← index.lookup term work
    if u32Limit ≤ offset then .error (.limit "phrase positions")
    else bindTerms terms (offset + 1) (bound ++ [⟨found, offset⟩]) work

/-- Binds one node to the terms of the index. -/
def bindNode (limits : SearchLimits) (s : Binding) : Kind → Except Error Binding
  | .none => .ok { s with nodes := s.nodes ++ [.never] }
  | .term t => do
    let (found, work) ← index.lookup t s.work
    .ok { s with
      nodes := s.nodes ++ [.term found]
      work := work }
  | .prefixed t => do
    let (range, work) ← index.prefixed t s.work
    if limits.expandedTerms < s.expanded + range.len then .error (.limit "prefix expansion")
    else .ok { s with
      nodes := s.nodes ++ [.prefixed range]
      expanded := s.expanded + range.len
      work := work }
  | .phrase ts => do
    let (bound, work) ← index.bindTerms ts 0 s.phraseTerms s.work
    .ok { s with
      nodes := s.nodes ++ [.phrase ⟨s.phraseTerms.length, bound.length⟩]
      phraseTerms := bound
      longest := max s.longest ts.length
      work := work }
  | .not c => .ok { s with nodes := s.nodes ++ [.not c] }
  | .and l r => .ok { s with nodes := s.nodes ++ [.and l r] }
  | .or l r => .ok { s with nodes := s.nodes ++ [.or l r] }

/-- Binds the nodes in order. -/
def bindNodes (limits : SearchLimits) : List Kind → Binding → Except Error Binding
  | [], s => .ok s
  | kind :: kinds, s => do
    let work ← charge 1 s.work
    let s ← index.bindNode limits { s with work := work } kind
    bindNodes limits kinds s

/-- The number of phrase terms of a node. -/
def phraseCount : Kind → ℕ
  | .phrase ts => ts.length
  | _ => 0

/-- A bound query over the documents from `nextDocument` on; `values` and `ranges` are scratch that
the documents share. -/
structure Search where
  index : ReferenceIndex
  nodes : List Bound
  phraseTerms : List PhraseTerm
  values : List Bool
  ranges : List IndexRange
  root : ℕ
  nextDocument : ℕ
  failed : Bool
  budget : MemoryBudget
  work : ℕ

/-- Starts a search: the query is bound and the buffers are charged. -/
def search (z : Sizes) (q : Query) (limits : SearchLimits) : Except Error Search := do
  let budget ← (MemoryBudget.new limits.memoryBytes).vector q.nodeCount z.bound
  let count := (q.nodes.map phraseCount).sum
  if usizeLimit ≤ count then .error (.limit "phrase terms")
  else do
    let budget ← budget.vector count z.phraseTerm
    let s ← index.bindNodes limits q.nodes ⟨[], [], 0, 0, limits.workSteps⟩
    let budget ← budget.vector q.nodeCount 1
    let budget ← budget.vector s.longest z.range
    .ok ⟨index, s.nodes, s.phraseTerms, List.replicate q.nodeCount false,
      List.replicate s.longest ⟨0, 0⟩, q.root, 0, false, budget, s.work⟩

/-! ### Evaluating a document -/

/-- Some of the next `count` terms occurs in the document. -/
def anyTerm (document : ℕ) : ℕ → ℕ → ℕ → Except Error (Bool × ℕ)
  | 0, _, work => .ok (false, work)
  | count + 1, term, work => do
    let work ← charge 1 work
    let (range, work) ← index.termPostings term document work
    if range.len ≠ 0 then .ok (true, work) else anyTerm document count (term + 1) work

/-- The postings of every phrase term, and the slot of the shortest list; `none` if a term does not
occur. -/
def phraseRanges (document : ℕ) :
    List PhraseTerm → ℕ → ℕ → List IndexRange → ℕ →
      Except Error (Option ℕ × List IndexRange × ℕ)
  | [], _, anchor, ranges, work => .ok (some anchor, ranges, work)
  | t :: ts, slot, anchor, ranges, work => do
    let work ← charge 1 work
    match t.term with
    | none => .ok (none, ranges, work)
    | some term => do
      let (range, work) ← index.termPostings term document work
      let ranges := ranges.set slot range
      if range.len = 0 then .ok (none, ranges, work)
      else
        let anchor := if range.len < (ranges.getD anchor ⟨0, 0⟩).len then slot else anchor
        phraseRanges document ts (slot + 1) anchor ranges work

/-- Every term but the anchor stands at its offset from `start`. -/
def probeTerms (ranges : List IndexRange) (anchor start : ℕ) :
    List PhraseTerm → ℕ → ℕ → Except Error (Bool × ℕ)
  | [], _, work => .ok (true, work)
  | t :: ts, slot, work =>
    if slot = anchor then probeTerms ranges anchor start ts (slot + 1) work
    else do
      let work ← charge 1 work
      if u32Limit ≤ start + t.offset then .ok (false, work)
      else do
        let (found, work) ← index.hasPosition (ranges.getD slot ⟨0, 0⟩) (start + t.offset) work
        if found then probeTerms ranges anchor start ts (slot + 1) work else .ok (false, work)

/-- Probes the phrase around each posting of the anchor. -/
def probePostings (terms : List PhraseTerm) (ranges : List IndexRange) (anchor offset : ℕ) :
    List Posting → ℕ → Except Error (Bool × ℕ)
  | [], work => .ok (false, work)
  | p :: ps, work => do
    let work ← charge 1 work
    if p.position < offset then probePostings terms ranges anchor offset ps work
    else do
      let (matched, work) ← index.probeTerms ranges anchor (p.position - offset) terms 0 work
      if matched then .ok (true, work) else probePostings terms ranges anchor offset ps work

/-- The document holds the phrase; the ranges of the terms move on to the document. -/
def phrase (terms : List PhraseTerm) (ranges : List IndexRange) (document work : ℕ) :
    Except Error (Bool × List IndexRange × ℕ) := do
  let (anchor, ranges, work) ← index.phraseRanges document terms 0 0 ranges work
  match anchor with
  | none => .ok (false, ranges, work)
  | some anchor =>
    match terms[anchor]? with
    | none => .error .invalidState
    | some t => do
      let (found, work) ← index.probePostings terms ranges anchor t.offset
        ((ranges.getD anchor ⟨0, 0⟩).slice index.postings) work
      .ok (found, ranges, work)

/-- The value of a bound node; `values` holds those of the nodes before it. -/
def boundValue (phraseTerms : List PhraseTerm) (document : ℕ) (values : List Bool)
    (ranges : List IndexRange) (work : ℕ) : Bound → Except Error (Bool × List IndexRange × ℕ)
  | .never => .ok (false, ranges, work)
  | .term none => .ok (false, ranges, work)
  | .term (some term) => do
    let (range, work) ← index.termPostings term document work
    .ok (decide (range.len ≠ 0), ranges, work)
  | .prefixed terms => do
    let (found, work) ← index.anyTerm document terms.len terms.first work
    .ok (found, ranges, work)
  | .phrase terms => index.phrase (terms.slice phraseTerms) ranges document work
  | .not c => .ok (!values.getD c false, ranges, work)
  | .and l r => .ok (values.getD l false && values.getD r false, ranges, work)
  | .or l r => .ok (values.getD l false || values.getD r false, ranges, work)

/-- The values of the nodes at a document, from the values so far. -/
def valuesFrom (phraseTerms : List PhraseTerm) (document : ℕ) :
    List Bound → ℕ → List Bool → List IndexRange → ℕ →
      Except Error (List Bool × List IndexRange × ℕ)
  | [], _, values, ranges, work => .ok (values, ranges, work)
  | node :: nodes, slot, values, ranges, work => do
    let work ← charge 1 work
    let (value, ranges, work) ← index.boundValue phraseTerms document values ranges work node
    valuesFrom phraseTerms document nodes (slot + 1) (values.set slot value) ranges work

/-- A document that matches, with its ordinal. -/
structure Candidate where
  document : DocumentRef
  ordinal : ℕ
  deriving DecidableEq, Repr

namespace Search

/-- The document matches the query. -/
def matchesDocument (s : Search) (document : ℕ) : Except Error (Bool × Search) := do
  let (values, ranges, work) ← s.index.valuesFrom s.phraseTerms document s.nodes 0 s.values s.ranges
    s.work
  .ok (values.getD s.root false, { s with
    values := values
    ranges := ranges
    work := work })

/-- The next match among the documents that are left. -/
def nextFrom : List IndexDocument → Search → Option (Except Error Candidate) × Search
  | [], s => (none, s)
  | d :: documents, s =>
    let ordinal := s.nextDocument
    let s := { s with nextDocument := ordinal + 1 }
    match s.matchesDocument ordinal with
    | .ok (false, s) => nextFrom documents s
    | .ok (true, s) => (some (.ok ⟨d.identity, ordinal⟩), s)
    | .error e => (some (.error e), { s with failed := true })

/-- The next document that matches; a search that failed ends. -/
def next (s : Search) : Option (Except Error Candidate) × Search :=
  if s.failed then (none, s) else nextFrom (s.index.documents.drop s.nextDocument) s

/-- The search runs to its end and yields the candidates in this order. -/
inductive Yields : Search → List Candidate → Prop where
  | done {s s' : Search} : s.next = (none, s') → s.failed = false → Yields s []
  | candidate {s s' : Search} {c : Candidate} {cs : List Candidate} :
      s.next = (some (.ok c), s') → Yields s' cs → Yields s (c :: cs)

/-- Counts the candidates; each call consumes a document, so `fuel` bounds the calls. -/
def countFrom : ℕ → Search → ℕ → Except Error ℕ
  | 0, _, _ => .error .invalidState
  | fuel + 1, s, count =>
    match s.next with
    | (none, _) => .ok count
    | (some (.error e), _) => .error e
    | (some (.ok _), s) => countFrom fuel s (count + 1)

end Search

/-- The number of documents that match. -/
def candidateCount (z : Sizes) (q : Query) (limits : SearchLimits) : Except Error ℕ := do
  let s ← index.search z q limits
  s.countFrom (index.documents.length + 1) 0

end ReferenceIndex

end PinCore
