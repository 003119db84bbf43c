import PinCore.Grouped.Members

/-!
# Boolean evaluation inside one group

Page summaries are evaluated for every node of a program before any offset payload is decoded;
then, page by page, a backward walk finds the nodes whose offsets are needed, and a forward pass
computes those in caller-owned scratch.  The scratch keeps whatever earlier pages, programs and
segments left in it.  Interrupts and failing callbacks of the caller are not modelled.
-/

namespace PinCore

namespace Grouped

/-! ### Kernels -/

/-- The binary operations on bitmaps. -/
inductive BitmapOp where
  | intersection
  | union
  | difference
  deriving DecidableEq, Repr

/-- Candidate pages.  A difference cannot subtract page summaries. -/
def candidates (op : BitmapOp) (left right live : ℕ) : ℕ :=
  (match op with
    | .intersection => left &&& right
    | .union => left ||| right
    | .difference => left) &&& live

/-- Offset membership on one page.  (`offsets` in the source.) -/
def combineOffsets (op : BitmapOp) (left right live : ℕ) : ℕ :=
  (match op with
    | .intersection => left &&& right
    | .union => left ||| right
    | .difference => Nat.ldiff left right) &&& live

/-- One of the four words of a page mask. -/
def maskWord (mask word : ℕ) : ℕ := mask / 2 ^ (64 * word) % 2 ^ 64

/-- What the iterator `Pages` yields: word by word, lowest set bit first. -/
def pagesOf (mask : ℕ) : List ℕ :=
  (List.range 4).flatMap fun word =>
    (lowestFirst 64 64 (maskWord mask word)).map fun bit => word * 64 + bit

/-- Number of set offsets. -/
def countOnes (mask : ℕ) : ℕ := (setBits mask 512).length

/-! ### Programs -/

/-- The largest number of nodes and of terms of a program. -/
def maxNodes : ℕ := 64

/-- A node of a topologically ordered program. -/
inductive Node where
  | term (term : ℕ)
  | all
  | and (left right : ℕ)
  | or (left right : ℕ)
  | difference (left right : ℕ)
  | not (child : ℕ)
  deriving DecidableEq, Repr

/-- The operands of a node. -/
def Node.children : Node → List ℕ
  | term _ => []
  | all => []
  | and l r => [l, r]
  | or l r => [l, r]
  | difference l r => [l, r]
  | not c => [c]

/-- Terms exist and children precede their parents. -/
def Node.valid (terms index : ℕ) : Node → Bool
  | term t => t < terms
  | all => true
  | not c => c < index
  | and l r => l < index && r < index
  | or l r => l < index && r < index
  | difference l r => l < index && r < index

/-- Checks the nodes from an index on: operands come first and terms exist. -/
def validateFrom (terms : ℕ) : ℕ → List Node → Except Error Unit
  | _, [] => .ok ⟨⟩
  | index, node :: rest =>
    if node.valid terms index then validateFrom terms (index + 1) rest
    else .error .invalidParameters

/-- Checks a program over a number of terms. -/
def validateProgram (terms : ℕ) (program : List Node) : Except Error Unit :=
  if program = [] ∨ maxNodes < program.length ∨ maxNodes < terms then
    .error (.limit "group query nodes")
  else validateFrom terms 0 program

/-! ### Sources and scratch -/

/-- The records of one published membership. -/
structure Source where
  key : GroupKey
  terms : ℕ
  livePages : ℕ
  termPages : ℕ → ℕ
  liveOffsets : ℕ → Except Error ℕ
  termOffsets : ℕ → ℕ → Except Error (ℕ × ℕ)

/-- Caller-owned scratch, one page mask and one offset mask for each node. -/
structure QueryScratch where
  pages : ℕ → ℕ
  offsets : ℕ → ℕ

/-- The counters of an evaluation. -/
structure QueryStats where
  candidatePages : ℕ
  livePages : ℕ
  termPayloads : ℕ
  termBytes : ℕ
  emittedTids : ℕ
  deriving DecidableEq, Repr

namespace QueryStats

/-- Before the evaluation. -/
def default : QueryStats := ⟨0, 0, 0, 0, 0⟩

/-- One more candidate page. -/
def candidate (s : QueryStats) : QueryStats := { s with candidatePages := s.candidatePages + 1 }

/-- One more page with a live offset. -/
def alive (s : QueryStats) : QueryStats := { s with livePages := s.livePages + 1 }

/-- Decoded payloads and their bytes. -/
def decoded (s : QueryStats) (payloads bytes : ℕ) : QueryStats :=
  { s with termPayloads := s.termPayloads + payloads, termBytes := s.termBytes + bytes }

/-- Emitted coordinates. -/
def emit (s : QueryStats) (count : ℕ) : QueryStats :=
  { s with emittedTids := s.emittedTids + count }

end QueryStats

/-- The page summary of one node. -/
def pageNode (termPages : ℕ → ℕ) (livePages : ℕ) (pages : ℕ → ℕ) : Node → ℕ
  | .term t => candidates .intersection (termPages t) livePages livePages
  | .all => livePages
  | .not _ => livePages
  | .and l r => candidates .intersection (pages l) (pages r) livePages
  | .or l r => candidates .union (pages l) (pages r) livePages
  | .difference l r => candidates .difference (pages l) (pages r) livePages

/-- The forward pass over the page summaries. -/
def fillPages (termPages : ℕ → ℕ) (livePages : ℕ) : ℕ → List Node → (ℕ → ℕ) → ℕ → ℕ
  | _, [], pages => pages
  | index, node :: rest, pages =>
    fillPages termPages livePages (index + 1) rest
      (Function.update pages index (pageNode termPages livePages pages node))

/-- One step of the backward walk. -/
def dependStep (pages : ℕ → ℕ) (page : ℕ) (x : ℕ × Node) (needed : ℕ) : ℕ :=
  if needed.testBit x.1 = false ∨ (pages x.1).testBit page = false then needed
  else x.2.children.foldl (fun needed child => needed ||| 2 ^ child) needed

/-- The program with its indices. -/
def indexed (program : List Node) : List (ℕ × Node) := (List.range program.length).zip program

/-- The nodes whose offsets a page needs. -/
def dependencies (program : List Node) (pages : ℕ → ℕ) (page : ℕ) : ℕ :=
  (indexed program).foldr (dependStep pages page) (2 ^ (program.length - 1))

/-- The offsets of one node, with the payloads and bytes decoded for it. -/
def offsetNode (src : Source) (offsets : ℕ → ℕ) (live page : ℕ) : Node → Except Error (ℕ × ℕ × ℕ)
  | .term t => do
    let (mask, bytes) ← src.termOffsets t page
    .ok (combineOffsets .intersection mask live live, if bytes = 0 then 0 else 1, bytes)
  | .all => .ok (live, 0, 0)
  | .not c => .ok (combineOffsets .difference live (offsets c) live, 0, 0)
  | .and l r => .ok (combineOffsets .intersection (offsets l) (offsets r) live, 0, 0)
  | .or l r => .ok (combineOffsets .union (offsets l) (offsets r) live, 0, 0)
  | .difference l r => .ok (combineOffsets .difference (offsets l) (offsets r) live, 0, 0)

/-- The forward pass over the offsets of one page; unneeded entries stay as they are. -/
def fillOffsets (src : Source) (pages : ℕ → ℕ) (needed live page : ℕ) :
    List (ℕ × Node) → (ℕ → ℕ) → QueryStats → Except Error ((ℕ → ℕ) × QueryStats)
  | [], offsets, stats => .ok (offsets, stats)
  | (index, node) :: rest, offsets, stats =>
    if needed.testBit index = false then fillOffsets src pages needed live page rest offsets stats
    else if (pages index).testBit page = false then
      fillOffsets src pages needed live page rest (Function.update offsets index 0) stats
    else do
      let x ← offsetNode src offsets live page node
      fillOffsets src pages needed live page rest (Function.update offsets index x.1)
        (stats.decoded x.2.1 x.2.2)

/-- The candidate pages in order, with the page masks they emit. -/
def evaluatePages (src : Source) (program : List Node) (pages : ℕ → ℕ) :
    List ℕ → (ℕ → ℕ) → QueryStats → Except Error (List (ℕ × ℕ) × (ℕ → ℕ) × QueryStats)
  | [], offsets, stats => .ok ([], offsets, stats)
  | page :: rest, offsets, stats => do
    let live ← src.liveOffsets page
    if live = 0 then evaluatePages src program pages rest offsets stats.candidate
    else do
      let (offsets, stats) ← fillOffsets src pages (dependencies program pages page) live page
        (indexed program) offsets stats.candidate.alive
      let result := offsets (program.length - 1)
      if countOnes result = 0 then evaluatePages src program pages rest offsets stats
      else do
        let block ← src.key.block page
        let (out, offsets, stats) ←
          evaluatePages src program pages rest offsets (stats.emit (countOnes result))
        .ok ((block, result) :: out, offsets, stats)

/-- Emits complete Boolean matches of one source as heap-ordered page masks. -/
def evaluateSource (src : Source) (program : List Node) (scratch : QueryScratch) :
    Except Error (List (ℕ × ℕ) × QueryStats × QueryScratch) := do
  let _ ← validateProgram src.terms program
  let pages := fillPages src.termPages src.livePages 0 program scratch.pages
  let (out, offsets, stats) ← evaluatePages src program pages
    (pagesOf (pages (program.length - 1))) scratch.offsets .default
  .ok (out, stats, ⟨pages, offsets⟩)

/-- A segment group and posting bitmaps in memory. -/
def memorySource (segment : SegmentGroup) (terms : List Bitmap) : Source where
  key := segment.key
  terms := terms.length
  livePages := segment.live.mask
  termPages t := (terms[t]?.map Bitmap.mask).getD 0
  liveOffsets page := segment.live.offsets page
  termOffsets t page :=
    match terms[t]? with
    | none => .error .invalidParameters
    | some b => do
      let mask ← b.offsets page
      .ok (mask, b.payloadBytes page)

/-- Evaluates a program over posting bitmaps of exactly this segment. -/
def evaluate (segment : SegmentGroup) (terms : List Bitmap) (program : List Node)
    (scratch : QueryScratch) : Except Error (List (ℕ × ℕ) × QueryStats × QueryScratch) := do
  require (∀ b ∈ terms, b.key = segment.key ∧ b.kind = .posting) .invalidState
  evaluateSource (memorySource segment terms) program scratch

end Grouped

end PinCore
