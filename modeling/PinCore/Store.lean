import PinCore.Lib.Crash
import PinCore.Page.Ops

/-!
# The page store

The host boundary of `PageStore` and the checked loads built on it.  `extend` appends an
all-zero block and fails only when the block space is used up; `commit` persists one to three
valid images of distinct existing blocks in one atomic step and rejects everything else, as the
host adapters do.  Each is one durable step; a crash can fall between any two of them.
-/

namespace PinCore

/-- The durable contents of one index relation. -/
structure Store where
  layout : HeapLayout
  blocks : ℕ
  page : ℕ → Page

namespace Store

/-- Overwrite the image of one block.  The initialise flag is not part of the stored image. -/
def write (s : Store) (p : Page) : Store :=
  { s with page := fun b => if b = p.block then { p with initializes := false } else s.page b }

/-- Append an all-zero block. -/
def grow (s : Store) : Store :=
  { s with
    blocks := s.blocks + 1
    page := fun b => if b = s.blocks then Page.zero b else s.page b }

/-- The relation before its first block. -/
def empty (layout : HeapLayout) : Store := ⟨layout, 0, Page.zero⟩

/-- The next page of the chain that a page is in. -/
def next (s : Store) (b : ℕ) : ℕ := (s.page b).next

/-- What a page holds. -/
def body (s : Store) (b : ℕ) : Body := (s.page b).body

end Store

/-- Reading programs of the engine. -/
abbrev Rd := Obs Store Error

/-- Writing programs of the engine. -/
abbrev Wr := Prog Store Error

/-! ### Host operations -/

/-- The number of pages of the relation. -/
def blocks : Rd ℕ := Obs.observe Store.blocks

/-- The layout of the heap. -/
def layout : Rd HeapLayout := Obs.observe Store.layout

/-- Reads a page. -/
def readPage (block : ℕ) : Rd Page := Obs.observe fun s => s.page block

/-- Extend the relation by one block.  The host refuses once block numbers run out. -/
def extend : Wr ℕ := Prog.step fun s =>
  if s.blocks < noBlock then .ok (s.blocks, s.grow) else .error .host

/-- The images one commit may carry. -/
def CommitOk (s : Store) (pages : List Page) : Prop :=
  pages ≠ [] ∧ pages.length ≤ maxWalPages ∧
    (∀ p ∈ pages, p.Valid s.layout ∧ p.kind ≠ .zero ∧ p.block < s.blocks) ∧
    (pages.map (·.block)).Nodup

instance (s : Store) (pages : List Page) : Decidable (CommitOk s pages) :=
  inferInstanceAs (Decidable (_ ∧ _))

/-- Persist all images atomically. -/
def commit (pages : List Page) : Wr PUnit := Prog.step fun s =>
  if CommitOk s pages then .ok (⟨⟩, pages.foldl Store.write s) else .error .codec

/-- Publish owner removal.  The host waits for protecting readers first. -/
def removeOwners (page : Page) : Wr PUnit := Prog.step fun s =>
  if page.kind = .owners ∧ CommitOk s [page] then .ok (⟨⟩, s.write page)
  else .error .invalidState

/-! ### Checked loads -/

/-- Loads a page and checks that it stands where it says. -/
def loadAny (block : ℕ) : Rd Page := do
  let n ← blocks
  Obs.ensure (block < n) .invalidState
  let p ← readPage block
  Obs.ensure (p.block = block) .invalidState
  let l ← layout
  let _ ← Obs.ofExcept (p.validate l)
  return p

/-- Loads a page of a kind. -/
def load (block : ℕ) (kind : PageKind) : Rd Page := do
  let p ← loadAny block
  Obs.ensure (p.kind = kind) .invalidState
  return p

/-- Extends the relation by a page. -/
def allocate : Wr ℕ := do
  let expected ← Prog.reading blocks
  let block ← extend
  Prog.ensure (block = expected ∧ block ≠ noBlock) .invalidState
  return block

/-- The next page of an ascending chain, or `none` at its captured tail. -/
def following (p : Page) (tail : ℕ) : Except Error (Option ℕ) :=
  if p.block = tail then .ok none
  else if p.next = noBlock ∨ tail < p.next ∨ p.next ≤ p.block then .error .invalidState
  else .ok (some p.next)

/-- The next page of a posting chain within a budget of `remaining` pages. -/
def postingNext (p : Page) (tail remaining : ℕ) : Except Error (Option ℕ × ℕ) :=
  match remaining with
  | 0 => .error .invalidState
  | remaining + 1 =>
    if p.block = tail then .ok (none, remaining)
    else if p.next = noBlock ∨ remaining = 0 then .error .invalidState
    else .ok (some p.next, remaining)

/-- The terms of one dictionary page that equal `text`; every term must route to `bucket`. -/
def matchTerms (bucket : ℕ) (text : Text) : List Term → Option TermRef →
    Except Error (Option TermRef)
  | [], found => .ok found
  | t :: ts, found =>
    if bucketFor t.term ≠ bucket then .error .invalidState
    else if t.term = text then
      if found ≠ none then .error .invalidState
      else matchTerms bucket text ts (some t.reference)
    else matchTerms bucket text ts found

/-- The loop of `find_term`.  Ascending block numbers bound it by `fuel`. -/
def findTermFrom (bucket : ℕ) (text : Text) (tail : ℕ) :
    ℕ → ℕ → Option (Page × TermRef) → Rd (Option (Page × TermRef))
  | 0, _, _ => Obs.fail .invalidState
  | fuel + 1, block, found => do
    let p ← load block .dictionary
    let ts ← Obs.ofExcept p.terms
    let reference ← Obs.ofExcept (matchTerms bucket text ts none)
    Obs.ensure (reference = none ∨ found = none) .invalidState
    let found := match reference with
      | some r => some (p, r)
      | none => found
    match ← Obs.ofExcept (following p tail) with
    | some next => findTermFrom bucket text tail fuel next found
    | none => return found

/-- Scans a captured dictionary chain for the entry of `text`. -/
def findTerm (info : Page) (text : Text) : Rd (Option (Page × TermRef)) := do
  let (head, tail) ← Obs.ofExcept (info.bucket (bucketFor text))
  if head = noBlock then return none
  else findTermFrom (bucketFor text) text tail (tail + 1) head none

/-- Loads a posting page of `term`.  A dictionary block stands for the inline second posting of
the term, or for the one a promoted entry retains. -/
def loadPosting (block : ℕ) (term : TermRef) : Rd Page := do
  let p ← loadAny block
  if p.kind = .dictionary then
    let entry ← Obs.ofExcept (p.term term)
    match entry.inlineSecond.or entry.shadowSecond with
    | none => Obs.fail .invalidState
    | some second =>
      Obs.ensure (¬ (entry.inlineSecond ≠ none ∧ (entry.head ≠ block ∨ entry.tail ≠ block)))
        .invalidState
      let virtualPage ← Obs.ofExcept (Page.postings block term)
      match ← Obs.ofExcept (virtualPage.appendPosting second) with
      | none => Obs.fail .invalidState
      | some virtualPage => return virtualPage
  else
    let t ← Obs.ofExcept p.postingTerm
    Obs.ensure (t = term) .invalidState
    return p

/-- Reads the canonical owner of a reference through a one-page cache and returns its root if
the owner is live and published. -/
def resolve (cache : Option Page) (reference : OwnerRef) : Rd (Option RootTid × Option Page) := do
  let reload ← Obs.ofExcept (match cache with
    | some p =>
      if p.block = reference.page then do
        let n ← p.ownerCount
        .ok (decide (n ≤ reference.slot))
      else .ok true
    | none => .ok true)
  let p ← match reload, cache with
    | false, some p => pure p
    | _, _ => load reference.page .owners
  let l ← layout
  let o ← Obs.ofExcept (p.owner reference.slot l)
  Obs.ensure (o.reference = reference) .invalidState
  return (if o.record.live = true ∧ o.record.publication = .published then some o.record.root
    else none, some p)

end PinCore
