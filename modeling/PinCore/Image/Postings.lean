import PinCore.Image.Basic
import PinCore.Lib.Iterate
import PinCore.Page.Ops

/-!
# Posting pages in bytes

A posting page names its term and lists owner references: as fixed records, or compressed, each
one as three variable-length differences to the one before.  A direct page has a fixed heap
coordinate for each reference in front of the compressed ones, and its first and last reference in
the header.
-/

namespace PinCore

open Grouped Reader

namespace Image

/-! ### Differences -/

/-- Writes the difference between an owner and the one before it. -/
def writeDelta (owner : OwnerRef) (previous : Option OwnerRef) : Writer.Emit := do
  let (page, slot, incarnation) ← (match previous with
    | some previous => do
      Read.ensure (¬ (owner.page < previous.page ∨
        (owner.page = previous.page ∧ owner.slot ≤ previous.slot) ∨
          owner.incarnation ≤ previous.incarnation)) .invalidState
      return (owner.page - previous.page,
        if owner.page = previous.page then owner.slot - previous.slot else owner.slot,
        owner.incarnation - previous.incarnation)
    | none => return (owner.page, owner.slot, owner.incarnation) :
      Read Writer Error (ℕ × ℕ × ℕ))
  Read.ensure (blockValid owner.page ∧ owner.slot < ownerSlots) .invalidState
  Writer.varU32 page
  Writer.varU32 slot
  Writer.put (varU64Bytes incarnation)

/-- The last checks of `read_delta`. -/
def ownerRef (start page slot incarnation : ℕ) : Parse OwnerRef := do
  Read.ensure (blockValid page ∧ slot < ownerSlots) (.codecAt start .invalidValue)
  Read.ensure (incarnation ≠ 0) (.codecAt start .invalidValue)
  return ⟨page, slot, incarnation⟩

/-- Reads the owner behind the one before it. -/
def readDelta (previous : Option OwnerRef) : Parse OwnerRef := do
  let start ← position
  let pageDelta ← varU32
  let slotDelta ← varU32
  let incarnationDelta ← varU64
  match previous with
  | some previous => do
    Read.ensure (¬ (incarnationDelta = 0 ∨ (pageDelta = 0 ∧ slotDelta = 0)))
      (.codecAt start .invalidValue)
    Read.ensure (previous.page + pageDelta < u32Limit) (.codecAt start .invalidValue)
    Read.ensure (pageDelta = 0 → previous.slot + slotDelta < u32Limit)
      (.codecAt start .invalidValue)
    Read.ensure (previous.incarnation + incarnationDelta < incarnationLimit)
      (.codecAt start .invalidValue)
    ownerRef start (previous.page + pageDelta)
      (if pageDelta = 0 then previous.slot + slotDelta else slotDelta)
      (previous.incarnation + incarnationDelta)
  | none => ownerRef start pageDelta slotDelta incarnationDelta

/-! ### Reading -/

/-- A part of the bytes in use. -/
def slice (p : Image) (offset len : ℕ) : Except Error (List UInt8) :=
  if offset + len ≤ p.len then .ok ((p.used.drop offset).take len) else .error .codec

/-- The term of a posting page of any kind. -/
def postingTerm (p : Image) : Except Error TermRef := do
  Grouped.require (p.kind = .postings ∨ p.kind = .sealedPostings ∨ p.kind = .directPostings) .codec
  if p.kind = .postings then do
    let reserved ← p.u16 22
    Grouped.require (reserved = 0) .codec
    let page ← p.u32 16
    let offset ← p.u16 20
    .ok ⟨page, offset⟩
  else do
    let page ← p.u32 16
    let offset ← p.u16 20
    .ok ⟨page, offset⟩

/-- The offset of the postings on the page. -/
def postingStart (p : Image) : Except Error ℕ :=
  if p.kind = .directPostings then do
    let count ← p.u16 22
    .ok (directHeader + count * 8)
  else .ok postingHeader

/-- The decoder of a posting page. -/
structure Postings where
  reader : Reader
  compressed : Bool
  remaining : ℕ
  previous : Option OwnerRef
  failed : Bool

/-- The next posting; after an error there is none. -/
def Postings.next (it : Postings) : Option (Except Error OwnerRef) × Postings :=
  if it.failed then (none, it)
  else if it.remaining = 0 then
    if it.reader.remaining = 0 then (none, it)
    else (some (.error (.codecAt it.reader.offset .invalidValue)), { it with failed := true })
  else
    match (if it.compressed then readDelta it.previous else OwnerRef.read) it.reader with
    | (.ok owner, reader) =>
      (some (.ok owner), { it with
        reader
        remaining := it.remaining - 1
        previous := some owner })
    | (.error e, reader) =>
      (some (.error e), { it with
        reader
        remaining := it.remaining - 1
        failed := true })

/-- How many references the page says it has. -/
def postingRecords (p : Image) : Except Error ℕ :=
  if p.kind = .postings then do
    Grouped.require ((p.len - postingHeader) % 16 = 0) .codec
    .ok ((p.len - postingHeader) / 16)
  else do
    let count ← p.u16 22
    Grouped.require (count ≠ 0 ∧ count ≤ (p.len - postingHeader) / 3) .codec
    .ok count

/-- The postings of a page. -/
def postingRefs (p : Image) : Except Error Postings := do
  let _ ← p.postingTerm
  let count ← p.postingRecords
  let start ← p.postingStart
  Grouped.require (start ≤ p.len) .codec
  .ok ⟨Reader.new (p.used.drop start), decide (p.kind ≠ .postings), count, none, false⟩

/-- Bounds the ordered owner range of one direct page without decoding it. -/
def directEndpoints (p : Image) : Except Error (OwnerRef × OwnerRef) := do
  p.require .directPostings
  let first ← p.slice postingHeader 16
  let last ← p.slice (postingHeader + 16) 16
  let first ← run OwnerRef.read first
  let last ← run OwnerRef.read last
  .ok (first, last)

/-- Reads a local live coordinate. -/
def directRoot (p : Image) (slot : ℕ) (layout : HeapLayout) : Except Error (Option RootTid) := do
  p.require .directPostings
  let count ← p.u16 22
  Grouped.require (slot < count) .codec
  let bytes ← p.slice (directHeader + slot * 8) 8
  let live := leAt bytes 6 1
  Grouped.require (live ≤ 1 ∧ leAt bytes 7 1 = 0) .codec
  let root : RootTid := ⟨leAt bytes 0 4, leAt bytes 4 2⟩
  Grouped.require (root.Valid layout) .codec
  .ok (if live = 1 then some root else none)

/-- The references ascend; the result is the first and the last one. -/
def ascending : ℕ → Postings → Option OwnerRef → Option OwnerRef →
    Except Error (Option OwnerRef × Option OwnerRef)
  | 0, _, first, previous => .ok (first, previous)
  | n + 1, it, first, previous =>
    match it.next with
    | (none, _) => .ok (first, previous)
    | (some (.error e), _) => .error e
    | (some (.ok reference), it) => do
      Grouped.require (∀ p ∈ previous, p.Before reference) .codec
      ascending n it (first.or (some reference)) (some reference)

/-- The coordinates of `n` slots from `slot` on. -/
def checkRoots (p : Image) (layout : HeapLayout) : ℕ → ℕ → Except Error Unit
  | _, 0 => .ok ⟨⟩
  | slot, n + 1 => do
    let _ ← p.directRoot slot layout
    checkRoots p layout (slot + 1) n

/-- `Page::validate` of a posting page. -/
def validatePostings (p : Image) (layout : HeapLayout) : Except Error Unit := do
  p.checkNext
  p.checkBlock
  let term ← p.postingTerm
  Grouped.require (blockValid term.page ∧ pageHeader ≤ term.offset) .codec
  let refs ← p.postingRefs
  -- every item takes one of `remaining`; the call after the last one ends the loop
  let (first, previous) ← ascending (refs.remaining + 1) refs none none
  if p.kind = .directPostings then do
    let (headerFirst, headerLast) ← p.directEndpoints
    Grouped.require (first = some headerFirst ∧ previous = some headerLast) .codec
    let count ← p.u16 22
    p.checkRoots layout 0 count
  else .ok ⟨⟩

/-! ### Stepping -/

/-- A decoder that owns the page and its place in it. -/
structure OwnedPostings where
  page : Image
  offset : ℕ
  compressed : Bool
  remaining : ℕ
  previous : Option OwnerRef
  failed : Bool

namespace OwnedPostings

/-- An owned copy of the postings of a page. -/
def new (page : Image) : Except Error OwnedPostings := do
  let postings ← page.postingRefs
  let offset ← page.postingStart
  .ok ⟨page, offset, postings.compressed, postings.remaining, none, false⟩

/-- The next posting; after an error there is none. -/
def next (it : OwnedPostings) : Option (Except Error OwnerRef) × OwnedPostings :=
  if it.failed then (none, it)
  else if it.page.len < it.offset then
    (some (.error .invalidState), { it with failed := true })
  else
    -- resume the shared decoder at its exact byte offset
    let postings : Postings :=
      ⟨Reader.new (it.page.used.drop it.offset), it.compressed, it.remaining, it.previous, false⟩
    let (value, postings) := postings.next
    (value, { it with
      offset := it.offset + postings.reader.offset
      remaining := postings.remaining
      previous := postings.previous
      failed := postings.failed })

/-- The direct coordinate of the last decoded owner, if the page has coordinates. -/
def currentDirect (it : OwnedPostings) (layout : HeapLayout) :
    Except Error (Option (Option RootTid)) :=
  if it.page.kind ≠ .directPostings then .ok none
  else do
    let count ← it.page.u16 22
    Grouped.require (it.remaining + 1 ≤ count) .invalidState
    let root ← it.page.directRoot (count - (it.remaining + 1)) layout
    .ok (some root)

end OwnedPostings

/-! ### Building -/

/-- `Page::new` -/
def new (block : ℕ) (kind : PageKind) (tag : UInt8) : Except Error Image :=
  if block = noBlock ∨ ¬ (block = 0 ↔ kind = .info) then .error .codec
  else .ok {
    block
    kind
    len := pageHeader
    initializes := false
    bytes := ([0x50, 0x49, 0x4e, 0x32] ++ leBytes 2 2 ++ [tag, 0] ++ leBytes 4 block ++
      leBytes 4 noBlock) ++ List.replicate (capacity - pageHeader) 0
    size := by
      simp only [List.length_append, Reader.length_leBytes, List.length_replicate]
      rfl
    fits := by decide }

/-- The image after an edit. -/
def edited (x : Edit PUnit) (p : Image) : Except Error Image :=
  match x p with
  | (.ok _, q) => .ok q
  | (.error e, _) => .error e

/-- `Page::postings` -/
def postings (block : ℕ) (term : TermRef) : Except Error Image := do
  Grouped.require (blockValid term.page ∧ pageHeader ≤ term.offset) .codec
  let page ← new block .postings 4
  edited (do
    setLen postingHeader
    putU32 16 term.page
    putU16 20 term.offset) page

/-- Builds one compressed page without a heap allocation or a decoder rescan. -/
structure SealedBuilder where
  page : Image
  previous : Option OwnerRef
  count : ℕ

/-- A writer on the page of a builder. -/
abbrev Build := Read SealedBuilder Error

/-- Edits the page of the builder. -/
def onPage (x : Edit PUnit) : Build PUnit := fun b =>
  ((x b.page).1, { b with page := (x b.page).2 })

/-- `OwnerRef::write` into the sixteen bytes at `offset`. -/
def putOwner (offset : ℕ) (owner : OwnerRef) : Edit PUnit := do
  let (_, bytes) ← Read.ofExcept (Writer.fill 16 owner.write)
  put offset bytes

namespace SealedBuilder

/-- A sealed page of the term without postings. -/
def new (block : ℕ) (term : TermRef) : Except Error SealedBuilder := do
  let page ← Image.postings block term
  let page ← edited (put 6 [7]) { page with kind := .sealedPostings }
  .ok ⟨page, none, 0⟩

/-- A direct page of the term without postings. -/
def newDirect (block : ℕ) (term : TermRef) : Except Error SealedBuilder := do
  let builder ← new block term
  let page ← edited (do
    put 6 [9]
    setLen directHeader) { builder.page with kind := .directPostings }
  .ok { builder with page }

/-- Remembers the last reference. -/
def remember (owner : OwnerRef) : Build PUnit := fun b =>
  (.ok ⟨⟩, { b with
    previous := some owner
    count := b.count + 1 })

/-- Counts one more reference. -/
def pushed (owner : OwnerRef) : Build PUnit := do
  let b ← Read.cursor
  onPage (putU16 22 (b.count + 1))
  remember owner

/-- Builds parallel fixed coordinate and compressed identity streams. -/
def pushDirect (owner : OwnerRef) (root : RootTid) : Build Bool := do
  let b ← Read.cursor
  Read.ensure (b.page.kind = .directPostings) .codec
  let (len, bytes) ← Read.ofExcept (Writer.fill 20 (writeDelta owner b.previous))
  if capacity < b.page.len + len + 8 then return false
  else
    let start := directHeader + b.count * 8
    onPage (copyWithin start b.page.len (start + 8))
    onPage (put start (leBytes 4 root.block ++ (leBytes 2 root.offset ++ (leBytes 1 1 ++
      leBytes 1 0))))
    onPage (setLen (b.page.len + 8))
    onPage (put (b.page.len + 8) (bytes.take len))
    onPage (setLen (b.page.len + 8 + len))
    onPage (if b.count = 0 then putOwner postingHeader owner else pure ⟨⟩)
    onPage (putOwner (postingHeader + 16) owner)
    pushed owner
    return true

/-- Returns false without mutation when this page has no room for the owner. -/
def push (owner : OwnerRef) : Build Bool := do
  let b ← Read.cursor
  Read.ensure (b.page.kind = .sealedPostings) .codec
  let (len, bytes) ← Read.ofExcept (Writer.fill 20 (writeDelta owner b.previous))
  if capacity < b.page.len + len then return false
  else
    onPage (put b.page.len (bytes.take len))
    onPage (setLen (b.page.len + len))
    pushed owner
    return true

/-- The finished page; a page without postings is refused. -/
def finish (b : SealedBuilder) : Except Error Image :=
  if b.count = 0 then .error .invalidState else .ok b.page

end SealedBuilder

end Image

end PinCore
