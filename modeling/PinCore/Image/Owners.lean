import PinCore.Image.Basic
import PinCore.Page.Ops

/-!
# Owner pages in bytes

An owner page is a count, a record of forty bytes for each slot, and the inline payloads in slot
order.  A new record goes in front of the payloads, so that the stored offsets of all payloads
move with them.  Decoding recovers the slots of the page model, and the edits are its operations.
-/

namespace PinCore

open Grouped
open Page (OwnerChange)

namespace Image

/-! ### Reading -/

/-- The number of slots. -/
def ownerCount (p : Image) : Except Error ℕ := do
  p.require .owners
  let count ← p.u16 16
  let reserved ← p.u16 18
  Grouped.require (reserved = 0 ∧ ownerHeader + count * ownerBytes ≤ p.len) .codec
  .ok count

/-- The publication state with a code. -/
def publicationOf : ℕ → Except Error Publication
  | 0 => .ok .allocated
  | 1 => .ok .fragmentsWritten
  | 2 => .ok .published
  | 3 => .ok .abandoned
  | _ => .error .codec

/-- The liveness with a code; only a published owner is live. -/
def liveOf (publication : Publication) : ℕ → Except Error Bool
  | 0 => .ok false
  | 1 => if publication = .published then .ok true else .error .codec
  | _ => .error .codec

/-- The inline payload that a record names. -/
def inlineAt (p : Image) (count inlineOffset inlineLen dataBytes dataHead : ℕ) :
    Except Error (List UInt8) :=
  if inlineLen = 0 then if inlineOffset = 0 then .ok [] else .error .codec
  else if inlineLen ≠ dataBytes ∨ dataHead ≠ noBlock ∨
      inlineOffset < ownerHeader + count * ownerBytes then .error .codec
  else if inlineOffset + inlineLen ≤ p.len then .ok ((p.used.drop inlineOffset).take inlineLen)
  else .error .codec

/-- The owner in a slot. -/
def owner (p : Image) (slot : ℕ) (layout : HeapLayout) : Except Error Owner := do
  let count ← p.ownerCount
  Grouped.require (slot < count) .codec
  let offset := ownerHeader + slot * ownerBytes
  let incarnation := leAt p.bytes offset 8
  Grouped.require (incarnation ≠ 0) .codec
  let root : RootTid := ⟨leAt p.bytes (offset + 8) 4, leAt p.bytes (offset + 12) 2⟩
  Grouped.require (root.Valid layout) .codec
  let publication ← publicationOf (leAt p.bytes (offset + 14) 1)
  let live ← liveOf publication (leAt p.bytes (offset + 15) 1)
  let tokens := leAt p.bytes (offset + 16) 4
  let terms := leAt p.bytes (offset + 20) 4
  let dataHead := leAt p.bytes (offset + 24) 4
  let dataBytes := leAt p.bytes (offset + 28) 4
  let inlineOffset := leAt p.bytes (offset + 32) 2
  let inlineLen := leAt p.bytes (offset + 34) 2
  Grouped.require (leAt p.bytes (offset + 36) 4 = 0 ∧ tokens ≤ maxDocumentTokens ∧
    terms ≤ tokens ∧ 16 ≤ dataBytes ∧ dataBytes ≤ maxDocumentBytes ∧
    (dataHead = noBlock ∨ blockValid dataHead)) .codec
  let inline ← p.inlineAt count inlineOffset inlineLen dataBytes dataHead
  Grouped.require ((publication = .fragmentsWritten ∨ live = true) → inline = [] →
    dataHead ≠ noBlock) .codec
  Grouped.require (publication = .allocated → dataHead = noBlock) .codec
  .ok ⟨⟨p.block, slot, incarnation⟩,
    ⟨incarnation, root, publication, live, tokens, terms, dataHead, dataBytes, inline⟩⟩

/-- The payloads follow each other in slot order; the result is the end of the last one. -/
def checkPayloads (p : Image) (layout : HeapLayout) : ℕ → ℕ → ℕ → Except Error ℕ
  | _, 0, payload => .ok payload
  | slot, n + 1, payload => do
    let o ← p.owner slot layout
    if o.record.inline = [] then checkPayloads p layout (slot + 1) n payload
    else
      let stored ← p.u16 (ownerHeader + slot * ownerBytes + 32)
      Grouped.require (stored = payload) .codec
      checkPayloads p layout (slot + 1) n (payload + o.record.inline.length)

/-- `Page::validate` of an owner page. -/
def validateOwners (p : Image) (layout : HeapLayout) : Except Error Unit := do
  p.checkNext
  p.checkBlock
  let count ← p.ownerCount
  let payload ← p.checkPayloads layout 0 count (ownerHeader + count * ownerBytes)
  Grouped.require (payload = p.len) .codec

/-! ### Writing -/

/-- `Page::owners` -/
def owners (block : ℕ) : Except Error Image :=
  if block = noBlock ∨ block = 0 then .error .codec
  else .ok {
    block
    kind := .owners
    len := ownerHeader
    initializes := false
    bytes := ([0x50, 0x49, 0x4e, 0x32] ++ leBytes 2 2 ++ [2, 0] ++ leBytes 4 block ++
      leBytes 4 noBlock) ++ List.replicate (capacity - pageHeader) 0
    size := by
      simp only [List.length_append, Reader.length_leBytes, List.length_replicate]
      rfl
    fits := by decide }

/-- Moves the payload offsets of `n` records from `slot` on behind one more record. -/
def rebase : ℕ → ℕ → Edit PUnit
  | _, 0 => return ⟨⟩
  | slot, n + 1 => do
    let record := ownerHeader + slot * ownerBytes
    let inlineOffset ← check (·.u16 (record + 32))
    if inlineOffset ≠ 0 then
      Read.ensure (inlineOffset + ownerBytes < 65536) .codec
      putU16 (record + 32) (inlineOffset + ownerBytes)
      rebase (slot + 1) n
    else rebase (slot + 1) n

/-- Appends a never-reused slot, packing small payloads into the owner page.  Returns `none`
without mutation when this page is full. -/
def appendOwner (incarnation : ℕ) (root : RootTid) (tokens terms : ℕ) (payload : List UInt8) :
    Edit (Option OwnerRef) := do
  let count ← check (·.ownerCount)
  Read.ensure (tokens ≤ maxDocumentTokens ∧ terms ≤ tokens ∧ 16 ≤ payload.length ∧
    payload.length ≤ maxDocumentBytes) .invalidDocument
  let inline := if payload.length ≤ inlineBytes then payload else []
  let p ← Read.cursor
  if capacity < p.len + ownerBytes + inline.length then return none
  else
    let offset := ownerHeader + count * ownerBytes
    -- fixed slots stay in place; only private inline bytes move past the new slot
    copyWithin offset p.len (offset + ownerBytes)
    rebase 0 count
    let inlineOffset := p.len + ownerBytes
    setLen (p.len + ownerBytes + inline.length)
    put offset (leBytes 8 incarnation ++ (leBytes 4 root.block ++ (leBytes 2 root.offset ++
      (leBytes 1 0 ++ (leBytes 1 0 ++ (leBytes 4 tokens ++ (leBytes 4 terms ++ (leBytes 4 noBlock ++
        (leBytes 4 payload.length ++ (leBytes 2 (if inline = [] then 0 else inlineOffset) ++
          (leBytes 2 inline.length ++ leBytes 4 0)))))))))))
    put inlineOffset inline
    putU16 16 (count + 1)
    return some ⟨p.block, count, incarnation⟩

/-- The state, liveness and data head after an allowed change. -/
def changed (o : OwnerSlot) : OwnerChange → Except Error (ℕ × ℕ × ℕ)
  | .payloadReady head =>
    if o.publication = .allocated then
      if (o.inline = [] ∧ ¬ blockValid head) ∨ (o.inline ≠ [] ∧ head ≠ noBlock) then .error .codec
      else .ok (1, 0, head)
    else .error .invalidState
  | .publish =>
    if o.publication = .fragmentsWritten then .ok (2, 1, o.dataHead) else .error .invalidState
  | .remove =>
    if o.publication = .published ∧ o.live = true then .ok (2, 0, noBlock)
    else .error .invalidState
  | .abandon =>
    if o.publication = .allocated ∨ o.publication = .fragmentsWritten then .ok (3, 0, noBlock)
    else .error .invalidState

/-- Applies one explicit publication or liveness change. -/
def changeOwner (reference : OwnerRef) (change : OwnerChange) (layout : HeapLayout) :
    Edit PUnit := do
  let o ← check (·.owner reference.slot layout)
  Read.ensure (o.reference = reference) .codec
  let (state, live, head) ← Read.ofExcept (changed o.record change)
  let offset := ownerHeader + reference.slot * ownerBytes
  put (offset + 14) (leBytes 1 state)
  put (offset + 15) (leBytes 1 live)
  putU32 (offset + 24) head

end Image

end PinCore
