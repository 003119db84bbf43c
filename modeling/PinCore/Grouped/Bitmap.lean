import PinCore.Codec.Bytes
import PinCore.Lib.Bits
import PinCore.Page.Basic

/-!
# Grouped bitmap records

Records over one aligned group of 256 heap pages: a header, a directory with one entry for each
present page, and packed offset payloads.  Page and offset masks are natural numbers whose set
bits are the members.
-/

namespace PinCore

namespace Grouped

/-- The little-endian integer of `width` bytes at `offset`. -/
def leAt (bytes : List UInt8) (offset width : ℕ) : ℕ := leNat ((bytes.drop offset).take width)

/-- One little-endian field of a record; a truncated record has none. -/
def field (bytes : List UInt8) (offset width : ℕ) : Except Error ℕ :=
  if bytes.length < offset + width then .error .codec else .ok (leAt bytes offset width)

/-- Go on only if `c` holds. -/
def require (c : Prop) [Decidable c] (e : Error) : Except Error Unit :=
  if c then .ok ⟨⟩ else .error e

/-- Identity of one group record. -/
structure GroupKey where
  relation : ℕ
  segment : ℕ
  base : ℕ
  maxOffset : ℕ
  deriving DecidableEq, Repr

/-- The last heap group has no page for the invalid block number. -/
def GroupKey.block (k : GroupKey) (page : ℕ) : Except Error ℕ :=
  if k.base + page = noBlock then .error .invalidState else .ok (k.base + page)

/-- What the coordinates of a bitmap stand for. -/
inductive BitmapKind where
  | posting
  | liveness
  deriving DecidableEq, Repr

/-- The kind byte of a record. -/
def BitmapKind.tag : BitmapKind → List UInt8
  | posting => [1]
  | liveness => [2]

/-- The offsets of a page of the group, as a mask. -/
structure PageOffsets where
  page : ℕ
  offsets : ℕ
  deriving DecidableEq, Repr

/-- The leading fields of a record. -/
structure Header where
  key : GroupKey
  kind : ℕ
  count : ℕ
  mask : ℕ
  deriving DecidableEq, Repr

/-- The magic `PNG9`. -/
def magic : ℕ := 0x39474e50

/-- `Header::read`: the fields in order, each checked as it is read. -/
def Header.read (bytes : List UInt8) : Except Error Header := do
  require ((← field bytes 0 4) = magic) .invalidState
  require ((← field bytes 4 2) = 1) .invalidState
  let kind ← field bytes 6 1
  require (kind = 1 ∨ kind = 2 ∨ kind = 3) .invalidState
  require ((← field bytes 7 1) = 0) .invalidState
  require ((← field bytes 8 4) = bytes.length) .invalidState
  let base ← field bytes 12 4
  let relation ← field bytes 16 8
  require (relation ≠ 0) .invalidState
  let segment ← field bytes 24 8
  require (segment ≠ 0) .invalidState
  let maxOffset ← field bytes 32 2
  require (maxOffset ≠ 0 ∧ maxOffset ≤ 512) .invalidState
  let pages ← field bytes 34 2
  let count ← field bytes 36 4
  let mask ← field bytes 40 32
  require (base % 256 = 0) .invalidParameters
  require (pages = (setBits mask 256).length ∧ ¬ (base = 4294967040 ∧ mask.testBit 255 = true))
    .invalidState
  .ok ⟨⟨relation, segment, base, maxOffset⟩, kind, count, mask⟩

/-- A checked bitmap record. -/
structure Bitmap where
  bytes : List UInt8
  key : GroupKey
  kind : BitmapKind
  mask : ℕ
  deriving DecidableEq, Repr

/-- The length of the header. -/
def bitmapHeader : ℕ := 72

/-- The length of the longest bitmap. -/
def maxBitmapBytes : ℕ := 72 + 256 * 68

namespace Bitmap

/-- Start of the packed payloads. -/
def bodyStart (b : Bitmap) : ℕ := bitmapHeader + (setBits b.mask 256).length * 4

/-- The directory is packed from zero with admissible widths; returns the payload length. -/
def directoryEnd (bytes : List UInt8) (width : ℕ) : ℕ → ℕ → ℕ → Except Error ℕ
  | 0, _, total => .ok total
  | n + 1, at', total =>
    let len := leAt bytes (at' + 2) 1
    if leAt bytes at' 2 ≠ total ∨ len = 0 ∨ width < len ∨ leAt bytes (at' + 3) 1 ≠ 0 then
      .error .invalidState
    else directoryEnd bytes width n (at' + 4) (total + len)

/-- Opens a bounded record without decoding any offset payload.  (`open` in the source.) -/
def openRecord (bytes : List UInt8) : Except Error Bitmap := do
  if maxBitmapBytes < bytes.length then .error (.limit "bitmap group bytes")
  else
    let h ← Header.read bytes
    require ((h.kind = 1 ∨ h.kind = 2) ∧ h.count = 0) .invalidState
    let b : Bitmap := ⟨bytes, h.key, if h.kind = 1 then .posting else .liveness, h.mask⟩
    require (b.bodyStart ≤ bytes.length) .invalidState
    let total ← directoryEnd bytes ((b.key.maxOffset + 7) / 8) (setBits b.mask 256).length
      bitmapHeader 0
    require (total = bytes.length - b.bodyStart) .invalidState
    .ok b

/-- Payload start and length of one present page. -/
def span (b : Bitmap) (page : ℕ) : Option (ℕ × ℕ) :=
  if b.mask.testBit page then
    let entry := bitmapHeader + (setBits b.mask page).length * 4
    some (b.bodyStart + leAt b.bytes entry 2, leAt b.bytes (entry + 2) 1)
  else none

/-- Decodes the offsets of one page. -/
def offsets (b : Bitmap) (page : ℕ) : Except Error ℕ :=
  match b.span page with
  | none => .ok 0
  | some (start, len) =>
    let last := leAt b.bytes (start + len - 1) 1
    let domain := b.key.maxOffset
    if (b.kind = .posting ∧ last = 0) ∨ (domain < len * 8 ∧ last / 2 ^ (domain % 8) ≠ 0) then
      .error .invalidState
    else .ok (leAt b.bytes start len)

/-- The length of the payload of a page. -/
def payloadBytes (b : Bitmap) (page : ℕ) : ℕ := ((b.span page).map Prod.snd).getD 0

/-- Checks every payload. -/
def validateAll (b : Bitmap) : Except Error Unit :=
  (setBits b.mask 256).forM fun page => do let _ ← b.offsets page

end Bitmap

/-- Bytes of one offset payload. -/
def bitmapLen (key : GroupKey) (offsets : ℕ) : Except Error ℕ :=
  if offsets = 0 ∨ key.maxOffset < offsets.log2 + 1 then .error .invalidState
  else .ok ((offsets.log2 + 1 + 7) / 8)

/-- Directory entries of the encoded pages. -/
def encodeDirectory (key : GroupKey) : ℕ → List PageOffsets → Except Error (List UInt8)
  | _, [] => .ok []
  | start, p :: ps => do
    let len ← bitmapLen key p.offsets
    let rest ← encodeDirectory key (start + len) ps
    .ok (leBytes 2 start ++ leBytes 1 len ++ [0] ++ rest)

/-- Packed payloads of the encoded pages. -/
def encodePayloads (key : GroupKey) : List PageOffsets → Except Error (List UInt8)
  | [] => .ok []
  | p :: ps => do
    let _ ← key.block p.page
    let len ← bitmapLen key p.offsets
    let rest ← encodePayloads key ps
    .ok (leBytes len p.offsets ++ rest)

/-- Encodes sorted nonempty pages. -/
def encodeBitmap (key : GroupKey) (kind : BitmapKind) (pages : List PageOffsets) (room : ℕ) :
    Except Error (List UInt8) := do
  if ¬ pages.Pairwise (fun a b => a.page < b.page) then .error .invalidState
  else
    let payloads ← encodePayloads key pages
    let entries ← encodeDirectory key 0 pages
    let mask := (pages.map fun p => 2 ^ p.page).sum
    let length := bitmapHeader + entries.length + payloads.length
    if room < length then .error (.limit "bitmap group output")
    else
      .ok ([0x50, 0x4e, 0x47, 0x39, 1, 0] ++ kind.tag ++ [0] ++ leBytes 4 length ++
        leBytes 4 key.base ++ leBytes 8 key.relation ++ leBytes 8 key.segment ++
        leBytes 2 key.maxOffset ++ leBytes 2 pages.length ++ leBytes 4 0 ++ leBytes 32 mask ++
        entries ++ payloads)

/-! ### Retirement -/

/-- The removable roots among the set offsets of one heap page, as byte positions to clear. -/
def clearOffsets (removable : RootTid → Bool) (block start : ℕ) (bits : List ℕ) : List (ℕ × ℕ) :=
  bits.filterMap fun bit =>
    if removable ⟨block, bit + 1⟩ then some (start + bit / 8, bit % 8) else none

/-- The bits to clear, over the present pages of the record. -/
def clearPages (b : Bitmap) (removable : RootTid → Bool) : List ℕ → Except Error (List (ℕ × ℕ))
  | [] => .ok []
  | page :: rest => do
    let offsets ← b.offsets page
    match b.span page with
    | none => .error .invalidState
    | some (start, _) =>
      let block ← b.key.block page
      let bits := setBits offsets 512
      if bits.any fun bit => decide (b.key.maxOffset < bit + 1) then .error .invalidState
      else
        let more ← clearPages b removable rest
        .ok (clearOffsets removable block start bits ++ more)

/-- Clear one bit of a byte string. -/
def clearBit (bytes : List UInt8) (position : ℕ × ℕ) : List UInt8 :=
  bytes.modify position.1 fun byte =>
    if byte.toNat.testBit position.2 then (byte.toNat - 2 ^ position.2).toUInt8 else byte

/-- Clears all removable roots in a private liveness image; returns it with their number. -/
def retireRoots (bytes : List UInt8) (key : GroupKey) (removable : RootTid → Bool) :
    Except Error (ℕ × List UInt8) := do
  let b ← Bitmap.openRecord bytes
  if b.kind ≠ .liveness ∨ b.key ≠ key then .error .invalidState
  else
    let positions ← clearPages b removable (setBits b.mask 256)
    .ok (positions.length, positions.foldl clearBit bytes)

end Grouped

end PinCore
