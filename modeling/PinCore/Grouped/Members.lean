import PinCore.Grouped.Bitmap

/-!
# Segment groups

One immutable owner map and one clear-only liveness image for each group.  Opening a segment
group binds the two to the same identity and checks every liveness payload against the members.
-/

namespace PinCore

namespace Grouped

/-- A document of a group: its place and its incarnation. -/
structure Member where
  root : RootTid
  incarnation : ℕ
  deriving DecidableEq, Repr

/-- A checked membership record. -/
structure Members where
  bytes : List UInt8
  header : Header
  deriving DecidableEq, Repr

/-- Roots in the order of their keys. -/
def rootKey (r : RootTid) : ℕ := r.block * 65536 + r.offset

/-- The page of a heap block inside its group. -/
def pageOf (block : ℕ) : ℕ := block % 256

/-- Add a page to a mask. -/
def insertPage (mask page : ℕ) : ℕ := mask ||| 2 ^ page

/-- The place lies in the group. -/
def validateRoot (key : GroupKey) (r : RootTid) : Except Error Unit :=
  require (r.block - r.block % 256 = key.base ∧ r.offset ≤ key.maxOffset) .invalidState

namespace Members

/-- The group of the members. -/
def key (m : Members) : GroupKey := m.header.key

/-- The number of members. -/
def len (m : Members) : ℕ := m.header.count

/-- Reads one checked owner record. -/
def get (m : Members) (index : ℕ) : Except Error Member := do
  require (index < m.len) .invalidParameters
  let start := 72 + index * 16
  let block := leAt m.bytes start 4
  let offset := leAt m.bytes (start + 4) 2
  require (leAt m.bytes (start + 6) 2 = 0) .invalidState
  require (block ≠ noBlock ∧ offset ≠ 0 ∧ offset ≤ m.key.maxOffset) .invalidState
  let incarnation := leAt m.bytes (start + 8) 8
  require (incarnation ≠ 0) .invalidState
  .ok ⟨⟨block, offset⟩, incarnation⟩

/-- The records in order: roots of the group, ascending; returns their page summary. -/
def check (m : Members) : ℕ → ℕ → Option RootTid → ℕ → Except Error ℕ
  | 0, _, _, mask => .ok mask
  | n + 1, index, previous, mask => do
    let member ← m.get index
    let _ ← validateRoot m.key member.root
    require (∀ p ∈ previous, rootKey p < rootKey member.root) .duplicateDocument
    check m n (index + 1) (some member.root) (insertPage mask (pageOf member.root.block))

/-- Validates every membership record and the exact page summary.  (`open` in the source.) -/
def openRecord (bytes : List UInt8) : Except Error Members := do
  let h ← Header.read bytes
  require (h.kind = 3 ∧ h.count ≤ 256 * h.key.maxOffset ∧ bytes.length = 72 + h.count * 16)
    .invalidState
  let m : Members := ⟨bytes, h⟩
  let mask ← m.check m.len 0 none 0
  require (mask = h.mask) .invalidState
  .ok m

/-- Binary search for the first record at or past a root key. -/
def lowerBound (m : Members) (key : ℕ) : ℕ → ℕ → ℕ → Except Error ℕ
  | 0, lo, _ => .ok lo
  | fuel + 1, lo, hi =>
    if lo < hi then do
      let mid := lo + (hi - lo) / 2
      let member ← m.get mid
      if rootKey member.root < key then lowerBound m key fuel (mid + 1) hi
      else lowerBound m key fuel lo mid
    else .ok lo

/-- The offsets of the records from `index` on that lie in one block. -/
def offsetsFrom (m : Members) (block : ℕ) : ℕ → ℕ → ℕ → Except Error ℕ
  | 0, _, mask => .ok mask
  | n + 1, index, mask => do
    let member ← m.get index
    if member.root.block ≠ block then .ok mask
    else offsetsFrom m block n (index + 1) (mask ||| 2 ^ (member.root.offset - 1))

/-- The offsets of the members on a page of the group. -/
def pageOffsets (m : Members) (page : ℕ) : Except Error ℕ := do
  let block ← m.key.block page
  let index ← m.lowerBound (block * 65536) (m.len + 1) 0 m.len
  m.offsetsFrom block (m.len - index) index 0

end Members

/-- Members in order, each a root of the group; returns their page summary. -/
def checkMembers (key : GroupKey) : Option RootTid → ℕ → List Member → Except Error ℕ
  | _, mask, [] => .ok mask
  | previous, mask, member :: rest => do
    let _ ← validateRoot key member.root
    require (∀ p ∈ previous, rootKey p < rootKey member.root) .duplicateDocument
    checkMembers key (some member.root) (insertPage mask (pageOf member.root.block)) rest

/-- Encodes a complete, sorted membership. -/
def encodeMembers (key : GroupKey) (members : List Member) (room : ℕ) :
    Except Error (List UInt8) := do
  require (members.length ≤ 256 * key.maxOffset) (.limit "group members")
  let length := 72 + members.length * 16
  require (length ≤ room) (.limit "group membership output")
  let mask ← checkMembers key none 0 members
  .ok (leBytes 4 magic ++ leBytes 2 1 ++ [3, 0] ++ leBytes 4 length ++ leBytes 4 key.base ++
    leBytes 8 key.relation ++ leBytes 8 key.segment ++ leBytes 2 key.maxOffset ++
    leBytes 2 (setBits mask 256).length ++ leBytes 4 members.length ++ leBytes 32 mask ++
    members.flatMap fun x => leBytes 4 x.root.block ++ leBytes 2 x.root.offset ++ leBytes 2 0 ++
      leBytes 8 x.incarnation)

/-- A membership with its liveness image. -/
structure SegmentGroup where
  members : Members
  live : Bitmap
  deriving DecidableEq, Repr

namespace SegmentGroup

/-- One page of the liveness image against the members. -/
def checkPage (m : Members) (live : Bitmap) (page : ℕ) : Except Error Unit := do
  let all ← m.pageOffsets page
  let current ← live.offsets page
  let len ← bitmapLen m.key all
  require (live.payloadBytes page = len ∧ Nat.ldiff current all = 0) .invalidState

/-- Binds one liveness image to the membership of the same identity.  (`open` in the source.) -/
def openGroup (members live : List UInt8) : Except Error SegmentGroup := do
  let m ← Members.openRecord members
  let b ← Bitmap.openRecord live
  require (b.kind = .liveness ∧ b.key = m.key ∧ b.mask = m.header.mask) .invalidState
  (setBits m.header.mask 256).forM fun page => checkPage m b page
  .ok ⟨m, b⟩

/-- The group of a segment. -/
def key (s : SegmentGroup) : GroupKey := s.members.key

end SegmentGroup

end Grouped

end PinCore
