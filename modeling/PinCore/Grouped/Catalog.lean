import PinCore.Grouped.Bitmap
import PinCore.Grouped.Storage

/-!
# The grouped catalog

A bounded tree of immutable nodes from keys to record values, its cursor, and the retirement of
liveness bits through it.  `references` decides whether a page mentions a block, for the orphan
check of `vacuum`.
-/

namespace PinCore

namespace Grouped

/-! ### Grouped page accessors -/

/-- The node view of a catalog page: level and entries. -/
def groupNode (p : Page) : Except Error (ℕ × List CatalogEntry) :=
  match p.body with
  | .grouped (.node _ level entries) =>
    if maxCatalogLevel < level ∨ entries = [] ∨ catalogEntries < entries.length then
      .error .invalidState
    else .ok (level, entries)
  | _ => .error .invalidState

/-- One record fragment. -/
structure GroupData where
  id : ℕ
  kind : GroupPageKind
  key : ℕ × ℕ
  total : ℕ
  offset : ℕ
  bytes : List UInt8
  deriving DecidableEq, Repr

/-- The record on a grouped page. -/
def groupData (p : Page) : Except Error GroupData :=
  match p.body with
  | .grouped (.record id kind key total offset bytes) =>
    if (GroupBody.record id kind key total offset bytes).Ok p.block then
      .ok ⟨id, kind, key, total, offset, bytes⟩
    else .error .invalidState
  | _ => .error .invalidState

/-- Creates one bounded record fragment. -/
def groupRecord (block : ℕ) (d : GroupData) : Except Error Page := do
  let p ← Page.new block (.grouped (.record d.id d.kind d.key d.total d.offset d.bytes))
  if groupDataBytes < d.bytes.length then .error (.limit "group fragment")
  else
    let _ ← groupData p
    .ok p

/-! ### Catalog values -/

/-- A catalog value: a record of `len` bytes in at most three pages, or inline coordinates. -/
structure Value where
  len : ℕ
  blocks : List ℕ
  pages : ℕ
  members : ℕ
  memberBytes : ℕ
  count : ℕ
  inline : Option (List UInt8)
  deriving DecidableEq, Repr

/-- The number of coordinates in the largest inline value. -/
def inlinePostings : ℕ := 18

/-- The coordinates of an inline value; the older form keeps them in the record fields. -/
def Value.inlineBytes (v : Value) : List UInt8 :=
  match v.inline with
  | some bytes => bytes
  | none =>
    v.blocks.flatMap (leBytes 4) ++ leBytes 4 v.members ++ leBytes 4 v.memberBytes ++
      List.replicate (inlinePostings * 3 - 20) 0

/-- Decodes ascending three-byte coordinates: page above nine offset bits. -/
def coordinates (maxOffset : ℕ) : List UInt8 → ℕ → Option ℕ → Except Error (List ℕ)
  | _, 0, _ => .ok []
  | bytes, n + 1, previous =>
    let coordinate := leAt bytes 0 3
    if maxOffset < coordinate % 512 + 1 ∨ ∃ old ∈ previous, coordinate ≤ old then
      .error .invalidState
    else do
      let rest ← coordinates maxOffset (bytes.drop 3) n (some coordinate)
      .ok (coordinate :: rest)

/-- Collects coordinates by page; of the page only eight bits are kept. -/
def collectPages : List ℕ → List PageOffsets
  | [] => []
  | c :: cs =>
    match collectPages cs with
    | p :: ps =>
      if p.page = c / 512 % 256 then ⟨p.page, p.offsets ||| 2 ^ (c % 512)⟩ :: ps
      else ⟨c / 512 % 256, 2 ^ (c % 512)⟩ :: p :: ps
    | [] => [⟨c / 512 % 256, 2 ^ (c % 512)⟩]

/-- The page mask of collected coordinates. -/
def pageMask (pages : List PageOffsets) : ℕ :=
  pages.foldl (fun mask p => mask ||| 2 ^ p.page) 0

/-- The pages and offsets of an inline value. -/
def Value.inlinePages (v : Value) (maxOffset : ℕ) : Except Error (List PageOffsets) := do
  let most := match v.inline with
    | some _ => inlinePostings
    | none => 6
  if v.len ≠ 0 ∨ v.count = 0 ∨ most < v.count then .error .invalidState
  else if (v.inlineBytes.drop (v.count * 3)).any fun b => b ≠ 0 then .error .invalidState
  else
    let cs ← coordinates maxOffset v.inlineBytes v.count none
    let pages := collectPages cs
    if v.inline = none ∧ pageMask pages ≠ v.pages then .error .invalidState
    else .ok pages

/-- The checks of a value whose record is stored in pages. -/
def Value.StoredOk (v : Value) (key : ℕ × ℕ) : Prop :=
  let used := (v.len + groupDataBytes - 1) / groupDataBytes
  72 ≤ v.len ∧ v.len ≤ maxBitmapBytes ∧
    (∀ b ∈ v.blocks.take used, blockValid b) ∧ (v.blocks.take used).Nodup ∧
    (∀ b ∈ v.blocks.drop used, b = noBlock) ∧
    (if key.1 = 0 then
      v.members ≠ 0 ∧ v.members ≠ noBlock ∧ v.count ≠ 0 ∧ v.count ≤ 256 * 512 ∧
        v.memberBytes = 72 + v.count * 16 ∧ v.members ∉ v.blocks
    else v.members = noBlock ∧ v.memberBytes = 0 ∧ v.count = 0) ∧
    v.pages ≠ 0

instance (v : Value) (key : ℕ × ℕ) : Decidable (v.StoredOk key) := by
  unfold Value.StoredOk; infer_instance

/-- Decodes the 64 value bytes of a leaf entry. -/
def Value.read (e : CatalogEntry) : Except Error Value := do
  if leAt e.value 0 4 = 0 ∧ leAt e.value 60 4 ≠ 0 then
    if e.key.1 = 0 ∨ leAt e.value 58 2 ≠ 0 then .error .invalidState
    else
      let v : Value := ⟨0, [noBlock, noBlock, noBlock], 0, noBlock, 0, leAt e.value 60 4,
        some ((e.value.drop 4).take 54)⟩
      let pages ← v.inlinePages 512
      .ok { v with pages := pageMask pages }
  else
    let v : Value := ⟨leAt e.value 0 4, [leAt e.value 4 4, leAt e.value 8 4, leAt e.value 12 4],
      leAt e.value 16 32, leAt e.value 48 4, leAt e.value 52 4, leAt e.value 56 4, none⟩
    if leAt e.value 60 4 ≠ 0 then .error .invalidState
    else if v.len = 0 then
      if e.key.1 = 0 then .error .invalidState
      else
        let _ ← v.inlinePages 512
        .ok v
    else if v.StoredOk e.key then .ok v else .error .invalidState

/-! ### Anchors -/

/-- A captured suffix of a canonical posting chain. -/
structure Anchor where
  head : ℕ
  tail : ℕ
  last : ℕ
  deriving DecidableEq, Repr

namespace Anchor

/-- The key names a place of a dictionary page. -/
def validTerm (key : ℕ) : Prop :=
  0 < key / 65536 ∧ key / 65536 < noBlock ∧ 16 ≤ key % 65536 ∧ key % 65536 < capacity

instance (key : ℕ) : Decidable (validTerm key) := inferInstanceAs (Decidable (_ ∧ _))

/-- The anchor of a term from the ends of its chain and its last incarnation. -/
def new (head tail last : ℕ) : Except Error Anchor :=
  if last = 0 ∨ head = 0 ∨ tail = 0 ∨ ¬ (head = noBlock ↔ tail = noBlock) then
    .error .invalidState
  else .ok ⟨head, tail, last⟩

/-- The entry is an anchor, by its magic. -/
def isEntry (e : CatalogEntry) : Bool := e.value.take 4 = [0x46, 0x53, 0x41, 0x31]

/-- Reads the anchor in an entry. -/
def read (e : CatalogEntry) : Except Error Anchor := do
  if ¬ validTerm e.key.1 ∨ e.key.2 ≠ 0 ∨ isEntry e = false then .error .invalidState
  else
    let a ← new (leAt e.value 4 4) (leAt e.value 8 4) (leAt e.value 12 8)
    if e.value.drop 20 ≠ List.replicate 44 0 then .error .invalidState else .ok a

end Anchor

/-! ### The cursor -/

/-- One leaf image and the path of parents above it, innermost first. -/
structure CatalogCursor where
  leaf : Option Page
  slot : ℕ
  parents : List (ℕ × ℕ)

/-- A cursor that has not been placed. -/
def CatalogCursor.new : CatalogCursor := ⟨none, 0, []⟩

/-- The number of levels of a catalog. -/
def catalogLevels : ℕ := maxCatalogLevel + 1

/-- Binary search for the first entry whose key is not below `key`. -/
def lowerBound (entries : List CatalogEntry) (key : ℕ × ℕ) : ℕ → ℕ → ℕ → ℕ
  | 0, lo, _ => lo
  | fuel + 1, lo, hi =>
    if lo < hi then
      let mid := lo + (hi - lo) / 2
      match entries[mid]? with
      | some e =>
        if keyLt e.key key then lowerBound entries key fuel (mid + 1) hi
        else lowerBound entries key fuel lo mid
      | none => lo
    else lo

/-- The child block of a branch entry. -/
def child (e : CatalogEntry) : Except Error ℕ :=
  if leAt e.value 0 4 = 0 ∨ leAt e.value 0 4 = noBlock ∨ e.value.drop 4 ≠ List.replicate 60 0 then
    .error .invalidState
  else .ok (leAt e.value 0 4)

/-- The entry at an index. -/
def entryAt (entries : List CatalogEntry) (slot : ℕ) : Except Error CatalogEntry :=
  match entries[slot]? with
  | some e => .ok e
  | none => .error .invalidState

namespace CatalogCursor

/-- Descends from a branch entry to the first leaf below it.  `upper` is the key that follows
the entry in the branch where the descent started. -/
def descend (id : ℕ) (upper : Option (ℕ × ℕ)) :
    ℕ → CatalogEntry → CatalogCursor → Rd (Option CatalogEntry × CatalogCursor)
  | 0, _, _ => Obs.fail .invalidState
  | level + 1, entry, c => do
    let block ← Obs.ofExcept (child entry)
    let next ← load block .grouped
    let (nextLevel, entries) ← Obs.ofExcept (groupNode next)
    let i ← Obs.ofExcept (groupId next)
    let first ← Obs.ofExcept (entryAt entries 0)
    let last ← Obs.ofExcept (entryAt entries (entries.length - 1))
    Obs.ensure (i = id ∧ nextLevel = level ∧ first.key = entry.key ∧
      ∀ k ∈ upper, keyLt last.key k) .invalidState
    if level = 0 then return (some first, { c with leaf := some next, slot := 0 })
    else
      Obs.ensure (c.parents.length < catalogLevels) .invalidState
      descend id upper level first { c with parents := (next.block, 0) :: c.parents }

/-- Moves to the next leaf by the innermost parent that has another child. -/
def ascend (id : ℕ) (leaf : Option Page) (slot : ℕ) :
    List (ℕ × ℕ) → Rd (Option CatalogEntry × CatalogCursor)
  | [] => return (none, ⟨none, slot, []⟩)
  | (block, at') :: parents => do
    let p ← load block .grouped
    let (level, entries) ← Obs.ofExcept (groupNode p)
    let i ← Obs.ofExcept (groupId p)
    Obs.ensure (i = id ∧ level ≠ 0) .invalidState
    if entries.length ≤ at' + 1 then ascend id leaf slot parents
    else
      let entry ← Obs.ofExcept (entryAt entries (at' + 1))
      descend id (entries[at' + 2]?.map (·.key)) level entry
        ⟨leaf, slot, (block, at' + 1) :: parents⟩

/-- The entry under the cursor; at the end of a leaf it moves to the next one. -/
def current (c : CatalogCursor) (id : ℕ) : Rd (Option CatalogEntry × CatalogCursor) := do
  match c.leaf with
  | none => return (none, c)
  | some p =>
    let (_, entries) ← Obs.ofExcept (groupNode p)
    match entries[c.slot]? with
    | some e => return (some e, c)
    | none => ascend id c.leaf c.slot c.parents

/-- Moves the cursor to the next entry. -/
def advance (c : CatalogCursor) (id : ℕ) : Rd (Option CatalogEntry × CatalogCursor) :=
  current { c with slot := c.slot + 1 } id

/-- The slot of a branch whose child may hold `key`. -/
def branchSlot (entries : List CatalogEntry) (key : ℕ × ℕ) : ℕ :=
  let lo := lowerBound entries key entries.length 0 entries.length
  match entries[lo]? with
  | some e => if e.key = key then lo else lo - 1
  | none => lo - 1

/-- The walk from the root.  Levels decrease, so `fuel` bounds it. -/
def seekFrom (id : ℕ) (key : ℕ × ℕ) : ℕ → ℕ → Option ℕ → Option (ℕ × ℕ) → Option (ℕ × ℕ) →
    CatalogCursor → Rd (Option CatalogEntry × CatalogCursor)
  | 0, _, _, _, _, _ => Obs.fail .invalidState
  | fuel + 1, block, expected, lower, upper, c => do
    let p ← load block .grouped
    let (level, entries) ← Obs.ofExcept (groupNode p)
    let i ← Obs.ofExcept (groupId p)
    let first ← Obs.ofExcept (entryAt entries 0)
    let last ← Obs.ofExcept (entryAt entries (entries.length - 1))
    Obs.ensure (i = id ∧ (∀ e ∈ expected, level = e) ∧ (∀ k ∈ lower, first.key = k) ∧
      ∀ k ∈ upper, keyLt last.key k) .invalidState
    if level = 0 then
      current { c with
        slot := lowerBound entries key entries.length 0 entries.length
        leaf := some p } id
    else
      let slot := branchSlot entries key
      let entry ← Obs.ofExcept (entryAt entries slot)
      Obs.ensure (c.parents.length < catalogLevels) .invalidState
      let block' ← Obs.ofExcept (child entry)
      seekFrom id key fuel block' (some (level - 1)) (some entry.key)
        (if slot + 1 < entries.length then entries[slot + 1]?.map (·.key) else upper)
        { c with parents := (block, slot) :: c.parents }

/-- The leaf already held covers `key`. -/
def leafCovers (c : CatalogCursor) (key : ℕ × ℕ) : Except Error (Option (List CatalogEntry)) :=
  match c.leaf with
  | none => .ok none
  | some p => do
    let (_, entries) ← groupNode p
    let first ← entryAt entries 0
    let last ← entryAt entries (entries.length - 1)
    .ok (if ¬ keyLt key first.key ∧ ¬ keyLt last.key key then some entries else none)

/-- Moves to the first entry not below `key`. -/
def seek (c : CatalogCursor) (id root : ℕ) (key : ℕ × ℕ) :
    Rd (Option CatalogEntry × CatalogCursor) := do
  match ← Obs.ofExcept (c.leafCovers key) with
  | some entries =>
    current { c with slot := lowerBound entries key entries.length 0 entries.length } id
  | none =>
    if root = noBlock then
      return (none, { c with leaf := none, parents := [] })
    else
      seekFrom id key (catalogLevels + 1) root none none none
        { c with leaf := none, parents := [] }

end CatalogCursor

/-! ### Records -/

/-- The fragment at `index` of a byte string. -/
def fragmentAt (bytes : List UInt8) (index : ℕ) : List UInt8 :=
  (bytes.drop (index * groupDataBytes)).take groupDataBytes

/-- Number of fragments of a record. -/
def fragmentCount (total : ℕ) : ℕ := (total + groupDataBytes - 1) / groupDataBytes

/-- Reads `count` linked fragments from `index` on. -/
def readRecordFrom (id : ℕ) (kind : GroupPageKind) (key : ℕ × ℕ) (total : ℕ)
    (expected : Option (List ℕ)) : ℕ → ℕ → ℕ → Rd (List UInt8)
  | 0, _, _ => return []
  | count + 1, index, block => do
    Obs.ensure (∀ bs ∈ expected, bs[index]? = some block) .invalidState
    let p ← load block .grouped
    let d ← Obs.ofExcept (groupData p)
    Obs.ensure (d.id = id ∧ d.kind = kind ∧ d.key = key ∧ d.total = total ∧
      d.offset = index * groupDataBytes ∧
      d.bytes.length = min groupDataBytes (total - index * groupDataBytes)) .invalidState
    let rest ← readRecordFrom id kind key total expected count (index + 1) p.next
    return d.bytes ++ rest

/-- Reads a record from its fragments. -/
def readRecord (id : ℕ) (kind : GroupPageKind) (key : ℕ × ℕ) (head total : ℕ)
    (expected : Option (List ℕ)) : Rd (List UInt8) :=
  readRecordFrom id kind key total expected (fragmentCount total) 0 head

/-- The record identity of a heap group. -/
def groupKey (id base : ℕ) (layout : HeapLayout) : Except Error GroupKey :=
  if base % 256 = 0 then .ok ⟨1, id, base, layout.maxOffset⟩ else .error .invalidState

/-- Reads and checks the bitmap of a leaf entry. -/
def readBitmap (id : ℕ) (e : CatalogEntry) : Rd (Value × List UInt8 × Bitmap) := do
  let v ← Obs.ofExcept (Value.read e)
  let l ← layout
  let key ← Obs.ofExcept (groupKey id (e.key.2 % 4294967296) l)
  if v.len = 0 then
    let pages ← Obs.ofExcept (v.inlinePages l.maxOffset)
    let bytes ← Obs.ofExcept (encodeBitmap key .posting pages maxBitmapBytes)
    let view ← Obs.ofExcept (Bitmap.openRecord bytes)
    return (v, bytes, view)
  else
    let liveness := decide (e.key.1 = 0)
    let bytes ← readRecord id (if liveness then .liveness else .posting) e.key
      (v.blocks.headD noBlock) v.len (some v.blocks)
    let view ← Obs.ofExcept (Bitmap.openRecord bytes)
    Obs.ensure (view.key = key ∧ view.kind = (if liveness then .liveness else .posting) ∧
      view.mask = v.pages) .invalidState
    return (v, bytes, view)

/-! ### Retirement -/

/-- No cleared bit of the stored image is set again. -/
def onlyClears (new old : List UInt8) : Bool :=
  (new.zip old).all fun p => p.1 &&& ~~~ p.2 = 0

/-- The changed pages of a rewritten record, from fragment `index` on. -/
def changedPages (id : ℕ) (key : ℕ × ℕ) (v : Value) (bytes : List UInt8) :
    ℕ → ℕ → Rd (List Page)
  | 0, _ => return []
  | count + 1, index => do
    let chunk := fragmentAt bytes index
    let old ← load (v.blocks.getD index noBlock) .grouped
    let d ← Obs.ofExcept (groupData old)
    Obs.ensure (d.id = id ∧ d.kind = .liveness ∧ d.key = key ∧ d.total = v.len ∧
      d.offset = index * groupDataBytes ∧ d.bytes.length = chunk.length) .invalidState
    -- writer exclusion prevents a stale image from restoring another clear
    Obs.ensure (onlyClears chunk d.bytes = true) .invalidState
    if chunk = d.bytes then changedPages id key v bytes count (index + 1)
    else
      let page ← Obs.ofExcept (groupRecord old.block ⟨id, .liveness, key, v.len, d.offset, chunk⟩)
      let page ← Obs.ofExcept (page.setNext old.next)
      let rest ← changedPages id key v bytes count (index + 1)
      return page :: rest

/-- Clears the removable roots of one liveness record and persists the change. -/
def retireEntry (id : ℕ) (removable : RootTid → Bool) (e : CatalogEntry) : Wr ℕ := do
  let (v, bytes, _) ← Prog.reading (readBitmap id e)
  let l ← Prog.reading layout
  let key ← Prog.ofExcept (groupKey id (e.key.2 % 4294967296) l)
  let (removed, bytes) ← Prog.ofExcept (retireRoots bytes key removable)
  if removed = 0 then return 0
  else
    let pages ← Prog.reading (changedPages id e.key v bytes (fragmentCount v.len) 0)
    Prog.ensure (pages ≠ []) .invalidState
    commit pages
    return removed

/-- The liveness entries precede every term entry. -/
def retireFrom (id : ℕ) (removable : RootTid → Bool) :
    ℕ → Option CatalogEntry → CatalogCursor → ℕ → Wr ℕ
  | 0, _, _, _ => Prog.fail .invalidState
  | fuel + 1, entry, c, total => do
    match entry.filter fun e => decide (e.key.1 = 0) with
    | none => return total
    | some e =>
      let removed ← retireEntry id removable e
      let (entry, c) ← Prog.reading (c.advance id)
      retireFrom id removable fuel entry c (total + removed)

/-- A tree of bounded depth and fan-out bounds the number of entries. -/
def retireSnapshot (removable : RootTid → Bool) (x : GroupSnapshot) : Wr ℕ := do
  let _ ← Prog.reading (load 0 .info)
  let (entry, c) ← Prog.reading (CatalogCursor.new.seek x.id x.root (0, 0))
  retireFrom x.id removable (catalogEntries ^ catalogLevels + 1) entry c 0

/-- Retires the removable members of the deltas in turn, and counts them. -/
def retireDeltas (removable : RootTid → Bool) : List GroupDelta → ℕ → Wr ℕ
  | [], total => return total
  | d :: ds, total => do
    let removed ← retireSnapshot removable d.snapshot
    retireDeltas removable ds (total + removed)

/-- Retires the removable roots from the active snapshot and every delta. -/
def retire (removable : RootTid → Bool) : Wr ℕ := do
  let info ← Prog.reading (load 0 .info)
  let state ← Prog.ofExcept info.groupedState
  match state.active with
  | none => return 0
  | some active =>
    let total ← retireSnapshot removable active
    retireDeltas removable state.deltas total

/-! ### References -/

/-- The blocks a grouped snapshot names. -/
def GroupSnapshot.names (x : GroupSnapshot) (target : ℕ) : Prop :=
  x.head = target ∨ x.tail = target ∨ x.root = target ∨ ∃ o ∈ x.after, o.page = target

instance (x : GroupSnapshot) (target : ℕ) : Decidable (GroupSnapshot.names x target) :=
  inferInstanceAs (Decidable (_ ∨ _))

/-- The grouped tail of the metapage names the block. -/
def stateNames (g : GroupState) (target : ℕ) : Prop :=
  (∃ x ∈ g.active, GroupSnapshot.names x target ∨ x.frontierRoot = some target) ∨
    (∃ d ∈ g.deltas, GroupSnapshot.names d.snapshot target ∨ ∃ o ∈ d.before, o.page = target) ∨
    (∃ j ∈ g.journal, j.head = target ∨ j.tail = target) ∨
    ∃ r ∈ g.retired, r.head = target ∨ r.tail = target

instance (g : GroupState) (target : ℕ) : Decidable (stateNames g target) :=
  inferInstanceAs (Decidable (_ ∨ _))

/-- The entries of a catalog node name the block. -/
def entriesName (level target : ℕ) : List CatalogEntry → Except Error Bool
  | [] => .ok false
  | e :: es =>
    if e.key.1 / 65536 = target then .ok true
    else if level ≠ 0 then
      if leAt e.value 0 4 = target then .ok true else entriesName level target es
    else if Anchor.isEntry e then do
      -- compaction invalidates these advisory pointers before reuse
      let _ ← Anchor.read e
      entriesName level target es
    else do
      let v ← Value.read e
      if v.len ≠ 0 ∧ (target ∈ v.blocks ∨ v.members = target) then .ok true
      else entriesName level target es

/-- A grouped page, or the grouped tail of the metapage, names the block. -/
def references (p : Page) (target : ℕ) : Except Error Bool :=
  match p.body with
  | .info _ => do
    let state ← p.groupedState
    .ok (decide (stateNames state target))
  | .grouped (.node _ level entries) => entriesName level target entries
  | .grouped (.record _ _ key _ _ _) => .ok (decide (key.1 / 65536 = target))
  | _ => .ok false

end Grouped

end PinCore
