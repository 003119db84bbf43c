import PinCore.Codec.Bytes

/-!
# Pages

A page image as a record: its block, its link to the next page, and a body of one of ten kinds.
The records of a body are kept as lists; the byte length that the code compares with the page
capacity is computed from them by `Page.len`.  `Page.Valid` states what `Page::validate`
checks of an image.
-/

namespace PinCore

/-- Publication state of an owner slot. -/
inductive Publication where
  | allocated
  | fragmentsWritten
  | published
  | abandoned
  deriving DecidableEq, Repr

/-- The byte of a publication state. -/
def Publication.code : Publication → ℕ
  | allocated => 0
  | fragmentsWritten => 1
  | published => 2
  | abandoned => 3

/-- The stored record of one owner slot. -/
structure OwnerSlot where
  incarnation : ℕ
  root : RootTid
  publication : Publication
  live : Bool
  tokens : ℕ
  terms : ℕ
  dataHead : ℕ
  dataBytes : ℕ
  inline : List UInt8
  deriving DecidableEq, Repr

/-- An owner slot as read from a page, with its identity. -/
structure Owner where
  reference : OwnerRef
  record : OwnerSlot
  deriving DecidableEq, Repr

/-- The stored record of one dictionary entry.  `inline` is the state word of packed entries:
`0` no second owner, `1` an inline second owner, `2` a promoted entry that retains it. -/
structure Entry where
  term : Text
  head : ℕ
  tail : ℕ
  first : OwnerRef
  inline : ℕ
  second : Option OwnerRef
  deriving DecidableEq, Repr

/-- A dictionary entry as read from a page. -/
structure Term where
  reference : TermRef
  term : Text
  first : OwnerRef
  head : ℕ
  tail : ℕ
  inlineSecond : Option OwnerRef
  shadowSecond : Option OwnerRef
  deriving DecidableEq, Repr

/-- One record of a direct posting page. -/
structure DirectRecord where
  owner : OwnerRef
  root : RootTid
  live : Bool
  deriving DecidableEq, Repr

/-- The phase of a journalled rewrite: the new chain is being built, or the old one is being
retired. -/
inductive RewritePhase where
  | building
  | retiring
  deriving DecidableEq, Repr

/-- One unreachable posting chain retained until recovery completes. -/
structure RewriteJournal where
  head : ℕ
  tail : ℕ
  phase : RewritePhase
  deriving DecidableEq, Repr

/-! ### Grouped state -/

/-- A segment of grouped pages: its chain, its catalog root and the owners that it covers. -/
structure GroupSnapshot where
  id : ℕ
  head : ℕ
  tail : ℕ
  root : ℕ
  after : Option OwnerRef
  frontierRoot : Option ℕ
  frontierValid : Bool
  deriving DecidableEq, Repr

/-- The journal of a segment that is being built or retired. -/
structure GroupJournal where
  id : ℕ
  head : ℕ
  tail : ℕ
  phase : RewritePhase
  deriving DecidableEq, Repr

/-- A delta segment behind the active one, with the last owner before it and its level. -/
structure GroupDelta where
  snapshot : GroupSnapshot
  before : Option OwnerRef
  level : ℕ
  deriving DecidableEq, Repr

/-- The chain of a segment that was replaced. -/
structure GroupRetired where
  id : ℕ
  head : ℕ
  tail : ℕ
  deriving DecidableEq, Repr

/-- The grouped tail of the metapage.  The code's arrays of optional deltas and retired chains
hold no value after the first gap, so they are lists here. -/
structure GroupState where
  active : Option GroupSnapshot
  journal : Option GroupJournal
  deltas : List GroupDelta
  retired : List GroupRetired
  deriving DecidableEq, Repr

/-- No segment, no journal, no deltas and no retired chains. -/
def GroupState.default : GroupState := ⟨none, none, [], []⟩

/-- What the record of a grouped page holds. -/
inductive GroupPageKind where
  | members
  | liveness
  | posting
  | leaf
  | branch
  deriving DecidableEq, Repr

/-- An entry of a catalog page: a key and the 64 bytes of its value. -/
structure CatalogEntry where
  key : ℕ × ℕ
  value : List UInt8
  deriving DecidableEq, Repr

/-- The body of a grouped page: a fragment of a record, or a catalog node. -/
inductive GroupBody where
  | record (id : ℕ) (kind : GroupPageKind) (key : ℕ × ℕ) (total offset : ℕ) (bytes : List UInt8)
  | node (id level : ℕ) (entries : List CatalogEntry)
  deriving DecidableEq, Repr

/-- The segment that the page belongs to. -/
def GroupBody.id : GroupBody → ℕ
  | record id .. => id
  | node id .. => id

/-! ### Page images -/

/-- The fields of the metapage. -/
structure MetaBody where
  maxOffset : ℕ
  packed : Bool
  incarnation : ℕ
  ownerHead : ℕ
  ownerTail : ℕ
  freeHead : ℕ
  journal : Option RewriteJournal
  bucket : ℕ → ℕ × ℕ
  grouped : GroupState

/-- What a page holds behind its header. -/
inductive Body where
  | zero
  | info (m : MetaBody)
  | owners (slots : List OwnerSlot)
  | dictionary (packed : Bool) (entries : List Entry)
  | postings (term : TermRef) (refs : List OwnerRef)
  | sealed (term : TermRef) (refs : List OwnerRef)
  | direct (term : TermRef) (first last : OwnerRef) (records : List DirectRecord)
  | grouped (body : GroupBody)
  | fragment (owner : OwnerRef) (offset : ℕ) (payload : List UInt8)
  | free

/-- The kind tag of a page. -/
inductive PageKind where
  | zero
  | info
  | owners
  | dictionary
  | postings
  | sealedPostings
  | directPostings
  | grouped
  | fragment
  | free
  deriving DecidableEq, Repr

/-- The kind of a body. -/
def Body.kind : Body → PageKind
  | zero => .zero
  | info _ => .info
  | owners _ => .owners
  | dictionary .. => .dictionary
  | postings .. => .postings
  | sealed .. => .sealedPostings
  | direct .. => .directPostings
  | grouped _ => .grouped
  | fragment .. => .fragment
  | free => .free

/-- One bounded private page image. -/
structure Page where
  block : ℕ
  next : ℕ
  body : Body
  /-- Set by the constructor that reinitialises an all-zero block. -/
  initializes : Bool

/-- The kind of a page. -/
def Page.kind (p : Page) : PageKind := p.body.kind

/-- The owner references of a posting page, in order. -/
def Body.postingRefs : Body → List OwnerRef
  | postings _ refs => refs
  | sealed _ refs => refs
  | direct _ _ _ records => records.map (·.owner)
  | _ => []

/-- The term a posting page belongs to. -/
def Body.postingTag : Body → Option TermRef
  | postings t _ => some t
  | sealed t _ => some t
  | direct t .. => some t
  | _ => none

/-! ### Encoded lengths -/

/-- Bytes `write_delta` emits for `owner` after `previous`. -/
def deltaLen (previous : Option OwnerRef) (owner : OwnerRef) : ℕ :=
  match previous with
  | none => varU32Len owner.page + varU32Len owner.slot + varU64Len owner.incarnation
  | some p =>
    varU32Len (owner.page - p.page) +
      varU32Len (if owner.page = p.page then owner.slot - p.slot else owner.slot) +
      varU64Len (owner.incarnation - p.incarnation)

/-- Bytes of a compressed posting stream. -/
def streamLen : Option OwnerRef → List OwnerRef → ℕ
  | _, [] => 0
  | previous, o :: os => deltaLen previous o + streamLen (some o) os

/-- The length of an entry on its page. -/
def Entry.size (packed : Bool) (e : Entry) : ℕ :=
  dictionaryEntry + e.term.length + if packed then 16 else 0

/-- Used bytes of the page. -/
def Page.len (p : Page) : ℕ :=
  match p.body with
  | .zero => 0
  | .info m =>
    if m.grouped = .default then 4160
    else if m.grouped.deltas = [] ∧ m.grouped.retired = [] then 4232 else 5664
  | .owners slots =>
    ownerHeader + slots.length * ownerBytes + (slots.map fun o => o.inline.length).sum
  | .dictionary packed entries => pageHeader + (entries.map (Entry.size packed)).sum
  | .postings _ refs => postingHeader + refs.length * 16
  | .sealed _ refs => postingHeader + streamLen none refs
  | .direct _ _ _ records =>
    directHeader + records.length * 8 + streamLen none (records.map (·.owner))
  | .grouped (.record _ _ _ _ _ bytes) => 56 + bytes.length
  | .grouped (.node _ _ entries) => 40 + entries.length * 80
  | .fragment _ _ payload => fragmentHeader + payload.length
  | .free => pageHeader

/-! ### Validation -/

/-- `check_next`: no self links, and owner and dictionary chains ascend. -/
def Page.NextOk (p : Page) : Prop :=
  p.next = noBlock ∨
    (blockValid p.next ∧ p.next ≠ p.block ∧ p.kind ≠ .info ∧
      (p.kind = .owners ∨ p.kind = .dictionary → p.block < p.next))

instance (p : Page) : Decidable p.NextOk := inferInstanceAs (Decidable (_ ∨ _))

/-- The checks `Page::owner` makes of one record. -/
structure OwnerSlot.Ok (layout : HeapLayout) (o : OwnerSlot) : Prop where
  incarnation : o.incarnation ≠ 0
  root : o.root.Valid layout
  live : o.live = true → o.publication = .published
  tokens : o.tokens ≤ maxDocumentTokens
  terms : o.terms ≤ o.tokens
  minBytes : 16 ≤ o.dataBytes
  maxBytes : o.dataBytes ≤ maxDocumentBytes
  dataHead : o.dataHead ≠ 0
  inline : o.inline ≠ [] → o.inline.length = o.dataBytes ∧ o.dataHead = noBlock
  payload : (o.publication = .fragmentsWritten ∨ o.live = true) → o.inline = [] →
    o.dataHead ≠ noBlock
  allocated : o.publication = .allocated → o.dataHead = noBlock

instance (layout : HeapLayout) (o : OwnerSlot) : Decidable (o.Ok layout) :=
  decidable_of_iff
    (o.incarnation ≠ 0 ∧ o.root.Valid layout ∧ (o.live = true → o.publication = .published) ∧
      o.tokens ≤ maxDocumentTokens ∧ o.terms ≤ o.tokens ∧ 16 ≤ o.dataBytes ∧
      o.dataBytes ≤ maxDocumentBytes ∧ o.dataHead ≠ 0 ∧
      (o.inline ≠ [] → o.inline.length = o.dataBytes ∧ o.dataHead = noBlock) ∧
      ((o.publication = .fragmentsWritten ∨ o.live = true) → o.inline = [] →
        o.dataHead ≠ noBlock) ∧
      (o.publication = .allocated → o.dataHead = noBlock))
    ⟨fun ⟨a, b, c, d, e, f, g, h, i, j, k⟩ => ⟨a, b, c, d, e, f, g, h, i, j, k⟩,
      fun ⟨a, b, c, d, e, f, g, h, i, j, k⟩ => ⟨a, b, c, d, e, f, g, h, i, j, k⟩⟩

/-- The reserved second owner of a packed entry in state `1` or `2`. -/
def Entry.SecondOk (e : Entry) : Prop :=
  match e.second with
  | none => False
  | some s => s.Valid ∧ e.first.Before s

instance (e : Entry) : Decidable e.SecondOk :=
  match h : e.second with
  | none => isFalse (by simp [Entry.SecondOk, h])
  | some s => decidable_of_iff (s.Valid ∧ e.first.Before s) (by simp [Entry.SecondOk, h])

/-- The coupling of a packed entry's state word with its second owner and chain pointers. -/
structure Entry.StateOk (packed : Bool) (page : ℕ) (e : Entry) : Prop where
  plain : packed = false → e.second = none
  single : packed = true → e.inline = 0 → e.second = none ∧ e.head ≠ page ∧ e.tail ≠ page
  second : packed = true → e.inline ≠ 0 → e.SecondOk
  inline : packed = true → e.inline = 1 → e.head = page ∧ e.tail = page
  shadow : packed = true → e.inline = 2 →
    e.head ≠ noBlock ∧ e.tail ≠ noBlock ∧ e.head ≠ page ∧ e.tail ≠ page

instance (packed : Bool) (page : ℕ) (e : Entry) : Decidable (e.StateOk packed page) :=
  decidable_of_iff
    ((packed = false → e.second = none) ∧
      (packed = true → e.inline = 0 → e.second = none ∧ e.head ≠ page ∧ e.tail ≠ page) ∧
      (packed = true → e.inline ≠ 0 → e.SecondOk) ∧
      (packed = true → e.inline = 1 → e.head = page ∧ e.tail = page) ∧
      (packed = true → e.inline = 2 →
        e.head ≠ noBlock ∧ e.tail ≠ noBlock ∧ e.head ≠ page ∧ e.tail ≠ page))
    ⟨fun ⟨a, b, c, d, f⟩ => ⟨a, b, c, d, f⟩, fun ⟨a, b, c, d, f⟩ => ⟨a, b, c, d, f⟩⟩

/-- The checks of one step of the dictionary iterator. -/
structure Entry.Ok (packed : Bool) (page : ℕ) (e : Entry) : Prop where
  nonempty : e.term ≠ []
  length : e.term.length ≤ maxTermBytes
  first : e.first.Valid
  pair : postingPairValid e.head e.tail
  range : e.inline ≤ if packed then 2 else 0
  state : e.StateOk packed page

instance (packed : Bool) (page : ℕ) (e : Entry) : Decidable (e.Ok packed page) :=
  decidable_of_iff
    (e.term ≠ [] ∧ e.term.length ≤ maxTermBytes ∧ e.first.Valid ∧
      postingPairValid e.head e.tail ∧ e.inline ≤ (if packed then 2 else 0) ∧
      e.StateOk packed page)
    ⟨fun ⟨a, b, c, d, f, g⟩ => ⟨a, b, c, d, f, g⟩, fun ⟨a, b, c, d, f, g⟩ => ⟨a, b, c, d, f, g⟩⟩

/-- The ends of the journalled chain are possible blocks. -/
def RewriteJournal.Ok (j : RewriteJournal) : Prop := blockValid j.head ∧ blockValid j.tail

instance (j : RewriteJournal) : Decidable j.Ok := inferInstanceAs (Decidable (_ ∧ _))

/-! ### Grouped validation -/

/-- `GroupState::validate_snapshot`. -/
def GroupSnapshot.Ok (allowFrontier : Bool) (x : GroupSnapshot) : Prop :=
  postingPairValid x.head x.tail ∧
    (x.head = noBlock ↔ x.root = noBlock ∧ x.frontierRoot.getD noBlock = noBlock) ∧
    (allowFrontier = false → x.frontierRoot = none) ∧
    (x.frontierRoot = none → x.root = x.tail) ∧
    x.root ≠ 0 ∧
    (∀ r ∈ x.frontierRoot, r ≠ noBlock → r ≠ 0 ∧ r ≠ x.root) ∧
    (x.frontierValid = true → x.frontierRoot ≠ none) ∧
    (∀ o ∈ x.after, o.incarnation < x.id)

instance (b : Bool) (x : GroupSnapshot) : Decidable (x.Ok b) := inferInstanceAs (Decidable (_ ∧ _))

/-- The deltas follow the active snapshot and each other: each starts where the one before
ends, at a lower level and with a later identifier. -/
def GroupDelta.ChainOk : Option OwnerRef → ℕ → Option ℕ → List GroupDelta → Prop
  | _, _, _, [] => True
  | after, id, level, d :: ds =>
    d.snapshot.Ok false ∧ d.snapshot.frontierValid = false ∧ d.level < 16 ∧
      (∀ l ∈ level, d.level < l) ∧ d.before = after ∧ d.snapshot.after ≠ none ∧
      d.snapshot.after ≠ d.before ∧
      (∀ b ∈ d.before, ∀ a ∈ d.snapshot.after, b.incarnation < a.incarnation) ∧
      id < d.snapshot.id ∧ ChainOk d.snapshot.after d.snapshot.id (some d.level) ds

instance GroupDelta.decidableChainOk : (a : Option OwnerRef) → (i : ℕ) → (l : Option ℕ) →
    (ds : List GroupDelta) → Decidable (GroupDelta.ChainOk a i l ds)
  | _, _, _, [] => isTrue trivial
  | _, _, _, d :: ds =>
    have := decidableChainOk d.snapshot.after d.snapshot.id (some d.level) ds
    inferInstanceAs (Decidable (_ ∧ _))

/-- The newest segment. -/
def GroupState.latest (g : GroupState) : Option GroupSnapshot :=
  (g.deltas.getLast?.map (·.snapshot)).or g.active

/-- `GroupState::validate`. -/
structure GroupState.Ok (g : GroupState) : Prop where
  active : ∀ x ∈ g.active, x.Ok true
  deltaCount : g.deltas.length ≤ 16
  deltasNeedActive : g.active = none → g.deltas = []
  deltas : ∀ x ∈ g.active, GroupDelta.ChainOk x.after x.id none g.deltas
  journalPair : ∀ j ∈ g.journal, postingPairValid j.head j.tail
  building : ∀ j ∈ g.journal, j.phase = .building → ∀ x ∈ g.latest, x.id < j.id
  retiring : ∀ j ∈ g.journal, j.phase = .retiring →
    g.deltas = [] ∧ g.retired = [] ∧ j.head ≠ noBlock ∧ g.active ≠ none ∧
      ∀ x ∈ g.active, j.id < x.id
  retiredCount : g.retired.length ≤ 17
  retired : ∀ r ∈ g.retired, r.head ≠ noBlock ∧ postingPairValid r.head r.tail ∧
    (∀ x ∈ g.active, x.id ≠ r.id) ∧ (∀ d ∈ g.deltas, d.snapshot.id ≠ r.id) ∧
    ∀ j ∈ g.journal, j.id ≠ r.id

instance (g : GroupState) : Decidable g.Ok :=
  decidable_of_iff
    ((∀ x ∈ g.active, x.Ok true) ∧ g.deltas.length ≤ 16 ∧ (g.active = none → g.deltas = []) ∧
      (∀ x ∈ g.active, GroupDelta.ChainOk x.after x.id none g.deltas) ∧
      (∀ j ∈ g.journal, postingPairValid j.head j.tail) ∧
      (∀ j ∈ g.journal, j.phase = .building → ∀ x ∈ g.latest, x.id < j.id) ∧
      (∀ j ∈ g.journal, j.phase = .retiring →
        g.deltas = [] ∧ g.retired = [] ∧ j.head ≠ noBlock ∧ g.active ≠ none ∧
          ∀ x ∈ g.active, j.id < x.id) ∧
      g.retired.length ≤ 17 ∧
      (∀ r ∈ g.retired, r.head ≠ noBlock ∧ postingPairValid r.head r.tail ∧
        (∀ x ∈ g.active, x.id ≠ r.id) ∧ (∀ d ∈ g.deltas, d.snapshot.id ≠ r.id) ∧
        ∀ j ∈ g.journal, j.id ≠ r.id))
    ⟨fun ⟨a, b, c, d, e, f, g, h, i⟩ => ⟨a, b, c, d, e, f, g, h, i⟩,
      fun ⟨a, b, c, d, e, f, g, h, i⟩ => ⟨a, b, c, d, e, f, g, h, i⟩⟩

/-- Every identifier of the state was drawn from the incarnation counter `next`. -/
def GroupState.IdsBelow (g : GroupState) (next : ℕ) : Prop :=
  (∀ x ∈ g.active, x.id < next) ∧ (∀ d ∈ g.deltas, d.snapshot.id < next) ∧
    (∀ j ∈ g.journal, j.id < next) ∧ ∀ r ∈ g.retired, r.id < next

instance (g : GroupState) (next : ℕ) : Decidable (g.IdsBelow next) :=
  inferInstanceAs (Decidable (_ ∧ _))

/-- `OwnerRef::read` and `OwnerRef::write` accept every owner that the state names. -/
def GroupState.OwnersValid (g : GroupState) : Prop :=
  (∀ x ∈ g.active, ∀ o ∈ x.after, o.Valid) ∧
    ∀ d ∈ g.deltas, (∀ o ∈ d.snapshot.after, o.Valid) ∧ ∀ o ∈ d.before, o.Valid

instance (g : GroupState) : Decidable g.OwnersValid := inferInstanceAs (Decidable (_ ∧ _))

theorem GroupState.OwnersValid.congr {g g' : GroupState} (h : g.OwnersValid)
    (ha : g'.active = g.active) (hd : g'.deltas = g.deltas) : g'.OwnersValid := by
  rw [GroupState.OwnersValid, ha, hd]
  exact h

/-- The range of catalog keys: a term place or zero, and an aligned heap group base. -/
def validKey (key : ℕ × ℕ) : Prop :=
  key.2 ≤ 4294967040 ∧ key.2 % 256 = 0 ∧
    (key.1 = 0 ∨ (0 < key.1 / 65536 ∧ key.1 / 65536 < noBlock ∧
      pageHeader ≤ key.1 % 65536 ∧ key.1 % 65536 < capacity))

instance (key : ℕ × ℕ) : Decidable (validKey key) := inferInstanceAs (Decidable (_ ∧ _))

/-- The bytes of a record that fit on one grouped page. -/
def groupDataBytes : ℕ := capacity - 56

/-- The number of entries of a full catalog page. -/
def catalogEntries : ℕ := (capacity - 40) / 80

/-- The highest level of a catalog page. -/
def maxCatalogLevel : ℕ := 7

/-- A little-endian 32-bit integer at a byte offset. -/
def leU32 (bytes : List UInt8) (offset : ℕ) : ℕ :=
  (bytes.getD offset 0).toNat + (bytes.getD (offset + 1) 0).toNat * 256 +
    (bytes.getD (offset + 2) 0).toNat * 65536 + (bytes.getD (offset + 3) 0).toNat * 16777216

/-- The order of catalog keys. -/
def keyLt (a b : ℕ × ℕ) : Prop := a.1 < b.1 ∨ (a.1 = b.1 ∧ a.2 < b.2)

instance (a b : ℕ × ℕ) : Decidable (keyLt a b) := inferInstanceAs (Decidable (_ ∨ _))

/-- `validate_grouped`. -/
def GroupBody.Ok (block : ℕ) : GroupBody → Prop
  | record id kind key total offset bytes =>
    id ≠ 0 ∧ (kind = .members ∨ kind = .liveness ∨ kind = .posting) ∧ validKey key ∧
      (kind = .posting ↔ key.1 ≠ 0) ∧ 72 ≤ total ∧
      total ≤ (if kind = .members then 2097224 else 17480) ∧ offset < total ∧
      offset % groupDataBytes = 0 ∧ bytes.length = min (total - offset) groupDataBytes
  | node id level entries =>
    id ≠ 0 ∧ level ≤ maxCatalogLevel ∧ entries ≠ [] ∧ entries.length ≤ catalogEntries ∧
      (∀ e ∈ entries, validKey e.key ∧ e.value.length = 64) ∧
      entries.Pairwise (fun a b => keyLt a.key b.key) ∧
      (level ≠ 0 → ∀ e ∈ entries, blockValid (leU32 e.value 0) ∧ leU32 e.value 0 ≠ block ∧
        e.value.drop 4 = List.replicate 60 0)

instance (block : ℕ) : (g : GroupBody) → Decidable (g.Ok block)
  | .record .. => inferInstanceAs (Decidable (_ ∧ _))
  | .node .. => inferInstanceAs (Decidable (_ ∧ _))

/-! ### The validator -/

/-- The checks `Page::validate` makes of the metapage. -/
structure MetaBody.Ok (layout : HeapLayout) (m : MetaBody) : Prop where
  maxOffset : m.maxOffset = layout.maxOffset
  incarnation : m.incarnation ≠ 0
  owners : pairValid m.ownerHead m.ownerTail
  free : m.freeHead ≠ 0
  journal : ∀ j ∈ m.journal, j.Ok
  grouped : m.grouped.Ok
  ids : m.grouped.IdsBelow m.incarnation
  refs : m.grouped.OwnersValid
  bucket : ∀ b < buckets, pairValid (m.bucket b).1 (m.bucket b).2

instance (layout : HeapLayout) (m : MetaBody) : Decidable (m.Ok layout) :=
  decidable_of_iff
    (m.maxOffset = layout.maxOffset ∧ m.incarnation ≠ 0 ∧ pairValid m.ownerHead m.ownerTail ∧
      m.freeHead ≠ 0 ∧ (∀ j ∈ m.journal, j.Ok) ∧ m.grouped.Ok ∧
      m.grouped.IdsBelow m.incarnation ∧ m.grouped.OwnersValid ∧
      ∀ b < buckets, pairValid (m.bucket b).1 (m.bucket b).2)
    ⟨fun ⟨a, b, c, d, e, f, g, h, i⟩ => ⟨a, b, c, d, e, f, g, h, i⟩,
      fun ⟨a, b, c, d, e, f, g, h, i⟩ => ⟨a, b, c, d, e, f, g, h, i⟩⟩

/-- A posting page names a possible dictionary place. -/
def TermRef.Ok (t : TermRef) : Prop := blockValid t.page ∧ pageHeader ≤ t.offset

instance (t : TermRef) : Decidable t.Ok := inferInstanceAs (Decidable (_ ∧ _))

/-- The body checks of `Page::validate`. -/
def Body.Ok (layout : HeapLayout) (block : ℕ) : Body → Prop
  | zero => True
  | info m => m.Ok layout
  | owners slots => ∀ o ∈ slots, o.Ok layout
  | dictionary packed entries => ∀ e ∈ entries, e.Ok packed block
  | postings t refs => t.Ok ∧ (∀ r ∈ refs, r.Valid) ∧ refs.Pairwise OwnerRef.Before
  | sealed t refs => t.Ok ∧ (∀ r ∈ refs, r.Valid) ∧ refs.Pairwise OwnerRef.Before ∧ refs ≠ []
  | direct t first last records =>
    t.Ok ∧ (∀ r ∈ records, r.owner.Valid ∧ r.root.Valid layout) ∧
      (records.map (·.owner)).Pairwise OwnerRef.Before ∧
      (records.map (·.owner)).head? = some first ∧
      (records.map (·.owner)).getLast? = some last
  | grouped g => g.Ok block
  | fragment o offset payload =>
    o.Valid ∧ payload ≠ [] ∧ offset + payload.length ≤ maxDocumentBytes
  | free => True

instance (layout : HeapLayout) (block : ℕ) : (b : Body) → Decidable (b.Ok layout block)
  | .zero => isTrue trivial
  | .info m => inferInstanceAs (Decidable (m.Ok layout))
  | .owners slots => inferInstanceAs (Decidable (∀ o ∈ slots, o.Ok layout))
  | .dictionary p entries => inferInstanceAs (Decidable (∀ e ∈ entries, e.Ok p block))
  | .postings .. => inferInstanceAs (Decidable (_ ∧ _))
  | .sealed .. => inferInstanceAs (Decidable (_ ∧ _))
  | .direct .. => inferInstanceAs (Decidable (_ ∧ _))
  | .grouped g => inferInstanceAs (Decidable (g.Ok block))
  | .fragment .. => inferInstanceAs (Decidable (_ ∧ _))
  | .free => isTrue trivial

/-- What `Page::validate` accepts. -/
structure Page.Valid (layout : HeapLayout) (p : Page) : Prop where
  next : p.kind ≠ .zero → p.NextOk
  block : p.kind ≠ .zero → (p.block = 0 ↔ p.kind = .info)
  body : p.body.Ok layout p.block
  len : p.len ≤ capacity

instance (layout : HeapLayout) (p : Page) : Decidable (p.Valid layout) :=
  decidable_of_iff
    ((p.kind ≠ .zero → p.NextOk) ∧ (p.kind ≠ .zero → (p.block = 0 ↔ p.kind = .info)) ∧
      p.body.Ok layout p.block ∧ p.len ≤ capacity)
    ⟨fun ⟨a, b, c, d⟩ => ⟨a, b, c, d⟩, fun ⟨a, b, c, d⟩ => ⟨a, b, c, d⟩⟩

/-- The validator of pages. -/
def Page.validate (layout : HeapLayout) (p : Page) : Except Error Unit :=
  if p.Valid layout then .ok () else .error .codec

end PinCore
