import PinCore.Page.Basic

/-!
# Page operations

The constructors, accessors and mutations of `page.rs` on page images.  A mutation of the code
works on a private image; here it returns the changed image.
-/

namespace PinCore

namespace Page

/-- `Page::new`: only block zero is a metapage. -/
def new (block : ℕ) (body : Body) : Except Error Page :=
  if block = noBlock ∨ ¬ (block = 0 ↔ body.kind = .info) then .error .codec
  else .ok ⟨block, noBlock, body, false⟩

/-- The image of an extended block that was never written. -/
def zero (block : ℕ) : Page := ⟨block, noBlock, .zero, false⟩

/-- The metapage of an empty index: no owners, no terms, an empty free list and no groups. -/
def metadata (layout : HeapLayout) : Except Error Page :=
  new 0 (.info {
    maxOffset := layout.maxOffset
    packed := false
    incarnation := 1
    ownerHead := noBlock
    ownerTail := noBlock
    freeHead := noBlock
    journal := none
    bucket := fun _ => (noBlock, noBlock)
    grouped := .default })

/-- An owner page without slots. -/
def owners (block : ℕ) : Except Error Page := new block (.owners [])

/-- A dictionary page of the old format without entries. -/
def dictionary (block : ℕ) : Except Error Page := new block (.dictionary false [])

/-- A dictionary page of the packed format without entries. -/
def packedDictionary (block : ℕ) : Except Error Page := new block (.dictionary true [])

/-- A posting page of the term without postings; the term must be possible. -/
def postings (block : ℕ) (term : TermRef) : Except Error Page :=
  if term.Ok then new block (.postings term []) else .error .codec

/-- `set_next` followed by `check_next`. -/
def setNext (p : Page) (next : ℕ) : Except Error Page :=
  if { p with next }.NextOk then .ok { p with next } else .error .codec

/-- A fragment of the prepared document of `owner`: the bytes of the payload from `offset` on, with
the block of the next fragment. -/
def fragment (block : ℕ) (owner : OwnerRef) (next offset : ℕ) (payload : List UInt8) :
    Except Error Page :=
  if payload = [] ∨ fragmentBytes < payload.length then .error .codec
  else if ¬ (blockValid owner.page ∧ owner.slot < ownerSlots) then .error .codec
  else do
    let p ← new block (.fragment owner offset payload)
    p.setNext next

/-- A page of the free list, with the block behind it. -/
def free (block next : ℕ) : Except Error Page := do
  let p ← new block .free
  p.setNext next

/-- A page of the free list on a block that was never written. -/
def freeFromZero (block next : ℕ) : Except Error Page := do
  let p ← free block next
  .ok { p with initializes := true }

/-! ### Metapage -/

/-- The metapage fields. -/
def info (p : Page) : Except Error MetaBody :=
  match p.body with
  | .info m => .ok m
  | _ => .error .codec

/-- Replace the metapage fields. -/
def setInfo (p : Page) (m : MetaBody) : Page := { p with body := .info m }

/-- Takes the next incarnation from the metapage. -/
def reserveIncarnation (p : Page) : Except Error (ℕ × Page) := do
  let m ← p.info
  if incarnationLimit ≤ m.incarnation + 1 then .error (.limit "incarnation space")
  else if m.incarnation = 0 then .error .codec
  else .ok (m.incarnation, p.setInfo { m with incarnation := m.incarnation + 1 })

/-- New dictionary pages are packed. -/
def packedPostings (p : Page) : Except Error Bool := do
  let m ← p.info
  .ok m.packed

/-- Makes new dictionary pages packed. -/
def enablePackedPostings (p : Page) : Except Error Page := do
  let m ← p.info
  .ok (p.setInfo { m with packed := true })

/-- The first and the last owner page. -/
def ownerChain (p : Page) : Except Error (ℕ × ℕ) := do
  let m ← p.info
  if pairValid m.ownerHead m.ownerTail then .ok (m.ownerHead, m.ownerTail) else .error .codec

/-- Replaces the first and the last owner page. -/
def setOwnerChain (p : Page) (head tail : ℕ) : Except Error Page := do
  let m ← p.info
  if pairValid head tail then .ok (p.setInfo { m with ownerHead := head, ownerTail := tail })
  else .error .codec

/-- The first and the last dictionary page of a bucket. -/
def bucket (p : Page) (b : ℕ) : Except Error (ℕ × ℕ) := do
  let m ← p.info
  if b < buckets ∧ pairValid (m.bucket b).1 (m.bucket b).2 then .ok (m.bucket b)
  else .error .codec

/-- Replaces the first and the last dictionary page of a bucket. -/
def setBucket (p : Page) (b head tail : ℕ) : Except Error Page := do
  let m ← p.info
  if b < buckets ∧ pairValid head tail then
    .ok (p.setInfo { m with bucket := fun i => if i = b then (head, tail) else m.bucket i })
  else .error .codec

/-- The head of the free list. -/
def freeHead (p : Page) : Except Error ℕ := do
  let m ← p.info
  if m.freeHead = 0 then .error .codec else .ok m.freeHead

/-- Replaces the head of the free list; the metapage cannot be on it. -/
def setFreeHead (p : Page) (block : ℕ) : Except Error Page := do
  let m ← p.info
  if block = 0 then .error .codec else .ok (p.setInfo { m with freeHead := block })

/-- The journal of a compaction, which must name possible blocks. -/
def rewriteJournal (p : Page) : Except Error (Option RewriteJournal) := do
  let m ← p.info
  match m.journal with
  | none => .ok none
  | some j => if j.Ok then .ok (some j) else .error .codec

/-- Replaces the journal of a compaction. -/
def setRewriteJournal (p : Page) (journal : Option RewriteJournal) : Except Error Page := do
  let m ← p.info
  if ∀ j ∈ journal, j.Ok then .ok (p.setInfo { m with journal }) else .error .codec

/-- The grouped tail.  An owner reference is checked as it is read, before the state is. -/
def groupedState (p : Page) : Except Error GroupState := do
  let m ← p.info
  if ¬ m.grouped.OwnersValid then .error .codec
  else if m.grouped.Ok ∧ m.grouped.IdsBelow m.incarnation then .ok m.grouped
  else .error .invalidState

/-- Replaces the grouped tail.  An owner reference is checked as it is written, after the state
was. -/
def setGroupedState (p : Page) (g : GroupState) : Except Error Page := do
  let m ← p.info
  if ¬ (g.Ok ∧ g.IdsBelow m.incarnation) then .error .invalidState
  else if g.OwnersValid then .ok (p.setInfo { m with grouped := g })
  else .error .codec

/-! ### Owner pages -/

/-- The slots of an owner page. -/
def slots (p : Page) : Except Error (List OwnerSlot) :=
  match p.body with
  | .owners slots => .ok slots
  | _ => .error .codec

/-- The number of slots of an owner page. -/
def ownerCount (p : Page) : Except Error ℕ := do
  let slots ← p.slots
  .ok slots.length

/-- The owner in a slot of an owner page. -/
def owner (p : Page) (slot : ℕ) (layout : HeapLayout) : Except Error Owner := do
  let slots ← p.slots
  match slots[slot]? with
  | none => .error .codec
  | some o =>
    if o.Ok layout then .ok ⟨⟨p.block, slot, o.incarnation⟩, o⟩ else .error .codec

/-- Appends a never-reused slot, packing small payloads into the owner page.  Returns `none`
without mutation when this page is full. -/
def appendOwner (p : Page) (incarnation : ℕ) (root : RootTid) (tokens terms : ℕ)
    (payload : List UInt8) : Except Error (Option (OwnerRef × Page)) := do
  let slots ← p.slots
  if maxDocumentTokens < tokens ∨ tokens < terms ∨ payload.length < 16 ∨
      maxDocumentBytes < payload.length then .error .invalidDocument
  else
    let inline := if payload.length ≤ inlineBytes then payload else []
    if capacity < p.len + ownerBytes + inline.length then .ok none
    else
      .ok (some (⟨p.block, slots.length, incarnation⟩,
        { p with body := .owners (slots ++ [{
            incarnation, root, publication := .allocated, live := false, tokens, terms
            dataHead := noBlock, dataBytes := payload.length, inline }]) }))

/-- Explicit publication and liveness changes. -/
inductive OwnerChange where
  | payloadReady (head : ℕ)
  | publish
  | remove
  | abandon
  deriving DecidableEq, Repr

/-- The record after an allowed transition; every other transition is rejected. -/
def OwnerChange.apply (o : OwnerSlot) : OwnerChange → Except Error OwnerSlot
  | payloadReady head =>
    if o.publication = .allocated then
      if (o.inline = [] ∧ ¬ blockValid head) ∨ (o.inline ≠ [] ∧ head ≠ noBlock) then
        .error .codec
      else .ok { o with publication := .fragmentsWritten, live := false, dataHead := head }
    else .error .invalidState
  | publish =>
    if o.publication = .fragmentsWritten then
      .ok { o with publication := .published, live := true }
    else .error .invalidState
  | remove =>
    if o.publication = .published ∧ o.live = true then
      .ok { o with publication := .published, live := false, dataHead := noBlock }
    else .error .invalidState
  | abandon =>
    if o.publication = .allocated ∨ o.publication = .fragmentsWritten then
      .ok { o with publication := .abandoned, live := false, dataHead := noBlock }
    else .error .invalidState

/-- Changes the state of an owner.  The slot must hold the incarnation that is named, and the change
must be one that this state allows. -/
def changeOwner (p : Page) (reference : OwnerRef) (change : OwnerChange) (layout : HeapLayout) :
    Except Error Page := do
  let o ← p.owner reference.slot layout
  if o.reference ≠ reference then .error .codec
  else do
    let record ← change.apply o.record
    let slots ← p.slots
    .ok { p with body := .owners (slots.set reference.slot record) }

/-! ### Dictionary pages -/

/-- The format flag and entries of a dictionary page. -/
def entries (p : Page) : Except Error (Bool × List Entry) :=
  match p.body with
  | .dictionary packed es => .ok (packed, es)
  | _ => .error .codec

/-- The page is a dictionary page of the packed format. -/
def packedDictionaryFormat (p : Page) : Bool :=
  match p.body with
  | .dictionary packed _ => packed
  | _ => false

/-- One step of the dictionary iterator. -/
def readEntry (packed : Bool) (page offset : ℕ) (e : Entry) : Except Error Term :=
  if e.Ok packed page then
    .ok {
      reference := ⟨page, offset⟩, term := e.term, first := e.first, head := e.head, tail := e.tail
      inlineSecond := if e.inline = 1 then e.second else none
      shadowSecond := if e.inline = 2 then e.second else none }
  else .error .codec

/-- The dictionary iterator from a byte offset. -/
def termsFrom (packed : Bool) (page : ℕ) : ℕ → List Entry → Except Error (List Term)
  | _, [] => .ok []
  | offset, e :: es => do
    let t ← readEntry packed page offset e
    let ts ← termsFrom packed page (offset + e.size packed) es
    .ok (t :: ts)

/-- The terms of a dictionary page with their places. -/
def terms (p : Page) : Except Error (List Term) := do
  let (packed, es) ← p.entries
  termsFrom packed p.block pageHeader es

/-- Appends a term with its first owner; `none` when the page is full. -/
def appendTerm (p : Page) (term : Text) (first : OwnerRef) :
    Except Error (Option (TermRef × Page)) := do
  let (packed, es) ← p.entries
  if term = [] ∨ maxTermBytes < term.length then .error .invalidDocument
  else
    let e : Entry := ⟨term, noBlock, noBlock, first, 0, none⟩
    if capacity < p.len + e.size packed then .ok none
    else if ¬ (blockValid first.page ∧ first.slot < ownerSlots) then .error .codec
    else .ok (some (⟨p.block, p.len⟩, { p with body := .dictionary packed (es ++ [e]) }))

/-- Scan the iterator for the entry at `reference`. -/
def termFrom (packed : Bool) (page : ℕ) (reference : TermRef) : ℕ → List Entry → Except Error Term
  | _, [] => .error .codec
  | offset, e :: es => do
    let t ← readEntry packed page offset e
    if t.reference = reference then .ok t
    else termFrom packed page reference (offset + e.size packed) es

/-- The term at a place of a dictionary page. -/
def term (p : Page) (reference : TermRef) : Except Error Term := do
  if reference.page ≠ p.block then .error .codec
  else
    let (packed, es) ← p.entries
    termFrom packed p.block reference pageHeader es

/-- Rewrite the stored entry at a byte offset. -/
def modifyEntry (packed : Bool) (target : ℕ) (f : Entry → Entry) : ℕ → List Entry → List Entry
  | _, [] => []
  | offset, e :: es =>
    if offset = target then f e :: es
    else e :: modifyEntry packed target f (offset + e.size packed) es

/-- Overwrite the fields of the entry at `reference`. -/
def updateEntry (p : Page) (reference : TermRef) (f : Entry → Entry) : Page :=
  match p.body with
  | .dictionary packed es =>
    { p with body := .dictionary packed (modifyEntry packed reference.offset f pageHeader es) }
  | _ => p

/-- Replaces the posting chain of a term. -/
def setPostingChain (p : Page) (reference : TermRef) (head tail : ℕ) : Except Error Page := do
  let t ← p.term reference
  if t.inlineSecond ≠ none then .error .invalidState
  else if postingPairValid head tail then
    .ok (p.updateEntry reference fun e => { e with head, tail })
  else .error .codec

/-- Moves the inline second owner of a term to a posting page; gives the owner. -/
def promoteInlineSecond (p : Page) (reference : TermRef) (block : ℕ) :
    Except Error (OwnerRef × Page) := do
  let t ← p.term reference
  match t.inlineSecond with
  | none => .error .invalidState
  | some second =>
    if ¬ blockValid block ∨ block = p.block then .error .invalidState
    else
      -- readers may still hold the old dictionary head; retain its witness
      .ok (second, p.updateEntry reference fun e =>
        { e with inline := 2, head := block, tail := block })

/-- Replaces the inline second owner of a term without a posting chain. -/
def setInlineSecond (p : Page) (reference : TermRef) (second : Option OwnerRef) :
    Except Error Page := do
  if p.packedDictionaryFormat = false then .error .invalidState
  else
    let t ← p.term reference
    match second with
    | some owner =>
      if t.inlineSecond ≠ none ∨ t.head ≠ noBlock ∨ t.tail ≠ noBlock ∨ ¬ t.first.Before owner then
        .error .invalidState
      else if ¬ (blockValid owner.page ∧ owner.slot < ownerSlots) then .error .codec
      else
        .ok (p.updateEntry reference fun e =>
          { e with second := some owner, inline := 1, head := p.block, tail := p.block })
    | none =>
      if t.inlineSecond = none ∨ t.head ≠ p.block ∨ t.tail ≠ p.block then .error .invalidState
      else
        .ok (p.updateEntry reference fun e =>
          { e with second := none, inline := 0, head := noBlock, tail := noBlock })

/-! ### Posting pages -/

/-- The term of a posting page of any kind. -/
def postingTerm (p : Page) : Except Error TermRef :=
  match p.body.postingTag with
  | some t => .ok t
  | none => .error .codec

/-- The owner references of the page.  A compressed page is never empty. -/
def postingRefs (p : Page) : Except Error (List OwnerRef) := do
  let _ ← p.postingTerm
  if p.kind ≠ .postings ∧ p.body.postingRefs = [] then .error .codec
  else .ok p.body.postingRefs

/-- The records of a direct page. -/
def directRecords (p : Page) : Except Error (List DirectRecord) :=
  match p.body with
  | .direct _ _ _ records => .ok records
  | _ => .error .codec

/-- The number of postings of a page. -/
def postingCount (p : Page) : Except Error ℕ := do
  let records ← p.directRecords
  .ok records.length

/-- The first and the last owner that a direct page declares. -/
def directEndpoints (p : Page) : Except Error (OwnerRef × OwnerRef) :=
  match p.body with
  | .direct _ first last _ => .ok (first, last)
  | _ => .error .codec

/-- Reads a local live coordinate. -/
def directRoot (p : Page) (slot : ℕ) (layout : HeapLayout) : Except Error (Option RootTid) := do
  let records ← p.directRecords
  match records[slot]? with
  | none => .error .codec
  | some r =>
    if r.root.Valid layout then .ok (if r.live then some r.root else none) else .error .codec

/-- Clears a copied coordinate. -/
def removeDirectRoot (p : Page) (slot : ℕ) (layout : HeapLayout) : Except Error Page := do
  let _ ← p.directRoot slot layout
  match p.body with
  | .direct t first last records =>
    .ok { p with
      body := .direct t first last (records.modify slot fun r => { r with live := false }) }
  | _ => .error .codec

/-- Appends an owner to a posting page; `none` when the page is full. -/
def appendPosting (p : Page) (owner : OwnerRef) : Except Error (Option Page) :=
  match p.body with
  | .postings t refs =>
    if capacity < p.len + 16 then .ok none
    else if ¬ (blockValid owner.page ∧ owner.slot < ownerSlots) then .error .codec
    else .ok (some { p with body := .postings t (refs ++ [owner]) })
  | _ => .error .codec

/-- The owner, the offset and the bytes of a fragment. -/
def fragmentData (p : Page) : Except Error (OwnerRef × ℕ × List UInt8) :=
  match p.body with
  | .fragment owner offset payload =>
    if owner.Valid then .ok (owner, offset, payload) else .error .codec
  | _ => .error .codec

end Page

/-! ### Compressed pages -/

/-- Builds one compressed page. -/
structure SealedBuilder where
  page : Page
  previous : Option OwnerRef

namespace SealedBuilder

/-- `write_delta` accepts `owner` after `previous`. -/
def DeltaOk (owner : OwnerRef) (previous : Option OwnerRef) : Prop :=
  (∀ p ∈ previous, p.Before owner) ∧ blockValid owner.page ∧ owner.slot < ownerSlots

instance (owner : OwnerRef) (previous : Option OwnerRef) : Decidable (DeltaOk owner previous) :=
  inferInstanceAs (Decidable (_ ∧ _))

/-- A sealed page of the term without postings. -/
def new (block : ℕ) (term : TermRef) : Except Error SealedBuilder := do
  let p ← Page.postings block term
  .ok ⟨{ p with body := .sealed term [] }, none⟩

/-- The empty direct page; its endpoint fields are written by the first push. -/
def newDirect (block : ℕ) (term : TermRef) : Except Error SealedBuilder := do
  let p ← Page.postings block term
  .ok ⟨{ p with body := .direct term ⟨0, 0, 0⟩ ⟨0, 0, 0⟩ [] }, none⟩

/-- Returns `none` without mutation when this page has no room for the owner. -/
def push (b : SealedBuilder) (owner : OwnerRef) : Except Error (Option SealedBuilder) :=
  match b.page.body with
  | .sealed t refs =>
    if ¬ DeltaOk owner b.previous then .error .invalidState
    else if capacity < b.page.len + deltaLen b.previous owner then .ok none
    else .ok (some ⟨{ b.page with body := .sealed t (refs ++ [owner]) }, some owner⟩)
  | _ => .error .codec

/-- Appends to the parallel coordinate and identity streams. -/
def pushDirect (b : SealedBuilder) (owner : OwnerRef) (root : RootTid) :
    Except Error (Option SealedBuilder) :=
  match b.page.body with
  | .direct t first _ records =>
    if ¬ DeltaOk owner b.previous then .error .invalidState
    else if capacity < b.page.len + deltaLen b.previous owner + 8 then .ok none
    else
      .ok (some ⟨{ b.page with
        body := .direct t (if records = [] then owner else first) owner
          (records ++ [⟨owner, root, true⟩]) }, some owner⟩)
  | _ => .error .codec

/-- The finished page; a page without postings is refused. -/
def finish (b : SealedBuilder) : Except Error Page :=
  if b.page.body.postingRefs = [] then .error .invalidState else .ok b.page

end SealedBuilder

/-- Stable bucket routing by the FNV-1a hash of the term bytes. -/
def bucketFor (term : Text) : ℕ :=
  (term.foldl (fun (h : UInt64) b => (h ^^^ b.toUInt64) * 0x100000001b3)
    0xcbf29ce484222325).toNat % buckets

end PinCore
