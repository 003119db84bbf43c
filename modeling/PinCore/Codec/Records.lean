import Mathlib.Data.FinEnum
import Mathlib.Data.List.Chain
import PinCore.Codec.Format
import PinCore.Page.Basic

/-!
# Versioned records

Documents, nullable texts and manifests of sources, each in an envelope with its magic, kind,
version, features and length.  Every byte of a record is determined by what it says: what a
parser accepts is what the encoder of its kind writes (`Records.envelopes_canonical`).
-/

namespace PinCore

namespace Records

open Reader

/-! ### The envelope -/

/-- The length of the envelope header. -/
def headerBytes : ℕ := 16

/-- The version that the envelopes carry. -/
def formatVersion : ℕ := 1

/-- The magic `PIN1`. -/
def magic : List UInt8 := [0x50, 0x49, 0x4E, 0x31]

/-- Reads the envelope and returns what is inside. -/
def envelope (kind : ℕ) : Parse (List UInt8) := do
  let found ← take 4
  Read.ensure (found = magic) (.codecAt 0 .badMagic)
  let tag ← u8
  Read.ensure (tag = kind) (.codecAt 4 .unknownTag)
  let reserved ← u8
  Read.ensure (reserved = 0) (.codecAt 5 .nonCanonical)
  let version ← u16
  Read.ensure (version = formatVersion) (.codecAt 6 .unsupportedVersion)
  let features ← u32
  Read.ensure (features = 0) (.codecAt 8 .unsupportedFeatures)
  let len ← u32
  take len

/-- The payload of an envelope of the given kind. -/
def payload (bytes : List UInt8) (kind maxBytes : ℕ) : Except Error (List UInt8) :=
  if maxBytes < bytes.length then .error (.codecAt 0 .limitExceeded)
  else runDone (envelope kind) bytes

/-- Starts an output that has room for the envelope and `len` bytes in it. -/
def start (kind len : ℕ) : Writer.Emit := do
  Read.ensure (len + headerBytes < usizeLimit) (.codecAt 0 .overflow)
  Read.ensure (len < u32Limit) (.codecAt 0 .overflow)
  let w ← Read.cursor
  Read.ensure (len + headerBytes ≤ w.room) (.codecAt 0 .truncated)
  Writer.put magic
  Writer.u8 kind
  Writer.u8 0
  Writer.u16 formatVersion
  Writer.u32 0
  Writer.u32 len

/-- The bytes of an envelope before its content. -/
def header (kind len : ℕ) : List UInt8 :=
  magic ++ (leBytes 1 kind ++ (leBytes 1 0 ++ (bytesU16 formatVersion ++ (bytesU32 0 ++
    bytesU32 len))))

/-- A record of some kind. -/
def record (kind : ℕ) (content : List UInt8) : List UInt8 := header kind content.length ++ content

section

variable {kind kind' len maxBytes maxBytes' : ℕ} {bytes content content' : List UInt8}

theorem length_header : (header kind len).length = headerBytes := by
  simp only [header, List.length_append, length_leBytes, length_bytesU16, length_bytesU32]
  rfl

theorem length_record : (record kind content).length = headerBytes + content.length := by
  rw [record, List.length_append, length_header]

theorem length_record_lt (hlen : content.length < u32Limit) :
    (record kind content).length < usizeLimit := by
  have hu32 : u32Limit + headerBytes < usizeLimit := by decide
  rw [length_record]
  omega

theorem decodes_envelope (hkind : kind < 256) (hlen : content.length < u32Limit) :
    Decodes (envelope kind) (record kind content) content := by
  rw [record, header]
  simp only [List.append_assoc]
  unfold envelope
  refine (Decodes.take rfl).bind (.ensure_bind rfl ?_)
  refine (Decodes.le hkind).bind (.ensure_bind rfl ?_)
  refine (Decodes.le (by decide)).bind (.ensure_bind rfl ?_)
  refine Decodes.bind (fun _ _ hf h => u16_past hf (by decide) h) (.ensure_bind rfl ?_)
  refine Decodes.bind (fun _ _ hf h => u32_past hf (by decide) h) (.ensure_bind rfl ?_)
  exact Decodes.bind (fun _ _ hf h => u32_past hf hlen h) (Decodes.take rfl)

theorem payload_record (hkind : kind < 256) (hlen : content.length < u32Limit)
    (hmax : (record kind content).length ≤ maxBytes) :
    payload (record kind content) kind maxBytes = .ok content := by
  rw [payload, if_neg (by omega)]
  exact (decodes_envelope hkind hlen).runDone (length_record_lt hlen)

/-- Only records are accepted. -/
theorem of_payload (h : payload bytes kind maxBytes = .ok content) :
    bytes = record kind content ∧ content.length < u32Limit ∧ kind < 256 ∧
      bytes.length ≤ maxBytes := by
  rw [payload] at h
  split_ifs at h with hmax
  obtain ⟨r, h, hr⟩ := of_runDone h
  unfold envelope at h
  obtain ⟨m, r₀, hm, h⟩ := Read.of_bind h
  obtain ⟨hmagic, h⟩ := Read.of_ensure_bind h
  obtain ⟨tag, r₁, htag, h⟩ := Read.of_bind h
  obtain ⟨hkind, h⟩ := Read.of_ensure_bind h
  obtain ⟨reserved, r₂, hreserved, h⟩ := Read.of_bind h
  obtain ⟨hzero, h⟩ := Read.of_ensure_bind h
  obtain ⟨version, r₃, hversion, h⟩ := Read.of_bind h
  obtain ⟨hone, h⟩ := Read.of_ensure_bind h
  obtain ⟨features, r₄, hfeatures, h⟩ := Read.of_bind h
  obtain ⟨hnone, h⟩ := Read.of_ensure_bind h
  obtain ⟨len, r₅, hlen, h⟩ := Read.of_bind h
  obtain ⟨-, p₀⟩ := past_of_take hm
  obtain ⟨hk, p₁⟩ := past_of_le htag
  obtain ⟨-, p₂⟩ := past_of_le hreserved
  obtain ⟨-, p₃⟩ := past_of_u16 hversion
  obtain ⟨-, p₄⟩ := past_of_u32 hfeatures
  obtain ⟨hu32, p₅⟩ := past_of_u32 hlen
  obtain ⟨rfl, p₆⟩ := past_of_take h
  subst hmagic hkind hzero hone hnone
  have hall := (p₀.append (p₁.append (p₂.append (p₃.append (p₄.append (p₅.append p₆)))))).all hr
  refine ⟨?_, hu32, hk, by omega⟩
  rw [hall, record, header]
  simp only [List.append_assoc]

/-- The kind of a record is in its envelope. -/
theorem payload_kind (h : payload bytes kind maxBytes = .ok content)
    (h' : payload bytes kind' maxBytes' = .ok content') : kind = kind' := by
  obtain ⟨hb, -, hk, -⟩ := of_payload h
  obtain ⟨hb', -, hk', -⟩ := of_payload h'
  have heq : header kind content.length ++ content = header kind' content'.length ++ content' :=
    hb.symm.trans hb'
  -- the kind is the byte behind the magic
  simp only [header, List.append_assoc] at heq
  have hrest := List.append_cancel_left heq
  have hlen : (leBytes 1 kind).length = (leBytes 1 kind').length := rfl
  have hle := (List.append_inj hrest hlen).1
  have hkind : leNat (leBytes 1 kind) = kind := leNat_leBytes hk
  have hkind' : leNat (leBytes 1 kind') = kind' := leNat_leBytes hk'
  rw [← hkind, hle, hkind']

/-- An envelope, and in it what `x` writes. -/
theorem writes_start {x : Writer.Emit} (hx : Writer.Writes x content)
    (hlen : content.length < u32Limit) :
    Writer.Writes (do start kind content.length; x) (record kind content) := by
  have hlimit : content.length + headerBytes < usizeLimit := by
    have hu32 : u32Limit + headerBytes < usizeLimit := by decide
    omega
  have hheader : Writer.Writes (do
      Writer.put magic; Writer.u8 kind; Writer.u8 0; Writer.u16 formatVersion; Writer.u32 0
      Writer.u32 content.length) (header kind content.length) :=
    Writer.Writes.put.bind (Writer.Writes.put.bind (Writer.Writes.put.bind
      (Writer.Writes.put.bind (Writer.Writes.put.bind Writer.Writes.put))))
  intro w hf hroom
  have hfits : content.length + headerBytes ≤ w.room := by
    rw [length_record] at hroom
    omega
  have hstart : start kind content.length w = (.ok ⟨⟩,
      ⟨w.written ++ header kind content.length, w.room - (header kind content.length).length⟩) := by
    rw [start, Read.ensure_bind hlimit, Read.ensure_bind hlen, Read.cursor_bind,
      Read.ensure_bind hfits]
    exact hheader w hf (by rw [length_header]; omega)
  rw [Read.ok_bind hstart, hx _ (by simp only [List.length_append, length_header]; omega)
    (by simp only [length_header]; omega), record, List.append_assoc, List.length_append,
    Nat.sub_sub]

end

/-! ### Fields -/

/-- A nonzero identifier of 64 bits: of a source, an incarnation or a generation. -/
structure Identifier where
  get : ℕ
  pos : 0 < get
  lt : get < 256 ^ 8
  deriving DecidableEq

/-- The identifier with a number; zero is an error of the field at `offset`. -/
def Identifier.new (value offset : ℕ) : Except Error Identifier :=
  if h : 0 < value ∧ value < 256 ^ 8 then .ok ⟨value, h.1, h.2⟩
  else .error (.codecAt offset .invalidValue)

/-- Reads an identifier, which is not zero. -/
def identifier (offset : ℕ) : Parse Identifier := do
  let value ← u64
  Read.ofExcept (Identifier.new value offset)

/-- A byte that is zero or one. -/
def flag (offset : ℕ) (kind : ErrorKind) : ℕ → Except Error Bool
  | 0 => .ok false
  | 1 => .ok true
  | _ => .error (.codecAt offset kind)

/-- The byte of a flag. -/
def flagByte (b : Bool) : ℕ := if b then 1 else 0

/-- The publication state with a tag. -/
def publicationOf : ℕ → Except Error Publication
  | 0 => .ok .allocated
  | 1 => .ok .fragmentsWritten
  | 2 => .ok .published
  | 3 => .ok .abandoned
  | _ => .error (.codecAt 32 .unknownTag)

section

variable {offset n : ℕ} {kind : ErrorKind} {i : Identifier} {r r' : Reader} {b : Bool}
  {x : Publication}

theorem Identifier.new_get : Identifier.new i.get offset = .ok i := by
  rw [Identifier.new, dif_pos ⟨i.pos, i.lt⟩]

theorem Identifier.of_new (h : Identifier.new n offset = .ok i) : i.get = n := by
  rw [Identifier.new] at h
  split_ifs at h
  cases h
  rfl

theorem decodes_identifier : Decodes (identifier offset) (leBytes 8 i.get) i := by
  rw [← List.append_nil (leBytes 8 i.get)]
  exact (Decodes.le i.lt).bind (fun r r' hf h => by
    rw [Read.ofExcept, Identifier.new_get]
    exact Decodes.pure r r' hf h)

theorem past_of_identifier (h : identifier offset r = (.ok i, r')) :
    Past r (leBytes 8 i.get) r' := by
  obtain ⟨value, r₁, hvalue, h⟩ := Read.of_bind h
  rcases hnew : Identifier.new value offset with e | j
  · rw [hnew] at h
    cases h
  · rw [hnew] at h
    cases h
    rw [Identifier.of_new hnew]
    exact (past_of_le hvalue).2

theorem flag_flagByte : flag offset kind (flagByte b) = .ok b := by cases b <;> rfl

theorem of_flag (h : flag offset kind n = .ok b) : n = flagByte b := by
  unfold flag at h
  split at h <;> cases h <;> rfl

theorem flagByte_lt : flagByte b < 256 ^ 1 := by cases b <;> decide

theorem publicationOf_code : publicationOf x.code = .ok x := by cases x <;> rfl

theorem of_publicationOf (h : publicationOf n = .ok x) : n = x.code := by
  unfold publicationOf at h
  split at h <;> cases h <;> rfl

theorem code_lt : x.code < 256 ^ 1 := by cases x <;> decide

end

/-! ### Documents -/

/-- The record of one document: where it is, what it holds and whether it is visible. -/
structure DocumentRecord where
  segment : Identifier
  incarnation : Identifier
  root : RootTid
  tokenCount : ℕ
  profile : ℕ
  publication : Publication
  live : Bool
  deriving DecidableEq

namespace DocumentRecord

/-- The length of an encoded document record. -/
def encodedBytes : ℕ := headerBytes + 36

/-- A record has a profile, and only a published document is live. -/
def validate (d : DocumentRecord) : Except Error Unit :=
  if d.profile = 0 ∨ (d.live = true ∧ d.publication ≠ .published) then
    .error (.codecAt 0 .invalidValue)
  else .ok ⟨⟩

/-- Writes the envelope of a document record. -/
def encode (d : DocumentRecord) (output : List UInt8) : Except Error ℕ × List UInt8 :=
  Writer.onto output do
    Read.ofExcept d.validate
    start 1 36
    Writer.u64 d.segment.get
    Writer.u64 d.incarnation.get
    Writer.u32 d.root.block
    Writer.u16 d.root.offset
    Writer.u16 0
    Writer.u32 d.tokenCount
    Writer.u32 d.profile
    Writer.u8 d.publication.code
    Writer.u8 (flagByte d.live)
    Writer.u16 0

/-- The content of a document's envelope. -/
def content (layout : HeapLayout) : Parse DocumentRecord := do
  let segment ← identifier 0
  let incarnation ← identifier 8
  let block ← u32
  let offset ← u16
  Read.ensure (RootTid.Valid layout ⟨block, offset⟩) (.codecAt 16 .invalidValue)
  let reserved ← u16
  Read.ensure (reserved = 0) (.codecAt 22 .nonCanonical)
  let tokenCount ← u32
  let profile ← u32
  let code ← u8
  let publication ← Read.ofExcept (publicationOf code)
  let byte ← u8
  let live ← Read.ofExcept (flag 33 .invalidValue byte)
  let reserved ← u16
  Read.ensure (reserved = 0) (.codecAt 34 .nonCanonical)
  return ⟨segment, incarnation, ⟨block, offset⟩, tokenCount, profile, publication, live⟩

/-- Reads the envelope of a document record. -/
def parse (bytes : List UInt8) (layout : HeapLayout) : Except Error DocumentRecord := do
  let p ← payload bytes 1 encodedBytes
  let d ← runDone (content layout) p
  d.validate
  .ok d

/-- The bytes inside a document's envelope. -/
def contentBytes (d : DocumentRecord) : List UInt8 :=
  leBytes 8 d.segment.get ++ (leBytes 8 d.incarnation.get ++ (bytesU32 d.root.block ++
    (bytesU16 d.root.offset ++ (bytesU16 0 ++ (bytesU32 d.tokenCount ++ (bytesU32 d.profile ++
      (leBytes 1 d.publication.code ++ (leBytes 1 (flagByte d.live) ++ bytesU16 0))))))))

/-- A record that `validate` accepts, with a root of the heap layout and fields of 32 bits. -/
structure Valid (layout : HeapLayout) (d : DocumentRecord) : Prop where
  validate : d.validate = .ok ⟨⟩
  root : d.root.Valid layout
  block : d.root.block < u32Limit
  tokenCount : d.tokenCount < u32Limit
  profile : d.profile < u32Limit

variable {layout : HeapLayout} {d : DocumentRecord} {bytes : List UInt8}

theorem length_contentBytes : (contentBytes d).length = 36 := by
  simp only [contentBytes, List.length_append, length_leBytes, length_bytesU16, length_bytesU32]

theorem encodes (hv : d.validate = .ok ⟨⟩) : Writer.Encodes encode d (record 1 d.contentBytes) := by
  refine ⟨length_record_lt (by rw [length_contentBytes]; decide), fun output hroom hf => ?_⟩
  have hbody : Writer.Writes (do
      Writer.u64 d.segment.get; Writer.u64 d.incarnation.get; Writer.u32 d.root.block
      Writer.u16 d.root.offset; Writer.u16 0; Writer.u32 d.tokenCount; Writer.u32 d.profile
      Writer.u8 d.publication.code; Writer.u8 (flagByte d.live); Writer.u16 0) d.contentBytes :=
    Writer.Writes.put.bind (Writer.Writes.put.bind (Writer.Writes.put.bind
      (Writer.Writes.put.bind (Writer.Writes.put.bind (Writer.Writes.put.bind
        (Writer.Writes.put.bind (Writer.Writes.put.bind (Writer.Writes.put.bind
          Writer.Writes.put))))))))
  have hwrites := @writes_start 1 d.contentBytes _ hbody (by rw [length_contentBytes]; decide)
  rw [length_contentBytes] at hwrites
  exact (@Writer.Writes.ofExcept Unit _ (fun _ => _) ⟨⟩ _ hv hwrites).onto hroom hf

theorem parse_record (hv : d.Valid layout) : parse (record 1 d.contentBytes) layout = .ok d := by
  have hoffset : d.root.offset < 65536 := by
    have := hv.root.2.2
    have := layout.le
    omega
  have hcontent : Decodes (content layout) d.contentBytes d := by
    unfold content contentBytes
    refine decodes_identifier.bind (decodes_identifier.bind ?_)
    refine Decodes.bind (fun _ _ hf h => u32_past hf hv.block h) ?_
    refine Decodes.bind (fun _ _ hf h => u16_past hf hoffset h) (.ensure_bind hv.root ?_)
    refine Decodes.bind (fun _ _ hf h => u16_past hf (by decide) h) (.ensure_bind rfl ?_)
    refine Decodes.bind (fun _ _ hf h => u32_past hf hv.tokenCount h) ?_
    refine Decodes.bind (fun _ _ hf h => u32_past hf hv.profile h) ?_
    refine (Decodes.le code_lt).bind (.ofExcept_bind publicationOf_code ?_)
    refine (Decodes.le flagByte_lt).bind (.ofExcept_bind flag_flagByte ?_)
    rw [← List.append_nil (bytesU16 0)]
    exact Decodes.bind (fun _ _ hf h => u16_past hf (by decide) h) (.ensure_bind rfl .pure)
  have hlen : (contentBytes d).length < usizeLimit := by
    rw [length_contentBytes]
    decide
  have hu32 : (contentBytes d).length < u32Limit := by
    rw [length_contentBytes]
    decide
  have hmax : (record 1 d.contentBytes).length ≤ encodedBytes := by
    rw [length_record, length_contentBytes]
    exact Nat.le_refl _
  rw [parse, payload_record (by decide) hu32 hmax, ok_bind, hcontent.runDone hlen, ok_bind,
    hv.validate]
  rfl

/-- Only encodings of valid records are accepted. -/
theorem of_parse (h : parse bytes layout = .ok d) :
    bytes = record 1 d.contentBytes ∧ d.Valid layout := by
  obtain ⟨p, hp, h⟩ := ok_of_bind h
  obtain ⟨d', hd, h⟩ := ok_of_bind h
  obtain ⟨_, hv, h⟩ := ok_of_bind h
  cases h
  obtain ⟨rfl, -, -, -⟩ := of_payload hp
  obtain ⟨r, h, hr⟩ := of_runDone hd
  unfold content at h
  obtain ⟨segment, r₁, hsegment, h⟩ := Read.of_bind h
  obtain ⟨incarnation, r₂, hincarnation, h⟩ := Read.of_bind h
  obtain ⟨block, r₃, hblock, h⟩ := Read.of_bind h
  obtain ⟨offset, r₄, hoffset, h⟩ := Read.of_bind h
  obtain ⟨hroot, h⟩ := Read.of_ensure_bind h
  obtain ⟨reserved, r₅, hreserved, h⟩ := Read.of_bind h
  obtain ⟨hzero, h⟩ := Read.of_ensure_bind h
  obtain ⟨tokenCount, r₆, htokens, h⟩ := Read.of_bind h
  obtain ⟨profile, r₇, hprofile, h⟩ := Read.of_bind h
  obtain ⟨code, r₈, hcode, h⟩ := Read.of_bind h
  obtain ⟨publication, hpublication, h⟩ := Read.of_ofExcept_bind h
  obtain ⟨byte, r₉, hbyte, h⟩ := Read.of_bind h
  obtain ⟨live, hlive, h⟩ := Read.of_ofExcept_bind h
  obtain ⟨reserved', r₁₀, hreserved', h⟩ := Read.of_bind h
  obtain ⟨hzero', h⟩ := Read.of_ensure_bind h
  cases h
  obtain ⟨hblock, p₃⟩ := past_of_u32 hblock
  obtain ⟨-, p₄⟩ := past_of_u16 hoffset
  obtain ⟨-, p₅⟩ := past_of_u16 hreserved
  obtain ⟨htokens, p₆⟩ := past_of_u32 htokens
  obtain ⟨hprofile, p₇⟩ := past_of_u32 hprofile
  obtain ⟨-, p₈⟩ := past_of_le hcode
  obtain ⟨-, p₉⟩ := past_of_le hbyte
  obtain ⟨-, p₁₀⟩ := past_of_u16 hreserved'
  rw [of_publicationOf hpublication] at p₈
  rw [of_flag hlive] at p₉
  subst hzero hzero'
  have hall := ((past_of_identifier hsegment).append ((past_of_identifier hincarnation).append
    (p₃.append (p₄.append (p₅.append (p₆.append (p₇.append (p₈.append (p₉.append p₁₀))))))))).all hr
  exact ⟨by rw [hall, contentBytes], hv, hroot, hblock, htokens, hprofile⟩

end DocumentRecord

/-! ### Nullable texts -/

/-- Reads a text value or its absence. -/
def valueContent : Parse (Option Text) := do
  let tag ← u8
  if tag = 0 then return none
  else if tag = 1 then do
    let len ← u32
    let text ← take len
    Read.ensure (utf8 text = true) (.codecAt 5 .invalidUtf8)
    return some text
  else Read.fail (.codecAt 0 .unknownTag)

/-- Preserves null versus empty text. -/
def decodeValue (bytes : List UInt8) (maxBytes : ℕ) : Except Error (Option Text) := do
  let p ← payload bytes 2 maxBytes
  runDone valueContent p

/-- The length of the payload of a text value. -/
def valueLen : Option Text → ℕ
  | none => 1
  | some text => text.length + 5

/-- Writes a text value or its absence. -/
def writeValue : Option Text → Writer.Emit
  | none => Writer.u8 0
  | some text => do
    Writer.u8 1
    Read.ensure (text.length < u32Limit) (.codecAt 0 .overflow)
    Writer.u32 text.length
    Writer.put text

/-- Writes the envelope of a text value within a bound on its length. -/
def encodeValue (maxBytes : ℕ) (value : Option Text) (output : List UInt8) :
    Except Error ℕ × List UInt8 :=
  Writer.onto output do
    Read.ensure (valueLen value < usizeLimit) (.codecAt 0 .overflow)
    Read.ensure (valueLen value + headerBytes < usizeLimit ∧
      valueLen value + headerBytes ≤ maxBytes)
      (.codecAt 0 .limitExceeded)
    start 2 (valueLen value)
    writeValue value

/-- The payload of a text value. -/
def valueBytes : Option Text → List UInt8
  | none => leBytes 1 0
  | some text => leBytes 1 1 ++ (bytesU32 text.length ++ text)

/-- A text is UTF-8; with the envelope it keeps the limit of the caller and of the format. -/
structure ValueFits (maxBytes : ℕ) (value : Option Text) : Prop where
  utf8 : ∀ text ∈ value, utf8 text = true
  limit : valueLen value + headerBytes ≤ maxBytes
  u32 : valueLen value < u32Limit

section

variable {maxBytes : ℕ} {value : Option Text} {bytes : List UInt8}

theorem length_valueBytes : (valueBytes value).length = valueLen value := by
  cases value with
  | none => rfl
  | some text =>
    rw [valueBytes, List.length_append, List.length_append, length_leBytes, length_bytesU32,
      valueLen]
    omega

theorem writes_value (hu32 : valueLen value < u32Limit) :
    Writer.Writes (writeValue value) (valueBytes value) := by
  cases value with
  | none => exact Writer.Writes.put
  | some text =>
    have hlen : text.length < u32Limit := by
      rw [valueLen] at hu32
      omega
    exact Writer.Writes.put.bind (Writer.Writes.ensure hlen
      (Writer.Writes.put.bind Writer.Writes.put))

theorem decodes_value (hv : ValueFits maxBytes value) :
    Decodes valueContent (valueBytes value) value := by
  unfold valueContent
  cases value with
  | none =>
    rw [valueBytes, ← List.append_nil (leBytes 1 0)]
    exact (Decodes.le (by decide)).bind (by rw [if_pos rfl]; exact Decodes.pure)
  | some text =>
    have hlen : text.length < u32Limit := by
      have := hv.u32
      rw [valueLen] at this
      omega
    have hbytes : valueBytes (some text) =
        leBytes 1 1 ++ (bytesU32 text.length ++ (text ++ [])) := by
      rw [List.append_nil]
      rfl
    rw [hbytes]
    refine (Decodes.le (by decide)).bind ?_
    rw [if_neg (by decide), if_pos rfl]
    refine Decodes.bind (fun _ _ hf h => u32_past hf hlen h) ?_
    exact (Decodes.take rfl).bind (.ensure_bind (hv.utf8 text rfl) .pure)

theorem encodes_value (hv : ValueFits maxBytes value) :
    Writer.Encodes (encodeValue maxBytes) value (record 2 (valueBytes value)) := by
  have hu32 := hv.u32
  refine ⟨length_record_lt (by rw [length_valueBytes]; exact hu32), fun output hroom hf => ?_⟩
  have hlimit := hv.limit
  have hbounds : u32Limit + headerBytes < usizeLimit := by decide
  have hwrites := @writes_start 2 (valueBytes value) _ (writes_value hu32)
    (by rw [length_valueBytes]; exact hu32)
  rw [length_valueBytes] at hwrites
  exact (Writer.Writes.ensure (by omega) (Writer.Writes.ensure ⟨by omega, hlimit⟩ hwrites)).onto
    hroom hf

theorem decodeValue_record (hv : ValueFits maxBytes value) :
    decodeValue (record 2 (valueBytes value)) maxBytes = .ok value := by
  have hu32 := hv.u32
  have hlimit := hv.limit
  have hbounds : u32Limit < usizeLimit := by decide
  have hmax : (record 2 (valueBytes value)).length ≤ maxBytes := by
    rw [length_record, length_valueBytes]
    omega
  rw [decodeValue, payload_record (by decide) (by rw [length_valueBytes]; exact hu32) hmax, ok_bind]
  exact (decodes_value hv).runDone (by rw [length_valueBytes]; omega)

theorem of_decodeValue (h : decodeValue bytes maxBytes = .ok value) :
    bytes = record 2 (valueBytes value) ∧ ValueFits maxBytes value := by
  obtain ⟨p, hp, h⟩ := ok_of_bind h
  obtain ⟨hbytes, hu32, -, hmax⟩ := of_payload hp
  obtain ⟨r, h, hr⟩ := of_runDone h
  unfold valueContent at h
  obtain ⟨tag, r₁, htag, h⟩ := Read.of_bind h
  obtain ⟨-, p₁⟩ := past_of_le htag
  have hfits : p = valueBytes value ∧ ∀ text ∈ value, utf8 text = true := by
    split_ifs at h with h₀ h₁
    · cases h
      subst h₀
      exact ⟨p₁.all hr, fun _ h => absurd h (Option.not_mem_none _)⟩
    · obtain ⟨len, r₂, hlen, h⟩ := Read.of_bind h
      obtain ⟨text, r₃, htext, h⟩ := Read.of_bind h
      obtain ⟨hutf8, h⟩ := Read.of_ensure_bind h
      cases h
      subst h₁
      obtain ⟨-, p₂⟩ := past_of_u32 hlen
      obtain ⟨rfl, p₃⟩ := past_of_take htext
      refine ⟨(p₁.append (p₂.append p₃)).all hr, fun t ht => ?_⟩
      cases ht
      exact hutf8
    · cases h
  obtain ⟨hp', hutf8⟩ := hfits
  rw [hp', length_valueBytes] at hu32
  rw [hbytes, hp', length_record, length_valueBytes] at hmax
  exact ⟨by rw [hbytes, hp'], hutf8, by omega, hu32⟩

end

/-! ### Manifests -/

/-- A segment of the manifest. -/
structure Source where
  id : Identifier
  sealed : Bool
  deriving DecidableEq

/-- A manifest over the bytes of its entries. -/
structure Manifest where
  generation : Identifier
  entries : List UInt8
  count : ℕ
  deriving DecidableEq

/-- The entry of a source, `offset` bytes into the entries. -/
def entry (offset : ℕ) : Parse Source := do
  let id ← identifier offset
  let byte ← u8
  let sealed ← Read.ofExcept (flag (offset + 8) .unknownTag byte)
  let padding ← take 7
  Read.ensure (∀ b ∈ padding, b = 0) (.codecAt (offset + 9) .nonCanonical)
  return ⟨id, sealed⟩

namespace Manifest

/-- The segment at an index of the manifest. -/
def source (m : Manifest) (index : ℕ) : Except Error Source :=
  if m.count ≤ index then .error (.codecAt 0 .invalidValue)
  else run (entry (index * 16)) ((m.entries.drop (index * 16)).take 16)

/-- The next `n` sources from `index` on come in order after `previous`. -/
def check (m : Manifest) : ℕ → ℕ → ℕ → Except Error Unit
  | 0, _, _ => .ok ⟨⟩
  | n + 1, index, previous => do
    let source ← m.source index
    if source.id.get ≤ previous then .error (.codecAt 12 .invalidOrder)
    else check m n (index + 1) source.id.get

/-- The view of a manifest's content. -/
def view (maxSources : ℕ) : Parse Manifest := do
  let generation ← identifier 0
  let count ← u32
  Read.ensure (count ≤ maxSources) (.codecAt 8 .limitExceeded)
  let r ← Read.cursor
  let entries ← take r.remaining
  Read.ensure (entries.length = count * 16) (.codecAt 12 .invalidValue)
  return ⟨generation, entries, count⟩

/-- Reads the envelope of a manifest and checks its entries. -/
def parse (bytes : List UInt8) (maxSources maxBytes : ℕ) : Except Error Manifest := do
  let p ← payload bytes 4 maxBytes
  let m ← run (view maxSources) p
  m.check m.count 0 0
  .ok m

/-- The sources of a manifest. -/
structure Lists (m : Manifest) (sources : List Source) : Prop where
  count : m.count = sources.length
  source : ∀ i (h : i < sources.length), m.source i = .ok sources[i]

end Manifest

/-- The sources come in order after `previous`. -/
def increasing : ℕ → List Source → Except Error Unit
  | _, [] => .ok ⟨⟩
  | previous, source :: sources =>
    if source.id.get ≤ previous then .error (.codecAt 0 .invalidOrder)
    else increasing source.id.get sources

/-- Writes the entries of the segments. -/
def writeSources : List Source → Writer.Emit
  | [] => pure ⟨⟩
  | source :: sources => do
    Writer.u64 source.id.get
    Writer.u8 (flagByte source.sealed)
    Writer.put (List.replicate 7 0)
    writeSources sources

/-- Writes the envelope of a manifest from its generation and its segments. -/
def encodeManifest (maxSources : ℕ) (m : Identifier × List Source) (output : List UInt8) :
    Except Error ℕ × List UInt8 :=
  Writer.onto output do
    Read.ensure (m.2.length < u32Limit) (.codecAt 0 .limitExceeded)
    Read.ensure (m.2.length ≤ maxSources) (.codecAt 0 .limitExceeded)
    Read.ofExcept (increasing 0 m.2)
    Read.ensure (m.2.length * 16 + 12 < usizeLimit) (.codecAt 0 .overflow)
    start 4 (m.2.length * 16 + 12)
    Writer.u64 m.1.get
    Writer.u32 m.2.length
    writeSources m.2

/-- The bytes of an entry. -/
def entryBytes (s : Source) : List UInt8 :=
  leBytes 8 s.id.get ++ (leBytes 1 (flagByte s.sealed) ++ List.replicate 7 0)

/-- The payload of a manifest. -/
def manifestBytes (m : Identifier × List Source) : List UInt8 :=
  leBytes 8 m.1.get ++ (bytesU32 m.2.length ++ m.2.flatMap entryBytes)

/-- The identifiers ascend, and there are not too many of them for the format. -/
structure ManifestFits (maxSources : ℕ) (m : Identifier × List Source) : Prop where
  sorted : m.2.Pairwise (·.id.get < ·.id.get)
  count : m.2.length ≤ maxSources
  u32 : m.2.length * 16 + 12 < u32Limit

section

variable {maxSources maxBytes offset previous n i : ℕ} {m : Identifier × List Source}
  {v : Manifest} {ss : List Source} {s : Source} {bytes : List UInt8} {r r' : Reader}

theorem length_entryBytes : (entryBytes s).length = 16 := rfl

theorem length_manifestBytes : (manifestBytes m).length = m.2.length * 16 + 12 := by
  rw [manifestBytes, List.length_append, List.length_append, length_leBytes, length_bytesU32,
    length_flatMap_const fun _ => length_entryBytes]
  omega

theorem increasing_iff : increasing previous ss = .ok ⟨⟩ ↔
    (previous :: ss.map (·.id.get)).IsChain (· < ·) := by
  induction ss generalizing previous with
  | nil => exact iff_of_true rfl (List.IsChain.singleton previous)
  | cons s ss ih =>
    rw [List.map_cons, List.isChain_cons_cons, increasing, ← ih]
    split_ifs with h
    · exact iff_of_false nofun fun hc => Nat.not_lt.2 h hc.1
    · exact ⟨fun hs => ⟨Nat.not_le.1 h, hs⟩, fun hc => hc.2⟩

/-- Identifiers are not zero, so that zero stands before the first. -/
theorem increasing_zero : increasing 0 ss = .ok ⟨⟩ ↔ ss.Pairwise (·.id.get < ·.id.get) := by
  rw [increasing_iff, List.isChain_iff_pairwise, List.pairwise_cons, List.pairwise_map]
  refine ⟨And.right, fun h => ⟨fun n hn => ?_, h⟩⟩
  obtain ⟨s, -, rfl⟩ := List.mem_map.1 hn
  exact s.id.pos

theorem writes_sources : Writer.Writes (writeSources ss) (ss.flatMap entryBytes) := by
  induction ss with
  | nil => exact Writer.Writes.nil
  | cons s ss ih =>
    rw [List.flatMap_cons, entryBytes, List.append_assoc, List.append_assoc]
    exact Writer.Writes.put.bind (Writer.Writes.put.bind (Writer.Writes.put.bind ih))

theorem decodes_entry : Decodes (entry offset) (entryBytes s) s := by
  have hbytes : entryBytes s = leBytes 8 s.id.get ++ (leBytes 1 (flagByte s.sealed) ++
      (List.replicate 7 0 ++ [])) := by
    rw [List.append_nil]
    rfl
  rw [hbytes]
  unfold entry
  refine decodes_identifier.bind ((Decodes.le flagByte_lt).bind (.ofExcept_bind flag_flagByte ?_))
  exact (Decodes.take (List.length_replicate)).bind
    (.ensure_bind (fun b hb => List.eq_of_mem_replicate hb) .pure)

theorem past_of_entry (h : entry offset r = (.ok s, r')) : Past r (entryBytes s) r' := by
  unfold entry at h
  obtain ⟨id, r₁, hid, h⟩ := Read.of_bind h
  obtain ⟨byte, r₂, hbyte, h⟩ := Read.of_bind h
  obtain ⟨sealed, hsealed, h⟩ := Read.of_ofExcept_bind h
  obtain ⟨padding, r₃, hpadding, h⟩ := Read.of_bind h
  obtain ⟨hzero, h⟩ := Read.of_ensure_bind h
  cases h
  obtain ⟨-, p₂⟩ := past_of_le hbyte
  obtain ⟨hlen, p₃⟩ := past_of_take hpadding
  rw [of_flag hsealed] at p₂
  rw [List.eq_replicate_iff.2 ⟨hlen, hzero⟩] at p₃
  exact (past_of_identifier hid).append (p₂.append p₃)

/-- A manifest has one list of sources. -/
theorem Manifest.Lists.unique {ts : List Source} (hs : v.Lists ss) (ht : v.Lists ts) : ss = ts := by
  refine List.ext_getElem (hs.count.symm.trans ht.count) fun i hi hj => ?_
  exact Except.ok.inj ((hs.source i hi).symm.trans (ht.source i hj))

theorem source_flatMap {g : Identifier} (hi : i < ss.length) :
    (⟨g, ss.flatMap entryBytes, ss.length⟩ : Manifest).source i = .ok ss[i] := by
  rw [Manifest.source, if_neg (by simp only; omega),
    field_flatMap_const (fun _ => length_entryBytes) hi]
  exact decodes_entry.run (by rw [length_entryBytes]; decide)

/-- A source takes its sixteen bytes. -/
theorem of_source (h : v.source i = .ok s) :
    i < v.count ∧ (v.entries.drop (i * 16)).take 16 = entryBytes s := by
  rw [Manifest.source] at h
  split_ifs at h with hi
  refine ⟨Nat.not_le.1 hi, ?_⟩
  rcases hrun : entry (i * 16) (new ((v.entries.drop (i * 16)).take 16)) with ⟨e | s', r⟩
  · rw [run, hrun] at h
    cases h
  rw [run, hrun] at h
  cases h
  have hp := past_of_entry hrun
  have hlen' := hp.length_le
  simp only [new, List.length_take, List.length_drop, length_entryBytes] at hlen'
  exact hp.all (List.length_eq_zero_iff.1 (by omega))

/-- The checked entries from `i` on, as a list. -/
theorem of_check (hlen : v.entries.length = v.count * 16) (hn : i + n = v.count)
    (h : v.check n i previous = .ok ⟨⟩) : ∃ ss : List Source, ss.length = n ∧
      v.entries.drop (i * 16) = ss.flatMap entryBytes ∧ increasing previous ss = .ok ⟨⟩ ∧
      ∀ j (hj : j < ss.length), v.source (i + j) = .ok ss[j] := by
  induction n generalizing i previous with
  | zero =>
    refine ⟨[], rfl, ?_, rfl, nofun⟩
    exact List.drop_eq_nil_of_le (by omega)
  | succ n ih =>
    obtain ⟨s, hs, h⟩ := ok_of_bind h
    split_ifs at h with horder
    obtain ⟨ss, hss, hrest, hinc, hsource⟩ := ih (by omega) h
    obtain ⟨-, htake⟩ := of_source hs
    refine ⟨s :: ss, by rw [List.length_cons, hss], ?_, ?_, fun j hj => ?_⟩
    · rw [List.flatMap_cons, ← htake, ← hrest, Nat.succ_mul, ← List.drop_drop,
        List.take_append_drop]
    · rw [increasing, if_neg horder, hinc]
    · cases j with
      | zero => exact hs
      | succ j =>
        have hj' := hsource j (Nat.lt_of_succ_lt_succ hj)
        rwa [Nat.add_assoc, Nat.add_comm 1] at hj'

theorem check_ok (hs : ∀ j (hj : j < ss.length), v.source (i + j) = .ok ss[j])
    (hinc : increasing previous ss = .ok ⟨⟩) : v.check ss.length i previous = .ok ⟨⟩ := by
  induction ss generalizing i previous with
  | nil => rfl
  | cons s ss ih =>
    rw [increasing] at hinc
    split_ifs at hinc with horder
    have h₀ : v.source i = .ok s := hs 0 (Nat.succ_pos _)
    rw [List.length_cons, Manifest.check, h₀, ok_bind, if_neg horder]
    refine ih (fun j hj => ?_) hinc
    have hj' := hs (j + 1) (Nat.succ_lt_succ hj)
    rwa [← Nat.add_assoc, Nat.add_right_comm] at hj'

theorem encodes_manifest (hm : ManifestFits maxSources m) :
    Writer.Encodes (encodeManifest maxSources) m (record 4 (manifestBytes m)) := by
  have hu32 := hm.u32
  have hbound : u32Limit < usizeLimit := by decide
  refine ⟨length_record_lt (by rw [length_manifestBytes]; exact hu32), fun output hroom hf => ?_⟩
  have hwrites := @writes_start 4 (manifestBytes m) _
    (Writer.Writes.put.bind (Writer.Writes.put.bind writes_sources))
    (by rw [length_manifestBytes]; exact hu32)
  rw [length_manifestBytes] at hwrites
  unfold encodeManifest
  refine Writer.Writes.onto ?_ hroom hf
  refine Writer.Writes.ensure (by omega) (Writer.Writes.ensure hm.count ?_)
  refine @Writer.Writes.ofExcept Unit _ (fun _ => _) ⟨⟩ _ (increasing_zero.2 hm.sorted) ?_
  exact Writer.Writes.ensure (by omega) hwrites

theorem parse_manifest (hm : ManifestFits maxSources m)
    (hmax : headerBytes + (m.2.length * 16 + 12) ≤ maxBytes) :
    ∃ v, Manifest.parse (record 4 (manifestBytes m)) maxSources maxBytes = .ok v ∧
      v.generation = m.1 ∧ v.Lists m.2 := by
  obtain ⟨g, ss⟩ := m
  have hu32 : ss.length * 16 + 12 < u32Limit := hm.u32
  have hbound : u32Limit < usizeLimit := by decide
  let v : Manifest := ⟨g, ss.flatMap entryBytes, ss.length⟩
  have hlists : v.Lists ss := ⟨rfl, fun i hi => source_flatMap hi⟩
  have hlen : (ss.flatMap entryBytes).length = ss.length * 16 :=
    length_flatMap_const (fun _ => length_entryBytes) ss
  have hfits : (new (manifestBytes (g, ss))).Fits := by
    unfold Fits new
    rw [length_manifestBytes]
    simp only
    omega
  have hpast : Past (new (manifestBytes (g, ss))) (leBytes 8 g.get ++ bytesU32 ss.length)
      ⟨ss.flatMap entryBytes, 12⟩ := ⟨by rw [List.append_assoc]; rfl, rfl⟩
  obtain ⟨p₁, p₂⟩ := hpast.split
  have hview : run (Manifest.view maxSources) (manifestBytes (g, ss)) = .ok v := by
    unfold run Manifest.view
    rw [Read.ok_bind (decodes_identifier _ _ hfits p₁),
      Read.ok_bind (u32_past (p₁.fits hfits) (by omega) p₂), Read.ensure_bind hm.count,
      Read.cursor_bind, Read.ok_bind (take_rest (hpast.fits hfits)), Read.ensure_bind hlen]
    rfl
  have hcheck : v.check ss.length 0 0 = .ok ⟨⟩ :=
    check_ok (fun j hj => by rw [Nat.zero_add]; exact source_flatMap hj)
      (increasing_zero.2 hm.sorted)
  refine ⟨v, ?_, rfl, hlists⟩
  rw [Manifest.parse, payload_record (by decide) (by rw [length_manifestBytes]; exact hu32)
    (by rw [length_record, length_manifestBytes]; exact hmax), ok_bind, hview, ok_bind,
    hlists.count, hcheck]
  rfl

/-- Only encodings of ordered sources are accepted. -/
theorem of_parse_manifest (h : Manifest.parse bytes maxSources maxBytes = .ok v) :
    ∃ ss, v.Lists ss ∧ bytes = record 4 (manifestBytes (v.generation, ss)) ∧
      ManifestFits maxSources (v.generation, ss) := by
  obtain ⟨p, hp, h⟩ := ok_of_bind h
  obtain ⟨v', hv, h⟩ := ok_of_bind h
  obtain ⟨_, hcheck, h⟩ := ok_of_bind h
  cases h
  obtain ⟨hbytes, hu32, -, -⟩ := of_payload hp
  rcases hr : Manifest.view maxSources (new p) with ⟨_ | v', r⟩
  · rw [run, hr] at hv
    cases hv
  rw [run, hr] at hv
  cases hv
  obtain ⟨generation, r₁, hgeneration, hr⟩ := Read.of_bind hr
  obtain ⟨count, r₂, hcount, hr⟩ := Read.of_bind hr
  obtain ⟨hmax, hr⟩ := Read.of_ensure_bind hr
  rw [Read.cursor_bind] at hr
  obtain ⟨entries, r₃, hentries, hr⟩ := Read.of_bind hr
  obtain ⟨hlen, hr⟩ := Read.of_ensure_bind hr
  cases hr
  have p₁ := past_of_identifier hgeneration
  obtain ⟨-, p₂⟩ := past_of_u32 hcount
  obtain ⟨p₃, hnil⟩ := of_take_rest hentries
  have hall := (p₁.append (p₂.append p₃)).all hnil
  obtain ⟨ss, hss, hdrop, hinc, hsource⟩ := of_check hlen (Nat.zero_add count) hcheck
  have hflat : entries = ss.flatMap entryBytes := by
    rwa [Nat.zero_mul, List.drop_zero] at hdrop
  have hcount : ss.length = count := hss
  have hcontent : p = manifestBytes (generation, ss) := by
    rw [hall, hflat, ← hcount]
    rfl
  rw [hcontent, length_manifestBytes] at hu32
  refine ⟨ss, ⟨hss.symm, fun i hi => ?_⟩, by rw [hbytes, hcontent], increasing_zero.1 hinc,
    hcount ▸ hmax, hu32⟩
  have hi' := hsource i hi
  rwa [Nat.zero_add] at hi'

end

/-! ### Canonicality -/

/-- **A record is determined by what it says.**  Documents, nullable texts and manifests within
their limits are restored from their encodings; what is parsed is the encoding of what it was
parsed to, so that different bytes mean different values; and no record of one kind is accepted as
another. -/
theorem envelopes_canonical :
    (∀ layout d, d.Valid layout →
      ∃ bytes, Writer.Encodes DocumentRecord.encode d bytes ∧
        DocumentRecord.parse bytes layout = .ok d) ∧
    (∀ layout bytes d, DocumentRecord.parse bytes layout = .ok d →
      d.Valid layout ∧ Writer.Encodes DocumentRecord.encode d bytes) ∧
    (∀ maxBytes value, ValueFits maxBytes value →
      ∃ bytes, Writer.Encodes (encodeValue maxBytes) value bytes ∧
        decodeValue bytes maxBytes = .ok value) ∧
    (∀ maxBytes bytes value, decodeValue bytes maxBytes = .ok value →
      ValueFits maxBytes value ∧ Writer.Encodes (encodeValue maxBytes) value bytes) ∧
    (∀ maxSources maxBytes m, ManifestFits maxSources m →
      headerBytes + (m.2.length * 16 + 12) ≤ maxBytes →
      ∃ bytes v, Writer.Encodes (encodeManifest maxSources) m bytes ∧
        Manifest.parse bytes maxSources maxBytes = .ok v ∧ v.generation = m.1 ∧ v.Lists m.2) ∧
    (∀ maxSources maxBytes bytes v, Manifest.parse bytes maxSources maxBytes = .ok v →
      ∃ ss, v.Lists ss ∧ ManifestFits maxSources (v.generation, ss) ∧
        Writer.Encodes (encodeManifest maxSources) (v.generation, ss) bytes) ∧
    (∀ layout layout' bytes bytes' d, DocumentRecord.parse bytes layout = .ok d →
      DocumentRecord.parse bytes' layout' = .ok d → bytes = bytes') ∧
    (∀ maxBytes maxBytes' bytes bytes' value, decodeValue bytes maxBytes = .ok value →
      decodeValue bytes' maxBytes' = .ok value → bytes = bytes') ∧
    (∀ maxSources maxSources' maxBytes maxBytes' bytes bytes' v v' ss,
      Manifest.parse bytes maxSources maxBytes = .ok v → v.Lists ss →
      Manifest.parse bytes' maxSources' maxBytes' = .ok v' → v'.Lists ss →
      v.generation = v'.generation → bytes = bytes') ∧
    (∀ bytes kind kind' maxBytes maxBytes' p p', payload bytes kind maxBytes = .ok p →
      payload bytes kind' maxBytes' = .ok p' → kind = kind') ∧
    ∀ bytes layout maxBytes maxSources maxBytes' d value v,
      ¬ (DocumentRecord.parse bytes layout = .ok d ∧ decodeValue bytes maxBytes = .ok value) ∧
      ¬ (DocumentRecord.parse bytes layout = .ok d ∧
        Manifest.parse bytes maxSources maxBytes' = .ok v) ∧
      ¬ (decodeValue bytes maxBytes = .ok value ∧
        Manifest.parse bytes maxSources maxBytes' = .ok v) := by
  refine ⟨
    fun layout d hd => ⟨_, DocumentRecord.encodes hd.validate, DocumentRecord.parse_record hd⟩,
    fun layout bytes d h => ?_,
    fun maxBytes value hv => ⟨_, encodes_value hv, decodeValue_record hv⟩,
    fun maxBytes bytes value h => ?_, fun maxSources maxBytes m hm hmax => ?_,
    fun maxSources maxBytes bytes v h => ?_, fun layout layout' bytes bytes' d h h' => ?_,
    fun maxBytes maxBytes' bytes bytes' value h h' => ?_, ?_,
    fun bytes kind kind' maxBytes maxBytes' p p' h h' => payload_kind h h',
    fun bytes layout maxBytes maxSources maxBytes' d value v => ⟨?_, ?_, ?_⟩⟩
  · obtain ⟨rfl, hd⟩ := DocumentRecord.of_parse h
    exact ⟨hd, DocumentRecord.encodes hd.validate⟩
  · obtain ⟨rfl, hv⟩ := of_decodeValue h
    exact ⟨hv, encodes_value hv⟩
  · obtain ⟨v, hv, hg, hl⟩ := parse_manifest hm hmax
    exact ⟨_, v, encodes_manifest hm, hv, hg, hl⟩
  · obtain ⟨ss, hl, rfl, hm⟩ := of_parse_manifest h
    exact ⟨ss, hl, hm, encodes_manifest hm⟩
  · rw [(DocumentRecord.of_parse h).1, (DocumentRecord.of_parse h').1]
  · rw [(of_decodeValue h).1, (of_decodeValue h').1]
  · intro maxSources maxSources' maxBytes maxBytes' bytes bytes' v v' ss h hl h' hl' hg
    obtain ⟨ts, ht, rfl, -⟩ := of_parse_manifest h
    obtain ⟨ts', ht', rfl, -⟩ := of_parse_manifest h'
    rw [← hl.unique ht, ← hl'.unique ht', hg]
  · rintro ⟨h, h'⟩
    obtain ⟨p, hp, -⟩ := ok_of_bind h
    obtain ⟨p', hp', -⟩ := ok_of_bind h'
    exact absurd (payload_kind hp hp') (by decide)
  · rintro ⟨h, h'⟩
    obtain ⟨p, hp, -⟩ := ok_of_bind h
    obtain ⟨p', hp', -⟩ := ok_of_bind h'
    exact absurd (payload_kind hp hp') (by decide)
  · rintro ⟨h, h'⟩
    obtain ⟨p, hp, -⟩ := ok_of_bind h
    obtain ⟨p', hp', -⟩ := ok_of_bind h'
    exact absurd (payload_kind hp hp') (by decide)

/-- A live document of source `3`. -/
def publishedDocument : DocumentRecord :=
  ⟨⟨3, by decide, by decide⟩, ⟨7, by decide, by decide⟩, ⟨1, 2⟩, 40, 1, .published, true⟩

/-- Generation `9` of the sources `3`, sealed, and `5`. -/
def sampleManifest : Identifier × List Source :=
  (⟨9, by decide, by decide⟩, [⟨⟨3, by decide, by decide⟩, true⟩,
    ⟨⟨5, by decide, by decide⟩, false⟩])

/-- A document, a text and a manifest are restored, from no other bytes, and none is taken for a
record of another kind. -/
theorem canonical_records :
    (∃ bytes, Writer.Encodes DocumentRecord.encode publishedDocument bytes ∧
      DocumentRecord.parse bytes ⟨291, by decide, by decide⟩ = .ok publishedDocument ∧
      (∀ layout bytes', DocumentRecord.parse bytes' layout = .ok publishedDocument →
        bytes = bytes') ∧
      ∀ maxBytes value, decodeValue bytes maxBytes ≠ .ok value) ∧
    (∃ bytes, Writer.Encodes (encodeValue 64) (some [104, 105]) bytes ∧
      decodeValue bytes 64 = .ok (some [104, 105]) ∧
      (∀ maxBytes bytes', decodeValue bytes' maxBytes = .ok (some [104, 105]) → bytes = bytes') ∧
      ∀ maxSources maxBytes v, Manifest.parse bytes maxSources maxBytes ≠ .ok v) ∧
    ∃ bytes v, Writer.Encodes (encodeManifest 8) sampleManifest bytes ∧
      Manifest.parse bytes 8 128 = .ok v ∧ v.generation = sampleManifest.1 ∧
      v.Lists sampleManifest.2 ∧
      ∃ ss, v.Lists ss ∧ Writer.Encodes (encodeManifest 8) (v.generation, ss) bytes := by
  obtain ⟨hdoc, -, hvalue, -, hmanifest, hparsed, hdocs, hvalues, -, -, hkinds⟩ :=
    envelopes_canonical
  refine ⟨?_, ?_, ?_⟩
  · obtain ⟨bytes, henc, hdec⟩ := hdoc ⟨291, by decide, by decide⟩ publishedDocument
      ⟨by decide, by decide, by decide, by decide, by decide⟩
    exact ⟨bytes, henc, hdec, fun layout bytes' h => hdocs _ layout bytes bytes' _ hdec h,
      fun maxBytes value h => (hkinds bytes _ maxBytes 8 128 _ value ⟨sampleManifest.1, [], 0⟩).1
        ⟨hdec, h⟩⟩
  · obtain ⟨bytes, henc, hdec⟩ := hvalue 64 (some [104, 105])
      ⟨by decide, by decide, by decide⟩
    exact ⟨bytes, henc, hdec, fun maxBytes bytes' h => hvalues 64 maxBytes bytes bytes' _ hdec h,
      fun maxSources maxBytes v h =>
        (hkinds bytes ⟨291, by decide, by decide⟩ 64 maxSources maxBytes publishedDocument _ v).2.2
          ⟨hdec, h⟩⟩
  · obtain ⟨bytes, v, henc, hdec, hgen, hlists⟩ := hmanifest 8 128 sampleManifest
      ⟨by decide, by decide, by decide⟩ (by decide)
    obtain ⟨ss, hss, -, hre⟩ := hparsed 8 128 bytes v hdec
    exact ⟨bytes, v, henc, hdec, hgen, hlists, ss, hss, hre⟩

end Records

end PinCore
