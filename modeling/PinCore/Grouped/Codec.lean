import PinCore.Grouped.Opened

/-!
# Writing group records

A record is written from a header, directory entries and packed payloads.  What is written is
read back: the header by `Header.read`, a bitmap by `Bitmap.openRecord` with the offsets of every
page.
-/

namespace PinCore

namespace Grouped

/-- The ranges of the identity of a group, as its constructors check them. -/
structure GroupKey.Valid (key : GroupKey) : Prop where
  relation : 0 < key.relation ∧ key.relation < 2 ^ 64
  segment : 0 < key.segment ∧ key.segment < 2 ^ 64
  base : key.base % 256 = 0
  block : key.base < 2 ^ 32
  maxOffset : 0 < key.maxOffset ∧ key.maxOffset ≤ 512

/-! ### Fields of a record -/

section

variable {bytes rest : List UInt8} {offset width v : ℕ}

/-- A field that stands at `offset` is read, and the rest of the record stands behind it. -/
theorem leAt_of_drop (h : bytes.drop offset = leBytes width v ++ rest) (hv : v < 256 ^ width) :
    leAt bytes offset width = v ∧ bytes.drop (offset + width) = rest := by
  have hlen : (leBytes width v).length = width := Reader.length_leBytes
  constructor
  · rw [leAt, h, List.take_left' hlen, Reader.leNat_leBytes hv]
  · rw [← List.drop_drop, h, List.drop_left' hlen]

theorem field_of_drop (h : bytes.drop offset = leBytes width v ++ rest) (hv : v < 256 ^ width)
    (hw : 0 < width) : field bytes offset width = .ok v ∧ bytes.drop (offset + width) = rest := by
  obtain ⟨hat, hrest⟩ := leAt_of_drop h hv
  have hlen := congrArg List.length h
  rw [List.length_drop, List.length_append, Reader.length_leBytes] at hlen
  rw [field, if_neg (by omega), hat]
  exact ⟨rfl, hrest⟩

/-- The leading and the remaining bytes of a number. -/
theorem leBytes_add (m n v : ℕ) : leBytes (m + n) v = leBytes m v ++ leBytes n (v / 256 ^ m) := by
  induction m generalizing v with
  | zero => rw [Nat.zero_add, Nat.pow_zero, Nat.div_one, leBytes, List.nil_append]
  | succ m ih =>
    rw [Nat.add_right_comm, leBytes, leBytes, ih, List.cons_append, Nat.div_div_eq_div_mul,
      Nat.pow_succ, Nat.mul_comm]

theorem require_of {c : Prop} [Decidable c] {e : Error} (h : c) : require c e = .ok () := if_pos h

end

/-! ### Headers -/

/-- The leading fields of a record of `length` bytes. -/
def Header.bytes (h : Header) (length : ℕ) : List UInt8 :=
  leBytes 4 magic ++ (leBytes 2 1 ++ (leBytes 1 h.kind ++ (leBytes 1 0 ++ (leBytes 4 length ++
    (leBytes 4 h.key.base ++ (leBytes 8 h.key.relation ++ (leBytes 8 h.key.segment ++
      (leBytes 2 h.key.maxOffset ++ (leBytes 2 (setBits h.mask 256).length ++
        (leBytes 4 h.count ++ leBytes 32 h.mask))))))))))

/-- `Header::write`. -/
def Header.write (h : Header) (length : ℕ) : Writer.Emit := do
  Writer.le 4 magic
  Writer.le 2 1
  Writer.le 1 h.kind
  Writer.le 1 0
  Read.ensure (length < u32Limit) (.limit "group bytes")
  Writer.le 4 length
  Writer.le 4 h.key.base
  Writer.le 8 h.key.relation
  Writer.le 8 h.key.segment
  Writer.le 2 h.key.maxOffset
  Writer.le 2 (setBits h.mask 256).length
  Writer.le 4 h.count
  Writer.le 32 h.mask

/-- What a header must satisfy to be read back. -/
structure Header.Writable (h : Header) : Prop where
  key : h.key.Valid
  kind : h.kind = 1 ∨ h.kind = 2 ∨ h.kind = 3
  count : h.count < 2 ^ 32
  mask : h.mask < 2 ^ 256
  last : ¬ (h.key.base = 4294967040 ∧ h.mask.testBit 255 = true)

section

variable {h : Header} {bytes rest : List UInt8} {length : ℕ}

theorem Header.length_bytes : (h.bytes length).length = 72 := by
  simp [Header.bytes, Reader.length_leBytes]

theorem Header.write_writes (hlimit : length < u32Limit) :
    Writer.Writes (h.write length) (h.bytes length) := by
  -- the length is checked once the first four fields are written
  refine Writer.Writes.le.bind (Writer.Writes.le.bind (Writer.Writes.le.bind
    (Writer.Writes.le.bind (Writer.Writes.ensure hlimit ?_))))
  refine Writer.Writes.le.bind (Writer.Writes.le.bind (Writer.Writes.le.bind
    (Writer.Writes.le.bind (Writer.Writes.le.bind (Writer.Writes.le.bind ?_)))))
  exact Writer.Writes.le.bind Writer.Writes.le

theorem setBits_length_le (mask bound : ℕ) : (setBits mask bound).length ≤ bound :=
  (List.length_filter_le _ _).trans (Nat.le_of_eq List.length_range)

/-- What is written is read back. -/
theorem Header.read_bytes (hw : h.Writable) (hlen : bytes.length = length)
    (hlimit : length < u32Limit) (hbytes : bytes = h.bytes length ++ rest) :
    Header.read bytes = .ok h := by
  have hcount : (setBits h.mask 256).length < 256 ^ 2 :=
    Nat.lt_of_le_of_lt (setBits_length_le h.mask 256) (by decide)
  have hkind : h.kind < 256 ^ 1 := by
    rcases hw.kind with hk | hk | hk <;> omega
  have hmask : h.mask < 256 ^ 32 := by
    rw [show (256 : ℕ) ^ 32 = 2 ^ 256 by decide]
    exact hw.mask
  have hmax := hw.key.maxOffset
  have hrel := hw.key.relation
  have hseg := hw.key.segment
  have hbase := hw.key.block
  have hcnt := hw.count
  have h0 : bytes.drop 0 = h.bytes length ++ rest := hbytes
  simp only [Header.bytes, List.append_assoc] at h0
  rw [u32Limit] at hlimit
  -- field by field, each leaving the rest of the record behind it
  obtain ⟨e₁, h₁⟩ := field_of_drop h0 (by decide) (by decide)
  obtain ⟨e₂, h₂⟩ := field_of_drop h₁ (by decide) (by decide)
  obtain ⟨e₃, h₃⟩ := field_of_drop h₂ hkind (by decide)
  obtain ⟨e₄, h₄⟩ := field_of_drop h₃ (by decide) (by decide)
  obtain ⟨e₅, h₅⟩ := field_of_drop h₄ (by omega) (by decide)
  obtain ⟨e₆, h₆⟩ := field_of_drop h₅ (by omega) (by decide)
  obtain ⟨e₇, h₇⟩ := field_of_drop h₆ (by omega) (by decide)
  obtain ⟨e₈, h₈⟩ := field_of_drop h₇ (by omega) (by decide)
  obtain ⟨e₉, h₉⟩ := field_of_drop h₈ (by omega) (by decide)
  obtain ⟨e₁₀, h₁₀⟩ := field_of_drop h₉ hcount (by decide)
  obtain ⟨e₁₁, h₁₁⟩ := field_of_drop h₁₀ (by omega) (by decide)
  obtain ⟨e₁₂, -⟩ := field_of_drop h₁₁ hmask (by decide)
  simp only [Nat.zero_add, Nat.reduceAdd] at e₁ e₂ e₃ e₄ e₅ e₆ e₇ e₈ e₉ e₁₀ e₁₁ e₁₂
  have hnonzero : h.key.maxOffset ≠ 0 ∧ h.key.maxOffset ≤ 512 := ⟨by omega, hmax.2⟩
  simp only [Header.read, e₁, e₂, e₃, e₄, e₅, e₆, e₇, e₈, e₉, e₁₀, e₁₁, e₁₂, ok_bind, hlen,
    require_of hw.kind, require_of (Nat.pos_iff_ne_zero.1 hrel.1),
    require_of (Nat.pos_iff_ne_zero.1 hseg.1), require_of hnonzero, require_of hw.key.base,
    require_of hw.last, require_of True.intro, true_and]

/-- An identity that was read is one the constructors accept. -/
theorem Header.read_valid (hr : Header.read bytes = .ok h) : h.key.Valid := by
  have hin := Header.read_inRange hr
  unfold Header.read at hr
  -- magic, version, kind, reserved byte, length and base
  iterate 11 obtain ⟨_, -, hr⟩ := ok_of_bind hr
  obtain ⟨relation, hrel, hr⟩ := ok_of_bind hr
  obtain ⟨_, hrel0, hr⟩ := ok_of_bind hr
  obtain ⟨segment, hseg, hr⟩ := ok_of_bind hr
  obtain ⟨_, hseg0, hr⟩ := ok_of_bind hr
  iterate 7 obtain ⟨_, -, hr⟩ := ok_of_bind hr
  obtain rfl := Except.ok.inj hr
  have hr64 : relation < 2 ^ 64 := by rw [field_ok hrel]; exact leAt_lt bytes 16 8
  have hs64 : segment < 2 ^ 64 := by rw [field_ok hseg]; exact leAt_lt bytes 24 8
  exact ⟨⟨Nat.pos_of_ne_zero (require_ok hrel0), hr64⟩,
    ⟨Nat.pos_of_ne_zero (require_ok hseg0), hs64⟩,
    hin.base, hin.block, hin.maxOffset⟩

end

/-! ### Writing bitmaps -/

/-- The kind byte of a header. -/
def BitmapKind.code : BitmapKind → ℕ
  | posting => 1
  | liveness => 2

/-- The length of a record whose pages have heap blocks and nonempty offsets of the layout. -/
def encodedLength (key : GroupKey) (offsets : ℕ → Except Error ℕ) : List ℕ → ℕ → Except Error ℕ
  | [], length => .ok length
  | page :: rest, length => do
    let _ ← key.block page
    let len ← bitmapLen key (← offsets page)
    encodedLength key offsets rest (length + len)

/-- The directory, with the starts of the payloads. -/
def writeEntries (key : GroupKey) (offsets : ℕ → Except Error ℕ) : ℕ → List ℕ → Writer.Emit
  | _, [] => pure ⟨⟩
  | start, page :: rest => do
    let words ← Read.ofExcept (offsets page)
    let len ← Read.ofExcept (bitmapLen key words)
    Writer.le 2 start
    Writer.le 1 len
    Writer.le 1 0
    writeEntries key offsets (start + len) rest

/-- The packed payloads. -/
def writeOffsets (key : GroupKey) (offsets : ℕ → Except Error ℕ) : List ℕ → Writer.Emit
  | [] => pure ⟨⟩
  | page :: rest => do
    let words ← Read.ofExcept (offsets page)
    let len ← Read.ofExcept (bitmapLen key words)
    Writer.le len words
    writeOffsets key offsets rest

/-- Encodes the pages of a mask into a buffer of the caller; returns the length of the record and
the buffer after the call. -/
def encodeWith (key : GroupKey) (kind : BitmapKind) (mask : ℕ) (offsets : ℕ → Except Error ℕ)
    (output : List UInt8) : Except Error ℕ × List UInt8 :=
  let pages := setBits mask 256
  match encodedLength key offsets pages (bitmapHeader + pages.length * 4) with
  | .error e => (.error e, output)
  | .ok length =>
    if output.length < length then (.error (.limit "bitmap group output"), output)
    else
      Writer.into output length do
        Header.write ⟨key, kind.code, 0, mask⟩ length
        writeEntries key offsets 0 pages
        writeOffsets key offsets pages

/-! ### The bytes of a bitmap -/

/-- Bytes of the payload of nonempty offsets. -/
def payloadLen (offsets : ℕ) : ℕ := (offsets.log2 + 1 + 7) / 8

/-- The directory of pages whose payloads have the widths `w`. -/
def entryBytes (w : ℕ → ℕ) : ℕ → List ℕ → List UInt8
  | _, [] => []
  | start, page :: rest =>
    leBytes 2 start ++ (leBytes 1 (w page) ++ (leBytes 1 0 ++ entryBytes w (start + w page) rest))

/-- The payloads of pages with the offsets `f`. -/
def offsetBytes (w f : ℕ → ℕ) (pages : List ℕ) : List UInt8 :=
  pages.flatMap fun page => leBytes (w page) (f page)

/-- Bytes of the payloads. -/
def bodyLen (w : ℕ → ℕ) (pages : List ℕ) : ℕ := (pages.map w).sum

/-- Bytes of a bitmap record. -/
def imageLen (mask : ℕ) (w : ℕ → ℕ) : ℕ :=
  bitmapHeader + (setBits mask 256).length * 4 + bodyLen w (setBits mask 256)

/-- The bitmap record of the pages of a mask, with the widths `w` and the offsets `f`. -/
def bitmapImage (key : GroupKey) (kind : BitmapKind) (mask : ℕ) (w f : ℕ → ℕ) : List UInt8 :=
  (Header.mk key kind.code 0 mask).bytes (imageLen mask w) ++
    (entryBytes w 0 (setBits mask 256) ++ offsetBytes w f (setBits mask 256))

/-- The opened bitmap record. -/
def imageBitmap (key : GroupKey) (kind : BitmapKind) (mask : ℕ) (w f : ℕ → ℕ) : Bitmap :=
  ⟨bitmapImage key kind mask w f, key, kind, mask⟩

/-- The page has a heap block and its nonempty offsets fit the layout. -/
structure Encodable (key : GroupKey) (f : ℕ → ℕ) (page : ℕ) : Prop where
  block : key.base + page ≠ noBlock
  pos : f page ≠ 0
  lt : f page < 2 ^ key.maxOffset

/-- The page has a heap block and a payload of an admissible width. -/
structure Packed (key : GroupKey) (w f : ℕ → ℕ) (page : ℕ) : Prop where
  block : key.base + page ≠ noBlock
  pos : 0 < w page
  le : w page ≤ (key.maxOffset + 7) / 8
  lt : f page < 256 ^ w page

/-- The payload decodes to the offsets.  The width of a posting is that of its offsets; a liveness
page may keep a larger one and may be empty. -/
structure Laid (key : GroupKey) (kind : BitmapKind) (w f : ℕ → ℕ) (page : ℕ) : Prop extends
    Packed key w f page where
  domain : f page < 2 ^ key.maxOffset
  minimal : kind = .posting → f page / 256 ^ (w page - 1) ≠ 0

/-- The widths that the encoder chooses. -/
def widths (f : ℕ → ℕ) (page : ℕ) : ℕ := payloadLen (f page)

section

variable {key : GroupKey} {kind : BitmapKind} {w f : ℕ → ℕ} {offsets : ℕ → Except Error ℕ}
  {pages ps qs : List ℕ} {v start total at' width length mask page : ℕ}
  {bytes rest output : List UInt8}

/-! ### Widths -/

theorem bitmapLen_ok (h0 : v ≠ 0) (hv : v < 2 ^ key.maxOffset) :
    bitmapLen key v = .ok (payloadLen v) := by
  have hlog := (Nat.log2_lt h0).2 hv
  rw [bitmapLen, if_neg (by omega), payloadLen]

theorem of_bitmapLen {n : ℕ} (h : bitmapLen key v = .ok n) :
    v ≠ 0 ∧ v < 2 ^ key.maxOffset ∧ n = payloadLen v := by
  unfold bitmapLen at h
  split_ifs at h with hbad
  rw [not_or] at hbad
  exact ⟨hbad.1, (Nat.log2_lt hbad.1).1 (by omega), (Except.ok.inj h).symm⟩

theorem payloadLen_pos : 0 < payloadLen v := by
  rw [payloadLen]
  omega

theorem lt_payloadLen : v < 256 ^ payloadLen v := by
  have hlog : v < 2 ^ (v.log2 + 1) := Nat.lt_log2_self
  refine Nat.lt_of_lt_of_le hlog ?_
  rw [show (256 : ℕ) = 2 ^ 8 from rfl, ← Nat.pow_mul, payloadLen]
  exact Nat.pow_le_pow_right (by decide) (by omega)

theorem payloadLen_le (h0 : v ≠ 0) (hv : v < 2 ^ width) : payloadLen v ≤ (width + 7) / 8 := by
  have hlog := (Nat.log2_lt h0).2 hv
  rw [payloadLen]
  omega

/-- The last byte of a payload of the chosen width is not zero. -/
theorem last_ne_zero (h0 : v ≠ 0) : v / 256 ^ (payloadLen v - 1) ≠ 0 := by
  have hlog : 2 ^ v.log2 ≤ v := Nat.log2_self_le h0
  have hle : 256 ^ (payloadLen v - 1) ≤ v := by
    refine le_trans ?_ hlog
    rw [show (256 : ℕ) = 2 ^ 8 from rfl, ← Nat.pow_mul, payloadLen]
    exact Nat.pow_le_pow_right (by decide) (by omega)
  exact Nat.pos_iff_ne_zero.1 (Nat.div_pos hle (Nat.pow_pos (by decide)))

/-- A payload whose last byte is not zero has the chosen width. -/
theorem eq_payloadLen (hpos : 0 < width) (hv : v < 256 ^ width)
    (hlast : v / 256 ^ (width - 1) ≠ 0) :
    v ≠ 0 ∧ payloadLen v = width := by
  have h0 : v ≠ 0 := by
    rintro rfl
    exact hlast (Nat.zero_div _)
  have hle : 256 ^ (width - 1) ≤ v :=
    Nat.le_of_not_lt fun hlt => hlast (Nat.div_eq_of_lt hlt)
  rw [show (256 : ℕ) = 2 ^ 8 from rfl, ← Nat.pow_mul] at hle hv
  have h₁ := (Nat.le_log2 h0).2 hle
  have h₂ := (Nat.log2_lt h0).2 hv
  refine ⟨h0, ?_⟩
  rw [payloadLen]
  omega

theorem last_lt (hpos : 0 < width) (hv : v < 256 ^ width) : v / 256 ^ (width - 1) < 256 ^ 1 := by
  rw [show width = width - 1 + 1 by omega, Nat.pow_succ] at hv
  rw [Nat.pow_one]
  exact Nat.div_lt_of_lt_mul hv

/-- A last byte that goes past the layout has no bits there. -/
theorem last_tail {domain : ℕ} (hv : v < 2 ^ domain) (hle : width ≤ (domain + 7) / 8)
    (hlt : domain < width * 8) : v / 256 ^ (width - 1) / 2 ^ (domain % 8) = 0 := by
  have hmod : 8 * (width - 1) + domain % 8 = domain := by omega
  rw [Nat.div_div_eq_div_mul, show (256 : ℕ) = 2 ^ 8 from rfl, ← Nat.pow_mul, ← Nat.pow_add, hmod]
  exact Nat.div_eq_of_lt hv

/-- A payload without bits past the layout is a number of the layout. -/
theorem lt_of_last_tail {domain : ℕ} (hpos : 0 < width) (hv : v < 256 ^ width)
    (hle : width ≤ (domain + 7) / 8)
    (htail : domain < width * 8 → v / 256 ^ (width - 1) / 2 ^ (domain % 8) = 0) :
    v < 2 ^ domain := by
  by_cases hlt : domain < width * 8
  · have hmod : 8 * (width - 1) + domain % 8 = domain := by omega
    have := htail hlt
    rw [Nat.div_div_eq_div_mul, show (256 : ℕ) = 2 ^ 8 from rfl, ← Nat.pow_mul, ← Nat.pow_add,
      hmod] at this
    exact Nat.lt_of_div_eq_zero (Nat.two_pow_pos domain) this
  · rw [show (256 : ℕ) = 2 ^ 8 from rfl, ← Nat.pow_mul] at hv
    exact Nat.lt_of_lt_of_le hv (Nat.pow_le_pow_right (by decide) (by omega))

theorem Encodable.laid (h : Encodable key f page) : Laid key kind (widths f) f page where
  block := h.block
  pos := payloadLen_pos
  le := payloadLen_le h.pos h.lt
  lt := lt_payloadLen
  domain := h.lt
  minimal _ := last_ne_zero h.pos

/-! ### Lengths -/

theorem length_entryBytes : (entryBytes w start ps).length = ps.length * 4 := by
  induction ps generalizing start with
  | nil => rfl
  | cons page ps ih =>
    simp only [entryBytes, List.length_append, Reader.length_leBytes, ih, List.length_cons]
    omega

theorem length_offsetBytes : (offsetBytes w f ps).length = bodyLen w ps := by
  simp only [offsetBytes, bodyLen, List.length_flatMap, Reader.length_leBytes]

theorem bodyLen_append : bodyLen w (ps ++ qs) = bodyLen w ps + bodyLen w qs := by
  simp only [bodyLen, List.map_append, List.sum_append]

theorem entryBytes_append : entryBytes w start (ps ++ qs) =
    entryBytes w start ps ++ entryBytes w (start + bodyLen w ps) qs := by
  induction ps generalizing start with
  | nil => rfl
  | cons page ps ih =>
    simp only [List.cons_append, entryBytes, ih, bodyLen, List.map_cons, List.sum_cons,
      List.append_assoc, Nat.add_assoc]

/-- Payloads of a layout of at most 512 offsets take at most 64 bytes each. -/
theorem bodyLen_le (hw : ∀ page ∈ ps, w page ≤ 64) : bodyLen w ps ≤ ps.length * 64 := by
  induction ps with
  | nil => exact Nat.le_refl 0
  | cons page ps ih =>
    have hle := hw page List.mem_cons_self
    have hrest := ih fun p hp => hw p (List.mem_cons_of_mem _ hp)
    simp only [bodyLen, List.map_cons, List.sum_cons, List.length_cons] at hrest ⊢
    omega

theorem Packed.le_64 (hmax : key.maxOffset ≤ 512) (h : Packed key w f page) : w page ≤ 64 := by
  have := h.le
  omega

theorem length_bitmapImage : (bitmapImage key kind mask w f).length = imageLen mask w := by
  simp only [bitmapImage, imageLen, List.length_append, Header.length_bytes, length_entryBytes,
    length_offsetBytes, bitmapHeader]
  omega

theorem imageLen_le (hw : ∀ page ∈ setBits mask 256, w page ≤ 64) :
    imageLen mask w ≤ maxBitmapBytes := by
  have hpages := setBits_length_le mask 256
  have hbody := bodyLen_le hw
  rw [imageLen, bitmapHeader, maxBitmapBytes]
  omega

/-! ### Encoding writes these bytes -/

theorem encodedLength_eq (hf : ∀ page ∈ pages, offsets page = .ok (f page) ∧ Encodable key f page) :
    encodedLength key offsets pages length = .ok (length + bodyLen (widths f) pages) := by
  induction pages generalizing length with
  | nil => rfl
  | cons page pages ih =>
    obtain ⟨hoff, he⟩ := hf page List.mem_cons_self
    have hlen := bitmapLen_ok he.pos he.lt
    rw [encodedLength, GroupKey.block, if_neg he.block]
    simp only [hoff, hlen, ok_bind]
    rw [ih fun p hp => hf p (List.mem_cons_of_mem _ hp)]
    simp only [bodyLen, List.map_cons, List.sum_cons, Nat.add_assoc, widths]

/-- What a length that was found says about the pages. -/
theorem encodedLength_ok {n : ℕ} (h : encodedLength key offsets pages length = .ok n) :
    ∀ page ∈ pages, ∃ v, offsets page = .ok v ∧ key.base + page ≠ noBlock ∧ v ≠ 0 ∧
      v < 2 ^ key.maxOffset := by
  induction pages generalizing length with
  | nil => exact fun page hp => absurd hp List.not_mem_nil
  | cons first pages ih =>
    obtain ⟨_, hblock, h⟩ := ok_of_bind h
    obtain ⟨v, hv, h⟩ := ok_of_bind h
    obtain ⟨len, hlen, h⟩ := ok_of_bind h
    intro page hp
    rcases List.mem_cons.1 hp with rfl | hp
    · unfold GroupKey.block at hblock
      split_ifs at hblock with hno
      obtain ⟨h0, hlt, -⟩ := of_bitmapLen hlen
      exact ⟨v, hv, hno, h0, hlt⟩
    · exact ih h page hp

theorem writeEntries_writes
    (hf : ∀ page ∈ pages, offsets page = .ok (f page) ∧ Encodable key f page) :
    Writer.Writes (writeEntries key offsets start pages) (entryBytes (widths f) start pages) := by
  induction pages generalizing start with
  | nil => exact Writer.Writes.nil
  | cons page pages ih =>
    obtain ⟨hoff, he⟩ := hf page List.mem_cons_self
    refine Writer.Writes.ofExcept hoff (Writer.Writes.ofExcept (bitmapLen_ok he.pos he.lt) ?_)
    refine Writer.Writes.le.bind (Writer.Writes.le.bind (Writer.Writes.le.bind ?_))
    exact ih fun p hp => hf p (List.mem_cons_of_mem _ hp)

theorem writeOffsets_writes
    (hf : ∀ page ∈ pages, offsets page = .ok (f page) ∧ Encodable key f page) :
    Writer.Writes (writeOffsets key offsets pages) (offsetBytes (widths f) f pages) := by
  induction pages with
  | nil => exact Writer.Writes.nil
  | cons page pages ih =>
    obtain ⟨hoff, he⟩ := hf page List.mem_cons_self
    refine Writer.Writes.ofExcept hoff (Writer.Writes.ofExcept (bitmapLen_ok he.pos he.lt) ?_)
    exact Writer.Writes.le.bind (ih fun p hp => hf p (List.mem_cons_of_mem _ hp))

theorem Encodable.width_le (hmax : key.maxOffset ≤ 512) (h : Encodable key f page) :
    widths f page ≤ 64 := (@Encodable.laid key .liveness f page h).le_64 hmax

/-- Encoding writes the record, or finds the buffer too small for it. -/
theorem encodeWith_eq (hmax : key.maxOffset ≤ 512) (hf : ∀ page ∈ setBits mask 256,
    offsets page = .ok (f page) ∧ Encodable key f page) :
    encodeWith key kind mask offsets output =
      if output.length < imageLen mask (widths f) then
        (.error (.limit "bitmap group output"), output)
      else (.ok (imageLen mask (widths f)),
        bitmapImage key kind mask (widths f) f ++ output.drop (imageLen mask (widths f))) := by
  have hlen := imageLen_le fun page hp => (hf page hp).2.width_le hmax
  have hlimit : imageLen mask (widths f) < u32Limit := Nat.lt_of_le_of_lt hlen (by decide)
  have hsize : (bitmapImage key kind mask (widths f) f).length = imageLen mask (widths f) :=
    length_bitmapImage
  have hwrites : Writer.Writes (do
      Header.write ⟨key, kind.code, 0, mask⟩ (imageLen mask (widths f))
      writeEntries key offsets 0 (setBits mask 256)
      writeOffsets key offsets (setBits mask 256)) (bitmapImage key kind mask (widths f) f) :=
    (Header.write_writes hlimit).bind ((writeEntries_writes hf).bind (writeOffsets_writes hf))
  have hinto := hwrites.into (by rw [hsize]; exact Nat.lt_of_lt_of_le hlimit (by decide)) output
  rw [hsize] at hinto
  have hsum : encodedLength key offsets (setBits mask 256)
      (bitmapHeader + (setBits mask 256).length * 4) = .ok (imageLen mask (widths f)) :=
    encodedLength_eq hf
  simp only [encodeWith, hsum, hinto]

/-- A call either fails on a page before it writes, or encodes the offsets of all pages. -/
theorem encodeWith_cases : (∃ e, encodeWith key kind mask offsets output = (.error e, output)) ∨
    ∃ f, ∀ page ∈ setBits mask 256, offsets page = .ok (f page) ∧ Encodable key f page := by
  cases hn : encodedLength key offsets (setBits mask 256)
      (bitmapHeader + (setBits mask 256).length * 4) with
  | error e => exact .inl ⟨e, by simp only [encodeWith, hn]⟩
  | ok n =>
    refine .inr ⟨fun page => (offsets page).toOption.getD 0, fun page hp => ?_⟩
    obtain ⟨v, hv, hblock, h0, hlt⟩ := encodedLength_ok hn page hp
    have hval : (offsets page).toOption.getD 0 = v := by rw [hv]; rfl
    simp only [hval]
    exact ⟨hv, hblock, by rwa [hval], by rwa [hval]⟩

/-- A call that fails leaves the buffer alone. -/
theorem encodeWith_error {e : Error} (hmax : key.maxOffset ≤ 512)
    (h : (encodeWith key kind mask offsets output).1 = .error e) :
    (encodeWith key kind mask offsets output).2 = output := by
  rcases @encodeWith_cases key kind offsets mask output with ⟨e', he⟩ | ⟨f, hf⟩
  · rw [he]
  · rw [encodeWith_eq hmax hf] at h ⊢
    split_ifs at h ⊢
    rfl

/-! ### Reading them back -/

/-- The directory that is written passes the check of an opened record. -/
theorem directoryEnd_entries (h : bytes.drop at' = entryBytes w total ps ++ rest)
    (hw : ∀ page ∈ ps, 0 < w page ∧ w page ≤ width) (hwidth : width ≤ 64)
    (hsum : total + bodyLen w ps < 65536) :
    Bitmap.directoryEnd bytes width ps.length at' total = .ok (total + bodyLen w ps) := by
  induction ps generalizing at' total with
  | nil => rfl
  | cons page ps ih =>
    obtain ⟨hpos, hle⟩ := hw page List.mem_cons_self
    simp only [bodyLen, List.map_cons, List.sum_cons] at hsum
    simp only [entryBytes, List.append_assoc] at h
    obtain ⟨e₁, h₁⟩ := leAt_of_drop h (by omega)
    obtain ⟨e₂, h₂⟩ := leAt_of_drop h₁ (by omega)
    obtain ⟨e₃, h₃⟩ := leAt_of_drop h₂ (by decide)
    have hgood : ¬ (leAt bytes at' 2 ≠ total ∨ leAt bytes (at' + 2) 1 = 0 ∨
        width < leAt bytes (at' + 2) 1 ∨ leAt bytes (at' + 3) 1 ≠ 0) := by
      rw [e₁, e₂, show at' + 3 = at' + 2 + 1 from rfl, e₃]
      omega
    have hrest := ih h₃ (fun p hp => hw p (List.mem_cons_of_mem _ hp))
      (by rw [bodyLen]; omega)
    rw [List.length_cons, Bitmap.directoryEnd, if_neg hgood, e₂]
    rw [show at' + 4 = at' + 2 + 1 + 1 from rfl, hrest]
    simp only [bodyLen, List.map_cons, List.sum_cons, Nat.add_assoc]

theorem Packed.writable (hkey : key.Valid) (hmask : mask < 2 ^ 256)
    (hf : ∀ page ∈ setBits mask 256, Packed key w f page) :
    (Header.mk key kind.code 0 mask).Writable where
  key := hkey
  kind := by cases kind <;> simp [BitmapKind.code]
  count := by simp
  mask := hmask
  last := by
    rintro ⟨hbase, hbit⟩
    have he := hf 255 (mem_setBits.2 ⟨by decide, hbit⟩)
    exact he.block (by simp only at hbase; rw [hbase, noBlock])

/-- What is encoded opens as a bitmap of the same identity, kind and pages. -/
theorem openRecord_image (hkey : key.Valid) (hmask : mask < 2 ^ 256)
    (hf : ∀ page ∈ setBits mask 256, Packed key w f page) :
    Bitmap.openRecord (bitmapImage key kind mask w f) = .ok (imageBitmap key kind mask w f) := by
  have hmax := hkey.maxOffset.2
  have hw : ∀ page ∈ setBits mask 256, w page ≤ 64 := fun page hp => (hf page hp).le_64 hmax
  have hlen := imageLen_le hw
  have hbody := bodyLen_le hw
  have hpages := setBits_length_le mask 256
  have hlimit : imageLen mask w < u32Limit := Nat.lt_of_le_of_lt hlen (by decide)
  have hsize : (bitmapImage key kind mask w f).length = imageLen mask w := length_bitmapImage
  have hread := Header.read_bytes (Packed.writable hkey hmask hf) hsize hlimit rfl
  have hbits : bitmapHeader + (setBits mask 256).length * 4 ≤ imageLen mask w := by
    rw [imageLen]
    omega
  have hfront : (bitmapImage key kind mask w f).drop bitmapHeader =
      entryBytes w 0 (setBits mask 256) ++ offsetBytes w f (setBits mask 256) := by
    rw [bitmapImage, bitmapHeader, List.drop_left' Header.length_bytes]
  have hwidth : ∀ page ∈ setBits mask 256, 0 < w page ∧ w page ≤ (key.maxOffset + 7) / 8 :=
    fun page hp => ⟨(hf page hp).pos, (hf page hp).le⟩
  have hdir := directoryEnd_entries hfront hwidth (by omega) (by omega)
  have hkind : kind.code = 1 ∨ kind.code = 2 := by cases kind <;> simp [BitmapKind.code]
  have hback : (if kind.code = 1 then BitmapKind.posting else .liveness) = kind := by
    cases kind <;> rfl
  rw [Bitmap.openRecord, if_neg (by rw [length_bitmapImage]; omega), hread, ok_bind,
    require_of ⟨hkind, rfl⟩, ok_bind]
  simp only [Bitmap.bodyStart, hback, length_bitmapImage, require_of hbits, ok_bind, hdir]
  rw [require_of (by rw [imageLen]; omega)]
  rfl

/-- The set bits in front of a set bit, the bit itself and the rest. -/
theorem setBits_split {bound : ℕ} (hp : mask.testBit page = true) (hlt : page < bound) :
    ∃ more, setBits mask bound = setBits mask page ++ page :: more := by
  obtain ⟨k, rfl⟩ := Nat.exists_eq_add_of_lt hlt
  refine ⟨((List.range k).map fun i => page + 1 + i).filter fun i => mask.testBit i, ?_⟩
  have hrange : List.range (page + k + 1) =
      List.range page ++ page :: (List.range k).map fun i => page + 1 + i := by
    rw [Nat.add_assoc, List.range_add, List.range_succ_eq_map, List.map_cons, List.map_map,
      Nat.add_zero]
    congr 2
    refine List.map_congr_left fun i _ => ?_
    simp only [Function.comp]
    omega
  rw [setBits, hrange, List.filter_append, List.filter_cons_of_pos hp]
  rfl

/-- Where the payload of a page starts. -/
def payloadStart (mask : ℕ) (w : ℕ → ℕ) (page : ℕ) : ℕ :=
  bitmapHeader + (setBits mask 256).length * 4 + bodyLen w (setBits mask page)

/-- The record around the payload of a page. -/
theorem bitmapImage_split (hp : mask.testBit page = true) (hlt : page < 256) :
    ∃ front more, bitmapImage key kind mask w f =
        front ++ (leBytes (w page) (f page) ++ offsetBytes w f more) ∧
      front.length = payloadStart mask w page ∧
      setBits mask 256 = setBits mask page ++ page :: more ∧
      front = (Header.mk key kind.code 0 mask).bytes (imageLen mask w) ++
        entryBytes w 0 (setBits mask 256) ++ offsetBytes w f (setBits mask page) := by
  obtain ⟨more, hsplit⟩ := setBits_split hp hlt
  refine ⟨_, more, ?_, ?_, hsplit, rfl⟩
  · have hbytes : offsetBytes w f (setBits mask 256) = offsetBytes w f (setBits mask page) ++
        (leBytes (w page) (f page) ++ offsetBytes w f more) := by
      rw [hsplit, offsetBytes, List.flatMap_append, List.flatMap_cons]
      rfl
    rw [bitmapImage, hbytes]
    simp only [List.append_assoc]
  · simp only [List.length_append, Header.length_bytes, length_entryBytes, length_offsetBytes,
      payloadStart, bitmapHeader]

/-- The directory entry of a page points at its payload. -/
theorem span_image (hkey : key.Valid) (hf : ∀ page ∈ setBits mask 256, Packed key w f page)
    (hp : mask.testBit page = true) (hlt : page < 256) :
    (imageBitmap key kind mask w f).span page = some (payloadStart mask w page, w page) := by
  obtain ⟨more, hsplit⟩ := setBits_split hp hlt
  have hmax := hkey.maxOffset.2
  have hw : ∀ page ∈ setBits mask 256, w page ≤ 64 := fun page hp => (hf page hp).le_64 hmax
  have hbody := bodyLen_le hw
  have hpages := setBits_length_le mask 256
  have hlen := hw page (mem_setBits.2 ⟨hlt, hp⟩)
  have hbefore : bodyLen w (setBits mask page) ≤ bodyLen w (setBits mask 256) := by
    rw [hsplit, bodyLen_append]
    omega
  -- the record up to the entry
  have hentry : (bitmapImage key kind mask w f).drop
      (bitmapHeader + (setBits mask page).length * 4) =
      leBytes 2 (0 + bodyLen w (setBits mask page)) ++ (leBytes 1 (w page) ++
        (leBytes 1 0 ++ (entryBytes w (0 + bodyLen w (setBits mask page) + w page) more ++
          offsetBytes w f (setBits mask 256)))) := by
    rw [bitmapImage, ← List.drop_drop, bitmapHeader, List.drop_left' Header.length_bytes, hsplit,
      entryBytes_append, List.append_assoc, List.drop_left' length_entryBytes, entryBytes]
    simp only [List.append_assoc]
  obtain ⟨e₁, h₁⟩ := leAt_of_drop hentry (by omega)
  obtain ⟨e₂, -⟩ := leAt_of_drop h₁ (by omega)
  rw [Nat.zero_add] at e₁
  simp only [Bitmap.span, imageBitmap, hp, if_true, Bitmap.bodyStart, e₁, e₂, payloadStart]

/-- A payload whose last byte a reader must refuse. -/
def refused (key : GroupKey) (kind : BitmapKind) (w f : ℕ → ℕ) (page : ℕ) : Prop :=
  (kind = .posting ∧ f page / 256 ^ (w page - 1) = 0) ∨
    (key.maxOffset < w page * 8 ∧ f page / 256 ^ (w page - 1) / 2 ^ (key.maxOffset % 8) ≠ 0)

instance : Decidable (refused key kind w f page) := inferInstanceAs (Decidable (_ ∨ _))

/-- The payload of a page is read back, unless its last byte is refused. -/
theorem offsets_packed (hkey : key.Valid) (hf : ∀ page ∈ setBits mask 256, Packed key w f page)
    (hp : mask.testBit page = true) (hlt : page < 256) :
    (imageBitmap key kind mask w f).offsets page =
      if refused key kind w f page then .error .invalidState else .ok (f page) := by
  have hl := hf page (mem_setBits.2 ⟨hlt, hp⟩)
  have hspan : (imageBitmap key kind mask w f).span page =
      some (payloadStart mask w page, w page) :=
    span_image hkey hf hp hlt
  obtain ⟨front, more, himage, hfront, -, -⟩ :=
    @bitmapImage_split key kind w f mask page hp hlt
  have hdrop : (bitmapImage key kind mask w f).drop (payloadStart mask w page) =
      leBytes (w page) (f page) ++ offsetBytes w f more := by
    rw [himage, List.drop_left' hfront]
  obtain ⟨hall, -⟩ := leAt_of_drop hdrop hl.lt
  -- the last byte of the payload
  have hparts : leBytes (w page) (f page) =
      leBytes (w page - 1) (f page) ++ leBytes 1 (f page / 256 ^ (w page - 1)) := by
    rw [← leBytes_add, Nat.sub_add_cancel hl.pos]
  rw [hparts, List.append_assoc] at hdrop
  have hlast := congrArg (List.drop (w page - 1)) hdrop
  rw [List.drop_drop, List.drop_left' Reader.length_leBytes] at hlast
  obtain ⟨hbyte, -⟩ := leAt_of_drop hlast (last_lt hl.pos hl.lt)
  rw [← Nat.add_sub_assoc hl.pos] at hbyte
  rw [Bitmap.offsets, hspan]
  simp only [imageBitmap, hbyte, hall]
  rfl

/-- The offsets of a page are read back. -/
theorem offsets_image (hkey : key.Valid) (hmask : mask < 2 ^ 256)
    (hf : ∀ page ∈ setBits mask 256, Laid key kind w f page) :
    (imageBitmap key kind mask w f).offsets page =
      .ok (if mask.testBit page = true then f page else 0) := by
  cases hp : mask.testBit page with
  | false => exact Bitmap.offsets_absent hp
  | true =>
    have hlt := testBit_lt hmask hp
    have hl := hf page (mem_setBits.2 ⟨hlt, hp⟩)
    have hgood : ¬ refused key kind w f page := by
      rintro (⟨hk, h0⟩ | ⟨hwide, htail⟩)
      · exact hl.minimal hk h0
      · exact htail (last_tail hl.domain hl.le hwide)
    rw [offsets_packed hkey (fun p hp => (hf p hp).toPacked) hp hlt, if_neg hgood, if_pos rfl]

/-- A payload that was decoded is laid out as its page asks. -/
theorem laid_of_offsets {v : ℕ} (hkey : key.Valid)
    (hf : ∀ page ∈ setBits mask 256, Packed key w f page) (hp : mask.testBit page = true)
    (hlt : page < 256) (h : (imageBitmap key kind mask w f).offsets page = .ok v) :
    v = f page ∧ Laid key kind w f page := by
  have hl := hf page (mem_setBits.2 ⟨hlt, hp⟩)
  rw [offsets_packed hkey hf hp hlt] at h
  split_ifs at h with hgood
  obtain rfl := Except.ok.inj h
  rw [refused, not_or, not_and, not_and, not_not] at hgood
  exact ⟨rfl, hl, lt_of_last_tail hl.pos hl.lt hl.le hgood.2, hgood.1⟩

theorem payloadBytes_image (hkey : key.Valid)
    (hf : ∀ page ∈ setBits mask 256, Packed key w f page) (hp : mask.testBit page = true)
    (hlt : page < 256) : (imageBitmap key kind mask w f).payloadBytes page = w page := by
  rw [Bitmap.payloadBytes, span_image hkey hf hp hlt]
  rfl

end

end Grouped

end PinCore
