import PinCore.Codec.Format
import PinCore.Grouped.Codec
import PinCore.Lib.Splice

/-!
# Page images

A private page image as the code holds it: a buffer of `capacity` bytes, of which the first `len`
are in use.  Fields are read from the bytes in use and written to the buffer.  An edit is a program
on the image; it leaves the image that it reached, also when it fails.
-/

namespace PinCore

open Grouped

/-- A page image.  (`Page` in the source; here that name is the image with its records decoded.) -/
structure Image where
  block : ℕ
  kind : PageKind
  len : ℕ
  initializes : Bool
  bytes : List UInt8
  size : bytes.length = capacity
  fits : len ≤ capacity

namespace Image

/-- A program that edits an image. -/
abbrev Edit := Read Image Error

/-- The bytes in use. -/
def used (p : Image) : List UInt8 := p.bytes.take p.len

/-- A little-endian field of the bytes in use. -/
def get (p : Image) (offset width : ℕ) : Except Error ℕ := field p.used offset width

/-- The field of two bytes at an offset. -/
def u16 (p : Image) (offset : ℕ) : Except Error ℕ := p.get offset 2

/-- The field of four bytes at an offset. -/
def u32 (p : Image) (offset : ℕ) : Except Error ℕ := p.get offset 4

/-- The field of eight bytes at an offset. -/
def u64 (p : Image) (offset : ℕ) : Except Error ℕ := p.get offset 8

/-- The image with `bs` over the bytes from `offset` on. -/
def overwrite (p : Image) (offset : ℕ) (bs : List UInt8) (h : offset + bs.length ≤ capacity) :
    Image :=
  { p with
    bytes := splice p.bytes offset bs
    size := (length_splice (by rw [p.size]; exact h)).trans p.size }

/-- What a check of the image says. -/
def check {α : Type} (f : Image → Except Error α) : Edit α := fun p => (f p, p)

/-- Puts bytes over those from `offset` on; outside the buffer there are none. -/
def put (offset : ℕ) (bs : List UInt8) : Edit PUnit := fun p =>
  if h : offset + bs.length ≤ capacity then (.ok ⟨⟩, p.overwrite offset bs h)
  else (.error .codec, p)

/-- Writes a field of two bytes. -/
def putU16 (offset value : ℕ) : Edit PUnit := put offset (leBytes 2 value)

/-- Writes a field of four bytes. -/
def putU32 (offset value : ℕ) : Edit PUnit := put offset (leBytes 4 value)

/-- Copies a part of the buffer; the parts may overlap. -/
def copyWithin (start stop dest : ℕ) : Edit PUnit := fun p =>
  put dest ((p.bytes.take stop).drop start) p

/-- Sets the number of bytes in use. -/
def setLen (len : ℕ) : Edit PUnit := fun p =>
  if h : len ≤ capacity then (.ok ⟨⟩, { p with len, fits := h }) else (.error .codec, p)

/-- `require`: the image is of a kind. -/
def require (p : Image) (kind : PageKind) : Except Error Unit :=
  Grouped.require (p.kind = kind) .codec

/-- The next page of the chain. -/
def next (p : Image) : Except Error ℕ := p.u32 12

/-- Checks the next page of the chain: owner and dictionary pages are linked in ascending order, and
the metapage is not linked. -/
def checkNext (p : Image) : Except Error Unit := do
  let next ← p.next
  if next = noBlock then .ok ⟨⟩
  else if ¬ blockValid next ∨ next = p.block ∨ p.kind = .info then .error .codec
  else if (p.kind = .owners ∨ p.kind = .dictionary) ∧ next ≤ p.block then .error .codec
  else .ok ⟨⟩

/-- Only block 0 is the metapage. -/
def checkBlock (p : Image) : Except Error Unit :=
  Grouped.require (p.block = 0 ↔ p.kind = .info) .codec

/-- What the leading bytes say is the same in both images. -/
structure SameFront (n : ℕ) (p q : Image) : Prop where
  block : q.block = p.block
  kind : q.kind = p.kind
  bytes : q.bytes.take n = p.bytes.take n
  left : n ≤ p.len
  right : n ≤ q.len

/-- The second image is the first with other bytes, of which `len` are in use. -/
structure Becomes (p q : Image) (len : ℕ) (bytes : List UInt8) : Prop where
  block : q.block = p.block
  kind : q.kind = p.kind
  initializes : q.initializes = p.initializes
  len : q.len = len
  bytes : q.bytes = bytes

section

variable {p q r : Image} {n len offset width : ℕ} {bs bytes bytes' front ys rest : List UInt8}

theorem Becomes.trans (h : Becomes p q n bytes) (h' : Becomes q r len bytes') :
    Becomes p r len bytes' where
  block := h'.block.trans h.block
  kind := h'.kind.trans h.kind
  initializes := h'.initializes.trans h.initializes
  len := h'.len
  bytes := h'.bytes

/-- Bytes in the middle of the buffer are put. -/
theorem put_at (offset : ℕ) (bs : List UInt8) (hb : p.bytes = front ++ (ys ++ rest))
    (hf : front.length = offset) (hl : ys.length = bs.length) :
    ∃ q, put offset bs p = (.ok ⟨⟩, q) ∧ Becomes p q p.len (front ++ (bs ++ rest)) := by
  have hfit : offset + bs.length ≤ capacity := by
    have hsize := p.size
    rw [hb, List.length_append, List.length_append] at hsize
    omega
  subst hf
  refine ⟨p.overwrite front.length bs hfit, dif_pos hfit, rfl, rfl, rfl, rfl, ?_⟩
  change splice p.bytes front.length bs = _
  rw [hb, splice_append hl]

/-- A part of the buffer is moved up by `n` bytes and leaves a gap. -/
theorem copyWithin_at {payload : List UInt8} (hb : p.bytes = front ++ (payload ++ rest))
    (hf : front.length = offset) (hroom : n ≤ rest.length) :
    ∃ q gap rest', copyWithin offset (offset + payload.length) (offset + n) p = (.ok ⟨⟩, q) ∧
      gap.length = n ∧ rest'.length + n = rest.length ∧
      Becomes p q p.len (front ++ (gap ++ (payload ++ rest'))) := by
  subst hf
  have hcopied : (p.bytes.take (front.length + payload.length)).drop front.length = payload := by
    rw [hb, ← List.append_assoc, List.take_left' (List.length_append ..), List.drop_left]
  -- the bytes that the part is put over
  have hover : p.bytes = (front ++ (payload ++ rest).take n) ++
      (((payload ++ rest).drop n).take payload.length ++
        ((payload ++ rest).drop n).drop payload.length) := by
    rw [List.take_append_drop, List.append_assoc, List.take_append_drop, hb]
  have hall : (payload ++ rest).length = payload.length + rest.length := List.length_append
  have hgap : ((payload ++ rest).take n).length = n := List.length_take_of_le (by omega)
  have hold : (((payload ++ rest).drop n).take payload.length).length = payload.length :=
    List.length_take_of_le (by rw [List.length_drop]; omega)
  obtain ⟨q, hput, hbecomes⟩ := put_at _ _ hover (by rw [List.length_append, hgap]) hold
  refine ⟨q, _, ((payload ++ rest).drop n).drop payload.length, ?_, hgap, ?_, ?_⟩
  · rw [copyWithin, hcopied]
    exact hput
  · rw [List.length_drop, List.length_drop]
    omega
  · rwa [List.append_assoc] at hbecomes

theorem setLen_at (h : len ≤ capacity) :
    ∃ q, setLen len p = (.ok ⟨⟩, q) ∧ Becomes p q len p.bytes :=
  ⟨{ p with len, fits := h }, dif_pos h, rfl, rfl, rfl, rfl, rfl⟩

theorem check_bind {α β : Type} {f : Image → Except Error α} {g : α → Edit β} {a : α}
    (h : f p = .ok a) : (check f >>= g) p = g a p := Read.ok_bind (by rw [check, h])

/-- A check that fails ends the edit where it is. -/
theorem check_error {α β : Type} {f : Image → Except Error α} {g : α → Edit β} {e : Error}
    (h : f p = .error e) : (check f >>= g) p = (.error e, p) := Read.error_bind (by rw [check, h])

theorem put_bind {β : Type} {g : PUnit → Edit β} (h : offset + bs.length ≤ capacity) :
    (put offset bs >>= g) p = g ⟨⟩ (p.overwrite offset bs h) := Read.ok_bind (dif_pos h)

theorem length_used : p.used.length = p.len :=
  List.length_take_of_le (by rw [p.size]; exact p.fits)

/-- A field of the bytes in use. -/
theorem get_eq (h : offset + width ≤ p.len) :
    p.get offset width = .ok (leAt p.bytes offset width) := by
  rw [get, field, if_neg (by rw [length_used]; omega), leAt, leAt, used, List.drop_take,
    List.take_take, Nat.min_eq_left (by omega)]

theorem get_ok {v : ℕ} (h : p.get offset width = .ok v) :
    offset + width ≤ p.len ∧ v = leAt p.bytes offset width := by
  have hle : offset + width ≤ p.len := by
    rw [get, field, length_used] at h
    split_ifs at h
    omega
  rw [get_eq hle] at h
  exact ⟨hle, (Except.ok.inj h).symm⟩

/-- A field lies in the leading bytes. -/
theorem leAt_take {bytes : List UInt8} (h : offset + width ≤ n) :
    leAt (bytes.take n) offset width = leAt bytes offset width := by
  rw [leAt, leAt, List.drop_take, List.take_take, Nat.min_eq_left (by omega)]

theorem SameFront.get (h : SameFront n p q) (hn : offset + width ≤ n) :
    q.get offset width = p.get offset width := by
  rw [get_eq (hn.trans h.right), get_eq (hn.trans h.left), ← leAt_take hn, h.bytes, leAt_take hn]

theorem SameFront.checkNext (h : SameFront n p q) (hn : 16 ≤ n) : q.checkNext = p.checkNext := by
  rw [Image.checkNext, Image.checkNext, Image.next, Image.next, u32, u32, h.get (by omega), h.kind,
    h.block]

theorem SameFront.checkBlock (h : SameFront n p q) : q.checkBlock = p.checkBlock := by
  rw [Image.checkBlock, Image.checkBlock, h.kind, h.block]

/-- The common header of a page stays. -/
theorem Becomes.header (hq : Becomes p q len (p.bytes.take 16 ++ rest))
    (hf : (p.bytes.take 16).length = 16) :
    q.block = p.block ∧ leAt q.bytes 12 4 = leAt p.bytes 12 4 ∧ q.initializes = p.initializes := by
  refine ⟨hq.block, ?_, hq.initializes⟩
  rw [← leAt_take (n := 16) (by decide), hq.bytes, List.take_left' hf,
    leAt_take (n := 16) (by decide)]

end

end Image

/-! ### Owner references -/

/-- The bytes of a reference. -/
def OwnerRef.bytes (o : OwnerRef) : List UInt8 :=
  leBytes 4 o.page ++ (leBytes 2 o.slot ++ (leBytes 2 0 ++ leBytes 8 o.incarnation))

/-- `OwnerRef::read`. -/
def OwnerRef.read : Reader.Parse OwnerRef := do
  let page ← Reader.le 4
  let slot ← Reader.le 2
  let reserved ← Reader.le 2
  let incarnation ← Reader.le 8
  let offset ← Reader.position
  Read.ensure (incarnation ≠ 0) (.codecAt offset .invalidValue)
  Read.ensure (blockValid page ∧ slot < ownerSlots ∧ reserved = 0) (.codecAt offset .invalidValue)
  return ⟨page, slot, incarnation⟩

/-- `OwnerRef::write`. -/
def OwnerRef.write (o : OwnerRef) : Writer.Emit := do
  let w ← Read.cursor
  Read.ensure (blockValid o.page ∧ o.slot < ownerSlots)
    (.codecAt w.written.length .invalidValue)
  Writer.le 4 o.page
  Writer.le 2 o.slot
  Writer.le 2 0
  Writer.le 8 o.incarnation

/-- The ranges of the fields. -/
def OwnerRef.InRange (o : OwnerRef) : Prop :=
  o.page < 2 ^ 32 ∧ o.slot < 2 ^ 16 ∧ o.incarnation ≠ 0 ∧ o.incarnation < 2 ^ 64

instance (o : OwnerRef) : Decidable o.InRange := inferInstanceAs (Decidable (_ ∧ _))

section

variable {o : OwnerRef}

theorem OwnerRef.length_bytes : o.bytes.length = 16 := by
  simp only [OwnerRef.bytes, List.length_append, Reader.length_leBytes]

theorem OwnerRef.decodes (hr : o.InRange) (hv : o.Valid) :
    Reader.Decodes OwnerRef.read o.bytes o := by
  obtain ⟨hpage, hslot, h0, hinc⟩ := hr
  obtain ⟨hblock, hslots, -⟩ := hv
  refine (Reader.Decodes.le hpage).bind ((Reader.Decodes.le hslot).bind
    ((Reader.Decodes.le (by decide)).bind ?_))
  rw [← List.append_nil (leBytes 8 o.incarnation)]
  refine (Reader.Decodes.le hinc).bind (Reader.Decodes.position_bind fun _ => ?_)
  exact Reader.Decodes.ensure_bind h0 (Reader.Decodes.ensure_bind ⟨hblock, hslots, rfl⟩
    Reader.Decodes.pure)

theorem OwnerRef.write_writes (hv : o.Valid) : Writer.Writes o.write o.bytes :=
  Writer.Writes.cursor_bind fun _ => Writer.Writes.ensure ⟨hv.1, hv.2.1⟩
    (Writer.Writes.le.bind (Writer.Writes.le.bind (Writer.Writes.le.bind Writer.Writes.le)))

/-- A reference to no possible slot is not written. -/
theorem OwnerRef.write_fails (hr : o.InRange) (hv : ¬ o.Valid) : Writer.Fails o.write :=
  Writer.Fails.cursor_bind fun _ => Writer.Fails.left
    (Writer.Fails.ensure fun h => hv ⟨h.1, h.2, hr.2.2.1⟩)

end

end PinCore
