import PinCore.Image.Owners

/-!
# Owner pages refine the page model

`HoldsSlots p slots` says that the bytes of an image are those of some slots.  Reads decode these
slots; an append or a change leads to the image of the slots that the page model has after it, or
leaves the image alone.  Over a run of calls the slots only move forward in their life.
-/

namespace PinCore

open Grouped Image
open Page (OwnerChange)

/-! ### The bytes of slots -/

/-- The forty bytes of a slot whose payload, if it has one, stands at `start`. -/
def slotBytes (o : OwnerSlot) (start : ℕ) : List UInt8 :=
  leBytes 8 o.incarnation ++ (leBytes 4 o.root.block ++ (leBytes 2 o.root.offset ++
    (leBytes 1 o.publication.code ++ (leBytes 1 (if o.live then 1 else 0) ++
      (leBytes 4 o.tokens ++ (leBytes 4 o.terms ++ (leBytes 4 o.dataHead ++
        (leBytes 4 o.dataBytes ++ (leBytes 2 (if o.inline = [] then 0 else start) ++
          (leBytes 2 o.inline.length ++ leBytes 4 0))))))))))

/-- The records of slots whose payloads start at `start`. -/
def slotsBytes : ℕ → List OwnerSlot → List UInt8
  | _, [] => []
  | start, o :: os => slotBytes o start ++ slotsBytes (start + o.inline.length) os

/-- The inline payloads of the slots. -/
def payloadBytes (slots : List OwnerSlot) : List UInt8 := slots.flatMap (·.inline)

/-- Where the payloads of `n` slots start. -/
def payloadsAt (n : ℕ) : ℕ := ownerHeader + n * ownerBytes

/-- The fields of a slot that are not bounded by its checks. -/
structure OwnerSlot.InRange (o : OwnerSlot) : Prop where
  incarnation : o.incarnation < 2 ^ 64
  root : o.root.block < 2 ^ 32
  dataHead : o.dataHead < 2 ^ 32

/-- The image holds the slots. -/
structure HoldsSlots (p : Image) (layout : HeapLayout) (slots : List OwnerSlot) : Prop where
  kind : p.kind = .owners
  next : p.checkNext = .ok ⟨⟩
  block : p.checkBlock = .ok ⟨⟩
  len : p.len = payloadsAt slots.length + (payloadBytes slots).length
  bytes : ∃ front rest, front.length = 16 ∧ p.bytes = front ++ (leBytes 2 slots.length ++
    (leBytes 2 0 ++ (slotsBytes (payloadsAt slots.length) slots ++ (payloadBytes slots ++ rest))))
  ok : ∀ o ∈ slots, o.Ok layout ∧ o.InRange

/-- The image with its slots decoded. -/
def Image.page (p : Image) (slots : List OwnerSlot) : Page where
  block := p.block
  next := leAt p.bytes 12 4
  body := .owners slots
  initializes := p.initializes

section

variable {p q : Image} {layout : HeapLayout} {slots as bs : List OwnerSlot} {o : OwnerSlot}
  {start i n : ℕ}

theorem length_slotBytes : (slotBytes o start).length = ownerBytes := by
  simp only [slotBytes, List.length_append, Reader.length_leBytes]
  rfl

theorem length_slotsBytes : (slotsBytes start slots).length = slots.length * ownerBytes := by
  induction slots generalizing start with
  | nil => exact (Nat.zero_mul _).symm
  | cons o os ih =>
    rw [slotsBytes, List.length_append, length_slotBytes, ih, List.length_cons, Nat.succ_mul,
      Nat.add_comm]

theorem payloadBytes_cons : payloadBytes (o :: bs) = o.inline ++ payloadBytes bs := rfl

theorem payloadBytes_append : payloadBytes (as ++ bs) = payloadBytes as ++ payloadBytes bs :=
  List.flatMap_append

theorem slotsBytes_append : slotsBytes start (as ++ bs) =
    slotsBytes start as ++ slotsBytes (start + (payloadBytes as).length) bs := by
  induction as generalizing start with
  | nil => rfl
  | cons o as ih =>
    rw [List.cons_append, slotsBytes, slotsBytes, ih, List.append_assoc, payloadBytes_cons,
      List.length_append, Nat.add_assoc]

/-! ### Reading -/

theorem HoldsSlots.count_lt (h : HoldsSlots p layout slots) :
    payloadsAt slots.length + (payloadBytes slots).length ≤ capacity := h.len ▸ p.fits

theorem HoldsSlots.length_lt (h : HoldsSlots p layout slots) : slots.length < 256 := by
  have := h.count_lt
  rw [payloadsAt, ownerHeader, ownerBytes, capacity] at this
  omega

theorem HoldsSlots.u16_count (h : HoldsSlots p layout slots) :
    p.u16 16 = .ok slots.length ∧ p.u16 18 = .ok 0 := by
  obtain ⟨front, rest, hfront, hbytes⟩ := h.bytes
  have hcount := h.length_lt
  have hlen : 20 ≤ p.len := by
    rw [h.len, payloadsAt, ownerHeader]
    omega
  have hdrop : p.bytes.drop 16 = leBytes 2 slots.length ++ (leBytes 2 0 ++
      (slotsBytes (payloadsAt slots.length) slots ++ (payloadBytes slots ++ rest))) := by
    rw [hbytes, List.drop_left' hfront]
  obtain ⟨e₁, h₁⟩ := leAt_of_drop hdrop (by omega)
  obtain ⟨e₂, -⟩ := leAt_of_drop h₁ (by decide)
  rw [u16, u16, get_eq (by omega), get_eq (by omega), e₁, e₂]
  exact ⟨rfl, rfl⟩

theorem HoldsSlots.ownerCount (h : HoldsSlots p layout slots) :
    p.ownerCount = .ok slots.length := by
  obtain ⟨hcount, hzero⟩ := h.u16_count
  have hle : payloadsAt slots.length ≤ p.len := by
    rw [h.len]
    omega
  rw [Image.ownerCount, Image.require, require_of h.kind, ok_bind, hcount, ok_bind, hzero, ok_bind,
    require_of ⟨rfl, hle⟩, ok_bind]

/-- The bytes around the record of a slot, and around its payload. -/
theorem HoldsSlots.split (h : HoldsSlots p layout (as ++ o :: bs)) : ∃ front rest,
    front.length = ownerHeader + as.length * ownerBytes ∧
      p.bytes = front ++ (slotBytes o (payloadsAt (as ++ o :: bs).length +
        (payloadBytes as).length) ++ rest) ∧
      ∃ rest', p.bytes.drop (payloadsAt (as ++ o :: bs).length + (payloadBytes as).length) =
        o.inline ++ rest' := by
  obtain ⟨front, rest, hfront, hbytes⟩ := h.bytes
  rw [slotsBytes_append, slotsBytes, payloadBytes_append, payloadBytes_cons] at hbytes
  simp only [List.append_assoc] at hbytes
  have hat : ∀ m, payloadsAt m = 20 + m * 40 := fun _ => rfl
  refine ⟨front ++ (leBytes 2 (as ++ o :: bs).length ++ (leBytes 2 0 ++
    slotsBytes (payloadsAt (as ++ o :: bs).length) as)),
    slotsBytes (payloadsAt (as ++ o :: bs).length + (payloadBytes as).length + o.inline.length) bs
      ++ (payloadBytes as ++ (o.inline ++ (payloadBytes bs ++ rest))), ?_, ?_,
    payloadBytes bs ++ rest, ?_⟩
  · simp only [List.length_append, Reader.length_leBytes, length_slotsBytes, hfront, ownerHeader,
      ownerBytes]
    omega
  · rw [hbytes]
    simp only [List.append_assoc]
  · have hall : p.bytes = (front ++ (leBytes 2 (as ++ o :: bs).length ++ (leBytes 2 0 ++
        slotsBytes (payloadsAt (as ++ o :: bs).length) (as ++ o :: bs))) ++ payloadBytes as) ++
        (o.inline ++ (payloadBytes bs ++ rest)) := by
      rw [hbytes, slotsBytes_append, slotsBytes]
      simp only [List.append_assoc]
    rw [hall, List.drop_left']
    simp only [List.length_append, Reader.length_leBytes, length_slotsBytes, hfront, hat,
      ownerBytes]
    omega

/-- The fields of a record. -/
theorem slot_fields {bytes rest : List UInt8} {offset : ℕ} (hok : o.Ok layout)
    (hr : o.InRange) (hstart : start < 256 ^ 2) (hinline : o.inline.length < 256 ^ 2)
    (h : bytes.drop offset = slotBytes o start ++ rest) :
    leAt bytes offset 8 = o.incarnation ∧ leAt bytes (offset + 8) 4 = o.root.block ∧
      leAt bytes (offset + 12) 2 = o.root.offset ∧
      leAt bytes (offset + 14) 1 = o.publication.code ∧
      leAt bytes (offset + 15) 1 = (if o.live then 1 else 0) ∧
      leAt bytes (offset + 16) 4 = o.tokens ∧ leAt bytes (offset + 20) 4 = o.terms ∧
      leAt bytes (offset + 24) 4 = o.dataHead ∧ leAt bytes (offset + 28) 4 = o.dataBytes ∧
      leAt bytes (offset + 32) 2 = (if o.inline = [] then 0 else start) ∧
      leAt bytes (offset + 34) 2 = o.inline.length ∧ leAt bytes (offset + 36) 4 = 0 := by
  have hoff : o.root.offset < 256 ^ 2 := by
    have h₁ := hok.root.2.2
    have h₂ := layout.le
    omega
  have hcode : o.publication.code < 256 ^ 1 := by cases o.publication <;> decide
  have hlive : (if o.live then 1 else 0) < 256 ^ 1 := by split_ifs <;> decide
  have htokens : o.tokens < 256 ^ 4 := Nat.lt_of_le_of_lt hok.tokens (by decide)
  have hterms : o.terms < 256 ^ 4 := Nat.lt_of_le_of_lt hok.terms htokens
  have hbytes : o.dataBytes < 256 ^ 4 := Nat.lt_of_le_of_lt hok.maxBytes (by decide)
  have hstart : (if o.inline = [] then 0 else start) < 256 ^ 2 := by
    split_ifs
    · decide
    · exact hstart
  simp only [slotBytes, List.append_assoc] at h
  obtain ⟨e₁, h₁⟩ := leAt_of_drop h hr.incarnation
  obtain ⟨e₂, h₂⟩ := leAt_of_drop h₁ hr.root
  obtain ⟨e₃, h₃⟩ := leAt_of_drop h₂ hoff
  obtain ⟨e₄, h₄⟩ := leAt_of_drop h₃ hcode
  obtain ⟨e₅, h₅⟩ := leAt_of_drop h₄ hlive
  obtain ⟨e₆, h₆⟩ := leAt_of_drop h₅ htokens
  obtain ⟨e₇, h₇⟩ := leAt_of_drop h₆ hterms
  obtain ⟨e₈, h₈⟩ := leAt_of_drop h₇ hr.dataHead
  obtain ⟨e₉, h₉⟩ := leAt_of_drop h₈ hbytes
  obtain ⟨e₁₀, h₁₀⟩ := leAt_of_drop h₉ hstart
  obtain ⟨e₁₁, h₁₁⟩ := leAt_of_drop h₁₀ hinline
  obtain ⟨e₁₂, -⟩ := leAt_of_drop h₁₁ (by decide)
  exact ⟨e₁, e₂, e₃, e₄, e₅, e₆, e₇, e₈, e₉, e₁₀, e₁₁, e₁₂⟩

theorem publicationOf_code (x : Publication) : publicationOf x.code = .ok x := by cases x <;> rfl

/-- A slot is decoded. -/
theorem HoldsSlots.owner (h : HoldsSlots p layout (as ++ o :: bs)) :
    p.owner as.length layout = .ok ⟨⟨p.block, as.length, o.incarnation⟩, o⟩ ∧
      p.u16 (ownerHeader + as.length * ownerBytes + 32) =
        .ok (if o.inline = [] then 0 else
          payloadsAt (as ++ o :: bs).length + (payloadBytes as).length) := by
  obtain ⟨front, rest, hfront, hbytes, rest', hpayload⟩ := h.split
  obtain ⟨hok, hr⟩ := h.ok o (by simp)
  have hlen := h.len
  have hfit := p.fits
  have hpay : (payloadBytes (as ++ o :: bs)).length =
      (payloadBytes as).length + (o.inline.length + (payloadBytes bs).length) := by
    rw [payloadBytes_append, payloadBytes_cons, List.length_append, List.length_append]
  rw [hpay] at hlen
  have hcap : capacity = 8168 := rfl
  have hdrop : p.bytes.drop (ownerHeader + as.length * ownerBytes) =
      slotBytes o (payloadsAt (as ++ o :: bs).length + (payloadBytes as).length) ++ rest := by
    rw [hbytes, List.drop_left' hfront]
  obtain ⟨e₁, e₂, e₃, e₄, e₅, e₆, e₇, e₈, e₉, e₁₀, e₁₁, e₁₂⟩ :=
    slot_fields hok hr (by omega) (by omega) hdrop
  have hcount : as.length < (as ++ o :: bs).length := by
    rw [List.length_append, List.length_cons]
    omega
  have hend : ownerHeader + as.length * ownerBytes + 32 + 2 ≤ p.len := by
    have hat : payloadsAt (as ++ o :: bs).length = 20 + (as ++ o :: bs).length * 40 := rfl
    rw [hlen, hat, ownerHeader, ownerBytes]
    omega
  refine ⟨?_, by rw [u16, get_eq hend, e₁₀]⟩
  have hlive : liveOf o.publication (if o.live then 1 else 0) = .ok o.live := by
    cases hl : o.live with
    | false => rfl
    | true => exact if_pos (hok.live hl)
  have hinline : p.inlineAt (as ++ o :: bs).length (if o.inline = [] then 0 else
      payloadsAt (as ++ o :: bs).length + (payloadBytes as).length) o.inline.length o.dataBytes
      o.dataHead = .ok o.inline := by
    rw [inlineAt]
    by_cases hi : o.inline = []
    · rw [hi]
      rfl
    · have hne : o.inline.length ≠ 0 := fun h0 => hi (List.length_eq_zero_iff.1 h0)
      obtain ⟨hsame, hhead⟩ := hok.inline hi
      have hgood : ¬ (o.inline.length ≠ o.dataBytes ∨ o.dataHead ≠ noBlock ∨
          payloadsAt (as ++ o :: bs).length + (payloadBytes as).length <
            ownerHeader + (as ++ o :: bs).length * ownerBytes) := by
        rintro (h₁ | h₂ | h₃)
        · exact h₁ hsame
        · exact h₂ hhead
        · rw [payloadsAt] at h₃
          omega
      rw [if_neg hi, if_neg hne, if_neg hgood, if_pos (by omega), used, List.drop_take,
        List.take_take, hpayload, Nat.min_eq_left (by omega), List.take_left]
  have hhead : o.dataHead = noBlock ∨ blockValid o.dataHead := by
    by_cases hn : o.dataHead = noBlock
    · exact .inl hn
    · exact .inr ⟨hok.dataHead, hn⟩
  rw [Image.owner, h.ownerCount, ok_bind, require_of hcount, ok_bind]
  simp only [e₁, e₂, e₃, e₄, e₅, e₆, e₇, e₈, e₉, e₁₀, e₁₁, e₁₂, publicationOf_code, hlive, hinline,
    ok_bind]
  rw [require_of hok.incarnation, ok_bind, require_of hok.root, ok_bind,
    require_of ⟨trivial, hok.tokens, hok.terms, hok.minBytes, hok.maxBytes, hhead⟩, ok_bind,
    require_of hok.payload, ok_bind, require_of hok.allocated, ok_bind]

theorem checkPayloads_eq (h : HoldsSlots p layout (as ++ bs)) :
    p.checkPayloads layout as.length bs.length
        (payloadsAt (as ++ bs).length + (payloadBytes as).length) =
      .ok (payloadsAt (as ++ bs).length + (payloadBytes (as ++ bs)).length) := by
  induction bs generalizing as with
  | nil => rw [List.append_nil, List.length_nil, checkPayloads]
  | cons o bs ih =>
    obtain ⟨howner, hstored⟩ := h.owner
    have hsplit : as ++ o :: bs = (as ++ [o]) ++ bs := by
      rw [List.append_assoc, List.singleton_append]
    have hlast : (payloadBytes (as ++ [o])).length =
        (payloadBytes as).length + o.inline.length := by
      rw [payloadBytes_append, payloadBytes_cons, List.length_append, List.length_append]
      rfl
    have hrest := ih (hsplit ▸ h)
    rw [hlast, ← hsplit, List.length_append, List.length_singleton] at hrest
    rw [List.length_cons, checkPayloads, howner, ok_bind]
    by_cases hi : o.inline = []
    · rw [if_pos hi]
      rw [hi, List.length_nil, Nat.add_zero] at hrest
      exact hrest
    · rw [if_neg hi]
      rw [if_neg hi] at hstored
      rw [hstored, ok_bind, require_of rfl, ok_bind, Nat.add_assoc]
      exact hrest

/-- The image of slots that are valid validates. -/
theorem HoldsSlots.validateOwners (h : HoldsSlots p layout slots) :
    p.validateOwners layout = .ok ⟨⟩ := by
  have hpayload := @checkPayloads_eq p layout [] slots h
  simp only [List.nil_append, List.length_nil] at hpayload
  rw [Image.validateOwners, h.next, ok_bind, h.block, ok_bind, h.ownerCount, ok_bind]
  change (p.checkPayloads layout 0 slots.length (payloadsAt slots.length + 0) >>= _) = _
  rw [show payloadsAt slots.length + 0 =
      payloadsAt slots.length + (payloadBytes []).length from rfl,
    hpayload, ok_bind, ← h.len, require_of rfl]

/-- Behind the last slot there is none. -/
theorem HoldsSlots.owner_none (h : HoldsSlots p layout slots) (hi : slots.length ≤ i) :
    p.owner i layout = .error .codec := by
  rw [Image.owner, h.ownerCount, ok_bind]
  exact congrArg (· >>= _) (if_neg (Nat.not_lt.2 hi))

/-- Each slot is decoded at its index. -/
theorem HoldsSlots.owner_at (h : HoldsSlots p layout slots) (hi : slots[i]? = some o) :
    p.owner i layout = .ok ⟨⟨p.block, i, o.incarnation⟩, o⟩ := by
  obtain ⟨hlt, hget⟩ := List.getElem?_eq_some_iff.1 hi
  have hsplit : slots = slots.take i ++ o :: slots.drop (i + 1) := by
    rw [← hget, ← List.drop_eq_getElem_cons hlt, List.take_append_drop]
  have hholds : HoldsSlots p layout (slots.take i ++ o :: slots.drop (i + 1)) := hsplit ▸ h
  have howner := hholds.owner.1
  rwa [List.length_take_of_le hlt.le] at howner

/-! ### Appending -/

/-- The fields of a record in front of the place of its payload. -/
def slotFront (o : OwnerSlot) : List UInt8 :=
  leBytes 8 o.incarnation ++ (leBytes 4 o.root.block ++ (leBytes 2 o.root.offset ++
    (leBytes 1 o.publication.code ++ (leBytes 1 (if o.live then 1 else 0) ++
      (leBytes 4 o.tokens ++ (leBytes 4 o.terms ++ (leBytes 4 o.dataHead ++
        leBytes 4 o.dataBytes)))))))

theorem slotBytes_eq : slotBytes o start = slotFront o ++
    (leBytes 2 (if o.inline = [] then 0 else start) ++
      (leBytes 2 o.inline.length ++ leBytes 4 0)) := by
  simp only [slotBytes, slotFront, List.append_assoc]

theorem length_slotFront : (slotFront o).length = 32 := by
  simp only [slotFront, List.length_append, Reader.length_leBytes]

/-- The loop moves the payload of every slot behind one more record. -/
theorem rebase_eq {front rest : List UInt8} {slot : ℕ}
    (hf : front.length = ownerHeader + slot * ownerBytes)
    (hb : p.bytes = front ++ (slotsBytes start slots ++ rest))
    (hlen : front.length + slots.length * ownerBytes ≤ p.len) (hstart : 0 < start)
    (hlt : start + (payloadBytes slots).length + ownerBytes < 65536) :
    ∃ q, rebase slot slots.length p = (.ok ⟨⟩, q) ∧
      Becomes p q p.len (front ++ (slotsBytes (start + ownerBytes) slots ++ rest)) := by
  induction slots generalizing p front slot start with
  | nil => exact ⟨p, rfl, rfl, rfl, rfl, rfl, hb⟩
  | cons o slots ih =>
    rw [payloadBytes_cons, List.length_append] at hlt
    rw [List.length_cons, Nat.succ_mul] at hlen
    have h40 : ownerBytes = 40 := rfl
    have hbytes : p.bytes = (front ++ slotFront o) ++
        (leBytes 2 (if o.inline = [] then 0 else start) ++ ((leBytes 2 o.inline.length ++
          leBytes 4 0) ++ (slotsBytes (start + o.inline.length) slots ++ rest))) := by
      rw [hb, slotsBytes, slotBytes_eq]
      simp only [List.append_assoc]
    have hplace : (front ++ slotFront o).length = ownerHeader + slot * ownerBytes + 32 := by
      rw [List.length_append, length_slotFront, hf]
    have hstored : p.u16 (ownerHeader + slot * ownerBytes + 32) =
        .ok (if o.inline = [] then 0 else start) := by
      have hdrop := congrArg (List.drop (ownerHeader + slot * ownerBytes + 32)) hbytes
      rw [List.drop_left' hplace] at hdrop
      have hsmall : (if o.inline = [] then 0 else start) < 256 ^ 2 := by
        split_ifs <;> omega
      rw [u16, get_eq (by omega), (leAt_of_drop hdrop hsmall).1]
    have hnext : ∀ x, (front ++ slotBytes o x).length =
        ownerHeader + (slot + 1) * ownerBytes := by
      intro x
      rw [List.length_append, length_slotBytes, hf, Nat.succ_mul]
      omega
    rw [List.length_cons, rebase, check_bind hstored]
    by_cases hi : o.inline = []
    · -- there is no payload to move
      have hsame : slotBytes o start = slotBytes o (start + ownerBytes) := by
        rw [slotBytes_eq, slotBytes_eq, if_pos hi, if_pos hi]
      have hb' : p.bytes = (front ++ slotBytes o start) ++
          (slotsBytes (start + o.inline.length) slots ++ rest) := by
        rw [hb, slotsBytes]
        simp only [List.append_assoc]
      obtain ⟨q, hq, hbecomes⟩ := ih (hnext _) hb'
        (by rw [List.length_append, length_slotBytes]; omega) (by omega) (by omega)
      refine ⟨q, by rw [if_pos hi, if_neg (not_not.2 rfl)]; exact hq, ?_⟩
      rw [slotsBytes, ← hsame, Nat.add_right_comm, List.append_assoc]
      rwa [List.append_assoc] at hbecomes
    · have hwidth : (leBytes 2 (if o.inline = [] then 0 else start)).length =
          (leBytes 2 (start + ownerBytes)).length := by
        rw [Reader.length_leBytes, Reader.length_leBytes]
      obtain ⟨q₁, hput, h₁⟩ := put_at _ _ hbytes hplace hwidth
      have hb₁ : q₁.bytes = (front ++ slotBytes o (start + ownerBytes)) ++
          (slotsBytes (start + o.inline.length) slots ++ rest) := by
        rw [h₁.bytes, slotBytes_eq, if_neg hi]
        simp only [List.append_assoc]
      obtain ⟨q, hq, h₂⟩ := ih (hnext _) hb₁
        (by rw [List.length_append, length_slotBytes, h₁.len]; omega) (by omega) (by omega)
      refine ⟨q, ?_, ?_⟩
      · rw [if_neg hi, if_pos (by omega : start ≠ 0), Read.ensure_bind (by omega), putU16,
          Read.ok_bind hput]
        exact hq
      · have hbecomes := h₁.trans h₂
        rw [h₁.len, List.append_assoc] at hbecomes
        rwa [slotsBytes, Nat.add_right_comm, List.append_assoc]

/-- The slot that an append adds. -/
def freshSlot (incarnation : ℕ) (root : RootTid) (tokens terms : ℕ) (payload : List UInt8) :
    OwnerSlot :=
  ⟨incarnation, root, .allocated, false, tokens, terms, noBlock, payload.length,
    if payload.length ≤ inlineBytes then payload else []⟩

theorem payloadsAt_succ : payloadsAt (n + 1) = payloadsAt n + ownerBytes := by
  rw [payloadsAt, payloadsAt, Nat.succ_mul, Nat.add_assoc]

theorem payloadBytes_snoc : payloadBytes (as ++ [o]) = payloadBytes as ++ o.inline := by
  rw [payloadBytes_append, payloadBytes_cons]
  exact congrArg (payloadBytes as ++ ·) (List.append_nil _)

/-- The bytes of an image that holds slots, behind its header. -/
def bodyBytes (slots : List OwnerSlot) : List UInt8 :=
  leBytes 2 slots.length ++ (leBytes 2 0 ++ (slotsBytes (payloadsAt slots.length) slots ++
    payloadBytes slots))

theorem length_bodyBytes : 16 + (bodyBytes slots).length =
    payloadsAt slots.length + (payloadBytes slots).length := by
  simp only [bodyBytes, List.length_append, Reader.length_leBytes, length_slotsBytes, payloadsAt,
    ownerHeader]
  omega

theorem HoldsSlots.front (h : HoldsSlots p layout slots) : ∃ rest,
    p.bytes = p.bytes.take 16 ++ (bodyBytes slots ++ rest) ∧ (p.bytes.take 16).length = 16 ∧
      p.len + rest.length = capacity := by
  obtain ⟨front, rest, hfront, hbytes⟩ := h.bytes
  have hsame : p.bytes.take 16 = front := by rw [hbytes, List.take_left' hfront]
  have hall : p.bytes = front ++ (bodyBytes slots ++ rest) := by
    rw [hbytes, bodyBytes]
    simp only [List.append_assoc]
  refine ⟨rest, hsame ▸ hall, hsame ▸ hfront, ?_⟩
  rw [← p.size, hall, List.length_append, List.length_append, hfront, h.len, ← length_bodyBytes]
  omega

/-- An image with the same header and the bytes of other slots holds these. -/
theorem HoldsSlots.becomes {cs : List OwnerSlot} (h : HoldsSlots p layout slots)
    (rest : List UInt8)
    (hq : Becomes p q (payloadsAt cs.length + (payloadBytes cs).length)
      (p.bytes.take 16 ++ (bodyBytes cs ++ rest)))
    (hok : ∀ x ∈ cs, x.Ok layout ∧ x.InRange) : HoldsSlots q layout cs := by
  obtain ⟨-, -, hfront, -⟩ := h.front
  have hsame : SameFront 16 p q := by
    refine ⟨hq.block, hq.kind, ?_, ?_, ?_⟩
    · rw [hq.bytes, List.take_left' hfront]
    · rw [h.len, ← length_bodyBytes]
      omega
    · rw [hq.len, ← length_bodyBytes]
      omega
  refine ⟨hsame.kind.trans h.kind, (hsame.checkNext le_rfl).trans h.next,
    hsame.checkBlock.trans h.block, hq.len, ⟨p.bytes.take 16, rest, hfront, ?_⟩, hok⟩
  rw [hq.bytes, bodyBytes]
  simp only [List.append_assoc]

/-- The rest of the page stays. -/
theorem HoldsSlots.page_eq {len : ℕ} {rest : List UInt8} (h : HoldsSlots p layout slots)
    (hq : Becomes p q len (p.bytes.take 16 ++ rest)) : q.page = p.page := by
  obtain ⟨-, -, hfront, -⟩ := h.front
  obtain ⟨hblock, hnext, hinit⟩ := hq.header hfront
  funext cs
  rw [Image.page, Image.page, hblock, hinit, hnext]

theorem HoldsSlots.page_len (h : HoldsSlots p layout slots) : (p.page slots).len = p.len := by
  rw [h.len, payloadBytes, List.length_flatMap]
  rfl

/-- The payloads and their offsets move up by one record and leave a gap. -/
theorem HoldsSlots.makeRoom (h : HoldsSlots p layout slots)
    (hroom : p.len + ownerBytes ≤ capacity) :
    ∃ q₁ q₂ gap rest, copyWithin (payloadsAt slots.length) p.len
        (payloadsAt slots.length + ownerBytes) p = (.ok ⟨⟩, q₁) ∧
      rebase 0 slots.length q₁ = (.ok ⟨⟩, q₂) ∧ gap.length = ownerBytes ∧
      p.len + ownerBytes + rest.length = capacity ∧
      Becomes p q₂ p.len ((p.bytes.take 16 ++ (leBytes 2 slots.length ++ (leBytes 2 0 ++
        slotsBytes (payloadsAt slots.length + ownerBytes) slots))) ++
          (gap ++ (payloadBytes slots ++ rest))) := by
  obtain ⟨rest, hbytes, hfront, hfree⟩ := h.front
  have hlen := h.len
  have hcap : capacity = 8168 := rfl
  have h40 : ownerBytes = 40 := rfl
  have hhead : (p.bytes.take 16 ++ (leBytes 2 slots.length ++ leBytes 2 0)).length =
      ownerHeader + 0 * ownerBytes := by
    simp only [List.length_append, Reader.length_leBytes, hfront]
    rfl
  have hfixed : (p.bytes.take 16 ++ (leBytes 2 slots.length ++ leBytes 2 0) ++
      slotsBytes (payloadsAt slots.length) slots).length = payloadsAt slots.length := by
    rw [List.length_append, hhead, length_slotsBytes, Nat.zero_mul, Nat.add_zero, payloadsAt]
  have hb₀ : p.bytes = (p.bytes.take 16 ++ (leBytes 2 slots.length ++ leBytes 2 0) ++
      slotsBytes (payloadsAt slots.length) slots) ++ (payloadBytes slots ++ rest) := by
    conv_lhs => rw [hbytes, bodyBytes]
    simp only [List.append_assoc]
  obtain ⟨q₁, gap, rest₁, hcopy, hgap, hrest₁, h₁⟩ := copyWithin_at hb₀ hfixed
    (show ownerBytes ≤ rest.length by omega)
  have hb₁ := h₁.bytes
  rw [List.append_assoc] at hb₁
  have hpos : 0 < payloadsAt slots.length := by
    rw [payloadsAt, ownerHeader]
    omega
  obtain ⟨q₂, hrebase, h₂⟩ := rebase_eq hhead hb₁
    (by rw [hhead, h₁.len, hlen, payloadsAt]; omega) hpos (by rw [← hlen]; omega)
  refine ⟨q₁, q₂, gap, rest₁, hlen ▸ hcopy, hrebase, hgap, by omega, ?_⟩
  have hbecomes := h₁.trans h₂
  rw [h₁.len] at hbecomes
  simp only [List.append_assoc] at hbecomes ⊢
  exact hbecomes

/-- A page with room for the slot gets it behind the others. -/
theorem HoldsSlots.append (h : HoldsSlots p layout slots) {incarnation tokens terms : ℕ}
    {root : RootTid} {payload : List UInt8}
    (ho : freshSlot incarnation root tokens terms payload = o)
    (hok : o.Ok layout ∧ o.InRange) (hdoc : tokens ≤ maxDocumentTokens ∧ terms ≤ tokens ∧
      16 ≤ payload.length ∧ payload.length ≤ maxDocumentBytes)
    (hroom : p.len + ownerBytes + o.inline.length ≤ capacity) :
    ∃ q, appendOwner incarnation root tokens terms payload p =
        (.ok (some ⟨p.block, slots.length, incarnation⟩), q) ∧
      HoldsSlots q layout (slots ++ [o]) ∧ q.page = p.page := by
  have hlen := h.len
  have hinline : (if payload.length ≤ inlineBytes then payload else []) = o.inline := by
    rw [← ho]
    rfl
  obtain ⟨-, -, hfront, -⟩ := h.front
  obtain ⟨q₁, q₂, gap, rest, hcopy, hrebase, hgap, hfree, h₂⟩ := h.makeRoom (by omega)
  obtain ⟨q₃, hset, h₃⟩ := setLen_at (p := q₂) hroom
  -- the record goes into the gap
  have hplace : (p.bytes.take 16 ++ (leBytes 2 slots.length ++ (leBytes 2 0 ++
      slotsBytes (payloadsAt slots.length + ownerBytes) slots))).length =
        payloadsAt slots.length := by
    simp only [List.length_append, Reader.length_leBytes, length_slotsBytes, hfront, payloadsAt,
      ownerHeader]
    omega
  obtain ⟨q₄, hrecord, h₄⟩ := put_at _ (slotBytes o (p.len + ownerBytes))
    (h₃.bytes.trans h₂.bytes) hplace (by rw [hgap, length_slotBytes])
  -- and the payload behind the other payloads
  have hb₄ : q₄.bytes = (p.bytes.take 16 ++ (leBytes 2 slots.length ++ (leBytes 2 0 ++
      slotsBytes (payloadsAt slots.length + ownerBytes) slots)) ++
        (slotBytes o (p.len + ownerBytes) ++ payloadBytes slots)) ++
          (rest.take o.inline.length ++ rest.drop o.inline.length) := by
    rw [h₄.bytes, List.take_append_drop]
    simp only [List.append_assoc]
  obtain ⟨q₅, hpayload, h₅⟩ := put_at (p.len + ownerBytes) o.inline hb₄
    (by rw [List.length_append, hplace, List.length_append, length_slotBytes, hlen]; omega)
    (List.length_take_of_le (by omega))
  have hb₅ := h₅.bytes
  simp only [List.append_assoc] at hb₅
  obtain ⟨q₆, hcount, h₆⟩ := put_at _ (leBytes 2 (slots.length + 1)) hb₅ hfront
    (by rw [Reader.length_leBytes, Reader.length_leBytes])
  have hbecomes := ((((h₂.trans h₃).trans h₄).trans h₅).trans h₆)
  refine ⟨q₆, ?_, h.becomes (rest.drop o.inline.length) ?_ ?_, h.page_eq hbecomes⟩
  · have hnew : slotBytes o (p.len + ownerBytes) = leBytes 8 incarnation ++ (leBytes 4 root.block ++
        (leBytes 2 root.offset ++ (leBytes 1 0 ++ (leBytes 1 0 ++ (leBytes 4 tokens ++
          (leBytes 4 terms ++ (leBytes 4 noBlock ++ (leBytes 4 payload.length ++
            (leBytes 2 (if o.inline = [] then 0 else p.len + ownerBytes) ++
              (leBytes 2 o.inline.length ++ leBytes 4 0)))))))))) := by
      rw [← ho]
      rfl
    rw [appendOwner, check_bind h.ownerCount, Read.ensure_bind hdoc, hinline, Read.cursor_bind,
      if_neg (Nat.not_lt.2 hroom), ← payloadsAt, Read.ok_bind hcopy, Read.ok_bind hrebase,
      Read.ok_bind hset, ← hnew, Read.ok_bind hrecord, Read.ok_bind hpayload, putU16,
      Read.ok_bind hcount]
    rfl
  · have hbytes : p.bytes.take 16 ++ (bodyBytes (slots ++ [o]) ++ rest.drop o.inline.length) =
        p.bytes.take 16 ++ (leBytes 2 (slots.length + 1) ++ (leBytes 2 0 ++
          (slotsBytes (payloadsAt slots.length + ownerBytes) slots ++
            (slotBytes o (p.len + ownerBytes) ++ (payloadBytes slots ++
              (o.inline ++ rest.drop o.inline.length)))))) := by
      rw [bodyBytes, List.length_append, List.length_singleton, slotsBytes_append, slotsBytes,
        slotsBytes, payloadBytes_snoc, payloadsAt_succ, hlen, Nat.add_right_comm]
      simp only [List.append_assoc, List.nil_append]
    rw [hbytes, List.length_append, List.length_singleton, payloadsAt_succ, payloadBytes_snoc,
      List.length_append, show payloadsAt slots.length + ownerBytes + ((payloadBytes slots).length +
        o.inline.length) = p.len + ownerBytes + o.inline.length by omega]
    rwa [h₅.len, h₄.len, h₃.len] at hbecomes
  · intro x hx
    rcases List.mem_append.1 hx with hx | hx
    · exact h.ok x hx
    · rwa [List.mem_singleton.1 hx]

/-! ### Changing -/

/-- What both images of a change write. -/
theorem changed_eq {change : OwnerChange} :
    changed o change = (change.apply o).map fun x =>
      (x.publication.code, if x.live then 1 else 0, x.dataHead) := by
  cases change <;> rw [changed, OwnerChange.apply] <;> split_ifs <;> rfl

/-- What no change touches. -/
theorem apply_same {change : OwnerChange} {x : OwnerSlot} (h : change.apply o = .ok x) :
    x.incarnation = o.incarnation ∧ x.root = o.root ∧ x.tokens = o.tokens ∧ x.terms = o.terms ∧
      x.dataBytes = o.dataBytes ∧ x.inline = o.inline := by
  cases change <;> rw [OwnerChange.apply] at h <;> split_ifs at h <;> cases h <;>
    exact ⟨rfl, rfl, rfl, rfl, rfl, rfl⟩

/-- The bytes around the record of a slot, of which only the payload counts. -/
theorem bodyBytes_split : ∃ front rest, 16 + front.length = ownerHeader + as.length * ownerBytes ∧
    ∀ x : OwnerSlot, x.inline = o.inline → bodyBytes (as ++ x :: bs) = front ++
      (slotBytes x (payloadsAt (as ++ o :: bs).length + (payloadBytes as).length) ++ rest) := by
  refine ⟨leBytes 2 (as ++ o :: bs).length ++ (leBytes 2 0 ++
    slotsBytes (payloadsAt (as ++ o :: bs).length) as),
    slotsBytes (payloadsAt (as ++ o :: bs).length + (payloadBytes as).length + o.inline.length) bs
      ++ payloadBytes (as ++ o :: bs), ?_, fun x hx => ?_⟩
  · simp only [List.length_append, Reader.length_leBytes, length_slotsBytes, ownerHeader]
    omega
  · have hn : (as ++ x :: bs).length = (as ++ o :: bs).length := by
      rw [List.length_append, List.length_append, List.length_cons, List.length_cons]
    rw [bodyBytes, slotsBytes_append, slotsBytes, payloadBytes_append, payloadBytes_cons,
      payloadBytes_append, payloadBytes_cons, hn, hx]
    simp only [List.append_assoc]

theorem HoldsSlots.change {x : OwnerSlot} (h : HoldsSlots p layout (as ++ o :: bs))
    {change : OwnerChange} (happly : change.apply o = .ok x) (hok : x.Ok layout ∧ x.InRange) :
    ∃ q, changeOwner ⟨p.block, as.length, o.incarnation⟩ change layout p = (.ok ⟨⟩, q) ∧
      HoldsSlots q layout (as ++ x :: bs) ∧ q.page = p.page := by
  obtain ⟨hinc, hroot, htokens, hterms, hdata, hinline⟩ := apply_same happly
  obtain ⟨rest, hbytes, hfront, -⟩ := h.front
  obtain ⟨front, rest', hplace, hsplit⟩ := @bodyBytes_split as bs o
  generalize hstart : payloadsAt (as ++ o :: bs).length + (payloadBytes as).length = start at hsplit
  -- the three fields between those that stay
  have hb₀ : p.bytes = (p.bytes.take 16 ++ (front ++ (leBytes 8 o.incarnation ++
      (leBytes 4 o.root.block ++ leBytes 2 o.root.offset)))) ++ (leBytes 1 o.publication.code ++
        (leBytes 1 (if o.live then 1 else 0) ++ (leBytes 4 o.tokens ++ (leBytes 4 o.terms ++
          (leBytes 4 o.dataHead ++ (leBytes 4 o.dataBytes ++
            (leBytes 2 (if o.inline = [] then 0 else start) ++ (leBytes 2 o.inline.length ++
              (leBytes 4 0 ++ (rest' ++ rest)))))))))) := by
    conv_lhs => rw [hbytes, hsplit o rfl, slotBytes]
    simp only [List.append_assoc]
  obtain ⟨q₁, hput₁, h₁⟩ := put_at (ownerHeader + as.length * ownerBytes + 14)
    (leBytes 1 x.publication.code) hb₀
    (by
      simp only [List.length_append, Reader.length_leBytes, hfront, ← hplace]
      omega)
    (by rw [Reader.length_leBytes, Reader.length_leBytes])
  have hb₁ := h₁.bytes
  rw [← List.append_assoc] at hb₁
  obtain ⟨q₂, hput₂, h₂⟩ := put_at (ownerHeader + as.length * ownerBytes + 15)
    (leBytes 1 (if x.live then 1 else 0)) hb₁
    (by
      simp only [List.length_append, Reader.length_leBytes, hfront, ← hplace]
      omega)
    (by rw [Reader.length_leBytes, Reader.length_leBytes])
  have hb₂ := h₂.bytes
  rw [← List.append_assoc, ← List.append_assoc, ← List.append_assoc] at hb₂
  obtain ⟨q₃, hput₃, h₃⟩ := put_at (ownerHeader + as.length * ownerBytes + 24)
    (leBytes 4 x.dataHead) hb₂
    (by
      simp only [List.length_append, Reader.length_leBytes, hfront, ← hplace]
      omega)
    (by rw [Reader.length_leBytes, Reader.length_leBytes])
  have hbecomes := (h₁.trans h₂).trans h₃
  simp only [List.append_assoc] at hbecomes
  refine ⟨q₃, ?_, h.becomes rest ?_ ?_, h.page_eq hbecomes⟩
  · have hchanged : changed o change =
        .ok (x.publication.code, if x.live then 1 else 0, x.dataHead) := by
      rw [changed_eq, happly]
      rfl
    rw [changeOwner, check_bind h.owner.1, Read.ensure_bind rfl, Read.ofExcept_bind hchanged]
    exact (Read.ok_bind hput₁).trans ((Read.ok_bind hput₂).trans hput₃)
  · have hlen : payloadsAt (as ++ x :: bs).length + (payloadBytes (as ++ x :: bs)).length =
        p.len := by
      rw [h.len, payloadBytes_append, payloadBytes_append, payloadBytes_cons, payloadBytes_cons,
        hinline]
      simp only [List.length_append, List.length_cons]
    rw [hlen, hsplit x hinline, slotBytes, hinc, hroot, htokens, hterms, hdata, hinline]
    rw [h₂.len, h₁.len] at hbecomes
    simp only [List.append_assoc] at hbecomes ⊢
    exact hbecomes
  · intro y hy
    rcases List.mem_append.1 hy with hy | hy
    · exact h.ok y (List.mem_append_left _ hy)
    · rcases List.mem_cons.1 hy with rfl | hy
      · exact hok
      · exact h.ok y (List.mem_append_right _ (List.mem_cons_of_mem _ hy))


/-! ### Calls -/

theorem freshSlot_ok {incarnation tokens terms : ℕ} {root : RootTid} {payload : List UInt8}
    (hinc : incarnation ≠ 0 ∧ incarnation < 2 ^ 64)
    (hroot : root.Valid layout ∧ root.block < 2 ^ 32)
    (hdoc : tokens ≤ maxDocumentTokens ∧ terms ≤ tokens ∧ 16 ≤ payload.length ∧
      payload.length ≤ maxDocumentBytes) :
    (freshSlot incarnation root tokens terms payload).Ok layout ∧
      (freshSlot incarnation root tokens terms payload).InRange := by
  refine ⟨⟨hinc.1, hroot.1, nofun, hdoc.1, hdoc.2.1, hdoc.2.2.1, hdoc.2.2.2,
    (by decide : noBlock ≠ 0), ?_, ?_, fun _ => rfl⟩, hinc.2, hroot.2,
    (by decide : noBlock < 2 ^ 32)⟩
  · intro hi
    rw [freshSlot] at hi
    dsimp only at hi
    split_ifs at hi with hle
    · rw [freshSlot]
      exact ⟨by rw [if_pos hle], rfl⟩
    · exact absurd rfl hi
  · rintro (h | h) <;> cases h

/-- A change keeps a slot valid. -/
theorem apply_ok {change : OwnerChange} {x : OwnerSlot} (hok : o.Ok layout ∧ o.InRange)
    (hhead : ∀ head, change = .payloadReady head → head < 2 ^ 32) (h : change.apply o = .ok x) :
    x.Ok layout ∧ x.InRange := by
  obtain ⟨hok, hr⟩ := hok
  cases change with
  | payloadReady head =>
    rw [OwnerChange.apply] at h
    split_ifs at h with hp hbad
    cases h
    rw [not_or, not_and, not_and, not_not, not_not] at hbad
    refine ⟨⟨hok.incarnation, hok.root, nofun, hok.tokens, hok.terms, hok.minBytes, hok.maxBytes,
      ?_, fun hi => ⟨(hok.inline hi).1, hbad.2 hi⟩, fun _ hi => (hbad.1 hi).2, nofun⟩,
      hr.incarnation, hr.root, hhead head rfl⟩
    by_cases hi : o.inline = []
    · exact (hbad.1 hi).1
    · exact (hbad.2 hi).symm ▸ (by decide : noBlock ≠ 0)
  | publish =>
    rw [OwnerChange.apply] at h
    split_ifs at h with hp
    cases h
    exact ⟨⟨hok.incarnation, hok.root, fun _ => rfl, hok.tokens, hok.terms, hok.minBytes,
      hok.maxBytes, hok.dataHead, hok.inline, fun _ => hok.payload (.inl hp), nofun⟩,
      hr.incarnation, hr.root, hr.dataHead⟩
  | remove =>
    rw [OwnerChange.apply] at h
    split_ifs at h with hp
    cases h
    exact ⟨⟨hok.incarnation, hok.root, nofun, hok.tokens, hok.terms, hok.minBytes, hok.maxBytes,
      (by decide : noBlock ≠ 0), fun hi => ⟨(hok.inline hi).1, rfl⟩,
      fun h => h.elim nofun nofun, nofun⟩, hr.incarnation, hr.root,
      (by decide : noBlock < 2 ^ 32)⟩
  | abandon =>
    rw [OwnerChange.apply] at h
    split_ifs at h with hp
    cases h
    exact ⟨⟨hok.incarnation, hok.root, nofun, hok.tokens, hok.terms, hok.minBytes, hok.maxBytes,
      (by decide : noBlock ≠ 0), fun hi => ⟨(hok.inline hi).1, rfl⟩,
      fun h => h.elim nofun nofun, nofun⟩, hr.incarnation, hr.root,
      (by decide : noBlock < 2 ^ 32)⟩

/-- An append gives a new last slot or leaves the image alone, as in the page model. -/
theorem HoldsSlots.appendOwner (h : HoldsSlots p layout slots) {incarnation tokens terms : ℕ}
    {root : RootTid} {payload : List UInt8} (hinc : incarnation ≠ 0 ∧ incarnation < 2 ^ 64)
    (hroot : root.Valid layout ∧ root.block < 2 ^ 32) :
    (∃ q, Image.appendOwner incarnation root tokens terms payload p =
        (.ok (some ⟨p.block, slots.length, incarnation⟩), q) ∧
      HoldsSlots q layout (slots ++ [freshSlot incarnation root tokens terms payload]) ∧
      q.block = p.block ∧ (p.page slots).appendOwner incarnation root tokens terms payload =
        .ok (some (⟨p.block, slots.length, incarnation⟩,
          q.page (slots ++ [freshSlot incarnation root tokens terms payload])))) ∨
    (Image.appendOwner incarnation root tokens terms payload p = (.ok none, p) ∧
      (p.page slots).appendOwner incarnation root tokens terms payload = .ok none) ∨
    (Image.appendOwner incarnation root tokens terms payload p = (.error .invalidDocument, p) ∧
      (p.page slots).appendOwner incarnation root tokens terms payload =
        .error .invalidDocument) := by
  have hslots : (p.page slots).slots = .ok slots := rfl
  by_cases hdoc : tokens ≤ maxDocumentTokens ∧ terms ≤ tokens ∧ 16 ≤ payload.length ∧
      payload.length ≤ maxDocumentBytes
  · have hgood : ¬ (maxDocumentTokens < tokens ∨ tokens < terms ∨ payload.length < 16 ∨
        maxDocumentBytes < payload.length) := by omega
    by_cases hroom : p.len + ownerBytes +
        (freshSlot incarnation root tokens terms payload).inline.length ≤ capacity
    · obtain ⟨q, hq, hholds, hpage⟩ := h.append rfl (freshSlot_ok hinc hroot hdoc) hdoc hroom
      refine .inl ⟨q, hq, hholds, congrArg (fun f => (f []).block) hpage, ?_⟩
      rw [Page.appendOwner, hslots, ok_bind, if_neg hgood, h.page_len, hpage]
      exact if_neg (Nat.not_lt.2 hroom)
    · refine .inr (.inl ⟨?_, ?_⟩)
      · rw [Image.appendOwner, check_bind h.ownerCount, Read.ensure_bind hdoc, Read.cursor_bind]
        exact congrFun (if_pos (Nat.not_le.1 hroom)) p
      · rw [Page.appendOwner, hslots, ok_bind, if_neg hgood, h.page_len]
        exact if_pos (Nat.not_le.1 hroom)
  · refine .inr (.inr ⟨?_, ?_⟩)
    · rw [Image.appendOwner, check_bind h.ownerCount]
      exact Read.error_bind (congrFun (if_neg hdoc) p)
    · rw [Page.appendOwner, hslots, ok_bind, if_pos (by omega)]

/-- A change moves the slot that it names or leaves the image alone, as in the page model. -/
theorem HoldsSlots.changeOwner (h : HoldsSlots p layout slots) {reference : OwnerRef}
    {change : OwnerChange} (hhead : ∀ head, change = .payloadReady head → head < 2 ^ 32) :
    (∃ o x q, slots[reference.slot]? = some o ∧
        reference = ⟨p.block, reference.slot, o.incarnation⟩ ∧ change.apply o = .ok x ∧
        Image.changeOwner reference change layout p = (.ok ⟨⟩, q) ∧
        HoldsSlots q layout (slots.set reference.slot x) ∧ q.block = p.block ∧
        (p.page slots).changeOwner reference change layout =
          .ok (q.page (slots.set reference.slot x))) ∨
    ∃ e, Image.changeOwner reference change layout p = (.error e, p) ∧
      (p.page slots).changeOwner reference change layout = .error e := by
  have hslots : (p.page slots).slots = .ok slots := rfl
  cases hget : slots[reference.slot]? with
  | none =>
    refine .inr ⟨.codec, check_error (h.owner_none (List.getElem?_eq_none_iff.1 hget)), ?_⟩
    rw [Page.changeOwner, Page.owner, hslots, ok_bind, hget]
    rfl
  | some o =>
    have howner := h.owner_at hget
    have hok := h.ok o (List.mem_of_getElem? hget)
    have hpage : (p.page slots).owner reference.slot layout =
        .ok ⟨⟨p.block, reference.slot, o.incarnation⟩, o⟩ := by
      rw [Page.owner, hslots, ok_bind, hget]
      exact if_pos hok.1
    by_cases href : reference = ⟨p.block, reference.slot, o.incarnation⟩
    · have hsame : ¬ (⟨p.block, reference.slot, o.incarnation⟩ : OwnerRef) ≠ reference :=
        not_not.2 href.symm
      cases happly : change.apply o with
      | error e =>
        have hchanged : changed o change = .error e := by
          rw [changed_eq, happly]
          rfl
        refine .inr ⟨e, ?_, ?_⟩
        · rw [Image.changeOwner, check_bind howner, Read.ensure_bind href.symm, hchanged]
          rfl
        · rw [Page.changeOwner, hpage, ok_bind, if_neg hsame, happly]
          rfl
      | ok x =>
        obtain ⟨hlt, hat⟩ := List.getElem?_eq_some_iff.1 hget
        have hsplit : slots =
            slots.take reference.slot ++ o :: slots.drop (reference.slot + 1) := by
          rw [← hat, ← List.drop_eq_getElem_cons hlt, List.take_append_drop]
        obtain ⟨q, hq, hholds, hsame'⟩ :=
          HoldsSlots.change (hsplit ▸ h) happly (apply_ok hok hhead happly)
        rw [List.length_take_of_le hlt.le, ← href] at hq
        refine .inl ⟨o, x, q, rfl, href, happly, hq, ?_,
          congrArg (fun f => (f []).block) hsame', ?_⟩
        · rwa [List.set_eq_take_append_cons_drop, if_pos hlt]
        · rw [Page.changeOwner, hpage, ok_bind, if_neg hsame, happly, ok_bind, hslots, ok_bind,
            hsame']
          rfl
    · refine .inr ⟨.codec, ?_, ?_⟩
      · rw [Image.changeOwner, check_bind howner]
        exact Read.error_bind (congrFun (if_neg fun h => href h.symm) p)
      · rw [Page.changeOwner, hpage, ok_bind]
        exact if_pos fun h => href h.symm


end

end PinCore
