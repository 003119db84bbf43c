import PinCore.Image.Decoders

/-!
# Sealed pages

A builder holds the references that it accepted: its page has their bytes, and finished it gives
them back.  A push that finds no room, or a reference out of order, leaves the builder alone.
-/

namespace PinCore

open Reader

namespace Image

/-! ### The bytes of a posting page -/

/-- An accepted reference with the root of its owner, which only direct pages store. -/
abbrev Accepted := OwnerRef × RootTid

/-- The bytes of the term and the count in the header. -/
def tagBytes (term : TermRef) (n : ℕ) : List UInt8 :=
  leBytes 4 term.page ++ (leBytes 2 term.offset ++ leBytes 2 n)

/-- The bytes of a coordinate on a direct page. -/
def rootBytes (root : RootTid) : List UInt8 :=
  leBytes 4 root.block ++ (leBytes 2 root.offset ++ (leBytes 1 1 ++ leBytes 1 0))

/-- The bytes of the coordinates, which a direct page has. -/
def rootsBytes (direct : Bool) (entries : List Accepted) : List UInt8 :=
  if direct then entries.flatMap fun e => rootBytes e.2 else []

/-- The bytes in front of the compressed references. -/
def headLen (direct : Bool) (n : ℕ) : ℕ := if direct then directHeader + n * 8 else postingHeader

/-- The first and the last reference in the header of a direct page. -/
def Ends (direct : Bool) (owners : List OwnerRef) (ends : List UInt8) : Prop :=
  ends.length = (if direct then 32 else 0) ∧
    (direct = true → ∀ first ∈ owners.head?, ∀ last ∈ owners.getLast?,
      ends = first.bytes ++ last.bytes)

/-- What follows the common header of a page. -/
def postingBytes (direct : Bool) (term : TermRef) (ends : List UInt8) (entries : List Accepted) :
    List UInt8 :=
  tagBytes term entries.length ++ (ends ++ (rootsBytes direct entries ++
    streamBytes none (entries.map Prod.fst)))

namespace SealedBuilder

/-- The builder has accepted the entries. -/
structure Holds (b : SealedBuilder) (direct : Bool) (term : TermRef) (entries : List Accepted) :
    Prop where
  kind : b.page.kind = if direct then .directPostings else .sealedPostings
  next : b.page.checkNext = .ok ⟨⟩
  block : b.page.checkBlock = .ok ⟨⟩
  tag : blockValid term.page ∧ pageHeader ≤ term.offset ∧ term.page < 2 ^ 32 ∧ term.offset < 2 ^ 16
  count : b.count = entries.length
  previous : b.previous = (entries.map Prod.fst).getLast?
  len : b.page.len = headLen direct entries.length + streamLen none (entries.map Prod.fst)
  bytes : ∃ front ends rest, front.length = 16 ∧ Ends direct (entries.map Prod.fst) ends ∧
    b.page.bytes = front ++ (postingBytes direct term ends entries ++ rest)
  chained : Chained none (entries.map Prod.fst)
  inRange : ∀ e ∈ entries, e.1.InRange ∧ e.2.block < 2 ^ 32 ∧ e.2.offset < 2 ^ 16

end SealedBuilder

section

variable {b : SealedBuilder} {direct : Bool} {term : TermRef} {entries : List Accepted}
  {owners : List OwnerRef} {o : OwnerRef} {root : RootTid} {p q : Image} {n : ℕ}
  {ends : List UInt8}

theorem length_tagBytes : (tagBytes term n).length = 8 := by
  simp only [tagBytes, List.length_append, Reader.length_leBytes]

theorem length_rootBytes : (rootBytes root).length = 8 := by
  simp only [rootBytes, List.length_append, Reader.length_leBytes]

theorem length_rootsBytes :
    (rootsBytes direct entries).length = if direct then entries.length * 8 else 0 := by
  cases direct with
  | false => rfl
  | true =>
    rw [rootsBytes, if_pos rfl, if_pos rfl]
    induction entries with
    | nil => rfl
    | cons e entries ih =>
      rw [List.flatMap_cons, List.length_append, length_rootBytes, ih, List.length_cons,
        Nat.succ_mul, Nat.add_comm]

/-- The header takes the bytes in front of the stream. -/
theorem length_postingHead (he : Ends direct owners ends) :
    16 + ((tagBytes term entries.length).length +
      (ends.length + (rootsBytes direct entries).length)) =
      headLen direct entries.length := by
  rw [length_tagBytes, length_rootsBytes, he.1, headLen]
  cases direct <;> simp only [Bool.false_eq_true, if_false, if_true, directHeader, postingHeader]
  omega

theorem length_postingBytes (he : Ends direct owners ends) :
    16 + (postingBytes direct term ends entries).length =
      headLen direct entries.length + streamLen none (entries.map Prod.fst) := by
  rw [postingBytes, List.length_append, List.length_append, List.length_append,
    length_streamBytes, ← @length_postingHead direct term entries _ ends he]
  omega

theorem le_headLen : 16 ≤ headLen direct n := by
  rw [headLen]
  split_ifs
  · rw [directHeader, postingHeader]
    omega
  · decide

namespace SealedBuilder

theorem Holds.front (h : b.Holds direct term entries) : ∃ ends rest,
    Ends direct (entries.map Prod.fst) ends ∧
      b.page.bytes = b.page.bytes.take 16 ++ (postingBytes direct term ends entries ++ rest) ∧
      (b.page.bytes.take 16).length = 16 ∧ b.page.len + rest.length = capacity := by
  obtain ⟨front, ends, rest, hfront, hends, hbytes⟩ := h.bytes
  have hsame : b.page.bytes.take 16 = front := by rw [hbytes, List.take_left' hfront]
  refine ⟨ends, rest, hends, hsame ▸ hbytes, hsame ▸ hfront, ?_⟩
  rw [← b.page.size, hbytes, List.length_append, List.length_append, hfront, h.len,
    ← @length_postingBytes direct term entries _ ends hends]
  omega

/-- A page with the same header and one more entry. -/
theorem Holds.becomes (h : b.Holds direct term entries) (rest : List UInt8)
    (hq : Becomes b.page q (headLen direct (entries.length + 1) +
        streamLen none (entries.map Prod.fst ++ [o]))
      (b.page.bytes.take 16 ++ (postingBytes direct term ends (entries ++ [(o, root)]) ++ rest)))
    (hends : Ends direct (entries.map Prod.fst ++ [o]) ends)
    (hdelta : PinCore.SealedBuilder.DeltaOk o b.previous)
    (hr : o.InRange ∧ root.block < 2 ^ 32 ∧ root.offset < 2 ^ 16) :
    (⟨q, some o, b.count + 1⟩ : SealedBuilder).Holds direct term (entries ++ [(o, root)]) := by
  obtain ⟨-, -, -, -, hfront, -⟩ := h.front
  have howners : (entries ++ [(o, root)]).map Prod.fst = entries.map Prod.fst ++ [o] := by
    rw [List.map_append, List.map_singleton]
  have hsame : SameFront 16 b.page q := by
    refine ⟨hq.block, hq.kind, ?_, ?_, ?_⟩
    · rw [hq.bytes, List.take_left' hfront]
    · rw [h.len]
      exact Nat.le_add_right_of_le le_headLen
    · rw [hq.len]
      exact Nat.le_add_right_of_le le_headLen
  refine ⟨hsame.kind.trans h.kind, (hsame.checkNext le_rfl).trans h.next,
    hsame.checkBlock.trans h.block, h.tag, ?_, ?_, ?_, ⟨_, ends, rest, hfront, ?_, hq.bytes⟩,
      ?_, ?_⟩
  · rw [List.length_append, List.length_singleton, h.count]
  · rw [howners, List.getLast?_concat]
  · rw [howners, List.length_append, List.length_singleton]
    exact hq.len
  · rwa [howners]
  · rw [howners, chained_concat, Option.or_none, ← h.previous]
    exact ⟨h.chained, hdelta⟩
  · intro e he
    rcases List.mem_append.1 he with he | he
    · exact h.inRange e he
    · rwa [List.mem_singleton.1 he]

end SealedBuilder

/-! ### Pushing -/

theorem onPage_bind {β : Type} {x : Edit PUnit} {f : PUnit → Build β} (h : x b.page = (.ok ⟨⟩, q)) :
    (onPage x >>= f) b = f ⟨⟩ { b with page := q } :=
  Read.ok_bind (by rw [onPage, h])

theorem put_count {front rest : List UInt8} (hb : p.bytes = front ++ (tagBytes term n ++ rest))
    (hf : front.length = 16) : ∃ q, putU16 22 (n + 1) p = (.ok ⟨⟩, q) ∧
      Becomes p q p.len (front ++ (tagBytes term (n + 1) ++ rest)) := by
  have hb' : p.bytes = (front ++ (leBytes 4 term.page ++ leBytes 2 term.offset)) ++
      (leBytes 2 n ++ rest) := by
    rw [hb, tagBytes]
    simp only [List.append_assoc]
  obtain ⟨q, hput, hbecomes⟩ := put_at 22 (leBytes 2 (n + 1)) hb'
    (show _ = 22 by simp only [List.length_append, Reader.length_leBytes, hf])
    (by rw [Reader.length_leBytes, Reader.length_leBytes])
  refine ⟨q, hput, ?_⟩
  rw [tagBytes]
  simp only [List.append_assoc] at hbecomes ⊢
  exact hbecomes

theorem fill_delta {previous : Option OwnerRef} (h : PinCore.SealedBuilder.DeltaOk o previous) :
    ∃ bytes, Writer.fill 20 (writeDelta o previous) = .ok (deltaLen previous o, bytes) ∧
      bytes.take (deltaLen previous o) = refBytes previous o := by
  have hle : (refBytes previous o).length ≤ 20 := by
    rw [length_refBytes]
    exact deltaLen_bounds.2
  have hfill := (writeDelta_writes h).fill hle (by decide)
  rw [length_refBytes] at hfill
  refine ⟨_, hfill, ?_⟩
  rw [← length_refBytes, List.take_left]

theorem fill_delta_error {previous : Option OwnerRef}
    (h : ¬ PinCore.SealedBuilder.DeltaOk o previous) :
    Writer.fill 20 (writeDelta o previous) = .error .invalidState := by
  rw [Writer.fill, writeDelta_error h]

theorem streamLen_push : streamLen none (owners ++ [o]) =
    streamLen none owners + deltaLen owners.getLast? o := by
  rw [streamLen_concat, Option.or_none]

namespace SealedBuilder

/-- The last step of a push. -/
theorem pushed_eq (h : putU16 22 (b.count + 1) b.page = (.ok ⟨⟩, q)) :
    pushed o b = (.ok ⟨⟩, ⟨q, some o, b.count + 1⟩) := by
  rw [pushed, Read.cursor_bind, onPage_bind h]
  rfl

theorem Holds.push_room (h : b.Holds false term entries)
    (hdelta : PinCore.SealedBuilder.DeltaOk o b.previous)
    (hr : o.InRange ∧ root.block < 2 ^ 32 ∧ root.offset < 2 ^ 16)
    (hroom : b.page.len + deltaLen b.previous o ≤ capacity) :
    ∃ q, push o b = (.ok true, ⟨q, some o, b.count + 1⟩) ∧
      (⟨q, some o, b.count + 1⟩ : SealedBuilder).Holds false term (entries ++ [(o, root)]) ∧
      q.block = b.page.block ∧ Grouped.leAt q.bytes 12 4 = Grouped.leAt b.page.bytes 12 4 ∧
      q.initializes = b.page.initializes := by
  obtain ⟨ends, rest, hends, hbytes, hfront, hfree⟩ := h.front
  obtain ⟨bytes, hfill, htake⟩ := fill_delta hdelta
  -- the reference goes behind the stream
  have hb₀ : b.page.bytes = (b.page.bytes.take 16 ++ postingBytes false term ends entries) ++
      (rest.take (deltaLen b.previous o) ++ rest.drop (deltaLen b.previous o)) := by
    conv_lhs => rw [hbytes]
    rw [List.take_append_drop, List.append_assoc]
  obtain ⟨q₁, hput, h₁⟩ := put_at b.page.len (refBytes b.previous o) hb₀
    (by rw [List.length_append, hfront, length_postingBytes hends, h.len])
    (by rw [List.length_take_of_le (by omega), length_refBytes])
  obtain ⟨q₂, hset, h₂⟩ := setLen_at (p := q₁) hroom
  have hb₂ := h₂.bytes.trans h₁.bytes
  rw [postingBytes] at hb₂
  simp only [List.append_assoc] at hb₂
  obtain ⟨q₃, hcount, h₃⟩ := put_count hb₂ hfront
  have hbecomes := (h₁.trans h₂).trans h₃
  refine ⟨q₃, ?_, h.becomes (rest.drop (deltaLen b.previous o)) ?_ ⟨hends.1, nofun⟩ hdelta hr,
    hbecomes.header hfront⟩
  · have hkind : b.page.kind = .sealedPostings := h.kind
    rw [push, Read.cursor_bind, Read.ensure_bind hkind, Read.ofExcept_bind hfill]
    dsimp only
    rw [if_neg (Nat.not_lt.2 hroom), htake, onPage_bind hput, onPage_bind hset]
    exact Read.ok_bind (pushed_eq (h.count ▸ hcount))
  · rw [streamLen_push, ← h.previous]
    have hlen : headLen false (entries.length + 1) + (streamLen none (entries.map Prod.fst) +
        deltaLen b.previous o) = b.page.len + deltaLen b.previous o := by
      rw [h.len, Nat.add_assoc]
      rfl
    have hstream : postingBytes false term ends (entries ++ [(o, root)]) =
        tagBytes term (entries.length + 1) ++ (ends ++ (rootsBytes false entries ++
          (streamBytes none (entries.map Prod.fst) ++ refBytes b.previous o))) := by
      rw [postingBytes, List.length_append, List.length_singleton, List.map_append,
        List.map_singleton, streamBytes_concat, Option.or_none, ← h.previous]
      rfl
    rw [hlen, hstream]
    rw [h₂.len] at hbecomes
    simp only [List.append_assoc] at hbecomes ⊢
    exact hbecomes

end SealedBuilder

theorem putOwner_eq (hv : o.Valid) (offset : ℕ) : putOwner offset o = put offset o.bytes := by
  have hlen : o.bytes.length = 16 := OwnerRef.length_bytes
  have hfill : Writer.fill 16 o.write = .ok (16, o.bytes) := by
    have h := (OwnerRef.write_writes hv).fill (show _ ≤ 16 from hlen.le) (by decide)
    rw [hlen, Nat.sub_self, List.replicate_zero, List.append_nil] at h
    exact h
  funext p
  rw [putOwner, Read.ofExcept_bind hfill]

/-- The first reference stays once it is there; the last one is replaced. -/
theorem put_ends {front rest : List UInt8} (count : ℕ) (hv : o.Valid)
    (hb : p.bytes = front ++ (tagBytes term n ++ (ends ++ rest))) (hf : front.length = 16)
    (hends : ends.length = 32) :
    ∃ q₁ q₂, (if count = 0 then putOwner postingHeader o else pure ⟨⟩ : Edit PUnit) p =
        (.ok ⟨⟩, q₁) ∧ putOwner (postingHeader + 16) o q₁ = (.ok ⟨⟩, q₂) ∧
      Becomes p q₂ p.len (front ++ (tagBytes term n ++
        (((if count = 0 then o.bytes else ends.take 16) ++ o.bytes) ++ rest))) := by
  have hlen : o.bytes.length = 16 := OwnerRef.length_bytes
  have hb₀ : p.bytes = (front ++ tagBytes term n) ++
      (ends.take 16 ++ (ends.drop 16 ++ rest)) := by
    rw [hb, ← List.append_assoc (ends.take 16), List.take_append_drop, List.append_assoc]
  have h24 : (front ++ tagBytes term n).length = postingHeader := by
    rw [List.length_append, hf, length_tagBytes, postingHeader]
  obtain ⟨q₁, hfirst, h₁⟩ : ∃ q₁, (if count = 0 then putOwner postingHeader o else pure ⟨⟩ :
      Edit PUnit) p = (.ok ⟨⟩, q₁) ∧ Becomes p q₁ p.len ((front ++ tagBytes term n) ++
        ((if count = 0 then o.bytes else ends.take 16) ++ (ends.drop 16 ++ rest))) := by
    by_cases hc : count = 0
    · rw [if_pos hc, if_pos hc, putOwner_eq hv]
      exact put_at _ _ hb₀ h24 (by rw [List.length_take_of_le (by omega), hlen])
    · rw [if_neg hc, if_neg hc]
      exact ⟨p, rfl, rfl, rfl, rfl, rfl, hb₀⟩
  have hb₁ := h₁.bytes
  rw [← List.append_assoc] at hb₁
  obtain ⟨q₂, hlast, h₂⟩ := put_at (postingHeader + 16) o.bytes hb₁
    (by
      rw [List.length_append, h24]
      split_ifs
      · rw [hlen]
      · rw [List.length_take_of_le (by omega)])
    (by rw [List.length_drop, hends, hlen])
  refine ⟨q₁, q₂, hfirst, by rw [putOwner_eq hv, hlast], ?_⟩
  have hbecomes := h₁.trans h₂
  rw [h₁.len] at hbecomes
  simp only [List.append_assoc] at hbecomes ⊢
  exact hbecomes

theorem ends_push (hends : Ends true owners ends) :
    Ends true (owners ++ [o]) ((if owners.length = 0 then o.bytes else ends.take 16) ++
      o.bytes) := by
  have hlen : o.bytes.length = 16 := OwnerRef.length_bytes
  obtain ⟨h32, hsame⟩ := hends
  rw [if_pos rfl] at h32
  refine ⟨?_, fun _ first hfirst last hlast => ?_⟩
  · rw [List.length_append, hlen, if_pos rfl]
    split_ifs
    · rw [hlen]
    · rw [List.length_take_of_le (by omega)]
  · rw [List.getLast?_concat] at hlast
    cases hlast
    cases owners with
    | nil =>
      cases hfirst
      rfl
    | cons a as =>
      obtain ⟨x, hx⟩ : ∃ x, (a :: as).getLast? = some x :=
        ⟨_, List.getLast?_eq_some_getLast (List.cons_ne_nil a as)⟩
      have hbytes := hsame rfl first hfirst x hx
      rw [if_neg (by rw [List.length_cons]; omega), hbytes, List.take_left' OwnerRef.length_bytes]

namespace SealedBuilder

theorem Holds.push_direct_room (h : b.Holds true term entries)
    (hdelta : PinCore.SealedBuilder.DeltaOk o b.previous)
    (hr : o.InRange ∧ root.block < 2 ^ 32 ∧ root.offset < 2 ^ 16)
    (hroom : b.page.len + deltaLen b.previous o + 8 ≤ capacity) :
    ∃ q, pushDirect o root b = (.ok true, ⟨q, some o, b.count + 1⟩) ∧
      (⟨q, some o, b.count + 1⟩ : SealedBuilder).Holds true term (entries ++ [(o, root)]) ∧
      q.block = b.page.block ∧ Grouped.leAt q.bytes 12 4 = Grouped.leAt b.page.bytes 12 4 ∧
      q.initializes = b.page.initializes := by
  obtain ⟨ends, rest, hends, hbytes, hfront, hfree⟩ := h.front
  obtain ⟨bytes, hfill, htake⟩ := fill_delta hdelta
  have hv : o.Valid := ⟨hdelta.2.1, hdelta.2.2, hr.1.2.2.1⟩
  have hlen := h.len
  have hstart : directHeader + b.count * 8 = headLen true entries.length := by
    rw [h.count]
    rfl
  -- the compressed references move up by one coordinate
  have hb₀ : b.page.bytes = (b.page.bytes.take 16 ++ (tagBytes term entries.length ++ (ends ++
      rootsBytes true entries))) ++ (streamBytes none (entries.map Prod.fst) ++ rest) := by
    conv_lhs => rw [hbytes, postingBytes]
    simp only [List.append_assoc]
  have hhead : (b.page.bytes.take 16 ++ (tagBytes term entries.length ++ (ends ++
      rootsBytes true entries))).length = headLen true entries.length := by
    rw [List.length_append, List.length_append, List.length_append, hfront,
      length_postingHead hends]
  obtain ⟨q₁, gap, rest₁, hcopy, hgap, hrest₁, h₁⟩ := copyWithin_at hb₀ hhead
    (show 8 ≤ rest.length by omega)
  rw [length_streamBytes, ← hlen] at hcopy
  obtain ⟨q₂, hroot, h₂⟩ := put_at _ (rootBytes root) h₁.bytes hhead
    (by rw [hgap, length_rootBytes])
  obtain ⟨q₃, hset, h₃⟩ := setLen_at (p := q₂) (show b.page.len + 8 ≤ capacity by omega)
  -- the new reference goes behind the others
  have hb₃ : q₃.bytes = (b.page.bytes.take 16 ++ (tagBytes term entries.length ++ (ends ++
      rootsBytes true entries)) ++ (rootBytes root ++ streamBytes none (entries.map Prod.fst))) ++
        (rest₁.take (deltaLen b.previous o) ++ rest₁.drop (deltaLen b.previous o)) := by
    rw [h₃.bytes, h₂.bytes, List.take_append_drop]
    simp only [List.append_assoc]
  obtain ⟨q₄, hput, h₄⟩ := put_at (b.page.len + 8) (refBytes b.previous o) hb₃
    (by
      rw [List.length_append, hhead, List.length_append, length_rootBytes, length_streamBytes, hlen]
      omega)
    (by rw [List.length_take_of_le (by omega), length_refBytes])
  obtain ⟨q₅, hset', h₅⟩ := setLen_at (p := q₄)
    (show b.page.len + 8 + deltaLen b.previous o ≤ capacity by omega)
  -- the ends of the page and its count
  have hb₅ := h₅.bytes.trans h₄.bytes
  simp only [List.append_assoc] at hb₅
  obtain ⟨q₆, q₇, hfirst, hlast, h₇⟩ := put_ends entries.length hv hb₅ hfront hends.1
  obtain ⟨q₈, hcount, h₈⟩ := put_count h₇.bytes hfront
  have hbecomes := (((((h₁.trans h₂).trans h₃).trans h₄).trans h₅).trans h₇).trans h₈
  have hlength : entries.length = (entries.map Prod.fst).length := List.length_map ..|>.symm
  refine ⟨q₈, ?_, h.becomes (rest₁.drop (deltaLen b.previous o)) ?_
    (hlength ▸ ends_push hends) hdelta hr, hbecomes.header hfront⟩
  · have hkind : b.page.kind = .directPostings := h.kind
    rw [pushDirect, Read.cursor_bind, Read.ensure_bind hkind, Read.ofExcept_bind hfill]
    dsimp only
    rw [if_neg (Nat.not_lt.2 hroom), htake, hstart, onPage_bind hcopy, onPage_bind hroot,
      onPage_bind hset, onPage_bind hput, onPage_bind hset', h.count, onPage_bind hfirst,
      onPage_bind hlast]
    exact Read.ok_bind (pushed_eq hcount)
  · have hroots : rootsBytes true (entries ++ [(o, root)]) = rootsBytes true entries ++ rootBytes
        root := by
      rw [rootsBytes, if_pos rfl, List.flatMap_append, List.flatMap_singleton, rootsBytes,
        if_pos rfl]
    have hstream : postingBytes true term ((if entries.length = 0 then o.bytes else ends.take 16) ++
        o.bytes) (entries ++ [(o, root)]) = tagBytes term (entries.length + 1) ++
          (((if entries.length = 0 then o.bytes else ends.take 16) ++ o.bytes) ++
            ((rootsBytes true entries ++ rootBytes root) ++
              (streamBytes none (entries.map Prod.fst) ++ refBytes b.previous o))) := by
      rw [postingBytes, List.length_append, List.length_singleton, hroots, List.map_append,
        List.map_singleton, streamBytes_concat, Option.or_none, ← h.previous]
    have hnewlen : headLen true (entries.length + 1) +
        streamLen none (entries.map Prod.fst ++ [o]) =
        b.page.len + 8 + deltaLen b.previous o := by
      rw [streamLen_push, ← h.previous, hlen, headLen, headLen, if_pos rfl, if_pos rfl]
      omega
    rw [hnewlen, hstream]
    rw [h₇.len, h₅.len] at hbecomes
    simp only [List.append_assoc] at hbecomes ⊢
    exact hbecomes

end SealedBuilder

end

end Image

end PinCore
