import PinCore.Grouped.Members
import PinCore.Lib.Crash

/-!
# What opening a record establishes

The fields of an opened record are in range, the widths in its directory fit the layout, and an
opened segment group has decodable liveness on every page of its summary.
-/

namespace PinCore

namespace Grouped

section

variable {bytes members live : List UInt8} {h : Header} {b : Bitmap} {m : Members}
  {s : SegmentGroup}
  {page mask width n at' total r k : ℕ}

theorem require_ok {c : Prop} [Decidable c] {e : Error} {u : Unit} (h : require c e = .ok u) :
    c := by
  unfold require at h
  split_ifs at h with hc
  exact hc

theorem forM_ok {α : Type} {f : α → Except Error Unit} {l : List α} {u : Unit}
    (h : l.forM f = .ok u) : ∀ x ∈ l, f x = .ok () := by
  induction l with
  | nil => exact fun x hx => absurd hx List.not_mem_nil
  | cons a l ih =>
    obtain ⟨_, ha, hl⟩ := ok_of_bind (show f a >>= (fun _ => l.forM f) = .ok u from h)
    intro x hx
    rcases List.mem_cons.1 hx with rfl | hx
    · exact ha
    · exact ih hl x hx

theorem forM_of {α : Type} {f : α → Except Error Unit} {l : List α} (h : ∀ x ∈ l, f x = .ok ()) :
    l.forM f = .ok () := by
  induction l with
  | nil => rfl
  | cons a l ih =>
    change (f a >>= fun _ => l.forM f) = _
    rw [h a List.mem_cons_self, ok_bind, ih fun x hx => h x (List.mem_cons_of_mem _ hx)]

theorem leAt_lt (bytes : List UInt8) (offset width : ℕ) : leAt bytes offset width < 256 ^ width :=
  Nat.lt_of_lt_of_le (Reader.leNat_lt _)
    (Nat.pow_le_pow_right (by decide) (List.length_take_le _ _))

theorem field_ok {offset v : ℕ} (h : field bytes offset width = .ok v) :
    v = leAt bytes offset width := by
  unfold field at h
  split_ifs at h
  exact (Except.ok.inj h).symm

/-- The ranges of a header. -/
structure Header.InRange (h : Header) : Prop where
  base : h.key.base % 256 = 0
  last : ¬ (h.key.base = 4294967040 ∧ h.mask.testBit 255 = true)
  maxOffset : 0 < h.key.maxOffset ∧ h.key.maxOffset ≤ 512
  mask : h.mask < 2 ^ 256
  block : h.key.base < 2 ^ 32

theorem Header.read_inRange (hr : Header.read bytes = .ok h) : h.InRange := by
  unfold Header.read at hr
  -- magic, version, kind, reserved byte and length, each with its check
  iterate 10 obtain ⟨_, -, hr⟩ := ok_of_bind hr
  obtain ⟨base, hbase, hr⟩ := ok_of_bind hr
  iterate 4 obtain ⟨_, -, hr⟩ := ok_of_bind hr
  obtain ⟨maxOffset, -, hr⟩ := ok_of_bind hr
  obtain ⟨_, hmax, hr⟩ := ok_of_bind hr
  iterate 2 obtain ⟨_, -, hr⟩ := ok_of_bind hr
  obtain ⟨mask, hmask, hr⟩ := ok_of_bind hr
  obtain ⟨_, halign, hr⟩ := ok_of_bind hr
  obtain ⟨_, hlast, hr⟩ := ok_of_bind hr
  obtain rfl := Except.ok.inj hr
  have hmax := require_ok hmax
  exact ⟨require_ok halign, (require_ok hlast).2, ⟨Nat.pos_of_ne_zero hmax.1, hmax.2⟩,
    by rw [field_ok hmask]; exact leAt_lt bytes 40 32,
    by rw [field_ok hbase]; exact leAt_lt bytes 12 4⟩

/-- Every page of a record of the group has a heap block. -/
theorem Header.InRange.block_eq (hr : h.InRange) (hp : h.mask.testBit page = true) :
    h.key.block page = .ok (h.key.base + page) := by
  refine if_neg fun heq => hr.last ?_
  have hlt := testBit_lt hr.mask hp
  have h₁ := hr.base
  have h₂ := hr.block
  rw [noBlock] at heq
  have hpage : page = 255 := by omega
  exact ⟨by omega, hpage ▸ hp⟩

/-! ### Bitmaps -/

theorem directoryEnd_width (hd : Bitmap.directoryEnd bytes width n at' total = .ok r) :
    ∀ k < n, leAt bytes (at' + k * 4 + 2) 1 ≤ width := by
  induction n generalizing at' total with
  | zero => exact fun k hk => absurd hk (Nat.not_lt_zero _)
  | succ n ih =>
    rw [Bitmap.directoryEnd] at hd
    split_ifs at hd with hc
    rw [not_or, not_or, not_or] at hc
    intro k hk
    cases k with
    | zero => simpa using hc.2.2.1
    | succ k =>
      have := ih hd k (Nat.lt_of_succ_lt_succ hk)
      rwa [show at' + (k + 1) * 4 = at' + 4 + k * 4 by omega]

/-- What an opened bitmap is known to satisfy. -/
structure Bitmap.Opened (b : Bitmap) : Prop where
  inRange : Header.InRange ⟨b.key, 0, 0, b.mask⟩
  width : ∀ k < (setBits b.mask 256).length,
    leAt b.bytes (bitmapHeader + k * 4 + 2) 1 ≤ (b.key.maxOffset + 7) / 8

theorem Bitmap.openRecord_opened (ho : Bitmap.openRecord bytes = .ok b) : b.Opened := by
  unfold Bitmap.openRecord at ho
  split_ifs at ho
  obtain ⟨h, hread, ho⟩ := ok_of_bind ho
  obtain ⟨_, -, ho⟩ := ok_of_bind ho
  obtain ⟨_, -, ho⟩ := ok_of_bind ho
  obtain ⟨total, hdir, ho⟩ := ok_of_bind ho
  obtain ⟨_, -, ho⟩ := ok_of_bind ho
  obtain rfl := Except.ok.inj ho
  have hr := Header.read_inRange hread
  exact ⟨⟨hr.base, hr.last, hr.maxOffset, hr.mask, hr.block⟩, directoryEnd_width hdir⟩

theorem rank_lt (hp : mask.testBit page = true) (hlt : page < n) :
    (setBits mask page).length < (setBits mask n).length := by
  have hsub : (setBits mask (page + 1)).length ≤ (setBits mask n).length :=
    ((List.range_sublist.2 hlt).filter _).length_le
  rw [setBits, List.range_succ, List.filter_append, List.filter_cons_of_pos hp,
    List.length_append] at hsub
  exact hsub

/-- A decoded payload fits the fixed-size scratch. -/
theorem Bitmap.Opened.offsets_lt (ho : b.Opened) (hm : b.offsets page = .ok mask) :
    mask < 2 ^ 512 := by
  have hpow : (2 : ℕ) ^ 512 = 256 ^ 64 := by
    rw [show (256 : ℕ) = 2 ^ 8 from rfl, ← Nat.pow_mul]
  unfold Bitmap.offsets at hm
  cases hspan : b.span page with
  | none =>
    rw [hspan] at hm
    obtain rfl := Except.ok.inj hm
    rw [hpow]
    exact Nat.pow_pos (by decide)
  | some x =>
    obtain ⟨start, len⟩ := x
    rw [hspan] at hm
    simp only at hm
    split_ifs at hm
    obtain rfl := Except.ok.inj hm
    unfold Bitmap.span at hspan
    split_ifs at hspan with hp
    rw [Option.some.injEq, Prod.mk.injEq] at hspan
    have hlen := ho.width _ (rank_lt hp (testBit_lt ho.inRange.mask hp))
    rw [hspan.2] at hlen
    have hmax := ho.inRange.maxOffset.2
    simp only at hmax
    rw [hpow]
    exact Nat.lt_of_lt_of_le (leAt_lt _ _ _) (Nat.pow_le_pow_right (by decide) (by omega))

theorem Bitmap.offsets_absent (hp : b.mask.testBit page = false) : b.offsets page = .ok 0 := by
  unfold Bitmap.offsets Bitmap.span
  rw [if_neg (by rw [hp]; decide)]

theorem Bitmap.validateAll_ok {u : Unit} (ho : b.Opened) (hv : b.validateAll = .ok u) (page : ℕ) :
    ∃ mask, b.offsets page = .ok mask := by
  cases hp : b.mask.testBit page with
  | false => exact ⟨0, Bitmap.offsets_absent hp⟩
  | true =>
    have hm := mem_setBits.2 ⟨testBit_lt ho.inRange.mask hp, hp⟩
    obtain ⟨mask, hmask, -⟩ := ok_of_bind (forM_ok hv page hm)
    exact ⟨mask, hmask⟩

/-! ### Segment groups -/

/-- What an opened segment group is known to satisfy. -/
structure SegmentGroup.Opened (s : SegmentGroup) : Prop where
  live : s.live.Opened
  key : s.live.key = s.key
  decodes : ∀ page, ∃ mask, s.live.offsets page = .ok mask

theorem SegmentGroup.openGroup_opened (ho : SegmentGroup.openGroup members live = .ok s) :
    s.Opened := by
  obtain ⟨m, -, ho⟩ := ok_of_bind ho
  obtain ⟨b, hb, ho⟩ := ok_of_bind ho
  obtain ⟨_, hsame, ho⟩ := ok_of_bind ho
  obtain ⟨_, hpages, ho⟩ := ok_of_bind ho
  obtain rfl := Except.ok.inj ho
  have hopen := Bitmap.openRecord_opened hb
  obtain ⟨-, hkey, hmask⟩ := require_ok hsame
  refine ⟨hopen, hkey, fun page => ?_⟩
  cases hp : b.mask.testBit page with
  | false => exact ⟨0, Bitmap.offsets_absent hp⟩
  | true =>
    have hm := mem_setBits.2 ⟨testBit_lt hopen.inRange.mask hp, hp⟩
    simp only [hmask] at hm
    obtain ⟨all, -, hpage⟩ := ok_of_bind (forM_ok hpages page hm)
    obtain ⟨mask, hmask', -⟩ := ok_of_bind hpage
    exact ⟨mask, hmask'⟩

end

end Grouped

end PinCore
