import PinCore.Grouped.Evaluate
import PinCore.Grouped.Membership

/-!
# Liveness images

The liveness image of a membership keeps the pages and widths of all its owners while bits are
cleared.  Any image of this shape opens with the membership; its live roots are its set bits.
-/

namespace PinCore

namespace Grouped

/-- All owners of a page, as a mask of offsets. -/
def Members.all (m : Members) (page : ℕ) : ℕ := (m.pageOffsets page).toOption.getD 0

/-- The liveness record of a membership with the live offsets `f`. -/
def Members.liveness (m : Members) (f : ℕ → ℕ) : Bitmap :=
  imageBitmap m.key .liveness m.header.mask (widths m.all) f

/-- Builds initial shared liveness from the complete membership.  (`encode_liveness` in the
source.) -/
def Members.encodeLiveness (m : Members) (output : List UInt8) : Except Error ℕ × List UInt8 :=
  encodeWith m.key .liveness m.header.mask m.pageOffsets output

/-- The set bits of the pages of a mask, as roots in ascending order. -/
def liveRoots (key : GroupKey) (mask : ℕ) (f : ℕ → ℕ) : List RootTid :=
  (setBits mask 256).flatMap fun page =>
    (setBits (f page) 512).map fun bit => ⟨key.base + page, bit + 1⟩

/-- Every live offset is that of an owner. -/
def Within (m : Members) (f : ℕ → ℕ) : Prop :=
  ∀ page ∈ setBits m.header.mask 256, ∀ bit, (f page).testBit bit = true →
    (m.all page).testBit bit = true

section

variable {m : Members} {ms : List Member} {f : ℕ → ℕ} {page bit mask : ℕ} {root : RootTid}
  {bytes output : List UInt8} {key : GroupKey} {x : Member}

theorem Members.Holds.mask_lt (hm : m.Holds ms) : m.header.mask < 2 ^ 256 := hm.header.mask

theorem Members.Holds.testBit_mask (hm : m.Holds ms) :
    m.header.mask.testBit page = true ↔ ∃ x ∈ ms, pageOf x.root.block = page := by
  rw [hm.mask, testBit_summary, Nat.zero_testBit]
  simp only [Bool.false_eq_true, false_or]

/-- The pages of a membership have heap blocks. -/
theorem Members.Holds.block (hm : m.Holds ms) (hp : page ∈ setBits m.header.mask 256) :
    m.key.base + page ≠ noBlock := by
  obtain ⟨x, hx, rfl⟩ := hm.testBit_mask.1 (mem_setBits.1 hp).2
  have hroot := (hm.of x hx).root
  have := hroot.block
  rw [← hroot.block_eq]
  omega

theorem Members.Holds.pageOffsets_all (hm : m.Holds ms) (hblock : m.key.base + page ≠ noBlock) :
    m.pageOffsets page = .ok (m.all page) ∧ ∀ bit, (m.all page).testBit bit = true ↔
      ∃ x ∈ ms, x.root = ⟨m.key.base + page, bit + 1⟩ := by
  obtain ⟨all, hall, hbit⟩ := hm.pageOffsets_ok hblock
  have heq : m.all page = all := by rw [Members.all, hall]; rfl
  rw [heq]
  exact ⟨hall, hbit⟩

theorem lt_two_pow_of_bits {v n : ℕ} (h : ∀ bit, v.testBit bit = true → bit < n) : v < 2 ^ n := by
  refine Nat.lt_pow_two_of_testBit _ fun bit hbit => Bool.eq_false_iff.2 fun hset => ?_
  exact absurd (h bit hset) (Nat.not_lt.2 hbit)

/-- Every page of a membership has an owner, and only offsets of the layout. -/
theorem Members.Holds.encodable (hm : m.Holds ms) (hp : page ∈ setBits m.header.mask 256) :
    Encodable m.key m.all page := by
  have hblock := hm.block hp
  obtain ⟨-, hbit⟩ := hm.pageOffsets_all hblock
  refine ⟨hblock, fun h0 => ?_, lt_two_pow_of_bits fun bit hset => ?_⟩
  · obtain ⟨x, hx, hpage⟩ := hm.testBit_mask.1 (mem_setBits.1 hp).2
    have hroot := (hm.of x hx).root
    have hx' := (hbit (x.root.offset - 1)).2 ⟨x, hx, by
      have hpos := hroot.offset.1
      have hblock := hroot.block_eq
      rw [hpage] at hblock
      rw [← hblock, Nat.sub_add_cancel hpos]⟩
    rw [h0, Nat.zero_testBit] at hx'
    cases hx'
  · obtain ⟨x, hx, hroot⟩ := (hbit bit).1 hset
    have := (hm.of x hx).root.offset.2
    rw [hroot] at this
    exact this

/-- The record of live offsets within the membership is well laid out. -/
theorem Within.laid (hm : m.Holds ms) (hf : Within m f) (hp : page ∈ setBits m.header.mask 256) :
    Laid m.key .liveness (widths m.all) f page := by
  have he := hm.encodable hp
  have hl : Laid m.key .liveness (widths m.all) m.all page := he.laid
  have hle : ∀ n, m.all page < 2 ^ n → f page < 2 ^ n := fun n hn =>
    lt_two_pow_of_bits fun bit hset => testBit_lt hn (hf page hp bit hset)
  refine ⟨⟨he.block, hl.pos, hl.le, ?_⟩, hle _ he.lt, fun hk => by cases hk⟩
  have hlt := hl.lt
  rw [show (256 : ℕ) = 2 ^ 8 from rfl, ← Nat.pow_mul] at hlt ⊢
  exact hle _ hlt

theorem Within.offsets (hm : m.Holds ms) (hf : Within m f) (page : ℕ) :
    (m.liveness f).offsets page =
      .ok (if m.header.mask.testBit page = true then f page else 0) :=
  offsets_image hm.valid hm.mask_lt fun _ hp => hf.laid hm hp

theorem Within.open_liveness (hm : m.Holds ms) (hf : Within m f) :
    Bitmap.openRecord (m.liveness f).bytes = .ok (m.liveness f) :=
  openRecord_image hm.valid hm.mask_lt fun _ hp => (hf.laid hm hp).toPacked

theorem ldiff_eq_zero {a b : ℕ} :
    Nat.ldiff a b = 0 ↔ ∀ bit, a.testBit bit = true → b.testBit bit = true := by
  constructor
  · intro h bit hbit
    have := congrArg (fun v => Nat.testBit v bit) h
    simp only [Nat.testBit_ldiff, Nat.zero_testBit, hbit, Bool.true_and, Bool.not_eq_false'] at this
    exact this
  · intro h
    refine Nat.zero_of_testBit_eq_false fun bit => ?_
    rw [Nat.testBit_ldiff]
    cases ha : a.testBit bit with
    | false => rfl
    | true => rw [h bit ha]; rfl

/-- Such a record opens with its membership. -/
theorem Within.openGroup (ho : Members.openRecord bytes = .ok m) (hm : m.Holds ms)
    (hf : Within m f) :
    SegmentGroup.openGroup bytes (m.liveness f).bytes = .ok ⟨m, m.liveness f⟩ := by
  have hpages : (setBits m.header.mask 256).forM
      (fun page => SegmentGroup.checkPage m (m.liveness f) page) = .ok () := by
    refine forM_of fun page hp => ?_
    obtain ⟨hlt, hbit⟩ := mem_setBits.1 hp
    have he := hm.encodable hp
    have hbytes : (m.liveness f).payloadBytes page = payloadLen (m.all page) :=
      payloadBytes_image hm.valid (fun _ hp => (hf.laid hm hp).toPacked) hbit hlt
    rw [SegmentGroup.checkPage, (hm.pageOffsets_all he.block).1, ok_bind, hf.offsets hm, ok_bind,
      bitmapLen_ok he.pos he.lt, ok_bind, if_pos hbit]
    exact require_of ⟨hbytes, ldiff_eq_zero.2 (hf page hp)⟩
  have hsame : (m.liveness f).kind = .liveness ∧ (m.liveness f).key = m.key ∧
      (m.liveness f).mask = m.header.mask := ⟨rfl, rfl, rfl⟩
  rw [SegmentGroup.openGroup, ho, ok_bind, hf.open_liveness hm, ok_bind, require_of hsame, ok_bind,
    hpages, ok_bind]

/-! ### Live roots -/

theorem mem_liveRoots : root ∈ liveRoots key mask f ↔ ∃ page ∈ setBits mask 256,
    ∃ bit ∈ setBits (f page) 512, root = ⟨key.base + page, bit + 1⟩ := by
  simp only [liveRoots, List.mem_flatMap, List.mem_map, @eq_comm _ root]

/-- The bits of the record are its live roots. -/
theorem Within.has_iff (hm : m.Holds ms) (hf : Within m f) :
    (m.liveness f).has root = true ↔ root ∈ liveRoots m.key m.header.mask f := by
  have hcoord : ∀ page bit, page < 256 → ((m.liveness f).has ⟨m.key.base + page, bit + 1⟩ = true ↔
      m.header.mask.testBit page = true ∧ (f page).testBit bit = true) := by
    intro page bit hp
    have hh : (m.liveness f).has ⟨m.key.base + page, bit + 1⟩ = _ :=
      @Bitmap.has_coordinate (m.liveness f) page bit hp
    rw [hh, hf.offsets hm]
    cases hbit : m.header.mask.testBit page <;> simp
  rw [mem_liveRoots]
  constructor
  · intro hroot
    obtain ⟨page, bit, hp, heq⟩ := Bitmap.has_coordinates hroot
    change root = ⟨m.key.base + page, bit + 1⟩ at heq
    rw [heq] at hroot
    obtain ⟨hmask, hbit⟩ := (hcoord page bit hp).1 hroot
    have hpage := mem_setBits.2 ⟨hp, hmask⟩
    have hlt := testBit_lt (hf.laid hm hpage).domain hbit
    have hmax := hm.valid.maxOffset.2
    exact ⟨page, hpage, bit, mem_setBits.2 ⟨by omega, hbit⟩, heq⟩
  · rintro ⟨page, hp, bit, hbit, rfl⟩
    obtain ⟨hlt, hmask⟩ := mem_setBits.1 hp
    exact (hcoord page bit hlt).2 ⟨hmask, (mem_setBits.1 hbit).2⟩

/-- Roots ascend by page and offset. -/
theorem liveRoots_sorted :
    (liveRoots key mask f).Pairwise fun r s => rootKey r < rootKey s := by
  rw [liveRoots, List.pairwise_flatMap]
  refine ⟨fun page _ => ?_, setBits_sorted.imp fun {p q} hpq r hr s hs => ?_⟩
  · refine List.pairwise_map.2 (setBits_sorted.imp fun hab => ?_)
    rw [rootKey, rootKey]
    simp only
    omega
  · obtain ⟨a, ha, rfl⟩ := List.mem_map.1 hr
    obtain ⟨b, -, rfl⟩ := List.mem_map.1 hs
    have := (mem_setBits.1 ha).1
    rw [rootKey, rootKey]
    simp only
    omega

/-- Everything is live at first. -/
theorem liveRoots_all (hm : m.Holds ms) :
    liveRoots m.key m.header.mask m.all = ms.map Member.root := by
  have : Std.Irrefl fun r s : RootTid => rootKey r < rootKey s := ⟨fun _ => Nat.lt_irrefl _⟩
  have : Std.Antisymm fun r s : RootTid => rootKey r < rootKey s :=
    ⟨fun _ _ h h' => absurd h (Nat.lt_asymm h')⟩
  refine liveRoots_sorted.eq_of_mem_iff (List.pairwise_map.2 hm.sorted) fun root => ?_
  rw [mem_liveRoots, List.mem_map]
  constructor
  · rintro ⟨page, hp, bit, hbit, rfl⟩
    obtain ⟨x, hx, hroot⟩ := ((hm.pageOffsets_all (hm.block hp)).2 bit).1 (mem_setBits.1 hbit).2
    exact ⟨x, hx, hroot⟩
  · rintro ⟨x, hx, rfl⟩
    have hof := (hm.of x hx).root
    have hblock := hof.block_eq
    have hoffset := hof.offset
    have hmax := hm.valid.maxOffset.2
    have hpage : pageOf x.root.block ∈ setBits m.header.mask 256 :=
      mem_setBits.2 ⟨Nat.mod_lt _ (by decide), hm.testBit_mask.2 ⟨x, hx, rfl⟩⟩
    have hroot : x.root = ⟨m.key.base + pageOf x.root.block, x.root.offset - 1 + 1⟩ := by
      rw [← hblock, Nat.sub_add_cancel hoffset.1]
    refine ⟨_, hpage, x.root.offset - 1, mem_setBits.2 ⟨by omega, ?_⟩, hroot⟩
    exact ((hm.pageOffsets_all (hm.block hpage)).2 _).2 ⟨x, hx, hroot⟩

theorem within_all : Within m m.all := fun _ _ _ h => h

/-- The initial image is written if there is room for it. -/
theorem Members.Holds.encodeLiveness_eq (hm : m.Holds ms) : m.encodeLiveness output =
    if output.length < (m.liveness m.all).bytes.length then
      (.error (.limit "bitmap group output"), output)
    else (.ok (m.liveness m.all).bytes.length,
      (m.liveness m.all).bytes ++ output.drop (m.liveness m.all).bytes.length) := by
  have hlen : (m.liveness m.all).bytes.length = imageLen m.header.mask (widths m.all) :=
    length_bitmapImage
  have hf : ∀ page ∈ setBits m.header.mask 256,
      m.pageOffsets page = .ok (m.all page) ∧ Encodable m.key m.all page := fun page hp =>
    ⟨(hm.pageOffsets_all (hm.block hp)).1, hm.encodable hp⟩
  rw [Members.encodeLiveness, encodeWith_eq hm.valid.maxOffset.2 hf, hlen]
  rfl

end

end Grouped

end PinCore
