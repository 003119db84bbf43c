import PinCore.Grouped.Membership

/-!
# Canonical group records

The encoders write exactly what the readers accept: a record is read back with the content it was
written from, and an accepted record is the encoding of its content.  An encoder that fails has not
touched the buffer of its caller.
-/

namespace PinCore

namespace Grouped

/-! ### Encoding a list of pages -/

/-- The checks of `encode_bitmap`, and the mask of the pages. -/
def checkPages (key : GroupKey) : Option ℕ → ℕ → List PageOffsets → Except Error ℕ
  | _, mask, [] => .ok mask
  | previous, mask, p :: rest => do
    require (∀ q ∈ previous, q < p.page) .invalidState
    let _ ← key.block p.page
    let _ ← bitmapLen key p.offsets
    checkPages key (some p.page) (insertPage mask p.page) rest

/-- The offsets of a page of a sorted list. -/
def lookupPage (pages : List PageOffsets) (page : ℕ) : Except Error ℕ :=
  match pages.find? fun p => p.page = page with
  | some p => .ok p.offsets
  | none => .error .invalidState

/-- Encodes sorted nonempty pages into a buffer of the caller.  (`encode_bitmap` in the source.) -/
def encodeBitmapInto (key : GroupKey) (kind : BitmapKind) (pages : List PageOffsets)
    (output : List UInt8) : Except Error ℕ × List UInt8 :=
  match checkPages key none 0 pages with
  | .error e => (.error e, output)
  | .ok mask => encodeWith key kind mask (lookupPage pages) output

/-- Pages in strictly ascending order. -/
def SortedPages (pages : List PageOffsets) : Prop := pages.Pairwise fun p q => p.page < q.page

/-- A page of the group with nonempty offsets of the layout. -/
structure PageOffsets.Of (key : GroupKey) (p : PageOffsets) : Prop where
  page : p.page < 256
  block : key.base + p.page ≠ noBlock
  pos : p.offsets ≠ 0
  lt : p.offsets < 2 ^ key.maxOffset

/-- The offsets of a page; an absent page has none. -/
def pageValue (pages : List PageOffsets) (page : ℕ) : ℕ :=
  ((pages.find? fun p => p.page = page).map PageOffsets.offsets).getD 0

/-- The mask of a list of pages, over that of earlier ones. -/
def maskPages (mask : ℕ) (pages : List PageOffsets) : ℕ :=
  pages.foldl (fun mask p => insertPage mask p.page) mask

section

variable {key : GroupKey} {kind : BitmapKind} {pages : List PageOffsets} {p : PageOffsets}
  {previous : Option ℕ} {mask page r : ℕ} {output : List UInt8}

theorem testBit_maskPages : (maskPages mask pages).testBit page = true ↔
    mask.testBit page = true ∨ ∃ p ∈ pages, p.page = page := by
  induction pages generalizing mask with
  | nil => simp [maskPages]
  | cons p pages ih =>
    change (maskPages (insertPage mask p.page) pages).testBit page = true ↔ _
    rw [ih, testBit_insertPage, List.exists_mem_cons_iff, or_assoc]

theorem maskPages_lt (hp : ∀ p ∈ pages, p.page < 256) : maskPages 0 pages < 2 ^ 256 := by
  refine Nat.lt_pow_two_of_testBit _ fun page hpage => Bool.eq_false_iff.2 fun hbit => ?_
  rcases testBit_maskPages.1 hbit with hbit | ⟨p, hmem, rfl⟩
  · rw [Nat.zero_testBit] at hbit
    cases hbit
  · exact absurd (hp p hmem) (Nat.not_lt.2 hpage)

/-- What the checks of the encoder establish. -/
theorem checkPages_ok : checkPages key previous mask pages = .ok r ↔
    (∀ p ∈ pages, key.base + p.page ≠ noBlock ∧ p.offsets ≠ 0 ∧ p.offsets < 2 ^ key.maxOffset) ∧
      (∀ q ∈ previous, ∀ p ∈ pages, q < p.page) ∧ SortedPages pages ∧ maskPages mask pages = r := by
  induction pages generalizing previous mask with
  | nil => simp [checkPages, SortedPages, maskPages]
  | cons p pages ih =>
    have hmask : maskPages mask (p :: pages) = maskPages (insertPage mask p.page) pages := rfl
    constructor
    · intro h
      obtain ⟨_, hprev, h⟩ := ok_of_bind h
      obtain ⟨_, hblock, h⟩ := ok_of_bind h
      obtain ⟨_, hlen, h⟩ := ok_of_bind h
      obtain ⟨hall, hafter, hsorted, hr⟩ := ih.1 h
      have hprev := require_ok hprev
      unfold GroupKey.block at hblock
      split_ifs at hblock with hno
      obtain ⟨h0, hlt, -⟩ := of_bitmapLen hlen
      refine ⟨List.forall_mem_cons.2 ⟨⟨hno, h0, hlt⟩, hall⟩, fun q hq => ?_,
        List.pairwise_cons.2 ⟨hafter p.page rfl, hsorted⟩, hmask.trans hr⟩
      exact List.forall_mem_cons.2 ⟨hprev q hq, fun y hy =>
        Nat.lt_trans (hprev q hq) (hafter p.page rfl y hy)⟩
    · rintro ⟨hall, hafter, hsorted, hr⟩
      obtain ⟨⟨hno, h0, hlt⟩, hall⟩ := List.forall_mem_cons.1 hall
      obtain ⟨hp, hsorted⟩ := List.pairwise_cons.1 hsorted
      have hprev : ∀ q ∈ previous, q < p.page := fun q hq => hafter q hq p List.mem_cons_self
      rw [checkPages, require_of hprev, ok_bind, GroupKey.block, if_neg hno, ok_bind,
        bitmapLen_ok h0 hlt, ok_bind]
      refine ih.2 ⟨hall, fun q hq => ?_, hsorted, hmask.symm.trans hr⟩
      cases hq
      exact hp

theorem checkPages_error {e : Error} (h : checkPages key previous mask pages = .error e) :
    e = .invalidState := by
  induction pages generalizing previous mask with
  | nil => cases h
  | cons p pages ih =>
    rcases error_of_bind h with h | ⟨_, -, h⟩
    · unfold require at h
      split_ifs at h
      exact (Except.error.inj h).symm
    rcases error_of_bind h with h | ⟨_, -, h⟩
    · unfold GroupKey.block at h
      split_ifs at h
      exact (Except.error.inj h).symm
    rcases error_of_bind h with h | ⟨_, -, h⟩
    · unfold bitmapLen at h
      split_ifs at h
      exact (Except.error.inj h).symm
    · exact ih h

theorem find?_page (hs : SortedPages pages) (hp : p ∈ pages) :
    (pages.find? fun q => q.page = p.page) = some p := by
  induction pages with
  | nil => cases hp
  | cons q pages ih =>
    obtain ⟨hq, hs⟩ := List.pairwise_cons.1 hs
    rcases List.mem_cons.1 hp with rfl | hp
    · exact List.find?_cons_of_pos (by simp)
    · have hne : decide (q.page = p.page) = false := decide_eq_false (Nat.ne_of_lt (hq p hp))
      simp only [List.find?_cons, hne, ih hs hp]

theorem pageValue_of_mem (hs : SortedPages pages) (hp : p ∈ pages) :
    pageValue pages p.page = p.offsets := by
  rw [pageValue, find?_page hs hp]
  rfl

theorem pageValue_absent (h : ∀ p ∈ pages, p.page ≠ page) : pageValue pages page = 0 := by
  rw [pageValue, List.find?_eq_none.2 fun p hp => by simpa using h p hp]
  rfl

/-- The encoder can look up the offsets of every page of the mask. -/
theorem lookupPage_ok (hs : SortedPages pages) (hof : ∀ p ∈ pages, p.Of key) :
    ∀ page ∈ setBits (maskPages 0 pages) 256,
      lookupPage pages page = .ok (pageValue pages page) ∧
        Encodable key (pageValue pages) page := by
  intro page hpage
  rcases testBit_maskPages.1 (mem_setBits.1 hpage).2 with hbit | ⟨p, hp, rfl⟩
  · rw [Nat.zero_testBit] at hbit
    cases hbit
  · have h := hof p hp
    have hval := pageValue_of_mem hs hp
    refine ⟨?_, h.block, by rw [hval]; exact h.pos, by rw [hval]; exact h.lt⟩
    rw [lookupPage, find?_page hs hp, hval]

/-- The record of a sorted list of pages. -/
def pagesBitmap (key : GroupKey) (kind : BitmapKind) (pages : List PageOffsets) : Bitmap :=
  imageBitmap key kind (maskPages 0 pages) (widths (pageValue pages)) (pageValue pages)

/-- Encoding a sorted list of pages writes its record if there is room for it. -/
theorem encodeBitmapInto_eq (hv : key.Valid) (hs : SortedPages pages)
    (hof : ∀ p ∈ pages, p.Of key) :
    encodeBitmapInto key kind pages output =
      if output.length < (pagesBitmap key kind pages).bytes.length then
        (.error (.limit "bitmap group output"), output)
      else (.ok (pagesBitmap key kind pages).bytes.length,
        (pagesBitmap key kind pages).bytes ++
          output.drop (pagesBitmap key kind pages).bytes.length) := by
  have hcheck : checkPages key none 0 pages = .ok (maskPages 0 pages) :=
    checkPages_ok.2 ⟨fun p hp => ⟨(hof p hp).block, (hof p hp).pos, (hof p hp).lt⟩, nofun, hs, rfl⟩
  have hlen : (pagesBitmap key kind pages).bytes.length =
      imageLen (maskPages 0 pages) (widths (pageValue pages)) := length_bitmapImage
  simp only [encodeBitmapInto, hcheck, hlen,
    encodeWith_eq hv.maxOffset.2 (lookupPage_ok hs hof)]
  rfl

theorem encodeBitmapInto_error {e : Error} (hv : key.Valid)
    (h : (encodeBitmapInto key kind pages output).1 = .error e) :
    (encodeBitmapInto key kind pages output).2 = output := by
  unfold encodeBitmapInto at h ⊢
  cases hc : checkPages key none 0 pages with
  | error e' => rfl
  | ok mask =>
    rw [hc] at h
    exact encodeWith_error hv.maxOffset.2 h

/-- The record of a sorted list of pages opens with these pages. -/
theorem pagesBitmap_open (hv : key.Valid) (hs : SortedPages pages) (hof : ∀ p ∈ pages, p.Of key) :
    Bitmap.openRecord (pagesBitmap key kind pages).bytes = .ok (pagesBitmap key kind pages) ∧
      ∀ page, (pagesBitmap key kind pages).offsets page = .ok (pageValue pages page) := by
  have hmask := maskPages_lt fun p hp => (hof p hp).page
  have hlaid : ∀ page ∈ setBits (maskPages 0 pages) 256,
      Laid key kind (widths (pageValue pages)) (pageValue pages) page :=
    fun page hp => (lookupPage_ok hs hof page hp).2.laid
  refine ⟨openRecord_image hv hmask fun page hp => (hlaid page hp).toPacked, fun page => ?_⟩
  rw [pagesBitmap, offsets_image hv hmask hlaid]
  split_ifs with hbit
  · rfl
  · refine congrArg _ (pageValue_absent fun p hp heq => hbit ?_).symm
    exact testBit_maskPages.2 (.inr ⟨p, hp, heq⟩)

end

/-! ### An accepted record is an encoding -/

section

variable {bytes : List UInt8} {h : Header} {b : Bitmap} {m : Members} {ms : List Member}
  {x : Member}
  {ps pre post : List ℕ} {w f : ℕ → ℕ} {offset width v n at' total r mask page i : ℕ}

/-- A field inside the record, and the rest of the record behind it. -/
theorem drop_of_le (offset width : ℕ) (hle : offset + width ≤ bytes.length) :
    bytes.drop offset = leBytes width (leAt bytes offset width) ++ bytes.drop (offset + width) := by
  have hlen : ((bytes.drop offset).take width).length = width := by
    rw [List.length_take, List.length_drop]
    omega
  have hle := Reader.leBytes_leNat ((bytes.drop offset).take width)
  rw [hlen] at hle
  rw [leAt, hle, ← List.drop_drop, List.take_append_drop]

theorem drop_of_field (hf : field bytes offset width = .ok v) :
    bytes.drop offset = leBytes width v ++ bytes.drop (offset + width) := by
  rw [field_ok hf]
  unfold field at hf
  split_ifs at hf with hlt
  exact drop_of_le _ _ (Nat.not_lt.1 hlt)

/-- The leading bytes of a record are those of its header. -/
theorem Header.bytes_of_read (hr : Header.read bytes = .ok h) :
    bytes = h.bytes bytes.length ++ bytes.drop 72 := by
  unfold Header.read at hr
  obtain ⟨v₁, f₁, hr⟩ := ok_of_bind hr
  obtain ⟨_, q₁, hr⟩ := ok_of_bind hr
  obtain ⟨v₂, f₂, hr⟩ := ok_of_bind hr
  obtain ⟨_, q₂, hr⟩ := ok_of_bind hr
  obtain ⟨kind, f₃, hr⟩ := ok_of_bind hr
  obtain ⟨_, -, hr⟩ := ok_of_bind hr
  obtain ⟨v₄, f₄, hr⟩ := ok_of_bind hr
  obtain ⟨_, q₄, hr⟩ := ok_of_bind hr
  obtain ⟨v₅, f₅, hr⟩ := ok_of_bind hr
  obtain ⟨_, q₅, hr⟩ := ok_of_bind hr
  obtain ⟨base, f₆, hr⟩ := ok_of_bind hr
  obtain ⟨relation, f₇, hr⟩ := ok_of_bind hr
  obtain ⟨_, -, hr⟩ := ok_of_bind hr
  obtain ⟨segment, f₈, hr⟩ := ok_of_bind hr
  obtain ⟨_, -, hr⟩ := ok_of_bind hr
  obtain ⟨maxOffset, f₉, hr⟩ := ok_of_bind hr
  obtain ⟨_, -, hr⟩ := ok_of_bind hr
  obtain ⟨pages, f₁₀, hr⟩ := ok_of_bind hr
  obtain ⟨count, f₁₁, hr⟩ := ok_of_bind hr
  obtain ⟨mask, f₁₂, hr⟩ := ok_of_bind hr
  obtain ⟨_, -, hr⟩ := ok_of_bind hr
  obtain ⟨_, q₁₀, hr⟩ := ok_of_bind hr
  obtain rfl := Except.ok.inj hr
  obtain rfl := require_ok q₁
  obtain rfl := require_ok q₂
  obtain rfl := require_ok q₄
  obtain rfl := require_ok q₅
  obtain rfl := (require_ok q₁₀).1
  conv_lhs => rw [← List.drop_zero (l := bytes), drop_of_field f₁, drop_of_field f₂,
    drop_of_field f₃, drop_of_field f₄, drop_of_field f₅, drop_of_field f₆, drop_of_field f₇,
    drop_of_field f₈,
    drop_of_field f₉, drop_of_field f₁₀, drop_of_field f₁₁, drop_of_field f₁₂]
  simp only [Header.bytes, List.append_assoc]

/-- What comes before a page among the set bits. -/
theorem setBits_before (hs : setBits mask 256 = pre ++ page :: post) : pre = setBits mask page := by
  have hsorted : (pre ++ page :: post).Pairwise (· < ·) := hs ▸ setBits_sorted
  obtain ⟨hpre, hpost, hcross⟩ := List.pairwise_append.1 hsorted
  refine eq_setBits hpre fun i => ?_
  have hin : i ∈ pre ++ page :: post ↔ i < 256 ∧ mask.testBit i = true := by
    rw [← hs, mem_setBits]
  have hpage : page < 256 ∧ mask.testBit page = true := by
    rw [← mem_setBits, hs]
    exact List.mem_append_right _ List.mem_cons_self
  constructor
  · intro hi
    exact ⟨hcross i hi page List.mem_cons_self, (hin.1 (List.mem_append_left _ hi)).2⟩
  · rintro ⟨hlt, hbit⟩
    have hmem := hin.2 ⟨Nat.lt_trans hlt hpage.1, hbit⟩
    refine (List.mem_append.1 hmem).resolve_right fun hr => ?_
    rcases List.mem_cons.1 hr with rfl | hr
    · exact Nat.lt_irrefl _ hlt
    · exact Nat.lt_asymm hlt ((List.pairwise_cons.1 hpost).1 i hr)

/-- A directory that passes the check is the one of its widths. -/
theorem entries_of_directoryEnd (hd : Bitmap.directoryEnd bytes width ps.length at' total = .ok r)
    (hle : at' + ps.length * 4 ≤ bytes.length)
    (hw : ∀ pre page post, ps = pre ++ page :: post →
      w page = leAt bytes (at' + pre.length * 4 + 2) 1) :
    bytes.drop at' = entryBytes w total ps ++ bytes.drop (at' + ps.length * 4) ∧
      r = total + bodyLen w ps ∧ ∀ page ∈ ps, 0 < w page ∧ w page ≤ width := by
  induction ps generalizing at' total with
  | nil =>
    obtain rfl := Except.ok.inj hd
    exact ⟨rfl, rfl, fun page hp => absurd hp List.not_mem_nil⟩
  | cons page ps ih =>
    have hpage : w page = leAt bytes (at' + 2) 1 := by simpa using hw [] page ps rfl
    rw [List.length_cons] at hle
    rw [List.length_cons, Bitmap.directoryEnd] at hd
    split_ifs at hd with hbad
    simp only [not_or, not_not, Nat.not_lt] at hbad
    obtain ⟨hstart, hpos, hwidth, hzero⟩ := hbad
    rw [← hpage] at hpos hwidth hd
    obtain ⟨hrest, hr, hall⟩ := ih hd (by omega) fun pre q post heq => by
      have := hw (page :: pre) q post (by rw [heq, List.cons_append])
      rw [this, List.length_cons]
      congr 1
      omega
    refine ⟨?_, ?_, List.forall_mem_cons.2 ⟨⟨Nat.pos_of_ne_zero hpos, hwidth⟩, hall⟩⟩
    · rw [drop_of_le _ _ (show at' + 2 ≤ bytes.length by omega), hstart,
        drop_of_le _ _ (show at' + 2 + 1 ≤ bytes.length by omega), ← hpage,
        drop_of_le _ _ (show at' + 2 + 1 + 1 ≤ bytes.length by omega),
        show at' + 2 + 1 = at' + 3 from rfl, hzero, show at' + 3 + 1 = at' + 4 from rfl, hrest,
        List.length_cons, show at' + 4 + ps.length * 4 = at' + (ps.length + 1) * 4 by omega]
      simp only [entryBytes, List.append_assoc]
    · rw [hr, bodyLen, bodyLen, List.map_cons, List.sum_cons, Nat.add_assoc]

/-- A body of the right length consists of its payloads. -/
theorem payloads_of_body (hle : at' + bodyLen w ps ≤ bytes.length)
    (hf : ∀ pre page post, ps = pre ++ page :: post →
      f page = leAt bytes (at' + bodyLen w pre) (w page)) :
    bytes.drop at' = offsetBytes w f ps ++ bytes.drop (at' + bodyLen w ps) := by
  induction ps generalizing at' with
  | nil => rfl
  | cons page ps ih =>
    have hpage : f page = leAt bytes at' (w page) := by simpa [bodyLen] using hf [] page ps rfl
    have hsum : bodyLen w (page :: ps) = w page + bodyLen w ps := by
      rw [bodyLen, List.map_cons, List.sum_cons, bodyLen]
    rw [hsum] at hle
    rw [drop_of_le _ _ (show at' + w page ≤ bytes.length by omega), ← hpage,
      ih (by omega) fun pre q post heq => ?_, hsum, Nat.add_assoc]
    · simp only [offsetBytes, List.flatMap_cons, List.append_assoc]
    · have := hf (page :: pre) q post (by rw [heq, List.cons_append])
      rw [this, bodyLen, List.map_cons, List.sum_cons, bodyLen, Nat.add_assoc]

/-- An opened bitmap is the record of its identity, pages, widths and payloads. -/
theorem Bitmap.openRecord_packed (ho : Bitmap.openRecord bytes = .ok b) :
    ∃ w f, b = imageBitmap b.key b.kind b.mask w f ∧ b.bytes = bytes ∧ b.key.Valid ∧
      b.mask < 2 ^ 256 ∧ ∀ page ∈ setBits b.mask 256, Packed b.key w f page := by
  have hopened := Bitmap.openRecord_opened ho
  unfold Bitmap.openRecord at ho
  split_ifs at ho with hmax
  obtain ⟨h, hread, ho⟩ := ok_of_bind ho
  obtain ⟨_, hkind, ho⟩ := ok_of_bind ho
  obtain ⟨_, hbody, ho⟩ := ok_of_bind ho
  obtain ⟨total, hdir, ho⟩ := ok_of_bind ho
  obtain ⟨_, htotal, ho⟩ := ok_of_bind ho
  obtain rfl := Except.ok.inj ho
  have hvalid := Header.read_valid hread
  have hrange := Header.read_inRange hread
  obtain ⟨hkind, hcount⟩ := require_ok hkind
  have hbody := require_ok hbody
  have htotal := require_ok htotal
  simp only [Bitmap.bodyStart] at hbody htotal
  simp only at hdir
  -- widths and payloads are where the directory says
  obtain ⟨w, hw⟩ : ∃ w : ℕ → ℕ,
      ∀ page, w page = leAt bytes (bitmapHeader + (setBits h.mask page).length * 4 + 2) 1 :=
    ⟨_, fun _ => rfl⟩
  obtain ⟨f, hf⟩ : ∃ f : ℕ → ℕ, ∀ page, f page = leAt bytes (payloadStart h.mask w page) (w page) :=
    ⟨_, fun _ => rfl⟩
  obtain ⟨hentries, hsum, hwidths⟩ := entries_of_directoryEnd (w := w) hdir hbody
    fun pre page post heq => by rw [hw, setBits_before heq]
  have hpayloads : bytes.drop (bitmapHeader + (setBits h.mask 256).length * 4) =
      offsetBytes w f (setBits h.mask 256) ++ bytes.drop
        (bitmapHeader + (setBits h.mask 256).length * 4 + bodyLen w (setBits h.mask 256)) :=
    payloads_of_body (by omega) fun pre page post heq => by
      rw [hf, setBits_before heq, payloadStart]
  have hlen : imageLen h.mask w = bytes.length := by
    rw [imageLen]
    omega
  have hcode : (if h.kind = 1 then BitmapKind.posting else .liveness).code = h.kind := by
    rcases hkind with hk | hk <;> rw [hk] <;> rfl
  have hheader : Header.mk h.key (if h.kind = 1 then BitmapKind.posting else .liveness).code 0
      h.mask = h := by
    rw [hcode, ← hcount]
  have himage : bytes = bitmapImage h.key (if h.kind = 1 then .posting else .liveness) h.mask w
      f := by
    rw [bitmapImage, hheader, hlen]
    conv_lhs => rw [Header.bytes_of_read hread, show (72 : ℕ) = bitmapHeader from rfl, hentries,
      hpayloads, List.drop_of_length_le (show bytes.length ≤ _ by omega), List.append_nil]
  refine ⟨w, f, ?_, rfl, hvalid, hrange.mask, fun page hp => ?_⟩
  · rw [imageBitmap, ← himage]
  · obtain ⟨hpos, hle⟩ := hwidths page hp
    refine ⟨fun heq => ?_, hpos, hle, by rw [hf]; exact leAt_lt _ _ _⟩
    have := hrange.block_eq (mem_setBits.1 hp).2
    rw [GroupKey.block, if_pos heq] at this
    cases this

/-- The pages of a bitmap as a list. -/
def listedPages (mask : ℕ) (f : ℕ → ℕ) : List PageOffsets :=
  (setBits mask 256).map fun page => ⟨page, f page⟩

theorem listedPages_sorted : SortedPages (listedPages mask f) :=
  List.pairwise_map.2 setBits_sorted

theorem pageMask_listedPages (hmask : mask < 2 ^ 256) :
    maskPages 0 (listedPages mask f) = mask := by
  refine Nat.eq_of_testBit_eq fun page => Bool.eq_iff_iff.2 ?_
  rw [testBit_maskPages, Nat.zero_testBit]
  simp only [Bool.false_eq_true, false_or, listedPages, List.mem_map, exists_exists_and_eq_and,
    exists_eq_right, mem_setBits, and_iff_right_iff_imp]
  exact testBit_lt hmask

theorem pageValue_listedPages (hp : page ∈ setBits mask 256) :
    pageValue (listedPages mask f) page = f page :=
  pageValue_of_mem listedPages_sorted (List.mem_map.2 ⟨page, hp, rfl⟩)

theorem entryBytes_congr {w' : ℕ → ℕ} (h : ∀ page ∈ ps, w page = w' page) :
    entryBytes w total ps = entryBytes w' total ps := by
  induction ps generalizing total with
  | nil => rfl
  | cons page ps ih =>
    rw [entryBytes, entryBytes, h page List.mem_cons_self,
      ih fun q hq => h q (List.mem_cons_of_mem _ hq)]

/-- The record depends on the pages of the mask only. -/
theorem bitmapImage_congr {key : GroupKey} {kind : BitmapKind} {w' f' : ℕ → ℕ}
    (h : ∀ page ∈ setBits mask 256, w page = w' page ∧ f page = f' page) :
    bitmapImage key kind mask w f = bitmapImage key kind mask w' f' := by
  have hw : ∀ page ∈ setBits mask 256, w page = w' page := fun page hp => (h page hp).1
  have hlen : imageLen mask w = imageLen mask w' := by
    rw [imageLen, imageLen, bodyLen, bodyLen, List.map_congr_left hw]
  have hbody : offsetBytes w f (setBits mask 256) = offsetBytes w' f' (setBits mask 256) := by
    rw [offsetBytes, offsetBytes, List.flatMap, List.flatMap]
    congr 1
    exact List.map_congr_left fun page hp => by rw [(h page hp).1, (h page hp).2]
  rw [bitmapImage, bitmapImage, hlen, entryBytes_congr hw, hbody]

/-- An accepted posting record is the encoding of its pages. -/
theorem Bitmap.posting_canonical {u : Unit} (ho : Bitmap.openRecord bytes = .ok b)
    (hk : b.kind = .posting) (hvalid : b.validateAll = .ok u) :
    ∃ pages, SortedPages pages ∧ (∀ p ∈ pages, p.Of b.key) ∧ b.key.Valid ∧
      bytes = (pagesBitmap b.key .posting pages).bytes ∧
      ∀ page, b.offsets page = .ok (pageValue pages page) := by
  obtain ⟨w, f, hb, hbytes, hv, hmask, hf⟩ := Bitmap.openRecord_packed ho
  have hdecode := Bitmap.validateAll_ok (Bitmap.openRecord_opened ho) hvalid
  have hlaid : ∀ page ∈ setBits b.mask 256, Laid b.key b.kind w f page := by
    intro page hp
    obtain ⟨hlt, hbit⟩ := mem_setBits.1 hp
    obtain ⟨v, hv'⟩ := hdecode page
    rw [hb] at hv'
    exact (laid_of_offsets hv hf hbit hlt hv').2
  have hwidth : ∀ page ∈ setBits b.mask 256, f page ≠ 0 ∧ payloadLen (f page) = w page :=
    fun page hp => eq_payloadLen (hlaid page hp).pos (hlaid page hp).lt ((hlaid page hp).minimal hk)
  have hof : ∀ p ∈ listedPages b.mask f, p.Of b.key := by
    intro p hp
    obtain ⟨page, hpage, rfl⟩ := List.mem_map.1 hp
    exact ⟨(mem_setBits.1 hpage).1, (hlaid page hpage).block, (hwidth page hpage).1,
      (hlaid page hpage).domain⟩
  have himage : bytes = (pagesBitmap b.key .posting (listedPages b.mask f)).bytes := by
    change bytes = bitmapImage b.key .posting (maskPages 0 (listedPages b.mask f)) _ _
    rw [← hbytes, pageMask_listedPages hmask, ← bitmapImage_congr (w := w)
      (f := f) fun page hp => ?_, ← hk, congrArg Bitmap.bytes hb]
    · rfl
    · rw [widths, pageValue_listedPages hp]
      exact ⟨(hwidth page hp).2.symm, rfl⟩
  refine ⟨listedPages b.mask f, listedPages_sorted, hof, hv, himage, fun page => ?_⟩
  rw [hb, offsets_image hv hmask hlaid]
  simp only [imageBitmap]
  split_ifs with hbit
  · rw [pageValue_listedPages (mem_setBits.2 ⟨testBit_lt hmask hbit, hbit⟩)]
  · refine congrArg _ (pageValue_absent fun p hp heq => hbit ?_).symm
    obtain ⟨q, hq, rfl⟩ := List.mem_map.1 hp
    exact heq ▸ (mem_setBits.1 hq).2

/-- The bytes of one owner record are those of the owner that is read from it. -/
theorem memberBytes_of_get (hle : 72 + (i + 1) * 16 ≤ m.bytes.length) (hg : m.get i = .ok x) :
    m.bytes.drop (72 + i * 16) = memberBytes x ++ m.bytes.drop (72 + (i + 1) * 16) := by
  unfold Members.get at hg
  obtain ⟨_, -, hg⟩ := ok_of_bind hg
  obtain ⟨_, hzero, hg⟩ := ok_of_bind hg
  obtain ⟨_, -, hg⟩ := ok_of_bind hg
  obtain ⟨_, -, hg⟩ := ok_of_bind hg
  obtain rfl := Except.ok.inj hg
  have hzero := require_ok hzero
  conv_lhs => rw [drop_of_le (72 + i * 16) 4 (by omega),
    drop_of_le (72 + i * 16 + 4) 2 (by omega),
    drop_of_le (72 + i * 16 + 4 + 2) 2 (by omega),
    drop_of_le (72 + i * 16 + 4 + 2 + 2) 8 (by omega)]
  simp only [memberBytes, List.append_assoc, Nat.add_assoc, Nat.reduceAdd] at hzero ⊢
  rw [hzero, show 72 + (i * 16 + 16) = 72 + (i + 1) * 16 by omega]

theorem members_of_gets {rest : List Member} (hlen : 72 + (i + rest.length) * 16 = m.bytes.length)
    (hg : ∀ (j : ℕ) (x : Member), rest[j]? = some x → m.get (i + j) = .ok x) :
    m.bytes.drop (72 + i * 16) = rest.flatMap memberBytes := by
  induction rest generalizing i with
  | nil =>
    rw [List.drop_of_length_le (by rw [← hlen]; exact Nat.le_refl _)]
    rfl
  | cons x rest ih =>
    rw [List.length_cons] at hlen
    have hx : m.get i = .ok x := hg 0 x rfl
    rw [memberBytes_of_get (by omega) hx, List.flatMap_cons, ih (by omega) fun j y hy => ?_]
    rw [Nat.add_assoc, Nat.add_comm 1]
    exact hg (j + 1) y (by simpa using hy)

/-- An accepted membership record is the encoding of its owners. -/
theorem Members.canonical (ho : Members.openRecord bytes = .ok m) :
    ∃ ms, m.Holds ms ∧ bytes = membersImage m.key ms := by
  obtain ⟨hbytes, ms, hm⟩ := Members.openRecord_holds ho
  obtain ⟨h, hread, ho⟩ := ok_of_bind ho
  obtain ⟨_, hfits, ho⟩ := ok_of_bind ho
  obtain ⟨mask, -, ho⟩ := ok_of_bind ho
  obtain ⟨_, -, ho⟩ := ok_of_bind ho
  obtain rfl := Except.ok.inj ho
  obtain ⟨hkind, hcount, hlength⟩ := require_ok hfits
  have hlen : ms.length = h.count := hm.length
  have hheader : membersHeader h.key ms = h := by
    rw [membersHeader, hlen, ← hm.mask, ← hkind]
  refine ⟨ms, hm, ?_⟩
  change bytes = membersImage h.key ms
  have hdrop := @members_of_gets ⟨bytes, h⟩ 0 ms (by simpa [hlen] using hlength.symm)
    (by simpa using hm.get)
  conv_lhs => rw [Header.bytes_of_read hread]
  rw [membersImage, hheader, hlen, ← hlength]
  simpa using hdrop

end

/-! ### The records as values -/

section

variable {key : GroupKey} {kind : BitmapKind} {pages : List PageOffsets} {ms : List Member}
  {output : List UInt8} {start mask room : ℕ}

theorem memberSummary_eq : memberSummary key ms room = .ok mask →
    encodeMembers key ms room = .ok (membersImage key ms) := by
  intro h
  obtain ⟨_, hcount, h⟩ := ok_of_bind h
  obtain ⟨_, hroom, h⟩ := ok_of_bind h
  obtain ⟨-, -, -, rfl⟩ := checkMembers_ok.1 h
  simp only [encodeMembers, require_of (require_ok hcount), require_of (require_ok hroom), h,
    ok_bind, membersImage, membersHeader, Header.bytes, List.append_assoc]
  rfl

theorem memberSummary_error {e : Error} (h : memberSummary key ms room = .error e) :
    encodeMembers key ms room = .error e := by
  rw [encodeMembers]
  rcases error_of_bind h with h | ⟨_, hcount, h⟩
  · rw [h, error_bind]
  rcases error_of_bind h with h | ⟨_, hroom, h⟩
  · rw [hcount, ok_bind]
    simp only [h, error_bind]
  · rw [hcount, ok_bind]
    simp only [hroom, h, ok_bind, error_bind]

/-- The encoder on a buffer writes the record that `encodeMembers` returns. -/
theorem encodeMembersInto_value (hv : key.Valid) : encodeMembersInto key ms output =
    match encodeMembers key ms output.length with
    | .error e => (.error e, output)
    | .ok bytes => (.ok bytes.length, bytes ++ output.drop bytes.length) := by
  rw [encodeMembersInto_eq hv]
  cases h : memberSummary key ms output.length with
  | error e => simp only [memberSummary_error h]
  | ok mask => simp only [memberSummary_eq h, length_membersImage]

theorem encodePayloads_cases : encodePayloads key pages = .error .invalidState ∨
    ∀ p ∈ pages, key.base + p.page ≠ noBlock ∧ p.offsets ≠ 0 ∧ p.offsets < 2 ^ key.maxOffset := by
  induction pages with
  | nil => exact .inr fun p hp => absurd hp List.not_mem_nil
  | cons p pages ih =>
    by_cases hblock : key.base + p.page = noBlock
    · refine .inl ?_
      rw [encodePayloads, GroupKey.block, if_pos hblock, error_bind]
    cases hlen : bitmapLen key p.offsets with
    | error e =>
      refine .inl ?_
      rw [encodePayloads, GroupKey.block, if_neg hblock, ok_bind, hlen, error_bind]
      unfold bitmapLen at hlen
      split_ifs at hlen
      exact congrArg _ (Except.error.inj hlen).symm
    | ok n =>
      obtain ⟨h0, hlt, -⟩ := of_bitmapLen hlen
      refine ih.imp (fun h => ?_) fun h => List.forall_mem_cons.2 ⟨⟨hblock, h0, hlt⟩, h⟩
      rw [encodePayloads, GroupKey.block, if_neg hblock, ok_bind, hlen, ok_bind, h, error_bind]

theorem encodePayloads_eq (hs : SortedPages pages) (hof : ∀ p ∈ pages, p.Of key) :
    ∀ {all : List PageOffsets}, SortedPages all → (∀ p ∈ pages, p ∈ all) →
      encodePayloads key pages =
        .ok (offsetBytes (widths (pageValue all)) (pageValue all)
          (pages.map PageOffsets.page)) := by
  intro all hall hsub
  induction pages with
  | nil => rfl
  | cons p pages ih =>
    have hp := hof p List.mem_cons_self
    have hval := pageValue_of_mem hall (hsub p List.mem_cons_self)
    rw [encodePayloads, GroupKey.block, if_neg hp.block, ok_bind, bitmapLen_ok hp.pos hp.lt,
      ok_bind, ih (List.pairwise_cons.1 hs).2 (fun q hq => hof q (List.mem_cons_of_mem _ hq))
        fun q hq => hsub q (List.mem_cons_of_mem _ hq)]
    simp only [ok_bind, offsetBytes, List.map_cons, List.flatMap_cons, widths, hval]

theorem encodeDirectory_eq (hof : ∀ p ∈ pages, p.Of key) :
    ∀ {all : List PageOffsets}, SortedPages all → (∀ p ∈ pages, p ∈ all) →
      encodeDirectory key start pages =
        .ok (entryBytes (widths (pageValue all)) start (pages.map PageOffsets.page)) := by
  intro all hall hsub
  induction pages generalizing start with
  | nil => rfl
  | cons p pages ih =>
    have hp := hof p List.mem_cons_self
    have hval := pageValue_of_mem hall (hsub p List.mem_cons_self)
    rw [encodeDirectory, bitmapLen_ok hp.pos hp.lt, ok_bind,
      ih (fun q hq => hof q (List.mem_cons_of_mem _ hq))
        fun q hq => hsub q (List.mem_cons_of_mem _ hq)]
    simp only [ok_bind, List.map_cons, entryBytes, widths, hval, List.append_assoc]
    rfl

theorem pages_eq_setBits (hs : SortedPages pages) (hp : ∀ p ∈ pages, p.page < 256) :
    pages.map PageOffsets.page = setBits (maskPages 0 pages) 256 := by
  refine eq_setBits (List.pairwise_map.2 hs) fun i => ?_
  rw [testBit_maskPages, Nat.zero_testBit, List.mem_map]
  simp only [Bool.false_eq_true, false_or]
  refine ⟨fun ⟨p, hmem, heq⟩ => ⟨heq ▸ hp p hmem, p, hmem, heq⟩, And.right⟩

/-- Distinct bits add up to their union. -/
theorem pageMask_eq_sum (hs : SortedPages pages) (hmask : ∀ p ∈ pages, mask < 2 ^ p.page) :
    maskPages mask pages = mask + (pages.map fun p => 2 ^ p.page).sum := by
  induction pages generalizing mask with
  | nil => rfl
  | cons p pages ih =>
    obtain ⟨hp, hs⟩ := List.pairwise_cons.1 hs
    have hlt := hmask p List.mem_cons_self
    have hor : insertPage mask p.page = mask + 2 ^ p.page := by
      have := Nat.two_pow_add_eq_or_of_lt hlt 1
      rw [Nat.mul_one] at this
      rw [insertPage, Nat.or_comm, ← this, Nat.add_comm]
    change maskPages (insertPage mask p.page) pages = _
    rw [ih hs fun q hq => ?_, hor, List.map_cons, List.sum_cons, Nat.add_assoc]
    have hle : 2 ^ (p.page + 1) ≤ 2 ^ q.page := Nat.pow_le_pow_right (by decide) (hp q hq)
    rw [Nat.pow_succ] at hle
    omega

/-- The encoder on a buffer writes the record that `encodeBitmap` returns. -/
theorem encodeBitmapInto_value (hv : key.Valid) (hpage : ∀ p ∈ pages, p.page < 256) :
    encodeBitmapInto key kind pages output =
      match encodeBitmap key kind pages output.length with
      | .error e => (.error e, output)
      | .ok bytes => (.ok bytes.length, bytes ++ output.drop bytes.length) := by
  by_cases hs : SortedPages pages
  swap
  · have hcheck : checkPages key none 0 pages = .error .invalidState := by
      cases hc : checkPages key none 0 pages with
      | error e => rw [checkPages_error hc]
      | ok mask => exact absurd (checkPages_ok.1 hc).2.2.1 hs
    have hnone : encodeBitmap key kind pages output.length = .error .invalidState := if_pos hs
    simp only [encodeBitmapInto, hcheck, hnone]
  have hsorted : ¬ ¬ pages.Pairwise fun a b => a.page < b.page := not_not.2 hs
  rcases @encodePayloads_cases key pages with hbad | hgood
  · have hcheck : checkPages key none 0 pages = .error .invalidState := by
      cases hc : checkPages key none 0 pages with
      | error e => rw [checkPages_error hc]
      | ok mask =>
        have hof : ∀ p ∈ pages, p.Of key := fun p hp =>
          ⟨hpage p hp, ((checkPages_ok.1 hc).1 p hp).1, ((checkPages_ok.1 hc).1 p hp).2.1,
            ((checkPages_ok.1 hc).1 p hp).2.2⟩
        rw [encodePayloads_eq hs hof hs fun p hp => hp] at hbad
        cases hbad
    have hnone : encodeBitmap key kind pages output.length = .error .invalidState := by
      rw [encodeBitmap, if_neg hsorted, hbad, error_bind]
    simp only [encodeBitmapInto, hcheck, hnone]
  · have hof : ∀ p ∈ pages, p.Of key := fun p hp =>
      ⟨hpage p hp, (hgood p hp).1, (hgood p hp).2.1, (hgood p hp).2.2⟩
    have hbits := pages_eq_setBits hs hpage
    have hcount : pages.length = (setBits (maskPages 0 pages) 256).length := by
      rw [← hbits, List.length_map]
    have hsum : maskPages 0 pages = 0 + (pages.map fun p => 2 ^ p.page).sum :=
      pageMask_eq_sum hs fun p _ => Nat.two_pow_pos p.page
    rw [Nat.zero_add] at hsum
    have hlen : bitmapHeader + (entryBytes (widths (pageValue pages)) 0
        (setBits (maskPages 0 pages) 256)).length + (offsetBytes (widths (pageValue pages))
        (pageValue pages) (setBits (maskPages 0 pages) 256)).length =
        imageLen (maskPages 0 pages) (widths (pageValue pages)) := by
      rw [length_entryBytes, length_offsetBytes, imageLen]
    have hvalue : encodeBitmap key kind pages output.length =
        if output.length < (pagesBitmap key kind pages).bytes.length then
          .error (.limit "bitmap group output")
        else .ok (pagesBitmap key kind pages).bytes := by
      have hsize : (pagesBitmap key kind pages).bytes.length =
        imageLen (maskPages 0 pages) (widths (pageValue pages)) := length_bitmapImage
      rw [encodeBitmap, if_neg hsorted, encodePayloads_eq hs hof hs fun p hp => hp, ok_bind,
        encodeDirectory_eq hof hs fun p hp => hp, ok_bind, hbits, hlen, hsize, ← hsum, hcount]
      dsimp only
      split_ifs
      · rfl
      · refine congrArg _ ?_
        cases kind <;> simp only [pagesBitmap, imageBitmap, bitmapImage, Header.bytes,
          List.append_assoc] <;> rfl
    rw [encodeBitmapInto_eq hv hs hof, hvalue]
    split_ifs <;> rfl

end

/-! ### Both directions -/

/-- Records and their contents determine each other.  A sorted list of pages, or of owners, is read
back from the record that its encoder writes; an accepted posting record, or membership record, is
what the encoder writes for the content read from it; and an encoder that fails leaves the buffer
of its caller as it was. -/
theorem records_canonical :
    (∀ (key : GroupKey) (kind : BitmapKind) (pages : List PageOffsets), key.Valid →
      SortedPages pages → (∀ p ∈ pages, p.Of key) →
      ∃ b, Bitmap.openRecord b.bytes = .ok b ∧ b.key = key ∧ b.kind = kind ∧
        (∀ page, b.offsets page = .ok (pageValue pages page)) ∧
        ∀ output, encodeBitmapInto key kind pages output =
          if output.length < b.bytes.length then (.error (.limit "bitmap group output"), output)
          else (.ok b.bytes.length, b.bytes ++ output.drop b.bytes.length)) ∧
    (∀ (key : GroupKey) (ms : List Member), key.Valid → Ascending ms → (∀ x ∈ ms, x.Of key) →
      ∃ m, Members.openRecord m.bytes = .ok m ∧ m.key = key ∧ m.len = ms.length ∧
        (∀ (j : ℕ) (x : Member), ms[j]? = some x → m.get j = .ok x) ∧
        (∀ root, m.find root = .ok (ms.find? fun x => x.root = root)) ∧
        (∀ page, key.base + page ≠ noBlock → ∃ all, m.pageOffsets page = .ok all ∧
          ∀ bit, all.testBit bit = true ↔ ∃ x ∈ ms, x.root = ⟨key.base + page, bit + 1⟩) ∧
        ∀ output, encodeMembersInto key ms output =
          if output.length < m.bytes.length then (.error (.limit "group membership output"), output)
          else (.ok m.bytes.length, m.bytes ++ output.drop m.bytes.length)) ∧
    (∀ (bytes : List UInt8) (b : Bitmap), Bitmap.openRecord bytes = .ok b → b.kind = .posting →
      b.validateAll = .ok () → ∃ pages, SortedPages pages ∧ (∀ p ∈ pages, p.Of b.key) ∧
        (∀ page, b.offsets page = .ok (pageValue pages page)) ∧
        ∀ output, bytes.length ≤ output.length → encodeBitmapInto b.key .posting pages output =
          (.ok bytes.length, bytes ++ output.drop bytes.length)) ∧
    (∀ (bytes : List UInt8) (m : Members), Members.openRecord bytes = .ok m →
      ∃ ms, ms.length = m.len ∧ Ascending ms ∧ (∀ x ∈ ms, x.Of m.key) ∧
        (∀ (j : ℕ) (x : Member), ms[j]? = some x → m.get j = .ok x) ∧
        ∀ output, bytes.length ≤ output.length → encodeMembersInto m.key ms output =
          (.ok bytes.length, bytes ++ output.drop bytes.length)) ∧
    ∀ key : GroupKey, key.Valid →
      (∀ kind pages output e, (encodeBitmapInto key kind pages output).1 = .error e →
        (encodeBitmapInto key kind pages output).2 = output) ∧
      ∀ ms output e, (encodeMembersInto key ms output).1 = .error e →
        (encodeMembersInto key ms output).2 = output := by
  refine ⟨fun key kind pages hv hs hof => ?_, fun key ms hv hs hof => ?_,
    fun bytes b ho hk hvalid => ?_, fun bytes m ho => ?_, fun key hv => ⟨?_, ?_⟩⟩
  · obtain ⟨hopen, hoff⟩ := @pagesBitmap_open key kind pages hv hs hof
    exact ⟨_, hopen, rfl, rfl, hoff, fun output => encodeBitmapInto_eq hv hs hof⟩
  · obtain ⟨hopen, hm⟩ := openRecord_membersImage hv hs hof
    have hlen : (imageMembers key ms).bytes.length = 72 + ms.length * 16 := length_membersImage
    refine ⟨_, hopen, rfl, rfl, hm.get, hm.find_eq, fun page hblock => hm.pageOffsets_ok hblock,
      fun output => ?_⟩
    rw [encodeMembersInto_eq hv, hlen]
    split_ifs with hroom
    · rw [memberSummary, require_of (hs.length_le hv hof), ok_bind, require,
        if_neg (Nat.not_le.2 hroom), error_bind]
    · rw [memberSummary_ok hv hs hof (Nat.not_lt.1 hroom)]
      rfl
  · obtain ⟨pages, hs, hof, hv, hbytes, hoff⟩ := Bitmap.posting_canonical ho hk hvalid
    refine ⟨pages, hs, hof, hoff, fun output hroom => ?_⟩
    rw [encodeBitmapInto_eq hv hs hof, ← hbytes, if_neg (Nat.not_lt.2 hroom)]
  · obtain ⟨ms, hm, hbytes⟩ := Members.canonical ho
    refine ⟨ms, hm.length, hm.sorted, hm.of, hm.get, fun output hroom => ?_⟩
    have hlen : bytes.length = 72 + ms.length * 16 := by rw [hbytes, length_membersImage]
    rw [hlen] at hroom
    rw [encodeMembersInto_eq hm.valid, memberSummary_ok hm.valid hm.sorted hm.of hroom,
      ← hbytes, hlen]
  · exact fun kind pages output e h => encodeBitmapInto_error hv h
  · intro ms output e h
    rw [encodeMembersInto_eq hv] at h ⊢
    cases hsum : memberSummary key ms output.length with
    | error e' => rfl
    | ok mask =>
      rw [hsum] at h
      cases h

/-- Two pages of a group are written and read back. -/
theorem records_canonical_two : ∃ b, Bitmap.openRecord b.bytes = .ok b ∧
    b.key = ⟨1, 7, 256, 8⟩ ∧ b.kind = .posting ∧
    (∀ page, b.offsets page = .ok (pageValue [⟨0, 3⟩, ⟨1, 16⟩] page)) ∧
    ∀ output, encodeBitmapInto ⟨1, 7, 256, 8⟩ .posting [⟨0, 3⟩, ⟨1, 16⟩] output =
      if output.length < b.bytes.length then (.error (.limit "bitmap group output"), output)
      else (.ok b.bytes.length, b.bytes ++ output.drop b.bytes.length) := by
  have hv : GroupKey.Valid ⟨1, 7, 256, 8⟩ :=
    ⟨by decide, by decide, by decide, by decide, by decide⟩
  have hof : ∀ p ∈ [PageOffsets.mk 0 3, ⟨1, 16⟩], p.Of ⟨1, 7, 256, 8⟩ := by
    intro p hp
    rcases List.mem_pair.1 hp with rfl | rfl
    · exact ⟨by decide, by decide, by decide, by decide⟩
    · exact ⟨by decide, by decide, by decide, by decide⟩
  exact records_canonical.1 _ _ _ hv (by simp [SortedPages]) hof

end Grouped

end PinCore
