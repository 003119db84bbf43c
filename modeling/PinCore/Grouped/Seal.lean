import PinCore.Grouped.Inline
import PinCore.Grouped.Liveness
import PinCore.Grouped.Lookup

/-!
# Sealing one group of a key

A builder that has collected the members of a heap group, or the pages of a term in it, stores their
records and enters the key in the catalog.  What it sealed is read back as the bitmap of exactly
those roots, over every history that keeps the pages of the segment.
-/

namespace PinCore

open Prog

namespace Grouped

/-! ### The operation -/

/-- What a build counts. -/
structure BuildStats where
  documents : ℕ
  postings : ℕ
  frontierTerms : ℕ
  groups : ℕ
  termGroups : ℕ
  reclaimedPages : ℕ
  writtenPages : ℕ
  reusedPages : ℕ
  deriving DecidableEq, Repr

/-- Before the first row. -/
def BuildStats.default : BuildStats := ⟨0, 0, 0, 0, 0, 0, 0, 0⟩

/-- The room of the builder for one record.  (`MEMBER_BYTES` of the builder in the source.) -/
def recordRoom : ℕ := 72 + 256 * 512 * 16

/-- The first liveness record of a roster, encoded in a buffer of its own. -/
def initialLiveness (roster : Members) : Except Error (List UInt8) :=
  (roster.encodeLiveness (List.replicate maxBitmapBytes 0)).1.map fun len =>
    (roster.encodeLiveness (List.replicate maxBitmapBytes 0)).2.take len

/-- Stores the bitmap of a key and enters it in the catalog. -/
def sealBitmap (x : GroupSnapshot) (catalog : CatalogBuilder) (key : ℕ × ℕ) (kind : GroupPageKind)
    (bytes : List UInt8) (members memberBytes count : ℕ) : Wr (GroupSnapshot × CatalogBuilder) := do
  let view ← Prog.ofExcept (Bitmap.openRecord bytes)
  let ((_, blocks), x) ← writeRecord x kind key bytes
  catalog.push x
    (Value.entry ⟨bytes.length, blocks, view.mask, members, memberBytes, count, none⟩ key)

/-- Seals what was collected for a key.  (`seal` in the source.) -/
def sealGroup (x : GroupSnapshot) (catalog : CatalogBuilder) (key : ℕ × ℕ) (members : List Member)
    (pages : List PageOffsets) (stats : BuildStats) :
    Wr (GroupSnapshot × CatalogBuilder × BuildStats) := do
  let l ← Prog.reading layout
  let logical ← Prog.ofExcept (groupKey x.id (key.2 % 4294967296) l)
  if key.1 = 0 then
    let bytes ← Prog.ofExcept (encodeMembers logical members recordRoom)
    let ((head, _), x) ← writeRecord x .members key bytes
    let roster ← Prog.ofExcept (Members.openRecord bytes)
    let live ← Prog.ofExcept (initialLiveness roster)
    let (x, catalog) ← sealBitmap x catalog key .liveness live head bytes.length members.length
    return (x, catalog, { stats with groups := stats.groups + 1 })
  else
    match ← Prog.ofExcept (Value.inlinePostings key pages l) with
    | some entry =>
      let (x, catalog) ← catalog.push x entry
      return (x, catalog, { stats with termGroups := stats.termGroups + 1 })
    | none =>
      let bytes ← Prog.ofExcept (encodeBitmap logical .posting pages recordRoom)
      let (x, catalog) ← sealBitmap x catalog key .posting bytes noBlock 0 0
      return (x, catalog, { stats with termGroups := stats.termGroups + 1 })

/-! ### Bitmaps of roots -/

/-- The bitmap has exactly these roots of its group. -/
structure Bitmap.Holds (b : Bitmap) (k : GroupKey) (tag : BitmapKind) (roots : List RootTid) :
    Prop where
  key : b.key = k
  kind : b.kind = tag
  mask : b.mask < 2 ^ 256
  block : ∀ page, b.mask.testBit page = true → k.base + page ≠ noBlock
  offsets : ∀ page < 256, ∃ v, b.offsets page = .ok v ∧ v < 2 ^ 512 ∧
    ∀ bit, v.testBit bit = true ↔ ⟨k.base + page, bit + 1⟩ ∈ roots
  pages : ∀ page < 256, (∃ bit, ⟨k.base + page, bit + 1⟩ ∈ roots) → b.mask.testBit page = true

section

variable {key : GroupKey} {kind : BitmapKind} {pages : List PageOffsets} {roots : List RootTid}
  {b : Bitmap} {m : Members} {ms : List Member}

/-- A page that holds an offset is a page of the list. -/
theorem pageValue_page {page bit : ℕ} (h : (pageValue pages page).testBit bit = true) :
    ∃ p ∈ pages, p.page = page := by
  by_contra hn
  rw [pageValue_absent fun p hp he => hn ⟨p, hp, he⟩, Nat.zero_testBit] at h
  cases h

theorem lt_two_pow_layout (hv : key.Valid) {v : ℕ} (h : v < 2 ^ key.maxOffset) : v < 2 ^ 512 :=
  lt_two_pow_of_bits fun _ hbit => Nat.lt_of_lt_of_le (testBit_lt h hbit) hv.maxOffset.2

theorem zero_lt_two_pow (n : ℕ) : 0 < 2 ^ n :=
  lt_two_pow_of_bits fun bit hbit => absurd hbit (by simp)

theorem pageValue_lt (hof : ∀ p ∈ pages, p.Of key) (hv : key.Valid) (page : ℕ) :
    pageValue pages page < 2 ^ 512 := by
  by_cases h : ∃ p ∈ pages, p.page = page
  · obtain ⟨p, hp, rfl⟩ := h
    have hfind : ∃ q ∈ pages, (pages.find? fun q => q.page = p.page) = some q := by
      cases hf : pages.find? fun q => q.page = p.page with
      | none => exact absurd (List.find?_eq_none.1 hf p hp) (by simp)
      | some q => exact ⟨q, List.mem_of_find?_eq_some hf, rfl⟩
    obtain ⟨q, hq, hf⟩ := hfind
    rw [pageValue, hf]
    exact lt_two_pow_layout hv (hof q hq).lt
  · rw [pageValue_absent fun p hp he => h ⟨p, hp, he⟩]
    exact zero_lt_two_pow 512

/-- The record of a sorted list of pages holds their coordinates. -/
theorem pagesBitmap_holds (hv : key.Valid) (hs : SortedPages pages) (hof : ∀ p ∈ pages, p.Of key)
    (hroots : ∀ page < 256, ∀ bit, (pageValue pages page).testBit bit = true ↔
      ⟨key.base + page, bit + 1⟩ ∈ roots) : (pagesBitmap key kind pages).Holds key kind roots where
  key := rfl
  kind := rfl
  mask := maskPages_lt fun p hp => (hof p hp).page
  block page hbit := by
    rcases testBit_maskPages.1 hbit with hbit | ⟨p, hp, rfl⟩
    · rw [Nat.zero_testBit] at hbit
      cases hbit
    · exact (hof p hp).block
  offsets page hp :=
    ⟨_, (pagesBitmap_open hv hs hof).2 page, pageValue_lt hof hv page, hroots page hp⟩
  pages page hp h := by
    obtain ⟨bit, hbit⟩ := h
    exact testBit_maskPages.2 (.inr (pageValue_page ((hroots page hp bit).2 hbit)))

/-- The first liveness record of a roster holds the roots of its members. -/
theorem liveness_holds (hm : m.Holds ms) :
    (m.liveness m.all).Holds m.key .liveness (ms.map Member.root) where
  key := rfl
  kind := rfl
  mask := hm.mask_lt
  block page hbit := hm.block (mem_setBits.2 ⟨testBit_lt hm.mask_lt hbit, hbit⟩)
  offsets page hp := by
    rw [within_all.offsets hm]
    by_cases hbit : m.header.mask.testBit page = true
    · have hmem := mem_setBits.2 ⟨hp, hbit⟩
      rw [if_pos hbit]
      refine ⟨_, rfl, lt_two_pow_layout hm.valid (hm.encodable hmem).lt, fun bit => ?_⟩
      rw [(hm.pageOffsets_all (hm.block hmem)).2 bit, List.mem_map]
    · rw [if_neg hbit]
      refine ⟨0, rfl, zero_lt_two_pow 512, fun bit => ?_⟩
      rw [Nat.zero_testBit]
      refine iff_of_false (by simp) fun hmem => hbit ?_
      obtain ⟨x, hx, hroot⟩ := List.mem_map.1 hmem
      refine hm.testBit_mask.2 ⟨x, hx, ?_⟩
      rw [(hm.of x hx).root.page_eq hm.valid hp, hroot]
  pages page hp h := by
    obtain ⟨bit, hbit⟩ := h
    obtain ⟨x, hx, hroot⟩ := List.mem_map.1 hbit
    refine hm.testBit_mask.2 ⟨x, hx, ?_⟩
    rw [(hm.of x hx).root.page_eq hm.valid hp, hroot]

theorem length_pagesBitmap (hs : SortedPages pages) (hv : key.Valid) (hof : ∀ p ∈ pages, p.Of key) :
    (pagesBitmap key kind pages).bytes.length ≤ maxBitmapBytes := by
  have hlen : (pagesBitmap key kind pages).bytes.length =
      imageLen (maskPages 0 pages) (widths (pageValue pages)) := length_bitmapImage
  rw [hlen]
  exact imageLen_le fun page hp => (lookupPage_ok hs hof page hp).2.width_le hv.maxOffset.2

theorem le_length_pagesBitmap : 72 ≤ (pagesBitmap key kind pages).bytes.length := by
  have hlen : (pagesBitmap key kind pages).bytes.length =
      imageLen (maskPages 0 pages) (widths (pageValue pages)) := length_bitmapImage
  rw [hlen, imageLen, bitmapHeader]
  omega

/-- Sorted pages are encoded, given the room. -/
theorem encodeBitmap_ok (hv : key.Valid) (hs : SortedPages pages) (hof : ∀ p ∈ pages, p.Of key)
    {room : ℕ} (hroom : maxBitmapBytes ≤ room) :
    encodeBitmap key kind pages room = .ok (pagesBitmap key kind pages).bytes := by
  have hvalue : encodeBitmapInto key kind pages (List.replicate room 0) = _ :=
    encodeBitmapInto_value hv fun p hp => (hof p hp).page
  have hle : (pagesBitmap key kind pages).bytes.length ≤ maxBitmapBytes :=
    length_pagesBitmap hs hv hof
  rw [encodeBitmapInto_eq hv hs hof, List.length_replicate, if_neg (by omega)] at hvalue
  cases h : encodeBitmap key kind pages room with
  | error e =>
    rw [h] at hvalue
    cases congrArg Prod.fst hvalue
  | ok bytes =>
    rw [h] at hvalue
    have hlen : (pagesBitmap key kind pages).bytes.length = bytes.length :=
      Except.ok.inj (congrArg Prod.fst hvalue)
    exact congrArg _ (List.append_inj (congrArg Prod.snd hvalue) hlen).1.symm

theorem encodeMembers_ok (hv : key.Valid) (hs : Ascending ms) (hof : ∀ x ∈ ms, x.Of key) :
    encodeMembers key ms recordRoom = .ok (membersImage key ms) := by
  have hcount := hs.length_le hv hof
  have hmax := hv.maxOffset.2
  have hroom : 72 + ms.length * 16 ≤ (List.replicate recordRoom (0 : UInt8)).length := by
    rw [List.length_replicate, recordRoom]
    omega
  have hsum := memberSummary_ok hv hs hof hroom
  rw [List.length_replicate] at hsum
  exact memberSummary_eq hsum

theorem length_liveness (hm : m.Holds ms) : (m.liveness m.all).bytes.length ≤ maxBitmapBytes := by
  have hlen : (m.liveness m.all).bytes.length = imageLen m.header.mask (widths m.all) :=
    length_bitmapImage
  rw [hlen]
  exact imageLen_le fun page hp => (hm.encodable hp).width_le hm.valid.maxOffset.2

theorem le_length_liveness : 72 ≤ (m.liveness m.all).bytes.length := by
  have hlen : (m.liveness m.all).bytes.length = imageLen m.header.mask (widths m.all) :=
    length_bitmapImage
  rw [hlen, imageLen, bitmapHeader]
  omega

theorem initialLiveness_ok (hm : m.Holds ms) :
    initialLiveness m = .ok (m.liveness m.all).bytes := by
  have hle := length_liveness hm
  rw [initialLiveness, hm.encodeLiveness_eq, List.length_replicate, if_neg (by omega)]
  exact congrArg _ (List.take_left' rfl)

end

/-! ### Reading back -/

/-- What may be durable while a segment is built: what is published is as it was. -/
def Aside (s : Store) (m : MetaBody) (s' : Store) : Prop :=
  ∃ m', Beside s s' m m' ∧ Retains s s' m m'

/-- The identity of the group at `base` in a segment. -/
def segmentKey (s : Store) (id base : ℕ) : GroupKey := ⟨1, id, base, s.layout.maxOffset⟩

/-- The entry is read as the bitmap of these roots, over every history that keeps the segment. -/
def SealedAs (s : Store) (id : ℕ) (e : CatalogEntry) (roots : List RootTid) : Prop :=
  ∃ v b, Value.read e = .ok v ∧ v.pages = b.mask ∧
    b.Holds (segmentKey s id e.key.2) (if e.key.1 = 0 then .liveness else .posting) roots ∧
    ∀ H, Preserved s id H → ∀ t, Obs.Sees H t (readBitmap id e) fun y _ => y.2.2 = b

/-- The entry names a roster that is read as that of these members. -/
def RosterAs (s : Store) (id : ℕ) (e : CatalogEntry) (ms : List Member) : Prop :=
  ∃ v, Value.read e = .ok v ∧ v.count = ms.length ∧ ∀ H, Preserved s id H → ∀ t,
    Obs.Sees H t (readRecord id .members e.key v.members v.memberBytes none) fun r _ =>
      r = membersImage (segmentKey s id e.key.2) ms

section

variable {α : Type} {E : Error → Prop} {Q : α → Store → Prop} {f : Wr α} {s s' : Store}
  {m m' : MetaBody} {x x' : GroupSnapshot} {H : ℕ → Store} {id t index : ℕ} {key : ℕ × ℕ}
  {kind : GroupPageKind} {bytes : List UInt8} {blocks : List ℕ} {e : CatalogEntry} {v : Value}
  {b : Bitmap} {roots : List RootTid} {ms : List Member} {pages : List PageOffsets}

/-- What follows a step that only grew the segment may be cut off as well. -/
theorem Grown.aside (hg : Grown s s' x x' m m') (hf : Spec E (Aside s' m') s' f Q) :
    Spec E (Aside s m) s' f Q := by
  refine hf.mono ?_ fun _ _ h => h
  rintro s'' ⟨m'', hb, hr⟩
  exact ⟨m'', hg.beside.trans hb, hg.retains.trans hr⟩

theorem Grown.layout (hg : Grown s s' x x' m m') : s'.layout = s.layout :=
  hg.beside.canonical.layout

theorem Grown.segmentKey (hg : Grown s s' x x' m m') (base : ℕ) :
    Grouped.segmentKey s' id base = Grouped.segmentKey s id base := by
  rw [Grouped.segmentKey, hg.layout]
  rfl

theorem Grown.preserved (hg : Grown s s' x x' m m') (h : Preserved s' id H) : Preserved s id H where
  pages := h.pages
  layout t := (h.layout t).trans hg.layout
  body t c g hb hid := h.body t c g (hg.body c g hb) hid
  link t c hin hn := by
    have hlink := hg.link c hin.kind hn
    rw [h.link t c (hg.inSegment hin) (by rw [hlink]; exact hn), hlink]

theorem Grown.sealedAs (hg : Grown s s' x x' m m') (h : SealedAs s id e roots) :
    SealedAs s' id e roots := by
  obtain ⟨v, b, hv, hp, hb, hread⟩ := h
  refine ⟨v, b, hv, hp, ?_, fun H hH => hread H (hg.preserved hH)⟩
  rw [hg.segmentKey]
  exact hb

theorem Grown.rosterAs (hg : Grown s s' x x' m m') (h : RosterAs s id e ms) :
    RosterAs s' id e ms := by
  obtain ⟨v, hv, hc, hread⟩ := h
  refine ⟨v, hv, hc, fun H hH => ?_⟩
  rw [hg.segmentKey]
  exact hread H (hg.preserved hH)

theorem segmentKey_valid (hid : 0 < id ∧ id < 2 ^ 64) (hk : validKey key) :
    (segmentKey s id key.2).Valid := by
  refine ⟨⟨Nat.one_pos, Nat.one_lt_two_pow (by decide)⟩, hid, hk.2.1, ?_, s.layout.pos, s.layout.le⟩
  have := hk.1
  change key.2 < 2 ^ 32
  omega

theorem groupKey_of_valid (hk : validKey key) (l : HeapLayout) :
    groupKey id (key.2 % 4294967296) l = .ok ⟨1, id, key.2, l.maxOffset⟩ := by
  have hle := hk.1
  rw [Nat.mod_eq_of_lt (by omega)]
  exact if_pos hk.2.1

theorem Preserved.layout_sees (hH : Preserved s id H) :
    Obs.Sees H t PinCore.layout fun l _ => l = s.layout := Obs.Sees.observe (hH.layout t)

/-- An entry whose record is stored is read from it. -/
theorem readBitmap_record_sees (hH : Preserved s id H) (hk : validKey e.key)
    (hv : Value.read e = .ok v) (h0 : v.len ≠ 0)
    (hrec : Recorded s id (if e.key.1 = 0 then .liveness else .posting) e.key bytes blocks)
    (hlen : v.len = bytes.length) (hblocks : v.blocks = leadingBlocks blocks)
    (hle : blocks.length ≤ 3) (ho : Bitmap.openRecord bytes = .ok b) (hmask : v.pages = b.mask)
    (hb : b.Holds (segmentKey s id e.key.2) (if e.key.1 = 0 then .liveness else .posting) roots) :
    Obs.Sees H t (readBitmap id e) fun y _ => y.2.2 = b := by
  have hhead : v.blocks.headD noBlock = blocks.headD noBlock := by
    rw [hblocks]
    cases blocks <;> rfl
  refine Obs.Sees.ofExcept_bind hv (hH.layout_sees.bind ?_)
  rintro _ t' - rfl
  refine Obs.Sees.ofExcept_bind (groupKey_of_valid hk _) ?_
  rw [if_neg h0, hhead, hlen]
  simp only [decide_eq_true_eq]
  refine (readRecord_sees hH hrec ?_).bind ?_
  · rintro _ ⟨⟩ i c hc
    obtain ⟨hi, -⟩ := List.getElem?_eq_some_iff.1 hc
    rw [hblocks, leadingBlocks, List.getElem?_take, if_pos (by omega),
      List.getElem?_append_left hi]
    exact hc
  · rintro _ t'' - rfl
    refine Obs.Sees.ofExcept_bind ho (Obs.Sees.ensure_bind ⟨hb.key, ?_, hmask.symm⟩ ?_)
    · rw [hb.kind]
      simp only [decide_eq_true_eq]
    · exact Obs.Sees.pure rfl

/-- An entry with inline postings is read from itself. -/
theorem readBitmap_inline_sees (hH : Preserved s id H) (hid : 0 < id ∧ id < 2 ^ 64)
    (hk : validKey e.key) (hv : Value.read e = .ok v) (h0 : v.len = 0) (hs : SortedPages pages)
    (hof : ∀ p ∈ pages, p.Of (segmentKey s id e.key.2))
    (hpages : v.inlinePages s.layout.maxOffset = .ok pages) :
    Obs.Sees H t (readBitmap id e) fun y _ =>
      y.2.2 = pagesBitmap (segmentKey s id e.key.2) .posting pages := by
  have hkey := segmentKey_valid (s := s) hid hk
  refine Obs.Sees.ofExcept_bind hv (hH.layout_sees.bind ?_)
  rintro _ t' - rfl
  refine Obs.Sees.ofExcept_bind (groupKey_of_valid hk _) ?_
  rw [if_pos h0]
  refine Obs.Sees.ofExcept_bind hpages ?_
  refine Obs.Sees.ofExcept_bind (encodeBitmap_ok hkey hs hof (Nat.le_refl _)) ?_
  exact Obs.Sees.ofExcept_bind (pagesBitmap_open hkey hs hof).1 (Obs.Sees.pure rfl)

/-! ### The value of a stored record -/

theorem Fragments.body_of_mem (h : Fragments s id kind key bytes index blocks) {c : ℕ}
    (hc : c ∈ blocks) : ∃ i, index ≤ i ∧ s.body c = .grouped (.record id kind key bytes.length
      (i * groupDataBytes) (fragmentAt bytes i)) := by
  induction blocks generalizing index with
  | nil => exact absurd hc List.not_mem_nil
  | cons d ds ih =>
    obtain ⟨hbody, -, hrest⟩ := h
    rcases List.mem_cons.1 hc with rfl | hc
    · exact ⟨index, Nat.le_refl _, hbody⟩
    · obtain ⟨i, hi, hbody⟩ := ih hrest hc
      exact ⟨i, Nat.le_of_succ_le hi, hbody⟩

theorem Fragments.nodup (h : Fragments s id kind key bytes index blocks) : blocks.Nodup := by
  induction blocks generalizing index with
  | nil => exact .nil
  | cons d ds ih =>
    obtain ⟨hbody, -, hrest⟩ := h
    refine List.nodup_cons.2 ⟨fun hmem => ?_, ih hrest⟩
    -- later fragments stand at later offsets
    obtain ⟨i, hi, hbody'⟩ := hrest.body_of_mem hmem
    rw [hbody] at hbody'
    have hoff : index * groupDataBytes = i * groupDataBytes := by
      injection hbody' with hrec
      injection hrec
    have := Nat.eq_of_mul_eq_mul_right groupDataBytes_pos hoff
    omega

theorem leadingBlocks_take (hle : blocks.length ≤ 3) :
    (leadingBlocks blocks).take blocks.length = blocks := by
  rw [leadingBlocks, List.take_take, Nat.min_eq_left hle, List.take_left' rfl]

theorem leadingBlocks_drop {c : ℕ} (hc : c ∈ (leadingBlocks blocks).drop blocks.length) :
    c = noBlock := by
  rw [leadingBlocks, List.drop_take] at hc
  have := List.mem_of_mem_take hc
  rw [List.drop_left' rfl] at this
  exact (List.mem_replicate.1 this).2

/-- The roster that a value names: one stored for a group, and none for a term. -/
def RosterOk (s : Store) (id : ℕ) (key : ℕ × ℕ) (head memberBytes count : ℕ) : Prop :=
  if key.1 = 0 then
    (∃ total offset bytes, s.body head = .grouped (.record id .members key total offset bytes)) ∧
      count ≠ 0 ∧ count ≤ 256 * 512 ∧ memberBytes = 72 + count * 16
  else head = noBlock ∧ memberBytes = 0 ∧ count = 0

section

variable {head memberBytes count mask : ℕ}

theorem value_valid (h : Segmented s m) (hr : RecordOk kind key bytes) (hk : kind ≠ .members)
    (hrec : Recorded s id kind key bytes blocks)
    (hroster : RosterOk s id key head memberBytes count)
    (hmask : mask ≠ 0 ∧ mask < 2 ^ 256) :
    (Value.mk bytes.length (leadingBlocks blocks) mask head memberBytes count none).Valid key := by
  have hle : blocks.length ≤ 3 := by
    rw [hrec.count]
    exact fragmentCount_le hr hk
  have hlen := hr.length
  rw [if_neg hk] at hlen
  have hin : ∀ c ∈ blocks, s.InSegment id c := by
    intro c hc
    obtain ⟨i, -, hbody⟩ := hrec.fragments.body_of_mem hc
    exact ⟨_, hbody, rfl⟩
  have hlt : ∀ {c : ℕ}, s.InSegment id c → c < 2 ^ 32 := by
    intro c hc
    have h₁ := h.lt_blocks hc
    have h₂ := h.pages.le
    rw [noBlock] at h₂
    omega
  have hleading : ∀ c ∈ leadingBlocks blocks, c ∈ blocks ∨ c = noBlock := by
    intro c hc
    rw [← List.take_append_drop blocks.length (leadingBlocks blocks), List.mem_append,
      leadingBlocks_take hle] at hc
    exact hc.imp_right leadingBlocks_drop
  have hused : (bytes.length + groupDataBytes - 1) / groupDataBytes = blocks.length :=
    hrec.count.symm
  have hmembers : if key.1 = 0 then head ≠ 0 ∧ head ≠ noBlock ∧ count ≠ 0 ∧ count ≤ 256 * 512 ∧
      memberBytes = 72 + count * 16 ∧ head ∉ leadingBlocks blocks
      else head = noBlock ∧ memberBytes = 0 ∧ count = 0 := by
    unfold RosterOk at hroster
    split_ifs at hroster ⊢ with h0
    · obtain ⟨⟨total, offset, bytes', hbody⟩, hcount⟩ := hroster
      have hvalid := h.blockValid ⟨_, hbody, rfl⟩
      refine ⟨hvalid.1, hvalid.2, hcount.1, hcount.2.1, hcount.2.2, fun hmem => ?_⟩
      rcases hleading head hmem with hmem | rfl
      · obtain ⟨i, -, hbody'⟩ := hrec.fragments.body_of_mem hmem
        rw [hbody] at hbody'
        injection hbody' with hrec'
        injection hrec' with _ hkind
        exact hk hkind.symm
      · exact hvalid.2 rfl
    · exact hroster
  refine .record ⟨?_, ?_, hmask.2, ?_, ?_, ?_⟩ rfl ⟨hlen.1, hlen.2, ?_⟩
  · exact Nat.lt_of_le_of_lt hlen.2 (by decide)
  · have hall : ∀ c ∈ leadingBlocks blocks, c < 2 ^ 32 := by
      intro c hc
      rcases hleading c hc with hc | rfl
      · exact hlt (hin c hc)
      · decide
    obtain ⟨c₁, c₂, c₃, hthree⟩ := List.length_eq_three.1 (show (leadingBlocks blocks).length = 3 by
      rw [leadingBlocks, List.length_take, List.length_append, List.length_replicate]
      omega)
    rw [hthree] at hall
    exact ⟨c₁, c₂, c₃, hthree, hall _ (by simp), hall _ (by simp), hall _ (by simp)⟩
  · unfold RosterOk at hroster
    split_ifs at hroster with h0
    · obtain ⟨⟨total, offset, bytes', hbody⟩, -⟩ := hroster
      exact hlt ⟨_, hbody, rfl⟩
    · change head < 2 ^ 32
      rw [hroster.1]
      decide
  · change memberBytes < 2 ^ 32
    unfold RosterOk at hroster
    split_ifs at hroster <;> omega
  · change count < 2 ^ 32
    unfold RosterOk at hroster
    split_ifs at hroster <;> omega
  · dsimp only
    rw [hused, leadingBlocks_take hle]
    exact ⟨fun c hc => h.blockValid (hin c hc), hrec.fragments.nodup,
      fun c hc => leadingBlocks_drop hc, hmembers, hmask.1⟩

end

/-! ### Sealing -/

/-- The entry was pushed for the key, and is read as the bitmap of the roots. -/
structure Entered (s s' : Store) (x : GroupSnapshot) (m m' : MetaBody)
    (y : GroupSnapshot × CatalogBuilder) (es : List CatalogEntry) (key : ℕ × ℕ)
    (roots : List RootTid) (e : CatalogEntry) : Prop where
  grown : Grown s s' x y.1 m m'
  collects : y.2.Collects s' y.1 (es ++ [e])
  tip : y.2.Tip y.1 catalogLevels
  key : e.key = key
  sealedAs : SealedAs s' x.id e roots

section

variable {c : CatalogBuilder} {es : List CatalogEntry} {members memberBytes count : ℕ}

theorem length_valueEntry (hv : v.Valid key) : (v.entry key).value.length = 64 ∧
    (v.entry key).key = key := by
  cases hv with
  | inline bytes hinline hlen =>
    rw [Value.entry, hinline]
    simp [hlen, Reader.length_leBytes]
  | record hfits hinline =>
    obtain ⟨c₁, c₂, c₃, hthree, -⟩ := hfits.blocks
    rw [Value.entry, hinline]
    simp [hthree, Reader.length_leBytes]
  | legacy hfits hinline =>
    obtain ⟨c₁, c₂, c₃, hthree, -⟩ := hfits.blocks
    rw [Value.entry, hinline]
    simp [hthree, Reader.length_leBytes]

/-- The kind of the bitmap record of a key. -/
def bitmapKind (key : ℕ × ℕ) : GroupPageKind := if key.1 = 0 then .liveness else .posting

theorem sealBitmap_spec (h : Appending s x m) (hE : E .host) (hc : c.Collects s x es)
    (hnext : ∀ k ∈ es.getLast?.map (·.key), keyLt k key)
    (hdeep : catalogEntries ^ catalogLevels ≤ es.length + 1 → E (.limit "group catalog depth"))
    (hr : RecordOk (bitmapKind key) key bytes) (ho : Bitmap.openRecord bytes = .ok b)
    (hb : b.Holds (segmentKey s x.id key.2) (if key.1 = 0 then .liveness else .posting) roots)
    (h0 : b.mask ≠ 0) (hroster : RosterOk s x.id key members memberBytes count) :
    Spec E (Aside s m) s (sealBitmap x c key (bitmapKind key) bytes members memberBytes count)
      fun y s' => ∃ m' e, Entered s s' x m m' y es key roots e ∧ ∃ v, Value.read e = .ok v ∧
        v.members = members ∧ v.memberBytes = memberBytes ∧ v.count = count := by
  have hkind : bitmapKind key ≠ .members := by
    unfold bitmapKind
    split_ifs <;> rintro ⟨⟩
  refine Spec.ofExcept_bind ho ((writeRecord_spec h hE hr).bind ?_)
  rintro ⟨⟨head, leading⟩, x₁⟩ s₁ ⟨m₁, blocks, hg, hrec, hy⟩
  have hg : Grown s s₁ x x₁ m m₁ := hg
  have hrec : Recorded s₁ x.id (bitmapKind key) key bytes blocks := hrec
  obtain ⟨rfl, rfl⟩ : head = blocks.headD noBlock ∧ leading = leadingBlocks blocks :=
    Prod.mk.inj hy
  have hroster₁ : RosterOk s₁ x.id key members memberBytes count := by
    unfold RosterOk at hroster ⊢
    split_ifs at hroster ⊢
    · obtain ⟨⟨total, offset, bytes', hbody⟩, hcount⟩ := hroster
      exact ⟨⟨total, offset, bytes', hg.body _ _ hbody⟩, hcount⟩
    · exact hroster
  have hvalid := value_valid hg.beside.segmented hr hkind hrec hroster₁ ⟨h0, hb.mask⟩
  obtain ⟨hlen, hkey⟩ := length_valueEntry hvalid
  have hread := Value.read_entry hvalid
  have hrecord := hr.length
  refine hg.aside ?_
  refine (CatalogBuilder.push_spec hg.appending hE (hc.mono hg.body hg.id)
    (by rwa [hkey]) ⟨by rw [hkey]; exact hr.valid, hlen⟩ hdeep).post ?_
  rintro y s₂ ⟨m₂, hg₂, hc₂, ht₂⟩
  refine ⟨m₂, _, ⟨hg.trans hg₂, hc₂, ht₂, hkey, _, b, hread, rfl, ?_, fun H hH t => ?_⟩, _, hread,
    rfl, rfl, rfl⟩
  · rw [(hg.trans hg₂).segmentKey, hkey]
    exact hb
  · refine readBitmap_record_sees (hg₂.preserved hH) (by rw [hkey]; exact hr.valid)
      hread (by dsimp only; omega) (by rw [hkey]; exact hrec) rfl rfl ?_ ho rfl
      (by rw [hg.segmentKey, hkey]; exact hb)
    rw [hrec.count]
    exact fragmentCount_le hr hkind

/-- What was collected for a key: the members of a group, or the pages of a term in it. -/
structure Gathered (k : GroupKey) (key : ℕ × ℕ) (ms : List Member) (pages : List PageOffsets)
    (roots : List RootTid) : Prop where
  members : key.1 = 0 → ms ≠ [] ∧ Ascending ms ∧ (∀ x ∈ ms, x.Of k) ∧ roots = ms.map Member.root
  pages : key.1 ≠ 0 → pages ≠ [] ∧ SortedPages pages ∧ (∀ p ∈ pages, p.Of k) ∧
    ∀ page < 256, ∀ bit, (pageValue pages page).testBit bit = true ↔
      ⟨k.base + page, bit + 1⟩ ∈ roots

theorem packOffsets_ok {maxOffset page : ℕ} {bits cs : List ℕ} (h : ∀ bit ∈ bits, bit < maxOffset) :
    ∃ o, packOffsets maxOffset page bits cs = .ok o := by
  induction bits generalizing cs with
  | nil => exact ⟨_, rfl⟩
  | cons bit bits ih =>
    obtain ⟨hbit, h⟩ := List.forall_mem_cons.1 h
    rw [packOffsets, if_neg (by omega)]
    split_ifs
    · exact ⟨_, rfl⟩
    · exact ih h

theorem packPages_ok {maxOffset mask : ℕ} {previous : Option ℕ} {cs : List ℕ}
    (hs : SortedPages pages) (hp : ∀ old ∈ previous, ∀ p ∈ pages, old < p.page)
    (hbits : ∀ p ∈ pages, ∀ bit ∈ setBits p.offsets 512, bit < maxOffset) :
    ∃ o, packPages maxOffset pages previous mask cs = .ok o := by
  induction pages generalizing previous mask cs with
  | nil => exact ⟨_, rfl⟩
  | cons p pages ih =>
    obtain ⟨hfirst, hs⟩ := List.pairwise_cons.1 hs
    obtain ⟨hbit, hbits⟩ := List.forall_mem_cons.1 hbits
    obtain ⟨o, ho⟩ := @packOffsets_ok maxOffset p.page _ cs hbit
    rw [packPages, require_of fun old hold => hp old hold p List.mem_cons_self, ok_bind, ho,
      ok_bind]
    cases o with
    | none => exact ⟨_, rfl⟩
    | some cs =>
      refine ih hs ?_ hbits
      intro old hold q hq
      obtain rfl := Option.mem_some.1 hold
      exact hfirst q hq

/-- Sorted pages are embedded or refused for the space. -/
theorem inlinePostings_ok {l : HeapLayout} (hkey : key.1 ≠ 0) (hne : pages ≠ [])
    (hs : SortedPages pages) (hpage : ∀ p ∈ pages, p.page < 256)
    (hbits : ∀ p ∈ pages, ∀ bit ∈ setBits p.offsets 512, bit < l.maxOffset)
    (h0 : 0 < totalOffsets pages) : ∃ o, Value.inlinePostings key pages l = .ok o := by
  obtain ⟨o, ho⟩ := @packPages_ok pages l.maxOffset 0 none [] hs
    (fun _ h => absurd h (Option.not_mem_none _)) hbits
  cases o with
  | none =>
    rw [Value.inlinePostings, if_neg (not_or.2 ⟨hkey, hne⟩), ho]
    exact ⟨_, rfl⟩
  | some packed =>
    obtain ⟨-, -, -, hr, -, hlen⟩ := (packPages_iff (Nat.zero_le _)).1 ho
    rw [List.nil_append] at hr
    rw [hr, length_coordinatesOf] at hlen
    exact ⟨_, (Value.inlinePostings_iff hpage).2 ⟨hkey, hs, hbits, ⟨h0, hlen⟩, rfl⟩⟩

theorem Gathered.members_spec {k : GroupKey} (hv : k.Valid) (hg : Gathered k key ms pages roots)
    (h0 : key.1 = 0) : Members.openRecord (membersImage k ms) = .ok (imageMembers k ms) ∧
      (imageMembers k ms).Holds ms ∧ ms.length ≤ 256 * 512 ∧
      (imageMembers k ms).header.mask ≠ 0 := by
  obtain ⟨hne, hs, hof, -⟩ := hg.members h0
  obtain ⟨hopen, hm⟩ := openRecord_membersImage hv hs hof
  have hcount := hs.length_le hv hof
  have hmax := hv.maxOffset.2
  refine ⟨hopen, hm, by omega, fun hz => ?_⟩
  obtain ⟨x, xs, rfl⟩ := List.exists_cons_of_ne_nil hne
  have hbit := hm.testBit_mask.2 ⟨x, List.mem_cons_self, rfl⟩
  rw [hz, Nat.zero_testBit] at hbit
  cases hbit

theorem maskPages_ne_zero (hne : pages ≠ []) : maskPages 0 pages ≠ 0 := by
  intro h
  obtain ⟨p, ps, rfl⟩ := List.exists_cons_of_ne_nil hne
  have hbit : (maskPages 0 (p :: ps)).testBit p.page = true :=
    testBit_maskPages.2 (.inr ⟨p, List.mem_cons_self, rfl⟩)
  rw [h, Nat.zero_testBit] at hbit
  cases hbit

theorem setBits_lt {v n : ℕ} (hv : v < 2 ^ n) {bit : ℕ} (h : bit ∈ setBits v 512) : bit < n :=
  testBit_lt hv (mem_setBits.1 h).2

theorem Gathered.inline_bits {k : GroupKey} (hv : k.Valid) (hg : Gathered k key ms pages roots)
    (h0 : key.1 ≠ 0) : (∀ p ∈ pages, ∀ bit ∈ setBits p.offsets 512, bit < k.maxOffset) ∧
      0 < totalOffsets pages := by
  obtain ⟨hne, -, hof, -⟩ := hg.pages h0
  refine ⟨fun p hp bit hbit => setBits_lt (hof p hp).lt hbit, ?_⟩
  obtain ⟨p, ps, rfl⟩ := List.exists_cons_of_ne_nil hne
  have hp := hof p List.mem_cons_self
  have hbits := List.length_pos_iff.2 (setBits_ne_nil (lt_two_pow_layout hv hp.lt) hp.pos)
  rw [totalOffsets, List.map_cons, List.sum_cons]
  omega

/-- An entry with inline postings is read as their bitmap. -/
theorem inline_sealedAs (hid : 0 < id ∧ id < 2 ^ 64) (hk : validKey key)
    (hg : Gathered (segmentKey s id key.2) key ms pages roots) (h0 : key.1 ≠ 0)
    (he : Value.inlinePostings key pages s.layout = .ok (some e)) :
    e.key = key ∧ e.value.length = 64 ∧ SealedAs s id e roots := by
  obtain ⟨-, hs, hof, hroots⟩ := hg.pages h0
  have hv : (segmentKey s id key.2).Valid := segmentKey_valid hid hk
  have hpage : ∀ p ∈ pages, p.page < 256 := fun p hp => (hof p hp).page
  have hcollect : collectPages (coordinatesOf pages) = pages := by
    rw [collectPages_coordinatesOf hs fun p hp => ⟨hpage p hp, lt_two_pow_layout hv (hof p hp).lt⟩]
    exact List.filter_eq_self.2 fun p hp => decide_eq_true (hof p hp).pos
  obtain ⟨hread, hin⟩ := Value.read_inlinePostings hpage he
  obtain ⟨-, -, -, -, rfl⟩ := (Value.inlinePostings_iff hpage).1 he
  have hvalid := valid_inlineValue (fun c hc => coordinatesOf_lt hpage hc) h0
    (hin.mono s.layout.le)
  obtain ⟨hlen, hkey⟩ := length_valueEntry hvalid
  refine ⟨hkey, hlen, _, pagesBitmap (segmentKey s id key.2) .posting pages, hread, ?_, ?_,
    fun H hH t => ?_⟩
  · change pageMask (collectPages (coordinatesOf pages)) = maskPages 0 pages
    rw [hcollect]
    rfl
  · change Bitmap.Holds _ (segmentKey s id key.2)
      (if key.1 = 0 then BitmapKind.liveness else BitmapKind.posting) roots
    rw [if_neg h0]
    exact pagesBitmap_holds hv hs hof hroots
  · have hsees := @readBitmap_inline_sees s H id t
      ((inlineValue (maskPages 0 pages) (coordinatesOf pages)).entry key) _ pages hH hid hk
        hread rfl
      hs hof (Value.inlinePages_iff.2 ⟨hin, ?_⟩)
    · exact hsees
    · rw [stored_inlineValue fun c hc => coordinatesOf_lt hpage hc, hcollect]

theorem Recorded.head_body (h : Recorded s id kind key bytes blocks) (hlen : 72 ≤ bytes.length) :
    ∃ total offset data, s.body (blocks.headD noBlock) =
      .grouped (.record id kind key total offset data) := by
  have hpos := fragmentCount_pos hlen
  rw [← h.count] at hpos
  obtain ⟨b, bs, rfl⟩ := List.exists_cons_of_ne_nil (List.length_pos_iff.1 hpos)
  exact ⟨_, _, _, h.fragments.1⟩

theorem sealGroup_spec {stats : BuildStats} (h : Appending s x m) (hE : E .host)
    (hid : x.id < 2 ^ 64) (hc : c.Collects s x es)
    (hnext : ∀ k ∈ es.getLast?.map (·.key), keyLt k key)
    (hdeep : catalogEntries ^ catalogLevels ≤ es.length + 1 → E (.limit "group catalog depth"))
    (hk : validKey key) (hg : Gathered (segmentKey s x.id key.2) key ms pages roots) :
    Spec E (Aside s m) s (sealGroup x c key ms pages stats) fun y s' =>
      ∃ m' e, Entered s s' x m m' (y.1, y.2.1) es key roots e ∧
        (key.1 = 0 → RosterAs s' x.id e ms) ∧ y.2.2 = if key.1 = 0 then
          { stats with groups := stats.groups + 1 }
          else { stats with termGroups := stats.termGroups + 1 } := by
  have hpos : 0 < x.id ∧ x.id < 2 ^ 64 := ⟨Nat.pos_of_ne_zero h.id, hid⟩
  have hv : (segmentKey s x.id key.2).Valid := segmentKey_valid hpos hk
  refine Spec.reading_bind layout_returns ?_
  rintro _ rfl
  refine Spec.ofExcept_bind (groupKey_of_valid hk _) ?_
  change Spec E (Aside s m) s (if key.1 = 0 then _ else _) _
  by_cases h0 : key.1 = 0
  · -- a group of owners: its members are a record of their own, and the bitmap is their liveness
    rw [if_pos h0]
    obtain ⟨hne, hs, hof, rfl⟩ := hg.members h0
    obtain ⟨hopen, hm, hcount, hmask⟩ := hg.members_spec hv h0
    have hr : RecordOk .members key (membersImage (segmentKey s x.id key.2) ms) := by
      refine ⟨.inl rfl, hk, iff_of_false (by rintro ⟨⟩) (not_not.2 h0), ?_⟩
      rw [length_membersImage, if_pos rfl]
      omega
    refine Spec.ofExcept_bind (encodeMembers_ok hv hs hof) ((writeRecord_spec h hE hr).bind ?_)
    rintro ⟨⟨head, leading⟩, x₁⟩ s₁ ⟨m₁, blocks, hg₁, hrec, hy⟩
    have hg₁ : Grown s s₁ x x₁ m m₁ := hg₁
    have hrec : Recorded s₁ x.id .members key (membersImage (segmentKey s x.id key.2) ms) blocks :=
      hrec
    obtain ⟨rfl, rfl⟩ : head = blocks.headD noBlock ∧ leading = leadingBlocks blocks :=
      Prod.mk.inj hy
    have hkey₁ : segmentKey s₁ x₁.id key.2 = segmentKey s x.id key.2 := by
      rw [hg₁.segmentKey, hg₁.id]
    have hkind : bitmapKind key = .liveness := if_pos h0
    have hr₁ : RecordOk (bitmapKind key) key ((imageMembers (segmentKey s x.id key.2) ms).liveness
        (imageMembers (segmentKey s x.id key.2) ms).all).bytes := by
      rw [hkind]
      refine ⟨.inr (.inl rfl), hk, iff_of_false (by rintro ⟨⟩) (not_not.2 h0),
        le_length_liveness, ?_⟩
      rw [if_neg (by rintro ⟨⟩)]
      exact Nat.le_trans (length_liveness hm) (by decide)
    have hb₁ := liveness_holds hm
    have hroster : RosterOk s₁ x₁.id key (blocks.headD noBlock)
        (membersImage (segmentKey s x.id key.2) ms).length ms.length := by
      unfold RosterOk
      rw [if_pos h0, length_membersImage, hg₁.id]
      refine ⟨hrec.head_body hr.length.1, ?_, hcount, rfl⟩
      exact fun hlen => hne (List.length_eq_zero_iff.1 hlen)
    have hseal := sealBitmap_spec hg₁.appending hE (hc.mono hg₁.body hg₁.id) hnext hdeep hr₁
      (within_all.open_liveness hm) (by rw [if_pos h0, hkey₁]; exact hb₁) hmask hroster
    rw [hkind] at hseal
    refine Spec.ofExcept_bind hopen (Spec.ofExcept_bind (initialLiveness_ok hm) (hg₁.aside ?_))
    refine hseal.bind ?_
    rintro ⟨x₂, c₂⟩ s₂ ⟨m₂, e, he, v, hread, hhead, hbytes, hcount⟩
    refine Spec.pure ⟨m₂, e, ⟨hg₁.trans he.grown, he.collects, he.tip, he.key, ?_⟩, fun _ => ?_, ?_⟩
    · rw [← hg₁.id]
      exact he.sealedAs
    · refine ⟨v, hread, hcount, fun H hH t => ?_⟩
      rw [hhead, hbytes, he.key, he.grown.segmentKey, hg₁.segmentKey]
      exact readRecord_sees (he.grown.preserved hH) hrec (by rintro _ ⟨⟩)
    · rw [if_pos h0]
  · -- a group of a term has no members, and a few postings fit into the entry itself
    rw [if_neg h0]
    obtain ⟨hne, hs, hof, hroots⟩ := hg.pages h0
    have hpage : ∀ p ∈ pages, p.page < 256 := fun p hp => (hof p hp).page
    have hbits := hg.inline_bits hv h0
    obtain ⟨o, ho⟩ := inlinePostings_ok h0 hne hs hpage hbits.1 hbits.2
    refine Spec.ofExcept_bind ho ?_
    cases o with
    | some e =>
      obtain ⟨hkey, hlen, hsealed⟩ := inline_sealedAs hpos hk hg h0 ho
      refine (CatalogBuilder.push_spec h hE hc (by rwa [hkey]) ⟨by rwa [hkey], hlen⟩ hdeep).bind ?_
      rintro ⟨x₁, c₁⟩ s₁ ⟨m₁, hg₁, hc₁, ht₁⟩
      refine Spec.pure ⟨m₁, e, ⟨hg₁, hc₁, ht₁, hkey, hg₁.sealedAs hsealed⟩,
        fun hz => absurd hz h0, ?_⟩
      rw [if_neg h0]
    | none =>
      have hkind : bitmapKind key = .posting := if_neg h0
      have hr : RecordOk (bitmapKind key) key
          (pagesBitmap (segmentKey s x.id key.2) .posting pages).bytes := by
        rw [hkind]
        refine ⟨.inr (.inr rfl), hk, iff_of_true rfl h0, le_length_pagesBitmap, ?_⟩
        rw [if_neg (by rintro ⟨⟩)]
        exact Nat.le_trans (length_pagesBitmap hs hv hof) (by decide)
      have hb : (pagesBitmap (segmentKey s x.id key.2) .posting pages).Holds _ _ roots :=
        pagesBitmap_holds hv hs hof hroots
      have hroster : RosterOk s x.id key noBlock 0 0 := by
        unfold RosterOk
        rw [if_neg h0]
        exact ⟨rfl, rfl, rfl⟩
      have hseal := sealBitmap_spec h hE hc hnext hdeep hr (pagesBitmap_open hv hs hof).1
        (by rwa [if_neg h0]) (maskPages_ne_zero hne) hroster
      rw [hkind] at hseal
      refine Spec.ofExcept_bind (encodeBitmap_ok hv hs hof (by decide)) (hseal.bind ?_)
      rintro ⟨x₁, c₁⟩ s₁ ⟨m₁, e, he, -⟩
      refine Spec.pure ⟨m₁, e, he, fun hz => absurd hz h0, ?_⟩
      rw [if_neg h0]

end

end

end Grouped

end PinCore
