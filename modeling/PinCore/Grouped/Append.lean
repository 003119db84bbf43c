import PinCore.Compact.Output
import PinCore.Grouped.Catalog
import PinCore.Grouped.Segments

/-!
# Appending pages to a segment

While a segment is built, the grouped journal names the chain of its pages.  `append` takes a page
of the free list or extends the relation, and commits the journal, the link of the last page and
the new page as one step.  `append_spec` says what that changes.
-/

namespace PinCore

open Prog

namespace Grouped

/-- Creates one catalog node.  (`Page::group_node` in the source.) -/
def groupNodePage (block id level : ℕ) (entries : List CatalogEntry) : Except Error Page :=
  if maxCatalogLevel < level ∨ entries = [] ∨ catalogEntries < entries.length then
    .error (.limit "group catalog node")
  else do
    let p ← Page.new block (.grouped (.node id level entries))
    if (GroupBody.node id level entries).Ok p.block then .ok p else .error .invalidState

/-- Appends the page that `make` builds for its block to the chain of the segment. -/
def append (snapshot : GroupSnapshot) (make : ℕ → Except Error Page) : Wr (ℕ × GroupSnapshot) := do
  let info ← Prog.reading (load 0 .info)
  let state ← Prog.ofExcept info.groupedState
  match state.journal with
  | none => Prog.fail .invalidState
  | some journal =>
    Prog.ensure (journal.id = snapshot.id ∧ journal.phase = .building ∧
      journal.head = snapshot.head ∧ journal.tail = snapshot.tail) .invalidState
    let (block, info) ← outputBlock info
    let page ← Prog.ofExcept (make block)
    let id ← Prog.ofExcept (groupId page)
    Prog.ensure (id = snapshot.id ∧ page.next = noBlock) .invalidState
    let head := if journal.head = noBlock then block else journal.head
    let info ← Prog.ofExcept (info.setGroupedState
      { state with journal := some { journal with head, tail := block } })
    if journal.tail = noBlock then commit [info, page]
    else
      let previous ← Prog.reading (load journal.tail .grouped)
      let id ← Prog.ofExcept (groupId previous)
      Prog.ensure (id = snapshot.id ∧ previous.next = noBlock) .invalidState
      let previous ← Prog.ofExcept (previous.setNext block)
      commit [info, previous, page]
    return (block, { snapshot with head, tail := block })

/-- The journal of a segment under construction. -/
def buildingJournal (x : GroupSnapshot) : Option GroupJournal :=
  some ⟨x.id, x.head, x.tail, .building⟩

/-- A segment under construction: the journal names its chain. -/
structure Appending (s : Store) (x : GroupSnapshot) (m : MetaBody) : Prop where
  segmented : Segmented s m
  journal : m.grouped.journal = buildingJournal x
  id : x.id ≠ 0

/-- The image of a grouped page at the end of its chain. -/
def groupPage (block : ℕ) (g : GroupBody) : Page := ⟨block, noBlock, .grouped g, false⟩

/-- The page `b` with the body `g` was put at the end of the segment `x`; nothing else changed
but the link of the page before it. -/
structure Appended (s s' : Store) (x x' : GroupSnapshot) (m m' : MetaBody) (b : ℕ) (g : GroupBody) :
    Prop where
  appending : Appending s' x' m'
  snapshot : x' = { x with head := if x.head = noBlock then b else x.head, tail := b }
  beside : Beside s s' m m'
  retains : Retains s s' m m'
  retired : m'.grouped.retired = m.grouped.retired
  fresh : (s.body b).kind ≠ .grouped
  block : blockValid b
  body : s'.body b = .grouped g
  id : g.id = x.id
  other : ∀ c, c ≠ b → (s.body c).kind = .grouped ∨ (s'.body c).kind = .grouped →
    s'.body c = s.body c ∧ (c ≠ x.tail → s'.next c = s.next c)
  chain : ∀ bs, SegmentOk s x.chain bs → SegmentOk s' x'.chain (bs ++ [b])
  blocks : s'.blocks ≤ s.blocks + 1

section

variable {E : Error → Prop} {s s' : Store} {m m' : MetaBody} {x : GroupSnapshot} {b free : ℕ}
  {g : GroupBody} {bs : List ℕ}

/-! ### The block of a new page -/

theorem slot_old (h : Segmented s m) (hs : OutSlot s m b free) :
    ((s.body b).kind = .zero ∨ (s.body b).kind = .free) ∧ b < s.blocks ∧ blockValid b ∧
      free ≠ 0 := by
  rcases hs with ⟨hz, hlt, h0, rfl⟩ | ⟨rfl, hne, rfl⟩
  · refine ⟨.inl hz, hlt, ⟨h0, ?_⟩, h.metaOk.free⟩
    have := h.pages.le
    omega
  · have hk := h.free.head hne
    have hnz : (s.body m.freeHead).kind ≠ .zero := hk.trans_ne (by decide)
    exact ⟨.inr hk, h.pages.lt_blocks hnz, ⟨h.ne_zero (hk.trans_ne (by decide)), hne⟩,
      h.next_ne_zero hnz⟩

/-- The free list after the block was taken. -/
theorem slot_free (h : Segmented s m) (hs : OutSlot s m b free) (hk : (s'.body b).kind ≠ .free)
    (hother : ∀ c, c ≠ b → (s.body c).kind = .free ∨ (s'.body c).kind = .free →
      s'.page c = s.page c) (hl : s'.layout = s.layout) : FreeOk s' free := by
  rcases hs with ⟨hz, -, -, rfl⟩ | ⟨rfl, hne, rfl⟩
  · refine h.free.same ⟨hl, fun c hc => hother c ?_ hc⟩
    rintro rfl
    rw [hz] at hc
    rcases hc with hc | hc
    · cases hc
    · exact hk hc
  · exact h.free.pop hne hk hother

theorem outputBlock_takes {C : Store → Prop} (h : Segmented s m) (hE : E .host)
    (hC : s.blocks < noBlock → C s.grow) :
    Spec E C s (outputBlock (metaPage m)) fun y s' => ∃ free,
      (s' = s ∨ (s.blocks < noBlock ∧ s' = s.grow)) ∧ OutSlot s' m y.1 free ∧
        y.2 = metaPage { m with freeHead := free } := by
  have hm := h.metaOk
  refine Spec.ofExcept_bind (metaPage_freeHead hm) ?_
  by_cases hfree : m.freeHead = noBlock
  · rw [if_pos hfree]
    refine (allocate_spec hE hC).bind ?_
    rintro b _ ⟨rfl, rfl, hlt⟩
    refine Spec.pure ⟨m.freeHead, .inr ⟨hlt, rfl⟩, .inl ⟨?_, Nat.lt_succ_self _, ?_, rfl⟩, rfl⟩
    · rw [Store.body, grow_page h.pages, h.pages.fresh _ (Nat.le_refl _)]
      rfl
    · have := h.pages.pos
      change s.blocks ≠ 0
      omega
  · rw [if_neg hfree]
    have hk := h.free.head hfree
    refine Spec.reading_bind (load_returns h.pages hk (by simp)) ?_
    rintro _ rfl
    refine Spec.ofExcept_bind (metaPage_setFreeHead (h.next_ne_zero (hk.trans_ne (by decide)))) ?_
    exact Spec.pure ⟨s.next m.freeHead, .inl rfl, .inr ⟨rfl, hfree, rfl⟩, rfl⟩

/-! ### The commit of a new page -/

/-- The state whose journal ends in the page `b`. -/
def journaled (gs : GroupState) (x : GroupSnapshot) (b : ℕ) : GroupState :=
  { gs with journal := some ⟨x.id, if x.head = noBlock then b else x.head, b, .building⟩ }

/-- The snapshot whose chain ends in the page `b`. -/
def extended (x : GroupSnapshot) (b : ℕ) : GroupSnapshot :=
  { x with head := if x.head = noBlock then b else x.head, tail := b }

/-- The images that a new page is committed with, after the metapage. -/
def appendPages (s : Store) (x : GroupSnapshot) (b : ℕ) (g : GroupBody) : List Page :=
  if x.tail = noBlock then [groupPage b g] else [{ s.page x.tail with next := b }, groupPage b g]

namespace Appending

variable {c : ℕ}

theorem chain (h : Appending s x m) : ∃ bs, SegmentOk s x.chain bs :=
  h.segmented.chain x.chain (by
    rw [GroupState.chains, GroupState.pending, h.journal]
    exact List.mem_cons_self)

theorem head_eq_iff (h : Appending s x m) : x.head = noBlock ↔ x.tail = noBlock := by
  obtain ⟨bs, hc⟩ := h.chain
  have ht : x.tail = lastD noBlock bs := hc.tail_eq
  rw [ht]
  exact hc.linked.head_eq_stop_iff.trans hc.linked.lastD_eq_stop_iff.symm

/-- The last page of the chain belongs to the segment and links nowhere. -/
theorem tail_page (h : Appending s x m) (ht : x.tail ≠ noBlock) :
    s.InSegment x.id x.tail ∧ s.next x.tail = noBlock := by
  obtain ⟨bs, hc⟩ := h.chain
  have heq : x.tail = lastD noBlock bs := hc.tail_eq
  have hne : bs ≠ [] := fun hn => ht (by rw [heq, hn]; rfl)
  have hl := hc.linked
  rw [eq_append_lastD noBlock hne, ← heq] at hl
  exact ⟨(hc.mem_iff _).1 (by rw [heq]; exact lastD_mem noBlock hne), hl.next_last⟩

theorem head_page (h : Appending s x m) (hh : x.head ≠ noBlock) : s.InSegment x.id x.head := by
  obtain ⟨bs, hc⟩ := h.chain
  exact (hc.mem_iff _).1 (hc.linked.head_mem hh)

theorem journaled_ok (h : Appending s x m) (hb : blockValid b) :
    (journaled m.grouped x b).Ok ∧ (journaled m.grouped x b).IdsBelow m.incarnation := by
  have hm := h.segmented.metaOk
  have hok := hm.grouped
  have hj := h.journal
  refine ⟨⟨hok.active, hok.deltaCount, hok.deltasNeedActive, hok.deltas, ?_, ?_, ?_,
    hok.retiredCount, fun r hr => ?_⟩, hm.ids.1, hm.ids.2.1, ?_, hm.ids.2.2.2⟩
  · rintro _ ⟨⟩
    refine .inr ⟨?_, hb⟩
    change blockValid (if x.head = noBlock then b else x.head)
    split_ifs with hh
    · exact hb
    · exact h.segmented.blockValid (h.head_page hh)
  · rintro _ ⟨⟩ -
    exact hok.building ⟨x.id, x.head, x.tail, .building⟩ hj rfl
  · rintro _ ⟨⟩ hp
    cases hp
  · obtain ⟨h₁, h₂, h₃, h₄, h₅⟩ := hok.retired r hr
    refine ⟨h₁, h₂, h₃, h₄, ?_⟩
    rintro _ ⟨⟩
    exact h₅ ⟨x.id, x.head, x.tail, .building⟩ hj
  · rintro _ ⟨⟩
    exact hm.ids.2.2.1 ⟨x.id, x.head, x.tail, .building⟩ hj

end Appending

theorem journaled_chains (h : Appending s x m) :
    m.grouped.chains = x.chain :: (m.grouped.retired ++ m.grouped.published) ∧
      (journaled m.grouped x b).chains =
        (extended x b).chain :: (m.grouped.retired ++ m.grouped.published) := by
  refine ⟨?_, rfl⟩
  rw [GroupState.chains, GroupState.pending, h.journal]
  rfl

/-- The pages that differ after a page was appended. -/
structure Images (s s' : Store) (x : GroupSnapshot) (m' : MetaBody) (b : ℕ) (g : GroupBody) :
    Prop where
  zero : s'.page 0 = metaPage m'
  new : s'.page b = groupPage b g
  tail : x.tail ≠ noBlock → s'.body x.tail = s.body x.tail ∧ s'.next x.tail = b
  other : ∀ c, c ≠ 0 → c ≠ b → (x.tail = noBlock ∨ c ≠ x.tail) → s'.page c = s.page c

theorem images_of_committed (hp : PagesOk s)
    (hcm : Committed s s' (metaPage m' :: appendPages s x b g)) : Images s s' x m' b g where
  zero := hcm.mem _ List.mem_cons_self
  new := by
    refine hcm.mem (groupPage b g) (List.mem_cons_of_mem _ ?_)
    unfold appendPages
    split_ifs
    · exact List.mem_singleton_self _
    · exact List.mem_cons_of_mem _ (List.mem_singleton_self _)
  tail ht := by
    have hmem : ({ s.page x.tail with next := b } : Page) ∈ metaPage m' :: appendPages s x b g := by
      rw [appendPages, if_neg ht]
      exact List.mem_cons_of_mem _ List.mem_cons_self
    have h₁ := hcm.body_mem hmem
    have h₂ := hcm.next_mem hmem
    have hblock : ({ s.page x.tail with next := b } : Page).block = x.tail := hp.block _
    rw [hblock] at h₁ h₂
    exact ⟨h₁, h₂⟩
  other c h0 hcb hct := by
    refine hcm.other c fun p hm => ?_
    rcases List.mem_cons.1 hm with rfl | hm
    · exact Ne.symm h0
    · unfold appendPages at hm
      split_ifs at hm with ht
      · rw [List.mem_singleton.1 hm]
        exact Ne.symm hcb
      · rcases List.mem_cons.1 hm with rfl | hm
        · change (s.page x.tail).block ≠ c
          rw [hp.block]
          exact Ne.symm (hct.resolve_left ht)
        · rw [List.mem_singleton.1 hm]
          exact Ne.symm hcb

theorem Images.bodies (hi : Images s s' x m' b g) (c : ℕ) (h0 : c ≠ 0) (hcb : c ≠ b) :
    s'.body c = s.body c := by
  by_cases ht : x.tail = noBlock
  · exact Store.body_eq_of_page (hi.other c h0 hcb (.inl ht))
  · by_cases hct : c = x.tail
    · rw [hct]
      exact (hi.tail ht).1
    · exact Store.body_eq_of_page (hi.other c h0 hcb (.inr hct))

/-- The chain of the segment has one more page. -/
theorem segment_extend (h : Appending s x m) (hi : Images s s' x m' b g) (hb : blockValid b)
    (hfresh : (s.body b).kind ≠ .grouped) (hid : g.id = x.id) (hc : SegmentOk s x.chain bs) :
    SegmentOk s' (extended x b).chain (bs ++ [b]) := by
  have hbody : s'.body b = .grouped g := by rw [Store.body, hi.new]; rfl
  have hnext : s'.next b = noBlock := by rw [Store.next, hi.new]; rfl
  have hl := hc.linked
  have ht : x.tail = lastD noBlock bs := hc.tail_eq
  have hne : ∀ c ∈ bs, c ≠ 0 ∧ c ≠ b := by
    intro c hm
    have hk := ((hc.mem_iff c).1 hm).kind
    refine ⟨h.segmented.ne_zero (by rw [hk]; decide), ?_⟩
    rintro rfl
    exact hfresh hk
  refine ⟨?_, (lastD_concat).symm, fun c => ?_⟩
  · cases bs with
    | nil =>
      have hh : x.head = noBlock := hl
      change Linked s'.next noBlock (if x.head = noBlock then b else x.head) [b]
      rw [if_pos hh]
      exact Linked.singleton hb.2 hnext
    | cons d ds =>
      have hh : x.head ≠ noBlock := fun hn =>
        absurd (hl.head_eq_stop_iff.1 hn) (List.cons_ne_nil d ds)
      have htn : x.tail ≠ noBlock := fun hn => hh (h.head_eq_iff.2 hn)
      change Linked s'.next noBlock (if x.head = noBlock then b else x.head) (d :: ds ++ [b])
      rw [if_neg hh]
      refine hl.snoc (List.cons_ne_nil d ds) (fun c hm hcl => ?_) ?_ hb.2 hnext
      · obtain ⟨h0, hcb⟩ := hne c hm
        rw [Store.next, hi.other c h0 hcb (.inr (by rw [ht]; exact hcl))]
        rfl
      · rw [← ht]
        exact (hi.tail htn).2
  · rw [List.mem_append, List.mem_singleton]
    change _ ↔ s'.InSegment x.id c
    constructor
    · rintro (hm | rfl)
      · obtain ⟨h0, hcb⟩ := hne c hm
        obtain ⟨g', hg', hid'⟩ := (hc.mem_iff c).1 hm
        exact ⟨g', by rw [hi.bodies c h0 hcb, hg'], hid'⟩
      · exact ⟨g, hbody, hid⟩
    · rintro ⟨g', hg', hid'⟩
      by_cases hcb : c = b
      · exact .inr hcb
      · left
        have h0 : c ≠ 0 := by
          rintro rfl
          rw [Store.body, hi.zero] at hg'
          cases hg'
        rw [hi.bodies c h0 hcb] at hg'
        exact (hc.mem_iff c).2 ⟨g', hg', hid'⟩

theorem slot_fresh (h : Segmented s m) (hs : OutSlot s m b free) : (s.body b).kind ≠ .grouped := by
  obtain ⟨hk | hk, -⟩ := slot_old h hs <;> rw [hk] <;> decide

/-! ### The commit is accepted -/

theorem Appending.tail_nextOk (h : Appending s x m) (hs : OutSlot s m b free)
    (ht : x.tail ≠ noBlock) : ({ s.page x.tail with next := b } : Page).NextOk := by
  have hk : (s.page x.tail).kind = .grouped := (h.tail_page ht).1.kind
  obtain ⟨-, -, hbv, -⟩ := slot_old h.segmented hs
  refine .inr ⟨hbv, ?_, fun hi => ?_, fun hi => ?_⟩
  · rw [h.segmented.pages.block]
    rintro rfl
    exact slot_fresh h.segmented hs hk
  · rw [show (s.page x.tail).kind = .info from hi] at hk
    cases hk
  · have hi : (s.page x.tail).kind = .owners ∨ (s.page x.tail).kind = .dictionary := hi
    rw [hk] at hi
    rcases hi with hi | hi <;> cases hi

theorem Appending.meta_valid (h : Appending s x m) (hs : OutSlot s m b free) :
    (metaPage (m.regroup (journaled m.grouped x b) free)).Valid s.layout := by
  have hm := h.segmented.metaOk
  obtain ⟨-, -, hbv, hfree⟩ := slot_old h.segmented hs
  obtain ⟨hok, hids⟩ := h.journaled_ok hbv
  exact metaPage_valid ⟨hm.maxOffset, hm.incarnation, hm.owners, hfree, hm.journal, hok, hids,
    hm.refs.congr rfl rfl, hm.bucket⟩

theorem appendPages_ok (h : Appending s x m) (hs : OutSlot s m b free)
    (hv : (groupPage b g).Valid s.layout) :
    CommitOk s
      (metaPage (m.regroup (journaled m.grouped x b) free) :: appendPages s x b g) := by
  have hseg := h.segmented
  obtain ⟨-, hlt, hbv, -⟩ := slot_old hseg hs
  have hinfo := h.meta_valid hs
  have hnew : (groupPage b g).Valid s.layout ∧ (groupPage b g).kind ≠ .zero ∧
      (groupPage b g).block < s.blocks := ⟨hv, by rintro ⟨⟩, hlt⟩
  unfold appendPages
  split_ifs with ht
  · exact commitOk_two ⟨hinfo, by simp, hseg.pages.pos⟩ hnew (Ne.symm hbv.1)
  · have hin := (h.tail_page ht).1
    have hvt := hseg.pages.valid x.tail
    have hold : ({ s.page x.tail with next := b } : Page).Valid s.layout ∧
        (s.page x.tail).kind ≠ .zero ∧ (s.page x.tail).block < s.blocks := by
      refine ⟨⟨fun _ => h.tail_nextOk hs ht, hvt.block, hvt.body, hvt.len⟩, ?_, ?_⟩
      · rw [show (s.page x.tail).kind = .grouped from hin.kind]
        decide
      · rw [hseg.pages.block]
        exact hseg.lt_blocks hin
    refine commitOk_three ⟨hinfo, by simp, hseg.pages.pos⟩ hold hnew ?_ (Ne.symm hbv.1) ?_
    · change 0 ≠ (s.page x.tail).block
      rw [hseg.pages.block]
      exact Ne.symm (hseg.ne_zero (by rw [hin.kind]; decide))
    · change (s.page x.tail).block ≠ b
      rw [hseg.pages.block]
      rintro rfl
      exact slot_fresh hseg hs hin.kind

/-! ### What the commit leaves alone -/

namespace Images

variable {i c : ℕ} {k : PageKind}

theorem body_eq (hi : Images s s' x m' b g) : s'.body b = .grouped g := by
  rw [Store.body, hi.new]
  rfl

/-- Only the metapage is one, before and after. -/
theorem ne_zero (hi : Images s s' x m' b g) (h : Segmented s m)
    (hc : (s.body c).kind = k ∨ (s'.body c).kind = k) (hk : k ≠ .info) : c ≠ 0 := by
  have hinfo : (s'.body 0).kind = .info := by rw [Store.body, hi.zero]; rfl
  rintro rfl
  rw [h.kind_zero, hinfo] at hc
  exact hk (hc.elim Eq.symm Eq.symm)

/-- A page outside the segment that is neither taken nor the metapage stays. -/
theorem page_eq (hi : Images s s' x m' b g) (h : Appending s x m) (h0 : c ≠ 0) (hcb : c ≠ b)
    (hin : ¬ s.InSegment x.id c) : s'.page c = s.page c := by
  refine hi.other c h0 hcb ?_
  by_cases ht : x.tail = noBlock
  · exact .inl ht
  · right
    rintro rfl
    exact hin (h.tail_page ht).1

/-- Pages of a kind that no grouped page has stay, but for the block that was taken. -/
theorem page_of_kind (hi : Images s s' x m' b g) (h : Appending s x m) (hcb : c ≠ b)
    (hc : (s.body c).kind = k ∨ (s'.body c).kind = k) (hk : k ≠ .info) (hg : k ≠ .grouped) :
    s'.page c = s.page c := by
  have h0 := hi.ne_zero h.segmented hc hk
  rw [hi.bodies c h0 hcb, or_self] at hc
  exact hi.page_eq h h0 hcb fun hin => hg (hc.symm.trans hin.kind)

/-- The pages of every other segment stay. -/
theorem segment_eq (hi : Images s s' x m' b g) (h : Appending s x m)
    (hfresh : (s.body b).kind ≠ .grouped) (hid : g.id = x.id) (hix : i ≠ x.id)
    (hc : s.InSegment i c ∨ s'.InSegment i c) : s'.page c = s.page c := by
  have h0 : c ≠ 0 := hi.ne_zero h.segmented (hc.imp Store.InSegment.kind Store.InSegment.kind)
    (by decide)
  have hcb : c ≠ b := by
    rintro rfl
    rcases hc with hc | hc
    · exact hfresh hc.kind
    · exact hix (hc.unique ⟨g, hi.body_eq, hid⟩)
  refine hi.page_eq h h0 hcb fun hin => ?_
  rcases hc with hc | ⟨g', hg', hid'⟩
  · exact hix (hc.unique hin)
  · rw [hi.bodies c h0 hcb] at hg'
    exact hix (Store.InSegment.unique ⟨g', hg', hid'⟩ hin)

end Images

/-- No other named segment is the one under construction. -/
theorem Appending.id_ne (h : Appending s x m) {c : GroupRetired}
    (hc : c ∈ m.grouped.retired ++ m.grouped.published) : c.id ≠ x.id := by
  have hdist := h.segmented.distinct
  rw [(journaled_chains (b := 0) h).1, List.map_cons, List.nodup_cons] at hdist
  exact fun he => hdist.1 (List.mem_map.2 ⟨c, hc, he⟩)

theorem segmented_append (h : Appending s x m) (hs : OutSlot s m b free)
    (hv : (groupPage b g).Valid s.layout) (hid : g.id = x.id)
    (hcm : Committed s s' (metaPage (m.regroup (journaled m.grouped x b) free) ::
      appendPages s x b g)) :
    Segmented s' (m.regroup (journaled m.grouped x b) free) := by
  have hseg := h.segmented
  have hi := images_of_committed hseg.pages hcm
  have hfresh := slot_fresh hseg hs
  obtain ⟨-, -, hbv, -⟩ := slot_old hseg hs
  obtain ⟨hchains, hchains'⟩ := journaled_chains (b := b) h
  refine ⟨hcm.pages hseg.pages (appendPages_ok h hs hv), hi.zero, ?_, ?_, fun c hc => ?_,
    fun c g' hg' => ?_⟩
  · refine slot_free hseg hs (by rw [hi.body_eq]; rintro ⟨⟩) (fun c hcb hk => ?_) hcm.layout
    exact hi.page_of_kind h hcb hk (by decide) (by decide)
  · have hdist := hseg.distinct
    rw [hchains] at hdist
    change ((journaled m.grouped x b).chains.map (·.id)).Nodup
    rw [hchains']
    exact hdist
  · have hc : c ∈ (journaled m.grouped x b).chains := hc
    rw [hchains'] at hc
    rcases List.mem_cons.1 hc with rfl | hc
    · obtain ⟨bs, hbs⟩ := h.chain
      exact ⟨_, segment_extend h hi hbv hfresh hid hbs⟩
    · obtain ⟨bs, hbs⟩ := hseg.chain c (by rw [hchains]; exact List.mem_cons_of_mem _ hc)
      exact ⟨bs, hbs.congr fun a ha => hi.segment_eq h hfresh hid (h.id_ne hc) ha⟩
  · change ∃ d ∈ (journaled m.grouped x b).chains, d.id = g'.id
    rw [hchains']
    by_cases hcb : c = b
    · rw [hcb, hi.body_eq] at hg'
      cases hg'
      exact ⟨_, List.mem_cons_self, hid.symm⟩
    · have h0 : c ≠ 0 := hi.ne_zero hseg (.inr (Store.InSegment.kind ⟨g', hg', rfl⟩)) (by decide)
      rw [hi.bodies c h0 hcb] at hg'
      obtain ⟨d, hd, hid'⟩ := hseg.covered c g' hg'
      rw [hchains] at hd
      rcases List.mem_cons.1 hd with rfl | hd
      · exact ⟨_, List.mem_cons_self, hid'⟩
      · exact ⟨d, List.mem_cons_of_mem _ hd, hid'⟩

theorem canonical_append (h : Appending s x m) (hs : OutSlot s m b free)
    (hi : Images s s' x m' b g) (hl : s'.layout = s.layout) :
    Same PageKind.IsCanonical s s' := by
  refine ⟨hl, fun c hc => ?_⟩
  obtain ⟨k, hk, hcan⟩ : ∃ k, ((s.body c).kind = k ∨ (s'.body c).kind = k) ∧ k.IsCanonical :=
    hc.elim (fun hc => ⟨_, .inl rfl, hc⟩) fun hc => ⟨_, .inr rfl, hc⟩
  refine hi.page_of_kind h ?_ hk hcan.2.2.2 hcan.2.2.1
  rintro rfl
  rw [hi.body_eq] at hk
  rcases hk with hk | hk
  · rcases (slot_old h.segmented hs).1 with hb | hb
    · exact hcan.1 (hk.symm.trans hb)
    · exact hcan.2.1 (hk.symm.trans hb)
  · exact hcan.2.2.1 hk.symm

/-- A page of a fresh block is committed behind the last page of the chain. -/
theorem append_step (h : Appending s x m) (hs : OutSlot s m b free)
    (hv : (groupPage b g).Valid s.layout) (hid : g.id = x.id)
    (hcm : Committed s s' (metaPage (m.regroup (journaled m.grouped x b) free) ::
      appendPages s x b g)) :
    Appended s s' x (extended x b) m (m.regroup (journaled m.grouped x b) free) b g := by
  have hi := images_of_committed h.segmented.pages hcm
  have hfresh := slot_fresh h.segmented hs
  have hsegmented := segmented_append h hs hv hid hcm
  obtain ⟨-, -, hbv, -⟩ := slot_old h.segmented hs
  refine ⟨⟨hsegmented, rfl, h.id⟩, rfl,
    ⟨hsegmented, canonical_append h hs hi hcm.layout, rfl, Nat.le_refl _,
      Nat.le_of_eq hcm.blocks.symm⟩, ⟨rfl, rfl, fun c hc a ha => ?_⟩, rfl, hfresh, hbv,
    hi.body_eq, hid, fun c hcb hk => ?_, fun bs hbs => segment_extend h hi hbv hfresh hid hbs,
    hcm.blocks ▸ Nat.le_succ _⟩
  · exact hi.segment_eq h hfresh hid (h.id_ne (List.mem_append_right _ hc)) ha
  · have h0 := hi.ne_zero h.segmented hk (by decide)
    refine ⟨hi.bodies c h0 hcb, fun hct => ?_⟩
    rw [Store.next, hi.other c h0 hcb (.inr hct)]
    rfl

/-! ### The operation -/

theorem Appended.grow (h : Segmented s m) (hlt : s.blocks < noBlock) :
    Beside s s.grow m m ∧ Retains s s.grow m m :=
  ⟨⟨h.grow hlt, same_grow h.pages _, rfl, Nat.le_refl _, Nat.le_succ _⟩, rfl, rfl,
    fun _ _ b _ => by rw [grow_page h.pages]⟩

/-- Behind an extension of the relation. -/
theorem Appended.of_grow {x' : GroupSnapshot} (h : Segmented s m) (hlt : s.blocks < noBlock)
    (hblocks : s'.blocks = s.grow.blocks) (ha : Appended s.grow s' x x' m m' b g) :
    Appended s s' x x' m m' b g := by
  obtain ⟨hb, hr⟩ := Appended.grow h hlt
  have hpage : ∀ c, s.grow.page c = s.page c := fun c => by rw [grow_page h.pages]
  have hbody : ∀ c, s.grow.body c = s.body c := fun c => Store.body_eq_of_page (hpage c)
  have hnext : ∀ c, s.grow.next c = s.next c := fun c => by rw [Store.next, hpage]; rfl
  refine ⟨ha.appending, ha.snapshot, hb.trans ha.beside, hr.trans ha.retains, ha.retired, ?_,
    ha.block, ha.body, ha.id, fun c hcb hk => ?_, fun bs hbs => ?_, Nat.le_of_eq hblocks⟩
  · rw [← hbody]
    exact ha.fresh
  · rw [← hbody, ← hnext]
    exact ha.other c hcb (by rw [hbody]; exact hk)
  · exact ha.chain bs (hbs.congr fun c _ => hpage c)

/-- Appending puts one page with the wanted body at the end of the segment.  Cut off anywhere, it
keeps the store segmented, the published segments and the canonical index. -/
theorem append_spec {make : ℕ → Except Error Page} (h : Appending s x m) (hE : E .host)
    (hmake : ∀ b, blockValid b → (s.body b).kind ≠ .grouped →
      (∃ e, make b = .error e ∧ E e) ∨
        ∃ g, make b = .ok (groupPage b g) ∧ g.id = x.id ∧ (groupPage b g).Valid s.layout) :
    Spec E (fun s' => ∃ m', Beside s s' m m' ∧ Retains s s' m m') s (append x make) fun y s' =>
      ∃ g m', make y.1 = .ok (groupPage y.1 g) ∧ Appended s s' x y.2 m m' y.1 g := by
  have hseg := h.segmented
  refine Spec.reading_bind hseg.loadInfo ?_
  rintro _ rfl
  refine Spec.ofExcept_bind (metaPage_groupedState hseg.metaOk) ?_
  rw [h.journal]
  refine Spec.ensure_bind ⟨rfl, rfl, rfl, rfl⟩ ?_
  refine (outputBlock_takes hseg hE fun hlt => ⟨m, Appended.grow hseg hlt⟩).bind ?_
  rintro ⟨b, _⟩ s₁ ⟨free, hs₁, hslot, rfl⟩
  -- what is known of the store with its new block
  obtain ⟨h₁, hbody, hlay, hA⟩ : Appending s₁ x m ∧ s₁.body b = s.body b ∧ s₁.layout = s.layout ∧
      ∀ s' x' m' g, s'.blocks = s₁.blocks → Appended s₁ s' x x' m m' b g →
        Appended s s' x x' m m' b g := by
    rcases hs₁ with rfl | ⟨hlt, rfl⟩
    · exact ⟨h, rfl, rfl, fun _ _ _ _ _ ha => ha⟩
    · exact ⟨⟨hseg.grow hlt, h.journal, h.id⟩, Store.body_eq_of_page
        (by rw [grow_page hseg.pages]), rfl, fun _ _ _ _ hb ha => ha.of_grow hseg hlt hb⟩
  have hseg₁ := h₁.segmented
  obtain ⟨-, -, hbv, -⟩ := slot_old hseg₁ hslot
  have hfresh : (s.body b).kind ≠ .grouped := by
    rw [← hbody]
    exact slot_fresh hseg₁ hslot
  rcases hmake b hbv hfresh with ⟨e, he, hEe⟩ | ⟨g, hg, hid, hv⟩
  · change Spec E _ s₁ (Prog.ofExcept (make b) >>= _) _
    rw [he]
    exact ⟨fun _ hs => absurd hs List.not_mem_nil, hEe⟩
  · refine Spec.ofExcept_bind hg ?_
    refine Spec.ofExcept_bind (a := g.id) rfl ?_
    refine Spec.ensure_bind ⟨hid, rfl⟩ ?_
    obtain ⟨hok, hids⟩ := h₁.journaled_ok hbv
    refine Spec.ofExcept_bind (metaPage_setGroupedState hok hids
      (h₁.segmented.metaOk.refs.congr rfl rfl)) ?_
    rw [← hlay] at hv
    have hfinish : ∀ s', Committed s₁ s' (metaPage (m.regroup (journaled m.grouped x b) free) ::
        appendPages s₁ x b g) → Appended s s' x (extended x b) m _ b g := fun s' hcm =>
      hA s' _ _ _ hcm.blocks (append_step h₁ hslot hv hid hcm)
    have hlast : Spec E (fun s' => ∃ m', Beside s s' m m' ∧ Retains s s' m m') s₁
        (commit (metaPage (m.regroup (journaled m.grouped x b) free) :: appendPages s₁ x b g) >>=
          fun _ => (pure (b, extended x b) : Wr (ℕ × GroupSnapshot))) fun y s' =>
        ∃ g m', make y.1 = .ok (groupPage y.1 g) ∧ Appended s s' x y.2 m m' y.1 g := by
      refine (commit_spec (appendPages_ok h₁ hslot hv) fun s' hcm => ?_).bind fun _ s' hcm => ?_
      · exact ⟨_, (hfinish s' hcm).beside, (hfinish s' hcm).retains⟩
      · exact Spec.pure ⟨g, _, hg, hfinish s' hcm⟩
    by_cases ht : x.tail = noBlock
    · rw [if_pos ht]
      rw [appendPages, if_pos ht] at hlast
      exact hlast
    · rw [if_neg ht]
      rw [appendPages, if_neg ht] at hlast
      obtain ⟨hin, htn⟩ := h₁.tail_page ht
      refine Spec.reading_bind (load_returns hseg₁.pages hin.kind (by simp)) ?_
      rintro _ rfl
      refine Spec.ofExcept_bind (groupId_eq hin) ?_
      refine Spec.ensure_bind ⟨rfl, htn⟩ ?_
      refine Spec.ofExcept_bind (setNext_eq (h₁.tail_nextOk hslot ht)) ?_
      exact hlast

/-! ### Several pages -/

/-- Pages were put at the end of the segment `x`; bodies of grouped pages stay, and links too but
for the one behind the last page. -/
structure Grown (s s' : Store) (x x' : GroupSnapshot) (m m' : MetaBody) : Prop where
  appending : Appending s' x' m'
  snapshot : x' = { x with head := x'.head, tail := x'.tail }
  beside : Beside s s' m m'
  retains : Retains s s' m m'
  retired : m'.grouped.retired = m.grouped.retired
  body : ∀ c g, s.body c = .grouped g → s'.body c = .grouped g
  link : ∀ c, (s.body c).kind = .grouped → s.next c ≠ noBlock → s'.next c = s.next c
  chain : ∀ bs, SegmentOk s x.chain bs →
    ∃ cs, SegmentOk s' x'.chain (bs ++ cs) ∧ s'.blocks ≤ s.blocks + cs.length

section

variable {s'' : Store} {m'' : MetaBody} {x' x'' : GroupSnapshot}

theorem Appending.grown (h : Appending s x m) : Grown s s x x m m :=
  ⟨h, rfl, h.segmented.beside, .refl s m, rfl, fun _ _ hb => hb, fun _ _ _ => rfl,
    fun bs hbs => ⟨[], by rw [List.append_nil]; exact hbs, Nat.le_refl _⟩⟩

theorem Grown.trans (h : Grown s s' x x' m m') (h' : Grown s' s'' x' x'' m' m'') :
    Grown s s'' x x'' m m'' where
  appending := h'.appending
  snapshot := by
    rw [h'.snapshot, h.snapshot]
  beside := h.beside.trans h'.beside
  retains := h.retains.trans h'.retains
  retired := h'.retired.trans h.retired
  body c g hb := h'.body c g (h.body c g hb)
  link c hk hn := by
    obtain ⟨g, hg⟩ : ∃ g, s.body c = .grouped g := by
      revert hk
      cases s.body c <;> simp [Body.kind]
    have h₁ := h.link c hk hn
    refine (h'.link c (by rw [h.body c g hg]; rfl) (by rw [h₁]; exact hn)).trans h₁
  chain bs hbs := by
    obtain ⟨cs, hcs, hn⟩ := h.chain bs hbs
    obtain ⟨ds, hds, hn'⟩ := h'.chain _ hcs
    refine ⟨cs ++ ds, by rw [← List.append_assoc]; exact hds, ?_⟩
    rw [List.length_append]
    omega

theorem Appended.grown (h : Appending s x m) (ha : Appended s s' x x' m m' b g) :
    Grown s s' x x' m m' where
  appending := ha.appending
  snapshot := by
    rw [ha.snapshot]
  beside := ha.beside
  retains := ha.retains
  retired := ha.retired
  body c g' hb := by
    have hcb : c ≠ b := by
      rintro rfl
      exact ha.fresh (by rw [hb]; rfl)
    rw [(ha.other c hcb (.inl (by rw [hb]; rfl))).1, hb]
  link c hk hn := by
    have hcb : c ≠ b := by
      rintro rfl
      exact ha.fresh hk
    refine (ha.other c hcb (.inl hk)).2 ?_
    rintro rfl
    by_cases ht : x.tail = noBlock
    · have := h.segmented.pages.ne_noBlock (by rw [hk]; decide)
      exact this ht
    · exact hn (h.tail_page ht).2
  chain bs hbs := ⟨[b], ha.chain bs hbs, ha.blocks⟩

theorem Grown.id (h : Grown s s' x x' m m') : x'.id = x.id := by
  rw [h.snapshot]

theorem Grown.inSegment (h : Grown s s' x x' m m') {i c : ℕ} (hc : s.InSegment i c) :
    s'.InSegment i c := by
  obtain ⟨g, hg, hid⟩ := hc
  exact ⟨g, h.body c g hg, hid⟩

end

/-! ### Node pages -/

theorem groupNodePage_eq {block id level : ℕ} {es : List CatalogEntry} (hb : blockValid block) :
    groupNodePage block id level es =
      if maxCatalogLevel < level ∨ es = [] ∨ catalogEntries < es.length then
        .error (.limit "group catalog node")
      else if (GroupBody.node id level es).Ok block then .ok (groupPage block (.node id level es))
      else .error .invalidState := by
  have hnew : Page.new block (.grouped (.node id level es)) =
      .ok (groupPage block (.node id level es)) :=
    if_neg (not_or.2 ⟨hb.2, not_not.2 ⟨fun h0 => absurd h0 hb.1, by rintro ⟨⟩⟩⟩)
  rw [groupNodePage, hnew]
  rfl

theorem groupPage_valid {l : HeapLayout} (hb : blockValid b) (hg : g.Ok b) :
    (groupPage b g).Valid l where
  next _ := .inl rfl
  block _ := ⟨fun h0 => absurd h0 hb.1, by rintro ⟨⟩⟩
  body := hg
  len := by
    cases g with
    | record id kind key total offset bytes =>
      have hlen := hg.2.2.2.2.2.2.2.2
      have hle : bytes.length ≤ groupDataBytes := by
        rw [hlen]
        exact Nat.min_le_right _ _
      change 56 + bytes.length ≤ capacity
      unfold groupDataBytes capacity at *
      omega
    | node id level es =>
      have hlen := hg.2.2.2.1
      change 40 + es.length * 80 ≤ capacity
      unfold catalogEntries capacity at *
      omega

end

end Grouped

end PinCore
