import PinCore.Compact.Recover
import PinCore.Grouped.Storage
import PinCore.Insert.Payload

/-!
# Segments

The grouped state names chains of pages: the active snapshot, its deltas, the journal of the segment
under construction and the queue of retired segments.  `Segmented` says that the named chains are
disjoint and hold every grouped page.  `recover_spec` says that recovery takes exactly the journal
and the queue apart, page by page, and that every state on the way is segmented.
-/

namespace PinCore

open Prog

/-! ### Named chains -/

/-- The chain of a segment: its identifier, first and last page. -/
def GroupSnapshot.chain (x : GroupSnapshot) : GroupRetired := ⟨x.id, x.head, x.tail⟩

/-- The journalled chain as a retired one. -/
def GroupJournal.chain (j : GroupJournal) : GroupRetired := ⟨j.id, j.head, j.tail⟩

namespace GroupState

/-- The chains that recovery takes apart. -/
def pending (g : GroupState) : List GroupRetired :=
  (g.journal.map GroupJournal.chain).toList ++ g.retired

/-- The chains that readers use. -/
def published (g : GroupState) : List GroupRetired :=
  (g.active.map GroupSnapshot.chain).toList ++ g.deltas.map fun d => d.snapshot.chain

/-- Every chain that the state names. -/
def chains (g : GroupState) : List GroupRetired := g.pending ++ g.published

end GroupState

/-- The page at `b` belongs to the segment `id`. -/
def Store.InSegment (s : Store) (id b : ℕ) : Prop := ∃ g, s.body b = .grouped g ∧ g.id = id

/-- The chain `c` consists of the pages `bs`, which are all the pages of its segment. -/
structure SegmentOk (s : Store) (c : GroupRetired) (bs : List ℕ) : Prop where
  linked : Linked s.next noBlock c.head bs
  tail_eq : c.tail = lastD noBlock bs
  mem_iff : ∀ b, b ∈ bs ↔ s.InSegment c.id b

/-- The invariant of grouped storage: the named chains belong to distinct segments and hold every
grouped page, and the free list holds every free page. -/
structure Segmented (s : Store) (m : MetaBody) : Prop where
  pages : PagesOk s
  info : s.page 0 = metaPage m
  free : FreeOk s m.freeHead
  distinct : (m.grouped.chains.map (·.id)).Nodup
  chain : ∀ c ∈ m.grouped.chains, ∃ bs, SegmentOk s c bs
  covered : ∀ b g, s.body b = .grouped g → ∃ c ∈ m.grouped.chains, c.id = g.id

/-- The metapage fields that grouped storage changes. -/
def MetaBody.regroup (m : MetaBody) (g : GroupState) (free : ℕ) : MetaBody :=
  { m with grouped := g, freeHead := free }

section

variable {s s' : Store} {m : MetaBody} {c : GroupRetired} {g : GroupState} {bs rest : List ℕ}
  {b i j free : ℕ}

theorem Store.InSegment.kind (h : s.InSegment i b) : (s.body b).kind = .grouped := by
  obtain ⟨g, hg, -⟩ := h
  rw [hg]
  rfl

theorem Store.InSegment.unique (h : s.InSegment i b) (h' : s.InSegment j b) : i = j := by
  obtain ⟨g, hg, rfl⟩ := h
  obtain ⟨g', hg', rfl⟩ := h'
  rw [hg] at hg'
  cases hg'
  rfl

theorem Store.inSegment_congr (h : s'.page b = s.page b) : s'.InSegment i b ↔ s.InSegment i b := by
  unfold Store.InSegment
  rw [Store.body_eq_of_page h]

theorem Store.not_inSegment (h : (s.body b).kind ≠ .grouped) : ¬ s.InSegment i b :=
  fun hs => h hs.kind

/-! ### Chains of a segment -/

/-- A chain depends only on the pages of its segment. -/
theorem SegmentOk.congr (h : SegmentOk s c bs)
    (hp : ∀ b, s.InSegment c.id b ∨ s'.InSegment c.id b → s'.page b = s.page b) :
    SegmentOk s' c bs where
  linked := h.linked.congr fun b hb => by
    rw [Store.next, hp b (.inl ((h.mem_iff b).1 hb))]
    rfl
  tail_eq := h.tail_eq
  mem_iff b := by
    refine (h.mem_iff b).trans ⟨fun hb => ?_, fun hb => ?_⟩
    · exact (Store.inSegment_congr (hp b (.inl hb))).2 hb
    · exact (Store.inSegment_congr (hp b (.inr hb))).1 hb

theorem SegmentOk.head_eq (h : SegmentOk s c bs) : c.head = bs.headD noBlock := by
  have hl := h.linked
  cases bs with
  | nil => exact hl
  | cons b bs => exact hl.1

/-- The chain without its first page. -/
theorem SegmentOk.drop (h : SegmentOk s c (b :: rest)) (hne : rest ≠ [])
    (hb : ¬ s'.InSegment c.id b)
    (hp : ∀ x, x ≠ b → s.InSegment c.id x ∨ s'.InSegment c.id x → s'.page x = s.page x) :
    SegmentOk s' { c with head := rest.headD noBlock } rest := by
  have hl := h.linked
  have hnb : b ∉ rest := (List.nodup_cons.1 hl.nodup).1
  have hx : ∀ x ∈ rest, x ≠ b := by rintro x hx rfl; exact hnb hx
  have hin : ∀ x ∈ rest, s.InSegment c.id x := fun x hx =>
    (h.mem_iff x).1 (List.mem_cons_of_mem _ hx)
  obtain ⟨a, as, rfl⟩ := List.exists_cons_of_ne_nil hne
  refine ⟨hl.tail.congr fun x hxm => ?_, ?_, fun x => ⟨fun hxm => ?_, fun hs => ?_⟩⟩
  · rw [Store.next, hp x (hx x hxm) (.inl (hin x hxm))]
    rfl
  · rw [← lastD_cons_cons (b := b)]
    exact h.tail_eq
  · exact (Store.inSegment_congr (hp x (hx x hxm) (.inl (hin x hxm)))).2 (hin x hxm)
  · have hxb : x ≠ b := by rintro rfl; exact hb hs
    have hs' := (Store.inSegment_congr (hp x hxb (.inr hs))).1 hs
    exact (List.mem_cons.1 ((h.mem_iff x).2 hs')).resolve_left hxb

namespace Segmented

theorem metaOk (h : Segmented s m) : m.Ok s.layout := by
  have := (h.pages.valid 0).body
  rwa [h.info] at this

theorem body_zero (h : Segmented s m) : s.body 0 = .info m := by
  rw [Store.body, h.info]
  rfl

theorem loadInfo (h : Segmented s m) : Obs.Returns s (load 0 .info) (· = metaPage m) := by
  rw [← h.info]
  exact load_returns h.pages (by rw [h.body_zero]; rfl) (by simp)

theorem kind_zero (h : Segmented s m) : (s.body 0).kind = .info := by
  rw [h.body_zero]
  rfl

theorem ne_zero (h : Segmented s m) (hk : (s.body b).kind ≠ .info) : b ≠ 0 := by
  rintro rfl
  exact hk h.kind_zero

theorem next_ne_zero (h : Segmented s m) (hk : (s.body b).kind ≠ .zero) : s.next b ≠ 0 := by
  rcases (h.pages.valid b).next hk with hn | ⟨hn, -⟩
  · rw [Store.next, hn]
    decide
  · exact hn.1

/-- The metapage of a segmented store is its own. -/
theorem meta_unique {m' : MetaBody} (h : Segmented s m) (h' : Segmented s m') : m = m' := by
  have := h.body_zero.symm.trans h'.body_zero
  cases this
  rfl

/-- The invariant depends only on the grouped pages, the free pages and the named chains. -/
theorem same {m' : MetaBody} (h : Segmented s m) (hp : PagesOk s') (hi : s'.page 0 = metaPage m')
    (hf : FreeOk s' m'.freeHead) (hs : Same (· = .grouped) s s')
    (hc : m'.grouped.chains = m.grouped.chains) : Segmented s' m' where
  pages := hp
  info := hi
  free := hf
  distinct := by rw [hc]; exact h.distinct
  chain c hm := by
    rw [hc] at hm
    obtain ⟨bs, hb⟩ := h.chain c hm
    refine ⟨bs, hb.congr fun b hb => ?_⟩
    exact hs.page b (hb.imp Store.InSegment.kind Store.InSegment.kind)
  covered b g hb := by
    rw [hc]
    rw [hs.body (.inr (by rw [hb]; rfl))] at hb
    exact h.covered b g hb

theorem grow (h : Segmented s m) (hlt : s.blocks < noBlock) : Segmented s.grow m :=
  h.same (h.pages.grow hlt) (by rw [grow_page h.pages]; exact h.info)
    (h.free.same (same_grow h.pages _)) (same_grow h.pages _) rfl

/-- Pages of a named chain are grouped pages of the store. -/
theorem blockValid (h : Segmented s m) (hb : s.InSegment i b) : blockValid b :=
  h.pages.blockValid (by rw [hb.kind]; decide) (by rw [hb.kind]; decide)

theorem lt_blocks (h : Segmented s m) (hb : s.InSegment i b) : b < s.blocks :=
  h.pages.lt_blocks (by rw [hb.kind]; decide)

theorem length_le (h : Segmented s m) (hc : SegmentOk s c bs) : bs.length ≤ s.blocks :=
  h.pages.length_le hc.linked.nodup fun b hb => by
    rw [((hc.mem_iff b).1 hb).kind]
    decide

end Segmented

end

/-! ### Beside the canonical index -/

/-- The kinds that grouped storage leaves alone. -/
def PageKind.IsCanonical (k : PageKind) : Prop :=
  k ≠ .zero ∧ k ≠ .free ∧ k ≠ .grouped ∧ k ≠ .info

instance (k : PageKind) : Decidable k.IsCanonical := inferInstanceAs (Decidable (_ ∧ _))

/-- The metapage fields that grouped storage leaves alone. -/
def MetaBody.canonical (m : MetaBody) : MetaBody :=
  { m with grouped := .default, freeHead := noBlock, incarnation := 0 }

/-- Work on grouped storage: it keeps the invariant, and leaves the canonical pages and the
canonical fields of the metapage alone. -/
structure Beside (s s' : Store) (m m' : MetaBody) : Prop where
  segmented : Segmented s' m'
  canonical : Same PageKind.IsCanonical s s'
  fields : m'.canonical = m.canonical
  incarnation : m.incarnation ≤ m'.incarnation
  blocks : s.blocks ≤ s'.blocks

/-- The published segments, with every page of theirs, stay. -/
structure Retains (s s' : Store) (m m' : MetaBody) : Prop where
  active : m'.grouped.active = m.grouped.active
  deltas : m'.grouped.deltas = m.grouped.deltas
  page : ∀ c ∈ m.grouped.published, ∀ b, s.InSegment c.id b ∨ s'.InSegment c.id b →
    s'.page b = s.page b

section

variable {s s' s'' : Store} {m m' m'' : MetaBody}

theorem Segmented.beside (h : Segmented s m) : Beside s s m m :=
  ⟨h, .refl s, rfl, Nat.le_refl _, Nat.le_refl _⟩

theorem Beside.trans (h : Beside s s' m m') (h' : Beside s' s'' m' m'') : Beside s s'' m m'' where
  segmented := h'.segmented
  canonical := h.canonical.trans h'.canonical
  fields := h'.fields.trans h.fields
  incarnation := Nat.le_trans h.incarnation h'.incarnation
  blocks := Nat.le_trans h.blocks h'.blocks

theorem Retains.refl (s : Store) (m : MetaBody) : Retains s s m m := ⟨rfl, rfl, fun _ _ _ _ => rfl⟩

theorem Retains.published (h : Retains s s' m m') : m'.grouped.published = m.grouped.published := by
  rw [GroupState.published, GroupState.published, h.active, h.deltas]

theorem Retains.trans (h : Retains s s' m m') (h' : Retains s' s'' m' m'') :
    Retains s s'' m m'' where
  active := h'.active.trans h.active
  deltas := h'.deltas.trans h.deltas
  page c hc b hb := by
    have hc' : c ∈ m'.grouped.published := by rw [h.published]; exact hc
    rcases hb with hb | hb
    · have h₁ := h.page c hc b (.inl hb)
      exact (h'.page c hc' b (.inl ((Store.inSegment_congr h₁).2 hb))).trans h₁
    · have h₂ := h'.page c hc' b (.inr hb)
      exact h₂.trans (h.page c hc b (.inr ((Store.inSegment_congr h₂).1 hb)))

end

/-! ### Walking a chain -/

section

variable {s s' : Store} {m : MetaBody} {c : GroupRetired} {g : GroupState} {bs rest : List ℕ}
  {b i j free : ℕ}

namespace Grouped

theorem groupId_eq (h : s.InSegment i b) : groupId (s.page b) = .ok i := by
  obtain ⟨g, hg, rfl⟩ := h
  rw [groupId, show (s.page b).body = .grouped g from hg]

theorem inspectFrom_returns {cs : List ℕ} {tail fuel n : ℕ} (hp : PagesOk s)
    (hl : Linked s.next noBlock b (b :: cs)) (ht : tail = lastD noBlock (b :: cs))
    (hi : ∀ x ∈ b :: cs, s.InSegment i x) (hf : cs.length < fuel) :
    Obs.Returns s (inspectFrom i tail fuel b n) (· = n + (cs.length + 1)) := by
  induction fuel generalizing b cs n with
  | zero => omega
  | succ fuel ih =>
    have hb := hi b List.mem_cons_self
    refine (load_returns hp hb.kind (by simp)).bind ?_
    rintro _ rfl
    refine Obs.Returns.ofExcept_bind (groupId_eq hb) ?_
    refine Obs.Returns.ensure_bind ⟨rfl, ?_⟩ ?_
    · -- the tail is the last page of the chain
      rintro ⟨hbt, hn⟩
      refine hn ?_
      rw [ht] at hbt
      cases cs with
      | nil => exact hl.2.2
      | cons c cs =>
        rw [lastD_cons_cons] at hbt
        exact absurd (hbt ▸ lastD_mem noBlock (List.cons_ne_nil c cs))
          (List.nodup_cons.1 hl.nodup).1
    have hnext : postingNext (s.page b) tail (fuel + 1) = .ok (cs.head?, fuel) :=
      postingNext_eq hl ht (hp.block b) hf
    refine Obs.Returns.ofExcept_bind hnext ?_
    cases cs with
    | nil => exact Obs.Returns.pure rfl
    | cons c cs =>
      rw [List.length_cons] at hf
      refine (ih (n := n + 1) hl.tail (ht.trans lastD_cons_cons)
        (fun x hx => hi x (List.mem_cons_of_mem _ hx)) (by omega)).mono ?_
      rintro _ rfl
      rw [List.length_cons]
      omega

/-- The inspection of a named chain counts its pages. -/
theorem inspect_returns (h : Segmented s m) (hc : SegmentOk s c bs) :
    Obs.Returns s (inspect c.id c.head c.tail) (· = bs.length) := by
  have hlen := h.length_le hc
  have hl := hc.linked
  have ht := hc.tail_eq
  unfold inspect
  cases bs with
  | nil =>
    have hhead : c.head = noBlock := hl
    have htail : c.tail = noBlock := ht
    rw [if_pos hhead, if_pos htail]
    exact Obs.Returns.pure rfl
  | cons b bs =>
    obtain ⟨hb, hne, -⟩ := hl
    rw [if_neg (by rw [hb]; exact hne)]
    refine blocks_returns.bind ?_
    rintro _ rfl
    have hl := hc.linked
    rw [hb] at hl ⊢
    refine (inspectFrom_returns h.pages hl ht (fun x => (hc.mem_iff x).1) hlen).mono ?_
    rintro _ rfl
    rw [List.length_cons]
    omega

/-- The page after the head of a named chain. -/
theorem chainNext_eq (hc : SegmentOk s c (b :: rest)) :
    chainNext (s.page b) b c.tail = .ok (rest.headD noBlock) := by
  have hl := hc.linked
  have ht := hc.tail_eq
  cases rest with
  | nil =>
    rw [chainNext, if_pos (by rw [ht]; rfl)]
    rfl
  | cons a as =>
    have hnext : (s.page b).next = a := hl.2.2.1
    have hne : b ≠ c.tail := by
      rw [ht, lastD_cons_cons]
      intro hbt
      exact (List.nodup_cons.1 hl.nodup).1 (hbt ▸ lastD_mem noBlock (List.cons_ne_nil a as))
    have ha : a ≠ noBlock := hl.2.2.2.1
    rw [chainNext, if_neg hne, hnext, if_neg ha]
    rfl

end Grouped

end

/-! ### States with fewer pending chains -/

namespace GroupState.Ok

variable {g : GroupState} {j : GroupJournal} {r : GroupRetired} {rs : List GroupRetired} {head : ℕ}

theorem dropJournal (h : g.Ok) : { g with journal := none }.Ok where
  active := h.active
  deltaCount := h.deltaCount
  deltasNeedActive := h.deltasNeedActive
  deltas := h.deltas
  journalPair := by rintro _ ⟨⟩
  building := by rintro _ ⟨⟩
  retiring := by rintro _ ⟨⟩
  retiredCount := h.retiredCount
  retired x hx := by
    obtain ⟨h₁, h₂, h₃, h₄, -⟩ := h.retired x hx
    exact ⟨h₁, h₂, h₃, h₄, by rintro _ ⟨⟩⟩

theorem moveJournal (h : g.Ok) (hj : g.journal = some j) (hh : PinCore.blockValid head)
    (ht : PinCore.blockValid j.tail) : { g with journal := some { j with head } }.Ok where
  active := h.active
  deltaCount := h.deltaCount
  deltasNeedActive := h.deltasNeedActive
  deltas := h.deltas
  journalPair := by
    rintro _ ⟨⟩
    exact .inr ⟨hh, ht⟩
  building := by
    rintro _ ⟨⟩ hp
    exact h.building j hj hp
  retiring := by
    rintro _ ⟨⟩ hp
    obtain ⟨h₁, h₂, -, h₄⟩ := h.retiring j hj hp
    exact ⟨h₁, h₂, hh.2, h₄⟩
  retiredCount := h.retiredCount
  retired x hx := by
    obtain ⟨h₁, h₂, h₃, h₄, h₅⟩ := h.retired x hx
    refine ⟨h₁, h₂, h₃, h₄, ?_⟩
    rintro _ ⟨⟩
    exact h₅ j hj

theorem dropRetired (h : g.Ok) (hr : g.retired = r :: rs) : { g with retired := rs }.Ok where
  active := h.active
  deltaCount := h.deltaCount
  deltasNeedActive := h.deltasNeedActive
  deltas := h.deltas
  journalPair := h.journalPair
  building := h.building
  retiring j hj hp := by
    have := (h.retiring j hj hp).2.1
    rw [hr] at this
    cases this
  retiredCount := by
    have := h.retiredCount
    rw [hr, List.length_cons] at this
    exact Nat.le_of_succ_le this
  retired x hx := h.retired x (by rw [hr]; exact List.mem_cons_of_mem _ hx)

theorem moveRetired (h : g.Ok) (hr : g.retired = r :: rs) (hh : PinCore.blockValid head)
    (ht : PinCore.blockValid r.tail) : { g with retired := { r with head } :: rs }.Ok where
  active := h.active
  deltaCount := h.deltaCount
  deltasNeedActive := h.deltasNeedActive
  deltas := h.deltas
  journalPair := h.journalPair
  building := h.building
  retiring j hj hp := by
    have := (h.retiring j hj hp).2.1
    rw [hr] at this
    cases this
  retiredCount := by
    have := h.retiredCount
    rwa [hr] at this
  retired x hx := by
    rcases List.mem_cons.1 hx with rfl | hx
    · obtain ⟨-, -, h₃⟩ := h.retired r (by rw [hr]; exact List.mem_cons_self)
      exact ⟨hh.2, .inr ⟨hh, ht⟩, h₃⟩
    · exact h.retired x (by rw [hr]; exact List.mem_cons_of_mem _ hx)

end GroupState.Ok

theorem metaPage_setGroupedState {m : MetaBody} {g : GroupState} (hok : g.Ok)
    (hids : g.IdsBelow m.incarnation) (hrefs : g.OwnersValid) :
    (metaPage m).setGroupedState g = .ok (metaPage { m with grouped := g }) := by
  have hgood : ¬ ¬ (g.Ok ∧ g.IdsBelow m.incarnation) := not_not.2 ⟨hok, hids⟩
  rw [Page.setGroupedState, metaPage_info, ok_bind, if_neg hgood, if_pos hrefs]
  rfl

theorem metaPage_setGroupedState_refuses {m : MetaBody} {g : GroupState} (hok : g.Ok)
    (hids : g.IdsBelow m.incarnation) (hrefs : ¬ g.OwnersValid) :
    (metaPage m).setGroupedState g = .error .codec := by
  have hgood : ¬ ¬ (g.Ok ∧ g.IdsBelow m.incarnation) := not_not.2 ⟨hok, hids⟩
  rw [Page.setGroupedState, metaPage_info, ok_bind, if_neg hgood, if_neg hrefs]

/-! ### Taking a chain apart -/

/-- The pages `bs` of pending chains were freed, one after another; nothing else changed. -/
structure Dismantled (s s' : Store) (m : MetaBody) (g : GroupState) (bs : List ℕ) : Prop where
  segmented : ∃ free, Segmented s' (m.regroup g free)
  pending : ∀ c ∈ g.pending, ∃ d ∈ m.grouped.pending, d.id = c.id
  nodup : bs.Nodup
  old : ∀ b ∈ bs, ∃ c ∈ m.grouped.pending, s.InSegment c.id b
  published : g.active = m.grouped.active ∧ g.deltas = m.grouped.deltas
  freed : ∀ b ∈ bs, (s'.body b).kind = .free
  other : ∀ b, b ≠ 0 → b ∉ bs → s'.page b = s.page b
  layout : s'.layout = s.layout
  blocks : s'.blocks = s.blocks

section

variable {s s' s'' : Store} {m : MetaBody} {c : GroupRetired} {g g' : GroupState}
  {bs cs rest : List ℕ} {others : List GroupRetired} {b free : ℕ}

theorem Segmented.dismantled_nil (h : Segmented s m) : Dismantled s s m m.grouped [] where
  segmented := ⟨m.freeHead, h⟩
  pending c hc := ⟨c, hc, rfl⟩
  nodup := List.nodup_nil
  old _ hb := absurd hb List.not_mem_nil
  published := ⟨rfl, rfl⟩
  freed _ hb := absurd hb List.not_mem_nil
  other _ _ _ := rfl
  layout := rfl
  blocks := rfl

theorem Dismantled.trans (hs : Segmented s m) (h : Dismantled s s' m g bs)
    (h' : Dismantled s' s'' (m.regroup g free) g' cs) : Dismantled s s'' m g' (bs ++ cs) := by
  have hzero : ∀ b ∈ bs, b ≠ 0 := by
    intro b hb
    obtain ⟨c, -, hc⟩ := h.old b hb
    exact hs.ne_zero (by rw [hc.kind]; decide)
  -- a freed page is not freed again
  have hnew : ∀ b ∈ bs, b ∉ cs := by
    intro b hb hb'
    obtain ⟨c, -, hc⟩ := h'.old b hb'
    have := hc.kind
    rw [h.freed b hb] at this
    cases this
  refine ⟨h'.segmented, fun c hc => ?_, ?_, fun b hb => ?_, ?_, fun b hb => ?_, fun b h0 hb => ?_,
    h'.layout.trans h.layout, h'.blocks.trans h.blocks⟩
  · obtain ⟨d, hd, hid⟩ := h'.pending c hc
    obtain ⟨e, he, hid'⟩ := h.pending d hd
    exact ⟨e, he, hid'.trans hid⟩
  · exact List.nodup_append.2 ⟨h.nodup, h'.nodup, fun b hb c hc hbc => hnew b hb (hbc ▸ hc)⟩
  · rcases List.mem_append.1 hb with hb | hb
    · exact h.old b hb
    · obtain ⟨c, hc, hin⟩ := h'.old b hb
      obtain ⟨d, hd, hid⟩ := h.pending c hc
      have hb0 : b ≠ 0 := by
        obtain ⟨f, hf⟩ := h.segmented
        exact hf.ne_zero (by rw [hin.kind]; decide)
      have hpage := h.other b hb0 fun hm => hnew b hm hb
      rw [Store.inSegment_congr hpage] at hin
      exact ⟨d, hd, hid ▸ hin⟩
  · exact ⟨h'.published.1.trans h.published.1, h'.published.2.trans h.published.2⟩
  · rcases List.mem_append.1 hb with hb | hb
    · rw [Store.body_eq_of_page (h'.other b (hzero b hb) (hnew b hb))]
      exact h.freed b hb
    · exact h'.freed b hb
  · obtain ⟨hb, hb'⟩ := not_or.1 (mt List.mem_append.2 hb)
    rw [h'.other b h0 hb', h.other b h0 hb]

/-- A grouped page is not on the free list. -/
theorem Segmented.freeHead_apart {i : ℕ} (h : Segmented s m) (hb : s.InSegment i b) :
    m.freeHead = noBlock ∨ (PinCore.blockValid m.freeHead ∧ m.freeHead ≠ b) := by
  by_cases hf : m.freeHead = noBlock
  · exact .inl hf
  · refine .inr ⟨⟨h.metaOk.free, hf⟩, ?_⟩
    rintro rfl
    have := h.free.head hf
    rw [hb.kind] at this
    cases this

/-- The first page of a named chain becomes free. -/
theorem Segmented.free_head (h : Segmented s m) (hch : m.grouped.chains = c :: others)
    (hc : SegmentOk s c (b :: rest))
    (hg : g.chains = (if rest = [] then [] else [{ c with head := rest.headD noBlock }]) ++ others)
    (hpub : g.active = m.grouped.active ∧ g.deltas = m.grouped.deltas)
    (hpend : c ∈ m.grouped.pending) (hsub : ∀ d ∈ g.pending, ∃ e ∈ m.grouped.pending, e.id = d.id)
    (hok : g.Ok) (hids : g.IdsBelow m.incarnation) :
    CommitOk s [metaPage (m.regroup g b), freePage b m.freeHead] ∧
      ∀ s', Committed s s' [metaPage (m.regroup g b), freePage b m.freeHead] →
        Segmented s' (m.regroup g b) ∧ Dismantled s s' m g [b] := by
  have hb : s.InSegment c.id b := (hc.mem_iff b).1 List.mem_cons_self
  have hbv := h.blockValid hb
  have hm := h.metaOk
  have hmeta : (m.regroup g b).Ok s.layout :=
    ⟨hm.maxOffset, hm.incarnation, hm.owners, hbv.1, hm.journal, hok, hids,
      hm.refs.congr hpub.1 hpub.2, hm.bucket⟩
  have hcommit : CommitOk s [metaPage (m.regroup g b), freePage b m.freeHead] :=
    commitOk_two ⟨metaPage_valid hmeta, by simp, h.pages.pos⟩
      ⟨freePage_valid hbv (h.freeHead_apart hb), by rintro ⟨⟩, h.lt_blocks hb⟩ (Ne.symm hbv.1)
  refine ⟨hcommit, fun s' hcm => ?_⟩
  obtain ⟨hzero, hbpage, hother⟩ := hcm.two
  have hbpage : s'.page b = freePage b m.freeHead := hbpage
  have hzero : s'.page 0 = metaPage (m.regroup g b) := hzero
  have hfreed : (s'.body b).kind = .free := by
    rw [Store.body, hbpage]
    rfl
  have hpages : ∀ x, x ≠ 0 → x ≠ b → s'.page x = s.page x := fun x h0 hx => hother x h0 hx
  have hbnot : ∀ i, ¬ s'.InSegment i b := fun i => Store.not_inSegment (by rw [hfreed]; decide)
  have h0not : ∀ i x, s.InSegment i x ∨ s'.InSegment i x → x ≠ 0 := by
    rintro i x (hx | hx)
    · exact h.ne_zero (by rw [hx.kind]; decide)
    · rintro rfl
      have hk := hx.kind
      rw [Store.body, hzero] at hk
      cases hk
  have hdist := h.distinct
  rw [hch, List.map_cons, List.nodup_cons] at hdist
  -- every other chain keeps its pages
  have hrest : ∀ d ∈ others, ∃ ds, SegmentOk s' d ds := by
    intro d hd
    obtain ⟨ds, hds⟩ := h.chain d (by rw [hch]; exact List.mem_cons_of_mem _ hd)
    refine ⟨ds, hds.congr fun x hx => hpages x (h0not _ x hx) ?_⟩
    rintro rfl
    rcases hx with hx | hx
    · exact hdist.1 (List.mem_map.2 ⟨d, hd, hx.unique hb⟩)
    · exact hbnot _ hx
  have hseg : Segmented s' (m.regroup g b) := by
    refine ⟨hcm.pages h.pages hcommit, hzero, ?_, ?_, ?_, ?_⟩
    · -- the page goes to the front of the free list
      have hold : (s.body b).kind ≠ .free := by rw [hb.kind]; decide
      have hnext : s'.next b = m.freeHead := by rw [Store.next, hbpage]; rfl
      refine h.free.push hbv.2 hold hfreed hnext fun x hx hk => hpages x ?_ hx
      rintro rfl
      rcases hk with hk | hk
      · rw [h.kind_zero] at hk
        cases hk
      · rw [Store.body, hzero] at hk
        cases hk
    · change (g.chains.map (·.id)).Nodup
      rw [hg, List.map_append]
      split_ifs
      · exact hdist.2
      · exact List.nodup_cons.2 hdist
    · intro d hd
      have hd' : d ∈ g.chains := hd
      rw [hg] at hd'
      rcases List.mem_append.1 hd' with hd' | hd'
      · split_ifs at hd' with hnil
        · exact absurd hd' List.not_mem_nil
        · rw [List.mem_singleton.1 hd']
          exact ⟨rest, hc.drop hnil (hbnot _) fun x hx hi => hpages x (h0not _ x hi) hx⟩
      · exact hrest d hd'
    · intro x gx hx
      have hin : s'.InSegment gx.id x := ⟨gx, hx, rfl⟩
      have hxb : x ≠ b := by rintro rfl; exact hbnot _ hin
      have hx0 := h0not _ x (.inr hin)
      have hpx := hpages x hx0 hxb
      rw [Store.body_eq_of_page hpx] at hx
      obtain ⟨d, hd, hid⟩ := h.covered x gx hx
      change ∃ d ∈ g.chains, d.id = gx.id
      rw [hg]
      rw [hch] at hd
      rcases List.mem_cons.1 hd with rfl | hd
      · -- the chain still has this page
        have hxr : x ∈ rest := by
          have := (hc.mem_iff x).2 ⟨gx, hx, hid.symm⟩
          exact (List.mem_cons.1 this).resolve_left hxb
        rw [if_neg (List.ne_nil_of_mem hxr)]
        exact ⟨_, List.mem_append_left _ (List.mem_singleton_self _), hid⟩
      · exact ⟨d, List.mem_append_right _ hd, hid⟩
  refine ⟨hseg, ⟨b, hseg⟩, hsub, List.nodup_singleton b, ?_, hpub, ?_, fun x h0 hx => ?_,
    hcm.layout, hcm.blocks⟩
  · intro x hx
    rw [List.mem_singleton.1 hx]
    exact ⟨c, hpend, hb⟩
  · intro x hx
    rw [List.mem_singleton.1 hx]
    exact hfreed
  · exact hpages x h0 fun he => hx (List.mem_singleton.2 he)

/-- A pending chain without pages is forgotten. -/
theorem Segmented.drop_empty (h : Segmented s m) (hch : m.grouped.chains = c :: g.chains)
    (hc : SegmentOk s c []) (hpub : g.active = m.grouped.active ∧ g.deltas = m.grouped.deltas)
    (hsub : ∀ d ∈ g.pending, ∃ e ∈ m.grouped.pending, e.id = d.id)
    (hok : g.Ok) (hids : g.IdsBelow m.incarnation) :
    CommitOk s [metaPage (m.regroup g m.freeHead)] ∧
      ∀ s', Committed s s' [metaPage (m.regroup g m.freeHead)] → Dismantled s s' m g [] := by
  have hm := h.metaOk
  have hmeta : (m.regroup g m.freeHead).Ok s.layout :=
    ⟨hm.maxOffset, hm.incarnation, hm.owners, hm.free, hm.journal, hok, hids,
      hm.refs.congr hpub.1 hpub.2, hm.bucket⟩
  have hcommit : CommitOk s [metaPage (m.regroup g m.freeHead)] :=
    commitOk_one (metaPage_valid hmeta) (by simp) h.pages.pos
  refine ⟨hcommit, fun s' hcm => ?_⟩
  have hkind : (s.body (metaPage (m.regroup g m.freeHead)).block).kind = .info := h.kind_zero
  have hsame : Same (· = .grouped) s s' := hcm.same_one hkind ⟨by decide, by simp⟩
  have hfree : Same (· = .free) s s' := hcm.same_one hkind ⟨by decide, by simp⟩
  have hseg : Segmented s' (m.regroup g m.freeHead) := by
    have hdist := h.distinct
    rw [hch, List.map_cons, List.nodup_cons] at hdist
    refine ⟨hcm.pages h.pages hcommit, hcm.one.1, h.free.same hfree, hdist.2, fun d hd => ?_,
      fun b x hb => ?_⟩
    · obtain ⟨ds, hds⟩ := h.chain d (by rw [hch]; exact List.mem_cons_of_mem _ hd)
      exact ⟨ds, hds.congr fun x hx =>
        hsame.page x (hx.imp Store.InSegment.kind Store.InSegment.kind)⟩
    · rw [hsame.body (.inr (by rw [hb]; rfl))] at hb
      obtain ⟨d, hd, hid⟩ := h.covered b x hb
      rw [hch] at hd
      rcases List.mem_cons.1 hd with rfl | hd
      · exact absurd ((hc.mem_iff b).2 ⟨x, hb, hid.symm⟩) List.not_mem_nil
      · exact ⟨d, hd, hid⟩
  exact ⟨⟨_, hseg⟩, hsub, List.nodup_nil, fun _ hb => absurd hb List.not_mem_nil, hpub,
    fun _ hb => absurd hb List.not_mem_nil, fun b h0 _ => hcm.one.2 b h0, hcm.layout, hcm.blocks⟩

/-- The segments of `cs` have at most `n` pages. -/
def Store.PagesWithin (s : Store) (cs : List GroupRetired) (n : ℕ) : Prop :=
  ∀ bs : List ℕ, bs.Nodup → (∀ b ∈ bs, ∃ c ∈ cs, s.InSegment c.id b) → bs.length ≤ n

theorem Segmented.pagesWithin (h : Segmented s m) (cs : List GroupRetired) :
    s.PagesWithin cs s.blocks := fun bs hn hb => h.pages.length_le hn fun b hm => by
  obtain ⟨c, -, hc⟩ := hb b hm
  rw [hc.kind]
  decide

/-- Each freed page is one page less to free. -/
theorem Dismantled.pagesWithin {n : ℕ} (hr : Dismantled s s' m g bs)
    (hn : s.PagesWithin m.grouped.pending (n + bs.length)) : s'.PagesWithin g.pending n := by
  intro xs hx hxs
  have hfree : ∀ x ∈ xs, x ∉ bs := by
    intro x hx hb
    obtain ⟨c, -, hc⟩ := hxs x hx
    have := hc.kind
    rw [hr.freed x hb] at this
    cases this
  have := hn (bs ++ xs) (List.nodup_append.2 ⟨hr.nodup, hx, fun b hb x hx' hbx =>
    hfree x hx' (hbx ▸ hb)⟩) ?_
  · rw [List.length_append] at this
    omega
  · intro x hm
    rcases List.mem_append.1 hm with hm | hm
    · exact hr.old x hm
    · obtain ⟨c, hc, hin⟩ := hxs x hm
      obtain ⟨d, hd, hid⟩ := hr.pending c hc
      have hx0 : x ≠ 0 := by
        obtain ⟨f, hf⟩ := hr.segmented
        exact hf.ne_zero (by rw [hin.kind]; decide)
      rw [Store.inSegment_congr (hr.other x hx0 (hfree x hm))] at hin
      exact ⟨d, hd, hid ▸ hin⟩

/-! ### Recovery -/

namespace Grouped

variable {E : Error → Prop} {fuel n k : ℕ} {j : GroupJournal}

/-- The journal of a segmented store names a segment of its own. -/
theorem journal_apart (h : Segmented s m) (hj : m.grouped.journal = some j) :
    (∀ x ∈ m.grouped.active, x.id ≠ j.id) ∧ (∀ d ∈ m.grouped.deltas, d.snapshot.id ≠ j.id) ∧
      ∀ r ∈ m.grouped.retired, r.id ≠ j.id := by
  have hchain : m.grouped.chains = j.chain :: (m.grouped.retired ++ m.grouped.published) := by
    rw [GroupState.chains, GroupState.pending, hj]
    rfl
  have hdist := h.distinct
  rw [hchain, List.map_cons, List.nodup_cons] at hdist
  have hnot : ∀ c ∈ m.grouped.retired ++ m.grouped.published, c.id ≠ j.id := fun c hc hid =>
    hdist.1 (List.mem_map.2 ⟨c, hc, hid⟩)
  refine ⟨fun x hx => ?_, fun d hd => ?_, fun r hr => ?_⟩
  · refine hnot x.chain (List.mem_append_right _ (List.mem_append_left _ ?_))
    rw [Option.mem_def.1 hx]
    exact List.mem_singleton_self _
  · exact hnot d.snapshot.chain
      (List.mem_append_right _ (List.mem_append_right _ (List.mem_map.2 ⟨d, hd, rfl⟩)))
  · exact hnot r (List.mem_append_left _ hr)

/-- The state after the first page of the journal was freed; `next` is the page behind it. -/
def afterJournal (g : GroupState) (j : GroupJournal) (next : ℕ) : GroupState :=
  { g with journal := if next = noBlock then none else some { j with head := next } }

theorem afterJournal_spec {b : ℕ} (h : Segmented s m) (hj : m.grouped.journal = some j)
    (hc : SegmentOk s j.chain (b :: rest)) :
    (afterJournal m.grouped j (rest.headD noBlock)).Ok ∧
      (afterJournal m.grouped j (rest.headD noBlock)).IdsBelow m.incarnation ∧
      (afterJournal m.grouped j (rest.headD noBlock)).chains =
        (if rest = [] then [] else [{ j.chain with head := rest.headD noBlock }]) ++
          (m.grouped.retired ++ m.grouped.published) ∧
      ∀ d ∈ (afterJournal m.grouped j (rest.headD noBlock)).pending,
        ∃ e ∈ m.grouped.pending, e.id = d.id := by
  have hm := h.metaOk
  have hpend : m.grouped.pending = j.chain :: m.grouped.retired := by
    rw [GroupState.pending, hj]
    rfl
  cases rest with
  | nil =>
    refine ⟨hm.grouped.dropJournal, ⟨hm.ids.1, hm.ids.2.1, by rintro _ ⟨⟩, hm.ids.2.2.2⟩, rfl, ?_⟩
    intro d hd
    exact ⟨d, by rw [hpend]; exact List.mem_cons_of_mem _ hd, rfl⟩
  | cons a as =>
    have ha : s.InSegment j.id a := (hc.mem_iff a).1 (List.mem_cons_of_mem _ List.mem_cons_self)
    have ht : s.InSegment j.id j.tail := by
      refine (hc.mem_iff _).1 ?_
      rw [show j.tail = lastD noBlock _ from hc.tail_eq]
      exact lastD_mem noBlock (List.cons_ne_nil _ _)
    have hif : afterJournal m.grouped j ((a :: as).headD noBlock) =
        { m.grouped with journal := some { j with head := a } } := by
      rw [afterJournal, List.headD_cons, if_neg (h.blockValid ha).2]
    rw [hif]
    refine ⟨hm.grouped.moveJournal hj (h.blockValid ha) (h.blockValid ht),
      ⟨hm.ids.1, hm.ids.2.1, ?_, hm.ids.2.2.2⟩, rfl, ?_⟩
    · rintro _ ⟨⟩
      exact hm.ids.2.2.1 j hj
    · intro d hd
      rw [hpend]
      rcases List.mem_cons.1 hd with rfl | hd
      · exact ⟨j.chain, List.mem_cons_self, rfl⟩
      · exact ⟨d, List.mem_cons_of_mem _ hd, rfl⟩

theorem recoverJournal_spec (h : Segmented s m) (hn : s.PagesWithin m.grouped.pending n)
    (hpos : 0 < fuel) (hf : m.grouped.journal ≠ none → n + 1 < fuel) :
    Spec E (fun s' => ∃ g bs, Dismantled s s' m g bs) s (recoverJournal fuel k) fun k' s' =>
      ∃ bs, Dismantled s s' m { m.grouped with journal := none } bs ∧ k' = k + bs.length := by
  induction fuel generalizing s m n k with
  | zero => omega
  | succ fuel ih =>
    have hm := h.metaOk
    refine Spec.reading_bind h.loadInfo ?_
    rintro _ rfl
    refine Spec.ofExcept_bind (metaPage_groupedState hm) ?_
    cases hj : m.grouped.journal with
    | none =>
      refine Spec.pure ⟨[], ?_, rfl⟩
      have heq : { m.grouped with journal := none } = m.grouped := by
        rw [← hj]
      rw [heq]
      exact h.dismantled_nil
    | some j =>
      have hchain : m.grouped.chains =
          j.chain :: (m.grouped.retired ++ m.grouped.published) := by
        rw [GroupState.chains, GroupState.pending, hj]
        rfl
      have hpend : m.grouped.pending = j.chain :: m.grouped.retired := by
        rw [GroupState.pending, hj]
        rfl
      obtain ⟨bs, hc⟩ := h.chain j.chain (by rw [hchain]; exact List.mem_cons_self)
      refine Spec.reading_bind (inspect_returns h hc) fun _ _ => ?_
      refine Spec.ensure_bind (journal_apart h hj) ?_
      have hf := hf (by rw [hj]; exact Option.some_ne_none j)
      -- what is left to do after one durable step
      have hrest : ∀ {s₁ g₁ as free}, Segmented s₁ (m.regroup g₁ free) →
          Dismantled s s₁ m g₁ as → { g₁ with journal := none } =
            { m.grouped with journal := none } →
          (∃ n₁, s₁.PagesWithin g₁.pending n₁ ∧ 0 < fuel ∧ (g₁.journal ≠ none → n₁ + 1 < fuel)) →
          Spec E (fun s' => ∃ g bs, Dismantled s s' m g bs) s₁
            (recoverJournal fuel (k + as.length)) fun k' s' =>
            ∃ bs, Dismantled s s' m { m.grouped with journal := none } bs ∧ k' = k + bs.length := by
        rintro s₁ g₁ as free h₁ hr heq ⟨n₁, hn₁, hp₁, hf₁⟩
        refine (ih h₁ hn₁ hp₁ hf₁).mono ?_ ?_
        · rintro s' ⟨g, bs', h'⟩
          exact ⟨g, as ++ bs', hr.trans h h'⟩
        · rintro k' s' ⟨bs', h', rfl⟩
          have h' : Dismantled s₁ s' (m.regroup g₁ free) { g₁ with journal := none } bs' := h'
          rw [heq] at h'
          exact ⟨as ++ bs', hr.trans h h', by rw [List.length_append, Nat.add_assoc]⟩
      cases bs with
      | nil =>
        have hhead : j.head = noBlock := hc.linked
        rw [if_pos hhead]
        have hok := hm.grouped.dropJournal
        have hids : { m.grouped with journal := none }.IdsBelow m.incarnation :=
          ⟨hm.ids.1, hm.ids.2.1, by rintro _ ⟨⟩, hm.ids.2.2.2⟩
        have hsub : ∀ d ∈ { m.grouped with journal := none }.pending,
            ∃ e ∈ m.grouped.pending, e.id = d.id := by
          intro d hd
          exact ⟨d, by rw [hpend]; exact List.mem_cons_of_mem _ hd, rfl⟩
        obtain ⟨hcommit, hdone⟩ := h.drop_empty (g := { m.grouped with journal := none }) hchain hc
          ⟨rfl, rfl⟩ hsub hok hids
        refine Spec.ofExcept_bind (metaPage_setGroupedState hok hids (hm.refs.congr rfl rfl)) ?_
        refine (commit_spec hcommit fun s₁ hcm => ⟨_, _, hdone s₁ hcm⟩).bind fun _ s₁ hcm => ?_
        have hr := hdone s₁ hcm
        obtain ⟨free, h₁⟩ := hr.segmented
        exact hrest h₁ hr rfl ⟨n, hr.pagesWithin hn, by omega, fun hne => absurd rfl hne⟩
      | cons b rest =>
        have hl := hc.linked
        have hhead : j.head = b := hl.1
        have hbne : b ≠ noBlock := hl.2.1
        have hbv : s.InSegment j.id b := (hc.mem_iff b).1 List.mem_cons_self
        rw [if_neg (by rw [hhead]; exact hbne), hhead]
        refine Spec.reading_bind (load_returns h.pages hbv.kind (by simp)) ?_
        rintro _ rfl
        refine Spec.ofExcept_bind (chainNext_eq hc) ?_
        refine Spec.ofExcept_bind (metaPage_freeHead hm) ?_
        refine Spec.ofExcept_bind (free_eq (h.blockValid hbv) (h.freeHead_apart hbv)) ?_
        refine Spec.ofExcept_bind (metaPage_setFreeHead (h.blockValid hbv).1) ?_
        obtain ⟨hok, hids, hchains, hsub⟩ := afterJournal_spec h hj hc
        refine Spec.ofExcept_bind (metaPage_setGroupedState hok hids (hm.refs.congr rfl rfl)) ?_
        obtain ⟨hcommit, hdone⟩ := h.free_head hchain hc hchains ⟨rfl, rfl⟩
          (by rw [hpend]; exact List.mem_cons_self) hsub hok hids
        refine (commit_spec hcommit fun s₁ hcm => ⟨_, _, (hdone s₁ hcm).2⟩).bind fun _ s₁ hcm => ?_
        obtain ⟨h₁, hr⟩ := hdone s₁ hcm
        -- one page less to free
        have hone : 1 ≤ n := hn [b] (List.nodup_singleton b) fun x hx => by
          rw [List.mem_singleton.1 hx]
          exact ⟨j.chain, by rw [hpend]; exact List.mem_cons_self, hbv⟩
        refine hrest h₁ hr rfl ⟨n - 1, hr.pagesWithin ?_, by omega, fun _ => by omega⟩
        rwa [List.length_singleton, Nat.sub_add_cancel hone]

/-- The state after the first page of the queue was freed; `next` is the page behind it. -/
def afterRetired (g : GroupState) (r : GroupRetired) (rs : List GroupRetired) (next : ℕ) :
    GroupState := { g with retired := if next = noBlock then rs else { r with head := next } :: rs }

theorem afterRetired_spec {b : ℕ} {r : GroupRetired} {rs : List GroupRetired} (h : Segmented s m)
    (hj : m.grouped.journal = none) (hr : m.grouped.retired = r :: rs)
    (hc : SegmentOk s r (b :: rest)) :
    (afterRetired m.grouped r rs (rest.headD noBlock)).Ok ∧
      (afterRetired m.grouped r rs (rest.headD noBlock)).IdsBelow m.incarnation ∧
      (afterRetired m.grouped r rs (rest.headD noBlock)).chains =
        (if rest = [] then [] else [{ r with head := rest.headD noBlock }]) ++
          (rs ++ m.grouped.published) ∧
      ∀ d ∈ (afterRetired m.grouped r rs (rest.headD noBlock)).pending,
        ∃ e ∈ m.grouped.pending, e.id = d.id := by
  have hm := h.metaOk
  have hpend : m.grouped.pending = r :: rs := by
    rw [GroupState.pending, hj, hr]
    rfl
  have hid : ∀ x ∈ r :: rs, x.id < m.incarnation := fun x hx =>
    hm.ids.2.2.2 x (by rw [hr]; exact hx)
  have hchains : ∀ q : List GroupRetired,
      ({ m.grouped with retired := q } : GroupState).chains = q ++ m.grouped.published := by
    intro q
    simp only [GroupState.chains, GroupState.pending, hj]
    rfl
  have hpending : ∀ q : List GroupRetired, ({ m.grouped with retired := q } : GroupState).pending =
    q := by
    intro q
    simp only [GroupState.pending, hj]
    rfl
  cases rest with
  | nil =>
    have hif : afterRetired m.grouped r rs (([] : List ℕ).headD noBlock) =
        { m.grouped with retired := rs } := rfl
    rw [hif, hchains, hpending]
    refine ⟨hm.grouped.dropRetired hr, ⟨hm.ids.1, hm.ids.2.1, hm.ids.2.2.1, fun x hx =>
      hid x (List.mem_cons_of_mem _ hx)⟩, rfl, fun d hd => ?_⟩
    exact ⟨d, by rw [hpend]; exact List.mem_cons_of_mem _ hd, rfl⟩
  | cons a as =>
    have ha : s.InSegment r.id a := (hc.mem_iff a).1 (List.mem_cons_of_mem _ List.mem_cons_self)
    have ht : s.InSegment r.id r.tail := by
      refine (hc.mem_iff _).1 ?_
      rw [hc.tail_eq]
      exact lastD_mem noBlock (List.cons_ne_nil _ _)
    have hif : afterRetired m.grouped r rs ((a :: as).headD noBlock) =
        { m.grouped with retired := { r with head := a } :: rs } := by
      rw [afterRetired, List.headD_cons, if_neg (h.blockValid ha).2]
    rw [hif, hchains, hpending]
    refine ⟨hm.grouped.moveRetired hr (h.blockValid ha) (h.blockValid ht),
      ⟨hm.ids.1, hm.ids.2.1, hm.ids.2.2.1, fun x hx => ?_⟩, rfl, fun d hd => ?_⟩
    · rcases List.mem_cons.1 hx with rfl | hx
      · exact hid r List.mem_cons_self
      · exact hid x (List.mem_cons_of_mem _ hx)
    · rw [hpend]
      rcases List.mem_cons.1 hd with rfl | hd
      · exact ⟨r, List.mem_cons_self, rfl⟩
      · exact ⟨d, List.mem_cons_of_mem _ hd, rfl⟩

theorem recoverRetired_spec (h : Segmented s m) (hj : m.grouped.journal = none)
    (hn : s.PagesWithin m.grouped.pending n) (hf : n < fuel) :
    Spec E (fun s' => ∃ g bs, Dismantled s s' m g bs) s (recoverRetired fuel k) fun k' s' =>
      ∃ bs, Dismantled s s' m { m.grouped with retired := [] } bs ∧ k' = k + bs.length := by
  induction fuel generalizing s m n k with
  | zero => omega
  | succ fuel ih =>
    have hm := h.metaOk
    refine Spec.reading_bind h.loadInfo ?_
    rintro _ rfl
    refine Spec.ofExcept_bind (metaPage_groupedState hm) ?_
    cases hr : m.grouped.retired with
    | nil =>
      refine Spec.pure ⟨[], ?_, rfl⟩
      have heq : { m.grouped with retired := [] } = m.grouped := by
        rw [← hr]
      rw [heq]
      exact h.dismantled_nil
    | cons r rs =>
      have hpend : m.grouped.pending = r :: rs := by
        rw [GroupState.pending, hj, hr]
        rfl
      have hchain : m.grouped.chains = r :: (rs ++ m.grouped.published) := by
        rw [GroupState.chains, hpend]
        rfl
      obtain ⟨bs, hc⟩ := h.chain r (by rw [hchain]; exact List.mem_cons_self)
      refine Spec.reading_bind (inspect_returns h hc) fun _ _ => ?_
      have hhead := (hm.grouped.retired r (by rw [hr]; exact List.mem_cons_self)).1
      cases bs with
      | nil => exact absurd hc.linked hhead
      | cons b rest =>
        have hb : r.head = b := hc.linked.1
        have hbv : s.InSegment r.id b := (hc.mem_iff b).1 List.mem_cons_self
        rw [hb]
        refine Spec.reading_bind (load_returns h.pages hbv.kind (by simp)) ?_
        rintro _ rfl
        refine Spec.ofExcept_bind (chainNext_eq hc) ?_
        refine Spec.ofExcept_bind (metaPage_freeHead hm) ?_
        refine Spec.ofExcept_bind (free_eq (h.blockValid hbv) (h.freeHead_apart hbv)) ?_
        refine Spec.ofExcept_bind (metaPage_setFreeHead (h.blockValid hbv).1) ?_
        obtain ⟨hok, hids, hchains, hsub⟩ := afterRetired_spec h hj hr hc
        refine Spec.ofExcept_bind (metaPage_setGroupedState hok hids (hm.refs.congr rfl rfl)) ?_
        obtain ⟨hcommit, hdone⟩ := h.free_head hchain hc hchains ⟨rfl, rfl⟩
          (by rw [hpend]; exact List.mem_cons_self) hsub hok hids
        refine (commit_spec hcommit fun s₁ hcm => ⟨_, _, (hdone s₁ hcm).2⟩).bind fun _ s₁ hcm => ?_
        obtain ⟨h₁, hr₁⟩ := hdone s₁ hcm
        -- one page less to free
        have hone : 1 ≤ n := hn [b] (List.nodup_singleton b) fun x hx => by
          rw [List.mem_singleton.1 hx]
          exact ⟨r, by rw [hpend]; exact List.mem_cons_self, hbv⟩
        have hn₁ := hr₁.pagesWithin (n := n - 1)
          (by rwa [List.length_singleton, Nat.sub_add_cancel hone])
        refine (ih h₁ hj hn₁ (by omega)).mono ?_ ?_
        · rintro s' ⟨g, bs', h'⟩
          exact ⟨g, [b] ++ bs', hr₁.trans h h'⟩
        · rintro k' s' ⟨bs', h', rfl⟩
          refine ⟨[b] ++ bs', hr₁.trans h h', ?_⟩
          rw [List.length_append, List.length_singleton]
          omega

/-- Recovery frees exactly the pages of the pending chains; the published chains stay.  Cut off
anywhere it has freed some of these pages and leaves a segmented store. -/
theorem recover_spec (h : Segmented s m) :
    Spec E (fun s' => ∃ g bs, Dismantled s s' m g bs) s recover fun k s' =>
      ∃ bs, Dismantled s s' m { m.grouped with journal := none, retired := [] } bs ∧
        k = bs.length := by
  refine Spec.reading_bind blocks_returns ?_
  rintro _ rfl
  refine (recoverJournal_spec h (h.pagesWithin _) (Nat.succ_pos _)
    fun _ => Nat.lt_succ_self _).bind ?_
  rintro k s₁ ⟨bs, hr, rfl⟩
  obtain ⟨free, h₁⟩ := hr.segmented
  have hn := h₁.pagesWithin (m.regroup { m.grouped with journal := none } free).grouped.pending
  refine (recoverRetired_spec h₁ rfl hn (by rw [hr.blocks]; exact Nat.lt_succ_self _)).mono ?_ ?_
  · rintro s' ⟨g, bs', h'⟩
    exact ⟨g, bs ++ bs', hr.trans h h'⟩
  · rintro k' s' ⟨bs', h', rfl⟩
    refine ⟨bs ++ bs', hr.trans h h', ?_⟩
    rw [List.length_append, Nat.zero_add]

end Grouped

/-! ### What recovery leaves -/

/-- Freeing pending pages stays beside the canonical index. -/
theorem Dismantled.beside (h : Segmented s m) (hr : Dismantled s s' m g bs) :
    ∃ free, Beside s s' m (m.regroup g free) ∧ Retains s s' m (m.regroup g free) := by
  obtain ⟨free, hs⟩ := hr.segmented
  have hfreed : ∀ b ∈ bs, (s.body b).kind = .grouped := by
    intro b hb
    obtain ⟨c, -, hc⟩ := hr.old b hb
    exact hc.kind
  refine ⟨free, ⟨hs, ⟨hr.layout, fun b hb => ?_⟩, rfl, Nat.le_refl _, Nat.le_of_eq hr.blocks.symm⟩,
    hr.published.1, hr.published.2, fun c hc b hb => ?_⟩
  · refine hr.other b ?_ fun hm => ?_
    · rintro rfl
      rw [h.kind_zero, hs.kind_zero] at hb
      exact hb.elim (fun hk => hk.2.2.2 rfl) fun hk => hk.2.2.2 rfl
    · rw [hfreed b hm, hr.freed b hm] at hb
      exact hb.elim (fun hk => hk.2.2.1 rfl) fun hk => hk.2.1 rfl
  · have hb0 : b ≠ 0 := by
      rintro rfl
      rcases hb with hb | hb
      · have := hb.kind
        rw [h.kind_zero] at this
        cases this
      · have := hb.kind
        rw [hs.kind_zero] at this
        cases this
    refine hr.other b hb0 fun hm => ?_
    rcases hb with hb | hb
    · -- pending and published chains belong to distinct segments
      obtain ⟨d, hd, hin⟩ := hr.old b hm
      have hdist := h.distinct
      rw [GroupState.chains, List.map_append, List.nodup_append] at hdist
      exact hdist.2.2 d.id (List.mem_map.2 ⟨d, hd, rfl⟩) c.id (List.mem_map.2 ⟨c, hc, rfl⟩)
        (hin.unique hb)
    · have := hb.kind
      rw [hr.freed b hm] at this
      cases this

/-- When no chain is left pending, every page of the pending chains was freed. -/
theorem Dismantled.all (h : Segmented s m) (hr : Dismantled s s' m g bs) (hg : g.pending = [])
    (b : ℕ) :
    b ∈ bs ↔ ∃ c ∈ m.grouped.pending, s.InSegment c.id b := by
  refine ⟨hr.old b, ?_⟩
  rintro ⟨c, hc, hin⟩
  by_contra hb
  obtain ⟨free, hs⟩ := hr.segmented
  have hb0 : b ≠ 0 := h.ne_zero (by rw [hin.kind]; decide)
  have hin' := (Store.inSegment_congr (hr.other b hb0 hb)).2 hin
  obtain ⟨x, hx, hid⟩ := hin'
  obtain ⟨d, hd, hd'⟩ := hs.covered b x hx
  change d ∈ g.chains at hd
  have hpub : d ∈ m.grouped.published := by
    rw [GroupState.chains, hg, List.nil_append, GroupState.published, hr.published.1,
      hr.published.2] at hd
    exact hd
  have hdist := h.distinct
  rw [GroupState.chains, List.map_append, List.nodup_append] at hdist
  exact hdist.2.2 c.id (List.mem_map.2 ⟨c, hc, rfl⟩) d.id (List.mem_map.2 ⟨d, hpub, rfl⟩)
    (hid.symm.trans hd'.symm)

end

end PinCore
