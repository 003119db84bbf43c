import PinCore.Grouped.Tree

/-!
# Starting and publishing a segment

`begin` reclaims what is pending and reserves the identifier of a new segment.  `publish` makes the
finished segment the only published one, `publishDelta` puts it behind the published ones or in the
place of the last deltas.  Either is one commit of the metapage, after which the replaced segments
are reclaimed.
-/

namespace PinCore

open Prog

namespace Grouped

/-! ### The operations -/

/-- Starts a segment: the journal names the empty chain of a new identifier. -/
def begin (after : Option OwnerRef) : Wr GroupSnapshot := do
  let _ ← recover
  let info ← Prog.reading (load 0 .info)
  let state ← Prog.ofExcept info.groupedState
  let (id, info) ← Prog.ofExcept info.reserveIncarnation
  let info ← Prog.ofExcept (info.setGroupedState
    { state with journal := some ⟨id, noBlock, noBlock, .building⟩ })
  commit [info]
  return ⟨id, noBlock, noBlock, noBlock, after, none, false⟩

/-- Every root is a catalog node of the segment. -/
def verifyRoots (id : ℕ) : List ℕ → Rd PUnit
  | [] => return ⟨⟩
  | root :: roots => do
    if root ≠ noBlock then
      let p ← load root .grouped
      let i ← Obs.ofExcept (groupId p)
      Obs.ensure (i = id) .invalidState
      let _ ← Obs.ofExcept (groupNode p)
      verifyRoots id roots
    else verifyRoots id roots

/-- Checks a finished segment against the journal; returns the number of its pages. -/
def verifyBuild (state : GroupState) (x : GroupSnapshot) : Rd ℕ := do
  Obs.ensure (x.frontierRoot = none → x.root = x.tail) .invalidState
  let written ← inspect x.id x.head x.tail
  verifyRoots x.id (x.root :: x.frontierRoot.toList)
  match state.journal with
  | none => Obs.fail .invalidState
  | some j =>
    Obs.ensure (j.id = x.id ∧ j.phase = .building ∧ j.head = x.head ∧ j.tail = x.tail) .invalidState
    return written

/-- The chains of the snapshots that have pages. -/
def retiredOf (xs : List GroupSnapshot) : List GroupRetired :=
  (xs.filter fun x => decide (x.head ≠ noBlock)).map GroupSnapshot.chain

/-- The state with the finished segment alone; the published ones are retired. -/
def replaced (state : GroupState) (x : GroupSnapshot) : GroupState :=
  ⟨some x, none, [], retiredOf (state.active.toList ++ state.deltas.map (·.snapshot))⟩

/-- Publishes the finished segment in place of everything published. -/
def publish (x : GroupSnapshot) : Wr (ℕ × ℕ) := do
  let info ← Prog.reading (load 0 .info)
  let state ← Prog.ofExcept info.groupedState
  let written ← Prog.reading (verifyBuild state x)
  Prog.ensure (state.retired = []) .invalidState
  Prog.ensure ((replaced state x).retired.length ≤ 17) (.limit "group retire queue")
  let info ← Prog.ofExcept (info.setGroupedState (replaced state x))
  commit [info]
  let reclaimed ← recover
  return (reclaimed, written)

/-- The state with the finished segment behind the first `replaceFrom` deltas; the other deltas are
retired. -/
def sealedBehind (state : GroupState) (x : GroupSnapshot) (before : Option OwnerRef) (level : ℕ)
    (replaceFrom : ℕ) : GroupState :=
  ⟨state.active, none, state.deltas.take replaceFrom ++ [⟨x, before, level⟩],
    retiredOf ((state.deltas.drop replaceFrom).map (·.snapshot))⟩

/-- Publishes the finished segment as a delta from `before` on.  With all sixteen deltas kept the
code would index past its array. -/
def publishDelta (x : GroupSnapshot) (before : Option OwnerRef) (level : ℕ) (replaceFrom : ℕ) :
    Wr (ℕ × ℕ) := do
  Prog.ensure (x.frontierRoot = none ∧ x.frontierValid = false ∧ level < 16) .invalidState
  let info ← Prog.reading (load 0 .info)
  let state ← Prog.ofExcept info.groupedState
  let written ← Prog.reading (verifyBuild state x)
  Prog.ensure (state.active ≠ none ∧ state.retired = [] ∧ replaceFrom ≤ state.deltas.length ∧
    (replaceFrom = state.deltas.length → state.latest.bind (·.after) = before) ∧
    (replaceFrom < state.deltas.length → ∃ d ∈ state.deltas[replaceFrom]?, d.before = before))
    .invalidState
  let info ← Prog.ofExcept (info.setGroupedState (sealedBehind state x before level replaceFrom))
  commit [info]
  let reclaimed ← recover
  return (reclaimed, written)

end Grouped

/-! ### Changing the named chains -/

section

variable {E : Error → Prop} {s s' : Store} {m m' : MetaBody} {c : GroupRetired} {g : GroupState}
  {x : GroupSnapshot} {b n : ℕ}

theorem GroupState.idsBelow_iff : g.IdsBelow n ↔ ∀ c ∈ g.chains, c.id < n := by
  simp only [GroupState.IdsBelow, GroupState.chains, GroupState.pending, GroupState.published,
    List.mem_append, List.mem_map, Option.mem_toList, Option.mem_def, Option.map_eq_some_iff]
  constructor
  · rintro ⟨h₁, h₂, h₃, h₄⟩ c ((⟨j, hj, rfl⟩ | hr) | ⟨x, hx, rfl⟩ | ⟨d, hd, rfl⟩)
    · exact h₃ j hj
    · exact h₄ c hr
    · exact h₁ x hx
    · exact h₂ d hd
  · intro h
    exact ⟨fun x hx => h _ (.inr (.inl ⟨x, hx, rfl⟩)), fun d hd => h _ (.inr (.inr ⟨d, hd, rfl⟩)),
      fun j hj => h _ (.inl (.inl ⟨j, hj, rfl⟩)), fun r hr => h r (.inl (.inr hr))⟩

/-- A commit of the metapage that names chains of the pages there are. -/
theorem Segmented.rename (h : Segmented s m) (hm : m'.Ok s.layout)
    (hfree : m'.freeHead = m.freeHead)
    (hdist : (m'.grouped.chains.map (·.id)).Nodup)
    (hchain : ∀ c ∈ m'.grouped.chains, ∃ bs, SegmentOk s c bs)
    (hcov : ∀ b g, s.body b = .grouped g → ∃ c ∈ m'.grouped.chains, c.id = g.id)
    (hfields : m'.canonical = m.canonical) (hinc : m.incarnation ≤ m'.incarnation) :
    CommitOk s [metaPage m'] ∧ ∀ s', Committed s s' [metaPage m'] →
      Beside s s' m m' ∧ ∀ b, b ≠ 0 → s'.page b = s.page b := by
  have hcommit : CommitOk s [metaPage m'] := commitOk_one (metaPage_valid hm) (by simp) h.pages.pos
  refine ⟨hcommit, fun s' hcm => ?_⟩
  have hkind : (s.body (metaPage m').block).kind = .info := h.kind_zero
  have hsame : Same (· = .grouped) s s' := hcm.same_one hkind ⟨by decide, by simp⟩
  have hfree' : Same (· = .free) s s' := hcm.same_one hkind ⟨by decide, by simp⟩
  have hcan : Same PageKind.IsCanonical s s' := hcm.same_one hkind ⟨by decide, by simp; decide⟩
  refine ⟨⟨⟨hcm.pages h.pages hcommit, hcm.one.1, ?_,
    hdist, fun c hc => ?_, fun b g hb => ?_⟩, hcan,
    hfields, hinc, Nat.le_of_eq hcm.blocks.symm⟩, hcm.one.2⟩
  · rw [hfree]
    exact h.free.same hfree'
  · obtain ⟨bs, hbs⟩ := hchain c hc
    exact ⟨bs, hbs.congr fun b hb =>
      hsame.page b (hb.imp Store.InSegment.kind Store.InSegment.kind)⟩
  · rw [hsame.body (.inr (by rw [hb]; rfl))] at hb
    exact hcov b g hb

theorem GroupState.latest_mem (h : x ∈ g.latest) : x.chain ∈ g.published := by
  rw [GroupState.published, List.mem_append]
  rcases hd : g.deltas.getLast? with _ | d
  · rw [GroupState.latest, hd] at h
    exact .inl (Option.mem_toList.2 (Option.mem_map_of_mem _ h))
  · rw [GroupState.latest, hd] at h
    cases h
    exact .inr (List.mem_map.2 ⟨d, List.mem_of_getLast? hd, rfl⟩)

/-- The state with the journal of a new segment. -/
def GroupState.start (g : GroupState) (id : ℕ) : GroupState :=
  { g with journal := some ⟨id, noBlock, noBlock, .building⟩ }

/-- The metapage fields after a segment was started. -/
def MetaBody.started (m : MetaBody) : MetaBody :=
  { m with incarnation := m.incarnation + 1, grouped := m.grouped.start m.incarnation }

theorem GroupState.Ok.start (h : g.Ok) (hr : g.retired = []) (hn : ∀ c ∈ g.published, c.id < n) :
    (g.start n).Ok where
  active := h.active
  deltaCount := h.deltaCount
  deltasNeedActive := h.deltasNeedActive
  deltas := h.deltas
  journalPair := by
    rintro _ ⟨⟩
    exact .inl ⟨rfl, rfl⟩
  building := by
    rintro _ ⟨⟩ - y hy
    exact hn _ (GroupState.latest_mem hy)
  retiring := by rintro _ ⟨⟩ ⟨⟩
  retiredCount := h.retiredCount
  retired r hm := by
    change r ∈ g.retired at hm
    rw [hr] at hm
    cases hm

/-- A segment without pages, whose identifier no named chain has. -/
theorem Segmented.empty_chain (h : Segmented s m) (hn : ∀ c ∈ m.grouped.chains, c.id < n) :
    SegmentOk s ⟨n, noBlock, noBlock⟩ [] := by
  refine ⟨rfl, rfl, fun b => iff_of_false List.not_mem_nil ?_⟩
  rintro ⟨y, hy, rfl⟩
  obtain ⟨c, hc, hid⟩ := h.covered b y hy
  exact Nat.ne_of_lt (hn c hc) hid

namespace Grouped

/-! ### Starting -/

/-- A segment was started: the journal names its empty chain, and no other chain is pending. -/
structure Started (s s' : Store) (after : Option OwnerRef) (x : GroupSnapshot) (m m' : MetaBody) :
    Prop where
  appending : Appending s' x m'
  snapshot : x = ⟨m.incarnation, noBlock, noBlock, noBlock, after, none, false⟩
  beside : Beside s s' m m'
  retains : Retains s s' m m'
  retired : m'.grouped.retired = []
  incarnation : m'.incarnation = m.incarnation + 1
  below : m.incarnation + 1 < incarnationLimit
  blocks : s'.blocks = s.blocks

theorem begin_spec {after : Option OwnerRef} (h : Segmented s m)
    (hfull : incarnationLimit ≤ m.incarnation + 1 → E (.limit "incarnation space")) :
    Spec E (fun s' => ∃ m', Beside s s' m m' ∧ Retains s s' m m') s (begin after) fun x s' =>
      ∃ m', Started s s' after x m m' := by
  refine ((recover_spec h).mono ?_ fun _ _ => id).bind ?_
  · rintro s' ⟨g, bs, hr⟩
    obtain ⟨free, hb, hret⟩ := hr.beside h
    exact ⟨_, hb, hret⟩
  rintro k s₁ ⟨bs, hr, -⟩
  obtain ⟨free, hb, hret⟩ := hr.beside h
  generalize hg₁ : ({ m.grouped with journal := none, retired := [] } : GroupState) = g₁ at hb hret
  have hret₁ : g₁.retired = [] := by rw [← hg₁]
  have hpub : g₁.chains = g₁.published := by
    rw [← hg₁]
    rfl
  have hseg := hb.segmented
  have hm₁ := hseg.metaOk
  refine Spec.reading_bind hseg.loadInfo ?_
  rintro _ rfl
  refine Spec.ofExcept_bind (metaPage_groupedState hm₁) ?_
  rw [metaPage_reserve hm₁]
  by_cases hlim : incarnationLimit ≤ (m.regroup g₁ free).incarnation + 1
  · rw [if_pos hlim]
    exact ⟨fun _ hs => absurd hs List.not_mem_nil, hfull hlim⟩
  rw [if_neg hlim]
  refine Spec.ofExcept_bind (a := (m.incarnation, _)) rfl ?_
  have hids : ∀ c ∈ g₁.published, c.id < m.incarnation := by
    rw [← hpub]
    exact GroupState.idsBelow_iff.1 hm₁.ids
  -- the identifier of the new segment is the incarnation that was free
  have hok := hm₁.grouped.start hret₁ hids
  have hchains : (g₁.start m.incarnation).chains =
      ⟨m.incarnation, noBlock, noBlock⟩ :: g₁.published := by
    rw [GroupState.chains, GroupState.pending]
    change _ :: (g₁.retired ++ _) = _
    rw [hret₁]
    rfl
  have hbelow : (g₁.start m.incarnation).IdsBelow (m.incarnation + 1) := by
    rw [GroupState.idsBelow_iff, hchains]
    intro c hc
    rcases List.mem_cons.1 hc with rfl | hc
    · exact Nat.lt_succ_self _
    · exact Nat.lt_succ_of_lt (hids c hc)
  have hrefs : (g₁.start m.incarnation).OwnersValid := hm₁.refs.congr rfl rfl
  refine Spec.ofExcept_bind (metaPage_setGroupedState hok hbelow hrefs) ?_
  have hdist : ((g₁.start m.incarnation).chains.map (·.id)).Nodup := by
    rw [hchains, List.map_cons, List.nodup_cons]
    refine ⟨fun hm => ?_, ?_⟩
    · obtain ⟨c, hc, hid⟩ := List.mem_map.1 hm
      exact Nat.ne_of_lt (hids c hc) hid
    · have := hseg.distinct
      rwa [show (m.regroup g₁ free).grouped.chains = g₁.published from hpub] at this
  have hchain : ∀ c ∈ (g₁.start m.incarnation).chains, ∃ bs, SegmentOk s₁ c bs := by
    intro c hc
    rw [hchains] at hc
    rcases List.mem_cons.1 hc with rfl | hc
    · exact ⟨[], hseg.empty_chain fun c hc => hids c (hpub ▸ hc)⟩
    · exact hseg.chain c (hpub ▸ hc)
  have hcov : ∀ b g, s₁.body b = .grouped g → ∃ c ∈ (g₁.start m.incarnation).chains,
      c.id = g.id := by
    intro b g hb
    obtain ⟨c, hc, hid⟩ := hseg.covered b g hb
    refine ⟨c, ?_, hid⟩
    rw [hchains]
    exact List.mem_cons_of_mem _ (hpub ▸ hc)
  have hmeta : (m.regroup g₁ free).started.Ok s₁.layout :=
    ⟨hm₁.maxOffset, Nat.succ_ne_zero _, hm₁.owners, hm₁.free, hm₁.journal, hok, hbelow, hrefs,
      hm₁.bucket⟩
  obtain ⟨hcommit, hafter⟩ := hseg.rename hmeta rfl hdist hchain hcov rfl (Nat.le_succ _)
  have hboth : ∀ s', Committed s₁ s' [metaPage (m.regroup g₁ free).started] →
      Beside s s' m (m.regroup g₁ free).started ∧ Retains s s' m (m.regroup g₁ free).started := by
    intro s' hcm
    obtain ⟨hb', hpage⟩ := hafter s' hcm
    refine ⟨hb.trans hb', hret.trans ⟨rfl, rfl, fun c hc b hb => hpage b ?_⟩⟩
    rcases hb with hb | hb
    · exact hseg.ne_zero (by rw [hb.kind]; decide)
    · exact hb'.segmented.ne_zero (by rw [hb.kind]; decide)
  refine (commit_spec hcommit fun s' hcm => ⟨_, hboth s' hcm⟩).bind ?_
  intro _ s' hcm
  obtain ⟨hb', hret'⟩ := hboth s' hcm
  exact Spec.pure ⟨_, ⟨⟨hb'.segmented, rfl, h.metaOk.incarnation⟩, rfl, hb', hret', hret₁, rfl,
    Nat.lt_of_not_le hlim, hcm.blocks.trans hr.blocks⟩⟩

/-! ### Switching -/

/-- The store publishes what `g` publishes, with every page of it as it was. -/
structure Published (s s' : Store) (m : MetaBody) (g : GroupState) (m' : MetaBody) : Prop where
  beside : Beside s s' m m'
  active : m'.grouped.active = g.active
  deltas : m'.grouped.deltas = g.deltas
  page : ∀ c ∈ g.published, ∀ b, s.InSegment c.id b ∨ s'.InSegment c.id b → s'.page b = s.page b
  blocks : s'.blocks = s.blocks

/-- The segments retired by `g` were freed: nothing is pending. -/
structure Replaced (s s' : Store) (m : MetaBody) (g : GroupState) (m' : MetaBody) (k : ℕ) :
    Prop where
  published : Published s s' m g m'
  pending : m'.grouped.pending = []
  freed : ∃ bs : List ℕ, bs.Nodup ∧ k = bs.length ∧ (∀ b ∈ bs, (s'.body b).kind = .free) ∧
    ∀ b, b ∈ bs ↔ ∃ c ∈ g.retired, s.InSegment c.id b

theorem Segmented.not_zero (h : Segmented s m) (h' : Segmented s' m') {i : ℕ}
    (hb : s.InSegment i b ∨ s'.InSegment i b) : b ≠ 0 := by
  rcases hb with hb | hb
  · exact h.ne_zero (by rw [hb.kind]; decide)
  · exact h'.ne_zero (by rw [hb.kind]; decide)

/-- One commit names other chains, then recovery frees the retired ones: every durable state
publishes what `g` publishes. -/
theorem switch_spec {α : Type} {f : ℕ → Wr α} {R : α → Store → Prop} (h : Segmented s m)
    (hok : g.Ok) (hrefs : g.OwnersValid) (hj : g.journal = none)
    (hdist : (g.chains.map (·.id)).Nodup)
    (hsub : ∀ c ∈ g.chains, c ∈ m.grouped.chains)
    (hall : ∀ c ∈ m.grouped.chains, c.head ≠ noBlock → c ∈ g.chains)
    (hf : ∀ k s' m', Replaced s s' m g m' k →
      Spec E (fun s' => ∃ m', Published s s' m g m') s' (f k) R) :
    Spec E (fun s' => ∃ m', Published s s' m g m') s (do
      commit [metaPage { m with grouped := g }]
      let k ← recover
      f k) R := by
  have hm := h.metaOk
  have hids : g.IdsBelow m.incarnation :=
    GroupState.idsBelow_iff.2 fun c hc => GroupState.idsBelow_iff.1 hm.ids c (hsub c hc)
  have hcov : ∀ b y, s.body b = .grouped y → ∃ c ∈ g.chains, c.id = y.id := by
    intro b y hb
    obtain ⟨c, hc, hid⟩ := h.covered b y hb
    refine ⟨c, hall c hc fun hn => ?_, hid⟩
    -- a chain without a head has no pages
    obtain ⟨bs, hbs⟩ := h.chain c hc
    have hmem := (hbs.mem_iff b).2 ⟨y, hb, hid.symm⟩
    have hhead := hbs.head_eq
    obtain ⟨d, ds, rfl⟩ := List.exists_cons_of_ne_nil (List.ne_nil_of_mem hmem)
    have hd := (hbs.mem_iff d).1 List.mem_cons_self
    exact (h.blockValid hd).2 (by rw [← hn, hhead]; rfl)
  have hmeta : ({ m with grouped := g } : MetaBody).Ok s.layout :=
    ⟨hm.maxOffset, hm.incarnation, hm.owners, hm.free, hm.journal, hok, hids, hrefs, hm.bucket⟩
  obtain ⟨hcommit, hafter⟩ := h.rename hmeta rfl hdist (fun c hc => h.chain c (hsub c hc)) hcov rfl
    (Nat.le_refl _)
  have hpub : ∀ s₁ s', Committed s s₁ [metaPage { m with grouped := g }] → ∀ g' bs,
      Dismantled s₁ s' { m with grouped := g } g' bs →
      ∃ free, Published s s' m g (MetaBody.regroup { m with grouped := g } g' free) := by
    intro s₁ s' hcm g' bs hr
    obtain ⟨hb₁, hpage⟩ := hafter s₁ hcm
    obtain ⟨free, hb, hret⟩ := hr.beside hb₁.segmented
    refine ⟨free, ⟨hb₁.trans hb, hr.published.1, hr.published.2, fun c hc b hb' => ?_,
      hr.blocks.trans hcm.blocks⟩⟩
    have h0 := Segmented.not_zero h hb.segmented hb'
    have hin : s₁.InSegment c.id b ∨ s'.InSegment c.id b :=
      hb'.imp (Store.inSegment_congr (hpage b h0)).2 id
    exact (hret.page c hc b hin).trans (hpage b h0)
  refine (commit_spec hcommit fun s₁ hcm => ?_).bind ?_
  · obtain ⟨free, hp⟩ := hpub s₁ s₁ hcm g [] (hafter s₁ hcm).1.segmented.dismantled_nil
    exact ⟨_, hp⟩
  · intro _ s₁ hcm
    have hs₁ := (hafter s₁ hcm).1.segmented
    refine ((recover_spec hs₁).mono ?_ fun _ _ => id).bind ?_
    · rintro s' ⟨g', bs, hr⟩
      obtain ⟨free, hp⟩ := hpub s₁ s' hcm g' bs hr
      exact ⟨_, hp⟩
    · rintro k s' ⟨bs, hr, rfl⟩
      obtain ⟨free, hp⟩ := hpub s₁ s' hcm _ bs hr
      refine hf _ _ _ ⟨hp, rfl, bs, hr.nodup, rfl, hr.freed, fun b => ?_⟩
      rw [hr.all hs₁ rfl b]
      have hpend : ({ m with grouped := g } : MetaBody).grouped.pending = g.retired := by
        rw [GroupState.pending, hj]
        rfl
      rw [hpend]
      refine exists_congr fun c => and_congr_right fun _ => ⟨fun hin => ?_, fun hin => ?_⟩
      · exact (Store.inSegment_congr ((hafter s₁ hcm).2 b
          (Segmented.not_zero h hs₁ (.inr hin)))).1 hin
      · exact (Store.inSegment_congr ((hafter s₁ hcm).2 b
          (Segmented.not_zero h hs₁ (.inl hin)))).2 hin

/-! ### Publishing -/

/-- Every root that the snapshot names is a catalog node of its segment. -/
def RootsOk (s : Store) (x : GroupSnapshot) : Prop :=
  ∀ r ∈ x.root :: x.frontierRoot.toList, r ≠ noBlock →
    ∃ level es, s.body r = .grouped (.node x.id level es)

theorem verifyRoots_returns {id : ℕ} {roots : List ℕ} (hp : PagesOk s)
    (h : ∀ r ∈ roots, r ≠ noBlock → ∃ level es, s.body r = .grouped (.node id level es)) :
    Obs.Returns s (verifyRoots id roots) fun _ => True := by
  induction roots with
  | nil => exact Obs.Returns.pure trivial
  | cons root roots ih =>
    have ih := ih fun r hr => h r (List.mem_cons_of_mem _ hr)
    unfold verifyRoots
    by_cases hne : root = noBlock
    · rw [if_neg (not_not.2 hne)]
      exact ih
    · rw [if_pos hne]
      obtain ⟨level, es, hn⟩ := h root List.mem_cons_self hne
      refine (load_returns hp (by rw [hn]; rfl) (by simp)).bind ?_
      rintro _ rfl
      have hin : s.InSegment id root := ⟨_, hn, rfl⟩
      have hok := hp.ok root
      rw [hn] at hok
      refine Obs.Returns.ofExcept_bind (groupId_eq hin) (Obs.Returns.ensure_bind rfl ?_)
      exact Obs.Returns.ofExcept_bind (groupNode_of_ok hok hn) ih

/-- A finished segment passes the checks; what is counted are its pages. -/
theorem verifyBuild_returns {bs : List ℕ} (h : Appending s x m) (hc : SegmentOk s x.chain bs)
    (hx : x.Ok true) (hroots : RootsOk s x) :
    Obs.Returns s (verifyBuild m.grouped x) (· = bs.length) := by
  refine Obs.Returns.ensure_bind hx.2.2.2.1 ?_
  refine (inspect_returns h.segmented hc).bind ?_
  rintro _ rfl
  refine (verifyRoots_returns h.segmented.pages hroots).bind fun _ _ => ?_
  rw [h.journal]
  exact Obs.Returns.ensure_bind ⟨rfl, rfl, rfl, rfl⟩ (Obs.Returns.pure rfl)

theorem mem_retiredOf {xs : List GroupSnapshot} :
    c ∈ retiredOf xs ↔ c ∈ xs.map GroupSnapshot.chain ∧ c.head ≠ noBlock := by
  simp only [retiredOf, List.mem_map, List.mem_filter, decide_eq_true_eq]
  constructor
  · rintro ⟨y, ⟨hy, hh⟩, rfl⟩
    exact ⟨⟨y, hy, rfl⟩, hh⟩
  · rintro ⟨⟨y, hy, rfl⟩, hh⟩
    exact ⟨y, ⟨hy, hh⟩, rfl⟩

theorem retiredOf_sublist (xs : List GroupSnapshot) :
    (retiredOf xs).Sublist (xs.map GroupSnapshot.chain) := List.filter_sublist.map _

theorem chainOk_mem {after : Option OwnerRef} {id : ℕ} {level : Option ℕ} {ds : List GroupDelta}
    {d : GroupDelta} (h : GroupDelta.ChainOk after id level ds) (hd : d ∈ ds) :
    d.snapshot.Ok false := by
  induction ds generalizing after id level with
  | nil => exact absurd hd List.not_mem_nil
  | cons e ds ih =>
    rcases List.mem_cons.1 hd with rfl | hd
    · exact h.1
    · exact ih h.2.2.2.2.2.2.2.2.2 hd

/-- The chains of published snapshots are valid pairs. -/
theorem published_pair (hg : g.Ok) (hc : c ∈ g.published) : postingPairValid c.head c.tail := by
  rw [GroupState.published, List.mem_append, Option.mem_toList] at hc
  rcases hc with hc | hc
  · obtain ⟨y, hy, rfl⟩ := Option.map_eq_some_iff.1 hc
    exact (hg.active y hy).1
  · obtain ⟨d, hd, rfl⟩ := List.mem_map.1 hc
    cases ha : g.active with
    | none =>
      rw [hg.deltasNeedActive ha] at hd
      exact absurd hd List.not_mem_nil
    | some y => exact (chainOk_mem (hg.deltas y ha) hd).1

theorem published_eq (g : GroupState) :
    g.published = (g.active.toList ++ g.deltas.map (·.snapshot)).map GroupSnapshot.chain := by
  rw [GroupState.published, List.map_append, List.map_map, Option.toList_map]
  rfl

/-- While a segment is built and nothing is retired, the named chains are its chain and the
published ones. -/
theorem Appending.chains_eq (h : Appending s x m) (hr : m.grouped.retired = []) :
    m.grouped.chains = x.chain :: m.grouped.published := by
  rw [GroupState.chains, GroupState.pending, hr, h.journal]
  rfl

theorem Appending.retired_ok {xs : List GroupSnapshot} (h : Appending s x m)
    (hr : m.grouped.retired = []) (hxs : ∀ c ∈ xs.map GroupSnapshot.chain, c ∈ m.grouped.published)
    {r : GroupRetired} (hm : r ∈ retiredOf xs) :
    r.head ≠ noBlock ∧ postingPairValid r.head r.tail ∧ x.id ≠ r.id := by
  obtain ⟨hc, hh⟩ := mem_retiredOf.1 hm
  refine ⟨hh, published_pair h.segmented.metaOk.grouped (hxs r hc), fun he => ?_⟩
  have hdist := h.segmented.distinct
  rw [h.chains_eq hr, List.map_cons, List.nodup_cons] at hdist
  exact hdist.1 (List.mem_map.2 ⟨r, hxs r hc, he.symm⟩)

theorem Appending.replaced_ok (h : Appending s x m) (hr : m.grouped.retired = []) (hx : x.Ok true) :
    (replaced m.grouped x).Ok where
  active := by
    rintro _ ⟨⟩
    exact hx
  deltaCount := Nat.zero_le _
  deltasNeedActive := by rintro ⟨⟩
  deltas _ _ := trivial
  journalPair := by rintro _ ⟨⟩
  building := by rintro _ ⟨⟩
  retiring := by rintro _ ⟨⟩
  retiredCount := by
    have hlen := (retiredOf_sublist (m.grouped.active.toList ++
      m.grouped.deltas.map (·.snapshot))).length_le
    have hd := h.segmented.metaOk.grouped.deltaCount
    have ha : m.grouped.active.toList.length ≤ 1 := by
      cases m.grouped.active <;> simp
    rw [List.length_map, List.length_append, List.length_map] at hlen
    change (retiredOf _).length ≤ 17
    omega
  retired r hm := by
    obtain ⟨h₁, h₂, h₃⟩ := h.retired_ok hr (fun c hc => by rwa [published_eq]) hm
    refine ⟨h₁, h₂, ?_, fun d hd => absurd hd List.not_mem_nil, by rintro _ ⟨⟩⟩
    rintro _ ⟨⟩
    exact h₃

theorem replaced_owners (h : ∀ o ∈ x.after, o.Valid) : (replaced g x).OwnersValid := by
  refine ⟨?_, fun d hd => absurd hd List.not_mem_nil⟩
  rintro _ ⟨⟩
  exact h

/-- The commit that publishes a finished segment alone. -/
theorem Appending.switch_replaced {α : Type} {f : ℕ → Wr α} {R : α → Store → Prop}
    (h : Appending s x m) (hr : m.grouped.retired = []) (hok : (replaced m.grouped x).Ok)
    (howner : ¬ (replaced m.grouped x).OwnersValid → E .codec)
    (hf : ∀ k s' m', Replaced s s' m (replaced m.grouped x) m' k →
      Spec E (fun s' => ∃ m', Published s s' m (replaced m.grouped x) m') s' (f k) R) :
    Spec E (fun s' => ∃ m', Published s s' m (replaced m.grouped x) m') s (do
      let info ← Prog.ofExcept ((metaPage m).setGroupedState (replaced m.grouped x))
      commit [info]
      let k ← recover
      f k) R := by
  have hchains : (replaced m.grouped x).chains = (replaced m.grouped x).retired ++ [x.chain] := rfl
  have hall := h.chains_eq hr
  have hsub := retiredOf_sublist (m.grouped.active.toList ++ m.grouped.deltas.map (·.snapshot))
  rw [← published_eq] at hsub
  have hmem : ∀ c ∈ (replaced m.grouped x).chains, c ∈ m.grouped.chains := by
    intro c hc
    rw [hchains, List.mem_append, List.mem_singleton] at hc
    rw [hall]
    rcases hc with hc | rfl
    · exact List.mem_cons_of_mem _ (hsub.subset hc)
    · exact List.mem_cons_self
  have hids : (replaced m.grouped x).IdsBelow m.incarnation :=
    GroupState.idsBelow_iff.2 fun c hc =>
      GroupState.idsBelow_iff.1 h.segmented.metaOk.ids c (hmem c hc)
  by_cases hrefs : (replaced m.grouped x).OwnersValid
  case neg =>
    rw [metaPage_setGroupedState_refuses hok hids hrefs]
    exact Spec.fail (howner hrefs)
  refine Spec.ofExcept_bind (metaPage_setGroupedState hok hids hrefs) ?_
  have hdist : ((replaced m.grouped x).chains.map (·.id)).Nodup := by
    have := h.segmented.distinct
    rw [hall, List.map_cons, List.nodup_cons] at this
    rw [hchains, List.map_append, List.map_singleton]
    refine List.nodup_append.2 ⟨this.2.sublist (hsub.map _), List.nodup_singleton _, ?_⟩
    intro i hi j hj hij
    rw [List.mem_singleton.1 hj] at hij
    exact this.1 (hij ▸ (hsub.map _).subset hi)
  refine switch_spec h.segmented hok hrefs rfl hdist hmem (fun c hc hh => ?_) hf
  rw [hall] at hc
  rw [hchains, List.mem_append, List.mem_singleton]
  rcases List.mem_cons.1 hc with rfl | hc
  · exact .inr rfl
  · refine .inl (mem_retiredOf.2 ⟨?_, hh⟩)
    rwa [← published_eq]

/-- Publishing a finished segment: every durable state publishes it alone, and in the end the pages
of the segments that were published before are free. -/
theorem publish_spec {bs : List ℕ} (h : Appending s x m) (hr : m.grouped.retired = [])
    (hc : SegmentOk s x.chain bs) (hx : x.Ok true) (hroots : RootsOk s x)
    (howner : ¬ (∀ o ∈ x.after, o.Valid) → E .codec) :
    Spec E (fun s' => ∃ m', Published s s' m (replaced m.grouped x) m') s (publish x) fun k s' =>
      ∃ m', Replaced s s' m (replaced m.grouped x) m' k.1 ∧ k.2 = bs.length := by
  have hok := h.replaced_ok hr hx
  refine Spec.reading_bind h.segmented.loadInfo ?_
  rintro _ rfl
  refine Spec.ofExcept_bind (metaPage_groupedState h.segmented.metaOk) ?_
  refine Spec.reading_bind (verifyBuild_returns h hc hx hroots) ?_
  rintro _ rfl
  refine Spec.ensure_bind hr (Spec.ensure_bind hok.retiredCount ?_)
  exact h.switch_replaced hr hok (fun hn => howner fun ho => hn (replaced_owners ho))
    fun k s' m' hrep => Spec.pure ⟨m', hrep, rfl⟩

/-! ### Publishing a delta -/

/-- Where a chain of deltas that starts behind `after`, `id` and `level` ends. -/
def endOf : Option OwnerRef × ℕ × Option ℕ → List GroupDelta → Option OwnerRef × ℕ × Option ℕ
  | e, [] => e
  | _, d :: ds => endOf (d.snapshot.after, d.snapshot.id, some d.level) ds

/-- The deltas continue a chain that ends with `e`. -/
def Continues (e : Option OwnerRef × ℕ × Option ℕ) (ds : List GroupDelta) : Prop :=
  GroupDelta.ChainOk e.1 e.2.1 e.2.2 ds

theorem continues_append {e : Option OwnerRef × ℕ × Option ℕ} {ds ds' : List GroupDelta} :
    Continues e (ds ++ ds') ↔ Continues e ds ∧ Continues (endOf e ds) ds' := by
  induction ds generalizing e with
  | nil => exact (and_iff_right trivial).symm
  | cons d ds ih =>
    have := ih (e := (d.snapshot.after, d.snapshot.id, some d.level))
    simp only [Continues, List.cons_append, GroupDelta.ChainOk, endOf] at this ⊢
    rw [this]
    tauto

theorem latest_after {a : GroupSnapshot} (ha : g.active = some a) :
    g.latest.bind (·.after) = (endOf (a.after, a.id, none) g.deltas).1 := by
  have hend : ∀ (ds : List GroupDelta) e, (endOf e ds).1 =
      ((ds.getLast?.map fun d => d.snapshot.after).getD e.1) := by
    intro ds
    induction ds with
    | nil => exact fun _ => rfl
    | cons d ds ih =>
      intro e
      rw [endOf, ih, List.getLast?_cons]
      cases ds.getLast? <;> rfl
  rw [hend, GroupState.latest, ha]
  cases g.deltas.getLast? <;> rfl

section

variable {a : GroupSnapshot} {before : Option OwnerRef} {level r : ℕ}

theorem sealedBehind_published (ha : m.grouped.active = some a) :
    (sealedBehind m.grouped x before level r).published =
      a.chain :: ((m.grouped.deltas.take r).map (fun d => d.snapshot.chain) ++ [x.chain]) := by
  rw [GroupState.published, sealedBehind, ha, List.map_append]
  rfl

theorem published_split (ha : m.grouped.active = some a) :
    m.grouped.published = a.chain :: ((m.grouped.deltas.take r).map (fun d => d.snapshot.chain) ++
      (m.grouped.deltas.drop r).map fun d => d.snapshot.chain) := by
  rw [GroupState.published, ha, ← List.map_append, List.take_append_drop]
  rfl

/-- The chains that a delta leaves named are named before it is published. -/
theorem Appending.sealed_distinct (h : Appending s x m) (before : Option OwnerRef) (level r : ℕ)
    (hr : m.grouped.retired = [])
    (ha : m.grouped.active = some a) :
    ((sealedBehind m.grouped x before level r).chains.map (·.id)).Nodup := by
  have hdist := h.segmented.distinct
  rw [h.chains_eq hr, published_split (r := r) ha] at hdist
  have hsub : (sealedBehind m.grouped x before level r).retired.Sublist
      ((m.grouped.deltas.drop r).map fun d => d.snapshot.chain) := by
    have := retiredOf_sublist ((m.grouped.deltas.drop r).map (·.snapshot))
    rwa [List.map_map] at this
  rw [GroupState.chains, sealedBehind_published ha]
  change ((sealedBehind m.grouped x before level r).retired ++ _ |>.map _).Nodup
  have hperm : ((sealedBehind m.grouped x before level r).retired ++
      a.chain :: ((m.grouped.deltas.take r).map (fun d => d.snapshot.chain) ++ [x.chain])).Perm
      (x.chain :: a.chain :: ((m.grouped.deltas.take r).map (fun d => d.snapshot.chain) ++
        (sealedBehind m.grouped x before level r).retired)) := by
    refine List.perm_append_comm.trans ?_
    rw [List.cons_append, List.append_assoc]
    refine ((List.Perm.append_left _ List.perm_append_comm).cons _).trans ?_
    rw [← List.append_assoc]
    exact (List.perm_append_singleton _ _).cons _ |>.trans (List.Perm.swap _ _ _)
  rw [(hperm.map _).nodup_iff]
  refine hdist.sublist (List.Sublist.map _ ?_)
  exact ((List.Sublist.append_left hsub _).cons_cons _).cons_cons _

theorem Appending.sealedBehind_ok (h : Appending s x m) (hr : m.grouped.retired = [])
    (ha : m.grouped.active = some a) (hroom : r < 16)
    (hd : Continues (endOf (a.after, a.id, none) (m.grouped.deltas.take r)) [⟨x, before, level⟩]) :
    (sealedBehind m.grouped x before level r).Ok where
  active := h.segmented.metaOk.grouped.active
  deltaCount := by
    change (m.grouped.deltas.take r ++ [_]).length ≤ 16
    rw [List.length_append, List.length_take, List.length_singleton]
    omega
  deltasNeedActive hn := by
    change m.grouped.active = none at hn
    rw [ha] at hn
    cases hn
  deltas y hy := by
    change y ∈ m.grouped.active at hy
    rw [ha] at hy
    cases hy
    have hall := h.segmented.metaOk.grouped.deltas a ha
    rw [← List.take_append_drop r m.grouped.deltas] at hall
    exact continues_append.2 ⟨(continues_append (e := (a.after, a.id, none)).1 hall).1, hd⟩
  journalPair := by rintro _ ⟨⟩
  building := by rintro _ ⟨⟩
  retiring := by rintro _ ⟨⟩
  retiredCount := by
    have hlen := (retiredOf_sublist ((m.grouped.deltas.drop r).map (·.snapshot))).length_le
    have hcount := h.segmented.metaOk.grouped.deltaCount
    rw [List.length_map, List.length_map, List.length_drop] at hlen
    change (retiredOf _).length ≤ 17
    omega
  retired c hc := by
    have hdist := h.sealed_distinct before level r hr ha
    rw [GroupState.chains, List.map_append, List.nodup_append, sealedBehind_published ha] at hdist
    obtain ⟨-, -, hdist⟩ := hdist
    have hne : ∀ y ∈ a.chain :: ((m.grouped.deltas.take r).map (fun d => d.snapshot.chain) ++
        [x.chain]), y.id ≠ c.id := fun y hy he =>
      hdist c.id (List.mem_map.2 ⟨c, hc, rfl⟩) y.id (List.mem_map.2 ⟨y, hy, rfl⟩) he.symm
    have hsub : ∀ e ∈ ((m.grouped.deltas.drop r).map (·.snapshot)).map GroupSnapshot.chain,
        e ∈ m.grouped.published := by
      intro e he
      rw [published_split (r := r) ha]
      rw [List.map_map] at he
      exact List.mem_cons_of_mem _ (List.mem_append_right _ he)
    obtain ⟨h₁, h₂, -⟩ := h.retired_ok hr hsub hc
    refine ⟨h₁, h₂, fun y hy => ?_, fun d hd' => ?_, by rintro _ ⟨⟩⟩
    · change y ∈ m.grouped.active at hy
      rw [ha] at hy
      cases hy
      exact hne _ List.mem_cons_self
    · refine hne d.snapshot.chain (List.mem_cons_of_mem _ ?_)
      rcases List.mem_append.1 hd' with hd' | hd'
      · exact List.mem_append_left _ (List.mem_map.2 ⟨d, hd', rfl⟩)
      · rw [List.mem_singleton.1 hd']
        exact List.mem_append_right _ (List.mem_singleton_self _)

theorem endOf_owner {e : Option OwnerRef × ℕ × Option ℕ} {ds : List GroupDelta}
    (he : ∀ o ∈ e.1, o.Valid) (hds : ∀ d ∈ ds, ∀ o ∈ d.snapshot.after, o.Valid) :
    ∀ o ∈ (endOf e ds).1, o.Valid := by
  induction ds generalizing e with
  | nil => exact he
  | cons d ds ih =>
    exact ih (hds d List.mem_cons_self) fun f hf => hds f (List.mem_cons_of_mem _ hf)

/-- A delta that starts where the deltas before it end names no owner but its own last one. -/
theorem sealedBehind_owners (hg : g.OwnersValid) (ha : g.active = some a)
    (hbefore : before = (endOf (a.after, a.id, none) (g.deltas.take r)).1)
    (hx : ∀ o ∈ x.after, o.Valid) : (sealedBehind g x before level r).OwnersValid := by
  refine ⟨hg.1, fun d hd => ?_⟩
  rcases List.mem_append.1 hd with hd | hd
  · exact hg.2 d (List.mem_of_mem_take hd)
  · rw [List.mem_singleton.1 hd]
    refine ⟨hx, ?_⟩
    change ∀ o ∈ before, o.Valid
    rw [hbefore]
    exact endOf_owner (hg.1 a ha) fun d hd => (hg.2 d (List.mem_of_mem_take hd)).1

/-- The commit that publishes a finished segment as a delta. -/
theorem Appending.switch_sealed {α : Type} {f : ℕ → Wr α} {R : α → Store → Prop}
    (h : Appending s x m) (hr : m.grouped.retired = []) (ha : m.grouped.active = some a)
    (hok : (sealedBehind m.grouped x before level r).Ok)
    (howner : ¬ (sealedBehind m.grouped x before level r).OwnersValid → E .codec)
    (hf : ∀ k s' m', Replaced s s' m (sealedBehind m.grouped x before level r) m' k →
      Spec E (fun s' => ∃ m', Published s s' m (sealedBehind m.grouped x before level r) m') s'
        (f k) R) :
    Spec E (fun s' => ∃ m', Published s s' m (sealedBehind m.grouped x before level r) m') s (do
      let info ← Prog.ofExcept
        ((metaPage m).setGroupedState (sealedBehind m.grouped x before level r))
      commit [info]
      let k ← recover
      f k) R := by
  have hall := h.chains_eq hr
  have hdist := h.sealed_distinct before level r hr ha
  have hsub : ∀ c ∈ retiredOf ((m.grouped.deltas.drop r).map (·.snapshot)),
      c ∈ (m.grouped.deltas.drop r).map (fun d => d.snapshot.chain) ∧ c.head ≠ noBlock := by
    intro c hc
    have := mem_retiredOf.1 hc
    rwa [List.map_map] at this
  have hmem : ∀ c ∈ (sealedBehind m.grouped x before level r).chains, c ∈ m.grouped.chains := by
    intro c hc
    rw [GroupState.chains, sealedBehind_published ha] at hc
    rw [hall, published_split (r := r) ha]
    rcases List.mem_append.1 hc with hc | hc
    · exact List.mem_cons_of_mem _ (List.mem_cons_of_mem _ (List.mem_append_right _ (hsub c hc).1))
    · rcases List.mem_cons.1 hc with rfl | hc
      · exact List.mem_cons_of_mem _ List.mem_cons_self
      · rcases List.mem_append.1 hc with hc | hc
        · exact List.mem_cons_of_mem _ (List.mem_cons_of_mem _ (List.mem_append_left _ hc))
        · rw [List.mem_singleton.1 hc]
          exact List.mem_cons_self
  have hids : (sealedBehind m.grouped x before level r).IdsBelow m.incarnation :=
    GroupState.idsBelow_iff.2 fun c hc =>
      GroupState.idsBelow_iff.1 h.segmented.metaOk.ids c (hmem c hc)
  by_cases hrefs : (sealedBehind m.grouped x before level r).OwnersValid
  case neg =>
    rw [metaPage_setGroupedState_refuses hok hids hrefs]
    exact Spec.fail (howner hrefs)
  refine Spec.ofExcept_bind (metaPage_setGroupedState hok hids hrefs) ?_
  refine switch_spec h.segmented hok hrefs rfl hdist hmem (fun c hc hh => ?_) hf
  rw [hall, published_split (r := r) ha] at hc
  rw [GroupState.chains, sealedBehind_published ha]
  rcases List.mem_cons.1 hc with rfl | hc
  · exact List.mem_append_right _ (List.mem_cons_of_mem _
      (List.mem_append_right _ (List.mem_singleton_self _)))
  rcases List.mem_cons.1 hc with rfl | hc
  · exact List.mem_append_right _ List.mem_cons_self
  rcases List.mem_append.1 hc with hc | hc
  · exact List.mem_append_right _ (List.mem_cons_of_mem _ (List.mem_append_left _ hc))
  · refine List.mem_append_left _ (mem_retiredOf.2 ⟨?_, hh⟩)
    rwa [List.map_map]

/-- Publishing a delta: every durable state publishes it behind the segments that stay, and in the
end the pages of the deltas it replaces are free. -/
theorem publishDelta_spec {bs : List ℕ} (h : Appending s x m) (hr : m.grouped.retired = [])
    (hc : SegmentOk s x.chain bs) (hx : x.Ok true) (hroots : RootsOk s x)
    (ha : m.grouped.active = some a) (hroom : r < 16) (hle : r ≤ m.grouped.deltas.length)
    (hd : Continues (endOf (a.after, a.id, none) (m.grouped.deltas.take r)) [⟨x, before, level⟩])
    (howner : ¬ (∀ o ∈ x.after, o.Valid) → E .codec) :
    Spec E (fun s' => ∃ m', Published s s' m (sealedBehind m.grouped x before level r) m') s
      (publishDelta x before level r) fun k s' =>
        ∃ m', Replaced s s' m (sealedBehind m.grouped x before level r) m' k.1 ∧
          k.2 = bs.length := by
  have hok := h.sealedBehind_ok hr ha hroom hd
  obtain ⟨hxd, hvalid, hlevel, -, hbefore, -⟩ := hd
  change before = _ at hbefore
  have hold := h.segmented.metaOk.grouped.deltas a ha
  refine Spec.ensure_bind ⟨hxd.2.2.1 rfl, hvalid, hlevel⟩ ?_
  refine Spec.reading_bind h.segmented.loadInfo ?_
  rintro _ rfl
  refine Spec.ofExcept_bind (metaPage_groupedState h.segmented.metaOk) ?_
  refine Spec.reading_bind (verifyBuild_returns h hc hx hroots) ?_
  rintro _ rfl
  refine Spec.ensure_bind ⟨by rw [ha]; exact Option.some_ne_none a, hr, hle, fun he => ?_,
    fun hlt => ?_⟩ ?_
  · rw [latest_after ha, hbefore, he, List.take_length]
  · rw [← List.take_append_drop r m.grouped.deltas, List.drop_eq_getElem_cons hlt] at hold
    obtain ⟨-, hrest⟩ := (continues_append (e := (a.after, a.id, none))).1 hold
    refine ⟨m.grouped.deltas[r], List.getElem?_eq_getElem hlt, ?_⟩
    rw [hbefore]
    exact hrest.2.2.2.2.1
  refine h.switch_sealed hr ha hok (fun hn => howner fun ho => hn ?_) fun k s' m' hrep =>
    Spec.pure ⟨m', hrep, rfl⟩
  exact sealedBehind_owners h.segmented.metaOk.refs ha hbefore ho

end

end Grouped

end

end PinCore
