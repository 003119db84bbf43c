import PinCore.Compact.Rewrite

/-!
# Switching an entry

Commits that change a dictionary entry, the links of its pages and the metapage, but no posting:
the publication of a rewritten chain, and the removal of a dead inline second.  Every live owner
keeps its postings.
-/

namespace PinCore

open Prog

/-- The owners stay, and so do the entries and chains of the places in `T`. -/
structure TermsKept (T : TermRef → Prop) (s s' : Store) : Prop where
  layout : s'.layout = s.layout
  owners : Same (· = .owners) s s'
  entry : ∀ u, T u → s'.entry u = s.entry u
  chain : ∀ {u e bs}, T u → s.entry u = some e → EntryChain s u e bs → ∀ b ∈ bs,
    s'.page b = s.page b
  dict : ∀ packed bucket ds, DictOk s packed bucket ds → DictOk s' packed bucket ds

/-- Nothing but the entry at `t`, the links of its pages and the metapage changed. -/
structure Relinked (s s' : Store) (t : TermRef) : Prop where
  layout : s'.layout = s.layout
  body : ∀ b, b ≠ 0 → b ≠ t.page → s'.body b = s.body b
  page : ∀ b, b ≠ 0 → b ≠ t.page → (s.body b).postingTag ≠ some t → s'.page b = s.page b

section

variable {strong : Prop} {s s' s'' : Store} {m : MetaBody} {V : View} {t : TermRef} {e : Entry}
  {bs bs' : List ℕ} {f : Entry → Entry} {T T' : TermRef → Prop} {journal : Option RewriteJournal}

theorem OffStep.kept (h : OffStep s s') : TermsKept T s s' where
  layout := h.layout
  owners := h.owners
  entry u _ := h.entry u
  chain _ he hch := h.chain he hch
  dict _ _ _ hd := hd.same h.dict

theorem TermsKept.mono (h : TermsKept T s s') (hT : ∀ u, T' u → T u) : TermsKept T' s s' :=
  ⟨h.layout, h.owners, fun u hu => h.entry u (hT u hu), fun hu => h.chain (hT _ hu), h.dict⟩

theorem TermsKept.trans (h : TermsKept T s s') (h' : TermsKept T s' s'') : TermsKept T s s'' where
  layout := h'.layout.trans h.layout
  owners := h.owners.trans h'.owners
  entry u hu := (h'.entry u hu).trans (h.entry u hu)
  chain hu he hch b hb := by
    have hpage := h.chain hu he hch
    rw [h'.chain hu (by rw [h.entry _ hu]; exact he) (hch.congr hpage) b hb, hpage b hb]
  dict p k ds hd := h'.dict p k ds (h.dict p k ds hd)

/-- The chain of an entry is relinked in a store that keeps the invariant. -/
structure Relinking (strong : Prop) (s s' : Store) (m m' : MetaBody) (t : TermRef) (e : Entry)
    (f : Entry → Entry) : Prop where
  wf : WF strong s m
  entry : s.entry t = some e
  relinked : Relinked s s' t
  update : EntryUpdate s s' t f
  info : s'.page 0 = metaPage m'

namespace Relinking

variable {m' : MetaBody} {b : ℕ} {u : TermRef}

theorem kind_zero (h : Relinking strong s s' m m' t e f) : (s'.body 0).kind = .info := by
  rw [Store.body, h.info]
  rfl

theorem entry_after (h : Relinking strong s s' m m' t e f) : s'.entry t = some (f e) := by
  rw [h.update.self, h.entry]
  rfl

/-- The kinds that a relinking leaves alone. -/
theorem same (h : Relinking strong s s' m m' t e f) {K : PageKind → Prop} (hi : ¬ K .info)
    (hd : ¬ K .dictionary) (hp : ∀ k : PageKind, k.IsPosting → ¬ K k) : Same K s s' := by
  refine ⟨h.relinked.layout, fun b hb => ?_⟩
  have hb0 : b ≠ 0 := by
    rintro rfl
    rw [h.wf.kind_zero, h.kind_zero, or_self] at hb
    exact hi hb
  have hbt : b ≠ t.page := by
    rintro rfl
    rw [Store.entry_kind h.entry, Store.entry_kind h.entry_after, or_self] at hb
    exact hd hb
  rw [h.relinked.body b hb0 hbt, or_self] at hb
  exact h.relinked.page b hb0 hbt fun ht => hp _ (isPosting_of_tag ht) hb

theorem same_kind (h : Relinking strong s s' m m' t e f) (k : PageKind) (hi : k ≠ .info)
    (hd : k ≠ .dictionary) (hp : ¬ k.IsPosting) : Same (· = k) s s' :=
  h.same hi.symm hd.symm fun _ hl => hl.ne hp

theorem owners (h : Relinking strong s s' m m' t e f) : Same (· = .owners) s s' :=
  h.same_kind .owners (by decide) (by decide) (by decide)

theorem known (h : Relinking strong s s' m m' t e f) {r : OwnerRef} (hr : s.Known r) : s'.Known r :=
  (Store.known_same h.owners).2 hr

/-- A posting page is neither the metapage nor the page of the entry. -/
theorem place (h : Relinking strong s s' m m' t e f)
    (hb : (s.body b).postingTag = some u ∨ (s'.body b).postingTag = some u) :
    b ≠ 0 ∧ b ≠ t.page := by
  constructor
  · rintro rfl
    rcases hb with hb | hb
    · exact (isPosting_of_tag hb).ne (by decide) h.wf.kind_zero
    · exact (isPosting_of_tag hb).ne (by decide) h.kind_zero
  · rintro rfl
    rcases hb with hb | hb
    · exact (isPosting_of_tag hb).ne (by decide) (Store.entry_kind h.entry)
    · exact (isPosting_of_tag hb).ne (by decide) (Store.entry_kind h.entry_after)

theorem body_of_tag (h : Relinking strong s s' m m' t e f) (hb : (s'.body b).postingTag = some u) :
    s'.body b = s.body b := by
  obtain ⟨hb0, hbt⟩ := h.place (.inr hb)
  exact h.relinked.body b hb0 hbt

theorem frame (h : Relinking strong s s' m m' t e f) (hu : u ≠ t)
    (hb : (s.body b).postingTag = some u) : s'.page b = s.page b := by
  obtain ⟨hb0, hbt⟩ := h.place (.inl hb)
  refine h.relinked.page b hb0 hbt ?_
  rw [hb]
  exact fun heq => hu (Option.some.inj heq)

theorem frame_after (h : Relinking strong s s' m m' t e f) (hu : u ≠ t)
    (hb : (s'.body b).postingTag = some u) : s'.page b = s.page b := by
  refine h.frame hu ?_
  rwa [h.body_of_tag hb] at hb

theorem refs (h : Relinking strong s s' m m' t e f) (hfirst : (f e).first = e.first)
    (hsecond : ∀ r, (f e).second = some r → e.second = some r) : RefsOk s' where
  first u g hg := by
    by_cases hut : u = t
    · subst hut
      rw [h.entry_after] at hg
      cases hg
      rw [hfirst]
      exact h.known (h.wf.refs.first u e h.entry)
    · rw [h.update.others hut] at hg
      exact h.known (h.wf.refs.first u g hg)
  second u g r hg hgs := by
    by_cases hut : u = t
    · subst hut
      rw [h.entry_after] at hg
      cases hg
      exact h.known (h.wf.refs.second u e r h.entry (hsecond r hgs))
    · rw [h.update.others hut] at hg
      exact h.known (h.wf.refs.second u g r hg hgs)
  posting b r hb := by
    obtain ⟨u, hu⟩ := postingRefs_tag hb
    rw [h.body_of_tag hu] at hb
    exact h.known (h.wf.refs.posting b r hb)
  fragment b r offset payload hb := by
    have hs := h.same_kind .fragment (by decide) (by decide) (by decide)
    rw [hs.body (.inr (by rw [hb]; rfl))] at hb
    exact h.known (h.wf.refs.fragment b r offset payload hb)

theorem records (h : Relinking strong s s' m m' t e f) {x : DirectRecord}
    (hx : x ∈ (s'.body b).records) : x ∈ (s.body b).records := by
  obtain ⟨u, hu⟩ : ∃ u, (s'.body b).postingTag = some u :=
    tag_of_isPosting (by rw [records_kind hx]; exact .inr (.inr rfl))
  rwa [h.body_of_tag hu] at hx

theorem direct (h : Relinking strong s s' m m' t e f) : DirectOk strong s' where
  root b x o hx ho := h.wf.direct.root b x o (h.records hx) ((Store.owns_same h.owners).1 ho)
  live b x o hx ho := h.wf.direct.live b x o (h.records hx) ((Store.owns_same h.owners).1 ho)
  dead hs b x o hx ho :=
    h.wf.direct.dead hs b x o (h.records hx) ((Store.owns_same h.owners).1 ho)

theorem step (h : Relinking strong s s' m m' t e f) (hch : EntryChain s t e bs)
    (hch' : EntryChain s' t (f e) bs')
    (hsub : (entryRefs s' (f e) bs').Sublist (entryRefs s e bs)) :
    EntryStep s s' t e (f e) bs bs' := by
  have hsorted : (entryRefs s e bs).Pairwise OwnerRef.Before := by
    obtain ⟨cs, hcs, hp⟩ := h.wf.chains.chain t e h.entry
    rwa [hcs.unique hch] at hp
  exact ⟨h.entry, h.entry_after, fun u hu => h.update.others hu, h.update.term e, hch, hch',
    hsorted.sublist hsub, fun b u hu hb => h.frame hu hb, fun b u hu hb => h.frame_after hu hb⟩

/-- Only dead postings go, so the view stays. -/
theorem shows (h : Relinking strong s s' m m' t e f) (hv : Shows s V)
    (hch : EntryChain s t e bs) (hch' : EntryChain s' t (f e) bs')
    (hsub : (entryRefs s' (f e) bs').Sublist (entryRefs s e bs))
    (hlive : ∀ r ∈ entryRefs s e bs, s.rootOf r ≠ none → r ∈ entryRefs s' (f e) bs') :
    Shows s' V := by
  obtain ⟨ds, hd⟩ := h.wf.dict
  refine ⟨hv.sorted, fun r x => ?_, fun v hm x => ?_, fun r o ho => ?_⟩
  · rw [Store.rootOf_same h.owners]
    exact hv.live r x
  · rw [← hv.posted v hm x, (h.step hch hch' hsub).posted hd h.wf.chains]
    have hroot : s.rootOf v.owner ≠ none := by
      rw [(hv.live v.owner v.root).2 ⟨v.document, hm⟩]
      exact Option.some_ne_none _
    constructor
    · rintro (⟨rfl, hmem⟩ | ⟨-, hpo⟩)
      · exact ⟨t, e, bs, h.entry, rfl, hch, hsub.subset hmem⟩
      · exact hpo
    · intro hpo
      by_cases hx : x = e.term
      · refine .inl ⟨hx, ?_⟩
        obtain ⟨u, g, cs, hg, hgt, hcs, hmem⟩ := hpo
        obtain rfl := hd.unique u t g e hg h.entry (hgt.trans hx)
        rw [h.entry] at hg
        cases hg
        rw [hcs.unique hch] at hmem
        exact hlive _ hmem hroot
      · exact .inr ⟨hx, hpo⟩
  · exact hv.closed r o ((Store.owns_same h.owners).1 ho)

theorem kept (h : Relinking strong s s' m m' t e f) : TermsKept (· ≠ t) s s' where
  layout := h.relinked.layout
  owners := h.owners
  entry _ hu := h.update.others hu
  chain hu _ hcs b hb := h.frame hu (hcs.tagged b hb)
  dict _ _ _ hd := h.update.dict hd

end Relinking

/-- A relinking that drops only dead postings keeps the invariant and the view. -/
theorem WF.relink (h : WF strong s m) (hv : Shows s V) (he : s.entry t = some e)
    (hr : Relinked s s' t) (hu : EntryUpdate s s' t f) (hp : PagesOk s')
    (hinfo : s'.page 0 = metaPage (m.withJournal journal m.freeHead))
    (hfirst : (f e).first = e.first) (hsecond : ∀ r, (f e).second = some r → e.second = some r)
    (hch : EntryChain s t e bs) (hch' : EntryChain s' t (f e) bs')
    (hsub : (entryRefs s' (f e) bs').Sublist (entryRefs s e bs))
    (hlive : ∀ r ∈ entryRefs s e bs, s.rootOf r ≠ none → r ∈ entryRefs s' (f e) bs')
    (hj : JournalOk s' journal) (hcl : ClosedOk s') :
    WF strong s' (m.withJournal journal m.freeHead) ∧ Shows s' V ∧ TermsKept (· ≠ t) s s' := by
  have hl : Relinking strong s s' m (m.withJournal journal m.freeHead) t e f :=
    ⟨h, he, hr, hu, hinfo⟩
  have hfree := hl.same_kind .free (by decide) (by decide) (by decide)
  have hgrp := hl.same_kind .grouped (by decide) (by decide) (by decide)
  obtain ⟨ds, hd⟩ := h.dict
  refine ⟨⟨hp, hinfo, h.owners.imp fun _ ho => ho.same hl.owners, ⟨ds, hu.dict hd⟩,
    (hl.step hch hch' hsub).chains h.chains, hl.refs hfirst hsecond, hl.direct, hj,
    h.free.same hfree, hcl, h.grouped.same hgrp⟩, hl.shows hv hch hch' hsub hlive, hl.kept⟩

/-! ### Publishing a rewritten chain -/

variable {keep cs ds : List ℕ} {b : ℕ} {emitted : List OwnerRef}

/-- The entry after its chain became `bs`. -/
def Entry.onChain (bs : List ℕ) : Entry → Entry :=
  Entry.withChain (bs.headD noBlock) (lastD noBlock bs)

/-- The images that publish the output `cs` behind the retained pages `keep`. -/
def publishPages (s : Store) (m : MetaBody) (t : TermRef) (tail : ℕ) (keep cs : List ℕ) (b : ℕ) :
    List Page :=
  [metaPage (m.withJournal (some ⟨b, tail, .retiring⟩) m.freeHead),
    (s.page t.page).updateEntry t (Entry.onChain (keep ++ cs))] ++
  if keep = [] then [] else [{ s.page (lastD noBlock keep) with next := cs.headD noBlock }]

theorem headD_mem (hne : bs ≠ []) : bs.headD noBlock ∈ bs := by
  cases bs with
  | nil => exact absurd rfl hne
  | cons a as => exact List.mem_cons_self

/-- The entry with the new chain passes the validator unless a promoted entry loses its chain. -/
theorem onChain_ok {p : Bool} (hw : WF strong s m) (he : s.entry t = some e) (hok : e.Ok p t.page)
    (hi : e.inline ≠ 1) (htag : ∀ c ∈ bs, (s.body c).postingTag = some t)
    (h2 : e.inline = 2 → bs ≠ []) : (Entry.onChain bs e).Ok p t.page := by
  have hkt := Store.entry_kind he
  by_cases hne : bs = []
  · subst hne
    have htn : noBlock ≠ t.page := (hw.pages.ne_noBlock (hkt.trans_ne (by decide))).symm
    exact ⟨hok.nonempty, hok.length, hok.first, .inl ⟨rfl, rfl⟩, hok.range,
      ⟨hok.state.plain, fun hp h0 => ⟨(hok.state.single hp h0).1, htn, htn⟩, hok.state.second,
        fun _ h1 => absurd h1 hi, fun _ h2' => absurd rfl (h2 h2')⟩⟩
  · obtain ⟨hhv, hht, -⟩ := hw.posting_place he (htag _ (headD_mem hne))
    obtain ⟨htv, htt, -⟩ := hw.posting_place he (htag _ (lastD_mem noBlock hne))
    exact withChain_ok hok hi hhv htv hht htt

/-- The output chain shares no page with the chain of the entry. -/
theorem Building.disjoint (h : Building strong V t e s m cs emitted)
    (hch : Chain s t e.head e.tail bs) {c : ℕ} (hc : c ∈ cs) : c ∉ bs := by
  refine h.chain.linked.disjoint hch.linked ?_ hc
  rw [← hch.tail_eq]
  exact h.apart (List.ne_nil_of_mem hc)

theorem chain_append_tail (hch : Chain s t e.head e.tail (keep ++ b :: ds)) :
    e.tail = lastD noBlock (b :: ds) := by rw [hch.tail_eq, lastD_append_cons]

/-- The new chain ends apart from the retired one. -/
theorem Building.apart_tail (h : Building strong V t e s m cs emitted)
    (hch : Chain s t e.head e.tail (keep ++ b :: ds)) : e.tail ≠ lastD noBlock (keep ++ cs) := by
  have hmem : e.tail ∈ b :: ds := by
    rw [chain_append_tail hch]; exact lastD_mem noBlock (List.cons_ne_nil _ _)
  by_cases hcs : cs = []
  · subst hcs
    rw [List.append_nil]
    by_cases hk : keep = []
    · subst hk
      rw [lastD_nil]
      exact hch.linked.ne_stop (by simpa using hmem)
    · intro heq
      have hnd := (List.nodup_append.1 hch.linked.nodup).2.2
      exact hnd _ (lastD_mem noBlock hk) _ (heq ▸ hmem) rfl
  · obtain ⟨c, rest, rfl⟩ := List.exists_cons_of_ne_nil hcs
    rw [lastD_append_cons]
    exact (h.apart hcs).symm

/-- The boundary page of a retained prefix takes the output behind it. -/
theorem boundary_nextOk (h : Building strong V t e s m cs emitted)
    (hch : Chain s t e.head e.tail (keep ++ b :: ds)) (hk : keep ≠ []) :
    ({ s.page (lastD noBlock keep) with next := cs.headD noBlock } : Page).NextOk := by
  have hmem : lastD noBlock keep ∈ keep ++ b :: ds :=
    List.mem_append_left _ (lastD_mem noBlock hk)
  by_cases hcs : cs = []
  · subst hcs; exact .inl rfl
  · have hc := headD_mem hcs
    refine posting_nextOk h.wf.pages (isPosting_of_tag (hch.tagged _ hmem))
      (h.wf.posting_place h.entry (h.chain.tagged _ hc)).1 ?_
    rintro heq
    exact h.disjoint hch hc (heq ▸ hmem)

/-- The pages of the new chain are posting pages of the entry. -/
theorem Building.tagged (h : Building strong V t e s m cs emitted)
    (hch : Chain s t e.head e.tail (keep ++ b :: ds)) :
    ∀ c ∈ keep ++ cs, (s.body c).postingTag = some t := by
  intro c hc
  rcases List.mem_append.1 hc with hc | hc
  · exact hch.tagged c (List.mem_append_left _ hc)
  · exact h.chain.tagged c hc

theorem boundary_tagged (hch : Chain s t e.head e.tail (keep ++ b :: ds)) (hk : keep ≠ []) :
    (s.body (lastD noBlock keep)).postingTag = some t :=
  hch.tagged _ (List.mem_append_left _ (lastD_mem noBlock hk))

/-- The dictionary page of the entry on its new chain. -/
theorem Building.onChain_valid (h : Building strong V t e s m cs emitted)
    (hch : Chain s t e.head e.tail (keep ++ b :: ds)) (h2 : e.inline = 2 → keep ++ cs ≠ []) :
    ∃ p es, s.body t.page = .dictionary p es ∧
      ((s.page t.page).updateEntry t (Entry.onChain (keep ++ cs))).Valid s.layout ∧
      ((s.page t.page).updateEntry t (Entry.onChain (keep ++ cs))).block = t.page ∧
      ((s.page t.page).updateEntry t (Entry.onChain (keep ++ cs))).next = s.next t.page ∧
      ((s.page t.page).updateEntry t (Entry.onChain (keep ++ cs))).body =
        .dictionary p (Page.modifyEntry p t.offset (Entry.onChain (keep ++ cs)) pageHeader es) := by
  obtain ⟨p, es, hbody, hok⟩ := entry_body h.wf.pages h.entry
  have hterm : ∀ x, (Entry.onChain (keep ++ cs) x).term = x.term := fun _ => rfl
  refine ⟨p, es, hbody, updateEntry_valid h.wf.pages hterm hbody fun x hx => ?_⟩
  rw [h.entry] at hx
  cases hx
  exact onChain_ok h.wf h.entry hok h.linked.1 (h.tagged hch) h2

theorem publishPages_ok (h : Building strong V t e s m cs emitted)
    (hch : Chain s t e.head e.tail (keep ++ b :: ds)) (h2 : e.inline = 2 → keep ++ cs ≠ []) :
    CommitOk s (publishPages s m t e.tail keep cs b) := by
  have hw := h.wf
  have hkt := Store.entry_kind h.entry
  have ht0 : t.page ≠ 0 := hw.ne_zero (hkt.trans_ne (by decide))
  obtain ⟨p, es, -, hdv, hdb, -, hdd⟩ := h.onChain_valid hch h2
  have hdk : ((s.page t.page).updateEntry t (Entry.onChain (keep ++ cs))).kind = .dictionary := by
    rw [Page.kind, hdd]; rfl
  have htail : (s.body e.tail).postingTag = some t := by
    refine hch.tagged _ ?_
    rw [hch.tail_eq]; exact lastD_mem noBlock (by simp)
  have hi : (metaPage (m.withJournal (some ⟨b, e.tail, .retiring⟩) m.freeHead)).Valid s.layout ∧
      (metaPage (m.withJournal (some ⟨b, e.tail, .retiring⟩) m.freeHead)).kind ≠ .zero ∧
      0 < s.blocks := by
    refine ⟨metaPage_valid (hw.metaOk.withJournal ?_ hw.metaOk.free), by simp, hw.pages.pos⟩
    rintro j ⟨⟩
    exact ⟨(hw.posting_place h.entry (hch.tagged b (by simp))).1,
      (hw.posting_place h.entry htail).1⟩
  have hd : ((s.page t.page).updateEntry t (Entry.onChain (keep ++ cs))).Valid s.layout ∧
      ((s.page t.page).updateEntry t (Entry.onChain (keep ++ cs))).kind ≠ .zero ∧
      ((s.page t.page).updateEntry t (Entry.onChain (keep ++ cs))).block < s.blocks :=
    ⟨hdv, hdk.trans_ne (by decide), by
      rw [hdb]; exact hw.pages.lt_blocks (hkt.trans_ne (by decide))⟩
  have hblock : ∀ c, (s.page c).block = c := hw.pages.block
  unfold publishPages
  split_ifs with hk
  · exact commitOk_two hi hd (by rw [hdb]; exact ht0.symm)
  · obtain ⟨hbv, hbt, hbz⟩ := hw.posting_place h.entry (boundary_tagged hch hk)
    have hv := hw.pages.valid (lastD noBlock keep)
    refine commitOk_three hi hd ⟨⟨fun _ => boundary_nextOk h hch hk, hv.block, hv.body, hv.len⟩,
      hbz, ?_⟩ (by rw [hdb]; exact ht0.symm) ?_ ?_
    · rw [hblock]; exact hw.pages.lt_blocks hbz
    · rw [hblock]; exact hbv.1.symm
    · rw [hdb, hblock]; exact hbt.symm

/-- What the publication leaves: the entry on its new chain, the boundary page of a retained prefix
with the output behind it, and all other pages as they were. -/
structure ChainPublished (s s' : Store) (t : TermRef) (keep cs : List ℕ) : Prop where
  layout : s'.layout = s.layout
  entry : EntryUpdate s s' t (Entry.onChain (keep ++ cs))
  boundary : keep ≠ [] → s'.page (lastD noBlock keep) =
    ({ s.page (lastD noBlock keep) with next := cs.headD noBlock } : Page).stored
  other : ∀ c, c ≠ 0 → c ≠ t.page → (keep ≠ [] → c ≠ lastD noBlock keep) → s'.page c = s.page c

theorem chainPublished_of_committed (h : Building strong V t e s m cs emitted)
    (hch : Chain s t e.head e.tail (keep ++ b :: ds)) (h2 : e.inline = 2 → keep ++ cs ≠ [])
    (hcm : Committed s s' (publishPages s m t e.tail keep cs b)) :
      ChainPublished s s' t keep cs := by
  have hw := h.wf
  obtain ⟨p, es, hbody, -, hdb, hdn, hdd⟩ := h.onChain_valid hch h2
  have hblock : ∀ c, (s.page c).block = c := hw.pages.block
  have hother : ∀ c, c ≠ 0 → c ≠ t.page → (keep ≠ [] → c ≠ lastD noBlock keep) →
      s'.page c = s.page c := by
    intro c h0 hct hcl
    refine hcm.other c fun q hq hqc => ?_
    unfold publishPages at hq
    rcases List.mem_append.1 hq with hq | hq
    · simp only [List.mem_cons, List.not_mem_nil, or_false] at hq
      rcases hq with rfl | rfl
      · exact h0 hqc.symm
      · exact hct (hqc ▸ hdb)
    · split_ifs at hq with hk
      · exact absurd hq List.not_mem_nil
      · rw [List.mem_singleton.1 hq, hblock] at hqc
        exact hcl hk hqc.symm
  have hlast : keep ≠ [] → s'.page (lastD noBlock keep) =
      ({ s.page (lastD noBlock keep) with next := cs.headD noBlock } : Page).stored := by
    intro hk
    have hq : ({ s.page (lastD noBlock keep) with next := cs.headD noBlock } : Page) ∈
        publishPages s m t e.tail keep cs b := by
      unfold publishPages
      rw [if_neg hk]
      simp
    have := hcm.mem _ hq
    rwa [hblock] at this
  refine ⟨hcm.layout, ⟨fun _ => rfl, ⟨p, es, hbody, ?_⟩, ?_, fun c hct hck => ?_⟩, hlast, hother⟩
  · rw [← hdd, ← hcm.body_mem (by simp [publishPages]), hdb]
  · rw [← hdn, ← hcm.next_mem (by simp [publishPages]), hdb]
  · -- a dictionary page is neither the metapage nor the boundary page
    have hmeta : (s'.body 0).kind = .info := by
      rw [Store.body, show s'.page 0 = _ from hcm.mem _ List.mem_cons_self]
      rfl
    have hc0 : c ≠ 0 := by
      rintro rfl
      rw [hw.kind_zero, hmeta] at hck
      rcases hck with hck | hck <;> cases hck
    refine hother c hc0 hct fun hk hcl => ?_
    have hsame : s'.body c = s.body c := by rw [hcl, Store.body, hlast hk]; rfl
    have hposting := isPosting_of_tag (boundary_tagged hch hk)
    rw [hsame, or_self, hcl] at hck
    rw [hck] at hposting
    exact absurd hposting (by decide)

/-- The publication relinks the pages of the entry. -/
theorem ChainPublished.relinked (hp : ChainPublished s s' t keep cs)
    (hch : Chain s t e.head e.tail (keep ++ b :: ds)) : Relinked s s' t := by
  refine ⟨hp.layout, fun c h0 hct => ?_, fun c h0 hct htag => hp.other c h0 hct fun hk hcl => ?_⟩
  · by_cases hcl : keep ≠ [] ∧ c = lastD noBlock keep
    · rw [hcl.2, Store.body, hp.boundary hcl.1]; rfl
    · exact Store.body_eq_of_page (hp.other c h0 hct fun hk hce => hcl ⟨hk, hce⟩)
  · rw [hcl] at htag
    exact htag (boundary_tagged hch hk)

/-- The output pages stay. -/
theorem ChainPublished.output (hp : ChainPublished s s' t keep cs)
    (h : Building strong V t e s m cs emitted)
    (hch : Chain s t e.head e.tail (keep ++ b :: ds)) : ∀ c ∈ cs, s'.page c = s.page c := by
  intro c hc
  obtain ⟨hcv, hct, -⟩ := h.wf.posting_place h.entry (h.chain.tagged c hc)
  refine hp.other c hcv.1 hct fun hk hcl => h.disjoint hch hc ?_
  rw [hcl]
  exact List.mem_append_left _ (lastD_mem noBlock hk)

/-- The retired pages stay. -/
theorem ChainPublished.retired (hp : ChainPublished s s' t keep cs)
    (h : Building strong V t e s m cs emitted)
    (hch : Chain s t e.head e.tail (keep ++ b :: ds)) : ∀ c ∈ b :: ds, s'.page c = s.page c := by
  intro c hc
  obtain ⟨hcv, hct, -⟩ :=
    h.wf.posting_place h.entry (hch.tagged c (List.mem_append_right _ hc))
  refine hp.other c hcv.1 hct fun hk hcl => ?_
  exact (List.nodup_append.1 hch.linked.nodup).2.2 _ (lastD_mem noBlock hk) c hc hcl.symm

theorem ChainPublished.body_eq (hp : ChainPublished s s' t keep cs)
    (h : Building strong V t e s m cs emitted) (hch : Chain s t e.head e.tail (keep ++ b :: ds)) :
    ∀ c ∈ keep ++ cs, s'.body c = s.body c := by
  intro c hc
  obtain ⟨hcv, hct, -⟩ := h.wf.posting_place h.entry (h.tagged hch c hc)
  exact (hp.relinked hch).body c hcv.1 hct

/-- The retained prefix with the output behind it is a chain. -/
theorem ChainPublished.chain (hp : ChainPublished s s' t keep cs)
    (h : Building strong V t e s m cs emitted)
    (hch : Chain s t e.head e.tail (keep ++ b :: ds)) :
    Chain s' t ((keep ++ cs).headD noBlock) (lastD noBlock (keep ++ cs)) (keep ++ cs) := by
  have hlink : Linked s'.next noBlock (cs.headD noBlock) cs :=
    h.chain.linked.congr fun c hc => by rw [Store.next, hp.output h hch c hc]; rfl
  refine ⟨?_, rfl, fun c hc => by rw [hp.body_eq h hch c hc]; exact h.tagged hch c hc⟩
  by_cases hk : keep = []
  · subst hk; exact hlink
  have hsplit := eq_append_lastD noBlock hk
  have hhead : (keep ++ cs).headD noBlock = e.head := by
    obtain ⟨a, as, rfl⟩ := List.exists_cons_of_ne_nil hk
    exact hch.linked.1.symm
  have hl := hch.linked
  have hnk := (List.nodup_append.1 hch.linked.nodup).1
  rw [hhead]
  rw [hsplit, List.append_assoc, List.singleton_append] at hl ⊢
  refine hl.relink (fun c hc => ?_) ?_
  · -- a page before the boundary keeps its link
    have hck : c ∈ keep := by rw [hsplit]; exact List.mem_append_left _ hc
    obtain ⟨hcv, hct, -⟩ :=
      h.wf.posting_place h.entry (h.tagged hch c (List.mem_append_left _ hck))
    rw [hsplit] at hnk
    rw [Store.next, hp.other c hcv.1 hct fun _ hcl => ?_]
    · rfl
    · exact (List.nodup_append.1 hnk).2.2 c hc _ (List.mem_singleton_self _) hcl
  · rw [Store.next, hp.boundary hk]; exact hlink

/-- The postings of the entry before the publication. -/
theorem Building.entryRefs_eq (h : Building strong V t e s m cs emitted) :
    entryRefs s e (keep ++ b :: ds) = e.first :: (chainRefs s keep ++ chainRefs s (b :: ds)) := by
  rw [entryRefs, Entry.inlineRefs, if_neg h.linked.1, chainRefs_append]
  rfl

/-- The postings of the entry after the publication: of those that are rewritten the live ones. -/
theorem ChainPublished.entryRefs_eq (hp : ChainPublished s s' t keep cs)
    (h : Building strong V t e s m cs emitted) (hch : Chain s t e.head e.tail (keep ++ b :: ds))
    (hem : emitted = liveRefs s (chainRefs s (b :: ds))) :
    entryRefs s' (Entry.onChain (keep ++ cs) e) (keep ++ cs) =
      e.first :: (chainRefs s keep ++ liveRefs s (chainRefs s (b :: ds))) := by
  have hsame : chainRefs s' (keep ++ cs) = chainRefs s (keep ++ cs) := by
    unfold chainRefs
    exact List.flatMap_congr fun c hc => by rw [hp.body_eq h hch c hc]
  have hinl : (Entry.onChain (keep ++ cs) e).inlineRefs = [] := if_neg h.linked.1
  rw [entryRefs, hinl, hsame, chainRefs_append, h.refs, hem]
  rfl

/-- The journal names the retired pages. -/
theorem ChainPublished.journalOk (hp : ChainPublished s s' t keep cs)
    (h : Building strong V t e s m cs emitted) (hch : Chain s t e.head e.tail (keep ++ b :: ds)) :
    JournalOk s' (some ⟨b, e.tail, .retiring⟩) := by
  have hsame := hp.retired h hch
  have hsorted : (chainRefs s (b :: ds)).Pairwise OwnerRef.Before := by
    obtain ⟨cs', hcs', hs⟩ := h.wf.chains.chain t e h.entry
    rw [hcs'.unique ((entryChain_of_ne h.linked.1).2 hch), h.entryRefs_eq] at hs
    exact (List.pairwise_append.1 (List.pairwise_cons.1 hs).2).2.1
  rintro j ⟨⟩
  refine ⟨t, Entry.onChain (keep ++ cs) e, b :: ds, ?_, ?_, List.cons_ne_nil _ _, ?_, ?_⟩
  · rw [hp.entry.self, h.entry]; rfl
  · exact Chain.congr ⟨hch.linked.suffix, chain_append_tail hch, fun c hc =>
      hch.tagged c (List.mem_append_right _ hc)⟩ hsame
  · rw [chainRefs_congr hsame]; exact hsorted
  · exact h.apart_tail hch

/-- No page that the publication writes points at an empty one. -/
theorem publish_closed (h : Building strong V t e s m cs emitted)
    (hch : Chain s t e.head e.tail (keep ++ b :: ds)) (h2 : e.inline = 2 → keep ++ cs ≠ [])
    (hcm : Committed s s' (publishPages s m t e.tail keep cs b)) : ClosedOk s' := by
  have hw := h.wf
  have hok := publishPages_ok h hch h2
  obtain ⟨p, es, -, -, -, hdn, hdd⟩ := h.onChain_valid hch h2
  have hkeep := hcm.keepsWritten fun q hq => (hok.2.2.1 q hq).2.1
  refine hcm.closed hw.closed (fun q hq => (hok.2.2.1 q hq).2.1) fun q hq => ?_
  unfold publishPages at hq
  rcases List.mem_append.1 hq with hq | hq
  · simp only [List.mem_cons, List.not_mem_nil, or_false] at hq
    rcases hq with rfl | rfl
    · exact metaPage_links _
    · refine ⟨?_, fun o ho => ?_⟩
      · rw [hdn]
        exact ((hw.closed.links ((Store.entry_kind h.entry).trans_ne (by decide))).keeps hkeep).next
      · rw [hdd] at ho; exact absurd ho List.not_mem_nil
  · split_ifs at hq with hk
    · exact absurd hq List.not_mem_nil
    · rw [List.mem_singleton.1 hq]
      have hlz := (hw.posting_place h.entry (boundary_tagged hch hk)).2.2
      refine ⟨?_, fun o ho => ((hw.closed.links hlz).keeps hkeep).payload o ho⟩
      by_cases hcs : cs = []
      · subst hcs; exact .inl rfl
      · exact .inr (hkeep _
          (hw.posting_place h.entry (h.chain.tagged _ (headD_mem hcs))).2.2)

/-- The publication of a rewritten chain is a valid commit that keeps the invariant. -/
theorem publish_step (h : Building strong V t e s m cs emitted)
    (hch : Chain s t e.head e.tail (keep ++ b :: ds))
    (hem : emitted = liveRefs s (chainRefs s (b :: ds))) (h2 : e.inline = 2 → keep ++ cs ≠ []) :
    CommitOk s (publishPages s m t e.tail keep cs b) ∧
      ∀ s', Committed s s' (publishPages s m t e.tail keep cs b) →
        WF strong s' (m.withJournal (some ⟨b, e.tail, .retiring⟩) m.freeHead) ∧ Shows s' V ∧
          TermsKept (· ≠ t) s s' := by
  have hok := publishPages_ok h hch h2
  refine ⟨hok, fun s' hcm => ?_⟩
  have hp := chainPublished_of_committed h hch h2 hcm
  have hi : (Entry.onChain (keep ++ cs) e).inline ≠ 1 := h.linked.1
  have hold : entryRefs s e (keep ++ b :: ds) =
      e.first :: (chainRefs s keep ++ chainRefs s (b :: ds)) := h.entryRefs_eq
  have hnew := hp.entryRefs_eq h hch hem
  refine h.wf.relink h.shows h.entry (hp.relinked hch) hp.entry (hcm.pages h.wf.pages hok)
    (hcm.mem _ List.mem_cons_self) rfl (fun _ => id) ((entryChain_of_ne h.linked.1).2 hch)
    ((entryChain_of_ne hi).2 (hp.chain h hch)) ?_ (fun r hr hlr => ?_) (hp.journalOk h hch)
    (publish_closed h hch h2 hcm)
  · rw [hnew, hold]
    exact ((List.Sublist.refl _).append List.filter_sublist).cons_cons _
  · rw [hold] at hr
    rw [hnew]
    rcases List.mem_cons.1 hr with rfl | hr
    · exact List.mem_cons_self
    · refine List.mem_cons_of_mem _ ?_
      rcases List.mem_append.1 hr with hr | hr
      · exact List.mem_append_left _ hr
      · exact List.mem_append_right _ (List.mem_filter.2 ⟨hr, by simpa using hlr⟩)

end

end PinCore
