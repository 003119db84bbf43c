import PinCore.Compact.Inspect

/-!
# Steps off the chains

The commits of a rewrite that touch only the metapage, free or new pages and pages of the
journal chain.  No posting is listed or dropped by them.
-/

namespace PinCore

open Prog

/-- The host refuses to extend the relation: the only way a compaction can fail. -/
def HostRefused (e : Error) : Prop := e = .host

/-- What a direct record must say about its owner. -/
structure RecordOk (strong : Prop) (s : Store) (x : DirectRecord) : Prop where
  root : ∀ o, s.Owns x.owner o → x.root = o.root
  live : ∀ o, s.Owns x.owner o → o.liveRoot ≠ none → x.live = true
  dead : strong → ∀ o, s.Owns x.owner o → x.live = true → o.liveRoot ≠ none

theorem DirectOk.record {strong : Prop} {s : Store} (h : DirectOk strong s) {b : ℕ}
    {x : DirectRecord} (hx : x ∈ (s.body b).records) : RecordOk strong s x :=
  ⟨fun o => h.root b x o hx, fun o => h.live b x o hx, fun hs o => h.dead hs b x o hx⟩

/-- No entry has the block in its chain. -/
def OffChains (s : Store) (b : ℕ) : Prop :=
  ∀ t e bs, s.entry t = some e → EntryChain s t e bs → b ∉ bs

/-- An image that is written outside the chains of the entries. -/
structure OffPage (strong : Prop) (s : Store) (p : Page) : Prop where
  old : (s.body p.block).kind = .zero ∨ (s.body p.block).kind = .free ∨
    (s.body p.block).kind.IsPosting
  off : OffChains s p.block
  new : p.kind = .free ∨ ∃ t e, p.body.postingTag = some t ∧ s.entry t = some e
  refs : ∀ r ∈ p.body.postingRefs, s.Known r
  records : ∀ x ∈ p.body.records, RecordOk strong s x

/-- The metapage fields that a rewrite changes. -/
def MetaBody.withJournal (m : MetaBody) (journal : Option RewriteJournal) (free : ℕ) : MetaBody :=
  { m with journal := journal, freeHead := free }

/-- The fields that a rewrite leaves alone. -/
def MetaBody.core (m : MetaBody) : MetaBody := m.withJournal none 0

theorem MetaBody.Ok.withJournal {l : HeapLayout} {m : MetaBody} {journal : Option RewriteJournal}
    {free : ℕ} (h : m.Ok l) (hj : ∀ j ∈ journal, j.Ok) (hf : free ≠ 0) :
    (m.withJournal journal free).Ok l :=
  ⟨h.maxOffset, h.incarnation, h.owners, hf, hj, h.grouped, h.ids, h.refs, h.bucket⟩

/-- What stays when nothing but pages off the chains changes. -/
structure OffStep (s s' : Store) : Prop where
  layout : s'.layout = s.layout
  owners : Same (· = .owners) s s'
  dict : Same (· = .dictionary) s s'
  chain : ∀ {t e bs}, s.entry t = some e → EntryChain s t e bs → ∀ b ∈ bs, s'.page b = s.page b
  posted : ∀ x r, Posted s' x r ↔ Posted s x r

section

variable {strong : Prop} {s s' : Store} {m : MetaBody} {V : View} {ps : List Page}
  {journal : Option RewriteJournal} {free : ℕ}

theorem OffStep.entry (h : OffStep s s') (t : TermRef) : s'.entry t = s.entry t :=
  Store.entry_same h.dict t

theorem OffStep.trans {s'' : Store} (h : OffStep s s') (h' : OffStep s' s'') : OffStep s s'' where
  layout := h'.layout.trans h.layout
  owners := h.owners.trans h'.owners
  dict := h.dict.trans h'.dict
  chain he hch b hb := by
    rw [h'.chain (by rw [h.entry]; exact he) (hch.congr (h.chain he hch)) b hb, h.chain he hch b hb]
  posted x r := (h'.posted x r).trans (h.posted x r)

theorem Shows.of_step (hv : Shows s V) (h : OffStep s s') : Shows s' V where
  sorted := hv.sorted
  live r x := by rw [Store.rootOf_same h.owners]; exact hv.live r x
  posted v hm x := (h.posted x v.owner).trans (hv.posted v hm x)
  closed r o ho := hv.closed r o ((Store.owns_same h.owners).1 ho)

/-! ### A commit off the chains -/

section

variable {b : ℕ} {t : TermRef} {e : Entry} {bs : List ℕ}

/-- The commit of the metapage and of pages off the chains. -/
structure OffCommit (strong : Prop) (s s' : Store) (m : MetaBody) (ps : List Page) : Prop where
  committed : Committed s s' (metaPage m :: ps)
  off : ∀ p ∈ ps, OffPage strong s p

namespace OffCommit

theorem info (hc : OffCommit strong s s' m ps) : s'.page 0 = metaPage m :=
  hc.committed.mem _ List.mem_cons_self

theorem page (hc : OffCommit strong s s' m ps) (hb : b ≠ 0) :
    (∃ p ∈ ps, p.block = b) ∨ s'.page b = s.page b := by
  rcases hc.committed.cases b with ⟨p, hp, hpb, -⟩ | he
  · rcases List.mem_cons.1 hp with rfl | hp
    · exact absurd hpb.symm hb
    · exact .inl ⟨p, hp, hpb⟩
  · exact .inr he

/-- A posting page of `s'` is a new image or an old page. -/
theorem body_of_tag {u : TermRef} (hc : OffCommit strong s s' m ps)
    (ht : (s'.body b).postingTag = some u) :
    (∃ p ∈ ps, p.block = b ∧ s'.body b = p.body) ∨ s'.body b = s.body b := by
  have hb : b ≠ 0 := by
    rintro rfl
    refine (isPosting_of_tag ht).ne (l := .info) (by decide) ?_
    rw [Store.body, hc.info]
    rfl
  rcases hc.page hb with ⟨p, hp, rfl⟩ | he
  · exact .inl ⟨p, hp, rfl, hc.committed.body_mem (List.mem_cons_of_mem _ hp)⟩
  · exact .inr (Store.body_eq_of_page he)

/-- Kinds that neither the old nor the new images have stay. -/
theorem same (hc : OffCommit strong s s' m ps) (h0 : (s.body 0).kind = .info)
    {K : PageKind → Prop} (hz : ¬ K .zero) (hfr : ¬ K .free) (hi : ¬ K .info)
    (hpo : ∀ k : PageKind, k.IsPosting → ¬ K k) : Same K s s' := by
  refine hc.committed.same fun p hp => ?_
  rcases List.mem_cons.1 hp with rfl | hp
  · refine ⟨?_, hi⟩
    change ¬ K (s.body 0).kind
    rw [h0]
    exact hi
  · have hpage := hc.off p hp
    constructor
    · rcases hpage.old with hk | hk | hk
      · rw [hk]; exact hz
      · rw [hk]; exact hfr
      · exact hpo _ hk
    · rcases hpage.new with hk | ⟨t, e, ht, -⟩
      · rw [hk]; exact hfr
      · exact hpo _ (isPosting_of_tag ht)

theorem chain (hc : OffCommit strong s s' m ps) (h0 : (s.body 0).kind = .info)
    (he : s.entry t = some e) (hch : EntryChain s t e bs) (hb : b ∈ bs) :
    s'.page b = s.page b := by
  have hb0 : b ≠ 0 := by
    rintro rfl
    exact (isPosting_of_tag (hch.tagged 0 hb)).ne (by decide) h0
  rcases hc.page hb0 with ⟨p, hp, rfl⟩ | he'
  · exact absurd hb ((hc.off p hp).off t e bs he hch)
  · exact he'

theorem step {M : MetaBody} (hc : OffCommit strong s s' M ps) (h : WF strong s m) :
    OffStep s s' := by
  have hdict : Same (· = .dictionary) s s' := hc.same h.kind_zero (by decide) (by decide)
    (by decide) (by rintro k (rfl | rfl | rfl) <;> decide)
  have hentry : ∀ t, s'.entry t = s.entry t := Store.entry_same hdict
  have hchain : ∀ {t e bs}, s.entry t = some e → EntryChain s t e bs →
      ∀ b ∈ bs, s'.page b = s.page b := fun he hch _ hb => hc.chain h.kind_zero he hch hb
  refine ⟨hc.committed.layout, hc.same h.kind_zero (by decide) (by decide) (by decide)
    (by rintro k (rfl | rfl | rfl) <;> decide), hdict, hchain, fun x r => ?_⟩
  constructor
  · rintro ⟨t, e, bs, he, hx, hch, hr⟩
    rw [hentry] at he
    obtain ⟨bs₀, hch₀, -⟩ := h.chains.chain t e he
    obtain rfl := (hch₀.congr (hchain he hch₀)).unique hch
    rw [entryRefs_congr (hchain he hch₀)] at hr
    exact ⟨t, e, bs₀, he, hx, hch₀, hr⟩
  · rintro ⟨t, e, bs, he, hx, hch, hr⟩
    exact ⟨t, e, bs, by rw [hentry]; exact he, hx, hch.congr (hchain he hch), by
      rw [entryRefs_congr (hchain he hch)]; exact hr⟩

theorem chains {M : MetaBody} (hc : OffCommit strong s s' M ps) (h : WF strong s m) :
    ChainsOk s' := by
  have hs := hc.step h
  refine ⟨fun t e he => ?_, fun b t ht => ?_⟩
  · rw [hs.entry] at he
    obtain ⟨bs, hch, hp⟩ := h.chains.chain t e he
    exact ⟨bs, hch.congr (hs.chain he hch), by rw [entryRefs_congr (hs.chain he hch)]; exact hp⟩
  · rw [hs.entry]
    rcases hc.body_of_tag ht with ⟨p, hp, -, heq⟩ | heq
    · rw [heq] at ht
      rcases (hc.off p hp).new with hk | ⟨u, e, hu, he⟩
      · exact absurd hk ((isPosting_of_tag ht).ne (by decide))
      · rw [hu] at ht
        cases ht
        exact ⟨e, he⟩
    · rw [heq] at ht
      exact h.chains.tag b t ht

theorem refs {M : MetaBody} (hc : OffCommit strong s s' M ps) (h : WF strong s m) :
    RefsOk s' := by
  have hs := hc.step h
  have hknown : ∀ r, s.Known r → s'.Known r := fun r => (Store.known_same hs.owners).2
  refine ⟨fun t e he => ?_, fun t e r he hr => ?_, fun b r hr => ?_,
    fun b r offset payload hb => ?_⟩
  · rw [hs.entry] at he
    exact hknown _ (h.refs.first t e he)
  · rw [hs.entry] at he
    exact hknown _ (h.refs.second t e r he hr)
  · obtain ⟨t, ht⟩ := postingRefs_tag hr
    rcases hc.body_of_tag ht with ⟨p, hp, -, heq⟩ | heq
    · rw [heq] at hr
      exact hknown _ ((hc.off p hp).refs r hr)
    · rw [heq] at hr
      exact hknown _ (h.refs.posting b r hr)
  · have hfrag : Same (· = .fragment) s s' := hc.same h.kind_zero (by decide) (by decide)
      (by decide) (by rintro k (rfl | rfl | rfl) <;> decide)
    rw [hfrag.body (.inr (by rw [hb]; rfl))] at hb
    exact hknown _ (h.refs.fragment b r offset payload hb)

theorem direct {M : MetaBody} (hc : OffCommit strong s s' M ps) (h : WF strong s m) :
    DirectOk strong s' := by
  have hown := (hc.step h).owners
  have hrec : ∀ b x, x ∈ (s'.body b).records → RecordOk strong s x := by
    intro b x hx
    obtain ⟨t, ht⟩ : ∃ t, (s'.body b).postingTag = some t := by
      revert hx
      cases s'.body b <;> simp [Body.records, Body.postingTag]
    rcases hc.body_of_tag ht with ⟨p, hp, -, heq⟩ | heq
    · rw [heq] at hx
      exact (hc.off p hp).records x hx
    · rw [heq] at hx
      exact h.direct.record hx
  exact ⟨fun b x o hx ho => (hrec b x hx).root o ((Store.owns_same hown).1 ho),
    fun b x o hx ho => (hrec b x hx).live o ((Store.owns_same hown).1 ho),
    fun hs b x o hx ho => (hrec b x hx).dead hs o ((Store.owns_same hown).1 ho)⟩

end OffCommit

end

/-- The parts that a step off the chains keeps, given the journal, the free list and the links
after it. -/
theorem WF.off_step (h : WF strong s m)
    (hc : CommitOk s (metaPage (m.withJournal journal free) :: ps))
    (hcm : Committed s s' (metaPage (m.withJournal journal free) :: ps))
    (hps : ∀ p ∈ ps, OffPage strong s p) (hj : JournalOk s' journal) (hf : FreeOk s' free)
    (hl : ClosedOk s') : WF strong s' (m.withJournal journal free) ∧ OffStep s s' := by
  have hoff : OffCommit strong s s' (m.withJournal journal free) ps := ⟨hcm, hps⟩
  have hs := hoff.step h
  have hgrp : Same (· = .grouped) s s' := hoff.same h.kind_zero (by decide) (by decide) (by decide)
    (by rintro k (rfl | rfl | rfl) <;> decide)
  exact ⟨⟨hcm.pages h.pages hc, hoff.info, h.owners.imp fun _ ho => ho.same hs.owners,
    h.dict.imp fun _ hd => hd.same hs.dict, hoff.chains h, hoff.refs h, hoff.direct h, hj, hf, hl,
    h.grouped.same hgrp⟩, hs⟩

end

end PinCore
