import PinCore.Compact.Switch

/-!
# The compaction pass

One entry at a time: a dead inline second is dropped, a chain with mutable pages or dead postings
is rewritten and its old pages are freed.  A promoted entry whose chain holds only dead postings
is the one that the pass cannot handle.
-/

namespace PinCore

open Prog

/-- How a chain splits at a retained prefix. -/
def KeptPrefix (s : Store) (keep : List ℕ) (b : ℕ) : Option RetainedPrefix → Prop
  | none => keep = []
  | some x => keep ≠ [] ∧ x.boundary = lastD noBlock keep ∧ x.rewriteHead = b ∧
    ∀ c ∈ keep, RetainedPage s c

section

variable {strong : Prop} {s s' s'' : Store} {m : MetaBody} {V : View} {t : TermRef} {e : Entry}
  {bs keep cs ds : List ℕ} {b : ℕ} {emitted : List OwnerRef} {retained : Option RetainedPrefix}

theorem KeptPrefix.same (hp : ∀ c ∈ keep, s'.page c = s.page c) (ho : Same (· = .owners) s s')
    (h : KeptPrefix s keep b retained) : KeptPrefix s' keep b retained := by
  cases retained with
  | none => exact h
  | some x =>
    refine ⟨h.1, h.2.1, h.2.2.1, fun c hc => ?_⟩
    obtain ⟨h₁, h₂⟩ := h.2.2.2 c hc
    have hbody := Store.body_eq_of_page (hp c hc)
    refine ⟨by rw [hbody]; exact h₁, ?_⟩
    rw [deadRefs, hbody]
    simp only [Store.rootOf_same ho]
    exact h₂

theorem KeptPrefix.rewriteHead (h : KeptPrefix s keep b retained)
    (hch : Chain s t e.head e.tail (keep ++ b :: ds)) :
    (retained.map (·.rewriteHead)).getD e.head = b := by
  cases retained with
  | none =>
    obtain rfl : keep = [] := h
    exact hch.linked.1
  | some x => exact h.2.2.1

theorem replacement_build (cs : List ℕ) :
    replacement (buildJournal cs) = .ok (cs.headD noBlock, lastD noBlock cs) := by
  cases cs <;> rfl

/-- The publication comes down to its commit. -/
theorem publishRewrite_commit {E : Error → Prop} {C : Store → Prop} {Q : PUnit → Store → Prop}
    (h : Building strong V t e s m cs emitted) (hch : Chain s t e.head e.tail (keep ++ b :: ds))
    (hk : KeptPrefix s keep b retained)
    (hc : Spec E C s (commit (publishPages s m t e.tail keep cs b)) Q) :
    Spec E C s (publishRewrite (metaPage m) t e.head e.tail retained) Q := by
  have hw := h.wf
  have hvalid : ∀ c, (s.body c).postingTag = some t → blockValid c := fun c hc =>
    hw.pages.posting_valid (isPosting_of_tag hc)
  have htailv : blockValid e.tail := by
    refine hvalid _ (hch.tagged _ ?_)
    rw [hch.tail_eq]; exact lastD_mem noBlock (by simp)
  have hpair : ∀ bs : List ℕ, (∀ c ∈ bs, (s.body c).postingTag = some t) →
      postingPairValid (bs.headD noBlock) (lastD noBlock bs) := by
    intro bs htag
    by_cases hne : bs = []
    · subst hne; exact .inl ⟨rfl, rfl⟩
    · exact .inr ⟨hvalid _ (htag _ (headD_mem hne)), hvalid _ (htag _ (lastD_mem noBlock hne))⟩
  unfold publishRewrite
  rw [hk.rewriteHead hch]
  refine Spec.ofExcept_bind (metaPage_rewriteJournal hw.metaOk) ?_
  refine Spec.reading_bind (load_returns hw.pages (Store.entry_kind h.entry) (by simp)) ?_
  rintro _ rfl
  refine Spec.ofExcept_bind (term_eq hw.pages h.entry) ?_
  refine Spec.ensure_bind ⟨rfl, rfl⟩ ?_
  rw [h.journal]
  refine Spec.ofExcept_bind (replacement_build cs) ?_
  refine Spec.ofExcept_bind (metaPage_setRewriteJournal ?_) ?_
  · rintro j ⟨⟩
    exact ⟨hvalid b (hch.tagged b (by simp)), htailv⟩
  cases retained with
  | none =>
    obtain rfl : keep = [] := hk
    refine Spec.ofExcept_bind (setPostingChain_eq hw.pages h.entry h.linked.1
      (hpair cs h.chain.tagged)) ?_
    exact hc
  | some x =>
    obtain ⟨hne, hxb, hxr, hkeep⟩ := hk
    have hbm := lastD_mem noBlock hne
    have htag := hch.tagged _ (List.mem_append_left (b :: ds) hbm)
    have hnext : s.next (lastD noBlock keep) = b := by
      have hl := hch.linked
      rw [eq_append_lastD noBlock hne, List.append_assoc] at hl
      exact hl.next_eq
    have hall : ∀ c ∈ keep ++ cs, (s.body c).postingTag = some t := by
      intro c hc
      rcases List.mem_append.1 hc with hc | hc
      · exact hch.tagged c (List.mem_append_left _ hc)
      · exact h.chain.tagged c hc
    have hhead : e.head = (keep ++ cs).headD noBlock := by
      obtain ⟨a, as, rfl⟩ := List.exists_cons_of_ne_nil hne
      exact hch.linked.1
    have htail : (if lastD noBlock cs = noBlock then lastD noBlock keep else lastD noBlock cs) =
        lastD noBlock (keep ++ cs) := by
      by_cases hcs : cs = []
      · subst hcs; simp
      · rw [if_neg fun hz => hcs (h.chain.linked.lastD_eq_stop_iff.1 hz)]
        obtain ⟨c, rest, rfl⟩ := List.exists_cons_of_ne_nil hcs
        rw [lastD_append_cons]
    change Spec E C s (Prog.reading (loadPosting x.boundary t) >>= _) Q
    rw [hxb]
    refine Spec.reading_bind (loadPosting_returns hw.pages htag) ?_
    rintro _ rfl
    refine Spec.ensure_bind ⟨(hkeep _ hbm).1, hnext⟩ ?_
    refine Spec.ofExcept_bind (setNext_eq (boundary_nextOk h hch hne)) ?_
    refine Spec.ofExcept_bind (a := (s.page t.page).updateEntry t
      (Entry.onChain (keep ++ cs))) ?_ ?_
    · have hset := setPostingChain_eq hw.pages h.entry h.linked.1 (hpair _ hall)
      rw [← hhead, ← htail] at hset
      rw [Entry.onChain, ← hhead, ← htail]
      exact hset
    · rw [publishPages, if_neg hne] at hc
      exact hc

/-- Before the first posting nothing is built. -/
theorem Building.start (h : WF strong s m) (hv : Shows s V) (hj : m.journal = none)
    (he : s.entry t = some e) (hi : e.inline ≠ 1) (hh : e.head ≠ noBlock) :
    Building strong V t e s m [] [] where
  wf := h
  shows := hv
  entry := he
  linked := ⟨hi, hh⟩
  journal := hj
  chain := ⟨rfl, rfl, fun _ hc => absurd hc List.not_mem_nil⟩
  refs := rfl
  kind _ hc := absurd hc List.not_mem_nil

/-- Output pages exist exactly if something was emitted. -/
theorem Building.nil_iff (h : Building strong V t e s m cs emitted) : cs = [] ↔ emitted = [] := by
  rw [← h.refs]
  refine ⟨fun hcs => by rw [hcs]; rfl, fun hr => ?_⟩
  by_contra hne
  obtain ⟨c, rest, rfl⟩ := List.exists_cons_of_ne_nil hne
  have hk := h.kind c List.mem_cons_self
  have hnil : (s.body c).postingRefs = [] := (List.append_eq_nil_iff.1 hr).1
  refine postingRefs_ne_nil (h.wf.pages.ok c) (h.chain.tagged c List.mem_cons_self) ?_ hnil
  rcases hk with hk | hk <;> rw [hk] <;> decide

/-- A rewrite comes down to its publication. -/
theorem rewrite_publish {direct : Bool} {Q : ℕ × ℕ → Store → Prop} (h : WF strong s m)
    (hv : Shows s V) (hj : m.journal = none) (he : s.entry t = some e) (hi : e.inline ≠ 1)
    (hch : Chain s t e.head e.tail (keep ++ b :: ds)) (hk : KeptPrefix s keep b retained)
    {E : Error → Prop} (hE : ∀ x, HostRefused x → E x)
    (hp : ∀ s₁ m₁ cs n, Building strong V t e s₁ m₁ cs (liveRefs s (chainRefs s (b :: ds))) →
      m₁.core = m.core → OffStep s s₁ →
      Spec E (Good strong V) s₁ (do
        publishRewrite (metaPage m₁) t e.head e.tail retained
        return n) Q) :
    Spec E (Good strong V) s (rewrite (metaPage m) t e.head e.tail retained direct) Q := by
  have hh : e.head ≠ noBlock := by
    cases keep with
    | nil => rw [hch.linked.1]; exact hch.linked.2.1
    | cons a as => rw [hch.linked.1]; exact hch.linked.2.1
  have hentry : EntryChain s t e (keep ++ b :: ds) := (entryChain_of_ne hi).2 hch
  have hsorted : (chainRefs s (b :: ds)).Pairwise OwnerRef.Before := by
    obtain ⟨cs, hcs, hs⟩ := h.chains.chain t e he
    rw [hcs.unique hentry, entryRefs, chainRefs_append] at hs
    have := (List.pairwise_append.1 (List.pairwise_cons.1 hs).2).2.1
    exact (List.pairwise_append.1 this).2.1
  have hstart : Emitted strong V t e m.core direct s ⟨metaPage m, none, 0, 0⟩ [] :=
    ⟨⟨m, [], [], [], rfl, Building.start h hv hj he hi hh, ⟨rfl, rfl⟩, rfl⟩,
      ⟨fun _ hr => absurd hr List.not_mem_nil, List.Pairwise.nil⟩⟩
  have hlen : ds.length < s.blocks := by
    have := hch.length_le h.pages
    rw [List.length_append, List.length_cons] at this
    omega
  unfold rewrite
  refine Spec.ofExcept_bind (metaPage_rewriteJournal h.metaOk) ?_
  refine Spec.ensure_bind hj ?_
  refine Spec.reading_bind blocks_returns ?_
  rintro _ rfl
  rw [hk.rewriteHead hch]
  refine ((rewriteFrom_spec hstart hch CacheOk.none hlen hsorted).weaken hE).bind ?_
  rintro st s₁ ⟨hem, hoff⟩
  refine ((finishOutput_spec hem).weaken hE).bind ?_
  rintro st' s₂ ⟨m', cs, hinfo, hbuild, hcore, hoff'⟩
  rw [hinfo]
  exact hp s₂ m' cs (st'.written, st'.reused) hbuild hcore (hoff.trans hoff')

/-- The metapage after a step of the pass: no journal, and the pass reads the same buckets. -/
structure PassStep (strong : Prop) (V : View) (T : TermRef → Prop) (s : Store) (m : MetaBody)
    (s' : Store) (m' : MetaBody) : Prop where
  wf : WF strong s' m'
  shows : Shows s' V
  core : m'.core = m.core
  kept : TermsKept T s s'

theorem liveRefs_congr (hp : ∀ c ∈ bs, s'.page c = s.page c) (ho : Same (· = .owners) s s') :
    liveRefs s' (chainRefs s' bs) = liveRefs s (chainRefs s bs) := by
  rw [liveRefs_same ho, chainRefs_congr hp]

/-- A rewrite that leaves a chain, or an entry that may have none. -/
theorem rewrite_spec {direct : Bool} (h : WF strong s m) (hv : Shows s V) (hj : m.journal = none)
    (he : s.entry t = some e) (hi : e.inline ≠ 1)
    (hch : Chain s t e.head e.tail (keep ++ b :: ds)) (hk : KeptPrefix s keep b retained)
    (h2 : e.inline = 2 → keep ≠ [] ∨ liveRefs s (chainRefs s (b :: ds)) ≠ []) :
    Spec HostRefused (Good strong V) s (rewrite (metaPage m) t e.head e.tail retained direct)
      fun _ s' => ∃ m', PassStep strong V (· ≠ t) s m s' m' := by
  have hentry : EntryChain s t e (keep ++ b :: ds) := (entryChain_of_ne hi).2 hch
  refine rewrite_publish h hv hj he hi hch hk (fun _ => id) fun s₁ m₁ cs n hbuild hcore hoff => ?_
  have hpage := hoff.chain he hentry
  have hkpage : ∀ c ∈ keep, s₁.page c = s.page c := fun c hc => hpage c (List.mem_append_left _ hc)
  have hspage : ∀ c ∈ b :: ds, s₁.page c = s.page c := fun c hc =>
    hpage c (List.mem_append_right _ hc)
  have hch₁ := hch.congr hpage
  obtain ⟨hc, hpost⟩ := publish_step hbuild hch₁ (liveRefs_congr hspage hoff.owners).symm (by
    intro hi2
    rcases h2 hi2 with hne | hne
    · exact fun hnil => hne (List.append_eq_nil_iff.1 hnil).1
    · exact fun hnil => hne (hbuild.nil_iff.1 (List.append_eq_nil_iff.1 hnil).2))
  refine Spec.bind (publishRewrite_commit hbuild hch₁ (hk.same hkpage hoff.owners)
    (commit_spec hc fun s' hcm => ⟨_, (hpost s' hcm).1, (hpost s' hcm).2.1⟩)) fun _ s' hcm => ?_
  obtain ⟨hw', hv', hkept⟩ := hpost s' hcm
  exact Spec.pure ⟨_, hw', hv', hcore, hoff.kept.trans hkept⟩

/-! ### The entry that cannot be compacted -/

/-- A promoted entry whose chain holds no live posting. -/
def DeadChain (s : Store) (t : TermRef) (e : Entry) : Prop :=
  e.inline = 2 ∧ ∃ bs, EntryChain s t e bs ∧ ∀ r ∈ chainRefs s bs, s.rootOf r = none

theorem DeadChain.kept {T : TermRef → Prop} (hk : TermsKept T s s') (ht : T t)
    (he : s.entry t = some e) (h : DeadChain s t e) : DeadChain s' t e := by
  obtain ⟨h2, bs, hch, hdead⟩ := h
  have hpage := hk.chain ht he hch
  refine ⟨h2, bs, hch.congr hpage, fun r hr => ?_⟩
  rw [chainRefs_congr hpage] at hr
  rw [Store.rootOf_same hk.owners]
  exact hdead r hr

theorem DeadChain.of_kept {T : TermRef → Prop} (hk : TermsKept T s s') (ht : T t)
    (hw : WF strong s m)
    (he : s.entry t = some e) (h : DeadChain s' t e) : DeadChain s t e := by
  obtain ⟨h2, bs, hch, hdead⟩ := h
  obtain ⟨cs, hcs, -⟩ := hw.chains.chain t e he
  have hpage := hk.chain ht he hcs
  obtain rfl := (hcs.congr hpage).unique hch
  refine ⟨h2, cs, hcs, fun r hr => ?_⟩
  rw [← chainRefs_congr hpage] at hr
  rw [← Store.rootOf_same hk.owners]
  exact hdead r hr

theorem commit_fails {C : Store → Prop} {ps : List Page} (h : ¬ CommitOk s ps) :
    Spec (fun _ => True) C s (commit ps) fun _ _ => False := by
  refine Spec.step ?_
  rw [if_neg h]
  trivial

/-- The validator rejects a promoted entry without a chain. -/
theorem publish_fails (hw : WF strong s m) (he : s.entry t = some e) (h2 : e.inline = 2)
    {tail : ℕ} :
    ¬ CommitOk s (publishPages s m t tail [] [] b) := by
  rintro ⟨-, -, hall, -⟩
  obtain ⟨p, es, hbody, hok⟩ := entry_body hw.pages he
  have hp : p = true := by
    cases p with
    | true => rfl
    | false => have := hok.range; rw [h2] at this; simp at this
  subst hp
  have hv := (hall ((s.page t.page).updateEntry t (Entry.onChain [])) (by simp [publishPages])).1
  have hupd : ((s.page t.page).updateEntry t (Entry.onChain [])).body =
      .dictionary true (Page.modifyEntry true t.offset (Entry.onChain []) pageHeader es) := by
    rw [Page.updateEntry, show (s.page t.page).body = _ from hbody]
  have hblock : ((s.page t.page).updateEntry t (Entry.onChain [])).block = t.page := by
    rw [Page.updateEntry, show (s.page t.page).body = _ from hbody]
    exact hw.pages.block _
  have hmem : Entry.onChain [] e ∈
      Page.modifyEntry true t.offset (Entry.onChain []) pageHeader es := by
    have hterm : ∀ x, (Entry.onChain [] x).term = x.term := fun _ => rfl
    have hfind : findEntry true t.offset pageHeader es = some e := by
      rw [Store.entry, hbody] at he; exact he
    have hnew : findEntry true t.offset pageHeader
        (Page.modifyEntry true t.offset (Entry.onChain []) pageHeader es) =
        some (Entry.onChain [] e) := by
      rw [findEntry_modify hterm, if_pos rfl, hfind]; rfl
    exact findEntry_mem hnew
  have hbad := hv.body
  rw [hupd, hblock] at hbad
  exact ((hbad _ hmem).state.shadow rfl h2).1 rfl

theorem rewrite_fails {direct : Bool} (h : WF strong s m) (hv : Shows s V) (hj : m.journal = none)
    (he : s.entry t = some e) (h2 : e.inline = 2) (hch : Chain s t e.head e.tail (b :: ds))
    (hdead : liveRefs s (chainRefs s (b :: ds)) = []) :
    Spec (fun _ => True) (Good strong V) s (rewrite (metaPage m) t e.head e.tail none direct)
      fun _ _ => False := by
  have hi : e.inline ≠ 1 := by rw [h2]; decide
  have hentry : EntryChain s t e (b :: ds) := (entryChain_of_ne hi).2 hch
  have hch' : Chain s t e.head e.tail ([] ++ b :: ds) := hch
  have hk : KeptPrefix s [] b none := rfl
  refine rewrite_publish h hv hj he hi hch' hk (fun _ _ => trivial)
    fun s₁ m₁ cs n hbuild hcore hoff => ?_
  have hch₁ := hch'.congr (hoff.chain he hentry)
  obtain rfl : cs = [] := hbuild.nil_iff.2 hdead
  refine Spec.bind (publishRewrite_commit hbuild hch₁ rfl
    (commit_fails (publish_fails hbuild.wf hbuild.entry h2))) fun _ _ hf => hf.elim

/-! ### One entry -/

/-- The entry without its second owner. -/
def Entry.single (e : Entry) : Entry :=
  { e with second := none, inline := 0, head := noBlock, tail := noBlock }

theorem clearSecond_eq {p : Bool} {second : OwnerRef} (hp : PagesOk s) (he : s.entry t = some e)
    (hok : e.Ok p t.page) (hb : ∃ es, s.body t.page = .dictionary p es)
    (hin : (e.toTerm t).inlineSecond = some second) :
    (s.page t.page).setInlineSecond t none =
      .ok ((s.page t.page).updateEntry t Entry.single) := by
  obtain ⟨rfl, -, -, hh, ht⟩ := inlineSecond_eq_some hok hin
  obtain ⟨es, hb⟩ := hb
  have hfmt : ¬ (s.page t.page).packedDictionaryFormat = false := by
    rw [Page.packedDictionaryFormat, show (s.page t.page).body = _ from hb]; simp
  rw [Page.setInlineSecond, if_neg hfmt, term_eq hp he]
  refine if_neg ?_
  rw [hp.block, hin]
  simpa [Entry.toTerm] using ⟨hh, ht⟩

/-- Dropping a dead inline second keeps the invariant and the view. -/
theorem single_step {p : Bool} {es : List Entry} {second : OwnerRef} (h : WF strong s m)
    (hv : Shows s V) (he : s.entry t = some e) (hbody : s.body t.page = .dictionary p es)
    (hok : e.Ok p t.page) (hin : (e.toTerm t).inlineSecond = some second)
    (hdead : s.rootOf second = none) :
    CommitOk s [(s.page t.page).updateEntry t Entry.single] ∧
      ∀ s', Committed s s' [(s.page t.page).updateEntry t Entry.single] →
        PassStep strong V (· ≠ t) s m s' m := by
  obtain ⟨rfl, hi, hs, hh, ht⟩ := inlineSecond_eq_some hok hin
  have hkt := Store.entry_kind he
  have ht0 : t.page ≠ 0 := h.ne_zero (hkt.trans_ne (by decide))
  have htn : noBlock ≠ t.page := (h.pages.ne_noBlock (hkt.trans_ne (by decide))).symm
  have hterm : ∀ x, (Entry.single x).term = x.term := fun _ => rfl
  have hnewOk : (Entry.single e).Ok true t.page :=
    ⟨hok.nonempty, hok.length, hok.first, .inl ⟨rfl, rfl⟩, Nat.zero_le _,
      ⟨fun _ => rfl, fun _ _ => ⟨rfl, htn, htn⟩, fun _ h0 => absurd rfl h0,
        fun _ h1 => absurd h1 Nat.zero_ne_one, fun _ h2 => absurd h2 (Nat.zero_ne_add_one 1)⟩⟩
  obtain ⟨hdv, hdb, hdn, hdd⟩ := updateEntry_valid h.pages hterm hbody (t := t) (by
    intro x hx
    rw [he] at hx
    cases hx
    exact hnewOk)
  have hdk : ((s.page t.page).updateEntry t Entry.single).kind ≠ .zero := by
    rw [Page.kind, hdd]; rintro ⟨⟩
  have hc : CommitOk s [(s.page t.page).updateEntry t Entry.single] :=
    commitOk_one hdv hdk (by rw [hdb]; exact h.pages.lt_blocks (hkt.trans_ne (by decide)))
  refine ⟨hc, fun s' hcm => ?_⟩
  obtain ⟨hself, hother⟩ := hcm.one
  rw [hdb] at hself hother
  have hrel : Relinked s s' t := ⟨hcm.layout,
    fun c _ hct => Store.body_eq_of_page (hother c hct), fun c _ hct _ => hother c hct⟩
  have hupd : EntryUpdate s s' t Entry.single := by
    refine ⟨hterm, ⟨true, es, hbody, ?_⟩, ?_, fun c hct _ => hother c hct⟩
    · rw [Store.body, hself]; exact hdd
    · rw [Store.next, hself]; exact hdn
  have hinfo : s'.page 0 = metaPage (m.withJournal m.journal m.freeHead) := by
    rw [hother 0 ht0.symm]; exact h.info
  have hch : EntryChain s t e [] := by rw [EntryChain, if_pos hi]
  have hch' : EntryChain s' t (Entry.single e) [] :=
    ⟨rfl, rfl, fun _ hb => absurd hb List.not_mem_nil⟩
  have hold : entryRefs s e [] = [e.first, second] := by
    rw [entryRefs, Entry.inlineRefs, if_pos hi, hs]; rfl
  have hnew : entryRefs s' (Entry.single e) [] = [e.first] := rfl
  have hjournal : JournalOk s' m.journal := by
    have hpages : ∀ c u, (s.body c).postingTag = some u → s'.page c = s.page c := by
      intro c u hcu
      refine hother c ?_
      rintro rfl
      rw [dictionary_tag hkt] at hcu; cases hcu
    intro j hj
    obtain ⟨u, g, cs, hg, hcs, hne, hsd, htl⟩ := h.journal j hj
    have hpc : ∀ c ∈ cs, s'.page c = s.page c := fun c hc => hpages c u (hcs.tagged c hc)
    by_cases hut : u = t
    · subst hut
      refine ⟨u, Entry.single e, cs, by rw [hupd.self, he]; rfl, hcs.congr hpc, hne, ?_, ?_⟩
      · rw [chainRefs_congr hpc]; exact hsd
      · refine hcs.linked.ne_stop ?_
        rw [hcs.tail_eq]; exact lastD_mem noBlock hne
    · exact ⟨u, g, cs, by rw [hupd.others hut]; exact hg, hcs.congr hpc, hne, by
        rw [chainRefs_congr hpc]; exact hsd, htl⟩
  have hclosed : ClosedOk s' := by
    have hkeep := hcm.keepsWritten (by simpa using hdk)
    refine hcm.closed h.closed (by simpa using hdk) ?_
    rw [List.forall_mem_singleton]
    refine ⟨?_, fun o ho => ?_⟩
    · rw [hdn]
      exact ((h.closed.links (hkt.trans_ne (by decide))).keeps hkeep).next
    · rw [hdd] at ho; exact absurd ho List.not_mem_nil
  have hlive : ∀ r ∈ entryRefs s e [], s.rootOf r ≠ none →
      r ∈ entryRefs s' (Entry.single e) [] := by
    intro r hr hlr
    rw [hold] at hr
    rw [hnew]
    simp only [List.mem_cons, List.not_mem_nil, or_false] at hr ⊢
    rcases hr with rfl | rfl
    · rfl
    · exact absurd hdead hlr
  obtain ⟨hw', hv', hkept⟩ := h.relink hv he hrel hupd (hcm.pages h.pages hc) hinfo rfl
    (fun r hr => absurd hr (Option.not_mem_none r)) hch hch'
      (by rw [hold, hnew]; simp) hlive hjournal hclosed
  exact ⟨hw', hv', rfl, hkept⟩

/-- What a step of the pass leaves: the metapage copy is current and there is no journal. -/
def PassPost (strong : Prop) (V : View) (T : TermRef → Prop) (s : Store) (m : MetaBody)
    (x : Page × CompactStats) (s' : Store) : Prop :=
  ∃ m', x.1 = metaPage m' ∧ m'.journal = none ∧ PassStep strong V T s m s' m'

theorem PassStep.refl {T : TermRef → Prop} (h : WF strong s m) (hv : Shows s V) :
    PassStep strong V T s m s m := ⟨h, hv, rfl, (OffStep.refl s).kept⟩

theorem PassStep.trans {T : TermRef → Prop} {m' m'' : MetaBody} (h : PassStep strong V T s m s' m')
    (h' : PassStep strong V T s' m' s'' m'') : PassStep strong V T s m s'' m'' :=
  ⟨h'.wf, h'.shows, h'.core.trans h.core, h.kept.trans h'.kept⟩

variable {stats : CompactStats} {mode : CompactMode}

theorem compactInline_spec {second : OwnerRef} (h : WF strong s m) (hv : Shows s V)
    (hj : m.journal = none) (he : s.entry t = some e)
    (hin : (e.toTerm t).inlineSecond = some second) :
    Spec HostRefused (Good strong V) s (compactInline t.page t second (metaPage m) stats)
      (PassPost strong V (· ≠ t) s m) := by
  obtain ⟨p, es, hbody, hok⟩ := entry_body h.pages he
  have hsec := (inlineSecond_eq_some hok hin).2.2.1
  refine Spec.reading_bind (resolve_returns h.pages CacheOk.none
    (h.refs.second t e second he hsec)) ?_
  rintro ⟨root, cache⟩ ⟨hroot, -⟩
  have hroot' : s.rootOf second = root := Eq.symm hroot
  cases root with
  | some root => exact Spec.pure ⟨m, rfl, hj, PassStep.refl h hv⟩
  | none =>
    refine (invalidateFrontier_along (T := Grows) h).spec.bind ?_
    rintro _ s₁ ⟨rfl, rfl⟩
    refine Spec.reading_bind (load_returns h.pages (Store.entry_kind he) (by simp)) ?_
    rintro _ rfl
    refine Spec.ofExcept_bind (term_eq h.pages he) ?_
    refine Spec.ensure_bind hin ?_
    refine Spec.ofExcept_bind (clearSecond_eq h.pages he hok ⟨es, hbody⟩ hin) ?_
    obtain ⟨hc, hpost⟩ := single_step h hv he hbody hok hin hroot'
    refine (commit_spec hc fun s' hcm => ⟨m, (hpost s' hcm).wf, (hpost s' hcm).shows⟩).bind
      fun _ s' hcm => ?_
    exact Spec.pure ⟨m, rfl, hj, hpost s' hcm⟩

/-- The chain of an entry passes the inspection, and a retained prefix splits it. -/
theorem inspect_entry (h : WF strong s m) (he : s.entry t = some e) (hi : e.inline ≠ 1)
    (hch : Chain s t e.head e.tail bs) :
    Obs.Returns s (inspect t e.head e.tail (some e.first) true)
      (· = inspectFold s true bs .empty ⟨true, none, 0⟩) := by
  refine inspect_returns h.pages h.refs hch ?_
  obtain ⟨cs, hcs, hs⟩ := h.chains.chain t e he
  rw [hcs.unique ((entryChain_of_ne hi).2 hch), entryRefs, Entry.inlineRefs, if_neg hi] at hs
  exact hs

/-- The split that the inspection reports. -/
theorem inspect_split (hne : bs ≠ []) (mode : CompactMode) :
    ∃ keep b ds, bs = keep ++ b :: ds ∧ KeptPrefix s keep b
      (if mode = .retainSealedPrefix then (inspectFold s true bs .empty ⟨true, none, 0⟩).retained
        else none) := by
  have hplain : ∃ keep b ds, bs = keep ++ b :: ds ∧ KeptPrefix s keep b none := by
    obtain ⟨b, ds, rfl⟩ := List.exists_cons_of_ne_nil hne
    exact ⟨[], b, ds, rfl, rfl⟩
  split_ifs with hm
  · cases hr : (inspectFold s true bs .empty ⟨true, none, 0⟩).retained with
    | none => exact hplain
    | some x =>
      obtain ⟨cs, ds, hbs, hcs, hb, hall⟩ := inspectFold_retained hr
      exact ⟨cs, x.rewriteHead, ds, hbs, hcs, hb, rfl, hall⟩
  · exact hplain

/-- A chain that is not wholly dead below a promoted entry is compacted. -/
theorem compactChain_spec (h : WF strong s m) (hv : Shows s V) (hj : m.journal = none)
    (he : s.entry t = some e) (hi : e.inline ≠ 1) (hh : e.head ≠ noBlock)
    (hdead : ¬ DeadChain s t e) :
    Spec HostRefused (Good strong V) s (compactChain mode (e.toTerm t) (metaPage m) stats)
      (PassPost strong V (· ≠ t) s m) := by
  obtain ⟨bs, hentry, -⟩ := h.chains.chain t e he
  have hch := (entryChain_of_ne hi).1 hentry
  have hne : bs ≠ [] := fun hnil => hh (hch.linked.head_eq_stop_iff.2 hnil)
  refine Spec.reading_bind (inspect_entry h he hi hch) ?_
  rintro _ rfl
  split
  · exact Spec.pure ⟨m, rfl, hj, PassStep.refl h hv⟩
  · obtain ⟨keep, b, ds, rfl, hk⟩ := inspect_split (s := s) hne mode
    refine (invalidateFrontier_along (T := Grows) h).spec.bind ?_
    rintro _ s₁ ⟨rfl, rfl⟩
    have h2 : e.inline = 2 → keep ≠ [] ∨ liveRefs s₁ (chainRefs s₁ (b :: ds)) ≠ [] := by
      intro hi2
      by_contra hcon
      obtain ⟨hkeep, hlive⟩ := not_or.1 hcon
      obtain rfl := not_not.1 hkeep
      refine hdead ⟨hi2, _, hentry, fun r hr => ?_⟩
      by_contra hr'
      refine List.not_mem_nil (a := r) ?_
      rw [← not_not.1 hlive]
      exact List.mem_filter.2 ⟨hr, by simpa using hr'⟩
    refine (rewrite_spec h hv hj he hi hch hk h2).bind ?_
    rintro ⟨written, reused⟩ s₂ ⟨m₂, hstep₂⟩
    refine (recoverCompaction_spec hstep₂.wf hstep₂.shows).bind ?_
    rintro reclaimed s₃ ⟨bs₃, -, -, hfreed, -⟩
    obtain ⟨free, hw₃⟩ := hfreed.wf
    have hv₃ := hstep₂.shows.of_step hfreed.off
    refine Spec.reading_bind hw₃.loadInfo ?_
    rintro _ rfl
    exact Spec.pure ⟨_, rfl, rfl, hstep₂.trans ⟨hw₃, hv₃, rfl, hfreed.off.kept⟩⟩

/-- A promoted entry with a dead chain stops the pass. -/
theorem compactChain_fails (h : WF strong s m) (hv : Shows s V) (hj : m.journal = none)
    (he : s.entry t = some e) (hh : e.head ≠ noBlock) (hdead : DeadChain s t e) :
    Spec (fun _ => True) (Good strong V) s (compactChain mode (e.toTerm t) (metaPage m) stats)
      fun _ _ => False := by
  obtain ⟨h2, bs, hentry, hall⟩ := hdead
  have hi : e.inline ≠ 1 := by rw [h2]; decide
  have hch := (entryChain_of_ne hi).1 hentry
  have hne : bs ≠ [] := fun hnil => hh (hch.linked.head_eq_stop_iff.2 hnil)
  refine Spec.reading_bind (inspect_entry h he hi hch) ?_
  rintro _ rfl
  have hfirst : ∀ c ∈ bs, ∀ r ∈ (s.body c).postingRefs, s.rootOf r = none := fun c hc r hr =>
    hall r (mem_chainRefs.2 ⟨c, hc, hr⟩)
  have hwork : ¬ ((inspectFold s true bs .empty ⟨true, none, 0⟩).mutablePages = 0 ∧
      (inspectFold s true bs .empty ⟨true, none, 0⟩).dead = 0) := by
    obtain ⟨b, ds, rfl⟩ := List.exists_cons_of_ne_nil hne
    exact inspectFold_dead h.pages (hch.tagged b List.mem_cons_self) (hfirst b List.mem_cons_self)
  rw [if_neg fun hc => hwork ⟨hc.1, hc.2.1⟩]
  obtain ⟨keep, b, ds, rfl, hk⟩ := inspect_split (s := s) hne mode
  -- a retained page holds a live posting
  have hret : (if mode = .retainSealedPrefix then
      (inspectFold s true (keep ++ b :: ds) .empty ⟨true, none, 0⟩).retained else none) = none := by
    generalize (if mode = .retainSealedPrefix then
      (inspectFold s true (keep ++ b :: ds) .empty ⟨true, none, 0⟩).retained else none) = ret at hk
    cases ret with
    | none => rfl
    | some x =>
      obtain ⟨hkne, -, -, hkeep⟩ := hk
      obtain ⟨c, rest, rfl⟩ := List.exists_cons_of_ne_nil hkne
      obtain ⟨hck, hcd⟩ := hkeep c List.mem_cons_self
      have hall' : deadRefs s c = (s.body c).postingRefs := by
        refine List.filter_eq_self.2 fun r hr => ?_
        simpa using hfirst c (by simp) r hr
      rw [hall'] at hcd
      exact absurd hcd (postingRefs_ne_nil (h.pages.ok c) (hch.tagged c (by simp))
        (by rw [hck]; decide))
  rw [hret] at hk
  obtain rfl : keep = [] := hk
  refine (invalidateFrontier_along (T := Grows) h).spec.bind ?_
  rintro _ s₁ ⟨rfl, rfl⟩
  rw [hret]
  refine Spec.bind (rewrite_fails h hv hj he h2 hch ?_) fun _ _ hf => hf.elim
  refine List.filter_eq_nil_iff.2 fun r hr => ?_
  simpa using hall r hr

theorem DeadChain.head_ne (h : WF strong s m) (he : s.entry t = some e) (hd : DeadChain s t e) :
    e.head ≠ noBlock := by
  obtain ⟨p, es, -, hok⟩ := entry_body h.pages he
  have hp : p = true := by
    cases p with
    | true => rfl
    | false => have := hok.range; rw [hd.1] at this; simp at this
  exact (hok.state.shadow hp hd.1).1

theorem compactEntry_spec {bucket : ℕ} (h : WF strong s m) (hv : Shows s V) (hj : m.journal = none)
    (he : s.entry t = some e) (hb : bucketFor e.term = bucket) (hdead : ¬ DeadChain s t e) :
    Spec HostRefused (Good strong V) s
      (compactEntry mode bucket t.page (e.toTerm t) (metaPage m) stats)
      (PassPost strong V (· ≠ t) s m) := by
  refine Spec.ensure_bind hb ?_
  change Spec _ _ _ (if e.head = noBlock then _ else _) _
  split_ifs with hh
  · exact Spec.pure ⟨m, rfl, hj, PassStep.refl h hv⟩
  · cases hin : (e.toTerm t).inlineSecond with
    | some second => exact compactInline_spec h hv hj he hin
    | none =>
      obtain ⟨p, es, -, hok⟩ := entry_body h.pages he
      exact compactChain_spec h hv hj he (inlineSecond_eq_none hok hin) hh hdead

theorem compactEntry_fails {bucket : ℕ} (h : WF strong s m) (hv : Shows s V) (hj : m.journal = none)
    (he : s.entry t = some e) (hb : bucketFor e.term = bucket) (hdead : DeadChain s t e) :
    Spec (fun _ => True) (Good strong V) s
      (compactEntry mode bucket t.page (e.toTerm t) (metaPage m) stats) fun _ _ => False := by
  refine Spec.ensure_bind hb ?_
  change Spec _ _ _ (if e.head = noBlock then _ else _) _
  have hh := hdead.head_ne h he
  rw [if_neg hh]
  have hin : (e.toTerm t).inlineSecond = none := if_neg (by rw [hdead.1]; decide)
  rw [hin]
  exact compactChain_fails h hv hj he hh hdead

/-! ### The entries of a page -/

/-- Entries of the store at distinct places of one dictionary page. -/
structure Listed (s : Store) (bucket block : ℕ) (ps : List (TermRef × Entry)) : Prop where
  entry : ∀ q ∈ ps, s.entry q.1 = some q.2
  page : ∀ q ∈ ps, q.1.page = block
  route : ∀ q ∈ ps, bucketFor q.2.term = bucket
  nodup : (ps.map Prod.fst).Nodup

variable {bucket block : ℕ} {ps : List (TermRef × Entry)} {q : TermRef × Entry}

theorem Listed.tail (h : Listed s bucket block (q :: ps)) (hk : TermsKept (· ≠ q.1) s s') :
    Listed s' bucket block ps := by
  obtain ⟨hnot, hnd⟩ := List.nodup_cons.1 h.nodup
  have hne : ∀ x ∈ ps, x.1 ≠ q.1 := fun x hx heq => hnot (heq ▸ List.mem_map_of_mem hx)
  exact ⟨fun x hx => (hk.entry x.1 (hne x hx)).trans (h.entry x (List.mem_cons_of_mem _ hx)),
    fun x hx => h.page x (List.mem_cons_of_mem _ hx),
    fun x hx => h.route x (List.mem_cons_of_mem _ hx), hnd⟩

theorem Listed.ne (h : Listed s bucket block (q :: ps)) {x : TermRef × Entry} (hx : x ∈ ps) :
    x.1 ≠ q.1 :=
  fun heq => (List.nodup_cons.1 h.nodup).1 (heq ▸ List.mem_map_of_mem hx)

theorem compactEntries_spec (h : WF strong s m) (hv : Shows s V) (hj : m.journal = none)
    (hl : Listed s bucket block ps) (hdead : ∀ q ∈ ps, ¬ DeadChain s q.1 q.2) :
    Spec HostRefused (Good strong V) s
      (compactEntries mode bucket block (ps.map fun q => q.2.toTerm q.1) (metaPage m) stats)
      (PassPost strong V (· ∉ ps.map Prod.fst) s m) := by
  induction ps generalizing s m stats with
  | nil => exact Spec.pure ⟨m, rfl, hj, PassStep.refl h hv⟩
  | cons q ps ih =>
    have hq := hl.page q List.mem_cons_self
    have hentry := hl.entry q List.mem_cons_self
    refine Spec.bind (hq ▸ compactEntry_spec h hv hj hentry (hl.route q List.mem_cons_self)
      (hdead q List.mem_cons_self)) ?_
    rintro ⟨_, stats'⟩ s' ⟨m', rfl, hj', hstep⟩
    refine (ih hstep.wf hstep.shows hj' (hl.tail hstep.kept) fun x hx hd => ?_).post ?_
    · refine hdead x (List.mem_cons_of_mem _ hx) ?_
      exact hd.of_kept hstep.kept (hl.ne hx) h (hl.entry x (List.mem_cons_of_mem _ hx))
    · rintro x s'' ⟨m'', hx, hj'', hstep'⟩
      have h₁ : TermsKept (· ∉ (q :: ps).map Prod.fst) s s' :=
        hstep.kept.mono fun u hu heq => hu (heq ▸ List.mem_cons_self)
      have h₂ : TermsKept (· ∉ (q :: ps).map Prod.fst) s' s'' :=
        hstep'.kept.mono fun u hu hm => hu (List.mem_cons_of_mem _ hm)
      exact ⟨m'', hx, hj'', hstep'.wf, hstep'.shows, hstep'.core.trans hstep.core, h₁.trans h₂⟩

theorem compactEntries_fails (h : WF strong s m) (hv : Shows s V) (hj : m.journal = none)
    (hl : Listed s bucket block ps) (hdead : ∃ q ∈ ps, DeadChain s q.1 q.2) :
    Spec (fun _ => True) (Good strong V) s
      (compactEntries mode bucket block (ps.map fun q => q.2.toTerm q.1) (metaPage m) stats)
      fun _ _ => False := by
  induction ps generalizing s m stats with
  | nil => obtain ⟨q, hq, -⟩ := hdead; exact absurd hq List.not_mem_nil
  | cons q ps ih =>
    have hq := hl.page q List.mem_cons_self
    have hentry := hl.entry q List.mem_cons_self
    have hroute := hl.route q List.mem_cons_self
    by_cases hd : DeadChain s q.1 q.2
    · exact Spec.bind (hq ▸ compactEntry_fails h hv hj hentry hroute hd) fun _ _ hf => hf.elim
    · refine Spec.bind
        (hq ▸ (compactEntry_spec h hv hj hentry hroute hd).weaken fun _ _ => trivial) ?_
      rintro ⟨_, stats'⟩ s' ⟨m', rfl, hj', hstep⟩
      refine ih hstep.wf hstep.shows hj' (hl.tail hstep.kept) ?_
      obtain ⟨x, hx, hdx⟩ := hdead
      rcases List.mem_cons.1 hx with rfl | hx
      · exact absurd hdx hd
      · exact ⟨x, hx, hdx.kept hstep.kept (hl.ne hx) (hl.entry x (List.mem_cons_of_mem _ hx))⟩

/-! ### The pages of a bucket -/

variable {dc : ℕ → List ℕ} {i : ℕ}

/-- The entries of a dictionary page, as the pass lists them. -/
theorem listed_page (hp : PagesOk s) (hd : DictOk s m.packed m.bucket dc) (hi : i < buckets)
    (hb : b ∈ dc i) : ∃ ps : List (TermRef × Entry),
      (s.page b).terms = .ok (ps.map fun q => q.2.toTerm q.1) ∧ Listed s i b ps ∧
        ∀ u f, u.page = b → s.entry u = some f → (u, f) ∈ ps := by
  obtain ⟨p, es, hbody⟩ := dictionary_of_kind (hd.kind i hi b hb)
  refine ⟨(located p pageHeader es).map fun x => (⟨b, x.1⟩, x.2), ?_, ⟨?_, ?_, ?_, ?_⟩, ?_⟩
  · rw [terms_eq hp hbody, List.map_map]; rfl
  · rintro q hq
    obtain ⟨x, hx, rfl⟩ := List.mem_map.1 hq
    rw [Store.entry, hbody]
    exact mem_located.1 hx
  · rintro q hq
    obtain ⟨x, hx, rfl⟩ := List.mem_map.1 hq
    rfl
  · rintro q hq
    obtain ⟨x, hx, rfl⟩ := List.mem_map.1 hq
    exact hd.route i hi b hb p es hbody x.2 (findEntry_mem (mem_located.1 hx))
  · rw [List.map_map]
    refine List.Nodup.of_map TermRef.offset ?_
    rw [List.map_map]
    have hasc : ((located p pageHeader es).map Prod.fst).Pairwise (· < ·) :=
      List.pairwise_map.2 located_ascending
    exact hasc.imp fun h => Nat.ne_of_lt h
  · rintro u f rfl hf
    rw [Store.entry, hbody] at hf
    exact List.mem_map.2 ⟨(u.offset, f), mem_located.2 hf, rfl⟩

/-- No promoted entry on the pages of `P` has a dead chain. -/
def LiveOn (s : Store) (P : ℕ → Prop) : Prop :=
  ∀ u f, P u.page → s.entry u = some f → ¬ DeadChain s u f

theorem LiveOn.kept {P : ℕ → Prop} {T : TermRef → Prop} (hl : LiveOn s P) (h : WF strong s m)
    (hk : TermsKept T s s') (hT : ∀ u, P u.page → T u) : LiveOn s' P := by
  intro u f hu hf hd
  have hf' := hf
  rw [hk.entry u (hT u hu)] at hf'
  exact hl u f hu hf' (hd.of_kept hk (hT u hu) h hf')

theorem not_mem_listed (hl : Listed s bucket block ps) {u : TermRef} (hu : u.page ≠ block) :
    u ∉ ps.map Prod.fst := by
  intro hm
  obtain ⟨q, hq, rfl⟩ := List.mem_map.1 hm
  exact hu (hl.page q hq)

theorem MetaBody.bucket_core {m' : MetaBody} (h : m'.core = m.core) : m'.bucket = m.bucket :=
  (congrArg MetaBody.bucket h : m'.core.bucket = m.core.bucket)

theorem MetaBody.packed_core {m' : MetaBody} (h : m'.core = m.core) : m'.packed = m.packed :=
  (congrArg MetaBody.packed h : m'.core.packed = m.core.packed)

theorem PassStep.dict {T : TermRef → Prop} {m' : MetaBody} (h : PassStep strong V T s m s' m')
    (hd : DictOk s m.packed m.bucket dc) : DictOk s' m'.packed m'.bucket dc := by
  rw [MetaBody.packed_core h.core, MetaBody.bucket_core h.core]
  exact h.kept.dict _ _ _ hd

theorem compactBucketFrom_spec {as cs : List ℕ} {fuel : ℕ} (h : WF strong s m) (hv : Shows s V)
    (hj : m.journal = none) (hd : DictOk s m.packed m.bucket dc) (hi : i < buckets)
    (hbs : dc i = as ++ b :: cs) (hfuel : cs.length < fuel) (hlive : LiveOn s (· ∈ b :: cs)) :
    Spec HostRefused (Good strong V) s
      (compactBucketFrom mode i (m.bucket i).2 fuel b (metaPage m) stats)
      (PassPost strong V (fun u => u.page ∉ b :: cs) s m) := by
  induction fuel generalizing s m b as cs stats with
  | zero => exact absurd hfuel (Nat.not_lt_zero _)
  | succ fuel ih =>
    have hb : b ∈ dc i := by rw [hbs]; simp
    obtain ⟨ps, hterms, hl, hall⟩ := listed_page h.pages hd hi hb
    refine Spec.reading_bind (load_returns h.pages (hd.kind i hi b hb) (by simp)) ?_
    rintro _ rfl
    refine Spec.ofExcept_bind hterms ?_
    refine (compactEntries_spec h hv hj hl fun q hq => ?_).bind ?_
    · refine hlive q.1 q.2 ?_ (hl.entry q hq)
      rw [hl.page q hq]; exact List.mem_cons_self
    rintro ⟨_, stats'⟩ s' ⟨m', rfl, hj', hstep⟩
    have hlink := hd.linked i hi
    have hasc := hd.ascending i hi
    have htail := hd.tail_eq i hi
    rw [hbs] at hlink hasc htail
    refine Spec.ofExcept_bind (following_eq hlink hasc htail (h.pages.block b)) ?_
    have h₁ : TermsKept (fun u => u.page ∉ b :: cs) s s' :=
      hstep.kept.mono fun u hu => not_mem_listed hl fun heq => hu (heq ▸ List.mem_cons_self)
    cases cs with
    | nil => exact Spec.pure ⟨m', rfl, hj', hstep.wf, hstep.shows, hstep.core, h₁⟩
    | cons c cs =>
      have hbs' : dc i = (as ++ [b]) ++ c :: cs := by rw [hbs, List.append_assoc]; rfl
      have hnb : b ∉ c :: cs := by
        have := (List.nodup_append.1 hlink.nodup).2.1
        exact (List.nodup_cons.1 this).1
      have hlive' : LiveOn s' (· ∈ c :: cs) := by
        have hrest : LiveOn s (· ∈ c :: cs) := fun u f hu => hlive u f (List.mem_cons_of_mem _ hu)
        refine hrest.kept h hstep.kept fun u hu => not_mem_listed hl fun heq => hnb (heq ▸ hu)
      have hlen : cs.length < fuel := by simp only [List.length_cons] at hfuel; omega
      rw [← MetaBody.bucket_core hstep.core]
      refine (ih hstep.wf hstep.shows hj' (hstep.dict hd) hbs' hlen hlive').post ?_
      rintro x s'' ⟨m'', hx, hj'', hstep'⟩
      have h₂ : TermsKept (fun u => u.page ∉ b :: c :: cs) s' s'' :=
        hstep'.kept.mono fun u hu hm => hu (List.mem_cons_of_mem _ hm)
      exact ⟨m'', hx, hj'', hstep'.wf, hstep'.shows, hstep'.core.trans hstep.core, h₁.trans h₂⟩

theorem compactBucketFrom_fails {as cs : List ℕ} {fuel : ℕ} (h : WF strong s m) (hv : Shows s V)
    (hj : m.journal = none) (hd : DictOk s m.packed m.bucket dc) (hi : i < buckets)
    (hbs : dc i = as ++ b :: cs) (hdead : ¬ LiveOn s (· ∈ b :: cs)) :
    Spec (fun _ => True) (Good strong V) s
      (compactBucketFrom mode i (m.bucket i).2 fuel b (metaPage m) stats) fun _ _ => False := by
  induction fuel generalizing s m b as cs stats with
  | zero => exact ⟨fun _ hs => absurd hs List.not_mem_nil, trivial⟩
  | succ fuel ih =>
    have hb : b ∈ dc i := by rw [hbs]; simp
    obtain ⟨ps, hterms, hl, hall⟩ := listed_page h.pages hd hi hb
    refine Spec.reading_bind (load_returns h.pages (hd.kind i hi b hb) (by simp)) ?_
    rintro _ rfl
    refine Spec.ofExcept_bind hterms ?_
    by_cases hpage : ∃ q ∈ ps, DeadChain s q.1 q.2
    · exact (compactEntries_fails h hv hj hl hpage).bind fun _ _ hf => hf.elim
    · have hok : ∀ q ∈ ps, ¬ DeadChain s q.1 q.2 := fun q hq hdq => hpage ⟨q, hq, hdq⟩
      refine ((compactEntries_spec h hv hj hl hok).weaken fun _ _ => trivial).bind ?_
      rintro ⟨_, stats'⟩ s' ⟨m', rfl, hj', hstep⟩
      have hlink := hd.linked i hi
      have hasc := hd.ascending i hi
      have htail := hd.tail_eq i hi
      rw [hbs] at hlink hasc htail
      refine Spec.ofExcept_bind (following_eq hlink hasc htail (h.pages.block b)) ?_
      -- the dead chain is on a later page
      obtain ⟨u, f, hu, hf, hdu⟩ : ∃ u f, u.page ∈ cs ∧ s.entry u = some f ∧ DeadChain s u f := by
        by_contra hcon
        refine hdead fun u f hu hf hdu => ?_
        rcases List.mem_cons.1 hu with hub | hu
        · exact hok (u, f) (hall u f hub hf) hdu
        · exact hcon ⟨u, f, hu, hf, hdu⟩
      cases cs with
      | nil => exact absurd hu List.not_mem_nil
      | cons c cs =>
        have hbs' : dc i = (as ++ [b]) ++ c :: cs := by rw [hbs, List.append_assoc]; rfl
        have hnb : b ∉ c :: cs := by
          have := (List.nodup_append.1 hlink.nodup).2.1
          exact (List.nodup_cons.1 this).1
        have hT : u ∉ ps.map Prod.fst := not_mem_listed hl fun heq => hnb (heq ▸ hu)
        rw [← MetaBody.bucket_core hstep.core]
        refine ih hstep.wf hstep.shows hj' (hstep.dict hd) hbs' fun hlive => ?_
        exact hlive u f hu ((hstep.kept.entry u hT).trans hf) (hdu.kept hstep.kept hT hf)

/-! ### The whole pass -/

/-- The pages of the buckets in a list. -/
def onBuckets (dc : ℕ → List ℕ) (is : List ℕ) (b : ℕ) : Prop := ∃ i ∈ is, b ∈ dc i

variable {is : List ℕ}

/-- A bucket is empty, or the pass walks all of its pages. -/
theorem bucket_cases (hd : DictOk s m.packed m.bucket dc) (hi : i < buckets) :
    ((m.bucket i).1 = noBlock ∧ dc i = []) ∨ ∃ b cs, (m.bucket i).1 = b ∧ b ≠ noBlock ∧
      dc i = b :: cs ∧ cs.length < (m.bucket i).2 + 1 := by
  cases hbs : dc i with
  | nil =>
    have := hd.linked i hi
    rw [hbs] at this
    exact .inl ⟨this, rfl⟩
  | cons b cs =>
    have hl := hd.linked i hi
    have hasc := hd.ascending i hi
    have htail := hd.tail_eq i hi
    rw [hbs] at hl hasc htail
    refine .inr ⟨b, cs, hl.1, hl.2.1, rfl, ?_⟩
    have := ascending_length noBlock hasc
    omega

theorem compactBuckets_spec (h : WF strong s m) (hv : Shows s V) (hj : m.journal = none)
    (hd : DictOk s m.packed m.bucket dc) (his : ∀ i ∈ is, i < buckets) (hnd : is.Nodup)
    (hlive : LiveOn s (onBuckets dc is)) :
    Spec HostRefused (Good strong V) s (compactBuckets mode is (metaPage m) stats)
      (PassPost strong V (fun u => ¬ onBuckets dc is u.page) s m) := by
  induction is generalizing s m stats with
  | nil => exact Spec.pure ⟨m, rfl, hj, PassStep.refl h hv⟩
  | cons i is ih =>
    have hi := his i List.mem_cons_self
    have his' : ∀ k ∈ is, k < buckets := fun k hk => his k (List.mem_cons_of_mem _ hk)
    obtain ⟨hnot, hnd'⟩ := List.nodup_cons.1 hnd
    have hmore : ∀ b, onBuckets dc is b → onBuckets dc (i :: is) b := fun b ⟨k, hk, hb⟩ =>
      ⟨k, List.mem_cons_of_mem _ hk, hb⟩
    refine Spec.ofExcept_bind (metaPage_bucket h.metaOk hi) ?_
    change Spec _ _ _ (if (m.bucket i).1 = noBlock then _ else _) _
    rcases bucket_cases hd hi with ⟨hz, -⟩ | ⟨b, cs, hb, hne, hbs, hlen⟩
    · rw [if_pos hz]
      refine (ih h hv hj hd his' hnd' fun u f hu => hlive u f (hmore _ hu)).post ?_
      rintro x s' ⟨m', hx, hj', hstep⟩
      exact ⟨m', hx, hj', hstep.wf, hstep.shows, hstep.core,
        hstep.kept.mono fun u hu hm => hu (hmore _ hm)⟩
    · rw [if_neg (by rw [hb]; exact hne), hb]
      have hbs' : dc i = [] ++ b :: cs := hbs
      refine (compactBucketFrom_spec h hv hj hd hi hbs' hlen fun u f hu =>
        hlive u f ⟨i, List.mem_cons_self, hbs ▸ hu⟩).bind ?_
      rintro ⟨_, stats'⟩ s' ⟨m', rfl, hj', hstep⟩
      have hT : ∀ u : TermRef, onBuckets dc is u.page → u.page ∉ b :: cs := by
        rintro u ⟨k, hk, huk⟩ hub
        rw [← hbs] at hub
        exact hnot (hd.disjoint (his' k hk) hi huk hub ▸ hk)
      have hlive' : LiveOn s' (onBuckets dc is) := by
        have hrest : LiveOn s (onBuckets dc is) := fun u f hu => hlive u f (hmore _ hu)
        exact hrest.kept h hstep.kept hT
      refine (ih hstep.wf hstep.shows hj' (hstep.dict hd) his' hnd' hlive').post ?_
      rintro x s'' ⟨m'', hx, hj'', hstep'⟩
      have h₁ : TermsKept (fun u => ¬ onBuckets dc (i :: is) u.page) s s' :=
        hstep.kept.mono fun u hu hm => hu ⟨i, List.mem_cons_self, hbs ▸ hm⟩
      have h₂ : TermsKept (fun u => ¬ onBuckets dc (i :: is) u.page) s' s'' :=
        hstep'.kept.mono fun u hu hm => hu (hmore _ hm)
      exact ⟨m'', hx, hj'', hstep'.wf, hstep'.shows, hstep'.core.trans hstep.core, h₁.trans h₂⟩

theorem compactBuckets_fails (h : WF strong s m) (hv : Shows s V) (hj : m.journal = none)
    (hd : DictOk s m.packed m.bucket dc) (his : ∀ i ∈ is, i < buckets) (hnd : is.Nodup)
    (hdead : ¬ LiveOn s (onBuckets dc is)) :
    Spec (fun _ => True) (Good strong V) s (compactBuckets mode is (metaPage m) stats)
      fun _ _ => False := by
  induction is generalizing s m stats with
  | nil => exact absurd (fun u f ⟨k, hk, _⟩ => absurd hk List.not_mem_nil) hdead
  | cons i is ih =>
    have hi := his i List.mem_cons_self
    have his' : ∀ k ∈ is, k < buckets := fun k hk => his k (List.mem_cons_of_mem _ hk)
    obtain ⟨hnot, hnd'⟩ := List.nodup_cons.1 hnd
    refine Spec.ofExcept_bind (metaPage_bucket h.metaOk hi) ?_
    change Spec _ _ _ (if (m.bucket i).1 = noBlock then _ else _) _
    rcases bucket_cases hd hi with ⟨hz, hnil⟩ | ⟨b, cs, hb, hne, hbs, hlen⟩
    · rw [if_pos hz]
      refine ih h hv hj hd his' hnd' fun hlive => hdead ?_
      rintro u f ⟨k, hk, hu⟩
      rcases List.mem_cons.1 hk with rfl | hk
      · rw [hnil] at hu; exact absurd hu List.not_mem_nil
      · exact hlive u f ⟨k, hk, hu⟩
    · rw [if_neg (by rw [hb]; exact hne), hb]
      have hbs' : dc i = [] ++ b :: cs := hbs
      by_cases hlive₁ : LiveOn s (· ∈ b :: cs)
      · refine ((compactBucketFrom_spec h hv hj hd hi hbs' hlen hlive₁).weaken
          fun _ _ => trivial).bind ?_
        rintro ⟨_, stats'⟩ s' ⟨m', rfl, hj', hstep⟩
        refine ih hstep.wf hstep.shows hj' (hstep.dict hd) his' hnd' fun hlive => hdead ?_
        rintro u f ⟨k, hk, hu⟩ hf hdu
        rcases List.mem_cons.1 hk with rfl | hk
        · exact hlive₁ u f (hbs ▸ hu) hf hdu
        · have hT : u.page ∉ b :: cs := by
            rw [← hbs]
            exact fun hub => hnot (hd.disjoint (his' k hk) hi hu hub ▸ hk)
          exact hlive u f ⟨k, hk, hu⟩ ((hstep.kept.entry u hT).trans hf)
            (hdu.kept hstep.kept hT hf)
      · exact (compactBucketFrom_fails h hv hj hd hi hbs' hlive₁).bind fun _ _ hf => hf.elim

/-- A promoted packed entry has lost every posting of its chain. -/
def Store.HasDeadChain (s : Store) : Prop := ∃ t e, s.entry t = some e ∧ DeadChain s t e

theorem liveOn_iff (hd : DictOk s m.packed m.bucket dc) :
    LiveOn s (onBuckets dc (List.range buckets)) ↔ ¬ s.HasDeadChain := by
  constructor
  · rintro hl ⟨u, f, hf, hdu⟩
    obtain ⟨i, hi, hb⟩ := hd.covered u.page (Store.entry_kind hf)
    exact hl u f ⟨i, List.mem_range.2 hi, hb⟩ hf hdu
  · exact fun hn u f _ hf hdu => hn ⟨u, f, hf, hdu⟩

theorem HasDeadChain.kept {T : TermRef → Prop} (hk : TermsKept T s s') (hT : ∀ u, T u)
    (hd : s.HasDeadChain) : s'.HasDeadChain := by
  obtain ⟨u, f, hf, hdu⟩ := hd
  exact ⟨u, f, (hk.entry u (hT u)).trans hf, hdu.kept hk (hT u) hf⟩

theorem HasDeadChain.of_kept {T : TermRef → Prop} (h : WF strong s m) (hk : TermsKept T s s')
    (hT : ∀ u, T u) (hd : s'.HasDeadChain) : s.HasDeadChain := by
  obtain ⟨u, f, hf, hdu⟩ := hd
  rw [hk.entry u (hT u)] at hf
  exact ⟨u, f, hf, hdu.of_kept hk (hT u) h hf⟩

/-- Recovery comes first, so the pass starts without a journal. -/
theorem compactWithMode_pass {E : Error → Prop} {Q : CompactStats → Store → Prop}
    (h : WF strong s m) (hv : Shows s V) (hE : ∀ x, HostRefused x → E x)
    (hp : ∀ s' m' stats, WF strong s' m' → Shows s' V → m'.journal = none → OffStep s s' →
      m'.core = m.core → Spec E (Good strong V) s' (do
        let (_, stats) ← compactBuckets mode (List.range buckets) (metaPage m') stats
        return stats) Q) :
    Spec E (Good strong V) s (compactWithMode mode) Q := by
  refine ((recoverCompaction_spec h hv).weaken hE).bind ?_
  rintro recovered s' ⟨bs, -, -, hfreed, -⟩
  obtain ⟨free, hw⟩ := hfreed.wf
  have hv' := hv.of_step hfreed.off
  refine Spec.reading_bind hw.loadInfo ?_
  rintro _ rfl
  exact hp s' _ _ hw hv' rfl hfreed.off rfl

/-- Compaction of a store without a dead promoted chain succeeds and changes no result. -/
theorem compactWithMode_spec (h : WF strong s m) (hv : Shows s V) (hd : ¬ s.HasDeadChain) :
    Spec HostRefused (Good strong V) s (compactWithMode mode) fun _ s' =>
      ∃ m', WF strong s' m' ∧ Shows s' V ∧ m'.journal = none ∧ m'.core = m.core := by
  refine compactWithMode_pass h hv (fun _ => id) fun s' m' stats hw hv' hj hoff hcore => ?_
  obtain ⟨dc, hdict⟩ := hw.dict
  have hd' : ¬ s'.HasDeadChain := fun hd' =>
    hd (HasDeadChain.of_kept h (hoff.kept (T := fun _ => True)) (fun _ => trivial) hd')
  refine (compactBuckets_spec hw hv' hj hdict (fun i hi => List.mem_range.1 hi) List.nodup_range
    ((liveOn_iff hdict).2 hd')).bind ?_
  rintro ⟨_, stats'⟩ s'' ⟨m'', rfl, hj'', hstep⟩
  exact Spec.pure ⟨m'', hstep.wf, hstep.shows, hj'', hstep.core.trans hcore⟩

/-- Compaction of a store with a dead promoted chain fails, in a state as good as before. -/
theorem compactWithMode_fails (h : WF strong s m) (hv : Shows s V) (hd : s.HasDeadChain) :
    Spec (fun _ => True) (Good strong V) s (compactWithMode mode) fun _ _ => False := by
  refine compactWithMode_pass h hv (fun _ _ => trivial) fun s' m' stats hw hv' hj hoff hcore => ?_
  obtain ⟨dc, hdict⟩ := hw.dict
  have hd' : s'.HasDeadChain :=
    HasDeadChain.kept (hoff.kept (T := fun _ => True)) (fun _ => trivial) hd
  exact (compactBuckets_fails hw hv' hj hdict (fun i hi => List.mem_range.1 hi) List.nodup_range
    fun hl => (liveOn_iff hdict).1 hl hd').bind fun _ _ hf => hf.elim

end

end PinCore
