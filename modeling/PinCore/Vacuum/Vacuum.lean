import PinCore.Vacuum.Mentions

/-!
# Vacuum

Allocation orphans, and the whole of vacuum.  A block that was never written is mentioned by no
page, so the check before its reclamation passes.
-/

namespace PinCore

open Prog

section

variable {E : Error → Prop} {strong : Prop} {removable : RootTid → Bool} {s s' s'' : Store}
  {m m' : MetaBody}
  {V V₀ : View} {b : ℕ} {bs : List ℕ}

/-! ### Blocks that were never written -/

section

variable {target : ℕ}

theorem ne_unwritten (hz : (s.body target).kind = .zero) (hb : (s.body b).kind ≠ .zero) :
    b ≠ target := fun heq => hb (heq ▸ hz)

/-- The ends of a chain of written pages are none that was never written. -/
theorem ends_ne_unwritten (hz : (s.body target).kind = .zero) (hne : target ≠ noBlock)
    {head tail : ℕ} (hl : Linked s.next noBlock head bs) (ht : tail = lastD noBlock bs)
    (hk : ∀ c ∈ bs, (s.body c).kind ≠ .zero) : head ≠ target ∧ tail ≠ target := by
  by_cases hnil : bs = []
  · subst hnil
    rw [show head = noBlock from hl, ht]
    exact ⟨hne.symm, hne.symm⟩
  · refine ⟨ne_unwritten hz (hk _ (hl.head_mem fun hh => hnil (hl.head_eq_stop_iff.1 hh))), ?_⟩
    rw [ht]
    exact ne_unwritten hz (hk _ (lastD_mem noBlock hnil))

theorem tag_written {u : TermRef} (h : (s.body b).postingTag = some u) :
    (s.body b).kind ≠ .zero := by
  intro hk
  rw [zero_tag hk] at h
  cases h

/-- The metapage stores no reference to a block that was never written. -/
theorem WF.info_unnamed (h : WF strong s m) (hz : (s.body target).kind = .zero)
    (hne : target ≠ noBlock) : ¬ (metaPage m).OtherNames target := by
  obtain ⟨os, ho⟩ := h.owners
  obtain ⟨dc, hd⟩ := h.dict
  have howners := ends_ne_unwritten hz hne ho.linked ho.tail_eq fun c hc =>
    ((ho.mem_iff c).1 hc).trans_ne (by decide)
  rintro (hn | hh | ht | hf | ⟨j, hj, hjt⟩ | ⟨i, hi, hit⟩ | hg)
  · exact hne hn.symm
  · exact howners.1 hh
  · exact howners.2 ht
  · by_cases hfn : m.freeHead = noBlock
    · exact hne (hf.symm.trans hfn)
    · exact ne_unwritten hz ((h.free.head hfn).trans_ne (by decide)) hf
  · obtain ⟨u, f, cs, -, hcs, -⟩ := h.journal j hj
    have := ends_ne_unwritten hz hne hcs.linked hcs.tail_eq fun c hc =>
      tag_written (hcs.tagged c hc)
    exact hjt.elim this.1 this.2
  · have := ends_ne_unwritten hz hne (hd.linked i hi) (hd.tail_eq i hi) fun c hc =>
      (hd.kind i hi c hc).trans_ne (by decide)
    exact hit.elim this.1 this.2
  · rw [h.grouped.state] at hg
    rcases hg with ⟨x, ⟨⟩, -⟩ | ⟨d, hd, -⟩ | ⟨j, ⟨⟩, -⟩ | ⟨r, hr, -⟩
    · exact List.not_mem_nil hd
    · exact List.not_mem_nil hr

/-- A term names its chain and its first owner, which were written. -/
theorem WF.entry_unnamed {t : TermRef} {e : Entry} (h : WF strong s m)
    (hz : (s.body target).kind = .zero) (hne : target ≠ noBlock) (he : s.entry t = some e) :
    ¬ (e.head = target ∨ e.tail = target ∨ e.first.page = target) := by
  obtain ⟨bs, hch, -⟩ := h.chains.chain t e he
  have hkind := Store.entry_kind he
  have hends : e.head ≠ target ∧ e.tail ≠ target := by
    by_cases hi : e.inline = 1
    · obtain ⟨packed, es, hbody, hfind⟩ := Store.entry_eq_some he
      have hok := h.pages.entriesOk hbody e (findEntry_mem hfind)
      have hp : packed = true := by
        cases packed with
        | true => rfl
        | false => have := hok.range; rw [hi] at this; simp at this
      obtain ⟨hhead, htail⟩ := hok.state.inline hp hi
      have hself : t.page ≠ target := ne_unwritten hz (hkind.trans_ne (by decide))
      rw [hhead, htail]
      exact ⟨hself, hself⟩
    · have hc := (entryChain_of_ne hi).1 hch
      exact ends_ne_unwritten hz hne hc.linked hc.tail_eq fun c hc' => tag_written (hc.tagged c hc')
  obtain ⟨o, ho⟩ := h.refs.first t e he
  rintro (hh | ht | hf)
  · exact hends.1 hh
  · exact hends.2 ht
  · exact ne_unwritten hz (ho.kind.trans_ne (by decide)) hf

/-- No written page stores a reference to a block that was never written. -/
theorem WF.unnamed (h : WF strong s m) (hz : (s.body target).kind = .zero)
    (hne : target ≠ noBlock) (hb : (s.body b).kind ≠ .zero) :
    ¬ (s.page b).OtherNames target := by
  have howner : ∀ r, s.Known r → r.page ≠ target := fun r ⟨o, ho⟩ =>
    ne_unwritten hz (ho.kind.trans_ne (by decide))
  have htag : ∀ u, (s.body b).postingTag = some u → u.page ≠ target := fun u hu => by
    obtain ⟨f, hf⟩ := h.chains.tag b u hu
    exact ne_unwritten hz ((Store.entry_kind hf).trans_ne (by decide))
  by_cases hinfo : b = 0
  · rw [hinfo, h.info]
    exact h.info_unnamed hz hne
  rintro (hn | hn)
  · exact (h.closed.next b hb).elim (fun he => hne (hn.symm.trans he)) fun hk =>
      ne_unwritten hz hk hn
  cases hbody : s.body b with
  | zero => exact hb (by rw [hbody]; rfl)
  | info m₀ => exact hinfo ((h.pages.info_iff hb).2 (by rw [hbody]; rfl))
  | owners slots =>
    rw [show (s.page b).body = _ from hbody] at hn
    obtain ⟨o, ho, hot⟩ := hn
    obtain ⟨i, hi⟩ := List.getElem?_of_mem ho
    have hown : s.Owns ⟨b, i, o.incarnation⟩ o := ⟨by rw [hbody]; exact hi, rfl⟩
    exact (h.closed.payload _ o hown).elim (fun he => hne (hot.symm.trans he)) fun hk =>
      ne_unwritten hz hk hot
  | dictionary packed es =>
    rw [show (s.page b).body = _ from hbody] at hn
    obtain ⟨e, he, hnames⟩ := hn
    obtain ⟨offset, hoffset⟩ : ∃ o, (o, e) ∈ located packed pageHeader es := exists_located he
    have ht : s.entry ⟨b, offset⟩ = some e := by
      rw [Store.entry, hbody]
      exact mem_located.1 hoffset
    exact h.entry_unnamed hz hne ht hnames
  | postings t refs | «sealed» t refs =>
    rw [show (s.page b).body = _ from hbody] at hn
    rcases hn with hn | ⟨r, hr, hrt⟩
    · exact htag t (by rw [hbody]; rfl) hn
    · exact howner r (h.refs.posting b r (by rw [hbody]; exact hr)) hrt
  | direct t first last records =>
    rw [show (s.page b).body = _ from hbody] at hn
    have hpost : ∀ r ∈ records, r.owner.page ≠ target := fun r hr =>
      howner r.owner (h.refs.posting b r.owner (by rw [hbody]; exact List.mem_map_of_mem hr))
    rcases hn with hn | hn | hn | ⟨r, hr, hrt⟩
    · exact htag t (by rw [hbody]; rfl) hn
    · obtain ⟨r, hr, rfl⟩ := direct_ends (h.pages.valid b) hbody (.inl rfl)
      exact hpost r hr hn
    · obtain ⟨r, hr, rfl⟩ := direct_ends (h.pages.valid b) hbody (.inr rfl)
      exact hpost r hr hn
    · exact hpost r hr hrt
  | fragment r offset payload =>
    rw [show (s.page b).body = _ from hbody] at hn
    exact howner r (h.refs.fragment b r offset payload hbody) hn
  | grouped g => exact h.grouped.page b (by rw [hbody]; rfl)
  | free => rw [show (s.page b).body = _ from hbody] at hn; exact hn

/-- No page of the store mentions a block that was never written. -/
theorem mentions_false (h : WF strong s m) (hz : (s.body target).kind = .zero)
    (hne : target ≠ noBlock) (hb : (s.body b).kind ≠ .zero) :
    mentions (s.page b) s.layout target = .ok false := by
  refine (mentions_iff (h.pages.valid b) hb).2 ⟨h.unnamed hz hne hb, ?_⟩
  unfold Page.Readable
  split
  · next hbody => exact absurd (congrArg Body.kind hbody) (h.grouped.page b)
  · trivial

end

theorem checkUnreferenced_returns {target : ℕ} (h : WF strong s m)
    (hz : (s.body target).kind = .zero) (hne : target ≠ noBlock) (hbs : ∀ b ∈ bs, b < s.blocks) :
    Obs.Returns s (checkUnreferenced target bs) fun _ => True := by
  induction bs with
  | nil => exact Obs.Returns.pure trivial
  | cons b bs ih =>
    have hrest := ih fun c hc => hbs c (List.mem_cons_of_mem _ hc)
    refine (loadAny_returns h.pages (hbs b List.mem_cons_self)).bind ?_
    rintro _ rfl
    by_cases hk : (s.body b).kind = .zero
    · rw [if_pos (show (s.page b).kind = .zero from hk)]
      exact hrest
    · rw [if_neg (show ¬ (s.page b).kind = .zero from hk)]
      refine layout_returns.bind ?_
      rintro _ rfl
      refine Obs.Returns.ofExcept_bind (mentions_false h hz hne hk) ?_
      exact Obs.Returns.ensure_bind rfl hrest

/-- The third pass leaves no unwritten block among those it visits. -/
theorem reclaimZeros_spec {st : SweepState} {pages : ℕ} (h : Sweeping V s m st)
    (hbet : V₀.Between removable V) (hpages : pages = s.blocks)
    (hbs : ∀ b ∈ bs, blockValid b ∧ b < s.blocks) (hnd : bs.Nodup) :
    Spec E (Cut removable V₀) s (reclaimZeros pages bs st) fun st' s' =>
      ∃ m', Sweeping V s' m' st' ∧ Swept bs s s' m m' ∧ (∀ b ∈ bs, (s'.body b).kind ≠ .zero) ∧
        ∀ b, Clean s b → Clean s' b := by
  induction bs generalizing s m st with
  | nil =>
    exact Spec.pure ⟨m, h, Swept.refl _ s m, (fun _ hb => absurd hb List.not_mem_nil), fun _ => id⟩
  | cons b bs ih =>
    obtain ⟨hbv, hlt⟩ := hbs b List.mem_cons_self
    obtain ⟨hnb, hnd'⟩ := List.nodup_cons.1 hnd
    have hrest : ∀ c ∈ bs, blockValid c ∧ c < s.blocks := fun c hc =>
      hbs c (List.mem_cons_of_mem _ hc)
    refine Spec.reading_bind (loadAny_returns h.wf.pages hlt) ?_
    rintro _ rfl
    by_cases hk : (s.body b).kind = .zero
    · rw [if_pos (show (s.page b).kind = .zero from hk)]
      refine Spec.reading_bind (checkUnreferenced_returns h.wf hk hbv.2 fun c hc => ?_) ?_
      · rw [hpages] at hc; exact List.mem_range.1 hc
      rintro _ -
      rw [h.info]
      refine (reclaim_spec true h.wf (.inr hk) hbv hlt fun s' hr => ?_).bind ?_
      · exact ⟨V, hbet, _, hr.wf, h.shows.of_free hr.same⟩
      rintro _ s' ⟨rfl, hr⟩
      have hsw := hr.swept
      refine (ih ⟨hr.wf, h.shows.of_free hr.same, rfl⟩ (hpages.trans hr.blocks.symm)
        (fun c hc => by rw [hr.blocks]; exact hrest c hc) hnd').post ?_
      rintro st' s'' ⟨m'', hm'', hsw', hz', hcl'⟩
      have hpage := hsw'.other b hbv.1 hnb
      refine ⟨m'', hm'', hsw.trans hsw', List.forall_mem_cons.2 ⟨?_, hz'⟩, fun c hc => hcl' c ?_⟩
      · rw [Store.body_eq_of_page hpage, hr.free]; decide
      · by_cases hcb : c = b
        · rw [hcb]
          exact clean_of_kind (by rw [hr.free]; decide) (by rw [hr.free]; decide)
        · by_cases hc0 : c = 0
          · rw [hc0]
            have := hr.wf.kind_zero
            exact clean_of_kind (by rw [this]; decide) (by rw [this]; decide)
          · exact hc.same (hr.other c hc0 hcb) hsw.owners
    · rw [if_neg (show ¬ (s.page b).kind = .zero from hk)]
      refine (ih h hpages hrest hnd').post ?_
      rintro st' s'' ⟨m'', hm'', hsw', hz', hcl'⟩
      have hpage := hsw'.other b hbv.1 hnb
      refine ⟨m'', hm'', (Swept.refl [b] s m).trans hsw', List.forall_mem_cons.2 ⟨?_, hz'⟩, hcl'⟩
      rw [Store.body_eq_of_page hpage]; exact hk

/-! ### The whole of vacuum -/

/-- The live documents that are not removable. -/
def View.vacuumed (removable : RootTid → Bool) (V : View) : View where
  docs := V.docs.filter fun d => !removable d.root
  closed _ := True

/-- What vacuum leaves. -/
structure Vacuumed (removable : RootTid → Bool) (V : View) (s : Store) (m : MetaBody)
    (s' : Store) : Prop where
  wf : ∃ m', WF True s' m' ∧ m'.journal = none ∧ m'.core = m.core
  shows : Shows s' (V.vacuumed removable)
  blocks : s'.blocks = s.blocks
  owns : ∀ r o, s.Owns r o → s'.Owns r (o.vacuumed removable)
  back : ∀ r o', s'.Owns r o' → ∃ o, s.Owns r o ∧ o' = o.vacuumed removable
  clean : ∀ b, Clean s' b
  written : ∀ b < s'.blocks, (s'.body b).kind ≠ .zero
  kept : ∀ b, b ≠ 0 → (s.body b).kind ≠ .owners → (s.body b).kind ≠ .directPostings →
    s'.body b = s.body b ∨ (s'.body b).kind = .free

/-! ### Without a grouped snapshot -/

theorem groupedRecover_spec {E : Error → Prop} {C : Store → Prop} (h : WF strong s m) :
    Spec E C s Grouped.recover fun _ s' => s' = s := by
  refine Spec.reading_bind blocks_returns ?_
  rintro _ rfl
  have hjournal : Spec E C s (Grouped.recoverJournal (s.blocks + 2) 0) fun n s' =>
      n = 0 ∧ s' = s := by
    refine Spec.reading_bind h.loadInfo ?_
    rintro _ rfl
    refine Spec.ofExcept_bind (metaPage_groupedState h.metaOk) ?_
    rw [h.grouped.state]
    exact Spec.pure ⟨rfl, rfl⟩
  refine hjournal.bind ?_
  rintro _ s' ⟨rfl, rfl⟩
  refine Spec.reading_bind h.loadInfo ?_
  rintro _ rfl
  refine Spec.ofExcept_bind (metaPage_groupedState h.metaOk) ?_
  rw [h.grouped.state]
  exact Spec.pure rfl

theorem groupedRetire_spec {E : Error → Prop} {C : Store → Prop} (h : WF strong s m) :
    Spec E C s (Grouped.retire removable) fun _ s' => s' = s := by
  refine Spec.reading_bind h.loadInfo ?_
  rintro _ rfl
  refine Spec.ofExcept_bind (metaPage_groupedState h.metaOk) ?_
  rw [h.grouped.state]
  exact Spec.pure rfl

/-! ### The three passes -/

/-- The pass over the owner chain, from the metapage. -/
theorem vacuumOwners_spec {stats : VacuumStats} (h : WF strong s m) (hv : Shows s V)
    (hbet : V₀.Between removable V) :
    Spec E (Cut removable V₀) s
      (if m.ownerHead = noBlock then pure stats
        else vacuumOwnersFrom removable m.ownerTail (m.ownerTail + 1) m.ownerHead stats)
      fun _ s' => WF False s' m ∧ ∃ os, (∀ b, b ∈ os ↔ (s.body b).kind = .owners) ∧
        OwnersPassed removable os s s' := by
  obtain ⟨os, ho⟩ := h.owners
  cases os with
  | nil =>
    have hl : m.ownerHead = noBlock := ho.linked
    rw [if_pos hl]
    exact Spec.pure ⟨h.weaken, [], ho.mem_iff, rfl, rfl, (fun _ hb => absurd hb List.not_mem_nil),
      (fun _ => rfl), fun _ _ => rfl⟩
  | cons b cs =>
    have hl := ho.linked
    have hb : m.ownerHead = b := hl.1
    rw [if_neg (by rw [hb]; exact hl.2.1), hb]
    have hlen : cs.length < m.ownerTail + 1 := by
      have := ascending_length noBlock ho.ascending
      rw [ho.tail_eq]
      omega
    have hl' : Linked s.next noBlock m.ownerHead ([] ++ b :: cs) := hl
    refine (vacuumOwnersFrom_spec h hv hbet hl' ho.ascending ho.tail_eq
      (fun c hc => (ho.mem_iff c).1 hc) hlen).post ?_
    rintro _ s' ⟨hw, hp⟩
    exact ⟨hw, b :: cs, ho.mem_iff, hp⟩

theorem View.passed_all {os : List ℕ} (hv : Shows s V)
    (hos : ∀ b, b ∈ os ↔ (s.body b).kind = .owners) :
    V.passed removable os = V.vacuumed removable := by
  unfold View.passed View.vacuumed
  rw [View.mk.injEq]
  refine ⟨List.filter_congr fun d hd => ?_, rfl⟩
  obtain ⟨o, ho, -⟩ := Store.rootOf_eq_some ((hv.live d.owner d.root).2 ⟨d.document, hd⟩)
  have hm : d.owner.page ∈ os := (hos _).2 ho.kind
  simp [hm]

theorem mem_range'_one {n c : ℕ} : c ∈ List.range' 1 (n - 1) ↔ c ≠ 0 ∧ c < n := by
  rw [List.mem_range'_1]
  omega

/-- A store whose blocks are all clean carries the strong form of the coordinates. -/
theorem WF.of_clean (h : WF False s m) (hc : ∀ b, Clean s b) : WF True s m := by
  refine { h with direct := ⟨h.direct.root, h.direct.live, fun _ b x o hx ho hl => ?_⟩ }
  have := (hc b).direct x hx hl
  rwa [Store.rootOf_eq ho] at this

/-- The two passes over the blocks. -/
theorem reclaimAll_spec {stats : VacuumStats} (h : WF False s m) (hv : Shows s V)
    (hbet : V₀.Between removable V) :
    Spec E (Cut removable V₀) s (do
      let st ← sweep (List.range' 1 (s.blocks - 1)) ⟨metaPage m, stats, false⟩
      if st.hasZero then
        let st ← reclaimZeros s.blocks (List.range' 1 (s.blocks - 1)) st
        return st.stats
      else return st.stats) fun _ s' =>
        ∃ m', WF True s' m' ∧ Shows s' V ∧ Swept (List.range' 1 (s.blocks - 1)) s s' m m' ∧
          (∀ b, Clean s' b) ∧ ∀ b < s'.blocks, (s'.body b).kind ≠ .zero := by
  have hbs : ∀ b ∈ List.range' 1 (s.blocks - 1), blockValid b ∧ b < s.blocks := by
    intro b hb
    obtain ⟨h0, hlt⟩ := mem_range'_one.1 hb
    have := h.pages.le
    exact ⟨⟨h0, by omega⟩, hlt⟩
  have hnd : (List.range' 1 (s.blocks - 1)).Nodup := List.nodup_range'
  have hinit : Sweeping V s m ⟨metaPage m, stats, false⟩ := ⟨h, hv, rfl⟩
  refine (sweep_spec hinit hbet hbs hnd).bind ?_
  rintro st₁ s₁ ⟨m₁, hm₁, hsw₁, hcl₁, hz₁⟩
  -- blocks outside the range are the metapage and blocks past the end
  have hall : ∀ b, Clean s₁ b := by
    intro b
    by_cases hb : b ∈ List.range' 1 (s.blocks - 1)
    · exact hcl₁ b hb
    · rw [mem_range'_one] at hb
      by_cases h0 : b = 0
      · subst h0
        have := hm₁.wf.kind_zero
        exact clean_of_kind (by rw [this]; decide) (by rw [this]; decide)
      · have hge : s₁.blocks ≤ b := by
          rw [hsw₁.blocks]
          by_contra hlt
          exact hb ⟨h0, Nat.lt_of_not_le hlt⟩
        have hzero : (s₁.body b).kind = .zero := by
          rw [Store.body, hm₁.wf.pages.fresh b hge]; rfl
        exact clean_of_kind (by rw [hzero]; decide) (by rw [hzero]; decide)
  have hwritten : ∀ {s₂ : Store} {m₂ : MetaBody}, WF False s₂ m₂ → s₂.blocks = s.blocks →
      (∀ b ∈ List.range' 1 (s.blocks - 1), (s₂.body b).kind ≠ .zero) →
      ∀ b < s₂.blocks, (s₂.body b).kind ≠ .zero := by
    intro s₂ m₂ hw₂ hb₂ hz₂ b hlt
    by_cases h0 : b = 0
    · subst h0; rw [hw₂.kind_zero]; decide
    · exact hz₂ b (mem_range'_one.2 ⟨h0, hb₂ ▸ hlt⟩)
  split_ifs with hz
  · refine (reclaimZeros_spec hm₁ hbet hsw₁.blocks.symm (fun b hb => ?_) hnd).bind ?_
    · rw [hsw₁.blocks]; exact hbs b hb
    rintro st₂ s₂ ⟨m₂, hm₂, hsw₂, hz₂, hcl₂⟩
    have hclean : ∀ b, Clean s₂ b := fun b => hcl₂ b (hall b)
    have hsw := hsw₁.trans hsw₂
    refine Spec.pure ⟨m₂, hm₂.wf.of_clean hclean, hm₂.shows, ⟨hsw.layout, hsw.blocks, hsw.owners,
      hsw.core, hsw.journal, fun c h0 hc => hsw.other c h0 (by simpa using hc), hsw.kept⟩, hclean,
      hwritten hm₂.wf hsw.blocks hz₂⟩
  · exact Spec.pure ⟨m₁, hm₁.wf.of_clean hall, hm₁.shows, hsw₁, hall,
      hwritten hm₁.wf hsw₁.blocks (hz₁ (Bool.eq_false_iff.2 hz)).2⟩

/-- Vacuum succeeds, removes exactly the removable documents and leaves nothing behind. -/
theorem vacuum_spec (h : WF strong s m) (hv : Shows s V) :
    Spec E (Cut removable V) s (vacuum removable) fun _ s' =>
      Vacuumed removable V s m s' := by
  refine ((recoverCompaction_spec h hv).mono (fun _ hg => hg.cut) fun _ _ => id).bind ?_
  rintro recovered s₁ ⟨bs, -, -, hfreed, -⟩
  obtain ⟨free, hw₁⟩ := hfreed.wf
  have hv₁ := hv.of_step hfreed.off
  refine (groupedRecover_spec hw₁).bind ?_
  intro recovered' s' hs'
  rw [hs']
  refine (groupedRetire_spec hw₁).bind ?_
  intro _ s' hs'
  rw [hs']
  refine Spec.reading_bind hw₁.loadInfo ?_
  rintro _ rfl
  refine Spec.ofExcept_bind (metaPage_ownerChain hw₁.metaOk) ?_
  refine Spec.ite_bind (vacuumOwners_spec hw₁ hv₁ (.refl V)) ?_
  rintro stats s₂ ⟨hw₂, os, hos, hp⟩
  have hv₂ := hv₁.passed hp
  rw [View.passed_all hv₁ hos] at hv₂
  have hbet : V.Between removable (V.vacuumed removable) := by
    rw [← View.passed_all hv₁ hos]; exact V.between_passed os
  refine Spec.reading_bind blocks_returns ?_
  rintro _ rfl
  refine (reclaimAll_spec hw₂ hv₂ hbet).post ?_
  rintro _ s₃ ⟨m₃, hw₃, hv₃, hsw, hcl, hwr⟩
  have hown : ∀ r o, s.Owns r o ↔ s₁.Owns r o := fun r o => (Store.owns_same hfreed.off.owners).symm
  have hpage : ∀ {r o}, s₁.Owns r o → r.page ∈ os := fun ho => (hos _).2 ho.kind
  refine ⟨⟨m₃, hw₃, hsw.journal, hsw.core⟩, hv₃,
    hsw.blocks.trans (hp.blocks.trans hfreed.blocks), fun r o ho => ?_, fun r o' ho' => ?_,
    hcl, hwr, fun b h0 hk hk' => ?_⟩
  · have ho₁ := (hown r o).1 ho
    have := hp.owns ho₁
    rw [if_pos (hpage ho₁)] at this
    exact this.same hsw.owners
  · obtain ⟨o, ho, heq⟩ := hp.back ((Store.owns_same hsw.owners).1 ho')
    rw [if_pos (hpage ho)] at heq
    exact ⟨o, (hown r o).2 ho, heq⟩
  · -- such a page is untouched or freed by each of the passes
    have h₁ : s₁.body b = s.body b ∨ (s₁.body b).kind = .free := by
      by_cases hb : b ∈ bs
      · exact .inr (hfreed.freed b hb)
      · exact .inl (Store.body_eq_of_page (hfreed.other b h0 hb))
    have hnot : (s₁.body b).kind ≠ .owners ∧ (s₁.body b).kind ≠ .directPostings := by
      rcases h₁ with h₁ | h₁
      · rw [h₁]; exact ⟨hk, hk'⟩
      · rw [h₁]; decide
    have hbo : b ∉ os := by rw [hos]; exact hnot.1
    have h₂ : s₂.body b = s₁.body b := Store.body_eq_of_page (hp.other b hbo)
    have hnd : (s₂.body b).kind ≠ .directPostings := by rw [h₂]; exact hnot.2
    rcases hsw.kept b h0 hnd with h₃ | h₃
    · have h₃' := (Store.body_eq_of_page h₃).trans h₂
      rcases h₁ with h₁ | h₁
      · exact .inl (h₃'.trans h₁)
      · exact .inr (by rw [h₃']; exact h₁)
    · exact .inr h₃

/-- Vacuum always returns. -/
theorem vacuum_completes (h : WF strong s m) (hv : Shows s V) (removable : RootTid → Bool) :
    ∃ stats s', (vacuum removable).Completes s stats s' ∧ Vacuumed removable V s m s' :=
  (vacuum_spec (E := fun _ => False) h hv).exists_completes fun _ _ => id

end

end PinCore
