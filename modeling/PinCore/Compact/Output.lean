import PinCore.Compact.Recover

/-!
# Output pages

The compressed pages a rewrite fills, and the commit that links a finished page into the build
journal.
-/

namespace PinCore

open Prog

/-! ### Encoded lengths -/

theorem varLen_le (fuel n : ℕ) : varLen fuel n ≤ fuel + 1 := by
  induction fuel generalizing n with
  | zero => exact Nat.le_refl _
  | succ fuel ih =>
    have := ih (n / 128)
    unfold varLen
    split_ifs <;> omega

theorem deltaLen_none_le (o : OwnerRef) : deltaLen none o ≤ 20 := by
  have h₁ := varLen_le 4 o.page
  have h₂ := varLen_le 4 o.slot
  have h₃ := varLen_le 9 o.incarnation
  simp only [deltaLen, varU32Len, varU64Len]
  omega

theorem streamLen_concat (previous : Option OwnerRef) (refs : List OwnerRef) (o : OwnerRef) :
    streamLen previous (refs ++ [o]) =
      streamLen previous refs + deltaLen (refs.getLast?.or previous) o := by
  induction refs generalizing previous with
  | nil => simp [streamLen]
  | cons r rs ih =>
    have hlast : (r :: rs).getLast?.or previous = rs.getLast?.or (some r) := by
      cases rs with
      | nil => rfl
      | cons a as => simp [List.getLast?_cons]
    simp only [List.cons_append, streamLen, ih, hlast]
    omega

/-! ### Builders -/

/-- The coordinate that a direct page copies from a live owner. -/
def Store.rootD (s : Store) (r : OwnerRef) : RootTid := (s.rootOf r).getD ⟨0, 0⟩

/-- The body of an output page with the postings `refs`. -/
def outBody (s : Store) (direct : Bool) (t : TermRef) (refs : List OwnerRef) : Body :=
  if direct then
    .direct t (refs.head?.getD ⟨0, 0, 0⟩) (refs.getLast?.getD ⟨0, 0, 0⟩)
      (refs.map fun r => ⟨r, s.rootD r, true⟩)
  else .sealed t refs

/-- The image of an output page. -/
def outPage (s : Store) (direct : Bool) (b : ℕ) (t : TermRef) (refs : List OwnerRef) : Page :=
  ⟨b, noBlock, outBody s direct t refs, false⟩

/-- The builder of an output page. -/
def outBuilder (s : Store) (direct : Bool) (b : ℕ) (t : TermRef) (refs : List OwnerRef) :
    SealedBuilder := ⟨outPage s direct b t refs, refs.getLast?⟩

section

variable {strong : Prop} {s s' : Store} {m : MetaBody} {V : View} {t : TermRef} {e : Entry}
  {direct : Bool} {b : ℕ} {refs : List OwnerRef} {o : OwnerRef} {root : RootTid}

theorem outBody_refs : (outBody s direct t refs).postingRefs = refs := by
  unfold outBody
  split_ifs
  · change (refs.map fun r => (⟨r, s.rootD r, true⟩ : DirectRecord)).map (·.owner) = refs
    rw [List.map_map]
    exact List.map_id refs
  · rfl

theorem outBody_tag : (outBody s direct t refs).postingTag = some t := by
  unfold outBody
  split_ifs <;> rfl

theorem outBody_kind : (outBody s direct t refs).kind =
    if direct then .directPostings else .sealedPostings := by
  unfold outBody
  split_ifs <;> rfl

theorem outPage_len : (outPage s direct b t refs).len =
    (if direct then directHeader + refs.length * 8 else postingHeader) + streamLen none refs := by
  unfold outPage outBody Page.len
  cases direct
  · rfl
  · simp only [if_true, List.length_map, List.map_map]
    rw [show ((fun x : DirectRecord => x.owner) ∘ fun r => (⟨r, s.rootD r, true⟩ : DirectRecord)) =
      id from rfl, List.map_id]

/-- The bytes one more posting takes on an output page. -/
def outDelta (direct : Bool) (refs : List OwnerRef) (o : OwnerRef) : ℕ :=
  deltaLen refs.getLast? o + if direct then 8 else 0

theorem outPage_len_concat : (outPage s direct b t (refs ++ [o])).len =
    (outPage s direct b t refs).len + outDelta direct refs o := by
  rw [outPage_len, outPage_len, streamLen_concat, Option.or_none, outDelta]
  cases direct
  · simp only [Bool.false_eq_true, if_false]; omega
  · simp only [if_true, List.length_append, List.length_singleton]; omega

theorem outPage_kind_ne_zero : (outPage s direct b t refs).kind ≠ .zero := by
  change (outBody s direct t refs).kind ≠ _
  rw [outBody_kind]
  split_ifs <;> decide

/-- A push appends the owner, or leaves a full page alone. -/
theorem pushOutput_eq (direct : Bool) (b : ℕ) (t : TermRef)
    (hd : SealedBuilder.DeltaOk o refs.getLast?) (hr : s.rootOf o = some root) :
    pushOutput direct (outBuilder s direct b t refs) o root =
      .ok (if capacity < (outPage s direct b t refs).len + outDelta direct refs o then none
        else some (outBuilder s direct b t (refs ++ [o]))) := by
  have hroot : s.rootD o = root := by rw [Store.rootD, hr]; rfl
  cases direct with
  | false =>
    change (if ¬ SealedBuilder.DeltaOk o refs.getLast? then Except.error Error.invalidState
      else if capacity < (outPage s false b t refs).len + deltaLen refs.getLast? o then .ok none
      else .ok (some (SealedBuilder.mk ⟨b, noBlock, .sealed t (refs ++ [o]), false⟩ (some o)))) = _
    rw [if_neg (not_not.2 hd), outDelta]
    simp only [Bool.false_eq_true, if_false, Nat.add_zero]
    split_ifs
    · rfl
    · simp only [outBuilder, outPage, outBody, Bool.false_eq_true, if_false, List.getLast?_concat]
  | true =>
    change (if ¬ SealedBuilder.DeltaOk o refs.getLast? then Except.error Error.invalidState
      else if capacity < (outPage s true b t refs).len + deltaLen refs.getLast? o + 8 then .ok none
      else .ok (some (SealedBuilder.mk ⟨b, noBlock, .direct t
        (if (refs.map fun r => (⟨r, s.rootD r, true⟩ : DirectRecord)) = [] then o
          else refs.head?.getD ⟨0, 0, 0⟩) o
        ((refs.map fun r => ⟨r, s.rootD r, true⟩) ++ [⟨o, root, true⟩]), false⟩ (some o)))) = _
    rw [if_neg (not_not.2 hd), outDelta]
    simp only [if_true, ← Nat.add_assoc]
    split_ifs with hfull hnil
    · rfl
    · have : refs = [] := List.map_eq_nil_iff.1 hnil
      subst this
      simp [outBuilder, outPage, outBody, hroot]
    · have hne : refs ≠ [] := fun h => hnil (by rw [h]; rfl)
      obtain ⟨a, as, rfl⟩ := List.exists_cons_of_ne_nil hne
      have hlast : (a :: (as ++ [o])).getLast? = some o := by
        rw [← List.cons_append]; exact List.getLast?_concat
      simp only [outBuilder, outPage, outBody, if_true, hlast, List.map_append,
        List.map_cons, List.map_nil, hroot, List.cons_append, List.head?_cons, Option.getD_some]

/-- A fresh output page has room for any posting. -/
theorem outPage_room : ¬ capacity < (outPage s direct b t []).len + outDelta direct [] o := by
  have := deltaLen_none_le o
  rw [outPage_len, outDelta]
  simp only [List.getLast?_nil, capacity, directHeader, postingHeader, List.length_nil, streamLen]
  cases direct <;> simp <;> omega

/-- Every posting of an output page names a live owner, in order. -/
structure OutRefs (s : Store) (refs : List OwnerRef) : Prop where
  live : ∀ r ∈ refs, s.rootOf r ≠ none
  sorted : refs.Pairwise OwnerRef.Before

theorem OutRefs.owns (h : OutRefs s refs) {r : OwnerRef} (hr : r ∈ refs) :
    ∃ x, s.Owns r x ∧ x.liveRoot = some (s.rootD r) := by
  obtain ⟨y, hy⟩ := Option.ne_none_iff_exists'.1 (h.live r hr)
  obtain ⟨x, hx, hl⟩ := Store.rootOf_eq_some hy
  exact ⟨x, hx, by rw [hl, Store.rootD, hy]; rfl⟩

theorem OwnerSlot.root_of_live {x : OwnerSlot} (h : x.liveRoot = some root) : x.root = root := by
  unfold OwnerSlot.liveRoot at h
  split_ifs at h
  exact Option.some.inj h

theorem outPage_valid (hp : PagesOk s) (ht : t.Ok) (hb : blockValid b) (hr : OutRefs s refs)
    (hne : refs ≠ []) (hlen : (outPage s direct b t refs).len ≤ capacity) :
    (outPage s direct b t refs).Valid s.layout where
  next _ := .inl rfl
  block _ := by
    refine ⟨fun h0 => absurd h0 hb.1, fun hk => ?_⟩
    have hk' : (outBody s direct t refs).kind = .info := hk
    rw [outBody_kind] at hk'
    revert hk'
    split_ifs <;> exact fun hk' => nomatch hk'
  body := by
    have hval : ∀ r ∈ refs, r.Valid ∧ (s.rootD r).Valid s.layout := by
      intro r hm
      obtain ⟨x, hx, hl⟩ := hr.owns hm
      refine ⟨hx.valid hp, ?_⟩
      rw [← OwnerSlot.root_of_live hl]
      exact (hp.slotOk hx).root
    change (outBody s direct t refs).Ok s.layout b
    unfold outBody
    split_ifs
    · have hmap : (refs.map fun r => (⟨r, s.rootD r, true⟩ : DirectRecord)).map
          (·.owner) = refs := by
        rw [List.map_map]; exact List.map_id refs
      refine ⟨ht, fun x hx => ?_, ?_, ?_, ?_⟩
      · obtain ⟨r, hm, rfl⟩ := List.mem_map.1 hx
        exact hval r hm
      · rw [hmap]; exact hr.sorted
      · rw [hmap]
        obtain ⟨a, as, rfl⟩ := List.exists_cons_of_ne_nil hne
        rfl
      · rw [hmap, List.getLast?_eq_some_getLast hne]; rfl
    · exact ⟨ht, fun r hm => (hval r hm).1, hr.sorted, hne⟩
  len := hlen

theorem outPage_record (hr : OutRefs s refs) {x : DirectRecord}
    (hx : x ∈ (outBody s direct t refs).records) : RecordOk strong s x := by
  unfold outBody at hx
  split_ifs at hx
  · obtain ⟨r, hm, rfl⟩ := List.mem_map.1 hx
    obtain ⟨y, hy, hl⟩ := hr.owns hm
    refine ⟨fun z hz => ?_, fun _ _ _ => rfl, fun _ z hz _ => ?_⟩
    · rw [hz.unique hy]; exact (OwnerSlot.root_of_live hl).symm
    · rw [hz.unique hy, hl]; exact Option.some_ne_none _
  · exact absurd hx List.not_mem_nil

/-! ### The build journal -/

/-- The journal of the output pages `cs`. -/
def buildJournal (cs : List ℕ) : Option RewriteJournal :=
  cs.head?.map fun head => ⟨head, lastD noBlock cs, .building⟩

/-- A rewrite of the entry at `t` under way: the output pages `cs` hold the postings `done`. -/
structure Building (strong : Prop) (V : View) (t : TermRef) (e : Entry) (s : Store) (m : MetaBody)
    (cs : List ℕ) (done : List OwnerRef) : Prop where
  wf : WF strong s m
  shows : Shows s V
  entry : s.entry t = some e
  linked : e.inline ≠ 1 ∧ e.head ≠ noBlock
  journal : m.journal = buildJournal cs
  chain : Chain s t (cs.headD noBlock) (lastD noBlock cs) cs
  refs : chainRefs s cs = done
  kind : ∀ b ∈ cs, (s.body b).kind = .sealedPostings ∨ (s.body b).kind = .directPostings

variable {cs : List ℕ} {done : List OwnerRef} {free : ℕ}

theorem Building.good (h : Building strong V t e s m cs done) : Good strong V s :=
  ⟨m, h.wf, h.shows⟩

/-- The output chain ends apart from the chain of the entry. -/
theorem Building.apart (h : Building strong V t e s m cs done) (hne : cs ≠ []) :
    lastD noBlock cs ≠ e.tail := by
  obtain ⟨c, rest, rfl⟩ := List.exists_cons_of_ne_nil hne
  obtain ⟨u, f, ds, hf, hc, -, -, ht⟩ := h.wf.journal _ h.journal
  have hds : ds = c :: rest := hc.linked.unique h.chain.linked
  subst hds
  have := hc.tagged c List.mem_cons_self
  rw [h.chain.tagged c List.mem_cons_self] at this
  cases this
  rw [h.entry] at hf
  cases hf
  exact ht

theorem Building.grow (h : Building strong V t e s m cs done) (hlt : s.blocks < noBlock) :
    Building strong V t e s.grow m cs done := by
  have hp := grow_page h.wf.pages
  have hc : ∀ b ∈ cs, s.grow.page b = s.page b := fun b _ => by rw [hp]
  exact ⟨h.wf.grow hlt, h.shows.grow h.wf.pages, (entry_grow h.wf.pages t).trans h.entry, h.linked,
    h.journal, h.chain.congr hc, (chainRefs_congr hc).trans h.refs,
    fun b hb => by rw [body_grow h.wf.pages]; exact h.kind b hb⟩

/-- A block an output page may take: a new block, or the first page of the free list. -/
def OutSlot (s : Store) (m : MetaBody) (b free : ℕ) : Prop :=
  ((s.body b).kind = .zero ∧ b < s.blocks ∧ b ≠ 0 ∧ free = m.freeHead) ∨
    (b = m.freeHead ∧ b ≠ noBlock ∧ free = s.next b)

theorem OutSlot.old (h : OutSlot s m b free) (hw : WF strong s m) :
    ((s.body b).kind = .zero ∨ (s.body b).kind = .free) ∧ b < s.blocks ∧ blockValid b ∧
      free ≠ 0 := by
  rcases h with ⟨hz, hlt, h0, rfl⟩ | ⟨rfl, hne, rfl⟩
  · refine ⟨.inl hz, hlt, ⟨h0, ?_⟩, hw.metaOk.free⟩
    have := hw.pages.le
    omega
  · have hk := hw.free.head hne
    have hnz : (s.body m.freeHead).kind ≠ .zero := hk.trans_ne (by decide)
    exact ⟨.inr hk, hw.pages.lt_blocks hnz, ⟨hw.ne_zero (hk.trans_ne (by decide)), hne⟩,
      hw.next_ne_zero hnz⟩

theorem OutSlot.not_posting (h : OutSlot s m b free) (hw : WF strong s m) :
    (s.body b).postingTag = none := by
  have hk := (h.old hw).1
  revert hk
  cases s.body b <;> simp [Body.kind, Body.postingTag]

theorem OutSlot.offChains (h : OutSlot s m b free) (hw : WF strong s m) : OffChains s b := by
  intro u f bs hf hch hm
  have := hch.tagged b hm
  rw [h.not_posting hw] at this
  cases this

/-- The free list after the block was taken. -/
theorem OutSlot.freeOk (h : OutSlot s m b free) (hw : WF strong s m)
    (hk : (s'.body b).kind ≠ .free)
    (hother : ∀ c, c ≠ b → (s.body c).kind = .free ∨ (s'.body c).kind = .free →
      s'.page c = s.page c) (hl : s'.layout = s.layout) : FreeOk s' free := by
  rcases h with ⟨hz, -, -, rfl⟩ | ⟨rfl, hne, rfl⟩
  · refine hw.free.same ⟨hl, fun c hc => hother c ?_ hc⟩
    rintro rfl
    rw [hz] at hc
    rcases hc with hc | hc
    · cases hc
    · exact hk hc
  · exact hw.free.pop hne hk hother

theorem outputBlock_spec {α : Type} {f : ℕ × Page → Wr α} {Q : α → Store → Prop}
    (h : Building strong V t e s m cs done)
    (hf : ∀ s' b free, (s' = s ∨ (s.blocks < noBlock ∧ s' = s.grow)) →
      Building strong V t e s' m cs done → OutSlot s' m b free →
      Spec HostRefused (Good strong V) s' (f (b, metaPage (m.withJournal m.journal free))) Q) :
    Spec HostRefused (Good strong V) s (outputBlock (metaPage m) >>= f) Q := by
  have hw := h.wf
  have hpost : Spec HostRefused (Good strong V) s (outputBlock (metaPage m)) fun x s' =>
      ∃ free, (s' = s ∨ (s.blocks < noBlock ∧ s' = s.grow)) ∧
        Building strong V t e s' m cs done ∧ OutSlot s' m x.1 free ∧
        x.2 = metaPage (m.withJournal m.journal free) := by
    refine Spec.ofExcept_bind (metaPage_freeHead hw.metaOk) ?_
    by_cases hfree : m.freeHead = noBlock
    · rw [if_pos hfree]
      have hhost : HostRefused .host := rfl
      refine (allocate_spec hhost fun hlt => (h.grow hlt).good).bind ?_
      rintro b _ ⟨rfl, rfl, hlt⟩
      obtain ⟨hz, hlt', -, h0⟩ := grow_last hw
      exact Spec.pure ⟨m.freeHead, .inr ⟨hlt, rfl⟩, h.grow hlt, .inl ⟨hz, hlt', h0, rfl⟩, rfl⟩
    · rw [if_neg hfree]
      have hk := hw.free.head hfree
      refine Spec.reading_bind (load_returns hw.pages hk (by simp)) ?_
      rintro _ rfl
      refine Spec.ofExcept_bind
        (metaPage_setFreeHead (hw.next_ne_zero (hk.trans_ne (by decide)))) ?_
      exact Spec.pure ⟨s.next m.freeHead, .inl rfl, h, .inr ⟨rfl, hfree, rfl⟩, rfl⟩
  refine hpost.bind ?_
  rintro ⟨b, _⟩ s' ⟨free, hs, hb, hslot, hinfo⟩
  obtain rfl : _ = metaPage _ := hinfo
  exact hf s' b free hs hb hslot

/-- The pages that a finished output page is committed with, after the metapage. -/
def persistPages (s : Store) (cs : List ℕ) (p : Page) : List Page :=
  if cs = [] then [p] else [{ s.page (lastD noBlock cs) with next := p.block }, p]

theorem buildJournal_concat : buildJournal (cs ++ [b]) =
    some ⟨cs.headD b, b, .building⟩ := by
  rw [buildJournal, lastD_concat]
  cases cs <;> rfl

theorem chain_headD (hc : Chain s t (cs.headD noBlock) (lastD noBlock cs) cs) (hne : cs ≠ []) :
    (s.body (lastD noBlock cs)).postingTag = some t ∧ s.next (lastD noBlock cs) = noBlock := by
  refine ⟨hc.tagged _ (lastD_mem noBlock hne), ?_⟩
  have hl := hc.linked
  rw [eq_append_lastD noBlock hne] at hl
  exact hl.next_last

/-- A page of postings of an entry is none of the fixed pages. -/
theorem WF.posting_place (hw : WF strong s m) (he : s.entry t = some e) {c : ℕ}
    (hc : (s.body c).postingTag = some t) :
    blockValid c ∧ c ≠ t.page ∧ (s.body c).kind ≠ .zero := by
  have hk := isPosting_of_tag hc
  refine ⟨hw.pages.posting_valid hk, ?_, hk.ne (by decide)⟩
  rintro rfl
  exact hk.ne (by decide) (Store.entry_kind he)

/-- A page of postings may be linked to any other page. -/
theorem posting_nextOk (hp : PagesOk s) {c n : ℕ} (hc : (s.body c).kind.IsPosting)
    (hn : blockValid n) (hne : n ≠ c) : ({ s.page c with next := n } : Page).NextOk := by
  refine .inr ⟨hn, ?_, fun hi => absurd hi (hc.ne (by decide)), ?_⟩
  · rw [hp.block]; exact hne
  · rintro (hi | hi)
    · exact absurd hi (hc.ne (by decide))
    · exact absurd hi (hc.ne (by decide))

section

variable {pend : List OwnerRef}

theorem OutSlot.not_mem (hslot : OutSlot s m b free) (h : Building strong V t e s m cs done) :
    b ∉ cs := by
  intro hm
  have := h.chain.tagged b hm
  rw [hslot.not_posting h.wf] at this
  cases this

theorem OutSlot.ne_last (hslot : OutSlot s m b free) (h : Building strong V t e s m cs done)
    (hne : cs ≠ []) : b ≠ lastD noBlock cs := by
  rintro rfl
  exact hslot.not_mem h (lastD_mem noBlock hne)

/-- The last output page takes the new one behind it. -/
theorem persist_nextOk (h : Building strong V t e s m cs done) (hslot : OutSlot s m b free)
    (hne : cs ≠ []) : ({ s.page (lastD noBlock cs) with next := b } : Page).NextOk :=
  posting_nextOk h.wf.pages (isPosting_of_tag (h.chain.tagged _ (lastD_mem noBlock hne)))
    (hslot.old h.wf).2.2.1 (hslot.ne_last h hne)

theorem mem_persistPages {p q : Page} (hq : q ∈ persistPages s cs p) :
    q = p ∨ (cs ≠ [] ∧ q = { s.page (lastD noBlock cs) with next := p.block }) := by
  unfold persistPages at hq
  split_ifs at hq with hnil
  · exact .inl (List.mem_singleton.1 hq)
  · simp only [List.mem_cons, List.not_mem_nil, or_false] at hq
    rcases hq with rfl | rfl
    · exact .inr ⟨hnil, rfl⟩
    · exact .inl rfl

theorem mem_persistPages_self {p : Page} : p ∈ persistPages s cs p := by
  unfold persistPages
  split_ifs <;> simp

/-- The images of a finished output page are a commit. -/
theorem persistPages_ok (h : Building strong V t e s m cs done) (hslot : OutSlot s m b free)
    (hp : (outPage s direct b t pend).Valid s.layout) :
    CommitOk s (metaPage (m.withJournal (buildJournal (cs ++ [b])) free) ::
      persistPages s cs (outPage s direct b t pend)) := by
  have hw := h.wf
  obtain ⟨-, hlt, hbv, hfree⟩ := hslot.old hw
  have hblock : ∀ c, (s.page c).block = c := hw.pages.block
  have hjok : ∀ j ∈ buildJournal (cs ++ [b]), j.Ok := by
    rw [buildJournal_concat]
    rintro j ⟨⟩
    refine ⟨?_, hbv⟩
    cases cs with
    | nil => exact hbv
    | cons c rest => exact (hw.posting_place h.entry (h.chain.tagged c List.mem_cons_self)).1
  have hinfo := metaPage_valid (hw.metaOk.withJournal hjok hfree)
  have hpage : (outPage s direct b t pend).Valid s.layout ∧
      (outPage s direct b t pend).kind ≠ .zero ∧ (outPage s direct b t pend).block < s.blocks :=
    ⟨hp, outPage_kind_ne_zero, hlt⟩
  unfold persistPages
  split_ifs with hnil
  · exact commitOk_two ⟨hinfo, by simp, hw.pages.pos⟩ hpage hbv.1.symm
  · obtain ⟨hlv, -, hlz⟩ := hw.posting_place h.entry (h.chain.tagged _ (lastD_mem noBlock hnil))
    have hv := hw.pages.valid (lastD noBlock cs)
    refine commitOk_three ⟨hinfo, by simp, hw.pages.pos⟩
      ⟨⟨fun _ => persist_nextOk h hslot hnil, hv.block, hv.body, hv.len⟩, hlz, ?_⟩ hpage ?_
      hbv.1.symm ?_
    · rw [hblock]; exact hw.pages.lt_blocks hlz
    · rw [hblock]; exact hlv.1.symm
    · rw [hblock]; exact (hslot.ne_last h hnil).symm

/-- The images touch no chain of the dictionary. -/
theorem persistPages_off (h : Building strong V t e s m cs done) (hslot : OutSlot s m b free)
    (hr : OutRefs s pend) :
    ∀ q ∈ persistPages s cs (outPage s direct b t pend), OffPage strong s q := by
  have hw := h.wf
  intro q hq
  rcases mem_persistPages hq with rfl | ⟨hne, rfl⟩
  · refine ⟨(hslot.old hw).1.imp_right .inl, hslot.offChains hw, .inr ⟨t, e, outBody_tag, h.entry⟩,
      ?_, ?_⟩
    · intro r hr'
      have hr'' : r ∈ (outBody s direct t pend).postingRefs := hr'
      rw [outBody_refs] at hr''
      obtain ⟨x, hx, -⟩ := hr.owns hr''
      exact ⟨x, hx⟩
    · exact fun x hx => outPage_record hr hx
  · have hlm := lastD_mem noBlock hne
    refine ⟨.inr (.inr ?_), ?_, .inr ⟨t, e, (chain_headD h.chain hne).1, h.entry⟩, ?_, ?_⟩
    · rw [hw.pages.block]; exact isPosting_of_tag (h.chain.tagged _ hlm)
    · rw [hw.pages.block]
      have hj : Chain s t (RewriteJournal.mk (cs.headD noBlock) (lastD noBlock cs) .building).head
          (RewriteJournal.mk (cs.headD noBlock) (lastD noBlock cs) .building).tail cs := h.chain
      exact hj.offChains h.entry (h.apart hne) hlm
    · exact fun r hr' => hw.refs.posting (lastD noBlock cs) r hr'
    · exact fun x hx => hw.direct.record (b := lastD noBlock cs) hx

/-- What the commit of a finished output page leaves: the page at `b`, behind the last output page,
and all other pages but the metapage as they were. -/
structure Persisted (s s' : Store) (direct : Bool) (t : TermRef) (cs : List ℕ) (b : ℕ)
    (pend : List OwnerRef) : Prop where
  info : (s'.body 0).kind = .info
  body : s'.body b = outBody s direct t pend
  next : s'.next b = noBlock
  last : cs ≠ [] → s'.page (lastD noBlock cs) =
    ({ s.page (lastD noBlock cs) with next := b } : Page).stored
  other : ∀ c, c ≠ 0 → c ≠ b → (cs ≠ [] → c ≠ lastD noBlock cs) → s'.page c = s.page c

theorem persisted_of_committed (hw : WF strong s m)
    (hcm : Committed s s' (metaPage (m.withJournal (buildJournal (cs ++ [b])) free) ::
      persistPages s cs (outPage s direct b t pend))) : Persisted s s' direct t cs b pend where
  info := by
    rw [Store.body, show s'.page 0 = _ from hcm.mem _ List.mem_cons_self]
    rfl
  body := hcm.body_mem (List.mem_cons_of_mem _ mem_persistPages_self)
  next := hcm.next_mem (List.mem_cons_of_mem _ mem_persistPages_self)
  last hne := by
    have hq : ({ s.page (lastD noBlock cs) with next := b } : Page) ∈
        metaPage (m.withJournal (buildJournal (cs ++ [b])) free) ::
          persistPages s cs (outPage s direct b t pend) := by
      rw [persistPages, if_neg hne]; simp [outPage]
    have := hcm.mem _ hq
    rwa [show ({ s.page (lastD noBlock cs) with next := b } : Page).block = lastD noBlock cs from
      hw.pages.block _] at this
  other c h0 hcb hcl := by
    refine hcm.other c ?_
    rw [List.forall_mem_cons]
    refine ⟨Ne.symm h0, fun q hq => ?_⟩
    rcases mem_persistPages hq with rfl | ⟨hne, rfl⟩
    · exact Ne.symm hcb
    · rw [hw.pages.block]; exact (hcl hne).symm

/-- The output pages before the last one stay. -/
theorem Persisted.page_eq (hs : Persisted s s' direct t cs b pend)
    (h : Building strong V t e s m cs done) (hslot : OutSlot s m b free) {c : ℕ} (hc : c ∈ cs)
    (hcl : c ≠ lastD noBlock cs) : s'.page c = s.page c :=
  hs.other c (h.wf.posting_place h.entry (h.chain.tagged c hc)).1.1
    (fun hcb => hslot.not_mem h (hcb ▸ hc)) fun _ => hcl

theorem Persisted.body_eq (hs : Persisted s s' direct t cs b pend)
    (h : Building strong V t e s m cs done) (hslot : OutSlot s m b free) :
    ∀ c ∈ cs, s'.body c = s.body c := by
  intro c hc
  by_cases hcl : c = lastD noBlock cs
  · rw [hcl, Store.body, hs.last (List.ne_nil_of_mem hc)]; rfl
  · exact Store.body_eq_of_page (hs.page_eq h hslot hc hcl)

theorem Persisted.chain (hs : Persisted s s' direct t cs b pend)
    (h : Building strong V t e s m cs done) (hslot : OutSlot s m b free) :
    Chain s' t ((cs ++ [b]).headD noBlock) (lastD noBlock (cs ++ [b])) (cs ++ [b]) := by
  have hbv := (hslot.old h.wf).2.2.1
  refine ⟨?_, rfl, fun c hc => ?_⟩
  · cases hcs : cs with
    | nil => exact Linked.singleton hbv.2 hs.next
    | cons c rest =>
      have hne : cs ≠ [] := by rw [hcs]; exact List.cons_ne_nil _ _
      have hlk : Linked s'.next noBlock (cs.headD noBlock) (cs ++ [b]) := by
        refine h.chain.linked.snoc hne (fun d hd hdl => ?_) ?_ hbv.2 hs.next
        · rw [Store.next, hs.page_eq h hslot hd hdl]; rfl
        · rw [Store.next, hs.last hne]; rfl
      rw [hcs] at hlk
      exact hlk
  · rcases List.mem_append.1 hc with hc | hc
    · rw [hs.body_eq h hslot c hc]; exact h.chain.tagged c hc
    · rw [List.mem_singleton.1 hc, hs.body]; exact outBody_tag

theorem Persisted.chainRefs_eq (hs : Persisted s s' direct t cs b pend)
    (h : Building strong V t e s m cs done) (hslot : OutSlot s m b free) :
    chainRefs s' (cs ++ [b]) = done ++ pend := by
  have hcs : chainRefs s' cs = chainRefs s cs := by
    unfold chainRefs
    exact List.flatMap_congr fun c hc => by rw [hs.body_eq h hslot c hc]
  rw [chainRefs_append, hcs, h.refs]
  simp only [chainRefs, List.flatMap_singleton, hs.body, outBody_refs]

theorem Persisted.entry (hs : Persisted s s' direct t cs b pend)
    (h : Building strong V t e s m cs done) (hslot : OutSlot s m b free) : s'.entry t = some e := by
  have hk := Store.entry_kind h.entry
  have hpage : s'.page t.page = s.page t.page := by
    refine hs.other _ (h.wf.ne_zero (hk.trans_ne (by decide))) ?_ fun hne hcl => ?_
    · rintro rfl
      have hold := (hslot.old h.wf).1
      rw [hk] at hold
      rcases hold with ho | ho <;> cases ho
    · exact (h.wf.posting_place h.entry (h.chain.tagged _ (lastD_mem noBlock hne))).2.1 hcl.symm
  rw [Store.entry, Store.body_eq_of_page hpage]; exact h.entry

theorem Persisted.freeOk (hs : Persisted s s' direct t cs b pend)
    (h : Building strong V t e s m cs done) (hslot : OutSlot s m b free)
    (hl : s'.layout = s.layout) : FreeOk s' free := by
  refine hslot.freeOk h.wf ?_ (fun c hcb hk => ?_) hl
  · rw [hs.body, outBody_kind]
    split_ifs <;> decide
  · refine hs.other c ?_ hcb fun hne hcl => ?_
    · rintro rfl
      rw [h.wf.kind_zero, hs.info] at hk
      rcases hk with hk | hk <;> cases hk
    · have hkp := isPosting_of_tag (h.chain.tagged _ (lastD_mem noBlock hne))
      rw [hcl, hs.body_eq h hslot _ (lastD_mem noBlock hne), or_self] at hk
      rw [hk] at hkp; exact absurd hkp (by decide)

/-- The journal names the output pages with the new one. -/
theorem Persisted.journalOk (hs : Persisted s s' direct t cs b pend)
    (h : Building strong V t e s m cs done) (hslot : OutSlot s m b free)
    (hsorted : (done ++ pend).Pairwise OwnerRef.Before) :
    JournalOk s' (buildJournal (cs ++ [b])) := by
  have htail : b ≠ e.tail := by
    obtain ⟨bs, hch, -⟩ := h.wf.chains.chain t e h.entry
    obtain ⟨-, -, -, -, htag⟩ := chain_tail hch h.linked.1 h.linked.2
    rintro rfl
    rw [hslot.not_posting h.wf] at htag; cases htag
  have hchain := hs.chain h hslot
  have hhead : (cs ++ [b]).headD noBlock = cs.headD b := by cases cs <;> rfl
  rw [hhead, lastD_concat] at hchain
  rw [buildJournal_concat]
  rintro j ⟨⟩
  refine ⟨t, e, cs ++ [b], hs.entry h hslot, hchain, by simp, ?_, htail⟩
  rw [hs.chainRefs_eq h hslot]
  exact hsorted

/-- No page that the commit writes points at an empty one. -/
theorem persist_closed (h : Building strong V t e s m cs done) (hslot : OutSlot s m b free)
    (hp : (outPage s direct b t pend).Valid s.layout)
    (hcm : Committed s s' (metaPage (m.withJournal (buildJournal (cs ++ [b])) free) ::
      persistPages s cs (outPage s direct b t pend))) : ClosedOk s' := by
  have hw := h.wf
  have hok := persistPages_ok h hslot hp
  have hwritten : ∀ q ∈ metaPage (m.withJournal (buildJournal (cs ++ [b])) free) ::
      persistPages s cs (outPage s direct b t pend), q.kind ≠ .zero := fun q hq =>
    (hok.2.2.1 q hq).2.1
  have hkeep := hcm.keepsWritten hwritten
  have hnz : (s'.body b).kind ≠ .zero := by
    rw [(persisted_of_committed hw hcm).body]; exact outPage_kind_ne_zero (b := b)
  refine hcm.closed hw.closed hwritten ?_
  rw [List.forall_mem_cons]
  refine ⟨metaPage_links _, fun q hq => ?_⟩
  rcases mem_persistPages hq with rfl | ⟨hne, rfl⟩
  · refine ⟨.inl rfl, fun o ho => ?_⟩
    change o ∈ (outBody s direct t pend).slots at ho
    unfold outBody at ho
    split_ifs at ho <;> exact absurd ho List.not_mem_nil
  · refine ⟨.inr hnz, fun o ho => ?_⟩
    have hlz := (hw.posting_place h.entry (h.chain.tagged _ (lastD_mem noBlock hne))).2.2
    exact ((hw.closed.links hlz).keeps hkeep).payload o ho

/-- The commit of a finished output page: the page joins the output chain. -/
theorem persist_step (h : Building strong V t e s m cs done)
    (hslot : OutSlot s m b free) (hp : (outPage s direct b t pend).Valid s.layout)
    (hr : OutRefs s pend) (hsorted : (done ++ pend).Pairwise OwnerRef.Before)
    (hcm : Committed s s' (metaPage (m.withJournal (buildJournal (cs ++ [b])) free) ::
      persistPages s cs (outPage s direct b t pend))) :
    Building strong V t e s' (m.withJournal (buildJournal (cs ++ [b])) free) (cs ++ [b])
        (done ++ pend) ∧ OffStep s s' := by
  have hs := persisted_of_committed h.wf hcm
  obtain ⟨hwf, hstep⟩ := h.wf.off_step (persistPages_ok h hslot hp) hcm
    (persistPages_off h hslot hr) (hs.journalOk h hslot hsorted) (hs.freeOk h hslot hcm.layout)
    (persist_closed h hslot hp hcm)
  refine ⟨⟨hwf, h.shows.of_step hstep, hs.entry h hslot, h.linked, rfl, hs.chain h hslot,
    hs.chainRefs_eq h hslot, fun c hc => ?_⟩, hstep⟩
  rcases List.mem_append.1 hc with hc | hc
  · rw [hs.body_eq h hslot c hc]; exact h.kind c hc
  · rw [List.mem_singleton.1 hc, hs.body, outBody_kind]
    split_ifs
    · exact .inr rfl
    · exact .inl rfl

end

theorem persistOutput_spec {pend : List OwnerRef} (h : Building strong V t e s m cs done)
    (hslot : OutSlot s m b free) (hp : (outPage s direct b t pend).Valid s.layout)
    (hr : OutRefs s pend) (hsorted : (done ++ pend).Pairwise OwnerRef.Before) :
    Spec HostRefused (Good strong V) s
      (persistOutput (metaPage (m.withJournal m.journal free)) (outPage s direct b t pend))
      fun p s' => ∃ m', p = metaPage m' ∧ Building strong V t e s' m' (cs ++ [b]) (done ++ pend) ∧
        OffStep s s' ∧ m'.core = m.core := by
  have hw := h.wf
  have hfree := (hslot.old hw).2.2.2
  have hnext : cs ≠ [] → ({ s.page (lastD noBlock cs) with next := b } : Page).NextOk :=
    persist_nextOk h hslot
  have hc := persistPages_ok h hslot hp
  have hpost := fun s' (hcm : Committed s s' _) => persist_step h hslot hp hr hsorted hcm
  have hok : (m.withJournal m.journal free).Ok s.layout :=
    hw.metaOk.withJournal hw.metaOk.journal hfree
  have hjb : ∀ j ∈ buildJournal (cs ++ [b]), j.Ok := by
    have := (hc.2.2.1 _ List.mem_cons_self).1.body
    exact MetaBody.Ok.journal this
  have hfin : Spec HostRefused (Good strong V) s (do
      commit (metaPage (m.withJournal (buildJournal (cs ++ [b])) free) ::
        persistPages s cs (outPage s direct b t pend))
      return metaPage (m.withJournal (buildJournal (cs ++ [b])) free)) fun p s' =>
      ∃ m', p = metaPage m' ∧ Building strong V t e s' m' (cs ++ [b]) (done ++ pend) ∧
        OffStep s s' ∧ m'.core = m.core := by
    refine (commit_spec hc fun s' hcm => (hpost s' hcm).1.good).bind fun _ s' hcm => ?_
    exact Spec.pure ⟨_, rfl, (hpost s' hcm).1, (hpost s' hcm).2, rfl⟩
  refine Spec.ofExcept_bind (metaPage_rewriteJournal hok) ?_
  simp only [h.journal]
  cases hcs : cs with
  | nil =>
    subst hcs
    refine Spec.ofExcept_bind (metaPage_setRewriteJournal hjb) ?_
    exact hfin
  | cons c rest =>
    have hne : cs ≠ [] := by rw [hcs]; exact List.cons_ne_nil _ _
    obtain ⟨htag, hnx⟩ := chain_headD h.chain hne
    have hkl := h.kind _ (lastD_mem noBlock hne)
    have hterm : (outPage s direct b t pend).postingTerm = .ok t := by
      rw [Page.postingTerm, show (outPage s direct b t pend).body.postingTag = some t
        from outBody_tag]
    rw [hcs] at hfin hjb hnext htag hnx hkl
    refine Spec.ensure_bind rfl ?_
    refine Spec.ofExcept_bind hterm ?_
    refine Spec.reading_bind (loadPosting_returns (b := lastD noBlock (c :: rest)) hw.pages htag) ?_
    rintro _ rfl
    refine Spec.ensure_bind ⟨hnx, hkl⟩ ?_
    refine Spec.ofExcept_bind (setNext_eq (hnext (List.cons_ne_nil _ _))) ?_
    have hjc : buildJournal (c :: rest ++ [b]) =
        some { (⟨c, lastD noBlock (c :: rest), .building⟩ : RewriteJournal) with tail := b } := by
      rw [buildJournal_concat]; rfl
    rw [hjc] at hjb hfin
    refine Spec.ofExcept_bind (metaPage_setRewriteJournal hjb) ?_
    exact hfin

end

end PinCore
