import PinCore.Insert.Payload
import PinCore.State.EntryStep

/-!
# Linking a term

Adding the newest owner to the listing of one term: as the inline second of a packed entry, by
promoting an inline second to a chain, as the first page of a chain, on the last page of a
chain, or on a new page behind it; and as the first owner of a new entry.
-/

namespace PinCore

open Prog

/-- The kinds that linking never touches. -/
def PageKind.Outside (k : PageKind) : Prop :=
  k = .owners ∨ k = .free ∨ k = .fragment ∨ k = .grouped

instance (k : PageKind) : Decidable k.Outside := inferInstanceAs (Decidable (_ ∨ _))

section

variable {strong : Prop} {s s' : Store} {m : MetaBody} {V : View} {owner : OwnerRef}
  {o : OwnerSlot} {xs : List Text} {t : TermRef} {e e' : Entry} {bs bs' : List ℕ}
  {ps : List Page}

/-! ### The documents after one more posting -/

theorem Reserved.not_live (hr : Reserved s owner o xs) (hd : o.liveRoot = none)
    (hv : Shows s V) : ∀ v ∈ V.docs, v.owner ≠ owner := by
  rintro v hm rfl
  have := (hv.live v.owner v.root).2 ⟨v.document, hm⟩
  rw [Store.rootOf_eq hr.owns, hd] at this
  cases this

/-- A posting of the newest, unpublished owner shows no other documents. -/
theorem Shows.of_posted {x : Text} (hv : Shows s V) (ho : Same (· = .owners) s s')
    (hn : ∀ v ∈ V.docs, v.owner ≠ owner)
    (hp : ∀ y r, Posted s' y r ↔ Posted s y r ∨ (y = x ∧ r = owner)) : Shows s' V where
  sorted := hv.sorted
  live r y := by rw [Store.rootOf_same ho]; exact hv.live r y
  posted v hm y := by
    rw [hp, ← hv.posted v hm y]
    exact ⟨fun h => h.resolve_right fun h => hn v hm h.2, .inl⟩
  closed r o hr := hv.closed r o ((Store.owns_same ho).1 hr)

theorem Reserved.of_posted {x : Text} (hr : Reserved s owner o xs) (ho : Same (· = .owners) s s')
    (hd : ∀ b y, y ∈ (s'.body b).records → y ∈ (s.body b).records)
    (hp : ∀ y r, Posted s' y r ↔ Posted s y r ∨ (y = x ∧ r = owner)) :
    Reserved s' owner o (x :: xs) where
  owns := hr.owns.same ho
  newest r hk := hr.newest r ((Store.known_same ho).1 hk)
  posted y := by
    rw [hp, hr.posted, List.mem_cons]
    constructor
    · rintro (h | ⟨h, -⟩)
      · exact .inr h
      · exact .inl h
    · rintro (h | h)
      · exact .inr ⟨h, rfl⟩
      · exact .inl h
  direct b y hy := hr.direct b y (hd b y hy)

/-! ### Pages of a link -/

/-- The images of one link of `owner` to the entry at `t`: its dictionary page, new posting pages
and pages of its chain. -/
structure LinkPages (s : Store) (t : TermRef) (bs : List ℕ) (owner : OwnerRef) (ps : List Page) :
    Prop where
  shape : ∀ p ∈ ps, (p.block = t.page ∧ p.kind = .dictionary) ∨
    (p.body.postingTag = some t ∧ ((s.body p.block).kind = .zero ∨ p.block ∈ bs))
  refs : ∀ p ∈ ps, ∀ r ∈ p.body.postingRefs, r = owner ∨ s.Known r
  records : ∀ p ∈ ps, ∀ x ∈ p.body.records, x ∈ (s.body p.block).records
  next : ∀ p ∈ ps, p.next = noBlock ∨ (s.body p.next).kind ≠ .zero ∨ ∃ q ∈ ps, q.block = p.next
  last : ∀ p ∈ ps, p.body.postingTag = some t → p.next = noBlock ∨ p.next + 1 = s.blocks

theorem zero_tag {b : ℕ} (hb : (s.body b).kind = .zero) : (s.body b).postingTag = none := by
  revert hb; cases s.body b <;> simp [Body.kind, Body.postingTag]

theorem dictionary_tag {body : Body} (hb : body.kind = .dictionary) : body.postingTag = none := by
  revert hb; cases body <;> simp [Body.kind, Body.postingTag]

/-- What a changed block held before: a dictionary page, nothing, or a page of the chain. -/
theorem LinkPages.old (hps : LinkPages s t bs owner ps) (he : s.entry t = some e)
    (hch : EntryChain s t e bs) {p : Page} (hp : p ∈ ps) :
    ((s.body p.block).kind = .dictionary ∨ (s.body p.block).kind = .zero ∨
      (s.body p.block).kind.IsPosting) ∧
    ∀ u, (s.body p.block).postingTag = some u → u = t ∧ p.block ∈ bs := by
  rcases hps.shape p hp with ⟨hb, -⟩ | ⟨-, hz | hb⟩
  · have hk := Store.entry_kind he
    rw [hb]
    exact ⟨.inl hk, fun u hu => by rw [dictionary_tag hk] at hu; cases hu⟩
  · exact ⟨.inr (.inl hz), fun u hu => by rw [zero_tag hz] at hu; cases hu⟩
  · have ht := hch.tagged _ hb
    refine ⟨.inr (.inr (isPosting_of_tag ht)), fun u hu => ?_⟩
    rw [ht] at hu
    exact ⟨(Option.some.inj hu).symm, hb⟩

theorem LinkPages.outside (hps : LinkPages s t bs owner ps) (he : s.entry t = some e)
    (hch : EntryChain s t e bs) (hcm : Committed s s' ps) : Same PageKind.Outside s s' := by
  refine hcm.same fun p hp => ⟨?_, ?_⟩
  · rcases (hps.old he hch hp).1 with hk | hk | hk | hk | hk <;> rw [hk] <;> decide
  · rcases hps.shape p hp with ⟨-, hk⟩ | ⟨ht, -⟩
    · rw [hk]; decide
    · change ¬ PageKind.Outside p.body.kind
      rcases isPosting_of_tag ht with hk | hk | hk <;> rw [hk] <;> decide

theorem LinkPages.written (hps : LinkPages s t bs owner ps) {p : Page} (hp : p ∈ ps) :
    p.kind ≠ .zero ∧ p.body.slots = [] := by
  rcases hps.shape p hp with ⟨-, hk⟩ | ⟨ht, -⟩
  · refine ⟨hk.trans_ne (by decide), ?_⟩
    have hk' : p.body.kind = .dictionary := hk
    revert hk'; cases p.body <;> simp [Body.kind, Body.slots]
  · refine ⟨?_, ?_⟩
    · exact (isPosting_of_tag ht).ne (by decide)
    · revert ht; cases p.body <;> simp [Body.postingTag, Body.slots]

theorem LinkPages.closed (hps : LinkPages s t bs owner ps) (h : ClosedOk s)
    (hcm : Committed s s' ps) : ClosedOk s' := by
  have hkeep := hcm.keepsWritten fun p hp => (hps.written hp).1
  refine hcm.closed h (fun p hp => (hps.written hp).1) fun p hp => ⟨?_, fun x hx => ?_⟩
  · rcases hps.next p hp with hn | hn | ⟨q, hq, hn⟩
    · exact .inl hn
    · exact .inr (hkeep _ hn)
    · exact .inr (by rw [← hn, hcm.body_mem hq]; exact (hps.written hq).1)
  · rw [(hps.written hp).2] at hx
    exact absurd hx List.not_mem_nil

/-- A page links at most to the last block, and nothing is past that. -/
theorem LinkPages.bounded (hps : LinkPages s t bs owner ps) (hp : PagesOk s) (hown : s.Known owner)
    (hc : CommitOk s ps) (hcm : Committed s s' ps) {n : ℕ} (hn : n ≤ s.blocks) (h : Bounded n s) :
    Bounded n s' := by
  intro b u hu hne hlt
  rcases hcm.cases b with ⟨p, hm, rfl, -⟩ | hpage
  · rw [hcm.body_mem hm] at hu ⊢
    rw [hcm.next_mem hm] at hne hlt
    have htag : p.body.postingTag = some t := by
      rcases hps.shape p hm with ⟨-, hk⟩ | ⟨ht, -⟩
      · rw [dictionary_tag hk] at hu
        cases hu
      · exact ht
    have hlast := (hps.last p hm htag).resolve_left hne
    have hblock := (hc.2.2.1 p hm).2.2
    refine ⟨by omega, fun r hr => ?_⟩
    have hknown : s.Known r := by
      rcases hps.refs p hm r hr with rfl | hk
      · exact hown
      · exact hk
    obtain ⟨o, ho⟩ := hknown
    have := hp.lt_blocks (ho.kind.trans_ne (by decide : PageKind.owners ≠ .zero))
    omega
  · rw [Store.body_eq_of_page hpage] at hu ⊢
    rw [Store.next, hpage] at hne hlt
    exact h b u hu hne hlt

/-- A page whose tag is another term, or no page of the chain, did not change. -/
theorem LinkPages.frame (hps : LinkPages s t bs owner ps) (he : s.entry t = some e)
    (hch : EntryChain s t e bs) (hcm : Committed s s' ps) {b : ℕ} {u : TermRef}
    (hb : (s.body b).postingTag = some u) (hu : u ≠ t ∨ b ∉ bs) : s'.page b = s.page b := by
  rcases hcm.cases b with ⟨p, hp, rfl, -⟩ | he
  · obtain ⟨h₁, h₂⟩ := (hps.old he hch hp).2 u hb
    rcases hu with hu | hu
    · exact absurd h₁ hu
    · exact absurd h₂ hu
  · exact he

theorem LinkPages.tags (hps : LinkPages s t bs owner ps) (hcm : Committed s s' ps) {b : ℕ}
    {u : TermRef} (hu : u ≠ t) (hb : (s'.body b).postingTag = some u) : s'.page b = s.page b := by
  rcases hcm.cases b with ⟨p, hp, rfl, -⟩ | he
  · rw [hcm.body_mem hp] at hb
    rcases hps.shape p hp with ⟨-, hk⟩ | ⟨ht, -⟩
    · rw [dictionary_tag hk] at hb; cases hb
    · rw [ht] at hb; exact absurd (Option.some.inj hb).symm hu
  · exact he

theorem LinkPages.info (hps : LinkPages s t bs owner ps) (h : WF strong s m)
    (he : s.entry t = some e) (hch : EntryChain s t e bs) (hcm : Committed s s' ps) :
    s'.page 0 = s.page 0 := by
  rcases hcm.cases 0 with ⟨p, hp, hb, -⟩ | he
  · have := (hps.old he hch hp).1
    rw [hb, h.kind_zero] at this
    exact absurd this (by decide)
  · exact he

theorem LinkPages.update (hps : LinkPages s t bs owner ps) {f : Entry → Entry} {p : Bool}
    {es : List Entry} (hp : PagesOk s) (hch : EntryChain s t e bs)
    (hcm : Committed s s' ps) (hf : ∀ e, (f e).term = e.term)
    (hb : s.body t.page = .dictionary p es)
    (hok : ∀ e, s.entry t = some e → (f e).Ok p t.page)
    (hmem : (s.page t.page).updateEntry t f ∈ ps) : EntryUpdate s s' t f := by
  obtain ⟨-, hblock, hnext, hbody⟩ := updateEntry_valid hp hf hb hok
  refine ⟨hf, ⟨p, es, hb, ?_⟩, ?_, fun b hbt hk => ?_⟩
  · have := hcm.body_mem hmem
    rw [hblock] at this
    rw [this, hbody]
  · have := hcm.next_mem hmem
    rw [hblock] at this
    rw [this, hnext]
  · rcases hcm.cases b with ⟨q, hq, rfl, -⟩ | he
    · exfalso
      rcases hps.shape q hq with ⟨hqb, -⟩ | ⟨htag, hold⟩
      · exact hbt hqb
      · rw [hcm.body_mem hq] at hk
        rcases hk with hk | hk
        · rcases hold with hz | hm
          · rw [hz] at hk; cases hk
          · have := hch.tagged _ hm
            rw [dictionary_tag hk] at this; cases this
        · rw [dictionary_tag hk] at htag; cases htag
    · exact he

/-! ### The effect of a link -/

/-- Every owner of the listing is before the newest one. -/
theorem Reserved.before (h : WF strong s m) (hr : Reserved s owner o xs) (hx : e.term ∉ xs)
    (he : s.entry t = some e) (hch : EntryChain s t e bs) :
    ∀ r ∈ entryRefs s e bs, r.Before owner := by
  intro r hmem
  have hposted : Posted s e.term r := ⟨t, e, bs, he, rfl, hch, hmem⟩
  rcases hr.newest r (hposted.known h.refs) with rfl | hb
  · exact absurd ((hr.posted e.term).1 hposted) hx
  · exact hb

/-- An insertion under way: the owner is reserved and unpublished, and `xs` are linked. -/
structure Pending (strong : Prop) (V : View) (s : Store) (m : MetaBody) (owner : OwnerRef)
    (o : OwnerSlot) (xs : List Text) : Prop where
  wf : WF strong s m
  shows : Shows s V
  reserved : Reserved s owner o xs
  dead : o.liveRoot = none

theorem Pending.good (h : Pending strong V s m owner o xs) : Good strong V s := ⟨m, h.wf, h.shows⟩

theorem Pending.grow (h : Pending strong V s m owner o xs) (hlt : s.blocks < noBlock) :
    Pending strong V s.grow m owner o xs :=
  ⟨h.wf.grow hlt, h.shows.grow h.wf.pages, h.reserved.of_free (same_grow h.wf.pages _), h.dead⟩

theorem Pending.link (hpend : Pending strong V s m owner o xs) (e' : Entry) (bs' : List ℕ)
    (hx : e.term ∉ xs)
    (he : s.entry t = some e)
    (hch : EntryChain s t e bs) (hps : LinkPages s t bs owner ps) (hc : CommitOk s ps)
    (hcm : Committed s s' ps) (he' : s'.entry t = some e')
    (hothers : ∀ u, u ≠ t → s'.entry u = s.entry u)
    (hdict : ∃ ds, DictOk s' m.packed m.bucket ds) (hgrows : EntryGrows e e')
    (hsecond : e'.second = e.second ∨ e'.second = some owner)
    (hch' : EntryChain s' t e' bs') (hrefs : entryRefs s' e' bs' = entryRefs s e bs ++ [owner])
    (htail : e'.tail = e.tail ∨ (s.body e'.tail).postingTag = none)
    (hdkept : ∀ b, (s.body b).kind = .dictionary →
      (s'.body b).kind = .dictionary ∧ s'.next b = s.next b)
    (hpkept : ∀ b ∈ bs, (s'.body b).postingTag = some t ∧
      (s.body b).postingRefs <+: (s'.body b).postingRefs ∧
      (s.next b ≠ noBlock → s'.page b = s.page b)) :
    Grows s s' ∧ Pending strong V s' m owner o (e.term :: xs) := by
  obtain ⟨h, hv, hr, hdead⟩ := hpend
  obtain ⟨ds, hd⟩ := h.dict
  have hsorted : (entryRefs s' e' bs').Pairwise OwnerRef.Before := by
    obtain ⟨cs, hcs, hp⟩ := h.chains.chain t e he
    rw [hcs.unique hch] at hp
    rw [hrefs]
    refine List.pairwise_append.2 ⟨hp, List.pairwise_singleton _ _, fun r hmem r' hr' => ?_⟩
    rw [List.mem_singleton.1 hr']
    exact hr.before h hx he hch r hmem
  have hstep : EntryStep s s' t e e' bs bs' := ⟨he, he', hothers, hgrows.term, hch, hch', hsorted,
    fun b u hu hb => hps.frame he hch hcm hb (.inl hu), fun b u hu hb => hps.tags hcm hu hb⟩
  have hout := hps.outside he hch hcm
  have howners : Same (· = .owners) s s' := hout.mono fun _ hk => .inl hk
  have hposted : ∀ y r, Posted s' y r ↔ Posted s y r ∨ (y = e.term ∧ r = owner) := fun y r =>
    hstep.posted_append hd h.chains hrefs
  have hrecords : ∀ b y, y ∈ (s'.body b).records → y ∈ (s.body b).records := by
    intro b y hy
    rcases hcm.cases b with ⟨p, hp, rfl, -⟩ | heq
    · rw [hcm.body_mem hp] at hy
      exact hps.records p hp y hy
    · rwa [Store.body_eq_of_page heq] at hy
  have hknown : ∀ r, s'.Known r ↔ s.Known r := fun r => Store.known_same howners
  have hentry : ∀ u f, s.entry u = some f → ∃ f', s'.entry u = some f' ∧ EntryGrows f f' := by
    intro u f hf
    by_cases hu : u = t
    · subst hu
      rw [he] at hf
      cases hf
      exact ⟨e', he', hgrows⟩
    · exact ⟨f, by rw [hothers u hu]; exact hf, .refl f⟩
  -- only the pages of this chain change, and their postings only grow
  have hposting : ∀ b u, (s.body b).postingTag = some u → (s'.body b).postingTag = some u ∧
      (s.body b).postingRefs <+: (s'.body b).postingRefs ∧
      (s.next b ≠ noBlock → s'.page b = s.page b) := by
    intro b u hb
    by_cases hbt : u = t ∧ b ∈ bs
    · obtain ⟨rfl, hbs⟩ := hbt
      exact hpkept b hbs
    · have hpage := hps.frame he hch hcm hb (not_and_or.1 hbt)
      rw [Store.body_eq_of_page hpage]
      exact ⟨hb, List.prefix_refl _, fun _ => hpage⟩
  refine ⟨.of_index (hout.mono fun _ hk => by rcases hk with rfl | rfl <;> decide)
      (Nat.le_of_eq hcm.blocks.symm)
      (fun b hb => ⟨(hdkept b hb).1, fun _ => (hdkept b hb).2⟩) hentry hposting
      (fun x r hx => (hposted x r).2 (.inl hx))
      fun n hn => hps.bounded h.pages ⟨o, hr.owns⟩ hc hcm hn,
    ⟨hcm.pages h.pages hc, ?_, h.owners.imp fun _ ho => ho.same howners, hdict,
    hstep.chains h.chains, ⟨?_, ?_, ?_, ?_⟩, ?_, ?_, ?_, hps.closed h.closed hcm, ?_⟩,
    hv.of_posted howners (hr.not_live hdead hv) hposted,
    hr.of_posted howners hrecords hposted, hdead⟩
  · rw [hps.info h he hch hcm]; exact h.info
  · intro u f hf
    by_cases hu : u = t
    · subst hu
      rw [he'] at hf
      cases hf
      rw [hknown, hgrows.first]
      exact h.refs.first u e he
    · rw [hothers u hu] at hf
      exact (hknown _).2 (h.refs.first u f hf)
  · intro u f r hf hr'
    by_cases hu : u = t
    · subst hu
      rw [he'] at hf
      cases hf
      rcases hsecond with h₂ | h₂
      · exact (hknown _).2 (h.refs.second u e r he (h₂ ▸ hr'))
      · rw [h₂] at hr'
        cases hr'
        exact ⟨o, hr.owns.same howners⟩
    · rw [hothers u hu] at hf
      exact (hknown _).2 (h.refs.second u f r hf hr')
  · intro b r hb
    rcases hcm.cases b with ⟨p, hp, rfl, -⟩ | heq
    · rw [hcm.body_mem hp] at hb
      rcases hps.refs p hp r hb with rfl | hk
      · exact ⟨o, hr.owns.same howners⟩
      · exact (hknown _).2 hk
    · rw [Store.body_eq_of_page heq] at hb
      exact (hknown _).2 (h.refs.posting b r hb)
  · intro b r offset payload hb
    rw [hout.body (.inr (by rw [hb]; exact .inr (.inr (.inl rfl))))] at hb
    exact (hknown _).2 (h.refs.fragment b r offset payload hb)
  · have hown : ∀ r x, s'.Owns r x → s.Owns r x := fun r x => (Store.owns_same howners).1
    exact ⟨fun b x y hx hy => h.direct.root b x y (hrecords b x hx) (hown _ _ hy),
      fun b x y hx hy => h.direct.live b x y (hrecords b x hx) (hown _ _ hy),
      fun hst b x y hx hy => h.direct.dead hst b x y (hrecords b x hx) (hown _ _ hy)⟩
  · exact hstep.journal h.journal (fun b hb hn => hps.frame he hch hcm hb (.inr hn)) htail
  · exact h.free.same (hout.mono fun _ hk => .inr (.inl hk))
  · exact h.grouped.same (hout.mono fun _ hk => .inr (.inr (.inr hk)))

end

/-! ### New posting pages -/

/-- The image of a mutable posting page. -/
def postingsPage (b : ℕ) (t : TermRef) (refs : List OwnerRef) : Page :=
  ⟨b, noBlock, .postings t refs, false⟩

section

variable {strong : Prop} {s : Store} {m : MetaBody} {t : TermRef} {e : Entry} {b : ℕ}
  {refs : List OwnerRef} {owner : OwnerRef}

theorem termRef_ok (h : WF strong s m) (he : s.entry t = some e) : t.Ok := by
  have hk := Store.entry_kind he
  obtain ⟨p, es, -, hf⟩ := Store.entry_eq_some he
  exact ⟨h.pages.blockValid (hk.trans_ne (by decide)) (hk.trans_ne (by decide)),
    (findEntry_range hf).1⟩

theorem postings_new (ht : t.Ok) (hb : blockValid b) :
    Page.postings b t = .ok (postingsPage b t []) := by
  rw [Page.postings, if_pos ht]
  exact if_neg (not_or.2 ⟨hb.2, not_not.2 ⟨fun h0 => absurd h0 hb.1, fun hk => nomatch hk⟩⟩)

theorem postingsPage_appendPosting (ho : owner.Valid) (hlen : refs.length ≤ 1) :
    (postingsPage b t refs).appendPosting owner =
      .ok (some (postingsPage b t (refs ++ [owner]))) := by
  have hl : ¬ capacity < (postingsPage b t refs).len + 16 := by
    have : (postingsPage b t refs).len = postingHeader + refs.length * 16 := rfl
    rw [this]
    simp only [capacity, postingHeader]
    omega
  refine (if_neg hl).trans (if_neg (not_not.2 ⟨ho.1, ho.2.1⟩))

theorem postingsPage_append (ho : owner.Valid) (hlen : refs.length ≤ 1) :
    appendPosting (postingsPage b t refs) owner = .ok (postingsPage b t (refs ++ [owner])) := by
  rw [appendPosting, postingsPage_appendPosting ho hlen]
  rfl

theorem postingsPage_valid {l : HeapLayout} (ht : t.Ok) (hb : blockValid b)
    (hv : ∀ r ∈ refs, r.Valid) (hp : refs.Pairwise OwnerRef.Before) (hlen : refs.length ≤ 2) :
    (postingsPage b t refs).Valid l where
  next _ := .inl rfl
  block _ := ⟨fun h0 => absurd h0 hb.1, fun hk => nomatch hk⟩
  body := ⟨ht, hv, hp⟩
  len := by
    have : (postingsPage b t refs).len = postingHeader + refs.length * 16 := rfl
    rw [this]
    simp only [capacity, postingHeader]
    omega

theorem entry_body (hp : PagesOk s) (he : s.entry t = some e) :
    ∃ p es, s.body t.page = .dictionary p es ∧ e.Ok p t.page := by
  obtain ⟨p, es, hb, hf⟩ := Store.entry_eq_some he
  exact ⟨p, es, hb, hp.entriesOk hb e (findEntry_mem hf)⟩

end

/-! ### The five ways to link -/

section

variable {strong : Prop} {s : Store} {m : MetaBody} {V : View} {owner : OwnerRef}
  {o : OwnerSlot} {xs : List Text} {t : TermRef} {e : Entry} {bs : List ℕ} {b : ℕ} {p : Bool}
  {es : List Entry}

/-- The commit is accepted and leaves one more linked term. -/
def LinksTo (strong : Prop) (V : View) (s : Store) (m : MetaBody) (owner : OwnerRef)
    (o : OwnerSlot) (xs : List Text) (ps : List Page) : Prop :=
  CommitOk s ps ∧ ∀ s', Committed s s' ps → Grows s s' ∧ Pending strong V s' m owner o xs

/-- One page of a link besides the dictionary page. -/
structure LinkPage (s : Store) (t : TermRef) (bs : List ℕ) (owner : OwnerRef) (q : Page) :
    Prop where
  valid : q.Valid s.layout
  lt : q.block < s.blocks
  tag : q.body.postingTag = some t
  old : (s.body q.block).kind = .zero ∨ q.block ∈ bs
  kept : q.block ∈ bs →
    s.next q.block = noBlock ∧ (s.body q.block).postingRefs <+: q.body.postingRefs
  refs : ∀ r ∈ q.body.postingRefs, r = owner ∨ s.Known r
  records : ∀ x ∈ q.body.records, x ∈ (s.body q.block).records
  last : q.next = noBlock ∨ q.next + 1 = s.blocks

theorem LinkPage.kind {q : Page} (h : LinkPage s t bs owner q) : q.kind.IsPosting :=
  isPosting_of_tag h.tag

/-- A link that rewrites the entry by `f` and writes the posting pages `qs`. -/
theorem Pending.link_entry {f : Entry → Entry} {qs : List Page}
    (h : Pending strong V s m owner o xs) (bs' : List ℕ) (hx : e.term ∉ xs)
    (he : s.entry t = some e)
    (hb : s.body t.page = .dictionary p es) (hch : EntryChain s t e bs)
    (hf : ∀ e, (f e).term = e.term) (hok : (f e).Ok p t.page) (hgrows : EntryGrows e (f e))
    (hsecond : (f e).second = e.second ∨ (f e).second = some owner)
    (hqs : ∀ q ∈ qs, LinkPage s t bs owner q) (hnd : (qs.map (·.block)).Nodup)
    (hlen : qs.length ≤ 2)
    (hnext : ∀ q ∈ qs, q.next = noBlock ∨ (s.body q.next).kind ≠ .zero ∨
      ∃ q' ∈ qs, q'.block = q.next)
    (htail : (f e).tail = e.tail ∨ (s.body (f e).tail).postingTag = none)
    (hnew : ∀ s', Committed s s' ((s.page t.page).updateEntry t f :: qs) →
      EntryChain s' t (f e) bs' ∧ entryRefs s' (f e) bs' = entryRefs s e bs ++ [owner]) :
    LinksTo strong V s m owner o (e.term :: xs) ((s.page t.page).updateEntry t f :: qs) := by
  have hk := Store.entry_kind he
  have hok' : ∀ x, s.entry t = some x → (f x).Ok p t.page := by
    intro x hx'
    rw [he] at hx'
    cases hx'
    exact hok
  obtain ⟨hvalid, hblock, hdnext, hbody⟩ := updateEntry_valid h.wf.pages hf hb hok'
  have hdk : ((s.page t.page).updateEntry t f).kind = .dictionary := by
    rw [Page.kind, hbody]; rfl
  have hne : ∀ q ∈ qs, q.block ≠ t.page := by
    intro q hq heq
    rcases (hqs q hq).old with hz | hm
    · rw [heq, hk] at hz; cases hz
    · have := hch.tagged _ hm
      rw [heq, dictionary_tag hk] at this; cases this
  have hc : CommitOk s ((s.page t.page).updateEntry t f :: qs) := by
    refine ⟨List.cons_ne_nil _ _, by simp [maxWalPages]; omega, ?_, ?_⟩
    · intro q hq
      rcases List.mem_cons.1 hq with rfl | hq
      · refine ⟨hvalid, hdk.trans_ne (by decide), ?_⟩
        rw [hblock]; exact h.wf.pages.lt_blocks (hk.trans_ne (by decide))
      · exact ⟨(hqs q hq).valid, (hqs q hq).kind.ne (by decide), (hqs q hq).lt⟩
    · rw [List.map_cons, List.nodup_cons, hblock]
      refine ⟨fun hm => ?_, hnd⟩
      obtain ⟨q, hq, heq⟩ := List.mem_map.1 hm
      exact hne q hq heq
  have hps : LinkPages s t bs owner ((s.page t.page).updateEntry t f :: qs) := by
    constructor <;> rw [List.forall_mem_cons]
    · exact ⟨.inl ⟨hblock, hdk⟩, fun q hq => .inr ⟨(hqs q hq).tag, (hqs q hq).old⟩⟩
    · rw [hbody]
      exact ⟨fun _ hr => absurd hr List.not_mem_nil, fun q hq => (hqs q hq).refs⟩
    · rw [hbody]
      exact ⟨fun _ hr => absurd hr List.not_mem_nil, fun q hq => (hqs q hq).records⟩
    · rw [hdnext]
      refine ⟨(h.wf.closed.next t.page (hk.trans_ne (by decide))).imp_right .inl, fun q hq => ?_⟩
      refine (hnext q hq).imp_right fun hn => hn.imp_right ?_
      rintro ⟨q', hq', heq⟩
      exact ⟨q', List.mem_cons_of_mem _ hq', heq⟩
    · refine ⟨fun htag => ?_, fun q hq _ => (hqs q hq).last⟩
      rw [dictionary_tag hdk] at htag
      cases htag
  refine ⟨hc, fun s' hcm => ?_⟩
  have hup := hps.update h.wf.pages hch hcm hf hb hok' List.mem_cons_self
  obtain ⟨hch', hrefs⟩ := hnew s' hcm
  refine h.link (f e) bs' hx he hch hps hc hcm (by rw [hup.self, he]; rfl)
    (fun u hu => hup.others hu)
    (h.wf.dict.imp fun _ hd => hup.dict hd) hgrows hsecond hch' hrefs htail ?_ ?_
  · intro c hck
    by_cases hct : c = t.page
    · subst hct
      obtain ⟨q, fs, -, hfs⟩ := hup.body
      exact ⟨by rw [hfs]; rfl, hup.next⟩
    · have hpage := hup.other c hct (.inl hck)
      rw [Store.body_eq_of_page hpage]
      exact ⟨hck, by rw [Store.next, hpage]; rfl⟩
  · intro c hcs
    have htag := hch.tagged c hcs
    rcases hcm.cases c with ⟨q, hq, rfl, -⟩ | hpage
    · rcases List.mem_cons.1 hq with rfl | hq
      · rw [hblock, dictionary_tag hk] at htag; cases htag
      · obtain ⟨hn, hpre⟩ := (hqs q hq).kept hcs
        rw [hcm.body_mem (List.mem_cons_of_mem _ hq)]
        exact ⟨(hqs q hq).tag, hpre, fun hne' => absurd hn hne'⟩
    · rw [Store.body_eq_of_page hpage]
      exact ⟨htag, List.prefix_refl _, fun _ => hpage⟩

/-- The entry with `owner` as its inline second. -/
def Entry.withSecond (owner : OwnerRef) (page : ℕ) (e : Entry) : Entry :=
  { e with second := some owner, inline := 1, head := page, tail := page }

/-- The entry promoted to a chain of one page. -/
def Entry.promoted (b : ℕ) (e : Entry) : Entry := { e with inline := 2, head := b, tail := b }

/-- The entry with another chain. -/
def Entry.withChain (head tail : ℕ) (e : Entry) : Entry := { e with head, tail }

theorem entryChain_of_ne (hi : e.inline ≠ 1) :
    EntryChain s t e bs ↔ Chain s t e.head e.tail bs := by
  rw [EntryChain, if_neg hi]

/-- An empty packed entry takes the owner as its inline second. -/
theorem link_inline (h : Pending strong V s m owner o xs) (hx : e.term ∉ xs)
    (he : s.entry t = some e) (hb : s.body t.page = .dictionary true es)
    (hok : e.Ok true t.page) (hi : e.inline ≠ 1) (hh : e.head = noBlock) :
    LinksTo strong V s m owner o (e.term :: xs)
      [(s.page t.page).updateEntry t (Entry.withSecond owner t.page)] := by
  obtain ⟨bs, hch, -⟩ := h.wf.chains.chain t e he
  obtain rfl : bs = [] := ((entryChain_of_ne hi).1 hch).linked.head_eq_stop_iff.1 hh
  have htp := (termRef_ok h.wf he).1
  have hbefore : e.first.Before owner :=
    h.reserved.before h.wf hx he hch _ List.mem_cons_self
  refine h.link_entry [] hx he hb hch (fun _ => rfl) ?_
    ⟨rfl, rfl, fun h1 => absurd h1 hi, fun _ hne => absurd hh hne⟩ (.inr rfl)
    (fun _ hq => absurd hq List.not_mem_nil) List.nodup_nil (Nat.zero_le _)
    (fun _ hq => absurd hq List.not_mem_nil) (.inr (dictionary_tag (Store.entry_kind he))) ?_
  · refine ⟨hok.nonempty, hok.length, hok.first, .inr ⟨htp, htp⟩, by simp [Entry.withSecond], ?_⟩
    exact ⟨fun h => absurd h (by decide), fun _ h => absurd h (by simp [Entry.withSecond]),
      fun _ _ => ⟨h.reserved.owns.valid h.wf.pages, hbefore⟩, fun _ _ => ⟨rfl, rfl⟩,
      fun _ h => absurd h (by simp [Entry.withSecond])⟩
  · intro s' _
    refine ⟨by simp [EntryChain, Entry.withSecond], ?_⟩
    simp [entryRefs, Entry.inlineRefs, Entry.withSecond, if_neg hi, chainRefs]

/-- The posting pages of a link in terms of a new page. -/
theorem linkPage_new {refs : List OwnerRef} (h : Pending strong V s m owner o xs)
    (he : s.entry t = some e) (hch : EntryChain s t e bs) (hz : (s.body b).kind = .zero)
    (hlt : b < s.blocks) (h0 : b ≠ 0)
    (hr : ∀ r ∈ refs, r = owner ∨ s.Known r) (hp : refs.Pairwise OwnerRef.Before)
    (hlen : refs.length ≤ 2) : LinkPage s t bs owner (postingsPage b t refs) := by
  have hnb : b ≠ noBlock := by
    have := h.wf.pages.le
    omega
  refine ⟨postingsPage_valid (termRef_ok h.wf he) ⟨h0, hnb⟩ (fun r hm => ?_) hp hlen, hlt, rfl,
    .inl hz, fun hm => ?_, hr, fun _ hx => absurd hx List.not_mem_nil, .inl rfl⟩
  on_goal 2 =>
    have htag := hch.tagged _ hm
    rw [show (postingsPage b t refs).block = b from rfl, zero_tag hz] at htag
    cases htag
  rcases hr r hm with rfl | ⟨x, hx⟩
  · exact h.reserved.owns.valid h.wf.pages
  · exact hx.valid h.wf.pages

/-- A chain of one new page. -/
theorem chain_new {s' : Store} {refs : List OwnerRef} {ps : List Page} (hcm : Committed s s' ps)
    (hm : postingsPage b t refs ∈ ps) (hb : b ≠ noBlock) :
    Chain s' t b b [b] ∧ chainRefs s' [b] = refs := by
  have hbody : s'.body b = .postings t refs := hcm.body_mem hm
  have hnext : s'.next b = noBlock := hcm.next_mem hm
  refine ⟨⟨Linked.singleton hb hnext, rfl, ?_⟩, ?_⟩
  · intro c hc
    rw [List.mem_singleton.1 hc, hbody]; rfl
  · rw [chainRefs, List.flatMap_singleton, hbody]; rfl

/-- The inline second moves to a chain page together with the new owner. -/
theorem link_promote {second : OwnerRef} (h : Pending strong V s m owner o xs) (hx : e.term ∉ xs)
    (he : s.entry t = some e) (hb : s.body t.page = .dictionary true es)
    (hok : e.Ok true t.page) (hi : e.inline = 1) (hs : e.second = some second)
    (hz : (s.body b).kind = .zero) (hlt : b < s.blocks) (h0 : b ≠ 0) :
    LinksTo strong V s m owner o (e.term :: xs)
      [(s.page t.page).updateEntry t (Entry.promoted b), postingsPage b t [second, owner]] := by
  obtain ⟨bs, hch, -⟩ := h.wf.chains.chain t e he
  obtain rfl : bs = [] := by unfold EntryChain at hch; rwa [if_pos hi] at hch
  have hnb : b ≠ noBlock := by
    have := h.wf.pages.le
    omega
  have hbt : b ≠ t.page := by
    rintro rfl
    rw [Store.entry_kind he] at hz; cases hz
  have hrefs : entryRefs s e [] = [e.first, second] := by
    simp [entryRefs, Entry.inlineRefs, hi, hs, chainRefs]
  have hbefore := h.reserved.before h.wf hx he hch
  rw [hrefs] at hbefore
  refine h.link_entry [b] hx he hb hch (fun _ => rfl) ?_
    ⟨rfl, rfl, fun _ => ⟨rfl, .inr ⟨rfl, hnb⟩⟩, fun h1 => absurd hi h1⟩ (.inl rfl) ?_ ?_ (by simp)
    ?_ (.inr (zero_tag hz)) ?_
  · refine ⟨hok.nonempty, hok.length, hok.first, .inr ⟨⟨h0, hnb⟩, ⟨h0, hnb⟩⟩,
      by simp [Entry.promoted], ?_⟩
    exact ⟨fun h => absurd h (by decide), fun _ h => absurd h (by simp [Entry.promoted]),
      fun _ _ => hok.state.second rfl (by rw [hi]; decide),
      fun _ h => absurd h (by simp [Entry.promoted]), fun _ _ => ⟨hnb, hnb, hbt, hbt⟩⟩
  · rw [List.forall_mem_singleton]
    refine linkPage_new h he hch hz hlt h0 ?_ ?_ (by simp)
    · intro r hr
      simp only [List.mem_cons, List.not_mem_nil, or_false] at hr
      rcases hr with rfl | rfl
      · exact .inr (h.wf.refs.second t e _ he hs)
      · exact .inl rfl
    · simpa using hbefore second (by simp)
  · exact List.nodup_singleton _
  · rw [List.forall_mem_singleton]; exact .inl rfl
  · intro s' hcm
    obtain ⟨hc, hr⟩ := chain_new hcm (List.mem_cons_of_mem _ (List.mem_singleton_self _)) hnb
    refine ⟨(entryChain_of_ne (by simp [Entry.promoted])).2 hc, ?_⟩
    rw [hrefs]
    simp [entryRefs, Entry.inlineRefs, Entry.promoted, hr]

/-- An entry keeps its checks when its chain moves to valid blocks. -/
theorem withChain_ok {head tail : ℕ} (hok : e.Ok p t.page) (hi : e.inline ≠ 1)
    (hh : blockValid head) (ht : blockValid tail) (hht : head ≠ t.page) (htt : tail ≠ t.page) :
    (e.withChain head tail).Ok p t.page :=
  ⟨hok.nonempty, hok.length, hok.first, .inr ⟨hh, ht⟩, hok.range,
    ⟨hok.state.plain, fun hp h0 => ⟨(hok.state.single hp h0).1, hht, htt⟩, hok.state.second,
      fun _ h1 => absurd h1 hi, fun _ _ => ⟨hh.2, ht.2, hht, htt⟩⟩⟩

/-- The first page of a chain. -/
theorem link_first (h : Pending strong V s m owner o xs) (hx : e.term ∉ xs)
    (he : s.entry t = some e) (hb : s.body t.page = .dictionary p es)
    (hok : e.Ok p t.page) (hi : e.inline ≠ 1) (hh : e.head = noBlock)
    (hz : (s.body b).kind = .zero) (hlt : b < s.blocks) (h0 : b ≠ 0) :
    LinksTo strong V s m owner o (e.term :: xs)
      [(s.page t.page).updateEntry t (Entry.withChain b b), postingsPage b t [owner]] := by
  obtain ⟨bs, hch, -⟩ := h.wf.chains.chain t e he
  obtain rfl : bs = [] := ((entryChain_of_ne hi).1 hch).linked.head_eq_stop_iff.1 hh
  have hnb : b ≠ noBlock := by
    have := h.wf.pages.le
    omega
  have hbt : b ≠ t.page := by
    rintro rfl
    rw [Store.entry_kind he] at hz; cases hz
  refine h.link_entry [b] hx he hb hch (fun _ => rfl)
    (withChain_ok hok hi ⟨h0, hnb⟩ ⟨h0, hnb⟩ hbt hbt)
    ⟨rfl, rfl, fun h1 => absurd h1 hi, fun _ hne => absurd hh hne⟩ (.inl rfl) ?_
    (List.nodup_singleton _) (by simp) ?_ (.inr (zero_tag hz)) ?_
  · rw [List.forall_mem_singleton]
    refine linkPage_new h he hch hz hlt h0 ?_ (List.pairwise_singleton _ _) (by simp)
    exact fun r hr => .inl (List.mem_singleton.1 hr)
  · rw [List.forall_mem_singleton]; exact .inl rfl
  · intro s' hcm
    obtain ⟨hc, hr⟩ := chain_new hcm (List.mem_cons_of_mem _ (List.mem_singleton_self _)) hnb
    refine ⟨(entryChain_of_ne (e := e.withChain b b) hi).2 hc, ?_⟩
    have hnil : chainRefs s [] = [] := rfl
    simp [entryRefs, Entry.inlineRefs, Entry.withChain, hi, hr, hnil]

/-- The last page of a chain. -/
theorem chain_tail (hch : EntryChain s t e bs) (hi : e.inline ≠ 1) (hh : e.head ≠ noBlock) :
    bs ≠ [] ∧ e.tail ∈ bs ∧ e.tail = lastD noBlock bs ∧ s.next e.tail = noBlock ∧
      (s.body e.tail).postingTag = some t := by
  have hc := (entryChain_of_ne hi).1 hch
  have hne : bs ≠ [] := fun hnil => hh (hc.linked.head_eq_stop_iff.2 hnil)
  have hmem : e.tail ∈ bs := by rw [hc.tail_eq]; exact lastD_mem noBlock hne
  refine ⟨hne, hmem, hc.tail_eq, ?_, hc.tagged _ hmem⟩
  have hl := hc.linked
  rw [eq_append_lastD noBlock hne, ← hc.tail_eq] at hl
  exact hl.next_last

/-- The owner fits the last, mutable page of the chain. -/
theorem link_append {refs : List OwnerRef} (h : Pending strong V s m owner o xs) (hx : e.term ∉ xs)
    (he : s.entry t = some e) (hi : e.inline ≠ 1) (hh : e.head ≠ noBlock)
    (htail : s.body e.tail = .postings t refs) (hroom : (s.page e.tail).len + 16 ≤ capacity) :
    LinksTo strong V s m owner o (e.term :: xs)
      [{ s.page e.tail with body := .postings t (refs ++ [owner]) }] := by
  obtain ⟨bs, hch, hsorted⟩ := h.wf.chains.chain t e he
  obtain ⟨hne, hmem, hlast, hnext, htag⟩ := chain_tail hch hi hh
  have hc := (entryChain_of_ne hi).1 hch
  have hbefore := h.reserved.before h.wf hx he hch
  have hpage := h.wf.pages.valid e.tail
  have hblock : (s.page e.tail).block = e.tail := h.wf.pages.block e.tail
  have hk : (s.page e.tail).kind = .postings := by
    change (s.body e.tail).kind = _
    rw [htail]; rfl
  have hbody : (s.page e.tail).body = .postings t refs := htail
  have hok : (s.body e.tail).Ok s.layout e.tail := h.wf.pages.ok e.tail
  rw [htail] at hok
  obtain ⟨htok, hval, hpw⟩ := hok
  have hin : ∀ r ∈ refs, r ∈ entryRefs s e bs := by
    intro r hr
    refine List.mem_cons_of_mem _ (List.mem_append_right _ (mem_chainRefs.2 ⟨e.tail, hmem, ?_⟩))
    rw [htail]; exact hr
  have hvalid : Page.Valid s.layout
      { s.page e.tail with body := .postings t (refs ++ [owner]) } := by
    refine ⟨fun _ => .inl hnext, fun _ => ?_, ⟨htok, fun r hr => ?_, ?_⟩, ?_⟩
    · have := hpage.block (hk.trans_ne (by decide))
      rw [hk] at this
      exact this
    · rcases List.mem_append.1 hr with hr | hr
      · exact hval r hr
      · rw [List.mem_singleton.1 hr]; exact h.reserved.owns.valid h.wf.pages
    · refine List.pairwise_append.2 ⟨hpw, List.pairwise_singleton _ _, fun r hr r' hr' => ?_⟩
      rw [List.mem_singleton.1 hr']
      exact hbefore r (hin r hr)
    · rw [Page.len, hbody] at hroom
      simp only [Page.len, List.length_append, List.length_singleton]
      simp only at hroom
      omega
  have hlt : (s.page e.tail).block < s.blocks := by
    rw [hblock]
    refine h.wf.pages.lt_blocks ?_
    rw [htail]; rintro ⟨⟩
  have hps : LinkPages s t bs owner
      [{ s.page e.tail with body := .postings t (refs ++ [owner]) }] := by
    constructor <;> rw [List.forall_mem_singleton]
    · exact .inr ⟨rfl, .inr (by rw [hblock]; exact hmem)⟩
    · intro r hr
      rcases List.mem_append.1 hr with hr | hr
      · refine .inr (h.wf.refs.posting e.tail r ?_)
        rw [htail]; exact hr
      · exact .inl (List.mem_singleton.1 hr)
    · exact fun _ hx => absurd hx List.not_mem_nil
    · exact .inl hnext
    · exact fun _ => .inl hnext
  have hco := commitOk_one hvalid (by rintro ⟨⟩) hlt
  refine ⟨hco, fun s' hcm => ?_⟩
  have hself : s'.body e.tail = .postings t (refs ++ [owner]) := by
    have := hcm.body_mem (List.mem_singleton_self _)
    rwa [hblock] at this
  have hsnext : s'.next e.tail = noBlock := by
    have := hcm.next_mem (List.mem_singleton_self _)
    rw [hblock] at this
    rw [this]; exact hnext
  have hother : ∀ c, c ≠ e.tail → s'.page c = s.page c := fun c hc =>
    hcm.one.2 c (by rw [hblock]; exact hc)
  have hdict : Same (· = .dictionary) s s' := by
    refine hcm.same_one (k := .postings) (by rw [hblock, htail]; rfl) ⟨?_, ?_⟩ <;>
      rintro ⟨⟩
  have hch' : Chain s' t e.head e.tail bs := by
    refine ⟨hc.linked.congr fun c hcm' => ?_, hc.tail_eq, fun c hcm' => ?_⟩
    · by_cases hct : c = e.tail
      · rw [hct, hsnext, hnext]
      · rw [Store.next, hother c hct]; rfl
    · by_cases hct : c = e.tail
      · rw [hct, hself]; rfl
      · rw [Store.body, hother c hct]; exact hc.tagged c hcm'
  have hrefs : chainRefs s' bs = chainRefs s bs ++ [owner] := by
    have heq := eq_append_lastD noBlock hne
    rw [← hlast] at heq
    have hnd := hc.linked.nodup
    rw [heq] at hnd ⊢
    rw [chainRefs_append, chainRefs_append, chainRefs_congr fun c hcm' => hother c ?_]
    · simp only [chainRefs, List.flatMap_singleton, hself, htail]
      exact (List.append_assoc _ _ _).symm
    · rintro rfl
      exact (List.nodup_append.1 hnd).2.2 _ hcm' _ (List.mem_singleton_self _) rfl
  refine h.link e bs hx he hch hps hco hcm ?_ ?_ ?_ (.refl e) (.inl rfl)
    ((entryChain_of_ne hi).2 hch') ?_ (.inl rfl) ?_ ?_
  · rw [Store.entry_same hdict]; exact he
  · exact fun u _ => Store.entry_same hdict u
  · exact h.wf.dict.imp fun _ hd => hd.same hdict
  · rw [entryRefs, entryRefs, hrefs, List.cons_append, List.append_assoc]
  · exact fun c hck => ⟨(hdict.kind_iff rfl).2 hck, hdict.next (.inl hck)⟩
  · intro c hcs
    by_cases hct : c = e.tail
    · rw [hct, hself, htail]
      exact ⟨rfl, List.prefix_append _ _, fun hne' => absurd hnext hne'⟩
    · rw [Store.body_eq_of_page (hother c hct)]
      exact ⟨hc.tagged c hcs, List.prefix_refl _, fun _ => hother c hct⟩

/-- The last page of the chain is full or compressed, and a new page follows it. -/
theorem link_behind (h : Pending strong V s m owner o xs) (hx : e.term ∉ xs)
    (he : s.entry t = some e) (hb : s.body t.page = .dictionary p es)
    (hok : e.Ok p t.page) (hi : e.inline ≠ 1) (hh : e.head ≠ noBlock)
    (hz : (s.body b).kind = .zero) (hlt : b + 1 = s.blocks) (h0 : b ≠ 0) :
    ({ s.page e.tail with next := b } : Page).NextOk ∧
    LinksTo strong V s m owner o (e.term :: xs)
      [(s.page t.page).updateEntry t (Entry.withChain e.head b), { s.page e.tail with next := b },
        postingsPage b t [owner]] := by
  obtain ⟨bs, hch, -⟩ := h.wf.chains.chain t e he
  obtain ⟨hne, hmem, hlast, hnext, htag⟩ := chain_tail hch hi hh
  have hc := (entryChain_of_ne hi).1 hch
  have hnb : b ≠ noBlock := by
    have := h.wf.pages.le
    omega
  have hbt : b ≠ t.page := by
    rintro rfl
    rw [Store.entry_kind he] at hz; cases hz
  have hbtail : b ≠ e.tail := by
    rintro rfl
    rw [zero_tag hz] at htag; cases htag
  have hblock : (s.page e.tail).block = e.tail := h.wf.pages.block e.tail
  have hkp : (s.page e.tail).kind.IsPosting := isPosting_of_tag htag
  have hnextOk : ({ s.page e.tail with next := b } : Page).NextOk := by
    refine .inr ⟨⟨h0, hnb⟩, by rw [hblock]; exact hbtail, ?_, ?_⟩
    · exact fun hk => absurd hk (hkp.ne (by decide))
    · rintro (hk | hk)
      · exact absurd hk (hkp.ne (by decide))
      · exact absurd hk (hkp.ne (by decide))
  have hkz : (s.body e.tail).kind ≠ .zero := hkp.ne (by decide)
  have hhead := hc.linked.head_mem hh
  have hheadt := hc.tagged _ hhead
  refine ⟨hnextOk, h.link_entry (bs ++ [b]) hx he hb hch (fun _ => rfl)
    (withChain_ok hok hi ?_ ⟨h0, hnb⟩ ?_ hbt)
    ⟨rfl, rfl, fun h1 => absurd h1 hi, fun _ _ => ⟨rfl, rfl, rfl⟩⟩ (.inl rfl) ?_ ?_ (by simp) ?_
    (.inr (zero_tag hz)) ?_⟩
  · rcases hok.pair with ⟨h1, -⟩ | ⟨h1, -⟩
    · exact absurd h1 hh
    · exact h1
  · intro heq
    rw [heq, dictionary_tag (Store.entry_kind he)] at hheadt; cases hheadt
  · rw [List.forall_mem_cons, List.forall_mem_singleton]
    refine ⟨⟨?_, ?_, htag, .inr (by rw [hblock]; exact hmem), fun _ => ?_, fun r hr => .inr ?_, ?_,
      .inr hlt⟩, ?_⟩
    · have hv := h.wf.pages.valid e.tail
      exact ⟨fun _ => hnextOk, hv.block, hv.body, hv.len⟩
    · rw [hblock]; exact h.wf.pages.lt_blocks hkz
    · rw [hblock]
      exact ⟨hnext, List.prefix_refl _⟩
    · exact h.wf.refs.posting e.tail r hr
    · rw [hblock]; exact fun _ hx => hx
    · refine linkPage_new h he hch hz (by omega) h0 ?_ (List.pairwise_singleton _ _) (by simp)
      exact fun r hr => .inl (List.mem_singleton.1 hr)
  · simpa [postingsPage, hblock] using hbtail.symm
  · rw [List.forall_mem_cons, List.forall_mem_singleton]
    exact ⟨.inr (.inr ⟨_, List.mem_cons_of_mem _ (List.mem_singleton_self _), rfl⟩), .inl rfl⟩
  · intro s' hcm
    have hnewm : postingsPage b t [owner] ∈ [(s.page t.page).updateEntry t
        (Entry.withChain e.head b), { s.page e.tail with next := b },
        postingsPage b t [owner]] := by simp
    obtain ⟨hcb, hrb⟩ := chain_new hcm hnewm hnb
    have hpt : s'.page e.tail = ({ s.page e.tail with next := b } : Page).stored := by
      have := hcm.mem { s.page e.tail with next := b } (by simp)
      rwa [hblock] at this
    -- of the old chain only the last page is written
    have hother : ∀ c ∈ bs, c ≠ e.tail → s'.page c = s.page c := by
      intro c hcs hct
      refine hcm.other c ?_
      have hctag := hc.tagged c hcs
      have hcp : c ≠ t.page := by
        rintro rfl
        rw [dictionary_tag (Store.entry_kind he)] at hctag; cases hctag
      have hcb' : c ≠ b := by
        rintro rfl
        rw [zero_tag hz] at hctag; cases hctag
      have hup : ((s.page t.page).updateEntry t (Entry.withChain e.head b)).block = t.page := by
        rw [Page.updateEntry, show (s.page t.page).body = _ from hb]
        exact h.wf.pages.block t.page
      simp only [List.mem_cons, List.not_mem_nil, or_false, forall_eq_or_imp, forall_eq, hup,
        hblock]
      exact ⟨hcp.symm, Ne.symm hct, hcb'.symm⟩
    have htags : ∀ c ∈ bs, s'.body c = s.body c := by
      intro c hcm'
      by_cases hct : c = e.tail
      · rw [hct, Store.body, hpt]; rfl
      · rw [Store.body, hother c hcm' hct]; rfl
    refine ⟨(entryChain_of_ne (e := e.withChain e.head b) hi).2 ⟨?_, ?_, ?_⟩, ?_⟩
    · refine hc.linked.snoc hne (fun c hcm' hct => ?_) ?_ hnb ?_
      · rw [Store.next, hother c hcm' (by rw [hlast]; exact hct)]; rfl
      · rw [← hlast, Store.next, hpt]; rfl
      · exact hcm.next_mem hnewm
    · exact lastD_concat.symm
    · intro c hcm'
      rcases List.mem_append.1 hcm' with hcm' | hcm'
      · rw [htags c hcm']; exact hc.tagged c hcm'
      · exact hcb.tagged c hcm'
    · have hold : chainRefs s' bs = chainRefs s bs := by
        unfold chainRefs
        exact List.flatMap_congr fun c hcm' => by rw [htags c hcm']
      simp only [entryRefs, chainRefs_append, hold, hrb]
      simp [Entry.inlineRefs, Entry.withChain, hi]

end

end PinCore
