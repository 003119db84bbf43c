import PinCore.Insert.Link

/-!
# Adding a term

The first posting of a term that has no entry: the entry is appended to the last page of its
bucket, on a new page behind it, or on the first page of the bucket.
-/

namespace PinCore

open Prog

/-- The kinds that a new entry leaves alone. -/
def PageKind.NotDictionary (k : PageKind) : Prop := k ≠ .dictionary ∧ k ≠ .zero ∧ k ≠ .info

instance (k : PageKind) : Decidable k.NotDictionary := inferInstanceAs (Decidable (_ ∧ _))

/-- The entry of a term with a single owner. -/
def newEntry (x : Text) (owner : OwnerRef) : Entry := ⟨x, noBlock, noBlock, owner, 0, none⟩

section

variable {strong : Prop} {s s' : Store} {m : MetaBody} {V : View} {owner : OwnerRef}
  {o : OwnerSlot} {xs : List Text} {x : Text} {t : TermRef} {packed : Bool}
  {bucket bucket' : ℕ → ℕ × ℕ} {bs : ℕ → List ℕ} {i : ℕ} {cs : List ℕ} {b : ℕ}

/-! ### Bucket chains -/

/-- The chains of two buckets share no page. -/
theorem DictOk.disjoint (hd : DictOk s packed bucket bs) {j : ℕ} (hi : i < buckets)
    (hj : j < buckets) (hb : b ∈ bs i) (hb' : b ∈ bs j) : i = j := by
  obtain ⟨p, es, hbody⟩ := dictionary_of_kind (hd.kind i hi b hb)
  obtain ⟨e, he⟩ := List.exists_mem_of_ne_nil _ (hd.format b p es hbody).2
  rw [← hd.route i hi b hb p es hbody e he, hd.route j hj b hb' p es hbody e he]

/-- The chains after the chain of bucket `i` became `cs`, with one new entry on it. -/
theorem DictOk.entry_new (hd : DictOk s packed bucket bs) (hi : i < buckets)
    (hbucket : ∀ j, j ≠ i → bucket' j = bucket j)
    (hl : Linked s'.next noBlock (bucket' i).1 cs) (ht : (bucket' i).2 = lastD noBlock cs)
    (ha : cs.Pairwise (· < ·)) (hk : ∀ c ∈ cs, (s'.body c).kind = .dictionary)
    (hsub : ∀ c ∈ bs i, c ∈ cs) (hfresh : ∀ c ∈ cs, c ∈ bs i ∨ (s.body c).kind = .zero)
    (hpage : ∀ c, c ∉ cs → (s.body c).kind = .dictionary ∨ (s'.body c).kind = .dictionary →
      s'.page c = s.page c)
    (hes : ∀ c ∈ cs, ∀ q fs, s'.body c = .dictionary q fs →
      q = packed ∧ fs ≠ [] ∧ ∀ e ∈ fs, bucketFor e.term = i)
    (hx : ∀ u e, s.entry u = some e → e.term ≠ x) (hnew : s'.entry t = some (newEntry x owner))
    (hothers : ∀ u, u ≠ t → s'.entry u = s.entry u) :
    DictOk s' packed bucket' fun j => if j = i then cs else bs j := by
  -- pages of other buckets are not on the changed chain
  have hout : ∀ j < buckets, j ≠ i → ∀ c ∈ bs j, c ∉ cs := by
    intro j hj hji c hc hcs
    rcases hfresh c hcs with hci | hz
    · exact hji (hd.disjoint hj hi hc hci)
    · rw [hd.kind j hj c hc] at hz; cases hz
  have hsame : ∀ j < buckets, j ≠ i → ∀ c ∈ bs j, s'.page c = s.page c := fun j hj hji c hc =>
    hpage c (hout j hj hji c hc) (.inl (hd.kind j hj c hc))
  refine ⟨fun j hj => ?_, fun j hj => ?_, fun j hj => ?_, fun j hj => ?_, fun c hc => ?_,
    fun c q fs hfs => ?_, fun j hj => ?_, fun u u' e e' he he' hee => ?_⟩
  · by_cases hji : j = i
    · subst hji; simpa using hl
    · rw [if_neg hji, hbucket j hji]
      refine (hd.linked j hj).congr fun c hc => ?_
      rw [Store.next, hsame j hj hji c hc]; rfl
  · by_cases hji : j = i
    · subst hji; simpa using ht
    · rw [if_neg hji, hbucket j hji]; exact hd.tail_eq j hj
  · by_cases hji : j = i
    · subst hji; simpa using hk
    · rw [if_neg hji]
      intro c hc
      rw [Store.body, hsame j hj hji c hc]; exact hd.kind j hj c hc
  · by_cases hji : j = i
    · subst hji; simpa using ha
    · rw [if_neg hji]; exact hd.ascending j hj
  · by_cases hcs : c ∈ cs
    · exact ⟨i, hi, by simpa using hcs⟩
    · have hc' := hc
      rw [Store.body_eq_of_page (hpage c hcs (.inr hc))] at hc'
      obtain ⟨j, hj, hm⟩ := hd.covered c hc'
      have hji : j ≠ i := by rintro rfl; exact hcs (hsub c hm)
      exact ⟨j, hj, by rw [if_neg hji]; exact hm⟩
  · by_cases hcs : c ∈ cs
    · exact ⟨(hes c hcs q fs hfs).1, (hes c hcs q fs hfs).2.1⟩
    · rw [Store.body_eq_of_page (hpage c hcs (.inr (by rw [hfs]; rfl)))] at hfs
      exact hd.format c q fs hfs
  · by_cases hji : j = i
    · subst hji
      simpa using fun c hc q fs hfs => (hes c hc q fs hfs).2.2
    · rw [if_neg hji]
      intro c hc q fs hfs
      rw [Store.body_eq_of_page (hsame j hj hji c hc)] at hfs
      exact hd.route j hj c hc q fs hfs
  · by_cases hu : u = t <;> by_cases hu' : u' = t
    · rw [hu, hu']
    · subst hu
      rw [hnew] at he
      cases he
      rw [hothers u' hu'] at he'
      exact absurd hee.symm (hx u' e' he')
    · subst hu'
      rw [hnew] at he'
      cases he'
      rw [hothers u hu] at he
      exact absurd hee (hx u e he)
    · rw [hothers u hu] at he
      rw [hothers u' hu'] at he'
      exact hd.unique u u' e e' he he' hee

/-! ### The effect of a new entry -/

theorem isPosting_notDictionary {k : PageKind} (h : k.IsPosting) : k.NotDictionary := by
  rcases h with rfl | rfl | rfl <;> decide

theorem Pending.entry_new (h : Pending strong V s m owner o xs)
    (hx : ∀ u e, s.entry u = some e → e.term ≠ x) (hp : PagesOk s')
    (hi : s'.page 0 = metaPage { m with bucket := bucket' }) (hs : Same PageKind.NotDictionary s s')
    (ht : s.entry t = none) (hnew : s'.entry t = some (newEntry x owner))
    (hothers : ∀ u, u ≠ t → s'.entry u = s.entry u)
    (hd : ∃ ds, DictOk s' m.packed bucket' ds) (hc : ClosedOk s') (hblocks : s'.blocks = s.blocks)
    (hkept : ∀ b, (s.body b).kind = .dictionary →
      (s'.body b).kind = .dictionary ∧ (s.next b ≠ noBlock → s'.next b = s.next b)) :
    Grows s s' ∧ Pending strong V s' { m with bucket := bucket' } owner o (x :: xs) := by
  obtain ⟨hw, hv, hr, hdead⟩ := h
  have howners : Same (· = .owners) s s' := hs.mono fun _ hk => by subst hk; decide
  have hknown : ∀ r, s'.Known r ↔ s.Known r := fun r => Store.known_same howners
  have hpage : ∀ {b u}, (s.body b).postingTag = some u → s'.page b = s.page b := fun hb =>
    hs.page _ (.inl (isPosting_notDictionary (isPosting_of_tag hb)))
  have hpage' : ∀ {b u}, (s'.body b).postingTag = some u → s'.page b = s.page b := fun hb =>
    hs.page _ (.inr (isPosting_notDictionary (isPosting_of_tag hb)))
  have hchain : ∀ {u e cs}, EntryChain s u e cs → EntryChain s' u e cs := fun hch =>
    hch.congr fun b hb => hpage (hch.tagged b hb)
  have hrefs : ∀ {u e cs}, EntryChain s u e cs → entryRefs s' e cs = entryRefs s e cs := fun hch =>
    entryRefs_congr fun b hb => hpage (hch.tagged b hb)
  have hcases : ∀ u e, s'.entry u = some e →
      (u = t ∧ e = newEntry x owner) ∨ (u ≠ t ∧ s.entry u = some e) := by
    intro u e he
    by_cases hu : u = t
    · subst hu; rw [hnew] at he; cases he; exact .inl ⟨rfl, rfl⟩
    · rw [hothers u hu] at he; exact .inr ⟨hu, he⟩
  have hkeep : ∀ u e, s.entry u = some e → s'.entry u = some e := by
    intro u e he
    rw [hothers u (by rintro rfl; rw [ht] at he; cases he)]; exact he
  have hempty : EntryChain s' t (newEntry x owner) [] :=
    (entryChain_of_ne (Nat.zero_ne_one)).2
      ⟨Linked.nil, rfl, fun _ hb => absurd hb List.not_mem_nil⟩
  have hsingle : entryRefs s' (newEntry x owner) [] = [owner] := rfl
  have hposted : ∀ y r, Posted s' y r ↔ Posted s y r ∨ (y = x ∧ r = owner) := by
    intro y r
    constructor
    · rintro ⟨u, e, cs, he, rfl, hch, hm⟩
      rcases hcases u e he with ⟨rfl, rfl⟩ | ⟨hu, he⟩
      · rw [hch.unique hempty, hsingle, List.mem_singleton] at hm
        exact .inr ⟨rfl, hm⟩
      · obtain ⟨cs', hch', -⟩ := hw.chains.chain u e he
        obtain rfl := (hchain hch').unique hch
        rw [hrefs hch'] at hm
        exact .inl ⟨u, e, cs', he, rfl, hch', hm⟩
    · rintro (⟨u, e, cs, he, rfl, hch, hm⟩ | ⟨rfl, rfl⟩)
      · exact ⟨u, e, cs, hkeep u e he, rfl, hchain hch, by rw [hrefs hch]; exact hm⟩
      · exact ⟨t, _, [], hnew, rfl, hempty, by rw [hsingle]; simp⟩
  have hrecords : ∀ b y, y ∈ (s'.body b).records → y ∈ (s.body b).records := by
    intro b y hy
    rwa [hs.body (.inr (by rw [records_kind hy]; decide))] at hy
  refine ⟨.of_index (hs.mono fun _ hk => by rcases hk with rfl | rfl <;> decide)
      (Nat.le_of_eq hblocks.symm) hkept
      (fun u e he => ⟨e, hkeep u e he, .refl e⟩) (fun b u hb => ?_)
      (fun y r hy => (hposted y r).2 (.inl hy)) fun n _ hn => ?_,
    ⟨hp, hi, hw.owners.imp fun _ ho => ho.same howners, hd, ⟨fun u e he => ?_, fun b u hb => ?_⟩,
    ⟨fun u e he => ?_, fun u e r he hr' => ?_, fun b r hb => ?_, fun b r offset payload hb => ?_⟩,
    hw.direct.same (hs.mono ?_), fun j hj => ?_, hw.free.same (hs.mono ?_), hc,
    hw.grouped.same (hs.mono ?_)⟩, hv.of_posted howners (hr.not_live hdead hv) hposted,
    hr.of_posted howners hrecords hposted, hdead⟩
  · rw [Store.body_eq_of_page (hpage hb)]
    exact ⟨hb, List.prefix_refl _, fun _ => hpage hb⟩
  · intro b u hu
    have hsame := hpage' hu
    rw [Store.next, hsame]
    rw [Store.body_eq_of_page hsame] at hu ⊢
    exact hn b u hu
  · rcases hcases u e he with ⟨rfl, rfl⟩ | ⟨hu, he⟩
    · exact ⟨[], hempty, by rw [hsingle]; exact List.pairwise_singleton _ _⟩
    · obtain ⟨cs, hch, hpw⟩ := hw.chains.chain u e he
      exact ⟨cs, hchain hch, by rw [hrefs hch]; exact hpw⟩
  · rw [Store.body_eq_of_page (hpage' hb)] at hb
    obtain ⟨e, he⟩ := hw.chains.tag b u hb
    exact ⟨e, hkeep u e he⟩
  · rcases hcases u e he with ⟨rfl, rfl⟩ | ⟨hu, he⟩
    · exact ⟨o, hr.owns.same howners⟩
    · exact (hknown _).2 (hw.refs.first u e he)
  · rcases hcases u e he with ⟨rfl, rfl⟩ | ⟨hu, he⟩
    · cases hr'
    · exact (hknown _).2 (hw.refs.second u e r he hr')
  · obtain ⟨u, hu⟩ := postingRefs_tag hb
    rw [Store.body_eq_of_page (hpage' hu)] at hb
    exact (hknown _).2 (hw.refs.posting b r hb)
  · rw [hs.body (.inr (by rw [hb]; exact (by decide : PageKind.fragment.NotDictionary)))] at hb
    exact (hknown _).2 (hw.refs.fragment b r offset payload hb)
  · rintro _ (rfl | rfl) <;> decide
  · obtain ⟨u, e, cs, he, hch, hne, hpw, htl⟩ := hw.journal j hj
    have hcp : ∀ b ∈ cs, s'.page b = s.page b := fun b hb => hpage (hch.tagged b hb)
    exact ⟨u, e, cs, hkeep u e he, hch.congr hcp, hne, by rw [chainRefs_congr hcp]; exact hpw, htl⟩
  · rintro _ rfl; decide
  · rintro _ rfl; decide

/-! ### The page of the new entry -/

theorem newEntry_ok (ho : owner.Valid) (hx : x ≠ []) (hlen : x.length ≤ maxTermBytes)
    (hb : b ≠ noBlock) : (newEntry x owner).Ok packed b where
  nonempty := hx
  length := hlen
  first := ho
  pair := .inl ⟨rfl, rfl⟩
  range := Nat.zero_le _
  state := ⟨fun _ => rfl, fun _ _ => ⟨rfl, hb.symm, hb.symm⟩, fun _ h => absurd rfl h,
    fun _ h => absurd h Nat.zero_ne_one, fun _ h => absurd h (by simp [newEntry])⟩

/-- The image of a fresh dictionary page with one entry. -/
def dictionaryPage (b : ℕ) (packed : Bool) (es : List Entry) : Page :=
  ⟨b, noBlock, .dictionary packed es, false⟩

@[simp] theorem dictionaryPage_kind {es : List Entry} :
    (dictionaryPage b packed es).kind = .dictionary := rfl

@[simp] theorem dictionaryPage_block {es : List Entry} :
    (dictionaryPage b packed es).block = b := rfl

theorem appendTerm_eq {p : Page} {es : List Entry} (hb : p.body = .dictionary packed es)
    (ho : owner.Valid) (hx : x ≠ []) (hlen : x.length ≤ maxTermBytes) :
    p.appendTerm x owner = .ok
      (if capacity < p.len + (newEntry x owner).size packed then none
      else some (⟨p.block, p.len⟩,
        { p with body := .dictionary packed (es ++ [newEntry x owner]) })) := by
  have hes : p.entries = .ok (packed, es) := by rw [Page.entries, hb]
  have hlim : ¬ (x = [] ∨ maxTermBytes < x.length) := not_or.2 ⟨hx, Nat.not_lt.2 hlen⟩
  have hval : ¬ ¬ (blockValid owner.page ∧ owner.slot < ownerSlots) := not_not.2 ⟨ho.1, ho.2.1⟩
  rw [Page.appendTerm, hes]
  refine (if_neg hlim).trans ?_
  by_cases hroom : capacity < p.len + (newEntry x owner).size packed
  · rw [if_pos hroom]; exact if_pos hroom
  · rw [if_neg hroom]
    exact (if_neg hroom).trans (if_neg hval)

theorem newEntry_size_le (owner : OwnerRef) (packed : Bool) (hlen : x.length ≤ maxTermBytes) :
    pageHeader + (newEntry x owner).size packed ≤ capacity := by
  have : (newEntry x owner).size packed ≤ dictionaryEntry + x.length + 16 := by
    unfold Entry.size
    split_ifs <;> simp only [newEntry] <;> omega
  simp only [pageHeader, capacity, dictionaryEntry, maxTermBytes] at *
  omega

theorem appendTerm_fresh (ho : owner.Valid) (hx : x ≠ []) (hlen : x.length ≤ maxTermBytes) :
    appendTerm (dictionaryPage b packed []) x owner =
      .ok (dictionaryPage b packed [newEntry x owner]) := by
  have hroom : ¬ capacity < (dictionaryPage b packed []).len + (newEntry x owner).size packed :=
    Nat.not_lt.2 (newEntry_size_le owner packed hlen)
  have happ := appendTerm_eq (p := dictionaryPage b packed []) rfl ho hx hlen
  rw [if_neg hroom] at happ
  rw [appendTerm, happ]
  rfl

theorem freshDictionary_eq (hb : blockValid b) :
    freshDictionary (metaPage m) b = .ok (dictionaryPage b m.packed []) := by
  have hnew : ∀ q : Bool, Page.new b (.dictionary q []) = .ok (dictionaryPage b q []) := fun q =>
    if_neg (not_or.2 ⟨hb.2, not_not.2 ⟨fun h0 => absurd h0 hb.1, fun hk => nomatch hk⟩⟩)
  change (if m.packed = true then Page.packedDictionary b else Page.dictionary b) = _
  cases m.packed
  · exact hnew false
  · exact hnew true

theorem dictionaryPage_valid {l : HeapLayout} (ho : owner.Valid) (hx : x ≠ [])
    (hlen : x.length ≤ maxTermBytes) (hb : blockValid b) :
    (dictionaryPage b packed [newEntry x owner]).Valid l where
  next _ := .inl rfl
  block _ := ⟨fun h0 => absurd h0 hb.1, fun hk => nomatch hk⟩
  body := by
    intro e he
    rw [List.mem_singleton.1 he]
    exact newEntry_ok ho hx hlen hb.2
  len := by
    have := newEntry_size_le owner packed hlen
    simpa [Page.len, dictionaryPage] using this

/-- The places of a dictionary page after an entry was appended. -/
theorem entry_append {es : List Entry} (hb : s.body b = .dictionary packed es)
    (hb' : s'.body b = .dictionary packed (es ++ [newEntry x owner]))
    (hother : ∀ u : TermRef, u.page ≠ b → s'.entry u = s.entry u) :
    s.entry ⟨b, (s.page b).len⟩ = none ∧ s'.entry ⟨b, (s.page b).len⟩ = some (newEntry x owner) ∧
      ∀ u, u ≠ ⟨b, (s.page b).len⟩ → s'.entry u = s.entry u := by
  have hlen : (s.page b).len = pageHeader + (es.map (Entry.size packed)).sum := by
    rw [Page.len, show (s.page b).body = _ from hb]
  refine ⟨?_, ?_, fun u hu => ?_⟩
  · rw [Store.entry, hb]
    refine Option.eq_none_iff_forall_not_mem.2 fun e he => ?_
    have := (findEntry_range he).2
    simp only [hlen] at this
    omega
  · rw [Store.entry, hb']
    change findEntry packed (s.page b).len pageHeader (es ++ [newEntry x owner]) = _
    rw [findEntry_append, if_pos hlen]
  · by_cases hub : u.page = b
    · rw [Store.entry, Store.entry, hub, hb, hb']
      change findEntry packed u.offset pageHeader (es ++ [newEntry x owner]) =
        findEntry packed u.offset pageHeader es
      rw [findEntry_append, if_neg]
      rintro ho
      refine hu ?_
      rw [← hlen] at ho
      cases u
      simp_all
    · exact hother u hub

/-- The only place of a fresh dictionary page. -/
theorem entry_fresh (hz : (s.body b).kind = .zero)
    (hb' : s'.body b = .dictionary packed [newEntry x owner])
    (hother : ∀ u : TermRef, u.page ≠ b → s'.entry u = s.entry u) :
    s.entry ⟨b, pageHeader⟩ = none ∧ s'.entry ⟨b, pageHeader⟩ = some (newEntry x owner) ∧
      ∀ u, u ≠ ⟨b, pageHeader⟩ → s'.entry u = s.entry u := by
  have hnone : ∀ u : TermRef, u.page = b → s.entry u = none := fun u hu =>
    Option.eq_none_iff_forall_not_mem.2 fun e he => by
      have := Store.entry_kind he
      rw [hu, hz] at this; cases this
  refine ⟨hnone _ rfl, ?_, fun u hu => ?_⟩
  · rw [Store.entry, hb']; rfl
  · by_cases hub : u.page = b
    · rw [hnone u hub, Store.entry, hub, hb']
      change (if pageHeader = u.offset then _ else none) = none
      rw [if_neg]
      rintro ho
      refine hu ?_
      cases u
      simp_all
    · exact hother u hub

/-- Entries on pages that did not change. -/
theorem entry_of_body (h0 : (s.body 0).kind = .info) (h0' : (s'.body 0).kind = .info)
    (hother : ∀ c, c ≠ b → c ≠ 0 → s'.body c = s.body c) {u : TermRef} (hu : u.page ≠ b) :
    s'.entry u = s.entry u := by
  have hnone : ∀ st : Store, (st.body 0).kind = .info → u.page = 0 → st.entry u = none := by
    intro st hk hu0
    refine Option.eq_none_iff_forall_not_mem.2 fun e he => ?_
    rw [← hu0, Store.entry_kind he] at hk; cases hk
  by_cases hu0 : u.page = 0
  · rw [hnone s h0 hu0, hnone s' h0' hu0]
  · rw [Store.entry, Store.entry, hother _ hu hu0]

/-! ### The three ways to add a term -/

/-- The metapage fields with another chain of one bucket. -/
def MetaBody.withBucket (m : MetaBody) (i head tail : ℕ) : MetaBody :=
  { m with bucket := fun j => if j = i then (head, tail) else m.bucket j }

theorem MetaBody.Ok.withBucket {l : HeapLayout} {head tail : ℕ} (h : m.Ok l)
    (hp : pairValid head tail) : (m.withBucket i head tail).Ok l :=
  ⟨h.maxOffset, h.incarnation, h.owners, h.free, h.journal, h.grouped, h.ids, h.refs, fun j hj => by
    change pairValid (if j = i then (head, tail) else m.bucket j).1
      (if j = i then (head, tail) else m.bucket j).2
    split_ifs
    · exact hp
    · exact h.bucket j hj⟩

/-- The first dictionary page of a bucket. -/
theorem link_bucket (h : Pending strong V s m owner o xs)
    (hx : ∀ u e, s.entry u = some e → e.term ≠ x) (hne : x ≠ []) (hlen : x.length ≤ maxTermBytes)
    (hh : (m.bucket (bucketFor x)).1 = noBlock) (hz : (s.body b).kind = .zero)
    (hlt : b < s.blocks) (h0 : b ≠ 0) :
    LinksTo strong V s (m.withBucket (bucketFor x) b b) owner o (x :: xs)
      [metaPage (m.withBucket (bucketFor x) b b),
        dictionaryPage b m.packed [newEntry x owner]] := by
  have hi := bucketFor_lt x
  have hnb : b ≠ noBlock := by
    have := h.wf.pages.le
    omega
  have hv := h.reserved.owns.valid h.wf.pages
  obtain ⟨ds, hd⟩ := h.wf.dict
  have hnil : ds (bucketFor x) = [] := (hd.linked _ hi).head_eq_stop_iff.1 hh
  have hc : CommitOk s [metaPage (m.withBucket (bucketFor x) b b),
      dictionaryPage b m.packed [newEntry x owner]] := by
    refine commitOk_two ⟨metaPage_valid (h.wf.metaOk.withBucket ?_), by simp, h.wf.pages.pos⟩
      ⟨dictionaryPage_valid hv hne hlen ⟨h0, hnb⟩, by simp, hlt⟩ (Ne.symm h0)
    exact .inr ⟨⟨h0, hnb⟩, ⟨h0, hnb⟩, Nat.le_refl _⟩
  refine ⟨hc, fun s' hcm => ?_⟩
  obtain ⟨hp0, hpb, hother⟩ := hcm.two
  have hbody : s'.body b = .dictionary m.packed [newEntry x owner] := by
    rw [Store.body, show s'.page b = _ from hpb]; rfl
  have hkz := h.wf.kind_zero
  have hkz' : (s'.body 0).kind = .info := by
    rw [Store.body, show s'.page 0 = _ from hp0]; rfl
  obtain ⟨hnone, hnew, hothers⟩ := entry_fresh hz hbody fun u hu =>
    entry_of_body hkz hkz' (fun c hc hc0 => Store.body_eq_of_page (hother c hc0 hc)) hu
  have hsame : Same PageKind.NotDictionary s s' :=
    hcm.same_two hkz hz (by rw [metaPage_kind, dictionaryPage_kind]; decide)
  have hdict : DictOk s' m.packed (m.withBucket (bucketFor x) b b).bucket fun j =>
      if j = bucketFor x then [b] else ds j := by
    refine hd.entry_new hi (fun j hj => if_neg hj) ?_ ?_ (List.pairwise_singleton _ _)
      ?_ ?_ ?_ ?_ ?_ hx hnew hothers
    · change Linked s'.next noBlock (if bucketFor x = bucketFor x then (b, b) else _).1 [b]
      rw [if_pos rfl]
      refine Linked.singleton hnb ?_
      rw [Store.next, show s'.page b = _ from hpb]; rfl
    · change (if bucketFor x = bucketFor x then (b, b) else _).2 = b
      rw [if_pos rfl]
    · rw [List.forall_mem_singleton, hbody]; rfl
    · rw [hnil]; exact fun _ hc => absurd hc List.not_mem_nil
    · rw [List.forall_mem_singleton]; exact .inr hz
    · intro c hcb hk
      have hcb' : c ≠ b := fun hc => hcb (by rw [hc]; exact List.mem_singleton_self _)
      refine hother c (fun hc0 => ?_) hcb'
      have hc0' : c = 0 := hc0
      rw [hc0', hkz, hkz'] at hk
      simp at hk
    · rw [List.forall_mem_singleton]
      intro q fs hfs
      rw [hbody] at hfs
      cases hfs
      refine ⟨rfl, List.cons_ne_nil _ _, ?_⟩
      rw [List.forall_mem_singleton]; rfl
  refine h.entry_new hx (hcm.pages h.wf.pages hc) hp0 hsame hnone hnew hothers ⟨_, hdict⟩ ?_
    hcm.blocks fun c hck => ?_
  · refine hcm.closed_two h.wf.closed (by simp) (by simp) (metaPage_links _) ?_
    exact ⟨.inl rfl, fun _ ho => absurd ho List.not_mem_nil⟩
  · have hcb : c ≠ b := by rintro rfl; rw [hz] at hck; cases hck
    have hpage := hother c (h.wf.ne_zero (hck.trans_ne (by decide))) hcb
    rw [Store.body_eq_of_page hpage]
    exact ⟨hck, fun _ => by rw [Store.next, hpage]; rfl⟩

/-- The last dictionary page of a bucket. -/
theorem bucket_tail (hd : DictOk s packed bucket bs) (hi : i < buckets)
    (hh : (bucket i).1 ≠ noBlock) :
    bs i ≠ [] ∧ (bucket i).2 ∈ bs i ∧ (bucket i).2 = lastD noBlock (bs i) ∧
      (s.body (bucket i).2).kind = .dictionary ∧ s.next (bucket i).2 = noBlock := by
  have hl := hd.linked i hi
  have ht := hd.tail_eq i hi
  have hne : bs i ≠ [] := fun hnil => hh (hl.head_eq_stop_iff.2 hnil)
  have hmem : (bucket i).2 ∈ bs i := by rw [ht]; exact lastD_mem noBlock hne
  refine ⟨hne, hmem, ht, hd.kind i hi _ hmem, ?_⟩
  rw [eq_append_lastD noBlock hne, ← ht] at hl
  exact hl.next_last

/-- The entry fits the last page of its bucket. -/
theorem link_entry_append {es : List Entry} (h : Pending strong V s m owner o xs)
    (hx : ∀ u e, s.entry u = some e → e.term ≠ x) (hne : x ≠ []) (hlen : x.length ≤ maxTermBytes)
    (hh : (m.bucket (bucketFor x)).1 ≠ noBlock)
    (hb : s.body (m.bucket (bucketFor x)).2 = .dictionary m.packed es)
    (hroom : (s.page (m.bucket (bucketFor x)).2).len + (newEntry x owner).size
      m.packed ≤ capacity) :
    LinksTo strong V s m owner o (x :: xs) [{ s.page (m.bucket (bucketFor x)).2 with
      body := .dictionary m.packed (es ++ [newEntry x owner]) }] := by
  have hi := bucketFor_lt x
  obtain ⟨ds, hd⟩ := h.wf.dict
  obtain ⟨-, hmem, -, hk, hnext⟩ := bucket_tail hd hi hh
  revert hb hroom hmem hk hnext
  generalize hbt : (m.bucket (bucketFor x)).2 = b
  intro hb hroom hmem hk hnext
  have hblock : (s.page b).block = b := h.wf.pages.block b
  have hv := h.wf.pages.valid b
  have hkp : (s.page b).kind = .dictionary := hk
  have hnb : b ≠ noBlock := h.wf.pages.ne_noBlock (hk.trans_ne (by decide))
  have hvalid : Page.Valid s.layout
      { s.page b with body := .dictionary m.packed (es ++ [newEntry x owner]) } := by
    refine ⟨fun _ => .inl hnext, fun _ => ?_, fun e he => ?_, ?_⟩
    · have := hv.block (hkp.trans_ne (by decide))
      rwa [hkp] at this
    · rw [hblock]
      rcases List.mem_append.1 he with he | he
      · exact h.wf.pages.entriesOk hb e he
      · rw [List.mem_singleton.1 he]
        exact newEntry_ok (h.reserved.owns.valid h.wf.pages) hne hlen hnb
    · rw [Page.len, show (s.page b).body = _ from hb] at hroom
      simp only at hroom
      simp only [Page.len, List.map_append, List.sum_append, List.map_cons, List.map_nil,
        List.sum_cons, List.sum_nil]
      omega
  have hc : CommitOk s
      [{ s.page b with body := .dictionary m.packed (es ++ [newEntry x owner]) }] :=
    commitOk_one hvalid (by rintro ⟨⟩)
      (by rw [hblock]; exact h.wf.pages.lt_blocks (hk.trans_ne (by decide)))
  refine ⟨hc, fun s' hcm => ?_⟩
  obtain ⟨hpb, hother⟩ := hcm.one
  change s'.page (s.page b).block = _ at hpb
  change ∀ c, c ≠ (s.page b).block → _ at hother
  rw [hblock] at hpb hother
  have hbody : s'.body b = .dictionary m.packed (es ++ [newEntry x owner]) := by
    rw [Store.body, hpb]; rfl
  have hb0 : b ≠ 0 := h.wf.ne_zero (hk.trans_ne (by decide))
  have hnext' : s'.next b = noBlock := by rw [Store.next, hpb]; exact hnext
  obtain ⟨hnone, hnew, hothers⟩ := entry_append hb hbody fun u hu => by
    rw [Store.entry, Store.entry, Store.body_eq_of_page (hother u.page hu)]
  have hsame : Same PageKind.NotDictionary s s' := by
    refine hcm.same_one (k := .dictionary) ?_ ⟨by decide, ?_⟩
    · change (s.body (s.page b).block).kind = _
      rw [hblock]; exact hk
    · exact (by decide : ¬ PageKind.dictionary.NotDictionary)
  have hdict : DictOk s' m.packed m.bucket fun j =>
      if j = bucketFor x then ds (bucketFor x) else ds j := by
    refine hd.entry_new hi (fun _ _ => rfl) ?_ (hd.tail_eq _ hi) (hd.ascending _ hi) ?_
      (fun _ hc => hc) (fun _ hc => .inl hc) ?_ ?_ hx hnew hothers
    · refine (hd.linked _ hi).congr fun c _ => ?_
      by_cases hcb : c = b
      · rw [hcb, hnext', hnext]
      · rw [Store.next, hother c hcb]; rfl
    · intro c hcm'
      by_cases hcb : c = b
      · rw [hcb, hbody]; rfl
      · rw [Store.body, hother c hcb]; exact hd.kind _ hi c hcm'
    · exact fun c hcs _ => hother c fun hcb => hcs (by rw [hcb]; exact hmem)
    · intro c hcm' q fs hfs
      by_cases hcb : c = b
      · rw [hcb, hbody] at hfs
        cases hfs
        refine ⟨rfl, by simp, fun e he => ?_⟩
        rcases List.mem_append.1 he with he | he
        · exact hd.route _ hi b hmem m.packed es hb e he
        · rw [List.mem_singleton.1 he]; rfl
      · rw [Store.body_eq_of_page (hother c hcb)] at hfs
        obtain ⟨h₁, h₂⟩ := hd.format c q fs hfs
        exact ⟨h₁, h₂, hd.route _ hi c hcm' q fs hfs⟩
  have hinfo : s'.page 0 = metaPage { m with bucket := m.bucket } := by
    rw [hother 0 hb0.symm]; exact h.wf.info
  refine h.entry_new hx (hcm.pages h.wf.pages hc) hinfo hsame hnone hnew hothers ⟨_, hdict⟩ ?_
    hcm.blocks fun c hck => ?_
  · refine hcm.closed h.wf.closed ?_ ?_ <;> rw [List.forall_mem_singleton]
    · rintro ⟨⟩
    · exact ⟨.inl hnext, fun _ ho => absurd ho List.not_mem_nil⟩
  · by_cases hcb : c = b
    · rw [hcb, hbody]
      exact ⟨rfl, fun hne' => absurd hnext hne'⟩
    · rw [Store.body_eq_of_page (hother c hcb)]
      exact ⟨hck, fun _ => by rw [Store.next, hother c hcb]; rfl⟩

/-- The chain of the bucket with the new page, which holds the new entry. -/
theorem PutBehind.dict {ds : ℕ → List ℕ} {c : ℕ} (h : Pending strong V s m owner o xs)
    (hd : DictOk s m.packed m.bucket ds) (hx : ∀ u e, s.entry u = some e → e.term ≠ x)
    (hh : (m.bucket (bucketFor x)).1 ≠ noBlock) (hz : (s.body b).kind = .zero)
    (hlast : ∀ c, (s.body c).kind ≠ .zero → c < b) (hnb : b ≠ noBlock)
    (htail : (m.bucket (bucketFor x)).2 = c)
    (hput : PutBehind s s' (metaPage (m.withBucket (bucketFor x) (m.bucket (bucketFor x)).1 b)) c b
      (.dictionary m.packed [newEntry x owner]))
    (hnew : s'.entry t = some (newEntry x owner)) (hothers : ∀ u, u ≠ t → s'.entry u = s.entry u) :
    DictOk s' m.packed (m.withBucket (bucketFor x) (m.bucket (bucketFor x)).1 b).bucket fun j =>
      if j = bucketFor x then ds (bucketFor x) ++ [b] else ds j := by
  have hi := bucketFor_lt x
  obtain ⟨hdne, hmem, htl, -⟩ := bucket_tail hd hi hh
  rw [htail] at hmem htl
  have hkz := h.wf.kind_zero
  have hkz' : (s'.body 0).kind = .info := by
    rw [Store.body, hput.info]; rfl
  have hold : ∀ d ∈ ds (bucketFor x), d ≠ 0 ∧ d ≠ b := by
    intro d hdm
    have hk := hd.kind _ hi d hdm
    exact ⟨h.wf.ne_zero (hk.trans_ne (by decide)), fun hdb => by rw [hdb, hz] at hk; cases hk⟩
  have hself : (m.withBucket (bucketFor x) (m.bucket (bucketFor x)).1 b).bucket (bucketFor x) =
    ((m.bucket (bucketFor x)).1, b) := if_pos rfl
  refine hd.entry_new hi (fun j hj => if_neg hj) ?_ ?_ ?_ ?_
    (fun _ hcm => List.mem_append_left _ hcm) ?_ ?_ ?_ hx hnew hothers
  · rw [hself]
    exact hput.linked (hd.linked _ hi) hdne htl hold hnb
  · rw [hself]
    exact lastD_concat.symm
  · refine List.pairwise_append.2
      ⟨hd.ascending _ hi, List.pairwise_singleton _ _, fun d hdm d' hd' => ?_⟩
    rw [List.mem_singleton.1 hd']
    exact hlast d ((hd.kind _ hi d hdm).trans_ne (by decide))
  · intro d hdm
    rcases List.mem_append.1 hdm with hdm | hdm
    · rw [hput.body_eq (hold d hdm).1 (hold d hdm).2]
      exact hd.kind _ hi d hdm
    · rw [List.mem_singleton.1 hdm, hput.body]; rfl
  · intro d hdm
    rcases List.mem_append.1 hdm with hdm | hdm
    · exact .inl hdm
    · rw [List.mem_singleton.1 hdm]; exact .inr hz
  · intro d hdm hkd
    obtain ⟨hd₁, hd₂⟩ := not_or.1 (fun hor => hdm (List.mem_append.2 hor))
    refine hput.other d (fun hd0 => ?_) (fun hdc => hd₁ (by rw [hdc]; exact hmem))
      fun hdb => hd₂ (by rw [hdb]; exact List.mem_singleton_self _)
    rw [hd0, hkz, hkz'] at hkd
    simp at hkd
  · intro d hdm q fs hfs
    rcases List.mem_append.1 hdm with hdm | hdm
    · rw [hput.body_eq (hold d hdm).1 (hold d hdm).2] at hfs
      obtain ⟨h₁, h₂⟩ := hd.format d q fs hfs
      exact ⟨h₁, h₂, hd.route _ hi d hdm q fs hfs⟩
    · rw [List.mem_singleton.1 hdm, hput.body] at hfs
      cases hfs
      refine ⟨rfl, List.cons_ne_nil _ _, ?_⟩
      rw [List.forall_mem_singleton]; rfl

/-- The last page of the bucket is full, and a new page follows it. -/
theorem link_entry_next (h : Pending strong V s m owner o xs)
    (hx : ∀ u e, s.entry u = some e → e.term ≠ x) (hne : x ≠ []) (hlen : x.length ≤ maxTermBytes)
    (hh : (m.bucket (bucketFor x)).1 ≠ noBlock) (hz : (s.body b).kind = .zero)
    (hlt : b < s.blocks) (hlast : ∀ c, (s.body c).kind ≠ .zero → c < b) :
    ({ s.page (m.bucket (bucketFor x)).2 with next := b } : Page).NextOk ∧
    pairValid (m.bucket (bucketFor x)).1 b ∧
    LinksTo strong V s (m.withBucket (bucketFor x) (m.bucket (bucketFor x)).1 b) owner o (x :: xs)
      [metaPage (m.withBucket (bucketFor x) (m.bucket (bucketFor x)).1 b),
        { s.page (m.bucket (bucketFor x)).2 with next := b },
        dictionaryPage b m.packed [newEntry x owner]] := by
  have hi := bucketFor_lt x
  obtain ⟨ds, hd⟩ := h.wf.dict
  obtain ⟨-, -, -, hk, hnext⟩ := bucket_tail hd hi hh
  have hheadk := hd.kind _ hi _ ((hd.linked _ hi).head_mem hh)
  revert hk hnext
  generalize hbt : (m.bucket (bucketFor x)).2 = c
  intro hk hnext
  have hki : (s.body c).kind ≠ .info := hk.trans_ne (by decide)
  have hkc : (s.body c).kind ≠ .zero := hk.trans_ne (by decide)
  have hcb : c < b := hlast c hkc
  have hbv : blockValid b := ⟨by omega, by have := h.wf.pages.le; omega⟩
  have hpair : pairValid (m.bucket (bucketFor x)).1 b :=
    .inr ⟨h.wf.pages.blockValid (hheadk.trans_ne (by decide)) (hheadk.trans_ne (by decide)), hbv,
      Nat.le_of_lt (hlast _ (hheadk.trans_ne (by decide)))⟩
  have hc : CommitOk s [metaPage (m.withBucket (bucketFor x) (m.bucket (bucketFor x)).1 b),
      { s.page c with next := b }, dictionaryPage b m.packed [newEntry x owner]] :=
    putBehind_ok h.wf.pages (metaPage_valid (h.wf.metaOk.withBucket hpair)) hki hkc
      (h.wf.ne_zero hki) hcb hbv hlt
      (dictionaryPage_valid (h.reserved.owns.valid h.wf.pages) hne hlen hbv) rfl (by simp)
  refine ⟨putBehind_nextOk h.wf.pages hki hcb hbv, hpair, hc, fun s' hcm => ?_⟩
  have hput := putBehind_of_committed h.wf.pages hcm rfl rfl
  have hkz' : (s'.body 0).kind = .info := by rw [Store.body, hput.info]; rfl
  obtain ⟨hnone, hnew, hothers⟩ := entry_fresh hz hput.body fun u hu =>
    entry_of_body h.wf.kind_zero hkz' (fun d hdb hd0 => hput.body_eq hd0 hdb) hu
  have hsame : Same PageKind.NotDictionary s s' := by
    refine hcm.same_three h.wf.kind_zero (?_ : _ = PageKind.dictionary) hz ?_
    · change (s.body (s.page c).block).kind = _
      rw [h.wf.pages.block]
      exact hk
    · rw [metaPage_kind, dictionaryPage_kind,
        show Page.kind { s.page c with next := b } = _ from hk]
      decide
  have hclosed : ClosedOk s' := putBehind_closed hcm h.wf.closed hkc rfl (by simp)
    ⟨.inl rfl, fun _ ho => absurd ho List.not_mem_nil⟩
  refine h.entry_new hx (hcm.pages h.wf.pages hc) hput.info hsame hnone hnew hothers
    ⟨_, hput.dict h hd hx hh hz hlast hbv.2 hbt hnew hothers⟩ hclosed hcm.blocks fun d hdk => ?_
  have hd0 := h.wf.ne_zero (hdk.trans_ne (by decide))
  have hdb : d ≠ b := by rintro rfl; rw [hz] at hdk; cases hdk
  exact ⟨by rw [hput.body_eq hd0 hdb]; exact hdk, hput.next_kept hnext hd0 hdb⟩

end

end PinCore
