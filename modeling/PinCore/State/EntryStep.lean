import PinCore.State.Commit

/-!
# Steps of one dictionary entry

A commit that changes the postings of one term rewrites its entry and some pages tagged with its
place.  `EntryStep` states that and nothing else happened to entries and posting pages; the
parts of the invariant that read them follow for the other terms.
-/

namespace PinCore

/-- The entry at `t` goes from `e` with pages `bs` to `e'` with pages `bs'`; entries and posting
pages of other terms stay. -/
structure EntryStep (s s' : Store) (t : TermRef) (e e' : Entry) (bs bs' : List ℕ) : Prop where
  entry : s.entry t = some e
  entry' : s'.entry t = some e'
  others : ∀ u, u ≠ t → s'.entry u = s.entry u
  term : e'.term = e.term
  chain : EntryChain s t e bs
  chain' : EntryChain s' t e' bs'
  sorted : (entryRefs s' e' bs').Pairwise OwnerRef.Before
  frame : ∀ b u, u ≠ t → (s.body b).postingTag = some u → s'.page b = s.page b
  tags : ∀ b u, u ≠ t → (s'.body b).postingTag = some u → s'.page b = s.page b

namespace EntryStep

variable {s s' : Store} {t : TermRef} {e e' : Entry} {bs bs' : List ℕ}

theorem chains (h : EntryStep s s' t e e' bs bs') (hc : ChainsOk s) : ChainsOk s' where
  chain u f hf := by
    by_cases hu : u = t
    · subst hu
      rw [h.entry'] at hf
      cases hf
      exact ⟨bs', h.chain', h.sorted⟩
    · rw [h.others u hu] at hf
      obtain ⟨cs, hcs, hp⟩ := hc.chain u f hf
      have hpage : ∀ b ∈ cs, s'.page b = s.page b := fun b hb =>
        h.frame b u hu (hcs.tagged b hb)
      exact ⟨cs, hcs.congr hpage, by rw [entryRefs_congr hpage]; exact hp⟩
  tag b u hb := by
    by_cases hu : u = t
    · exact ⟨e', hu ▸ h.entry'⟩
    · rw [Store.body_eq_of_page (h.tags b u hu hb)] at hb
      obtain ⟨f, hf⟩ := hc.tag b u hb
      exact ⟨f, (h.others u hu).trans hf⟩

/-- The listing of the changed term is the new one, every other listing is the old one. -/
theorem posted (h : EntryStep s s' t e e' bs bs') {packed : Bool} {bucket : ℕ → ℕ × ℕ}
    {ds : ℕ → List ℕ} (hd : DictOk s packed bucket ds) (hc : ChainsOk s) {x : Text}
    {r : OwnerRef} :
    Posted s' x r ↔
      (x = e.term ∧ r ∈ entryRefs s' e' bs') ∨ (x ≠ e.term ∧ Posted s x r) := by
  constructor
  · rintro ⟨u, f, cs, hf, rfl, hcs, hr⟩
    by_cases hu : u = t
    · subst hu
      rw [h.entry'] at hf
      cases hf
      rw [hcs.unique h.chain'] at hr
      exact .inl ⟨h.term, hr⟩
    · rw [h.others u hu] at hf
      refine .inr ⟨fun heq => hu (hd.unique u t f e hf h.entry heq), ?_⟩
      -- the pages of another term did not change, so its old chain is its new one
      obtain ⟨cs₀, hcs₀, -⟩ := hc.chain u f hf
      have hpage : ∀ b ∈ cs₀, s'.page b = s.page b := fun b hb =>
        h.frame b u hu (hcs₀.tagged b hb)
      obtain rfl := (hcs₀.congr hpage).unique hcs
      rw [entryRefs_congr hpage] at hr
      exact ⟨u, f, cs₀, hf, rfl, hcs₀, hr⟩
  · rintro (⟨rfl, hr⟩ | ⟨hx, u, f, cs, hf, rfl, hcs, hr⟩)
    · exact ⟨t, e', bs', h.entry', h.term, h.chain', hr⟩
    · have hu : u ≠ t := by
        rintro rfl
        rw [h.entry] at hf
        cases hf
        exact hx rfl
      have hpage : ∀ b ∈ cs, s'.page b = s.page b := fun b hb =>
        h.frame b u hu (hcs.tagged b hb)
      exact ⟨u, f, cs, (h.others u hu).trans hf, rfl, hcs.congr hpage, by
        rw [entryRefs_congr hpage]; exact hr⟩

/-- Listing one more owner adds one posting. -/
theorem posted_append (h : EntryStep s s' t e e' bs bs') {packed : Bool} {bucket : ℕ → ℕ × ℕ}
    {ds : ℕ → List ℕ} (hd : DictOk s packed bucket ds) (hc : ChainsOk s) {owner : OwnerRef}
    (hrefs : entryRefs s' e' bs' = entryRefs s e bs ++ [owner]) {x : Text} {r : OwnerRef} :
    Posted s' x r ↔ Posted s x r ∨ (x = e.term ∧ r = owner) := by
  have hold : r ∈ entryRefs s e bs ↔ Posted s e.term r := by
    refine ⟨fun hr => ⟨t, e, bs, h.entry, rfl, h.chain, hr⟩, ?_⟩
    rintro ⟨u, f, cs, hf, hx, hcs, hr⟩
    obtain rfl := hd.unique u t f e hf h.entry hx
    rw [h.entry] at hf
    cases hf
    rwa [hcs.unique h.chain] at hr
  rw [h.posted hd hc, hrefs, List.mem_append, List.mem_singleton]
  constructor
  · rintro (⟨rfl, hr | hr⟩ | ⟨-, hp⟩)
    · exact .inl (hold.1 hr)
    · exact .inr ⟨rfl, hr⟩
    · exact .inl hp
  · rintro (hp | ⟨rfl, rfl⟩)
    · by_cases hx : x = e.term
      · subst hx; exact .inl ⟨rfl, .inl (hold.2 hp)⟩
      · exact .inr ⟨hx, hp⟩
    · exact .inl ⟨rfl, .inr rfl⟩

/-- A journal chain is disjoint from the pages of its entry. -/
theorem journal_disjoint {t : TermRef} {head tail : ℕ} {cs : List ℕ}
    (hc : EntryChain s t e bs) (hj : Chain s t head tail cs) (ht : tail ≠ e.tail) {b : ℕ}
    (hb : b ∈ cs) : b ∉ bs := by
  unfold EntryChain at hc
  split_ifs at hc
  · subst hc; exact List.not_mem_nil
  · refine hj.linked.disjoint hc.linked ?_ hb
    rw [← hj.tail_eq, ← hc.tail_eq]; exact ht

/-- The journal chain stays apart when the entry keeps its tail or moves it to a new page. -/
theorem journal (h : EntryStep s s' t e e' bs bs') {journal : Option RewriteJournal}
    (hj : JournalOk s journal)
    (hframe : ∀ b, (s.body b).postingTag = some t → b ∉ bs → s'.page b = s.page b)
    (htail : e'.tail = e.tail ∨ (s.body e'.tail).postingTag = none) : JournalOk s' journal := by
  intro j hm
  obtain ⟨u, f, cs, hf, hc, hne, hp, ht⟩ := hj j hm
  by_cases hu : u = t
  · subst hu
    rw [h.entry] at hf
    cases hf
    have hpage : ∀ b ∈ cs, s'.page b = s.page b := fun b hb =>
      hframe b (hc.tagged b hb) (journal_disjoint h.chain hc ht hb)
    refine ⟨u, e', cs, h.entry', hc.congr hpage, hne, by rw [chainRefs_congr hpage]; exact hp, ?_⟩
    rcases htail with heq | hnone
    · rw [heq]; exact ht
    · intro heq
      have := hc.tagged j.tail (by rw [hc.tail_eq]; exact lastD_mem noBlock hne)
      rw [heq, hnone] at this
      cases this
  · have hpage : ∀ b ∈ cs, s'.page b = s.page b := fun b hb =>
      h.frame b u hu (hc.tagged b hb)
    exact ⟨u, f, cs, (h.others u hu).trans hf, hc.congr hpage, hne, by
      rw [chainRefs_congr hpage]; exact hp, ht⟩

end EntryStep

/-! ### Updating a dictionary page -/

section

variable {s s' : Store} {t : TermRef} {e : Entry} {p : Bool} {es : List Entry} {f : Entry → Entry}

/-- The store `s'` has the entry at `t` rewritten by `f`. -/
structure EntryUpdate (s s' : Store) (t : TermRef) (f : Entry → Entry) : Prop where
  term : ∀ e, (f e).term = e.term
  body : ∃ p es, s.body t.page = .dictionary p es ∧
    s'.body t.page = .dictionary p (Page.modifyEntry p t.offset f pageHeader es)
  next : s'.next t.page = s.next t.page
  other : ∀ b, b ≠ t.page → (s.body b).kind = .dictionary ∨ (s'.body b).kind = .dictionary →
    s'.page b = s.page b

theorem EntryUpdate.self (h : EntryUpdate s s' t f) : s'.entry t = (s.entry t).map f := by
  obtain ⟨p, es, hb, hb'⟩ := h.body
  rw [Store.entry, Store.entry, hb, hb']
  change findEntry p t.offset pageHeader _ = Option.map f (findEntry p t.offset pageHeader es)
  rw [findEntry_modify h.term, if_pos rfl]

theorem EntryUpdate.others (h : EntryUpdate s s' t f) {u : TermRef} (hu : u ≠ t) :
    s'.entry u = s.entry u := by
  by_cases hp : u.page = t.page
  · obtain ⟨p, es, hb, hb'⟩ := h.body
    rw [Store.entry, Store.entry, hp, hb, hb']
    change findEntry p u.offset pageHeader _ = findEntry p u.offset pageHeader es
    rw [findEntry_modify h.term, if_neg fun ho => hu ?_]
    cases u; cases t
    simp_all
  · by_cases hk : (s.body u.page).kind = .dictionary ∨ (s'.body u.page).kind = .dictionary
    · rw [Store.entry, Store.entry, Store.body_eq_of_page (h.other _ hp hk)]
    · obtain ⟨h₁, h₂⟩ := not_or.1 hk
      rw [Option.eq_none_iff_forall_not_mem.2 fun e he => h₁ (Store.entry_kind he),
        Option.eq_none_iff_forall_not_mem.2 fun e he => h₂ (Store.entry_kind he)]

theorem mem_modifyEntry_term (hf : ∀ e, (f e).term = e.term) {e' : Entry} {offset target : ℕ}
    (h : e' ∈ Page.modifyEntry p target f offset es) : ∃ e ∈ es, e'.term = e.term := by
  rcases mem_modifyEntry h with h | ⟨e, he, rfl⟩
  · exact ⟨e', h, rfl⟩
  · exact ⟨e, findEntry_mem he, hf e⟩

theorem modifyEntry_ne_nil {offset target : ℕ} (h : es ≠ []) :
    Page.modifyEntry p target f offset es ≠ [] := by
  cases es with
  | nil => exact absurd rfl h
  | cons a as =>
    unfold Page.modifyEntry
    split_ifs <;> exact List.cons_ne_nil _ _

/-- Rewriting an entry in place keeps the bucket chains. -/
theorem EntryUpdate.dict (h : EntryUpdate s s' t f) {packed : Bool} {bucket : ℕ → ℕ × ℕ}
    {bs : ℕ → List ℕ} (hd : DictOk s packed bucket bs) : DictOk s' packed bucket bs := by
  obtain ⟨p, es, hb, hb'⟩ := h.body
  have hkind : ∀ b, (s'.body b).kind = .dictionary ↔ (s.body b).kind = .dictionary := by
    intro b
    by_cases hbt : b = t.page
    · subst hbt; rw [hb, hb']; exact Iff.rfl
    · constructor <;> intro hk
      · rwa [Store.body_eq_of_page (h.other b hbt (.inr hk))] at hk
      · rwa [Store.body_eq_of_page (h.other b hbt (.inl hk))]
  have hbody : ∀ b q fs, s'.body b = .dictionary q fs → ∃ gs, s.body b = .dictionary q gs ∧
      (gs ≠ [] → fs ≠ []) ∧ ∀ x ∈ fs, ∃ y ∈ gs, x.term = y.term := by
    intro b q fs hfs
    by_cases hbt : b = t.page
    · subst hbt
      rw [hb'] at hfs
      cases hfs
      exact ⟨es, hb, modifyEntry_ne_nil, fun x hx => mem_modifyEntry_term h.term hx⟩
    · refine ⟨fs, ?_, id, fun x hx => ⟨x, hx, rfl⟩⟩
      rw [← Store.body_eq_of_page (h.other b hbt (.inr (by rw [hfs]; rfl)))]; exact hfs
  have hentry : ∀ u x, s'.entry u = some x → ∃ y, s.entry u = some y ∧ x.term = y.term := by
    intro u x hx
    by_cases hu : u = t
    · subst hu
      rw [h.self] at hx
      obtain ⟨y, hy, rfl⟩ := Option.map_eq_some_iff.1 hx
      exact ⟨y, hy, h.term y⟩
    · rw [h.others hu] at hx
      exact ⟨x, hx, rfl⟩
  refine ⟨fun i hi => (hd.linked i hi).congr fun b hbm => ?_, hd.tail_eq,
    fun i hi b hbm => (hkind b).2 (hd.kind i hi b hbm), hd.ascending,
    fun b hk => hd.covered b ((hkind b).1 hk), fun b q fs hfs => ?_,
    fun i hi b hbm q fs hfs x hx => ?_, fun u u' x x' hx hx' hxx => ?_⟩
  · by_cases hbt : b = t.page
    · subst hbt; exact h.next
    · rw [Store.next, h.other b hbt (.inl (hd.kind i hi b hbm))]; rfl
  · obtain ⟨gs, hgs, hne, -⟩ := hbody b q fs hfs
    exact ⟨(hd.format b q gs hgs).1, hne (hd.format b q gs hgs).2⟩
  · obtain ⟨gs, hgs, -, hterm⟩ := hbody b q fs hfs
    obtain ⟨y, hy, hxy⟩ := hterm x hx
    rw [hxy]
    exact hd.route i hi b hbm q gs hgs y hy
  · obtain ⟨y, hy, hxy⟩ := hentry u x hx
    obtain ⟨y', hy', hxy'⟩ := hentry u' x' hx'
    exact hd.unique u u' y y' hy hy' (hxy.symm.trans (hxx.trans hxy'))

/-- The rewritten dictionary page is valid if the rewritten entry is. -/
theorem updateEntry_valid (hp : PagesOk s) (hf : ∀ e, (f e).term = e.term)
    (hb : s.body t.page = .dictionary p es)
    (hok : ∀ e, s.entry t = some e → (f e).Ok p t.page) :
    ((s.page t.page).updateEntry t f).Valid s.layout ∧
      ((s.page t.page).updateEntry t f).block = t.page ∧
      ((s.page t.page).updateEntry t f).next = s.next t.page ∧
      ((s.page t.page).updateEntry t f).body =
        .dictionary p (Page.modifyEntry p t.offset f pageHeader es) := by
  have hb' : (s.page t.page).body = .dictionary p es := hb
  have heq : (s.page t.page).updateEntry t f = { s.page t.page with
      body := .dictionary p (Page.modifyEntry p t.offset f pageHeader es) } := by
    rw [Page.updateEntry, hb']
  have hold := hp.valid t.page
  have hk : (s.page t.page).kind = .dictionary := by rw [Page.kind, hb']; rfl
  refine ⟨?_, by rw [heq]; exact hp.block _, by rw [heq]; rfl, by rw [heq]⟩
  rw [heq]
  refine ⟨fun _ => ?_, fun _ => ?_, ?_, ?_⟩
  · refine (hold.next (by rw [hk]; simp)).imp_right fun ⟨h₁, h₂, _, h₃⟩ =>
      ⟨h₁, h₂, by simp [Page.kind, Body.kind], fun _ => h₃ (.inr hk)⟩
  · have := hold.block (by rw [hk]; simp)
    rw [hk] at this
    exact this
  · intro x hx
    rw [hp.block]
    rcases mem_modifyEntry hx with hx | ⟨y, hy, rfl⟩
    · exact hp.entriesOk hb x hx
    · exact hok y (by rw [Store.entry, hb]; exact hy)
  · have := hold.len
    rw [Page.len, hb'] at this
    rw [Page.len]
    simp only [modifyEntry_sizes hf]
    exact this

end

end PinCore
