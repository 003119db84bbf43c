import PinCore.Document
import PinCore.State.Views

/-!
# The invariant of a store

The invariant is a conjunction of parts, each about the pages of one or two kinds and about the
metapage fields it is given.  A commit changes few pages, so most parts are carried over by the
frame lemmas: a part that only reads pages of some kinds holds of every store that agrees on
those (`Same`).
-/

namespace PinCore

/-! ### Frames -/

/-- The stores agree on every page whose kind in either of them satisfies `K`. -/
structure Same (K : PageKind → Prop) (s s' : Store) : Prop where
  layout : s'.layout = s.layout
  page : ∀ b, K (s.body b).kind ∨ K (s'.body b).kind → s'.page b = s.page b

namespace Same

variable {K K' : PageKind → Prop} {s s' s'' : Store}

theorem refl (s : Store) : Same K s s := ⟨rfl, fun _ _ => rfl⟩

theorem symm (h : Same K s s') : Same K s' s :=
  ⟨h.layout.symm, fun b hb => (h.page b hb.symm).symm⟩

theorem trans (h : Same K s s') (h' : Same K s' s'') : Same K s s'' := by
  refine ⟨h'.layout.trans h.layout, fun b hb => ?_⟩
  rcases hb with hb | hb
  · have he := h.page b (.inl hb)
    rw [← he]
    refine h'.page b (.inl ?_)
    rw [Store.body, he]; exact hb
  · have he := h'.page b (.inr hb)
    rw [he]
    refine h.page b (.inr ?_)
    rw [Store.body, ← he]; exact hb

theorem mono (h : Same K s s') (hK : ∀ k, K' k → K k) : Same K' s s' :=
  ⟨h.layout, fun b hb => h.page b (hb.imp (hK _) (hK _))⟩

theorem body (h : Same K s s') {b : ℕ} (hb : K (s.body b).kind ∨ K (s'.body b).kind) :
    s'.body b = s.body b := by rw [Store.body, h.page b hb]; rfl

theorem next (h : Same K s s') {b : ℕ} (hb : K (s.body b).kind ∨ K (s'.body b).kind) :
    s'.next b = s.next b := by rw [Store.next, h.page b hb]; rfl

theorem kind_iff (h : Same K s s') {k : PageKind} (hk : K k) {b : ℕ} :
    (s'.body b).kind = k ↔ (s.body b).kind = k := by
  constructor <;> intro hb
  · rw [← h.body (.inr (hb ▸ hk)), hb]
  · rw [h.body (.inl (hb ▸ hk)), hb]

theorem linked (h : Same K s s') {k : PageKind} (hk : K k) {head : ℕ} {bs : List ℕ}
    (hl : Linked s.next noBlock head bs) (hb : ∀ b ∈ bs, (s.body b).kind = k) :
    Linked s'.next noBlock head bs :=
  hl.congr fun b hm => h.next (.inl (hb b hm ▸ hk))

end Same

/-- The kinds of posting pages. -/
def PageKind.IsPosting (k : PageKind) : Prop :=
  k = .postings ∨ k = .sealedPostings ∨ k = .directPostings

instance (k : PageKind) : Decidable k.IsPosting := inferInstanceAs (Decidable (_ ∨ _))

theorem isPosting_of_tag {body : Body} {t : TermRef} (h : body.postingTag = some t) :
    body.kind.IsPosting := by
  cases body <;> simp_all [Body.postingTag, PageKind.IsPosting, Body.kind]

/-- A page of postings is of no other kind. -/
theorem PageKind.IsPosting.ne {k l : PageKind} (h : k.IsPosting) (hl : ¬ l.IsPosting) : k ≠ l := by
  rintro rfl
  exact hl h

theorem tag_of_isPosting {body : Body} (h : body.kind.IsPosting) :
    ∃ t, body.postingTag = some t := by
  cases body <;> simp_all [Body.postingTag, PageKind.IsPosting, Body.kind]

/-- The kinds that the postings of a store are read from. -/
def PageKind.IsIndex (k : PageKind) : Prop := k = .dictionary ∨ k.IsPosting

instance (k : PageKind) : Decidable k.IsIndex := inferInstanceAs (Decidable (_ ∨ _))

section

variable {s s' : Store} {r : OwnerRef} {o : OwnerSlot} {t : TermRef} {e : Entry} {bs : List ℕ}

theorem Store.Owns.same (h : Same (· = .owners) s s') (ho : s.Owns r o) : s'.Owns r o := by
  refine ⟨?_, ho.2⟩
  rw [h.body (.inl ho.kind)]
  exact ho.1

theorem Store.owns_same (h : Same (· = .owners) s s') : s'.Owns r o ↔ s.Owns r o :=
  ⟨fun ho => ho.same h.symm, fun ho => ho.same h⟩

theorem Store.known_same (h : Same (· = .owners) s s') : s'.Known r ↔ s.Known r :=
  exists_congr fun _ => Store.owns_same h

theorem Store.rootOf_same (h : Same (· = .owners) s s') (r : OwnerRef) :
    s'.rootOf r = s.rootOf r := by
  ext x
  constructor <;> intro hx <;> obtain ⟨o, ho, hl⟩ := Store.rootOf_eq_some hx
  · rw [Store.rootOf_eq (ho.same h.symm), hl]
  · rw [Store.rootOf_eq (ho.same h), hl]

theorem Store.entry_kind (h : s.entry t = some e) : (s.body t.page).kind = .dictionary := by
  unfold Store.entry at h
  split at h
  · next hb => rw [hb]; rfl
  · cases h

theorem Store.entry_same (h : Same (· = .dictionary) s s') (t : TermRef) :
    s'.entry t = s.entry t := by
  by_cases hk : (s.body t.page).kind = .dictionary
  · rw [Store.entry, Store.entry, h.body (.inl hk)]
  · have hk' : (s'.body t.page).kind ≠ .dictionary := fun h' => hk ((h.kind_iff rfl).1 h')
    have h₁ : s.entry t = none :=
      Option.eq_none_iff_forall_not_mem.2 fun e he => hk (Store.entry_kind he)
    have h₂ : s'.entry t = none :=
      Option.eq_none_iff_forall_not_mem.2 fun e he => hk' (Store.entry_kind he)
    rw [h₁, h₂]

theorem Same.index_page (h : Same PageKind.IsIndex s s') {b : ℕ}
    (ht : (s.body b).postingTag = some t) : s'.page b = s.page b :=
  h.page b (.inl (.inr (isPosting_of_tag ht)))

theorem EntryChain.same (h : Same PageKind.IsIndex s s') (hc : EntryChain s t e bs) :
    EntryChain s' t e bs := hc.congr fun b hb => h.index_page (hc.tagged b hb)

theorem EntryChain.refs_same (h : Same PageKind.IsIndex s s') (hc : EntryChain s t e bs) :
    entryRefs s' e bs = entryRefs s e bs :=
  entryRefs_congr fun b hb => h.index_page (hc.tagged b hb)

theorem Posted.same (h : Same PageKind.IsIndex s s') {x : Text} (hp : Posted s x r) :
    Posted s' x r := by
  obtain ⟨t, e, bs, he, hx, hc, hr⟩ := hp
  refine ⟨t, e, bs, ?_, hx, hc.same h, ?_⟩
  · rw [Store.entry_same (h.mono fun _ => .inl)]; exact he
  · rw [hc.refs_same h]; exact hr

theorem posted_same (h : Same PageKind.IsIndex s s') {x : Text} :
    Posted s' x r ↔ Posted s x r := ⟨fun hp => hp.same h.symm, fun hp => hp.same h⟩

end

/-! ### Parts of the invariant -/

/-- Every page is a valid image of its block; blocks past the end read as zero. -/
structure PagesOk (s : Store) : Prop where
  pos : 0 < s.blocks
  le : s.blocks ≤ noBlock
  block : ∀ b, (s.page b).block = b
  valid : ∀ b, (s.page b).Valid s.layout
  fresh : ∀ b, s.blocks ≤ b → s.page b = Page.zero b

/-- The owner chain: ascending blocks, later slots with later incarnations. -/
structure OwnersOk (s : Store) (head tail incarnation : ℕ) (bs : List ℕ) : Prop where
  linked : Linked s.next noBlock head bs
  tail_eq : tail = lastD noBlock bs
  mem_iff : ∀ b, b ∈ bs ↔ (s.body b).kind = .owners
  ascending : bs.Pairwise (· < ·)
  ordered : ∀ r r' o o', s.Owns r o → s.Owns r' o' → r.posLt r' → r.incarnation < r'.incarnation
  below : ∀ r o, s.Owns r o → r.incarnation < incarnation

/-- The bucket chains: every dictionary page is in the chain its entries route to, and no term
has two entries. -/
structure DictOk (s : Store) (packed : Bool) (bucket : ℕ → ℕ × ℕ) (bs : ℕ → List ℕ) : Prop where
  linked : ∀ i < buckets, Linked s.next noBlock (bucket i).1 (bs i)
  tail_eq : ∀ i < buckets, (bucket i).2 = lastD noBlock (bs i)
  kind : ∀ i < buckets, ∀ b ∈ bs i, (s.body b).kind = .dictionary
  ascending : ∀ i < buckets, (bs i).Pairwise (· < ·)
  covered : ∀ b, (s.body b).kind = .dictionary → ∃ i < buckets, b ∈ bs i
  format : ∀ b p es, s.body b = .dictionary p es → p = packed ∧ es ≠ []
  route : ∀ i < buckets, ∀ b ∈ bs i, ∀ p es, s.body b = .dictionary p es →
    ∀ e ∈ es, bucketFor e.term = i
  unique : ∀ t t' e e', s.entry t = some e → s.entry t' = some e' → e.term = e'.term → t = t'

/-- Every entry heads a complete chain of its own pages, in owner order. -/
structure ChainsOk (s : Store) : Prop where
  chain : ∀ t e, s.entry t = some e →
    ∃ bs, EntryChain s t e bs ∧ (entryRefs s e bs).Pairwise OwnerRef.Before
  tag : ∀ b t, (s.body b).postingTag = some t → ∃ e, s.entry t = some e

/-- Every stored owner reference names an existing owner. -/
structure RefsOk (s : Store) : Prop where
  first : ∀ t e, s.entry t = some e → s.Known e.first
  second : ∀ t e r, s.entry t = some e → e.second = some r → s.Known r
  posting : ∀ b r, r ∈ (s.body b).postingRefs → s.Known r
  fragment : ∀ b r offset payload, s.body b = .fragment r offset payload → s.Known r

/-- The records of a direct page. -/
def Body.records : Body → List DirectRecord
  | direct _ _ _ records => records
  | _ => []

/-- The coordinates copied into direct pages follow the owners.  A coordinate may outlive its
owner only while `strong` fails. -/
structure DirectOk (strong : Prop) (s : Store) : Prop where
  root : ∀ b x o, x ∈ (s.body b).records → s.Owns x.owner o → x.root = o.root
  live : ∀ b x o, x ∈ (s.body b).records → s.Owns x.owner o → o.liveRoot ≠ none → x.live = true
  dead : strong → ∀ b x o, x ∈ (s.body b).records → s.Owns x.owner o → x.live = true →
    o.liveRoot ≠ none

/-- The journal chain is a complete chain of one term, apart from the chain of its entry. -/
def JournalOk (s : Store) (journal : Option RewriteJournal) : Prop :=
  ∀ j ∈ journal, ∃ t e bs, s.entry t = some e ∧ Chain s t j.head j.tail bs ∧ bs ≠ [] ∧
    (chainRefs s bs).Pairwise OwnerRef.Before ∧ j.tail ≠ e.tail

/-- The free list holds exactly the free pages. -/
def FreeOk (s : Store) (head : ℕ) : Prop :=
  ∃ fs, Linked s.next noBlock head fs ∧ ∀ b, b ∈ fs ↔ (s.body b).kind = .free

/-- No link leads to a block that was never written. -/
structure ClosedOk (s : Store) : Prop where
  next : ∀ b, (s.body b).kind ≠ .zero → s.next b = noBlock ∨ (s.body (s.next b)).kind ≠ .zero
  payload : ∀ r o, s.Owns r o → o.dataHead = noBlock ∨ (s.body o.dataHead).kind ≠ .zero

/-- No grouped snapshot was built. -/
structure GroupOk (s : Store) (g : GroupState) : Prop where
  state : g = .default
  page : ∀ b, (s.body b).kind ≠ .grouped

/-- The invariant of a store with metapage fields `m`. -/
structure WF (strong : Prop) (s : Store) (m : MetaBody) : Prop where
  pages : PagesOk s
  info : s.page 0 = metaPage m
  owners : ∃ bs, OwnersOk s m.ownerHead m.ownerTail m.incarnation bs
  dict : ∃ bs, DictOk s m.packed m.bucket bs
  chains : ChainsOk s
  refs : RefsOk s
  direct : DirectOk strong s
  journal : JournalOk s m.journal
  free : FreeOk s m.freeHead
  closed : ClosedOk s
  grouped : GroupOk s m.grouped

/-! ### Frame lemmas of the parts -/

section

variable {s s' : Store}

theorem Store.body_eq_of_page {b : ℕ} (h : s'.page b = s.page b) : s'.body b = s.body b := by
  rw [Store.body, h]; rfl

theorem OwnersOk.same {head tail incarnation : ℕ} {bs : List ℕ} (h : Same (· = .owners) s s')
    (ho : OwnersOk s head tail incarnation bs) : OwnersOk s' head tail incarnation bs where
  linked := h.linked rfl ho.linked fun b hb => (ho.mem_iff b).1 hb
  tail_eq := ho.tail_eq
  mem_iff b := (ho.mem_iff b).trans (h.kind_iff rfl).symm
  ascending := ho.ascending
  ordered r r' o o' hr hr' :=
    ho.ordered r r' o o' ((Store.owns_same h).1 hr) ((Store.owns_same h).1 hr')
  below r o hr := ho.below r o ((Store.owns_same h).1 hr)

theorem DictOk.same {packed : Bool} {bucket : ℕ → ℕ × ℕ} {bs : ℕ → List ℕ}
    (h : Same (· = .dictionary) s s') (hd : DictOk s packed bucket bs) :
    DictOk s' packed bucket bs where
  linked i hi := h.linked rfl (hd.linked i hi) (hd.kind i hi)
  tail_eq := hd.tail_eq
  kind i hi b hb := (h.kind_iff rfl).2 (hd.kind i hi b hb)
  ascending := hd.ascending
  covered b hb := hd.covered b ((h.kind_iff rfl).1 hb)
  format b p es hb := by
    refine hd.format b p es ?_
    rw [← h.body (.inr (by rw [hb]; rfl)), hb]
  route i hi b hb p es he := by
    refine hd.route i hi b hb p es ?_
    rw [← h.body (.inr (by rw [he]; rfl)), he]
  unique t t' e e' he he' := by
    rw [Store.entry_same h] at he he'
    exact hd.unique t t' e e' he he'

theorem ChainsOk.same (h : Same PageKind.IsIndex s s') (hc : ChainsOk s) : ChainsOk s' where
  chain t e he := by
    rw [Store.entry_same (h.mono fun _ => .inl)] at he
    obtain ⟨bs, hbs, hp⟩ := hc.chain t e he
    exact ⟨bs, hbs.same h, by rw [hbs.refs_same h]; exact hp⟩
  tag b t ht := by
    rw [h.body (.inr (.inr (isPosting_of_tag ht)))] at ht
    rw [Store.entry_same (h.mono fun _ => .inl)]
    exact hc.tag b t ht

/-- References stay known as long as owners do. -/
theorem RefsOk.same (h : Same (fun k => k.IsIndex ∨ k = .fragment) s s')
    (hk : ∀ r, s.Known r → s'.Known r) (hr : RefsOk s) : RefsOk s' where
  first t e he := by
    rw [Store.entry_same (h.mono fun _ hk => .inl (.inl hk))] at he
    exact hk _ (hr.first t e he)
  second t e r he hs := by
    rw [Store.entry_same (h.mono fun _ hk => .inl (.inl hk))] at he
    exact hk _ (hr.second t e r he hs)
  posting b r hb := by
    obtain ⟨t, ht⟩ := postingRefs_tag hb
    rw [h.body (.inr (.inl (.inr (isPosting_of_tag ht))))] at hb
    exact hk _ (hr.posting b r hb)
  fragment b r offset payload hb := by
    rw [h.body (.inr (.inr (by rw [hb]; rfl)))] at hb
    exact hk _ (hr.fragment b r offset payload hb)

theorem records_kind {body : Body} {x : DirectRecord} (h : x ∈ body.records) :
    body.kind = .directPostings := by
  cases body <;> simp_all [Body.records, Body.kind]

theorem DirectOk.same {strong : Prop} (h : Same (fun k => k = .directPostings ∨ k = .owners) s s')
    (hd : DirectOk strong s) : DirectOk strong s' := by
  have hb : ∀ b x, x ∈ (s'.body b).records → x ∈ (s.body b).records := fun b x hx => by
    rwa [h.body (.inr (.inl (records_kind hx)))] at hx
  have ho : ∀ r o, s'.Owns r o → s.Owns r o := fun r o =>
    (Store.owns_same (h.mono fun _ => .inr)).1
  exact ⟨fun b x o hx hr => hd.root b x o (hb b x hx) (ho _ _ hr),
    fun b x o hx hr => hd.live b x o (hb b x hx) (ho _ _ hr),
    fun hs b x o hx hr => hd.dead hs b x o (hb b x hx) (ho _ _ hr)⟩

theorem DirectOk.weaken {strong : Prop} (hd : DirectOk strong s) : DirectOk False s :=
  ⟨hd.root, hd.live, fun h => h.elim⟩

theorem JournalOk.same {journal : Option RewriteJournal} (h : Same PageKind.IsIndex s s')
    (hj : JournalOk s journal) : JournalOk s' journal := by
  intro j hm
  obtain ⟨t, e, bs, he, hc, hne, hp, ht⟩ := hj j hm
  have hpage : ∀ b ∈ bs, s'.page b = s.page b := fun b hb => h.index_page (hc.tagged b hb)
  refine ⟨t, e, bs, ?_, hc.congr hpage, hne, ?_, ht⟩
  · rw [Store.entry_same (h.mono fun _ => .inl)]; exact he
  · rw [chainRefs_congr hpage]; exact hp

theorem FreeOk.same {head : ℕ} (h : Same (· = .free) s s') (hf : FreeOk s head) :
    FreeOk s' head := by
  obtain ⟨fs, hl, hm⟩ := hf
  exact ⟨fs, h.linked rfl hl fun b hb => (hm b).1 hb, fun b => (hm b).trans (h.kind_iff rfl).symm⟩

theorem GroupOk.same {g : GroupState} (h : Same (· = .grouped) s s') (hg : GroupOk s g) :
    GroupOk s' g := ⟨hg.state, fun b hb => hg.page b ((h.kind_iff rfl).1 hb)⟩

end

/-! ### The live documents -/

/-- A live published document with its owner and heap root. -/
structure LiveDoc where
  owner : OwnerRef
  root : RootTid
  document : Document
  deriving DecidableEq, Repr

/-- What a store shows: its live documents in owner order, and a set that holds every owner whose
record is settled without being live. -/
structure View where
  docs : List LiveDoc
  closed : OwnerRef → Prop

/-- Owners that vacuum leaves alone: published or abandoned. -/
def OwnerSlot.Settled (o : OwnerSlot) : Prop :=
  o.publication = .published ∨ o.publication = .abandoned

instance (o : OwnerSlot) : Decidable o.Settled := inferInstanceAs (Decidable (_ ∨ _))

/-- The live owners of the store are those of `V`, each is listed under exactly the terms of its
document, and every other owner outside `V.closed` is unpublished. -/
structure Shows (s : Store) (V : View) : Prop where
  sorted : (V.docs.map (·.owner)).Pairwise OwnerRef.Before
  live : ∀ r x, s.rootOf r = some x ↔ ∃ d, ⟨r, x, d⟩ ∈ V.docs
  posted : ∀ v ∈ V.docs, ∀ x, Posted s x v.owner ↔ x ∈ v.document
  closed : ∀ r o, s.Owns r o → o.Settled → o.liveRoot = none → V.closed r

theorem Shows.same {s s' : Store} {V : View}
    (h : Same (fun k => k.IsIndex ∨ k = .owners) s s') (hv : Shows s V) : Shows s' V where
  sorted := hv.sorted
  live r x := by rw [Store.rootOf_same (h.mono fun _ => .inr)]; exact hv.live r x
  posted v hm x := (posted_same (h.mono fun _ => .inl)).trans (hv.posted v hm x)
  closed r o ho := hv.closed r o ((Store.owns_same (h.mono fun _ => .inr)).1 ho)

end PinCore
