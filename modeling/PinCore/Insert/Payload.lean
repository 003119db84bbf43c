import PinCore.Insert.Owner

/-!
# The free list and fragments

Pages move between the free list, fragments and the unwritten blocks without touching owners,
dictionary or postings.  `storeFragments` builds the payload chain of a large document from its
last fragment to its first.
-/

namespace PinCore

open Prog

/-- The kinds that the free list does not exchange. -/
def PageKind.NotFree (k : PageKind) : Prop :=
  k ≠ .free ∧ k ≠ .fragment ∧ k ≠ .zero ∧ k ≠ .info

instance (k : PageKind) : Decidable k.NotFree := inferInstanceAs (Decidable (_ ∧ _))

section

variable {strong : Prop} {s s' : Store} {m : MetaBody} {V : View}

theorem isIndex_notFree {k : PageKind} (h : k.IsIndex) : k.NotFree := by
  rcases h with rfl | rfl | rfl | rfl <;> decide

/-- The parts that do not read free pages or fragments carry over an exchange of them. -/
theorem WF.of_free {head : ℕ} (h : WF strong s m) (hp : PagesOk s')
    (hi : s'.page 0 = metaPage { m with freeHead := head }) (hs : Same PageKind.NotFree s s')
    (hf : FreeOk s' head)
    (hfrag : ∀ b r offset payload, s'.body b = .fragment r offset payload → s.Known r)
    (hc : ClosedOk s') : WF strong s' { m with freeHead := head } where
  pages := hp
  info := hi
  owners := h.owners.imp fun _ ho => ho.same (hs.mono fun _ hk => by subst hk; decide)
  dict := h.dict.imp fun _ hd => hd.same (hs.mono fun _ hk => isIndex_notFree (.inl hk))
  chains := h.chains.same (hs.mono fun _ hk => isIndex_notFree hk)
  refs := by
    have hk : ∀ r, s'.Known r ↔ s.Known r := fun r =>
      Store.known_same (hs.mono fun _ hk => by subst hk; decide)
    have he : ∀ t, s'.entry t = s.entry t :=
      Store.entry_same (hs.mono fun _ hk => isIndex_notFree (.inl hk))
    refine ⟨fun t e ht => (hk _).2 (h.refs.first t e (he t ▸ ht)),
      fun t e r ht hr => (hk _).2 (h.refs.second t e r (he t ▸ ht) hr), fun b r hr => ?_,
      fun b r offset payload hb => (hk _).2 (hfrag b r offset payload hb)⟩
    obtain ⟨t, ht⟩ := postingRefs_tag hr
    rw [hs.body (.inr (isIndex_notFree (.inr (isPosting_of_tag ht))))] at hr
    exact (hk _).2 (h.refs.posting b r hr)
  direct := h.direct.same (hs.mono fun _ hk => by rcases hk with rfl | rfl <;> decide)
  journal := h.journal.same (hs.mono fun _ hk => isIndex_notFree hk)
  free := hf
  closed := hc
  grouped := h.grouped.same (hs.mono fun _ hk => by subst hk; decide)

theorem Shows.of_free (hv : Shows s V) (hs : Same PageKind.NotFree s s') : Shows s' V :=
  hv.same (hs.mono fun _ hk => hk.elim isIndex_notFree (by rintro rfl; decide))

theorem Grows.of_free (hs : Same PageKind.NotFree s s') (hb : s'.blocks = s.blocks)
    (hf : ∀ b, (s.body b).kind = .fragment → s'.page b = s.page b) : Grows s s' :=
  .of_same (hs.mono fun _ hk => hk.elim isIndex_notFree (by rintro rfl; decide))
    (Nat.le_of_eq hb.symm) hf

theorem Reserved.of_free {r : OwnerRef} {o : OwnerSlot} {xs : List Text}
    (hr : Reserved s r o xs) (hs : Same PageKind.NotFree s s') : Reserved s' r o xs where
  owns := hr.owns.same (hs.mono fun _ hk => by subst hk; decide)
  newest r' hk := hr.newest r'
    ((Store.known_same (hs.mono fun _ hk => by subst hk; decide)).1 hk)
  posted x := (posted_same (hs.mono fun _ hk => isIndex_notFree hk)).trans (hr.posted x)
  direct b x hx := by
    rw [hs.body (.inr (by rw [records_kind hx]; decide))] at hx
    exact hr.direct b x hx

/-! ### Popping and pushing -/

theorem FreeOk.head {head : ℕ} (hf : FreeOk s head) (hh : head ≠ noBlock) :
    (s.body head).kind = .free := by
  obtain ⟨fs, hl, hm⟩ := hf
  exact (hm head).1 (hl.head_mem hh)

/-- The free list without its first page. -/
theorem FreeOk.pop {head : ℕ} (hf : FreeOk s head) (hh : head ≠ noBlock)
    (hk : (s'.body head).kind ≠ .free)
    (hother : ∀ b, b ≠ head → (s.body b).kind = .free ∨ (s'.body b).kind = .free →
      s'.page b = s.page b) : FreeOk s' (s.next head) := by
  obtain ⟨fs, hl, hm⟩ := hf
  cases fs with
  | nil => exact absurd hl hh
  | cons b fs =>
    obtain ⟨rfl, hb, hl'⟩ := hl
    have hnd : head ∉ fs := (List.nodup_cons.1 (Linked.nodup (h := head) ⟨rfl, hb, hl'⟩)).1
    have hne : ∀ c ∈ fs, c ≠ head := by rintro c hc rfl; exact hnd hc
    have hfree : ∀ c ∈ fs, (s.body c).kind = .free := fun c hc =>
      (hm c).1 (List.mem_cons_of_mem _ hc)
    refine ⟨fs, hl'.congr fun c hc => ?_, fun c => ⟨fun hc => ?_, fun hc => ?_⟩⟩
    · rw [Store.next, hother c (hne c hc) (.inl (hfree c hc))]; rfl
    · rw [Store.body, hother c (hne c hc) (.inl (hfree c hc))]; exact hfree c hc
    · have hch : c ≠ head := by rintro rfl; exact hk hc
      rw [Store.body, hother c hch (.inr hc)] at hc
      exact (List.mem_cons.1 ((hm c).2 hc)).resolve_left hch

/-- The free list with one more page in front. -/
theorem FreeOk.push {head b : ℕ} (hf : FreeOk s head) (hb : b ≠ noBlock)
    (hold : (s.body b).kind ≠ .free) (hnew : (s'.body b).kind = .free)
    (hnext : s'.next b = head)
    (hother : ∀ c, c ≠ b → (s.body c).kind = .free ∨ (s'.body c).kind = .free →
      s'.page c = s.page c) : FreeOk s' b := by
  obtain ⟨fs, hl, hm⟩ := hf
  have hne : ∀ c ∈ fs, c ≠ b := by rintro c hc rfl; exact hold ((hm c).1 hc)
  have hpage : ∀ c ∈ fs, s'.page c = s.page c := fun c hc =>
    hother c (hne c hc) (.inl ((hm c).1 hc))
  refine ⟨b :: fs, ⟨rfl, hb, hnext ▸ hl.congr fun c hc => ?_⟩, fun c => ?_⟩
  · rw [Store.next, hpage c hc]; rfl
  · rw [List.mem_cons]
    constructor
    · rintro (rfl | hc)
      · exact hnew
      · rw [Store.body, hpage c hc]; exact (hm c).1 hc
    · intro hc
      by_cases hcb : c = b
      · exact .inl hcb
      · rw [Store.body, hother c hcb (.inr hc)] at hc
        exact .inr ((hm c).2 hc)

theorem MetaBody.Ok.withFree {l : HeapLayout} {b : ℕ} (h : m.Ok l) (hb : b ≠ 0) :
    { m with freeHead := b }.Ok l :=
  ⟨h.maxOffset, h.incarnation, h.owners, hb, h.journal, h.grouped, h.ids, h.refs, h.bucket⟩

/-- Links never lead to block zero. -/
theorem WF.next_ne_zero (h : WF strong s m) {b : ℕ} (hk : (s.body b).kind ≠ .zero) :
    s.next b ≠ 0 := by
  rcases (h.pages.valid b).next hk with hn | ⟨hn, -⟩
  · rw [Store.next, hn]; decide
  · exact hn.1

/-- Owner references of a valid store are in the range the codec accepts. -/
theorem Store.Owns.valid {r : OwnerRef} {o : OwnerSlot} (hp : PagesOk s) (ho : s.Owns r o) :
    r.Valid := by
  refine ⟨hp.blockValid (by rw [ho.kind]; simp) (by rw [ho.kind]; simp), ?_,
    ho.2 ▸ (hp.slotOk ho).incarnation⟩
  have hlen := (hp.valid r.page).len
  have hlt := ho.lt
  obtain ⟨slots, hb⟩ : ∃ slots, s.body r.page = .owners slots := by
    have hk := ho.kind
    revert hk; cases s.body r.page <;> simp [Body.kind]
  have hb' : (s.page r.page).body = .owners slots := hb
  rw [Page.len, hb'] at hlen
  rw [hb] at hlt
  simp only [Body.slots, capacity, ownerHeader, ownerBytes, ownerSlots] at *
  omega

end

/-! ### Fragments -/

section

variable {strong : Prop} {s : Store} {m : MetaBody} {V : View} {owner : OwnerRef}
  {o : OwnerSlot}

/-- The image of one fragment. -/
def fragmentPage (b : ℕ) (owner : OwnerRef) (next offset : ℕ) (chunk : List UInt8) : Page :=
  ⟨b, next, .fragment owner offset chunk, false⟩

/-- The bounds of a fragment payload. -/
def ChunkOk (offset : ℕ) (chunk : List UInt8) : Prop :=
  chunk ≠ [] ∧ chunk.length ≤ fragmentBytes ∧ offset + chunk.length ≤ maxDocumentBytes

theorem fragment_eq {b next offset : ℕ} {chunk : List UInt8} (ho : owner.Valid)
    (hc : ChunkOk offset chunk) (hb : blockValid b)
    (hn : (fragmentPage b owner next offset chunk).NextOk) :
    Page.fragment b owner next offset chunk = .ok (fragmentPage b owner next offset chunk) := by
  have h₁ : ¬ (chunk = [] ∨ fragmentBytes < chunk.length) :=
    not_or.2 ⟨hc.1, Nat.not_lt.2 hc.2.1⟩
  have hnew : Page.new b (.fragment owner offset chunk) =
      .ok ⟨b, noBlock, .fragment owner offset chunk, false⟩ :=
    if_neg (not_or.2 ⟨hb.2, not_not.2 ⟨fun h0 => absurd h0 hb.1, fun hk => nomatch hk⟩⟩)
  rw [Page.fragment, if_neg h₁, if_neg (not_not.2 ⟨ho.1, ho.2.1⟩), hnew]
  exact if_pos hn

theorem fragmentPage_valid {l : HeapLayout} {b next offset : ℕ} {chunk : List UInt8}
    (ho : owner.Valid) (hc : ChunkOk offset chunk) (hb : blockValid b)
    (hn : (fragmentPage b owner next offset chunk).NextOk) :
    (fragmentPage b owner next offset chunk).Valid l where
  next _ := hn
  block _ := ⟨fun h0 => absurd h0 hb.1, fun hk => nomatch hk⟩
  body := ⟨ho, hc.1, hc.2.2⟩
  len := by
    have hlen : (fragmentPage b owner next offset chunk).len = fragmentHeader + chunk.length := rfl
    have := hc.2.1
    rw [hlen]
    simp only [fragmentBytes, capacity, fragmentHeader] at *
    omega

/-- The end of the fragment chain under construction. -/
def HeadOk (s : Store) (dataHead : ℕ) : Prop :=
  dataHead = noBlock ∨ (s.body dataHead).kind = .fragment

theorem fragment_nextOk {b dataHead : ℕ} (owner : OwnerRef) (offset : ℕ) (chunk : List UInt8)
    (h : WF strong s m)
    (hd : HeadOk s dataHead) (hb : (s.body b).kind ≠ .fragment) :
    (fragmentPage b owner dataHead offset chunk).NextOk := by
  refine hd.imp_right fun hk => ?_
  refine ⟨h.pages.blockValid (b := dataHead) (hk.trans_ne (by decide)) (hk.trans_ne (by decide)),
    ?_, by simp [fragmentPage, Page.kind, Body.kind], ?_⟩
  · intro heq
    have heq' : dataHead = b := heq
    rw [heq'] at hk
    exact hb hk
  · rintro (hk | hk) <;> cases hk

theorem HeadOk.links {s' : Store} {b dataHead offset : ℕ} {chunk : List UInt8}
    (hd : HeadOk s dataHead) (hk : KeepsWritten s s') :
    Links s' (fragmentPage b owner dataHead offset chunk) := by
  refine ⟨hd.imp_right fun h => hk dataHead (h.trans_ne (by decide)), fun o ho => ?_⟩
  exact absurd ho List.not_mem_nil

/-- A fragment written to a block that was just appended. -/
theorem fragment_fresh {b dataHead offset : ℕ} {chunk : List UInt8} (h : WF strong s m)
    (ho : s.Owns owner o) (hc : ChunkOk offset chunk) (hd : HeadOk s dataHead)
    (hb : (s.body b).kind = .zero) (hlt : b < s.blocks) (h0 : b ≠ 0) :
    CommitOk s [fragmentPage b owner dataHead offset chunk] ∧
      ∀ s', Committed s s' [fragmentPage b owner dataHead offset chunk] →
        WF strong s' m ∧ Same PageKind.NotFree s s' ∧ HeadOk s' b ∧
          ∀ c, (s.body c).kind = .fragment → s'.page c = s.page c := by
  have hbv : blockValid b := ⟨h0, by have := h.pages.le; omega⟩
  have hn := fragment_nextOk owner offset chunk h hd
    (b := b) (by rw [hb]; simp)
  have hfk : (fragmentPage b owner dataHead offset chunk).kind = .fragment := rfl
  have hcm : CommitOk s [fragmentPage b owner dataHead offset chunk] :=
    commitOk_one (fragmentPage_valid (ho.valid h.pages) hc hbv hn) (by simp [hfk]) hlt
  refine ⟨hcm, fun s' hcs => ?_⟩
  obtain ⟨hpage, hother⟩ := hcs.one
  have hpage' : s'.page b = (fragmentPage b owner dataHead offset chunk).stored := hpage
  have hother' : ∀ c, c ≠ b → s'.page c = s.page c := hother
  have hbody : s'.body b = .fragment owner offset chunk := by rw [Store.body, hpage']; rfl
  have hsame : Same PageKind.NotFree s s' := hcs.same_one (k := .zero) hb
    ⟨by decide, by rw [hfk]; decide⟩
  have hkeep := hcs.keepsWritten fun p hp => (hcm.2.2.1 p hp).2.1
  refine ⟨h.of_free (hcs.pages h.pages hcm) ?_ hsame ?_ ?_ ?_, hsame, ?_⟩
  · rw [hother' 0 (Ne.symm h0)]; exact h.info
  · exact h.free.same (hcs.same_one (k := .zero) hb ⟨by simp, by simp [hfk]⟩)
  · intro c r offset' payload hcb
    by_cases hc' : c = b
    · subst hc'
      rw [hbody] at hcb
      cases hcb
      exact ⟨o, ho⟩
    · rw [Store.body_eq_of_page (hother' c hc')] at hcb
      exact h.refs.fragment c r offset' payload hcb
  · refine hcs.closed h.closed (fun p hp => (hcm.2.2.1 p hp).2.1) ?_
    simpa using hd.links hkeep
  · refine ⟨.inr (by rw [hbody]; rfl), fun c hk => hother' c ?_⟩
    rintro rfl
    rw [hb] at hk
    cases hk

/-- A fragment written to the first page of the free list. -/
theorem fragment_reuse {dataHead offset : ℕ} {chunk : List UInt8} (h : WF strong s m)
    (ho : s.Owns owner o) (hc : ChunkOk offset chunk) (hd : HeadOk s dataHead)
    (hfree : m.freeHead ≠ noBlock) :
    let ps := [metaPage { m with freeHead := s.next m.freeHead },
      fragmentPage m.freeHead owner dataHead offset chunk]
    CommitOk s ps ∧ ∀ s', Committed s s' ps →
      WF strong s' { m with freeHead := s.next m.freeHead } ∧ Same PageKind.NotFree s s' ∧
        HeadOk s' m.freeHead ∧ ∀ c, (s.body c).kind = .fragment → s'.page c = s.page c := by
  intro ps
  have hk := h.free.head hfree
  have h0 : m.freeHead ≠ 0 := h.ne_zero (by rw [hk]; simp)
  have hbv : blockValid m.freeHead := ⟨h0, hfree⟩
  have hn := fragment_nextOk owner offset chunk h hd
    (b := m.freeHead) (by rw [hk]; simp)
  have hfk : (fragmentPage m.freeHead owner dataHead offset chunk).kind = .fragment := rfl
  have hn0 : s.next m.freeHead ≠ 0 := h.next_ne_zero (by rw [hk]; simp)
  have hcm : CommitOk s ps := commitOk_two
    ⟨metaPage_valid (h.metaOk.withFree hn0), by simp, h.pages.pos⟩
    ⟨fragmentPage_valid (ho.valid h.pages) hc hbv hn, by simp [hfk],
      h.pages.lt_blocks (b := m.freeHead) (hk.trans_ne (by decide))⟩ h0.symm
  refine ⟨hcm, fun s' hcs => ?_⟩
  obtain ⟨hinfo, hpage, hother⟩ := hcs.two
  have hpage' : s'.page m.freeHead = (fragmentPage m.freeHead owner dataHead offset chunk).stored :=
    hpage
  have hother' : ∀ c, c ≠ 0 → c ≠ m.freeHead → s'.page c = s.page c := hother
  have hbody : s'.body m.freeHead = .fragment owner offset chunk := by
    rw [Store.body, hpage']; rfl
  have hbody0 : s'.body 0 = .info { m with freeHead := s.next m.freeHead } :=
    hcs.body_mem (p := metaPage _) (by simp [ps])
  have hsame : Same PageKind.NotFree s s' := hcs.same_two h.kind_zero hk
    ⟨by decide, by rw [metaPage_kind]; decide, by decide, by rw [hfk]; decide⟩
  have hkeep := hcs.keepsWritten fun p hp => (hcm.2.2.1 p hp).2.1
  refine ⟨h.of_free (hcs.pages h.pages hcm) hinfo hsame ?_ ?_ ?_, hsame, ?_⟩
  · refine h.free.pop hfree (by rw [hbody]; simp [Body.kind]) fun b hb hkb => hother' b ?_ hb
    rintro rfl
    rw [h.body_zero, hbody0] at hkb
    rcases hkb with hkb | hkb <;> cases hkb
  · intro c r offset' payload hcb
    by_cases hc' : c = m.freeHead
    · subst hc'
      rw [hbody] at hcb
      cases hcb
      exact ⟨o, ho⟩
    · have hc0 : c ≠ 0 := by rintro rfl; rw [hbody0] at hcb; cases hcb
      rw [Store.body_eq_of_page (hother' c hc0 hc')] at hcb
      exact h.refs.fragment c r offset' payload hcb
  · exact hcs.closed_two h.closed (by simp) (by simp [hfk]) (metaPage_links _) (hd.links hkeep)
  · refine ⟨.inr (by rw [hbody]; rfl), fun c hkc => hother' c ?_ ?_⟩
    · rintro rfl
      rw [h.body_zero] at hkc
      cases hkc
    · rintro rfl
      rw [hk] at hkc
      cases hkc

/-- What `storeFragments` keeps. -/
def PayloadPost (strong : Prop) (V : View) (l : HeapLayout) (owner : OwnerRef)
    (o : OwnerSlot) (x : ℕ × Page) (s : Store) : Prop :=
  s.layout = l ∧ HeadOk s x.1 ∧ ∃ m, x.2 = metaPage m ∧ WF strong s m ∧ Shows s V ∧
    Reserved s owner o []

theorem storeFragments_spec {bytes : List UInt8} {n dataHead : ℕ} (h : WF strong s m)
    (hv : Shows s V) (hr : Reserved s owner o []) (hd : HeadOk s dataHead)
    (hlen : bytes.length ≤ maxDocumentBytes) (hn : n = 0 ∨ (n - 1) * fragmentBytes < bytes.length) :
    SpecAlong Exhausted (Good strong V) Grows s (storeFragments owner bytes n (metaPage m) dataHead)
      fun x s' => PayloadPost strong V s.layout owner o x s' ∧ (0 < n → x.1 ≠ noBlock) ∧
        (n = 0 → x.1 = dataHead) := by
  induction n generalizing s m dataHead with
  | zero => exact SpecAlong.pure ⟨⟨rfl, hd, m, rfl, h, hv, hr⟩, fun h => absurd h (Nat.lt_irrefl 0),
      fun _ => rfl⟩
  | succ n ih =>
    have hlt : n * fragmentBytes < bytes.length := by simpa using hn
    have hchunk : ChunkOk (n * fragmentBytes)
        ((bytes.drop (n * fragmentBytes)).take fragmentBytes) := by
      have hpos : 0 < fragmentBytes := by decide
      refine ⟨?_, ?_, ?_⟩
      · intro hnil
        have := congrArg List.length hnil
        simp only [List.length_take, List.length_drop, List.length_nil] at this
        omega
      · simp only [List.length_take]; omega
      · simp only [List.length_take, List.length_drop]; omega
    have hn' : n = 0 ∨ (n - 1) * fragmentBytes < bytes.length := by
      rcases Nat.eq_zero_or_pos n with h0 | h0
      · exact .inl h0
      · refine .inr (Nat.lt_of_le_of_lt ?_ hlt)
        exact Nat.mul_le_mul_right _ (Nat.sub_le n 1)
    have hstep : ∀ (s₁ : Store) (m₁ : MetaBody) (b : ℕ), s₁.layout = s.layout → WF strong s₁ m₁ →
        Shows s₁ V → Reserved s₁ owner o [] → HeadOk s₁ b → b ≠ noBlock →
        SpecAlong Exhausted (Good strong V) Grows s₁ (storeFragments owner bytes n (metaPage m₁) b)
          fun x s' => PayloadPost strong V s.layout owner o x s' ∧ (0 < n + 1 → x.1 ≠ noBlock) ∧
            (n + 1 = 0 → x.1 = dataHead) := by
      intro s₁ m₁ b hl hw hv' hr' hd' hb
      refine (ih hw hv' hr' hd' hn').post fun x s' hx => ?_
      rw [hl] at hx
      refine ⟨hx.1, fun _ => ?_, fun h => absurd h (Nat.succ_ne_zero n)⟩
      rcases Nat.eq_zero_or_pos n with h0 | h0
      · rw [hx.2.2 h0]; exact hb
      · exact hx.2.1 h0
    unfold storeFragments
    refine SpecAlong.ofExcept_bind (metaPage_freeHead h.metaOk) ?_
    by_cases hfree : m.freeHead = noBlock
    · rw [if_pos hfree]
      refine (allocate_along (.inl rfl) fun hlt => ⟨.grow h.pages, m, h.grow hlt,
        hv.grow h.pages⟩).bind ?_
      rintro b _ ⟨rfl, rfl, hlt'⟩
      obtain ⟨hz, hb, hlast, h0⟩ := grow_last h
      have hg := h.grow hlt'
      have hsame := same_grow h.pages PageKind.NotFree
      have hr' := hr.of_free hsame
      have hd' : HeadOk s.grow dataHead := by
        unfold HeadOk Store.body; rw [grow_page h.pages]; exact hd
      obtain ⟨hc, hpost⟩ := fragment_fresh hg hr'.owns hchunk hd' hz hb h0
      refine SpecAlong.ofExcept_bind (fragment_eq (hr'.owns.valid hg.pages) hchunk ⟨h0, by omega⟩
        (fragment_nextOk owner _ _ hg hd' (by rw [hz]; simp))) ?_
      refine (commit_along hc fun s' hcm => ⟨.of_free (hpost s' hcm).2.1 hcm.blocks
          (hpost s' hcm).2.2.2, m,
        (hpost s' hcm).1, (hv.grow h.pages).of_free (hpost s' hcm).2.1⟩).bind fun _ s' hcm => ?_
      obtain ⟨hw, hs, hh, -⟩ := hpost s' hcm
      exact hstep s' m s.blocks (hcm.layout.trans rfl) hw ((hv.grow h.pages).of_free hs)
        (hr'.of_free hs) hh (by omega)
    · rw [if_neg hfree]
      have hk := h.free.head hfree
      obtain ⟨hc, hpost⟩ := fragment_reuse h hr.owns hchunk hd hfree
      refine SpecAlong.reading_bind (load_returns h.pages hk (by simp)) ?_
      rintro _ rfl
      refine SpecAlong.ofExcept_bind (metaPage_setFreeHead (h.next_ne_zero (by rw [hk]; simp))) ?_
      refine SpecAlong.ofExcept_bind (fragment_eq (hr.owns.valid h.pages) hchunk
        ⟨h.ne_zero (by rw [hk]; simp), hfree⟩
          (fragment_nextOk owner _ _ h hd (by rw [hk]; simp))) ?_
      refine (commit_along hc fun s' hcm => ⟨.of_free (hpost s' hcm).2.1 hcm.blocks
          (hpost s' hcm).2.2.2, _,
        (hpost s' hcm).1, hv.of_free (hpost s' hcm).2.1⟩).bind fun _ s' hcm => ?_
      obtain ⟨hw, hs, hh, -⟩ := hpost s' hcm
      exact hstep s' _ m.freeHead hcm.layout hw (hv.of_free hs) (hr.of_free hs) hh hfree

end

end PinCore
