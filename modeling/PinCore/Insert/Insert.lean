import PinCore.Insert.NewTerm

/-!
# Insertion

The rules of `insert` and its parts.  Every durable state on the way shows the documents of
before; the publication record adds the new one.
-/

namespace PinCore

open Prog

section

variable {strong : Prop} {s : Store} {m : MetaBody} {V : View} {owner : OwnerRef}
  {o : OwnerSlot} {xs : List Text} {t : TermRef} {e : Entry} {b : ℕ} {ps : List Page}

/-! ### Page operations of a link -/

theorem promoteInlineSecond_eq {second : OwnerRef} (hp : PagesOk s) (he : s.entry t = some e)
    (hi : e.inline = 1) (hs : e.second = some second) (hb : blockValid b) (hbt : b ≠ t.page) :
    (s.page t.page).promoteInlineSecond t b =
      .ok (second, (s.page t.page).updateEntry t (Entry.promoted b)) := by
  have hin : (e.toTerm t).inlineSecond = some second := by rw [Entry.toTerm, if_pos hi, hs]
  have hval : ¬ (¬ blockValid b ∨ b = (s.page t.page).block) :=
    not_or.2 ⟨not_not.2 hb, by rw [hp.block]; exact hbt⟩
  rw [Page.promoteInlineSecond, term_eq hp he, ok_bind]
  simp only [hin]
  exact if_neg hval

theorem setInlineSecond_eq {es : List Entry} (hp : PagesOk s) (he : s.entry t = some e)
    (hb : s.body t.page = .dictionary true es) (hi : e.inline ≠ 1) (hh : e.head = noBlock)
    (ht : e.tail = noBlock) (hf : e.first.Before owner) (ho : owner.Valid) :
    (s.page t.page).setInlineSecond t (some owner) =
      .ok ((s.page t.page).updateEntry t (Entry.withSecond owner t.page)) := by
  have hin : (e.toTerm t).inlineSecond = none := by rw [Entry.toTerm, if_neg hi]
  have hfmt : ¬ (s.page t.page).packedDictionaryFormat = false := by
    rw [Page.packedDictionaryFormat, show (s.page t.page).body = _ from hb]; simp
  rw [Page.setInlineSecond, if_neg hfmt, term_eq hp he]
  have h₁ : ¬ ((e.toTerm t).inlineSecond ≠ none ∨ (e.toTerm t).head ≠ noBlock ∨
      (e.toTerm t).tail ≠ noBlock ∨ ¬ (e.toTerm t).first.Before owner) := by
    rw [hin]
    simpa [Entry.toTerm] using ⟨hh, ht, hf⟩
  refine (if_neg h₁).trans ((if_neg (not_not.2 ⟨ho.1, ho.2.1⟩)).trans ?_)
  rw [hp.block]
  rfl

theorem setPostingChain_eq {head tail : ℕ} (hp : PagesOk s) (he : s.entry t = some e)
    (hi : e.inline ≠ 1) (hpair : postingPairValid head tail) :
    (s.page t.page).setPostingChain t head tail =
      .ok ((s.page t.page).updateEntry t (Entry.withChain head tail)) := by
  have hin : (e.toTerm t).inlineSecond = none := by rw [Entry.toTerm, if_neg hi]
  rw [Page.setPostingChain, term_eq hp he]
  exact (if_neg (not_not.2 hin)).trans (if_pos hpair)

/-- Without a grouped snapshot there is no frontier to invalidate. -/
theorem invalidateFrontier_along {E : Error → Prop} {C : Store → Prop}
    {T : Store → Store → Prop} (h : WF strong s m) :
    SpecAlong E C T s (Grouped.invalidateFrontier (metaPage m)) fun p s' => p = metaPage m ∧
      s' = s := by
  refine SpecAlong.ofExcept_bind (metaPage_groupedState h.metaOk) ?_
  rw [h.grouped.state]
  exact SpecAlong.pure ⟨rfl, rfl⟩

/-! ### Linking -/

/-- What a link leaves: the metapage copy is current and the terms `xs` are linked. -/
def LinkPost (strong : Prop) (V : View) (owner : OwnerRef) (o : OwnerSlot) (xs : List Text)
    (p : Page) (s : Store) : Prop :=
  ∃ m, p = metaPage m ∧ Pending strong V s m owner o xs

theorem LinksTo.spec (h : LinksTo strong V s m owner o xs ps) :
    SpecAlong Exhausted (Good strong V) Grows s (do commit ps; return metaPage m)
      (LinkPost strong V owner o xs) := by
  refine (commit_along h.1 fun s' hcm => (h.2 s' hcm).imp_right Pending.good).bind
    fun _ s' hcm => ?_
  exact SpecAlong.pure ⟨m, rfl, (h.2 s' hcm).2⟩

/-- Allocation during an insertion. -/
theorem Pending.allocate {α : Type} {f : ℕ → Wr α} {Q : α → Store → Prop}
    (h : Pending strong V s m owner o xs)
    (hf : s.blocks < noBlock → SpecAlong Exhausted (Good strong V) Grows s.grow (f s.blocks) Q) :
    SpecAlong Exhausted (Good strong V) Grows s (allocate >>= f) Q := by
  refine (allocate_along (.inl rfl) fun hlt => ⟨.grow h.wf.pages, (h.grow hlt).good⟩).bind ?_
  rintro b _ ⟨rfl, rfl, hlt⟩
  exact hf hlt

theorem entry_grow (hp : PagesOk s) (t : TermRef) : s.grow.entry t = s.entry t :=
  Store.entry_same (same_grow hp _) t

theorem body_grow (hp : PagesOk s) (b : ℕ) : s.grow.body b = s.body b :=
  Store.body_eq_of_page (by rw [grow_page hp])

theorem linkExisting_spec (h : Pending strong V s m owner o xs) (hx : e.term ∉ xs)
    (he : s.entry t = some e) :
    SpecAlong Exhausted (Good strong V) Grows s (linkExisting (metaPage m) (s.page t.page) t owner)
      (LinkPost strong V owner o (e.term :: xs)) := by
  have hw := h.wf
  obtain ⟨p, es, hb, hok⟩ := entry_body hw.pages he
  obtain ⟨hz, hlt', -, h0⟩ := grow_last hw
  have heg : s.grow.entry t = some e := by rw [entry_grow hw.pages]; exact he
  have hbg : s.grow.body t.page = .dictionary p es := by rw [body_grow hw.pages]; exact hb
  have hpg := grow_page hw.pages
  have hval := h.reserved.owns.valid hw.pages
  have hbt : s.blocks ≠ t.page := by
    have := hw.pages.lt_blocks ((Store.entry_kind he).trans_ne (by decide))
    omega
  refine SpecAlong.ofExcept_bind (term_eq hw.pages he) ?_
  cases hin : (e.toTerm t).inlineSecond with
  | some second =>
    -- the inline second moves to a page of its own, with the new owner behind it
    obtain ⟨rfl, hi, hs, -, -⟩ := inlineSecond_eq_some hok hin
    refine (invalidateFrontier_along hw).bind ?_
    rintro _ s' ⟨rfl, hs'⟩
    rw [hs']
    refine h.allocate fun hlt => ?_
    have hbv : blockValid s.blocks := ⟨h0, by omega⟩
    obtain ⟨x, hxo⟩ := hw.refs.second t e second he hs
    refine SpecAlong.ofExcept_bind (postings_new (termRef_ok hw he) hbv) ?_
    refine SpecAlong.ofExcept_bind (postingsPage_append (hxo.valid hw.pages) (by simp)) ?_
    refine SpecAlong.ofExcept_bind (postingsPage_append hval (by simp)) ?_
    refine SpecAlong.ofExcept_bind (promoteInlineSecond_eq hw.pages he hi hs hbv hbt) ?_
    have hl := link_promote (h.grow hlt) hx heg hbg hok hi hs hz hlt' h0
    rw [hpg] at hl
    exact hl.spec
  | none =>
    have hi := inlineSecond_eq_none hok hin
    by_cases hh : e.head = noBlock
    · change SpecAlong _ _ _ _ (if e.head = noBlock then _ else _) _
      rw [if_pos hh]
      have ht : e.tail = noBlock := by
        rcases hok.pair with ⟨-, ht⟩ | ⟨hv, -⟩
        · exact ht
        · exact absurd hh hv.2
      obtain ⟨bs, hch, -⟩ := hw.chains.chain t e he
      have hbefore : e.first.Before owner := h.reserved.before hw hx he hch _ List.mem_cons_self
      have hfmt : (s.page t.page).packedDictionaryFormat = p := by
        rw [Page.packedDictionaryFormat, show (s.page t.page).body = _ from hb]
      cases p with
      | true =>
        -- a packed entry takes the second owner inline
        rw [if_pos hfmt]
        refine SpecAlong.ofExcept_bind (setInlineSecond_eq hw.pages he hb hi hh ht hbefore hval) ?_
        exact (link_inline h hx he hb hok hi hh).spec
      | false =>
        rw [if_neg (by rw [hfmt]; simp)]
        refine h.allocate fun hlt => ?_
        have hbv : blockValid s.blocks := ⟨h0, by omega⟩
        refine SpecAlong.ofExcept_bind (postings_new (termRef_ok hw he) hbv) ?_
        refine SpecAlong.ofExcept_bind (postingsPage_append hval (by simp)) ?_
        refine SpecAlong.ofExcept_bind (setPostingChain_eq hw.pages he hi (.inr ⟨hbv, hbv⟩)) ?_
        have hl := link_first (h.grow hlt) hx heg hbg hok hi hh hz hlt' h0
        rw [hpg] at hl
        exact hl.spec
    · change SpecAlong _ _ _ _ (if e.head = noBlock then _ else _) _
      rw [if_neg hh]
      obtain ⟨bs, hch, -⟩ := hw.chains.chain t e he
      obtain ⟨-, -, -, hnext, htag⟩ := chain_tail hch hi hh
      refine SpecAlong.reading_bind (loadPosting_returns (b := e.tail) hw.pages htag) ?_
      rintro _ rfl
      refine SpecAlong.ensure_bind hnext ?_
      -- the last page takes the owner only if it is mutable and has room
      have happ : (∃ refs, s.body e.tail = .postings t refs ∧ (s.page e.tail).len + 16 ≤ capacity ∧
          (if (s.page e.tail).kind = .postings then
            (s.page e.tail).appendPosting owner else .ok none) =
            .ok (some { s.page e.tail with body := .postings t (refs ++ [owner]) })) ∨
          (if (s.page e.tail).kind = .postings then
            (s.page e.tail).appendPosting owner else .ok none) =
            .ok none := by
        by_cases hk : (s.page e.tail).kind = .postings
        · obtain ⟨refs, hbody⟩ : ∃ refs, s.body e.tail = .postings t refs := by
            have hk' : (s.body e.tail).kind = .postings := hk
            revert hk' htag
            cases s.body e.tail <;> simp [Body.kind, Body.postingTag]
          have hbody' : (s.page e.tail).body = .postings t refs := hbody
          rw [if_pos hk, Page.appendPosting, hbody']
          simp only
          by_cases hfull : capacity < (s.page e.tail).len + 16
          · exact .inr (if_pos hfull)
          · refine .inl ⟨refs, hbody, Nat.not_lt.1 hfull, ?_⟩
            exact (if_neg hfull).trans (if_neg (not_not.2 ⟨hval.1, hval.2.1⟩))
        · exact .inr (if_neg hk)
      rcases happ with ⟨refs, hbody, hroom, happ⟩ | happ
      · refine SpecAlong.ofExcept_bind happ ?_
        exact (link_append h hx he hi hh hbody hroom).spec
      · -- a sealed, direct or full page gets a new page behind it
        refine SpecAlong.ofExcept_bind happ ?_
        refine h.allocate fun hlt => ?_
        have hbv : blockValid s.blocks := ⟨h0, by omega⟩
        obtain ⟨hnok, hl⟩ := link_behind (h.grow hlt) hx heg hbg hok hi hh hz rfl h0
        rw [hpg] at hnok hl
        have hheadv : blockValid e.head := by
          rcases hok.pair with ⟨h1, -⟩ | ⟨h1, -⟩
          · exact absurd h1 hh
          · exact h1
        refine SpecAlong.ofExcept_bind (postings_new (termRef_ok hw he) hbv) ?_
        refine SpecAlong.ofExcept_bind (postingsPage_append hval (by simp)) ?_
        refine SpecAlong.ofExcept_bind (setNext_eq hnok) ?_
        refine SpecAlong.ofExcept_bind (setPostingChain_eq hw.pages he hi (.inr ⟨hheadv, hbv⟩)) ?_
        exact hl.spec

theorem linkNew_spec {x : Text} (h : Pending strong V s m owner o xs)
    (hx : ∀ u e, s.entry u = some e → e.term ≠ x) (hne : x ≠ []) (hlen : x.length ≤ maxTermBytes) :
    SpecAlong Exhausted (Good strong V) Grows s (linkNew (metaPage m) x owner)
      (LinkPost strong V owner o (x :: xs)) := by
  have hw := h.wf
  have hi := bucketFor_lt x
  have hval := h.reserved.owns.valid hw.pages
  obtain ⟨hz, hlt', hlast, h0⟩ := grow_last hw
  have hpg := grow_page hw.pages
  have hxg : ∀ u e, s.grow.entry u = some e → e.term ≠ x := fun u e he =>
    hx u e (by rwa [entry_grow hw.pages] at he)
  refine SpecAlong.ofExcept_bind (metaPage_bucket hw.metaOk hi) ?_
  by_cases hh : (m.bucket (bucketFor x)).1 = noBlock
  · simp only [if_pos hh]
    refine h.allocate fun hlt => ?_
    have hbv : blockValid s.blocks := ⟨h0, by omega⟩
    refine SpecAlong.ofExcept_bind (freshDictionary_eq hbv) ?_
    refine SpecAlong.ofExcept_bind (appendTerm_fresh hval hne hlen) ?_
    refine SpecAlong.ofExcept_bind (metaPage_setBucket hi (.inr ⟨hbv, hbv, Nat.le_refl _⟩)) ?_
    exact (link_bucket (h.grow hlt) hxg hne hlen hh hz hlt' h0).spec
  · simp only [if_neg hh]
    obtain ⟨ds, hd⟩ := hw.dict
    obtain ⟨-, -, -, hk, -⟩ := bucket_tail hd hi hh
    obtain ⟨p, es, hb⟩ := dictionary_of_kind hk
    obtain rfl : p = m.packed := (hd.format _ p es hb).1
    refine SpecAlong.reading_bind (load_returns hw.pages hk (by simp)) ?_
    rintro _ rfl
    refine SpecAlong.ofExcept_bind (appendTerm_eq hb hval hne hlen) ?_
    by_cases hfull : capacity < (s.page (m.bucket (bucketFor x)).2).len +
        (newEntry x owner).size m.packed
    · rw [if_pos hfull]
      refine h.allocate fun hlt => ?_
      have hbv : blockValid s.blocks := ⟨h0, by omega⟩
      obtain ⟨hnok, hpair, hl⟩ := link_entry_next (h.grow hlt) hxg hne hlen hh hz hlt' hlast
      rw [hpg] at hnok hl
      refine SpecAlong.ofExcept_bind (freshDictionary_eq hbv) ?_
      refine SpecAlong.ofExcept_bind (appendTerm_fresh hval hne hlen) ?_
      refine SpecAlong.ofExcept_bind (setNext_eq hnok) ?_
      refine SpecAlong.ofExcept_bind (metaPage_setBucket hi hpair) ?_
      exact hl.spec
    · rw [if_neg hfull]
      exact (link_entry_append h hx hne hlen hh hb (Nat.not_lt.1 hfull)).spec

theorem linkTerm_spec {x : Text} (h : Pending strong V s m owner o xs) (hx : x ∉ xs)
    (hne : x ≠ []) (hlen : x.length ≤ maxTermBytes) :
    SpecAlong Exhausted (Good strong V) Grows s (linkTerm (metaPage m) x owner)
      (LinkPost strong V owner o (x :: xs)) := by
  refine SpecAlong.reading_bind (findTerm_returns h.wf x) fun r hr => ?_
  rcases r with _ | ⟨p, t⟩
  · exact linkNew_spec h hr hne hlen
  · obtain ⟨rfl, e, he, hex⟩ := hr
    subst hex
    exact linkExisting_spec h hx he

theorem linkTerms_spec {ts : List Text} (h : Pending strong V s m owner o xs)
    (hts : ∀ x ∈ ts, x ≠ [] ∧ x.length ≤ maxTermBytes) (hnd : ts.Nodup) (hx : ∀ x ∈ ts, x ∉ xs) :
    SpecAlong Exhausted (Good strong V) Grows s (linkTerms owner ts (metaPage m))
      (LinkPost strong V owner o (ts.reverse ++ xs)) := by
  induction ts generalizing s m xs with
  | nil => exact SpecAlong.pure ⟨m, rfl, h⟩
  | cons x ts ih =>
    obtain ⟨hxts, hnd⟩ := List.nodup_cons.1 hnd
    obtain ⟨hne, hlen⟩ := hts x List.mem_cons_self
    refine (linkTerm_spec h (hx x List.mem_cons_self) hne hlen).bind ?_
    rintro _ s' ⟨m', rfl, h'⟩
    refine (ih h' (fun y hy => hts y (List.mem_cons_of_mem _ hy)) hnd fun y hy => ?_).post
      fun p s'' hp => ?_
    · rw [List.mem_cons, not_or]
      exact ⟨fun heq => hxts (heq ▸ hy), hx y (List.mem_cons_of_mem _ hy)⟩
    · rw [List.reverse_cons, List.append_assoc]
      exact hp

/-! ### The whole insertion -/

/-- What `prepareInsert` leaves: the document is complete and unpublished. -/
def PreparePost (strong : Prop) (V : View) (root : RootTid) (d : PreparedDocument)
    (owner : OwnerRef) (s : Store) : Prop :=
  ∃ m o, Pending strong V s m owner o (directory d.document).reverse ∧
    o.publication = .fragmentsWritten ∧ o.root = root

/-- The number of fragments covers the payload. -/
theorem fragment_count {n : ℕ} (h : inlineBytes < n) :
    0 < (n + fragmentBytes - 1) / fragmentBytes ∧
      ((n + fragmentBytes - 1) / fragmentBytes - 1) * fragmentBytes < n := by
  simp only [inlineBytes, fragmentBytes, fragmentHeader, capacity, ownerHeader, ownerBytes] at *
  omega

/-- The record of a slot whose payload is complete. -/
def OwnerSlot.ready (o : OwnerSlot) (dataHead : ℕ) : OwnerSlot :=
  { o with publication := .fragmentsWritten, live := false, dataHead := dataHead }

theorem payload_step {root : RootTid} {d : PreparedDocument} {dataHead : ℕ} (h : WF strong s m)
    (hown : s.Owns owner (newSlot owner.incarnation root d))
    (hd : HeadOk s dataHead)
    (hbig : inlineBytes < d.bytes.length → dataHead ≠ noBlock)
    (hsmall : ¬ inlineBytes < d.bytes.length → dataHead = noBlock) :
    Page.OwnerChange.apply (newSlot owner.incarnation root d) (.payloadReady dataHead) =
        .ok ((newSlot owner.incarnation root d).ready dataHead) ∧
      SlotStep s (newSlot owner.incarnation root d)
        ((newSlot owner.incarnation root d).ready dataHead) := by
  have hok := h.pages.slotOk hown
  have hlen := d.length_bytes.1
  have hinline : (newSlot owner.incarnation root d).inline = [] ↔ inlineBytes < d.bytes.length := by
    change (if d.bytes.length ≤ inlineBytes then d.bytes else []) = [] ↔ _
    split_ifs with hle
    · refine ⟨fun hnil => ?_, fun hlt => by omega⟩
      rw [hnil] at hlen
      simp at hlen
    · exact ⟨fun _ => Nat.not_le.1 hle, fun _ => rfl⟩
  have hvalid : dataHead ≠ noBlock → blockValid dataHead := fun hne => by
    have hk := hd.resolve_left hne
    exact h.pages.blockValid (hk.trans_ne (by decide)) (hk.trans_ne (by decide))
  constructor
  · rw [Page.OwnerChange.apply, if_pos (show (newSlot owner.incarnation root d).publication =
      .allocated from rfl), if_neg (not_or.2 ⟨fun hc => ?_, fun hc => ?_⟩)]
    · rfl
    · exact hc.2 (hvalid (hbig (hinline.1 hc.1)))
    · exact hc.2 (hsmall fun hlt => hc.1 (hinline.2 hlt))
  · refine ⟨rfl, rfl, rfl, ⟨hok.incarnation, hok.root, (fun h => nomatch h), hok.tokens,
      hok.terms, hok.minBytes, hok.maxBytes, ?_, fun hne => ?_,
      fun _ hnil => hbig (hinline.1 hnil), (fun h => nomatch h)⟩, ?_⟩
    · intro h0
      rcases hd with hd | hk
      · have h0' : dataHead = 0 := h0
        rw [h0'] at hd
        exact absurd hd (by decide)
      · exact h.ne_zero (hk.trans_ne (by decide)) h0
    · exact ⟨(hok.inline hne).1, hsmall fun hlt => hne (hinline.2 hlt)⟩
    · exact hd.imp_right fun hk => hk.trans_ne (by decide)

/-- The owner that is prepared takes the next incarnation. -/
theorem prepareInsert_spec {root : RootTid} (d : PreparedDocument) (h : WF strong s m)
    (hv : Shows s V) (hroot : root.Valid s.layout) :
    SpecAlong Exhausted (Good strong V) Grows s (prepareInsert root d) fun owner s' =>
      owner.incarnation = m.incarnation ∧ PreparePost strong V root d owner s' := by
  refine SpecAlong.reading_bind h.loadInfo ?_
  rintro _ rfl
  refine (reserveOwner_spec h hv hroot d).bind ?_
  rintro ⟨owner, _⟩ s₁ ⟨hinc, -, m₁, hm₁, hw₁, hv₁, hr₁⟩
  obtain rfl : _ = metaPage m₁ := hm₁
  have hrest : ∀ (x : ℕ × Page) (s₂ : Store),
      PayloadPost strong V s₁.layout owner (newSlot owner.incarnation root d) x s₂ →
      (inlineBytes < d.bytes.length → x.1 ≠ noBlock) →
      (¬ inlineBytes < d.bytes.length → x.1 = noBlock) →
      SpecAlong Exhausted (Good strong V) Grows s₂ (do
        commitOwner owner (.payloadReady x.1)
        let _ ← linkTerms owner d.terms x.2
        return owner) fun owner s' =>
          owner.incarnation = m.incarnation ∧ PreparePost strong V root d owner s' := by
    rintro ⟨dataHead, _⟩ s₂ ⟨-, hd₂, m₂, hm₂, hw₂, hv₂, hr₂⟩ hbig hsmall
    obtain rfl : _ = metaPage m₂ := hm₂
    obtain ⟨happly, hstep⟩ := payload_step hw₂ hr₂.owns hd₂ hbig hsmall
    have hpend : ∀ s', OwnerSet strong m₂ s₂ s' owner
        ((newSlot owner.incarnation root d).ready dataHead) →
        Pending strong V s' m₂ owner ((newSlot owner.incarnation root d).ready dataHead) [] := by
      intro s' hset
      refine ⟨hset.wf (hset.direct hw₂ hr₂), ?_, hset.reserved hr₂, rfl⟩
      refine hv₂.of_owners (fun r => ?_) hset.same fun r x hx hxs => ?_
      · by_cases hr : r = owner
        · rw [hr, Store.rootOf_eq hset.owns_self, Store.rootOf_eq hr₂.owns]; rfl
        · exact hset.rootOf_ne hr
      · rcases (hset.owns r x).1 hx with ⟨-, rfl⟩ | ⟨-, hx⟩
        · rcases hxs with hxs | hxs <;> cases hxs
        · exact hx
    refine (commitOwner_along hw₂ hr₂.owns happly hstep fun s' hset =>
      ⟨hset.grows hr₂.owns (newSlot_not_settled _ root d), (hpend s' hset).good⟩).bind ?_
    intro _ s₃ hset
    have hterms : ∀ x ∈ directory d.document, x ≠ [] ∧ x.length ≤ maxTermBytes := fun x hx =>
      d.terms_ok x (mem_directory.1 hx)
    refine (linkTerms_spec (hpend s₃ hset) hterms (directory_nodup _)
      fun _ _ => List.not_mem_nil).bind ?_
    rintro _ s₄ ⟨m₄, rfl, hp₄⟩
    rw [List.append_nil] at hp₄
    exact SpecAlong.pure ⟨hinc, m₄, _, hp₄, rfl, rfl⟩
  -- fragments for a large payload, nothing for an inline one
  by_cases hbig : inlineBytes < d.bytes.length
  · simp only [if_pos hbig]
    obtain ⟨hpos, hcover⟩ := fragment_count hbig
    refine (storeFragments_spec hw₁ hv₁ hr₁ (.inl rfl) d.bytes_le (.inr hcover)).bind ?_
    exact fun x s₂ hx => hrest x s₂ hx.1 (fun _ => hx.2.1 hpos) fun hn => absurd hbig hn
  · simp only [if_neg hbig]
    exact hrest (noBlock, metaPage m₁) s₁ ⟨rfl, .inl rfl, m₁, rfl, hw₁, hv₁, hr₁⟩
      (fun hb => absurd hb hbig) fun _ => rfl

/-- The record of a published slot. -/
def OwnerSlot.publish (o : OwnerSlot) : OwnerSlot :=
  { o with publication := .published, live := true }

/-- The view with one more document. -/
def View.add (V : View) (v : LiveDoc) : View := { V with docs := V.docs ++ [v] }

/-- What publication leaves. -/
def InsertPost (strong : Prop) (V : View) (root : RootTid) (d : PreparedDocument)
    (owner : OwnerRef) (s : Store) : Prop :=
  Good strong (V.add ⟨owner, root, d.document⟩) s

theorem publish_spec {root : RootTid} {d : PreparedDocument}
    (h : PreparePost strong V root d owner s) :
    SpecAlong Exhausted (InsertPost strong V root d owner) Grows s (commitOwner owner .publish)
      fun _ s' => InsertPost strong V root d owner s' := by
  obtain ⟨m, o, hp, hpub, rfl⟩ := h
  have hok := hp.wf.pages.slotOk hp.reserved.owns
  have happly : Page.OwnerChange.apply o .publish = .ok o.publish := if_pos hpub
  have hstep : SlotStep s o o.publish := by
    refine ⟨rfl, rfl, rfl, ⟨hok.incarnation, hok.root, fun _ => rfl, hok.tokens, hok.terms,
      hok.minBytes, hok.maxBytes, hok.dataHead, hok.inline,
      fun _ hnil => hok.payload (.inl hpub) hnil, fun h => nomatch h⟩,
      hp.wf.closed.payload owner o hp.reserved.owns⟩
  have hpost : ∀ s', OwnerSet strong m s s' owner o.publish →
      InsertPost strong V o.root d owner s' := by
    intro s' hset
    have hindex : Same PageKind.IsIndex s s' := hset.same.mono fun _ hk => isIndex_notOwner hk
    have hnotin := hp.reserved.not_live hp.dead hp.shows
    refine ⟨m, hset.wf (hset.direct hp.wf hp.reserved), ?_, fun r x => ?_, fun v hv x => ?_,
      fun r x hx hxs hl => ?_⟩
    · rw [View.add, List.map_append, List.pairwise_append]
      refine ⟨hp.shows.sorted, List.pairwise_singleton _ _, fun r hr r' hr' => ?_⟩
      rw [List.mem_singleton.1 hr']
      obtain ⟨v, hv, rfl⟩ := List.mem_map.1 hr
      have hlive := (hp.shows.live v.owner v.root).2 ⟨v.document, hv⟩
      obtain ⟨y, hy, -⟩ := Store.rootOf_eq_some hlive
      exact (hp.reserved.newest v.owner ⟨y, hy⟩).resolve_left (hnotin v hv)
    · by_cases hr : r = owner
      · subst hr
        have hroot : s'.rootOf r = some o.root := by
          rw [Store.rootOf_eq hset.owns_self]; rfl
        rw [hroot]
        constructor
        · rintro ⟨⟩
          exact ⟨d.document, List.mem_append_right _ (List.mem_singleton_self _)⟩
        · rintro ⟨y, hy⟩
          rcases List.mem_append.1 hy with hy | hy
          · exact absurd rfl (hnotin _ hy)
          · cases List.mem_singleton.1 hy; rfl
      · rw [hset.rootOf_ne hr, hp.shows.live r x]
        refine exists_congr fun y => ?_
        rw [View.add, List.mem_append, List.mem_singleton]
        refine ⟨.inl, fun hy => hy.resolve_right fun heq => hr ?_⟩
        cases heq; rfl
    · rw [posted_same hindex]
      rcases List.mem_append.1 hv with hv | hv
      · exact hp.shows.posted v hv x
      · rw [List.mem_singleton.1 hv, hp.reserved.posted, List.mem_reverse, mem_directory]
    · rcases (hset.owns r x).1 hx with ⟨-, rfl⟩ | ⟨-, hx⟩
      · cases hl
      · exact hp.shows.closed r x hx hxs hl
  have hns : ¬ o.Settled := by
    unfold OwnerSlot.Settled
    rw [hpub]
    decide
  exact (commitOwner_along hp.wf hp.reserved.owns happly hstep fun s' hset =>
    ⟨hset.grows hp.reserved.owns hns, hpost s' hset⟩).post fun _ s' => hpost s'

theorem insert_spec {root : RootTid} (d : PreparedDocument) (h : WF strong s m)
    (hv : Shows s V) (hroot : root.Valid s.layout) :
    SpecAlong Exhausted
      (fun s' => Good strong V s' ∨ ∃ owner, InsertPost strong V root d owner s') Grows s
      (insert root d) fun owner s' =>
        owner.incarnation = m.incarnation ∧ InsertPost strong V root d owner s' := by
  refine ((prepareInsert_spec d h hv hroot).mono (fun _ => .inl) fun _ _ => id).bind ?_
  rintro owner s₁ ⟨hinc, h₁⟩
  refine ((publish_spec h₁).mono (fun _ hs => .inr ⟨owner, hs⟩) fun _ _ => id).bind ?_
  exact fun _ s₂ h₂ => SpecAlong.pure ⟨hinc, h₂⟩

end

end PinCore
