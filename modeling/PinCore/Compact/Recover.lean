import PinCore.Compact.Journal

/-!
# Recovery

`recoverCompaction` frees the pages of the journal chain, at most two in a commit, and nothing
else.  Every state on the way is as good as the one before.
-/

namespace PinCore

open Prog

section

variable {E : Error → Prop} {strong : Prop} {s s' : Store} {m : MetaBody} {V : View} {t : TermRef}
  {e : Entry}
  {j : RewriteJournal} {bs cs fs rest : List ℕ} {b : ℕ}

/-! ### Free pages -/

/-- The image of a free page. -/
def freePage (b next : ℕ) : Page := ⟨b, next, .free, false⟩

theorem freePage_nextOk {next : ℕ} (h : next = noBlock ∨ (blockValid next ∧ next ≠ b)) :
    (freePage b next).NextOk :=
  h.imp_right fun h =>
    ⟨h.1, h.2, (fun hk => nomatch hk), fun hk => by rcases hk with hk | hk <;> cases hk⟩

theorem freePage_valid {l : HeapLayout} {next : ℕ} (hb : blockValid b)
    (h : next = noBlock ∨ (blockValid next ∧ next ≠ b)) : (freePage b next).Valid l where
  next _ := freePage_nextOk h
  block _ := ⟨fun h0 => absurd h0 hb.1, fun hk => nomatch hk⟩
  body := trivial
  len := by simp [Page.len, freePage, pageHeader, capacity]

theorem free_eq {next : ℕ} (hb : blockValid b)
    (h : next = noBlock ∨ (blockValid next ∧ next ≠ b)) :
    Page.free b next = .ok (freePage b next) := by
  have hnew : Page.new b .free = .ok ⟨b, noBlock, .free, false⟩ :=
    if_neg (not_or.2 ⟨hb.2, not_not.2 ⟨fun h0 => absurd h0 hb.1, fun hk => nomatch hk⟩⟩)
  rw [Page.free, hnew]
  exact if_pos (freePage_nextOk h)

/-- The free list with pages put in front of it. -/
theorem FreeOk.prepend {head head' : ℕ} (hf : FreeOk s head) (as : List ℕ)
    (hold : ∀ b ∈ as, (s.body b).kind ≠ .free) (hnew : ∀ b ∈ as, (s'.body b).kind = .free)
    (hother : ∀ c, c ∉ as → (s.body c).kind = .free ∨ (s'.body c).kind = .free →
      s'.page c = s.page c)
    (hl : ∀ gs, Linked s'.next noBlock head gs → Linked s'.next noBlock head' (as ++ gs)) :
    FreeOk s' head' := by
  obtain ⟨gs, hgs, hm⟩ := hf
  have hnot : ∀ b ∈ gs, b ∉ as := fun b hb ha => hold b ha ((hm b).1 hb)
  have hpage : ∀ b ∈ gs, s'.page b = s.page b := fun b hb =>
    hother b (hnot b hb) (.inl ((hm b).1 hb))
  refine ⟨as ++ gs, hl gs (hgs.congr fun b hb => by rw [Store.next, hpage b hb]; rfl), fun b => ?_⟩
  rw [List.mem_append]
  constructor
  · rintro (hb | hb)
    · exact hnew b hb
    · rw [Store.body, hpage b hb]; exact (hm b).1 hb
  · intro hk
    by_cases ha : b ∈ as
    · exact .inl ha
    · right
      rw [Store.body_eq_of_page (hother b ha (.inr hk))] at hk
      exact (hm b).2 hk

/-! ### Journal pages -/

theorem Chain.offChains (hc : Chain s t j.head j.tail bs) (he : s.entry t = some e)
    (ht : j.tail ≠ e.tail) (hb : b ∈ bs) : OffChains s b := by
  intro u f cs hf hch hm
  have htag := hc.tagged b hb
  rw [hch.tagged b hm] at htag
  cases htag
  rw [he] at hf
  cases hf
  exact EntryStep.journal_disjoint hch hc ht hb hm

/-- What recovery leaves: the pages `bs` are free, all others are untouched, and the journal is
empty. -/
structure Freed (strong : Prop) (s s' : Store) (m : MetaBody) (journal : Option RewriteJournal)
    (bs : List ℕ) : Prop where
  wf : ∃ free, WF strong s' (m.withJournal journal free)
  off : OffStep s s'
  blocks : s'.blocks = s.blocks
  freed : ∀ b ∈ bs, (s'.body b).kind = .free
  other : ∀ b, b ≠ 0 → b ∉ bs → s'.page b = s.page b

/-- The journal chain without its first pages. -/
def RewriteJournal.remaining (j : RewriteJournal) (rest : List ℕ) : Option RewriteJournal :=
  rest.head?.map fun head => { j with head }

theorem RewriteJournal.remaining_eq_some {x : RewriteJournal} (h : j.remaining rest = some x) :
    ∃ a cs, rest = a :: cs ∧ x = { j with head := a } := by
  cases rest with
  | nil => cases h
  | cons a cs => exact ⟨a, cs, rfl, (Option.some.inj h).symm⟩

/-- The images `ps` put the pages `fs` in front of the journal chain on the free list. -/
structure Freeing (strong : Prop) (s : Store) (m : MetaBody) (j : RewriteJournal) (t : TermRef)
    (e : Entry) (fs rest : List ℕ) (ps : List Page) : Prop where
  wf : WF strong s m
  entry : s.entry t = some e
  chain : Chain s t j.head j.tail (fs ++ rest)
  tail : j.tail ≠ e.tail
  sorted : (chainRefs s (fs ++ rest)).Pairwise OwnerRef.Before
  block : ∀ p ∈ ps, p.block ∈ fs
  body : ∀ p ∈ ps, p.body = .free
  valid : ∀ p ∈ ps, p.Valid s.layout
  next : ∀ p ∈ ps, p.next = m.freeHead ∨ p.next ∈ fs
  nodup : (ps.map (·.block)).Nodup
  length : ps.length ≤ 2
  cover : ∀ b ∈ fs, ∃ p ∈ ps, p.block = b

namespace Freeing

variable {ps : List Page} {p : Page} {head : ℕ}

theorem posting (h : Freeing strong s m j t e fs rest ps) (hb : b ∈ fs ++ rest) :
    (s.body b).kind.IsPosting :=
  isPosting_of_tag (h.chain.tagged b hb)

theorem posting_front (h : Freeing strong s m j t e fs rest ps) (hb : b ∈ fs) :
    (s.body b).kind.IsPosting :=
  h.posting (List.mem_append_left _ hb)

theorem posting_rest (h : Freeing strong s m j t e fs rest ps) (hb : b ∈ rest) :
    (s.body b).kind.IsPosting :=
  h.posting (List.mem_append_right _ hb)

theorem kind (h : Freeing strong s m j t e fs rest ps) (hp : p ∈ ps) : p.kind = .free := by
  rw [Page.kind, h.body p hp]
  rfl

theorem kind_ne_zero (h : Freeing strong s m j t e fs rest ps) :
    ∀ p ∈ metaPage (m.withJournal (j.remaining rest) head) :: ps, p.kind ≠ .zero := by
  rw [List.forall_mem_cons]
  exact ⟨by simp, fun p hp => (h.kind hp).trans_ne (by decide)⟩

theorem journal_ok (h : Freeing strong s m j t e fs rest ps) (hj : rest ≠ [] → j.Ok) :
    ∀ x ∈ j.remaining rest, x.Ok := by
  intro x hx
  obtain ⟨a, cs, rfl, rfl⟩ := RewriteJournal.remaining_eq_some hx
  refine ⟨h.wf.pages.posting_valid (h.posting_rest List.mem_cons_self), ?_⟩
  exact (hj (List.cons_ne_nil a cs)).2

theorem commitOk (h : Freeing strong s m j t e fs rest ps) (hj : rest ≠ [] → j.Ok)
    (hhead : head ≠ 0) : CommitOk s (metaPage (m.withJournal (j.remaining rest) head) :: ps) := by
  have hlen := h.length
  refine ⟨List.cons_ne_nil _ _, by simp [maxWalPages]; omega, ?_, ?_⟩
  · rw [List.forall_mem_cons]
    refine ⟨⟨metaPage_valid (h.wf.metaOk.withJournal (h.journal_ok hj) hhead), by simp,
      h.wf.pages.pos⟩, fun p hp => ?_⟩
    refine ⟨h.valid p hp, (h.kind hp).trans_ne (by decide), ?_⟩
    exact h.wf.pages.lt_blocks ((h.posting_front (h.block p hp)).ne (by decide))
  · rw [List.map_cons, List.nodup_cons]
    refine ⟨fun hm => ?_, h.nodup⟩
    obtain ⟨p, hp, heq⟩ := List.mem_map.1 hm
    exact (h.wf.pages.posting_valid (h.posting_front (h.block p hp))).1 heq

theorem off (h : Freeing strong s m j t e fs rest ps) (hp : p ∈ ps) : OffPage strong s p := by
  have hb := h.block p hp
  refine ⟨.inr (.inr (h.posting_front hb)), h.chain.offChains h.entry h.tail
    (List.mem_append_left _ hb), .inl (h.kind hp), ?_, ?_⟩
  · rw [h.body p hp]; exact fun _ hr => absurd hr List.not_mem_nil
  · rw [h.body p hp]; exact fun _ hr => absurd hr List.not_mem_nil

/-! #### After the commit -/

theorem freed (h : Freeing strong s m j t e fs rest ps)
    (hcm : Committed s s' (metaPage (m.withJournal (j.remaining rest) head) :: ps)) (hb : b ∈ fs) :
    (s'.body b).kind = .free := by
  obtain ⟨p, hp, rfl⟩ := h.cover b hb
  rw [hcm.body_mem (List.mem_cons_of_mem _ hp)]
  exact h.kind hp

theorem other (h : Freeing strong s m j t e fs rest ps)
    (hcm : Committed s s' (metaPage (m.withJournal (j.remaining rest) head) :: ps)) (hb : b ≠ 0)
    (hbf : b ∉ fs) : s'.page b = s.page b := by
  refine hcm.other b ?_
  rw [List.forall_mem_cons]
  exact ⟨hb.symm, fun p hp hpb => hbf (hpb ▸ h.block p hp)⟩

theorem other_rest (h : Freeing strong s m j t e fs rest ps)
    (hcm : Committed s s' (metaPage (m.withJournal (j.remaining rest) head) :: ps))
    (hb : b ∈ rest) : s'.page b = s.page b := by
  refine h.other hcm (h.wf.pages.posting_valid (h.posting_rest hb)).1 fun hbf => ?_
  exact (List.nodup_append.1 h.chain.linked.nodup).2.2 b hbf b hb rfl

/-- The entry of the journal chain is no page of it. -/
theorem entry_after (h : Freeing strong s m j t e fs rest ps)
    (hcm : Committed s s' (metaPage (m.withJournal (j.remaining rest) head) :: ps)) :
    s'.entry t = some e := by
  have hk := Store.entry_kind h.entry
  have hpage := h.other hcm (h.wf.ne_zero (hk.trans_ne (by decide))) fun htf =>
    (h.posting_front htf).ne (by decide) hk
  have hentry := h.entry
  rwa [Store.entry, ← Store.body_eq_of_page hpage] at hentry

/-- The rest of the chain is a journal chain. -/
theorem journal (h : Freeing strong s m j t e fs rest ps)
    (hcm : Committed s s' (metaPage (m.withJournal (j.remaining rest) head) :: ps)) :
    JournalOk s' (j.remaining rest) := by
  intro x hx
  obtain ⟨a, cs, rfl, rfl⟩ := RewriteJournal.remaining_eq_some hx
  have hpages : ∀ b ∈ a :: cs, s'.page b = s.page b := fun b hb => h.other_rest hcm hb
  have hchain : Chain s t a j.tail (a :: cs) := by
    refine ⟨h.chain.linked.suffix, ?_, fun b hb =>
      h.chain.tagged b (List.mem_append_right _ hb)⟩
    rw [h.chain.tail_eq, lastD_append_cons]
  refine ⟨t, e, a :: cs, h.entry_after hcm, hchain.congr hpages, List.cons_ne_nil _ _, ?_, h.tail⟩
  have hsorted := h.sorted
  rw [chainRefs_append] at hsorted
  rw [chainRefs_congr hpages]
  exact (List.pairwise_append.1 hsorted).2.1

/-- The free list with the pages `as` in front. -/
theorem free (h : Freeing strong s m j t e fs rest ps)
    (hcm : Committed s s' (metaPage (m.withJournal (j.remaining rest) head) :: ps)) (as : List ℕ)
    (has : ∀ b, b ∈ as ↔ b ∈ fs)
    (hl : ∀ gs, Linked s'.next noBlock m.freeHead gs → Linked s'.next noBlock head (as ++ gs)) :
    FreeOk s' head := by
  refine h.wf.free.prepend as
    (fun b hb => (h.posting_front ((has b).1 hb)).ne (by decide))
    (fun b hb => h.freed hcm ((has b).1 hb)) (fun c hca hk => ?_) hl
  refine h.other hcm ?_ fun hcf => hca ((has c).2 hcf)
  rintro rfl
  have hinfo : s'.page 0 = metaPage (m.withJournal (j.remaining rest) head) :=
    hcm.mem _ List.mem_cons_self
  rw [h.wf.kind_zero, Store.body, hinfo] at hk
  rcases hk with hk | hk <;> cases hk

theorem links (h : Freeing strong s m j t e fs rest ps)
    (hcm : Committed s s' (metaPage (m.withJournal (j.remaining rest) head) :: ps)) (hp : p ∈ ps) :
    Links s' p := by
  refine ⟨?_, fun o ho => ?_⟩
  · rcases h.next p hp with hn | hn
    · by_cases hfn : m.freeHead = noBlock
      · exact .inl (hn.trans hfn)
      · refine .inr (hcm.keepsWritten h.kind_ne_zero _ ?_)
        rw [hn, h.wf.free.head hfn]
        rintro ⟨⟩
    · exact .inr ((h.freed hcm hn).trans_ne (by decide))
  · rw [h.body p hp] at ho
    exact absurd ho List.not_mem_nil

theorem closed (h : Freeing strong s m j t e fs rest ps)
    (hcm : Committed s s' (metaPage (m.withJournal (j.remaining rest) head) :: ps)) :
    ClosedOk s' := by
  refine hcm.closed h.wf.closed h.kind_ne_zero ?_
  rw [List.forall_mem_cons]
  exact ⟨metaPage_links _, fun p hp => h.links hcm hp⟩

/-- The pages `fs` at the front of the journal chain become free. -/
theorem step (h : Freeing strong s m j t e fs rest ps)
    (hc : CommitOk s (metaPage (m.withJournal (j.remaining rest) head) :: ps))
    (hcm : Committed s s' (metaPage (m.withJournal (j.remaining rest) head) :: ps)) (as : List ℕ)
    (has : ∀ b, b ∈ as ↔ b ∈ fs)
    (hl : ∀ gs, Linked s'.next noBlock m.freeHead gs → Linked s'.next noBlock head (as ++ gs)) :
    Freed strong s s' m (j.remaining rest) fs := by
  obtain ⟨hw, hstep⟩ := h.wf.off_step hc hcm (fun p hp => h.off hp) (h.journal hcm)
    (h.free hcm as has hl) (h.closed hcm)
  exact ⟨⟨head, hw⟩, hstep, hcm.blocks, fun b hb => h.freed hcm hb,
    fun b hb hbf => h.other hcm hb hbf⟩

end Freeing

/-! ### The loop -/

/-- A free page in front of the old free list, or a page already put there. -/
theorem WF.freeHead_next (h : WF strong s m) (hb : (s.body b).kind ≠ .free) :
    m.freeHead = noBlock ∨ (blockValid m.freeHead ∧ m.freeHead ≠ b) := by
  by_cases hf : m.freeHead = noBlock
  · exact .inl hf
  · have hk := h.free.head hf
    refine .inr ⟨h.pages.blockValid (hk.trans_ne (by decide)) (hk.trans_ne (by decide)), ?_⟩
    rintro rfl
    exact hb hk

/-- The last page of the journal chain becomes free and the journal empty. -/
theorem free_last (h : WF strong s m) (he : s.entry t = some e) (hc : Chain s t j.head j.tail [b])
    (ht : j.tail ≠ e.tail) (hsorted : (chainRefs s [b]).Pairwise OwnerRef.Before) :
    Page.free b m.freeHead = .ok (freePage b m.freeHead) ∧ b ≠ 0 ∧
      CommitOk s [metaPage (m.withJournal none b), freePage b m.freeHead] ∧
      ∀ s', Committed s s' [metaPage (m.withJournal none b), freePage b m.freeHead] →
        Freed strong s s' m none [b] := by
  have hk := isPosting_of_tag (hc.tagged b (List.mem_singleton_self _))
  have hbv := h.pages.posting_valid hk
  have hnext := h.freeHead_next (hk.ne (by decide))
  have hf : Freeing strong s m j t e [b] [] [freePage b m.freeHead] :=
    ⟨h, he, hc, ht, hsorted, by simp [freePage], by simp [freePage],
      by simpa using freePage_valid hbv hnext, by simp [freePage], by simp, by simp,
      by simp [freePage]⟩
  have hco := hf.commitOk (fun hne => absurd rfl hne) hbv.1
  refine ⟨free_eq hbv hnext, hbv.1, hco, fun s' hcm => ?_⟩
  refine hf.step hco hcm [b] (fun _ => Iff.rfl) fun gs hgs => ?_
  have hb' : s'.next b = m.freeHead := hcm.next_mem (p := freePage b m.freeHead) (by simp)
  refine ⟨rfl, hbv.2, ?_⟩
  rw [hb']
  exact hgs

/-- The first two pages of the journal chain become free. -/
theorem free_two {c : ℕ} (h : WF strong s m) (he : s.entry t = some e)
    (hc : Chain s t j.head j.tail (b :: c :: rest)) (ht : j.tail ≠ e.tail)
    (hsorted : (chainRefs s (b :: c :: rest)).Pairwise OwnerRef.Before) (hj : j.Ok) :
    Page.free b m.freeHead = .ok (freePage b m.freeHead) ∧ Page.free c b = .ok (freePage c b) ∧
      c ≠ 0 ∧ (∀ x ∈ j.remaining rest, x.Ok) ∧
      CommitOk s [metaPage (m.withJournal (j.remaining rest) c),
        freePage b m.freeHead, freePage c b] ∧
      ∀ s', Committed s s' [metaPage (m.withJournal (j.remaining rest) c),
        freePage b m.freeHead, freePage c b] →
        Freed strong s s' m (j.remaining rest) [b, c] := by
  have hkind : ∀ d ∈ b :: c :: rest, (s.body d).kind.IsPosting := fun d hd =>
    isPosting_of_tag (hc.tagged d hd)
  have hbk := hkind b (by simp)
  have hbv := h.pages.posting_valid hbk
  have hcv := h.pages.posting_valid (hkind c (by simp))
  have hbc : b ≠ c := by
    have := hc.linked.nodup
    simp only [List.nodup_cons, List.mem_cons, not_or] at this
    exact this.1.1
  have hnext := h.freeHead_next (hbk.ne (by decide))
  have hnext' : b = noBlock ∨ (blockValid b ∧ b ≠ c) := .inr ⟨hbv, hbc⟩
  have hf : Freeing strong s m j t e [b, c] rest [freePage b m.freeHead, freePage c b] := by
    refine ⟨h, he, hc, ht, hsorted, by simp [freePage], by simp [freePage], ?_, by simp [freePage],
      by simpa [freePage] using hbc, by simp, by simp [freePage]⟩
    rw [List.forall_mem_cons, List.forall_mem_singleton]
    exact ⟨freePage_valid hbv hnext, freePage_valid hcv hnext'⟩
  have hco := hf.commitOk (fun _ => hj) hcv.1
  refine ⟨free_eq hbv hnext, free_eq hcv hnext', hcv.1, hf.journal_ok fun _ => hj, hco,
    fun s' hcm => ?_⟩
  refine hf.step hco hcm [c, b] (fun d => by simp [or_comm]) fun gs hgs => ?_
  have hb' : s'.next b = m.freeHead := hcm.next_mem (p := freePage b m.freeHead) (by simp)
  have hcb : s'.next c = b := hcm.next_mem (p := freePage c b) (by simp)
  refine ⟨rfl, hcv.2, hcb, hbv.2, ?_⟩
  rw [hb']
  exact hgs

theorem Freed.trans {s'' : Store} {m' : MetaBody} {k k' : Option RewriteJournal} {free : ℕ}
    (h : Freed strong s s' m k bs) (h' : Freed strong s' s'' m' k' cs)
    (hm : m' = m.withJournal k free) : Freed strong s s'' m k' (bs ++ cs) := by
  subst hm
  obtain ⟨hw, ho, hb, hf, hot⟩ := h'
  refine ⟨hw, h.off.trans ho, hb.trans h.blocks, fun b hm => ?_, fun b h0 hm => ?_⟩
  · by_cases hbc : b ∈ cs
    · exact hf b hbc
    · rcases List.mem_append.1 hm with hm | hm
      · have h0 : b ≠ 0 := by
          rintro rfl
          obtain ⟨free', hw'⟩ := h.wf
          have := h.freed 0 hm
          rw [hw'.kind_zero] at this
          cases this
        rw [Store.body, hot b h0 hbc]; exact h.freed b hm
      · exact absurd hm hbc
  · rw [List.mem_append, not_or] at hm
    rw [hot b h0 hm.2, h.other b h0 hm.1]

theorem reclaimFrom_spec {fuel remaining n : ℕ} (h : WF strong s m) (hv : Shows s V)
    (he : s.entry t = some e) (hj : m.journal = some { j with head := b })
    (hc : Chain s t b j.tail (b :: cs)) (ht : j.tail ≠ e.tail)
    (hsorted : (chainRefs s (b :: cs)).Pairwise OwnerRef.Before) (hrem : cs.length < remaining)
    (hfuel : cs.length < fuel) :
    Spec E (Good strong V) s (reclaimFrom t j fuel remaining b (metaPage m) n) fun k s' =>
      k = n + (b :: cs).length ∧ Freed strong s s' m none (b :: cs) := by
  induction fuel generalizing s m b cs remaining n with
  | zero => exact absurd hfuel (Nat.not_lt_zero _)
  | succ fuel ih =>
    have hjok : ({ j with head := b } : RewriteJournal).Ok := h.metaOk.journal _ hj
    have hgood : ∀ {s' journal bs}, Freed strong s s' m journal bs → Good strong V s' :=
      fun hf => let ⟨free, hw⟩ := hf.wf; ⟨_, hw, hv.of_step hf.off⟩
    refine Spec.reading_bind (loadPosting_returns h.pages (hc.tagged b List.mem_cons_self)) ?_
    rintro _ rfl
    refine Spec.ofExcept_bind (postingNext_eq hc.linked hc.tail_eq (h.pages.block b) hrem) ?_
    refine Spec.ofExcept_bind (metaPage_freeHead h.metaOk) ?_
    cases cs with
    | nil =>
      obtain ⟨hfree, hb0, hco, hpost⟩ := free_last (j := { j with head := b }) h he hc ht hsorted
      refine Spec.ofExcept_bind hfree ?_
      refine Spec.ofExcept_bind (metaPage_setRewriteJournal (fun _ hx => nomatch hx)) ?_
      refine Spec.ofExcept_bind (metaPage_setFreeHead hb0) ?_
      refine (commit_spec hco fun s' hcm => hgood (hpost s' hcm)).bind fun _ s' hcm => ?_
      exact Spec.pure ⟨rfl, hpost s' hcm⟩
    | cons c rest =>
      have hjok' : ({ j with head := b } : RewriteJournal).Ok := hjok
      obtain ⟨hfree, hfree', hc0, hrok, hco, hpost⟩ :=
        free_two (j := { j with head := b }) h he hc ht hsorted hjok'
      have hcl : Linked s.next noBlock c (c :: rest) := hc.linked.tail
      refine Spec.ofExcept_bind hfree ?_
      refine Spec.reading_bind (loadPosting_returns h.pages (hc.tagged c (by simp))) ?_
      rintro _ rfl
      refine Spec.ofExcept_bind (postingNext_eq hcl ?_ (h.pages.block c) ?_) ?_
      · rw [hc.tail_eq, lastD_cons_cons]
      · simp only [List.length_cons] at hrem; omega
      refine Spec.ofExcept_bind hfree' ?_
      refine Spec.ofExcept_bind (metaPage_setRewriteJournal hrok) ?_
      refine Spec.ofExcept_bind (metaPage_setFreeHead hc0) ?_
      refine (commit_spec hco fun s' hcm => hgood (hpost s' hcm)).bind fun _ s' hcm => ?_
      have hfreed := hpost s' hcm
      cases rest with
      | nil => exact Spec.pure ⟨rfl, hfreed⟩
      | cons d rest =>
        have hw' : WF strong s' (m.withJournal (some { j with head := d }) c) := by
          have hinfo : s'.page 0 = metaPage (m.withJournal (some { j with head := d }) c) :=
            hcm.mem _ List.mem_cons_self
          obtain ⟨free, hw⟩ := hfreed.wf
          have := hw.info
          rw [hinfo] at this
          have hm : m.withJournal (some { j with head := d }) c =
              m.withJournal (some { j with head := d }) free := by
            injection this with _ _ hbody _
            injection hbody
          rw [hm]; exact hw
        have hnd := hc.linked.nodup
        have hpages : ∀ x ∈ d :: rest, s'.page x = s.page x := by
          intro x hx
          refine hfreed.other x ?_ ?_
          · have hk := isPosting_of_tag (hc.tagged x (by simp at hx ⊢; tauto))
            exact h.ne_zero (hk.ne (by decide))
          · intro hbc
            simp only [List.nodup_cons, List.mem_cons, not_or] at hnd
            simp only [List.mem_cons, List.not_mem_nil, or_false] at hbc hx
            rcases hbc with rfl | rfl <;> rcases hx with rfl | hx <;> tauto
        have hchain : Chain s' t d j.tail (d :: rest) := by
          refine Chain.congr ⟨hc.linked.tail.tail, ?_, fun x hx => ?_⟩ hpages
          · rw [hc.tail_eq, lastD_cons_cons, lastD_cons_cons]
          · exact hc.tagged x (by simp at hx ⊢; tauto)
        have hsorted' : (chainRefs s' (d :: rest)).Pairwise OwnerRef.Before := by
          rw [chainRefs_congr hpages]
          have hsplit : chainRefs s ([b, c] ++ d :: rest) =
              chainRefs s [b, c] ++ chainRefs s (d :: rest) := chainRefs_append
          rw [show b :: c :: d :: rest = [b, c] ++ d :: rest from rfl, hsplit] at hsorted
          exact (List.pairwise_append.1 hsorted).2.1
        refine (ih hw' (hv.of_step hfreed.off) ((hfreed.off.entry t).trans he) rfl hchain hsorted'
          ?_ ?_).post ?_
        · simp only [List.length_cons] at hrem; omega
        · simp only [List.length_cons] at hfuel; omega
        · rintro k s'' ⟨rfl, hf⟩
          refine ⟨by simp only [List.length_cons]; omega, ?_⟩
          exact hfreed.trans hf rfl

/-- The pages of the journal chain. -/
def JournalPages (s : Store) (m : MetaBody) (bs : List ℕ) : Prop :=
  match m.journal with
  | none => bs = []
  | some j => Linked s.next noBlock j.head bs

theorem withJournal_self {journal : Option RewriteJournal} (h : m.journal = journal) :
    m.withJournal journal m.freeHead = m := by
  subst h; rfl

theorem Freed.refl (h : WF strong s m) (hj : m.journal = none) : Freed strong s s m none [] where
  wf := ⟨m.freeHead, by rw [withJournal_self hj]; exact h⟩
  off := ⟨rfl, Same.refl s, Same.refl s, fun _ _ _ _ => rfl, fun _ _ => Iff.rfl⟩
  blocks := rfl
  freed _ hb := absurd hb List.not_mem_nil
  other _ _ _ := rfl

/-- Recovery frees exactly the journal chain. -/
theorem recoverCompaction_spec (h : WF strong s m) (hv : Shows s V) :
    Spec E (Good strong V) s recoverCompaction fun n s' =>
      ∃ bs, JournalPages s m bs ∧ n = bs.length ∧ Freed strong s s' m none bs ∧
        (m.journal = none → s' = s) := by
  refine Spec.reading_bind h.loadInfo ?_
  rintro _ rfl
  refine Spec.ofExcept_bind (metaPage_rewriteJournal h.metaOk) ?_
  cases hj : m.journal with
  | none =>
    exact Spec.pure ⟨[], by rw [JournalPages, hj], rfl, Freed.refl h hj, fun _ => rfl⟩
  | some j =>
    obtain ⟨t, e, bs, he, hc, hne, hsorted, ht⟩ := h.journal j hj
    refine Spec.ofExcept_bind (metaPage_groupedState h.metaOk) ?_
    rw [h.grouped.state]
    refine Spec.ensure_bind (fun x hx => absurd hx (Option.not_mem_none x)) ?_
    cases bs with
    | nil => exact absurd rfl hne
    | cons b cs =>
      have hb : j.head = b := hc.linked.1
      have htag := hc.tagged b List.mem_cons_self
      have hk := isPosting_of_tag htag
      have hlt : b < s.blocks := h.pages.lt_blocks (hk.ne (by decide))
      rw [hb]
      refine Spec.reading_bind (loadAny_returns h.pages hlt) ?_
      rintro _ rfl
      have hterm : (s.page b).postingTerm = .ok t := by
        rw [Page.postingTerm, show (s.page b).body.postingTag = some t from htag]
      refine Spec.ofExcept_bind hterm ?_
      refine Spec.reading_bind (load_returns h.pages (Store.entry_kind he) (by simp)) ?_
      rintro _ rfl
      refine Spec.ofExcept_bind (term_eq h.pages he) ?_
      rw [hb] at hc
      refine Spec.reading_bind (inspect_returns h.pages h.refs hc (by simpa using hsorted)) ?_
      intro _ _
      -- the entry's own chain, or its inline second posting
      obtain ⟨ds, hch, hds⟩ := h.chains.chain t e he
      have hactive : Obs.Returns s (inspect t e.head e.tail
          (some e.first) false) fun _ => True := by
        obtain ⟨p, es, hbody, hok⟩ := entry_body h.pages he
        by_cases hi : e.inline = 1
        · cases hin : (e.toTerm t).inlineSecond with
          | none => exact absurd hi (inlineSecond_eq_none hok hin)
          | some second =>
            obtain ⟨-, -, hs, -, -⟩ := inlineSecond_eq_some hok hin
            refine inspect_inline h.pages h.refs he hok hin ?_
            refine (List.pairwise_cons.1 hds).1 second (List.mem_append_left _ ?_)
            rw [Entry.inlineRefs, if_pos hi, hs]; simp
        · refine (inspect_returns h.pages h.refs ((entryChain_of_ne hi).1 hch) ?_).mono
            fun _ _ => trivial
          rw [entryRefs, Entry.inlineRefs, if_neg hi] at hds
          exact hds
      refine Spec.reading_bind hactive ?_
      intro _ _
      refine Spec.ensure_bind (Ne.symm ht) ?_
      refine Spec.reading_bind blocks_returns ?_
      rintro _ rfl
      have hjb : m.journal = some { j with head := b } := by rw [hj, ← hb]
      have hlen : (b :: cs).length ≤ s.blocks := hc.length_le h.pages
      refine (reclaimFrom_spec h hv he hjb hc ht hsorted hlen hlen).post ?_
      rintro n s' ⟨rfl, hf⟩
      refine ⟨b :: cs, ?_, Nat.zero_add _, hf, fun hn => absurd hn.symm
        (Option.some_ne_none _).symm⟩
      have hl : Linked s.next noBlock j.head (b :: cs) := by rw [hb]; exact hc.linked
      rw [JournalPages, hj]
      exact hl

end

end PinCore
