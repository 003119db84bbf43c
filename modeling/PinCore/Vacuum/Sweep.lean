import PinCore.Vacuum.Owners

/-!
# Reclaiming pages

The second pass of vacuum: copied coordinates of dead owners are cleared and the fragments of
dead owners are put onto the free list.  Each step touches one block besides the metapage, and
none of them touches owners, dictionary or the references of a posting page.
-/

namespace PinCore

open Prog

section

variable {E : Error → Prop} {strong strong' : Prop} {removable : RootTid → Bool} {s s' s'' : Store}
  {m m' m'' : MetaBody}
  {V V₀ : View} {b c : ℕ} {bs cs : List ℕ}

/-! ### One block onto the free list -/

theorem freeFromZero_eq {next : ℕ} (hb : blockValid b)
    (h : next = noBlock ∨ (blockValid next ∧ next ≠ b)) :
    Page.freeFromZero b next = .ok { freePage b next with initializes := true } := by
  rw [Page.freeFromZero, free_eq hb h]; rfl

/-- What reclaiming the block `b` leaves. -/
structure Reclaimed (strong : Prop) (s s' : Store) (m : MetaBody) (b : ℕ) : Prop where
  wf : WF strong s' { m with freeHead := b }
  blocks : s'.blocks = s.blocks
  same : Same PageKind.NotFree s s'
  free : (s'.body b).kind = .free
  other : ∀ c, c ≠ 0 → c ≠ b → s'.page c = s.page c

/-- A fragment or an unwritten block can be put in front of the free list. -/
theorem reclaim_step (init : Bool) (h : WF strong s m)
    (hk : (s.body b).kind = .fragment ∨ (s.body b).kind = .zero) (hb : blockValid b)
    (hlt : b < s.blocks) :
    CommitOk s [metaPage { m with freeHead := b },
      { freePage b m.freeHead with initializes := init }] ∧
    ∀ s', Committed s s' [metaPage { m with freeHead := b },
      { freePage b m.freeHead with initializes := init }] → Reclaimed strong s s' m b := by
  have hnf : (s.body b).kind ≠ .free := by
    rcases hk with hk | hk <;> rw [hk] <;> decide
  have hnext := h.freeHead_next hnf
  have hv : ({ freePage b m.freeHead with initializes := init } : Page).Valid s.layout :=
    let hv := freePage_valid (l := s.layout) hb hnext
    ⟨hv.next, hv.block, hv.body, hv.len⟩
  have hc : CommitOk s [metaPage { m with freeHead := b },
      { freePage b m.freeHead with initializes := init }] :=
    commitOk_two ⟨metaPage_valid (h.metaOk.withFree hb.1), by simp, h.pages.pos⟩
      ⟨hv, (fun hz => nomatch hz), hlt⟩ hb.1.symm
  refine ⟨hc, fun s' hcm => ?_⟩
  obtain ⟨h0, hb', hother⟩ := hcm.two
  change s'.page 0 = _ at h0
  change ∀ c, c ≠ 0 → c ≠ b → _ at hother
  have hbody : s'.body b = .free := by
    rw [Store.body, show s'.page b = _ from hb']; rfl
  have hsame : Same PageKind.NotFree s s' := by
    refine hcm.same fun p hp => ?_
    simp only [List.mem_cons, List.not_mem_nil, or_false] at hp
    rcases hp with rfl | rfl
    · refine ⟨?_, fun hk => hk.2.2.2 rfl⟩
      change ¬ PageKind.NotFree (s.body 0).kind
      rw [h.kind_zero]; decide
    · refine ⟨?_, fun hk => hk.1 rfl⟩
      change ¬ PageKind.NotFree (s.body b).kind
      rcases hk with hk | hk <;> rw [hk] <;> decide
  have hkeep := hcm.keepsWritten fun p hp => (hc.2.2.1 p hp).2.1
  have hfree : FreeOk s' b := by
    refine h.free.push hb.2 hnf (by rw [hbody]; rfl) ?_ fun c hcb hck => ?_
    · rw [Store.next, show s'.page b = _ from hb']; rfl
    · refine hother c ?_ hcb
      rintro rfl
      rw [h.kind_zero, Store.body, show s'.page 0 = _ from h0] at hck
      rcases hck with hck | hck <;> cases hck
  have hclosed : ClosedOk s' := by
    refine hcm.closed h.closed (fun p hp => (hc.2.2.1 p hp).2.1) ?_
    rw [List.forall_mem_cons, List.forall_mem_singleton]
    refine ⟨metaPage_links _, ⟨?_, fun o ho => absurd ho List.not_mem_nil⟩⟩
    by_cases hf : m.freeHead = noBlock
    · exact .inl hf
    · refine .inr (hkeep _ ?_)
      change (s.body m.freeHead).kind ≠ _
      rw [h.free.head hf]; decide
  have hfrag : ∀ c r offset payload, s'.body c = .fragment r offset payload → s.Known r := by
    intro c r offset payload hcf
    have hcb : c ≠ b := by rintro rfl; rw [hbody] at hcf; cases hcf
    have hc0 : c ≠ 0 := by
      rintro rfl
      rw [Store.body, show s'.page 0 = _ from h0] at hcf; cases hcf
    rw [Store.body_eq_of_page (hother c hc0 hcb)] at hcf
    exact h.refs.fragment c r offset payload hcf
  exact ⟨h.of_free (hcm.pages h.pages hc) h0 hsame hfree hfrag hclosed, hcm.blocks, hsame,
    by rw [hbody]; rfl, hother⟩

theorem reclaim_spec {E : Error → Prop} {C : Store → Prop} (zero : Bool) (h : WF strong s m)
    (hk : (s.body b).kind = .fragment ∨ (s.body b).kind = .zero) (hb : blockValid b)
    (hlt : b < s.blocks) (hC : ∀ s', Reclaimed strong s s' m b → C s') :
    Spec E C s (reclaim (metaPage m) b zero) fun p s' =>
      p = metaPage { m with freeHead := b } ∧ Reclaimed strong s s' m b := by
  have hnf : (s.body b).kind ≠ .free := by
    rcases hk with hk | hk <;> rw [hk] <;> decide
  have hnext := h.freeHead_next hnf
  refine Spec.ofExcept_bind (metaPage_freeHead h.metaOk) ?_
  have hpage : (if zero then Page.freeFromZero b m.freeHead else Page.free b m.freeHead) =
      .ok { freePage b m.freeHead with initializes := zero } := by
    cases zero
    · exact free_eq hb hnext
    · exact freeFromZero_eq hb hnext
  refine Spec.ofExcept_bind hpage ?_
  refine Spec.ofExcept_bind (metaPage_setFreeHead hb.1) ?_
  obtain ⟨hc, hpost⟩ := reclaim_step zero h hk hb hlt
  refine (commit_spec hc fun s' hcm => hC s' (hpost s' hcm)).bind fun _ s' hcm => ?_
  exact Spec.pure ⟨rfl, hpost s' hcm⟩

/-! ### Copied coordinates -/

/-- A coordinate after vacuum passed it: that of a dead owner is cleared. -/
def DirectRecord.cleared (s : Store) (x : DirectRecord) : DirectRecord :=
  if x.live = true ∧ s.rootOf x.owner = none then { x with live := false } else x

theorem cleared_owner (x : DirectRecord) : (x.cleared s).owner = x.owner := by
  unfold DirectRecord.cleared; split_ifs <;> rfl

theorem cleared_root (x : DirectRecord) : (x.cleared s).root = x.root := by
  unfold DirectRecord.cleared; split_ifs <;> rfl

theorem cleared_map (records : List DirectRecord) :
    (records.map (DirectRecord.cleared s)).map (·.owner) = records.map (·.owner) := by
  rw [List.map_map]
  exact List.map_congr_left fun x _ => cleared_owner x

/-- The image of a direct page with other coordinates. -/
def Page.withRecords (p : Page) (t : TermRef) (first last : OwnerRef)
    (records : List DirectRecord) : Page := { p with body := .direct t first last records }

variable {t : TermRef} {first last : OwnerRef} {records : List DirectRecord} {p : Page}
  {l : HeapLayout} {x : DirectRecord}

theorem removeDirectRoot_eq {i : ℕ} (hb : p.body = .direct t first last records)
    (hi : records[i]? = some x) (hx : x.root.Valid l) :
    p.removeDirectRoot i l =
      .ok (p.withRecords t first last (records.modify i fun r => { r with live := false })) := by
  rw [Page.removeDirectRoot, directRoot_eq hb hi hx, ok_bind]
  simp only [hb]
  rfl

theorem modify_append (pre post : List DirectRecord) (x : DirectRecord)
    (f : DirectRecord → DirectRecord) :
    (pre ++ x :: post).modify pre.length f = (pre ++ [f x]) ++ post := by
  induction pre with
  | nil => rfl
  | cons a pre ih =>
    rw [List.cons_append, List.length_cons, List.modify_succ_cons, ih]; rfl

/-- The coordinates of a direct page are passed in order. -/
theorem clearDirect_returns {source updated : Page} {pre pre' post : List DirectRecord}
    {cache : Option Page} (changed : Bool) (hp : PagesOk s) (hc : CacheOk s cache)
    (hsource : source.body = .direct t first last (pre ++ post))
    (hupdated : updated.body = .direct t first last (pre' ++ post))
    (hlen : pre'.length = pre.length)
    (hroot : ∀ x ∈ post, x.root.Valid s.layout) (hknown : ∀ x ∈ post, s.Known x.owner) :
    Obs.Returns s (clearDirect source pre.length (post.map (·.owner)) cache updated changed)
      fun y => y.1 = updated.withRecords t first last (pre' ++ post.map (DirectRecord.cleared s)) ∧
        (y.2 = false → changed = false ∧ ∀ x ∈ post, x.cleared s = x) := by
  induction post generalizing pre pre' cache updated changed with
  | nil =>
    refine Obs.Returns.pure ⟨?_, fun hc => ⟨hc, fun _ hx => absurd hx List.not_mem_nil⟩⟩
    rw [List.map_nil, Page.withRecords, ← hupdated]
  | cons x post ih =>
    have hx := hroot x List.mem_cons_self
    have hroot' : ∀ y ∈ post, y.root.Valid s.layout := fun y hy =>
      hroot y (List.mem_cons_of_mem _ hy)
    have hknown' : ∀ y ∈ post, s.Known y.owner := fun y hy => hknown y (List.mem_cons_of_mem _ hy)
    have hi : (pre ++ x :: post)[pre.length]? = some x := by simp
    have hi' : (pre' ++ x :: post)[pre.length]? = some x := by rw [← hlen]; simp
    have hsource' : source.body = .direct t first last ((pre ++ [x]) ++ post) := by
      rw [hsource, List.append_assoc]; rfl
    have hl₁ : (pre ++ [x]).length = pre.length + 1 := by simp
    -- the coordinate stays
    have hsame : ∀ cache', CacheOk s cache' → x.cleared s = x →
        Obs.Returns s (clearDirect source (pre.length + 1)
          (post.map (·.owner)) cache' updated changed)
          fun y => y.1 = updated.withRecords t first last
              (pre' ++ (x :: post).map (DirectRecord.cleared s)) ∧
            (y.2 = false → changed = false ∧ ∀ z ∈ x :: post, z.cleared s = z) := by
      intro cache' hc' hcx
      have hupdated' : updated.body = .direct t first last ((pre' ++ [x]) ++ post) := by
        rw [hupdated, List.append_assoc]; rfl
      have := @ih updated (pre ++ [x]) (pre' ++ [x]) cache' changed hc' hsource' hupdated'
        (by simp [hlen]) hroot' hknown'
      rw [hl₁] at this
      refine this.mono fun y hy => ⟨?_, fun hf => ?_⟩
      · rw [hy.1, List.map_cons, hcx, List.append_assoc]; rfl
      · exact ⟨(hy.2 hf).1, List.forall_mem_cons.2 ⟨hcx, (hy.2 hf).2⟩⟩
    refine layout_returns.bind ?_
    rintro _ rfl
    refine Obs.Returns.ofExcept_bind (directRoot_eq hsource hi hx) ?_
    cases hlive : x.live with
    | false =>
      refine hsame cache hc ?_
      rw [DirectRecord.cleared, if_neg]
      rw [hlive]; simp
    | true =>
      refine (resolve_returns hp hc (hknown x List.mem_cons_self)).bind ?_
      rintro ⟨root, cache'⟩ ⟨hr, hc'⟩
      have hr' : root = s.rootOf x.owner := hr
      subst hr'
      by_cases hdead : s.rootOf x.owner = none
      · have hcx : x.cleared s = { x with live := false } := by
          rw [DirectRecord.cleared, if_pos ⟨hlive, hdead⟩]
        change Obs.Returns s (if s.rootOf x.owner = none then _ else _) _
        rw [if_pos hdead]
        refine Obs.Returns.ofExcept_bind (removeDirectRoot_eq hupdated hi' hx) ?_
        have hmod : (pre' ++ x :: post).modify pre.length (fun r => { r with live := false }) =
            (pre' ++ [x.cleared s]) ++ post := by rw [← hlen, modify_append, hcx]
        rw [hmod]
        have :=
          @ih (updated.withRecords t first last ((pre' ++ [x.cleared s]) ++ post)) (pre ++ [x])
          (pre' ++ [x.cleared s]) cache' true hc' hsource' rfl (by simp [hlen]) hroot' hknown'
        rw [hl₁] at this
        refine this.mono fun y hy => ⟨?_, fun hf => absurd (hy.2 hf).1 (by simp)⟩
        rw [hy.1]
        simp [Page.withRecords]
      · change Obs.Returns s (if s.rootOf x.owner = none then _ else _) _
        rw [if_neg hdead]
        refine hsame cache' hc' ?_
        rw [DirectRecord.cleared, if_neg fun h => hdead h.2]

/-- The page of `b` has other coordinates and nothing else changed. -/
structure Recoordinated (s s' : Store) (b : ℕ) (t : TermRef) (first last : OwnerRef)
    (records records' : List DirectRecord) : Prop where
  layout : s'.layout = s.layout
  blocks : s'.blocks = s.blocks
  old : s.body b = .direct t first last records
  new : s'.body b = .direct t first last records'
  owners : records'.map (·.owner) = records.map (·.owner)
  next : ∀ c, s'.next c = s.next c
  other : ∀ c, c ≠ b → s'.page c = s.page c

variable {records' : List DirectRecord} {e : Entry} {r : OwnerRef}

namespace Recoordinated

theorem tag (h : Recoordinated s s' b t first last records records') (c : ℕ) :
    (s'.body c).postingTag = (s.body c).postingTag := by
  by_cases hc : c = b
  · rw [hc, h.old, h.new]; rfl
  · rw [Store.body_eq_of_page (h.other c hc)]

theorem refs (h : Recoordinated s s' b t first last records records') (c : ℕ) :
    (s'.body c).postingRefs = (s.body c).postingRefs := by
  by_cases hc : c = b
  · rw [hc, h.old, h.new]; exact h.owners
  · rw [Store.body_eq_of_page (h.other c hc)]

theorem same (h : Recoordinated s s' b t first last records records') :
    Same (· ≠ .directPostings) s s' := by
  refine ⟨h.layout, fun c hc => h.other c ?_⟩
  rintro rfl
  rw [h.old, h.new] at hc
  rcases hc with hc | hc <;> exact hc rfl

theorem chain (h : Recoordinated s s' b t first last records records') {u : TermRef} {head tail : ℕ}
    (hc : Chain s u head tail bs) : Chain s' u head tail bs :=
  ⟨hc.linked.congr fun c _ => h.next c, hc.tail_eq, fun c hm => by rw [h.tag]; exact hc.tagged c hm⟩

theorem symm (h : Recoordinated s s' b t first last records records') :
    Recoordinated s' s b t first last records' records :=
  ⟨h.layout.symm, h.blocks.symm, h.new, h.old, h.owners.symm, fun c => (h.next c).symm,
    fun c hc => (h.other c hc).symm⟩

theorem entryChain (h : Recoordinated s s' b t first last records records') {u : TermRef}
    (hc : EntryChain s u e bs) : EntryChain s' u e bs := by
  unfold EntryChain at hc ⊢
  split_ifs with hi
  · exact (if_pos hi).mp hc
  · exact h.chain ((if_neg hi).mp hc)

theorem chainRefs (h : Recoordinated s s' b t first last records records') (bs : List ℕ) :
    chainRefs s' bs = chainRefs s bs := List.flatMap_congr fun c _ => h.refs c

theorem entry (h : Recoordinated s s' b t first last records records') (u : TermRef) :
    s'.entry u = s.entry u := Store.entry_same (h.same.mono fun _ hk => by subst hk; decide) u

theorem posted (h : Recoordinated s s' b t first last records records') {y : Text}
    (hp : Posted s y r) : Posted s' y r := by
  obtain ⟨u, f, cs, hf, hy, hcs, hr⟩ := hp
  refine ⟨u, f, cs, by rw [h.entry]; exact hf, hy, h.entryChain hcs, ?_⟩
  rw [entryRefs, h.chainRefs]; exact hr

/-- The parts that do not read coordinates carry over. -/
theorem wf (h : Recoordinated s s' b t first last records records') (hw : WF strong s m)
    (hp : PagesOk s') (hd : DirectOk strong' s') : WF strong' s' m := by
  have hknown : ∀ r, s'.Known r ↔ s.Known r := fun r =>
    Store.known_same (h.same.mono fun _ hk => by subst hk; decide)
  have h0 : (0 : ℕ) ≠ b := by
    rintro rfl
    have := hw.kind_zero
    rw [h.old] at this
    cases this
  have hkind : ∀ c, (s'.body c).kind = (s.body c).kind := by
    intro c
    by_cases hc : c = b
    · rw [hc, h.old, h.new]; rfl
    · rw [Store.body_eq_of_page (h.other c hc)]
  have howns : ∀ r o, s'.Owns r o → s.Owns r o := fun r o =>
    (Store.owns_same (h.same.mono fun _ hk => by subst hk; decide)).1
  refine ⟨hp, by rw [h.other 0 h0]; exact hw.info,
    hw.owners.imp fun _ ho => ho.same (h.same.mono fun _ hk => by subst hk; decide),
    hw.dict.imp fun _ hd => hd.same (h.same.mono fun _ hk => by subst hk; decide),
    ⟨fun u f hf => ?_, fun c u hc => ?_⟩,
    ⟨fun u f hf => ?_, fun u f r hf hr => ?_, fun c r hr => ?_,
      fun c r offset payload hc => ?_⟩, hd, fun j hj => ?_,
    hw.free.same (h.same.mono fun _ hk => by subst hk; decide),
    ⟨fun c hc => ?_, fun r o ho => ?_⟩,
    hw.grouped.same (h.same.mono fun _ hk => by subst hk; decide)⟩
  · rw [h.entry] at hf
    obtain ⟨cs, hcs, hs⟩ := hw.chains.chain u f hf
    exact ⟨cs, h.entryChain hcs, by rw [entryRefs, h.chainRefs]; exact hs⟩
  · rw [h.tag] at hc
    rw [h.entry]
    exact hw.chains.tag c u hc
  · rw [h.entry] at hf; exact (hknown _).2 (hw.refs.first u f hf)
  · rw [h.entry] at hf; exact (hknown _).2 (hw.refs.second u f r hf hr)
  · rw [h.refs] at hr; exact (hknown _).2 (hw.refs.posting c r hr)
  · rw [(h.same.body (.inr (by rw [hc]; rintro ⟨⟩)))] at hc
    exact (hknown _).2 (hw.refs.fragment c r offset payload hc)
  · obtain ⟨u, f, cs, hf, hcs, hne, hs, ht⟩ := hw.journal j hj
    exact ⟨u, f, cs, by rw [h.entry]; exact hf, h.chain hcs, hne, by rw [h.chainRefs]; exact hs, ht⟩
  · rw [h.next, hkind]
    rw [hkind] at hc
    exact hw.closed.next c hc
  · rw [hkind]
    exact hw.closed.payload r o (howns r o ho)

theorem shows (h : Recoordinated s s' b t first last records records') (hv : Shows s V) :
    Shows s' V := by
  have ho : Same (· = .owners) s s' := h.same.mono fun _ hk => by subst hk; decide
  refine ⟨hv.sorted, fun r x => by rw [Store.rootOf_same ho]; exact hv.live r x, fun v hm y => ?_,
    fun r o hown => hv.closed r o ((Store.owns_same ho).1 hown)⟩
  rw [← hv.posted v hm y]
  exact ⟨fun hp => h.symm.posted hp, fun hp => h.posted hp⟩

end Recoordinated

/-- A direct page with cleared coordinates is a valid image. -/
theorem withRecords_valid (hp : PagesOk s) (hb : s.body b = .direct t first last records) :
    ((s.page b).withRecords t first last (records.map (DirectRecord.cleared s))).Valid
      s.layout := by
  have hold := hp.valid b
  have hb' : (s.page b).body = .direct t first last records := hb
  have hk : (s.page b).kind = .directPostings := by rw [Page.kind, hb']; rfl
  have hok := hold.body
  rw [hb'] at hok
  obtain ⟨ht, hall, hsorted, hfirst, hlast⟩ := hok
  refine ⟨fun _ => ?_, fun _ => ?_, ⟨ht, fun x hx => ?_, ?_, ?_, ?_⟩, ?_⟩
  · refine (hold.next (by rw [hk]; simp)).imp_right fun h => ⟨h.1, h.2.1, ?_, ?_⟩
    · rintro ⟨⟩
    · exact fun hi => by rcases hi with hi | hi <;> cases hi
  · have := hold.block (by rw [hk]; simp)
    rw [hk] at this
    exact this.trans ⟨by rintro ⟨⟩, by rintro ⟨⟩⟩
  · obtain ⟨y, hy, rfl⟩ := List.mem_map.1 hx
    rw [cleared_owner, cleared_root]
    exact hall y hy
  · rw [cleared_map]; exact hsorted
  · rw [cleared_map]; exact hfirst
  · rw [cleared_map]; exact hlast
  · have hl := hold.len
    rw [Page.len, hb'] at hl
    rw [Page.len]
    simp only [Page.withRecords, cleared_map, List.length_map]
    exact hl

/-- Clearing the coordinates of dead owners on one page. -/
theorem clear_step (h : WF strong s m) (hb : s.body b = .direct t first last records) :
    CommitOk s [(s.page b).withRecords t first last (records.map (DirectRecord.cleared s))] ∧
    ∀ s', Committed s s'
      [(s.page b).withRecords t first last (records.map (DirectRecord.cleared s))] →
      WF strong s' m ∧ Recoordinated s s' b t first last records
        (records.map (DirectRecord.cleared s)) := by
  have hk : (s.body b).kind = .directPostings := by rw [hb]; rfl
  have hpb : ((s.page b).withRecords t first last
      (records.map (DirectRecord.cleared s))).block = b :=
    h.pages.block b
  have hc := commitOk_one (withRecords_valid h.pages hb) (fun hz => nomatch hz) (by
    rw [hpb]; exact h.pages.lt_blocks (hk.trans_ne (by decide)))
  refine ⟨hc, fun s' hcm => ?_⟩
  obtain ⟨hself, hother⟩ := hcm.one
  rw [hpb] at hself hother
  have hre : Recoordinated s s' b t first last records (records.map (DirectRecord.cleared s)) := by
    refine ⟨hcm.layout, hcm.blocks, hb, ?_, cleared_map records, fun c => ?_, hother⟩
    · rw [Store.body, hself]; rfl
    · by_cases hcb : c = b
      · rw [hcb, Store.next, hself]; rfl
      · rw [Store.next, hother c hcb]; rfl
  have howns : ∀ r o, s'.Owns r o → s.Owns r o := fun r o =>
    (Store.owns_same (hre.same.mono fun _ hk => by subst hk; decide)).1
  -- a record of the new store is a record of the old one, or a cleared one
  have hrec : ∀ c x, x ∈ (s'.body c).records → ∃ y ∈ (s.body c).records, x.owner = y.owner ∧
      x.root = y.root ∧ (x.live = true → y.live = true) ∧
      (s.rootOf y.owner ≠ none → x.live = y.live) := by
    intro c x hx
    by_cases hcb : c = b
    · subst hcb
      rw [hre.new] at hx
      obtain ⟨y, hy, rfl⟩ := List.mem_map.1 hx
      refine ⟨y, by rw [hb]; exact hy, cleared_owner y, cleared_root y, ?_, ?_⟩
      · unfold DirectRecord.cleared
        split_ifs
        · exact fun hf => hf.elim
        · exact id
      · intro hl
        rw [DirectRecord.cleared, if_neg fun hd => hl hd.2]
    · rw [Store.body_eq_of_page (hother c hcb)] at hx
      exact ⟨x, hx, rfl, rfl, id, fun _ => rfl⟩
  refine ⟨hre.wf h (hcm.pages h.pages hc) ⟨fun c x o hx ho => ?_, fun c x o hx ho hl => ?_,
    fun hs c x o hx ho hl => ?_⟩, hre⟩
  · obtain ⟨y, hy, how, hro, -, -⟩ := hrec c x hx
    rw [hro]
    exact h.direct.root c y o hy (how ▸ howns _ _ ho)
  · obtain ⟨y, hy, how, -, -, hlive⟩ := hrec c x hx
    have ho' : s.Owns y.owner o := how ▸ howns _ _ ho
    rw [hlive (by rw [Store.rootOf_eq ho']; exact hl)]
    exact h.direct.live c y o hy ho' hl
  · obtain ⟨y, hy, how, -, hlive, -⟩ := hrec c x hx
    exact h.direct.dead hs c y o hy (how ▸ howns _ _ ho) (hlive hl)

/-! ### The sweep -/

/-- The block holds no copied coordinate and no fragment of a dead owner. -/
structure Clean (s : Store) (b : ℕ) : Prop where
  direct : ∀ x ∈ (s.body b).records, x.live = true → s.rootOf x.owner ≠ none
  fragment : ∀ r offset payload, s.body b = .fragment r offset payload → s.rootOf r ≠ none

/-- What a pass over the blocks `bs` leaves alone. -/
structure Swept (bs : List ℕ) (s s' : Store) (m m' : MetaBody) : Prop where
  layout : s'.layout = s.layout
  blocks : s'.blocks = s.blocks
  owners : Same (· = .owners) s s'
  core : m'.core = m.core
  journal : m'.journal = m.journal
  other : ∀ c, c ≠ 0 → c ∉ bs → s'.page c = s.page c
  kept : ∀ c, c ≠ 0 → (s.body c).kind ≠ .directPostings →
    s'.page c = s.page c ∨ (s'.body c).kind = .free

theorem Clean.same (h : Clean s c) (hp : s'.page c = s.page c) (ho : Same (· = .owners) s s') :
    Clean s' c := by
  have hb := Store.body_eq_of_page hp
  refine ⟨fun x hx hl => ?_, fun r offset payload hr => ?_⟩
  · rw [hb] at hx; rw [Store.rootOf_same ho]; exact h.direct x hx hl
  · rw [hb] at hr; rw [Store.rootOf_same ho]; exact h.fragment r offset payload hr

theorem Swept.refl (bs : List ℕ) (s : Store) (m : MetaBody) : Swept bs s s m m :=
  ⟨rfl, rfl, Same.refl s, rfl, rfl, fun _ _ _ => rfl, fun _ _ _ => .inl rfl⟩

theorem Swept.trans (h : Swept bs s s' m m') (h' : Swept cs s' s'' m' m'') :
    Swept (bs ++ cs) s s'' m m'' where
  layout := h'.layout.trans h.layout
  blocks := h'.blocks.trans h.blocks
  owners := h.owners.trans h'.owners
  core := h'.core.trans h.core
  journal := h'.journal.trans h.journal
  other c h0 hc := by
    rw [List.mem_append, not_or] at hc
    rw [h'.other c h0 hc.2, h.other c h0 hc.1]
  kept c h0 hk := by
    rcases h.kept c h0 hk with hp | hf
    · rcases h'.kept c h0 (by rw [Store.body_eq_of_page hp]; exact hk) with hp' | hf'
      · exact .inl (hp'.trans hp)
      · exact .inr hf'
    · rcases h'.kept c h0 (by rw [hf]; decide) with hp' | hf'
      · exact .inr (by rw [Store.body_eq_of_page hp']; exact hf)
      · exact .inr hf'

/-- The state of the sweep: the metapage copy is current. -/
structure Sweeping (V : View) (s : Store) (m : MetaBody) (st : SweepState) : Prop where
  wf : WF False s m
  shows : Shows s V
  info : st.info = metaPage m

theorem Reclaimed.swept (h : Reclaimed strong s s' m b) :
    Swept [b] s s' m { m with freeHead := b } where
  layout := h.same.layout
  blocks := h.blocks
  owners := h.same.mono fun _ hk => by subst hk; decide
  core := rfl
  journal := rfl
  other c h0 hc := h.other c h0 (by simpa using hc)
  kept c h0 _ := by
    by_cases hcb : c = b
    · exact .inr (hcb ▸ h.free)
    · exact .inl (h.other c h0 hcb)

theorem Recoordinated.swept (h : Recoordinated s s' b t first last records records') :
    Swept [b] s s' m m where
  layout := h.layout
  blocks := h.blocks
  owners := h.same.mono fun _ hk => by subst hk; decide
  core := rfl
  journal := rfl
  other c _ hc := h.other c (by simpa using hc)
  kept c _ hk := .inl (h.other c fun hcb => hk (by rw [hcb, h.old]; rfl))

/-- What one block of the sweep leaves. -/
def SweepPost (V : View) (bs : List ℕ) (s : Store) (m : MetaBody) (st st' : SweepState)
    (s' : Store) : Prop :=
  ∃ m', Sweeping V s' m' st' ∧ Swept bs s s' m m' ∧ (∀ b ∈ bs, Clean s' b) ∧
    (st'.hasZero = false → st.hasZero = false ∧ ∀ b ∈ bs, (s'.body b).kind ≠ .zero)

theorem clean_of_kind (hd : (s.body b).kind ≠ .directPostings) (hf : (s.body b).kind ≠ .fragment) :
    Clean s b :=
  ⟨fun _ hx => absurd (records_kind hx) hd, fun r offset payload hb => absurd (by rw [hb]; rfl) hf⟩

theorem fragmentLive_returns {offset : ℕ} {payload : List UInt8} (h : WF strong s m)
    (hb : s.body b = .fragment r offset payload) :
    Obs.Returns s (fragmentLive (s.page b)) (· = decide (s.rootOf r ≠ none)) := by
  obtain ⟨o, ho⟩ := h.refs.fragment b r offset payload hb
  have hdata : (s.page b).fragmentData = .ok (r, offset, payload) := by
    rw [Page.fragmentData, show (s.page b).body = _ from hb]
    exact if_pos (ho.valid h.pages)
  refine Obs.Returns.ofExcept_bind hdata ?_
  refine (load_returns h.pages ho.kind (by simp)).bind ?_
  rintro _ rfl
  refine layout_returns.bind ?_
  rintro _ rfl
  refine Obs.Returns.ofExcept_bind (owner_eq h.pages ho) ?_
  refine Obs.Returns.ensure_bind rfl (Obs.Returns.pure ?_)
  rw [Store.rootOf_eq ho, OwnerSlot.liveRoot]
  by_cases hl : o.live = true ∧ o.publication = .published
  · rw [if_pos hl]; simp [hl]
  · rw [if_neg hl]
    simpa [and_comm] using hl

/-- One block of the second pass. -/
theorem sweepBlock_spec {st : SweepState} (h : Sweeping V s m st) (hbet : V₀.Between removable V)
    (hb : blockValid b) (hlt : b < s.blocks) :
    Spec E (Cut removable V₀) s (sweepBlock b st) (SweepPost V [b] s m st) := by
  have hw := h.wf
  have hkeep : Clean s b → (s.body b).kind ≠ .zero → ∀ st' : SweepState, st'.info = st.info →
      st'.hasZero = st.hasZero → SweepPost V [b] s m st st' s := by
    intro hc hz st' hi hh
    refine ⟨m, ⟨hw, h.shows, hi.trans h.info⟩, Swept.refl _ s m, by simpa using hc, fun hf => ?_⟩
    exact ⟨hh.symm.trans hf, by simpa using hz⟩
  refine Spec.reading_bind (loadAny_returns hw.pages hlt) ?_
  rintro _ rfl
  have hkind : ∀ {body : Body}, s.body b = body → (s.page b).kind = body.kind := fun heq =>
    congrArg Body.kind heq
  cases hbody : s.body b with
  | zero =>
    rw [hkind hbody]
    refine Spec.pure ⟨m, ⟨hw, h.shows, h.info⟩, Swept.refl _ s m, ?_, fun hf => nomatch hf⟩
    rw [List.forall_mem_singleton]
    exact clean_of_kind (by rw [hbody]; decide) (by rw [hbody]; decide)
  | free =>
    rw [hkind hbody]
    refine Spec.pure (hkeep ?_ (by rw [hbody]; decide) _ rfl rfl)
    exact clean_of_kind (by rw [hbody]; decide) (by rw [hbody]; decide)
  | fragment r offset payload =>
    rw [hkind hbody]
    change Spec _ _ _ (Prog.reading (fragmentLive (s.page b)) >>= _) _
    refine Spec.reading_bind (fragmentLive_returns hw hbody) ?_
    rintro _ rfl
    by_cases hl : s.rootOf r ≠ none
    · rw [if_pos (by simpa using hl)]
      refine Spec.pure (hkeep ⟨fun x hx => ?_, fun r' offset' payload' hr' => ?_⟩
        (by rw [hbody]; exact fun hz => nomatch hz) st rfl rfl)
      · rw [hbody] at hx; exact absurd hx List.not_mem_nil
      · rw [hbody] at hr'; cases hr'; exact hl
    · -- the owner of the fragment is dead, and the page goes to the free list
      rw [if_neg (by simpa using hl), h.info]
      have hk : (s.body b).kind = .fragment ∨
          (s.body b).kind = .zero := by rw [hbody]; exact .inl rfl
      refine (reclaim_spec false hw hk hb hlt fun s' hr => ?_).bind ?_
      · exact ⟨V, hbet, _, hr.wf, h.shows.of_free hr.same⟩
      rintro _ s' ⟨rfl, hr⟩
      refine Spec.pure ⟨_, ⟨hr.wf, h.shows.of_free hr.same, rfl⟩, hr.swept, ?_, fun hf => ⟨hf, ?_⟩⟩
      · rw [List.forall_mem_singleton]
        exact clean_of_kind (by rw [hr.free]; decide) (by rw [hr.free]; decide)
      · rw [List.forall_mem_singleton, hr.free]; decide
  | direct t first last records =>
    rw [hkind hbody]
    change Spec _ _ _ (Prog.ofExcept (s.page b).postingRefs >>= _) _
    have htag : (s.body b).postingTag = some t := by rw [hbody]; rfl
    refine Spec.ofExcept_bind (postingRefs_eq hw.pages htag) ?_
    have hok := hw.pages.ok b
    rw [hbody] at hok
    have hsource : (s.page b).body = .direct t first last ([] ++ records) := hbody
    have hrefs : (s.body b).postingRefs = records.map (·.owner) := by rw [hbody]; rfl
    rw [hrefs]
    have hcd := clearDirect_returns false hw.pages CacheOk.none hsource hsource rfl
      (fun x hx => (hok.2.1 x hx).2)
      (fun x hx => hw.refs.posting b x.owner (by rw [hrefs]; exact List.mem_map_of_mem hx))
    refine Spec.reading_bind hcd ?_
    rintro ⟨_, changed⟩ ⟨rfl, hch⟩
    -- after the pass every coordinate that is left belongs to a live owner
    have hclean : ∀ s', Same (· = .owners) s s' →
        s'.body b = .direct t first last (records.map (DirectRecord.cleared s)) → Clean s' b := by
      intro s' ho hb'
      refine ⟨fun x hx hl => ?_, fun r offset payload hr => by rw [hb'] at hr; cases hr⟩
      rw [hb'] at hx
      obtain ⟨y, hy, rfl⟩ := List.mem_map.1 hx
      rw [Store.rootOf_same ho, cleared_owner]
      intro hd
      unfold DirectRecord.cleared at hl
      split_ifs at hl with hc
      exact hc ⟨hl, hd⟩
    have hnz : ∀ s' : Store, s'.body b = .direct t first last (records.map
        (DirectRecord.cleared s)) →
        (s'.body b).kind ≠ .zero := fun s' hb' => by rw [hb']; exact fun hz => nomatch hz
    change Spec _ _ _ (if changed = true then
      commit [(s.page b).withRecords t first last
        (records.map (DirectRecord.cleared s))] >>= fun _ =>
        pure st else pure st) _
    obtain ⟨hc, hpost⟩ := clear_step hw hbody
    cases changed with
    | false =>
      -- nothing was written because nothing was to be cleared
      have hid : records.map (DirectRecord.cleared s) = records := by
        conv_rhs => rw [← List.map_id records]
        exact List.map_congr_left fun x hx => (hch rfl).2 x hx
      have hb' : s.body b = .direct t first last (records.map (DirectRecord.cleared s)) := by
        rw [hid]; exact hbody
      exact Spec.pure (hkeep (hclean s (Same.refl s) hb') (hnz s hb') st rfl rfl)
    | true =>
      refine (commit_spec hc fun s' hcm => ?_).bind fun _ s' hcm => ?_
      · obtain ⟨hw', hre⟩ := hpost s' hcm
        exact ⟨V, hbet, m, hw', hre.shows h.shows⟩
      · obtain ⟨hw', hre⟩ := hpost s' hcm
        refine Spec.pure ⟨m, ⟨hw', hre.shows h.shows, h.info⟩, hre.swept, ?_, fun hf => ⟨hf, ?_⟩⟩
        · rw [List.forall_mem_singleton]
          exact hclean s' (hre.same.mono fun _ hk => by subst hk; decide) hre.new
        · rw [List.forall_mem_singleton]
          exact hnz s' hre.new
  | info _ | owners _ | dictionary _ _ | postings _ _ | «sealed» _ _ | grouped _ =>
    rw [hkind hbody]
    refine Spec.pure (hkeep ?_ (by rw [hbody]; exact fun hz => nomatch hz) st rfl rfl)
    exact clean_of_kind (by rw [hbody]; exact fun hz => nomatch hz)
      (by rw [hbody]; exact fun hz => nomatch hz)

theorem SweepPost.cons {st st' st'' : SweepState} (hnb : b ∉ bs) (hb : b ≠ 0)
    (hsw : Swept [b] s s' m m') (hcl : Clean s' b)
    (hz : st'.hasZero = false → st.hasZero = false ∧ (s'.body b).kind ≠ .zero)
    (h : SweepPost V bs s' m' st' st'' s'') : SweepPost V (b :: bs) s m st st'' s'' := by
  obtain ⟨m'', hm'', hsw', hcl', hz'⟩ := h
  have hpage := hsw'.other b hb hnb
  refine ⟨m'', hm'', hsw.trans hsw', List.forall_mem_cons.2 ⟨hcl.same hpage hsw'.owners, hcl'⟩,
    fun hf => ?_⟩
  obtain ⟨h₁, h₂⟩ := hz' hf
  obtain ⟨h₃, h₄⟩ := hz h₁
  exact ⟨h₃, List.forall_mem_cons.2 ⟨by rw [Store.body_eq_of_page hpage]; exact h₄, h₂⟩⟩

/-- The second pass cleans every block it visits. -/
theorem sweep_spec {st : SweepState} (h : Sweeping V s m st) (hbet : V₀.Between removable V)
    (hbs : ∀ b ∈ bs, blockValid b ∧ b < s.blocks) (hnd : bs.Nodup) :
    Spec E (Cut removable V₀) s (sweep bs st) (SweepPost V bs s m st) := by
  induction bs generalizing s m st with
  | nil =>
    exact Spec.pure ⟨m, h, Swept.refl _ s m, fun _ hb => absurd hb List.not_mem_nil,
      fun hf => ⟨hf, fun _ hb => absurd hb List.not_mem_nil⟩⟩
  | cons b bs ih =>
    obtain ⟨hbv, hlt⟩ := hbs b List.mem_cons_self
    obtain ⟨hnb, hnd'⟩ := List.nodup_cons.1 hnd
    refine (sweepBlock_spec h hbet hbv hlt).bind ?_
    rintro st' s' ⟨m', hm', hsw, hcl, hz⟩
    refine (ih hm' (fun c hc => ?_) hnd').post fun st'' s'' hpost => ?_
    · rw [hsw.blocks]; exact hbs c (List.mem_cons_of_mem _ hc)
    · exact hpost.cons hnb hbv.1 hsw (hcl b (by simp)) fun hf => ⟨(hz hf).1, (hz hf).2 b (by simp)⟩

end

end PinCore
