import PinCore.Compact.Pass
import PinCore.Insert.Insert
import PinCore.Vacuum.Vacuum

/-!
# Runs of the store

A run starts with `initialize` and continues with insertions, vacuum passes, compactions and
recoveries, completed or, apart from vacuum, cut off at any durable step.  Every state of a run
satisfies the invariant and shows the documents that the run inserted and did not remove.
-/

namespace PinCore

open Prog

/-! ### The empty store -/

/-- The metapage fields of a new store. -/
def freshMeta (l : HeapLayout) (packed : Bool) : MetaBody where
  maxOffset := l.maxOffset
  packed := packed
  incarnation := 1
  ownerHead := noBlock
  ownerTail := noBlock
  freeHead := noBlock
  journal := none
  bucket _ := (noBlock, noBlock)
  grouped := .default

/-- A new store: the metapage and nothing else. -/
def freshStore (l : HeapLayout) (packed : Bool) : Store where
  layout := l
  blocks := 1
  page b := if b = 0 then metaPage (freshMeta l packed) else Page.zero b

section

variable {l : HeapLayout} {packed : Bool}

theorem freshMeta_ok : (freshMeta l packed).Ok l where
  maxOffset := rfl
  incarnation := Nat.one_ne_zero
  owners := .inl ⟨rfl, rfl⟩
  free := by change noBlock ≠ 0; decide
  journal _ h := nomatch h
  grouped := by change GroupState.default.Ok; decide
  ids := by change GroupState.default.IdsBelow 1; decide
  refs := by change GroupState.default.OwnersValid; decide
  bucket _ _ := .inl ⟨rfl, rfl⟩

theorem freshStore_body (b : ℕ) : (freshStore l packed).body b =
    if b = 0 then .info (freshMeta l packed) else .zero := by
  simp only [Store.body, freshStore]
  split_ifs <;> rfl

theorem freshStore_kind {b : ℕ} {k : PageKind} (hi : k ≠ .info) (hz : k ≠ .zero) :
    ((freshStore l packed).body b).kind ≠ k := by
  rw [freshStore_body]
  split_ifs
  · exact Ne.symm hi
  · exact Ne.symm hz

theorem freshStore_body_ne {b : ℕ} {body : Body} (hi : body.kind ≠ .info) (hz : body.kind ≠ .zero) :
    (freshStore l packed).body b ≠ body := fun h =>
  freshStore_kind hi hz (congrArg Body.kind h)

theorem freshStore_not_owns {r : OwnerRef} {o : OwnerSlot} : ¬ (freshStore l packed).Owns r o :=
  fun h => freshStore_kind (by decide) (by decide) h.kind

theorem freshStore_entry (t : TermRef) : (freshStore l packed).entry t = none :=
  Option.eq_none_iff_forall_not_mem.2 fun _ he =>
    freshStore_kind (by decide) (by decide) (Store.entry_kind he)

theorem freshStore_tag (b : ℕ) : ((freshStore l packed).body b).postingTag = none := by
  rw [freshStore_body]
  split_ifs <;> rfl

theorem freshStore_pages : PagesOk (freshStore l packed) where
  pos := Nat.one_pos
  le := by change 1 ≤ noBlock; decide
  block b := by
    simp only [freshStore]
    split_ifs with h
    · exact h.symm
    · rfl
  valid b := by
    simp only [freshStore]
    split_ifs
    · exact metaPage_valid freshMeta_ok
    · exact ⟨fun h => absurd rfl h, fun h => absurd rfl h, trivial, by
        simp [Page.len, Page.zero]⟩
  fresh b hb := by
    have h0 : b ≠ 0 := by
      have : 1 ≤ b := hb
      omega
    simp only [freshStore, if_neg h0]

theorem freshStore_wf : WF True (freshStore l packed) (freshMeta l packed) where
  pages := freshStore_pages
  info := rfl
  owners := ⟨[], {
    linked := rfl
    tail_eq := rfl
    mem_iff b := iff_of_false List.not_mem_nil (freshStore_kind (by decide) (by decide))
    ascending := .nil
    ordered _ _ _ _ h := absurd h freshStore_not_owns
    below _ _ h := absurd h freshStore_not_owns }⟩
  dict := ⟨fun _ => [], {
    linked _ _ := rfl
    tail_eq _ _ := rfl
    kind _ _ _ h := absurd h List.not_mem_nil
    ascending _ _ := .nil
    covered _ h := absurd h (freshStore_kind (by decide) (by decide))
    format _ _ _ h := absurd h (freshStore_body_ne (fun h => nomatch h) fun h => nomatch h)
    route _ _ _ h := absurd h List.not_mem_nil
    unique t _ _ _ h := by rw [freshStore_entry] at h; cases h }⟩
  chains := {
    chain t _ h := by rw [freshStore_entry] at h; cases h
    tag b _ h := by rw [freshStore_tag] at h; cases h }
  refs := {
    first t _ h := by rw [freshStore_entry] at h; cases h
    second t _ _ h := by rw [freshStore_entry] at h; cases h
    posting b r h := by
      obtain ⟨t, ht⟩ := postingRefs_tag h
      rw [freshStore_tag] at ht
      cases ht
    fragment _ _ _ _ h :=
      absurd h (freshStore_body_ne (fun h => nomatch h) fun h => nomatch h) }
  direct := {
    root _ _ _ _ h := absurd h freshStore_not_owns
    live _ _ _ _ h := absurd h freshStore_not_owns
    dead _ _ _ _ _ h := absurd h freshStore_not_owns }
  journal _ h := nomatch h
  free := ⟨[], rfl, fun b =>
    iff_of_false List.not_mem_nil (freshStore_kind (by decide) (by decide))⟩
  closed := {
    next b hb := by
      rw [freshStore_body] at hb
      by_cases h : b = 0
      · subst h; exact .inl rfl
      · exact absurd (by rw [if_neg h]; rfl) hb
    payload _ _ h := absurd h freshStore_not_owns }
  grouped := ⟨rfl, fun _ => freshStore_kind (by decide) (by decide)⟩

theorem freshStore_shows (closed : OwnerRef → Prop) :
    Shows (freshStore l packed) ⟨[], closed⟩ where
  sorted := .nil
  live r x := by
    refine iff_of_false (fun h => ?_) (fun ⟨_, h⟩ => List.not_mem_nil h)
    obtain ⟨o, ho, -⟩ := Store.rootOf_eq_some h
    exact freshStore_not_owns ho
  posted _ h := absurd h List.not_mem_nil
  closed _ _ h := absurd h freshStore_not_owns

theorem freshStore_of_committed {s : Store}
    (h : Committed (Store.empty l).grow s [metaPage (freshMeta l packed)]) :
    s = freshStore l packed := by
  have hpage : s.page = (freshStore l packed).page := by
    funext b
    simp only [freshStore]
    split_ifs with hb
    · subst hb
      exact h.mem _ (List.mem_singleton_self _)
    · rw [h.other b (by rw [List.forall_mem_singleton]; exact Ne.symm hb)]
      exact if_neg hb
  have hl : s.layout = l := h.layout
  have hn : s.blocks = 1 := h.blocks
  rw [← hl] at hpage ⊢
  cases s
  simp only [freshStore, Store.mk.injEq] at *
  exact ⟨trivial, hn, hpage⟩

theorem initializeStore_spec :
    Spec (fun _ => False) (fun _ => True) (Store.empty l) (initializeStore packed) fun _ s =>
      s = freshStore l packed := by
  have hcommit : ∀ packed, Spec (fun _ => False) (fun _ => True) (Store.empty l).grow
      (commit [metaPage (freshMeta l packed)]) fun _ s => s = freshStore l packed := by
    intro packed
    refine (commit_spec ⟨by simp, by simp [maxWalPages], ?_, by simp⟩ fun _ _ => trivial).post
      fun _ s h => freshStore_of_committed h
    rw [List.forall_mem_singleton]
    exact ⟨metaPage_valid freshMeta_ok, by rintro ⟨⟩, Nat.one_pos⟩
  refine Spec.reading_bind blocks_returns ?_
  rintro _ rfl
  refine Spec.ensure_bind rfl ?_
  refine (allocate_spec' (fun h => absurd h (by change ¬ noBlock ≤ 0; decide))
    fun _ => trivial).bind ?_
  rintro _ _ ⟨rfl, rfl, -⟩
  refine Spec.ensure_bind rfl ?_
  refine Spec.reading_bind layout_returns fun l' hl => ?_
  have hnew : Page.metadata l' = .ok (metaPage (freshMeta l false)) := by rw [hl]; rfl
  refine Spec.ofExcept_bind hnew ?_
  cases packed with
  | false => exact hcommit false
  | true => exact hcommit true

end

/-! ### Steps -/

/-- One operation of a run, on a store and the live documents it shows.  An insertion that was
cut off before its publication record, a compaction and a recovery cut off anywhere all leave
the documents alone. -/
inductive Step : Store × List LiveDoc → Store × List LiveDoc → Prop
  | insert {s s' : Store} {docs : List LiveDoc} {root : RootTid} {d : PreparedDocument}
      {owner : OwnerRef} (hroot : root.Valid s.layout)
      (h : (PinCore.insert root d).Completes s owner s') :
      Step (s, docs) (s', docs ++ [⟨owner, root, d.document⟩])
  | insertCut {s s' : Store} {docs : List LiveDoc} {root : RootTid} {d : PreparedDocument}
      (hroot : root.Valid s.layout) (h : (prepareInsert root d).Crash s s') :
      Step (s, docs) (s', docs)
  | vacuum {s s' : Store} {docs : List LiveDoc} {removable : RootTid → Bool} {stats : VacuumStats}
      (h : (PinCore.vacuum removable).Completes s stats s') :
      Step (s, docs) (s', docs.filter fun v => !removable v.root)
  | compact {s s' : Store} {docs : List LiveDoc} {mode : CompactMode} {stats : CompactStats}
      (h : (compactWithMode mode).Completes s stats s') : Step (s, docs) (s', docs)
  | compactCut {s s' : Store} {docs : List LiveDoc} {mode : CompactMode}
      (h : (compactWithMode mode).Crash s s') : Step (s, docs) (s', docs)
  | recover {s s' : Store} {docs : List LiveDoc} {n : ℕ}
      (h : recoverCompaction.Completes s n s') : Step (s, docs) (s', docs)
  | recoverCut {s s' : Store} {docs : List LiveDoc} (h : recoverCompaction.Crash s s') :
      Step (s, docs) (s', docs)

/-- The store `s`, showing `docs`, occurs in a run of the engine. -/
def Reachable (s : Store) (docs : List LiveDoc) : Prop :=
  ∃ l packed s₀, (initializeStore packed).Completes (Store.empty l) ⟨⟩ s₀ ∧
    Relation.ReflTransGen Step (s₀, []) (s, docs)

/-- The view of a run: every owner without a live root may be settled. -/
def openView (docs : List LiveDoc) : View := ⟨docs, fun _ => True⟩

/-- What one operation preserves. -/
theorem Step.good {s s' : Store} {docs docs' : List LiveDoc} (h : Step (s, docs) (s', docs'))
    (hg : Good True (openView docs) s) : Good True (openView docs') s' := by
  obtain ⟨m, hw, hv⟩ := hg
  cases h with
  | insert hroot h => exact ((insert_spec _ hw hv hroot).spec.completes h).2
  | insertCut hroot h => exact (prepareInsert_spec _ hw hv hroot).spec.crash ⟨m, hw, hv⟩ h
  | vacuum h =>
    have hp := (vacuum_spec (E := fun _ => False) hw hv).completes h
    obtain ⟨m', hw', -, -⟩ := hp.wf
    exact ⟨m', hw', hp.shows⟩
  | compact h =>
    by_cases hd : s.HasDeadChain
    · exact ((compactWithMode_fails hw hv hd).completes h).elim
    · obtain ⟨m', hw', hv', -⟩ := (compactWithMode_spec hw hv hd).completes h
      exact ⟨m', hw', hv'⟩
  | compactCut h =>
    by_cases hd : s.HasDeadChain
    · exact (compactWithMode_fails hw hv hd).crash ⟨m, hw, hv⟩ h
    · exact (compactWithMode_spec hw hv hd).crash ⟨m, hw, hv⟩ h
  | recover h =>
    obtain ⟨bs, -, -, hfreed, -⟩ := (recoverCompaction_spec (E := fun _ => False) hw hv).completes h
    obtain ⟨free, hw'⟩ := hfreed.wf
    exact ⟨_, hw', hv.of_step hfreed.off⟩
  | recoverCut h =>
    exact (recoverCompaction_spec (E := fun _ => False) hw hv).crash ⟨m, hw, hv⟩ h

theorem Reachable.step {s s' : Store} {docs docs' : List LiveDoc} (h : Reachable s docs)
    (hs : Step (s, docs) (s', docs')) : Reachable s' docs' :=
  let ⟨l, packed, s₀, h₀, hr⟩ := h
  ⟨l, packed, s₀, h₀, hr.tail hs⟩

theorem Reachable.run {s s' : Store} {docs docs' : List LiveDoc} (h : Reachable s docs)
    (hs : Relation.ReflTransGen Step (s, docs) (s', docs')) : Reachable s' docs' :=
  let ⟨l, packed, s₀, h₀, hr⟩ := h
  ⟨l, packed, s₀, h₀, hr.trans hs⟩

/-- Every state of a run satisfies the invariant. -/
theorem Reachable.good {s : Store} {docs : List LiveDoc} (h : Reachable s docs) :
    Good True (openView docs) s := by
  obtain ⟨l, packed, s₀, h₀, hr⟩ := h
  obtain rfl := initializeStore_spec.completes h₀
  have hrun : ∀ x : Store × List LiveDoc, Relation.ReflTransGen Step (freshStore l packed, []) x →
      Good True (openView x.2) x.1 := by
    intro x hx
    induction hx with
    | refl => exact ⟨_, freshStore_wf, freshStore_shows _⟩
    | @tail y z _ hs ih => exact hs.good ih
  exact hrun _ hr

theorem reachable_freshStore (l : HeapLayout) (packed : Bool) :
    Reachable (freshStore l packed) [] := by
  have hspec : Spec (fun _ => False) (fun _ => True) (Store.empty l) (initializeStore packed) _ :=
    initializeStore_spec
  obtain ⟨a, s', hc, rfl⟩ := hspec.exists_completes fun _ _ => id
  exact ⟨l, packed, _, hc, .refl⟩

/-! ### A small run -/

/-- The pages of a store, by kind. -/
def pageKinds (s : Store) : List PageKind :=
  (List.range s.blocks).map fun b => (s.body b).kind

/-- A heap whose pages hold at most eight tuples. -/
def smallLayout : HeapLayout := ⟨8, by decide, by decide⟩

/-- The document `alpha`. -/
def alphaDocument : PreparedDocument :=
  ⟨[[97, 108, 112, 104, 97]], by decide, by decide, by decide⟩

/-- A packed store after `n` insertions of `alpha`. -/
def alphaStore : ℕ → Store
  | 0 => freshStore smallLayout true
  | n + 1 => (insert ⟨0, n + 1⟩ alphaDocument (alphaStore n)).final

set_option maxRecDepth 10000 in
theorem alphaStore_reachable :
    ∃ x y z, Reachable (alphaStore 1) [⟨x, ⟨0, 1⟩, alphaDocument.document⟩] ∧
    Reachable (alphaStore 3) [⟨x, ⟨0, 1⟩, alphaDocument.document⟩,
      ⟨y, ⟨0, 2⟩, alphaDocument.document⟩, ⟨z, ⟨0, 3⟩, alphaDocument.document⟩] := by
  obtain ⟨x, h₁⟩ : ∃ x, (insert ⟨0, 1⟩ alphaDocument).Completes (alphaStore 0) x (alphaStore 1) :=
    completes_of_isOk (by decide +kernel)
  obtain ⟨y, h₂⟩ : ∃ y, (insert ⟨0, 2⟩ alphaDocument).Completes (alphaStore 1) y (alphaStore 2) :=
    completes_of_isOk (by decide +kernel)
  obtain ⟨z, h₃⟩ : ∃ z, (insert ⟨0, 3⟩ alphaDocument).Completes (alphaStore 2) z (alphaStore 3) :=
    completes_of_isOk (by decide +kernel)
  have hr₁ := (reachable_freshStore smallLayout true).step (.insert (by decide +kernel) h₁)
  have hr₂ := hr₁.step (.insert (by decide +kernel) h₂)
  exact ⟨x, y, z, hr₁, hr₂.step (.insert (by decide +kernel) h₃)⟩

end PinCore
