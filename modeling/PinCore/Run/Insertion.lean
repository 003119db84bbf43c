import PinCore.Run.Compaction

/-!
# Insertion over runs

An insertion becomes visible with its publication record and not before.  Cut off at any durable
step it leaves a store on which all later work goes on, and the next vacuum abandons the
interrupted owner and frees what the insertion had taken.
-/

namespace PinCore

open Prog

section

variable {s s' : Store} {docs : List LiveDoc} {root : RootTid} {d : PreparedDocument}
  {owner : OwnerRef}

/-- A change of an owner record is one commit. -/
theorem mem_trace_commitOwner {change : Page.OwnerChange} {c : Store}
    (h : c ∈ (commitOwner owner change s).trace) : (commitOwner owner change).Completes s ⟨⟩ c := by
  obtain ⟨p, hp, h⟩ := mem_trace_reading_bind h
  obtain ⟨l, hl, h⟩ := mem_trace_reading_bind h
  obtain ⟨p', hp', h⟩ := mem_trace_ofExcept_bind h
  obtain ⟨_, hc⟩ := mem_trace_step h
  exact hp.bind (hl.bind (hp'.bind hc))

/-- An insertion is cut off before its publication record, or it is complete. -/
theorem insert_crash_cases (h : (insert root d).Crash s s') :
    (prepareInsert root d).Crash s s' ∨ ∃ owner, (insert root d).Completes s owner s' := by
  rcases h with rfl | h
  · exact .inl (.inl rfl)
  rcases mem_trace_bind h with h | ⟨owner, s₁, hc, h⟩
  · exact .inl (.inr h)
  rcases mem_trace_bind h with h | ⟨_, s₂, hc', h⟩
  · exact .inr ⟨owner, hc.bind ((mem_trace_commitOwner h).bind ⟨rfl, rfl⟩)⟩
  · exact absurd h List.not_mem_nil

/-! ### Later insertions -/

/-- An insertion, complete or cut off before its publication record. -/
inductive InsertStep : Store × List LiveDoc → Store × List LiveDoc → Prop
  | insert {s s' : Store} {docs : List LiveDoc} {root : RootTid} {d : PreparedDocument}
      {owner : OwnerRef} (hroot : root.Valid s.layout)
      (h : (PinCore.insert root d).Completes s owner s') :
      InsertStep (s, docs) (s', docs ++ [⟨owner, root, d.document⟩])
  | cut {s s' : Store} {docs : List LiveDoc} {root : RootTid} {d : PreparedDocument}
      (hroot : root.Valid s.layout) (h : (prepareInsert root d).Crash s s') :
      InsertStep (s, docs) (s', docs)

/-- What insertions leave of the store `s`: no owner is settled but those in `closed`, what was
there grows, and every document they add has an owner that `s` did not have. -/
structure Inserted (closed : OwnerRef → Prop) (s s' : Store) (docs docs' : List LiveDoc) :
    Prop where
  good : Good True ⟨docs', closed⟩ s'
  grows : Grows s s'
  fresh : ∀ v ∈ docs', v ∈ docs ∨ ¬ s.Known v.owner

/-- The owner that is inserted has the next incarnation, which no owner has. -/
theorem insert_fresh {m : MetaBody} {V : View} (hw : WF True s m) (hv : Shows s V)
    (hroot : root.Valid s.layout) (h : (insert root d).Completes s owner s') : ¬ s.Known owner := by
  obtain ⟨hinc, -⟩ := (insert_spec d hw hv hroot).spec.completes h
  rintro ⟨o, ho⟩
  obtain ⟨bs, hown⟩ := hw.owners
  exact absurd (hown.below owner o ho) (by rw [hinc]; exact Nat.lt_irrefl _)

/-- What one insertion preserves. -/
theorem InsertStep.inserted {closed : OwnerRef → Prop} {docs' : List LiveDoc}
    (h : InsertStep (s, docs) (s', docs')) (hg : Good True ⟨docs, closed⟩ s) :
    Inserted closed s s' docs docs' := by
  obtain ⟨m, hw, hv⟩ := hg
  cases h with
  | @insert _ _ _ root d owner hroot h =>
    have hspec := insert_spec d hw hv hroot
    refine ⟨(hspec.spec.completes h).2, ?_, fun v hmem => ?_⟩
    · obtain ⟨-, hfinal⟩ := h
      rw [← hfinal]
      exact hspec.along.final .refl fun _ _ _ => Grows.trans
    · rcases List.mem_append.1 hmem with hmem | hmem
      · exact .inl hmem
      · rw [List.mem_singleton.1 hmem]
        exact .inr (insert_fresh hw hv hroot h)
  | @cut _ _ _ root d hroot h =>
    have hspec := prepareInsert_spec d hw hv hroot
    exact ⟨hspec.spec.crash ⟨m, hw, hv⟩ h, hspec.along.crash .refl (fun _ _ _ => Grows.trans) h,
      fun v => .inl⟩

/-- What a run of insertions preserves. -/
theorem inserted_run {closed : OwnerRef → Prop} {docs' : List LiveDoc}
    (hg : Good True ⟨docs, closed⟩ s)
    (h : Relation.ReflTransGen InsertStep (s, docs) (s', docs')) :
    Inserted closed s s' docs docs' := by
  have hrun : ∀ x : Store × List LiveDoc, Relation.ReflTransGen InsertStep (s, docs) x →
      Inserted closed s x.1 docs x.2 := by
    intro x hx
    induction hx with
    | refl => exact ⟨hg, .refl s, fun v => .inl⟩
    | @tail y z _ hs ih =>
      have hi : Inserted closed y.1 z.1 y.2 z.2 := hs.inserted ih.good
      refine ⟨hi.good, ih.grows.trans hi.grows, fun v hv => ?_⟩
      rcases hi.fresh v hv with hv | hv
      · exact ih.fresh v hv
      · exact .inr fun hk => hv (ih.grows.known hk)
  exact hrun _ h

/-! ### Before the publication record -/

/-- The view that remembers which owners of `s` were settled without being live. -/
def settledView (s : Store) (docs : List LiveDoc) : View :=
  ⟨docs, fun r => ∃ o, s.Owns r o ∧ o.Settled ∧ o.liveRoot = none⟩

theorem Good.toSettled (h : Good True (openView docs) s) : Good True (settledView s docs) s :=
  let ⟨m, hw, hv⟩ := h
  ⟨m, hw, hv.sorted, hv.live, hv.posted, fun _ o ho hs hl => ⟨o, ho, hs, hl⟩⟩

/-- The owner of an interrupted insertion stays unpublished through later insertions. -/
theorem Inserted.unsettled {s₁ : Store} {docs' : List LiveDoc} (h : Good True (openView docs) s)
    (hi : Inserted (settledView s docs).closed s₁ s' docs docs') {r : OwnerRef} {o : OwnerSlot}
    (ho : s'.Owns r o) (hr : ¬ s.Known r) (hr₁ : s₁.Known r) :
    o.publication = .allocated ∨ o.publication = .fragmentsWritten := by
  obtain ⟨m, hw, hv⟩ := h
  obtain ⟨m', hw', hv'⟩ := hi.good
  have hdead : o.liveRoot = none := by
    rw [← Store.rootOf_eq ho, Option.eq_none_iff_forall_ne_some]
    intro x hx
    obtain ⟨d, hd⟩ := (hv'.live r x).1 hx
    rcases hi.fresh _ hd with hd | hd
    · obtain ⟨o', ho', -⟩ := Store.rootOf_eq_some ((hv.live r x).2 ⟨d, hd⟩)
      exact hr ⟨o', ho'⟩
    · exact hd hr₁
  have hset : ¬ o.Settled := fun hs => by
    obtain ⟨o', ho', -⟩ := hv'.closed r o ho hs hdead
    exact hr ⟨o', ho'⟩
  revert hset
  unfold OwnerSlot.Settled
  cases o.publication <;> simp

/-- Vacuum of `s''` succeeds.  It abandons every owner that `s'` had and `s` did not, frees the
fragments that the owner had in `s'` or has now and every page that was extended and never written;
the free pages are those on the free list. -/
def VacuumCleans (s s' s'' : Store) : Prop :=
  ∀ removable, ∃ stats t m, (vacuum removable).Completes s'' stats t ∧
    (∀ r, s'.Known r → ¬ s.Known r →
      (∃ o, s''.Owns r o ∧
        t.Owns r { o with publication := .abandoned, live := false, dataHead := noBlock }) ∧
      ∀ b offset payload, s'.body b = .fragment r offset payload ∨
        s''.body b = .fragment r offset payload → (t.body b).kind = .free) ∧
    (∀ b < s''.blocks, (s''.body b).kind = .zero → (t.body b).kind = .free) ∧
    t.page 0 = metaPage m ∧ FreeOk t m.freeHead

theorem vacuum_cleans {s₁ : Store} {docs' : List LiveDoc} (h : Good True (openView docs) s)
    (hi : Inserted (settledView s docs).closed s₁ s' docs docs') : VacuumCleans s s₁ s' := by
  intro removable
  obtain ⟨m', hw', hv'⟩ := hi.good
  obtain ⟨stats, t, hc, hp⟩ := vacuum_completes hw' hv' removable
  obtain ⟨m'', hw'', -, -⟩ := hp.wf
  have hinfo : (s'.body 0).kind = .info := by rw [Store.body, hw'.info]; rfl
  refine ⟨stats, t, m'', hc, fun r hr₁ hr => ?_, fun b hlt hz => ?_, hw''.info, hw''.free⟩
  · obtain ⟨o, ho⟩ := hi.grows.known hr₁
    have hab : o.vacuumed removable = _ := vacuumed_abandoned (hi.unsettled h ho hr hr₁)
    refine ⟨⟨o, ho, by rw [← hab]; exact hp.owns r o ho⟩, fun b offset payload hb => ?_⟩
    have hb : s'.body b = .fragment r offset payload := by
      rcases hb with hb | hb
      · rwa [Store.body_eq_of_page (hi.grows.fragment b (by rw [hb]; rfl))]
      · exact hb
    have hkind : (s'.body b).kind = .fragment := by rw [hb]; rfl
    have h0 : b ≠ 0 := by rintro rfl; rw [hinfo] at hkind; cases hkind
    refine (hp.kept b h0 (by rw [hkind]; decide) (by rw [hkind]; decide)).resolve_left fun heq => ?_
    refine (hp.clean b).fragment r offset payload (heq.trans hb) ?_
    rw [Store.rootOf_eq (hp.owns r o ho), hab]
    rfl
  · have h0 : b ≠ 0 := by rintro rfl; rw [hinfo] at hz; cases hz
    refine (hp.kept b h0 (by rw [hz]; decide) (by rw [hz]; decide)).resolve_left fun heq => ?_
    exact hp.written b (by rw [hp.blocks]; exact hlt) (by rw [heq]; exact hz)

/-! ### After the publication record -/

/-- Every scan of `s'` has what the scan of `s` has, and the new root where the query matches:
the oracle's matches are there, and without recheck there is nothing else. -/
def Gains (s s' : Store) (root : RootTid) (d : Document) : Prop :=
  ∀ z q memoryBytes,
    (∀ e, ScanResult s z q memoryBytes (.error e) → ScanResult s' z q memoryBytes (.error e)) ∧
    ∀ out, ScanResult s z q memoryBytes (.ok out) → ∃ out' hit flag,
      ScanResult s' z q memoryBytes (.ok out') ∧
      (∀ x, x ∈ out' ↔ x ∈ out ∨ (hit = true ∧ x = (root, flag))) ∧
      (oracle d q = true → hit = true) ∧ (hit = true → oracle d q = true ∨ flag = true) ∧
      (q.Exact → PlanFits z q memoryBytes → flag = false)

theorem Good.gains {V V' : View} {v : LiveDoc} (h : Good True V s) (h' : Good True V' s')
    (hdocs : V'.docs = V.docs ++ [v]) : Gains s s' v.root v.document := by
  intro z q memoryBytes
  have hs := h.scanResult z q memoryBytes
  have hs' := h'.scanResult z q memoryBytes
  rw [hdocs] at hs'
  rcases answer_decides z q memoryBytes with ⟨hit, flag, hd⟩ | ⟨e, he⟩
  · obtain ⟨o, ho, hmem, -⟩ := hd.emits V.docs
    obtain ⟨o', ho', hmem', -⟩ := hd.emits (V.docs ++ [v])
    rw [ho] at hs
    rw [ho'] at hs'
    refine ⟨fun e he => (nomatch hs.unique he), fun out hout => ?_⟩
    obtain rfl : o = out := Except.ok.inj (hs.unique hout)
    refine ⟨o', hit v.document, flag, hs', fun x => ?_, hd.complete _, hd.sound _, hd.exact⟩
    rw [hmem', hmem]
    obtain ⟨r, b⟩ := x
    simp only [List.mem_append, List.mem_singleton, Prod.mk.injEq]
    constructor
    · rintro ⟨rfl, w, hw | rfl, rfl, hh⟩
      · exact .inl ⟨rfl, w, hw, rfl, hh⟩
      · exact .inr ⟨hh, rfl, rfl⟩
    · rintro (⟨rfl, w, hw, rfl, hh⟩ | ⟨hh, rfl, rfl⟩)
      · exact ⟨rfl, w, .inl hw, rfl, hh⟩
      · exact ⟨rfl, v, .inr rfl, rfl, hh⟩
  · rw [he] at hs hs'
    refine ⟨fun e' he' => ?_, fun out hout => (nomatch hs.unique hout)⟩
    rw [← hs.unique he']
    exact hs'

/-! ### Cut off anywhere -/

/-- Work on `s` goes on: insertion and vacuum succeed as far as the host has room, and a scan
fails only where it failed on `s₀` already. -/
def WorksOn (s₀ s : Store) : Prop :=
  (∀ root (d : PreparedDocument), root.Valid s.layout →
    ∀ e, (insert root d s).result = .error e → Exhausted e) ∧
  (∀ removable, ∃ stats s', (vacuum removable).Completes s stats s') ∧
  ∀ z q memoryBytes, ∃ r, ScanResult s z q memoryBytes r ∧
    ∀ e, r = .error e → ScanResult s₀ z q memoryBytes (.error e)

theorem Reachable.worksOn {s₀ : Store} {docs₀ : List LiveDoc} (h₀ : Reachable s₀ docs₀)
    (h : Reachable s docs) : WorksOn s₀ s := by
  obtain ⟨m, hw, hv⟩ := h.good
  refine ⟨fun root d hroot e he => ?_, fun removable => ?_, fun z q memoryBytes => ?_⟩
  · have := (insert_spec d hw hv hroot).spec.2
    rwa [he] at this
  · obtain ⟨stats, s', hc, -⟩ := vacuum_completes hw hv removable
    exact ⟨stats, s', hc⟩
  · refine ⟨_, h.good.scanResult z q memoryBytes, fun e he => ?_⟩
    have hs := h₀.good.scanResult z q memoryBytes
    rcases answer_decides z q memoryBytes with ⟨hit, flag, hd⟩ | ⟨e', he'⟩
    · obtain ⟨out, hout, -⟩ := hd.emits docs
      exact nomatch hout.symm.trans he
    · rw [he'] at he hs
      rwa [← he]

/-- An insertion cut off anywhere is cut off before its publication record or complete.  Cut off
before, it changes no result and is cleaned up by the next vacuum, whatever is inserted until then;
complete, it adds its root where queries match; and from either state every later run finds work
going on. -/
theorem insert_cut_safe (h : Reachable s docs) (hroot : root.Valid s.layout) :
    (∀ s', (insert root d).Crash s s' →
      (prepareInsert root d).Crash s s' ∨ ∃ owner, (insert root d).Completes s owner s') ∧
    (∀ s', (prepareInsert root d).Crash s s' → SameResults s s' ∧
      (∀ s'' docs'', Relation.ReflTransGen InsertStep (s', docs) (s'', docs'') →
        VacuumCleans s s' s'') ∧
      ∀ s'' docs'', Relation.ReflTransGen Step (s', docs) (s'', docs'') → WorksOn s s'') ∧
    ∀ owner s', (insert root d).Completes s owner s' → Gains s s' root d.document ∧
      ∀ s'' docs'', Relation.ReflTransGen Step (s', docs ++ [⟨owner, root, d.document⟩])
        (s'', docs'') → WorksOn s s'' := by
  refine ⟨fun s' => insert_crash_cases, fun s' hc => ?_, fun owner s' hc => ?_⟩
  · have hr : Reachable s' docs := h.step (.insertCut hroot hc)
    obtain ⟨m, hw, hv⟩ := h.good.toSettled
    have hgood : Good True (settledView s docs) s' :=
      (prepareInsert_spec d hw hv hroot).spec.crash ⟨m, hw, hv⟩ hc
    exact ⟨h.good.sameResults hr.good,
      fun s'' docs'' hrun => vacuum_cleans h.good (inserted_run hgood hrun),
      fun s'' docs'' hrun => h.worksOn (hr.run hrun)⟩
  · have hr : Reachable s' (docs ++ [⟨owner, root, d.document⟩]) := h.step (.insert hroot hc)
    exact ⟨h.good.gains hr.good rfl, fun s'' docs'' hrun => h.worksOn (hr.run hrun)⟩

end

/-- A document that does not fit beside its owner. -/
def longDocument : PreparedDocument where
  document := (List.range 8).map fun i => (98 + i.toUInt8) :: List.replicate 1023 97
  terms_ok := by decide +kernel
  tokens_le := by decide +kernel
  bytes_le := by decide +kernel

/-- Its insertion behind `alpha`, cut off when the second of its fragments had a block. -/
def cutStore : Store :=
  (prepareInsert ⟨0, 2⟩ longDocument (alphaStore 1)).trace[3]?.getD (alphaStore 1)

theorem cutStore_facts :
    (prepareInsert ⟨0, 2⟩ longDocument (alphaStore 1)).trace[3]?.isSome = true ∧
      pageKinds cutStore = [.info, .owners, .dictionary, .fragment, .zero] ∧
      RootTid.Valid cutStore.layout ⟨0, 3⟩ ∧
      (insert ⟨0, 3⟩ alphaDocument cutStore).result = .ok ⟨1, 2, 3⟩ := by decide +kernel

theorem cutStore_cut : (prepareInsert ⟨0, 2⟩ longDocument).Crash (alphaStore 1) cutStore := by
  obtain ⟨s', hs'⟩ := Option.isSome_iff_exists.1 cutStore_facts.1
  rw [cutStore, hs']
  exact .inr (List.mem_of_getElem? hs')

/-- The insertion of a long document is cut off with a fragment and an unwritten page, and `alpha`
is inserted behind it; or a second `alpha` is inserted. -/
theorem insert_cut_safe_alpha :
    (∃ docs s', (prepareInsert ⟨0, 2⟩ longDocument).Crash (alphaStore 1) cutStore ∧
      SameResults (alphaStore 1) cutStore ∧
      pageKinds cutStore = [.info, .owners, .dictionary, .fragment, .zero] ∧
      Relation.ReflTransGen InsertStep (cutStore, docs)
        (s', docs ++ [⟨⟨1, 2, 3⟩, ⟨0, 3⟩, alphaDocument.document⟩]) ∧
      VacuumCleans (alphaStore 1) cutStore s' ∧ WorksOn (alphaStore 1) s') ∧
    ∃ owner s', (insert ⟨0, 2⟩ alphaDocument).Completes (alphaStore 1) owner s' ∧
      Gains (alphaStore 1) s' ⟨0, 2⟩ alphaDocument.document := by
  obtain ⟨x, y, z, h, -⟩ := alphaStore_reachable
  have hroot : RootTid.Valid (alphaStore 1).layout ⟨0, 2⟩ := by decide +kernel
  obtain ⟨-, hkinds, hvalid, hresult⟩ := cutStore_facts
  constructor
  · obtain ⟨-, hprepare, -⟩ := insert_cut_safe (d := longDocument) h hroot
    obtain ⟨hsame, hcleans, hworks⟩ := hprepare cutStore cutStore_cut
    have hlater : (insert ⟨0, 3⟩ alphaDocument).Completes cutStore ⟨1, 2, 3⟩
        (insert ⟨0, 3⟩ alphaDocument cutStore).final := ⟨hresult, rfl⟩
    refine ⟨[⟨x, ⟨0, 1⟩, alphaDocument.document⟩],
      (insert ⟨0, 3⟩ alphaDocument cutStore).final, cutStore_cut, hsame, hkinds, ?_, ?_, ?_⟩
    · exact .single (InsertStep.insert hvalid hlater)
    · exact hcleans _ _ (.single (InsertStep.insert hvalid hlater))
    · exact hworks _ _ (.single (Step.insert hvalid hlater))
  · obtain ⟨-, -, hinsert⟩ := insert_cut_safe (d := alphaDocument) h hroot
    obtain ⟨owner, hc⟩ := completes_of_isOk (x := insert ⟨0, 2⟩ alphaDocument) (s := alphaStore 1)
      (by decide +kernel)
    exact ⟨owner, _, hc, (hinsert owner _ hc).1⟩

end PinCore
