import PinCore.Run.Queries

/-!
# Compaction over runs

A compaction of a reachable store succeeds and changes no query result, unless a promoted entry
has lost every owner of its chain.  Cut off anywhere, compaction and recovery leave a store with
the same results, which one recovery tidies up.
-/

namespace PinCore

open Prog

section

variable {s s' : Store} {docs : List LiveDoc} {mode : CompactMode}

/-- No scan tells the two stores apart. -/
def SameResults (s s' : Store) : Prop :=
  ∀ z q memoryBytes r, ScanResult s z q memoryBytes r ↔ ScanResult s' z q memoryBytes r

theorem Good.sameResults {V : View} (h : Good True V s) (h' : Good True V s') :
    SameResults s s' :=
  fun _ _ _ _ => ⟨.transfer h h' rfl, .transfer h' h rfl⟩

/-- The compaction returns, every image it commits is valid, and every query of terms,
conjunctions and disjunctions has the result it had. -/
def CompactKeeps (s : Store) (mode : CompactMode) : Prop :=
  ∃ stats s', (compactWithMode mode).Completes s stats s' ∧
    (∀ c ∈ (compactWithMode mode s).trace, ∀ b, (c.page b).Valid c.layout) ∧
    ∀ z q memoryBytes r, q.Exact →
      (ScanResult s z q memoryBytes r ↔ ScanResult s' z q memoryBytes r)

/-- Compaction keeps its promise on exactly the stores without a promoted entry whose chain is
dead. -/
theorem compact_keeps_iff (h : Reachable s docs) (mode : CompactMode)
    (hhost : (compactWithMode mode s).result ≠ .error .host) :
    CompactKeeps s mode ↔ ¬ s.HasDeadChain := by
  obtain ⟨m, hw, hv⟩ := h.good
  constructor
  · rintro ⟨stats, s', hc, -⟩ hd
    exact (compactWithMode_fails hw hv hd).completes hc
  · intro hd
    have hspec : Spec HostRefused (Good True (openView docs)) s (compactWithMode mode) _ :=
      compactWithMode_spec hw hv hd
    obtain ⟨stats, s', hc, m', hw', hv', -⟩ := hspec.exists_completes
      fun e he hrefused => hhost (by rw [he, show e = .host from hrefused])
    refine ⟨stats, s', hc, fun c hc b => ?_, fun z q memoryBytes r _ => ?_⟩
    · obtain ⟨mc, hwc, -⟩ := hspec.1 c hc
      exact hwc.pages.valid b
    · exact Good.sameResults ⟨m, hw, hv⟩ ⟨m', hw', hv'⟩ z q memoryBytes r

/-- Four owners of `alpha`, of which vacuum removed the third: the chain of the promoted entry
lost one posting and keeps another. -/
def alphaPruned : Store := (vacuum (fun r => r.offset == 3) (alphaStore 4)).final

/-- The third owner promotes the entry of `alpha`; once vacuum removed it, compaction fails. -/
def alphaRemoved : Store := (vacuum (fun r => r.offset != 1) (alphaStore 3)).final

theorem alphaPruned_reachable : ∃ docs, Reachable alphaPruned docs := by
  obtain ⟨x, y, z, -, h⟩ := alphaStore_reachable
  obtain ⟨w, hw⟩ : ∃ w, (insert ⟨0, 4⟩ alphaDocument).Completes (alphaStore 3) w (alphaStore 4) :=
    completes_of_isOk (by decide +kernel)
  obtain ⟨stats, hv⟩ : ∃ stats, (vacuum fun r => r.offset == 3).Completes (alphaStore 4) stats
      alphaPruned := completes_of_isOk (by decide +kernel)
  exact ⟨_, (h.step (.insert (by decide +kernel) hw)).step (.vacuum hv)⟩

theorem alphaRemoved_reachable : ∃ docs, Reachable alphaRemoved docs := by
  obtain ⟨x, y, z, -, h⟩ := alphaStore_reachable
  obtain ⟨stats, hv⟩ : ∃ stats, (vacuum fun r => r.offset != 1).Completes (alphaStore 3) stats
      alphaRemoved := completes_of_isOk (by decide +kernel)
  exact ⟨_, h.step (.vacuum hv)⟩

theorem compact_alphaPruned :
    (compactWithMode .copy alphaPruned).result.isOk = true ∧
      pageKinds alphaPruned = [.info, .owners, .dictionary, .postings] ∧
      pageKinds (compactWithMode .copy alphaPruned).final =
        [.info, .owners, .dictionary, .free, .sealedPostings] := by decide +kernel

theorem compact_alphaRemoved : (compactWithMode .copy alphaRemoved).result = .error .codec := by
  decide +kernel

/-- One posting of a chain removed, compaction moves the other to a sealed page and keeps every
result; the whole chain removed, it fails. -/
theorem compact_keeps_alpha :
    (CompactKeeps alphaPruned .copy ∧ ¬ alphaPruned.HasDeadChain ∧
      pageKinds alphaPruned = [.info, .owners, .dictionary, .postings] ∧
      pageKinds (compactWithMode .copy alphaPruned).final =
        [.info, .owners, .dictionary, .free, .sealedPostings]) ∧
      ¬ CompactKeeps alphaRemoved .copy ∧ alphaRemoved.HasDeadChain := by
  obtain ⟨docs, h⟩ := alphaPruned_reachable
  obtain ⟨docs', h'⟩ := alphaRemoved_reachable
  obtain ⟨hok, hkinds⟩ := compact_alphaPruned
  obtain ⟨stats, hc⟩ := completes_of_isOk hok
  constructor
  · have hd : ¬ alphaPruned.HasDeadChain := by
      obtain ⟨m, hw, hv⟩ := h.good
      exact fun hd => (compactWithMode_fails hw hv hd).completes hc
    have hiff := compact_keeps_iff h .copy (by rw [hc.1]; rintro ⟨⟩)
    exact ⟨hiff.2 hd, hd, hkinds⟩
  · have hfails : ¬ CompactKeeps alphaRemoved .copy := by
      rintro ⟨_, _, ⟨hok, -⟩, -⟩
      rw [compact_alphaRemoved] at hok
      cases hok
    have hiff := compact_keeps_iff h' .copy (by rw [compact_alphaRemoved]; decide)
    exact ⟨hfails, not_not.1 fun hd => hfails (hiff.2 hd)⟩

/-- Compaction does not keep its promise on every reachable store. -/
theorem compact_keeps_refuted : ¬ ∀ s docs mode, Reachable s docs →
    (compactWithMode mode s).result ≠ .error .host → CompactKeeps s mode := by
  intro h
  obtain ⟨docs, hr⟩ := alphaRemoved_reachable
  obtain ⟨_, _, ⟨hok, -⟩, -⟩ := h _ _ .copy hr (by rw [compact_alphaRemoved]; decide)
  rw [compact_alphaRemoved] at hok
  cases hok

/-! ### Recovery -/

/-- Recovery of `s` returns, clears the journal, frees exactly the pages of the journal chain,
changes no result and leaves nothing to a second recovery. -/
def RecoversClean (s : Store) : Prop :=
  ∃ m bs s' m', s.page 0 = metaPage m ∧ JournalPages s m bs ∧
    recoverCompaction.Completes s bs.length s' ∧ s'.page 0 = metaPage m' ∧ m'.journal = none ∧
    (∀ b ∈ bs, (s'.body b).kind = .free) ∧ (∀ b, b ≠ 0 → b ∉ bs → s'.page b = s.page b) ∧
    FreeOk s' m'.freeHead ∧ SameResults s s' ∧
    (recoverCompaction s').result = .ok 0 ∧ (recoverCompaction s').final = s' ∧
    (recoverCompaction s').trace = []

theorem recoverCompaction_idle {m : MetaBody} (h : WF True s m) (hj : m.journal = none) :
    (recoverCompaction s).result = .ok 0 ∧ (recoverCompaction s).final = s ∧
      (recoverCompaction s).trace = [] := by
  have hspec : Spec (fun _ => False) (fun _ => False) s recoverCompaction fun n s' =>
      n = 0 ∧ s' = s := by
    refine Spec.reading_bind h.loadInfo ?_
    rintro _ rfl
    refine Spec.ofExcept_bind (metaPage_rewriteJournal h.metaOk) ?_
    rw [hj]
    exact Spec.pure ⟨rfl, rfl⟩
  obtain ⟨n, s', ⟨hr, hf⟩, rfl, rfl⟩ := hspec.exists_completes fun _ _ => id
  exact ⟨hr, hf, List.eq_nil_iff_forall_not_mem.2 hspec.1⟩

theorem Good.recoversClean {V : View} (h : Good True V s) : RecoversClean s := by
  obtain ⟨m, hw, hv⟩ := h
  obtain ⟨n, s', hc, bs, hbs, rfl, hfreed, -⟩ :=
    (recoverCompaction_spec (E := fun _ => False) hw hv).exists_completes fun _ _ => id
  obtain ⟨free, hw'⟩ := hfreed.wf
  refine ⟨m, bs, s', _, hw.info, hbs, hc, hw'.info, rfl, hfreed.freed, hfreed.other, hw'.free, ?_,
    recoverCompaction_idle hw' rfl⟩
  exact Good.sameResults ⟨m, hw, hv⟩ ⟨_, hw', hv.of_step hfreed.off⟩

/-- A compaction or a recovery cut off anywhere leaves every result alone, and one recovery
finishes the job. -/
theorem compaction_cut_recovers (h : Reachable s docs) (mode : CompactMode)
    (hcut : (compactWithMode mode).Crash s s' ∨ recoverCompaction.Crash s s') :
    SameResults s s' ∧ RecoversClean s' := by
  have hr : Reachable s' docs := by
    rcases hcut with hc | hc
    · exact h.step (.compactCut hc)
    · exact h.step (.recoverCut hc)
  exact ⟨h.good.sameResults hr.good, hr.good.recoversClean⟩

set_option maxRecDepth 10000 in
/-- A compaction of a store with three owners, cut off after its second durable step. -/
theorem compaction_cut_recovers_alpha :
    ∃ s', (compactWithMode .copy (alphaStore 3)).trace[1]? = some s' ∧
      SameResults (alphaStore 3) s' ∧ RecoversClean s' := by
  obtain ⟨x, y, z, -, h⟩ := alphaStore_reachable
  have hlen : 1 < (compactWithMode .copy (alphaStore 3)).trace.length := by decide +kernel
  refine ⟨_, List.getElem?_eq_getElem hlen, ?_⟩
  exact compaction_cut_recovers h .copy (.inl (.inr (List.getElem_mem hlen)))

end

end PinCore
