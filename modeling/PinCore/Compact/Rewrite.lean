import PinCore.Compact.Output

/-!
# Rewriting a chain

The loop that copies the live postings of a chain to output pages, and the commit that switches
the entry to them.
-/

namespace PinCore

open Prog

section

variable {strong : Prop} {s s' s'' : Store} {m : MetaBody} {V : View} {t : TermRef} {e : Entry}
  {direct : Bool} {b : ℕ} {o : OwnerRef} {root : RootTid} {st : RewriteState}
  {emitted : List OwnerRef}

/-! ### The copying loop -/

/-- The page being filled holds `pend`; a block was taken for it. -/
def OutOk (s : Store) (m : MetaBody) (direct : Bool) (t : TermRef) (st : RewriteState)
    (pend : List OwnerRef) : Prop :=
  match st.output with
  | none => pend = [] ∧ st.info = metaPage m
  | some builder => ∃ b free, OutSlot s m b free ∧ pend ≠ [] ∧
    st.info = metaPage (m.withJournal m.journal free) ∧ builder = outBuilder s direct b t pend ∧
    (outPage s direct b t pend).Valid s.layout

/-- The loop has emitted the live postings `emitted`. -/
structure Emitted (strong : Prop) (V : View) (t : TermRef) (e : Entry) (core : MetaBody)
    (direct : Bool) (s : Store) (st : RewriteState) (emitted : List OwnerRef) : Prop where
  state : ∃ m cs done pend, emitted = done ++ pend ∧ Building strong V t e s m cs done ∧
    OutOk s m direct t st pend ∧ m.core = core
  refs : OutRefs s emitted

variable {core : MetaBody}

theorem OutRefs.same (h : Same (· = .owners) s s') {refs : List OwnerRef} (hr : OutRefs s refs) :
    OutRefs s' refs :=
  ⟨fun r hm => by rw [Store.rootOf_same h]; exact hr.live r hm, hr.sorted⟩

theorem OffStep.refl (s : Store) : OffStep s s :=
  ⟨rfl, Same.refl s, Same.refl s, fun _ _ _ _ => rfl, fun _ _ => Iff.rfl⟩

theorem OffStep.grow (hp : PagesOk s) : OffStep s s.grow :=
  ⟨rfl, same_grow hp _, same_grow hp _, fun _ _ b _ => by rw [grow_page hp],
    fun _ _ => posted_same (same_grow hp _)⟩

theorem CacheOk.same {cache : Option Page} (h : Same (· = .owners) s s') (hc : CacheOk s cache) :
    CacheOk s' cache := by
  intro p hp
  obtain ⟨h₁, h₂⟩ := hc p hp
  exact ⟨by rw [h.page _ (.inl h₂)]; exact h₁, by rw [h.body (.inl h₂)]; exact h₂⟩

/-- The next live posting follows what was emitted. -/
theorem OutRefs.concat (h : OutRefs s emitted) (hl : s.rootOf o = some root)
    (hb : ∀ r ∈ emitted, r.Before o) : OutRefs s (emitted ++ [o]) := by
  refine ⟨fun r hr => ?_, List.pairwise_append.2 ⟨h.sorted, List.pairwise_singleton _ _, ?_⟩⟩
  · rcases List.mem_append.1 hr with hr | hr
    · exact h.live r hr
    · rw [List.mem_singleton.1 hr, hl]; exact Option.some_ne_none _
  · intro r hr r' hr'
    rw [List.mem_singleton.1 hr']
    exact hb r hr

theorem OutRefs.right {xs ys : List OwnerRef} (h : OutRefs s (xs ++ ys)) : OutRefs s ys :=
  ⟨fun r hr => h.live r (List.mem_append_right _ hr), (List.pairwise_append.1 h.sorted).2.1⟩

theorem deltaOk (hp : PagesOk s) (hl : s.rootOf o = some root) {refs : List OwnerRef}
    (hb : ∀ r ∈ refs, r.Before o) : SealedBuilder.DeltaOk o refs.getLast? := by
  obtain ⟨x, hx, -⟩ := Store.rootOf_eq_some hl
  have hv := hx.valid hp
  exact ⟨fun p hp' => hb p (List.mem_of_getLast? hp'), hv.1, hv.2.1⟩

/-- Starting a page never fails: a fresh page has room. -/
theorem startOutput_spec {cs : List ℕ} {done : List OwnerRef}
    (h : Building strong V t e s m cs done) (hcore : m.core = core) (hr : OutRefs s done)
    (hinfo : st.info = metaPage m) (hl : s.rootOf o = some root) (hb : ∀ r ∈ done, r.Before o) :
    Spec HostRefused (Good strong V) s (startOutput direct t o root st) fun st' s' =>
      Emitted strong V t e core direct s' st' (done ++ [o]) ∧ OffStep s s' := by
  unfold startOutput
  rw [hinfo]
  refine Spec.ofExcept_bind (metaPage_freeHead h.wf.metaOk) ?_
  refine outputBlock_spec h fun s' b free hs hbuild hslot => ?_
  have hstep : OffStep s s' := by
    rcases hs with rfl | ⟨-, rfl⟩
    · exact OffStep.refl _
    · exact OffStep.grow h.wf.pages
  have hw := hbuild.wf
  obtain ⟨-, -, hbv, -⟩ := hslot.old hw
  have ht := termRef_ok hw hbuild.entry
  have hl' : s'.rootOf o = some root := by rw [Store.rootOf_same hstep.owners]; exact hl
  have hnew : (if direct then SealedBuilder.newDirect b t else SealedBuilder.new b t) =
      .ok (outBuilder s' direct b t []) := by
    cases direct
    · simp only [Bool.false_eq_true, if_false, SealedBuilder.new, postings_new ht hbv]; rfl
    · simp only [if_true, SealedBuilder.newDirect, postings_new ht hbv]; rfl
  refine Spec.ofExcept_bind hnew ?_
  have hd : SealedBuilder.DeltaOk o ([] : List OwnerRef).getLast? :=
    deltaOk hw.pages hl' fun r hr => absurd hr List.not_mem_nil
  have hpush := pushOutput_eq direct b t hd hl'
  rw [if_neg outPage_room] at hpush
  refine Spec.ofExcept_bind hpush
    (Spec.pure ⟨⟨⟨m, cs, done, [o], rfl, hbuild, ?_, hcore⟩, ?_⟩, hstep⟩)
  · have hnil : OutRefs s' [] := ⟨fun _ hr => absurd hr List.not_mem_nil, List.Pairwise.nil⟩
    have hone : OutRefs s' [o] := hnil.concat hl' fun _ hr => absurd hr List.not_mem_nil
    refine ⟨b, free, hslot, List.cons_ne_nil _ _, rfl, rfl, ?_⟩
    refine outPage_valid hw.pages ht hbv hone (List.cons_ne_nil _ _) ?_
    have hlen : (outPage s' direct b t ([] ++ [o])).len = _ := outPage_len_concat
    rw [List.nil_append] at hlen
    rw [hlen]
    exact Nat.not_lt.1 outPage_room
  · exact (hr.same hstep.owners).concat hl' hb

theorem outBuilder_finish {refs : List OwnerRef} (hne : refs ≠ []) :
    (outBuilder s direct b t refs).finish = .ok (outPage s direct b t refs) := by
  have hrefs : (outBuilder s direct b t refs).page.body.postingRefs = refs := outBody_refs
  exact if_neg (by rw [hrefs]; exact hne)

/-- A posting goes to the open page, or to a new one after the full page was persisted. -/
theorem emitOutput_spec (h : Emitted strong V t e core direct s st emitted)
    (hl : s.rootOf o = some root) (hb : ∀ r ∈ emitted, r.Before o) :
    Spec HostRefused (Good strong V) s (emitOutput direct t o root st) fun st' s' =>
      Emitted strong V t e core direct s' st' (emitted ++ [o]) ∧ OffStep s s' := by
  obtain ⟨⟨m, cs, done, pend, rfl, hbuild, hout, hcore⟩, hrefs⟩ := h
  have hw := hbuild.wf
  unfold emitOutput
  unfold OutOk at hout
  cases ho : st.output with
  | none =>
    rw [ho] at hout
    obtain ⟨rfl, hinfo⟩ := hout
    rw [List.append_nil] at hrefs hb ⊢
    exact startOutput_spec hbuild hcore hrefs hinfo hl hb
  | some builder =>
    rw [ho] at hout
    obtain ⟨b, free, hslot, hne, hinfo, rfl, hv⟩ := hout
    have hpend : ∀ r ∈ pend, r.Before o := fun r hr => hb r (List.mem_append_right _ hr)
    refine Spec.ofExcept_bind (pushOutput_eq direct b t (deltaOk hw.pages hl hpend) hl) ?_
    by_cases hfull : capacity < (outPage s direct b t pend).len + outDelta direct pend o
    · rw [if_pos hfull]
      refine Spec.ofExcept_bind (outBuilder_finish hne) ?_
      rw [hinfo]
      refine (persistOutput_spec hbuild hslot hv hrefs.right hrefs.sorted).bind ?_
      rintro _ s' ⟨m', rfl, hbuild', hoff, hcore'⟩
      have hl' : s'.rootOf o = some root := by rw [Store.rootOf_same hoff.owners]; exact hl
      refine (startOutput_spec hbuild' (hcore'.trans hcore)
        (hrefs.same hoff.owners) rfl hl' hb).post ?_
      rintro st' s'' ⟨hem, hoff'⟩
      exact ⟨hem, hoff.trans hoff'⟩
    · rw [if_neg hfull]
      have hcat := hrefs.concat hl hb
      rw [List.append_assoc] at hcat ⊢
      refine Spec.pure ⟨⟨⟨m, cs, done, pend ++ [o], rfl, hbuild, ?_, hcore⟩, hcat⟩, OffStep.refl _⟩
      refine ⟨b, free, hslot, by simp, hinfo, rfl, ?_⟩
      obtain ⟨-, -, hbv, -⟩ := hslot.old hw
      refine outPage_valid hw.pages (termRef_ok hw hbuild.entry) hbv hcat.right (by simp) ?_
      rw [outPage_len_concat]
      exact Nat.not_lt.1 hfull

/-- The owners of a list of postings that are live. -/
def liveRefs (s : Store) (refs : List OwnerRef) : List OwnerRef :=
  refs.filter fun r => s.rootOf r ≠ none

theorem liveRefs_same (h : Same (· = .owners) s s') (refs : List OwnerRef) :
    liveRefs s' refs = liveRefs s refs := by
  unfold liveRefs
  simp only [Store.rootOf_same h]

theorem liveRefs_append (s : Store) (xs ys : List OwnerRef) :
    liveRefs s (xs ++ ys) = liveRefs s xs ++ liveRefs s ys := List.filter_append ..

/-- The live postings of one source page are emitted in order. -/
theorem rewriteRefs_spec {refs : List OwnerRef} {cache : Option Page}
    (h : Emitted strong V t e core direct s st emitted) (hp : PagesOk s) (hc : CacheOk s cache)
    (hk : ∀ r ∈ refs, s.Known r) (ho : (emitted ++ refs).Pairwise OwnerRef.Before) :
    Spec HostRefused (Good strong V) s (rewriteRefs direct t refs cache st) fun x s' =>
      Emitted strong V t e core direct s' x.2 (emitted ++ liveRefs s refs) ∧ CacheOk s' x.1 ∧
        OffStep s s' := by
  induction refs generalizing s cache st emitted with
  | nil =>
    refine Spec.pure ⟨?_, hc, OffStep.refl _⟩
    rw [show liveRefs s [] = [] from rfl, List.append_nil]
    exact h
  | cons r rs ih =>
    have hks : ∀ x ∈ rs, s.Known x := fun x hx => hk x (List.mem_cons_of_mem _ hx)
    refine Spec.reading_bind (resolve_returns hp hc (hk r List.mem_cons_self)) ?_
    rintro ⟨root, cache'⟩ ⟨hroot, hc'⟩
    have hroot' : s.rootOf r = root := Eq.symm hroot
    cases root with
    | none =>
      have hlive : liveRefs s (r :: rs) = liveRefs s rs := by
        rw [liveRefs, liveRefs, List.filter_cons, if_neg]
        simpa using hroot'
      rw [hlive]
      refine ih h hp hc' hks (ho.sublist ?_)
      exact List.Sublist.append (List.Sublist.refl _) (List.sublist_cons_self _ _)
    | some root =>
      have hlive : liveRefs s (r :: rs) = [r] ++ liveRefs s rs := by
        rw [liveRefs, liveRefs, List.filter_cons, if_pos]
        · rfl
        · simp [hroot']
      have hb : ∀ x ∈ emitted, x.Before r := fun x hx =>
        (List.pairwise_append.1 ho).2.2 x hx r List.mem_cons_self
      refine (emitOutput_spec h hroot' hb).bind ?_
      rintro st' s' ⟨hem, hoff⟩
      obtain ⟨m', _, _, _, -, hbuild', -, -⟩ := hem.state
      refine (ih hem hbuild'.wf.pages (hc'.same hoff.owners)
        (fun x hx => (Store.known_same hoff.owners).2 (hks x hx)) ?_).post ?_
      · rw [List.append_assoc]; exact ho
      · rintro ⟨cache'', st''⟩ s'' ⟨hem', hc'', hoff'⟩
        refine ⟨?_, hc'', hoff.trans hoff'⟩
        rw [hlive, ← List.append_assoc, ← liveRefs_same hoff.owners]
        exact hem'

/-- The live postings of the pages from `b` to the end of the entry's chain are emitted. -/
theorem rewriteFrom_spec {as cs : List ℕ} {remaining : ℕ} {cache : Option Page}
    (h : Emitted strong V t e core direct s st emitted)
    (hch : Chain s t e.head e.tail (as ++ b :: cs)) (hc : CacheOk s cache)
    (hrem : cs.length < remaining)
    (ho : (emitted ++ chainRefs s (b :: cs)).Pairwise OwnerRef.Before) :
    Spec HostRefused (Good strong V) s
    (rewriteFrom direct t e.tail remaining b cache st) fun st' s' =>
      Emitted strong V t e core direct s' st' (emitted ++ liveRefs s (chainRefs s (b :: cs))) ∧
        OffStep s s' := by
  induction remaining generalizing s b as cs cache st emitted with
  | zero => exact absurd hrem (Nat.not_lt_zero _)
  | succ remaining ih =>
    obtain ⟨m, _, _, _, -, hbuild, -, -⟩ := h.state
    have hw := hbuild.wf
    have hentry : EntryChain s t e (as ++ b :: cs) := (entryChain_of_ne hbuild.linked.1).2 hch
    have htb := hch.tagged b (by simp)
    have hsplit : chainRefs s (b :: cs) = (s.body b).postingRefs ++ chainRefs s cs := rfl
    rw [hsplit, ← List.append_assoc] at ho
    refine Spec.reading_bind (loadPosting_returns hw.pages htb) ?_
    rintro _ rfl
    refine Spec.ofExcept_bind (postingRefs_eq hw.pages htb) ?_
    refine (rewriteRefs_spec h hw.pages hc (fun r hm => hw.refs.posting b r hm)
      (List.pairwise_append.1 ho).1).bind ?_
    rintro ⟨cache', st'⟩ s' ⟨hem, hc', hoff⟩
    have hpage : ∀ d ∈ as ++ b :: cs, s'.page d = s.page d := hoff.chain hbuild.entry hentry
    have htail : e.tail = lastD noBlock (b :: cs) := by rw [hch.tail_eq, lastD_append_cons]
    have hnext := postingNext_eq hch.linked.suffix htail (hw.pages.block b) hrem
    refine Spec.ofExcept_bind hnext ?_
    cases cs with
    | nil =>
      refine Spec.pure ⟨?_, hoff⟩
      rw [hsplit, show chainRefs s [] = [] from rfl, List.append_nil]
      exact hem
    | cons c cs =>
      have hpage' : ∀ d ∈ c :: cs, s'.page d = s.page d := fun d hd =>
        hpage d (by simp only [List.mem_append, List.mem_cons] at hd ⊢; tauto)
      have hch' : Chain s' t e.head e.tail ((as ++ [b]) ++ c :: cs) := by
        rw [List.append_assoc]; exact hch.congr hpage
      refine (ih hem hch' hc' ?_ ?_).post ?_
      · simp only [List.length_cons] at hrem; omega
      · rw [chainRefs_congr hpage']
        refine ho.sublist ?_
        exact ((List.Sublist.refl _).append List.filter_sublist).append (List.Sublist.refl _)
      · rintro st'' s'' ⟨hem', hoff'⟩
        refine ⟨?_, hoff.trans hoff'⟩
        rw [chainRefs_congr hpage', liveRefs_same hoff.owners, List.append_assoc, ← liveRefs_append]
          at hem'
        exact hem'

/-- After the last page was persisted, the output chain holds everything emitted. -/
theorem finishOutput_spec (h : Emitted strong V t e core direct s st emitted) :
    Spec HostRefused (Good strong V) s (finishOutput st) fun st' s' =>
      ∃ m cs, st'.info = metaPage m ∧ Building strong V t e s' m cs emitted ∧ m.core = core ∧
        OffStep s s' := by
  obtain ⟨⟨m, cs, done, pend, rfl, hbuild, hout, hcore⟩, hrefs⟩ := h
  unfold finishOutput
  unfold OutOk at hout
  cases ho : st.output with
  | none =>
    rw [ho] at hout
    obtain ⟨rfl, hinfo⟩ := hout
    refine Spec.pure ⟨m, cs, hinfo, ?_, hcore, OffStep.refl _⟩
    rw [List.append_nil]
    exact hbuild
  | some builder =>
    rw [ho] at hout
    obtain ⟨b, free, hslot, hne, hinfo, rfl, hv⟩ := hout
    refine Spec.ofExcept_bind (outBuilder_finish hne) ?_
    rw [hinfo]
    refine (persistOutput_spec hbuild hslot hv hrefs.right hrefs.sorted).bind ?_
    rintro _ s' ⟨m', rfl, hbuild', hoff, hcore'⟩
    exact Spec.pure ⟨m', cs ++ [b], rfl, hbuild', hcore'.trans hcore, hoff⟩

end

end PinCore
