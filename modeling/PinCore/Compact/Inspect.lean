import PinCore.Insert.Insert
import PinCore.Mutable.Compact

/-!
# Inspecting a chain

`inspect` passes on every complete chain of a valid store and returns what a fold over its pages
computes.  From the fold: how many postings are dead, and the split of the chain at a retained
prefix.
-/

namespace PinCore

open Obs

/-- The postings of a page whose owner is not live. -/
def deadRefs (s : Store) (b : ℕ) : List OwnerRef :=
  (s.body b).postingRefs.filter fun r => s.rootOf r = none

/-- The fold that `inspect` computes over the pages of a chain. -/
def inspectFold (s : Store) (liveness : Bool) : List ℕ → ChainStats → PrefixState → ChainStats
  | [], stats, _ => stats
  | b :: bs, stats, state =>
    let r := inspectPage (s.page b) b (if liveness then (deadRefs s b).length else 0) stats state
    inspectFold s liveness bs r.1 r.2

section

variable {s : Store} {b : ℕ} {t : TermRef} {e : Entry} {bs cs : List ℕ} {liveness : Bool}

theorem inspectRefs_returns {refs : List OwnerRef} {cache : Option Page}
    {previous : Option OwnerRef} {dead : ℕ} (hp : PagesOk s) (hc : CacheOk s cache)
    (hk : ∀ r ∈ refs, s.Known r) (ho : (previous.toList ++ refs).Pairwise OwnerRef.Before) :
    Returns s (inspectRefs liveness cache previous dead refs) fun x =>
      x.1 = dead + (if liveness then (refs.filter fun r => s.rootOf r = none).length else 0) ∧
      x.2.1 = (if refs = [] then previous else refs.getLast?) ∧ CacheOk s x.2.2 := by
  induction refs generalizing cache previous dead with
  | nil => exact Returns.pure ⟨by cases liveness <;> rfl, rfl, hc⟩
  | cons r rs ih =>
    have hfirst : ∀ p ∈ previous, p.Before r := by
      rintro p ⟨⟩
      exact (List.pairwise_cons.1 ho).1 r List.mem_cons_self
    have hrest : ((some r).toList ++ rs).Pairwise OwnerRef.Before := (List.pairwise_append.1 ho).2.1
    have hlast : (if rs = [] then some r else rs.getLast?) = (r :: rs).getLast? := by
      cases rs with
      | nil => rfl
      | cons a as => simp
    have hks : ∀ x ∈ rs, s.Known x := fun x hx => hk x (List.mem_cons_of_mem _ hx)
    refine Returns.ensure_bind hfirst ?_
    cases liveness with
    | false =>
      refine (ih hc hks hrest).mono fun x hx => ?_
      exact ⟨hx.1, by rw [hx.2.1, if_neg (List.cons_ne_nil _ _)]; exact hlast, hx.2.2⟩
    | true =>
      refine (resolve_returns hp hc (hk r List.mem_cons_self)).bind ?_
      rintro ⟨root, cache'⟩ ⟨hroot, hc'⟩
      refine (ih hc' hks hrest).mono fun x hx => ?_
      refine ⟨?_, by rw [hx.2.1, if_neg (List.cons_ne_nil _ _)]; exact hlast, hx.2.2⟩
      have hroot' : root = s.rootOf r := hroot
      rw [hx.1, hroot', List.filter_cons]
      by_cases hd : s.rootOf r = none
      · simp [hd]; omega
      · simp [hd]

/-- The chain ends where the walk ends. -/
theorem inspectFrom_returns {tail remaining : ℕ} {cache : Option Page} {previous : Option OwnerRef}
    {stats : ChainStats} {state : PrefixState} (hp : PagesOk s) (hr : RefsOk s)
    (hl : Linked s.next noBlock b (b :: cs)) (htail : tail = lastD noBlock (b :: cs))
    (htag : ∀ c ∈ b :: cs, (s.body c).postingTag = some t) (hrem : cs.length < remaining)
    (hc : CacheOk s cache)
    (ho : (previous.toList ++ chainRefs s (b :: cs)).Pairwise OwnerRef.Before) :
    Returns s (inspectFrom t tail liveness remaining b cache previous stats state)
      (· = inspectFold s liveness (b :: cs) stats state) := by
  induction remaining generalizing b cs cache previous stats state with
  | zero => exact absurd hrem (Nat.not_lt_zero _)
  | succ remaining ih =>
    have htb := htag b List.mem_cons_self
    have hsplit : chainRefs s (b :: cs) = (s.body b).postingRefs ++ chainRefs s cs := rfl
    rw [hsplit, ← List.append_assoc] at ho
    refine (loadPosting_returns hp htb).bind ?_
    rintro _ rfl
    refine Returns.ofExcept_bind (postingRefs_eq hp htb) ?_
    refine (inspectRefs_returns hp hc (fun r hm => hr.posting b r hm)
      (List.pairwise_append.1 ho).1).bind ?_
    rintro ⟨dead, previous', cache'⟩ ⟨hdead, hprev, hc'⟩
    have hdead' : dead = if liveness then (deadRefs s b).length else 0 := by
      simpa [deadRefs] using hdead
    obtain rfl := hdead'
    refine Returns.ofExcept_bind (postingNext_eq hl htail (hp.block b) hrem) ?_
    cases cs with
    | nil => exact Returns.ensure_bind hl.2.2 (Returns.pure rfl)
    | cons c cs =>
      refine ih hl.tail ?_ (fun d hd => htag d (List.mem_cons_of_mem _ hd)) ?_ hc' ?_
      · rw [htail, lastD_cons_cons]
      · simp only [List.length_cons] at hrem; omega
      · have hprev' : previous' = if (s.body b).postingRefs = [] then previous
            else (s.body b).postingRefs.getLast? := hprev
        refine ho.sublist (List.Sublist.append ?_ (List.Sublist.refl _))
        rw [hprev']
        split_ifs with hnil
        · rw [hnil, List.append_nil]
        · refine List.Sublist.trans ?_ (List.sublist_append_right _ _)
          rw [List.getLast?_eq_some_getLast hnil]
          exact List.singleton_sublist.2 (List.getLast_mem hnil)

/-- A complete chain passes the inspection. -/
theorem inspect_returns {head tail : ℕ} {previous : Option OwnerRef} (hp : PagesOk s)
    (hr : RefsOk s) (hc : Chain s t head tail bs)
    (ho : (previous.toList ++ chainRefs s bs).Pairwise OwnerRef.Before) :
    Returns s (inspect t head tail previous liveness)
      (· = inspectFold s liveness bs .empty ⟨liveness, none, 0⟩) := by
  unfold inspect
  by_cases hh : head = noBlock
  · obtain rfl := hc.linked.head_eq_stop_iff.1 hh
    rw [if_pos hh]
    exact Returns.ensure_bind hc.tail_eq (Returns.pure rfl)
  · rw [if_neg hh]
    cases bs with
    | nil => exact absurd hc.linked hh
    | cons b cs =>
      obtain rfl : head = b := hc.linked.1
      refine blocks_returns.bind ?_
      rintro _ rfl
      exact inspectFrom_returns hp hr hc.linked hc.tail_eq hc.tagged
        (hc.length_le hp) CacheOk.none ho

/-- An inline second posting passes the inspection as a page of its own. -/
theorem inspect_inline {second : OwnerRef} {p : Bool} (hp : PagesOk s) (hr : RefsOk s)
    (he : s.entry t = some e) (hok : e.Ok p t.page)
    (hin : (e.toTerm t).inlineSecond = some second) (hf : e.first.Before second) :
    Returns s (inspect t e.head e.tail (some e.first) false) fun _ => True := by
  obtain ⟨-, -, hs, hh, ht⟩ := inlineSecond_eq_some hok hin
  have hknown := hr.second t e second he hs
  have hv : second.Valid := by
    obtain ⟨x, hx⟩ := hknown
    exact hx.valid hp
  have hk : (s.body t.page).kind = .dictionary := Store.entry_kind he
  have htok : t.Ok := by
    obtain ⟨q, fs, hq, hfe⟩ := Store.entry_eq_some he
    exact ⟨hp.blockValid (hk.trans_ne (by decide)) (hk.trans_ne (by decide)),
      (findEntry_range hfe).1⟩
  have hload : Returns s (loadPosting t.page t) (· = postingsPage t.page t [second]) := by
    refine (loadAny_returns hp (hp.lt_blocks (hk.trans_ne (by decide)))).bind ?_
    rintro _ rfl
    rw [if_pos (show (s.page t.page).kind = .dictionary from hk)]
    refine Returns.ofExcept_bind (term_eq hp he) ?_
    rw [hin]
    simp only [Option.some_or]
    refine Returns.ensure_bind ?_ ?_
    · rintro ⟨-, h | h⟩
      · exact h hh
      · exact h ht
    refine Returns.ofExcept_bind (postings_new htok htok.1) ?_
    exact Returns.ofExcept_bind (postingsPage_appendPosting hv (Nat.zero_le _)) (Returns.pure rfl)
  unfold inspect
  rw [hh, ht, if_neg htok.1.2]
  refine blocks_returns.bind ?_
  rintro _ rfl
  obtain ⟨n, hn⟩ : ∃ n, s.blocks = n + 1 := ⟨s.blocks - 1, by have := hp.pos; omega⟩
  rw [hn]
  refine hload.bind ?_
  rintro _ rfl
  refine Returns.ofExcept_bind (a := [second]) rfl ?_
  refine (inspectRefs_returns hp CacheOk.none (by simpa using hknown) (by simpa using hf)).bind ?_
  rintro ⟨dead, previous, cache⟩ -
  exact Returns.ofExcept_bind (if_pos rfl) (Returns.ensure_bind rfl (Returns.pure trivial))

/-! ### What the fold says -/

/-- Pages of a prefix that may stay in place. -/
def RetainedPage (s : Store) (b : ℕ) : Prop :=
  (s.body b).kind = .sealedPostings ∧ deadRefs s b = []

/-- The running state after the pages `as`. -/
structure InspectInv (s : Store) (as : List ℕ) (stats : ChainStats) (state : PrefixState) :
    Prop where
  tail : state.isOpen = true → state.tail = as.getLast? ∧ ∀ b ∈ as, RetainedPage s b
  retained : ∀ x ∈ stats.retained, ∃ cs ds, as = cs ++ x.rewriteHead :: ds ∧ cs ≠ [] ∧
    x.boundary = lastD noBlock cs ∧ ∀ b ∈ cs, RetainedPage s b

theorem InspectInv.page {as : List ℕ} {stats : ChainStats} {state : PrefixState}
    (h : InspectInv s as stats state) :
    InspectInv s (as ++ [b]) (inspectPage (s.page b) b (deadRefs s b).length stats state).1
      (inspectPage (s.page b) b (deadRefs s b).length stats state).2 := by
  have hold : ∀ x ∈ stats.retained, ∃ cs ds, as ++ [b] = cs ++ x.rewriteHead :: ds ∧ cs ≠ [] ∧
      x.boundary = lastD noBlock cs ∧ ∀ c ∈ cs, RetainedPage s c := by
    intro x hx
    obtain ⟨cs, ds, heq, hrest⟩ := h.retained x hx
    exact ⟨cs, ds ++ [b], by rw [heq, List.append_assoc]; rfl, hrest⟩
  unfold inspectPage
  simp only
  by_cases hopen : (state.isOpen &&
      decide ((s.page b).kind = .sealedPostings ∧ (deadRefs s b).length = 0)) = true
  · rw [if_pos hopen]
    simp only [Bool.and_eq_true, decide_eq_true_eq] at hopen
    obtain ⟨htail, hall⟩ := h.tail hopen.1
    have hpage : RetainedPage s b := ⟨hopen.2.1, List.eq_nil_of_length_eq_zero hopen.2.2⟩
    refine ⟨fun _ => ⟨List.getLast?_concat.symm, fun c hc => ?_⟩, fun x hx => ?_⟩
    · rcases List.mem_append.1 hc with hc | hc
      · exact hall c hc
      · rw [List.mem_singleton.1 hc]; exact hpage
    · obtain ⟨c, hc, rfl⟩ := Option.map_eq_some_iff.1 hx
      rw [htail] at hc
      refine ⟨as, [], rfl, ?_, ?_, hall⟩
      · rintro rfl; cases hc
      · rw [lastD, hc]; rfl
  · rw [if_neg hopen]
    exact ⟨fun hf => (Bool.false_ne_true hf).elim, hold⟩

theorem InspectInv.fold {as : List ℕ} {stats : ChainStats} {state : PrefixState}
    (h : InspectInv s as stats state) : ∀ x ∈ (inspectFold s true bs stats state).retained,
    ∃ cs ds, as ++ bs = cs ++ x.rewriteHead :: ds ∧ cs ≠ [] ∧
      x.boundary = lastD noBlock cs ∧ ∀ b ∈ cs, RetainedPage s b := by
  induction bs generalizing as stats state with
  | nil => simpa [inspectFold] using h.retained
  | cons b bs ih =>
    have := ih (h.page (b := b))
    rwa [List.append_assoc] at this

/-- A retained prefix splits the chain before the page where rewriting starts. -/
theorem inspectFold_retained {x : RetainedPrefix}
    (h : (inspectFold s true bs .empty ⟨true, none, 0⟩).retained = some x) :
    ∃ cs ds, bs = cs ++ x.rewriteHead :: ds ∧ cs ≠ [] ∧ x.boundary = lastD noBlock cs ∧
      ∀ b ∈ cs, RetainedPage s b := by
  have hinv : InspectInv s [] .empty ⟨true, none, 0⟩ :=
    ⟨fun _ => ⟨rfl, fun _ hb => absurd hb List.not_mem_nil⟩, fun x hx => nomatch hx⟩
  exact hinv.fold x h

theorem inspectFold_mono (bs : List ℕ) (stats : ChainStats) (state : PrefixState) :
    stats.mutablePages ≤ (inspectFold s true bs stats state).mutablePages ∧
      stats.dead ≤ (inspectFold s true bs stats state).dead := by
  induction bs generalizing stats state with
  | nil => exact ⟨Nat.le_refl _, Nat.le_refl _⟩
  | cons b bs ih =>
    have hstep : stats.mutablePages ≤
        (inspectPage (s.page b) b (deadRefs s b).length stats state).1.mutablePages ∧
        stats.dead ≤ (inspectPage (s.page b) b (deadRefs s b).length stats state).1.dead := by
      unfold inspectPage
      simp only
      split_ifs <;> exact ⟨Nat.le_add_right _ _, Nat.le_add_right _ _⟩
    have hrest := ih (inspectPage (s.page b) b (deadRefs s b).length stats state).1
      (inspectPage (s.page b) b (deadRefs s b).length stats state).2
    exact ⟨Nat.le_trans hstep.1 hrest.1, Nat.le_trans hstep.2 hrest.2⟩

/-- A chain whose first page is mutable or holds only dead postings is rewritten. -/
theorem inspectFold_dead (hp : PagesOk s) (htag : (s.body b).postingTag = some t)
    (hdead : ∀ r ∈ (s.body b).postingRefs, s.rootOf r = none) {state : PrefixState} :
    ¬ ((inspectFold s true (b :: bs) .empty state).mutablePages = 0 ∧
      (inspectFold s true (b :: bs) .empty state).dead = 0) := by
  rintro ⟨hm, hd⟩
  have hmono := inspectFold_mono (s := s) bs
    (inspectPage (s.page b) b (deadRefs s b).length .empty state).1
    (inspectPage (s.page b) b (deadRefs s b).length .empty state).2
  have hm' : (inspectPage (s.page b) b (deadRefs s b).length .empty state).1.mutablePages = 0 :=
    Nat.le_zero.1 (hm ▸ hmono.1)
  have hd' : (inspectPage (s.page b) b (deadRefs s b).length .empty state).1.dead = 0 :=
    Nat.le_zero.1 (hd ▸ hmono.2)
  have hk : (s.page b).kind ≠ .postings := by
    intro hk
    unfold inspectPage at hm'
    simp only [hk, if_true] at hm'
    split_ifs at hm'
  have hlen : (deadRefs s b).length = 0 := by
    unfold inspectPage at hd'
    simp only at hd'
    split_ifs at hd'
    all_goals
      simp only [ChainStats.empty] at hd'
      omega
  have hall : deadRefs s b = (s.body b).postingRefs := by
    refine List.filter_eq_self.2 fun r hr => ?_
    simpa using hdead r hr
  rw [hall] at hlen
  exact postingRefs_ne_nil (hp.ok b) htag hk (List.eq_nil_of_length_eq_zero hlen)

end

end PinCore
