import PinCore.Scan.Drain
import PinCore.Scan.Open

/-!
# What a query scan emits

`answer` computes the emitted roots from the live documents alone.  On every store that
satisfies the invariant and shows those documents, the scan terminates with exactly that
answer, so whatever leaves the live documents alone leaves every scan result alone.  While
insertions go on, the scan still terminates, and of the documents there from the start it finds
those that the answer has.
-/

namespace PinCore

open Obs

/-- The roots that the plan of a query emits, given the live documents. -/
def planAnswer (z : Sizes) (q : Query) (memoryBytes : ℕ) (docs : List LiveDoc) :
    Except Error (List (RootTid × Bool)) :=
  match Plan.build z q memoryBytes with
  | .ok _ => .ok ((docs.filter fun v => covers v.document q).map fun v =>
      (v.root, !q.nodes.all Kind.exact))
  | .error _ => do
    let cover ← CandidatePlan.build z q memoryBytes
    .ok ((cover.docs docs).map fun v => (v.root, true))

/-- The roots a scan emits, with their recheck flags, given the live documents. -/
def answer (z : Sizes) (q : Query) (memoryBytes : ℕ) (docs : List LiveDoc) :
    Except Error (List (RootTid × Bool)) :=
  match q.rootKind with
  | .term text =>
    .ok ((docs.filter fun v => decide (text ∈ v.document)).map fun v => (v.root, false))
  | _ => planAnswer z q memoryBytes docs

section

variable {H : ℕ → Store} {F : Store} {K : Set OwnerRef} {t : ℕ} {docs : List LiveDoc}
  {refs : Text → List OwnerRef}

/-- Exact operators never hold of the empty document. -/
theorem coverValues_nil {ks : List Kind} (h : ∀ k ∈ ks, k.exact = true) :
    ∀ b ∈ coverValues [] ks, b = false := by
  induction ks using List.reverseRecOn with
  | nil => exact fun b hb => absurd hb List.not_mem_nil
  | append_singleton ks k ih =>
    have hrest := ih fun k hk => h k (List.mem_append_left _ hk)
    have hget : ∀ i, (coverValues [] ks).getD i false = false := by
      intro i
      rw [List.getD_eq_getElem?_getD]
      cases hi : (coverValues [] ks)[i]? with
      | none => rfl
      | some b => exact hrest b (List.mem_of_getElem? hi)
    have hk := h k (List.mem_append_right _ List.mem_cons_self)
    rw [coverValues_concat]
    intro b hb
    rcases List.mem_append.1 hb with hb | hb
    · exact hrest b hb
    · rw [List.mem_singleton.1 hb]
      cases k with
      | and l r => rw [coverNode, hget, hget]; rfl
      | or l r => rw [coverNode, hget, hget]; rfl
      | none => rfl
      | term t => simp [coverNode]
      | _ => cases hk

/-- A query that holds of every document is not exact. -/
theorem not_exact_of_covers {q : Query} (h : ∀ d, covers d q = true) :
    q.nodes.all Kind.exact = false := by
  by_contra hne
  rw [Bool.not_eq_false, List.all_eq_true] at hne
  have hc := h []
  unfold covers at hc
  rw [List.getD_eq_getElem?_getD] at hc
  cases hi : (coverValues [] q.nodes)[q.root]? with
  | none => rw [hi] at hc; cases hc
  | some b =>
    rw [hi, coverValues_nil hne b (List.mem_of_getElem? hi)] at hc
    cases hc

/-- The owners a cursor tree denotes are those whose document satisfies the tree. -/
theorem Numbered.mem_den {out : List Node} {tree : Tree} {e : Expr} {R : ℕ → List OwnerRef}
    (hn : Numbered out tree e) (hH : History H F K) (hst : Stays H F K docs)
    (hrefs : ∀ x, TermRefs F x (refs x))
    (hR : ∀ i text, Node.term text (some i) ∈ out → Trim K (R i) (refs text)) {v : LiveDoc}
    (hm : v ∈ docs) : v.owner ∈ e.den R ↔ tree.Holds v.document := by
  obtain ⟨m, hF⟩ := hH.final
  induction hn with
  | @term i c text hi =>
    have htrim := hR c text (List.mem_of_getElem? hi)
    change v.owner ∈ R c ↔ text ∈ v.document
    rw [← hst.posted v hm, ← (hrefs text).mem_iff hF]
    exact ⟨fun h => htrim.sublist.subset h, fun h => htrim.keeps _ h (hst.kept v hm)⟩
  | and _ _ ihl ihr => exact and_congr ihl ihr
  | or _ _ ihl ihr => exact or_congr ihl ihr

/-- Known owners in order of place carry increasing incarnations. -/
theorem before_of_lt {strong : Prop} {s : Store} {m : MetaBody} (h : WF strong s m)
    {L : List OwnerRef} (hL : L.Pairwise (· < ·)) (hk : ∀ r ∈ L, s.Known r) :
    L.Pairwise OwnerRef.Before := by
  obtain ⟨bs, ho⟩ := h.owners
  refine hL.imp_of_mem fun {a b} ha hb hlt => ?_
  obtain ⟨o, hao⟩ := hk a ha
  obtain ⟨o', hbo⟩ := hk b hb
  have hpos := (hk a ha).posLt (hk b hb) hlt
  exact ⟨hpos, ho.ordered a b o o' hao hbo hpos⟩

/-- The postings of each cursor of an opened plan. -/
theorem Opened.postings {nodes : List Node} {n : ℕ} {cursors out : List Cursor}
    (h : Opened H F K t refs nodes cursors out) (hc : cursors.length = n)
    (hr : nodes.filterMap Node.cursor? = List.range n) :
    ∃ R, Hold H F K t out R ∧
      ∀ i text, Node.term text (some i) ∈ nodes → Trim K (R i) (refs text) := by
  have hnd : (nodes.filterMap Node.cursor?).Nodup := by rw [hr]; exact List.nodup_range
  have hone : ∀ i, ∃ L, (∀ c, out[i]? = some c → c.Holds H F K t L) ∧
      ∀ text, Node.term text (some i) ∈ nodes → Trim K L (refs text) := by
    intro i
    by_cases hi : i < n
    · have hmem : i ∈ nodes.filterMap Node.cursor? := by rw [hr]; exact List.mem_range.2 hi
      obtain ⟨node, hnode, hcur⟩ := List.mem_filterMap.1 hmem
      obtain ⟨text, rfl⟩ : ∃ text, node = .term text (some i) := by
        rcases node with _ | _ | ⟨t, _ | j⟩ | _ | _ <;> cases hcur
        exact ⟨t, rfl⟩
      obtain ⟨c, hc', L, hold, htrim⟩ := h.holds text i hnode
      refine ⟨L, fun d hd => ?_, fun text' hm' => ?_⟩
      · obtain rfl : d = c := Option.some.inj (hd.symm.trans hc')
        exact hold
      · -- a cursor belongs to one node
        obtain ⟨k, hk⟩ := List.mem_iff_getElem?.1 hnode
        obtain ⟨k', hk'⟩ := List.mem_iff_getElem?.1 hm'
        obtain rfl := cursor?_injective hnd hk hk' rfl rfl
        rw [hk, Option.some.injEq, Node.term.injEq] at hk'
        rwa [← hk'.1]
    · refine ⟨[], fun c hc' => ?_, fun text hm => ?_⟩
      · have := getElem?_lt hc'
        rw [h.length, hc] at this
        exact absurd this hi
      · have := mem_cursors_of_term hm
        rw [hr, List.mem_range] at this
        exact absurd this hi
  choose R hR using hone
  exact ⟨R, fun i => (hR i).1, fun i => (hR i).2⟩

/-- Opening a plan puts every cursor on the owners of its term. -/
theorem openPlan_sees {p : Plan} {n : ℕ} (hH : History H F K) (hrefs : ∀ x, TermRefs F x (refs x))
    (hc : p.cursors = List.replicate n .empty)
    (hr : p.nodes.filterMap Node.cursor? = List.range n) :
    Sees H t p.openPlan fun p' t' => p'.nodes = p.nodes ∧ p'.root = p.root ∧
      p'.cursors.length = p.cursors.length ∧ ∃ R, Hold H F K t' p'.cursors R ∧
        ∀ i text, Node.term text (some i) ∈ p.nodes → Trim K (R i) (refs text) := by
  have hlen : p.cursors.length = n := by rw [hc, List.length_replicate]
  have ho : ∀ t', Opening H F K t' refs [] p.nodes p.cursors := by
    intro t'
    have hlt : ∀ i ∈ p.nodes.filterMap Node.cursor?, i < n := fun i hi => by
      rwa [hr, List.mem_range] at hi
    refine ⟨by rw [hr]; exact List.nodup_range, fun i hi => ?_, fun _ _ _ ht => ?_, ?_⟩
    · rw [hlen]; exact hlt i hi
    · exact absurd ht List.not_mem_nil
    · intro text i hm _
      rw [hc, List.getElem?_replicate, if_pos (hlt i (mem_cursors_of_term hm))]
  unfold Plan.openPlan
  refine (loadInfo_sees hH).bind ?_
  rintro _ t' ht' ⟨t₀, m, -, h₀, rfl, h⟩
  refine (openFrom_sees hH h h₀ hrefs (ho t')).bind ?_
  rintro out t'' - hout
  exact Sees.pure ⟨rfl, rfl, hout.length, hout.postings hlen hr⟩

/-- The cursor plan finds the documents that meet the necessary condition. -/
theorem plan_settles {q : Query} {p : Plan} (hH : History H F K) (hst : Stays H F K docs)
    (recheck : Bool) (hp : PlanFor q p) (he : p.root ≠ emptyNode) (hu : p.root ≠ universalNode) :
    Settles H t (fun fuel => p.openPlan >>= fun p => drain recheck fuel p none none) fun out t' =>
      ∃ roots, Finds H t' docs (fun v => covers v.document q) roots ∧
        out = roots.map fun r => (r, recheck) := by
  obtain ⟨m, hF⟩ := hH.final
  cases hp with
  | empty hr => exact absurd hr he
  | universal hr => exact absurd hr hu
  | tree tree e hs hn hd hlt hcur _ hS =>
    obtain ⟨n, hc, hr⟩ := hcur
    choose refs hrefs using fun x => TermRefs.exists hF x
    refine (openPlan_sees hH hrefs hc hr).bind_settles ?_
    rintro p' t₁ ht₁ ⟨hnodes, hroot, hlen, R, hold, hR⟩
    have hlt' : ∀ c ∈ e.cursors, c < p'.cursors.length := by rw [hlen]; exact hlt
    refine (drain_settles hH (by rwa [hnodes, hroot]) hd hlt' hold CacheAt.none
      (fun _ hq => by cases hq)).mono ?_
    rintro out t₂ - ⟨L, roots, hL, hem, rfl⟩
    rw [past_none, Set.inter_univ] at hL
    have hknown : ∀ r ∈ L, F.Known r := fun r hr => hold.known hlt' r (hL.sub r hr)
    refine ⟨roots, ⟨L, before_of_lt hF hL.sorted hknown, fun v hv => ?_, hem⟩, rfl⟩
    rw [← hS, ← hn.mem_den hH hst hrefs hR hv]
    exact ⟨hL.sub _, fun hm => hL.all _ hm (hst.kept v hv)⟩

/-- What a scan emits over a history, given documents there from the start. -/
inductive Answered (H : ℕ → Store) (F : Store) (K : Set OwnerRef) (t : ℕ) (z : Sizes) (q : Query)
    (memoryBytes : ℕ) (docs : List LiveDoc) : List (RootTid × Bool) → Prop
  | term {text : Text} {roots : List RootTid} (hk : q.rootKind = .term text)
      (h : Finds H t docs (fun v => decide (text ∈ v.document)) roots) :
      Answered H F K t z q memoryBytes docs (roots.map fun r => (r, false))
  | plan {p : Plan} {roots : List RootTid} (hk : ∀ text, q.rootKind ≠ .term text)
      (hb : Plan.build z q memoryBytes = .ok p)
      (h : Finds H t docs (fun v => covers v.document q) roots) :
      Answered H F K t z q memoryBytes docs (roots.map fun r => (r, !q.nodes.all Kind.exact))
  | cover {e : Error} {cover : CandidatePlan} {roots : List RootTid}
      (hk : ∀ text, q.rootKind ≠ .term text) (hb : Plan.build z q memoryBytes = .error e)
      (hc : CandidatePlan.build z q memoryBytes = .ok cover) (h : cover.Streams H F K t roots) :
      Answered H F K t z q memoryBytes docs (roots.map fun r => (r, true))

variable {z : Sizes} {q : Query} {memoryBytes : ℕ} {out : List (RootTid × Bool)}

theorem answer_of_not_term (hk : ∀ text, q.rootKind ≠ .term text) :
    answer z q memoryBytes docs = planAnswer z q memoryBytes docs := by
  unfold answer
  split
  · rename_i text heq
    exact absurd heq (hk text)
  · rfl

/-- On a store that does not change, the scan emits the answer. -/
theorem Answered.eq_answer {s : Store} {m : MetaBody} {V : View} (h : WF True s m) (hv : Shows s V)
    (ha : Answered (fun _ => s) s Set.univ t z q memoryBytes V.docs out) :
    answer z q memoryBytes V.docs = .ok out := by
  cases ha with
  | term hk h =>
    rw [h.roots hv, List.map_map]
    unfold answer
    rw [hk]
    rfl
  | plan hk hb h =>
    rw [answer_of_not_term hk, planAnswer, hb, h.roots hv, List.map_map]
    rfl
  | cover hk hb hc hs =>
    rw [answer_of_not_term hk, planAnswer, hb, hs.roots h hv, List.map_map]
    simp only [hc]
    rfl

/-- The scan of a query that is not a single term, for a plan that was built. -/
theorem scanBuilt_settles {p : Plan} (hH : History H F K) (hst : Stays H F K docs)
    (hb : Plan.build z q memoryBytes = .ok p) :
    Settles H t (fun fuel =>
        (if p.root = emptyNode then return []
        else if p.root = universalNode then do
          let roots ← scan .universal
          return roots.map fun r => (r, true)
        else do
          let plan ← p.openPlan
          drain (!q.nodes.all Kind.exact) fuel plan none none : Rd (List (RootTid × Bool))))
      fun out t' => ∃ roots, Finds H t' docs (fun v => covers v.document q) roots ∧
        out = roots.map fun r => (r, !q.nodes.all Kind.exact) := by
  have hp := build_planFor hb
  by_cases he : p.root = emptyNode
  · simp only [if_pos he]
    refine Settles.pure ⟨[], ⟨[], .nil, fun v _ => ?_, .nil⟩, rfl⟩
    cases hp with
    | empty _ hS => simp [hS]
    | universal hr => rw [he] at hr; cases hr
    | tree _ _ _ _ _ _ _ hr => exact absurd he hr.1
  by_cases hu : p.root = universalNode
  · have hS : ∀ d, covers d q = true := by
      cases hp with
      | empty hr => exact absurd hr he
      | universal _ hS => exact hS
      | tree _ _ _ _ _ _ _ hr => exact absurd hu hr.2
    simp only [if_neg he, if_pos hu]
    refine (scanUniversal_sees hH).bind_settles ?_
    rintro roots t' - hs
    refine Settles.pure ⟨roots, ?_, by rw [not_exact_of_covers hS]; rfl⟩
    simp only [hS]
    exact hs.finds hH hst
  · simp only [if_neg he, if_neg hu]
    exact plan_settles hH hst _ hp he hu

theorem scanQueryWithRecheck_of_not_term (hk : ∀ text, q.rootKind ≠ .term text) (fuel : ℕ) :
    scanQueryWithRecheck fuel z q memoryBytes = (match Plan.build z q memoryBytes with
      | .error .budget => do
        let cover ← Obs.ofExcept (CandidatePlan.build z q memoryBytes)
        let roots ← scan cover
        return roots.map fun r => (r, true)
      | .error e => Obs.fail e
      | .ok plan =>
        if plan.root = emptyNode then return []
        else if plan.root = universalNode then do
          let roots ← scan .universal
          return roots.map fun r => (r, true)
        else do
          let plan ← plan.openPlan
          drain (!q.nodes.all Kind.exact) fuel plan none none : Rd (List (RootTid × Bool))) := by
  unfold scanQueryWithRecheck
  cases hq : q.rootKind with
  | term text => exact absurd hq (hk text)
  | _ => rfl

/-- The scan of a query that is not a single term. -/
theorem scanPlan_settles {ans : List (RootTid × Bool)} (hH : History H F K) (hst : Stays H F K docs)
    (hk : ∀ text, q.rootKind ≠ .term text) (ha : planAnswer z q memoryBytes docs = .ok ans) :
    Settles H t (fun fuel => scanQueryWithRecheck fuel z q memoryBytes) fun out t' =>
      Answered H F K t' z q memoryBytes docs out := by
  simp only [scanQueryWithRecheck_of_not_term hk]
  unfold planAnswer at ha
  cases hb : Plan.build z q memoryBytes with
  | error e =>
    rw [hb] at ha
    obtain rfl := build_error hb
    cases hcover : CandidatePlan.build z q memoryBytes with
    | error e =>
      simp only [hcover] at ha
      cases ha
    | ok cover =>
      refine Sees.bind_settles (Q := fun roots t' => cover.Streams H F K t' roots)
        (scan_sees hH cover) ?_
      rintro roots t' - hs
      exact Settles.pure (.cover hk hb hcover hs)
  | ok p =>
    refine (scanBuilt_settles hH hst hb).mono ?_
    rintro _ t' - ⟨roots, hfinds, rfl⟩
    exact .plan hk hb hfinds

/-- Over a history of insertions the scan terminates, unless the memory budget refuses the
query, and finds what the answer has of the documents there from the start. -/
theorem scan_settles {ans : List (RootTid × Bool)} (hH : History H F K) (hst : Stays H F K docs)
    (ha : answer z q memoryBytes docs = .ok ans) :
    Settles H t (fun fuel => scanQueryWithRecheck fuel z q memoryBytes) fun out t' =>
      Answered H F K t' z q memoryBytes docs out := by
  obtain ⟨m, hF⟩ := hH.final
  by_cases hterm : ∃ text, q.rootKind = .term text
  · obtain ⟨text, hk⟩ := hterm
    obtain ⟨R, hR⟩ := TermRefs.exists hF text
    simp only [scanQueryWithRecheck, hk]
    refine (scanSingleTerm_sees hH hR).bind_settles ?_
    rintro roots t' - hs
    exact Settles.pure (.term hk (hs.finds hH hst hR))
  · have hk : ∀ text, q.rootKind ≠ .term text := fun text h => hterm ⟨text, h⟩
    rw [answer_of_not_term hk] at ha
    exact scanPlan_settles hH hst hk ha

/-- A query that the memory budget refuses is refused whatever the store. -/
theorem scan_refused {e : Error} (ha : answer z q memoryBytes docs = .error e) (fuel : ℕ) :
    scanQueryWithRecheck fuel z q memoryBytes H t = .error e := by
  have hk : ∀ text, q.rootKind ≠ .term text := by
    intro text h
    rw [answer, h] at ha
    cases ha
  rw [answer_of_not_term hk, planAnswer] at ha
  rw [scanQueryWithRecheck_of_not_term hk]
  cases hb : Plan.build z q memoryBytes with
  | error e' =>
    obtain rfl := build_error hb
    rw [hb] at ha
    cases hcover : CandidatePlan.build z q memoryBytes with
    | error e' =>
      simp only [hcover] at ha
      cases ha
      rfl
    | ok cover =>
      simp only [hcover] at ha
      cases ha
  | ok p =>
    rw [hb] at ha
    cases ha

/-- The scan terminates with the answer that the live documents determine. -/
theorem scan_eval {s : Store} {m : MetaBody} {V : View} (h : WF True s m) (hv : Shows s V)
    (z : Sizes) (q : Query) (memoryBytes : ℕ) :
    ∃ n, ∀ fuel, n ≤ fuel →
      (scanQueryWithRecheck fuel z q memoryBytes).eval s = answer z q memoryBytes V.docs := by
  cases ha : answer z q memoryBytes V.docs with
  | error e =>
    refine ⟨0, fun fuel _ => ?_⟩
    rw [Obs.eval, scan_refused ha]
    rfl
  | ok ans =>
    obtain ⟨out, t', hout, n, hn⟩ := (scan_settles (.constant h) hv.stays ha).eval
    refine ⟨n, fun fuel hfuel => ?_⟩
    rw [hn fuel hfuel, ← hout.eq_answer h hv, ha]

end

end PinCore
