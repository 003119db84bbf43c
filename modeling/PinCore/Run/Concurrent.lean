import PinCore.Run.Queries

/-!
# Scans while insertions run

Insertions hold the writer interlock, so they run one after the other; scans take no lock and may
read each page at any moment between two of their durable steps.  Over every such interleaving a
scan returns.  It finds every document that was live when the insertions started and that the
oracle accepts, and what it emits without recheck of the documents published by then is accepted.
-/

namespace PinCore

open Prog

/-! ### Interleavings -/

/-- The durable states of insertions that run one after the other from `s`, each to its end or cut
off at some step. -/
inductive Inserts : Store → List Store → Prop
  | nil (s : Store) : Inserts s []
  | insert {s : Store} {root : RootTid} {d : PreparedDocument} {tr more rest : List Store}
      (hroot : root.Valid s.layout) (htr : (PinCore.insert root d s).trace = tr ++ more)
      (h : Inserts (tr.getLastD s) rest) : Inserts s (tr ++ rest)

/-- What a reader may see: at each moment one of the states, in their order. -/
def Interleaves (s : Store) (states : List Store) (H : ℕ → Store) : Prop :=
  ∃ f : ℕ → ℕ, (∀ t t', t ≤ t' → f t ≤ f t') ∧ ∀ t, (s :: states)[f t]? = some (H t)

/-- The owners of the documents. -/
def ownersOf (docs : List LiveDoc) : Set OwnerRef := {r | ∃ v ∈ docs, v.owner = r}

section

variable {s : Store} {docs : List LiveDoc} {states : List Store} {H : ℕ → Store}

/-- Every durable state of insertions shows the documents of before and perhaps more. -/
theorem Inserts.good (hi : Inserts s states) (hg : Good True (openView docs) s) :
    (∀ x ∈ s :: states, ∃ more, Good True (openView (docs ++ more)) x) ∧
      ∃ s', Passes Grows s states s' := by
  induction hi generalizing docs with
  | nil s =>
    refine ⟨fun x hx => ⟨[], ?_⟩, s, .nil s⟩
    rw [List.mem_singleton.1 hx, List.append_nil]
    exact hg
  | @insert s root d tr more rest hroot htr h ih =>
    obtain ⟨m, hw, hv⟩ := hg
    have hspec := insert_spec d hw hv hroot
    -- the states of this insertion
    have hstates : ∀ x ∈ s :: tr, ∃ more, Good True (openView (docs ++ more)) x := by
      intro x hx
      rcases List.mem_cons.1 hx with rfl | hx
      · exact ⟨[], by rw [List.append_nil]; exact ⟨m, hw, hv⟩⟩
      · rcases hspec.spec.1 x (by rw [htr]; exact List.mem_append_left _ hx) with hx | ⟨owner, hx⟩
        · exact ⟨[], by rw [List.append_nil]; exact hx⟩
        · exact ⟨_, hx⟩
    have hpasses : ∃ s', Passes Grows s tr s' := by
      have := hspec.along
      rw [Along, htr] at this
      exact this.left
    obtain ⟨s', hpasses⟩ := hpasses
    obtain rfl := hpasses.last
    have hlast : tr.getLastD s ∈ s :: tr := List.getLastD_mem_cons
    obtain ⟨added, hg'⟩ := hstates _ hlast
    obtain ⟨hrest, s'', hpasses'⟩ := ih hg'
    refine ⟨fun x hx => ?_, s'', hpasses.append hpasses'⟩
    rw [← List.cons_append] at hx
    rcases List.mem_append.1 hx with hx | hx
    · exact hstates x hx
    · obtain ⟨added', hx⟩ := hrest x (List.mem_cons_of_mem _ hx)
      exact ⟨added ++ added', by rw [← List.append_assoc]; exact hx⟩

/-- Documents of the view keep their owners, roots and terms. -/
theorem Good.document {more : List LiveDoc} {v : LiveDoc}
    (h : Good True (openView (docs ++ more)) s) (hv : v ∈ docs) :
    s.rootOf v.owner = some v.root ∧ ∀ x, Posted s x v.owner ↔ x ∈ v.document := by
  obtain ⟨m, hw, hs⟩ := h
  have hm : v ∈ (openView (docs ++ more)).docs := List.mem_append_left _ hv
  exact ⟨hs.rootOf_owner hm, fun x => hs.posted v hm x⟩

/-- What a reader sees of insertions is a history of the store. -/
theorem Inserts.history (hi : Inserts s states) (hg : Good True (openView docs) s)
    (hH : Interleaves s states H) :
    ∃ F, History H F (ownersOf docs) ∧ Stays H F (ownersOf docs) docs ∧ ∀ t, Grows s (H t) := by
  obtain ⟨f, hmono, hf⟩ := hH
  obtain ⟨hgood, s', hpasses⟩ := hi.good hg
  have hmem : ∀ t, H t ∈ s :: states := fun t => List.mem_of_getElem? (hf t)
  obtain rfl := hpasses.last
  have hlast : states.getLastD s ∈ s :: states := List.getLastD_mem_cons
  have hpair := hpasses.pairwise fun _ _ _ => Grows.trans
  have hwf : ∀ x ∈ s :: states, ∃ m, WF True x m := fun x hx =>
    let ⟨_, m, hw, _⟩ := hgood x hx
    ⟨m, hw⟩
  -- a state earlier in the list grows into one further on
  have hle : ∀ (i j : ℕ) (a b : Store), i ≤ j → (s :: states)[i]? = some a →
      (s :: states)[j]? = some b →
      Grows a b := by
    intro i j a b hij ha hb
    obtain ⟨hi, rfl⟩ := List.getElem?_eq_some_iff.1 ha
    obtain ⟨hj, rfl⟩ := List.getElem?_eq_some_iff.1 hb
    rcases Nat.eq_or_lt_of_le hij with rfl | hlt
    · exact .refl _
    · exact List.pairwise_iff_getElem.1 hpair i j hi hj hlt
  have hlen : (s :: states)[states.length]? = some (states.getLastD s) := by
    rw [List.getLastD_eq_getLast?, ← List.getLast?_cons, List.getLast?_eq_getElem?]
    rfl
  have hposted : ∀ v ∈ docs, ∀ y ∈ s :: states, ∀ x, Posted y x v.owner ↔ x ∈ v.document :=
    fun v hv y hy => by
      obtain ⟨more, h⟩ := hgood y hy
      exact (h.document hv).2
  have hlive : ∀ v ∈ docs, ∀ y ∈ s :: states, y.rootOf v.owner = some v.root :=
    fun v hv y hy => by
      obtain ⟨more, h⟩ := hgood y hy
      exact (h.document hv).1
  refine ⟨states.getLastD s, ?_, ?_, fun t => hle 0 (f t) _ _ (Nat.zero_le _) rfl (hf t)⟩
  · refine ⟨fun t => hwf _ (hmem t), hwf _ hlast,
      fun t t' ht => hle _ _ _ _ (hmono t t' ht) (hf t) (hf t'), fun t => ?_, ?_, ?_⟩
    · refine hle _ _ _ _ ?_ (hf t) hlen
      have := getElem?_lt (hf t)
      exact Nat.lt_succ_iff.1 this
    · rintro x _ ⟨v, hv, rfl⟩ hx t
      exact (hposted v hv _ (hmem t) x).2 ((hposted v hv _ hlast x).1 hx)
    · rintro _ ⟨v, hv, rfl⟩ - t
      obtain ⟨o, ho, -⟩ := Store.rootOf_eq_some (hlive v hv _ (hmem t))
      exact ⟨o, ho⟩
  · exact ⟨fun v hv => ⟨v, hv, rfl⟩, fun v hv => hlive v hv _ (hmem 0),
      fun v hv x => hposted v hv _ hlast x⟩

end

/-! ### Scans -/

/-- The planner refuses the query within the memory budget, before any page is read. -/
def PlanRefused (z : Sizes) (q : Query) (memoryBytes : ℕ) : Prop :=
  (∀ text, q.rootKind ≠ .term text) ∧ (∃ e, Plan.build z q memoryBytes = .error e) ∧
    ∃ e, CandidatePlan.build z q memoryBytes = .error e

/-- The owner had a publication record in `s`. -/
def PublishedIn (s : Store) (r : OwnerRef) : Prop :=
  ∃ o, s.Owns r o ∧ o.publication = .published

section

variable {s : Store} {docs : List LiveDoc} {states : List Store} {H : ℕ → Store} {F : Store}
  {K : Set OwnerRef} {t : ℕ} {z : Sizes} {q : Query} {memoryBytes : ℕ}
  {out : List (RootTid × Bool)}

/-- A query that is not answered was refused. -/
theorem planRefused_of_answer {e : Error} (h : answer z q memoryBytes docs = .error e) :
    PlanRefused z q memoryBytes := by
  have hk : ∀ text, q.rootKind ≠ .term text := by
    intro text hk
    rw [answer, hk] at h
    cases h
  rw [answer_of_not_term hk, planAnswer] at h
  cases hb : Plan.build z q memoryBytes with
  | ok p => rw [hb] at h; cases h
  | error e₁ =>
    cases hc : CandidatePlan.build z q memoryBytes with
    | ok cover => simp only [hb, hc] at h; cases h
    | error e₂ => exact ⟨hk, ⟨e₁, hb⟩, e₂, hc⟩

/-- Every document that the oracle accepts is emitted. -/
theorem Answered.complete {v : LiveDoc} (hH : History H F K) (hst : Stays H F K docs)
    (h : Answered H F K t z q memoryBytes docs out) (hv : v ∈ docs)
    (ho : oracle v.document q = true) : v.root ∈ out.map Prod.fst := by
  have hfst : ∀ (roots : List RootTid) (b : Bool),
      ((roots.map fun r => (r, b)).map Prod.fst) = roots := fun roots b => by
    rw [List.map_map]
    exact List.map_id _
  cases h with
  | term hk h =>
    rw [hfst]
    refine h.complete hH hst hv ?_
    rwa [oracle_of_rootKind hk] at ho
  | plan hk hb h =>
    rw [hfst]
    exact h.complete hH hst hv (covers_of_oracle ho)
  | cover hk hb hc h =>
    rw [hfst]
    exact h.complete hH hst (CandidatePlan.build_reaches hc hv ho)

/-- What is emitted without recheck was the root of an owner whose document, if it is one of
`docs`, the oracle accepts. -/
theorem Answered.sound {x : RootTid} (h : Answered H F K t z q memoryBytes docs out)
    (hx : (x, false) ∈ out) :
    ∃ r t₁, t₁ ≤ t ∧ (H t₁).rootOf r = some x ∧
      ∀ v ∈ docs, v.owner = r → oracle v.document q = true := by
  cases h with
  | term hk h =>
    obtain ⟨y, hy, heq⟩ := List.mem_map.1 hx
    cases heq
    obtain ⟨r, t₁, h₁, hr, hdoc⟩ := h.sound hy
    refine ⟨r, t₁, h₁, hr, fun v hv hvr => ?_⟩
    rw [oracle_of_rootKind hk]
    exact hdoc v hv hvr
  | plan hk hb h =>
    obtain ⟨y, hy, heq⟩ := List.mem_map.1 hx
    rw [Prod.mk.injEq] at heq
    obtain ⟨rfl, hflag⟩ := heq
    have hexact : q.nodes.all Kind.exact = true := by
      cases he : q.nodes.all Kind.exact with
      | true => rfl
      | false => rw [he] at hflag; cases hflag
    obtain ⟨r, t₁, h₁, hr, hdoc⟩ := h.sound hy
    refine ⟨r, t₁, h₁, hr, fun v hv hvr => ?_⟩
    rw [← covers_eq_oracle hexact]
    exact hdoc v hv hvr
  | cover hk hb hc h =>
    obtain ⟨y, -, heq⟩ := List.mem_map.1 hx
    cases heq

/-- While insertions run, a scan that the planner does not refuse ends.  It emits every accepted
document of before, and whatever it emits without recheck from an owner published before is the
root of a document of before that the oracle accepts. -/
theorem scan_during_inserts (h : Reachable s docs) (hi : Inserts s states)
    (hH : Interleaves s states H) (z : Sizes) (q : Query) (memoryBytes : ℕ) :
    (PlanRefused z q memoryBytes ∧
        ∃ e, ∀ fuel, scanQueryWithRecheck fuel z q memoryBytes H 0 = .error e) ∨
      ∃ out t', (∃ n, ∀ fuel, n ≤ fuel →
          scanQueryWithRecheck fuel z q memoryBytes H 0 = .ok (out, t')) ∧
        (∀ v ∈ docs, oracle v.document q = true → v.root ∈ out.map Prod.fst) ∧
        ∀ x, (x, false) ∈ out → ∃ r t₁, t₁ ≤ t' ∧ (H t₁).rootOf r = some x ∧
          (PublishedIn s r →
            ∃ v ∈ docs, v.owner = r ∧ v.root = x ∧ oracle v.document q = true) := by
  obtain ⟨F, hist, hst, hgrows⟩ := hi.history h.good hH
  cases ha : answer z q memoryBytes docs with
  | error e => exact .inl ⟨planRefused_of_answer ha, e, scan_refused ha⟩
  | ok ans =>
    obtain ⟨out, t', -, hout, hfuel⟩ := scan_settles (t := 0) hist hst ha
    refine .inr ⟨out, t', hfuel, fun v hv ho => hout.complete hist hst hv ho, fun x hx => ?_⟩
    obtain ⟨r, t₁, h₁, hr, hdoc⟩ := hout.sound hx
    refine ⟨r, t₁, h₁, hr, ?_⟩
    rintro ⟨o, ho, hpub⟩
    -- the record of a published owner does not change any more
    obtain ⟨o', ho', hsame⟩ := (hgrows t₁).owns r o ho
    rw [Store.rootOf_eq ho', hsame (.inl hpub), ← Store.rootOf_eq ho] at hr
    obtain ⟨m, -, hv⟩ := h.good
    obtain ⟨d, hd⟩ := (hv.live r x).1 hr
    exact ⟨_, hd, rfl, rfl, hdoc _ hd rfl⟩

set_option maxRecDepth 10000 in
/-- A scan of `alpha AND alpha` that reads one page between any two durable steps of a second
insertion of `alpha`. -/
theorem scan_during_inserts_alpha :
    ∃ states H, 1 < states.length ∧ Interleaves (alphaStore 1) states H ∧
      ∃ out t', (∃ n, ∀ fuel, n ≤ fuel →
          scanQueryWithRecheck fuel ⟨8, 24, 48, 1, 64, 16⟩ alphaQuery 4096 H 0 = .ok (out, t')) ∧
        ⟨0, 1⟩ ∈ out.map Prod.fst := by
  obtain ⟨x, y, w, h, -⟩ := alphaStore_reachable
  have hi : Inserts (alphaStore 1) ((insert ⟨0, 2⟩ alphaDocument (alphaStore 1)).trace ++ []) := by
    have htr := (List.append_nil (insert ⟨0, 2⟩ alphaDocument (alphaStore 1)).trace).symm
    exact .insert (by decide +kernel) htr (.nil _)
  rw [List.append_nil] at hi
  generalize hst : (insert ⟨0, 2⟩ alphaDocument (alphaStore 1)).trace = states at hi
  have hlen : 1 < states.length := by
    rw [← hst]
    decide +kernel
  have hH : Interleaves (alphaStore 1) states fun t =>
      (alphaStore 1 :: states).getD (min t states.length) (alphaStore 1) := by
    refine ⟨fun t => min t states.length, fun t t' ht => ?_, fun t => ?_⟩
    · simp only
      omega
    · have hlt : min t states.length < (alphaStore 1 :: states).length := by
        simp only [List.length_cons]
        omega
      simp only [List.getD_eq_getElem _ _ hlt, List.getElem?_eq_getElem hlt]
  refine ⟨states, _, hlen, hH, ?_⟩
  have hfits : (Plan.build ⟨8, 24, 48, 1, 64, 16⟩ alphaQuery 4096).isOk = true := by decide +kernel
  rcases scan_during_inserts h hi hH ⟨8, 24, 48, 1, 64, 16⟩ alphaQuery 4096 with
    ⟨⟨-, ⟨e, he⟩, -⟩, -⟩ | ⟨out, t', hfuel, hall, -⟩
  · rw [he] at hfits
    cases hfits
  · refine ⟨out, t', hfuel, hall _ List.mem_cons_self ?_⟩
    change oracle alphaDocument.document alphaQuery = true
    decide +kernel

end

end PinCore
