import PinCore.Query.Cover
import PinCore.Run.Reachable
import PinCore.Scan.Answer

/-!
# Query results over runs

The result of a scan is a function of the live documents.  It agrees with the oracle, it does
not change under compaction, and it is what it was before an operation that was cut off.
-/

namespace PinCore

/-- The scan of the unchanging store `s` ends with the result `r`. -/
def ScanResult (s : Store) (z : Sizes) (q : Query) (memoryBytes : ℕ)
    (r : Except Error (List (RootTid × Bool))) : Prop :=
  ∃ n, ∀ fuel, n ≤ fuel → (scanQueryWithRecheck fuel z q memoryBytes).eval s = r

section

variable {s s' : Store} {docs : List LiveDoc} {z : Sizes} {q : Query} {memoryBytes : ℕ}
  {r r' : Except Error (List (RootTid × Bool))}

theorem ScanResult.unique (h : ScanResult s z q memoryBytes r)
    (h' : ScanResult s z q memoryBytes r') : r = r' := by
  obtain ⟨n, hn⟩ := h
  obtain ⟨n', hn'⟩ := h'
  rw [← hn (max n n') (Nat.le_max_left ..), hn' (max n n') (Nat.le_max_right ..)]

theorem Good.scanResult {V : View} (h : Good True V s) (z : Sizes) (q : Query) (memoryBytes : ℕ) :
    ScanResult s z q memoryBytes (answer z q memoryBytes V.docs) :=
  let ⟨_, hw, hv⟩ := h
  scan_eval hw hv z q memoryBytes

/-- Stores that show the same documents have the same results. -/
theorem ScanResult.transfer {V V' : View} (h : Good True V s) (h' : Good True V' s')
    (hdocs : V'.docs = V.docs) (hr : ScanResult s z q memoryBytes r) :
    ScanResult s' z q memoryBytes r := by
  rw [hr.unique (h.scanResult z q memoryBytes), ← hdocs]
  exact h'.scanResult z q memoryBytes

/-! ### Agreement with the oracle -/

/-- Every node is `None`, a term, a conjunction or a disjunction. -/
def Query.Exact (q : Query) : Prop := q.nodes.all Kind.exact = true

/-- The cursor plan of the query fits the memory budget. -/
def PlanFits (z : Sizes) (q : Query) (memoryBytes : ℕ) : Prop :=
  ∃ p, Plan.build z q memoryBytes = .ok p

/-- The roots of the accepted documents, once each and without recheck. -/
def EmitsExactly (docs : List LiveDoc) (q : Query) (out : List (RootTid × Bool)) : Prop :=
  (out.map Prod.fst).Nodup ∧
    ∀ x, x ∈ out ↔ x.2 = false ∧ ∃ v ∈ docs, v.root = x.1 ∧ oracle v.document q = true

/-- All roots of accepted documents; whatever else is emitted carries the recheck flag. -/
def EmitsCover (docs : List LiveDoc) (q : Query) (out : List (RootTid × Bool)) : Prop :=
  (∀ v ∈ docs, oracle v.document q = true → v.root ∈ out.map Prod.fst) ∧
    ∀ x ∈ out, (∃ v ∈ docs, v.root = x.1 ∧ oracle v.document q = true) ∨ x.2 = true

theorem oracle_of_rootKind {text : Text} (h : q.rootKind = .term text) (d : Document) :
    oracle d q = decide (text ∈ d) := by
  have hk : q.nodes[q.root]? = some (.term text) := by
    have hlt : q.root < q.nodes.length := by rw [← q.root_last]; exact Nat.lt_succ_self _
    rw [Query.rootKind, List.getD_eq_getElem?_getD, List.getElem?_eq_getElem hlt,
      Option.getD_some] at h
    rw [List.getElem?_eq_getElem hlt, h]
  have : oracle d q = oracleNode d (oracleValues d q.nodes) (.term text) := oracleAt_eq hk
  rw [this, Bool.eq_iff_iff, decide_eq_true_iff]
  exact any_eq_true

/-- What a plan makes of one document, whatever the others are: whether its root is emitted, and
with which flag. -/
structure Decides (z : Sizes) (q : Query) (memoryBytes : ℕ) (hit : Document → Bool) (flag : Bool) :
    Prop where
  complete : ∀ d, oracle d q = true → hit d = true
  sound : ∀ d, hit d = true → oracle d q = true ∨ flag = true
  exact : q.Exact → PlanFits z q memoryBytes → flag = false
  emits : ∀ docs, ∃ out, answer z q memoryBytes docs = .ok out ∧
    (∀ x, x ∈ out ↔ x.2 = flag ∧ ∃ v ∈ docs, v.root = x.1 ∧ hit v.document = true) ∧
    (flag = false → (docs.map (·.root)).Nodup → (out.map Prod.fst).Nodup)

/-- The documents that pass a test, with one flag. -/
theorem mem_flagged (docs : List LiveDoc) (hit : Document → Bool) (flag : Bool)
    (x : RootTid × Bool) :
    (x ∈ (docs.filter fun v => hit v.document).map fun v => (v.root, flag)) ↔
      x.2 = flag ∧ ∃ v ∈ docs, v.root = x.1 ∧ hit v.document = true := by
  obtain ⟨r, b⟩ := x
  simp only [List.mem_map, List.mem_filter, Prod.mk.injEq]
  constructor
  · rintro ⟨v, ⟨hv, ho⟩, rfl, rfl⟩
    exact ⟨rfl, v, hv, rfl, ho⟩
  · rintro ⟨rfl, v, hv, rfl, ho⟩
    exact ⟨v, ⟨hv, ho⟩, rfl, rfl⟩

theorem nodup_flagged (docs : List LiveDoc) (hit : Document → Bool) (flag : Bool)
    (h : (docs.map (·.root)).Nodup) :
    (((docs.filter fun v => hit v.document).map fun v => (v.root, flag)).map Prod.fst).Nodup := by
  rw [List.map_map]
  exact (List.filter_sublist.map _).nodup h

/-- The documents that a cover reaches. -/
def CandidatePlan.hit : CandidatePlan → Document → Bool
  | empty, _ => false
  | universal, _ => true
  | terms ts, d => ts.any fun t => decide (t ∈ d)

theorem CandidatePlan.mem_docs {plan : CandidatePlan} {v : LiveDoc} :
    v ∈ plan.docs docs ↔ v ∈ docs ∧ plan.hit v.document = true := by
  cases plan with
  | empty => simp [CandidatePlan.docs, CandidatePlan.hit]
  | universal => simp [CandidatePlan.docs, CandidatePlan.hit]
  | terms ts =>
    simp only [CandidatePlan.docs, coveredDocs, CandidatePlan.hit, List.mem_flatMap,
      List.mem_filter, List.any_eq_true, decide_eq_true_iff]
    constructor
    · rintro ⟨t, ht, hv, hd⟩
      exact ⟨hv, t, ht, hd⟩
    · rintro ⟨hv, t, ht, hd⟩
      exact ⟨t, ht, hv, hd⟩

/-- Every plan decides document by document, or fails whatever the documents are. -/
theorem answer_decides (z : Sizes) (q : Query) (memoryBytes : ℕ) :
    (∃ hit flag, Decides z q memoryBytes hit flag) ∨
      ∃ e, ∀ docs, answer z q memoryBytes docs = .error e := by
  by_cases hroot : ∃ text, q.rootKind = .term text
  · obtain ⟨text, hk⟩ := hroot
    refine .inl ⟨fun d => decide (text ∈ d), false, fun d ho => ?_, fun d ho => .inl ?_,
      fun _ _ => rfl, fun docs => ⟨_, ?_, mem_flagged docs (fun d => decide (text ∈ d)) false,
        fun _ => nodup_flagged docs (fun d => decide (text ∈ d)) false⟩⟩
    · rwa [oracle_of_rootKind hk] at ho
    · rwa [oracle_of_rootKind hk]
    · simp only [answer, hk]
  have hanswer : ∀ docs, answer z q memoryBytes docs = planAnswer z q memoryBytes docs := by
    intro docs
    cases hk : q.rootKind with
    | term text => exact absurd ⟨text, hk⟩ hroot
    | _ => simp only [answer, hk]
  cases hb : Plan.build z q memoryBytes with
  | ok p =>
    refine .inl ⟨fun d => covers d q, !q.nodes.all Kind.exact, fun d => covers_of_oracle,
      fun d hd => ?_, fun he _ => by rw [show q.nodes.all Kind.exact = true from he]; rfl,
      fun docs => ⟨_, by simp only [hanswer, planAnswer, hb], mem_flagged docs (covers · q) _,
        fun _ => nodup_flagged docs (covers · q) _⟩⟩
    cases he : q.nodes.all Kind.exact with
    | true => rw [← covers_eq_oracle he]; exact .inl hd
    | false => exact .inr rfl
  | error e =>
    cases hc : CandidatePlan.build z q memoryBytes with
    | error e' => exact .inr ⟨e', fun docs => by simp only [hanswer, planAnswer, hb, hc]; rfl⟩
    | ok plan =>
      refine .inl ⟨plan.hit, true, fun d ho => ?_, fun _ _ => .inr rfl, fun _ hf => ?_,
        fun docs => ⟨_, by simp only [hanswer, planAnswer, hb, hc]; rfl, fun x => ?_,
          fun h => Bool.noConfusion h⟩⟩
      · have hm : ⟨⟨0, 0, 0⟩, ⟨0, 0⟩, d⟩ ∈ plan.docs [⟨⟨0, 0, 0⟩, ⟨0, 0⟩, d⟩] :=
          CandidatePlan.build_reaches hc List.mem_cons_self ho
        exact (CandidatePlan.mem_docs.1 hm).2
      · obtain ⟨p, hp⟩ := hf
        rw [hb] at hp
        cases hp
      · rw [List.mem_map]
        constructor
        · rintro ⟨v, hv, rfl⟩
          obtain ⟨hv, hd⟩ := CandidatePlan.mem_docs.1 hv
          exact ⟨rfl, v, hv, rfl, hd⟩
        · obtain ⟨r, b⟩ := x
          rintro ⟨rfl, v, hv, rfl, hd⟩
          exact ⟨v, CandidatePlan.mem_docs.2 ⟨hv, hd⟩, rfl⟩

/-- A scan of a reachable store ends.  A successful one emits exactly what the oracle accepts if
the cursor plan decides the query, and otherwise a superset whose surplus is to be rechecked. -/
theorem scan_agrees_with_oracle (h : Reachable s docs) (hroots : (docs.map (·.root)).Nodup)
    (z : Sizes) (q : Query) (memoryBytes : ℕ) :
    ∃ r, ScanResult s z q memoryBytes r ∧ ∀ out, r = .ok out →
      (q.Exact ∧ PlanFits z q memoryBytes → EmitsExactly docs q out) ∧
        (¬ (q.Exact ∧ PlanFits z q memoryBytes) → EmitsCover docs q out) := by
  refine ⟨_, h.good.scanResult z q memoryBytes, fun out hout => ?_⟩
  change answer z q memoryBytes docs = .ok out at hout
  rcases answer_decides z q memoryBytes with ⟨hit, flag, hd⟩ | ⟨e, he⟩
  · obtain ⟨out', hout', hmem, hnodup⟩ := hd.emits docs
    obtain rfl : out' = out := Except.ok.inj (hout'.symm.trans hout)
    refine ⟨fun ⟨he, hf⟩ => ?_, fun _ => ⟨fun v hv ho => ?_, fun x hx => ?_⟩⟩
    · have hflag := hd.exact he hf
      refine ⟨hnodup hflag hroots, fun x => ?_⟩
      rw [hmem, hflag]
      refine and_congr_right fun _ => exists_congr fun v => and_congr_right fun _ =>
        and_congr_right fun _ => ⟨fun hv => ?_, hd.complete _⟩
      exact (hd.sound _ hv).resolve_right (by rw [hflag]; decide)
    · exact List.mem_map.2 ⟨(v.root, flag), (hmem _).2 ⟨rfl, v, hv, rfl, hd.complete _ ho⟩, rfl⟩
    · obtain ⟨hflag, v, hv, hroot, hhit⟩ := (hmem x).1 hx
      rcases hd.sound _ hhit with ho | ho
      · exact .inl ⟨v, hv, hroot, ho⟩
      · exact .inr (hflag.trans ho)
  · rw [he] at hout
    cases hout

/-- The nodes of the query `alpha AND alpha`. -/
def alphaNodes : List Kind :=
  [.term [97, 108, 112, 104, 97], .term [97, 108, 112, 104, 97], .and 0 1]

theorem alphaNodes_child_lt (i : ℕ) (k : Kind) (h : alphaNodes[i]? = some k) :
    ∀ c ∈ k.children, c < i := by
  intro c hc
  rcases i with _ | _ | _ | i
  · cases h; cases hc
  · cases h; cases hc
  · cases h; simp [Kind.children] at hc; omega
  · simp [alphaNodes] at h

theorem alphaNodes_phrase_ne (ts : List Text) (h : Kind.phrase ts ∈ alphaNodes) : ts ≠ [] := by
  simp [alphaNodes] at h

/-- The query `alpha AND alpha`. -/
def alphaQuery : Query where
  nodes := alphaNodes
  root := 2
  root_last := rfl
  child_lt := alphaNodes_child_lt
  child_nodup := by decide
  phrase_ne := alphaNodes_phrase_ne

/-- On the store with three owners of `alpha` the scan of `alpha AND alpha` agrees with the
oracle. -/
theorem scan_agrees_with_oracle_alpha : ∃ docs : List LiveDoc, docs.length = 3 ∧
    ∃ r, ScanResult (alphaStore 3) ⟨8, 24, 48, 1, 64, 16⟩ alphaQuery 4096 r ∧
      ∀ out, r = .ok out →
        (alphaQuery.Exact ∧ PlanFits ⟨8, 24, 48, 1, 64, 16⟩ alphaQuery 4096 →
          EmitsExactly docs alphaQuery out) ∧
        (¬ (alphaQuery.Exact ∧ PlanFits ⟨8, 24, 48, 1, 64, 16⟩ alphaQuery 4096) →
          EmitsCover docs alphaQuery out) := by
  obtain ⟨x, y, w, -, h⟩ := alphaStore_reachable
  exact ⟨_, rfl, scan_agrees_with_oracle h (by simp) _ alphaQuery 4096⟩

end

end PinCore
