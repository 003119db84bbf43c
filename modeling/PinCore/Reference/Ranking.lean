import PinCore.Reference.Afford
import PinCore.Reference.Rank

/-!
# Scores and the run of a ranking

The score of a document is a function of the query's weights and of the document alone.  A run over
the search keeps the best entries among the eligible matching documents, and with enough work it
returns.
-/

namespace PinCore

/-! ### The terms of a query -/

namespace Kind

/-- The node looks for the term. -/
def names : Kind → Text → Bool
  | .term t, text => decide (text = t)
  | .prefixed t, text => t.isPrefixOf text
  | .phrase ts, text => decide (text ∈ ts)
  | _, _ => false

/-- Passes the polarity of a node on to its children. -/
def mark (negative : List Bool) (slot : ℕ) : Kind → List Bool
  | .not c => negative.set c (!negative.getD slot false)
  | .and l r => (negative.set l (negative.getD slot false)).set r (negative.getD slot false)
  | .or l r => (negative.set l (negative.getD slot false)).set r (negative.getD slot false)
  | _ => negative

end Kind

/-- The nodes that no odd number of negations covers, from the last node back. -/
def positiveKinds : List (Kind × ℕ) → List Bool → List Kind
  | [], _ => []
  | (kind, slot) :: rest, negative =>
    if negative.getD slot false then positiveKinds rest (kind.mark negative slot)
    else kind :: positiveKinds rest (kind.mark negative slot)

/-- The nodes that can add to a score: those under an even number of negations. -/
def Query.positive (q : Query) : List Kind :=
  positiveKinds q.nodes.zipIdx.reverse (List.replicate q.nodes.length false)

namespace ReferenceIndex

variable {index : ReferenceIndex} {phraseTerms : List PhraseTerm} {scratch work work' : ℕ}

/-- The terms of the index that the query scores, in order. -/
def scoredTexts (index : ReferenceIndex) (q : Query) : List Text :=
  (index.terms.map IndexTerm.text).filter fun text => q.positive.any fun kind => kind.names text

/-- The terms that a node adds are those that it looks for. -/
def Adds (index : ReferenceIndex) (looksFor : Text → Prop) (new : List ℕ) : Prop :=
  ∀ i, i ∈ new ↔ ∃ t, index.terms[i]? = some t ∧ looksFor t.text

/-- The index has a text once. -/
theorem Built.term_unique (hb : Built index) {i j : ℕ} {s t : IndexTerm}
    (hi : index.terms[i]? = some s) (hj : index.terms[j]? = some t) (h : s.text = t.text) :
    i = j := by
  have hlt : ∀ {i j : ℕ} {s t : IndexTerm}, index.terms[i]? = some s →
      index.terms[j]? = some t → i < j → s.text < t.text := by
    intro i j s t hi hj hij
    obtain ⟨hi', rfl⟩ := List.getElem?_eq_some_iff.1 hi
    obtain ⟨hj', rfl⟩ := List.getElem?_eq_some_iff.1 hj
    exact List.pairwise_iff_getElem.1 hb.terms_lt i j hi' hj' hij
  rcases Nat.lt_trichotomy i j with hij | hij | hij
  · exact absurd (h ▸ hlt hi hj hij) (List.lt_irrefl _)
  · exact hij
  · exact absurd (h ▸ hlt hj hi hij) (List.lt_irrefl _)

/-- A term that was looked up adds itself. -/
theorem Found.adds (hb : Built index) {text : Text} {found : Option ℕ}
    (h : Found index text found) : Adds index (· = text) found.toList := by
  intro i
  cases found with
  | none =>
    refine iff_of_false (fun hi => by cases hi) ?_
    rintro ⟨t, ht, rfl⟩
    exact h t (List.mem_of_getElem? ht) rfl
  | some j =>
    obtain ⟨t, ht, htext⟩ := h
    rw [Option.toList_some, List.mem_singleton]
    constructor
    · rintro rfl
      exact ⟨t, ht, htext⟩
    · rintro ⟨t', ht', htext'⟩
      exact hb.term_unique ht' ht (htext'.trans htext.symm)

theorem Adds.append {looksFor looksFor' : Text → Prop} {new new' : List ℕ}
    (h : Adds index looksFor new) (h' : Adds index looksFor' new') :
    Adds index (fun text => looksFor text ∨ looksFor' text) (new ++ new') := by
  intro i
  rw [List.mem_append, h i, h' i]
  constructor
  · rintro (⟨t, ht, hl⟩ | ⟨t, ht, hl⟩)
    · exact ⟨t, ht, .inl hl⟩
    · exact ⟨t, ht, .inr hl⟩
  · rintro ⟨t, ht, hl | hl⟩
    · exact .inl ⟨t, ht, hl⟩
    · exact .inr ⟨t, ht, hl⟩

theorem Adds.congr {looksFor looksFor' : Text → Prop} {new : List ℕ}
    (h : Adds index looksFor new) (hiff : ∀ text, looksFor text ↔ looksFor' text) :
    Adds index looksFor' new := by
  intro i
  rw [h i]
  simp only [hiff]

theorem Adds.nil {looksFor : Text → Prop} (h : ∀ text, ¬ looksFor text) :
    Adds index looksFor [] := by
  intro i
  refine iff_of_false List.not_mem_nil ?_
  rintro ⟨t, -, hl⟩
  exact h _ hl

theorem phraseWeights_ok (hb : Built index) {texts : List Text} {offset : ℕ}
    {bound : List PhraseTerm} (hbound : BoundTerms index offset texts bound)
    {terms terms' : List ℕ} (h : phraseWeights bound terms work = .ok (terms', work')) :
    ∃ new, terms' = terms ++ new ∧ Adds index (· ∈ texts) new := by
  induction texts generalizing offset bound terms work with
  | nil =>
    rw [List.eq_nil_of_length_eq_zero hbound.1] at h
    cases h
    exact ⟨[], (List.append_nil _).symm, .nil fun _ => List.not_mem_nil⟩
  | cons text texts ih =>
    obtain ⟨hlength, hat⟩ := hbound
    cases bound with
    | nil => cases hlength
    | cons b bound =>
      obtain ⟨w, -, h⟩ := ok_of_bind h
      obtain ⟨b', hb', -, hfound⟩ := hat 0 text rfl
      cases hb'
      have hrest : BoundTerms index (offset + 1) texts bound := by
        refine ⟨Nat.succ.inj hlength, fun k t hk => ?_⟩
        rw [Nat.add_assoc, Nat.add_comm 1]
        exact hat (k + 1) t hk
      obtain ⟨new, rfl, hnew⟩ := ih hrest h
      refine ⟨b.term.toList ++ new, List.append_assoc _ _ _, ?_⟩
      exact ((hfound.adds hb).append hnew).congr fun _ => List.mem_cons.symm

theorem prefixWeights_ok {count term : ℕ} {terms terms' : List ℕ}
    (h : prefixWeights count term terms work = .ok (terms', work')) :
    terms' = terms ++ List.range' term count := by
  induction count generalizing term terms work with
  | zero =>
    cases h
    rw [List.range'_zero, List.append_nil]
  | succ count ih =>
    obtain ⟨w, -, h⟩ := ok_of_bind h
    rw [ih h, List.append_assoc, List.singleton_append, ← List.range'_succ]

/-- A node that is not negated adds the terms it looks for. -/
theorem nodeWeights_ok (hb : Built index) {kind : Kind} {node : Bound}
    (hmeans : Means index phraseTerms scratch kind node) {terms terms' : List ℕ}
    (h : nodeWeights phraseTerms false node terms work = .ok (terms', work')) :
    ∃ new, terms' = terms ++ new ∧ Adds index (fun text => kind.names text = true) new := by
  have hnone : ∀ {kind : Kind}, (∀ text, kind.names text = false) →
      ∃ new, terms = terms ++ new ∧ Adds index (fun text => kind.names text = true) new :=
    fun hk => ⟨[], (List.append_nil _).symm, .nil fun text ht => by
      rw [hk text] at ht
      cases ht⟩
  cases kind <;> cases node <;> try exact absurd hmeans id
  case term.term text found =>
    have hadds := (Found.adds hb (show Found index text found from hmeans)).congr fun t =>
      (decide_eq_true_iff (p := t = text)).symm
    cases found with
    | none =>
      cases h
      exact ⟨_, (List.append_nil _).symm, hadds⟩
    | some term =>
      cases h
      exact ⟨_, rfl, hadds⟩
  case prefixed.prefixed start range =>
    obtain ⟨hin, hterms⟩ := hmeans
    refine ⟨_, prefixWeights_ok h, fun i => ?_⟩
    rw [List.mem_range'_1]
    constructor
    · intro hi
      have ht := List.getElem?_eq_getElem (l := index.terms) (i := i) (by omega)
      exact ⟨_, ht, List.isPrefixOf_iff_prefix.2 ((hterms i _ ht).2 hi)⟩
    · rintro ⟨t, ht, hprefix⟩
      exact (hterms i t ht).1 (List.isPrefixOf_iff_prefix.1 hprefix)
  case phrase.phrase texts range =>
    obtain ⟨-, -, hbound⟩ := hmeans
    obtain ⟨new, hnew, hadds⟩ := phraseWeights_ok hb hbound h
    exact ⟨new, hnew, hadds.congr fun _ => decide_eq_true_iff.symm⟩
  all_goals
    cases h
    exact hnone fun _ => rfl

/-- The nodes with their slots: what the weights walk over. -/
def NodesMean (index : ReferenceIndex) (phraseTerms : List PhraseTerm) (scratch : ℕ) :
    List (Bound × ℕ) → List (Kind × ℕ) → Prop :=
  List.Forall₂ fun b k => b.2 = k.2 ∧ Means index phraseTerms scratch k.1 b.1

theorem Means.mark {kind : Kind} {node : Bound} (h : Means index phraseTerms scratch kind node)
    (negative : List Bool) (slot : ℕ) : node.mark negative slot = kind.mark negative slot := by
  cases kind <;> cases node <;> try exact absurd h id
  case not.not c c' =>
    cases h
    rfl
  case and.and l r l' r' =>
    obtain ⟨rfl, rfl⟩ := h
    rfl
  case or.or l r l' r' =>
    obtain ⟨rfl, rfl⟩ := h
    rfl
  all_goals rfl

/-- The terms of the walk are those that a positive node looks for. -/
theorem weightsFrom_ok (hb : Built index) {nodes : List (Bound × ℕ)} {kinds : List (Kind × ℕ)}
    (hmeans : NodesMean index phraseTerms scratch nodes kinds) {negative : List Bool}
    {terms terms' : List ℕ}
    (h : weightsFrom phraseTerms nodes negative terms work = .ok (terms', work')) :
    ∃ new, terms' = terms ++ new ∧ Adds index
      (fun text => ∃ kind ∈ positiveKinds kinds negative, kind.names text = true) new := by
  induction hmeans generalizing negative terms work with
  | nil =>
    cases h
    exact ⟨[], (List.append_nil _).symm, .nil fun text ⟨kind, hk, _⟩ => List.not_mem_nil hk⟩
  | @cons b k nodes kinds hnode _ ih =>
    obtain ⟨node, slot⟩ := b
    obtain ⟨kind, slot'⟩ := k
    obtain ⟨hslot, hmeans⟩ := hnode
    dsimp only at hslot hmeans
    subst hslot
    obtain ⟨w, -, h⟩ := ok_of_bind h
    obtain ⟨⟨middle, w'⟩, hstep, h⟩ := ok_of_bind h
    dsimp only at h hstep
    rw [hmeans.mark] at h
    obtain ⟨rest, rfl, hrest⟩ := ih h
    rw [positiveKinds]
    cases hpolarity : negative.getD slot false with
    | true =>
      rw [hpolarity] at hstep
      cases hstep
      exact ⟨rest, rfl, hrest⟩
    | false =>
      rw [hpolarity] at hstep
      obtain ⟨new, rfl, hnew⟩ := nodeWeights_ok hb hmeans hstep
      refine ⟨new ++ rest, List.append_assoc _ _ _, ?_⟩
      refine (hnew.append hrest).congr fun text => ?_
      rw [if_neg Bool.false_ne_true, List.exists_mem_cons_iff]

/-- Dropping repetitions drops no value. -/
theorem mem_destutter_ne {i first : ℕ} {l : List ℕ} :
    i ∈ l.destutter' (· ≠ ·) first ↔ i ∈ first :: l := by
  induction l generalizing first with
  | nil => rw [List.destutter'_nil]
  | cons next l ih =>
    by_cases hne : first ≠ next
    · simp only [List.destutter'_cons_pos _ hne, List.mem_cons, ih]
    · have heq : first = next := not_not.1 hne
      rw [List.destutter'_cons_neg _ hne, ih, heq, List.mem_cons, List.mem_cons, List.mem_cons,
        or_self_left]

/-- A sorted list without repetitions ascends strictly. -/
theorem destutter_ascending {first : ℕ} {l : List ℕ} (h : (first :: l).Pairwise (· ≤ ·)) :
    (l.destutter' (· ≠ ·) first).Pairwise (· < ·) := by
  induction l generalizing first with
  | nil => exact List.pairwise_singleton _ _
  | cons next l ih =>
    obtain ⟨hfirst, hl⟩ := List.pairwise_cons.1 h
    by_cases hne : first ≠ next
    · rw [List.destutter'_cons_pos _ hne]
      refine List.pairwise_cons.2 ⟨fun i hi => ?_, ih hl⟩
      have hlt : first < next := Nat.lt_of_le_of_ne (hfirst next List.mem_cons_self) hne
      rcases List.mem_cons.1 (mem_destutter_ne.1 hi) with rfl | hi
      · exact hlt
      · exact Nat.lt_of_lt_of_le hlt ((List.pairwise_cons.1 hl).1 i hi)
    · rw [List.destutter'_cons_neg _ hne]
      exact ih (h.sublist ((List.sublist_cons_self next l).cons_cons first))

theorem destutter_insertionSort (terms : List ℕ) :
    ((terms.insertionSort (· ≤ ·)).destutter (· ≠ ·)).Pairwise (· < ·) ∧
      ∀ i, i ∈ (terms.insertionSort (· ≤ ·)).destutter (· ≠ ·) ↔ i ∈ terms := by
  have hsorted := List.pairwise_insertionSort (· ≤ ·) terms
  have hmem : ∀ i, i ∈ terms.insertionSort (· ≤ ·) ↔ i ∈ terms :=
    fun i => List.mem_insertionSort (· ≤ ·)
  cases hl : terms.insertionSort (· ≤ ·) with
  | nil =>
    rw [hl] at hmem
    exact ⟨.nil, hmem⟩
  | cons first l =>
    rw [hl] at hsorted hmem
    exact ⟨destutter_ascending hsorted, fun i => mem_destutter_ne.trans (hmem i)⟩

/-- The terms of the walk, in order and each once, have the texts that the query scores. -/
theorem Adds.texts {p : Text → Bool} {terms : List ℕ}
    (h : Adds index (fun text => p text = true) terms) :
    List.Forall₂ (fun i text => ∃ entry, index.terms[i]? = some entry ∧ entry.text = text)
      ((terms.insertionSort (· ≤ ·)).destutter (· ≠ ·))
      ((index.terms.map IndexTerm.text).filter p) := by
  obtain ⟨hascending, hmem⟩ := destutter_insertionSort terms
  have hslots : (index.terms.zipIdx.map Prod.snd).Pairwise (· < ·) := by
    rw [List.zipIdx_map_snd]
    exact List.pairwise_lt_range'
  let hits := index.terms.zipIdx.filter fun x => p x.1.text
  have hhits : (hits.map Prod.snd).Pairwise (· < ·) :=
    hslots.sublist (List.filter_sublist.map _)
  have hsame : (terms.insertionSort (· ≤ ·)).destutter (· ≠ ·) = hits.map Prod.snd := by
    refine List.Perm.eq_of_pairwise (fun a b _ _ hab hba => absurd hab (Nat.lt_asymm hba))
      hascending hhits ?_
    refine (List.perm_ext_iff_of_nodup (hascending.imp Nat.ne_of_lt)
      (hhits.imp Nat.ne_of_lt)).2 fun i => ?_
    rw [hmem, h i, List.mem_map]
    constructor
    · rintro ⟨t, ht, hp⟩
      exact ⟨(t, i), List.mem_filter.2 ⟨List.mem_zipIdx_iff_getElem?.2 ht, hp⟩, rfl⟩
    · rintro ⟨⟨t, i⟩, hx, rfl⟩
      obtain ⟨hx, hp⟩ := List.mem_filter.1 hx
      exact ⟨t, List.mem_zipIdx_iff_getElem?.1 hx, hp⟩
  have htexts : (index.terms.map IndexTerm.text).filter p = hits.map fun x => x.1.text := by
    have hfst := @List.zipIdx_map_fst _ 0 index.terms
    rw [← hfst, List.map_map, List.filter_map]
    rfl
  rw [hsame, htexts, List.forall₂_map_left_iff, List.forall₂_map_right_iff, List.forall₂_same]
  intro x hx
  exact ⟨x.1, List.mem_zipIdx_iff_getElem?.1 (List.mem_filter.1 hx).1, rfl⟩

/-- The nodes keep their slots. -/
theorem nodesMean_zipIdx {nodes : List Bound} {kinds : List Kind}
    (h : List.Forall₂ (Means index phraseTerms scratch) kinds nodes) (start : ℕ) :
    NodesMean index phraseTerms scratch (nodes.zipIdx start) (kinds.zipIdx start) := by
  induction h generalizing start with
  | nil => exact .nil
  | cons hnode _ ih => exact .cons ⟨rfl, hnode⟩ (ih (start + 1))

/-! ### Weights and scores -/

section Score

variable {σ : Type} [LinearOrder σ] {sc : Scoring σ} {epoch : StatsEpoch}

/-- The weights of some texts. -/
def textWeights (sc : Scoring σ) (epoch : StatsEpoch) : List Text → Except Error (List (Text × σ))
  | [] => .ok []
  | text :: texts => do
    let value ← sc.idf epoch.summary (epoch.documentFrequency text)
    let weights ← textWeights sc epoch texts
    .ok ((text, value) :: weights)

/-- The weights of a query: those of the terms that it scores. -/
def queryWeights (index : ReferenceIndex) (sc : Scoring σ) (epoch : StatsEpoch) (q : Query) :
    Except Error (List (Text × σ)) :=
  textWeights sc epoch (index.scoredTexts q)

/-- Adds the gains of the weights to a score. -/
def addGains (sc : Scoring σ) (average : σ) (text : Document) :
    List (Text × σ) → σ → Except Error σ
  | [], score => .ok score
  | (term, value) :: weights, score => do
    let gain ← sc.weightedScore value (text.count term) text.length average
    let score ← sc.add score gain
    addGains sc average text weights score

/-- The score of a document. -/
def documentScore (sc : Scoring σ) (epoch : StatsEpoch) (weights : List (Text × σ))
    (d : IndexDocument) : Except Error σ :=
  addGains sc (sc.averageLength epoch.summary) d.text weights sc.zero

/-- The weight of a term and that of its text. -/
def SameWeight (index : ReferenceIndex) (w : Weight σ) (t : Text × σ) : Prop :=
  (∃ entry, index.terms[w.term]? = some entry ∧ entry.text = t.1) ∧ w.value = t.2

omit [LinearOrder σ] in
/-- The weights of the code are those of the texts. -/
theorem weightValues_ok {terms : List ℕ} {texts : List Text}
    (hterms : List.Forall₂ (fun i text => ∃ entry, index.terms[i]? = some entry ∧ entry.text = text)
      terms texts) {found : List (Text × σ)} (hfound : textWeights sc epoch texts = .ok found) :
    Affordable Prod.mk (index.weightValues sc epoch terms) ∧
      ∀ work work' weights, index.weightValues sc epoch terms work = .ok (weights, work') →
        List.Forall₂ (SameWeight index) weights found := by
  induction hterms generalizing found with
  | nil =>
    cases hfound
    refine ⟨.pure [], fun work work' weights h => ?_⟩
    cases h
    exact .nil
  | @cons i text terms texts hi _ ih =>
    obtain ⟨value, hvalue, hfound⟩ := ok_of_bind hfound
    obtain ⟨rest, hrest, hfound⟩ := ok_of_bind hfound
    cases hfound
    obtain ⟨entry, hentry, rfl⟩ := hi
    obtain ⟨hafford, hsame⟩ := ih hrest
    constructor
    · refine .tick charge_succ ?_
      rw [hentry]
      dsimp only
      rw [hvalue]
      exact .bind hafford fun weights _ => .pure (⟨i, value⟩ :: weights)
    · intro work work' weights h
      obtain ⟨w, -, h⟩ := ok_of_bind h
      rw [hentry] at h
      dsimp only at h
      rw [hvalue, ok_bind] at h
      obtain ⟨⟨weights', w'⟩, hweights, h⟩ := ok_of_bind h
      cases h
      exact .cons ⟨⟨entry, hentry, rfl⟩, rfl⟩ (hsame _ _ _ hweights)

/-- Every posting stands once. -/
theorem nodup_allPostings (ordered : List IndexDocument) : (allPostings ordered).Nodup := by
  have hslots : ∀ {α : Type} (l : List α), (l.zipIdx.map Prod.snd).Nodup := fun l => by
    rw [List.zipIdx_map_snd]
    exact List.nodup_range'
  have hdocuments : ordered.zipIdx.Pairwise fun a b => a.2 ≠ b.2 :=
    List.pairwise_map.1 (hslots ordered)
  refine List.nodup_flatMap.2 ⟨fun x _ => ?_, hdocuments.imp fun {a b} hab p hpa hpb => hab ?_⟩
  · obtain ⟨d, ordinal⟩ := x
    refine List.Nodup.of_map Posting.position ?_
    change ((documentPostings d ordinal).map Posting.position).Nodup
    rw [documentPostings, List.map_map]
    exact hslots d.text
  · obtain ⟨x, -, rfl⟩ := List.mem_map.1 hpa
    obtain ⟨y, -, heq⟩ := List.mem_map.1 hpb
    exact (congrArg Posting.document heq).symm

/-- The postings of a term in a document are as many as its occurrences. -/
theorem Covers.len_eq_count (hb : Built index) (hnodup : index.postings.Nodup)
    {d : IndexDocument} {text : Text} {document : ℕ} {range : IndexRange}
    (hd : index.documents[document]? = some d) (hc : Covers index text document range) :
    range.len = d.text.count text := by
  have hslots : (d.text.zipIdx.map Prod.snd).Nodup := by
    rw [List.zipIdx_map_snd]
    exact List.nodup_range'
  have hslice : (range.slice index.postings).Nodup :=
    hnodup.sublist ((List.take_sublist _ _).trans (List.drop_sublist _ _))
  have hpositions : ((range.slice index.postings).map Posting.position).Nodup := by
    refine hslice.map_on fun p hp q hq heq => ?_
    obtain ⟨-, hterm, hdocument⟩ := (hc.mem p).1 hp
    obtain ⟨-, hterm', hdocument'⟩ := (hc.mem q).1 hq
    obtain ⟨term, document, position⟩ := p
    obtain ⟨term', document', position'⟩ := q
    dsimp only at hterm hdocument hterm' hdocument' heq
    rw [hterm, hterm', hdocument, hdocument', heq]
  have hperm : ((range.slice index.postings).map Posting.position).Perm
      ((d.text.zipIdx.filter fun x => decide (x.1 = text)).map Prod.snd) := by
    refine (List.perm_ext_iff_of_nodup hpositions
      (hslots.sublist (List.filter_sublist.map _))).2 fun i => ?_
    rw [List.mem_map, hc.position_iff hb hd, List.mem_map]
    constructor
    · intro hi
      exact ⟨(text, i), List.mem_filter.2 ⟨List.mem_zipIdx_iff_getElem?.2 hi,
        decide_eq_true rfl⟩, rfl⟩
    · rintro ⟨⟨text', i'⟩, hx, rfl⟩
      obtain ⟨hx, htext⟩ := List.mem_filter.1 hx
      rw [← of_decide_eq_true htext]
      exact List.mem_zipIdx_iff_getElem?.1 hx
  have hlength := hperm.length_eq
  rw [List.length_map, List.length_map, hc.len] at hlength
  rw [hlength, ← List.countP_eq_length_filter]
  calc d.text.zipIdx.countP (fun x => decide (x.1 = text)) =
      (d.text.zipIdx.map Prod.fst).countP fun t => decide (t = text) := by
        rw [List.countP_map]
        rfl
    _ = d.text.count text := by
        rw [List.zipIdx_map_fst, List.count]
        refine List.countP_congr fun t _ => ?_
        rw [decide_eq_true_eq, beq_iff_eq]

/-- The score of the code is that of the document. -/
theorem scoreFrom_ok (hb : Built index) (hnodup : index.postings.Nodup) {d : IndexDocument}
    {document : ℕ} (hd : index.documents[document]? = some d) {average score final : σ}
    {weights : List (Weight σ)} {found : List (Text × σ)}
    (hsame : List.Forall₂ (SameWeight index) weights found)
    (hfinal : addGains sc average d.text found score = .ok final) :
    Affordable Prod.mk
        (index.scoreFrom sc average document d.text.length weights score) ∧
      ∀ work work' result,
        index.scoreFrom sc average document d.text.length weights score work =
          .ok (result, work') → result = final := by
  induction hsame generalizing score with
  | nil =>
    cases hfinal
    refine ⟨.pure _, fun work work' result h => ?_⟩
    cases h
    rfl
  | @cons w t weights found hw _ ih =>
    obtain ⟨term, value⟩ := t
    obtain ⟨⟨entry, hentry, htext⟩, hvalue⟩ := hw
    dsimp only at htext hvalue
    subst htext hvalue
    obtain ⟨gain, hgain, hfinal⟩ := ok_of_bind hfinal
    obtain ⟨score', hscore', hfinal⟩ := ok_of_bind hfinal
    obtain ⟨hafford, hsame⟩ := ih hfinal
    have hlt := (List.getElem?_eq_some_iff.1 hentry).1
    have hlen : ∀ {work work' range},
        index.termPostings w.term document work = .ok (range, work') →
          range.len = d.text.count entry.text ∧ range.len < u32Limit := by
      intro work work' range h
      obtain ⟨entry', hentry', hc⟩ := termPostings_ok hb h
      rw [hentry] at hentry'
      cases hentry'
      have hcount := hc.len_eq_count hb hnodup hd
      refine ⟨hcount, ?_⟩
      rw [hcount]
      exact Nat.lt_of_le_of_lt List.count_le_length d.length_lt
    constructor
    · refine .tick charge_succ (.bind (affordable_termPostings hlt) fun range hrange => ?_)
      obtain ⟨work, work', hrange⟩ := hrange
      obtain ⟨hcount, hsmall⟩ := hlen hrange
      dsimp only
      refine .ite (fun hle => absurd hle (Nat.not_le.2 hsmall)) fun _ => ?_
      simp only [hcount, hgain, hscore', ok_bind]
      exact hafford
    · intro work work' result h
      obtain ⟨w', -, h⟩ := ok_of_bind h
      obtain ⟨⟨range, w''⟩, hrange, h⟩ := ok_of_bind h
      obtain ⟨hcount, hsmall⟩ := hlen hrange
      dsimp only at h
      rw [if_neg (Nat.not_le.2 hsmall), hcount, hgain, ok_bind, hscore', ok_bind] at h
      exact hsame _ _ _ h

end Score

/-! ### Enough for the weights -/

theorem affordable_phraseWeights (tokens : List PhraseTerm) (terms : List ℕ) :
    Affordable Prod.mk (phraseWeights tokens terms) := by
  induction tokens generalizing terms with
  | nil => exact .pure terms
  | cons token tokens ih => exact .tick charge_succ (ih _)

theorem affordable_prefixWeights (count term : ℕ) (terms : List ℕ) :
    Affordable Prod.mk (prefixWeights count term terms) := by
  induction count generalizing term terms with
  | zero => exact .pure terms
  | succ count ih => exact .tick charge_succ (ih _ _)

theorem affordable_nodeWeights (polarity : Bool) (node : Bound) (terms : List ℕ) :
    Affordable Prod.mk (nodeWeights phraseTerms polarity node terms) := by
  refine .ite (fun _ => .pure terms) fun _ => ?_
  cases node with
  | term found =>
    cases found with
    | none => exact .pure terms
    | some term => exact .pure _
  | phrase range => exact affordable_phraseWeights _ _
  | prefixed range => exact affordable_prefixWeights _ _ _
  | never | not c | and l r | or l r => exact .pure terms

theorem affordable_weightsFrom (nodes : List (Bound × ℕ)) (negative : List Bool)
    (terms : List ℕ) : Affordable Prod.mk (weightsFrom phraseTerms nodes negative terms) := by
  induction nodes generalizing negative terms with
  | nil => exact .pure terms
  | cons b nodes ih =>
    obtain ⟨node, slot⟩ := b
    exact .tick charge_succ (.bind (affordable_nodeWeights _ _ _) fun _ _ => ih _ _)

section Run

variable {σ : Type} {sc : Scoring σ} {epoch : StatsEpoch} {z : RankSizes}
  {q : Query} {s s' : Search} {found : List (Text × σ)}

/-- The search with another budget and some work left. -/
def Search.within (s : Search) (budget : MemoryBudget) (work : ℕ) : Search :=
  { s with
    budget := budget
    work := work }

theorem Search.Ready.within (hs : s.Ready q) (budget : MemoryBudget) (work : ℕ) :
    (s.within budget work).Ready q := ⟨hs.built, hs.means, hs.values, hs.root⟩

/-- The bytes of the weights. -/
def weightBytes (z : RankSizes) (s : Search) : ℕ := (s.nodes.map Bound.additional).sum * z.weight

/-- The terms that the walk over the nodes finds have the texts that the query scores. -/
theorem Search.Ready.texts (hs : s.Ready q) {terms : List ℕ}
    (h : weightsFrom s.phraseTerms s.nodes.zipIdx.reverse (List.replicate s.nodes.length false) []
      work = .ok (terms, work')) :
    List.Forall₂ (fun i text => ∃ entry, s.index.terms[i]? = some entry ∧ entry.text = text)
      ((terms.insertionSort (· ≤ ·)).destutter (· ≠ ·)) (s.index.scoredTexts q) := by
  have hnodes : NodesMean s.index s.phraseTerms s.ranges.length s.nodes.zipIdx.reverse
      q.nodes.zipIdx.reverse := List.rel_reverse (nodesMean_zipIdx hs.means 0)
  have hlength : s.nodes.length = q.nodes.length := hs.means.length_eq.symm
  rw [hlength] at h
  obtain ⟨new, rfl, hadds⟩ := weightsFrom_ok hs.built hnodes h
  exact Adds.texts (p := fun text => q.positive.any fun kind => kind.names text)
    (hadds.congr fun text => List.any_eq_true.symm)

/-- The weights of a search are those of its query. -/
theorem weights_ok (hs : s.Ready q) (hfound : s.index.queryWeights sc epoch q = .ok found)
    {weights : List (Weight σ)} (h : s.index.weights z sc epoch s = .ok (weights, s')) :
    List.Forall₂ (SameWeight s.index) weights found ∧
      ∃ budget work, s' = s.within budget work := by
  unfold ReferenceIndex.weights at h
  dsimp only at h
  split_ifs at h
  obtain ⟨weightBudget, -, h⟩ := ok_of_bind h
  obtain ⟨flagBudget, -, h⟩ := ok_of_bind h
  obtain ⟨⟨terms, w⟩, hterms, h⟩ := ok_of_bind h
  obtain ⟨budget, -, h⟩ := ok_of_bind h
  obtain ⟨⟨values, w'⟩, hvalues, h⟩ := ok_of_bind h
  cases h
  exact ⟨(weightValues_ok (hs.texts hterms) hfound).2 _ _ _ hvalues, budget, w', rfl⟩

/-- With enough memory and work the weights are computed. -/
theorem affordable_weights (hs : s.Ready q) (hfound : s.index.queryWeights sc epoch q = .ok found) :
    ∃ weights cost, List.Forall₂ (SameWeight s.index) weights found ∧
      ∀ (budget : MemoryBudget) (work : ℕ),
        budget.used + weightBytes z s + s.nodes.length ≤ budget.limit →
        budget.limit < usizeLimit →
        s.index.weights z sc epoch (s.within budget (work + cost)) = .ok (weights,
          s.within { budget with used := budget.used + weightBytes z s } work) := by
  obtain ⟨terms, cost, hterms⟩ := @affordable_weightsFrom s.phraseTerms s.nodes.zipIdx.reverse
    (List.replicate s.nodes.length false) []
  obtain ⟨hafford, hsame⟩ := weightValues_ok (hs.texts (hterms 0)) hfound
  obtain ⟨weights, cost', hvalues⟩ := hafford
  refine ⟨weights, cost' + cost, hsame _ _ _ (hvalues 0), fun budget work hroom hlimit => ?_⟩
  have hcount : (s.nodes.map Bound.additional).sum ≤ weightBytes z s :=
    Nat.le_mul_of_pos_right _ z.weight_pos
  unfold ReferenceIndex.weights
  dsimp only [Search.within]
  rw [if_neg (by omega), MemoryBudget.vector, if_pos (by rw [← weightBytes]; omega), ok_bind,
    MemoryBudget.vector, if_pos (by rw [← weightBytes]; dsimp only; omega), ok_bind,
    ← Nat.add_assoc, hterms, ok_bind]
  dsimp only
  rw [MemoryBudget.release, if_pos (by dsimp only; omega), ok_bind, hvalues, ok_bind]
  dsimp only
  rw [Nat.mul_one, Nat.add_sub_cancel, ← weightBytes]

/-! ### The run -/

/-- The entries of the documents that are left. -/
def entriesFrom (q : Query) (allowed : DocumentRef → Bool) (score : IndexDocument → σ)
    (documents : List (IndexDocument × ℕ)) : List (HeapEntry σ) :=
  (documents.filter fun x => oracle x.1.text q && allowed x.1.identity).map fun x =>
    ⟨x.2, score x.1⟩

variable {allowed : DocumentRef → Bool} {score : IndexDocument → σ}

theorem entriesFrom_skipped {skipped : List IndexDocument} {start : ℕ}
    (h : ∀ d ∈ skipped, oracle d.text q = false) :
    entriesFrom q allowed score (skipped.zipIdx start) = [] := by
  rw [entriesFrom, List.map_eq_nil_iff, List.filter_eq_nil_iff]
  intro x hx
  rw [h x.1 (List.fst_mem_of_mem_zipIdx hx), Bool.false_and]
  exact Bool.false_ne_true

/-- The entries of a document that was found and of those behind it. -/
theorem entriesFrom_found {skipped rest : List IndexDocument} {d : IndexDocument} {start : ℕ}
    (hskipped : ∀ d ∈ skipped, oracle d.text q = false) (hd : oracle d.text q = true) :
    entriesFrom q allowed score ((skipped ++ d :: rest).zipIdx start) =
      (if allowed d.identity then [⟨start + skipped.length, score d⟩] else []) ++
        entriesFrom q allowed score (rest.zipIdx (start + skipped.length + 1)) := by
  have hnil := @entriesFrom_skipped σ q allowed score skipped start hskipped
  unfold entriesFrom at *
  rw [List.zipIdx_append, List.filter_append, List.map_append, hnil, List.nil_append,
    List.zipIdx_cons, List.filter_cons]
  dsimp only
  rw [hd, Bool.true_and]
  cases allowed d.identity <;> rfl

variable [LinearOrder σ]

/-- What is eligible among the matching documents, and how it scores. -/
structure Judged (sc : Scoring σ) (epoch : StatsEpoch) (q : Query) (found : List (Text × σ))
    (eligible : DocumentRef → Except Error Bool) (allowed : DocumentRef → Bool)
    (score : IndexDocument → σ) (documents : List IndexDocument) : Prop where
  eligible : ∀ d ∈ documents, oracle d.text q = true →
    eligible d.identity = .ok (allowed d.identity)
  score : ∀ d ∈ documents, oracle d.text q = true → allowed d.identity = true →
    documentScore sc epoch found d = .ok (score d)

variable {eligible : DocumentRef → Except Error Bool} {weights : List (Weight σ)}
  {capacity fuel : ℕ} {heap heap' : List (HeapEntry σ)}

omit [LinearOrder σ] in
theorem Search.next_none (hs : s.Ready q) (hindex : s.index = index) (hfailed : s.failed = false)
    (h : s.next = (none, s')) :
    ∀ d ∈ index.documents.drop s.nextDocument, oracle d.text q = false := by
  rw [Search.next, if_neg (by rw [hfailed]; exact Bool.false_ne_true)] at h
  rw [← hindex]
  exact (Search.nextFrom_ok hs rfl h).1 rfl

/-- What a call of `next` found among the documents that are left. -/
theorem Search.next_some (hs : s.Ready q) (hindex : s.index = index) {c : Candidate}
    (h : s.next = (some (.ok c), s')) : ∃ skipped d rest,
      index.documents.drop s.nextDocument = skipped ++ d :: rest ∧
        (∀ d ∈ skipped, oracle d.text q = false) ∧ oracle d.text q = true ∧
        index.documents[s.nextDocument + skipped.length]? = some d ∧
        c = ⟨d.identity, s.nextDocument + skipped.length⟩ ∧ s'.Ready q ∧ s'.failed = false ∧
        s'.index = index ∧ (index.documents.drop s'.nextDocument).length = rest.length ∧
        (index.documents.drop s'.nextDocument).zipIdx s'.nextDocument =
          rest.zipIdx (s.nextDocument + skipped.length + 1) := by
  subst hindex
  have hfailed : s.failed = false := by
    rw [← Bool.not_eq_true]
    intro hf
    rw [Search.next, if_pos hf] at h
    cases h
  rw [Search.next, if_neg (by rw [hfailed]; exact Bool.false_ne_true)] at h
  obtain ⟨skipped, d, rest, hsplit, hskipped, hd, hc, hready, hfailed', hindex, hrest⟩ :=
    (Search.nextFrom_ok hs rfl h).2 c rfl
  rw [hindex] at hrest
  refine ⟨skipped, d, rest, hsplit, hskipped, hd, ?_, hc, hready, hfailed'.trans hfailed, hindex,
    congrArg List.length hrest, ?_⟩
  · rw [← List.getElem?_drop, hsplit, List.getElem?_append_right (Nat.le_refl _), Nat.sub_self]
    rfl
  · have hlength := congrArg List.length hsplit
    have hlength' := congrArg List.length hrest
    rw [List.length_drop, List.length_append, List.length_cons] at hlength
    rw [List.length_drop] at hlength'
    rw [hrest]
    cases rest with
    | nil => rfl
    | cons d' rest =>
      rw [List.length_cons] at hlength hlength'
      rw [show s'.nextDocument = s.nextDocument + skipped.length + 1 by omega]

/-- A run of the search keeps the best entries of the documents that are left. -/
theorem collect_ok (hs : s.Ready q) (hindex : s.index = index) (hfailed : s.failed = false)
    (hnodup : index.postings.Nodup)
    (hj : Judged sc epoch q found eligible allowed score index.documents)
    (hsame : List.Forall₂ (SameWeight index) weights found)
    (hfuel : (index.documents.drop s.nextDocument).length < fuel)
    (h : index.collect sc (sc.averageLength epoch.summary) weights capacity eligible fuel s heap =
      .ok (heap', s')) :
    heap' = (entriesFrom q allowed score
      ((index.documents.drop s.nextDocument).zipIdx s.nextDocument)).foldl
        (TopK.keep HeapEntry.le capacity) heap := by
  induction fuel generalizing s heap with
  | zero => exact absurd hfuel (Nat.not_lt_zero _)
  | succ fuel ih =>
    unfold collect at h
    generalize hnext : s.next = r at h
    obtain ⟨r, t⟩ := r
    match r, h with
    | none, h =>
      cases h
      rw [entriesFrom_skipped (Search.next_none hs hindex hfailed hnext)]
      rfl
    | some (.ok candidate), h =>
      obtain ⟨skipped, d, rest, hsplit, hskipped, hd, hat, rfl, ht, hfailed', hindex', hlength,
        hlater⟩ := Search.next_some hs hindex hnext
      have hmem : d ∈ index.documents := List.mem_of_getElem? hat
      have hshort : (index.documents.drop t.nextDocument).length < fuel := by
        rw [hsplit, List.length_append, List.length_cons] at hfuel
        omega
      obtain ⟨w, -, h⟩ := ok_of_bind h
      rw [hj.eligible d hmem hd, ok_bind] at h
      rw [hsplit, entriesFrom_found hskipped hd, ← hlater]
      cases hallowed : allowed d.identity with
      | false =>
        rw [hallowed, if_neg Bool.false_ne_true] at h
        rw [if_neg Bool.false_ne_true, List.nil_append]
        exact ih (s := t.withWork w) (ht.withWork w) hindex' hfailed' hshort h
      | true =>
        rw [hallowed, if_pos rfl] at h
        dsimp only at h
        rw [hat] at h
        obtain ⟨⟨total, w'⟩, htotal, h⟩ := ok_of_bind h
        rw [if_pos rfl, List.singleton_append, List.foldl_cons]
        have heq := (scoreFrom_ok (hindex ▸ hs.built) hnodup hat hsame
          (hj.score d hmem hd hallowed)).2 _ _ _ htotal
        rw [← heq]
        exact ih (s := t.withWork w') (ht.withWork w') hindex' hfailed' hshort h

/-- With enough work a run of the search returns. -/
theorem affordable_collect (hs : s.Ready q) (hindex : s.index = index)
    (hfailed : s.failed = false) (hnodup : index.postings.Nodup)
    (hj : Judged sc epoch q found eligible allowed score index.documents)
    (hsame : List.Forall₂ (SameWeight index) weights found)
    (hfuel : (index.documents.drop s.nextDocument).length < fuel) :
    Affordable (fun (x : List (HeapEntry σ) × Search) work => (x.1, x.2.withWork work)) fun work =>
      index.collect sc (sc.averageLength epoch.summary) weights capacity eligible fuel
        (s.withWork work) heap := by
  induction fuel generalizing s heap with
  | zero => exact absurd hfuel (Nat.not_lt_zero _)
  | succ fuel ih =>
    obtain ⟨r, t, cost, hr, hnext⟩ := Search.affordable_next hs
    match r, hr with
    | none, _ =>
      refine ⟨(heap, t), cost, fun work => ?_⟩
      dsimp only
      rw [collect, hnext]
    | some (.error e), hr => exact absurd rfl (hr e)
    | some (.ok candidate), _ =>
      obtain ⟨skipped, d, rest, hsplit, hskipped, hd, hat, rfl, ht, hfailed', hindex', hlength,
        -⟩ := Search.next_some (hs.withWork (0 + cost)) hindex (hnext 0)
      have hmem : d ∈ index.documents := List.mem_of_getElem? hat
      have hshort : (index.documents.drop t.nextDocument).length < fuel := by
        have hsplit' : index.documents.drop s.nextDocument = skipped ++ d :: rest := hsplit
        have hlength' : (index.documents.drop t.nextDocument).length = rest.length := hlength
        rw [hsplit', List.length_append, List.length_cons] at hfuel
        omega
      have hready : t.Ready q := ht.withWork t.work
      have heligible := hj.eligible d hmem hd
      have hbody : Affordable (fun (x : List (HeapEntry σ) × Search) work =>
          (x.1, x.2.withWork work))
          fun work => charge 1 work >>= fun work => if allowed d.identity then
            index.scoreFrom sc (sc.averageLength epoch.summary) (s.nextDocument + skipped.length)
              d.text.length weights sc.zero work >>= fun x =>
                index.collect sc (sc.averageLength epoch.summary) weights capacity eligible fuel
                  (t.withWork x.2)
                  (TopK.keep HeapEntry.le capacity heap ⟨s.nextDocument + skipped.length, x.1⟩)
          else index.collect sc (sc.averageLength epoch.summary) weights capacity eligible fuel
            (t.withWork work) heap := by
        refine .tick charge_succ (.ite (fun hallowed => ?_) fun _ => ?_)
        · have hscore := scoreFrom_ok (hindex ▸ hs.built) hnodup hat hsame
            (hj.score d hmem hd hallowed)
          refine .bind hscore.1 fun _ _ => ?_
          dsimp only
          exact ih hready hindex' hfailed' hshort
        · exact ih hready hindex' hfailed' hshort
      obtain ⟨x, cost', hx⟩ := hbody
      refine ⟨x, cost' + cost, fun work => ?_⟩
      dsimp only
      dsimp only at hx
      have hat' : index.documents[s.nextDocument + skipped.length]? = some d := hat
      rw [collect, ← Nat.add_assoc, hnext, ← hx work]
      dsimp only [Search.withWork]
      refine bind_congr fun left => ?_
      rw [heligible, ok_bind, hat']

/-! ### The budget of a run -/

/-- The search with another budget. -/
def Search.withBudget (s : Search) (budget : MemoryBudget) : Search := { s with budget := budget }

omit [LinearOrder σ] in
theorem Search.matchesDocument_withBudget (s : Search) (document : ℕ) (budget : MemoryBudget) :
    (s.withBudget budget).matchesDocument document =
      (s.matchesDocument document).map fun x => (x.1, x.2.withBudget budget) := by
  unfold Search.matchesDocument
  dsimp only [Search.withBudget]
  cases s.index.valuesFrom s.phraseTerms document s.nodes 0 s.values s.ranges s.work <;> rfl

omit [LinearOrder σ] in
theorem Search.nextFrom_withBudget (documents : List IndexDocument) (s : Search)
    (budget : MemoryBudget) : Search.nextFrom documents (s.withBudget budget) =
      ((Search.nextFrom documents s).1, (Search.nextFrom documents s).2.withBudget budget) := by
  induction documents generalizing s with
  | nil => rfl
  | cons d documents ih =>
    have hmatch := Search.matchesDocument_withBudget
      { s with nextDocument := s.nextDocument + 1 } s.nextDocument budget
    rw [Search.nextFrom, Search.nextFrom]
    dsimp only [Search.withBudget] at hmatch ih ⊢
    rw [hmatch]
    cases Search.matchesDocument { s with nextDocument := s.nextDocument + 1 } s.nextDocument with
    | error e => rfl
    | ok x =>
      obtain ⟨b, t⟩ := x
      cases b with
      | true => rfl
      | false => exact ih t

/-- A run does not look at the budget. -/
theorem collect_withBudget (budget : MemoryBudget) :
    index.collect sc (sc.averageLength epoch.summary) weights capacity eligible fuel
        (s.withBudget budget) heap =
      (index.collect sc (sc.averageLength epoch.summary) weights capacity eligible fuel s heap).map
        fun x => (x.1, x.2.withBudget budget) := by
  induction fuel generalizing s heap with
  | zero => rfl
  | succ fuel ih =>
    have hnext : (s.withBudget budget).next = (s.next.1, s.next.2.withBudget budget) := by
      have hfailed : (s.withBudget budget).failed = s.failed := rfl
      rw [Search.next, Search.next, hfailed]
      split_ifs
      · rfl
      · exact Search.nextFrom_withBudget _ _ _
    rw [collect, collect, hnext]
    generalize s.next = r
    obtain ⟨r, t⟩ := r
    rcases r with _ | e | candidate
    · rfl
    · rfl
    · dsimp only
      dsimp only [Search.withBudget] at ih ⊢
      cases charge 1 t.work with
      | error e => rfl
      | ok w =>
        rw [ok_bind, ok_bind]
        cases eligible candidate.document with
        | error e => rfl
        | ok accepted =>
          rw [ok_bind, ok_bind]
          cases accepted with
          | false => exact ih (s := t.withWork w)
          | true =>
            rw [if_pos rfl, if_pos rfl]
            cases index.documents[candidate.ordinal]? with
            | none => rfl
            | some d =>
              dsimp only
              cases index.scoreFrom sc (sc.averageLength epoch.summary) candidate.ordinal
                  d.text.length weights sc.zero w with
              | error e => rfl
              | ok x => exact ih (s := t.withWork x.2)

end Run

end ReferenceIndex

end PinCore
