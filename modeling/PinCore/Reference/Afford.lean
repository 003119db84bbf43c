import PinCore.Lib.Meter
import PinCore.Reference.Answer

/-!
# Enough work for a search

Every part of a search is affordable: with enough work it returns, and the work that is left over
does not change what it returns.
-/

namespace PinCore

namespace ReferenceIndex

variable {index : ReferenceIndex} {document : ℕ} {phraseTerms : List PhraseTerm}

/-- The index of a term, if there is one. -/
def TermOk (index : ReferenceIndex) (term : Option ℕ) : Prop :=
  ∀ i, term = some i → i < index.terms.length

theorem Found.termOk {text : Text} {found : Option ℕ} (h : Found index text found) :
    TermOk index found := by
  intro i hi
  subst hi
  obtain ⟨t, ht, -⟩ := h
  exact (List.getElem?_eq_some_iff.1 ht).1

/-! ### Binding -/

theorem affordable_lookup (text : Text) : Affordable Prod.mk (index.lookup text) :=
  .bind (affordable_lowerBound charge_succ) fun _ _ => .pure _

theorem affordable_prefixed (start : Text) : Affordable Prod.mk (index.prefixed start) :=
  .bind (affordable_lowerBound charge_succ) fun _ _ =>
    .bind (affordable_lowerBound charge_succ) fun _ _ => .pure _

theorem affordable_termPostings {term : ℕ} (h : term < index.terms.length) :
    Affordable Prod.mk (index.termPostings term document) := by
  unfold termPostings
  rw [List.getElem?_eq_getElem h]
  exact .bind (affordable_lowerBound charge_succ) fun _ _ =>
    .bind (affordable_lowerBound charge_succ) fun _ _ => .pure _

theorem affordable_hasPosition (range : IndexRange) (position : ℕ) :
    Affordable Prod.mk (index.hasPosition range position) :=
  .bind (affordable_lowerBound charge_succ) fun _ _ => .pure _

theorem affordable_bindTerms {texts : List Text} {offset : ℕ} {bound : List PhraseTerm}
    (hsmall : offset + texts.length ≤ u32Limit) :
    Affordable Prod.mk (index.bindTerms texts offset bound) := by
  induction texts generalizing offset bound with
  | nil => exact .pure bound
  | cons text texts ih =>
    rw [List.length_cons] at hsmall
    refine .tick charge_succ (.bind (affordable_lookup text) fun found _ => ?_)
    exact .ite (fun hle => absurd hle (by omega)) fun _ => ih (by omega)

/-- The pass with some work left. -/
def Binding.withWork (s : Binding) (work : ℕ) : Binding := { s with work := work }

/-- No prefix has more terms than the index. -/
theorem prefixed_len_le (hb : Built index) {start : Text} {range : IndexRange} {work work' : ℕ}
    (h : index.prefixed start work = .ok (range, work')) : range.len ≤ index.terms.length :=
  Nat.le_trans (Nat.le_add_left _ _) (prefixed_ok hb h).1

theorem affordable_bindNode (hb : Built index) {limits : SearchLimits} {s : Binding} {kind : Kind}
    (hexpanded : s.expanded + index.terms.length ≤ limits.expandedTerms)
    (hphrase : ∀ ts, kind = .phrase ts → ts.length ≤ u32Limit) :
    Affordable Binding.withWork fun work => index.bindNode limits (s.withWork work) kind := by
  cases kind with
  | none => exact ⟨{ s with nodes := s.nodes ++ [.never] }, 0, fun _ => rfl⟩
  | term text =>
    dsimp only [bindNode, Binding.withWork]
    refine .bind (affordable_lookup text) fun found _ => ?_
    exact ⟨{ s with nodes := s.nodes ++ [.term found] }, 0, fun _ => rfl⟩
  | prefixed start =>
    change Affordable Binding.withWork fun work => index.prefixed start work >>= fun x =>
      if limits.expandedTerms < s.expanded + x.1.len then .error (.limit "prefix expansion")
      else .ok { s with
        nodes := s.nodes ++ [.prefixed x.1]
        expanded := s.expanded + x.1.len
        work := x.2 }
    refine .bind (affordable_prefixed start) fun range hrange => ?_
    obtain ⟨work, work', hrange⟩ := hrange
    have hlen := prefixed_len_le hb hrange
    refine .ite (c := limits.expandedTerms < s.expanded + range.len) (fun hlt => absurd hlt ?_)
      fun _ => ?_
    · exact Nat.not_lt.2 (Nat.le_trans (Nat.add_le_add_left hlen _) hexpanded)
    · exact ⟨{ s with
        nodes := s.nodes ++ [.prefixed range]
        expanded := s.expanded + range.len }, 0, fun _ => rfl⟩
  | phrase texts =>
    have hsmall : 0 + texts.length ≤ u32Limit := by
      rw [Nat.zero_add]
      exact hphrase texts rfl
    dsimp only [bindNode, Binding.withWork]
    refine .bind (affordable_bindTerms hsmall) fun bound _ => ?_
    exact ⟨{ s with
      nodes := s.nodes ++ [.phrase ⟨s.phraseTerms.length, bound.length⟩]
      phraseTerms := bound
      longest := max s.longest texts.length }, 0, fun _ => rfl⟩
  | not c => exact ⟨{ s with nodes := s.nodes ++ [.not c] }, 0, fun _ => rfl⟩
  | and l r => exact ⟨{ s with nodes := s.nodes ++ [.and l r] }, 0, fun _ => rfl⟩
  | or l r => exact ⟨{ s with nodes := s.nodes ++ [.or l r] }, 0, fun _ => rfl⟩

/-- A node expands at most all terms. -/
theorem bindNode_expanded (hb : Built index) {limits : SearchLimits} {s s' : Binding} {kind : Kind}
    (h : index.bindNode limits s kind = .ok s') :
    s'.expanded ≤ s.expanded + index.terms.length := by
  cases kind with
  | term text =>
    obtain ⟨found, -, h⟩ := ok_of_bind h
    cases h
    exact Nat.le_add_right _ _
  | prefixed start =>
    obtain ⟨⟨range, w⟩, hrange, h⟩ := ok_of_bind h
    dsimp only at h
    split_ifs at h
    cases h
    exact Nat.add_le_add_left (prefixed_len_le hb hrange) _
  | phrase texts =>
    obtain ⟨bound, -, h⟩ := ok_of_bind h
    cases h
    exact Nat.le_add_right _ _
  | none | not c | and l r | or l r =>
    cases h
    exact Nat.le_add_right _ _

theorem affordable_bindNodes (hb : Built index) {limits : SearchLimits} {kinds : List Kind}
    {s : Binding} (hexpanded : s.expanded + kinds.length * index.terms.length ≤
      limits.expandedTerms)
    (hphrase : ∀ ts, Kind.phrase ts ∈ kinds → ts.length ≤ u32Limit) :
    Affordable Binding.withWork fun work => index.bindNodes limits kinds (s.withWork work) := by
  induction kinds generalizing s with
  | nil => exact .pure s
  | cons kind kinds ih =>
    rw [List.length_cons, Nat.succ_mul] at hexpanded
    have hnode := @affordable_bindNode index hb limits s kind (by omega) fun ts hts =>
      hphrase ts (hts ▸ List.mem_cons_self)
    refine .tick charge_succ (.bind hnode fun t ht => ?_)
    obtain ⟨work, work', ht⟩ := ht
    have hexpanded' : (t.withWork work').expanded ≤ (s.withWork work).expanded +
        index.terms.length := bindNode_expanded hb ht
    simp only [Binding.withWork] at hexpanded'
    exact ih (by omega) fun ts hts => hphrase ts (List.mem_cons_of_mem _ hts)

theorem bindNode_congr (hb : Built index) {limits limits' : SearchLimits} {s : Binding}
    {kind : Kind}
    (hexpanded : s.expanded + index.terms.length ≤ limits.expandedTerms)
    (hexpanded' : s.expanded + index.terms.length ≤ limits'.expandedTerms) :
    index.bindNode limits s kind = index.bindNode limits' s kind := by
  cases kind with
  | prefixed start =>
    rw [bindNode, bindNode]
    cases hrange : index.prefixed start s.work with
    | error e => rfl
    | ok r =>
      have hlen := prefixed_len_le hb hrange
      rw [ok_bind, ok_bind]
      dsimp only
      rw [if_neg (by omega), if_neg (by omega)]
  | _ => rfl

/-- Higher limits do not change how a query is bound. -/
theorem bindNodes_congr (hb : Built index) {limits limits' : SearchLimits} {kinds : List Kind}
    {s : Binding} (hexpanded : s.expanded + kinds.length * index.terms.length ≤
      limits.expandedTerms)
    (hexpanded' : s.expanded + kinds.length * index.terms.length ≤ limits'.expandedTerms) :
    index.bindNodes limits kinds s = index.bindNodes limits' kinds s := by
  induction kinds generalizing s with
  | nil => rfl
  | cons kind kinds ih =>
    rw [List.length_cons, Nat.succ_mul] at hexpanded hexpanded'
    rw [bindNodes, bindNodes]
    refine bind_congr fun work => ?_
    have hnode := @bindNode_congr index hb limits limits' { s with work := work } kind
      (by dsimp only; omega) (by dsimp only; omega)
    rw [hnode]
    cases hstep : index.bindNode limits' { s with work := work } kind with
    | error e => rfl
    | ok t =>
      have hexpanded'' := bindNode_expanded hb hstep
      dsimp only at hexpanded''
      rw [ok_bind, ok_bind]
      exact ih (by omega) (by omega)

/-! ### Evaluating a document -/

/-- The terms of a phrase that were found are terms of the index. -/
def TermsOk (index : ReferenceIndex) (terms : List PhraseTerm) : Prop :=
  ∀ t ∈ terms, TermOk index t.term

/-- A result with the scratch for ranges. -/
def withRanges {α : Type} (x : α × List IndexRange) (work : ℕ) : α × List IndexRange × ℕ :=
  (x.1, x.2, work)

theorem BoundTerms.termsOk {offset : ℕ} {texts : List Text} {bound : List PhraseTerm}
    (h : BoundTerms index offset texts bound) : TermsOk index bound := by
  intro t ht
  obtain ⟨k, hk⟩ := List.mem_iff_getElem?.1 ht
  have hlt := (List.getElem?_eq_some_iff.1 hk).1
  rw [h.1] at hlt
  obtain ⟨t', ht', -, hfound⟩ := h.2 k _ (List.getElem?_eq_getElem hlt)
  rw [hk] at ht'
  cases ht'
  exact hfound.termOk

theorem affordable_anyTerm {count term : ℕ} (hin : term + count ≤ index.terms.length) :
    Affordable Prod.mk (index.anyTerm document count term) := by
  induction count generalizing term with
  | zero => exact .pure false
  | succ count ih =>
    refine .tick charge_succ (.bind (affordable_termPostings (by omega)) fun range _ => ?_)
    exact .ite (fun _ => .pure true) fun _ => ih (by omega)

theorem affordable_phraseRanges {terms : List PhraseTerm} (hterms : TermsOk index terms)
    (slot anchor : ℕ) (ranges : List IndexRange) :
    Affordable withRanges (index.phraseRanges document terms slot anchor ranges) := by
  induction terms generalizing slot anchor ranges with
  | nil => exact .pure (some anchor, ranges)
  | cons t terms ih =>
    obtain ⟨ht, hterms⟩ := List.forall_mem_cons.1 hterms
    refine .tick charge_succ ?_
    cases hterm : t.term with
    | none => exact .pure (none, ranges)
    | some term =>
      refine .bind (affordable_termPostings (ht term hterm)) fun range _ => ?_
      exact .ite (fun _ => .pure (none, ranges.set slot range)) fun _ => ih hterms _ _ _

/-- The anchor is one of the slots. -/
theorem phraseRanges_anchor {terms : List PhraseTerm} {slot anchor a work work' : ℕ}
    {ranges ranges' : List IndexRange}
    (h : index.phraseRanges document terms slot anchor ranges work = .ok (some a, ranges', work')) :
    a = anchor ∨ a < slot + terms.length := by
  induction terms generalizing slot anchor ranges work with
  | nil =>
    cases h
    exact .inl rfl
  | cons t terms ih =>
    obtain ⟨w, -, h⟩ := ok_of_bind h
    cases hterm : t.term with
    | none =>
      rw [hterm] at h
      cases h
    | some term =>
      rw [hterm] at h
      obtain ⟨⟨range, w'⟩, -, h⟩ := ok_of_bind h
      dsimp only at h
      rw [List.length_cons]
      by_cases hlen : range.len = 0
      · rw [if_pos hlen] at h
        cases h
      · rw [if_neg hlen] at h
        have hnext := ih h
        split_ifs at hnext <;> omega

theorem affordable_probeTerms {ranges : List IndexRange} {anchor start : ℕ}
    (terms : List PhraseTerm) (slot : ℕ) :
    Affordable Prod.mk (index.probeTerms ranges anchor start terms slot) := by
  induction terms generalizing slot with
  | nil => exact .pure true
  | cons t terms ih =>
    refine .ite (fun _ => ih _) fun _ => .tick charge_succ ?_
    refine .ite (fun _ => .pure false) fun _ => ?_
    refine .bind (affordable_hasPosition _ _) fun found _ => ?_
    exact .ite (fun _ => ih _) fun _ => .pure false

theorem affordable_probePostings {terms : List PhraseTerm} {ranges : List IndexRange}
    {anchor offset : ℕ} (postings : List Posting) :
    Affordable Prod.mk (index.probePostings terms ranges anchor offset postings) := by
  induction postings with
  | nil => exact .pure false
  | cons p postings ih =>
    refine .tick charge_succ (.ite (fun _ => ih) fun _ => ?_)
    refine .bind (affordable_probeTerms _ _) fun found _ => ?_
    exact .ite (fun _ => .pure true) fun _ => ih

theorem affordable_phrase {terms : List PhraseTerm} (hterms : TermsOk index terms)
    (hne : terms ≠ []) (ranges : List IndexRange) :
    Affordable withRanges (index.phrase terms ranges document) := by
  refine .bind (affordable_phraseRanges hterms 0 0 ranges) fun x hx => ?_
  obtain ⟨anchor, filled⟩ := x
  cases anchor with
  | none => exact .pure (false, filled)
  | some anchor =>
    obtain ⟨work, work', hx⟩ := hx
    have hpos := List.length_pos_iff.2 hne
    have hlt : anchor < terms.length := by
      have := phraseRanges_anchor hx
      omega
    dsimp only [withRanges]
    rw [List.getElem?_eq_getElem hlt]
    exact .bind (affordable_probePostings _) fun found _ => .pure (found, filled)

theorem affordable_boundValue {kind : Kind} {node : Bound} {scratch : ℕ}
    (hmeans : Means index phraseTerms scratch kind node)
    (hne : ∀ ts, kind = .phrase ts → ts ≠ []) (values : List Bool) (ranges : List IndexRange) :
    Affordable withRanges fun work =>
      index.boundValue phraseTerms document values ranges work node := by
  cases kind <;> cases node <;> try exact absurd hmeans id
  case none.never => exact .pure (false, ranges)
  case term.term text found =>
    cases found with
    | none => exact .pure (false, ranges)
    | some term =>
      have hfound : Found index text (some term) := hmeans
      exact .bind (affordable_termPostings (hfound.termOk term rfl)) fun range _ =>
        .pure (_, ranges)
  case prefixed.prefixed start range =>
    exact .bind (affordable_anyTerm hmeans.1) fun found _ => .pure (found, ranges)
  case phrase.phrase texts range =>
    obtain ⟨-, -, hbound⟩ := hmeans
    refine affordable_phrase hbound.termsOk (fun hnil => hne texts rfl ?_) ranges
    rw [← List.length_eq_zero_iff, ← hbound.1, hnil, List.length_nil]
  case not.not c c' => exact .pure (_, ranges)
  case and.and l r l' r' => exact .pure (_, ranges)
  case or.or l r l' r' => exact .pure (_, ranges)

theorem affordable_valuesFrom {kinds : List Kind} {nodes : List Bound} {scratch : ℕ}
    (hmeans : List.Forall₂ (Means index phraseTerms scratch) kinds nodes)
    (hne : ∀ ts, Kind.phrase ts ∈ kinds → ts ≠ []) (slot : ℕ) (values : List Bool)
    (ranges : List IndexRange) :
    Affordable withRanges (index.valuesFrom phraseTerms document nodes slot values ranges) := by
  induction hmeans generalizing slot values ranges with
  | nil => exact .pure (values, ranges)
  | @cons kind node kinds nodes hkind _ ih =>
    have hvalue := @affordable_boundValue index document phraseTerms kind node scratch hkind
      (fun ts hts => hne ts (hts ▸ List.mem_cons_self)) values ranges
    refine .tick charge_succ (.bind hvalue fun x _ => ?_)
    exact ih (fun ts hts => hne ts (List.mem_cons_of_mem _ hts)) _ _ _

/-! ### Running a search -/

namespace Search

variable {s : Search} {q : Query}

/-- The search with some work left. -/
def withWork (s : Search) (work : ℕ) : Search := { s with work := work }

theorem Ready.withWork (hs : s.Ready q) (work : ℕ) : (s.withWork work).Ready q :=
  ⟨hs.built, hs.means, hs.values, hs.root⟩

theorem affordable_matchesDocument (hs : s.Ready q) :
    Affordable (fun (x : Bool × Search) work => (x.1, x.2.withWork work)) fun work =>
      (s.withWork work).matchesDocument document := by
  dsimp only [matchesDocument, withWork]
  refine .bind (affordable_valuesFrom hs.means q.phrase_ne 0 s.values s.ranges) fun x _ => ?_
  exact ⟨(x.1.getD s.root false, { s with
    values := x.1
    ranges := x.2 }), 0, fun _ => rfl⟩

/-- With enough work a call of `next` does not fail. -/
theorem affordable_nextFrom (hs : s.Ready q) {documents : List IndexDocument}
    (hdocuments : s.index.documents.drop s.nextDocument = documents) :
    ∃ r s' cost, (∀ e, r ≠ some (.error e)) ∧
      ∀ work, nextFrom documents (s.withWork (work + cost)) = (r, withWork s' work) := by
  induction documents generalizing s with
  | nil => exact ⟨none, s, 0, nofun, fun _ => rfl⟩
  | cons d documents ih =>
    have hd : s.index.documents[s.nextDocument]? = some d := by
      rw [← List.head?_drop, hdocuments, List.head?_cons]
    have hrest : s.index.documents.drop (s.nextDocument + 1) = documents := by
      rw [← List.drop_drop, hdocuments]
      rfl
    have hready : Ready q { s with nextDocument := s.nextDocument + 1 } :=
      ⟨hs.built, hs.means, hs.values, hs.root⟩
    obtain ⟨⟨b, t⟩, cost, hmatch⟩ := @affordable_matchesDocument s.nextDocument _ _ hready
    obtain ⟨-, ht, hindex, hnext, -⟩ :=
      matchesDocument_ok (hready.withWork (0 + cost)) hd (hmatch 0)
    dsimp only [withWork] at hindex hnext
    have hstep : ∀ work, nextFrom (d :: documents) (s.withWork (work + cost)) =
        if b then (some (.ok ⟨d.identity, s.nextDocument⟩), t.withWork work)
        else nextFrom documents (t.withWork work) := by
      intro work
      have hcall : matchesDocument
          { s.withWork (work + cost) with nextDocument := s.nextDocument + 1 } s.nextDocument =
            .ok (b, t.withWork work) := hmatch work
      have hordinal : (s.withWork (work + cost)).nextDocument = s.nextDocument := rfl
      rw [nextFrom]
      dsimp only
      rw [hordinal, hcall]
      cases b <;> rfl
    cases b with
    | true => exact ⟨some (.ok ⟨d.identity, s.nextDocument⟩), t, cost, nofun, hstep⟩
    | false =>
      obtain ⟨r, s', cost', hr, hlater⟩ := @ih t ⟨ht.built, ht.means, ht.values, ht.root⟩
        (by rw [hindex, hnext, hrest])
      refine ⟨r, s', cost' + cost, hr, fun work => ?_⟩
      rw [← Nat.add_assoc, hstep, if_neg Bool.false_ne_true, hlater]

theorem affordable_next (hs : s.Ready q) : ∃ r s' cost, (∀ e, r ≠ some (.error e)) ∧
    ∀ work, (s.withWork (work + cost)).next = (r, withWork s' work) := by
  by_cases hfailed : s.failed = true
  · exact ⟨none, s, 0, nofun, fun _ => if_pos hfailed⟩
  · obtain ⟨r, s', cost, hr, h⟩ := affordable_nextFrom hs rfl
    exact ⟨r, s', cost, hr, fun work => (if_neg hfailed).trans (h work)⟩

end Search

end ReferenceIndex

end PinCore
