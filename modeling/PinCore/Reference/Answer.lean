import PinCore.Reference.Search

/-!
# What a search yields

Each binary search is specified by what it found, a bound node by the node it was bound to, and the
evaluation of a document by the oracle.  The main result is that a search that runs to its end
yields exactly the documents the oracle accepts, by ascending root, and that the order in which the
documents were given does not matter.
-/

namespace PinCore

namespace ReferenceIndex

variable {index : ReferenceIndex} {work work' : ℕ}

/-! ### Ranges -/

theorem slice_append {α : Type} {before run after : List α} :
    (IndexRange.mk before.length (before.length + run.length)).slice (before ++ run ++ after) =
      run := by
  rw [IndexRange.slice, IndexRange.len, Nat.add_sub_cancel_left, List.append_assoc, List.drop_left,
    List.take_left]

/-- The postings of one term in one document, in order. -/
structure Covers (index : ReferenceIndex) (text : Text) (document : ℕ) (range : IndexRange) :
    Prop where
  len : (range.slice index.postings).length = range.len
  sorted : (range.slice index.postings).Pairwise fun a b => a.position ≤ b.position
  mem : ∀ p, p ∈ range.slice index.postings ↔
    p ∈ index.postings ∧ p.term = text ∧ p.document = document

theorem termPostings_ok (hb : Built index) {term document : ℕ} {range : IndexRange}
    (h : index.termPostings term document work = .ok (range, work')) :
    ∃ t, index.terms[term]? = some t ∧ Covers index t.text document range := by
  unfold termPostings at h
  cases ht : index.terms[term]? with
  | none =>
    rw [ht] at h
    cases h
  | some t =>
    rw [ht] at h
    obtain ⟨⟨first, w⟩, hfirst, h⟩ := ok_of_bind h
    obtain ⟨⟨count, w'⟩, hcount, h⟩ := ok_of_bind h
    cases h
    obtain ⟨before, run, after, hsplit, hrange, -, hin, hout⟩ :=
      hb.runs t (List.mem_of_getElem? ht)
    have hslice : t.postings.slice index.postings = run := by rw [hrange, hsplit, slice_append]
    have hrun : run.Pairwise byTerm := by
      have := hb.sorted
      rw [hsplit] at this
      exact (List.pairwise_append.1 (List.pairwise_append.1 this).1).2.1
    have hdocuments : run.Pairwise fun a b => a.document ≤ b.document := by
      refine hrun.imp_of_mem fun {a b} ha hb hab => ?_
      rcases hab with hlt | ⟨-, hle⟩
      · rw [hin a ha, hin b hb] at hlt
        exact absurd hlt (List.lt_irrefl _)
      · omega
    rw [hslice] at hfirst hcount
    have hless : run.Pairwise fun a b => decide (b.document < document) = true →
        decide (a.document < document) = true := hdocuments.imp fun {a b} hab => by
      simp only [decide_eq_true_eq]
      omega
    have hsame : run.Pairwise fun a b => decide (a.document < document) = false →
        decide (b.document = document) = true → decide (a.document = document) = true :=
      hdocuments.imp fun {a b} hab => by
        simp only [decide_eq_true_eq, decide_eq_false_iff_not]
        omega
    obtain ⟨earlier, found, later, hfound, hfirst', hcount', hearlier, hhit, hlater⟩ :=
      lowerBound_run hless hsame hfirst hcount
    have hmem : ∀ p, p ∈ found ↔ p ∈ run ∧ p.document = document := by
      intro p
      rw [hfound]
      refine ⟨fun hp => ⟨List.mem_append_left _ (List.mem_append_right _ hp),
        of_decide_eq_true (hhit p hp)⟩, fun ⟨hp, hd⟩ => ?_⟩
      rcases List.mem_append.1 hp with hp | hp
      · refine (List.mem_append.1 hp).resolve_left fun hp => ?_
        have := of_decide_eq_true (hearlier p hp)
        omega
      · exact absurd hd (of_decide_eq_false (hlater p hp))
    have hsplit' : index.postings = (before ++ earlier) ++ found ++ (later ++ after) := by
      rw [hsplit, hfound]
      simp only [List.append_assoc]
    have hfoundSlice : (IndexRange.mk (t.postings.first + first)
        (t.postings.first + first + count)).slice index.postings = found := by
      rw [hsplit', hrange, ← hfirst', ← hcount', ← List.length_append]
      exact slice_append
    refine ⟨t, rfl, ?_, ?_, fun p => ?_⟩
    · rw [hfoundSlice, IndexRange.len, hcount', Nat.add_sub_cancel_left]
    · rw [hfoundSlice]
      have hsorted : found.Pairwise byTerm := by
        have := hb.sorted
        rw [hsplit'] at this
        exact (List.pairwise_append.1 (List.pairwise_append.1 this).1).2.1
      refine hsorted.imp_of_mem fun {a b} ha hb' hab => ?_
      obtain ⟨ha, hda⟩ := (hmem a).1 ha
      obtain ⟨hb', hdb⟩ := (hmem b).1 hb'
      rcases hab with hlt | ⟨-, hle⟩
      · rw [hin a ha, hin b hb'] at hlt
        exact absurd hlt (List.lt_irrefl _)
      · omega
    · rw [hfoundSlice, hmem]
      constructor
      · rintro ⟨hp, hd⟩
        refine ⟨?_, hin p hp, hd⟩
        rw [hsplit]
        exact List.mem_append_left _ (List.mem_append_right _ hp)
      · rintro ⟨hp, hterm, hd⟩
        refine ⟨?_, hd⟩
        rw [hsplit] at hp
        rcases List.mem_append.1 hp with hp | hp
        · rcases List.mem_append.1 hp with hp | hp
          · exact absurd hterm (hout p (List.mem_append_left _ hp))
          · exact hp
        · exact absurd hterm (hout p (List.mem_append_right _ hp))

section Document

variable {d : IndexDocument} {text : Text} {document : ℕ} {range : IndexRange}

/-- A posting of the document is an occurrence in its text. -/
theorem Built.occurs (hb : Built index) (hd : index.documents[document]? = some d)
    {position : ℕ} :
    (⟨text, document, position⟩ : Posting) ∈ index.postings ↔ d.text[position]? = some text := by
  rw [hb.postings]
  constructor
  · rintro ⟨d', hd', ht⟩
    rw [hd] at hd'
    cases hd'
    exact ht
  · exact fun ht => ⟨d, hd, ht⟩

/-- The positions in the range are those of the term. -/
theorem Covers.position_iff (hb : Built index) (hd : index.documents[document]? = some d)
    (hc : Covers index text document range) {position : ℕ} :
    (∃ p ∈ range.slice index.postings, p.position = position) ↔
      d.text[position]? = some text := by
  rw [← hb.occurs hd]
  constructor
  · rintro ⟨p, hp, rfl⟩
    obtain ⟨hp, rfl, rfl⟩ := (hc.mem p).1 hp
    exact hp
  · exact fun hp => ⟨_, (hc.mem _).2 ⟨hp, rfl, rfl⟩, rfl⟩

/-- The range is empty when the term does not occur. -/
theorem Covers.len_eq_zero (hb : Built index) (hd : index.documents[document]? = some d)
    (hc : Covers index text document range) : range.len = 0 ↔ text ∉ d.text := by
  rw [← hc.len, List.length_eq_zero_iff]
  constructor
  · intro hempty hmem
    obtain ⟨position, ht⟩ := List.mem_iff_getElem?.1 hmem
    obtain ⟨p, hp, -⟩ := (hc.position_iff hb hd).2 ht
    rw [hempty] at hp
    cases hp
  · intro hnot
    refine List.eq_nil_iff_forall_not_mem.2 fun p hp => hnot ?_
    exact List.mem_of_getElem? ((hc.position_iff hb hd).1 ⟨p, hp, rfl⟩)

theorem hasPosition_ok (hb : Built index) (hd : index.documents[document]? = some d)
    (hc : Covers index text document range) {position : ℕ} {b : Bool}
    (h : index.hasPosition range position work = .ok (b, work')) :
    b = decide (d.text[position]? = some text) := by
  obtain ⟨⟨i, w⟩, hi, h⟩ := ok_of_bind h
  cases h
  have hless : (range.slice index.postings).Pairwise fun a b =>
      decide (b.position < position) = true → decide (a.position < position) = true :=
    hc.sorted.imp fun {a b} hab => by
      simp only [decide_eq_true_eq]
      omega
  have hfirst : (range.slice index.postings).Pairwise fun a b =>
      decide (a.position < position) = false → decide (b.position = position) = true →
        decide (a.position = position) = true := hc.sorted.imp fun {a b} hab => by
    simp only [decide_eq_true_eq, decide_eq_false_iff_not]
    omega
  have hhit : ∀ p : Posting, decide (p.position = position) = true →
      decide (p.position < position) = false := fun p => by
    simp only [decide_eq_true_eq, decide_eq_false_iff_not]
    omega
  rw [Bool.eq_iff_iff, decide_eq_true_eq, ← hc.position_iff hb hd,
    lowerBound_hit hless hhit hfirst hi]
  simp only [decide_eq_true_eq]

end Document

/-! ### Terms -/

/-- What a lookup returns: the term's index, or that there is none. -/
def Found (index : ReferenceIndex) (text : Text) : Option ℕ → Prop
  | some i => ∃ t, index.terms[i]? = some t ∧ t.text = text
  | none => ∀ t ∈ index.terms, t.text ≠ text

theorem Built.terms_lt (hb : Built index) : index.terms.Pairwise fun a b => a.text < b.text :=
  List.pairwise_map.1 hb.texts

/-- Terms before a bound stand in front. -/
theorem Built.terms_before (hb : Built index) (text : Text) : index.terms.Pairwise fun a b =>
    decide (b.text < text) = true → decide (a.text < text) = true :=
  hb.terms_lt.imp fun {a b} hab => by
    simp only [decide_eq_true_eq]
    exact List.lt_trans hab

theorem lookup_ok (hb : Built index) {text : Text} {found : Option ℕ}
    (h : index.lookup text work = .ok (found, work')) : Found index text found := by
  obtain ⟨⟨first, w⟩, hfirst, h⟩ := ok_of_bind h
  cases h
  have hhit : ∀ t : IndexTerm, decide (t.text = text) = true →
      decide (t.text < text) = false := fun t ht => by
    rw [of_decide_eq_true ht]
    exact decide_eq_false (List.lt_irrefl _)
  have hequal : index.terms.Pairwise fun a b => decide (a.text < text) = false →
      decide (b.text = text) = true → decide (a.text = text) = true :=
    hb.terms_lt.imp fun {a b} hab hlt heq => by
      rw [of_decide_eq_true heq] at hab
      exact absurd hab (of_decide_eq_false hlt)
  have hany := lowerBound_hit (hb.terms_before text) hhit hequal hfirst
  cases hat : index.terms[first]? with
  | none =>
    rw [hat] at hany
    intro t ht heq
    exact absurd (hany.2 ⟨t, ht, decide_eq_true heq⟩) Bool.false_ne_true
  | some t =>
    rw [hat, Option.any_some] at hany
    by_cases heq : t.text = text
    · rw [Option.filter_some, if_pos (decide_eq_true heq), Option.map_some]
      exact ⟨t, hat, heq⟩
    · rw [Option.filter_some, if_neg (by rwa [decide_eq_true_eq]), Option.map_none]
      intro t' ht' heq'
      exact heq (of_decide_eq_true (hany.2 ⟨t', ht', decide_eq_true heq'⟩))

/-- The range holds the terms that start with the text. -/
theorem prefixed_ok (hb : Built index) {start : Text} {range : IndexRange}
    (h : index.prefixed start work = .ok (range, work')) :
    range.first + range.len ≤ index.terms.length ∧
      ∀ i t, index.terms[i]? = some t →
        (start <+: t.text ↔ range.first ≤ i ∧ i < range.first + range.len) := by
  obtain ⟨⟨first, w⟩, hfirst, h⟩ := ok_of_bind h
  obtain ⟨⟨count, w'⟩, hcount, h⟩ := ok_of_bind h
  cases h
  have hordered : index.terms.Pairwise fun a b => decide (a.text < start) = false →
      start.isPrefixOf b.text = true → start.isPrefixOf a.text = true := by
    refine hb.terms_lt.imp fun {a b} hab hlt hp => ?_
    rw [List.isPrefixOf_iff_prefix] at hp ⊢
    exact prefix_of_between (of_decide_eq_false hlt) hab hp
  obtain ⟨earlier, run, later, hsplit, rfl, rfl, hearlier, hhit, hlater⟩ :=
    lowerBound_run (hb.terms_before start) hordered hfirst hcount
  have hlen : (IndexRange.mk earlier.length (earlier.length + run.length)).len = run.length :=
    Nat.add_sub_cancel_left _ _
  rw [hlen]
  refine ⟨?_, fun i t ht => ?_⟩
  · rw [hsplit, List.length_append, List.length_append]
    exact Nat.le_add_right _ _
  rw [hsplit] at ht
  simp only
  by_cases hlt : i < (earlier ++ run).length
  · rw [List.getElem?_append_left hlt] at ht
    rw [List.length_append] at hlt
    by_cases hle : earlier.length ≤ i
    · rw [List.getElem?_append_right hle] at ht
      exact iff_of_true (List.isPrefixOf_iff_prefix.1 (hhit t (List.mem_of_getElem? ht)))
        ⟨hle, hlt⟩
    · rw [List.getElem?_append_left (Nat.lt_of_not_le hle)] at ht
      refine iff_of_false (fun hp => ?_) fun h => hle h.1
      exact not_lt_of_prefix hp (of_decide_eq_true (hearlier t (List.mem_of_getElem? ht)))
  · rw [List.getElem?_append_right (Nat.not_lt.1 hlt)] at ht
    rw [List.length_append] at hlt
    refine iff_of_false (fun hp => ?_) fun h => hlt h.2
    have := hlater t (List.mem_of_getElem? ht)
    rw [List.isPrefixOf_iff_prefix.2 hp] at this
    cases this

/-! ### Binding -/

/-- The bound terms of a phrase: looked up, each with its place. -/
def BoundTerms (index : ReferenceIndex) (offset : ℕ) (texts : List Text)
    (bound : List PhraseTerm) : Prop :=
  bound.length = texts.length ∧ ∀ k text, texts[k]? = some text →
    ∃ b, bound[k]? = some b ∧ b.offset = offset + k ∧ Found index text b.term

/-- What a bound node stands for, given the phrase terms and the scratch for ranges. -/
def Means (index : ReferenceIndex) (phraseTerms : List PhraseTerm) (scratch : ℕ) :
    Kind → Bound → Prop
  | .none, .never => True
  | .term text, .term found => Found index text found
  | .prefixed start, .prefixed range => range.first + range.len ≤ index.terms.length ∧
      ∀ i t, index.terms[i]? = some t →
        (start <+: t.text ↔ range.first ≤ i ∧ i < range.first + range.len)
  | .phrase texts, .phrase range => range.last ≤ phraseTerms.length ∧ texts.length ≤ scratch ∧
      BoundTerms index 0 texts (range.slice phraseTerms)
  | .not c, .not c' => c' = c
  | .and l r, .and l' r' => l' = l ∧ r' = r
  | .or l r, .or l' r' => l' = l ∧ r' = r
  | _, _ => False

theorem slice_of_append {α : Type} {values new : List α} {range : IndexRange}
    (h : range.last ≤ values.length) : range.slice (values ++ new) = range.slice values := by
  unfold IndexRange.slice IndexRange.len
  by_cases hle : range.first ≤ values.length
  · rw [List.drop_append_of_le_length hle, List.take_append_of_le_length]
    rw [List.length_drop]
    omega
  · have hempty : range.last - range.first = 0 := by omega
    rw [hempty, List.take_zero, List.take_zero]

/-- Later nodes only add phrase terms and scratch. -/
theorem Means.mono {phraseTerms new : List PhraseTerm} {scratch scratch' : ℕ} {kind : Kind}
    {node : Bound} (hscratch : scratch ≤ scratch') (h : Means index phraseTerms scratch kind node) :
    Means index (phraseTerms ++ new) scratch' kind node := by
  cases kind <;> cases node <;> try exact h
  obtain ⟨hlast, hlength, hbound⟩ := h
  refine ⟨?_, Nat.le_trans hlength hscratch, by rwa [slice_of_append hlast]⟩
  rw [List.length_append]
  omega

theorem bindTerms_ok (hb : Built index) {texts : List Text} {offset : ℕ}
    {acc bound : List PhraseTerm}
    (h : index.bindTerms texts offset acc work = .ok (bound, work')) :
    ∃ new, bound = acc ++ new ∧ BoundTerms index offset texts new := by
  induction texts generalizing offset acc work with
  | nil =>
    cases h
    exact ⟨[], (List.append_nil _).symm, rfl, nofun⟩
  | cons text texts ih =>
    obtain ⟨w, -, h⟩ := ok_of_bind h
    obtain ⟨⟨found, w'⟩, hfound, h⟩ := ok_of_bind h
    simp only at h
    split_ifs at h
    obtain ⟨new, hnew, hlength, hat⟩ := ih h
    refine ⟨⟨found, offset⟩ :: new, by rw [hnew, List.append_assoc]; rfl,
      congrArg Nat.succ hlength, fun k t ht => ?_⟩
    cases k with
    | zero =>
      cases ht
      exact ⟨_, rfl, rfl, lookup_ok hb hfound⟩
    | succ k =>
      obtain ⟨b, hbk, hoffset, hlookup⟩ := hat k t ht
      exact ⟨b, hbk, by omega, hlookup⟩

/-- A node is bound to what it means. -/
theorem bindNode_ok (hb : Built index) {limits : SearchLimits} {s s' : Binding} {kind : Kind}
    (h : index.bindNode limits s kind = .ok s') :
    ∃ node new, s'.nodes = s.nodes ++ [node] ∧ s'.phraseTerms = s.phraseTerms ++ new ∧
      s.longest ≤ s'.longest ∧ Means index s'.phraseTerms s'.longest kind node := by
  cases kind with
  | none =>
    cases h
    exact ⟨.never, [], rfl, (List.append_nil _).symm, Nat.le_refl _, trivial⟩
  | term text =>
    obtain ⟨⟨found, w⟩, hfound, h⟩ := ok_of_bind h
    cases h
    exact ⟨.term found, [], rfl, (List.append_nil _).symm, Nat.le_refl _, lookup_ok hb hfound⟩
  | prefixed start =>
    obtain ⟨⟨range, w⟩, hrange, h⟩ := ok_of_bind h
    simp only at h
    split_ifs at h
    cases h
    exact ⟨.prefixed range, [], rfl, (List.append_nil _).symm, Nat.le_refl _,
      prefixed_ok hb hrange⟩
  | phrase texts =>
    obtain ⟨⟨bound, w⟩, hbound, h⟩ := ok_of_bind h
    cases h
    obtain ⟨new, rfl, hnew⟩ := bindTerms_ok hb hbound
    refine ⟨.phrase ⟨s.phraseTerms.length, (s.phraseTerms ++ new).length⟩, new, rfl, rfl,
      Nat.le_max_left _ _, Nat.le_refl _, Nat.le_max_right _ _, ?_⟩
    have hslice : (IndexRange.mk s.phraseTerms.length (s.phraseTerms ++ new).length).slice
        (s.phraseTerms ++ new) = new := by
      rw [IndexRange.slice, IndexRange.len, List.length_append, Nat.add_sub_cancel_left,
        List.drop_left, List.take_length]
    rwa [hslice]
  | not c =>
    cases h
    exact ⟨.not c, [], rfl, (List.append_nil _).symm, Nat.le_refl _, rfl⟩
  | and l r =>
    cases h
    exact ⟨.and l r, [], rfl, (List.append_nil _).symm, Nat.le_refl _, rfl, rfl⟩
  | or l r =>
    cases h
    exact ⟨.or l r, [], rfl, (List.append_nil _).symm, Nat.le_refl _, rfl, rfl⟩

theorem bindNodes_ok (hb : Built index) {limits : SearchLimits} {kinds : List Kind}
    {s s' : Binding} (h : index.bindNodes limits kinds s = .ok s') :
    ∃ nodes new, s'.nodes = s.nodes ++ nodes ∧ s'.phraseTerms = s.phraseTerms ++ new ∧
      s.longest ≤ s'.longest ∧
      List.Forall₂ (Means index s'.phraseTerms s'.longest) kinds nodes := by
  induction kinds generalizing s with
  | nil =>
    cases h
    exact ⟨[], [], (List.append_nil _).symm, (List.append_nil _).symm, Nat.le_refl _, .nil⟩
  | cons kind kinds ih =>
    obtain ⟨w, -, h⟩ := ok_of_bind h
    obtain ⟨t, ht, h⟩ := ok_of_bind h
    obtain ⟨node, new, hnodes, hterms, hlongest, hmeans⟩ := bindNode_ok hb ht
    obtain ⟨nodes, new', hnodes', hterms', hlongest', hall⟩ := ih h
    refine ⟨node :: nodes, new ++ new', ?_, ?_, Nat.le_trans hlongest hlongest', .cons ?_ hall⟩
    · rw [hnodes', hnodes, List.append_assoc]
      rfl
    · rw [hterms', hterms, List.append_assoc]
    · rw [hterms']
      exact hmeans.mono hlongest'

/-- A bound query, with scratch that fits it. -/
structure Search.Ready (q : Query) (s : Search) : Prop where
  built : Built s.index
  means : List.Forall₂ (Means s.index s.phraseTerms s.ranges.length) q.nodes s.nodes
  values : s.values.length = q.nodes.length
  root : s.root = q.root

theorem search_ok (hb : Built index) {z : Sizes} {q : Query} {limits : SearchLimits} {s : Search}
    (h : index.search z q limits = .ok s) :
    s.Ready q ∧ s.index = index ∧ s.nextDocument = 0 ∧ s.failed = false := by
  obtain ⟨nodeBudget, -, h⟩ := ok_of_bind h
  simp only at h
  split_ifs at h
  obtain ⟨termBudget, -, h⟩ := ok_of_bind h
  obtain ⟨t, ht, h⟩ := ok_of_bind h
  obtain ⟨valueBudget, -, h⟩ := ok_of_bind h
  obtain ⟨budget, -, h⟩ := ok_of_bind h
  cases h
  obtain ⟨nodes, new, hnodes, -, -, hall⟩ := bindNodes_ok hb ht
  refine ⟨⟨hb, ?_, List.length_replicate, rfl⟩, rfl, rfl, rfl⟩
  rw [List.nil_append] at hnodes
  simp only [List.length_replicate, hnodes]
  exact hall

/-! ### Evaluating a document -/

section Evaluate

variable {d : IndexDocument} {document : ℕ} {b : Bool} {texts : List Text}
  {ranges ranges' : List IndexRange}

/-- A term that was found has postings in the document when it occurs there. -/
theorem termPostings_found (hb : Built index) (hd : index.documents[document]? = some d)
    {text : Text} {term : ℕ} (hfound : Found index text (some term)) {range : IndexRange}
    (h : index.termPostings term document work = .ok (range, work')) :
    Covers index text document range ∧ (range.len = 0 ↔ text ∉ d.text) := by
  obtain ⟨t, ht, hc⟩ := termPostings_ok hb h
  obtain ⟨t', ht', rfl⟩ := hfound
  rw [ht] at ht'
  cases ht'
  exact ⟨hc, hc.len_eq_zero hb hd⟩

/-- A term that was not found occurs in no document. -/
theorem notMem_of_found_none (hb : Built index) (hd : index.documents[document]? = some d)
    {text : Text} (hfound : Found index text none) : text ∉ d.text := by
  intro hmem
  obtain ⟨position, ht⟩ := List.mem_iff_getElem?.1 hmem
  obtain ⟨t, hin, heq⟩ := hb.complete _ ((hb.occurs hd).2 ht)
  exact hfound t hin heq

/-- The search over a range of terms finds one of them in the document. -/
theorem anyTerm_ok (hb : Built index) (hd : index.documents[document]? = some d) {count term : ℕ}
    (hin : term + count ≤ index.terms.length)
    (h : index.anyTerm document count term work = .ok (b, work')) :
    b = true ↔ ∃ i t, term ≤ i ∧ i < term + count ∧ index.terms[i]? = some t ∧ t.text ∈ d.text := by
  induction count generalizing term work with
  | zero =>
    cases h
    refine iff_of_false Bool.false_ne_true ?_
    rintro ⟨i, t, hle, hlt, -⟩
    omega
  | succ count ih =>
    obtain ⟨w, -, h⟩ := ok_of_bind h
    obtain ⟨⟨range, w'⟩, hrange, h⟩ := ok_of_bind h
    obtain ⟨t, ht, hc⟩ := termPostings_ok hb hrange
    have hempty := hc.len_eq_zero hb hd
    simp only at h
    by_cases hlen : range.len = 0
    · rw [if_neg (not_not_intro hlen)] at h
      rw [ih (by omega) h]
      constructor
      · rintro ⟨i, t', hle, hlt, hat, hmem⟩
        exact ⟨i, t', by omega, by omega, hat, hmem⟩
      · rintro ⟨i, t', hle, hlt, hat, hmem⟩
        by_cases hi : i = term
        · rw [hi, ht] at hat
          cases hat
          exact absurd hmem (hempty.1 hlen)
        · exact ⟨i, t', by omega, by omega, hat, hmem⟩
    · rw [if_pos hlen] at h
      cases h
      refine iff_of_true rfl ⟨term, t, Nat.le_refl _, by omega, ht, ?_⟩
      exact Classical.not_not.1 (mt hempty.2 hlen)

/-- The first slots hold the postings of their terms. -/
def Filled (index : ReferenceIndex) (document : ℕ) (texts : List Text) (slot : ℕ)
    (ranges : List IndexRange) : Prop :=
  ∀ k text, k < slot → texts[k]? = some text →
    Covers index text document (ranges.getD k ⟨0, 0⟩)

theorem Filled.set {slot : ℕ} {text : Text} {range : IndexRange}
    (h : Filled index document texts slot ranges) (hslot : slot < ranges.length)
    (htext : texts[slot]? = some text) (hc : Covers index text document range) :
    Filled index document texts (slot + 1) (ranges.set slot range) := by
  intro k t hk ht
  rw [List.getD_eq_getElem?_getD]
  by_cases heq : k = slot
  · rw [heq, htext] at ht
    cases ht
    rw [heq, List.getElem?_set_self hslot]
    exact hc
  · rw [List.getElem?_set_ne (Ne.symm heq), ← List.getD_eq_getElem?_getD]
    exact h k t (by omega) ht

/-- Either a term does not occur, or every slot is filled and one of them is the anchor. -/
theorem phraseRanges_ok (hb : Built index) (hd : index.documents[document]? = some d)
    {done terms : List PhraseTerm} {anchor : ℕ} {found : Option ℕ}
    (hbound : BoundTerms index 0 texts (done ++ terms)) (hroom : texts.length ≤ ranges.length)
    (hfilled : Filled index document texts done.length ranges)
    (hanchor : anchor = 0 ∨ anchor < done.length)
    (h : index.phraseRanges document terms done.length anchor ranges work =
      .ok (found, ranges', work')) :
    ranges'.length = ranges.length ∧
      (found = none → ∃ text ∈ texts, text ∉ d.text) ∧
      ∀ anchor, found = some anchor → (anchor = 0 ∨ anchor < texts.length) ∧
        Filled index document texts texts.length ranges' := by
  obtain ⟨hlength, hat⟩ := hbound
  induction terms generalizing done anchor ranges work with
  | nil =>
    cases h
    rw [List.append_nil] at hlength
    rw [← hlength]
    refine ⟨rfl, nofun, fun a ha => ?_⟩
    cases ha
    exact ⟨hanchor, hfilled⟩
  | cons t terms ih =>
    obtain ⟨w, -, h⟩ := ok_of_bind h
    have hlt : done.length < texts.length := by
      rw [← hlength, List.length_append, List.length_cons]
      omega
    have htext := List.getElem?_eq_getElem hlt
    generalize texts[done.length] = text at htext
    obtain ⟨t', ht', -, hfound⟩ := hat done.length text htext
    rw [List.getElem?_append_right (Nat.le_refl _), Nat.sub_self] at ht'
    cases ht'
    cases hterm : t.term with
    | none =>
      rw [hterm] at h hfound
      cases h
      exact ⟨rfl, fun _ => ⟨text, List.mem_of_getElem? htext, notMem_of_found_none hb hd hfound⟩,
        nofun⟩
    | some term =>
      rw [hterm] at h hfound
      obtain ⟨⟨range, w'⟩, hrange, h⟩ := ok_of_bind h
      obtain ⟨hc, hempty⟩ := termPostings_found hb hd hfound hrange
      simp only at h
      by_cases hlen : range.len = 0
      · rw [if_pos hlen] at h
        cases h
        exact ⟨List.length_set, fun _ => ⟨text, List.mem_of_getElem? htext, hempty.1 hlen⟩, nofun⟩
      · rw [if_neg hlen] at h
        have hset := hfilled.set (Nat.lt_of_lt_of_le hlt hroom) htext hc
        have hnext : (done ++ [t]).length = done.length + 1 := List.length_append
        rw [← hnext] at hset h
        have hroom' : texts.length ≤ (ranges.set done.length range).length := by
          rwa [List.length_set]
        have hih := ih hroom' hset (by rw [hnext]; split_ifs <;> omega) h
          (by rw [List.append_assoc]; exact hlength) (by rw [List.append_assoc]; exact hat)
        rwa [List.length_set] at hih

/-- The probe succeeds when every term but the anchor stands at its place from `start`. -/
theorem probeTerms_ok (hb : Built index) (hd : index.documents[document]? = some d)
    {done terms : List PhraseTerm} {anchor start : ℕ}
    (hbound : BoundTerms index 0 texts (done ++ terms))
    (hfilled : Filled index document texts texts.length ranges)
    (h : index.probeTerms ranges anchor start terms done.length work = .ok (b, work')) :
    b = true ↔ ∀ k text, done.length ≤ k → k ≠ anchor → texts[k]? = some text →
      d.text[start + k]? = some text := by
  obtain ⟨hlength, hat⟩ := hbound
  induction terms generalizing done work with
  | nil =>
    cases h
    rw [List.append_nil] at hlength
    refine iff_of_true rfl fun k text hle _ ht => ?_
    rw [List.getElem?_eq_none (by omega)] at ht
    cases ht
  | cons t terms ih =>
    have hlt : done.length < texts.length := by
      rw [← hlength, List.length_append, List.length_cons]
      omega
    have htext := List.getElem?_eq_getElem hlt
    generalize texts[done.length] = text at htext
    have hnext : (done ++ [t]).length = done.length + 1 := List.length_append
    have hlater : ∀ {w}, index.probeTerms ranges anchor start terms (done.length + 1) w =
        .ok (b, work') → (b = true ↔ ∀ k text, done.length + 1 ≤ k → k ≠ anchor →
          texts[k]? = some text → d.text[start + k]? = some text) := by
      intro w h
      rw [← hnext] at h ⊢
      exact ih h (by rw [List.append_assoc]; exact hlength) (by rw [List.append_assoc]; exact hat)
    unfold probeTerms at h
    by_cases hanchor : done.length = anchor
    · rw [if_pos hanchor] at h
      rw [hlater h]
      refine ⟨fun hall k text' hle hne ht => ?_, fun hall k text' hle hne ht =>
        hall k text' (by omega) hne ht⟩
      exact hall k text' (by omega) hne ht
    · rw [if_neg hanchor] at h
      obtain ⟨w, -, h⟩ := ok_of_bind h
      obtain ⟨t', ht', hoffset, -⟩ := hat done.length text htext
      rw [List.getElem?_append_right (Nat.le_refl _), Nat.sub_self] at ht'
      cases ht'
      rw [Nat.zero_add] at hoffset
      simp only [hoffset] at h
      by_cases hfits : u32Limit ≤ start + done.length
      · rw [if_pos hfits] at h
        cases h
        refine iff_of_false Bool.false_ne_true fun hall => ?_
        have := hall done.length text (Nat.le_refl _) hanchor htext
        have hbig := d.length_lt
        rw [List.getElem?_eq_none (by omega)] at this
        cases this
      · rw [if_neg hfits] at h
        obtain ⟨⟨found, w'⟩, hposition, h⟩ := ok_of_bind h
        have hfound := hasPosition_ok hb hd (hfilled done.length text hlt htext) hposition
        simp only at h
        by_cases hin : d.text[start + done.length]? = some text
        · rw [hfound, if_pos (decide_eq_true hin)] at h
          rw [hlater h]
          refine ⟨fun hall k text' hle hne ht => ?_, fun hall k text' hle hne ht =>
            hall k text' (by omega) hne ht⟩
          by_cases hk : k = done.length
          · rw [hk, htext] at ht
            cases ht
            rw [hk]
            exact hin
          · exact hall k text' (by omega) hne ht
        · rw [hfound, if_neg (by rwa [decide_eq_true_eq])] at h
          cases h
          exact iff_of_false Bool.false_ne_true fun hall =>
            hin (hall done.length text (Nat.le_refl _) hanchor htext)

/-- Some posting of the anchor has the other terms around it. -/
theorem probePostings_ok (hb : Built index) (hd : index.documents[document]? = some d)
    {terms : List PhraseTerm} {anchor offset : ℕ} {postings : List Posting}
    (hbound : BoundTerms index 0 texts terms)
    (hfilled : Filled index document texts texts.length ranges)
    (h : index.probePostings terms ranges anchor offset postings work = .ok (b, work')) :
    b = true ↔ ∃ p ∈ postings, offset ≤ p.position ∧ ∀ k text, k ≠ anchor →
      texts[k]? = some text → d.text[p.position - offset + k]? = some text := by
  induction postings generalizing work with
  | nil =>
    cases h
    exact iff_of_false Bool.false_ne_true fun ⟨p, hp, _⟩ => absurd hp List.not_mem_nil
  | cons p postings ih =>
    obtain ⟨w, -, h⟩ := ok_of_bind h
    simp only [List.mem_cons, exists_eq_or_imp]
    simp only at h
    by_cases hlt : p.position < offset
    · rw [if_pos hlt] at h
      rw [ih h]
      exact ⟨.inr, fun h => h.resolve_left fun h => by omega⟩
    · rw [if_neg hlt] at h
      obtain ⟨⟨matched, w'⟩, hprobe, h⟩ := ok_of_bind h
      have hmatched := @probeTerms_ok index w w' d document matched texts ranges hb hd [] terms
        anchor (p.position - offset) hbound hfilled hprobe
      simp only at h
      cases matched with
      | true =>
        rw [if_pos rfl] at h
        cases h
        refine iff_of_true rfl (.inl ⟨Nat.not_lt.1 hlt, fun k text => ?_⟩)
        exact hmatched.1 rfl k text (Nat.zero_le k)
      | false =>
        rw [if_neg Bool.false_ne_true] at h
        rw [ih h]
        refine ⟨.inr, fun h => h.resolve_left fun h => Bool.false_ne_true (hmatched.2 ?_)⟩
        exact fun k text _ => h.2 k text

/-- The anchored probe finds a phrase exactly where its terms stand in a row. -/
theorem phrase_ok (hb : Built index) (hd : index.documents[document]? = some d)
    {terms : List PhraseTerm} (hne : texts ≠ []) (hbound : BoundTerms index 0 texts terms)
    (hroom : texts.length ≤ ranges.length)
    (h : index.phrase terms ranges document work = .ok (b, ranges', work')) :
    b = phraseIn texts d.text ∧ ranges'.length = ranges.length := by
  obtain ⟨⟨found, filled, w⟩, hranges, h⟩ := ok_of_bind h
  have hstart : Filled index document texts ([] : List PhraseTerm).length ranges :=
    fun k _ hk => absurd hk (Nat.not_lt_zero k)
  obtain ⟨hlength, hnone, hsome⟩ := @phraseRanges_ok index work w d document texts ranges filled
    hb hd [] terms 0 found hbound hroom hstart (.inl rfl) hranges
  cases found with
  | none =>
    cases h
    obtain ⟨text, htext, hnot⟩ := hnone rfl
    refine ⟨?_, hlength⟩
    rw [eq_comm, ← Bool.not_eq_true, phraseIn_iff hne]
    rintro ⟨start, hall⟩
    obtain ⟨k, hk⟩ := List.mem_iff_getElem?.1 htext
    have hlt := (List.getElem?_eq_some_iff.1 hk).1
    exact hnot (List.mem_of_getElem? ((hall k hlt).trans hk))
  | some anchor =>
    obtain ⟨hanchor, hfilled⟩ := hsome anchor rfl
    have hpos := List.length_pos_iff.2 hne
    have hlt : anchor < texts.length := by omega
    have htext := List.getElem?_eq_getElem hlt
    generalize texts[anchor] = text at htext
    obtain ⟨t, ht, hoffset, -⟩ := hbound.2 anchor text htext
    rw [Nat.zero_add] at hoffset
    simp only [ht] at h
    obtain ⟨⟨matched, w'⟩, hprobe, h⟩ := ok_of_bind h
    cases h
    refine ⟨?_, hlength⟩
    rw [Bool.eq_iff_iff, probePostings_ok hb hd hbound hfilled hprobe, phraseIn_iff hne, hoffset]
    have hcovers := hfilled anchor text hlt htext
    constructor
    · rintro ⟨p, hp, hle, hall⟩
      refine ⟨p.position - anchor, fun k hk => ?_⟩
      have htk := List.getElem?_eq_getElem hk
      by_cases hka : k = anchor
      · rw [hka, htext, Nat.sub_add_cancel hle]
        exact (hcovers.position_iff hb hd).1 ⟨p, hp, rfl⟩
      · rw [htk]
        exact hall k _ hka htk
    · rintro ⟨start, hall⟩
      obtain ⟨p, hp, hposition⟩ :=
        (hcovers.position_iff hb hd).2 ((hall anchor hlt).trans htext)
      refine ⟨p, hp, by omega, fun k text' _ htk => ?_⟩
      have hk := (List.getElem?_eq_some_iff.1 htk).1
      rw [hposition, Nat.add_sub_cancel, hall k hk, htk]

/-- A bound node has the value that the oracle gives the node. -/
theorem boundValue_ok (hb : Built index) (hd : index.documents[document]? = some d)
    {phraseTerms : List PhraseTerm} {values before : List Bool} {kind : Kind} {node : Bound}
    (hmeans : Means index phraseTerms ranges.length kind node)
    (hne : ∀ ts, kind = .phrase ts → ts ≠ [])
    (hchildren : ∀ c ∈ kind.children, values.getD c false = before.getD c false)
    (h : index.boundValue phraseTerms document values ranges work node =
      .ok (b, ranges', work')) :
    b = oracleNode d.text before kind ∧ ranges'.length = ranges.length := by
  cases kind <;> cases node <;> try exact absurd hmeans id
  case none.never =>
    cases h
    exact ⟨rfl, rfl⟩
  case term.term text found =>
    have hany : (oracleNode d.text before (.term text) = true) ↔ text ∈ d.text := by
      rw [oracleNode, List.any_eq_true]
      simp only [decide_eq_true_eq, exists_eq_right]
    cases found with
    | none =>
      cases h
      refine ⟨(Bool.eq_false_iff.2 fun ht => ?_).symm, rfl⟩
      exact notMem_of_found_none hb hd hmeans (hany.1 ht)
    | some term =>
      obtain ⟨⟨range, w⟩, hrange, h⟩ := ok_of_bind h
      cases h
      have hempty := (termPostings_found hb hd hmeans hrange).2
      refine ⟨?_, rfl⟩
      rw [Bool.eq_iff_iff, hany, decide_eq_true_eq, Ne, hempty, Classical.not_not]
  case prefixed.prefixed start range =>
    obtain ⟨⟨found, w⟩, hfound, h⟩ := ok_of_bind h
    cases h
    obtain ⟨hin, hterms⟩ := hmeans
    refine ⟨?_, rfl⟩
    rw [Bool.eq_iff_iff, anyTerm_ok hb hd hin hfound, oracleNode, List.any_eq_true]
    constructor
    · rintro ⟨i, t, hle, hlt, ht, hmem⟩
      exact ⟨t.text, hmem, List.isPrefixOf_iff_prefix.2 ((hterms i t ht).2 ⟨hle, hlt⟩)⟩
    · rintro ⟨text, hmem, hprefix⟩
      obtain ⟨position, hposition⟩ := List.mem_iff_getElem?.1 hmem
      obtain ⟨t, ht, rfl⟩ := hb.complete _ ((hb.occurs hd).2 hposition)
      obtain ⟨i, hi⟩ := List.mem_iff_getElem?.1 ht
      obtain ⟨hle, hlt⟩ := (hterms i t hi).1 (List.isPrefixOf_iff_prefix.1 hprefix)
      exact ⟨i, t, hle, hlt, hi, hmem⟩
  case phrase.phrase texts range =>
    obtain ⟨-, hroom, hbound⟩ := hmeans
    exact phrase_ok hb hd (hne texts rfl) hbound hroom h
  case not.not c c' =>
    cases h
    cases hmeans
    exact ⟨by rw [oracleNode, hchildren c List.mem_cons_self], rfl⟩
  case and.and l r l' r' =>
    cases h
    obtain ⟨rfl, rfl⟩ := hmeans
    exact ⟨by rw [oracleNode, hchildren _ List.mem_cons_self,
      hchildren _ (List.mem_cons_of_mem _ List.mem_cons_self)], rfl⟩
  case or.or l r l' r' =>
    cases h
    obtain ⟨rfl, rfl⟩ := hmeans
    exact ⟨by rw [oracleNode, hchildren _ List.mem_cons_self,
      hchildren _ (List.mem_cons_of_mem _ List.mem_cons_self)], rfl⟩

/-- The nodes are evaluated as the oracle evaluates them, whatever the scratch held before. -/
theorem valuesFrom_ok (hb : Built index) (hd : index.documents[document]? = some d)
    {phraseTerms : List PhraseTerm} {kinds : List Kind} {nodes : List Bound}
    {values values' before : List Bool} {scratch : ℕ}
    (hmeans : List.Forall₂ (Means index phraseTerms scratch) kinds nodes)
    (hscratch : ranges.length = scratch) (hne : ∀ ts, Kind.phrase ts ∈ kinds → ts ≠ [])
    (hchildren : ∀ i kind, kinds[i]? = some kind → ∀ c ∈ kind.children, c < before.length + i)
    (hbefore : values.take before.length = before)
    (hlength : values.length = before.length + kinds.length)
    (h : index.valuesFrom phraseTerms document nodes before.length values ranges work =
      .ok (values', ranges', work')) :
    values' = kinds.foldl (fun values k => values ++ [oracleNode d.text values k]) before ∧
      values'.length = values.length ∧ ranges'.length = scratch := by
  induction hmeans generalizing values before ranges work with
  | nil =>
    cases h
    rw [List.length_nil, Nat.add_zero] at hlength
    rw [← hlength, List.take_length] at hbefore
    exact ⟨hbefore, rfl, hscratch⟩
  | @cons kind node kinds nodes hkind hrest ih =>
    obtain ⟨w, -, h⟩ := ok_of_bind h
    obtain ⟨⟨value, middle, w'⟩, hvalue, h⟩ := ok_of_bind h
    have hread : ∀ c ∈ kind.children, values.getD c false = before.getD c false := by
      intro c hc
      have hlt := hchildren 0 kind rfl c hc
      rw [← hbefore, List.getD_eq_getElem?_getD, List.getD_eq_getElem?_getD,
        List.getElem?_take_of_lt (by omega)]
    rw [← hscratch] at hkind
    obtain ⟨hval, hmiddle⟩ := boundValue_ok hb hd hkind
      (fun ts hts => hne ts (by rw [hts]; exact List.mem_cons_self)) hread hvalue
    rw [List.length_cons] at hlength
    have hslot : before.length < values.length := by omega
    have hnext : (before ++ [value]).length = before.length + 1 := List.length_append
    have htake : (values.set before.length value).take (before ++ [value]).length =
        before ++ [value] := by
      rw [hnext, List.take_add_one, List.take_set_of_le (Nat.le_refl _), hbefore,
        List.getElem?_set_self hslot]
      rfl
    have hlength' : (values.set before.length value).length =
        (before ++ [value]).length + kinds.length := by
      rw [List.length_set, hnext]
      omega
    have hchildren' : ∀ i kind, kinds[i]? = some kind → ∀ c ∈ kind.children,
        c < (before ++ [value]).length + i := by
      intro i kind' hi c hc
      have := hchildren (i + 1) kind' hi c hc
      omega
    rw [← hnext] at h
    obtain ⟨hvalues, hsame, hranges⟩ := ih (hmiddle.trans hscratch)
      (fun ts hts => hne ts (List.mem_cons_of_mem _ hts)) hchildren' htake hlength' h
    rw [List.length_set] at hsame
    rw [List.foldl_cons, ← hval]
    exact ⟨hvalues, hsame, hranges⟩

end Evaluate

/-! ### Running a search -/

namespace Search

variable {q : Query} {s s' : Search} {d : IndexDocument}

/-- The part of a search that its documents do not change. -/
def Same (s s' : Search) : Prop := s'.index = s.index ∧ s'.nextDocument = s.nextDocument ∧
  s'.failed = s.failed

/-- A document matches when the oracle accepts it; the search stays ready. -/
theorem matchesDocument_ok (hs : s.Ready q) {document : ℕ} {b : Bool}
    (hd : s.index.documents[document]? = some d)
    (h : s.matchesDocument document = .ok (b, s')) :
    b = oracle d.text q ∧ s'.Ready q ∧ s.Same s' := by
  obtain ⟨⟨values, ranges, w⟩, hvalues, h⟩ := ok_of_bind h
  cases h
  have hchildren : ∀ i kind, q.nodes[i]? = some kind → ∀ c ∈ kind.children,
      c < ([] : List Bool).length + i := by
    intro i kind hi c hc
    rw [List.length_nil, Nat.zero_add]
    exact q.child_lt i kind hi c hc
  have hlength : s.values.length = ([] : List Bool).length + q.nodes.length := by
    rw [hs.values, List.length_nil, Nat.zero_add]
  obtain ⟨heq, hsame, hranges⟩ := @valuesFrom_ok s.index s.work w d document s.ranges ranges
    hs.built hd s.phraseTerms q.nodes s.nodes s.values values [] s.ranges.length hs.means rfl
    q.phrase_ne hchildren List.take_zero hlength hvalues
  refine ⟨by rw [heq, hs.root]; rfl, ⟨hs.built, ?_, hsame.trans hs.values, hs.root⟩, rfl, rfl, rfl⟩
  rw [hranges]
  exact hs.means

/-- What a call of `next` passed over and found among the documents that are left. -/
theorem nextFrom_ok (hs : s.Ready q) {documents : List IndexDocument}
    {r : Option (Except Error Candidate)}
    (hdocuments : s.index.documents.drop s.nextDocument = documents)
    (h : nextFrom documents s = (r, s')) :
    (r = none → ∀ d ∈ documents, oracle d.text q = false) ∧
      ∀ c, r = some (.ok c) → ∃ skipped d rest, documents = skipped ++ d :: rest ∧
        (∀ d ∈ skipped, oracle d.text q = false) ∧ oracle d.text q = true ∧
        c = ⟨d.identity, s.nextDocument + skipped.length⟩ ∧ s'.Ready q ∧ s'.failed = s.failed ∧
        s'.index = s.index ∧ s'.index.documents.drop s'.nextDocument = rest := by
  induction documents generalizing s with
  | nil =>
    cases h
    exact ⟨fun _ => nofun, nofun⟩
  | cons d documents ih =>
    have hd : s.index.documents[s.nextDocument]? = some d := by
      rw [← List.head?_drop, hdocuments, List.head?_cons]
    have hrest : s.index.documents.drop (s.nextDocument + 1) = documents := by
      rw [← List.drop_drop, hdocuments]
      rfl
    have hready : Ready q { s with nextDocument := s.nextDocument + 1 } :=
      ⟨hs.built, hs.means, hs.values, hs.root⟩
    unfold nextFrom at h
    simp only at h
    cases hmatch : matchesDocument { s with nextDocument := s.nextDocument + 1 } s.nextDocument with
    | error e =>
      rw [hmatch] at h
      cases h
      exact ⟨nofun, nofun⟩
    | ok m =>
      obtain ⟨b, t⟩ := m
      obtain ⟨hb, ht, hindex, hnext, hfailed⟩ := matchesDocument_ok hready hd hmatch
      simp only at hindex hnext hfailed
      rw [hmatch] at h
      cases b with
      | true =>
        cases h
        refine ⟨nofun, fun c hc => ?_⟩
        cases hc
        refine ⟨[], d, documents, rfl, nofun, hb.symm, rfl, ht, hfailed, hindex, ?_⟩
        rw [hindex, hnext, hrest]
      | false =>
        obtain ⟨hnone, hsome⟩ := ih ht (by rw [hindex, hnext, hrest]) h
        refine ⟨fun hr => List.forall_mem_cons.2 ⟨hb.symm, hnone hr⟩, fun c hc => ?_⟩
        obtain ⟨skipped, d', rest, hsplit, hskipped, hd', hc', hready', hfailed', hindex', hdrop⟩ :=
          hsome c hc
        refine ⟨d :: skipped, d', rest, by rw [hsplit]; rfl,
          List.forall_mem_cons.2 ⟨hb.symm, hskipped⟩, hd', ?_, hready', hfailed'.trans hfailed,
          hindex'.trans hindex, hdrop⟩
        rw [hc', hnext, List.length_cons, Nat.add_assoc, Nat.add_comm 1]

/-- A search that runs to its end yields the documents left that the oracle accepts. -/
theorem Yields.documents {cs : List Candidate} (h : s.Yields cs) (hs : s.Ready q) :
    cs.map Candidate.document =
        ((s.index.documents.drop s.nextDocument).filter fun d => oracle d.text q).map
          IndexDocument.identity ∧
      ∀ fuel count, (s.index.documents.drop s.nextDocument).length < fuel →
        s.countFrom fuel count = .ok (count + cs.length) := by
  induction h with
  | @done s s' hnext hfailed =>
    have hfrom : nextFrom (s.index.documents.drop s.nextDocument) s = (none, s') := by
      rwa [next, if_neg (by rw [hfailed]; exact Bool.false_ne_true)] at hnext
    have hnone := (nextFrom_ok hs rfl hfrom).1 rfl
    refine ⟨?_, fun fuel count hfuel => ?_⟩
    · rw [List.filter_eq_nil_iff.2 fun d hd => Bool.eq_false_iff.1 (hnone d hd)]
      rfl
    · cases fuel with
      | zero => exact absurd hfuel (Nat.not_lt_zero _)
      | succ fuel =>
        rw [countFrom, hnext]
        rfl
  | @candidate s s' c cs hnext _ ih =>
    have hfailed : s.failed = false := by
      rw [← Bool.not_eq_true]
      intro hf
      rw [next, if_pos hf] at hnext
      cases hnext
    have hfrom : nextFrom (s.index.documents.drop s.nextDocument) s = (some (.ok c), s') := by
      rwa [next, if_neg (by rw [hfailed]; exact Bool.false_ne_true)] at hnext
    obtain ⟨skipped, d, rest, hsplit, hskipped, hd, rfl, hready, -, -, hdrop⟩ :=
      (nextFrom_ok hs rfl hfrom).2 c rfl
    obtain ⟨hcs, hcount⟩ := ih hready
    rw [hdrop] at hcs hcount
    refine ⟨?_, fun fuel count hfuel => ?_⟩
    · have hkeep : (d :: rest).filter (fun d => oracle d.text q) =
          d :: rest.filter fun d => oracle d.text q := List.filter_cons_of_pos hd
      rw [hsplit, List.filter_append, List.filter_eq_nil_iff.2 fun d hd =>
        Bool.eq_false_iff.1 (hskipped d hd), List.nil_append, hkeep, List.map_cons, List.map_cons,
        hcs]
    · cases fuel with
      | zero => exact absurd hfuel (Nat.not_lt_zero _)
      | succ fuel =>
        rw [hsplit, List.length_append, List.length_cons] at hfuel
        rw [countFrom, hnext]
        simp only
        rw [hcount fuel (count + 1) (by omega), List.length_cons, Nat.add_assoc, Nat.add_comm 1]

end Search

/-- A search that runs to its end yields the documents that the oracle accepts, by ascending root
and each once; the candidate count is their number, and the index does not depend on the order in
which the documents were given. -/
theorem search_exact {z : Sizes} {relation : RelationGeneration} {documents : List IndexDocument}
    {limits : IndexLimits} (hbuild : build z relation documents limits = .ok index) (q : Query)
    {searchLimits : SearchLimits} {s : Search} (hsearch : index.search z q searchLimits = .ok s)
    {cs : List Candidate} (hrun : s.Yields cs) :
    (∃ ordered : List IndexDocument, ordered.Perm documents ∧
      (ordered.Pairwise fun a b => a.identity.root.lt b.identity.root) ∧
      cs.map Candidate.document =
        (ordered.filter fun d => oracle d.text q).map IndexDocument.identity) ∧
      index.candidateCount z q searchLimits = .ok cs.length ∧
      ∀ documents', documents.Perm documents' →
        build z relation documents' limits = .ok index := by
  obtain ⟨hb, hperm⟩ := built_of_build hbuild
  obtain ⟨hready, hindex, hfirst, -⟩ := search_ok hb hsearch
  obtain ⟨hcs, hcount⟩ := hrun.documents hready
  rw [hindex, hfirst, List.drop_zero] at hcs hcount
  refine ⟨⟨index.documents, hperm, hb.roots, hcs⟩, ?_, fun _ hother => build_perm hother hbuild⟩
  rw [candidateCount, hsearch, ok_bind, hcount _ 0 (Nat.lt_succ_self _), Nat.zero_add]

/-- The query `NOT "b c"`. -/
def notPhraseBC : Query where
  nodes := [.phrase [[98], [99]], .not 0]
  root := 1
  root_last := rfl
  child_lt := by
    intro i k hk c hc
    match i, hk with
    | 0, hk =>
      cases hk
      cases hc
    | 1, hk =>
      cases hk
      rw [List.mem_singleton.1 hc]
      exact Nat.zero_lt_one
  child_nodup := by decide
  phrase_ne := by
    intro ts hts
    rcases List.mem_cons.1 hts with h | h
    · cases h
      exact List.cons_ne_nil _ _
    · cases List.mem_singleton.1 h

/-- Two documents, the later root first. -/
def twoDocuments : List IndexDocument :=
  [⟨⟨⟨1, 1, 1, 1⟩, 1, 2, ⟨3, 1⟩⟩, [[99], [98]], by decide⟩,
    ⟨⟨⟨1, 1, 1, 1⟩, 1, 1, ⟨2, 5⟩⟩, [[97], [98], [99]], by decide⟩]

/-- Their index. -/
def twoIndex : ReferenceIndex where
  relation := ⟨1, 1, 1, 1⟩
  documents := twoDocuments.reverse
  postings := [⟨[97], 0, 0⟩, ⟨[98], 0, 1⟩, ⟨[98], 1, 1⟩, ⟨[99], 0, 2⟩, ⟨[99], 1, 0⟩]
  terms := [⟨[97], ⟨0, 1⟩, 1⟩, ⟨[98], ⟨1, 3⟩, 2⟩, ⟨[99], ⟨3, 5⟩, 2⟩]
  totalLength := 5
  retainedBytes := 10

set_option maxRecDepth 10000 in
theorem search_twoDocuments :
    twoIndex.candidateCount ⟨1, 1, 1, 1, 1, 1⟩ notPhraseBC ⟨9, 99, 99⟩ = .ok 1 ∧
      build ⟨1, 1, 1, 1, 1, 1⟩ ⟨1, 1, 1, 1⟩ twoDocuments.reverse ⟨9, 9, 9, 9, 99⟩ =
        .ok twoIndex := by
  have hbuild : build ⟨1, 1, 1, 1, 1, 1⟩ ⟨1, 1, 1, 1⟩ twoDocuments ⟨9, 9, 9, 9, 99⟩ =
      .ok twoIndex := rfl
  obtain ⟨s, hsearch, hrun⟩ : ∃ s, twoIndex.search ⟨1, 1, 1, 1, 1, 1⟩ notPhraseBC ⟨9, 99, 99⟩ =
      .ok s ∧ s.Yields [⟨⟨⟨1, 1, 1, 1⟩, 1, 2, ⟨3, 1⟩⟩, 1⟩] :=
    ⟨_, rfl, .candidate rfl (.done rfl rfl)⟩
  obtain ⟨-, hcount, hother⟩ := search_exact hbuild notPhraseBC hsearch hrun
  exact ⟨hcount, hother _ (List.reverse_perm _).symm⟩

end ReferenceIndex

end PinCore
