import Mathlib.Data.List.Sort
import PinCore.Codec.Bytes
import PinCore.Lib.LowerBound
import PinCore.Query.Memory

/-!
# The reference index

`ReferenceIndex.build` sorts the documents by root and all their tokens by term, document and
position, and records the run of every term.  `Built` says what the index holds: a function of the
set of documents, whatever their order was.
-/

namespace PinCore

/-- A physical generation of a relation. -/
structure RelationGeneration where
  database : ℕ
  tablespace : ℕ
  relfilenumber : ℕ
  generation : ℕ
  deriving DecidableEq, Repr

/-- A reference to a document of a generation of the relation. -/
structure DocumentRef where
  relation : RelationGeneration
  segment : ℕ
  incarnation : ℕ
  root : RootTid
  deriving DecidableEq, Repr

/-- The order of heap coordinates: by block, then by offset. -/
def RootTid.lt (a b : RootTid) : Prop :=
  a.block < b.block ∨ a.block = b.block ∧ a.offset < b.offset

instance : DecidableRel RootTid.lt := fun _ _ => inferInstanceAs (Decidable (_ ∨ _ ∧ _))

/-- An indexed document: its identity and its analysed terms, which are counted in 32 bits. -/
structure IndexDocument where
  identity : DocumentRef
  text : Document
  length_lt : text.length < u32Limit

/-- The limits of the reference index. -/
structure IndexLimits where
  documents : ℕ
  tokens : ℕ
  terms : ℕ
  termBytes : ℕ
  memoryBytes : ℕ

/-- One occurrence of a term; the document is an ordinal. -/
structure Posting where
  term : Text
  document : ℕ
  position : ℕ
  deriving DecidableEq, Repr

/-- A range of indices. -/
structure IndexRange where
  first : ℕ
  last : ℕ
  deriving DecidableEq, Repr

namespace IndexRange

/-- The length of a range. -/
def len (r : IndexRange) : ℕ := r.last - r.first

/-- The values at the indices. -/
def slice {α : Type} (r : IndexRange) (values : List α) : List α := (values.drop r.first).take r.len

end IndexRange

/-- A term of the index with the range of its postings and its document frequency. -/
structure IndexTerm where
  text : Text
  postings : IndexRange
  frequency : ℕ
  deriving DecidableEq, Repr

/-- The reference index: its documents, its postings and its terms, all in order. -/
structure ReferenceIndex where
  relation : RelationGeneration
  documents : List IndexDocument
  postings : List Posting
  terms : List IndexTerm
  totalLength : ℕ
  retainedBytes : ℕ

namespace ReferenceIndex

/-- Element sizes of the buffers that building and searching charge. -/
structure Sizes where
  document : ℕ
  posting : ℕ
  term : ℕ
  bound : ℕ
  phraseTerm : ℕ
  range : ℕ

/-- The documents are in the order of their roots. -/
def byRoot (a b : IndexDocument) : Prop := ¬ b.identity.root.lt a.identity.root

instance : DecidableRel byRoot := fun _ _ => inferInstanceAs (Decidable (¬ _))

/-- Two documents in a row have the same root. -/
def hasDuplicate : List IndexDocument → Bool
  | a :: b :: rest => decide (a.identity.root = b.identity.root) || hasDuplicate (b :: rest)
  | _ => false

/-- By term, then by document, then by position. -/
def byTerm (a b : Posting) : Prop :=
  a.term < b.term ∨ a.term = b.term ∧
    (a.document < b.document ∨ a.document = b.document ∧ a.position ≤ b.position)

instance : DecidableRel byTerm := fun _ _ => inferInstanceAs (Decidable (_ ∨ _ ∧ (_ ∨ _ ∧ _)))

/-- The occurrences of one document. -/
def documentPostings (d : IndexDocument) (ordinal : ℕ) : List Posting :=
  d.text.zipIdx.map fun (term, position) => ⟨term, ordinal, position⟩

/-- The postings of all documents. -/
def allPostings (ordered : List IndexDocument) : List Posting :=
  ordered.zipIdx.flatMap fun (d, ordinal) => documentPostings d ordinal

/-- The number of changes between neighbours. -/
def changes {κ : Type} [DecidableEq κ] : List κ → ℕ
  | a :: b :: rest => (if a ≠ b then 1 else 0) + changes (b :: rest)
  | _ => 0

/-- The number of terms of sorted postings. -/
def distinctTerms (postings : List Posting) : ℕ :=
  (if postings = [] then 0 else 1) + changes (postings.map Posting.term)

/-- The terms of sorted postings with their runs; `first` is the index of the next posting. -/
def termsFrom : ℕ → ℕ → List Posting → List IndexTerm
  | 0, _, _ => []
  | _ + 1, _, [] => []
  | fuel + 1, first, p :: rest =>
    let run := p :: rest.takeWhile fun q => q.term = p.term
    ⟨p.term, ⟨first, first + run.length⟩, 1 + changes (run.map Posting.document)⟩ ::
      termsFrom fuel (first + run.length) (rest.dropWhile fun q => q.term = p.term)

/-- The checks of the documents in order; `total` counts the tokens before. -/
def checkDocuments (relation : RelationGeneration) (limits : IndexLimits) :
    List IndexDocument → ℕ → Except Error ℕ
  | [], total => .ok total
  | d :: documents, total =>
    if d.identity.relation ≠ relation then .error .foreignRelation
    else if usizeLimit ≤ total + d.text.length ∨ limits.tokens < total + d.text.length then
      .error (.limit "tokens")
    else if d.text.any fun term => limits.termBytes < term.length then .error (.limit "term bytes")
    else checkDocuments relation limits documents (total + d.text.length)

/-- Builds the index within its limits. -/
def build (z : Sizes) (relation : RelationGeneration) (documents : List IndexDocument)
    (limits : IndexLimits) : Except Error ReferenceIndex :=
  if limits.documents < documents.length ∨ u32Limit ≤ documents.length then
    .error (.limit "documents")
  else do
    let total ← checkDocuments relation limits documents 0
    let budget ← (MemoryBudget.new limits.memoryBytes).vector documents.length z.document
    let ordered := documents.insertionSort byRoot
    if hasDuplicate ordered then .error .duplicateDocument
    else do
      let budget ← budget.vector total z.posting
      let postings := (allPostings ordered).insertionSort byTerm
      if limits.terms < distinctTerms postings then .error (.limit "dictionary terms")
      else do
        let budget ← budget.vector (distinctTerms postings) z.term
        .ok ⟨relation, ordered, postings, termsFrom postings.length 0 postings, total, budget.used⟩

/-! ### Orders -/

theorem root_lt_trans {a b c : RootTid} (h : a.lt b) (h' : b.lt c) : a.lt c := by
  unfold RootTid.lt at *
  omega

theorem root_lt_irrefl (a : RootTid) : ¬ a.lt a := by
  unfold RootTid.lt
  omega

theorem root_lt_or_eq {a b : RootTid} (h : ¬ b.lt a) : a.lt b ∨ a = b := by
  obtain ⟨block, offset⟩ := a
  obtain ⟨block', offset'⟩ := b
  simp only [RootTid.lt, RootTid.mk.injEq] at h ⊢
  omega

instance : Std.Total byRoot where
  total a b := by
    unfold byRoot RootTid.lt
    omega

instance : IsTrans IndexDocument byRoot where
  trans a b c := by
    unfold byRoot RootTid.lt
    omega

theorem text_lt_or_eq_or_gt (a b : Text) : a < b ∨ a = b ∨ b < a := by
  by_cases h : a < b
  · exact .inl h
  · rcases List.le_iff_lt_or_eq.1 (List.not_lt.1 h) with h | h
    · exact .inr (.inr h)
    · exact .inr (.inl h.symm)

theorem byTerm_total (a b : Posting) : byTerm a b ∨ byTerm b a := by
  unfold byTerm
  rcases text_lt_or_eq_or_gt a.term b.term with h | h | h
  · exact .inl (.inl h)
  · by_cases hle : a.document < b.document ∨ a.document = b.document ∧ a.position ≤ b.position
    · exact .inl (.inr ⟨h, hle⟩)
    · exact .inr (.inr ⟨h.symm, by omega⟩)
  · exact .inr (.inl h)

theorem byTerm_trans {a b c : Posting} (h : byTerm a b) (h' : byTerm b c) : byTerm a c := by
  unfold byTerm at *
  rcases h with h | ⟨h, hle⟩
  · rcases h' with h' | ⟨h', -⟩
    · exact .inl (List.lt_trans h h')
    · exact .inl (h' ▸ h)
  · rcases h' with h' | ⟨h', hle'⟩
    · exact .inl (h ▸ h')
    · exact .inr ⟨h.trans h', by omega⟩

instance : Std.Total byTerm where
  total := byTerm_total

instance : IsTrans Posting byTerm where
  trans _ _ _ := byTerm_trans

theorem byTerm.term_le {a b : Posting} (h : byTerm a b) : a.term < b.term ∨ a.term = b.term :=
  h.imp id And.left

/-! ### The terms -/

/-- The term's run is a part of the postings: all occurrences of its text and no others. -/
def IsRun (postings : List Posting) (t : IndexTerm) : Prop :=
  ∃ before run after, postings = before ++ run ++ after ∧
    t.postings = ⟨before.length, before.length + run.length⟩ ∧ run ≠ [] ∧
    (∀ p ∈ run, p.term = t.text) ∧ ∀ p ∈ before ++ after, p.term ≠ t.text

/-- Behind a run of sorted postings its term does not occur again. -/
theorem dropWhile_term {p : Posting} {rest : List Posting} (h : (p :: rest).Pairwise byTerm) :
    ∀ q ∈ rest.dropWhile (fun q => q.term = p.term), p.term < q.term := by
  obtain ⟨hp, hrest⟩ := List.pairwise_cons.1 h
  intro q hq
  have hne : q.term ≠ p.term := by
    have hordered : rest.Pairwise fun a b =>
        decide (b.term = p.term) = true → decide (a.term = p.term) = true := by
      refine hrest.imp_of_mem fun {a b} ha hb hab => ?_
      rw [decide_eq_true_eq, decide_eq_true_eq]
      intro hbp
      rcases (hp a ha).term_le with hlt | heq
      · rcases hab.term_le with hab | hab
        · exact absurd (hbp ▸ List.lt_trans hlt hab) (List.lt_irrefl _)
        · exact absurd (hbp ▸ hab ▸ hlt) (List.lt_irrefl _)
      · exact heq.symm
    exact of_decide_eq_false (dropWhile_after hordered q hq)
  rcases (hp q ((List.dropWhile_sublist _).subset hq)).term_le with hlt | heq
  · exact hlt
  · exact absurd heq.symm hne

/-- The terms of sorted postings: strictly ascending, with their runs, and none missing. -/
theorem termsFrom_spec {fuel : ℕ} {passed rest : List Posting} (hsorted : rest.Pairwise byTerm)
    (hpassed : ∀ p ∈ passed, ∀ q ∈ rest, p.term < q.term) (hfuel : rest.length ≤ fuel) :
    ((termsFrom fuel passed.length rest).map IndexTerm.text).Pairwise (· < ·) ∧
      (∀ t ∈ termsFrom fuel passed.length rest, IsRun (passed ++ rest) t ∧
        ∃ p ∈ rest, p.term = t.text) ∧
      ∀ p ∈ rest, ∃ t ∈ termsFrom fuel passed.length rest, t.text = p.term := by
  induction fuel generalizing passed rest with
  | zero =>
    rw [List.eq_nil_of_length_eq_zero (Nat.le_zero.1 hfuel)]
    exact ⟨List.Pairwise.nil, nofun, nofun⟩
  | succ fuel ih =>
    cases rest with
    | nil => exact ⟨List.Pairwise.nil, nofun, nofun⟩
    | cons p rest =>
      have hlater := dropWhile_term hsorted
      have hsplit : rest.takeWhile (fun q => q.term = p.term) ++
          rest.dropWhile (fun q => q.term = p.term) = rest := List.takeWhile_append_dropWhile
      have hrun : ∀ q ∈ p :: rest.takeWhile (fun q => q.term = p.term), q.term = p.term := by
        intro q hq
        rcases List.mem_cons.1 hq with rfl | hq
        · rfl
        · exact of_decide_eq_true
            (List.mem_takeWhile_imp (p := fun q : Posting => decide (q.term = p.term)) hq)
      have hsub := (List.dropWhile_sublist (l := rest) fun q => q.term = p.term)
      generalize htake : p :: rest.takeWhile (fun q => q.term = p.term) = run at hrun
      generalize hdrop : rest.dropWhile (fun q => q.term = p.term) = later at *
      have hrest : p :: rest = run ++ later := by rw [← htake, List.cons_append, hsplit]
      have hpassed' : ∀ q ∈ passed ++ run, ∀ r ∈ later, q.term < r.term := by
        intro q hq r hr
        rcases List.mem_append.1 hq with hq | hq
        · exact hpassed q hq r (List.mem_cons_of_mem _ (hsub.subset hr))
        · rw [hrun q hq]
          exact hlater r hr
      have hunfold : termsFrom (fuel + 1) passed.length (p :: rest) =
          ⟨p.term, ⟨passed.length, passed.length + run.length⟩,
            1 + changes (run.map Posting.document)⟩ ::
            termsFrom fuel (passed ++ run).length later := by
        rw [List.length_append, ← htake, ← hdrop]
        rfl
      obtain ⟨htexts, hruns, hall⟩ := @ih (passed ++ run) later
        ((List.pairwise_cons.1 hsorted).2.sublist hsub) hpassed'
        (Nat.le_trans hsub.length_le (Nat.le_of_succ_le_succ hfuel))
      rw [hunfold, hrest, List.map_cons]
      refine ⟨List.pairwise_cons.2 ⟨?_, htexts⟩, ?_, ?_⟩
      · intro text htext
        obtain ⟨t, ht, rfl⟩ := List.mem_map.1 htext
        obtain ⟨-, q, hq, hqt⟩ := hruns t ht
        rw [← hqt]
        exact hlater q hq
      · intro t ht
        rcases List.mem_cons.1 ht with rfl | ht
        · refine ⟨⟨passed, run, later, (List.append_assoc _ _ _).symm, rfl, ?_, hrun, ?_⟩, p,
            ?_, rfl⟩
          · rw [← htake]
            exact List.cons_ne_nil _ _
          · intro q hq heq
            simp only at heq
            rcases List.mem_append.1 hq with hq | hq
            · exact absurd (heq ▸ hpassed q hq p List.mem_cons_self) (List.lt_irrefl _)
            · exact absurd (heq ▸ hlater q hq) (List.lt_irrefl _)
          · rw [← hrest]
            exact List.mem_cons_self
        · obtain ⟨hrun', q, hq, hqt⟩ := hruns t ht
          rw [List.append_assoc] at hrun'
          exact ⟨hrun', q, List.mem_append_right _ hq, hqt⟩
      · intro q hq
        rcases List.mem_append.1 hq with hq | hq
        · exact ⟨_, List.mem_cons_self, (hrun q hq).symm⟩
        · obtain ⟨t, ht, hqt⟩ := hall q hq
          exact ⟨t, List.mem_cons_of_mem _ ht, hqt⟩

/-! ### What the index holds -/

/-- The index of the documents: they stand by ascending root, every occurrence of a term has a
posting, and every term its run. -/
structure Built (index : ReferenceIndex) : Prop where
  roots : index.documents.Pairwise fun a b => a.identity.root.lt b.identity.root
  sorted : index.postings.Pairwise byTerm
  postings : ∀ p, p ∈ index.postings ↔
    ∃ d, index.documents[p.document]? = some d ∧ d.text[p.position]? = some p.term
  texts : (index.terms.map IndexTerm.text).Pairwise (· < ·)
  runs : ∀ t ∈ index.terms, IsRun index.postings t
  complete : ∀ p ∈ index.postings, ∃ t ∈ index.terms, t.text = p.term

theorem mem_allPostings {ordered : List IndexDocument} {p : Posting} :
    p ∈ allPostings ordered ↔
      ∃ d, ordered[p.document]? = some d ∧ d.text[p.position]? = some p.term := by
  unfold allPostings documentPostings
  rw [List.mem_flatMap]
  constructor
  · rintro ⟨⟨d, ordinal⟩, hd, hp⟩
    obtain ⟨⟨term, position⟩, ht, rfl⟩ := List.mem_map.1 hp
    exact ⟨d, List.mem_zipIdx_iff_getElem?.1 hd, List.mem_zipIdx_iff_getElem?.1 ht⟩
  · rintro ⟨d, hd, ht⟩
    refine ⟨(d, p.document), List.mem_zipIdx_iff_getElem?.2 hd, List.mem_map.2 ?_⟩
    exact ⟨(p.term, p.position), List.mem_zipIdx_iff_getElem?.2 ht, rfl⟩

/-- Sorted documents without equal neighbours have strictly ascending roots. -/
theorem roots_of_hasDuplicate {ordered : List IndexDocument} (hsorted : ordered.Pairwise byRoot)
    (h : hasDuplicate ordered = false) :
    ordered.Pairwise fun a b => a.identity.root.lt b.identity.root := by
  induction ordered with
  | nil => exact List.Pairwise.nil
  | cons a rest ih =>
    obtain ⟨ha, hrest⟩ := List.pairwise_cons.1 hsorted
    cases rest with
    | nil => exact List.pairwise_singleton _ _
    | cons b rest =>
      rw [hasDuplicate, Bool.or_eq_false_iff, decide_eq_false_iff_not] at h
      have hstrict := ih hrest h.2
      have hab : a.identity.root.lt b.identity.root :=
        (root_lt_or_eq (ha b List.mem_cons_self)).resolve_right h.1
      refine List.pairwise_cons.2 ⟨fun c hc => ?_, hstrict⟩
      rcases List.mem_cons.1 hc with rfl | hc
      · exact hab
      · exact root_lt_trans hab ((List.pairwise_cons.1 hstrict).1 c hc)

variable {z : Sizes} {relation : RelationGeneration} {documents documents' : List IndexDocument}
  {limits : IndexLimits} {index : ReferenceIndex}

/-- What a successful build computed. -/
theorem of_build (h : build z relation documents limits = .ok index) :
    index.documents = documents.insertionSort byRoot ∧
      hasDuplicate index.documents = false ∧
      index.postings = (allPostings index.documents).insertionSort byTerm ∧
      index.terms = termsFrom index.postings.length 0 index.postings := by
  unfold build at h
  split at h
  · cases h
  obtain ⟨total, -, h⟩ := ok_of_bind h
  obtain ⟨budget, -, h⟩ := ok_of_bind h
  simp only at h
  split at h
  · cases h
  next hdup =>
    obtain ⟨budget', -, h⟩ := ok_of_bind h
    split at h
    · cases h
    obtain ⟨budget'', -, h⟩ := ok_of_bind h
    cases h
    exact ⟨rfl, Bool.eq_false_iff.2 hdup, rfl, rfl⟩

/-- Every index that is built is the index of its documents. -/
theorem built_of_build (h : build z relation documents limits = .ok index) :
    Built index ∧ index.documents.Perm documents := by
  obtain ⟨hdocuments, hdup, hpostings, hterms⟩ := of_build h
  have hperm : index.documents.Perm documents := by
    rw [hdocuments]
    exact List.perm_insertionSort _ _
  have hbyRoot : index.documents.Pairwise byRoot := by
    rw [hdocuments]
    exact List.pairwise_insertionSort _ _
  have hsorted : index.postings.Pairwise byTerm := by
    rw [hpostings]
    exact List.pairwise_insertionSort _ _
  obtain ⟨htexts, hruns, hall⟩ := @termsFrom_spec index.postings.length [] index.postings hsorted
    nofun (Nat.le_refl _)
  rw [List.length_nil, ← hterms] at htexts hruns hall
  refine ⟨⟨roots_of_hasDuplicate hbyRoot hdup, hsorted, fun p => ?_, htexts,
    fun t ht => (hruns t ht).1, hall⟩, hperm⟩
  rw [hpostings, List.mem_insertionSort, mem_allPostings]

/-! ### The order of the documents -/

/-- The checks accept the documents in any order that they accept them in. -/
theorem checkDocuments_iff {total r : ℕ} (hbound : total < usizeLimit ∧ total ≤ limits.tokens) :
    checkDocuments relation limits documents total = .ok r ↔
      (∀ d ∈ documents, d.identity.relation = relation ∧
        ¬ (d.text.any fun term => decide (limits.termBytes < term.length)) = true) ∧
      r = total + (documents.map fun d => d.text.length).sum ∧ r < usizeLimit ∧
        r ≤ limits.tokens := by
  induction documents generalizing total with
  | nil =>
    rw [checkDocuments, List.map_nil, List.sum_nil]
    constructor
    · intro h
      cases h
      exact ⟨nofun, rfl, hbound⟩
    · rintro ⟨-, rfl, -⟩
      rfl
  | cons d documents ih =>
    rw [checkDocuments, List.map_cons, List.sum_cons, List.forall_mem_cons]
    by_cases hrelation : d.identity.relation = relation
    · rw [if_neg (not_not_intro hrelation)]
      by_cases htokens : usizeLimit ≤ total + d.text.length ∨
          limits.tokens < total + d.text.length
      · rw [if_pos htokens]
        refine ⟨nofun, fun h => ?_⟩
        obtain ⟨-, hr, hlimit, hle⟩ := h
        omega
      · rw [if_neg htokens]
        by_cases hterm : (d.text.any fun term => decide (limits.termBytes < term.length)) = true
        · rw [if_pos hterm]
          exact ⟨nofun, fun h => absurd hterm h.1.1.2⟩
        · rw [if_neg hterm, ih (by omega), Nat.add_assoc]
          exact ⟨fun h => ⟨⟨⟨hrelation, hterm⟩, h.1⟩, h.2⟩, fun h => ⟨h.1.2, h.2⟩⟩
    · rw [if_pos hrelation]
      exact ⟨nofun, fun h => absurd h.1.1.1 hrelation⟩

/-- Strictly ascending roots name their documents. -/
theorem eq_of_root {ordered : List IndexDocument}
    (h : ordered.Pairwise fun a b => a.identity.root.lt b.identity.root) {a b : IndexDocument}
    (ha : a ∈ ordered) (hb : b ∈ ordered) (hroot : a.identity.root = b.identity.root) : a = b := by
  induction ordered with
  | nil => cases ha
  | cons c rest ih =>
    obtain ⟨hc, hrest⟩ := List.pairwise_cons.1 h
    rcases List.mem_cons.1 ha with hac | hac
    · rcases List.mem_cons.1 hb with hbc | hbc
      · rw [hac, hbc]
      · rw [hac] at hroot
        exact absurd (hroot ▸ hc b hbc) (root_lt_irrefl _)
    · rcases List.mem_cons.1 hb with hbc | hbc
      · rw [hbc] at hroot
        exact absurd (hroot ▸ hc a hac) (root_lt_irrefl _)
      · exact ih hrest hac hbc

/-- Documents with distinct roots are sorted in one way. -/
theorem insertionSort_perm (hperm : documents.Perm documents')
    (hroots : (documents.insertionSort byRoot).Pairwise
      fun a b => a.identity.root.lt b.identity.root) :
    documents'.insertionSort byRoot = documents.insertionSort byRoot := by
  have hsame : (documents.insertionSort byRoot).Perm (documents'.insertionSort byRoot) :=
    (List.perm_insertionSort _ _).trans (hperm.trans (List.perm_insertionSort _ _).symm)
  refine (List.Perm.eq_of_pairwise (fun a b ha hb hab hba => ?_)
    (List.pairwise_insertionSort byRoot documents) (List.pairwise_insertionSort byRoot documents')
    hsame).symm
  exact eq_of_root hroots ha (hsame.mem_iff.2 hb) ((root_lt_or_eq hab).resolve_left hba)

/-- The index does not depend on the order in which the documents are given. -/
theorem build_perm (hperm : documents.Perm documents')
    (h : build z relation documents limits = .ok index) :
    build z relation documents' limits = .ok index := by
  obtain ⟨hdocuments, -⟩ := of_build h
  have hroots := (built_of_build h).1.roots
  rw [hdocuments] at hroots
  have hordered := insertionSort_perm hperm hroots
  have htotal : ∃ total, checkDocuments relation limits documents 0 = .ok total := by
    unfold build at h
    split at h
    · cases h
    · obtain ⟨total, htotal, -⟩ := ok_of_bind h
      exact ⟨total, htotal⟩
  obtain ⟨total, htotal⟩ := htotal
  have hzero : 0 < usizeLimit ∧ 0 ≤ limits.tokens := ⟨by decide, Nat.zero_le _⟩
  have htotal' : checkDocuments relation limits documents' 0 = .ok total := by
    rw [checkDocuments_iff hzero] at htotal ⊢
    obtain ⟨hall, hsum, hbound⟩ := htotal
    refine ⟨fun d hd => hall d (hperm.mem_iff.2 hd), ?_, hbound⟩
    rw [hsum, (hperm.map _).sum_nat]
  rw [← h, build, build, hperm.length_eq, htotal, htotal', hordered]

end ReferenceIndex

end PinCore
