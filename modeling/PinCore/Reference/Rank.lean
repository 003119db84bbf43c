import Mathlib.Data.List.Destutter
import PinCore.Document.Validate
import PinCore.Lib.TopK
import PinCore.Reference.Search

/-!
# Ranking

`rank` scores the documents of a search that the caller approves and returns one page of them, the
best first and equal scores by root.  A heap of `offset + limit` entries is all that it keeps.  The
scores belong to an arbitrary total order; `Scoring` is the arithmetic on them.
-/

namespace PinCore

/-- The size of a corpus under a profile. -/
structure CorpusSummary where
  relation : RelationGeneration
  profile : ℕ
  documents : ℕ
  totalLength : ℕ

/-- The checks of a summary: its profile and the length of its documents. -/
def CorpusSummary.validate (s : CorpusSummary) : Except Error Unit :=
  if s.profile ≠ profileId then .error .invalidProfile
  else if s.documents = 0 ∧ s.totalLength ≠ 0 then .error .invalidStatistics
  else if s.documents * (u32Limit - 1) < usizeLimit ∧
      s.documents * (u32Limit - 1) < s.totalLength then .error .invalidStatistics
  else .ok ()

/-- The number of documents with a term. -/
structure TermStatistic where
  term : Text
  documents : ℕ

/-- The limits of the statistics. -/
structure StatisticsLimits where
  terms : ℕ
  termBytes : ℕ
  totalTermBytes : ℕ

/-- Where the document frequencies come from. -/
inductive Statistics where
  | supplied (terms : List TermStatistic)
  | indexed (terms : List IndexTerm)

/-- The terms with their document frequencies. -/
def Statistics.entries : Statistics → List (Text × ℕ)
  | .supplied terms => terms.map fun t => (t.term, t.documents)
  | .indexed terms => terms.map fun t => (t.text, t.frequency)

/-- The statistics of one corpus; the terms ascend. -/
structure StatsEpoch where
  id : ℕ
  summary : CorpusSummary
  terms : Statistics
  id_ne : id ≠ 0
  sorted : (terms.entries.map Prod.fst).Pairwise (· < ·)

namespace StatsEpoch

/-- The checks of supplied statistics; `previous` is the term before, `bytes` and `sum` count the
bytes and the documents so far. -/
def checkTerms (summary : CorpusSummary) (limits : StatisticsLimits) :
    List TermStatistic → Text → ℕ → ℕ → Except Error Unit
  | [], _, _, _ => .ok ()
  | t :: ts, previous, bytes, sum =>
    let bytes := bytes + t.term.length
    let sum := sum + t.documents
    if usizeLimit ≤ bytes then .error (.limit "statistics bytes")
    else if limits.termBytes < t.term.length ∨ limits.totalTermBytes < bytes then
      .error (.limit "statistics bytes")
    else if ¬ previous < t.term ∨ summary.documents < t.documents then .error .invalidStatistics
    else if usizeLimit ≤ sum ∨ summary.totalLength < sum then .error .invalidStatistics
    else checkTerms summary limits ts t.term bytes sum

/-- The terms that were checked ascend. -/
theorem sorted_of_checkTerms {summary : CorpusSummary} {limits : StatisticsLimits}
    {terms : List TermStatistic} {previous : Text} {bytes sum : ℕ}
    (h : checkTerms summary limits terms previous bytes sum = .ok ()) :
    (previous :: (Statistics.supplied terms).entries.map Prod.fst).Pairwise (· < ·) := by
  induction terms generalizing previous bytes sum with
  | nil => exact List.pairwise_singleton _ _
  | cons t ts ih =>
    unfold checkTerms at h
    dsimp only at h
    split_ifs at h with _ _ hstep
    have hlt : previous < t.term := not_not.1 (not_or.1 hstep).1
    have hrest := ih h
    refine List.pairwise_cons.2 ⟨fun text htext => ?_, hrest⟩
    rcases List.mem_cons.1 htext with rfl | htext
    · exact hlt
    · exact List.lt_trans hlt ((List.pairwise_cons.1 hrest).1 text htext)

/-- An epoch of supplied statistics, after its checks. -/
def new (id : ℕ) (summary : CorpusSummary) (terms : List TermStatistic)
    (limits : StatisticsLimits) : Except Error StatsEpoch :=
  if hid : id = 0 then .error .invalidStatistics
  else do
    summary.validate
    if limits.terms < terms.length then .error (.limit "statistics terms")
    else
      match hterms : checkTerms summary limits terms [] 0 0 with
      | .error e => .error e
      | .ok () =>
        .ok ⟨id, summary, .supplied terms, hid, (sorted_of_checkTerms hterms).of_cons⟩

/-- Zero for a term that has no entry. -/
def documentFrequency (epoch : StatsEpoch) (term : Text) : ℕ :=
  ((epoch.terms.entries.find? fun entry => entry.1 = term).map Prod.snd).getD 0

end StatsEpoch

/-! ### Scores -/

/-- The arithmetic of scores.  Each operation may fail, as results that are not finite do. -/
structure Scoring (σ : Type) where
  zero : σ
  one : σ
  /-- The quotient of two counts. -/
  quotient : ℕ → ℕ → σ
  /-- The weight of a term that is missing in so many documents and occurs in so many. -/
  inverse : ℕ → ℕ → Except Error σ
  /-- The gain of a term with this weight that occurs so often in a document of some length, where
  the documents have some average length. -/
  gain : σ → ℕ → ℕ → σ → Except Error σ
  add : σ → σ → Except Error σ

namespace Scoring

variable {σ : Type} (sc : Scoring σ)

/-- The average length of a document. -/
def averageLength (summary : CorpusSummary) : σ :=
  if summary.documents = 0 ∨ summary.totalLength = 0 then sc.one
  else sc.quotient summary.totalLength summary.documents

/-- Ranking does not boost terms. -/
def idf (summary : CorpusSummary) (frequency : ℕ) : Except Error σ :=
  if summary.totalLength < frequency then .error .invalidStatistics
  else if summary.documents < frequency then .error .invalidStatistics
  else sc.inverse (summary.documents - frequency) frequency

/-- The score of a term in a document of a length. -/
def weightedScore [DecidableEq σ] (weight : σ) (tf length : ℕ) (average : σ) : Except Error σ :=
  if length < tf then .error .invalidStatistics
  else if tf = 0 ∨ weight = sc.zero then .ok sc.zero
  else sc.gain weight tf length average

end Scoring

namespace ReferenceIndex

/-- The page of the ranking that is asked for. -/
structure RankRequest where
  limit : ℕ
  offset : ℕ
  search : SearchLimits

/-- A document with its score. -/
structure RankedCandidate (σ : Type) where
  document : DocumentRef
  score : σ
  deriving DecidableEq, Repr

/-- An entry of the heap: a document and its score. -/
structure HeapEntry (σ : Type) where
  ordinal : ℕ
  score : σ

/-- The weight of a term. -/
structure Weight (σ : Type) where
  term : ℕ
  value : σ

/-- Element sizes of the buffers that ranking charges; every element takes a byte. -/
structure RankSizes extends Sizes where
  weight : ℕ
  heapEntry : ℕ
  candidate : ℕ
  phraseTerm_pos : 0 < phraseTerm
  weight_pos : 0 < weight
  heapEntry_pos : 0 < heapEntry

variable (index : ReferenceIndex) {σ : Type} [LinearOrder σ]

/-- The more competitive entry comes first: the higher score, then the lower ordinal. -/
def HeapEntry.le (a b : HeapEntry σ) : Prop :=
  b.score < a.score ∨ a.score = b.score ∧ a.ordinal ≤ b.ordinal

instance : DecidableRel (@HeapEntry.le σ _) := fun _ _ =>
  inferInstanceAs (Decidable (_ ∨ _ ∧ _))

/-- The statistics of the index itself. -/
def statistics (hb : (index.terms.map IndexTerm.text).Pairwise (· < ·)) (id : ℕ) :
    Except Error StatsEpoch :=
  if hid : id = 0 then .error .invalidStatistics
  else .ok ⟨id, ⟨index.relation, profileId, index.documents.length, index.totalLength⟩,
    .indexed index.terms, hid, by rw [Statistics.entries, List.map_map]; exact hb⟩

/-! ### Weights -/

namespace Bound

/-- The number of terms that a node can score. -/
def additional : Bound → ℕ
  | .term _ => 1
  | .prefixed range => range.len
  | .phrase range => range.len
  | _ => 0

/-- Passes the polarity of a node on to its children. -/
def mark (negative : List Bool) (slot : ℕ) : Bound → List Bool
  | .not c => negative.set c (!negative.getD slot false)
  | .and l r => (negative.set l (negative.getD slot false)).set r (negative.getD slot false)
  | .or l r => (negative.set l (negative.getD slot false)).set r (negative.getD slot false)
  | _ => negative

end Bound

/-- The terms of a phrase, without those that were not found. -/
def phraseWeights : List PhraseTerm → List ℕ → ℕ → Except Error (List ℕ × ℕ)
  | [], terms, work => .ok (terms, work)
  | token :: tokens, terms, work => do
    let work ← charge 1 work
    phraseWeights tokens (terms ++ token.term.toList) work

/-- The next `count` terms. -/
def prefixWeights : ℕ → ℕ → List ℕ → ℕ → Except Error (List ℕ × ℕ)
  | 0, _, terms, work => .ok (terms, work)
  | count + 1, term, terms, work => do
    let work ← charge 1 work
    prefixWeights count (term + 1) (terms ++ [term]) work

/-- The terms that a node adds. -/
def nodeWeights (phraseTerms : List PhraseTerm) (polarity : Bool) (node : Bound) (terms : List ℕ)
    (work : ℕ) : Except Error (List ℕ × ℕ) :=
  if polarity then .ok (terms, work)
  else
    match node with
    | .term (some term) => .ok (terms ++ [term], work)
    | .phrase range => phraseWeights (range.slice phraseTerms) terms work
    | .prefixed range => prefixWeights range.len range.first terms work
    | _ => .ok (terms, work)

/-- The terms of the nodes that no odd number of negations covers, from the last node back. -/
def weightsFrom (phraseTerms : List PhraseTerm) :
    List (Bound × ℕ) → List Bool → List ℕ → ℕ → Except Error (List ℕ × ℕ)
  | [], _, terms, work => .ok (terms, work)
  | (node, slot) :: rest, negative, terms, work => do
    let work ← charge 1 work
    let (terms, work) ← nodeWeights phraseTerms (negative.getD slot false) node terms work
    weightsFrom phraseTerms rest (node.mark negative slot) terms work

/-- The terms with their weights. -/
def weightValues (sc : Scoring σ) (epoch : StatsEpoch) :
    List ℕ → ℕ → Except Error (List (Weight σ) × ℕ)
  | [], work => .ok ([], work)
  | term :: terms, work => do
    let work ← charge 1 work
    match index.terms[term]? with
    | none => .error .invalidState
    | some t => do
      let value ← sc.idf epoch.summary (epoch.documentFrequency t.text)
      let (weights, work) ← weightValues sc epoch terms work
      .ok (⟨term, value⟩ :: weights, work)

/-- The weights of the query's terms, each term once. -/
def weights (z : RankSizes) (sc : Scoring σ) (epoch : StatsEpoch) (s : Search) :
    Except Error (List (Weight σ) × Search) := do
  let count := (s.nodes.map Bound.additional).sum
  if usizeLimit ≤ count then .error (.limit "scoring terms")
  else do
    let budget ← s.budget.vector count z.weight
    let budget ← budget.vector s.nodes.length 1
    let (terms, work) ← weightsFrom s.phraseTerms s.nodes.zipIdx.reverse
      (List.replicate s.nodes.length false) [] s.work
    let budget ← budget.release s.nodes.length
    let (weights, work) ← index.weightValues sc epoch
      ((terms.insertionSort (· ≤ ·)).destutter (· ≠ ·)) work
    .ok (weights, { s with
      budget := budget
      work := work })

/-! ### Ranking -/

/-- Adds the gain of every weight to the score of a document. -/
def scoreFrom (sc : Scoring σ) (average : σ) (document length : ℕ) :
    List (Weight σ) → σ → ℕ → Except Error (σ × ℕ)
  | [], score, work => .ok (score, work)
  | weight :: weights, score, work => do
    let work ← charge 1 work
    let (positions, work) ← index.termPostings weight.term document work
    if u32Limit ≤ positions.len then .error .invalidStatistics
    else do
      let gain ← sc.weightedScore weight.value positions.len length average
      let score ← sc.add score gain
      scoreFrom sc average document length weights score work

/-- Runs the search to its end; each call of `next` consumes a document, so `fuel` bounds the
calls. -/
def collect (sc : Scoring σ) (average : σ) (weights : List (Weight σ)) (capacity : ℕ)
    (eligible : DocumentRef → Except Error Bool) :
    ℕ → Search → List (HeapEntry σ) → Except Error (List (HeapEntry σ) × Search)
  | 0, _, _ => .error .invalidState
  | fuel + 1, s, heap =>
    match s.next with
    | (none, s) => .ok (heap, s)
    | (some (.error e), _) => .error e
    | (some (.ok candidate), s) => do
      let work ← charge 1 s.work
      let accepted ← eligible candidate.document
      if accepted then
        match index.documents[candidate.ordinal]? with
        | none => .error .invalidState
        | some d => do
          let (score, work) ← index.scoreFrom sc average candidate.ordinal d.text.length weights
            sc.zero work
          collect sc average weights capacity eligible fuel { s with work := work }
            (TopK.keep HeapEntry.le capacity heap ⟨candidate.ordinal, score⟩)
      else collect sc average weights capacity eligible fuel { s with work := work } heap

/-- The document that an entry stands for. -/
def candidateOf (e : HeapEntry σ) : Option (RankedCandidate σ) :=
  index.documents[e.ordinal]?.map fun d => ⟨d.identity, e.score⟩

/-- Ranks the documents that match and are eligible, and gives the page that was asked for. -/
def rank (z : RankSizes) (sc : Scoring σ) (q : Query) (epoch : StatsEpoch) (request : RankRequest)
    (eligible : DocumentRef → Except Error Bool) : Except Error (List (RankedCandidate σ)) :=
  if epoch.summary.relation ≠ index.relation then .error .foreignRelation
  else if epoch.summary.profile ≠ profileId then .error .invalidProfile
  else if usizeLimit ≤ request.offset + request.limit then .error (.limit "top-k offset")
  else do
    let s ← index.search z.toSizes q request.search
    let capacity := min (request.offset + request.limit) index.documents.length
    if request.limit = 0 ∨ capacity ≤ request.offset then .ok []
    else do
      let (weights, s) ← index.weights z sc epoch s
      if usizeLimit ≤ capacity * z.heapEntry ∨ s.budget.remaining < capacity * z.heapEntry then
        .error (.limit "top-k bytes")
      else do
        let budget ← s.budget.vector capacity z.heapEntry
        let (entries, s) ← index.collect sc (sc.averageLength epoch.summary) weights capacity
          eligible (index.documents.length + 1) { s with budget := budget } []
        let count := min (entries.length - request.offset) request.limit
        let _ ← s.budget.vector count z.candidate
        .ok ((TopK.page entries request.offset request.limit).filterMap index.candidateOf)

end ReferenceIndex

end PinCore
