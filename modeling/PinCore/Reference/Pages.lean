import PinCore.Reference.Ranking

/-!
# The pages of a ranking

There is one list of the eligible matching documents by descending score and ascending root, and
`rank` returns the page of it that was asked for (`rank_exact`).
-/

namespace PinCore

namespace ReferenceIndex

variable {index : ReferenceIndex} {z : RankSizes} {q : Query}

/-! ### Enough for a search -/

/-- With enough memory and work a query is bound. -/
theorem affordable_search (hb : Built index)
    (hphrase : ∀ ts, Kind.phrase ts ∈ q.nodes → ts.length ≤ u32Limit) :
    ∃ s used cost, Search.Ready q s ∧ s.index = index ∧ s.nextDocument = 0 ∧ s.failed = false ∧
      ∀ (limits : SearchLimits) (work : ℕ),
        q.nodes.length * index.terms.length ≤ limits.expandedTerms →
        used ≤ limits.memoryBytes → limits.memoryBytes < usizeLimit →
        limits.workSteps = work + cost →
          index.search z.toSizes q limits = .ok (s.within ⟨limits.memoryBytes, used⟩ work) := by
  obtain ⟨b, cost, hbind⟩ := @affordable_bindNodes index hb
    ⟨q.nodes.length * index.terms.length, 0, 0⟩ q.nodes ⟨[], [], 0, 0, 0⟩
    (Nat.le_of_eq (Nat.zero_add _)) hphrase
  dsimp only [Binding.withWork] at hbind
  obtain ⟨nodes, new, hnodes, -, -, hall⟩ := bindNodes_ok hb (hbind 0)
  rw [List.nil_append] at hnodes
  subst hnodes
  generalize hcount : (q.nodes.map phraseCount).sum = count
  refine ⟨⟨index, b.nodes, b.phraseTerms, List.replicate q.nodeCount false,
      List.replicate b.longest ⟨0, 0⟩, q.root, 0, false, ⟨0, 0⟩, 0⟩,
    q.nodeCount * z.bound + count * z.phraseTerm + q.nodeCount + b.longest * z.range, cost,
    ⟨hb, ?_, List.length_replicate, rfl⟩, rfl, rfl, rfl, ?_⟩
  · dsimp only
    rw [List.length_replicate]
    exact hall
  · intro limits work hexpanded hmemory hlimit hwork
    have hbytes : count ≤ count * z.phraseTerm := Nat.le_mul_of_pos_right _ z.phraseTerm_pos
    have hbound : index.bindNodes limits q.nodes ⟨[], [], 0, 0, limits.workSteps⟩ =
        .ok { b with work := work } := by
      rw [@bindNodes_congr index hb limits ⟨q.nodes.length * index.terms.length, 0, 0⟩ _ _
        ((Nat.zero_add _).trans_le hexpanded) (Nat.le_of_eq (Nat.zero_add _)), hwork]
      exact hbind work
    unfold ReferenceIndex.search
    dsimp only [MemoryBudget.new, MemoryBudget.vector]
    rw [if_pos (by omega), ok_bind, hcount, if_neg (by omega)]
    dsimp only
    rw [if_pos (by omega), ok_bind, hbound, ok_bind]
    dsimp only
    rw [if_pos (by omega), ok_bind]
    dsimp only
    rw [if_pos (by omega), ok_bind, Search.within]
    simp only [Nat.zero_add, Nat.mul_one]

/-! ### The ranking -/

variable {σ : Type} [LinearOrder σ] {sc : Scoring σ} {epoch : StatsEpoch}
  {found : List (Text × σ)} {eligible : DocumentRef → Except Error Bool}
  {allowed : DocumentRef → Bool} {score : IndexDocument → σ}

instance : Std.Total (@HeapEntry.le σ _) where
  total a b := by
    rcases lt_trichotomy a.score b.score with h | h | h
    · exact .inr (.inl h)
    · rcases Nat.le_total a.ordinal b.ordinal with hle | hle
      · exact .inl (.inr ⟨h, hle⟩)
      · exact .inr (.inr ⟨h.symm, hle⟩)
    · exact .inl (.inl h)

instance : IsTrans (HeapEntry σ) HeapEntry.le where
  trans a b c := by
    rintro (h | ⟨h, hle⟩) (h' | ⟨h', hle'⟩)
    · exact .inl (h'.trans h)
    · exact .inl (h' ▸ h)
    · exact .inl (h ▸ h')
    · exact .inr ⟨h.trans h', hle.trans hle'⟩

theorem HeapEntry.le_antisymm {a b : HeapEntry σ} (h : a.le b) (h' : b.le a) : a = b := by
  obtain ⟨ordinal, score⟩ := a
  obtain ⟨ordinal', score'⟩ := b
  rcases h with h | ⟨rfl, hle⟩
  · rcases h' with h' | ⟨rfl, -⟩
    · exact absurd h' (lt_asymm h)
    · exact absurd h (lt_irrefl _)
  · rcases h' with h' | ⟨-, hle'⟩
    · exact absurd h' (lt_irrefl _)
    · exact congrArg (HeapEntry.mk · score) (Nat.le_antisymm hle hle')

/-- The entries of all documents, sorted. -/
def rankedEntries (index : ReferenceIndex) (q : Query) (allowed : DocumentRef → Bool)
    (score : IndexDocument → σ) : List (HeapEntry σ) :=
  (entriesFrom q allowed score index.documents.zipIdx).insertionSort HeapEntry.le

/-- The eligible matching documents by descending score, then by ascending root. -/
def ranking (index : ReferenceIndex) (q : Query) (allowed : DocumentRef → Bool)
    (score : IndexDocument → σ) : List (RankedCandidate σ) :=
  (index.rankedEntries q allowed score).filterMap index.candidateOf

theorem mem_rankedEntries {e : HeapEntry σ} (h : e ∈ index.rankedEntries q allowed score) :
    ∃ d, index.documents[e.ordinal]? = some d := by
  obtain ⟨x, hx, rfl⟩ := List.mem_map.1 ((List.mem_insertionSort _).1 h)
  exact ⟨x.1, List.mem_zipIdx_iff_getElem?.1 (List.mem_filter.1 hx).1⟩

theorem rankedEntries_candidate : ∀ e ∈ index.rankedEntries q allowed score,
    (index.candidateOf e).isSome := by
  intro e he
  obtain ⟨d, hd⟩ := mem_rankedEntries he
  rw [candidateOf, hd]
  rfl

theorem length_rankedEntries_le :
    (index.rankedEntries q allowed score).length ≤ index.documents.length := by
  rw [rankedEntries, List.length_insertionSort, entriesFrom, List.length_map]
  refine (List.length_filter_le _ _).trans ?_
  rw [List.length_zipIdx]

theorem length_ranking_le : (index.ranking q allowed score).length ≤ index.documents.length :=
  (List.length_filterMap_le _ _).trans length_rankedEntries_le

/-- The ranking holds every eligible matching document once. -/
theorem ranking_perm : (index.ranking q allowed score).Perm
    ((index.documents.filter fun d => oracle d.text q && allowed d.identity).map fun d =>
      ⟨d.identity, score d⟩) := by
  have hentries : (entriesFrom q allowed score index.documents.zipIdx).filterMap index.candidateOf =
      (index.documents.filter fun d => oracle d.text q && allowed d.identity).map fun d =>
        ⟨d.identity, score d⟩ := by
    have hfst := @List.zipIdx_map_fst _ 0 index.documents
    conv_rhs => rw [← hfst, List.filter_map, List.map_map]
    rw [entriesFrom, List.filterMap_map, ← List.filterMap_eq_map]
    refine List.filterMap_congr fun x hx => ?_
    have hd := List.mem_zipIdx_iff_getElem?.1 (List.mem_filter.1 hx).1
    dsimp only [Function.comp, candidateOf]
    rw [hd]
    rfl
  rw [← hentries]
  exact (List.perm_insertionSort _ _).filterMap _

/-- The ordinals of the entries are distinct. -/
theorem rankedEntries_ordinal :
    (index.rankedEntries q allowed score).Pairwise fun a b => a.ordinal ≠ b.ordinal := by
  have hslots : (index.documents.zipIdx.map Prod.snd).Nodup := by
    rw [List.zipIdx_map_snd]
    exact List.nodup_range'
  have hentries : (entriesFrom q allowed score index.documents.zipIdx).Pairwise
      fun a b => a.ordinal ≠ b.ordinal := by
    rw [entriesFrom, List.pairwise_map]
    exact (List.pairwise_map.1 hslots).sublist List.filter_sublist
  exact hentries.perm (List.perm_insertionSort _ _).symm fun h => h.symm

/-- The ranking is sorted by descending score, then by ascending root. -/
theorem ranking_sorted (hb : Built index) :
    (index.ranking q allowed score).Pairwise fun a b => b.score < a.score ∨
      a.score = b.score ∧ a.document.root.lt b.document.root := by
  have hsorted : (index.rankedEntries q allowed score).Pairwise HeapEntry.le :=
    List.pairwise_insertionSort _ _
  rw [ranking, List.pairwise_filterMap]
  refine hsorted.imp₂ (fun a b hle hne x hx y hy => ?_) rankedEntries_ordinal
  obtain ⟨d, hd, rfl⟩ := Option.map_eq_some_iff.1 hx
  obtain ⟨d', hd', rfl⟩ := Option.map_eq_some_iff.1 hy
  refine hle.imp id fun ⟨hscore, hordinal⟩ => ⟨hscore, ?_⟩
  obtain ⟨hlt, rfl⟩ := List.getElem?_eq_some_iff.1 hd
  obtain ⟨hlt', rfl⟩ := List.getElem?_eq_some_iff.1 hd'
  exact List.pairwise_iff_getElem.1 hb.roots _ _ hlt hlt' (Nat.lt_of_le_of_ne hordinal hne)

/-- What a run keeps is the beginning of the sorted entries. -/
theorem keep_eq_take (capacity : ℕ) :
    (entriesFrom q allowed score index.documents.zipIdx).foldl
    (TopK.keep HeapEntry.le capacity) [] =
      (index.rankedEntries q allowed score).take capacity := by
  have hkept := (@TopK.Kept.nil _ HeapEntry.le capacity).run
    (entriesFrom q allowed score index.documents.zipIdx)
  rw [List.append_nil] at hkept
  exact hkept.eq_take ((List.perm_insertionSort _ _).trans (List.reverse_perm _).symm)
    (List.pairwise_insertionSort _ _) fun a _ b _ => HeapEntry.le_antisymm

/-- The page of what a run keeps is the page of the ranking. -/
theorem page_keep {offset limit : ℕ} :
    (TopK.page ((entriesFrom q allowed score index.documents.zipIdx).foldl
      (TopK.keep HeapEntry.le (min (offset + limit) index.documents.length)) []) offset
        limit).filterMap index.candidateOf =
      TopK.page (index.ranking q allowed score) offset limit := by
  have hlength := @length_rankedEntries_le index q σ _ allowed score
  rw [keep_eq_take, TopK.page_take (by omega), TopK.page_filterMap rankedEntries_candidate, ranking]

/-- A page of no entries, or behind the last one. -/
theorem page_of_past {offset limit : ℕ}
    (h : limit = 0 ∨ min (offset + limit) index.documents.length ≤ offset) :
    TopK.page (index.ranking q allowed score) offset limit = [] := by
  have hlength := @length_ranking_le index q σ _ allowed score
  by_cases hlimit : limit = 0
  · rw [TopK.page, hlimit, List.take_zero]
  · rw [TopK.page, List.drop_eq_nil_of_le (by omega), List.take_nil]

/-! ### Pages -/

/-- Whatever `rank` returns is the page of the ranking. -/
theorem rank_page (hb : Built index) (hnodup : index.postings.Nodup)
    (hfound : index.queryWeights sc epoch q = .ok found)
    (hj : Judged sc epoch q found eligible allowed score index.documents) {request : RankRequest}
    {out : List (RankedCandidate σ)} (h : index.rank z sc q epoch request eligible = .ok out) :
    out = TopK.page (index.ranking q allowed score) request.offset request.limit := by
  unfold rank at h
  split_ifs at h
  obtain ⟨s, hsearch, h⟩ := ok_of_bind h
  obtain ⟨hs, hindex, hfirst, hfailed⟩ := search_ok hb hsearch
  dsimp only at h
  split_ifs at h with hpast
  · cases h
    exact (page_of_past hpast).symm
  · obtain ⟨⟨weights, t⟩, hweights, h⟩ := ok_of_bind h
    rw [← hindex] at hweights hfound
    obtain ⟨hsame, budget, work, rfl⟩ := weights_ok hs hfound hweights
    dsimp only at h
    split_ifs at h
    obtain ⟨budget', -, h⟩ := ok_of_bind h
    obtain ⟨⟨entries, t'⟩, hcollect, h⟩ := ok_of_bind h
    obtain ⟨-, -, h⟩ := ok_of_bind h
    cases h
    have hfuel : (index.documents.drop s.nextDocument).length < index.documents.length + 1 := by
      rw [hfirst, List.drop_zero]
      exact Nat.lt_succ_self _
    rw [hindex] at hsame
    have hentries := collect_ok (s := s.within budget' work) (hs.within _ _) hindex
      hfailed hnodup hj hsame hfuel hcollect
    have hstart : (s.within budget' work).nextDocument = 0 := hfirst
    rw [hstart, List.drop_zero] at hentries
    rw [hentries]
    exact page_keep

/-- Enough limits for a page. -/
theorem rank_returns (hb : Built index) (hnodup : index.postings.Nodup)
    (hfound : index.queryWeights sc epoch q = .ok found)
    (hj : Judged sc epoch q found eligible allowed score index.documents)
    (hrelation : epoch.summary.relation = index.relation)
    (hprofile : epoch.summary.profile = profileId)
    (hphrase : ∀ ts, Kind.phrase ts ∈ q.nodes → ts.length ≤ u32Limit) {offset limit : ℕ}
    (hpage : offset + limit < usizeLimit) :
    ∃ enough : SearchLimits, ∀ limits : SearchLimits,
      enough.expandedTerms ≤ limits.expandedTerms → enough.memoryBytes ≤ limits.memoryBytes →
      limits.memoryBytes < usizeLimit → enough.workSteps ≤ limits.workSteps →
        ∃ out, index.rank z sc q epoch ⟨limit, offset, limits⟩ eligible = .ok out := by
  obtain ⟨s, used, cost, hs, hindex, hfirst, hfailed, hsearch⟩ := @affordable_search index z q hb
    hphrase
  by_cases hpast : limit = 0 ∨ min (offset + limit) index.documents.length ≤ offset
  · refine ⟨⟨q.nodes.length * index.terms.length, used, cost⟩,
      fun limits hexpanded hmemory hlimit hwork => ⟨[], ?_⟩⟩
    rw [rank, if_neg (not_not_intro hrelation), if_neg (not_not_intro hprofile),
      if_neg (Nat.not_le.2 hpage), hsearch limits (limits.workSteps - cost) hexpanded hmemory hlimit
        (Nat.sub_add_cancel hwork).symm, ok_bind]
    dsimp only
    rw [if_pos hpast]
  · generalize hcapacity : min (offset + limit) index.documents.length = capacity at hpast
    rw [← hindex] at hfound
    obtain ⟨weights, cost', hsame, hweights⟩ := @affordable_weights σ sc epoch z q s found hs hfound
    have hfuel : (index.documents.drop s.nextDocument).length < index.documents.length + 1 := by
      rw [hfirst, List.drop_zero]
      exact Nat.lt_succ_self _
    rw [hindex] at hsame hweights
    obtain ⟨⟨entries, t⟩, runCost, hrun⟩ := @affordable_collect index σ sc epoch q s found allowed
      score _ eligible weights capacity (index.documents.length + 1) [] hs hindex hfailed hnodup hj
      hsame hfuel
    dsimp only at hrun
    generalize hcandidates : entries.length * z.candidate = outBytes
    generalize hheap : capacity * z.heapEntry = heapBytes
    generalize hbytes : weightBytes z s = bytes at hweights
    refine ⟨⟨q.nodes.length * index.terms.length,
      used + bytes + s.nodes.length + heapBytes + outBytes,
      runCost + cost' + cost⟩, fun limits hexpanded hmemory hlimit hwork => ?_⟩
    dsimp only at hmemory hwork
    obtain ⟨work, hwork⟩ := Nat.exists_eq_add_of_le hwork
    have hsearch' := hsearch limits (work + runCost + cost') hexpanded (by omega) hlimit (by omega)
    have hweights' := hweights ⟨limits.memoryBytes, used⟩ (work + runCost) (by dsimp only; omega)
      hlimit
    have hcollect := @collect_withBudget index σ sc epoch (s.withWork (work + runCost)) _ eligible
      weights capacity (index.documents.length + 1) []
      ⟨limits.memoryBytes, used + bytes + heapBytes⟩
    rw [hrun work] at hcollect
    have hcount : min (entries.length - offset) limit * z.candidate ≤ outBytes := by
      rw [← hcandidates]
      exact Nat.mul_le_mul_right _ (by omega)
    refine ⟨(TopK.page entries offset limit).filterMap index.candidateOf, ?_⟩
    rw [rank, if_neg (not_not_intro hrelation), if_neg (not_not_intro hprofile),
      if_neg (Nat.not_le.2 hpage), hsearch', ok_bind]
    dsimp only
    rw [hcapacity, if_neg hpast, hweights', ok_bind]
    have hroom : ¬ (usizeLimit ≤ heapBytes ∨ (s.within ⟨limits.memoryBytes, used + bytes⟩
        (work + runCost)).budget.remaining < heapBytes) := by
      change ¬ (usizeLimit ≤ heapBytes ∨ limits.memoryBytes - (used + bytes) < heapBytes)
      omega
    have hvector : (s.within ⟨limits.memoryBytes, used + bytes⟩ (work + runCost)).budget.vector
        capacity z.heapEntry = .ok ⟨limits.memoryBytes, used + bytes + heapBytes⟩ := by
      rw [← hheap]
      exact if_pos (by dsimp only [Search.within]; omega)
    rw [hheap, if_neg hroom, hvector, ok_bind]
    dsimp only [Search.withBudget, Search.withWork, Search.within] at hcollect ⊢
    rw [hcollect]
    dsimp only [Except.map]
    rw [ok_bind]
    dsimp only
    rw [MemoryBudget.vector, if_pos (by dsimp only; omega), ok_bind]

/-- For every index, query and epoch there is one ranking of the eligible matching documents, by
descending score and then by ascending root.  Whatever `rank` returns is the page of it that was
asked for, with enough limits it returns, and consecutive pages make up the ranking. -/
theorem rank_exact {relation : RelationGeneration} {documents : List IndexDocument}
    {limits : IndexLimits} (hbuild : build z.toSizes relation documents limits = .ok index)
    (hfound : index.queryWeights sc epoch q = .ok found)
    (hj : Judged sc epoch q found eligible allowed score documents) :
    ∃ ranking : List (RankedCandidate σ),
      ranking.Perm ((documents.filter fun d => oracle d.text q && allowed d.identity).map
        fun d => ⟨d.identity, score d⟩) ∧
      (ranking.Pairwise fun a b => b.score < a.score ∨
        a.score = b.score ∧ a.document.root.lt b.document.root) ∧
      (∀ request out, index.rank z sc q epoch request eligible = .ok out →
        out = TopK.page ranking request.offset request.limit) ∧
      (epoch.summary.relation = index.relation → epoch.summary.profile = profileId →
        (∀ ts, Kind.phrase ts ∈ q.nodes → ts.length ≤ u32Limit) →
        ∀ offset limit, offset + limit < usizeLimit → ∃ enough : SearchLimits,
          ∀ limits : SearchLimits, enough.expandedTerms ≤ limits.expandedTerms →
            enough.memoryBytes ≤ limits.memoryBytes → limits.memoryBytes < usizeLimit →
            enough.workSteps ≤ limits.workSteps →
              index.rank z sc q epoch ⟨limit, offset, limits⟩ eligible =
                .ok (TopK.page ranking offset limit)) ∧
      ∀ size count, ranking.length ≤ count * size →
        (List.range count).flatMap (fun i => TopK.page ranking (i * size) size) = ranking := by
  obtain ⟨hb, hperm⟩ := built_of_build hbuild
  have hnodup : index.postings.Nodup := by
    rw [(of_build hbuild).2.2.1]
    exact (List.perm_insertionSort _ _).nodup_iff.2 (nodup_allPostings _)
  have hj' : Judged sc epoch q found eligible allowed score index.documents :=
    ⟨fun d hd => hj.eligible d (hperm.mem_iff.1 hd), fun d hd => hj.score d (hperm.mem_iff.1 hd)⟩
  have hpage : ∀ request out, index.rank z sc q epoch request eligible = .ok out →
      out = TopK.page (index.ranking q allowed score) request.offset request.limit :=
    fun _ _ => rank_page hb hnodup hfound hj'
  refine ⟨index.ranking q allowed score, ranking_perm.trans ((hperm.filter _).map _),
    ranking_sorted hb, hpage, ?_, fun _ _ => TopK.flatMap_page⟩
  intro hrelation hprofile hphrase offset limit hfits
  obtain ⟨enough, henough⟩ := @rank_returns index z q σ _ sc epoch found eligible allowed score hb
    hnodup hfound hj' hrelation hprofile hphrase offset limit hfits
  refine ⟨enough, fun limits hexpanded hmemory hlimit hwork => ?_⟩
  obtain ⟨out, hout⟩ := henough limits hexpanded hmemory hlimit hwork
  rw [hout, hpage _ _ hout]

/-- The query `b`. -/
def termB : Query where
  nodes := [.term [98]]
  root := 0
  root_last := List.length_singleton.symm
  child_lt := by
    intro i k hk c hc
    cases List.mem_singleton.1 (List.mem_of_getElem? hk)
    cases hc
  child_nodup := by decide
  phrase_ne := by
    intro ts hts
    cases List.mem_singleton.1 hts

/-- Scores in natural numbers: the rarer the term and the shorter the document, the higher. -/
def natScoring : Scoring ℕ where
  zero := 0
  one := 1
  quotient total documents := total / documents
  inverse missing _ := .ok (missing + 1)
  gain weight tf length _ := .ok (weight * tf * 6 / length)
  add a b := .ok (a + b)

/-- The epoch of `twoIndex`. -/
def twoEpoch : StatsEpoch where
  id := 1
  summary := ⟨⟨1, 1, 1, 1⟩, profileId, 2, 5⟩
  terms := .indexed twoIndex.terms
  id_ne := by decide
  sorted := by decide

/-- Sizes of one byte. -/
def unitSizes : RankSizes where
  document := 1
  posting := 1
  term := 1
  bound := 1
  phraseTerm := 1
  range := 1
  weight := 1
  heapEntry := 1
  candidate := 1
  phraseTerm_pos := Nat.one_pos
  weight_pos := Nat.one_pos
  heapEntry_pos := Nat.one_pos

set_option maxRecDepth 10000 in
theorem rank_exact_twoDocuments : ∃ ranking : List (RankedCandidate ℕ),
    ranking.Perm (twoDocuments.map fun d => ⟨d.identity, 6 / d.text.length⟩) ∧
      TopK.page ranking 0 1 = [⟨⟨⟨1, 1, 1, 1⟩, 1, 2, ⟨3, 1⟩⟩, 3⟩] ∧
      TopK.page ranking 1 1 = [⟨⟨⟨1, 1, 1, 1⟩, 1, 1, ⟨2, 5⟩⟩, 2⟩] := by
  have hbuild : build unitSizes.toSizes ⟨1, 1, 1, 1⟩ twoDocuments ⟨9, 9, 9, 9, 99⟩ =
      .ok twoIndex := rfl
  have hfound : twoIndex.queryWeights natScoring twoEpoch termB = .ok [([98], 1)] := rfl
  have hj : Judged natScoring twoEpoch termB [([98], 1)] (fun _ => .ok true) (fun _ => true)
      (fun d => 6 / d.text.length) twoDocuments := by
    refine ⟨fun _ _ _ => rfl, fun d hd _ _ => ?_⟩
    rcases List.mem_cons.1 hd with rfl | hd
    · rfl
    · cases List.mem_singleton.1 hd
      rfl
  obtain ⟨ranking, hperm, -, hpage, -, -⟩ := rank_exact (z := unitSizes) hbuild hfound hj
  exact ⟨ranking, hperm, (hpage ⟨1, 0, ⟨9, 99, 99⟩⟩ _ rfl).symm,
    (hpage ⟨1, 1, ⟨9, 99, 99⟩⟩ _ rfl).symm⟩

end ReferenceIndex

end PinCore
