import PinCore.Grouped.Evaluate

/-!
# The terms that a program needs

`neededTerms` looks at page summaries alone: one backward pass over masks collects the terms whose
bitmaps an evaluation may decode.  The pass agrees, page by page, with the walk of the evaluation
(`neededTerms_iff`), so an evaluation asks for no other term (`evaluateSource_congr`).
-/

namespace PinCore

namespace Grouped

/-- Passes the demand of a node on; `demanded` holds the pages that the nodes are asked for, the
second part the terms so far. -/
def demandStep (pages : ℕ → ℕ) (x : ℕ × Node) (s : (ℕ → ℕ) × ℕ) : (ℕ → ℕ) × ℕ :=
  let active := s.1 x.1 &&& pages x.1
  if active = 0 then s
  else
    match x.2 with
    | .term t => (s.1, s.2 ||| 2 ^ t)
    | node => (node.children.foldl (fun demanded child =>
        Function.update demanded child (demanded child ||| active)) s.1, s.2)

/-- The candidate pages of a program and the terms that they need. -/
def neededTerms (program : List Node) (live : ℕ) (terms : List ℕ) (scratch : QueryScratch) :
    Except Error ((ℕ × ℕ) × QueryScratch) := do
  let _ ← validateProgram terms.length program
  let pages := fillPages (fun t => terms.getD t 0) live 0 program scratch.pages
  let root := pages (program.length - 1)
  let demanded := Function.update (fun _ => 0) (program.length - 1) root
  .ok ((root, ((indexed program).foldr (demandStep pages) (demanded, 0)).2), { scratch with pages })

/-! ### The backward pass -/

section

variable {pages : ℕ → ℕ} {program : List Node} {page j t root : ℕ} {x : ℕ × Node}
  {s : (ℕ → ℕ) × ℕ}

theorem testBit_foldl_update {cs : List ℕ} {demanded : ℕ → ℕ} {active : ℕ} :
    (cs.foldl (fun demanded child => Function.update demanded child (demanded child ||| active))
      demanded j).testBit page = true ↔
        (demanded j).testBit page = true ∨ active.testBit page = true ∧ j ∈ cs := by
  induction cs generalizing demanded with
  | nil => simp
  | cons c cs ih =>
    rw [List.foldl_cons, ih, List.mem_cons]
    by_cases hj : j = c
    · subst hj
      rw [Function.update_self, Nat.testBit_or, Bool.or_eq_true]
      tauto
    · rw [Function.update_of_ne hj]
      tauto

/-- A node passes its demand on to its operands. -/
theorem demandStep_pages : ((demandStep pages x s).1 j).testBit page = true ↔
    (s.1 j).testBit page = true ∨
      ((s.1 x.1).testBit page = true ∧ (pages x.1).testBit page = true) ∧ j ∈ x.2.children := by
  have hactive : (s.1 x.1).testBit page = true ∧ (pages x.1).testBit page = true ↔
      (s.1 x.1 &&& pages x.1).testBit page = true := by
    rw [Nat.testBit_and, Bool.and_eq_true]
  obtain ⟨i, node⟩ := x
  rw [hactive]
  unfold demandStep
  dsimp only
  split_ifs with hzero
  · rw [hzero, Nat.zero_testBit]
    simp
  · cases node with
    | term t => simp [Node.children]
    | _ => exact testBit_foldl_update

/-- A term is collected when it is asked for on some page of its summary. -/
theorem demandStep_terms : (demandStep pages x s).2.testBit t = true ↔ s.2.testBit t = true ∨
    (∃ page, (s.1 x.1).testBit page = true ∧ (pages x.1).testBit page = true) ∧
      x.2 = .term t := by
  have hactive : (∃ page, (s.1 x.1).testBit page = true ∧ (pages x.1).testBit page = true) ↔
      s.1 x.1 &&& pages x.1 ≠ 0 := by
    constructor
    · rintro ⟨page, h⟩ hzero
      have hbit := Nat.testBit_and (s.1 x.1) (pages x.1) page
      rw [hzero, Nat.zero_testBit, h.1, h.2] at hbit
      cases hbit
    · intro hne
      obtain ⟨page, hpage⟩ := Nat.exists_testBit_of_ne_zero hne
      rw [Nat.testBit_and, Bool.and_eq_true] at hpage
      exact ⟨page, hpage⟩
  obtain ⟨i, node⟩ := x
  rw [hactive]
  unfold demandStep
  dsimp only
  split_ifs with hzero
  · simp [hzero]
  · cases node with
    | term t' =>
      rw [Nat.testBit_or, Nat.testBit_two_pow, Bool.or_eq_true, decide_eq_true_iff]
      simp [hzero]
    | _ => simp

/-- On every candidate page the masks hold what the walk of that page has found. -/
theorem demanded_iff {last : ℕ} (l : List (ℕ × Node)) :
    ((l.foldr (demandStep pages) (Function.update (fun _ => 0) last root, 0)).1 j).testBit page =
        true ↔
      root.testBit page = true ∧
        (l.foldr (dependStep pages page) (2 ^ last)).testBit j = true := by
  induction l generalizing j with
  | nil =>
    rw [List.foldr_nil, List.foldr_nil, Nat.testBit_two_pow, decide_eq_true_iff]
    dsimp only
    by_cases hj : last = j
    · subst hj
      rw [Function.update_self]
      simp
    · rw [Function.update_of_ne (Ne.symm hj), Nat.zero_testBit]
      simp [hj]
  | cons x l ih =>
    rw [List.foldr_cons, List.foldr_cons, demandStep_pages, dependStep_iff, ih, ih]
    tauto

/-- The terms are those that the walk of some candidate page reaches. -/
theorem terms_iff {last : ℕ} {l : List (ℕ × Node)} (hs : (l.map Prod.fst).Pairwise (· < ·))
    (hl : ∀ x ∈ l, ∀ c ∈ x.2.children, c < x.1) :
    (l.foldr (demandStep pages) (Function.update (fun _ => 0) last root, 0)).2.testBit t = true ↔
      ∃ page, root.testBit page = true ∧ ∃ x ∈ l, x.2 = .term t ∧
        (l.foldr (dependStep pages page) (2 ^ last)).testBit x.1 = true ∧
        (pages x.1).testBit page = true := by
  induction l with
  | nil => simp
  | cons y l ih =>
    rw [List.map_cons, List.pairwise_cons] at hs
    have hstep : ∀ page, ∀ x ∈ y :: l,
        ((y :: l).foldr (dependStep pages page) (2 ^ last)).testBit x.1 = true ↔
          (l.foldr (dependStep pages page) (2 ^ last)).testBit x.1 = true := by
      intro page x hx
      -- a node asks only for nodes before it
      have hnot : x.1 ∉ y.2.children := by
        intro hc
        have hlt := hl y List.mem_cons_self _ hc
        rcases List.mem_cons.1 hx with rfl | hx
        · exact absurd hlt (Nat.lt_irrefl _)
        · exact absurd (hs.1 x.1 (List.mem_map_of_mem hx)) (Nat.lt_asymm hlt)
      rw [List.foldr_cons, dependStep_iff]
      tauto
    rw [List.foldr_cons, demandStep_terms, ih hs.2 fun x hx => hl x (List.mem_cons_of_mem _ hx)]
    simp only [demanded_iff]
    constructor
    · rintro (⟨page, hroot, x, hx, ht, hn, hp⟩ | ⟨⟨page, ⟨hroot, hn⟩, hp⟩, ht⟩)
      · have hx' := List.mem_cons_of_mem y hx
        exact ⟨page, hroot, x, hx', ht, (hstep page x hx').2 hn, hp⟩
      · exact ⟨page, hroot, y, List.mem_cons_self, ht,
          (hstep page y List.mem_cons_self).2 hn, hp⟩
    · rintro ⟨page, hroot, x, hx, ht, hn, hp⟩
      have hn' := (hstep page x hx).1 hn
      rcases List.mem_cons.1 hx with rfl | hx
      · exact .inr ⟨⟨page, ⟨hroot, hn'⟩, hp⟩, ht⟩
      · exact .inl ⟨page, hroot, x, hx, ht, hn', hp⟩

end

section

variable {program : List Node} {live : ℕ} {terms : List ℕ} {scratch scratch' : QueryScratch}
  {root needed : ℕ}

/-- What a call returns: the summary of the root, and the terms that the walk of some candidate page
reaches. -/
theorem neededTerms_iff (hlive : live < 2 ^ 256)
    (h : neededTerms program live terms scratch = .ok ((root, needed), scratch')) :
    ValidProgram terms.length program ∧
      scratch'.pages = fillPages (fun t => terms.getD t 0) live 0 program scratch.pages ∧
      root = scratch'.pages (program.length - 1) ∧
      ∀ t, needed.testBit t = true ↔ ∃ page ∈ pagesOf root, ∃ i,
        program[i]? = some (.term t) ∧
          (dependencies program scratch'.pages page).testBit i = true ∧
          (scratch'.pages i).testBit page = true := by
  obtain ⟨⟨⟩, hvalid, h⟩ := ok_of_bind h
  cases h
  have hv := validateProgram_ok hvalid
  refine ⟨hv, rfl, rfl, fun t => ?_⟩
  dsimp only
  rw [terms_iff indexed_fst fun x hx c hc => valid_children (hv.2 _ _ (mem_indexed.1 hx)) hc]
  have hpos := List.length_pos_iff.2 hv.1
  have hroot : ∀ page, (fillPages (fun t => terms.getD t 0) live 0 program scratch.pages
      (program.length - 1)).testBit page = true → page < 256 := by
    intro page hp
    rw [fillPages_node hv (List.getElem?_eq_getElem (by omega))] at hp
    exact testBit_lt hlive (pageNode_live hp)
  constructor
  · rintro ⟨page, hp, ⟨i, node⟩, hx, rfl, hn, hi⟩
    rw [pagesOf_eq]
    exact ⟨page, mem_setBits.2 ⟨hroot page hp, hp⟩, i, mem_indexed.1 hx, hn, hi⟩
  · rintro ⟨page, hp, i, hx, hn, hi⟩
    rw [pagesOf_eq] at hp
    exact ⟨page, (mem_setBits.1 hp).2, (i, .term t), mem_indexed.2 hx, rfl, hn, hi⟩

/-- Every term that is needed has a page. -/
theorem neededTerms_mask (hlive : live < 2 ^ 256)
    (h : neededTerms program live terms scratch = .ok ((root, needed), scratch')) {t : ℕ}
    (ht : needed.testBit t = true) : t < terms.length ∧ terms.getD t 0 ≠ 0 := by
  obtain ⟨hv, hpages, -, hiff⟩ := neededTerms_iff hlive h
  obtain ⟨page, -, i, hi, -, hp⟩ := (hiff t).1 ht
  refine ⟨of_decide_eq_true (hv.2 i _ hi), fun hzero => ?_⟩
  rw [hpages, fillPages_node hv hi, pageNode, candidates, hzero] at hp
  simp at hp

end

/-! ### What an evaluation decodes -/

namespace Source

variable {src : Source} {program : List Node} {pages offsets : ℕ → ℕ} {stats : QueryStats}
  {termOffsets : ℕ → ℕ → Except Error (ℕ × ℕ)}

/-- The source with other offsets of its terms. -/
def withTerms (src : Source) (termOffsets : ℕ → ℕ → Except Error (ℕ × ℕ)) : Source :=
  { src with termOffsets := termOffsets }

theorem fillOffsets_congr {needed live page : ℕ} {l : List (ℕ × Node)}
    (h : ∀ x ∈ l, ∀ t, x.2 = .term t → needed.testBit x.1 = true →
      (pages x.1).testBit page = true → termOffsets t page = src.termOffsets t page) :
    fillOffsets (src.withTerms termOffsets) pages needed live page l offsets stats =
      fillOffsets src pages needed live page l offsets stats := by
  induction l generalizing offsets stats with
  | nil => rfl
  | cons x l ih =>
    obtain ⟨i, node⟩ := x
    have hrest := fun x hx => h x (List.mem_cons_of_mem _ hx)
    rw [fillOffsets, fillOffsets]
    split_ifs with hn hp
    · exact ih hrest
    · exact ih hrest
    · have hnode : offsetNode (src.withTerms termOffsets) offsets live page node =
          offsetNode src offsets live page node := by
        cases node with
        | term t =>
          have heq := h _ List.mem_cons_self t rfl (Bool.not_eq_false _ ▸ hn)
            (Bool.not_eq_false _ ▸ hp)
          rw [offsetNode, offsetNode]
          dsimp only [withTerms]
          rw [heq]
        | _ => rfl
      rw [hnode]
      exact bind_congr fun y => ih hrest

theorem evaluatePages_congr {ps : List ℕ}
    (h : ∀ page ∈ ps, ∀ i t, program[i]? = some (.term t) →
      (dependencies program pages page).testBit i = true → (pages i).testBit page = true →
        termOffsets t page = src.termOffsets t page) :
    evaluatePages (src.withTerms termOffsets) program pages ps offsets stats =
      evaluatePages src program pages ps offsets stats := by
  induction ps generalizing offsets stats with
  | nil => rfl
  | cons page ps ih =>
    have hrest := fun p hp => h p (List.mem_cons_of_mem _ hp)
    rw [evaluatePages, evaluatePages]
    refine bind_congr (x := src.liveOffsets page) fun live => ?_
    split_ifs
    · exact ih hrest
    · rw [fillOffsets_congr fun x hx t ht hn hp => ?_]
      · refine bind_congr fun y => ?_
        dsimp only
        split_ifs
        · exact ih hrest
        · refine bind_congr (x := src.key.block page) fun block => ?_
          rw [ih hrest]
      · have hi := mem_indexed.1 hx
        rw [ht] at hi
        exact h page List.mem_cons_self x.1 t hi hn hp

end Source

section

variable {termPages pages pages' : ℕ → ℕ} {livePages terms : ℕ} {program : List Node}

/-- The summaries of a valid program do not depend on what the scratch held. -/
theorem fillPages_scratch (hv : ValidProgram terms program) {i : ℕ} (hi : i < program.length) :
    fillPages termPages livePages 0 program pages i =
      fillPages termPages livePages 0 program pages' i := by
  induction i using Nat.strong_induction_on with
  | _ i ih =>
    have hnode := List.getElem?_eq_getElem hi
    rw [fillPages_node hv hnode, fillPages_node hv hnode]
    refine pageNode_congr fun c hc => ?_
    have hlt := valid_children (hv.2 i _ hnode) hc
    exact ih c hlt (Nat.lt_trans hlt hi)

/-- The walk looks only at the summaries of the program's nodes. -/
theorem dependencies_congr {page : ℕ} (h : ∀ i < program.length, pages i = pages' i) :
    dependencies program pages page = dependencies program pages' page := by
  refine List.foldr_ext _ _ _ fun x hx needed => ?_
  have hlt := (List.getElem?_eq_some_iff.1 (mem_indexed.1 hx)).1
  rw [dependStep, dependStep, h x.1 hlt]

end

/-- An evaluation over the summaries that the demand was computed from decodes no other term: what a
source holds for the others does not matter. -/
theorem evaluateSource_congr {src : Source} {program : List Node} {live root needed : ℕ}
    {terms : List ℕ} {scratch scratch' scratch'' : QueryScratch} (hlive : live < 2 ^ 256)
    (h : neededTerms program live terms scratch = .ok ((root, needed), scratch'))
    (hpages : src.livePages = live)
    (htermPages : src.termPages = fun t => terms.getD t 0)
    {termOffsets : ℕ → ℕ → Except Error (ℕ × ℕ)}
    (hsame : ∀ t page, needed.testBit t = true → termOffsets t page = src.termOffsets t page) :
    evaluateSource (src.withTerms termOffsets) program scratch'' =
      evaluateSource src program scratch'' := by
  obtain ⟨hv, hfilled, hroot, hiff⟩ := neededTerms_iff hlive h
  have hpos := List.length_pos_iff.2 hv.1
  have heq : ∀ i < program.length,
      fillPages src.termPages src.livePages 0 program scratch''.pages i = scratch'.pages i := by
    intro i hi
    rw [hfilled, hpages, htermPages]
    exact fillPages_scratch hv hi
  rw [evaluateSource, evaluateSource]
  refine bind_congr (x := validateProgram src.terms program) fun _ => ?_
  dsimp only
  rw [Source.evaluatePages_congr fun page hpage i t hi hn hp => hsame t page ((hiff t).2 ?_)]
  · rfl
  · have hlt := (List.getElem?_eq_some_iff.1 hi).1
    refine ⟨page, ?_, i, hi, ?_, ?_⟩
    · rw [hroot, ← heq _ (by omega)]
      exact hpage
    · rw [← dependencies_congr heq]
      exact hn
    · rw [← heq i hlt]
      exact hp


end Grouped

end PinCore
