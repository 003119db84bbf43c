import PinCore.Grouped.Opened
import PinCore.Grouped.Query
import PinCore.Lib.InOrder

/-!
# What grouped evaluation emits

A program has a value at every coordinate of a group: a term is the bit of its bitmap, and
complements are relative to the live coordinates.  Page summaries over-approximate the values,
the backward walk reaches every node that the root depends on, and the forward pass computes the
exact masks of those nodes from whatever the scratch held before.
-/

namespace PinCore

namespace Grouped

/-! ### The value of a program -/

/-- The value of one node at a coordinate. -/
def nodeValue (live : Bool) (term : ℕ → Bool) (values : List Bool) : Node → Bool
  | .term t => term t
  | .all => live
  | .not c => live && !values.getD c false
  | .and l r => values.getD l false && values.getD r false
  | .or l r => values.getD l false || values.getD r false
  | .difference l r => values.getD l false && !values.getD r false

/-- The values of the nodes of a program at a coordinate. -/
def programValues (live : Bool) (term : ℕ → Bool) (program : List Node) : List Bool :=
  inOrder (nodeValue live term) program

/-- The value of a program at a coordinate: that of its last node. -/
def programValue (live : Bool) (term : ℕ → Bool) (program : List Node) : Bool :=
  (programValues live term program).getD (program.length - 1) false

/-- Children precede their parents and terms exist. -/
def ValidProgram (terms : ℕ) (program : List Node) : Prop :=
  program ≠ [] ∧ ∀ (i : ℕ) (node : Node), program[i]? = some node → node.valid terms i = true

section

variable {terms : ℕ} {program : List Node} {node : Node} {i c : ℕ}

theorem validateFrom_ok (h : validateFrom terms i program = .ok ⟨⟩) :
    ∀ (j : ℕ) (node : Node), program[j]? = some node → node.valid terms (i + j) = true := by
  induction program generalizing i with
  | nil => intro j node hj; simp at hj
  | cons n program ih =>
    rw [validateFrom] at h
    split_ifs at h with hn
    intro j node hj
    cases j with
    | zero => cases hj; exact hn
    | succ j =>
      have := ih h j node (by simpa using hj)
      rwa [Nat.add_assoc, Nat.add_comm 1] at this

theorem validateProgram_ok (h : validateProgram terms program = .ok ⟨⟩) :
    ValidProgram terms program := by
  unfold validateProgram at h
  split_ifs at h with hc
  refine ⟨fun hn => hc (.inl hn), fun i node hi => ?_⟩
  have := validateFrom_ok h i node hi
  rwa [Nat.zero_add] at this

theorem valid_children (h : node.valid terms i = true) (hc : c ∈ node.children) : c < i := by
  cases node <;> simp_all [Node.valid, Node.children] <;> omega

theorem value_eq {live : Bool} {term : ℕ → Bool} (hv : ValidProgram terms program)
    (h : program[i]? = some node) : (programValues live term program).getD i false =
      nodeValue live term (programValues live term program) node := by
  refine inOrder_getD h ?_
  change nodeValue live term ((programValues live term program).take i) node =
    nodeValue live term (programValues live term program) node
  have hc : ∀ c ∈ node.children, ((programValues live term program).take i).getD c false =
      (programValues live term program).getD c false := fun c hc =>
    getD_take (valid_children (hv.2 i node h) hc)
  cases node <;> simp_all [nodeValue, Node.children]

end

/-! ### Page summaries -/

section

variable {termPages pages pages' : ℕ → ℕ} {livePages terms : ℕ} {program ks : List Node}
  {node : Node}
  {i j k page : ℕ}

theorem pageNode_congr (h : ∀ c ∈ node.children, pages c = pages' c) :
    pageNode termPages livePages pages node = pageNode termPages livePages pages' node := by
  cases node <;> simp_all [pageNode, Node.children]

theorem fillPages_lt (h : i < k) : fillPages termPages livePages k ks pages i = pages i := by
  induction ks generalizing k pages with
  | nil => rfl
  | cons node ks ih =>
    rw [fillPages, ih (Nat.lt_succ_of_lt h), Function.update_of_ne (Nat.ne_of_lt h)]

theorem fillPages_eq (h : ks[j]? = some node) (hc : ∀ c ∈ node.children, c < k + j) :
    fillPages termPages livePages k ks pages (k + j) =
      pageNode termPages livePages (fillPages termPages livePages k ks pages) node := by
  induction ks generalizing k j pages with
  | nil => simp at h
  | cons n ks ih =>
    cases j with
    | zero =>
      cases h
      change fillPages termPages livePages (k + 1) ks _ k = _
      rw [fillPages, fillPages_lt (Nat.lt_add_one k), Function.update_self]
      refine pageNode_congr fun c hm => ?_
      have hck := hc c hm
      rw [Nat.add_zero] at hck
      rw [fillPages_lt (Nat.lt_succ_of_lt hck), Function.update_of_ne (Nat.ne_of_lt hck)]
    | succ j =>
      have hk : k + (j + 1) = k + 1 + j := by omega
      rw [fillPages, hk]
      exact ih (by simpa using h) fun c hm => by rw [← hk]; exact hc c hm

/-- The page summaries of a valid program. -/
theorem fillPages_node (hv : ValidProgram terms program) (h : program[i]? = some node) :
    fillPages termPages livePages 0 program pages i =
      pageNode termPages livePages (fillPages termPages livePages 0 program pages) node := by
  have heq : fillPages termPages livePages 0 program pages (0 + i) = _ := fillPages_eq h
    fun c hc => by rw [Nat.zero_add]; exact valid_children (hv.2 i node h) hc
  rwa [Nat.zero_add] at heq

/-- Every summary stays within the live pages. -/
theorem pageNode_live (h : (pageNode termPages livePages pages node).testBit page = true) :
    livePages.testBit page = true := by
  cases node <;> simp_all [pageNode, candidates]

/-- A node that is true at a live coordinate has the page in its summary. -/
theorem summary_of_value {live : Bool} {term : ℕ → Bool} (hv : ValidProgram terms program)
    (hl : livePages.testBit page = true)
    (ht : ∀ t, term t = true → (termPages t).testBit page = true)
    (h : (programValues live term program).getD i false = true) :
    (fillPages termPages livePages 0 program pages i).testBit page = true := by
  induction i using Nat.strong_induction_on with
  | _ i ih =>
    cases hn : program[i]? with
    | none =>
      have hlen : (programValues live term program).length = program.length := length_inOrder
      rw [List.getD_eq_getElem?_getD, List.getElem?_eq_none_iff.2
        (hlen ▸ List.getElem?_eq_none_iff.1 hn)] at h
      cases h
    | some node =>
      have hc : ∀ c ∈ node.children, (programValues live term program).getD c false = true →
          (fillPages termPages livePages 0 program pages c).testBit page = true := fun c hm =>
        ih c (valid_children (hv.2 i node hn) hm)
      rw [value_eq hv hn] at h
      rw [fillPages_node hv hn]
      cases node <;> simp_all [nodeValue, pageNode, candidates, Node.children]
      rcases h with h | h
      · exact .inl (hc.1 h)
      · exact .inr (hc.2 h)

/-! ### The backward walk -/

theorem testBit_foldl_or {cs : List ℕ} {needed : ℕ} :
    (cs.foldl (fun needed child => needed ||| 2 ^ child) needed).testBit j = true ↔
      needed.testBit j = true ∨ j ∈ cs := by
  induction cs generalizing needed with
  | nil => simp
  | cons c cs ih =>
    rw [List.foldl_cons, ih, Nat.testBit_or, Nat.testBit_two_pow, Bool.or_eq_true,
      decide_eq_true_iff, List.mem_cons, or_assoc, @eq_comm _ c]

theorem dependStep_iff {x : ℕ × Node} {needed : ℕ} :
    (dependStep pages page x needed).testBit j = true ↔ needed.testBit j = true ∨
      (needed.testBit x.1 = true ∧ (pages x.1).testBit page = true ∧ j ∈ x.2.children) := by
  unfold dependStep
  split_ifs with h
  · refine ⟨.inl, fun h' => h'.resolve_right fun ⟨h₁, h₂, _⟩ => ?_⟩
    rw [h₁, h₂] at h
    simp at h
  · rw [testBit_foldl_or]
    rw [not_or, Bool.not_eq_false, Bool.not_eq_false] at h
    exact or_congr_right ⟨fun hj => ⟨h.1, h.2, hj⟩, fun hj => hj.2.2⟩

theorem depend_mono {l : List (ℕ × Node)} {needed : ℕ} (h : needed.testBit j = true) :
    (l.foldr (dependStep pages page) needed).testBit j = true := by
  induction l with
  | nil => exact h
  | cons x l ih => exact dependStep_iff.2 (.inl ih)

/-- A step of the walk adds only nodes below its own, so what it finds needed is settled by the
steps before it. -/
theorem depend_closed {l : List (ℕ × Node)} {needed : ℕ} (hs : (l.map Prod.fst).Pairwise (· < ·))
    (hl : ∀ x ∈ l, ∀ c ∈ x.2.children, c < x.1) {x : ℕ × Node} (hx : x ∈ l)
    (hn : (l.foldr (dependStep pages page) needed).testBit x.1 = true)
    (hp : (pages x.1).testBit page = true) :
    ∀ c ∈ x.2.children, (l.foldr (dependStep pages page) needed).testBit c = true := by
  induction l with
  | nil => exact absurd hx List.not_mem_nil
  | cons y l ih =>
    rw [List.map_cons, List.pairwise_cons] at hs
    rw [List.foldr_cons] at hn ⊢
    intro c hc
    rcases List.mem_cons.1 hx with rfl | hx
    · -- nothing a node adds is the node itself
      have hn' := (dependStep_iff.1 hn).resolve_right fun h =>
        absurd (hl x List.mem_cons_self _ h.2.2) (Nat.lt_irrefl _)
      exact dependStep_iff.2 (.inr ⟨hn', hp, hc⟩)
    · have hn' := (dependStep_iff.1 hn).resolve_right fun h => by
        have h₁ := hl y List.mem_cons_self _ h.2.2
        have h₂ := hs.1 x.1 (List.mem_map_of_mem hx)
        omega
      exact dependStep_iff.2
        (.inl (ih hs.2 (fun z hz => hl z (List.mem_cons_of_mem _ hz)) hx hn' c hc))

theorem indexed_fst : ((indexed program).map Prod.fst).Pairwise (· < ·) := by
  rw [indexed, List.map_fst_zip (by simp)]
  exact List.pairwise_lt_range

theorem mem_indexed {x : ℕ × Node} : x ∈ indexed program ↔ program[x.1]? = some x.2 := by
  rw [indexed, List.mem_iff_getElem?]
  constructor
  · rintro ⟨i, hi⟩
    obtain ⟨h₁, h₂⟩ := List.getElem?_zip_eq_some.1 hi
    obtain ⟨_, hx⟩ := List.getElem?_eq_some_iff.1 h₁
    rw [List.getElem_range] at hx
    rwa [← hx]
  · intro h
    have hlt := (List.getElem?_eq_some_iff.1 h).1
    refine ⟨x.1, List.getElem?_zip_eq_some.2 ⟨?_, h⟩⟩
    rw [List.getElem?_range hlt]

theorem mem_indexed_fst (h : i < program.length) : i ∈ (indexed program).map Prod.fst := by
  rw [indexed, List.map_fst_zip (by simp)]
  exact List.mem_range.2 h

/-- The root of a program is needed on every page. -/
theorem dependencies_root :
    (dependencies program pages page).testBit (program.length - 1) = true :=
  depend_mono (by rw [Nat.testBit_two_pow]; exact decide_eq_true rfl)

/-- A needed node whose summary has the page needs its operands. -/
theorem dependencies_closed (hv : ValidProgram terms program) (h : program[i]? = some node)
    (hn : (dependencies program pages page).testBit i = true) (hp : (pages i).testBit page = true) :
    ∀ c ∈ node.children, (dependencies program pages page).testBit c = true := by
  have hm : (i, node) ∈ indexed program := mem_indexed.2 h
  refine depend_closed indexed_fst (fun x hx c hc => ?_) hm hn hp
  exact valid_children (hv.2 _ _ (mem_indexed.1 hx)) hc

end

/-! ### The forward pass -/

namespace Source

/-- The bit of the liveness image at a coordinate. -/
def live (src : Source) (page bit : ℕ) : Bool :=
  src.livePages.testBit page && match src.liveOffsets page with
    | .ok mask => mask.testBit bit
    | .error _ => false

/-- The bit of a term at a coordinate. -/
def term (src : Source) (page bit t : ℕ) : Bool :=
  (src.termPages t).testBit page && match src.termOffsets t page with
    | .ok x => x.1.testBit bit
    | .error _ => false

/-- The values of the nodes of a program at a coordinate. -/
def values (src : Source) (program : List Node) (page bit : ℕ) : List Bool :=
  programValues (src.live page bit) (src.term page bit) program

/-- The coordinate is live and the program is true there. -/
def accepts (src : Source) (program : List Node) (page bit : ℕ) : Bool :=
  src.live page bit && (src.values program page bit).getD (program.length - 1) false

end Source

/-- Every payload that evaluation may decode is valid. -/
structure SourceOk (src : Source) : Prop where
  pages : src.livePages < 2 ^ 256
  live : ∀ page, src.livePages.testBit page = true →
    ∃ mask, src.liveOffsets page = .ok mask ∧ mask < 2 ^ 512
  term : ∀ t < src.terms, ∀ page, (src.termPages t).testBit page = true →
    ∃ mask bytes, src.termOffsets t page = .ok (mask, bytes)
  block : ∀ page, src.livePages.testBit page = true → src.key.block page = .ok (src.key.base + page)

section

variable {src : Source} {program : List Node} {pages pages' offsets : ℕ → ℕ} {node : Node}
  {i j page mask live needed : ℕ} {stats : QueryStats}

/-- The mask of a node on one page is exact. -/
def Right (src : Source) (program : List Node) (page i mask : ℕ) : Prop :=
  ∀ bit, mask.testBit bit =
    (src.live page bit && (src.values program page bit).getD i false)

/-- The offsets of a node from those of its operands. -/
theorem offsetNode_right (hs : SourceOk src) (hv : ValidProgram src.terms program)
    (h : program[i]? = some node) (hl : src.livePages.testBit page = true)
    (hlive : src.liveOffsets page = .ok live)
    (hp : (pageNode src.termPages src.livePages pages node).testBit page = true)
    (hc : ∀ c ∈ node.children, Right src program page c (offsets c)) :
    ∃ mask payloads bytes, offsetNode src offsets live page node = .ok (mask, payloads, bytes) ∧
      Right src program page i mask := by
  have hbit : ∀ bit, src.live page bit = live.testBit bit := fun bit => by
    simp only [Source.live, hl, hlive, Bool.true_and]
  have hval : ∀ bit, (src.values program page bit).getD i false =
      nodeValue (src.live page bit) (src.term page bit) (src.values program page bit) node :=
    fun bit => value_eq hv h
  unfold Right at *
  cases node with
  | term t =>
    have ht : (src.termPages t).testBit page = true := by
      simp only [pageNode, candidates, Nat.testBit_and, Bool.and_eq_true] at hp
      exact hp.1.1
    have hlt : t < src.terms := by
      have := hv.2 i _ h
      simpa [Node.valid] using this
    obtain ⟨m, bytes, hm⟩ := hs.term t hlt page ht
    refine ⟨_, _, _, by simp only [offsetNode, hm]; rfl, fun bit => ?_⟩
    rw [hval, hbit]
    simp only [combineOffsets, Nat.testBit_and, nodeValue, Source.term, ht, hm, Bool.true_and]
    cases m.testBit bit <;> cases live.testBit bit <;> rfl
  | all =>
    refine ⟨_, _, _, rfl, fun bit => ?_⟩
    rw [hval, hbit]
    simp only [nodeValue, Bool.and_self]
  | not c =>
    refine ⟨_, _, _, rfl, fun bit => ?_⟩
    rw [hval]
    simp only [combineOffsets, Nat.testBit_and, Nat.testBit_ldiff, nodeValue,
      hc c (by simp [Node.children]), hbit]
    cases live.testBit bit <;> cases (src.values program page bit).getD c false <;> rfl
  | and l r =>
    refine ⟨_, _, _, rfl, fun bit => ?_⟩
    rw [hval]
    simp only [combineOffsets, Nat.testBit_and, nodeValue, hc l (by simp [Node.children]),
      hc r (by simp [Node.children]), hbit]
    cases live.testBit bit <;> cases (src.values program page bit).getD l false <;>
      cases (src.values program page bit).getD r false <;> rfl
  | or l r =>
    refine ⟨_, _, _, rfl, fun bit => ?_⟩
    rw [hval]
    simp only [combineOffsets, Nat.testBit_and, Nat.testBit_or, nodeValue,
      hc l (by simp [Node.children]), hc r (by simp [Node.children]), hbit]
    cases live.testBit bit <;> cases (src.values program page bit).getD l false <;>
      cases (src.values program page bit).getD r false <;> rfl
  | difference l r =>
    refine ⟨_, _, _, rfl, fun bit => ?_⟩
    rw [hval]
    simp only [combineOffsets, Nat.testBit_and, Nat.testBit_ldiff, nodeValue,
      hc l (by simp [Node.children]), hc r (by simp [Node.children]), hbit]
    cases live.testBit bit <;> cases (src.values program page bit).getD l false <;>
      cases (src.values program page bit).getD r false <;> rfl

/-- After the forward pass every needed node has its exact mask, whatever the scratch held. -/
theorem fillOffsets_right (hs : SourceOk src) (hv : ValidProgram src.terms program)
    (hpages : pages = fillPages src.termPages src.livePages 0 program pages')
    (hl : src.livePages.testBit page = true) (hlive : src.liveOffsets page = .ok live)
    (hclosed : ∀ i node, program[i]? = some node → needed.testBit i = true →
      (pages i).testBit page = true → ∀ c ∈ node.children, needed.testBit c = true)
    {l : List (ℕ × Node)} (hsorted : (l.map Prod.fst).Pairwise (· < ·))
    (hmem : ∀ x ∈ l, program[x.1]? = some x.2)
    (hdone : ∀ j, needed.testBit j = true → j < program.length → j ∉ l.map Prod.fst →
      Right src program page j (offsets j)) :
    ∃ offsets' stats', fillOffsets src pages needed live page l offsets stats =
        .ok (offsets', stats') ∧ stats'.emittedTids = stats.emittedTids ∧
      ∀ j, needed.testBit j = true → j < program.length →
        Right src program page j (offsets' j) := by
  induction l generalizing offsets stats with
  | nil => exact ⟨offsets, stats, rfl, rfl, fun j hj hlt => hdone j hj hlt List.not_mem_nil⟩
  | cons x l ih =>
    obtain ⟨i, node⟩ := x
    rw [List.map_cons, List.pairwise_cons] at hsorted
    have hnode : program[i]? = some node := hmem _ List.mem_cons_self
    have hrest := fun x hx => hmem x (List.mem_cons_of_mem _ hx)
    -- the other entries are as exact as before
    have hkeep : ∀ m, Right src program page i m → ∀ j, needed.testBit j = true →
        j < program.length → j ∉ l.map Prod.fst →
        Right src program page j (Function.update offsets i m j) := by
      intro m hm j hj hlt hjl
      by_cases hji : j = i
      · subst hji; rwa [Function.update_self]
      · rw [Function.update_of_ne hji]
        refine hdone j hj hlt fun hjm => ?_
        rcases List.mem_cons.1 hjm with h | h
        · exact hji h
        · exact hjl h
    rw [fillOffsets]
    cases hn : needed.testBit i with
    | false =>
      rw [if_pos rfl]
      refine ih hsorted.2 hrest fun j hj hlt hjl => hdone j hj hlt fun hjm => ?_
      rcases List.mem_cons.1 hjm with h | h
      · obtain rfl : j = i := h
        rw [hn] at hj
        cases hj
      · exact hjl h
    | true =>
      rw [if_neg (by decide)]
      cases hp : (pages i).testBit page with
      | false =>
        rw [if_pos rfl]
        refine ih hsorted.2 hrest (hkeep 0 fun bit => ?_)
        rw [Nat.zero_testBit, eq_comm, Bool.and_eq_false_iff]
        refine .inr (Bool.eq_false_iff.2 fun hval => ?_)
        have htrue : (pages i).testBit page = true := by
          rw [hpages]
          exact summary_of_value hv hl (fun t ht => (Bool.and_eq_true_iff.1 ht).1) hval
        rw [hp] at htrue
        cases htrue
      | true =>
        rw [if_neg (by decide)]
        have hp' : (pageNode src.termPages src.livePages pages node).testBit page = true := by
          rw [hpages, ← fillPages_node hv hnode, ← hpages]
          exact hp
        obtain ⟨m, payloads, bytes, hm, hright⟩ := offsetNode_right hs hv hnode hl hlive hp'
          fun c hc => by
            have hci := valid_children (hv.2 i node hnode) hc
            have hlen := (List.getElem?_eq_some_iff.1 hnode).1
            refine hdone c (hclosed i node hnode hn hp c hc) (Nat.lt_trans hci hlen) fun hm => ?_
            rcases List.mem_cons.1 hm with h | h
            · exact absurd h (Nat.ne_of_lt hci)
            · exact Nat.lt_asymm hci (hsorted.1 c h)
        rw [hm]
        exact ih hsorted.2 hrest (hkeep m hright)

/-! ### All candidate pages -/

/-- The emitted masks of a list of pages: the exact ones that are not empty. -/
def Emitted (src : Source) (program : List Node) : List ℕ → List (ℕ × ℕ) → Prop
  | [], out => out = []
  | page :: rest, out => ∃ mask, mask < 2 ^ 512 ∧
      (∀ bit, mask.testBit bit = src.accepts program page bit) ∧
      if mask = 0 then Emitted src program rest out
      else ∃ out', out = (src.key.base + page, mask) :: out' ∧ Emitted src program rest out'

theorem countOnes_eq_zero (h : mask < 2 ^ 512) : countOnes mask = 0 ↔ mask = 0 := by
  rw [countOnes, List.length_eq_zero_iff, setBits_eq_nil h]

/-- An exact mask lies within the liveness image. -/
theorem Right.lt (h : Right src program page i mask) (hlt : live < 2 ^ 512)
    (hlive : src.liveOffsets page = .ok live) : mask < 2 ^ 512 := by
  refine Nat.lt_of_le_of_lt (Nat.le_of_testBit fun bit hbit => ?_) hlt
  rw [h bit, Bool.and_eq_true, Source.live, hlive, Bool.and_eq_true] at hbit
  exact hbit.1.2

theorem evaluatePages_emitted (hs : SourceOk src) (hv : ValidProgram src.terms program)
    (hpages : pages = fillPages src.termPages src.livePages 0 program pages')
    {ps : List ℕ} (hps : ∀ page ∈ ps, src.livePages.testBit page = true) :
    ∃ out offsets' stats', evaluatePages src program pages ps offsets stats =
        .ok (out, offsets', stats') ∧ Emitted src program ps out ∧
      stats'.emittedTids = stats.emittedTids + (out.map fun x => countOnes x.2).sum := by
  induction ps generalizing offsets stats with
  | nil => exact ⟨[], offsets, stats, rfl, rfl, rfl⟩
  | cons page ps ih =>
    have hl := hps page List.mem_cons_self
    have hrest := fun p hp => hps p (List.mem_cons_of_mem _ hp)
    obtain ⟨live, hlive, hlt⟩ := hs.live page hl
    have hlast : program.length - 1 < program.length := by
      have := List.length_pos_iff.2 hv.1
      omega
    have hzero : 0 < 2 ^ 512 := Nat.lt_of_le_of_lt (Nat.zero_le _) hlt
    rw [evaluatePages, hlive, ok_bind]
    by_cases h0 : live = 0
    · rw [if_pos h0]
      obtain ⟨out, offsets', stats', hev, hout, hst⟩ := ih hrest
      refine ⟨out, offsets', stats', hev, ⟨0, hzero, fun bit => ?_, ?_⟩, hst⟩
      · rw [Nat.zero_testBit, Source.accepts, Source.live, hlive, h0]
        simp
      · rwa [if_pos rfl]
    rw [if_neg h0]
    have hfill : ∃ offsets₁ stats₁, fillOffsets src pages (dependencies program pages page) live
        page (indexed program) offsets stats.candidate.alive = .ok (offsets₁, stats₁) ∧
        stats₁.emittedTids = stats.emittedTids ∧
        Right src program page (program.length - 1) (offsets₁ (program.length - 1)) := by
      obtain ⟨offsets₁, stats₁, hfill, hst, hright⟩ := fillOffsets_right hs hv hpages hl hlive
        (fun i node hi hn hp => dependencies_closed hv hi hn hp) indexed_fst
        (fun x hx => mem_indexed.1 hx) (fun j _ hj hjm => absurd (mem_indexed_fst hj) hjm)
      exact ⟨offsets₁, stats₁, hfill, hst, hright _ dependencies_root hlast⟩
    obtain ⟨offsets₁, stats₁, hfill, hst₁, hroot⟩ := hfill
    have hmlt := hroot.lt hlt hlive
    rw [hfill, ok_bind]
    by_cases hc : countOnes (offsets₁ (program.length - 1)) = 0
    · obtain ⟨out, offsets', stats', hev, hout, hst⟩ := @ih offsets₁ stats₁ hrest
      refine ⟨out, offsets', stats', (if_pos hc).trans hev, ⟨_, hmlt, hroot, ?_⟩, ?_⟩
      · rwa [if_pos ((countOnes_eq_zero hmlt).1 hc)]
      · rw [hst, hst₁]
    · obtain ⟨out, offsets', stats', hev, hout, hst⟩ :=
        @ih offsets₁ (stats₁.emit (countOnes (offsets₁ (program.length - 1)))) hrest
      refine ⟨(src.key.base + page, offsets₁ (program.length - 1)) :: out, offsets', stats',
        (if_neg hc).trans ?_, ⟨_, hmlt, hroot, ?_⟩, ?_⟩
      · rw [hs.block page hl, ok_bind, hev]
        rfl
      · rw [if_neg fun h => hc ((countOnes_eq_zero hmlt).2 h)]
        exact ⟨out, rfl, hout⟩
      · rw [hst, List.map_cons, List.sum_cons, ← Nat.add_assoc, ← hst₁]
        rfl

/-- The iterator visits the set bits in ascending order. -/
theorem pagesOf_eq (mask : ℕ) : pagesOf mask = setBits mask 256 := by
  have hword : ∀ word, lowestFirst 64 64 (maskWord mask word) =
      (List.range 64).filter fun bit => mask.testBit (word * 64 + bit) := by
    intro word
    have hlt : maskWord mask word < 2 ^ 64 := Nat.mod_lt _ (Nat.two_pow_pos 64)
    have hlen : (setBits (maskWord mask word) 64).length ≤ 64 :=
      (List.length_filter_le _ _).trans (by rw [List.length_range])
    rw [lowestFirst_eq hlt hlen, setBits]
    refine List.filter_congr fun bit hbit => ?_
    rw [maskWord, Nat.testBit_mod_two_pow, Nat.testBit_div_two_pow, Nat.mul_comm,
      decide_eq_true (List.mem_range.1 hbit), Bool.true_and]
    congr 1
    omega
  have hrange : List.range 256 =
      (List.range 4).flatMap fun word => (List.range 64).map fun bit => word * 64 + bit := by
    decide +kernel
  rw [pagesOf, setBits, hrange, List.filter_flatMap]
  congr 1
  funext word
  rw [hword, List.filter_map]
  rfl

/-- Evaluation of a valid source and program emits the exact masks of the candidate pages; what
is not a candidate matches nowhere. -/
theorem evaluateSource_emitted (hs : SourceOk src) (scratch : QueryScratch)
    (hprog : validateProgram src.terms program = .ok ⟨⟩) :
    ∃ out stats scratch' ps, evaluateSource src program scratch = .ok (out, stats, scratch') ∧
      ps.Pairwise (· < ·) ∧ (∀ page ∈ ps, page < 256) ∧ Emitted src program ps out ∧
      (∀ page bit, src.accepts program page bit = true → page ∈ ps) ∧
      stats.emittedTids = (out.map fun x => countOnes x.2).sum := by
  have hv := validateProgram_ok hprog
  obtain ⟨pages, hpages⟩ : ∃ pages,
    pages = fillPages src.termPages src.livePages 0 program scratch.pages := ⟨_, rfl⟩
  have hlast : program.length - 1 < program.length := by
    have := List.length_pos_iff.2 hv.1
    omega
  have hroot := List.getElem?_eq_getElem hlast
  have hlive : ∀ page ∈ setBits (pages (program.length - 1)) 256,
      src.livePages.testBit page = true := by
    intro page hp
    have hbit := (mem_setBits.1 hp).2
    rw [hpages, fillPages_node hv hroot] at hbit
    exact pageNode_live hbit
  obtain ⟨out, offsets', stats', hev, hout, hst⟩ : ∃ out offsets' stats', evaluatePages src program
      pages (setBits (pages (program.length - 1)) 256) scratch.offsets .default =
        .ok (out, offsets', stats') ∧ Emitted src program
          (setBits (pages (program.length - 1)) 256) out ∧
      stats'.emittedTids = 0 + (out.map fun x => countOnes x.2).sum :=
    evaluatePages_emitted hs hv hpages hlive
  refine ⟨out, stats', ⟨pages, offsets'⟩, _, ?_,
    setBits_sorted, fun page hp => (mem_setBits.1 hp).1,
    hout, fun page bit ha => ?_, by rw [hst, Nat.zero_add]⟩
  · rw [evaluateSource, hprog, ok_bind]
    simp only [← hpages, pagesOf_eq, hev, ok_bind]
  · obtain ⟨hl, hval⟩ := Bool.and_eq_true_iff.1 ha
    have hl' := (Bool.and_eq_true_iff.1 hl).1
    refine mem_setBits.2 ⟨testBit_lt hs.pages hl', ?_⟩
    rw [hpages]
    exact summary_of_value hv hl' (fun t ht => (Bool.and_eq_true_iff.1 ht).1) hval

/-! ### Emitted coordinates -/

/-- The coordinates of emitted masks; bit zero is offset one. -/
def emittedRoots (out : List (ℕ × ℕ)) : List RootTid :=
  out.flatMap fun x => (setBits x.2 512).map fun bit => ⟨x.1, bit + 1⟩

theorem length_emittedRoots {out : List (ℕ × ℕ)} :
    (emittedRoots out).length = (out.map fun x => countOnes x.2).sum := by
  simp only [emittedRoots, List.length_flatMap, List.length_map, countOnes]

theorem Emitted.block {ps : List ℕ} {out : List (ℕ × ℕ)} (h : Emitted src program ps out) :
    ∀ x ∈ out, ∃ page ∈ ps, x.1 = src.key.base + page := by
  induction ps generalizing out with
  | nil => rw [show out = [] from h]; exact fun x hx => absurd hx List.not_mem_nil
  | cons p ps ih =>
    obtain ⟨m, -, -, h⟩ := h
    intro x hx
    split_ifs at h with h0
    · obtain ⟨page, hp, heq⟩ := ih h x hx
      exact ⟨page, List.mem_cons_of_mem _ hp, heq⟩
    · obtain ⟨out', rfl, h⟩ := h
      rcases List.mem_cons.1 hx with rfl | hx
      · exact ⟨p, List.mem_cons_self, rfl⟩
      · obtain ⟨page, hp, heq⟩ := ih h x hx
        exact ⟨page, List.mem_cons_of_mem _ hp, heq⟩

/-- Blocks are emitted in ascending order. -/
theorem Emitted.sorted {ps : List ℕ} {out : List (ℕ × ℕ)} (h : Emitted src program ps out)
    (hs : ps.Pairwise (· < ·)) : (out.map Prod.fst).Pairwise (· < ·) := by
  induction ps generalizing out with
  | nil => rw [show out = [] from h]; exact .nil
  | cons p ps ih =>
    obtain ⟨m, -, -, h⟩ := h
    rw [List.pairwise_cons] at hs
    split_ifs at h with h0
    · exact ih h hs.2
    · obtain ⟨out', rfl, h⟩ := h
      rw [List.map_cons, List.pairwise_cons]
      refine ⟨fun b hb => ?_, ih h hs.2⟩
      obtain ⟨x, hx, rfl⟩ := List.mem_map.1 hb
      obtain ⟨page, hp, heq⟩ := h.block x hx
      have := hs.1 page hp
      simp only
      omega

/-- The emitted coordinates are those the program accepts. -/
theorem Emitted.mem_emittedRoots {ps : List ℕ} {out : List (ℕ × ℕ)} (h : Emitted src program ps out)
    {root : RootTid} : root ∈ emittedRoots out ↔ ∃ page ∈ ps, ∃ bit,
      root = ⟨src.key.base + page, bit + 1⟩ ∧ src.accepts program page bit = true := by
  induction ps generalizing out with
  | nil => rw [show out = [] from h]; simp [emittedRoots]
  | cons p ps ih =>
    obtain ⟨m, hlt, hbit, h⟩ := h
    have hhead : ∀ bit, bit ∈ setBits m 512 ↔ src.accepts program p bit = true := fun bit => by
      rw [mem_setBits, ← hbit]
      exact ⟨And.right, fun hb => ⟨testBit_lt hlt hb, hb⟩⟩
    rw [List.exists_mem_cons_iff]
    split_ifs at h with h0
    · rw [ih h]
      refine ⟨.inr, fun h' => h'.resolve_left fun ⟨bit, _, hb⟩ => ?_⟩
      rw [← hbit, h0, Nat.zero_testBit] at hb
      cases hb
    · obtain ⟨out', rfl, h⟩ := h
      rw [emittedRoots, List.flatMap_cons, List.mem_append, ← emittedRoots, ih h]
      refine or_congr_left ?_
      simp only [List.mem_map, hhead]
      exact ⟨fun ⟨bit, hb, heq⟩ => ⟨bit, heq.symm, hb⟩, fun ⟨bit, heq, hb⟩ => ⟨bit, hb, heq.symm⟩⟩

theorem Emitted.nodup {ps : List ℕ} {out : List (ℕ × ℕ)} (h : Emitted src program ps out)
    (hs : ps.Pairwise (· < ·)) : (emittedRoots out).Nodup := by
  rw [emittedRoots, List.nodup_flatMap]
  refine ⟨fun x _ => setBits_nodup.map fun a b hab => by simpa using hab, ?_⟩
  refine (List.pairwise_map.1 (h.sorted hs)).imp fun {x y} hxy => ?_
  refine List.disjoint_left.2 fun r hr hr' => ?_
  obtain ⟨_, -, rfl⟩ := List.mem_map.1 hr
  obtain ⟨_, -, heq⟩ := List.mem_map.1 hr'
  rw [RootTid.mk.injEq] at heq
  omega

end

/-! ### Records in memory -/

/-- The bit of a record at a heap coordinate. -/
def Bitmap.has (b : Bitmap) (root : RootTid) : Bool :=
  decide (b.key.base ≤ root.block ∧ root.block < b.key.base + 256 ∧ 0 < root.offset) &&
    match b.offsets (root.block - b.key.base) with
    | .ok mask => mask.testBit (root.offset - 1)
    | .error _ => false

/-- A posting bitmap of the segment with valid payloads. -/
structure PostingOf (segment : SegmentGroup) (b : Bitmap) : Prop where
  opened : ∃ bytes, Bitmap.openRecord bytes = .ok b
  key : b.key = segment.key
  kind : b.kind = .posting
  valid : b.validateAll = .ok ()

section

variable {segment : SegmentGroup} {terms : List Bitmap} {program : List Node} {b : Bitmap}
  {members live : List UInt8} {page bit t : ℕ}

theorem memorySource_ok (hs : segment.Opened) (ht : ∀ b ∈ terms, PostingOf segment b) :
    SourceOk (memorySource segment terms) where
  pages := hs.live.inRange.mask
  live page _ := by
    obtain ⟨mask, hm⟩ := hs.decodes page
    exact ⟨mask, hm, hs.live.offsets_lt hm⟩
  term t hlt page _ := by
    have hb : terms[t]? = some terms[t] := List.getElem?_eq_getElem hlt
    have hp := ht _ (List.mem_of_getElem? hb)
    obtain ⟨bytes, ho⟩ := hp.opened
    obtain ⟨mask, hm⟩ := Bitmap.validateAll_ok (Bitmap.openRecord_opened ho) hp.valid page
    refine ⟨mask, terms[t].payloadBytes page, ?_⟩
    simp only [memorySource, hb, hm, ok_bind]
  block page hp := by
    have := hs.live.inRange.block_eq hp
    rw [show (memorySource segment terms).key = segment.live.key from hs.key.symm]
    exact this

theorem Bitmap.has_coordinate (hp : page < 256) : b.has ⟨b.key.base + page, bit + 1⟩ =
    match b.offsets page with
    | .ok mask => mask.testBit bit
    | .error _ => false := by
  have hrange : b.key.base ≤ b.key.base + page ∧ b.key.base + page < b.key.base + 256 ∧
      0 < bit + 1 := by omega
  simp only [Bitmap.has, decide_eq_true hrange, Bool.true_and, Nat.add_sub_cancel_left,
    Nat.add_sub_cancel]

/-- A bit of a record lies on a page of its summary. -/
theorem Bitmap.and_testBit {mask : ℕ} (h : b.offsets page = .ok mask) :
    (b.mask.testBit page && mask.testBit bit) = mask.testBit bit := by
  cases hp : b.mask.testBit page with
  | true => exact Bool.true_and _
  | false =>
    rw [Bitmap.offsets_absent hp, Except.ok.injEq] at h
    rw [← h, Nat.zero_testBit, Bool.and_false]

theorem memorySource_live (hs : segment.Opened) (hp : page < 256) :
    (memorySource segment terms).live page bit =
      segment.live.has ⟨segment.key.base + page, bit + 1⟩ := by
  obtain ⟨mask, hm⟩ := hs.decodes page
  have hlive : (memorySource segment terms).liveOffsets page = .ok mask := hm
  rw [← hs.key, Bitmap.has_coordinate hp, Source.live, hm, hlive]
  exact Bitmap.and_testBit hm

theorem memorySource_term (ht : ∀ b ∈ terms, PostingOf segment b) (hp : page < 256) :
    (memorySource segment terms).term page bit t =
      terms[t]?.any fun b => b.has ⟨segment.key.base + page, bit + 1⟩ := by
  cases hb : terms[t]? with
  | none => simp [Source.term, memorySource, hb]
  | some b =>
    have hpost := ht b (List.mem_of_getElem? hb)
    obtain ⟨bytes, ho⟩ := hpost.opened
    obtain ⟨mask, hm⟩ := Bitmap.validateAll_ok (Bitmap.openRecord_opened ho) hpost.valid page
    have hterm : (memorySource segment terms).termOffsets t page =
        .ok (mask, b.payloadBytes page) := by
      simp only [memorySource, hb, hm, ok_bind]
    have hpages : (memorySource segment terms).termPages t = b.mask := by
      simp only [memorySource, hb, Option.map_some, Option.getD_some]
    rw [Option.any_some, ← hpost.key, Bitmap.has_coordinate hp, Source.term, hm, hterm, hpages]
    exact Bitmap.and_testBit hm

/-- The value of a program at a heap coordinate: a term is the bit of its bitmap, and complements
are relative to the live coordinates. -/
def valueAt (segment : SegmentGroup) (terms : List Bitmap) (program : List Node) (root : RootTid) :
    Bool :=
  programValue (segment.live.has root) (fun t => terms[t]?.any fun b => b.has root) program

theorem memorySource_accepts (hs : segment.Opened) (ht : ∀ b ∈ terms, PostingOf segment b)
    (hp : page < 256) : (memorySource segment terms).accepts program page bit = true ↔
      segment.live.has ⟨segment.key.base + page, bit + 1⟩ = true ∧
        valueAt segment terms program ⟨segment.key.base + page, bit + 1⟩ = true := by
  have hterm : (memorySource segment terms).term page bit =
      fun t => terms[t]?.any fun b => b.has ⟨segment.key.base + page, bit + 1⟩ := by
    funext t
    exact memorySource_term ht hp
  rw [Source.accepts, Bool.and_eq_true, Source.values, hterm, memorySource_live hs hp]
  rfl

theorem Bitmap.has_coordinates {root : RootTid} (h : b.has root = true) :
    ∃ page bit, page < 256 ∧ root = ⟨b.key.base + page, bit + 1⟩ := by
  obtain ⟨hrange, -⟩ := Bool.and_eq_true_iff.1 h
  obtain ⟨h₁, h₂, h₃⟩ := of_decide_eq_true hrange
  refine ⟨root.block - b.key.base, root.offset - 1, by omega, ?_⟩
  cases root
  simp only [RootTid.mk.injEq] at *
  omega

/-- Evaluation of a valid program over an opened segment and valid posting bitmaps succeeds with
any scratch.  It emits, block by block in ascending order, exactly the live coordinates at which
the program is true, and counts them. -/
theorem evaluate_exact (hs : SegmentGroup.openGroup members live = .ok segment)
    (ht : ∀ b ∈ terms, PostingOf segment b)
    (hprog : validateProgram terms.length program = .ok ()) (scratch : QueryScratch) :
    ∃ out stats scratch', evaluate segment terms program scratch = .ok (out, stats, scratch') ∧
      (out.map Prod.fst).Pairwise (· < ·) ∧ (emittedRoots out).Nodup ∧
      (∀ root, root ∈ emittedRoots out ↔
        segment.live.has root = true ∧ valueAt segment terms program root = true) ∧
      stats.emittedTids = (emittedRoots out).length := by
  have hopen := SegmentGroup.openGroup_opened hs
  obtain ⟨out, stats, scratch', ps, hev, hsorted, hlt, hout, hall, hst⟩ :=
    evaluateSource_emitted (memorySource_ok hopen ht) scratch hprog
  refine ⟨out, stats, scratch', ?_, hout.sorted hsorted, hout.nodup hsorted, fun root => ?_,
    by rw [hst, length_emittedRoots]⟩
  · rw [evaluate, require, if_pos fun b hb => ⟨(ht b hb).key, (ht b hb).kind⟩, ok_bind, hev]
  · rw [hout.mem_emittedRoots]
    constructor
    · rintro ⟨page, hp, bit, rfl, ha⟩
      exact (memorySource_accepts hopen ht (hlt page hp)).1 ha
    · rintro ⟨hlive, hval⟩
      obtain ⟨page, bit, hp, rfl⟩ := Bitmap.has_coordinates hlive
      rw [hopen.key] at hlive hval ⊢
      have ha := (memorySource_accepts hopen ht hp).2 ⟨hlive, hval⟩
      exact ⟨page, hall page bit ha, bit, rfl, ha⟩

end

/-! ### A small segment -/

/-- A group of 256 pages. -/
def sampleKey : GroupKey := ⟨1, 7, 256, 8⟩

/-- Three members on two pages. -/
def sampleMembers : List UInt8 :=
  (encodeMembers sampleKey [⟨⟨256, 1⟩, 3⟩, ⟨⟨256, 2⟩, 4⟩, ⟨⟨257, 5⟩, 5⟩] 4096).toOption.getD []

/-- The liveness of the three members. -/
def sampleLive : List UInt8 :=
  (encodeBitmap sampleKey .liveness [⟨0, 3⟩, ⟨1, 16⟩] 4096).toOption.getD []

/-- A term that only the first member has. -/
def samplePosting : List UInt8 :=
  (encodeBitmap sampleKey .posting [⟨0, 1⟩] 4096).toOption.getD []

/-- The group of the three members. -/
def sampleSegment : SegmentGroup :=
  ⟨⟨sampleMembers, ⟨sampleKey, 3, 3, 3⟩⟩, ⟨sampleLive, sampleKey, .liveness, 3⟩⟩

/-- The bitmap of the term. -/
def sampleTerm : Bitmap := ⟨samplePosting, sampleKey, .posting, 1⟩

/-- The complement of the term over the small segment, with a scratch full of ones. -/
theorem evaluate_exact_sample : ∃ out stats scratch',
    evaluate sampleSegment [sampleTerm] [.term 0, .not 0] ⟨fun _ => 1, fun _ => 1⟩ =
      .ok (out, stats, scratch') ∧
    (out.map Prod.fst).Pairwise (· < ·) ∧ (emittedRoots out).Nodup ∧
    (∀ root, root ∈ emittedRoots out ↔ sampleSegment.live.has root = true ∧
      valueAt sampleSegment [sampleTerm] [.term 0, .not 0] root = true) ∧
    stats.emittedTids = (emittedRoots out).length := by
  have hopen : SegmentGroup.openGroup sampleMembers sampleLive = .ok sampleSegment := by
    decide +kernel
  have hterm : PostingOf sampleSegment sampleTerm :=
    ⟨⟨samplePosting, by decide +kernel⟩, rfl, rfl, by decide +kernel⟩
  exact evaluate_exact hopen (List.forall_mem_singleton.2 hterm) rfl _

end Grouped

end PinCore
