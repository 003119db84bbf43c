import PinCore.Lib.InOrder
import PinCore.Scan.Build
import PinCore.Scan.Terms

/-!
# What plans and covers promise about the oracle

The condition a cursor plan decides is necessary for the oracle to accept a document, and on
queries of terms, conjunctions and disjunctions it is the oracle itself.  A candidate cover
reaches every document the oracle accepts.
-/

namespace PinCore

section

variable {d : Document} {q : Query} {k k' : Kind} {i j c : ℕ}

/-- The value the oracle gives a node. -/
def oracleAt (d : Document) (q : Query) (i : ℕ) : Bool := (oracleValues d q.nodes).getD i false

/-- The value the necessary condition gives a node. -/
def coverAt (d : Document) (q : Query) (i : ℕ) : Bool := (coverValues d q.nodes).getD i false

theorem oracleAt_eq (h : q.nodes[i]? = some k) :
    oracleAt d q i = oracleNode d (oracleValues d q.nodes) k := by
  refine inOrder_getD h ?_
  have hc := q.child_lt i k h
  cases k with
  | not c => simp only [oracleNode, getD_take (hc c (by simp [Kind.children]))]
  | and l r =>
    simp only [oracleNode, getD_take (hc l (by simp [Kind.children])),
      getD_take (hc r (by simp [Kind.children]))]
  | or l r =>
    simp only [oracleNode, getD_take (hc l (by simp [Kind.children])),
      getD_take (hc r (by simp [Kind.children]))]
  | _ => rfl

theorem coverAt_eq (h : q.nodes[i]? = some k) :
    coverAt d q i = coverNode d (coverValues d q.nodes) k := by
  refine inOrder_getD h ?_
  have hc := q.child_lt i k h
  cases k with
  | and l r =>
    simp only [coverNode, getD_take (hc l (by simp [Kind.children])),
      getD_take (hc r (by simp [Kind.children]))]
  | or l r =>
    simp only [coverNode, getD_take (hc l (by simp [Kind.children])),
      getD_take (hc r (by simp [Kind.children]))]
  | _ => rfl

theorem oracleAt_none (h : q.nodes[i]? = none) : oracleAt d q i = false := by
  have hlen : (oracleValues d q.nodes).length = q.nodes.length := length_inOrder
  rw [oracleAt, List.getD_eq_getElem?_getD, List.getElem?_eq_none_iff.2]
  · rfl
  · rw [hlen]; exact List.getElem?_eq_none_iff.1 h

theorem phraseIn_mem {ts : List Text} (h : phraseIn ts d = true) : ∀ t ∈ ts, t ∈ d := by
  induction d with
  | nil => cases h
  | cons u d ih =>
    rw [phraseIn, Bool.or_eq_true] at h
    rcases h with h | h
    · exact fun t ht => (List.isPrefixOf_iff_prefix.1 h).subset ht
    · exact fun t ht => List.mem_cons_of_mem _ (ih h t ht)

theorem any_eq_true {t : Text} : (d.any fun u => decide (u = t)) = true ↔ t ∈ d := by
  simp [List.any_eq_true]

/-! ### The necessary condition -/

/-- The condition of a plan holds at every node the oracle makes true. -/
theorem coverAt_of_oracleAt (h : oracleAt d q i = true) : coverAt d q i = true := by
  induction i using Nat.strong_induction_on with
  | _ i ih =>
    cases hk : q.nodes[i]? with
    | none => rw [oracleAt_none hk] at h; cases h
    | some k =>
      have hc := q.child_lt i k hk
      rw [oracleAt_eq hk] at h
      rw [coverAt_eq hk]
      cases k with
      | none => cases h
      | term t => exact decide_eq_true (any_eq_true.1 h)
      | prefixed t => rfl
      | not c => rfl
      | phrase ts =>
        exact decide_eq_true ⟨q.phrase_ne ts (List.mem_of_getElem? hk), phraseIn_mem h⟩
      | and l r =>
        obtain ⟨hl, hr⟩ := Bool.and_eq_true_iff.1 h
        exact Bool.and_eq_true_iff.2 ⟨ih l (hc l (by simp [Kind.children])) hl,
          ih r (hc r (by simp [Kind.children])) hr⟩
      | or l r =>
        refine Bool.or_eq_true_iff.2 ((Bool.or_eq_true_iff.1 h).imp ?_ ?_)
        · exact ih l (hc l (by simp [Kind.children]))
        · exact ih r (hc r (by simp [Kind.children]))

theorem covers_of_oracle (h : oracle d q = true) : covers d q = true :=
  coverAt_of_oracleAt (i := q.root) h

/-- On terms, conjunctions and disjunctions the condition is the oracle. -/
theorem oracleAt_of_exact (he : q.nodes.all Kind.exact = true) (h : coverAt d q i = true) :
    oracleAt d q i = true := by
  induction i using Nat.strong_induction_on with
  | _ i ih =>
    cases hk : q.nodes[i]? with
    | none =>
      have hlen : (coverValues d q.nodes).length = q.nodes.length := length_inOrder
      have hn : (coverValues d q.nodes)[i]? = none :=
        List.getElem?_eq_none_iff.2 (hlen ▸ List.getElem?_eq_none_iff.1 hk)
      rw [coverAt, List.getD_eq_getElem?_getD, hn] at h
      cases h
    | some k =>
      have hc := q.child_lt i k hk
      have hek := List.all_eq_true.1 he k (List.mem_of_getElem? hk)
      rw [coverAt_eq hk] at h
      rw [oracleAt_eq hk]
      cases k with
      | none => cases h
      | term t => exact any_eq_true.2 (of_decide_eq_true h)
      | and l r =>
        obtain ⟨hl, hr⟩ := Bool.and_eq_true_iff.1 h
        exact Bool.and_eq_true_iff.2 ⟨ih l (hc l (by simp [Kind.children])) hl,
          ih r (hc r (by simp [Kind.children])) hr⟩
      | or l r =>
        refine Bool.or_eq_true_iff.2 ((Bool.or_eq_true_iff.1 h).imp ?_ ?_)
        · exact ih l (hc l (by simp [Kind.children]))
        · exact ih r (hc r (by simp [Kind.children]))
      | _ => cases hek

theorem covers_eq_oracle (he : q.nodes.all Kind.exact = true) : covers d q = oracle d q :=
  Bool.eq_iff_iff.2 ⟨oracleAt_of_exact (i := q.root) he, covers_of_oracle⟩

/-! ### Candidate covers -/

/-- Every node but the root is the child of one node only. -/
theorem Query.parent_unique (hi : q.nodes[i]? = some k) (hj : q.nodes[j]? = some k')
    (hc : c ∈ k.children) (hc' : c ∈ k'.children) : i = j := by
  obtain ⟨hil, rfl⟩ := List.getElem?_eq_some_iff.1 hi
  obtain ⟨hjl, rfl⟩ := List.getElem?_eq_some_iff.1 hj
  have hdis := List.pairwise_iff_getElem.1 (List.nodup_flatMap.1 q.child_nodup).2
  by_contra hne
  rcases Nat.lt_or_gt_of_ne hne with hlt | hlt
  · exact hdis i j hil hjl hlt hc hc'
  · exact hdis j i hjl hil hlt hc' hc

theorem Query.children_nodup (hi : q.nodes[i]? = some k) : k.children.Nodup :=
  (List.nodup_flatMap.1 q.child_nodup).1 k (List.mem_of_getElem? hi)

/-- The root is nobody's child. -/
theorem Query.root_not_child (hi : q.nodes[i]? = some k) : q.root ∉ k.children := by
  intro hc
  have h := q.child_lt i k hi _ hc
  have hlt := (List.getElem?_eq_some_iff.1 hi).1
  have hroot := q.root_last
  omega

namespace CandidatePlan

variable {costs costs' : List ℕ} {ks : List Kind}

/-- The costs agree with the nodes: a node of cost zero is false in every document. -/
def CostsOk (q : Query) (n : ℕ) (costs : List ℕ) : Prop :=
  costs.length = n ∧ ∀ i < n, costs.getD i 0 = 0 → ∀ d, oracleAt d q i = false

theorem CostsOk.false (hc : CostsOk q q.nodes.length costs) (h : costs.getD i 0 = 0)
    (d : Document) : oracleAt d q i = false := by
  rcases Nat.lt_or_ge i q.nodes.length with hi | hi
  · exact hc.2 i hi h d
  · exact oracleAt_none (List.getElem?_eq_none_iff.2 hi)

theorem costNode_zero (hc : CostsOk q i costs) (hk : q.nodes[i]? = some k)
    (h : costNode costs k = .ok 0) (d : Document) : oracleAt d q i = false := by
  have hlt := q.child_lt i k hk
  rw [oracleAt_eq hk]
  cases k with
  | none => rfl
  | term t => cases h
  | phrase ts =>
    have hne := q.phrase_ne ts (List.mem_of_getElem? hk)
    rw [costNode, if_neg hne] at h
    cases h
  | prefixed t => cases h
  | not c => cases h
  | and l r =>
    have hmin : min (costs.getD l 0) (costs.getD r 0) = 0 := by
      rw [costNode, Except.ok.injEq] at h; exact h
    rcases Nat.min_eq_zero_iff.1 hmin with h0 | h0
    · have hl : (oracleValues d q.nodes).getD l false = false :=
        hc.2 l (hlt l (by simp [Kind.children])) h0 d
      simp only [oracleNode, hl, Bool.false_and]
    · have hr : (oracleValues d q.nodes).getD r false = false :=
        hc.2 r (hlt r (by simp [Kind.children])) h0 d
      simp only [oracleNode, hr, Bool.and_false]
  | or l r =>
    have hsum : costs.getD l 0 = 0 ∧ costs.getD r 0 = 0 := by
      simp only [costNode] at h
      split_ifs at h
      · rw [Except.ok.injEq] at h; exact absurd h (by decide)
      · rw [Except.ok.injEq] at h; omega
    have hl : (oracleValues d q.nodes).getD l false = false :=
      hc.2 l (hlt l (by simp [Kind.children])) hsum.1 d
    have hr : (oracleValues d q.nodes).getD r false = false :=
      hc.2 r (hlt r (by simp [Kind.children])) hsum.2 d
    simp only [oracleNode, hl, hr, Bool.or_false]

theorem costsFrom_ok (hc : CostsOk q i costs) (hi : i ≤ q.nodes.length) (hks : q.nodes.drop i = ks)
    (h : costsFrom costs ks = .ok costs') : CostsOk q q.nodes.length costs' := by
  induction ks generalizing i costs with
  | nil =>
    rw [costsFrom, Except.ok.injEq] at h
    obtain rfl : i = q.nodes.length := Nat.le_antisymm hi (List.drop_eq_nil_iff.1 hks)
    exact h ▸ hc
  | cons k ks ih =>
    obtain ⟨c, hcost, h⟩ := ok_of_bind h
    have hk : q.nodes[i]? = some k := by
      have : (q.nodes.drop i)[0]? = some k := by rw [hks]; rfl
      simpa using this
    have hlt := (List.getElem?_eq_some_iff.1 hk).1
    refine ih (i := i + 1) ⟨?_, fun j hj h0 d => ?_⟩ hlt ?_ h
    · rw [List.length_append, hc.1]; rfl
    · rcases Nat.lt_succ_iff_lt_or_eq.1 hj with hj | rfl
      · refine hc.2 j hj ?_ d
        rwa [List.getD_eq_getElem?_getD, List.getElem?_append_left (by rwa [hc.1]),
          ← List.getD_eq_getElem?_getD] at h0
      · rw [List.getD_eq_getElem?_getD, List.getElem?_append_right (Nat.le_of_eq hc.1), hc.1,
          Nat.sub_self] at h0
        obtain rfl : c = 0 := h0
        exact costNode_zero hc hk hcost d
    · rw [← List.tail_drop, hks]; rfl

/-- The collected terms reach every document that makes a pending node true. -/
theorem collect_reaches {fuel : ℕ} {pending : List ℕ} {acc ts : List Text}
    (hc : CostsOk q q.nodes.length costs) (h : collect q.nodes costs fuel pending acc = .ok ts)
    (hd : (∃ t ∈ acc, t ∈ d) ∨ ∃ i ∈ pending, oracleAt d q i = true) : ∃ t ∈ ts, t ∈ d := by
  induction fuel generalizing pending acc with
  | zero =>
    cases pending with
    | nil =>
      rw [collect, Except.ok.injEq] at h
      exact h ▸ hd.resolve_right fun ⟨_, hi, _⟩ => absurd hi List.not_mem_nil
    | cons => cases h
  | succ fuel ih =>
    cases pending with
    | nil =>
      rw [collect, Except.ok.injEq] at h
      exact h ▸ hd.resolve_right fun ⟨_, hi, _⟩ => absurd hi List.not_mem_nil
    | cons index pending =>
      rw [collect] at h
      have hcases : (∃ t ∈ acc, t ∈ d) ∨ (∃ i ∈ pending, oracleAt d q i = true) ∨
          oracleAt d q index = true := by
        rcases hd with hd | ⟨i, hi, ho⟩
        · exact .inl hd
        · rcases List.mem_cons.1 hi with rfl | hi
          · exact .inr (.inr ho)
          · exact .inr (.inl ⟨i, hi, ho⟩)
      by_cases h0 : costs.getD index 0 = 0
      · rw [if_pos h0] at h
        have hfalse := hc.false h0 d
        refine ih h (hcases.imp_right fun hr => hr.resolve_right fun ho => ?_)
        rw [hfalse] at ho
        cases ho
      rw [if_neg h0] at h
      cases hk : q.nodes[index]? with
      | none =>
        rw [List.getD_eq_getElem?_getD, hk] at h
        cases h
      | some k =>
        rw [List.getD_eq_getElem?_getD, hk] at h
        have hval : oracleAt d q index = true → oracleNode d (oracleValues d q.nodes) k = true :=
          fun ho => by rw [← oracleAt_eq hk]; exact ho
        -- one more collected term covers what the node accepts
        have hpush : ∀ t, (oracleAt d q index = true → t ∈ d) →
            (∃ u ∈ acc ++ [t], u ∈ d) ∨ ∃ i ∈ pending, oracleAt d q i = true := by
          intro t ht
          rcases hcases with ⟨u, hu, hud⟩ | hp | ho
          · exact .inl ⟨u, List.mem_append_left _ hu, hud⟩
          · exact .inr hp
          · exact .inl ⟨t, List.mem_append_right _ List.mem_cons_self, ht ho⟩
        -- other pending nodes stay pending
        have hstay : ∀ is : List ℕ, (oracleAt d q index = true → ∃ i ∈ is, oracleAt d q i = true) →
            (∃ u ∈ acc, u ∈ d) ∨ ∃ i ∈ is ++ pending, oracleAt d q i = true := by
          intro is his
          rcases hcases with hu | ⟨i, hi, ho⟩ | ho
          · exact .inl hu
          · exact .inr ⟨i, List.mem_append_right _ hi, ho⟩
          · obtain ⟨i, hi, ho⟩ := his ho
            exact .inr ⟨i, List.mem_append_left _ hi, ho⟩
        cases k with
        | none => cases h
        | prefixed t => cases h
        | not c => cases h
        | term t => exact ih h (hpush t fun ho => any_eq_true.1 (hval ho))
        | phrase ts =>
          cases ts with
          | nil => exact absurd rfl (q.phrase_ne [] (List.mem_of_getElem? hk))
          | cons t ts =>
            exact ih h (hpush t fun ho => phraseIn_mem (hval ho) t List.mem_cons_self)
        | and l r =>
          refine ih h (hstay [_] fun ho => ⟨_, List.mem_cons_self, ?_⟩)
          obtain ⟨hl, hr⟩ := Bool.and_eq_true_iff.1 (hval ho)
          split_ifs
          · exact hl
          · exact hr
        | or l r =>
          refine ih h (hstay [l, r] fun ho => ?_)
          rcases Bool.or_eq_true_iff.1 (hval ho) with hl | hr
          · exact ⟨l, List.mem_cons_self, hl⟩
          · exact ⟨r, List.mem_cons_of_mem _ List.mem_cons_self, hr⟩

theorem costsFrom_start (h : costsFrom [] q.nodes = .ok costs) : CostsOk q q.nodes.length costs :=
  costsFrom_ok ⟨rfl, fun _ hj => absurd hj (Nat.not_lt_zero _)⟩ (Nat.zero_le _) rfl h

/-- What the passes of `build` computed for the plan it returned. -/
theorem build_cases {z : Sizes} {memoryBytes : ℕ} {plan : CandidatePlan}
    (h : build z q memoryBytes = .ok plan) : ∃ costs, costsFrom [] q.nodes = .ok costs ∧
      ((costs.getD q.root 0 = 0 ∧ plan = .empty) ∨ plan = .universal ∨
        ∃ ts, collect q.nodes costs (q.nodeCount + 1) [q.root] [] = .ok ts ∧
          plan = .terms (directory ts)) := by
  obtain ⟨_, -, h⟩ := ok_of_bind h
  obtain ⟨costs, hcosts, h⟩ := ok_of_bind h
  refine ⟨costs, hcosts, ?_⟩
  by_cases h0 : costs.getD q.root 0 = 0
  · rw [if_pos h0] at h
    exact .inl ⟨h0, (Except.ok.inj h).symm⟩
  by_cases hall : costs.getD q.root 0 = all
  · rw [if_neg h0, if_pos hall] at h
    exact .inr (.inl (Except.ok.inj h).symm)
  · rw [if_neg h0, if_neg hall] at h
    obtain ⟨_, -, h⟩ := ok_of_bind h
    obtain ⟨_, -, h⟩ := ok_of_bind h
    obtain ⟨ts, hts, h⟩ := ok_of_bind h
    exact .inr (.inr ⟨ts, hts, (Except.ok.inj h).symm⟩)

/-- A cover reaches every document the oracle accepts. -/
theorem build_reaches {z : Sizes} {memoryBytes : ℕ} {plan : CandidatePlan} {docs : List LiveDoc}
    (h : build z q memoryBytes = .ok plan) {v : LiveDoc} (hv : v ∈ docs)
    (ho : oracle v.document q = true) : v ∈ plan.docs docs := by
  obtain ⟨costs, hcosts, h⟩ := build_cases h
  have hok := costsFrom_start hcosts
  rcases h with ⟨h0, rfl⟩ | rfl | ⟨ts, hts, rfl⟩
  · have := hok.false h0 v.document
    rw [show oracleAt v.document q q.root = true from ho] at this
    cases this
  · exact hv
  · obtain ⟨t, ht, htd⟩ := collect_reaches (d := v.document) hok hts
      (.inr ⟨q.root, List.mem_cons_self, ho⟩)
    exact List.mem_flatMap.2 ⟨t, mem_directory.2 ht, List.mem_filter.2 ⟨hv, decide_eq_true htd⟩⟩

/-- The last node is priced from the costs of all others. -/
theorem costsFrom_concat {k : Kind} {costs costs' : List ℕ} {ks : List Kind}
    (h : costsFrom costs (ks ++ [k]) = .ok costs') :
    ∃ before c, costs' = before ++ [c] ∧ costNode before k = .ok c ∧
      before.length = costs.length + ks.length := by
  induction ks generalizing costs with
  | nil =>
    obtain ⟨c, hc, h⟩ := ok_of_bind h
    exact ⟨costs, c, (Except.ok.inj h).symm, hc, rfl⟩
  | cons k' ks ih =>
    obtain ⟨c, -, h⟩ := ok_of_bind h
    obtain ⟨before, c', hb, hc', hlen⟩ := ih h
    refine ⟨before, c', hb, hc', ?_⟩
    rw [hlen, List.length_append, List.length_singleton, List.length_cons]
    omega

/-- The cover of a single term is that term. -/
theorem build_singleTerm {z : Sizes} {memoryBytes : ℕ} {plan : CandidatePlan} {x : Text}
    (hq : q.rootKind = .term x) (h : build z q memoryBytes = .ok plan) : plan = .terms [x] := by
  have hlen := q.root_last
  have hroot : q.nodes.getD q.root .none = .term x := hq
  have hnodes : q.nodes = q.nodes.dropLast ++ [.term x] := by
    have hne : q.nodes ≠ [] := by
      intro h0
      rw [h0] at hlen
      cases hlen
    have hlast : q.nodes.getLast hne = .term x := by
      rw [List.getLast_eq_getElem, ← hroot, List.getD_eq_getElem?_getD]
      have hidx : q.nodes.length - 1 = q.root := by omega
      simp only [hidx, List.getElem?_eq_getElem (show q.root < q.nodes.length by omega),
        Option.getD_some]
    rw [← hlast, List.dropLast_append_getLast]
  obtain ⟨_, -, h⟩ := ok_of_bind h
  obtain ⟨costs, hcosts, h⟩ := ok_of_bind h
  rw [hnodes] at hcosts
  obtain ⟨before, c, rfl, hc, hb⟩ := costsFrom_concat hcosts
  obtain rfl : c = 1 := (Except.ok.inj hc).symm
  have hcost : (before ++ [1]).getD q.root 0 = 1 := by
    have : q.root = before.length := by
      rw [hb, List.length_dropLast, List.length_nil]
      omega
    rw [this, List.getD_eq_getElem?_getD, List.getElem?_concat_length]
    rfl
  rw [hcost, if_neg (by decide), if_neg (by decide)] at h
  obtain ⟨_, -, h⟩ := ok_of_bind h
  obtain ⟨_, -, h⟩ := ok_of_bind h
  obtain ⟨ts, hts, h⟩ := ok_of_bind h
  rw [collect, hcost, if_neg (by decide), hroot] at hts
  have hts' : ts = [x] := by
    cases hn : q.nodeCount <;> rw [hn] at hts <;> exact (Except.ok.inj hts).symm
  rw [← Except.ok.inj h, hts']
  rfl

/-! #### The walk of the collection pass -/

/-- How far a walk from the root got: the nodes it has visited and those still pending are all
different, and each is the root or a child of a visited one. -/
structure Walk (q : Query) (visited pending : List ℕ) : Prop where
  nodup : (visited ++ pending).Nodup
  lt : ∀ i ∈ visited ++ pending, i < q.nodes.length
  parent : ∀ i ∈ visited ++ pending,
    i = q.root ∨ ∃ p ∈ visited, ∃ k, q.nodes[p]? = some k ∧ i ∈ k.children

theorem Walk.start (q : Query) : Walk q [] [q.root] := by
  have hroot := q.root_last
  refine ⟨List.nodup_singleton _, fun i hi => ?_, fun i hi => ?_⟩
  · rw [List.nil_append, List.mem_singleton] at hi
    omega
  · rw [List.nil_append, List.mem_singleton] at hi
    exact .inl hi

/-- The walk visits a pending node and goes on to some of its children. -/
theorem Walk.visit {visited pending cs : List ℕ} (h : Walk q visited (i :: pending))
    (hk : q.nodes[i]? = some k) (hcs : cs.Sublist k.children) :
    Walk q (i :: visited) (cs ++ pending) := by
  have hperm : (visited ++ i :: pending).Perm (i :: visited ++ pending) := List.perm_middle
  have hold := (hperm.nodup_iff).1 h.nodup
  have hmem : ∀ j ∈ i :: visited ++ pending, j ∈ visited ++ i :: pending := fun j hj =>
    hperm.mem_iff.2 hj
  have hshuffle : (i :: visited ++ (cs ++ pending)).Perm (cs ++ (i :: visited ++ pending)) := by
    rw [← List.append_assoc, ← List.append_assoc]
    exact List.perm_append_comm.append_right _
  -- a child cannot have been met before: its only parent is visited just now
  have hnew : ∀ c ∈ cs, c ∉ i :: visited ++ pending := by
    intro c hc hold'
    have hck := hcs.subset hc
    rcases h.parent c (hmem c hold') with rfl | ⟨p, hp, k', hk', hc'⟩
    · exact q.root_not_child hk hck
    · obtain rfl := q.parent_unique hk' hk hc' hck
      rw [List.cons_append, List.nodup_cons] at hold
      exact hold.1 (List.mem_append_left _ hp)
  refine ⟨?_, fun j hj => ?_, fun j hj => ?_⟩
  · rw [hshuffle.nodup_iff, List.nodup_append]
    refine ⟨(q.children_nodup hk).sublist hcs, hold, fun a ha b hb hab => ?_⟩
    exact hnew a ha (hab ▸ hb)
  · rcases List.mem_append.1 (hshuffle.mem_iff.1 hj) with hj | hj
    · have hlt := q.child_lt i k hk j (hcs.subset hj)
      have := h.lt i (hmem i List.mem_cons_self)
      omega
    · exact h.lt j (hmem j hj)
  · rcases List.mem_append.1 (hshuffle.mem_iff.1 hj) with hj | hj
    · exact .inr ⟨i, List.mem_cons_self, k, hk, hcs.subset hj⟩
    · refine (h.parent j (hmem j hj)).imp_right ?_
      rintro ⟨p, hp, h⟩
      exact ⟨p, List.mem_cons_of_mem _ hp, h⟩

/-- There are no more nodes to visit than the query has. -/
theorem Walk.length_le {visited pending : List ℕ} (h : Walk q visited pending) :
    visited.length + pending.length ≤ q.nodeCount := by
  have hsub : visited ++ pending ⊆ List.range q.nodes.length := fun i hi =>
    List.mem_range.2 (h.lt i hi)
  have hle := (List.subperm_of_subset h.nodup hsub).length_le
  rwa [List.length_append, List.length_range] at hle

/-! #### Prices -/

theorem costNode_congr (costs : List ℕ) (h : ∀ c ∈ k.children, costs.getD c 0 = costs'.getD c 0) :
    costNode costs k = costNode costs' k := by
  cases k with
  | and l r =>
    simp only [costNode, h l (by simp [Kind.children]), h r (by simp [Kind.children])]
  | or l r =>
    simp only [costNode, h l (by simp [Kind.children]), h r (by simp [Kind.children])]
  | _ => rfl

/-- Every node is priced from the prices of its children. -/
def Priced (q : Query) (costs : List ℕ) : Prop :=
  ∀ i k, q.nodes[i]? = some k → costNode costs k = .ok (costs.getD i 0)

theorem costsFrom_priced (hlen : costs.length = i) (hks : q.nodes.drop i = ks)
    (h : costsFrom costs ks = .ok costs') :
    costs <+: costs' ∧ ∀ j k, i ≤ j → q.nodes[j]? = some k →
      costNode costs' k = .ok (costs'.getD j 0) := by
  induction ks generalizing i costs with
  | nil =>
    rw [costsFrom, Except.ok.injEq] at h
    refine ⟨h ▸ List.prefix_refl _, fun j k hj hk => ?_⟩
    have := (List.getElem?_eq_some_iff.1 hk).1
    have := List.drop_eq_nil_iff.1 hks
    omega
  | cons k ks ih =>
    obtain ⟨c, hc, h⟩ := ok_of_bind h
    have hk : q.nodes[i]? = some k := by
      have : (q.nodes.drop i)[0]? = some k := by rw [hks]; rfl
      simpa using this
    have hlen' : (costs ++ [c]).length = i + 1 := by rw [List.length_append, hlen]; rfl
    obtain ⟨hpre, hrest⟩ := ih hlen' (by rw [← List.tail_drop, hks]; rfl) h
    have hgetD : ∀ j, j < i + 1 → (costs ++ [c]).getD j 0 = costs'.getD j 0 := by
      intro j hj
      obtain ⟨more, rfl⟩ := hpre
      have hleft : (costs ++ [c] ++ more)[j]? = (costs ++ [c])[j]? :=
        List.getElem?_append_left (by omega)
      rw [List.getD_eq_getElem?_getD, List.getD_eq_getElem?_getD, hleft]
    refine ⟨(List.prefix_append _ _).trans hpre, fun j k' hj hk' => ?_⟩
    rcases Nat.eq_or_lt_of_le hj with rfl | hj
    · obtain rfl : k = k' := Option.some.inj (hk.symm.trans hk')
      rw [← hgetD _ (Nat.lt_succ_self _), ← costNode_congr costs fun d hd => ?_, hc]
      · rw [List.getD_eq_getElem?_getD, List.getElem?_append_right (Nat.le_of_eq hlen), hlen,
          Nat.sub_self]
        rfl
      · have hd := q.child_lt _ k hk d hd
        rw [← hgetD d (Nat.lt_succ_of_lt hd), List.getD_eq_getElem?_getD,
          List.getD_eq_getElem?_getD, List.getElem?_append_left (hlen ▸ hd)]
    · exact hrest j k' hj hk'

/-- The collection pass never meets a node without a cover. -/
theorem collect_ne_invalidState {fuel : ℕ} {visited pending : List ℕ} {acc : List Text}
    (hp : Priced q costs) (hw : Walk q visited pending) (hall : ∀ i ∈ pending, costs.getD i 0 ≠ all)
    (hfuel : q.nodeCount < fuel + visited.length) :
    collect q.nodes costs fuel pending acc ≠ .error .invalidState := by
  induction fuel generalizing visited pending acc with
  | zero =>
    have := hw.length_le
    omega
  | succ fuel ih =>
    cases pending with
    | nil => rw [collect]; exact nofun
    | cons i pending =>
      obtain ⟨k, hk⟩ : ∃ k, q.nodes[i]? = some k :=
        ⟨_, List.getElem?_eq_getElem (hw.lt i (List.mem_append_right _ List.mem_cons_self))⟩
      have hcost := hp i k hk
      have hnot := hall i List.mem_cons_self
      have hvisited : q.nodeCount < fuel + (i :: visited).length := by
        rw [List.length_cons]
        omega
      have hpend : ∀ j ∈ pending, costs.getD j 0 ≠ all := fun j hj =>
        hall j (List.mem_cons_of_mem _ hj)
      -- go on with some children of the node, none of them priced as the universe
      have hgo : ∀ cs acc', cs.Sublist k.children → (∀ c ∈ cs, costs.getD c 0 ≠ all) →
          collect q.nodes costs fuel (cs ++ pending) acc' ≠ .error .invalidState := by
        intro cs acc' hcs hne
        refine ih (hw.visit hk hcs) (fun j hj => ?_) hvisited
        exact (List.mem_append.1 hj).elim (hne j) (hpend j)
      have hskip : ∀ acc', collect q.nodes costs fuel pending acc' ≠ .error .invalidState :=
        fun acc' => hgo [] acc' (List.nil_sublist _) fun c hc => absurd hc List.not_mem_nil
      rw [collect]
      by_cases h0 : costs.getD i 0 = 0
      · rw [if_pos h0]
        exact hskip acc
      rw [if_neg h0, List.getD_eq_getElem?_getD, hk, Option.getD_some]
      cases k with
      | none => exact absurd (Except.ok.inj hcost).symm h0
      | prefixed t => exact absurd (Except.ok.inj hcost).symm hnot
      | not c => exact absurd (Except.ok.inj hcost).symm hnot
      | term t => exact hskip _
      | phrase ts => exact hskip _
      | and l r =>
        have hmin : min (costs.getD l 0) (costs.getD r 0) = costs.getD i 0 := Except.ok.inj hcost
        refine hgo [_] acc (List.singleton_sublist.2 ?_) ?_
        · split_ifs <;> simp [Kind.children]
        · rintro c hc
          rw [List.mem_singleton.1 hc]
          split_ifs with hle
          · rwa [← hmin, Nat.min_eq_left hle] at hnot
          · rwa [← hmin, Nat.min_eq_right (Nat.le_of_not_le hle)] at hnot
      | or l r =>
        refine hgo [l, r] acc (List.Sublist.refl _) ?_
        have hor : costs.getD l 0 ≠ all ∧ costs.getD r 0 ≠ all := by
          by_contra hcon
          rw [costNode, if_pos (by tauto)] at hcost
          exact hnot (Except.ok.inj hcost).symm
        rintro c hc
        rcases List.mem_cons.1 hc with rfl | hc
        · exact hor.1
        · rw [List.mem_singleton.1 hc]
          exact hor.2

theorem vector_error {b : MemoryBudget} {count size : ℕ} {e : Error}
    (h : b.vector count size = .error e) : e = .budget := by
  unfold MemoryBudget.vector at h
  split_ifs at h
  cases h
  rfl

theorem costNode_error {e : Error} (h : costNode costs k = .error e) :
    e = .limit "candidate covers" := by
  cases k with
  | or l r =>
    simp only [costNode] at h
    split_ifs at h
    cases h
    rfl
  | _ => cases h

theorem costsFrom_error {e : Error} (h : costsFrom costs ks = .error e) :
    e = .limit "candidate covers" := by
  induction ks generalizing costs with
  | nil => cases h
  | cons k ks ih =>
    rcases error_of_bind h with h | ⟨c, -, h⟩
    · exact costNode_error h
    · exact ih h

/-- A failed build ran out of memory or into the bound on covers. -/
theorem build_error {z : Sizes} {memoryBytes : ℕ} {e : Error}
    (h : build z q memoryBytes = .error e) : e ≠ .invalidState := by
  rcases error_of_bind h with h | ⟨b, -, h⟩
  · rw [vector_error h]
    decide
  rcases error_of_bind h with h | ⟨costs, hcosts, h⟩
  · rw [costsFrom_error h]
    decide
  have hpriced : Priced q costs := fun i k hk =>
    (costsFrom_priced rfl rfl hcosts).2 i k (Nat.zero_le i) hk
  by_cases h0 : costs.getD q.root 0 = 0
  · rw [if_pos h0] at h
    cases h
  by_cases hall : costs.getD q.root 0 = all
  · rw [if_neg h0, if_pos hall] at h
    cases h
  rw [if_neg h0, if_neg hall] at h
  rcases error_of_bind h with h | ⟨b', -, h⟩
  · rw [vector_error h]
    decide
  rcases error_of_bind h with h | ⟨_, -, h⟩
  · rw [vector_error h]
    decide
  rcases error_of_bind h with h | ⟨ts, -, h⟩
  · rintro rfl
    refine collect_ne_invalidState hpriced (Walk.start q) ?_ (Nat.lt_succ_self _) h
    intro i hi
    rwa [List.mem_singleton.1 hi]
  · cases h

/-- What a cover promises: the empty one that no document is accepted, one of terms that every
accepted document has one of them; the planner finds no query inconsistent. -/
theorem build_cover_sound (z : Sizes) (q : Query) (memoryBytes : ℕ) :
    match build z q memoryBytes with
    | .ok .empty => ∀ d, oracle d q = false
    | .ok .universal => True
    | .ok (.terms ts) => ts.Pairwise (· < ·) ∧ ∀ d, oracle d q = true → ∃ t ∈ ts, t ∈ d
    | .error e => e ≠ .invalidState := by
  cases hb : build z q memoryBytes with
  | error e => exact build_error hb
  | ok plan =>
    obtain ⟨costs, hcosts, h⟩ := build_cases hb
    have hok := costsFrom_start hcosts
    rcases h with ⟨h0, rfl⟩ | rfl | ⟨ts, hts, rfl⟩
    · exact fun d => hok.false h0 d
    · trivial
    · refine ⟨directory_sorted ts, fun d ho => ?_⟩
      obtain ⟨t, ht, htd⟩ := collect_reaches hok hts (.inr ⟨q.root, List.mem_cons_self, ho⟩)
      exact ⟨t, mem_directory.2 ht, htd⟩

end CandidatePlan

end

end PinCore
