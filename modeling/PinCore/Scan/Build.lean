import Mathlib.Data.List.GetD
import Mathlib.Data.List.Induction
import PinCore.Scan.Interpret

/-!
# Building a plan

`Plan.build` turns the flat query tree into a flat tree of term cursors.  A plan node is the
empty node, the universe, or the root of a tree over term nodes; the trees of query nodes that
have no parent yet share no term node, so in the end every cursor stands at one leaf.
-/

namespace PinCore

/-! ### What a query asks of a document -/

/-- The necessary condition of one query node, given those of the nodes before it: prefixes and
negations hold of every document, a phrase of those with all its terms. -/
def coverNode (d : Document) (values : List Bool) : Kind → Bool
  | .none => false
  | .term t => decide (t ∈ d)
  | .prefixed _ => true
  | .not _ => true
  | .phrase ts => decide (ts ≠ [] ∧ ∀ t ∈ ts, t ∈ d)
  | .and l r => values.getD l false && values.getD r false
  | .or l r => values.getD l false || values.getD r false

/-- The necessary condition at all nodes in order. -/
def coverValues (d : Document) (nodes : List Kind) : List Bool :=
  nodes.foldl (fun values k => values ++ [coverNode d values k]) []

/-- The necessary condition that the plan of a query decides. -/
def covers (d : Document) (q : Query) : Bool := (coverValues d q.nodes).getD q.root false

section

variable {d : Document} {ks : List Kind} {k : Kind}

@[simp] theorem coverValues_concat :
    coverValues d (ks ++ [k]) = coverValues d ks ++ [coverNode d (coverValues d ks) k] := by
  simp only [coverValues, List.foldl_append, List.foldl_cons, List.foldl_nil]

@[simp] theorem length_coverValues : (coverValues d ks).length = ks.length := by
  induction ks using List.reverseRecOn with
  | nil => rfl
  | append_singleton ks k ih => rw [coverValues_concat, List.length_append, ih]; simp

end

/-! ### Trees of term nodes -/

/-- The tree of a plan node, with the term nodes at its leaves. -/
inductive Tree where
  | term (node : ℕ) (text : Text)
  | and (left right : Tree)
  | or (left right : Tree)

namespace Tree

/-- The cursors of a tree. -/
def leaves : Tree → List ℕ
  | term i _ => [i]
  | and l r => l.leaves ++ r.leaves
  | or l r => l.leaves ++ r.leaves

/-- The document satisfies the tree. -/
def Holds (d : Document) : Tree → Prop
  | term _ text => text ∈ d
  | and l r => l.Holds d ∧ r.Holds d
  | or l r => l.Holds d ∨ r.Holds d

end Tree

/-- Node `i` was built as the root of the tree. -/
inductive Built (nodes : List Node) : ℕ → Tree → Prop
  | term {i : ℕ} {text : Text} (h : nodes[i]? = some (.term text none)) :
      Built nodes i (.term i text)
  | and {i l r : ℕ} {tl tr : Tree} (h : nodes[i]? = some (.and l r)) (hl : Built nodes l tl)
      (hr : Built nodes r tr) : Built nodes i (.and tl tr)
  | or {i l r : ℕ} {tl tr : Tree} (h : nodes[i]? = some (.or l r)) (hl : Built nodes l tl)
      (hr : Built nodes r tr) : Built nodes i (.or tl tr)

section

variable {nodes more : List Node} {i l r : ℕ} {t t' tl tr : Tree} {d : Document}

theorem getElem?_lt {α : Type} {xs : List α} {i : ℕ} {a : α} (h : xs[i]? = some a) :
    i < xs.length :=
  (List.getElem?_eq_some_iff.1 h).1

theorem Built.lt (h : Built nodes i t) : i < nodes.length := by
  cases h <;> exact getElem?_lt ‹_›

theorem getElem?_append_of_some {α : Type} {xs ys : List α} {i : ℕ} {a : α} (h : xs[i]? = some a) :
    (xs ++ ys)[i]? = some a := by rw [List.getElem?_append_left (getElem?_lt h), h]

theorem Built.append (h : Built nodes i t) : Built (nodes ++ more) i t := by
  induction h with
  | term h => exact .term (getElem?_append_of_some h)
  | and h _ _ ihl ihr => exact .and (getElem?_append_of_some h) ihl ihr
  | or h _ _ ihl ihr => exact .or (getElem?_append_of_some h) ihl ihr

theorem Built.leaves_lt (h : Built nodes i t) : ∀ x ∈ t.leaves, x < nodes.length := by
  induction h with
  | term h =>
    intro x hx
    rw [Tree.leaves, List.mem_singleton] at hx
    exact hx ▸ getElem?_lt h
  | and _ _ _ ihl ihr => exact fun x hx => (List.mem_append.1 hx).elim (ihl x) (ihr x)
  | or _ _ _ ihl ihr => exact fun x hx => (List.mem_append.1 hx).elim (ihl x) (ihr x)

theorem Built.unique (h : Built nodes i t) (h' : Built nodes i t') : t = t' := by
  induction h generalizing t' with
  | term h =>
    cases h' with
    | term h' => rw [h, Option.some.injEq, Node.term.injEq] at h'; rw [h'.1]
    | and h' => rw [h] at h'; cases h'
    | or h' => rw [h] at h'; cases h'
  | and h _ _ ihl ihr =>
    cases h' with
    | term h' => rw [h] at h'; cases h'
    | and h' hl hr => rw [h] at h'; cases h'; rw [ihl hl, ihr hr]
    | or h' => rw [h] at h'; cases h'
  | or h _ _ ihl ihr =>
    cases h' with
    | term h' => rw [h] at h'; cases h'
    | and h' => rw [h] at h'; cases h'
    | or h' hl hr => rw [h] at h'; cases h'; rw [ihl hl, ihr hr]

/-- Equal nodes span trees of the same meaning. -/
theorem Built.holds_congr (h : Built nodes l tl) (h' : Built nodes r tr)
    (he : nodes[l]? = nodes[r]?) :
    tl.Holds d ↔ tr.Holds d := by
  cases h with
  | term h =>
    cases h' with
    | term h' =>
      rw [h, h', Option.some.injEq, Node.term.injEq] at he
      rw [Tree.Holds, Tree.Holds, he.1]
    | and h' => rw [h, h'] at he; cases he
    | or h' => rw [h, h'] at he; cases he
  | and h hl hr =>
    cases h' with
    | term h' => rw [h, h'] at he; cases he
    | and h' hl' hr' => rw [h, h'] at he; cases he; rw [hl.unique hl', hr.unique hr']
    | or h' => rw [h, h'] at he; cases he
  | or h hl hr =>
    cases h' with
    | term h' => rw [h, h'] at he; cases he
    | and h' => rw [h, h'] at he; cases he
    | or h' hl' hr' => rw [h, h'] at he; cases he; rw [hl.unique hl', hr.unique hr']

theorem Built.ne_constant (h : Built nodes i t) :
    nodes[i]? ≠ some .empty ∧ nodes[i]? ≠ some .universal := by
  cases h with
  | term h | and h | or h => rw [h]; exact ⟨(fun h => nomatch h), fun h => nomatch h⟩

end

/-! ### The meaning of a plan node -/

/-- The node arena: the two constants first, terms without a cursor, operands before operators. -/
structure Arena (nodes : List Node) : Prop where
  empty : nodes[0]? = some .empty
  universal : nodes[1]? = some .universal
  unnumbered : ∀ (i : ℕ) text c, nodes[i]? = some (.term text c) → c = none
  ordered : ∀ (i : ℕ) l r, nodes[i]? = some (.and l r) ∨ nodes[i]? = some (.or l r) → l < i ∧ r < i

/-- The plan node `i` stands for the condition `S`, over the term nodes `L`. -/
inductive Means (nodes : List Node) : ℕ → List ℕ → (Document → Prop) → Prop
  | empty {S : Document → Prop} (hS : ∀ d, ¬ S d) : Means nodes emptyNode [] S
  | universal {S : Document → Prop} (hS : ∀ d, S d) : Means nodes universalNode [] S
  | tree {i : ℕ} {t : Tree} {S : Document → Prop} (h : Built nodes i t) (hn : t.leaves.Nodup)
      (hS : ∀ d, t.Holds d ↔ S d) : Means nodes i t.leaves S

/-- The connective of a query node. -/
def connect (and : Bool) (p q : Prop) : Prop := if and then p ∧ q else p ∨ q

section

variable {nodes : List Node} {i l r : ℕ} {L Ll Lr : List ℕ} {S Sl Sr : Document → Prop}

theorem Means.mono {nodes' : List Node} (hp : nodes <+: nodes') (h : Means nodes i L S) :
    Means nodes' i L S := by
  obtain ⟨more, rfl⟩ := hp
  cases h with
  | empty hS => exact .empty hS
  | universal hS => exact .universal hS
  | tree h hn hS => exact .tree h.append hn hS

theorem Means.leaves_lt (h : Means nodes i L S) : ∀ x ∈ L, x < nodes.length := by
  cases h with
  | empty hS => exact fun x hx => absurd hx List.not_mem_nil
  | universal hS => exact fun x hx => absurd hx List.not_mem_nil
  | tree h hn hS => exact h.leaves_lt

theorem Means.congr {S' : Document → Prop} (h : Means nodes i L S) (hS' : ∀ d, S d ↔ S' d) :
    Means nodes i L S' := by
  cases h with
  | empty hS => exact .empty fun d hd => hS d ((hS' d).2 hd)
  | universal hS => exact .universal fun d => (hS' d).1 (hS d)
  | tree h hn hS => exact .tree h hn fun d => (hS d).trans (hS' d)

theorem Means.lt (ha : Arena nodes) (h : Means nodes i L S) : i < nodes.length := by
  cases h with
  | empty hS => exact getElem?_lt ha.empty
  | universal hS => exact getElem?_lt ha.universal
  | tree h hn hS => exact h.lt

theorem Means.of_empty (ha : Arena nodes) (h : Means nodes emptyNode L S) (d : Document) :
    ¬ S d := by
  generalize hi : emptyNode = i at h
  cases h with
  | empty hS => exact hS d
  | universal hS => cases hi
  | tree h hn hS => subst hi; exact absurd ha.empty h.ne_constant.1

theorem Means.of_universal (ha : Arena nodes) (h : Means nodes universalNode L S) (d : Document) :
    S d := by
  generalize hi : universalNode = i at h
  cases h with
  | empty hS => cases hi
  | universal hS => exact hS d
  | tree h hn hS => subst hi; exact absurd ha.universal h.ne_constant.2

/-- Every other node is the root of a tree. -/
theorem Means.tree_of_ne (h : Means nodes i L S) (he : i ≠ emptyNode) (hu : i ≠ universalNode) :
    ∃ t, Built nodes i t ∧ L = t.leaves ∧ t.leaves.Nodup ∧ ∀ d, t.Holds d ↔ S d := by
  cases h with
  | empty hS => exact absurd rfl he
  | universal hS => exact absurd rfl hu
  | tree h hn hS => exact ⟨_, h, rfl, hn, hS⟩

theorem Means.constant_iff (ha : Arena nodes) (h : Means nodes i L S) :
    (nodes[i]? = some .empty ↔ i = emptyNode) ∧
      (nodes[i]? = some .universal ↔ i = universalNode) := by
  have he := ha.empty
  have hu := ha.universal
  by_cases h0 : i = emptyNode
  · subst h0; simp [emptyNode, universalNode, he]
  by_cases h1 : i = universalNode
  · subst h1; simp [emptyNode, universalNode, hu]
  obtain ⟨t, hb, -⟩ := h.tree_of_ne h0 h1
  simp [h0, h1, hb.ne_constant]

/-- Equal nodes stand for the same condition. -/
theorem Means.iff_of_eq (ha : Arena nodes) (hl : Means nodes l Ll Sl) (hr : Means nodes r Lr Sr)
    (heq : nodes[l]? = nodes[r]?) (d : Document) : Sl d ↔ Sr d := by
  have hle := hl.constant_iff ha
  have hre := hr.constant_iff ha
  rw [heq] at hle
  by_cases h0 : l = emptyNode
  · obtain rfl : r = emptyNode := hre.1.1 (hle.1.2 h0)
    subst h0
    exact ⟨fun h => absurd h (hl.of_empty ha d), fun h => absurd h (hr.of_empty ha d)⟩
  by_cases h1 : l = universalNode
  · obtain rfl : r = universalNode := hre.2.1 (hle.2.2 h1)
    subst h1
    exact ⟨fun _ => hr.of_universal ha d, fun _ => hl.of_universal ha d⟩
  obtain ⟨tl, hbl, -, -, hSl⟩ := hl.tree_of_ne h0 h1
  obtain ⟨tr, hbr, -, -, hSr⟩ := hr.tree_of_ne (fun h => h0 (hle.1.1 (hre.1.2 h)))
    fun h => h1 (hle.2.1 (hre.2.2 h))
  rw [← hSl, ← hSr]
  exact hbl.holds_congr hbr heq

theorem Arena.append (ha : Arena nodes) {node : Node}
    (hu : ∀ text c, node = .term text c → c = none)
    (ho : ∀ l r, node = .and l r ∨ node = .or l r → l < nodes.length ∧ r < nodes.length) :
    Arena (nodes ++ [node]) where
  empty := getElem?_append_of_some ha.empty
  universal := getElem?_append_of_some ha.universal
  unnumbered i text c h := by
    rw [List.getElem?_append] at h
    split_ifs at h with hi
    · exact ha.unnumbered i text c h
    · rw [List.getElem?_singleton] at h
      split_ifs at h
      exact hu text c (Option.some.inj h)
  ordered i l r h := by
    rw [List.getElem?_append] at h
    split_ifs at h with hi
    · exact ha.ordered i l r h
    · rw [List.getElem?_singleton] at h
      split_ifs at h
      · have := ho l r (h.imp Option.some.inj Option.some.inj)
        omega
      · rcases h with h | h <;> cases h

/-- The new operator node stands for the connective of its operands. -/
theorem operator_means (and : Bool) (ha : Arena nodes) (hl : Means nodes l Ll Sl)
    (hr : Means nodes r Lr Sr) (hd : ∀ x ∈ Lr, x ∉ Ll) (hle : l ≠ emptyNode)
    (hlu : l ≠ universalNode) (hre : r ≠ emptyNode) (hru : r ≠ universalNode) :
    let node : Node := if and then .and l r else .or l r
    Arena (nodes ++ [node]) ∧ Means (nodes ++ [node]) nodes.length (Ll ++ Lr)
      fun d => connect and (Sl d) (Sr d) := by
  obtain ⟨tl, hbl, rfl, hnl, hSl⟩ := hl.tree_of_ne hle hlu
  obtain ⟨tr, hbr, rfl, hnr, hSr⟩ := hr.tree_of_ne hre hru
  have hnodup : (tl.leaves ++ tr.leaves).Nodup :=
    List.nodup_append.2 ⟨hnl, hnr, fun x hx y hy hxy => hd y hy (hxy ▸ hx)⟩
  have hlt : l < nodes.length ∧ r < nodes.length := ⟨hbl.lt, hbr.lt⟩
  cases and with
  | true =>
    refine ⟨ha.append (fun _ _ h => nomatch h) ?_, ?_⟩
    · rintro l' r' (h | h) <;> cases h
      exact hlt
    · refine .tree (t := .and tl tr) (.and (by simp) hbl.append hbr.append) hnodup fun d => ?_
      exact and_congr (hSl d) (hSr d)
  | false =>
    refine ⟨ha.append (fun _ _ h => nomatch h) ?_, ?_⟩
    · rintro l' r' (h | h) <;> cases h
      exact hlt
    · refine .tree (t := .or tl tr) (.or (by simp) hbl.append hbr.append) hnodup fun d => ?_
      exact or_congr (hSl d) (hSr d)

/-- What an addition to the arena yields: its nodes stay, and the new index stands for `S` over
leaves that satisfy `P`. -/
structure Adds (nodes : List Node) (P : ℕ → Prop) (S : Document → Prop) (x : List Node × ℕ) :
    Prop where
  kept : nodes <+: x.1
  arena : Arena x.1
  means : ∃ L, (∀ y ∈ L, P y) ∧ Means x.1 x.2 L S

theorem Adds.stay {P : ℕ → Prop} (ha : Arena nodes) (h : Means nodes i L S) (hP : ∀ y ∈ L, P y) :
    Adds nodes P S (nodes, i) := ⟨List.prefix_refl _, ha, L, hP, h⟩

/-- The simplified connective stands for the connective of the conditions. -/
theorem combine_adds (and : Bool) (ha : Arena nodes) (hl : Means nodes l Ll Sl)
    (hr : Means nodes r Lr Sr) (hd : ∀ x ∈ Lr, x ∉ Ll) :
    Adds nodes (fun x => x ∈ Ll ∨ x ∈ Lr) (fun d => connect and (Sl d) (Sr d))
      (Plan.combine nodes l r and) := by
  have hgl : nodes[l]? = some (nodes.getD l .empty) := by
    rw [List.getD_eq_getElem?_getD, List.getElem?_eq_getElem (hl.lt ha)]; rfl
  have hgr : nodes[r]? = some (nodes.getD r .empty) := by
    rw [List.getD_eq_getElem?_getD, List.getElem?_eq_getElem (hr.lt ha)]; rfl
  have hleft : (∀ d, Sl d ↔ connect and (Sl d) (Sr d)) →
      Adds nodes (fun x => x ∈ Ll ∨ x ∈ Lr) (fun d => connect and (Sl d) (Sr d)) (nodes, l) :=
    fun h => .stay ha (hl.congr h) fun x hx => .inl hx
  have hright : (∀ d, Sr d ↔ connect and (Sl d) (Sr d)) →
      Adds nodes (fun x => x ∈ Ll ∨ x ∈ Lr) (fun d => connect and (Sl d) (Sr d)) (nodes, r) :=
    fun h => .stay ha (hr.congr h) fun x hx => .inr hx
  unfold Plan.combine
  simp only
  by_cases heq : nodes.getD l .empty = nodes.getD r .empty
  · rw [if_pos heq]
    have hiff := hl.iff_of_eq ha hr (by rw [hgl, hgr, heq])
    exact hleft fun d => by cases and <;> simp [connect, hiff d]
  rw [if_neg heq]
  cases and with
  | true =>
    simp only [if_true]
    by_cases h1 : l = emptyNode ∨ r = emptyNode
    · rw [if_pos h1]
      refine .stay ha (L := []) (.empty fun d hd => ?_) fun x hx => absurd hx List.not_mem_nil
      rcases h1 with rfl | rfl
      · exact hl.of_empty ha d hd.1
      · exact hr.of_empty ha d hd.2
    rw [if_neg h1]
    by_cases h2 : l = universalNode
    · rw [if_pos h2]
      subst h2
      exact hright fun d => (and_iff_right (hl.of_universal ha d)).symm
    rw [if_neg h2]
    by_cases h3 : r = universalNode
    · rw [if_pos h3]
      subst h3
      exact hleft fun d => (and_iff_left (hr.of_universal ha d)).symm
    rw [if_neg h3]
    obtain ⟨harena, hmeans⟩ := operator_means true ha hl hr hd (fun h => h1 (.inl h)) h2
      (fun h => h1 (.inr h)) h3
    exact ⟨List.prefix_append _ _, harena, _, fun x hx => List.mem_append.1 hx, hmeans⟩
  | false =>
    simp only [Bool.false_eq_true, if_false]
    by_cases h1 : l = universalNode ∨ r = universalNode
    · rw [if_pos h1]
      refine .stay ha (L := []) (.universal fun d => ?_) fun x hx => absurd hx List.not_mem_nil
      rcases h1 with rfl | rfl
      · exact .inl (hl.of_universal ha d)
      · exact .inr (hr.of_universal ha d)
    rw [if_neg h1]
    by_cases h2 : l = emptyNode
    · rw [if_pos h2]
      subst h2
      exact hright fun d => (or_iff_right (hl.of_empty ha d)).symm
    rw [if_neg h2]
    by_cases h3 : r = emptyNode
    · rw [if_pos h3]
      subst h3
      exact hleft fun d => (or_iff_left (hr.of_empty ha d)).symm
    rw [if_neg h3]
    obtain ⟨harena, hmeans⟩ := operator_means false ha hl hr hd h2 (fun h => h1 (.inl h)) h3
      (fun h => h1 (.inr h))
    exact ⟨List.prefix_append _ _, harena, _, fun x hx => List.mem_append.1 hx, hmeans⟩

/-- A new term node. -/
theorem addTerm_adds (ha : Arena nodes) (text : Text) :
    Adds nodes (fun x => nodes.length ≤ x) (fun d => text ∈ d) (Plan.addTerm nodes text) := by
  refine ⟨List.prefix_append _ _, ha.append ?_ ?_, [nodes.length], ?_, ?_⟩
  · rintro _ _ ⟨⟩
    rfl
  · rintro _ _ (h | h) <;> cases h
  · exact fun y hy => Nat.le_of_eq (List.mem_singleton.1 hy).symm
  · have hget : (nodes ++ [Node.term text none])[nodes.length]? = some (.term text none) := by simp
    exact .tree (.term hget) (List.nodup_singleton _) fun d => Iff.rfl

/-- A phrase asks for all its terms. -/
theorem addPhrase_adds {result : ℕ} (ha : Arena nodes) (hm : Means nodes result L S)
    {base : ℕ} (hb : base ≤ nodes.length) (hL : ∀ x ∈ L, base ≤ x) (ts : List Text) :
    Adds nodes (fun x => base ≤ x) (fun d => S d ∧ ∀ t ∈ ts, t ∈ d)
      (Plan.addPhrase nodes result ts) := by
  induction ts generalizing nodes result L S with
  | nil =>
    refine .stay ha (L := L) ?_ hL
    exact hm.congr fun d => by simp
  | cons t ts ih =>
    obtain ⟨hk₁, ha₁, L₁, hL₁, hm₁⟩ := addTerm_adds ha t
    have hdisj : ∀ x ∈ L₁, x ∉ L := fun x hx hx' =>
      Nat.not_lt.2 (hL₁ x hx) (hm.leaves_lt x hx')
    obtain ⟨hk₂, ha₂, L₂, hL₂, hm₂⟩ := combine_adds true ha₁ (hm.mono hk₁) hm₁ hdisj
    have hbase : ∀ x ∈ L₂, base ≤ x := fun x hx =>
      (hL₂ x hx).elim (hL x) fun h => Nat.le_trans hb (hL₁ x h)
    have hk := hk₁.trans hk₂
    obtain ⟨hk₃, ha₃, L₃, hL₃, hm₃⟩ := ih ha₂ hm₂ (Nat.le_trans hb hk.length_le) hbase
    refine ⟨hk.trans hk₃, ha₃, L₃, hL₃, hm₃.congr fun d => ?_⟩
    simp [connect, and_assoc]

/-! ### The whole query -/

/-- The plan nodes of the query nodes `ks`: each stands for the necessary condition of its node,
and those without a parent so far share no leaf. -/
structure Mapped (ks : List Kind) (nodes : List Node) (mapped : List ℕ) (leaf : ℕ → List ℕ) :
    Prop where
  arena : Arena nodes
  length : mapped.length = ks.length
  means : ∀ j < ks.length, Means nodes (mapped.getD j 0) (leaf j)
    fun d => (coverValues d ks).getD j false = true
  disjoint : ∀ j k, j < ks.length → k < ks.length → j ≠ k → j ∉ ks.flatMap Kind.children →
    k ∉ ks.flatMap Kind.children → ∀ x ∈ leaf j, x ∉ leaf k

variable {ks : List Kind} {k : Kind} {mapped : List ℕ} {leaf : ℕ → List ℕ}

/-- One query node: its leaves are new or those of its operands. -/
theorem addNode_adds (h : Mapped ks nodes mapped leaf) (hlt : ∀ c ∈ k.children, c < ks.length)
    (hn : k.children.Nodup) (hu : ∀ c ∈ k.children, c ∉ ks.flatMap Kind.children) :
    Adds nodes (fun x => nodes.length ≤ x ∨ ∃ c ∈ k.children, x ∈ leaf c)
      (fun d => coverNode d (coverValues d ks) k = true) (Plan.addNode nodes mapped k) := by
  have hnil : ∀ x ∈ ([] : List ℕ), nodes.length ≤ x ∨ ∃ c ∈ k.children, x ∈ leaf c :=
    fun x hx => absurd hx List.not_mem_nil
  have hop : ∀ and l r, k.children = [l, r] →
      Adds nodes (fun x => nodes.length ≤ x ∨ ∃ c ∈ k.children, x ∈ leaf c)
        (fun d => connect and ((coverValues d ks).getD l false = true)
          ((coverValues d ks).getD r false = true))
        (Plan.combine nodes (mapped.getD l 0) (mapped.getD r 0) and) := by
    intro and l r hc
    rw [hc] at hlt hn hu ⊢
    have hl := hlt l List.mem_cons_self
    have hr := hlt r (List.mem_cons_of_mem _ List.mem_cons_self)
    have hlr : l ≠ r := fun h => (List.nodup_cons.1 hn).1 (h ▸ List.mem_cons_self)
    have hdisj :=
      h.disjoint r l hr hl (Ne.symm hlr) (hu r (List.mem_cons_of_mem _ List.mem_cons_self))
      (hu l List.mem_cons_self)
    obtain ⟨hk, ha, L, hL, hm⟩ := combine_adds and h.arena (h.means l hl) (h.means r hr) hdisj
    refine ⟨hk, ha, L, fun x hx => .inr ?_, hm⟩
    rcases hL x hx with hx | hx
    · exact ⟨l, List.mem_cons_self, hx⟩
    · exact ⟨r, List.mem_cons_of_mem _ List.mem_cons_self, hx⟩
  cases k with
  | none => exact .stay h.arena (.empty fun d => by simp [coverNode]) hnil
  | prefixed t => exact .stay h.arena (.universal fun d => rfl) hnil
  | not c => exact .stay h.arena (.universal fun d => rfl) hnil
  | term t =>
    obtain ⟨hk, ha, L, hL, hm⟩ := addTerm_adds h.arena t
    exact ⟨hk, ha, L, fun x hx => .inl (hL x hx), hm.congr fun d => by simp [coverNode]⟩
  | phrase ts =>
    have huniv : Means nodes universalNode [] fun _ => True := .universal fun _ => trivial
    obtain ⟨hk, ha, L, hL, hm⟩ := addPhrase_adds h.arena huniv (Nat.le_refl _)
      (fun x hx => absurd hx List.not_mem_nil) ts
    unfold Plan.addNode
    by_cases hts : ts = []
    · refine ⟨hk, ha, [], hnil, ?_⟩
      simp only [if_pos hts]
      exact .empty fun d => by simp [coverNode, hts]
    · refine ⟨hk, ha, L, fun x hx => .inl (hL x hx), ?_⟩
      simp only [if_neg hts]
      exact hm.congr fun d => by simp [coverNode, hts]
  | and l r =>
    obtain ⟨hk, ha, L, hL, hm⟩ := hop true l r rfl
    exact ⟨hk, ha, L, hL, hm.congr fun d => by simp [coverNode, connect]⟩
  | or l r =>
    obtain ⟨hk, ha, L, hL, hm⟩ := hop false l r rfl
    exact ⟨hk, ha, L, hL, hm.congr fun d => by simp [coverNode, connect]⟩

theorem Mapped.concat (h : Mapped ks nodes mapped leaf) (hlt : ∀ c ∈ k.children, c < ks.length)
    (hn : k.children.Nodup) (hu : ∀ c ∈ k.children, c ∉ ks.flatMap Kind.children) :
    ∃ leaf', Mapped (ks ++ [k]) (Plan.addNode nodes mapped k).1
      (mapped ++ [(Plan.addNode nodes mapped k).2]) leaf' := by
  obtain ⟨hk, ha, L, hL, hm⟩ := addNode_adds h hlt hn hu
  refine ⟨fun j => if j = ks.length then L else leaf j, ha, ?_, fun j hj => ?_, ?_⟩
  · rw [List.length_append, List.length_append, h.length]; rfl
  · rw [List.length_append, List.length_singleton] at hj
    by_cases hj' : j = ks.length
    · subst hj'
      simp only [if_true, coverValues_concat]
      rw [List.getD_append_right _ _ _ _ (Nat.le_of_eq h.length), h.length, Nat.sub_self]
      refine hm.congr fun d => ?_
      rw [List.getD_append_right _ _ _ _ (Nat.le_of_eq length_coverValues), length_coverValues,
        Nat.sub_self]
      rfl
    · have hj'' : j < ks.length := by omega
      simp only [if_neg hj', coverValues_concat]
      rw [List.getD_append _ _ _ _ (h.length ▸ hj'')]
      refine ((h.means j hj'').mono hk).congr fun d => ?_
      rw [List.getD_append _ _ _ _ (length_coverValues.symm ▸ hj'')]
  · -- an old node without a parent shares no leaf with the operands of the new one
    have hold : ∀ j, j < ks.length → j ∉ (ks ++ [k]).flatMap Kind.children →
        ∀ x ∈ L, x ∉ leaf j := by
      intro j hj hj' x hx hxj
      rw [List.flatMap_append, List.mem_append, not_or] at hj'
      rcases hL x hx with hge | ⟨c, hc, hxc⟩
      · exact Nat.not_lt.2 hge ((h.means j hj).leaves_lt x hxj)
      · have hne : c ≠ j := by
          rintro rfl
          exact hj'.2 (by simpa using hc)
        exact h.disjoint c j (hlt c hc) hj hne (hu c hc) hj'.1 x hxc hxj
    intro i j hi hj hij hui huj x hx
    rw [List.length_append, List.length_singleton] at hi hj
    have hsub : ∀ i, i ∉ (ks ++ [k]).flatMap Kind.children → i ∉ ks.flatMap Kind.children := by
      intro i hi hi'
      rw [List.flatMap_append, List.mem_append, not_or] at hi
      exact hi.1 hi'
    by_cases hi' : i = ks.length
    · have hj' : j ≠ ks.length := fun h => hij (hi'.trans h.symm)
      simp only [if_pos hi'] at hx
      simp only [if_neg hj']
      exact hold j (by omega) huj x hx
    · simp only [if_neg hi'] at hx
      by_cases hj' : j = ks.length
      · simp only [if_pos hj']
        exact fun hx' => hold i (by omega) hui x hx' hx
      · simp only [if_neg hj']
        exact h.disjoint i j (by omega) (by omega) hij (hsub i hui) (hsub j huj) x hx

theorem addNodes_mapped {more : List Kind} (h : Mapped ks nodes mapped leaf)
    (hlt : ∀ (i : ℕ) k, (ks ++ more)[i]? = some k → ∀ c ∈ k.children, c < i)
    (hn : ((ks ++ more).flatMap Kind.children).Nodup) :
    ∃ leaf', Mapped (ks ++ more) (Plan.addNodes nodes mapped more).1
      (Plan.addNodes nodes mapped more).2 leaf' := by
  induction more generalizing ks nodes mapped leaf with
  | nil => exact ⟨leaf, by simpa [Plan.addNodes] using h⟩
  | cons k more ih =>
    have hsplit : ks ++ k :: more = (ks ++ [k]) ++ more := by simp
    have hk : (ks ++ k :: more)[ks.length]? = some k := by simp
    have hn' := hn
    rw [List.flatMap_append, List.flatMap_cons] at hn'
    obtain ⟨-, hnk, hdisj⟩ := List.nodup_append.1 hn'
    obtain ⟨leaf₁, h₁⟩ := h.concat (hlt _ k hk) (List.nodup_append.1 hnk).1 fun c hc hc' =>
      hdisj c hc' c (List.mem_append_left _ hc) rfl
    rw [hsplit] at hlt hn ⊢
    exact ih h₁ hlt hn

/-- The arena before the first query node. -/
theorem mapped_nil : Mapped [] [.empty, .universal] [] fun _ => [] where
  arena := by
    refine ⟨rfl, rfl, fun i text c h => ?_, fun i l r h => ?_⟩
    · rcases i with _ | _ | i <;> simp at h
    · rcases i with _ | _ | i <;> simp at h
  length := rfl
  means j hj := absurd hj (Nat.not_lt_zero _)
  disjoint j k hj := absurd hj (Nat.not_lt_zero _)

theorem mapped_query (q : Query) :
    ∃ leaf, Mapped q.nodes (Plan.addNodes [.empty, .universal] [] q.nodes).1
      (Plan.addNodes [.empty, .universal] [] q.nodes).2 leaf :=
  addNodes_mapped mapped_nil q.child_lt q.child_nodup

end

/-! ### Active nodes -/

section

variable {nodes : List Node} {active : List Bool} {i l r k n : ℕ}

theorem getD_set_of_true (h : active.getD i false = true) :
    (active.set l true).getD i false = true := by
  rw [List.getD_eq_getElem?_getD, List.getElem?_set]
  split_ifs with hi hl
  · rfl
  · subst hi
    rw [List.getD_eq_getElem?_getD, List.getElem?_eq_none (Nat.not_lt.1 hl)] at h
    cases h
  · rwa [← List.getD_eq_getElem?_getD]

theorem getD_set_self (h : l < active.length) : (active.set l true).getD l false = true := by
  rw [List.getD_eq_getElem?_getD, List.getElem?_set_self h]; rfl

theorem getD_set_of_ne (h : i ≠ l) : (active.set l true).getD i false = active.getD i false := by
  rw [List.getD_eq_getElem?_getD, List.getElem?_set_ne (Ne.symm h), List.getD_eq_getElem?_getD]

/-- The node is an operator with these operands. -/
def Operator (nodes : List Node) (i l r : ℕ) : Prop :=
  nodes[i]? = some (.and l r) ∨ nodes[i]? = some (.or l r)

/-- The operands of every active node from `k` on are active. -/
def ClosedFrom (nodes : List Node) (active : List Bool) (k : ℕ) : Prop :=
  ∀ i l r, k ≤ i → active.getD i false = true → Operator nodes i l r →
    active.getD l false = true ∧ active.getD r false = true

theorem markNode_operator (ha : active.getD i false = true) (ho : Operator nodes i l r) :
    Plan.markNode nodes active i = (active.set l true).set r true := by
  rw [Plan.markNode, if_pos ha, List.getD_eq_getElem?_getD]
  rcases ho with ho | ho <;> rw [ho] <;> rfl

theorem markNode_other (h : ∀ l r, active.getD i false = true → ¬ Operator nodes i l r) :
    Plan.markNode nodes active i = active := by
  unfold Plan.markNode
  split_ifs with ha
  · rw [List.getD_eq_getElem?_getD]
    cases hn : nodes[i]? with
    | none => rfl
    | some node =>
      cases node with
      | and l r => exact absurd (.inl hn) (h l r ha)
      | or l r => exact absurd (.inr hn) (h l r ha)
      | _ => rfl
  · rfl

/-- One node of the descending pass. -/
theorem markNode_closed (harena : Arena nodes) (hlen : active.length = nodes.length)
    (hc : ClosedFrom nodes active (k + 1)) :
    ClosedFrom nodes (Plan.markNode nodes active k) k ∧
      (Plan.markNode nodes active k).length = nodes.length ∧
      ∀ i, active.getD i false = true → (Plan.markNode nodes active k).getD i false = true := by
  by_cases h : ∃ l r, active.getD k false = true ∧ Operator nodes k l r
  · obtain ⟨l, r, hk, ho⟩ := h
    have hkl : k < nodes.length := by rcases ho with ho | ho <;> exact getElem?_lt ho
    obtain ⟨hl, hr⟩ := harena.ordered k l r ho
    rw [markNode_operator hk ho]
    have hmono : ∀ i, active.getD i false = true →
        ((active.set l true).set r true).getD i false = true := fun i hi =>
      getD_set_of_true (getD_set_of_true hi)
    refine ⟨fun i l' r' hi hact ho' => ?_, by simp [hlen], hmono⟩
    rw [getD_set_of_ne (by omega), getD_set_of_ne (by omega)] at hact
    by_cases hik : i = k
    · subst hik
      have hlr : l' = l ∧ r' = r := by
        rcases ho with ho | ho <;> rcases ho' with ho' | ho' <;> rw [ho] at ho' <;> cases ho' <;>
          exact ⟨rfl, rfl⟩
      obtain ⟨rfl, rfl⟩ := hlr
      refine ⟨getD_set_of_true (getD_set_self (by omega)), getD_set_self ?_⟩
      rw [List.length_set]
      omega
    · obtain ⟨h₁, h₂⟩ := hc i l' r' (by omega) hact ho'
      exact ⟨hmono _ h₁, hmono _ h₂⟩
  · rw [markNode_other fun l r hk ho => h ⟨l, r, hk, ho⟩]
    refine ⟨fun i l r hi hact ho => ?_, hlen, fun _ hi => hi⟩
    by_cases hik : i = k
    · exact absurd ⟨l, r, hik ▸ hact, hik ▸ ho⟩ h
    · exact hc i l r (by omega) hact ho

theorem mark_closed (harena : Arena nodes) (hlen : active.length = nodes.length)
    (hc : ClosedFrom nodes active n) :
    let out := (List.range n).reverse.foldl (Plan.markNode nodes) active
    ClosedFrom nodes out 0 ∧ ∀ i, active.getD i false = true → out.getD i false = true := by
  induction n generalizing active with
  | zero => exact ⟨hc, fun _ hi => hi⟩
  | succ n ih =>
    obtain ⟨hc', hlen', hmono⟩ := markNode_closed harena hlen hc
    obtain ⟨hout, hmono'⟩ := ih hlen' hc'
    simp only [List.range_succ, List.reverse_append, List.reverse_singleton, List.singleton_append,
      List.foldl_cons]
    exact ⟨hout, fun i hi => hmono' i (hmono i hi)⟩

/-- The marks contain the root and are closed under operands. -/
theorem markActive_closed (harena : Arena nodes) {root : ℕ} (hroot : root < nodes.length) :
    ClosedFrom nodes (Plan.markActive nodes root) 0 ∧
      (Plan.markActive nodes root).getD root false = true := by
  have hlen : ((List.replicate nodes.length false).set root true).length = nodes.length := by simp
  have hinit : ClosedFrom nodes ((List.replicate nodes.length false).set root true)
      nodes.length := by
    intro i l r hi _ ho
    have : i < nodes.length := by rcases ho with ho | ho <;> exact getElem?_lt ho
    omega
  obtain ⟨hc, hm⟩ := mark_closed harena hlen hinit
  exact ⟨hc, hm root (getD_set_self (by simpa using hroot))⟩

/-! ### Numbering the cursors -/

/-- The cursor of a node, if it has one. -/
def Node.cursor? : Node → Option ℕ
  | term _ c => c
  | _ => none

theorem assignCursors_active {text : Text} {c : Option ℕ} (ha : active.headD false = true) :
    Plan.assignCursors (.term text c :: nodes) active n =
      (.term text (some n) :: (Plan.assignCursors nodes active.tail (n + 1)).1,
        (Plan.assignCursors nodes active.tail (n + 1)).2) := by
  simp only [Plan.assignCursors, ha]

theorem assignCursors_other {node : Node}
    (h : ∀ text c, node = .term text c → active.headD false = false) :
    Plan.assignCursors (node :: nodes) active n =
      (node :: (Plan.assignCursors nodes active.tail n).1,
        (Plan.assignCursors nodes active.tail n).2) := by
  cases node with
  | term text c => simp only [Plan.assignCursors, h text c rfl]
  | _ => simp only [Plan.assignCursors]

/-- The numbering keeps every node but gives the active terms the cursors from `n` on. -/
theorem assignCursors_spec (n : ℕ) (active : List Bool)
    (hu : ∀ text c, Node.term text c ∈ nodes → c = none) :
    let out := Plan.assignCursors nodes active n
    out.1.filterMap Node.cursor? = List.range' n (out.2 - n) ∧ n ≤ out.2 ∧
      out.1.length = nodes.length ∧
      (∀ (i l r : ℕ), Operator nodes i l r → out.1[i]? = nodes[i]?) ∧
      (∀ (i : ℕ) text, nodes[i]? = some (.term text none) → active.getD i false = true →
        ∃ c, out.1[i]? = some (.term text (some c))) := by
  induction nodes generalizing active n with
  | nil => simp [Plan.assignCursors, Operator]
  | cons node nodes ih =>
    have hu' : ∀ text c, Node.term text c ∈ nodes → c = none := fun text c hm =>
      hu text c (List.mem_cons_of_mem _ hm)
    have htail : ∀ i, active.tail.getD i false = active.getD (i + 1) false := fun i => by
      rw [List.getD_eq_getElem?_getD, List.getD_eq_getElem?_getD, List.getElem?_tail]
    have hhead : active.headD false = active.getD 0 false := by cases active <;> rfl
    by_cases h : ∃ text c, node = .term text c ∧ active.headD false = true
    · obtain ⟨text, c, rfl, hact⟩ := h
      obtain ⟨hr, hle, hlen, hop, hterm⟩ := ih (n + 1) active.tail hu'
      rw [assignCursors_active hact]
      refine ⟨?_, by omega, by simp [hlen], fun i l r ho => ?_, fun i text' ht ha => ?_⟩
      · have hcur : (Node.term text (some n)).cursor? = some n := rfl
        rw [List.filterMap_cons_some hcur, hr]
        obtain ⟨k, hk⟩ := Nat.exists_eq_add_of_le hle
        rw [hk, show n + 1 + k - n = k + 1 by omega, List.range'_succ,
          show n + 1 + k - (n + 1) = k by omega]
      · cases i with
        | zero => rcases ho with ho | ho <;> cases ho
        | succ i => exact hop i l r ho
      · cases i with
        | zero =>
          obtain ⟨rfl, -⟩ := Node.term.inj (Option.some.inj ht)
          exact ⟨n, rfl⟩
        | succ i => exact hterm i text' ht (by rw [htail]; exact ha)
    · have h' : ∀ text c, node = .term text c → active.headD false = false := fun text c hn =>
        Bool.eq_false_iff.2 fun ha => h ⟨text, c, hn, ha⟩
      obtain ⟨hr, hle, hlen, hop, hterm⟩ := ih n active.tail hu'
      rw [assignCursors_other h']
      refine ⟨?_, hle, by simp [hlen], fun i l r ho => ?_, fun i text' ht ha => ?_⟩
      · have hnone : node.cursor? = none := by
          cases node with
          | term text c => exact hu text c List.mem_cons_self
          | _ => rfl
        rw [List.filterMap_cons_none hnone, hr]
      · cases i with
        | zero => rfl
        | succ i => exact hop i l r ho
      · cases i with
        | zero =>
          obtain rfl : node = .term text' none := Option.some.inj ht
          have := h' text' none rfl
          rw [hhead, ha] at this
          cases this
        | succ i => exact hterm i text' ht (by rw [htail]; exact ha)

/-- Distinct nodes have distinct cursors. -/
theorem cursor?_injective {out : List Node} (hn : (out.filterMap Node.cursor?).Nodup) {i j c : ℕ}
    {a b : Node} (hi : out[i]? = some a) (hj : out[j]? = some b) (ha : a.cursor? = some c)
    (hb : b.cursor? = some c) : i = j := by
  induction out generalizing i j with
  | nil => cases hi
  | cons node out ih =>
    have hmem : ∀ {k : ℕ} {x : Node}, out[k]? = some x → x.cursor? = some c →
        c ∈ out.filterMap Node.cursor? := fun hk hx =>
      List.mem_filterMap.2 ⟨_, List.mem_of_getElem? hk, hx⟩
    have htail : (out.filterMap Node.cursor?).Nodup :=
      hn.sublist ((List.sublist_cons_self node out).filterMap _)
    have hhead : node.cursor? = some c → c ∉ out.filterMap Node.cursor? := fun hc => by
      rw [List.filterMap_cons_some hc] at hn
      exact (List.nodup_cons.1 hn).1
    cases i with
    | zero =>
      cases j with
      | zero => rfl
      | succ j =>
        obtain rfl : node = a := Option.some.inj hi
        exact absurd (hmem hj hb) (hhead ha)
    | succ i =>
      cases j with
      | zero =>
        obtain rfl : node = b := Option.some.inj hj
        exact absurd (hmem hi ha) (hhead hb)
      | succ j => rw [ih htail hi hj]

/-- The cursor trees of a tree over term nodes. -/
inductive Numbered (out : List Node) : Tree → Expr → Prop
  | term {i c : ℕ} {text : Text} (h : out[i]? = some (.term text (some c))) :
      Numbered out (.term i text) (.term c)
  | and {tl tr : Tree} {el er : Expr} (hl : Numbered out tl el) (hr : Numbered out tr er) :
      Numbered out (.and tl tr) (.and el er)
  | or {tl tr : Tree} {el er : Expr} (hl : Numbered out tl el) (hr : Numbered out tr er) :
      Numbered out (.or tl tr) (.or el er)

/-- An active tree spans the cursors that were assigned to its leaves. -/
theorem Built.spans {t : Tree} (h : Built nodes i t) {out : List Node}
    (hop : ∀ (i l r : ℕ), Operator nodes i l r → out[i]? = nodes[i]?)
    (hterm : ∀ (i : ℕ) text, nodes[i]? = some (.term text none) → active.getD i false = true →
      ∃ c, out[i]? = some (.term text (some c)))
    (hc : ClosedFrom nodes active 0) (ha : active.getD i false = true) :
    ∃ e, Spans out i e ∧ Numbered out t e := by
  induction h with
  | @term i text h =>
    obtain ⟨c, hc⟩ := hterm i text h ha
    have hget : out.getD i .empty = .term text (some c) := by
      rw [List.getD_eq_getElem?_getD, hc]; rfl
    exact ⟨.term c, .term hget, .term hc⟩
  | @and i l r tl tr h _ _ ihl ihr =>
    obtain ⟨hal, har⟩ := hc i l r (Nat.zero_le _) ha (.inl h)
    obtain ⟨el, hel, hnl⟩ := ihl hal
    obtain ⟨er, her, hnr⟩ := ihr har
    refine ⟨.and el er, .and ?_ hel her, .and hnl hnr⟩
    rw [List.getD_eq_getElem?_getD, hop i l r (.inl h), h]
    rfl
  | @or i l r tl tr h _ _ ihl ihr =>
    obtain ⟨hal, har⟩ := hc i l r (Nat.zero_le _) ha (.inr h)
    obtain ⟨el, hel, hnl⟩ := ihl hal
    obtain ⟨er, her, hnr⟩ := ihr har
    refine ⟨.or el er, .or ?_ hel her, .or hnl hnr⟩
    rw [List.getD_eq_getElem?_getD, hop i l r (.inr h), h]
    rfl

theorem Numbered.mem_cursors {out : List Node} {t : Tree} {e : Expr} (h : Numbered out t e) :
    ∀ c ∈ e.cursors, ∃ i ∈ t.leaves, ∃ text, out[i]? = some (.term text (some c)) := by
  induction h with
  | @term i c text h =>
    intro x hx
    obtain rfl := List.mem_singleton.1 hx
    exact ⟨i, List.mem_cons_self, text, h⟩
  | and _ _ ihl ihr =>
    intro c hc
    rcases List.mem_append.1 hc with hc | hc
    · obtain ⟨i, hi, h⟩ := ihl c hc
      exact ⟨i, List.mem_append_left _ hi, h⟩
    · obtain ⟨i, hi, h⟩ := ihr c hc
      exact ⟨i, List.mem_append_right _ hi, h⟩
  | or _ _ ihl ihr =>
    intro c hc
    rcases List.mem_append.1 hc with hc | hc
    · obtain ⟨i, hi, h⟩ := ihl c hc
      exact ⟨i, List.mem_append_left _ hi, h⟩
    · obtain ⟨i, hi, h⟩ := ihr c hc
      exact ⟨i, List.mem_append_right _ hi, h⟩

/-- Distinct leaves carry distinct cursors. -/
theorem Numbered.nodup {out : List Node} {t : Tree} {e : Expr} (h : Numbered out t e)
    (hn : (out.filterMap Node.cursor?).Nodup) (ht : t.leaves.Nodup) : e.cursors.Nodup := by
  have happ : ∀ {tl tr : Tree} {el er : Expr}, Numbered out tl el → Numbered out tr er →
      (tl.leaves ++ tr.leaves).Nodup → el.cursors.Nodup → er.cursors.Nodup →
      (el.cursors ++ er.cursors).Nodup := by
    intro tl tr el er hl hr ht hnl hnr
    refine List.nodup_append.2 ⟨hnl, hnr, ?_⟩
    rintro c hc _ hc' rfl
    obtain ⟨i, hi, text, hti⟩ := hl.mem_cursors c hc
    obtain ⟨j, hj, text', htj⟩ := hr.mem_cursors c hc'
    obtain rfl := cursor?_injective hn hti htj rfl rfl
    exact (List.nodup_append.1 ht).2.2 i hi i hj rfl
  induction h with
  | term h => exact List.nodup_singleton _
  | and hl hr ihl ihr =>
    obtain ⟨htl, htr, -⟩ := List.nodup_append.1 ht
    exact happ hl hr ht (ihl htl) (ihr htr)
  | or hl hr ihl ihr =>
    obtain ⟨htl, htr, -⟩ := List.nodup_append.1 ht
    exact happ hl hr ht (ihl htl) (ihr htr)

end

/-! ### The built plan -/

/-- What `Plan.build` yields for a query: a constant root, or a tree over cursors of its own that
stands for the necessary condition of the query. -/
inductive PlanFor (q : Query) (p : Plan) : Prop
  | empty (hr : p.root = emptyNode) (hS : ∀ d, covers d q = false)
  | universal (hr : p.root = universalNode) (hS : ∀ d, covers d q = true)
  | tree (t : Tree) (e : Expr) (hs : Spans p.nodes p.root e) (hn : Numbered p.nodes t e)
      (hd : e.cursors.Nodup) (he : ∀ c ∈ e.cursors, c < p.cursors.length)
      (hcur : ∃ n, p.cursors = List.replicate n .empty ∧
        p.nodes.filterMap Node.cursor? = List.range n)
      (hroot : p.root ≠ emptyNode ∧ p.root ≠ universalNode)
      (hS : ∀ d, t.Holds d ↔ covers d q = true)

theorem vector_error {b : MemoryBudget} {count size : ℕ} {e : Error}
    (h : b.vector count size = .error e) : e = .budget := by
  unfold MemoryBudget.vector at h
  split_ifs at h
  exact (Except.error.inj h).symm

theorem release_error {b : MemoryBudget} {bytes : ℕ} {e : Error}
    (h : b.release bytes = .error e) : e = .budget := by
  unfold MemoryBudget.release at h
  split_ifs at h
  exact (Except.error.inj h).symm

/-- A plan is refused for its memory only. -/
theorem build_error {z : Sizes} {q : Query} {memoryBytes : ℕ} {e : Error}
    (h : Plan.build z q memoryBytes = .error e) : e = .budget := by
  unfold Plan.build at h
  rcases error_of_bind h with h | ⟨b₁, -, h⟩
  · exact vector_error h
  rcases error_of_bind h with h | ⟨b₂, -, h⟩
  · exact vector_error h
  rcases error_of_bind h with h | ⟨b₃, -, h⟩
  · exact release_error h
  rcases error_of_bind h with h | ⟨b₄, -, h⟩
  · exact vector_error h
  rcases error_of_bind h with h | ⟨b₅, -, h⟩
  · exact vector_error h
  rcases error_of_bind h with h | ⟨b₆, -, h⟩
  · exact release_error h
  simp only at h
  split_ifs at h
  · cases h
  · rcases error_of_bind h with h | ⟨b₇, -, h⟩
    · exact vector_error h
    · cases h

/-- The nodes, the root and the cursors of a built plan. -/
theorem build_ok {z : Sizes} {q : Query} {memoryBytes : ℕ} {p : Plan}
    (h : Plan.build z q memoryBytes = .ok p) :
    let built := Plan.addNodes [.empty, .universal] [] q.nodes
    let root := built.2.getD q.root 0
    let out := Plan.assignCursors built.1 (Plan.markActive built.1 root) 0
    p.nodes = out.1 ∧ p.root = root ∧ p.cursors = List.replicate out.2 .empty := by
  unfold Plan.build at h
  obtain ⟨b₁, -, h⟩ := ok_of_bind h
  obtain ⟨b₂, -, h⟩ := ok_of_bind h
  obtain ⟨b₃, -, h⟩ := ok_of_bind h
  obtain ⟨b₄, -, h⟩ := ok_of_bind h
  obtain ⟨b₅, -, h⟩ := ok_of_bind h
  obtain ⟨b₆, -, h⟩ := ok_of_bind h
  simp only at h
  split_ifs at h
  · cases h
    exact ⟨rfl, rfl, rfl⟩
  · obtain ⟨b₇, -, h⟩ := ok_of_bind h
    cases h
    exact ⟨rfl, rfl, rfl⟩

theorem build_planFor {z : Sizes} {q : Query} {memoryBytes : ℕ} {p : Plan}
    (h : Plan.build z q memoryBytes = .ok p) : PlanFor q p := by
  obtain ⟨hnodes, hroot, hcursors⟩ := build_ok h
  obtain ⟨leaf, hm⟩ := mapped_query q
  have hlt : q.root < q.nodes.length := by have := q.root_last; omega
  have hmean := hm.means q.root hlt
  rw [← hroot] at hmean
  have hcov : ∀ d, ((coverValues d q.nodes).getD q.root false = true) = (covers d q = true) :=
    fun d => rfl
  by_cases he : p.root = emptyNode
  · rw [he] at hmean
    exact .empty he fun d => Bool.eq_false_iff.2 (hmean.of_empty hm.arena d)
  by_cases hu : p.root = universalNode
  · rw [hu] at hmean
    exact .universal hu fun d => hmean.of_universal hm.arena d
  obtain ⟨t, hb, -, hleaves, hS⟩ := hmean.tree_of_ne he hu
  have hun : ∀ text c, Node.term text c ∈ (Plan.addNodes [.empty, .universal] [] q.nodes).1 →
      c = none := fun text c hmem => by
    obtain ⟨i, hi⟩ := List.mem_iff_getElem?.1 hmem
    exact hm.arena.unnumbered i text c hi
  obtain ⟨hclosed, hact⟩ := markActive_closed hm.arena hb.lt
  rw [← hroot] at hnodes hcursors
  obtain ⟨hrange, -, -, hop, hterm⟩ := assignCursors_spec 0
    (Plan.markActive (Plan.addNodes [.empty, .universal] [] q.nodes).1 p.root) hun
  rw [← hnodes] at hrange hop hterm
  rw [Nat.sub_zero, ← List.range_eq_range'] at hrange
  obtain ⟨e, hspans, hnum⟩ := hb.spans hop hterm hclosed hact
  have hnd : (p.nodes.filterMap Node.cursor?).Nodup := by rw [hrange]; exact List.nodup_range
  refine .tree t e hspans hnum (hnum.nodup hnd hleaves) (fun c hc => ?_) ⟨_, hcursors, hrange⟩
    ⟨he, hu⟩ hS
  obtain ⟨i, -, text, hi⟩ := hnum.mem_cursors c hc
  have hmem : c ∈ p.nodes.filterMap Node.cursor? :=
    List.mem_filterMap.2 ⟨_, List.mem_of_getElem? hi, rfl⟩
  rw [hrange, List.mem_range] at hmem
  rwa [hcursors, List.length_replicate]

end PinCore
