import Mathlib.Order.Bounds.Basic
import Mathlib.Logic.Relation
import PinCore.Scan.Answer

/-!
# Calls of `Plan.seek`

A plan is opened once and then asked again and again for the owner after the one it returned last.
`Plan.Denotes` gives the owners of a node from the posting lists of its terms; each call returns
the least one past its target.  The interpreter keeps its pending tasks in a buffer of one slot for
each node: every pending task belongs to another node, those further down to later ones.
-/

namespace PinCore

open Obs

/-! ### What a plan denotes -/

/-- The owners of a node: the postings of a term, intersections and unions. -/
inductive Plan.Denotes (nodes : List Node) (lists : Text → List OwnerRef) : ℕ → OwnerRef → Prop
  | term {i : ℕ} {text : Text} {c : Option ℕ} {r : OwnerRef}
      (h : nodes.getD i .empty = .term text c) (hr : r ∈ lists text) : Denotes nodes lists i r
  | and {i a b : ℕ} {r : OwnerRef} (h : nodes.getD i .empty = .and a b)
      (ha : Denotes nodes lists a r) (hb : Denotes nodes lists b r) : Denotes nodes lists i r
  | left {i a b : ℕ} {r : OwnerRef} (h : nodes.getD i .empty = .or a b)
      (ha : Denotes nodes lists a r) : Denotes nodes lists i r
  | right {i a b : ℕ} {r : OwnerRef} (h : nodes.getD i .empty = .or a b)
      (hb : Denotes nodes lists b r) : Denotes nodes lists i r

/-- At moment `t` the call with this target returns, for every fuel from some amount on. -/
def Plan.Seeks (s : Store) (p : Plan) (t : ℕ) (target value : Option OwnerRef) (p' : Plan)
    (t' : ℕ) : Prop :=
  ∃ n, ∀ fuel, n ≤ fuel → p.seek fuel target (fun _ => s) t = .ok ((value, p'), t')

/-- The states of a plan between calls, each call with the owner that the one before returned. -/
inductive Plan.Served (s : Store) (p₀ : Plan) (t₀ : ℕ) : Plan → ℕ → Option OwnerRef → Prop
  | opened : Served s p₀ t₀ p₀ t₀ none
  | next {p p' : Plan} {t t' : ℕ} {target : Option OwnerRef} {a : OwnerRef}
      (h : Served s p₀ t₀ p t target) (hseek : p.Seeks s t target (some a) p' t') :
      Served s p₀ t₀ p' t' (some a)

section

variable {s : Store} {p p' p₀ : Plan} {t t' t₀ i : ℕ} {target value : Option OwnerRef} {e : Expr}
  {R : ℕ → List OwnerRef} {lists : Text → List OwnerRef} {nodes : List Node} {r : OwnerRef}
  {m : MetaBody}

theorem term_mem_of_getD {text : Text} {c : Option ℕ} (h : nodes.getD i .empty = .term text c) :
    Node.term text c ∈ nodes := by
  rw [List.getD_eq_getElem?_getD] at h
  cases hi : nodes[i]? with
  | none => rw [hi] at h; cases h
  | some node =>
    rw [hi, Option.getD_some] at h
    exact h ▸ List.mem_of_getElem? hi

/-- The tree of a node denotes the owners of the node. -/
theorem Spans.denotes_iff (hs : Spans nodes i e)
    (hR : ∀ c text, Node.term text (some c) ∈ nodes → R c = lists text) :
    Plan.Denotes nodes lists i r ↔ r ∈ e.den R := by
  induction hs with
  | @term i text c hn =>
    have hlist : R c = lists text := hR c text (term_mem_of_getD hn)
    change _ ↔ r ∈ R c
    rw [hlist]
    refine ⟨fun hd => ?_, .term hn⟩
    cases hd with
    | term h hr => rw [hn, Node.term.injEq] at h; rwa [h.1]
    | and h => rw [hn] at h; cases h
    | left h => rw [hn] at h; cases h
    | right h => rw [hn] at h; cases h
  | @and i a b ea eb hn _ _ iha ihb =>
    change _ ↔ r ∈ ea.den R ∧ r ∈ eb.den R
    rw [← iha, ← ihb]
    refine ⟨fun hd => ?_, fun h => .and hn h.1 h.2⟩
    cases hd with
    | term h => rw [hn] at h; cases h
    | and h ha hb => rw [hn, Node.and.injEq] at h; rw [h.1, h.2]; exact ⟨ha, hb⟩
    | left h => rw [hn] at h; cases h
    | right h => rw [hn] at h; cases h
  | @or i a b ea eb hn _ _ iha ihb =>
    change _ ↔ r ∈ ea.den R ∨ r ∈ eb.den R
    rw [← iha, ← ihb]
    refine ⟨fun hd => ?_, fun h => h.elim (.left hn) (.right hn)⟩
    cases hd with
    | term h => rw [hn] at h; cases h
    | and h => rw [hn] at h; cases h
    | left h ha => rw [hn, Node.or.injEq] at h; rw [h.1]; exact .inl ha
    | right h hb => rw [hn, Node.or.injEq] at h; rw [h.2]; exact .inr hb

/-- What every call keeps: the tree of the plan, and of its denotation all that is past the
target. -/
structure Plan.Ready (s : Store) (e : Expr) (D : Set OwnerRef) (nodes : List Node) (root : ℕ)
    (p : Plan) (t : ℕ) (target : Option OwnerRef) : Prop where
  nodes : p.nodes = nodes
  root : p.root = root
  lt : ∀ c ∈ e.cursors, c < p.cursors.length
  known : ∀ q ∈ target, s.Known q
  hold : ∃ R, Hold (fun _ => s) s Set.univ t p.cursors R ∧
    e.den R ∩ past target true = D ∩ past target true

/-- One call on a plan that is ready. -/
theorem Plan.Ready.seek {D : Set OwnerRef} {root : ℕ} (hw : WF True s m) (hs : Spans nodes root e)
    (hd : e.cursors.Nodup) (h : Plan.Ready s e D nodes root p t target) :
    ∃ value p' t', p.Seeks s t target value p' t' ∧ Next Set.univ (D ∩ past target true) value ∧
      ∀ a ∈ value, Plan.Ready s e D nodes root p' t' (some a) := by
  obtain ⟨hn, hr, hlt, htarget, R, hold, hden⟩ := h
  have hH := History.constant hw
  obtain ⟨⟨value, p'⟩, t', -, ⟨R', hx, hnodes, hroot⟩, n, hfuel⟩ :=
    planSeek_settles hH (by rwa [hn, hr]) hd hlt hold htarget
  have hnext := hx.next
  rw [hden] at hnext
  refine ⟨value, p', t', ⟨n, hfuel⟩, hnext, fun a ha => ?_⟩
  have ha' : value = some a := ha
  subst ha'
  refine ⟨hnodes.trans hn, hroot.trans hr, hx.length ▸ hlt, ?_, R', hx.hold, ?_⟩
  · rintro _ ⟨⟩
    exact hx.known a rfl
  · -- nothing past the answer was dropped, and nothing was added
    have hsub : past (some a) true ⊆ past target true := fun x hx' =>
      mem_past_of_le hnext.1.2 (le_of_lt hx')
    ext x
    constructor
    · rintro ⟨hxe, hxp⟩
      have hmem : x ∈ e.den R ∩ past target true :=
        ⟨Expr.den_mono hx.dropped.sublist hxe, hsub hxp⟩
      rw [hden] at hmem
      exact ⟨hmem.1, hxp⟩
    · rintro ⟨hxD, hxp⟩
      have hmem : x ∈ D ∩ past target true := ⟨hxD, hsub hxp⟩
      rw [← hden] at hmem
      exact ⟨hx.dropped.keeps ⟨hmem, trivial⟩, hxp⟩

/-- Every state between calls is ready. -/
theorem Plan.Served.ready {D : Set OwnerRef} {root : ℕ} (hw : WF True s m)
    (hs : Spans nodes root e) (hd : e.cursors.Nodup)
    (h₀ : Plan.Ready s e D nodes root p₀ t₀ none) (h : Plan.Served s p₀ t₀ p t target) :
    Plan.Ready s e D nodes root p t target := by
  induction h with
  | opened => exact h₀
  | @next p p' t t' target a _ hseek ih =>
    obtain ⟨value, p'', t'', ⟨n, hn⟩, -, hready⟩ := ih.seek hw hs hd
    obtain ⟨n', hn'⟩ := hseek
    -- with enough fuel for both the call returns one value
    have heq := (hn (max n n') (le_max_left _ _)).symm.trans (hn' (max n n') (le_max_right _ _))
    simp only [Except.ok.injEq, Prod.mk.injEq] at heq
    obtain ⟨⟨rfl, rfl⟩, rfl⟩ := heq
    exact hready a rfl

end

/-! ### The pending tasks -/

/-- The state of the interpreter: the cursors, the pending tasks, top first, and the last value. -/
structure Plan.Config where
  cursors : List Cursor
  tasks : List Task
  value : Option OwnerRef

/-- One round of the interpreter: what it does with the task it popped, and the tasks it pushes. -/
def Plan.interpretTask (nodes : List Node) (fuel : ℕ) (cursors : List Cursor)
    (value : Option OwnerRef) : Task → Rd Plan.Config
  | .seek node target exclusive =>
    match nodes.getD node .empty with
    | .term _ cursor => do
      let (value, cursors) ← Plan.seekCursor fuel cursors cursor target exclusive
      return ⟨cursors, [], value⟩
    | .and left right => return ⟨cursors, [.seek left target exclusive, .andLeft node right], value⟩
    | .or left right =>
      return ⟨cursors, [.seek left target exclusive, .orLeft right target exclusive], value⟩
    | .empty => return ⟨cursors, [], none⟩
    | .universal => Obs.fail .invalidState
  | .andLeft node right =>
    match value with
    | some left => return ⟨cursors, [.seek right (some left) false, .andRight node left], value⟩
    | none => return ⟨cursors, [], value⟩
  | .andRight node left =>
    match value with
    | some right => do
      match ← Obs.ofExcept (compareOwner left right) with
      | .eq => return ⟨cursors, [], some left⟩
      | .lt => return ⟨cursors, [.seek node (some right) false], value⟩
      | .gt => Obs.fail .invalidState
    | none => return ⟨cursors, [], value⟩
  | .orLeft right target exclusive =>
    return ⟨cursors, [.seek right target exclusive, .orRight value], value⟩
  | .orRight left => do
    let value ← Obs.ofExcept (Plan.smaller left value)
    return ⟨cursors, [], value⟩

/-- The interpreter on the store passes from one state to another. -/
def Plan.Round (s : Store) (nodes : List Node) (c c' : Plan.Config) : Prop :=
  ∃ task rest fuel t t', c.tasks = task :: rest ∧
    ∃ d, Plan.interpretTask nodes fuel c.cursors c.value task (fun _ => s) t = .ok (d, t') ∧
      c' = { d with tasks := d.tasks ++ rest }

section

variable {s : Store} {nodes : List Node} {cursors cursors' : List Cursor} {tasks rest : List Task}
  {value value' : Option OwnerRef} {task : Task} {fuel n : ℕ} {c c' : Plan.Config}

/-- What the parts of a sequence return. -/
theorem bind_eq_ok {α β : Type} {x : Rd α} {f : α → Rd β} {h : ℕ → Store} {t t' : ℕ} {b : β}
    (hx : (x >>= f) h t = .ok (b, t')) : ∃ a t₁, x h t = .ok (a, t₁) ∧ f a h t₁ = .ok (b, t') := by
  change Obs.bind x f h t = _ at hx
  unfold Obs.bind at hx
  cases ha : x h t with
  | error e => rw [ha] at hx; cases hx
  | ok y => rw [ha] at hx; exact ⟨y.1, y.2, rfl, hx⟩

/-- The interpreter pops a task, treats it, pushes the tasks it yields and goes on. -/
theorem interpret_succ : Plan.interpret nodes (fuel + 1) cursors (task :: rest) value =
    (Plan.interpretTask nodes fuel cursors value task >>= fun d =>
      Plan.interpret nodes fuel d.cursors (d.tasks ++ rest) d.value) := by
  have hbind : ∀ {α β γ : Type} (x : Rd α) (f : α → Rd β) (g : β → Rd γ),
      (x >>= f) >>= g = x >>= fun a => f a >>= g := by
    intro α β γ x f g
    funext h t
    change Obs.bind (Obs.bind x f) g h t = Obs.bind x (fun a => Obs.bind (f a) g) h t
    simp only [Obs.bind]
    cases x h t <;> rfl
  cases task with
  | seek node target exclusive =>
    simp only [Plan.interpret, Plan.interpretTask]
    cases nodes.getD node .empty with
    | term text cursor => simp only [hbind]; rfl
    | _ => rfl
  | andLeft node right => cases value <;> rfl
  | andRight node left =>
    cases value with
    | none => rfl
    | some right =>
      simp only [Plan.interpret, Plan.interpretTask, hbind]
      refine congrArg _ (funext fun order => ?_)
      cases order <;> rfl
  | orLeft right target exclusive => rfl
  | orRight left =>
    simp only [Plan.interpret, Plan.interpretTask, hbind]
    rfl

/-- A run of the interpreter is a sequence of rounds. -/
theorem interpret_rounds {t t' : ℕ} (h : Plan.interpret nodes fuel cursors tasks value
    (fun _ => s) t =
    .ok ((value', cursors'), t')) :
    Relation.ReflTransGen (Plan.Round s nodes) ⟨cursors, tasks, value⟩ ⟨cursors', [], value'⟩ := by
  induction fuel generalizing cursors tasks value t with
  | zero =>
    cases tasks with
    | nil =>
      simp only [Plan.interpret] at h
      cases h
      exact .refl
    | cons task rest => cases h
  | succ fuel ih =>
    cases tasks with
    | nil =>
      simp only [Plan.interpret] at h
      cases h
      exact .refl
    | cons task rest =>
      rw [interpret_succ] at h
      change Obs.bind _ _ _ _ = _ at h
      unfold Obs.bind at h
      cases hd : Plan.interpretTask nodes fuel cursors value task (fun _ => s) t with
      | error e => rw [hd] at h; cases h
      | ok x =>
        obtain ⟨d, t₁⟩ := x
        rw [hd] at h
        exact .head ⟨task, rest, fuel, t, t₁, rfl, d, hd, rfl⟩ (ih h)

/-- Operands come before their operator. -/
def Ordered (nodes : List Node) : Prop :=
  ∀ i a b, nodes.getD i .empty = .and a b ∨ nodes.getD i .empty = .or a b → a < i ∧ b < i

/-- The node a pending task works for; that of a disjunction is not in the task. -/
def Task.For : Task → ℕ → Prop
  | seek node _ _, i => node = i
  | andLeft node right, i => node = i ∧ right < i
  | andRight node _, i => node = i
  | orLeft right _ _, i => right < i
  | orRight _, _ => True

/-- The pending tasks work for distinct nodes of the plan, those further down for later ones. -/
def Stacked (nodes : List Node) (tasks : List Task) : Prop :=
  ∃ is : List ℕ, List.Forall₂ Task.For tasks is ∧ is.Pairwise (· < ·) ∧ ∀ i ∈ is, i < nodes.length

theorem Stacked.length_le (h : Stacked nodes tasks) : tasks.length ≤ nodes.length := by
  obtain ⟨is, hfor, hsorted, hlt⟩ := h
  rw [hfor.length_eq]
  have hsub : is ⊆ List.range nodes.length := fun i hi => List.mem_range.2 (hlt i hi)
  have hnd : is.Nodup := hsorted.imp Nat.ne_of_lt
  have := (List.subperm_of_subset hnd hsub).length_le
  rwa [List.length_range] at this

/-- One round keeps the tasks stacked. -/
theorem Stacked.round (ho : Ordered nodes) (h : Stacked nodes c.tasks)
    (hr : Plan.Round s nodes c c') : Stacked nodes c'.tasks := by
  obtain ⟨task, rest, fuel, t, t', htasks, d, hd, rfl⟩ := hr
  obtain ⟨is, hfor, hsorted, hlt⟩ := h
  rw [htasks] at hfor
  cases hfor with
  | @cons _ i _ is htask hrest =>
    obtain ⟨hhead, htail⟩ := List.pairwise_cons.1 hsorted
    rw [List.forall_mem_cons] at hlt
    -- the popped task goes without a successor
    have hpop : Stacked nodes rest := ⟨is, hrest, htail, hlt.2⟩
    -- another task for the same node takes its place
    have hsame : ∀ x : Task, x.For i → Stacked nodes (x :: rest) := fun x hx =>
      ⟨i :: is, .cons hx hrest, hsorted, List.forall_mem_cons.2 hlt⟩
    -- or one for the node and one for an operand of it
    have hpush : ∀ (x y : Task) (k : ℕ), x.For k → y.For i → k < i →
        Stacked nodes (x :: y :: rest) := by
      intro x y k hx hy hk
      refine ⟨k :: i :: is, .cons hx (.cons hy hrest), List.pairwise_cons.2 ⟨?_, hsorted⟩, ?_⟩
      · rw [List.forall_mem_cons]
        exact ⟨hk, fun j hj => Nat.lt_trans hk (hhead j hj)⟩
      · rw [List.forall_mem_cons, List.forall_mem_cons]
        exact ⟨Nat.lt_trans hk hlt.1, hlt⟩
    cases task with
    | seek node target exclusive =>
      obtain rfl : node = i := htask
      simp only [Plan.interpretTask] at hd
      cases hn : nodes.getD node .empty with
      | term text cursor =>
        simp only [hn] at hd
        obtain ⟨x, _, -, hd⟩ := bind_eq_ok hd
        cases hd
        exact hpop
      | and a b =>
        simp only [hn] at hd
        cases hd
        obtain ⟨ha, hb⟩ := ho node a b (.inl hn)
        exact hpush _ _ a rfl ⟨rfl, hb⟩ ha
      | or a b =>
        simp only [hn] at hd
        cases hd
        obtain ⟨ha, hb⟩ := ho node a b (.inr hn)
        exact hpush _ _ a rfl hb ha
      | empty =>
        simp only [hn] at hd
        cases hd
        exact hpop
      | universal =>
        simp only [hn] at hd
        cases hd
    | andLeft node right =>
      obtain ⟨rfl, hright⟩ := htask
      simp only [Plan.interpretTask] at hd
      cases hv : c.value with
      | none => rw [hv] at hd; cases hd; exact hpop
      | some left => rw [hv] at hd; cases hd; exact hpush _ _ right rfl rfl hright
    | andRight node left =>
      obtain rfl : node = i := htask
      simp only [Plan.interpretTask] at hd
      cases hv : c.value with
      | none => rw [hv] at hd; cases hd; exact hpop
      | some right =>
        rw [hv] at hd
        obtain ⟨order, _, -, hd⟩ := bind_eq_ok hd
        cases order with
        | eq => cases hd; exact hpop
        | lt => cases hd; exact hsame _ rfl
        | gt => cases hd
    | orLeft right target exclusive =>
      simp only [Plan.interpretTask] at hd
      cases hd
      exact hpush _ _ right rfl trivial htask
    | orRight left =>
      simp only [Plan.interpretTask] at hd
      obtain ⟨x, _, -, hd⟩ := bind_eq_ok hd
      cases hd
      exact hpop

theorem Stacked.rounds (ho : Ordered nodes) (h : Stacked nodes c.tasks)
    (hr : Relation.ReflTransGen (Plan.Round s nodes) c c') : Stacked nodes c'.tasks := by
  induction hr with
  | refl => exact h
  | tail _ hstep ih => exact ih.round ho hstep

end

/-! ### The nodes of a built plan -/

/-- A node without its cursor. -/
def Node.plain : Node → Node
  | term text _ => .term text none
  | node => node

section

variable {nodes : List Node} {active : List Bool} {n : ℕ}

theorem assignCursors_plain : (Plan.assignCursors nodes active n).1.map Node.plain =
    nodes.map Node.plain := by
  induction nodes generalizing active n with
  | nil => rfl
  | cons node nodes ih =>
    by_cases h : ∃ text c, node = .term text c ∧ active.headD false = true
    · obtain ⟨text, c, rfl, hact⟩ := h
      rw [assignCursors_active hact, List.map_cons, List.map_cons, ih]
      rfl
    · rw [assignCursors_other fun text c hn => Bool.eq_false_iff.2 fun ha => h ⟨text, c, hn, ha⟩,
        List.map_cons, List.map_cons, ih]

/-- The constants of a built plan stand first, and operands before their operator. -/
theorem build_ordered {z : Sizes} {q : Query} {memoryBytes : ℕ} {p : Plan}
    (hb : Plan.build z q memoryBytes = .ok p) : p.nodes.getD emptyNode .empty = .empty ∧
      p.nodes.getD universalNode .empty = .universal ∧ Ordered p.nodes := by
  obtain ⟨hnodes, -, -⟩ := build_ok hb
  obtain ⟨leaf, hm⟩ := mapped_query q
  have hget : ∀ (i : ℕ) (node : Node), node.plain = node → (∀ text c, node ≠ .term text c) →
      (p.nodes[i]? = some node ↔
        (Plan.addNodes [.empty, .universal] [] q.nodes).1[i]? = some node) := by
    intro i node hplain hterm
    have hkey : ∀ x : Node, x.plain = node ↔ x = node := by
      intro x
      constructor
      · intro hx
        cases x with
        | term text c => exact absurd hx.symm (hterm text none)
        | _ => exact hx
      · rintro rfl
        exact hplain
    have hmap : ∀ xs : List Node, (xs.map Node.plain)[i]? = some node ↔ xs[i]? = some node := by
      intro xs
      rw [List.getElem?_map, Option.map_eq_some_iff]
      exact ⟨fun ⟨x, hx, hn⟩ => (hkey x).1 hn ▸ hx, fun hx => ⟨node, hx, hplain⟩⟩
    rw [← hmap, hnodes, assignCursors_plain, hmap]
  refine ⟨?_, ?_, fun i a b h => ?_⟩
  · rw [List.getD_eq_getElem?_getD, (hget emptyNode .empty rfl nofun).2 hm.arena.empty]
    rfl
  · rw [List.getD_eq_getElem?_getD, (hget universalNode .universal rfl nofun).2 hm.arena.universal]
    rfl
  · have hsome : ∀ node : Node, node ≠ .empty → p.nodes.getD i .empty = node →
        p.nodes[i]? = some node := by
      intro node hne hn
      rw [List.getD_eq_getElem?_getD] at hn
      cases hi : p.nodes[i]? with
      | none => rw [hi] at hn; exact absurd hn.symm hne
      | some x => rw [hi] at hn; rw [← hn]; rfl
    refine hm.arena.ordered i a b (h.imp (fun h => ?_) fun h => ?_)
    · exact (hget i (.and a b) rfl nofun).1 (hsome _ nofun h)
    · exact (hget i (.or a b) rfl nofun).1 (hsome _ nofun h)

end

end PinCore
