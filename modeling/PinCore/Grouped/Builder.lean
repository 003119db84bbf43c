import PinCore.Grouped.Tree

/-!
# The catalog builder

Entries arrive in key order.  Each level of the tree under construction holds the entries of its
open node; a full node is written and its branch entry is added one level up.  `finish` closes what
is open, from the leaves up, until one node is left.
-/

namespace PinCore

open Prog

namespace Grouped

/-- The open node of each level, and the last key. -/
structure CatalogBuilder where
  levels : ℕ → List CatalogEntry
  previous : Option (ℕ × ℕ)

namespace CatalogBuilder

/-- A builder before the first entry. -/
def new : CatalogBuilder := ⟨fun _ => [], none⟩

/-- Replaces the open node of a level. -/
def set (b : CatalogBuilder) (level : ℕ) (es : List CatalogEntry) : CatalogBuilder :=
  { b with levels := fun l => if l = level then es else b.levels l }

/-- Writes the open node of a level. -/
def flush (x : GroupSnapshot) (level : ℕ) (b : CatalogBuilder) :
    Wr (CatalogEntry × GroupSnapshot × CatalogBuilder) := do
  let first ← Prog.ofExcept (entryAt (b.levels level) 0)
  let (child, x) ← append x fun block => groupNodePage block x.id level (b.levels level)
  return (branchEntry first.key child, x, b.set level [])

/-- Adds an entry to the open node at the lowest of the `left` highest levels. -/
def addFrom : ℕ → GroupSnapshot → CatalogBuilder → CatalogEntry →
    Wr (GroupSnapshot × CatalogBuilder)
  | 0, _, _, _ => Prog.fail (.limit "group catalog depth")
  | left + 1, x, b, entry => do
    let level := catalogLevels - (left + 1)
    let b := b.set level (b.levels level ++ [entry])
    if (b.levels level).length = catalogEntries then
      let (parent, x, b) ← flush x level b
      addFrom left x b parent
    else return (x, b)

/-- Adds an entry to a level. -/
def add (x : GroupSnapshot) (b : CatalogBuilder) (level : ℕ) (entry : CatalogEntry) :
    Wr (GroupSnapshot × CatalogBuilder) := addFrom (catalogLevels - level) x b entry

/-- Adds a leaf entry, which must be above the last one. -/
def push (x : GroupSnapshot) (b : CatalogBuilder) (entry : CatalogEntry) :
    Wr (GroupSnapshot × CatalogBuilder) :=
  if ∃ k ∈ b.previous, ¬ keyLt k entry.key then Prog.fail .invalidState
  else add x { b with previous := some entry.key } 0 entry

/-- A level above `level` is open. -/
def higher (b : CatalogBuilder) (level : ℕ) : Bool :=
  (List.range catalogLevels).any fun l => decide (level < l ∧ b.levels l ≠ [])

/-- The loop of `finish` over the `left` highest levels. -/
def finishFrom : ℕ → GroupSnapshot → CatalogBuilder → Wr GroupSnapshot
  | 0, x, _ => return x
  | left + 1, x, b => do
    let level := catalogLevels - (left + 1)
    if b.levels level = [] then finishFrom left x b
    else if 0 < level ∧ (b.levels level).length = 1 ∧ b.higher level = false then
      let entry ← Prog.ofExcept (entryAt (b.levels level) 0)
      let root ← Prog.ofExcept (child entry)
      return { x with root }
    else
      let higher := b.higher level
      let (parent, x, b) ← flush x level b
      if higher = false then
        let root ← Prog.ofExcept (child parent)
        return { x with root }
      else
        let (x, b) ← add x b (level + 1) parent
        finishFrom left x b

/-- Closes the tree; gives the segment with its root. -/
def finish (x : GroupSnapshot) (b : CatalogBuilder) : Wr GroupSnapshot :=
  finishFrom catalogLevels x b

/-! ### What is open -/

/-- The leaf entries under the open nodes of the `left` highest levels, the oldest first. -/
def Open (s : Store) (id : ℕ) (b : CatalogBuilder) : ℕ → List CatalogEntry → Prop
  | 0, es => es = []
  | left + 1, es => ∃ upper parts, Open s id b left upper ∧
      List.Forall₂ (Under s id (catalogLevels - (left + 1))) (b.levels (catalogLevels - (left + 1)))
        parts ∧ es = upper ++ parts.flatten

/-- The number of nodes that the open nodes of the `left` highest levels stand for. -/
def count (b : CatalogBuilder) : ℕ → ℕ
  | 0 => 0
  | left + 1 => (b.levels (catalogLevels - (left + 1))).length + catalogEntries * count b left

/-- No open node is full. -/
def Room (b : CatalogBuilder) : Prop :=
  ∀ level < catalogLevels, (b.levels level).length < catalogEntries

section

variable {s s' : Store} {id left level : ℕ} {b b' : CatalogBuilder} {es upper : List CatalogEntry}

@[simp] theorem set_same : (b.set level es).levels level = es := if_pos rfl

theorem set_other {l : ℕ} (h : l ≠ level) : (b.set level es).levels l = b.levels l := if_neg h

theorem Open.mono (hb : ∀ c g, s.body c = .grouped g → s'.body c = .grouped g)
    (h : Open s id b left es) : Open s' id b left es := by
  induction left generalizing es with
  | zero => exact h
  | succ left ih =>
    obtain ⟨upper, parts, hu, hp, hes⟩ := h
    exact ⟨upper, parts, ih hu, hp.imp fun _ _ => Under.mono hb, hes⟩

/-- The open nodes of the highest levels depend on these levels only. -/
theorem Open.congr (hl : ∀ l, catalogLevels - left ≤ l → b'.levels l = b.levels l)
    (h : Open s id b left es) : Open s id b' left es := by
  induction left generalizing es with
  | zero => exact h
  | succ left ih =>
    obtain ⟨upper, parts, hu, hp, hes⟩ := h
    refine ⟨upper, parts, ih (fun l hle => hl l ?_) hu, ?_, hes⟩
    · exact Nat.le_trans (Nat.sub_le_sub_left (Nat.le_succ left) _) hle
    · rw [hl _ (Nat.le_refl _)]
      exact hp

theorem count_congr (hl : ∀ l, catalogLevels - left ≤ l → b'.levels l = b.levels l) :
    b'.count left = b.count left := by
  induction left with
  | zero => rfl
  | succ left ih =>
    rw [count, count, hl _ (Nat.le_refl _), ih fun l hle => hl l ?_]
    exact Nat.le_trans (Nat.sub_le_sub_left (Nat.le_succ left) _) hle

end

/-! ### Writing a node -/

/-- Leaf entries that a catalog may hold. -/
def Entries (es : List CatalogEntry) : Prop :=
  KeySorted es ∧ ∀ e ∈ es, validKey e.key ∧ e.value.length = 64

section

variable {E : Error → Prop} {s s' : Store} {m : MetaBody} {x : GroupSnapshot} {level left block : ℕ}
  {b : CatalogBuilder} {es entries : List CatalogEntry} {parts : List (List CatalogEntry)}
  {e : CatalogEntry}

/-- What is written as the node of a level passes the page check. -/
theorem node_ok (hid : x.id ≠ 0) (hlevel : level < catalogLevels) (hne : entries ≠ [])
    (hlen : entries.length ≤ catalogEntries)
    (hp : List.Forall₂ (Under s x.id level) entries parts) (hv : Entries parts.flatten)
    (hfresh : (s.body block).kind ≠ .grouped) :
    (GroupBody.node x.id level entries).Ok block := by
  refine ⟨hid, Nat.le_of_lt_succ hlevel, hne, hlen, fun e he => ?_,
    forall₂_under_sorted hp hv.1, fun h0 e he => ?_⟩
  · obtain ⟨p, hp', hu⟩ := forall₂_mem_left hp he
    obtain ⟨f, fs, rfl, hf⟩ := hu.first
    obtain ⟨hkey, hval⟩ := hv.2 f (List.mem_flatten.2 ⟨_, hp', List.mem_cons_self⟩)
    refine ⟨hf ▸ hkey, ?_⟩
    cases level with
    | zero =>
      obtain ⟨rfl, -⟩ := List.cons.inj (show f :: fs = [e] from hu)
      exact hval
    | succ level =>
      obtain ⟨c, hc, -⟩ := hu.node
      exact (child_ok hc).2.2.2
  · obtain ⟨p, -, hu⟩ := forall₂_mem_left hp he
    obtain ⟨l, rfl⟩ := Nat.exists_eq_succ_of_ne_zero h0
    obtain ⟨c, hc, _, _, hn, -⟩ := hu.node
    obtain ⟨hcv, hcu, hdrop, -⟩ := child_ok hc
    rw [hcu]
    refine ⟨hcv, ?_, hdrop⟩
    -- the child is a page of the segment, the block was not
    rintro rfl
    exact hfresh (by rw [hn]; rfl)

theorem entryAt_zero (hne : entries ≠ []) :
    ∃ f, entryAt entries 0 = .ok f ∧ entries.head? = some f := by
  obtain ⟨f, fs, rfl⟩ := List.exists_cons_of_ne_nil hne
  exact ⟨f, rfl, rfl⟩

/-- Writing the open node of a level: its entries are then under one branch entry. -/
theorem flush_spec (h : Appending s x m) (hE : E .host) (hlevel : level < catalogLevels)
    (hne : b.levels level ≠ []) (hlen : (b.levels level).length ≤ catalogEntries)
    (hp : List.Forall₂ (Under s x.id level) (b.levels level) parts) (hv : Entries parts.flatten) :
    Spec E (fun s' => ∃ m', Beside s s' m m' ∧ Retains s s' m m') s (flush x level b) fun y s' =>
      ∃ m', Grown s s' x y.2.1 m m' ∧ y.2.2 = b.set level [] ∧ child y.1 = .ok y.2.1.tail ∧
        Under s' x.id (level + 1) y.1 parts.flatten := by
  obtain ⟨f, hf, hhead⟩ := entryAt_zero hne
  refine Spec.ofExcept_bind hf ?_
  refine (append_spec h hE fun block hb hfresh => .inr ?_).bind ?_
  · have hok : (GroupBody.node x.id level (b.levels level)).Ok block :=
      node_ok h.id hlevel hne hlen hp hv hfresh
    refine ⟨_, ?_, rfl, groupPage_valid hb hok⟩
    rw [groupNodePage_eq hb, if_neg, if_pos hok]
    rintro (hl | hl | hl)
    · exact absurd hlevel (Nat.not_lt.2 hl)
    · exact hne hl
    · exact absurd hlen (Nat.not_le.2 hl)
  · rintro ⟨block, x'⟩ s' ⟨g, m', hg, ha⟩
    have ha : Appended s s' x x' m m' block g := ha
    have hg : groupNodePage block x.id level (b.levels level) = .ok (groupPage block g) := hg
    have htail : x'.tail = block := congrArg GroupSnapshot.tail ha.snapshot
    have hgroup := ha.grown h
    have hkind : (s'.body block).kind ≠ .zero := by rw [ha.body]; rintro ⟨⟩
    have hlt := ha.appending.segmented.pages.lt_blocks hkind
    have hle := ha.appending.segmented.pages.le
    have hchild : child (branchEntry f.key block) = .ok block :=
      child_branchEntry ha.block.1 (Nat.lt_of_lt_of_le hlt hle)
    have hbody : s'.body block = .grouped (.node x.id level (b.levels level)) := by
      rw [groupNodePage_eq ha.block] at hg
      split_ifs at hg
      have := congrArg Page.body (Except.ok.inj hg)
      rw [ha.body]
      exact this.symm
    refine Spec.pure ⟨m', hgroup, rfl, by rw [htail]; exact hchild, block, _, parts, hchild, hbody,
      hp.imp fun _ _ => Under.mono hgroup.body, rfl, ?_⟩
    -- the first entry of the node has the first key
    obtain ⟨f', fs, hfs⟩ := List.exists_cons_of_ne_nil hne
    rw [hfs] at hp hhead
    cases hp with
    | cons hu _ =>
      obtain rfl : f' = f := Option.some.inj hhead
      obtain ⟨a, as, rfl, ha'⟩ := hu.first
      exact congrArg some ha'

/-! ### Adding an entry -/

/-- The lowest open node of the `left` highest levels ends with the last page of the segment. -/
def Tip (b : CatalogBuilder) (x : GroupSnapshot) (left : ℕ) : Prop :=
  ∀ level, catalogLevels - left ≤ level → 0 < level → level < catalogLevels → b.levels level ≠ [] →
    (∀ l, catalogLevels - left ≤ l → l < level → b.levels l = []) →
    ∃ e, (b.levels level).getLast? = some e ∧ child e = .ok x.tail

/-- What adding to the `left` highest levels leaves: one node more, all other levels alone. -/
structure Added (s' : Store) (x x' : GroupSnapshot) (b b' : CatalogBuilder) (left : ℕ)
    (es : List CatalogEntry) : Prop where
  opened : Open s' x.id b' left es
  room : ∀ l < catalogLevels, catalogLevels - left ≤ l → (b'.levels l).length < catalogEntries
  count : b'.count left = b.count left + 1
  other : ∀ l < catalogLevels - left, b'.levels l = b.levels l
  previous : b'.previous = b.previous
  tip : b'.Tip x' left

/-- The entry stays in the open node of the level. -/
theorem Added.pushed {level : ℕ} {parts : List (List CatalogEntry)} {upper p : List CatalogEntry}
    (hlevel : level = catalogLevels - (left + 1)) (hleft : left + 1 ≤ catalogLevels)
    (hroom : ∀ l < catalogLevels, level ≤ l → (b.levels l).length < catalogEntries)
    (hupper : Open s x.id b left upper)
    (hparts : List.Forall₂ (Under s x.id level) (b.levels level ++ [e]) (parts ++ [p]))
    (htip : 0 < level → child e = .ok x.tail)
    (hlen : (b.levels level ++ [e]).length < catalogEntries) :
    Added s x x b (b.set level (b.levels level ++ [e])) (left + 1)
      (upper ++ parts.flatten ++ p) := by
  refine ⟨?_, fun l hl hle => ?_, ?_, fun l hl => ?_, rfl, ?_⟩
  · refine ⟨upper, parts ++ [p], hupper.congr fun l hle => set_other (by omega), ?_, ?_⟩
    · rw [← hlevel, set_same]
      exact hparts
    · rw [List.flatten_append, List.flatten_singleton, List.append_assoc]
  · by_cases heq : l = level
    · rw [heq, set_same]
      exact hlen
    · rw [set_other heq]
      exact hroom l hl (by omega)
  · rw [CatalogBuilder.count, CatalogBuilder.count, ← hlevel, set_same, List.length_append,
      List.length_singleton, count_congr (b := b) fun l hle => set_other (by omega)]
    omega
  · exact set_other (by omega)
  · intro l hle h0 hl hne hempty
    by_cases heq : l = level
    · subst heq
      refine ⟨e, ?_, htip h0⟩
      rw [set_same, List.getLast?_concat]
    · -- the level just written is open
      have := hempty level (by omega) (by omega)
      rw [set_same] at this
      exact absurd this (by simp)

/-- The node of the level was full: it is written, and its parent is added above. -/
theorem Added.flushed {s' : Store} {x₁ x' : GroupSnapshot} {b₁ b' : CatalogBuilder} {level : ℕ}
    {es : List CatalogEntry} (hlevel : level = catalogLevels - (left + 1))
    (hleft : left + 1 ≤ catalogLevels) (hid : x₁.id = x.id)
    (hlevels : ∀ l, l ≠ level → b₁.levels l = b.levels l) (hlow : b₁.levels level = [])
    (hprev : b₁.previous = b.previous) (hfull : (b.levels level).length + 1 = catalogEntries)
    (ha : Added s' x₁ x' b₁ b' left es) : Added s' x x' b b' (left + 1) es := by
  have hempty : b'.levels level = [] := by
    rw [ha.other level (by omega), hlow]
  have hcount : b₁.count left = b.count left := count_congr fun l hle => hlevels l (by omega)
  refine ⟨?_, fun l hl hle => ?_, ?_, fun l hl => ?_, ha.previous.trans hprev, ?_⟩
  · refine ⟨es, [], ?_, ?_, ?_⟩
    · rw [← hid]
      exact ha.opened
    · rw [← hlevel, hempty]
      exact .nil
    · rw [List.flatten_nil, List.append_nil]
  · by_cases heq : l = level
    · rw [heq, hempty]
      decide
    · exact ha.room l hl (by omega)
  · rw [CatalogBuilder.count, CatalogBuilder.count, ← hlevel, hempty, ha.count, hcount,
      List.length_nil, Nat.mul_add]
    omega
  · rw [ha.other l (by omega), hlevels l (by omega)]
  · intro l hle h0 hl hne hbelow
    have hll : l ≠ level := by
      rintro rfl
      exact hne hempty
    exact ha.tip l (by omega) h0 hl hne fun k hk => hbelow k (by omega)

theorem addFrom_spec (h : Appending s x m) (hE : E .host) (hleft : left ≤ catalogLevels)
    (hroom : ∀ l < catalogLevels, catalogLevels - left ≤ l → (b.levels l).length < catalogEntries)
    (ho : Open s x.id b left es) {p : List CatalogEntry}
    (hu : Under s x.id (catalogLevels - left) e p) (hv : Entries (es ++ p))
    (htip : 0 < catalogLevels - left → child e = .ok x.tail)
    (hdeep : catalogEntries ^ left ≤ b.count left + 1 → E (.limit "group catalog depth")) :
    Spec E (fun s' => ∃ m', Beside s s' m m' ∧ Retains s s' m m') s (addFrom left x b e) fun y s' =>
      ∃ m', Grown s s' x y.1 m m' ∧ Added s' x y.1 b y.2 left (es ++ p) := by
  induction left generalizing s x m b e es p with
  | zero =>
    exact ⟨fun _ hs => absurd hs List.not_mem_nil, hdeep (Nat.le_add_left _ _)⟩
  | succ left ih =>
    obtain ⟨upper, parts, hupper, hparts, rfl⟩ := ho
    obtain ⟨level, hlevel⟩ : ∃ level, level = catalogLevels - (left + 1) := ⟨_, rfl⟩
    have hnext : catalogLevels - left = level + 1 := by omega
    have hlt : level < catalogLevels := by omega
    rw [← hlevel] at hparts hu htip hroom
    have hroom' := hroom level hlt (Nat.le_refl _)
    have hparts' : List.Forall₂ (Under s x.id level) (b.levels level ++ [e]) (parts ++ [p]) :=
      List.rel_append hparts (.cons hu .nil)
    have hflat : (parts ++ [p]).flatten = parts.flatten ++ p := by
      rw [List.flatten_append, List.flatten_singleton]
    have hv' : Entries (parts ++ [p]).flatten := by
      rw [hflat]
      rw [List.append_assoc] at hv
      exact ⟨(List.pairwise_append.1 hv.1).2.1, fun f hf => hv.2 f (List.mem_append_right _ hf)⟩
    have hlen : (b.levels level ++ [e]).length = (b.levels level).length + 1 :=
      List.length_append
    change Spec E _ s (do
      let b := b.set (catalogLevels - (left + 1)) (b.levels (catalogLevels - (left + 1)) ++ [e])
      if (b.levels (catalogLevels - (left + 1))).length = catalogEntries then
        let (parent, x, b) ← flush x (catalogLevels - (left + 1)) b
        addFrom left x b parent
      else return (x, b)) _
    rw [← hlevel]
    dsimp only
    rw [set_same]
    by_cases hfull : (b.levels level ++ [e]).length = catalogEntries
    · -- the full node is written, and its parent goes to the level above
      rw [if_pos hfull]
      have hflush := flush_spec (b := b.set level (b.levels level ++ [e])) h hE hlt
        (by rw [set_same]; exact fun hn => absurd hn (by simp))
        (by rw [set_same]; exact Nat.le_of_eq hfull) (by rw [set_same]; exact hparts') hv'
      refine hflush.bind ?_
      rintro ⟨parent, x₁, b₁⟩ s₁ ⟨m₁, hg, hb₁, hchild, hunder⟩
      have hg : Grown s s₁ x x₁ m m₁ := hg
      change b₁ = (b.set level (b.levels level ++ [e])).set level [] at hb₁
      have hlevels : ∀ l, l ≠ level → b₁.levels l = b.levels l := fun l hl => by
        rw [hb₁, set_other hl, set_other hl]
      have hcount : b₁.count left = b.count left := count_congr fun l hle => hlevels l (by omega)
      have hflat' : upper ++ (parts ++ [p]).flatten = upper ++ parts.flatten ++ p := by
        rw [hflat, List.append_assoc]
      refine (ih hg.appending (Nat.le_of_succ_le hleft) (fun l hl hle => ?_)
        (by rw [hg.id]; exact (hupper.congr fun l hle => hlevels l (by omega)).mono hg.body)
        (by rw [hnext, hg.id]; exact hunder) (by rw [hflat']; exact hv) (fun _ => hchild)
        fun hd => hdeep ?_).mono ?_ ?_
      · rw [hlevels l (by omega)]
        exact hroom l hl (by omega)
      · rw [hcount] at hd
        rw [count, ← hlevel, Nat.pow_succ, Nat.mul_comm _ catalogEntries]
        have := Nat.mul_le_mul_left catalogEntries hd
        rw [Nat.mul_add, Nat.mul_one] at this
        omega
      · rintro s' ⟨m', hb, hr⟩
        exact ⟨m', hg.beside.trans hb, hg.retains.trans hr⟩
      · rintro ⟨x', b'⟩ s' ⟨m', hg', ha⟩
        rw [hflat'] at ha
        exact ⟨m', hg.trans hg', ha.flushed hlevel hleft hg.id hlevels (by rw [hb₁, set_same])
          (by rw [hb₁]; rfl) (hlen.symm.trans hfull)⟩
    · rw [if_neg hfull]
      exact Spec.pure ⟨m, h.grown, .pushed hlevel hleft hroom hupper hparts' htip (by omega)⟩

/-! ### Pushing entries -/

/-- The builder has taken the entries `es`. -/
structure Collects (s : Store) (x : GroupSnapshot) (b : CatalogBuilder) (es : List CatalogEntry) :
    Prop where
  opened : Open s x.id b catalogLevels es
  room : b.Room
  entries : Entries es
  count : b.count catalogLevels = es.length
  previous : b.previous = es.getLast?.map (·.key)

theorem open_nil (hl : ∀ l, b.levels l = []) : Open s x.id b left [] := by
  induction left with
  | zero => rfl
  | succ left ih => exact ⟨[], [], ih, by rw [hl]; exact .nil, rfl⟩

theorem count_nil (hl : ∀ l, b.levels l = []) : b.count left = 0 := by
  induction left with
  | zero => rfl
  | succ left ih => rw [count, hl, ih]; rfl

theorem new_collects : Collects s x .new [] where
  opened := open_nil fun _ => rfl
  room _ _ := by
    change 0 < catalogEntries
    decide
  entries := ⟨.nil, fun _ he => absurd he List.not_mem_nil⟩
  count := count_nil fun _ => rfl
  previous := rfl

theorem new_tip : (CatalogBuilder.new).Tip x left := fun _ _ _ _ hne => absurd rfl hne

theorem Collects.mono {x' : GroupSnapshot} (hb : ∀ c g, s.body c = .grouped g →
    s'.body c = .grouped g)
    (hx : x'.id = x.id) (h : Collects s x b es) : Collects s' x' b es :=
  ⟨by rw [hx]; exact h.opened.mono hb, h.room, h.entries, h.count, h.previous⟩

theorem entries_concat (h : Entries es) (hkey : ∀ k ∈ es.getLast?.map (·.key), keyLt k e.key)
    (hval : validKey e.key ∧ e.value.length = 64) : Entries (es ++ [e]) := by
  refine ⟨List.pairwise_append.2 ⟨h.1, List.pairwise_singleton _ _, fun a ha c hc => ?_⟩,
    fun f hf => ?_⟩
  · rw [List.mem_singleton.1 hc]
    have hne := List.ne_nil_of_mem ha
    have hlast := hkey (es.getLast hne).key (by rw [List.getLast?_eq_some_getLast hne]; rfl)
    rw [← List.dropLast_append_getLast hne] at ha
    rcases List.mem_append.1 ha with ha | ha
    · have hs := h.1
      rw [← List.dropLast_append_getLast hne] at hs
      exact keyLt_trans ((List.pairwise_append.1 hs).2.2 a ha _ (List.mem_singleton_self _)) hlast
    · rw [List.mem_singleton.1 ha]
      exact hlast
  · rcases List.mem_append.1 hf with hf | hf
    · exact h.2 f hf
    · rw [List.mem_singleton.1 hf]
      exact hval

/-- Pushing the next entry: it is under the open nodes behind the entries before it. -/
theorem push_spec (h : Appending s x m) (hE : E .host) (hc : Collects s x b es)
    (hkey : ∀ k ∈ es.getLast?.map (·.key), keyLt k e.key)
    (hval : validKey e.key ∧ e.value.length = 64)
    (hdeep : catalogEntries ^ catalogLevels ≤ es.length + 1 → E (.limit "group catalog depth")) :
    Spec E (fun s' => ∃ m', Beside s s' m m' ∧ Retains s s' m m') s (push x b e) fun y s' =>
      ∃ m', Grown s s' x y.1 m m' ∧ Collects s' y.1 y.2 (es ++ [e]) ∧
        y.2.Tip y.1 catalogLevels := by
  have hgood : ¬ ∃ k ∈ b.previous, ¬ keyLt k e.key := by
    rintro ⟨k, hk, hn⟩
    rw [hc.previous] at hk
    exact hn (hkey k hk)
  rw [push, if_neg hgood]
  have hentries := entries_concat hc.entries hkey hval
  have hopen : Open s x.id { b with previous := some e.key } catalogLevels es :=
    hc.opened.congr fun _ _ => rfl
  have hcount : ({ b with previous := some e.key } : CatalogBuilder).count catalogLevels =
    es.length :=
    (count_congr fun _ _ => rfl).trans hc.count
  refine (addFrom_spec (b := { b with previous := some e.key }) (p := [e]) h hE (Nat.le_refl _)
    (fun l hl _ => hc.room l hl) hopen rfl hentries (fun h0 => absurd h0 (by decide))
    fun hd => hdeep (hcount ▸ hd)).post ?_
  rintro ⟨x', b'⟩ s' ⟨m', hg, ha⟩
  refine ⟨m', hg, ⟨?_, fun l hl => ha.room l hl (by omega), hentries, ?_, ?_⟩, ha.tip⟩
  · rw [hg.id]
    exact ha.opened
  · rw [ha.count, hcount, List.length_append]
    rfl
  · rw [List.getLast?_concat]
    exact ha.previous

/-! ### Closing the tree -/

theorem higher_eq_false {l : ℕ} (h : b.higher level = false) (hl : level < l)
    (hlt : l < catalogLevels) :
    b.levels l = [] := by
  unfold higher at h
  rw [List.any_eq_false] at h
  have := h l (List.mem_range.2 hlt)
  by_contra hne
  exact this (decide_eq_true ⟨hl, hne⟩)

/-- Levels that hold nothing have nothing under them. -/
theorem Open.eq_nil (hl : ∀ l < catalogLevels, catalogLevels - left ≤ l → b.levels l = [])
    (hleft : left ≤ catalogLevels) {id : ℕ} (h : Open s id b left es) : es = [] := by
  induction left generalizing es with
  | zero => exact h
  | succ left ih =>
    obtain ⟨upper, parts, hu, hp, rfl⟩ := h
    rw [hl _ (by omega) (Nat.le_refl _)] at hp
    cases hp
    rw [ih (fun l hlt hle => hl l hlt (by omega)) (Nat.le_of_succ_le hleft) hu]
    rfl

/-- A carry into the highest levels that do not fit means that the level below did not fit. -/
theorem carry_deep {n len : ℕ} (hleft : 0 < left) (hlen : 0 < len)
    (h : catalogEntries ^ left ≤ n + 1 ∨
      (catalogEntries - 1) * catalogEntries ^ left < catalogEntries * (n + 1)) :
    (catalogEntries - 1) * catalogEntries ^ (left + 1) <
      catalogEntries * (len + catalogEntries * n) := by
  obtain ⟨l, rfl⟩ := Nat.exists_eq_succ_of_ne_zero (Nat.ne_of_gt hleft)
  have hb : catalogEntries = 101 := by decide
  have hpos : 0 < 101 ^ l := Nat.pow_pos (by decide)
  rw [hb, Nat.pow_succ] at h
  rw [hb, Nat.pow_succ, Nat.pow_succ]
  omega

/-- The tree that `finish` leaves over the entries `es`. -/
structure Finished (s' : Store) (x y : GroupSnapshot) (es : List CatalogEntry) (tip : Prop) :
    Prop where
  none : es = [] → y = x
  tree : es ≠ [] → ∃ level < catalogLevels, UnderNode s' x.id level y.root es
  root : es ≠ [] → tip → y.root = y.tail

theorem flatten_ne_nil {id : ℕ} (hp : List.Forall₂ (Under s id level) entries parts)
    (hne : entries ≠ []) : parts.flatten ≠ [] := by
  cases hp with
  | nil => exact absurd rfl hne
  | cons hu _ =>
    rw [List.flatten_cons]
    exact fun hnil => hu.ne_nil (List.append_eq_nil_iff.1 hnil).1

theorem higher_pos (hlevel : level = catalogLevels - (left + 1)) (hh : b.higher level = true) :
    0 < left := by
  obtain ⟨l, hl, hp⟩ := List.any_eq_true.1 hh
  have hlt := List.mem_range.1 hl
  have hle := (of_decide_eq_true hp).1
  omega

/-- Below an empty level the lowest open node is the same. -/
theorem Tip.of_empty (hlevel : level = catalogLevels - (left + 1)) (hempty : b.levels level = [])
    (h : b.Tip x (left + 1)) : b.Tip x left := by
  intro l hle h0 hl hn hz
  refine h l (by omega) h0 hl hn fun k hk hkl => ?_
  by_cases heq : k = level
  · rw [heq, hempty]
  · exact hz k (by omega) hkl

/-- A single entry that covers everything names the root. -/
theorem single_finished {f : CatalogEntry} (hlevel : level = catalogLevels - (left + 1))
    (h0 : 0 < level) (hlt : level < catalogLevels) (hl : b.levels level = [f])
    (hu : Under s x.id level f es) :
    ∃ root, child f = .ok root ∧ Finished s x { x with root } es (b.Tip x (left + 1)) := by
  obtain ⟨l, rfl⟩ := Nat.exists_eq_succ_of_ne_zero (Nat.ne_of_gt h0)
  obtain ⟨root, hroot, hnode⟩ := hu.node
  refine ⟨root, hroot, fun hn => absurd hn hu.ne_nil, fun _ => ⟨l, Nat.lt_of_succ_lt hlt, hnode⟩,
    fun _ ht => ?_⟩
  obtain ⟨g, hg, hgc⟩ := ht l.succ (by omega) h0 hlt (by rw [hl]; simp) fun k hk hkl => by omega
  rw [hl] at hg
  cases hg
  exact Except.ok.inj (hroot.symm.trans hgc)

/-- The node that was just written is the root when it covers everything. -/
theorem flushed_finished {x' : GroupSnapshot} {tip : Prop} (hlt : level < catalogLevels)
    (hchild : child e = .ok x'.tail) (hu : Under s x.id (level + 1) e es) :
    Finished s x { x' with root := x'.tail } es tip := by
  refine ⟨fun hn => absurd hn hu.ne_nil, fun _ => ⟨level, hlt, ?_⟩, fun _ _ => rfl⟩
  obtain ⟨c, hc, hnode⟩ := hu.node
  rw [hchild] at hc
  cases hc
  exact hnode

/-- A node that was written is added to the levels above it. -/
theorem carry_spec {p : List CatalogEntry} (h : Appending s x m) (hE : E .host)
    (hleft : left + 1 ≤ catalogLevels) (hlevel : level = catalogLevels - (left + 1))
    (hh : b.higher level = true) (hne : b.levels level ≠ [])
    (hroom : ∀ l < catalogLevels, level ≤ l → (b.levels l).length < catalogEntries)
    (ho : Open s x.id b left es) (hu : Under s x.id (level + 1) e p) (hv : Entries (es ++ p))
    (hchild : child e = .ok x.tail)
    (hdeep : (catalogEntries - 1) * catalogEntries ^ (left + 1) <
      catalogEntries * b.count (left + 1) → E (.limit "group catalog depth")) :
    Spec E (fun s' => ∃ m', Beside s s' m m' ∧ Retains s s' m m') s
      (add x (b.set level []) (level + 1) e) fun y s' =>
      ∃ m', Grown s s' x y.1 m m' ∧ Added s' x y.1 (b.set level []) y.2 left (es ++ p) ∧
        ((catalogEntries - 1) * catalogEntries ^ left < catalogEntries * y.2.count left →
          E (.limit "group catalog depth")) := by
  have hnext : catalogLevels - left = level + 1 := by omega
  have hpos : 0 < left := higher_pos hlevel hh
  have hset : ∀ l, l ≠ level → (b.set level []).levels l = b.levels l := fun l hl => set_other hl
  have hsame : (b.set level []).count left = b.count left :=
    count_congr fun l hle => hset l (by omega)
  have hcount : b.count (left + 1) = (b.levels level).length + catalogEntries * b.count left := by
    rw [count, ← hlevel]
  have hlen : 0 < (b.levels level).length := List.length_pos_iff.2 hne
  have hadd : add x (b.set level []) (level + 1) e = addFrom left x (b.set level []) e := by
    rw [add, ← hnext, Nat.sub_sub_self (Nat.le_of_succ_le hleft)]
  rw [hadd]
  refine (addFrom_spec h hE (Nat.le_of_succ_le hleft) (fun l hl hle => ?_)
    (ho.congr fun l hle => hset l (by omega)) (by rw [hnext]; exact hu) hv (fun _ => hchild)
    fun hd => hdeep ?_).post ?_
  · rw [hset l (by omega)]
    exact hroom l hl (by omega)
  · rw [hsame] at hd
    rw [hcount]
    exact carry_deep hpos hlen (.inl hd)
  · rintro y s' ⟨m', hg, ha⟩
    refine ⟨m', hg, ha, fun hd => hdeep ?_⟩
    rw [ha.count, hsame] at hd
    rw [hcount]
    exact carry_deep hpos hlen (.inr hd)

/-- Closing the `left` highest levels, by induction on their number: an empty level is passed, a
level that covers everything ends the loop, and another one is written and added above. -/
theorem finishFrom_spec (h : Appending s x m) (hE : E .host) (hleft : left ≤ catalogLevels)
    (hlow : ∀ l < catalogLevels - left, b.levels l = [])
    (hroom : ∀ l < catalogLevels, catalogLevels - left ≤ l → (b.levels l).length < catalogEntries)
    (ho : Open s x.id b left es) (hv : Entries es)
    (hdeep : (catalogEntries - 1) * catalogEntries ^ left < catalogEntries * b.count left →
      E (.limit "group catalog depth")) :
    Spec E (fun s' => ∃ m', Beside s s' m m' ∧ Retains s s' m m') s
    (finishFrom left x b) fun y s' =>
      ∃ m' x', Grown s s' x x' m m' ∧ y = { x' with root := y.root } ∧
        Finished s' x y es (b.Tip x left) := by
  induction left generalizing s x m b es with
  | zero =>
    obtain rfl : es = [] := ho
    exact Spec.pure ⟨m, x, h.grown, rfl, fun _ => rfl, fun hne => absurd rfl hne,
      fun hne => absurd rfl hne⟩
  | succ left ih =>
    obtain ⟨upper, parts, hupper, hparts, rfl⟩ := ho
    obtain ⟨level, hlevel⟩ : ∃ level, level = catalogLevels - (left + 1) := ⟨_, rfl⟩
    have hlt : level < catalogLevels := by omega
    rw [finishFrom]
    dsimp only
    rw [← hlevel] at hparts hlow hroom ⊢
    by_cases hempty : b.levels level = []
    · -- nothing is open at this level
      rw [if_pos hempty]
      rw [hempty] at hparts
      cases hparts
      have hes : upper ++ ([] : List (List CatalogEntry)).flatten = upper := by
        rw [List.flatten_nil, List.append_nil]
      rw [hes] at hv ⊢
      refine (ih h (Nat.le_of_succ_le hleft) (fun l hl => ?_)
        (fun l hl hle => hroom l hl (by omega))
        hupper hv fun hd => hdeep ?_).post ?_
      · by_cases heq : l = level
        · rw [heq, hempty]
        · exact hlow l (by omega)
      · rw [count, ← hlevel, hempty, List.length_nil, Nat.zero_add, Nat.pow_succ, ← Nat.mul_assoc,
          Nat.mul_comm _ catalogEntries]
        exact Nat.mul_lt_mul_of_pos_left hd (by decide)
      · rintro y s' ⟨m', x', hg, hy, hf⟩
        exact ⟨m', x', hg, hy, hf.none, hf.tree, fun hne ht =>
          hf.root hne (ht.of_empty hlevel hempty)⟩
    rw [if_neg hempty]
    have hne : parts.flatten ≠ [] := flatten_ne_nil hparts hempty
    -- with nothing open above, this level covers everything
    have hall : b.higher level = false → upper = [] := fun hh =>
      hupper.eq_nil (fun l hl hle => higher_eq_false hh (by omega) hl) (Nat.le_of_succ_le hleft)
    by_cases hone : 0 < level ∧ (b.levels level).length = 1 ∧ b.higher level = false
    · rw [if_pos hone]
      obtain ⟨h0, hlen, hh⟩ := hone
      rw [hall hh, List.nil_append] at hv ⊢
      obtain ⟨f, hf⟩ := List.length_eq_one_iff.1 hlen
      rw [hf] at hparts ⊢
      cases hparts with
      | @cons _ p _ ps hu hrest =>
        cases hrest
        rw [List.flatten_singleton]
        obtain ⟨root, hroot, hfin⟩ := single_finished hlevel h0 hlt hf hu
        refine Spec.ofExcept_bind (a := f) rfl ?_
        refine Spec.ofExcept_bind hroot ?_
        exact Spec.pure ⟨m, x, h.grown, rfl, hfin⟩
    rw [if_neg hone]
    have hv' : Entries parts.flatten :=
      ⟨(List.pairwise_append.1 hv.1).2.1, fun e he => hv.2 e (List.mem_append_right _ he)⟩
    refine (flush_spec h hE hlt hempty (Nat.le_of_lt (hroom level hlt (Nat.le_refl _))) hparts
      hv').bind ?_
    rintro ⟨parent, x₁, b₁⟩ s₁ ⟨m₁, hg, hb₁, hchild, hunder⟩
    obtain rfl : b₁ = b.set level [] := hb₁
    have hg : Grown s s₁ x x₁ m m₁ := hg
    have hchild : child parent = .ok x₁.tail := hchild
    dsimp only
    cases hh : b.higher level with
    | false =>
      rw [if_pos rfl, hall hh, List.nil_append]
      refine Spec.ofExcept_bind hchild ?_
      exact Spec.pure ⟨m₁, x₁, hg, rfl, flushed_finished hlt hchild hunder⟩
    | true =>
      rw [if_neg (by decide)]
      refine ((carry_spec hg.appending hE hleft hlevel hh hempty hroom
        (by rw [hg.id]; exact hupper.mono hg.body) (by rw [hg.id]; exact hunder) hv hchild
        hdeep).mono ?_ fun _ _ => id).bind ?_
      · rintro s' ⟨m', hb, hr⟩
        exact ⟨m', hg.beside.trans hb, hg.retains.trans hr⟩
      rintro ⟨x₂, b₂⟩ s₂ ⟨m₂, hg₂, ha, hdeep₂⟩
      have hg₂ : Grown s₁ s₂ x₁ x₂ m₁ m₂ := hg₂
      have ha : Added s₂ x₁ x₂ (b.set level []) b₂ left (upper ++ parts.flatten) := ha
      have hx : x₂.id = x.id := hg₂.id.trans hg.id
      refine (ih hg₂.appending (Nat.le_of_succ_le hleft) (fun l hl => ?_)
        (fun l hl hle => ha.room l hl hle) (by rw [hg₂.id]; exact ha.opened) hv hdeep₂).mono ?_ ?_
      · rw [ha.other l hl]
        by_cases heq : l = level
        · rw [heq, set_same]
        · rw [set_other heq]
          exact hlow l (by omega)
      · rintro s' ⟨m', hb, hr⟩
        exact ⟨m', (hg.beside.trans hg₂.beside).trans hb, (hg.retains.trans hg₂.retains).trans hr⟩
      · rintro y s' ⟨m', x', hg', hy, hf⟩
        refine ⟨m', x', (hg.trans hg₂).trans hg', hy, fun hn => ?_, fun hn => ?_,
          fun hn _ => hf.root hn ha.tip⟩
        · exact absurd (List.append_eq_nil_iff.1 hn).2 hne
        · obtain ⟨l, hl, ht⟩ := hf.tree hn
          exact ⟨l, hl, hx ▸ ht⟩

/-- Finishing the builder leaves one tree over everything that was pushed. -/
theorem finish_spec (h : Appending s x m) (hE : E .host) (hc : Collects s x b es)
    (hdeep : (catalogEntries - 1) * catalogEntries ^ catalogLevels < catalogEntries * es.length →
      E (.limit "group catalog depth")) :
    Spec E (fun s' => ∃ m', Beside s s' m m' ∧ Retains s s' m m') s (finish x b) fun y s' =>
      ∃ m' x', Grown s s' x x' m m' ∧ y = { x' with root := y.root } ∧
        Finished s' x y es (b.Tip x catalogLevels) :=
  finishFrom_spec h hE (Nat.le_refl _) (fun l hl => by omega) (fun l hl _ => hc.room l hl) hc.opened
    hc.entries (by rw [hc.count]; exact hdeep)

end

end CatalogBuilder

end Grouped

end PinCore
