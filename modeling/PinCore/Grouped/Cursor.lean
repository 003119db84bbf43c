import PinCore.Grouped.Tree
import PinCore.Lib.LowerBound
import PinCore.State.History

/-!
# The catalog cursor

Over a catalog tree with the leaf entries `es` in key order, the cursor is an iterator over `es`:
`Stands` says which entries are left.  `seek` moves to the entries not below a key, wherever the
cursor stood before, and `advance` moves past one entry.
-/

namespace PinCore

namespace Grouped

open Obs CatalogCursor

/-! ### Searching a node -/

/-- The entry stands before the key. -/
def below (key : ℕ × ℕ) (e : CatalogEntry) : Bool := decide (keyLt e.key key)

section

variable {s s' : Store} {H : ℕ → Store} {t id level block slot : ℕ}
  {es entries mid before after : List CatalogEntry}
  {parts : List (List CatalogEntry)} {key : ℕ × ℕ} {e : CatalogEntry} {parents : List (ℕ × ℕ)}

theorem KeySorted.below (h : KeySorted es) :
    es.Pairwise fun a b => below key b = true → below key a = true :=
  h.imp fun hab hb => decide_eq_true (keyLt_trans hab (of_decide_eq_true hb))

theorem lowerBound_probe {fuel low high : ℕ} (hhigh : high ≤ entries.length) :
    probeFrom (ε := Unit) (fun j => .ok (entries[j]?.any (below key))) fuel low high =
      .ok (lowerBound entries key fuel low high) := by
  induction fuel generalizing low high with
  | zero => rfl
  | succ fuel ih =>
    unfold probeFrom lowerBound
    by_cases hlt : low < high
    · have hmid : low + (high - low) / 2 < entries.length := by omega
      rw [if_pos hlt, if_pos hlt, ok_bind]
      simp only [List.getElem?_eq_getElem hmid, Option.any_some, Grouped.below, decide_eq_true_eq]
      by_cases hk : keyLt entries[low + (high - low) / 2].key key
      · rw [if_pos hk, if_pos hk]
        exact ih hhigh
      · rw [if_neg hk, if_neg hk]
        exact ih (Nat.le_of_lt hmid)
    · rw [if_neg hlt, if_neg hlt]

/-- The search returns the number of entries that stand before the key. -/
theorem lowerBound_eq (key : ℕ × ℕ) (h : KeySorted entries) :
    lowerBound entries key entries.length 0 entries.length =
      (entries.takeWhile (below key)).length := by
  have hprobe : probeFrom (ε := Unit) (fun j => .ok (entries[j]?.any (below key))) entries.length 0
      entries.length = .ok (lowerBound entries key entries.length 0 entries.length) :=
    lowerBound_probe (Nat.le_refl _)
  have hsorted : entries.Pairwise fun a b => below key b = true → below key a = true :=
    KeySorted.below h
  have hle : (entries.takeWhile (below key)).length ≤ entries.length :=
    (List.takeWhile_sublist _).length_le
  rw [probeFrom_ok (fun j _ hj => ?_)
    (Nat.zero_le _) hle (by omega)] at hprobe
  · exact (Except.ok.inj hprobe).symm
  · have hiff := lt_length_takeWhile hsorted hj
    rw [List.getElem?_eq_getElem hj, Option.any_some]
    congr 1
    by_cases hb : below key entries[j] = true
    · rw [hb, decide_eq_true (hiff.2 hb)]
    · rw [Bool.eq_false_iff.2 hb, decide_eq_false (mt hiff.1 hb)]

/-! ### Paths -/

/-- The parents lead from the top of the tree over `es` to a node of `level`: the entries before,
under and after the slots they hold. -/
inductive Path (s : Store) (id : ℕ) (es : List CatalogEntry) :
    ℕ → List (ℕ × ℕ) → List CatalogEntry → List CatalogEntry → List CatalogEntry → Prop
  | top {level : ℕ} : Path s id es level [] [] es []
  | down {level block slot : ℕ} {parents : List (ℕ × ℕ)} {before mid after : List CatalogEntry}
      {entries : List CatalogEntry} {parts : List (List CatalogEntry)}
      (h : Path s id es (level + 1) parents before mid after)
      (hn : s.body block = .grouped (.node id (level + 1) entries))
      (hp : List.Forall₂ (Under s id (level + 1)) entries parts) (hm : mid = parts.flatten)
      (hs : slot < entries.length) :
      Path s id es level ((block, slot) :: parents) (before ++ (parts.take slot).flatten)
        (parts.getD slot []) ((parts.drop (slot + 1)).flatten ++ after)

/-- The cursor stands on a leaf of the tree over `es` and `rest` is left, or it is exhausted. -/
def Stands (s : Store) (id : ℕ) (es : List CatalogEntry) (c : CatalogCursor)
    (rest : List CatalogEntry) : Prop :=
  (c.leaf = none ∧ rest = []) ∨ ∃ leaf entries before after,
    c.leaf = some leaf ∧ groupNode leaf = .ok (0, entries) ∧
      Path s id es 0 c.parents before entries after ∧ c.slot < entries.length ∧
      rest = entries.drop c.slot ++ after

theorem parts_split (h : slot < parts.length) :
    parts.flatten = (parts.take slot).flatten ++ (parts.getD slot [] ++
      (parts.drop (slot + 1)).flatten) := by
  have hget : parts.getD slot [] = parts[slot] := by
    rw [List.getD_eq_getElem?_getD, List.getElem?_eq_getElem h, Option.getD_some]
  rw [hget]
  conv_lhs => rw [← List.take_append_drop slot parts, List.drop_eq_getElem_cons h]
  rw [List.flatten_append, List.flatten_cons]

theorem Path.split (h : Path s id es level parents before mid after) :
    es = before ++ mid ++ after := by
  induction h with
  | top => rw [List.nil_append, List.append_nil]
  | @down level block slot parents before mid after entries parts h hn hp hm hs ih =>
    have hlen : slot < parts.length := by rw [← hp.length_eq]; exact hs
    rw [ih, hm, parts_split hlen]
    simp only [List.append_assoc]

/-! ### Reading a node -/

/-- A checked load of a page whose kind does not change returns one of its images. -/
theorem load_seen {l : HeapLayout} {k : PageKind} (hp : ∀ t, PagesOk (H t))
    (hl : ∀ t, (H t).layout = l) (hz : k ≠ .zero) (hk : ∀ t, ((H t).body block).kind = k) :
    Sees H t (load block k) fun p _ => ∃ t₁, p = (H t₁).page block := by
  have hlt : block < (H t).blocks := (hp t).lt_blocks (by rw [hk]; exact hz)
  refine Sees.bind (Q := fun p _ => ∃ t₁, p = (H t₁).page block) ?_ ?_
  · refine blocks_sees.bind ?_
    rintro _ _ - ⟨rfl, rfl⟩
    refine Sees.ensure_bind hlt ?_
    refine Sees.bind (Q := fun p t' => t' = t + 2 ∧ p = (H (t + 1)).page block)
      (Sees.observe ⟨rfl, rfl⟩) ?_
    rintro _ _ - ⟨rfl, rfl⟩
    refine Sees.ensure_bind ((hp _).block block) ?_
    refine Sees.bind (Q := fun l' _ => l' = l) (Sees.observe (hl _)) ?_
    intro l' _ _ hl'
    have hv : ((H (t + 1)).page block).validate l' = .ok () := by
      rw [hl', ← hl (t + 1)]
      exact if_pos ((hp _).valid block)
    exact Sees.ofExcept_bind hv (Sees.pure ⟨t + 1, rfl⟩)
  · rintro _ _ - ⟨t₁, rfl⟩
    exact Sees.ensure_bind (hk t₁) (Sees.pure ⟨t₁, rfl⟩)

/-- A history over which the catalog pages of `s` keep their entries.  Everything else may change
between two reads. -/
structure Catalogued (s : Store) (id : ℕ) (H : ℕ → Store) : Prop where
  pages : ∀ t, PagesOk (H t)
  layout : ∀ t, (H t).layout = s.layout
  kept : ∀ t, NodesKept id s (H t)

theorem Catalogued.load (hH : Catalogued s id H)
    (hn : s.body block = .grouped (.node id level entries)) :
    Sees H t (load block .grouped) fun p _ => p.body = .grouped (.node id level entries) ∧
      p.block = block := by
  have hbody := fun t => hH.kept t block level entries hn
  refine (load_seen hH.pages hH.layout (by decide) fun t => by rw [hbody]; rfl).mono ?_
  rintro _ _ - ⟨t₁, rfl⟩
  exact ⟨hbody t₁, (hH.pages t₁).block block⟩

/-- Node pages of a valid store are in range, so a path has a parent for a level at most. -/
theorem node_range (hH : Catalogued s id H)
    (hn : s.body block = .grouped (.node id level entries)) :
    level ≤ maxCatalogLevel ∧ entries ≠ [] ∧ entries.length ≤ catalogEntries ∧
      KeySorted entries := by
  have := (hH.pages 0).ok block
  rw [hH.kept 0 block level entries hn] at this
  exact ⟨this.2.1, this.2.2.1, this.2.2.2.1, this.2.2.2.2.2.1⟩

theorem Path.length_le (hH : Catalogued s id H) (h : Path s id es level parents before mid after)
    (hne : parents ≠ []) : level + parents.length ≤ maxCatalogLevel := by
  induction h with
  | top => exact absurd rfl hne
  | @down level block slot parents before mid after entries parts h hn _ _ _ ih =>
    have hlevel := (node_range hH hn).1
    cases parents with
    | nil => exact hlevel
    | cons q qs =>
      have := ih (List.cons_ne_nil q qs)
      rw [List.length_cons] at this
      rw [List.length_cons, List.length_cons]
      omega

/-- The parents leave room for one more. -/
theorem Path.room (hH : Catalogued s id H) (h : Path s id es level parents before mid after) :
    parents.length < catalogLevels := by
  by_cases hne : parents = []
  · rw [hne]
    decide
  · have := h.length_le hH hne
    unfold catalogLevels
    omega

theorem groupNode_eq {p : Page} (hH : Catalogued s id H)
    (hn : s.body block = .grouped (.node id level entries))
    (hbody : p.body = .grouped (.node id level entries)) : groupNode p = .ok (level, entries) := by
  have hok := (hH.pages 0).ok block
  rw [hH.kept 0 block level entries hn] at hok
  exact groupNode_of_ok hok hbody

theorem groupId_node {p : Page} (hbody : p.body = .grouped (.node id level entries)) :
    groupId p = .ok id := by
  rw [groupId, hbody]
  rfl

theorem entryAt_eq (h : slot < entries.length) : entryAt entries slot = .ok entries[slot] := by
  rw [entryAt, List.getElem?_eq_getElem h]

/-! ### Walking the tree -/

/-- What a walk of the cursor returns: the next entry, and where the cursor then stands. -/
def Moved (s : Store) (id : ℕ) (es rest : List CatalogEntry)
    (y : Option CatalogEntry × CatalogCursor) : Prop :=
  y.1 = rest.head? ∧ Stands s id es y.2 rest

/-- Leaf entries are under themselves. -/
theorem forall₂_leaf (h : List.Forall₂ (Under s id 0) entries parts) : parts.flatten = entries := by
  induction h with
  | nil => rfl
  | @cons e p _ _ hu _ ih =>
    obtain rfl : p = [e] := hu
    rw [List.flatten_cons, ih]
    rfl

theorem under_last (h : List.Forall₂ (Under s id level) entries parts) (hne : entries ≠ []) :
    ∃ f ∈ parts.flatten, f.key = (entries.getLast hne).key := by
  obtain ⟨p, hH, hu⟩ := forall₂_mem_left h (List.getLast_mem hne)
  obtain ⟨f, fs, rfl, hf⟩ := hu.first
  exact ⟨f, List.mem_flatten.2 ⟨_, hH, List.mem_cons_self⟩, hf⟩

theorem entryAt_last (hne : entries ≠ []) :
    entryAt entries (entries.length - 1) = .ok (entries.getLast hne) := by
  have hpos := List.length_pos_iff.2 hne
  rw [entryAt_eq (by omega), List.getLast_eq_getElem]

/-- One step of a descent passes its checks. -/
theorem descend_step {c : CatalogCursor} {upper : Option (ℕ × ℕ)} (hH : Catalogued s id H)
    (hu : Under s id (level + 1) e mid) (hupper : ∀ k ∈ upper, ∀ f ∈ mid, keyLt f.key k) :
    ∃ block first entries parts, s.body block = .grouped (.node id level (first :: entries)) ∧
      List.Forall₂ (Under s id level) (first :: entries) parts ∧ mid = parts.flatten ∧
      ∀ Q, (∀ p t', groupNode p = .ok (level, first :: entries) → Sees H t' (if level = 0 then
          pure (some first, { c with leaf := some p, slot := 0 })
        else do
          Obs.ensure (c.parents.length < catalogLevels) Error.invalidState
          CatalogCursor.descend id upper level first
            { c with parents := (block, 0) :: c.parents }) Q) →
        Sees H t (CatalogCursor.descend id upper (level + 1) e c) Q := by
  obtain ⟨block, hchild, entries, parts, hn, hne, hparts, hmid⟩ := hu.node
  obtain ⟨first, rest, rfl⟩ := List.exists_cons_of_ne_nil hne
  refine ⟨block, first, rest, parts, hn, hparts, hmid, fun Q hQ => ?_⟩
  have hfirst : first.key = e.key := by
    cases hparts with
    | @cons _ p _ ps hu' _ =>
      obtain ⟨f, fs, rfl, hf⟩ := hu'.first
      have hh := hu.head
      rw [hmid] at hh
      rw [← hf]
      exact Option.some.inj hh
  unfold CatalogCursor.descend
  refine Sees.ofExcept_bind hchild ?_
  refine (hH.load hn).bind ?_
  rintro p t' - ⟨hbody, hblock⟩
  refine Sees.ofExcept_bind (groupNode_eq hH hn hbody) ?_
  refine Sees.ofExcept_bind (groupId_node hbody) ?_
  refine Sees.ofExcept_bind (entryAt_eq (Nat.succ_pos _)) ?_
  refine Sees.ofExcept_bind (entryAt_last hne) ?_
  refine Sees.ensure_bind ⟨rfl, rfl, hfirst, fun k hk => ?_⟩ ?_
  · obtain ⟨f, hf, hfk⟩ := under_last hparts hne
    rw [← hfk]
    exact hupper k hk f (hmid ▸ hf)
  · rw [hblock]
    exact hQ p t' (groupNode_eq hH hn hbody)

/-- The descent ends on the first leaf under the entry. -/
theorem descend_sees {c : CatalogCursor} {upper : Option (ℕ × ℕ)} (hH : Catalogued s id H)
    (hpath : Path s id es level c.parents before mid after) (hu : Under s id (level + 1) e mid)
    (hupper : ∀ k ∈ upper, ∀ f ∈ mid, keyLt f.key k) :
    Sees H t (CatalogCursor.descend id upper (level + 1) e c)
    (fun y _ => Moved s id es (mid ++ after) y) := by
  induction level generalizing t c e before mid after with
  | zero =>
    obtain ⟨block, first, entries, parts, hn, hparts, hmid, hrun⟩ :=
      descend_step (c := c) hH hu hupper
    refine hrun _ fun p t' hnode => ?_
    rw [if_pos rfl]
    rw [forall₂_leaf hparts] at hmid
    subst hmid
    exact Sees.pure ⟨rfl, .inr ⟨p, _, before, after, rfl, hnode, hpath, Nat.succ_pos _, rfl⟩⟩
  | succ level ih =>
    obtain ⟨block, first, entries, parts, hn, hparts, hmid, hrun⟩ :=
      descend_step (c := c) hH hu hupper
    refine hrun _ fun p t' _ => ?_
    rw [if_neg (Nat.succ_ne_zero level)]
    refine Sees.ensure_bind (hpath.room hH) ?_
    have hdown : Path s id es level ((block, 0) :: c.parents) _ _ _ :=
      hpath.down hn hparts hmid (Nat.succ_pos _)
    cases hparts with
    | @cons _ p _ ps hup hrest =>
      have hmid' : mid ++ after = p ++ (ps.flatten ++ after) := by
        rw [hmid, List.flatten_cons, List.append_assoc]
      rw [hmid']
      refine ih hdown hup fun k hk f hf => hupper k hk f ?_
      rw [hmid, List.flatten_cons]
      exact List.mem_append_left _ hf

theorem Path.mid_sorted (h : Path s id es level parents before mid after) (hs : KeySorted es) :
    KeySorted mid := by
  have hsplit := h.split
  rw [hsplit, List.append_assoc] at hs
  exact (List.pairwise_append.1 (List.pairwise_append.1 hs).2.1).1

theorem under_at (h : List.Forall₂ (Under s id level) entries parts)
    (hslot : slot < entries.length) :
    Under s id level entries[slot] (parts.getD slot []) := by
  have hlen : slot < parts.length := by rw [← h.length_eq]; exact hslot
  rw [List.getD_eq_getElem?_getD, List.getElem?_eq_getElem hlen, Option.getD_some]
  exact h.get hslot hlen

theorem mem_part {f : CatalogEntry} (h : f ∈ parts.getD slot []) : f ∈ parts.flatten := by
  rw [List.getD_eq_getElem?_getD] at h
  by_cases hlen : slot < parts.length
  · rw [List.getElem?_eq_getElem hlen, Option.getD_some] at h
    exact List.mem_flatten.2 ⟨_, List.getElem_mem hlen, h⟩
  · rw [List.getElem?_eq_none (Nat.not_lt.1 hlen)] at h
    exact absurd h List.not_mem_nil

/-- What is under a slot stands before the key of any later slot. -/
theorem part_lt {later : ℕ} {k : ℕ × ℕ} {f : CatalogEntry}
    (h : List.Forall₂ (Under s id level) entries parts) (hs : KeySorted parts.flatten)
    (hl : slot < later) (hk : k ∈ entries[later]?.map (·.key)) (hf : f ∈ parts.getD slot []) :
    keyLt f.key k := by
  obtain ⟨g, hg, rfl⟩ := Option.map_eq_some_iff.1 hk
  obtain ⟨hlater, rfl⟩ := List.getElem?_eq_some_iff.1 hg
  have hlen : later < parts.length := by rw [← h.length_eq]; exact hlater
  obtain ⟨a, as, has, ha⟩ := (under_at h hlater).first
  rw [← ha]
  rw [parts_split (Nat.lt_trans hl hlen), ← List.append_assoc] at hs
  refine (List.pairwise_append.1 hs).2.2 f (List.mem_append_right _ hf) a ?_
  refine List.mem_flatten.2 ⟨parts.getD later [], ?_, by rw [has]; exact List.mem_cons_self⟩
  rw [List.getD_eq_getElem?_getD, List.getElem?_eq_getElem hlen, Option.getD_some]
  exact List.mem_drop_iff_getElem.2 ⟨later - (slot + 1), by omega, by congr 1; omega⟩

/-- The walk upwards ends on the leaf behind the path. -/
theorem ascend_sees {leaf : Option Page} {at' : ℕ} (hH : Catalogued s id H) (hs : KeySorted es)
    (h : Path s id es level parents before mid after) :
    Sees H t (CatalogCursor.ascend id leaf at' parents) (fun y _ => Moved s id es after y) := by
  induction h generalizing t with
  | top => exact Sees.pure ⟨rfl, .inl ⟨rfl, rfl⟩⟩
  | @down level block slot parents before mid after entries parts h hn hparts hmid hslot ih =>
    have hlen := hparts.length_eq
    unfold CatalogCursor.ascend
    refine (hH.load hn).bind ?_
    rintro p t' - ⟨hbody, hblock⟩
    refine Sees.ofExcept_bind (groupNode_eq hH hn hbody) ?_
    refine Sees.ofExcept_bind (groupId_node hbody) ?_
    refine Sees.ensure_bind ⟨rfl, Nat.succ_ne_zero level⟩ ?_
    by_cases hend : entries.length ≤ slot + 1
    · rw [if_pos hend, List.drop_eq_nil_of_le (hlen ▸ hend), List.flatten_nil, List.nil_append]
      exact ih
    · rw [if_neg hend]
      have hnext : slot + 1 < entries.length := Nat.not_le.1 hend
      refine Sees.ofExcept_bind (entryAt_eq hnext) ?_
      have hsplit : (parts.drop (slot + 1)).flatten ++ after =
          parts.getD (slot + 1) [] ++ ((parts.drop (slot + 1 + 1)).flatten ++ after) := by
        have hget : parts.getD (slot + 1) [] = parts[slot + 1] := by
          rw [List.getD_eq_getElem?_getD, List.getElem?_eq_getElem (hlen ▸ hnext), Option.getD_some]
        rw [List.drop_eq_getElem_cons (hlen ▸ hnext), List.flatten_cons, List.append_assoc, hget]
      rw [hsplit]
      have hsorted := h.mid_sorted hs
      rw [hmid] at hsorted
      exact descend_sees hH (h.down hn hparts hmid hnext) (under_at hparts hnext)
        fun k hk f hf => part_lt hparts hsorted (Nat.lt_succ_self _) hk hf

/-- The current entry is the first one left. -/
theorem current_sees {c : CatalogCursor} {leaf : Page} (hH : Catalogued s id H) (hs : KeySorted es)
    (hleaf : c.leaf = some leaf) (hn : groupNode leaf = .ok (0, entries))
    (hpath : Path s id es 0 c.parents before entries after) :
    Sees H t (c.current id) (fun y _ => Moved s id es (entries.drop c.slot ++ after) y) := by
  unfold CatalogCursor.current
  rw [hleaf]
  refine Sees.ofExcept_bind hn ?_
  by_cases hslot : c.slot < entries.length
  · simp only [List.getElem?_eq_getElem hslot]
    refine Sees.pure ⟨?_, .inr ⟨leaf, entries, before, after, hleaf, hn, hpath, hslot, rfl⟩⟩
    rw [List.drop_eq_getElem_cons hslot]
    rfl
  · simp only [List.getElem?_eq_none (Nat.not_lt.1 hslot)]
    rw [List.drop_eq_nil_of_le (Nat.not_lt.1 hslot), List.nil_append]
    exact ascend_sees hH hs hpath

/-- Advancing moves past one entry. -/
theorem advance_sees {c : CatalogCursor} {rest : List CatalogEntry} (hH : Catalogued s id H)
    (hs : KeySorted es) (h : Stands s id es c rest) :
    Sees H t (c.advance id) (fun y _ => Moved s id es rest.tail y) := by
  rcases h with ⟨hleaf, rfl⟩ | ⟨leaf, entries, before, after, hleaf, hn, hpath, hslot, rfl⟩
  · unfold CatalogCursor.advance CatalogCursor.current
    rw [hleaf]
    exact Sees.pure ⟨rfl, .inl ⟨rfl, rfl⟩⟩
  · rw [List.drop_eq_getElem_cons hslot, List.cons_append, List.tail_cons]
    exact current_sees (c := { c with slot := c.slot + 1 }) hH hs hleaf hn hpath

/-! ### Seeking -/

/-- Around a stretch of a sorted list, the entries not below a key start in the stretch or right
behind it. -/
theorem dropWhile_below {key : ℕ × ℕ} (hbefore : ∀ f ∈ before, keyLt f.key key)
    (hafter : ∀ f ∈ after, ¬ keyLt f.key key) :
    (before ++ mid ++ after).dropWhile (below key) = mid.dropWhile (below key) ++ after := by
  have hall : ∀ f ∈ before, below key f = true := fun f hf => decide_eq_true (hbefore f hf)
  rw [List.append_assoc, List.dropWhile_append_of_pos hall, List.dropWhile_append]
  split_ifs with hm
  · rw [List.isEmpty_iff.1 hm, List.nil_append]
    cases after with
    | nil => rfl
    | cons f fs =>
      refine List.dropWhile_cons_of_neg ?_
      rw [Grouped.below, decide_eq_true_eq]
      exact hafter f List.mem_cons_self
  · rfl

/-- The entries of the leaf from the slot that the search finds. -/
theorem seek_leaf {c : CatalogCursor} {leaf : Page} {key : ℕ × ℕ} (hH : Catalogued s id H)
    (hs : KeySorted es) (hn : groupNode leaf = .ok (0, entries))
    (hpath : Path s id es 0 c.parents before entries after)
    (hbefore : ∀ f ∈ before, keyLt f.key key) (hafter : ∀ f ∈ after, ¬ keyLt f.key key) :
    Sees H t (CatalogCursor.current
        { c with
          slot := lowerBound entries key entries.length 0 entries.length
          leaf := some leaf } id)
      (fun y _ => Moved s id es (es.dropWhile (below key)) y) := by
  have hrest : es.dropWhile (below key) =
      entries.drop (lowerBound entries key entries.length 0 entries.length) ++ after := by
    rw [lowerBound_eq key (hpath.mid_sorted hs), drop_length_takeWhile,
      ← dropWhile_below hbefore hafter, ← hpath.split]
  rw [hrest]
  exact current_sees (c := { c with
    slot := lowerBound entries key entries.length 0 entries.length
    leaf := some leaf }) hH hs rfl hn hpath

/-- The slot of a branch is the last one whose key is not above the searched key. -/
theorem branchSlot_spec (hs : KeySorted entries) (hne : entries ≠ []) (key : ℕ × ℕ) :
    branchSlot entries key < entries.length ∧
      (branchSlot entries key = 0 ∨
        ∀ e ∈ entries[branchSlot entries key]?, ¬ keyLt key e.key) ∧
      ∀ j, branchSlot entries key < j → ∀ e ∈ entries[j]?, ¬ keyLt e.key key := by
  have hpos := List.length_pos_iff.2 hne
  have hlo := lowerBound_eq key hs
  have hsorted : entries.Pairwise fun a b => below key b = true → below key a = true :=
    KeySorted.below hs
  have hle : (entries.takeWhile (below key)).length ≤ entries.length :=
    (List.takeWhile_sublist _).length_le
  rw [← hlo] at hle
  -- the entries in front of the boundary stand before the key, and no others
  have hcut : ∀ j (hj : j < entries.length),
      j < lowerBound entries key entries.length 0 entries.length ↔ keyLt entries[j].key key := by
    intro j hj
    rw [hlo, lt_length_takeWhile hsorted hj, Grouped.below,
      decide_eq_true_eq]
  generalize hlb : lowerBound entries key entries.length 0 entries.length = lo at hcut hle
  have hfound : ∀ e, entries[lo]? = some e →
      branchSlot entries key = if e.key = key then lo else lo - 1 := by
    intro e he
    simp only [branchSlot, hlb, he]
  have hpast : entries[lo]? = none → branchSlot entries key = lo - 1 := by
    intro he
    simp only [branchSlot, hlb, he]
  have hback : ∀ j, lo - 1 < j → ∀ e ∈ entries[j]?, ¬ keyLt e.key key := by
    intro j hj e he
    obtain ⟨hlt, rfl⟩ := List.getElem?_eq_some_iff.1 he
    exact mt (hcut j hlt).2 (by omega)
  have hprevious : lo - 1 < entries.length ∧
      (lo - 1 = 0 ∨ ∀ e ∈ entries[lo - 1]?, ¬ keyLt key e.key) := by
    refine ⟨by omega, ?_⟩
    by_cases h0 : lo - 1 = 0
    · exact .inl h0
    · refine .inr fun e he hlt => ?_
      obtain ⟨hj, rfl⟩ := List.getElem?_eq_some_iff.1 he
      exact keyLt_irrefl _ (keyLt_trans hlt ((hcut (lo - 1) hj).1 (by omega)))
  cases hget : entries[lo]? with
  | none =>
    rw [hpast hget]
    exact ⟨hprevious.1, hprevious.2, hback⟩
  | some e =>
    rw [hfound e hget]
    by_cases hk : e.key = key
    · rw [if_pos hk]
      obtain ⟨hlt, -⟩ := List.getElem?_eq_some_iff.1 hget
      refine ⟨hlt, .inr fun f hf => ?_, fun j hj => hback j (by omega)⟩
      rw [hget] at hf
      cases hf
      rw [hk]
      exact keyLt_irrefl _
    · rw [if_neg hk]
      exact ⟨hprevious.1, hprevious.2, hback⟩

/-- Entries in front of the slot of a branch are below the key, entries behind it are not. -/
theorem branchSlot_parts (key : ℕ × ℕ) (h : List.Forall₂ (Under s id level) entries parts)
    (hs : KeySorted parts.flatten) (hne : entries ≠ []) :
    (∀ f ∈ (parts.take (branchSlot entries key)).flatten, keyLt f.key key) ∧
      ∀ f ∈ (parts.drop (branchSlot entries key + 1)).flatten, ¬ keyLt f.key key := by
  obtain ⟨hslot, hfront, hback⟩ := branchSlot_spec (forall₂_under_sorted h hs) hne key
  constructor
  · intro f hf
    obtain ⟨p, hpmem, hfp⟩ := List.mem_flatten.1 hf
    obtain ⟨j, hj, rfl⟩ := List.mem_take_iff_getElem.1 hpmem
    have hjslot : j < branchSlot entries key := by omega
    have hfp' : f ∈ parts.getD j [] := by
      rw [List.getD_eq_getElem?_getD, List.getElem?_eq_getElem (by omega), Option.getD_some]
      exact hfp
    have hlt := part_lt (k := entries[branchSlot entries key].key) h hs hjslot
      (by rw [List.getElem?_eq_getElem hslot]; rfl) hfp'
    rcases hfront with h0 | hge
    · omega
    · have hnot := hge _ (by rw [List.getElem?_eq_getElem hslot]; rfl)
      unfold keyLt at hlt hnot ⊢
      omega
  · intro f hf
    obtain ⟨p, hpmem, hfp⟩ := List.mem_flatten.1 hf
    obtain ⟨i, hi, rfl⟩ := List.mem_drop_iff_getElem.1 hpmem
    have hj : branchSlot entries key + 1 + i < entries.length := by
      rw [h.length_eq]
      omega
    have hu := under_at h hj
    have hget : parts.getD (branchSlot entries key + 1 + i) [] =
        parts[branchSlot entries key + 1 + i] := by
      rw [List.getD_eq_getElem?_getD, List.getElem?_eq_getElem (by omega), Option.getD_some]
    rw [hget] at hu
    obtain ⟨a, as, has, ha⟩ := hu.first
    have hnot := hback _ (by omega) _ (List.getElem?_eq_getElem hj)
    -- the first entry of the stretch carries the key of the branch
    have hsub : KeySorted parts[branchSlot entries key + 1 + i] :=
      hs.sublist (List.sublist_flatten_of_mem (List.getElem_mem _))
    rw [has] at hsub hfp
    rcases List.mem_cons.1 hfp with rfl | hmem
    · rwa [ha]
    · have hlt := (List.pairwise_cons.1 hsub).1 f hmem
      rw [ha] at hlt
      exact fun hf => hnot (keyLt_trans hlt hf)

/-- A node on the way passes its checks. -/
theorem seekFrom_step {c : CatalogCursor} {key : ℕ × ℕ} {fuel : ℕ} {expected : Option ℕ}
    {lower upper : Option (ℕ × ℕ)} (hH : Catalogued s id H)
    (hn : s.body block = .grouped (.node id level entries)) (hne : entries ≠ [])
    (hparts : List.Forall₂ (Under s id level) entries parts)
    (hexpected : ∀ e ∈ expected, level = e)
    (hlower : ∀ k ∈ lower, parts.flatten.head?.map (·.key) = some k)
    (hupper : ∀ k ∈ upper, ∀ f ∈ parts.flatten, keyLt f.key k)
    {Q : Option CatalogEntry × CatalogCursor → ℕ → Prop}
    (h : ∀ p t', groupNode p = .ok (level, entries) → Sees H t' (if level = 0 then
          current { c with
            slot := lowerBound entries key entries.length 0 entries.length
            leaf := some p } id
        else do
          let entry ← Obs.ofExcept (entryAt entries (branchSlot entries key))
          Obs.ensure (c.parents.length < catalogLevels) Error.invalidState
          let block' ← Obs.ofExcept (child entry)
          seekFrom id key fuel block' (some (level - 1)) (some entry.key)
            (if branchSlot entries key + 1 < entries.length then
              entries[branchSlot entries key + 1]?.map (·.key) else upper)
            { c with parents := (block, branchSlot entries key) :: c.parents }) Q) :
    Sees H t (seekFrom id key (fuel + 1) block expected lower upper c) Q := by
  unfold seekFrom
  refine (hH.load hn).bind ?_
  rintro p t' - ⟨hbody, hblock⟩
  refine Sees.ofExcept_bind (groupNode_eq hH hn hbody) ?_
  refine Sees.ofExcept_bind (groupId_node hbody) ?_
  refine Sees.ofExcept_bind (entryAt_eq (List.length_pos_iff.2 hne)) ?_
  refine Sees.ofExcept_bind (entryAt_last hne) ?_
  refine Sees.ensure_bind ⟨rfl, hexpected, fun k hk => ?_, fun k hk => ?_⟩
    (h p t' (groupNode_eq hH hn hbody))
  · cases hparts with
    | nil => exact absurd rfl hne
    | @cons e p es ps hu _ =>
      have hh := hlower k hk
      obtain ⟨f, fs, rfl, hf⟩ := hu.first
      rw [List.getElem_cons_zero, ← hf]
      exact Option.some.inj hh
  · obtain ⟨f, hf, hfk⟩ := under_last hparts hne
    rw [← hfk]
    exact hupper k hk f hf

/-- The walk from a node ends on the first entry not below the key. -/
theorem seekFrom_sees {c : CatalogCursor} {key : ℕ × ℕ} {fuel : ℕ} {expected : Option ℕ}
    {lower upper : Option (ℕ × ℕ)} (hH : Catalogued s id H) (hs : KeySorted es)
    (hpath : Path s id es level c.parents before mid after) (hu : UnderNode s id level block mid)
    (hbefore : ∀ f ∈ before, keyLt f.key key) (hafter : ∀ f ∈ after, ¬ keyLt f.key key)
    (hexpected : ∀ e ∈ expected, level = e)
    (hlower : ∀ k ∈ lower, mid.head?.map (·.key) = some k)
    (hupper : ∀ k ∈ upper, ∀ f ∈ mid, keyLt f.key k) (hfuel : level < fuel) :
    Sees H t (CatalogCursor.seekFrom id key fuel block expected lower upper c)
      (fun y _ => Moved s id es (es.dropWhile (below key)) y) := by
  induction level generalizing t c fuel block expected lower upper before mid after with
  | zero =>
    obtain ⟨k, rfl⟩ := Nat.exists_eq_add_of_lt hfuel
    obtain ⟨entries, parts, hn, hne, hparts, rfl⟩ := hu
    refine seekFrom_step hH hn hne hparts hexpected hlower hupper fun p t' hnode => ?_
    rw [if_pos rfl]
    rw [forall₂_leaf hparts] at hpath
    exact seek_leaf hH hs hnode hpath hbefore hafter
  | succ level ih =>
    obtain ⟨k, rfl⟩ := Nat.exists_eq_add_of_lt hfuel
    obtain ⟨entries, parts, hn, hne, hparts, rfl⟩ := hu
    have hsorted := hpath.mid_sorted hs
    obtain ⟨hslot, -⟩ := branchSlot_spec (forall₂_under_sorted hparts hsorted) hne key
    obtain ⟨hfront, hback⟩ := branchSlot_parts key hparts hsorted hne
    have hunder := under_at hparts hslot
    obtain ⟨block', hchild, hnode⟩ := hunder.node
    refine seekFrom_step hH hn hne hparts hexpected hlower hupper fun p t' _ => ?_
    rw [if_neg (Nat.succ_ne_zero level)]
    refine Sees.ofExcept_bind (entryAt_eq hslot) ?_
    refine Sees.ensure_bind (hpath.room hH) ?_
    refine Sees.ofExcept_bind hchild ?_
    refine ih (hpath.down hn hparts rfl hslot) hnode (fun f hf => ?_) (fun f hf => ?_)
      (fun e he => ?_) (fun k hk => ?_) (fun k hk f hf => ?_) (by omega)
    · rcases List.mem_append.1 hf with hf | hf
      · exact hbefore f hf
      · exact hfront f hf
    · rcases List.mem_append.1 hf with hf | hf
      · exact hback f hf
      · exact hafter f hf
    · cases he
      rfl
    · cases hk
      exact hunder.head
    · by_cases hnext : branchSlot entries key + 1 < entries.length
      · rw [if_pos hnext] at hk
        exact part_lt hparts hsorted (Nat.lt_succ_self _) hk hf
      · rw [if_neg hnext] at hk
        exact hupper k hk f (mem_part hf)

/-- A catalog over `es`: an empty one has no root. -/
def Catalog (s : Store) (id root : ℕ) (es : List CatalogEntry) : Prop :=
  (root = noBlock ∧ es = []) ∨ ∃ level, UnderNode s id level root es

/-- A leaf that spans the key is searched in place. -/
theorem leafCovers_some {c : CatalogCursor} {leaf : Page} (key : ℕ × ℕ) (hs : KeySorted es)
    (hleaf : c.leaf = some leaf) (hn : groupNode leaf = .ok (0, entries)) (hne : entries ≠ [])
    (hpath : Path s id es 0 c.parents before entries after) :
    ∃ o, c.leafCovers key = .ok o ∧ ∀ es' ∈ o, es' = entries ∧ (∀ f ∈ before, keyLt f.key key) ∧
      ∀ f ∈ after, ¬ keyLt f.key key := by
  have hpos := List.length_pos_iff.2 hne
  have hcover : c.leafCovers key = .ok (if ¬ keyLt key entries[0].key ∧
      ¬ keyLt (entries.getLast hne).key key then some entries else none) := by
    unfold leafCovers
    rw [hleaf]
    simp only [hn, ok_bind, entryAt_eq hpos, entryAt_last hne]
  refine ⟨_, hcover, fun es' hes => ?_⟩
  rcases Decidable.em (¬ keyLt key entries[0].key ∧ ¬ keyLt (entries.getLast hne).key key) with
    hin | hout
  swap
  · rw [if_neg hout] at hes
    cases hes
  rw [if_pos hin] at hes
  cases hes
  obtain ⟨hlo, hhi⟩ := hin
  have hsplit := hpath.split
  rw [hsplit] at hs
  obtain ⟨hpre, -, hsuf⟩ := List.pairwise_append.1 hs
  refine ⟨rfl, fun f hf => ?_, fun f hf hlt => hhi ?_⟩
  · have := (List.pairwise_append.1 hpre).2.2 f hf _ (List.getElem_mem hpos)
    unfold keyLt at *
    omega
  · exact keyLt_trans (hsuf _ (List.mem_append_right _ (List.getLast_mem hne)) f hf) hlt

/-- Seeking moves to the first entry not below the key, wherever the cursor stood. -/
theorem seek_sees {c : CatalogCursor} {root : ℕ} {key : ℕ × ℕ} {rest : List CatalogEntry}
    (hH : Catalogued s id H) (hs : KeySorted es) (hc : Catalog s id root es)
    (h : Stands s id es c rest) :
    Sees H t (c.seek id root key) (fun y _ => Moved s id es (es.dropWhile (below key)) y) := by
  have hfresh : Sees H t (if root = noBlock then
        pure (none, { c with leaf := none, parents := [] })
      else seekFrom id key (catalogLevels + 1) root none none none
        { c with leaf := none, parents := [] })
      (fun y _ => Moved s id es (es.dropWhile (below key)) y) := by
    rcases hc with ⟨hroot, rfl⟩ | ⟨level, hu⟩
    · rw [if_pos hroot]
      exact Sees.pure ⟨rfl, .inl ⟨rfl, rfl⟩⟩
    · have hu' := hu
      obtain ⟨entries, parts, hn, -⟩ := hu'
      have hn' := hH.kept 0 root level entries hn
      have hroot : root ≠ noBlock := by
        exact (hH.pages 0).ne_noBlock (b := root) (by rw [hn']; simp [Body.kind])
      rw [if_neg hroot]
      refine seekFrom_sees hH hs .top hu (by simp) (by simp) (by simp) (by simp) (by simp) ?_
      have := (node_range hH hn).1
      unfold catalogLevels
      omega
  unfold seek
  rcases h with ⟨hleaf, rfl⟩ | ⟨leaf, entries, before, after, hleaf, hn, hpath, hslot, rfl⟩
  · have hnone : c.leafCovers key = .ok none := by
      unfold leafCovers
      rw [hleaf]
    exact Sees.ofExcept_bind hnone hfresh
  · have hne := List.ne_nil_of_length_pos (Nat.lt_of_le_of_lt (Nat.zero_le _) hslot)
    obtain ⟨o, ho, hcases⟩ := leafCovers_some key hs hleaf hn hne hpath
    refine Sees.ofExcept_bind ho ?_
    cases o with
    | none => exact hfresh
    | some es' =>
      obtain ⟨rfl, hbefore, hafter⟩ := hcases es' rfl
      have hleaf' : { c with slot := lowerBound es' key es'.length 0 es'.length } =
          { c with slot := lowerBound es' key es'.length 0 es'.length, leaf := some leaf } := by
        rw [← hleaf]
      change Sees H t (current { c with slot := lowerBound es' key es'.length 0 es'.length } id) _
      rw [hleaf']
      exact seek_leaf hH hs hn hpath hbefore hafter

/-! ### Requests -/

/-- What a reader asks of a cursor. -/
inductive Request
  | seek (key : ℕ × ℕ)
  | advance

/-- The entries left behind the request. -/
def Request.left (es rest : List CatalogEntry) : Request → List CatalogEntry
  | .seek key => es.dropWhile (below key)
  | .advance => rest.tail

/-- One request to the cursor. -/
def Request.ask (id root : ℕ) (c : CatalogCursor) :
    Request → Rd (Option CatalogEntry × CatalogCursor)
  | .seek key => c.seek id root key
  | .advance => c.advance id

/-- The answers of a cursor to requests in a row. -/
def askAll (id root : ℕ) : List Request → CatalogCursor → Rd (List (Option CatalogEntry))
  | [], _ => return []
  | q :: qs, c => do
    let (e, c) ← q.ask id root c
    let es ← askAll id root qs c
    return e :: es

/-- The answers of an iterator over the list `es` with `rest` left. -/
def answers (es : List CatalogEntry) : List Request → List CatalogEntry → List (Option CatalogEntry)
  | [], _ => []
  | q :: qs, rest => (q.left es rest).head? :: answers es qs (q.left es rest)

theorem Request.ask_sees {c : CatalogCursor} {root : ℕ} {rest : List CatalogEntry} (q : Request)
    (hH : Catalogued s id H) (hs : KeySorted es) (hc : Catalog s id root es)
    (h : Stands s id es c rest) :
    Sees H t (q.ask id root c) fun y _ => Moved s id es (q.left es rest) y := by
  cases q with
  | seek key => exact seek_sees hH hs hc h
  | advance => exact advance_sees hH hs h

/-- Every request sequence is answered as the list of the entries answers it. -/
theorem askAll_sees {c : CatalogCursor} {root : ℕ} {rest : List CatalogEntry} (qs : List Request)
    (hH : Catalogued s id H) (hs : KeySorted es) (hc : Catalog s id root es)
    (h : Stands s id es c rest) :
    Sees H t (askAll id root qs c) fun y _ => y = answers es qs rest := by
  induction qs generalizing t c rest with
  | nil => exact Sees.pure rfl
  | cons q qs ih =>
    refine (q.ask_sees hH hs hc h).bind ?_
    rintro ⟨e, c'⟩ t' - ⟨he, hstands⟩
    refine (ih hstands).bind ?_
    rintro _ t'' - rfl
    refine Sees.pure ?_
    rw [answers, ← he]

/-- A cursor that has read nothing yet. -/
theorem stands_new : Stands s id es .new [] := .inl ⟨rfl, rfl⟩

end

end Grouped

end PinCore
