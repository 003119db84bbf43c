import PinCore.Grouped.Rows

/-!
# Writing a segment

The sorted rows are read once.  The owners of one key are collected and sealed when the next key
begins; suffixes go to a catalog of their own.  A list of rows is written exactly if it is orderly
and has as many rows as were counted, and the segment that is then published indexes what the rows
say.
-/

namespace PinCore

open Prog

namespace Grouped

/-! ### The operation -/

/-- The state of the loop over the rows. -/
structure Writing where
  snapshot : GroupSnapshot
  catalog : CatalogBuilder
  anchors : Option CatalogBuilder
  members : List Member
  pages : List PageOffsets
  current : Option (ℕ × ℕ)
  previous : Option SortRecord
  previousRoot : Option RootTid
  seen : ℕ
  frontierTerms : ℕ
  frontierTerm : Option ℕ
  stats : BuildStats

namespace Writing

/-- Before the first row. -/
def new (x : GroupSnapshot) (anchored : Bool) (stats : BuildStats) : Writing :=
  ⟨x, .new, if anchored then some .new else none, [], [], none, none, none, 0, 0, none, stats⟩

/-- Seals the current key. -/
def flush (w : Writing) : Wr Writing :=
  match w.current with
  | none => return w
  | some key => do
    let (snapshot, catalog, stats) ← sealGroup w.snapshot w.catalog key w.members w.pages w.stats
    return { w with snapshot, catalog, stats }

/-- Makes a key the current one. -/
def start (w : Writing) (key : ℕ × ℕ) : Wr Writing :=
  if w.current = some key then return w
  else do
    let w ← w.flush
    return { w with members := [], pages := [], previousRoot := none, current := some key }

/-- Collects an owner of the current key. -/
def collect (w : Writing) (limit term : ℕ) (member : Member) : Wr Writing := do
  Prog.ensure (w.previousRoot ≠ some member.root) .duplicateDocument
  Prog.ensure (term = 0 → w.members.length ≠ limit) (.limit "group members")
  Prog.ensure (w.seen + 1 < 18446744073709551616) (.limit "group sort records")
  return { w with
    previousRoot := some member.root
    members := if term = 0 then w.members ++ [member] else w.members
    pages := if term = 0 then w.pages else addOffset w.pages member.root
    seen := w.seen + 1 }

/-- Handles the row of an owner. -/
def owner (w : Writing) (limit term : ℕ) (member : Member) : Wr Writing := do
  Prog.ensure (¬ ((w.anchors.isSome = true ∧ term ≠ 0 ∧ w.frontierTerm ≠ some term) ∨
    w.snapshot.id ≤ member.incarnation)) .invalidState
  let w ← w.start (term, groupBase member.root.block)
  w.collect limit term member

/-- Handles the row of a suffix. -/
def suffix (w : Writing) (term : ℕ) (anchor : Anchor) : Wr Writing :=
  match w.anchors with
  | none => Prog.fail .invalidState
  | some anchors => do
    Prog.ensure (anchor.last < w.snapshot.id) .invalidState
    let (snapshot, anchors) ← anchors.push w.snapshot (anchor.entry term)
    Prog.ensure (w.frontierTerms + 1 < 18446744073709551616) (.limit "frontier terms")
    return { w with
      snapshot
      anchors := some anchors
      frontierTerm := some term
      frontierTerms := w.frontierTerms + 1 }

/-- Takes one row, which must be above the last one. -/
def row (limit : ℕ) (w : Writing) (r : SortRecord) : Wr Writing := do
  Prog.ensure (∀ p ∈ w.previous, p.Lt r) .invalidState
  let w := { w with previous := some r }
  match ← Prog.ofExcept (Anchor.fromSort r) with
  | some (term, anchor) => w.suffix term anchor
  | none =>
    let l ← Prog.reading layout
    let (term, member) ← Prog.ofExcept (r.fields l)
    w.owner limit term member

/-- The loop over the rows. -/
def rows (limit : ℕ) : List SortRecord → Writing → Wr Writing
  | [], w => return w
  | r :: rs, w => do
    let w ← w.row limit r
    rows limit rs w

/-- Checks the counts, seals the last key and closes the catalogs. -/
def close (w : Writing) : Wr (GroupSnapshot × BuildStats) := do
  Prog.ensure (w.frontierTerms = w.stats.frontierTerms) .invalidState
  Prog.ensure (w.stats.documents + w.stats.postings < 18446744073709551616) (.limit "group records")
  Prog.ensure (w.seen = w.stats.documents + w.stats.postings) .invalidState
  let w ← w.flush
  let x ← w.catalog.finish w.snapshot
  match w.anchors with
  | none => return (x, w.stats)
  | some anchors => do
    let y ← anchors.finish { x with root := noBlock }
    return ({ y with frontierRoot := some y.root, frontierValid := true, root := x.root }, w.stats)

end Writing

/-- Writes the sorted rows as a segment and publishes it, alone or as a delta.  (`write_sorted` in
the source; `anchored` is set where it is asked for and the host keeps suffixes.) -/
def writeSorted (rows : List SortRecord) (stats : BuildStats) (after : Option OwnerRef)
    (anchored : Bool) (delta : Option (Option OwnerRef × ℕ × ℕ)) : Wr BuildStats := do
  let l ← Prog.reading layout
  let old ← Prog.reading blocks
  let x ← begin after
  let w ← Writing.rows (256 * l.maxOffset) rows (.new x anchored stats)
  let (x, stats) ← w.close
  let (reclaimed, written) ← match delta with
    | some (before, level, replaceFrom) => publishDelta x before level replaceFrom
    | none => publish x
  let now ← Prog.reading blocks
  Prog.ensure (old ≤ now) .invalidState
  Prog.ensure (stats.reclaimedPages + reclaimed < 4294967296) (.limit "group pages")
  Prog.ensure (now - old ≤ written) .invalidState
  return { stats with
    reclaimedPages := stats.reclaimedPages + reclaimed
    writtenPages := written
    reusedPages := written - (now - old) }

/-! ### What was written -/

/-- The entries of the catalog of suffixes. -/
def suffixEntries (cs : List Content) : List CatalogEntry :=
  (suffixesIn cs).map fun a => a.2.entry a.1

/-- The rows are orderly, and as many as were counted. -/
structure Admissible (l : HeapLayout) (id : ℕ) (anchored : Bool) (rows : List SortRecord)
    (stats : BuildStats) (cs : List Content) : Prop where
  orderly : Orderly l id anchored rows cs
  frontierTerms : (suffixesIn cs).length = stats.frontierTerms
  records : (postsIn cs).length = stats.documents + stats.postings

/-- The counts of a build after these entries. -/
def BuildStats.counted (stats : BuildStats) (es : List CatalogEntry) : BuildStats :=
  { stats with
    groups := stats.groups + es.countP fun e => e.key.1 = 0
    termGroups := stats.termGroups + es.countP fun e => e.key.1 ≠ 0 }

/-- The entries are those of the owners whose key is not the current one. -/
structure Sealed (s : Store) (id : ℕ) (ps : List Post) (current : Option (ℕ × ℕ))
    (es : List CatalogEntry) : Prop where
  keys : ∀ key, (∃ e ∈ es, e.key = key) ↔ (∃ p ∈ ps, p.key = key) ∧ current ≠ some key
  bitmap : ∀ e ∈ es, SealedAs s id e (rootsAt ps e.key)
  roster : ∀ e ∈ es, e.key.1 = 0 → RosterAs s id e (membersAt ps e.key)

/-- The catalogs under construction, with the entries of all keys but the current one. -/
structure Catalogs (s : Store) (x : GroupSnapshot) (anchored : Bool) (stats : BuildStats)
    (cs : List Content) (current : Option (ℕ × ℕ)) (w : Writing) (es : List CatalogEntry) :
    Prop where
  collects : w.catalog.Collects s x es
  tip : anchored = false → w.catalog.Tip x catalogLevels
  keyed : Sealed s x.id (postsIn cs) current es
  stats : w.stats = stats.counted es
  bare : anchored = false → w.anchors = none
  suffixes : anchored = true → ∃ b, w.anchors = some b ∧ b.Collects s x (suffixEntries cs)

/-- What the loop has read and built. -/
structure Progress (s₀ s : Store) (x₀ : GroupSnapshot) (m₀ m : MetaBody) (anchored : Bool)
    (stats : BuildStats) (done : List SortRecord) (cs : List Content) (w : Writing) : Prop where
  grown : Grown s₀ s x₀ w.snapshot m₀ m
  orderly : Orderly s₀.layout x₀.id anchored done cs
  previous : w.previous = done.getLast?
  seen : w.seen = (postsIn cs).length
  frontierTerms : w.frontierTerms = (suffixesIn cs).length
  frontierTerm : w.frontierTerm = (suffixesIn cs).getLast?.map Prod.fst
  current : w.current = (postsIn cs).getLast?.map Post.key
  previousRoot : w.previousRoot = (postsIn cs).getLast?.map (·.member.root)
  gathering : ∀ key ∈ w.current, Gathering (segmentKey s₀ x₀.id key.2) key w.members w.pages
    (membersAt (postsIn cs) key)
  catalogs : ∃ es, Catalogs s w.snapshot anchored stats cs w.current w es
  untouched : done = [] → w.snapshot = x₀

/-- A finished segment over what the rows say. -/
structure Closed (s₀ s : Store) (x₀ y : GroupSnapshot) (m₀ m : MetaBody) (anchored : Bool)
    (cs : List Content) (es : List CatalogEntry) : Prop where
  grown : ∃ x, Grown s₀ s x₀ x m₀ m ∧ y = { x with
    root := y.root, frontierRoot := y.frontierRoot, frontierValid := y.frontierValid }
  catalog : Catalog s y.id y.root es
  entries : CatalogBuilder.Entries es
  keyed : Sealed s y.id (postsIn cs) none es
  plain : anchored = false → y.frontierRoot = none ∧ y.frontierValid = false ∧ y.root = y.tail
  suffixes : anchored = true → y.frontierValid = true ∧ ∃ root, y.frontierRoot = some root ∧
    Catalog s y.id root (suffixEntries cs) ∧ CatalogBuilder.Entries (suffixEntries cs)
  untouched : cs = [] → y.head = noBlock

section

variable {E : Error → Prop} {s s' s₀ : Store} {m m' m₀ : MetaBody} {x x' x₀ : GroupSnapshot}
  {anchored : Bool} {stats : BuildStats} {done rest : List SortRecord} {cs : List Content}
  {w w' : Writing} {es : List CatalogEntry} {ps : List Post} {p : Post} {id limit term : ℕ}
  {current : Option (ℕ × ℕ)} {r : SortRecord} {a : Anchor} {e : CatalogEntry} {key : ℕ × ℕ}

theorem Sealed.grown (hg : Grown s s' x x' m m') (h : Sealed s id ps current es) :
    Sealed s' id ps current es :=
  ⟨h.keys, fun e he => hg.sealedAs (h.bitmap e he), fun e he h0 => hg.rosterAs (h.roster e he h0)⟩

/-- One owner more of a key that is not sealed. -/
theorem Sealed.post (h : Sealed s id ps current es)
    (hcur : current = some p.key ∨ (current = none ∧ ∀ q ∈ ps, q.key ≠ p.key)) :
    Sealed s id (ps ++ [p]) (some p.key) es := by
  have hne : ∀ e ∈ es, e.key ≠ p.key := by
    intro e he hek
    obtain ⟨⟨q, hq, hqk⟩, hc⟩ := (h.keys e.key).1 ⟨e, he, rfl⟩
    rcases hcur with rfl | ⟨-, hall⟩
    · exact hc (congrArg some hek.symm)
    · exact hall q hq (hqk.trans hek)
  refine ⟨fun key => ?_, fun e he => ?_, fun e he h0 => ?_⟩
  · rw [h.keys]
    simp only [List.mem_append, List.mem_singleton, or_and_right, exists_or, exists_eq_left]
    rcases hcur with rfl | ⟨rfl, hall⟩
    · grind
    · grind
  · rw [rootsAt, membersAt_other (hne e he)]
    exact h.bitmap e he
  · rw [membersAt_other (hne e he)]
    exact h.roster e he h0

/-- The current key was sealed. -/
theorem Sealed.entered (h : Sealed s id ps (some e.key) es) (hmem : ∃ p ∈ ps, p.key = e.key)
    (hb : SealedAs s id e (rootsAt ps e.key))
    (hr : e.key.1 = 0 → RosterAs s id e (membersAt ps e.key)) :
    Sealed s id ps none (es ++ [e]) := by
  refine ⟨fun key => ?_, fun f hf => ?_, fun f hf h0 => ?_⟩
  · have := h.keys key
    simp only [List.mem_append, List.mem_singleton, or_and_right, exists_or, exists_eq_left, this]
    grind
  · rcases List.mem_append.1 hf with hf | hf
    · exact h.bitmap f hf
    · rw [List.mem_singleton.1 hf]
      exact hb
  · rcases List.mem_append.1 hf with hf | hf
    · exact h.roster f hf h0
    · rw [List.mem_singleton.1 hf] at h0 ⊢
      exact hr h0

theorem BuildStats.counted_append : stats.counted (es ++ [e]) =
    if e.key.1 = 0 then { stats.counted es with groups := (stats.counted es).groups + 1 }
    else { stats.counted es with termGroups := (stats.counted es).termGroups + 1 } := by
  unfold BuildStats.counted
  split_ifs with h0 <;> simp [h0, Nat.add_assoc]

/-! ### Sealing the current key -/

theorem KeySorted.nodup (hs : KeySorted es) : (es.map (·.key)).Nodup := by
  refine List.pairwise_map.2 (hs.imp fun hlt heq => ?_)
  rw [heq] at hlt
  exact keyLt_irrefl _ hlt

theorem Sealed.length_le (h : Sealed s id ps current es) (hs : KeySorted es) :
    es.length ≤ ps.length := by
  have hsub : es.map (·.key) ⊆ ps.map Post.key := by
    intro k hk
    obtain ⟨e, he, hek⟩ := List.mem_map.1 hk
    exact List.mem_map.2 ((h.keys k).1 ⟨e, he, hek⟩).1
  have hle := (hs.nodup.subperm hsub).length_le
  rwa [List.length_map, List.length_map] at hle

theorem Sealed.length_lt (h : Sealed s id ps (some key) es) (hs : KeySorted es)
    (hmem : ∃ p ∈ ps, p.key = key) : es.length < ps.length := by
  have hnodup : (key :: es.map (·.key)).Nodup := by
    refine List.nodup_cons.2 ⟨fun hk => ?_, hs.nodup⟩
    obtain ⟨e, he, hek⟩ := List.mem_map.1 hk
    exact ((h.keys key).1 ⟨e, he, hek⟩).2 rfl
  have hsub : (key :: es.map (·.key)) ⊆ ps.map Post.key := by
    intro k hk
    rw [List.mem_map]
    rcases List.mem_cons.1 hk with rfl | hk
    · exact hmem
    · obtain ⟨e, he, hek⟩ := List.mem_map.1 hk
      exact ((h.keys k).1 ⟨e, he, hek⟩).1
  have hle := (hnodup.subperm hsub).length_le
  rw [List.length_cons, List.length_map, List.length_map] at hle
  exact hle

/-- The entries so far are below the current key. -/
theorem Sealed.below (h : Sealed s id ps (some p.key) es) (hs : ps.Pairwise Post.Lt)
    (hlast : ps.getLast? = some p) : ∀ k ∈ es.getLast?.map (·.key), keyLt k p.key := by
  intro k hk
  obtain ⟨e, he, rfl⟩ := Option.map_eq_some_iff.1 hk
  obtain ⟨⟨q, hq, hqk⟩, hne⟩ := (h.keys e.key).1 ⟨e, List.mem_of_getLast? he, rfl⟩
  rw [← hqk]
  refine (keys_le_last hs hlast hq).resolve_right fun heq => hne ?_
  rw [← hqk, heq]

namespace Writing

theorem flush_spec (h : Appending s w.snapshot m) (hE : E .host) (hid : w.snapshot.id < 2 ^ 64)
    (ho : Orderly s.layout w.snapshot.id anchored done cs)
    (hterm : ∀ r ∈ done, r.term = 0 ∨ Anchor.validTerm r.term) (hlen : done.length ≤ catalogRoom)
    (hcur : w.current = (postsIn cs).getLast?.map Post.key)
    (hg : ∀ key ∈ w.current, Gathering (segmentKey s w.snapshot.id key.2) key w.members w.pages
      (membersAt (postsIn cs) key))
    (hc : Catalogs s w.snapshot anchored stats cs w.current w es) :
    Spec E (Aside s m) s w.flush fun w' s' => ∃ m' es', Grown s s' w.snapshot w'.snapshot m m' ∧
      w' = { w with snapshot := w'.snapshot, catalog := w'.catalog, stats := w'.stats } ∧
      Catalogs s' w'.snapshot anchored stats cs none w' es' ∧ (w.current = none → w' = w) := by
  cases hlast : (postsIn cs).getLast? with
  | none =>
    rw [hlast] at hcur
    have hflush : w.flush = pure w := by rw [flush, hcur]; rfl
    rw [hcur] at hc
    rw [hflush]
    exact Spec.pure ⟨m, es, h.grown, rfl, hc, fun _ => rfl⟩
  | some p =>
    rw [hlast] at hcur
    have hcur : w.current = some p.key := hcur
    rw [hcur] at hg hc
    rw [flush, hcur]
    have hpm := List.mem_of_getLast? hlast
    have hmem : ∃ q ∈ postsIn cs, q.key = p.key := ⟨p, hpm, rfl⟩
    have hcount := hc.keyed.length_lt hc.collects.entries.1 hmem
    have hall := ho.length_add
    have hof : ∀ y ∈ membersAt (postsIn cs) p.key, y.Of (segmentKey s w.snapshot.id p.key.2) :=
      fun y hy => ho.owner_of (Nat.le_of_lt hid) (mem_membersAt.1 hy) w.snapshot.id
    have hne : membersAt (postsIn cs) p.key ≠ [] :=
      List.ne_nil_of_mem (mem_membersAt.2 hpm)
    have hgathered := (hg p.key rfl).gathered hne (membersAt_ascending ho.posts p.key) hof
    refine (sealGroup_spec h hE hid hc.collects (hc.keyed.below ho.posts hlast) (fun hdeep => ?_)
      (ho.validKey hterm hpm) hgathered).bind ?_
    · have : catalogRoom < catalogEntries ^ catalogLevels := by decide +kernel
      omega
    · rintro ⟨x₁, c₁, stats₁⟩ s₁ ⟨m₁, e, he, hroster, hstats⟩
      have hkey : e.key = p.key := he.key
      have hgrown : Grown s s₁ w.snapshot x₁ m m₁ := he.grown
      refine Spec.pure ⟨m₁, es ++ [e], hgrown, rfl, ⟨he.collects, fun _ => he.tip, ?_, ?_,
        hc.bare, fun ha => ?_⟩, fun hn => ?_⟩
      · have hold : Sealed s₁ w.snapshot.id (postsIn cs) (some e.key) es := by
          rw [hkey]
          exact hc.keyed.grown hgrown
        change Sealed s₁ x₁.id _ _ _
        rw [hgrown.id]
        refine hold.entered (by rwa [hkey]) (by rw [hkey]; exact he.sealedAs) ?_
        rw [hkey]
        intro h0
        have := hroster h0
        rwa [(hg p.key rfl).members h0] at this
      · have hstats : stats₁ = _ := hstats
        change stats₁ = _
        rw [hstats, BuildStats.counted_append, hkey, hc.stats]
      · obtain ⟨b, hb, hcb⟩ := hc.suffixes ha
        exact ⟨b, hb, hcb.mono hgrown.body hgrown.id⟩
      · cases hn

end Writing

/-! ### The row of a suffix -/

theorem Anchor.entry_valid (ht : Anchor.validTerm term) :
    validKey (a.entry term).key ∧ (a.entry term).value.length = 64 := by
  refine ⟨⟨Nat.zero_le _, rfl, .inr ht⟩, ?_⟩
  simp [Anchor.entry, Reader.length_leBytes]

theorem suffixEntries_append (cs : List Content) (term : ℕ) (a : Anchor) :
    suffixEntries (cs ++ [.suffix term a]) = suffixEntries cs ++ [a.entry term] := by
  simp [suffixEntries]

theorem suffixEntries_owner (cs : List Content) (p : Post) :
    suffixEntries (cs ++ [.owner p]) = suffixEntries cs := by
  simp [suffixEntries]

theorem mem_last_suffixEntries {k : ℕ × ℕ} :
    k ∈ (suffixEntries cs).getLast?.map (·.key) ↔
      ∃ b, (suffixesIn cs).getLast? = some b ∧ k = (b.1, 0) := by
  rw [suffixEntries, List.getLast?_map, Option.map_map]
  cases (suffixesIn cs).getLast? with
  | none => simp
  | some b =>
    simp only [Option.map_some, Option.mem_def, Option.some.injEq, exists_eq_left']
    exact eq_comm

/-- An entry out of order is refused. -/
theorem push_refused {α : Type} {b : CatalogBuilder} {f : GroupSnapshot × CatalogBuilder → Wr α}
    {C : Store → Prop} {Q : α → Store → Prop} (h : ∃ k ∈ b.previous, ¬ keyLt k e.key)
    (hE : E .invalidState) : Spec E C s (b.push x e >>= f) Q := by
  rw [CatalogBuilder.push, if_pos h]
  exact ⟨fun _ hs => absurd hs List.not_mem_nil, hE⟩

/-- In orderly rows, the next row says what is read of it. -/
theorem Progress.next {c : Content} {ds : List Content}
    (hp : Progress s₀ s x₀ m₀ m anchored stats done cs w) (hr : r.content s₀.layout = .ok c)
    (h : Orderly s₀.layout x₀.id anchored (done ++ r :: rest) ds) :
    ∃ es, ds = cs ++ c :: es ∧ rest.map (fun r => r.content s₀.layout) = es.map .ok := by
  obtain ⟨d, es, hd, rfl, hes⟩ := h.next hp.orderly.content
  obtain rfl := Except.ok.inj (hd.symm.trans hr)
  exact ⟨es, rfl, hes⟩

namespace Writing

theorem suffix_spec (hp : Progress s₀ s x₀ m₀ m anchored stats done cs w) (hE : E .host)
    (hlen : done.length < catalogRoom) (hsort : ∀ q ∈ done.getLast?, q.Lt r)
    (hr : r.content s₀.layout = .ok (.suffix term a))
    (hbad : (∀ ds, ¬ Orderly s₀.layout x₀.id anchored (done ++ r :: rest) ds) → ∀ e, E e) :
    Spec E (Aside s m) s ({ w with previous := some r }.suffix term a) fun w' s' =>
      ∃ m', Progress s₀ s' x₀ m₀ m' anchored stats (done ++ [r]) (cs ++ [.suffix term a]) w' := by
  obtain ⟨es, hc⟩ := hp.catalogs
  have hall := hp.orderly.length_add
  cases anchored with
  | false =>
    have hnone := hc.bare rfl
    unfold suffix
    dsimp only
    rw [hnone]
    refine Spec.fail (hbad (fun ds hds => ?_) _)
    obtain ⟨es, rfl, -⟩ := hp.next hr hds
    exact absurd hds.next_suffix.1 (by simp)
  | true =>
    obtain ⟨b, hb, hcb⟩ := hc.suffixes rfl
    unfold suffix
    dsimp only
    rw [hb]
    have hid : w.snapshot.id = x₀.id := hp.grown.id
    refine Spec.guard_bind (fun hn => hbad (fun ds hds => ?_) _) fun hlast => ?_
    · obtain ⟨es, rfl, -⟩ := hp.next hr hds
      rw [hid] at hn
      exact hn hds.next_suffix.2.1
    by_cases hkey : ∀ k ∈ (suffixEntries cs).getLast?.map (·.key), keyLt k (a.entry term).key
    · obtain ⟨hterm, -, hvalid, -⟩ := SortRecord.content_suffix hr
      refine (CatalogBuilder.push_spec hp.grown.appending hE hcb hkey (Anchor.entry_valid hvalid)
        fun hdeep => ?_).bind ?_
      · rw [suffixEntries, List.length_map] at hdeep
        have : catalogRoom < catalogEntries ^ catalogLevels := by decide +kernel
        omega
      rintro ⟨x₁, b₁⟩ s₁ ⟨m₁, hg, hcb₁, -⟩
      have hg : Grown s s₁ w.snapshot x₁ m m₁ := hg
      have hcb₁ : b₁.Collects s₁ x₁ (suffixEntries cs ++ [a.entry term]) := hcb₁
      refine Spec.ensure_bind ?_ (Spec.pure ⟨m₁, ?_⟩)
      · rw [hp.frontierTerms]
        have : catalogRoom < 18446744073709551616 := by decide +kernel
        omega
      have hord := hp.orderly.suffix hsort hr rfl (by rwa [hid] at hlast) fun c hcm => by
        have := hkey _ (mem_last_suffixEntries.2 ⟨c, hcm, rfl⟩)
        rcases this with hlt | ⟨-, hlt⟩
        · exact hlt
        · exact absurd hlt (Nat.lt_irrefl 0)
      refine ⟨hp.grown.trans hg, hord, by simp, ?_, ?_, by simp, ?_, ?_, ?_, ⟨es, ?_⟩, by simp⟩
      · simpa using hp.seen
      · simpa using hp.frontierTerms
      · simpa using hp.current
      · simpa using hp.previousRoot
      · simpa using hp.gathering
      · refine ⟨hc.collects.mono hg.body
          hg.id, by simp, ?_, hc.stats, by simp, fun _ => ⟨b₁, rfl, ?_⟩⟩
        · have := hc.keyed.grown hg
          rw [← hg.id] at this
          simpa using this
        · rw [suffixEntries_append]
          exact hcb₁
    · -- the catalog of suffixes refuses a term twice
      refine push_refused ?_ (hbad (fun ds hds => hkey fun k hk => ?_) _)
      · rw [hcb.previous]
        simp only [not_forall] at hkey
        obtain ⟨k, hk, hlt⟩ := hkey
        exact ⟨k, hk, hlt⟩
      · obtain ⟨c, hcm, rfl⟩ := mem_last_suffixEntries.1 hk
        obtain ⟨es, rfl, -⟩ := hp.next hr hds
        exact .inl (hds.next_suffix.2.2 c (List.mem_of_getLast? hcm))

/-! ### The row of an owner -/

/-- A key that is not the current one has no owner yet. -/
theorem key_new (hp : Progress s₀ s x₀ m₀ m anchored stats done cs w) (hsort : ∀ q ∈ done, q.Lt r)
    (hr : r.content s₀.layout = .ok (.owner p)) (hne : w.current ≠ some p.key) :
    ∀ q ∈ postsIn cs, q.key ≠ p.key := by
  intro q hq heq
  have hnil := List.ne_nil_of_mem hq
  have hlast := List.getLast?_eq_some_getLast hnil
  obtain ⟨z, hz⟩ : ∃ z, (postsIn cs).getLast hnil = z := ⟨_, rfl⟩
  rw [hz] at hlast
  rw [hp.current, hlast] at hne
  -- the last key is between the two
  obtain ⟨r', hr', hz'⟩ := Orderly.exists_row hp.orderly.content
    (mem_postsIn.1 (List.mem_of_getLast? hlast))
  have hle : keyLt z.key p.key ∨ z.key = p.key := by
    rcases (hsort r' hr').posts hz' hr with hlt | ⟨hkey, -⟩
    · exact hlt.key_le
    · exact .inr hkey
  have hle' := keys_le_last hp.orderly.posts hlast hq
  rw [heq] at hle'
  refine hne (congrArg some ?_)
  rcases hle with hle | hle
  · rcases hle' with hle' | hle'
    · exact absurd (keyLt_trans hle hle') (keyLt_irrefl _)
    · exact hle'.symm
  · exact hle

/-- The key of the next owner becomes the current one; another key is sealed before. -/
theorem start_spec (hp : Progress s₀ s x₀ m₀ m anchored stats done cs w) (hE : E .host)
    (hid : x₀.id < 2 ^ 64) (hterm : ∀ r ∈ done, r.term = 0 ∨ Anchor.validTerm r.term)
    (hlen : done.length ≤ catalogRoom) (hsort : ∀ q ∈ done, q.Lt r)
    (hr : r.content s₀.layout = .ok (.owner p)) :
    Spec E (Aside s m) s ({ w with previous := some r }.start p.key) fun w' s' => ∃ m' es,
      Grown s s' w.snapshot w'.snapshot m m' ∧
      w' = { w' with
        anchors := w.anchors
        current := some p.key
        previous := some r
        previousRoot := if w.current = some p.key then w.previousRoot else none
        seen := w.seen
        frontierTerms := w.frontierTerms
        frontierTerm := w.frontierTerm } ∧
      Gathering (segmentKey s₀ x₀.id p.key.2) p.key w'.members w'.pages
        (membersAt (postsIn cs) p.key) ∧
      Catalogs s' w'.snapshot anchored stats (cs ++ [.owner p]) (some p.key) w' es := by
  obtain ⟨es, hc⟩ := hp.catalogs
  have hposts : postsIn (cs ++ [.owner p]) = postsIn cs ++ [p] := by simp
  unfold start
  dsimp only
  by_cases hcur : w.current = some p.key
  · rw [if_pos hcur]
    refine Spec.pure ⟨m, es, hp.grown.appending.grown, ?_, hp.gathering _ hcur, hc.collects, hc.tip,
      ?_, hc.stats, hc.bare, ?_⟩
    · rw [if_pos hcur, ← hcur]
    · rw [hposts]
      exact hc.keyed.post (.inl hcur)
    · rw [suffixEntries_owner]
      exact hc.suffixes
  · rw [if_neg hcur]
    have hnew := key_new hp hsort hr hcur
    have hid' : w.snapshot.id = x₀.id := hp.grown.id
    have hflush := @flush_spec E s m anchored stats done cs { w with previous := some r } es
      hp.grown.appending hE (by rw [hid']; exact hid)
      (by rw [hid', hp.grown.layout]; exact hp.orderly) hterm hlen hp.current
      (by rw [hid']; intro key hkey; rw [hp.grown.segmentKey]; exact hp.gathering key hkey)
      ⟨hc.collects, hc.tip, hc.keyed, hc.stats, hc.bare, hc.suffixes⟩
    refine hflush.bind ?_
    rintro w₁ s₁ ⟨m₁, es₁, hg, hw₁, hc₁, -⟩
    refine Spec.pure ⟨m₁, es₁, hg, ?_, ?_, hc₁.collects, hc₁.tip, ?_, hc₁.stats, hc₁.bare, ?_⟩
    · rw [hw₁, if_neg hcur]
    · have hnone : membersAt (postsIn cs) p.key = [] :=
        List.eq_nil_iff_forall_not_mem.2 fun y hy => hnew _ (mem_membersAt.1 hy) rfl
      rw [hnone]
      exact .nil
    · rw [hposts]
      exact hc₁.keyed.post (.inr ⟨rfl, hnew⟩)
    · rw [suffixEntries_owner]
      exact hc₁.suffixes

theorem owner_spec (hp : Progress s₀ s x₀ m₀ m anchored stats done cs w) (hE : E .host)
    (hid : x₀.id < 2 ^ 64) (hterm : ∀ r ∈ done, r.term = 0 ∨ Anchor.validTerm r.term)
    (hlen : done.length < catalogRoom) (hsort : ∀ q ∈ done.getLast?, q.Lt r)
    (hr : r.content s₀.layout = .ok (.owner p)) (hk : validKey p.key)
    (hbad : (∀ ds, ¬ Orderly s₀.layout x₀.id anchored (done ++ r :: rest) ds) → ∀ e, E e) :
    Spec E (Aside s m) s
      ({ w with previous := some r }.owner (256 * s₀.layout.maxOffset) p.key.1
        p.member) fun w' s' =>
        ∃ m', Progress s₀ s' x₀ m₀ m' anchored stats (done ++ [r]) (cs ++ [.owner p]) w' := by
  obtain ⟨es, hc⟩ := hp.catalogs
  have hall := hp.orderly.length_add
  have hid' : w.snapshot.id = x₀.id := hp.grown.id
  obtain ⟨-, -, -, hkey, -⟩ := SortRecord.content_owner hr
  have hsorted := pairwise_concat .trans hp.orderly.sorted hsort
  have hbefore : ∀ q ∈ done, q.Lt r := fun q hq =>
    (List.pairwise_append.1 hsorted).2.2 q hq r (List.mem_singleton_self _)
  refine Spec.guard_bind (fun hn => hbad (fun ds hds => hn ?_) _) fun hcheck => ?_
  · -- the segment is older than the owner, and an anchored term has its suffix
    obtain ⟨es, rfl, hes⟩ := hp.next hr hds
    rw [not_or, not_and, not_and, not_not, Nat.not_le]
    refine ⟨fun ha h0 => ?_, by rw [hid']; exact hds.next_owner.1⟩
    have hanchored : anchored = true := by
      by_contra hn
      rw [hc.bare (Bool.eq_false_iff.2 hn)] at ha
      cases ha
    rw [hp.frontierTerm]
    exact hds.next_covered hp.orderly.content hr hes hanchored h0
  rw [not_or, not_and, not_and, not_not, Nat.not_le, hid'] at hcheck
  have hbase : (p.key.1, groupBase p.member.root.block) = p.key := by rw [hkey]
  rw [hbase]
  refine (start_spec hp hE hid hterm (Nat.le_of_lt hlen) hbefore hr).bind ?_
  rintro w₁ s₁ ⟨m₁, es₁, hg, hw₁, hgather, hc₁⟩
  have hprev : w₁.previousRoot = if w.current = some p.key then w.previousRoot else none := by
    rw [hw₁]
  refine hg.aside ?_
  refine Spec.guard_bind (fun hn => hbad (fun ds hds => hn ?_) _) fun hroot => ?_
  · -- the root is above the last one of its key
    obtain ⟨es, rfl, -⟩ := hp.next hr hds
    rw [hprev]
    split_ifs with hcur
    · rw [hp.previousRoot]
      rw [hp.current] at hcur
      obtain ⟨q, hq, hqk⟩ := Option.map_eq_some_iff.1 hcur
      rw [hq]
      intro heq
      have heq : q.member.root = p.member.root := Option.some.inj heq
      rcases hds.next_owner.2 q (List.mem_of_getLast? hq) with hlt | ⟨-, hlt⟩
      · rw [hqk] at hlt
        exact keyLt_irrefl _ hlt
      · rw [heq] at hlt
        exact Nat.lt_irrefl _ hlt
    · rintro ⟨⟩
  have hcov : anchored = true → p.key.1 ≠ 0 → ∃ a ∈ suffixesIn cs, a.1 = p.key.1 := by
    intro ha h0
    obtain ⟨b, hb, -⟩ := hc.suffixes ha
    have hlast := hcheck.1 (by change w.anchors.isSome = true; rw [hb]; rfl) h0
    rw [hp.frontierTerm] at hlast
    obtain ⟨y, hy, hterm⟩ := Option.map_eq_some_iff.1 hlast
    exact ⟨y, List.mem_of_getLast? hy, hterm⟩
  have hord : Orderly s₀.layout x₀.id anchored (done ++ [r]) (cs ++ [.owner p]) := by
    refine hp.orderly.owner hsort hr hcheck.2 hcov ?_
    rintro q hq ⟨hqk, hqr⟩
    have hcur : w.current = some p.key := by rw [hp.current, hq, ← hqk]; rfl
    rw [hprev, if_pos hcur, hp.previousRoot, hq, ← hqr] at hroot
    exact hroot rfl
  have hposts : postsIn (cs ++ [.owner p]) = postsIn cs ++ [p] := by simp
  have hlast : p ∈ postsIn (cs ++ [.owner p]) := by simp
  have hv : (segmentKey s₀ x₀.id p.key.2).Valid :=
    segmentKey_valid ⟨Nat.pos_of_ne_zero (by rw [← hid']; exact hp.grown.appending.id), hid⟩ hk
  have hof : ∀ y ∈ membersAt (postsIn cs) p.key ++ [p.member],
      y.Of (segmentKey s₀ x₀.id p.key.2) := by
    intro y hy
    rw [← membersAt_same, ← hposts] at hy
    exact hord.owner_of (Nat.le_of_lt hid) (mem_membersAt.1 hy) x₀.id
  have hasc := membersAt_ascending hord.posts p.key
  rw [hposts, membersAt_same] at hasc
  refine Spec.ensure_bind (fun h0 => ?_) (Spec.ensure_bind ?_ (Spec.pure ⟨m₁, ?_⟩))
  · -- a group has no more roots than its layout
    have hle := hasc.length_le hv hof
    rw [hgather.members h0]
    rw [List.length_append, List.length_singleton] at hle
    exact Nat.ne_of_lt hle
  · have hseen : w₁.seen = w.seen := by rw [hw₁]
    have : catalogRoom < 18446744073709551616 := by decide +kernel
    rw [hseen, hp.seen]
    omega
  · have hcross : ∀ y ∈ membersAt (postsIn cs) p.key,
        y.Of (segmentKey s₀ x₀.id p.key.2) ∧ rootKey y.root < rootKey p.member.root := fun y hy =>
      ⟨hof y (List.mem_append_left _ hy),
        (List.pairwise_append.1 hasc).2.2 y hy _ (List.mem_singleton_self _)⟩
    rw [hw₁]
    refine ⟨hp.grown.trans hg, hord, by simp, ?_, ?_, ?_, by simp, by simp, ?_, ⟨es₁, ?_⟩, by simp⟩
    · simpa using hp.seen
    · simpa using hp.frontierTerms
    · simpa using hp.frontierTerm
    · -- the open group takes the row as a member or as an offset
      rintro _ ⟨⟩
      rw [hposts, membersAt_same]
      by_cases h0 : p.key.1 = 0
      · simp only [if_pos h0]
        exact hgather.member h0
      · simp only [if_neg h0]
        exact hgather.offset hv h0 (hof _ (by simp)) hcross
    · rw [hw₁] at hc₁
      exact ⟨hc₁.collects, hc₁.tip, hc₁.keyed, hc₁.stats, hc₁.bare, hc₁.suffixes⟩

/-! ### The loop -/

theorem row_spec (hp : Progress s₀ s x₀ m₀ m anchored stats done cs w) (hE : E .host)
    (hid : x₀.id < 2 ^ 64) (hterm : ∀ q ∈ done ++ [r], q.term = 0 ∨ Anchor.validTerm q.term)
    (hlen : done.length < catalogRoom)
    (hbad : (∀ ds, ¬ Orderly s₀.layout x₀.id anchored (done ++ r :: rest) ds) → ∀ e, E e) :
    Spec E (Aside s m) s (w.row (256 * s₀.layout.maxOffset) r) fun w' s' => ∃ m' c,
      Progress s₀ s' x₀ m₀ m' anchored stats (done ++ [r]) (cs ++ [c]) w' := by
  have hcontent : ∀ {e}, r.content s₀.layout = .error e →
      ∀ e, E e := fun he => hbad fun ds hds => by
    obtain ⟨c, -, hc, -⟩ := hds.next hp.orderly.content
    rw [hc] at he
    cases he
  refine Spec.guard_bind (fun hn => hbad (fun ds hds => hn ?_) _) fun hsort => ?_
  · rw [hp.previous]
    exact hds.next_lt
  rw [hp.previous] at hsort
  refine Spec.attempt_bind (fun e he => hcontent (e := e) (by rw [SortRecord.content, he]; rfl) e)
    fun o ho => ?_
  cases o with
  | some ta =>
    obtain ⟨term, a⟩ := ta
    have hr : r.content s₀.layout = .ok (.suffix term a) := by rw [SortRecord.content, ho]; rfl
    refine (suffix_spec hp hE hlen hsort hr hbad).post ?_
    rintro w' s' ⟨m', hp'⟩
    exact ⟨m', _, hp'⟩
  | none =>
    refine Spec.reading_bind layout_returns ?_
    rintro _ rfl
    rw [hp.grown.layout]
    refine Spec.attempt_bind
      (fun e he => hcontent (e := e)
        (by rw [SortRecord.content, ho, ok_bind]; dsimp only; rw [he]; rfl) e)
      fun f hf => ?_
    obtain ⟨term, member⟩ := f
    have hr : r.content s₀.layout =
        .ok (.owner ⟨(term, groupBase member.root.block), member⟩) := by
      rw [SortRecord.content, ho, ok_bind]
      dsimp only
      rw [hf]
      rfl
    have hk := SortRecord.validKey hr (hterm r (by simp))
    refine (owner_spec hp hE hid (fun q hq => hterm q (List.mem_append_left _ hq)) hlen hsort hr hk
      hbad).post ?_
    rintro w' s' ⟨m', hp'⟩
    exact ⟨m', _, hp'⟩

theorem rows_spec (hp : Progress s₀ s x₀ m₀ m anchored stats done cs w) (hE : E .host)
    (hid : x₀.id < 2 ^ 64) (hterm : ∀ q ∈ done ++ rest, q.term = 0 ∨ Anchor.validTerm q.term)
    (hlen : (done ++ rest).length ≤ catalogRoom)
    (hbad : (∀ ds, ¬ Orderly s₀.layout x₀.id anchored (done ++ rest) ds) → ∀ e, E e) :
    Spec E (Aside s₀ m₀) s (rows (256 * s₀.layout.maxOffset) rest w) fun w' s' => ∃ m' ds,
      Progress s₀ s' x₀ m₀ m' anchored stats (done ++ rest) ds w' := by
  induction rest generalizing s m done cs w with
  | nil =>
    rw [List.append_nil]
    exact Spec.pure ⟨m, cs, hp⟩
  | cons r rest ih =>
    have hsplit : done ++ r :: rest = (done ++ [r]) ++ rest := by
      rw [List.append_assoc]
      rfl
    refine (hp.grown.aside (row_spec hp hE hid (fun q hq => hterm q ?_) ?_ hbad)).bind ?_
    · rw [hsplit]
      exact List.mem_append_left _ hq
    · rw [List.length_append, List.length_cons] at hlen
      omega
    · rintro w₁ s₁ ⟨m₁, c, hp₁⟩
      rw [hsplit] at hterm hlen hbad ⊢
      exact ih hp₁ hterm hlen hbad

end Writing

/-! ### Closing the catalogs -/

theorem finish_room (h : es.length ≤ catalogRoom) : ¬ (catalogEntries - 1) *
    catalogEntries ^ catalogLevels < catalogEntries * es.length := by
  have heq : catalogEntries * catalogRoom = (catalogEntries - 1) *
      catalogEntries ^ catalogLevels := by
    decide +kernel
  have hle := Nat.mul_le_mul_left catalogEntries h
  omega

theorem Orderly.unique {l : HeapLayout} {ds : List Content} (h : Orderly l id anchored done cs)
    (h' : Orderly l id anchored done ds) : cs = ds := by
  have hinj : Function.Injective (Except.ok : Content → Except Error Content) := fun _ _ he =>
    Except.ok.inj he
  exact hinj.list_map (h.content.symm.trans h'.content)

theorem Catalog.grown {root : ℕ} (hg : Grown s s' x x' m m') (hc : Catalog s id root es) :
    Catalog s' id root es := by
  rcases hc with hn | ⟨level, hu⟩
  · exact .inl hn
  · exact .inr ⟨level, hu.mono hg.body⟩

theorem Sealed.of_nil (h : Sealed s id [] none es) : es = [] := by
  refine List.eq_nil_iff_forall_not_mem.2 fun e he => ?_
  obtain ⟨⟨p, hp, -⟩, -⟩ := (h.keys e.key).1 ⟨e, he, rfl⟩
  cases hp

/-- Without suffixes and entries there was no row. -/
theorem Sealed.content_nil {l : HeapLayout} {i : ℕ} (ho : Orderly l i false done cs)
    (h : Sealed s id (postsIn cs) none []) : cs = [] := by
  refine List.eq_nil_iff_forall_not_mem.2 fun c hcm => ?_
  cases c with
  | suffix term a =>
    have := mem_suffixesIn.2 hcm
    rw [ho.bare rfl] at this
    cases this
  | owner p =>
    obtain ⟨e, he, -⟩ := (h.keys p.key).2 ⟨⟨p, mem_postsIn.2 hcm, rfl⟩, by simp⟩
    cases he

/-- The catalog of the groups is finished. -/
structure Rooted (s₀ s : Store) (x₀ y : GroupSnapshot) (m₀ m : MetaBody) (anchored : Bool)
    (cs : List Content) (es : List CatalogEntry) : Prop where
  grown : ∃ x, Grown s₀ s x₀ x m₀ m ∧ y = { x with root := y.root }
  catalog : Catalog s y.id y.root es
  entries : CatalogBuilder.Entries es
  keyed : Sealed s y.id (postsIn cs) none es
  tip : anchored = false → y.root = y.tail
  untouched : cs = [] → y.head = noBlock

/-- The snapshot of a segment whose catalog has no root yet. -/
def Rootless (x : GroupSnapshot) : Prop :=
  x = ⟨x.id, noBlock, noBlock, noBlock, x.after, none, false⟩

theorem Grown.root (hg : Grown s s' x x' m m') : x'.root = x.root := by rw [hg.snapshot]

theorem Grown.rootless (hx : Rootless x) (hg : Grown s s' x x' m m') :
    x'.root = noBlock ∧ x'.frontierRoot = none ∧ x'.frontierValid = false := by
  rw [hg.snapshot, hx]
  exact ⟨rfl, rfl, rfl⟩

theorem Rooted.bare (h : Rooted s₀ s x₀ x m₀ m false cs es) (hx : Rootless x₀) :
    Closed s₀ s x₀ x m₀ m false cs es := by
  obtain ⟨x₁, hg, hx₁⟩ := h.grown
  obtain ⟨-, hfrontier, hvalid⟩ := hg.rootless hx
  have hnone : x.frontierRoot = none := by rw [hx₁]; exact hfrontier
  have hfalse : x.frontierValid = false := by rw [hx₁]; exact hvalid
  refine ⟨⟨x₁, hg, ?_⟩, h.catalog, h.entries, h.keyed, fun _ => ⟨hnone, hfalse, h.tip rfl⟩,
    by simp, h.untouched⟩
  rw [hx₁, hfrontier, hvalid]

namespace Writing

/-- The catalog of the groups is finished; a catalog of suffixes is still under construction. -/
theorem root_spec (hg : Grown s₀ s x₀ w.snapshot m₀ m) (hE : E .host) (hx : Rootless x₀)
    (ho : Orderly s₀.layout x₀.id anchored done cs) (hlen : es.length ≤ catalogRoom)
    (hc : Catalogs s w.snapshot anchored stats cs none w es)
    (huntouched : cs = [] → w.snapshot = x₀) :
    Spec E (Aside s₀ m₀) s (w.catalog.finish w.snapshot) fun y s' => ∃ m',
      Rooted s₀ s' x₀ y m₀ m' anchored cs es ∧ ∀ (b : CatalogBuilder) fs,
        b.Collects s w.snapshot fs → b.Collects s' { y with root := noBlock } fs := by
  refine (hg.aside (CatalogBuilder.finish_spec hg.appending hE hc.collects fun hdeep =>
    absurd hdeep (finish_room hlen))).post ?_
  rintro y s' ⟨m', x', hg', hy, hf⟩
  obtain ⟨hroot, -⟩ := hg.rootless hx
  have hid : y.id = w.snapshot.id := by rw [hy]; exact hg'.id
  have hkeyed : Sealed s' y.id (postsIn cs) none es := by
    rw [hid]
    exact hc.keyed.grown hg'
  -- without rows nothing was appended
  have hnone : cs = [] → es = [] ∧ y = x₀ := by
    intro hn
    rw [hn] at hkeyed
    have hes := hkeyed.of_nil
    exact ⟨hes, (hf.none hes).trans (huntouched hn)⟩
  refine ⟨m', ⟨⟨x', hg.trans hg', hy⟩, catalog_of_finished hid hroot hf, hc.collects.entries,
    hkeyed, fun hbare => ?_, fun hn => ?_⟩, fun b fs hb => ?_⟩
  · by_cases hne : es = []
    · rw [hbare] at ho
      rw [hne] at hkeyed
      rw [(hnone (hkeyed.content_nil ho)).2, hx]
    · exact hf.root hne (hc.tip hbare)
  · rw [(hnone hn).2, hx]
  · rw [hy, show ({ x' with root := noBlock } : GroupSnapshot) = x' by rw [← hroot, ← hg'.root]]
    exact hb.mono hg'.body hg'.id

/-- The catalog of suffixes is finished behind that of the groups. -/
theorem suffixes_spec {b : CatalogBuilder} (h : Rooted s₀ s x₀ x m₀ m true cs es) (hE : E .host)
    (hx : Rootless x₀) (hb : b.Collects s { x with root := noBlock } (suffixEntries cs))
    (hlen : (suffixEntries cs).length ≤ catalogRoom) :
    Spec E (Aside s₀ m₀) s (b.finish { x with root := noBlock }) fun z s' => ∃ m',
      Closed s₀ s' x₀ { z with frontierRoot := some z.root, frontierValid := true, root := x.root }
        m₀ m' true cs es := by
  obtain ⟨x₁, hg, hx₁⟩ := h.grown
  obtain ⟨hroot, -⟩ := hg.rootless hx
  have hsame : ({ x with root := noBlock } : GroupSnapshot) = x₁ := by
    rw [hx₁, ← hroot]
  rw [hsame] at hb ⊢
  refine (hg.aside (CatalogBuilder.finish_spec hg.appending hE hb fun hdeep =>
    absurd hdeep (finish_room hlen))).post ?_
  rintro z s' ⟨m', x₂, hg', hz, hf⟩
  have hidx : x.id = x₁.id := by rw [hx₁]
  have hidz : z.id = x₁.id := by rw [hz]; exact hg'.id
  refine ⟨m', ⟨⟨x₂, hg.trans hg', by rw [hz]⟩, ?_, h.entries, ?_, by simp, fun _ => ⟨rfl, z.root,
    rfl, catalog_of_finished hidz hroot hf, hb.entries⟩, fun hn => ?_⟩⟩
  · change Catalog s' z.id x.root es
    rw [hidz, ← hidx]
    exact h.catalog.grown hg'
  · change Sealed s' z.id _ _ _
    rw [hidz, ← hidx]
    exact h.keyed.grown hg'
  · have hsuffixes : suffixEntries cs = [] := by rw [hn]; rfl
    change z.head = noBlock
    rw [hf.none hsuffixes, ← h.untouched hn, hx₁]

theorem close_spec (hp : Progress s₀ s x₀ m₀ m anchored stats done cs w) (hE : E .host)
    (hid : x₀.id < 2 ^ 64) (hx : Rootless x₀)
    (hterm : ∀ q ∈ done, q.term = 0 ∨ Anchor.validTerm q.term) (hlen : done.length ≤ catalogRoom)
    (hbad : (∀ ds, ¬ Admissible s₀.layout x₀.id anchored done stats ds) → ∀ e, E e) :
    Spec E (Aside s₀ m₀) s w.close fun y s' => ∃ m' es,
      Admissible s₀.layout x₀.id anchored done stats cs ∧
      Closed s₀ s' x₀ y.1 m₀ m' anchored cs es ∧ y.2 = stats.counted es := by
  obtain ⟨es, hc⟩ := hp.catalogs
  have hid' : w.snapshot.id = x₀.id := hp.grown.id
  have hall := hp.orderly.length_add
  -- every check fails only on rows that are not admissible
  have hadm : ∀ ds, Admissible s₀.layout x₀.id anchored done stats ds →
      Admissible s₀.layout x₀.id anchored done stats cs := by
    intro ds hds
    rw [hp.orderly.unique hds.orderly]
    exact hds
  refine Spec.guard_bind (fun hn => hbad (fun ds hds => hn ?_) _) fun hsuf => ?_
  · rw [hc.stats, hp.frontierTerms]
    exact (hadm ds hds).frontierTerms
  rw [hc.stats, hp.frontierTerms] at hsuf
  refine Spec.guard_bind (fun hn => hbad (fun ds hds => hn ?_) _) fun _ => ?_
  · have hcount := (hadm ds hds).records
    have : catalogRoom < 18446744073709551616 := by decide +kernel
    rw [hc.stats]
    change stats.documents + stats.postings < _
    omega
  refine Spec.guard_bind (fun hn => hbad (fun ds hds => hn ?_) _) fun hposts => ?_
  · rw [hc.stats, hp.seen]
    exact (hadm ds hds).records
  rw [hc.stats, hp.seen] at hposts
  refine (hp.grown.aside (flush_spec hp.grown.appending hE (by rw [hid']; exact hid)
    (by rw [hid', hp.grown.layout]; exact hp.orderly) hterm hlen hp.current
    (by rw [hid']; intro key hkey; rw [hp.grown.segmentKey]; exact hp.gathering key hkey)
    hc)).bind ?_
  rintro w₁ s₁ ⟨m₁, es₁, hg₁, -, hc₁, hsame⟩
  have hg₁ : Grown s₀ s₁ x₀ w₁.snapshot m₀ m₁ := hp.grown.trans hg₁
  have hes : es₁.length ≤ catalogRoom := by
    have hle := hc₁.keyed.length_le hc₁.collects.entries.1
    omega
  have huntouched : cs = [] → w₁.snapshot = x₀ := by
    rintro rfl
    have hnil : done = [] := List.length_eq_zero_iff.1 hp.orderly.length
    rw [hsame hp.current]
    exact hp.untouched hnil
  refine (root_spec hg₁ hE hx hp.orderly hes hc₁ huntouched).bind ?_
  rintro y s₂ ⟨m₂, hroot, hcollects⟩
  cases anchored with
  | false =>
    change Spec E _ s₂ (match w₁.anchors with
      | none => pure (y, w₁.stats)
      | some anchors => _) _
    rw [hc₁.bare rfl]
    exact Spec.pure ⟨m₂, es₁, ⟨hp.orderly, hsuf, hposts⟩, hroot.bare hx, hc₁.stats⟩
  | true =>
    obtain ⟨b, hb, hcb⟩ := hc₁.suffixes rfl
    have hlen₂ : (suffixEntries cs).length ≤ catalogRoom := by
      rw [suffixEntries, List.length_map]
      omega
    change Spec E _ s₂ (match w₁.anchors with
      | none => _
      | some anchors => do
        let z ← anchors.finish { y with root := noBlock }
        pure ({ z with frontierRoot := some z.root, frontierValid := true, root := y.root },
          w₁.stats)) _
    rw [hb]
    refine (suffixes_spec hroot hE hx (hcollects b _ hcb) hlen₂).bind ?_
    rintro z s₃ ⟨m₃, hclosed⟩
    exact Spec.pure ⟨m₃, es₁, ⟨hp.orderly, hsuf, hposts⟩, hclosed, hc₁.stats⟩

end Writing

end

end Grouped

end PinCore
