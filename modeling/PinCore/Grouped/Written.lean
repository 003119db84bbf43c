import PinCore.Grouped.Build

/-!
# The index of a published segment

A segment that was written from admissible rows is published whole or not at all.  Once published,
its catalog has one entry for every key of the rows, each entry is read as the bitmap of the roots
under its key and as the roster of its owners, and the suffix of every term is looked up.
-/

namespace PinCore

open Prog

namespace Grouped

/-- Looks up the captured suffix of a term.  (`lookup` of the anchors in the source.) -/
def Anchor.lookup (x : GroupSnapshot) (term : ℕ) : Rd Anchor :=
  match x.frontierRoot with
  | none => Obs.fail .invalidState
  | some root => do
    match ← CatalogCursor.new.seek x.id root (term, 0) with
    | (none, _) => Obs.fail .invalidState
    | (some e, _) =>
      Obs.ensure (e.key = (term, 0)) .invalidState
      let a ← Obs.ofExcept (Anchor.read e)
      Obs.ensure (a.last < x.id) .invalidState
      return a

/-- The catalog of the segment has an entry for every key of the owners, read as what is entered
under that key. -/
def Indexed (s : Store) (x : GroupSnapshot) (ps : List Post) : Prop :=
  ∃ es, Catalog s x.id x.root es ∧ CatalogBuilder.Entries es ∧ Sealed s x.id ps none es

/-- The segment keeps the suffixes, each where it is looked up. -/
def Suffixed (s : Store) (x : GroupSnapshot) (as : List (ℕ × Anchor)) : Prop :=
  ∀ term a, (term, a) ∈ as → ∀ H, Preserved s x.id H → ∀ t,
    Obs.Sees H t (Anchor.lookup x term) fun b _ => b = a

/-- The segment serves what the rows say. -/
structure Serves (s : Store) (x : GroupSnapshot) (anchored : Bool) (cs : List Content) : Prop where
  indexed : Indexed s x (postsIn cs)
  suffixed : anchored = true → Suffixed s x (suffixesIn cs)
  valid : x.frontierValid = anchored

/-- A finished segment that is not yet published. -/
structure Assembled (s s' : Store) (m m' : MetaBody) (after : Option OwnerRef) (anchored : Bool)
    (cs : List Content) (x : GroupSnapshot) (bs : List ℕ) : Prop where
  appending : Appending s' x m'
  retired : m'.grouped.retired = []
  beside : Beside s s' m m'
  retains : Retains s s' m m'
  chain : SegmentOk s' x.chain bs
  blocks : s'.blocks ≤ s.blocks + bs.length
  ok : x.Ok true
  roots : RootsOk s' x
  id : x.id = m.incarnation
  after : x.after = after
  serves : Serves s' x anchored cs
  plain : anchored = false → x.frontierRoot = none

/-- The pages of these segments, now free. -/
structure Freed (s s' : Store) (chains : List GroupRetired) (old : List ℕ) : Prop where
  nodup : old.Nodup
  free : ∀ b ∈ old, (s'.body b).kind = .free
  mem_iff : ∀ b, b ∈ old ↔ ∃ c ∈ chains, s.InSegment c.id b

/-- The counts of the groups that were sealed. -/
def BuildStats.grouped (stats : BuildStats) (ps : List Post) : BuildStats :=
  { stats with
    groups := stats.groups + (ps.map Post.key).dedup.countP fun k => k.1 = 0
    termGroups := stats.termGroups + (ps.map Post.key).dedup.countP fun k => k.1 ≠ 0 }

section

variable {s s' s₀ : Store} {m m' m₀ : MetaBody} {x y x₀ : GroupSnapshot} {anchored : Bool}
  {cs : List Content} {es : List CatalogEntry} {e : CatalogEntry} {a : Anchor} {term id : ℕ}
  {H : ℕ → Store} {ps : List Post} {rows : List SortRecord} {l : HeapLayout} {v : Value}

/-! ### Suffixes -/

/-- A suffix that a row may hold. -/
structure Anchor.Fits (a : Anchor) : Prop where
  valid : Anchor.new a.head a.tail a.last = .ok a
  head : a.head < 2 ^ 32
  tail : a.tail < 2 ^ 32
  last : a.last < 2 ^ 64

/-- What is written for a suffix is read back. -/
theorem Anchor.read_entry (h : a.Fits) (hterm : Anchor.validTerm term) :
    Anchor.read (a.entry term) = .ok a := by
  have h₄ : (a.entry term).value.drop 4 = leBytes 4 a.head ++ (leBytes 4 a.tail ++
      (leBytes 8 a.last ++ List.replicate 44 0)) := rfl
  obtain ⟨hhead, h₈⟩ := leAt_of_drop h₄ (Nat.lt_of_lt_of_le h.head (by decide))
  obtain ⟨htail, h₁₂⟩ := leAt_of_drop h₈ (Nat.lt_of_lt_of_le h.tail (by decide))
  obtain ⟨hlast, h₂₀⟩ := leAt_of_drop h₁₂ (Nat.lt_of_lt_of_le h.last (by decide))
  have hgood : ¬ (¬ Anchor.validTerm (a.entry term).key.1 ∨ (a.entry term).key.2 ≠ 0 ∨
      Anchor.isEntry (a.entry term) = false) := by
    rintro (hn | hn | hn)
    · exact hn hterm
    · exact hn rfl
    · cases hn
  rw [Anchor.read, if_neg hgood, hhead, htail, hlast, h.valid, ok_bind, h₂₀]
  rfl

theorem SortRecord.suffix_fits {r : SortRecord} (h : r.content l = .ok (.suffix term a))
    (hlast : a.last < 2 ^ 64) : a.Fits := by
  obtain ⟨-, h0, hterm, hsort⟩ := content_suffix h
  unfold Anchor.fromSort at hsort
  rw [if_neg (not_not.2 h0)] at hsort
  split_ifs at hsort
  obtain ⟨b, hb, heq⟩ := ok_of_bind hsort
  cases heq
  have hnew := hb
  unfold Anchor.new at hb
  split_ifs at hb
  cases hb
  exact ⟨hnew, Nat.mod_lt _ (by decide), Nat.mod_lt _ (by decide), hlast⟩

/-- The entry of a suffix is no entry of a group. -/
theorem Anchor.entry_ne (h : Value.read e = .ok v) : e ≠ a.entry term := by
  rintro rfl
  have hlen : (a.entry term).value.length = 64 := by
    simp [Anchor.entry, Reader.length_leBytes]
  obtain ⟨hvalid, hentry⟩ := Value.of_read hlen h
  have hvalue : ∃ rest, (v.entry (a.entry term).key).value = leBytes 4 v.len ++ rest := by
    unfold Value.entry
    split <;> exact ⟨_, rfl⟩
  obtain ⟨rest, hrest⟩ := hvalue
  have hsmall : v.len < 65536 := by
    cases hvalid with
    | record _ _ hstored =>
      have := hstored.2.1
      rw [show maxBitmapBytes = 17480 from rfl] at this
      omega
    | legacy _ _ _ hin => rw [hin.len]; decide
    | inline _ _ _ _ _ _ _ _ hin => rw [hin.len]; decide
  -- the third byte of a short length is not that of the mark
  have hbytes : leBytes 4 v.len = [0x46, 0x53, 0x41, 0x31] := by
    have htake : (v.entry (a.entry term).key).value.take 4 = leBytes 4 v.len := by
      rw [hrest, List.take_left' Reader.length_leBytes]
    rw [← htake, hentry]
    rfl
  have hthird := congrArg (fun bs => bs[2]?) hbytes
  simp only [leBytes, List.getElem?_cons_succ, List.getElem?_cons_zero, Option.some.injEq] at hthird
  have hzero : v.len / 256 / 256 = 0 := by omega
  rw [hzero] at hthird
  exact absurd hthird (by decide)

/-- A key of a sorted catalog is found. -/
theorem head_dropWhile_below (hs : KeySorted es) (he : e ∈ es) :
    (es.dropWhile (below e.key)).head? = some e := by
  induction es with
  | nil => cases he
  | cons f fs ih =>
    obtain ⟨hfirst, hs⟩ := List.pairwise_cons.1 hs
    rw [List.dropWhile_cons]
    rcases List.mem_cons.1 he with rfl | he
    · have hb : ¬ below e.key e = true := fun hb => keyLt_irrefl _ (of_decide_eq_true hb)
      rw [if_neg hb]
      rfl
    · have hb : below e.key f = true := decide_eq_true (hfirst e he)
      rw [if_pos hb]
      exact ih hs he

theorem Anchor.lookup_sees {root t : ℕ} {as : List (ℕ × Anchor)} (hH : Preserved s x.id H)
    (hroot : x.frontierRoot = some root)
    (hc : Catalog s x.id root (as.map fun a => a.2.entry a.1))
    (hs : KeySorted (as.map fun a => a.2.entry a.1)) (hmem : (term, a) ∈ as) (hfits : a.Fits)
    (hterm : Anchor.validTerm term) (hlast : a.last < x.id) :
    Obs.Sees H t (Anchor.lookup x term) fun b _ => b = a := by
  have he : a.entry term ∈ as.map fun a => a.2.entry a.1 := List.mem_map.2 ⟨_, hmem, rfl⟩
  unfold Anchor.lookup
  rw [hroot]
  refine (seek_sees hH.catalogued hs hc stands_new).bind ?_
  rintro ⟨o, c⟩ t' - ⟨ho, -⟩
  have ho : o = _ := ho
  have hfound : ((as.map fun a => a.2.entry a.1).dropWhile (below (term, 0))).head? =
      some (a.entry term) := head_dropWhile_below hs he
  rw [hfound] at ho
  subst ho
  refine Obs.Sees.ensure_bind rfl ?_
  refine Obs.Sees.ofExcept_bind (Anchor.read_entry hfits hterm) ?_
  exact Obs.Sees.ensure_bind hlast (Obs.Sees.pure rfl)

/-! ### The finished segment passes the checks -/

/-- The root of a catalog with entries is a node of the segment. -/
theorem Catalog.node {root : ℕ} (hc : Catalog s id root es) (hne : root ≠ noBlock) :
    ∃ level entries, s.body root = .grouped (.node id level entries) := by
  rcases hc with ⟨hr, -⟩ | ⟨level, hu⟩
  · exact absurd hr hne
  · obtain ⟨entries, -, hn, -⟩ := hu
    exact ⟨level, entries, hn⟩

/-- Two catalogs with one root have the same entries. -/
theorem Catalog.unique {root : ℕ} {fs : List CatalogEntry} (hne : root ≠ noBlock)
    (hc : Catalog s id root es) (hc' : Catalog s id root fs) : es = fs := by
  rcases hc with ⟨hr, -⟩ | ⟨level, hu⟩
  · exact absurd hr hne
  · rcases hc' with ⟨hr, -⟩ | ⟨level', hu'⟩
    · exact absurd hr hne
    · exact hu.unique hu'

namespace Closed

theorem appending (h : Closed s₀ s x₀ y m₀ m anchored cs es) : Appending s y m := by
  obtain ⟨x, hg, hy⟩ := h.grown
  rw [hy]
  exact ⟨hg.appending.segmented, hg.appending.journal, hg.appending.id⟩

theorem chain_eq (h : Closed s₀ s x₀ y m₀ m anchored cs es) :
    ∃ x, Grown s₀ s x₀ x m₀ m ∧ y.chain = x.chain ∧ y.id = x₀.id ∧ y.after = x₀.after := by
  obtain ⟨x, hg, hy⟩ := h.grown
  refine ⟨x, hg, ?_, ?_, ?_⟩
  · rw [hy]
    rfl
  · rw [hy]
    exact hg.id
  · rw [hy, hg.snapshot]

/-- The roots, and the entries under them. -/
theorem roots (h : Closed s₀ s x₀ y m₀ m anchored cs es)
    (ho : Orderly l id anchored rows cs) : RootsOk s y ∧ (y.frontierRoot = none → y.root = y.tail) ∧
      (y.frontierValid = true → y.frontierRoot ≠ none) ∧
      (∀ r ∈ y.frontierRoot, r ≠ noBlock → r ≠ y.root) ∧
      (y.root = noBlock ∧ y.frontierRoot.getD noBlock = noBlock → cs = []) := by
  have hs := h.appending.segmented
  have hempty : y.root = noBlock → suffixesIn cs = [] → cs = [] := by
    intro hroot hnil
    have hes := (h.catalog.root_iff hs).1 hroot
    refine List.eq_nil_iff_forall_not_mem.2 fun c hc => ?_
    cases c with
    | suffix term a =>
      have := mem_suffixesIn.2 hc
      rw [hnil] at this
      cases this
    | owner p =>
      obtain ⟨e, he, -⟩ := (h.keyed.keys p.key).2 ⟨⟨p, mem_postsIn.2 hc, rfl⟩, by simp⟩
      rw [hes] at he
      cases he
  cases anchored with
  | false =>
    obtain ⟨hf, hv, hroot⟩ := h.plain rfl
    rw [hf, hv]
    refine ⟨fun r hr hne => ?_, fun _ => hroot, by simp, by simp, fun hn => ?_⟩
    · rw [hf, Option.toList_none, List.mem_singleton] at hr
      subst hr
      exact h.catalog.node hne
    · exact hempty hn.1 (ho.bare rfl)
  | true =>
    obtain ⟨hv, root, hf, hc, -⟩ := h.suffixes rfl
    rw [hf, hv]
    refine ⟨fun r hr hne => ?_, by simp, by simp, ?_, fun hn => ?_⟩
    · rw [hf, Option.toList_some] at hr
      rcases List.mem_cons.1 hr with rfl | hr
      · exact h.catalog.node hne
      · rw [List.mem_singleton.1 hr] at hne ⊢
        exact hc.node hne
    · -- one node cannot hold entries of groups and of suffixes
      rintro _ ⟨⟩ hne rfl
      have heq := Catalog.unique hne h.catalog hc
      have hnil : es ≠ [] := fun hes => hne ((h.catalog.root_iff hs).2 hes)
      obtain ⟨e, fs, rfl⟩ := List.exists_cons_of_ne_nil hnil
      obtain ⟨v, b, hread, -⟩ := h.keyed.bitmap e List.mem_cons_self
      have hmem : e ∈ suffixEntries cs := heq ▸ List.mem_cons_self
      obtain ⟨a, -, rfl⟩ := List.mem_map.1 hmem
      exact Anchor.entry_ne hread rfl
    · refine hempty hn.1 ?_
      have hnil := (hc.root_iff hs).1 hn.2
      exact List.map_eq_nil_iff.1 hnil

theorem ok (h : Closed s₀ s x₀ y m₀ m anchored cs es) (ho : Orderly l id anchored rows cs)
    (hafter : ∀ o ∈ x₀.after, o.incarnation < x₀.id) : y.Ok true ∧ RootsOk s y := by
  obtain ⟨hroots, hplain, hvalid, hne, hempty⟩ := h.roots ho
  obtain ⟨x, -, -, hid, hya⟩ := h.chain_eq
  have happ := h.appending
  have hs := happ.segmented
  have hnode : ∀ r ∈ y.root :: y.frontierRoot.toList, r ≠ noBlock → r ≠ 0 ∧ y.head ≠ noBlock := by
    intro r hr hrn
    obtain ⟨level, entries, hn⟩ := hroots r hr hrn
    have hin : s.InSegment y.id r := ⟨_, hn, rfl⟩
    refine ⟨hs.ne_zero (by rw [hin.kind]; decide), fun hhead => ?_⟩
    -- without a head there are no pages
    obtain ⟨bs, hc⟩ := happ.chain
    have hbs := (hc.mem_iff r).2 hin
    exact List.ne_nil_of_mem hbs (hc.linked.head_eq_stop_iff.1 hhead)
  refine ⟨⟨?_, ⟨fun hhead => ?_, fun hr => h.untouched (hempty hr)⟩, by simp, hplain, ?_, ?_,
    hvalid, ?_⟩, hroots⟩
  · by_cases hhead : y.head = noBlock
    · exact .inl ⟨hhead, happ.head_eq_iff.1 hhead⟩
    · have htail : y.tail ≠ noBlock := fun hn => hhead (happ.head_eq_iff.2 hn)
      exact .inr ⟨hs.blockValid (happ.head_page hhead), hs.blockValid (happ.tail_page htail).1⟩
  · refine ⟨by_contra fun hn => (hnode _ List.mem_cons_self hn).2 hhead, ?_⟩
    cases hf : y.frontierRoot with
    | none => rfl
    | some r =>
      have hmem : r ∈ y.root :: y.frontierRoot.toList := by
        rw [hf]
        simp
      exact by_contra fun hn => (hnode r hmem hn).2 hhead
  · by_cases hn : y.root = noBlock
    · rw [hn]
      decide
    · exact (hnode _ List.mem_cons_self hn).1
  · intro r hr hrn
    refine ⟨(hnode r ?_ hrn).1, hne r hr hrn⟩
    rw [Option.mem_def.1 hr]
    simp
  · rw [hya, hid]
    exact hafter

theorem serves (h : Closed s₀ s x₀ y m₀ m anchored cs es)
    (ho : Orderly l x₀.id anchored rows cs) (hid : x₀.id < 2 ^ 64) : Serves s y anchored cs := by
  obtain ⟨-, -, -, hidy, -⟩ := h.chain_eq
  refine ⟨⟨es, h.catalog, h.entries, h.keyed⟩, fun ha term a hmem H hH t => ?_, ?_⟩
  · obtain ⟨-, root, hf, hc, hs⟩ := h.suffixes ha
    obtain ⟨r, -, hr⟩ := Orderly.exists_row ho.content (mem_suffixesIn.1 hmem)
    have hlast : a.last < x₀.id := ho.older.1 _ hmem
    obtain ⟨-, -, hterm, -⟩ := SortRecord.content_suffix hr
    exact Anchor.lookup_sees hH hf hc hs.1 hmem
      (SortRecord.suffix_fits hr (Nat.lt_trans hlast hid)) hterm (by rw [hidy]; exact hlast)
  · cases anchored with
    | false => exact (h.plain rfl).2.1
    | true => exact (h.suffixes rfl).1

end Closed

/-- There is one entry for each key. -/
theorem Sealed.counted {stats : BuildStats} (h : Sealed s id ps none es) (hs : KeySorted es) :
    stats.counted es = stats.grouped ps := by
  have hperm : (es.map (·.key)).Perm (ps.map Post.key).dedup := by
    refine (List.perm_ext_iff_of_nodup hs.nodup (List.nodup_dedup _)).2 fun k => ?_
    rw [List.mem_dedup, List.mem_map, List.mem_map, h.keys k]
    simp
  have hcount : ∀ f : ℕ × ℕ → Bool, es.countP (fun e => f e.key) =
      (ps.map Post.key).dedup.countP f := by
    intro f
    rw [← hperm.countP_eq, List.countP_map]
    rfl
  unfold BuildStats.counted BuildStats.grouped
  rw [hcount fun k => decide (k.1 = 0), hcount fun k => decide (k.1 ≠ 0)]

/-! ### Other histories of the segment -/

theorem Preserved.of_page (hl : s'.layout = s.layout)
    (hpage : ∀ b, s.InSegment id b → s'.page b = s.page b) (h : Preserved s' id H) :
    Preserved s id H where
  pages := h.pages
  layout t := (h.layout t).trans hl
  body t c g hc hid :=
    h.body t c g (by rw [Store.body_eq_of_page (hpage c ⟨g, hc, hid⟩)]; exact hc) hid
  link t c hin hn := by
    have hlink : s'.next c = s.next c := by rw [Store.next, hpage c hin]; rfl
    rw [h.link t c ((Store.inSegment_congr (hpage c hin)).2 hin) (by rw [hlink]; exact hn), hlink]

/-- A store with the same pages of the segment serves the same. -/
theorem Serves.of_page (hl : s'.layout = s.layout)
    (hpage : ∀ b, s.InSegment x.id b → s'.page b = s.page b) (h : Serves s x anchored cs) :
    Serves s' x anchored cs := by
  have hH : ∀ {H}, Preserved s' x.id H → Preserved s x.id H := .of_page hl hpage
  have hkey : ∀ base, segmentKey s' x.id base = segmentKey s x.id base := fun base => by
    rw [segmentKey, hl]
    rfl
  refine ⟨?_, fun ha term a hmem H h' => h.suffixed ha term a hmem H (hH h'), h.valid⟩
  obtain ⟨es, hc, hs, hk⟩ := h.indexed
  refine ⟨es, ?_, hs, hk.keys, fun e he => ?_, fun e he h0 => ?_⟩
  · rcases hc with hn | ⟨level, hu⟩
    · exact .inl hn
    · refine .inr ⟨level, hu.kept fun c level es hb => ?_⟩
      rw [Store.body_eq_of_page (hpage c ⟨_, hb, rfl⟩)]
      exact hb
  · obtain ⟨v, b, hv, hp, hb, hread⟩ := hk.bitmap e he
    refine ⟨v, b, hv, hp, ?_, fun H h' => hread H (hH h')⟩
    rw [hkey]
    exact hb
  · obtain ⟨v, hv, hcount, hread⟩ := hk.roster e he h0
    refine ⟨v, hv, hcount, fun H h' => ?_⟩
    rw [hkey]
    exact hread H (hH h')

/-! ### Assembling -/

section

variable {E : Error → Prop} {after : Option OwnerRef} {stats : BuildStats} {C : Store → Prop}
  {α : Type} {R : α → Store → Prop} {f : GroupSnapshot × BuildStats → Wr α}

theorem progress_new (h : Appending s x m) :
    Progress s s x m m anchored stats [] [] (.new x anchored stats) where
  grown := h.grown
  orderly := .nil
  previous := rfl
  seen := rfl
  frontierTerms := rfl
  frontierTerm := rfl
  current := rfl
  previousRoot := rfl
  gathering := by rintro _ ⟨⟩
  catalogs := by
    refine ⟨[], CatalogBuilder.new_collects, fun _ => CatalogBuilder.new_tip, ?_, rfl, ?_, ?_⟩
    · exact ⟨fun key => by simp, by simp, by simp⟩
    · rintro rfl
      rfl
    · rintro rfl
      exact ⟨_, rfl, CatalogBuilder.new_collects⟩
  untouched _ := rfl

/-- Everything before the publication. -/
theorem assemble_bind (h : Segmented s m) (hE : E .host)
    (hfull : incarnationLimit ≤ m.incarnation + 1 → E (.limit "incarnation space"))
    (hterm : ∀ r ∈ rows, r.term = 0 ∨ Anchor.validTerm r.term) (hlen : rows.length ≤ catalogRoom)
    (hafter : ∀ o ∈ after, o.incarnation < m.incarnation)
    (hbad : (∀ cs, ¬ Admissible s.layout m.incarnation anchored rows stats cs) → ∀ e, E e)
    (hC : ∀ s', Aside s m s' → C s')
    (hf : ∀ y s' m' cs bs, Admissible s.layout m.incarnation anchored rows stats cs →
      Assembled s s' m m' after anchored cs y.1 bs → y.2 = stats.grouped (postsIn cs) →
      Spec E C s' (f y) R) :
    Spec E C s (do
      let x ← begin after
      let w ← Writing.rows (256 * s.layout.maxOffset) rows (.new x anchored stats)
      let y ← w.close
      f y) R := by
  refine ((begin_spec h hfull).mono (fun s' hs => hC s' hs) fun _ _ => id).bind ?_
  rintro x₀ s₀ ⟨m₀, hst⟩
  have hl : s₀.layout = s.layout := hst.beside.canonical.layout
  have hx : x₀ = ⟨x₀.id, noBlock, noBlock, noBlock, x₀.after, none, false⟩ := by rw [hst.snapshot]
  have hidx : x₀.id = m.incarnation := by rw [hst.snapshot]
  have hafterx : x₀.after = after := by rw [hst.snapshot]
  have hid : x₀.id < 2 ^ 64 := by
    have := hst.below
    rw [hidx, show (2 : ℕ) ^ 64 = incarnationLimit from rfl]
    omega
  have haside : ∀ s', Aside s₀ m₀ s' → C s' := by
    rintro s' ⟨m', hb, hr⟩
    exact hC s' ⟨m', hst.beside.trans hb, hst.retains.trans hr⟩
  rw [← hl, ← hidx] at hbad hf
  rw [← hl]
  refine ((Writing.rows_spec (progress_new hst.appending) hE hid hterm hlen fun hn =>
    hbad fun cs hcs => hn cs hcs.orderly).mono haside fun _ _ => id).bind ?_
  rintro w s₁ ⟨m₁, cs, hp⟩
  refine ((Writing.close_spec hp hE hid hx hterm hlen hbad).mono haside fun _ _ => id).bind ?_
  rintro ⟨y, stats'⟩ s₂ ⟨m₂, es, hadm, hcl, hstats⟩
  have hcl : Closed s₀ s₂ x₀ y m₀ m₂ anchored cs es := hcl
  have hstats : stats' = stats.counted es := hstats
  obtain ⟨x, hg, hchain, hidy, hya⟩ := hcl.chain_eq
  obtain ⟨hok, hroots⟩ := hcl.ok hadm.orderly (by rw [hafterx, hidx]; exact hafter)
  have hempty : SegmentOk s₀ x₀.chain [] := by
    obtain ⟨bs, hbs⟩ := hst.appending.chain
    have hhead : x₀.head = noBlock := by rw [hx]
    rwa [hbs.linked.head_eq_stop_iff.1 hhead] at hbs
  obtain ⟨bs, hbs, hblocks⟩ := hg.chain [] hempty
  refine hf ⟨y, stats'⟩ s₂ m₂ cs bs hadm ⟨hcl.appending, hg.retired.trans hst.retired,
    hst.beside.trans hg.beside, hst.retains.trans hg.retains, by rw [hchain]; exact hbs, ?_, hok,
    hroots, hidy.trans hidx, hya.trans hafterx, hcl.serves hadm.orderly hid, fun ha => ?_⟩ ?_
  · rw [← hst.blocks]
    exact hblocks
  · subst ha
    exact (hcl.plain rfl).1
  · rw [hstats]
    exact hcl.keyed.counted hcl.entries.1

/-! ### Publishing what was written -/

/-- The errors of a build: those of the host, of a counter at its end, of a last owner that names no
slot, and any other exactly for rows that are not admissible. -/
def BuildFails (s : Store) (m : MetaBody) (after : Option OwnerRef) (anchored : Bool)
    (rows : List SortRecord) (stats : BuildStats) (e : Error) : Prop :=
  HostRefused e ∨ (e = .limit "incarnation space" ∧ incarnationLimit ≤ m.incarnation + 1) ∨
    (e = .limit "group pages" ∧ 4294967296 ≤ stats.reclaimedPages + noBlock) ∨
    (e = .codec ∧ ¬ ∀ o ∈ after, o.Valid) ∨
    ∀ cs, ¬ Admissible s.layout m.incarnation anchored rows stats cs

/-- The new segment is published alone. -/
structure Rebuilt (s s' : Store) (m m' : MetaBody) (after : Option OwnerRef) (anchored : Bool)
    (cs : List Content) (x : GroupSnapshot) : Prop where
  beside : Beside s s' m m'
  active : m'.grouped.active = some x
  deltas : m'.grouped.deltas = []
  id : x.id = m.incarnation
  after : x.after = after
  serves : Serves s' x anchored cs

/-- The counts of a finished build: the pages of the replaced segments, of the new one, and those of
the new one that did not extend the relation. -/
def BuildStats.finished (stats : BuildStats) (ps : List Post) (reclaimed written extended : ℕ) :
    BuildStats :=
  { stats.grouped ps with
    reclaimedPages := stats.reclaimedPages + reclaimed
    writtenPages := written
    reusedPages := written - extended }

theorem Assembled.rebuilt {bs : List ℕ} {s₁ : Store} {m₁ : MetaBody}
    (ha : Assembled s s₁ m m₁ after anchored cs x bs)
    (hp : Published s₁ s' m₁ (replaced m₁.grouped x) m') :
    Rebuilt s s' m m' after anchored cs x where
  beside := ha.beside.trans hp.beside
  active := hp.active
  deltas := hp.deltas
  id := ha.id
  after := ha.after
  serves := by
    refine ha.serves.of_page hp.beside.canonical.layout fun b hb => ?_
    exact hp.page x.chain (by simp [GroupState.published, replaced]) b (.inl hb)

/-- What publishing frees are the pages of segments that were published. -/
theorem Assembled.freed {bs : List ℕ} {s₁ : Store} {m₁ : MetaBody} {g : GroupState} {k : ℕ}
    {xs : List GroupSnapshot} (ha : Assembled s s₁ m m₁ after anchored cs x bs)
    (hsub : ∀ c ∈ xs.map GroupSnapshot.chain, c ∈ m₁.grouped.published)
    (hrep : Replaced s₁ s' m₁ g m' k) (hg : g.retired = retiredOf xs) :
    ∃ old : List ℕ, k = old.length ∧ Freed s s' (xs.map GroupSnapshot.chain) old := by
  obtain ⟨old, hnodup, hcount, hfree, hmem⟩ := hrep.freed
  refine ⟨old, hcount, hnodup, hfree, fun b => ?_⟩
  rw [hmem, hg]
  have hpage : ∀ c ∈ xs.map GroupSnapshot.chain,
      (s₁.InSegment c.id b ↔ s.InSegment c.id b) := by
    intro c hc
    have hpub : c ∈ m.grouped.published := by
      rw [← ha.retains.published]
      exact hsub c hc
    constructor
    · exact fun hin => (Store.inSegment_congr (ha.retains.page c hpub b (.inr hin))).1 hin
    · exact fun hin => (Store.inSegment_congr (ha.retains.page c hpub b (.inl hin))).2 hin
  constructor
  · rintro ⟨c, hc, hin⟩
    obtain ⟨hc, -⟩ := mem_retiredOf.1 hc
    exact ⟨c, hc, (hpage c hc).1 hin⟩
  · rintro ⟨c, hc, hin⟩
    have hin := (hpage c hc).2 hin
    refine ⟨c, mem_retiredOf.2 ⟨hc, fun hhead => ?_⟩, hin⟩
    -- a chain without a head has no pages
    obtain ⟨ds, hds⟩ := ha.appending.segmented.chain c (List.mem_append_right _ (hsub c hc))
    exact List.ne_nil_of_mem ((hds.mem_iff b).2 hin) (hds.linked.head_eq_stop_iff.1 hhead)

/-- The checks and counts behind the publication. -/
theorem finish_counts {old : List ℕ} {written reclaimed : ℕ} {R' : BuildStats → Store → Prop}
    (h : Segmented s' m') (hle : s.blocks ≤ s'.blocks) (hwritten : s'.blocks ≤ s.blocks + written)
    (hold : old.Nodup ∧ reclaimed = old.length ∧ ∀ b ∈ old, (s'.body b).kind = .free)
    (hpages : 4294967296 ≤ stats.reclaimedPages + noBlock → E (.limit "group pages"))
    (hR : ∀ y, y = { stats with
      reclaimedPages := stats.reclaimedPages + reclaimed
      writtenPages := written
      reusedPages := written - (s'.blocks - s.blocks) } → R' y s') :
    Spec E C s' (do
      let now ← Prog.reading blocks
      Prog.ensure (s.blocks ≤ now) .invalidState
      Prog.ensure (stats.reclaimedPages + reclaimed < 4294967296) (.limit "group pages")
      Prog.ensure (now - s.blocks ≤ written) .invalidState
      return { stats with
        reclaimedPages := stats.reclaimedPages + reclaimed
        writtenPages := written
        reusedPages := written - (now - s.blocks) }) R' := by
  obtain ⟨hnodup, hcount, hfree⟩ := hold
  have hlen := h.pages.length_le hnodup fun b hb => by rw [hfree b hb]; decide
  have hblocks := h.pages.le
  refine Spec.reading_bind blocks_returns ?_
  rintro _ rfl
  refine Spec.ensure_bind hle (Spec.guard_bind (fun hn => hpages ?_) fun _ => ?_)
  · omega
  · exact Spec.ensure_bind (by omega) (Spec.pure (hR _ rfl))

/-- Writing sorted rows publishes their index or nothing: cut off anywhere, the store publishes what
it did, or the new segment alone.  It stops, but for the host and exhausted counters, exactly if the
rows are not orderly or not as many as counted; when it returns, the pages of the segments published
before are free, the counts are right, and the new segment serves what the rows say. -/
theorem writeSorted_alone (h : Segmented s m)
    (hterm : ∀ r ∈ rows, r.term = 0 ∨ Anchor.validTerm r.term) (hlen : rows.length ≤ catalogRoom)
    (hafter : ∀ o ∈ after, o.incarnation < m.incarnation) :
    Spec (BuildFails s m after anchored rows stats)
      (fun s' => (∃ m', Beside s s' m m' ∧ Retains s s' m m') ∨ ∃ m' cs x,
        Admissible s.layout m.incarnation anchored rows stats cs ∧
          Rebuilt s s' m m' after anchored cs x) s
      (writeSorted rows stats after anchored none) fun y s' => ∃ m' cs x bs old,
        Admissible s.layout m.incarnation anchored rows stats cs ∧
        Rebuilt s s' m m' after anchored cs x ∧ m'.grouped.pending = [] ∧
        SegmentOk s' x.chain bs ∧ Freed s s' m.grouped.published old ∧
        y = stats.finished (postsIn cs) old.length bs.length (s'.blocks - s.blocks) := by
  refine Spec.reading_bind layout_returns ?_
  rintro _ rfl
  refine Spec.reading_bind blocks_returns ?_
  rintro _ rfl
  refine assemble_bind h (.inl rfl) (fun hn => .inr (.inl ⟨rfl, hn⟩)) hterm hlen hafter
    (fun hn _ => .inr (.inr (.inr (.inr hn)))) (fun _ => .inl) ?_
  rintro ⟨x, stats₁⟩ s₁ m₁ cs bs hadm ha hstats
  have ha : Assembled s s₁ m m₁ after anchored cs x bs := ha
  obtain rfl : stats₁ = stats.grouped (postsIn cs) := hstats
  refine ((publish_spec ha.appending ha.retired ha.chain ha.ok ha.roots
    fun hn => .inr (.inr (.inr (.inl ⟨rfl, by rwa [ha.after] at hn⟩)))).mono ?_
    fun _ _ => id).bind ?_
  · rintro s' ⟨m', hp⟩
    exact .inr ⟨m', cs, x, hadm, ha.rebuilt hp⟩
  rintro ⟨reclaimed, written⟩ s₂ ⟨m₂, hrep, hwritten⟩
  obtain rfl : written = bs.length := hwritten
  obtain ⟨old, hcount, hfreed⟩ := ha.freed (fun c hc => by rwa [published_eq]) hrep rfl
  have hreb := ha.rebuilt hrep.published
  have hblocks := hrep.published.blocks
  refine finish_counts hreb.beside.segmented hreb.beside.blocks (by rw [hblocks]; exact ha.blocks)
    ⟨hfreed.nodup, hcount, hfreed.free⟩ (fun hn => .inr (.inr (.inl ⟨rfl, hn⟩))) ?_
  rintro y rfl
  rw [← published_eq, ha.retains.published] at hfreed
  refine ⟨m₂, cs, x, bs, old, hadm, hreb, hrep.pending, ?_, hfreed, ?_⟩
  · refine ha.chain.congr fun b hb => ?_
    exact hrep.published.page x.chain (by simp [GroupState.published, replaced]) b hb
  · have hcount : reclaimed = old.length := hcount
    rw [hcount]
    rfl

/-- The sorted rows of one document with one term, and of a suffix of the term. -/
def alphaRows : List SortRecord :=
  [.new 0 ⟨0, 1⟩ ⟨1, 0, 1⟩, Anchor.sortRecord ⟨4, 4, 1⟩ (termKey ⟨2, 16⟩),
    .new (termKey ⟨2, 16⟩) ⟨0, 1⟩ ⟨1, 0, 1⟩]

theorem alphaStore_segmented : ∃ m, Segmented (alphaStore 1) m ∧ 1 < m.incarnation := by
  obtain ⟨x, y, z, hr, -⟩ := alphaStore_reachable
  obtain ⟨m, hw, -⟩ := hr.good
  have hread : ((alphaStore 1).page 0).info.map (·.incarnation) = .ok 2 := by decide +kernel
  rw [hw.info] at hread
  have hm : m.incarnation = 2 := Except.ok.inj hread
  exact ⟨m, hw.segmented, by rw [hm]; decide⟩

set_option maxRecDepth 10000 in
/-- The index of one document. -/
theorem writeSorted_alone_alpha : ∃ m y s' m' cs x, Segmented (alphaStore 1) m ∧
    (writeSorted alphaRows ⟨1, 1, 1, 0, 0, 0, 0, 0⟩ (some ⟨1, 0, 1⟩) true none).Completes
      (alphaStore 1) y s' ∧
    Admissible smallLayout m.incarnation true alphaRows ⟨1, 1, 1, 0, 0, 0, 0, 0⟩ cs ∧
    Rebuilt (alphaStore 1) s' m m' (some ⟨1, 0, 1⟩) true cs x := by
  obtain ⟨m, hs, hm⟩ := alphaStore_segmented
  obtain ⟨y, hy⟩ := completes_of_isOk
    (x := writeSorted alphaRows ⟨1, 1, 1, 0, 0, 0, 0, 0⟩ (some ⟨1, 0, 1⟩) true none)
    (s := alphaStore 1) (by decide +kernel)
  have hterm : ∀ r ∈ alphaRows, r.term = 0 ∨ Anchor.validTerm r.term := by decide
  have hafter : ∀ o ∈ some (⟨1, 0, 1⟩ : OwnerRef), o.incarnation < m.incarnation := by
    rintro _ ⟨⟩
    exact hm
  obtain ⟨m', cs, x, bs, old, hadm, hreb, -⟩ :=
    (writeSorted_alone hs hterm (by decide) hafter).completes hy
  exact ⟨m, y, _, m', cs, x, hs, hy, hadm, hreb⟩

/-! ### Publishing a delta of what was written -/

/-- The new segment is published behind the first `r` deltas, which stay as they are. -/
structure Extended (s s' : Store) (m m' : MetaBody) (after before : Option OwnerRef) (level r : ℕ)
    (cs : List Content) (x : GroupSnapshot) : Prop where
  beside : Beside s s' m m'
  active : m'.grouped.active = m.grouped.active
  deltas : m'.grouped.deltas = m.grouped.deltas.take r ++ [⟨x, before, level⟩]
  id : x.id = m.incarnation
  after : x.after = after
  serves : Serves s' x false cs
  kept : ∀ c ∈ (m.grouped.active.toList ++ (m.grouped.deltas.take r).map (·.snapshot)).map
    GroupSnapshot.chain, ∀ b, s.InSegment c.id b ∨ s'.InSegment c.id b → s'.page b = s.page b

/-- A delta over the owners from `before` to `after` may follow the first `r` deltas. -/
structure Follows (g : GroupState) (a : GroupSnapshot) (after before : Option OwnerRef)
    (level r : ℕ) : Prop where
  active : g.active = some a
  room : r < 16 ∧ r ≤ g.deltas.length
  level : level < 16 ∧ ∀ l ∈ (endOf (a.after, a.id, none) (g.deltas.take r)).2.2, level < l
  starts : before = (endOf (a.after, a.id, none) (g.deltas.take r)).1
  ends : after ≠ none ∧ after ≠ before
  newer : ∀ b ∈ before, ∀ o ∈ after, b.incarnation < o.incarnation

variable {before : Option OwnerRef} {level r : ℕ} {g : GroupState} {a : GroupSnapshot}

theorem endOf_id {n : ℕ} {ds : List GroupDelta} {e : Option OwnerRef × ℕ × Option ℕ}
    (he : e.2.1 < n) (hds : ∀ d ∈ ds, d.snapshot.id < n) : (endOf e ds).2.1 < n := by
  induction ds generalizing e with
  | nil => exact he
  | cons d ds ih =>
    exact ih (hds d List.mem_cons_self) fun f hf => hds f (List.mem_cons_of_mem _ hf)

theorem Assembled.continues {bs : List ℕ} {m₁ : MetaBody} {s₁ : Store}
    (ha : Assembled s s₁ m m₁ after false cs x bs) (h : Segmented s m)
    (hf : Follows m.grouped a after before level r) :
    Continues (endOf (a.after, a.id, none) (m₁.grouped.deltas.take r)) [⟨x, before, level⟩] := by
  have hids := h.metaOk.ids
  rw [ha.retains.deltas]
  have hok : x.Ok false := by
    obtain ⟨h₁, h₂, -, h₄, h₅, h₆, h₇, h₈⟩ := ha.ok
    exact ⟨h₁, h₂, fun _ => ha.plain rfl, h₄, h₅, h₆, h₇, h₈⟩
  refine ⟨hok, ha.serves.valid, hf.level.1, hf.level.2, hf.starts, ?_, ?_, ?_, ?_, trivial⟩
  · change x.after ≠ none
    rw [ha.after]
    exact hf.ends.1
  · change x.after ≠ before
    rw [ha.after]
    exact hf.ends.2
  · change ∀ b ∈ before, ∀ o ∈ x.after, b.incarnation < o.incarnation
    rw [ha.after]
    exact hf.newer
  · change _ < x.id
    rw [ha.id]
    exact endOf_id (hids.1 a hf.active) fun d hd => hids.2.1 d (List.mem_of_mem_take hd)

theorem Assembled.extended {bs : List ℕ} {m₁ : MetaBody} {s₁ : Store}
    (ha : Assembled s s₁ m m₁ after false cs x bs)
    (hp : Published s₁ s' m₁ (sealedBehind m₁.grouped x before level r) m') :
    Extended s s' m m' after before level r cs x where
  beside := ha.beside.trans hp.beside
  active := hp.active.trans ha.retains.active
  deltas := by
    rw [hp.deltas, sealedBehind, ha.retains.deltas]
  id := ha.id
  after := ha.after
  serves := by
    refine ha.serves.of_page hp.beside.canonical.layout fun b hb => ?_
    exact hp.page x.chain (by simp [GroupState.published, sealedBehind]) b (.inl hb)
  kept c hc b hin := by
    have hpub : c ∈ m.grouped.published := by
      rw [published_eq]
      simp only [List.map_append, List.mem_append] at hc ⊢
      refine hc.imp_right fun hc => ?_
      exact List.map_subset _ (List.map_subset _ (List.take_subset _ _)) hc
    have hpub' : c ∈ (sealedBehind m₁.grouped x before level r).published := by
      rw [published_eq, sealedBehind, ha.retains.active, ha.retains.deltas]
      simp only [List.map_append, List.mem_append] at hc ⊢
      tauto
    rcases hin with hin | hin
    · have h₁ := ha.retains.page c hpub b (.inl hin)
      exact (hp.page c hpub' b (.inl ((Store.inSegment_congr h₁).2 hin))).trans h₁
    · have h₂ := hp.page c hpub' b (.inr hin)
      exact h₂.trans (ha.retains.page c hpub b (.inr ((Store.inSegment_congr h₂).1 hin)))

/-- Writing sorted rows as a delta: cut off anywhere, the store publishes what it did, or the new
segment behind the deltas that stay, whose pages are as they were.  The deltas it replaces are freed
in the end. -/
theorem writeSorted_delta (h : Segmented s m)
    (hterm : ∀ r ∈ rows, r.term = 0 ∨ Anchor.validTerm r.term) (hlen : rows.length ≤ catalogRoom)
    (hafter : ∀ o ∈ after, o.incarnation < m.incarnation)
    (hf : Follows m.grouped a after before level r) :
    Spec (BuildFails s m after false rows stats)
      (fun s' => (∃ m', Beside s s' m m' ∧ Retains s s' m m') ∨ ∃ m' cs x,
        Admissible s.layout m.incarnation false rows stats cs ∧
          Extended s s' m m' after before level r cs x) s
      (writeSorted rows stats after false (some (before, level, r))) fun y s' =>
        ∃ m' cs x bs old, Admissible s.layout m.incarnation false rows stats cs ∧
          Extended s s' m m' after before level r cs x ∧ m'.grouped.pending = [] ∧
          SegmentOk s' x.chain bs ∧
          Freed s s' (((m.grouped.deltas.drop r).map (·.snapshot)).map GroupSnapshot.chain) old ∧
          y = stats.finished (postsIn cs) old.length bs.length (s'.blocks - s.blocks) := by
  refine Spec.reading_bind layout_returns ?_
  rintro _ rfl
  refine Spec.reading_bind blocks_returns ?_
  rintro _ rfl
  refine assemble_bind h (.inl rfl) (fun hn => .inr (.inl ⟨rfl, hn⟩)) hterm hlen hafter
    (fun hn _ => .inr (.inr (.inr (.inr hn)))) (fun _ => .inl) ?_
  rintro ⟨x, stats₁⟩ s₁ m₁ cs bs hadm ha hstats
  have ha : Assembled s s₁ m m₁ after false cs x bs := ha
  obtain rfl : stats₁ = stats.grouped (postsIn cs) := hstats
  have hactive : m₁.grouped.active = some a := ha.retains.active.trans hf.active
  refine ((publishDelta_spec ha.appending ha.retired ha.chain ha.ok ha.roots hactive hf.room.1
    (by rw [ha.retains.deltas]; exact hf.room.2) (ha.continues h hf)
    fun hn => .inr (.inr (.inr (.inl ⟨rfl, by rwa [ha.after] at hn⟩)))).mono
      ?_ fun _ _ => id).bind ?_
  · rintro s' ⟨m', hp⟩
    exact .inr ⟨m', cs, x, hadm, ha.extended hp⟩
  rintro ⟨reclaimed, written⟩ s₂ ⟨m₂, hrep, hwritten⟩
  obtain rfl : written = bs.length := hwritten
  obtain ⟨old, hcount, hfreed⟩ := ha.freed (fun c hc => by
    rw [published_eq]
    rw [List.map_append]
    refine List.mem_append_right _ (List.map_subset _ (List.map_subset _ ?_) hc)
    exact List.drop_subset _ _) hrep rfl
  have hext := ha.extended hrep.published
  have hblocks := hrep.published.blocks
  refine finish_counts hext.beside.segmented hext.beside.blocks (by rw [hblocks]; exact ha.blocks)
    ⟨hfreed.nodup, hcount, hfreed.free⟩ (fun hn => .inr (.inr (.inl ⟨rfl, hn⟩))) ?_
  rintro y rfl
  rw [ha.retains.deltas] at hfreed
  refine ⟨m₂, cs, x, bs, old, hadm, hext, hrep.pending, ?_, hfreed, ?_⟩
  · refine ha.chain.congr fun b hb => ?_
    exact hrep.published.page x.chain (by simp [GroupState.published, sealedBehind]) b hb
  · have hcount : reclaimed = old.length := hcount
    rw [hcount]
    rfl

/-- The rows of one document with one term. -/
def alphaDelta : List SortRecord :=
  [.new 0 ⟨0, 1⟩ ⟨1, 0, 1⟩, .new (termKey ⟨2, 16⟩) ⟨0, 1⟩ ⟨1, 0, 1⟩]

set_option maxRecDepth 10000 in
/-- One document behind the first segment. -/
theorem writeSorted_delta_alpha : ∃ m y s' m' cs x, Segmented publishedStore m ∧
    (writeSorted alphaDelta ⟨1, 1, 0, 0, 0, 0, 0, 0⟩ (some ⟨1, 0, 1⟩) false
      (some (none, 0, 0))).Completes publishedStore y s' ∧
    Extended publishedStore s' m m' (some ⟨1, 0, 1⟩) none 0 0 cs x := by
  obtain ⟨m, hs, hactive, -, hm⟩ := publishedStore_segmented
  obtain ⟨y, hy⟩ := completes_of_isOk
    (x := writeSorted alphaDelta ⟨1, 1, 0, 0, 0, 0, 0, 0⟩ (some ⟨1, 0, 1⟩) false
      (some (none, 0, 0))) (s := publishedStore) (by decide +kernel)
  have hterm : ∀ r ∈ alphaDelta, r.term = 0 ∨ Anchor.validTerm r.term := by decide
  have hafter : ∀ o ∈ some (⟨1, 0, 1⟩ : OwnerRef), o.incarnation < m.incarnation := by
    rintro _ ⟨⟩
    exact hm
  have hf : Follows m.grouped builtSegment (some ⟨1, 0, 1⟩) none 0 0 := by
    refine ⟨hactive, by simp, ?_, rfl, by simp, by simp⟩
    exact ⟨by decide, by rintro l ⟨⟩⟩
  obtain ⟨m', cs, x, bs, old, -, hext, -⟩ :=
    (writeSorted_delta hs hterm (by decide) hafter hf).completes hy
  exact ⟨m, y, _, m', cs, x, hs, hy, hext⟩

end

end

end Grouped

end PinCore
