import Mathlib.Data.Prod.Lex
import Mathlib.Order.Nat
import PinCore.Grouped.Liveness
import PinCore.Lib.Merge

/-!
# Merging segment groups

A merge plan visits the live members of its sources in the order of their roots, each coordinate
once.  `visit_ok` gives what is visited; two live owners of one coordinate are a conflict
(`visit_error`).  Interrupts of the caller are not modelled, and neither is what a failed call
leaves in its buffer.
-/

namespace PinCore

namespace Grouped

/-! ### Cursors -/

/-- A walk over the live members of a source.  (`Cursor` in the source.) -/
structure MergeCursor where
  source : SegmentGroup
  index : ℕ
  page : Option ℕ
  live : ℕ
  current : Option Member

namespace MergeCursor

/-- The cursor before the first member of a segment. -/
def new (source : SegmentGroup) : MergeCursor := ⟨source, 0, none, 0, none⟩

/-- The liveness of a page, kept until the page changes. -/
def load (c : MergeCursor) (page : ℕ) : Except Error MergeCursor :=
  if c.page ≠ some page then do
    let live ← c.source.live.offsets page
    .ok { c with live := live, page := some page }
  else .ok c

/-- The loop of `advance` over the records that are left. -/
def advanceFrom : ℕ → MergeCursor → Except Error MergeCursor
  | 0, c => .ok { c with current := none }
  | n + 1, c => do
    let member ← c.source.members.get c.index
    let c ← { c with index := c.index + 1 }.load (pageOf member.root.block)
    if c.live.testBit (member.root.offset - 1) then .ok { c with current := some member }
    else advanceFrom n c

/-- Moves to the next member of the segment that is alive. -/
def advance (c : MergeCursor) : Except Error MergeCursor :=
  advanceFrom (c.source.members.len - c.index) c

end MergeCursor

/-- Roots are compared by block and offset. -/
def memberKey (x : Member) : ℕ ×ₗ ℕ := toLex (x.root.block, x.root.offset)

/-- The segments as inputs of the merge, by the places of their members. -/
def mergeInputs : Inputs MergeCursor Member (ℕ ×ₗ ℕ) Error where
  current := MergeCursor.current
  advance := MergeCursor.advance
  key := memberKey
  agree a b := decide (a.incarnation = b.incarnation)
  conflict := .invalidState

/-- Each coordinate is emitted once, and all live copies must name one owner.  Every round moves a
cursor, so the members bound the rounds. -/
def visit {β : Type} (sources : List SegmentGroup) (emit : β → Member → Except Error β) (b : β) :
    Except Error β := do
  let cursors ← sources.mapM fun source => (MergeCursor.new source).advance
  mergeInputs.mergeInto emit ((sources.map fun source => source.members.len).sum + 1) cursors b

/-! ### Plans -/

/-- The largest number of segments that are merged at once. -/
def maxMergeSources : ℕ := 16

/-- A validated live-owner merge. -/
structure MergePlan where
  key : GroupKey
  sources : List SegmentGroup
  mask : ℕ
  count : ℕ

/-- The identity of a source does not fit a merge behind the sources `prior`. -/
def Foreign (key : GroupKey) (prior : List SegmentGroup) (source : SegmentGroup) : Prop :=
  source.key.base ≠ key.base ∨ source.key.relation ≠ key.relation ∨
    source.key.maxOffset ≠ key.maxOffset ∨ source.key.segment = key.segment ∨
    ∃ s ∈ prior, s.key = source.key

instance {key : GroupKey} {prior : List SegmentGroup} {source : SegmentGroup} :
    Decidable (Foreign key prior source) := inferInstanceAs (Decidable (_ ∨ _ ∨ _ ∨ _ ∨ _))

/-- The segments are of one group, and no segment is given twice. -/
def checkSources (key : GroupKey) : List SegmentGroup → List SegmentGroup → Except Error Unit
  | _, [] => .ok ()
  | prior, source :: rest =>
    if Foreign key prior source then .error .invalidState
    else checkSources key (prior ++ [source]) rest

namespace MergePlan

/-- Checks fresh identity and rejects live generations sharing one coordinate. -/
def new (key : GroupKey) (sources : List SegmentGroup) : Except Error MergePlan :=
  if maxMergeSources < sources.length then .error (.limit "group merge sources")
  else do
    let _ ← checkSources key [] sources
    let (count, mask) ← visit sources
      (fun s member => .ok (s.1 + 1, insertPage s.2 (pageOf member.root.block))) (0, 0)
    .ok ⟨key, sources, mask, count⟩

/-- Runs a writer program. -/
def emitted (x : Writer.Emit) (w : Writer) : Except Error Writer :=
  match x w with
  | (.ok _, w) => .ok w
  | (.error e, _) => .error e

/-- Encodes one root/incarnation pair for each distinct surviving owner; returns the length of the
record and the buffer after the call. -/
def encodeMembers (plan : MergePlan) (output : List UInt8) : Except Error (ℕ × List UInt8) :=
  let length := 72 + plan.count * 16
  if output.length < length then .error (.limit "merged membership output")
  else do
    let w ← emitted (Header.write ⟨plan.key, 3, plan.count, plan.mask⟩ length) (Writer.new length)
    let w ← visit plan.sources (fun w member => emitted (writeMember member) w) w
    .ok (length, w.written ++ output.drop w.written.length)

/-- The live offsets of one page in any source. -/
def liveOffsets (plan : MergePlan) (page : ℕ) : Except Error ℕ :=
  plan.sources.foldlM (fun offsets source => do
    let live ← source.live.offsets page
    .ok (offsets ||| live)) 0

/-- Creates fresh liveness containing exactly the merged live membership. -/
def encodeLiveness (plan : MergePlan) (output : List UInt8) : Except Error ℕ × List UInt8 :=
  encodeWith plan.key .liveness plan.mask plan.liveOffsets output

/-- One source of the loop of `term_offsets`. -/
def addOffsets (page result : ℕ) : SegmentGroup × Option Bitmap → Except Error ℕ
  | (_, none) => .ok result
  | (source, some term) => do
    let offsets ← term.offsets page
    let live ← source.live.offsets page
    .ok (result ||| (offsets &&& live))

/-- The offsets of one term on one page; the liveness of each source filters its own posting. -/
def termOffsets (plan : MergePlan) (terms : List (Option Bitmap)) (page : ℕ) : Except Error ℕ :=
  (plan.sources.zip terms).foldlM (addOffsets page) 0

/-- One source of the first loop of `encode_posting`. -/
def addPages (pages : ℕ) : SegmentGroup × Option Bitmap → Except Error ℕ
  | (_, none) => .ok pages
  | (source, some term) => do
    require (term.key = source.key ∧ term.kind = .posting) .invalidState
    let _ ← term.validateAll
    .ok (pages ||| term.mask)

/-- Checks the postings of a term, and finds the pages with a live match. -/
def postingMask (plan : MergePlan) (terms : List (Option Bitmap)) : Except Error ℕ := do
  require (terms.length = plan.sources.length) .invalidParameters
  let pages ← (plan.sources.zip terms).foldlM addPages 0
  (pagesOf pages).foldlM (fun mask page => do
    let offsets ← plan.termOffsets terms page
    .ok (if offsets ≠ 0 then insertPage mask page else mask)) 0

/-- Merges one term across sources after masking each source's own liveness. -/
def encodePosting (plan : MergePlan) (terms : List (Option Bitmap)) (output : List UInt8) :
    Except Error ℕ × List UInt8 :=
  match plan.postingMask terms with
  | .error e => (.error e, output)
  | .ok mask => encodeWith plan.key .posting mask (plan.termOffsets terms) output

end MergePlan

/-! ### Owners of a source -/

/-- A live owner of a segment: its record is found, and its bit is set. -/
structure SegmentGroup.Owns (s : SegmentGroup) (x : Member) : Prop where
  found : s.members.find x.root = .ok (some x)
  live : s.live.has x.root = true

/-- Two live owners of one coordinate. -/
def Conflict (sources : List SegmentGroup) : Prop :=
  ∃ s ∈ sources, ∃ s' ∈ sources, ∃ x y : Member, s.Owns x ∧ s'.Owns y ∧ x.root = y.root ∧
    x.incarnation ≠ y.incarnation

/-- The segment opens with these members. -/
structure SegmentGroup.HoldsMembers (s : SegmentGroup) (ms : List Member) : Prop where
  holds : s.members.Holds ms
  opened : s.Opened
  within : ∀ page mask, s.live.offsets page = .ok mask → ∀ bit, mask.testBit bit = true →
    ∃ x ∈ ms, x.root = ⟨s.key.base + page, bit + 1⟩

section

variable {s : SegmentGroup} {ms : List Member} {x : Member} {c : MergeCursor}
  {members live : List UInt8}

theorem SegmentGroup.openGroup_holds (h : SegmentGroup.openGroup members live = .ok s) :
    ∃ ms, s.HoldsMembers ms := by
  have hopened := SegmentGroup.openGroup_opened h
  obtain ⟨m, hm, h⟩ := ok_of_bind h
  obtain ⟨b, -, h⟩ := ok_of_bind h
  obtain ⟨_, hsame, h⟩ := ok_of_bind h
  obtain ⟨_, hpages, h⟩ := ok_of_bind h
  cases h
  obtain ⟨-, ms, hholds⟩ := Members.openRecord_holds hm
  obtain ⟨-, -, hmask⟩ := require_ok hsame
  refine ⟨ms, hholds, hopened, fun page mask hoffsets bit hbit => ?_⟩
  have hpage : page ∈ setBits m.header.mask 256 := by
    cases hp : b.mask.testBit page with
    | false =>
      cases (Bitmap.offsets_absent hp).symm.trans hoffsets
      rw [Nat.zero_testBit] at hbit
      cases hbit
    | true =>
      rw [hmask] at hp
      exact mem_setBits.2 ⟨testBit_lt hholds.mask_lt hp, hp⟩
  obtain ⟨all, hall, hcheck⟩ := ok_of_bind (forM_ok hpages page hpage)
  obtain ⟨current, hcurrent, hcheck⟩ := ok_of_bind hcheck
  obtain ⟨_, -, hcheck⟩ := ok_of_bind hcheck
  cases hcurrent.symm.trans hoffsets
  obtain ⟨hpo, hbits⟩ := hholds.pageOffsets_all (hholds.block hpage)
  cases hpo.symm.trans hall
  exact (hbits bit).1 (ldiff_eq_zero.1 (require_ok hcheck).2 bit hbit)

theorem SegmentGroup.HoldsMembers.owns_iff (h : s.HoldsMembers ms) :
    s.Owns x ↔ x ∈ ms ∧ s.live.has x.root = true := by
  obtain ⟨o, ho, hfind⟩ := h.holds.find_ok x.root
  constructor
  · rintro ⟨hfound, hlive⟩
    cases ho.symm.trans hfound
    exact ⟨((hfind x).1 rfl).1, hlive⟩
  · rintro ⟨hx, hlive⟩
    refine ⟨?_, hlive⟩
    rw [ho, (hfind x).2 ⟨hx, rfl⟩]

/-- Every live bit is that of an owner. -/
theorem SegmentGroup.HoldsMembers.owned (h : s.HoldsMembers ms) {root : RootTid}
    (hlive : s.live.has root = true) : ∃ x ∈ ms, x.root = root := by
  obtain ⟨page, bit, hp, rfl⟩ := Bitmap.has_coordinates hlive
  rw [Bitmap.has_coordinate hp] at hlive
  obtain ⟨mask, hmask⟩ := h.opened.decodes page
  rw [hmask] at hlive
  rw [h.opened.key]
  exact h.within page mask hmask bit hlive

/-- The bit of a member on its page. -/
theorem SegmentGroup.HoldsMembers.testBit_live (h : s.HoldsMembers ms) (hx : x ∈ ms) {mask : ℕ}
    (hmask : s.live.offsets (pageOf x.root.block) = .ok mask) :
    mask.testBit (x.root.offset - 1) = s.live.has x.root := by
  have hof := (h.holds.of x hx).root
  have hroot : x.root = ⟨s.live.key.base + pageOf x.root.block, x.root.offset - 1 + 1⟩ := by
    rw [h.opened.key, show s.key = s.members.key from rfl, ← hof.block_eq,
      Nat.sub_add_cancel hof.offset.1]
  have hcoord := @Bitmap.has_coordinate s.live (pageOf x.root.block) (x.root.offset - 1)
    (Nat.mod_lt _ (by decide))
  rw [hmask, ← hroot] at hcoord
  exact hcoord.symm

/-! ### What a cursor yields -/

/-- The live members of a segment in order. -/
def SegmentGroup.LiveList (s : SegmentGroup) (l : List Member) : Prop :=
  ∃ ms, s.HoldsMembers ms ∧ l = ms.filter fun x => s.live.has x.root

theorem MergeCursor.load_ok (hs : s.Opened) (hsource : c.source = s)
    (hpage : ∀ p, c.page = some p → s.live.offsets p = .ok c.live) (page : ℕ) :
    ∃ live, s.live.offsets page = .ok live ∧
      c.load page = .ok { c with live := live, page := some page } := by
  unfold MergeCursor.load
  by_cases hp : c.page = some page
  · rw [if_neg (not_not.2 hp)]
    refine ⟨c.live, hpage page hp, ?_⟩
    rw [← hp]
  · rw [if_pos hp, hsource]
    obtain ⟨live, hlive⟩ := hs.decodes page
    rw [hlive]
    exact ⟨live, rfl, rfl⟩

theorem MergeCursor.advanceFrom_yields (h : s.HoldsMembers ms) {rest : List Member}
    (hsource : c.source = s) (hpage : ∀ p, c.page = some p → s.live.offsets p = .ok c.live)
    (hrest : ms.drop c.index = rest) :
    ∃ c', advanceFrom rest.length c = .ok c' ∧
      mergeInputs.Yields c' (rest.filter fun x => s.live.has x.root) := by
  induction rest generalizing c with
  | nil => exact ⟨{ c with current := none }, rfl, .done rfl⟩
  | cons x rest ih =>
    obtain ⟨source, index, page, old, current⟩ := c
    obtain rfl : source = s := hsource
    have hx : ms[index]? = some x := by rw [← List.head?_drop, hrest, List.head?_cons]
    have htail : ms.drop (index + 1) = rest := by rw [← List.tail_drop, hrest, List.tail_cons]
    obtain ⟨live, hlive, hload⟩ := @load_ok source ⟨source, index + 1, page, old, current⟩ h.opened
      rfl hpage (pageOf x.root.block)
    have hbit := h.testBit_live (List.mem_of_getElem? hx) hlive
    rw [List.length_cons, advanceFrom, h.holds.get index x hx, ok_bind, hload, ok_bind, hbit]
    have hloaded : ∀ p, some (pageOf x.root.block) = some p → source.live.offsets p = .ok live := by
      rintro p hp
      cases hp
      exact hlive
    cases hhas : source.live.has x.root with
    | false =>
      rw [if_neg Bool.false_ne_true, List.filter_cons_of_neg (by rw [hhas]; decide)]
      exact ih rfl hloaded htail
    | true =>
      have hfilter : (x :: rest).filter (fun x => source.live.has x.root) =
          x :: rest.filter fun x => source.live.has x.root := List.filter_cons_of_pos hhas
      rw [if_pos rfl, hfilter]
      refine ⟨_, rfl, ?_⟩
      obtain ⟨c', hadvance, hyields⟩ := @ih ⟨source, index + 1, some (pageOf x.root.block), live,
        some x⟩ rfl hloaded htail
      refine .more rfl ?_ hyields
      have hlength : source.members.len - (index + 1) = rest.length := by
        rw [← h.holds.length, ← htail, List.length_drop]
      change advanceFrom (source.members.len - (index + 1)) _ = _
      rw [hlength]
      exact hadvance

theorem MergeCursor.advance_yields {l : List Member} (h : s.LiveList l) :
    ∃ c, (MergeCursor.new s).advance = .ok c ∧ mergeInputs.Yields c l := by
  obtain ⟨ms, hms, rfl⟩ := h
  have hadvance := @advanceFrom_yields s ms (MergeCursor.new s) hms ms rfl nofun rfl
  rwa [hms.holds.length] at hadvance

end

/-! ### Visits -/

section

variable {s : SegmentGroup} {sources : List SegmentGroup} {ls : List (List Member)} {x y : Member}
  {β : Type} {emit : β → Member → Except Error β}

theorem memberKey_inj : memberKey x = memberKey y ↔ x.root = y.root := by
  constructor
  · intro h
    have h' := Prod.mk.inj (toLex.injective h)
    cases hx : x.root
    cases hy : y.root
    rw [hx, hy] at h'
    exact RootTid.mk.injEq .. ▸ h'
  · intro h
    rw [memberKey, memberKey, h]

/-- The order of roots is that of their keys. -/
theorem memberKey_lt (hx : x.root.offset < 65536) (hy : y.root.offset < 65536) :
    memberKey x < memberKey y ↔ rootKey x.root < rootKey y.root := by
  rw [memberKey, memberKey, Prod.Lex.toLex_lt_toLex, rootKey, rootKey]
  omega

theorem mergeInputs_agree (b c : Member) (h : mergeInputs.key b = mergeInputs.key c) :
    mergeInputs.agree b c = true ↔ b = c := by
  have hroot := memberKey_inj.1 h
  cases b
  cases c
  simp only at hroot
  subst hroot
  simp [mergeInputs]

theorem SegmentGroup.LiveList.mem_iff {l : List Member} (h : s.LiveList l) : x ∈ l ↔ s.Owns x := by
  obtain ⟨ms, hms, rfl⟩ := h
  rw [List.mem_filter, hms.owns_iff]

theorem SegmentGroup.HoldsMembers.offset_lt {ms : List Member} (h : s.HoldsMembers ms)
    (hx : x ∈ ms) : x.root.offset < 65536 := by
  have hoffset := (h.holds.of x hx).root.offset.2
  have hmax := h.holds.valid.maxOffset.2
  omega

theorem SegmentGroup.LiveList.ascending {l : List Member} (h : s.LiveList l) :
    mergeInputs.Ascending l := by
  obtain ⟨ms, hms, rfl⟩ := h
  refine List.Pairwise.filter _ (hms.holds.sorted.imp_of_mem fun {x y} hx hy hxy => ?_)
  exact (memberKey_lt (hms.offset_lt hx) (hms.offset_lt hy)).2 hxy

theorem mapM_yields (h : List.Forall₂ SegmentGroup.LiveList sources ls) :
    ∃ cursors, sources.mapM (fun source => (MergeCursor.new source).advance) = .ok cursors ∧
      List.Forall₂ mergeInputs.Yields cursors ls := by
  induction h with
  | nil => exact ⟨[], rfl, .nil⟩
  | cons hs _ ih =>
    obtain ⟨cursors, hcursors, hyields⟩ := ih
    obtain ⟨c, hc, hy⟩ := MergeCursor.advance_yields hs
    refine ⟨c :: cursors, ?_, .cons hy hyields⟩
    rw [List.mapM_cons, hc, ok_bind, hcursors]
    rfl

theorem exists_liveLists (h : ∀ s ∈ sources, ∃ ms, s.HoldsMembers ms) :
    ∃ ls, List.Forall₂ SegmentGroup.LiveList sources ls := by
  induction sources with
  | nil => exact ⟨[], .nil⟩
  | cons s sources ih =>
    obtain ⟨ls, hls⟩ := ih fun s hs => h s (List.mem_cons_of_mem _ hs)
    obtain ⟨ms, hms⟩ := h s List.mem_cons_self
    exact ⟨_ :: ls, .cons ⟨ms, hms, rfl⟩ hls⟩

theorem mem_flatten_liveLists (h : List.Forall₂ SegmentGroup.LiveList sources ls) :
    x ∈ ls.flatten ↔ ∃ s ∈ sources, s.Owns x := by
  induction h with
  | nil => simp
  | @cons s l sources ls hs _ ih =>
    rw [List.flatten_cons, List.mem_append, ih, hs.mem_iff, List.exists_mem_cons_iff]

theorem ascending_liveLists (h : List.Forall₂ SegmentGroup.LiveList sources ls) :
    ∀ l ∈ ls, mergeInputs.Ascending l := by
  induction h with
  | nil => exact fun l hl => absurd hl List.not_mem_nil
  | cons hs _ ih => exact List.forall_mem_cons.2 ⟨hs.ascending, ih⟩

theorem length_liveLists (h : List.Forall₂ SegmentGroup.LiveList sources ls) :
    ls.flatten.length ≤ (sources.map fun source => source.members.len).sum := by
  induction h with
  | nil => exact Nat.le_refl 0
  | @cons s l sources ls hs _ ih =>
    obtain ⟨ms, hms, rfl⟩ := hs
    have hlength := List.length_filter_le (fun x : Member => s.live.has x.root) ms
    rw [List.flatten_cons, List.length_append, List.map_cons, List.sum_cons, ← hms.holds.length]
    omega

/-- Without a conflict a coordinate has one live owner. -/
theorem eq_of_not_conflict (h : ¬ Conflict sources) (hx : ∃ s ∈ sources, s.Owns x)
    (hy : ∃ s ∈ sources, s.Owns y) (hroot : x.root = y.root) : x = y := by
  obtain ⟨s, hs, hx⟩ := hx
  obtain ⟨s', hs', hy⟩ := hy
  by_contra hne
  refine h ⟨s, hs, s', hs', x, y, hx, hy, hroot, fun hinc => hne ?_⟩
  cases x
  cases y
  simp only at hroot hinc
  rw [hroot, hinc]

/-- A visit emits the live owners of all sources, each coordinate once and in order. -/
theorem visit_ok (hopen : ∀ s ∈ sources, ∃ ms, s.HoldsMembers ms) (h : ¬ Conflict sources) :
    ∃ out, mergeInputs.Ascending out ∧ (∀ x, x ∈ out ↔ ∃ s ∈ sources, s.Owns x) ∧
      ∀ {β : Type} (emit : β → Member → Except Error β) (b : β),
        visit sources emit b = out.foldlM emit b := by
  obtain ⟨ls, hls⟩ := exists_liveLists hopen
  obtain ⟨cursors, hcursors, hyields⟩ := mapM_yields hls
  have hone : ∀ x ∈ ls.flatten, ∀ y ∈ ls.flatten, mergeInputs.key x = mergeInputs.key y →
      x = y := by
    intro x hx y hy hkey
    rw [mem_flatten_liveLists hls] at hx hy
    exact eq_of_not_conflict h hx hy (memberKey_inj.1 hkey)
  obtain ⟨out, hout, hmem, hrun⟩ := Inputs.mergeInto_ok mergeInputs_agree hyields
    (ascending_liveLists hls) (Nat.lt_succ_of_le (length_liveLists hls)) hone
  refine ⟨out, hout, fun x => (hmem x).trans (mem_flatten_liveLists hls), fun emit b => ?_⟩
  rw [visit, hcursors, ok_bind, hrun]

/-- Two live owners of one coordinate are found out. -/
theorem visit_error (hopen : ∀ s ∈ sources, ∃ ms, s.HoldsMembers ms) (h : Conflict sources)
    (hemit : ∀ b a, ∃ b', emit b a = .ok b') (b : β) :
    visit sources emit b = .error .invalidState := by
  obtain ⟨ls, hls⟩ := exists_liveLists hopen
  obtain ⟨cursors, hcursors, hyields⟩ := mapM_yields hls
  obtain ⟨s, hs, s', hs', x, y, hx, hy, hroot, hinc⟩ := h
  rw [visit, hcursors, ok_bind]
  refine Inputs.mergeInto_error mergeInputs_agree hemit hyields (ascending_liveLists hls)
    (Nat.lt_succ_of_le (length_liveLists hls)) ((mem_flatten_liveLists hls).2 ⟨s, hs, hx⟩)
    ((mem_flatten_liveLists hls).2 ⟨s', hs', hy⟩) (memberKey_inj.2 hroot) ?_ b
  rintro rfl
  exact hinc rfl

end

end Grouped

end PinCore
