import Mathlib.Data.List.ReduceOption
import Mathlib.Data.Vector.Basic
import PinCore.Document.Validate
import PinCore.Image.Basic

/-!
# The grouped state of the metapage

The grouped state stands behind the fields of the metapage, in one of two layouts.  The shorter
one holds the active snapshot and the journal; the longer one also holds the slots for deltas and
retired chains.  The state decides which one is written, and either is read back.
-/

namespace PinCore

open Grouped

/-- The number of delta records on the metapage. -/
def groupDeltaSegments : ℕ := 16

/-- The number of records of retired chains on the metapage. -/
def groupRetiredSegments : ℕ := groupDeltaSegments + 1

/-- The length of the fixed fields of the metapage. -/
def metaHeader : ℕ := 64

/-- The length of a metapage without grouped fields. -/
def metaLegacyBytes : ℕ := metaHeader + buckets * 8

/-- The length of a metapage of the old grouped format. -/
def metaGroupedBytes : ℕ := metaLegacyBytes + 72

/-- The length of a metapage of the current grouped format. -/
def metaGroupedV3Bytes : ℕ :=
  metaLegacyBytes + 8 + 48 + 24 + groupDeltaSegments * 72 + groupRetiredSegments * 16

/-- `GroupState` with the code's arrays of optional deltas and retired chains. -/
structure GroupArrays where
  active : Option GroupSnapshot
  journal : Option GroupJournal
  deltas : List.Vector (Option GroupDelta) groupDeltaSegments
  retired : List.Vector (Option GroupRetired) groupRetiredSegments
  deriving DecidableEq

namespace GroupArrays

/-- No segment, no journal, no deltas and no retired chains. -/
def default : GroupArrays := ⟨none, none, .replicate _ none, .replicate _ none⟩

/-- The deltas that are present. -/
def deltaList (s : GroupArrays) : List GroupDelta := s.deltas.toList.reduceOption

/-- The retired chains that are present. -/
def retiredList (s : GroupArrays) : List GroupRetired := s.retired.toList.reduceOption

/-- The state without its empty slots. -/
def state (s : GroupArrays) : GroupState := ⟨s.active, s.journal, s.deltaList, s.retiredList⟩

/-! ### Validation -/

/-- The loop over the delta slots; the result is the identifier of the last snapshot. -/
def validateDeltas (active : Option GroupSnapshot) : List (Option GroupDelta) →
    Option OwnerRef → Option ℕ → Option ℕ → Bool → Except Error (Option ℕ)
  | [], _, id, _, _ => .ok id
  | none :: ds, after, id, level, _ => validateDeltas active ds after id level true
  | some d :: ds, after, id, level, gap => do
    require (gap = false ∧ active ≠ none) .invalidState
    require (d.snapshot.Ok false) .invalidState
    require (d.snapshot.frontierValid = false ∧ d.level < groupDeltaSegments ∧
      (∀ l ∈ level, d.level < l) ∧ d.before = after ∧ d.snapshot.after ≠ none ∧
      d.snapshot.after ≠ d.before ∧
      (∀ b ∈ d.before, ∀ a ∈ d.snapshot.after, b.incarnation < a.incarnation) ∧
      ∀ i ∈ id, i < d.snapshot.id) .invalidState
    validateDeltas active ds d.snapshot.after (some d.snapshot.id) (some d.level) gap

/-- The loop over the retired slots. -/
def validateRetired (s : GroupArrays) : List (Option GroupRetired) → Bool → Except Error Unit
  | [], _ => .ok ⟨⟩
  | none :: rs, _ => validateRetired s rs true
  | some r :: rs, gap => do
    require (gap = false ∧ r.head ≠ noBlock ∧ postingPairValid r.head r.tail) .invalidState
    require ((∀ x ∈ s.active, x.id ≠ r.id) ∧ (∀ d ∈ s.deltaList, d.snapshot.id ≠ r.id) ∧
      ∀ j ∈ s.journal, j.id ≠ r.id) .invalidState
    validateRetired s rs gap

/-- The checks of the journal; `last` is the identifier of the last snapshot. -/
def validateJournal (s : GroupArrays) (last : Option ℕ) : Except Error Unit :=
  match s.journal with
  | none => .ok ⟨⟩
  | some j => do
    require (postingPairValid j.head j.tail) .invalidState
    match j.phase with
    | .building => require (∀ id ∈ last, id < j.id) .invalidState
    | .retiring => require (s.deltaList = [] ∧ s.retiredList = [] ∧ j.head ≠ noBlock ∧
        s.active ≠ none ∧ ∀ x ∈ s.active, j.id < x.id) .invalidState

/-- The checks of the grouped state: the active segment, the deltas behind it, the journal and the
retired chains. -/
def validate (s : GroupArrays) : Except Error Unit := do
  require (∀ x ∈ s.active, x.Ok true) .invalidState
  let last ← validateDeltas s.active s.deltas.toList (s.active.bind (·.after))
    (s.active.map (·.id)) none false
  s.validateJournal last
  s.validateRetired s.retired.toList false

/-- Every identifier was drawn from the incarnation counter `next`. -/
def IdsBelow (s : GroupArrays) (next : ℕ) : Prop :=
  (∀ x ∈ s.active, x.id < next) ∧ (∀ d ∈ s.deltaList, d.snapshot.id < next) ∧
    (∀ j ∈ s.journal, j.id < next) ∧ ∀ r ∈ s.retiredList, r.id < next

instance (s : GroupArrays) (next : ℕ) : Decidable (s.IdsBelow next) :=
  inferInstanceAs (Decidable (_ ∧ _))

/-- The longer layout is needed. -/
def extended (s : GroupArrays) : Prop := s.deltaList ≠ [] ∨ s.retiredList ≠ []

instance (s : GroupArrays) : Decidable s.extended := inferInstanceAs (Decidable (_ ∨ _))

end GroupArrays

/-! ### The validator and the decoded state -/

/-- No value stands behind an empty slot. -/
def NoGaps {α : Type} : List (Option α) → Prop
  | [] => True
  | none :: l => l.reduceOption = []
  | some _ :: l => NoGaps l

section

variable {s : GroupArrays} {active : Option GroupSnapshot} {ds : List (Option GroupDelta)}
  {rs : List (Option GroupRetired)} {after : Option OwnerRef} {id level last : Option ℕ} {i : ℕ}

theorem noGaps_of_nil {α : Type} {l : List (Option α)} (h : l.reduceOption = []) : NoGaps l := by
  cases l with
  | nil => exact trivial
  | cons a l =>
    cases a with
    | none => exact h
    | some a => cases h

namespace GroupArrays

/-- Behind a gap every slot is empty. -/
theorem validateDeltas_gap : validateDeltas active ds after id level true = .ok last ↔
    ds.reduceOption = [] ∧ last = id := by
  induction ds with
  | nil => simp [validateDeltas, eq_comm]
  | cons d ds ih =>
    cases d with
    | none => exact ih
    | some d =>
      rw [validateDeltas, List.reduceOption_cons_of_some]
      exact ⟨nofun, nofun⟩

/-- Without an active snapshot there are no deltas. -/
theorem validateDeltas_none : validateDeltas none ds after id level false = .ok last ↔
    ds.reduceOption = [] ∧ last = id := by
  cases ds with
  | nil => simp [validateDeltas, eq_comm]
  | cons d ds =>
    cases d with
    | none => exact validateDeltas_gap
    | some d =>
      rw [validateDeltas, List.reduceOption_cons_of_some]
      exact ⟨nofun, nofun⟩

/-- The slots pass exactly if the deltas in them follow each other without a gap. -/
theorem validateDeltas_iff (ha : active ≠ none) :
    validateDeltas active ds after (some i) level false = .ok last ↔
      NoGaps ds ∧ GroupDelta.ChainOk after i level ds.reduceOption ∧
        last = some ((ds.reduceOption.getLast?.map (·.snapshot.id)).getD i) := by
  induction ds generalizing after i level with
  | nil => simp [validateDeltas, NoGaps, GroupDelta.ChainOk, eq_comm]
  | cons d ds ih =>
    cases d with
    | none =>
      rw [validateDeltas, validateDeltas_gap, NoGaps, List.reduceOption_cons_of_none]
      constructor
      · rintro ⟨h, rfl⟩
        rw [h]
        exact ⟨rfl, trivial, rfl⟩
      · rintro ⟨h, -, rfl⟩
        rw [h]
        exact ⟨rfl, rfl⟩
    | some d =>
      have hlast : (d :: ds.reduceOption).getLast?.map (·.snapshot.id) =
          some ((ds.reduceOption.getLast?.map (·.snapshot.id)).getD d.snapshot.id) := by
        cases ds.reduceOption with
        | nil => rfl
        | cons e es => simp [List.getLast?_cons]
      rw [List.reduceOption_cons_of_some, hlast, Option.getD_some, NoGaps, GroupDelta.ChainOk]
      constructor
      · intro h
        obtain ⟨_, -, h⟩ := ok_of_bind h
        obtain ⟨_, hok, h⟩ := ok_of_bind h
        obtain ⟨_, hstep, h⟩ := ok_of_bind h
        obtain ⟨hvalid, hlevel, hlow, hbefore, hsome, hne, hinc, hid⟩ := require_ok hstep
        obtain ⟨hgaps, hchain, rfl⟩ := ih.1 h
        exact ⟨hgaps, ⟨require_ok hok, hvalid, hlevel, hlow, hbefore, hsome, hne, hinc, hid i rfl,
          hchain⟩, rfl⟩
      · rintro ⟨hgaps, ⟨hok, hvalid, hlevel, hlow, hbefore, hsome, hne, hinc, hid, hchain⟩, rfl⟩
        have hids : ∀ j ∈ some i, j < d.snapshot.id := by
          rintro _ ⟨⟩
          exact hid
        rw [validateDeltas, require_of ⟨rfl, ha⟩, ok_bind, require_of hok, ok_bind,
          require_of ⟨hvalid, hlevel, hlow, hbefore, hsome, hne, hinc, hids⟩, ok_bind]
        exact ih.2 ⟨hgaps, hchain, rfl⟩

theorem validateRetired_gap :
    s.validateRetired rs true = .ok ⟨⟩ ↔ rs.reduceOption = [] := by
  induction rs with
  | nil => simp [validateRetired]
  | cons r rs ih =>
    cases r with
    | none => exact ih
    | some r =>
      rw [validateRetired, List.reduceOption_cons_of_some]
      exact ⟨nofun, nofun⟩

theorem validateRetired_iff : s.validateRetired rs false = .ok ⟨⟩ ↔ NoGaps rs ∧
    ∀ r ∈ rs.reduceOption, r.head ≠ noBlock ∧ postingPairValid r.head r.tail ∧
      (∀ x ∈ s.active, x.id ≠ r.id) ∧ (∀ d ∈ s.deltaList, d.snapshot.id ≠ r.id) ∧
      ∀ j ∈ s.journal, j.id ≠ r.id := by
  induction rs with
  | nil => simp [validateRetired, NoGaps]
  | cons r rs ih =>
    cases r with
    | none =>
      rw [validateRetired, validateRetired_gap, NoGaps, List.reduceOption_cons_of_none]
      refine ⟨fun h => ⟨h, ?_⟩, fun h => h.1⟩
      rw [h]
      exact nofun
    | some r =>
      rw [List.reduceOption_cons_of_some, List.forall_mem_cons, NoGaps]
      constructor
      · intro h
        obtain ⟨_, hhead, h⟩ := ok_of_bind h
        obtain ⟨_, hids, h⟩ := ok_of_bind h
        obtain ⟨-, hne, hpair⟩ := require_ok hhead
        obtain ⟨hgaps, hall⟩ := ih.1 h
        exact ⟨hgaps, ⟨hne, hpair, require_ok hids⟩, hall⟩
      · rintro ⟨hgaps, ⟨hne, hpair, hids⟩, hall⟩
        rw [validateRetired, require_of ⟨rfl, hne, hpair⟩, ok_bind, require_of hids, ok_bind]
        exact ih.2 ⟨hgaps, hall⟩

theorem validateJournal_iff : s.validateJournal last = .ok ⟨⟩ ↔
    (∀ j ∈ s.journal, postingPairValid j.head j.tail) ∧
      (∀ j ∈ s.journal, j.phase = .building → ∀ i ∈ last, i < j.id) ∧
      ∀ j ∈ s.journal, j.phase = .retiring → s.deltaList = [] ∧ s.retiredList = [] ∧
        j.head ≠ noBlock ∧ s.active ≠ none ∧ ∀ x ∈ s.active, j.id < x.id := by
  rw [validateJournal]
  cases s.journal with
  | none => simp
  | some j =>
    simp only [Option.mem_some_iff, forall_eq']
    constructor
    · intro h
      obtain ⟨_, hpair, h⟩ := ok_of_bind h
      refine ⟨require_ok hpair, fun hphase => ?_, fun hphase => ?_⟩ <;> rw [hphase] at h
      · exact require_ok h
      · exact require_ok h
    · rintro ⟨hpair, hbuilding, hretiring⟩
      rw [require_of hpair, ok_bind]
      cases hphase : j.phase with
      | building => exact require_of (hbuilding hphase)
      | retiring => exact require_of (hretiring hphase)

/-- The loop over the deltas of a state: it passes exactly if they follow the active snapshot, and
ends at the latest snapshot. -/
theorem validateDeltas_state : validateDeltas s.active s.deltas.toList (s.active.bind (·.after))
      (s.active.map (·.id)) none false = .ok last ↔
    NoGaps s.deltas.toList ∧ (s.active = none → s.deltaList = []) ∧
      (∀ x ∈ s.active, GroupDelta.ChainOk x.after x.id none s.deltaList) ∧
      last = s.state.latest.map (·.id) := by
  rw [GroupState.latest, state, deltaList]
  cases s.active with
  | none =>
    rw [Option.bind_none, Option.map_none, validateDeltas_none]
    constructor
    · rintro ⟨h, rfl⟩
      rw [h]
      exact ⟨noGaps_of_nil h, fun _ => rfl, nofun, rfl⟩
    · rintro ⟨-, h, -, rfl⟩
      rw [h rfl]
      exact ⟨rfl, rfl⟩
  | some x =>
    have hlast : ((s.deltas.toList.reduceOption.getLast?.map (·.snapshot)).or (some x)).map (·.id) =
        some ((s.deltas.toList.reduceOption.getLast?.map (·.snapshot.id)).getD x.id) := by
      cases s.deltas.toList.reduceOption.getLast? with
      | none => rfl
      | some d => rfl
    rw [Option.bind_some, Option.map_some, validateDeltas_iff (by simp), hlast]
    refine and_congr_right fun _ => ?_
    constructor
    · rintro ⟨hchain, rfl⟩
      refine ⟨nofun, ?_, rfl⟩
      rintro _ ⟨⟩
      exact hchain
    · rintro ⟨-, hchain, rfl⟩
      exact ⟨hchain x rfl, rfl⟩

/-- The code's check of the arrays is that of the decoded state, and there are no gaps. -/
theorem validate_iff : s.validate = .ok ⟨⟩ ↔
    NoGaps s.deltas.toList ∧ NoGaps s.retired.toList ∧ s.state.Ok := by
  have hcount : s.deltaList.length ≤ 16 :=
    (List.reduceOption_length_le _).trans (Nat.le_of_eq s.deltas.toList_length)
  have hretired : s.retiredList.length ≤ 17 :=
    (List.reduceOption_length_le _).trans (Nat.le_of_eq s.retired.toList_length)
  have hlatest : ∀ j : GroupJournal, (∀ i ∈ s.state.latest.map (·.id), i < j.id) ↔
      ∀ x ∈ s.state.latest, x.id < j.id := by simp
  constructor
  · intro h
    obtain ⟨_, hactive, h₁⟩ := ok_of_bind h
    obtain ⟨last, hdeltas, h₂⟩ := ok_of_bind h₁
    obtain ⟨_, hjournal, hslots⟩ := ok_of_bind h₂
    obtain ⟨hgaps, hnone, hchain, hlast⟩ := validateDeltas_state.1 hdeltas
    rw [hlast] at hjournal
    obtain ⟨hpair, hbuilding, hretiring⟩ := validateJournal_iff.1 hjournal
    obtain ⟨hrgaps, hall⟩ := validateRetired_iff.1 hslots
    exact ⟨hgaps, hrgaps, require_ok hactive, hcount, hnone, hchain, hpair,
      fun j hj hphase => (hlatest j).1 (hbuilding j hj hphase), hretiring, hretired, hall⟩
  · rintro ⟨hgaps, hrgaps, hok⟩
    have hdeltas := validateDeltas_state.2 ⟨hgaps, hok.deltasNeedActive, hok.deltas, rfl⟩
    have hjournal := validateJournal_iff.2 ⟨hok.journalPair, fun j hj hphase =>
      (hlatest j).2 (hok.building j hj hphase), hok.retiring⟩
    have hactive : ∀ x ∈ s.active, x.Ok true := hok.active
    rw [validate, require_of hactive, ok_bind, hdeltas, ok_bind, hjournal, ok_bind]
    exact validateRetired_iff.2 ⟨hrgaps, hok.retired⟩

end GroupArrays

end

/-! ### Reading -/

/-- Reads one item for each slot. -/
def readMany {α : Type} (x : Reader.Parse α) : (n : ℕ) → Reader.Parse (List.Vector α n)
  | 0 => return .nil
  | n + 1 => do
    let a ← x
    let rest ← readMany x n
    return .cons a rest

/-- Reads an owner reference; sixteen zeros are none. -/
def readOwner : Reader.Parse (Option OwnerRef) := do
  let owner ← Reader.take 16
  if owner = List.replicate 16 0 then return none
  else
    let o ← Read.ofExcept (Reader.run OwnerRef.read owner)
    return some o

/-- Reads the record of a segment; an empty one has a fixed form. -/
def readSnapshot : Reader.Parse (Option GroupSnapshot) := do
  let id ← Reader.le 8
  let head ← Reader.le 4
  let tail ← Reader.le 4
  let root ← Reader.le 4
  let frontier ← Reader.le 4
  let flags ← Reader.le 4
  let reserved ← Reader.le 4
  Read.ensure (reserved = 0 ∧ flags ≤ 1) .invalidState
  let after ← readOwner
  if id = 0 then
    Read.ensure (head = noBlock ∧ tail = noBlock ∧ root = noBlock ∧ frontier = 0 ∧ flags = 0 ∧
      after = none) .invalidState
    return none
  else
    return some ⟨id, head, tail, root, after, if frontier = 0 then none else some frontier,
      decide (flags = 1)⟩

/-- The four fields of a journal, with a zero behind them. -/
def readJournal : Reader.Parse (ℕ × ℕ × ℕ × ℕ) := do
  let id ← Reader.le 8
  let head ← Reader.le 4
  let tail ← Reader.le 4
  let phase ← Reader.le 4
  let reserved ← Reader.le 4
  Read.ensure (reserved = 0) .invalidState
  return (id, head, tail, phase)

/-- The journal of four fields. -/
def journalOf : ℕ × ℕ × ℕ × ℕ → Except Error (Option GroupJournal)
  | (id, head, tail, phase) =>
    if id = 0 then
      if head = noBlock ∧ tail = noBlock ∧ phase = 0 then .ok none else .error .invalidState
    else match phase with
      | 1 => .ok (some ⟨id, head, tail, .building⟩)
      | 2 => .ok (some ⟨id, head, tail, .retiring⟩)
      | _ => .error .invalidState

/-- Reads the record of a delta; an empty one has a fixed form. -/
def readDelta : Reader.Parse (Option GroupDelta) := do
  let snapshot ← readSnapshot
  let before ← readOwner
  let level ← Reader.le 1
  let reserved ← Reader.take 7
  Read.ensure (reserved = List.replicate 7 0) .invalidState
  Read.ensure (snapshot = none → before = none ∧ level = 0) .invalidState
  return snapshot.map fun snapshot => ⟨snapshot, before, level⟩

/-- Reads the record of a retired chain; an empty one has a fixed form. -/
def readRetired : Reader.Parse (Option GroupRetired) := do
  let id ← Reader.le 8
  let head ← Reader.le 4
  let tail ← Reader.le 4
  if id = 0 then
    Read.ensure (head = noBlock ∧ tail = noBlock) .invalidState
    return none
  else return some ⟨id, head, tail⟩

/-- `PG09` -/
def oldMagic : List UInt8 := [0x50, 0x47, 0x30, 0x39]

/-- `PG10` -/
def newMagic : List UInt8 := [0x50, 0x47, 0x31, 0x30]

/-- The snapshot and the journal fields of the shorter layout. -/
def readOld : Reader.Parse (Option GroupSnapshot × (ℕ × ℕ × ℕ × ℕ)) := do
  let magic ← Reader.take 4
  Read.ensure (magic = oldMagic) .invalidState
  let version ← Reader.le 2
  let flags ← Reader.le 2
  Read.ensure ((version = 1 ∧ flags = 0) ∨ (version = 2 ∧ flags ≤ 1)) .invalidState
  let id ← Reader.le 8
  let head ← Reader.le 4
  let tail ← Reader.le 4
  let root ← Reader.le 4
  let frontier ← Reader.le 4
  Read.ensure (version = 1 → frontier = 0) .invalidState
  let after ← readOwner
  Read.ensure (id = 0 → head = noBlock ∧ tail = noBlock ∧ root = noBlock ∧ after = none ∧
    version = 1) .invalidState
  let journal ← readJournal
  return (if id = 0 then none else
    some ⟨id, head, tail, root, after, if version = 2 then some frontier else none,
      decide (flags = 1)⟩, journal)

/-- The fields of the longer layout. -/
def readNew : Reader.Parse GroupArrays := do
  let magic ← Reader.take 4
  let version ← Reader.le 2
  let flags ← Reader.le 2
  Read.ensure (magic = newMagic ∧ version = 1 ∧ flags = 0) .invalidState
  let active ← readSnapshot
  let fields ← readJournal
  let journal ← Read.ofExcept (journalOf fields)
  let deltas ← readMany readDelta groupDeltaSegments
  let retired ← readMany readRetired groupRetiredSegments
  return ⟨active, journal, deltas, retired⟩

namespace Image

/-- The grouped state of a metapage of the old format, which has no deltas. -/
def readOldGroupedState (p : Image) : Except Error GroupArrays := do
  let (active, fields) ← Reader.runDone readOld (p.used.drop metaLegacyBytes)
  let journal ← journalOf fields
  .ok { GroupArrays.default with active, journal }

/-- Reads legacy, `PG09` or `PG10` metadata. -/
def groupedState (p : Image) : Except Error GroupArrays := do
  p.require .info
  if p.len = metaLegacyBytes then .ok .default
  else
    let s ←
      if p.len = metaGroupedBytes then p.readOldGroupedState
      else if p.len = metaGroupedV3Bytes then
        Reader.runDone readNew (p.used.drop metaLegacyBytes)
      else .error .invalidState
    s.validate
    let next ← p.u64 32
    Grouped.require (s.IdsBelow next) .invalidState
    .ok s

/-! ### The metapage -/

/-- The first and the last owner page. -/
def ownerChain (p : Image) : Except Error (ℕ × ℕ) := do
  p.require .info
  let head ← p.u32 40
  let tail ← p.u32 44
  Grouped.require (pairValid head tail) .codec
  .ok (head, tail)

/-- The first and the last dictionary page of a bucket. -/
def bucket (p : Image) (bucket : ℕ) : Except Error (ℕ × ℕ) := do
  p.require .info
  if buckets ≤ bucket then .error .codec
  else
    let head ← p.u32 (metaHeader + bucket * 8)
    let tail ← p.u32 (metaHeader + bucket * 8 + 4)
    Grouped.require (pairValid head tail) .codec
    .ok (head, tail)

/-- The head of the free list. -/
def freeHead (p : Image) : Except Error ℕ := do
  p.require .info
  let value ← p.u32 48
  Grouped.require (value = noBlock ∨ blockValid value) .codec
  .ok value

/-- The journal of a compaction. -/
def rewriteJournal (p : Image) : Except Error (Option RewriteJournal) := do
  p.require .info
  let head ← p.u32 52
  let tail ← p.u32 56
  let phase ← p.u32 60
  if phase = 0 ∧ head = 0 ∧ tail = 0 then .ok none
  else
    let phase ← match phase with
      | 1 => .ok .building
      | 2 => .ok .retiring
      | _ => .error .codec
    Grouped.require (blockValid head ∧ blockValid tail) .codec
    .ok (some ⟨head, tail, phase⟩)

/-- The checks of the fields in front of the buckets. -/
def checkFields (p : Image) (layout : HeapLayout) : Except Error Unit := do
  Grouped.require ((← p.u32 16) = profileId) .codec
  Grouped.require ((← p.u32 20) = 8192) .codec
  Grouped.require ((← p.u16 24) = layout.maxOffset) .codec
  Grouped.require ((← p.u16 26) = buckets) .codec
  let flags ← p.u32 28
  Grouped.require (flags = 0 ∨ flags = 4) .codec
  Grouped.require ((← p.u64 32) ≠ 0) .codec
  let _ ← p.ownerChain
  let _ ← p.freeHead
  let _ ← p.rewriteJournal

/-- `Page::validate` of a metapage. -/
def validateInfo (p : Image) (layout : HeapLayout) : Except Error Unit := do
  p.checkNext
  p.checkBlock
  Grouped.require (p.len = metaLegacyBytes ∨ p.len = metaGroupedBytes ∨ p.len = metaGroupedV3Bytes)
    .codec
  p.checkFields layout
  let _ ← p.groupedState
  (List.range buckets).forM fun b => do
    let _ ← p.bucket b

end Image

/-! ### Writing -/

/-- Writes the items one after the other. -/
def writeMany {α : Type} (f : α → Writer.Emit) : List α → Writer.Emit
  | [] => pure ⟨⟩
  | a :: rest => do
    f a
    writeMany f rest

/-- Writes an owner or its absence. -/
def writeOwner : Option OwnerRef → Writer.Emit
  | some o => o.write
  | none => Writer.put (List.replicate 16 0)

/-- Writes the record of a segment or its absence. -/
def writeSnapshot (x : Option GroupSnapshot) : Writer.Emit := do
  Writer.le 8 (x.elim 0 (·.id))
  Writer.le 4 (x.elim noBlock (·.head))
  Writer.le 4 (x.elim noBlock (·.tail))
  Writer.le 4 (x.elim noBlock (·.root))
  Writer.le 4 ((x.bind (·.frontierRoot)).getD 0)
  Writer.le 4 (if x.any (·.frontierValid) then 1 else 0)
  Writer.le 4 0
  writeOwner (x.bind (·.after))

/-- The code of a phase. -/
def RewritePhase.code : RewritePhase → ℕ
  | building => 1
  | retiring => 2

/-- Writes the journal or its absence. -/
def writeJournal (j : Option GroupJournal) : Writer.Emit := do
  Writer.le 8 (j.elim 0 (·.id))
  Writer.le 4 (j.elim noBlock (·.head))
  Writer.le 4 (j.elim noBlock (·.tail))
  Writer.le 4 (j.elim 0 (·.phase.code))
  Writer.le 4 0

/-- Writes the record of a delta or its absence. -/
def writeDelta (d : Option GroupDelta) : Writer.Emit := do
  writeSnapshot (d.map (·.snapshot))
  writeOwner (d.bind (·.before))
  Writer.le 1 (d.elim 0 (·.level))
  Writer.put (List.replicate 7 0)

/-- Writes the record of a retired chain or its absence. -/
def writeRetired (r : Option GroupRetired) : Writer.Emit := do
  Writer.le 8 (r.elim 0 (·.id))
  Writer.le 4 (r.elim noBlock (·.head))
  Writer.le 4 (r.elim noBlock (·.tail))

/-- The shorter layout. -/
def writeOld (s : GroupArrays) : Writer.Emit := do
  let frontier := s.active.bind (·.frontierRoot)
  Writer.put oldMagic
  Writer.le 2 (if frontier.isSome then 2 else 1)
  Writer.le 2 (if s.active.any (·.frontierValid) then 1 else 0)
  Writer.le 8 (s.active.elim 0 (·.id))
  Writer.le 4 (s.active.elim noBlock (·.head))
  Writer.le 4 (s.active.elim noBlock (·.tail))
  Writer.le 4 (s.active.elim noBlock (·.root))
  Writer.le 4 (frontier.getD 0)
  writeOwner (s.active.bind (·.after))
  writeJournal s.journal

/-- The longer layout. -/
def writeNew (s : GroupArrays) : Writer.Emit := do
  Writer.put newMagic
  Writer.le 2 1
  Writer.le 2 0
  writeSnapshot s.active
  writeJournal s.journal
  writeMany writeDelta s.deltas.toList
  writeMany writeRetired s.retired.toList

namespace Image

/-- Updates a private metadata image. -/
def setGroupedState (s : GroupArrays) : Edit PUnit := do
  let _ ← check (·.require .info)
  let _ ← Read.ofExcept s.validate
  let next ← check (·.u64 32)
  Read.ensure (s.IdsBelow next) .invalidState
  if s.extended then
    let (written, bytes) ←
      Read.ofExcept (Writer.fill (metaGroupedV3Bytes - metaLegacyBytes) (writeNew s))
    Read.ensure (written = bytes.length) .invalidState
    put metaLegacyBytes bytes
    setLen metaGroupedV3Bytes
  else
    let (_, bytes) ← Read.ofExcept (Writer.fill 72 (writeOld s))
    put metaLegacyBytes bytes
    setLen metaGroupedBytes

end Image

end PinCore
