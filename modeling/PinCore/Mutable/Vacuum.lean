import PinCore.Grouped.Catalog
import PinCore.Mutable.Compact

/-!
# Vacuum

Callback-authorised removal of owners, retirement of the copied coordinates, and reclamation of
dead fragments and of extended blocks that were never written.  The callback is a fixed
predicate on roots.
-/

namespace PinCore

/-- The counters of a vacuum. -/
structure VacuumStats where
  liveDocuments : ℕ
  removedDocuments : ℕ
  abandonedDocuments : ℕ
  reclaimedPages : ℕ
  freePages : ℕ
  pages : ℕ
  deriving DecidableEq, Repr

/-! ### Owner removal -/

/-- The slots of one owner page from `slot` on: removable live owners are removed, unpublished
owners abandoned. -/
def vacuumSlots (removable : RootTid → Bool) (layout : HeapLayout) :
    ℕ → ℕ → Page → VacuumStats → Bool → Except Error (Page × VacuumStats × Bool)
  | 0, _, p, stats, changed => .ok (p, stats, changed)
  | count + 1, slot, p, stats, changed => do
    let o ← p.owner slot layout
    match o.record.publication, o.record.live with
    | .published, true =>
      if removable o.record.root then
        let p ← p.changeOwner o.reference .remove layout
        vacuumSlots removable layout count (slot + 1) p
          { stats with removedDocuments := stats.removedDocuments + 1 } true
      else
        vacuumSlots removable layout count (slot + 1) p
          { stats with liveDocuments := stats.liveDocuments + 1 } changed
    | .allocated, _ | .fragmentsWritten, _ =>
      let p ← p.changeOwner o.reference .abandon layout
      vacuumSlots removable layout count (slot + 1) p
        { stats with abandonedDocuments := stats.abandonedDocuments + 1 } true
    | _, _ => vacuumSlots removable layout count (slot + 1) p stats changed

/-- Settles the owners of the pages from a block on. -/
def vacuumOwnersFrom (removable : RootTid → Bool) (tail : ℕ) :
    ℕ → ℕ → VacuumStats → Wr VacuumStats
  | 0, _, _ => Prog.fail .invalidState
  | fuel + 1, block, stats => do
    let p ← Prog.reading (load block .owners)
    let l ← Prog.reading layout
    let count ← Prog.ofExcept p.ownerCount
    let (p, stats, changed) ← Prog.ofExcept (vacuumSlots removable l count 0 p stats false)
    if changed then removeOwners p
    match ← Prog.ofExcept (following p tail) with
    | some next => vacuumOwnersFrom removable tail fuel next stats
    | none => return stats

/-! ### Reclamation -/

/-- Puts one block onto the free list. -/
def reclaim (info : Page) (block : ℕ) (zero : Bool) : Wr Page := do
  let next ← Prog.ofExcept info.freeHead
  let page ← Prog.ofExcept
    (if zero then Page.freeFromZero block next else Page.free block next)
  let info ← Prog.ofExcept (info.setFreeHead block)
  commit [info, page]
  return info

/-- Clears the coordinates of dead owners in a direct page, from `slot` on. -/
def clearDirect (source : Page) : ℕ → List OwnerRef → Option Page → Page → Bool → Rd (Page × Bool)
  | _, [], _, updated, changed => return (updated, changed)
  | slot, o :: os, cache, updated, changed => do
    let l ← layout
    let root ← Obs.ofExcept (source.directRoot slot l)
    if root = none then clearDirect source (slot + 1) os cache updated changed
    else
      let (owner, cache) ← resolve cache o
      if owner = none then
        let updated ← Obs.ofExcept (updated.removeDirectRoot slot l)
        clearDirect source (slot + 1) os cache updated true
      else clearDirect source (slot + 1) os cache updated changed

/-- The owner of a fragment page is live and published. -/
def fragmentLive (p : Page) : Rd Bool := do
  let (reference, _, _) ← Obs.ofExcept p.fragmentData
  let owners ← load reference.page .owners
  let l ← layout
  let o ← Obs.ofExcept (owners.owner reference.slot l)
  Obs.ensure (o.reference = reference) .invalidState
  return decide (o.record.publication = .published ∧ o.record.live = true)

/-- State of the block sweep: the metapage copy, the statistics, a zero block was seen. -/
structure SweepState where
  info : Page
  stats : VacuumStats
  hasZero : Bool

/-- One block of the second pass. -/
def sweepBlock (block : ℕ) (st : SweepState) : Wr SweepState := do
  let p ← Prog.reading (loadAny block)
  match p.kind with
  | .zero => return { st with hasZero := true }
  | .free => return { st with stats := { st.stats with freePages := st.stats.freePages + 1 } }
  | .directPostings =>
    -- bulk deletion must retire every copied coordinate before heap reuse
    let refs ← Prog.ofExcept p.postingRefs
    let (updated, changed) ← Prog.reading (clearDirect p 0 refs none p false)
    if changed then commit [updated]
    return st
  | .fragment =>
    let live ← Prog.reading (fragmentLive p)
    if live then return st
    else
      let info ← reclaim st.info block false
      return { st with info, stats := { st.stats with
        reclaimedPages := st.stats.reclaimedPages + 1
        freePages := st.stats.freePages + 1 } }
  | _ => return st

/-- Sweeps the blocks in order. -/
def sweep : List ℕ → SweepState → Wr SweepState
  | [], st => return st
  | block :: rest, st => do
    let st ← sweepBlock block st
    sweep rest st

/-! ### Allocation orphans -/

/-- Some owner of the page has its payload at `target`. -/
def slotsName (p : Page) (layout : HeapLayout) (target : ℕ) : ℕ → List OwnerSlot → Except Error Bool
  | _, [] => .ok false
  | slot, _ :: rest => do
    let o ← p.owner slot layout
    if o.record.dataHead = target then .ok true else slotsName p layout target (slot + 1) rest

/-- The fields of a page mention `target`. -/
def mentions (p : Page) (layout : HeapLayout) (target : ℕ) : Except Error Bool := do
  let grouped ← Grouped.references p target
  if p.next = target ∨ grouped = true then .ok true
  else
    match p.body with
    | .info _ =>
      let journal ← p.rewriteJournal
      let (head, tail) ← p.ownerChain
      let free ← p.freeHead
      let chains ← (List.range buckets).mapM p.bucket
      .ok (decide ((∃ j ∈ journal, j.head = target ∨ j.tail = target) ∨ head = target ∨
        tail = target ∨ free = target ∨ ∃ c ∈ chains, c.1 = target ∨ c.2 = target))
    | .owners slots => slotsName p layout target 0 slots
    | .dictionary .. =>
      let ts ← p.terms
      .ok (ts.any fun t => decide (t.head = target ∨ t.tail = target ∨ t.first.page = target))
    | .postings .. | .sealed .. | .direct .. =>
      let t ← p.postingTerm
      let refs ← p.postingRefs
      .ok (decide (t.page = target) || refs.any fun o => decide (o.page = target))
    | .fragment .. =>
      let (owner, _, _) ← p.fragmentData
      .ok (decide (owner.page = target))
    | _ => .ok false

/-- No page mentions `target`. -/
def checkUnreferenced (target : ℕ) : List ℕ → Rd PUnit
  | [] => return ⟨⟩
  | block :: rest => do
    let p ← loadAny block
    if p.kind = .zero then checkUnreferenced target rest
    else
      let l ← layout
      let found ← Obs.ofExcept (mentions p l target)
      Obs.ensure (found = false) .invalidState
      checkUnreferenced target rest

/-- Third pass: reclaims the blocks that were extended and never written. -/
def reclaimZeros (pages : ℕ) : List ℕ → SweepState → Wr SweepState
  | [], st => return st
  | block :: rest, st => do
    let p ← Prog.reading (loadAny block)
    if p.kind = .zero then
      Prog.reading (checkUnreferenced block (List.range pages))
      let info ← reclaim st.info block true
      reclaimZeros pages rest { st with info, stats := { st.stats with
        reclaimedPages := st.stats.reclaimedPages + 1
        freePages := st.stats.freePages + 1 } }
    else reclaimZeros pages rest st

/-- Removes each approved owner once, then reclaims dead fragments and orphans. -/
def vacuum (removable : RootTid → Bool) : Wr VacuumStats := do
  let recovered ← recoverCompaction
  let recovered' ← Grouped.recover
  let _ ← Grouped.retire removable
  let info ← Prog.reading (load 0 .info)
  let stats : VacuumStats := ⟨0, 0, 0, recovered + recovered', 0, 0⟩
  let (head, tail) ← Prog.ofExcept info.ownerChain
  let stats ← if head = noBlock then pure stats
    else vacuumOwnersFrom removable tail (tail + 1) head stats
  let pages ← Prog.reading blocks
  let st ← sweep (List.range' 1 (pages - 1)) ⟨info, { stats with pages }, false⟩
  if st.hasZero then
    let st ← reclaimZeros pages (List.range' 1 (pages - 1)) st
    return st.stats
  else return st.stats

end PinCore
