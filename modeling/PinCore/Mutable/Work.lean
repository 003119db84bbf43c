import PinCore.Mutable.Count

/-!
# Page-sized work for parallel readers

`WorkState` is the shared coordination word vector.  A participant takes a snapshot of it,
prepares one batch and the successor outside the lock, and claims the batch by a
compare-and-replace of the snapshot by the successor.
-/

namespace PinCore

/-- The eleven coordination words, under the roles they have in the code: `kind` is word 0,
`block` and `tail` words 1 and 2, `remaining` word 3, `term` words 4 and 5, `previous` words 6
to 8, `limit` word 9 and `single` word 10. -/
structure WorkState where
  kind : ℕ
  block : ℕ
  tail : ℕ
  remaining : ℕ
  term : TermRef
  previous : OwnerRef
  limit : ℕ
  single : ℕ
  deriving DecidableEq, Repr

/-- One privately copied page or inline reference. -/
structure WorkBatch where
  page : Option Page
  inline : Option OwnerRef
  sealedTerm : Bool

namespace WorkState

/-- The work state when nothing is left to claim. -/
def done : WorkState := ⟨0, 0, 0, 0, ⟨0, 0⟩, ⟨0, 0, 0⟩, 0, 0⟩

/-- The validity check of host coordination words. -/
def fromWords (w : WorkState) : Except Error WorkState :=
  if w.kind = 0 then if w = done then .ok w else .error .invalidState
  else if 3 < w.kind ∨ w.limit = 0 ∨ noBlock ≤ w.limit ∨ w.remaining = 0 ∨
      w.limit < w.remaining ∨ 1 < w.single then .error .invalidState
  else if ¬ ((0 < w.block ∧ w.block < w.limit) ∧ (0 < w.tail ∧ w.tail < w.limit)) ∧
      ¬ (w.kind = 1 ∧ w.block = noBlock ∧ w.tail = noBlock) then .error .invalidState
  else if w.kind = 3 then
    if w.tail < w.block ∨ w.term ≠ ⟨0, 0⟩ ∨ w.previous ≠ ⟨0, 0, 0⟩ ∨ w.single ≠ 0 then
      .error .invalidState
    else .ok w
  else if ¬ (0 < w.term.page ∧ w.term.page < w.limit) ∨
      ¬ (0 < w.previous.page ∧ w.previous.page < w.limit) ∨ 65535 < w.term.offset ∨
      65535 < w.previous.slot ∨ w.previous.incarnation = 0 then .error .invalidState
  else .ok w

/-- Captures a duplicate-free cover. -/
def capture (z : Sizes) (q : Query) (memoryBytes : ℕ) : Rd WorkState := do
  match ← Obs.ofExcept (CandidatePlan.build z q memoryBytes) with
  | .empty => return done
  | cover =>
    let info ← load 0 .info
    let limit ← blocks
    match cover with
    | .terms [text] =>
      match ← findTerm info text with
      | none => return done
      | some (dictionary, reference) =>
        let entry ← Obs.ofExcept (dictionary.term reference)
        Obs.ofExcept (fromWords {
          kind := 1, block := entry.head, tail := entry.tail, remaining := limit
          term := reference, previous := entry.first, limit
          single := if q.isSingleTerm then 1 else 0 })
    | _ =>
      let (head, tail) ← Obs.ofExcept info.ownerChain
      if head = noBlock then return done
      else
        Obs.ofExcept (fromWords {
          kind := 3, block := head, tail, remaining := limit, term := ⟨0, 0⟩
          previous := ⟨0, 0, 0⟩, limit, single := 0 })

/-- The successor of a state that moved to `next`. -/
def successor (w : WorkState) (next : Option ℕ) (remaining : ℕ) : Except Error WorkState :=
  match next with
  | some block => fromWords { w with block, remaining }
  | none => .ok done

/-- The page of an owner-chain state. -/
def prepareOwners (w : WorkState) : Rd (WorkState × WorkBatch) := do
  let p ← load w.block .owners
  let next ← Obs.ofExcept (following p w.tail)
  Obs.ensure (w.remaining ≠ 0) .invalidState
  let w' ← Obs.ofExcept (w.successor next (w.remaining - 1))
  return (w', ⟨some p, none, false⟩)

/-- The page of a posting-chain state. -/
def preparePostings (w : WorkState) : Rd (WorkState × WorkBatch) := do
  let p ← loadPosting w.block w.term
  let refs ← Obs.ofExcept p.postingRefs
  let previous ← Obs.ofExcept (checkOrder w.previous refs)
  let (next, remaining) ← Obs.ofExcept (postingNext p w.tail w.remaining)
  let w' ← Obs.ofExcept ({ w with previous }.successor next remaining)
  return (w', ⟨some p, none, decide (w.single = 1) && p.isSealed⟩)

/-- Prepares one batch without touching the shared state. -/
def prepare (w : WorkState) : Rd (Option (WorkState × WorkBatch)) := do
  if w = done then return none
  else if w.kind = 1 then
    return some (if w.block = noBlock then done else { w with kind := 2 },
      ⟨none, some w.previous, false⟩)
  else if w.kind = 3 then
    let r ← w.prepareOwners
    return some r
  else
    let r ← w.preparePostings
    return some r

end WorkState

/-- The candidates of a claimed batch. -/
def WorkBatch.forEach (b : WorkBatch) (layout : HeapLayout) :
    Except Error (List CountCandidate) := do
  match b.inline with
  | some owner => .ok [⟨owner, false⟩]
  | none =>
    match b.page with
    | none => .error .invalidState
    | some p =>
      if p.kind = .owners then
        let slots ← p.slots
        liveOwners p layout 0 slots
      else
        let refs ← p.postingRefs
        .ok (refs.map fun o => ⟨o, b.sealedTerm⟩)

/-- The live canonical roots of a claimed batch. -/
def WorkBatch.forEachRoot (b : WorkBatch) : Rd (List RootTid) := do
  let l ← layout
  let candidates ← Obs.ofExcept (b.forEach l)
  let (roots, _) ← resolveAll none (candidates.map (·.owner))
  return roots

end PinCore
