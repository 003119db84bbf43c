import PinCore.Mutable.Scan

/-!
# Candidate counting

`scan_count` streams every owner that may match, once each: the postings of a single term, or
the live owners for every other expression.
-/

namespace PinCore

/-- An incarnation-qualified candidate. -/
structure CountCandidate where
  owner : OwnerRef
  /-- A hit in a sealed posting page of a single-term query. -/
  sealedTerm : Bool
  deriving DecidableEq, Repr

/-- Each posting follows the one before; returns the last. -/
def checkOrder : OwnerRef → List OwnerRef → Except Error OwnerRef
  | previous, [] => .ok previous
  | previous, o :: os => if previous.Before o then checkOrder o os else .error .invalidState

/-- Compressed pages carry the sealed certificate. -/
def Page.isSealed (p : Page) : Bool :=
  decide (p.kind = .sealedPostings ∨ p.kind = .directPostings)

/-- The candidates of a posting chain from a block on. -/
def countChainFrom (reference : TermRef) (tail : ℕ) :
    ℕ → ℕ → OwnerRef → Rd (List CountCandidate)
  | 0, _, _ => Obs.fail .invalidState
  | remaining + 1, block, previous => do
    let p ← loadPosting block reference
    let refs ← Obs.ofExcept p.postingRefs
    let previous ← Obs.ofExcept (checkOrder previous refs)
    let batch := refs.map fun o => ⟨o, p.isSealed⟩
    match ← Obs.ofExcept (postingNext p tail (remaining + 1)) with
    | (some next, _) => do
      let rest ← countChainFrom reference tail remaining next previous
      return batch ++ rest
    | (none, _) => return batch

/-- The live published owners of one page as candidates, in slot order. -/
def liveOwners (p : Page) (layout : HeapLayout) :
    ℕ → List OwnerSlot → Except Error (List CountCandidate)
  | _, [] => .ok []
  | slot, _ :: rest => do
    let o ← p.owner slot layout
    let more ← liveOwners p layout (slot + 1) rest
    .ok (if o.record.live = true ∧ o.record.publication = .published then
      ⟨o.reference, false⟩ :: more else more)

/-- The live owners of the owner pages from a block on. -/
def countOwnersFrom (tail : ℕ) : ℕ → ℕ → Rd (List CountCandidate)
  | 0, _ => Obs.fail .invalidState
  | fuel + 1, block => do
    let p ← load block .owners
    let l ← layout
    let slots ← Obs.ofExcept p.slots
    let batch ← Obs.ofExcept (liveOwners p l 0 slots)
    match ← Obs.ofExcept (following p tail) with
    | some next => do
      let rest ← countOwnersFrom tail fuel next
      return batch ++ rest
    | none => return batch

/-- Streams each possible matching owner once. -/
def scanCount (q : Query) : Rd (List CountCandidate) := do
  match q.rootKind with
  | .none => return []
  | .term text =>
    let info ← load 0 .info
    match ← findTerm info text with
    | none => return []
    | some (dictionary, reference) =>
      let entry ← Obs.ofExcept (dictionary.term reference)
      match entry.inlineSecond with
      -- the inline owners have no sealed-source certificate
      | some second => return [⟨entry.first, false⟩, ⟨second, false⟩]
      | none =>
        if entry.head = noBlock then return [⟨entry.first, false⟩]
        else
          let remaining ← blocks
          let rest ← countChainFrom reference entry.tail remaining entry.head entry.first
          return ⟨entry.first, false⟩ :: rest
  | _ =>
    let info ← load 0 .info
    let (head, tail) ← Obs.ofExcept info.ownerChain
    if head = noBlock then return [] else countOwnersFrom tail (tail + 1) head

end PinCore
