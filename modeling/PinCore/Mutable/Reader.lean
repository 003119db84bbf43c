import PinCore.Store
import PinCore.Query.Basic

/-!
# Candidate streaming

`scan` over a term cover or the owner universe.  What the code emits through a callback is
returned as a list.
-/

namespace PinCore

/-- The roots of the live published owners of one page, in slot order. -/
def liveRoots (p : Page) (layout : HeapLayout) : ℕ → List OwnerSlot → Except Error (List RootTid)
  | _, [] => .ok []
  | slot, _ :: rest => do
    let o ← p.owner slot layout
    let roots ← liveRoots p layout (slot + 1) rest
    .ok (if o.record.publication = .published ∧ o.record.live = true then o.record.root :: roots
      else roots)

/-- The walk over the owner chain. -/
def scanOwnersFrom (tail : ℕ) : ℕ → ℕ → Rd (List RootTid)
  | 0, _ => Obs.fail .invalidState
  | fuel + 1, block => do
    let p ← load block .owners
    let l ← layout
    let slots ← Obs.ofExcept p.slots
    let roots ← Obs.ofExcept (liveRoots p l 0 slots)
    match ← Obs.ofExcept (following p tail) with
    | some next => do
      let rest ← scanOwnersFrom tail fuel next
      return roots ++ rest
    | none => return roots

/-- Resolve a list of owners through the page cache. -/
def resolveAll : Option Page → List OwnerRef → Rd (List RootTid × Option Page)
  | cache, [] => return ([], cache)
  | cache, o :: os => do
    let (root, cache) ← resolve cache o
    let (roots, cache) ← resolveAll cache os
    return (root.toList ++ roots, cache)

/-- The posting chain walk of `scan`. -/
def scanChainFrom (reference : TermRef) (tail : ℕ) :
    ℕ → ℕ → Option Page → Rd (List RootTid × Option Page)
  | 0, _, _ => Obs.fail .invalidState
  | remaining + 1, block, cache => do
    let p ← loadPosting block reference
    let refs ← Obs.ofExcept p.postingRefs
    let (roots, cache) ← resolveAll cache refs
    match ← Obs.ofExcept (postingNext p tail (remaining + 1)) with
    | (some next, _) => do
      let (rest, cache) ← scanChainFrom reference tail remaining next cache
      return (roots ++ rest, cache)
    | (none, _) => return (roots, cache)

/-- The postings of one cover term. -/
def scanTerm (info : Page) (cache : Option Page) (text : Text) :
    Rd (List RootTid × Option Page) := do
  match ← findTerm info text with
  | none => return ([], cache)
  | some (dictionary, reference) =>
    let entry ← Obs.ofExcept (dictionary.term reference)
    let (first, cache) ← resolve cache entry.first
    match entry.inlineSecond with
    | some second =>
      let (root, cache) ← resolve cache second
      return (first.toList ++ root.toList, cache)
    | none =>
      if entry.head = noBlock then return (first.toList, cache)
      else
        let remaining ← blocks
        let (roots, cache) ← scanChainFrom reference entry.tail remaining entry.head cache
        return (first.toList ++ roots, cache)

/-- The live roots of the terms in order. -/
def scanTerms (info : Page) : Option Page → List Text → Rd (List RootTid)
  | _, [] => return []
  | cache, t :: ts => do
    let (roots, cache) ← scanTerm info cache t
    let rest ← scanTerms info cache ts
    return roots ++ rest

/-- Streams a conservative cover. -/
def scan (plan : CandidatePlan) : Rd (List RootTid) := do
  let info ← load 0 .info
  match plan with
  | .empty => return []
  | .universal =>
    let (head, tail) ← Obs.ofExcept info.ownerChain
    if head = noBlock then return [] else scanOwnersFrom tail (tail + 1) head
  | .terms ts => scanTerms info none ts

end PinCore
