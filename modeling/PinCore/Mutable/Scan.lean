import PinCore.Mutable.Plan

/-!
# Query scans

`scan_query_with_recheck`: a single term streams its postings, every other query runs the
cursor plan, and a plan that does not fit the memory budget falls back to the term cover.
Emitted roots carry the flag that asks the host to recheck the predicate.
-/

namespace PinCore

/-- The live coordinates of a direct page, in slot order. -/
def directRoots (p : Page) (layout : HeapLayout) :
    ℕ → List DirectRecord → Except Error (List RootTid)
  | _, [] => .ok []
  | slot, _ :: rest => do
    let root ← p.directRoot slot layout
    let roots ← directRoots p layout (slot + 1) rest
    .ok (root.toList ++ roots)

/-- Check that `owner` follows `previous`. -/
def follows (previous owner : OwnerRef) : Except Error PUnit := do
  let order ← compareOwner previous owner
  if order ≠ .lt ∨ owner.incarnation ≤ previous.incarnation then .error .invalidState
  else .ok ⟨⟩

/-- The postings of an indirect page, each checked against the one before. -/
def scanRefs : Option Page → OwnerRef → List OwnerRef → Rd (List RootTid × OwnerRef × Option Page)
  | cache, previous, [] => return ([], previous, cache)
  | cache, previous, o :: os => do
    Obs.ofExcept (follows previous o)
    let (root, cache) ← resolve cache o
    let (roots, previous, cache) ← scanRefs cache o os
    return (root.toList ++ roots, previous, cache)

/-- One posting page: direct pages carry the roots themselves. -/
def scanPage (p : Page) (cache : Option Page) (previous : OwnerRef) :
    Rd (List RootTid × OwnerRef × Option Page) := do
  if p.kind = .directPostings then
    let (first, last) ← Obs.ofExcept p.directEndpoints
    Obs.ofExcept (follows previous first)
    let l ← layout
    let records ← Obs.ofExcept p.directRecords
    let roots ← Obs.ofExcept (directRoots p l 0 records)
    return (roots, last, cache)
  else
    let refs ← Obs.ofExcept p.postingRefs
    scanRefs cache previous refs

/-- The live roots of a posting chain from a block on. -/
def scanEntryFrom (reference : TermRef) (tail : ℕ) :
    ℕ → ℕ → Option Page → OwnerRef → Rd (List RootTid)
  | 0, _, _, _ => Obs.fail .invalidState
  | remaining + 1, block, cache, previous => do
    let p ← loadPosting block reference
    let (roots, previous, cache) ← scanPage p cache previous
    match ← Obs.ofExcept (postingNext p tail (remaining + 1)) with
    | (some next, _) => do
      let rest ← scanEntryFrom reference tail remaining next cache previous
      return roots ++ rest
    | (none, _) => return roots

/-- The live roots of one dictionary entry. -/
def scanTermEntry (term : Term) : Rd (List RootTid) := do
  let (first, cache) ← resolve none term.first
  match term.inlineSecond with
  | some second =>
    let (root, _) ← resolve cache second
    return first.toList ++ root.toList
  | none =>
    if term.head = noBlock then return first.toList
    else
      let remaining ← blocks
      let roots ← scanEntryFrom term.reference term.tail remaining term.head cache term.first
      return first.toList ++ roots

/-- The live roots of a term. -/
def scanSingleTerm (text : Text) : Rd (List RootTid) := do
  let info ← load 0 .info
  match ← findTerm info text with
  | none => return []
  | some (dictionary, reference) =>
    let entry ← Obs.ofExcept (dictionary.term reference)
    scanTermEntry entry

/-- The coordinate a cursor standing on `owner` can supply. -/
def directOf (owner : OwnerRef) (layout : HeapLayout) :
    List Cursor → Except Error (Option (Option RootTid))
  | [] => .ok none
  | c :: cs => do
    if c.current = some owner then
      match c.chain.bind (·.page) with
      | some p =>
        match ← p.currentDirect layout with
        | some root => .ok (some root)
        | none => directOf owner layout cs
      | none => directOf owner layout cs
    else directOf owner layout cs

/-- The emission loop of the cursor plan. -/
def drain (recheck : Bool) : ℕ → Plan → Option OwnerRef → Option Page → Rd (List (RootTid × Bool))
  | 0, _, _, _ => Obs.fail .invalidState
  | fuel + 1, plan, previous, cache => do
    let (value, plan) ← plan.seek fuel previous
    match value with
    | none => return []
    | some owner =>
      let order ← Obs.ofExcept (match previous with
        | none => .ok .lt
        | some p => compareOwner p owner)
      Obs.ensure (order = .lt) .invalidState
      let l ← layout
      let direct ← Obs.ofExcept (directOf owner l plan.cursors)
      let (root, cache) ← match direct with
        | some root => pure (root, cache)
        | none => resolve cache owner
      let rest ← drain recheck fuel plan (some owner) cache
      return (root.toList.map fun r => (r, recheck)) ++ rest

/-- Operators that the cursor plan answers exactly. -/
def Kind.exact : Kind → Bool
  | none => true
  | term _ => true
  | and _ _ => true
  | or _ _ => true
  | _ => false

/-- Streams roots with the recheck obligation of the executed plan. -/
def scanQueryWithRecheck (fuel : ℕ) (z : Sizes) (q : Query) (memoryBytes : ℕ) :
    Rd (List (RootTid × Bool)) := do
  match q.rootKind with
  | .term text =>
    let roots ← scanSingleTerm text
    return roots.map fun r => (r, false)
  | _ =>
    match Plan.build z q memoryBytes with
    | .error .budget =>
      let cover ← Obs.ofExcept (CandidatePlan.build z q memoryBytes)
      let roots ← scan cover
      return roots.map fun r => (r, true)
    | .error e => Obs.fail e
    | .ok plan =>
      if plan.root = emptyNode then return []
      else if plan.root = universalNode then
        let roots ← scan .universal
        return roots.map fun r => (r, true)
      else
        let plan ← plan.openPlan
        drain (!q.nodes.all Kind.exact) fuel plan none none

end PinCore
