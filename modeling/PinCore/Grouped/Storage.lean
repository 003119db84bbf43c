import PinCore.Store

/-!
# Grouped chains

The parts of the grouped storage that the canonical operations call: clearing the advisory
frontier bit before a posting chain is rewritten, and reclaiming unpublished or retired grouped
chains.
-/

namespace PinCore

namespace Grouped

/-- Durably clears the frontier bit of the active snapshot before a chain rewrite. -/
def invalidateFrontier (info : Page) : Wr Page := do
  let state ← Prog.ofExcept info.groupedState
  match state.active with
  | some active =>
    if active.frontierValid = true then
      let info ← Prog.ofExcept (info.setGroupedState
        { state with active := some { active with frontierValid := false } })
      commit [info]
      return info
    else return info
  | none => return info

/-- The segment a grouped page belongs to. -/
def groupId (p : Page) : Except Error ℕ :=
  match p.body with
  | .grouped g => .ok g.id
  | _ => .error .codec

/-- The loop of `inspect`: counts the pages of one complete grouped chain. -/
def inspectFrom (id tail : ℕ) : ℕ → ℕ → ℕ → Rd ℕ
  | 0, _, _ => Obs.fail .invalidState
  | fuel + 1, block, count => do
    let p ← load block .grouped
    let i ← Obs.ofExcept (groupId p)
    Obs.ensure (i = id ∧ ¬ (block = tail ∧ p.next ≠ noBlock)) .invalidState
    match ← Obs.ofExcept (postingNext p tail (fuel + 1)) with
    | (some next, _) => inspectFrom id tail fuel next (count + 1)
    | (none, _) => return count + 1

/-- Checks the chain of a segment and counts its pages. -/
def inspect (id head tail : ℕ) : Rd ℕ := do
  if head = noBlock then
    if tail = noBlock then return 0 else Obs.fail .invalidState
  else
    let remaining ← blocks
    inspectFrom id tail remaining head 0

/-- The page after the head of a chain that is consumed from its head. -/
def chainNext (p : Page) (head tail : ℕ) : Except Error ℕ :=
  if head = tail then .ok noBlock
  else if p.next = noBlock then .error .invalidState
  else .ok p.next

/-- First loop of `recover`: frees the build journal page by page.  The fuel bounds the number
of journal pages, each of which is a distinct block. -/
def recoverJournal : ℕ → ℕ → Wr ℕ
  | 0, _ => Prog.fail .invalidState
  | fuel + 1, reclaimed => do
    let info ← Prog.reading (load 0 .info)
    let state ← Prog.ofExcept info.groupedState
    match state.journal with
    | none => return reclaimed
    | some journal =>
      let _ ← Prog.reading (inspect journal.id journal.head journal.tail)
      Prog.ensure ((∀ x ∈ state.active, x.id ≠ journal.id) ∧
        (∀ d ∈ state.deltas, d.snapshot.id ≠ journal.id) ∧
        ∀ r ∈ state.retired, r.id ≠ journal.id) .invalidState
      if journal.head = noBlock then
        let info ← Prog.ofExcept (info.setGroupedState { state with journal := none })
        commit [info]
        recoverJournal fuel reclaimed
      else
        let p ← Prog.reading (load journal.head .grouped)
        let next ← Prog.ofExcept (chainNext p journal.head journal.tail)
        let head ← Prog.ofExcept info.freeHead
        let free ← Prog.ofExcept (Page.free journal.head head)
        let info ← Prog.ofExcept (info.setFreeHead journal.head)
        let journal' := if next = noBlock then none else some { journal with head := next }
        let info ← Prog.ofExcept (info.setGroupedState { state with journal := journal' })
        commit [info, free]
        recoverJournal fuel (reclaimed + 1)

/-- Second loop of `recover`: frees the retired chains, always the first of the queue. -/
def recoverRetired : ℕ → ℕ → Wr ℕ
  | 0, _ => Prog.fail .invalidState
  | fuel + 1, reclaimed => do
    let info ← Prog.reading (load 0 .info)
    let state ← Prog.ofExcept info.groupedState
    match state.retired with
    | [] => return reclaimed
    | retiring :: rest =>
      let _ ← Prog.reading (inspect retiring.id retiring.head retiring.tail)
      let p ← Prog.reading (load retiring.head .grouped)
      let next ← Prog.ofExcept (chainNext p retiring.head retiring.tail)
      let head ← Prog.ofExcept info.freeHead
      let free ← Prog.ofExcept (Page.free retiring.head head)
      let info ← Prog.ofExcept (info.setFreeHead retiring.head)
      let retired := if next = noBlock then rest else { retiring with head := next } :: rest
      let info ← Prog.ofExcept (info.setGroupedState { state with retired })
      commit [info, free]
      recoverRetired fuel (reclaimed + 1)

/-- Reclaims only unpublished or retired grouped chains.  Every iteration but the last frees a
grouped page or clears an empty journal, so the relation size bounds both loops. -/
def recover : Wr ℕ := do
  let n ← Prog.reading blocks
  let reclaimed ← recoverJournal (n + 2) 0
  recoverRetired (n + 1) reclaimed

end Grouped

end PinCore
