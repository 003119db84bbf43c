import PinCore.Grouped.Storage

/-!
# Compaction

Streaming replacement of posting chains.  Output pages are linked into the rewrite journal
before the dictionary is switched to them in one commit; the replaced chain then becomes the
journal and is reclaimed by `recoverCompaction`.
-/

namespace PinCore

/-- The modes of compaction: copy, keep a sealed beginning, or store the coordinates. -/
inductive CompactMode where
  | copy
  | retainSealedPrefix
  | directTid
  deriving DecidableEq, Repr

/-- The counters of a compaction. -/
structure CompactStats where
  rewrittenTerms : ℕ
  removedPostings : ℕ
  writtenPages : ℕ
  reusedPages : ℕ
  reclaimedPages : ℕ
  retainedPages : ℕ
  deriving DecidableEq, Repr

/-- A sealed prefix that stays in place: its last page and the first page to rewrite. -/
structure RetainedPrefix where
  boundary : ℕ
  rewriteHead : ℕ
  pages : ℕ
  deriving DecidableEq, Repr

/-- What the inspection of a chain found. -/
structure ChainStats where
  mutablePages : ℕ
  indirectPages : ℕ
  dead : ℕ
  retained : Option RetainedPrefix
  deriving DecidableEq, Repr

/-- Before the first page. -/
def ChainStats.empty : ChainStats := ⟨0, 0, 0, none⟩

/-! ### Inspection -/

/-- The postings of one page: the order check, and the number of dead owners when liveness is
asked for. -/
def inspectRefs (liveness : Bool) : Option Page → Option OwnerRef → ℕ → List OwnerRef →
    Rd (ℕ × Option OwnerRef × Option Page)
  | cache, previous, dead, [] => return (dead, previous, cache)
  | cache, previous, dead, o :: os => do
    Obs.ensure (∀ p ∈ previous, p.Before o) .invalidState
    if liveness then
      let (root, cache) ← resolve cache o
      inspectRefs liveness cache (some o) (if root = none then dead + 1 else dead) os
    else inspectRefs liveness cache (some o) dead os

/-- Running state of the retained prefix: still open, its last page, its length. -/
structure PrefixState where
  isOpen : Bool
  tail : Option ℕ
  pages : ℕ
  deriving DecidableEq, Repr

/-- One page of `inspect` after its postings were read. -/
def inspectPage (p : Page) (block dead : ℕ) (stats : ChainStats) (state : PrefixState) :
    ChainStats × PrefixState :=
  let stats := { stats with
    mutablePages := stats.mutablePages + if p.kind = .postings then 1 else 0
    indirectPages := stats.indirectPages + if p.kind ≠ .directPostings then 1 else 0
    dead := stats.dead + dead }
  let pageLive := decide (p.kind = .sealedPostings ∧ dead = 0)
  if state.isOpen && pageLive then
    -- leave the last live sealed page in the suffix to coalesce its tail
    ({ stats with retained := state.tail.map fun boundary => ⟨boundary, block, state.pages⟩ },
      { state with tail := some block, pages := state.pages + 1 })
  else (stats, { state with isOpen := false })

/-- Inspects a chain from a block on; `remaining` bounds its length. -/
def inspectFrom (term : TermRef) (tail : ℕ) (liveness : Bool) :
    ℕ → ℕ → Option Page → Option OwnerRef → ChainStats → PrefixState → Rd ChainStats
  | 0, _, _, _, _, _ => Obs.fail .invalidState
  | remaining + 1, block, cache, previous, stats, state => do
    let p ← loadPosting block term
    let refs ← Obs.ofExcept p.postingRefs
    let (dead, previous, cache) ← inspectRefs liveness cache previous 0 refs
    let (stats, state) := inspectPage p block dead stats state
    match ← Obs.ofExcept (postingNext p tail (remaining + 1)) with
    | (some next, _) => inspectFrom term tail liveness remaining next cache previous stats state
    | (none, _) =>
      Obs.ensure (p.next = noBlock) .invalidState
      return stats

/-- Validates a complete, terminal chain. -/
def inspect (term : TermRef) (head tail : ℕ) (previous : Option OwnerRef) (liveness : Bool) :
    Rd ChainStats := do
  if head = noBlock then
    Obs.ensure (tail = noBlock) .invalidState
    return .empty
  else
    let remaining ← blocks
    inspectFrom term tail liveness remaining head none previous .empty ⟨liveness, none, 0⟩

/-! ### Output -/

/-- Takes a free page, or extends the relation. -/
def outputBlock (info : Page) : Wr (ℕ × Page) := do
  let free ← Prog.ofExcept info.freeHead
  if free = noBlock then
    let block ← allocate
    return (block, info)
  else
    let p ← Prog.reading (load free .free)
    let info ← Prog.ofExcept (info.setFreeHead p.next)
    return (free, info)

/-- Links a finished output page into the build journal. -/
def persistOutput (info page : Page) : Wr Page := do
  match ← Prog.ofExcept info.rewriteJournal with
  | none =>
    let info ← Prog.ofExcept
      (info.setRewriteJournal (some ⟨page.block, page.block, .building⟩))
    commit [info, page]
    return info
  | some journal =>
    Prog.ensure (journal.phase = .building) .invalidState
    let term ← Prog.ofExcept page.postingTerm
    let previous ← Prog.reading (loadPosting journal.tail term)
    Prog.ensure (previous.next = noBlock ∧
      (previous.kind = .sealedPostings ∨ previous.kind = .directPostings)) .invalidState
    let previous ← Prog.ofExcept (previous.setNext page.block)
    let info ← Prog.ofExcept
      (info.setRewriteJournal (some { journal with tail := page.block }))
    commit [info, previous, page]
    return info

/-! ### Rewriting -/

/-- The state carried through the output loop. -/
structure RewriteState where
  info : Page
  output : Option SealedBuilder
  written : ℕ
  reused : ℕ

/-- Appends an owner to an output page; `none` when the page is full. -/
def pushOutput (direct : Bool) (b : SealedBuilder) (owner : OwnerRef) (root : RootTid) :
    Except Error (Option SealedBuilder) :=
  if direct then b.pushDirect owner root else b.push owner

/-- Starts a new output page with one live posting. -/
def startOutput (direct : Bool) (term : TermRef) (owner : OwnerRef) (root : RootTid)
    (st : RewriteState) : Wr RewriteState := do
  let free ← Prog.ofExcept st.info.freeHead
  let reused := st.reused + if free ≠ noBlock then 1 else 0
  let (block, info) ← outputBlock st.info
  let builder ← Prog.ofExcept
    (if direct then SealedBuilder.newDirect block term else SealedBuilder.new block term)
  match ← Prog.ofExcept (pushOutput direct builder owner root) with
  | none => Prog.fail .invalidState
  | some builder => return { st with info, output := some builder, reused }

/-- Appends one live posting to the output. -/
def emitOutput (direct : Bool) (term : TermRef) (owner : OwnerRef) (root : RootTid)
    (st : RewriteState) : Wr RewriteState := do
  match st.output with
  | none => startOutput direct term owner root st
  | some builder =>
    match ← Prog.ofExcept (pushOutput direct builder owner root) with
    | some builder => return { st with output := some builder }
    | none =>
      let full ← Prog.ofExcept builder.finish
      let info ← persistOutput st.info full
      startOutput direct term owner root
        { st with info, output := none, written := st.written + 1 }

/-- Copies the live postings of one source page. -/
def rewriteRefs (direct : Bool) (term : TermRef) : List OwnerRef → Option Page → RewriteState →
    Wr (Option Page × RewriteState)
  | [], cache, st => return (cache, st)
  | o :: os, cache, st => do
    let (root, cache) ← Prog.reading (resolve cache o)
    match root with
    | none => rewriteRefs direct term os cache st
    | some root =>
      let st ← emitOutput direct term o root st
      rewriteRefs direct term os cache st

/-- Copies the live postings of a chain from a block on. -/
def rewriteFrom (direct : Bool) (term : TermRef) (tail : ℕ) :
    ℕ → ℕ → Option Page → RewriteState → Wr RewriteState
  | 0, _, _, _ => Prog.fail .invalidState
  | remaining + 1, block, cache, st => do
    let p ← Prog.reading (loadPosting block term)
    let refs ← Prog.ofExcept p.postingRefs
    let (cache, st) ← rewriteRefs direct term refs cache st
    match ← Prog.ofExcept (postingNext p tail (remaining + 1)) with
    | (some next, _) => rewriteFrom direct term tail remaining next cache st
    | (none, _) => return st

/-- Persists the last, partly filled output page. -/
def finishOutput (st : RewriteState) : Wr RewriteState := do
  match st.output with
  | none => return st
  | some builder =>
    let page ← Prog.ofExcept builder.finish
    let info ← persistOutput st.info page
    return { st with info, output := none, written := st.written + 1 }

/-- The chain that replaces the rewritten one. -/
def replacement (journal : Option RewriteJournal) : Except Error (ℕ × ℕ) :=
  match journal with
  | none => .ok (noBlock, noBlock)
  | some j => if j.phase = .building then .ok (j.head, j.tail) else .error .invalidState

/-- Switches the dictionary entry to the new chain and puts the old one into the journal. -/
def publishRewrite (info : Page) (term : TermRef) (head tail : ℕ)
    (retained : Option RetainedPrefix) : Wr PUnit := do
  let rewriteHead := (retained.map (·.rewriteHead)).getD head
  let journal ← Prog.ofExcept info.rewriteJournal
  let dictionary ← Prog.reading (load term.page .dictionary)
  let current ← Prog.ofExcept (dictionary.term term)
  Prog.ensure (current.head = head ∧ current.tail = tail) .invalidState
  let (newHead, newTail) ← Prog.ofExcept (replacement journal)
  let info ← Prog.ofExcept (info.setRewriteJournal (some ⟨rewriteHead, tail, .retiring⟩))
  match retained with
  | some retained =>
    let boundary ← Prog.reading (loadPosting retained.boundary term)
    Prog.ensure (boundary.kind = .sealedPostings ∧ boundary.next = rewriteHead) .invalidState
    let boundary ← Prog.ofExcept (boundary.setNext newHead)
    let tail := if newTail = noBlock then retained.boundary else newTail
    let dictionary ← Prog.ofExcept (dictionary.setPostingChain term head tail)
    -- the prefix stays owned; only its old suffix enters the retirement journal
    commit [info, dictionary, boundary]
  | none =>
    let dictionary ← Prog.ofExcept (dictionary.setPostingChain term newHead newTail)
    -- one record switches coverage and records the complete retired source
    commit [info, dictionary]

/-- Rewrites a chain behind its retained beginning; gives the ends of the output. -/
def rewrite (info : Page) (term : TermRef) (head tail : ℕ) (retained : Option RetainedPrefix)
    (direct : Bool) : Wr (ℕ × ℕ) := do
  let journal ← Prog.ofExcept info.rewriteJournal
  Prog.ensure (journal = none) .invalidState
  let rewriteHead := (retained.map (·.rewriteHead)).getD head
  let remaining ← Prog.reading blocks
  let st ← rewriteFrom direct term tail remaining rewriteHead none ⟨info, none, 0, 0⟩
  let st ← finishOutput st
  publishRewrite st.info term head tail retained
  return (st.written, st.reused)

/-! ### Recovery -/

/-- Frees the journal chain two pages at a time, within a budget of `remaining` pages. -/
def reclaimFrom (term : TermRef) (journal : RewriteJournal) : ℕ → ℕ → ℕ → Page → ℕ → Wr ℕ
  | 0, _, _, _, _ => Prog.fail .invalidState
  | fuel + 1, remaining, block, info, reclaimed => do
    let page ← Prog.reading (loadPosting block term)
    let (next, remaining) ← Prog.ofExcept (postingNext page journal.tail remaining)
    let head ← Prog.ofExcept info.freeHead
    let free ← Prog.ofExcept (Page.free block head)
    match next with
    | none =>
      let info ← Prog.ofExcept (info.setRewriteJournal none)
      let info ← Prog.ofExcept (info.setFreeHead block)
      commit [info, free]
      return reclaimed + 1
    | some secondBlock =>
      let second ← Prog.reading (loadPosting secondBlock term)
      let (next, remaining) ← Prog.ofExcept (postingNext second journal.tail remaining)
      let secondFree ← Prog.ofExcept (Page.free secondBlock block)
      let info ← Prog.ofExcept
        (info.setRewriteJournal (next.map fun head => { journal with head }))
      let info ← Prog.ofExcept (info.setFreeHead secondBlock)
      -- two retired pages plus the journal fit one atomic three-page batch
      commit [info, free, secondFree]
      match next with
      | some next => reclaimFrom term journal fuel remaining next info (reclaimed + 2)
      | none => return reclaimed + 2

/-- Reclaims journal-owned pages after an interrupted build or publication. -/
def recoverCompaction : Wr ℕ := do
  let info ← Prog.reading (load 0 .info)
  match ← Prog.ofExcept info.rewriteJournal with
  | none => return 0
  | some journal =>
    let state ← Prog.ofExcept info.groupedState
    Prog.ensure (∀ x ∈ state.active, x.frontierValid = false) .invalidState
    let first ← Prog.reading (loadAny journal.head)
    let term ← Prog.ofExcept first.postingTerm
    let dictionary ← Prog.reading (load term.page .dictionary)
    let active ← Prog.ofExcept (dictionary.term term)
    let _ ← Prog.reading (inspect term journal.head journal.tail none false)
    let _ ← Prog.reading (inspect term active.head active.tail (some active.first) false)
    -- two finite terminal singly linked chains intersect iff they share a tail
    Prog.ensure (active.tail ≠ journal.tail) .invalidState
    let remaining ← Prog.reading blocks
    reclaimFrom term journal remaining remaining journal.head info 0

/-! ### The pass over the dictionary -/

/-- Drops a dead inline second posting. -/
def compactInline (block : ℕ) (reference : TermRef) (second : OwnerRef)
    (info : Page) (stats : CompactStats) : Wr (Page × CompactStats) := do
  let (root, _) ← Prog.reading (resolve none second)
  match root with
  | some _ => return (info, stats)
  | none =>
    let info ← Grouped.invalidateFrontier info
    let current ← Prog.reading (load block .dictionary)
    let t ← Prog.ofExcept (current.term reference)
    Prog.ensure (t.inlineSecond = some second) .invalidState
    let current ← Prog.ofExcept (current.setInlineSecond reference none)
    commit [current]
    return (info, { stats with
      removedPostings := stats.removedPostings + 1
      rewrittenTerms := stats.rewrittenTerms + 1 })

/-- Rewrites one chain if it holds mutable pages or dead postings. -/
def compactChain (mode : CompactMode) (entry : Term) (info : Page) (stats : CompactStats) :
    Wr (Page × CompactStats) := do
  let summary ← Prog.reading (inspect entry.reference entry.head entry.tail (some entry.first) true)
  if summary.mutablePages = 0 ∧ summary.dead = 0 ∧
      ¬ (mode = .directTid ∧ summary.indirectPages ≠ 0) then
    return (info, stats)
  else
    let retained := if mode = .retainSealedPrefix then summary.retained else none
    let info ← Grouped.invalidateFrontier info
    let (written, reused) ← rewrite info entry.reference entry.head entry.tail retained
      (decide (mode = .directTid))
    let reclaimed ← recoverCompaction
    -- recovery advances the free list; never reuse a stale metapage image
    let info ← Prog.reading (load 0 .info)
    return (info, {
      rewrittenTerms := stats.rewrittenTerms + 1
      removedPostings := stats.removedPostings + summary.dead
      writtenPages := stats.writtenPages + written
      reusedPages := stats.reusedPages + reused
      reclaimedPages := stats.reclaimedPages + reclaimed
      retainedPages := stats.retainedPages + (retained.map (·.pages)).getD 0 })

/-- Compacts one dictionary entry. -/
def compactEntry (mode : CompactMode) (bucket block : ℕ) (entry : Term) (info : Page)
    (stats : CompactStats) : Wr (Page × CompactStats) := do
  Prog.ensure (bucketFor entry.term = bucket) .invalidState
  if entry.head = noBlock then return (info, stats)
  else
    match entry.inlineSecond with
    | some second => compactInline block entry.reference second info stats
    | none => compactChain mode entry info stats

/-- Compacts the entries of a dictionary page. -/
def compactEntries (mode : CompactMode) (bucket block : ℕ) : List Term → Page → CompactStats →
    Wr (Page × CompactStats)
  | [], info, stats => return (info, stats)
  | entry :: rest, info, stats => do
    let (info, stats) ← compactEntry mode bucket block entry info stats
    compactEntries mode bucket block rest info stats

/-- Compacts the pages of a bucket from a block on. -/
def compactBucketFrom (mode : CompactMode) (bucket tail : ℕ) : ℕ → ℕ → Page → CompactStats →
    Wr (Page × CompactStats)
  | 0, _, _, _ => Prog.fail .invalidState
  | fuel + 1, block, info, stats => do
    let dictionary ← Prog.reading (load block .dictionary)
    let entries ← Prog.ofExcept dictionary.terms
    let (info, stats) ← compactEntries mode bucket block entries info stats
    match ← Prog.ofExcept (following dictionary tail) with
    | some next => compactBucketFrom mode bucket tail fuel next info stats
    | none => return (info, stats)

/-- Compacts the buckets in order. -/
def compactBuckets (mode : CompactMode) : List ℕ → Page → CompactStats → Wr (Page × CompactStats)
  | [], info, stats => return (info, stats)
  | bucket :: rest, info, stats => do
    let (head, tail) ← Prog.ofExcept (info.bucket bucket)
    if head = noBlock then compactBuckets mode rest info stats
    else
      let (info, stats) ← compactBucketFrom mode bucket tail (tail + 1) head info stats
      compactBuckets mode rest info stats

/-- Rewrites mutable or deletion-bearing chains into sealed posting payloads. -/
def compactWithMode (mode : CompactMode) : Wr CompactStats := do
  let recovered ← recoverCompaction
  let info ← Prog.reading (load 0 .info)
  let (_, stats) ← compactBuckets mode (List.range buckets) info
    ⟨0, 0, 0, 0, recovered, 0⟩
  return stats

end PinCore
