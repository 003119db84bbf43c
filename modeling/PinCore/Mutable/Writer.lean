import PinCore.Document
import PinCore.Grouped.Storage

/-!
# The writer

`initialize`, `insert` and its parts, in the order of the commits they issue.  The local copy of
the metapage is passed from step to step.
-/

namespace PinCore

/-- Creates the metapage of a new, empty relation. -/
def initializeStore (packedPostings : Bool) : Wr PUnit := do
  let n ← Prog.reading blocks
  Prog.ensure (n = 0) .invalidState
  let block ← allocate
  Prog.ensure (block = 0) .invalidState
  let l ← Prog.reading layout
  let info ← Prog.ofExcept (Page.metadata l)
  if packedPostings then
    let info ← Prog.ofExcept info.enablePackedPostings
    commit [info]
  else commit [info]

/-- Appends the owner to a page that must have room. -/
def appendFresh (p : Page) (incarnation : ℕ) (root : RootTid) (d : PreparedDocument) :
    Except Error (OwnerRef × Page) := do
  match ← p.appendOwner incarnation root d.tokenCount d.termCount d.bytes with
  | some r => .ok r
  | none => .error .invalidState

/-- Allocates the owner slot of a new document. -/
def reserveOwner (info : Page) (root : RootTid) (d : PreparedDocument) : Wr (OwnerRef × Page) := do
  let (incarnation, info) ← Prog.ofExcept info.reserveIncarnation
  let (head, tail) ← Prog.ofExcept info.ownerChain
  if head = noBlock then
    let block ← allocate
    let page ← Prog.ofExcept (Page.owners block)
    let (owner, page) ← Prog.ofExcept (appendFresh page incarnation root d)
    let info ← Prog.ofExcept (info.setOwnerChain page.block page.block)
    commit [info, page]
    return (owner, info)
  else
    let page ← Prog.reading (load tail .owners)
    match ← Prog.ofExcept
        (page.appendOwner incarnation root d.tokenCount d.termCount d.bytes) with
    | some (owner, page) =>
      commit [info, page]
      return (owner, info)
    | none =>
      let block ← allocate
      let next ← Prog.ofExcept (Page.owners block)
      let (owner, next) ← Prog.ofExcept (appendFresh next incarnation root d)
      let page ← Prog.ofExcept (page.setNext next.block)
      let info ← Prog.ofExcept (info.setOwnerChain head next.block)
      commit [info, page, next]
      return (owner, info)

/-- Stores the fragments of a large payload from the last to the first. -/
def storeFragments (owner : OwnerRef) (bytes : List UInt8) : ℕ → Page → ℕ → Wr (ℕ × Page)
  | 0, info, dataHead => return (dataHead, info)
  | index + 1, info, dataHead => do
    let offset := index * fragmentBytes
    let chunk := (bytes.drop offset).take fragmentBytes
    let free ← Prog.ofExcept info.freeHead
    if free = noBlock then
      let block ← allocate
      let page ← Prog.ofExcept (Page.fragment block owner dataHead offset chunk)
      commit [page]
      storeFragments owner bytes index info block
    else
      let p ← Prog.reading (load free .free)
      let info ← Prog.ofExcept (info.setFreeHead p.next)
      let page ← Prog.ofExcept (Page.fragment free owner dataHead offset chunk)
      -- removal from the free list and new ownership are one batch
      commit [info, page]
      storeFragments owner bytes index info free

/-- Appends to a posting page that must have room. -/
def appendPosting (p : Page) (owner : OwnerRef) : Except Error Page := do
  match ← p.appendPosting owner with
  | some p => .ok p
  | none => .error .invalidState

/-- Appends an entry to a dictionary page that must have room. -/
def appendTerm (p : Page) (text : Text) (owner : OwnerRef) : Except Error Page := do
  match ← p.appendTerm text owner with
  | some (_, p) => .ok p
  | none => .error .invalidState

/-- A fresh dictionary page in the format the metapage selects. -/
def freshDictionary (info : Page) (block : ℕ) : Except Error Page := do
  if ← info.packedPostings then Page.packedDictionary block else Page.dictionary block

/-- Adds a posting to an existing dictionary entry. -/
def linkExisting (info dictionary : Page) (reference : TermRef) (owner : OwnerRef) : Wr Page := do
  let term ← Prog.ofExcept (dictionary.term reference)
  match term.inlineSecond with
  | some second =>
    let info ← Grouped.invalidateFrontier info
    let block ← allocate
    let page ← Prog.ofExcept (Page.postings block reference)
    let page ← Prog.ofExcept (appendPosting page second)
    let page ← Prog.ofExcept (appendPosting page owner)
    let (_, dictionary) ← Prog.ofExcept (dictionary.promoteInlineSecond reference page.block)
    commit [dictionary, page]
    return info
  | none =>
    if term.head = noBlock then
      if dictionary.packedDictionaryFormat = true then
        let dictionary ← Prog.ofExcept (dictionary.setInlineSecond reference (some owner))
        commit [dictionary]
        return info
      else
        let block ← allocate
        let page ← Prog.ofExcept (Page.postings block reference)
        let page ← Prog.ofExcept (appendPosting page owner)
        let dictionary ← Prog.ofExcept
          (dictionary.setPostingChain reference page.block page.block)
        commit [dictionary, page]
        return info
    else
      let page ← Prog.reading (loadPosting term.tail reference)
      Prog.ensure (page.next = noBlock) .invalidState
      let appended ← Prog.ofExcept
        (if page.kind = .postings then page.appendPosting owner else .ok none)
      match appended with
      | some page =>
        commit [page]
        return info
      | none =>
        let block ← allocate
        let next ← Prog.ofExcept (Page.postings block reference)
        let next ← Prog.ofExcept (appendPosting next owner)
        let page ← Prog.ofExcept (page.setNext next.block)
        let dictionary ← Prog.ofExcept
          (dictionary.setPostingChain reference term.head next.block)
        commit [dictionary, page, next]
        return info

/-- Adds the first posting of a new term. -/
def linkNew (info : Page) (text : Text) (owner : OwnerRef) : Wr Page := do
  let bucket := bucketFor text
  let (head, tail) ← Prog.ofExcept (info.bucket bucket)
  if head = noBlock then
    let block ← allocate
    let page ← Prog.ofExcept (freshDictionary info block)
    let page ← Prog.ofExcept (appendTerm page text owner)
    let info ← Prog.ofExcept (info.setBucket bucket page.block page.block)
    commit [info, page]
    return info
  else
    let page ← Prog.reading (load tail .dictionary)
    match ← Prog.ofExcept (page.appendTerm text owner) with
    | some (_, page) =>
      commit [page]
      return info
    | none =>
      let block ← allocate
      let next ← Prog.ofExcept (freshDictionary info block)
      let next ← Prog.ofExcept (appendTerm next text owner)
      let page ← Prog.ofExcept (page.setNext next.block)
      let info ← Prog.ofExcept (info.setBucket bucket head next.block)
      commit [info, page, next]
      return info

/-- Links an owner under a term, which may be new. -/
def linkTerm (info : Page) (text : Text) (owner : OwnerRef) : Wr Page := do
  match ← Prog.reading (findTerm info text) with
  | some (dictionary, reference) => linkExisting info dictionary reference owner
  | none => linkNew info text owner

/-- Links an owner under its terms in order. -/
def linkTerms (owner : OwnerRef) : List Text → Page → Wr Page
  | [], info => return info
  | t :: ts, info => do
    let info ← linkTerm info t owner
    linkTerms owner ts info

/-- One owner transition, published by a commit of the reloaded owner page. -/
def commitOwner (owner : OwnerRef) (change : Page.OwnerChange) : Wr PUnit := do
  let owners ← Prog.reading (load owner.page .owners)
  let l ← Prog.reading layout
  let owners ← Prog.ofExcept (owners.changeOwner owner change l)
  commit [owners]

/-- Everything `insert` does before the publication record. -/
def prepareInsert (root : RootTid) (d : PreparedDocument) : Wr OwnerRef := do
  let info ← Prog.reading (load 0 .info)
  let (owner, info) ← reserveOwner info root d
  let (dataHead, info) ←
    if inlineBytes < d.bytes.length then
      storeFragments owner d.bytes ((d.bytes.length + fragmentBytes - 1) / fragmentBytes) info
        noBlock
    else pure (noBlock, info)
  commitOwner owner (.payloadReady dataHead)
  let _ ← linkTerms owner d.terms info
  return owner

/-- Publishes one complete document. -/
def insert (root : RootTid) (d : PreparedDocument) : Wr OwnerRef := do
  let owner ← prepareInsert root d
  commitOwner owner .publish
  return owner

end PinCore
