import PinCore.Grouped.Catalog
import PinCore.Grouped.Compile
import PinCore.Grouped.Demand
import PinCore.Lib.Gives

/-!
# The scan of one snapshot

`nextGroup` bounds the next heap group that can hold a match by the cursors of the terms; for each
such group the page summaries decide which bitmaps are read, and the program is evaluated over
those.  `scanGroup_unreachable` and `scanSnapshot_unreachable` show that the evaluation never asks
for a bitmap that was not read.  The vectors of the scan are lists and the sink collects what it is
given; `interrupt`, `work` and failing sinks are not modelled.
-/

namespace PinCore

namespace Grouped

/-! ### Terms and their cursors -/

/-- A term of the program with its catalog cursor.  (`Term` in the source.) -/
structure ScanTerm where
  key : Option ℕ
  cursor : CatalogCursor
  next : Option CatalogEntry
  initialized : Bool

namespace ScanTerm

/-- A term whose cursor was not placed. -/
def new (key : Option ℕ) : ScanTerm := ⟨key, .new, none, false⟩

/-- The entry of the term in the group at `base`.  (`at` in the source.) -/
def entry (t : ScanTerm) (snapshot : GroupSnapshot) (base : ℕ) :
    Rd (Option CatalogEntry × ScanTerm) := do
  match t.key with
  | none => return (none, t)
  | some key =>
    if t.initialized = false ∨ ∃ e ∈ t.next, e.key.2 < base then
      let (found, cursor) ← t.cursor.seek snapshot.id snapshot.root (key, base)
      let next := found.filter fun e => e.key.1 = key
      return (next.filter fun e => e.key.2 = base, ⟨t.key, cursor, next, true⟩)
    else return (t.next.filter fun e => e.key.2 = base, t)

/-- Moves past the group at `base`. -/
def advance (t : ScanTerm) (snapshot : GroupSnapshot) (base : ℕ) : Rd ScanTerm := do
  if ∃ e ∈ t.next, e.key.2 = base then
    let (found, cursor) ← t.cursor.advance snapshot.id
    return { t with
      cursor := cursor
      next := found.filter fun e => some e.key.1 = t.key }
  else return t

end ScanTerm

/-! ### The next group -/

/-- Moves the terms that bound the next group to `target`. -/
def seekTermsFrom (snapshot : GroupSnapshot) (seekTerms target : ℕ) :
    ℕ → List ScanTerm → Rd (List ScanTerm)
  | _, [] => return []
  | index, t :: ts => do
    if seekTerms.testBit index then
      let (_, t) ← t.entry snapshot target
      let ts ← seekTermsFrom snapshot seekTerms target (index + 1) ts
      return t :: ts
    else
      let ts ← seekTermsFrom snapshot seekTerms target (index + 1) ts
      return t :: ts

/-- No later than the next group at or after `target` in which the node can match. -/
def boundNode (target : ℕ) (terms : List ScanTerm) (bounds : List (Option ℕ)) :
    Node → Except Error (Option ℕ)
  | .term t =>
    match (terms[t]?.bind (·.next)) with
    | none => .ok none
    | some e => if e.key.2 < u32Limit then .ok (some e.key.2) else .error .invalidState
  | .and l r =>
    match bounds.getD l none, bounds.getD r none with
    | some left, some right => .ok (some (max left right))
    | _, _ => .ok none
  | .or l r =>
    match bounds.getD l none, bounds.getD r none with
    | some left, some right => .ok (some (min left right))
    | left, right => .ok (left.or right)
  | .not _ => .ok (some target)
  | _ => .error .invalidState

/-- The bounds of the nodes in order. -/
def boundNodes (target : ℕ) (terms : List ScanTerm) :
    List Node → List (Option ℕ) → Except Error (List (Option ℕ))
  | [], bounds => .ok bounds
  | node :: nodes, bounds => do
    let bound ← boundNode target terms bounds node
    boundNodes target terms nodes (bounds ++ [bound])

/-- The first group that exists from a group on, by the liveness entries of the catalog. -/
def liveGroup (snapshot : GroupSnapshot) (groups : CatalogCursor) (base : ℕ) :
    Rd (Option ℕ × CatalogCursor) := do
  let (found, groups) ← groups.seek snapshot.id snapshot.root (0, base)
  match found.filter fun e => e.key.1 = 0 with
  | none => return (none, groups)
  | some e =>
    if e.key.2 < u32Limit then return (some e.key.2, groups) else Obs.fail .invalidState

/-- The loop of `next_group`.  The target grows with every turn but the last. -/
def nextGroupFrom (snapshot : GroupSnapshot) (program : ScanProgram) :
    ℕ → ℕ → List ScanTerm → CatalogCursor → Rd (Option ℕ × List ScanTerm × CatalogCursor)
  | 0, _, _, _ => Obs.fail .invalidState
  | fuel + 1, target, terms, groups => do
    let terms ← seekTermsFrom snapshot program.seekTerms target 0 terms
    let bounds ← Obs.ofExcept (boundNodes target terms program.nodes [])
    match bounds.getD (program.nodes.length - 1) none with
    | none => return (none, terms, groups)
    | some bound =>
      let (next, groups) ←
        if program.isUniverse then liveGroup snapshot groups bound else pure (some bound, groups)
      match next with
      | none => return (none, terms, groups)
      | some next =>
        Obs.ensure (target ≤ next ∧ next % 256 = 0) .invalidState
        if next = target then return (some next, terms, groups)
        else nextGroupFrom snapshot program fuel next terms groups

/-- The next group at or after `target` that can hold a match. -/
def nextGroup (snapshot : GroupSnapshot) (program : ScanProgram) (target : ℕ)
    (terms : List ScanTerm) (groups : CatalogCursor) :
    Rd (Option ℕ × List ScanTerm × CatalogCursor) :=
  nextGroupFrom snapshot program (u32Limit + 1) target terms groups

/-! ### One group -/

/-- The errors for a catalog entry and for a bitmap that are not there when they are needed. -/
structure Absent where
  entry : Error
  view : Error

/-- What the source of this group answers with: both are corruption. -/
def Absent.invalid : Absent := ⟨.invalidState, .invalidState⟩

/-- The page mask of a term in a group, from its entry there. -/
def entryPages : Option CatalogEntry → Except Error ℕ
  | none => .ok 0
  | some e => do
    let v ← Value.read e
    .ok v.pages

/-- The entries of the terms in the group at `base`, with the page masks of their values. -/
def termEntries (snapshot : GroupSnapshot) (base : ℕ) :
    List ScanTerm → Rd (List (Option CatalogEntry) × List ℕ × List ScanTerm)
  | [] => return ([], [], [])
  | t :: ts => do
    let (entry, t) ← t.entry snapshot base
    let mask ← Obs.ofExcept (entryPages entry)
    let (entries, masks, ts) ← termEntries snapshot base ts
    return (entry :: entries, mask :: masks, t :: ts)

/-- Reads the bitmaps of the needed terms, from term `index` on. -/
def readNeeded (absent : Absent) (id needed : ℕ) :
    ℕ → List (Option CatalogEntry) → Rd (List (Option Bitmap))
  | _, [] => return []
  | index, entry :: entries => do
    if needed.testBit index then
      let e ← Obs.ofExcept (entry.elim (.error absent.entry) .ok)
      let (_, _, view) ← readBitmap id e
      let views ← readNeeded absent id needed (index + 1) entries
      return some view :: views
    else
      let views ← readNeeded absent id needed (index + 1) entries
      return none :: views

/-- A group with the bitmaps that were read.  (`Loaded` in the source.) -/
def loadedSource (absent : Absent) (key : GroupKey) (live : Bitmap) (masks : List ℕ)
    (terms : List (Option Bitmap)) : Source where
  key := key
  terms := terms.length
  livePages := live.mask
  termPages t := masks.getD t 0
  liveOffsets page := live.offsets page
  termOffsets t page :=
    match terms.getD t none with
    | none => .error absent.view
    | some view => do
      let mask ← view.offsets page
      .ok (mask, view.payloadBytes page)

/-- The body of the loop of `scan_snapshot` for the group at `base`, up to the moving of the
cursors: the pages it emits and their number of offsets. -/
def scanGroupWith (absent : Absent) (snapshot : GroupSnapshot) (nodes : List Node) (base : ℕ)
    (terms : List ScanTerm) (groups : CatalogCursor) (scratch : QueryScratch) :
    Rd (List (ℕ × ℕ) × ℕ × List ScanTerm × CatalogCursor × QueryScratch) := do
  let (found, groups) ← groups.seek snapshot.id snapshot.root (0, base)
  let liveEntry ← Obs.ofExcept
    ((found.filter fun e => e.key = (0, base)).elim (.error .invalidState) .ok)
  let liveValue ← Obs.ofExcept (Value.read liveEntry)
  let (entries, masks, terms) ← termEntries snapshot base terms
  let ((pages, needed), scratch) ←
    Obs.ofExcept (neededTerms nodes liveValue.pages masks scratch)
  if pages = 0 then return ([], 0, terms, groups, scratch)
  else
    let (_, _, live) ← readBitmap snapshot.id liveEntry
    let parsed ← readNeeded absent snapshot.id needed 0 entries
    let l ← layout
    let key ← Obs.ofExcept (groupKey snapshot.id base l)
    let (out, stats, scratch) ← Obs.ofExcept
      (evaluateSource (loadedSource absent key live masks parsed) nodes scratch)
    return (out, stats.emittedTids, terms, groups, scratch)

/-- The group as the source scans it. -/
def scanGroup : GroupSnapshot → List Node → ℕ → List ScanTerm → CatalogCursor → QueryScratch →
    Rd (List (ℕ × ℕ) × ℕ × List ScanTerm × CatalogCursor × QueryScratch) :=
  scanGroupWith .invalid

/-! ### The loop over the groups -/

/-- Moves the terms that bound the next group past the group at `base`. -/
def advanceTerms (snapshot : GroupSnapshot) (seekTerms base : ℕ) :
    ℕ → List ScanTerm → Rd (List ScanTerm)
  | _, [] => return []
  | index, t :: ts => do
    if seekTerms.testBit index then
      let t ← t.advance snapshot base
      let ts ← advanceTerms snapshot seekTerms base (index + 1) ts
      return t :: ts
    else
      let ts ← advanceTerms snapshot seekTerms base (index + 1) ts
      return t :: ts

/-- The loop of `scan_snapshot` from the target on; every turn ends at a later group. -/
def scanGroupsWith (absent : Absent) (snapshot : GroupSnapshot) (program : ScanProgram) :
    ℕ → ℕ → List ScanTerm → CatalogCursor → QueryScratch → List (ℕ × ℕ) → ℕ →
      Rd (List (ℕ × ℕ) × ℕ × List ScanTerm × QueryScratch)
  | 0, _, _, _, _, _, _ => Obs.fail .invalidState
  | fuel + 1, target, terms, groups, scratch, out, count => do
    let (next, terms, groups) ← nextGroup snapshot program target terms groups
    match next with
    | none => return (out, count, terms, scratch)
    | some base =>
      let (pages, emitted, terms, groups, scratch) ←
        scanGroupWith absent snapshot program.nodes base terms groups scratch
      Obs.ensure (count + emitted < usizeLimit) (.limit "group candidates")
      let terms ← advanceTerms snapshot program.seekTerms base 0 terms
      if u32Limit ≤ base + 256 then return (out ++ pages, count + emitted, terms, scratch)
      else
        scanGroupsWith absent snapshot program fuel (base + 256) terms groups scratch
          (out ++ pages) (count + emitted)

/-- Scans one snapshot: the pages emitted and their number of offsets. -/
def scanSnapshotWith (absent : Absent) (snapshot : GroupSnapshot) (program : ScanProgram)
    (terms : List ScanTerm) (scratch : QueryScratch) :
    Rd (List (ℕ × ℕ) × ℕ × List ScanTerm × QueryScratch) :=
  scanGroupsWith absent snapshot program (u32Limit + 1) 0 (terms.map fun t => .new t.key) .new
    scratch [] 0

/-- The scan of the source: a missing entry and a missing bitmap are corruption. -/
def scanSnapshot : GroupSnapshot → ScanProgram → List ScanTerm → QueryScratch →
    Rd (List (ℕ × ℕ) × ℕ × List ScanTerm × QueryScratch) :=
  scanSnapshotWith .invalid

/-! ### What the group holds -/

section

variable {id base needed index : ℕ} {snapshot : GroupSnapshot} {e : CatalogEntry}
  {absent absent' : Absent}

/-- A bitmap that was read has the page mask of its value, unless it is inline. -/
theorem readBitmap_gives : (readBitmap id e).Gives fun x =>
    Value.read e = .ok x.1 ∧ (x.1.len ≠ 0 → x.2.2.mask = x.1.pages) := by
  unfold readBitmap
  refine Obs.Gives.bind (Obs.Gives.ofExcept fun _ h => h) fun v hv => ?_
  refine Obs.Gives.any.bind fun l _ => Obs.Gives.any.bind fun key _ => ?_
  by_cases hlen : v.len = 0
  · rw [if_pos hlen]
    refine Obs.Gives.any.bind fun pages _ => Obs.Gives.any.bind fun bytes _ => ?_
    exact Obs.Gives.any.bind fun view _ => Obs.Gives.pure ⟨hv, fun h => absurd hlen h⟩
  · rw [if_neg hlen]
    refine Obs.Gives.any.bind fun bytes _ => Obs.Gives.any.bind fun view _ => ?_
    exact Obs.Gives.ensure_bind fun h => Obs.Gives.pure ⟨hv, fun _ => h.2.2⟩

/-- A liveness value is stored, and its page mask has 256 bits. -/
theorem Value.read_live {v : Value} (h : Value.read e = .ok v) (hkey : e.key.1 = 0) :
    v.len ≠ 0 ∧ v.pages < 2 ^ 256 := by
  unfold Value.read at h
  by_cases hinline : leAt e.value 0 4 = 0 ∧ leAt e.value 60 4 ≠ 0
  · rw [if_pos hinline, if_pos (.inl hkey)] at h
    cases h
  · rw [if_neg hinline] at h
    dsimp only at h
    split_ifs at h with hzero hlen hstored
    cases h
    exact ⟨hlen, leAt_lt e.value 16 32⟩

/-- A term with a page in the group has an entry there. -/
theorem termEntries_gives (ts : List ScanTerm) : (termEntries snapshot base ts).Gives fun x =>
    x.1.length = ts.length ∧ x.2.1.length = ts.length ∧
      ∀ t, x.2.1.getD t 0 ≠ 0 → (x.1.getD t none).isSome := by
  induction ts with
  | nil => exact Obs.Gives.pure ⟨rfl, rfl, fun t h => absurd rfl h⟩
  | cons t ts ih =>
    unfold termEntries
    refine Obs.Gives.any.bind fun x _ => ?_
    obtain ⟨entry, t'⟩ := x
    dsimp only
    refine Obs.Gives.bind (P := fun mask => mask ≠ 0 → entry.isSome)
      (Obs.Gives.ofExcept fun mask hmask => ?_) fun mask hmask => ?_
    · cases entry with
      | none =>
        cases hmask
        exact fun h => absurd rfl h
      | some e => exact fun _ => rfl
    · refine ih.bind fun x hx => Obs.Gives.pure ?_
      obtain ⟨entries, masks, ts'⟩ := x
      refine ⟨congrArg Nat.succ hx.1, congrArg Nat.succ hx.2.1, fun i hi => ?_⟩
      cases i with
      | zero => exact hmask hi
      | succ i => exact hx.2.2 i hi

/-- Every needed bitmap was read. -/
theorem readNeeded_gives (entries : List (Option CatalogEntry)) :
    (readNeeded absent id needed index entries).Gives fun x => x.length = entries.length ∧
      ∀ t < x.length, needed.testBit (index + t) = true → (x.getD t none).isSome := by
  induction entries generalizing index with
  | nil => exact Obs.Gives.pure ⟨rfl, fun t ht => absurd ht (Nat.not_lt_zero t)⟩
  | cons entry entries ih =>
    have hrest : ∀ {view : Option Bitmap} {views : List (Option Bitmap)},
        (needed.testBit index = true → view.isSome) → (views.length = entries.length ∧
          ∀ t < views.length, needed.testBit (index + 1 + t) = true → (views.getD t none).isSome) →
        (view :: views).length = (entry :: entries).length ∧ ∀ t < (view :: views).length,
          needed.testBit (index + t) = true → ((view :: views).getD t none).isSome := by
      rintro view views hview ⟨hlength, hviews⟩
      refine ⟨congrArg Nat.succ hlength, fun t ht hbit => ?_⟩
      cases t with
      | zero => exact hview hbit
      | succ t => exact hviews t (Nat.lt_of_succ_lt_succ ht) (by rwa [Nat.add_right_comm])
    unfold readNeeded
    split_ifs with hbit
    · refine Obs.Gives.any.bind fun e _ => Obs.Gives.any.bind fun x _ => ?_
      exact ih.bind fun views hviews => Obs.Gives.pure (hrest (fun _ => rfl) hviews)
    · exact ih.bind fun views hviews => Obs.Gives.pure (hrest (fun h => absurd h hbit) hviews)

/-- With an entry for every needed term, the error for a missing one is never met. -/
theorem readNeeded_congr {entries : List (Option CatalogEntry)}
    (h : ∀ t, needed.testBit (index + t) = true → t < entries.length →
      (entries.getD t none).isSome) :
    readNeeded absent id needed index entries = readNeeded absent' id needed index entries := by
  induction entries generalizing index with
  | nil => rfl
  | cons entry entries ih =>
    have hrest := ih fun t hbit ht =>
      h (t + 1) (by rwa [← Nat.add_assoc, Nat.add_right_comm]) (Nat.succ_lt_succ ht)
    rw [readNeeded, readNeeded, hrest]
    by_cases hbit : needed.testBit index = true
    · obtain ⟨e, rfl⟩ := Option.isSome_iff_exists.1 (h 0 hbit (Nat.succ_pos _))
      rfl
    · rw [if_neg hbit, if_neg hbit]

end

/-- The group is scanned without ever meeting an absent entry or an absent bitmap: what these
errors are makes no difference. -/
theorem scanGroup_unreachable (absent : Absent) :
    scanGroupWith absent = scanGroup := by
  funext snapshot nodes base terms groups scratch
  rw [scanGroup, scanGroupWith, scanGroupWith]
  refine bind_congr fun x => ?_
  obtain ⟨found, groups'⟩ := x
  dsimp only
  refine Obs.Gives.bind_congr (P := fun e => e.key = (0, base))
    (Obs.Gives.ofExcept fun e he => ?_) fun liveEntry hkey => ?_
  · cases hfound : found.filter fun e => e.key = (0, base) with
    | none =>
      rw [hfound] at he
      cases he
    | some e' =>
      rw [hfound] at he
      cases he
      exact of_decide_eq_true (Option.filter_eq_some_iff.1 hfound).2
  refine Obs.Gives.bind_congr (Obs.Gives.ofExcept fun _ h => h) fun liveValue hlive => ?_
  obtain ⟨hstored, hbound⟩ := Value.read_live hlive (congrArg Prod.fst hkey)
  refine Obs.Gives.bind_congr (termEntries_gives terms) fun x hentries => ?_
  obtain ⟨entries, masks, terms'⟩ := x
  obtain ⟨hlength, hmasks, hsome⟩ := hentries
  dsimp only at hlength hmasks hsome ⊢
  refine Obs.Gives.bind_congr (Obs.Gives.ofExcept fun _ h => h) fun x hneeded => ?_
  obtain ⟨⟨pages, needed⟩, scratch'⟩ := x
  dsimp only
  split_ifs with hzero
  · rfl
  have hmask := fun t => @neededTerms_mask _ _ _ _ _ _ _ hbound hneeded t
  refine Obs.Gives.bind_congr readBitmap_gives fun x hview => ?_
  obtain ⟨value, bytes, live⟩ := x
  have hpages : live.mask = liveValue.pages := by
    obtain ⟨hvalue, hmask⟩ := hview
    cases hlive.symm.trans hvalue
    exact hmask hstored
  dsimp only
  rw [readNeeded_congr fun t hbit ht => hsome t (hmask t (by rwa [Nat.zero_add] at hbit)).2]
  refine Obs.Gives.bind_congr (readNeeded_gives entries) fun parsed hparsed => ?_
  refine bind_congr fun l => bind_congr fun key => ?_
  have heval := @evaluateSource_congr (loadedSource .invalid key live masks parsed) _ _ _ _ _ _ _
    scratch' hbound hneeded hpages rfl
    (loadedSource absent key live masks parsed).termOffsets ?_
  · exact congrArg (fun x => Obs.ofExcept x >>= _) heval
  · intro t page hbit
    -- the bitmap of a needed term was read
    have hlt : t < parsed.length := by
      rw [hparsed.1, hlength, ← hmasks]
      exact (hmask t hbit).1
    obtain ⟨view, hview⟩ := Option.isSome_iff_exists.1
      (hparsed.2 t hlt (by rwa [Nat.zero_add]))
    rw [loadedSource, loadedSource]
    dsimp only
    rw [hview]

/-- No turn of the loop meets an absent entry or an absent bitmap. -/
theorem scanSnapshot_unreachable (absent : Absent) :
    scanSnapshotWith absent = scanSnapshot := by
  have hloop : ∀ fuel, ∀ snapshot program target terms groups scratch out count,
      scanGroupsWith absent snapshot program fuel target terms groups scratch out count =
        scanGroupsWith .invalid snapshot program fuel target terms groups scratch out count := by
    intro fuel
    induction fuel with
    | zero =>
      intros
      rfl
    | succ fuel ih =>
      intro snapshot program target terms groups scratch out count
      rw [scanGroupsWith, scanGroupsWith, scanGroup_unreachable absent]
      refine bind_congr fun x => ?_
      obtain ⟨next, terms', groups'⟩ := x
      cases next with
      | none => rfl
      | some base =>
        dsimp only
        refine bind_congr fun x => ?_
        obtain ⟨pages, emitted, terms'', groups'', scratch'⟩ := x
        dsimp only
        refine bind_congr fun _ => bind_congr fun moved => ?_
        rw [ih]
  funext snapshot program terms scratch
  exact hloop _ _ _ _ _ _ _ _ _

/-- For a valid program the pass over the masks finds the terms that the walks of the candidate
pages reach.  Each of them has a page, an evaluation over the same masks decodes no other term, and
so a scan meets neither a term without an entry nor a bitmap that was not read: what the errors for
these are changes neither the scan of a group nor that of the snapshot. -/
theorem neededTerms_exact {program : List Node} {live : ℕ} {terms : List ℕ}
    (hlive : live < 2 ^ 256) (hvalid : validateProgram terms.length program = .ok ⟨⟩)
    (scratch : QueryScratch) :
    (∃ root needed scratch', neededTerms program live terms scratch = .ok
      ((root, needed), scratch') ∧
      root = scratch'.pages (program.length - 1) ∧
      (∀ t, needed.testBit t = true ↔ ∃ page ∈ pagesOf root, ∃ i,
        program[i]? = some (.term t) ∧
          (dependencies program scratch'.pages page).testBit i = true ∧
          (scratch'.pages i).testBit page = true) ∧
      (∀ t, needed.testBit t = true → t < terms.length ∧ terms.getD t 0 ≠ 0) ∧
      ∀ (src : Source) (termOffsets : ℕ → ℕ → Except Error (ℕ × ℕ)) (scratch'' : QueryScratch),
        src.livePages = live → (src.termPages = fun t => terms.getD t 0) →
        (∀ t page, needed.testBit t = true → termOffsets t page = src.termOffsets t page) →
        evaluateSource (src.withTerms termOffsets) program scratch'' =
          evaluateSource src program scratch'') ∧
      ∀ absent, scanGroupWith absent = scanGroup ∧ scanSnapshotWith absent = scanSnapshot := by
  refine ⟨?_, fun absent => ⟨scanGroup_unreachable absent, scanSnapshot_unreachable absent⟩⟩
  have hrun : ∃ x, neededTerms program live terms scratch = .ok x := by
    rw [neededTerms, hvalid]
    exact ⟨_, rfl⟩
  obtain ⟨⟨⟨root, needed⟩, scratch'⟩, hrun⟩ := hrun
  obtain ⟨-, -, hroot, hiff⟩ := neededTerms_iff hlive hrun
  refine ⟨root, needed, scratch', hrun, hroot, hiff, fun t ht => neededTerms_mask hlive hrun ht, ?_⟩
  intro src termOffsets scratch'' hpages htermPages hsame
  exact evaluateSource_congr hlive hrun hpages htermPages hsame

theorem neededTerms_exact_intersection :
    ∃ root needed scratch', neededTerms [.term 0, .term 1, .and 0 1] 3 [1, 3] ⟨0, 0⟩ =
        .ok ((root, needed), scratch') ∧
      ∀ t, needed.testBit t = true → t < 2 ∧ [1, 3].getD t 0 ≠ 0 := by
  obtain ⟨root, needed, scratch', hrun, -, -, hmask, -⟩ :=
    (@neededTerms_exact [.term 0, .term 1, .and 0 1] 3 [1, 3] (by decide) (by rfl) ⟨0, 0⟩).1
  exact ⟨root, needed, scratch', hrun, hmask⟩

end Grouped

end PinCore
