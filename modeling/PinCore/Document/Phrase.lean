import Mathlib.Logic.Function.Basic
import PinCore.Document.Prepare
import PinCore.Lib.Window

/-!
# Phrases in a payload

`matchPhrase` searches a window in the position lists of a phrase's terms, anchored on the rarest
one.  The lists come from the full validator (`phraseMatches`) or from a reader that only checks
the selected streams (`SelectedPositions`).
-/

namespace PinCore

open Reader

/-! ### Matching -/

/-- The first of the smallest keys: its index and the key. -/
def firstMin : List ℕ → Option (ℕ × ℕ)
  | [] => none
  | key :: keys =>
    match firstMin keys with
    | none => some (0, key)
    | some (index, least) => if least < key then some (index + 1, least) else some (0, key)

/-- The next position, or an error. -/
def PositionIter.fetch (it : PositionIter) : Except Error (Option ℕ × PositionIter) :=
  match it.next with
  | (none, it) => .ok (none, it)
  | (some (.error e), _) => .error e
  | (some (.ok p), it) => .ok (some p, it)

/-- The positions of the anchor, the cursor of each term and its lookahead. -/
structure PhraseCursors where
  first : PositionIter
  cursors : ℕ → Option PositionIter
  current : ℕ → Option ℕ

namespace PhraseCursors

/-- The next position of the first term. -/
def pull (s : PhraseCursors) : Except Error (Option ℕ × PhraseCursors) := do
  let (position, first) ← s.first.fetch
  .ok (position, { s with first := first })

/-- Moves the cursor of one term to `target`. -/
def probe (index target : ℕ) (s : PhraseCursors) : Except Error (Window.Probe × PhraseCursors) :=
  if u32Limit ≤ target then .ok (.stop, s)
  else
    match s.cursors index with
    | none => .error .invalidState
    | some cursor => do
      let (value, cursor) ← Window.lookahead .invalidState PositionIter.fetch target
        (cursor.remaining + 2) (s.current index) cursor
      let s := { s with
        cursors := Function.update s.cursors index (some cursor)
        current := Function.update s.current index value }
      .ok (if value = some target then .hit else .miss, s)

end PhraseCursors

/-- The positions of the terms hold a phrase; a term without positions holds none. -/
def matchPhrase (positions : List (Option Positions)) : Except Error Bool :=
  if positions.any Option.isNone then .ok false
  else
    match firstMin (positions.map fun view => (view.map Positions.count).getD 4294967295) with
    | none => .error .invalidState
    | some (anchor, _) =>
      match positions.getD anchor none with
      | none => .error .invalidState
      | some first =>
        Window.search .invalidState PhraseCursors.pull PhraseCursors.probe positions.length anchor
          (first.count + 1)
          ⟨first.iter, fun index => (positions.getD index none).map Positions.iter, fun _ => none⟩

/-- Stores the view at every index whose name is the term. -/
def assign (names : List Text) (positions : List (Option Positions)) (term : Text)
    (view : Positions) : List (Option Positions) :=
  names.zipWith (fun name old => if name = term then some view else old) positions

/-- Proves one bounded phrase against the stored payload. -/
def phraseMatches (bytes : List UInt8) (expectedTokens expectedTerms : ℕ) (phrase : List Text)
    (memoryBytes : ℕ) : Except Error Bool :=
  if phrase = [] ∨ 64 < phrase.length then .error (.limit "phrase terms")
  else do
    let ((tokens, terms), positions) ← Document.validateInner bytes memoryBytes
      (fun positions term view => .ok (assign phrase positions term view))
      (phrase.map fun _ => none)
    if tokens ≠ expectedTokens ∨ terms ≠ expectedTerms then .error .invalidDocument
    else matchPhrase positions

/-! ### Selected positions -/

/-- The views of the selected terms. -/
structure SelectedPositions where
  positions : List (Option Positions)
  directoryTerms : ℕ
  selectedPositions : ℕ

namespace SelectedPositions

/-- Every position of a selected stream is below the token count. -/
def checkPositions (tokens : ℕ) : ℕ → PositionIter → Except Error Unit
  | 0, _ => .ok ()
  | n + 1, it =>
    match it.next with
    | (none, _) => .ok ()
    | (some (.error e), _) => .error e
    | (some (.ok position), it) =>
      if tokens ≤ position then .error .invalidDocument else checkPositions tokens n it

/-- The entries in order; the streams of the other terms are only counted. -/
def readFrom (tokens : ℕ) (wanted : List Text) :
    ℕ → DocumentTerms → Text → ℕ → SelectedPositions → Except Error (ℕ × SelectedPositions)
  | 0, _, _, total, result => .ok (total, result)
  | n + 1, it, previous, total, result =>
    match it.next with
    | (none, _) => .ok (total, result)
    | (some (.error e), _) => .error e
    | (some (.ok entry), it) =>
      if ¬ previous < entry.term then .error .invalidDocument
      else
        match u32 (Reader.new entry.positions) with
        | (.error e, _) => .error e
        | (.ok count, encoded) =>
          if count = 0 ∨ tokens < count ∨ encoded.remaining < count then .error .invalidDocument
          else if u32Limit ≤ total + count then .error .invalidDocument
          else if entry.term ∉ wanted then
            readFrom tokens wanted n it entry.term (total + count) result
          else do
            let view ← entry.positionStream
            checkPositions tokens view.count view.iter
            if u32Limit ≤ result.selectedPositions + count then .error .invalidDocument
            else
              readFrom tokens wanted n it entry.term (total + count) { result with
                positions := assign wanted result.positions entry.term view
                selectedPositions := result.selectedPositions + count }

/-- Validates the directory and the selected streams, without a document-sized bitset. -/
def read (bytes : List UInt8) (expectedTokens expectedTerms : ℕ) (wanted : List Text) :
    Except Error SelectedPositions :=
  if wanted = [] ∨ 64 < wanted.length ∨ maxDocumentBytes < bytes.length then
    .error (.limit "selected positions")
  else
    match Document.header (Reader.new bytes) with
    | (.error e, _) => .error e
    | (.ok (tokens, terms), reader) =>
      if tokens ≠ expectedTokens ∨ terms ≠ expectedTerms ∨ maxDocumentTokens < tokens ∨
          tokens < terms then .error .invalidDocument
      else do
        if terms = 0 then reader.finish else .ok ()
        let (total, result) ← readFrom tokens wanted terms ⟨reader, terms⟩ [] 0
          ⟨wanted.map fun _ => none, terms, 0⟩
        if total ≠ tokens then .error .invalidDocument else .ok result

/-- The selected terms stand in a row. -/
def phraseMatches (s : SelectedPositions) : Except Error Bool := matchPhrase s.positions

end SelectedPositions

/-! ### The matcher finds the phrase -/

theorem firstMin_lt {keys : List ℕ} {index least : ℕ} (h : firstMin keys = some (index, least)) :
    index < keys.length := by
  induction keys generalizing index least with
  | nil => cases h
  | cons key keys ih =>
    rw [firstMin] at h
    rcases hf : firstMin keys with _ | ⟨i, m⟩
    · rw [hf] at h
      cases h
      exact Nat.zero_lt_succ _
    · rw [hf] at h
      have := ih hf
      rw [List.length_cons]
      simp only at h
      split_ifs at h
      all_goals cases h
      all_goals omega

theorem firstMin_ne_none {keys : List ℕ} (h : keys ≠ []) : firstMin keys ≠ none := by
  cases keys with
  | nil => exact absurd rfl h
  | cons key keys =>
    rw [firstMin]
    rcases firstMin keys with _ | ⟨i, m⟩
    · nofun
    · simp only
      split_ifs <;> nofun

namespace PositionIter

variable {it : PositionIter} {ps : List ℕ} {target fuel : ℕ} {current : Option ℕ}

theorem Lists.remaining (h : it.Lists ps) : it.remaining = ps.length := by
  induction ps generalizing it with
  | nil => exact h
  | cons p ps ih =>
    obtain ⟨it', hnext, hl⟩ := h
    obtain ⟨hr, -, hit, -⟩ := of_next hnext
    have hrem : it'.remaining = it.remaining - 1 := by rw [hit]
    have := ih hl
    rw [List.length_cons]
    omega

theorem fetch_fetches (h : it.Lists ps) :
    Window.Fetches (fun _ => False) Lists (fun it => it.Lists []) target it.fetch ps := by
  cases ps with
  | nil =>
    have hnext : it.next = (none, it) := if_pos h
    refine .inr (.inl ⟨fun _ h => absurd h List.not_mem_nil, it, ?_, h⟩)
    rw [fetch, hnext]
  | cons p ps =>
    obtain ⟨it', hnext, hl⟩ := h
    refine .inr (.inr ⟨[], p, ps, it', rfl, fun _ h => absurd h List.not_mem_nil, ?_, hl⟩)
    rw [fetch, hnext]

end PositionIter

namespace PhraseCursors

variable {n anchor : ℕ} {A : List ℕ} {R : ℕ → List ℕ} {s : PhraseCursors}

/-- The cursors stand before `A` and the lists `R`. -/
structure At (n : ℕ) (s : PhraseCursors) (A : List ℕ) (R : ℕ → List ℕ) : Prop where
  first : s.first.Lists A
  cursor : ∀ i < n, ∃ it ps, s.cursors i = some it ∧ it.Lists ps ∧ R i = (s.current i).toList ++ ps
  sorted : ∀ i < n, (R i).Pairwise (· < ·)
  lt : ∀ i < n, ∀ u ∈ R i, u < u32Limit

theorem At.pull (h : At n s A R) : (A = [] ∧ ∃ s', pull s = .ok (none, s')) ∨
    ∃ p A' s', A = p :: A' ∧ pull s = .ok (some p, s') ∧ At n s' A' R := by
  cases A with
  | nil =>
    have hnext : s.first.next = (none, s.first) := if_pos h.first
    refine .inl ⟨rfl, s, ?_⟩
    rw [PhraseCursors.pull, PositionIter.fetch, hnext]
    rfl
  | cons p A =>
    obtain ⟨it, hnext, hl⟩ := h.first
    refine .inr ⟨p, A, { s with first := it }, rfl, ?_, ⟨hl, h.cursor, h.sorted, h.lt⟩⟩
    rw [PhraseCursors.pull, PositionIter.fetch, hnext]
    rfl

/-- A cursor moved to its new place. -/
theorem At.update {index : ℕ} {cursor : PositionIter} (passed : List ℕ) (value : Option ℕ)
    (ps : List ℕ) (h : At n s A R) (hi : index < n)
    (hR : R index = passed ++ (value.toList ++ ps)) (hl : cursor.Lists ps) :
    At n { s with
        cursors := Function.update s.cursors index (some cursor)
        current := Function.update s.current index value } A
      (Function.update R index (value.toList ++ ps)) where
  first := h.first
  cursor i hlt := by
    by_cases hii : i = index
    · subst hii
      exact ⟨cursor, ps, by simp, hl, by simp⟩
    · obtain ⟨it, qs, h₁, h₂, h₃⟩ := h.cursor i hlt
      exact ⟨it, qs, by simp [hii, h₁], h₂, by simp [hii, h₃]⟩
  sorted i hlt := by
    by_cases hii : i = index
    · subst hii
      have := h.sorted i hlt
      rw [hR] at this
      simpa using (List.pairwise_append.1 this).2.1
    · simpa [hii] using h.sorted i hlt
  lt i hlt u hu := by
    by_cases hii : i = index
    · subst hii
      rw [Function.update_self] at hu
      exact h.lt i hlt u (by rw [hR]; exact List.mem_append_right _ hu)
    · exact h.lt i hlt u (by simpa [hii] using hu)

/-- A cursor passes just the positions below the target. -/
theorem At.probe {start index : ℕ} (h : At n s A R) (hi : index < n) :
    Window.Probes (fun _ => False) (At n) start index A R
      (PhraseCursors.probe index (start + index) s) := by
  unfold PhraseCursors.probe
  split_ifs with hlimit
  · exact .inr (.inl ⟨s, rfl, fun u hu => Nat.lt_of_lt_of_le (h.lt index hi u hu) hlimit⟩)
  obtain ⟨cursor, ps, hc, hl, hR⟩ := h.cursor index hi
  have hfuel : (s.current index).toList.length + ps.length < cursor.remaining + 2 := by
    have hone : (s.current index).toList.length ≤ 1 := by cases s.current index <;> simp
    have := hl.remaining
    omega
  obtain ⟨hf, hle⟩ := Window.lookahead_spec Error.invalidState (start + index)
    (fun _ _ => PositionIter.fetch_fetches) hl hfuel
  rw [← hR] at hf
  rw [hc]
  simp only
  rcases hf with ⟨e, he, -⟩ | ⟨hall, cursor', hx, hl'⟩
    | ⟨passed, v, rest, cursor', hsplit, hp, hx, hl'⟩
  · exact he.elim
  · -- nothing is left of the list
    rw [hx]
    refine .inr (.inr ⟨.miss, _, _, rfl,
      h.update (R index) none [] hi (by simp) hl', ?_,
      .inr ⟨rfl, fun hm => absurd (hall _ hm) (Nat.lt_irrefl _)⟩⟩)
    intro i u hu
    by_cases hii : i = index
    · subst hii
      simp only [Function.update_self, Option.toList_none, List.append_nil, List.not_mem_nil,
        false_iff]
      exact fun hm => absurd (hall u hm) (Nat.not_lt.2 hu)
    · simp [hii]
  · have hge := hle v cursor' hx
    rw [hx]
    have hsorted := h.sorted index hi
    rw [hsplit] at hsorted
    have hafter := (List.pairwise_cons.1 (List.pairwise_append.1 hsorted).2.1).1
    refine .inr (.inr ⟨_, _, _, rfl,
      h.update passed (some v) rest hi hsplit hl', ?_, ?_⟩)
    · intro i u hu
      by_cases hii : i = index
      · subst hii
        rw [Function.update_self, hsplit]
        refine ⟨fun hm => List.mem_append_right _ hm, fun hm => ?_⟩
        rcases List.mem_append.1 hm with hm | hm
        · exact absurd (hp u hm) (Nat.not_lt.2 hu)
        · exact hm
      · simp [hii]
    · by_cases hv : v = start + index
      · refine .inl ⟨by rw [if_pos (congrArg some hv)], ?_⟩
        rw [hsplit, ← hv]
        exact List.mem_append_right _ List.mem_cons_self
      · refine .inr ⟨if_neg fun h => hv (Option.some.inj h), fun hm => ?_⟩
        rw [hsplit] at hm
        rcases List.mem_append.1 hm with hm | hm
        · exact absurd (hp _ hm) (Nat.lt_irrefl _)
        · rcases List.mem_cons.1 hm with hm | hm
          · exact hv hm.symm
          · have := hafter _ hm
            omega

end PhraseCursors

/-- The matcher finds a start at which every list has the position of its index. -/
theorem matchPhrase_spec {views : List Positions} {L : ℕ → List ℕ} (hne : views ≠ [])
    (hl : ∀ i v, views[i]? = some v → v.iter.Lists (L i) ∧ (L i).Pairwise (· < ·) ∧
      ∀ u ∈ L i, u < u32Limit) :
    ∃ b, matchPhrase (views.map some) = .ok b ∧
      (b = true ↔ ∃ start, ∀ i < views.length, start + i ∈ L i) := by
  have hsome : (views.map some).any Option.isNone = false := by simp
  have hkeys : ((views.map some).map fun view =>
      (view.map Positions.count).getD 4294967295) ≠ [] := by simpa using hne
  obtain ⟨⟨anchor, least⟩, hmin⟩ := Option.ne_none_iff_exists'.1 (firstMin_ne_none hkeys)
  have hanchor : anchor < views.length := by simpa using firstMin_lt hmin
  have hget : ∀ i (hi : i < views.length), (views.map some).getD i none = some views[i] := by
    intro i hi
    rw [List.getD_eq_getElem?_getD, List.getElem?_map, List.getElem?_eq_getElem hi]
    rfl
  obtain ⟨hfirst, hsorted, hlt⟩ := hl anchor _ (List.getElem?_eq_getElem hanchor)
  have hat : PhraseCursors.At views.length ⟨views[anchor].iter,
      fun i => ((views.map some).getD i none).map Positions.iter, fun _ => none⟩ (L anchor) L := by
    refine ⟨hfirst, fun i hi => ?_, fun i hi => (hl i _ (List.getElem?_eq_getElem hi)).2.1,
      fun i hi => (hl i _ (List.getElem?_eq_getElem hi)).2.2⟩
    refine ⟨views[i].iter, L i, ?_, (hl i _ (List.getElem?_eq_getElem hi)).1, rfl⟩
    simp only [hget i hi, Option.map_some]
  have hcount : (L anchor).length < views[anchor].count + 1 :=
    Nat.lt_succ_of_le (Nat.le_of_eq hfirst.remaining.symm)
  rcases Window.search_spec Error.invalidState anchor u32Limit (fun _ _ _ h => .inr h.pull)
    (fun _ _ _ hi _ _ _ _ h => h.probe hi) hat hsorted hlt hcount with
    ⟨e, he, -⟩ | ⟨b, hb, hiff⟩
  · exact he.elim
  refine ⟨b, ?_, hiff.trans (Window.exists_hit_iff hanchor)⟩
  rw [matchPhrase, hsome, hmin]
  simp only [Bool.false_eq_true, if_false, hget anchor hanchor, List.length_map]
  exact hb

/-! ### The views of the terms -/

section

variable {names : List Text} {f : Text → Option Positions} {recs : List TermPositions}
  {x : TermPositions} {name term : Text} {view : Positions} {tokens terms seen n : ℕ}
  {previous : Text} {it : DocumentTerms} {d : Document}

/-- The view that the entries store for a name. -/
def viewIn (name : Text) (old : Option Positions) (recs : List TermPositions) : Option Positions :=
  recs.foldl (fun old x => if name = x.1 then some x.stream else old) old

theorem assign_map : assign names (names.map f) term view =
    names.map fun name => if name = term then some view else f name := by
  unfold assign
  induction names with
  | nil => rfl
  | cons name names ih => rw [List.map_cons, List.zipWith_cons_cons, ih, List.map_cons]

theorem onTerms_assign : onTerms (fun positions term view => .ok (assign names positions term view))
    (names.map f) recs = .ok (names.map fun name => viewIn name (f name) recs) := by
  induction recs generalizing f with
  | nil => rfl
  | cons x recs ih =>
    have hstep : onTerms (fun positions term view => .ok (assign names positions term view))
        (names.map f) (x :: recs) =
          onTerms (fun positions term view => .ok (assign names positions term view))
            (assign names (names.map f) x.1 x.stream) recs := rfl
    rw [hstep, assign_map, ih]
    rfl

theorem viewIn_of_notMem {old : Option Positions} (h : name ∉ recs.map Prod.fst) :
    viewIn name old recs = old := by
  induction recs generalizing old with
  | nil => rfl
  | cons x recs ih =>
    obtain ⟨hx, hrecs⟩ := not_or.1 (fun h' => h (List.mem_cons.2 h'))
    have hne : name ≠ x.1 := hx
    exact (congrArg (viewIn name · recs) (if_neg hne)).trans (ih hrecs)

theorem viewIn_of_mem {old : Option Positions} (hs : (recs.map Prod.fst).Pairwise (· < ·))
    (hx : x ∈ recs) : viewIn x.1 old recs = some x.stream := by
  induction recs generalizing old with
  | nil => exact absurd hx List.not_mem_nil
  | cons y recs ih =>
    obtain ⟨hy, hs⟩ := List.pairwise_cons.1 hs
    rcases List.mem_cons.1 hx with rfl | hx
    · have hnot : x.1 ∉ recs.map Prod.fst := fun h => List.lt_irrefl _ (hy _ h)
      exact (congrArg (viewIn x.1 · recs) (if_pos rfl)).trans (viewIn_of_notMem hnot)
    · exact ih hs hx

/-- The stored stream of an entry gives its positions back. -/
theorem Directory.stream_lists (h : Directory tokens recs)
    (hlen : (encodeDocument tokens recs).length ≤ maxDocumentBytes) (hx : x ∈ recs) :
    x.stream.iter.Lists x.2 := by
  have hrecord : (recordBytes x).length ≤ (recs.flatMap recordBytes).length := by
    rw [List.flatMap_def]
    exact (List.sublist_flatten_of_mem (List.mem_map_of_mem hx)).length_le
  have hstream := length_positionBytes_le (x := x)
  have hlimit : maxDocumentBytes < u32Limit := by decide
  rw [encodeDocument_eq, List.length_append] at hlen
  exact (parse_stream h.tokens_le (h.ascends x hx) (h.lt x hx) (by omega)).2

/-- A phrase is found where the position lists of its terms have a window. -/
theorem phraseIn_iff_positions (hne : names ≠ []) : phraseIn names d = true ↔
    ∃ start, ∀ i < names.length, start + i ∈ positionsFrom (names.getD i []) 0 d := by
  rw [phraseIn_iff hne]
  refine exists_congr fun start => forall_congr' fun i => forall_congr' fun hi => ?_
  rw [mem_positions, List.getD_eq_getElem?_getD, List.getElem?_eq_getElem hi]
  rfl

/-- A phrase with a term that does not occur is not found. -/
theorem phraseIn_of_notMem (hname : name ∈ names) (hnot : name ∉ d) : phraseIn names d = false := by
  refine Bool.eq_false_iff.2 fun h => ?_
  obtain ⟨start, hstart⟩ := (phraseIn_iff (List.ne_nil_of_mem hname)).1 h
  obtain ⟨i, hi⟩ := List.getElem?_of_mem hname
  have := hstart i (List.getElem?_eq_some_iff.1 hi).1
  rw [hi] at this
  exact hnot (List.mem_of_getElem? this)

/-- The matcher on the views of a document's terms answers as the oracle. -/
theorem matchPhrase_views (ht : ∀ t ∈ d, TermOk t) (hlen : d.length ≤ maxDocumentTokens)
    (hbytes : (payload d).length ≤ maxDocumentBytes) (hne : names ≠ []) :
    matchPhrase (names.map fun name => viewIn name none (records d)) = .ok (phraseIn names d) := by
  have hdir := records_directory ht hlen
  rw [payload_eq] at hbytes
  by_cases hall : ∀ name ∈ names, name ∈ d
  · have hviews : (names.map fun name => viewIn name none (records d)) =
        (names.map fun name => TermPositions.stream (name, positionsFrom name 0 d)).map some := by
      rw [List.map_map]
      refine List.map_congr_left fun name hname => ?_
      have hmem : (name, positionsFrom name 0 d) ∈ records d :=
        mem_records.2 ⟨hall name hname, rfl⟩
      exact viewIn_of_mem hdir.sorted hmem
    have hlists : ∀ i v,
        (names.map fun name => TermPositions.stream (name, positionsFrom name 0 d))[i]? = some v →
        v.iter.Lists (positionsFrom (names.getD i []) 0 d) ∧
          (positionsFrom (names.getD i []) 0 d).Pairwise (· < ·) ∧
          ∀ u ∈ positionsFrom (names.getD i []) 0 d, u < u32Limit := by
      intro i v hv
      rw [List.getElem?_map, Option.map_eq_some_iff] at hv
      obtain ⟨name, hname, rfl⟩ := hv
      have hget : names.getD i [] = name := by rw [List.getD_eq_getElem?_getD, hname]; rfl
      have hmem : (name, positionsFrom name 0 d) ∈ records d :=
        mem_records.2 ⟨hall name (List.mem_of_getElem? hname), rfl⟩
      rw [hget]
      refine ⟨hdir.stream_lists hbytes hmem, positionsFrom_sorted, fun u hu => ?_⟩
      have hlt := hdir.lt _ hmem u hu
      have hlimit : maxDocumentTokens < u32Limit := by decide
      omega
    obtain ⟨b, hb, hiff⟩ := matchPhrase_spec (by simpa using hne) hlists
    rw [hviews, hb]
    refine congrArg Except.ok (Bool.eq_iff_iff.2 (hiff.trans ?_))
    rw [phraseIn_iff_positions hne, List.length_map]
  · -- a term does not occur, so no window has it
    obtain ⟨name, hname, hnot⟩ : ∃ name ∈ names, name ∉ d := by simpa using hall
    have hview : viewIn name none (records d) = none := by
      refine viewIn_of_notMem fun h => hnot ?_
      rw [map_fst_records] at h
      exact mem_directory.1 h
    have hany : (names.map fun name => viewIn name none (records d)).any Option.isNone = true := by
      rw [List.any_map, List.any_eq_true]
      exact ⟨name, hname, by simp [hview]⟩
    rw [matchPhrase, if_pos hany, phraseIn_of_notMem hname hnot]

/-! ### The reader of selected positions -/

theorem checkPositions_eq {it : PositionIter} {ps : List ℕ} (h : it.Lists ps)
    (hlt : ∀ p ∈ ps, p < tokens) :
      SelectedPositions.checkPositions tokens ps.length it = .ok () := by
  induction ps generalizing it with
  | nil => rfl
  | cons p ps ih =>
    obtain ⟨it', hnext, hl⟩ := h
    rw [List.length_cons, SelectedPositions.checkPositions, hnext]
    simp only
    rw [if_neg (Nat.not_le.2 (hlt p List.mem_cons_self))]
    exact ih hl fun q hq => hlt q (List.mem_cons_of_mem _ hq)

theorem readFrom_at (total : ℕ) (result : SelectedPositions) (f : Text → Option Positions)
    (htok : tokens ≤ maxDocumentTokens)
    (hok : Follows tokens previous seen recs) (hat : it.At recs)
    (htotal : total + (recs.flatMap Prod.snd).length ≤ tokens)
    (hselected : result.selectedPositions ≤ total) (hpos : result.positions = names.map f) :
    ∃ result', SelectedPositions.readFrom tokens names recs.length it previous total result =
        .ok (total + (recs.flatMap Prod.snd).length, result') ∧
      result'.positions = names.map fun name => viewIn name (f name) recs := by
  induction recs generalizing it previous seen total result f with
  | nil => exact ⟨result, rfl, hpos⟩
  | cons x recs ih =>
    obtain ⟨⟨it', hnext, hat'⟩, hstream, hlists⟩ := hat.next htok hok
    obtain ⟨⟨hprev, -, ha, hne, hl, -⟩, hok'⟩ := Follows.cons_iff.1 hok
    have hcount := length_le_deltaBytes 0 x.2
    have htokens := length_positions_le ha hl
    have hlimit : maxDocumentTokens < u32Limit := by decide
    rw [List.flatMap_cons, List.length_append] at htotal ⊢
    have hpos' : x.2.length ≠ 0 := fun h0 => hne (List.length_eq_zero_iff.1 h0)
    have hread : u32 (Reader.new x.entry.positions) = (.ok x.2.length, ⟨deltaBytes 0 x.2, 4⟩) := by
      refine u32_past ?_ (by omega) ⟨rfl, rfl⟩
      have hbytes := length_positionBytes_le (x := x)
      have hall : (recordBytes x).length ≤ it.reader.rest.length := by
        rw [hat.rest, List.flatMap_cons, List.length_append]
        exact Nat.le_add_right _ _
      have hmax := hat.bytes_le
      exact fits_new (show (positionBytes x.2).length ≤ maxDocumentBytes by omega)
    have hterm : previous < x.entry.term := hprev
    rw [List.length_cons, SelectedPositions.readFrom, hnext]
    simp only [not_not.2 hterm, if_false, hread]
    rw [if_neg (by simp only [Reader.remaining]; omega), if_neg (by omega)]
    have hentry : x.entry.term = x.1 := rfl
    by_cases hmem : x.1 ∈ names
    · have hcheck := checkPositions_eq hlists hl
      have hcheck' : SelectedPositions.checkPositions tokens x.stream.count x.stream.iter =
          .ok () :=
        hcheck
      rw [if_neg (by rw [hentry]; exact not_not.2 hmem), hstream, ok_bind, hcheck', ok_bind,
        if_neg (by omega)]
      obtain ⟨result', hrest, hviews⟩ := ih (total + x.2.length)
        { result with
          positions := assign names result.positions x.1 x.stream
          selectedPositions := result.selectedPositions + x.2.length }
        (fun name => if name = x.1 then some x.stream else f name) hok' hat' (by omega)
        (by simp only; omega) (by simp only [hpos, assign_map])
      exact ⟨result', by rw [← Nat.add_assoc]; exact hrest, hviews⟩
    · rw [if_pos (by rw [hentry]; exact hmem)]
      obtain ⟨result', hrest, hviews⟩ := ih (total + x.2.length) result f hok' hat' (by omega)
        (by omega) hpos
      refine ⟨result', by rw [← Nat.add_assoc]; exact hrest, hviews.trans ?_⟩
      refine List.map_congr_left fun name hname => ?_
      have hne : name ≠ x.1 := by
        rintro rfl
        exact hmem hname
      exact (congrArg (viewIn name · recs) (if_neg hne)).symm

end

/-- Both phrase checks of a prepared document answer as the oracle's window. -/
theorem phrase_matches_prepared (d : Document) (phrase : List Text)
    (tokenSize retained memoryBytes scratch : ℕ) (p : Payload) (hutf : ∀ t ∈ d, utf8 t = true)
    (hp : PreparedDocument.prepare tokenSize retained d memoryBytes = .ok p)
    (hne : phrase ≠ []) (h64 : phrase.length ≤ 64) (hmem : (d.length + 63) / 64 * 8 ≤ scratch) :
    phraseMatches p.bytes p.tokens p.terms phrase scratch = .ok (phraseIn phrase d) ∧
      ∃ s, SelectedPositions.read p.bytes p.tokens p.terms phrase = .ok s ∧
        s.phraseMatches = .ok (phraseIn phrase d) := by
  obtain ⟨hterms, hlen, hbytes, rfl⟩ := PreparedDocument.of_prepare hp
  have ht : ∀ t ∈ d, TermOk t := fun t h => ⟨(hterms t h).1, (hterms t h).2, hutf t h⟩
  have hdir := records_directory ht hlen
  have hcount : (records d).length = (directory d).length := by rw [records, List.length_map]
  have hviews := matchPhrase_views ht hlen hbytes hne
  rw [payload_eq] at hbytes
  simp only [payload_eq, ← hcount]
  constructor
  · rw [phraseMatches, if_neg (not_or.2 ⟨hne, Nat.not_lt.2 h64⟩),
      validateInner_encode hdir hbytes hmem onTerms_assign, ok_bind]
    simp only [ne_eq, not_true_eq_false, or_self, if_false]
    exact hviews
  · have htok := hdir.tokens_le
    have hle := hdir.terms_le
    obtain ⟨result, hread, hpos⟩ := readFrom_at 0
      ⟨phrase.map fun _ => none, (records d).length, 0⟩ (fun _ => none) htok hdir.follows
      (at_directory hbytes) (by rw [hdir.length, Nat.zero_add]) (Nat.le_refl 0) rfl
    rw [hdir.length, Nat.zero_add] at hread
    refine ⟨result, ?_, by rw [SelectedPositions.phraseMatches, hpos]; exact hviews⟩
    rw [SelectedPositions.read, if_neg (by
      rw [not_or, not_or]
      exact ⟨hne, Nat.not_lt.2 h64, Nat.not_lt.2 hbytes⟩), hdir.header hbytes]
    simp only
    rw [if_neg (by omega)]
    by_cases h0 : (records d).length = 0
    · have hnil : records d = [] := List.length_eq_zero_iff.1 h0
      have hfin : (⟨(records d).flatMap recordBytes, 16⟩ : Reader).finish = .ok () :=
        Positions.finish_iff.2 (by rw [hnil]; rfl)
      rw [if_pos h0, hfin, ok_bind, hread, ok_bind]
      simp only [ne_eq, not_true_eq_false, if_false]
    · rw [if_neg h0, ok_bind, hread, ok_bind]
      simp only [ne_eq, not_true_eq_false, if_false]

set_option maxRecDepth 10000 in
theorem phrase_matches_bab :
    phraseMatches (payload babDocument) 3 2 [[98], [97], [98]] 64 =
        .ok (phraseIn [[98], [97], [98]] babDocument) ∧
      ∃ s, SelectedPositions.read (payload babDocument) 3 2 [[98], [97], [98]] = .ok s ∧
        s.phraseMatches = .ok (phraseIn [[98], [97], [98]] babDocument) :=
  phrase_matches_prepared babDocument [[98], [97], [98]] 24 0 4096 64 ⟨payload babDocument, 3, 2⟩
    (by decide)
    (PreparedDocument.prepare_eq (by decide) (by decide) (by decide +kernel) (by decide +kernel))
    (by decide) (by decide) (by decide)

end PinCore
