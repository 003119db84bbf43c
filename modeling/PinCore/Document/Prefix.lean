import Mathlib.Algebra.Order.BigOperators.Group.Finset
import PinCore.Document.Phrase

/-!
# Phrases in the first bytes of a payload

`prefixMatches` decides a phrase from the bytes that happen to be there.  A cut directory or
stream, or too much work on a cut stream, means that the answer is not known; it is never an error
or a wrong answer.
-/

namespace PinCore

open Reader

/-! ### Streams -/

/-- The encoded positions of one term, as far as they are there. -/
structure PhraseStream where
  reader : Reader
  remaining : ℕ
  previous : ℕ
  first : Bool
  tokens : ℕ
  complete : Bool
  deriving DecidableEq, Repr

/-- The limit on the deltas that are read from a cut payload. -/
def prefixWork : Error := .limit "prefix position work"

namespace PhraseStream

/-- After the last position of a complete stream nothing may follow. -/
def checkEnd (s : PhraseStream) : Except Error Unit :=
  if s.remaining = 0 ∧ s.complete = true then s.reader.finish else .ok ()

/-- The next position of the stream. -/
def next (s : PhraseStream) : Except Error (Option ℕ × PhraseStream) :=
  if s.remaining = 0 then .ok (none, s)
  else
    match varU32 s.reader with
    | (.error e, _) => .error e
    | (.ok delta, reader) =>
      if s.first = false ∧ delta = 0 then .error .invalidDocument
      else if u32Limit ≤ s.previous + delta then .error .invalidDocument
      else if s.tokens ≤ s.previous + delta then .error .invalidDocument
      else do
        let s := { s with
          reader := reader
          previous := s.previous + delta
          first := false
          remaining := s.remaining - 1 }
        s.checkEnd
        .ok (some s.previous, s)

/-- One position for one unit of work. -/
def advance (s : PhraseStream × ℕ) : Except Error (Option ℕ × PhraseStream × ℕ) :=
  if s.2 = 0 then .error prefixWork
  else do
    let (value, stream) ← s.1.next
    .ok (value, stream, s.2 - 1)

/-- Skips a run of 32 adjacent positions below the target, if the next bytes are one. -/
def skip (target : ℕ) (s : PhraseStream × ℕ) : Except Error (Option (PhraseStream × ℕ)) :=
  let (stream, work) := s
  if stream.first = false ∧ 32 ≤ stream.remaining ∧ 32 ≤ work ∧ stream.previous + 32 < u32Limit ∧
      stream.previous + 32 < target ∧ 32 ≤ stream.reader.remaining then
    match take 32 stream.reader with
    | (.error e, _) => .error e
    | (.ok run, probe) =>
      if run = List.replicate 32 1 then
        if stream.tokens ≤ stream.previous + 32 then .error .invalidDocument
        else do
          let stream := { stream with
            reader := probe
            previous := stream.previous + 32
            remaining := stream.remaining - 32 }
          stream.checkEnd
          .ok (some (stream, work - 32))
      else .ok none
  else .ok none

/-- The first position that is not below the target. -/
def seekGe (target : ℕ) : ℕ → PhraseStream × ℕ → Except Error (Option ℕ × PhraseStream × ℕ)
  | 0, _ => .error .invalidState
  | fuel + 1, s => do
    match ← skip target s with
    | some s => seekGe target fuel s
    | none => do
      let (value, s) ← advance s
      match value with
      | none => .ok (none, s)
      | some v => if target ≤ v then .ok (some v, s) else seekGe target fuel s

end PhraseStream

/-! ### The witness search -/

/-- The streams of the terms, their lookaheads and the work that is left. -/
structure PrefixCursors where
  streams : ℕ → Option PhraseStream
  current : ℕ → Option ℕ
  work : ℕ

namespace PrefixCursors

/-- The next position of the anchor. -/
def pull (anchor : ℕ) (s : PrefixCursors) : Except Error (Option ℕ × PrefixCursors) :=
  match s.streams anchor with
  | none => .error .invalidState
  | some stream => do
    let (position, stream, work) ← PhraseStream.advance (stream, s.work)
    .ok (position, { s with
      streams := Function.update s.streams anchor (some stream)
      work := work })

/-- Moves the stream of one term to `target`; an exhausted stream ends the search. -/
def probe (index target : ℕ) (s : PrefixCursors) : Except Error (Window.Probe × PrefixCursors) :=
  if u32Limit ≤ target then .error .invalidDocument
  else
    match s.streams index with
    | none => .error .invalidState
    | some stream => do
      let (value, stream, work) ← Window.lookahead .invalidState
        (fun s => PhraseStream.seekGe target (s.1.remaining + 1) s) target (stream.remaining + 2)
        (s.current index) (stream, s.work)
      let s := {
        streams := Function.update s.streams index (some stream)
        current := Function.update s.current index value
        work := work }
      match value with
      | none => .ok (.stop, s)
      | some v => .ok (if v = target then .hit else .miss, s)

/-- Searches the phrase in the streams of its `n` terms. -/
def witness (n : ℕ) (streams : ℕ → Option PhraseStream) (work : ℕ) : Except Error Bool :=
  let keys := (List.range n).map fun index =>
    ((streams index).map PhraseStream.remaining).getD 4294967295
  match firstMin keys with
  | none => .error .invalidState
  | some (anchor, _) =>
    match streams anchor with
    | none => .error .invalidState
    | some first =>
      Window.search .invalidState (pull anchor) probe n anchor (first.remaining + 1)
        ⟨streams, fun _ => none, work⟩

end PrefixCursors

/-! ### The directory -/

namespace PhrasePrefix

/-- The header, which names the expected counts. -/
def header (tokens terms : ℕ) : Parse Unit := do
  let magic ← take 4
  Read.ensure (magic = documentMagic) .invalidProfile
  let profile ← u32
  Read.ensure (profile = profileId) .invalidProfile
  let storedTokens ← u32
  Read.ensure (storedTokens = tokens) .invalidDocument
  let storedTerms ← u32
  Read.ensure (storedTerms = terms) .invalidDocument

/-- One directory entry at `offset`: its term, where its positions start and end, and their
number. -/
def entry (total tokens offset : ℕ) (previous : Text) : Parse (Text × ℕ × ℕ × ℕ) := do
  let len ← u16
  Read.ensure (len ≠ 0 ∧ len ≤ maxTermBytes) .invalidDocument
  let reserved ← u16
  Read.ensure (reserved = 0) .invalidDocument
  let size ← u32
  let term ← take len
  Read.ensure (utf8 term = true) .invalidDocument
  Read.ensure (previous < term ∧ 4 ≤ size) .invalidDocument
  let read ← position
  let start := offset + read
  Read.ensure (start < usizeLimit ∧ start + size < usizeLimit) .invalidDocument
  Read.ensure (start + size ≤ total) .invalidDocument
  let count ← u32
  Read.ensure (count ≠ 0 ∧ count ≤ tokens ∧ count ≤ size - 4) .invalidDocument
  return (term, start, start + size, count)

/-- The deltas of an entry, as far as they are there. -/
def streamOf (bytes : List UInt8) (tokens start stop count : ℕ) : PhraseStream where
  reader := Reader.new ((bytes.take (min stop bytes.length)).drop (start + 4))
  remaining := count
  previous := 0
  first := true
  tokens := tokens
  complete := decide (stop ≤ bytes.length)

/-- Stores the stream at every index whose name is the term. -/
def openStreams (wanted : List Text) (term : Text) (stream : PhraseStream)
    (streams : ℕ → Option PhraseStream) : ℕ → Option PhraseStream := fun index =>
  if wanted[index]? = some term then some stream else streams index

/-- Every term has its stream. -/
def allOpen (n : ℕ) (streams : ℕ → Option PhraseStream) : Bool :=
  (List.range n).all fun index => (streams index).isSome

/-- Every stream has met the end of its term. -/
def allComplete (n : ℕ) (streams : ℕ → Option PhraseStream) : Bool :=
  (List.range n).all fun index => (streams index).any PhraseStream.complete

/-- The entries in order, until every wanted term has its stream. -/
def entries (bytes : List UInt8) (total tokens : ℕ) (wanted : List Text) :
    ℕ → ℕ → Text → ℕ → (ℕ → Option PhraseStream) → Except Error Bool
  | 0, offset, _, frequency, _ =>
    if offset ≠ total ∨ frequency ≠ tokens then .error .invalidDocument else .ok false
  | terms + 1, offset, previous, frequency, streams =>
    if bytes.length < offset then .error (.codecAt offset .truncated)
    else
      match entry total tokens offset previous (Reader.new (bytes.drop offset)) with
      | (.error e, _) => .error e
      | (.ok (term, start, stop, count), _) =>
        if u32Limit ≤ frequency + count ∨ tokens < frequency + count then .error .invalidDocument
        else
          let streams := openStreams wanted term (streamOf bytes tokens start stop count) streams
          if allOpen wanted.length streams then
            PrefixCursors.witness wanted.length streams
              (if allComplete wanted.length streams then usizeLimit - 1 else 256)
          else entries bytes total tokens wanted terms stop term (frequency + count) streams

/-- Searches the payload for the phrase, whose last term may be a beginning. -/
def evaluate (bytes : List UInt8) (total tokens terms : ℕ) (wanted : List Text) :
    Except Error Bool :=
  match header tokens terms (Reader.new bytes) with
  | (.error e, _) => .error e
  | (.ok _, reader) => entries bytes total tokens wanted terms reader.offset [] 0 fun _ => none

end PhrasePrefix

/-- Decides a phrase from the first bytes of a payload; `none` when they do not decide it. -/
def prefixMatches (bytes : List UInt8) (total tokens terms : ℕ) (wanted : List Text) :
    Except Error (Option Bool) :=
  if wanted = [] ∨ 64 < wanted.length ∨ maxDocumentBytes < total ∨ total < bytes.length ∨
      maxDocumentTokens < tokens ∨ tokens < terms then .error .invalidDocument
  else
    match PhrasePrefix.evaluate bytes total tokens terms wanted with
    | .error (.codecAt offset kind) =>
      if kind = .truncated ∧ bytes.length < total then .ok none
      else .error (.codecAt offset kind)
    | .error e => if e = prefixWork ∧ bytes.length < total then .ok none else .error e
    | .ok b => .ok (some b)

/-! ### What a stream still has -/

section

variable {cut : Prop} {s : PhraseStream} {ps : List ℕ} {p target work slack fuel : ℕ}

/-- The stream has the positions `ps`; unless the payload is cut, their encoding is complete. -/
structure PhraseStream.At (cut : Prop) (s : PhraseStream) (ps : List ℕ) : Prop where
  remaining : s.remaining = ps.length
  ascends : Ascends s.first s.previous ps
  lt : ∀ p ∈ ps, p < s.tokens
  rest : s.reader.rest <+: deltaBytes s.previous ps
  complete : s.complete = true → s.reader.rest = deltaBytes s.previous ps
  whole : ¬ cut → s.complete = true
  fits : s.reader.offset + (deltaBytes s.previous ps).length < usizeLimit

/-- What may go wrong on a cut payload. -/
def Unknown (cut : Prop) (e : Error) : Prop := cut ∧ (Truncated e ∨ e = prefixWork)

namespace PhraseStream

theorem At.checkEnd (h : At cut s ps) : s.checkEnd = .ok () := by
  unfold PhraseStream.checkEnd
  split_ifs with hend
  · obtain ⟨h0, hc⟩ := hend
    have hnil : ps = [] := List.length_eq_zero_iff.1 (h.remaining.symm.trans h0)
    have hrest := h.complete hc
    rw [hnil] at hrest
    exact Positions.finish_iff.2 hrest
  · rfl

/-- The delta of the next position is read, or it is cut off. -/
theorem At.varU32 (h : At cut s (p :: ps)) :
    (∃ e, Unknown cut e ∧ ∃ r, Reader.varU32 s.reader = (.error e, r)) ∨
      ∃ r, Reader.varU32 s.reader = (.ok (p - s.previous), r) ∧
        At cut { s with
          reader := r
          previous := p
          first := false
          remaining := s.remaining - 1 } ps := by
  obtain ⟨⟨hprev, hfirst, hp⟩, ha⟩ := Ascends.cons_iff.1 h.ascends
  have hlen : (deltaBytes s.previous (p :: ps)).length =
      (varU32Bytes (p - s.previous)).length + (deltaBytes p ps).length := List.length_append
  have hfull : Past ⟨deltaBytes s.previous (p :: ps),
      s.reader.offset⟩ (varU32Bytes (p - s.previous))
      ⟨deltaBytes p ps, s.reader.offset + (varU32Bytes (p - s.previous)).length⟩ := ⟨rfl, rfl⟩
  have hf : Reader.Fits ⟨deltaBytes s.previous (p :: ps), s.reader.offset⟩ := h.fits
  have hread : Reader.varU32 ⟨deltaBytes s.previous (p :: ps), s.reader.offset⟩ = _ :=
    varU32_past hf (by omega) hfull
  have hshort : Shorter s.reader ⟨deltaBytes s.previous (p :: ps), s.reader.offset⟩ :=
    ⟨h.rest, rfl⟩
  have hfits := h.fits
  have hrem := h.remaining
  rw [List.length_cons] at hrem
  rw [hlen] at hfits
  by_cases hc : s.complete = true
  · have hreader : s.reader = ⟨deltaBytes s.previous (p :: ps), s.reader.offset⟩ := by
      rw [← h.complete hc]
    refine .inr ⟨_, by rw [hreader]; exact hread, ?_⟩
    exact ⟨by simp only; omega, ha, fun q hq => h.lt q (List.mem_cons_of_mem _ hq),
      List.prefix_rfl, fun _ => rfl, fun _ => hc, by simp only; omega⟩
  · have hcut : cut := by
      by_contra hcut
      exact hc (h.whole hcut)
    rcases varU32_cut _ _ _ _ hshort hread with ⟨r, hs, hx⟩ | ⟨e, r, he, hx⟩
    · refine .inr ⟨r, hx, ?_⟩
      exact ⟨by simp only; omega, ha, fun q hq => h.lt q (List.mem_cons_of_mem _ hq),
        hs.1, fun h' => absurd h' hc, fun h' => absurd hcut h', by rw [hs.2]; simp only; omega⟩
    · exact .inl ⟨e, ⟨hcut, .inl he⟩, r, hx⟩

theorem At.next_nil (h : At cut s []) : s.next = .ok (none, s) := if_pos h.remaining

theorem At.next (h : At cut s (p :: ps)) : (∃ e, Unknown cut e ∧ s.next = .error e) ∨
    ∃ s', s.next = .ok (some p, s') ∧ At cut s' ps := by
  have hr : s.remaining ≠ 0 := by
    rw [h.remaining]
    exact Nat.succ_ne_zero _
  obtain ⟨⟨hprev, hfirst, hp⟩, -⟩ := Ascends.cons_iff.1 h.ascends
  have hlt := h.lt p List.mem_cons_self
  have hsum : s.previous + (p - s.previous) = p := by omega
  unfold PhraseStream.next
  rw [if_neg hr]
  rcases h.varU32 with ⟨e, he, r, hx⟩ | ⟨r, hx, hat⟩
  · exact .inl ⟨e, he, by rw [hx]⟩
  · refine .inr ⟨_, ?_, hat⟩
    have hdelta : ¬ (s.first = false ∧ p - s.previous = 0) := fun hc => by
      have := hfirst hc.1
      omega
    rw [hx]
    simp only [hsum]
    rw [if_neg hdelta, if_neg (by omega), if_neg (by omega), hat.checkEnd, ok_bind]

/-- A stream with its work: unless the payload is cut, there is more than `slack` to spare. -/
def Works (cut : Prop) (slack : ℕ) (s : PhraseStream × ℕ) (ps : List ℕ) : Prop :=
  At cut s.1 ps ∧ (¬ cut → ps.length + slack < s.2)

theorem Works.advance_nil {s : PhraseStream × ℕ} (h : Works cut slack s []) :
    (∃ e, Unknown cut e ∧ advance s = .error e) ∨ ∃ s', advance s = .ok (none, s') := by
  unfold advance
  split_ifs with hw
  · refine .inl ⟨_, ⟨?_, .inr rfl⟩, rfl⟩
    by_contra hcut
    have := h.2 hcut
    omega
  · exact .inr ⟨(s.1, s.2 - 1), by rw [h.1.next_nil]; rfl⟩

theorem Works.advance {s : PhraseStream × ℕ} (h : Works cut slack s (p :: ps)) :
    (∃ e, Unknown cut e ∧ advance s = .error e) ∨
      ∃ s', advance s = .ok (some p, s') ∧ Works cut slack s' ps := by
  unfold PhraseStream.advance
  have hwork := h.2
  rw [List.length_cons] at hwork
  split_ifs with hw
  · refine .inl ⟨_, ⟨?_, .inr rfl⟩, rfl⟩
    by_contra hcut
    have := hwork hcut
    omega
  · rcases h.1.next with ⟨e, he, hx⟩ | ⟨stream, hx, hat⟩
    · exact .inl ⟨e, he, by rw [hx]; rfl⟩
    · refine .inr ⟨(stream, s.2 - 1), by rw [hx]; rfl, hat, fun hcut => ?_⟩
      have := hwork hcut
      simp only
      omega

/-- A byte 1 after the first position is the delta to the adjacent one. -/
theorem At.one {rest : List UInt8} (h : At cut s ps) (hf : s.first = false) (h0 : ps ≠ [])
    (hr : s.reader.rest = 1 :: rest) : ∃ qs, ps = (s.previous + 1) :: qs ∧
      At cut { s with
        reader := ⟨rest, s.reader.offset + 1⟩
        previous := s.previous + 1
        remaining := s.remaining - 1 } qs := by
  obtain ⟨p, qs, rfl⟩ := List.exists_cons_of_ne_nil h0
  obtain ⟨⟨hprev, -, -⟩, ha⟩ := Ascends.cons_iff.1 h.ascends
  have hpre := h.rest
  rw [hr, deltaBytes] at hpre
  have hvar : varU32Bytes (p - s.previous) = [1] := by
    rw [varU32Bytes, varBytes] at hpre ⊢
    split_ifs at hpre ⊢ with hsmall
    · rw [List.singleton_append, List.cons_prefix_cons] at hpre
      rw [← hpre.1]
    · -- a longer integer starts with a continuation bit
      rw [List.cons_append, List.cons_prefix_cons] at hpre
      have hbyte := congrArg UInt8.toNat hpre.1
      rw [Nat.toUInt8, UInt8.toNat_ofNat'] at hbyte
      have hone : (1 : UInt8).toNat = 1 := rfl
      omega
  have hdelta : p - s.previous = 1 := by
    rw [varU32Bytes, varBytes] at hvar
    split_ifs at hvar with hsmall
    · have hbyte := congrArg UInt8.toNat (List.cons.inj hvar).1
      rw [Nat.toUInt8, UInt8.toNat_ofNat'] at hbyte
      have hone : (1 : UInt8).toNat = 1 := rfl
      omega
    · exact absurd (List.cons.inj hvar).2 (varBytes_ne_nil _ _)
  obtain rfl : p = s.previous + 1 := by omega
  have hbytes : deltaBytes s.previous ((s.previous + 1) :: qs) =
      1 :: deltaBytes (s.previous + 1) qs := by
    rw [deltaBytes, hvar]
    rfl
  have hrem := h.remaining
  have hfits := h.fits
  have hrest := h.rest
  have hcomplete := h.complete
  rw [hbytes] at hfits hrest hcomplete
  rw [hr] at hrest hcomplete
  rw [List.length_cons] at hrem hfits
  refine ⟨qs, rfl, ⟨by simp only; omega, ?_, fun q hq => h.lt q (List.mem_cons_of_mem _ hq),
    (List.cons_prefix_cons.1 hrest).2, fun hc => (List.cons.inj (hcomplete hc)).2, h.whole,
    by simp only; omega⟩⟩
  have hfirst : s.first = false := hf
  simpa only [hfirst] using ha

/-- A run of bytes 1 is a run of adjacent positions. -/
theorem At.run {k : ℕ} {rest : List UInt8} (h : At cut s ps) (hf : s.first = false)
    (hk : k ≤ ps.length) (hr : s.reader.rest = List.replicate k 1 ++ rest) :
    ∃ run qs, ps = run ++ qs ∧ run.length = k ∧ (∀ u ∈ run, u ≤ s.previous + k) ∧
      (k ≠ 0 → s.previous + k ∈ run) ∧
      At cut { s with
        reader := ⟨rest, s.reader.offset + k⟩
        previous := s.previous + k
        remaining := s.remaining - k } qs := by
  induction k generalizing s ps with
  | zero =>
    refine ⟨[], ps, rfl, rfl, fun _ h => absurd h List.not_mem_nil, fun h => absurd rfl h, ?_⟩
    have hreader : (⟨rest, s.reader.offset + 0⟩ : Reader) = s.reader := by
      rw [Nat.add_zero]
      exact congrArg (Reader.mk · s.reader.offset) hr.symm
    rw [hreader]
    exact h
  | succ k ih =>
    rw [List.replicate_succ, List.cons_append] at hr
    obtain ⟨qs, rfl, h'⟩ := h.one hf (by rintro rfl; exact absurd hk (Nat.not_succ_le_zero k)) hr
    rw [List.length_cons] at hk
    obtain ⟨run, rs, rfl, hlen, hle, hmem, hat⟩ := ih h' hf (by omega) rfl
    refine ⟨(s.previous + 1) :: run, rs, rfl, by rw [List.length_cons, hlen], ?_, fun _ => ?_, ?_⟩
    · refine List.forall_mem_cons.2 ⟨by omega, fun u hu => ?_⟩
      have := hle u hu
      simp only at this
      omega
    · by_cases hk0 : k = 0
      · subst hk0
        exact List.mem_cons_self
      · have := hmem hk0
        simp only [Nat.add_assoc, Nat.add_comm 1 k] at this
        exact List.mem_cons_of_mem _ this
    · simp only [Nat.add_assoc, Nat.add_comm 1 k, Nat.sub_sub] at hat
      exact hat

/-- A skip passes a run of positions below the target. -/
theorem Works.skip (target : ℕ) {s : PhraseStream × ℕ} (h : Works cut slack s ps) :
    skip target s = .ok none ∨ ∃ s' run qs, skip target s = .ok (some s') ∧ ps = run ++ qs ∧
      run ≠ [] ∧ (∀ u ∈ run, u < target) ∧ Works cut slack s' qs := by
  obtain ⟨stream, work⟩ := s
  obtain ⟨hat, hwork⟩ := h
  unfold PhraseStream.skip
  simp only
  split
  case isFalse => exact .inl rfl
  case isTrue hcond =>
  obtain ⟨hfirst, hrem, hw, -, hend, hbytes⟩ := hcond
  have hlen : (stream.reader.rest.take 32).length = 32 := by
    rw [List.length_take]
    exact Nat.min_eq_left hbytes
  have hpast : Past stream.reader (stream.reader.rest.take 32)
      ⟨stream.reader.rest.drop 32, stream.reader.offset + 32⟩ :=
    ⟨(List.take_append_drop 32 _).symm, by rw [hlen]⟩
  have hf : stream.reader.Fits := by
    have := hat.rest.length_le
    have := hat.fits
    unfold Reader.Fits
    simp only at *
    omega
  have htake := take_past hf hpast
  rw [hlen] at htake
  rw [htake]
  simp only
  by_cases hrun : stream.reader.rest.take 32 = List.replicate 32 1
  swap
  · exact .inl (if_neg hrun)
  have hk : 32 ≤ ps.length := by
    rw [← hat.remaining]
    exact hrem
  obtain ⟨run, qs, rfl, hlen', hle, hmem, hat'⟩ := hat.run hfirst hk
    (by rw [← hrun]; exact (List.take_append_drop 32 _).symm)
  have hlast : stream.previous + 32 < stream.tokens :=
    hat.lt _ (List.mem_append_left _ (hmem (by decide)))
  rw [if_pos hrun, if_neg (Nat.not_le.2 hlast)]
  refine .inr ⟨_, run, qs, by rw [hat'.checkEnd]; rfl, rfl, ?_, fun u hu => ?_, hat',
    fun hcut => ?_⟩
  · rintro rfl
    cases hlen'
  · have := hle u hu
    simp only at this
    omega
  · have := hwork hcut
    rw [List.length_append] at this
    simp only at this ⊢
    omega

/-- A seek passes only positions below the target. -/
theorem Works.seekGe {s : PhraseStream × ℕ} (h : Works cut slack s ps) (hfuel : ps.length < fuel) :
    Window.Fetches (Unknown cut) (Works cut slack) (fun _ => True) target
      (seekGe target fuel s) ps := by
  induction fuel generalizing s ps with
  | zero => omega
  | succ fuel ih =>
    unfold PhraseStream.seekGe
    rcases h.skip target with hx | ⟨s', run, qs, hx, rfl, hne, hlt, h'⟩
    · rw [hx]
      simp only [ok_bind]
      cases ps with
      | nil =>
        rcases h.advance_nil with ⟨e, he, hy⟩ | ⟨s', hy⟩
        · exact .inl ⟨e, he, by rw [hy]; rfl⟩
        · exact .inr (.inl ⟨fun _ h => absurd h List.not_mem_nil, s', by rw [hy]; rfl, trivial⟩)
      | cons p ps =>
        rcases h.advance with ⟨e, he, hy⟩ | ⟨s', hy, h'⟩
        · exact .inl ⟨e, he, by rw [hy]; rfl⟩
        · rw [hy]
          simp only [ok_bind]
          split_ifs with hge
          · exact .inr (.inr ⟨[], p, ps, s', rfl, fun _ h => absurd h List.not_mem_nil, rfl, h'⟩)
          · exact (ih h' (by rw [List.length_cons] at hfuel; omega)).cons (Nat.lt_of_not_le hge)
    · rw [hx]
      simp only [ok_bind]
      have hpos := List.length_pos_iff.2 hne
      rw [List.length_append] at hfuel
      exact (ih h' (by omega)).append hlt

end PhraseStream

end

/-! ### The search in the streams -/

namespace PrefixCursors

section

variable {cut : Prop} {n anchor index start : ℕ} {s : PrefixCursors} {A : List ℕ}
  {R lists : ℕ → List ℕ} {stream : PhraseStream} {ps : List ℕ} {work : ℕ}

/-- The streams of the `n` terms have the lists, and unless the payload is cut there is work for
all of them. -/
structure Has (cut : Prop) (n : ℕ) (s : PrefixCursors) (lists : ℕ → List ℕ) : Prop where
  stream : ∀ i < n, ∃ stream, s.streams i = some stream ∧ stream.At cut (lists i)
  work : ¬ cut → (∑ i ∈ Finset.range n, (lists i).length) < s.work

/-- The work for the other streams. -/
def slack (n index : ℕ) (lists : ℕ → List ℕ) : ℕ :=
  ∑ i ∈ (Finset.range n).erase index, (lists i).length

theorem sum_lists (hi : index < n) : (∑ i ∈ Finset.range n, (lists i).length) =
    (lists index).length + slack n index lists :=
  (Finset.add_sum_erase _ _ (Finset.mem_range.2 hi)).symm

theorem slack_update : slack n index (Function.update lists index ps) = slack n index lists := by
  refine Finset.sum_congr rfl fun i hi => ?_
  rw [Function.update_of_ne (Finset.ne_of_mem_erase hi)]

theorem Has.works (h : Has cut n s lists) (hi : index < n) :
    ∃ stream, s.streams index = some stream ∧
      PhraseStream.Works cut (slack n index lists) (stream, s.work) (lists index) := by
  obtain ⟨stream, hs, hat⟩ := h.stream index hi
  refine ⟨stream, hs, hat, fun hcut => ?_⟩
  rw [← sum_lists hi]
  exact h.work hcut

/-- A stream moved to its new place. -/
theorem Has.update {current : ℕ → Option ℕ} (h : Has cut n s lists) (hi : index < n)
    (hw : PhraseStream.Works cut (slack n index lists) (stream, work) ps) :
    Has cut n ⟨Function.update s.streams index (some stream), current, work⟩
      (Function.update lists index ps) where
  stream i hlt := by
    by_cases hii : i = index
    · subst hii
      exact ⟨stream, by simp, by simpa using hw.1⟩
    · obtain ⟨st, h₁, h₂⟩ := h.stream i hlt
      exact ⟨st, by simp [hii, h₁], by simpa [hii] using h₂⟩
  work hcut := by
    rw [sum_lists hi, slack_update, Function.update_self]
    exact hw.2 hcut

/-- The streams and lookaheads stand before the anchor's list `A` and the other lists `R`. -/
structure At (cut : Prop) (n anchor : ℕ) (s : PrefixCursors) (A : List ℕ) (R : ℕ → List ℕ) :
    Prop where
  lists : ∃ lists, Has cut n s lists ∧ lists anchor = A ∧
    ∀ i < n, i ≠ anchor → R i = (s.current i).toList ++ lists i
  sorted : ∀ i < n, i ≠ anchor → (R i).Pairwise (· < ·)

theorem At.pull (ha : anchor < n) (h : At cut n anchor s A R) :
    (∃ e, Unknown cut e ∧ pull anchor s = .error e) ∨
      (A = [] ∧ ∃ s', pull anchor s = .ok (none, s')) ∨
      ∃ p A' s', A = p :: A' ∧ pull anchor s = .ok (some p, s') ∧ At cut n anchor s' A' R := by
  obtain ⟨⟨lists, hhas, rfl, hR⟩, hsorted⟩ := h
  obtain ⟨stream, hs, hw⟩ := hhas.works ha
  unfold PrefixCursors.pull
  rw [hs]
  simp only
  rcases hA : lists anchor with _ | ⟨p, A'⟩
  · rw [hA] at hw
    rcases hw.advance_nil with ⟨e, he, hx⟩ | ⟨s', hx⟩
    · exact .inl ⟨e, he, by rw [hx]; rfl⟩
    · exact .inr (.inl ⟨rfl, _, by rw [hx]; rfl⟩)
  · rw [hA] at hw
    rcases hw.advance with ⟨e, he, hx⟩ | ⟨⟨stream', work'⟩, hx, hw'⟩
    · exact .inl ⟨e, he, by rw [hx]; rfl⟩
    · refine .inr (.inr ⟨p, A', _, rfl, by rw [hx]; rfl, ⟨_, hhas.update ha hw', by simp, ?_⟩,
        hsorted⟩)
      intro i hi hne
      rw [Function.update_of_ne hne]
      exact hR i hi hne

theorem At.probe (hi : index < n) (hne : index ≠ anchor) (hlimit : start + index < u32Limit)
    (h : At cut n anchor s A R) :
    Window.Probes (Unknown cut) (At cut n anchor) start index A R
      (PrefixCursors.probe index (start + index) s) := by
  obtain ⟨⟨lists, hhas, rfl, hR⟩, hsorted⟩ := h
  obtain ⟨stream, hs, hw⟩ := hhas.works hi
  unfold PrefixCursors.probe
  rw [if_neg (Nat.not_le.2 hlimit), hs]
  simp only
  have hfuel : (s.current index).toList.length + (lists index).length < stream.remaining + 2 := by
    have hone : (s.current index).toList.length ≤ 1 := by cases s.current index <;> simp
    have hrem := hw.1.remaining
    simp only at hrem
    omega
  have hfetch : ∀ (s : PhraseStream × ℕ) ps, PhraseStream.Works cut (slack n index lists) s ps →
      Window.Fetches (Unknown cut) (PhraseStream.Works cut (slack n index lists)) (fun _ => True)
        (start + index) (PhraseStream.seekGe (start + index) (s.1.remaining + 1) s) ps := by
    intro s ps hws
    refine hws.seekGe ?_
    rw [hws.1.remaining]
    exact Nat.lt_succ_self _
  obtain ⟨hf, hle⟩ := Window.lookahead_spec Error.invalidState (start + index) hfetch hw hfuel
  rw [← hR index hi hne] at hf
  rcases hf with ⟨e, he, hx⟩ | ⟨hall, ⟨stream', work'⟩, hx, -⟩ |
    ⟨passed, v, rest, ⟨stream', work'⟩, hsplit, hp, hx, hw'⟩
  · exact .inl ⟨e, he, by rw [hx]; rfl⟩
  · exact .inr (.inl ⟨_, by rw [hx]; rfl, hall⟩)
  have hge := hle v _ hx
  have hRs := hsorted index hi hne
  rw [hsplit] at hRs
  have htail := (List.pairwise_append.1 hRs).2.1
  have hafter := (List.pairwise_cons.1 htail).1
  rw [hx]
  refine .inr (.inr ⟨_, _, Function.update R index (v :: rest), rfl,
    ⟨⟨_, hhas.update hi hw', by rw [Function.update_of_ne hne.symm], fun i hlt hia => ?_⟩,
      fun i hlt hia => ?_⟩, fun i u hu => ?_, ?_⟩)
  · by_cases hii : i = index
    · subst hii
      simp
    · simp [hii, hR i hlt hia]
  · by_cases hii : i = index
    · subst hii
      simpa using htail
    · simpa [hii] using hsorted i hlt hia
  · by_cases hii : i = index
    · subst hii
      rw [Function.update_self, hsplit]
      refine ⟨fun hm => List.mem_append_right _ hm, fun hm => ?_⟩
      rcases List.mem_append.1 hm with hm | hm
      · exact absurd (hp u hm) (Nat.not_lt.2 hu)
      · exact hm
    · simp [hii]
  · by_cases hv : v = start + index
    · refine .inl ⟨if_pos hv, ?_⟩
      rw [hsplit, ← hv]
      exact List.mem_append_right _ List.mem_cons_self
    · refine .inr ⟨if_neg hv, fun hm => ?_⟩
      rw [hsplit] at hm
      rcases List.mem_append.1 hm with hm | hm
      · exact absurd (hp _ hm) (Nat.lt_irrefl _)
      · rcases List.mem_cons.1 hm with hm | hm
        · exact hv hm.symm
        · have := hafter _ hm
          omega

/-- The search answers as the lists do, or the cut payload does not tell. -/
theorem witness_spec {streams : ℕ → Option PhraseStream} {L : ℕ → List ℕ} {bound : ℕ}
    (hn : 0 < n) (hhas : Has cut n ⟨streams, fun _ => none, work⟩ L)
    (hsorted : ∀ i < n, (L i).Pairwise (· < ·)) (hbound : ∀ i < n, ∀ u ∈ L i, u < bound)
    (hlimit : bound + n ≤ u32Limit) :
    (∃ e, Unknown cut e ∧ witness n streams work = .error e) ∨
      ∃ b, witness n streams work = .ok b ∧ (b = true ↔ ∃ start, ∀ i < n, start + i ∈ L i) := by
  have hkeys : ((List.range n).map fun index =>
      ((streams index).map PhraseStream.remaining).getD 4294967295) ≠ [] := by
    simp
    omega
  obtain ⟨⟨anchor, least⟩, hmin⟩ := Option.ne_none_iff_exists'.1 (firstMin_ne_none hkeys)
  have ha : anchor < n := by simpa using firstMin_lt hmin
  obtain ⟨stream, hs, hat⟩ := hhas.stream anchor ha
  have hs' : streams anchor = some stream := hs
  have hstart : At cut n anchor ⟨streams, fun _ => none, work⟩ (L anchor) L :=
    ⟨⟨L, hhas, rfl, fun _ _ _ => rfl⟩, fun i hi _ => hsorted i hi⟩
  have hfuel : (L anchor).length < stream.remaining + 1 := by
    rw [hat.remaining]
    exact Nat.lt_succ_self _
  have hwitness : witness n streams work =
      Window.search .invalidState (PrefixCursors.pull anchor) PrefixCursors.probe n anchor
        (stream.remaining + 1) ⟨streams, fun _ => none, work⟩ := by
    unfold witness
    simp only [hmin, hs']
  rw [hwitness]
  rcases Window.search_spec Error.invalidState anchor bound (fun _ _ _ h => h.pull ha)
    (fun start hstart index hi hne _ _ _ h => h.probe hi hne (by omega)) hstart
    (hsorted anchor ha) (hbound anchor ha) hfuel with h | ⟨b, hb, hiff⟩
  · exact .inl h
  exact .inr ⟨b, hb, hiff.trans (Window.exists_hit_iff ha)⟩

end

end PrefixCursors

/-! ### The directory of a cut payload -/

namespace PhrasePrefix

section

variable {total tokens terms offset : ℕ} {previous : Text} {x : TermPositions} {r r' : Reader}
  {bytes full : List UInt8} {done rest : List TermPositions} {cut : Prop}

theorem header_cut : Cut (header tokens terms) :=
  (take_cut 4).bind fun _ => Read.Cut.ensure.bind fun _ => (le_cut 4).bind fun _ =>
    Read.Cut.ensure.bind fun _ => (le_cut 4).bind fun _ => Read.Cut.ensure.bind fun _ =>
      (le_cut 4).bind fun _ => Read.Cut.ensure

theorem header_past (hf : r.Fits) (ht : tokens < u32Limit) (hn : terms < u32Limit)
    (h : Past r (headerBytes tokens terms) r') : header tokens terms r = (.ok (), r') := by
  obtain ⟨h, hterms⟩ := h.split
  obtain ⟨h, htokens⟩ := h.split
  obtain ⟨hmagic, hprofile⟩ := h.split
  have hf₁ := hmagic.fits hf
  have hf₂ := hprofile.fits hf₁
  have hf₃ := htokens.fits hf₂
  have htake : take 4 r = _ := take_past hf hmagic
  unfold header
  rw [Read.ok_bind htake, Read.ensure_bind rfl, Read.ok_bind (u32_past hf₁ (by decide) hprofile),
    Read.ensure_bind rfl, Read.ok_bind (u32_past hf₂ ht htokens), Read.ensure_bind rfl,
    Read.ok_bind (u32_past hf₃ hn hterms)]
  exact congrFun (if_pos rfl) r'

theorem entry_cut : Cut (entry total tokens offset previous) :=
  (le_cut 2).bind fun _ => Read.Cut.ensure.bind fun _ => (le_cut 2).bind fun _ =>
    Read.Cut.ensure.bind fun _ => (le_cut 4).bind fun _ => (take_cut _).bind fun _ =>
      Read.Cut.ensure.bind fun _ => Read.Cut.ensure.bind fun _ => position_cut.bind fun _ =>
        Read.Cut.ensure.bind fun _ => Read.Cut.ensure.bind fun _ => (le_cut 4).bind fun _ =>
          Read.Cut.ensure.bind fun _ => Read.Cut.pure

/-- The entry of a complete payload. -/
theorem entry_past (offset : ℕ) (previous : Text) (hf : r.Fits) (hoff : r.offset = 0)
    (h : Past r (recordBytes x) r')
    (hterm : TermOk x.1) (hprev : previous < x.1) (hne : x.2 ≠ []) (hcount : x.2.length ≤ tokens)
    (hlen : (positionBytes x.2).length < u32Limit)
    (hstop : offset + (recordBytes x).length ≤ total) (htotal : total < usizeLimit) :
    ∃ r'', entry total tokens offset previous r = (.ok (x.1, offset + (8 + x.1.length),
      offset + (8 + x.1.length) + (positionBytes x.2).length, x.2.length), r'') := by
  obtain ⟨hterm, hmax, hutf⟩ := hterm
  have hmax' : x.1.length ≤ 1024 := hmax
  have hpos : x.1.length ≠ 0 := fun h0 => hterm (List.length_eq_zero_iff.1 h0)
  have hpos' : x.2.length ≠ 0 := fun h0 => hne (List.length_eq_zero_iff.1 h0)
  have hdelta := length_le_deltaBytes 0 x.2
  have hsize : (positionBytes x.2).length = 4 + (deltaBytes 0 x.2).length := by
    rw [positionBytes, List.length_append, length_bytesU32]
  have hrecord := PreparedDocument.length_recordBytes (x := x)
  obtain ⟨h, hpositions⟩ := h.split
  obtain ⟨h, htake⟩ := h.split
  obtain ⟨h, hbytes⟩ := h.split
  obtain ⟨hfirst, hreserved⟩ := h.split
  obtain ⟨hcounts, -⟩ := hpositions.split
  have hf₁ := hfirst.fits hf
  have hf₂ := hreserved.fits hf₁
  have hf₃ := hbytes.fits hf₂
  have hf₄ := htake.fits hf₃
  refine ⟨⟨deltaBytes 0 x.2 ++ r'.rest, r.offset + (bytesU16 x.1.length ++ bytesU16 0 ++
    bytesU32 (positionBytes x.2).length ++ x.1).length + (bytesU32 x.2.length).length⟩, ?_⟩
  unfold entry
  rw [Read.ok_bind (u16_past hf (by omega) hfirst), Read.ensure_bind ⟨hpos, hmax⟩,
    Read.ok_bind (u16_past hf₁ (by decide) hreserved), Read.ensure_bind rfl,
    Read.ok_bind (u32_past hf₂ hlen hbytes), Read.ok_bind (take_past hf₃ htake),
    Read.ensure_bind hutf, Read.ensure_bind ⟨hprev, by omega⟩]
  have hread : r.offset + ((((bytesU16 x.1.length ++ bytesU16 0) ++
      bytesU32 (positionBytes x.2).length) ++ x.1).length) = 8 + x.1.length := by
    simp only [List.length_append, length_bytesU16, length_bytesU32, hoff]
    omega
  rw [position_bind]
  simp only [hread] at hcounts hf₄ ⊢
  rw [Read.ensure_bind (by omega), Read.ensure_bind (by omega),
    Read.ok_bind (u32_past hf₄ (by omega) hcounts), Read.ensure_bind (by omega)]
  rfl

/-- The stream of an entry has its positions, as far as the payload goes. -/
theorem stream_at {pre post : List UInt8} (hfull : full = pre ++ (recordBytes x ++ post))
    (hb : bytes <+: full) (hlen : full.length < usizeLimit) (ha : Ascends true 0 x.2)
    (hlt : ∀ p ∈ x.2, p < tokens) :
    PhraseStream.At (bytes.length < full.length)
      (streamOf bytes tokens (pre.length + (8 + x.1.length))
        (pre.length + (8 + x.1.length) + (positionBytes x.2).length) x.2.length) x.2 := by
  have hsize : (positionBytes x.2).length = 4 + (deltaBytes 0 x.2).length := by
    rw [positionBytes, List.length_append, length_bytesU32]
  have hle : bytes.length ≤ full.length := hb.length_le
  have htotal : full.length = pre.length + ((recordBytes x).length + post.length) := by
    rw [hfull, List.length_append, List.length_append]
  have hrecord := PreparedDocument.length_recordBytes (x := x)
  -- what lies before the deltas
  obtain ⟨front, hfront, hsplit⟩ : ∃ front : List UInt8,
      front.length = pre.length + (8 + x.1.length) + 4 ∧
        full = front ++ (deltaBytes 0 x.2 ++ post) := by
    refine ⟨pre ++ (bytesU16 x.1.length ++ bytesU16 0 ++ bytesU32
      (positionBytes x.2).length ++ x.1 ++
      bytesU32 x.2.length), ?_, ?_⟩
    · simp only [List.length_append, length_bytesU16, length_bytesU32]
      omega
    · rw [hfull, recordBytes, entryBytes]
      simp only [positionBytes, List.append_assoc]
  have hcut : (bytes.take (min (pre.length + (8 + x.1.length) + (positionBytes x.2).length)
      bytes.length)).drop (pre.length + (8 + x.1.length) + 4) =
        (deltaBytes 0 x.2).take (min (pre.length + (8 + x.1.length) + (positionBytes x.2).length)
          bytes.length - front.length) := by
    rw [List.prefix_iff_eq_take.1 hb, List.take_take, List.length_take, Nat.min_eq_left hle,
      Nat.min_eq_left (Nat.min_le_right _ _), List.drop_take, ← hfront, hsplit, List.drop_left,
      List.take_append_of_le_length (by omega)]
  refine ⟨rfl, ha, hlt, ?_, fun hc => ?_, fun hw => decide_eq_true (by omega), ?_⟩
  · simp only [streamOf, Reader.new, hcut]
    exact List.take_prefix _ _
  · have hstop := of_decide_eq_true hc
    simp only [streamOf, Reader.new, hcut]
    exact List.take_of_length_le (by omega)
  · simp only [streamOf, Reader.new, Nat.zero_add]
    omega

/-- The streams after `done`: a term has its stream, or it was not met yet. -/
def Opened (cut : Prop) (d : Document) (wanted : List Text) (done : List TermPositions)
    (streams : ℕ → Option PhraseStream) : Prop :=
  ∀ i < wanted.length,
    (∃ stream, streams i = some stream ∧ stream.At cut (positionsFrom (wanted.getD i []) 0 d)) ∨
      (streams i = none ∧ ∀ x ∈ done, wanted[i]? ≠ some x.1)

theorem Opened.step {d : Document} {wanted : List Text} {streams : ℕ → Option PhraseStream}
    {stream : PhraseStream} (h : Opened cut d wanted done streams) (hx : x ∈ records d)
    (hat : stream.At cut x.2) :
    Opened cut d wanted (done ++ [x]) (openStreams wanted x.1 stream streams) := by
  intro i hi
  unfold openStreams
  by_cases hw : wanted[i]? = some x.1
  · refine .inl ⟨stream, if_pos hw, ?_⟩
    have hget : wanted.getD i [] = x.1 := by rw [List.getD_eq_getElem?_getD, hw]; rfl
    rw [hget, ← (mem_records.1 hx).2]
    exact hat
  · simp only [if_neg hw]
    refine (h i hi).imp_right fun ⟨hnone, hdone⟩ => ⟨hnone, fun y hy => ?_⟩
    rcases List.mem_append.1 hy with hy | hy
    · exact hdone y hy
    · rw [List.mem_singleton.1 hy]
      exact hw

/-- Once every term has its stream, the search decides. -/
theorem Opened.witness {d : Document} {wanted : List Text} {streams : ℕ → Option PhraseStream}
    (h : Opened cut d wanted done streams) (hall : allOpen wanted.length streams = true)
    (hne : wanted ≠ []) (h64 : wanted.length ≤ 64) (htok : d.length ≤ maxDocumentTokens) :
    (∃ e, Unknown cut e ∧ PrefixCursors.witness wanted.length streams
        (if allComplete wanted.length streams then usizeLimit - 1 else 256) = .error e) ∨
      PrefixCursors.witness wanted.length streams
        (if allComplete wanted.length streams then usizeLimit - 1 else 256) =
          .ok (phraseIn wanted d) := by
  have htokens : maxDocumentTokens + 64 < u32Limit := by decide
  have hL : ∀ i < wanted.length, ∃ stream, streams i = some stream ∧
      stream.At cut (positionsFrom (wanted.getD i []) 0 d) := by
    intro i hi
    rcases h i hi with h | ⟨hnone, -⟩
    · exact h
    · have := List.all_eq_true.1 hall i (List.mem_range.2 hi)
      rw [hnone] at this
      cases this
  have hmem : ∀ i < wanted.length, ∀ u ∈ positionsFrom (wanted.getD i []) 0 d, u < d.length :=
    fun i _ u hu => (List.getElem?_eq_some_iff.1 (mem_positions.1 hu)).1
  have hwork : ¬ cut → (∑ i ∈ Finset.range wanted.length,
      (positionsFrom (wanted.getD i []) 0 d).length) <
        if allComplete wanted.length streams then usizeLimit - 1 else 256 := by
    intro hcut
    -- every stream is complete, and so the work is not limited
    have hcomplete : allComplete wanted.length streams = true := by
      refine List.all_eq_true.2 fun i hi => ?_
      obtain ⟨stream, hst, hat⟩ := hL i (List.mem_range.1 hi)
      rw [hst]
      exact hat.whole hcut
    have hsum := Finset.sum_le_card_nsmul (Finset.range wanted.length)
      (fun i => (positionsFrom (wanted.getD i []) 0 d).length) d.length fun i hi =>
        @length_positions_le _ (wanted.getD i [], _) positionsFrom_sorted
          (hmem i (Finset.mem_range.1 hi))
    rw [Finset.card_range, Nat.nsmul_eq_mul] at hsum
    have hmul := Nat.mul_le_mul h64 htok
    have hbound : 64 * maxDocumentTokens < usizeLimit - 1 := by decide
    rw [if_pos hcomplete]
    omega
  rcases PrefixCursors.witness_spec (List.length_pos_iff.2 hne) ⟨hL, hwork⟩
    (fun i _ => positionsFrom_sorted) hmem (by omega) with h | ⟨b, hb, hiff⟩
  · exact .inl h
  · refine .inr (hb.trans (congrArg Except.ok (Bool.eq_iff_iff.2 ?_)))
    rw [hiff, phraseIn_iff_positions hne]

/-- The entries lead to the answer of the oracle, or the payload is cut too early. -/
theorem entries_spec {d : Document} {wanted : List Text} {seen : ℕ} (done : List TermPositions)
    (pre : List UInt8) (frequency : ℕ) (streams : ℕ → Option PhraseStream)
    (hdir : Directory d.length (records d))
    (hlen : full.length ≤ maxDocumentBytes) (h64 : wanted.length ≤ 64) (hb : bytes <+: full)
    (hsplit : records d = done ++ rest) (hfull : full = pre ++ rest.flatMap recordBytes)
    (hok : Follows d.length previous seen rest)
    (hfreq : frequency + (rest.flatMap Prod.snd).length = d.length)
    (hs : Opened (bytes.length < full.length) d wanted done streams)
    (hopen : ∃ i < wanted.length, streams i = none) :
    (∃ e, Unknown (bytes.length < full.length) e ∧ entries bytes full.length d.length wanted
        rest.length pre.length previous frequency streams = .error e) ∨
      entries bytes full.length d.length wanted rest.length pre.length previous frequency streams =
        .ok (phraseIn wanted d) := by
  have hsize : maxDocumentBytes < u32Limit := by decide
  have hlimit : u32Limit < usizeLimit := by decide
  have htok := hdir.tokens_le
  have htokens : maxDocumentTokens + 64 < u32Limit := by decide
  induction rest generalizing pre previous seen frequency streams done with
  | nil =>
    -- the directory has ended without one of the terms
    obtain ⟨i, hi, hnone⟩ := hopen
    have hdone : ∀ x ∈ done, wanted[i]? ≠ some x.1 := by
      rcases hs i hi with ⟨stream, hsome, -⟩ | ⟨-, hdone⟩
      · rw [hnone] at hsome
        cases hsome
      · exact hdone
    have hnot : wanted[i] ∉ d := fun hmem => by
      have hrec : (wanted[i], positionsFrom wanted[i] 0 d) ∈ done := by
        rw [List.append_nil] at hsplit
        rw [← hsplit]
        exact mem_records.2 ⟨hmem, rfl⟩
      exact hdone _ hrec (List.getElem?_eq_getElem hi)
    refine .inr ?_
    have htotal : pre.length = full.length := by rw [hfull, List.flatMap_nil, List.append_nil]
    have hfrequency : frequency = d.length := hfreq
    rw [phraseIn_of_notMem (List.getElem_mem hi) hnot, List.length_nil, entries, htotal, hfrequency]
    simp
  | cons x rest ih =>
    obtain ⟨⟨hprev, hterm, ha, hne, hl, -⟩, hok'⟩ := Follows.cons_iff.1 hok
    have hx : x ∈ records d := by
      rw [hsplit]
      exact List.mem_append_right _ List.mem_cons_self
    have hcount := length_positions_le ha hl
    have hasc := ascends_of_lt htok ha hl
    rw [List.flatMap_cons] at hfull
    rw [List.flatMap_cons, List.length_append] at hfreq
    have htotal : full.length =
        pre.length + ((recordBytes x).length + (rest.flatMap recordBytes).length) := by
      rw [hfull, List.length_append, List.length_append]
    have hpos := length_positionBytes_le (x := x)
    rw [List.length_cons, entries]
    by_cases hoff : bytes.length < pre.length
    · rw [if_pos hoff]
      exact .inl ⟨_, ⟨by omega, .inl ⟨_, rfl⟩⟩, rfl⟩
    rw [if_neg hoff]
    have hdrop : full.drop pre.length = recordBytes x ++ rest.flatMap recordBytes := by
      rw [hfull, List.drop_left]
    have hpast : Past (Reader.new (full.drop pre.length)) (recordBytes x)
        ⟨rest.flatMap recordBytes, 0 + (recordBytes x).length⟩ := ⟨hdrop, rfl⟩
    have hf : (Reader.new (full.drop pre.length)).Fits := fits_new (by
      rw [List.length_drop]
      omega)
    obtain ⟨r₁, hentry⟩ := entry_past pre.length previous hf rfl hpast
      hterm hprev hne hcount (by omega) (by omega) (show full.length < usizeLimit by omega)
    have hshort : Shorter (Reader.new (bytes.drop pre.length)) (Reader.new
        (full.drop pre.length)) :=
      ⟨hb.drop _, rfl⟩
    rcases entry_cut _ _ _ _ hshort hentry with ⟨r₀, -, hx₀⟩ | ⟨e, r₀, he, hx₀⟩
    swap
    · refine .inl ⟨e, ⟨?_, .inl he⟩, by rw [hx₀]⟩
      by_contra hcut
      have hbytes : bytes = full := hb.eq_of_length (by have := hb.length_le; omega)
      rw [hbytes, hentry] at hx₀
      cases hx₀
    rw [hx₀]
    simp only
    rw [if_neg (by omega)]
    have hat := stream_at hfull hb (by omega) hasc hl
    have hs' := hs.step hx hat
    split
    · -- every term has its stream
      rename_i hall
      obtain ⟨i, hi, -⟩ := hopen
      exact hs'.witness hall (List.ne_nil_of_length_pos (by omega)) h64 htok
    · rename_i hall
      have hopen' : ∃ i < wanted.length, openStreams wanted x.1 (streamOf bytes d.length
          (pre.length + (8 + x.1.length)) (pre.length + (8 + x.1.length) +
            (positionBytes x.2).length) x.2.length) streams i = none := by
        rw [allOpen, Bool.not_eq_true, List.all_eq_false] at hall
        obtain ⟨i, hi, hnone⟩ := hall
        exact ⟨i, List.mem_range.1 hi, by simpa using hnone⟩
      have hpre : pre.length + (8 + x.1.length) + (positionBytes x.2).length =
          (pre ++ recordBytes x).length := by
        rw [List.length_append, PreparedDocument.length_recordBytes, positionBytes,
          List.length_append, length_bytesU32]
        omega
      rw [hpre] at hs' hopen' ⊢
      refine ih (done ++ [x]) (pre ++ recordBytes x) (frequency + x.2.length) _ ?_ ?_ hok'
        (by omega) hs' hopen'
      · rw [hsplit, List.append_assoc]
        rfl
      · rw [hfull, List.append_assoc]

/-- The evaluator answers as the oracle, or the payload is cut too early. -/
theorem evaluate_spec {d : Document} {wanted : List Text} (hdir : Directory d.length (records d))
    (hlen : (encodeDocument d.length (records d)).length ≤ maxDocumentBytes) (hne : wanted ≠ [])
    (h64 : wanted.length ≤ 64) (hb : bytes <+: encodeDocument d.length (records d)) :
    (∃ e, Unknown (bytes.length < (encodeDocument d.length (records d)).length) e ∧
      evaluate bytes (encodeDocument d.length (records d)).length d.length (records d).length
        wanted = .error e) ∨
      evaluate bytes (encodeDocument d.length (records d)).length d.length (records d).length
        wanted = .ok (phraseIn wanted d) := by
  have htok := hdir.tokens_le
  have hterms := hdir.terms_le
  have hlimit : maxDocumentTokens < u32Limit := by decide
  have hheader : header d.length (records d).length
      (Reader.new (encodeDocument d.length (records d))) = _ :=
    header_past (fits_new hlen) (by omega) (by omega) past_encodeDocument
  have hshort : Shorter (Reader.new bytes) (Reader.new (encodeDocument d.length (records d))) :=
    ⟨hb, rfl⟩
  unfold evaluate
  rcases header_cut _ _ _ _ hshort hheader with ⟨r₀, hs, hx⟩ | ⟨e, r₀, he, hx⟩
  · have hpos := List.length_pos_iff.2 hne
    have hspec := entries_spec [] (headerBytes d.length (records d).length) 0 (fun _ => none) hdir
      hlen h64 hb (List.nil_append _).symm encodeDocument_eq hdir.follows
      (by rw [hdir.length, Nat.zero_add])
      (fun i _ => .inr ⟨rfl, fun x hx => absurd hx List.not_mem_nil⟩) ⟨0, hpos, rfl⟩
    have hoff : r₀.offset = (headerBytes d.length (records d).length).length := hs.2
    rw [hx]
    simp only [hoff]
    exact hspec
  · refine .inl ⟨e, ⟨?_, .inl he⟩, by rw [hx]⟩
    by_contra hcut
    have hbytes := hb.eq_of_length (by have := hb.length_le; omega)
    rw [hbytes, hheader] at hx
    cases hx

end

end PhrasePrefix

/-- From any first bytes of a payload the phrase is decided as in the whole document, or it is not
decided; the whole payload decides it. -/
theorem prefixMatches_spec {d : Document} {wanted : List Text} {bytes : List UInt8}
    (hdir : Directory d.length (records d))
    (hlen : (encodeDocument d.length (records d)).length ≤ maxDocumentBytes) (hne : wanted ≠ [])
    (h64 : wanted.length ≤ 64) (hb : bytes <+: encodeDocument d.length (records d)) :
    (bytes.length < (encodeDocument d.length (records d)).length ∧
      prefixMatches bytes (encodeDocument d.length (records d)).length d.length (records d).length
        wanted = .ok none) ∨
      prefixMatches bytes (encodeDocument d.length (records d)).length d.length (records d).length
        wanted = .ok (some (phraseIn wanted d)) := by
  have htok := hdir.tokens_le
  have hterms := hdir.terms_le
  have hle := hb.length_le
  unfold prefixMatches
  rw [if_neg (by
    rintro (h | h | h | h | h | h)
    · exact hne h
    all_goals omega)]
  rcases PhrasePrefix.evaluate_spec hdir hlen hne h64 hb with ⟨e, ⟨hcut, he⟩, hx⟩ | hx
  · refine .inl ⟨hcut, ?_⟩
    rw [hx]
    rcases he with ⟨offset, rfl⟩ | rfl
    · exact if_pos ⟨rfl, hcut⟩
    · exact if_pos ⟨rfl, hcut⟩
  · exact .inr (by rw [hx])

/-- Every split of an accepted payload is evaluated without an error and never wrongly. -/
theorem prefixMatches_validated (bytes : List UInt8) (tokens terms memoryBytes : ℕ)
    (wanted : List Text) (hv : Document.validate bytes memoryBytes = .ok (tokens, terms))
    (hne : wanted ≠ []) (h64 : wanted.length ≤ 64) :
    ∃ recs, Payload.decode ⟨bytes, tokens, terms⟩ = .ok recs ∧
      (∀ k, prefixMatches (bytes.take k) bytes.length tokens terms wanted = .ok none ∨
        prefixMatches (bytes.take k) bytes.length tokens terms wanted =
          .ok (some (phraseIn wanted (rebuild tokens recs)))) ∧
      prefixMatches bytes bytes.length tokens terms wanted =
        .ok (some (phraseIn wanted (rebuild tokens recs))) := by
  obtain ⟨recs, rfl, rfl, hdir, hlen⟩ := of_validate hv
  have hrecs := hdir.records_rebuild
  have hlength : (rebuild tokens recs).length = tokens := length_rebuild
  have hdir' : Directory (rebuild tokens recs).length (records (rebuild tokens recs)) := by
    rwa [hrecs, hlength]
  have hlen' : (encodeDocument (rebuild tokens recs).length
      (records (rebuild tokens recs))).length ≤ maxDocumentBytes := by rwa [hrecs, hlength]
  have hspec : ∀ {part : List UInt8}, part <+: encodeDocument tokens recs →
      (part.length < (encodeDocument tokens recs).length ∧
        prefixMatches part (encodeDocument tokens recs).length tokens recs.length wanted =
          .ok none) ∨
        prefixMatches part (encodeDocument tokens recs).length tokens recs.length wanted =
          .ok (some (phraseIn wanted (rebuild tokens recs))) := by
    intro part hpart
    have hpart' : part <+: encodeDocument (rebuild tokens recs).length
        (records (rebuild tokens recs)) := by rwa [hrecs, hlength]
    have h := prefixMatches_spec hdir' hlen' hne h64 hpart'
    rwa [hrecs, hlength] at h
  refine ⟨recs, hdir.decode hlen, fun k => (hspec (List.take_prefix k _)).imp_left And.right, ?_⟩
  rcases hspec List.prefix_rfl with ⟨h, -⟩ | h
  · exact absurd h (Nat.lt_irrefl _)
  · exact h

set_option maxRecDepth 10000 in
theorem prefixMatches_bab :
    ∃ recs, Payload.decode ⟨payload babDocument, 3, 2⟩ = .ok recs ∧
      (∀ k, prefixMatches ((payload babDocument).take k) (payload babDocument).length 3 2
          [[97], [98]] = .ok none ∨
        prefixMatches ((payload babDocument).take k) (payload babDocument).length 3 2
          [[97], [98]] = .ok (some (phraseIn [[97], [98]] (rebuild 3 recs)))) ∧
      prefixMatches (payload babDocument) (payload babDocument).length 3 2 [[97], [98]] =
        .ok (some (phraseIn [[97], [98]] (rebuild 3 recs))) :=
  prefixMatches_validated (payload babDocument) 3 2 64 [[97], [98]] (by decide +kernel)
    (by decide) (by decide)

end PinCore
