import PinCore.Lib.Bits
import PinCore.Query.Basic

/-!
# Validating a document payload

The directory of a payload lists its distinct terms in order, each with its positions.
`validate` accepts exactly the encodings of directories whose terms are strictly sorted and whose
positions are all those below the token count, each once.
-/

namespace PinCore

open Reader

/-- The version of the analysis profile. -/
def profileId : ℕ := 1

/-- The magic `PD02`. -/
def documentMagic : List UInt8 := [0x50, 0x44, 0x30, 0x32]

/-- A checked term and its encoded position stream. -/
structure DocumentTerm where
  term : Text
  positions : List UInt8
  deriving DecidableEq, Repr

/-- The positions of a term. -/
def DocumentTerm.positionStream (t : DocumentTerm) : Except Error Positions :=
  Positions.parse t.positions maxDocumentTokens

/-- The directory iterator. -/
structure DocumentTerms where
  reader : Reader
  remaining : ℕ

namespace DocumentTerms

/-- One entry; after the last one nothing may be left. -/
def entry (remaining : ℕ) : Parse DocumentTerm := do
  let len ← u16
  Read.ensure (len ≠ 0 ∧ len ≤ maxTermBytes) .invalidDocument
  let reserved ← u16
  Read.ensure (reserved = 0) .invalidDocument
  let positionBytes ← u32
  let term ← take len
  Read.ensure (utf8 term = true) .invalidDocument
  let positions ← take positionBytes
  let r ← Read.cursor
  Read.ofExcept (if remaining = 1 then r.finish else .ok ⟨⟩)
  return ⟨term, positions⟩

/-- The next term; after an error there is none. -/
def next (it : DocumentTerms) : Option (Except Error DocumentTerm) × DocumentTerms :=
  if it.remaining = 0 then (none, it)
  else
    match entry it.remaining it.reader with
    | (.ok t, r) => (some (.ok t), ⟨r, it.remaining - 1⟩)
    | (.error e, r) => (some (.error e), ⟨r, 0⟩)

end DocumentTerms

namespace Document

/-- Magic, profile, token count and term count. -/
def header : Parse (ℕ × ℕ) := do
  let magic ← take 4
  Read.ensure (magic = documentMagic) .invalidProfile
  let profile ← u32
  Read.ensure (profile = profileId) .invalidProfile
  let tokens ← u32
  let terms ← u32
  return (tokens, terms)

/-- Marks the positions of one term; no position is marked twice.  The bitset is one number. -/
def mark (tokens : ℕ) : ℕ → PositionIter → ℕ → ℕ → Except Error (ℕ × ℕ)
  | 0, _, seen, total => .ok (seen, total)
  | n + 1, it, seen, total =>
    match it.next with
    | (none, _) => .ok (seen, total)
    | (some (.error e), _) => .error e
    | (some (.ok position), it) =>
      if tokens ≤ position then .error .invalidDocument
      else if seen.testBit position then .error .invalidDocument
      else mark tokens n it (seen ||| 2 ^ position) (total + 1)

variable {σ : Type}

/-- The entries in order, each handed to `onTerm` before its positions are marked. -/
def validateFrom (tokens : ℕ) (onTerm : σ → Text → Positions → Except Error σ) :
    ℕ → DocumentTerms → Text → ℕ → ℕ → σ → Except Error (ℕ × σ)
  | 0, _, _, _, total, s => .ok (total, s)
  | n + 1, it, previous, seen, total, s =>
    match it.next with
    | (none, _) => .ok (total, s)
    | (some (.error e), _) => .error e
    | (some (.ok entry), it) =>
      if ¬ previous < entry.term then .error .invalidDocument
      else do
        let positions ← entry.positionStream
        if positions.count = 0 then .error .invalidDocument
        else do
          let s ← onTerm s entry.term positions
          let (seen, total) ← mark tokens positions.count positions.iter seen total
          validateFrom tokens onTerm n it entry.term seen total s

/-- Validates a payload and hands every term with its positions to `onTerm`. -/
def validateInner (bytes : List UInt8) (memoryBytes : ℕ)
    (onTerm : σ → Text → Positions → Except Error σ) (s : σ) : Except Error ((ℕ × ℕ) × σ) :=
  if maxDocumentBytes < bytes.length then .error (.limit "document payload")
  else
    match header (Reader.new bytes) with
    | (.error e, _) => .error e
    | (.ok (tokens, terms), reader) =>
      if maxDocumentTokens < tokens ∨ tokens < terms then .error .invalidDocument
      else if terms = 0 then do
        reader.finish
        if tokens = 0 then .ok ((0, 0), s) else .error .invalidDocument
      else do
        let _ ← (MemoryBudget.new memoryBytes).vector ((tokens + 63) / 64) 8
        let (total, s) ← validateFrom tokens onTerm terms ⟨reader, terms⟩ [] 0 0 s
        if total = tokens then .ok ((tokens, terms), s) else .error .invalidDocument

/-- Validates an untrusted payload; returns its token and term counts. -/
def validate (bytes : List UInt8) (memoryBytes : ℕ) : Except Error (ℕ × ℕ) := do
  let (counts, _) ← validateInner bytes memoryBytes (fun _ _ _ => .ok ()) ()
  .ok counts

end Document

/-! ### Directories -/

/-- One directory entry: a term and its positions. -/
abbrev TermPositions := Text × List ℕ

/-- The bytes of an entry whose position stream is already encoded. -/
def entryBytes (term : Text) (positions : List UInt8) : List UInt8 :=
  bytesU16 term.length ++ bytesU16 0 ++ bytesU32 positions.length ++ term ++ positions

/-- The bytes of a term with its positions. -/
def recordBytes (x : TermPositions) : List UInt8 := entryBytes x.1 (positionBytes x.2)

/-- The payload with a given directory. -/
def encodeDocument (tokens : ℕ) (recs : List TermPositions) : List UInt8 :=
  documentMagic ++ bytesU32 profileId ++ bytesU32 tokens ++ bytesU32 recs.length ++
    recs.flatMap recordBytes

/-- A term that a directory may list. -/
def TermOk (t : Text) : Prop := t ≠ [] ∧ t.length ≤ maxTermBytes ∧ utf8 t = true

instance (t : Text) : Decidable (TermOk t) := inferInstanceAs (Decidable (_ ∧ _))

/-- Terms in order, each with its positions in order; the positions are those below the token
count, each once. -/
structure Directory (tokens : ℕ) (recs : List TermPositions) : Prop where
  sorted : (recs.map Prod.fst).Pairwise (· < ·)
  term : ∀ x ∈ recs, TermOk x.1
  ascends : ∀ x ∈ recs, x.2.Pairwise (· < ·)
  nonempty : ∀ x ∈ recs, x.2 ≠ []
  lt : ∀ x ∈ recs, ∀ p ∈ x.2, p < tokens
  nodup : (recs.flatMap Prod.snd).Nodup
  length : (recs.flatMap Prod.snd).length = tokens
  tokens_le : tokens ≤ maxDocumentTokens

/-! ### Entries -/

section

variable {r r' : Reader} {t : DocumentTerm} {remaining : ℕ}

theorem entry_past (hf : r.Fits) (ht : TermOk t.term) (hlen : t.positions.length < u32Limit)
    (h : Past r (entryBytes t.term t.positions) r') (hend : remaining = 1 → r'.rest = []) :
    DocumentTerms.entry remaining r = (.ok t, r') := by
  obtain ⟨hne, hmax, hutf⟩ := ht
  have hmax' : t.term.length ≤ 1024 := hmax
  have hpos : t.term.length ≠ 0 := fun h0 => hne (List.length_eq_zero_iff.1 h0)
  obtain ⟨h, hpositions⟩ := h.split
  obtain ⟨h, hterm⟩ := h.split
  obtain ⟨h, hcount⟩ := h.split
  obtain ⟨hsize, hreserved⟩ := h.split
  have hf₁ := hsize.fits hf
  have hf₂ := hreserved.fits hf₁
  have hf₃ := hcount.fits hf₂
  have hf₄ := hterm.fits hf₃
  have hfin : (if remaining = 1 then r'.finish else .ok ⟨⟩) = Except.ok (ε := Error) () := by
    split_ifs with h1
    · exact Positions.finish_iff.2 (hend h1)
    · rfl
  unfold DocumentTerms.entry
  rw [Read.ok_bind (u16_past hf (by omega) hsize), Read.ensure_bind ⟨hpos, hmax⟩,
    Read.ok_bind (u16_past hf₁ (by decide) hreserved), Read.ensure_bind rfl,
    Read.ok_bind (u32_past hf₂ hlen hcount), Read.ok_bind (take_past hf₃ hterm),
    Read.ensure_bind hutf, Read.ok_bind (take_past hf₄ hpositions), Read.cursor_bind,
    Read.ofExcept_bind hfin]
  rfl

theorem past_of_entry (h : DocumentTerms.entry remaining r = (.ok t, r')) :
    TermOk t.term ∧ t.positions.length < u32Limit ∧
      Past r (entryBytes t.term t.positions) r' ∧ (remaining = 1 → r'.rest = []) := by
  obtain ⟨len, r₁, hlen, h⟩ := Read.of_bind h
  obtain ⟨⟨hne, hmax⟩, h⟩ := Read.of_ensure_bind h
  obtain ⟨reserved, r₂, hreserved, h⟩ := Read.of_bind h
  obtain ⟨hzero, h⟩ := Read.of_ensure_bind h
  obtain ⟨positionBytes, r₃, hbytes, h⟩ := Read.of_bind h
  obtain ⟨term, r₄, hterm, h⟩ := Read.of_bind h
  obtain ⟨hutf, h⟩ := Read.of_ensure_bind h
  obtain ⟨positions, r₅, hpositions, h⟩ := Read.of_bind h
  rw [Read.cursor_bind] at h
  obtain ⟨_, hfin, h⟩ := Read.of_ofExcept_bind h
  cases h
  subst hzero
  obtain ⟨rfl, hp₄⟩ := past_of_take hterm
  obtain ⟨rfl, hp₅⟩ := past_of_take hpositions
  obtain ⟨-, hp₁⟩ := past_of_u16 hlen
  obtain ⟨-, hp₂⟩ := past_of_u16 hreserved
  obtain ⟨hlt, hp₃⟩ := past_of_u32 hbytes
  refine ⟨⟨fun h0 => hne (List.length_eq_zero_iff.2 h0), hmax, hutf⟩, hlt,
    (((hp₁.append hp₂).append hp₃).append hp₄).append hp₅, fun h1 => ?_⟩
  rw [if_pos h1] at hfin
  exact Positions.finish_iff.1 hfin

end

/-! ### Marking -/

section

variable {tokens seen total p q : ℕ} {it : PositionIter} {ps : List ℕ}

/-- The positions of `ps` are marked too. -/
def markAll (seen : ℕ) (ps : List ℕ) : ℕ := ps.foldl (fun seen p => seen ||| 2 ^ p) seen

theorem testBit_mark : (seen ||| 2 ^ p).testBit q = (seen.testBit q || decide (p = q)) := by
  rw [Nat.testBit_or, Nat.testBit_two_pow]

theorem testBit_markAll : (markAll seen ps).testBit q = (seen.testBit q || decide (q ∈ ps)) := by
  induction ps generalizing seen with
  | nil => simp [markAll]
  | cons p ps ih =>
    have h : (markAll (seen ||| 2 ^ p) ps).testBit q = _ := ih
    rw [testBit_mark] at h
    refine Eq.trans h ?_
    rw [Bool.or_assoc]
    simp only [List.mem_cons, Bool.decide_or, eq_comm]

theorem mark_eq (h : it.Lists ps) (hlt : ∀ p ∈ ps, p < tokens) (hn : ps.Nodup)
    (hs : ∀ p ∈ ps, seen.testBit p = false) :
    Document.mark tokens ps.length it seen total = .ok (markAll seen ps, total + ps.length) := by
  induction ps generalizing it seen total with
  | nil => rfl
  | cons p ps ih =>
    obtain ⟨it', hnext, hl⟩ := h
    obtain ⟨hp, hn⟩ := List.nodup_cons.1 hn
    have hfree := hs p List.mem_cons_self
    have hrest : Document.mark tokens ps.length it' (seen ||| 2 ^ p) (total + 1) = _ :=
      ih hl (fun q hq => hlt q (List.mem_cons_of_mem _ hq)) hn fun q hq => by
        rw [testBit_mark, hs q (List.mem_cons_of_mem _ hq)]
        simp only [Bool.false_or, decide_eq_false_iff_not]
        rintro rfl
        exact hp hq
    rw [List.length_cons, Document.mark, hnext]
    simp only [if_neg (Nat.not_le.2 (hlt p List.mem_cons_self)), hfree, Bool.false_eq_true,
      if_false]
    rw [hrest, Nat.add_assoc, Nat.add_comm 1]
    rfl

theorem of_mark {seen' total' : ℕ} (h : it.Lists ps)
    (hm : Document.mark tokens ps.length it seen total = .ok (seen', total')) :
    (∀ p ∈ ps, p < tokens) ∧ ps.Nodup ∧ (∀ p ∈ ps, seen.testBit p = false) ∧
      seen' = markAll seen ps ∧ total' = total + ps.length := by
  induction ps generalizing it seen total with
  | nil =>
    cases hm
    exact ⟨fun _ h => absurd h List.not_mem_nil, List.nodup_nil,
      fun _ h => absurd h List.not_mem_nil, rfl, rfl⟩
  | cons p ps ih =>
    obtain ⟨it', hnext, hl⟩ := h
    rw [List.length_cons, Document.mark, hnext] at hm
    simp only at hm
    split_ifs at hm with h₁ h₂
    obtain ⟨hlt, hn, hs, rfl, rfl⟩ := ih hl hm
    have hfree : ∀ q ∈ ps, seen.testBit q = false ∧ p ≠ q := by
      intro q hq
      have := hs q hq
      rw [testBit_mark, Bool.or_eq_false_iff, decide_eq_false_iff_not] at this
      exact this
    refine ⟨fun q hq => ?_, List.nodup_cons.2 ⟨fun hp => (hfree p hp).2 rfl, hn⟩, fun q hq => ?_,
      rfl, by rw [List.length_cons]; omega⟩
    · rcases List.mem_cons.1 hq with rfl | hq
      · exact Nat.not_le.1 h₁
      · exact hlt q hq
    · rcases List.mem_cons.1 hq with rfl | hq
      · exact Bool.eq_false_iff.2 h₂
      · exact (hfree q hq).1

end

/-! ### The loop over the entries -/

/-- The checked stream of a directory entry. -/
def TermPositions.stream (x : TermPositions) : Positions := ⟨deltaBytes 0 x.2, x.2.length⟩

/-- Entries that may follow `previous` where the positions `seen` are taken. -/
structure Follows (tokens : ℕ) (previous : Text) (seen : ℕ) (recs : List TermPositions) : Prop where
  sorted : (previous :: recs.map Prod.fst).Pairwise (· < ·)
  term : ∀ x ∈ recs, TermOk x.1
  ascends : ∀ x ∈ recs, x.2.Pairwise (· < ·)
  nonempty : ∀ x ∈ recs, x.2 ≠ []
  lt : ∀ x ∈ recs, ∀ p ∈ x.2, p < tokens
  nodup : (recs.flatMap Prod.snd).Nodup
  free : ∀ p ∈ recs.flatMap Prod.snd, seen.testBit p = false

section

variable {tokens seen : ℕ} {previous : Text} {x : TermPositions} {recs : List TermPositions}

theorem Follows.nil : Follows tokens previous seen [] where
  sorted := List.pairwise_singleton _ _
  term _ h := absurd h List.not_mem_nil
  ascends _ h := absurd h List.not_mem_nil
  nonempty _ h := absurd h List.not_mem_nil
  lt _ h := absurd h List.not_mem_nil
  nodup := List.nodup_nil
  free _ h := absurd h List.not_mem_nil

theorem Follows.cons_iff : Follows tokens previous seen (x :: recs) ↔
    (previous < x.1 ∧ TermOk x.1 ∧ x.2.Pairwise (· < ·) ∧ x.2 ≠ [] ∧ (∀ p ∈ x.2, p < tokens) ∧
      ∀ p ∈ x.2, seen.testBit p = false) ∧ Follows tokens x.1 (markAll seen x.2) recs := by
  have hfree : ∀ p, (markAll seen x.2).testBit p = false ↔ seen.testBit p = false ∧ p ∉ x.2 := by
    intro p
    rw [testBit_markAll, Bool.or_eq_false_iff, decide_eq_false_iff_not]
  constructor
  · rintro ⟨hs, ht, ha, hne, hl, hn, hf⟩
    rw [List.map_cons] at hs
    obtain ⟨hprev, hs⟩ := List.pairwise_cons.1 hs
    rw [List.flatMap_cons, List.nodup_append] at hn
    obtain ⟨-, hn, hdis⟩ := hn
    have hmem : ∀ p ∈ x.2, p ∈ (x :: recs).flatMap Prod.snd := fun p hp => by
      rw [List.flatMap_cons]
      exact List.mem_append_left _ hp
    refine ⟨⟨hprev _ List.mem_cons_self, ht x List.mem_cons_self, ha x List.mem_cons_self,
      hne x List.mem_cons_self, hl x List.mem_cons_self, fun p hp => hf p (hmem p hp)⟩, hs,
      fun y hy => ht y (List.mem_cons_of_mem _ hy), fun y hy => ha y (List.mem_cons_of_mem _ hy),
      fun y hy => hne y (List.mem_cons_of_mem _ hy), fun y hy => hl y (List.mem_cons_of_mem _ hy),
      hn, fun p hp => ?_⟩
    refine (hfree p).2 ⟨hf p ?_, fun hx => hdis p hx p hp rfl⟩
    rw [List.flatMap_cons]
    exact List.mem_append_right _ hp
  · rintro ⟨⟨hprev, ht, ha, hne, hl, hf⟩, hs', ht', ha', hne', hl', hn', hf'⟩
    have hnodup : x.2.Nodup := ha.imp Nat.ne_of_lt
    have hall : ∀ {P : TermPositions → Prop}, P x → (∀ y ∈ recs, P y) → ∀ y ∈ x :: recs, P y := by
      intro P hx hr y hy
      rcases List.mem_cons.1 hy with rfl | hy
      · exact hx
      · exact hr y hy
    refine ⟨?_, hall ht ht', hall ha ha', hall hne hne', hall hl hl', ?_, fun p hp => ?_⟩
    · rw [List.map_cons]
      refine List.pairwise_cons.2 ⟨fun t hm => ?_, hs'⟩
      rcases List.mem_cons.1 hm with rfl | hm
      · exact hprev
      · exact List.lt_trans hprev ((List.pairwise_cons.1 hs').1 t hm)
    · rw [List.flatMap_cons, List.nodup_append]
      refine ⟨hnodup, hn', fun p hp q hq hpq => ?_⟩
      exact ((hfree q).1 (hf' q hq)).2 (hpq ▸ hp)
    · rw [List.flatMap_cons] at hp
      rcases List.mem_append.1 hp with hp | hp
      · exact hf p hp
      · exact ((hfree p).1 (hf' p hp)).1

/-- Positions below the token count, each once, are not many. -/
theorem length_positions_le (ha : x.2.Pairwise (· < ·)) (hl : ∀ p ∈ x.2, p < tokens) :
    x.2.length ≤ tokens := by
  have hsub : x.2 ⊆ List.range tokens := fun p hp => List.mem_range.2 (hl p hp)
  have := (List.subperm_of_subset (ha.imp Nat.ne_of_lt) hsub).length_le
  rwa [List.length_range] at this

theorem ascends_of_lt (htok : tokens ≤ maxDocumentTokens) (ha : x.2.Pairwise (· < ·))
    (hl : ∀ p ∈ x.2, p < tokens) : Ascends true 0 x.2 where
  sorted := ha
  after p _ := ⟨Nat.zero_le p, nofun⟩
  lt p hp := by
    have h₁ := hl p hp
    have h₂ : tokens ≤ 262144 := htok
    simp only [u32Limit]
    omega

theorem length_positionBytes_le : (positionBytes x.2).length ≤ (recordBytes x).length := by
  rw [recordBytes, entryBytes, List.length_append]
  exact Nat.le_add_left _ _

/-- A stream is parsed from its bytes. -/
theorem parse_stream (htok : tokens ≤ maxDocumentTokens) (ha : x.2.Pairwise (· < ·))
    (hl : ∀ p ∈ x.2, p < tokens) (hlen : (positionBytes x.2).length < u32Limit) :
    Positions.parse (positionBytes x.2) maxDocumentTokens = .ok x.stream ∧
      x.stream.iter.Lists x.2 := by
  have hasc := ascends_of_lt htok ha hl
  have hbytes : (positionBytes x.2).length < usizeLimit := by
    have : u32Limit < usizeLimit := by decide
    omega
  exact ⟨Positions.parse_bytes hbytes hasc
    (Nat.le_trans (length_positions_le ha hl) htok) (by decide), Positions.iter_lists hbytes hasc⟩

variable {σ : Type} {onTerm : σ → Text → Positions → Except Error σ} {s s' : σ} {total n : ℕ}
  {it : DocumentTerms} {r' : Reader}

theorem DocumentTerms.next_past {positions : List UInt8} {t : Text} (hf : it.reader.Fits)
    (hr : it.remaining ≠ 0) (ht : TermOk t) (hlen : positions.length < u32Limit)
    (h : Past it.reader (entryBytes t positions) r') (hend : it.remaining = 1 → r'.rest = []) :
    it.next = (some (.ok ⟨t, positions⟩), ⟨r', it.remaining - 1⟩) := by
  have hentry : DocumentTerms.entry it.remaining it.reader = (.ok ⟨t, positions⟩, r') :=
    entry_past hf ht hlen h hend
  simp only [DocumentTerms.next, if_neg hr, hentry]

theorem DocumentTerms.of_next {t : DocumentTerm} {it' : DocumentTerms}
    (h : it.next = (some (.ok t), it')) : it.remaining ≠ 0 ∧ it'.remaining = it.remaining - 1 ∧
      TermOk t.term ∧ Past it.reader (entryBytes t.term t.positions) it'.reader ∧
      (it.remaining = 1 → it'.reader.rest = []) := by
  unfold DocumentTerms.next at h
  by_cases hr : it.remaining = 0
  · rw [if_pos hr] at h
    cases h
  rw [if_neg hr] at h
  rcases he : DocumentTerms.entry it.remaining it.reader with ⟨_ | t', r⟩
  · rw [he] at h
    cases h
  · rw [he] at h
    cases h
    obtain ⟨ht, -, hp, hend⟩ := past_of_entry he
    exact ⟨hr, rfl, ht, hp, hend⟩

theorem DocumentTerms.next_eq_none {it' : DocumentTerms} (h : it.next = (none, it')) :
    it.remaining = 0 := by
  by_contra hr
  unfold DocumentTerms.next at h
  rw [if_neg hr] at h
  rcases he : DocumentTerms.entry it.remaining it.reader with ⟨_ | t', r⟩
  all_goals
    rw [he] at h
    cases h

/-- What the loop does with the entries. -/
def onTerms (onTerm : σ → Text → Positions → Except Error σ) (s : σ) (recs : List TermPositions) :
    Except Error σ := recs.foldlM (fun s x => onTerm s x.1 x.stream) s

/-- The entry that an iterator returns for `x`. -/
def TermPositions.entry (x : TermPositions) : DocumentTerm := ⟨x.1, positionBytes x.2⟩

/-- The iterator stands before the encodings of `recs`, and nothing follows them. -/
structure DocumentTerms.At (it : DocumentTerms) (recs : List TermPositions) : Prop where
  fits : it.reader.Fits
  bytes_le : it.reader.rest.length ≤ maxDocumentBytes
  remaining : it.remaining = recs.length
  rest : it.reader.rest = recs.flatMap recordBytes

/-- An iterator takes the encodings one by one. -/
theorem DocumentTerms.At.next (h : it.At (x :: recs)) (htok : tokens ≤ maxDocumentTokens)
    (hok : Follows tokens previous seen (x :: recs)) :
    (∃ it', it.next = (some (.ok x.entry), it') ∧ it'.At recs) ∧
      x.entry.positionStream = .ok x.stream ∧ x.stream.iter.Lists x.2 := by
  obtain ⟨⟨-, ht, ha, -, hl, -⟩, -⟩ := Follows.cons_iff.1 hok
  obtain ⟨hf, hbytes, hr, hrest⟩ := h
  rw [List.flatMap_cons] at hrest
  rw [List.length_cons] at hr
  have hpast : Past it.reader (recordBytes x)
      ⟨recs.flatMap recordBytes, it.reader.offset + (recordBytes x).length⟩ := ⟨hrest, rfl⟩
  have hle := hpast.length_le
  have hlen : (positionBytes x.2).length < u32Limit := by
    have : maxDocumentBytes < u32Limit := by decide
    have := length_positionBytes_le (x := x)
    omega
  refine ⟨⟨_, DocumentTerms.next_past hf (by omega) ht hlen hpast fun h1 => ?_, hpast.fits hf,
    by simp only at hle ⊢; omega, by simp only; omega, rfl⟩, parse_stream htok ha hl hlen⟩
  obtain rfl : recs = [] := List.length_eq_zero_iff.1 (by omega)
  rfl

/-- Encoded entries are accepted. -/
theorem validateFrom_at (htok : tokens ≤ maxDocumentTokens)
    (hok : Follows tokens previous seen recs)
    (h : it.At recs) (hs : onTerms onTerm s recs = .ok s') :
    Document.validateFrom tokens onTerm recs.length it previous seen total s =
      .ok (total + (recs.flatMap Prod.snd).length, s') := by
  induction recs generalizing it previous seen total s with
  | nil =>
    cases hs
    rfl
  | cons x recs ih =>
    obtain ⟨⟨it', hnext, hat⟩, hstream, hlists⟩ := h.next htok hok
    obtain ⟨⟨hprev, -, ha, hne, hl, hfree⟩, hok'⟩ := Follows.cons_iff.1 hok
    obtain ⟨s₁, hterm₁, hs⟩ := ok_of_bind hs
    have hs₁ : onTerm s x.1 x.stream = .ok s₁ := hterm₁
    have hmark : Document.mark tokens x.2.length x.stream.iter seen total =
        .ok (markAll seen x.2, total + x.2.length) :=
      mark_eq hlists hl (ha.imp Nat.ne_of_lt) hfree
    have hcount : ¬ x.stream.count = 0 := fun h0 => hne (List.length_eq_zero_iff.1 h0)
    have hterm : previous < x.entry.term := hprev
    rw [List.length_cons, Document.validateFrom, hnext]
    simp only [not_not.2 hterm, if_false, hstream, ok_bind, if_neg hcount]
    change (onTerm s x.1 x.stream >>= _) = _
    rw [hs₁, ok_bind]
    change (Document.mark tokens x.2.length x.stream.iter seen total >>= _) = _
    rw [hmark, ok_bind]
    refine (ih hok' hat hs).trans ?_
    rw [List.flatMap_cons, List.length_append, Nat.add_assoc]

/-- Only encoded entries are accepted. -/
theorem of_validateFrom {total' : ℕ} (hr : it.remaining = n)
    (h : Document.validateFrom tokens onTerm n it previous seen total s = .ok (total', s')) :
    ∃ recs r', recs.length = n ∧ Follows tokens previous seen recs ∧
      Past it.reader (recs.flatMap recordBytes) r' ∧ (n ≠ 0 → r'.rest = []) ∧
      onTerms onTerm s recs = .ok s' ∧ total' = total + (recs.flatMap Prod.snd).length := by
  induction n generalizing it previous seen total s with
  | zero =>
    cases h
    exact ⟨[], it.reader, rfl, .nil, .nil, fun h0 => absurd rfl h0, rfl, rfl⟩
  | succ n ih =>
    unfold Document.validateFrom at h
    rcases hn : it.next with ⟨_ | _ | t, it₁⟩
    · have := DocumentTerms.next_eq_none hn
      omega
    · rw [hn] at h
      cases h
    · rw [hn] at h
      simp only at h
      split_ifs at h with hprev
      obtain ⟨v, hv, h⟩ := ok_of_bind h
      split_ifs at h with hcount
      obtain ⟨s₁, hs₁, h⟩ := ok_of_bind h
      obtain ⟨⟨seen₁, total₁⟩, hm, h⟩ := ok_of_bind h
      obtain ⟨-, hrem, ht, hp, hlast⟩ := DocumentTerms.of_next hn
      obtain ⟨ps, hbytes, rfl, hasc, -, hlists⟩ := Positions.of_parse hv
      obtain ⟨hl, -, hfree, rfl, rfl⟩ := of_mark hlists hm
      obtain ⟨recs, r', hlen, hok, hp', hend, hfold, rfl⟩ := ih (by omega) h
      refine ⟨(t.term, ps) :: recs, r', by rw [List.length_cons, hlen], ?_, ?_, fun _ => ?_, ?_, ?_⟩
      · refine Follows.cons_iff.2 ⟨⟨hprev, ht, hasc.sorted, ?_, hl, hfree⟩, hok⟩
        rintro rfl
        exact hcount rfl
      · rw [List.flatMap_cons]
        refine Past.append ?_ hp'
        rwa [recordBytes, ← hbytes]
      · by_cases h0 : n = 0
        · have hrest := hlast (by omega)
          obtain rfl : recs = [] := List.length_eq_zero_iff.1 (by omega)
          have := hp'.length_le
          rw [hrest] at this
          exact List.length_eq_zero_iff.1 (by simpa using this)
        · exact hend h0
      · rw [onTerms, List.foldlM_cons]
        change (onTerm s t.term ⟨deltaBytes 0 ps, ps.length⟩ >>= _) = _
        rw [hs₁]
        exact hfold
      · rw [List.flatMap_cons, List.length_append, Nat.add_assoc]

end

/-! ### Payloads -/

/-- The bytes before the directory. -/
def headerBytes (tokens terms : ℕ) : List UInt8 :=
  documentMagic ++ bytesU32 profileId ++ bytesU32 tokens ++ bytesU32 terms

section

variable {tokens terms memoryBytes : ℕ} {recs : List TermPositions} {r r' : Reader}
  {bytes : List UInt8}

theorem encodeDocument_eq :
    encodeDocument tokens recs = headerBytes tokens recs.length ++ recs.flatMap recordBytes := rfl

theorem header_past (hf : r.Fits) (ht : tokens < u32Limit) (hn : terms < u32Limit)
    (h : Past r (headerBytes tokens terms) r') :
    Document.header r = (.ok (tokens, terms), r') := by
  obtain ⟨h, hterms⟩ := h.split
  obtain ⟨h, htokens⟩ := h.split
  obtain ⟨hmagic, hprofile⟩ := h.split
  have hf₁ := hmagic.fits hf
  have hf₂ := hprofile.fits hf₁
  have hf₃ := htokens.fits hf₂
  have htake : take 4 r = _ := take_past hf hmagic
  unfold Document.header
  rw [Read.ok_bind htake, Read.ensure_bind rfl, Read.ok_bind (u32_past hf₁ (by decide) hprofile),
    Read.ensure_bind rfl, Read.ok_bind (u32_past hf₂ ht htokens),
    Read.ok_bind (u32_past hf₃ hn hterms)]
  rfl

theorem past_of_header (h : Document.header r = (.ok (tokens, terms), r')) :
    tokens < u32Limit ∧ terms < u32Limit ∧ Past r (headerBytes tokens terms) r' := by
  obtain ⟨magic, r₁, hmagic, h⟩ := Read.of_bind h
  obtain ⟨hm, h⟩ := Read.of_ensure_bind h
  obtain ⟨profile, r₂, hprofile, h⟩ := Read.of_bind h
  obtain ⟨hpr, h⟩ := Read.of_ensure_bind h
  obtain ⟨tokens', r₃, htokens, h⟩ := Read.of_bind h
  obtain ⟨terms', r₄, hterms, h⟩ := Read.of_bind h
  cases h
  subst hm hpr
  obtain ⟨-, hp₁⟩ := past_of_take hmagic
  obtain ⟨-, hp₂⟩ := past_of_u32 hprofile
  obtain ⟨ht, hp₃⟩ := past_of_u32 htokens
  obtain ⟨hn, hp₄⟩ := past_of_u32 hterms
  exact ⟨ht, hn, ((hp₁.append hp₂).append hp₃).append hp₄⟩

/-- The reader of a payload, and the reader of its directory. -/
theorem past_encodeDocument : Past (Reader.new (encodeDocument tokens recs))
    (headerBytes tokens recs.length) ⟨recs.flatMap recordBytes, 16⟩ := ⟨rfl, rfl⟩

theorem fits_new (h : bytes.length ≤ maxDocumentBytes) : (Reader.new bytes).Fits := by
  have : maxDocumentBytes < usizeLimit := by decide
  unfold Reader.Fits Reader.new
  simp only
  omega

/-- The iterator of a payload. -/
theorem at_directory (h : (encodeDocument tokens recs).length ≤ maxDocumentBytes) :
    DocumentTerms.At ⟨⟨recs.flatMap recordBytes, 16⟩, recs.length⟩ recs where
  fits := past_encodeDocument.fits (fits_new h)
  bytes_le := by
    rw [encodeDocument_eq, List.length_append] at h
    exact Nat.le_trans (Nat.le_add_left _ _) h
  remaining := rfl
  rest := rfl

/-- There are no more terms than tokens. -/
theorem length_le_flatMap (h : ∀ x ∈ recs, x.2 ≠ []) :
    recs.length ≤ (recs.flatMap Prod.snd).length := by
  induction recs with
  | nil => exact Nat.le_refl 0
  | cons x recs ih =>
    have hx := List.length_pos_iff.2 (h x List.mem_cons_self)
    have := ih fun y hy => h y (List.mem_cons_of_mem _ hy)
    rw [List.flatMap_cons, List.length_append, List.length_cons]
    omega

namespace Directory

theorem terms_le (h : Directory tokens recs) : recs.length ≤ tokens := by
  rw [← h.length]
  exact length_le_flatMap h.nonempty

theorem follows (h : Directory tokens recs) : Follows tokens [] 0 recs where
  sorted := by
    refine List.pairwise_cons.2 ⟨fun t ht => ?_, h.sorted⟩
    obtain ⟨x, hx, rfl⟩ := List.mem_map.1 ht
    obtain ⟨a, as, ha⟩ := List.exists_cons_of_ne_nil (h.term x hx).1
    rw [ha]
    exact List.nil_lt_cons a as
  term := h.term
  ascends := h.ascends
  nonempty := h.nonempty
  lt := h.lt
  nodup := h.nodup
  free _ _ := Nat.zero_testBit _

/-- The header of a payload is read back. -/
theorem header (h : Directory tokens recs)
    (hlen : (encodeDocument tokens recs).length ≤ maxDocumentBytes) :
    Document.header (Reader.new (encodeDocument tokens recs)) =
      (.ok (tokens, recs.length), ⟨recs.flatMap recordBytes, 16⟩) := by
  have htok := h.tokens_le
  have hle := h.terms_le
  have hlim : maxDocumentTokens < u32Limit := by decide
  exact header_past (fits_new hlen) (by omega) (by omega) past_encodeDocument

end Directory

theorem Follows.directory {previous : Text} (h : Follows tokens previous 0 recs)
    (hlen : (recs.flatMap Prod.snd).length = tokens) (ht : tokens ≤ maxDocumentTokens) :
    Directory tokens recs :=
  ⟨(List.pairwise_cons.1 h.sorted).2, h.term, h.ascends, h.nonempty, h.lt, h.nodup, hlen, ht⟩

variable {σ : Type} {onTerm : σ → Text → Positions → Except Error σ} {s s' : σ}

/-- The payload of a directory is accepted. -/
theorem validateInner_encode (h : Directory tokens recs)
    (hlen : (encodeDocument tokens recs).length ≤ maxDocumentBytes)
    (hmem : (tokens + 63) / 64 * 8 ≤ memoryBytes) (hs : onTerms onTerm s recs = .ok s') :
    Document.validateInner (encodeDocument tokens recs) memoryBytes onTerm s =
      .ok ((tokens, recs.length), s') := by
  have htok := h.tokens_le
  have hle := h.terms_le
  unfold Document.validateInner
  rw [if_neg (Nat.not_lt.2 hlen), h.header hlen]
  simp only
  rw [if_neg (by omega)]
  by_cases h0 : recs.length = 0
  · obtain rfl : recs = [] := List.length_eq_zero_iff.1 h0
    have hzero : tokens = 0 := h.length.symm
    cases hs
    subst hzero
    rfl
  · have hvector : (MemoryBudget.new memoryBytes).vector ((tokens + 63) / 64) 8 =
        .ok ⟨memoryBytes, 0 + (tokens + 63) / 64 * 8⟩ :=
      if_pos (by simp only [MemoryBudget.new]; omega)
    have hloop : Document.validateFrom tokens onTerm recs.length
        ⟨⟨recs.flatMap recordBytes, 16⟩, recs.length⟩ [] 0 0 s = .ok (0 + tokens, s') := by
      have hloop : Document.validateFrom tokens onTerm recs.length _ [] 0 0 s = .ok (0 + _, s') :=
        validateFrom_at htok h.follows (at_directory hlen) hs
      rwa [h.length] at hloop
    rw [if_neg h0, hvector, ok_bind, hloop, ok_bind]
    simp only [Nat.zero_add, if_true]

/-- Only payloads of directories are accepted. -/
theorem of_validateInner
    (h : Document.validateInner bytes memoryBytes onTerm s = .ok ((tokens, terms), s')) :
    ∃ recs, bytes = encodeDocument tokens recs ∧ terms = recs.length ∧ Directory tokens recs ∧
      bytes.length ≤ maxDocumentBytes ∧ onTerms onTerm s recs = .ok s' := by
  unfold Document.validateInner at h
  by_cases hlen : maxDocumentBytes < bytes.length
  · rw [if_pos hlen] at h
    cases h
  rw [if_neg hlen] at h
  rcases hh : Document.header (Reader.new bytes) with ⟨_ | ⟨tokens', terms'⟩, reader⟩
  · rw [hh] at h
    cases h
  rw [hh] at h
  simp only at h
  obtain ⟨-, -, hp⟩ := past_of_header hh
  have hbytes : bytes = headerBytes tokens' terms' ++ reader.rest := hp.rest
  split_ifs at h with hcounts hzero ht
  · obtain ⟨_, hfin, h⟩ := ok_of_bind h
    cases h
    subst hzero ht
    refine ⟨[], ?_, rfl, (@Follows.nil 0 0 []).directory rfl (Nat.zero_le _),
      Nat.not_lt.1 hlen, rfl⟩
    rw [hbytes, Positions.finish_iff.1 hfin]
    rfl
  · obtain ⟨_, -, h⟩ := ok_of_bind h
    cases h
  · obtain ⟨_, -, h⟩ := ok_of_bind h
    obtain ⟨⟨total, s₁⟩, hloop, h⟩ := ok_of_bind h
    simp only at h
    split_ifs at h with htotal
    cases h
    have hremaining : (⟨reader, terms⟩ : DocumentTerms).remaining = terms := rfl
    obtain ⟨recs, r', rfl, hok, hp', hend, hs, htot⟩ := of_validateFrom hremaining hloop
    rw [Nat.zero_add, htotal] at htot
    refine ⟨recs, ?_, rfl, hok.directory htot.symm (by omega), Nat.not_lt.1 hlen, hs⟩
    have hrest : reader.rest = recs.flatMap recordBytes ++ r'.rest := hp'.rest
    rw [hbytes, hrest, hend hzero, List.append_nil, encodeDocument_eq]

theorem onTerms_unit : onTerms (fun _ _ _ => .ok ()) () recs = .ok () := by
  induction recs with
  | nil => rfl
  | cons x recs ih => exact ih

/-- `validate` accepts just the payloads of directories. -/
theorem validate_encode (h : Directory tokens recs)
    (hlen : (encodeDocument tokens recs).length ≤ maxDocumentBytes)
    (hmem : (tokens + 63) / 64 * 8 ≤ memoryBytes) :
    Document.validate (encodeDocument tokens recs) memoryBytes = .ok (tokens, recs.length) := by
  rw [Document.validate, validateInner_encode h hlen hmem onTerms_unit]
  rfl

theorem of_validate (h : Document.validate bytes memoryBytes = .ok (tokens, terms)) :
    ∃ recs, bytes = encodeDocument tokens recs ∧ terms = recs.length ∧ Directory tokens recs ∧
      bytes.length ≤ maxDocumentBytes := by
  obtain ⟨⟨counts, _⟩, hv, h⟩ := ok_of_bind h
  cases h
  obtain ⟨recs, hb, ht, hd, hlen, -⟩ := of_validateInner hv
  exact ⟨recs, hb, ht, hd, hlen⟩

end

end PinCore
