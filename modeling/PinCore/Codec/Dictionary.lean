import PinCore.Codec.Records
import PinCore.Lib.LowerBound

/-!
# Sorted dictionaries

A record with the terms of a segment in byte order, one after the other, and a table of the
offsets between them.  The checks of `Dictionary.parse` force the table to be the running sums of
the lengths, so that a dictionary has one encoding; a lookup is a binary search, and a prefix
query two of them.
-/

namespace PinCore

open Reader

/-! ### The dictionary -/

/-- The limits of a dictionary. -/
structure DictionaryLimits where
  maxBytes : ℕ
  maxTerms : ℕ
  maxTermBytes : ℕ

/-- A parsed dictionary: the offsets of its terms and their bytes. -/
structure Dictionary where
  profile : ℕ
  offsets : List UInt8
  terms : List UInt8
  count : ℕ
  deriving DecidableEq

namespace Dictionary

/-- The offset at an index of the table. -/
def offset (d : Dictionary) (index : ℕ) : Except Error ℕ :=
  if usizeLimit ≤ index * 4 then .error (.codecAt 8 .overflow)
  else if d.offsets.length < index * 4 then .error (.codecAt 8 .truncated)
  else run u32 (d.offsets.drop (index * 4))

/-- The term with an identifier. -/
def term (d : Dictionary) (id : ℕ) : Except Error Text :=
  if d.count ≤ id then .error (.codecAt 8 .invalidValue)
  else do
    let start ← d.offset id
    let stop ← d.offset (id + 1)
    if start ≤ stop ∧ stop ≤ d.terms.length then
      if utf8 ((d.terms.drop start).take (stop - start)) = true then
        .ok ((d.terms.drop start).take (stop - start))
      else .error (.codecAt start .invalidUtf8)
    else .error (.codecAt 8 .invalidValue)

/-- Profile, count, table and terms, not looked at yet. -/
def view (limits : DictionaryLimits) : Parse Dictionary := do
  let profile ← u32
  Read.ensure (profile ≠ 0) (.codecAt 0 .invalidValue)
  let count ← u32
  Read.ensure (count ≤ limits.maxTerms) (.codecAt 4 .limitExceeded)
  Read.ensure ((count + 1) * 4 < usizeLimit) (.codecAt 8 .overflow)
  let offsets ← take ((count + 1) * 4)
  let r ← Read.cursor
  let terms ← take r.remaining
  return ⟨profile, offsets, terms, count⟩

/-- The next `n` terms from `index` on have a length in the limits and come in order after
`previous`. -/
def check (d : Dictionary) (maxTermBytes : ℕ) : ℕ → ℕ → Text → Except Error Unit
  | 0, _, _ => .ok ⟨⟩
  | n + 1, index, previous => do
    let term ← d.term index
    if term = [] ∨ maxTermBytes < term.length then .error (.codecAt 8 .limitExceeded)
    else if ¬ previous < term then .error (.codecAt 8 .invalidOrder)
    else check d maxTermBytes n (index + 1) term

/-- The table starts at zero and ends at the end of the terms. -/
def ends (d : Dictionary) : Except Error Unit := do
  let first ← d.offset 0
  if first ≠ 0 then .error (.codecAt 8 .invalidValue)
  else do
    let last ← d.offset d.count
    if last ≠ d.terms.length then .error (.codecAt 8 .invalidValue) else .ok ⟨⟩

/-- Validates every offset, term and ordering relation before use. -/
def parse (bytes : List UInt8) (limits : DictionaryLimits) : Except Error Dictionary := do
  let p ← Records.payload bytes 3 limits.maxBytes
  let d ← run (view limits) p
  d.ends
  d.check limits.maxTermBytes d.count 0 []
  .ok d

/-! ### Lookups -/

/-- The first index whose term is not before `term`. -/
def lowerBound (d : Dictionary) (term : Text) : Except Error ℕ :=
  probeFrom (fun middle => do
    let found ← d.term middle
    .ok (decide (found < term))) d.count 0 d.count

/-- The identifier of a term, found by binary search. -/
def lookup (d : Dictionary) (term : Text) : Except Error (Option ℕ) := do
  let index ← d.lowerBound term
  if index < d.count then do
    let found ← d.term index
    if found = term then .ok (some index) else .ok none
  else .ok none

/-- The interval of the terms that start with `start`, found without expanding it. -/
def prefixRange (d : Dictionary) (start : Text) (maxExpanded : ℕ) : Except Error (ℕ × ℕ) := do
  let first ← d.lowerBound start
  let low ← probeFrom (fun middle => do
    let found ← d.term middle
    .ok (start.isPrefixOf found)) d.count first d.count
  if maxExpanded < low - first then .error (.codecAt 0 .limitExceeded) else .ok (first, low)

/-! ### The encoder -/

/-- The length of the terms after `previous`, with `bytes` before them. -/
def measured (maxTermBytes : ℕ) : ℕ → Text → List Text → Except Error ℕ
  | bytes, _, [] => .ok bytes
  | bytes, previous, term :: terms =>
    if term = [] ∨ maxTermBytes < term.length then .error (.codecAt 0 .limitExceeded)
    else if ¬ previous < term then .error (.codecAt 0 .invalidOrder)
    else if usizeLimit ≤ bytes + term.length then .error (.codecAt 0 .overflow)
    else measured maxTermBytes (bytes + term.length) term terms

/-- Writes the ends of the terms, counted on from `offset`. -/
def writeOffsets : ℕ → List Text → Writer.Emit
  | _, [] => pure ⟨⟩
  | offset, term :: terms => do
    Writer.u32 (offset + term.length)
    writeOffsets (offset + term.length) terms

/-- Writes the bytes of the terms. -/
def writeTerms : List Text → Writer.Emit
  | [] => pure ⟨⟩
  | term :: terms => do
    Writer.put term
    writeTerms terms

/-- The length of a dictionary's payload. -/
def payloadLen (count bytes : ℕ) : ℕ := (count + 1) * 4 + 8 + bytes

/-- Writes a dictionary from its profile and its ascending terms. -/
def encode (limits : DictionaryLimits) (x : ℕ × List Text) (output : List UInt8) :
    Except Error ℕ × List UInt8 :=
  Writer.onto output do
    Read.ensure (x.1 ≠ 0) (.codecAt 0 .invalidValue)
    Read.ensure (x.2.length < u32Limit) (.codecAt 4 .limitExceeded)
    Read.ensure (x.2.length ≤ limits.maxTerms) (.codecAt 4 .limitExceeded)
    let bytes ← Read.ofExcept (measured limits.maxTermBytes 0 [] x.2)
    Read.ensure (bytes < u32Limit) (.codecAt 0 .overflow)
    Read.ensure (payloadLen x.2.length bytes < usizeLimit) (.codecAt 0 .overflow)
    Read.ensure (payloadLen x.2.length bytes + Records.headerBytes < usizeLimit ∧
      payloadLen x.2.length bytes + Records.headerBytes ≤ limits.maxBytes)
        (.codecAt 0 .limitExceeded)
    Records.start 3 (payloadLen x.2.length bytes)
    Writer.u32 x.1
    Writer.u32 x.2.length
    Writer.u32 0
    writeOffsets 0 x.2
    writeTerms x.2

/-! ### What is encoded -/

/-- The offsets between terms that start at `at'`, with the first and the last. -/
def bounds : ℕ → List Text → List ℕ
  | start, [] => [start]
  | start, term :: terms => start :: bounds (start + term.length) terms

/-- The dictionary of some terms. -/
def ofTerms (profile : ℕ) (terms : List Text) : Dictionary where
  profile := profile
  offsets := (bounds 0 terms).flatMap bytesU32
  terms := terms.flatten
  count := terms.length

/-- The payload of a dictionary. -/
def bytes (d : Dictionary) : List UInt8 :=
  bytesU32 d.profile ++ (bytesU32 d.count ++ (d.offsets ++ d.terms))

/-- What the checks ask of one term. -/
def TermFits (maxTermBytes : ℕ) (t : Text) : Prop :=
  t ≠ [] ∧ t.length ≤ maxTermBytes ∧ utf8 t = true

/-- Nonempty texts in strict order, all in the limits of the caller and of the format. -/
structure Fits (limits : DictionaryLimits) (profile : ℕ) (terms : List Text) : Prop where
  profile : profile ≠ 0 ∧ profile < u32Limit
  sorted : terms.Pairwise (· < ·)
  term : ∀ t ∈ terms, TermFits limits.maxTermBytes t
  count : terms.length ≤ limits.maxTerms
  limit : payloadLen terms.length terms.flatten.length + Records.headerBytes ≤ limits.maxBytes
  u32 : payloadLen terms.length terms.flatten.length < u32Limit

/-- The dictionary has these terms. -/
structure Lists (d : Dictionary) (terms : List Text) : Prop where
  count : d.count = terms.length
  term : ∀ i (h : i < terms.length), d.term i = .ok terms[i]

section

variable {limits : DictionaryLimits} {profile start i n o maxTermBytes : ℕ} {d : Dictionary}
  {t previous : Text}
  {terms : List Text}

theorem length_bounds : (bounds start terms).length = terms.length + 1 := by
  induction terms generalizing start with
  | nil => rfl
  | cons t terms ih => rw [bounds, List.length_cons, ih, List.length_cons]

theorem getElem_bounds (hi : i < (bounds start terms).length) :
    (bounds start terms)[i] = start + (terms.take i).flatten.length := by
  induction terms generalizing start i with
  | nil =>
    have h0 : i = 0 := by
      rw [length_bounds, List.length_nil] at hi
      omega
    subst h0
    rfl
  | cons t terms ih =>
    cases i with
    | zero => rfl
    | succ i =>
      have hi' : i < (bounds (start + t.length) terms).length := Nat.lt_of_succ_lt_succ hi
      rw [List.take_succ_cons, List.flatten_cons, List.length_append, ← Nat.add_assoc, ← ih hi']
      rfl

theorem length_offsets : (ofTerms profile terms).offsets.length = (terms.length + 1) * 4 := by
  have := length_flatMap_const (fun n => @length_bytesU32 n) (bounds 0 terms)
  rwa [length_bounds] at this

theorem length_bytes :
    (ofTerms profile terms).bytes.length = payloadLen terms.length terms.flatten.length := by
  have hterms : (ofTerms profile terms).terms = terms.flatten := rfl
  rw [bytes, List.length_append, List.length_append, List.length_append, length_bytesU32,
    length_bytesU32, length_offsets, hterms, payloadLen]
  omega

/-! ### The table -/

theorem run_u32 {rest : List UInt8} (hn : n < u32Limit)
    (hlen : (bytesU32 n ++ rest).length < usizeLimit) : run u32 (bytesU32 n ++ rest) = .ok n := by
  have hf : (new (bytesU32 n ++ rest)).Fits := by
    unfold Reader.Fits new
    simp only
    omega
  have hp : Past (new (bytesU32 n ++ rest)) (bytesU32 n) ⟨rest, 4⟩ := ⟨rfl, rfl⟩
  rw [run, u32_past hf hn hp]

/-- An offset is the field at its place in the table. -/
theorem of_offset (h : d.offset i = .ok o) :
    d.offsets.drop (i * 4) = bytesU32 o ++ d.offsets.drop ((i + 1) * 4) ∧ o < u32Limit := by
  rw [offset] at h
  split_ifs at h
  rcases hr : u32 (new (d.offsets.drop (i * 4))) with ⟨e | v, r⟩
  · rw [run, hr] at h
    cases h
  rw [run, hr] at h
  cases h
  obtain ⟨ho, hp⟩ := past_of_u32 hr
  have hrest : d.offsets.drop (i * 4) = bytesU32 o ++ r.rest := hp.rest
  refine ⟨?_, ho⟩
  rw [Nat.succ_mul, ← List.drop_drop, hrest, List.drop_left' length_bytesU32]

theorem offset_ofTerms (hi : i ≤ terms.length)
    (hu32 : payloadLen terms.length terms.flatten.length < u32Limit) :
    (ofTerms profile terms).offset i = .ok (terms.take i).flatten.length := by
  have hlimit : u32Limit < usizeLimit := by decide
  have hle := length_take_flatten_le terms i
  have hlen := @length_offsets profile terms
  rw [payloadLen] at hu32
  have hb : i < (bounds 0 terms).length := by
    rw [length_bounds]
    omega
  have hfield := List.drop_eq_getElem_cons hb
  have htable : (ofTerms profile terms).offsets.drop (i * 4) =
      bytesU32 (terms.take i).flatten.length ++ ((bounds 0 terms).drop (i + 1)).flatMap
        bytesU32 := by
    have hget := getElem_bounds hb
    rw [Nat.zero_add] at hget
    rw [ofTerms, drop_flatMap_const fun _ => length_bytesU32, hfield, List.flatMap_cons, hget]
  rw [offset, if_neg (by omega), if_neg (by omega), htable]
  refine run_u32 (by omega) ?_
  rw [← htable, List.length_drop]
  omega

theorem term_ofTerms (hi : i < terms.length) (hutf8 : utf8 terms[i] = true)
    (hu32 : payloadLen terms.length terms.flatten.length < u32Limit) :
    (ofTerms profile terms).term i = .ok terms[i] := by
  have hstop := length_take_succ_flatten hi
  have hle := length_take_flatten_le terms (i + 1)
  have hterms : (ofTerms profile terms).terms = terms.flatten := rfl
  have hlen : (terms.take (i + 1)).flatten.length - (terms.take i).flatten.length =
      terms[i].length := by omega
  have hcount : ¬ (ofTerms profile terms).count ≤ i := Nat.not_le.2 hi
  have hnext : (ofTerms profile terms).offset (i + 1) = .ok (terms.take (i + 1)).flatten.length :=
    offset_ofTerms hi hu32
  rw [term, if_neg hcount, offset_ofTerms (Nat.le_of_lt hi) hu32, ok_bind, hnext, ok_bind,
    if_pos ⟨by omega, hle⟩, hlen, hterms, slice_flatten hi, if_pos hutf8]

/-- A term lies between two offsets. -/
theorem of_term (h : d.term i = .ok t) : i < d.count ∧ utf8 t = true ∧ ∃ start stop,
    d.offset i = .ok start ∧ d.offset (i + 1) = .ok stop ∧ start ≤ stop ∧ stop ≤ d.terms.length ∧
      d.terms.drop start = t ++ d.terms.drop stop ∧ stop = start + t.length := by
  rw [term] at h
  split_ifs at h with hi
  obtain ⟨start, hstart, h⟩ := ok_of_bind h
  obtain ⟨stop, hstop, h⟩ := ok_of_bind h
  split_ifs at h with hle hutf8
  cases h
  refine ⟨Nat.not_le.1 hi, hutf8, start, stop, hstart, hstop, hle.1, hle.2, ?_, ?_⟩
  · have hdrop : d.terms.drop stop = (d.terms.drop start).drop (stop - start) := by
      rw [List.drop_drop, Nat.add_sub_cancel' hle.1]
    rw [hdrop, List.take_append_drop]
  · rw [List.length_take, List.length_drop]
    omega

/-! ### The checks -/

theorem check_ok (ht : ∀ j (hj : j < terms.length), d.term (i + j) = .ok terms[j])
    (hfits : ∀ t ∈ terms, TermFits maxTermBytes t) (hs : (previous :: terms).IsChain (· < ·)) :
    d.check maxTermBytes terms.length i previous = .ok ⟨⟩ := by
  induction terms generalizing i previous with
  | nil => rfl
  | cons t terms ih =>
    obtain ⟨hlt, hs⟩ := List.isChain_cons_cons.1 hs
    obtain ⟨hne, hlen, -⟩ := hfits t List.mem_cons_self
    have h₀ : d.term i = .ok t := ht 0 (Nat.succ_pos _)
    have hbad : ¬ (t = [] ∨ maxTermBytes < t.length) := fun h =>
      h.elim hne (Nat.not_lt.2 hlen)
    rw [List.length_cons, check, h₀, ok_bind, if_neg hbad, if_neg (not_not.2 hlt)]
    refine ih (fun j hj => ?_) (fun u hu => hfits u (List.mem_cons_of_mem _ hu)) hs
    have hj' := ht (j + 1) (Nat.succ_lt_succ hj)
    rwa [← Nat.add_assoc, Nat.add_right_comm] at hj'

/-- The checked terms from `i` on: together they are the rest of the text, and the rest of the
table are their bounds. -/
theorem of_check (hn : i + n = d.count) (hlen : d.offsets.length = (d.count + 1) * 4)
    (ho : d.offset i = .ok o) (hlast : d.offset d.count = .ok d.terms.length)
    (h : d.check maxTermBytes n i previous = .ok ⟨⟩) : ∃ terms : List Text, terms.length = n ∧
      d.terms.drop o = terms.flatten ∧ d.offsets.drop (i * 4) = (bounds o terms).flatMap bytesU32 ∧
      (previous :: terms).IsChain (· < ·) ∧ (∀ t ∈ terms, TermFits maxTermBytes t) ∧
      ∀ j (hj : j < terms.length), d.term (i + j) = .ok terms[j] := by
  obtain ⟨htable, -⟩ := of_offset ho
  induction n generalizing i previous o with
  | zero =>
    -- the last offset is the end of the text
    have hi : i = d.count := hn
    subst hi
    rw [hlast] at ho
    cases ho
    refine ⟨[], rfl, List.drop_length, ?_, .singleton _, nofun, nofun⟩
    rw [htable, List.drop_eq_nil_of_le (Nat.le_of_eq hlen)]
    rfl
  | succ n ih =>
    obtain ⟨t, ht, h⟩ := ok_of_bind h
    split_ifs at h with hbad horder
    obtain ⟨-, hutf8, start, stop, hstart, hstop, -, -, hdrop, hstop'⟩ := of_term ht
    have hsame : start = o := Except.ok.inj (hstart.symm.trans ho)
    subst hsame
    obtain ⟨htable', -⟩ := of_offset hstop
    obtain ⟨terms, hcount, htext, hrest, hs, hfits, hterm⟩ := ih (by omega) hstop h htable'
    obtain ⟨hne, hle⟩ := not_or.1 hbad
    refine ⟨t :: terms, by rw [List.length_cons, hcount], ?_, ?_,
      List.isChain_cons_cons.2 ⟨horder, hs⟩, fun u hu => ?_, fun j hj => ?_⟩
    · rw [List.flatten_cons, hdrop, htext]
    · rw [bounds, List.flatMap_cons, htable, hrest, hstop']
    · rcases List.mem_cons.1 hu with rfl | hu
      · exact ⟨hne, Nat.not_lt.1 hle, hutf8⟩
      · exact hfits u hu
    · cases j with
      | zero => exact ht
      | succ j =>
        have hj' := hterm j (Nat.lt_of_succ_lt_succ hj)
        rwa [Nat.add_right_comm, Nat.add_assoc] at hj'

/-- The empty text stands before the first term. -/
theorem isChain_nil_iff (h : ∀ t ∈ terms, TermFits maxTermBytes t) :
    (([] : Text) :: terms).IsChain (· < ·) ↔ terms.Pairwise (· < ·) := by
  rw [List.isChain_iff_pairwise, List.pairwise_cons]
  refine ⟨And.right, fun hs => ⟨fun t ht => ?_, hs⟩⟩
  cases t with
  | nil => exact absurd rfl (h _ ht).1
  | cons b t => exact List.nil_lt_cons b t

theorem measured_ok (hfits : ∀ t ∈ terms, TermFits maxTermBytes t)
    (hs : (previous :: terms).IsChain (· < ·)) (hlimit : n + terms.flatten.length < usizeLimit) :
    measured maxTermBytes n previous terms = .ok (n + terms.flatten.length) := by
  induction terms generalizing n previous with
  | nil => rfl
  | cons t terms ih =>
    obtain ⟨hlt, hs⟩ := List.isChain_cons_cons.1 hs
    obtain ⟨hne, hlen, -⟩ := hfits t List.mem_cons_self
    have hbad : ¬ (t = [] ∨ maxTermBytes < t.length) := fun h =>
      h.elim hne (Nat.not_lt.2 hlen)
    rw [List.flatten_cons, List.length_append, ← Nat.add_assoc] at hlimit ⊢
    rw [measured, if_neg hbad, if_neg (not_not.2 hlt), if_neg (by omega)]
    exact ih (fun u hu => hfits u (List.mem_cons_of_mem _ hu)) hs hlimit

/-! ### Records -/

theorem bounds_eq : bounds start terms = start :: (bounds start terms).tail := by
  cases terms <;> rfl

theorem writes_offsets : Writer.Writes (writeOffsets start terms)
    ((bounds start terms).tail.flatMap bytesU32) := by
  induction terms generalizing start with
  | nil => exact Writer.Writes.nil
  | cons t terms ih =>
    rw [bounds, List.tail_cons, bounds_eq, List.flatMap_cons]
    exact Writer.Writes.put.bind ih

theorem writes_terms : Writer.Writes (writeTerms terms) terms.flatten := by
  induction terms with
  | nil => exact Writer.Writes.nil
  | cons t terms ih => exact Writer.Writes.put.bind ih

theorem lists_ofTerms (h : Fits limits profile terms) : (ofTerms profile terms).Lists terms :=
  ⟨rfl, fun _ hi => term_ofTerms hi (h.term _ (List.getElem_mem hi)).2.2 h.u32⟩

theorem encodes (h : Fits limits profile terms) : Writer.Encodes (encode limits) (profile, terms)
    (Records.record 3 (ofTerms profile terms).bytes) := by
  have hlimit : u32Limit + Records.headerBytes < usizeLimit := by decide
  have hu32 := h.u32
  have hlen := @length_bytes profile terms
  refine ⟨Records.length_record_lt (by omega), fun output hroom hf => ?_⟩
  have hbytes : (ofTerms profile terms).bytes = bytesU32 profile ++ (bytesU32 terms.length ++
      (bytesU32 0 ++ ((bounds 0 terms).tail.flatMap bytesU32 ++ terms.flatten))) := by
    rw [← List.append_assoc (bytesU32 0), ← List.flatMap_cons, ← bounds_eq]
    rfl
  have hwrites := @Records.writes_start 3 (ofTerms profile terms).bytes
    (do Writer.u32 profile; Writer.u32 terms.length; Writer.u32 0; writeOffsets 0 terms
        writeTerms terms)
    (by rw [hbytes]; exact Writer.Writes.put.bind (Writer.Writes.put.bind
      (Writer.Writes.put.bind (writes_offsets.bind writes_terms)))) (by omega)
  rw [hlen] at hwrites
  have htotal : payloadLen terms.length terms.flatten.length < usizeLimit := by omega
  have hheader : payloadLen terms.length terms.flatten.length + Records.headerBytes <
      usizeLimit := by
    omega
  have hcount : terms.length < u32Limit := by
    rw [payloadLen] at hu32
    omega
  have hdata : terms.flatten.length < u32Limit := by
    rw [payloadLen] at hu32
    omega
  have hmeasured : measured limits.maxTermBytes 0 [] terms = .ok terms.flatten.length := by
    rw [measured_ok h.term ((isChain_nil_iff h.term).2 h.sorted) (by omega), Nat.zero_add]
  unfold encode
  refine Writer.Writes.onto ?_ hroom hf
  refine Writer.Writes.ensure h.profile.1 (Writer.Writes.ensure hcount
    (Writer.Writes.ensure h.count (Writer.Writes.ofExcept hmeasured ?_)))
  exact Writer.Writes.ensure hdata (Writer.Writes.ensure htotal
    (Writer.Writes.ensure ⟨hheader, h.limit⟩ hwrites))

theorem run_view (h : Fits limits profile terms) :
    run (view limits) (ofTerms profile terms).bytes = .ok (ofTerms profile terms) := by
  have hu32 := h.u32
  have hlimit : u32Limit < usizeLimit := by decide
  have hlen := @length_bytes profile terms
  have htable := @length_offsets profile terms
  have hcount : (terms.length + 1) * 4 < u32Limit := by
    rw [payloadLen] at hu32
    omega
  generalize hd : ofTerms profile terms = d at hlen htable ⊢
  have hprofile : d.profile = profile := by rw [← hd]; rfl
  have hterms : d.count = terms.length := by rw [← hd]; rfl
  have hf : (new d.bytes).Fits := by
    unfold Reader.Fits new
    simp only
    omega
  have p₁ : Past (new d.bytes) (bytesU32 d.profile)
      ⟨bytesU32 d.count ++ (d.offsets ++ d.terms), 4⟩ :=
    ⟨rfl, rfl⟩
  have p₂ : Past ⟨bytesU32 d.count ++ (d.offsets ++ d.terms), 4⟩ (bytesU32 d.count)
      ⟨d.offsets ++ d.terms, 8⟩ := ⟨rfl, rfl⟩
  have p₃ : Past ⟨d.offsets ++ d.terms, 8⟩ d.offsets ⟨d.terms, 8 + d.offsets.length⟩ := ⟨rfl, rfl⟩
  have hoffsets := take_past (p₂.fits (p₁.fits hf)) p₃
  rw [htable, ← hterms] at hoffsets
  have hrest : Reader.Fits ⟨d.terms, 8 + (d.count + 1) * 4⟩ := by
    have := p₃.fits (p₂.fits (p₁.fits hf))
    rwa [htable, ← hterms] at this
  rw [← hterms] at hcount
  unfold run view
  rw [Read.ok_bind (u32_past hf (by rw [hprofile]; exact h.profile.2) p₁),
    Read.ensure_bind (by rw [hprofile]; exact h.profile.1),
    Read.ok_bind (u32_past (p₁.fits hf) (by omega) p₂),
    Read.ensure_bind (by rw [hterms]; exact h.count), Read.ensure_bind (by omega),
    Read.ok_bind hoffsets, Read.cursor_bind, Read.ok_bind (take_rest hrest)]
  rfl

theorem parse_bytes (h : Fits limits profile terms) :
    parse (Records.record 3 (ofTerms profile terms).bytes) limits =
      .ok (ofTerms profile terms) := by
  have hu32 := h.u32
  have hlimit : u32Limit < usizeLimit := by decide
  have hlen := @length_bytes profile terms
  have hmax : (Records.record 3 (ofTerms profile terms).bytes).length ≤ limits.maxBytes := by
    rw [Records.length_record, hlen, Nat.add_comm]
    exact h.limit
  have hview : run (view limits) (ofTerms profile terms).bytes = .ok (ofTerms profile terms) :=
    run_view h
  have hends : (ofTerms profile terms).ends = .ok ⟨⟩ := by
    have hlast : (ofTerms profile terms).offset (ofTerms profile terms).count =
        .ok (ofTerms profile terms).terms.length := by
      have := @offset_ofTerms profile terms.length terms (Nat.le_refl _) hu32
      rwa [List.take_length] at this
    have hfirst : (ofTerms profile terms).offset 0 = .ok 0 := offset_ofTerms (Nat.zero_le _) hu32
    rw [ends, hfirst, ok_bind, if_neg (not_not.2 rfl), hlast, ok_bind, if_neg (not_not.2 rfl)]
  have hcheck : (ofTerms profile terms).check limits.maxTermBytes (ofTerms profile terms).count 0
      [] = .ok ⟨⟩ := by
    refine check_ok (fun j hj => ?_) h.term ((isChain_nil_iff h.term).2 h.sorted)
    rw [Nat.zero_add]
    exact (lists_ofTerms h).term j hj
  rw [parse, Records.payload_record (by decide) (by omega) hmax, ok_bind, hview, ok_bind, hends,
    ok_bind, hcheck]
  rfl

theorem of_ends (h : d.ends = .ok ⟨⟩) :
    d.offset 0 = .ok 0 ∧ d.offset d.count = .ok d.terms.length := by
  rw [ends] at h
  obtain ⟨first, hfirst, h⟩ := ok_of_bind h
  split_ifs at h with h₀
  obtain ⟨last, hlast, h⟩ := ok_of_bind h
  split_ifs at h with h₁
  have h₀' : first = 0 := not_not.1 h₀
  have h₁' : last = d.terms.length := not_not.1 h₁
  exact ⟨by rw [hfirst, h₀'], by rw [hlast, h₁']⟩

/-- Only encodings of ordered terms are accepted. -/
theorem of_parse {data : List UInt8} (h : parse data limits = .ok d) :
    ∃ terms, d = ofTerms d.profile terms ∧ Fits limits d.profile terms ∧
      data = Records.record 3 d.bytes := by
  obtain ⟨p, hp, h⟩ := ok_of_bind h
  obtain ⟨d', hd, h⟩ := ok_of_bind h
  obtain ⟨_, hends, h⟩ := ok_of_bind h
  obtain ⟨_, hcheck, h⟩ := ok_of_bind h
  cases h
  obtain ⟨hdata, hu32, -, hmax⟩ := Records.of_payload hp
  rcases hr : view limits (new p) with ⟨_ | v, r⟩
  · rw [run, hr] at hd
    cases hd
  rw [run, hr] at hd
  cases hd
  obtain ⟨profile, r₁, hprofile, hr⟩ := Read.of_bind hr
  obtain ⟨hne, hr⟩ := Read.of_ensure_bind hr
  obtain ⟨count, r₂, hcount, hr⟩ := Read.of_bind hr
  obtain ⟨hterms, hr⟩ := Read.of_ensure_bind hr
  obtain ⟨-, hr⟩ := Read.of_ensure_bind hr
  obtain ⟨offsets, r₃, hoffsets, hr⟩ := Read.of_bind hr
  rw [Read.cursor_bind] at hr
  obtain ⟨text, r₄, htext, hr⟩ := Read.of_bind hr
  cases hr
  obtain ⟨hprofile, p₁⟩ := past_of_u32 hprofile
  obtain ⟨-, p₂⟩ := past_of_u32 hcount
  obtain ⟨hlen, p₃⟩ := past_of_take hoffsets
  obtain ⟨p₄, hnil⟩ := of_take_rest htext
  have hall := (p₁.append (p₂.append (p₃.append p₄))).all hnil
  obtain ⟨hfirst, hlast⟩ := of_ends hends
  obtain ⟨terms, hn, htext', htable, hs, hfits, -⟩ :=
    of_check (Nat.zero_add count) hlen hfirst hlast hcheck
  simp only [List.drop_zero, Nat.zero_mul] at htext' htable
  have hn' : terms.length = count := hn
  -- the record holds the dictionary of the terms
  have hd : (⟨profile, offsets, text, count⟩ : Dictionary) = ofTerms profile terms := by
    rw [htext', htable, ← hn']
    rfl
  have hp : p = (ofTerms profile terms).bytes := by
    rw [hall, ← hd]
    rfl
  rw [hp, length_bytes] at hu32
  rw [hdata, Records.length_record, hp, length_bytes, Nat.add_comm] at hmax
  refine ⟨terms, hd, ⟨⟨hne, hprofile⟩, (isChain_nil_iff hfits).1 hs, hfits, ?_, hmax, hu32⟩, ?_⟩
  · rw [hn']
    exact hterms
  · rw [hdata, hp, hd]

/-! ### Searching -/

/-- The terms before the lower bound are those before the text. -/
theorem lt_lowerBound_iff (hs : terms.Pairwise (· < ·)) (t : Text) (hi : i < terms.length) :
    i < (terms.takeWhile fun u => decide (u < t)).length ↔ terms[i] < t := by
  have hbefore : terms.Pairwise fun a b => decide (b < t) = true → decide (a < t) = true :=
    hs.imp fun hab hb => decide_eq_true (List.lt_trans hab (of_decide_eq_true hb))
  have hiff := lt_length_takeWhile hbefore hi
  rwa [decide_eq_true_eq] at hiff

theorem lowerBound_eq (hl : d.Lists terms) (hs : terms.Pairwise (· < ·)) (t : Text) :
    d.lowerBound t = .ok (terms.takeWhile fun u => decide (u < t)).length := by
  have hle : (terms.takeWhile fun u => decide (u < t)).length ≤ terms.length :=
    (List.takeWhile_sublist _).length_le
  refine probeFrom_ok (fun j _ hj => ?_) (Nat.zero_le _) (by rw [hl.count]; exact hle)
    (Nat.sub_le _ _)
  have hj' : j < terms.length := by
    rw [← hl.count]
    exact hj
  rw [hl.term j hj', ok_bind]
  simp only [lt_lowerBound_iff hs t hj']

/-- A lookup finds the term with its index. -/
theorem lookup_iff (hl : d.Lists terms) (hs : terms.Pairwise (· < ·)) (t : Text) :
    ∃ found, d.lookup t = .ok found ∧ ∀ i, found = some i ↔ terms[i]? = some t := by
  have hbound := lowerBound_eq hl hs t
  have hiff := fun i (hi : i < terms.length) => lt_lowerBound_iff hs t hi
  generalize (terms.takeWhile fun u => decide (u < t)).length = bound at hbound hiff
  -- the text can only be at the bound
  have hat : ∀ i, terms[i]? = some t → i = bound := by
    intro i hi
    obtain ⟨hlt, rfl⟩ := List.getElem?_eq_some_iff.1 hi
    have hge : ¬ i < bound := fun h => List.lt_irrefl _ ((hiff i hlt).1 h)
    rcases Nat.lt_or_ge bound i with hb | hb
    · have hbl : bound < terms.length := Nat.lt_trans hb hlt
      have hbt : terms[bound] < terms[i] := List.pairwise_iff_getElem.1 hs bound i hbl hlt hb
      exact absurd ((hiff bound hbl).2 hbt) (Nat.lt_irrefl _)
    · omega
  rw [lookup, hbound, ok_bind]
  by_cases hb : bound < terms.length
  · rw [if_pos (by rw [hl.count]; exact hb), hl.term bound hb, ok_bind]
    by_cases heq : terms[bound] = t
    · refine ⟨some bound, if_pos heq, fun i => ⟨fun h => ?_, fun h => by rw [hat i h]⟩⟩
      cases h
      rw [List.getElem?_eq_getElem hb, heq]
    · refine ⟨none, if_neg heq, fun i => ⟨nofun, fun h => ?_⟩⟩
      have hi := hat i h
      subst hi
      rw [List.getElem?_eq_getElem hb] at h
      exact absurd (Option.some.inj h) heq
  · rw [if_neg (by rw [hl.count]; exact hb)]
    refine ⟨none, rfl, fun i => ⟨nofun, fun h => ?_⟩⟩
    have hi := hat i h
    subst hi
    exact absurd (List.getElem?_eq_some_iff.1 h).1 hb

/-- A prefix query finds the interval of the terms that start with the text. -/
theorem prefixRange_eq (hl : d.Lists terms) (hs : terms.Pairwise (· < ·)) (t : Text)
    (maxExpanded : ℕ) : ∃ first low, first ≤ low ∧ low ≤ terms.length ∧
      (∀ i (hi : i < terms.length), t <+: terms[i] ↔ first ≤ i ∧ i < low) ∧
      d.prefixRange t maxExpanded =
        if maxExpanded < low - first then .error (.codecAt 0 .limitExceeded)
        else .ok (first, low) := by
  have hbound := lowerBound_eq hl hs t
  have hiff := fun i (hi : i < terms.length) => lt_lowerBound_iff hs t hi
  have hle : (terms.takeWhile fun u => decide (u < t)).length ≤ terms.length :=
    (List.takeWhile_sublist _).length_le
  generalize (terms.takeWhile fun u => decide (u < t)).length = first at hbound hiff hle
  -- from the first search on, the terms with the prefix come before those without it
  have hordered : (terms.drop first).Pairwise fun a b =>
      t.isPrefixOf b = true → t.isPrefixOf a = true := by
    refine List.Pairwise.imp_of_mem (fun {a b} ha _ hab hb => ?_)
      (hs.sublist (List.drop_sublist _ _))
    rw [List.isPrefixOf_iff_prefix] at hb ⊢
    refine prefix_of_between (fun hlt => ?_) hab hb
    obtain ⟨j, hj, rfl⟩ := List.getElem_of_mem ha
    rw [List.getElem_drop] at hlt
    rw [List.length_drop] at hj
    have := (hiff (first + j) (by omega)).2 hlt
    omega
  have hcount : ((terms.drop first).takeWhile t.isPrefixOf).length ≤ terms.length - first := by
    rw [← List.length_drop]
    exact (List.takeWhile_sublist _).length_le
  have hrun := fun j (hj : j < (terms.drop first).length) => lt_length_takeWhile hordered hj
  generalize ((terms.drop first).takeWhile t.isPrefixOf).length = count at hcount hrun
  have hafter : ∀ i (hi : i < terms.length), first ≤ i →
      (t.isPrefixOf terms[i] = true ↔ i < first + count) := by
    intro i hi hfirst
    have hget := hrun (i - first) (by rw [List.length_drop]; omega)
    simp only [List.getElem_drop, Nat.add_sub_cancel' hfirst] at hget
    rw [← hget]
    omega
  have hsearch : probeFrom (fun middle => do
      let found ← d.term middle
      .ok (t.isPrefixOf found)) d.count first d.count = .ok (first + count) := by
    refine probeFrom_ok (fun j hj hjc => ?_) (Nat.le_add_right _ _) (by rw [hl.count]; omega)
      (Nat.sub_le _ _)
    have hj' : j < terms.length := by
      rw [← hl.count]
      exact hjc
    rw [hl.term j hj', ok_bind, Except.ok.injEq, Bool.eq_iff_iff, decide_eq_true_eq]
    exact hafter j hj' hj
  refine ⟨first, first + count, Nat.le_add_right _ _, by omega, fun i hi => ?_, ?_⟩
  · rw [← List.isPrefixOf_iff_prefix]
    constructor
    · intro h
      have hfirst : first ≤ i := Nat.not_lt.1 fun hlt =>
        not_lt_of_prefix (List.isPrefixOf_iff_prefix.1 h) ((hiff i hi).1 hlt)
      exact ⟨hfirst, (hafter i hi hfirst).1 h⟩
    · rintro ⟨hfirst, hlt⟩
      exact (hafter i hi hfirst).2 hlt
  · rw [prefixRange, hbound, ok_bind, hsearch, ok_bind]

/-- **A dictionary is its profile and terms.**  Ordered terms within the limits are parsed back from
their encoding, and what is parsed is the encoding of its terms.  In a parsed dictionary a lookup
returns the index of a text exactly if it is a term, and a prefix query the interval of exactly
those indices whose terms start with the text, or the error of an interval that is too long. -/
theorem dictionary_exact (limits : DictionaryLimits) :
    (∀ profile terms, Fits limits profile terms → ∃ data d,
      Writer.Encodes (encode limits) (profile, terms) data ∧ parse data limits = .ok d ∧
        d.profile = profile ∧ d.Lists terms) ∧
    ∀ data d, parse data limits = .ok d → ∃ terms, d.Lists terms ∧ Fits limits d.profile terms ∧
      Writer.Encodes (encode limits) (d.profile, terms) data ∧
      (∀ t, ∃ found, d.lookup t = .ok found ∧ ∀ i, found = some i ↔ terms[i]? = some t) ∧
      ∀ t maxExpanded, ∃ first low, first ≤ low ∧ low ≤ terms.length ∧
        (∀ i (hi : i < terms.length), t <+: terms[i] ↔ first ≤ i ∧ i < low) ∧
        d.prefixRange t maxExpanded =
          if maxExpanded < low - first then .error (.codecAt 0 .limitExceeded)
          else .ok (first, low) := by
  refine ⟨fun profile terms h => ?_, fun data d h => ?_⟩
  · exact ⟨_, _, encodes h, parse_bytes h, rfl, lists_ofTerms h⟩
  · obtain ⟨terms, hd, hfits, rfl⟩ := of_parse h
    have hl : d.Lists terms := by
      rw [hd]
      exact lists_ofTerms hfits
    have henc := encodes hfits
    rw [← hd] at henc
    exact ⟨terms, hl, hfits, henc, lookup_iff hl hfits.sorted, prefixRange_eq hl hfits.sorted⟩

/-- Two terms. -/
theorem dictionary_exact_two : ∃ data d,
    Writer.Encodes (encode ⟨100, 10, 10⟩) (1, [[97], [97, 98]]) data ∧
      parse data ⟨100, 10, 10⟩ = .ok d ∧ d.profile = 1 ∧ d.Lists [[97], [97, 98]] :=
  (dictionary_exact ⟨100, 10, 10⟩).1 1 [[97], [97, 98]]
    ⟨by decide, by decide, by simp only [List.forall_mem_cons, TermFits]; decide, by decide,
      by decide, by decide⟩

end

end Dictionary

end PinCore
