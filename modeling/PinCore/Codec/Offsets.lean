import PinCore.Codec.Format
import PinCore.Lib.Iterate
import PinCore.Lib.Runs
import PinCore.Lib.Words

/-!
# Offset sets

Sets of heap offsets in eight words, and their three encodings: a list, a bitmap up to the domain
and runs.  What the parser accepts is exactly what the encoder writes for the parsed set in the
encoding of the tag (`OffsetSet.offsets_exact`).
-/

namespace PinCore

open Reader

/-- The three encodings of a set of offsets. -/
inductive Encoding where
  | sparse
  | bitmap
  | runs
  deriving DecidableEq, Repr

/-- The tag of an encoding. -/
def Encoding.tag : Encoding → ℕ
  | .sparse => 0
  | .bitmap => 1
  | .runs => 2

/-- A set of offsets below 513 in eight words of 64 bits; the domain is the largest offset that the
layout allows. -/
structure OffsetSet where
  words : List ℕ
  domain : ℕ
  deriving DecidableEq, Repr

/-- The index of a word, its bits that are not visited yet, and the words behind it. -/
structure OffsetIter where
  word : ℕ
  pending : ℕ
  rest : List ℕ

namespace OffsetIter

/-- The lowest bit that is not visited yet. -/
def found (word pending : ℕ) (rest : List ℕ) : Option ℕ × OffsetIter :=
  (some (word * 64 + trailingZeros 64 pending + 1), ⟨word, pending &&& (pending - 1), rest⟩)

/-- Words without bits are skipped. -/
def nextFrom : ℕ → ℕ → List ℕ → Option ℕ × OffsetIter
  | word, pending, [] =>
    if pending = 0 then (none, ⟨word + 1, 0, []⟩) else found word pending []
  | word, pending, w :: ws =>
    if pending = 0 then nextFrom (word + 1) w ws else found word pending (w :: ws)

/-- The next offset of the iterator. -/
def next (it : OffsetIter) : Option ℕ × OffsetIter := nextFrom it.word it.pending it.rest

end OffsetIter

namespace OffsetSet

/-- The empty set over the offsets of a layout. -/
def new (layout : HeapLayout) : OffsetSet := ⟨List.replicate 8 0, layout.maxOffset⟩

/-- The number of offsets. -/
def len (s : OffsetSet) : ℕ := (s.words.map (popCount 64)).sum

/-- No offset is in the set. -/
def isEmpty (s : OffsetSet) : Bool := s.words.all fun word => word = 0

/-- The offset is in the set; offsets outside of the domain never are. -/
def contains (s : OffsetSet) (offset : ℕ) : Bool :=
  if offset = 0 ∨ s.domain < offset then false
  else decide (s.words.getD ((offset - 1) / 64) 0 &&& 1 <<< ((offset - 1) % 64) ≠ 0)

/-- Rejects offsets outside of the domain; also tells whether the offset is new. -/
def insert (s : OffsetSet) (offset : ℕ) : Except Error (Bool × OffsetSet) :=
  if offset = 0 ∨ s.domain < offset then .error (.codecAt 0 .invalidValue)
  else
    let bit := offset - 1
    let mask := 1 <<< (bit % 64)
    .ok (decide (s.words.getD (bit / 64) 0 &&& mask = 0),
      { s with words := s.words.modify (bit / 64) (· ||| mask) })

/-- The iterator over the offsets in ascending order. -/
def iter (s : OffsetSet) : OffsetIter := ⟨0, s.words.headD 0, s.words.tail⟩

/-- The items of the iterator; eight words have no more than 512 bits. -/
def offsets (s : OffsetSet) : List ℕ := Iterate.items OffsetIter.next 512 s.iter

/-- Combines two sets over one domain word by word. -/
def combine (s other : OffsetSet) (op : ℕ → ℕ → ℕ) : Except Error OffsetSet :=
  if s.domain ≠ other.domain then .error (.codecAt 0 .invalidValue)
  else .ok { s with words := List.zipWith op s.words other.words }

/-- The offsets in both sets. -/
def intersection (s other : OffsetSet) : Except Error OffsetSet :=
  s.combine other fun left right => left &&& right

/-- The offsets in one of the sets. -/
def union (s other : OffsetSet) : Except Error OffsetSet :=
  s.combine other fun left right => left ||| right

/-- The offsets in the first set only. -/
def difference (s other : OffsetSet) : Except Error OffsetSet :=
  s.combine other fun left right => left &&& notBits 64 right

/-! ### Sizes -/

/-- Set bits whose predecessor is clear, also across words. -/
def runCountFrom : ℕ → List ℕ → ℕ
  | _, [] => 0
  | carry, word :: words =>
    popCount 64 (word &&& notBits 64 (word <<< 1 % 2 ^ 64 ||| carry)) +
      runCountFrom (word >>> 63) words

/-- The number of maximal runs. -/
def runCount (s : OffsetSet) : ℕ := runCountFrom 0 s.words

/-- The length of an encoding with its header. -/
def encodedLen (s : OffsetSet) : Encoding → ℕ
  | .sparse => 6 + s.len * 2
  | .bitmap => 6 + (s.domain + 7) / 8
  | .runs => 8 + s.runCount * 4

/-- Ties prefer sparse, then bitmap, then runs. -/
def preferredEncoding (s : OffsetSet) : Encoding :=
  if s.encodedLen .sparse ≤ s.encodedLen .bitmap ∧ s.encodedLen .sparse ≤ s.encodedLen .runs then
    .sparse
  else if s.encodedLen .bitmap ≤ s.encodedLen .runs then .bitmap
  else .runs

/-! ### The encoder -/

/-- Writes item after item. -/
def writeEach (f : ℕ → Writer.Emit) : List ℕ → Writer.Emit
  | [] => pure ⟨⟩
  | a :: as => do
    f a
    writeEach f as

/-- The byte of the bitmap with this index. -/
def byteAt (s : OffsetSet) (byte : ℕ) : ℕ := s.words.getD (byte / 8) 0 >>> (byte % 8 * 8) % 256

/-- The runs from one that goes from `start` to `last` so far; the inner loop of the source, which
extends a run, and the outer one are the two branches. -/
def writeRunsFrom (start last : ℕ) : List ℕ → Writer.Emit
  | [] => do
    Writer.u16 start
    Writer.u16 (last - start + 1)
  | o :: os =>
    if o = last + 1 then writeRunsFrom start o os
    else do
      Writer.u16 start
      Writer.u16 (last - start + 1)
      writeRunsFrom o o os

/-- Writes the runs of ascending offsets. -/
def writeRuns : List ℕ → Writer.Emit
  | [] => pure ⟨⟩
  | start :: os => writeRunsFrom start start os

/-- Writes the set behind its header. -/
def writeBody (s : OffsetSet) : Encoding → Writer.Emit
  | .sparse => writeEach Writer.u16 s.offsets
  | .bitmap => writeEach (fun byte => Writer.u8 (s.byteAt byte)) (List.range ((s.domain + 7) / 8))
  | .runs => do
    Writer.u16 s.runCount
    writeRuns s.offsets

/-- Writes the set in a given encoding; a buffer that is too short stays as it was. -/
def encodeAs (encoding : Encoding) (s : OffsetSet) (output : List UInt8) :
    Except Error ℕ × List UInt8 :=
  if output.length < s.encodedLen encoding then (.error (.codecAt 0 .truncated), output)
  else Writer.onto output do
    Writer.u16 s.domain
    Writer.u16 s.len
    Writer.u8 encoding.tag
    Writer.u8 0
    s.writeBody encoding

/-- Writes the set in the shortest encoding. -/
def encode (s : OffsetSet) (output : List UInt8) : Except Error ℕ × List UInt8 :=
  encodeAs s.preferredEncoding s output

/-! ### The parser -/

/-- Reads ascending offsets into the set. -/
def parseSparse : ℕ → ℕ → OffsetSet → Parse OffsetSet
  | 0, _, s => return s
  | n + 1, previous, s => do
    let offset ← u16
    let position ← position
    Read.ensure (¬ offset ≤ previous) (.codecAt (position - 2) .invalidOrder)
    let (_, s) ← Read.ofExcept (s.insert offset)
    parseSparse n offset s

/-- The bytes of a bitmap from `index` on go to their places in the words. -/
def orBytes : ℕ → List UInt8 → List ℕ → List ℕ
  | _, [], words => words
  | index, byte :: bytes, words =>
    orBytes (index + 1) bytes (words.modify (index / 8) (· ||| byte.toNat <<< (index % 8 * 8)))

/-- Reads a bitmap; the bits behind the domain must be clear. -/
def parseBitmap (s : OffsetSet) : Parse OffsetSet := do
  let bytes ← take ((s.domain + 7) / 8)
  let words := orBytes 0 bytes s.words
  let tail := s.domain % 8
  let position ← position
  Read.ensure (¬ (tail ≠ 0 ∧ ∃ byte ∈ bytes.getLast?, byte.toNat >>> tail ≠ 0))
    (.codecAt (position - 1) .nonCanonical)
  return { s with words }

/-- Inserts all offsets. -/
def insertAll : List ℕ → OffsetSet → Except Error OffsetSet
  | [], s => .ok s
  | offset :: os, s => do
    let (_, s) ← s.insert offset
    insertAll os s

/-- Reads the starts and the lengths of ascending runs that do not touch. -/
def parseRuns : ℕ → ℕ → OffsetSet → Parse OffsetSet
  | 0, _, s => return s
  | n + 1, previous, s => do
    let start ← u16
    let len ← u16
    let position ← position
    Read.ensure (¬ (start = 0 ∨ len = 0 ∨ previous ≠ 0 ∧ start ≤ previous + 1))
      (.codecAt (position - 4) .invalidOrder)
    let last := start + (len - 1)
    Read.ensure (last < 65536) (.codecAt (position - 4) .overflow)
    Read.ensure (¬ s.domain < last) (.codecAt (position - 4) .invalidValue)
    let s ← Read.ofExcept (insertAll (List.range' start (last + 1 - start)) s)
    parseRuns n last s

/-- Reads the encoding with the tag. -/
def parseBody (s : OffsetSet) (count : ℕ) : ℕ → Parse OffsetSet
  | 0 => parseSparse count 0 s
  | 1 => parseBitmap s
  | 2 => do
    let runs ← u16
    Read.ensure (¬ count < runs) (.codecAt 6 .invalidValue)
    parseRuns runs 0 s
  | _ => Read.fail (.codecAt 4 .unknownTag)

/-- The set and the count of the header. -/
def content (layout : HeapLayout) : Parse (OffsetSet × ℕ) := do
  let domain ← u16
  Read.ensure (domain = layout.maxOffset) (.codecAt 0 .invalidValue)
  let count ← u16
  Read.ensure (¬ layout.maxOffset < count) (.codecAt 2 .invalidValue)
  let tag ← u8
  let reserved ← u8
  Read.ensure (reserved = 0) (.codecAt 5 .nonCanonical)
  let s ← parseBody (new layout) count tag
  return (s, count)

/-- Rejects invalid cardinality, ordering, reserved bits and bitmap tails. -/
def parse (bytes : List UInt8) (layout : HeapLayout) : Except Error OffsetSet := do
  let (s, count) ← runDone (content layout) bytes
  if s.len ≠ count then .error (.codecAt 2 .invalidValue) else .ok s

/-! ### Offset sets as sets -/

/-- All words as one mask; the offset `i + 1` is bit `i`. -/
def mask (s : OffsetSet) : ℕ := wordsMask 64 s.words

/-- A set over the domain of a layout: eight words without bits behind the domain. -/
structure Ok (s : OffsetSet) (layout : HeapLayout) : Prop where
  domain : s.domain = layout.maxOffset
  length : s.words.length = 8
  lt : ∀ w ∈ s.words, w < 2 ^ 64
  tail : s.mask < 2 ^ s.domain

section

variable {s s' : OffsetSet} {layout : HeapLayout} {offset o i : ℕ} {os ps : List ℕ}

theorem Ok.domain_le (h : s.Ok layout) : s.domain ≤ 512 := by
  rw [h.domain]
  exact layout.le

theorem Ok.testBit_lt (h : s.Ok layout) (hi : s.mask.testBit i = true) : i < layout.maxOffset := by
  rw [← h.domain]
  exact PinCore.testBit_lt h.tail hi

/-- The words of a set are determined by its bits. -/
theorem Ok.ext (h : s.Ok layout) (h' : s'.Ok layout)
    (hbit : ∀ i, s.mask.testBit i = s'.mask.testBit i) : s = s' := by
  obtain ⟨words, domain⟩ := s
  obtain ⟨words', domain'⟩ := s'
  have hwords : words = words' := wordsMask_injective h.lt h'.lt (h.length.trans h'.length.symm)
    (Nat.eq_of_testBit_eq hbit)
  have hdomain : domain = domain' := h.domain.trans h'.domain.symm
  rw [hwords, hdomain]

theorem wordsMask_replicate (n : ℕ) : wordsMask 64 (List.replicate n 0) = 0 := by
  induction n with
  | zero => rfl
  | succ n ih => rw [List.replicate_succ, wordsMask, ih, Nat.mul_zero]

theorem mask_new : (new layout).mask = 0 := wordsMask_replicate 8

theorem ok_new : (new layout).Ok layout where
  domain := rfl
  length := List.length_replicate
  lt := fun w hw => by
    rw [List.eq_of_mem_replicate hw]
    decide
  tail := by
    rw [mask_new]
    exact Nat.two_pow_pos _

/-! ### The iterator -/

/-- The offsets of words from index `k` on. -/
def wordOffsets (k : ℕ) (ws : List ℕ) : List ℕ :=
  (setBits (wordsMask 64 ws) (64 * ws.length)).map (64 * k + · + 1)

theorem wordOffsets_cons {k w : ℕ} {ws : List ℕ} (hw : w < 2 ^ 64) :
    wordOffsets k (w :: ws) = (setBits w 64).map (64 * k + · + 1) ++ wordOffsets (k + 1) ws := by
  rw [wordOffsets, List.length_cons, Nat.mul_succ, Nat.add_comm (64 * ws.length),
    setBits_wordsMask_cons hw, List.map_append, List.map_map, wordOffsets]
  congr 1
  refine List.map_congr_left fun i _ => ?_
  rw [Function.comp_apply]
  omega

theorem wordOffsets_found {k pending : ℕ} {rest : List ℕ} (hp : pending < 2 ^ 64)
    (h0 : pending ≠ 0) : wordOffsets k (pending :: rest) =
      (k * 64 + trailingZeros 64 pending + 1) ::
        wordOffsets k ((pending &&& (pending - 1)) :: rest) := by
  rw [wordOffsets_cons hp, wordOffsets_cons (Nat.lt_of_le_of_lt Nat.and_le_left hp),
    setBits_eq_cons hp h0, List.map_cons, List.cons_append, Nat.mul_comm k 64]

/-- Each call takes the lowest offset that is left. -/
theorem next_cases {k pending : ℕ} {rest : List ℕ} (hp : pending < 2 ^ 64)
    (hrest : ∀ w ∈ rest, w < 2 ^ 64) :
    ((OffsetIter.nextFrom k pending rest).1 = none ∧ wordOffsets k (pending :: rest) = []) ∨
      ∃ o it, OffsetIter.nextFrom k pending rest = (some o, it) ∧
        wordOffsets k (pending :: rest) = o :: wordOffsets it.word (it.pending :: it.rest) ∧
        it.pending < 2 ^ 64 ∧ ∀ w ∈ it.rest, w < 2 ^ 64 := by
  have hpred : ∀ {p : ℕ}, p < 2 ^ 64 → p &&& (p - 1) < 2 ^ 64 := fun hp =>
    Nat.lt_of_le_of_lt Nat.and_le_left hp
  induction rest generalizing k pending with
  | nil =>
    unfold OffsetIter.nextFrom
    split_ifs with h0
    · refine .inl ⟨rfl, ?_⟩
      subst h0
      rfl
    · exact .inr ⟨_, _, rfl, wordOffsets_found hp h0, hpred hp, hrest⟩
  | cons w ws ih =>
    unfold OffsetIter.nextFrom
    split_ifs with h0
    · have hskip : wordOffsets k (pending :: w :: ws) = wordOffsets (k + 1) (w :: ws) := by
        subst h0
        rw [wordOffsets_cons hp]
        rfl
      obtain ⟨hw, hws⟩ := List.forall_mem_cons.1 hrest
      rw [hskip]
      exact ih hw hws
    · exact .inr ⟨_, _, rfl, wordOffsets_found hp h0, hpred hp, hrest⟩

/-- The iterator lists the offsets in order. -/
theorem Ok.offsets_eq (h : s.Ok layout) : s.offsets = (setBits s.mask 512).map (· + 1) := by
  have hcons : s.words.headD 0 :: s.words.tail = s.words := by
    have hlen := h.length
    cases hw : s.words with
    | nil => rw [hw] at hlen; cases hlen
    | cons w ws => rfl
  have hall : wordOffsets 0 s.words = (setBits s.mask 512).map (· + 1) := by
    rw [wordOffsets, h.length]
    refine List.map_congr_left fun i _ => ?_
    rw [Nat.mul_zero, Nat.zero_add]
  have hlt : ∀ w ∈ s.words.headD 0 :: s.words.tail, w < 2 ^ 64 := by
    rw [hcons]
    exact h.lt
  obtain ⟨hhead, htail⟩ := List.forall_mem_cons.1 hlt
  have hleft : wordOffsets s.iter.word (s.iter.pending :: s.iter.rest) = wordOffsets 0 s.words :=
    congrArg (wordOffsets 0) hcons
  have hbound : (wordOffsets 0 s.words).length ≤ 512 := by
    rw [hall, List.length_map, setBits]
    exact (List.length_filter_le _ _).trans (Nat.le_of_eq List.length_range)
  rw [← hall, ← hleft]
  exact @Iterate.items_eq _ _ OffsetIter.next s.iter 512
    (fun it => wordOffsets it.word (it.pending :: it.rest))
    (fun it => it.pending < 2 ^ 64 ∧ ∀ w ∈ it.rest, w < 2 ^ 64)
    (fun it hit => next_cases hit.1 hit.2) ⟨hhead, htail⟩ (hleft ▸ hbound)
theorem Ok.mem_offsets (h : s.Ok layout) : o ∈ s.offsets ↔ 0 < o ∧
    s.mask.testBit (o - 1) = true := by
  rw [h.offsets_eq, List.mem_map]
  constructor
  · rintro ⟨i, hi, rfl⟩
    exact ⟨Nat.succ_pos i, (mem_setBits.1 hi).2⟩
  · rintro ⟨hpos, hbit⟩
    have hlt := h.testBit_lt hbit
    have hle := layout.le
    exact ⟨o - 1, mem_setBits.2 ⟨by omega, hbit⟩, by omega⟩

theorem Ok.decide_mem (h : s.Ok layout) (ho : 0 < o) :
    decide (o ∈ s.offsets) = s.mask.testBit (o - 1) := by
  rw [Bool.eq_iff_iff, decide_eq_true_iff, h.mem_offsets]
  exact and_iff_right ho

theorem Ok.le_of_mem (h : s.Ok layout) (ho : o ∈ s.offsets) : o ≤ layout.maxOffset := by
  have := h.testBit_lt (h.mem_offsets.1 ho).2
  omega

theorem Ok.offsets_sorted (h : s.Ok layout) : s.offsets.Pairwise (· < ·) := by
  rw [h.offsets_eq, List.pairwise_map]
  exact setBits_sorted.imp fun hlt => Nat.succ_lt_succ hlt

/-- A set is determined by its offsets. -/
theorem Ok.ext_offsets (h : s.Ok layout) (h' : s'.Ok layout) (ho : s.offsets = s'.offsets) :
    s = s' := by
  refine h.ext h' fun i => Bool.eq_iff_iff.2 ?_
  have hs := h.mem_offsets (o := i + 1)
  have hs' := h'.mem_offsets (o := i + 1)
  rw [Nat.add_sub_cancel] at hs hs'
  rw [ho, hs'] at hs
  have hpos := Nat.succ_pos i
  exact ⟨fun hb => (hs.2 ⟨hpos, hb⟩).2, fun hb => (hs.1 ⟨hpos, hb⟩).2⟩

/-- What lists a set in order is its list of offsets. -/
theorem Ok.eq_offsets (h : s.Ok layout) (hs : os.Pairwise (· < ·))
    (hmem : ∀ o, o ∈ os ↔ 0 < o ∧ s.mask.testBit (o - 1) = true) : s.offsets = os :=
  h.offsets_sorted.eq_of_mem_iff hs fun {o} => h.mem_offsets.trans (hmem o).symm

/-- The words are counted. -/
theorem Ok.len_eq (h : s.Ok layout) : s.len = s.offsets.length := by
  rw [len, sum_popCount h.lt, h.length, h.offsets_eq, List.length_map]
  rfl

theorem Ok.length_offsets_le (h : s.Ok layout) : s.offsets.length ≤ layout.maxOffset := by
  have hsub : s.offsets ⊆ List.range' 1 layout.maxOffset := fun o ho => by
    have hpos := (h.mem_offsets.1 ho).1
    have hle := h.le_of_mem ho
    rw [List.mem_range'_1]
    omega
  have hnodup : s.offsets.Nodup := h.offsets_sorted.imp fun hlt => Nat.ne_of_lt hlt
  have hlen := (List.subperm_of_subset hnodup hsub).length_le
  rwa [List.length_range'] at hlen

theorem runCountFrom_eq (carry : ℕ) (ws : List ℕ) :
    runCountFrom carry ws = ((startWords 64 carry ws).map (popCount 64)).sum := by
  induction ws generalizing carry with
  | nil => rfl
  | cons w ws ih => rw [runCountFrom, startWords, List.map_cons, List.sum_cons, ih]

/-- The carry counts the runs that the encoder writes. -/
theorem Ok.runCount_eq (h : s.Ok layout) : s.runCount = (runsOf s.offsets).length := by
  have hstart : setBits (wordsMask 64 (startWords 64 0 s.words)) 512 =
      (setBits s.mask 512).filter fun i => i + 1 - 1 ∉ s.offsets := by
    refine (eq_setBits (List.Pairwise.filter _ setBits_sorted) fun i => ?_).symm
    rw [List.mem_filter, mem_setBits, testBit_startWords h.lt (by decide) (by decide),
      decide_eq_true_iff, Nat.add_sub_cancel, h.mem_offsets, Bool.and_eq_true, Nat.zero_testBit,
      and_assoc]
    refine and_congr_right fun _ => and_congr_right fun _ => ?_
    by_cases h0 : i = 0
    · simp [h0]
    · rw [if_neg h0, Bool.not_eq_true', ← Bool.not_eq_true]
      exact not_congr (and_iff_right (Nat.pos_of_ne_zero h0))
  rw [length_runsOf h.offsets_sorted fun o ho => (h.mem_offsets.1 ho).1, runCount, runCountFrom_eq,
    sum_popCount startWords_lt, length_startWords, h.length, popCount, hstart]
  have hmap : (s.offsets.filter fun o => o - 1 ∉ s.offsets).length =
      ((setBits s.mask 512).filter fun i => i + 1 - 1 ∉ s.offsets).length := by
    conv_lhs => rw [h.offsets_eq, List.filter_map, List.length_map, ← h.offsets_eq]
    rfl
  exact hmap.symm

/-! ### Inserting -/

/-- Inserting an offset of the domain sets its bit. -/
theorem Ok.insert (h : s.Ok layout) (hpos : 0 < offset) (hle : offset ≤ layout.maxOffset) :
    ∃ fresh s', s.insert offset = .ok (fresh, s') ∧ s'.Ok layout ∧
      s'.mask = s.mask ||| 1 <<< (offset - 1) := by
  have hmax := layout.le
  have hbit : 1 <<< ((offset - 1) % 64) < 2 ^ 64 := by
    rw [Nat.one_shiftLeft]
    exact Nat.pow_lt_pow_right (by decide) (Nat.mod_lt _ (by decide))
  have hword : (offset - 1) / 64 < s.words.length := by
    rw [h.length]
    omega
  have hmask : wordsMask 64 (s.words.modify ((offset - 1) / 64) (· ||| 1 <<< ((offset - 1) % 64))) =
      s.mask ||| 1 <<< (offset - 1) := by
    rw [wordsMask_modify_or h.lt hbit hword, ← Nat.shiftLeft_add, Nat.mod_add_div, mask]
  refine ⟨_, _, if_neg (by rw [h.domain]; omega), ⟨h.domain, ?_, forall_modify_or h.lt hbit, ?_⟩,
    hmask⟩
  · rw [List.length_modify, h.length]
  · refine Nat.lt_of_le_of_lt (Nat.le_of_eq hmask) (Nat.or_lt_two_pow h.tail ?_)
    rw [Nat.one_shiftLeft, h.domain]
    exact Nat.pow_lt_pow_right (by decide) (by omega)

theorem of_insert {fresh : Bool} (h : s.insert offset = .ok (fresh, s')) :
    0 < offset ∧ offset ≤ s.domain ∧ s'.domain = s.domain := by
  rw [insert] at h
  split_ifs at h with hout
  cases h
  exact ⟨by omega, by omega, rfl⟩

theorem insertAll_append : insertAll (os ++ ps) s = (insertAll os s >>= insertAll ps) := by
  induction os generalizing s with
  | nil => rfl
  | cons o os ih =>
    rw [List.cons_append, insertAll, insertAll]
    cases s.insert o with
    | error e => rfl
    | ok p => exact ih

theorem of_insertAll (h : insertAll os s = .ok s') :
    (∀ o ∈ os, 0 < o ∧ o ≤ s.domain) ∧ s'.domain = s.domain := by
  induction os generalizing s with
  | nil =>
    cases h
    exact ⟨fun o ho => absurd ho List.not_mem_nil, rfl⟩
  | cons o os ih =>
    obtain ⟨⟨fresh, s₁⟩, hins, h⟩ := ok_of_bind h
    obtain ⟨hpos, hle, hdom⟩ := of_insert hins
    obtain ⟨hall, hdom'⟩ := ih h
    rw [hdom] at hall
    exact ⟨List.forall_mem_cons.2 ⟨⟨hpos, hle⟩, hall⟩, hdom'.trans hdom⟩

theorem Ok.insertAll (h : s.Ok layout) (hos : ∀ o ∈ os, 0 < o ∧ o ≤ layout.maxOffset) :
    ∃ s', insertAll os s = .ok s' ∧ s'.Ok layout ∧
      ∀ o, 0 < o → s'.mask.testBit (o - 1) = (s.mask.testBit (o - 1) || decide (o ∈ os)) := by
  induction os generalizing s with
  | nil => exact ⟨s, rfl, h, fun o _ => by simp⟩
  | cons a os ih =>
    obtain ⟨⟨hpos, hle⟩, hos⟩ := List.forall_mem_cons.1 hos
    obtain ⟨fresh, s₁, hins, h₁, hmask⟩ := h.insert hpos hle
    obtain ⟨s', hall, h', hbits⟩ := ih h₁ hos
    refine ⟨s', ?_, h', fun o ho => ?_⟩
    · rw [OffsetSet.insertAll, hins]
      exact hall
    · have hiff : a - 1 = o - 1 ↔ o = a := by omega
      rw [hbits o ho, hmask, Nat.testBit_or, Nat.one_shiftLeft, Nat.testBit_two_pow,
        decide_eq_decide.2 hiff, Bool.or_assoc, ← Bool.decide_or,
        decide_eq_decide.2 List.mem_cons.symm]

/-- Inserting an ascending list makes the set of its members. -/
theorem insertAll_new (hs : os.Pairwise (· < ·)) (hos : ∀ o ∈ os, 0 < o ∧ o ≤ layout.maxOffset) :
    ∃ s, insertAll os (new layout) = .ok s ∧ s.Ok layout ∧ s.offsets = os := by
  obtain ⟨s, hall, h, hbits⟩ := ok_new.insertAll hos
  refine ⟨s, hall, h, h.eq_offsets hs fun o => ?_⟩
  constructor
  · intro ho
    have hpos := (hos o ho).1
    rw [hbits o hpos, mask_new, Nat.zero_testBit, Bool.false_or]
    exact ⟨hpos, decide_eq_true ho⟩
  · rintro ⟨hpos, hbit⟩
    rw [hbits o hpos, mask_new, Nat.zero_testBit, Bool.false_or] at hbit
    exact of_decide_eq_true hbit

/-- Every set is made by inserting its offsets. -/
theorem Ok.insertAll_offsets (h : s.Ok layout) :
    OffsetSet.insertAll s.offsets (new layout) = .ok s := by
  obtain ⟨s', hall, h', ho⟩ := insertAll_new h.offsets_sorted fun o ho =>
    ⟨(h.mem_offsets.1 ho).1, h.le_of_mem ho⟩
  rw [hall, h'.ext_offsets h ho]


end
/-! ### Combining sets -/

section

variable {s other : OffsetSet} {layout : HeapLayout}

/-- A combination of two sets over one domain is a set over it. -/
theorem Ok.combine {op : ℕ → ℕ → ℕ} {g : Bool → Bool → Bool} (h : s.Ok layout)
    (h' : other.Ok layout) (hg : g false false = false)
    (hop : ∀ u w, u < 2 ^ 64 → w < 2 ^ 64 → op u w < 2 ^ 64 ∧
      ∀ i < 64, (op u w).testBit i = g (u.testBit i) (w.testBit i)) :
    ∃ s', s.combine other op = .ok s' ∧ s'.Ok layout ∧
      ∀ o, o ∈ s'.offsets ↔ 0 < o ∧ g (o ∈ s.offsets) (o ∈ other.offsets) = true := by
  have hdom : ¬ s.domain ≠ other.domain := not_not.2 (h.domain.trans h'.domain.symm)
  let s' : OffsetSet := { s with words := List.zipWith op s.words other.words }
  have hbit : ∀ i, s'.mask.testBit i = g (s.mask.testBit i) (other.mask.testBit i) := fun i =>
    testBit_wordsMask_zipWith hop h.lt h'.lt (h.length.trans h'.length.symm) hg
  have hok : s'.Ok layout := by
    refine ⟨h.domain, ?_, fun w hw => ?_, Nat.lt_pow_two_of_testBit _ fun i hi => ?_⟩
    · rw [List.length_zipWith, h.length, h'.length, Nat.min_self]
    · obtain ⟨i, hi, rfl⟩ := List.getElem_of_mem hw
      rw [List.getElem_zipWith]
      exact (hop _ _ (h.lt _ (List.getElem_mem _)) (h'.lt _ (List.getElem_mem _))).1
    · have hclear : ∀ {t : OffsetSet}, t.Ok layout → t.mask.testBit i = false := fun ht => by
        refine Bool.eq_false_iff.2 fun hb => ?_
        have := ht.testBit_lt hb
        have hdom : s'.domain = layout.maxOffset := h.domain
        omega
      rw [hbit, hclear h, hclear h', hg]
  refine ⟨s', if_neg hdom, hok, fun o => hok.mem_offsets.trans (and_congr_right fun hpos => ?_)⟩
  rw [hbit, h.decide_mem hpos, h'.decide_mem hpos]

theorem Ok.intersection (h : s.Ok layout) (h' : other.Ok layout) :
    ∃ s', s.intersection other = .ok s' ∧ s'.Ok layout ∧
      ∀ o, o ∈ s'.offsets ↔ o ∈ s.offsets ∧ o ∈ other.offsets := by
  obtain ⟨s', hs, hok, hmem⟩ := h.combine (g := fun a b => a && b) h' rfl fun u w hu hw =>
    ⟨Nat.lt_of_le_of_lt Nat.and_le_left hu, fun i _ => Nat.testBit_and u w i⟩
  refine ⟨s', hs, hok, fun o => (hmem o).trans ?_⟩
  rw [Bool.and_eq_true, decide_eq_true_iff, decide_eq_true_iff]
  exact and_iff_right_of_imp fun ho => (h.mem_offsets.1 ho.1).1

theorem Ok.union (h : s.Ok layout) (h' : other.Ok layout) :
    ∃ s', s.union other = .ok s' ∧ s'.Ok layout ∧
      ∀ o, o ∈ s'.offsets ↔ o ∈ s.offsets ∨ o ∈ other.offsets := by
  obtain ⟨s', hs, hok, hmem⟩ := h.combine (g := fun a b => a || b) h' rfl fun u w hu hw =>
    ⟨Nat.or_lt_two_pow hu hw, fun i _ => Nat.testBit_or u w i⟩
  refine ⟨s', hs, hok, fun o => (hmem o).trans ?_⟩
  rw [Bool.or_eq_true, decide_eq_true_iff, decide_eq_true_iff]
  exact and_iff_right_of_imp fun ho =>
    ho.elim (fun ho => (h.mem_offsets.1 ho).1) fun ho => (h'.mem_offsets.1 ho).1

/-- Only members of the first set remain. -/
theorem Ok.difference (h : s.Ok layout) (h' : other.Ok layout) :
    ∃ s', s.difference other = .ok s' ∧ s'.Ok layout ∧
      ∀ o, o ∈ s'.offsets ↔ o ∈ s.offsets ∧ o ∉ other.offsets := by
  obtain ⟨s', hs, hok, hmem⟩ := h.combine (g := fun a b => a && ! b) h' rfl fun u w hu hw =>
    ⟨Nat.lt_of_le_of_lt Nat.and_le_left hu, fun i hi => by
      rw [Nat.testBit_and, testBit_notBits hw, decide_eq_true hi, Bool.true_and]⟩
  refine ⟨s', hs, hok, fun o => (hmem o).trans ?_⟩
  rw [Bool.and_eq_true, decide_eq_true_iff, Bool.not_eq_true', decide_eq_false_iff_not]
  exact and_iff_right_of_imp fun ho => (h.mem_offsets.1 ho.1).1

end

/-! ### Encodings -/

/-- The bytes of a run. -/
def runBytes (r : ℕ × ℕ) : List UInt8 := bytesU16 r.1 ++ bytesU16 r.2

/-- What follows the header. -/
def bodyBytes (s : OffsetSet) : Encoding → List UInt8
  | .sparse => s.offsets.flatMap bytesU16
  | .bitmap => leBytes ((s.domain + 7) / 8) s.mask
  | .runs => bytesU16 (runsOf s.offsets).length ++ (runsOf s.offsets).flatMap runBytes

/-- The encoding of a set. -/
def bytes (s : OffsetSet) (encoding : Encoding) : List UInt8 :=
  bytesU16 s.domain ++ (bytesU16 s.offsets.length ++
    (leBytes 1 encoding.tag ++ (leBytes 1 0 ++ s.bodyBytes encoding)))

section

variable {s s' : OffsetSet} {layout : HeapLayout} {e : Encoding} {n start last : ℕ} {os : List ℕ}
  {output : List UInt8}

theorem writes_each {f : ℕ → Writer.Emit} {g : ℕ → List UInt8}
    (h : ∀ a, Writer.Writes (f a) (g a)) (l : List ℕ) :
      Writer.Writes (writeEach f l) (l.flatMap g) := by
  induction l with
  | nil => exact Writer.Writes.nil
  | cons a l ih => exact (h a).bind ih

theorem writes_runsFrom :
    Writer.Writes (writeRunsFrom start last os) ((runsFrom start last os).flatMap runBytes) := by
  induction os generalizing start last with
  | nil =>
    rw [runsFrom, List.flatMap_singleton]
    exact Writer.Writes.put.bind Writer.Writes.put
  | cons o os ih =>
    rw [writeRunsFrom, runsFrom]
    split_ifs with ho
    · exact ih
    · rw [List.flatMap_cons, runBytes, List.append_assoc]
      exact Writer.Writes.put.bind (Writer.Writes.put.bind ih)

theorem leBytes_eq_map (n m : ℕ) :
    leBytes n m = (List.range n).map fun j => (m >>> (8 * j) % 256).toUInt8 := by
  induction n generalizing m with
  | zero => rfl
  | succ n ih =>
    rw [leBytes, List.range_succ_eq_map, List.map_cons, List.map_map, ih, Nat.mul_zero,
      Nat.shiftRight_zero]
    congr 1
    refine List.map_congr_left fun j _ => ?_
    rw [Function.comp_apply, Nat.succ_eq_add_one, Nat.mul_succ, Nat.add_comm, Nat.shiftRight_add,
      Nat.shiftRight_eq_div_pow m 8]

/-- A byte of a word is a byte of the mask. -/
theorem Ok.byteAt_eq (h : s.Ok layout) (j : ℕ) : s.byteAt j = s.mask >>> (8 * j) % 256 := by
  refine Nat.eq_of_testBit_eq fun i => ?_
  rw [byteAt, show 256 = 2 ^ 8 from rfl, Nat.testBit_mod_two_pow, Nat.testBit_mod_two_pow]
  by_cases hi : i < 8
  · have hdiv : (8 * j + i) / 64 = j / 8 := by omega
    have hmod : (8 * j + i) % 64 = j % 8 * 8 + i := by omega
    rw [Nat.testBit_shiftRight, Nat.testBit_shiftRight, mask, testBit_wordsMask h.lt (by decide),
      hdiv, hmod]
  · rw [decide_eq_false hi, Bool.false_and, Bool.false_and]

theorem Ok.writes_body (h : s.Ok layout) : Writer.Writes (s.writeBody e) (s.bodyBytes e) := by
  cases e with
  | sparse => exact writes_each (fun _ => Writer.Writes.put) _
  | bitmap =>
    have hbytes : s.bodyBytes .bitmap =
        (List.range ((s.domain + 7) / 8)).flatMap fun j => leBytes 1 (s.byteAt j) := by
      rw [bodyBytes, leBytes_eq_map, List.map_eq_flatMap]
      refine List.flatMap_congr fun j _ => ?_
      rw [← h.byteAt_eq, leBytes, leBytes, byteAt, Nat.mod_mod]
    rw [hbytes]
    exact writes_each (fun _ => Writer.Writes.put) _
  | runs =>
    rw [writeBody, bodyBytes, h.runCount_eq]
    refine Writer.Writes.put.bind ?_
    cases s.offsets with
    | nil => exact Writer.Writes.nil
    | cons o os => exact writes_runsFrom

/-- The measured size is the size of the encoding. -/
theorem Ok.length_bytes (h : s.Ok layout) : (s.bytes e).length = s.encodedLen e := by
  have hbody : (s.bodyBytes e).length + 6 = s.encodedLen e := by
    cases e with
    | sparse =>
      rw [bodyBytes, length_flatMap_const (n := 2) fun _ => rfl, encodedLen, h.len_eq, Nat.add_comm]
    | bitmap => rw [bodyBytes, length_leBytes, encodedLen, Nat.add_comm]
    | runs =>
      rw [bodyBytes, List.length_append, length_flatMap_const (n := 4) fun _ => rfl, encodedLen,
        h.runCount_eq, bytesU16_eq, length_leBytes]
      omega
  rw [bytes]
  simp only [List.length_append, bytesU16_eq, length_leBytes]
  omega

theorem Ok.length_runsOf_le (h : s.Ok layout) : (runsOf s.offsets).length ≤ s.offsets.length := by
  rw [length_runsOf h.offsets_sorted fun o ho => (h.mem_offsets.1 ho).1]
  exact List.length_filter_le _ _

theorem Ok.encodedLen_lt (h : s.Ok layout) : s.encodedLen e < 65536 := by
  have hmax := layout.le
  have hlen := h.length_offsets_le
  have hruns := h.length_runsOf_le
  have hdom := h.domain_le
  cases e with
  | sparse => rw [encodedLen, h.len_eq]; omega
  | bitmap => rw [encodedLen]; omega
  | runs => rw [encodedLen, h.runCount_eq]; omega

theorem Ok.encodes (h : s.Ok layout) : Writer.Encodes (encodeAs e) s (s.bytes e) where
  length_lt := by
    have hlt := h.encodedLen_lt (e := e)
    have hlimit : 65536 < usizeLimit := by decide
    rw [h.length_bytes]
    omega
  encode output hroom hf := by
    have hlen := h.length_bytes (e := e)
    rw [encodeAs, if_neg (by omega)]
    refine Writer.Writes.onto ?_ hroom hf
    rw [h.len_eq]
    exact Writer.Writes.put.bind (Writer.Writes.put.bind
      (Writer.Writes.put.bind (Writer.Writes.put.bind h.writes_body)))

/-- No encoding is shorter than the preferred one. -/
theorem preferred_le (e : Encoding) : s.encodedLen s.preferredEncoding ≤ s.encodedLen e := by
  unfold preferredEncoding
  split_ifs with h₁ h₂
  · cases e <;> omega
  · rw [not_and_or] at h₁
    cases e <;> omega
  · cases e <;> omega

end

/-! ### Reading lists and runs -/

section

variable {s s' : OffsetSet} {layout : HeapLayout} {n previous bound : ℕ} {os : List ℕ}
  {runs : List (ℕ × ℕ)} {r r' : Reader}

theorem decodes_sparse (hs : (previous :: os).Pairwise (· < ·)) (hlt : ∀ o ∈ os, o < 65536)
    (h : insertAll os s = .ok s') :
    Decodes (parseSparse os.length previous s) (os.flatMap bytesU16) s' := by
  induction os generalizing previous s with
  | nil =>
    cases h
    exact Decodes.pure
  | cons o os ih =>
    obtain ⟨⟨fresh, s₁⟩, hins, h⟩ := ok_of_bind h
    have horder := List.rel_of_pairwise_cons hs List.mem_cons_self
    obtain ⟨ho, hos⟩ := List.forall_mem_cons.1 hlt
    rw [List.length_cons, parseSparse, List.flatMap_cons]
    refine (Decodes.le ho).bind (Decodes.position_bind fun _ => ?_)
    exact Decodes.ensure_bind (Nat.not_le.2 horder)
      (Decodes.ofExcept_bind hins (ih hs.of_cons hos h))

theorem of_parseSparse (h : parseSparse n previous s r = (.ok s', r')) :
    ∃ os, os.length = n ∧ (previous :: os).Pairwise (· < ·) ∧ insertAll os s = .ok s' ∧
      Past r (os.flatMap bytesU16) r' := by
  induction n generalizing previous s r with
  | zero =>
    cases h
    exact ⟨[], rfl, List.pairwise_singleton _ _, rfl, Past.nil⟩
  | succ n ih =>
    unfold parseSparse at h
    obtain ⟨o, r₁, hread, h⟩ := Read.of_bind h
    rw [position_bind] at h
    obtain ⟨horder, h⟩ := Read.of_ensure_bind h
    obtain ⟨⟨fresh, s₁⟩, hins, h⟩ := Read.of_ofExcept_bind h
    obtain ⟨os, hlen, hs, hall, hpast⟩ := ih h
    obtain ⟨-, hp⟩ := past_of_u16 hread
    refine ⟨o :: os, by rw [List.length_cons, hlen], ?_, ?_, ?_⟩
    · have hlt : previous < o := Nat.lt_of_not_le horder
      refine List.pairwise_cons.2 ⟨fun a ha => ?_, hs⟩
      rcases List.mem_cons.1 ha with rfl | ha
      · exact hlt
      · exact Nat.lt_trans hlt (List.rel_of_pairwise_cons hs ha)
    · rw [insertAll, hins]
      exact hall
    · rw [List.flatMap_cons]
      exact hp.append hpast

/-- The first number that a run behind `previous` may have; zero is before all runs. -/
def runBound (previous : ℕ) : ℕ := if previous = 0 then 1 else previous + 2

theorem runBound_le {start : ℕ} :
    runBound previous ≤ start ↔ ¬ (start = 0 ∨ previous ≠ 0 ∧ start ≤ previous + 1) := by
  unfold runBound
  split_ifs with h0 <;> omega

theorem decodes_runs (ha : RunsApart (runBound previous) runs)
    (hin : ∀ o ∈ expandRuns runs, o ≤ s.domain) (hdom : s.domain ≤ 512)
    (h : insertAll (expandRuns runs) s = .ok s') :
    Decodes (parseRuns runs.length previous s) (runs.flatMap runBytes) s' := by
  induction runs generalizing previous s with
  | nil =>
    cases h
    exact Decodes.pure
  | cons run runs ih =>
    obtain ⟨start, len⟩ := run
    obtain ⟨hbound, hpos, hrest⟩ := ha
    dsimp only at hbound hpos hrest
    have hstart := runBound_le.1 hbound
    rw [expandRuns_cons] at hin h
    rw [insertAll_append] at h
    obtain ⟨s₁, hins, h⟩ := ok_of_bind h
    have hlast := hin (start + (len - 1)) (List.mem_append_left _ (by
      rw [List.mem_range'_1]
      dsimp only
      omega))
    have hlen : start + (len - 1) + 1 - start = len := by omega
    have hdom' := (of_insertAll hins).2
    have hnext : RunsApart (runBound (start + (len - 1))) runs := hrest.mono (by
      unfold runBound
      split_ifs <;> omega)
    rw [List.length_cons, parseRuns, List.flatMap_cons, runBytes, List.append_assoc]
    refine (Decodes.le (by omega : start < 65536)).bind
      ((Decodes.le (by omega : len < 65536)).bind (Decodes.position_bind fun _ => ?_))
    refine Decodes.ensure_bind (by omega) (Decodes.ensure_bind (by omega)
      (Decodes.ensure_bind (by omega) ?_))
    rw [hlen]
    refine Decodes.ofExcept_bind hins (ih hnext (fun o ho => ?_) (hdom' ▸ hdom) h)
    rw [hdom']
    exact hin o (List.mem_append_right _ ho)

theorem of_parseRuns (h : parseRuns n previous s r = (.ok s', r')) :
    ∃ runs, runs.length = n ∧ RunsApart (runBound previous) runs ∧
      insertAll (expandRuns runs) s = .ok s' ∧ Past r (runs.flatMap runBytes) r' := by
  induction n generalizing previous s r with
  | zero =>
    cases h
    exact ⟨[], rfl, trivial, rfl, Past.nil⟩
  | succ n ih =>
    unfold parseRuns at h
    obtain ⟨start, r₁, hstart, h⟩ := Read.of_bind h
    obtain ⟨len, r₂, hlen, h⟩ := Read.of_bind h
    rw [position_bind] at h
    obtain ⟨horder, h⟩ := Read.of_ensure_bind h
    obtain ⟨-, h⟩ := Read.of_ensure_bind h
    obtain ⟨-, h⟩ := Read.of_ensure_bind h
    obtain ⟨s₁, hins, h⟩ := Read.of_ofExcept_bind h
    obtain ⟨runs, hcount, ha, hall, hpast⟩ := ih h
    obtain ⟨-, hp⟩ := past_of_u16 hstart
    obtain ⟨-, hp'⟩ := past_of_u16 hlen
    have hpos : 0 < len := by omega
    have hrange : start + (len - 1) + 1 - start = len := by omega
    rw [hrange] at hins
    refine ⟨(start, len) :: runs, by rw [List.length_cons, hcount],
      ⟨runBound_le.2 (by omega), hpos, ha.mono ?_⟩, ?_, ?_⟩
    · unfold runBound
      dsimp only
      split_ifs <;> omega
    · rw [expandRuns_cons, insertAll_append, hins]
      exact hall
    · rw [List.flatMap_cons]
      exact (hp.append hp').append hpast

end

/-! ### Reading bitmaps -/

theorem leNat_append (xs ys : List UInt8) :
    leNat (xs ++ ys) = leNat xs + 256 ^ xs.length * leNat ys := by
  induction xs with
  | nil =>
    rw [List.nil_append, List.length_nil, Nat.pow_zero, Nat.one_mul]
    exact (Nat.zero_add _).symm
  | cons x xs ih =>
    have hcons : ∀ zs, leNat (x :: zs) = x.toNat + 256 * leNat zs := fun _ => rfl
    rw [List.cons_append, hcons, hcons, ih, List.length_cons, Nat.pow_succ, Nat.mul_add,
      Nat.mul_comm (256 ^ xs.length) 256, Nat.mul_assoc, Nat.add_assoc]

/-- The check of the last byte keeps bits behind the domain out. -/
theorem leNat_lt_two_pow {bs : List UInt8} {d : ℕ} (hd : 0 < d) (hlen : bs.length = (d + 7) / 8) :
    leNat bs < 2 ^ d ↔ ¬ (d % 8 ≠ 0 ∧ ∃ byte ∈ bs.getLast?, byte.toNat >>> (d % 8) ≠ 0) := by
  obtain ⟨front, b, rfl⟩ : ∃ front b, bs = front ++ [b] := by
    rcases List.eq_nil_or_concat bs with rfl | ⟨front, b, rfl⟩
    · have hzero : 0 = (d + 7) / 8 := hlen
      omega
    · exact ⟨front, b, List.concat_eq_append⟩
  rw [List.length_append, List.length_singleton] at hlen
  have hlast : (front ++ [b]).getLast? = some b := List.getLast?_concat
  have hb : leNat [b] = b.toNat := by
    change b.toNat + 256 * 0 = b.toNat
    omega
  have hfront := leNat_lt front
  have hpow : 256 ^ front.length = 2 ^ (8 * front.length) := by rw [Nat.pow_mul]
  rw [hlast, leNat_append, hb]
  simp only [Option.mem_def, Option.some.injEq, exists_eq_left']
  by_cases h0 : d % 8 = 0
  · have hd' : d = 8 * front.length + 8 := by omega
    have hmul := Nat.mul_le_mul_left (256 ^ front.length) (Nat.succ_le_of_lt b.toNat_lt)
    rw [Nat.mul_succ] at hmul
    refine iff_of_true ?_ fun hc => hc.1 h0
    rw [hd', Nat.pow_add, ← hpow]
    omega
  · have hd' : d = 8 * front.length + d % 8 := by omega
    have hshift : b.toNat >>> (d % 8) = 0 ↔ b.toNat < 2 ^ (d % 8) := by
      rw [Nat.shiftRight_eq_div_pow, Nat.div_eq_zero_iff_lt (Nat.two_pow_pos _)]
    have hsplit : 2 ^ d = 256 ^ front.length * 2 ^ (d % 8) := by
      rw [hpow, ← Nat.pow_add, ← hd']
    rw [hsplit, not_and_not_right, hshift]
    constructor
    · intro hlt _
      exact Nat.lt_of_mul_lt_mul_left (Nat.lt_of_le_of_lt (Nat.le_add_left _ _) hlt)
    · intro hlt
      have hmul := Nat.mul_le_mul_left (256 ^ front.length) (Nat.succ_le_of_lt (hlt h0))
      rw [Nat.mul_succ] at hmul
      omega

/-- The bytes become bits of the mask. -/
theorem orBytes_spec {index : ℕ} {bs : List UInt8} {ws : List ℕ} (hw : ∀ w ∈ ws, w < 2 ^ 64)
    (hlen : index + bs.length ≤ 8 * ws.length) :
    (orBytes index bs ws).length = ws.length ∧ (∀ w ∈ orBytes index bs ws, w < 2 ^ 64) ∧
      wordsMask 64 (orBytes index bs ws) = wordsMask 64 ws ||| leNat bs <<< (8 * index) := by
  induction bs generalizing index ws with
  | nil =>
    have hzero : leNat [] <<< (8 * index) = 0 := Nat.zero_shiftLeft _
    exact ⟨rfl, hw, by rw [orBytes, hzero, Nat.or_zero]⟩
  | cons b bs ih =>
    rw [List.length_cons] at hlen
    have hbyte : b.toNat < 2 ^ 8 := b.toNat_lt
    have hv : b.toNat <<< (index % 8 * 8) < 2 ^ 64 := by
      have hle : 2 ^ (8 + index % 8 * 8) ≤ 2 ^ 64 := Nat.pow_le_pow_right (by decide) (by omega)
      rw [Nat.shiftLeft_eq]
      refine Nat.lt_of_lt_of_le ?_ hle
      rw [Nat.pow_add]
      exact Nat.mul_lt_mul_of_pos_right hbyte (Nat.two_pow_pos _)
    obtain ⟨hlen', hlt, hmask⟩ := @ih (index + 1)
      (ws.modify (index / 8) (· ||| b.toNat <<< (index % 8 * 8)))
      (forall_modify_or hw hv) (by rw [List.length_modify]; omega)
    refine ⟨by rw [orBytes, hlen', List.length_modify], hlt, ?_⟩
    have hshift : index % 8 * 8 + 64 * (index / 8) = 8 * index := by omega
    have hle : leNat (b :: bs) = b.toNat ||| leNat bs <<< 8 := by
      have hcons : leNat (b :: bs) = b.toNat + 256 * leNat bs := rfl
      rw [hcons, Nat.add_comm, show 256 = 2 ^ 8 from rfl, Nat.two_pow_add_eq_or_of_lt hbyte,
        Nat.or_comm, Nat.shiftLeft_eq, Nat.mul_comm]
    rw [orBytes, hmask, wordsMask_modify_or hw hv (by omega), ← Nat.shiftLeft_add, hshift, hle,
      Nat.shiftLeft_or_distrib, ← Nat.shiftLeft_add, Nat.or_assoc, Nat.mul_succ, Nat.add_comm 8]

section

variable {s s' : OffsetSet} {layout : HeapLayout} {bs : List UInt8} {r r' : Reader}

/-- The words that a bitmap makes. -/
theorem orBytes_new (hlen : bs.length = (layout.maxOffset + 7) / 8) :
    (orBytes 0 bs (new layout).words).length = 8 ∧
      (∀ w ∈ orBytes 0 bs (new layout).words, w < 2 ^ 64) ∧
      wordsMask 64 (orBytes 0 bs (new layout).words) = leNat bs := by
  have hmax := layout.le
  have hwords : (new layout).words.length = 8 := ok_new.length
  obtain ⟨h₁, h₂, h₃⟩ := @orBytes_spec 0 bs (new layout).words ok_new.lt (by omega)
  refine ⟨h₁.trans hwords, h₂, ?_⟩
  rw [h₃, Nat.mul_zero, Nat.shiftLeft_zero]
  exact (congrArg (· ||| leNat bs) mask_new).trans (Nat.zero_or _)

theorem decodes_bitmap (h : s.Ok layout) :
    Decodes (parseBitmap (new layout)) (leBytes ((s.domain + 7) / 8) s.mask) s := by
  have hdom := h.domain
  have hlen : (leBytes ((s.domain + 7) / 8) s.mask).length = (layout.maxOffset + 7) / 8 := by
    rw [length_leBytes, hdom]
  have hnat : leNat (leBytes ((s.domain + 7) / 8) s.mask) = s.mask := by
    refine leNat_leBytes (Nat.lt_of_lt_of_le h.tail ?_)
    rw [show 256 = 2 ^ 8 from rfl, ← Nat.pow_mul]
    exact Nat.pow_le_pow_right (by decide) (by omega)
  obtain ⟨h₁, h₂, h₃⟩ := orBytes_new hlen
  have hwords : orBytes 0 (leBytes ((s.domain + 7) / 8) s.mask) (new layout).words = s.words :=
    wordsMask_injective h₂ h.lt (h₁.trans h.length.symm) (h₃.trans hnat)
  have htail := (leNat_lt_two_pow layout.pos hlen).1 (by
    rw [hnat, ← hdom]
    exact h.tail)
  have hset : s = { new layout with words := s.words } := by
    obtain ⟨words, domain⟩ := s
    exact congrArg (OffsetSet.mk words) hdom
  unfold parseBitmap
  rw [← List.append_nil (leBytes ((s.domain + 7) / 8) s.mask)]
  refine (Decodes.take hlen).bind (Decodes.position_bind fun _ => Decodes.ensure_bind htail ?_)
  rw [hwords, ← hset]
  exact Decodes.pure

theorem of_parseBitmap (h : parseBitmap (new layout) r = (.ok s', r')) :
    s'.Ok layout ∧ Past r (leBytes ((s'.domain + 7) / 8) s'.mask) r' := by
  unfold parseBitmap at h
  obtain ⟨bs, r₁, htake, h⟩ := Read.of_bind h
  rw [position_bind] at h
  obtain ⟨htail, h⟩ := Read.of_ensure_bind h
  cases h
  obtain ⟨hlen, hp⟩ := past_of_take htake
  change bs.length = (layout.maxOffset + 7) / 8 at hlen
  obtain ⟨h₁, h₂, h₃⟩ := orBytes_new hlen
  have hlt := (leNat_lt_two_pow layout.pos hlen).2 htail
  refine ⟨⟨rfl, h₁, h₂, Nat.lt_of_le_of_lt (Nat.le_of_eq h₃) hlt⟩, ?_⟩
  have hbytes : leBytes ((layout.maxOffset + 7) / 8) (leNat bs) = bs := by
    rw [← hlen]
    exact leBytes_leNat bs
  rw [mask, h₃]
  exact hbytes.symm ▸ hp

end

/-! ### Sets -/

section

variable {s : OffsetSet} {layout : HeapLayout} {e : Encoding} {count tag : ℕ} {bs : List UInt8}
  {r r' : Reader}

theorem decodes_body (h : s.Ok layout) :
    Decodes (parseBody (new layout) s.offsets.length e.tag) (s.bodyBytes e) s := by
  have hmax := layout.le
  have hlen := h.length_offsets_le
  have hruns := h.length_runsOf_le
  have hpos : ∀ o ∈ s.offsets, 0 < o := fun o ho => (h.mem_offsets.1 ho).1
  cases e with
  | sparse =>
    refine decodes_sparse (List.pairwise_cons.2 ⟨hpos, h.offsets_sorted⟩) (fun o ho => ?_)
      h.insertAll_offsets
    have hle := h.le_of_mem ho
    omega
  | bitmap => exact decodes_bitmap h
  | runs =>
    refine (Decodes.le (by omega : (runsOf s.offsets).length < 65536)).bind
      (Decodes.ensure_bind (by omega) ?_)
    have hall := h.insertAll_offsets
    rw [← @expandRuns_runsOf s.offsets] at hall
    refine decodes_runs (runsOf_apart h.offsets_sorted hpos) (fun o ho => ?_) hmax hall
    rw [expandRuns_runsOf] at ho
    exact h.le_of_mem ho

theorem of_parseBody (h : parseBody (new layout) count tag r = (.ok s, r'))
    (hcount : s.len = count) : s.Ok layout ∧ ∃ e, tag = e.tag ∧ Past r (s.bodyBytes e) r' := by
  match tag, h with
  | 0, h =>
    obtain ⟨os, -, hs, hall, hpast⟩ := of_parseSparse h
    have hin : ∀ o ∈ os, 0 < o ∧ o ≤ layout.maxOffset := (of_insertAll hall).1
    obtain ⟨s', hall', hok, hoff⟩ := insertAll_new hs.of_cons hin
    have heq : s' = s := Except.ok.inj (hall'.symm.trans hall)
    subst heq
    refine ⟨hok, .sparse, rfl, ?_⟩
    rwa [bodyBytes, hoff]
  | 1, h =>
    obtain ⟨hok, hpast⟩ := of_parseBitmap h
    exact ⟨hok, .bitmap, rfl, hpast⟩
  | 2, h =>
    unfold parseBody at h
    obtain ⟨n, r₁, hread, h⟩ := Read.of_bind h
    obtain ⟨-, h⟩ := Read.of_ensure_bind h
    obtain ⟨runs, hlen, ha, hall, hpast⟩ := of_parseRuns h
    obtain ⟨-, hp⟩ := past_of_u16 hread
    have hin : ∀ o ∈ expandRuns runs, 0 < o ∧ o ≤ layout.maxOffset := (of_insertAll hall).1
    obtain ⟨s', hall', hok, hoff⟩ := insertAll_new ha.sorted hin
    have heq : s' = s := Except.ok.inj (hall'.symm.trans hall)
    subst heq
    refine ⟨hok, .runs, rfl, ?_⟩
    rw [bodyBytes, hoff, runsOf_expandRuns ha, hlen]
    exact hp.append hpast
  | _ + 3, h => cases h

/-- Encodings are accepted. -/
theorem parse_bytes (h : s.Ok layout) : parse (s.bytes e) layout = .ok s := by
  have hmax := layout.le
  have hlen := h.length_offsets_le
  have htag : e.tag < 256 := by cases e <;> decide
  have hdom := h.domain
  have hcontent : Decodes (content layout) (s.bytes e) (s, s.offsets.length) := by
    unfold content bytes
    refine (Decodes.le (by omega : s.domain < 65536)).bind (Decodes.ensure_bind hdom ?_)
    refine (Decodes.le (by omega : s.offsets.length < 65536)).bind
      (Decodes.ensure_bind (Nat.not_lt.2 hlen) ?_)
    refine (Decodes.le htag).bind ((Decodes.le (by decide)).bind (Decodes.ensure_bind rfl ?_))
    rw [← List.append_nil (s.bodyBytes e)]
    exact (decodes_body h).bind Decodes.pure
  rw [parse, hcontent.runDone h.encodes.length_lt, ok_bind]
  exact if_neg (not_not.2 h.len_eq)

/-- Only encodings are accepted. -/
theorem of_parse (h : parse bs layout = .ok s) : s.Ok layout ∧ ∃ e, bs = s.bytes e := by
  obtain ⟨⟨s', count⟩, hrun, h⟩ := ok_of_bind h
  dsimp only at h
  split_ifs at h with hcount
  replace hcount := not_not.1 hcount
  cases h
  obtain ⟨r, hread, hr⟩ := of_runDone hrun
  unfold content at hread
  obtain ⟨domain, r₁, h₁, hread⟩ := Read.of_bind hread
  obtain ⟨hdom, hread⟩ := Read.of_ensure_bind hread
  obtain ⟨n, r₂, h₂, hread⟩ := Read.of_bind hread
  obtain ⟨-, hread⟩ := Read.of_ensure_bind hread
  obtain ⟨tag, r₃, h₃, hread⟩ := Read.of_bind hread
  obtain ⟨reserved, r₄, h₄, hread⟩ := Read.of_bind hread
  obtain ⟨hzero, hread⟩ := Read.of_ensure_bind hread
  obtain ⟨s₁, r₅, hbody, hread⟩ := Read.of_bind hread
  cases hread
  obtain ⟨hok, e, htag, p₅⟩ := of_parseBody hbody hcount
  obtain ⟨-, p₁⟩ := past_of_u16 h₁
  obtain ⟨-, p₂⟩ := past_of_u16 h₂
  obtain ⟨-, p₃⟩ := past_of_le h₃
  obtain ⟨-, p₄⟩ := past_of_le h₄
  have hall := (p₁.append (p₂.append (p₃.append (p₄.append p₅)))).all hr
  refine ⟨hok, e, ?_⟩
  rw [hall, bytes, hdom, hok.domain, ← hcount, hok.len_eq, htag, hzero]

end

/-- For each layout: every set is written in each encoding with the measured size and read back,
the preferred encoding is the shortest, and what the parser accepts is what the encoder writes for
the parsed set in the encoding of the tag. -/
theorem offsets_exact (layout : HeapLayout) (s : OffsetSet) :
    (s.Ok layout →
      (∀ e, ∃ bs, bs.length = s.encodedLen e ∧ Writer.Encodes (encodeAs e) s bs ∧
        parse bs layout = .ok s) ∧
      ∃ e, (∀ output, s.encode output = encodeAs e s output) ∧
        ∀ e', s.encodedLen e ≤ s.encodedLen e') ∧
    ∀ bs, parse bs layout = .ok s → s.Ok layout ∧
      ∃ e, bs[4]? = some e.tag.toUInt8 ∧ Writer.Encodes (encodeAs e) s bs := by
  refine ⟨fun h => ⟨fun e => ⟨s.bytes e, h.length_bytes, h.encodes, parse_bytes h⟩,
    s.preferredEncoding, fun _ => rfl, preferred_le⟩, fun bs hparse => ?_⟩
  obtain ⟨hok, e, rfl⟩ := of_parse hparse
  refine ⟨hok, e, ?_, hok.encodes⟩
  -- the tag is behind the domain and the count
  cases e <;> rfl

/-- The offsets `1` and `2` of ten, as a list and as a run. -/
theorem offsets_exact_two : ∃ s, (∃ bs, bs.length = 10 ∧ Writer.Encodes (encodeAs .sparse) s bs ∧
    parse bs ⟨10, by decide, by decide⟩ = .ok s) ∧
    parse [10, 0, 2, 0, 2, 0, 1, 0, 1, 0, 2, 0] ⟨10, by decide, by decide⟩ = .ok s ∧
    ∃ e, some 2 = some e.tag.toUInt8 ∧
      Writer.Encodes (encodeAs e) s [10, 0, 2, 0, 2, 0, 1, 0, 1, 0, 2, 0] := by
  have hparse : parse [10, 0, 2, 0, 2, 0, 1, 0, 1, 0, 2, 0] ⟨10, by decide, by decide⟩ =
      .ok ⟨[3, 0, 0, 0, 0, 0, 0, 0], 10⟩ := by decide +kernel
  obtain ⟨hok, he⟩ := (offsets_exact _ _).2 _ hparse
  obtain ⟨bs, hlen, hbs⟩ := ((offsets_exact _ _).1 hok).1 .sparse
  exact ⟨_, ⟨bs, hlen.trans (by decide +kernel), hbs⟩, hparse, he⟩


end OffsetSet

end PinCore
