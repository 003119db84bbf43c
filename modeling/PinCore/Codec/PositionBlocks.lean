import PinCore.Codec.Format
import PinCore.Codec.Positions
import PinCore.Lib.LowerBound

/-!
# Position blocks

Positions in blocks of 128.  A directory holds for each block its first and last position and the
extent of the deltas between them; `open'` checks the directory, and `seekGe` decodes only the
block that a binary search over the last positions leads to.
-/

namespace PinCore

open Reader

/-! ### The blocks -/

/-- A parsed list of positions: the directory of its blocks, their payload and the number of
positions. -/
structure PositionBlocks where
  directory : List UInt8
  payload : List UInt8
  count : ℕ
  deriving DecidableEq

namespace PositionBlocks

/-- What ends a call without a result: an error of the codec, or an index outside of a slice. -/
inductive Fault where
  | error (e : Error)
  | index
  deriving DecidableEq

/-- A call that only returns errors. -/
def Fault.lift {α : Type} : Except Error α → Except Fault α := Except.mapError .error

/-- `bytes[start..stop]`. -/
def slice (bytes : List UInt8) (start stop : ℕ) : Except Fault (List UInt8) :=
  if start ≤ stop ∧ stop ≤ bytes.length then .ok ((bytes.drop start).take (stop - start))
  else .error .index

/-- The number of positions of a full block. -/
def blockPositions : ℕ := 128

/-- The length of the header. -/
def headerBytes : ℕ := 8

/-- The length of a directory entry. -/
def entrySize : ℕ := 16

/-- The magic `PB01`. -/
def magic : List UInt8 := [0x50, 0x42, 0x30, 0x31]

/-- An entry of the directory. -/
structure Block where
  first : ℕ
  last : ℕ
  start : ℕ
  stop : ℕ
  deriving DecidableEq

/-- What a seek found, and how much it decoded. -/
structure SeekResult where
  position : Option ℕ
  decodedPositions : ℕ
  decodedBytes : ℕ
  deriving DecidableEq

/-- How many blocks so many positions take. -/
def blockCount (count : ℕ) : ℕ := (count + (blockPositions - 1)) / blockPositions

/-- The number of blocks. -/
def blocks (v : PositionBlocks) : ℕ := v.directory.length / entrySize

/-- The number of positions in a block; the last one may be shorter. -/
def blockLen (v : PositionBlocks) (index : ℕ) : ℕ :=
  min (v.count - index * blockPositions) blockPositions

/-- Reads a directory entry. -/
def entry : Parse Block := do
  let first ← u32
  let last ← u32
  let start ← u32
  let stop ← u32
  return ⟨first, last, start, stop⟩

/-- The directory entry of a block. -/
def block (v : PositionBlocks) (index : ℕ) : Except Fault Block := do
  let bytes ← slice v.directory (index * entrySize) ((index + 1) * entrySize)
  Fault.lift (run entry bytes)

/-- Count, directory and payload, not looked at yet. -/
def view (maxPositions : ℕ) : Parse PositionBlocks := do
  let found ← take 4
  Read.ensure (found = magic) (.codecAt 0 .badMagic)
  let count ← u32
  Read.ensure (count ≤ maxPositions) (.codecAt 4 .limitExceeded)
  Read.ensure (blockCount count * entrySize < usizeLimit) (.codecAt 4 .overflow)
  let directory ← take (blockCount count * entrySize)
  let r ← Read.cursor
  let payload ← take r.remaining
  return ⟨directory, payload, count⟩

/-- The extent and the bounds of a block of `n` positions that starts at `stop`. -/
def extentOk (v : PositionBlocks) (b : Block) (n stop : ℕ) : Prop :=
  ¬ (b.start ≠ stop ∨ v.payload.length < b.stop ∨ b.stop - b.start < n - 1 ∨
    (n - 1) * 5 < b.stop - b.start ∨ b.last < b.first ∨ (n = 1 ∧ b.first ≠ b.last) ∨
    b.last - b.first < n - 1)

instance (v : PositionBlocks) (b : Block) (n stop : ℕ) : Decidable (v.extentOk b n stop) :=
  inferInstanceAs (Decidable (¬ _))

/-- Checks the next blocks from `index` on, after one that ends at `stop` with the position
`previous`; returns where the last one ends. -/
def checkBlocks (v : PositionBlocks) : ℕ → ℕ → ℕ → Option ℕ → Except Fault ℕ
  | 0, _, stop, _ => .ok stop
  | n + 1, index, stop, previous => do
    let b ← v.block index
    if b.stop < b.start then
      .error (.error (.codecAt (headerBytes + index * entrySize) .invalidValue))
    else if ¬ v.extentOk b (v.blockLen index) stop then
      .error (.error (.codecAt (headerBytes + index * entrySize) .invalidValue))
    else if previous.any (fun last => decide (b.first ≤ last)) = true then
      .error (.error (.codecAt (headerBytes + index * entrySize) .invalidOrder))
    else checkBlocks v n (index + 1) b.stop (some b.last)

/-- Checks all directory extents and bounds, without reading delta payloads. -/
def open' (bytes : List UInt8) (maxPositions : ℕ) : Except Fault PositionBlocks := do
  let v ← Fault.lift (run (view maxPositions) bytes)
  let stop ← v.checkBlocks (blockCount v.count) 0 0 none
  if stop ≠ v.payload.length then
    .error (.error (.codecAt (headerBytes + blockCount v.count * entrySize + stop) .trailingBytes))
  else .ok v

/-- Decodes the `n` positions after `position`; `found` is the first one from the target on. -/
def decodeFrom (target : ℕ) : ℕ → Reader → ℕ → Option ℕ → Except Error (Reader × ℕ × Option ℕ)
  | 0, r, position, found => .ok (r, position, found)
  | n + 1, r, position, found =>
    match varU32 r with
    | (.error e, _) => .error e
    | (.ok delta, r') =>
      if delta = 0 then .error (.codecAt r.offset .invalidOrder)
      else if u32Limit ≤ position + delta then .error (.codecAt r.offset .overflow)
      else decodeFrom target n r' (position + delta)
        (if found = none ∧ target ≤ position + delta then some (position + delta) else found)

/-- Validates the whole selected block, even when the answer appears early. -/
def decode (v : PositionBlocks) (index target : ℕ) : Except Fault SeekResult := do
  let b ← v.block index
  let bytes ← slice v.payload b.start b.stop
  let (r, position, found) ← Fault.lift (decodeFrom target (v.blockLen index - 1) (Reader.new bytes)
    b.first (if target ≤ b.first then some b.first else none))
  Fault.lift r.finish
  if position ≠ b.last then .error (.error (.codecAt b.start .invalidValue))
  else .ok ⟨found, v.blockLen index, b.stop - b.start⟩

/-- Binary search over the checked bounds; skipped payloads are not certified. -/
def seekGe (v : PositionBlocks) (target : ℕ) : Except Fault SeekResult := do
  let low ← probeFrom (fun middle => do
    let b ← v.block middle
    .ok (decide (b.last < target))) v.blocks 0 v.blocks
  if low = v.blocks then .ok ⟨none, 0, 0⟩ else v.decode low target

/-- Decodes the next `n` blocks from `index` on. -/
def validateFrom (v : PositionBlocks) : ℕ → ℕ → Except Fault Unit
  | 0, _ => .ok ⟨⟩
  | n + 1, index => do
    let _ ← v.decode index 0
    validateFrom v n (index + 1)

/-- Checks every block. -/
def validateAll (v : PositionBlocks) : Except Fault Unit := v.validateFrom v.blocks 0

/-! ### The encoder -/

/-- The next `n` blocks of a list. -/
def chunks : ℕ → List ℕ → List (List ℕ)
  | 0, _ => []
  | n + 1, ps => ps.take blockPositions :: chunks n (ps.drop blockPositions)

/-- Neighbours are in order. -/
def ordered : ℕ → List ℕ → Except Error Unit
  | index, p :: q :: ps =>
    if q ≤ p then .error (.codecAt index .invalidOrder) else ordered (index + 1) (q :: ps)
  | _, _ => .ok ⟨⟩

/-- The size of the deltas of one block, with `bytes` before them. -/
def measuredBlock : ℕ → List ℕ → Except Error ℕ
  | bytes, p :: q :: ps =>
    if usizeLimit ≤ bytes + varU32Bits (q - p) then .error (.codecAt 0 .overflow)
    else measuredBlock (bytes + varU32Bits (q - p)) (q :: ps)
  | bytes, _ => .ok bytes

/-- The length of the payload of all blocks, counted on from `bytes`. -/
def measuredBlocks : ℕ → List (List ℕ) → Except Error ℕ
  | bytes, [] => .ok bytes
  | bytes, b :: bs => do
    let bytes ← measuredBlock bytes b
    measuredBlocks bytes bs

/-- Writes the gaps of a block. -/
def writeBlock : List ℕ → Writer.Emit
  | p :: q :: ps => do
    Writer.varU32 (q - p)
    writeBlock (q :: ps)
  | _ => pure ⟨⟩

/-- A program that fills two buffers, a directory and its payload. -/
abbrev Emit := Read (Writer × Writer) Error PUnit

/-- Writes to the directory. -/
def onDirectory (x : Writer.Emit) : Emit := fun w => ((x w.1).1, (x w.1).2, w.2)

/-- Writes to the payload. -/
def onPayload (x : Writer.Emit) : Emit := fun w => ((x w.2).1, w.1, (x w.2).2)

/-- Writes the directory entries and the payload of all blocks. -/
def writeBlocks : List (List ℕ) → Emit
  | [] => pure ⟨⟩
  | b :: bs => do
    onDirectory (Writer.u32 (b.headD 0))
    onDirectory (Writer.u32 (b.getLastD 0))
    let w ← Read.cursor
    onDirectory (Writer.u32 (w.2.written.length % u32Limit))
    onPayload (writeBlock b)
    let w ← Read.cursor
    onDirectory (Writer.u32 (w.2.written.length % u32Limit))
    writeBlocks bs

/-- Validates the positions and the size of the output; returns the sizes of the two parts. -/
def plan (maxPositions : ℕ) (positions : List ℕ) (room : ℕ) : Except Error (ℕ × ℕ) :=
  if u32Limit ≤ positions.length then .error (.codecAt 0 .limitExceeded)
  else if maxPositions < positions.length then .error (.codecAt 0 .limitExceeded)
  else do
    ordered 0 positions
    let directoryLen := blockCount positions.length * entrySize + headerBytes
    if usizeLimit ≤ directoryLen then .error (.codecAt 0 .overflow)
    else do
      let payloadLen ← measuredBlocks 0 (chunks (blockCount positions.length) positions)
      if u32Limit ≤ payloadLen then .error (.codecAt 0 .limitExceeded)
      else if usizeLimit ≤ directoryLen + payloadLen then .error (.codecAt 0 .overflow)
      else if room < directoryLen + payloadLen then .error (.codecAt 0 .truncated)
      else .ok (directoryLen, payloadLen)

/-- Writes a list of positions; a refusal of the plan leaves the buffer as it was. -/
def encode (maxPositions : ℕ) (positions : List ℕ) (output : List UInt8) :
    Except Error ℕ × List UInt8 :=
  match plan maxPositions positions output.length with
  | .error e => (.error e, output)
  | .ok (directoryLen, payloadLen) =>
    let program : Emit := do
      onDirectory (Writer.put magic)
      onDirectory (Writer.u32 positions.length)
      writeBlocks (chunks (blockCount positions.length) positions)
    match program (Writer.new directoryLen, Writer.new payloadLen) with
    | (result, directory, payload) =>
      (result.map fun _ => directoryLen + payloadLen,
        directory.written ++ (output.take directoryLen).drop directory.written.length ++
          (payload.written ++ (output.drop directoryLen).drop payload.written.length))

/-! ### What is encoded -/

/-- The payload of a block: what follows its first position. -/
def deltas : List ℕ → List UInt8
  | [] => []
  | p :: ps => deltaBytes p ps

/-- The directory of blocks whose payload starts at `start`. -/
def entries : ℕ → List (List ℕ) → List Block
  | _, [] => []
  | start, b :: bs =>
    ⟨b.headD 0, b.getLastD 0, start, start + (deltas b).length⟩ ::
      entries (start + (deltas b).length) bs

/-- The bytes of a directory entry. -/
def entryBytes (b : Block) : List UInt8 :=
  bytesU32 b.first ++ (bytesU32 b.last ++ (bytesU32 b.start ++ bytesU32 b.stop))

/-- The view of some blocks. -/
def ofBlocks (bs : List (List ℕ)) : PositionBlocks where
  directory := (entries 0 bs).flatMap entryBytes
  payload := (bs.map deltas).flatten
  count := bs.flatten.length

/-- The bytes of a parsed list. -/
def bytes (v : PositionBlocks) : List UInt8 :=
  magic ++ (bytesU32 v.count ++ (v.directory ++ v.payload))

/-- The encoding of a list of positions. -/
def blockBytes (ps : List ℕ) : List UInt8 := (ofBlocks (chunks (blockCount ps.length) ps)).bytes

/-! ### Cutting into blocks -/

section

variable {n i start target position p q : ℕ} {ps qs b : List ℕ} {bs : List (List ℕ)}
  {v : PositionBlocks} {found : Option ℕ} {r : Reader}

theorem length_chunks : (chunks n ps).length = n := by
  induction n generalizing ps with
  | zero => rfl
  | succ n ih => rw [chunks, List.length_cons, ih]

theorem getElem_chunks (hi : i < (chunks n ps).length) :
    (chunks n ps)[i] = (ps.drop (i * blockPositions)).take blockPositions := by
  induction n generalizing ps i with
  | zero => exact absurd hi (Nat.not_lt_zero i)
  | succ n ih =>
    cases i with
    | zero =>
      rw [Nat.zero_mul, List.drop_zero]
      rfl
    | succ i =>
      have hi' : i < (chunks n (ps.drop blockPositions)).length := Nat.lt_of_succ_lt_succ hi
      have hget := ih hi'
      rwa [List.drop_drop, Nat.add_comm, ← Nat.succ_mul] at hget

theorem flatten_chunks (hn : blockCount ps.length ≤ n) : (chunks n ps).flatten = ps := by
  unfold blockCount blockPositions at hn
  induction n generalizing ps with
  | zero =>
    have hlen : ps.length = 0 := by omega
    rw [List.length_eq_zero_iff.1 hlen]
    rfl
  | succ n ih =>
    rw [chunks, List.flatten_cons, ih, List.take_append_drop]
    rw [List.length_drop, blockPositions]
    omega

/-- All blocks in front of a block are full. -/
theorem length_take_blocks {total : ℕ} (hb : ∀ j (hj : j < bs.length),
    bs[j].length = min (total - j * blockPositions) blockPositions) (hi : i ≤ bs.length) :
    (bs.take i).flatten.length = min (i * blockPositions) total := by
  induction i with
  | zero => simp
  | succ i ih =>
    rw [length_take_succ_flatten hi, ih (Nat.le_of_lt hi), hb i hi, Nat.succ_mul]
    omega

/-- Blocks that are full up to the last one are the blocks of the whole. -/
theorem chunks_flatten (hb : ∀ j (hj : j < bs.length),
    bs[j].length = min (bs.flatten.length - j * blockPositions) blockPositions) :
    chunks bs.length bs.flatten = bs := by
  refine List.ext_getElem length_chunks fun j _ hj => ?_
  rw [getElem_chunks]
  have hslice := slice_flatten hj
  rw [length_take_blocks hb (Nat.le_of_lt hj), hb j hj] at hslice
  rw [← hslice]
  rcases Nat.le_total (j * blockPositions) bs.flatten.length with hle | hle
  · rw [Nat.min_eq_left hle, List.take_eq_take_iff, List.length_drop]
    omega
  · rw [List.drop_eq_nil_of_le hle, List.drop_eq_nil_of_le (by omega), List.take_nil, List.take_nil]

/-! ### Reading a block -/

/-- The loop reads what the iterator of a position stream reads. -/
theorem decodeFrom_eq : decodeFrom target n r position found =
    ((⟨r, n, position, false⟩ : PositionIter).collect n).map fun x =>
      (x.2.reader, x.1.getLastD position, found <|> x.1.find? fun p => decide (target ≤ p)) := by
  induction n generalizing r position found with
  | zero => cases found <;> rfl
  | succ n ih =>
    unfold decodeFrom PositionIter.collect PositionIter.next
    rw [if_neg (Nat.succ_ne_zero n)]
    rcases hv : varU32 r with ⟨e | delta, r'⟩
    · rfl
    simp only
    by_cases hdelta : delta = 0
    · rw [if_pos hdelta, if_pos ⟨trivial, hdelta⟩]
      rfl
    rw [if_neg hdelta, if_neg (not_and_of_not_right True hdelta)]
    by_cases hover : u32Limit ≤ position + delta
    · rw [if_pos hover, if_pos hover]
      rfl
    rw [if_neg hover, if_neg hover, ih, Nat.add_sub_cancel]
    have hfound : ∀ ps : List ℕ, ((if found = none ∧ target ≤ position + delta then
        some (position + delta) else found) <|> ps.find? fun p => decide (target ≤ p)) =
          (found <|> ((position + delta) :: ps).find? fun p => decide (target ≤ p)) := by
      intro ps
      cases found with
      | some q =>
        rw [if_neg fun h => nomatch h.1]
        rfl
      | none =>
        by_cases ht : target ≤ position + delta
        · rw [if_pos ⟨rfl, ht⟩, List.find?_cons, decide_eq_true ht]
          rfl
        · rw [if_neg fun h => ht h.2, List.find?_cons, decide_eq_false ht]
    rcases hc : (⟨r', n, position + delta, false⟩ : PositionIter).collect n with e | ⟨ps, it⟩
    · simp only [hc]
      rfl
    · simp only [hc, ok_bind, Except.map, hfound, List.getLastD_cons]

/-! ### Sizes -/

theorem length_varBytes_le (k n : ℕ) : (varBytes k n).length ≤ k + 1 := by
  induction k generalizing n with
  | zero => exact Nat.le_refl 1
  | succ k ih =>
    rw [varBytes]
    split_ifs
    · exact Nat.le_add_left 1 (k + 1)
    · exact Nat.succ_le_succ (ih _)

theorem length_deltaBytes_le : (deltaBytes p ps).length ≤ ps.length * 5 := by
  induction ps generalizing p with
  | nil => exact Nat.le_refl 0
  | cons q ps ih =>
    have hq : (varU32Bytes (q - p)).length ≤ 5 := length_varBytes_le 4 (q - p)
    have := @ih q
    rw [deltaBytes, List.length_append, List.length_cons]
    omega

/-- A delta is not smaller than the number of its bytes. -/
theorem length_varU32Bytes_le (h : p ≠ 0) (hp : p < u32Limit) : (varU32Bytes p).length ≤ p := by
  have hlog : p.log2 < p := (Nat.log2_lt h).2 Nat.lt_two_pow_self
  rw [length_varU32Bytes hp, varU32Bits, if_neg h]
  omega

theorem ascends_of_pairwise (hs : (p :: ps).Pairwise (· < ·)) (hlt : ∀ q ∈ p :: ps, q < u32Limit) :
    Ascends false p ps := by
  obtain ⟨hp, hs⟩ := List.pairwise_cons.1 hs
  exact ⟨hs, fun q hq => ⟨Nat.le_of_lt (hp q hq), fun _ => hp q hq⟩,
    fun q hq => hlt q (List.mem_cons_of_mem _ hq)⟩

/-- Positions rise by one at least, and so do the bytes of their deltas. -/
theorem getLastD_ge (h : Ascends false p ps) :
    p + ps.length ≤ ps.getLastD p ∧ p + (deltaBytes p ps).length ≤ ps.getLastD p := by
  induction ps generalizing p with
  | nil => exact ⟨Nat.le_refl _, Nat.le_refl _⟩
  | cons q ps ih =>
    obtain ⟨⟨-, hlt, hq⟩, h⟩ := Ascends.cons_iff.1 h
    have hpq := hlt rfl
    obtain ⟨hlen, hbytes⟩ := ih h
    have hdelta := @length_varU32Bytes_le (q - p) (by omega) (by omega)
    rw [List.getLastD_cons, List.length_cons, deltaBytes, List.length_append]
    omega

theorem getLastD_mem : ps.getLastD p ∈ p :: ps := by
  induction ps generalizing p with
  | nil => exact List.mem_cons_self
  | cons q ps ih =>
    rw [List.getLastD_cons]
    exact List.mem_cons_of_mem _ ih

theorem le_getLastD_of_sorted (hs : ps.Pairwise (· < ·)) (hp : p ∈ ps) : p ≤ ps.getLastD q := by
  induction ps generalizing q with
  | nil => exact absurd hp List.not_mem_nil
  | cons r ps ih =>
    obtain ⟨hr, hs⟩ := List.pairwise_cons.1 hs
    rw [List.getLastD_cons]
    rcases List.mem_cons.1 hp with rfl | hp
    · rcases List.mem_cons.1 (@getLastD_mem p ps) with h | h
      · exact Nat.le_of_eq h.symm
      · exact Nat.le_of_lt (hr _ h)
    · exact ih hs hp

/-- Blocks of increasing positions, full up to the last one. -/
structure Good (bs : List (List ℕ)) : Prop where
  ne_nil : ∀ b ∈ bs, b ≠ []
  sorted : bs.flatten.Pairwise (· < ·)
  lt : ∀ p ∈ bs.flatten, p < u32Limit
  length : ∀ j (hj : j < bs.length),
    bs[j].length = min (bs.flatten.length - j * blockPositions) blockPositions

/-- The payload is smaller than the range of the positions. -/
theorem length_payload_lt (hne : ∀ b ∈ bs, b ≠ []) (hs : bs.flatten.Pairwise (· < ·))
    (hlt : ∀ p ∈ bs.flatten, p < u32Limit) (hn : n < u32Limit) (hle : ∀ p ∈ bs.flatten, n ≤ p) :
    n + (bs.map deltas).flatten.length < u32Limit := by
  induction bs generalizing n with
  | nil => exact hn
  | cons b bs ih =>
    obtain ⟨p, ps, rfl⟩ := List.exists_cons_of_ne_nil (hne b List.mem_cons_self)
    rw [List.flatten_cons] at hs hlt hle
    obtain ⟨hb, hs, hlast⟩ := List.pairwise_append.1 hs
    have ha := ascends_of_pairwise hb fun q hq => hlt q (List.mem_append_left _ hq)
    have hmem : ps.getLastD p ∈ p :: ps := getLastD_mem
    have hrest := ih (fun c hc => hne c (List.mem_cons_of_mem _ hc)) hs
      (fun q hq => hlt q (List.mem_append_right _ hq)) (hlt _ (List.mem_append_left _ hmem))
      fun q hq => Nat.le_of_lt (hlast _ hmem q hq)
    have hp := hle p (List.mem_append_left _ List.mem_cons_self)
    have := (getLastD_ge ha).2
    rw [List.map_cons, List.flatten_cons, List.length_append, deltas]
    omega

/-! ### The directory -/

theorem length_entries : (entries start bs).length = bs.length := by
  induction bs generalizing start with
  | nil => rfl
  | cons b bs ih => rw [entries, List.length_cons, ih, List.length_cons]

/-- A block extends from the end of the blocks in front of it over its payload. -/
theorem getElem_entries (hi : i < (entries start bs).length) (hi' : i < bs.length) :
    (entries start bs)[i] = ⟨bs[i].headD 0, bs[i].getLastD 0,
      start + ((bs.map deltas).take i).flatten.length,
      start + ((bs.map deltas).take (i + 1)).flatten.length⟩ := by
  induction bs generalizing start i with
  | nil => exact absurd hi' (Nat.not_lt_zero i)
  | cons b bs ih =>
    cases i with
    | zero => simp [entries]
    | succ i =>
      have hlt : i < bs.length := Nat.lt_of_succ_lt_succ hi'
      have hget := @ih i (start + (deltas b).length) (by rw [length_entries]; exact hlt) hlt
      simp only [List.map_cons, List.take_succ_cons, List.flatten_cons, List.length_append,
        ← Nat.add_assoc]
      exact hget

theorem decodes_entry {e : Block} (hf : e.first < u32Limit) (hl : e.last < u32Limit)
    (hs : e.start < u32Limit) (ht : e.stop < u32Limit) : Decodes entry (entryBytes e) e := by
  have hbytes : entryBytes e = bytesU32 e.first ++ (bytesU32 e.last ++ (bytesU32 e.start ++
      (bytesU32 e.stop ++ []))) := by
    rw [List.append_nil]
    rfl
  rw [hbytes]
  refine Decodes.bind (fun _ _ hfit h => u32_past hfit hf h) ?_
  refine Decodes.bind (fun _ _ hfit h => u32_past hfit hl h) ?_
  refine Decodes.bind (fun _ _ hfit h => u32_past hfit hs h) ?_
  exact Decodes.bind (fun _ _ hfit h => u32_past hfit ht h) .pure

theorem length_entryBytes {e : Block} : (entryBytes e).length = 16 := rfl

theorem slice_ok {bytes : List UInt8} {stop : ℕ} (h : start ≤ stop) (h' : stop ≤ bytes.length) :
    slice bytes start stop = .ok ((bytes.drop start).take (stop - start)) := if_pos ⟨h, h'⟩

theorem of_slice {bytes found : List UInt8} {stop : ℕ} (h : slice bytes start stop = .ok found) :
    start ≤ stop ∧ stop ≤ bytes.length ∧ found = (bytes.drop start).take (stop - start) := by
  rw [slice] at h
  split_ifs at h with hb
  cases h
  exact ⟨hb.1, hb.2, rfl⟩

theorem of_lift {α : Type} {x : Except Error α} {a : α} (h : Fault.lift x = .ok a) : x = .ok a := by
  cases x with
  | error e => cases h
  | ok b =>
    cases h
    rfl

theorem block_ok {es : List Block} (hd : v.directory = es.flatMap entryBytes) (hi : i < es.length)
    (hf : es[i].first < u32Limit) (hl : es[i].last < u32Limit) (hs : es[i].start < u32Limit)
    (ht : es[i].stop < u32Limit) : v.block i = .ok es[i] := by
  have hlen : v.directory.length = es.length * 16 := by
    rw [hd]
    exact length_flatMap_const (fun _ => length_entryBytes) es
  have hfield := field_flatMap_const (fun e => @length_entryBytes e) hi
  rw [← hd] at hfield
  have hsub : (i + 1) * entrySize - i * entrySize = 16 := by
    rw [Nat.succ_mul, Nat.add_sub_cancel_left]
    rfl
  have hrun : run entry (entryBytes es[i]) = .ok es[i] :=
    (decodes_entry hf hl hs ht).run (by rw [length_entryBytes]; decide)
  rw [block, slice_ok (Nat.mul_le_mul_right _ (Nat.le_succ i)) (by unfold entrySize; omega),
    ok_bind, hsub]
  have hfield' : (v.directory.drop (i * entrySize)).take 16 = entryBytes es[i] := hfield
  rw [hfield', hrun]
  rfl

/-- What is read is the entry in the directory. -/
theorem of_block {e : Block} (h : v.block i = .ok e) :
    (i + 1) * 16 ≤ v.directory.length ∧ (v.directory.drop (i * 16)).take 16 = entryBytes e ∧
      e.first < u32Limit := by
  obtain ⟨bytes, hslice, h⟩ := ok_of_bind h
  obtain ⟨-, hle, rfl⟩ := of_slice hslice
  have hrun := of_lift h
  rcases hr : entry (new ((v.directory.drop (i * entrySize)).take
    ((i + 1) * entrySize - i * entrySize))) with ⟨_ | e', r⟩
  · rw [run, hr] at hrun
    cases hrun
  rw [run, hr] at hrun
  cases hrun
  unfold entry at hr
  obtain ⟨first, r₁, hfirst, hr⟩ := Read.of_bind hr
  obtain ⟨last, r₂, hlast, hr⟩ := Read.of_bind hr
  obtain ⟨start, r₃, hstart, hr⟩ := Read.of_bind hr
  obtain ⟨stop, r₄, hstop, hr⟩ := Read.of_bind hr
  cases hr
  obtain ⟨hf, p₁⟩ := past_of_u32 hfirst
  obtain ⟨-, p₂⟩ := past_of_u32 hlast
  obtain ⟨-, p₃⟩ := past_of_u32 hstart
  obtain ⟨-, p₄⟩ := past_of_u32 hstop
  have hall := p₁.append (p₂.append (p₃.append p₄))
  have hsub : (i + 1) * entrySize - i * entrySize = 16 := by
    rw [Nat.succ_mul, Nat.add_sub_cancel_left]
    rfl
  rw [hsub] at hall
  -- sixteen bytes are read of sixteen
  have hnil : r.rest = [] := by
    have hlen := hall.length_le
    simp only [new, List.length_take, List.length_append, length_bytesU32] at hlen
    exact List.length_eq_zero_iff.1 (by omega)
  exact ⟨hle, hall.all hnil, hf⟩

/-! ### Opening -/

theorem blockCount_mul_lt {count : ℕ} (hi : i < blockCount count) : i * blockPositions < count := by
  unfold blockCount at hi
  unfold blockPositions at *
  omega

theorem Good.length_eq (h : Good bs) : bs.length = blockCount bs.flatten.length := by
  have hall := length_take_blocks h.length (Nat.le_refl bs.length)
  rw [List.take_length] at hall
  have hfull : bs.length = 0 ∨ (bs.length - 1) * blockPositions < bs.flatten.length := by
    by_cases h0 : bs.length = 0
    · exact .inl h0
    · have hlast : bs.length - 1 < bs.length := by omega
      have hne := h.ne_nil _ (List.getElem_mem hlast)
      have := List.length_pos_iff.2 hne
      rw [h.length _ hlast] at this
      omega
  unfold blockCount blockPositions at *
  omega

/-- The fields of the entry of a good block. -/
theorem Good.entry_lt (h : Good bs) (hi : i < bs.length) :
    bs[i].headD 0 < u32Limit ∧ bs[i].getLastD 0 < u32Limit ∧
      ((bs.map deltas).take i).flatten.length < u32Limit ∧
      ((bs.map deltas).take (i + 1)).flatten.length < u32Limit := by
  have hmem : ∀ p ∈ bs[i], p < u32Limit := fun p hp =>
    h.lt p (List.mem_flatten.2 ⟨_, List.getElem_mem hi, hp⟩)
  have hpayload := length_payload_lt h.ne_nil h.sorted h.lt (by decide) fun p _ => Nat.zero_le p
  rw [Nat.zero_add] at hpayload
  refine ⟨?_, ?_, Nat.lt_of_le_of_lt (length_take_flatten_le _ _) hpayload,
    Nat.lt_of_le_of_lt (length_take_flatten_le _ _) hpayload⟩
  all_goals
    obtain ⟨p, ps, hb⟩ := List.exists_cons_of_ne_nil (h.ne_nil _ (List.getElem_mem hi))
    rw [hb] at hmem ⊢
  · exact hmem p List.mem_cons_self
  · rw [List.getLastD_cons]
    exact hmem _ getLastD_mem

theorem Good.block (h : Good bs) (hi : i < bs.length) : (ofBlocks bs).block i = .ok
    ⟨bs[i].headD 0, bs[i].getLastD 0, ((bs.map deltas).take i).flatten.length,
      ((bs.map deltas).take (i + 1)).flatten.length⟩ := by
  have hi' : i < (entries 0 bs).length := by
    rw [length_entries]
    exact hi
  obtain ⟨hf, hl, hs, ht⟩ := h.entry_lt hi
  have hget := getElem_entries hi' hi
  simp only [Nat.zero_add] at hget
  have hblock := @block_ok i (ofBlocks bs) (entries 0 bs) rfl hi' (by rw [hget]; exact hf)
    (by rw [hget]; exact hl) (by rw [hget]; exact hs) (by rw [hget]; exact ht)
  rw [hblock, hget]

theorem Good.blockLen (h : Good bs) (hi : i < bs.length) :
    (ofBlocks bs).blockLen i = bs[i].length := (h.length i hi).symm

/-- The checks of one block. -/
theorem Good.extentOk (h : Good bs) (hi : i < bs.length) :
    (ofBlocks bs).extentOk ⟨bs[i].headD 0, bs[i].getLastD 0,
      ((bs.map deltas).take i).flatten.length, ((bs.map deltas).take (i + 1)).flatten.length⟩
      bs[i].length ((bs.map deltas).take i).flatten.length := by
  have hle := length_take_flatten_le (bs.map deltas) (i + 1)
  have hstop := @length_take_succ_flatten _ (bs.map deltas) i (by rw [List.length_map]; exact hi)
  rw [List.getElem_map] at hstop
  have hpayload : (ofBlocks bs).payload = (bs.map deltas).flatten := rfl
  have hsub : bs[i].Sublist bs.flatten := List.sublist_flatten_of_mem (List.getElem_mem hi)
  obtain ⟨p, ps, hb⟩ := List.exists_cons_of_ne_nil (h.ne_nil _ (List.getElem_mem hi))
  have ha : Ascends false p ps := by
    rw [hb] at hsub
    exact ascends_of_pairwise (h.sorted.sublist hsub) fun q hq => h.lt q (hsub.subset hq)
  have hlow := length_le_deltaBytes p ps
  have hhigh := @length_deltaBytes_le p ps
  obtain ⟨hrise, -⟩ := getLastD_ge ha
  rw [hb, deltas] at hstop
  have hnil : ps.length = 0 → ps.getLastD p = p := fun h0 => by
    rw [List.length_eq_zero_iff.1 h0]
    rfl
  unfold PositionBlocks.extentOk
  simp only [hb, hpayload, List.headD_cons, List.getLastD_cons, List.length_cons]
  omega

theorem Good.headD_mem (h : Good bs) (hi : i < bs.length) : bs[i].headD 0 ∈ bs[i] := by
  obtain ⟨p, ps, hb⟩ := List.exists_cons_of_ne_nil (h.ne_nil _ (List.getElem_mem hi))
  rw [hb]
  exact List.mem_cons_self

theorem Good.getLastD_mem (h : Good bs) (hi : i < bs.length) : bs[i].getLastD 0 ∈ bs[i] := by
  obtain ⟨p, ps, hb⟩ := List.exists_cons_of_ne_nil (h.ne_nil _ (List.getElem_mem hi))
  rw [hb, List.getLastD_cons]
  exact PositionBlocks.getLastD_mem

/-- The positions of a block are before those of a later one. -/
theorem Good.before (h : Good bs) {j : ℕ} (hj : j < i) (hi : i < bs.length) :
    ∀ x ∈ bs[j], ∀ y ∈ bs[i], x < y :=
  List.pairwise_iff_getElem.1 (List.pairwise_flatten.1 h.sorted).2 j i (Nat.lt_trans hj hi) hi hj

/-- The checks of the blocks from `i` on. -/
theorem Good.checkBlocks (h : Good bs) {previous : Option ℕ} (hn : i + n = bs.length)
    (hprevious : ∀ last ∈ previous, ∃ j, ∃ hj : j < bs.length,
      j < i ∧ last = bs[j].getLastD 0) :
    (ofBlocks bs).checkBlocks n i ((bs.map deltas).take i).flatten.length previous =
      .ok (bs.map deltas).flatten.length := by
  induction n generalizing i previous with
  | zero =>
    have hi : i = (bs.map deltas).length := by
      rw [List.length_map]
      omega
    rw [PositionBlocks.checkBlocks, hi, List.take_length]
  | succ n ih =>
    have hi : i < bs.length := by omega
    have hstop := @length_take_succ_flatten _ (bs.map deltas) i (by rw [List.length_map]; exact hi)
    have horder : ¬ (previous.any fun last => decide (bs[i].headD 0 ≤ last)) = true := by
      intro hany
      cases previous with
      | none => exact absurd hany Bool.false_ne_true
      | some last =>
        obtain ⟨j, hj', hj, rfl⟩ := hprevious last rfl
        have hle := of_decide_eq_true hany
        have hlt := h.before hj hi _ (h.getLastD_mem hj') _ (h.headD_mem hi)
        omega
    rw [PositionBlocks.checkBlocks, h.block hi, ok_bind, h.blockLen hi]
    rw [if_neg (by simp only; omega), if_neg (not_not.2 (h.extentOk hi)), if_neg horder]
    exact ih (by omega) fun last hlast => ⟨i, hi, Nat.lt_succ_self i, (Option.some.inj hlast).symm⟩

theorem length_directory : (ofBlocks bs).directory.length = bs.length * entrySize := by
  have := length_flatMap_const (fun e => @length_entryBytes e) (entries 0 bs)
  rwa [length_entries] at this

theorem blocks_eq : (ofBlocks bs).blocks = bs.length := by
  rw [blocks, length_directory, entrySize, Nat.mul_div_cancel _ (by decide)]

/-- The size of an encoding. -/
theorem length_bytes : (ofBlocks bs).bytes.length =
    headerBytes + (bs.length * entrySize + (bs.map deltas).flatten.length) := by
  have hpayload : (ofBlocks bs).payload = (bs.map deltas).flatten := rfl
  have hmagic : magic.length = 4 := rfl
  rw [bytes, List.length_append, List.length_append, List.length_append, length_bytesU32,
    length_directory, hpayload, hmagic, headerBytes]
  omega

theorem Good.length_bytes_lt (h : Good bs) (hcount : bs.flatten.length < u32Limit) :
    (ofBlocks bs).bytes.length < usizeLimit := by
  have hpayload := length_payload_lt h.ne_nil h.sorted h.lt (by decide) fun p _ => Nat.zero_le p
  have hlimit : headerBytes + (u32Limit * entrySize + u32Limit) < usizeLimit := by decide
  rw [length_bytes, h.length_eq]
  unfold blockCount blockPositions headerBytes entrySize at *
  omega

/-- The parts of an encoding are found again. -/
theorem run_view {maxPositions : ℕ} (hlen : v.directory.length = blockCount v.count * entrySize)
    (hcount : v.count ≤ maxPositions) (hmax : maxPositions < u32Limit)
    (hsize : v.bytes.length < usizeLimit) : run (view maxPositions) v.bytes = .ok v := by
  have hf : (new v.bytes).Fits := by
    unfold Fits new
    simp only
    omega
  have hover : blockCount v.count * entrySize < usizeLimit := by
    have hlimit : u32Limit * entrySize < usizeLimit := by decide
    unfold blockCount blockPositions entrySize at *
    omega
  have p₁ : Past (new v.bytes) magic ⟨bytesU32 v.count ++ (v.directory ++ v.payload), 4⟩ :=
    ⟨rfl, rfl⟩
  have p₂ : Past ⟨bytesU32 v.count ++ (v.directory ++ v.payload), 4⟩ (bytesU32 v.count)
      ⟨v.directory ++ v.payload, 8⟩ := ⟨rfl, rfl⟩
  have p₃ : Past ⟨v.directory ++ v.payload, 8⟩ v.directory ⟨v.payload, 8 + v.directory.length⟩ :=
    ⟨rfl, rfl⟩
  have hmagic : take 4 (new v.bytes) = _ := take_past hf p₁
  have hdirectory := take_past (p₂.fits (p₁.fits hf)) p₃
  have hrest := p₃.fits (p₂.fits (p₁.fits hf))
  rw [hlen] at hdirectory hrest
  unfold run view
  rw [Read.ok_bind hmagic, Read.ensure_bind rfl, Read.ok_bind (u32_past (p₁.fits hf) (by omega) p₂),
    Read.ensure_bind hcount, Read.ensure_bind hover, Read.ok_bind hdirectory, Read.cursor_bind,
    Read.ok_bind (take_rest hrest)]
  rfl

/-- An encoding is opened. -/
theorem Good.open_ok (h : Good bs) {maxPositions : ℕ} (hcount : bs.flatten.length ≤ maxPositions)
    (hmax : maxPositions < u32Limit) :
    open' (ofBlocks bs).bytes maxPositions = .ok (ofBlocks bs) := by
  have hcheck := @Good.checkBlocks bs.length 0 bs h none (Nat.zero_add _) nofun
  have hlen : (ofBlocks bs).directory.length = blockCount (ofBlocks bs).count * entrySize := by
    rw [length_directory, h.length_eq]
    rfl
  have hc : blockCount (ofBlocks bs).count = bs.length := h.length_eq.symm
  have hrun := run_view hlen hcount hmax (h.length_bytes_lt (by omega))
  have hstop : ¬ (bs.map deltas).flatten.length ≠ (ofBlocks bs).payload.length := not_not.2 rfl
  rw [open', hrun, Fault.lift, Except.mapError, ok_bind, hc]
  rw [List.take_zero] at hcheck
  simp only [List.flatten_nil, List.length_nil] at hcheck
  rw [hcheck, ok_bind, if_neg hstop]

/-! ### Seeking -/

/-- A block is decoded as a whole. -/
theorem Good.decode (h : Good bs) (hi : i < bs.length) : (ofBlocks bs).decode i target = .ok
    ⟨bs[i].find? fun p => decide (target ≤ p), bs[i].length, (deltas bs[i]).length⟩ := by
  have hi' : i < (bs.map deltas).length := by
    rw [List.length_map]
    exact hi
  have hstop := length_take_succ_flatten hi'
  have hle := length_take_flatten_le (bs.map deltas) (i + 1)
  have hslice := slice_flatten hi'
  rw [List.getElem_map] at hstop hslice
  have hsub : bs[i].Sublist bs.flatten := List.sublist_flatten_of_mem (List.getElem_mem hi)
  have hpayload : (ofBlocks bs).payload = (bs.map deltas).flatten := rfl
  have hdiff : ((bs.map deltas).take (i + 1)).flatten.length -
      ((bs.map deltas).take i).flatten.length = (deltas bs[i]).length := by omega
  have hbytes : slice (ofBlocks bs).payload ((bs.map deltas).take i).flatten.length
      ((bs.map deltas).take (i + 1)).flatten.length = .ok (deltas bs[i]) := by
    rw [hpayload, slice_ok (by omega) hle, hdiff, hslice]
  have hsmall := (h.entry_lt hi).2.2.2
  rw [PositionBlocks.decode, h.block hi, ok_bind, hbytes, ok_bind, h.blockLen hi]
  obtain ⟨p, ps, hb⟩ := List.exists_cons_of_ne_nil (h.ne_nil _ (List.getElem_mem hi))
  rw [hb] at hsub hstop hdiff ⊢
  have ha : Ascends false p ps :=
    ascends_of_pairwise (h.sorted.sublist hsub) fun q hq => h.lt q (hsub.subset hq)
  -- the deltas are those of the positions behind the first
  have hlimit : u32Limit < usizeLimit := by decide
  have hpast : Past (new (deltaBytes p ps)) (deltaBytes p ps) ⟨[], (deltaBytes p ps).length⟩ :=
    ⟨(List.append_nil _).symm, (Nat.zero_add _).symm⟩
  have hfits : (new (deltaBytes p ps)).Fits := by
    rw [deltas] at hstop
    unfold Fits new
    simp only
    omega
  obtain ⟨-, it, hc, hit⟩ := @PositionIter.collect_past ps
    ⟨new (deltaBytes p ps), ps.length, p, false⟩ _ hfits rfl ha hpast
  have hfin : it.reader.finish = .ok ⟨⟩ := by
    rw [hit]
    rfl
  have hread : ∀ found, decodeFrom target ((p :: ps).length - 1) (new (deltas (p :: ps))) p found =
      .ok (it.reader, ps.getLastD p, found <|> ps.find? fun q => decide (target ≤ q)) := by
    intro found
    rw [List.length_cons, Nat.add_sub_cancel, decodeFrom_eq, deltas, hc]
    rfl
  have hfound : ((if target ≤ p then some p else none) <|>
      ps.find? fun q => decide (target ≤ q)) = (p :: ps).find? fun q => decide (target ≤ q) := by
    by_cases ht : target ≤ p
    · rw [if_pos ht, List.find?_cons, decide_eq_true ht]
      rfl
    · rw [if_neg ht, List.find?_cons, decide_eq_false ht]
      rfl
  simp only [List.headD_cons, List.getLastD_cons, hread, hfin, hdiff, Fault.lift, Except.mapError,
    ok_bind, ne_eq, not_true_eq_false, if_false]
  exact congrArg (fun found => Except.ok (SeekResult.mk found _ _)) hfound
theorem Good.validateFrom (h : Good bs) (hn : i + n = bs.length) :
    (ofBlocks bs).validateFrom n i = .ok ⟨⟩ := by
  induction n generalizing i with
  | zero => rfl
  | succ n ih =>
    rw [PositionBlocks.validateFrom, h.decode (by omega), ok_bind]
    exact ih (by omega)

/-- The search leads to the block with the first position from the target on. -/
theorem Good.seek (h : Good bs) (target : ℕ) : ∃ found, (ofBlocks bs).seekGe target = .ok found ∧
    found.position = bs.flatten.find? fun p => decide (target ≤ p) := by
  have hbefore : bs.Pairwise fun a b =>
      decide (b.getLastD 0 < target) = true → decide (a.getLastD 0 < target) = true := by
    refine List.pairwise_iff_getElem.2 fun j i hj hi hlt hb => decide_eq_true ?_
    have := h.before hlt hi _ (h.getLastD_mem hj) _ (h.getLastD_mem hi)
    have := of_decide_eq_true hb
    omega
  have hiff := fun i (hi : i < bs.length) => lt_length_takeWhile hbefore hi
  have hle : (bs.takeWhile fun b => decide (b.getLastD 0 < target)).length ≤ bs.length :=
    (List.takeWhile_sublist _).length_le
  generalize (bs.takeWhile fun b => decide (b.getLastD 0 < target)).length = low at hiff hle
  have hprobe : probeFrom (fun middle => do
      let b ← (ofBlocks bs).block middle
      .ok (decide (b.last < target))) (ofBlocks bs).blocks 0 (ofBlocks bs).blocks = .ok low := by
    rw [blocks_eq]
    refine probeFrom_ok (fun j _ hj => ?_) (Nat.zero_le _) hle (Nat.sub_le _ _)
    rw [h.block hj, ok_bind, Except.ok.injEq, Bool.eq_iff_iff, decide_eq_true_eq (p := j < low)]
    exact (hiff j hj).symm
  -- no block in front of it has a position from the target on
  have hearlier : ∀ p ∈ (bs.take low).flatten, ¬ target ≤ p := by
    intro p hp
    obtain ⟨b, hb, hpb⟩ := List.mem_flatten.1 hp
    obtain ⟨j, hj, rfl⟩ := List.getElem_of_mem hb
    rw [List.length_take] at hj
    have hj' : j < bs.length := by omega
    rw [List.getElem_take] at hpb
    have hlast := of_decide_eq_true ((hiff j hj').1 (by omega))
    have hsorted : bs[j].Pairwise (· < ·) :=
      (List.pairwise_flatten.1 h.sorted).1 _ (List.getElem_mem hj')
    have := @le_getLastD_of_sorted p 0 bs[j] hsorted hpb
    omega
  rw [seekGe, hprobe, ok_bind]
  by_cases hlow : low = (ofBlocks bs).blocks
  · rw [if_pos hlow]
    rw [blocks_eq] at hlow
    rw [hlow, List.take_length] at hearlier
    exact ⟨_, rfl, (List.find?_eq_none.2 fun p hp => by simpa using hearlier p hp).symm⟩
  · rw [if_neg hlow]
    rw [blocks_eq] at hlow
    have hi : low < bs.length := by omega
    refine ⟨_, h.decode hi, ?_⟩
    have hsplit : bs.flatten = (bs.take low).flatten ++
        (bs[low] ++ (bs.drop (low + 1)).flatten) := by
      rw [← List.flatten_cons, ← List.flatten_append, ← List.drop_eq_getElem_cons hi,
        List.take_append_drop]
    have hnone : (bs.take low).flatten.find? (fun p => decide (target ≤ p)) = none :=
      List.find?_eq_none.2 fun p hp => by simpa using hearlier p hp
    have hlast : ¬ bs[low].getLastD 0 < target := fun hlt =>
      Nat.lt_irrefl low ((hiff low hi).2 (decide_eq_true hlt))
    have hsome : (bs[low].find? fun p => decide (target ≤ p)).isSome :=
      List.find?_isSome.2 ⟨_, h.getLastD_mem hi, decide_eq_true (Nat.not_lt.1 hlast)⟩
    rw [hsplit, List.find?_append, hnone, Option.none_or, List.find?_append]
    obtain ⟨p, hp⟩ := Option.isSome_iff_exists.1 hsome
    rw [hp, Option.some_or]

/-- In an increasing list the first position from the target on is the least. -/
theorem find?_least (hs : ps.Pairwise (· < ·)) :
    (ps.find? (fun p => decide (target ≤ p)) = none ↔ ∀ q ∈ ps, q < target) ∧
      ∀ p, ps.find? (fun p => decide (target ≤ p)) = some p ↔
        p ∈ ps ∧ target ≤ p ∧ ∀ q ∈ ps, target ≤ q → p ≤ q := by
  constructor
  · rw [List.find?_eq_none]
    simp only [decide_eq_true_eq, Nat.not_le]
  · intro p
    have hleast : ∀ p, ps.find? (fun p => decide (target ≤ p)) = some p →
        p ∈ ps ∧ target ≤ p ∧ ∀ q ∈ ps, target ≤ q → p ≤ q := by
      intro p hp
      obtain ⟨hle, before, after, rfl, hbefore⟩ := List.find?_eq_some_iff_append.1 hp
      refine ⟨List.mem_append_right _ List.mem_cons_self, of_decide_eq_true hle, fun q hq hqt => ?_⟩
      rcases List.mem_append.1 hq with hq | hq
      · have := hbefore q hq
        rw [decide_eq_true hqt] at this
        cases this
      · rcases List.mem_cons.1 hq with rfl | hq
        · exact Nat.le_refl _
        · exact Nat.le_of_lt ((List.pairwise_cons.1 (List.pairwise_append.1 hs).2.1).1 q hq)
    refine ⟨hleast p, fun ⟨hp, hle, hmin⟩ => ?_⟩
    -- a position from the target on is found, and there is only one least
    rcases hf : ps.find? (fun p => decide (target ≤ p)) with _ | q
    · exact absurd (decide_eq_true hle) (List.find?_eq_none.1 hf p hp)
    · obtain ⟨hq, hqt, hqmin⟩ := hleast q hf
      rw [Nat.le_antisymm (hqmin p hp hle) (hmin q hq hqt)]

/-! ### What is accepted -/

theorem of_run_view {data : List UInt8} {maxPositions : ℕ}
    (h : run (view maxPositions) data = .ok v) : data = v.bytes ∧
      v.directory.length = blockCount v.count * entrySize ∧ v.count ≤ maxPositions := by
  rcases hr : view maxPositions (new data) with ⟨_ | v', r⟩
  · rw [run, hr] at h
    cases h
  rw [run, hr] at h
  cases h
  unfold view at hr
  obtain ⟨found, r₁, hfound, hr⟩ := Read.of_bind hr
  obtain ⟨hmagic, hr⟩ := Read.of_ensure_bind hr
  obtain ⟨count, r₂, hcount, hr⟩ := Read.of_bind hr
  obtain ⟨hmax, hr⟩ := Read.of_ensure_bind hr
  obtain ⟨-, hr⟩ := Read.of_ensure_bind hr
  obtain ⟨directory, r₃, hdirectory, hr⟩ := Read.of_bind hr
  rw [Read.cursor_bind] at hr
  obtain ⟨payload, r₄, hpayload, hr⟩ := Read.of_bind hr
  cases hr
  obtain ⟨-, p₁⟩ := past_of_take hfound
  obtain ⟨-, p₂⟩ := past_of_u32 hcount
  obtain ⟨hlen, p₃⟩ := past_of_take hdirectory
  obtain ⟨p₄, hnil⟩ := of_take_rest hpayload
  subst hmagic
  exact ⟨(p₁.append (p₂.append (p₃.append p₄))).all hnil, hlen, hmax⟩

/-- A decoded block is a list of increasing positions, its payload their deltas. -/
theorem of_decode {e : Block} {x : SeekResult} (hb : v.block i = .ok e)
    (h : v.decode i target = .ok x) : ∃ ps, ps.length = v.blockLen i - 1 ∧
      Ascends false e.first ps ∧
      e.last = ps.getLastD e.first ∧ e.stop = e.start + (deltaBytes e.first ps).length ∧
      e.stop ≤ v.payload.length ∧
      v.payload.drop e.start = deltaBytes e.first ps ++ v.payload.drop e.stop := by
  rw [PositionBlocks.decode, hb, ok_bind] at h
  obtain ⟨bytes, hslice, h⟩ := ok_of_bind h
  obtain ⟨⟨r, position, found⟩, hread, h⟩ := ok_of_bind h
  obtain ⟨_, hfinish, h⟩ := ok_of_bind h
  split_ifs at h with hlast
  obtain ⟨hle, hstop, rfl⟩ := of_slice hslice
  have hread' := of_lift hread
  rw [decodeFrom_eq] at hread'
  rcases hc : (⟨new ((v.payload.drop e.start).take (e.stop - e.start)), v.blockLen i - 1, e.first,
    false⟩ : PositionIter).collect (v.blockLen i - 1) with _ | ⟨ps, it⟩
  · rw [hc] at hread'
    cases hread'
  rw [hc] at hread'
  simp only [Except.map, Except.ok.injEq, Prod.mk.injEq] at hread'
  obtain ⟨rfl, rfl, -⟩ := hread'
  have hremaining : (⟨new ((v.payload.drop e.start).take (e.stop - e.start)), v.blockLen i - 1,
    e.first, false⟩ : PositionIter).remaining = v.blockLen i - 1 := rfl
  obtain ⟨hlen, -, ha, hp⟩ := PositionIter.of_collect hremaining hc
  have hbytes := hp.all (Positions.finish_iff.1 (of_lift hfinish))
  have hsize : e.stop - e.start = (deltaBytes e.first ps).length := by
    rw [← hbytes, List.length_take, List.length_drop]
    omega
  refine ⟨ps, hlen, ha, (not_not.1 hlast).symm, by omega, hstop, ?_⟩
  have hdrop : v.payload.drop e.stop = (v.payload.drop e.start).drop (e.stop - e.start) := by
    rw [List.drop_drop, Nat.add_sub_cancel' hle]
  rw [hdrop, ← hbytes, List.take_append_drop]

/-- Blocks from `i` on that were checked and decoded are good, and the rest of the directory and of
the payload is made of them. -/
theorem of_checked {previous : Option ℕ} (hn : i + n = blockCount v.count)
    (hlen : v.directory.length = blockCount v.count * entrySize)
    (hc : v.checkBlocks n i start previous = .ok v.payload.length)
    (hv : v.validateFrom n i = .ok ⟨⟩) : ∃ bs : List (List ℕ), bs.length = n ∧
      v.directory.drop (i * 16) = (entries start bs).flatMap entryBytes ∧
      v.payload.drop start = (bs.map deltas).flatten ∧ (∀ b ∈ bs, b ≠ []) ∧
      bs.flatten.Pairwise (· < ·) ∧ (∀ p ∈ bs.flatten, p < u32Limit) ∧
      (∀ last ∈ previous, ∀ p ∈ bs.flatten, last < p) ∧
      ∀ j (hj : j < bs.length), bs[j].length = v.blockLen (i + j) := by
  induction n generalizing i start previous with
  | zero =>
    rw [PositionBlocks.checkBlocks, Except.ok.injEq] at hc
    refine ⟨[], rfl, ?_, ?_, by simp, by simp, by simp, by simp, by simp⟩
    · rw [entrySize, ← hn, Nat.add_zero] at hlen
      exact List.drop_eq_nil_of_le (Nat.le_of_eq hlen)
    · rw [hc]
      exact List.drop_length
  | succ n ih =>
    obtain ⟨e, hb, hc⟩ := ok_of_bind hc
    obtain ⟨x, hdecode, hv⟩ := ok_of_bind hv
    split_ifs at hc with h₁ h₂ h₃
    obtain ⟨hdir, hentry, hfirst⟩ := of_block hb
    obtain ⟨ps, hps, ha, hlast, hstop, -, hdrop⟩ := of_decode hb hdecode
    unfold extentOk at h₂
    have hstart : e.start = start := not_not.1 (not_or.1 h₂).1
    obtain ⟨bs, hbs, hrest, hpayload, hne, hs, hlt, hafter, hlens⟩ := ih (by omega) hc hv
    have hlen₀ : (e.first :: ps).length = v.blockLen i := by
      have hpos := blockCount_mul_lt (show i < blockCount v.count by omega)
      unfold blockLen blockPositions at *
      rw [List.length_cons]
      omega
    have hsorted : (e.first :: ps).Pairwise (· < ·) :=
      List.pairwise_cons.2 ⟨fun q hq => (ha.after q hq).2 rfl, ha.sorted⟩
    -- the block ends before the next one starts
    have hbefore : ∀ p ∈ e.first :: ps, ∀ q ∈ bs.flatten, p < q := by
      intro p hp q hq
      have hle := @le_getLastD_of_sorted p 0 _ hsorted hp
      rw [List.getLastD_cons, ← hlast] at hle
      exact Nat.lt_of_le_of_lt hle (hafter e.last rfl q hq)
    have hentry' : e = ⟨(e.first :: ps).headD 0, (e.first :: ps).getLastD 0, start,
        start + (deltas (e.first :: ps)).length⟩ := by
      rw [List.getLastD_cons, List.headD_cons, deltas, ← hlast, ← hstart, ← hstop]
    refine ⟨(e.first :: ps) :: bs, by rw [List.length_cons, hbs], ?_, ?_, ?_, ?_, ?_, ?_, ?_⟩
    · have hsplit := List.take_append_drop 16 (v.directory.drop (i * 16))
      rw [hentry, List.drop_drop, ← Nat.succ_mul, hrest] at hsplit
      rw [← hsplit, entries, List.flatMap_cons, ← hentry', hstop, hstart]
      rfl
    · rw [List.map_cons, List.flatten_cons, ← hpayload, deltas, ← hstart, hdrop]
    · intro b hb
      rcases List.mem_cons.1 hb with rfl | hb
      · exact List.cons_ne_nil _ _
      · exact hne b hb
    · exact List.pairwise_append.2 ⟨hsorted, hs, hbefore⟩
    · intro p hp
      rcases List.mem_append.1 hp with hp | hp
      · rcases List.mem_cons.1 hp with rfl | hp
        · exact hfirst
        · exact ha.lt p hp
      · exact hlt p hp
    · intro last hlast' p hp
      have hfirst' : last < e.first := by
        have hany : ¬ decide (e.first ≤ last) = true := fun h => h₃ (by
          rw [Option.mem_def.1 hlast', Option.any_some, h])
        have := mt decide_eq_true hany
        omega
      rcases List.mem_append.1 hp with hp | hp
      · rcases List.mem_cons.1 hp with rfl | hp
        · exact hfirst'
        · exact Nat.lt_trans hfirst' ((ha.after p hp).2 rfl)
      · exact Nat.lt_trans hfirst' (hbefore _ List.mem_cons_self p hp)
    · intro j hj
      cases j with
      | zero => exact hlen₀
      | succ j =>
        have hj' := hlens j (Nat.lt_of_succ_lt_succ hj)
        rwa [Nat.add_right_comm, Nat.add_assoc] at hj'

/-- Only encodings are accepted as a whole. -/
theorem of_open {data : List UInt8} {maxPositions : ℕ} (h : open' data maxPositions = .ok v)
    (hv : v.validateAll = .ok ⟨⟩) : ∃ bs, Good bs ∧ v = ofBlocks bs ∧ data = v.bytes ∧
      bs.flatten.length ≤ maxPositions := by
  obtain ⟨v', hview, h⟩ := ok_of_bind h
  obtain ⟨stop, hcheck, h⟩ := ok_of_bind h
  split_ifs at h with hstop
  cases h
  have hstop' : stop = v.payload.length := not_not.1 hstop
  subst hstop'
  obtain ⟨hdata, hlen, hmax⟩ := of_run_view (of_lift hview)
  have hblocks : v.blocks = blockCount v.count := by
    rw [blocks, hlen, entrySize, Nat.mul_div_cancel _ (by decide)]
  rw [validateAll, hblocks] at hv
  obtain ⟨bs, hbs, hdirectory, hpayload, hne, hs, hlt, -, hlens⟩ :=
    of_checked (Nat.zero_add _) hlen hcheck hv
  rw [Nat.zero_mul, List.drop_zero] at hdirectory
  rw [List.drop_zero] at hpayload
  have hlens' : ∀ j (hj : j < bs.length),
      bs[j].length = min (v.count - j * blockPositions) blockPositions := by
    intro j hj
    have := hlens j hj
    rwa [Nat.zero_add] at this
  have hcount : bs.flatten.length = v.count := by
    have hall := length_take_blocks hlens' (Nat.le_refl bs.length)
    rw [List.take_length, hbs] at hall
    unfold blockCount blockPositions at hall
    omega
  refine ⟨bs, ⟨hne, hs, hlt, ?_⟩, ?_, hdata, by omega⟩
  · rw [hcount]
    exact hlens'
  · rw [ofBlocks, ← hdirectory, ← hpayload, hcount]

/-! ### Encoding -/

theorem ordered_ok (hs : ps.Pairwise (· < ·)) : ordered i ps = .ok ⟨⟩ := by
  induction ps generalizing i with
  | nil => rfl
  | cons p ps ih =>
    obtain ⟨hp, hs⟩ := List.pairwise_cons.1 hs
    cases ps with
    | nil => rfl
    | cons q ps =>
      have hlt := hp q List.mem_cons_self
      rw [ordered, if_neg (Nat.not_le.2 hlt)]
      exact ih hs

theorem measuredBlock_ok (ha : Ascends false p ps)
    (hn : n + (deltaBytes p ps).length < usizeLimit) :
    measuredBlock n (p :: ps) = .ok (n + (deltaBytes p ps).length) := by
  induction ps generalizing p n with
  | nil => rfl
  | cons q ps ih =>
    obtain ⟨⟨-, -, hq⟩, ha⟩ := Ascends.cons_iff.1 ha
    have hlen : (varU32Bytes (q - p)).length = varU32Bits (q - p) := length_varU32Bytes (by omega)
    rw [deltaBytes, List.length_append, hlen, ← Nat.add_assoc] at hn ⊢
    rw [measuredBlock, if_neg (by omega)]
    exact ih ha hn

theorem measuredBlocks_ok (hne : ∀ b ∈ bs, b ≠ []) (hs : ∀ b ∈ bs, b.Pairwise (· < ·))
    (hlt : ∀ b ∈ bs, ∀ p ∈ b, p < u32Limit)
    (hn : n + (bs.map deltas).flatten.length < usizeLimit) :
    measuredBlocks n bs = .ok (n + (bs.map deltas).flatten.length) := by
  induction bs generalizing n with
  | nil => rfl
  | cons b bs ih =>
    obtain ⟨p, ps, rfl⟩ := List.exists_cons_of_ne_nil (hne b List.mem_cons_self)
    have ha := ascends_of_pairwise (hs _ List.mem_cons_self) (hlt _ List.mem_cons_self)
    rw [List.map_cons, List.flatten_cons, List.length_append, ← Nat.add_assoc, deltas] at hn ⊢
    rw [measuredBlocks, measuredBlock_ok ha (by omega), ok_bind]
    exact ih (fun c hc => hne c (List.mem_cons_of_mem _ hc))
      (fun c hc => hs c (List.mem_cons_of_mem _ hc))
        (fun c hc => hlt c (List.mem_cons_of_mem _ hc)) hn

theorem writes_block : Writer.Writes (writeBlock b) (deltas b) := by
  cases b with
  | nil => exact Writer.Writes.nil
  | cons p ps =>
    induction ps generalizing p with
    | nil => exact Writer.Writes.nil
    | cons q ps ih => exact Writer.Writes.put.bind (ih q)

section

variable {x : Writer.Emit} {cs : List UInt8} {h d : Writer}

theorem onDirectory_ok (hx : Writer.Writes x cs) (hf : h.written.length + h.room < usizeLimit)
    (hroom : cs.length ≤ h.room) :
    onDirectory x (h, d) = (.ok ⟨⟩, ⟨h.written ++ cs, h.room - cs.length⟩, d) := by
  rw [onDirectory, hx h hf hroom]

theorem onPayload_ok (hx : Writer.Writes x cs) (hf : d.written.length + d.room < usizeLimit)
    (hroom : cs.length ≤ d.room) :
    onPayload x (h, d) = (.ok ⟨⟩, h, ⟨d.written ++ cs, d.room - cs.length⟩) := by
  rw [onPayload, hx d hf hroom]

/-- Both buffers are filled block by block. -/
theorem writeBlocks_ok (hh : h.written.length + h.room < usizeLimit)
    (hd : d.written.length + d.room < usizeLimit) (hroom : bs.length * 16 ≤ h.room)
    (hroom' : (bs.map deltas).flatten.length ≤ d.room)
    (hu32 : d.written.length + (bs.map deltas).flatten.length < u32Limit) :
    writeBlocks bs (h, d) = (.ok ⟨⟩,
      ⟨h.written ++ (entries d.written.length bs).flatMap entryBytes, h.room - bs.length * 16⟩,
      ⟨d.written ++ (bs.map deltas).flatten, d.room - (bs.map deltas).flatten.length⟩) := by
  induction bs generalizing h d with
  | nil => simp [writeBlocks, entries]
  | cons b bs ih =>
    rw [List.map_cons, List.flatten_cons, List.length_append] at hroom' hu32 ⊢
    rw [List.length_cons, Nat.succ_mul] at hroom ⊢
    have hstart : d.written.length % u32Limit = d.written.length := Nat.mod_eq_of_lt (by omega)
    have hstop : (d.written ++ deltas b).length % u32Limit =
        d.written.length + (deltas b).length := by
      rw [List.length_append, Nat.mod_eq_of_lt (by omega)]
    have hput : ∀ {h' d' : Writer} {v : ℕ}, h'.written.length + h'.room < usizeLimit →
        4 ≤ h'.room → onDirectory (Writer.u32 v) (h', d') =
          (.ok ⟨⟩, ⟨h'.written ++ bytesU32 v, h'.room - 4⟩, d') := fun hf hr =>
      onDirectory_ok Writer.Writes.put hf hr
    have hblock :=
      @onPayload_ok _ _ ⟨h.written ++ bytesU32 (b.headD 0) ++ bytesU32 (b.getLastD 0) ++
      bytesU32 d.written.length, h.room - 4 - 4 - 4⟩ d (@writes_block b) hd (by omega)
    have hrest := @ih ⟨h.written ++ bytesU32 (b.headD 0) ++ bytesU32 (b.getLastD 0) ++
      bytesU32 d.written.length ++ bytesU32 (d.written.length + (deltas b).length),
      h.room - 4 - 4 - 4 - 4⟩ ⟨d.written ++ deltas b, d.room - (deltas b).length⟩
      (by simp only [List.length_append, length_bytesU32]; omega)
      (by simp only [List.length_append]; omega) (by simp only; omega) (by simp only; omega)
      (by simp only [List.length_append]; omega)
    unfold writeBlocks
    rw [Read.ok_bind (hput hh (by omega)), Read.ok_bind (hput (by
      simp only [List.length_append, length_bytesU32]; omega) (by simp only; omega)),
      Read.cursor_bind, hstart, Read.ok_bind (hput (by
      simp only [List.length_append, length_bytesU32]; omega) (by simp only; omega)),
      Read.ok_bind hblock, Read.cursor_bind, hstop, Read.ok_bind (hput (by
      simp only [List.length_append, length_bytesU32]; omega) (by simp only; omega)), hrest]
    simp only [entries, List.flatMap_cons, entryBytes, List.length_append, List.append_assoc,
      Prod.mk.injEq, true_and, Writer.mk.injEq]
    omega

end

theorem good_chunks (hs : ps.Pairwise (· < ·)) (hlt : ∀ p ∈ ps, p < u32Limit) :
    Good (chunks (blockCount ps.length) ps) := by
  have hflat := flatten_chunks (Nat.le_refl (blockCount ps.length))
  have hlen : ∀ j (hj : j < (chunks (blockCount ps.length) ps).length),
      (chunks (blockCount ps.length) ps)[j].length =
        min (ps.length - j * blockPositions) blockPositions := by
    intro j hj
    rw [getElem_chunks, List.length_take, List.length_drop, Nat.min_comm]
  refine ⟨fun b hb => ?_, by rwa [hflat], by rwa [hflat], by rwa [hflat]⟩
  obtain ⟨j, hj, rfl⟩ := List.getElem_of_mem hb
  have hpos := hlen j hj
  rw [length_chunks] at hj
  have := blockCount_mul_lt hj
  unfold blockPositions at *
  exact List.length_pos_iff.1 (by omega)

/-- The sizes are measured exactly. -/
theorem plan_ok {maxPositions room : ℕ} (hs : ps.Pairwise (· < ·)) (hlt : ∀ p ∈ ps, p < u32Limit)
    (hlen : ps.length ≤ maxPositions) (hmax : maxPositions < u32Limit)
    (hroom : (blockBytes ps).length ≤ room) :
    plan maxPositions ps room = .ok (blockCount ps.length * entrySize + headerBytes,
      ((chunks (blockCount ps.length) ps).map deltas).flatten.length) := by
  have hgood := good_chunks hs hlt
  have hflat := flatten_chunks (Nat.le_refl (blockCount ps.length))
  have hpayload := length_payload_lt hgood.ne_nil hgood.sorted hgood.lt (by decide)
    fun p _ => Nat.zero_le p
  have hsize := hgood.length_bytes_lt (by rw [hflat]; omega)
  rw [blockBytes, length_bytes, length_chunks] at hroom
  rw [length_bytes, length_chunks] at hsize
  have hsub : ∀ b ∈ chunks (blockCount ps.length) ps, b.Sublist ps := fun b hb => by
    have := List.sublist_flatten_of_mem hb
    rwa [hflat] at this
  have hmeasured := @measuredBlocks_ok 0 (chunks (blockCount ps.length) ps) hgood.ne_nil
    (fun b hb => hs.sublist (hsub b hb)) (fun b hb p hp => hlt p ((hsub b hb).subset hp))
    (by omega)
  rw [Nat.zero_add] at hmeasured hpayload
  rw [plan, if_neg (by omega), if_neg (by omega), ordered_ok hs, ok_bind]
  simp only
  rw [if_neg (by omega), hmeasured, ok_bind, if_neg (by omega), if_neg (by omega),
    if_neg (by omega)]

theorem encodes {maxPositions : ℕ} (hs : ps.Pairwise (· < ·)) (hlt : ∀ p ∈ ps, p < u32Limit)
    (hlen : ps.length ≤ maxPositions) (hmax : maxPositions < u32Limit) :
    Writer.Encodes (encode maxPositions) ps (blockBytes ps) := by
  have hgood := good_chunks hs hlt
  have hflat := flatten_chunks (Nat.le_refl (blockCount ps.length))
  have hpayload := length_payload_lt hgood.ne_nil hgood.sorted hgood.lt (by decide)
    fun p _ => Nat.zero_le p
  have hsize := hgood.length_bytes_lt (by rw [hflat]; omega)
  refine ⟨hsize, fun output hroom hf => ?_⟩
  have hplan := plan_ok hs hlt hlen hmax hroom
  have hbytes : blockBytes ps = magic ++ bytesU32 ps.length ++
      (entries 0 (chunks (blockCount ps.length) ps)).flatMap entryBytes ++
        ((chunks (blockCount ps.length) ps).map deltas).flatten := by
    rw [blockBytes, bytes, ofBlocks, hflat]
    simp only [List.append_assoc]
  have htotal : (blockBytes ps).length = blockCount ps.length * entrySize + headerBytes +
      ((chunks (blockCount ps.length) ps).map deltas).flatten.length := by
    rw [blockBytes, length_bytes, length_chunks]
    omega
  have hdirectory : (magic ++ bytesU32 ps.length ++
      (entries 0 (chunks (blockCount ps.length) ps)).flatMap entryBytes).length =
        blockCount ps.length * entrySize + headerBytes := by
    rw [hbytes, List.length_append] at htotal
    omega
  rw [htotal] at hroom ⊢
  rw [blockBytes] at htotal
  generalize hcs : chunks (blockCount ps.length) ps = cs at *
  have hcl : cs.length = blockCount ps.length := by rw [← hcs, length_chunks]
  rw [Nat.zero_add] at hpayload
  have hheader : headerBytes = 8 := rfl
  have hentry : entrySize = 16 := rfl
  -- the header, and behind it what the blocks add to both buffers
  have hmagic : onDirectory (Writer.put magic)
      (Writer.new (blockCount ps.length * entrySize + headerBytes),
        Writer.new (cs.map deltas).flatten.length) = (.ok ⟨⟩,
      ⟨magic, blockCount ps.length * entrySize + headerBytes - 4⟩,
        Writer.new (cs.map deltas).flatten.length) :=
    onDirectory_ok Writer.Writes.put (by simp only [Writer.new, List.length_nil]; omega)
      (by simp only [Writer.new, List.length_cons, List.length_nil]; omega)
  have hcount : onDirectory (Writer.u32 ps.length)
      (⟨magic, blockCount ps.length * entrySize + headerBytes - 4⟩,
        Writer.new (cs.map deltas).flatten.length) = (.ok ⟨⟩,
      ⟨magic ++ bytesU32 ps.length, blockCount ps.length * entrySize + headerBytes - 4 - 4⟩,
        Writer.new (cs.map deltas).flatten.length) :=
    onDirectory_ok Writer.Writes.put
      (by simp only [magic, List.length_cons, List.length_nil]; omega)
      (by simp only [length_bytesU32]; omega)
  have hblocks := @writeBlocks_ok cs
    ⟨magic ++ bytesU32 ps.length, blockCount ps.length * entrySize + headerBytes - 4 - 4⟩
    (Writer.new (cs.map deltas).flatten.length)
    (by simp only [magic, List.length_append, length_bytesU32, List.length_cons, List.length_nil]
        omega)
    (by simp only [Writer.new, List.length_nil]; omega) (by simp only [hentry, hheader, hcl]; omega)
    (by simp only [Writer.new]; omega) (by simp only [Writer.new, List.length_nil]; omega)
  have hdrop : (output.take (blockCount ps.length * entrySize + headerBytes)).drop
      (blockCount ps.length * entrySize + headerBytes) = [] := by
    rw [List.drop_eq_nil_iff, List.length_take]
    omega
  unfold encode
  rw [hplan]
  simp only [hcs]
  rw [Read.ok_bind hmagic, Read.ok_bind hcount, hblocks]
  simp only [Writer.new, List.nil_append, List.length_nil, hdirectory, hdrop, List.append_nil,
    List.drop_drop, hbytes, Except.map]
  simp only [List.append_assoc]

/-! ### Indices -/

/-- No slice is indexed outside of its bounds. -/
def Safe {α : Type} (x : Except Fault α) : Prop := x ≠ .error .index

theorem Safe.bind {α β : Type} {x : Except Fault α} {f : α → Except Fault β} (hx : Safe x)
    (hf : ∀ a, x = .ok a → Safe (f a)) : Safe (x >>= f) := by
  cases x with
  | error e =>
    intro h
    cases h
    exact hx rfl
  | ok a => exact hf a rfl

theorem safe_lift {α : Type} {x : Except Error α} : Safe (Fault.lift x) := by
  cases x <;> nofun

theorem safe_block (h : (i + 1) * entrySize ≤ v.directory.length) : Safe (v.block i) := by
  rw [block, slice_ok (Nat.mul_le_mul_right _ (Nat.le_succ i)) h]
  exact safe_lift

theorem safe_checkBlocks {previous : Option ℕ}
    (h : (i + n) * entrySize ≤ v.directory.length) : Safe (v.checkBlocks n i start previous) := by
  induction n generalizing i start previous with
  | zero => nofun
  | succ n ih =>
    unfold PositionBlocks.checkBlocks
    have hle : (i + 1) * entrySize ≤ v.directory.length :=
      Nat.le_trans (Nat.mul_le_mul_right _ (by omega)) h
    refine (safe_block hle).bind fun e _ => ?_
    have hrest : Safe (v.checkBlocks n (i + 1) e.stop (some e.last)) :=
      ih (by rwa [Nat.add_right_comm, Nat.add_assoc])
    split_ifs
    all_goals first | exact hrest | nofun

/-- The extents of checked blocks lie in the payload. -/
theorem extents_of_checkBlocks {previous : Option ℕ} {stop : ℕ}
    (h : v.checkBlocks n i start previous = .ok stop) : ∀ j, i ≤ j → j < i + n →
      ∃ e, v.block j = .ok e ∧ e.start ≤ e.stop ∧ e.stop ≤ v.payload.length := by
  induction n generalizing i start previous with
  | zero =>
    intro j hij hj
    omega
  | succ n ih =>
    intro j hij hj
    obtain ⟨e, hb, h⟩ := ok_of_bind h
    split_ifs at h with h₁ h₂ h₃
    by_cases hji : j = i
    · subst hji
      unfold extentOk at h₂
      have := not_or.1 (not_or.1 h₂).2
      exact ⟨e, hb, Nat.not_lt.1 h₁, Nat.not_lt.1 this.1⟩
    · exact ih h j (by omega) (by omega)

/-- What opening a view establishes. -/
theorem of_open' {data : List UInt8} {maxPositions : ℕ} (h : open' data maxPositions = .ok v) :
    ∀ i < v.blocks, (i + 1) * entrySize ≤ v.directory.length ∧
      ∃ e, v.block i = .ok e ∧ e.start ≤ e.stop ∧ e.stop ≤ v.payload.length := by
  obtain ⟨v', hview, h⟩ := ok_of_bind h
  obtain ⟨stop, hcheck, h⟩ := ok_of_bind h
  split_ifs at h
  cases h
  obtain ⟨-, hlen, -⟩ := of_run_view (of_lift hview)
  intro i hi
  have hblocks : v.blocks = blockCount v.count := by
    rw [blocks, hlen, entrySize, Nat.mul_div_cancel _ (by decide)]
  rw [hblocks] at hi
  refine ⟨?_, extents_of_checkBlocks hcheck i (Nat.zero_le i) (by omega)⟩
  rw [hlen]
  exact Nat.mul_le_mul_right _ hi

theorem safe_decode {e : Block} (hb : v.block i = .ok e) (hle : e.start ≤ e.stop)
    (hstop : e.stop ≤ v.payload.length) : Safe (v.decode i target) := by
  rw [PositionBlocks.decode, hb, ok_bind, slice_ok hle hstop, ok_bind]
  refine safe_lift.bind fun x _ => safe_lift.bind fun _ _ => ?_
  split_ifs <;> nofun

theorem safe_open {data : List UInt8} {maxPositions : ℕ} : Safe (open' data maxPositions) := by
  refine safe_lift.bind fun v hv => ?_
  obtain ⟨-, hlen, -⟩ := of_run_view (of_lift hv)
  refine (safe_checkBlocks (by rw [Nat.zero_add, hlen])).bind fun stop _ => ?_
  split_ifs <;> nofun

theorem safe_seekGe (h : ∀ i < v.blocks, (i + 1) * entrySize ≤ v.directory.length ∧
      ∃ e, v.block i = .ok e ∧ e.start ≤ e.stop ∧ e.stop ≤ v.payload.length) :
    Safe (v.seekGe target) := by
  unfold seekGe
  rcases @probeFrom_cases Fault (fun middle => do
      let b ← v.block middle
      .ok (decide (b.last < target))) v.blocks 0 v.blocks (Nat.zero_le _) with
    ⟨low, hlow, hp⟩ | ⟨j, hj, e, he, -⟩
  · rw [hp, ok_bind]
    split_ifs with heq
    · nofun
    · obtain ⟨-, e, hb, hle, hstop⟩ := h low (by omega)
      exact safe_decode hb hle hstop
  · obtain ⟨-, b, hb, -⟩ := h j hj
    rw [hb] at he
    cases he

theorem safe_validateFrom (h : ∀ i < v.blocks, (i + 1) * entrySize ≤ v.directory.length ∧
      ∃ e, v.block i = .ok e ∧ e.start ≤ e.stop ∧ e.stop ≤ v.payload.length)
    (hn : i + n ≤ v.blocks) : Safe (v.validateFrom n i) := by
  induction n generalizing i with
  | zero => nofun
  | succ n ih =>
    obtain ⟨-, e, hb, hle, hstop⟩ := h i (by omega)
    exact (safe_decode hb hle hstop).bind fun _ _ => ih (by omega)

/-! ### The format -/

/-- **Blocks are searched as the whole list.**  An increasing list is encoded, opened and validated,
and a search gives the least position from the target on; what is opened and validated is the
encoding of the positions that its searches give; and no input makes a call index a slice outside
of its bounds. -/
theorem blocks_exact (maxPositions : ℕ) (hmax : maxPositions < u32Limit) :
    (∀ ps, ps.Pairwise (· < ·) → (∀ p ∈ ps, p < u32Limit) → ps.length ≤ maxPositions →
      ∃ data v, Writer.Encodes (encode maxPositions) ps data ∧ open' data maxPositions = .ok v ∧
        v.validateAll = .ok ⟨⟩ ∧ ∀ target, ∃ found, v.seekGe target = .ok found ∧
          (found.position = none ↔ ∀ q ∈ ps, q < target) ∧
          ∀ p, found.position = some p ↔
            p ∈ ps ∧ target ≤ p ∧ ∀ q ∈ ps, target ≤ q → p ≤ q) ∧
    (∀ data v, open' data maxPositions = .ok v → v.validateAll = .ok ⟨⟩ →
      ∃ ps, ps.Pairwise (· < ·) ∧ (∀ p ∈ ps, p < u32Limit) ∧ ps.length ≤ maxPositions ∧
        Writer.Encodes (encode maxPositions) ps data ∧
        ∀ target, ∃ found, v.seekGe target = .ok found ∧
          (found.position = none ↔ ∀ q ∈ ps, q < target) ∧
          ∀ p, found.position = some p ↔
            p ∈ ps ∧ target ≤ p ∧ ∀ q ∈ ps, target ≤ q → p ≤ q) ∧
    ∀ data, open' data maxPositions ≠ .error .index ∧
      ∀ v, open' data maxPositions = .ok v → v.validateAll ≠ .error .index ∧
        ∀ target, v.seekGe target ≠ .error .index := by
  have hseek : ∀ {bs : List (List ℕ)}, Good bs → ∀ target, ∃ found,
      (ofBlocks bs).seekGe target = .ok found ∧
        (found.position = none ↔ ∀ q ∈ bs.flatten, q < target) ∧
        ∀ p, found.position = some p ↔
          p ∈ bs.flatten ∧ target ≤ p ∧ ∀ q ∈ bs.flatten, target ≤ q → p ≤ q := by
    intro bs h target
    obtain ⟨found, hf, hp⟩ := h.seek target
    have hleast := @find?_least target bs.flatten h.sorted
    rw [← hp] at hleast
    exact ⟨found, hf, hleast⟩
  refine ⟨fun ps hs hlt hlen => ?_, fun data v h hv => ?_, fun data => ⟨safe_open, fun v h => ?_⟩⟩
  · have hgood := good_chunks hs hlt
    have hflat := flatten_chunks (Nat.le_refl (blockCount ps.length))
    have hs' := hseek hgood
    rw [hflat] at hs'
    refine ⟨_, _, encodes hs hlt hlen hmax, hgood.open_ok (by rwa [hflat]) hmax, ?_, hs'⟩
    rw [validateAll, blocks_eq]
    exact hgood.validateFrom (Nat.zero_add _)
  · obtain ⟨bs, hgood, rfl, rfl, hlen⟩ := of_open h hv
    refine ⟨bs.flatten, hgood.sorted, hgood.lt, hlen, ?_, hseek hgood⟩
    have henc := encodes hgood.sorted hgood.lt hlen hmax
    rwa [blockBytes, ← hgood.length_eq, chunks_flatten hgood.length] at henc
  · have hv := of_open' h
    exact ⟨safe_validateFrom hv (Nat.le_of_eq (Nat.zero_add _)), fun target => safe_seekGe hv⟩

/-- Two positions. -/
theorem blocks_exact_two : ∃ data v, Writer.Encodes (encode 10) [3, 200] data ∧
    open' data 10 = .ok v ∧ v.validateAll = .ok ⟨⟩ ∧
    ∀ target, ∃ found, v.seekGe target = .ok found ∧
      (found.position = none ↔ ∀ q ∈ [3, 200], q < target) ∧
      ∀ p, found.position = some p ↔
        p ∈ [3, 200] ∧ target ≤ p ∧ ∀ q ∈ [3, 200], target ≤ q → p ≤ q :=
  (blocks_exact 10 (by decide)).1 [3, 200] (by decide) (by decide) (by decide)

end

end PositionBlocks

end PinCore
