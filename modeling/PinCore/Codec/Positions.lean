import PinCore.Codec.Bytes

/-!
# Position streams

A counted stream of delta-coded positions.  `Positions.parse` checks every delta; the streams it
accepts are exactly the encodings of strictly increasing lists.
-/

namespace PinCore

open Reader

/-! ### The stream -/

/-- A checked stream. -/
structure Positions where
  payload : List UInt8
  count : ℕ
  deriving DecidableEq, Repr

/-- An iterator over positions. -/
structure PositionIter where
  reader : Reader
  remaining : ℕ
  previous : ℕ
  first : Bool
  deriving DecidableEq, Repr

namespace PositionIter

/-- An error ends the iteration. -/
def next (it : PositionIter) : Option (Except Error ℕ) × PositionIter :=
  if it.remaining = 0 then (none, it)
  else
    match varU32 it.reader with
    | (.error e, r) => (some (.error e), { it with reader := r, remaining := 0 })
    | (.ok delta, r) =>
      if it.first = false ∧ delta = 0 then
        (some (.error (.codecAt it.reader.offset .invalidOrder)),
          { it with reader := r, remaining := 0 })
      else if u32Limit ≤ it.previous + delta then
        (some (.error (.codecAt it.reader.offset .overflow)),
          { it with reader := r, remaining := 0 })
      else (some (.ok (it.previous + delta)), ⟨r, it.remaining - 1, it.previous + delta, false⟩)

/-- The next `n` positions. -/
def collect : ℕ → PositionIter → Except Error (List ℕ × PositionIter)
  | 0, it => .ok ([], it)
  | n + 1, it =>
    match it.next with
    | (none, it) => .ok ([], it)
    | (some (.error e), _) => .error e
    | (some (.ok p), it) => do
      let (ps, it) ← collect n it
      .ok (p :: ps, it)

end PositionIter

namespace Positions

/-- The iterator from the first position on. -/
def iter (v : Positions) : PositionIter := ⟨Reader.new v.payload, v.count, 0, true⟩

/-- The count and the rest of the stream. -/
def view (maxPositions : ℕ) : Parse Positions := do
  let count ← u32
  Read.ensure (count ≤ maxPositions) (.codecAt 0 .limitExceeded)
  let r ← Read.cursor
  Read.ensure (count ≤ r.remaining) (.codecAt 4 .truncated)
  let payload ← take r.remaining
  return ⟨payload, count⟩

/-- Validates count, canonical deltas, strict order and complete consumption. -/
def parse (bytes : List UInt8) (maxPositions : ℕ) : Except Error Positions := do
  let v ← (view maxPositions (Reader.new bytes)).1
  let (_, it) ← v.iter.collect v.count
  it.reader.finish
  .ok v

end Positions

/-- Delta-coded positions after `previous`. -/
def deltaBytes : ℕ → List ℕ → List UInt8
  | _, [] => []
  | previous, p :: ps => varU32Bytes (p - previous) ++ deltaBytes p ps

/-- The encoding of a list of positions. -/
def positionBytes (ps : List ℕ) : List UInt8 := bytesU32 ps.length ++ deltaBytes 0 ps

/-! ### Iteration -/

/-- The positions that can follow `previous`; the first may be any. -/
structure Ascends (first : Bool) (previous : ℕ) (ps : List ℕ) : Prop where
  sorted : ps.Pairwise (· < ·)
  after : ∀ p ∈ ps, previous ≤ p ∧ (first = false → previous < p)
  lt : ∀ p ∈ ps, p < u32Limit

section

variable {first : Bool} {previous p n : ℕ} {ps : List ℕ} {it it' : PositionIter} {r' : Reader}

theorem Ascends.cons_iff : Ascends first previous (p :: ps) ↔
    (previous ≤ p ∧ (first = false → previous < p) ∧ p < u32Limit) ∧ Ascends false p ps := by
  constructor
  · rintro ⟨hs, ha, hl⟩
    obtain ⟨hp, hs⟩ := List.pairwise_cons.1 hs
    obtain ⟨h₁, h₂⟩ := ha p List.mem_cons_self
    exact ⟨⟨h₁, h₂, hl p List.mem_cons_self⟩, hs,
      fun q hq => ⟨Nat.le_of_lt (hp q hq), fun _ => hp q hq⟩,
      fun q hq => hl q (List.mem_cons_of_mem _ hq)⟩
  · rintro ⟨⟨h₁, h₂, h₃⟩, hs, ha, hl⟩
    refine ⟨List.pairwise_cons.2 ⟨fun q hq => (ha q hq).2 rfl, hs⟩, fun q hq => ?_, fun q hq => ?_⟩
    · rcases List.mem_cons.1 hq with rfl | hq
      · exact ⟨h₁, h₂⟩
      · have := (ha q hq).2 rfl
        exact ⟨by omega, fun _ => by omega⟩
    · rcases List.mem_cons.1 hq with rfl | hq
      · exact h₃
      · exact hl q hq

theorem Ascends.nil : Ascends first previous [] :=
  ⟨List.Pairwise.nil, fun _ h => absurd h List.not_mem_nil, fun _ h => absurd h List.not_mem_nil⟩

/-- The positions an iterator still has to return. -/
def PositionIter.Lists (it : PositionIter) : List ℕ → Prop
  | [] => it.remaining = 0
  | p :: ps => ∃ it', it.next = (some (.ok p), it') ∧ it'.Lists ps

theorem PositionIter.next_past (hf : it.reader.Fits) (hr : it.remaining ≠ 0)
    (hp : it.previous ≤ p ∧ (it.first = false → it.previous < p) ∧ p < u32Limit)
    (h : Past it.reader (varU32Bytes (p - it.previous)) r') :
    it.next = (some (.ok p), ⟨r', it.remaining - 1, p, false⟩) := by
  obtain ⟨h₁, h₂, h₃⟩ := hp
  have hread : varU32 it.reader = (.ok (p - it.previous), r') := varU32_past hf (by omega) h
  have hsum : it.previous + (p - it.previous) = p := by omega
  have hdelta : ¬ (it.first = false ∧ p - it.previous = 0) := fun hc => by
    have := h₂ hc.1
    omega
  simp only [PositionIter.next, if_neg hr, hread, if_neg hdelta, hsum, if_neg (Nat.not_le.2 h₃)]

theorem PositionIter.of_next (h : it.next = (some (.ok p), it')) :
    it.remaining ≠ 0 ∧ (it.previous ≤ p ∧ (it.first = false → it.previous < p) ∧ p < u32Limit) ∧
      it' = ⟨it'.reader, it.remaining - 1, p, false⟩ ∧
      Past it.reader (varU32Bytes (p - it.previous)) it'.reader := by
  unfold PositionIter.next at h
  by_cases hr : it.remaining = 0
  · rw [if_pos hr] at h
    cases h
  rw [if_neg hr] at h
  rcases hv : varU32 it.reader with ⟨_ | delta, r⟩
  · rw [hv] at h
    cases h
  · rw [hv] at h
    obtain ⟨-, hp⟩ := past_of_varU32 hv
    simp only at h
    split_ifs at h with h₁ h₂
    all_goals cases h
    have hdelta : it.previous + delta - it.previous = delta := by omega
    refine ⟨hr, ⟨by omega, fun hfirst => ?_, by omega⟩, rfl, by rwa [hdelta]⟩
    have : delta ≠ 0 := fun h0 => h₁ ⟨hfirst, h0⟩
    omega

/-- Only the count ends an iteration without an error. -/
theorem PositionIter.next_eq_none (h : it.next = (none, it')) : it.remaining = 0 := by
  by_contra hr
  unfold PositionIter.next at h
  rw [if_neg hr] at h
  rcases hv : varU32 it.reader with ⟨_ | delta, r⟩
  · rw [hv] at h
    cases h
  · rw [hv] at h
    simp only at h
    split_ifs at h
    all_goals cases h

theorem PositionIter.collect_lists (h : it.Lists ps) :
    ∃ it', it.collect ps.length = .ok (ps, it') := by
  induction ps generalizing it with
  | nil => exact ⟨it, rfl⟩
  | cons p ps ih =>
    obtain ⟨it₁, hn, hl⟩ := h
    obtain ⟨it₂, hc⟩ := ih hl
    refine ⟨it₂, ?_⟩
    rw [List.length_cons, PositionIter.collect, hn]
    simp only [hc]
    rfl

/-- Reading the encoding of a list. -/
theorem PositionIter.collect_past (hf : it.reader.Fits) (hr : it.remaining = ps.length)
    (ha : Ascends it.first it.previous ps) (h : Past it.reader (deltaBytes it.previous ps) r') :
    it.Lists ps ∧ ∃ it', it.collect ps.length = .ok (ps, it') ∧ it'.reader = r' := by
  induction ps generalizing it with
  | nil =>
    refine ⟨hr, it, rfl, ?_⟩
    obtain ⟨hrest, hoff⟩ := h
    have hrest' : it.reader.rest = r'.rest := hrest
    have hoff' : r'.offset = it.reader.offset := hoff
    cases hi : it.reader
    cases hr' : r'
    rw [hi, hr'] at hrest' hoff'
    simp only at hrest' hoff'
    rw [hrest', hoff']
  | cons p ps ih =>
    obtain ⟨hp, ha⟩ := Ascends.cons_iff.1 ha
    obtain ⟨hfirst, hrest⟩ := h.split
    rw [List.length_cons] at hr
    have hnext := PositionIter.next_past hf (by omega) hp hfirst
    obtain ⟨hl, it', hc, hit⟩ := @ih ⟨_, it.remaining - 1, p, false⟩ (hfirst.fits hf)
      (by simp only; omega) ha hrest
    refine ⟨⟨_, hnext, hl⟩, it', ?_, hit⟩
    rw [List.length_cons, PositionIter.collect, hnext]
    simp only [hc]
    rfl

/-- What was read is the encoding of a list. -/
theorem PositionIter.of_collect (hr : it.remaining = n) (h : it.collect n = .ok (ps, it')) :
    ps.length = n ∧ it.Lists ps ∧ Ascends it.first it.previous ps ∧
      Past it.reader (deltaBytes it.previous ps) it'.reader := by
  induction n generalizing it ps with
  | zero =>
    cases h
    exact ⟨rfl, hr, .nil, .nil⟩
  | succ n ih =>
    unfold PositionIter.collect at h
    rcases hn : it.next with ⟨_ | _ | p, it₁⟩
    · have := PositionIter.next_eq_none hn
      omega
    · rw [hn] at h
      cases h
    · rw [hn] at h
      obtain ⟨⟨qs, it₂⟩, hc, h⟩ := ok_of_bind h
      cases h
      obtain ⟨-, hp, hit, hpast⟩ := PositionIter.of_next hn
      have hrem : it₁.remaining = n := by
        rw [hit]
        simp only
        omega
      obtain ⟨hlen, hl, ha, hpast'⟩ := ih hrem hc
      rw [hit] at ha hpast'
      exact ⟨by rw [List.length_cons, hlen], ⟨it₁, hn, hl⟩, Ascends.cons_iff.2 ⟨hp, ha⟩,
        hpast.append hpast'⟩

end

/-! ### Streams -/

theorem varBytes_ne_nil (k n : ℕ) : varBytes k n ≠ [] := by
  cases k with
  | zero => exact List.cons_ne_nil _ _
  | succ k =>
    rw [varBytes]
    split_ifs <;> exact List.cons_ne_nil _ _

/-- Every position takes a byte. -/
theorem length_le_deltaBytes (previous : ℕ) (ps : List ℕ) :
    ps.length ≤ (deltaBytes previous ps).length := by
  induction ps generalizing previous with
  | nil => exact Nat.le_refl 0
  | cons p ps ih =>
    have := List.length_pos_iff.2 (varBytes_ne_nil 4 (p - previous))
    have hvar : 0 < (varU32Bytes (p - previous)).length := this
    rw [deltaBytes, List.length_append, List.length_cons]
    have := ih p
    omega

namespace Positions

variable {bytes : List UInt8} {maxPositions : ℕ} {v : Positions} {ps : List ℕ}

theorem finish_iff {r : Reader} : r.finish = .ok ⟨⟩ ↔ r.rest = [] := by
  unfold Reader.finish Reader.remaining
  split_ifs with h
  · exact ⟨nofun, fun hr => absurd (by rw [hr]; rfl) h⟩
  · exact ⟨fun _ => List.length_eq_zero_iff.1 (not_not.1 h), fun _ => rfl⟩

/-- Encodings are accepted. -/
theorem parse_bytes (hf : (positionBytes ps).length < usizeLimit) (ha : Ascends true 0 ps)
    (hlen : ps.length ≤ maxPositions) (hmax : maxPositions < u32Limit) :
    parse (positionBytes ps) maxPositions = .ok ⟨deltaBytes 0 ps, ps.length⟩ := by
  have hle := length_le_deltaBytes 0 ps
  have hfits : (Reader.new (positionBytes ps)).Fits := by
    unfold Reader.Fits Reader.new
    simp only
    omega
  have hcount : Past (Reader.new (positionBytes ps)) (bytesU32 ps.length) ⟨deltaBytes 0 ps, 4⟩ :=
    ⟨rfl, rfl⟩
  have hview : view maxPositions (Reader.new (positionBytes ps)) =
      (.ok ⟨deltaBytes 0 ps, ps.length⟩, ⟨[], 4 + (deltaBytes 0 ps).length⟩) := by
    unfold view
    rw [Read.ok_bind (u32_past hfits (by omega) hcount), Read.ensure_bind hlen, Read.cursor_bind,
      Read.ensure_bind (show ps.length ≤ (⟨deltaBytes 0 ps, 4⟩ : Reader).remaining from hle)]
    exact Read.ok_bind (take_rest (hcount.fits hfits))
  have hpast : Past (iter ⟨deltaBytes 0 ps, ps.length⟩).reader (deltaBytes 0 ps)
      ⟨[], (deltaBytes 0 ps).length⟩ := ⟨(List.append_nil _).symm, (Nat.zero_add _).symm⟩
  have hfits' : (iter ⟨deltaBytes 0 ps, ps.length⟩).reader.Fits := by
    unfold Reader.Fits iter Reader.new
    rw [positionBytes, List.length_append] at hf
    simp only
    omega
  obtain ⟨-, it', hc, hit⟩ := PositionIter.collect_past hfits' rfl ha hpast
  have hfin : it'.reader.finish = .ok ⟨⟩ := finish_iff.2 (by rw [hit])
  rw [parse, hview, ok_bind, hc, ok_bind]
  simp only [hfin]
  rfl

/-- Only encodings are accepted. -/
theorem of_parse (h : parse bytes maxPositions = .ok v) : ∃ ps, bytes = positionBytes ps ∧
    v = ⟨deltaBytes 0 ps, ps.length⟩ ∧ Ascends true 0 ps ∧ ps.length ≤ maxPositions ∧
      v.iter.Lists ps := by
  obtain ⟨v', hv, h⟩ := ok_of_bind h
  obtain ⟨⟨ps, it⟩, hc, h⟩ := ok_of_bind h
  obtain ⟨_, hfin, h⟩ := ok_of_bind h
  cases h
  rcases hr : view maxPositions (Reader.new bytes) with ⟨_ | v', r⟩
  · rw [hr] at hv
    cases hv
  rw [hr] at hv
  cases hv
  obtain ⟨count, r₁, hcount, hr⟩ := Read.of_bind hr
  obtain ⟨hmax, hr⟩ := Read.of_ensure_bind hr
  rw [Read.cursor_bind] at hr
  obtain ⟨-, hr⟩ := Read.of_ensure_bind hr
  obtain ⟨payload, r₂, htake, hr⟩ := Read.of_bind hr
  cases hr
  obtain ⟨-, hp⟩ := past_of_u32 hcount
  obtain ⟨hp', hnil⟩ := of_take_rest htake
  -- the payload is all that is left after the count
  have hpayload : r₁.rest = payload := by rw [hp'.rest, hnil, List.append_nil]
  have hrem : (iter ⟨payload, count⟩).remaining = count := rfl
  obtain ⟨hcount', hl, ha, hpast⟩ := PositionIter.of_collect hrem hc
  have hdelta : payload = deltaBytes 0 ps := by
    have hrest : payload = deltaBytes 0 ps ++ it.reader.rest := hpast.rest
    rwa [finish_iff.1 hfin, List.append_nil] at hrest
  refine ⟨ps, ?_, by rw [hcount', hdelta], ha, by omega, hl⟩
  have hbytes : bytes = bytesU32 count ++ r₁.rest := hp.rest
  rw [hbytes, hpayload, hdelta, positionBytes, hcount']

/-- A checked stream gives its positions back. -/
theorem iter_lists (hf : (positionBytes ps).length < usizeLimit) (ha : Ascends true 0 ps) :
    (iter ⟨deltaBytes 0 ps, ps.length⟩).Lists ps := by
  rw [positionBytes, List.length_append] at hf
  have hfits : (iter ⟨deltaBytes 0 ps, ps.length⟩).reader.Fits := by
    unfold Reader.Fits iter Reader.new
    simp only
    omega
  have hpast : Past (iter ⟨deltaBytes 0 ps, ps.length⟩).reader (deltaBytes 0 ps)
      ⟨[], (deltaBytes 0 ps).length⟩ := ⟨(List.append_nil _).symm, (Nat.zero_add _).symm⟩
  exact (PositionIter.collect_past hfits rfl ha hpast).1

/-! ### The encoder -/

/-- The size of an encoding that has `bytes` bytes before position `index`. -/
def measured : ℕ → ℕ → ℕ → List ℕ → Except Error ℕ
  | _, _, bytes, [] => .ok bytes
  | index, previous, bytes, p :: ps =>
    if index ≠ 0 ∧ p ≤ previous then .error (.codecAt index .invalidOrder)
    else if usizeLimit ≤ bytes + varU32Bits (p - previous) then
      .error (.codecAt index .overflow)
    else measured (index + 1) p (bytes + varU32Bits (p - previous)) ps

/-- The deltas after `previous`. -/
def writeDeltas : ℕ → List ℕ → Writer.Emit
  | _, [] => pure ⟨⟩
  | previous, p :: ps => do
    Writer.varU32 (p - previous)
    writeDeltas p ps

/-- Validates before writing; returns the size of the encoding, and the output. -/
def encode (positions : List ℕ) (output : List UInt8) (maxPositions : ℕ) :
    Except Error ℕ × List UInt8 :=
  if u32Limit ≤ positions.length then (.error (.codecAt 0 .limitExceeded), output)
  else if maxPositions < positions.length then (.error (.codecAt 0 .limitExceeded), output)
  else
    match measured 0 0 4 positions with
    | .error e => (.error e, output)
    | .ok bytes =>
      if output.length < bytes then (.error (.codecAt 0 .truncated), output)
      else Writer.onto output do
        Writer.u32 positions.length
        writeDeltas 0 positions

section

variable {index previous n m : ℕ} {output : List UInt8}

theorem writes_deltas : Writer.Writes (writeDeltas previous ps) (deltaBytes previous ps) := by
  induction ps generalizing previous with
  | nil => exact Writer.Writes.nil
  | cons p ps ih => exact Writer.Writes.put.bind ih

/-- What is measured is an increasing list, and it is measured exactly. -/
theorem of_measured (hlt : ∀ p ∈ ps, p < u32Limit) (hstart : index = 0 → previous = 0)
    (h : measured index previous n ps = .ok m) :
    Ascends (decide (index = 0)) previous ps ∧ m = n + (deltaBytes previous ps).length := by
  induction ps generalizing index previous n with
  | nil =>
    cases h
    exact ⟨Ascends.nil, rfl⟩
  | cons p ps ih =>
    unfold measured at h
    split_ifs at h with horder
    have hp := hlt p List.mem_cons_self
    obtain ⟨ha, hm⟩ :=
      ih (fun q hq => hlt q (List.mem_cons_of_mem _ hq))
        (fun h0 => absurd h0 (Nat.succ_ne_zero index)) h
    have hlen : (varU32Bytes (p - previous)).length = varU32Bits (p - previous) :=
      length_varU32Bytes (by omega)
    have hle : previous ≤ p := by
      by_cases h0 : index = 0
      · rw [hstart h0]
        exact Nat.zero_le p
      · have := mt (And.intro h0) horder
        omega
    refine ⟨Ascends.cons_iff.2 ⟨⟨hle, fun hfirst => ?_, hp⟩, ha⟩, ?_⟩
    · have h0 : index ≠ 0 := of_decide_eq_false hfirst
      have := mt (And.intro h0) horder
      omega
    · rw [hm, deltaBytes, List.length_append, hlen, Nat.add_assoc]

theorem measured_ok (ha : Ascends (decide (index = 0)) previous ps)
    (hn : n + (deltaBytes previous ps).length < usizeLimit) :
    measured index previous n ps = .ok (n + (deltaBytes previous ps).length) := by
  induction ps generalizing index previous n with
  | nil => rfl
  | cons p ps ih =>
    obtain ⟨⟨-, hfirst, hp⟩, ha⟩ := Ascends.cons_iff.1 ha
    have hlen : (varU32Bytes (p - previous)).length = varU32Bits (p - previous) :=
      length_varU32Bytes (by omega)
    have horder : ¬ (index ≠ 0 ∧ p ≤ previous) := fun hc => by
      have := hfirst (decide_eq_false hc.1)
      omega
    rw [deltaBytes, List.length_append, hlen, ← Nat.add_assoc] at hn ⊢
    rw [measured, if_neg horder, if_neg (by omega)]
    exact ih ha hn

/-- Encoding an increasing list that fits. -/
theorem encode_ok (ha : Ascends true 0 ps) (hlen : ps.length ≤ maxPositions)
    (hmax : maxPositions < u32Limit) (hroom : (positionBytes ps).length ≤ output.length)
    (hf : output.length < usizeLimit) :
    encode ps output maxPositions = (.ok (positionBytes ps).length,
      positionBytes ps ++ output.drop (positionBytes ps).length) := by
  have hbytes : (positionBytes ps).length = 4 + (deltaBytes 0 ps).length := by
    rw [positionBytes, List.length_append, Reader.length_bytesU32]
  have hm : measured 0 0 4 ps = .ok (positionBytes ps).length := by
    rw [hbytes]
    exact measured_ok ha (by omega)
  rw [encode, if_neg (by omega), if_neg (by omega), hm]
  simp only
  rw [if_neg (by omega)]
  exact Writer.Writes.onto (Writer.Writes.put.bind writes_deltas) hroom hf

/-- Only increasing lists that fit are encoded; for all others the output stays as it is. -/
theorem encode_error (hlt : ∀ p ∈ ps, p < u32Limit)
    (h : ¬ ps.Pairwise (· < ·) ∨ maxPositions < ps.length ∨
      output.length < (positionBytes ps).length) :
    ∃ e, encode ps output maxPositions = (.error e, output) := by
  rw [encode]
  split_ifs with hcount hmax
  · exact ⟨_, rfl⟩
  · exact ⟨_, rfl⟩
  rcases hm : measured 0 0 4 ps with e | m
  · exact ⟨e, rfl⟩
  obtain ⟨ha, hbytes⟩ := of_measured hlt (fun _ => rfl) hm
  have hlen : m = (positionBytes ps).length := by
    rw [hbytes, positionBytes, List.length_append, Reader.length_bytesU32]
  simp only
  rcases h with hs | hlong | hroom
  · exact absurd ha.sorted hs
  · exact absurd hlong hmax
  · rw [if_pos (by omega)]
    exact ⟨_, rfl⟩

end

/-- **Byte equality means position equality.**  An increasing list that fits is encoded into
exactly as many bytes as its count and deltas take, and the parsed stream gives it back; what is
parsed is the encoding of the positions it gives; any other list is rejected and the output stays
as it was. -/
theorem encode_parse (maxPositions : ℕ) (hmax : maxPositions < u32Limit) :
    (∀ ps output, (∀ p ∈ ps, p < u32Limit) → ps.Pairwise (· < ·) → ps.length ≤ maxPositions →
      (positionBytes ps).length ≤ output.length → output.length < usizeLimit →
      encode ps output maxPositions = (.ok (positionBytes ps).length,
          positionBytes ps ++ output.drop (positionBytes ps).length) ∧
        ∃ v, parse (positionBytes ps) maxPositions = .ok v ∧ v.count = ps.length ∧
          v.iter.Lists ps) ∧
    (∀ bytes v, parse bytes maxPositions = .ok v → ∃ ps, v.iter.Lists ps ∧
      ∀ output, bytes.length ≤ output.length → output.length < usizeLimit →
        encode ps output maxPositions = (.ok bytes.length, bytes ++ output.drop bytes.length)) ∧
    ∀ ps output, (∀ p ∈ ps, p < u32Limit) →
      (¬ ps.Pairwise (· < ·) ∨ maxPositions < ps.length ∨
        output.length < (positionBytes ps).length) →
      ∃ e, encode ps output maxPositions = (.error e, output) := by
  refine ⟨fun ps output hlt hs hlen hroom hf => ?_, fun bytes v h => ?_,
    fun ps output hlt h => encode_error hlt h⟩
  · have ha : Ascends true 0 ps := ⟨hs, fun p _ => ⟨Nat.zero_le p, nofun⟩, hlt⟩
    have hfits : (positionBytes ps).length < usizeLimit := Nat.lt_of_le_of_lt hroom hf
    exact ⟨encode_ok ha hlen hmax hroom hf, _, parse_bytes hfits ha hlen hmax, rfl,
      iter_lists hfits ha⟩
  · obtain ⟨ps, rfl, -, ha, hlen, hl⟩ := of_parse h
    exact ⟨ps, hl, fun output hroom hf => encode_ok ha hlen hmax hroom hf⟩

/-- Two positions in a buffer of eight bytes. -/
theorem encode_parse_two : encode [0, 200] (List.replicate 8 9) 10 =
      (.ok 7, [2, 0, 0, 0, 0, 200, 1, 9]) ∧
    ∃ v, parse [2, 0, 0, 0, 0, 200, 1] 10 = .ok v ∧ v.count = 2 ∧ v.iter.Lists [0, 200] :=
  (encode_parse 10 (by decide)).1 [0, 200] (List.replicate 8 9) (by decide) (by decide) (by decide)
    (by decide) (by decide)

end Positions

end PinCore
