import Mathlib.Data.Nat.Bitwise
import PinCore.Codec.Bytes

/-!
# Variable-length integers on machine words

The loops of `var_u32` and `var_u64` as they run on words of 32 and 64 bits: the reader ors shifted
groups of seven bits together, the writer shifts them out.  No bit is lost on the way
(`wordGroups_run`, `wordBytes_eq`), so the words give what the number codec gives, and the two
directions are inverse to each other (`Canonical`).
-/

namespace PinCore

variable {w : ℕ}

/-! ### The loops -/

/-- The bytes of a word: seven bits a byte, lowest first, with bit 7 set on all but the last.  The
array of the writer has room for `fuel` of them. -/
def wordBytes : ℕ → BitVec w → List UInt8
  | 0, _ => []
  | fuel + 1, value =>
    let low := UInt8.ofBitVec ((value &&& 127).setWidth 8)
    let value := value >>> 7
    (low ||| if value = 0 then 0 else 128) :: if value = 0 then [] else wordBytes fuel value

namespace Reader

/-- The groups of a word from `group` on, or-ed to `value`; of the byte of the last one at most
`top` is allowed. -/
def wordGroups (last top start : ℕ) : ℕ → ℕ → BitVec w → Parse (BitVec w)
  | 0, _, _ => Read.fail (.codecAt start .overflow)
  | fuel + 1, group, value => do
    let byte ← u8
    Read.ensure (group = last → byte ≤ top) (.codecAt start .overflow)
    let value := value ||| BitVec.ofNat w (byte &&& 127) <<< (group * 7)
    if byte &&& 128 = 0 then do
      Read.ensure (group ≠ 0 → byte ≠ 0) (.codecAt start .nonCanonical)
      return value
    else wordGroups last top start fuel (group + 1) value

namespace Word

/-- Works on a copy of the cursor, which replaces the cursor when a value was read. -/
def varU32 : Parse (BitVec 32) := fun r =>
  match wordGroups 4 15 r.offset 5 0 0 r with
  | (.ok value, r') => (.ok value, r')
  | (.error e, _) => (.error e, r)

/-- Reads a 64-bit word; a failure leaves the cursor unchanged. -/
def varU64 : Parse (BitVec 64) := fun r =>
  match wordGroups 9 1 r.offset 10 0 0 r with
  | (.ok value, r') => (.ok value, r')
  | (.error e, _) => (.error e, r)

end Word

end Reader

namespace Writer.Word

/-- Writes a 32-bit word. -/
def varU32 (value : BitVec 32) : Emit := put (wordBytes 5 value)

/-- Writes a 64-bit word. -/
def varU64 (value : BitVec 64) : Emit := put (wordBytes 10 value)

/-- The number of bytes, from the leading zeros of the word. -/
def varU32Len (value : BitVec 32) : ℕ := if value = 0 then 1 else (32 - value.clz.toNat + 6) / 7

end Writer.Word

/-! ### Words and numbers -/

section

variable {value : BitVec w} {group byte : ℕ}

theorem and_127 (n : ℕ) : n &&& 127 = n % 128 := Nat.and_two_pow_sub_one_eq_mod n 7

theorem and_128_eq_zero (h : byte < 256) : byte &&& 128 = 0 ↔ byte < 128 := by
  have hall : ∀ b < 256, (b &&& 128 = 0 ↔ b < 128) := by decide +kernel
  exact hall byte h

/-- A group is or-ed to lower groups without a carry, and none of its bits is shifted out. -/
theorem toNat_or_group (hvalue : value.toNat < 2 ^ (7 * group))
    (hfits : byte % 128 * 2 ^ (7 * group) < 2 ^ w) :
    (value ||| BitVec.ofNat w (byte &&& 127) <<< (group * 7)).toNat =
      value.toNat + byte % 128 * 2 ^ (7 * group) := by
  have hpos : 0 < 2 ^ (7 * group) := Nat.two_pow_pos _
  have hbyte : byte % 128 < 2 ^ w := Nat.lt_of_le_of_lt (Nat.le_mul_of_pos_right _ hpos) hfits
  rw [BitVec.toNat_or, BitVec.toNat_shiftLeft, BitVec.toNat_ofNat, and_127,
    Nat.mod_eq_of_lt hbyte, Nat.mul_comm group, Nat.shiftLeft_eq, Nat.mod_eq_of_lt hfits,
    Nat.or_comm, ← Nat.shiftLeft_eq, ← Nat.shiftLeft_add_eq_or_of_lt hvalue, Nat.add_comm]

theorem toNat_shiftRight_seven : (value >>> 7).toNat = value.toNat / 128 := by
  rw [BitVec.toNat_ushiftRight, Nat.shiftRight_eq_div_pow]

/-- The low byte of a word, without and with the bit that announces more. -/
theorem toNat_low (hw : 7 ≤ w) :
    (UInt8.ofBitVec ((value &&& 127).setWidth 8)).toNat = value.toNat % 128 := by
  have hpow : 2 ^ 7 ≤ 2 ^ w := Nat.pow_le_pow_right (by decide) hw
  have h127 : (127 : BitVec w).toNat = 127 := by
    change (BitVec.ofNat w 127).toNat = 127
    rw [BitVec.toNat_ofNat]
    exact Nat.mod_eq_of_lt (by omega)
  rw [UInt8.toNat_ofBitVec, BitVec.toNat_setWidth, BitVec.toNat_and, h127, and_127]
  omega

theorem toNat_or_128 {low : UInt8} (h : low.toNat < 128) :
    (low ||| 128).toNat = low.toNat + 128 := by
  have hor : 128 + low.toNat = 128 ||| low.toNat :=
    Nat.two_pow_add_eq_or_of_lt (show low.toNat < 2 ^ 7 from h) 1
  have h128 : (128 : UInt8).toNat = 128 := rfl
  rw [UInt8.toNat_or, h128, Nat.or_comm, ← hor, Nat.add_comm]

theorem eq_toUInt8 {a : UInt8} {n : ℕ} (h : a.toNat = n) : a = n.toUInt8 := by
  rw [← h, Nat.toUInt8, UInt8.ofNat_toNat]

/-- One byte, and what is left of the word. -/
theorem wordBytes_succ {k : ℕ} (hw : 7 ≤ w) : wordBytes (k + 1) value =
    if value.toNat < 128 then [value.toNat.toUInt8]
    else (value.toNat % 128 + 128).toUInt8 :: wordBytes k (value >>> 7) := by
  have hlow := @toNat_low w value hw
  have hzero : value >>> 7 = 0 ↔ value.toNat < 128 := by
    rw [← BitVec.toNat_inj, toNat_shiftRight_seven]
    change value.toNat / 128 = 0 % 2 ^ w ↔ _
    rw [Nat.zero_mod]
    omega
  change (UInt8.ofBitVec ((value &&& 127).setWidth 8) ||| if value >>> 7 = 0 then 0 else 128) ::
    (if value >>> 7 = 0 then [] else wordBytes k (value >>> 7)) = _
  split_ifs with h₁ h₂ h₂
  · rw [UInt8.or_zero, eq_toUInt8 hlow, Nat.mod_eq_of_lt h₂]
  · exact absurd (hzero.1 h₁) h₂
  · exact absurd (hzero.2 h₂) h₁
  · have hbyte :=
      toNat_or_128 (by omega : (UInt8.ofBitVec ((value &&& 127).setWidth 8)).toNat < 128)
    rw [hlow] at hbyte
    rw [eq_toUInt8 hbyte]

/-- The array of the writer suffices, and holds the bytes of the number. -/
theorem wordBytes_eq {k : ℕ} (hw : 7 ≤ w) (h : value.toNat < 2 ^ (7 * (k + 1))) :
    wordBytes (k + 1) value = varBytes k value.toNat := by
  induction k generalizing value with
  | zero =>
    have hs : value.toNat < 128 := h
    rw [wordBytes_succ hw, if_pos hs]
    rfl
  | succ k ih =>
    have hdiv : (value >>> 7).toNat < 2 ^ (7 * (k + 1)) := by
      rw [show 7 * (k + 1 + 1) = 7 * (k + 1) + 7 by omega, Nat.pow_add] at h
      rw [toNat_shiftRight_seven]
      exact Nat.div_lt_of_lt_mul (by omega)
    rw [wordBytes_succ hw, varBytes, ih hdiv, toNat_shiftRight_seven]

end

namespace Reader

section

variable {last top start fuel group bits : ℕ} {value : BitVec w} {r : Reader}

/-- The words of a run are the numbers of the run on numbers; `bits` are left for the last group. -/
theorem wordGroups_run (htop : top < 2 ^ bits) (hbits : bits ≤ 7) (hw : bits + 7 * last ≤ w)
    (hfuel : group + fuel = last + 1) (hvalue : value.toNat < 2 ^ (7 * group)) :
    groups last top start fuel group value.toNat r =
      ((wordGroups last top start fuel group value r).1.map BitVec.toNat,
        (wordGroups last top start fuel group value r).2) := by
  induction fuel generalizing group value r with
  | zero => rfl
  | succ fuel ih =>
    rw [groups, wordGroups]
    rcases hread : u8 r with ⟨e | byte, r₁⟩
    · rw [Read.error_bind hread, Read.error_bind hread]
      rfl
    · have hlt := (past_of_u8 hread).1
      rw [Read.ok_bind hread, Read.ok_bind hread]
      by_cases htop' : group = last → byte ≤ top
      · have hstep : byte % 128 * 2 ^ (7 * group) + 2 ^ (7 * group) ≤ 2 ^ (7 * (group + 1)) := by
          rw [show 7 * (group + 1) = 7 + 7 * group by omega, Nat.pow_add, ← Nat.succ_mul]
          exact Nat.mul_le_mul_right _ (by omega)
        have hfits : byte % 128 * 2 ^ (7 * group) < 2 ^ w := by
          by_cases hgroup : group = last
          · have hle := htop' hgroup
            calc byte % 128 * 2 ^ (7 * group)
              _ < 2 ^ bits * 2 ^ (7 * group) :=
                Nat.mul_lt_mul_of_pos_right (by omega) (Nat.two_pow_pos _)
              _ = 2 ^ (bits + 7 * last) := by rw [← Nat.pow_add, hgroup]
              _ ≤ 2 ^ w := Nat.pow_le_pow_right (by decide) hw
          · have hpow : 2 ^ (7 * (group + 1)) ≤ 2 ^ w :=
              Nat.pow_le_pow_right (by decide) (by omega)
            have hpos : 0 < 2 ^ (7 * group) := Nat.two_pow_pos _
            omega
        have hor := toNat_or_group hvalue hfits
        rw [Read.ensure_bind htop', Read.ensure_bind htop']
        by_cases hs : byte < 128
        · rw [if_pos hs, if_pos ((and_128_eq_zero hlt).2 hs)]
          by_cases hz : group ≠ 0 → byte ≠ 0
          · rw [Read.ensure_bind hz, Read.ensure_bind hz, ← hor]
            rfl
          · rw [Read.not_ensure_bind hz, Read.not_ensure_bind hz]
            rfl
        · rw [if_neg hs, if_neg fun h => hs ((and_128_eq_zero hlt).1 h), ← hor]
          exact ih (by omega) (by rw [hor]; omega)
      · rw [Read.not_ensure_bind htop', Read.not_ensure_bind htop']
        rfl

end

namespace Word

variable {r r' : Reader}

theorem varU32_run : Reader.varU32 r = ((varU32 r).1.map BitVec.toNat, (varU32 r).2) := by
  have hrun := @wordGroups_run 32 4 15 r.offset 5 0 4 0 r (by decide) (by decide) (by decide) rfl
    (by decide)
  have hzero : (0 : BitVec 32).toNat = 0 := rfl
  rw [hzero] at hrun
  rw [Reader.varU32, hrun, varU32]
  rcases wordGroups 4 15 r.offset 5 0 (0 : BitVec 32) r with ⟨_ | _, _⟩
  all_goals rfl

theorem varU64_run : Reader.varU64 r = ((varU64 r).1.map BitVec.toNat, (varU64 r).2) := by
  have hrun := @wordGroups_run 64 9 1 r.offset 10 0 1 0 r (by decide) (by decide) (by decide) rfl
    (by decide)
  have hzero : (0 : BitVec 64).toNat = 0 := rfl
  rw [hzero] at hrun
  rw [Reader.varU64, hrun, varU64]
  rcases wordGroups 9 1 r.offset 10 0 (0 : BitVec 64) r with ⟨_ | _, _⟩
  all_goals rfl

end Word

end Reader

/-! ### Lengths -/

/-- The writer puts one byte for seven significant bits, and one for zero. -/
theorem length_wordBytes {value : BitVec w} {k : ℕ} (hw : 7 ≤ w) (hk : w ≤ 7 * (k + 1)) :
    (wordBytes (k + 1) value).length =
      if value = 0 then 1 else (w - value.clz.toNat + 6) / 7 := by
  have hlt : value.toNat < 2 ^ (7 * (k + 1)) :=
    Nat.lt_of_lt_of_le value.isLt (Nat.pow_le_pow_right (by decide) hk)
  rw [wordBytes_eq hw hlt, length_varBytes hlt]
  by_cases hz : value = 0
  · subst hz
    rfl
  · have hne : value.toNat ≠ 0 := fun h => hz (BitVec.toNat_inj.1 h)
    have hlow := BitVec.two_pow_sub_clz_le_toNat_of_ne_zero (by omega) hz
    have hhigh := BitVec.toNat_lt_two_pow_sub_clz (x := value)
    have hclz : value.clz.toNat < w := by
      by_contra hcon
      rw [Nat.sub_eq_zero_of_le (Nat.not_lt.1 hcon)] at hhigh
      omega
    have hlog : value.toNat.log2 = w - 1 - value.clz.toNat := by
      refine (Nat.log2_eq_iff hne).2 ⟨hlow, ?_⟩
      rwa [show w - 1 - value.clz.toNat + 1 = w - value.clz.toNat by omega]
    rw [if_neg hne, if_neg hz, hlog]
    omega

/-! ### The two directions -/

/-- A writer and a reader of words are inverse to each other, wherever the cursors stand. -/
structure Canonical (write : BitVec w → Writer.Emit) (read : Reader.Parse (BitVec w))
    (length : BitVec w → ℕ) : Prop where
  /-- With enough room the writer puts a number of bytes that depends on the word alone. -/
  written : ∀ (value : BitVec w) (out : Writer), out.written.length + out.room < usizeLimit →
    length value ≤ out.room →
    ∃ bytes, bytes.length = length value ∧
      write value out = (.ok ⟨⟩, ⟨out.written ++ bytes, out.room - bytes.length⟩)
  /-- Whatever follows, what was written is read back, and nothing else is consumed. -/
  readBack : ∀ (value : BitVec w) (out out' : Writer), write value out = (.ok ⟨⟩, out') →
    ∃ bytes, out'.written = out.written ++ bytes ∧ bytes.length = length value ∧
      ∀ (r : Reader) (following : List UInt8), r.Fits → r.rest = bytes ++ following →
        read r = (.ok value, ⟨following, r.offset + bytes.length⟩)
  /-- Only what the writer puts for a word is read as that word. -/
  accepted : ∀ (r r' : Reader) (value : BitVec w), read r = (.ok value, r') →
    ∃ bytes, r.rest = bytes ++ r'.rest ∧ r'.offset = r.offset + bytes.length ∧
      write value (Writer.new bytes.length) = (.ok ⟨⟩, ⟨bytes, 0⟩)
  /-- A failed read leaves the cursor. -/
  unchanged : ∀ (r r' : Reader) (e : Error), read r = (.error e, r') → r' = r

section

variable {write : BitVec w → Writer.Emit} {read : Reader.Parse (BitVec w)} {length : BitVec w → ℕ}
  {bytes : BitVec w → List UInt8}

/-- It is enough that the reader takes the bytes of a word, and no others, for it. -/
theorem Canonical.of_past (hwrite : ∀ value, write value = Writer.put (bytes value))
    (hlength : ∀ value, (bytes value).length = length value)
    (hsmall : ∀ value, length value < usizeLimit)
    (hread : ∀ {r r' value}, r.Fits → Reader.Past r (bytes value) r' → read r = (.ok value, r'))
    (hpast : ∀ {r r' value}, read r = (.ok value, r') → Reader.Past r (bytes value) r')
    (hfail : ∀ {r r' e}, read r = (.error e, r') → r' = r) : Canonical write read length where
  written value out hf hroom := by
    rw [hwrite]
    exact ⟨bytes value, hlength value,
      Writer.Writes.put out hf (by rw [hlength]; exact hroom)⟩
  readBack value out out' h := by
    rw [hwrite, Writer.put] at h
    split_ifs at h
    all_goals cases h
    refine ⟨bytes value, rfl, hlength value, fun r following hf hrest => ?_⟩
    exact hread hf ⟨hrest, rfl⟩
  accepted r r' value h := by
    obtain ⟨hrest, hoffset⟩ := hpast h
    refine ⟨bytes value, hrest, hoffset, ?_⟩
    have hlt := hsmall value
    rw [← hlength] at hlt
    have hput := @Writer.Writes.put (bytes value) (Writer.new (bytes value).length)
      (by rw [Writer.new, List.length_nil, Nat.zero_add]; exact hlt) (Nat.le_refl _)
    rw [hwrite, hput, Writer.new, Nat.sub_self, List.nil_append]
  unchanged _ _ _ h := hfail h

end

/-- The word of a run on words, from the number of the run on numbers. -/
theorem Reader.of_toNat_run {x : Except Error (BitVec w) × Reader} {value : BitVec w} {r' : Reader}
    (h : (x.1.map BitVec.toNat, x.2) = (.ok value.toNat, r')) : x = (.ok value, r') := by
  obtain ⟨hfst, hsnd⟩ := Prod.mk.inj h
  obtain ⟨_ | value', r₁⟩ := x
  · cases hfst
  · have heq : value'.toNat = value.toNat := Except.ok.inj hfst
    rw [BitVec.toNat_inj.1 heq]
    exact congrArg (Prod.mk _) hsnd

/-- Words of 32 bits. -/
theorem canonical_varU32 :
    Canonical Writer.Word.varU32 Reader.Word.varU32 Writer.Word.varU32Len := by
  have hbytes : ∀ value : BitVec 32, wordBytes 5 value = varU32Bytes value.toNat := fun value =>
    wordBytes_eq (by decide) (Nat.lt_trans value.isLt (by decide))
  refine Canonical.of_past (fun _ => rfl) (fun _ => length_wordBytes (by decide) (by decide)) ?_
    ?_ ?_ ?_
  · intro value
    have h : Writer.Word.varU32Len value ≤ 5 := by
      rw [Writer.Word.varU32Len]
      split_ifs
      all_goals omega
    exact Nat.lt_of_le_of_lt h (by decide)
  · intro r r' value hf h
    rw [hbytes] at h
    exact Reader.of_toNat_run (Reader.Word.varU32_run.symm.trans
      (Reader.varU32_past hf value.isLt h))
  · intro r r' value h
    rw [hbytes]
    have hrun := @Reader.Word.varU32_run r
    rw [h] at hrun
    exact (Reader.past_of_varU32 hrun).2
  · intro r r' e h
    rw [Reader.Word.varU32] at h
    split at h
    all_goals cases h
    rfl

/-- Words of 64 bits. -/
theorem canonical_varU64 : Canonical Writer.Word.varU64 Reader.Word.varU64
    fun value => if value = 0 then 1 else (64 - value.clz.toNat + 6) / 7 := by
  have hbytes : ∀ value : BitVec 64, wordBytes 10 value = varU64Bytes value.toNat := fun value =>
    wordBytes_eq (by decide) (Nat.lt_trans value.isLt (by decide))
  refine Canonical.of_past (fun _ => rfl) (fun _ => length_wordBytes (by decide) (by decide)) ?_
    ?_ ?_ ?_
  · intro value
    have h : (if value = 0 then 1 else (64 - value.clz.toNat + 6) / 7) ≤ 10 := by
      split_ifs
      all_goals omega
    exact Nat.lt_of_le_of_lt h (by decide)
  · intro r r' value hf h
    rw [hbytes] at h
    exact Reader.of_toNat_run (Reader.Word.varU64_run.symm.trans
      (Reader.varU64_past hf value.isLt h))
  · intro r r' value h
    rw [hbytes]
    have hrun := @Reader.Word.varU64_run r
    rw [h] at hrun
    exact (Reader.past_of_varU64 hrun).2
  · intro r r' e h
    rw [Reader.Word.varU64] at h
    split at h
    all_goals cases h
    rfl

/-- Reading and writing are inverse to each other on all words of either width. -/
theorem varints_exact :
    Canonical Writer.Word.varU32 Reader.Word.varU32 Writer.Word.varU32Len ∧
      Canonical Writer.Word.varU64 Reader.Word.varU64
        fun value => if value = 0 then 1 else (64 - value.clz.toNat + 6) / 7 :=
  ⟨canonical_varU32, canonical_varU64⟩

-- a redundant group and an overflowing last group are refused where they stand
example : Reader.Word.varU32 ⟨[0xAC, 0x02, 0x07], 3⟩ = (.ok 300, ⟨[0x07], 5⟩) := by decide
example : Reader.Word.varU32 ⟨[0xAC, 0x82, 0x00], 3⟩ =
    (.error (.codecAt 3 .nonCanonical), ⟨[0xAC, 0x82, 0x00], 3⟩) := by decide

end PinCore
