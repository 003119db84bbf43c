import PinCore.Identity
import PinCore.Lib.Read

/-!
# Byte fields and canonical integers

Little-endian fields and variable-length integers.  A `Reader` is a cursor over the bytes that are
still to be read; a failed read leaves it where it was.  What the readers accept is exactly what
the writers write, and on a shortened input they fail with `truncated` or are not affected.
-/

namespace PinCore

/-! ### Writers -/

/-- The little-endian value of a byte string. -/
def leNat (bytes : List UInt8) : ℕ := bytes.foldr (fun b acc => b.toNat + 256 * acc) 0

/-- `width` little-endian bytes of a number. -/
def leBytes : ℕ → ℕ → List UInt8
  | 0, _ => []
  | width + 1, n => (n % 256).toUInt8 :: leBytes width (n / 256)

/-- The two little-endian bytes of a number. -/
def bytesU16 (n : ℕ) : List UInt8 := [(n % 256).toUInt8, (n / 256 % 256).toUInt8]

/-- The four little-endian bytes of a number. -/
def bytesU32 (n : ℕ) : List UInt8 := bytesU16 (n % 65536) ++ bytesU16 (n / 65536)

/-- The variable-length integer writer, at most `fuel + 1` bytes. -/
def varBytes : ℕ → ℕ → List UInt8
  | 0, n => [n.toUInt8]
  | fuel + 1, n =>
    if n < 128 then [n.toUInt8] else (n % 128 + 128).toUInt8 :: varBytes fuel (n / 128)

/-- The variable-length bytes of a 32-bit number. -/
def varU32Bytes (n : ℕ) : List UInt8 := varBytes 4 n

/-- The variable-length bytes of a 64-bit number. -/
def varU64Bytes (n : ℕ) : List UInt8 := varBytes 9 n

/-- Bytes of a variable-length integer of at most `fuel + 1` groups of seven bits. -/
def varLen : ℕ → ℕ → ℕ
  | 0, _ => 1
  | fuel + 1, n => if n < 128 then 1 else 1 + varLen fuel (n / 128)

/-- The number of variable-length bytes of a 32-bit number. -/
def varU32Len (n : ℕ) : ℕ := varLen 4 n

/-- The number of variable-length bytes of a 64-bit number. -/
def varU64Len (n : ℕ) : ℕ := varLen 9 n

/-! ### Fields of one width -/

section

variable {α β : Type} {f : α → List β} {n : ℕ}

theorem length_flatMap_const (h : ∀ a, (f a).length = n) (l : List α) :
    (l.flatMap f).length = l.length * n := by
  induction l with
  | nil => rw [List.flatMap_nil, List.length_nil, List.length_nil, Nat.zero_mul]
  | cons a l ih => rw [List.flatMap_cons, List.length_append, ih, h, List.length_cons, Nat.succ_mul,
      Nat.add_comm]

theorem drop_flatMap_const (h : ∀ a, (f a).length = n) (l : List α) (i : ℕ) :
    (l.flatMap f).drop (i * n) = (l.drop i).flatMap f := by
  induction i generalizing l with
  | zero => rw [Nat.zero_mul, List.drop_zero, List.drop_zero]
  | succ i ih =>
    cases l with
    | nil => simp
    | cons a l =>
      rw [List.flatMap_cons, Nat.succ_mul, Nat.add_comm, ← List.drop_drop,
        List.drop_left' (h a), ih, List.drop_succ_cons]

/-- The field with index `i`. -/
theorem field_flatMap_const (h : ∀ a, (f a).length = n) {l : List α} {i : ℕ} (hi : i < l.length) :
    ((l.flatMap f).drop (i * n)).take n = f l[i] := by
  rw [drop_flatMap_const h, List.drop_eq_getElem_cons hi, List.flatMap_cons, List.take_left' (h _)]

end

/-! ### Fields of any width -/

section

variable {β : Type} {l : List (List β)} {i : ℕ}

theorem length_take_flatten_le (l : List (List β)) (i : ℕ) :
    (l.take i).flatten.length ≤ l.flatten.length := by
  have hsplit : (l.take i ++ l.drop i).flatten.length = l.flatten.length := by
    rw [List.take_append_drop]
  rw [List.flatten_append, List.length_append] at hsplit
  omega

theorem length_take_succ_flatten (hi : i < l.length) :
    (l.take (i + 1)).flatten.length = (l.take i).flatten.length + l[i].length := by
  rw [List.take_succ_eq_append_getElem hi, List.flatten_append, List.length_append,
    List.flatten_singleton]

/-- A field stands between the fields before it and those behind it. -/
theorem slice_flatten (hi : i < l.length) :
    (l.flatten.drop (l.take i).flatten.length).take l[i].length = l[i] := by
  have hsplit : l.flatten = (l.take i).flatten ++ (l[i] ++ (l.drop (i + 1)).flatten) := by
    rw [← List.flatten_cons, ← List.flatten_append, ← List.drop_eq_getElem_cons hi,
      List.take_append_drop]
  rw [hsplit, List.drop_left, List.take_left]

end

/-! ### Text -/

/-- The bytes still expected of a UTF-8 sequence: how many, and the range of the first of them. -/
def utf8From : ℕ → UInt8 → UInt8 → List UInt8 → Bool
  | n, _, _, [] => decide (n = 0)
  | 0, _, _, b :: bs =>
    if b < 0x80 then utf8From 0 0 0 bs
    else if 0xC2 ≤ b ∧ b ≤ 0xDF then utf8From 1 0x80 0xBF bs
    else if b = 0xE0 then utf8From 2 0xA0 0xBF bs
    else if b = 0xED then utf8From 2 0x80 0x9F bs
    else if 0xE1 ≤ b ∧ b ≤ 0xEF then utf8From 2 0x80 0xBF bs
    else if b = 0xF0 then utf8From 3 0x90 0xBF bs
    else if 0xF1 ≤ b ∧ b ≤ 0xF3 then utf8From 3 0x80 0xBF bs
    else if b = 0xF4 then utf8From 3 0x80 0x8F bs
    else false
  | n + 1, low, high, b :: bs => decide (low ≤ b ∧ b ≤ high) && utf8From n 0x80 0xBF bs

/-- The bytes are well-formed UTF-8. -/
def utf8 (bytes : List UInt8) : Bool := utf8From 0 0 0 bytes

/-- A text between a prefix and a text that has it has it too. -/
theorem prefix_of_between {start a b : Text} (ha : ¬ a < start) (hab : a < b)
    (hb : start <+: b) : start <+: a := by
  induction start generalizing a b with
  | nil => exact List.nil_prefix
  | cons x start ih =>
    obtain ⟨b', rfl, hb'⟩ := List.cons_prefix_iff.1 hb
    cases a with
    | nil => exact absurd (List.nil_lt_cons x start) ha
    | cons y a =>
      rw [List.cons_lt_cons_iff] at ha hab
      rcases hab with hlt | ⟨rfl, hlt⟩
      · exact absurd (.inl hlt) ha
      · have hrest : ¬ a < start := fun h => ha (.inr ⟨rfl, h⟩)
        exact List.prefix_cons_inj y |>.2 (ih hrest hlt hb')

/-- A text with a prefix is not before it. -/
theorem not_lt_of_prefix {start a : Text} (h : start <+: a) : ¬ a < start := by
  obtain ⟨rest, rfl⟩ := h
  exact List.not_lt.2 List.le_append_left

/-! ### Readers -/

/-- `usize` is 64 bits wide. -/
def usizeLimit : ℕ := 18446744073709551616

/-- A `u32` is less than this. -/
def u32Limit : ℕ := 4294967296

/-- A cursor: the bytes not read yet, and how many were read before them. -/
structure Reader where
  rest : List UInt8
  offset : ℕ
  deriving DecidableEq, Repr

namespace Reader

/-- A reader of fields. -/
abbrev Parse (α : Type) := Read Reader Error α

/-- A cursor at the start of a slice. -/
def new (bytes : List UInt8) : Reader := ⟨bytes, 0⟩

/-- The number of bytes that are still to be read. -/
def remaining (r : Reader) : ℕ := r.rest.length

/-- How many bytes were read. -/
def position : Parse ℕ := fun r => (.ok r.offset, r)

/-- The next `len` bytes. -/
def take (len : ℕ) : Parse (List UInt8) := fun r =>
  if usizeLimit ≤ r.offset + len then (.error (.codecAt r.offset .overflow), r)
  else if r.rest.length < len then (.error (.codecAt r.offset .truncated), r)
  else (.ok (r.rest.take len), ⟨r.rest.drop len, r.offset + len⟩)

/-- A little-endian field of `len` bytes. -/
def le (len : ℕ) : Parse ℕ := do
  let bytes ← take len
  return leNat bytes

/-- Reads one byte. -/
def u8 : Parse ℕ := le 1

/-- Reads a little-endian field of two bytes. -/
def u16 : Parse ℕ := le 2

/-- Reads a little-endian field of four bytes. -/
def u32 : Parse ℕ := le 4

/-- Reads a little-endian field of eight bytes. -/
def u64 : Parse ℕ := le 8

/-- The groups of a variable-length integer from `group` on; of the byte of the last one at most
`top` is allowed. -/
def groups (last top start : ℕ) : ℕ → ℕ → ℕ → Parse ℕ
  | 0, _, _ => Read.fail (.codecAt start .overflow)
  | fuel + 1, group, value => do
    let byte ← u8
    Read.ensure (group = last → byte ≤ top) (.codecAt start .overflow)
    let value := value + byte % 128 * 2 ^ (7 * group)
    if byte < 128 then do
      Read.ensure (group ≠ 0 → byte ≠ 0) (.codecAt start .nonCanonical)
      return value
    else groups last top start fuel (group + 1) value

/-- The fifth group has four payload bits.  Overflow and redundant groups are rejected, and a
failure leaves the cursor unchanged. -/
def varU32 : Parse ℕ := fun r =>
  match groups 4 15 r.offset 5 0 0 r with
  | (.ok value, r') => (.ok value, r')
  | (.error e, _) => (.error e, r)

/-- The tenth group has one payload bit; a failure leaves the cursor unchanged. -/
def varU64 : Parse ℕ := fun r =>
  match groups 9 1 r.offset 10 0 0 r with
  | (.ok value, r') => (.ok value, r')
  | (.error e, _) => (.error e, r)

/-- Nothing is left. -/
def finish (r : Reader) : Except Error Unit :=
  if r.remaining ≠ 0 then .error (.codecAt r.offset .trailingBytes) else .ok ⟨⟩

/-! ### What a read takes -/

/-- The read of `bs` leads from the one cursor to the other. -/
structure Past (r : Reader) (bs : List UInt8) (r' : Reader) : Prop where
  rest : r.rest = bs ++ r'.rest
  offset : r'.offset = r.offset + bs.length

/-- The slice under the cursor lies in memory. -/
def Fits (r : Reader) : Prop := r.offset + r.rest.length < usizeLimit

section

variable {r r' r'' : Reader} {bs cs : List UInt8} {len v n : ℕ}

theorem Past.nil : Past r [] r := ⟨rfl, rfl⟩

theorem Past.append (h : Past r bs r') (h' : Past r' cs r'') : Past r (bs ++ cs) r'' where
  rest := by rw [h.rest, h'.rest, List.append_assoc]
  offset := by rw [h'.offset, h.offset, List.length_append, Nat.add_assoc]

/-- A read of two parts goes through a cursor between them. -/
theorem Past.split (h : Past r (bs ++ cs) r') :
    Past r bs ⟨cs ++ r'.rest, r.offset + bs.length⟩ ∧
      Past ⟨cs ++ r'.rest, r.offset + bs.length⟩ cs r' := by
  refine ⟨⟨by rw [h.rest, List.append_assoc], rfl⟩, rfl, ?_⟩
  rw [h.offset, List.length_append, Nat.add_assoc]

theorem Past.fits (h : Past r bs r') (hf : r.Fits) : r'.Fits := by
  unfold Fits at *
  rw [h.rest, List.length_append] at hf
  rw [h.offset]
  omega

theorem Past.length_le (h : Past r bs r') : r'.rest.length + bs.length = r.rest.length := by
  rw [h.rest, List.length_append, Nat.add_comm]

theorem position_bind {α : Type} {f : ℕ → Parse α} : (position >>= f) r = f r.offset r := rfl

theorem take_past (hf : r.Fits) (h : Past r bs r') : take bs.length r = (.ok bs, r') := by
  have hlen := h.length_le
  have hr' : (⟨r'.rest, r.offset + bs.length⟩ : Reader) = r' := by rw [← h.offset]
  unfold Fits at hf
  rw [take, if_neg (by omega), if_neg (by omega), h.rest, List.take_left, List.drop_left, hr']

theorem past_of_take (h : take len r = (.ok bs, r')) : bs.length = len ∧ Past r bs r' := by
  unfold take at h
  split_ifs at h with h₁ h₂
  all_goals cases h
  have hlen : (r.rest.take len).length = len := by
    rw [List.length_take, Nat.min_eq_left (Nat.not_lt.1 h₂)]
  exact ⟨hlen, (List.take_append_drop len r.rest).symm, by rw [hlen]⟩

/-- All that is left. -/
theorem take_rest (hf : r.Fits) :
    take r.remaining r = (.ok r.rest, ⟨[], r.offset + r.rest.length⟩) :=
  take_past hf ⟨(List.append_nil _).symm, rfl⟩

theorem of_take_rest (h : take r.remaining r = (.ok bs, r')) : Past r bs r' ∧ r'.rest = [] := by
  obtain ⟨hlen, hp⟩ := past_of_take h
  have := hp.length_le
  rw [remaining] at hlen
  exact ⟨hp, List.length_eq_zero_iff.1 (by omega)⟩

/-! ### Little-endian fields -/

theorem toNat_byte (n : ℕ) : (n % 256).toUInt8.toNat = n % 256 := by
  have : n % 256 < 256 := Nat.mod_lt _ (by decide)
  simp only [Nat.toUInt8, UInt8.toNat_ofNat']
  omega

theorem length_leBytes : (leBytes len n).length = len := by
  induction len generalizing n with
  | zero => rfl
  | succ len ih => rw [leBytes, List.length_cons, ih]

theorem leNat_leBytes (h : n < 256 ^ len) : leNat (leBytes len n) = n := by
  induction len generalizing n with
  | zero =>
    have hn : n = 0 := by rw [Nat.pow_zero] at h; omega
    exact hn.symm
  | succ len ih =>
    have hdiv : n / 256 < 256 ^ len := by
      rw [Nat.pow_succ] at h
      exact Nat.div_lt_of_lt_mul (by omega)
    change (n % 256).toUInt8.toNat + 256 * leNat (leBytes len (n / 256)) = n
    rw [toNat_byte, ih hdiv]
    omega

theorem leNat_lt (bs : List UInt8) : leNat bs < 256 ^ bs.length := by
  induction bs with
  | nil => decide
  | cons b bs ih =>
    have hb : b.toNat < 256 := b.toNat_lt
    change b.toNat + 256 * leNat bs < 256 ^ (bs.length + 1)
    rw [Nat.pow_succ]
    omega

theorem leBytes_leNat (bs : List UInt8) : leBytes bs.length (leNat bs) = bs := by
  induction bs with
  | nil => rfl
  | cons b bs ih =>
    have hb : b.toNat < 256 := b.toNat_lt
    have hmod : (b.toNat + 256 * leNat bs) % 256 = b.toNat := by omega
    have hdiv : (b.toNat + 256 * leNat bs) / 256 = leNat bs := by omega
    change ((b.toNat + 256 * leNat bs) % 256).toUInt8 ::
      leBytes bs.length ((b.toNat + 256 * leNat bs) / 256) = b :: bs
    rw [hmod, hdiv, ih, Nat.toUInt8, UInt8.ofNat_toNat]

theorem le_past (hf : r.Fits) (hv : v < 256 ^ len) (h : Past r (leBytes len v) r') :
    le len r = (.ok v, r') := by
  have htake := take_past hf h
  rw [length_leBytes] at htake
  unfold le
  rw [Read.ok_bind htake, leNat_leBytes hv]
  rfl

theorem past_of_le (h : le len r = (.ok v, r')) : v < 256 ^ len ∧ Past r (leBytes len v) r' := by
  obtain ⟨bs, r₁, htake, h⟩ := Read.of_bind h
  cases h
  obtain ⟨rfl, hp⟩ := past_of_take htake
  exact ⟨leNat_lt bs, by rwa [leBytes_leNat]⟩

theorem bytesU16_eq : bytesU16 n = leBytes 2 n := rfl

theorem bytesU32_eq : bytesU32 n = leBytes 4 n := by
  have h₀ : n % 65536 % 256 = n % 256 := by omega
  have h₁ : n % 65536 / 256 % 256 = n / 256 % 256 := by omega
  have h₂ : n / 65536 % 256 = n / 256 / 256 % 256 := by omega
  have h₃ : n / 65536 / 256 % 256 = n / 256 / 256 / 256 % 256 := by omega
  simp only [bytesU32, bytesU16, leBytes, List.cons_append, List.nil_append, h₀, h₁, h₂, h₃]

theorem length_bytesU16 : (bytesU16 n).length = 2 := rfl

theorem length_bytesU32 : (bytesU32 n).length = 4 := rfl

theorem u16_past (hf : r.Fits) (hv : v < 65536) (h : Past r (bytesU16 v) r') :
    u16 r = (.ok v, r') := le_past hf hv h

theorem past_of_u16 (h : u16 r = (.ok v, r')) : v < 65536 ∧ Past r (bytesU16 v) r' :=
  past_of_le h

theorem u32_past (hf : r.Fits) (hv : v < u32Limit) (h : Past r (bytesU32 v) r') :
    u32 r = (.ok v, r') := by
  rw [bytesU32_eq] at h
  exact le_past hf hv h

theorem past_of_u32 (h : u32 r = (.ok v, r')) : v < u32Limit ∧ Past r (bytesU32 v) r' := by
  rw [bytesU32_eq]
  exact past_of_le h

/-! ### Variable-length integers -/

theorem byte_past {b : ℕ} (hf : r.Fits) (hb : b < 256) (h : Past r [b.toUInt8] r') :
    u8 r = (.ok b, r') := by
  refine le_past hf hb ?_
  rwa [leBytes, leBytes, Nat.mod_eq_of_lt hb]

theorem past_of_u8 {b : ℕ} (h : u8 r = (.ok b, r')) : b < 256 ∧ Past r [b.toUInt8] r' := by
  obtain ⟨hb, hp⟩ := past_of_le h
  have hb' : b < 256 := hb
  rw [leBytes, leBytes, Nat.mod_eq_of_lt hb'] at hp
  exact ⟨hb', hp⟩

/-- A group adds its seven bits. -/
theorem group_value (last k n value : ℕ) (hk : k < last) :
    value + n % 128 * 2 ^ (7 * (last - (k + 1))) + n / 128 * 2 ^ (7 * (last - k)) =
      value + n * 2 ^ (7 * (last - (k + 1))) := by
  have hpow : 2 ^ (7 * (last - k)) = 128 * 2 ^ (7 * (last - (k + 1))) := by
    rw [show 7 * (last - k) = 7 + 7 * (last - (k + 1)) by omega, Nat.pow_add]
  have hn : n % 128 + 128 * (n / 128) = n := Nat.mod_add_div n 128
  rw [hpow, Nat.add_assoc, ← Nat.mul_assoc, ← Nat.add_mul, Nat.mul_comm (n / 128), hn]

/-- The groups of the writer from the last but `k` on. -/
theorem groups_past {last top bits start k value : ℕ} (htop : top + 1 = 2 ^ bits) (hbits : bits ≤ 7)
    (hk : k ≤ last) (hf : r.Fits) (hn : n < 2 ^ (bits + 7 * k)) (hz : k ≠ last → n ≠ 0)
    (h : Past r (varBytes k n) r') :
    groups last top start (k + 1) (last - k) value r =
      (.ok (value + n * 2 ^ (7 * (last - k))), r') := by
  have h128 : top < 128 := by
    have : 2 ^ bits ≤ 2 ^ 7 := Nat.pow_le_pow_right (by decide) hbits
    omega
  induction k generalizing n value r with
  | zero =>
    have hn' : n < 2 ^ bits := hn
    unfold groups
    rw [Read.ok_bind (byte_past hf (by omega) h), Read.ensure_bind (by omega),
      if_pos (by omega : n < 128), Read.ensure_bind fun _ => hz (by omega),
        Nat.mod_eq_of_lt (by omega)]
    rfl
  | succ k ih =>
    unfold groups
    rw [varBytes] at h
    by_cases hs : n < 128
    · rw [if_pos hs] at h
      rw [Read.ok_bind (byte_past hf (by omega) h), Read.ensure_bind (by omega), if_pos hs,
        Read.ensure_bind fun hg => hz (by omega), Nat.mod_eq_of_lt hs]
      rfl
    · rw [if_neg hs, ← List.singleton_append] at h
      obtain ⟨hfirst, hrest⟩ := h.split
      have hgroup : (n % 128 + 128) % 128 = n % 128 := by omega
      have hdiv : n / 128 < 2 ^ (bits + 7 * k) := by
        rw [show bits + 7 * (k + 1) = bits + 7 * k + 7 by omega, Nat.pow_add] at hn
        exact Nat.div_lt_of_lt_mul (by omega)
      rw [Read.ok_bind (byte_past hf (by omega) hfirst), Read.ensure_bind (by omega),
        if_neg (by omega), show last - (k + 1) + 1 = last - k by omega,
        ih (by omega) (hfirst.fits hf) hdiv (fun _ => by omega) hrest, hgroup,
        group_value last k n value (by omega)]

theorem past_of_groups {last top bits start k value : ℕ} (htop : top + 1 = 2 ^ bits)
    (hbits : bits ≤ 7) (hk : k ≤ last)
    (h : groups last top start (k + 1) (last - k) value r = (.ok v, r')) :
    ∃ n, n < 2 ^ (bits + 7 * k) ∧ (k ≠ last → n ≠ 0) ∧ v = value + n * 2 ^ (7 * (last - k)) ∧
      Past r (varBytes k n) r' := by
  have h128 : top < 128 := by
    have : 2 ^ bits ≤ 2 ^ 7 := Nat.pow_le_pow_right (by decide) hbits
    omega
  induction k generalizing value r with
  | zero =>
    unfold groups at h
    obtain ⟨b, r₁, hb, h⟩ := Read.of_bind h
    obtain ⟨hlt, hp⟩ := past_of_u8 hb
    obtain ⟨hsmall, h⟩ := Read.of_ensure_bind h
    have hbtop := hsmall rfl
    rw [if_pos (by omega)] at h
    obtain ⟨hz, h⟩ := Read.of_ensure_bind h
    cases h
    refine ⟨b, ?_, fun _ => hz (by omega), by rw [Nat.mod_eq_of_lt (by omega)], hp⟩
    rw [Nat.mul_zero, Nat.add_zero]
    omega
  | succ k ih =>
    unfold groups at h
    obtain ⟨b, r₁, hb, h⟩ := Read.of_bind h
    obtain ⟨hlt, hp⟩ := past_of_u8 hb
    obtain ⟨-, h⟩ := Read.of_ensure_bind h
    have hpow : 128 ≤ 2 ^ (bits + 7 * (k + 1)) := by
      rw [show bits + 7 * (k + 1) = 7 + (bits + 7 * k) by omega, Nat.pow_add]
      exact Nat.le_mul_of_pos_right _ (Nat.pow_pos (by decide))
    by_cases hs : b < 128
    · rw [if_pos hs] at h
      obtain ⟨hz, h⟩ := Read.of_ensure_bind h
      cases h
      refine ⟨b, by omega, fun hne => hz (by omega), by rw [Nat.mod_eq_of_lt hs], ?_⟩
      rwa [varBytes, if_pos hs]
    · rw [if_neg hs, show last - (k + 1) + 1 = last - k by omega] at h
      obtain ⟨n, hn, hz, rfl, hp'⟩ := ih (by omega) h
      have hn0 := hz (by omega)
      have hmod : (b % 128 + 128 * n) % 128 = b % 128 := by omega
      have hdiv : (b % 128 + 128 * n) / 128 = n := by omega
      refine ⟨b % 128 + 128 * n, ?_, fun _ => by omega, ?_, ?_⟩
      · rw [show bits + 7 * (k + 1) = bits + 7 * k + 7 by omega, Nat.pow_add]
        omega
      · have := group_value last k (b % 128 + 128 * n) value (by omega)
        rw [hmod, hdiv] at this
        exact this
      · rw [varBytes, if_neg (by omega), hmod, hdiv, show b % 128 + 128 = b by omega]
        exact hp.append hp'

theorem varU32_past (hf : r.Fits) (hv : v < u32Limit) (h : Past r (varU32Bytes v) r') :
    varU32 r = (.ok v, r') := by
  have hread : groups 4 15 r.offset 5 0 0 r = (.ok (0 + v * 2 ^ 0), r') :=
    @groups_past r r' v 4 15 4 r.offset 4 0 (by decide) (by decide) (Nat.le_refl 4) hf hv
      (by omega) h
  rw [varU32, hread]
  simp

theorem past_of_varU32 (h : varU32 r = (.ok v, r')) : v < u32Limit ∧ Past r (varU32Bytes v) r' := by
  unfold varU32 at h
  rcases hg : groups 4 15 r.offset 5 0 0 r with ⟨_ | value, r₁⟩
  · rw [hg] at h
    cases h
  · rw [hg] at h
    cases h
    obtain ⟨n, hn, -, rfl, hp⟩ := @past_of_groups r r' _ 4 15 4 r.offset 4 0 (by decide) (by decide)
      (Nat.le_refl 4) hg
    simp only [Nat.sub_self, Nat.mul_zero, Nat.pow_zero, Nat.mul_one, Nat.zero_add]
    exact ⟨hn, hp⟩

theorem varU64_past (hf : r.Fits) (hv : v < 2 ^ 64) (h : Past r (varU64Bytes v) r') :
    varU64 r = (.ok v, r') := by
  have hread : groups 9 1 r.offset 10 0 0 r = (.ok (0 + v * 2 ^ 0), r') :=
    @groups_past r r' v 9 1 1 r.offset 9 0 (by decide) (by decide) (Nat.le_refl 9) hf hv
      (by omega) h
  rw [varU64, hread]
  simp

theorem past_of_varU64 (h : varU64 r = (.ok v, r')) : v < 2 ^ 64 ∧ Past r (varU64Bytes v) r' := by
  unfold varU64 at h
  rcases hg : groups 9 1 r.offset 10 0 0 r with ⟨_ | value, r₁⟩
  · rw [hg] at h
    cases h
  · rw [hg] at h
    cases h
    obtain ⟨n, hn, -, rfl, hp⟩ := @past_of_groups r r' _ 9 1 1 r.offset 9 0 (by decide) (by decide)
      (Nat.le_refl 9) hg
    simp only [Nat.sub_self, Nat.mul_zero, Nat.pow_zero, Nat.mul_one, Nat.zero_add]
    exact ⟨hn, hp⟩

end

/-! ### Errors of integers -/

/-- An error of the byte codecs. -/
def InCodec (e : Error) : Prop := ∃ offset kind, e = .codecAt offset kind

theorem take_errors (len : ℕ) : Read.Errors InCodec (take len) := by
  intro r e r' h
  unfold take at h
  split_ifs at h
  all_goals cases h
  all_goals exact ⟨_, _, rfl⟩

theorem le_errors (len : ℕ) : Read.Errors InCodec (le len) :=
  (take_errors len).bind fun _ => Read.Errors.pure

theorem groups_errors (last top start fuel group value : ℕ) :
    Read.Errors InCodec (groups last top start fuel group value) := by
  induction fuel generalizing group value with
  | zero => exact Read.Errors.fail ⟨_, _, rfl⟩
  | succ fuel ih =>
    refine (le_errors 1).bind fun byte => (Read.Errors.ensure ⟨_, _, rfl⟩).bind fun _ => ?_
    dsimp only
    split_ifs
    · exact (Read.Errors.ensure ⟨_, _, rfl⟩).bind fun _ => Read.Errors.pure
    · exact ih _ _

theorem varU32_errors : Read.Errors InCodec varU32 := by
  intro r e r' h
  unfold varU32 at h
  rcases hg : groups 4 15 r.offset 5 0 0 r with ⟨e' | v, r₁⟩
  · rw [hg] at h
    cases h
    exact groups_errors _ _ _ _ _ _ r _ _ hg
  · rw [hg] at h
    cases h

/-! ### Shortened inputs -/

/-- The cursor stands at the same place of a slice that ends earlier. -/
def Shorter (r₀ r : Reader) : Prop := r₀.rest <+: r.rest ∧ r₀.offset = r.offset

/-- The input ended too early. -/
def Truncated (e : Error) : Prop := ∃ offset, e = .codecAt offset .truncated

/-- On a shortened slice the read gives the same, or finds the slice too short. -/
abbrev Cut {α : Type} (x : Parse α) : Prop := Read.Cut Shorter Truncated x

theorem take_cut (len : ℕ) : Cut (take len) := by
  rintro r₀ r bs r' ⟨hpre, hoff⟩ h
  obtain ⟨rest, hrest⟩ := hpre
  obtain ⟨hlen, hp⟩ := past_of_take h
  have hover : ¬ usizeLimit ≤ r.offset + len := by
    intro hlim
    rw [take, if_pos hlim] at h
    cases h
  rw [← hoff] at hover
  by_cases hshort : r₀.rest.length < len
  · refine .inr ⟨_, r₀, ⟨r₀.offset, rfl⟩, ?_⟩
    rw [take, if_neg hover, if_pos hshort]
  · have hle : len ≤ r₀.rest.length := Nat.not_lt.1 hshort
    have htake : r₀.rest.take len = bs := by
      rw [← List.take_append_of_le_length hle, hrest, hp.rest, ← hlen, List.take_left]
    have hdrop : r₀.rest.drop len ++ rest = r'.rest := by
      rw [← List.drop_append_of_le_length hle, hrest, hp.rest, ← hlen, List.drop_left]
    refine .inl ⟨⟨r₀.rest.drop len, r₀.offset + len⟩, ⟨⟨rest, hdrop⟩, ?_⟩, ?_⟩
    · rw [hp.offset, hoff, hlen]
    · rw [take, if_neg hover, if_neg hshort, htake]

theorem le_cut (len : ℕ) : Cut (le len) := (take_cut len).bind fun _ => Read.Cut.pure

theorem position_cut : Cut position := by
  rintro r₀ r n r' hs h
  cases h
  exact .inl ⟨r₀, hs, by rw [position, hs.2]⟩

theorem groups_cut (last top start fuel group value : ℕ) :
    Cut (groups last top start fuel group value) := by
  induction fuel generalizing group value with
  | zero => exact Read.Cut.fail
  | succ fuel ih =>
    refine (le_cut 1).bind fun byte => Read.Cut.ensure.bind fun _ => ?_
    dsimp only
    split_ifs
    · exact Read.Cut.ensure.bind fun _ => Read.Cut.pure
    · exact ih _ _

theorem varU32_cut : Cut varU32 := by
  intro r₀ r v r' hs h
  have hg : groups 4 15 r.offset 5 0 0 r = (.ok v, r') := by
    unfold varU32 at h
    rcases hg : groups 4 15 r.offset 5 0 0 r with ⟨_ | value, r₁⟩
    · rw [hg] at h
      cases h
    · rw [hg] at h
      exact h
  rcases groups_cut 4 15 r.offset 5 0 0 r₀ r v r' hs hg with ⟨r₀', hs', h₀⟩ | ⟨e, r₀', he, h₀⟩
  · refine .inl ⟨r₀', hs', ?_⟩
    rw [varU32, hs.2, h₀]
  · refine .inr ⟨e, r₀, he, ?_⟩
    rw [varU32, hs.2, h₀]

end Reader

/-! ### Lengths of integers -/

/-- The length of a `u32` from its number of significant bits. -/
def varU32Bits (value : ℕ) : ℕ := if value = 0 then 1 else (value.log2 + 1 + 6) / 7

theorem log2_div_128 {n : ℕ} (h : 128 ≤ n) : n.log2 = (n / 128).log2 + 7 := by
  have hne : n / 128 ≠ 0 := by omega
  obtain ⟨hlow, hhigh⟩ := (Nat.log2_eq_iff hne).1 rfl
  refine (Nat.log2_eq_iff (by omega)).2 ⟨?_, ?_⟩
  · have hmul := (Nat.le_div_iff_mul_le (by decide : 0 < 128)).1 hlow
    rwa [Nat.pow_add]
  · have hmul := (Nat.div_lt_iff_lt_mul (by decide : 0 < 128)).1 hhigh
    rwa [show (n / 128).log2 + 7 + 1 = (n / 128).log2 + 1 + 7 by omega, Nat.pow_add]

theorem length_varBytes {k n : ℕ} (h : n < 2 ^ (7 * (k + 1))) :
    (varBytes k n).length = if n = 0 then 1 else (n.log2 + 1 + 6) / 7 := by
  have hsmall : ∀ {m : ℕ}, m < 128 → (1 : ℕ) = if m = 0 then 1 else (m.log2 + 1 + 6) / 7 := by
    intro m hm
    split_ifs with h0
    · rfl
    · have : m.log2 < 7 := (Nat.log2_lt h0).2 hm
      omega
  induction k generalizing n with
  | zero => exact hsmall h
  | succ k ih =>
    rw [varBytes]
    split_ifs with hs h0 h0
    · rfl
    · have := hsmall hs
      rwa [if_neg h0] at this
    · omega
    · have hdiv : n / 128 < 2 ^ (7 * (k + 1)) := by
        rw [show 7 * (k + 1 + 1) = 7 * (k + 1) + 7 by omega, Nat.pow_add] at h
        exact Nat.div_lt_of_lt_mul (by omega)
      have hlog := log2_div_128 (Nat.le_of_not_lt hs)
      rw [List.length_cons, ih hdiv, if_neg (by omega), hlog]
      omega

/-- The writer uses as many bytes as the bit length says. -/
theorem length_varU32Bytes {value : ℕ} (h : value < u32Limit) :
    (varU32Bytes value).length = varU32Bits value := by
  have : u32Limit < 2 ^ (7 * (4 + 1)) := by decide
  exact length_varBytes (by omega)

/-! ### Buffers -/

/-- A buffer that is filled from the front: the bytes written and how many are free after them. -/
structure Writer where
  written : List UInt8
  room : ℕ

namespace Writer

/-- A writer of fields. -/
abbrev Emit := Read Writer Error PUnit

/-- A writer on a buffer of the given length. -/
def new (length : ℕ) : Writer := ⟨[], length⟩

/-- Writes the bytes when the buffer has room for all of them. -/
def put (bytes : List UInt8) : Emit := fun w =>
  if usizeLimit ≤ w.written.length + bytes.length then
    (.error (.codecAt w.written.length .overflow), w)
  else if w.room < bytes.length then (.error (.codecAt w.written.length .truncated), w)
  else (.ok ⟨⟩, ⟨w.written ++ bytes, w.room - bytes.length⟩)

/-- Writes one byte. -/
def u8 (value : ℕ) : Emit := put (leBytes 1 value)

/-- Writes a little-endian field of two bytes. -/
def u16 (value : ℕ) : Emit := put (bytesU16 value)

/-- Writes a little-endian field of four bytes. -/
def u32 (value : ℕ) : Emit := put (bytesU32 value)

/-- Writes a little-endian field of eight bytes. -/
def u64 (value : ℕ) : Emit := put (leBytes 8 value)

/-- Writes a variable-length 32-bit number. -/
def varU32 (value : ℕ) : Emit := put (varU32Bytes value)

/-- A little-endian field of `width` bytes. -/
def le (width value : ℕ) : Emit := put (leBytes width value)

/-- The whole buffer; what was not written is zero. -/
def buffer (w : Writer) : List UInt8 := w.written ++ List.replicate w.room 0

/-- Given enough room, the program writes `bs`. -/
def Writes (x : Emit) (bs : List UInt8) : Prop :=
  ∀ w : Writer, w.written.length + w.room < usizeLimit → bs.length ≤ w.room →
    x w = (.ok ⟨⟩, ⟨w.written ++ bs, w.room - bs.length⟩)

theorem Writes.put {bs : List UInt8} : Writes (put bs) bs := by
  intro w hf hroom
  rw [Writer.put, if_neg (by omega), if_neg (by omega)]

theorem Writes.le {width value : ℕ} : Writes (le width value) (leBytes width value) := Writes.put

theorem Writes.nil : Writes (pure ⟨⟩) [] := by
  intro w _ _
  rw [List.append_nil]
  rfl

theorem Writes.bind {x y : Emit} {bs cs : List UInt8} (hx : Writes x bs) (hy : Writes y cs) :
    Writes (x >>= fun _ => y) (bs ++ cs) := by
  intro w hf hroom
  rw [List.length_append] at hroom ⊢
  rw [Read.ok_bind (hx w hf (by omega)),
    hy _ (by simp only [List.length_append]; omega) (by simp only; omega), List.append_assoc,
    Nat.sub_sub]

theorem Writes.ofExcept {α : Type} {y : Except Error α} {f : α → Emit} {a : α} {bs : List UInt8}
    (hy : y = .ok a) (hf : Writes (f a) bs) : Writes (Read.ofExcept y >>= f) bs := by
  subst hy
  exact hf

theorem Writes.ensure {c : Prop} [Decidable c] {e : Error} {y : Emit} {bs : List UInt8} (hc : c)
    (hy : Writes y bs) : Writes (Read.ensure c e >>= fun _ => y) bs := by
  rw [Read.ensure, if_pos hc]
  exact hy

/-- A buffer of the right size is filled. -/
theorem Writes.buffer {x : Emit} {bs : List UInt8} (hx : Writes x bs)
    (hf : bs.length < usizeLimit) : ∃ w, x (new bs.length) = (.ok ⟨⟩, w) ∧ w.buffer = bs := by
  refine ⟨_, hx (new bs.length) (by simpa [new] using hf) (Nat.le_refl _), ?_⟩
  rw [Writer.buffer, new, Nat.sub_self, List.nil_append]
  exact List.append_nil bs

/-- Writes to the first `length` bytes of a buffer of the caller; the rest of it stays. -/
def into (output : List UInt8) (length : ℕ) (x : Emit) : Except Error ℕ × List UInt8 :=
  match x (new length) with
  | (.ok _, w) => (.ok length, w.written ++ output.drop w.written.length)
  | (.error e, w) => (.error e, w.written ++ output.drop w.written.length)

theorem Writes.into {x : Emit} {bs : List UInt8} (hx : Writes x bs) (hf : bs.length < usizeLimit)
    (output : List UInt8) :
    into output bs.length x = (.ok bs.length, bs ++ output.drop bs.length) := by
  have hrun := hx (new bs.length) (by simpa [new] using hf) (Nat.le_refl _)
  rw [Writer.into, hrun, new, List.nil_append]

/-- Writes to a buffer of the caller from its start; returns how much, and the buffer. -/
def onto (output : List UInt8) (x : Emit) : Except Error ℕ × List UInt8 :=
  match x (new output.length) with
  | (.ok _, w) => (.ok w.written.length, w.written ++ output.drop w.written.length)
  | (.error e, w) => (.error e, w.written ++ output.drop w.written.length)

theorem Writes.onto {x : Emit} {bs output : List UInt8} (hx : Writes x bs)
    (hroom : bs.length ≤ output.length) (hf : output.length < usizeLimit) :
    onto output x = (.ok bs.length, bs ++ output.drop bs.length) := by
  have hrun := hx (new output.length) (by simpa [new] using hf) hroom
  rw [Writer.onto, hrun, new, List.nil_append]

end Writer

end PinCore
