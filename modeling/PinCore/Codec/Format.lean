import PinCore.Codec.Bytes

/-!
# Formats

A format is a writing program, a reading program and the bytes they share: `Writer.Writes` says
what is written, `Reader.Decodes` that these bytes are read back.  Both are closed under
sequencing, so that a record is handled field by field.  `Writer.Fails` is for values that no
format has.
-/

namespace PinCore

namespace Reader

/-- From a cursor before `bs` the program returns `a` and stands behind them. -/
def Decodes {α : Type} (x : Parse α) (bs : List UInt8) (a : α) : Prop :=
  ∀ r r', r.Fits → Past r bs r' → x r = (.ok a, r')

/-- Reads a whole slice from its start. -/
def run {α : Type} (x : Parse α) (bytes : List UInt8) : Except Error α := (x (new bytes)).1

/-- The end of the slice. -/
def done : Parse PUnit := do
  let r ← Read.cursor
  Read.ofExcept r.finish

/-- Reads a whole slice, which must be used up. -/
def runDone {α : Type} (x : Parse α) (bytes : List UInt8) : Except Error α :=
  run (x >>= fun a => done >>= fun _ => pure a) bytes

section

variable {α β : Type} {x : Parse α} {f : α → Parse β} {bs cs : List UInt8} {a : α} {b : β}

theorem Decodes.pure : Decodes (Pure.pure a : Parse α) [] a := by
  intro r r' _ h
  obtain ⟨hrest, hoffset⟩ := h
  have hr : r = r' := by
    cases r
    cases r'
    simp_all
  subst hr
  rfl

theorem Decodes.bind (hx : Decodes x bs a) (hf : Decodes (f a) cs b) :
    Decodes (x >>= f) (bs ++ cs) b := by
  intro r r' hfit h
  obtain ⟨h₁, h₂⟩ := h.split
  rw [Read.ok_bind (hx r _ hfit h₁)]
  exact hf _ r' (h₁.fits hfit) h₂

theorem Decodes.le {len v : ℕ} (hv : v < 256 ^ len) : Decodes (le len) (leBytes len v) v :=
  fun _ _ hfit h => le_past hfit hv h

theorem Decodes.take {len : ℕ} (hlen : bs.length = len) : Decodes (take len) bs bs := by
  subst hlen
  exact fun _ _ hfit h => take_past hfit h

theorem Decodes.ensure_bind {c : Prop} [Decidable c] {e : Error} {f : PUnit → Parse β} (hc : c)
    (hf : Decodes (f ⟨⟩) bs b) : Decodes (Read.ensure c e >>= f) bs b := by
  intro r r' hfit h
  rw [Read.ensure_bind hc]
  exact hf r r' hfit h

theorem Decodes.ofExcept_bind {y : Except Error α} (hy : y = .ok a) (hf : Decodes (f a) bs b) :
    Decodes (Read.ofExcept y >>= f) bs b := by
  intro r r' hfit h
  rw [Read.ofExcept_bind hy]
  exact hf r r' hfit h

theorem Decodes.varU32 {v : ℕ} (hv : v < u32Limit) : Decodes varU32 (varU32Bytes v) v :=
  fun _ _ hfit h => varU32_past hfit hv h

theorem Decodes.varU64 {v : ℕ} (hv : v < 2 ^ 64) : Decodes varU64 (varU64Bytes v) v :=
  fun _ _ hfit h => varU64_past hfit hv h

theorem Decodes.position_bind {f : ℕ → Parse β} (hf : ∀ n, Decodes (f n) bs b) :
    Decodes (position >>= f) bs b := fun r r' hfit h => hf r.offset r r' hfit h

/-- A slice of the bytes is read to its end. -/
theorem Decodes.run (hx : Decodes x bs a) (hlen : bs.length < usizeLimit) : run x bs = .ok a := by
  have h := hx (new bs) ⟨[], bs.length⟩ (by simpa [Fits, new] using hlen)
    ⟨(List.append_nil bs).symm, (Nat.zero_add _).symm⟩
  rw [Reader.run, h]

theorem Decodes.runDone (hx : Decodes x bs a) (hlen : bs.length < usizeLimit) :
    runDone x bs = .ok a := by
  have h := hx (new bs) ⟨[], bs.length⟩ (by simpa [Fits, new] using hlen)
    ⟨(List.append_nil bs).symm, (Nat.zero_add _).symm⟩
  rw [Reader.runDone, Reader.run, Read.ok_bind h]
  rfl

/-- Nothing is left behind what was read. -/
theorem of_runDone {bytes : List UInt8} (h : runDone x bytes = .ok a) :
    ∃ r, x (new bytes) = (.ok a, r) ∧ r.rest = [] := by
  rw [Reader.runDone, Reader.run] at h
  rcases hx : (x >>= fun a => done >>= fun _ => pure a) (new bytes) with ⟨e | b, r'⟩
  · rw [hx] at h
    cases h
  rw [hx] at h
  cases h
  obtain ⟨b, r, hread, hx⟩ := Read.of_bind hx
  obtain ⟨_, r₂, hdone, hx⟩ := Read.of_bind hx
  cases hx
  refine ⟨r, hread, ?_⟩
  rw [Reader.done, Read.cursor_bind, Read.ofExcept, Reader.finish] at hdone
  split_ifs at hdone with hrem
  · cases hdone
  · exact List.length_eq_zero_iff.1 (not_not.1 hrem)

/-- What is read to its end is all that was there. -/
theorem Past.all {r : Reader} (h : Past (new bs) cs r) (hr : r.rest = []) : bs = cs := by
  have := h.rest
  rwa [hr, List.append_nil] at this

end

/-! ### Reading from another start -/

/-- From a cursor with the same bytes ahead, but fewer behind it, the second program reads what
the first one reads.  Where a read fails, its error may name another offset. -/
def Alike {α : Type} (x y : Parse α) : Prop :=
  ∀ r s a r', s.rest = r.rest → s.offset ≤ r.offset → x r = (.ok a, r') →
    ∃ bs, Past r bs r' ∧ y s = (.ok a, ⟨r'.rest, s.offset + bs.length⟩)

section

variable {α β : Type} {x y : Parse α} {f g : α → Parse β} {a : α}

theorem Alike.pure : Alike (Pure.pure a : Parse α) (Pure.pure a) := by
  intro r s b r' hrest _ h
  cases h
  refine ⟨[], Past.nil, ?_⟩
  rw [← hrest]
  rfl

theorem Alike.bind (hx : Alike x y) (hf : ∀ a, Alike (f a) (g a)) : Alike (x >>= f) (y >>= g) := by
  intro r s b r'' hrest hle h
  obtain ⟨a, r', hxr, hfr⟩ := Read.of_bind h
  obtain ⟨bs, hpast, hys⟩ := hx r s a r' hrest hle hxr
  have hle' : s.offset + bs.length ≤ r'.offset := by
    rw [hpast.offset]
    omega
  obtain ⟨cs, hpast', hgs⟩ := hf a r' ⟨r'.rest, s.offset + bs.length⟩ b r'' rfl hle' hfr
  refine ⟨bs ++ cs, hpast.append hpast', ?_⟩
  rw [Read.ok_bind hys, hgs, List.length_append, Nat.add_assoc]

theorem Alike.ensure {c : Prop} [Decidable c] {e e' : Error} :
    Alike (Read.ensure c e) (Read.ensure c e') := by
  intro r s a r' hrest hle h
  by_cases hc : c
  · rw [Read.ensure, if_pos hc] at h ⊢
    exact Alike.pure r s a r' hrest hle h
  · rw [Read.ensure, if_neg hc] at h
    cases h

theorem Alike.position_bind {f g : ℕ → Parse β} (hf : ∀ m n, Alike (f m) (g n)) :
    Alike (position >>= f) (position >>= g) := by
  intro r s b r' hrest hle h
  exact hf r.offset s.offset r s b r' hrest hle h

theorem Alike.take {len : ℕ} : Alike (take len) (Reader.take len) := by
  intro r s bs r' hrest hle h
  obtain ⟨hlen, hpast⟩ := past_of_take h
  refine ⟨bs, hpast, ?_⟩
  rw [Reader.take] at h
  split_ifs at h with hlimit hshort
  all_goals cases h
  rw [Reader.take, if_neg (by omega), hrest, if_neg hshort, hlen]

theorem Alike.le {len : ℕ} : Alike (le len) (Reader.le len) := Alike.take.bind fun _ => Alike.pure

theorem Alike.groups {last top m n fuel group value : ℕ} :
    Alike (groups last top m fuel group value) (Reader.groups last top n fuel group value) := by
  induction fuel generalizing group value with
  | zero =>
    intro r s a r' _ _ h
    cases h
  | succ fuel ih =>
    refine Alike.le.bind fun byte => Alike.ensure.bind fun _ => ?_
    dsimp only
    split_ifs
    · exact Alike.ensure.bind fun _ => Alike.pure
    · exact ih

theorem Alike.varU64 : Alike varU64 Reader.varU64 := by
  intro r s a r' hrest hle h
  rw [Reader.varU64] at h
  rcases hg : Reader.groups 9 1 r.offset 10 0 0 r with ⟨e | b, r₁⟩
  · rw [hg] at h
    cases h
  · rw [hg] at h
    cases h
    obtain ⟨bs, hpast, hs⟩ := @Alike.groups 9 1 r.offset s.offset 10 0 0 r s a r' hrest hle hg
    exact ⟨bs, hpast, by rw [Reader.varU64, hs]⟩

theorem Alike.varU32 : Alike varU32 Reader.varU32 := by
  intro r s a r' hrest hle h
  rw [Reader.varU32] at h
  rcases hg : Reader.groups 4 15 r.offset 5 0 0 r with ⟨e | b, r₁⟩
  · rw [hg] at h
    cases h
  · rw [hg] at h
    cases h
    obtain ⟨bs, hpast, hs⟩ := @Alike.groups 4 15 r.offset s.offset 5 0 0 r s a r' hrest hle hg
    exact ⟨bs, hpast, by rw [Reader.varU32, hs]⟩

end

end Reader

namespace Writer

/-- However much room there is, the program stops with an error. -/
def Fails (x : Emit) : Prop := ∀ w, ∃ e w', x w = (.error e, w')

/-- Fills a buffer of `length` zeros; returns how many bytes were written and the buffer. -/
def fill (length : ℕ) (x : Emit) : Except Error (ℕ × List UInt8) :=
  match x (new length) with
  | (.ok _, w) => .ok (w.written.length, w.buffer)
  | (.error e, _) => .error e

section

variable {x : Emit} {f : PUnit → Emit} {bs : List UInt8} {length : ℕ}

theorem Fails.left (hx : Fails x) : Fails (x >>= f) := by
  intro w
  obtain ⟨e, w', h⟩ := hx w
  exact ⟨e, w', Read.error_bind h⟩

theorem Fails.right (hf : Fails (f ⟨⟩)) : Fails (x >>= f) := by
  intro w
  rcases h : x w with ⟨e | ⟨⟩, w'⟩
  · exact ⟨e, w', Read.error_bind h⟩
  · rw [Read.ok_bind h]
    exact hf w'

theorem Fails.ensure {c : Prop} [Decidable c] {e : Error} (hc : ¬ c) : Fails (Read.ensure c e) := by
  intro w
  rw [Read.ensure, if_neg hc]
  exact ⟨e, w, rfl⟩

theorem Writes.cursor_bind {f : Writer → Emit} (hf : ∀ w, Writes (f w) bs) :
    Writes (Read.cursor >>= f) bs := fun w hfit hroom => hf w w hfit hroom

theorem Fails.cursor_bind {f : Writer → Emit} (hf : ∀ w, Fails (f w)) :
    Fails (Read.cursor >>= f) := fun w => hf w w

theorem Writes.fill (hx : Writes x bs) (hlen : bs.length ≤ length) (hlimit : length < usizeLimit) :
    fill length x = .ok (bs.length, bs ++ List.replicate (length - bs.length) 0) := by
  have hrun := hx (new length) (by simpa [new] using hlimit) hlen
  rw [Writer.fill, hrun]
  simp only [new, List.nil_append]
  rfl

theorem Fails.fill (hx : Fails x) : ∃ e, fill length x = .error e := by
  obtain ⟨e, w, h⟩ := hx (new length)
  exact ⟨e, by rw [Writer.fill, h]⟩

end

/-- However the output looks that has room for them, the encoder puts `bytes` at its start and
leaves the rest of it. -/
structure Encodes {α : Type} (encode : α → List UInt8 → Except Error ℕ × List UInt8) (a : α)
    (bytes : List UInt8) : Prop where
  length_lt : bytes.length < usizeLimit
  encode : ∀ output, bytes.length ≤ output.length → output.length < usizeLimit →
    encode a output = (.ok bytes.length, bytes ++ output.drop bytes.length)

end Writer

end PinCore
