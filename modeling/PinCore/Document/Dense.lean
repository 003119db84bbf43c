import PinCore.Document.Prefix

/-!
# Dense runs of positions

`PhraseStream.seekGe` skips 32 adjacent positions at a time.  This is the same as reading position
after position, in what is returned, in the work that is charged and in the stream that is left
(`PhraseStream.seekGe_exact`).
-/

namespace PinCore

open Reader

namespace PhraseStream

/-- Position after position, up to one that is not below the target. -/
def advanceTo (target : ℕ) : ℕ → PhraseStream × ℕ → Except Error (Option ℕ × PhraseStream × ℕ)
  | 0, _ => .error .invalidState
  | fuel + 1, s => do
    let (value, s) ← advance s
    match value with
    | none => .ok (none, s)
    | some v => if target ≤ v then .ok (some v, s) else advanceTo target fuel s

/-- The stream behind `n` deltas of one, each in a byte. -/
def behind (n : ℕ) (s : PhraseStream) : PhraseStream :=
  { s with
    reader := ⟨s.reader.rest.drop n, s.reader.offset + n⟩
    previous := s.previous + n
    remaining := s.remaining - n }

/-- Goes behind `n` deltas of one. -/
def dense (n : ℕ) (s : PhraseStream) : Except Error PhraseStream :=
  if s.tokens ≤ s.previous + n then .error .invalidDocument
  else do
    (behind n s).checkEnd
    .ok (behind n s)

section

variable {s s' : PhraseStream} {target work n fuel fuel' v : ℕ} {rest : List UInt8}

/-! ### One position -/

/-- Each position moves the stream on and costs one unit of work. -/
theorem of_next (hf : s.reader.Fits) (h : s.next = .ok (some v, s')) :
    s.remaining ≠ 0 ∧ s'.remaining = s.remaining - 1 ∧ s'.reader.Fits := by
  unfold PhraseStream.next at h
  by_cases hr : s.remaining = 0
  · rw [if_pos hr] at h
    cases h
  rw [if_neg hr] at h
  rcases hread : varU32 s.reader with ⟨_ | delta, r⟩
  · rw [hread] at h
    cases h
  rw [hread] at h
  dsimp only at h
  split_ifs at h
  obtain ⟨⟨⟩, -, h⟩ := ok_of_bind h
  cases h
  exact ⟨hr, rfl, (past_of_varU32 hread).2.fits hf⟩

/-- A delta of one is read from one byte. -/
theorem advance_dense (hf : s.reader.Fits) (hfirst : s.first = false) (hr : s.remaining ≠ 0)
    (hw : work ≠ 0) (hlimit : s.previous + 1 < u32Limit) (hrest : s.reader.rest = 1 :: rest) :
    advance (s, work) = (dense 1 s >>= fun s' => .ok (some s'.previous, s', work - 1)) := by
  have hpast : Past s.reader (varU32Bytes 1) ⟨s.reader.rest.drop 1, s.reader.offset + 1⟩ := by
    refine ⟨?_, rfl⟩
    rw [hrest]
    rfl
  have hread := varU32_past hf (by decide) hpast
  have hzero : ¬ (s.first = false ∧ 1 = 0) := fun hc => absurd hc.2 (by decide)
  rw [advance, if_neg hw]
  unfold PhraseStream.next dense
  rw [if_neg hr, hread]
  dsimp only
  rw [if_neg hzero, if_neg (Nat.not_le.2 hlimit), ← hfirst]
  split_ifs
  · rfl
  · change ((behind 1 s).checkEnd >>= _) >>= _ = ((behind 1 s).checkEnd >>= _) >>= _
    cases (behind 1 s).checkEnd <;> rfl

theorem of_dense (h : dense n s = .ok s') : s' = behind n s := by
  unfold dense at h
  split_ifs at h
  obtain ⟨⟨⟩, -, h⟩ := ok_of_bind h
  exact (Except.ok.inj h).symm

theorem behind_fits (hf : s.reader.Fits) (h : n ≤ s.reader.rest.length) :
    (behind n s).reader.Fits := by
  unfold Reader.Fits behind at *
  dsimp only
  rw [List.length_drop]
  omega

/-- Only the last of several deltas can end the stream. -/
theorem dense_succ (hn : 0 < n) (hr : n < s.remaining) :
    dense (n + 1) s = (dense 1 s >>= dense n) := by
  have hend : (behind 1 s).checkEnd = .ok () := by
    refine if_neg fun hc => ?_
    have hzero : s.remaining - 1 = 0 := hc.1
    omega
  have hbehind : behind n (behind 1 s) = behind (n + 1) s := by
    unfold behind
    dsimp only
    rw [List.drop_drop, Nat.add_assoc, Nat.add_assoc, Nat.sub_sub, Nat.add_comm 1 n]
  have htokens : (behind 1 s).tokens ≤ (behind 1 s).previous + n ↔
      s.tokens ≤ s.previous + (n + 1) := by
    unfold behind
    dsimp only
    omega
  unfold dense
  by_cases h₁ : s.tokens ≤ s.previous + 1
  · rw [if_pos (by omega), if_pos h₁]
    rfl
  · rw [if_neg h₁, hend, ok_bind, ok_bind, hbehind, if_congr htokens rfl rfl]

/-! ### The stepwise loop -/

theorem checkEnd_ne (s : PhraseStream) : s.checkEnd ≠ .error .invalidState := by
  unfold PhraseStream.checkEnd Reader.finish
  split_ifs <;> nofun

/-- Fuel is not the reason of an error. -/
theorem next_ne (s : PhraseStream) : s.next ≠ .error .invalidState := by
  intro h
  unfold PhraseStream.next at h
  split_ifs at h
  rcases hread : varU32 s.reader with ⟨e | delta, r⟩
  · rw [hread] at h
    cases h
    obtain ⟨offset, kind, he⟩ := varU32_errors _ _ _ hread
    cases he
  · rw [hread] at h
    dsimp only at h
    split_ifs at h
    · cases h
    · cases h
    · cases h
    · rcases error_of_bind h with hend | ⟨_, -, hok⟩
      · exact checkEnd_ne _ hend
      · cases hok

theorem advanceTo_ne (hf : s.reader.Fits) (h : s.remaining < fuel) :
    advanceTo target fuel (s, work) ≠ .error .invalidState := by
  induction fuel generalizing s work with
  | zero => exact absurd h (Nat.not_lt_zero _)
  | succ fuel ih =>
    rw [advanceTo, advance]
    split_ifs
    · nofun
    rcases hnext : s.next with e | ⟨_ | v, s'⟩
    · intro heq
      have he : (.error e : Except Error (Option ℕ × PhraseStream × ℕ)) =
          .error .invalidState := heq
      cases he
      exact next_ne s hnext
    · nofun
    · obtain ⟨hr, hrem, hf'⟩ := of_next hf hnext
      rw [ok_bind, ok_bind]
      dsimp only
      split_ifs
      · nofun
      · exact ih hf' (by omega)

/-- Each round reads a position, so that fuel for all that are left is enough. -/
theorem advanceTo_fuel (hf : s.reader.Fits) (h : s.remaining < fuel) (h' : s.remaining < fuel') :
    advanceTo target fuel (s, work) = advanceTo target fuel' (s, work) := by
  induction fuel generalizing s work fuel' with
  | zero => exact absurd h (Nat.not_lt_zero _)
  | succ fuel ih =>
    obtain ⟨fuel', rfl⟩ := Nat.exists_eq_add_one_of_ne_zero (Nat.ne_of_gt (Nat.zero_lt_of_lt h'))
    rw [advanceTo, advanceTo, advance]
    split_ifs
    · rfl
    rcases hnext : s.next with e | ⟨_ | v, s'⟩
    · rfl
    · rfl
    · obtain ⟨hr, hrem, hf'⟩ := of_next hf hnext
      rw [ok_bind, ok_bind, ok_bind]
      dsimp only
      split_ifs
      · rfl
      · exact ih hf' (by omega) (by omega)

/-- A run of deltas of one below the target is read step by step. -/
theorem advanceTo_dense (hf : s.reader.Fits) (hfirst : s.first = false) (hn : 0 < n)
    (hr : n ≤ s.remaining) (hw : n ≤ work) (hlimit : s.previous + n < u32Limit)
    (htarget : s.previous + n < target) (hrest : s.reader.rest = List.replicate n 1 ++ rest) :
    advanceTo target (fuel + n) (s, work) =
      (dense n s >>= fun s' => advanceTo target fuel (s', work - n)) := by
  induction n generalizing s work with
  | zero => exact absurd hn (Nat.lt_irrefl 0)
  | succ n ih =>
    rw [List.replicate_succ, List.cons_append] at hrest
    have hbelow : ¬ target ≤ (behind 1 s).previous := by
      unfold behind
      dsimp only
      omega
    rw [← Nat.add_assoc, advanceTo,
      advance_dense hf hfirst (by omega) (by omega) (by omega) hrest]
    by_cases h0 : n = 0
    · subst h0
      rcases hd : dense 1 s with e | s'
      · rfl
      · rw [of_dense hd, ok_bind, ok_bind, ok_bind]
        exact if_neg hbelow
    · rw [dense_succ (Nat.pos_of_ne_zero h0) (by omega)]
      rcases hd : dense 1 s with e | s'
      · rfl
      · have hf' : (behind 1 s).reader.Fits := behind_fits hf (by
          rw [hrest, List.length_cons]
          omega)
        rw [of_dense hd, ok_bind, ok_bind, ok_bind]
        refine (if_neg hbelow).trans ?_
        have hwork : work - (n + 1) = work - 1 - n := by omega
        have hrest' : (behind 1 s).reader.rest = List.replicate n 1 ++ rest := by
          unfold behind
          rw [hrest]
          rfl
        rw [hwork]
        refine ih hf' hfirst (Nat.pos_of_ne_zero h0) ?_ (by omega) ?_ ?_ hrest'
        all_goals
          unfold behind
          dsimp only
          omega

/-! ### The loop that skips -/

/-- A skip goes behind 32 deltas of one below the target. -/
theorem skip_cases (hf : s.reader.Fits) : skip target (s, work) = .ok none ∨
    skip target (s, work) = (dense 32 s >>= fun s' => .ok (some (s', work - 32))) ∧
      s.first = false ∧ 32 ≤ s.remaining ∧ 32 ≤ work ∧ s.previous + 32 < u32Limit ∧
      s.previous + 32 < target ∧ ∃ rest, s.reader.rest = List.replicate 32 1 ++ rest := by
  unfold skip
  dsimp only
  split
  case isFalse => exact .inl rfl
  case isTrue hc =>
  obtain ⟨hfirst, hr, hw, hlimit, htarget, hlen⟩ := hc
  have htake : take 32 s.reader =
      (.ok (s.reader.rest.take 32), ⟨s.reader.rest.drop 32, s.reader.offset + 32⟩) := by
    unfold Reader.Fits at hf
    unfold Reader.remaining at hlen
    rw [take, if_neg (by omega), if_neg (by omega)]
  rw [htake]
  dsimp only
  by_cases hrun : s.reader.rest.take 32 = List.replicate 32 1
  swap
  · rw [if_neg hrun]
    exact .inl rfl
  rw [if_pos hrun]
  split_ifs with htokens
  · refine .inr ⟨?_, hfirst, hr, hw, hlimit, htarget, s.reader.rest.drop 32, ?_⟩
    · rw [dense, if_pos htokens]
      rfl
    · rw [← hrun, List.take_append_drop]
  · refine .inr ⟨?_, hfirst, hr, hw, hlimit, htarget, s.reader.rest.drop 32, ?_⟩
    · rw [dense, if_neg htokens]
      change ((behind 32 s).checkEnd >>= _) = ((behind 32 s).checkEnd >>= _) >>= _
      cases (behind 32 s).checkEnd <;> rfl
    · rw [← hrun, List.take_append_drop]

/-- For every stream, target and budget: the loop that skips runs returns what reading position
after position returns, a value or an error, with the same stream and the same work left. -/
theorem seekGe_exact (s : PhraseStream) (target work : ℕ) (hf : s.reader.Fits) :
    ∀ fuel fuel', s.remaining < fuel → s.remaining < fuel' →
      seekGe target fuel (s, work) = advanceTo target fuel' (s, work) ∧
      advanceTo target fuel' (s, work) ≠ .error .invalidState := by
  intro fuel fuel' h h'
  refine ⟨?_, advanceTo_ne hf h'⟩
  rw [advanceTo_fuel hf h' h]
  clear h'
  induction fuel using Nat.strong_induction_on generalizing s work with
  | _ fuel ih =>
  obtain ⟨fuel, rfl⟩ := Nat.exists_eq_add_one_of_ne_zero (Nat.ne_of_gt (Nat.zero_lt_of_lt h))
  rw [seekGe]
  rcases @skip_cases s target work hf with hskip |
    ⟨hskip, hfirst, hr, hw, hlimit, htarget, rest, hrest⟩
  · rw [hskip, ok_bind, advanceTo, advance]
    split_ifs
    · rfl
    rcases hnext : s.next with e | ⟨_ | v, s'⟩
    · rfl
    · rfl
    · obtain ⟨hr, hrem, hf'⟩ := of_next hf hnext
      rw [ok_bind, ok_bind, ok_bind]
      dsimp only
      split_ifs
      · rfl
      · exact ih fuel (Nat.lt_succ_self fuel) s' (work - 1) hf' (by omega)
  · have hsplit : fuel + 1 = fuel + 1 - 32 + 32 := by omega
    rw [hskip]
    conv_rhs => rw [hsplit, advanceTo_dense hf hfirst (by decide) hr hw hlimit htarget hrest]
    rcases hd : dense 32 s with e | s'
    · rfl
    · have hlen : 32 ≤ s.reader.rest.length := by
        rw [hrest, List.length_append, List.length_replicate]
        omega
      have hf' : (behind 32 s).reader.Fits := behind_fits hf hlen
      have hrem : (behind 32 s).remaining = s.remaining - 32 := rfl
      rw [of_dense hd]
      refine (ih fuel (Nat.lt_succ_self fuel) _ _ hf' (by omega)).trans ?_
      exact advanceTo_fuel hf' (by omega) (by omega)

/-- A run of 40 positions, sought in the middle. -/
theorem seekGe_exact_dense :
    let s : PhraseStream := ⟨Reader.new (List.replicate 40 1), 40, 0, false, 60, true⟩
    seekGe 37 41 (s, 100) = advanceTo 37 41 (s, 100) ∧
      advanceTo 37 41 (s, 100) ≠ .error .invalidState :=
  seekGe_exact ⟨Reader.new (List.replicate 40 1), 40, 0, false, 60, true⟩ 37 100
    (show 40 + 0 < usizeLimit by decide) 41 41 (by decide) (by decide)

end

end PhraseStream

end PinCore
