import PinCore.Compact.Output
import PinCore.Image.Postings

/-!
# Posting references

What is written for a reference after another one is read back.  The stream of a page drains the
references, and an owning decoder follows the borrowing one step by step.
-/

namespace PinCore

open Reader

namespace Image

/-! ### Differences -/

/-- The bytes of a reference after another one. -/
def refBytes (previous : Option OwnerRef) (owner : OwnerRef) : List UInt8 :=
  match previous with
  | none => varU32Bytes owner.page ++ (varU32Bytes owner.slot ++ varU64Bytes owner.incarnation)
  | some p => varU32Bytes (owner.page - p.page) ++
      (varU32Bytes (if owner.page = p.page then owner.slot - p.slot else owner.slot) ++
        varU64Bytes (owner.incarnation - p.incarnation))

/-- The compressed references. -/
def streamBytes : Option OwnerRef → List OwnerRef → List UInt8
  | _, [] => []
  | previous, o :: os => refBytes previous o ++ streamBytes (some o) os

section

variable {previous : Option OwnerRef} {o p : OwnerRef} {os as bs : List OwnerRef} {k n : ℕ}

theorem length_varBytes_eq : (varBytes k n).length = varLen k n := by
  induction k generalizing n with
  | zero => rfl
  | succ k ih =>
    rw [varBytes, varLen]
    split_ifs
    · rfl
    · rw [List.length_cons, ih, Nat.add_comm]

theorem length_refBytes : (refBytes previous o).length = deltaLen previous o := by
  cases previous <;>
    simp only [refBytes, deltaLen, varU32Bytes, varU64Bytes, varU32Len, varU64Len,
      List.length_append, length_varBytes_eq, Nat.add_assoc]

theorem length_streamBytes : (streamBytes previous os).length = streamLen previous os := by
  induction os generalizing previous with
  | nil => rfl
  | cons o os ih => rw [streamBytes, List.length_append, ih, length_refBytes, streamLen]

theorem varLen_pos : 0 < varLen k n := by
  cases k with
  | zero => exact Nat.one_pos
  | succ k =>
    rw [varLen]
    split_ifs <;> omega

/-- A difference takes from three to twenty bytes. -/
theorem deltaLen_bounds : 3 ≤ deltaLen previous o ∧ deltaLen previous o ≤ 20 := by
  have hpos : ∀ k n, 0 < varLen k n := fun _ _ => varLen_pos
  cases previous with
  | none =>
    have h₁ := hpos 4 o.page
    have h₂ := hpos 4 o.slot
    have h₃ := hpos 9 o.incarnation
    refine ⟨?_, deltaLen_none_le o⟩
    rw [deltaLen, varU32Len, varU32Len, varU64Len]
    omega
  | some p =>
    have h₁ := hpos 4 (o.page - p.page)
    have h₂ := hpos 4 (if o.page = p.page then o.slot - p.slot else o.slot)
    have h₃ := hpos 9 (o.incarnation - p.incarnation)
    have h₄ := varLen_le 4 (o.page - p.page)
    have h₅ := varLen_le 4 (if o.page = p.page then o.slot - p.slot else o.slot)
    have h₆ := varLen_le 9 (o.incarnation - p.incarnation)
    rw [deltaLen, varU32Len, varU32Len, varU64Len]
    omega

theorem streamBytes_concat : streamBytes previous (os ++ [o]) =
    streamBytes previous os ++ refBytes (os.getLast?.or previous) o := by
  induction os generalizing previous with
  | nil => simp [streamBytes]
  | cons r rs ih =>
    have hlast : (r :: rs).getLast?.or previous = rs.getLast?.or (some r) := by
      cases rs with
      | nil => rfl
      | cons a as => simp [List.getLast?_cons]
    rw [List.cons_append, streamBytes, streamBytes, ih, hlast, List.append_assoc]

theorem before_iff : p.Before o ↔ ¬ (o.page < p.page ∨ (o.page = p.page ∧ o.slot ≤ p.slot) ∨
    o.incarnation ≤ p.incarnation) := by
  rw [OwnerRef.Before, OwnerRef.posLt]
  omega

/-- The differences of a reference that follows the last one. -/
theorem writeDelta_eq (h : PinCore.SealedBuilder.DeltaOk o previous) {w : Writer} : ∃ a b c : ℕ,
    writeDelta o previous w = (do
      Read.ensure (blockValid o.page ∧ o.slot < ownerSlots) Error.invalidState
      Writer.varU32 a
      Writer.varU32 b
      Writer.put (varU64Bytes c) : Writer.Emit) w ∧
    refBytes previous o = varU32Bytes a ++ (varU32Bytes b ++ varU64Bytes c) := by
  cases previous with
  | none => exact ⟨o.page, o.slot, o.incarnation, rfl, rfl⟩
  | some p =>
    refine ⟨o.page - p.page, if o.page = p.page then o.slot - p.slot else o.slot,
      o.incarnation - p.incarnation, ?_, rfl⟩
    have hstart : ∀ {β : Type} (x : ℕ × ℕ × ℕ) (f : ℕ × ℕ × ℕ → Read Writer Error β),
        ((do
          Read.ensure (¬ (o.page < p.page ∨ (o.page = p.page ∧ o.slot ≤ p.slot) ∨
            o.incarnation ≤ p.incarnation)) Error.invalidState
          return x) >>= f) w = f x w := by
      intro β x f
      exact Read.ok_bind (Read.ensure_bind (before_iff.1 (h.1 p rfl)))
    exact hstart _ _

/-- A reference that follows the last one is written. -/
theorem writeDelta_writes (h : PinCore.SealedBuilder.DeltaOk o previous) :
    Writer.Writes (writeDelta o previous) (refBytes previous o) := by
  intro w hfit hroom
  obtain ⟨a, b, c, hrun, hbytes⟩ := @writeDelta_eq previous o h w
  rw [hbytes] at hroom ⊢
  rw [hrun]
  exact Writer.Writes.ensure h.2
    (Writer.Writes.put.bind (Writer.Writes.put.bind Writer.Writes.put)) w hfit hroom

/-- Any other reference is rejected. -/
theorem writeDelta_error (h : ¬ PinCore.SealedBuilder.DeltaOk o previous) {w : Writer} :
    writeDelta o previous w = (.error .invalidState, w) := by
  by_cases hbefore : ∀ p ∈ previous, p.Before o
  · have hplace : ¬ (blockValid o.page ∧ o.slot < ownerSlots) := fun hp => h ⟨hbefore, hp⟩
    have hstop : ∀ {β : Type} (f : PUnit → Read Writer Error β),
        (Read.ensure (blockValid o.page ∧ o.slot < ownerSlots) Error.invalidState >>= f) w =
          (.error .invalidState, w) := fun f => Read.error_bind (congrFun (if_neg hplace) w)
    cases previous with
    | none => exact hstop _
    | some p =>
      have hstart : ∀ {β : Type} (x : ℕ × ℕ × ℕ) (f : ℕ × ℕ × ℕ → Read Writer Error β),
          ((do
            Read.ensure (¬ (o.page < p.page ∨ (o.page = p.page ∧ o.slot ≤ p.slot) ∨
              o.incarnation ≤ p.incarnation)) Error.invalidState
            return x) >>= f) w = f x w := by
        intro β x f
        exact Read.ok_bind (Read.ensure_bind (before_iff.1 (hbefore p rfl)))
      exact (hstart _ _).trans (hstop _)
  · cases previous with
    | none => exact absurd (fun p hp => nomatch hp) hbefore
    | some p =>
      have hp : ¬ p.Before o := fun hp => hbefore fun q hq => by
        cases hq
        exact hp
      rw [before_iff, not_not] at hp
      exact Read.error_bind (Read.error_bind (congrFun (if_neg (not_not.2 hp)) w))

/-- The differences are read back. -/
theorem readDelta_decodes (h : PinCore.SealedBuilder.DeltaOk o previous) (hr : o.InRange) :
    Decodes (readDelta previous) (refBytes previous o) o := by
  obtain ⟨hbefore, hblock, hslot⟩ := h
  obtain ⟨hpage, hslot16, hinc0, hinc⟩ := hr
  have hdone : ∀ start, Decodes (ownerRef start o.page o.slot o.incarnation) [] o := fun start =>
    Decodes.ensure_bind ⟨hblock, hslot⟩ (Decodes.ensure_bind hinc0 Decodes.pure)
  have hlimit : u32Limit = 2 ^ 32 := rfl
  have hinclimit : incarnationLimit = 2 ^ 64 := rfl
  refine Decodes.position_bind fun start => ?_
  cases previous with
  | none =>
    rw [← List.append_nil (refBytes none o), refBytes, List.append_assoc, List.append_assoc]
    refine (Decodes.varU32 (by omega)).bind ((Decodes.varU32 (by omega)).bind
      ((Decodes.varU64 hinc).bind ?_))
    exact hdone start
  | some p =>
    have hp := hbefore p rfl
    rw [OwnerRef.Before, OwnerRef.posLt] at hp
    rw [← List.append_nil (refBytes (some p) o), refBytes, List.append_assoc, List.append_assoc]
    refine (Decodes.varU32 (by omega)).bind ((Decodes.varU32 (by split_ifs <;> omega)).bind
      ((Decodes.varU64 (by omega)).bind ?_))
    have hpage' : p.page + (o.page - p.page) = o.page := by omega
    have hinc' : p.incarnation + (o.incarnation - p.incarnation) = o.incarnation := by omega
    have hslot' : (if o.page - p.page = 0 then
        p.slot + (if o.page = p.page then o.slot - p.slot else o.slot)
        else if o.page = p.page then o.slot - p.slot else o.slot) = o.slot := by
      split_ifs <;> omega
    dsimp only
    refine Decodes.ensure_bind (by split_ifs <;> omega) (Decodes.ensure_bind (by omega)
      (Decodes.ensure_bind (by intro h0; split_ifs <;> omega) (Decodes.ensure_bind (by omega) ?_)))
    rw [hpage', hinc', hslot']
    exact hdone start

theorem readDelta_alike : Alike (readDelta previous) (readDelta previous) := by
  have hdone : ∀ m n a b c, Alike (ownerRef m a b c) (ownerRef n a b c) := fun _ _ _ _ _ =>
    Alike.ensure.bind fun _ => Alike.ensure.bind fun _ => Alike.pure
  refine Alike.position_bind fun m n => Alike.varU32.bind fun a => Alike.varU32.bind fun b =>
    Alike.varU64.bind fun c => ?_
  cases previous with
  | none => exact hdone m n a b c
  | some p =>
    exact Alike.ensure.bind fun _ => Alike.ensure.bind fun _ => Alike.ensure.bind fun _ =>
      Alike.ensure.bind fun _ => hdone m n _ _ _

theorem ownerRead_alike : Alike OwnerRef.read OwnerRef.read :=
  Alike.le.bind fun _ => Alike.le.bind fun _ => Alike.le.bind fun _ => Alike.le.bind fun _ =>
    Alike.position_bind fun _ _ => Alike.ensure.bind fun _ => Alike.ensure.bind fun _ => Alike.pure

end

/-! ### Decoders -/

/-- Every reference follows the one before it. -/
def Chained : Option OwnerRef → List OwnerRef → Prop
  | _, [] => True
  | previous, o :: os => PinCore.SealedBuilder.DeltaOk o previous ∧ Chained (some o) os

section

variable {previous : Option OwnerRef} {o p : OwnerRef} {os as bs : List OwnerRef} {k n : ℕ}
  {it it' : Postings} {own : OwnedPostings} {e : Error} {r : Reader}

theorem chained_concat : Chained previous (os ++ [o]) ↔
    Chained previous os ∧ PinCore.SealedBuilder.DeltaOk o (os.getLast?.or previous) := by
  induction os generalizing previous with
  | nil => simp [Chained]
  | cons a as ih =>
    have hlast : (a :: as).getLast?.or previous = as.getLast?.or (some a) := by
      cases as with
      | nil => rfl
      | cons b bs => simp [List.getLast?_cons]
    rw [List.cons_append, Chained, Chained, ih, hlast, and_assoc]

theorem Postings.next_item (hf : it.failed = false) (hrem : it.remaining ≠ 0)
    (h : (if it.compressed then readDelta it.previous else OwnerRef.read) it.reader = (.ok o, r)) :
    it.next = (some (.ok o), { it with
      reader := r
      remaining := it.remaining - 1
      previous := some o }) := by
  rw [Postings.next, hf, if_neg Bool.false_ne_true, if_neg hrem, h]

theorem Postings.next_done (hrem : it.remaining = 0) (hrest : it.reader.rest = []) :
    it.next = (none, it) := by
  have h0 : it.reader.remaining = 0 := by rw [Reader.remaining, hrest, List.length_nil]
  rw [Postings.next]
  split_ifs
  · rfl
  · rfl

theorem Postings.of_next_none (h : it.next = (none, it)) (hf : it.failed = false) :
    it.remaining = 0 ∧ it.reader.rest = [] := by
  rw [Postings.next, hf, if_neg Bool.false_ne_true] at h
  by_cases hrem : it.remaining = 0
  · rw [if_pos hrem] at h
    by_cases hrest : it.reader.remaining = 0
    · exact ⟨hrem, List.length_eq_zero_iff.1 hrest⟩
    · rw [if_neg hrest] at h
      cases h
  · rw [if_neg hrem] at h
    rcases hread : (if it.compressed then readDelta it.previous else OwnerRef.read) it.reader with
      ⟨e | o, r⟩
    · rw [hread] at h
      cases h
    · rw [hread] at h
      cases h

theorem Postings.of_next_ok (h : it.next = (some (.ok o), it')) :
    it.failed = false ∧ it.remaining ≠ 0 ∧ ∃ r,
      (if it.compressed then readDelta it.previous else OwnerRef.read) it.reader = (.ok o, r) ∧
      it' = { it with
        reader := r
        remaining := it.remaining - 1
        previous := some o } := by
  cases hf : it.failed with
  | true =>
    rw [Postings.next, hf, if_pos rfl] at h
    cases h
  | false =>
    by_cases hrem : it.remaining = 0
    · rw [Postings.next, hf, if_neg Bool.false_ne_true, if_pos hrem] at h
      split_ifs at h
      all_goals cases h
    · rcases hread : (if it.compressed then readDelta it.previous else OwnerRef.read) it.reader with
        ⟨e | a, r⟩
      · rw [Postings.next, hf, if_neg Bool.false_ne_true, if_neg hrem, hread] at h
        cases h
      · rw [Postings.next_item hf hrem hread] at h
        cases h
        exact ⟨rfl, hrem, r, rfl, by rw [hf]⟩

/-- The stream of chained references gives them back. -/
theorem drains_stream (hf : it.failed = false) (hc : it.compressed = true)
    (hrem : it.remaining = os.length) (hrest : it.reader.rest = streamBytes it.previous os)
    (hfits : it.reader.Fits) (hchain : Chained it.previous os) (hr : ∀ o ∈ os, o.InRange) :
    Iterate.Drains Postings.next it (os.map .ok) := by
  induction os generalizing it with
  | nil => exact .done (Postings.next_done hrem hrest)
  | cons o os ih =>
    obtain ⟨hdelta, hchain⟩ := hchain
    have hpast : Past it.reader (refBytes it.previous o)
        ⟨streamBytes (some o) os, it.reader.offset + (refBytes it.previous o).length⟩ :=
      ⟨hrest, rfl⟩
    have hread := readDelta_decodes hdelta (hr o List.mem_cons_self) _ _ hfits hpast
    have hnext := Postings.next_item hf (by rw [hrem, List.length_cons]; omega)
      (by rw [hc, if_pos rfl]; exact hread)
    refine .item hnext (ih hf hc ?_ rfl (hpast.fits hfits) hchain
      fun x hx => hr x (List.mem_cons_of_mem _ hx))
    dsimp only
    rw [hrem, List.length_cons, Nat.add_sub_cancel]

/-- The owning decoder stands where the borrowing one does. -/
structure OwnedPostings.Follows (own : OwnedPostings) (it : Postings) : Prop where
  live : own.failed = false
  failed : it.failed = false
  compressed : own.compressed = it.compressed
  remaining : own.remaining = it.remaining
  previous : own.previous = it.previous
  inside : own.offset ≤ own.page.len
  rest : own.page.used.drop own.offset = it.reader.rest

theorem OwnedPostings.next_eq {v : Option (Except Error OwnerRef)} (hf : own.failed = false)
    (hin : own.offset ≤ own.page.len)
    (h : Postings.next ⟨Reader.new (own.page.used.drop own.offset), own.compressed, own.remaining,
      own.previous, false⟩ = (v, it)) :
    own.next = (v, { own with
      offset := own.offset + it.reader.offset
      remaining := it.remaining
      previous := it.previous
      failed := it.failed }) := by
  rw [OwnedPostings.next, hf, if_neg Bool.false_ne_true, if_neg (Nat.not_lt.2 hin)]
  dsimp only
  rw [h]

theorem OwnedPostings.Follows.next_done (h : own.Follows it) (hn : it.next = (none, it)) :
    own.next = (none, own) := by
  obtain ⟨hrem, hrest⟩ := Postings.of_next_none hn h.failed
  have hinner := @Postings.next_done ⟨Reader.new (own.page.used.drop own.offset), own.compressed,
    own.remaining, own.previous, false⟩ (h.remaining.trans hrem) (h.rest.trans hrest)
  rw [OwnedPostings.next_eq h.live h.inside hinner]
  have hlive := h.live
  cases own
  dsimp only at hlive
  rw [hlive]
  rfl

/-- A step of the borrowing decoder is one of the owning decoder, which starts a new reader. -/
theorem OwnedPostings.Follows.next_item (h : own.Follows it) (hn : it.next = (some (.ok o), it')) :
    ∃ own', own.next = (some (.ok o), own') ∧ own'.Follows it' ∧ own'.page = own.page ∧
      own'.remaining + 1 = own.remaining := by
  obtain ⟨-, hrem, r, hread, rfl⟩ := Postings.of_next_ok hn
  have halike : Alike (if it.compressed then readDelta it.previous else OwnerRef.read)
      (if it.compressed then readDelta it.previous else OwnerRef.read) := by
    split_ifs
    · exact readDelta_alike
    · exact ownerRead_alike
  obtain ⟨bs, hpast, hread'⟩ := halike it.reader (Reader.new (own.page.used.drop own.offset)) o r
    h.rest (Nat.zero_le _) hread
  have hinner := @Postings.next_item o ⟨Reader.new (own.page.used.drop own.offset), own.compressed,
    own.remaining, own.previous, false⟩ _ rfl (h.remaining ▸ hrem)
    (by rw [h.compressed, h.previous]; exact hread')
  have hdrop : own.page.used.drop own.offset = bs ++ r.rest := h.rest.trans hpast.rest
  have hlen : own.page.len - own.offset = bs.length + r.rest.length := by
    rw [← length_used, ← List.length_drop, hdrop, List.length_append]
  refine ⟨_, OwnedPostings.next_eq h.live h.inside hinner, ⟨rfl, h.failed, h.compressed, ?_, rfl,
    ?_, ?_⟩, rfl, ?_⟩
  · dsimp only
    rw [h.remaining]
  · change own.offset + (0 + bs.length) ≤ own.page.len
    have := h.inside
    omega
  · change own.page.used.drop (own.offset + (0 + bs.length)) = r.rest
    rw [Nat.zero_add, ← List.drop_drop, hdrop, List.drop_left]
  · change own.remaining - 1 + 1 = own.remaining
    have := h.remaining
    omega

/-- The owning decoder gives the same items. -/
theorem OwnedPostings.Follows.drains (h : own.Follows it)
    (hd : Iterate.Drains Postings.next it (os.map .ok)) :
    Iterate.Drains OwnedPostings.next own (os.map .ok) := by
  refine Iterate.Drains.follow (R := fun it own items => own.Follows it ∧ ∃ os : List OwnerRef,
    items = os.map .ok) ?_ ?_ hd ⟨h, os, rfl⟩
  · rintro it own ⟨h, -⟩ hn
    exact h.next_done hn
  · rintro it own a items it' ⟨h, os, hos⟩ hn
    cases os with
    | nil => cases hos
    | cons o os =>
      obtain ⟨rfl, rfl⟩ := List.cons.inj hos
      obtain ⟨own', hnext, hfollow, -⟩ := h.next_item hn
      exact ⟨own', hnext, hfollow, os, rfl⟩

/-- After `n` items so many fewer remain. -/
theorem OwnedPostings.Follows.after (h : own.Follows it)
    (hd : Iterate.Drains Postings.next it (os.map .ok)) (hn : n ≤ os.length) :
    (Iterate.after OwnedPostings.next n own).page = own.page ∧
      (Iterate.after OwnedPostings.next n own).remaining + n = own.remaining := by
  induction n generalizing own it os with
  | zero => exact ⟨rfl, rfl⟩
  | succ n ih =>
    cases os with
    | nil => cases hn
    | cons o os =>
      cases hd with
      | item hnext hrest =>
        obtain ⟨own', hown, hfollow, hpage, hrem⟩ := h.next_item hnext
        obtain ⟨hpage', hrem'⟩ := ih hfollow hrest (Nat.le_of_succ_le_succ hn)
        rw [Iterate.after, hown]
        dsimp only
        exact ⟨hpage'.trans hpage, by omega⟩

/-- A decoder that has not failed gives as many items as remain. -/
theorem drains_length (hd : Iterate.Drains Postings.next it (os.map .ok)) (hf : it.failed = false) :
    os.length = it.remaining := by
  induction os generalizing it with
  | nil =>
    cases hd with
    | done hnext => exact (Postings.of_next_none hnext hf).1.symm
  | cons o os ih =>
    cases hd with
    | item hnext hrest =>
      obtain ⟨-, hrem, r, -, rfl⟩ := Postings.of_next_ok hnext
      have hlen := ih hrest hf
      dsimp only at hlen
      rw [List.length_cons, hlen]
      omega

theorem Postings.next_none_same (h : it.next = (none, it')) : it' = it := by
  rw [Postings.next] at h
  split_ifs at h
  · exact (Prod.mk.inj h).2.symm
  · exact (Prod.mk.inj h).2.symm
  · cases h
  all_goals
    split at h
    · cases h
    · cases h

/-- A page whose references ascend is decoded without an error. -/
theorem drains_of_ascending {first : Option OwnerRef}
    {ends : Option OwnerRef × Option OwnerRef} (hf : it.failed = false)
    (hn : it.remaining < n) (h : ascending n it first previous = .ok ends) :
    ∃ os : List OwnerRef, Iterate.Drains Postings.next it (os.map .ok) := by
  induction n generalizing it first previous with
  | zero => cases hn
  | succ n ih =>
    rw [ascending] at h
    rcases hnext : it.next with ⟨_ | e | o, it'⟩
    · obtain rfl := Postings.next_none_same hnext
      exact ⟨[], .done hnext⟩
    · rw [hnext] at h
      cases h
    · rw [hnext] at h
      obtain ⟨-, hrem, r, -, rfl⟩ := Postings.of_next_ok hnext
      obtain ⟨-, -, h⟩ := ok_of_bind h
      obtain ⟨os, hd⟩ := ih (by exact hf) (by dsimp only; omega) h
      exact ⟨o :: os, .item hnext hd⟩

/-- Chained references ascend. -/
theorem ascending_chained {first : Option OwnerRef} (hn : os.length < n)
    (hd : Iterate.Drains Postings.next it (os.map .ok)) (hchain : Chained previous os) :
    ascending n it first previous =
      .ok (first.or os.head?, os.getLast?.or previous) := by
  induction os generalizing n it first previous with
  | nil =>
    obtain ⟨n, rfl⟩ := Nat.exists_eq_add_one_of_ne_zero (Nat.ne_of_gt hn)
    cases hd with
    | done hnext =>
      rw [ascending, hnext]
      simp
  | cons o os ih =>
    obtain ⟨n, rfl⟩ := Nat.exists_eq_add_one_of_ne_zero (Nat.ne_of_gt (Nat.zero_lt_of_lt hn))
    obtain ⟨hdelta, hchain⟩ := hchain
    cases hd with
    | item hnext hrest =>
      rw [ascending, hnext]
      dsimp only
      rw [Grouped.require_of hdelta.1, ok_bind, ih (Nat.lt_of_succ_lt_succ hn) hrest hchain]
      cases os with
      | nil => cases first <;> rfl
      | cons a as => cases first <;> simp [List.getLast?_cons]

end

end Image

end PinCore
