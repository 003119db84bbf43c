import Mathlib.Data.List.Sort
import PinCore.Lib.Except
import PinCore.Query.Memory

/-!
# Normalization

`profileText` composes a text (NFC), folds its case and composes it again, in one streaming pass
of two `Nfc` buffers.  The Unicode tables and the word segmentation are those of external crates
and enter as a `Unicode` structure; `Unicode.Lawful` collects what is relied on.  The main result
is that a normalized text holds no ASCII capital.
-/

namespace PinCore

/-- A string as its scalar values. -/
abbrev Str := List Char

/-- The bytes of a string. -/
def Str.bytes (s : Str) : Text := s.flatMap String.utf8EncodeChar

/-- The length in bytes. -/
def Str.len (s : Str) : ℕ := (Str.bytes s).length

/-- All scalars are ASCII. -/
def isAscii (s : Str) : Bool := s.all fun c => c.toNat < 128

/-- The scalar with an ASCII capital lowered. -/
def toAsciiLowercase (c : Char) : Char := if c.isUpper then Char.ofNat (c.toNat + 32) else c

theorem isUpper_iff {c : Char} : c.isUpper = true ↔ 65 ≤ c.toNat ∧ c.toNat ≤ 90 := by
  refine decide_eq_true_iff.trans ?_
  rw [ge_iff_le, UInt32.le_iff_toNat_le, UInt32.le_iff_toNat_le]
  rfl

theorem toNat_toAsciiLowercase {c : Char} (h : c.isUpper = true) :
    (toAsciiLowercase c).toNat = c.toNat + 32 := by
  obtain ⟨h65, h90⟩ := isUpper_iff.1 h
  have hv : (c.toNat + 32).isValidChar := .inl (by omega)
  rw [toAsciiLowercase, if_pos h, Char.ofNat, dif_pos hv]
  rfl

theorem isUpper_toAsciiLowercase (c : Char) : (toAsciiLowercase c).isUpper = false := by
  by_cases h : c.isUpper = true
  · have h65 := (isUpper_iff.1 h).1
    rw [← Bool.not_eq_true, isUpper_iff, toNat_toAsciiLowercase h]
    omega
  · rw [toAsciiLowercase, if_neg h]
    simpa using h

/-- The tables and functions of the Unicode crates. -/
structure Unicode where
  normalizationVersion : ℕ × ℕ × ℕ
  segmentationVersion : ℕ × ℕ × ℕ
  caseVersion : ℕ × ℕ × ℕ
  canonicalCombiningClass : Char → ℕ
  compose : Char → Char → Option Char
  decomposeCanonical : Char → List Char
  caseFolded : Char → Option ℕ
  unicodeWords : Str → List Str
  unicodeWordIndices : Str → List (ℕ × Str)

/-- A scalar with its place in the combining sequence. -/
structure Scalar where
  value : Char
  order : ℕ
  deriving DecidableEq, Repr

/-- The combining sequence that is still open. -/
structure Nfc where
  pending : List Scalar
  capacity : ℕ

instance : Inhabited Nfc := ⟨⟨[], 0⟩⟩

variable (U : Unicode) {τ : Type}

namespace Nfc

/-- The order of scalars after the first one. -/
def Before (a b : Scalar) : Prop :=
  U.canonicalCombiningClass a.value < U.canonicalCombiningClass b.value ∨
    U.canonicalCombiningClass a.value = U.canonicalCombiningClass b.value ∧ a.order ≤ b.order

instance : DecidableRel (Before U) := fun _ _ => inferInstanceAs (Decidable (_ ∨ _ ∧ _))

/-- Composes the starter with the scalars that no earlier one blocks: the starter and the scalars
that are left. -/
def absorb (starter : Char) (previous : ℕ) : List Scalar → Char × List Scalar
  | [] => (starter, [])
  | scalar :: rest =>
    let current := U.canonicalCombiningClass scalar.value
    match if previous = 0 ∨ previous < current then U.compose starter scalar.value else none with
    | some joined => absorb joined previous rest
    | none =>
      let (starter, left) := absorb starter current rest
      (starter, scalar :: left)

/-- Composes the pending scalars. -/
def compose (n : Nfc) : Nfc :=
  match n.pending with
  | [] => n
  | first :: rest =>
    if U.canonicalCombiningClass first.value = 0 then
      let (starter, left) := absorb U first.value 0 (rest.insertionSort (Before U))
      { n with pending := { first with value := starter } :: left }
    else { n with pending := (first :: rest).insertionSort (Before U) }

/-- Joins a lone starter with the scalar that follows it. -/
def join (value : Char) (n : Nfc) : Option Nfc :=
  match n.pending with
  | [first] =>
    if U.canonicalCombiningClass first.value = 0 then
      (U.compose first.value value).map fun joined =>
        { n with pending := [{ first with value := joined }] }
    else none
  | _ => none

/-- What the scalars of a sequence are passed to. -/
abbrev Emit (τ : Type) : Type := Char → τ × MemoryBudget → Except Error (τ × MemoryBudget)

variable (emitter : Emit τ)

/-- Emits the pending scalars. -/
def emit : Nfc × τ × MemoryBudget → Except Error (Nfc × τ × MemoryBudget)
  | (n, s) => do
    let s ← n.pending.foldlM (fun s scalar => emitter scalar.value s) s
    .ok ({ n with pending := [] }, s)

/-- Opens the sequence or adds to it. -/
def add (value : Char) : Nfc × τ × MemoryBudget → Except Error (Nfc × τ × MemoryBudget)
  | (n, t, budget) =>
    if u32Limit ≤ n.pending.length then .error (.limit "combining sequence")
    else do
      let (capacity, budget) ← reserve n.pending.length n.capacity 1 (u32Limit - 1) 8 budget
      .ok (⟨n.pending ++ [⟨value, n.pending.length⟩], capacity⟩, t, budget)

/-- Takes one scalar of a decomposition. -/
def decomposed (value : Char) : Nfc × τ × MemoryBudget → Except Error (Nfc × τ × MemoryBudget)
  | (n, s) =>
    if U.canonicalCombiningClass value = 0 ∧ n.pending ≠ [] then
      match (n.compose U).join U value with
      | some n => .ok (n, s)
      | none => do
        let (n, s) ← emit emitter (n.compose U, s)
        add value (n, s)
    else add value (n, s)

/-- Takes one scalar of the input. -/
def push (value : Char) (s : Nfc × τ × MemoryBudget) :
    Except Error (Nfc × τ × MemoryBudget) :=
  (U.decomposeCanonical value).foldlM (fun s value => decomposed U emitter value s) s

/-- Takes the end of the input. -/
def finish : Nfc × τ × MemoryBudget → Except Error (Nfc × τ × MemoryBudget)
  | (n, s) => emit emitter (n.compose U, s)

/-- Releases the buffer of the pending scalars. -/
def release (n : Nfc) (budget : MemoryBudget) : Except Error MemoryBudget :=
  budget.release (n.capacity * 8)

end Nfc

/-- The scalar after case folding; a mapping to no scalar is refused. -/
def fold (value : Char) : Except Error Char :=
  match U.caseFolded value with
  | none => .ok value
  | some mapped => if mapped.isValidChar then .ok (Char.ofNat mapped) else .error .invalidProfile

/-- The normalized bytes so far, as scalars. -/
structure Output where
  written : Str
  capacity : ℕ

/-- Appends a scalar to the output within its limit. -/
def Output.write (limit : ℕ) : Nfc.Emit Output
  | value, (out, budget) => do
    let (capacity, budget) ← reserve out.written.len out.capacity (Str.len [value]) limit 1 budget
    .ok (⟨out.written ++ [value], capacity⟩, budget)

/-- Passes a scalar of the first buffer to the second. -/
def folded (limit : ℕ) : Nfc.Emit (Nfc × Output)
  | value, ((second, out), budget) => do
    let value ← fold U value
    let (second, out, budget) ← Nfc.push U (Output.write limit) value (second, out, budget)
    .ok ((second, out), budget)

/-- The normalized text, the peak of the budget and the budget after the scratch is freed. -/
def profileText (text : Str) (limit : ℕ) (budget : MemoryBudget) :
    Except Error (Str × ℕ × MemoryBudget) := do
  let (capacity, budget) ← reserve 0 0 (min text.len limit) limit 1 budget
  if isAscii text then
    if limit < text.len then .error (.limit "normalized bytes")
    else .ok (text.map toAsciiLowercase, budget.used, budget)
  else do
    let s ← text.foldlM (fun s value => Nfc.push U (folded U limit) value s)
      (default, (default, ⟨[], capacity⟩), budget)
    let (first, (second, out), budget) ← Nfc.finish U (folded U limit) s
    let (second, out, budget) ← Nfc.finish U (Output.write limit) (second, out, budget)
    let peak := budget.used
    let budget ← first.release budget
    let budget ← second.release budget
    .ok (out.written, peak, budget)

/-! ### What is relied on -/

/-- The parts of the Unicode crates' behaviour that the engine uses. -/
structure Unicode.Lawful : Prop where
  /-- Both iterators give the same words. -/
  words : ∀ s, U.unicodeWords s = (U.unicodeWordIndices s).map Prod.snd
  /-- A word is a part of the text and starts at its byte index. -/
  slices : ∀ s word, word ∈ U.unicodeWordIndices s →
    ∃ before after, s = before ++ word.2 ++ after ∧ word.1 = before.len
  /-- Segmentation of ASCII text does not depend on letter case. -/
  lowercase : ∀ s, isAscii s → U.unicodeWords (s.map toAsciiLowercase) =
    (U.unicodeWords s).map (List.map toAsciiLowercase)
  /-- No composite is an ASCII letter. -/
  composed : ∀ a b c, U.compose a b = some c → c.isUpper = false
  /-- A folded scalar decomposes without ASCII capitals, or, as the dotted capital I that simple
  folding leaves alone, into a starter and a mark that compose again. -/
  decomposed : ∀ c f, fold U c = .ok f → (∀ x ∈ U.decomposeCanonical f, x.isUpper = false) ∨
    ∃ base mark, U.decomposeCanonical f = [base, mark] ∧ U.canonicalCombiningClass base = 0 ∧
      U.canonicalCombiningClass mark ≠ 0 ∧ mark.isUpper = false ∧ (U.compose base mark).isSome

/-! ### No capital is left -/

namespace Nfc

variable {U} {emitter : Emit τ} {n n' : Nfc} {s s' : τ × MemoryBudget} {value : Char}

/-- Passing on a scalar with `P` keeps `I`. -/
def Keeps (P : Char → Prop) (I : τ → Prop) (emitter : Emit τ) : Prop :=
  ∀ c s s', P c → I s.1 → emitter c s = .ok s' → I s'.1

variable {P : Char → Prop} {I : τ → Prop}

theorem emit_keeps (he : Keeps P I emitter) (hp : ∀ c ∈ n.pending, P c.value) (hi : I s.1)
    (h : emit emitter (n, s) = .ok (n', s')) : n'.pending = [] ∧ I s'.1 := by
  obtain ⟨t, ht, hdone⟩ := ok_of_bind h
  cases hdone
  refine ⟨rfl, ?_⟩
  clear h
  generalize n.pending = l at hp ht
  induction l generalizing s with
  | nil =>
    cases ht
    exact hi
  | cons c l ih =>
    rw [List.foldlM_cons] at ht
    obtain ⟨t, hc, ht⟩ := ok_of_bind ht
    exact ih (he _ _ _ (hp c List.mem_cons_self) hi hc)
      (fun x hx => hp x (List.mem_cons_of_mem _ hx)) ht

theorem of_add (h : add value (n, s) = .ok (n', s')) :
    n'.pending = n.pending ++ [⟨value, n.pending.length⟩] ∧ s'.1 = s.1 := by
  obtain ⟨t, budget⟩ := s
  simp only [add] at h
  split_ifs at h
  obtain ⟨⟨capacity, budget⟩, -, h⟩ := ok_of_bind h
  cases h
  exact ⟨rfl, rfl⟩

/-- A scalar joins a lone starter, follows what is passed on, or is added. -/
theorem of_decomposed (h : decomposed U emitter value (n, s) = .ok (n', s')) :
    (∃ first joined, U.compose first value = some joined ∧
      (∃ order, n'.pending = [⟨joined, order⟩]) ∧
        s' = s) ∨
      (U.canonicalCombiningClass value = 0 ∧
        ∃ m t, emit emitter (n.compose U, s) = .ok (m, t) ∧ add value (m, t) = .ok (n', s')) ∨
      ((U.canonicalCombiningClass value ≠ 0 ∨ n.pending = []) ∧
        add value (n, s) = .ok (n', s')) := by
  unfold decomposed at h
  by_cases hc : U.canonicalCombiningClass value = 0 ∧ n.pending ≠ []
  · simp only [if_pos hc] at h
    cases hj : (n.compose U).join U value with
    | some m =>
      rw [hj] at h
      cases h
      refine .inl ?_
      unfold join at hj
      split at hj
      · next first _ =>
        split_ifs at hj
        obtain ⟨joined, hjoined, rfl⟩ := Option.map_eq_some_iff.1 hj
        exact ⟨first.value, joined, hjoined, ⟨_, rfl⟩, rfl⟩
      · cases hj
    | none =>
      rw [hj] at h
      obtain ⟨⟨m, t⟩, hm, h⟩ := ok_of_bind h
      exact .inr (.inl ⟨hc.1, m, t, hm, h⟩)
  · simp only [if_neg hc] at h
    refine .inr (.inr ⟨?_, h⟩)
    by_cases h0 : U.canonicalCombiningClass value = 0
    · exact .inr (Classical.not_not.1 fun hne => hc ⟨h0, hne⟩)
    · exact .inl h0

/-! Every scalar may be passed on -/

theorem decomposed_keeps (he : Keeps (fun _ => True) I emitter) (hi : I s.1)
    (h : decomposed U emitter value (n, s) = .ok (n', s')) : I s'.1 := by
  rcases of_decomposed h with ⟨_, _, -, -, rfl⟩ | ⟨-, m, t, hm, h⟩ | ⟨-, h⟩
  · exact hi
  · rw [(of_add h).2]
    exact (emit_keeps he (fun _ _ => trivial) hi hm).2
  · rwa [(of_add h).2]

theorem push_keeps (he : Keeps (fun _ => True) I emitter) (hi : I s.1)
    (h : push U emitter value (n, s) = .ok (n', s')) : I s'.1 := by
  unfold push at h
  generalize U.decomposeCanonical value = l at h
  induction l generalizing n s with
  | nil =>
    cases h
    exact hi
  | cons c l ih =>
    rw [List.foldlM_cons] at h
    obtain ⟨⟨m, t⟩, hc, h⟩ := ok_of_bind h
    exact ih (decomposed_keeps he hi hc) h

/-! Only small letters are passed on -/

/-- The scalar is not an ASCII capital. -/
def Lower (c : Char) : Prop := c.isUpper = false

/-- No scalar is an ASCII capital. -/
def AllLower (l : List Scalar) : Prop := ∀ s ∈ l, Lower s.value

variable (U) in
/-- A starter that its first mark will compose with; the rest of the sequence came later. -/
def Marked (l : List Scalar) : Prop :=
  ∃ base mark rest, l = base :: mark :: rest ∧ U.canonicalCombiningClass base.value = 0 ∧
    (U.compose base.value mark.value).isSome ∧ mark.order = 1 ∧ Lower mark.value ∧
    ∀ s ∈ rest, Lower s.value ∧ 1 < s.order

variable {starter : Char} {previous : ℕ} {mark : Scalar} {l rest : List Scalar}

theorem absorb_cons {c : Scalar} : absorb U starter previous (c :: l) =
    match if previous = 0 ∨ previous < U.canonicalCombiningClass c.value
      then U.compose starter c.value else none with
    | some joined => absorb U joined previous l
    | none =>
      ((absorb U starter (U.canonicalCombiningClass c.value) l).1,
        c :: (absorb U starter (U.canonicalCombiningClass c.value) l).2) := rfl

theorem absorb_left : ∀ s ∈ (absorb U starter previous l).2, s ∈ l := by
  induction l generalizing starter previous with
  | nil => exact fun s hs => hs
  | cons c l ih =>
    intro s hs
    rw [absorb_cons] at hs
    split at hs
    · exact List.mem_cons_of_mem _ (ih s hs)
    · rcases List.mem_cons.1 hs with rfl | hs
      · exact List.mem_cons_self
      · exact List.mem_cons_of_mem _ (ih s hs)

theorem absorb_lower (hU : U.Lawful) (hs : Lower starter) :
    Lower (absorb U starter previous l).1 := by
  induction l generalizing starter previous with
  | nil => exact hs
  | cons c l ih =>
    rw [absorb_cons]
    split
    · next joined hj =>
      split_ifs at hj
      exact ih (hU.composed _ _ _ hj)
    · exact ih hs

/-- A starter is composed at the latest when its mark is reached. -/
theorem absorb_mark (hU : U.Lawful) (hmark : (U.compose starter mark.value).isSome)
    (hl : ∀ s ∈ l, U.canonicalCombiningClass s.value < U.canonicalCombiningClass mark.value)
    (hp : previous = 0 ∨ previous < U.canonicalCombiningClass mark.value) :
    Lower (absorb U starter previous (l ++ mark :: rest)).1 := by
  induction l generalizing previous with
  | nil =>
    obtain ⟨joined, hj⟩ := Option.isSome_iff_exists.1 hmark
    rw [List.nil_append, absorb_cons, if_pos hp, hj]
    exact absorb_lower hU (hU.composed _ _ _ hj)
  | cons c l ih =>
    rw [List.cons_append, absorb_cons]
    split
    · next joined hj =>
      split_ifs at hj
      exact absorb_lower hU (hU.composed _ _ _ hj)
    · exact ih (fun s hs => hl s (List.mem_cons_of_mem _ hs)) (.inr (hl c List.mem_cons_self))

instance : Std.Total (Before U) where
  total a b := by
    unfold Before
    omega

instance : IsTrans Scalar (Before U) where
  trans a b c := by
    unfold Before
    omega

/-- After composing no capital is pending. -/
theorem compose_lower (hU : U.Lawful) (h : AllLower n.pending ∨ Marked U n.pending) :
    AllLower (n.compose U).pending := by
  have hsorted : ∀ {l : List Scalar}, AllLower l → AllLower (l.insertionSort (Before U)) :=
    fun hl s hs => hl s ((List.mem_insertionSort _).1 hs)
  rcases h with h | ⟨base, mark, rest, hpending, hclass, hmark, horder, hlower, hrest⟩
  · unfold compose
    split
    · exact h
    · next first l hpending =>
      rw [hpending] at h
      have hl : AllLower l := fun s hs => h s (List.mem_cons_of_mem _ hs)
      split_ifs
      · intro s hs
        rcases List.mem_cons.1 hs with rfl | hs
        · exact absorb_lower hU (h first List.mem_cons_self)
        · exact hsorted hl s (absorb_left s hs)
      · exact hsorted h
  · have hall : AllLower (mark :: rest) := by
      intro s hs
      rcases List.mem_cons.1 hs with rfl | hs
      · exact hlower
      · exact (hrest s hs).1
    obtain ⟨l, r, hsplit⟩ := List.append_of_mem
      ((List.mem_insertionSort (Before U)).2 (List.mem_cons_self : mark ∈ mark :: rest))
    have hl : ∀ s ∈ l,
        U.canonicalCombiningClass s.value < U.canonicalCombiningClass mark.value := by
      intro s hs
      have hperm : (l ++ r).Perm rest := by
        have := List.perm_insertionSort (Before U) (mark :: rest)
        rw [hsplit] at this
        exact (List.perm_middle.symm.trans this).cons_inv
      have hlater := (hrest s (hperm.subset (List.mem_append_left _ hs))).2
      have hbefore : Before U s mark := by
        have := List.pairwise_insertionSort (Before U) (mark :: rest)
        rw [hsplit] at this
        exact (List.pairwise_append.1 this).2.2 s hs mark List.mem_cons_self
      unfold Before at hbefore
      omega
    unfold compose
    simp only [hpending, if_pos hclass]
    intro s hs
    rcases List.mem_cons.1 hs with rfl | hs
    · rw [hsplit]
      exact absorb_mark hU hmark hl (.inl rfl)
    · exact hsorted hall s (absorb_left s hs)

theorem allLower_append (h : AllLower l) (hv : Lower value) {order : ℕ} :
    AllLower (l ++ [⟨value, order⟩]) := by
  intro s hs
  rcases List.mem_append.1 hs with hs | hs
  · exact h s hs
  · rw [List.mem_singleton.1 hs]
    exact hv

theorem add_lower (hn : AllLower n.pending ∨ Marked U n.pending) (hv : Lower value)
    (h : add value (n, s) = .ok (n', s')) : AllLower n'.pending ∨ Marked U n'.pending := by
  rw [(of_add h).1]
  rcases hn with hn | ⟨base, mark, rest, hpending, hclass, hmark, horder, hlower, hrest⟩
  · exact .inl (allLower_append hn hv)
  · refine .inr ⟨base, mark, rest ++ [⟨value, n.pending.length⟩], by rw [hpending]; rfl, hclass,
      hmark, horder, hlower, fun s hs => ?_⟩
    rcases List.mem_append.1 hs with hs | hs
    · exact hrest s hs
    · rw [List.mem_singleton.1 hs, hpending]
      exact ⟨hv, by simp only [List.length_cons]; omega⟩

theorem decomposed_lower (hU : U.Lawful) (he : Keeps Lower I emitter) (hv : Lower value)
    (hn : AllLower n.pending ∨ Marked U n.pending) (hi : I s.1)
    (h : decomposed U emitter value (n, s) = .ok (n', s')) :
    (AllLower n'.pending ∨ Marked U n'.pending) ∧ I s'.1 := by
  rcases of_decomposed h with ⟨first, joined, hj, ⟨order, hpending⟩, rfl⟩ | ⟨-, m, t, hm, h⟩
    | ⟨-, h⟩
  · rw [hpending]
    exact ⟨.inl fun s hs => by rw [List.mem_singleton.1 hs]; exact hU.composed _ _ _ hj, hi⟩
  · obtain ⟨hempty, ht⟩ := emit_keeps he (compose_lower hU hn) hi hm
    rw [(of_add h).2]
    have hm' : AllLower m.pending := by
      rw [hempty]
      exact nofun
    exact ⟨add_lower (.inl hm') hv h, ht⟩
  · rw [(of_add h).2]
    exact ⟨add_lower hn hv h, hi⟩

/-- A starter and the mark it composes with: the starter is joined away or waits for the mark. -/
theorem decomposed_pair (hU : U.Lawful) (he : Keeps Lower I emitter) {base mark : Char}
    (hbase : U.canonicalCombiningClass base = 0) (hclass : U.canonicalCombiningClass mark ≠ 0)
    (hmark : Lower mark) (hcomp : (U.compose base mark).isSome)
    (hn : AllLower n.pending ∨ Marked U n.pending) (hi : I s.1) {m : Nfc} {t : τ × MemoryBudget}
    (hb : decomposed U emitter base (n, s) = .ok (m, t))
    (h : decomposed U emitter mark (m, t) = .ok (n', s')) :
    (AllLower n'.pending ∨ Marked U n'.pending) ∧ I s'.1 := by
  have hm : (AllLower m.pending ∨ m.pending = [⟨base, 0⟩]) ∧ I t.1 := by
    rcases of_decomposed hb with ⟨first, joined, hj, ⟨order, hpending⟩, rfl⟩ |
      ⟨-, m', t', hm', ha⟩ | ⟨hne | hempty, ha⟩
    · rw [hpending]
      exact ⟨.inl fun s hs => by rw [List.mem_singleton.1 hs]; exact hU.composed _ _ _ hj, hi⟩
    · obtain ⟨hempty, ht⟩ := emit_keeps he (compose_lower hU hn) hi hm'
      obtain ⟨hpending, hsink⟩ := of_add ha
      rw [hempty] at hpending
      rw [hsink]
      exact ⟨.inr hpending, ht⟩
    · exact absurd hbase hne
    · obtain ⟨hpending, hsink⟩ := of_add ha
      rw [hempty] at hpending
      rw [hsink]
      exact ⟨.inr hpending, hi⟩
  obtain ⟨hm | hm, ht⟩ := hm
  · exact decomposed_lower hU he hmark (.inl hm) ht h
  · rcases of_decomposed h with ⟨first, joined, hj, ⟨order, hpending⟩, rfl⟩ | ⟨h0, -⟩ | ⟨-, ha⟩
    · rw [hpending]
      exact ⟨.inl fun s hs => by rw [List.mem_singleton.1 hs]; exact hU.composed _ _ _ hj, ht⟩
    · exact absurd h0 hclass
    · obtain ⟨hpending, hsink⟩ := of_add ha
      rw [hm] at hpending
      rw [hpending, hsink]
      exact ⟨.inr ⟨⟨base, 0⟩, ⟨mark, 1⟩, [], rfl, hbase, hcomp, rfl, hmark, nofun⟩, ht⟩

/-- The scalars of a folded one leave a sequence that composes without capitals. -/
theorem push_lower (hU : U.Lawful) (he : Keeps Lower I emitter) {c : Char}
    (hf : fold U c = .ok value) (hn : AllLower n.pending ∨ Marked U n.pending) (hi : I s.1)
    (h : push U emitter value (n, s) = .ok (n', s')) :
    (AllLower n'.pending ∨ Marked U n'.pending) ∧ I s'.1 := by
  unfold push at h
  rcases hU.decomposed c value hf with hl | ⟨base, mark, hl, hbase, hclass, hmark, hcomp⟩
  · generalize U.decomposeCanonical value = l at hl h
    induction l generalizing n s with
    | nil =>
      cases h
      exact ⟨hn, hi⟩
    | cons x l ih =>
      rw [List.foldlM_cons] at h
      obtain ⟨⟨m, t⟩, hx, h⟩ := ok_of_bind h
      obtain ⟨hm, ht⟩ := decomposed_lower hU he (hl x List.mem_cons_self) hn hi hx
      exact ih hm ht (fun y hy => hl y (List.mem_cons_of_mem _ hy)) h
  · rw [hl, List.foldlM_cons] at h
    obtain ⟨⟨m, t⟩, hb, h⟩ := ok_of_bind h
    rw [List.foldlM_cons] at h
    obtain ⟨⟨m', t'⟩, hm, h⟩ := ok_of_bind h
    cases h
    exact decomposed_pair hU he hbase hclass hmark hcomp hn hi hb hm

end Nfc

open Nfc (Lower AllLower Marked Keeps)

variable {U}

theorem write_keeps {limit : ℕ} :
    Keeps Lower (fun out : Output => ∀ c ∈ out.written, Lower c) (Output.write limit) := by
  rintro c ⟨out, budget⟩ s' hc hi h
  obtain ⟨⟨capacity, budget'⟩, -, h⟩ := ok_of_bind h
  cases h
  intro x hx
  rcases List.mem_append.1 hx with hx | hx
  · exact hi x hx
  · rwa [List.mem_singleton.1 hx]

theorem folded_keeps (hU : U.Lawful) {limit : ℕ} :
    Keeps (fun _ => True) (fun t : Nfc × Output =>
      (AllLower t.1.pending ∨ Marked U t.1.pending) ∧ ∀ c ∈ t.2.written, Lower c)
      (folded U limit) := by
  rintro c ⟨⟨second, out⟩, budget⟩ s' - ⟨hn, hi⟩ h
  obtain ⟨value, hf, h⟩ := ok_of_bind h
  obtain ⟨⟨second', out', budget'⟩, hp, h⟩ := ok_of_bind h
  cases h
  have hsecond : Nfc.push U (Output.write limit) value (second, (out, budget)) =
      .ok (second', (out', budget')) := hp
  exact Nfc.push_lower hU write_keeps hf hn hi hsecond

/-- The first pass over a text leaves the second buffer without capitals. -/
theorem chars_keep (hU : U.Lawful) {limit : ℕ} {text : Str} {first first' : Nfc}
    {s s' : (Nfc × Output) × MemoryBudget}
    (hi : (AllLower s.1.1.pending ∨ Marked U s.1.1.pending) ∧ ∀ c ∈ s.1.2.written, Lower c)
    (h : text.foldlM (fun s value => Nfc.push U (folded U limit) value s) (first, s) =
      .ok (first', s')) :
    (AllLower s'.1.1.pending ∨ Marked U s'.1.1.pending) ∧ ∀ c ∈ s'.1.2.written, Lower c := by
  induction text generalizing first s with
  | nil =>
    cases h
    exact hi
  | cons c text ih =>
    rw [List.foldlM_cons] at h
    obtain ⟨⟨middle, t⟩, hc, h⟩ := ok_of_bind h
    exact ih (Nfc.push_keeps (folded_keeps hU) hi hc) h

/-- A normalized text holds no ASCII capital. -/
theorem profileText_lower (hU : U.Lawful) {text normalized : Str} {limit peak : ℕ}
    {budget budget' : MemoryBudget}
    (h : profileText U text limit budget = .ok (normalized, peak, budget')) :
    ∀ c ∈ normalized, Lower c := by
  obtain ⟨⟨capacity, b⟩, -, h⟩ := ok_of_bind h
  simp only at h
  split_ifs at h
  · cases h
    intro c hc
    obtain ⟨x, -, rfl⟩ := List.mem_map.1 hc
    exact isUpper_toAsciiLowercase x
  · obtain ⟨⟨first, ⟨second, out⟩, b⟩, hs, h⟩ := ok_of_bind h
    obtain ⟨⟨first', ⟨second', out'⟩, b'⟩, hf, h⟩ := ok_of_bind h
    obtain ⟨⟨second'', out'', b''⟩, hw, h⟩ := ok_of_bind h
    obtain ⟨_, -, h⟩ := ok_of_bind h
    obtain ⟨_, -, h⟩ := ok_of_bind h
    cases h
    have hempty : AllLower (default : Nfc).pending := fun s hs => absurd hs List.not_mem_nil
    have hnone : ∀ c ∈ ([] : Str), Lower c := fun c hc => absurd hc List.not_mem_nil
    obtain ⟨hn, hi⟩ := chars_keep hU ⟨.inl hempty, hnone⟩ hs
    obtain ⟨-, hn', hi'⟩ := Nfc.emit_keeps (folded_keeps hU) (fun _ _ => trivial) ⟨hn, hi⟩ hf
    exact (Nfc.emit_keeps write_keeps (Nfc.compose_lower hU hn') hi' hw).2

end PinCore
