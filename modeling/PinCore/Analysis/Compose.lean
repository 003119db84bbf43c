import PinCore.Analysis.Normalize

/-!
# Normalization as a whole

`Unicode.nfc` is the canonical composition of a whole text: decompose, reorder every run of marks,
compose.  The streaming buffer gives the same text scalar by scalar, whatever it is passed to
(`Nfc.stream_exact`).
-/

namespace PinCore

/-! ### The batch result -/

namespace Unicode

variable (U : Unicode)

/-- Full canonical decomposition. -/
def decompose (text : Str) : Str := text.flatMap U.decomposeCanonical

/-- A run of marks by combining class; equal classes keep their order. -/
def sortMarks (marks : Str) : Str :=
  marks.insertionSort fun a b => U.canonicalCombiningClass a ≤ U.canonicalCombiningClass b

/-- Sorts every maximal run of marks; `run` is the part of one that was already seen. -/
def reorderFrom (run : Str) : Str → Str
  | [] => U.sortMarks run
  | c :: l =>
    if U.canonicalCombiningClass c = 0 then U.sortMarks run ++ c :: reorderFrom [] l
    else reorderFrom (run ++ [c]) l

/-- The scalars with their marks in canonical order. -/
def reorder (text : Str) : Str := U.reorderFrom [] text

/-- Between the last starter and `c` there is a starter or a scalar of no lower class. -/
def Blocked (between : Str) (c : Char) : Prop :=
  ∃ b ∈ between, U.canonicalCombiningClass b = 0 ∨
    U.canonicalCombiningClass c ≤ U.canonicalCombiningClass b

instance (between : Str) (c : Char) : Decidable (U.Blocked between c) :=
  List.decidableBEx _ between

/-- Composition from the last starter on; `between` was not composed with it. -/
def composeFrom (starter : Char) (between : Str) : Str → Str
  | [] => starter :: between
  | c :: l =>
    match if U.Blocked between c then none else U.compose starter c with
    | some joined => composeFrom joined between l
    | none =>
      if U.canonicalCombiningClass c = 0 then starter :: between ++ composeFrom c [] l
      else composeFrom starter (between ++ [c]) l

/-- Canonical composition; marks before the first starter stay. -/
def composition : Str → Str
  | [] => []
  | c :: l => if U.canonicalCombiningClass c = 0 then U.composeFrom c [] l else c :: composition l

/-- The canonical form of a decomposed text. -/
def canonical (text : Str) : Str := U.composition (U.reorder text)

/-- The batch result. -/
def nfc (text : Str) : Str := U.canonical (U.decompose text)

/-- What the Unicode data guarantees. -/
structure Tables : Prop where
  /-- Decompositions are fully decomposed. -/
  decomposed : ∀ c, ∀ x ∈ U.decomposeCanonical c, U.decomposeCanonical x = [x]
  /-- A starter composes to a starter. -/
  composed : ∀ a b c, U.canonicalCombiningClass a = 0 → U.compose a b = some c →
    U.canonicalCombiningClass c = 0

section

variable {U} {c starter : Char} {run marks l r between : Str}

/-- The scalar is not a starter. -/
def Mark (U : Unicode) (c : Char) : Prop := U.canonicalCombiningClass c ≠ 0

/-- A decomposed text does not decompose further. -/
theorem Tables.decompose_full (hU : U.Tables) (text : Str) :
    U.decompose (U.decompose text) = U.decompose text := by
  have hfix : ∀ x ∈ U.decompose text, U.decomposeCanonical x = [x] := by
    intro x hx
    obtain ⟨c, -, hx⟩ := List.mem_flatMap.1 hx
    exact hU.decomposed c x hx
  generalize U.decompose text = d at hfix
  induction d with
  | nil => rfl
  | cons x d ih =>
    have hd := ih fun y hy => hfix y (List.mem_cons_of_mem _ hy)
    rw [decompose, List.flatMap_cons, hfix x List.mem_cons_self, List.singleton_append]
    exact congrArg (x :: ·) hd

theorem reorderFrom_marks (h : ∀ m ∈ marks, U.Mark m) :
    U.reorderFrom run marks = U.sortMarks (run ++ marks) := by
  induction marks generalizing run with
  | nil => rw [reorderFrom, List.append_nil]
  | cons m marks ih =>
    obtain ⟨hm, hmarks⟩ := List.forall_mem_cons.1 h
    rw [reorderFrom, if_neg hm, ih hmarks, List.append_assoc, List.singleton_append]

/-- A starter ends the run before it. -/
theorem reorderFrom_append (h : ∀ m ∈ marks, U.Mark m) (hc : U.canonicalCombiningClass c = 0) :
    U.reorderFrom run (marks ++ c :: l) = U.sortMarks (run ++ marks) ++ c :: U.reorder l := by
  induction marks generalizing run with
  | nil => rw [List.nil_append, reorderFrom, if_pos hc, List.append_nil, reorder]
  | cons m marks ih =>
    obtain ⟨hm, hmarks⟩ := List.forall_mem_cons.1 h
    rw [List.cons_append, reorderFrom, if_neg hm, ih hmarks, List.append_assoc,
      List.singleton_append]

theorem reorder_cons (hc : U.canonicalCombiningClass c = 0) :
    U.reorder (c :: l) = c :: U.reorder l := by
  rw [reorder, reorderFrom, if_pos hc]
  rfl

theorem mem_sortMarks : c ∈ U.sortMarks l ↔ c ∈ l := List.mem_insertionSort _

/-- Marks before the first starter stay. -/
theorem composition_marks (h : ∀ m ∈ marks, U.Mark m) :
    U.composition (marks ++ l) = marks ++ U.composition l := by
  induction marks with
  | nil => rfl
  | cons m marks ih =>
    obtain ⟨hm, hmarks⟩ := List.forall_mem_cons.1 h
    rw [List.cons_append, composition, if_neg hm, ih hmarks, List.cons_append]

end

end Unicode

namespace Nfc

variable {U : Unicode}

/-! ### One sequence -/

/-- `previous` is the highest class between, or zero. -/
structure Highest (U : Unicode) (between : Str) (previous : ℕ) : Prop where
  marks : ∀ b ∈ between, U.Mark b
  le : ∀ b ∈ between, U.canonicalCombiningClass b ≤ previous
  mem : previous ≠ 0 → ∃ b ∈ between, U.canonicalCombiningClass b = previous

section

variable {between rest : Str} {previous : ℕ} {starter c : Char} {l : List Scalar}

/-- The last class decides what is blocked. -/
theorem Highest.blocked (h : Highest U between previous) :
    U.Blocked between c ↔ ¬ (previous = 0 ∨ previous < U.canonicalCombiningClass c) := by
  constructor
  · rintro ⟨b, hb, hclass⟩ hopen
    have hmark : U.canonicalCombiningClass b ≠ 0 := h.marks b hb
    have hle := h.le b hb
    omega
  · intro hclosed
    obtain ⟨b, hb, hclass⟩ := h.mem fun h0 => hclosed (.inl h0)
    exact ⟨b, hb, .inr (by omega)⟩

theorem Highest.nil : Highest U [] 0 := ⟨nofun, nofun, fun h => absurd rfl h⟩

theorem Highest.snoc (h : Highest U between previous) (hc : U.Mark c)
    (hle : previous ≤ U.canonicalCombiningClass c) :
    Highest U (between ++ [c]) (U.canonicalCombiningClass c) where
  marks b hb := by
    rcases List.mem_append.1 hb with hb | hb
    · exact h.marks b hb
    · rwa [List.mem_singleton.1 hb]
  le b hb := by
    rcases List.mem_append.1 hb with hb | hb
    · exact Nat.le_trans (h.le b hb) hle
    · rw [List.mem_singleton.1 hb]
  mem _ := ⟨c, List.mem_append_right _ (List.mem_singleton.2 rfl), rfl⟩

/-- In a sorted run, the loop composes what is not blocked. -/
theorem composeFrom_absorb (h : Highest U between previous) (hmarks : ∀ s ∈ l, U.Mark s.value)
    (hsorted : l.Pairwise fun a b =>
      U.canonicalCombiningClass a.value ≤ U.canonicalCombiningClass b.value)
    (hle : ∀ s ∈ l, previous ≤ U.canonicalCombiningClass s.value) :
    U.composeFrom starter between (l.map Scalar.value ++ rest) =
      U.composeFrom (absorb U starter previous l).1
        (between ++ (absorb U starter previous l).2.map Scalar.value) rest := by
  induction l generalizing starter between previous with
  | nil => rw [absorb, List.map_nil, List.nil_append, List.append_nil]
  | cons s l ih =>
    obtain ⟨hs, hl⟩ := List.forall_mem_cons.1 hmarks
    obtain ⟨hle, hles⟩ := List.forall_mem_cons.1 hle
    obtain ⟨hrel, hsorted⟩ := List.pairwise_cons.1 hsorted
    rw [absorb_cons, List.map_cons, List.cons_append, Unicode.composeFrom]
    have hsame : (if U.Blocked between s.value then none else U.compose starter s.value) =
        if previous = 0 ∨ previous < U.canonicalCombiningClass s.value
          then U.compose starter s.value else none := by
      rw [if_congr h.blocked rfl rfl, ite_not]
    rw [hsame]
    cases (if previous = 0 ∨ previous < U.canonicalCombiningClass s.value
        then U.compose starter s.value else none) with
    | some joined => exact ih h hl hsorted hles
    | none =>
      dsimp only
      rw [if_neg hs, ih (h.snoc hs hle) hl hsorted hrel, List.map_cons, List.append_assoc,
        List.singleton_append]

theorem absorb_marks (h : ∀ s ∈ l, U.Mark s.value) :
    ∀ s ∈ (absorb U starter previous l).2, U.Mark s.value := fun s hs => h s (absorb_left s hs)

theorem absorb_starter (hU : U.Tables) (h : U.canonicalCombiningClass starter = 0) :
    U.canonicalCombiningClass (absorb U starter previous l).1 = 0 := by
  induction l generalizing starter previous with
  | nil => exact h
  | cons s l ih =>
    rw [absorb_cons]
    split
    · next joined hj =>
      split_ifs at hj
      exact ih (hU.composed _ _ _ h hj)
    · exact ih h

end

/-- A sequence in the buffer: the places are those in the buffer, and only the first scalar may be a
starter. -/
structure Open (U : Unicode) (n : Nfc) : Prop where
  order : n.pending.map Scalar.order = List.range n.pending.length
  marks : ∀ s ∈ n.pending.tail, U.Mark s.value

/-- The scalars of the buffer. -/
def values (n : Nfc) : Str := n.pending.map Scalar.value

section

variable {n : Nfc} {l : List Scalar} {rest : Str} {c : Char}

theorem Open.sorted (h : Open U n) : n.pending.Pairwise fun a b => a.order < b.order := by
  rw [← List.pairwise_map, h.order]
  exact List.pairwise_lt_range

/-- With the places as second key, the sort is stable. -/
theorem map_sort (h : l.Pairwise fun a b => a.order < b.order) :
    (l.insertionSort (Before U)).map Scalar.value = U.sortMarks (l.map Scalar.value) := by
  induction l with
  | nil => rfl
  | cons a l ih =>
    obtain ⟨ha, hl⟩ := List.pairwise_cons.1 h
    have hb : ∀ b ∈ l.insertionSort (Before U), Before U a b ↔
        U.canonicalCombiningClass a.value ≤ U.canonicalCombiningClass b.value := by
      intro b hb
      have horder := ha b ((List.mem_insertionSort _).1 hb)
      unfold Before
      omega
    rw [List.insertionSort_cons, List.map_cons, Unicode.sortMarks, List.insertionSort_cons,
      ← Unicode.sortMarks, ← ih hl]
    generalize l.insertionSort (Before U) = k at hb
    induction k with
    | nil => rfl
    | cons b k ihk =>
      obtain ⟨hab, hk⟩ := List.forall_mem_cons.1 hb
      rw [List.map_cons, List.orderedInsert_cons, List.orderedInsert_cons, if_congr hab rfl rfl]
      split_ifs
      · rfl
      · rw [List.map_cons, ihk hk]

/-- The sequence of a starter: its marks are sorted, and what is not blocked is composed. -/
theorem composition_starter (hU : U.Tables) {first : Scalar} {marks : List Scalar} (h : Open U n)
    (hn : n.pending = first :: marks) (hfirst : U.canonicalCombiningClass first.value = 0) :
    ∃ starter left, (n.compose U).pending = { first with value := starter } :: left ∧
      U.canonicalCombiningClass starter = 0 ∧ (∀ s ∈ left, U.Mark s.value) ∧
      ∀ r, U.composition (first.value :: U.sortMarks (marks.map Scalar.value) ++ r) =
        U.composeFrom starter (left.map Scalar.value) r := by
  have hmarks : ∀ s ∈ marks.insertionSort (Before U), U.Mark s.value := fun s hs =>
    h.marks s (by rw [hn]; exact (List.mem_insertionSort _).1 hs)
  have horder : marks.Pairwise fun a b => a.order < b.order := by
    have := h.sorted
    rw [hn] at this
    exact this.of_cons
  have hsorted : (marks.insertionSort (Before U)).Pairwise fun a b =>
      U.canonicalCombiningClass a.value ≤ U.canonicalCombiningClass b.value :=
    (List.pairwise_insertionSort (Before U) marks).imp fun hab => by
      unfold Before at hab
      omega
  refine ⟨(absorb U first.value 0 (marks.insertionSort (Before U))).1,
    (absorb U first.value 0 (marks.insertionSort (Before U))).2, ?_, absorb_starter hU hfirst,
    absorb_marks hmarks, fun r => ?_⟩
  · unfold compose
    rw [hn]
    dsimp only
    rw [if_pos hfirst]
  · rw [← map_sort horder, List.cons_append, Unicode.composition, if_pos hfirst,
      composeFrom_absorb Highest.nil hmarks hsorted fun s _ => Nat.zero_le _, List.nil_append]

/-- Marks without a starter are only sorted. -/
theorem compose_marks {first : Scalar} {marks : List Scalar} (h : Open U n)
    (hn : n.pending = first :: marks) (hfirst : U.Mark first.value) :
    (∀ m ∈ n.values, U.Mark m) ∧ (n.compose U).values = U.sortMarks n.values := by
  refine ⟨fun m hm => ?_, ?_⟩
  · obtain ⟨s, hs, rfl⟩ := List.mem_map.1 hm
    rw [hn] at hs
    rcases List.mem_cons.1 hs with rfl | hs
    · exact hfirst
    · exact h.marks s (by rw [hn]; exact hs)
  · have horder := h.sorted
    unfold compose
    rw [values, values]
    rw [hn] at horder ⊢
    dsimp only
    rw [if_neg hfirst]
    exact map_sort horder

/-- At the end of the text the sequence is composed. -/
theorem canonical_values (hU : U.Tables) (h : Open U n) :
    U.canonical n.values = (n.compose U).values := by
  cases hn : n.pending with
  | nil =>
    unfold compose values
    rw [hn]
    dsimp only
    rw [hn]
    rfl
  | cons first marks =>
    have htail : ∀ m ∈ marks.map Scalar.value, U.Mark m := by
      intro m hm
      obtain ⟨s, hs, rfl⟩ := List.mem_map.1 hm
      exact h.marks s (by rw [hn]; exact hs)
    by_cases hfirst : U.canonicalCombiningClass first.value = 0
    · obtain ⟨starter, left, hpending, -, -, hcomp⟩ := composition_starter hU h hn hfirst
      have hend := hcomp []
      rw [List.append_nil, Unicode.composeFrom] at hend
      rw [values, values, hn, hpending, List.map_cons, List.map_cons, Unicode.canonical,
        Unicode.reorder_cons hfirst, Unicode.reorder, Unicode.reorderFrom_marks htail,
        List.nil_append, hend]
    · obtain ⟨hmarks, hvalues⟩ := compose_marks h hn hfirst
      have hsorted : ∀ m ∈ U.sortMarks n.values, U.Mark m := fun m hm =>
        hmarks m (Unicode.mem_sortMarks.1 hm)
      have hcomp := Unicode.composition_marks (l := []) hsorted
      rw [List.append_nil, Unicode.composition, List.append_nil] at hcomp
      rw [hvalues, Unicode.canonical, Unicode.reorder, Unicode.reorderFrom_marks hmarks,
        List.nil_append, hcomp]

theorem canonical_cons (hc : U.canonicalCombiningClass c = 0) (d : Str) :
    U.canonical (c :: d) = U.composeFrom c [] (U.reorder d) := by
  rw [Unicode.canonical, Unicode.reorder_cons hc, Unicode.composition, if_pos hc]

theorem join_eq_none (h : ∀ f, n.pending = [f] → U.Mark f.value ∨ U.compose f.value c = none) :
    n.join U c = none := by
  unfold join
  split
  · next f hf =>
    split_ifs with h0
    · rw [(h f hf).resolve_left fun hm => hm h0]
      rfl
    · rfl
  · rfl

/-- Before another starter the sequence is composed, and a starter alone may join the next one. -/
theorem canonical_starter (hU : U.Tables) (h : Open U n) (hc : U.canonicalCombiningClass c = 0)
    (hne : n.pending ≠ []) :
    (∃ first joined, (n.compose U).pending = [first] ∧ first.order = 0 ∧
      (n.compose U).join U c = some { n.compose U with
        pending := [{ first with value := joined }] } ∧
      ∀ d, U.canonical (n.values ++ c :: d) = U.canonical (joined :: d)) ∨
    (n.compose U).join U c = none ∧
      ∀ d, U.canonical (n.values ++ c :: d) = (n.compose U).values ++ U.canonical (c :: d) := by
  obtain ⟨first, marks, hn⟩ := List.exists_cons_of_ne_nil hne
  by_cases hfirst : U.canonicalCombiningClass first.value = 0
  swap
  · obtain ⟨hmarks, hvalues⟩ := compose_marks h hn hfirst
    have hsorted : ∀ m ∈ (n.compose U).values, U.Mark m := fun m hm =>
      hmarks m (Unicode.mem_sortMarks.1 (hvalues ▸ hm))
    refine .inr ⟨join_eq_none fun f hf => .inl (hsorted _ ?_), fun d => ?_⟩
    · rw [values, hf]
      exact List.mem_cons_self
    · rw [Unicode.canonical, Unicode.reorder, Unicode.reorderFrom_append hmarks hc, List.nil_append,
        ← hvalues, Unicode.composition_marks hsorted, Unicode.canonical, Unicode.reorder_cons hc]
  obtain ⟨starter, left, hpending, hstarter, hleft, hcomp⟩ := composition_starter hU h hn hfirst
  have htail : ∀ m ∈ marks.map Scalar.value, U.Mark m := by
    intro m hm
    obtain ⟨s, hs, rfl⟩ := List.mem_map.1 hm
    exact h.marks s (by rw [hn]; exact hs)
  have hsplit : ∀ d, U.canonical (n.values ++ c :: d) =
      U.composeFrom starter (left.map Scalar.value) (c :: U.reorder d) := by
    intro d
    rw [← hcomp, values, hn, List.map_cons, List.cons_append, Unicode.canonical,
      Unicode.reorder_cons hfirst, Unicode.reorder, Unicode.reorderFrom_append htail hc,
      List.nil_append]
    rfl
  cases left with
  | nil =>
    have hopen : ¬ U.Blocked [] c := by
      rintro ⟨b, hb, -⟩
      exact absurd hb List.not_mem_nil
    cases hj : U.compose starter c with
    | some joined =>
      have hjoined := hU.composed _ _ _ hstarter hj
      have hzero : first.order = 0 := by
        have := h.order
        rw [hn, List.map_cons, List.length_cons, List.range_succ_eq_map] at this
        exact (List.cons.inj this).1
      refine .inl ⟨_, joined, hpending, hzero, ?_, fun d => ?_⟩
      · unfold join
        rw [hpending]
        dsimp only
        rw [if_pos hstarter, hj]
        rfl
      · rw [hsplit, List.map_nil, Unicode.composeFrom, if_neg hopen, hj, canonical_cons hjoined]
    | none =>
      refine .inr ⟨join_eq_none fun f hf => .inr ?_, fun d => ?_⟩
      · rw [hpending] at hf
        cases hf
        exact hj
      · rw [hsplit, List.map_nil, Unicode.composeFrom, if_neg hopen, hj]
        dsimp only
        rw [if_pos hc, canonical_cons hc, values, hpending]
        rfl
  | cons b left =>
    have hblocked : U.Blocked ((b :: left).map Scalar.value) c :=
      ⟨b.value, List.mem_cons_self, .inr (by rw [hc]; exact Nat.zero_le _)⟩
    refine .inr ⟨join_eq_none fun f hf => ?_, fun d => ?_⟩
    · rw [hpending] at hf
      cases hf
    · rw [hsplit, Unicode.composeFrom, if_pos hblocked]
      dsimp only
      rw [if_pos hc, canonical_cons hc, values, hpending]
      rfl

end

/-! ### The stream -/

variable {τ : Type}

/-- The receiver got from `t₀` to `t` by being passed the scalars of `log`, in order. -/
inductive Passed (emitter : Emit τ) (t₀ : τ) : Str → τ → Prop
  | nil : Passed emitter t₀ [] t₀
  | snoc {log : Str} {t t' : τ} {b b' : MemoryBudget} {c : Char} :
    Passed emitter t₀ log t → emitter c (t, b) = .ok (t', b') → Passed emitter t₀ (log ++ [c]) t'

/-- A text is pushed scalar by scalar, and finished. -/
def stream (U : Unicode) (emitter : Emit τ) (text : Str) (s : Nfc × τ × MemoryBudget) :
    Except Error (Nfc × τ × MemoryBudget) := do
  let s ← text.foldlM (fun s value => push U emitter value s) s
  finish U emitter s

section

variable {emitter : Emit τ} {n n' : Nfc} {s s' : τ × MemoryBudget} {t₀ : τ} {log text d : Str}
  {c : Char}

/-- The sequence is passed on and closed. -/
theorem emit_passed (hp : Passed emitter t₀ log s.1) (h : emit emitter (n, s) = .ok (n', s')) :
    n' = { n with pending := [] } ∧ Passed emitter t₀ (log ++ n.values) s'.1 := by
  obtain ⟨t, ht, hdone⟩ := ok_of_bind h
  cases hdone
  refine ⟨rfl, ?_⟩
  unfold values
  clear h
  generalize n.pending = l at ht
  induction l generalizing s log with
  | nil =>
    cases ht
    rwa [List.map_nil, List.append_nil]
  | cons a l ih =>
    rw [List.foldlM_cons] at ht
    obtain ⟨t, ha, ht⟩ := ok_of_bind ht
    rw [List.map_cons, ← List.singleton_append, ← List.append_assoc]
    exact ih (.snoc hp ha) ht

theorem open_empty (capacity : ℕ) : Open U ⟨[], capacity⟩ := ⟨rfl, nofun⟩

theorem open_joined {first : Scalar} {capacity : ℕ} (h : first.order = 0) :
    Open U ⟨[first], capacity⟩ := ⟨congrArg (fun order => [order]) h, nofun⟩

/-- A scalar is added to the sequence. -/
theorem add_open (hopen : Open U n) (hc : n.pending = [] ∨ U.Mark c)
    (h : add c (n, s) = .ok (n', s')) :
    Open U n' ∧ n'.values = n.values ++ [c] ∧ s'.1 = s.1 := by
  obtain ⟨hpending, hs⟩ := of_add h
  refine ⟨⟨?_, fun a ha => ?_⟩, ?_, hs⟩
  · rw [hpending, List.map_append, hopen.order, List.length_append, List.length_singleton,
      List.range_succ]
    rfl
  · rw [hpending] at ha
    rcases hc with hempty | hmark
    · rw [hempty] at ha
      exact absurd ha List.not_mem_nil
    · rcases List.mem_append.1 (List.mem_of_mem_tail ha) with ha' | ha'
      · cases hn : n.pending with
        | nil =>
          rw [hn] at ha'
          exact absurd ha' List.not_mem_nil
        | cons first marks =>
          rw [hn, List.cons_append, List.tail_cons] at ha
          rcases List.mem_append.1 ha with ha | ha
          · exact hopen.marks a (by rw [hn]; exact ha)
          · rw [List.mem_singleton.1 ha]
            exact hmark
      · rw [List.mem_singleton.1 ha']
        exact hmark
  · rw [values, values, hpending, List.map_append]
    rfl

/-- One decomposed scalar: what was passed on, followed by the canonical form of what is open and
still to come, stays the same. -/
theorem decomposed_step (hU : U.Tables) (hopen : Open U n) (hp : Passed emitter t₀ log s.1)
    (h : decomposed U emitter c (n, s) = .ok (n', s')) :
    Open U n' ∧ ∃ log', Passed emitter t₀ log' s'.1 ∧
      ∀ d, log' ++ U.canonical (n'.values ++ d) = log ++ U.canonical (n.values ++ c :: d) := by
  unfold decomposed at h
  by_cases hc : U.canonicalCombiningClass c = 0 ∧ n.pending ≠ []
  · simp only [if_pos hc] at h
    obtain ⟨hclass, hne⟩ := hc
    rcases canonical_starter hU hopen hclass hne with
      ⟨first, joined, -, hzero, hjoin, hcanon⟩ | ⟨hjoin, hcanon⟩
    · rw [hjoin] at h
      cases h
      exact ⟨open_joined hzero, log, hp, fun d => congrArg (log ++ ·) (hcanon d).symm⟩
    · rw [hjoin] at h
      obtain ⟨⟨m, t⟩, hm, h⟩ := ok_of_bind h
      obtain ⟨rfl, hp'⟩ := emit_passed hp hm
      obtain ⟨hopen', hvalues, hs⟩ := add_open (open_empty _) (.inl rfl) h
      refine ⟨hopen', _, hs ▸ hp', fun d => ?_⟩
      rw [hvalues, hcanon, List.append_assoc]
      rfl
  · simp only [if_neg hc] at h
    have hmark : n.pending = [] ∨ U.Mark c := by
      by_cases h0 : U.canonicalCombiningClass c = 0
      · exact .inl (Classical.not_not.1 fun hne => hc ⟨h0, hne⟩)
      · exact .inr h0
    obtain ⟨hopen', hvalues, hs⟩ := add_open hopen hmark h
    refine ⟨hopen', log, hs ▸ hp, fun d => ?_⟩
    rw [hvalues, List.append_assoc, List.singleton_append]

/-- Decomposed scalars, one after another. -/
theorem decomposed_run (hU : U.Tables) (hopen : Open U n) (hp : Passed emitter t₀ log s.1)
    (h : d.foldlM (fun s value => decomposed U emitter value s) (n, s) = .ok (n', s')) :
    Open U n' ∧ ∃ log', Passed emitter t₀ log' s'.1 ∧
      ∀ r, log' ++ U.canonical (n'.values ++ r) = log ++ U.canonical (n.values ++ (d ++ r)) := by
  induction d generalizing n s log with
  | nil =>
    cases h
    exact ⟨hopen, log, hp, fun r => rfl⟩
  | cons c d ih =>
    rw [List.foldlM_cons] at h
    obtain ⟨⟨m, t⟩, hc, h⟩ := ok_of_bind h
    obtain ⟨hopen', log₁, hp₁, hstep⟩ := decomposed_step hU hopen hp hc
    obtain ⟨hopen'', log', hp', hrun⟩ := ih hopen' hp₁ h
    exact ⟨hopen'', log', hp', fun r => (hrun r).trans (hstep (d ++ r))⟩

/-- Pushing a text is pushing its decomposition. -/
theorem foldlM_push (text : Str) (s : Nfc × τ × MemoryBudget) :
    text.foldlM (fun s value => push U emitter value s) s =
      (U.decompose text).foldlM (fun s value => decomposed U emitter value s) s := by
  induction text generalizing s with
  | nil => rfl
  | cons c text ih =>
    rw [Unicode.decompose, List.flatMap_cons, List.foldlM_append, List.foldlM_cons, push]
    exact congrArg _ (funext fun s => ih s)

/-- A stream that ends without an error has passed on the batch result. -/
theorem stream_passed (hU : U.Tables) (hopen : Open U n)
    (h : stream U emitter text (n, s) = .ok (n', s')) :
    Passed emitter s.1 (U.canonical (n.values ++ U.decompose text)) s'.1 := by
  obtain ⟨⟨m, t⟩, hrun, h⟩ := ok_of_bind h
  rw [foldlM_push] at hrun
  obtain ⟨hopen', log, hp, heq⟩ := decomposed_run hU hopen .nil hrun
  obtain ⟨-, hp'⟩ := emit_passed hp h
  have hall := heq []
  rw [List.append_nil, List.append_nil, List.nil_append, canonical_values hU hopen'] at hall
  rwa [← hall]

end

/-! ### Enough memory -/

/-- The receiver takes every scalar and leaves the budget alone. -/
def Quiet (emitter : Emit τ) : Prop := ∀ c t b, ∃ t', emitter c (t, b) = .ok (t', b)

/-- No starter with its marks, and no run of marks, is longer than `m`. -/
def SequencesLe (U : Unicode) (m : ℕ) (d : Str) : Prop :=
  ∀ l, l <:+: d → (∀ c ∈ l.tail, U.Mark c) → l.length ≤ m

section

variable {emitter : Emit τ} {n : Nfc} {t : τ} {b : MemoryBudget} {d pre l : Str} {c : Char}
  {m length capacity limit : ℕ}

/-- Memory that is enough for one element more is given; what was charged is the capacity. -/
theorem reserve_scalar (hlimit : length + 1 ≤ limit)
    (hroom : 8 * (length + 1) ≤ b.remaining + 8 * capacity) :
    ∃ capacity' b', reserve length capacity 1 limit 8 b = .ok (capacity', b') ∧
      b'.remaining + 8 * capacity' = b.remaining + 8 * capacity := by
  have hcharge : ∀ target, length + 1 ≤ target → capacity < length + 1 →
      (target - capacity) * 8 ≤ b.remaining →
      ({ b with used := b.used + (target - capacity) * 8 } : MemoryBudget).remaining + 8 * target =
        b.remaining + 8 * capacity := by
    intro target htarget hcap hle
    unfold MemoryBudget.remaining at *
    dsimp only
    omega
  rw [reserve, if_neg (Nat.not_lt.2 hlimit)]
  by_cases hcap : length + 1 ≤ capacity
  · exact ⟨capacity, b, if_pos hcap, rfl⟩
  rw [if_neg hcap]
  dsimp only
  -- where doubling is too much, exactly one more element is asked for
  by_cases hdouble : b.remaining < (min (max (2 * capacity) (length + 1)) limit - capacity) * 8
  · rw [if_pos hdouble]
    exact ⟨_, _, if_neg (by omega), hcharge _ (Nat.le_refl _) (by omega) (by omega)⟩
  · rw [if_neg hdouble]
    exact ⟨_, _, if_neg hdouble, hcharge _ (by omega) (by omega) (by omega)⟩

theorem emit_quiet (he : Quiet emitter) (n : Nfc) (t : τ) (b : MemoryBudget) :
    ∃ t', emit emitter (n, t, b) = .ok ({ n with pending := [] }, t', b) := by
  have hfold : ∀ l : List Scalar, ∀ t, ∃ t',
      l.foldlM (fun s scalar => emitter scalar.value s) (t, b) = .ok (t', b) := by
    intro l
    induction l with
    | nil => exact fun t => ⟨t, rfl⟩
    | cons a l ih =>
      intro t
      obtain ⟨t₁, h₁⟩ := he a.value t b
      obtain ⟨t', h'⟩ := ih t₁
      refine ⟨t', ?_⟩
      rw [List.foldlM_cons, h₁]
      exact h'
  obtain ⟨t', h⟩ := hfold n.pending t
  refine ⟨t', ?_⟩
  rw [emit, h]
  rfl

theorem add_ok (hm : m < u32Limit) (hn : n.pending.length + 1 ≤ m)
    (hroom : 8 * m ≤ b.remaining + 8 * n.capacity) :
    ∃ n' b', add c (n, t, b) = .ok (n', t, b') ∧ n'.pending.length = n.pending.length + 1 ∧
      b'.remaining + 8 * n'.capacity = b.remaining + 8 * n.capacity := by
  obtain ⟨capacity', b', hreserve, heq⟩ :=
    @reserve_scalar b n.pending.length n.capacity (u32Limit - 1) (by omega) (by omega)
  refine ⟨⟨n.pending ++ [⟨c, n.pending.length⟩], capacity'⟩, b', ?_, ?_, heq⟩
  · rw [add, if_neg (by omega), hreserve]
    rfl
  · rw [List.length_append, List.length_singleton]

/-- With enough memory a scalar is taken; a starter leaves a sequence of one. -/
theorem decomposed_ok (he : Quiet emitter) (hm : m < u32Limit) (hpos : 0 < m)
    (hn : U.Mark c → n.pending.length + 1 ≤ m) (hroom : 8 * m ≤ b.remaining + 8 * n.capacity) :
    ∃ n' t' b', decomposed U emitter c (n, t, b) = .ok (n', t', b') ∧
      (n'.pending.length = 1 ∨ U.Mark c ∧ n'.pending.length = n.pending.length + 1) ∧
      b'.remaining + 8 * n'.capacity = b.remaining + 8 * n.capacity := by
  have hcapacity : (n.compose U).capacity = n.capacity := by
    unfold compose
    split
    · rfl
    · split_ifs <;> rfl
  unfold decomposed
  by_cases hc : U.canonicalCombiningClass c = 0 ∧ n.pending ≠ []
  · simp only [if_pos hc]
    cases hj : (n.compose U).join U c with
    | some m' =>
      unfold join at hj
      split at hj
      swap
      · cases hj
      split_ifs at hj
      obtain ⟨joined, -, rfl⟩ := Option.map_eq_some_iff.1 hj
      exact ⟨_, t, b, rfl, .inl rfl, by rw [hcapacity]⟩
    | none =>
      obtain ⟨t', hemit⟩ := emit_quiet he (n.compose U) t b
      have hroom' : 8 * m ≤ b.remaining + 8 * (n.compose U).capacity := by rwa [hcapacity]
      obtain ⟨n', b', hadd, hlen, heq⟩ :=
        @add_ok τ { n.compose U with pending := [] } t' b c m hm hpos hroom'
      refine ⟨n', t', b', ?_, .inl hlen, heq.trans (by rw [hcapacity])⟩
      rw [hemit]
      exact hadd
  · simp only [if_neg hc]
    by_cases h0 : U.canonicalCombiningClass c = 0
    · have hempty : n.pending = [] := Classical.not_not.1 fun hne => hc ⟨h0, hne⟩
      have hone : n.pending.length + 1 ≤ m := by
        rw [hempty]
        exact hpos
      obtain ⟨n', b', hadd, hlen, heq⟩ := @add_ok τ n t b c m hm hone hroom
      rw [hempty] at hlen
      exact ⟨n', t, b', hadd, .inl hlen, heq⟩
    · obtain ⟨n', b', hadd, hlen, heq⟩ := @add_ok τ n t b c m hm (hn h0) hroom
      exact ⟨n', t, b', hadd, .inr ⟨h0, hlen⟩, heq⟩

/-- The sequence that is open is at the end of what was read. -/
theorem decomposeds_ok (he : Quiet emitter) (hm : m < u32Limit) (hseq : SequencesLe U m (pre ++ d))
    (hl : l <:+ pre) (hmarks : ∀ c ∈ l.tail, U.Mark c) (hlen : n.pending.length ≤ l.length)
    (hroom : 8 * m ≤ b.remaining + 8 * n.capacity) :
    ∃ n' t' b', d.foldlM (fun s value => decomposed U emitter value s) (n, t, b) =
      .ok (n', t', b') := by
  induction d generalizing pre l n t b with
  | nil => exact ⟨n, t, b, rfl⟩
  | cons c d ih =>
    have hassoc : pre ++ c :: d = pre ++ [c] ++ d := by simp
    have hin : ∀ k, k <:+ pre ++ [c] → k <:+: pre ++ c :: d := fun k hk =>
      hassoc ▸ hk.isInfix.trans (List.infix_append' [] _ _)
    have hone : 1 ≤ m := hseq [c] (hin [c] (List.suffix_append _ _)) nofun
    have hlong : U.Mark c → l.length + 1 ≤ m ∧ ∀ x ∈ (l ++ [c]).tail, U.Mark x := by
      intro hc
      have htail : ∀ x ∈ (l ++ [c]).tail, U.Mark x := by
        cases l with
        | nil => exact nofun
        | cons a l =>
          intro x hx
          rcases List.mem_append.1 hx with hx | hx
          · exact hmarks x hx
          · rwa [List.mem_singleton.1 hx]
      have := hseq (l ++ [c]) (hin _ (List.suffix_append_self_iff.2 hl)) htail
      rw [List.length_append, List.length_singleton] at this
      exact ⟨this, htail⟩
    obtain ⟨n₁, t₁, b₁, hstep, hgrown, heq⟩ := @decomposed_ok U τ emitter n t b c m he hm hone
      (fun hc => by have := (hlong hc).1; omega) hroom
    rw [List.foldlM_cons, hstep]
    rcases hgrown with h1 | ⟨hc, h1⟩
    · exact ih (hassoc ▸ hseq) (List.suffix_append pre [c]) nofun (Nat.le_of_eq h1) (by omega)
    · refine ih (hassoc ▸ hseq) (List.suffix_append_self_iff.2 hl) (hlong hc).2 ?_ (by omega)
      rw [List.length_append, List.length_singleton]
      omega

end

/-- A stream that ends without an error has passed on exactly the batch result, in order, whatever
it is passed to; and it ends without an error if its receiver does, no sequence is too long and
there is memory for the longest one. -/
theorem stream_exact {U : Unicode} (hU : U.Tables) (text : Str) :
    U.decompose (U.decompose text) = U.decompose text ∧
    (∀ (τ : Type) (emitter : Emit τ) t budget n t' budget',
      stream U emitter text (default, t, budget) = .ok (n, t', budget') →
        Passed emitter t (U.nfc text) t') ∧
    ∀ (τ : Type) (emitter : Emit τ) t budget m, Quiet emitter →
      SequencesLe U m (U.decompose text) → m < u32Limit → 8 * m ≤ budget.remaining →
        ∃ n t' budget', stream U emitter text (default, t, budget) = .ok (n, t', budget') ∧
          Passed emitter t (U.nfc text) t' := by
  have hopen : Open U default := open_empty 0
  have hpassed : ∀ (τ : Type) (emitter : Emit τ) t budget n t' budget',
      stream U emitter text (default, t, budget) = .ok (n, t', budget') →
        Passed emitter t (U.nfc text) t' := fun τ emitter t budget n t' budget' h =>
    @stream_passed U τ emitter default n (t, budget) (t', budget') text hU hopen h
  refine ⟨hU.decompose_full text, hpassed, fun τ emitter t budget m he hseq hm hroom => ?_⟩
  obtain ⟨n, t₁, b₁, hrun⟩ := @decomposeds_ok U τ emitter default t budget (U.decompose text) [] []
    m he hm hseq List.suffix_rfl nofun (Nat.le_refl 0) (by omega)
  obtain ⟨t', hfinish⟩ := emit_quiet he (n.compose U) t₁ b₁
  have hstream : stream U emitter text (default, t, budget) =
      .ok ({ n.compose U with pending := [] }, t', b₁) := by
    rw [stream, foldlM_push, hrun]
    exact hfinish
  exact ⟨_, t', b₁, hstream, hpassed _ _ _ _ _ _ _ hstream⟩

/-- The tables for the letter a with a circumflex and a dot below. -/
def circumflex : Unicode where
  normalizationVersion := (16, 0, 0)
  segmentationVersion := (16, 0, 0)
  caseVersion := (16, 0, 0)
  canonicalCombiningClass c := if c = '\u0302' then 230 else if c = '\u0323' then 220 else 0
  compose a b :=
    if a = 'a' ∧ b = '\u0302' then some 'â'
    else if a = 'a' ∧ b = '\u0323' then some 'ạ'
    else if a = 'ạ' ∧ b = '\u0302' then some 'ậ'
    else none
  decomposeCanonical c :=
    if c = 'â' then ['a', '\u0302']
    else if c = 'ạ' then ['a', '\u0323']
    else if c = 'ậ' then ['a', '\u0323', '\u0302']
    else [c]
  caseFolded _ := none
  unicodeWords s := [s]
  unicodeWordIndices s := [(0, s)]

/-- The dot below is sorted before the circumflex, and both are composed. -/
theorem stream_exact_circumflex : ∃ n log budget',
    stream circumflex (fun c s => .ok (s.1 ++ [c], s.2)) ['a', '\u0302', '\u0323']
      (default, [], ⟨24, 0⟩) = .ok (n, log, budget') ∧
    Passed (fun c s => .ok (s.1 ++ [c], s.2)) [] ['ậ'] log := by
  have hU : circumflex.Tables := by
    refine ⟨fun c x hx => ?_, fun a b c ha hc => ?_⟩
    · unfold circumflex at hx ⊢
      dsimp only at hx ⊢
      split_ifs at hx with h₁ h₂ h₃
      · rcases List.mem_pair.1 hx with rfl | rfl <;> decide
      · rcases List.mem_pair.1 hx with rfl | rfl <;> decide
      · simp only [List.mem_cons, List.not_mem_nil, or_false] at hx
        rcases hx with rfl | rfl | rfl <;> decide
      · rw [List.mem_singleton.1 hx, if_neg h₁, if_neg h₂, if_neg h₃]
    · unfold circumflex at hc ⊢
      dsimp only at hc ⊢
      split_ifs at hc
      all_goals cases hc
      all_goals decide
  have hnfc : circumflex.nfc ['a', '\u0302', '\u0323'] = ['ậ'] := by decide +kernel
  have hseq : SequencesLe circumflex 3 (circumflex.decompose ['a', '\u0302', '\u0323']) :=
    fun l hl _ => hl.length_le
  rw [← hnfc]
  exact (stream_exact hU ['a', '\u0302', '\u0323']).2.2 Str
    (fun c s => .ok (s.1 ++ [c], s.2)) [] ⟨24, 0⟩ 3 (fun c t b => ⟨t ++ [c], rfl⟩) hseq (by decide)
    (by decide)

end Nfc

/-! ### Normalized text -/

section

variable {U : Unicode} {limit : ℕ} {text normalized log : Str}

theorem written_passed {out₀ out : Output} (h : Nfc.Passed (Output.write limit) out₀ log out) :
    out.written = out₀.written ++ log := by
  induction h with
  | nil => exact (List.append_nil _).symm
  | snoc _ hwrite ih =>
    obtain ⟨⟨capacity, b⟩, -, hwrite⟩ := ok_of_bind hwrite
    cases hwrite
    rw [← List.append_assoc, ← ih]

/-- What the second buffer was passed is folded and composed again. -/
theorem folded_passed (hU : U.Tables) {out₀ : Output} {t : Nfc × Output}
    (h : Nfc.Passed (folded U limit) (default, out₀) log t) :
    ∃ f, log.mapM (fold U) = .ok f ∧ Nfc.Open U t.1 ∧
      ∃ log', Nfc.Passed (Output.write limit) out₀ log' t.2 ∧
        ∀ r, log' ++ U.canonical (t.1.values ++ r) = U.canonical (U.decompose f ++ r) := by
  induction h with
  | nil => exact ⟨[], rfl, Nfc.open_empty 0, [], .nil, fun r => rfl⟩
  | @snoc log t t' b b' c _ hstep ih =>
    obtain ⟨f, hf, hopen, log', hp, heq⟩ := ih
    obtain ⟨value, hvalue, hstep⟩ := ok_of_bind hstep
    obtain ⟨⟨second, out, b''⟩, hpush, hstep⟩ := ok_of_bind hstep
    cases hstep
    have hrun : (U.decomposeCanonical value).foldlM
        (fun s value => Nfc.decomposed U (Output.write limit) value s) (t.1, (t.2, b)) =
        .ok (second, (out, b')) := hpush
    obtain ⟨hopen', log'', hp', hrest⟩ := Nfc.decomposed_run hU hopen hp hrun
    refine ⟨f ++ [value], ?_, hopen', log'', hp', fun r => ?_⟩
    · rw [List.mapM_append, hf, List.mapM_cons, hvalue]
      rfl
    · rw [hrest, heq, Unicode.decompose, Unicode.decompose, List.flatMap_append,
        List.flatMap_singleton, List.append_assoc]

/-- Text beyond ASCII is composed, folded and composed again. -/
theorem profileText_nfc (hU : U.Tables) {budget budget' : MemoryBudget} {peak : ℕ}
    (htext : isAscii text = false)
    (h : profileText U text limit budget = .ok (normalized, peak, budget')) :
    ∃ f, (U.nfc text).mapM (fold U) = .ok f ∧ normalized = U.nfc f := by
  obtain ⟨⟨capacity, b⟩, -, h⟩ := ok_of_bind h
  simp only [htext, Bool.false_eq_true, if_false] at h
  obtain ⟨⟨n, t, b₁⟩, hpush, h⟩ := ok_of_bind h
  obtain ⟨⟨first, ⟨second, out⟩, b₂⟩, hfinish, h⟩ := ok_of_bind h
  obtain ⟨⟨last, out', b₃⟩, hlast, h⟩ := ok_of_bind h
  obtain ⟨b₄, -, h⟩ := ok_of_bind h
  obtain ⟨b₅, -, h⟩ := ok_of_bind h
  cases h
  have hstream : Nfc.stream U (folded U limit) text
      (default, ((default, ⟨[], capacity⟩), b)) = .ok (first, ((second, out), b₂)) := by
    rw [Nfc.stream, hpush]
    exact hfinish
  have hfirst : Nfc.Passed (folded U limit) (default, ⟨[], capacity⟩) (U.nfc text) (second, out) :=
    Nfc.stream_passed hU (Nfc.open_empty 0) hstream
  obtain ⟨f, hf, hopen, log, hp, heq⟩ := folded_passed hU hfirst
  obtain ⟨-, hp'⟩ := @Nfc.emit_passed Output (Output.write limit) (second.compose U) last
    (out, b₂) (out', b₃) _ log hp hlast
  have hall := heq []
  rw [List.append_nil, List.append_nil, Nfc.canonical_values hU hopen] at hall
  refine ⟨f, hf, ?_⟩
  rw [written_passed hp', hall]
  rfl

end

end PinCore
