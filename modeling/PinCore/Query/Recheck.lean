import PinCore.Analysis.Analyze
import PinCore.Lib.Ring
import PinCore.Query.Oracle

/-!
# Streaming rechecks

A query of one term or one short phrase is checked against a text without building the analysed
document.  Both matchers return what the analysis followed by the oracle returns, errors included,
whenever that reference does not run out of memory.
-/

namespace PinCore

/-! ### The matchers -/

/-- The byte with an ASCII capital lowered. -/
def lowerByte (b : UInt8) : UInt8 := if 65 ≤ b.toNat ∧ b.toNat ≤ 90 then b + 32 else b

/-- The texts are equal up to the case of ASCII letters. -/
def eqIgnoreAsciiCase (a b : Text) : Bool := decide (a.map lowerByte = b.map lowerByte)

/-- Counts the words and looks for the first match while comparisons are left. -/
def matchWordsFrom (limits : AnalysisLimits) (equal : Str → Bool) :
    List Str → ℕ → Option ℕ → ℕ → Except Error (ℕ × Option ℕ)
  | [], tokens, firstMatch, _ => .ok (tokens, firstMatch)
  | word :: words, tokens, firstMatch, left =>
    if limits.termBytes < word.len then .error (.limit "term bytes")
    else if tokens = limits.tokens then .error (.limit "element count")
    else if firstMatch.isNone ∧ left ≠ 0 then
      matchWordsFrom limits equal words (tokens + 1)
        (if equal word then some (tokens + 1) else none) (left - 1)
    else matchWordsFrom limits equal words (tokens + 1) firstMatch left

/-- An early match or exhausted work does not hide an invalid tail. -/
def matchWords (words : List Str) (limits : AnalysisLimits) (maxSteps : ℕ) (equal : Str → Bool) :
    Except Error Bool := do
  let (tokens, firstMatch) ← matchWordsFrom limits equal words 0 none (maxSteps - 1)
  let work ← charge 1 maxSteps
  let _ ← charge (firstMatch.getD tokens) work
  .ok firstMatch.isSome

/-- The window of the last words and the outcome so far. -/
structure PhraseWindow where
  window : Ring Str
  filled : ℕ
  found : Bool
  exhausted : Option Error
  work : ℕ

/-- Compares words and terms in pairs up to the first difference. -/
def compareWindow (equal : Str → Text → Bool) : List (Str × Text) → ℕ → Except Error (Bool × ℕ)
  | [], work => .ok (true, work)
  | (word, term) :: rest, work => do
    let work ← charge 1 work
    if equal word term then compareWindow equal rest work else .ok (false, work)

namespace PhraseWindow

/-- A hit or exhausted work skips comparisons. -/
def step (terms : List Text) (equal : Str → Text → Bool) (s : PhraseWindow) (word : Str) :
    PhraseWindow :=
  if s.found ∨ s.exhausted.isSome then s
  else
    let window := s.window.push terms.length word
    let filled := min (s.filled + 1) terms.length
    if filled ≠ terms.length then { s with
      window := window
      filled := filled }
    else
      match compareWindow equal ((window.contents terms.length).zip terms) s.work with
      | .error e => ⟨window, filled, false, some e, s.work⟩
      | .ok (found, work) => ⟨window, filled, found, none, work⟩

/-- What the windows have shown so far. -/
def outcome (s : PhraseWindow) : Except Error Bool :=
  match s.exhausted with
  | some e => .error e
  | none => .ok s.found

end PhraseWindow

/-- Every word is checked, whatever the window found. -/
def matchPhraseFrom (limits : AnalysisLimits) (terms : List Text) (equal : Str → Text → Bool) :
    List Str → ℕ → PhraseWindow → Except Error PhraseWindow
  | [], _, s => .ok s
  | word :: words, index, s =>
    if limits.termBytes < word.len then .error (.limit "term bytes")
    else if index = limits.tokens then .error (.limit "element count")
    else matchPhraseFrom limits terms equal words (index + 1) (s.step terms equal word)

/-- Some words in a row equal the terms of a phrase. -/
def matchPhraseWords (words : List Str) (terms : List Text) (limits : AnalysisLimits)
    (maxSteps : ℕ) (equal : Str → Text → Bool) : Except Error Bool := do
  let window : Ring Str := ⟨List.replicate 64 [], 0⟩
  let start : PhraseWindow :=
    match charge 1 maxSteps with
    | .error e => ⟨window, 0, false, some e, maxSteps⟩
    | .ok work => ⟨window, 0, false, none, work⟩
  let s ← matchPhraseFrom limits terms equal words 0 start
  s.outcome

variable (U : Unicode)

/-- The part that both matchers share: ASCII text is compared without case, other text is
normalized first. -/
def recheck (text : Str) (limits : AnalysisLimits)
    (worker : List Str → (Str → Text → Bool) → Except Error Bool) : Except Error Bool := do
  checkInput U text limits
  if isAscii text then
    if limits.normalizedBytes < text.len then .error (.limit "normalized bytes")
    else if u32Limit ≤ text.len then .error (.limit "normalized bytes")
    else worker (U.unicodeWords text) fun word term => eqIgnoreAsciiCase (Str.bytes word) term
  else do
    let (normalized, _) ← profileText U text limits.normalizedBytes
      (MemoryBudget.new limits.memoryBytes)
    if u32Limit ≤ normalized.len then .error (.limit "normalized bytes")
    else worker (U.unicodeWords normalized) fun word term => Str.bytes word == term

/-- The matcher of a query that is one term. -/
structure SingleTermMatcher where
  term : Text
  deriving DecidableEq, Repr

namespace SingleTermMatcher

/-- The matcher of a query that is one term. -/
def new (q : Query) : Option SingleTermMatcher :=
  if q.nodeCount ≠ 1 then none
  else
    match q.rootKind with
    | .term t => some ⟨t⟩
    | _ => none

/-- The text holds the term. -/
def matchesText (m : SingleTermMatcher) (text : Str) (limits : AnalysisLimits) (maxSteps : ℕ) :
    Except Error Bool :=
  recheck U text limits fun words equal =>
    matchWords words limits maxSteps fun word => equal word m.term

end SingleTermMatcher

/-- The matcher of a query that is one phrase. -/
structure PhraseMatcher where
  terms : List Text
  deriving DecidableEq, Repr

namespace PhraseMatcher

/-- The matcher of a query that is one phrase of at most 64 terms. -/
def new (q : Query) : Option PhraseMatcher :=
  if q.nodeCount ≠ 1 then none
  else
    match q.rootKind with
    | .phrase ts => if ts ≠ [] ∧ ts.length ≤ 64 then some ⟨ts⟩ else none
    | _ => none

/-- The text holds the phrase. -/
def matchesText (m : PhraseMatcher) (text : Str) (limits : AnalysisLimits) (maxSteps : ℕ) :
    Except Error Bool :=
  recheck U text limits fun words equal => matchPhraseWords words m.terms limits maxSteps equal

end PhraseMatcher

/-- The two-phase reference: analyse the text, then run the oracle. -/
def analyzeThenOracle (q : Query) (text : Str) (limits : AnalysisLimits)
    (memoryBytes maxSteps : ℕ) : Except Error Bool := do
  let a ← Analyzed.analyze U text limits
  oracleMatches a.document q memoryBytes maxSteps

/-- The texts of a node. -/
def Kind.texts : Kind → List Text
  | .term t => [t]
  | .prefixed t => [t]
  | .phrase ts => ts
  | _ => []

/-- The literals of a parsed query are analysed texts. -/
def Query.Analysed (q : Query) : Prop := ∀ k ∈ q.nodes, ∀ t ∈ k.texts, PinCore.Analysed U t

/-! ### Words without case -/

theorem utf8EncodeChar_ascii {c : Char} (h : c.toNat < 128) :
    String.utf8EncodeChar c = [UInt8.ofNat c.toNat] := by
  have hv : c.val.toNat = c.toNat := rfl
  unfold String.utf8EncodeChar
  simp only [hv]
  rw [if_pos (by omega)]

/-- Lowering bytes or scalars is the same for ASCII. -/
theorem map_lowerByte {s : Str} (h : isAscii s = true) :
    (Str.bytes s).map lowerByte = Str.bytes (s.map toAsciiLowercase) := by
  induction s with
  | nil => rfl
  | cons c s ih =>
    rw [isAscii, List.all_cons, Bool.and_eq_true, decide_eq_true_eq] at h
    rw [List.map_cons, Str.bytes_cons, Str.bytes_cons, List.map_append, ih h.2,
      utf8EncodeChar_ascii h.1]
    congr 1
    have hbyte : (UInt8.ofNat c.toNat).toNat = c.toNat := by
      rw [UInt8.toNat_ofNat']
      omega
    by_cases hup : c.isUpper = true
    · have hlow := toNat_toAsciiLowercase hup
      have hrange := isUpper_iff.1 hup
      rw [utf8EncodeChar_ascii (by omega), hlow, List.map_singleton, lowerByte, hbyte,
        if_pos hrange, UInt8.ofNat_add]
      rfl
    · have hrange : ¬ (65 ≤ c.toNat ∧ c.toNat ≤ 90) := by rwa [← isUpper_iff]
      rw [toAsciiLowercase, if_neg hup, utf8EncodeChar_ascii h.1, List.map_singleton, lowerByte,
        hbyte, if_neg hrange]

theorem map_lowerByte_of_lower {t : Text} (h : ∀ b ∈ t, b.toNat < 65 ∨ 90 < b.toNat) :
    t.map lowerByte = t := by
  refine (List.map_congr_left fun b hb => ?_).trans (List.map_id t)
  have hrange : ¬ (65 ≤ b.toNat ∧ b.toNat ≤ 90) := by
    have := h b hb
    omega
  exact if_neg hrange

/-! ### One term -/

variable {limits : AnalysisLimits} {equal : Str → Bool} {g : Str → Text} {accept : Text → Bool}

/-- The first match among the next `left` words, counted from `count`. -/
def firstMatchFrom (equal : Str → Bool) : ℕ → ℕ → List Str → Option ℕ
  | _, _, [] => none
  | _, 0, _ :: _ => none
  | count, left + 1, word :: words =>
    if equal word then some (count + 1) else firstMatchFrom equal (count + 1) left words

theorem firstMatchFrom_nil (count left : ℕ) : firstMatchFrom equal count left [] = none := by
  cases left <;> rfl

theorem firstMatchFrom_zero (count : ℕ) (words : List Str) :
    firstMatchFrom equal count 0 words = none := by
  cases words <;> rfl

theorem matchWordsFrom_some (words : List Str) (i left : ℕ) {count : ℕ}
    (hcount : count ≤ limits.tokens) :
    matchWordsFrom limits equal words count (some i) left =
      (checkWords limits count words >>= fun _ => .ok (count + words.length, some i)) := by
  induction words generalizing count left with
  | nil => rfl
  | cons word words ih =>
    rw [matchWordsFrom, checkWords]
    by_cases hterm : limits.termBytes < word.len
    · rw [if_pos hterm, if_pos hterm]
      rfl
    · rw [if_neg hterm, if_neg hterm]
      by_cases hfull : count = limits.tokens
      · rw [if_pos hfull, if_pos (Nat.le_of_eq hfull.symm)]
        rfl
      · have hroom : ¬ limits.tokens ≤ count := by omega
        have hnone : ¬ ((some i).isNone = true ∧ left ≠ 0) := fun h => Bool.noConfusion h.1
        rw [if_neg hfull, if_neg hroom, if_neg hnone, ih left (by omega), List.length_cons,
          Nat.add_assoc, Nat.add_comm 1]

/-- The words are checked as in the analysis; the match is the first one in reach. -/
theorem matchWordsFrom_none (words : List Str) (left : ℕ) {count : ℕ}
    (hcount : count ≤ limits.tokens) :
    matchWordsFrom limits equal words count none left =
      (checkWords limits count words >>= fun _ =>
        .ok (count + words.length, firstMatchFrom equal count left words)) := by
  induction words generalizing count left with
  | nil =>
    rw [firstMatchFrom_nil]
    rfl
  | cons word words ih =>
    rw [matchWordsFrom, checkWords]
    by_cases hterm : limits.termBytes < word.len
    · rw [if_pos hterm, if_pos hterm]
      rfl
    · rw [if_neg hterm, if_neg hterm]
      by_cases hfull : count = limits.tokens
      · rw [if_pos hfull, if_pos (Nat.le_of_eq hfull.symm)]
        rfl
      · have hroom : ¬ limits.tokens ≤ count := by omega
        have hlength : count + (word :: words).length = count + 1 + words.length := by
          rw [List.length_cons]
          omega
        rw [if_neg hfull, if_neg hroom, hlength]
        cases left with
        | zero =>
          have hspent : ¬ ((none : Option ℕ).isNone = true ∧ 0 ≠ 0) := fun h => h.2 rfl
          rw [if_neg hspent, ih 0 (by omega), firstMatchFrom_zero, firstMatchFrom_zero]
        | succ left =>
          have hopen : (none : Option ℕ).isNone = true ∧ left + 1 ≠ 0 :=
            ⟨rfl, Nat.succ_ne_zero left⟩
          rw [if_pos hopen, firstMatchFrom, Nat.add_sub_cancel]
          by_cases hequal : equal word = true
          · rw [if_pos hequal, if_pos hequal]
            exact matchWordsFrom_some words _ left (by omega)
          · rw [if_neg hequal, if_neg hequal]
            exact ih left (by omega)

/-- A match in reach costs the tokens up to it; without one every token costs a unit. -/
theorem findToken_firstMatchFrom (hequal : ∀ w, equal w = accept (g w)) (words : List Str)
    (count work : ℕ) :
    match firstMatchFrom equal count work words with
    | some i => count < i ∧ i - count ≤ work ∧
        findToken accept (words.map g) work = .ok (true, work - (i - count))
    | none => findToken accept (words.map g) work =
        if words.length ≤ work then .ok (false, work - words.length)
        else .error (.limit "search work") := by
  induction words generalizing count work with
  | nil =>
    rw [firstMatchFrom_nil]
    exact (if_pos (Nat.zero_le work)).symm
  | cons word words ih =>
    cases work with
    | zero => rfl
    | succ work =>
      rw [List.map_cons, findToken, charge_succ, ok_bind, ← hequal, firstMatchFrom]
      by_cases hword : equal word = true
      · rw [if_pos hword, if_pos hword]
        refine ⟨Nat.lt_succ_self _, by omega, ?_⟩
        rw [Nat.add_sub_cancel_left, Nat.add_sub_cancel]
      · rw [if_neg hword, if_neg hword]
        have h := ih (count + 1) work
        cases hfirst : firstMatchFrom equal (count + 1) work words with
        | some i =>
          rw [hfirst] at h
          obtain ⟨hlt, hle, hfind⟩ := h
          refine ⟨by omega, by omega, ?_⟩
          rw [hfind, show work + 1 - (i - count) = work - (i - (count + 1)) by omega]
        | none =>
          rw [hfirst] at h
          simp only at h ⊢
          rw [h, List.length_cons, Nat.add_sub_add_right]
          by_cases hle : words.length ≤ work
          · rw [if_pos hle, if_pos (Nat.succ_le_succ hle)]
          · rw [if_neg hle, if_neg (fun h => hle (Nat.le_of_succ_le_succ h))]

/-- The matcher for one term checks every word and then answers as the search for the token. -/
theorem matchWords_eq (hequal : ∀ w, equal w = accept (g w)) (words : List Str) (maxSteps : ℕ) :
    matchWords words limits maxSteps equal = (do
      checkWords limits 0 words
      let work ← charge 1 maxSteps
      let (found, _) ← findToken accept (words.map g) work
      .ok found) := by
  rw [matchWords, matchWordsFrom_none words _ (Nat.zero_le _)]
  cases hcheck : checkWords limits 0 words with
  | error e => rfl
  | ok u =>
    cases maxSteps with
    | zero => rfl
    | succ work =>
      have h := findToken_firstMatchFrom hequal words 0 work
      simp only [ok_bind, charge_succ, Nat.add_sub_cancel, Nat.zero_add]
      cases hfirst : firstMatchFrom equal 0 work words with
      | some i =>
        rw [hfirst] at h
        obtain ⟨-, hle, hfind⟩ := h
        rw [hfind, Option.getD_some, charge_of_le (by omega)]
        rfl
      | none =>
        rw [hfirst] at h
        simp only at h
        rw [h, Option.getD_none]
        by_cases hle : words.length ≤ work
        · rw [if_pos hle, charge_of_le hle]
          rfl
        · rw [if_neg hle, charge_of_lt (Nat.lt_of_not_le hle)]
          rfl

/-! ### One phrase -/

section Phrase

variable {terms : List Text} {equals : Str → Text → Bool} {s : PhraseWindow} {word : Str}
  {recent words : List Str}

theorem matchPhraseFrom_eq {index : ℕ} (hindex : index ≤ limits.tokens) :
    matchPhraseFrom limits terms equals words index s =
      (checkWords limits index words >>= fun _ =>
        .ok (words.foldl (PhraseWindow.step terms equals) s)) := by
  induction words generalizing index s with
  | nil => rfl
  | cons word words ih =>
    rw [matchPhraseFrom, checkWords]
    by_cases hterm : limits.termBytes < word.len
    · rw [if_pos hterm, if_pos hterm]
      rfl
    · rw [if_neg hterm, if_neg hterm]
      by_cases hfull : index = limits.tokens
      · rw [if_pos hfull, if_pos (Nat.le_of_eq hfull.symm)]
        rfl
      · have hroom : ¬ limits.tokens ≤ index := by omega
        rw [if_neg hfull, if_neg hroom, ih (by omega)]
        rfl

/-- A full window is compared as the oracle compares the tokens from its first one on. -/
theorem compareWindow_eq (hequal : ∀ w, ∀ t ∈ terms, equals w t = decide (g w = t))
    (words : List Str) (hlength : recent.length = terms.length) (work : ℕ) :
    compareWindow equals (recent.zip terms) work =
      compareTerms terms ((recent ++ words).map g) work := by
  induction terms generalizing recent work with
  | nil =>
    rw [List.zip_nil_right]
    rfl
  | cons term terms ih =>
    cases recent with
    | nil => cases hlength
    | cons word recent =>
      rw [List.zip_cons_cons, compareWindow, List.cons_append, List.map_cons, compareTerms]
      cases charge 1 work with
      | error e => rfl
      | ok work =>
        have hrest : ∀ w, ∀ t ∈ terms, equals w t = decide (g w = t) :=
          fun w t ht => hequal w t (List.mem_cons_of_mem _ ht)
        simp only [ok_bind, hequal word term List.mem_cons_self, decide_eq_true_eq]
        by_cases hword : g word = term
        · rw [if_pos hword, if_neg (not_not_intro hword)]
          exact ih hrest (Nat.succ.inj hlength) work
        · rw [if_neg hword, if_pos hword]

theorem findPhrase_of_length_lt {d : Document} (h : d.length < terms.length) (work : ℕ) :
    findPhrase terms d work = .ok (false, work) := by
  cases d with
  | nil => rfl
  | cons token tokens => exact if_pos h

/-- The window holds the last words, at most one fewer than the phrase has. -/
structure PhraseWindow.Holds (terms : List Text) (s : PhraseWindow) (recent : List Str) : Prop where
  slots : s.window.slots.length = 64
  cursor : s.window.cursor < terms.length
  short : recent.length < terms.length
  filling : s.filled < terms.length → s.window.cursor = s.filled ∧ recent.length = s.filled ∧
    s.window.slots.take s.filled = recent
  full : ¬ s.filled < terms.length → s.filled = terms.length ∧
    recent.length + 1 = terms.length ∧ (s.window.contents terms.length).tail = recent

namespace PhraseWindow

/-- While the window fills, a word is only stored. -/
theorem Holds.fill (h : s.Holds terms recent) (hwidth : terms.length ≤ 64)
    (hfill : s.filled + 1 < terms.length) :
    Holds terms { s with
      window := s.window.push terms.length word
      filled := s.filled + 1 } (recent ++ [word]) := by
  obtain ⟨hcursor, hlength, htake⟩ := h.filling (by omega)
  have hslots := h.slots
  refine ⟨Ring.length_slots_push.trans hslots, Ring.cursor_push_lt h.cursor,
    ?_, fun _ => ⟨?_, ?_, ?_⟩, fun hnot => absurd hfill hnot⟩
  · rw [List.length_append, List.length_singleton]
    omega
  · change (if s.window.cursor + 1 = terms.length then 0 else s.window.cursor + 1) = _
    rw [hcursor, if_neg (by omega)]
  · rw [List.length_append, List.length_singleton, hlength]
  · have hpush := @Ring.take_push _ s.window terms.length word (by omega)
    rw [hcursor, htake] at hpush
    exact hpush

/-- A full window lists the last words and the new one. -/
theorem Holds.contents (h : s.Holds terms recent) (word : Str) (hwidth : terms.length ≤ 64)
    (hfull : ¬ s.filled + 1 < terms.length) :
    (s.window.push terms.length word).contents terms.length = recent ++ [word] ∧
      recent.length + 1 = terms.length := by
  have hslots := h.slots
  by_cases hlt : s.filled < terms.length
  · obtain ⟨hcursor, hlength, htake⟩ := h.filling hlt
    have hwrap : s.window.cursor + 1 = terms.length := by omega
    have hzero : (s.window.push terms.length word).cursor = 0 := if_pos hwrap
    have hpush := @Ring.take_push _ s.window terms.length word (by omega)
    rw [hwrap, hcursor, htake] at hpush
    rw [Ring.contents, hzero, List.drop_zero, List.take_zero, List.append_nil, hpush]
    exact ⟨rfl, by omega⟩
  · obtain ⟨-, hlength, htail⟩ := h.full hlt
    rw [Ring.contents_push h.cursor (by omega), htail]
    exact ⟨rfl, hlength⟩

/-- After a comparison the oldest word is dropped. -/
theorem Holds.slide (h : s.Holds terms recent) (word : Str) (work : ℕ)
    (hwidth : terms.length ≤ 64) (hfull : ¬ s.filled + 1 < terms.length) :
    Holds terms ⟨s.window.push terms.length word, terms.length, false, none, work⟩
      (recent ++ [word]).tail := by
  obtain ⟨hcontents, hlength⟩ := h.contents word hwidth hfull
  have htail : (recent ++ [word]).tail.length + 1 = terms.length := by
    rw [List.length_tail, List.length_append, List.length_singleton]
    omega
  exact ⟨Ring.length_slots_push.trans h.slots, Ring.cursor_push_lt h.cursor, by omega,
    fun hlt => absurd hlt (Nat.lt_irrefl _), fun _ => ⟨rfl, htail, by rw [hcontents]⟩⟩

/-- Once the outcome is decided, the words only pass. -/
theorem foldl_step_of_done (h : s.found = true ∨ s.exhausted.isSome = true) :
    words.foldl (step terms equals) s = s := by
  induction words with
  | nil => rfl
  | cons word words ih =>
    have hstep : step terms equals s word = s := if_pos h
    rw [List.foldl_cons, hstep, ih]

/-- The window passes over the words as the oracle over the windows that are left. -/
theorem outcome_foldl (hequal : ∀ w, ∀ t ∈ terms, equals w t = decide (g w = t))
    (hwidth : terms.length ≤ 64) (h : s.Holds terms recent) (hfound : s.found = false)
    (hexhausted : s.exhausted = none) :
    (words.foldl (step terms equals) s).outcome =
      (findPhrase terms ((recent ++ words).map g) s.work).map Prod.fst := by
  induction words generalizing s recent with
  | nil =>
    rw [List.append_nil, findPhrase_of_length_lt (by rw [List.length_map]; exact h.short),
      List.foldl_nil, outcome, hexhausted, hfound]
    rfl
  | cons word words ih =>
    have hopen : ¬ (s.found = true ∨ s.exhausted.isSome = true) := by
      rw [hfound, hexhausted]
      exact fun h => h.elim nofun nofun
    have hle : s.filled ≤ terms.length := by
      by_cases hlt : s.filled < terms.length
      · exact Nat.le_of_lt hlt
      · exact Nat.le_of_eq (h.full hlt).1
    rw [List.foldl_cons, step, if_neg hopen]
    by_cases hfill : s.filled + 1 < terms.length
    · have hmin : min (s.filled + 1) terms.length = s.filled + 1 := Nat.min_eq_left (by omega)
      simp only [hmin]
      rw [if_pos (Nat.ne_of_lt hfill), ih (h.fill hwidth hfill) hfound hexhausted,
        List.append_assoc]
      rfl
    · obtain ⟨hcontents, hlength⟩ := h.contents word hwidth hfill
      have hwindow : (recent ++ [word]).length = terms.length := by
        rw [List.length_append]
        exact hlength
      have hmin : min (s.filled + 1) terms.length = terms.length := Nat.min_eq_right (by omega)
      have hcompare := compareWindow_eq hequal words hwindow s.work
      simp only [hmin, hcontents]
      rw [if_neg (not_not_intro rfl), hcompare]
      obtain ⟨token, tokens, htokens⟩ : ∃ token tokens,
          (recent ++ [word]) = token :: tokens :=
        List.exists_cons_of_ne_nil (List.append_ne_nil_of_right_ne_nil _ (List.cons_ne_nil _ _))
      have hsplit : recent ++ word :: words = token :: (tokens ++ words) := by
        rw [← List.cons_append, ← htokens, List.append_assoc]
        rfl
      have hroom : ¬ (g token :: (tokens ++ words).map g).length < terms.length := by
        have := congrArg List.length htokens
        simp only [List.length_append, List.length_cons, List.length_map, List.length_nil] at this ⊢
        omega
      rw [hsplit, htokens, List.cons_append, List.map_cons, findPhrase, if_neg hroom]
      cases hc : compareTerms terms (g token :: (tokens ++ words).map g) s.work with
      | error e =>
        rw [foldl_step_of_done (.inr rfl)]
        rfl
      | ok r =>
        obtain ⟨equal, work⟩ := r
        cases equal with
        | true =>
          rw [foldl_step_of_done (.inl rfl)]
          rfl
        | false =>
          have hslide := h.slide word work hwidth hfill
          rw [htokens] at hslide
          exact ih hslide rfl rfl

end PhraseWindow

/-- The matcher for one phrase checks every word and then answers as the search for a window. -/
theorem matchPhraseWords_eq (hne : terms ≠ []) (hwidth : terms.length ≤ 64)
    (hequal : ∀ w, ∀ t ∈ terms, equals w t = decide (g w = t)) (words : List Str) (maxSteps : ℕ) :
    matchPhraseWords words terms limits maxSteps equals = (do
      checkWords limits 0 words
      let work ← charge 1 maxSteps
      let (found, _) ← findPhrase terms (words.map g) work
      .ok found) := by
  have hpos := List.length_pos_iff.2 hne
  simp only [matchPhraseWords, matchPhraseFrom_eq (Nat.zero_le _)]
  cases checkWords limits 0 words with
  | error e => rfl
  | ok u =>
    cases maxSteps with
    | zero =>
      simp only [charge_zero, ok_bind]
      rw [PhraseWindow.foldl_step_of_done (.inr rfl)]
      rfl
    | succ work =>
      have hempty : PhraseWindow.Holds terms
          ⟨⟨List.replicate 64 [], 0⟩, 0, false, none, work⟩ [] :=
        ⟨List.length_replicate, hpos, hpos, fun _ => ⟨rfl, rfl, rfl⟩, fun h => absurd hpos h⟩
      simp only [charge_succ, ok_bind]
      rw [PhraseWindow.outcome_foldl hequal hwidth hempty rfl rfl, List.nil_append]
      cases findPhrase terms (words.map g) work with
      | error e => rfl
      | ok r => rfl

end Phrase

/-! ### Rechecking a text -/

variable {U}

theorem isAscii_append {s t : Str} : isAscii (s ++ t) = (isAscii s && isAscii t) := List.all_append

/-- The words of an ASCII text are ASCII. -/
theorem isAscii_of_mem_unicodeWords (hU : U.Lawful) {text word : Str} (h : isAscii text = true)
    (hword : word ∈ U.unicodeWords text) : isAscii word = true := by
  rw [hU.words] at hword
  obtain ⟨entry, hentry, rfl⟩ := List.mem_map.1 hword
  obtain ⟨before, after, hslice, -⟩ := hU.slices _ entry hentry
  rw [hslice, isAscii_append, isAscii_append, Bool.and_eq_true, Bool.and_eq_true] at h
  exact h.1.2

/-- After normalization the analysis checks the words and returns their terms, unless it runs out
of memory. -/
theorem analyze_bind (hU : U.Lawful) {text normalized : Str} {peak : ℕ} {budget : MemoryBudget}
    (f : Document → Except Error Bool) (hinput : checkInput U text limits = .ok ())
    (hprofile : profileText U text limits.normalizedBytes (MemoryBudget.new limits.memoryBytes) =
      .ok (normalized, peak, budget)) (hlen : ¬ u32Limit ≤ normalized.len) :
    (Analyzed.analyze U text limits >>= fun a => f a.document) = .error .budget ∨
      (Analyzed.analyze U text limits >>= fun a => f a.document) =
        (checkWords limits 0 (U.unicodeWords normalized) >>= fun _ =>
          f ((U.unicodeWords normalized).map Str.bytes)) := by
  have hanalyze : Analyzed.analyze U text limits =
      (tokenize limits (U.unicodeWordIndices normalized) [] 0 budget >>= fun r =>
        .ok ⟨normalized, r.1, r.2.used, max peak r.2.used⟩) := by
    rw [Analyzed.analyze, hinput, ok_bind, hprofile, ok_bind]
    simp only
    rw [if_neg hlen]
  have hcases := tokenize_cases limits (U.unicodeWordIndices normalized) [] 0 budget
  rw [← hU.words, List.length_nil] at hcases
  rcases hcases with hbudget | ⟨e, hcheck, htokens⟩ | ⟨hcheck, r, htokens⟩
  · rw [hanalyze, hbudget]
    exact .inl rfl
  · rw [hanalyze, htokens, hcheck]
    exact .inr rfl
  · rw [htokens, ok_bind] at hanalyze
    rw [hanalyze, hcheck, ok_bind, ok_bind, document_analyze hU hanalyze]
    exact .inr rfl

/-- ASCII text is lowered, unless the buffer does not fit. -/
theorem profileText_ascii {text : Str} (hascii : isAscii text = true) (limit : ℕ)
    (budget : MemoryBudget) :
    profileText U text limit budget = .error .budget ∨
      ∃ peak budget', profileText U text limit budget =
        if limit < text.len then .error (.limit "normalized bytes")
        else .ok (text.map toAsciiLowercase, peak, budget') := by
  have hfits : 0 + min text.len limit ≤ limit := by omega
  rcases reserve_cases 0 1 budget hfits with hbudget | ⟨⟨capacity, budget'⟩, hreserve⟩
  · rw [profileText, hbudget]
    exact .inl rfl
  · rw [profileText, hreserve, ok_bind]
    exact .inr ⟨budget'.used, budget', if_pos hascii⟩

section

variable {text : Str} {terms : List Text} {f : Document → Except Error Bool}
  {worker : List Str → (Str → Text → Bool) → Except Error Bool}

/-- Comparing raw ASCII words without case is comparing the analysed words. -/
theorem recheck_ascii (hU : U.Lawful) (hterms : ∀ t ∈ terms, Analysed U t)
    (hworker : ∀ words (equals : Str → Text → Bool) (g : Str → Text),
      (∀ w, ∀ t ∈ terms, equals w t = decide (g w = t)) →
      worker words equals = (checkWords limits 0 words >>= fun _ => f (words.map g)))
    (hmem : (Analyzed.analyze U text limits >>= fun a => f a.document) ≠ .error .budget)
    (hinput : checkInput U text limits = .ok ()) (hascii : isAscii text = true) :
    recheck U text limits worker =
      (Analyzed.analyze U text limits >>= fun a => f a.document) := by
  have hsame : Str.len (text.map toAsciiLowercase) = text.len := len_map_toAsciiLowercase text
  rw [recheck, hinput, ok_bind, if_pos hascii]
  rcases profileText_ascii hascii limits.normalizedBytes (MemoryBudget.new limits.memoryBytes)
    with hbudget | ⟨peak, budget, hprofile⟩
  · refine absurd ?_ hmem
    rw [Analyzed.analyze, hinput, ok_bind, hbudget]
    rfl
  by_cases hlimit : limits.normalizedBytes < text.len
  · rw [if_pos hlimit] at hprofile ⊢
    rw [Analyzed.analyze, hinput, ok_bind, hprofile]
    rfl
  rw [if_neg hlimit] at hprofile ⊢
  by_cases hlen : u32Limit ≤ text.len
  · rw [if_pos hlen, Analyzed.analyze, hinput, ok_bind, hprofile, ok_bind]
    simp only
    rw [if_pos (by rw [hsame]; exact hlen)]
    rfl
  rw [if_neg hlen]
  rcases analyze_bind hU f hinput hprofile (by rw [hsame]; exact hlen) with h | h
  · exact absurd h hmem
  · have hequal : ∀ w, ∀ t ∈ terms, eqIgnoreAsciiCase (Str.bytes w) t =
        decide ((Str.bytes w).map lowerByte = t) := by
      intro w t ht
      rw [eqIgnoreAsciiCase, map_lowerByte_of_lower ((hterms t ht).lower hU)]
    have hwords : (U.unicodeWords text).map (fun w => (Str.bytes w).map lowerByte) =
        (U.unicodeWords text).map (Str.bytes ∘ List.map toAsciiLowercase) :=
      List.map_congr_left fun w hw => map_lowerByte (isAscii_of_mem_unicodeWords hU hascii hw)
    rw [h, hworker _ _ _ hequal, hU.lowercase _ hascii, checkWords_map_toAsciiLowercase,
      List.map_map, hwords]

theorem recheck_unicode (hU : U.Lawful)
    (hworker : ∀ words (equals : Str → Text → Bool) (g : Str → Text),
      (∀ w, ∀ t ∈ terms, equals w t = decide (g w = t)) →
      worker words equals = (checkWords limits 0 words >>= fun _ => f (words.map g)))
    (hmem : (Analyzed.analyze U text limits >>= fun a => f a.document) ≠ .error .budget)
    (hinput : checkInput U text limits = .ok ()) (hascii : ¬ isAscii text = true) :
    recheck U text limits worker =
      (Analyzed.analyze U text limits >>= fun a => f a.document) := by
  rw [recheck, hinput, ok_bind, if_neg hascii]
  cases hprofile : profileText U text limits.normalizedBytes
      (MemoryBudget.new limits.memoryBytes) with
  | error e =>
    rw [Analyzed.analyze, hinput, ok_bind, hprofile]
    rfl
  | ok r =>
    obtain ⟨normalized, peak, budget⟩ := r
    rw [ok_bind]
    simp only
    by_cases hlen : u32Limit ≤ normalized.len
    · rw [if_pos hlen, Analyzed.analyze, hinput, ok_bind, hprofile, ok_bind]
      simp only
      rw [if_pos hlen]
      rfl
    · rw [if_neg hlen]
      rcases analyze_bind hU f hinput hprofile hlen with h | h
      · exact absurd h hmem
      · rw [h]
        exact hworker _ _ _ fun w t _ => Bool.beq_eq_decide_eq _ _

/-- A shared part followed by a worker that checks the words and then runs `f` on the terms agrees
with the analysis followed by `f`, unless the analysis runs out of memory. -/
theorem recheck_eq (hU : U.Lawful) (hterms : ∀ t ∈ terms, Analysed U t)
    (hworker : ∀ words (equals : Str → Text → Bool) (g : Str → Text),
      (∀ w, ∀ t ∈ terms, equals w t = decide (g w = t)) →
      worker words equals = (checkWords limits 0 words >>= fun _ => f (words.map g)))
    (hmem : (Analyzed.analyze U text limits >>= fun a => f a.document) ≠ .error .budget) :
    recheck U text limits worker =
      (Analyzed.analyze U text limits >>= fun a => f a.document) := by
  cases hinput : checkInput U text limits with
  | error e =>
    rw [recheck, Analyzed.analyze, hinput]
    rfl
  | ok u =>
    by_cases hascii : isAscii text = true
    · exact recheck_ascii hU hterms hworker hmem hinput hascii
    · exact recheck_unicode hU hworker hmem hinput hascii

end

/-! ### The oracle on one node -/

/-- For a single term or phrase the oracle charges the node and searches the document. -/
theorem oracleMatches_single {q : Query} {kind : Kind} (hq : q.nodes = [kind]) {memoryBytes : ℕ}
    (hfits : 1 ≤ memoryBytes) (d : Document) (maxSteps : ℕ) :
    oracleMatches d q memoryBytes maxSteps = (do
      let work ← charge 1 maxSteps
      let (value, _) ← oracleValue d [] kind work
      .ok value) := by
  have hroot : q.root = 0 := by
    have := q.root_last
    rw [hq] at this
    exact Nat.succ.inj this
  have hvector : (MemoryBudget.new memoryBytes).vector q.nodeCount 1 =
      .ok ⟨memoryBytes, 1⟩ := by
    rw [Query.nodeCount, hq]
    exact if_pos hfits
  rw [oracleMatches, hvector, ok_bind, hq, oracleFrom, hroot]
  cases charge 1 maxSteps with
  | error e => rfl
  | ok work =>
    simp only [ok_bind]
    cases oracleValue d [] kind work with
    | error e => rfl
    | ok r => rfl

/-- A matcher that checks the words and then answers as the oracle's node agrees with the two-phase
reference. -/
theorem recheck_eq_analyzeThenOracle (hU : U.Lawful) {q : Query} {kind : Kind}
    (hq : q.nodes = [kind]) (hterms : q.Analysed U) {text : Str} {memoryBytes maxSteps : ℕ}
    {worker : List Str → (Str → Text → Bool) → Except Error Bool}
    (hworker : ∀ words (equals : Str → Text → Bool) (g : Str → Text),
      (∀ w, ∀ t ∈ kind.texts, equals w t = decide (g w = t)) →
      worker words equals = (do
        checkWords limits 0 words
        let work ← charge 1 maxSteps
        let (value, _) ← oracleValue (words.map g) [] kind work
        .ok value))
    (hmem : analyzeThenOracle U q text limits memoryBytes maxSteps ≠ .error .budget) :
    recheck U text limits worker = analyzeThenOracle U q text limits memoryBytes maxSteps := by
  have hkind : ∀ t ∈ kind.texts, Analysed U t := hterms kind (by rw [hq]; exact List.mem_cons_self)
  let f : Document → Except Error Bool := fun d => do
    let work ← charge 1 maxSteps
    let (value, _) ← oracleValue d [] kind work
    .ok value
  have hreference : (Analyzed.analyze U text limits >>= fun a => f a.document) =
      analyzeThenOracle U q text limits memoryBytes maxSteps := by
    unfold analyzeThenOracle at hmem ⊢
    cases ha : Analyzed.analyze U text limits with
    | error e => rfl
    | ok a =>
      rw [ha, ok_bind] at hmem
      have hfits : 1 ≤ memoryBytes := by
        by_contra hnot
        have hvector : (MemoryBudget.new memoryBytes).vector q.nodeCount 1 = .error .budget := by
          rw [Query.nodeCount, hq]
          exact if_neg hnot
        rw [oracleMatches, hvector] at hmem
        exact hmem rfl
      exact (oracleMatches_single hq hfits a.document maxSteps).symm
  rw [← hreference] at hmem ⊢
  exact recheck_eq hU hkind hworker hmem

/-- Both matchers exist for the queries they are for, and return what the analysis followed by the
oracle returns, which limit is exceeded included, unless that reference runs out of memory. -/
theorem matchers_eq_analyzeThenOracle (hU : U.Lawful) {q : Query} (hterms : q.Analysed U)
    (text : Str) (limits : AnalysisLimits) (memoryBytes maxSteps : ℕ)
    (hmem : analyzeThenOracle U q text limits memoryBytes maxSteps ≠ .error .budget) :
    (∀ t, q.nodes = [.term t] → ∃ m, SingleTermMatcher.new q = some m ∧
      m.matchesText U text limits maxSteps =
        analyzeThenOracle U q text limits memoryBytes maxSteps) ∧
    ∀ ts, q.nodes = [.phrase ts] → ts.length ≤ 64 → ∃ m, PhraseMatcher.new q = some m ∧
      m.matchesText U text limits maxSteps =
        analyzeThenOracle U q text limits memoryBytes maxSteps := by
  have hroot : ∀ kind, q.nodes = [kind] → q.nodeCount = 1 ∧ q.rootKind = kind := by
    intro kind hq
    have hlast := q.root_last
    rw [hq, List.length_singleton] at hlast
    rw [Query.nodeCount, Query.rootKind, hq, Nat.succ.inj hlast]
    exact ⟨rfl, rfl⟩
  refine ⟨fun t hq => ⟨⟨t⟩, ?_, ?_⟩, fun ts hq hlength => ⟨⟨ts⟩, ?_, ?_⟩⟩
  · rw [SingleTermMatcher.new, if_neg (not_not_intro (hroot _ hq).1), (hroot _ hq).2]
  · refine recheck_eq_analyzeThenOracle hU hq hterms (fun words equals g hequal => ?_) hmem
    refine matchWords_eq (fun w => ?_) words maxSteps
    rw [hequal w t (List.mem_singleton.2 rfl)]
    exact (Bool.beq_eq_decide_eq _ _).symm
  · have hne : ts ≠ [] := q.phrase_ne ts (by rw [hq]; exact List.mem_cons_self)
    rw [PhraseMatcher.new, if_neg (not_not_intro (hroot _ hq).1), (hroot _ hq).2]
    exact if_pos ⟨hne, hlength⟩
  · have hne : ts ≠ [] := q.phrase_ne ts (by rw [hq]; exact List.mem_cons_self)
    exact recheck_eq_analyzeThenOracle hU hq hterms
      (fun words equals g hequal => matchPhraseWords_eq hne hlength hequal words maxSteps) hmem

/-! ### An instance for ASCII -/

/-- The runs of letters and digits with their byte indices; `run` is open and starts at `index`. -/
def alphanumRuns : ℕ → Str → Str → List (ℕ × Str)
  | index, run, [] => if run = [] then [] else [(index, run)]
  | index, run, c :: s =>
    if c.isAlphanum then alphanumRuns index (run ++ [c]) s
    else if run = [] then alphanumRuns (index + Str.len [c]) [] s
    else (index, run) :: alphanumRuns (index + Str.len (run ++ [c])) [] s

/-- Unicode functions that behave as the crates do on ASCII text. -/
def asciiUnicode : Unicode where
  normalizationVersion := (16, 0, 0)
  segmentationVersion := (16, 0, 0)
  caseVersion := (16, 0, 0)
  canonicalCombiningClass _ := 0
  compose _ _ := none
  decomposeCanonical c := [c]
  caseFolded c := if c.isUpper then some (c.toNat + 32) else none
  unicodeWords s := (alphanumRuns 0 [] s).map Prod.snd
  unicodeWordIndices := alphanumRuns 0 []

theorem alphanumRuns_slices {before run s : Str} {index : ℕ} (hindex : index = before.len) :
    ∀ word ∈ alphanumRuns index run s, ∃ first last,
      before ++ run ++ s = first ++ word.2 ++ last ∧ word.1 = first.len := by
  have hlen : ∀ a b : Str, Str.len (a ++ b) = a.len + b.len := fun a b => by
    rw [Str.len, Str.bytes_append, List.length_append]
    rfl
  induction s generalizing before run index with
  | nil =>
    intro word hword
    unfold alphanumRuns at hword
    split_ifs at hword
    · cases hword
    · rw [List.mem_singleton.1 hword]
      exact ⟨before, [], rfl, hindex⟩
  | cons c s ih =>
    intro word hword
    unfold alphanumRuns at hword
    split_ifs at hword with hc hrun
    · have := ih hindex word hword
      rwa [← List.append_assoc, List.append_assoc (before ++ run)] at this
    · have hnext : index + Str.len [c] = Str.len (before ++ [c]) := by rw [hlen, hindex]
      have := ih hnext word hword
      rw [List.append_nil, List.append_assoc] at this
      rwa [hrun, List.append_nil]
    · rcases List.mem_cons.1 hword with rfl | hword
      · exact ⟨before, c :: s, rfl, hindex⟩
      · have hnext : index + Str.len (run ++ [c]) = Str.len (before ++ (run ++ [c])) := by
          rw [hlen before, hindex]
        have := ih hnext word hword
        rwa [List.append_nil, List.append_assoc, List.append_assoc,
          ← List.append_assoc before] at this

theorem isAlphanum_toAsciiLowercase (c : Char) :
    (toAsciiLowercase c).isAlphanum = c.isAlphanum := by
  by_cases h : c.isUpper = true
  · have hrange := isUpper_iff.1 h
    have hlow := toNat_toAsciiLowercase h
    have hlower : (toAsciiLowercase c).isLower = true := by
      refine Bool.and_eq_true_iff.2 ⟨decide_eq_true ?_, decide_eq_true ?_⟩
      · change 97 ≤ (toAsciiLowercase c).toNat
        omega
      · change (toAsciiLowercase c).toNat ≤ 122
        omega
    change (((toAsciiLowercase c).isUpper || (toAsciiLowercase c).isLower) ||
      (toAsciiLowercase c).isDigit) = ((c.isUpper || c.isLower) || c.isDigit)
    rw [h, hlower, Bool.or_true, Bool.true_or, Bool.true_or, Bool.true_or]
  · rw [toAsciiLowercase, if_neg h]

theorem alphanumRuns_lowercase (run s : Str) (i j : ℕ) :
    (alphanumRuns i (run.map toAsciiLowercase) (s.map toAsciiLowercase)).map Prod.snd =
      ((alphanumRuns j run s).map Prod.snd).map (List.map toAsciiLowercase) := by
  induction s generalizing run i j with
  | nil =>
    rw [List.map_nil, alphanumRuns, alphanumRuns]
    by_cases hrun : run = []
    · rw [hrun]
      rfl
    · rw [if_neg hrun, if_neg (mt List.map_eq_nil_iff.1 hrun)]
      rfl
  | cons c s ih =>
    rw [List.map_cons, alphanumRuns, alphanumRuns, isAlphanum_toAsciiLowercase]
    by_cases hc : c.isAlphanum = true
    · rw [if_pos hc, if_pos hc, ← ih (run ++ [c]) i j, List.map_append, List.map_singleton]
    · rw [if_neg hc, if_neg hc]
      by_cases hrun : run = []
      · rw [hrun]
        exact ih [] _ _
      · rw [if_neg hrun, if_neg (mt List.map_eq_nil_iff.1 hrun), List.map_cons, List.map_cons,
          List.map_cons]
        congr 1
        exact ih [] _ _

theorem asciiUnicode_lawful : asciiUnicode.Lawful where
  words _ := rfl
  slices s word hword := by
    have hzero : (0 : ℕ) = Str.len [] := rfl
    have := alphanumRuns_slices hzero word hword
    rwa [List.append_nil, List.nil_append] at this
  lowercase s _ := alphanumRuns_lowercase [] s 0 0
  composed _ _ _ h := by cases h
  decomposed c f h := by
    refine .inl fun x hx => ?_
    rw [List.mem_singleton.1 hx]
    have hf : fold asciiUnicode c = .ok (toAsciiLowercase c) := by
      unfold fold asciiUnicode toAsciiLowercase
      by_cases hc : c.isUpper = true
      · have hrange := isUpper_iff.1 hc
        have hv : (c.toNat + 32).isValidChar := .inl (by omega)
        simp only [if_pos hc, if_pos hv]
      · simp only [if_neg hc]
    rw [hf] at h
    cases h
    exact isUpper_toAsciiLowercase c

/-- The query `"b c"`. -/
def phraseBC : Query where
  nodes := [.phrase [Str.bytes ['b'], Str.bytes ['c']]]
  root := 0
  root_last := rfl
  child_lt := by
    intro i k hk c hc
    cases i with
    | zero =>
      cases hk
      cases hc
    | succ i => cases hk
  child_nodup := List.nodup_nil
  phrase_ne := by
    intro ts hts
    cases List.mem_singleton.1 hts
    exact List.cons_ne_nil _ _

set_option maxRecDepth 10000 in
theorem phraseBC_analysed : phraseBC.Analysed asciiUnicode := by
  intro k hk t ht
  rw [List.mem_singleton.1 hk] at ht
  have htext : ∃ a, Analyzed.analyze asciiUnicode ['b', ' ', 'c'] default = .ok a ∧
      a.document = [Str.bytes ['b'], Str.bytes ['c']] := ⟨_, rfl, by decide +kernel⟩
  obtain ⟨a, ha, hdoc⟩ := htext
  exact ⟨_, _, a, ha, by rw [hdoc]; exact ht⟩

theorem matchers_bc :
    (∃ m, PhraseMatcher.new phraseBC = some m ∧
      m.matchesText asciiUnicode ['a', ' ', 'B', '-', 'C'] default 9 = .ok true) ∧
    ∃ m, PhraseMatcher.new phraseBC = some m ∧
      m.matchesText asciiUnicode ['a', ' ', 'B', '-', 'C'] default 3 =
        .error (.limit "search work") := by
  have hyes : analyzeThenOracle asciiUnicode phraseBC ['a', ' ', 'B', '-', 'C'] default 64 9 =
      .ok true := by decide +kernel
  have hwork : analyzeThenOracle asciiUnicode phraseBC ['a', ' ', 'B', '-', 'C'] default 64 3 =
      .error (.limit "search work") := by decide +kernel
  have h := (matchers_eq_analyzeThenOracle asciiUnicode_lawful phraseBC_analysed
    ['a', ' ', 'B', '-', 'C'] default 64 9 (by rw [hyes]; exact nofun)).2 _ rfl (by decide)
  have h' := (matchers_eq_analyzeThenOracle asciiUnicode_lawful phraseBC_analysed
    ['a', ' ', 'B', '-', 'C'] default 64 3 (by rw [hwork]; exact nofun)).2 _ rfl (by decide)
  rw [hyes] at h
  rw [hwork] at h'
  exact ⟨h, h'⟩

end PinCore
