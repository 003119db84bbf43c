import PinCore.Analysis.Normalize

/-!
# Analysis

`Analyzed.analyze` checks the limits of a text, normalizes it and records the byte ranges of its
words.  `Analyzed.document` is the sequence of terms those ranges cut out.
-/

namespace PinCore

/-- The limits of an analysis. -/
structure AnalysisLimits where
  inputBytes : ℕ
  normalizedBytes : ℕ
  tokens : ℕ
  termBytes : ℕ
  memoryBytes : ℕ

instance : Inhabited AnalysisLimits := ⟨1048576, 2097152, 262144, 1024, 8388608⟩

/-- The bytes of a token in the normalized text. -/
structure TokenRange where
  first : ℕ
  last : ℕ

/-- An analysed text: the normalized text with the ranges of its words. -/
structure Analyzed where
  normalized : Str
  tokens : List TokenRange
  retainedBytes : ℕ
  peakBytes : ℕ

/-- The terms in order; the position of a token is its index. -/
def Analyzed.document (a : Analyzed) : Document :=
  a.tokens.map fun range => ((Str.bytes a.normalized).drop range.first).take
    (range.last - range.first)

variable (U : Unicode)

/-- Checks the versions of the tables and the length of the text. -/
def checkInput (text : Str) (limits : AnalysisLimits) : Except Error Unit :=
  if U.normalizationVersion ≠ (16, 0, 0) ∨ U.segmentationVersion ≠ (16, 0, 0) ∨
      U.caseVersion ≠ (16, 0, 0) then .error .invalidProfile
  else if limits.inputBytes < text.len then .error (.limit "document bytes")
  else .ok ()

/-- Records the words; byte indices are stored in 32 bits. -/
def tokenize (limits : AnalysisLimits) :
    List (ℕ × Str) → List TokenRange → ℕ → MemoryBudget →
      Except Error (List TokenRange × MemoryBudget)
  | [], tokens, _, budget => .ok (tokens, budget)
  | (start, term) :: rest, tokens, capacity, budget =>
    if limits.termBytes < term.len then .error (.limit "term bytes")
    else do
      let (capacity, budget) ← reserve tokens.length capacity 1 limits.tokens 8 budget
      tokenize limits rest
        (tokens ++ [⟨start % u32Limit, (start + term.len) % u32Limit⟩]) capacity budget

/-- Analyses a text within the limits. -/
def Analyzed.analyze (text : Str) (limits : AnalysisLimits) : Except Error Analyzed := do
  checkInput U text limits
  let (normalized, peak, budget) ← profileText U text limits.normalizedBytes
    (MemoryBudget.new limits.memoryBytes)
  if u32Limit ≤ normalized.len then .error (.limit "normalized bytes")
  else do
    let (tokens, budget) ← tokenize limits (U.unicodeWordIndices normalized) [] 0 budget
    .ok ⟨normalized, tokens, budget.used, max peak budget.used⟩

/-- The term is a token of some analysed text. -/
def Analysed (t : Text) : Prop :=
  ∃ text limits a, Analyzed.analyze U text limits = .ok a ∧ t ∈ a.document

/-! ### Bytes -/

theorem Str.bytes_append (s t : Str) : Str.bytes (s ++ t) = Str.bytes s ++ Str.bytes t :=
  List.flatMap_append

theorem Str.bytes_cons (c : Char) (s : Str) :
    Str.bytes (c :: s) = String.utf8EncodeChar c ++ Str.bytes s := rfl

/-- No byte of a scalar that is no ASCII capital is one. -/
theorem utf8EncodeChar_lower {c : Char} (h : Nfc.Lower c) {b : UInt8}
    (hb : b ∈ String.utf8EncodeChar c) : b.toNat < 65 ∨ 90 < b.toNat := by
  have hc : ¬ (65 ≤ c.toNat ∧ c.toNat ≤ 90) := by
    rw [← isUpper_iff, Bool.not_eq_true]
    exact h
  have hv : c.val.toNat = c.toNat := rfl
  unfold String.utf8EncodeChar at hb
  simp only [hv] at hb
  split_ifs at hb <;> simp only [List.mem_cons, List.not_mem_nil, or_false] at hb
  · rw [hb, UInt8.toNat_ofNat']
    omega
  · rcases hb with rfl | rfl <;> rw [UInt8.toNat_ofNat'] <;> omega
  · rcases hb with rfl | rfl | rfl <;> rw [UInt8.toNat_ofNat'] <;> omega
  · rcases hb with rfl | rfl | rfl | rfl <;> rw [UInt8.toNat_ofNat'] <;> omega

/-- Lowering a letter keeps the number of bytes. -/
theorem length_toAsciiLowercase (c : Char) :
    (String.utf8EncodeChar (toAsciiLowercase c)).length = (String.utf8EncodeChar c).length := by
  by_cases h : c.isUpper = true
  · obtain ⟨h65, h90⟩ := isUpper_iff.1 h
    have hlow : (toAsciiLowercase c).val.toNat = c.toNat + 32 := toNat_toAsciiLowercase h
    have hv : c.val.toNat = c.toNat := rfl
    unfold String.utf8EncodeChar
    simp only [hlow, hv]
    rw [if_pos (by omega), if_pos (by omega)]
    rfl
  · rw [toAsciiLowercase, if_neg h]

theorem len_map_toAsciiLowercase (s : Str) : Str.len (s.map toAsciiLowercase) = s.len := by
  unfold Str.len
  induction s with
  | nil => rfl
  | cons c s ih =>
    rw [List.map_cons, Str.bytes_cons, Str.bytes_cons, List.length_append, List.length_append, ih,
      length_toAsciiLowercase]

/-! ### The terms of a document -/

variable {U} {limits : AnalysisLimits}

/-- The byte range of a word. -/
def TokenRange.ofWord (word : ℕ × Str) : TokenRange :=
  ⟨word.1 % u32Limit, (word.1 + word.2.len) % u32Limit⟩

theorem tokens_tokenize {words : List (ℕ × Str)} {tokens tokens' : List TokenRange} {capacity : ℕ}
    {budget budget' : MemoryBudget}
    (h : tokenize limits words tokens capacity budget = .ok (tokens', budget')) :
    tokens' = tokens ++ words.map TokenRange.ofWord := by
  induction words generalizing tokens capacity budget with
  | nil =>
    cases h
    rw [List.map_nil, List.append_nil]
  | cons word words ih =>
    obtain ⟨start, term⟩ := word
    unfold tokenize at h
    split_ifs at h
    obtain ⟨⟨capacity', budget''⟩, -, h⟩ := ok_of_bind h
    rw [ih h, List.append_assoc]
    rfl

/-- What a successful analysis computed. -/
theorem of_analyze {text : Str} {a : Analyzed} (h : Analyzed.analyze U text limits = .ok a) :
    ∃ peak budget, profileText U text limits.normalizedBytes
        (MemoryBudget.new limits.memoryBytes) = .ok (a.normalized, peak, budget) ∧
      a.normalized.len < u32Limit ∧
      a.tokens = (U.unicodeWordIndices a.normalized).map TokenRange.ofWord := by
  obtain ⟨_, -, h⟩ := ok_of_bind h
  obtain ⟨⟨normalized, peak, budget⟩, hprofile, h⟩ := ok_of_bind h
  simp only at h
  split_ifs at h with hlen
  obtain ⟨⟨tokens, budget'⟩, htokens, h⟩ := ok_of_bind h
  cases h
  exact ⟨peak, budget, hprofile, Nat.not_le.1 hlen, by rw [tokens_tokenize htokens]; rfl⟩

/-- The ranges cut the words out of the text. -/
theorem document_analyze (hU : U.Lawful) {text : Str} {a : Analyzed}
    (h : Analyzed.analyze U text limits = .ok a) :
    a.document = (U.unicodeWords a.normalized).map Str.bytes := by
  obtain ⟨peak, budget, -, hlen, htokens⟩ := of_analyze h
  rw [Analyzed.document, htokens, hU.words, List.map_map, List.map_map]
  refine List.map_congr_left fun word hword => ?_
  obtain ⟨before, after, hslice, hstart⟩ := hU.slices _ word hword
  have hsum : before.len + word.2.len ≤ a.normalized.len := by
    rw [hslice]
    simp only [Str.len, Str.bytes_append, List.length_append]
    omega
  have hfirst : word.1 % u32Limit = before.len := by
    rw [hstart, Nat.mod_eq_of_lt (by omega)]
  have hlast : (word.1 + word.2.len) % u32Limit = before.len + word.2.len := by
    rw [hstart, Nat.mod_eq_of_lt (by omega)]
  simp only [Function.comp_apply, TokenRange.ofWord, hfirst, hlast, Nat.add_sub_cancel_left]
  rw [hslice, Str.bytes_append, Str.bytes_append, List.append_assoc, Str.len, Str.len,
    List.drop_left, List.take_left]

/-- No byte of a term is an ASCII capital. -/
theorem Analysed.lower (hU : U.Lawful) {t : Text} (ht : Analysed U t) :
    ∀ b ∈ t, b.toNat < 65 ∨ 90 < b.toNat := by
  obtain ⟨text, limits, a, ha, ht⟩ := ht
  rw [document_analyze hU ha] at ht
  obtain ⟨word, hword, rfl⟩ := List.mem_map.1 ht
  obtain ⟨peak, budget, hprofile, -, -⟩ := of_analyze ha
  rw [hU.words] at hword
  obtain ⟨entry, hentry, rfl⟩ := List.mem_map.1 hword
  obtain ⟨before, after, hslice, -⟩ := hU.slices _ entry hentry
  intro b hb
  obtain ⟨c, hc, hb⟩ := List.mem_flatMap.1 hb
  refine utf8EncodeChar_lower (profileText_lower hU hprofile c ?_) hb
  rw [hslice]
  exact List.mem_append_left _ (List.mem_append_right _ hc)

/-! ### The limits of the words -/

/-- The limits of the words, counted from `count`. -/
def checkWords (limits : AnalysisLimits) : ℕ → List Str → Except Error Unit
  | _, [] => .ok ()
  | count, word :: words =>
    if limits.termBytes < word.len then .error (.limit "term bytes")
    else if limits.tokens ≤ count then .error (.limit "element count")
    else checkWords limits (count + 1) words

theorem checkWords_map_toAsciiLowercase {count : ℕ} {words : List Str} :
    checkWords limits count (words.map (List.map toAsciiLowercase)) =
      checkWords limits count words := by
  induction words generalizing count with
  | nil => rfl
  | cons word words ih =>
    rw [List.map_cons, checkWords, checkWords, len_map_toAsciiLowercase, ih]

/-- The tokens are refused as the words are, unless the budget ends first. -/
theorem tokenize_cases (limits : AnalysisLimits) (words : List (ℕ × Str))
    (tokens : List TokenRange) (capacity : ℕ) (budget : MemoryBudget) :
    tokenize limits words tokens capacity budget = .error .budget ∨
      (∃ e, checkWords limits tokens.length (words.map Prod.snd) = .error e ∧
        tokenize limits words tokens capacity budget = .error e) ∨
      checkWords limits tokens.length (words.map Prod.snd) = .ok () ∧
        ∃ r, tokenize limits words tokens capacity budget = .ok r := by
  induction words generalizing tokens capacity budget with
  | nil => exact .inr (.inr ⟨rfl, _, rfl⟩)
  | cons word words ih =>
    obtain ⟨start, term⟩ := word
    rw [List.map_cons, tokenize, checkWords]
    by_cases hterm : limits.termBytes < term.len
    · rw [if_pos hterm, if_pos hterm]
      exact .inr (.inl ⟨_, rfl, rfl⟩)
    · rw [if_neg hterm, if_neg hterm]
      by_cases hcount : limits.tokens ≤ tokens.length
      · rw [if_pos hcount, reserve_limit _ (Nat.lt_succ_of_le hcount)]
        exact .inr (.inl ⟨_, rfl, rfl⟩)
      · rw [if_neg hcount]
        have hroom : tokens.length + 1 ≤ limits.tokens := Nat.lt_of_not_le hcount
        rcases reserve_cases capacity 8 budget hroom with hr | ⟨⟨capacity', budget'⟩, hr⟩
        · rw [hr]
          exact .inl rfl
        · have := ih (tokens ++ [TokenRange.ofWord (start, term)]) capacity' budget'
          rw [List.length_append] at this
          rw [hr]
          exact this

end PinCore
