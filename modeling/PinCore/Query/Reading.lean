import Mathlib.Data.List.TakeWhile
import PinCore.Query.Parse

/-!
# Reading lexemes

The relations of the grammar as functions of the input: `lexeme` cuts off the first lexeme or space,
and `Reaches` is what the machine of `Precedence` makes of the rest, one lexeme at a time
(`reaches_cons`).
-/

namespace PinCore

namespace QuerySyntax

open Precedence

/-! ### Quoted text -/

/-- The text up to the closing quote, and the input behind it. -/
def unquote : Str → Option (Str × Str)
  | [] => none
  | '"' :: s => some ([], s)
  | ['\\'] => none
  | '\\' :: c :: s =>
    if c = '"' ∨ c = '\\' then (unquote s).map fun x => (c :: x.1, x.2) else none
  | c :: s => (unquote s).map fun x => (c :: x.1, x.2)

section

variable {s text body rest : Str} {c : Char}

theorem unquote_escape (hc : c = '"' ∨ c = '\\') :
    unquote ('\\' :: c :: s) = (unquote s).map fun x => (c :: x.1, x.2) := by
  rw [unquote, if_pos hc]

theorem unquote_plain (hq : c ≠ '"') (hb : c ≠ '\\') :
    unquote (c :: s) = (unquote s).map fun x => (c :: x.1, x.2) := by
  rw [unquote]
  · exact hq
  · exact fun h _ => hb h
  · exact fun _ _ h _ => hb h

theorem Quoted.unquote (h : Quoted body text) :
    QuerySyntax.unquote (body ++ '"' :: rest) = some (text, rest) := by
  induction h with
  | nil => rfl
  | escape hc _ ih =>
    rw [List.cons_append, List.cons_append, unquote_escape hc, ih]
    rfl
  | plain hq hb _ ih =>
    rw [List.cons_append, unquote_plain hq hb, ih]
    rfl

theorem quoted_of_unquote (h : unquote s = some (text, rest)) :
    ∃ body, s = body ++ '"' :: rest ∧ Quoted body text := by
  induction s using unquote.induct generalizing text with
  | case1 => cases h
  | case2 s =>
    cases h
    exact ⟨[], rfl, .nil⟩
  | case3 => cases h
  | case4 c s hc ih =>
    rw [unquote_escape hc] at h
    obtain ⟨⟨text', rest'⟩, hs, hx⟩ := Option.map_eq_some_iff.1 h
    cases hx
    obtain ⟨body, rfl, hbody⟩ := ih hs
    exact ⟨'\\' :: c :: body, rfl, .escape hc hbody⟩
  | case5 c s hc =>
    rw [unquote, if_neg hc] at h
    cases h
  | case6 c s hq hlast hescape ih =>
    have hb : c ≠ '\\' := by
      rintro rfl
      cases s with
      | nil => exact hlast rfl rfl
      | cons c s => exact hescape c s rfl rfl
    rw [unquote_plain hq hb] at h
    obtain ⟨⟨text', rest'⟩, hs, hx⟩ := Option.map_eq_some_iff.1 h
    cases hx
    obtain ⟨body, rfl, hbody⟩ := ih hs
    exact ⟨c :: body, rfl, .plain hq hb hbody⟩

end

/-! ### The first lexeme -/

/-- The first lexeme, or none for a space, and the input behind it. -/
def lexeme (c : Char) (s : Str) : Option (Option Lexeme × Str) :=
  if isSpace c then some (none, s)
  else if c = '(' then some (some .opening, s)
  else if c = ')' then some (some .closing, s)
  else if c = '"' then (unquote s).map fun x => (some (.quoted x.1), x.2)
  else some (some (.word ((c :: s).takeWhile isWord)), (c :: s).dropWhile isWord)

theorem isWord_iff {c : Char} :
    isWord c = true ↔ isSpace c = false ∧ c ≠ '(' ∧ c ≠ ')' ∧ c ≠ '"' := by
  simp [isWord]

section

variable {s rest : Str} {c : Char} {l : Option Lexeme} {ls : List Lexeme}

theorem lexeme_space (hc : isSpace c = true) : lexeme c s = some (none, s) := if_pos hc

theorem lexeme_word (hc : isWord c = true) : lexeme c s =
    some (some (.word ((c :: s).takeWhile isWord)), (c :: s).dropWhile isWord) := by
  obtain ⟨hspace, hopening, hclosing, hquote⟩ := isWord_iff.1 hc
  rw [lexeme, if_neg (by rw [hspace]; exact Bool.false_ne_true), if_neg hopening, if_neg hclosing,
    if_neg hquote]

/-- A word ends where the characters of words end. -/
theorem span_word {raw : Str} (hraw : ∀ c ∈ raw, isWord c = true)
    (hs : ∀ c ∈ s.head?, isWord c = false) :
    (raw ++ s).takeWhile isWord = raw ∧ (raw ++ s).dropWhile isWord = s := by
  rw [List.takeWhile_append_of_pos hraw, List.dropWhile_append_of_pos hraw]
  cases s with
  | nil => exact ⟨List.append_nil raw, rfl⟩
  | cons c s =>
    have hc : ¬ isWord c = true := by
      rw [hs c rfl]
      exact Bool.false_ne_true
    rw [List.takeWhile_cons_of_neg hc, List.dropWhile_cons_of_neg hc]
    exact ⟨List.append_nil raw, rfl⟩

theorem head_dropWhile_word {d : Char} (h : d ∈ (s.dropWhile isWord).head?) :
    isWord d = false := by
  have hnot := List.head?_dropWhile_not isWord s
  rw [Option.mem_def.1 h] at hnot
  exact hnot

theorem Lexes.lexeme (h : Lexes (c :: s) ls) :
    ∃ l rest ls', QuerySyntax.lexeme c s = some (l, rest) ∧ Lexes rest ls' ∧
      ls = l.toList ++ ls' := by
  generalize hinput : c :: s = input at h
  cases h with
  | nil => cases hinput
  | space hc h =>
    cases hinput
    exact ⟨none, _, _, lexeme_space hc, h, rfl⟩
  | opening h =>
    cases hinput
    exact ⟨some .opening, _, _, rfl, h, rfl⟩
  | closing h =>
    cases hinput
    exact ⟨some .closing, _, _, rfl, h, rfl⟩
  | @quoted body text rest ls hbody h =>
    cases hinput
    refine ⟨some (.quoted text), rest, ls, ?_, h, rfl⟩
    change (unquote (body ++ '"' :: rest)).map _ = _
    rw [hbody.unquote]
    rfl
  | @word raw rest ls hne hraw hs h =>
    refine ⟨some (.word raw), rest, ls, ?_, h, rfl⟩
    obtain ⟨htake, hdrop⟩ := span_word hraw hs
    have hc : isWord c = true := by
      cases raw with
      | nil => exact absurd rfl hne
      | cons d raw =>
        cases hinput
        exact hraw c List.mem_cons_self
    rw [lexeme_word hc, hinput, htake, hdrop]

theorem lexes_of_lexeme (hl : lexeme c s = some (l, rest)) (h : Lexes rest ls) :
    Lexes (c :: s) (l.toList ++ ls) := by
  unfold lexeme at hl
  split_ifs at hl with hspace hopening hclosing hquote
  · cases hl
    exact .space hspace h
  · cases hl
    subst hopening
    exact .opening h
  · cases hl
    subst hclosing
    exact .closing h
  · obtain ⟨⟨text, rest⟩, hs, hx⟩ := Option.map_eq_some_iff.1 hl
    cases hx
    obtain ⟨body, rfl, hbody⟩ := quoted_of_unquote hs
    subst hquote
    exact .quoted hbody h
  · cases hl
    have hc : isWord c = true :=
      isWord_iff.2 ⟨Bool.not_eq_true _ ▸ hspace, hopening, hclosing, hquote⟩
    have hne : (c :: s).takeWhile isWord ≠ [] := by
      rw [List.takeWhile_cons_of_pos hc]
      exact List.cons_ne_nil c _
    have hlexes := Lexes.word hne (fun d hd => List.mem_takeWhile_imp hd)
      (fun d hd => head_dropWhile_word hd) h
    rwa [List.takeWhile_append_dropWhile] at hlexes

/-- Every lexeme consumes input. -/
theorem length_lexeme (hl : lexeme c s = some (l, rest)) : rest.length < (c :: s).length := by
  unfold lexeme at hl
  split_ifs at hl with hspace hopening hclosing hquote
  · cases hl
    exact Nat.lt_succ_self _
  · cases hl
    exact Nat.lt_succ_self _
  · cases hl
    exact Nat.lt_succ_self _
  · obtain ⟨⟨text, rest⟩, hs, hx⟩ := Option.map_eq_some_iff.1 hl
    cases hx
    obtain ⟨body, rfl, -⟩ := quoted_of_unquote hs
    simp
    omega
  · cases hl
    have hc : isWord c = true :=
      isWord_iff.2 ⟨Bool.not_eq_true _ ▸ hspace, hopening, hclosing, hquote⟩
    rw [List.dropWhile_cons_of_pos hc]
    exact Nat.lt_succ_of_le (List.dropWhile_sublist isWord).length_le

end

/-! ### Tokens -/

/-- The token of an operator. -/
def OperatorKind.tok : OperatorKind → QueryTok
  | .opening => .opening
  | .not => .unary
  | .and => .binary .and
  | .or => .binary .or

/-- The leaf of a literal whose text yields these terms. -/
def literalOperand (isQuoted isPrefix : Bool) (terms : List Text) : Option Operand :=
  if isQuoted then some (if terms = [] then .none else .phrase terms)
  else
    match terms with
    | [t] => some (if isPrefix then .prefixed t else .term t)
    | _ => none

theorem literalOperand_quoted {isPrefix : Bool} {terms : List Text} :
    literalOperand true isPrefix terms = some (if terms = [] then .none else .phrase terms) := rfl

theorem literalOperand_eq_none {isPrefix : Bool} {terms : List Text} (h : terms.length ≠ 1) :
    literalOperand false isPrefix terms = none := by
  rcases terms with _ | ⟨t, _ | ⟨t', terms⟩⟩
  · rfl
  · exact absurd rfl h
  · rfl

section

variable {U : Unicode} {raw text : Str} {tok tok' : QueryTok} {kind : OperatorKind}

theorem means_quoted : Means U (.quoted text) tok ↔
    ∃ a, (∃ terms, U.Yields text terms ∧ literalOperand true false terms = some a) ∧
      tok = .leaf a := by
  constructor
  · intro h
    cases h with
    | @phrase _ terms ht => exact ⟨_, ⟨terms, ht, rfl⟩, rfl⟩
  · rintro ⟨a, ⟨terms, ht, ha⟩, rfl⟩
    cases ha
    exact .phrase ht

theorem stripStar_concat : stripStar (text ++ ['*']) = (text, true) := by
  rw [stripStar, if_pos List.getLast?_concat, List.dropLast_concat]

theorem stripStar_of_not_mem (h : '*' ∉ raw) : stripStar raw = (raw, false) :=
  if_neg fun hlast => h (List.mem_of_getLast? hlast)

/-- No operator ends with a star. -/
theorem keyword_concat : keyword (text ++ ['*']) = none := by
  have hne : ∀ s : Str, s.getLast? ≠ some '*' → text ++ ['*'] ≠ s := by
    rintro s hs rfl
    exact hs List.getLast?_concat
  rw [keyword, if_neg (hne _ (by decide)), if_neg (hne _ (by decide)), if_neg (hne _ (by decide))]

theorem means_keyword (h : keyword raw = some kind) : Means U (.word raw) tok ↔ tok = kind.tok := by
  have hword : ∀ tok', Means U (.word raw) tok' → tok' = kind.tok := by
    intro tok' hm
    cases hm with
    | not =>
      cases h
      rfl
    | and =>
      cases h
      rfl
    | or =>
      cases h
      rfl
    | term hnot hand hor _ _ =>
      rw [keyword, if_neg hnot, if_neg hand, if_neg hor] at h
      cases h
    | prefixed _ _ =>
      rw [keyword_concat] at h
      cases h
  refine ⟨hword tok, ?_⟩
  rintro rfl
  unfold keyword at h
  split_ifs at h with hnot hand hor
  · cases h
    rw [hnot]
    exact .not
  · cases h
    rw [hand]
    exact .and
  · cases h
    rw [hor]
    exact .or

theorem means_literal (h : keyword raw = none) : Means U (.word raw) tok ↔
    Literal (stripStar raw).1 ∧ ∃ a, (∃ terms, U.Yields (stripStar raw).1 terms ∧
      literalOperand false (stripStar raw).2 terms = some a) ∧ tok = .leaf a := by
  constructor
  · intro hm
    cases hm with
    | not => cases h
    | and => cases h
    | or => cases h
    | @term _ t _ _ _ hraw ht =>
      rw [stripStar_of_not_mem hraw.2.1]
      exact ⟨hraw, .term t, ⟨[t], ht, rfl⟩, rfl⟩
    | @prefixed text t htext ht =>
      rw [stripStar_concat]
      exact ⟨htext, .prefixed t, ⟨[t], ht, rfl⟩, rfl⟩
  · rintro ⟨hliteral, a, ⟨terms, ht, ha⟩, rfl⟩
    obtain ⟨t, rfl⟩ : ∃ t, terms = [t] := by
      rcases terms with _ | ⟨t, _ | ⟨t', terms⟩⟩
      · cases ha
      · exact ⟨t, rfl⟩
      · cases ha
    unfold keyword at h
    split_ifs at h with hnot hand hor
    by_cases hlast : raw.getLast? = some '*'
    · obtain ⟨text, rfl⟩ := List.getLast?_eq_some_iff.1 hlast
      rw [stripStar_concat] at hliteral ht ha
      cases ha
      exact .prefixed hliteral ht
    · rw [stripStar, if_neg hlast] at hliteral ht ha
      cases ha
      exact .term hnot hand hor hliteral ht

theorem Means.unique {l : Lexeme} (h : Means U l tok) (h' : Means U l tok') : tok = tok' := by
  have hoperand : ∀ {text : Str} {isQuoted isPrefix : Bool} {a a' : Operand},
      (∃ terms, U.Yields text terms ∧ literalOperand isQuoted isPrefix terms = some a) →
      (∃ terms, U.Yields text terms ∧ literalOperand isQuoted isPrefix terms = some a') →
      a = a' := by
    rintro text isQuoted isPrefix a a' ⟨terms, ht, ha⟩ ⟨terms', ht', ha'⟩
    rw [ht'.unique ht] at ha'
    exact Option.some.inj (ha.symm.trans ha')
  cases l with
  | opening =>
    cases h
    cases h'
    rfl
  | closing =>
    cases h
    cases h'
    rfl
  | quoted text =>
    obtain ⟨a, ha, rfl⟩ := means_quoted.1 h
    obtain ⟨a', ha', rfl⟩ := means_quoted.1 h'
    rw [hoperand ha ha']
  | word raw =>
    cases hkeyword : keyword raw with
    | some kind => rw [(means_keyword hkeyword).1 h, (means_keyword hkeyword).1 h']
    | none =>
      obtain ⟨-, a, ha, rfl⟩ := (means_literal hkeyword).1 h
      obtain ⟨-, a', ha', rfl⟩ := (means_literal hkeyword).1 h'
      rw [hoperand ha ha']

end

/-! ### Runs of the machine -/

/-- The machine of the grammar over query tokens. -/
abbrev QueryState := Precedence.State Operand Connective

variable (U : Unicode)

/-- The machine reads a lexeme; a space changes nothing. -/
def Steps (m : QueryState) : Option Lexeme → QueryState → Prop
  | none, m' => m' = m
  | some l, m' => ∃ tok, Means U l tok ∧ step levels m tok = some m'

/-- The machine reads the whole input. -/
def Reaches (s : Str) (m m' : QueryState) : Prop :=
  ∃ ls toks, Lexes s ls ∧ List.Forall₂ (Means U) ls toks ∧ run levels m toks = some m'

section

variable {U} {s : Str} {c : Char} {m m' m'' : QueryState} {l : Option Lexeme}

theorem Steps.unique (h : Steps U m l m') (h' : Steps U m l m'') : m' = m'' := by
  cases l with
  | none => exact Eq.trans h (Eq.symm h')
  | some l =>
    obtain ⟨tok, htok, hstep⟩ := h
    obtain ⟨tok', htok', hstep'⟩ := h'
    rw [htok'.unique htok] at hstep'
    exact Option.some.inj (hstep.symm.trans hstep')

theorem steps_opening : Steps U m (some .opening) m' ↔ step levels m .opening = some m' := by
  constructor
  · rintro ⟨tok, htok, hstep⟩
    cases htok
    exact hstep
  · exact fun hstep => ⟨.opening, .opening, hstep⟩

theorem steps_closing : Steps U m (some .closing) m' ↔ step levels m .closing = some m' := by
  constructor
  · rintro ⟨tok, htok, hstep⟩
    cases htok
    exact hstep
  · exact fun hstep => ⟨.closing, .closing, hstep⟩

theorem steps_quoted {text : Str} : Steps U m (some (.quoted text)) m' ↔
    ∃ a, (∃ terms, U.Yields text terms ∧ literalOperand true false terms = some a) ∧
      step levels m (.leaf a) = some m' := by
  constructor
  · rintro ⟨tok, htok, hstep⟩
    obtain ⟨a, ha, rfl⟩ := means_quoted.1 htok
    exact ⟨a, ha, hstep⟩
  · rintro ⟨a, ha, hstep⟩
    exact ⟨.leaf a, means_quoted.2 ⟨a, ha, rfl⟩, hstep⟩

theorem steps_keyword {raw : Str} {kind : OperatorKind} (h : keyword raw = some kind) :
    Steps U m (some (.word raw)) m' ↔ step levels m kind.tok = some m' := by
  constructor
  · rintro ⟨tok, htok, hstep⟩
    rwa [(means_keyword h).1 htok] at hstep
  · exact fun hstep => ⟨kind.tok, (means_keyword h).2 rfl, hstep⟩

theorem steps_literal {raw : Str} (h : keyword raw = none) : Steps U m (some (.word raw)) m' ↔
    Literal (stripStar raw).1 ∧ ∃ a, (∃ terms, U.Yields (stripStar raw).1 terms ∧
      literalOperand false (stripStar raw).2 terms = some a) ∧
        step levels m (.leaf a) = some m' := by
  constructor
  · rintro ⟨tok, htok, hstep⟩
    obtain ⟨hliteral, a, ha, rfl⟩ := (means_literal h).1 htok
    exact ⟨hliteral, a, ha, hstep⟩
  · rintro ⟨hliteral, a, ha, hstep⟩
    exact ⟨.leaf a, (means_literal h).2 ⟨hliteral, a, ha, rfl⟩, hstep⟩

theorem reaches_nil : Reaches U [] m m' ↔ m' = m := by
  constructor
  · rintro ⟨ls, toks, hls, htoks, hrun⟩
    generalize hinput : ([] : Str) = input at hls
    cases hls with
    | nil =>
      cases htoks
      cases hrun
      rfl
    | word hne _ _ _ => exact absurd (List.append_eq_nil_iff.1 hinput.symm).1 hne
    | space _ _ => cases hinput
    | opening _ => cases hinput
    | closing _ => cases hinput
    | quoted _ _ => cases hinput
  · rintro rfl
    exact ⟨[], [], .nil, .nil, rfl⟩

theorem reaches_cons : Reaches U (c :: s) m m' ↔
    ∃ x : QueryState × Str, (∃ l, lexeme c s = some (l, x.2) ∧ Steps U m l x.1) ∧
      Reaches U x.2 x.1 m' := by
  constructor
  · rintro ⟨ls, toks, hls, htoks, hrun⟩
    obtain ⟨l, rest, ls', hl, hrest, rfl⟩ := hls.lexeme
    cases l with
    | none => exact ⟨(m, rest), ⟨none, hl, rfl⟩, ls', toks, hrest, htoks, hrun⟩
    | some l =>
      obtain ⟨tok, toks', htok, htoks', rfl⟩ := List.forall₂_cons_left_iff.1 htoks
      obtain ⟨m₁, hstep, hrun⟩ := Option.bind_eq_some_iff.1 hrun
      exact ⟨(m₁, rest), ⟨some l, hl, tok, htok, hstep⟩, ls', toks', hrest, htoks', hrun⟩
  · rintro ⟨⟨m₁, rest⟩, ⟨l, hl, hstep⟩, ls, toks, hls, htoks, hrun⟩
    cases l with
    | none =>
      cases hstep
      exact ⟨ls, toks, lexes_of_lexeme hl hls, htoks, hrun⟩
    | some l =>
      obtain ⟨tok, htok, hstep⟩ := hstep
      refine ⟨l :: ls, tok :: toks, lexes_of_lexeme hl hls, .cons htok htoks, ?_⟩
      exact Option.bind_eq_some_iff.2 ⟨m₁, hstep, hrun⟩

/-- The machine reads an input in one way. -/
theorem Reaches.unique (h : Reaches U s m m') (h' : Reaches U s m m'') : m' = m'' := by
  induction hn : s.length using Nat.strong_induction_on generalizing s m with
  | _ n ih =>
    cases s with
    | nil => rw [reaches_nil.1 h, reaches_nil.1 h']
    | cons c s =>
      obtain ⟨⟨m₁, rest⟩, ⟨l, hl, hstep⟩, h⟩ := reaches_cons.1 h
      obtain ⟨⟨m₁', rest'⟩, ⟨l', hl', hstep'⟩, h'⟩ := reaches_cons.1 h'
      cases Option.some.inj (hl.symm.trans hl')
      cases hstep.unique hstep'
      exact ih rest.length (hn ▸ length_lexeme hl) h h' rfl

end

end QuerySyntax

end PinCore
