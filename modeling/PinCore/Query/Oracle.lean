import PinCore.Lib.Except
import PinCore.Query.Memory

/-!
# The oracle under limits

`oracleMatches` is the document-at-a-time evaluator with its memory budget and its count of search
work.  Whenever it returns, it returns the value of `oracle`.
-/

namespace PinCore

/-- Looks for a token, one unit of work each. -/
def findToken (accept : Text → Bool) : Document → ℕ → Except Error (Bool × ℕ)
  | [], work => .ok (false, work)
  | token :: tokens, work => do
    let work ← charge 1 work
    if accept token then .ok (true, work) else findToken accept tokens work

/-- Compares the terms with the tokens from the start of the window on. -/
def compareTerms : List Text → Document → ℕ → Except Error (Bool × ℕ)
  | [], _, work => .ok (true, work)
  | term :: terms, tokens, work => do
    let work ← charge 1 work
    match tokens with
    | [] => .ok (false, work)
    | token :: tokens => if token ≠ term then .ok (false, work) else compareTerms terms tokens work

/-- Looks for a window, until too few tokens are left. -/
def findPhrase (terms : List Text) : Document → ℕ → Except Error (Bool × ℕ)
  | [], work => .ok (false, work)
  | token :: tokens, work =>
    if (token :: tokens).length < terms.length then .ok (false, work)
    else do
      let (equal, work) ← compareTerms terms (token :: tokens) work
      if equal then .ok (true, work) else findPhrase terms tokens work

/-- The value of one node, given the values of the nodes before it. -/
def oracleValue (d : Document) (values : List Bool) (kind : Kind) (work : ℕ) :
    Except Error (Bool × ℕ) :=
  match kind with
  | .none => .ok (false, work)
  | .term t => findToken (fun token => token == t) d work
  | .prefixed t => findToken (fun token => t.isPrefixOf token) d work
  | .phrase ts => findPhrase ts d work
  | .not c => .ok (!values.getD c false, work)
  | .and l r => .ok (values.getD l false && values.getD r false, work)
  | .or l r => .ok (values.getD l false || values.getD r false, work)

/-- The values of the nodes in order. -/
def oracleFrom (d : Document) : List Kind → List Bool → ℕ → Except Error (List Bool)
  | [], values, _ => .ok values
  | kind :: kinds, values, work => do
    let work ← charge 1 work
    let (value, work) ← oracleValue d values kind work
    oracleFrom d kinds (values ++ [value]) work

/-- The evaluator accepts the document within its memory and its work. -/
def oracleMatches (d : Document) (q : Query) (memoryBytes maxSteps : ℕ) : Except Error Bool := do
  let _ ← (MemoryBudget.new memoryBytes).vector q.nodeCount 1
  let values ← oracleFrom d q.nodes [] maxSteps
  .ok (values.getD q.root false)

/-! ### The value under limits -/

variable {d : Document} {work work' : ℕ} {b : Bool}

theorem findToken_ok {accept : Text → Bool} (h : findToken accept d work = .ok (b, work')) :
    b = d.any accept := by
  induction d generalizing work with
  | nil =>
    cases h
    rfl
  | cons token tokens ih =>
    obtain ⟨w, -, h⟩ := ok_of_bind h
    rw [List.any_cons]
    by_cases ha : accept token = true
    · rw [if_pos ha] at h
      cases h
      rw [ha, Bool.true_or]
    · rw [if_neg ha] at h
      rw [ih h, Bool.eq_false_iff.2 ha, Bool.false_or]

theorem compareTerms_ok {ts : List Text} (h : compareTerms ts d work = .ok (b, work')) :
    b = ts.isPrefixOf d := by
  induction ts generalizing d work with
  | nil =>
    cases h
    rfl
  | cons t ts ih =>
    obtain ⟨w, -, h⟩ := ok_of_bind h
    cases d with
    | nil =>
      cases h
      rfl
    | cons token tokens =>
      simp only at h
      by_cases ht : token = t
      · rw [if_neg (not_not_intro ht)] at h
        rw [ih h, List.isPrefixOf, ht, beq_self_eq_true, Bool.true_and]
      · rw [if_pos ht] at h
        cases h
        rw [List.isPrefixOf, beq_false_of_ne (Ne.symm ht), Bool.false_and]

/-- A phrase longer than the document is not in it. -/
theorem phraseIn_of_length_lt {ts : List Text} (h : d.length < ts.length) :
    phraseIn ts d = false := by
  induction d with
  | nil => rfl
  | cons token tokens ih =>
    have hnot : ts.isPrefixOf (token :: tokens) = false := by
      rw [← Bool.not_eq_true, List.isPrefixOf_iff_prefix]
      exact fun hp => absurd hp.length_le (Nat.not_le.2 h)
    rw [phraseIn, hnot, Bool.false_or]
    exact ih (Nat.lt_of_succ_lt h)

theorem findPhrase_ok {ts : List Text} (h : findPhrase ts d work = .ok (b, work')) :
    b = phraseIn ts d := by
  induction d generalizing work with
  | nil =>
    cases h
    rfl
  | cons token tokens ih =>
    unfold findPhrase at h
    split_ifs at h with hlen
    · cases h
      rw [phraseIn_of_length_lt hlen]
    · obtain ⟨⟨equal, w⟩, hc, h⟩ := ok_of_bind h
      rw [phraseIn, ← compareTerms_ok hc]
      simp only at h
      cases equal with
      | true =>
        cases h
        rfl
      | false => rw [Bool.false_or, ih h]

theorem oracleValue_ok {values : List Bool} {kind : Kind}
    (h : oracleValue d values kind work = .ok (b, work')) : b = oracleNode d values kind := by
  cases kind with
  | term t =>
    have hequal : (fun token : Text => token == t) = fun u => decide (u = t) := by
      funext u
      rw [Bool.eq_iff_iff, beq_iff_eq, decide_eq_true_eq]
    rw [findToken_ok h, oracleNode, hequal]
  | prefixed t => exact findToken_ok h
  | phrase ts => exact findPhrase_ok h
  | none =>
    cases h
    rfl
  | not c =>
    cases h
    rfl
  | and l r =>
    cases h
    rfl
  | or l r =>
    cases h
    rfl

theorem oracleFrom_ok {kinds : List Kind} {values values' : List Bool}
    (h : oracleFrom d kinds values work = .ok values') :
    values' = kinds.foldl (fun values k => values ++ [oracleNode d values k]) values := by
  induction kinds generalizing values work with
  | nil =>
    cases h
    rfl
  | cons kind kinds ih =>
    obtain ⟨w, -, h⟩ := ok_of_bind h
    obtain ⟨⟨value, w'⟩, hv, h⟩ := ok_of_bind h
    rw [ih h, oracleValue_ok hv, List.foldl_cons]

/-- Under limits the evaluator fails or returns the value of the query. -/
theorem oracleMatches_ok {q : Query} {memoryBytes maxSteps : ℕ}
    (h : oracleMatches d q memoryBytes maxSteps = .ok b) : b = oracle d q := by
  obtain ⟨_, -, h⟩ := ok_of_bind h
  obtain ⟨values, hvalues, h⟩ := ok_of_bind h
  cases h
  rw [oracleFrom_ok hvalues]
  rfl

end PinCore
