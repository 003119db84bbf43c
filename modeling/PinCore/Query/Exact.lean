import PinCore.Query.Accept
import PinCore.Query.Recheck

/-!
# The parser is exact

Literals, quoted texts and the turns of the loop follow the reading of lexemes; with the end of the
input this gives `parse_exact`: on every input the parser is refused for want of resources, or
rejects what is not in the grammar, or returns the tree of the grammar as a flat array.  The
literals of a parsed query are analysed texts, so that `parse_query` gives all that the evaluators
assume of a query.
-/

namespace PinCore

namespace QuerySyntax

open Precedence

section

variable {α β γ : Type} {x : Except Error α} {Y : β → Prop} {R : α → β → Prop}
  {f : α → Except Error γ} {S : γ → β → Prop}

/-- What comes behind can be refused, but does not reject. -/
theorem Follows.then_refusable (hx : Follows x Y R)
    (hf : ∀ a b, Y b → R a b → Refusable (f a) ∧ ∀ c, f a = .ok c → S c b) :
    Follows (x >>= f) Y S := by
  rcases hx with ⟨e, he, rfl⟩ | ⟨offset, rfl, hno⟩ | ⟨a, b, rfl, hb, hR⟩
  · exact .inl ⟨e, he, rfl⟩
  · exact .reject hno
  · obtain ⟨hrefusable, hok⟩ := hf a b hb hR
    change Follows (f a) Y S
    cases hfa : f a with
    | error e => exact .inl ⟨e, hrefusable e hfa, rfl⟩
    | ok c => exact .ok hb (hok c hfa)

end

/-! ### Literals -/

section

variable {U : Unicode} {limits : QueryLimits} {sizes : ParseSizes} {b : Builder}
  {document : Document} {isQuoted isPrefix : Bool} {offset : ℕ} {budget budget' : MemoryBudget}
  {kind : Kind} {text : Str} {m : QueryState}

theorem copyTexts_refusable {ts : List Text} : Refusable (Builder.copyTexts ts budget) := by
  induction ts generalizing budget with
  | nil => exact .ok
  | cons t ts ih => exact Refusable.vector.bind fun _ => ih

/-- One term makes an unquoted literal. -/
theorem literalKind_refusable (h : isQuoted = true ∨ document.length = 1) :
    Refusable (Builder.literalKind sizes document isQuoted isPrefix offset budget) := by
  unfold Builder.literalKind
  cases isQuoted with
  | true =>
    rw [if_pos rfl]
    exact .ite .ok (Refusable.vector.bind fun _ => copyTexts_refusable.bind fun _ => .ok)
  | false =>
    rw [if_neg Bool.false_ne_true]
    cases document with
    | nil => rcases h with h | h <;> cases h
    | cons t ts => exact Refusable.vector.bind fun _ => .ok

theorem of_literalKind (h : isQuoted = true ∨ document.length = 1)
    (hkind : Builder.literalKind sizes document isQuoted isPrefix offset budget =
      .ok (kind, budget')) :
    ∃ a, literalOperand isQuoted isPrefix document = some a ∧ kind = a.kind := by
  unfold Builder.literalKind at hkind
  cases isQuoted with
  | true =>
    rw [if_pos rfl] at hkind
    split_ifs at hkind with hdocument
    · cases hkind
      exact ⟨.none, by rw [literalOperand_quoted, if_pos hdocument], rfl⟩
    · obtain ⟨budget₁, -, hkind⟩ := ok_of_bind hkind
      obtain ⟨budget₂, -, hkind⟩ := ok_of_bind hkind
      cases hkind
      exact ⟨.phrase document, by rw [literalOperand_quoted, if_neg hdocument], rfl⟩
  | false =>
    rw [if_neg Bool.false_ne_true] at hkind
    rcases document with _ | ⟨t, _ | ⟨t', ts⟩⟩
    · cases hkind
    · obtain ⟨budget₁, -, hkind⟩ := ok_of_bind hkind
      cases hkind
      cases isPrefix with
      | true => exact ⟨.prefixed t, rfl, rfl⟩
      | false => exact ⟨.term t, rfl, rfl⟩
    · rcases h with h | h <;> cases h

/-- The texts of the operand are those of the document. -/
theorem literalOperand_texts {a : Operand} {t : Text}
    (h : literalOperand isQuoted isPrefix document = some a) (ht : t ∈ a.kind.texts) :
    t ∈ document := by
  unfold literalOperand at h
  cases isQuoted with
  | true =>
    rw [if_pos rfl] at h
    split_ifs at h with hdocument
    · cases h
      exact absurd ht List.not_mem_nil
    · cases h
      exact ht
  | false =>
    rw [if_neg Bool.false_ne_true] at h
    rcases document with _ | ⟨u, _ | ⟨u', us⟩⟩
    · cases h
    · cases h
      cases isPrefix <;> exact ht
    · cases h

/-- `literal` reads a leaf. -/
theorem literal_follows (hU : U.Lawful) (hT : U.Tables) (hC : U.Current)
    (h : Builds b m.ops m.vals) (hneed : m.need = true) :
    Follows (b.literal U limits sizes text isQuoted isPrefix offset)
      (fun m' => ∃ a, (∃ terms, U.Yields text terms ∧
        literalOperand isQuoted isPrefix terms = some a) ∧ step levels m (.leaf a) = some m')
      fun b' m' => Builds b' m'.ops m'.vals ∧ m'.need = false := by
  unfold Builder.literal
  split_ifs
  · exact .limit
  · exact .limit
  refine .refusable_bind (analyze_refusable hC) fun analyzed hanalyzed => ?_
  have hyields := analyze_yields hU hT hanalyzed
  have hlength : analyzed.document.length = analyzed.tokens.length := List.length_map _
  dsimp only
  by_cases hcount : isQuoted = false ∧ analyzed.tokens.length ≠ 1
  · rw [if_pos hcount]
    refine .reject ?_
    rintro m' ⟨a, ⟨terms, hterms, ha⟩, -⟩
    rw [hterms.unique hyields, hcount.1, literalOperand_eq_none (hlength ▸ hcount.2)] at ha
    cases ha
  rw [if_neg hcount]
  by_cases hterms : usizeLimit ≤ b.terms + analyzed.tokens.length ∨
      limits.terms < b.terms + analyzed.tokens.length
  · rw [if_pos hterms]
    exact .limit
  rw [if_neg hterms]
  have hone : isQuoted = true ∨ analyzed.document.length = 1 := by
    rw [hlength]
    cases isQuoted with
    | true => exact .inl rfl
    | false => exact .inr (not_not.1 fun hne => hcount ⟨rfl, hne⟩)
  refine .refusable_bind .vector fun budget _ => ?_
  refine .refusable_bind (literalKind_refusable hone) fun x hx => ?_
  obtain ⟨kind, budget'⟩ := x
  obtain ⟨a, ha, rfl⟩ := of_literalKind hone hx
  refine .refusable_bind .release fun budget'' _ => ?_
  have hstep : step levels m (.leaf a) = some ⟨m.ops, .leaf a :: m.vals, false⟩ := by
    rw [step, if_pos hneed]
  generalize hb₁ : ({ b with
    budget := budget''
    terms := b.terms + analyzed.tokens.length } : Builder) = b₁
  have hbuilds : Builds b₁ m.ops m.vals := by
    subst hb₁
    exact ⟨h.rep, h.ops⟩
  cases hadd : b₁.addNode limits sizes a.kind with
  | error e => exact .inl ⟨e, addNode_refusable e hadd, rfl⟩
  | ok b' => exact .ok ⟨a, ⟨_, hyields, ha⟩, hstep⟩ ⟨hbuilds.leaf hadd, rfl⟩

end

/-! ### Quoted texts -/

/-- A character more in the text is one less in what is left. -/
theorem unquote_concat {s text : Str} {c : Char} {x : Str × Str} :
    (unquote s).map (fun y => (text ++ [c] ++ y.1, y.2)) = some x ↔
      ((unquote s).map fun y => (c :: y.1, y.2)).map (fun y => (text ++ y.1, y.2)) = some x := by
  have hfun : (fun y : Str × Str => (text ++ [c] ++ y.1, y.2)) =
      (fun y => (text ++ y.1, y.2)) ∘ fun y => (c :: y.1, y.2) := by
    funext y
    simp
  rw [Option.map_map, hfun]

/-- `quoted` reads up to the closing quote. -/
theorem quotedFrom_follows {limit start cursor capacity : ℕ} {rest text : Str}
    {budget : MemoryBudget} :
    Follows (quotedFrom limit start rest cursor text capacity budget)
      (fun x => (unquote rest).map (fun y => (text ++ y.1, y.2)) = some x)
      fun q x => q.text = x.1 ∧ q.rest = x.2 := by
  induction rest using unquote.induct generalizing cursor text capacity budget with
  | case1 => exact .reject fun _ hx => absurd hx.symm (Option.some_ne_none _)
  | case2 s => exact @Follows.ok _ _ _ _ _ (text, s) (by rw [unquote]; simp) ⟨rfl, rfl⟩
  | case3 => exact .reject fun _ hx => absurd hx.symm (Option.some_ne_none _)
  | case4 c s hc ih =>
    rw [quotedFrom, if_neg (by tauto), unquote_escape hc]
    refine .refusable_bind .reserve fun x _ => ?_
    exact ih.mono (fun x => unquote_concat) fun _ _ h => h
  | case5 c s hc =>
    rw [quotedFrom, if_pos (by tauto), unquote, if_neg hc]
    exact .reject fun _ hx => absurd hx.symm (Option.some_ne_none _)
  | case6 c s hq hlast hescape ih =>
    have hb : c ≠ '\\' := by
      rintro rfl
      cases s with
      | nil => exact hlast rfl rfl
      | cons c s => exact hescape c s rfl rfl
    rw [quotedFrom, unquote_plain hq hb]
    · refine .refusable_bind .reserve fun x _ => ?_
      exact ih.mono (fun x => unquote_concat) fun _ _ h => h
    · exact hq
    · exact hlast
    · exact hescape

/-! ### The loop -/

/-- The parser and the machine are at the same place. -/
structure Sim (s : ParseState) (m : QueryState) : Prop where
  builds : Builds s.builder m.ops m.vals
  need : s.need = m.need
  parentheses : s.parentheses = groups m.ops

section

variable {U : Unicode} {limits : QueryLimits} {sizes : ParseSizes} {c : Char} {raw rest rest' : Str}
  {s : ParseState} {m m' : QueryState} {l : Option Lexeme} {x : Except Error ParseState}

/-- A turn of the loop reads one lexeme. -/
def FollowsTurn (U : Unicode) (x : Except Error ParseState) (c : Char) (rest : Str)
    (m : QueryState) : Prop :=
  Follows x (fun y : QueryState × Str => ∃ l, lexeme c rest = some (l, y.2) ∧ Steps U m l y.1)
    fun s' y => Sim s' y.1 ∧ s'.rest = y.2

theorem Follows.pair {Y : QueryState → Prop}
    (h : Follows x Y fun s' m' => Sim s' m' ∧ s'.rest = rest) :
    Follows x (fun y : QueryState × Str => Y y.1 ∧ rest = y.2)
      fun s' y => Sim s' y.1 ∧ s'.rest = y.2 := by
  rcases h with h | ⟨offset, rfl, hno⟩ | ⟨s', m', rfl, hm', hs'⟩
  · exact .inl h
  · exact .reject fun y hy => hno y.1 hy.1
  · exact .inr (.inr ⟨s', (m', rest), rfl, ⟨hm', rfl⟩, hs'⟩)

theorem Follows.turn (hl : lexeme c rest = some (l, rest'))
    (h : Follows x (Steps U m l) fun s' m' => Sim s' m' ∧ s'.rest = rest') :
    FollowsTurn U x c rest m := by
  refine h.pair.mono (fun y => ?_) fun _ _ h => h
  constructor
  · rintro ⟨hstep, hrest⟩
    exact ⟨l, hrest ▸ hl, hstep⟩
  · rintro ⟨l', hl', hstep⟩
    cases Option.some.inj (hl.symm.trans hl')
    exact ⟨hstep, rfl⟩

/-- A leaf, a prefix operator or a group begins only where an operand is needed. -/
theorem step_need (tok : QueryTok) (hneed : m.need = false) (hbinary : ∀ b, tok ≠ .binary b)
    (hclosing : tok ≠ .closing) : step levels m tok = none := by
  cases tok with
  | leaf a => rw [step, hneed, if_neg Bool.false_ne_true]
  | unary => rw [step, hneed, if_neg Bool.false_ne_true]
  | opening => rw [step, hneed, if_neg Bool.false_ne_true]
  | binary b => exact absurd rfl (hbinary b)
  | closing => exact absurd rfl hclosing

/-- NOT stands where an operand is needed, and AND and OR stand elsewhere. -/
theorem step_keyword {kind : OperatorKind} (hne : kind ≠ .opening)
    (h : decide (kind = .not) ≠ m.need) : step levels m kind.tok = none := by
  obtain ⟨ops, vals, need⟩ := m
  cases kind with
  | opening => exact absurd rfl hne
  | not =>
    cases need with
    | true => exact absurd rfl h
    | false => rfl
  | and =>
    cases need with
    | true => rfl
    | false => exact absurd rfl h
  | or =>
    cases need with
    | true => rfl
    | false => exact absurd rfl h

theorem parseOpening_follows (hsim : Sim s m) :
    Follows (parseOpening limits sizes rest s) (fun m' => step levels m .opening = some m')
      fun s' m' => Sim s' m' ∧ s'.rest = rest := by
  obtain ⟨hbuilds, hneed, hparentheses⟩ := hsim
  unfold parseOpening
  by_cases hs : s.need = false
  · rw [if_pos hs]
    refine .reject fun m' hm' => ?_
    rw [step_need .opening (hneed ▸ hs) nofun nofun] at hm'
    cases hm'
  rw [if_neg hs]
  split_ifs
  · exact .limit
  have hm : m.need = true := by
    rw [← hneed]
    exact Bool.not_eq_false _ ▸ hs
  refine (operator_follows hbuilds (by rw [hm]; rfl)).then_refusable fun b' m' hm' hb' => ?_
  refine ⟨.ok, fun s' hs' => ?_⟩
  cases hs'
  refine ⟨⟨hb'.1, hb'.2.symm, ?_⟩, rfl⟩
  have hstep : some (⟨.opening :: m.ops, m.vals, true⟩ : QueryState) = some m' := by
    rw [← hm']
    change _ = step levels m .opening
    rw [step, if_pos hm]
  cases hstep
  exact congrArg (· + 1) hparentheses

theorem parseClosing_follows (hsim : Sim s m) :
    Follows (parseClosing limits sizes rest s) (fun m' => step levels m .closing = some m')
      fun s' m' => Sim s' m' ∧ s'.rest = rest := by
  obtain ⟨hbuilds, hneed, hparentheses⟩ := hsim
  unfold parseClosing
  by_cases hs : s.need = true
  · rw [if_pos hs]
    refine .reject fun m' hm' => ?_
    rw [step, ← hneed, if_pos hs] at hm'
    cases hm'
  rw [if_neg hs]
  have hm : m.need = false := by
    rw [← hneed]
    exact Bool.not_eq_true _ ▸ hs
  refine (close_follows hbuilds hm).then_refusable fun b' m' _ hb' => ?_
  obtain ⟨hb', hneed', hgroups⟩ := hb'
  rw [if_neg (by omega)]
  refine ⟨.ok, fun s' hs' => ?_⟩
  cases hs'
  exact ⟨⟨hb', hneed'.symm, by dsimp only; omega⟩, rfl⟩

/-- The operators NOT, AND and OR. -/
theorem keyword_ne_opening {kind : OperatorKind} (h : keyword raw = some kind) :
    kind ≠ .opening := by
  rintro rfl
  unfold keyword at h
  split_ifs at h
  all_goals cases h

theorem parseWord_follows (hU : U.Lawful) (hT : U.Tables) (hC : U.Current) (hsim : Sim s m) :
    Follows (parseWord U limits sizes raw rest s) (Steps U m (some (.word raw)))
      fun s' m' => Sim s' m' ∧ s'.rest = rest := by
  obtain ⟨hbuilds, hneed, hparentheses⟩ := hsim
  unfold parseWord
  cases hkeyword : keyword raw with
  | some kind =>
    have hne := keyword_ne_opening hkeyword
    dsimp only
    by_cases hs : decide (kind = .not) = s.need
    · rw [if_neg (not_not.2 hs)]
      have hm : m.need = decide (kind = .opening ∨ kind = .not) := by
        rw [← hneed, ← hs]
        exact decide_eq_decide.2 ⟨.inr, fun h => h.resolve_left hne⟩
      have hoperator := @operator_follows limits sizes s.builder ⟨kind, s.cursor⟩ m hbuilds hm
      refine Follows.then_refusable (hoperator.mono (fun m' => (steps_keyword hkeyword).symm)
        fun _ _ h => h) fun b' m' hm' hb' => ?_
      refine ⟨.ok, fun s' hs' => ?_⟩
      cases hs'
      refine ⟨⟨hb'.1, hb'.2.symm, ?_⟩, rfl⟩
      have hgroups := groups_step (by cases kind <;> simp_all [OperatorKind.tok])
        (by cases kind <;> simp [OperatorKind.tok]) ((steps_keyword hkeyword).1 hm')
      exact hparentheses.trans hgroups.symm
    · rw [if_pos hs]
      refine .reject fun m' hm' => ?_
      have hstep := (steps_keyword hkeyword).1 hm'
      rw [step_keyword hne (hneed ▸ hs)] at hstep
      cases hstep
  | none =>
    dsimp only
    by_cases hs : s.need = false
    · rw [if_pos hs]
      refine .reject fun m' hm' => ?_
      obtain ⟨-, a, -, hstep⟩ := (steps_literal hkeyword).1 hm'
      rw [step_need (.leaf a) (hneed ▸ hs) nofun nofun] at hstep
      cases hstep
    rw [if_neg hs]
    have hm : m.need = true := by
      rw [← hneed]
      exact Bool.not_eq_false _ ▸ hs
    by_cases hliteral : Literal (stripStar raw).1
    · rw [if_neg (by unfold Literal at hliteral; tauto)]
      have hfollows := @literal_follows U limits sizes s.builder false (stripStar raw).2 s.cursor
        (stripStar raw).1 m hU hT hC hbuilds hm
      refine Follows.then_refusable (hfollows.mono (fun m' => ?_) fun _ _ h => h)
        fun b' m' hm' hb' => ?_
      · rw [steps_literal hkeyword]
        exact ⟨fun h => ⟨hliteral, h⟩, fun h => h.2⟩
      refine ⟨.ok, fun s' hs' => ?_⟩
      cases hs'
      refine ⟨⟨hb'.1, hb'.2.symm, ?_⟩, rfl⟩
      obtain ⟨-, a, -, hstep⟩ := (steps_literal hkeyword).1 hm'
      exact hparentheses.trans (@groups_step _ _ levels m m' (.leaf a) nofun nofun hstep).symm
    · rw [if_pos (by unfold Literal at hliteral; tauto)]
      exact .reject fun m' hm' => hliteral ((steps_literal hkeyword).1 hm').1

theorem parseQuoted_follows (hU : U.Lawful) (hT : U.Tables) (hC : U.Current) (hsim : Sim s m) :
    Follows (parseQuoted U limits sizes rest s)
      (fun y : QueryState × Str => ∃ q : Str × Str, unquote rest = some q ∧
        (Steps U m (some (.quoted q.1)) y.1 ∧ q.2 = y.2))
      fun s' y => Sim s' y.1 ∧ s'.rest = y.2 := by
  obtain ⟨hbuilds, hneed, hparentheses⟩ := hsim
  unfold parseQuoted
  by_cases hs : s.need = false
  · rw [if_pos hs]
    refine .reject ?_
    rintro y ⟨q, -, hstep, -⟩
    obtain ⟨a, -, hstep⟩ := steps_quoted.1 hstep
    rw [step_need (.leaf a) (hneed ▸ hs) nofun nofun] at hstep
    cases hstep
  rw [if_neg hs]
  have hm : m.need = true := by
    rw [← hneed]
    exact Bool.not_eq_false _ ▸ hs
  have hquoted := @quotedFrom_follows limits.bytes s.cursor (s.cursor + 1) 0 rest []
    s.builder.budget
  have hY : ∀ x, (unquote rest).map (fun y => ([] ++ y.1, y.2)) = some x ↔
      unquote rest = some x := by
    intro x
    have hid : (fun y : Str × Str => (([] : Str) ++ y.1, y.2)) = id := rfl
    rw [hid, Option.map_id_fun, id]
  refine (hquoted.mono hY fun _ _ h => h).bind (fun q y _ hq => ?_) (fun _ => Iff.rfl)
    fun y y' hy hy' => Option.some.inj (hy.symm.trans hy')
  obtain ⟨htext, hrest⟩ := hq
  obtain ⟨text, rest'⟩ := y
  subst htext
  subst hrest
  have hbuilds' : Builds { s.builder with budget := q.budget } m.ops m.vals :=
    ⟨hbuilds.rep, hbuilds.ops⟩
  refine Follows.pair (Follows.then_refusable ((literal_follows hU hT hC hbuilds' hm).mono
    (fun m' => steps_quoted.symm) fun _ _ h => h) fun b' m' hm' hb' => ?_)
  obtain ⟨a, -, hstep⟩ := steps_quoted.1 hm'
  refine ⟨Refusable.release.bind fun _ => .ok, fun s' hs' => ?_⟩
  obtain ⟨budget, -, hs'⟩ := ok_of_bind hs'
  cases hs'
  refine ⟨⟨⟨hb'.1.rep, hb'.1.ops⟩, hb'.2.symm, ?_⟩, rfl⟩
  exact hparentheses.trans (@groups_step _ _ levels m m' (.leaf a) nofun nofun hstep).symm

theorem parseStep_follows (hU : U.Lawful) (hT : U.Tables) (hC : U.Current) (hsim : Sim s m) :
    FollowsTurn U (parseStep U limits sizes c rest s) c rest m := by
  unfold parseStep
  by_cases hspace : isSpace c = true
  · rw [if_pos hspace]
    exact .turn (lexeme_space hspace)
      (.ok rfl ⟨⟨hsim.builds, hsim.need, hsim.parentheses⟩, rfl⟩)
  rw [if_neg hspace]
  by_cases hopening : c = '('
  · rw [if_pos hopening]
    subst hopening
    exact .turn rfl ((parseOpening_follows hsim).mono (fun _ => steps_opening.symm) fun _ _ h => h)
  rw [if_neg hopening]
  by_cases hclosing : c = ')'
  · rw [if_pos hclosing]
    subst hclosing
    exact .turn rfl ((parseClosing_follows hsim).mono (fun _ => steps_closing.symm) fun _ _ h => h)
  rw [if_neg hclosing]
  by_cases hquote : c = '"'
  · rw [if_pos hquote]
    subst hquote
    refine (parseQuoted_follows hU hT hC hsim).mono (fun y => ?_) fun _ _ h => h
    constructor
    · rintro ⟨q, hq, hstep, hrest⟩
      refine ⟨some (.quoted q.1), ?_, hstep⟩
      change (unquote rest).map _ = _
      rw [hq, ← hrest]
      rfl
    · rintro ⟨l, hl, hstep⟩
      obtain ⟨q, hq, hx⟩ := Option.map_eq_some_iff.1 hl
      obtain ⟨rfl, hrest⟩ := Prod.mk.inj hx
      exact ⟨q, hq, hstep, hrest⟩
  rw [if_neg hquote]
  have hword : isWord c = true :=
    isWord_iff.2 ⟨Bool.not_eq_true _ ▸ hspace, hopening, hclosing, hquote⟩
  exact .turn (lexeme_word hword) (parseWord_follows hU hT hC hsim)

/-- The loop reads the whole input. -/
theorem parseLoop_follows (hU : U.Lawful) (hT : U.Tables) (hC : U.Current) {fuel : ℕ}
    (hfuel : s.rest.length < fuel) (hsim : Sim s m) :
    Follows (parseLoop U limits sizes fuel s) (Reaches U s.rest m) Sim := by
  induction fuel generalizing s m with
  | zero => exact absurd hfuel (Nat.not_lt_zero _)
  | succ fuel ih =>
    rw [parseLoop]
    cases hrest : s.rest with
    | nil => exact .ok (reaches_nil.2 rfl) hsim
    | cons c rest =>
      refine (parseStep_follows hU hT hC hsim).bind (fun s' y hy hs' => ?_)
        (fun _ => reaches_cons) fun y y' hy hy' => ?_
      · obtain ⟨hsim', hrest'⟩ := hs'
        obtain ⟨l, hl, -⟩ := hy
        rw [← hrest']
        refine ih ?_ hsim'
        rw [hrest']
        rw [hrest] at hfuel
        exact Nat.lt_of_lt_of_le (length_lexeme hl) (Nat.lt_succ_iff.1 hfuel)
      · obtain ⟨l, hl, hstep⟩ := hy
        obtain ⟨l', hl', hstep'⟩ := hy'
        obtain ⟨rfl, hrest⟩ := Prod.mk.inj (Option.some.inj (hl.symm.trans hl'))
        exact Prod.ext (hstep.unique hstep') hrest

/-! ### The end of the input -/

/-- The tree of the whole input; blank input is the empty query. -/
def Ends (m : QueryState) (t : QueryTree) : Prop :=
  if m.ops = [] ∧ m.vals = [] then t = .leaf .none else finish levels m = some t

theorem ends_empty {t : QueryTree} (h : m.ops = [] ∧ m.vals = []) :
    Ends m t ↔ t = .leaf .none := Iff.of_eq (if_pos h)

theorem ends_iff {t : QueryTree} (h : ¬ (m.ops = [] ∧ m.vals = [])) :
    Ends m t ↔ finish levels m = some t := Iff.of_eq (if_neg h)

/-- The accepted strings are those that the machine reads to the end. -/
theorem accepts_iff {input : Str} {t : QueryTree} :
    Accepts U input t ↔ ∃ m, Reaches U input .start m ∧ Ends m t := by
  constructor
  · rintro ⟨ls, hls, ⟨rfl, rfl⟩ | ⟨toks, htoks, hderives⟩⟩
    · exact ⟨.start, ⟨[], [], hls, .nil, rfl⟩, (ends_empty ⟨rfl, rfl⟩).2 rfl⟩
    · obtain ⟨m, hrun, hfinish⟩ := Option.bind_eq_some_iff.1 hderives.accept
      refine ⟨m, ⟨ls, toks, hls, htoks, hrun⟩, ?_⟩
      have hne : ¬ (m.ops = [] ∧ m.vals = []) := by
        rintro ⟨hops, hvals⟩
        rw [finish, hops, hvals] at hfinish
        split_ifs at hfinish
        cases hfinish
      exact (ends_iff hne).2 hfinish
  · rintro ⟨m, ⟨ls, toks, hls, htoks, hrun⟩, hends⟩
    by_cases hempty : m.ops = [] ∧ m.vals = []
    · have hreads := @Reads.run _ _ levels toks [] .start m Stack.nil hrun
      obtain ⟨ops, vals, need⟩ := m
      obtain ⟨rfl, rfl⟩ := hempty
      have htoks' : toks = [] := hreads.eq_nil.1
      rw [htoks', List.forall₂_nil_right_iff] at htoks
      exact ⟨ls, hls, .inl ⟨htoks, (ends_empty ⟨rfl, rfl⟩).1 hends⟩⟩
    · have haccept := Option.bind_eq_some_iff.2 ⟨m, hrun, (ends_iff hempty).1 hends⟩
      exact ⟨ls, hls, .inr ⟨toks, htoks, accept_iff.1 haccept⟩⟩

theorem Accepts.unique {input : Str} {t t' : QueryTree} (h : Accepts U input t)
    (h' : Accepts U input t') : t = t' := by
  obtain ⟨m, hm, ht⟩ := accepts_iff.1 h
  obtain ⟨m', hm', ht'⟩ := accepts_iff.1 h'
  cases hm.unique hm'
  by_cases hempty : m.ops = [] ∧ m.vals = []
  · rw [(ends_empty hempty).1 ht, (ends_empty hempty).1 ht']
  · have heq := ((ends_iff hempty).1 ht).symm.trans ((ends_iff hempty).1 ht')
    exact Option.some.inj heq

/-- The array and the root that the parser returns. -/
def IsArray (p : ParsedQuery) (t : QueryTree) : Prop :=
  p.nodes.map (·.kind) = t.kinds 0 ∧ p.root = t.size - 1

theorem parseRoot_follows {b : Builder} {input : Str} {ops : List (Op Connective)}
    {vals : List QueryTree} (hbuilds : Builds b ops vals) :
    Follows (parseRoot limits sizes input (groups ops) b)
      (fun t => popWhile levels 1 ops vals = some ([], [t])) IsArray := by
  have hall := @reduceAll_follows limits sizes b ops vals b.operators hbuilds
  rw [hbuilds.ops] at hall
  unfold parseRoot
  have hW : ∀ t, popWhile levels 1 ops vals = some ([], [t]) ↔
      ∃ vals', popWhile levels 1 ops vals = some ([], vals') ∧ vals' = [t] :=
    fun t => ⟨fun h => ⟨[t], h, rfl⟩, fun ⟨_, h, hvals⟩ => hvals ▸ h⟩
  refine hall.bind (fun b' vals' hpop hb' => ?_) hW fun v v' hv hv' => ?_
  · obtain ⟨hrep, -⟩ := hb'
    have hgroups : groups ops = 0 := (groups_popWhile (Nat.le_refl 1) hpop).symm
    generalize hnodes : b'.nodes.map (·.kind) = nodes at hrep
    generalize b'.values = values at hrep
    cases hrep with
    | nil => exact .reject nofun
    | @cons nodes values vals h t =>
      cases h with
      | cons h t' => exact .reject nofun
      | nil =>
        dsimp only
        rw [if_neg (not_not.2 hgroups)]
        refine .refusable_bind .release fun budget _ => ?_
        refine .refusable_bind .vector fun budget _ => ?_
        refine .ok rfl ⟨hnodes, ?_⟩
        rw [List.length_nil, Nat.zero_add]
  · exact (Prod.mk.inj (Option.some.inj (hv.symm.trans hv'))).2

theorem parseEnd_follows {input : Str} (hsim : Sim s m) :
    Follows (parseEnd limits sizes input s) (Ends m) IsArray := by
  obtain ⟨hbuilds, hneed, hparentheses⟩ := hsim
  have hiff : s.builder.nodes = [] ∧ s.builder.operators = [] ↔ m.ops = [] ∧ m.vals = [] := by
    rw [← hbuilds.rep.nodes_eq_nil, ← hbuilds.ops, List.map_eq_nil_iff, List.map_eq_nil_iff,
      and_comm]
  unfold parseEnd
  by_cases hblank : s.builder.nodes = [] ∧ s.builder.operators = []
  · rw [if_pos hblank, hparentheses]
    refine .refusable_bind addNode_refusable fun b' hb' => ?_
    obtain ⟨hops, hvals⟩ := hiff.1 hblank
    have hleaf : Builds b' m.ops (.leaf .none :: m.vals) :=
      @Builds.leaf _ _ _ _ _ _ hbuilds .none hb'
    refine (parseRoot_follows hleaf).mono (fun t => ?_) fun _ _ h => h
    rw [ends_empty ⟨hops, hvals⟩, hops, hvals]
    exact ⟨fun h => by cases h; rfl, fun h => by rw [h]; rfl⟩
  rw [if_neg hblank]
  by_cases hs : s.need = true
  · rw [if_pos hs]
    refine .reject fun t ht => ?_
    rw [ends_iff (hiff.not.1 hblank), finish, ← hneed, if_pos hs] at ht
    cases ht
  rw [if_neg hs, hparentheses]
  refine (parseRoot_follows hbuilds).mono (fun t => ?_) fun _ _ h => h
  rw [ends_iff (hiff.not.1 hblank), finish_iff (hneed ▸ Bool.not_eq_true _ ▸ hs)]

/-- The array of a parsed query is a tree in postorder: children come first, the root is the last
node, and every other node has one parent. -/
structure ParsedQuery.Holds (p : ParsedQuery) (t : QueryTree) : Prop where
  nodes : p.nodes.map (·.kind) = t.kinds 0
  root_last : p.root + 1 = p.nodes.length
  stored : Tree.Stored (p.nodes.map (·.kind)) p.root t
  children_lt : ∀ (i : ℕ) (k : Kind), (p.nodes.map (·.kind))[i]? = some k →
    ∀ c ∈ k.children, c < i
  children_perm : ((p.nodes.map (·.kind)).flatMap Kind.children).Perm (List.range p.root)

theorem IsArray.holds {p : ParsedQuery} {t : QueryTree} (h : IsArray p t) : p.Holds t := by
  obtain ⟨hnodes, hroot⟩ := h
  have hpos := size_pos t
  have hlength : p.nodes.length = t.size := by
    rw [← length_kinds t 0, ← hnodes, List.length_map]
  have hstored := @stored_kinds [] [] t
  rw [List.nil_append, List.append_nil, List.length_nil, Nat.zero_add] at hstored
  refine ⟨hnodes, by omega, ?_, fun i k hk c hc => ?_, ?_⟩
  · rw [hnodes, hroot]
    exact hstored
  · rw [hnodes] at hk
    exact Nat.zero_add i ▸ children_lt hk c hc
  · rw [hnodes, hroot, List.range_eq_range']
    exact children_perm t 0

theorem parse_follows (hU : U.Lawful) (hT : U.Tables) (hC : U.Current) (input : Str) :
    Follows (parse U limits sizes input) (Accepts U input) IsArray := by
  unfold parse
  split_ifs
  · exact .limit
  have hstart : Sim ⟨input, 0, true, 0, .new limits⟩ .start := ⟨⟨.nil, rfl⟩, rfl, rfl⟩
  exact (parseLoop_follows hU hT hC (Nat.lt_succ_self _) hstart).bind
    (fun s m _ hsim => parseEnd_follows hsim) (fun t => accepts_iff) fun m m' => Reaches.unique

/-- On every input and with every limits the parser is refused for want of resources, or rejects
what is not in the grammar with a syntax error, or returns the only tree of the grammar. -/
theorem parse_exact (hU : U.Lawful) (hT : U.Tables) (hC : U.Current) (limits : QueryLimits)
    (sizes : ParseSizes) (input : Str) :
    match parse U limits sizes input with
    | .ok p => ∃ t, Accepts U input t ∧ (∀ t', Accepts U input t' → t' = t) ∧ p.Holds t
    | .error (.querySyntax _) => ∀ t, ¬ Accepts U input t
    | .error e => Resource e := by
  rcases @parse_follows U limits sizes hU hT hC input with
    ⟨e, he, heq⟩ | ⟨offset, heq, hno⟩ | ⟨p, t, heq, ht, hp⟩
  · rw [heq]
    rcases he with ⟨what, rfl⟩ | rfl | rfl
    · exact .limit
    · exact .budget
    · exact .inr (.inr rfl)
  · rw [heq]
    exact hno
  · rw [heq]
    exact ⟨t, ht, fun t' ht' => ht'.unique ht, hp.holds⟩

/-! ### The literals of a query -/

variable (U) in
/-- The literals of the nodes so far are analysed texts. -/
def Builder.Analysed (b : Builder) : Prop :=
  ∀ k ∈ b.nodes.map (·.kind), ∀ t ∈ k.texts, PinCore.Analysed U t

section

variable {b b' : Builder} {s s' : ParseState} {kind : Kind} {o : Operator} {l : List Operator}

theorem addNode_analysed (h : b.addNode limits sizes kind = .ok b') (hb : b.Analysed U)
    (hkind : ∀ t ∈ kind.texts, PinCore.Analysed U t) : b'.Analysed U := by
  intro k hk
  rw [(of_addNode h).1, List.mem_append, List.mem_singleton] at hk
  rcases hk with hk | rfl
  · exact hb k hk
  · exact hkind

/-- The node of an operator has no text of its own. -/
theorem reduce_analysed (h : b.reduce limits sizes o = .ok b') (hb : b.Analysed U) :
    b'.Analysed U := by
  unfold Builder.reduce at h
  split at h
  · exact addNode_analysed h hb fun t ht => absurd ht List.not_mem_nil
  · exact addNode_analysed h hb fun t ht => absurd ht List.not_mem_nil
  · exact addNode_analysed h hb fun t ht => absurd ht List.not_mem_nil
  · cases h

theorem reduceAbove_analysed {p : ℕ} (h : Builder.reduceAbove limits sizes p l b = .ok b')
    (hb : b.Analysed U) : b'.Analysed U := by
  induction l generalizing b with
  | nil =>
    cases h
    exact hb
  | cons top l ih =>
    rw [Builder.reduceAbove] at h
    split_ifs at h
    · obtain ⟨b₁, hreduce, h⟩ := ok_of_bind h
      exact ih h (reduce_analysed hreduce hb)
    · cases h
      exact hb

theorem closeFrom_analysed {offset : ℕ} (h : Builder.closeFrom limits sizes offset l b = .ok b')
    (hb : b.Analysed U) : b'.Analysed U := by
  induction l generalizing b with
  | nil => cases h
  | cons top l ih =>
    rw [Builder.closeFrom] at h
    split_ifs at h
    · cases h
      exact hb
    · obtain ⟨b₁, hreduce, h⟩ := ok_of_bind h
      exact ih h (reduce_analysed hreduce hb)

theorem reduceAll_analysed (h : Builder.reduceAll limits sizes l b = .ok b')
    (hb : b.Analysed U) : b'.Analysed U := by
  induction l generalizing b with
  | nil =>
    cases h
    exact hb
  | cons top l ih =>
    obtain ⟨b₁, hreduce, h⟩ := ok_of_bind h
    exact ih h (reduce_analysed hreduce hb)

theorem operator_analysed (h : b.operator limits sizes o = .ok b') (hb : b.Analysed U) :
    b'.Analysed U := by
  have hpush : ∀ {b₁ : Builder}, b₁.Analysed U → b₁.pushOperator limits sizes o = .ok b' →
      b'.Analysed U := by
    intro b₁ hb₁ h
    obtain ⟨⟨capacity, budget⟩, -, h⟩ := ok_of_bind h
    cases h
    exact hb₁
  unfold Builder.operator at h
  split_ifs at h
  · obtain ⟨b₁, h₁, h⟩ := ok_of_bind h
    exact hpush (reduceAbove_analysed h₁ hb) h
  · exact hpush hb h

/-- The text of a literal comes from its analysis. -/
theorem literal_analysed {text : Str} {isQuoted isPrefix : Bool} {offset : ℕ}
    (h : b.literal U limits sizes text isQuoted isPrefix offset = .ok b') (hb : b.Analysed U) :
    b'.Analysed U := by
  unfold Builder.literal at h
  split_ifs at h
  obtain ⟨analyzed, hanalyzed, h⟩ := ok_of_bind h
  dsimp only at h
  split_ifs at h with hcount
  obtain ⟨budget, -, h⟩ := ok_of_bind h
  obtain ⟨⟨kind, budget'⟩, hkind, h⟩ := ok_of_bind h
  obtain ⟨budget'', -, h⟩ := ok_of_bind h
  have hone : isQuoted = true ∨ analyzed.document.length = 1 := by
    rw [not_and, not_not] at hcount
    cases isQuoted with
    | true => exact .inl rfl
    | false => exact .inr ((List.length_map _).trans (hcount rfl))
  obtain ⟨a, ha, rfl⟩ := of_literalKind hone hkind
  refine addNode_analysed h hb fun t ht => ⟨text, _, analyzed, hanalyzed, ?_⟩
  exact literalOperand_texts ha ht

theorem parseOpening_analysed {rest : Str} (h : parseOpening limits sizes rest s = .ok s')
    (hs : s.builder.Analysed U) : s'.builder.Analysed U := by
  unfold parseOpening at h
  split_ifs at h
  obtain ⟨b, hb, h⟩ := ok_of_bind h
  cases h
  exact operator_analysed hb hs

theorem parseClosing_analysed {rest : Str} (h : parseClosing limits sizes rest s = .ok s')
    (hs : s.builder.Analysed U) : s'.builder.Analysed U := by
  unfold parseClosing at h
  by_cases hneed : s.need = true
  · rw [if_pos hneed] at h
    cases h
  · rw [if_neg hneed] at h
    obtain ⟨b, hb, h⟩ := ok_of_bind h
    by_cases hzero : s.parentheses = 0
    · rw [if_pos hzero] at h
      cases h
    · rw [if_neg hzero] at h
      cases h
      exact closeFrom_analysed hb hs

theorem parseQuoted_analysed {rest : Str} (h : parseQuoted U limits sizes rest s = .ok s')
    (hs : s.builder.Analysed U) : s'.builder.Analysed U := by
  unfold parseQuoted at h
  split_ifs at h
  obtain ⟨q, -, h⟩ := ok_of_bind h
  obtain ⟨b, hb, h⟩ := ok_of_bind h
  obtain ⟨budget, -, h⟩ := ok_of_bind h
  have hb' : b.Analysed U := literal_analysed hb hs
  cases h
  exact hb'

theorem parseWord_analysed {raw rest : Str} (h : parseWord U limits sizes raw rest s = .ok s')
    (hs : s.builder.Analysed U) : s'.builder.Analysed U := by
  unfold parseWord at h
  split at h
  · split_ifs at h
    obtain ⟨b, hb, h⟩ := ok_of_bind h
    cases h
    exact operator_analysed hb hs
  · split_ifs at h
    obtain ⟨b, hb, h⟩ := ok_of_bind h
    cases h
    exact literal_analysed hb hs

/-- One turn of the loop adds analysed literals only. -/
theorem parseStep_analysed {c : Char} {rest : Str} (h : parseStep U limits sizes c rest s = .ok s')
    (hs : s.builder.Analysed U) : s'.builder.Analysed U := by
  unfold parseStep at h
  split_ifs at h
  · cases h
    exact hs
  · exact parseOpening_analysed h hs
  · exact parseClosing_analysed h hs
  · exact parseQuoted_analysed h hs
  · exact parseWord_analysed h hs

theorem parseLoop_analysed {fuel : ℕ} (h : parseLoop U limits sizes fuel s = .ok s')
    (hs : s.builder.Analysed U) : s'.builder.Analysed U := by
  induction fuel generalizing s with
  | zero => cases h
  | succ fuel ih =>
    rw [parseLoop] at h
    split at h
    · cases h
      exact hs
    · obtain ⟨s₁, hstep, h⟩ := ok_of_bind h
      exact ih h (parseStep_analysed hstep hs)

theorem parseRoot_analysed {input : Str} {parentheses : ℕ} {p : ParsedQuery}
    (h : parseRoot limits sizes input parentheses b = .ok p) (hb : b.Analysed U) :
    ∀ k ∈ p.nodes.map (·.kind), ∀ t ∈ k.texts, PinCore.Analysed U t := by
  obtain ⟨b₁, hreduce, h⟩ := ok_of_bind h
  have hb₁ := reduceAll_analysed hreduce hb
  split at h
  · split_ifs at h
    obtain ⟨budget, -, h⟩ := ok_of_bind h
    obtain ⟨budget', -, h⟩ := ok_of_bind h
    cases h
    exact hb₁
  · cases h

/-- The literals of a parsed query are analysed texts. -/
theorem parse_analysed {input : Str} {p : ParsedQuery} (h : parse U limits sizes input = .ok p) :
    ∀ k ∈ p.nodes.map (·.kind), ∀ t ∈ k.texts, PinCore.Analysed U t := by
  unfold parse at h
  split_ifs at h
  obtain ⟨s, hloop, h⟩ := ok_of_bind h
  have hs := parseLoop_analysed (U := U) hloop fun k hk => absurd hk List.not_mem_nil
  unfold parseEnd at h
  split_ifs at h
  · obtain ⟨b, hb, h⟩ := ok_of_bind h
    exact parseRoot_analysed h (addNode_analysed hb hs fun t ht => absurd ht List.not_mem_nil)
  · exact parseRoot_analysed h hs

end

/-- What the evaluators assume of a query holds of a parsed one. -/
theorem parse_query (hU : U.Lawful) (hT : U.Tables) (hC : U.Current) {input : Str}
    {p : ParsedQuery} (h : parse U limits sizes input = .ok p) :
    ∃ q : Query, q.nodes = p.nodes.map (·.kind) ∧ q.root = p.root ∧ q.Analysed U := by
  rcases @parse_follows U limits sizes hU hT hC input with
    ⟨e, -, heq⟩ | ⟨offset, heq, -⟩ | ⟨p', t, heq, ht, hp⟩
  · cases h.symm.trans heq
  · cases h.symm.trans heq
  · cases h.symm.trans heq
    have hholds := hp.holds
    have hroot : p.root + 1 = (p.nodes.map (·.kind)).length := by
      rw [hholds.root_last, List.length_map]
    have hphrase : ∀ ts, Kind.phrase ts ∈ p.nodes.map (·.kind) → ts ≠ [] := by
      intro ts hts
      rw [hholds.nodes] at hts
      exact ht.phrase_ne hts
    refine ⟨⟨p.nodes.map (·.kind), p.root, hroot, hholds.children_lt,
      hholds.children_perm.nodup_iff.2 List.nodup_range, hphrase⟩, rfl, rfl, ?_⟩
    exact parse_analysed h

end

/-! ### An instance -/

theorem asciiUnicode_tables : asciiUnicode.Tables where
  decomposed c x hx := by
    rw [List.mem_singleton.1 hx]
    rfl
  composed _ _ _ _ h := by cases h

theorem asciiUnicode_current : asciiUnicode.Current where
  normalization := rfl
  segmentation := rfl
  case := rfl
  folded c mapped h := by
    change (if c.isUpper = true then some (c.toNat + 32) else none) = some mapped at h
    split_ifs at h with hc
    cases h
    have hrange := isUpper_iff.1 hc
    exact .inl (by omega)

/-- The query `a OR NOT b*`. -/
theorem parse_exact_or : ∃ p t, parse asciiUnicode default ⟨48, 8, 16, 24⟩
      ['a', ' ', 'O', 'R', ' ', 'N', 'O', 'T', ' ', 'b', '*'] = .ok p ∧
    Accepts asciiUnicode ['a', ' ', 'O', 'R', ' ', 'N', 'O', 'T', ' ', 'b', '*'] t ∧ p.Holds t ∧
    p.nodes.map (·.kind) = [.term [97], .prefixed [98], .not 1, .or 0 2] := by
  have h := parse_exact asciiUnicode_lawful asciiUnicode_tables asciiUnicode_current default
    ⟨48, 8, 16, 24⟩ ['a', ' ', 'O', 'R', ' ', 'N', 'O', 'T', ' ', 'b', '*']
  have hkinds : (match parse asciiUnicode default ⟨48, 8, 16, 24⟩
        ['a', ' ', 'O', 'R', ' ', 'N', 'O', 'T', ' ', 'b', '*'] with
      | .ok p => p.nodes.map (·.kind)
      | .error _ => []) = [.term [97], .prefixed [98], .not 1, .or 0 2] := by decide +kernel
  cases hp : parse asciiUnicode default ⟨48, 8, 16, 24⟩
      ['a', ' ', 'O', 'R', ' ', 'N', 'O', 'T', ' ', 'b', '*'] with
  | error e =>
    rw [hp] at hkinds
    cases hkinds
  | ok p =>
    rw [hp] at h hkinds
    obtain ⟨t, ht, -, hholds⟩ := h
    exact ⟨p, t, rfl, ht, hholds, hkinds⟩

end QuerySyntax

end PinCore
