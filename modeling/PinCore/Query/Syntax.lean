import PinCore.Analysis.Refusal
import PinCore.Lib.Precedence

/-!
# Query syntax

The grammar of query strings, version 1.  A string is cut into lexemes; lexemes mean tokens of the
expression grammar of `Precedence`, with NOT above AND above OR.  Unquoted literals must analyze to
one term.  `Accepts` is the language, with the tree of every string of it; `Tree.kinds` is the
postorder array of a tree.
-/

namespace PinCore

namespace QuerySyntax

open Precedence

/-! ### Lexemes -/

/-- The characters between lexemes. -/
def isSpace (c : Char) : Bool := c ∈ [' ', '\t', '\n', '\x0c', '\r']

/-- A character of an unquoted word. -/
def isWord (c : Char) : Bool := !isSpace c && !(c ∈ ['(', ')', '"'])

/-- The lexemes of a query. -/
inductive Lexeme where
  | opening
  | closing
  | quoted (text : Str)
  | word (raw : Str)
  deriving DecidableEq, Repr

/-- The characters between two quotes stand for a text. -/
inductive Quoted : Str → Str → Prop
  | nil : Quoted [] []
  | escape {c : Char} {body text : Str} (hc : c = '"' ∨ c = '\\') (h : Quoted body text) :
    Quoted ('\\' :: c :: body) (c :: text)
  | plain {c : Char} {body text : Str} (hq : c ≠ '"') (hb : c ≠ '\\') (h : Quoted body text) :
    Quoted (c :: body) (c :: text)

/-- Cuts a string into lexemes; a word is as long as possible. -/
inductive Lexes : Str → List Lexeme → Prop
  | nil : Lexes [] []
  | space {c : Char} {s : Str} {ls : List Lexeme} (hc : isSpace c = true) (h : Lexes s ls) :
    Lexes (c :: s) ls
  | opening {s : Str} {ls : List Lexeme} (h : Lexes s ls) : Lexes ('(' :: s) (.opening :: ls)
  | closing {s : Str} {ls : List Lexeme} (h : Lexes s ls) : Lexes (')' :: s) (.closing :: ls)
  | quoted {body text s : Str} {ls : List Lexeme} (hbody : Quoted body text) (h : Lexes s ls) :
    Lexes ('"' :: (body ++ '"' :: s)) (.quoted text :: ls)
  | word {raw s : Str} {ls : List Lexeme} (hne : raw ≠ []) (hraw : ∀ c ∈ raw, isWord c = true)
    (hs : ∀ c ∈ s.head?, isWord c = false) (h : Lexes s ls) : Lexes (raw ++ s) (.word raw :: ls)

/-! ### Expressions -/

/-- A leaf of a query. -/
inductive Operand where
  | none
  | term (text : Text)
  | prefixed (text : Text)
  | phrase (terms : List Text)
  deriving DecidableEq, Repr

/-- The binary connectives. -/
inductive Connective where
  | and
  | or
  deriving DecidableEq, Repr

/-- NOT binds tighter than AND, and AND tighter than OR. -/
def levels : Levels Connective where
  prec
    | .and => 2
    | .or => 1
  top := 3
  pos b := by cases b <;> decide
  lt b := by cases b <;> decide
  one_le_top := by decide

/-- A token of a query. -/
abbrev QueryTok := Tok Operand Connective

/-- The tree of a query. -/
abbrev QueryTree := Precedence.Tree Operand Connective

/-- The word of the negation. -/
def notWord : Str := ['N', 'O', 'T']

/-- The word of the conjunction. -/
def andWord : Str := ['A', 'N', 'D']

/-- The word of the disjunction. -/
def orWord : Str := ['O', 'R']

/-- The characters of a literal, without its terminal star. -/
def Literal (text : Str) : Prop := text ≠ [] ∧ '*' ∉ text ∧ '\\' ∉ text

instance (text : Str) : Decidable (Literal text) := inferInstanceAs (Decidable (_ ∧ _ ∧ _))

/-- The token that a lexeme means. -/
inductive Means (U : Unicode) : Lexeme → QueryTok → Prop
  | opening : Means U .opening .opening
  | closing : Means U .closing .closing
  | not : Means U (.word notWord) .unary
  | and : Means U (.word andWord) (.binary .and)
  | or : Means U (.word orWord) (.binary .or)
  | term {raw : Str} {t : Text} (hnot : raw ≠ notWord) (hand : raw ≠ andWord) (hor : raw ≠ orWord)
    (hraw : Literal raw) (ht : U.Yields raw [t]) : Means U (.word raw) (.leaf (.term t))
  | prefixed {text : Str} {t : Text} (htext : Literal text) (ht : U.Yields text [t]) :
    Means U (.word (text ++ ['*'])) (.leaf (.prefixed t))
  | phrase {text : Str} {terms : List Text} (ht : U.Yields text terms) :
    Means U (.quoted text) (.leaf (if terms = [] then .none else .phrase terms))

/-- The query strings with their trees; blank input is the empty query. -/
def Accepts (U : Unicode) (input : Str) (tree : QueryTree) : Prop :=
  ∃ ls, Lexes input ls ∧
    (ls = [] ∧ tree = .leaf .none ∨
      ∃ toks, List.Forall₂ (Means U) ls toks ∧ Derives levels 1 toks tree)

/-! ### Arrays of nodes -/

/-- The node of an operand. -/
def Operand.kind : Operand → Kind
  | none => .none
  | term t => .term t
  | prefixed t => .prefixed t
  | phrase ts => .phrase ts

/-- The node of a connective over its operands. -/
def Connective.kind : Connective → ℕ → ℕ → Kind
  | and => .and
  | or => .or

end QuerySyntax

namespace Precedence.Tree

open QuerySyntax

/-- The number of nodes. -/
def size : QueryTree → ℕ
  | leaf _ => 1
  | unary t => t.size + 1
  | binary _ l r => l.size + r.size + 1

/-- The nodes in postorder, when they are stored from index `base` on. -/
def kinds : QueryTree → ℕ → List Kind
  | leaf a, _ => [a.kind]
  | unary t, base => t.kinds base ++ [.not (base + t.size - 1)]
  | binary b l r, base => l.kinds base ++ r.kinds (base + l.size) ++
      [b.kind (base + l.size - 1) (base + l.size + r.size - 1)]

/-- Node `i` of the array is the root of the tree. -/
inductive Stored (nodes : List Kind) : ℕ → QueryTree → Prop
  | leaf {i : ℕ} {a : Operand} (h : nodes[i]? = some a.kind) : Stored nodes i (.leaf a)
  | unary {i c : ℕ} {t : QueryTree} (h : nodes[i]? = some (.not c)) (hc : c < i)
    (ht : Stored nodes c t) : Stored nodes i (.unary t)
  | binary {i c d : ℕ} {b : Connective} {l r : QueryTree} (h : nodes[i]? = some (b.kind c d))
    (hc : c < i) (hd : d < i) (hl : Stored nodes c l) (hr : Stored nodes d r) :
    Stored nodes i (.binary b l r)

end Precedence.Tree

namespace QuerySyntax

open Precedence.Tree

theorem size_pos (t : QueryTree) : 0 < t.size := by
  cases t <;> exact Nat.succ_pos _

theorem length_kinds (t : QueryTree) (base : ℕ) : (t.kinds base).length = t.size := by
  induction t generalizing base with
  | leaf a => rfl
  | unary t ih =>
    rw [Precedence.Tree.kinds, List.length_append, ih]
    rfl
  | binary b l r ihl ihr =>
    rw [Precedence.Tree.kinds, List.length_append, List.length_append, ihl, ihr]
    rfl

theorem getElem?_concat_cons {l post : List Kind} {k : Kind} {n : ℕ} (h : l.length = n) :
    (l ++ k :: post)[n]? = some k := by
  subst h
  rw [List.getElem?_append_right (Nat.le_refl _), Nat.sub_self]
  rfl

/-- A tree is stored where its nodes are. -/
theorem stored_kinds {pre post : List Kind} (t : QueryTree) :
    Stored (pre ++ t.kinds pre.length ++ post) (pre.length + t.size - 1) t := by
  induction t generalizing pre post with
  | leaf a => exact .leaf (by simp [kinds, size])
  | unary t ih =>
    have hpos := size_pos t
    have hlist : pre ++ kinds (.unary t) pre.length ++ post =
        pre ++ kinds t pre.length ++ .not (pre.length + size t - 1) :: post := by
      rw [kinds]
      simp
    rw [hlist]
    refine .unary (getElem?_concat_cons ?_) ?_ ih
    · rw [List.length_append, length_kinds, size]
      omega
    · rw [size]
      omega
  | binary b l r ihl ihr =>
    have hpos := size_pos l
    have hpos' := size_pos r
    have hlist : pre ++ kinds (.binary b l r) pre.length ++ post =
        pre ++ kinds l pre.length ++ (kinds r (pre.length + size l) ++
          b.kind (pre.length + size l - 1) (pre.length + size l + size r - 1) :: post) := by
      rw [kinds]
      simp
    have hlength : (pre ++ kinds l pre.length).length = pre.length + size l := by
      rw [List.length_append, length_kinds]
    have hr := @ihr (pre ++ kinds l pre.length)
      (b.kind (pre.length + size l - 1) (pre.length + size l + size r - 1) :: post)
    rw [hlength] at hr
    have hroot : (pre ++ kinds l pre.length ++ kinds r (pre.length + size l)).length =
        pre.length + size (.binary b l r) - 1 := by
      rw [List.length_append, hlength, length_kinds, size]
      omega
    rw [hlist, ← List.append_assoc]
    refine .binary (getElem?_concat_cons hroot) ?_ ?_ ?_ hr
    · rw [size]
      omega
    · rw [size]
      omega
    · rw [List.append_assoc]
      exact ihl

theorem children_kind (a : Operand) : a.kind.children = [] := by
  cases a <;> rfl

theorem Connective.children_kind (b : Connective) (c d : ℕ) : (b.kind c d).children = [c, d] := by
  cases b <;> rfl

/-- A node is a leaf of the tree or has children. -/
theorem mem_kinds {t : QueryTree} {base : ℕ} {k : Kind} (h : k ∈ t.kinds base) :
    (∃ a ∈ t.leaves, k = a.kind) ∨ k.children ≠ [] := by
  induction t generalizing base with
  | leaf a => exact .inl ⟨a, List.mem_singleton_self a, List.mem_singleton.1 h⟩
  | unary t ih =>
    rcases List.mem_append.1 h with h | h
    · exact ih h
    · rw [List.mem_singleton.1 h]
      exact .inr (List.cons_ne_nil _ _)
  | binary b l r ihl ihr =>
    rcases List.mem_append.1 h with h | h
    · rcases List.mem_append.1 h with h | h
      · exact (ihl h).imp_left fun ⟨a, ha, hk⟩ => ⟨a, List.mem_append_left _ ha, hk⟩
      · exact (ihr h).imp_left fun ⟨a, ha, hk⟩ => ⟨a, List.mem_append_right _ ha, hk⟩
    · rw [List.mem_singleton.1 h, b.children_kind]
      exact .inr (List.cons_ne_nil _ _)

/-- Children come first. -/
theorem children_lt {base i : ℕ} {t : QueryTree} {k : Kind}
    (h : (t.kinds base)[i]? = some k) : ∀ c ∈ k.children, c < base + i := by
  induction t generalizing base i with
  | leaf a =>
    obtain rfl := List.mem_singleton.1 (List.mem_of_getElem? h)
    intro c hc
    rw [children_kind] at hc
    cases hc
  | unary t ih =>
    have hpos := size_pos t
    rw [kinds, List.getElem?_append, length_kinds] at h
    split_ifs at h with hi
    · exact ih h
    · obtain rfl := List.mem_singleton.1 (List.mem_of_getElem? h)
      intro c hc
      have : c = base + size t - 1 := List.mem_singleton.1 hc
      omega
  | binary b l r ihl ihr =>
    have hpos := size_pos l
    have hpos' := size_pos r
    rw [kinds, List.getElem?_append, List.length_append, length_kinds, length_kinds] at h
    split_ifs at h with hi
    · rw [List.getElem?_append, length_kinds] at h
      split_ifs at h with hl
      · exact ihl h
      · intro c hc
        have := ihr h c hc
        omega
    · obtain rfl := List.mem_singleton.1 (List.mem_of_getElem? h)
      intro c hc
      rw [b.children_kind, List.mem_pair] at hc
      omega

/-- Every node but the root has one parent. -/
theorem children_perm (t : QueryTree) (base : ℕ) :
    ((t.kinds base).flatMap Kind.children).Perm (List.range' base (t.size - 1)) := by
  -- the root of a part closes its range
  have hclose : ∀ (t : QueryTree) (base : ℕ),
      List.range' base (t.size - 1) ++ [base + t.size - 1] = List.range' base t.size := by
    intro t base
    obtain ⟨n, hn⟩ := Nat.exists_eq_add_of_lt (size_pos t)
    rw [hn, Nat.zero_add, Nat.add_sub_cancel, List.range'_1_concat]
    rfl
  induction t generalizing base with
  | leaf a =>
    rw [kinds, List.flatMap_singleton, children_kind]
    exact List.Perm.refl []
  | unary t ih =>
    rw [kinds, List.flatMap_append, List.flatMap_singleton, size, Nat.add_sub_cancel, ← hclose]
    exact (ih base).append_right _
  | binary b l r ihl ihr =>
    rw [kinds, List.flatMap_append, List.flatMap_append, List.flatMap_singleton, b.children_kind,
      size, Nat.add_sub_cancel, ← List.range'_append_1, ← hclose l, ← hclose r,
      List.append_assoc _ [_]]
    refine (((ihl base).append (ihr (base + size l))).append_right _).trans ?_
    rw [List.append_assoc]
    exact List.Perm.append_left _ List.perm_middle

/-- A phrase of an accepted string has terms. -/
theorem Accepts.phrase_ne {U : Unicode} {input : Str} {t : QueryTree} (h : Accepts U input t)
    {base : ℕ} {terms : List Text} (hmem : .phrase terms ∈ t.kinds base) : terms ≠ [] := by
  have hmeans : ∀ {ls toks}, List.Forall₂ (Means U) ls toks → .leaf (.phrase terms) ∈ toks →
      ∃ l, Means U l (.leaf (.phrase terms)) := by
    intro ls toks htoks hleaf
    induction htoks with
    | nil => cases hleaf
    | @cons l _ _ _ hl _ ih =>
      rcases List.mem_cons.1 hleaf with rfl | hleaf
      · exact ⟨l, hl⟩
      · exact ih hleaf
  rcases mem_kinds hmem with ⟨a, ha, hk⟩ | hk
  · have ha' : a = .phrase terms := by
      cases a <;> cases hk
      rfl
    subst ha'
    obtain ⟨ls, -, ⟨-, rfl⟩ | ⟨toks, htoks, hderives⟩⟩ := h
    · cases List.mem_singleton.1 ha
    · obtain ⟨l, hl⟩ := hmeans htoks (hderives.mem_leaves _ ha)
      generalize htok : (Precedence.Tok.leaf (Operand.phrase terms) : QueryTok) = tok at hl
      cases hl with
      | @phrase _ terms' ht =>
        by_cases hterms : terms' = []
        · rw [if_pos hterms] at htok
          cases htok
        · rw [if_neg hterms] at htok
          cases htok
          exact hterms
      | term => cases htok
      | prefixed => cases htok
      | opening => cases htok
      | closing => cases htok
      | not => cases htok
      | and => cases htok
      | or => cases htok
  · exact absurd rfl hk

end QuerySyntax

end PinCore
