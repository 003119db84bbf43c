import Mathlib.Algebra.GroupWithZero.Nat
import Mathlib.Tactic.Common
import Mathlib.Order.Basic
import Mathlib.Order.Defs.LinearOrder

/-!
# Identities

Block numbers, heap coordinates, owner references and the errors of the engine.  Machine
integers are natural numbers; the code's explicit range checks are kept.
-/

namespace PinCore

/-- The bytes of a term.  Terms are compared, hashed and measured by their UTF-8 bytes. -/
abbrev Text := List UInt8

instance : LawfulBEq Text := inferInstance

/-- What a codec finds wrong with its input. -/
inductive ErrorKind where
  | truncated
  | trailingBytes
  | overflow
  | nonCanonical
  | invalidValue
  | invalidOrder
  | invalidUtf8
  | limitExceeded
  | badMagic
  | unsupportedVersion
  | unsupportedFeatures
  | unknownTag
  deriving DecidableEq, Repr

/-- Structured errors of the engine.  `codecAt` is an error of the byte codecs with its place;
`codec` is one of a page or record, where no caller looks at the place or the kind. -/
inductive Error where
  | allocation
  | limit (what : String)
  | querySyntax (offset : ℕ)
  | invalidProfile
  | invalidDocument
  | duplicateDocument
  | foreignRelation
  | invalidParameters
  | invalidState
  | invalidStatistics
  | nonFiniteScore
  | budget
  | codecAt (offset : ℕ) (kind : ErrorKind)
  | codec
  /-- A failure raised by the host, not by the engine. -/
  | host
  deriving DecidableEq, Repr

/-- PostgreSQL's invalid block number, used as the end of every chain. -/
def noBlock : ℕ := 4294967295

/-- The bytes that a page holds. -/
def capacity : ℕ := 8168

/-- The number of dictionary buckets. -/
def buckets : ℕ := 512

/-- The number of pages that are committed at once. -/
def maxWalPages : ℕ := 3

/-- The length of the header of a page. -/
def pageHeader : ℕ := 16

/-- The length of the header of an owner page. -/
def ownerHeader : ℕ := 20

/-- The length of an owner slot. -/
def ownerBytes : ℕ := 40

/-- The length of a dictionary entry without its term. -/
def dictionaryEntry : ℕ := 32

/-- The length of the header of a posting page. -/
def postingHeader : ℕ := 24

/-- The length of the header of a direct posting page. -/
def directHeader : ℕ := postingHeader + 32

/-- The length of the header of a fragment. -/
def fragmentHeader : ℕ := 36

/-- The bytes of a prepared document that fit on one fragment. -/
def fragmentBytes : ℕ := capacity - fragmentHeader

/-- The bytes of a prepared document that fit on an owner page. -/
def inlineBytes : ℕ := capacity - ownerHeader - ownerBytes

/-- The length of the longest term. -/
def maxTermBytes : ℕ := 1024

/-- The number of tokens of the longest document. -/
def maxDocumentTokens : ℕ := 262144

/-- The length of the longest prepared document. -/
def maxDocumentBytes : ℕ := 8388608

/-- Number of owner slots that fit one page. -/
def ownerSlots : ℕ := (capacity - ownerHeader) / ownerBytes

/-- The incarnation counter is a `u64`. -/
def incarnationLimit : ℕ := 18446744073709551616

/-- The block is neither the metapage nor the missing block. -/
def blockValid (block : ℕ) : Prop := block ≠ 0 ∧ block ≠ noBlock

instance (block : ℕ) : Decidable (blockValid block) := inferInstanceAs (Decidable (_ ∧ _))

/-- The ends of a posting chain: both missing or both possible. -/
def postingPairValid (head tail : ℕ) : Prop :=
  (head = noBlock ∧ tail = noBlock) ∨ (blockValid head ∧ blockValid tail)

instance (head tail : ℕ) : Decidable (postingPairValid head tail) :=
  inferInstanceAs (Decidable (_ ∨ _))

/-- The ends of a page chain: both missing, or possible and in order. -/
def pairValid (head tail : ℕ) : Prop :=
  (head = noBlock ∧ tail = noBlock) ∨ (blockValid head ∧ blockValid tail ∧ head ≤ tail)

instance (head tail : ℕ) : Decidable (pairValid head tail) :=
  inferInstanceAs (Decidable (_ ∨ _))

/-- A validated heap offset domain. -/
structure HeapLayout where
  maxOffset : ℕ
  pos : 0 < maxOffset
  le : maxOffset ≤ 512

/-- A heap root coordinate. -/
structure RootTid where
  block : ℕ
  offset : ℕ
  deriving DecidableEq, Repr

/-- `RootTid::new` accepts the coordinate under `layout`. -/
def RootTid.Valid (layout : HeapLayout) (r : RootTid) : Prop :=
  r.block ≠ noBlock ∧ 0 < r.offset ∧ r.offset ≤ layout.maxOffset

instance (layout : HeapLayout) (r : RootTid) : Decidable (r.Valid layout) :=
  inferInstanceAs (Decidable (_ ∧ _))

/-- An immutable owner slot, qualified by its never-reused incarnation. -/
structure OwnerRef where
  page : ℕ
  slot : ℕ
  incarnation : ℕ
  deriving DecidableEq, Repr

/-- The coordinates `OwnerRef::read` and `OwnerRef::write` accept. -/
def OwnerRef.Valid (r : OwnerRef) : Prop :=
  blockValid r.page ∧ r.slot < ownerSlots ∧ r.incarnation ≠ 0

instance (r : OwnerRef) : Decidable r.Valid := inferInstanceAs (Decidable (_ ∧ _))

/-- The order of owner slots: by page, then by slot. -/
def OwnerRef.posLt (a b : OwnerRef) : Prop :=
  a.page < b.page ∨ (a.page = b.page ∧ a.slot < b.slot)

instance (a b : OwnerRef) : Decidable (a.posLt b) := inferInstanceAs (Decidable (_ ∨ _))

/-- The order every posting list keeps: later slots carry later incarnations. -/
def OwnerRef.Before (a b : OwnerRef) : Prop :=
  a.posLt b ∧ a.incarnation < b.incarnation

instance (a b : OwnerRef) : Decidable (a.Before b) := inferInstanceAs (Decidable (_ ∧ _))

/-- The stable place of a dictionary entry. -/
structure TermRef where
  page : ℕ
  offset : ℕ
  deriving DecidableEq, Repr

namespace OwnerRef

variable {a b c : OwnerRef}

theorem posLt_trans (h : a.posLt b) (h' : b.posLt c) : a.posLt c := by
  unfold posLt at *; omega

theorem posLt_irrefl : ¬ a.posLt a := by
  unfold posLt; omega

theorem Before.trans (h : a.Before b) (h' : b.Before c) : a.Before c :=
  ⟨posLt_trans h.1 h'.1, Nat.lt_trans h.2 h'.2⟩

theorem Before.irrefl : ¬ a.Before a := fun h => posLt_irrefl h.1

theorem Before.ne (h : a.Before b) : a ≠ b := by
  rintro rfl; exact Before.irrefl h

instance : Trans OwnerRef.Before OwnerRef.Before OwnerRef.Before := ⟨fun h h' => h.trans h'⟩

end OwnerRef

end PinCore
