import PinCore.Codec.Positions

/-!
# Prepared documents

A document is its sequence of analysed terms; the position of a token is its index.
`PreparedDocument` is what `PreparedDocument::prepare` accepts, together with the encoded
payload that the owner page or its fragments store and the sorted directory of distinct terms
that `insert` links.
-/

namespace PinCore

/-- An analysed document. -/
abbrev Document := List Text

/-- Insert a term into a strictly sorted directory. -/
def insertTerm (t : Text) : List Text → List Text
  | [] => [t]
  | u :: us => if t = u then u :: us else if t < u then t :: u :: us else u :: insertTerm t us

/-- The distinct terms of a document in byte order. -/
def directory (d : Document) : List Text := d.foldr insertTerm []

/-! ### Payload bytes -/

/-- The positions of a term, ascending, counted from `i`. -/
def positionsFrom (t : Text) : ℕ → Document → List ℕ
  | _, [] => []
  | i, u :: us => if u = t then i :: positionsFrom t (i + 1) us else positionsFrom t (i + 1) us

/-- The payload record of one term. -/
def termRecord (d : Document) (t : Text) : List UInt8 :=
  let positions := positionsFrom t 0 d
  let stream := bytesU32 positions.length ++ deltaBytes 0 positions
  bytesU16 t.length ++ bytesU16 0 ++ bytesU32 stream.length ++ t ++ stream

/-- The complete payload: magic, profile, token and term counts, then one record per term. -/
def payload (d : Document) : List UInt8 :=
  [0x50, 0x44, 0x30, 0x32] ++ bytesU32 1 ++ bytesU32 d.length ++ bytesU32 (directory d).length ++
    (directory d).flatMap (termRecord d)

/-- A document that `PreparedDocument::prepare` accepts. -/
structure PreparedDocument where
  document : Document
  terms_ok : ∀ t ∈ document, t ≠ [] ∧ t.length ≤ maxTermBytes
  tokens_le : document.length ≤ maxDocumentTokens
  bytes_le : (payload document).length ≤ maxDocumentBytes

namespace PreparedDocument

variable (d : PreparedDocument)

/-- The payload of the document. -/
def bytes : List UInt8 := payload d.document

/-- The number of tokens. -/
def tokenCount : ℕ := d.document.length

/-- The number of different terms. -/
def termCount : ℕ := (directory d.document).length

/-- The term iterator. -/
def terms : List Text := directory d.document

end PreparedDocument

/-! ### The directory -/

theorem mem_insertTerm {t u : Text} {us : List Text} :
    u ∈ insertTerm t us ↔ u = t ∨ u ∈ us := by
  induction us with
  | nil => simp [insertTerm]
  | cons v vs ih =>
    unfold insertTerm
    split_ifs with h₁ h₂
    · subst h₁; simp
    · simp
    · simp only [List.mem_cons, ih]; tauto

theorem mem_directory {d : Document} {t : Text} : t ∈ directory d ↔ t ∈ d := by
  induction d with
  | nil => simp [directory]
  | cons u us ih =>
    change t ∈ insertTerm u (directory us) ↔ _
    rw [mem_insertTerm, ih, List.mem_cons]

theorem length_insertTerm_le (t : Text) (us : List Text) :
    (insertTerm t us).length ≤ us.length + 1 := by
  induction us with
  | nil => simp [insertTerm]
  | cons v vs ih =>
    unfold insertTerm
    split_ifs <;> simp only [List.length_cons] <;> omega

theorem length_directory_le (d : Document) : (directory d).length ≤ d.length := by
  induction d with
  | nil => simp [directory]
  | cons u us ih =>
    have := length_insertTerm_le u (directory us)
    change (insertTerm u (directory us)).length ≤ us.length + 1
    omega

theorem insertTerm_sorted {t : Text} {us : List Text} (h : us.Pairwise (· < ·)) :
    (insertTerm t us).Pairwise (· < ·) := by
  induction us with
  | nil => simp [insertTerm]
  | cons v vs ih =>
    obtain ⟨hv, hvs⟩ := List.pairwise_cons.1 h
    unfold insertTerm
    split_ifs with h₁ h₂
    · exact h
    · refine List.pairwise_cons.2 ⟨fun u hu => ?_, h⟩
      rcases List.mem_cons.1 hu with rfl | hu
      · exact h₂
      · exact List.lt_trans h₂ (hv u hu)
    · refine List.pairwise_cons.2 ⟨fun u hu => ?_, ih hvs⟩
      rcases mem_insertTerm.1 hu with rfl | hu
      · rcases List.le_iff_lt_or_eq.1 (List.not_lt.1 h₂) with h | h
        · exact h
        · exact absurd h.symm h₁
      · exact hv u hu

/-- The directory is strictly sorted, so every term is linked once. -/
theorem directory_sorted (d : Document) : (directory d).Pairwise (· < ·) := by
  induction d with
  | nil => simp [directory]
  | cons u us ih => exact insertTerm_sorted ih

theorem directory_nodup (d : Document) : (directory d).Nodup :=
  (directory_sorted d).imp fun h => by rintro rfl; exact List.lt_irrefl _ h

theorem PreparedDocument.length_bytes (d : PreparedDocument) :
    16 ≤ d.bytes.length ∧ d.bytes.length ≤ maxDocumentBytes := by
  refine ⟨?_, d.bytes_le⟩
  simp [bytes, payload, bytesU32, bytesU16]

end PinCore
