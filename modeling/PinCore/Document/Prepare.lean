import Mathlib.Data.List.SplitBy
import PinCore.Document.Directory

/-!
# Preparing a document

`prepare` sorts the tokens by term and position, measures the groups of one term each, and writes
them to a buffer of the measured size.  What it writes is the payload that `validate` accepts.
-/

namespace PinCore

open Reader

/-- A token of the analysis. -/
structure Token where
  term : Text
  position : ℕ
  deriving DecidableEq, Repr

/-- The tokens of a document. -/
def tokensOf (d : Document) : List Token := d.zipIdx.map fun x => ⟨x.1, x.2⟩

/-- By term, then by position. -/
def Token.le (a b : Token) : Bool :=
  decide (a.term < b.term ∨ (a.term = b.term ∧ a.position ≤ b.position))

/-- The encoded bytes and the counts of a prepared document. -/
structure Payload where
  bytes : List UInt8
  tokens : ℕ
  terms : ℕ
  deriving DecidableEq, Repr

namespace PreparedDocument

/-- The sorted tokens in runs of one term. -/
def groups (d : Document) : List (List Token) :=
  ((tokensOf d).mergeSort Token.le).splitBy fun a b => decide (a.term = b.term)

/-- The length of a position stream, added to `bytes`. -/
def streamLength : ℕ → ℕ → List Token → ℕ
  | bytes, _, [] => bytes
  | bytes, previous, token :: group =>
    streamLength (bytes + varU32Bits (token.position - previous)) token.position group

/-- The first pass: the number of terms and the length of the payload. -/
def measureGroups : ℕ → ℕ → List (List Token) → Except Error (ℕ × ℕ)
  | terms, length, [] => .ok (terms, length)
  | terms, length, [] :: groups => measureGroups terms length groups
  | terms, length, (first :: group) :: groups =>
    if first.term = [] ∨ maxTermBytes < first.term.length then .error (.limit "term bytes")
    else if u32Limit ≤ terms + 1 then .error (.limit "document terms")
    else
      let size := 8 + first.term.length + streamLength 4 0 (first :: group)
      if usizeLimit ≤ length + size then .error (.limit "document payload")
      else measureGroups (terms + 1) (length + size) groups

/-- The delta-coded positions of a group. -/
def writeStream : ℕ → List Token → Writer.Emit
  | _, [] => return ⟨⟩
  | previous, token :: group => do
    Writer.varU32 (token.position - previous)
    writeStream token.position group

/-- The second pass. -/
def writeGroups : List (List Token) → Writer.Emit
  | [] => return ⟨⟩
  | [] :: groups => writeGroups groups
  | (first :: group) :: groups => do
    Writer.u16 first.term.length
    Writer.u16 0
    Writer.u32 (streamLength 4 0 (first :: group))
    Writer.put first.term
    Writer.u32 (first :: group).length
    writeStream 0 (first :: group)
    writeGroups groups

/-- Writes the payload of a document from its counts and its tokens by term. -/
def writePayload (tokens terms : ℕ) (groups : List (List Token)) : Writer.Emit := do
  Writer.put documentMagic
  Writer.u32 profileId
  Writer.u32 tokens
  Writer.u32 terms
  writeGroups groups

/-- Sorts the tokens and encodes each term once.  `retained` is what the analysis still holds,
`tokenSize` the size of a token reference. -/
def prepare (tokenSize retained : ℕ) (d : Document) (memoryBytes : ℕ) : Except Error Payload :=
  if maxDocumentTokens < d.length then .error (.limit "document positions")
  else do
    let budget ← (MemoryBudget.new memoryBytes).vector retained 1
    let budget ← budget.vector d.length tokenSize
    let (terms, length) ← measureGroups 0 16 (groups d)
    if maxDocumentBytes < length then .error (.limit "document payload")
    else do
      let _ ← budget.vector length 1
      match writePayload d.length terms (groups d) (Writer.new length) with
      | (.error e, _) => .error e
      | (.ok _, w) => .ok ⟨w.buffer, d.length, terms⟩

end PreparedDocument

/-! ### Runs of one term -/

/-- The tokens that a directory entry lists. -/
def TermPositions.group (x : TermPositions) : List Token := x.2.map (Token.mk x.1)

section

variable {d : Document} {t : Text} {p : ℕ} {a b c : Token}

theorem mem_tokensOf : a ∈ tokensOf d ↔ d[a.position]? = some a.term := by
  rw [tokensOf, List.mem_map]
  constructor
  · rintro ⟨x, hx, rfl⟩
    exact List.mem_zipIdx_iff_getElem?.1 hx
  · exact fun h => ⟨(a.term, a.position), List.mem_zipIdx_iff_getElem?.2 h, rfl⟩

theorem tokensOf_nodup : (tokensOf d).Nodup := by
  have hpos : (tokensOf d).map Token.position = List.range' 0 d.length := by
    rw [tokensOf, List.map_map, ← List.zipIdx_map_snd]
    rfl
  refine List.Nodup.of_map Token.position ?_
  rw [hpos]
  exact List.nodup_range'

theorem Token.le_iff :
    a.le b = true ↔ a.term < b.term ∨ (a.term = b.term ∧ a.position ≤ b.position) := by
  simp [Token.le]

theorem Token.le_trans (h : a.le b) (h' : b.le c) : a.le c := by
  rw [le_iff] at *
  rcases h with h | ⟨h, hp⟩ <;> rcases h' with h' | ⟨h', hp'⟩
  · exact .inl (List.lt_trans h h')
  · exact .inl (h' ▸ h)
  · exact .inl (h ▸ h')
  · exact .inr ⟨h.trans h', Nat.le_trans hp hp'⟩

theorem Token.le_total (a b : Token) : (a.le b || b.le a) = true := by
  rw [Bool.or_eq_true, le_iff, le_iff]
  by_cases h : a.term < b.term
  · exact .inl (.inl h)
  · rcases List.le_iff_lt_or_eq.1 (List.not_lt.1 h) with h | h
    · exact .inr (.inl h)
    · rcases Nat.le_total a.position b.position with hp | hp
      · exact .inl (.inr ⟨h.symm, hp⟩)
      · exact .inr (.inr ⟨h, hp⟩)

theorem Token.le_antisymm (h : a.le b) (h' : b.le a) : a = b := by
  rw [le_iff] at *
  rcases h with h | ⟨h, hp⟩ <;> rcases h' with h' | ⟨h', hp'⟩
  · exact absurd (List.lt_trans h h') (List.lt_irrefl _)
  · exact absurd (h' ▸ h) (List.lt_irrefl _)
  · exact absurd (h ▸ h') (List.lt_irrefl _)
  · cases a
    cases b
    simp only at h hp hp'
    rw [h, Nat.le_antisymm hp hp']

theorem mem_group {x : TermPositions} : a ∈ x.group ↔ a.term = x.1 ∧ a.position ∈ x.2 := by
  rw [TermPositions.group, List.mem_map]
  constructor
  · rintro ⟨p, hp, rfl⟩
    exact ⟨rfl, hp⟩
  · rintro ⟨h, hp⟩
    exact ⟨a.position, hp, by rw [← h]⟩

/-- Sorting puts the tokens in the order of the directory. -/
theorem mergeSort_tokensOf :
    (tokensOf d).mergeSort Token.le = (records d).flatMap TermPositions.group := by
  have hterms : (records d).Pairwise fun x y => x.1 < y.1 := by
    have := directory_sorted d
    rwa [← map_fst_records, List.pairwise_map] at this
  have hsorted : ((tokensOf d).mergeSort Token.le).Pairwise fun a b => a.le b :=
    @List.pairwise_mergeSort _ Token.le (fun _ _ _ => Token.le_trans) Token.le_total _
  refine List.Perm.eq_of_pairwise (fun a b _ _ => Token.le_antisymm) hsorted ?_ ?_
  · refine List.pairwise_flatMap.2 ⟨fun x hx => ?_, hterms.imp fun {x y} hlt a ha b hb => ?_⟩
    · rw [TermPositions.group, List.pairwise_map, (mem_records.1 hx).2]
      refine positionsFrom_sorted.imp fun {p q} hlt => ?_
      exact Token.le_iff.2 (.inr ⟨rfl, Nat.le_of_lt hlt⟩)
    · rw [Token.le_iff, (mem_group.1 ha).1, (mem_group.1 hb).1]
      exact .inl hlt
  · refine (List.mergeSort_perm _ _).trans
      ((List.perm_ext_iff_of_nodup tokensOf_nodup ?_).2 fun a => ?_)
    · refine List.Nodup.of_map Token.position ?_
      have hmap : ((records d).flatMap TermPositions.group).map Token.position =
          (records d).flatMap Prod.snd := by
        rw [List.map_flatMap]
        refine List.flatMap_congr fun x _ => ?_
        rw [TermPositions.group, List.map_map]
        exact List.map_id _
      rw [hmap]
      exact nodup_flatMap_records
    · rw [mem_tokensOf, List.mem_flatMap]
      constructor
      · intro h
        refine ⟨(a.term, positionsFrom a.term 0 d), mem_records.2 ⟨List.mem_of_getElem? h, rfl⟩, ?_⟩
        exact mem_group.2 ⟨rfl, mem_positions.2 h⟩
      · rintro ⟨x, hx, ha⟩
        obtain ⟨h₁, h₂⟩ := mem_group.1 ha
        rw [(mem_records.1 hx).2, ← h₁] at h₂
        exact mem_positions.1 h₂

/-- The runs of the sorted tokens are the entries of the directory. -/
theorem groups_eq : PreparedDocument.groups d = (records d).map TermPositions.group := by
  have hne : ∀ x ∈ records d, x.group ≠ [] := fun x hx h => by
    rw [TermPositions.group, List.map_eq_nil_iff, (mem_records.1 hx).2] at h
    exact positionsFrom_ne_nil (mem_records.1 hx).1 h
  have hterms : (records d).Pairwise fun x y => x.1 < y.1 := by
    have := directory_sorted d
    rwa [← map_fst_records, List.pairwise_map] at this
  rw [PreparedDocument.groups, mergeSort_tokensOf, List.flatMap_def]
  refine List.splitBy_flatten (fun h => ?_) (fun g hg => ?_) ?_
  · obtain ⟨x, hx, hnil⟩ := List.mem_map.1 h
    exact hne x hx hnil
  · obtain ⟨x, -, rfl⟩ := List.mem_map.1 hg
    refine List.Pairwise.isChain (List.pairwise_of_forall_mem_list fun a ha b hb => ?_)
    exact decide_eq_true ((mem_group.1 ha).1.trans (mem_group.1 hb).1.symm)
  · refine List.Pairwise.isChain ?_
    rw [List.pairwise_map]
    refine List.Pairwise.imp_of_mem (fun {x y} hx hy hlt => ⟨hne x hx, hne y hy, ?_⟩) hterms
    have h₁ := (mem_group.1 (List.getLast_mem (hne x hx))).1
    have h₂ := (mem_group.1 (List.head_mem (hne y hy))).1
    refine decide_eq_false fun h => ?_
    rw [h₁, h₂] at h
    exact absurd (h ▸ hlt) (List.lt_irrefl _)

end

/-! ### The two passes -/

namespace PreparedDocument

section

variable {t : Text} {ps : List ℕ} {recs : List TermPositions} {x : TermPositions}
  {bytes previous terms length tokens : ℕ}

theorem length_recordBytes :
    (recordBytes x).length = 8 + x.1.length + (4 + (deltaBytes 0 x.2).length) := by
  simp only [recordBytes, entryBytes, positionBytes, List.length_append, length_bytesU16,
    length_bytesU32]

/-- The measured length of a stream is the length that is written. -/
theorem streamLength_eq (hlt : ∀ p ∈ ps, p < u32Limit) :
    streamLength bytes previous (ps.map (Token.mk t)) = bytes +
    (deltaBytes previous ps).length := by
  induction ps generalizing bytes previous with
  | nil => rfl
  | cons p ps ih =>
    have hp : p - previous < u32Limit := by
      have := hlt p List.mem_cons_self
      omega
    rw [List.map_cons, streamLength, ih fun q hq => hlt q (List.mem_cons_of_mem _ hq), deltaBytes,
      List.length_append, length_varU32Bytes hp, Nat.add_assoc]

theorem writeStream_writes :
    Writer.Writes (writeStream previous (ps.map (Token.mk t))) (deltaBytes previous ps) := by
  induction ps generalizing previous with
  | nil => exact .nil
  | cons p ps ih => exact Writer.Writes.put.bind ih

/-- The entries that the passes go through. -/
def Encodes (recs : List TermPositions) : Prop :=
  ∀ x ∈ recs, x.2 ≠ [] ∧ ∀ p ∈ x.2, p < u32Limit

theorem Encodes.group (h : Encodes recs) (hx : x ∈ recs) :
    ∃ first rest, x.group = first :: rest ∧ first.term = x.1 ∧ (first :: rest).length = x.2.length ∧
      streamLength 4 0 (first :: rest) = (positionBytes x.2).length := by
  obtain ⟨hne, hlt⟩ := h x hx
  obtain ⟨p, ps, hps⟩ := List.exists_cons_of_ne_nil hne
  have hgroup : x.group = ⟨x.1, p⟩ :: ps.map (Token.mk x.1) := by
    rw [TermPositions.group, hps, List.map_cons]
  refine ⟨_, _, hgroup, rfl, ?_, ?_⟩
  · rw [← hgroup, TermPositions.group, List.length_map]
  · rw [← hgroup, TermPositions.group, streamLength_eq hlt, positionBytes, List.length_append,
      length_bytesU32]

theorem Encodes.tail (h : Encodes (x :: recs)) : Encodes recs :=
  fun y hy => h y (List.mem_cons_of_mem _ hy)

theorem measureGroups_eq (h : Encodes recs) (ht : ∀ x ∈ recs, x.1 ≠ [] ∧ x.1.length ≤ maxTermBytes)
    (hterms : terms + recs.length < u32Limit)
    (hlen : length + (recs.flatMap recordBytes).length < usizeLimit) :
    measureGroups terms length (recs.map TermPositions.group) =
      .ok (terms + recs.length, length + (recs.flatMap recordBytes).length) := by
  induction recs generalizing terms length with
  | nil => rfl
  | cons x recs ih =>
    obtain ⟨first, rest, hgroup, hterm, -, hsize⟩ := h.group List.mem_cons_self
    obtain ⟨hne, hmax⟩ := ht x List.mem_cons_self
    have hbytes : 8 + x.1.length + (positionBytes x.2).length = (recordBytes x).length := by
      rw [length_recordBytes, positionBytes, List.length_append, length_bytesU32]
    rw [List.flatMap_cons, List.length_append] at hlen ⊢
    rw [List.length_cons] at hterms ⊢
    have hrest : measureGroups (terms + 1) (length + (recordBytes x).length)
        (recs.map TermPositions.group) = _ :=
      ih h.tail (fun y hy => ht y (List.mem_cons_of_mem _ hy)) (by omega) (by omega)
    rw [List.map_cons, hgroup, measureGroups]
    simp only [hterm, hsize, hbytes]
    rw [if_neg (not_or.2 ⟨hne, Nat.not_lt.2 hmax⟩), if_neg (by omega), if_neg (by omega), hrest]
    simp only [Nat.add_assoc, Nat.add_comm 1]

/-- The first pass only accepts terms within the limits. -/
theorem of_measureGroups {counts : ℕ × ℕ} (h : Encodes recs)
    (hm : measureGroups terms length (recs.map TermPositions.group) = .ok counts) :
    (∀ x ∈ recs, x.1 ≠ [] ∧ x.1.length ≤ maxTermBytes) ∧
      counts.2 = length + (recs.flatMap recordBytes).length := by
  induction recs generalizing terms length with
  | nil =>
    cases hm
    exact ⟨fun _ h => absurd h List.not_mem_nil, rfl⟩
  | cons x recs ih =>
    obtain ⟨first, rest, hgroup, hterm, -, hsize⟩ := h.group List.mem_cons_self
    have hbytes : 8 + x.1.length + (positionBytes x.2).length = (recordBytes x).length := by
      rw [length_recordBytes, positionBytes, List.length_append, length_bytesU32]
    rw [List.map_cons, hgroup, measureGroups] at hm
    simp only [hterm, hsize, hbytes] at hm
    split_ifs at hm with h₁ h₂ h₃
    obtain ⟨hne, hmax⟩ := not_or.1 h₁
    obtain ⟨hrest, hlen⟩ := ih h.tail hm
    refine ⟨fun y hy => ?_, by rw [hlen, List.flatMap_cons, List.length_append, Nat.add_assoc]⟩
    rcases List.mem_cons.1 hy with rfl | hy
    · exact ⟨hne, Nat.not_lt.1 hmax⟩
    · exact hrest y hy

theorem writeGroups_writes (h : Encodes recs) :
    Writer.Writes (writeGroups (recs.map TermPositions.group)) (recs.flatMap recordBytes) := by
  induction recs with
  | nil => exact .nil
  | cons x recs ih =>
    obtain ⟨first, rest, hgroup, hterm, hcount, hsize⟩ := h.group List.mem_cons_self
    have hstream : Writer.Writes (writeStream 0 (first :: rest)) (deltaBytes 0 x.2) := by
      rw [← hgroup]
      exact writeStream_writes
    have hbytes : (x :: recs).flatMap recordBytes = bytesU16 x.1.length ++ (bytesU16 0 ++
        (bytesU32 (positionBytes x.2).length ++ (x.1 ++ (bytesU32 x.2.length ++
          (deltaBytes 0 x.2 ++ recs.flatMap recordBytes))))) := by
      rw [List.flatMap_cons, recordBytes, entryBytes]
      simp only [positionBytes, List.append_assoc]
    rw [List.map_cons, hgroup, writeGroups, hterm, hsize, hcount, hbytes]
    exact Writer.Writes.put.bind (Writer.Writes.put.bind (Writer.Writes.put.bind
      (Writer.Writes.put.bind (Writer.Writes.put.bind (hstream.bind (ih h.tail))))))

theorem writePayload_writes (h : Encodes recs) :
    Writer.Writes (writePayload tokens recs.length (recs.map TermPositions.group))
      (encodeDocument tokens recs) := by
  have hbytes : encodeDocument tokens recs = documentMagic ++ (bytesU32 profileId ++
      (bytesU32 tokens ++ (bytesU32 recs.length ++ recs.flatMap recordBytes))) := by
    simp only [encodeDocument, List.append_assoc]
  rw [hbytes]
  exact Writer.Writes.put.bind (Writer.Writes.put.bind (Writer.Writes.put.bind
    (Writer.Writes.put.bind (writeGroups_writes h))))

end

section

variable {d : Document} {tokenSize retained memoryBytes : ℕ}

theorem records_encodes (hlen : d.length ≤ maxDocumentTokens) : Encodes (records d) := by
  have hu32 : maxDocumentTokens < u32Limit := by decide
  intro x hx
  obtain ⟨hx₁, hx₂⟩ := mem_records.1 hx
  rw [hx₂]
  refine ⟨positionsFrom_ne_nil hx₁, fun p hp => ?_⟩
  have := (List.getElem?_eq_some_iff.1 (mem_positions.1 hp)).1
  omega

theorem length_payload : (payload d).length = 16 + ((records d).flatMap recordBytes).length := by
  rw [payload_eq, encodeDocument_eq, List.length_append]
  rfl

/-- Given the memory, a document within the limits is encoded. -/
theorem prepare_eq (ht : ∀ t ∈ d, t ≠ [] ∧ t.length ≤ maxTermBytes)
    (hlen : d.length ≤ maxDocumentTokens) (hbytes : (payload d).length ≤ maxDocumentBytes)
    (hmem : retained + d.length * tokenSize + (payload d).length ≤ memoryBytes) :
    prepare tokenSize retained d memoryBytes =
      .ok ⟨payload d, d.length, (directory d).length⟩ := by
  have hu32 : maxDocumentTokens < u32Limit := by decide
  have husize : maxDocumentBytes < usizeLimit := by decide
  have hcount : (records d).length = (directory d).length := by rw [records, List.length_map]
  have hdir := length_directory_le d
  have hencodes := records_encodes hlen
  have hpayload := length_payload (d := d)
  have hmeasure : measureGroups 0 16 (groups d) =
      .ok ((directory d).length, (payload d).length) := by
    rw [groups_eq, measureGroups_eq hencodes (fun x hx => ht x.1 (mem_records.1 hx).1) (by omega)
      (by omega), hpayload, hcount, Nat.zero_add]
  have hwrites : Writer.Writes (writePayload d.length (directory d).length (groups d))
      (payload d) := by
    rw [payload_eq, groups_eq, ← hcount]
    exact writePayload_writes hencodes
  obtain ⟨w, hw, hbuffer⟩ := hwrites.buffer (by omega)
  have hcharge : (MemoryBudget.new memoryBytes).vector retained 1 =
      .ok ⟨memoryBytes, 0 + retained * 1⟩ := if_pos (by simp only [MemoryBudget.new]; omega)
  have htokens : (⟨memoryBytes, 0 + retained * 1⟩ : MemoryBudget).vector d.length tokenSize =
      .ok ⟨memoryBytes, 0 + retained * 1 + d.length * tokenSize⟩ :=
    if_pos (by simp only; omega)
  have hbuf : (⟨memoryBytes, 0 + retained * 1 + d.length * tokenSize⟩ : MemoryBudget).vector
      (payload d).length 1 = .ok ⟨memoryBytes, 0 + retained * 1 + d.length * tokenSize +
        (payload d).length * 1⟩ := if_pos (by simp only; omega)
  rw [prepare, if_neg (Nat.not_lt.2 hlen), hcharge, ok_bind, htokens, ok_bind, hmeasure, ok_bind]
  simp only [if_neg (Nat.not_lt.2 hbytes)]
  rw [hbuf, ok_bind, hw]
  simp only [hbuffer]

/-- Only documents within the limits are encoded, and the result is their payload. -/
theorem of_prepare {p : Payload} (h : prepare tokenSize retained d memoryBytes = .ok p) :
    (∀ t ∈ d, t ≠ [] ∧ t.length ≤ maxTermBytes) ∧ d.length ≤ maxDocumentTokens ∧
      (payload d).length ≤ maxDocumentBytes ∧
      p = ⟨payload d, d.length, (directory d).length⟩ := by
  have hp := h
  unfold prepare at h
  split_ifs at h with hlen
  have hle := Nat.not_lt.1 hlen
  obtain ⟨b₁, h₁, h⟩ := ok_of_bind h
  obtain ⟨b₂, h₂, h⟩ := ok_of_bind h
  obtain ⟨⟨terms, length⟩, hm, h⟩ := ok_of_bind h
  simp only at h
  split_ifs at h with hbytes
  obtain ⟨b₃, h₃, -⟩ := ok_of_bind h
  obtain ⟨-, rfl⟩ := MemoryBudget.of_vector h₁
  obtain ⟨-, rfl⟩ := MemoryBudget.of_vector h₂
  obtain ⟨hmem, -⟩ := MemoryBudget.of_vector h₃
  rw [groups_eq] at hm
  obtain ⟨hterms, hlength⟩ := of_measureGroups (records_encodes hle) hm
  rw [← length_payload] at hlength
  have hlength' : length = (payload d).length := hlength
  subst hlength'
  have ht : ∀ t ∈ d, t ≠ [] ∧ t.length ≤ maxTermBytes := fun t ht =>
    hterms (t, positionsFrom t 0 d) (mem_records.2 ⟨ht, rfl⟩)
  refine ⟨ht, hle, Nat.not_lt.1 hbytes, ?_⟩
  simp only [MemoryBudget.new, Nat.mul_one, Nat.zero_add] at hmem
  rw [prepare_eq ht hle (Nat.not_lt.1 hbytes) hmem] at hp
  cases hp
  rfl

/-- The encoder's result is the prepared document with its payload and counts. -/
theorem prepare_refines {p : Payload} (h : prepare tokenSize retained d memoryBytes = .ok p) :
    ∃ prepared : PreparedDocument, prepared.document = d ∧
      p = ⟨prepared.bytes, prepared.tokenCount, prepared.termCount⟩ := by
  obtain ⟨ht, hlen, hbytes, rfl⟩ := of_prepare h
  exact ⟨⟨d, ht, hlen, hbytes⟩, rfl, rfl⟩

end

end PreparedDocument

/-! ### Decoding -/

namespace DocumentTerms

/-- The remaining entries, each with its positions. -/
def decode : ℕ → DocumentTerms → Except Error (List TermPositions)
  | 0, _ => .ok []
  | n + 1, it =>
    match it.next with
    | (none, _) => .ok []
    | (some (.error e), _) => .error e
    | (some (.ok entry), it) => do
      let positions ← entry.positionStream
      let (ps, _) ← positions.iter.collect positions.count
      let recs ← decode n it
      .ok ((entry.term, ps) :: recs)

end DocumentTerms

/-- The entries of a payload, read through its term iterator. -/
def Payload.decode (p : Payload) : Except Error (List TermPositions) :=
  DocumentTerms.decode p.terms ⟨Reader.new (p.bytes.drop 16), p.terms⟩

section

variable {tokens terms seen memoryBytes : ℕ} {previous : Text} {recs : List TermPositions}
  {it : DocumentTerms} {bytes : List UInt8} {d : Document}

theorem DocumentTerms.At.decode (h : it.At recs) (htok : tokens ≤ maxDocumentTokens)
    (hok : Follows tokens previous seen recs) : DocumentTerms.decode recs.length it = .ok recs := by
  induction recs generalizing it previous seen with
  | nil => rfl
  | cons x recs ih =>
    obtain ⟨⟨it', hnext, hat⟩, hstream, hlists⟩ := h.next htok hok
    obtain ⟨-, hok'⟩ := Follows.cons_iff.1 hok
    obtain ⟨it₁, hcollect⟩ := PositionIter.collect_lists hlists
    have hc : x.stream.iter.collect x.stream.count = .ok (x.2, it₁) := hcollect
    rw [List.length_cons, DocumentTerms.decode, hnext]
    simp only [hstream, ok_bind]
    rw [hc, ok_bind, ih hat hok']
    rfl

/-- Decoding the payload of a directory gives the directory. -/
theorem Directory.decode (h : Directory tokens recs)
    (hlen : (encodeDocument tokens recs).length ≤ maxDocumentBytes) :
    Payload.decode ⟨encodeDocument tokens recs, tokens, recs.length⟩ = .ok recs := by
  have hdrop : (encodeDocument tokens recs).drop 16 = recs.flatMap recordBytes := rfl
  have hat := at_directory hlen
  have hle : (recs.flatMap recordBytes).length ≤ maxDocumentBytes := hat.bytes_le
  have hterms : DocumentTerms.At ⟨Reader.new (recs.flatMap recordBytes), recs.length⟩ recs :=
    ⟨fits_new hle, hle, rfl, rfl⟩
  rw [Payload.decode, hdrop]
  exact hterms.decode h.tokens_le h.follows

/-- Preparing and decoding are inverse: the payload of a document is accepted and decoded to its
tokens, and every accepted byte string is the payload of the document that it decodes to. -/
theorem prepare_decode :
    (∀ (d : Document) (tokenSize retained memoryBytes scratch : ℕ),
      (∀ t ∈ d, TermOk t) → d.length ≤ maxDocumentTokens → (payload d).length ≤ maxDocumentBytes →
      retained + d.length * tokenSize + (payload d).length ≤ memoryBytes →
      (d.length + 63) / 64 * 8 ≤ scratch →
      ∃ p recs, PreparedDocument.prepare tokenSize retained d memoryBytes = .ok p ∧
        p.tokens = d.length ∧ p.terms = (directory d).length ∧
        Document.validate p.bytes scratch = .ok (p.tokens, p.terms) ∧
        p.decode = .ok recs ∧ rebuild p.tokens recs = d) ∧
    ∀ (bytes : List UInt8) (tokens terms tokenSize retained memoryBytes scratch : ℕ),
      Document.validate bytes scratch = .ok (tokens, terms) →
      retained + tokens * tokenSize + bytes.length ≤ memoryBytes →
      ∃ recs, Payload.decode ⟨bytes, tokens, terms⟩ = .ok recs ∧
        (∀ t ∈ rebuild tokens recs, TermOk t) ∧
        PreparedDocument.prepare tokenSize retained (rebuild tokens recs) memoryBytes =
          .ok ⟨bytes, tokens, terms⟩ := by
  constructor
  · intro d tokenSize retained memoryBytes scratch ht hlen hbytes hmem hscratch
    have hcount : (records d).length = (directory d).length := by rw [records, List.length_map]
    have hdir := records_directory ht hlen
    have hprepare := PreparedDocument.prepare_eq (fun t h => ⟨(ht t h).1, (ht t h).2.1⟩) hlen
      hbytes hmem
    rw [payload_eq, ← hcount] at hprepare
    rw [payload_eq] at hbytes
    exact ⟨_, records d, hprepare, rfl, hcount, validate_encode hdir hbytes hscratch,
      hdir.decode hbytes, rebuild_records ht hlen⟩
  · intro bytes tokens terms tokenSize retained memoryBytes scratch hv hmem
    obtain ⟨recs, rfl, rfl, hdir, hlen⟩ := of_validate hv
    refine ⟨recs, hdir.decode hlen, hdir.rebuild_termOk, ?_⟩
    have hcount : (directory (rebuild tokens recs)).length = recs.length := by
      rw [← map_fst_records, hdir.records_rebuild, List.length_map]
    have hprepare : PreparedDocument.prepare tokenSize retained (rebuild tokens recs) memoryBytes =
        .ok ⟨payload (rebuild tokens recs), (rebuild tokens recs).length, _⟩ :=
      PreparedDocument.prepare_eq
        (fun t h => ⟨(hdir.rebuild_termOk t h).1, (hdir.rebuild_termOk t h).2.1⟩)
        (by rw [length_rebuild]; exact hdir.tokens_le) (by rwa [hdir.payload_rebuild])
        (by rwa [hdir.payload_rebuild, length_rebuild])
    rwa [hdir.payload_rebuild, length_rebuild, hcount] at hprepare

/-- The document `b a b`. -/
def babDocument : Document := [[98], [97], [98]]

set_option maxRecDepth 10000 in
theorem prepare_decode_bab :
    (∃ p recs, PreparedDocument.prepare 24 0 babDocument 4096 = .ok p ∧
      p.tokens = babDocument.length ∧ p.terms = (directory babDocument).length ∧
      Document.validate p.bytes 64 = .ok (p.tokens, p.terms) ∧
      p.decode = .ok recs ∧ rebuild p.tokens recs = babDocument) ∧
    ∃ recs, Payload.decode ⟨payload babDocument, 3, 2⟩ = .ok recs ∧
      (∀ t ∈ rebuild 3 recs, TermOk t) ∧
      PreparedDocument.prepare 24 0 (rebuild 3 recs) 4096 = .ok ⟨payload babDocument, 3, 2⟩ :=
  ⟨prepare_decode.1 babDocument 24 0 4096 64 (by decide +kernel) (by decide +kernel)
      (by decide +kernel) (by decide +kernel) (by decide +kernel),
    prepare_decode.2 (payload babDocument) 3 2 24 0 4096 64 (by decide +kernel)
      (by decide +kernel)⟩

end

end PinCore
