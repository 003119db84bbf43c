import Mathlib.Data.List.Pairwise
import PinCore.Document.Validate

/-!
# Directories and documents

A directory whose positions are those below the token count, each once, says which term stands at
every position.  It is the directory of just one document: `records` lists the directory of a
document, `rebuild` gives the document back.
-/

namespace PinCore

/-- The directory of a document with its positions. -/
def records (d : Document) : List TermPositions :=
  (directory d).map fun t => (t, positionsFrom t 0 d)

/-- The document whose token at each position is the term listed there. -/
def rebuild (tokens : ℕ) (recs : List TermPositions) : Document :=
  (List.range tokens).map fun p =>
    ((recs.find? fun x => decide (p ∈ x.2)).map Prod.fst).getD []

section

variable {d : Document} {t u : Text} {i p tokens : ℕ} {recs : List TermPositions}
  {x y : TermPositions}

theorem payload_eq : payload d = encodeDocument d.length (records d) := by
  rw [payload, encodeDocument, records, List.length_map, List.flatMap_map]
  rfl

/-! ### Positions of a term -/

theorem mem_positionsFrom : p ∈ positionsFrom t i d ↔ i ≤ p ∧ d[p - i]? = some t := by
  induction d generalizing i with
  | nil => simp [positionsFrom]
  | cons u us ih =>
    have hstep : i + 1 ≤ p ∧ us[p - (i + 1)]? = some t ↔
        i < p ∧ (u :: us)[p - i]? = some t := by
      refine and_congr_right fun h => ?_
      rw [show p - i = p - (i + 1) + 1 by omega, List.getElem?_cons_succ]
    rw [positionsFrom]
    split_ifs with hu
    · rw [List.mem_cons, ih, hstep]
      constructor
      · rintro (rfl | ⟨h₁, h₂⟩)
        · exact ⟨Nat.le_refl p, by simp [hu]⟩
        · exact ⟨Nat.le_of_lt h₁, h₂⟩
      · rintro ⟨h₁, h₂⟩
        rcases Nat.eq_or_lt_of_le h₁ with rfl | h
        · exact .inl rfl
        · exact .inr ⟨h, h₂⟩
    · rw [ih, hstep]
      refine ⟨fun h => ⟨Nat.le_of_lt h.1, h.2⟩, fun ⟨h₁, h₂⟩ => ⟨?_, h₂⟩⟩
      rcases Nat.eq_or_lt_of_le h₁ with rfl | h
      · rw [Nat.sub_self, List.getElem?_cons_zero] at h₂
        exact absurd (Option.some.inj h₂) hu
      · exact h

theorem mem_positions : p ∈ positionsFrom t 0 d ↔ d[p]? = some t := by
  rw [mem_positionsFrom]
  simp

theorem positionsFrom_sorted : (positionsFrom t i d).Pairwise (· < ·) := by
  induction d generalizing i with
  | nil => exact .nil
  | cons u us ih =>
    rw [positionsFrom]
    split_ifs
    · refine List.pairwise_cons.2 ⟨fun p hp => ?_, ih⟩
      have := (mem_positionsFrom.1 hp).1
      omega
    · exact ih

theorem positionsFrom_ne_nil (h : t ∈ d) : positionsFrom t 0 d ≠ [] := by
  obtain ⟨p, hp⟩ := List.getElem?_of_mem h
  exact List.ne_nil_of_mem (mem_positions.2 hp)

/-! ### The directory of a document -/

theorem mem_records : x ∈ records d ↔ x.1 ∈ d ∧ x.2 = positionsFrom x.1 0 d := by
  rw [records, List.mem_map]
  constructor
  · rintro ⟨t, ht, rfl⟩
    exact ⟨mem_directory.1 ht, rfl⟩
  · rintro ⟨h₁, h₂⟩
    exact ⟨x.1, mem_directory.2 h₁, by rw [← h₂]⟩

theorem map_fst_records : (records d).map Prod.fst = directory d := by
  rw [records, List.map_map]
  exact List.map_id _

theorem mem_flatMap_records : p ∈ (records d).flatMap Prod.snd ↔ p < d.length := by
  rw [List.mem_flatMap]
  constructor
  · rintro ⟨x, hx, hp⟩
    rw [(mem_records.1 hx).2] at hp
    exact (List.getElem?_eq_some_iff.1 (mem_positions.1 hp)).1
  · intro h
    exact ⟨(d[p], positionsFrom d[p] 0 d), mem_records.2 ⟨List.getElem_mem h, rfl⟩,
      mem_positions.2 (List.getElem?_eq_getElem h)⟩

theorem nodup_flatMap_records : ((records d).flatMap Prod.snd).Nodup := by
  refine List.nodup_flatMap.2 ⟨fun x hx => ?_, ?_⟩
  · rw [(mem_records.1 hx).2]
    exact positionsFrom_sorted.imp Nat.ne_of_lt
  · rw [records, List.pairwise_map]
    refine (directory_nodup d).imp fun hne => ?_
    intro p hp hq
    have h₁ := mem_positions.1 hp
    rw [mem_positions.1 hq] at h₁
    exact hne (Option.some.inj h₁).symm

theorem flatMap_records_perm : ((records d).flatMap Prod.snd).Perm (List.range d.length) := by
  refine (List.perm_ext_iff_of_nodup nodup_flatMap_records List.nodup_range).2 fun p => ?_
  rw [mem_flatMap_records, List.mem_range]

/-- The directory of a document is one. -/
theorem records_directory (ht : ∀ t ∈ d, TermOk t) (hlen : d.length ≤ maxDocumentTokens) :
    Directory d.length (records d) where
  sorted := by
    rw [map_fst_records]
    exact directory_sorted d
  term x hx := ht _ (mem_records.1 hx).1
  ascends x hx := by
    rw [(mem_records.1 hx).2]
    exact positionsFrom_sorted
  nonempty x hx := by
    rw [(mem_records.1 hx).2]
    exact positionsFrom_ne_nil (mem_records.1 hx).1
  lt x hx p hp := mem_flatMap_records.1 (List.mem_flatMap.2 ⟨x, hx, hp⟩)
  nodup := nodup_flatMap_records
  length := by rw [flatMap_records_perm.length_eq, List.length_range]
  tokens_le := hlen

/-! ### The document of a directory -/

theorem length_rebuild : (rebuild tokens recs).length = tokens := by simp [rebuild]

namespace Directory

/-- No position is listed twice. -/
theorem fst_unique (h : Directory tokens recs) (hx : x ∈ recs) (hy : y ∈ recs) (hp : p ∈ x.2)
    (hq : p ∈ y.2) : x = y := by
  by_contra hne
  have : Std.Symm fun x y : TermPositions => List.Disjoint x.2 y.2 := ⟨fun _ _ hd q h h' => hd h' h⟩
  exact (List.nodup_flatMap.1 h.nodup).2.forall hx hy hne hp hq

/-- No term is listed twice. -/
theorem eq_of_fst (h : Directory tokens recs) (hx : x ∈ recs) (hy : y ∈ recs)
    (heq : x.1 = y.1) : x = y := by
  refine List.inj_on_of_nodup_map (h.sorted.imp fun hlt => ?_) hx hy heq
  rintro rfl
  exact List.lt_irrefl _ hlt

/-- Every position is listed. -/
theorem cover (h : Directory tokens recs) (hp : p < tokens) : ∃ x ∈ recs, p ∈ x.2 := by
  have hsub : recs.flatMap Prod.snd ⊆ List.range tokens := fun q hq => by
    obtain ⟨x, hx, hq⟩ := List.mem_flatMap.1 hq
    exact List.mem_range.2 (h.lt x hx q hq)
  have hperm := (List.subperm_of_subset h.nodup hsub).perm_of_length_le
    (by rw [List.length_range, h.length])
  exact List.mem_flatMap.1 (hperm.mem_iff.2 (List.mem_range.2 hp))

theorem getElem?_rebuild (h : Directory tokens recs) :
    (rebuild tokens recs)[p]? = some t ↔ ∃ x ∈ recs, x.1 = t ∧ p ∈ x.2 := by
  by_cases hp : p < tokens
  · obtain ⟨x, hx, hpx⟩ := h.cover hp
    have hfind : recs.find? (fun x => decide (p ∈ x.2)) = some x := by
      have hsome : (recs.find? fun x => decide (p ∈ x.2)).isSome :=
        List.find?_isSome.2 ⟨x, hx, decide_eq_true hpx⟩
      obtain ⟨y, hy⟩ := Option.isSome_iff_exists.1 hsome
      have hpy := List.find?_some hy
      rw [hy, h.fst_unique hx (List.mem_of_find?_eq_some hy) hpx (of_decide_eq_true hpy)]
    rw [rebuild, List.getElem?_map, List.getElem?_range hp]
    simp only [Option.map_some, hfind, Option.getD_some, Option.some.injEq]
    constructor
    · rintro rfl
      exact ⟨x, hx, rfl, hpx⟩
    · rintro ⟨y, hy, rfl, hpy⟩
      rw [h.fst_unique hx hy hpx hpy]
  · rw [List.getElem?_eq_none (by rw [length_rebuild]; exact Nat.le_of_not_lt hp)]
    refine ⟨nofun, ?_⟩
    rintro ⟨x, hx, -, hpx⟩
    exact absurd (h.lt x hx p hpx) hp

theorem mem_rebuild (h : Directory tokens recs) :
    t ∈ rebuild tokens recs ↔ t ∈ recs.map Prod.fst := by
  rw [List.mem_map]
  constructor
  · intro ht
    obtain ⟨p, hp⟩ := List.getElem?_of_mem ht
    obtain ⟨x, hx, h₁, -⟩ := h.getElem?_rebuild.1 hp
    exact ⟨x, hx, h₁⟩
  · rintro ⟨x, hx, rfl⟩
    obtain ⟨p, ps, hps⟩ := List.exists_cons_of_ne_nil (h.nonempty x hx)
    refine List.mem_of_getElem? (h.getElem?_rebuild.2 ⟨x, hx, rfl, ?_⟩ : _[p]? = _)
    rw [hps]
    exact List.mem_cons_self

/-- The terms of the document are those of its directory. -/
theorem rebuild_termOk (h : Directory tokens recs) : ∀ t ∈ rebuild tokens recs, TermOk t := by
  intro t ht
  obtain ⟨x, hx, rfl⟩ := List.mem_map.1 (h.mem_rebuild.1 ht)
  exact h.term x hx

/-- A directory is the directory of its document. -/
theorem records_rebuild (h : Directory tokens recs) : records (rebuild tokens recs) = recs := by
  have hdir : directory (rebuild tokens recs) = recs.map Prod.fst :=
    (directory_sorted _).eq_of_mem_iff h.sorted fun {t} => by rw [mem_directory, h.mem_rebuild]
  rw [records, hdir, List.map_map]
  refine (List.map_congr_left fun x hx => ?_).trans (List.map_id recs)
  have hpos : positionsFrom x.1 0 (rebuild tokens recs) = x.2 := by
    refine positionsFrom_sorted.eq_of_mem_iff (h.ascends x hx) fun {p} => ?_
    rw [mem_positions, h.getElem?_rebuild]
    constructor
    · rintro ⟨y, hy, heq, hp⟩
      rwa [h.eq_of_fst hx hy heq.symm]
    · exact fun hp => ⟨x, hx, rfl, hp⟩
  change (x.1, positionsFrom x.1 0 (rebuild tokens recs)) = x
  rw [hpos]

end Directory

/-- A document is the one its directory describes. -/
theorem rebuild_records (ht : ∀ t ∈ d, TermOk t) (hlen : d.length ≤ maxDocumentTokens) :
    rebuild d.length (records d) = d := by
  have hdir := records_directory ht hlen
  refine List.ext_getElem? fun p => Option.ext fun t => ?_
  rw [hdir.getElem?_rebuild]
  constructor
  · rintro ⟨x, hx, rfl, hp⟩
    rw [(mem_records.1 hx).2] at hp
    exact mem_positions.1 hp
  · intro hp
    exact ⟨(t, positionsFrom t 0 d), mem_records.2 ⟨List.mem_of_getElem? hp, rfl⟩, rfl,
      mem_positions.2 hp⟩

/-- The payload of a directory is that of its document. -/
theorem Directory.payload_rebuild (h : Directory tokens recs) :
    payload (rebuild tokens recs) = encodeDocument tokens recs := by
  rw [payload_eq, h.records_rebuild, length_rebuild]

end

end PinCore
