import Mathlib.Data.List.Sort

/-!
# Keeping the least elements

A bounded heap shows its greatest element.  An element that comes when the heap is full replaces
that one if it is less.  The heap is modelled by its ascending order, so what is kept at the end is
the beginning of the sorted whole (`Kept.eq_take`).
-/

namespace PinCore

namespace TopK

variable {α : Type} (r : α → α → Prop)

/-- The next element at a heap of at most `capacity` elements. -/
def keep [DecidableRel r] (capacity : ℕ) (heap : List α) (e : α) : List α :=
  if heap.length < capacity then heap.orderedInsert r e
  else
    match heap.getLast? with
    | none => heap
    | some worst => if r worst e then heap else heap.dropLast.orderedInsert r e

/-- The heap holds the least of the elements that were seen. -/
structure Kept (capacity : ℕ) (seen heap : List α) : Prop where
  sorted : heap.Pairwise r
  length : heap.length = min capacity seen.length
  least : ∃ rest, (heap ++ rest).Perm seen ∧ ∀ a ∈ heap, ∀ b ∈ rest, r a b

variable {r} {capacity : ℕ} {seen heap whole : List α} {e : α}

theorem Kept.nil : Kept r capacity ([] : List α) [] :=
  ⟨.nil, (Nat.min_zero _).symm, [], .nil, nofun⟩

/-- While there is room, everything that was seen is kept. -/
theorem Kept.perm_of_room (h : Kept r capacity seen heap) (hroom : heap.length < capacity) :
    heap.Perm seen := by
  obtain ⟨rest, hperm, -⟩ := h.least
  have hlength := hperm.length_eq
  have hmin := h.length
  rw [List.length_append] at hlength
  have hrest : rest = [] := List.eq_nil_of_length_eq_zero (by omega)
  rwa [hrest, List.append_nil] at hperm

variable [DecidableRel r] [Std.Total r] [IsTrans α r]

/-- A step keeps the least elements. -/
theorem Kept.step (h : Kept r capacity seen heap) (e : α) :
    Kept r capacity (e :: seen) (keep r capacity heap e) := by
  have htrans : ∀ {a b c : α}, r a b → r b c → r a c := fun hab hbc => IsTrans.trans _ _ _ hab hbc
  unfold keep
  split_ifs with hroom
  · have hperm : (heap.orderedInsert r e).Perm (e :: seen) :=
      (List.perm_orderedInsert r e heap).trans ((h.perm_of_room hroom).cons e)
    have hmin := h.length
    refine ⟨h.sorted.orderedInsert e heap, ?_, [], by rwa [List.append_nil], nofun⟩
    rw [List.orderedInsert_length, List.length_cons]
    omega
  · obtain ⟨rest, hperm, hle⟩ := h.least
    have hmin := h.length
    have hsame : heap.length = min capacity (e :: seen).length := by
      rw [List.length_cons]
      omega
    rcases List.eq_nil_or_concat heap with rfl | ⟨front, worst, rfl⟩
    · exact ⟨.nil, hsame, e :: rest, hperm.cons e, nofun⟩
    · rw [List.concat_eq_append] at *
      rw [List.getLast?_append_cons, List.getLast?_singleton, List.dropLast_concat]
      obtain ⟨hfront, -, hworst⟩ := List.pairwise_append.1 h.sorted
      have hbelow : ∀ a ∈ front ++ [worst], r a worst := by
        intro a ha
        rcases List.mem_append.1 ha with ha | ha
        · exact hworst a ha worst (List.mem_singleton_self _)
        · rw [List.mem_singleton.1 ha]
          exact (Std.Total.total worst worst).elim id id
      dsimp only
      split_ifs with hless
      · -- the new element joins the rest
        refine ⟨h.sorted, hsame, e :: rest, List.perm_middle.trans (hperm.cons e), ?_⟩
        intro a ha
        exact List.forall_mem_cons.2 ⟨htrans (hbelow a ha) hless, hle a ha⟩
      · -- the greatest element joins the rest
        have hnew : r e worst := (Std.Total.total worst e).resolve_left hless
        have hmem : worst ∈ front ++ [worst] :=
          List.mem_append_right _ (List.mem_singleton_self _)
        refine ⟨hfront.orderedInsert e front, ?_, worst :: rest, ?_, ?_⟩
        · rw [List.orderedInsert_length, ← hsame, List.length_append, List.length_singleton]
        · refine ((List.perm_orderedInsert r e front).append_right _).trans (.cons e ?_)
          rwa [List.append_assoc] at hperm
        · intro a ha
          refine List.forall_mem_cons.2 ?_
          rcases (List.mem_orderedInsert r).1 ha with rfl | ha
          · exact ⟨hnew, fun b hb => htrans hnew (hle worst hmem b hb)⟩
          · exact ⟨hbelow a (List.mem_append_left _ ha), hle a (List.mem_append_left _ ha)⟩

/-- A run keeps the least elements. -/
theorem Kept.run (h : Kept r capacity seen heap) (l : List α) :
    Kept r capacity (l.reverse ++ seen) (l.foldl (keep r capacity) heap) := by
  induction l generalizing seen heap with
  | nil => exact h
  | cons e l ih =>
    rw [List.reverse_cons, List.append_assoc, List.singleton_append]
    exact ih (h.step e)

/-- What is kept is the beginning of the sorted whole. -/
theorem Kept.eq_take (h : Kept r capacity seen heap) (hperm : whole.Perm seen)
    (hsorted : whole.Pairwise r)
    (hanti : ∀ a ∈ whole, ∀ b ∈ whole, r a b → r b a → a = b) : heap = whole.take capacity := by
  obtain ⟨rest, hrest, hle⟩ := h.least
  have hall : (heap ++ rest.insertionSort r).Perm whole :=
    ((List.perm_insertionSort r rest).append_left heap).trans (hrest.trans hperm.symm)
  have heq : heap ++ rest.insertionSort r = whole := by
    refine List.Perm.eq_of_pairwise (fun a b ha hb => ?_) ?_ hsorted hall
    · exact hanti a (hall.mem_iff.1 ha) b hb
    · refine List.pairwise_append.2 ⟨h.sorted, List.pairwise_insertionSort r rest, ?_⟩
      intro a ha b hb
      exact hle a ha b ((List.mem_insertionSort r).1 hb)
  calc heap = whole.take heap.length := List.prefix_iff_eq_take.1 ⟨_, heq⟩
    _ = whole.take (min capacity whole.length) := by rw [h.length, hperm.length_eq]
    _ = whole.take capacity := List.take_eq_take_min.symm

/-! ### Pages -/

/-- The elements of a page. -/
def page (whole : List α) (offset limit : ℕ) : List α := (whole.drop offset).take limit

/-- A page is the end of what was kept for it. -/
theorem page_take {offset limit : ℕ} (h : min (offset + limit) whole.length ≤ capacity) :
    page (whole.take capacity) offset limit = page whole offset limit := by
  have hsame : min (min limit (capacity - offset)) (whole.drop offset).length =
      min limit (whole.drop offset).length := by
    rw [List.length_drop]
    omega
  rw [page, page, List.drop_take, List.take_take, List.take_eq_take_min, hsame,
    ← List.take_eq_take_min]

/-- Consecutive pages join. -/
theorem page_append {offset limit limit' : ℕ} :
    page whole offset limit ++ page whole (offset + limit) limit' =
      page whole offset (limit + limit') := by
  rw [page, page, page, List.take_add, List.drop_drop]

/-- Enough pages of one size give the whole. -/
theorem flatMap_page {size count : ℕ} (h : whole.length ≤ count * size) :
    (List.range count).flatMap (fun i => page whole (i * size) size) = whole := by
  have hpages : ∀ count, (List.range count).flatMap (fun i => page whole (i * size) size) =
      page whole 0 (count * size) := by
    intro count
    induction count with
    | zero => rw [Nat.zero_mul, page, List.take_zero, List.range_zero, List.flatMap_nil]
    | succ count ih =>
      have hjoin := @page_append _ whole 0 (count * size) size
      rw [Nat.zero_add] at hjoin
      rw [List.range_succ, List.flatMap_append, ih, List.flatMap_singleton, hjoin, Nat.succ_mul]
  rw [hpages, page, List.drop_zero, List.take_of_length_le h]

section FilterMap

variable {β : Type} {f : α → Option β}

theorem filterMap_drop (h : ∀ a ∈ whole, (f a).isSome) (count : ℕ) :
    (whole.drop count).filterMap f = (whole.filterMap f).drop count := by
  induction whole generalizing count with
  | nil => rw [List.drop_nil, List.filterMap_nil, List.drop_nil]
  | cons a whole ih =>
    obtain ⟨ha, hwhole⟩ := List.forall_mem_cons.1 h
    obtain ⟨b, hb⟩ := Option.isSome_iff_exists.1 ha
    cases count with
    | zero => rw [List.drop_zero, List.drop_zero]
    | succ count =>
      rw [List.drop_succ_cons, ih hwhole, List.filterMap_cons_some hb, List.drop_succ_cons]

theorem filterMap_take (h : ∀ a ∈ whole, (f a).isSome) (count : ℕ) :
    (whole.take count).filterMap f = (whole.filterMap f).take count := by
  induction whole generalizing count with
  | nil => rw [List.take_nil, List.filterMap_nil, List.take_nil]
  | cons a whole ih =>
    obtain ⟨ha, hwhole⟩ := List.forall_mem_cons.1 h
    obtain ⟨b, hb⟩ := Option.isSome_iff_exists.1 ha
    cases count with
    | zero => rw [List.take_zero, List.take_zero, List.filterMap_nil]
    | succ count =>
      rw [List.take_succ_cons, List.filterMap_cons_some hb, List.filterMap_cons_some hb,
        ih hwhole, List.take_succ_cons]

/-- Translating the elements of a page gives the page of the translated whole. -/
theorem page_filterMap (h : ∀ a ∈ whole, (f a).isSome) (offset limit : ℕ) :
    (page whole offset limit).filterMap f = page (whole.filterMap f) offset limit := by
  rw [page, filterMap_take fun a ha => h a (List.mem_of_mem_drop ha), filterMap_drop h, page]

end FilterMap

end TopK

end PinCore
