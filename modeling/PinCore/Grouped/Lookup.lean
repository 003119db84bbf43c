import PinCore.Grouped.Durable

/-!
# Looking up what was built

A record that was written is read back.  Entries pushed in key order and finished form a catalog of
the segment, and any sequence of requests to a cursor over it is answered as the list of the entries
answers it.  Both hold whatever else happens to the store between two reads.
-/

namespace PinCore

open Prog

namespace Grouped

section

variable {s : Store} {m : MetaBody} {x : GroupSnapshot} {kind : GroupPageKind} {key : ℕ × ℕ}
  {bytes : List UInt8}

/-- A record that is not a list of members has at most three fragments. -/
theorem fragmentCount_le (hr : RecordOk kind key bytes) (hk : kind ≠ .members) :
    fragmentCount bytes.length ≤ 3 := by
  have hlen := hr.length.2
  rw [if_neg hk] at hlen
  unfold fragmentCount groupDataBytes capacity
  omega

/-- What was written is read back: cut off anywhere, writing a record leaves the published segments
and the canonical index as they are; when it returns, every later read of the record, with or
without its leading blocks to check, returns its bytes. -/
theorem written_record_reads (h : Appending s x m) (hr : RecordOk kind key bytes) :
    Spec HostRefused (fun s' => ∃ m', Beside s s' m m' ∧ Retains s s' m m') s
      (writeRecord x kind key bytes) fun y s' => (∃ m', Beside s s' m m' ∧ Retains s s' m m') ∧
        ∀ H, Preserved s' x.id H → ∀ t,
          Obs.Sees H t (readRecord x.id kind key y.1.1 bytes.length none) (fun r _ => r = bytes) ∧
          (kind ≠ .members → Obs.Sees H t
            (readRecord x.id kind key y.1.1 bytes.length (some y.1.2)) fun r _ => r = bytes) := by
  refine (writeRecord_spec (E := HostRefused) h rfl hr).post ?_
  rintro ⟨y, x'⟩ s' ⟨m', blocks, hg, hrec, hy⟩
  have hy : y = (blocks.headD noBlock, leadingBlocks blocks) := hy
  subst hy
  refine ⟨⟨m', hg.beside, hg.retains⟩, fun H hH t => ⟨?_, fun hk => ?_⟩⟩
  · exact readRecord_sees hH hrec (by rintro _ ⟨⟩)
  · refine readRecord_sees hH hrec ?_
    rintro _ ⟨⟩ i b hb
    obtain ⟨hi, -⟩ := List.getElem?_eq_some_iff.1 hb
    have hle := fragmentCount_le hr hk
    rw [← hrec.count] at hle
    rw [leadingBlocks, List.getElem?_take, if_pos (by omega), List.getElem?_append_left hi]
    exact hb

set_option maxRecDepth 10000 in
/-- The record of the first segment is read back. -/
theorem written_record_reads_recorded :
    ∃ y, (writeRecord firstSegment .members (0, 0) (List.replicate 72 0)).Completes startedStore y
      recordedStore ∧ ∀ H, Preserved recordedStore 1 H → ∀ t,
        Obs.Sees H t (readRecord 1 .members (0, 0) y.1.1 72 none) fun r _ =>
          r = List.replicate 72 0 := by
  obtain ⟨m, hstart⟩ := startedStore_started
  obtain ⟨y, hy⟩ : ∃ y, (writeRecord firstSegment .members (0, 0) (List.replicate 72 0)).Completes
      startedStore y recordedStore := completes_of_isOk (by decide +kernel)
  have hr : RecordOk .members (0, 0) (List.replicate 72 0) :=
    ⟨.inl rfl, by decide, by decide, by decide⟩
  obtain ⟨-, hread⟩ := (written_record_reads hstart.appending hr).completes hy
  exact ⟨y, hy, fun H hH t => (hread H hH t).1⟩

end

/-- Pushes entries in a row. -/
def pushAll : List CatalogEntry → GroupSnapshot → CatalogBuilder →
    Wr (GroupSnapshot × CatalogBuilder)
  | [], x, b => return (x, b)
  | e :: es, x, b => do
    let (x, b) ← b.push x e
    pushAll es x b

/-- Builds the catalog of the entries. -/
def buildCatalog (x : GroupSnapshot) (es : List CatalogEntry) : Wr GroupSnapshot := do
  let (x, b) ← pushAll es x .new
  b.finish x

/-- A number of entries that a catalog always takes. -/
def catalogRoom : ℕ := (catalogEntries - 1) * catalogEntries ^ maxCatalogLevel

section

variable {E : Error → Prop} {s s' : Store} {m : MetaBody} {x y : GroupSnapshot}
  {b : CatalogBuilder} {es fs : List CatalogEntry}

/-- The next entry of a sorted list is behind the ones before it. -/
theorem entries_next {e : CatalogEntry} (h : CatalogBuilder.Entries (es ++ e :: fs)) :
    ∀ k ∈ es.getLast?.map (·.key), keyLt k e.key := by
  intro k hk
  obtain ⟨f, hf, rfl⟩ := Option.map_eq_some_iff.1 hk
  exact (List.pairwise_append.1 h.1).2.2 f (List.mem_of_getLast? hf) e List.mem_cons_self

theorem pushAll_spec (h : Appending s x m) (hc : b.Collects s x es) (ht : b.Tip x catalogLevels)
    (hv : CatalogBuilder.Entries (es ++ fs)) (hroom : (es ++ fs).length ≤ catalogRoom) :
    Spec HostRefused (fun s' => ∃ m', Beside s s' m m' ∧ Retains s s' m m') s (pushAll fs x b)
      fun y s' => ∃ m', Grown s s' x y.1 m m' ∧ y.2.Collects s' y.1 (es ++ fs) ∧
        y.2.Tip y.1 catalogLevels := by
  induction fs generalizing s x m b es with
  | nil =>
    rw [List.append_nil]
    exact Spec.pure ⟨m, h.grown, hc, ht⟩
  | cons e fs ih =>
    have hsplit : es ++ e :: fs = (es ++ [e]) ++ fs := by rw [List.append_assoc]; rfl
    refine (CatalogBuilder.push_spec (E := HostRefused) h rfl hc (entries_next hv)
      (hv.2 e (List.mem_append_right _ List.mem_cons_self)) fun hdeep => ?_).bind ?_
    · -- the bound on the entries excludes a builder that is full
      rw [List.length_append, List.length_cons] at hroom
      have : catalogRoom < catalogEntries ^ catalogLevels := by decide +kernel
      omega
    · rintro ⟨x₁, b₁⟩ s₁ ⟨m₁, hg, hc₁, ht₁⟩
      rw [hsplit] at hv hroom ⊢
      refine (ih hg.appending hc₁ ht₁ hv hroom).mono ?_ ?_
      · rintro s' ⟨m', hb, hr⟩
        exact ⟨m', hg.beside.trans hb, hg.retains.trans hr⟩
      · rintro y s' ⟨m', hg', hc', ht'⟩
        exact ⟨m', hg.trans hg', hc', ht'⟩

/-- The tree that was built over the entries is their catalog. -/
theorem catalog_of_finished {tip : Prop} (hid : y.id = x.id) (hroot : x.root = noBlock)
    (hf : CatalogBuilder.Finished s' x y es tip) : Catalog s' y.id y.root es := by
  by_cases hne : es = []
  · refine .inl ⟨?_, hne⟩
    rw [hf.none hne]
    exact hroot
  · obtain ⟨level, -, hu⟩ := hf.tree hne
    rw [hid]
    exact .inr ⟨level, hu⟩

/-- A catalog has a root exactly if it has entries. -/
theorem Catalog.root_iff {id root : ℕ} (h : Segmented s m) (hc : Catalog s id root es) :
    root = noBlock ↔ es = [] := by
  rcases hc with ⟨hr, rfl⟩ | ⟨level, hu⟩
  · exact iff_of_true hr rfl
  · obtain ⟨entries, parts, hn, hne, hparts, rfl⟩ := hu
    refine iff_of_false (h.pages.ne_noBlock (by rw [hn]; rintro ⟨⟩)) ?_
    obtain ⟨f, fs, rfl⟩ := List.exists_cons_of_ne_nil hne
    cases hparts with
    | cons hu _ =>
      rw [List.flatten_cons]
      exact fun hnil => hu.ne_nil (List.append_eq_nil_iff.1 hnil).1

/-- A catalog answers every sequence of requests, over every history that keeps its pages, as the
list of its entries does. -/
def Answers (s : Store) (x : GroupSnapshot) (es : List CatalogEntry) : Prop :=
  ∀ H, Catalogued s x.id H → ∀ t qs,
    Obs.Sees H t (askAll x.id x.root qs .new) fun as _ => as = answers es qs []

theorem buildCatalog_spec (h : Appending s x m) (hroot : x.root = noBlock)
    (hes : CatalogBuilder.Entries es) (hroom : es.length ≤ catalogRoom) :
    Spec HostRefused (fun s' => ∃ m', Beside s s' m m' ∧ Retains s s' m m') s (buildCatalog x es)
      fun y s' => ∃ m' x', Grown s s' x x' m m' ∧ y = { x' with root := y.root } ∧
        (es ≠ [] → y.root = y.tail) ∧ Catalog s' y.id y.root es := by
  refine (pushAll_spec h CatalogBuilder.new_collects CatalogBuilder.new_tip
    (by rwa [List.nil_append]) (by rwa [List.nil_append])).bind ?_
  rintro ⟨x₁, b₁⟩ s₁ ⟨m₁, hg, hc, ht⟩
  have hc : b₁.Collects s₁ x₁ es := hc
  have hg : Grown s s₁ x x₁ m m₁ := hg
  have hroot₁ : x₁.root = noBlock := by
    rw [hg.snapshot]
    exact hroot
  refine (CatalogBuilder.finish_spec (E := HostRefused) hg.appending rfl
    hc fun hdeep => ?_).mono ?_ ?_
  · have : catalogEntries * catalogRoom = (catalogEntries - 1) * catalogEntries ^
        catalogLevels := by
      decide +kernel
    have := Nat.mul_le_mul_left catalogEntries hroom
    omega
  · rintro s' ⟨m', hb, hr⟩
    exact ⟨m', hg.beside.trans hb, hg.retains.trans hr⟩
  · rintro y s' ⟨m', x', hg', hy, hf⟩
    have hid : y.id = x₁.id := by
      rw [hy]
      exact hg'.id
    exact ⟨m', x', hg.trans hg', hy, fun hne => hf.root hne ht, catalog_of_finished hid hroot₁ hf⟩

/-- What was pushed in key order is found again: cut off anywhere, building the catalog leaves the
published segments and the canonical index as they are; when it returns, every later request is
answered as the list of the entries answers it. -/
theorem built_catalog_answers (h : Appending s x m) (hroot : x.root = noBlock)
    (hes : CatalogBuilder.Entries es) (hroom : es.length ≤ catalogRoom) :
    Spec HostRefused (fun s' => ∃ m', Beside s s' m m' ∧ Retains s s' m m') s (buildCatalog x es)
      fun y s' => (∃ m', Beside s s' m m' ∧ Retains s s' m m') ∧ (y.root = noBlock ↔ es = []) ∧
        Answers s' y es := by
  refine (buildCatalog_spec h hroot hes hroom).post ?_
  rintro y s' ⟨m', x', hg, -, -, hc⟩
  exact ⟨⟨m', hg.beside, hg.retains⟩, hc.root_iff hg.beside.segmented, fun H hH t qs =>
    askAll_sees qs hH hes.1 hc stands_new⟩

set_option maxRecDepth 10000 in
/-- A catalog of two entries in the first segment. -/
theorem built_catalog_answers_two : ∃ y s', (buildCatalog firstSegment
      [⟨(0, 0), List.replicate 64 7⟩, ⟨(65636, 256), List.replicate 64 9⟩]).Completes startedStore
        y s' ∧
    y.root ≠ noBlock ∧
    Answers s' y [⟨(0, 0), List.replicate 64 7⟩, ⟨(65636, 256), List.replicate 64 9⟩] := by
  obtain ⟨m, hstart⟩ := startedStore_started
  obtain ⟨y, hy⟩ := completes_of_isOk (x := buildCatalog firstSegment
    [⟨(0, 0), List.replicate 64 7⟩, ⟨(65636, 256), List.replicate 64 9⟩]) (s := startedStore)
    (by decide +kernel)
  have hes : CatalogBuilder.Entries
      [⟨(0, 0), List.replicate 64 7⟩, ⟨(65636, 256), List.replicate 64 9⟩] := by
    unfold CatalogBuilder.Entries KeySorted
    decide
  obtain ⟨-, hroot, hanswers⟩ :=
    (built_catalog_answers hstart.appending rfl hes (by decide)).completes hy
  exact ⟨y, _, hy, fun hr => absurd (hroot.1 hr) (by decide), hanswers⟩

end

end Grouped

end PinCore
