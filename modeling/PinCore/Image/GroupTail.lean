import PinCore.Image.GroupState

/-!
# Storing the grouped state

Every accepted state is read back from the layout that was chosen for it.  A call is accepted
exactly if the state is valid, its identifiers were drawn and its owner references name possible
slots; a refused call changes nothing.
-/

namespace PinCore

open Grouped Image

/-! ### The bytes of the layouts -/

/-- The bytes of an owner or of its absence. -/
def ownerField (o : Option OwnerRef) : List UInt8 := o.elim (List.replicate 16 0) OwnerRef.bytes

/-- The bytes of a segment or of its absence. -/
def snapshotField (x : Option GroupSnapshot) : List UInt8 :=
  leBytes 8 (x.elim 0 (·.id)) ++ (leBytes 4 (x.elim noBlock (·.head)) ++
    (leBytes 4 (x.elim noBlock (·.tail)) ++ (leBytes 4 (x.elim noBlock (·.root)) ++
      (leBytes 4 ((x.bind (·.frontierRoot)).getD 0) ++
        (leBytes 4 (if x.any (·.frontierValid) then 1 else 0) ++
          (leBytes 4 0 ++ ownerField (x.bind (·.after))))))))

/-- The bytes of the journal or of its absence. -/
def journalField (j : Option GroupJournal) : List UInt8 :=
  leBytes 8 (j.elim 0 (·.id)) ++ (leBytes 4 (j.elim noBlock (·.head)) ++
    (leBytes 4 (j.elim noBlock (·.tail)) ++ (leBytes 4 (j.elim 0 (·.phase.code)) ++ leBytes 4 0)))

/-- The bytes of a delta or of its absence. -/
def deltaField (d : Option GroupDelta) : List UInt8 :=
  snapshotField (d.map (·.snapshot)) ++ (ownerField (d.bind (·.before)) ++
    (leBytes 1 (d.elim 0 (·.level)) ++ List.replicate 7 0))

/-- The bytes of a retired chain or of its absence. -/
def retiredField (r : Option GroupRetired) : List UInt8 :=
  leBytes 8 (r.elim 0 (·.id)) ++ (leBytes 4 (r.elim noBlock (·.head)) ++
    leBytes 4 (r.elim noBlock (·.tail)))

/-- The bytes of a state in the shorter layout. -/
def oldBytes (s : GroupArrays) : List UInt8 :=
  oldMagic ++ (leBytes 2 (if (s.active.bind (·.frontierRoot)).isSome then 2 else 1) ++
    (leBytes 2 (if s.active.any (·.frontierValid) then 1 else 0) ++
      (leBytes 8 (s.active.elim 0 (·.id)) ++ (leBytes 4 (s.active.elim noBlock (·.head)) ++
        (leBytes 4 (s.active.elim noBlock (·.tail)) ++
          (leBytes 4 (s.active.elim noBlock (·.root)) ++
            (leBytes 4 ((s.active.bind (·.frontierRoot)).getD 0) ++
              (ownerField (s.active.bind (·.after)) ++ journalField s.journal))))))))

/-- The bytes of a state in the longer layout. -/
def newBytes (s : GroupArrays) : List UInt8 :=
  newMagic ++ (leBytes 2 1 ++ (leBytes 2 0 ++ (snapshotField s.active ++ (journalField s.journal ++
    (s.deltas.toList.flatMap deltaField ++ s.retired.toList.flatMap retiredField)))))

/-! ### Ranges -/

/-- The ranges of the fields of a snapshot. -/
structure GroupSnapshot.InRange (x : GroupSnapshot) : Prop where
  id : x.id ≠ 0 ∧ x.id < 2 ^ 64
  head : x.head < 2 ^ 32
  tail : x.tail < 2 ^ 32
  root : x.root < 2 ^ 32
  frontier : ∀ r ∈ x.frontierRoot, r < 2 ^ 32
  after : ∀ o ∈ x.after, o.InRange

/-- The ranges of the fields of a state. -/
structure GroupArrays.InRange (s : GroupArrays) : Prop where
  active : ∀ x ∈ s.active, x.InRange
  journal : ∀ j ∈ s.journal, (j.id ≠ 0 ∧ j.id < 2 ^ 64) ∧ j.head < 2 ^ 32 ∧ j.tail < 2 ^ 32
  deltas : ∀ d ∈ s.deltaList, d.snapshot.InRange ∧ (∀ o ∈ d.before, o.InRange) ∧ d.level < 256
  retired : ∀ r ∈ s.retiredList, (r.id ≠ 0 ∧ r.id < 2 ^ 64) ∧ r.head < 2 ^ 32 ∧ r.tail < 2 ^ 32

/-- The owner references of a state name possible slots. -/
structure GroupArrays.OwnersValid (s : GroupArrays) : Prop where
  active : ∀ x ∈ s.active, ∀ o ∈ x.after, o.Valid
  deltas : ∀ d ∈ s.deltaList, (∀ o ∈ d.snapshot.after, o.Valid) ∧ ∀ o ∈ d.before, o.Valid

section

variable {s : GroupArrays} {x : Option GroupSnapshot} {j : Option GroupJournal}
  {d : Option GroupDelta} {r : Option GroupRetired} {o : Option OwnerRef}

theorem length_ownerField : (ownerField o).length = 16 := by
  cases o with
  | none => rfl
  | some o => exact OwnerRef.length_bytes

theorem length_snapshotField : (snapshotField x).length = 48 := by
  simp only [snapshotField, List.length_append, Reader.length_leBytes, length_ownerField]

theorem length_deltaField : (deltaField d).length = 72 := by
  simp only [deltaField, List.length_append, Reader.length_leBytes, length_ownerField,
    length_snapshotField, List.length_replicate]

theorem length_retiredField : (retiredField r).length = 16 := by
  simp only [retiredField, List.length_append, Reader.length_leBytes]

theorem length_oldBytes : (oldBytes s).length = 72 := by
  simp only [oldBytes, journalField, List.length_append, Reader.length_leBytes, length_ownerField]
  rfl

theorem length_newBytes : (newBytes s).length = metaGroupedV3Bytes - metaLegacyBytes := by
  simp only [newBytes, journalField, List.length_append, Reader.length_leBytes,
    length_snapshotField, length_flatMap_const fun _ => length_deltaField,
    length_flatMap_const fun _ => length_retiredField, List.Vector.toList_length]
  rfl

/-! ### Writing -/

theorem writeOwner_writes (h : ∀ a ∈ o, a.Valid) : Writer.Writes (writeOwner o) (ownerField o) := by
  cases o with
  | none => exact Writer.Writes.put
  | some o => exact OwnerRef.write_writes (h o rfl)

theorem writeSnapshot_writes (h : ∀ a ∈ x.bind (·.after), a.Valid) :
    Writer.Writes (writeSnapshot x) (snapshotField x) := by
  refine Writer.Writes.le.bind (Writer.Writes.le.bind (Writer.Writes.le.bind
    (Writer.Writes.le.bind ?_)))
  exact Writer.Writes.le.bind (Writer.Writes.le.bind (Writer.Writes.le.bind (writeOwner_writes h)))

theorem writeJournal_writes : Writer.Writes (writeJournal j) (journalField j) :=
  Writer.Writes.le.bind (Writer.Writes.le.bind (Writer.Writes.le.bind
    (Writer.Writes.le.bind Writer.Writes.le)))

theorem writeDelta_writes
    (h : ∀ a ∈ d, (∀ o ∈ a.snapshot.after, o.Valid) ∧ ∀ o ∈ a.before, o.Valid) :
    Writer.Writes (writeDelta d) (deltaField d) := by
  refine (writeSnapshot_writes ?_).bind ((writeOwner_writes ?_).bind
    (Writer.Writes.le.bind Writer.Writes.put))
  · cases d with
    | none => exact nofun
    | some d => exact (h d rfl).1
  · cases d with
    | none => exact nofun
    | some d => exact (h d rfl).2

theorem writeRetired_writes : Writer.Writes (writeRetired r) (retiredField r) :=
  Writer.Writes.le.bind (Writer.Writes.le.bind Writer.Writes.le)

theorem writeMany_writes {α : Type} {f : α → Writer.Emit} {g : α → List UInt8} {l : List α}
    (h : ∀ a ∈ l, Writer.Writes (f a) (g a)) : Writer.Writes (writeMany f l) (l.flatMap g) := by
  induction l with
  | nil => exact Writer.Writes.nil
  | cons a l ih =>
    rw [List.forall_mem_cons] at h
    rw [List.flatMap_cons]
    exact h.1.bind (ih h.2)

/-- An item that cannot be written fails the loop. -/
theorem writeMany_fails {α : Type} {f : α → Writer.Emit} {l : List α}
    (h : ∃ a ∈ l, Writer.Fails (f a)) : Writer.Fails (writeMany f l) := by
  induction l with
  | nil => exact absurd h (by simp)
  | cons a l ih =>
    rcases (List.exists_mem_cons_iff ..).1 h with ha | hl
    · exact ha.left
    · exact Writer.Fails.right (ih hl)

theorem mem_deltaList {a : GroupDelta} : a ∈ s.deltaList ↔ some a ∈ s.deltas.toList :=
  List.reduceOption_mem_iff

theorem mem_retiredList {a : GroupRetired} : a ∈ s.retiredList ↔ some a ∈ s.retired.toList :=
  List.reduceOption_mem_iff

theorem writeOld_writes (h : ∀ a ∈ s.active.bind (·.after), a.Valid) :
    Writer.Writes (writeOld s) (oldBytes s) := by
  refine Writer.Writes.put.bind (Writer.Writes.le.bind (Writer.Writes.le.bind
    (Writer.Writes.le.bind (Writer.Writes.le.bind ?_))))
  exact Writer.Writes.le.bind (Writer.Writes.le.bind (Writer.Writes.le.bind
    ((writeOwner_writes h).bind writeJournal_writes)))

theorem bind_after_valid (h : s.OwnersValid) : ∀ a ∈ s.active.bind (·.after), a.Valid := by
  intro a ha
  obtain ⟨x, hx, ha⟩ := Option.mem_bind_iff.1 ha
  exact h.active x hx a ha

theorem writeNew_writes (h : s.OwnersValid) : Writer.Writes (writeNew s) (newBytes s) := by
  refine Writer.Writes.put.bind (Writer.Writes.le.bind (Writer.Writes.le.bind
    ((writeSnapshot_writes (bind_after_valid h)).bind (writeJournal_writes.bind
      ((writeMany_writes fun d hd => ?_).bind (writeMany_writes fun _ _ => writeRetired_writes))))))
  refine writeDelta_writes fun a ha => h.deltas a (mem_deltaList.2 ?_)
  rwa [← Option.mem_def.1 ha]

/-! ### Refused references -/

theorem writeOwner_fails {a : OwnerRef} (hr : a.InRange) (hv : ¬ a.Valid) :
    Writer.Fails (writeOwner (some a)) := OwnerRef.write_fails hr hv

theorem writeSnapshot_fails {a : GroupSnapshot} {o : OwnerRef} (ha : a.after = some o)
    (hr : o.InRange) (hv : ¬ o.Valid) : Writer.Fails (writeSnapshot (some a)) := by
  have hafter : writeOwner ((some a).bind (·.after)) = writeOwner (some o) :=
    congrArg writeOwner ha
  -- the seven fields in front of the reference
  iterate 7 refine Writer.Fails.right ?_
  rw [hafter]
  exact writeOwner_fails hr hv

theorem writeDelta_fails {a : GroupDelta} (hs : a.snapshot.InRange)
    (hb : ∀ o ∈ a.before, o.InRange)
    (h : ¬ ((∀ o ∈ a.snapshot.after, o.Valid) ∧ ∀ o ∈ a.before, o.Valid)) :
    Writer.Fails (writeDelta (some a)) := by
  rw [not_and_or] at h
  push Not at h
  rcases h with ⟨o, ho, hv⟩ | ⟨o, ho, hv⟩
  · exact (writeSnapshot_fails (Option.mem_def.1 ho) (hs.after o ho) hv).left
  · have hbefore : writeOwner ((some a).bind (·.before)) = writeOwner (some o) :=
      congrArg writeOwner ho
    refine Writer.Fails.right (Writer.Fails.left ?_)
    rw [hbefore]
    exact writeOwner_fails (hb o ho) hv

theorem writeOld_fails (hr : s.InRange) (h : ¬ ∀ x ∈ s.active, ∀ o ∈ x.after, o.Valid) :
    Writer.Fails (writeOld s) := by
  push Not at h
  obtain ⟨x, hx, o, ho, hv⟩ := h
  have hafter : writeOwner (s.active.bind (·.after)) = writeOwner (some o) :=
    congrArg writeOwner (Option.mem_bind_iff.2 ⟨x, hx, ho⟩)
  iterate 8 refine Writer.Fails.right ?_
  rw [hafter]
  exact (writeOwner_fails ((hr.active x hx).after o ho) hv).left

theorem writeNew_fails (hr : s.InRange) (h : ¬ s.OwnersValid) : Writer.Fails (writeNew s) := by
  iterate 3 refine Writer.Fails.right ?_
  by_cases hactive : ∀ x ∈ s.active, ∀ o ∈ x.after, o.Valid
  · have hdelta : ∃ a ∈ s.deltaList,
        ¬ ((∀ o ∈ a.snapshot.after, o.Valid) ∧ ∀ o ∈ a.before, o.Valid) := by
      by_contra hall
      push Not at hall
      exact h ⟨hactive, hall⟩
    obtain ⟨a, ha, hbad⟩ := hdelta
    obtain ⟨hsnap, hbefore, -⟩ := hr.deltas a ha
    refine Writer.Fails.right (Writer.Fails.right (Writer.Fails.left (writeMany_fails ?_)))
    exact ⟨some a, mem_deltaList.1 ha, writeDelta_fails hsnap hbefore hbad⟩
  · push Not at hactive
    obtain ⟨x, hx, o, ho, hv⟩ := hactive
    rw [Option.mem_def.1 hx]
    exact (writeSnapshot_fails (Option.mem_def.1 ho) ((hr.active x hx).after o ho) hv).left

/-! ### Reading back -/

theorem ownerField_ne {a : OwnerRef} (hr : a.InRange) (hv : a.Valid) :
    a.bytes ≠ List.replicate 16 0 := by
  intro h
  have hpage := congrArg (fun l => leNat (l.take 4)) h
  simp only [OwnerRef.bytes] at hpage
  rw [List.take_left' Reader.length_leBytes, Reader.leNat_leBytes hr.1] at hpage
  exact hv.1.1 hpage

theorem readOwner_decodes (hr : ∀ a ∈ o, a.InRange) (hv : ∀ a ∈ o, a.Valid) :
    Reader.Decodes readOwner (ownerField o) o := by
  rw [← List.append_nil (ownerField o)]
  refine (Reader.Decodes.take length_ownerField).bind ?_
  cases o with
  | none => exact Reader.Decodes.pure
  | some a =>
    have hread : Reader.run OwnerRef.read a.bytes = .ok a :=
      (OwnerRef.decodes (hr a rfl) (hv a rfl)).run (by rw [OwnerRef.length_bytes]; decide)
    change Reader.Decodes (if a.bytes = List.replicate 16 0 then _ else _) [] _
    rw [if_neg (ownerField_ne (hr a rfl) (hv a rfl))]
    exact Reader.Decodes.ofExcept_bind hread Reader.Decodes.pure

/-- A snapshot that is valid, in range and has owners of possible slots. -/
structure GroupSnapshot.Storable (x : GroupSnapshot) : Prop extends x.InRange where
  root_ne : ∀ r ∈ x.frontierRoot, r ≠ 0
  owner : ∀ o ∈ x.after, o.Valid

theorem snapshotFields_lt (h : ∀ a ∈ x, a.InRange) : x.elim 0 (·.id) < 256 ^ 8 ∧
    x.elim noBlock (·.head) < 256 ^ 4 ∧ x.elim noBlock (·.tail) < 256 ^ 4 ∧
    x.elim noBlock (·.root) < 256 ^ 4 ∧ (x.bind (·.frontierRoot)).getD 0 < 256 ^ 4 := by
  cases x with
  | none => decide
  | some a =>
    have ha := h a rfl
    refine ⟨ha.id.2, ha.head, ha.tail, ha.root, ?_⟩
    change a.frontierRoot.getD 0 < _
    cases hr : a.frontierRoot with
    | none => decide
    | some r => exact ha.frontier r hr

theorem readSnapshot_decodes (h : ∀ a ∈ x, a.Storable) :
    Reader.Decodes readSnapshot (snapshotField x) x := by
  have hflags : (if x.any (·.frontierValid) then 1 else 0) ≤ 1 := by split_ifs <;> omega
  obtain ⟨hid, hhead, htail, hroot, hfrontier⟩ :=
    snapshotFields_lt fun a ha => (h a ha).toInRange
  have howner : Reader.Decodes readOwner (ownerField (x.bind (·.after))) (x.bind (·.after)) := by
    refine readOwner_decodes (fun o ho => ?_) fun o ho => ?_ <;>
      obtain ⟨a, ha, ho⟩ := Option.mem_bind_iff.1 ho
    · exact (h a ha).after o ho
    · exact (h a ha).owner o ho
  refine (Reader.Decodes.le hid).bind ((Reader.Decodes.le hhead).bind
    ((Reader.Decodes.le htail).bind ((Reader.Decodes.le hroot).bind
      ((Reader.Decodes.le hfrontier).bind ((Reader.Decodes.le (by omega)).bind
        ((Reader.Decodes.le (by decide)).bind (Reader.Decodes.ensure_bind ⟨rfl, hflags⟩ ?_)))))))
  rw [← List.append_nil (ownerField _)]
  refine howner.bind ?_
  cases x with
  | none => exact Reader.Decodes.ensure_bind ⟨rfl, rfl, rfl, rfl, rfl, rfl⟩ Reader.Decodes.pure
  | some a =>
    have ha := h a rfl
    simp only [Option.elim_some, Option.bind_some, Option.any_some, if_neg ha.id.1]
    have hback : (if a.frontierRoot.getD 0 = 0 then none else some (a.frontierRoot.getD 0)) =
        a.frontierRoot := by
      cases hr : a.frontierRoot with
      | none => rfl
      | some r => exact if_neg (ha.root_ne r hr)
    have hvalid : decide ((if a.frontierValid = true then 1 else 0) = 1) = a.frontierValid := by
      cases a.frontierValid <;> rfl
    rw [hback, hvalid]
    exact Reader.Decodes.pure

/-- The fields of a journal. -/
def journalParts (j : Option GroupJournal) : ℕ × ℕ × ℕ × ℕ :=
  (j.elim 0 (·.id), j.elim noBlock (·.head), j.elim noBlock (·.tail), j.elim 0 (·.phase.code))

theorem readJournal_decodes
    (h : ∀ a ∈ j, (a.id ≠ 0 ∧ a.id < 2 ^ 64) ∧ a.head < 2 ^ 32 ∧ a.tail < 2 ^ 32) :
    Reader.Decodes readJournal (journalField j) (journalParts j) := by
  have hfields : j.elim 0 (·.id) < 256 ^ 8 ∧ j.elim noBlock (·.head) < 256 ^ 4 ∧
      j.elim noBlock (·.tail) < 256 ^ 4 ∧ j.elim 0 (·.phase.code) < 256 ^ 4 := by
    cases j with
    | none => decide
    | some a =>
      obtain ⟨hid, hhead, htail⟩ := h a rfl
      refine ⟨hid.2, hhead, htail, ?_⟩
      change a.phase.code < _
      cases a.phase <;> decide
  obtain ⟨hid, hhead, htail, hphase⟩ := hfields
  refine (Reader.Decodes.le hid).bind ((Reader.Decodes.le hhead).bind
    ((Reader.Decodes.le htail).bind ((Reader.Decodes.le hphase).bind ?_)))
  rw [← List.append_nil (leBytes 4 0)]
  exact (Reader.Decodes.le (by decide)).bind (Reader.Decodes.ensure_bind rfl Reader.Decodes.pure)

theorem journalOf_parts (h : ∀ a ∈ j, a.id ≠ 0) : journalOf (journalParts j) = .ok j := by
  cases j with
  | none => rfl
  | some a =>
    obtain ⟨id, head, tail, phase⟩ := a
    have hid : id ≠ 0 := h _ rfl
    cases phase <;> exact if_neg hid

theorem readDelta_decodes (hs : ∀ a ∈ d, a.snapshot.Storable)
    (hb : ∀ a ∈ d, ∀ o ∈ a.before, o.InRange ∧ o.Valid) (hl : ∀ a ∈ d, a.level < 256) :
    Reader.Decodes readDelta (deltaField d) d := by
  have hlevel : d.elim 0 (·.level) < 256 ^ 1 := by
    cases d with
    | none => decide
    | some a => exact hl a rfl
  have hsnap : ∀ a ∈ d.map (·.snapshot), a.Storable := by
    intro a ha
    obtain ⟨b, hb, rfl⟩ := Option.mem_map.1 ha
    exact hs b hb
  have howner : Reader.Decodes readOwner (ownerField (d.bind (·.before))) (d.bind (·.before)) := by
    refine readOwner_decodes (fun o ho => ?_) fun o ho => ?_ <;>
      obtain ⟨a, ha, ho⟩ := Option.mem_bind_iff.1 ho
    · exact (hb a ha o ho).1
    · exact (hb a ha o ho).2
  refine (readSnapshot_decodes hsnap).bind (howner.bind ((Reader.Decodes.le hlevel).bind ?_))
  rw [← List.append_nil (List.replicate 7 0)]
  refine (Reader.Decodes.take List.length_replicate).bind (Reader.Decodes.ensure_bind rfl ?_)
  cases d with
  | none => exact Reader.Decodes.ensure_bind (fun _ => ⟨rfl, rfl⟩) Reader.Decodes.pure
  | some a => exact Reader.Decodes.ensure_bind nofun Reader.Decodes.pure

theorem readRetired_decodes
    (h : ∀ a ∈ r, (a.id ≠ 0 ∧ a.id < 2 ^ 64) ∧ a.head < 2 ^ 32 ∧ a.tail < 2 ^ 32) :
    Reader.Decodes readRetired (retiredField r) r := by
  have hfields : r.elim 0 (·.id) < 256 ^ 8 ∧ r.elim noBlock (·.head) < 256 ^ 4 ∧
      r.elim noBlock (·.tail) < 256 ^ 4 := by
    cases r with
    | none => decide
    | some a => exact ⟨(h a rfl).1.2, (h a rfl).2⟩
  obtain ⟨hid, hhead, htail⟩ := hfields
  refine (Reader.Decodes.le hid).bind ((Reader.Decodes.le hhead).bind ?_)
  rw [← List.append_nil (leBytes 4 _)]
  refine (Reader.Decodes.le htail).bind ?_
  cases r with
  | none => exact Reader.Decodes.ensure_bind ⟨rfl, rfl⟩ Reader.Decodes.pure
  | some a =>
    change Reader.Decodes (if a.id = 0 then _ else _) [] _
    rw [if_neg (h a rfl).1.1]
    exact Reader.Decodes.pure

theorem readMany_decodes {α : Type} {f : Reader.Parse α} {g : α → List UInt8} {n : ℕ}
    {v : List.Vector α n} (h : ∀ a ∈ v.toList, Reader.Decodes f (g a) a) :
    Reader.Decodes (readMany f n) (v.toList.flatMap g) v := by
  induction v using List.Vector.inductionOn with
  | nil => exact Reader.Decodes.pure
  | cons ih =>
    rename_i n a v
    rw [List.Vector.toList_cons, List.forall_mem_cons] at h
    rw [List.Vector.toList_cons, List.flatMap_cons]
    refine h.1.bind ?_
    rw [← List.append_nil (v.toList.flatMap g)]
    exact (ih h.2).bind Reader.Decodes.pure

/-- What validation, the ranges and the owners of a state give for its parts. -/
structure GroupArrays.Storable (s : GroupArrays) : Prop where
  range : s.InRange
  owners : s.OwnersValid
  active : ∀ x ∈ s.active, ∀ r ∈ x.frontierRoot, r ≠ 0
  valid : ∀ x ∈ s.active, x.frontierValid = true → x.frontierRoot ≠ none
  deltas : ∀ d ∈ s.deltaList, ∀ r ∈ d.snapshot.frontierRoot, r ≠ 0

theorem readNew_decodes (h : s.Storable) : Reader.Decodes readNew (newBytes s) s := by
  have hactive : ∀ a ∈ s.active, a.Storable := fun a ha =>
    { h.range.active a ha with
      root_ne := h.active a ha
      owner := h.owners.active a ha }
  have hdelta : ∀ d ∈ s.deltas.toList, Reader.Decodes readDelta (deltaField d) d := by
    intro d hd
    have hmem : ∀ a ∈ d, a ∈ s.deltaList := by
      rintro a rfl
      exact mem_deltaList.2 hd
    refine readDelta_decodes (fun a ha => ?_) (fun a ha o ho => ?_) fun a ha => ?_
    · exact { (h.range.deltas a (hmem a ha)).1 with
        root_ne := h.deltas a (hmem a ha)
        owner := (h.owners.deltas a (hmem a ha)).1 }
    · exact ⟨(h.range.deltas a (hmem a ha)).2.1 o ho, (h.owners.deltas a (hmem a ha)).2 o ho⟩
    · exact (h.range.deltas a (hmem a ha)).2.2
  have hretired : ∀ r ∈ s.retired.toList, Reader.Decodes readRetired (retiredField r) r := by
    intro r hr
    refine readRetired_decodes fun a ha => h.range.retired a (mem_retiredList.2 ?_)
    rwa [← Option.mem_def.1 ha]
  refine (Reader.Decodes.take rfl).bind ((Reader.Decodes.le (by decide)).bind
    ((Reader.Decodes.le (by decide)).bind (Reader.Decodes.ensure_bind ⟨rfl, rfl, rfl⟩ ?_)))
  refine (readSnapshot_decodes hactive).bind ((readJournal_decodes h.range.journal).bind
    (Reader.Decodes.ofExcept_bind (journalOf_parts fun j hj => (h.range.journal j hj).1.1) ?_))
  refine (readMany_decodes hdelta).bind ?_
  rw [← List.append_nil (s.retired.toList.flatMap retiredField)]
  exact (readMany_decodes hretired).bind Reader.Decodes.pure

/-- A frontier is marked by the version, a valid one by the flags. -/
theorem oldMarks (hv : ∀ a ∈ x, a.frontierValid = true → a.frontierRoot ≠ none) :
    ((if (x.bind (·.frontierRoot)).isSome then 2 else 1) = 1 ∧
        (if x.any (·.frontierValid) then 1 else 0) = 0) ∨
      ((if (x.bind (·.frontierRoot)).isSome then 2 else 1) = 2 ∧
        (if x.any (·.frontierValid) then 1 else 0) ≤ 1) := by
  cases x with
  | none => exact .inl ⟨rfl, rfl⟩
  | some a =>
    obtain ⟨id, head, tail, root, after, frontier, valid⟩ := a
    have ha := hv _ rfl
    cases frontier with
    | some r => exact .inr ⟨rfl, by split_ifs <;> omega⟩
    | none =>
      cases valid with
      | false => exact .inl ⟨rfl, rfl⟩
      | true => exact absurd rfl (ha rfl)

/-- The snapshot of the fields of the shorter layout. -/
theorem oldSnapshot (hid : ∀ a ∈ x, a.id ≠ 0) : (if x.elim 0 (·.id) = 0 then none else
      some ⟨x.elim 0 (·.id), x.elim noBlock (·.head), x.elim noBlock (·.tail),
        x.elim noBlock (·.root), x.bind (·.after),
        if (if (x.bind (·.frontierRoot)).isSome then 2 else 1) = 2 then
          some ((x.bind (·.frontierRoot)).getD 0) else none,
        decide ((if x.any (·.frontierValid) then 1 else 0) = 1)⟩) = x := by
  cases x with
  | none => rfl
  | some a =>
    obtain ⟨id, head, tail, root, after, frontier, valid⟩ := a
    have h0 : id ≠ 0 := hid _ rfl
    simp only [Option.elim_some, Option.bind_some, Option.any_some, if_neg h0]
    cases frontier <;> cases valid <;> rfl

theorem readOld_decodes (h : s.Storable) :
    Reader.Decodes readOld (oldBytes s) (s.active, journalParts s.journal) := by
  obtain ⟨hid, hhead, htail, hroot, hfrontier⟩ := snapshotFields_lt h.range.active
  have howner : Reader.Decodes readOwner (ownerField (s.active.bind (·.after)))
      (s.active.bind (·.after)) := by
    refine readOwner_decodes (fun o ho => ?_) fun o ho => ?_ <;>
      obtain ⟨a, ha, ho⟩ := Option.mem_bind_iff.1 ho
    · exact (h.range.active a ha).after o ho
    · exact h.owners.active a ha o ho
  have hversion : (if (s.active.bind (·.frontierRoot)).isSome then 2 else 1) < 256 ^ 2 := by
    split_ifs <;> decide
  have hflags : (if s.active.any (·.frontierValid) then 1 else 0) < 256 ^ 2 := by
    split_ifs <;> decide
  have hplain : (if (s.active.bind (·.frontierRoot)).isSome then 2 else 1) = 1 →
      (s.active.bind (·.frontierRoot)).getD 0 = 0 := by
    cases s.active.bind (·.frontierRoot) with
    | none => exact fun _ => rfl
    | some r => exact nofun
  have hempty : s.active.elim 0 (·.id) = 0 → s.active.elim noBlock (·.head) = noBlock ∧
      s.active.elim noBlock (·.tail) = noBlock ∧ s.active.elim noBlock (·.root) = noBlock ∧
      s.active.bind (·.after) = none ∧
      (if (s.active.bind (·.frontierRoot)).isSome then 2 else 1) = 1 := by
    cases hx : s.active with
    | none => exact fun _ => ⟨rfl, rfl, rfl, rfl, rfl⟩
    | some a => exact fun h0 => absurd h0 (h.range.active a hx).id.1
  refine (Reader.Decodes.take rfl).bind (Reader.Decodes.ensure_bind rfl
    ((Reader.Decodes.le hversion).bind ((Reader.Decodes.le hflags).bind
      (Reader.Decodes.ensure_bind (oldMarks h.valid) ?_))))
  refine (Reader.Decodes.le hid).bind ((Reader.Decodes.le hhead).bind
    ((Reader.Decodes.le htail).bind ((Reader.Decodes.le hroot).bind
      ((Reader.Decodes.le hfrontier).bind (Reader.Decodes.ensure_bind hplain
        (howner.bind (Reader.Decodes.ensure_bind hempty ?_)))))))
  rw [← List.append_nil (journalField s.journal)]
  refine (readJournal_decodes h.range.journal).bind ?_
  rw [oldSnapshot fun a ha => (h.range.active a ha).id.1]
  exact Reader.Decodes.pure

/-! ### The edit -/

/-- The bytes behind the fields of the metapage. -/
def GroupArrays.tailBytes (s : GroupArrays) : List UInt8 :=
  if s.extended then newBytes s else oldBytes s

theorem length_tailBytes : s.tailBytes.length =
    if s.extended then metaGroupedV3Bytes - metaLegacyBytes else 72 := by
  rw [GroupArrays.tailBytes]
  split_ifs
  · exact length_newBytes
  · exact length_oldBytes

theorem tailBytes_fit : metaLegacyBytes + s.tailBytes.length ≤ capacity := by
  rw [length_tailBytes]
  split_ifs <;> decide

theorem GroupArrays.deltaList_of_not_extended (h : ¬ s.extended) :
    s.deltas = .replicate _ none ∧ s.retired = .replicate _ none := by
  rw [GroupArrays.extended, not_or, not_not, not_not] at h
  obtain ⟨n, hd⟩ := (List.reduceOption_eq_nil_iff _).1 h.1
  obtain ⟨m, hr⟩ := (List.reduceOption_eq_nil_iff _).1 h.2
  have hn := congrArg List.length hd
  have hm := congrArg List.length hr
  rw [List.Vector.toList_length, List.length_replicate] at hn hm
  subst hn hm
  exact ⟨List.Vector.eq _ _ hd, List.Vector.eq _ _ hr⟩

/-- The image with the tail of a state. -/
def tailImage (p : Image) (s : GroupArrays) : Image where
  block := p.block
  kind := p.kind
  len := metaLegacyBytes + s.tailBytes.length
  initializes := p.initializes
  bytes := splice p.bytes metaLegacyBytes s.tailBytes
  size := (length_splice (by rw [p.size]; exact tailBytes_fit)).trans p.size
  fits := tailBytes_fit

/-- A valid state whose identifiers were drawn and whose owners name possible slots is stored. -/
theorem Image.setGroupedState_accepts {p : Image} {next : ℕ} (hk : p.kind = .info)
    (hv : s.validate = .ok ⟨⟩) (hn : p.u64 32 = .ok next) (hids : s.IdsBelow next)
    (hs : s.OwnersValid) : Image.setGroupedState s p = (.ok ⟨⟩, tailImage p s) := by
  have hrequire : p.require .info = .ok ⟨⟩ := require_of hk
  have hput : metaLegacyBytes + s.tailBytes.length ≤ capacity := tailBytes_fit
  have hstore : ∀ bytes len, bytes = s.tailBytes → len = metaLegacyBytes + s.tailBytes.length →
      (put metaLegacyBytes bytes >>= fun _ => setLen len) p = (.ok ⟨⟩, tailImage p s) := by
    rintro _ _ rfl rfl
    rw [put_bind hput]
    exact dif_pos hput
  unfold Image.setGroupedState
  rw [check_bind hrequire, Read.ofExcept_bind hv, check_bind hn, Read.ensure_bind hids]
  by_cases hext : s.extended
  · have htail : s.tailBytes = newBytes s := if_pos hext
    have hfill := (writeNew_writes hs).fill (Nat.le_of_eq length_newBytes) (by decide)
    rw [length_newBytes, Nat.sub_self, List.replicate_zero, List.append_nil] at hfill
    rw [if_pos hext, Read.ofExcept_bind hfill]
    refine (Read.ensure_bind length_newBytes.symm).trans (hstore _ _ htail.symm ?_)
    rw [htail, length_newBytes]
    rfl
  · have htail : s.tailBytes = oldBytes s := if_neg hext
    have hfill := (writeOld_writes (bind_after_valid hs)).fill (Nat.le_of_eq length_oldBytes)
      (by decide)
    rw [length_oldBytes, Nat.sub_self, List.replicate_zero, List.append_nil] at hfill
    rw [if_neg hext, Read.ofExcept_bind hfill]
    refine hstore _ _ htail.symm ?_
    rw [htail, length_oldBytes]
    rfl

/-- Without one of these the call fails and changes nothing. -/
theorem Image.setGroupedState_refuses {p : Image} {next : ℕ} (hr : s.InRange)
    (hn : p.u64 32 = .ok next)
    (h : ¬ (p.kind = .info ∧ s.validate = .ok ⟨⟩ ∧ s.IdsBelow next ∧ s.OwnersValid)) :
    ∃ e, Image.setGroupedState s p = (.error e, p) := by
  unfold Image.setGroupedState
  by_cases hk : p.kind = .info
  swap
  · exact ⟨_, check_error (if_neg hk)⟩
  have hrequire : p.require .info = .ok ⟨⟩ := require_of hk
  rw [check_bind hrequire]
  cases hv : s.validate with
  | error e => exact ⟨e, rfl⟩
  | ok _ =>
    rw [Read.ofExcept_bind rfl, check_bind hn]
    by_cases hids : s.IdsBelow next
    swap
    · exact ⟨_, Read.error_bind (by rw [Read.ensure, if_neg hids]; rfl)⟩
    have howners : ¬ s.OwnersValid := fun ho => h ⟨hk, hv, hids, ho⟩
    rw [Read.ensure_bind hids]
    by_cases hext : s.extended
    · obtain ⟨e, hfill⟩ := (writeNew_fails hr howners).fill
      rw [if_pos hext, hfill]
      exact ⟨e, rfl⟩
    · have hactive : ¬ ∀ x ∈ s.active, ∀ o ∈ x.after, o.Valid := by
        refine fun ha => howners ⟨ha, fun d hd => ?_⟩
        rw [GroupArrays.extended, not_or, not_not] at hext
        rw [hext.1] at hd
        cases hd
      obtain ⟨e, hfill⟩ := (writeOld_fails hr hactive).fill
      rw [if_neg hext, hfill]
      exact ⟨e, rfl⟩

/-- The fields in front of the tail stay. -/
theorem sameFront_tailImage {p : Image} {n : ℕ} (hn : n ≤ metaLegacyBytes) (hp : n ≤ p.len) :
    SameFront n p (tailImage p s) where
  block := rfl
  kind := rfl
  bytes := take_splice hn (by rw [p.size]; decide)
  left := hp
  right := hn.trans (Nat.le_add_right _ _)

theorem used_tailImage {p : Image} : (tailImage p s).used.drop metaLegacyBytes = s.tailBytes := by
  have hle : metaLegacyBytes ≤ p.bytes.length := by rw [p.size]; decide
  have hused : (tailImage p s).used = p.bytes.take metaLegacyBytes ++ s.tailBytes :=
    take_splice_self hle
  rw [hused, List.drop_left' (List.length_take_of_le hle)]

theorem u64_tailImage {p : Image} {next : ℕ} (hn : p.u64 32 = .ok next) :
    (tailImage p s).u64 32 = .ok next :=
  ((sameFront_tailImage (by decide) (get_ok hn).1).get (Nat.le_refl _)).trans hn

/-- What is stored is read back. -/
theorem groupedState_tailImage {p : Image} {next : ℕ} (hk : p.kind = .info)
    (hv : s.validate = .ok ⟨⟩) (hn : p.u64 32 = .ok next) (hids : s.IdsBelow next)
    (hs : s.Storable) : (tailImage p s).groupedState = .ok s := by
  have hrequire : (tailImage p s).require .info = .ok ⟨⟩ := require_of hk
  have hlen : (tailImage p s).len = metaLegacyBytes + s.tailBytes.length := rfl
  have hlong := length_tailBytes (s := s)
  have hchecks : ((do
      s.validate
      let next ← (tailImage p s).u64 32
      Grouped.require (s.IdsBelow next) .invalidState
      .ok s) : Except Error GroupArrays) = .ok s := by
    rw [hv, ok_bind, u64_tailImage hn, ok_bind, require_of hids, ok_bind]
  rw [Image.groupedState, hrequire, ok_bind]
  by_cases hext : s.extended
  · have htail : s.tailBytes = newBytes s := if_pos hext
    rw [if_pos hext] at hlong
    rw [if_neg (by rw [hlen, hlong]; decide), if_neg (by rw [hlen, hlong]; decide),
      if_pos (by rw [hlen, hlong]; rfl), used_tailImage, htail,
      (readNew_decodes hs).runDone (by rw [length_newBytes]; decide), ok_bind]
    exact hchecks
  · have htail : s.tailBytes = oldBytes s := if_neg hext
    rw [if_neg hext] at hlong
    have hread : (tailImage p s).readOldGroupedState = .ok s := by
      obtain ⟨hd, hr⟩ := GroupArrays.deltaList_of_not_extended hext
      rw [Image.readOldGroupedState, used_tailImage, htail,
        (readOld_decodes hs).runDone (by rw [length_oldBytes]; decide), ok_bind]
      simp only [journalOf_parts fun j hj => (hs.range.journal j hj).1.1, ok_bind,
        GroupArrays.default, ← hd, ← hr]
    rw [if_neg (by rw [hlen, hlong]; decide), if_pos (by rw [hlen, hlong]; rfl), hread, ok_bind]
    exact hchecks

/-- A valid state in range with owners of possible slots can be stored. -/
theorem GroupArrays.storable (hr : s.InRange) (hv : s.validate = .ok ⟨⟩) (ho : s.OwnersValid) :
    s.Storable := by
  obtain ⟨-, -, hok⟩ := GroupArrays.validate_iff.1 hv
  refine ⟨hr, ho, fun x hx r hroot h0 => ?_, fun x hx hfr => ?_, fun d hd r hroot => ?_⟩
  · obtain ⟨-, -, -, -, -, hfrontier, -⟩ := hok.active x hx
    exact (hfrontier r hroot (by rw [h0]; decide)).1 h0
  · obtain ⟨-, -, -, -, -, -, hfrontier, -⟩ := hok.active x hx
    exact hfrontier hfr
  · -- deltas have no frontier
    have hchain : ∀ (ds : List GroupDelta) after id level,
        GroupDelta.ChainOk after id level ds → ∀ d ∈ ds, d.snapshot.frontierRoot = none := by
      intro ds
      induction ds with
      | nil => exact fun _ _ _ _ => nofun
      | cons e ds ih =>
        rintro after id level ⟨he, -, -, -, -, -, -, -, -, hds⟩
        exact List.forall_mem_cons.2 ⟨he.2.2.1 rfl, ih _ _ _ hds⟩
    cases hx : s.active with
    | none =>
      have hnil : s.deltaList = [] := hok.deltasNeedActive hx
      rw [hnil] at hd
      cases hd
    | some x =>
      have hnone := hchain _ _ _ _ (hok.deltas x hx) d hd
      rw [hnone] at hroot
      cases hroot

/-! ### The other fields -/

section

variable {p q : Image} {layout : HeapLayout}

theorem Image.SameFront.checkFields (h : SameFront metaLegacyBytes p q) :
    q.checkFields layout = p.checkFields layout := by
  have hget : ∀ offset width, offset + width ≤ metaLegacyBytes →
      q.get offset width = p.get offset width := fun _ _ hn => h.get hn
  simp (disch := decide) only [Image.checkFields, Image.ownerChain, Image.freeHead,
    Image.rewriteJournal, Image.require, u16, u32, u64, hget, h.kind]

theorem Image.SameFront.bucket (h : SameFront metaLegacyBytes p q) (b : ℕ) :
    q.bucket b = p.bucket b := by
  rw [Image.bucket, Image.bucket, Image.require, Image.require, h.kind]
  by_cases hb : buckets ≤ b
  · rw [if_pos hb, if_pos hb]
  · have hend : metaLegacyBytes = metaHeader + buckets * 8 := rfl
    rw [if_neg hb, if_neg hb, u32, u32, h.get (by omega), h.get (by omega)]
    rfl

theorem validateInfo_ok (h : p.validateInfo layout = .ok ⟨⟩) : p.checkNext = .ok ⟨⟩ ∧
    p.checkBlock = .ok ⟨⟩ ∧ metaLegacyBytes ≤ p.len ∧ p.checkFields layout = .ok ⟨⟩ ∧
    (∃ s, p.groupedState = .ok s) ∧
    ((List.range buckets).forM fun b => p.bucket b >>= fun _ => .ok ⟨⟩) = .ok ⟨⟩ := by
  obtain ⟨⟨⟩, hnext, h⟩ := ok_of_bind h
  obtain ⟨⟨⟩, hblock, h⟩ := ok_of_bind h
  obtain ⟨_, hlen, h⟩ := ok_of_bind h
  obtain ⟨⟨⟩, hfields, h⟩ := ok_of_bind h
  obtain ⟨s, hstate, h⟩ := ok_of_bind h
  refine ⟨hnext, hblock, ?_, hfields, ⟨s, hstate⟩, h⟩
  have h₁ : metaLegacyBytes ≤ metaGroupedBytes := by decide
  have h₂ : metaLegacyBytes ≤ metaGroupedV3Bytes := by decide
  rcases require_ok hlen with h | h | h <;> omega

end

/-- A metapage that validates still does after the call. -/
theorem validateInfo_tailImage {p : Image} {next : ℕ} {layout : HeapLayout} (hk : p.kind = .info)
    (hv : s.validate = .ok ⟨⟩) (hn : p.u64 32 = .ok next) (hids : s.IdsBelow next)
    (hs : s.Storable) (h : p.validateInfo layout = .ok ⟨⟩) :
    (tailImage p s).validateInfo layout = .ok ⟨⟩ := by
  obtain ⟨hnext, hblock, hle, hfields, -, hbuckets⟩ := validateInfo_ok h
  have hsame : SameFront metaLegacyBytes p (tailImage p s) :=
    sameFront_tailImage (Nat.le_refl _) hle
  have hlen : (tailImage p s).len = metaGroupedBytes ∨
      (tailImage p s).len = metaGroupedV3Bytes := by
    have hlen : (tailImage p s).len = metaLegacyBytes + s.tailBytes.length := rfl
    rw [hlen, length_tailBytes]
    split_ifs
    · exact .inr rfl
    · exact .inl rfl
  have hbucket : (fun b => (tailImage p s).bucket b >>= fun _ => (.ok ⟨⟩ : Except Error PUnit)) =
      fun b => p.bucket b >>= fun _ => .ok ⟨⟩ := funext fun b => by rw [hsame.bucket]
  rw [Image.validateInfo, hsame.checkNext (by decide), hnext, ok_bind, hsame.checkBlock, hblock,
    ok_bind, require_of (.inr hlen), ok_bind, hsame.checkFields, hfields, ok_bind,
    groupedState_tailImage hk hv hn hids hs, ok_bind]
  exact (congrArg (fun f => (List.range buckets).forM f) hbucket).trans hbuckets

/-! ### Runs of calls -/

/-- One call after the other, whatever they return. -/
def setAll : List GroupArrays → Image → Image
  | [], p => p
  | s :: rest, p => setAll rest (Image.setGroupedState s p).2

/-- Everything outside the grouped tail is as before, and a metapage that validated still does. -/
structure Kept (p q : Image) : Prop where
  block : q.block = p.block
  kind : q.kind = p.kind
  initializes : q.initializes = p.initializes
  bytes : q.bytes.take metaLegacyBytes = p.bytes.take metaLegacyBytes
  counter : ∀ next, p.u64 32 = .ok next → q.u64 32 = .ok next
  valid : ∀ layout, p.validateInfo layout = .ok ⟨⟩ → q.validateInfo layout = .ok ⟨⟩

theorem Kept.refl {p : Image} : Kept p p := ⟨rfl, rfl, rfl, rfl, fun _ => id, fun _ => id⟩

theorem Kept.trans {p q r : Image} (h : Kept p q) (h' : Kept q r) : Kept p r where
  block := h'.block.trans h.block
  kind := h'.kind.trans h.kind
  initializes := h'.initializes.trans h.initializes
  bytes := h'.bytes.trans h.bytes
  counter next hn := h'.counter next (h.counter next hn)
  valid layout hv := h'.valid layout (h.valid layout hv)

section

variable {p : Image} {next : ℕ} {earlier : List GroupArrays}

/-- A call stores the state and keeps the rest, or changes nothing. -/
theorem setGroupedState_cases (hk : p.kind = .info) (hn : p.u64 32 = .ok next) (hr : s.InRange) :
    (s.validate = .ok ⟨⟩ ∧ s.IdsBelow next ∧ s.OwnersValid ∧
        Image.setGroupedState s p = (.ok ⟨⟩, tailImage p s) ∧
        (tailImage p s).groupedState = .ok s ∧ Kept p (tailImage p s)) ∨
      (¬ (s.validate = .ok ⟨⟩ ∧ s.IdsBelow next ∧ s.OwnersValid) ∧
        ∃ e, Image.setGroupedState s p = (.error e, p)) := by
  by_cases h : s.validate = .ok ⟨⟩ ∧ s.IdsBelow next ∧ s.OwnersValid
  · obtain ⟨hv, hids, ho⟩ := h
    have hs := GroupArrays.storable hr hv ho
    refine .inl ⟨hv, hids, ho, Image.setGroupedState_accepts hk hv hn hids ho,
      groupedState_tailImage hk hv hn hids hs, rfl, rfl, rfl, ?_, fun _ hm => u64_tailImage hm,
      fun _ => validateInfo_tailImage hk hv hn hids hs⟩
    exact take_splice (Nat.le_refl _) (by rw [p.size]; decide)
  · exact .inr ⟨h, Image.setGroupedState_refuses hr hn fun hall => h hall.2⟩

theorem kept_setGroupedState (hk : p.kind = .info) (hn : p.u64 32 = .ok next) (hr : s.InRange) :
    Kept p (Image.setGroupedState s p).2 := by
  rcases setGroupedState_cases hk hn hr with ⟨-, -, -, hset, -, hkept⟩ | ⟨-, e, hset⟩
  · rw [hset]
    exact hkept
  · rw [hset]
    exact Kept.refl

theorem kept_setAll (hk : p.kind = .info) (hn : p.u64 32 = .ok next)
    (hr : ∀ s ∈ earlier, s.InRange) : Kept p (setAll earlier p) := by
  induction earlier generalizing p with
  | nil => exact Kept.refl
  | cons s earlier ih =>
    obtain ⟨hs, hr⟩ := List.forall_mem_cons.1 hr
    have hkept := kept_setGroupedState hk hn hs
    exact hkept.trans (ih (hkept.kind.trans hk) (hkept.counter next hn) hr)

end

end

/-- After any calls on a metapage, a call is accepted exactly if the state is valid, its
identifiers are below the incarnation counter and its owner references name possible slots.  An
accepted state is read back, and nothing outside the grouped tail changes; a refused call changes
nothing. -/
theorem Image.setGroupedState_exact {p : Image} {next : ℕ} {earlier : List GroupArrays}
    {s : GroupArrays} (hk : p.kind = .info) (hn : p.u64 32 = .ok next)
    (hearlier : ∀ e ∈ earlier, e.InRange) (hr : s.InRange) :
    Kept p (setAll earlier p) ∧
    ((Image.setGroupedState s (setAll earlier p)).1 = .ok ⟨⟩ ↔
      s.validate = .ok ⟨⟩ ∧ s.IdsBelow next ∧ s.OwnersValid) ∧
    ((Image.setGroupedState s (setAll earlier p)).1 ≠ .ok ⟨⟩ →
      (Image.setGroupedState s (setAll earlier p)).2 = setAll earlier p) ∧
    ((Image.setGroupedState s (setAll earlier p)).1 = .ok ⟨⟩ →
      (Image.setGroupedState s (setAll earlier p)).2.groupedState = .ok s ∧
      Kept (setAll earlier p) (Image.setGroupedState s (setAll earlier p)).2) := by
  have hkept := kept_setAll hk hn hearlier
  refine ⟨hkept, ?_⟩
  rcases setGroupedState_cases (hkept.kind.trans hk) (hkept.counter next hn) hr with
    ⟨hv, hids, ho, hset, hread, hstored⟩ | ⟨hbad, e, hset⟩
  · rw [hset]
    exact ⟨⟨fun _ => ⟨hv, hids, ho⟩, fun _ => rfl⟩, fun hne => absurd rfl hne,
      fun _ => ⟨hread, hstored⟩⟩
  · rw [hset]
    exact ⟨⟨nofun, fun h => absurd h hbad⟩, fun _ => rfl, nofun⟩

/-! ### A new metapage -/

/-- The metapage of a new index of which incarnations below `next` are reserved. -/
def newMetaBytes (layout : HeapLayout) (next : ℕ) : List UInt8 :=
  [0x50, 0x49, 0x4e, 0x32] ++ leBytes 2 2 ++ [1, 0] ++ leBytes 4 0 ++ leBytes 4 noBlock ++
    leBytes 4 profileId ++ leBytes 4 8192 ++ leBytes 2 layout.maxOffset ++ leBytes 2 buckets ++
    leBytes 4 0 ++ leBytes 8 next ++ leBytes 4 noBlock ++ leBytes 4 noBlock ++ leBytes 4 noBlock ++
    List.replicate 12 0 ++ List.replicate (buckets * 8) 0xff

/-- `Page::metadata` -/
def newMetaImage (layout : HeapLayout) (next : ℕ) : Image where
  block := 0
  kind := .info
  len := metaLegacyBytes
  initializes := false
  bytes := newMetaBytes layout next ++ List.replicate (capacity - metaLegacyBytes) 0
  size := by
    simp only [newMetaBytes, List.length_append, Reader.length_leBytes, List.length_replicate]
    rfl
  fits := by decide

/-- A state whose active snapshot follows an owner of page 0. -/
def lostOwnerState : GroupArrays :=
  { GroupArrays.default with
    active := some ⟨2, noBlock, noBlock, noBlock, some ⟨0, 0, 1⟩, none, false⟩ }

set_option maxRecDepth 10000 in
/-- The state is valid and its identifier was drawn, but it is refused. -/
theorem Image.setGroupedState_lostOwner :
    lostOwnerState.validate = .ok ⟨⟩ ∧ lostOwnerState.IdsBelow 3 ∧
    (newMetaImage ⟨8, by decide, by decide⟩ 3).kind = .info ∧
    (newMetaImage ⟨8, by decide, by decide⟩ 3).u64 32 = .ok 3 ∧
    (Image.setGroupedState lostOwnerState (newMetaImage ⟨8, by decide, by decide⟩ 3)).1 ≠
      .ok ⟨⟩ := by
  refine ⟨rfl, by decide, rfl, by decide +kernel, by decide +kernel⟩

/-- A state with an active snapshot only. -/
def shortState : GroupArrays :=
  { GroupArrays.default with
    active := some ⟨2, noBlock, noBlock, noBlock, some ⟨5, 0, 1⟩, none, false⟩ }

/-- The same state with a delta, which needs the longer layout. -/
def longState : GroupArrays :=
  { shortState with
    deltas := .cons (some ⟨⟨4, noBlock, noBlock, noBlock, some ⟨5, 1, 3⟩, none, false⟩,
      some ⟨5, 0, 1⟩, 0⟩) (.replicate 15 none) }

theorem shortState_inRange : shortState.InRange := by
  refine ⟨?_, nofun, fun d hd => ?_, fun r hr => ?_⟩
  · rintro _ ⟨⟩
    refine ⟨by decide, by decide, by decide, by decide, nofun, ?_⟩
    rintro _ ⟨⟩
    decide
  · cases hd
  · cases hr

theorem longState_inRange : longState.InRange := by
  refine ⟨shortState_inRange.active, nofun, fun d hd => ?_, fun r hr => ?_⟩
  · obtain rfl := List.mem_singleton.1 (show d ∈ [_] from hd)
    refine ⟨⟨by decide, by decide, by decide, by decide, nofun, ?_⟩, ?_, by decide⟩ <;>
    · rintro _ ⟨⟩
      decide
  · cases hr

theorem longState_ownersValid : longState.OwnersValid := by
  refine ⟨?_, fun d hd => ?_⟩
  · rintro _ ⟨⟩ _ ⟨⟩
    decide
  · obtain rfl := List.mem_singleton.1 (show d ∈ [_] from hd)
    exact ⟨by rintro _ ⟨⟩; decide, by rintro _ ⟨⟩; decide⟩

set_option maxRecDepth 10000 in
/-- The longer layout after both layouts were written. -/
theorem Image.setGroupedState_exact_long :
    (Image.setGroupedState longState
      (setAll [longState, shortState] (newMetaImage ⟨8, by decide, by decide⟩ 5))).2.groupedState =
        .ok longState := by
  have hearlier : ∀ e ∈ [longState, shortState], e.InRange := by
    simp only [List.forall_mem_cons]
    exact ⟨longState_inRange, shortState_inRange, nofun⟩
  have hexact := @Image.setGroupedState_exact (newMetaImage ⟨8, by decide, by decide⟩ 5) 5 _ _ rfl
    (by decide +kernel) hearlier longState_inRange
  exact (hexact.2.2.2 (hexact.2.1.2 ⟨rfl, by decide, longState_ownersValid⟩)).1

end PinCore
