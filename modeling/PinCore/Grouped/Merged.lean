import PinCore.Grouped.Merge

/-!
# The merged group

A plan exists unless the identities do not fit or two live owners share a coordinate.  Its members
and its liveness then open as a group of exactly the live owners of the sources, and its postings
answer every program with the union of the answers of the sources (`merge_exact`).
-/

namespace PinCore

namespace Grouped

/-- The identities of the sources fit a merge. -/
structure Mergeable (key : GroupKey) (sources : List SegmentGroup) : Prop where
  same : ∀ s ∈ sources, s.key.base = key.base ∧ s.key.relation = key.relation ∧
    s.key.maxOffset = key.maxOffset
  fresh : ∀ s ∈ sources, s.key.segment ≠ key.segment
  distinct : (sources.map SegmentGroup.key).Nodup

/-- The bit of a term of the `i`-th source at a coordinate; a source without the term has none. -/
def termAt (terms : List (Option Bitmap)) (i : ℕ) (root : RootTid) : Bool :=
  terms[i]?.join.any fun b => b.has root

/-- The posting of one term in every source that has it. -/
structure TermOf (sources : List SegmentGroup) (terms : List (Option Bitmap)) : Prop where
  length : terms.length = sources.length
  posting : ∀ (i : ℕ) (s : SegmentGroup) (b : Bitmap), sources[i]? = some s →
    terms[i]? = some (some b) → PostingOf s b

/-- The owners that a program matches in a segment. -/
def Matches (s : SegmentGroup) (terms : List Bitmap) (program : List Node) (x : Member) : Prop :=
  s.members.find x.root = .ok (some x) ∧ ∀ scratch, ∃ out stats scratch',
    evaluate s terms program scratch = .ok (out, stats, scratch') ∧ x.root ∈ emittedRoots out

/-! ### Plans -/

section

variable {key : GroupKey} {sources prior rest : List SegmentGroup} {s : SegmentGroup}

theorem not_foreign : ¬ Foreign key prior s ↔ (s.key.base = key.base ∧
    s.key.relation = key.relation ∧ s.key.maxOffset = key.maxOffset) ∧
      s.key.segment ≠ key.segment ∧ ∀ p ∈ prior, p.key ≠ s.key := by
  simp only [Foreign, not_or, not_exists, not_and, ne_eq, not_not, and_assoc]

theorem checkSources_ok : checkSources key prior rest = .ok () ↔
    (∀ s ∈ rest, s.key.base = key.base ∧ s.key.relation = key.relation ∧
      s.key.maxOffset = key.maxOffset) ∧ (∀ s ∈ rest, s.key.segment ≠ key.segment) ∧
        (∀ s ∈ rest, ∀ p ∈ prior, p.key ≠ s.key) ∧ (rest.map SegmentGroup.key).Nodup := by
  induction rest generalizing prior with
  | nil => simp [checkSources]
  | cons s rest ih =>
    rw [checkSources, List.map_cons, List.nodup_cons]
    by_cases h : Foreign key prior s
    · rw [if_pos h]
      refine iff_of_false nofun fun ⟨hsame, hfresh, hprior, _⟩ => not_foreign.2 ?_ h
      exact ⟨hsame s List.mem_cons_self, hfresh s List.mem_cons_self, hprior s List.mem_cons_self⟩
    · rw [if_neg h, ih]
      obtain ⟨hsame, hfresh, hprior⟩ := not_foreign.1 h
      simp only [List.forall_mem_cons, List.mem_append, List.mem_map, List.mem_singleton,
        not_exists, not_and]
      constructor
      · rintro ⟨h₁, h₂, h₃, h₄⟩
        exact ⟨⟨hsame, h₁⟩, ⟨hfresh, h₂⟩, ⟨hprior, fun s' hs' p hp => h₃ s' hs' p (.inl hp)⟩,
          fun s' hs' heq => h₃ s' hs' s (.inr rfl) heq.symm, h₄⟩
      · rintro ⟨⟨-, h₁⟩, ⟨-, h₂⟩, ⟨-, h₃⟩, h₄, h₅⟩
        refine ⟨h₁, h₂, fun s' hs' p hp => ?_, h₅⟩
        rcases hp with hp | rfl
        · exact h₃ s' hs' p hp
        · exact fun heq => h₄ s' hs' heq.symm

theorem checkSources_error (h : checkSources key prior rest ≠ .ok ()) :
    checkSources key prior rest = .error .invalidState := by
  induction rest generalizing prior with
  | nil => exact absurd rfl h
  | cons s rest ih =>
    rw [checkSources] at h ⊢
    split_ifs at h ⊢ with hforeign
    · rfl
    · exact ih h

theorem mergeable_iff : checkSources key [] sources = .ok () ↔ Mergeable key sources := by
  rw [checkSources_ok]
  exact ⟨fun ⟨h₁, h₂, _, h₄⟩ => ⟨h₁, h₂, h₄⟩, fun ⟨h₁, h₂, h₄⟩ => ⟨h₁, h₂, fun _ _ _ => nofun, h₄⟩⟩

/-- The count and the pages of the visited members. -/
theorem foldlM_count (out : List Member) (count mask : ℕ) :
    out.foldlM (fun (s : ℕ × ℕ) member =>
        (.ok (s.1 + 1, insertPage s.2 (pageOf member.root.block)) : Except Error (ℕ × ℕ)))
      (count, mask) = .ok (count + out.length, summary mask out) := by
  induction out generalizing count mask with
  | nil => rfl
  | cons x out ih =>
    rw [List.foldlM_cons, ok_bind, ih, List.length_cons, Nat.add_assoc, Nat.add_comm 1]
    rfl

/-- A plan of what is visited. -/
theorem new_ok {out : List Member} (hlen : sources.length ≤ maxMergeSources)
    (hm : Mergeable key sources)
    (hrun : ∀ {β : Type} (emit : β → Member → Except Error β) (b : β),
      visit sources emit b = out.foldlM emit b) :
    MergePlan.new key sources = .ok ⟨key, sources, summary 0 out, out.length⟩ := by
  rw [MergePlan.new, if_neg (Nat.not_lt.2 hlen), mergeable_iff.2 hm, ok_bind, hrun, foldlM_count,
    ok_bind, Nat.zero_add]

theorem new_conflict (hopen : ∀ s ∈ sources, ∃ ms, s.HoldsMembers ms)
    (h : Conflict sources) : ∃ e, MergePlan.new key sources = .error e := by
  unfold MergePlan.new
  split_ifs
  · exact ⟨_, rfl⟩
  · cases checkSources key [] sources with
    | error e => exact ⟨e, rfl⟩
    | ok u =>
      rw [ok_bind, visit_error hopen h fun b a => ⟨_, rfl⟩]
      exact ⟨_, rfl⟩

theorem new_foreign (h : ¬ Mergeable key sources) :
    ∃ e, MergePlan.new key sources = .error e := by
  unfold MergePlan.new
  split_ifs
  · exact ⟨_, rfl⟩
  · rw [checkSources_error (mergeable_iff.not.2 h)]
    exact ⟨_, rfl⟩

end

/-! ### Unions of masks -/

/-- A loop that adds a mask at every step. -/
theorem foldlM_union {α : Type} {f : ℕ → α → Except Error ℕ} {g : α → ℕ} {l : List α}
    (h : ∀ x ∈ l, ∀ v, f v x = .ok (v ||| g x)) (v : ℕ) :
    ∃ r, l.foldlM f v = .ok r ∧ ∀ bit, r.testBit bit = true ↔
      v.testBit bit = true ∨ ∃ x ∈ l, (g x).testBit bit = true := by
  induction l generalizing v with
  | nil => exact ⟨v, rfl, fun bit => by simp⟩
  | cons x l ih =>
    obtain ⟨r, hr, hbits⟩ := ih (fun x hx => h x (List.mem_cons_of_mem _ hx)) (v ||| g x)
    refine ⟨r, ?_, fun bit => ?_⟩
    · rw [List.foldlM_cons, h x List.mem_cons_self, ok_bind, hr]
    · rw [hbits, Nat.testBit_or, Bool.or_eq_true, or_assoc, List.exists_mem_cons_iff]

/-! ### Members and liveness -/

/-- What is visited for a merge. -/
structure Visits (key : GroupKey) (sources : List SegmentGroup) (out : List Member) : Prop where
  valid : key.Valid
  opened : ∀ s ∈ sources, ∃ ms, s.HoldsMembers ms
  mergeable : Mergeable key sources
  ascending : mergeInputs.Ascending out
  mem : ∀ x, x ∈ out ↔ ∃ s ∈ sources, s.Owns x
  run : ∀ {β : Type} (emit : β → Member → Except Error β) (b : β),
    visit sources emit b = out.foldlM emit b

/-- The merged group. -/
def mergedGroup (key : GroupKey) (out : List Member) : SegmentGroup :=
  ⟨imageMembers key out, (imageMembers key out).liveness (imageMembers key out).all⟩

/-- The plan of what is visited. -/
def planOf (key : GroupKey) (sources : List SegmentGroup) (out : List Member) : MergePlan :=
  ⟨key, sources, summary 0 out, out.length⟩

section

variable {key : GroupKey} {sources : List SegmentGroup} {out : List Member} {s : SegmentGroup}
  {x : Member} {output : List UInt8} {page bit : ℕ} {root : RootTid}

theorem Visits.of (h : Visits key sources out) (hx : x ∈ out) : x.Of key := by
  obtain ⟨s, hs, hx⟩ := (h.mem x).1 hx
  obtain ⟨ms, hms⟩ := h.opened s hs
  obtain ⟨⟨hgroup, hblock, hoffset⟩, hinc⟩ := hms.holds.of x (hms.owns_iff.1 hx).1
  obtain ⟨hbase, -, hmax⟩ := h.mergeable.same s hs
  exact ⟨⟨hgroup.trans hbase, hblock, hoffset.1, hmax ▸ hoffset.2⟩, hinc⟩

theorem Visits.sorted (h : Visits key sources out) : Ascending out := by
  refine h.ascending.imp_of_mem fun {x y} hx hy hxy => ?_
  have hmax := h.valid.maxOffset.2
  have hx' := (h.of hx).root.offset.2
  have hy' := (h.of hy).root.offset.2
  exact (memberKey_lt (by omega) (by omega)).1 hxy

/-- The written record opens with the visited members. -/
theorem Visits.members (h : Visits key sources out) :
    Members.openRecord (membersImage key out) = .ok (imageMembers key out) ∧
      (imageMembers key out).Holds out :=
  openRecord_membersImage h.valid h.sorted fun _ hx => h.of hx

theorem emitted_bind (x y : Writer.Emit) (w : Writer) :
    (MergePlan.emitted x w >>= fun w => MergePlan.emitted y w) =
      MergePlan.emitted (x >>= fun _ => y) w := by
  unfold MergePlan.emitted
  rcases hx : x w with ⟨e | u, w'⟩
  · rw [Read.error_bind hx]
    rfl
  · rw [Read.ok_bind hx]
    rfl

/-- The visit writes the members in order. -/
theorem foldlM_emitted (out : List Member) (w : Writer) :
    out.foldlM (fun w member => MergePlan.emitted (writeMember member) w) w =
      MergePlan.emitted (writeMembers out) w := by
  induction out generalizing w with
  | nil => rfl
  | cons x out ih =>
    rw [List.foldlM_cons]
    simp only [ih]
    exact emitted_bind _ _ _

/-- The members are written if there is room for them. -/
theorem Visits.encodeMembers (h : Visits key sources out)
    (hroom : 72 + out.length * 16 ≤ output.length) :
    (planOf key sources out).encodeMembers output = .ok (72 + out.length * 16,
      membersImage key out ++ output.drop (72 + out.length * 16)) := by
  have hlength := h.sorted.length_le h.valid fun x hx => h.of hx
  have hmax := h.valid.maxOffset.2
  have hwrites : Writer.Writes (do
      Header.write (membersHeader key out) (72 + out.length * 16)
      writeMembers out) (membersImage key out) :=
    (Header.write_writes (by rw [u32Limit]; omega)).bind writeMembers_writes
  have hrun := hwrites (Writer.new (72 + out.length * 16))
    (by change 0 + (72 + out.length * 16) < usizeLimit; rw [usizeLimit]; omega)
    (by rw [length_membersImage]; exact Nat.le_refl _)
  have hemitted : MergePlan.emitted (do
      Header.write (membersHeader key out) (72 + out.length * 16)
      writeMembers out) (Writer.new (72 + out.length * 16)) =
        .ok ⟨membersImage key out, 0⟩ := by
    rw [MergePlan.emitted, hrun, Writer.new, length_membersImage, Nat.sub_self, List.nil_append]
  rw [← emitted_bind] at hemitted
  obtain ⟨w, hw, hmembers⟩ := ok_of_bind hemitted
  change (if output.length < 72 + out.length * 16 then _ else
    (MergePlan.emitted (Header.write (membersHeader key out) (72 + out.length * 16))
      (Writer.new (72 + out.length * 16)) >>= fun w =>
        visit sources (fun w member => MergePlan.emitted (writeMember member) w) w >>= fun w =>
          .ok (72 + out.length * 16, w.written ++ output.drop w.written.length))) = _
  rw [if_neg (Nat.not_lt.2 hroom), hw, ok_bind, h.run, foldlM_emitted, hmembers, ok_bind,
    length_membersImage]

/-- A coordinate is live in the merge if it is in some source. -/
theorem Visits.live_iff (h : Visits key sources out) :
    (∃ x ∈ out, x.root = root) ↔ ∃ s ∈ sources, s.live.has root = true := by
  constructor
  · rintro ⟨x, hx, rfl⟩
    obtain ⟨s, hs, hx⟩ := (h.mem x).1 hx
    exact ⟨s, hs, hx.live⟩
  · rintro ⟨s, hs, hlive⟩
    obtain ⟨ms, hms⟩ := h.opened s hs
    obtain ⟨x, hx, rfl⟩ := hms.owned hlive
    exact ⟨x, (h.mem x).2 ⟨s, hs, hms.owns_iff.2 ⟨hx, hlive⟩⟩, rfl⟩

/-- The bit of a source on a page. -/
theorem Visits.testBit_offsets (h : Visits key sources out) (hs : s ∈ sources) (hp : page < 256) :
    ∃ mask, s.live.offsets page = .ok mask ∧
      ∀ bit, mask.testBit bit = s.live.has ⟨key.base + page, bit + 1⟩ := by
  obtain ⟨ms, hms⟩ := h.opened s hs
  obtain ⟨mask, hmask⟩ := hms.opened.decodes page
  refine ⟨mask, hmask, fun bit => ?_⟩
  have hcoord := @Bitmap.has_coordinate s.live page bit hp
  rw [hmask, hms.opened.key, (h.mergeable.same s hs).1] at hcoord
  exact hcoord.symm

/-- The union of the liveness of the sources is the membership of the merge. -/
theorem Visits.liveOffsets (h : Visits key sources out) (hp : page < 256)
    (hblock : key.base + page ≠ noBlock) :
    (planOf key sources out).liveOffsets page = .ok ((imageMembers key out).all page) := by
  have hstep : ∀ s ∈ sources, ∀ v, (do
      let live ← s.live.offsets page
      .ok (v ||| live) : Except Error ℕ) = .ok (v ||| (s.live.offsets page).toOption.getD 0) := by
    intro s hs v
    obtain ⟨mask, hmask, -⟩ := h.testBit_offsets hs hp
    rw [hmask]
    rfl
  obtain ⟨r, hr, hbits⟩ := foldlM_union hstep 0
  change List.foldlM _ 0 sources = _
  rw [hr]
  refine congrArg _ (Nat.eq_of_testBit_eq fun bit => Bool.eq_iff_iff.2 ?_)
  have hall := (h.members.2.pageOffsets_all hblock).2 bit
  rw [hbits, Nat.zero_testBit, hall]
  simp only [Bool.false_eq_true, false_or]
  refine Iff.trans ?_ h.live_iff.symm
  refine exists_congr fun s => and_congr_right fun hs => ?_
  obtain ⟨mask, hmask, hbit⟩ := h.testBit_offsets hs hp
  rw [hmask]
  change mask.testBit bit = true ↔ _
  rw [hbit]
  rfl

/-- The liveness of the merge is written if there is room for it. -/
theorem Visits.encodeLiveness (h : Visits key sources out)
    (hroom : maxBitmapBytes ≤ output.length) :
    (planOf key sources out).encodeLiveness output =
      (.ok ((imageMembers key out).liveness (imageMembers key out).all).bytes.length,
        ((imageMembers key out).liveness (imageMembers key out).all).bytes ++
          output.drop ((imageMembers key out).liveness
            (imageMembers key out).all).bytes.length) := by
  have hm := h.members.2
  have hlen : ((imageMembers key out).liveness (imageMembers key out).all).bytes.length =
      imageLen (summary 0 out) (widths (imageMembers key out).all) := length_bitmapImage
  have hf : ∀ page ∈ setBits (summary 0 out) 256,
      (planOf key sources out).liveOffsets page = .ok ((imageMembers key out).all page) ∧
        Encodable key (imageMembers key out).all page := by
    intro page hp
    have hblock : (imageMembers key out).key.base + page ≠ noBlock := hm.block hp
    exact ⟨h.liveOffsets (mem_setBits.1 hp).1 hblock, hm.encodable hp⟩
  have hle : imageLen (summary 0 out) (widths (imageMembers key out).all) ≤ maxBitmapBytes :=
    imageLen_le fun page hp => (hf page hp).2.width_le h.valid.maxOffset.2
  have henc := @encodeWith_eq key .liveness (imageMembers key out).all
    (planOf key sources out).liveOffsets (summary 0 out) output h.valid.maxOffset.2 hf
  rw [if_neg (by omega)] at henc
  rw [hlen]
  exact henc

/-- The records open as a group. -/
theorem Visits.openGroup (h : Visits key sources out) :
    SegmentGroup.openGroup (membersImage key out)
      (mergedGroup key out).live.bytes = .ok (mergedGroup key out) :=
  within_all.openGroup h.members.1 h.members.2

/-! ### Postings -/

/-- A term of a source has a bit there, and the coordinate is live in that source. -/
def PostedAt (sources : List SegmentGroup) (terms : List (Option Bitmap)) (root : RootTid) : Prop :=
  ∃ i s, sources[i]? = some s ∧ s.live.has root = true ∧ termAt terms i root = true

variable {terms : List (Option Bitmap)} {b : Bitmap} {i : ℕ}

theorem mem_zip_iff {x : SegmentGroup × Option Bitmap} : x ∈ sources.zip terms ↔
    ∃ i : ℕ, sources[i]? = some x.1 ∧ terms[i]? = some x.2 := by
  rw [List.mem_iff_getElem?]
  exact exists_congr fun i => List.getElem?_zip_eq_some

theorem termAt_iff : termAt terms i root = true ↔
    ∃ b, terms[i]? = some (some b) ∧ b.has root = true := by
  rw [termAt]
  rcases terms[i]? with _ | _ | b
  · simp
  · simp
  · simp

/-- The bit of a posting on a page. -/
theorem PostingOf.testBit_offsets (h : PostingOf s b) (hbase : s.key.base = key.base)
    (hp : page < 256) : ∃ mask, b.offsets page = .ok mask ∧
      ∀ bit, mask.testBit bit = b.has ⟨key.base + page, bit + 1⟩ := by
  obtain ⟨bytes, ho⟩ := h.opened
  obtain ⟨mask, hmask⟩ := Bitmap.validateAll_ok (Bitmap.openRecord_opened ho) h.valid page
  refine ⟨mask, hmask, fun bit => ?_⟩
  have hcoord := @Bitmap.has_coordinate b page bit hp
  rw [hmask, h.key, hbase] at hcoord
  exact hcoord.symm

/-- The merged offsets of a term are filtered by the liveness of each source. -/
theorem Visits.termOffsets (h : Visits key sources out) (ht : TermOf sources terms)
    (hp : page < 256) : ∃ v, (planOf key sources out).termOffsets terms page = .ok v ∧
      ∀ bit, v.testBit bit = true ↔ PostedAt sources terms ⟨key.base + page, bit + 1⟩ := by
  have hmasks : ∀ x ∈ sources.zip terms, ∀ term, x.2 = some term → ∃ offsets live,
      term.offsets page = .ok offsets ∧ x.1.live.offsets page = .ok live ∧
        ∀ bit, (offsets &&& live).testBit bit = true ↔
          x.1.live.has ⟨key.base + page, bit + 1⟩ = true ∧
            term.has ⟨key.base + page, bit + 1⟩ = true := by
    rintro ⟨s, t⟩ hx term rfl
    obtain ⟨i, hs, hterm⟩ := mem_zip_iff.1 hx
    have hs' := List.mem_of_getElem? hs
    obtain ⟨live, hlive, hbit⟩ := h.testBit_offsets hs' hp
    obtain ⟨offsets, hoffsets, hbit'⟩ :=
      (ht.posting i s term hs hterm).testBit_offsets (h.mergeable.same s hs').1 hp
    refine ⟨offsets, live, hoffsets, hlive, fun bit => ?_⟩
    rw [Nat.testBit_and, hbit, hbit', Bool.and_eq_true, and_comm]
  have hstep : ∀ x ∈ sources.zip terms, ∀ v, MergePlan.addOffsets page v x =
      .ok (v ||| (x.2.elim 0 fun term => (term.offsets page).toOption.getD 0 &&&
        (x.1.live.offsets page).toOption.getD 0)) := by
    rintro ⟨s, t⟩ hx v
    cases t with
    | none => exact congrArg _ (Nat.or_zero v).symm
    | some term =>
      obtain ⟨offsets, live, hoffsets, hlive, -⟩ := hmasks _ hx term rfl
      simp only [MergePlan.addOffsets, hoffsets, hlive, ok_bind, Option.elim_some]
      rfl
  obtain ⟨r, hr, hbits⟩ := foldlM_union hstep 0
  refine ⟨r, hr, fun bit => ?_⟩
  rw [hbits, Nat.zero_testBit]
  simp only [Bool.false_eq_true, false_or]
  constructor
  · rintro ⟨⟨s, t⟩, hx, hbit⟩
    cases t with
    | none =>
      rw [Option.elim_none, Nat.zero_testBit] at hbit
      cases hbit
    | some term =>
      obtain ⟨offsets, live, hoffsets, hlive, hand⟩ := hmasks _ hx term rfl
      simp only [Option.elim_some, hoffsets, hlive] at hbit
      obtain ⟨hlive, hterm⟩ := (hand bit).1 hbit
      obtain ⟨i, hs, hi⟩ := mem_zip_iff.1 hx
      exact ⟨i, s, hs, hlive, termAt_iff.2 ⟨term, hi, hterm⟩⟩
  · rintro ⟨i, s, hs, hlive, hterm⟩
    obtain ⟨term, hi, hterm⟩ := termAt_iff.1 hterm
    have hx : (s, some term) ∈ sources.zip terms := mem_zip_iff.2 ⟨i, hs, hi⟩
    obtain ⟨offsets, live, hoffsets, hlive', hand⟩ := hmasks _ hx term rfl
    refine ⟨_, hx, ?_⟩
    simp only [Option.elim_some, hoffsets, hlive']
    exact (hand bit).2 ⟨hlive, hterm⟩

/-- The merged offsets of a term on a page. -/
def MergePlan.posted (plan : MergePlan) (terms : List (Option Bitmap)) (page : ℕ) : ℕ :=
  (plan.termOffsets terms page).toOption.getD 0

theorem Visits.posted (h : Visits key sources out) (ht : TermOf sources terms) (hp : page < 256) :
    (planOf key sources out).termOffsets terms page =
        .ok ((planOf key sources out).posted terms page) ∧
      ∀ bit, ((planOf key sources out).posted terms page).testBit bit = true ↔
        PostedAt sources terms ⟨key.base + page, bit + 1⟩ := by
  obtain ⟨v, hv, hbits⟩ := h.termOffsets ht hp
  have hposted : (planOf key sources out).posted terms page = v := by
    rw [MergePlan.posted, hv]
    rfl
  rw [hposted]
  exact ⟨hv, hbits⟩

/-- A posted coordinate is that of a visited member. -/
theorem Visits.posted_owner (h : Visits key sources out) (hp : PostedAt sources terms root) :
    ∃ x ∈ out, x.root = root := by
  obtain ⟨i, s, hs, hlive, -⟩ := hp
  exact h.live_iff.2 ⟨s, List.mem_of_getElem? hs, hlive⟩

/-- The pages with a live match. -/
theorem Visits.postingMask (h : Visits key sources out) (ht : TermOf sources terms) :
    ∃ mask, (planOf key sources out).postingMask terms = .ok mask ∧ mask < 2 ^ 256 ∧
      ∀ page, mask.testBit page = true ↔
        page < 256 ∧ (planOf key sources out).posted terms page ≠ 0 := by
  have hstep : ∀ x ∈ sources.zip terms, ∀ v, MergePlan.addPages v x =
      .ok (v ||| (x.2.map Bitmap.mask).getD 0) := by
    rintro ⟨s, t⟩ hx v
    cases t with
    | none => exact congrArg _ (Nat.or_zero v).symm
    | some term =>
      obtain ⟨i, hs, hterm⟩ := mem_zip_iff.1 hx
      have hposting := ht.posting i s term hs hterm
      have hsame : term.key = s.key ∧ term.kind = .posting := ⟨hposting.key, hposting.kind⟩
      rw [MergePlan.addPages, require_of hsame, ok_bind, hposting.valid, ok_bind]
      rfl
  obtain ⟨pages, hpages, hpagesBits⟩ := foldlM_union hstep 0
  have hpage : ∀ page ∈ pagesOf pages, ∀ v, (do
      let offsets ← (planOf key sources out).termOffsets terms page
      .ok (if offsets ≠ 0 then insertPage v page else v) : Except Error ℕ) = .ok (v |||
        if (planOf key sources out).posted terms page ≠ 0 then 2 ^ page else 0) := by
    intro page hp v
    rw [pagesOf_eq] at hp
    rw [(h.posted ht (mem_setBits.1 hp).1).1, ok_bind]
    split_ifs with h0
    · rfl
    · rw [Nat.or_zero]
  obtain ⟨mask, hmask, hmaskBits⟩ := foldlM_union hpage 0
  have hbits : ∀ page, mask.testBit page = true ↔
      page < 256 ∧ (planOf key sources out).posted terms page ≠ 0 := by
    intro page
    rw [hmaskBits, Nat.zero_testBit, pagesOf_eq]
    simp only [Bool.false_eq_true, false_or]
    constructor
    · rintro ⟨p, hp, hbit⟩
      split_ifs at hbit with h0
      · rw [Nat.testBit_two_pow, decide_eq_true_iff] at hbit
        subst hbit
        exact ⟨(mem_setBits.1 hp).1, h0⟩
      · rw [Nat.zero_testBit] at hbit
        cases hbit
    · rintro ⟨hlt, h0⟩
      refine ⟨page, mem_setBits.2 ⟨hlt, ?_⟩, ?_⟩
      · obtain ⟨bit, hbit⟩ := Nat.exists_testBit_of_ne_zero h0
        obtain ⟨i, s, hs, -, hterm⟩ := ((h.posted ht hlt).2 bit).1 hbit
        obtain ⟨term, hi, hterm⟩ := termAt_iff.1 hterm
        have hx : (s, some term) ∈ sources.zip terms := mem_zip_iff.2 ⟨i, hs, hi⟩
        have hs' := List.mem_of_getElem? hs
        obtain ⟨offsets, hoffsets, hbit'⟩ :=
          (ht.posting i s term hs hi).testBit_offsets (h.mergeable.same s hs').1 hlt
        refine (hpagesBits page).2 (.inr ⟨_, hx, ?_⟩)
        have hset : offsets.testBit bit = true := (hbit' bit).trans hterm
        rw [← Bitmap.and_testBit hoffsets, Bool.and_eq_true] at hset
        exact hset.1
      · rw [if_pos h0, Nat.testBit_two_pow_self]
  refine ⟨mask, ?_, lt_two_pow_of_bits fun page hp => ((hbits page).1 hp).1, hbits⟩
  have hlength : terms.length = (planOf key sources out).sources.length := ht.length
  have hzip : ((planOf key sources out).sources.zip terms).foldlM MergePlan.addPages 0 =
      .ok pages := hpages
  rw [MergePlan.postingMask, require_of hlength, ok_bind, hzip, ok_bind, hmask]

/-- The pages of a merged posting have heap blocks and offsets of the layout. -/
theorem Visits.posted_encodable (h : Visits key sources out) (ht : TermOf sources terms)
    (hp : page < 256) (h0 : (planOf key sources out).posted terms page ≠ 0) :
    Encodable key ((planOf key sources out).posted terms) page := by
  have hbits := (h.posted ht hp).2
  refine ⟨?_, h0, lt_two_pow_of_bits fun bit hbit => ?_⟩
  · obtain ⟨bit, hbit⟩ := Nat.exists_testBit_of_ne_zero h0
    obtain ⟨x, hx, hroot⟩ := h.posted_owner ((hbits bit).1 hbit)
    have hblock := (h.of hx).root.block
    rw [hroot] at hblock
    exact Nat.ne_of_lt hblock
  · obtain ⟨x, hx, hroot⟩ := h.posted_owner ((hbits bit).1 hbit)
    have hoffset := (h.of hx).root.offset.2
    rw [hroot] at hoffset
    exact hoffset

/-- The posting of a term is written if there is room for it, opens, and has the bits of the live
owners of the sources. -/
theorem Visits.encodePosting (h : Visits key sources out) (ht : TermOf sources terms) :
    ∃ b, (∀ output, maxBitmapBytes ≤ output.length → ∃ rest,
        (planOf key sources out).encodePosting terms output =
          (.ok b.bytes.length, b.bytes ++ rest)) ∧
      Bitmap.openRecord b.bytes = .ok b ∧ b.key = key ∧ b.kind = .posting ∧
      b.validateAll = .ok () ∧ ∀ root, b.has root = true ↔ PostedAt sources terms root := by
  obtain ⟨mask, hmask, hlt, hpages⟩ := h.postingMask ht
  have hf : ∀ page ∈ setBits mask 256, (planOf key sources out).termOffsets terms page =
      .ok ((planOf key sources out).posted terms page) ∧
        Encodable key ((planOf key sources out).posted terms) page := by
    intro page hp
    obtain ⟨hlt, hbit⟩ := mem_setBits.1 hp
    exact ⟨(h.posted ht hlt).1, h.posted_encodable ht hlt ((hpages page).1 hbit).2⟩
  have hlaid : ∀ page ∈ setBits mask 256, Laid key .posting
      (widths ((planOf key sources out).posted terms)) ((planOf key sources out).posted terms)
      page := fun page hp => (hf page hp).2.laid
  have hle : imageLen mask (widths ((planOf key sources out).posted terms)) ≤ maxBitmapBytes :=
    imageLen_le fun page hp => (hf page hp).2.width_le h.valid.maxOffset.2
  have hoffsets := fun page => @offsets_image key .posting
    (widths ((planOf key sources out).posted terms)) ((planOf key sources out).posted terms) mask
    page h.valid hlt hlaid
  refine ⟨imageBitmap key .posting mask (widths ((planOf key sources out).posted terms))
    ((planOf key sources out).posted terms), fun output hroom => ?_,
    openRecord_image h.valid hlt fun page hp => (hlaid page hp).toPacked, rfl, rfl, ?_,
    fun root => ?_⟩
  · have henc := @encodeWith_eq key .posting ((planOf key sources out).posted terms)
      ((planOf key sources out).termOffsets terms) mask output h.valid.maxOffset.2 hf
    rw [if_neg (by omega)] at henc
    have hlen : (imageBitmap key .posting mask (widths ((planOf key sources out).posted terms))
        ((planOf key sources out).posted terms)).bytes.length =
          imageLen mask (widths ((planOf key sources out).posted terms)) := length_bitmapImage
    refine ⟨output.drop (imageLen mask (widths ((planOf key sources out).posted terms))), ?_⟩
    rw [MergePlan.encodePosting, hmask, hlen]
    exact henc
  · refine forM_of fun page _ => ?_
    rw [hoffsets page]
    rfl
  · have hcoord : ∀ page bit, page < 256 → ((imageBitmap key .posting mask
        (widths ((planOf key sources out).posted terms))
          ((planOf key sources out).posted terms)).has
          ⟨key.base + page, bit + 1⟩ = true ↔
            PostedAt sources terms ⟨key.base + page, bit + 1⟩) := by
      intro page bit hp
      have hh := @Bitmap.has_coordinate (imageBitmap key .posting mask
        (widths ((planOf key sources out).posted terms)) ((planOf key sources out).posted terms))
        page bit hp
      rw [hoffsets page] at hh
      refine (Bool.eq_iff_iff.1 hh).trans ?_
      rw [← (h.posted ht hp).2 bit]
      split_ifs with hbit
      · exact Iff.rfl
      · have h0 := fun h0 => hbit ((hpages page).2 ⟨hp, h0⟩)
        rw [not_not.1 h0]
    constructor
    · intro hroot
      obtain ⟨page, bit, hp, heq⟩ := Bitmap.has_coordinates hroot
      change root = ⟨key.base + page, bit + 1⟩ at heq
      rw [heq] at hroot ⊢
      exact (hcoord page bit hp).1 hroot
    · intro hposted
      obtain ⟨x, hx, rfl⟩ := h.posted_owner hposted
      have hof := (h.of hx).root
      have hroot : x.root = ⟨key.base + pageOf x.root.block, x.root.offset - 1 + 1⟩ := by
        rw [← hof.block_eq, Nat.sub_add_cancel hof.offset.1]
      rw [hroot] at hposted ⊢
      exact (hcoord _ _ (Nat.mod_lt _ (by decide))).2 hposted

end

/-! ### Answers -/

section

variable {α β γ : Type} {R : α → β → Prop} {Q : α → γ → Prop} {P : β → γ → Prop} {l : List α}
  {bs : List β} {cs : List γ}

theorem forall₂_right {T : β → Prop} (h : List.Forall₂ R l bs) (ht : ∀ a b, R a b → T b) :
    ∀ b ∈ bs, T b := by
  induction h with
  | nil => exact fun b hb => absurd hb List.not_mem_nil
  | cons hb _ ih => exact List.forall_mem_cons.2 ⟨ht _ _ hb, ih⟩

/-- Two lists that match a third match each other. -/
theorem forall₂_common (h : List.Forall₂ R l bs) (h' : List.Forall₂ Q l cs)
    (hp : ∀ a ∈ l, ∀ b c, R a b → Q a c → P b c) : List.Forall₂ P bs cs := by
  induction h generalizing cs with
  | nil =>
    cases h'
    exact .nil
  | cons hb _ ih =>
    cases h' with
    | cons hc h' =>
      exact .cons (hp _ List.mem_cons_self _ _ hb hc)
        (ih h' fun a ha => hp a (List.mem_cons_of_mem _ ha))

end

/-- Sources that share a live coordinate agree on its terms. -/
def Agree (sources : List SegmentGroup) (postings : List (List (Option Bitmap))) : Prop :=
  ∀ (i j : ℕ) (s s' : SegmentGroup) (root : RootTid), sources[i]? = some s → sources[j]? = some s' →
    s.live.has root = true → s'.live.has root = true →
      ∀ terms ∈ postings, termAt terms i root = termAt terms j root

/-- The bitmaps with which each source is queried; one without the term has an empty posting. -/
def Queried (sources : List SegmentGroup) (postings : List (List (Option Bitmap)))
    (queries : ℕ → List Bitmap) : Prop :=
  ∀ (i : ℕ) (s : SegmentGroup), sources[i]? = some s → List.Forall₂ (fun terms b =>
    PostingOf s b ∧ ∀ root, b.has root = termAt terms i root) postings (queries i)

section

variable {key : GroupKey} {sources : List SegmentGroup} {out : List Member} {s : SegmentGroup}
  {x : Member} {root : RootTid} {program : List Node} {terms : List Bitmap}
  {postings : List (List (Option Bitmap))} {merges : List Bitmap} {members live : List UInt8}

theorem matches_iff (hs : SegmentGroup.openGroup members live = .ok s)
    (ht : ∀ b ∈ terms, PostingOf s b) (hprog : validateProgram terms.length program = .ok ()) :
    Matches s terms program x ↔ s.Owns x ∧ valueAt s terms program x.root = true := by
  constructor
  · rintro ⟨hfind, hmatch⟩
    obtain ⟨out, stats, scratch', heval, hmem⟩ := hmatch ⟨fun _ => 0, fun _ => 0⟩
    obtain ⟨out', stats', scratch'', heval', -, -, hroots, -⟩ := evaluate_exact hs ht hprog
      ⟨fun _ => 0, fun _ => 0⟩
    cases heval.symm.trans heval'
    exact ⟨⟨hfind, ((hroots _).1 hmem).1⟩, ((hroots _).1 hmem).2⟩
  · rintro ⟨⟨hfind, hlive⟩, hvalue⟩
    refine ⟨hfind, fun scratch => ?_⟩
    obtain ⟨out, stats, scratch', heval, -, -, hroots, -⟩ := evaluate_exact hs ht hprog scratch
    exact ⟨out, stats, scratch', heval, (hroots _).2 ⟨hlive, hvalue⟩⟩

/-- A program has one value where the liveness and the terms are the same. -/
theorem valueAt_congr {s' : SegmentGroup} {terms' : List Bitmap}
    (hlive : s.live.has root = s'.live.has root)
    (ht : List.Forall₂ (fun b b' : Bitmap => b.has root = b'.has root) terms terms') :
    valueAt s terms program root = valueAt s' terms' program root := by
  have hterms : (fun t : ℕ => terms[t]?.any fun b => b.has root) =
      fun t : ℕ => terms'[t]?.any fun b => b.has root := by
    funext t
    induction ht generalizing t with
    | nil => rfl
    | cons hb _ ih =>
      cases t with
      | zero => exact hb
      | succ t => exact ih t
  rw [valueAt, valueAt, hlive, hterms]

theorem Queried.posting {queries : ℕ → List Bitmap} (h : Queried sources postings queries) {i : ℕ}
    (hi : sources[i]? = some s) : ∀ b ∈ queries i, PostingOf s b :=
  forall₂_right (h i s hi) fun _ _ hb => hb.1

theorem Visits.has_iff (h : Visits key sources out) :
    (mergedGroup key out).live.has root = true ↔ ∃ s ∈ sources, s.live.has root = true := by
  have hhas := @Within.has_iff (imageMembers key out) out _ root h.members.2 within_all
  rw [liveRoots_all h.members.2, List.mem_map] at hhas
  exact hhas.trans h.live_iff

theorem Visits.find_iff (h : Visits key sources out) :
    (mergedGroup key out).members.find x.root = .ok (some x) ↔ ∃ s ∈ sources, s.Owns x := by
  obtain ⟨o, ho, hfind⟩ := h.members.2.find_ok x.root
  rw [← h.mem]
  constructor
  · intro hx
    cases ho.symm.trans hx
    exact ((hfind x).1 rfl).1
  · intro hx
    exact ho.trans (congrArg _ ((hfind x).2 ⟨hx, rfl⟩))

/-- The merged postings answer with the union of the answers of the sources. -/
theorem Visits.answers (h : Visits key sources out)
    (hopen : ∀ s ∈ sources, ∃ members live, SegmentGroup.openGroup members live = .ok s)
    (hagree : Agree sources postings) (hmerges : List.Forall₂ (fun terms b =>
      PostingOf (mergedGroup key out) b ∧
        ∀ root, b.has root = true ↔ PostedAt sources terms root) postings merges)
    {queries : ℕ → List Bitmap} (hqueries : Queried sources postings queries)
    (hprog : validateProgram postings.length program = .ok ()) :
    Matches (mergedGroup key out) merges program x ↔
      ∃ i s, sources[i]? = some s ∧ Matches s (queries i) program x := by
  have hmerged : ∀ b ∈ merges, PostingOf (mergedGroup key out) b :=
    forall₂_right hmerges fun _ _ hb => hb.1
  -- at a live coordinate of a source the merged terms are those of the source
  have hvalue : ∀ i s, sources[i]? = some s → s.live.has x.root = true →
      valueAt (mergedGroup key out) merges program x.root =
        valueAt s (queries i) program x.root := by
    intro i s hs hlive
    have hs' := List.mem_of_getElem? hs
    refine valueAt_congr ?_ (forall₂_common hmerges
      (hqueries i s hs) fun terms hterms b b' hb hb' =>
      ?_)
    · rw [hlive, h.has_iff]
      exact ⟨s, hs', hlive⟩
    · rw [hb'.2, Bool.eq_iff_iff, hb.2]
      constructor
      · rintro ⟨j, s', hj, hlive', hterm⟩
        rwa [hagree i j s s' x.root hs hj hlive hlive' terms hterms]
      · exact fun hterm => ⟨i, s, hs, hlive, hterm⟩
  have hlength := hmerges.length_eq
  rw [matches_iff h.openGroup hmerged (hlength ▸ hprog)]
  constructor
  · rintro ⟨⟨hfind, hlive⟩, hx⟩
    obtain ⟨s, hs, hown⟩ := h.find_iff.1 hfind
    obtain ⟨i, hi⟩ := List.mem_iff_getElem?.1 hs
    obtain ⟨ms, lv, hgroup⟩ := hopen s hs
    have hlength' := (hqueries i s hi).length_eq
    refine ⟨i, s, hi, (matches_iff hgroup (hqueries.posting hi)
      (hlength' ▸ hprog)).2 ⟨hown, ?_⟩⟩
    rw [← hvalue i s hi hown.live]
    exact hx
  · rintro ⟨i, s, hi, hx⟩
    have hs := List.mem_of_getElem? hi
    obtain ⟨ms, lv, hgroup⟩ := hopen s hs
    have hlength' := (hqueries i s hi).length_eq
    obtain ⟨hown, hx⟩ := (matches_iff hgroup (hqueries.posting hi)
      (hlength' ▸ hprog)).1 hx
    refine ⟨⟨h.find_iff.2 ⟨s, hs, hown⟩, h.has_iff.2 ⟨s, hs, hown.live⟩⟩, ?_⟩
    rw [hvalue i s hi hown.live]
    exact hx

/-- A merge of at most 16 opened groups is planned unless the identities do not fit or two live
owners share a coordinate.  The encoded members and liveness then open as the group of exactly the
live owners of the sources.  Where sources that share a live coordinate agree on its terms, every
valid program over the encoded postings matches the union of what it matches in the sources. -/
theorem merge_exact (hkey : key.Valid) (hlen : sources.length ≤ maxMergeSources)
    (hopen : ∀ s ∈ sources, ∃ members live, SegmentGroup.openGroup members live = .ok s) :
    ((∃ e, MergePlan.new key sources = .error e) ↔ ¬ Mergeable key sources ∨ Conflict sources) ∧
      ∀ plan, MergePlan.new key sources = .ok plan → ∃ merged : SegmentGroup,
        (∀ output output' : List UInt8, 72 + plan.count * 16 ≤ output.length →
          maxBitmapBytes ≤ output'.length → ∃ n owners l live,
            plan.encodeMembers output = .ok (n, owners) ∧
            plan.encodeLiveness output' = (.ok l, live) ∧
            SegmentGroup.openGroup (owners.take n) (live.take l) = .ok merged) ∧
        merged.key = key ∧
        (∀ x, merged.members.find x.root = .ok (some x) ↔ ∃ s ∈ sources, s.Owns x) ∧
        (∀ root, merged.live.has root = true ↔ ∃ s ∈ sources, s.live.has root = true) ∧
        ∀ postings, (∀ terms ∈ postings, TermOf sources terms) → Agree sources postings →
          ∃ merges : List Bitmap,
            List.Forall₂ (fun terms b => ∀ output : List UInt8, maxBitmapBytes ≤ output.length →
              ∃ n bytes, plan.encodePosting terms output = (.ok n, bytes) ∧
                Bitmap.openRecord (bytes.take n) = .ok b) postings merges ∧
            ∀ queries, Queried sources postings queries → ∀ program,
              validateProgram postings.length program = .ok () → ∀ x,
                Matches merged merges program x ↔
                  ∃ i s, sources[i]? = some s ∧ Matches s (queries i) program x := by
  have hholds : ∀ s ∈ sources, ∃ ms, s.HoldsMembers ms := fun s hs => by
    obtain ⟨members, live, h⟩ := hopen s hs
    exact SegmentGroup.openGroup_holds h
  have hnew : Mergeable key sources → ¬ Conflict sources →
      ∃ out, Visits key sources out ∧ MergePlan.new key sources = .ok (planOf key sources out) := by
    intro hm hc
    obtain ⟨out, hasc, hmem, hrun⟩ := visit_ok hholds hc
    exact ⟨out, ⟨hkey, hholds, hm, hasc, hmem, hrun⟩, new_ok hlen hm hrun⟩
  refine ⟨⟨fun ⟨e, he⟩ => ?_, ?_⟩, fun plan hplan => ?_⟩
  · by_contra hnot
    rw [not_or, not_not] at hnot
    obtain ⟨out, -, hok⟩ := hnew hnot.1 hnot.2
    cases hok.symm.trans he
  · rintro (hm | hc)
    · exact new_foreign hm
    · exact new_conflict hholds hc
  have hm : Mergeable key sources := by
    by_contra hm
    obtain ⟨e, he⟩ := new_foreign hm
    cases hplan.symm.trans he
  have hc : ¬ Conflict sources := by
    intro hc
    obtain ⟨e, he⟩ := @new_conflict key sources hholds hc
    cases hplan.symm.trans he
  obtain ⟨out, h, hok⟩ := hnew hm hc
  cases hplan.symm.trans hok
  refine ⟨mergedGroup key out, fun output output' hroom hroom' => ?_, rfl, fun x => h.find_iff,
    fun root => h.has_iff, fun postings hterms hagree => ?_⟩
  · refine ⟨_, _, _, _, h.encodeMembers hroom, h.encodeLiveness hroom', ?_⟩
    rw [List.take_left' length_membersImage, List.take_left' rfl]
    exact h.openGroup
  · obtain ⟨merges, hmerges⟩ : ∃ merges : List Bitmap, List.Forall₂ (fun terms b =>
        (∀ output : List UInt8, maxBitmapBytes ≤ output.length → ∃ rest,
          (planOf key sources out).encodePosting terms output =
            (.ok b.bytes.length, b.bytes ++ rest)) ∧ Bitmap.openRecord b.bytes = .ok b ∧
        PostingOf (mergedGroup key out) b ∧
          ∀ root, b.has root = true ↔ PostedAt sources terms root) postings merges := by
      clear hagree
      induction postings with
      | nil => exact ⟨[], .nil⟩
      | cons terms postings ih =>
        obtain ⟨merges, hmerges⟩ := ih fun terms ht => hterms terms (List.mem_cons_of_mem _ ht)
        obtain ⟨b, hwrite, hread, hbkey, hkind, hvalid, hbits⟩ :=
          h.encodePosting (hterms terms List.mem_cons_self)
        exact ⟨b :: merges, .cons ⟨hwrite, hread, ⟨⟨_, hread⟩, hbkey, hkind, hvalid⟩, hbits⟩
          hmerges⟩
    refine ⟨merges, hmerges.imp fun terms b hb output hroom => ?_,
      fun queries hqueries program hprog x => ?_⟩
    · obtain ⟨rest, hwrite⟩ := hb.1 output hroom
      refine ⟨_, _, hwrite, ?_⟩
      rw [List.take_left' rfl]
      exact hb.2.1
    · exact h.answers hopen hagree (hmerges.imp fun terms b hb => hb.2.2) hqueries hprog

end

/-! ### Two owners of one coordinate -/

/-- The first member of the small segment is retired. -/
def retiredLive : List UInt8 :=
  ((retireRoots sampleLive sampleKey fun root => root = ⟨256, 1⟩).toOption.map Prod.snd).getD []

/-- The small segment with a member retired. -/
def retiredSegment : SegmentGroup :=
  ⟨⟨sampleMembers, ⟨sampleKey, 3, 3, 3⟩⟩, ⟨retiredLive, sampleKey, .liveness, 3⟩⟩

/-- The group of the later segment. -/
def reusedKey : GroupKey := ⟨1, 8, 256, 8⟩

/-- A later owner of the retired coordinate. -/
def reusedMembers : List UInt8 := (encodeMembers reusedKey [⟨⟨256, 1⟩, 6⟩] 4096).toOption.getD []

/-- The liveness of the later segment. -/
def reusedLive : List UInt8 := (encodeBitmap reusedKey .liveness [⟨0, 1⟩] 4096).toOption.getD []

/-- A later segment that reuses the place of the retired member. -/
def reusedSegment : SegmentGroup :=
  ⟨⟨reusedMembers, ⟨reusedKey, 3, 1, 1⟩⟩, ⟨reusedLive, reusedKey, .liveness, 1⟩⟩

/-- A term of the two members that are not retired. -/
def laterTerm : Bitmap :=
  ⟨(encodeBitmap sampleKey .posting [⟨0, 2⟩, ⟨1, 16⟩] 4096).toOption.getD [], sampleKey,
    .posting, 3⟩

/-- A term of the later owner. -/
def reusedTerm : Bitmap :=
  ⟨(encodeBitmap reusedKey .posting [⟨0, 1⟩] 4096).toOption.getD [], reusedKey, .posting, 1⟩

/-- A term that the later owner does not have. -/
def absentTerm : Bitmap :=
  ⟨(encodeBitmap reusedKey .posting [] 4096).toOption.getD [], reusedKey, .posting, 0⟩

/-- The first term is in both sources, the second in the retired one only. -/
def reusedPostings : List (List (Option Bitmap)) :=
  [[some laterTerm, some reusedTerm], [some sampleTerm, none]]

/-- The bitmaps of the two terms in the two segments. -/
def reusedQueries (i : ℕ) : List Bitmap :=
  if i = 0 then [laterTerm, sampleTerm] else [reusedTerm, absentTerm]

theorem retired_postings : PostingOf retiredSegment laterTerm ∧
    PostingOf retiredSegment sampleTerm :=
  ⟨⟨⟨laterTerm.bytes, by decide +kernel⟩, rfl, rfl, by decide +kernel⟩,
    ⟨⟨sampleTerm.bytes, by decide +kernel⟩, rfl, rfl, by decide +kernel⟩⟩

theorem reused_postings : PostingOf reusedSegment reusedTerm ∧ PostingOf reusedSegment absentTerm :=
  ⟨⟨⟨reusedTerm.bytes, by decide +kernel⟩, rfl, rfl, by decide +kernel⟩,
    ⟨⟨absentTerm.bytes, by decide +kernel⟩, rfl, rfl, by decide +kernel⟩⟩

theorem Bitmap.offsets_of_has {b : Bitmap} {root : RootTid} (h : b.has root = true) :
    ∃ page bit, page < 256 ∧ root = ⟨b.key.base + page, bit + 1⟩ ∧
      ((b.offsets page).toOption.getD 0).testBit bit = true := by
  obtain ⟨page, bit, hp, rfl⟩ := Bitmap.has_coordinates h
  refine ⟨page, bit, hp, rfl, ?_⟩
  rw [Bitmap.has_coordinate hp] at h
  cases ho : b.offsets page with
  | error e => rw [ho] at h; cases h
  | ok mask => rw [ho] at h; exact h

/-- The two sources have no live coordinate in common. -/
theorem reused_apart {root : RootTid} (h : retiredSegment.live.has root = true) :
    reusedSegment.live.has root = false := by
  have hmasks : ∀ page < 256, (retiredSegment.live.offsets page).toOption.getD 0 &&&
      (reusedSegment.live.offsets page).toOption.getD 0 = 0 := by decide +kernel
  by_contra h'
  obtain ⟨page, bit, hp, rfl, hbit⟩ := Bitmap.offsets_of_has h
  obtain ⟨page', bit', -, hroot, hbit'⟩ := Bitmap.offsets_of_has (Bool.eq_true_of_not_eq_false h')
  obtain ⟨hpage, hoff⟩ := RootTid.mk.inj hroot
  obtain rfl : page = page' := Nat.add_left_cancel hpage
  obtain rfl : bit = bit' := Nat.add_right_cancel hoff
  have hand := congrArg (Nat.testBit · bit) (hmasks page hp)
  rw [Nat.testBit_and, hbit, hbit'] at hand
  simp at hand

theorem reused_agree : Agree [retiredSegment, reusedSegment] reusedPostings := by
  intro i j s s' root hs hs' hl hl' terms _
  rcases i with _ | _ | i <;> rcases j with _ | _ | j <;> cases hs <;> cases hs'
  · rfl
  · exact absurd (reused_apart hl) (by rw [hl']; decide)
  · exact absurd (reused_apart hl') (by rw [hl]; decide)
  · rfl

theorem reused_termOf : ∀ terms ∈ reusedPostings, TermOf [retiredSegment, reusedSegment] terms := by
  refine List.forall_mem_cons.2 ⟨⟨rfl, fun i s b hs hb => ?_⟩,
    List.forall_mem_singleton.2 ⟨rfl, fun i s b hs hb => ?_⟩⟩
  · rcases i with _ | _ | i <;> cases hs <;> cases hb
    · exact retired_postings.1
    · exact reused_postings.1
  · rcases i with _ | _ | i <;> cases hs <;> cases hb
    exact retired_postings.2

theorem reused_queried : Queried [retiredSegment, reusedSegment] reusedPostings reusedQueries := by
  intro i s hs
  have habsent : ∀ page < 256, absentTerm.offsets page = .ok 0 := by decide +kernel
  rcases i with _ | _ | i <;> cases hs
  · exact .cons ⟨retired_postings.1, fun _ => rfl⟩ (.cons ⟨retired_postings.2, fun _ => rfl⟩ .nil)
  · refine .cons ⟨reused_postings.1, fun _ => rfl⟩ (.cons ⟨reused_postings.2, fun root => ?_⟩ .nil)
    refine Bool.eq_false_iff.2 fun hroot => ?_
    obtain ⟨page, bit, hp, -, hbit⟩ := Bitmap.offsets_of_has hroot
    rw [habsent page hp] at hbit
    exact absurd hbit (by simp [Except.toOption])

/-- The later owner does not merge with the one it follows until that is retired.  Then the merged
group has the owners of both sources, and every program over the two terms matches in it what it
matches in one of them. -/
theorem merge_exact_reused :
    (∃ e, MergePlan.new ⟨1, 9, 256, 8⟩ [sampleSegment, reusedSegment] = .error e) ∧
    ∃ plan merged merges, MergePlan.new ⟨1, 9, 256, 8⟩ [retiredSegment, reusedSegment] = .ok plan ∧
      (∀ x, merged.members.find x.root = .ok (some x) ↔
        ∃ s ∈ [retiredSegment, reusedSegment], s.Owns x) ∧
      (∀ root, merged.live.has root = true ↔
        ∃ s ∈ [retiredSegment, reusedSegment], s.live.has root = true) ∧
      List.Forall₂ (fun terms b => ∀ output : List UInt8, maxBitmapBytes ≤ output.length →
        ∃ n bytes, plan.encodePosting terms output = (.ok n, bytes) ∧
          Bitmap.openRecord (bytes.take n) = .ok b) reusedPostings merges ∧
      ∀ program, validateProgram 2 program = .ok () → ∀ x,
        Matches merged merges program x ↔ ∃ i s, [retiredSegment, reusedSegment][i]? = some s ∧
          Matches s (reusedQueries i) program x := by
  have hkey : GroupKey.Valid ⟨1, 9, 256, 8⟩ :=
    ⟨by decide, by decide, by decide, by decide, by decide⟩
  have hsample : SegmentGroup.openGroup sampleMembers sampleLive = .ok sampleSegment := by
    decide +kernel
  have hretired : SegmentGroup.openGroup sampleMembers retiredLive = .ok retiredSegment := by
    decide +kernel
  have hreused : SegmentGroup.openGroup reusedMembers reusedLive = .ok reusedSegment := by
    decide +kernel
  constructor
  · have h := @merge_exact ⟨1, 9, 256, 8⟩ [sampleSegment, reusedSegment] hkey (by decide)
      (List.forall_mem_cons.2 ⟨⟨_, _, hsample⟩, List.forall_mem_singleton.2 ⟨_, _, hreused⟩⟩)
    refine h.1.2 (.inr ⟨sampleSegment, by simp, reusedSegment, by simp, ⟨⟨256, 1⟩, 3⟩,
      ⟨⟨256, 1⟩, 6⟩, ⟨by decide +kernel, by decide +kernel⟩, ⟨by decide +kernel, by decide +kernel⟩,
      rfl, by decide⟩)
  · have hnew : (MergePlan.new ⟨1, 9, 256, 8⟩ [retiredSegment, reusedSegment]).toOption.isSome =
        true := by decide +kernel
    have h := @merge_exact ⟨1, 9, 256, 8⟩ [retiredSegment, reusedSegment] hkey (by decide)
      (List.forall_mem_cons.2 ⟨⟨_, _, hretired⟩, List.forall_mem_singleton.2 ⟨_, _, hreused⟩⟩)
    cases hplan : MergePlan.new ⟨1, 9, 256, 8⟩ [retiredSegment, reusedSegment] with
    | error e =>
      rw [hplan] at hnew
      cases hnew
    | ok plan =>
      obtain ⟨merged, -, -, hfind, hlive, hpostings⟩ := h.2 plan hplan
      obtain ⟨merges, hencoded, hanswers⟩ := hpostings reusedPostings reused_termOf reused_agree
      exact ⟨plan, merged, merges, rfl, hfind, hlive, hencoded,
        hanswers reusedQueries reused_queried⟩

end Grouped

end PinCore
