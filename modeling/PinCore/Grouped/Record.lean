import PinCore.Grouped.Cursor

/-!
# Records in fragments

A record is split over the pages of its segment, each with the bytes from its offset on.  What
`writeRecord` stores, `readRecord` returns, on the store it leaves and over every history that keeps
the pages of the segment.
-/

namespace PinCore

open Prog

namespace Grouped

/-! ### Writing -/

/-- Appends `count` fragments of the record from `index` on; returns their blocks. -/
def writeFragments (kind : GroupPageKind) (key : ℕ × ℕ) (bytes : List UInt8) :
    ℕ → ℕ → GroupSnapshot → Wr (List ℕ × GroupSnapshot)
  | 0, _, x => return ([], x)
  | count + 1, index, x => do
    let (block, x) ← append x fun block => groupRecord block
      ⟨x.id, kind, key, bytes.length, index * groupDataBytes, fragmentAt bytes index⟩
    let (rest, x) ← writeFragments kind key bytes count (index + 1) x
    return (block :: rest, x)

/-- The first three blocks of a record; missing ones are invalid. -/
def leadingBlocks (blocks : List ℕ) : List ℕ := (blocks ++ List.replicate 3 noBlock).take 3

/-- Stores a record; returns its first block and its leading blocks. -/
def writeRecord (x : GroupSnapshot) (kind : GroupPageKind) (key : ℕ × ℕ) (bytes : List UInt8) :
    Wr ((ℕ × List ℕ) × GroupSnapshot) := do
  Prog.ensure (bytes.length < 4294967296) (.limit "group record")
  let (blocks, x) ← writeFragments kind key bytes (fragmentCount bytes.length) 0 x
  Prog.ensure (blocks.headD noBlock ≠ noBlock) .invalidState
  return ((blocks.headD noBlock, leadingBlocks blocks), x)

/-! ### What is stored -/

/-- The blocks hold the fragments of the record from `index` on, each linked to the next. -/
def Fragments (s : Store) (id : ℕ) (kind : GroupPageKind) (key : ℕ × ℕ) (bytes : List UInt8) :
    ℕ → List ℕ → Prop
  | _, [] => True
  | index, b :: bs => s.body b = .grouped (.record id kind key bytes.length (index * groupDataBytes)
      (fragmentAt bytes index)) ∧ (∀ c ∈ bs.head?, s.next b = c ∧ c ≠ noBlock) ∧
      Fragments s id kind key bytes (index + 1) bs

/-- The record is stored in the blocks. -/
structure Recorded (s : Store) (id : ℕ) (kind : GroupPageKind) (key : ℕ × ℕ) (bytes : List UInt8)
    (blocks : List ℕ) : Prop where
  count : blocks.length = fragmentCount bytes.length
  fragments : Fragments s id kind key bytes 0 blocks

/-- A record of a kind, key and length that its pages may have. -/
structure RecordOk (kind : GroupPageKind) (key : ℕ × ℕ) (bytes : List UInt8) : Prop where
  tag : kind = .members ∨ kind = .liveness ∨ kind = .posting
  valid : validKey key
  posting : kind = .posting ↔ key.1 ≠ 0
  length : 72 ≤ bytes.length ∧ bytes.length ≤ if kind = .members then 2097224 else 17480

section

variable {E : Error → Prop} {s s' : Store} {m m' : MetaBody} {x x' : GroupSnapshot} {H : ℕ → Store}
  {id t count index : ℕ} {kind : GroupPageKind} {key : ℕ × ℕ} {bytes : List UInt8}
  {blocks old : List ℕ}

/-! ### Bounds -/

theorem groupDataBytes_pos : 0 < groupDataBytes := by decide

theorem length_fragmentAt : (fragmentAt bytes index).length =
    min groupDataBytes (bytes.length - index * groupDataBytes) := by
  rw [fragmentAt, List.length_take, List.length_drop]

/-- A fragment of a record starts inside of it. -/
theorem lt_of_fragmentCount (h : index < fragmentCount bytes.length) :
    index * groupDataBytes < bytes.length := by
  rw [fragmentCount, Nat.lt_div_iff_mul_lt groupDataBytes_pos] at h
  have := groupDataBytes_pos
  omega

theorem fragment_ok {b : ℕ} (hr : RecordOk kind key bytes) (hid : id ≠ 0)
    (hi : index < fragmentCount bytes.length) :
    (GroupBody.record id kind key bytes.length (index * groupDataBytes)
      (fragmentAt bytes index)).Ok b := by
  refine ⟨hid, hr.tag, hr.valid, hr.posting, hr.length.1, hr.length.2, lt_of_fragmentCount hi,
    Nat.mul_mod_left _ _, ?_⟩
  rw [length_fragmentAt, Nat.min_comm]

/-- A valid fragment of a record becomes a page. -/
theorem groupRecord_eq {b : ℕ} (hb : blockValid b) (hr : RecordOk kind key bytes) (hid : id ≠ 0)
    (hi : index < fragmentCount bytes.length) :
    groupRecord b ⟨id, kind, key, bytes.length, index * groupDataBytes, fragmentAt bytes index⟩ =
      .ok (groupPage b (.record id kind key bytes.length (index * groupDataBytes)
        (fragmentAt bytes index))) := by
  have hnew : Page.new b (.grouped (.record id kind key bytes.length (index * groupDataBytes)
      (fragmentAt bytes index))) = .ok (groupPage b (.record id kind key bytes.length
        (index * groupDataBytes) (fragmentAt bytes index))) :=
    if_neg (not_or.2 ⟨hb.2, not_not.2 ⟨fun h0 => absurd h0 hb.1, by rintro ⟨⟩⟩⟩)
  have hlen : ¬ groupDataBytes < (fragmentAt bytes index).length := by
    rw [length_fragmentAt]
    omega
  have hdata : groupData (groupPage b (.record id kind key bytes.length (index * groupDataBytes)
      (fragmentAt bytes index))) = .ok ⟨id, kind, key, bytes.length, index * groupDataBytes,
        fragmentAt bytes index⟩ := if_pos (fragment_ok hr hid hi)
  rw [groupRecord, hnew, ok_bind]
  change (if groupDataBytes < (fragmentAt bytes index).length then _ else _) = _
  rw [if_neg hlen, hdata]
  rfl

/-! ### Storing -/

/-- The links inside of a chain. -/
theorem linked_next {next : ℕ → ℕ} {head b c : ℕ} {pre post : List ℕ}
    (h : Linked next noBlock head (pre ++ b :: c :: post)) : next b = c ∧ c ≠ noBlock :=
  ⟨h.next_eq, h.ne_stop (by simp)⟩

theorem writeFragments_spec (h : Appending s x m) (hE : E .host) (hc : SegmentOk s x.chain old)
    (hr : RecordOk kind key bytes) (hi : index + count = fragmentCount bytes.length) :
    Spec E (fun s' => ∃ m', Beside s s' m m' ∧ Retains s s' m m') s
      (writeFragments kind key bytes count index x) fun y s' =>
        ∃ m', Grown s s' x y.2 m m' ∧ SegmentOk s' y.2.chain (old ++ y.1) ∧ y.1.length = count ∧
          Fragments s' x.id kind key bytes index y.1 := by
  induction count generalizing s x m index old with
  | zero =>
    refine Spec.pure ⟨m, h.grown, ?_, rfl, trivial⟩
    rw [List.append_nil]
    exact hc
  | succ count ih =>
    have hlt : index < fragmentCount bytes.length := by omega
    refine (append_spec h hE fun b hb _ => .inr ⟨_, groupRecord_eq hb hr h.id hlt, rfl,
      groupPage_valid hb (fragment_ok hr h.id hlt)⟩).bind ?_
    rintro ⟨b, x₁⟩ s₁ ⟨g, m₁, hg, ha⟩
    have ha : Appended s s₁ x x₁ m m₁ b g := ha
    have hg : groupRecord b ⟨x.id, kind, key, bytes.length, index * groupDataBytes,
        fragmentAt bytes index⟩ = .ok (groupPage b g) := hg
    obtain rfl : g = .record x.id kind key bytes.length (index * groupDataBytes)
        (fragmentAt bytes index) := by
      rw [groupRecord_eq ha.block hr h.id hlt] at hg
      cases hg
      rfl
    have hg₁ := ha.grown h
    refine ((ih hg₁.appending (ha.chain old hc) (by omega)).mono ?_ fun _ _ => id).bind ?_
    · rintro s' ⟨m', hb, hret⟩
      exact ⟨m', hg₁.beside.trans hb, hg₁.retains.trans hret⟩
    · rintro ⟨bs, x₂⟩ s₂ ⟨m₂, hg₂, hc₂, hlen, hf⟩
      have hg₂ : Grown s₁ s₂ x₁ x₂ m₁ m₂ := hg₂
      have hc₂ : SegmentOk s₂ x₂.chain (old ++ [b] ++ bs) := hc₂
      have hf : Fragments s₂ x₁.id kind key bytes (index + 1) bs := hf
      rw [hg₁.id] at hf
      rw [List.append_assoc, List.singleton_append] at hc₂
      refine Spec.pure ⟨m₂, hg₁.trans hg₂, hc₂, congrArg Nat.succ hlen, hg₂.body _ _ ha.body,
        fun c hcm => ?_, hf⟩
      cases bs with
      | nil => cases hcm
      | cons d ds =>
        cases hcm
        exact linked_next hc₂.linked

theorem fragmentCount_pos (h : 72 ≤ bytes.length) : 0 < fragmentCount bytes.length := by
  have := groupDataBytes_pos
  rw [fragmentCount, Nat.div_pos_iff]
  omega

/-- Storing a record puts all its fragments at the end of the segment. -/
theorem writeRecord_spec (h : Appending s x m) (hE : E .host) (hr : RecordOk kind key bytes) :
    Spec E (fun s' => ∃ m', Beside s s' m m' ∧ Retains s s' m m') s (writeRecord x kind key bytes)
      fun y s' => ∃ m' blocks, Grown s s' x y.2 m m' ∧ Recorded s' x.id kind key bytes blocks ∧
        y.1 = (blocks.headD noBlock, leadingBlocks blocks) := by
  obtain ⟨old, hc⟩ := h.segmented.chain x.chain (by
    rw [GroupState.chains, GroupState.pending, h.journal]
    exact List.mem_cons_self)
  have hlen : bytes.length < 4294967296 := by
    have := hr.length.2
    split_ifs at this <;> omega
  refine Spec.ensure_bind hlen ?_
  refine (writeFragments_spec h hE hc hr (Nat.zero_add _)).bind ?_
  rintro ⟨blocks, x'⟩ s' ⟨m', hg, hc', hcount, hf⟩
  have hc' : SegmentOk s' x'.chain (old ++ blocks) := hc'
  have hcount : blocks.length = fragmentCount bytes.length := hcount
  have hhead : blocks.headD noBlock ≠ noBlock := by
    have hpos := fragmentCount_pos hr.length.1
    cases blocks with
    | nil =>
      rw [← hcount] at hpos
      exact absurd hpos (Nat.lt_irrefl 0)
    | cons b bs => exact hc'.linked.ne_stop (by simp)
  exact Spec.ensure_bind hhead (Spec.pure ⟨m', blocks, hg, ⟨hcount, hf⟩, rfl⟩)

/-! ### Reading -/

/-- A history over which the pages of the segment keep their contents and their links.  The page at
the end of its chain may be linked to a new one. -/
structure Preserved (s : Store) (id : ℕ) (H : ℕ → Store) : Prop where
  pages : ∀ t, PagesOk (H t)
  layout : ∀ t, (H t).layout = s.layout
  body : ∀ t c g, s.body c = .grouped g → g.id = id → (H t).body c = .grouped g
  link : ∀ t c, s.InSegment id c → s.next c ≠ noBlock → (H t).next c = s.next c

theorem Preserved.catalogued (hH : Preserved s id H) : Catalogued s id H :=
  ⟨hH.pages, hH.layout, fun t c _ _ hn => hH.body t c _ hn rfl⟩

theorem Preserved.load {b : ℕ} {g : GroupBody} (hH : Preserved s id H) (hb : s.body b = .grouped g)
    (hg : g.id = id) : Obs.Sees H t (load b .grouped) fun p _ =>
      p.body = .grouped g ∧ g.Ok p.block ∧ (s.next b ≠ noBlock → p.next = s.next b) := by
  have hbody := fun t => hH.body t b g hb hg
  refine (load_seen hH.pages hH.layout (by decide) fun t => by rw [hbody]; rfl).mono ?_
  rintro _ _ - ⟨t₁, rfl⟩
  refine ⟨hbody t₁, ?_, hH.link t₁ b ⟨g, hb, hg⟩⟩
  have hok := (hH.pages t₁).ok b
  rw [hbody] at hok
  rw [(hH.pages t₁).block]
  exact hok

/-- What is left of the bytes from a fragment on. -/
theorem fragmentAt_append : fragmentAt bytes index ++ bytes.drop ((index + 1) * groupDataBytes) =
    bytes.drop (index * groupDataBytes) := by
  rw [fragmentAt, Nat.succ_mul, ← List.drop_drop, List.take_append_drop]

theorem readRecordFrom_sees {expected : Option (List ℕ)} (hH : Preserved s id H)
    (h : Fragments s id kind key bytes index blocks)
    (hi : index + blocks.length = fragmentCount bytes.length)
    (hexp : ∀ bs ∈ expected, ∀ (i b : ℕ), blocks[i]? = some b → bs[index + i]? = some b) :
    Obs.Sees H t (readRecordFrom id kind key bytes.length expected blocks.length index
      (blocks.headD noBlock)) fun r _ => r = bytes.drop (index * groupDataBytes) := by
  induction blocks generalizing index t with
  | nil =>
    refine Obs.Sees.pure ?_
    symm
    refine List.drop_eq_nil_of_le ?_
    have := groupDataBytes_pos
    rw [List.length_nil, Nat.add_zero] at hi
    rw [hi, fragmentCount]
    have := Nat.div_add_mod (bytes.length + groupDataBytes - 1) groupDataBytes
    have := Nat.mod_lt (bytes.length + groupDataBytes - 1) groupDataBytes_pos
    rw [Nat.mul_comm]
    omega
  | cons b bs ih =>
    obtain ⟨hbody, hnext, hrest⟩ := h
    rw [List.length_cons] at hi
    rw [List.length_cons, List.headD_cons, readRecordFrom]
    refine Obs.Sees.ensure_bind (fun es hes => hexp es hes 0 b rfl) ?_
    refine (hH.load hbody rfl).bind ?_
    rintro p t' - ⟨hp, hok, hlink⟩
    have hdata : groupData p = .ok ⟨id, kind, key, bytes.length, index * groupDataBytes,
        fragmentAt bytes index⟩ := by
      rw [groupData, hp]
      exact if_pos hok
    refine Obs.Sees.ofExcept_bind hdata ?_
    refine Obs.Sees.ensure_bind ⟨rfl, rfl, rfl, rfl, rfl, length_fragmentAt⟩ ?_
    have hih := ih (t := t') hrest (by omega) fun es hes i c hc => by
      have := hexp es hes (i + 1) c hc
      rwa [show index + (i + 1) = index + 1 + i by omega] at this
    have hhead : readRecordFrom id kind key bytes.length expected bs.length (index + 1) p.next =
        readRecordFrom id kind key bytes.length expected bs.length (index + 1)
          (bs.headD noBlock) := by
      cases bs with
      | nil => rfl
      | cons c cs =>
        obtain ⟨hn, hne⟩ := hnext c rfl
        rw [hlink (by rw [hn]; exact hne), hn]
        rfl
    rw [hhead]
    refine hih.bind ?_
    rintro _ t'' - rfl
    exact Obs.Sees.pure fragmentAt_append

/-- A stored record is read back, over every history that keeps its pages. -/
theorem readRecord_sees {expected : Option (List ℕ)} (hH : Preserved s id H)
    (h : Recorded s id kind key bytes blocks)
    (hexp : ∀ bs ∈ expected, ∀ (i b : ℕ), blocks[i]? = some b → bs[i]? = some b) :
    Obs.Sees H t (readRecord id kind key (blocks.headD noBlock) bytes.length expected)
      fun r _ => r = bytes := by
  rw [readRecord, ← h.count]
  refine (readRecordFrom_sees hH h.fragments (by rw [Nat.zero_add]; exact h.count)
    fun bs hbs i b hb => by rw [Nat.zero_add]; exact hexp bs hbs i b hb).mono ?_
  intro r _ _ hr
  rw [hr, Nat.zero_mul, List.drop_zero]

end

end Grouped

end PinCore
