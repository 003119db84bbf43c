import PinCore.Image.OwnerPage
import Mathlib.Logic.Relation

/-!
# Runs of owner page calls

Whatever appends and changes are made to a new owner page, its bytes are those of some slots.
Every slot keeps its index, its document and its payload, and moves forward in its life; a slot
that is dead or abandoned has no step left.
-/

namespace PinCore

open Grouped Image
open Page (OwnerChange)

/-! ### The life of a slot -/

/-- The states in the life of an owner. -/
inductive Life where
  | allocated
  | fragmentsWritten
  | live
  | dead
  | abandoned
  deriving DecidableEq, Repr

/-- One stage follows another. -/
inductive Life.Next : Life → Life → Prop
  | written : Next allocated fragmentsWritten
  | publish : Next fragmentsWritten live
  | remove : Next live dead
  | abandonAllocated : Next allocated abandoned
  | abandonWritten : Next fragmentsWritten abandoned

/-- The state of an owner. -/
def OwnerSlot.life (o : OwnerSlot) : Life :=
  match o.publication with
  | .allocated => .allocated
  | .fragmentsWritten => .fragmentsWritten
  | .published => if o.live then .live else .dead
  | .abandoned => .abandoned

/-- The second slot is the first at a later stage. -/
structure OwnerSlot.Later (o x : OwnerSlot) : Prop where
  same : x = { o with
    publication := x.publication
    live := x.live
    dataHead := x.dataHead }
  life : Relation.ReflTransGen Life.Next o.life x.life

section

variable {o x y : OwnerSlot} {l : Life} {layout : HeapLayout}

theorem OwnerSlot.Later.refl : o.Later o := ⟨rfl, .refl⟩

theorem OwnerSlot.Later.trans (h : o.Later x) (h' : x.Later y) : o.Later y := by
  refine ⟨?_, h.life.trans h'.life⟩
  rw [h'.same, h.same]

/-- A change is one step. -/
theorem apply_next {change : OwnerChange} (h : change.apply o = .ok x) :
    x = { o with
      publication := x.publication
      live := x.live
      dataHead := x.dataHead } ∧ o.life.Next x.life := by
  cases change with
  | payloadReady head =>
    rw [OwnerChange.apply] at h
    split_ifs at h with hp
    cases h
    refine ⟨rfl, ?_⟩
    rw [OwnerSlot.life, hp]
    exact .written
  | publish =>
    rw [OwnerChange.apply] at h
    split_ifs at h with hp
    cases h
    refine ⟨rfl, ?_⟩
    rw [OwnerSlot.life, hp]
    exact .publish
  | remove =>
    rw [OwnerChange.apply] at h
    split_ifs at h with hp
    cases h
    refine ⟨rfl, ?_⟩
    rw [OwnerSlot.life, hp.1, hp.2]
    exact .remove
  | abandon =>
    rw [OwnerChange.apply] at h
    split_ifs at h with hp
    cases h
    refine ⟨rfl, ?_⟩
    rcases hp with hp | hp
    · rw [OwnerSlot.life, hp]
      exact .abandonAllocated
    · rw [OwnerSlot.life, hp]
      exact .abandonWritten

/-- The last stages have no step left. -/
theorem Life.final (h : Relation.ReflTransGen Next l m) (hl : l = dead ∨ l = abandoned) :
    m = l := by
  rcases h.cases_head with rfl | ⟨m', hstep, -⟩
  · rfl
  · rcases hl with rfl | rfl <;> cases hstep

end

/-! ### Calls -/

/-- A call of one of the two editing functions. -/
inductive OwnerCall where
  | append (incarnation : ℕ) (root : RootTid) (tokens terms : ℕ) (payload : List UInt8)
  | change (reference : OwnerRef) (change : OwnerChange)

/-- The ranges of the arguments' types, for roots of one heap layout. -/
def OwnerCall.InRange (layout : HeapLayout) : OwnerCall → Prop
  | append incarnation root .. =>
    (incarnation ≠ 0 ∧ incarnation < 2 ^ 64) ∧ root.Valid layout ∧ root.block < 2 ^ 32
  | change _ c => ∀ head, c = .payloadReady head → head < 2 ^ 32

/-- The image that a call leaves, whatever it returns. -/
def OwnerCall.after (layout : HeapLayout) (p : Image) : OwnerCall → Image
  | append incarnation root tokens terms payload =>
    (appendOwner incarnation root tokens terms payload p).2
  | change reference c => (changeOwner reference c layout p).2

/-- The image after all calls. -/
def Image.afterAll (layout : HeapLayout) (calls : List OwnerCall) (p : Image) : Image :=
  calls.foldl (OwnerCall.after layout) p

/-- Every slot is still there, maybe at a later stage. -/
def SlotsLater (slots slots' : List OwnerSlot) : Prop :=
  ∀ (i : ℕ) (o : OwnerSlot), slots[i]? = some o → ∃ x : OwnerSlot, slots'[i]? = some x ∧ o.Later x

theorem SlotsLater.refl {slots : List OwnerSlot} : SlotsLater slots slots :=
  fun _ o ho => ⟨o, ho, .refl⟩

theorem SlotsLater.trans {as bs cs : List OwnerSlot} (h : SlotsLater as bs)
    (h' : SlotsLater bs cs) : SlotsLater as cs := by
  intro i o ho
  obtain ⟨x, hx, hlater⟩ := h i o ho
  obtain ⟨y, hy, hlater'⟩ := h' i x hx
  exact ⟨y, hy, hlater.trans hlater'⟩

section

variable {p q : Image} {layout : HeapLayout} {slots : List OwnerSlot} {o x : OwnerSlot}

/-- A call leaves an image of the same slots, each at its stage or a later one. -/
theorem HoldsSlots.after (h : HoldsSlots p layout slots) {call : OwnerCall}
    (hc : call.InRange layout) :
    ∃ slots', HoldsSlots (call.after layout p) layout slots' ∧ SlotsLater slots slots' ∧
      (call.after layout p).block = p.block := by
  cases call with
  | append incarnation root tokens terms payload =>
    rcases @HoldsSlots.appendOwner p layout slots h incarnation tokens terms root payload hc.1 hc.2
      with ⟨q, hq, hholds, hblock, -⟩ | ⟨hsame, -⟩ | ⟨hsame, -⟩
    · rw [OwnerCall.after, hq]
      refine ⟨_, hholds, fun i o ho => ⟨o, ?_, .refl⟩, hblock⟩
      rwa [List.getElem?_append_left (List.getElem?_eq_some_iff.1 ho).1]
    · rw [OwnerCall.after, hsame]
      exact ⟨slots, h, .refl, rfl⟩
    · rw [OwnerCall.after, hsame]
      exact ⟨slots, h, .refl, rfl⟩
  | change reference change =>
    rcases @HoldsSlots.changeOwner p layout slots h reference change hc with
      ⟨o, x, q, hget, -, happly, hq, hholds, hblock, -⟩ | ⟨e, hsame, -⟩
    · rw [OwnerCall.after, hq]
      refine ⟨_, hholds, fun i y hy => ?_, hblock⟩
      by_cases hi : reference.slot = i
      · subst hi
        obtain ⟨hsame, hnext⟩ := apply_next happly
        have hlater : o.Later x := ⟨hsame, .single hnext⟩
        rw [hget] at hy
        cases hy
        exact ⟨x, List.getElem?_set_self (List.getElem?_eq_some_iff.1 hget).1, hlater⟩
      · exact ⟨y, by rwa [List.getElem?_set_ne hi], .refl⟩
    · rw [OwnerCall.after, hsame]
      exact ⟨slots, h, .refl, rfl⟩

/-- So does any sequence of calls. -/
theorem HoldsSlots.afterAll (h : HoldsSlots p layout slots) {calls : List OwnerCall}
    (hcalls : ∀ c ∈ calls, c.InRange layout) :
    ∃ slots', HoldsSlots (Image.afterAll layout calls p) layout slots' ∧ SlotsLater slots slots' ∧
      (Image.afterAll layout calls p).block = p.block := by
  induction calls generalizing p slots with
  | nil => exact ⟨slots, h, .refl, rfl⟩
  | cons call calls ih =>
    obtain ⟨mid, hmid, hlater, hblock⟩ := h.after (hcalls call List.mem_cons_self)
    obtain ⟨slots', hholds, hlater', hblock'⟩ :=
      ih hmid fun c hc => hcalls c (List.mem_cons_of_mem _ hc)
    exact ⟨slots', hholds, hlater.trans hlater', hblock'.trans hblock⟩

/-- A slot in one of the last stages is not live. -/
theorem live_false (hok : o.Ok layout) (hlife : o.life = .dead ∨ o.life = .abandoned) :
    o.live = false := by
  cases hl : o.live with
  | false => rfl
  | true =>
    rw [OwnerSlot.life, hok.live hl, hl] at hlife
    rcases hlife with h | h <;> cases h

/-- A new page has no slot. -/
theorem HoldsSlots.owners {block : ℕ} (hp : Image.owners block = .ok p) :
    HoldsSlots p layout [] ∧ p.block = block := by
  rw [Image.owners] at hp
  split_ifs at hp with hbad
  have hlen : p.len = ownerHeader := by
    cases hp
    rfl
  have hkind : p.kind = .owners := by
    cases hp
    rfl
  have hblock' : p.block = block := by
    cases hp
    rfl
  have hbytes : p.bytes = ([0x50, 0x49, 0x4e, 0x32] ++ leBytes 2 2 ++ [2, 0] ++ leBytes 4 block) ++
      (leBytes 4 noBlock ++ (leBytes 2 0 ++ (leBytes 2 0 ++
        List.replicate (capacity - 20) 0))) := by
    cases hp
    have hzeros : List.replicate (capacity - pageHeader) (0 : UInt8) =
        leBytes 2 0 ++ (leBytes 2 0 ++ List.replicate (capacity - 20) 0) := rfl
    dsimp only
    rw [hzeros]
    simp only [List.append_assoc]
  have hfront : ([0x50, 0x49, 0x4e, 0x32] ++ leBytes 2 2 ++ [2, 0] ++ leBytes 4 block).length =
      12 := by
    simp only [List.length_append, Reader.length_leBytes]
    rfl
  have hnext : p.next = .ok noBlock := by
    have hdrop := congrArg (List.drop 12) hbytes
    rw [List.drop_left' hfront] at hdrop
    rw [Image.next, u32, get_eq (by rw [hlen]; decide), (leAt_of_drop hdrop (by decide)).1]
  refine ⟨⟨hkind, ?_, ?_, hlen, ⟨([0x50, 0x49, 0x4e, 0x32] ++ leBytes 2 2 ++ [2, 0] ++
    leBytes 4 block) ++ leBytes 4 noBlock, List.replicate (capacity - 20) 0, ?_, ?_⟩,
    fun _ hx => absurd hx List.not_mem_nil⟩, hblock'⟩
  · rw [Image.checkNext, hnext, ok_bind, if_pos rfl]
  · rw [Image.checkBlock, hkind, hblock']
    exact if_pos ⟨fun h => absurd (.inr h) hbad, by rintro ⟨⟩⟩
  · rw [List.length_append, hfront, Reader.length_leBytes]
  · rw [hbytes]
    simp only [List.append_assoc]
    rfl

/-- What an append leads to.  Success gives a new last slot; all else leaves the page. -/
def AppendsSlot (layout : HeapLayout) (p : Image) (count incarnation : ℕ) (root : RootTid)
    (tokens terms : ℕ) (payload : List UInt8) : Prop :=
  (∃ q, Image.appendOwner incarnation root tokens terms payload p =
      (.ok (some ⟨p.block, count, incarnation⟩), q) ∧ q.ownerCount = .ok (count + 1) ∧
    q.owner count layout = .ok ⟨⟨p.block, count, incarnation⟩,
      freshSlot incarnation root tokens terms payload⟩ ∧
    ∀ i < count, q.owner i layout = p.owner i layout) ∨
  Image.appendOwner incarnation root tokens terms payload p = (.ok none, p) ∨
  ∃ e, Image.appendOwner incarnation root tokens terms payload p = (.error e, p)

/-- What a change leads to.  Success moves the named slot one stage; an error leaves the page. -/
def ChangesSlot (layout : HeapLayout) (p : Image) (count : ℕ) (reference : OwnerRef)
    (change : OwnerChange) : Prop :=
  (∃ q o x, Image.changeOwner reference change layout p = (.ok ⟨⟩, q) ∧
    q.ownerCount = .ok count ∧ p.owner reference.slot layout = .ok ⟨reference, o⟩ ∧
    q.owner reference.slot layout = .ok ⟨reference, x⟩ ∧
    x = { o with
      publication := x.publication
      live := x.live
      dataHead := x.dataHead } ∧ o.life.Next x.life ∧
    ∀ i ≠ reference.slot, q.owner i layout = p.owner i layout) ∨
  ∃ e, Image.changeOwner reference change layout p = (.error e, p)

theorem HoldsSlots.appendsSlot (h : HoldsSlots p layout slots) {incarnation tokens terms : ℕ}
    {root : RootTid} {payload : List UInt8} (hinc : incarnation ≠ 0 ∧ incarnation < 2 ^ 64)
    (hroot : root.Valid layout ∧ root.block < 2 ^ 32) :
    AppendsSlot layout p slots.length incarnation root tokens terms payload := by
  rcases @HoldsSlots.appendOwner p layout slots h incarnation tokens terms root payload hinc hroot
    with ⟨q, hq, hholds, hblock, -⟩ | ⟨hsame, -⟩ | ⟨hsame, -⟩
  · have hnew := List.getElem?_concat_length (l := slots)
      (a := freshSlot incarnation root tokens terms payload)
    refine .inl ⟨q, hq, ?_, ?_, fun i hi => ?_⟩
    · rw [hholds.ownerCount, List.length_append, List.length_singleton]
    · rw [hholds.owner_at hnew, hblock]
      rfl
    · have hold := List.getElem?_eq_getElem hi
      rw [h.owner_at hold, hholds.owner_at (by rwa [List.getElem?_append_left hi]), hblock]
  · exact .inr (.inl hsame)
  · exact .inr (.inr ⟨_, hsame⟩)

theorem HoldsSlots.changesSlot (h : HoldsSlots p layout slots) {reference : OwnerRef}
    {change : OwnerChange} (hhead : ∀ head, change = .payloadReady head → head < 2 ^ 32) :
    ChangesSlot layout p slots.length reference change := by
  rcases @HoldsSlots.changeOwner p layout slots h reference change hhead with
    ⟨o, x, q, hget, href, happly, hq, hholds, hblock, -⟩ | ⟨e, hsame, -⟩
  · obtain ⟨hsame, hnext⟩ := apply_next happly
    have hinc : x.incarnation = o.incarnation := (apply_same happly).1
    have hset := List.getElem?_set_self (a := x) (List.getElem?_eq_some_iff.1 hget).1
    refine .inl ⟨q, o, x, hq, ?_, ?_, ?_, hsame, hnext, fun i hi => ?_⟩
    · rw [hholds.ownerCount, List.length_set]
    · rw [h.owner_at hget, ← href]
    · rw [hholds.owner_at hset, hblock, hinc, ← href]
    · have hother := List.getElem?_set_ne (a := x) (l := slots) (Ne.symm hi)
      cases hi : slots[i]? with
      | none =>
        have hle := List.getElem?_eq_none_iff.1 hi
        rw [h.owner_none hle, hholds.owner_none (by rwa [List.length_set])]
      | some y => rw [h.owner_at hi, hholds.owner_at (hother.trans hi), hblock]
  · exact .inr ⟨e, hsame⟩

end

/-- Every page built from a new owner page by appends and changes is valid.  Appends and changes
keep the other slots, and every slot moves forward through the stages of its life, never from the
last ones. -/
theorem Image.ownerPage_run {layout : HeapLayout} {block : ℕ} {p₀ p : Image}
    {calls : List OwnerCall} (hp₀ : Image.owners block = .ok p₀)
    (hcalls : ∀ c ∈ calls, c.InRange layout) (hp : p = Image.afterAll layout calls p₀) :
    p.validateOwners layout = .ok ⟨⟩ ∧
    ∃ count, p.ownerCount = .ok count ∧ (∀ i < count, ∃ o, p.owner i layout = .ok o) ∧
      (∀ incarnation root tokens terms payload,
        (OwnerCall.append incarnation root tokens terms payload).InRange layout →
          AppendsSlot layout p count incarnation root tokens terms payload) ∧
      (∀ reference change, (OwnerCall.change reference change).InRange layout →
        ChangesSlot layout p count reference change) ∧
      ∀ calls', (∀ c ∈ calls', OwnerCall.InRange layout c) → ∀ i o, p.owner i layout = .ok o →
        ∃ x, (Image.afterAll layout calls' p).owner i layout = .ok x ∧
          x.reference = o.reference ∧ o.record.Later x.record ∧
          (o.record.life = .dead ∨ o.record.life = .abandoned →
            x.record.life = o.record.life ∧ x.record.live = false) := by
  obtain ⟨h₀, -⟩ := @HoldsSlots.owners p₀ layout block hp₀
  obtain ⟨slots, h, -, -⟩ := h₀.afterAll hcalls
  rw [← hp] at h
  refine ⟨h.validateOwners, slots.length, h.ownerCount, fun i hi => ?_, ?_, ?_, ?_⟩
  · exact ⟨_, h.owner_at (List.getElem?_eq_getElem hi)⟩
  · exact fun _ _ _ _ _ hc => h.appendsSlot hc.1 hc.2
  · exact fun _ _ hc => h.changesSlot hc
  · intro calls' hcalls' i o ho
    obtain ⟨slots', h', hlater, hblock⟩ := h.afterAll hcalls'
    cases hget : slots[i]? with
    | none =>
      rw [h.owner_none (List.getElem?_eq_none_iff.1 hget)] at ho
      cases ho
    | some s =>
      rw [h.owner_at hget] at ho
      cases ho
      obtain ⟨x, hx, hsx⟩ := hlater i s hget
      have hinc : x.incarnation = s.incarnation := by rw [hsx.same]
      refine ⟨_, h'.owner_at hx, by rw [hblock, hinc], hsx, fun hfinal => ?_⟩
      have hstage := Life.final hsx.life hfinal
      exact ⟨hstage, live_false (h'.ok x (List.mem_of_getElem? hx)).1 (hstage ▸ hfinal)⟩

/-- An inline document goes through all its stages. -/
theorem Image.ownerPage_run_removed : ∃ p₀, Image.owners 1 = .ok p₀ ∧
    (Image.afterAll ⟨8, by decide, by decide⟩ [.append 1 ⟨0, 1⟩ 2 1 (List.replicate 16 7),
      .change ⟨1, 0, 1⟩ (.payloadReady noBlock), .append 2 ⟨0, 2⟩ 2 1 (List.replicate 20 9),
      .change ⟨1, 0, 1⟩ .publish, .change ⟨1, 0, 1⟩ .remove] p₀).validateOwners
        ⟨8, by decide, by decide⟩ = .ok ⟨⟩ := by
  obtain ⟨p₀, hp₀⟩ : ∃ p₀, Image.owners 1 = .ok p₀ := ⟨_, if_neg (by decide)⟩
  refine ⟨p₀, hp₀, (Image.ownerPage_run hp₀ ?_ rfl).1⟩
  intro c hc
  simp only [List.mem_cons, List.not_mem_nil, or_false] at hc
  rcases hc with rfl | rfl | rfl | rfl | rfl
  · exact ⟨by decide, by decide, by decide⟩
  · rintro _ ⟨⟩
    decide
  · exact ⟨by decide, by decide, by decide⟩
  · exact nofun
  · exact nofun


end PinCore
