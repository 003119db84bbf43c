import PinCore.Compact.Pass
import PinCore.Mutable.Vacuum

/-!
# Removing owners

The first pass of vacuum rewrites the records of every owner page: removable live owners lose
their liveness, unpublished owners are abandoned.  No other page changes, so the live documents
of the store are the old ones without those of the pages passed so far.
-/

namespace PinCore

open Prog

/-- The record of an owner after vacuum passed it. -/
def OwnerSlot.vacuumed (removable : RootTid → Bool) (o : OwnerSlot) : OwnerSlot :=
  match o.publication, o.live with
  | .published, true =>
    if removable o.root then { o with live := false, dataHead := noBlock } else o
  | .allocated, _ | .fragmentsWritten, _ =>
    { o with publication := .abandoned, live := false, dataHead := noBlock }
  | _, _ => o

section

variable {removable : RootTid → Bool} {l : HeapLayout} {o o' : OwnerSlot}

theorem vacuumed_removed (hp : o.publication = .published) (hl : o.live = true)
    (hr : removable o.root = true) :
    o.vacuumed removable = { o with live := false, dataHead := noBlock } := by
  simp only [OwnerSlot.vacuumed, hp, hl, hr, if_true]

theorem vacuumed_kept (hp : o.publication = .published) (hl : o.live = true)
    (hr : removable o.root = false) : o.vacuumed removable = o := by
  simp only [OwnerSlot.vacuumed, hp, hl, hr, Bool.false_eq_true, if_false]

theorem vacuumed_abandoned (hp : o.publication = .allocated ∨ o.publication = .fragmentsWritten) :
    o.vacuumed removable =
      { o with publication := .abandoned, live := false, dataHead := noBlock } := by
  rcases hp with hp | hp <;> simp only [OwnerSlot.vacuumed, hp]

theorem vacuumed_dead (hp : o.publication = .published) (hl : o.live = false) :
    o.vacuumed removable = o := by simp only [OwnerSlot.vacuumed, hp, hl]

theorem vacuumed_settled (hp : o.publication = .abandoned) : o.vacuumed removable = o := by
  simp only [OwnerSlot.vacuumed, hp]

/-- The four ways vacuum passes a record. -/
theorem vacuumed_cases (removable : RootTid → Bool) (o : OwnerSlot) :
    (o.publication = .published ∧ o.live = true ∧ removable o.root = true ∧
      o.vacuumed removable = { o with live := false, dataHead := noBlock }) ∨
    (o.publication = .published ∧ o.live = true ∧ removable o.root = false ∧
      o.vacuumed removable = o) ∨
    ((o.publication = .allocated ∨ o.publication = .fragmentsWritten) ∧ o.vacuumed removable =
      { o with publication := .abandoned, live := false, dataHead := noBlock }) ∨
    (((o.publication = .published ∧ o.live = false) ∨ o.publication = .abandoned) ∧
      o.vacuumed removable = o) := by
  have hpub : ∀ x : Publication, x = .published ∨ (x = .allocated ∨ x = .fragmentsWritten) ∨
      x = .abandoned := by intro x; cases x <;> simp
  rcases hpub o.publication with hp | hp | hp
  · rcases Bool.eq_false_or_eq_true o.live with hl | hl
    · rcases Bool.eq_false_or_eq_true (removable o.root) with hr | hr
      · exact .inl ⟨hp, hl, hr, vacuumed_removed hp hl hr⟩
      · exact .inr (.inl ⟨hp, hl, hr, vacuumed_kept hp hl hr⟩)
    · exact .inr (.inr (.inr ⟨.inl ⟨hp, hl⟩, vacuumed_dead hp hl⟩))
  · exact .inr (.inr (.inl ⟨hp, vacuumed_abandoned hp⟩))
  · exact .inr (.inr (.inr ⟨.inr hp, vacuumed_settled hp⟩))

theorem vacuumed_root (removable : RootTid → Bool) (o : OwnerSlot) :
    (o.vacuumed removable).root = o.root := by
  rcases vacuumed_cases removable o with ⟨-, -, -, h⟩ | ⟨-, -, -, h⟩ | ⟨-, h⟩ | ⟨-, h⟩ <;> rw [h]

/-- What stays live is what was live and is not removable. -/
theorem vacuumed_liveRoot (removable : RootTid → Bool) (o : OwnerSlot) :
    (o.vacuumed removable).liveRoot = o.liveRoot.filter fun x => !removable x := by
  rcases vacuumed_cases removable o with ⟨hp, hl, hr, h⟩ | ⟨hp, hl, hr, h⟩ | ⟨hp, h⟩ | ⟨hp, h⟩
  · rw [h]; simp [OwnerSlot.liveRoot, hp, hl, Option.filter, hr]
  · rw [h]; simp [OwnerSlot.liveRoot, hp, hl, Option.filter, hr]
  · rw [h]
    rcases hp with hp | hp <;> simp [OwnerSlot.liveRoot, hp]
  · rw [h]
    rcases hp with ⟨hp, hl⟩ | hp
    · simp [OwnerSlot.liveRoot, hl]
    · simp [OwnerSlot.liveRoot, hp]

theorem vacuumed_ok (removable : RootTid → Bool) (h : o.Ok l) : (o.vacuumed removable).Ok l := by
  have hne : noBlock ≠ 0 := by decide
  have hinline : o.inline ≠ [] → o.inline.length = o.dataBytes ∧ noBlock = noBlock := fun hi =>
    ⟨(h.inline hi).1, rfl⟩
  rcases vacuumed_cases removable o with ⟨hp, -, -, he⟩ | ⟨-, -, -, he⟩ | ⟨-, he⟩
    | ⟨-, he⟩ <;> rw [he]
  · exact ⟨h.incarnation, h.root, fun hl => absurd hl Bool.false_ne_true, h.tokens, h.terms,
      h.minBytes, h.maxBytes, hne, hinline, fun hx => by
        rcases hx with hx | hx
        · rw [show o.publication = .fragmentsWritten from hx] at hp; cases hp
        · exact absurd hx Bool.false_ne_true, fun _ => rfl⟩
  · exact h
  · exact ⟨h.incarnation, h.root, fun hl => absurd hl Bool.false_ne_true, h.tokens, h.terms,
      h.minBytes, h.maxBytes, hne, hinline, fun hx => by
        rcases hx with hx | hx
        · cases hx
        · exact absurd hx Bool.false_ne_true, fun _ => rfl⟩
  · exact h

/-! ### One page -/

variable {p : Page} {slots : List OwnerSlot}

theorem pageOwner_eq {i : ℕ} (hs : p.slots = .ok slots) (hi : slots[i]? = some o) (ho : o.Ok l) :
    p.owner i l = .ok ⟨⟨p.block, i, o.incarnation⟩, o⟩ := by
  rw [Page.owner, hs, ok_bind]
  simp only [hi]
  exact if_pos ho

theorem changeOwner_eq {i : ℕ} {change : Page.OwnerChange} (hs : p.slots = .ok slots)
    (hi : slots[i]? = some o) (ho : o.Ok l) (ha : change.apply o = .ok o') :
    p.changeOwner ⟨p.block, i, o.incarnation⟩ change l = .ok (p.withSlots (slots.set i o')) := by
  rw [Page.changeOwner, pageOwner_eq hs hi ho]
  refine (if_neg (not_not.2 rfl)).trans ?_
  rw [ha, hs]
  rfl

/-- One step of the slot loop. -/
theorem vacuumSlots_succ {i n : ℕ} {stats : VacuumStats} {changed : Bool} {x : Owner}
    (h : p.owner i l = .ok x) : vacuumSlots removable l (n + 1) i p stats changed =
      match x.record.publication, x.record.live with
      | .published, true =>
        if removable x.record.root then
          (p.changeOwner x.reference .remove l).bind fun p =>
            vacuumSlots removable l n (i + 1) p
              { stats with removedDocuments := stats.removedDocuments + 1 } true
        else
          vacuumSlots removable l n (i + 1) p
            { stats with liveDocuments := stats.liveDocuments + 1 } changed
      | .allocated, _ | .fragmentsWritten, _ =>
        (p.changeOwner x.reference .abandon l).bind fun p =>
          vacuumSlots removable l n (i + 1) p
            { stats with abandonedDocuments := stats.abandonedDocuments + 1 } true
      | _, _ => vacuumSlots removable l n (i + 1) p stats changed := by
  rw [vacuumSlots, h]
  rfl

/-- The slots of one page are passed in order; the page is changed only if a record is. -/
theorem vacuumSlots_eq (removable : RootTid → Bool) {pre post : List OwnerSlot}
    (stats : VacuumStats) (changed : Bool) (hs : p.slots = .ok (pre ++ post))
    (hok : ∀ o ∈ post, o.Ok l) :
    ∃ stats' changed', vacuumSlots removable l post.length pre.length p stats changed =
        .ok (p.withSlots (pre ++ post.map (OwnerSlot.vacuumed removable)), stats', changed') ∧
      (changed' = false → changed = false ∧ ∀ o ∈ post, o.vacuumed removable = o) := by
  induction post generalizing pre p stats changed with
  | nil =>
    have hp : p.withSlots (pre ++ []) = p := by
      have hb : p.body = .owners (pre ++ []) := by
        unfold Page.slots at hs
        split at hs
        · next hb => cases hs; exact hb
        · cases hs
      rw [Page.withSlots, ← hb]
    exact ⟨stats, changed, congrArg (fun q => Except.ok (q, stats, changed)) hp.symm,
      fun hc => ⟨hc, fun _ ho => absurd ho List.not_mem_nil⟩⟩
  | cons o post ih =>
    have ho := hok o List.mem_cons_self
    have hrest : ∀ x ∈ post, x.Ok l := fun x hx => hok x (List.mem_cons_of_mem _ hx)
    have hi : (pre ++ o :: post)[pre.length]? = some o := by simp
    have howner := pageOwner_eq hs hi ho
    have hlen : ∀ x : OwnerSlot, (pre ++ [x]).length = pre.length + 1 := by simp
    -- the record stays
    have hsame : o.vacuumed removable = o → ∀ stats₁ : VacuumStats, ∃ stats' changed',
        vacuumSlots removable l post.length (pre.length + 1) p stats₁ changed =
          .ok (p.withSlots (pre ++ (o :: post).map (OwnerSlot.vacuumed removable)), stats',
            changed') ∧
        (changed' = false → changed = false ∧ ∀ x ∈ o :: post, x.vacuumed removable = x) := by
      intro hv stats₁
      have hs' : p.slots = .ok ((pre ++ [o]) ++ post) := by rw [hs, List.append_assoc]; rfl
      obtain ⟨stats', changed', heq, hch⟩ := @ih p (pre ++ [o]) stats₁ changed hs' hrest
      rw [hlen, List.append_assoc] at heq
      refine ⟨stats', changed', by rw [heq, List.map_cons, hv]; rfl, fun hc => ?_⟩
      exact ⟨(hch hc).1, List.forall_mem_cons.2 ⟨hv, (hch hc).2⟩⟩
    -- the record is replaced
    have hset : ∀ stats₁ : VacuumStats, ∃ stats' changed',
        vacuumSlots removable l post.length (pre.length + 1)
          (p.withSlots ((pre ++ o :: post).set pre.length (o.vacuumed removable))) stats₁ true =
          .ok (p.withSlots (pre ++ (o :: post).map (OwnerSlot.vacuumed removable)), stats',
            changed') ∧
        (changed' = false → changed = false ∧ ∀ x ∈ o :: post, x.vacuumed removable = x) := by
      intro stats₁
      have hset : (pre ++ o :: post).set pre.length (o.vacuumed removable) =
          (pre ++ [o.vacuumed removable]) ++ post := by simp
      rw [hset]
      obtain ⟨stats', changed', heq, hch⟩ := @ih
        (p.withSlots ((pre ++ [o.vacuumed removable]) ++ post)) (pre ++ [o.vacuumed removable])
        stats₁ true rfl hrest
      rw [hlen] at heq
      refine ⟨stats', changed', by rw [heq]; simp [Page.withSlots], fun hc => ?_⟩
      exact absurd (hch hc).1 (by simp)
    rw [List.length_cons, vacuumSlots_succ howner]
    rcases vacuumed_cases removable o with ⟨hp, hl, hr, hv⟩ | ⟨hp, hl, hr, hv⟩ | ⟨hp, hv⟩ | ⟨hp, hv⟩
    · have hap : Page.OwnerChange.remove.apply o = .ok (o.vacuumed removable) := by
        rw [hv, Page.OwnerChange.apply, if_pos ⟨hp, hl⟩, ← hp]
      simp only [hp, hl, hr, if_true, changeOwner_eq hs hi ho hap]
      exact hset _
    · simp only [hp, hl, hr, Bool.false_eq_true, if_false]
      exact hsame hv _
    · have hap : Page.OwnerChange.abandon.apply o = .ok (o.vacuumed removable) := by
        rw [hv, Page.OwnerChange.apply, if_pos hp]
      rcases hp with hp | hp
      all_goals
        simp only [hp, changeOwner_eq hs hi ho hap]
        exact hset _
    · rcases hp with ⟨hp, hl⟩ | hp
      · simp only [hp, hl]
        exact hsame hv _
      · simp only [hp]
        exact hsame hv _

end

/-! ### The owner chain -/

/-- The live documents that stay when the removable ones on the pages `bs` go. -/
def View.passed (removable : RootTid → Bool) (bs : List ℕ) (V : View) : View where
  docs := V.docs.filter fun d => !(decide (d.owner.page ∈ bs) && removable d.root)
  closed _ := True

/-- Some removable documents are gone, and no other. -/
structure View.Between (removable : RootTid → Bool) (V V' : View) : Prop where
  sub : V'.docs.Sublist V.docs
  keeps : ∀ d ∈ V.docs, removable d.root = false → d ∈ V'.docs

/-- A store in which vacuum may be cut off. -/
def Cut (removable : RootTid → Bool) (V : View) (s : Store) : Prop :=
  ∃ V', V.Between removable V' ∧ Good False V' s

/-- The records on the owner pages `bs` were passed; every other page stays. -/
structure OwnersPassed (removable : RootTid → Bool) (bs : List ℕ) (s s' : Store) : Prop where
  layout : s'.layout = s.layout
  blocks : s'.blocks = s.blocks
  body : ∀ b ∈ bs, ∃ slots, s.body b = .owners slots ∧
    s'.body b = .owners (slots.map (OwnerSlot.vacuumed removable))
  next : ∀ b, s'.next b = s.next b
  other : ∀ b, b ∉ bs → s'.page b = s.page b

section

variable {E : Error → Prop} {strong : Prop} {removable : RootTid → Bool} {s s' s'' : Store}
  {m : MetaBody}
  {V V' V'' : View} {bs cs : List ℕ} {b : ℕ}

theorem View.Between.refl (V : View) : V.Between removable V :=
  ⟨List.Sublist.refl _, fun _ hd _ => hd⟩

theorem View.Between.trans (h : V.Between removable V') (h' : V'.Between removable V'') :
    V.Between removable V'' :=
  ⟨h'.sub.trans h.sub, fun d hd hr => h'.keeps d (h.keeps d hd hr) hr⟩

theorem View.between_passed (V : View) (bs : List ℕ) :
    V.Between removable (V.passed removable bs) := by
  refine ⟨List.filter_sublist, fun d hd hr => List.mem_filter.2 ⟨hd, ?_⟩⟩
  rw [hr, Bool.and_false]; rfl

theorem WF.weaken (h : WF strong s m) : WF False s m := { h with direct := h.direct.weaken }

/-- A good store is one in which vacuum may be cut off. -/
theorem Good.cut (h : Good strong V s) : Cut removable V s :=
  let ⟨m, hw, hv⟩ := h
  ⟨V, .refl V, m, hw.weaken, hv⟩

theorem OwnersPassed.trans (h : OwnersPassed removable bs s s')
    (h' : OwnersPassed removable cs s' s'') (hd : ∀ b ∈ bs, b ∉ cs) :
    OwnersPassed removable (bs ++ cs) s s'' where
  layout := h'.layout.trans h.layout
  blocks := h'.blocks.trans h.blocks
  body b hb := by
    rcases List.mem_append.1 hb with hb | hb
    · obtain ⟨slots, h₁, h₂⟩ := h.body b hb
      exact ⟨slots, h₁, by rw [Store.body_eq_of_page (h'.other b (hd b hb))]; exact h₂⟩
    · obtain ⟨slots, h₁, h₂⟩ := h'.body b hb
      refine ⟨slots, ?_, h₂⟩
      rw [Store.body_eq_of_page (h.other b fun hbs => hd b hbs hb)] at h₁
      exact h₁
  next b := (h'.next b).trans (h.next b)
  other b hb := by
    rw [List.mem_append, not_or] at hb
    rw [h'.other b hb.2, h.other b hb.1]

/-- The record of an owner after the pages `bs` were passed. -/
theorem OwnersPassed.owns (h : OwnersPassed removable bs s s') {r : OwnerRef} {o : OwnerSlot}
    (ho : s.Owns r o) : s'.Owns r (if r.page ∈ bs then o.vacuumed removable else o) := by
  split_ifs with hr
  · obtain ⟨slots, h₁, h₂⟩ := h.body r.page hr
    obtain ⟨hi, hinc⟩ := ho
    rw [h₁] at hi
    refine ⟨?_, ?_⟩
    · rw [h₂]
      have hi' : slots[r.slot]? = some o := hi
      simp [Body.slots, hi']
    · rw [← hinc]
      rcases vacuumed_cases removable o with ⟨-, -, -, he⟩ | ⟨-, -, -, he⟩ | ⟨-, he⟩ | ⟨-, he⟩ <;>
        rw [he]
  · exact ⟨by rw [Store.body_eq_of_page (h.other _ hr)]; exact ho.1, ho.2⟩

theorem OwnersPassed.back (h : OwnersPassed removable bs s s') {r : OwnerRef} {o' : OwnerSlot}
    (ho : s'.Owns r o') :
    ∃ o, s.Owns r o ∧ o' = if r.page ∈ bs then o.vacuumed removable else o := by
  have key : ∃ o, s.Owns r o := by
    by_cases hr : r.page ∈ bs
    · obtain ⟨slots, h₁, h₂⟩ := h.body r.page hr
      obtain ⟨hi, hinc⟩ := ho
      rw [h₂] at hi
      obtain ⟨o, ho, rfl⟩ : ∃ o, slots[r.slot]? = some o ∧ o.vacuumed removable = o' := by
        simpa [Body.slots] using hi
      refine ⟨o, by rw [h₁]; exact ho, ?_⟩
      rw [← hinc]
      rcases vacuumed_cases removable o with ⟨-, -, -, he⟩ | ⟨-, -, -, he⟩ | ⟨-, he⟩ | ⟨-, he⟩ <;>
        rw [he]
    · exact ⟨o', by rw [← Store.body_eq_of_page (h.other _ hr)]; exact ho.1, ho.2⟩
  obtain ⟨o, hown⟩ := key
  exact ⟨o, hown, ho.unique (h.owns hown)⟩

theorem OwnersPassed.same (h : OwnersPassed removable bs s s') : Same PageKind.NotOwner s s' := by
  refine ⟨h.layout, fun b hb => h.other b fun hm => ?_⟩
  obtain ⟨slots, h₁, h₂⟩ := h.body b hm
  rw [h₁, h₂] at hb
  rcases hb with hb | hb <;> exact hb.1 rfl

theorem OwnersPassed.rootOf (h : OwnersPassed removable bs s s') (r : OwnerRef) :
    s'.rootOf r = if r.page ∈ bs then (s.rootOf r).filter fun x => !removable x
      else s.rootOf r := by
  by_cases hk : ∃ o, s.Owns r o
  · obtain ⟨o, ho⟩ := hk
    rw [Store.rootOf_eq ho, Store.rootOf_eq (h.owns ho)]
    split_ifs
    · exact vacuumed_liveRoot removable o
    · rfl
  · have h₁ : s.rootOf r = none := by
      refine Option.eq_none_iff_forall_not_mem.2 fun x hx => hk ?_
      obtain ⟨o, ho, -⟩ := Store.rootOf_eq_some hx
      exact ⟨o, ho⟩
    have h₂ : s'.rootOf r = none := by
      refine Option.eq_none_iff_forall_not_mem.2 fun x hx => hk ?_
      obtain ⟨o', ho', -⟩ := Store.rootOf_eq_some hx
      obtain ⟨o, ho, -⟩ := h.back ho'
      exact ⟨o, ho⟩
    rw [h₁, h₂]
    split_ifs <;> rfl

/-- The live documents after the pages `bs` were passed. -/
theorem Shows.passed (hv : Shows s V) (h : OwnersPassed removable bs s s') :
    Shows s' (V.passed removable bs) where
  sorted := hv.sorted.sublist (List.filter_sublist.map _)
  live r x := by
    rw [h.rootOf]
    have hmem : (∃ d, (⟨r, x, d⟩ : LiveDoc) ∈ (V.passed removable bs).docs) ↔
        s.rootOf r = some x ∧ ¬ (r.page ∈ bs ∧ removable x = true) := by
      rw [hv.live r x]
      simp only [View.passed, List.mem_filter, Bool.not_eq_true', Bool.and_eq_false_iff,
        decide_eq_false_iff_not, exists_and_right, not_and_or, Bool.not_eq_true]
    rw [hmem]
    split_ifs with hr
    · rw [Option.filter_eq_some_iff]
      simp [hr]
    · simp [hr]
  posted v hm x :=
    (posted_same (h.same.mono fun _ hk => isIndex_notOwner hk)).trans
      (hv.posted v (List.mem_filter.1 hm).1 x)
  closed _ _ _ _ _ := trivial

theorem OwnersPassed.direct (h : OwnersPassed removable bs s s') (hw : WF strong s m) :
    DirectOk False s' := by
  refine hw.direct.of_owners hw.refs h.same fun c x o hx ho =>
    ⟨_, h.owns ho, ?_, ?_, fun hf => hf.elim⟩
  · split_ifs
    · exact vacuumed_root removable o
    · rfl
  · split_ifs
    · rw [vacuumed_liveRoot]
      intro hne hnone
      rw [hnone] at hne
      exact hne rfl
    · exact id

/-- One owner page is passed in one commit, or left alone. -/
theorem vacuumOwners_page {V₀ : View} {slots : List OwnerSlot} {changed : Bool}
    (h : WF strong s m) (hv : Shows s V) (hbet : V₀.Between removable V)
    (hb : s.body b = .owners slots)
    (hch : changed = false → ∀ o ∈ slots, o.vacuumed removable = o) :
    Spec E (Cut removable V₀) s
      (if changed then
        removeOwners ((s.page b).withSlots (slots.map (OwnerSlot.vacuumed removable)))
        else pure ⟨⟩) fun _ s' => WF False s' m ∧ OwnersPassed removable [b] s s' := by
  cases changed with
  | false =>
    refine Spec.pure ⟨h.weaken, rfl, rfl, ?_, fun _ => rfl, fun _ _ => rfl⟩
    rw [List.forall_mem_singleton]
    refine ⟨slots, hb, ?_⟩
    have hid : slots.map (OwnerSlot.vacuumed removable) = slots.map id :=
      List.map_congr_left fun o ho => hch rfl o ho
    rw [hid, List.map_id]
    exact hb
  | true =>
    have hf : List.Forall₂ (SlotStep s) slots (slots.map (OwnerSlot.vacuumed removable)) := by
      rw [List.forall₂_map_right_iff, List.forall₂_same]
      intro o ho
      obtain ⟨i, hi⟩ := List.getElem?_of_mem ho
      have hown : s.Owns ⟨b, i, o.incarnation⟩ o := ⟨by rw [hb]; exact hi, rfl⟩
      have hok := vacuumed_ok removable (h.pages.slotOk hown)
      have hpay := h.closed.payload _ o hown
      refine ⟨?_, vacuumed_root removable o, ?_, hok, ?_⟩
      all_goals
        rcases vacuumed_cases removable o with ⟨-, -, -, he⟩ | ⟨-, -, -, he⟩ | ⟨-, he⟩ | ⟨-, he⟩ <;>
          rw [he]
      · exact .inl rfl
      · exact hpay
      · exact .inl rfl
      · exact hpay
    obtain ⟨hc, hpost⟩ := withSlots_step False h hb hf
    have hstep : ∀ s', Committed s s'
        [(s.page b).withSlots (slots.map (OwnerSlot.vacuumed removable))] →
        WF False s' m ∧ OwnersPassed removable [b] s s' := by
      intro s' hcm
      obtain ⟨hb', hother, -, hwf, -⟩ := hpost s' hcm
      have hp : OwnersPassed removable [b] s s' := by
        refine ⟨hcm.layout, hcm.blocks, ?_, fun c => ?_, fun c hc => hother c (by simpa using hc)⟩
        · rw [List.forall_mem_singleton]; exact ⟨slots, hb, hb'⟩
        · by_cases hcb : c = b
          · have hn := hcm.next_mem (List.mem_singleton_self _)
            rw [show ((s.page b).withSlots (slots.map (OwnerSlot.vacuumed removable))).block =
              b from
              h.pages.block b] at hn
            rw [hcb]; exact hn
          · rw [Store.next, hother c hcb]; rfl
      exact ⟨hwf (hp.direct h), hp⟩
    refine (removeOwners_spec rfl hc fun s' hcm => ?_).post fun _ s' hcm => hstep s' hcm
    obtain ⟨hw', hp⟩ := hstep s' hcm
    exact ⟨_, hbet.trans (V.between_passed [b]), m, hw', hv.passed hp⟩

/-- All owner pages from `b` on are passed. -/
theorem vacuumOwnersFrom_spec {V₀ : View} {head tail fuel : ℕ} {as cs : List ℕ}
    {stats : VacuumStats}
    (h : WF strong s m) (hv : Shows s V) (hbet : V₀.Between removable V)
    (hl : Linked s.next noBlock head (as ++ b :: cs)) (hasc : (as ++ b :: cs).Pairwise (· < ·))
    (htail : tail = lastD noBlock (as ++ b :: cs))
    (hk : ∀ c ∈ b :: cs, (s.body c).kind = .owners) (hfuel : cs.length < fuel) :
    Spec E (Cut removable V₀) s (vacuumOwnersFrom removable tail fuel b stats)
      fun _ s' => WF False s' m ∧ OwnersPassed removable (b :: cs) s s' := by
  induction fuel generalizing strong s V b as cs stats with
  | zero => exact absurd hfuel (Nat.not_lt_zero _)
  | succ fuel ih =>
    have hkb := hk b List.mem_cons_self
    obtain ⟨slots, hb⟩ : ∃ slots, s.body b = .owners slots := by
      revert hkb; cases s.body b <;> simp [Body.kind]
    have hslots : (s.page b).slots = .ok ([] ++ slots) := by rw [slots_eq hkb, hb]; rfl
    have hok : ∀ o ∈ slots, o.Ok s.layout := by
      intro o ho
      obtain ⟨i, hi⟩ := List.getElem?_of_mem ho
      exact h.pages.slotOk (r := ⟨b, i, o.incarnation⟩) ⟨by rw [hb]; exact hi, rfl⟩
    refine Spec.reading_bind (load_returns h.pages hkb (by simp)) ?_
    rintro _ rfl
    refine Spec.reading_bind layout_returns ?_
    rintro _ rfl
    have hcount : (s.page b).ownerCount = .ok slots.length := by
      rw [Page.ownerCount, hslots]; rfl
    refine Spec.ofExcept_bind hcount ?_
    obtain ⟨stats', changed, heq, hch⟩ :=
      vacuumSlots_eq removable stats false hslots hok
    refine Spec.ofExcept_bind heq ?_
    refine Spec.when_bind (vacuumOwners_page h hv hbet hb fun hc => (hch hc).2) ?_
    rintro _ s₁ ⟨hw₁, hp₁⟩
    have hfol : following ((s.page b).withSlots ([] ++ slots.map (OwnerSlot.vacuumed removable)))
        tail =
        following (s.page b) tail := rfl
    refine Spec.ofExcept_bind (hfol.trans (following_eq hl hasc htail (h.pages.block b))) ?_
    cases cs with
    | nil => exact Spec.pure ⟨hw₁, hp₁⟩
    | cons c cs =>
      have hnb : b ∉ c :: cs := (List.nodup_cons.1 (List.nodup_append.1 hl.nodup).2.1).1
      have hassoc : as ++ b :: c :: cs = (as ++ [b]) ++ c :: cs := by rw [List.append_assoc]; rfl
      rw [hassoc] at hl hasc htail
      refine (ih hw₁ (hv.passed hp₁) (hbet.trans (V.between_passed [b]))
        (hl.congr fun d _ => hp₁.next d) hasc htail (fun d hd => ?_) ?_).post ?_
      · have hdb : d ∉ [b] := by
          rw [List.mem_singleton]
          rintro rfl
          exact hnb hd
        rw [Store.body_eq_of_page (hp₁.other d hdb)]
        exact hk d (List.mem_cons_of_mem _ hd)
      · simp only [List.length_cons] at hfuel; omega
      · rintro _ s₂ ⟨hw₂, hp₂⟩
        refine ⟨hw₂, hp₁.trans hp₂ fun d hd => ?_⟩
        rw [List.mem_singleton.1 hd]
        exact hnb

end

end PinCore
