import Mathlib.Data.List.Nodup
import PinCore.State.Loads

/-!
# Commits

The effect of one durable step on a store that satisfies the invariant: which pages it changes,
and the rules of `commit`, `allocate` and the metapage that the writers' proofs use.
-/

namespace PinCore

open Prog

/-! ### Writing pages -/

/-- The image of a page as the store keeps it. -/
def Page.stored (p : Page) : Page := { p with initializes := false }

namespace Store

variable {s : Store} {p q : Page} {b : ℕ}

theorem write_page_self : (s.write p).page p.block = p.stored := if_pos rfl

theorem write_page_of_ne (h : b ≠ p.block) : (s.write p).page b = s.page b := if_neg h

@[simp] theorem write_layout : (s.write p).layout = s.layout := rfl

@[simp] theorem write_blocks : (s.write p).blocks = s.blocks := rfl

/-- A page after a commit is one of the committed images or untouched. -/
theorem foldl_write_page (ps : List Page) (s : Store) (b : ℕ) :
    (∃ p ∈ ps, p.block = b ∧ (ps.foldl write s).page b = p.stored) ∨
      ((∀ p ∈ ps, p.block ≠ b) ∧ (ps.foldl write s).page b = s.page b) := by
  induction ps generalizing s with
  | nil => exact .inr ⟨fun _ h => absurd h List.not_mem_nil, rfl⟩
  | cons p ps ih =>
    rcases ih (s.write p) with ⟨q, hq, hb, he⟩ | ⟨hn, he⟩
    · exact .inl ⟨q, List.mem_cons_of_mem _ hq, hb, he⟩
    · by_cases hb : b = p.block
      · refine .inl ⟨p, List.mem_cons_self, hb.symm, ?_⟩
        rw [List.foldl_cons, he, hb, write_page_self]
      · refine .inr ⟨fun q hq => ?_, ?_⟩
        · rcases List.mem_cons.1 hq with rfl | hq
          · exact Ne.symm hb
          · exact hn q hq
        · rw [List.foldl_cons, he, write_page_of_ne hb]

theorem foldl_write_not_mem {ps : List Page} (h : ∀ p ∈ ps, p.block ≠ b) :
    (ps.foldl write s).page b = s.page b := by
  rcases foldl_write_page ps s b with ⟨p, hp, hb, -⟩ | ⟨-, he⟩
  · exact absurd hb (h p hp)
  · exact he

theorem foldl_write_mem {ps : List Page} (hn : (ps.map (·.block)).Nodup) (hp : p ∈ ps) :
    (ps.foldl write s).page p.block = p.stored := by
  rcases foldl_write_page ps s p.block with ⟨q, hq, hb, he⟩ | ⟨h, -⟩
  · rw [he, List.inj_on_of_nodup_map hn hq hp hb]
  · exact absurd rfl (h p hp)

theorem foldl_write_layout (ps : List Page) (s : Store) : (ps.foldl write s).layout = s.layout := by
  induction ps generalizing s with
  | nil => rfl
  | cons p ps ih => exact ih (s.write p)

theorem foldl_write_blocks (ps : List Page) (s : Store) : (ps.foldl write s).blocks = s.blocks := by
  induction ps generalizing s with
  | nil => rfl
  | cons p ps ih => exact ih (s.write p)

end Store

/-- The store after the images `ps` were persisted. -/
structure Committed (s s' : Store) (ps : List Page) : Prop where
  layout : s'.layout = s.layout
  blocks : s'.blocks = s.blocks
  mem : ∀ p ∈ ps, s'.page p.block = p.stored
  other : ∀ b, (∀ p ∈ ps, p.block ≠ b) → s'.page b = s.page b

theorem committed_foldl {s : Store} {ps : List Page} (hn : (ps.map (·.block)).Nodup) :
    Committed s (ps.foldl Store.write s) ps where
  layout := Store.foldl_write_layout ps s
  blocks := Store.foldl_write_blocks ps s
  mem _ hp := Store.foldl_write_mem hn hp
  other _ h := Store.foldl_write_not_mem h

/-! ### Kinds only leave zero -/

/-- No page of `s` becomes unwritten in `s'`. -/
def KeepsWritten (s s' : Store) : Prop :=
  ∀ b, (s.body b).kind ≠ .zero → (s'.body b).kind ≠ .zero

/-- The links of a page lead to written blocks. -/
structure Links (s : Store) (p : Page) : Prop where
  next : p.next = noBlock ∨ (s.body p.next).kind ≠ .zero
  payload : ∀ o ∈ p.body.slots, o.dataHead = noBlock ∨ (s.body o.dataHead).kind ≠ .zero

section

variable {s s' : Store} {ps : List Page} {p q r : Page} {b : ℕ}

theorem Links.keeps (h : Links s p) (hw : KeepsWritten s s') : Links s' p :=
  ⟨h.next.imp_right (hw _), fun o ho => (h.payload o ho).imp_right (hw _)⟩

theorem ClosedOk.links (h : ClosedOk s) (hb : (s.body b).kind ≠ .zero) :
    Links s (s.page b) := by
  refine ⟨h.next b hb, fun o ho => ?_⟩
  obtain ⟨i, hi, rfl⟩ := List.getElem_of_mem ho
  exact h.payload ⟨b, i, _⟩ _ ⟨List.getElem?_eq_getElem hi, rfl⟩

theorem metaPage_links (m : MetaBody) : Links s (metaPage m) :=
  ⟨.inl rfl, fun _ ho => absurd ho List.not_mem_nil⟩

theorem stored_valid {l : HeapLayout} (h : p.Valid l) : p.stored.Valid l :=
  ⟨h.next, h.block, h.body, h.len⟩

namespace Committed

theorem cases (h : Committed s s' ps) (b : ℕ) :
    (∃ p ∈ ps, p.block = b ∧ s'.page b = p.stored) ∨ s'.page b = s.page b := by
  by_cases hb : ∃ p ∈ ps, p.block = b
  · obtain ⟨p, hp, rfl⟩ := hb
    exact .inl ⟨p, hp, rfl, h.mem p hp⟩
  · exact .inr (h.other b fun p hp he => hb ⟨p, hp, he⟩)

theorem body_mem (h : Committed s s' ps) (hp : p ∈ ps) : s'.body p.block = p.body := by
  rw [Store.body, h.mem p hp]; rfl

theorem next_mem (h : Committed s s' ps) (hp : p ∈ ps) : s'.next p.block = p.next := by
  rw [Store.next, h.mem p hp]; rfl

theorem one (h : Committed s s' [p]) :
    s'.page p.block = p.stored ∧ ∀ b, b ≠ p.block → s'.page b = s.page b :=
  ⟨h.mem p (by simp), fun b hb => h.other b (by simpa using hb.symm)⟩

theorem two (h : Committed s s' [p, q]) :
    s'.page p.block = p.stored ∧ s'.page q.block = q.stored ∧
      ∀ b, b ≠ p.block → b ≠ q.block → s'.page b = s.page b :=
  ⟨h.mem p (by simp), h.mem q (by simp), fun b hp hq => h.other b (by
    simp only [List.mem_cons, List.not_mem_nil, or_false, forall_eq_or_imp, forall_eq]
    exact ⟨hp.symm, hq.symm⟩)⟩

theorem three (h : Committed s s' [p, q, r]) :
    s'.page p.block = p.stored ∧ s'.page q.block = q.stored ∧ s'.page r.block = r.stored ∧
      ∀ b, b ≠ p.block → b ≠ q.block → b ≠ r.block → s'.page b = s.page b :=
  ⟨h.mem p (by simp), h.mem q (by simp), h.mem r (by simp), fun b hp hq hr => h.other b (by
    simp only [List.mem_cons, List.not_mem_nil, or_false, forall_eq_or_imp, forall_eq]
    exact ⟨hp.symm, hq.symm, hr.symm⟩)⟩

/-- A commit leaves alone the kinds that neither the old nor the new images have. -/
theorem same {K : PageKind → Prop} (h : Committed s s' ps)
    (hK : ∀ p ∈ ps, ¬ K (s.body p.block).kind ∧ ¬ K p.kind) : Same K s s' := by
  refine ⟨h.layout, fun b hb => ?_⟩
  rcases h.cases b with ⟨p, hp, rfl, he⟩ | he
  · rw [h.body_mem hp] at hb
    exact absurd hb (not_or.2 (hK p hp))
  · exact he

theorem same_one {K : PageKind → Prop} (h : Committed s s' [p]) {k : PageKind}
    (hp : (s.body p.block).kind = k) (hK : ¬ K k ∧ ¬ K p.kind) : Same K s s' :=
  h.same (by subst hp; simpa using hK)

theorem same_two {K : PageKind → Prop} (h : Committed s s' [p, q]) {k k' : PageKind}
    (hp : (s.body p.block).kind = k) (hq : (s.body q.block).kind = k')
    (hK : ¬ K k ∧ ¬ K p.kind ∧ ¬ K k' ∧ ¬ K q.kind) : Same K s s' := by
  refine h.same ?_
  subst hp hq
  simp only [List.mem_cons, List.not_mem_nil, or_false, forall_eq_or_imp, forall_eq]
  exact ⟨⟨hK.1, hK.2.1⟩, hK.2.2⟩

theorem same_three {K : PageKind → Prop} (h : Committed s s' [p, q, r]) {k k' k'' : PageKind}
    (hp : (s.body p.block).kind = k) (hq : (s.body q.block).kind = k')
    (hr : (s.body r.block).kind = k'')
    (hK : ¬ K k ∧ ¬ K p.kind ∧ ¬ K k' ∧ ¬ K q.kind ∧ ¬ K k'' ∧ ¬ K r.kind) : Same K s s' := by
  refine h.same ?_
  subst hp hq hr
  simp only [List.mem_cons, List.not_mem_nil, or_false, forall_eq_or_imp, forall_eq]
  exact ⟨⟨hK.1, hK.2.1⟩, ⟨hK.2.2.1, hK.2.2.2.1⟩, hK.2.2.2.2⟩

theorem keepsWritten (h : Committed s s' ps) (hz : ∀ p ∈ ps, p.kind ≠ .zero) :
    KeepsWritten s s' := by
  intro b hb
  rcases h.cases b with ⟨p, hp, rfl, -⟩ | he
  · rw [h.body_mem hp]; exact hz p hp
  · rw [Store.body, he]; exact hb

theorem closed (h : Committed s s' ps) (hc : ClosedOk s) (hz : ∀ p ∈ ps, p.kind ≠ .zero)
    (hl : ∀ p ∈ ps, Links s' p) : ClosedOk s' := by
  have key : ∀ b, (s'.body b).kind ≠ .zero → Links s' (s'.page b) := by
    intro b hb
    rcases h.cases b with ⟨p, hp, rfl, he⟩ | he
    · rw [he]; exact ⟨(hl p hp).next, (hl p hp).payload⟩
    · rw [he]
      refine (hc.links ?_).keeps (h.keepsWritten hz)
      rw [Store.body, he] at hb
      exact hb
  refine ⟨fun b hb => (key b hb).next, fun r o ho => ?_⟩
  exact (key r.page (by rw [ho.kind]; simp)).payload o ho.mem

theorem closed_two (h : Committed s s' [p, q]) (hc : ClosedOk s) (hk : p.kind ≠ .zero)
    (hk' : q.kind ≠ .zero) (hp : Links s' p) (hq : Links s' q) : ClosedOk s' :=
  h.closed hc (by simpa using ⟨hk, hk'⟩) (by simpa using ⟨hp, hq⟩)

theorem pages (h : Committed s s' ps) (hp : PagesOk s) (hc : CommitOk s ps) : PagesOk s' where
  pos := by rw [h.blocks]; exact hp.pos
  le := by rw [h.blocks]; exact hp.le
  block b := by
    rcases h.cases b with ⟨p, -, hb, he⟩ | he
    · rw [he]; exact hb
    · rw [he]; exact hp.block b
  valid b := by
    rw [h.layout]
    rcases h.cases b with ⟨p, hm, -, he⟩ | he
    · rw [he]; exact stored_valid (hc.2.2.1 p hm).1
    · rw [he]; exact hp.valid b
  fresh b hb := by
    rw [h.blocks] at hb
    rcases h.cases b with ⟨p, hm, rfl, -⟩ | he
    · have := (hc.2.2.1 p hm).2.2
      omega
    · rw [he]; exact hp.fresh b hb

end Committed

theorem ClosedOk.same_page (h : ClosedOk s) (hp : s'.page = s.page) : ClosedOk s' := by
  have hb : s'.body = s.body := by funext b; rw [Store.body, hp]; rfl
  have hn : s'.next = s.next := by funext b; rw [Store.next, hp]; rfl
  refine ⟨fun b => ?_, fun r o ho => ?_⟩
  · rw [hb, hn]; exact h.next b
  · rw [hb]
    refine h.payload r o ⟨?_, ho.2⟩
    rw [← hb]; exact ho.1

end

/-! ### Rules of the durable steps -/

section

variable {E : Error → Prop} {C : Store → Prop} {s : Store}

theorem commit_spec {ps : List Page} (h : CommitOk s ps) (hC : ∀ s', Committed s s' ps → C s') :
    Spec E C s (commit ps) fun _ s' => Committed s s' ps := by
  have hs := committed_foldl (s := s) h.2.2.2
  refine Spec.step ?_
  rw [if_pos h]
  exact ⟨hC _ hs, hs⟩

theorem removeOwners_spec {p : Page} (hk : p.kind = .owners) (h : CommitOk s [p])
    (hC : ∀ s', Committed s s' [p] → C s') :
    Spec E C s (removeOwners p) fun _ s' => Committed s s' [p] := by
  have hs := committed_foldl (s := s) h.2.2.2
  refine Spec.step ?_
  rw [if_pos ⟨hk, h⟩]
  exact ⟨hC _ hs, hs⟩

theorem grow_page (hp : PagesOk s) : s.grow.page = s.page := by
  funext b
  simp only [Store.grow]
  split_ifs with h
  · subst h; exact (hp.fresh _ (Nat.le_refl _)).symm
  · rfl

theorem same_grow (hp : PagesOk s) (K : PageKind → Prop) : Same K s s.grow :=
  ⟨rfl, fun b _ => by rw [grow_page hp]⟩

theorem PagesOk.grow (hp : PagesOk s) (hlt : s.blocks < noBlock) : PagesOk s.grow where
  pos := Nat.succ_pos _
  le := hlt
  block b := by rw [grow_page hp]; exact hp.block b
  valid b := by rw [grow_page hp]; exact hp.valid b
  fresh b hb := by
    rw [grow_page hp]
    exact hp.fresh b (Nat.le_of_succ_le hb)

theorem WF.grow {strong : Prop} {m : MetaBody} (h : WF strong s m) (hlt : s.blocks < noBlock) :
    WF strong s.grow m where
  pages := h.pages.grow hlt
  info := by rw [grow_page h.pages]; exact h.info
  owners := h.owners.imp fun _ ho => ho.same (same_grow h.pages _)
  dict := h.dict.imp fun _ hd => hd.same (same_grow h.pages _)
  chains := h.chains.same (same_grow h.pages _)
  refs := h.refs.same (same_grow h.pages _) fun r =>
    (Store.known_same (same_grow h.pages _)).2
  direct := h.direct.same (same_grow h.pages _)
  journal := h.journal.same (same_grow h.pages _)
  free := h.free.same (same_grow h.pages _)
  closed := h.closed.same_page (grow_page h.pages)
  grouped := h.grouped.same (same_grow h.pages _)

theorem Shows.grow {V : View} (hp : PagesOk s) (h : Shows s V) : Shows s.grow V :=
  h.same (same_grow hp _)

/-- Allocation extends the relation by one zero block, or the block space is used up. -/
theorem allocate_spec' (hE : noBlock ≤ s.blocks → E .host) (hC : s.blocks < noBlock → C s.grow) :
    Spec E C s allocate fun b s' => b = s.blocks ∧ s' = s.grow ∧ s.blocks < noBlock := by
  refine (Spec.reading blocks_returns).bind fun n s₁ h => ?_
  obtain ⟨rfl, rfl⟩ := h
  refine Spec.bind (Q := fun b s' => b = s₁.blocks ∧ s' = s₁.grow ∧ s₁.blocks < noBlock) ?_ ?_
  · refine Spec.step ?_
    by_cases hlt : s₁.blocks < noBlock
    · rw [if_pos hlt]; exact ⟨hC hlt, rfl, rfl, hlt⟩
    · rw [if_neg hlt]; exact hE (Nat.le_of_not_lt hlt)
  · rintro b s₂ ⟨rfl, rfl, hlt⟩
    have hb : s₁.blocks = s₁.blocks ∧ s₁.blocks ≠ noBlock := ⟨rfl, by omega⟩
    refine (Spec.ensure hb).bind fun _ s₃ h => ?_
    subst h
    exact Spec.pure ⟨rfl, rfl, hlt⟩

theorem allocate_spec (hE : E .host) (hC : s.blocks < noBlock → C s.grow) :
    Spec E C s allocate fun b s' => b = s.blocks ∧ s' = s.grow ∧ s.blocks < noBlock :=
  allocate_spec' (fun _ => hE) hC

end

section

variable {s : Store} {m : MetaBody} {strong : Prop}

theorem WF.kind_zero (h : WF strong s m) : (s.body 0).kind = .info := by
  rw [h.body_zero]; rfl

/-- A page of another kind than the metapage is not block zero. -/
theorem WF.ne_zero (h : WF strong s m) {b : ℕ} (hk : (s.body b).kind ≠ .info) : b ≠ 0 := by
  rintro rfl; exact hk h.kind_zero

theorem commitOk_one {p : Page} (hv : p.Valid s.layout) (hz : p.kind ≠ .zero)
    (hb : p.block < s.blocks) : CommitOk s [p] :=
  ⟨by simp, by simp [maxWalPages], by simpa using ⟨hv, hz, hb⟩, by simp⟩

theorem commitOk_two {p q : Page} (hp : p.Valid s.layout ∧ p.kind ≠ .zero ∧ p.block < s.blocks)
    (hq : q.Valid s.layout ∧ q.kind ≠ .zero ∧ q.block < s.blocks) (hne : p.block ≠ q.block) :
    CommitOk s [p, q] := by
  refine ⟨by simp, by simp [maxWalPages], ?_, by simpa using hne⟩
  simp only [List.mem_cons, List.not_mem_nil, or_false, forall_eq_or_imp, forall_eq]
  exact ⟨hp, hq⟩

theorem commitOk_three {p q r : Page}
    (hp : p.Valid s.layout ∧ p.kind ≠ .zero ∧ p.block < s.blocks)
    (hq : q.Valid s.layout ∧ q.kind ≠ .zero ∧ q.block < s.blocks)
    (hr : r.Valid s.layout ∧ r.kind ≠ .zero ∧ r.block < s.blocks)
    (h₁ : p.block ≠ q.block) (h₂ : p.block ≠ r.block) (h₃ : q.block ≠ r.block) :
    CommitOk s [p, q, r] := by
  refine ⟨by simp, by simp [maxWalPages], ?_, by simp [h₁, h₂, h₃]⟩
  simp only [List.mem_cons, List.not_mem_nil, or_false, forall_eq_or_imp, forall_eq]
  exact ⟨hp, hq, hr⟩

end

end PinCore
