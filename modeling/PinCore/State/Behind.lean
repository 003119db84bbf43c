import PinCore.State.Commit

/-!
# A page behind the last one

The chains of owner and dictionary pages grow at their end.  One commit writes the metapage, links
the last page to a block that was never written and writes the new page there.
-/

namespace PinCore

/-- The page `b` was put behind `c` with the body `new`, the metapage became `p`, and every other
page stays. -/
structure PutBehind (s s' : Store) (p : Page) (c b : ℕ) (new : Body) : Prop where
  info : s'.page 0 = p
  body : s'.body b = new
  next : s'.next b = noBlock
  tail : s'.body c = s.body c
  link : s'.next c = b
  other : ∀ d, d ≠ 0 → d ≠ c → d ≠ b → s'.page d = s.page d

section

variable {s s' : Store} {m : MetaBody} {p q : Page} {c b d head : ℕ} {bs : List ℕ} {new : Body}

/-! ### The commit -/

theorem putBehind_nextOk (hp : PagesOk s) (hk : (s.body c).kind ≠ .info) (hcb : c < b)
    (hb : blockValid b) : ({ s.page c with next := b } : Page).NextOk := by
  have hblock : (s.page c).block = c := hp.block c
  refine .inr ⟨hb, ?_, fun hi => absurd hi hk, fun _ => ?_⟩
  · rw [hblock]
    exact Nat.ne_of_gt hcb
  · rw [hblock]
    exact hcb

theorem putBehind_ok (hp : PagesOk s) (hinfo : (metaPage m).Valid s.layout)
    (hk : (s.body c).kind ≠ .info) (hz : (s.body c).kind ≠ .zero) (hc : c ≠ 0) (hcb : c < b)
    (hb : blockValid b) (hlt : b < s.blocks) (hq : q.Valid s.layout) (hqb : q.block = b)
    (hqz : q.kind ≠ .zero) : CommitOk s [metaPage m, { s.page c with next := b }, q] := by
  have hblock : (s.page c).block = c := hp.block c
  have hold := hp.valid c
  have htail : ({ s.page c with next := b } : Page).Valid s.layout :=
    ⟨fun _ => putBehind_nextOk hp hk hcb hb, hold.block, hold.body, hold.len⟩
  refine commitOk_three ⟨hinfo, by simp, hp.pos⟩ ⟨htail, hz, ?_⟩ ⟨hq, hqz, ?_⟩ ?_ ?_ ?_
  · rw [hblock]
    exact hp.lt_blocks hz
  · rw [hqb]
    exact hlt
  · rw [hblock]
    exact hc.symm
  · rw [hqb]
    exact hb.1.symm
  · rw [hblock, hqb]
    exact Nat.ne_of_lt hcb

theorem putBehind_of_committed (hp : PagesOk s)
    (hcm : Committed s s' [metaPage m, { s.page c with next := b }, q]) (hqb : q.block = b)
    (hqn : q.next = noBlock) : PutBehind s s' (metaPage m) c b q.body := by
  obtain ⟨hinfo, htail, hnew, hother⟩ := hcm.three
  change s'.page (s.page c).block = _ at htail
  change ∀ d, d ≠ 0 → d ≠ (s.page c).block → _ at hother
  rw [hp.block] at htail hother
  rw [hqb] at hnew hother
  refine ⟨hinfo, ?_, ?_, ?_, ?_, hother⟩
  · rw [Store.body, hnew]; rfl
  · rw [Store.next, hnew]; exact hqn
  · rw [Store.body, htail]; rfl
  · rw [Store.next, htail]; rfl

/-- The reserved payloads and the links stay closed. -/
theorem putBehind_closed (hcm : Committed s s' [metaPage m, { s.page c with next := b }, q])
    (hc : ClosedOk s) (hz : (s.body c).kind ≠ .zero) (hqb : q.block = b) (hqz : q.kind ≠ .zero)
    (hq : Links s' q) : ClosedOk s' := by
  have hkinds : ∀ x ∈ [metaPage m, { s.page c with next := b }, q], x.kind ≠ .zero := by
    simp only [List.mem_cons, List.not_mem_nil, or_false, forall_eq_or_imp, forall_eq]
    exact ⟨by simp, hz, hqz⟩
  have hold := (hc.links hz).keeps (hcm.keepsWritten hkinds)
  refine hcm.closed hc hkinds ?_
  simp only [List.mem_cons, List.not_mem_nil, or_false, forall_eq_or_imp, forall_eq]
  refine ⟨metaPage_links m, ⟨.inr ?_, hold.payload⟩, hq⟩
  change (s'.body b).kind ≠ .zero
  rw [← hqb, hcm.body_mem (p := q) (by simp)]
  exact hqz

/-! ### The pages after it -/

namespace PutBehind

theorem body_eq (h : PutBehind s s' p c b new) (hd : d ≠ 0) (hdb : d ≠ b) :
    s'.body d = s.body d := by
  by_cases hdc : d = c
  · rw [hdc, h.tail]
  · exact Store.body_eq_of_page (h.other d hd hdc hdb)

theorem next_eq (h : PutBehind s s' p c b new) (hd : d ≠ 0) (hdc : d ≠ c) (hdb : d ≠ b) :
    s'.next d = s.next d := by
  rw [Store.next, h.other d hd hdc hdb]
  rfl

theorem linked (h : PutBehind s s' p c b new) (hl : Linked s.next noBlock head bs) (hne : bs ≠ [])
    (ht : c = lastD noBlock bs) (hbs : ∀ d ∈ bs, d ≠ 0 ∧ d ≠ b) (hb : b ≠ noBlock) :
    Linked s'.next noBlock head (bs ++ [b]) := by
  refine hl.snoc hne (fun d hd hdl => ?_) ?_ hb h.next
  · exact h.next_eq (hbs d hd).1 (by rw [ht]; exact hdl) (hbs d hd).2
  · rw [← ht]
    exact h.link

/-- Only the last page had no link yet. -/
theorem next_kept (h : PutBehind s s' p c b new) (hc : s.next c = noBlock) (hd : d ≠ 0)
    (hdb : d ≠ b) (hne : s.next d ≠ noBlock) : s'.next d = s.next d := by
  refine h.next_eq hd ?_ hdb
  rintro rfl
  exact hne hc

end PutBehind

end

end PinCore
