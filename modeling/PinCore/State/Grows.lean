import PinCore.Lib.History
import PinCore.State.Commit

/-!
# What insertions preserve

A reader that keeps a page, a chain or a dictionary entry while insertions go on relies on what
every durable step of an insertion preserves: owners and their settled records, the links behind a
page, the postings of a page as a first part of its later postings, and the state of an entry as far
as it was fixed.  Nor does a step touch the fragments of another document.  `Grows` states that, and
it is a preorder.
-/

namespace PinCore

open Prog

/-- What an insertion leaves of a dictionary entry: its term and first owner, an inline second
owner, which it may move to a chain, and the head of a chain. -/
structure EntryGrows (e e' : Entry) : Prop where
  term : e'.term = e.term
  first : e'.first = e.first
  inline : e.inline = 1 →
    e'.second = e.second ∧ (e'.inline = 1 ∨ (e'.inline = 2 ∧ e'.head ≠ noBlock))
  chained : e.inline ≠ 1 → e.head ≠ noBlock →
    e'.head = e.head ∧ e'.inline = e.inline ∧ e'.second = e.second

theorem EntryGrows.refl (e : Entry) : EntryGrows e e :=
  ⟨rfl, rfl, fun h => ⟨rfl, .inl h⟩, fun _ _ => ⟨rfl, rfl, rfl⟩⟩

theorem EntryGrows.trans {e e' e'' : Entry} (h : EntryGrows e e') (h' : EntryGrows e' e'') :
    EntryGrows e e'' where
  term := h'.term.trans h.term
  first := h'.first.trans h.first
  inline hi := by
    obtain ⟨hs, h₁ | ⟨h₂, hh⟩⟩ := h.inline hi
    · obtain ⟨hs', hi'⟩ := h'.inline h₁
      exact ⟨hs'.trans hs, hi'⟩
    · obtain ⟨hh', hi', hs'⟩ := h'.chained (by rw [h₂]; decide) hh
      exact ⟨hs'.trans hs, .inr ⟨hi'.trans h₂, by rw [hh']; exact hh⟩⟩
  chained hi hh := by
    obtain ⟨h₁, h₂, h₃⟩ := h.chained hi hh
    obtain ⟨h₁', h₂', h₃'⟩ := h'.chained (by rw [h₂]; exact hi) (by rw [h₁]; exact hh)
    exact ⟨h₁'.trans h₁, h₂'.trans h₂, h₃'.trans h₃⟩

/-- A live record was published. -/
theorem OwnerSlot.settled_of_liveRoot {o : OwnerSlot} {x : RootTid} (h : o.liveRoot = some x) :
    o.Settled := by
  unfold OwnerSlot.liveRoot at h
  split_ifs at h with hl
  exact .inl hl.2

/-- Every posting page that links to a block below `n` is below `n` itself, and so are the owners
it lists. -/
def Bounded (n : ℕ) (s : Store) : Prop :=
  ∀ b t, (s.body b).postingTag = some t → s.next b ≠ noBlock → s.next b < n →
    b < n ∧ ∀ r ∈ (s.body b).postingRefs, r.page < n

/-- The store `s'` is `s` after some durable steps of insertions. -/
structure Grows (s s' : Store) : Prop where
  layout : s'.layout = s.layout
  blocks : s.blocks ≤ s'.blocks
  owns : ∀ r o, s.Owns r o → ∃ o', s'.Owns r o' ∧ (o.Settled → o' = o)
  owners : ∀ b, (s.body b).kind = .owners →
    (s'.body b).kind = .owners ∧ (s.next b ≠ noBlock → s'.next b = s.next b)
  dictionary : ∀ b, (s.body b).kind = .dictionary →
    (s'.body b).kind = .dictionary ∧ (s.next b ≠ noBlock → s'.next b = s.next b)
  entry : ∀ t e, s.entry t = some e → ∃ e', s'.entry t = some e' ∧ EntryGrows e e'
  posting : ∀ b t, (s.body b).postingTag = some t →
    (s'.body b).postingTag = some t ∧ (s.body b).postingRefs <+: (s'.body b).postingRefs ∧
      (s.next b ≠ noBlock → s'.page b = s.page b)
  posted : ∀ x r, Posted s x r → Posted s' x r
  fragment : ∀ b, (s.body b).kind = .fragment → s'.page b = s.page b
  bounded : ∀ n, n ≤ s.blocks → Bounded n s → Bounded n s'

namespace Grows

variable {s s' s'' : Store} {r : OwnerRef} {t : TermRef} {b : ℕ}

theorem refl (s : Store) : Grows s s where
  layout := rfl
  blocks := Nat.le_refl _
  owns _ o ho := ⟨o, ho, fun _ => rfl⟩
  owners _ hb := ⟨hb, fun _ => rfl⟩
  dictionary _ hb := ⟨hb, fun _ => rfl⟩
  entry _ e he := ⟨e, he, .refl e⟩
  posting _ _ ht := ⟨ht, List.prefix_refl _, fun _ => rfl⟩
  posted _ _ := id
  fragment _ _ := rfl
  bounded _ _ := id

theorem trans (h : Grows s s') (h' : Grows s' s'') : Grows s s'' where
  layout := h'.layout.trans h.layout
  blocks := Nat.le_trans h.blocks h'.blocks
  owns r o ho := by
    obtain ⟨o', ho', hl⟩ := h.owns r o ho
    obtain ⟨o'', ho'', hl'⟩ := h'.owns r o' ho'
    refine ⟨o'', ho'', fun hs => ?_⟩
    obtain rfl := hl hs
    exact hl' hs
  owners b hb := by
    obtain ⟨hk, hn⟩ := h.owners b hb
    obtain ⟨hk', hn'⟩ := h'.owners b hk
    exact ⟨hk', fun hne => (hn' (by rw [hn hne]; exact hne)).trans (hn hne)⟩
  dictionary b hb := by
    obtain ⟨hk, hn⟩ := h.dictionary b hb
    obtain ⟨hk', hn'⟩ := h'.dictionary b hk
    exact ⟨hk', fun hne => (hn' (by rw [hn hne]; exact hne)).trans (hn hne)⟩
  entry t e he := by
    obtain ⟨e', he', hg⟩ := h.entry t e he
    obtain ⟨e'', he'', hg'⟩ := h'.entry t e' he'
    exact ⟨e'', he'', hg.trans hg'⟩
  posting b t ht := by
    obtain ⟨ht', hr, hp⟩ := h.posting b t ht
    obtain ⟨ht'', hr', hp'⟩ := h'.posting b t ht'
    refine ⟨ht'', hr.trans hr', fun hne => ?_⟩
    have hpage := hp hne
    rw [← hpage]
    refine hp' ?_
    rw [Store.next, hpage]
    exact hne
  posted x r hp := h'.posted x r (h.posted x r hp)
  fragment b hk := by
    have hpage := h.fragment b hk
    exact (h'.fragment b (by rw [Store.body, hpage]; exact hk)).trans hpage
  bounded n hn hb := h'.bounded n (Nat.le_trans hn h.blocks) (h.bounded n hn hb)

theorem known (h : Grows s s') (hr : s.Known r) : s'.Known r :=
  let ⟨o, ho⟩ := hr
  let ⟨o', ho', _⟩ := h.owns r o ho
  ⟨o', ho'⟩

theorem rootOf (h : Grows s s') {x : RootTid} (hx : s.rootOf r = some x) :
    s'.rootOf r = some x := by
  obtain ⟨o, ho, hl⟩ := Store.rootOf_eq_some hx
  obtain ⟨o', ho', hs⟩ := h.owns r o ho
  rw [Store.rootOf_eq ho', hs (OwnerSlot.settled_of_liveRoot hl), hl]

theorem bounded_same {n : ℕ} (h : Same PageKind.IsIndex s s') (hb : Bounded n s) :
    Bounded n s' := by
  intro b t ht
  have hpage := h.symm.index_page ht
  rw [Store.next, ← hpage]
  rw [← Store.body_eq_of_page hpage] at ht ⊢
  exact hb b t ht

/-- A change of other pages than those of owners, terms and postings. -/
theorem of_same (h : Same (fun k => k.IsIndex ∨ k = .owners) s s') (hb : s.blocks ≤ s'.blocks)
    (hf : ∀ b, (s.body b).kind = .fragment → s'.page b = s.page b) : Grows s s' where
  layout := h.layout
  blocks := hb
  owns r o ho := ⟨o, ho.same (h.mono fun _ => .inr), fun _ => rfl⟩
  owners b hk := by
    have hK : (s.body b).kind.IsIndex ∨ (s.body b).kind = .owners := .inr hk
    exact ⟨by rw [h.body (.inl hK)]; exact hk, fun _ => h.next (.inl hK)⟩
  dictionary b hk := by
    have hK : (s.body b).kind.IsIndex ∨ (s.body b).kind = .owners := .inl (.inl hk)
    exact ⟨by rw [h.body (.inl hK)]; exact hk, fun _ => h.next (.inl hK)⟩
  entry t e he := by
    refine ⟨e, ?_, .refl e⟩
    rw [Store.entry_same (h.mono fun _ hk => .inl (.inl hk))]
    exact he
  posting b t ht := by
    have hp := Same.index_page (h.mono fun _ => .inl) ht
    rw [Store.body_eq_of_page hp]
    exact ⟨ht, List.prefix_refl _, fun _ => hp⟩
  posted x r hp := hp.same (h.mono fun _ => .inl)
  fragment := hf
  bounded n _ := bounded_same (h.mono fun _ => .inl)

theorem grow (hp : PagesOk s) : Grows s s.grow :=
  of_same (same_grow hp _) (Nat.le_succ _) fun b _ => congrFun (grow_page hp) b

/-- A change of owner pages that keeps the owners and their links. -/
theorem of_owners (h : Same (fun k => k.IsIndex ∨ k = .fragment) s s') (hb : s.blocks ≤ s'.blocks)
    (ho : ∀ r o, s.Owns r o → ∃ o', s'.Owns r o' ∧ (o.Settled → o' = o))
    (hl : ∀ b, (s.body b).kind = .owners →
      (s'.body b).kind = .owners ∧ (s.next b ≠ noBlock → s'.next b = s.next b)) :
    Grows s s' where
  layout := h.layout
  blocks := hb
  owns := ho
  owners := hl
  dictionary b hk := by
    have hK : (s.body b).kind.IsIndex ∨ (s.body b).kind = .fragment := .inl (.inl hk)
    exact ⟨by rw [h.body (.inl hK)]; exact hk, fun _ => h.next (.inl hK)⟩
  entry t e he := by
    refine ⟨e, ?_, .refl e⟩
    rw [Store.entry_same (h.mono fun _ hk => .inl (.inl hk))]
    exact he
  posting b t ht := by
    have hp := Same.index_page (h.mono fun _ => .inl) ht
    rw [Store.body_eq_of_page hp]
    exact ⟨ht, List.prefix_refl _, fun _ => hp⟩
  posted x r hp := hp.same (h.mono fun _ => .inl)
  fragment b hk := h.page b (.inl (.inr hk))
  bounded n _ := bounded_same (h.mono fun _ => .inl)

/-- A change of dictionary and posting pages that keeps what was there. -/
theorem of_index (h : Same (fun k => k = .owners ∨ k = .fragment) s s') (hb : s.blocks ≤ s'.blocks)
    (hd : ∀ b, (s.body b).kind = .dictionary →
      (s'.body b).kind = .dictionary ∧ (s.next b ≠ noBlock → s'.next b = s.next b))
    (he : ∀ t e, s.entry t = some e → ∃ e', s'.entry t = some e' ∧ EntryGrows e e')
    (hp : ∀ b t, (s.body b).postingTag = some t →
      (s'.body b).postingTag = some t ∧ (s.body b).postingRefs <+: (s'.body b).postingRefs ∧
        (s.next b ≠ noBlock → s'.page b = s.page b))
    (hx : ∀ x r, Posted s x r → Posted s' x r)
    (hn : ∀ n, n ≤ s.blocks → Bounded n s → Bounded n s') : Grows s s' where
  layout := h.layout
  blocks := hb
  owns r o ho := ⟨o, ho.same (h.mono fun _ => .inl), fun _ => rfl⟩
  owners b hk := ⟨by rw [h.body (.inl (.inl hk))]; exact hk, fun _ => h.next (.inl (.inl hk))⟩
  dictionary := hd
  entry := he
  posting := hp
  posted := hx
  fragment b hk := h.page b (.inl (.inr hk))
  bounded := hn

end Grows

/-! ### Rules of the durable steps -/

section

variable {E : Error → Prop} {C : Store → Prop} {T : Store → Store → Prop} {s : Store}

theorem commit_along {ps : List Page} (h : CommitOk s ps)
    (hC : ∀ s', Committed s s' ps → T s s' ∧ C s') :
    SpecAlong E C T s (commit ps) fun _ s' => Committed s s' ps := by
  have hs := committed_foldl (s := s) h.2.2.2
  refine SpecAlong.step ?_
  rw [if_pos h]
  exact ⟨(hC _ hs).1, (hC _ hs).2, hs⟩

theorem allocate_along (hE : E .host) (hC : s.blocks < noBlock → T s s.grow ∧ C s.grow) :
    SpecAlong E C T s allocate fun b s' => b = s.blocks ∧ s' = s.grow ∧ s.blocks < noBlock := by
  refine ⟨allocate_spec hE fun hlt => (hC hlt).2, ?_⟩
  refine Along.reading_bind blocks_returns ?_
  rintro _ rfl
  refine Along.bind (Along.step fun a s' hs => ?_) fun b s' _ => .ensure_bind fun _ => .pure
  by_cases hlt : s.blocks < noBlock
  · rw [if_pos hlt] at hs
    cases hs
    exact (hC hlt).1
  · rw [if_neg hlt] at hs
    cases hs

end

end PinCore
