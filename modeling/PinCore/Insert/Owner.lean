import PinCore.Mutable.Writer
import PinCore.State.Behind
import PinCore.State.Grows

/-!
# Owner slots

Reserving the slot of a new document and moving it through its publication states.  Both change
owner pages and the owner fields of the metapage only.
-/

namespace PinCore

open Prog

/-- Errors of a host or counter that ran out: the block space, or the incarnation space. -/
def Exhausted (e : Error) : Prop := e = .host ∨ e = .limit "incarnation space"

/-- The invariant holds and the live documents are `V`. -/
def Good (strong : Prop) (V : View) (s : Store) : Prop := ∃ m, WF strong s m ∧ Shows s V

/-- The kinds that owner changes leave alone. -/
def PageKind.NotOwner (k : PageKind) : Prop := k ≠ .owners ∧ k ≠ .zero ∧ k ≠ .info

instance (k : PageKind) : Decidable k.NotOwner := inferInstanceAs (Decidable (_ ∧ _))

/-! ### Changes of owner pages -/

section

variable {strong strong' : Prop} {s s' : Store} {m : MetaBody} {V : View}

theorem isIndex_notOwner {k : PageKind} (h : k.IsIndex) : k.NotOwner := by
  rcases h with rfl | rfl | rfl | rfl <;> exact ⟨by simp, by simp, by simp⟩

/-- Pages of the postings and fragments are kept by a change of owner pages. -/
theorem kept_notOwner {k : PageKind} (h : k.IsIndex ∨ k = .fragment) : k.NotOwner := by
  rcases h with h | rfl
  · exact isIndex_notOwner h
  · decide

/-- The parts that do not read owner pages carry over a change of the owner pages. -/
theorem WF.of_owners (h : WF strong s m) (head tail incarnation : ℕ) (hp : PagesOk s')
    (hi : s'.page 0 = metaPage
      { m with ownerHead := head, ownerTail := tail, incarnation := incarnation })
    (ho : ∃ bs, OwnersOk s' head tail incarnation bs) (hs : Same PageKind.NotOwner s s')
    (hk : ∀ r, s.Known r → s'.Known r) (hd : DirectOk strong' s') (hc : ClosedOk s') :
    WF strong' s' { m with ownerHead := head, ownerTail := tail, incarnation := incarnation } where
  pages := hp
  info := hi
  owners := ho
  dict := h.dict.imp fun _ hd => hd.same (hs.mono fun _ hk => isIndex_notOwner (.inl hk))
  chains := h.chains.same (hs.mono fun _ hk => isIndex_notOwner hk)
  refs := h.refs.same (hs.mono fun _ hk => hk.elim isIndex_notOwner
    (by rintro rfl; exact ⟨by simp, by simp, by simp⟩)) hk
  direct := hd
  journal := h.journal.same (hs.mono fun _ hk => isIndex_notOwner hk)
  free := h.free.same (hs.mono fun _ hk => by subst hk; exact ⟨by simp, by simp, by simp⟩)
  closed := hc
  grouped := h.grouped.same (hs.mono fun _ hk => by subst hk; exact ⟨by simp, by simp, by simp⟩)

theorem Shows.of_owners (hv : Shows s V) (hr : ∀ r, s'.rootOf r = s.rootOf r)
    (hs : Same PageKind.NotOwner s s')
    (ho : ∀ r o, s'.Owns r o → o.Settled → s.Owns r o) : Shows s' V where
  sorted := hv.sorted
  live r x := by rw [hr]; exact hv.live r x
  posted v hm x := (posted_same (hs.mono fun _ hk => isIndex_notOwner hk)).trans
    (hv.posted v hm x)
  closed r o hown hset := hv.closed r o (ho r o hown hset) hset

theorem Posted.known (hr : RefsOk s) {x : Text} {r : OwnerRef} (hp : Posted s x r) :
    s.Known r := by
  obtain ⟨t, e, bs, he, -, -, hmem⟩ := hp
  rcases List.mem_cons.1 hmem with rfl | hmem
  · exact hr.first t e he
  · rcases List.mem_append.1 hmem with hmem | hmem
    · unfold Entry.inlineRefs at hmem
      split_ifs at hmem
      · exact hr.second t e r he (Option.mem_toList.1 hmem)
      · exact absurd hmem List.not_mem_nil
    · obtain ⟨b, -, hb⟩ := mem_chainRefs.1 hmem
      exact hr.posting b r hb

/-- The records of direct pages name known owners. -/
theorem RefsOk.record (hr : RefsOk s) {b : ℕ} {x : DirectRecord} (hx : x ∈ (s.body b).records) :
    s.Known x.owner := by
  refine hr.posting b x.owner ?_
  revert hx
  cases s.body b <;> simp only [Body.records, List.not_mem_nil, false_imp_iff]
  exact fun hx => List.mem_map.2 ⟨x, hx, rfl⟩

/-- Direct coordinates follow the owners when roots stay and liveness does not come back. -/
theorem DirectOk.of_owners (hd : DirectOk strong s) (hr : RefsOk s)
    (hs : Same PageKind.NotOwner s s')
    (ho : ∀ b x o, x ∈ (s.body b).records → s.Owns x.owner o → ∃ o', s'.Owns x.owner o' ∧
      o'.root = o.root ∧ (o'.liveRoot ≠ none → o.liveRoot ≠ none) ∧
      (strong' → strong ∧ (o.liveRoot ≠ none → o'.liveRoot ≠ none))) :
    DirectOk strong' s' := by
  have hb : ∀ b x, x ∈ (s'.body b).records → x ∈ (s.body b).records := fun b x hx => by
    rwa [hs.body (.inr (by rw [records_kind hx]; exact ⟨by simp, by simp, by simp⟩))] at hx
  -- every record names an owner of the old store, which the change kept
  have key : ∀ b x o', x ∈ (s'.body b).records → s'.Owns x.owner o' → ∃ o, s.Owns x.owner o ∧
      o'.root = o.root ∧ (o'.liveRoot ≠ none → o.liveRoot ≠ none) ∧
      (strong' → strong ∧ (o.liveRoot ≠ none → o'.liveRoot ≠ none)) := by
    intro b x o' hx ho'
    obtain ⟨o, hown⟩ := hr.record (hb b x hx)
    obtain ⟨o'', ho'', h⟩ := ho b x o (hb b x hx) hown
    obtain rfl := ho'.unique ho''
    exact ⟨o, hown, h⟩
  refine ⟨fun b x o' hx ho' => ?_, fun b x o' hx ho' hl => ?_, fun hst b x o' hx ho' hl => ?_⟩
  · obtain ⟨o, hown, hroot, -⟩ := key b x o' hx ho'
    rw [hroot]; exact hd.root b x o (hb b x hx) hown
  · obtain ⟨o, hown, -, hlive, -⟩ := key b x o' hx ho'
    exact hd.live b x o (hb b x hx) hown (hlive hl)
  · obtain ⟨o, hown, -, -, hst'⟩ := key b x o' hx ho'
    exact (hst' hst).2 (hd.dead (hst' hst).1 b x o (hb b x hx) hown hl)

end

/-! ### Appending a slot -/

/-- The record of a freshly reserved slot. -/
def newSlot (incarnation : ℕ) (root : RootTid) (d : PreparedDocument) : OwnerSlot where
  incarnation := incarnation
  root := root
  publication := .allocated
  live := false
  tokens := d.tokenCount
  terms := d.termCount
  dataHead := noBlock
  dataBytes := d.bytes.length
  inline := if d.bytes.length ≤ inlineBytes then d.bytes else []

theorem newSlot_ok {l : HeapLayout} {incarnation : ℕ} {root : RootTid} (d : PreparedDocument)
    (hi : incarnation ≠ 0) (hr : root.Valid l) : (newSlot incarnation root d).Ok l where
  incarnation := hi
  root := hr
  live h := nomatch h
  tokens := d.tokens_le
  terms := length_directory_le _
  minBytes := d.length_bytes.1
  maxBytes := d.length_bytes.2
  dataHead := show noBlock ≠ 0 by decide
  inline h := by
    refine ⟨?_, rfl⟩
    simp only [newSlot] at h ⊢
    split_ifs at h ⊢ with hb
    · rfl
    · exact absurd rfl h
  payload h := by rcases h with h | h <;> cases h
  allocated _ := rfl

theorem newSlot_not_settled (incarnation : ℕ) (root : RootTid) (d : PreparedDocument) :
    ¬ (newSlot incarnation root d).Settled := by
  rintro (h | h) <;> cases h

theorem newSlot_inline_le (incarnation : ℕ) (root : RootTid) (d : PreparedDocument) :
    (newSlot incarnation root d).inline.length ≤ inlineBytes := by
  simp only [newSlot]
  split_ifs with h
  · exact h
  · exact Nat.zero_le _

theorem appendOwner_eq {p : Page} {slots : List OwnerSlot} (hs : p.slots = .ok slots)
    (incarnation : ℕ) (root : RootTid) (d : PreparedDocument) :
    p.appendOwner incarnation root d.tokenCount d.termCount d.bytes =
      .ok (if capacity < p.len + ownerBytes + (newSlot incarnation root d).inline.length then none
        else some (⟨p.block, slots.length, incarnation⟩,
          { p with body := .owners (slots ++ [newSlot incarnation root d]) })) := by
  have hlim : ¬ (maxDocumentTokens < d.tokenCount ∨ d.tokenCount < d.termCount ∨
      d.bytes.length < 16 ∨ maxDocumentBytes < d.bytes.length) := by
    have h₁ : d.tokenCount ≤ maxDocumentTokens := d.tokens_le
    have h₂ : d.termCount ≤ d.tokenCount := length_directory_le _
    have h₃ := d.length_bytes
    omega
  unfold Page.appendOwner
  rw [hs]
  refine (if_neg hlim).trans ?_
  by_cases hc : capacity < p.len + ownerBytes + (newSlot incarnation root d).inline.length
  · rw [if_pos hc]; exact if_pos hc
  · rw [if_neg hc]; exact if_neg hc

section

variable {s s' : Store} {b : ℕ} {o : OwnerSlot}

/-- The owners after one slot was appended to the page `b`. -/
theorem owns_append_slot (hb : (s'.body b).slots = (s.body b).slots ++ [o])
    (hother : ∀ c, c ≠ b → (s'.body c).slots = (s.body c).slots) (r : OwnerRef) (x : OwnerSlot) :
    s'.Owns r x ↔
      s.Owns r x ∨ (r = ⟨b, (s.body b).slots.length, o.incarnation⟩ ∧ x = o) := by
  unfold Store.Owns
  by_cases hr : r.page = b
  · rw [hr, hb]
    rcases Nat.lt_trichotomy r.slot (s.body b).slots.length with hlt | heq | hgt
    · rw [List.getElem?_append_left hlt]
      refine ⟨.inl, fun h => h.resolve_right ?_⟩
      rintro ⟨rfl, -⟩
      exact Nat.lt_irrefl _ hlt
    · rw [heq, List.getElem?_append_right (Nat.le_refl _)]
      simp only [Nat.sub_self, List.getElem?_cons_zero, Option.some.injEq]
      rw [List.getElem?_eq_none (Nat.le_refl _)]
      obtain ⟨page, slot, inc⟩ := r
      simp only at hr heq
      subst hr heq
      constructor
      · rintro ⟨rfl, rfl⟩; exact .inr ⟨rfl, rfl⟩
      · rintro (⟨h, -⟩ | ⟨h, rfl⟩)
        · cases h
        · cases h; exact ⟨rfl, rfl⟩
    · rw [List.getElem?_eq_none (by simp; omega), List.getElem?_eq_none (by omega)]
      constructor
      · rintro ⟨h, -⟩; cases h
      · rintro (⟨h, -⟩ | ⟨rfl, -⟩)
        · cases h
        · exact absurd hgt (Nat.lt_irrefl _)
  · rw [hother _ hr]
    refine ⟨.inl, fun h => h.resolve_right ?_⟩
    rintro ⟨rfl, -⟩
    exact hr rfl

variable {head tail incarnation : ℕ} {bs : List ℕ} {new : OwnerRef}

theorem OwnersOk.append_slot {head' tail' : ℕ} {bs' : List ℕ}
    (h : OwnersOk s head tail incarnation bs)
    (hown : ∀ r x, s'.Owns r x ↔ s.Owns r x ∨ (r = new ∧ x = o))
    (hnew : ∀ r x, s.Owns r x → r.posLt new) (hinc : new.incarnation = incarnation)
    (hl : Linked s'.next noBlock head' bs') (ht : tail' = lastD noBlock bs')
    (hm : ∀ c, c ∈ bs' ↔ (s'.body c).kind = .owners) (ha : bs'.Pairwise (· < ·)) :
    OwnersOk s' head' tail' (incarnation + 1) bs' where
  linked := hl
  tail_eq := ht
  mem_iff := hm
  ascending := ha
  ordered r r' x x' hr hr' hlt := by
    rcases (hown r x).1 hr with hr | ⟨rfl, -⟩
    · rcases (hown r' x').1 hr' with hr' | ⟨rfl, -⟩
      · exact h.ordered r r' x x' hr hr' hlt
      · rw [hinc]; exact h.below r x hr
    · rcases (hown r' x').1 hr' with hr' | ⟨rfl, -⟩
      · exact absurd (OwnerRef.posLt_trans hlt (hnew r' x' hr')) OwnerRef.posLt_irrefl
      · exact absurd hlt OwnerRef.posLt_irrefl
  below r x hr := by
    rcases (hown r x).1 hr with hr | ⟨rfl, -⟩
    · exact Nat.lt_succ_of_lt (h.below r x hr)
    · rw [hinc]; exact Nat.lt_succ_self _

/-- The newest slot of the store, listed under exactly the terms `xs`. -/
structure Reserved (s : Store) (owner : OwnerRef) (o : OwnerSlot) (xs : List Text) : Prop where
  owns : s.Owns owner o
  newest : ∀ r, s.Known r → r = owner ∨ r.Before owner
  posted : ∀ x, Posted s x owner ↔ x ∈ xs
  direct : ∀ b x, x ∈ (s.body b).records → x.owner ≠ owner

theorem append_owner {strong : Prop} {m : MetaBody} {V : View} {head' tail' : ℕ}
    {bs' : List ℕ} (h : WF strong s m) (hv : Shows s V)
    (hp : PagesOk s') (hi : s'.page 0 = metaPage
      { m with ownerHead := head', ownerTail := tail', incarnation := m.incarnation + 1 })
    (hs : Same PageKind.NotOwner s s') (hc : ClosedOk s')
    (hb : (s'.body b).slots = (s.body b).slots ++ [o])
    (hother : ∀ c, c ≠ b → (s'.body c).slots = (s.body c).slots)
    (ho : o.incarnation = m.incarnation) (hdead : o.liveRoot = none) (hset : ¬ o.Settled)
    (hpos : ∀ r x, s.Owns r x → r.posLt ⟨b, (s.body b).slots.length, m.incarnation⟩)
    (hl : Linked s'.next noBlock head' bs') (ht : tail' = lastD noBlock bs')
    (hm : ∀ c, c ∈ bs' ↔ (s'.body c).kind = .owners) (ha : bs'.Pairwise (· < ·))
    (hblocks : s'.blocks = s.blocks)
    (hkept : ∀ c, (s.body c).kind = .owners →
      (s'.body c).kind = .owners ∧ (s.next c ≠ noBlock → s'.next c = s.next c)) :
    Grows s s' ∧
      WF strong s'
        { m with ownerHead := head', ownerTail := tail', incarnation := m.incarnation + 1 } ∧
      Shows s' V ∧ Reserved s' ⟨b, (s.body b).slots.length, m.incarnation⟩ o [] := by
  obtain ⟨bs, hown₀⟩ := h.owners
  have hown := owns_append_slot hb hother
  rw [ho] at hown
  have hkeep : ∀ r x, s.Owns r x → s'.Owns r x := fun r x hr => (hown r x).2 (.inl hr)
  have hnot : ¬ s.Known ⟨b, (s.body b).slots.length, m.incarnation⟩ := fun ⟨x, hx⟩ =>
    OwnerRef.posLt_irrefl (hpos _ x hx)
  have hroot : ∀ r, s'.rootOf r = s.rootOf r := by
    intro r
    ext x
    constructor <;> intro hx <;> obtain ⟨y, hy, hlive⟩ := Store.rootOf_eq_some hx
    · rcases (hown r y).1 hy with hy | ⟨-, rfl⟩
      · rw [Store.rootOf_eq hy, hlive]
      · rw [hdead] at hlive; cases hlive
    · rw [Store.rootOf_eq (hkeep r y hy), hlive]
  refine ⟨?_, ?_, hv.of_owners hroot hs fun r x hx hxs => ?_, ?_, ?_, ?_, ?_⟩
  · refine .of_owners (hs.mono fun _ => kept_notOwner) (Nat.le_of_eq hblocks.symm)
      (fun r x hx => ⟨x, hkeep r x hx, fun _ => rfl⟩) hkept
  · refine h.of_owners head' tail' _ hp hi ⟨bs', hown₀.append_slot hown hpos rfl hl ht hm ha⟩ hs
      (fun r ⟨x, hx⟩ => ⟨x, hkeep r x hx⟩) ?_ hc
    exact h.direct.of_owners h.refs hs fun _ r x _ hx =>
      ⟨x, hkeep _ x hx, rfl, id, fun hst => ⟨hst, id⟩⟩
  · rcases (hown r x).1 hx with hx | ⟨-, rfl⟩
    · exact hx
    · exact absurd hxs hset
  · exact (hown _ _).2 (.inr ⟨rfl, rfl⟩)
  · rintro r ⟨x, hx⟩
    rcases (hown r x).1 hx with hx | ⟨rfl, -⟩
    · exact .inr ⟨hpos r x hx, hown₀.below r x hx⟩
    · exact .inl rfl
  · intro x
    refine ⟨fun hx => absurd (Posted.known (x := x) h.refs ?_) hnot,
      fun hx => absurd hx List.not_mem_nil⟩
    exact (posted_same (hs.mono fun _ hk => isIndex_notOwner hk)).1 hx
  · intro c x hx heq
    rw [hs.body (.inr (by rw [records_kind hx]; decide))] at hx
    exact hnot (heq ▸ h.refs.record hx)

end

/-! ### Reserving -/

section

variable {l : HeapLayout} {m : MetaBody}

theorem metaPage_reserve (h : m.Ok l) : (metaPage m).reserveIncarnation =
    if incarnationLimit ≤ m.incarnation + 1 then .error (.limit "incarnation space")
    else .ok (m.incarnation, metaPage { m with incarnation := m.incarnation + 1 }) := by
  change (if _ then _ else if _ then _ else _) = _
  rw [if_neg h.incarnation]
  rfl

/-- The metapage after a slot was reserved. -/
def MetaBody.reserved (m : MetaBody) (head tail : ℕ) : MetaBody :=
  { m with ownerHead := head, ownerTail := tail, incarnation := m.incarnation + 1 }

theorem MetaBody.Ok.reserved {head tail : ℕ} (h : m.Ok l) (hp : pairValid head tail) :
    (m.reserved head tail).Ok l where
  maxOffset := h.maxOffset
  incarnation := Nat.succ_ne_zero _
  owners := hp
  free := h.free
  journal := h.journal
  grouped := h.grouped
  ids := by
    obtain ⟨h₁, h₂, h₃, h₄⟩ := h.ids
    exact ⟨fun x hx => Nat.lt_succ_of_lt (h₁ x hx), fun x hx => Nat.lt_succ_of_lt (h₂ x hx),
      fun x hx => Nat.lt_succ_of_lt (h₃ x hx), fun x hx => Nat.lt_succ_of_lt (h₄ x hx)⟩
  refs := h.refs
  bucket := h.bucket

theorem ownersPage_valid {p : Page} {slots : List OwnerSlot} (hb : p.body = .owners slots)
    (h0 : p.block ≠ 0) (hn : p.NextOk) (ho : ∀ o ∈ slots, o.Ok l) (hlen : p.len ≤ capacity) :
    p.Valid l where
  next _ := hn
  block _ := by
    have hk : p.kind = .owners := by rw [Page.kind, hb]; rfl
    rw [hk]
    exact ⟨fun h => absurd h h0, fun h => nomatch h⟩
  body := by rw [hb]; exact ho
  len := hlen

theorem setNext_eq {p : Page} {next : ℕ} (h : { p with next }.NextOk) :
    p.setNext next = .ok { p with next } := if_pos h

theorem owners_new {b : ℕ} (h : blockValid b) :
    Page.owners b = .ok ⟨b, noBlock, .owners [], false⟩ := by
  refine if_neg (not_or.2 ⟨h.2, not_not.2 ⟨fun h0 => absurd h0 h.1, fun hk => nomatch hk⟩⟩)

/-- A fresh owner page has room for any slot. -/
theorem appendFresh_eq {b : ℕ} (incarnation : ℕ) (root : RootTid) (d : PreparedDocument) :
    appendFresh ⟨b, noBlock, .owners [], false⟩ incarnation root d =
      .ok (⟨b, 0, incarnation⟩,
        ⟨b, noBlock, .owners [newSlot incarnation root d], false⟩) := by
  have hroom : ¬ capacity < (Page.mk b noBlock (.owners []) false).len + ownerBytes +
      (newSlot incarnation root d).inline.length := by
    have := newSlot_inline_le incarnation root d
    have hlen : (Page.mk b noBlock (.owners []) false).len = ownerHeader := rfl
    rw [hlen]
    simp only [capacity, inlineBytes, ownerHeader, ownerBytes] at *
    omega
  unfold appendFresh
  rw [appendOwner_eq (p := ⟨b, noBlock, .owners [], false⟩) rfl, if_neg hroom]
  rfl

theorem freshOwners_valid {b : ℕ} {incarnation : ℕ} {root : RootTid} (d : PreparedDocument)
    (hb : b ≠ 0) (hi : incarnation ≠ 0) (hr : root.Valid l) :
    (Page.mk b noBlock (.owners [newSlot incarnation root d]) false).Valid l := by
  refine ownersPage_valid rfl hb (.inl rfl) ?_ ?_
  · intro o ho
    rw [List.mem_singleton.1 ho]
    exact newSlot_ok d hi hr
  · have := newSlot_inline_le incarnation root d
    have hlen : (Page.mk b noBlock (.owners [newSlot incarnation root d]) false).len =
      ownerHeader + 1 * ownerBytes + ((newSlot incarnation root d).inline.length + 0) := rfl
    rw [hlen]
    simp only [capacity, inlineBytes, ownerHeader, ownerBytes] at *
    omega

end

section

variable {strong : Prop} {s : Store} {m : MetaBody} {V : View} {root : RootTid}

/-- What a completed reservation leaves behind. -/
def ReservePost (strong : Prop) (V : View) (l : HeapLayout) (root : RootTid)
    (d : PreparedDocument) (x : OwnerRef × Page) (s : Store) : Prop :=
  s.layout = l ∧ ∃ m, x.2 = metaPage m ∧ WF strong s m ∧ Shows s V ∧
    Reserved s x.1 (newSlot x.1.incarnation root d) []

/-- The fresh page of the first slot on it. -/
def freshOwners (b incarnation : ℕ) (root : RootTid) (d : PreparedDocument) : Page :=
  ⟨b, noBlock, .owners [newSlot incarnation root d], false⟩

theorem links_owners {s' : Store} {p : Page} (slots : List OwnerSlot) {i : ℕ} {d : PreparedDocument}
    (hb : p.body = .owners (slots ++ [newSlot i root d]))
    (hn : p.next = noBlock ∨ (s'.body p.next).kind ≠ .zero)
    (ho : ∀ o ∈ slots, o.dataHead = noBlock ∨ (s'.body o.dataHead).kind ≠ .zero) :
    Links s' p := by
  refine ⟨hn, fun o hmem => ?_⟩
  rw [hb] at hmem
  rcases List.mem_append.1 hmem with h | h
  · exact ho o h
  · rw [List.mem_singleton.1 h]; exact .inl rfl

theorem zero_slots {b : ℕ} (hb : (s.body b).kind = .zero) : (s.body b).slots = [] := by
  revert hb; cases s.body b <;> simp [Body.kind, Body.slots]

/-- The first owner page of the index. -/
theorem reserve_first (h : WF strong s m) (hv : Shows s V) (hroot : root.Valid s.layout)
    (d : PreparedDocument) {b : ℕ} (hb : (s.body b).kind = .zero) (hlt : b < s.blocks) (h0 : b ≠ 0)
    (hhead : m.ownerHead = noBlock) :
    CommitOk s [metaPage (m.reserved b b), freshOwners b m.incarnation root d] ∧
      ∀ s', Committed s s' [metaPage (m.reserved b b), freshOwners b m.incarnation root d] →
        Grows s s' ∧ ReservePost strong V s.layout root d
          (⟨b, 0, m.incarnation⟩, metaPage (m.reserved b b)) s' := by
  obtain ⟨bs, ho⟩ := h.owners
  obtain rfl := ho.linked.head_eq_stop_iff.1 hhead
  have hbv : blockValid b := ⟨h0, by have := h.pages.le; omega⟩
  have hfk : (freshOwners b m.incarnation root d).kind = .owners := rfl
  have hc : CommitOk s [metaPage (m.reserved b b), freshOwners b m.incarnation root d] :=
    commitOk_two
      ⟨metaPage_valid (h.metaOk.reserved (.inr ⟨hbv, hbv, Nat.le_refl b⟩)), by simp, h.pages.pos⟩
      ⟨freshOwners_valid d h0 h.metaOk.incarnation hroot, by simp [hfk], hlt⟩ h0.symm
  refine ⟨hc, fun s' hcm => ?_⟩
  obtain ⟨hinfo, hpage, hother⟩ := hcm.two
  have hinfo' : s'.body 0 = .info (m.reserved b b) := hcm.body_mem (p := metaPage _) (by simp)
  have hbody : s'.body b = .owners [newSlot m.incarnation root d] :=
    hcm.body_mem (p := freshOwners b m.incarnation root d) (by simp)
  have hslots : ∀ c, c ≠ b → (s'.body c).slots = (s.body c).slots := by
    intro c hcb
    by_cases hc0 : c = 0
    · subst hc0; rw [h.body_zero, hinfo']; rfl
    · rw [Store.body_eq_of_page (hother c hc0 hcb)]
  have hsame : Same PageKind.NotOwner s s' :=
    hcm.same_two h.kind_zero hb ⟨by decide, by simp [PageKind.NotOwner], by decide,
      by simp [hfk, PageKind.NotOwner]⟩
  have hclosed : ClosedOk s' := hcm.closed_two h.closed (by simp) (by simp [hfk])
    (metaPage_links _) (links_owners [] rfl (.inl rfl) fun o ho =>
      absurd ho List.not_mem_nil)
  have hlinked : Linked s'.next noBlock b [b] :=
    Linked.singleton hbv.2 (hcm.next_mem (p := freshOwners b m.incarnation root d) (by simp))
  have hmem : ∀ c, c ∈ [b] ↔ (s'.body c).kind = .owners := by
    intro c
    rw [List.mem_singleton]
    constructor
    · rintro rfl; rw [hbody]; rfl
    · intro hk
      by_contra hcb
      have hc0 : c ≠ 0 := by rintro rfl; rw [hinfo'] at hk; cases hk
      rw [Store.body_eq_of_page (hother c hc0 hcb)] at hk
      exact absurd ((ho.mem_iff c).2 hk) List.not_mem_nil
  have := append_owner (b := b) h hv (hcm.pages h.pages hc) hinfo hsame hclosed
    (by rw [hbody, zero_slots hb]; rfl) hslots rfl rfl (newSlot_not_settled _ root d)
    (fun r x hr => absurd ((ho.mem_iff _).2 hr.kind) List.not_mem_nil) hlinked rfl hmem
    (List.pairwise_singleton _ _) hcm.blocks
    fun c hk => absurd ((ho.mem_iff c).2 hk) List.not_mem_nil
  rw [zero_slots hb] at this
  exact ⟨this.1, hcm.layout, m.reserved b b, rfl, this.2⟩

/-- Owners lie on the chain at or before its tail. -/
theorem OwnersOk.page_le {head tail incarnation : ℕ} {bs : List ℕ}
    (ho : OwnersOk s head tail incarnation bs) {r : OwnerRef} {o : OwnerSlot} (hr : s.Owns r o) :
    r.page ≤ tail := by
  have hmem := (ho.mem_iff r.page).2 hr.kind
  have hne := List.ne_nil_of_mem hmem
  rw [ho.tail_eq]
  have heq := eq_append_lastD noBlock hne
  rw [heq] at hmem
  have ha := ho.ascending
  rw [heq] at ha
  rcases List.mem_append.1 hmem with h | h
  · exact Nat.le_of_lt ((List.pairwise_append.1 ha).2.2 _ h _ (List.mem_singleton_self _))
  · exact Nat.le_of_eq (List.mem_singleton.1 h)

/-- Another slot on the last owner page. -/
theorem reserve_append (h : WF strong s m) (hv : Shows s V) (hroot : root.Valid s.layout)
    (d : PreparedDocument) {slots : List OwnerSlot}
    (hb : s.body m.ownerTail = .owners slots)
    (hroom : (s.page m.ownerTail).len + ownerBytes +
      (newSlot m.incarnation root d).inline.length ≤ capacity) :
    let p : Page := { s.page m.ownerTail with
      body := .owners (slots ++ [newSlot m.incarnation root d]) }
    CommitOk s [metaPage (m.reserved m.ownerHead m.ownerTail), p] ∧
      ∀ s', Committed s s' [metaPage (m.reserved m.ownerHead m.ownerTail), p] →
        Grows s s' ∧ ReservePost strong V s.layout root d
          (⟨m.ownerTail, slots.length, m.incarnation⟩,
            metaPage (m.reserved m.ownerHead m.ownerTail)) s' := by
  intro p
  obtain ⟨bs, ho⟩ := h.owners
  have hk : (s.body m.ownerTail).kind = .owners := by rw [hb]; rfl
  have h0 : m.ownerTail ≠ 0 := h.ne_zero (by rw [hk]; simp)
  have hpb : p.block = m.ownerTail := h.pages.block _
  have hpk : p.kind = .owners := rfl
  have hvalid : p.Valid s.layout := by
    refine ownersPage_valid rfl (hpb ▸ h0) ?_ ?_ ?_
    · have hn := (h.pages.valid m.ownerTail).next
        (by change (s.body m.ownerTail).kind ≠ _; rw [hk]; simp)
      refine hn.imp_right fun ⟨h₁, h₂, _, h₃⟩ => ⟨h₁, h₂, by simp [p, Page.kind, Body.kind], ?_⟩
      exact fun _ => h₃ (.inl hk)
    · intro o hmem
      rcases List.mem_append.1 hmem with hmem | hmem
      · have hok := h.pages.ok m.ownerTail
        rw [hb] at hok
        exact hok o hmem
      · rw [List.mem_singleton.1 hmem]
        exact newSlot_ok d h.metaOk.incarnation hroot
    · have hlen : (s.page m.ownerTail).len = ownerHeader + slots.length * ownerBytes +
          (slots.map fun o => o.inline.length).sum := by
        have hb' : (s.page m.ownerTail).body = .owners slots := hb
        rw [Page.len, hb']
      have hlen' : p.len = ownerHeader + (slots ++ [newSlot m.incarnation root d]).length *
          ownerBytes +
          ((slots ++ [newSlot m.incarnation root d]).map fun o => o.inline.length).sum := rfl
      rw [hlen']
      rw [hlen] at hroom
      simp only [List.length_append, List.length_singleton, List.map_append, List.sum_append,
        List.map_cons, List.map_nil, List.sum_cons, List.sum_nil] at *
      rw [Nat.add_mul]
      omega
  have hc : CommitOk s [metaPage (m.reserved m.ownerHead m.ownerTail), p] :=
    commitOk_two ⟨metaPage_valid (h.metaOk.reserved h.metaOk.owners), by simp, h.pages.pos⟩
      ⟨hvalid, by simp [hpk], by rw [hpb]; exact h.pages.lt_blocks (by rw [hk]; simp)⟩
      (by rw [hpb]; exact h0.symm)
  refine ⟨hc, fun s' hcm => ?_⟩
  obtain ⟨hinfo, hpage, hother⟩ := hcm.two
  rw [hpb] at hpage hother
  have hinfo' : s'.body 0 = .info (m.reserved m.ownerHead m.ownerTail) :=
    hcm.body_mem (p := metaPage _) (by simp)
  have hbody : s'.body m.ownerTail = .owners (slots ++ [newSlot m.incarnation root d]) := by
    rw [Store.body, hpage]; rfl
  -- the slots of all other pages stay, so the new slot is the last of all
  have hslots : ∀ c, c ≠ m.ownerTail → (s'.body c).slots = (s.body c).slots := by
    intro c hcb
    by_cases hc0 : c = 0
    · subst hc0; rw [h.body_zero, hinfo']; rfl
    · rw [Store.body_eq_of_page (hother c hc0 hcb)]
  have hnext : ∀ c, s'.next c = s.next c := by
    intro c
    by_cases hcb : c = m.ownerTail
    · subst hcb; rw [Store.next, hpage]; rfl
    · by_cases hc0 : c = 0
      · subst hc0
        rw [Store.next, Store.next, h.info, show s'.page 0 = _ from hinfo]
        rfl
      · rw [Store.next, hother c hc0 hcb]; rfl
  have hsame : Same PageKind.NotOwner s s' :=
    hcm.same_two h.kind_zero (hpb ▸ hk) ⟨by decide, by simp [PageKind.NotOwner], by decide,
      by simp [hpk, PageKind.NotOwner]⟩
  have hl := (h.closed.links (b := m.ownerTail) (by rw [hk]; simp)).keeps
    (hcm.keepsWritten fun p hp => (hc.2.2.1 p hp).2.1)
  have hclosed : ClosedOk s' := hcm.closed_two h.closed (by simp) (by simp [hpk])
    (metaPage_links _) (links_owners slots rfl hl.next fun o ho => hl.payload o (by
      have hb' : (s.page m.ownerTail).body = .owners slots := hb
      rw [hb']; exact ho))
  have hkind : ∀ c, (s'.body c).kind = .owners ↔ (s.body c).kind = .owners := by
    intro c
    by_cases hcb : c = m.ownerTail
    · subst hcb; rw [hbody, hb]; exact Iff.rfl
    · by_cases hc0 : c = 0
      · subst hc0; rw [hinfo', h.body_zero]; exact Iff.rfl
      · rw [Store.body_eq_of_page (hother c hc0 hcb)]
  have := append_owner (b := m.ownerTail) h hv (hcm.pages h.pages hc) hinfo hsame hclosed
    (by rw [hbody, hb]; rfl) hslots rfl rfl (newSlot_not_settled _ root d) ?_
    (ho.linked.congr fun b _ => hnext b) ho.tail_eq
    (fun c => (ho.mem_iff c).trans (hkind c).symm) ho.ascending hcm.blocks
    fun c hk => ⟨(hkind c).2 hk, fun _ => hnext c⟩
  · rw [hb] at this
    exact ⟨this.1, hcm.layout, m.reserved m.ownerHead m.ownerTail, rfl, this.2⟩
  · intro r x hr
    have hle := ho.page_le hr
    rcases Nat.lt_or_eq_of_le hle with hlt | heq
    · exact .inl hlt
    · refine .inr ⟨heq, ?_⟩
      have := hr.lt
      rwa [heq] at this

/-- A new owner page behind a full one. -/
theorem reserve_next (h : WF strong s m) (hv : Shows s V) (hroot : root.Valid s.layout)
    (d : PreparedDocument) {b : ℕ} (hb : (s.body b).kind = .zero) (hlt : b < s.blocks)
    (hlast : ∀ c, (s.body c).kind ≠ .zero → c < b) (hhead : m.ownerHead ≠ noBlock) :
    let p : Page := { s.page m.ownerTail with next := b }
    let ps := [metaPage (m.reserved m.ownerHead b), p, freshOwners b m.incarnation root d]
    p.NextOk ∧ pairValid m.ownerHead b ∧ CommitOk s ps ∧ ∀ s', Committed s s' ps →
      Grows s s' ∧ ReservePost strong V s.layout root d
        (⟨b, 0, m.incarnation⟩, metaPage (m.reserved m.ownerHead b)) s' := by
  intro p ps
  obtain ⟨bs, ho⟩ := h.owners
  have hne : bs ≠ [] := fun h => hhead (ho.linked.head_eq_stop_iff.2 h)
  have hk : (s.body m.ownerTail).kind = .owners :=
    (ho.mem_iff _).1 (by rw [ho.tail_eq]; exact lastD_mem noBlock hne)
  have hki : (s.body m.ownerTail).kind ≠ .info := hk.trans_ne (by decide)
  have hkz : (s.body m.ownerTail).kind ≠ .zero := hk.trans_ne (by decide)
  have hbt : m.ownerTail < b := hlast _ hkz
  have hb0 : b ≠ 0 := by omega
  have hbv : blockValid b := ⟨hb0, by have := h.pages.le; omega⟩
  have hheadk : (s.body m.ownerHead).kind = .owners := (ho.mem_iff _).1 (ho.linked.head_mem hhead)
  have hpair : pairValid m.ownerHead b := .inr ⟨h.pages.blockValid (by rw [hheadk]; simp)
    (by rw [hheadk]; simp), hbv, Nat.le_of_lt (hlast _ (by rw [hheadk]; simp))⟩
  have hfk : (freshOwners b m.incarnation root d).kind ≠ .zero := nofun
  have hc : CommitOk s ps := putBehind_ok h.pages (metaPage_valid (h.metaOk.reserved hpair)) hki
    hkz (h.ne_zero hki) hbt hbv hlt (freshOwners_valid d hb0 h.metaOk.incarnation hroot) rfl hfk
  refine ⟨putBehind_nextOk h.pages hki hbt hbv, hpair, hc, fun s' hcm => ?_⟩
  have hput := putBehind_of_committed h.pages hcm rfl rfl
  have hsame : Same PageKind.NotOwner s s' := by
    refine hcm.same_three h.kind_zero (?_ : _ = PageKind.owners) hb ?_
    · change (s.body (s.page m.ownerTail).block).kind = _
      rw [h.pages.block]
      exact hk
    · rw [metaPage_kind, show p.kind = .owners from hk,
        show (freshOwners b m.incarnation root d).kind = .owners from rfl]
      decide
  -- the metapage has no owner slots, before and after
  have hinfo' : s'.body 0 = .info (m.reserved m.ownerHead b) := by
    rw [Store.body, hput.info]
    rfl
  have hslots : ∀ c, c ≠ b → (s'.body c).slots = (s.body c).slots := by
    intro c hcb
    by_cases hc0 : c = 0
    · rw [hc0, h.body_zero, hinfo']; rfl
    · rw [hput.body_eq hc0 hcb]
  have hkind : ∀ c, c ≠ b → ((s'.body c).kind = .owners ↔ (s.body c).kind = .owners) := by
    intro c hcb
    by_cases hc0 : c = 0
    · rw [hc0, hinfo', h.body_zero]; exact Iff.rfl
    · rw [hput.body_eq hc0 hcb]
  have hclosed : ClosedOk s' := putBehind_closed hcm h.closed hkz rfl hfk
    (links_owners [] rfl (.inl rfl) fun o ho => absurd ho List.not_mem_nil)
  have hbefore : ∀ c, (s.body c).kind = .owners → c ≠ 0 ∧ c ≠ b := fun c hck =>
    ⟨h.ne_zero (hck.trans_ne (by decide)), Nat.ne_of_lt (hlast c (hck.trans_ne (by decide)))⟩
  have hlinked : Linked s'.next noBlock m.ownerHead (bs ++ [b]) :=
    hput.linked ho.linked hne ho.tail_eq (fun c hc => hbefore c ((ho.mem_iff c).1 hc)) hbv.2
  have hmem : ∀ c, c ∈ bs ++ [b] ↔ (s'.body c).kind = .owners := by
    intro c
    rw [List.mem_append, List.mem_singleton]
    by_cases hcb : c = b
    · subst hcb
      refine ⟨fun _ => by rw [hput.body]; rfl, fun _ => .inr rfl⟩
    · rw [hkind c hcb, ← ho.mem_iff c]
      exact ⟨fun h => h.resolve_right hcb, .inl⟩
  have hasc : (bs ++ [b]).Pairwise (· < ·) := by
    refine List.pairwise_append.2 ⟨ho.ascending, List.pairwise_singleton _ _, fun c hc c' hc' => ?_⟩
    rw [List.mem_singleton.1 hc']
    exact hlast c (by rw [(ho.mem_iff c).1 hc]; simp)
  have hend : s.next m.ownerTail = noBlock := by
    have hl := ho.linked
    rw [eq_append_lastD noBlock hne, ← ho.tail_eq] at hl
    exact hl.next_last
  have hkept : ∀ c, (s.body c).kind = .owners →
      (s'.body c).kind = .owners ∧ (s.next c ≠ noBlock → s'.next c = s.next c) := by
    intro c hck
    obtain ⟨hc0, hcb⟩ := hbefore c hck
    exact ⟨(hkind c hcb).2 hck, hput.next_kept hend hc0 hcb⟩
  have := append_owner (b := b) h hv (hcm.pages h.pages hc) hput.info hsame hclosed
    (by rw [hput.body, zero_slots hb]; rfl) hslots rfl rfl (newSlot_not_settled _ root d)
    (fun r x hr => .inl (hlast _ (by rw [hr.kind]; simp))) hlinked lastD_concat.symm hmem hasc
    hcm.blocks hkept
  rw [zero_slots hb] at this
  exact ⟨this.1, hcm.layout, m.reserved m.ownerHead b, rfl, this.2⟩

/-- The block that an extension just appended lies behind every written block. -/
theorem grow_last (h : WF strong s m) :
    (s.grow.body s.blocks).kind = .zero ∧ s.blocks < s.grow.blocks ∧
      (∀ c, (s.grow.body c).kind ≠ .zero → c < s.blocks) ∧ s.blocks ≠ 0 := by
  have hbody : s.grow.body = s.body := by
    funext c; exact Store.body_eq_of_page (by rw [grow_page h.pages])
  refine ⟨?_, Nat.lt_succ_self _, fun c hc => ?_, Nat.ne_of_gt h.pages.pos⟩
  · rw [hbody, Store.body, h.pages.fresh _ (Nat.le_refl _)]; rfl
  · rw [hbody] at hc
    exact h.pages.lt_blocks hc

/-- The reserved owner takes the next incarnation. -/
theorem reserveOwner_spec (h : WF strong s m) (hv : Shows s V) (hroot : root.Valid s.layout)
    (d : PreparedDocument) :
    SpecAlong Exhausted (Good strong V) Grows s (reserveOwner (metaPage m) root d) fun x s' =>
      x.1.incarnation = m.incarnation ∧ ReservePost strong V s.layout root d x s' := by
  have hgood : ∀ x s', ReservePost strong V s.layout root d x s' → Good strong V s' :=
    fun x s' ⟨_, m', _, hw, hv', _⟩ => ⟨m', hw, hv'⟩
  have hgrow : s.blocks < noBlock → Grows s s.grow ∧ Good strong V s.grow := fun hlt =>
    ⟨.grow h.pages, m, h.grow hlt, hv.grow h.pages⟩
  unfold reserveOwner
  rw [metaPage_reserve h.metaOk]
  by_cases hlim : incarnationLimit ≤ m.incarnation + 1
  · rw [if_pos hlim]
    exact SpecAlong.fail (.inr rfl)
  rw [if_neg hlim]
  refine SpecAlong.ofExcept_bind rfl ?_
  have hchain : (metaPage { m with incarnation := m.incarnation + 1 }).ownerChain =
      .ok (m.ownerHead, m.ownerTail) := if_pos h.metaOk.owners
  refine SpecAlong.ofExcept_bind hchain ?_
  by_cases hhead : m.ownerHead = noBlock
  · simp only [if_pos hhead]
    refine (allocate_along (.inl rfl) hgrow).bind ?_
    rintro b _ ⟨rfl, rfl, hlt⟩
    obtain ⟨hz, hb, hlast, h0⟩ := grow_last h
    have hbv : blockValid s.blocks := ⟨h0, by omega⟩
    refine SpecAlong.ofExcept_bind (owners_new hbv) ?_
    refine SpecAlong.ofExcept_bind (appendFresh_eq m.incarnation root d) ?_
    refine SpecAlong.ofExcept_bind (metaPage_setOwnerChain (.inr ⟨hbv, hbv, Nat.le_refl _⟩)) ?_
    obtain ⟨hc, hpost⟩ := reserve_first (h.grow hlt) (hv.grow h.pages) hroot d hz hb h0 hhead
    refine (commit_along hc fun s' hcm => ⟨(hpost s' hcm).1,
      hgood _ _ (hpost s' hcm).2⟩).bind fun _ s' hcm => ?_
    exact SpecAlong.pure ⟨rfl, (hpost s' hcm).2⟩
  · simp only [if_neg hhead]
    obtain ⟨bs, ho⟩ := h.owners
    have hk : (s.body m.ownerTail).kind = .owners := by
      rw [← ho.mem_iff, ho.tail_eq]
      exact lastD_mem noBlock fun hn => hhead (ho.linked.head_eq_stop_iff.2 hn)
    obtain ⟨slots, hb⟩ : ∃ slots, s.body m.ownerTail = .owners slots := by
      revert hk; cases s.body m.ownerTail <;> simp [Body.kind]
    have hslots : (s.page m.ownerTail).slots = .ok slots := by rw [slots_eq hk, hb]; rfl
    refine SpecAlong.reading_bind (load_returns h.pages hk (by simp)) ?_
    rintro _ rfl
    refine SpecAlong.ofExcept_bind (appendOwner_eq hslots m.incarnation root d) ?_
    by_cases hfull : capacity < (s.page m.ownerTail).len + ownerBytes +
        (newSlot m.incarnation root d).inline.length
    · rw [if_pos hfull]
      refine (allocate_along (.inl rfl) hgrow).bind ?_
      rintro b _ ⟨rfl, rfl, hlt⟩
      obtain ⟨hz, hb, hlast, h0⟩ := grow_last h
      have hbv : blockValid s.blocks := ⟨h0, by omega⟩
      refine SpecAlong.ofExcept_bind (owners_new hbv) ?_
      refine SpecAlong.ofExcept_bind (appendFresh_eq m.incarnation root d) ?_
      obtain ⟨hnext, hpair, hc, hpost⟩ :=
        reserve_next (h.grow hlt) (hv.grow h.pages) hroot d hz hb hlast hhead
      rw [grow_page h.pages] at hnext hc hpost
      refine SpecAlong.ofExcept_bind (setNext_eq hnext) ?_
      refine SpecAlong.ofExcept_bind (metaPage_setOwnerChain hpair) ?_
      refine (commit_along hc fun s' hcm => ⟨(hpost s' hcm).1,
        hgood _ _ (hpost s' hcm).2⟩).bind fun _ s' hcm => ?_
      exact SpecAlong.pure ⟨rfl, (hpost s' hcm).2⟩
    · rw [if_neg hfull]
      obtain ⟨hc, hpost⟩ := reserve_append h hv hroot d hb (Nat.not_lt.1 hfull)
      refine (commit_along hc fun s' hcm => ⟨(hpost s' hcm).1,
        hgood _ _ (hpost s' hcm).2⟩).bind fun _ s' hcm => ?_
      exact SpecAlong.pure ⟨rfl, by rw [h.pages.block]; exact (hpost s' hcm).2⟩

end

/-! ### Changing a slot -/

/-- An admissible change of one owner record. -/
structure SlotStep (s : Store) (o o' : OwnerSlot) : Prop where
  incarnation : o'.incarnation = o.incarnation
  root : o'.root = o.root
  inline : o'.inline = o.inline
  ok : o'.Ok s.layout
  payload : o'.dataHead = noBlock ∨ (s.body o'.dataHead).kind ≠ .zero

section

variable {strong strong' : Prop} {s s' : Store} {m : MetaBody} {b : ℕ}
  {slots slots' : List OwnerSlot}

theorem forall₂_getElem? {R : OwnerSlot → OwnerSlot → Prop} (h : List.Forall₂ R slots slots')
    {i : ℕ} {o : OwnerSlot} (hi : slots[i]? = some o) : ∃ o', slots'[i]? = some o' ∧ R o o' := by
  induction h generalizing i with
  | nil => cases hi
  | cons hr _ ih =>
    cases i with
    | zero => exact ⟨_, rfl, by cases hi; exact hr⟩
    | succ i => exact ih hi

theorem forall₂_inline (h : List.Forall₂ (SlotStep s) slots slots') :
    (slots'.map fun o => o.inline.length).sum = (slots.map fun o => o.inline.length).sum := by
  induction h with
  | nil => rfl
  | cons hr _ ih => simp only [List.map_cons, List.sum_cons, ih, hr.inline]

/-- The image of an owner page with changed records. -/
def Page.withSlots (p : Page) (slots : List OwnerSlot) : Page := { p with body := .owners slots }

theorem withSlots_valid (hp : PagesOk s) (hb : s.body b = .owners slots)
    (hf : List.Forall₂ (SlotStep s) slots slots') :
    ((s.page b).withSlots slots').Valid s.layout := by
  have hold := hp.valid b
  have hb' : (s.page b).body = .owners slots := hb
  have hk : (s.page b).kind = .owners := by rw [Page.kind, hb']; rfl
  have h0 : (s.page b).block ≠ 0 := fun h0 => by
    have := (hold.block (by rw [hk]; simp)).1 h0
    rw [hk] at this
    cases this
  refine ownersPage_valid rfl h0 ?_ ?_ ?_
  · refine (hold.next (by rw [hk]; simp)).imp_right fun ⟨h₁, h₂, _, h₃⟩ => ⟨h₁, h₂, ?_, ?_⟩
    · simp [Page.withSlots, Page.kind, Body.kind]
    · exact fun _ => h₃ (.inl hk)
  · intro o' ho'
    obtain ⟨i, hi⟩ := List.getElem?_of_mem ho'
    obtain ⟨o, -, hr⟩ := forall₂_getElem? hf.flip hi
    exact hr.ok
  · have hl : ((s.page b).withSlots slots').len = (s.page b).len := by
      rw [Page.len, Page.len, hb']
      change ownerHeader + slots'.length * ownerBytes +
        (slots'.map fun o => o.inline.length).sum = _
      rw [forall₂_inline hf, ← hf.length_eq]
    rw [hl]; exact hold.len

/-- Owners after the records of one page changed. -/
theorem owns_withSlots (hb : s.body b = .owners slots) (hf : List.Forall₂ (SlotStep s) slots slots')
    (hb' : s'.body b = .owners slots') (hother : ∀ c, c ≠ b → s'.page c = s.page c)
    {r : OwnerRef} {o : OwnerSlot} (ho : s.Owns r o) :
    ∃ o', s'.Owns r o' ∧ (r.page ≠ b → o' = o) ∧
      (r.page = b → slots[r.slot]? = some o ∧ slots'[r.slot]? = some o' ∧ SlotStep s o o') := by
  by_cases hr : r.page = b
  · subst hr
    have hi := ho.1
    rw [hb] at hi
    obtain ⟨o', ho', hstep⟩ := forall₂_getElem? hf hi
    refine ⟨o', ⟨by rw [hb']; exact ho', hstep.incarnation.trans ho.2⟩, fun h => absurd rfl h,
      fun _ => ⟨hi, ho', hstep⟩⟩
  · refine ⟨o, ⟨?_, ho.2⟩, fun _ => rfl, fun h => absurd h hr⟩
    rw [Store.body_eq_of_page (hother _ hr)]; exact ho.1

/-- A commit of one owner page with changed records. -/
theorem withSlots_step (strong' : Prop) (h : WF strong s m) (hb : s.body b = .owners slots)
    (hf : List.Forall₂ (SlotStep s) slots slots') :
    CommitOk s [(s.page b).withSlots slots'] ∧
      ∀ s', Committed s s' [(s.page b).withSlots slots'] →
        s'.body b = .owners slots' ∧ (∀ c, c ≠ b → s'.page c = s.page c) ∧
        Same PageKind.NotOwner s s' ∧ (DirectOk strong' s' → WF strong' s' m) ∧
        ∀ r o', s'.Owns r o' → ∃ o, s.Owns r o := by
  have hk : (s.body b).kind = .owners := by rw [hb]; rfl
  have hpb : ((s.page b).withSlots slots').block = b := h.pages.block b
  have hpk : ((s.page b).withSlots slots').kind = .owners := rfl
  have hc : CommitOk s [(s.page b).withSlots slots'] := commitOk_one (withSlots_valid h.pages hb hf)
    (by rw [hpk]; simp) (by rw [hpb]; exact h.pages.lt_blocks (by rw [hk]; simp))
  refine ⟨hc, fun s' hcm => ?_⟩
  obtain ⟨hpage, hother⟩ := hcm.one
  rw [hpb] at hpage hother
  have hb' : s'.body b = .owners slots' := by rw [Store.body, hpage]; rfl
  have hsame : Same PageKind.NotOwner s s' :=
    hcm.same_one (hpb ▸ hk) ⟨by decide, by rw [hpk]; decide⟩
  have hkeep := hcm.keepsWritten fun p hp => (hc.2.2.1 p hp).2.1
  have hclosed : ClosedOk s' := hcm.closed h.closed (fun p hp => (hc.2.2.1 p hp).2.1) (by
    simp only [List.mem_cons, List.not_mem_nil, or_false, forall_eq]
    have hl := (h.closed.links (b := b) (by rw [hk]; simp)).keeps hkeep
    refine ⟨hl.next, fun o' ho' => ?_⟩
    obtain ⟨i, hi⟩ := List.getElem?_of_mem ho'
    obtain ⟨o, -, hr⟩ := forall₂_getElem? hf.flip hi
    exact hr.payload.imp_right (hkeep _))
  have hown := fun r o => owns_withSlots (r := r) (o := o) hb hf hb' hother
  -- the change keeps the number of slots, so no owner is new
  have hback : ∀ r o', s'.Owns r o' → ∃ o, s.Owns r o := by
    intro r o' ho'
    by_cases hr : r.page = b
    · subst hr
      have hi := ho'.1
      rw [hb'] at hi
      obtain ⟨o, ho, hstep⟩ := forall₂_getElem? hf.flip hi
      exact ⟨o, by rw [hb]; exact ho, hstep.incarnation.symm.trans ho'.2⟩
    · refine ⟨o', ?_, ho'.2⟩
      rw [← Store.body_eq_of_page (hother _ hr)]; exact ho'.1
  refine ⟨hb', hother, hsame, fun hd => ?_, hback⟩
  obtain ⟨bs, ho⟩ := h.owners
  have hnext : ∀ c, s'.next c = s.next c := by
    intro c
    by_cases hcb : c = b
    · subst hcb; rw [Store.next, hpage]; rfl
    · rw [Store.next, hother c hcb]; rfl
  have hkind : ∀ c, (s'.body c).kind = .owners ↔ (s.body c).kind = .owners := by
    intro c
    by_cases hcb : c = b
    · subst hcb; rw [hb', hb]; exact Iff.rfl
    · rw [Store.body_eq_of_page (hother c hcb)]
  have h0 : (0 : ℕ) ≠ b := (h.ne_zero (by rw [hk]; simp)).symm
  refine h.of_owners m.ownerHead m.ownerTail m.incarnation
    (hcm.pages h.pages hc) (by rw [hother 0 h0]; exact h.info) ⟨bs, ?_⟩ hsame
    (fun r hr => ?_) hd hclosed
  rotate_left
  · obtain ⟨o, hr⟩ := hr
    obtain ⟨o', ho', -⟩ := hown r o hr
    exact ⟨o', ho'⟩
  refine ⟨ho.linked.congr fun c _ => hnext c, ho.tail_eq,
    fun c => (ho.mem_iff c).trans (hkind c).symm, ho.ascending, ?_, ?_⟩
  · intro r r' x x' hr hr' hlt
    obtain ⟨y, hy⟩ := hback r x hr
    obtain ⟨y', hy'⟩ := hback r' x' hr'
    exact ho.ordered r r' y y' hy hy' hlt
  · intro r x hr
    obtain ⟨y, hy⟩ := hback r x hr
    exact ho.below r y hy

theorem SlotStep.refl {r : OwnerRef} {o : OwnerSlot} (h : WF strong s m) (ho : s.Owns r o) :
    SlotStep s o o := ⟨rfl, rfl, rfl, h.pages.slotOk ho, h.closed.payload r o ho⟩

theorem forall₂_set {R : OwnerSlot → OwnerSlot → Prop} {i : ℕ} {o' : OwnerSlot}
    (hrefl : ∀ o ∈ slots, R o o) (hi : ∀ o, slots[i]? = some o → R o o') :
    List.Forall₂ R slots (slots.set i o') := by
  induction slots generalizing i with
  | nil => exact .nil
  | cons a as ih =>
    have has : ∀ o ∈ as, R o o := fun o ho => hrefl o (List.mem_cons_of_mem _ ho)
    cases i with
    | zero =>
      refine .cons (hi a rfl) ?_
      exact List.forall₂_same.2 has
    | succ i => exact .cons (hrefl a List.mem_cons_self) (ih has fun o ho => hi o ho)

/-- The store after the record of one owner was replaced. -/
structure OwnerSet (strong : Prop) (m : MetaBody) (s s' : Store) (r : OwnerRef) (o' : OwnerSlot) :
    Prop where
  layout : s'.layout = s.layout
  same : Same PageKind.NotOwner s s'
  owns : ∀ r' x, s'.Owns r' x ↔ (r' = r ∧ x = o') ∨ (r' ≠ r ∧ s.Owns r' x)
  links : ∀ b, (s.body b).kind = .owners →
    (s'.body b).kind = .owners ∧ (s.next b ≠ noBlock → s'.next b = s.next b)
  blocks : s'.blocks = s.blocks
  wf : DirectOk strong s' → WF strong s' m

theorem commitOwner_along {E : Error → Prop} {C : Store → Prop} {T : Store → Store → Prop}
    {r : OwnerRef} {o o' : OwnerSlot} {change : Page.OwnerChange} (h : WF strong s m)
    (ho : s.Owns r o) (ha : change.apply o = .ok o') (hs : SlotStep s o o')
    (hC : ∀ s', OwnerSet strong m s s' r o' → T s s' ∧ C s') :
    SpecAlong E C T s (commitOwner r change) fun _ s' => OwnerSet strong m s s' r o' := by
  obtain ⟨slots, hb⟩ : ∃ slots, s.body r.page = .owners slots := by
    have hk := ho.kind
    revert hk; cases s.body r.page <;> simp [Body.kind]
  have hi := ho.1
  rw [hb] at hi
  have hf : List.Forall₂ (SlotStep s) slots (slots.set r.slot o') := by
    refine forall₂_set (fun x hx => ?_) fun x hx => ?_
    · obtain ⟨i, hxi⟩ := List.getElem?_of_mem hx
      exact SlotStep.refl h (r := ⟨r.page, i, x.incarnation⟩) ⟨by rw [hb]; exact hxi, rfl⟩
    · have hx' : some o = some x := hi.symm.trans hx
      rw [← Option.some.inj hx']
      exact hs
  have hchange : (s.page r.page).changeOwner r change s.layout =
      .ok ((s.page r.page).withSlots (slots.set r.slot o')) := by
    rw [Page.changeOwner, owner_eq h.pages ho]
    change (if r ≠ r then _ else _) = _
    rw [if_neg (not_not.2 rfl), ha, slots_eq ho.kind, hb]
    rfl
  obtain ⟨hc, hpost⟩ := withSlots_step strong h hb hf
  have hset : ∀ s', Committed s s' [(s.page r.page).withSlots (slots.set r.slot o')] →
      OwnerSet strong m s s' r o' := by
    intro s' hcm
    obtain ⟨hb', hother, hsame, hwf, -⟩ := hpost s' hcm
    refine ⟨hcm.layout, hsame, fun r' x => ?_, fun b hk => ?_, hcm.blocks, hwf⟩
    on_goal 2 =>
      by_cases hbr : b = r.page
      · subst hbr
        refine ⟨by rw [hb']; rfl, fun _ => ?_⟩
        have := hcm.next_mem (List.mem_singleton_self _)
        rwa [show ((s.page r.page).withSlots _).block = r.page from h.pages.block _] at this
      · rw [Store.body_eq_of_page (hother b hbr)]
        exact ⟨hk, fun _ => by rw [Store.next, hother b hbr]; rfl⟩
    have hlt : r.slot < slots.length := by have := ho.lt; rwa [hb] at this
    by_cases hr : r'.page = r.page
    · rw [Store.Owns, Store.Owns, hr, hb', hb]
      change (slots.set r.slot o')[r'.slot]? = some x ∧ _ ↔ _ ∨ _ ∧ slots[r'.slot]? = some x ∧ _
      by_cases hsl : r'.slot = r.slot
      · rw [hsl, List.getElem?_set_self hlt, Option.some.injEq]
        constructor
        · rintro ⟨rfl, hinc⟩
          refine .inl ⟨?_, rfl⟩
          have := hs.incarnation.trans ho.2
          cases r; cases r'
          simp_all
        · rintro (⟨rfl, rfl⟩ | ⟨hne, hx, hinc⟩)
          · exact ⟨rfl, hs.incarnation.trans ho.2⟩
          · refine absurd ?_ hne
            have hx' : some o = some x := hi.symm.trans hx
            obtain rfl := Option.some.inj hx'
            have := ho.2
            cases r; cases r'
            simp_all
      · rw [List.getElem?_set_ne (Ne.symm hsl)]
        refine ⟨fun hx => .inr ⟨fun heq => hsl (heq ▸ rfl), hx⟩, ?_⟩
        rintro (⟨rfl, -⟩ | ⟨-, hx⟩)
        · exact absurd rfl hsl
        · exact hx
    · rw [Store.Owns, Store.body_eq_of_page (hother _ hr)]
      refine ⟨fun hx => .inr ⟨fun heq => hr (heq ▸ rfl), hx⟩, ?_⟩
      rintro (⟨rfl, -⟩ | ⟨-, hx⟩)
      · exact absurd rfl hr
      · exact hx
  unfold commitOwner
  refine SpecAlong.reading_bind (load_returns h.pages ho.kind (by simp)) ?_
  rintro _ rfl
  refine SpecAlong.reading_bind layout_returns ?_
  rintro _ rfl
  refine SpecAlong.ofExcept_bind hchange ?_
  exact (commit_along hc fun s' hcm => hC s' (hset s' hcm)).post fun _ s' hcm => hset s' hcm

end

section

variable {strong : Prop} {s s' : Store} {m : MetaBody} {r : OwnerRef} {o o' : OwnerSlot}

theorem OwnerSet.known (h : OwnerSet strong m s s' r o') (ho : s.Owns r o) {r' : OwnerRef} :
    s'.Known r' ↔ s.Known r' := by
  constructor
  · rintro ⟨x, hx⟩
    rcases (h.owns r' x).1 hx with ⟨rfl, -⟩ | ⟨-, hx⟩
    · exact ⟨o, ho⟩
    · exact ⟨x, hx⟩
  · rintro ⟨x, hx⟩
    by_cases hr : r' = r
    · exact ⟨o', (h.owns r' o').2 (.inl ⟨hr, rfl⟩)⟩
    · exact ⟨x, (h.owns r' x).2 (.inr ⟨hr, hx⟩)⟩

theorem OwnerSet.rootOf_ne (h : OwnerSet strong m s s' r o') {r' : OwnerRef} (hr : r' ≠ r) :
    s'.rootOf r' = s.rootOf r' := by
  ext x
  constructor <;> intro hx <;> obtain ⟨y, hy, hl⟩ := Store.rootOf_eq_some hx
  · rcases (h.owns r' y).1 hy with ⟨hr', -⟩ | ⟨-, hy⟩
    · exact absurd hr' hr
    · rw [Store.rootOf_eq hy, hl]
  · rw [Store.rootOf_eq ((h.owns r' y).2 (.inr ⟨hr, hy⟩)), hl]

theorem OwnerSet.owns_self (h : OwnerSet strong m s s' r o') : s'.Owns r o' :=
  (h.owns r o').2 (.inl ⟨rfl, rfl⟩)

/-- A change of one record that was not settled. -/
theorem OwnerSet.grows (h : OwnerSet strong m s s' r o') (ho : s.Owns r o) (hn : ¬ o.Settled) :
    Grows s s' := by
  refine .of_owners (h.same.mono fun _ => kept_notOwner) (Nat.le_of_eq h.blocks.symm)
    (fun r' x hx => ?_) h.links
  by_cases hr : r' = r
  · subst hr
    obtain rfl := ho.unique hx
    exact ⟨o', h.owns_self, fun hs => absurd hs hn⟩
  · exact ⟨x, (h.owns r' x).2 (.inr ⟨hr, hx⟩), fun _ => rfl⟩

/-- A reserved slot keeps its place and its postings through a change of its record. -/
theorem OwnerSet.reserved {xs : List Text} (h : OwnerSet strong m s s' r o')
    (hr : Reserved s r o xs) : Reserved s' r o' xs where
  owns := h.owns_self
  newest r' hk := hr.newest r' ((h.known hr.owns).1 hk)
  posted x := (posted_same (h.same.mono fun _ hk => isIndex_notOwner hk)).trans (hr.posted x)
  direct b x hx := by
    rw [h.same.body (.inr (by rw [records_kind hx]; decide))] at hx
    exact hr.direct b x hx

/-- The owner of a reserved slot occurs in no direct page. -/
theorem OwnerSet.direct {xs : List Text} (h : OwnerSet strong m s s' r o') (hw : WF strong s m)
    (hr : Reserved s r o xs) : DirectOk strong s' :=
  hw.direct.of_owners hw.refs h.same fun b x y hx hy =>
    ⟨y, (h.owns x.owner y).2 (.inr ⟨hr.direct b x hx, hy⟩), rfl, id, fun hst => ⟨hst, id⟩⟩

end

end PinCore
