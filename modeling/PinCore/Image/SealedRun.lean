import PinCore.Image.Sealed

/-!
# Finished pages

A finished page validates and gives back what the builder accepted, whatever was pushed in which
order.  Over any valid posting page the owning decoder gives the items of the borrowing one, and
names the slot of the last of them.
-/

namespace PinCore

open Reader

namespace Image

section

variable {b : SealedBuilder} {direct : Bool} {term : TermRef} {entries : List Accepted}
  {owners : List OwnerRef} {o : OwnerRef} {root : RootTid} {p q : Image} {n i : ℕ}
  {ends : List UInt8} {layout : HeapLayout}

/-! ### Reading back -/

theorem SealedBuilder.Holds.kind_cases (h : b.Holds direct term entries) :
    b.page.kind ≠ .postings ∧ (b.page.kind = .directPostings ↔ direct = true) ∧
      (b.page.kind = .postings ∨ b.page.kind = .sealedPostings ∨
        b.page.kind = .directPostings) := by
  rw [h.kind]
  cases direct <;> decide

theorem streamLen_lower : owners.length * 3 ≤ streamLen none owners := by
  have hall : ∀ previous, owners.length * 3 ≤ streamLen previous owners := by
    induction owners with
    | nil => exact fun _ => Nat.le_of_eq (Nat.zero_mul _)
    | cons o os ih =>
      intro previous
      have h₁ := @deltaLen_bounds previous o
      have h₂ := ih (some o)
      rw [List.length_cons, streamLen]
      omega
  exact hall none

theorem postingHeader_le_headLen : postingHeader ≤ headLen direct n := by
  rw [headLen]
  split_ifs
  · rw [directHeader]
    omega
  · exact Nat.le_refl _

theorem SealedBuilder.Holds.fields (h : b.Holds direct term entries) :
    b.page.u32 16 = .ok term.page ∧ b.page.u16 20 = .ok term.offset ∧
      b.page.u16 22 = .ok entries.length := by
  obtain ⟨ends, rest, hends, hbytes, hfront, hfree⟩ := h.front
  have hlen : postingHeader ≤ b.page.len := by
    rw [h.len]
    exact Nat.le_add_right_of_le postingHeader_le_headLen
  have h24 : postingHeader = 24 := rfl
  have hcount : entries.length < 256 ^ 2 := by
    have h₁ := @streamLen_lower (entries.map Prod.fst)
    have h₂ := b.page.fits
    have hcap : capacity = 8168 := rfl
    rw [List.length_map] at h₁
    rw [h.len] at h₂
    omega
  have hdrop : b.page.bytes.drop 16 = leBytes 4 term.page ++ (leBytes 2 term.offset ++
      (leBytes 2 entries.length ++ (ends ++ (rootsBytes direct entries ++
        (streamBytes none (entries.map Prod.fst) ++ rest))))) := by
    rw [hbytes, List.drop_left' hfront, postingBytes, tagBytes]
    simp only [List.append_assoc]
  obtain ⟨e₁, h₁⟩ := Grouped.leAt_of_drop hdrop h.tag.2.2.1
  obtain ⟨e₂, h₂⟩ := Grouped.leAt_of_drop h₁ h.tag.2.2.2
  obtain ⟨e₃, -⟩ := Grouped.leAt_of_drop h₂ hcount
  rw [u32, u16, u16, get_eq (by omega), get_eq (by omega), get_eq (by omega), e₁, e₂, e₃]
  exact ⟨rfl, rfl, rfl⟩

theorem SealedBuilder.Holds.postingTerm (h : b.Holds direct term entries) :
    b.page.postingTerm = .ok term := by
  obtain ⟨h₁, h₂, -⟩ := h.fields
  obtain ⟨hne, -, hkinds⟩ := h.kind_cases
  rw [Image.postingTerm, Grouped.require_of hkinds, ok_bind, if_neg hne, h₁, ok_bind, h₂, ok_bind]

theorem SealedBuilder.Holds.postingStart (h : b.Holds direct term entries) :
    b.page.postingStart = .ok (headLen direct entries.length) := by
  obtain ⟨-, hdirect, -⟩ := h.kind_cases
  rw [Image.postingStart, headLen]
  cases direct with
  | false => exact if_neg fun hk => Bool.false_ne_true (hdirect.1 hk)
  | true => rw [if_pos (hdirect.2 rfl), h.fields.2.2, ok_bind, if_pos rfl]

/-- The used bytes behind the header are the stream. -/
theorem SealedBuilder.Holds.stream (h : b.Holds direct term entries) :
    b.page.used.drop (headLen direct entries.length) =
      streamBytes none (entries.map Prod.fst) := by
  obtain ⟨ends, rest, hends, hbytes, hfront, hfree⟩ := h.front
  have hhead : (b.page.bytes.take 16 ++ (tagBytes term entries.length ++ (ends ++
      rootsBytes direct entries))).length = headLen direct entries.length := by
    rw [List.length_append, List.length_append, List.length_append, hfront,
      length_postingHead hends]
  have hall : b.page.bytes = (b.page.bytes.take 16 ++ (tagBytes term entries.length ++ (ends ++
      rootsBytes direct entries))) ++ (streamBytes none (entries.map Prod.fst) ++ rest) := by
    conv_lhs => rw [hbytes, postingBytes]
    simp only [List.append_assoc]
  rw [used, List.drop_take, hall, List.drop_left' hhead, h.len, Nat.add_sub_cancel_left,
    ← length_streamBytes, List.take_left]

theorem SealedBuilder.Holds.postingRefs (h : b.Holds direct term entries) (hne : entries ≠ []) :
    b.page.postingRefs = .ok ⟨Reader.new (streamBytes none (entries.map Prod.fst)), true,
      entries.length, none, false⟩ := by
  obtain ⟨hkind, -, -⟩ := h.kind_cases
  have hstream := @streamLen_lower (entries.map Prod.fst)
  rw [List.length_map] at hstream
  have hhead := @postingHeader_le_headLen direct entries.length
  have hcount : entries.length ≠ 0 ∧ entries.length ≤ (b.page.len - postingHeader) / 3 := by
    refine ⟨fun h0 => hne (List.length_eq_zero_iff.1 h0), ?_⟩
    rw [h.len]
    omega
  have hrecords : b.page.postingRecords = .ok entries.length := by
    rw [postingRecords, if_neg hkind, h.fields.2.2, ok_bind, Grouped.require_of hcount, ok_bind]
  have hstart : headLen direct entries.length ≤ b.page.len := by
    rw [h.len]
    omega
  rw [Image.postingRefs, h.postingTerm, ok_bind, hrecords, ok_bind, h.postingStart, ok_bind,
    Grouped.require_of hstart, ok_bind, h.stream, decide_eq_true hkind]

theorem SealedBuilder.Holds.drains (h : b.Holds direct term entries) :
    Iterate.Drains Postings.next ⟨Reader.new (streamBytes none (entries.map Prod.fst)), true,
      entries.length, none, false⟩ ((entries.map Prod.fst).map .ok) := by
  have hfit : (streamBytes none (entries.map Prod.fst)).length < usizeLimit := by
    have hfits := b.page.fits
    rw [h.len, ← length_streamBytes] at hfits
    have hcap : capacity < usizeLimit := by decide
    omega
  refine drains_stream rfl rfl (List.length_map ..).symm rfl ?_ h.chained fun x hx => ?_
  · rwa [Reader.Fits, Reader.new, Nat.zero_add]
  · obtain ⟨e, he, rfl⟩ := List.mem_map.1 hx
    exact (h.inRange e he).1

theorem slice_eq {len : ℕ} (h : i + len ≤ p.len) :
    p.slice i len = .ok ((p.bytes.drop i).take len) := by
  rw [slice, if_pos h, used, List.drop_take, List.take_take, Nat.min_eq_left (by omega)]

theorem chained_place {previous : Option OwnerRef} (h : Chained previous owners) :
    ∀ x ∈ owners, blockValid x.page ∧ x.slot < ownerSlots := by
  induction owners generalizing previous with
  | nil => exact fun x hx => nomatch hx
  | cons a as ih =>
    intro x hx
    rcases List.mem_cons.1 hx with rfl | hx
    · exact h.1.2
    · exact ih h.2 x hx

theorem SealedBuilder.Holds.directEndpoints (h : b.Holds true term entries) {first last : OwnerRef}
    (hfirst : (entries.map Prod.fst).head? = some first)
    (hlast : (entries.map Prod.fst).getLast? = some last) :
    b.page.directEndpoints = .ok (first, last) := by
  obtain ⟨ends, rest, hends, hbytes, hfront, hfree⟩ := h.front
  have hmem : ∀ x ∈ entries.map Prod.fst, Reader.run OwnerRef.read x.bytes = .ok x := by
    intro x hx
    obtain ⟨e, he, rfl⟩ := List.mem_map.1 hx
    have hr := (h.inRange e he).1
    have hplace := chained_place h.chained e.1 hx
    exact (OwnerRef.decodes hr ⟨hplace.1, hplace.2, hr.2.2.1⟩).run
      (by rw [OwnerRef.length_bytes]; decide)
  have hlen : directHeader ≤ b.page.len := by
    rw [h.len, headLen, if_pos rfl]
    omega
  have h16 : ∀ x : OwnerRef, x.bytes.length = 16 := fun _ => OwnerRef.length_bytes
  have hhead : (b.page.bytes.take 16 ++ tagBytes term entries.length).length = postingHeader := by
    rw [List.length_append, hfront, length_tagBytes, postingHeader]
  have hends' := hends.2 rfl first hfirst last hlast
  have hdrop : b.page.bytes.drop postingHeader = first.bytes ++ (last.bytes ++
      (rootsBytes true entries ++ (streamBytes none (entries.map Prod.fst) ++ rest))) := by
    have hall : b.page.bytes = (b.page.bytes.take 16 ++ tagBytes term entries.length) ++
        (first.bytes ++ (last.bytes ++ (rootsBytes true entries ++
          (streamBytes none (entries.map Prod.fst) ++ rest)))) := by
      conv_lhs => rw [hbytes, postingBytes, hends']
      simp only [List.append_assoc]
    rw [hall, List.drop_left' hhead]
  have hfirst' : b.page.slice postingHeader 16 = .ok first.bytes := by
    rw [slice_eq (Nat.le_trans (by decide) hlen), hdrop, List.take_left' (h16 first)]
  have hlast' : b.page.slice (postingHeader + 16) 16 = .ok last.bytes := by
    rw [slice_eq (Nat.le_trans (by decide) hlen), ← List.drop_drop, hdrop,
      List.drop_left' (h16 first), List.take_left' (h16 last)]
  have hkind : b.page.kind = .directPostings := h.kind
  rw [Image.directEndpoints, Image.require, Grouped.require_of hkind, ok_bind, hfirst', ok_bind,
    hlast', ok_bind, hmem first (List.mem_of_head? hfirst), ok_bind,
    hmem last (List.mem_of_getLast? hlast), ok_bind]

/-- The coordinate of a slot is given back. -/
theorem SealedBuilder.Holds.directRoot (h : b.Holds true term entries)
    (hi : entries[i]? = some (o, root)) (hroot : root.Valid layout) :
    b.page.directRoot i layout = .ok (some root) := by
  obtain ⟨ends, rest, hends, hbytes, hfront, hfree⟩ := h.front
  obtain ⟨hlt, hget⟩ := List.getElem?_eq_some_iff.1 hi
  have hsplit : entries = entries.take i ++ (o, root) :: entries.drop (i + 1) := by
    rw [← hget, ← List.drop_eq_getElem_cons hlt, List.take_append_drop]
  have hroots : rootsBytes true entries = rootsBytes true (entries.take i) ++ (rootBytes root ++
      rootsBytes true (entries.drop (i + 1))) := by
    conv_lhs => rw [hsplit, rootsBytes, if_pos rfl, List.flatMap_append, List.flatMap_cons]
    rfl
  have hplace : (b.page.bytes.take 16 ++ (tagBytes term entries.length ++ (ends ++
      rootsBytes true (entries.take i)))).length = directHeader + i * 8 := by
    rw [List.length_append, List.length_append, List.length_append, hfront, length_tagBytes,
      length_rootsBytes, hends.1, if_pos rfl, if_pos rfl, List.length_take_of_le hlt.le,
      directHeader, postingHeader]
    omega
  have hdrop : b.page.bytes.drop (directHeader + i * 8) = rootBytes root ++
      (rootsBytes true (entries.drop (i + 1)) ++
        (streamBytes none (entries.map Prod.fst) ++ rest)) := by
    have hall : b.page.bytes = (b.page.bytes.take 16 ++ (tagBytes term entries.length ++ (ends ++
        rootsBytes true (entries.take i)))) ++ (rootBytes root ++
          (rootsBytes true (entries.drop (i + 1)) ++
            (streamBytes none (entries.map Prod.fst) ++ rest))) := by
      conv_lhs => rw [hbytes, postingBytes, hroots]
      simp only [List.append_assoc]
    rw [hall, List.drop_left' hplace]
  have hend : directHeader + i * 8 + 8 ≤ b.page.len := by
    rw [h.len, headLen, if_pos rfl]
    omega
  have hbytes' : b.page.slice (directHeader + i * 8) 8 = .ok (rootBytes root) := by
    rw [slice_eq hend, hdrop, List.take_left' length_rootBytes]
  obtain ⟨-, hblock, hoff⟩ := h.inRange (o, root) (List.mem_of_getElem? hi)
  obtain ⟨e₁, h₁⟩ := @Grouped.leAt_of_drop (rootBytes root) _ 0 4 root.block rfl hblock
  obtain ⟨e₂, h₂⟩ := Grouped.leAt_of_drop h₁ hoff
  obtain ⟨e₃, h₃⟩ := Grouped.leAt_of_drop h₂ (by decide)
  obtain ⟨e₄, -⟩ := @Grouped.leAt_of_drop (rootBytes root) [] 7 1 0
    (by rw [List.append_nil]; exact h₃) (by decide)
  have hkind : b.page.kind = .directPostings := h.kind
  rw [Image.directRoot, Image.require, Grouped.require_of hkind, ok_bind, h.fields.2.2, ok_bind,
    Grouped.require_of hlt, ok_bind, hbytes', ok_bind]
  simp only [Nat.zero_add, Nat.reduceAdd] at e₁ e₂ e₃ e₄
  simp only [e₁, e₂, e₃, e₄]
  rw [Grouped.require_of ⟨by decide, trivial⟩, ok_bind, Grouped.require_of hroot, ok_bind,
    if_pos trivial]

theorem checkRoots_eq (h : ∀ j < n, ∃ r, p.directRoot (i + j) layout = .ok r) :
    p.checkRoots layout i n = .ok ⟨⟩ := by
  induction n generalizing i with
  | zero => rfl
  | succ n ih =>
    obtain ⟨r, hr⟩ := h 0 (Nat.succ_pos n)
    rw [checkRoots, ← Nat.add_zero i, hr, ok_bind, Nat.add_zero]
    refine ih fun j hj => ?_
    rw [Nat.add_assoc, Nat.add_comm 1]
    exact h (j + 1) (Nat.succ_lt_succ hj)

/-- The page of a builder that accepted something validates. -/
theorem SealedBuilder.Holds.validatePostings (h : b.Holds direct term entries) (hne : entries ≠ [])
    (hroots : direct = true → ∀ e ∈ entries, e.2.Valid layout) :
    b.page.validatePostings layout = .ok ⟨⟩ := by
  obtain ⟨first, hfirst⟩ : ∃ x, (entries.map Prod.fst).head? = some x := by
    cases entries with
    | nil => exact absurd rfl hne
    | cons e es => exact ⟨e.1, rfl⟩
  obtain ⟨last, hlast⟩ : ∃ x, (entries.map Prod.fst).getLast? = some x :=
    ⟨_, List.getLast?_eq_some_getLast fun h0 => hne (List.map_eq_nil_iff.1 h0)⟩
  have hascending := @ascending_chained none _ (entries.length + 1) _ none
    (by rw [List.length_map]; exact Nat.lt_succ_self _) h.drains h.chained
  rw [Option.none_or, Option.or_none, hfirst, hlast] at hascending
  obtain ⟨-, hdirect, -⟩ := h.kind_cases
  rw [Image.validatePostings, h.next, ok_bind, h.block, ok_bind, h.postingTerm, ok_bind,
    Grouped.require_of ⟨h.tag.1, h.tag.2.1⟩, ok_bind, h.postingRefs hne, ok_bind, hascending,
      ok_bind]
  dsimp only
  cases direct with
  | false => exact if_neg fun hk => Bool.false_ne_true (hdirect.1 hk)
  | true =>
    rw [if_pos (hdirect.2 rfl), h.directEndpoints hfirst hlast, ok_bind]
    dsimp only
    rw [Grouped.require_of ⟨rfl, rfl⟩, ok_bind, h.fields.2.2, ok_bind]
    refine checkRoots_eq fun j hj => ?_
    have hget := List.getElem?_eq_getElem hj
    rw [Nat.zero_add]
    exact ⟨_, h.directRoot hget (hroots rfl _ (List.getElem_mem hj))⟩

/-! ### Builders of both levels -/

/-- A push to a builder of either kind. -/
def pushEntry (direct : Bool) (e : Accepted) : Build Bool :=
  if direct then SealedBuilder.pushDirect e.1 e.2 else SealedBuilder.push e.1

/-- A new builder of either kind. -/
def newBuilder (direct : Bool) (block : ℕ) (term : TermRef) : Except Error SealedBuilder :=
  if direct then SealedBuilder.newDirect block term else SealedBuilder.new block term

/-- The builder with the records of its page decoded. -/
def SealedBuilder.shown (b : SealedBuilder) (direct : Bool) (term : TermRef)
    (entries : List Accepted) : PinCore.SealedBuilder where
  page := {
    block := b.page.block
    next := Grouped.leAt b.page.bytes 12 4
    body := if direct then .direct term ((entries.map Prod.fst).head?.getD ⟨0, 0, 0⟩)
        ((entries.map Prod.fst).getLast?.getD ⟨0, 0, 0⟩) (entries.map fun e => ⟨e.1, e.2, true⟩)
      else .sealed term (entries.map Prod.fst)
    initializes := b.page.initializes }
  previous := (entries.map Prod.fst).getLast?

theorem SealedBuilder.Holds.shown_len (h : b.Holds direct term entries) :
    (b.shown direct term entries).page.len = b.page.len := by
  rw [h.len]
  cases direct with
  | false => rfl
  | true =>
    change directHeader + (entries.map fun e => (⟨e.1, e.2, true⟩ : DirectRecord)).length * 8 +
      streamLen none ((entries.map fun e => (⟨e.1, e.2, true⟩ : DirectRecord)).map (·.owner)) = _
    rw [List.length_map, List.map_map]
    rfl

theorem SealedBuilder.shown_push {b' : SealedBuilder} (hblock : b'.page.block = b.page.block)
    (hnext : Grouped.leAt b'.page.bytes 12 4 = Grouped.leAt b.page.bytes 12 4)
    (hinit : b'.page.initializes = b.page.initializes)
    (hdelta : PinCore.SealedBuilder.DeltaOk o (entries.map Prod.fst).getLast?)
    (hroom : ¬ capacity < (b.shown direct term entries).page.len +
      deltaLen (entries.map Prod.fst).getLast? o + if direct then 8 else 0) :
    pushOutput direct (b.shown direct term entries) o root =
      .ok (some (b'.shown direct term (entries ++ [(o, root)]))) := by
  cases direct with
  | false =>
    have hpush : PinCore.SealedBuilder.push (b.shown false term entries) o =
        .ok (some ⟨{ (b.shown false term entries).page with
          body := .sealed term (entries.map Prod.fst ++ [o]) }, some o⟩) := by
      refine (if_neg (not_not.2 hdelta)).trans (if_neg hroom)
    rw [pushOutput, if_neg Bool.false_ne_true, hpush, shown, shown]
    simp [hblock, hnext, hinit]
  | true =>
    have hpush : PinCore.SealedBuilder.pushDirect (b.shown true term entries) o root =
        .ok (some ⟨{ (b.shown true term entries).page with
          body := .direct term (if (entries.map fun e => (⟨e.1, e.2, true⟩ : DirectRecord)) = []
            then o else (entries.map Prod.fst).head?.getD ⟨0, 0, 0⟩) o
            ((entries.map fun e => ⟨e.1, e.2, true⟩) ++ [⟨o, root, true⟩]) }, some o⟩) := by
      refine (if_neg (not_not.2 hdelta)).trans (if_neg hroom)
    have hfirst : (if (entries.map fun e => (⟨e.1, e.2, true⟩ : DirectRecord)) = [] then o
        else (entries.map Prod.fst).head?.getD ⟨0, 0, 0⟩) =
          ((entries ++ [(o, root)]).map Prod.fst).head?.getD ⟨0, 0, 0⟩ := by
      cases entries with
      | nil => rfl
      | cons e es => rfl
    rw [pushOutput, if_pos rfl, hpush, hfirst, shown, shown]
    simp [hblock, hnext, hinit]

/-- A push accepts the reference, finds the page full, or rejects a reference that does not follow
the last one; the page model does the same.  Only the first changes the builder. -/
theorem SealedBuilder.Holds.pushEntry (h : b.Holds direct term entries)
    (hr : o.InRange ∧ root.block < 2 ^ 32 ∧ root.offset < 2 ^ 16) :
    (PinCore.SealedBuilder.DeltaOk o b.previous ∧ ∃ b',
      Image.pushEntry direct (o, root) b = (.ok true, b') ∧
      b'.Holds direct term (entries ++ [(o, root)]) ∧
      pushOutput direct (b.shown direct term entries) o root =
        .ok (some (b'.shown direct term (entries ++ [(o, root)])))) ∨
    (PinCore.SealedBuilder.DeltaOk o b.previous ∧ entries ≠ [] ∧
      Image.pushEntry direct (o, root) b = (.ok false, b) ∧
      pushOutput direct (b.shown direct term entries) o root = .ok none) ∨
    (¬ PinCore.SealedBuilder.DeltaOk o b.previous ∧
      Image.pushEntry direct (o, root) b = (.error .invalidState, b) ∧
      pushOutput direct (b.shown direct term entries) o root = .error .invalidState) := by
  have hprevious := h.previous
  have hlen := h.shown_len
  by_cases hdelta : PinCore.SealedBuilder.DeltaOk o b.previous
  · by_cases hroom : b.page.len + deltaLen b.previous o + (if direct then 8 else 0) ≤ capacity
    · refine .inl ⟨hdelta, ?_⟩
      have hpage : ¬ capacity < (b.shown direct term entries).page.len +
          deltaLen (entries.map Prod.fst).getLast? o + if direct then 8 else 0 := by
        rw [hlen, ← hprevious]
        exact Nat.not_lt.2 hroom
      cases direct with
      | false =>
        obtain ⟨q, hq, hholds, hblock, hnext, hinit⟩ := h.push_room hdelta hr hroom
        exact ⟨_, hq, hholds, shown_push hblock hnext hinit (hprevious ▸ hdelta) hpage⟩
      | true =>
        obtain ⟨q, hq, hholds, hblock, hnext, hinit⟩ := h.push_direct_room hdelta hr hroom
        exact ⟨_, hq, hholds, shown_push hblock hnext hinit (hprevious ▸ hdelta) hpage⟩
    · refine .inr (.inl ⟨hdelta, ?_, ?_, ?_⟩)
      · rintro rfl
        have h20 := (@deltaLen_bounds b.previous o).2
        have hstart : b.page.len = headLen direct 0 := h.len
        have hcap : capacity = 8168 := rfl
        have h56 : directHeader = 56 := rfl
        have h24 : postingHeader = 24 := rfl
        rw [hstart, headLen] at hroom
        split_ifs at hroom <;> omega
      · obtain ⟨bytes, hfill, -⟩ := fill_delta hdelta
        rw [Image.pushEntry]
        cases direct with
        | false =>
          have hkind : b.page.kind = .sealedPostings := h.kind
          rw [if_neg Bool.false_ne_true, SealedBuilder.push, Read.cursor_bind,
            Read.ensure_bind hkind, Read.ofExcept_bind hfill]
          exact congrFun (if_pos (Nat.not_le.1 hroom)) b
        | true =>
          have hkind : b.page.kind = .directPostings := h.kind
          rw [if_pos rfl, SealedBuilder.pushDirect, Read.cursor_bind, Read.ensure_bind hkind,
            Read.ofExcept_bind hfill]
          exact congrFun (if_pos (Nat.not_le.1 hroom)) b
      · rw [← hlen, hprevious] at hroom
        rw [hprevious] at hdelta
        cases direct with
        | false => exact (if_neg (not_not.2 hdelta)).trans (if_pos (Nat.not_le.1 hroom))
        | true => exact (if_neg (not_not.2 hdelta)).trans (if_pos (Nat.not_le.1 hroom))
  · have hfill := fill_delta_error hdelta
    refine .inr (.inr ⟨hdelta, ?_, ?_⟩)
    · rw [Image.pushEntry]
      cases direct with
      | false =>
        have hkind : b.page.kind = .sealedPostings := h.kind
        rw [if_neg Bool.false_ne_true, SealedBuilder.push, Read.cursor_bind,
          Read.ensure_bind hkind, hfill]
        rfl
      | true =>
        have hkind : b.page.kind = .directPostings := h.kind
        rw [if_pos rfl, SealedBuilder.pushDirect, Read.cursor_bind, Read.ensure_bind hkind, hfill]
        rfl
    · rw [hprevious] at hdelta
      cases direct with
      | false => exact if_pos hdelta
      | true => exact if_pos hdelta

/-! ### Starting -/

/-- The common header of a page. -/
def headerBytes (tag : UInt8) (block : ℕ) : List UInt8 :=
  [0x50, 0x49, 0x4e, 0x32] ++ leBytes 2 2 ++ [tag, 0] ++ leBytes 4 block ++ leBytes 4 noBlock

theorem length_headerBytes {tag : UInt8} {block : ℕ} : (headerBytes tag block).length = 16 := by
  simp only [headerBytes, List.length_append, Reader.length_leBytes]
  rfl

theorem edited_ok {x : Edit PUnit} (h : edited x p = .ok q) : x p = (.ok ⟨⟩, q) := by
  rw [edited] at h
  rcases hx : x p with ⟨e | ⟨⟩, r⟩
  · rw [hx] at h
    cases h
  · rw [hx] at h
    cases h
    rfl

/-- The tag of a page is replaced. -/
theorem put_tag {tag tag' : UInt8} {block : ℕ} {rest : List UInt8}
    (hb : p.bytes = headerBytes tag block ++ rest) :
    ∃ q, put 6 [tag'] p = (.ok ⟨⟩, q) ∧ Becomes p q p.len (headerBytes tag' block ++ rest) := by
  have hb' : p.bytes = ([0x50, 0x49, 0x4e, 0x32] ++ leBytes 2 2) ++ ([tag] ++
      ([0] ++ leBytes 4 block ++ leBytes 4 noBlock ++ rest)) := by
    rw [hb, headerBytes]
    simp only [List.append_assoc, List.cons_append, List.nil_append]
  obtain ⟨q, hput, hbecomes⟩ := put_at 6 [tag'] hb' rfl rfl
  refine ⟨q, hput, ?_⟩
  rw [headerBytes]
  simp only [List.append_assoc, List.cons_append, List.nil_append] at hbecomes ⊢
  exact hbecomes

/-- The bytes of a new posting page. -/
theorem postings_ok {block : ℕ} (h : Image.postings block term = .ok p) :
    block ≠ noBlock ∧ block ≠ 0 ∧ (blockValid term.page ∧ pageHeader ≤ term.offset) ∧
      p.block = block ∧ p.len = postingHeader ∧
      p.bytes = headerBytes 4 block ++ (tagBytes term 0 ++ List.replicate (capacity - 24) 0) := by
  obtain ⟨_, hterm, h⟩ := ok_of_bind h
  obtain ⟨p₀, hnew, h⟩ := ok_of_bind h
  have hterm' : blockValid term.page ∧ pageHeader ≤ term.offset := by
    by_contra hbad
    rw [Grouped.require, if_neg hbad] at hterm
    cases hterm
  have hedit := edited_ok h
  have hbad : ¬ (block = noBlock ∨ ¬ (block = 0 ↔ PageKind.postings = .info)) := by
    intro hbad
    rw [Image.new, if_pos hbad] at hnew
    cases hnew
  rw [Image.new, if_neg hbad] at hnew
  rw [not_or, not_not] at hbad
  have hblock : p₀.block = block := by
    cases hnew
    rfl
  have hbytes : p₀.bytes = headerBytes 4 block ++ (leBytes 4 0 ++ (leBytes 2 0 ++ (leBytes 2 0 ++
      List.replicate (capacity - 24) 0))) := by
    cases hnew
    rfl
  have hne : block ≠ 0 := fun h0 => nomatch hbad.2.1 h0
  obtain ⟨q₁, hset, h₁⟩ := setLen_at (p := p₀) (show postingHeader ≤ capacity by decide)
  obtain ⟨q₂, hpage, h₂⟩ := put_at _ (leBytes 4 term.page) (h₁.bytes.trans hbytes)
    length_headerBytes (by rw [Reader.length_leBytes, Reader.length_leBytes])
  have hb₂ := h₂.bytes
  rw [← List.append_assoc] at hb₂
  obtain ⟨q₃, hoffset, h₃⟩ := put_at 20 (leBytes 2 term.offset) hb₂
    (by rw [List.length_append, length_headerBytes, Reader.length_leBytes])
    (by rw [Reader.length_leBytes, Reader.length_leBytes])
  have hrun : (do
      setLen postingHeader
      putU32 16 term.page
      putU16 20 term.offset : Edit PUnit) p₀ = (.ok ⟨⟩, q₃) := by
    rw [Read.ok_bind hset, putU32, Read.ok_bind hpage, putU16, hoffset]
  rw [hrun] at hedit
  cases hedit
  have hbecomes := (h₁.trans h₂).trans h₃
  refine ⟨hbad.1, hne, hterm', hbecomes.block.trans hblock, ?_, ?_⟩
  · rw [hbecomes.len, h₂.len, h₁.len]
  · rw [hbecomes.bytes, tagBytes]
    simp only [List.append_assoc]

/-- A page with the tag of its kind. -/
theorem sealed_page {tag : UInt8} {block : ℕ} {kind : PageKind}
    (hp : p.bytes = headerBytes 4 block ++
      (tagBytes term 0 ++ List.replicate (capacity - 24) 0)) :
    ∃ q, put 6 [tag] { p with kind } = (.ok ⟨⟩, q) ∧ Becomes { p with kind } q p.len
      (headerBytes tag block ++ (tagBytes term 0 ++ List.replicate (capacity - 24) 0)) :=
  put_tag (p := { p with kind }) hp

theorem holds_start {tag : UInt8} {block : ℕ} {rest : List UInt8}
    (hkind : q.kind = if direct then .directPostings else .sealedPostings)
    (hblock : q.block = block ∧ block ≠ 0) (hlen : q.len = headLen direct 0)
    (hbytes : q.bytes = headerBytes tag block ++ (postingBytes direct term ends [] ++ rest))
    (hends : ends.length = if direct then 32 else 0)
    (ht : blockValid term.page ∧ pageHeader ≤ term.offset ∧ term.page < 2 ^ 32 ∧
      term.offset < 2 ^ 16) : (⟨q, none, 0⟩ : SealedBuilder).Holds direct term [] := by
  have hall : q.bytes = ([0x50, 0x49, 0x4e, 0x32] ++ leBytes 2 2 ++ [tag, 0] ++ leBytes 4 block) ++
      (leBytes 4 noBlock ++ (postingBytes direct term ends [] ++ rest)) := by
    rw [hbytes, headerBytes]
    simp only [List.append_assoc]
  have hfront : ([0x50, 0x49, 0x4e, 0x32] ++ leBytes 2 2 ++ [tag, 0] ++ leBytes 4 block).length =
      12 := by
    simp only [List.length_append, Reader.length_leBytes]
    rfl
  have hnext : q.next = .ok noBlock := by
    have hdrop := congrArg (List.drop 12) hall
    rw [List.drop_left' hfront] at hdrop
    rw [Image.next, u32, get_eq (by rw [hlen]; exact le_headLen),
      (Grouped.leAt_of_drop hdrop (by decide)).1]
  refine ⟨hkind, ?_, ?_, ht, rfl, rfl, hlen, ⟨headerBytes tag block, ends, rest, length_headerBytes,
    ⟨hends, fun _ _ hx => absurd hx (Option.not_mem_none _)⟩, hbytes⟩, trivial,
    fun _ he => absurd he List.not_mem_nil⟩
  · rw [Image.checkNext, hnext, ok_bind, if_pos rfl]
  · have hinfo : q.kind ≠ .info := by
      rw [hkind]
      cases direct <;> decide
    rw [Image.checkBlock]
    exact if_pos ⟨fun h0 => absurd (hblock.1.symm.trans h0) hblock.2, fun hk => absurd hk hinfo⟩

/-- A new builder has accepted nothing. -/
theorem SealedBuilder.Holds.new {block : ℕ} (h : newBuilder direct block term = .ok b)
    (ht : term.page < 2 ^ 32 ∧ term.offset < 2 ^ 16) : b.Holds direct term [] := by
  have hsealed : ∀ {b}, SealedBuilder.new block term = .ok b → block ≠ 0 ∧
      (blockValid term.page ∧ pageHeader ≤ term.offset) ∧ b.previous = none ∧ b.count = 0 ∧
      b.page.block = block ∧ b.page.kind = .sealedPostings ∧ b.page.len = postingHeader ∧
      b.page.bytes = headerBytes 7 block ++
        (tagBytes term 0 ++ List.replicate (capacity - 24) 0) := by
    intro b h
    obtain ⟨p, hp, h⟩ := ok_of_bind h
    obtain ⟨-, hne, hterm, hblock, hlen, hbytes⟩ := postings_ok hp
    obtain ⟨q, hq, h⟩ := ok_of_bind h
    cases h
    obtain ⟨q', hput, hbecomes⟩ := @sealed_page term p 7 block .sealedPostings hbytes
    cases (edited_ok hq).symm.trans hput
    exact ⟨hne, hterm, rfl, rfl, hbecomes.block.trans hblock, hbecomes.kind,
      hbecomes.len.trans hlen, hbecomes.bytes⟩
  cases direct with
  | false =>
    obtain ⟨hne, hterm, hprevious, hcount, hblock, hkind, hlen, hbytes⟩ := hsealed h
    obtain ⟨page, previous, count⟩ := b
    cases hprevious
    cases hcount
    exact @holds_start false term _ [] 7 block _ hkind ⟨hblock, hne⟩ hlen hbytes rfl
      ⟨hterm.1, hterm.2, ht⟩
  | true =>
    obtain ⟨b₀, h₀, h⟩ := ok_of_bind h
    obtain ⟨hne, hterm, hprevious, hcount, hblock, hkind, hlen, hbytes⟩ := hsealed h₀
    obtain ⟨q, hq, h⟩ := ok_of_bind h
    cases h
    obtain ⟨q₁, hput, h₁⟩ :=
      @put_tag { b₀.page with kind := .directPostings } 7 9 block _ hbytes
    obtain ⟨q₂, hset, h₂⟩ := setLen_at (p := q₁) (show directHeader ≤ capacity by decide)
    cases (edited_ok hq).symm.trans ((Read.ok_bind hput).trans hset)
    have hbecomes := h₁.trans h₂
    rw [hprevious, hcount]
    have hzeros : List.replicate (capacity - 24) (0 : UInt8) =
        List.replicate 32 0 ++ List.replicate (capacity - 56) 0 := by
      rw [List.replicate_append_replicate]
      rfl
    refine @holds_start true term _ (List.replicate 32 0) 9 block (List.replicate (capacity - 56) 0)
      hbecomes.kind ⟨hbecomes.block.trans hblock, hne⟩ hbecomes.len ?_ (List.length_replicate ..)
      ⟨hterm.1, hterm.2, ht⟩
    rw [hbecomes.bytes, h₁.bytes, hzeros, postingBytes]
    simp only [List.append_assoc]
    rfl

/-! ### Runs -/

/-- Pushes until the page is full; a reference that is an error is left out. -/
def pushAll (direct : Bool) : List Accepted → SealedBuilder → List Accepted × SealedBuilder
  | [], b => ([], b)
  | e :: es, b =>
    match pushEntry direct e b with
    | (.ok true, b') => (e :: (pushAll direct es b').1, (pushAll direct es b').2)
    | (.ok false, b') => ([], b')
    | (.error _, b') => pushAll direct es b'

/-- What the types of the arguments of a push allow. -/
def PushRange (e : Accepted) : Prop := e.1.InRange ∧ e.2.block < 2 ^ 32 ∧ e.2.offset < 2 ^ 16

theorem SealedBuilder.Holds.pushAll (h : b.Holds direct term entries) {es : List Accepted}
    (hes : ∀ e ∈ es, PushRange e) :
    (Image.pushAll direct es b).2.Holds direct term (entries ++ (Image.pushAll direct es b).1) ∧
      (Image.pushAll direct es b).1.Sublist es := by
  induction es generalizing b entries with
  | nil => exact ⟨by rwa [Image.pushAll, List.append_nil], List.Sublist.refl _⟩
  | cons e es ih =>
    have hrest : ∀ x ∈ es, PushRange x := fun x hx => hes x (List.mem_cons_of_mem _ hx)
    rcases h.pushEntry (hes e List.mem_cons_self) with
      ⟨-, b', hpush, hholds, -⟩ | ⟨-, -, hpush, -⟩ | ⟨-, hpush, -⟩
    · obtain ⟨hall, hsub⟩ := ih hholds hrest
      rw [Image.pushAll, hpush]
      rw [List.append_assoc, List.singleton_append] at hall
      exact ⟨hall, hsub.cons_cons e⟩
    · rw [Image.pushAll, hpush]
      exact ⟨by rwa [List.append_nil], List.nil_sublist _⟩
    · obtain ⟨hall, hsub⟩ := ih h hrest
      rw [Image.pushAll, hpush]
      exact ⟨hall, hsub.cons e⟩

/-- References in order are accepted up to the first one without room. -/
theorem SealedBuilder.Holds.pushAll_chained (h : b.Holds direct term entries) {es : List Accepted}
    (hes : ∀ e ∈ es, PushRange e) (hchain : Chained b.previous (es.map Prod.fst)) :
    Image.pushAll direct es b = (es, (Image.pushAll direct es b).2) ∨
      ∃ e rest, es = (Image.pushAll direct es b).1 ++ e :: rest ∧
        entries ++ (Image.pushAll direct es b).1 ≠ [] ∧
        Image.pushEntry direct e (Image.pushAll direct es b).2 =
          (.ok false, (Image.pushAll direct es b).2) := by
  induction es generalizing b entries with
  | nil => exact .inl rfl
  | cons e es ih =>
    have hrest : ∀ x ∈ es, PushRange x := fun x hx => hes x (List.mem_cons_of_mem _ hx)
    rcases h.pushEntry (hes e List.mem_cons_self) with
      ⟨-, b', hpush, hholds, -⟩ | ⟨-, hne, hpush, -⟩ | ⟨hbad, -⟩
    · have hprevious : b'.previous = some e.1 := by
        rw [hholds.previous, List.map_append, List.map_singleton, List.getLast?_concat]
      rw [Image.pushAll, hpush]
      dsimp only
      rcases ih hholds hrest (hprevious ▸ hchain.2) with hall | ⟨x, rest, hsplit, -, hfull⟩
      · exact .inl (by rw [hall])
      · exact .inr ⟨x, rest, congrArg (e :: ·) hsplit,
          List.append_ne_nil_of_right_ne_nil _ (List.cons_ne_nil _ _), hfull⟩
    · rw [Image.pushAll, hpush]
      exact .inr ⟨e, es, rfl, by rwa [List.append_nil], hpush⟩
    · exact absurd hchain.1 hbad

theorem of_validatePostings (h : p.validatePostings layout = .ok ⟨⟩) : ∃ it ends,
    p.postingRefs = .ok it ∧ ascending (it.remaining + 1) it none none = .ok ends ∧
      (p.kind = .directPostings → ∃ count, p.u16 22 = .ok count ∧
        p.checkRoots layout 0 count = .ok ⟨⟩) := by
  obtain ⟨_, -, h⟩ := ok_of_bind h
  obtain ⟨_, -, h⟩ := ok_of_bind h
  obtain ⟨term, -, h⟩ := ok_of_bind h
  obtain ⟨_, -, h⟩ := ok_of_bind h
  obtain ⟨it, hit, h⟩ := ok_of_bind h
  obtain ⟨ends, hends, h⟩ := ok_of_bind h
  refine ⟨it, ends, hit, hends, fun hk => ?_⟩
  obtain ⟨first, last⟩ := ends
  dsimp only at h
  rw [if_pos hk] at h
  obtain ⟨⟨a, b⟩, -, h⟩ := ok_of_bind h
  obtain ⟨_, -, h⟩ := ok_of_bind h
  obtain ⟨count, hcount, h⟩ := ok_of_bind h
  exact ⟨count, hcount, h⟩

theorem of_postingRefs {it : Postings} (h : p.postingRefs = .ok it) : ∃ start,
    p.postingStart = .ok start ∧ start ≤ p.len ∧ it = ⟨Reader.new (p.used.drop start),
      decide (p.kind ≠ .postings), it.remaining, none, false⟩ ∧
    (p.kind ≠ .postings → p.u16 22 = .ok it.remaining) := by
  obtain ⟨term, -, h⟩ := ok_of_bind h
  obtain ⟨count, hcount, h⟩ := ok_of_bind h
  obtain ⟨start, hstart, h⟩ := ok_of_bind h
  obtain ⟨_, hle, h⟩ := ok_of_bind h
  have hle' : start ≤ p.len := by
    by_contra hlt
    rw [Grouped.require, if_neg hlt] at hle
    cases hle
  cases h
  refine ⟨start, hstart, hle', rfl, fun hk => ?_⟩
  rw [postingRecords, if_neg hk] at hcount
  obtain ⟨n, hn, hcount⟩ := ok_of_bind hcount
  obtain ⟨_, -, hcount⟩ := ok_of_bind hcount
  cases hcount
  exact hn

theorem checkRoots_get (h : p.checkRoots layout i n = .ok ⟨⟩) {j : ℕ} (hj : j < n) :
    ∃ r, p.directRoot (i + j) layout = .ok r := by
  induction n generalizing i j with
  | zero => cases hj
  | succ n ih =>
    obtain ⟨r, hr, h⟩ := ok_of_bind h
    cases j with
    | zero => exact ⟨r, hr⟩
    | succ j =>
      have hnext := ih h (Nat.lt_of_succ_lt_succ hj)
      rwa [Nat.add_assoc, Nat.add_comm 1] at hnext

/-- Over a valid page the owning decoder gives the items of the borrowing one, and names the
coordinate of the last of them. -/
theorem ownedPostings_run (hv : p.validatePostings layout = .ok ⟨⟩) : ∃ it own os,
    p.postingRefs = .ok it ∧ OwnedPostings.new p = .ok own ∧
      Iterate.collect Postings.next (it.remaining + 1) it = .ok os ∧
      (∀ n, Iterate.calls OwnedPostings.next n own = Iterate.calls Postings.next n it) ∧
      ∀ k < os.length, if p.kind = .directPostings then ∃ root, p.directRoot k layout = .ok root ∧
          (Iterate.after OwnedPostings.next (k + 1) own).currentDirect layout = .ok (some root)
        else (Iterate.after OwnedPostings.next (k + 1) own).currentDirect layout = .ok none := by
  obtain ⟨it, ends, hit, hends, hroots⟩ := of_validatePostings hv
  obtain ⟨start, hstart, hle, hshape, hcount⟩ := of_postingRefs hit
  have hf : it.failed = false := by rw [hshape]
  obtain ⟨os, hd⟩ := drains_of_ascending hf (Nat.lt_succ_self _) hends
  have hown : OwnedPostings.new p =
      .ok ⟨p, start, it.compressed, it.remaining, none, false⟩ := by
    rw [OwnedPostings.new, hit, ok_bind, hstart, ok_bind]
  have hfollow : (⟨p, start, it.compressed, it.remaining, none,
      false⟩ : OwnedPostings).Follows it :=
    ⟨rfl, hf, rfl, rfl, by rw [hshape], hle, by rw [hshape]; rfl⟩
  have hlen := drains_length hd hf
  refine ⟨it, _, os, hit, hown, hd.collect (by omega), fun n => ?_, fun k hk => ?_⟩
  · rw [(hfollow.drains hd).calls, hd.calls]
  · obtain ⟨hpage, hrem⟩ := hfollow.after hd (n := k + 1) hk
    dsimp only at hpage hrem
    rw [OwnedPostings.currentDirect, hpage]
    by_cases hk' : p.kind = .directPostings
    · obtain ⟨count, hn, hall⟩ := hroots hk'
      have hsame := hcount (by rw [hk']; decide)
      rw [hn] at hsame
      cases hsame
      obtain ⟨root, hroot⟩ := checkRoots_get hall (show k < it.remaining by omega)
      rw [Nat.zero_add] at hroot
      have hslot : it.remaining - ((Iterate.after OwnedPostings.next (k + 1)
          ⟨p, start, it.compressed, it.remaining, none, false⟩).remaining + 1) = k := by omega
      rw [if_pos hk']
      refine ⟨root, hroot, ?_⟩
      rw [if_neg (not_not.2 hk'), hn, ok_bind, Grouped.require_of (by omega), ok_bind, hslot, hroot,
        ok_bind]
    · rw [if_neg hk', if_pos hk']

/-- What finishing a builder gives. -/
def Finishes (layout : HeapLayout) (direct : Bool) (term : TermRef) (accepted : List Accepted)
    (b : SealedBuilder) : Prop :=
  (accepted = [] ∧ b.finish = .error .invalidState) ∨
  ∃ page it, b.finish = .ok page ∧ page.validatePostings layout = .ok ⟨⟩ ∧
    page.postingTerm = .ok term ∧ page.postingRefs = .ok it ∧
    Iterate.collect Postings.next (it.remaining + 1) it = .ok (accepted.map Prod.fst) ∧
    (direct = true → (∀ (i : ℕ) (e : Accepted), accepted[i]? = some e →
      page.directRoot i layout = .ok (some e.2)) ∧
      ∃ first last, (accepted.map Prod.fst).head? = some first ∧
        (accepted.map Prod.fst).getLast? = some last ∧ page.directEndpoints = .ok (first, last))

theorem SealedBuilder.Holds.finishes (h : b.Holds direct term entries)
    (hroots : direct = true → ∀ e ∈ entries, e.2.Valid layout) :
    Finishes layout direct term entries b := by
  by_cases hne : entries = []
  · subst hne
    exact .inl ⟨rfl, if_pos h.count⟩
  · obtain ⟨first, hfirst⟩ : ∃ x, (entries.map Prod.fst).head? = some x := by
      cases entries with
      | nil => exact absurd rfl hne
      | cons e es => exact ⟨e.1, rfl⟩
    obtain ⟨last, hlast⟩ : ∃ x, (entries.map Prod.fst).getLast? = some x :=
      ⟨_, List.getLast?_eq_some_getLast fun h0 => hne (List.map_eq_nil_iff.1 h0)⟩
    have hcount : b.count ≠ 0 := by
      rw [h.count]
      exact fun h0 => hne (List.length_eq_zero_iff.1 h0)
    have hcollect := h.drains.collect (n := entries.length + 1)
      (by rw [List.length_map]; exact Nat.lt_succ_self _)
    refine .inr ⟨b.page, _, if_neg hcount, h.validatePostings hne hroots, h.postingTerm,
      h.postingRefs hne, hcollect, ?_⟩
    rintro rfl
    refine ⟨fun i e hi => ?_, first, last, hfirst, hlast, h.directEndpoints hfirst hlast⟩
    exact h.directRoot hi (hroots rfl e (List.mem_of_getElem? hi))

theorem chained_of_pairwise {previous : Option OwnerRef} (hvalid : ∀ x ∈ owners, x.Valid)
    (h : owners.Pairwise OwnerRef.Before) (hp : ∀ p ∈ previous, ∀ x ∈ owners, p.Before x) :
    Chained previous owners := by
  induction owners generalizing previous with
  | nil => trivial
  | cons a as ih =>
    obtain ⟨ha, has⟩ := List.pairwise_cons.1 h
    have hva := hvalid a List.mem_cons_self
    refine ⟨⟨fun p hp' => hp p hp' a List.mem_cons_self, hva.1, hva.2.1⟩,
      ih (fun x hx => hvalid x (List.mem_cons_of_mem _ hx)) has ?_⟩
    rintro p ⟨⟩ x hx
    exact ha x hx

/-- Pushing any references into a new builder of either kind accepts some of them, all up to the
first one without room where they ascend.  The finished page validates and gives back exactly
these.  A push that finds no room or fails leaves the builder, and out of order it fails.  Over any
valid posting page the owning decoder gives the items of the borrowing one and names their slots. -/
theorem sealedPages_exact {block : ℕ} {es : List Accepted}
    (hb : newBuilder direct block term = .ok b)
    (ht : term.page < 2 ^ 32 ∧ term.offset < 2 ^ 16) (hes : ∀ e ∈ es, PushRange e)
    (hroots : direct = true → ∀ e ∈ es, e.2.Valid layout) :
    (Finishes layout direct term (pushAll direct es b).1 (pushAll direct es b).2 ∧
      ((∀ e ∈ es, e.1.Valid) → (es.map Prod.fst).Pairwise OwnerRef.Before →
        (pushAll direct es b).1 = es ∨ ∃ e rest, es = (pushAll direct es b).1 ++ e :: rest ∧
          (pushAll direct es b).1 ≠ [] ∧
          pushEntry direct e (pushAll direct es b).2 = (.ok false, (pushAll direct es b).2)) ∧
      ∀ e, PushRange e →
        ((∃ b', pushEntry direct e (pushAll direct es b).2 = (.ok true, b')) ∨
          pushEntry direct e (pushAll direct es b).2 = (.ok false, (pushAll direct es b).2) ∨
          ∃ error, pushEntry direct e (pushAll direct es b).2 =
            (.error error, (pushAll direct es b).2)) ∧
        ((∃ last ∈ (pushAll direct es b).1.getLast?, ¬ last.1.Before e.1) →
          ∃ error, pushEntry direct e (pushAll direct es b).2 =
            (.error error, (pushAll direct es b).2))) ∧
    ∀ p, validatePostings p layout = .ok ⟨⟩ → ∃ it own os,
      p.postingRefs = .ok it ∧ OwnedPostings.new p = .ok own ∧
      Iterate.collect Postings.next (it.remaining + 1) it = .ok os ∧
      (∀ n, Iterate.calls OwnedPostings.next n own = Iterate.calls Postings.next n it) ∧
      ∀ k < os.length, if p.kind = .directPostings then ∃ root, p.directRoot k layout = .ok root ∧
          (Iterate.after OwnedPostings.next (k + 1) own).currentDirect layout = .ok (some root)
        else (Iterate.after OwnedPostings.next (k + 1) own).currentDirect layout = .ok none := by
  have h₀ := SealedBuilder.Holds.new hb ht
  obtain ⟨h, hsub⟩ := h₀.pushAll hes
  rw [List.nil_append] at h
  refine ⟨⟨h.finishes fun hd e he => hroots hd e (hsub.subset he), fun hvalid hpair => ?_,
    fun e he => ⟨?_, ?_⟩⟩, fun p hv => ownedPostings_run hv⟩
  · have hchain : Chained b.previous (es.map Prod.fst) := by
      rw [h₀.previous]
      refine chained_of_pairwise (fun x hx => ?_) hpair fun p hp => nomatch hp
      obtain ⟨e, he, rfl⟩ := List.mem_map.1 hx
      exact hvalid e he
    rcases h₀.pushAll_chained hes hchain with hall | ⟨e, rest, hsplit, hne, hfull⟩
    · exact .inl (by rw [hall])
    · exact .inr ⟨e, rest, hsplit, hne, hfull⟩
  · rcases h.pushEntry he with ⟨-, b', hpush, -⟩ | ⟨-, -, hpush, -⟩ | ⟨-, hpush, -⟩
    · exact .inl ⟨b', hpush⟩
    · exact .inr (.inl hpush)
    · exact .inr (.inr ⟨_, hpush⟩)
  · rintro ⟨last, hlast, hbad⟩
    have hprevious : last.1 ∈ (pushAll direct es b).2.previous := by
      rw [h.previous, List.getLast?_map, Option.mem_def.1 hlast]
      rfl
    rcases h.pushEntry he with ⟨hdelta, -⟩ | ⟨hdelta, -⟩ | ⟨-, hpush, -⟩
    · exact absurd (hdelta.1 _ hprevious) hbad
    · exact absurd (hdelta.1 _ hprevious) hbad
    · exact ⟨_, hpush⟩

/-- A direct page of two references. -/
theorem sealedPages_exact_two : ∃ b, newBuilder true 1 ⟨1, 16⟩ = .ok b ∧
    Finishes ⟨8, by decide, by decide⟩ true ⟨1, 16⟩
      (pushAll true [(⟨1, 0, 1⟩, ⟨0, 1⟩), (⟨1, 1, 2⟩, ⟨0, 2⟩)] b).1
      (pushAll true [(⟨1, 0, 1⟩, ⟨0, 1⟩), (⟨1, 1, 2⟩, ⟨0, 2⟩)] b).2 := by
  obtain ⟨b, hb⟩ : ∃ b, newBuilder true 1 ⟨1, 16⟩ = .ok b := ⟨_, rfl⟩
  refine ⟨b, hb, (sealedPages_exact hb ⟨by decide, by decide⟩ ?_ ?_).1.1⟩
  · intro e he
    rcases List.mem_cons.1 he with rfl | he
    · exact ⟨by decide, by decide, by decide⟩
    · rw [List.mem_singleton.1 he]
      exact ⟨by decide, by decide, by decide⟩
  · intro _ e he
    rcases List.mem_cons.1 he with rfl | he
    · decide
    · rw [List.mem_singleton.1 he]
      decide

end

end Image

end PinCore
