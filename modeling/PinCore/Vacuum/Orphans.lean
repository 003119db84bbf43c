import PinCore.Vacuum.Mentions

/-!
# Orphans

The check before a block that was never written is put onto the free list, on any store of valid
pages.  It passes exactly if no page stores one of the references that it reads, and so it misses
a block that only a second owner names.
-/

namespace PinCore

open Obs

/-! ### The check of a store -/

section

variable {s : Store} {target : ℕ} {bs : List ℕ}

/-- Every page of the store is valid by itself. -/
def PagesValid (s : Store) : Prop :=
  ∀ b < s.blocks, (s.page b).block = b ∧ (s.page b).Valid s.layout

/-- A written page stores a reference to the block besides those of second owners, or holds a leaf
entry that cannot be read. -/
def Refuses (s : Store) (target : ℕ) : Prop :=
  ∃ b < s.blocks, (s.page b).kind ≠ .zero ∧
    ((s.page b).OtherNames target ∨ ¬ (s.page b).Readable)

theorem loadAny_valid {b : ℕ} (hv : PagesValid s) (hb : b < s.blocks) :
    Returns s (loadAny b) (· = s.page b) := by
  obtain ⟨hblock, hvalid⟩ := hv b hb
  refine blocks_returns.bind fun n hn => ?_
  subst hn
  refine Returns.ensure_bind hb (readPage_returns.bind fun p hp => ?_)
  subst hp
  refine Returns.ensure_bind hblock (layout_returns.bind fun l hl => ?_)
  subst hl
  exact Returns.ofExcept_bind (if_pos hvalid) (Returns.pure rfl)

/-- The check of a list of blocks passes exactly if that of each written page does. -/
theorem checkUnreferenced_iff (hv : PagesValid s) (hbs : ∀ b ∈ bs, b < s.blocks) :
    (checkUnreferenced target bs).eval s = .ok ⟨⟩ ↔ ∀ b ∈ bs, (s.page b).kind ≠ .zero →
      mentions (s.page b) s.layout target = .ok false := by
  constructor
  · refine Yields.eval (Q := fun _ => _) ?_
    induction bs with
    | nil => exact (Returns.pure fun _ hb => absurd hb List.not_mem_nil).yields
    | cons b bs ih =>
      have hrest := ih fun c hc => hbs c (List.mem_cons_of_mem _ hc)
      refine (loadAny_valid hv (hbs b List.mem_cons_self)).bind_yields ?_
      rintro _ rfl
      rw [List.forall_mem_cons]
      split_ifs with hz
      · intro t a t' h
        exact ⟨fun hn => absurd hz hn, hrest t a t' h⟩
      · refine layout_returns.bind_yields ?_
        rintro _ rfl
        refine Yields.ofExcept_bind fun found hfound => Yields.ensure_bind fun hf => ?_
        intro t a t' h
        exact ⟨fun _ => hf ▸ hfound, hrest t a t' h⟩
  · intro h
    have hpass : Returns s (checkUnreferenced target bs) fun _ => True := by
      induction bs with
      | nil => exact Returns.pure trivial
      | cons b bs ih =>
        rw [List.forall_mem_cons] at h hbs
        have hrest := ih hbs.2 h.2
        refine (loadAny_valid hv hbs.1).bind ?_
        rintro _ rfl
        split_ifs with hz
        · exact hrest
        · refine layout_returns.bind ?_
          rintro _ rfl
          exact Returns.ofExcept_bind (h.1 hz) (Returns.ensure_bind rfl hrest)
    obtain ⟨⟨⟩, heval, -⟩ := hpass.eval
    exact heval

/-- The check passes exactly if it is not refused. -/
theorem check_ok_iff (hv : PagesValid s) :
    (checkUnreferenced target (List.range s.blocks)).eval s = .ok ⟨⟩ ↔ ¬ Refuses s target := by
  rw [checkUnreferenced_iff hv fun b hb => List.mem_range.1 hb, Refuses]
  push Not
  refine forall_congr' fun b => ?_
  rw [List.mem_range]
  refine forall₂_congr fun hb hz => ?_
  rw [mentions_iff (hv b hb).2 hz]

/-- The check before the reuse of a block implies that no written page stores a reference to it,
exactly if no packed dictionary entry has its second owner on the block, or the check is refused
for another reference or a leaf entry that cannot be read. -/
theorem checkUnreferenced_sound_iff (hv : PagesValid s) :
    ((checkUnreferenced target (List.range s.blocks)).eval s = .ok ⟨⟩ →
      ∀ b < s.blocks, (s.page b).kind ≠ .zero → ¬ (s.page b).Names target) ↔
    ((∃ b < s.blocks, (s.page b).SecondNames target) → Refuses s target) := by
  rw [check_ok_iff hv]
  constructor
  · rintro h ⟨b, hb, hsecond⟩
    by_contra hr
    refine h hr b hb (fun hz => ?_) (.inr hsecond)
    revert hsecond
    rw [Page.kind] at hz
    rw [Page.SecondNames]
    cases hbody : (s.page b).body with
    | dictionary packed es => rw [hbody] at hz; cases hz
    | _ => exact id
  · rintro h hr b hb hz (hother | hsecond)
    · exact hr ⟨b, hb, hz, .inl hother⟩
    · exact hr (h ⟨b, hb, hsecond⟩)

end

/-! ### A second owner that the check misses -/

/-- An index whose only term has its first owner in page 2 and its second owner in page 3, which
was never written. -/
def lostOwnerStore : Store where
  layout := ⟨8, Nat.succ_pos 7, Nat.le_add_right 8 504⟩
  blocks := 4
  page
    | 0 => metaPage {
        maxOffset := 8, packed := true, incarnation := 3, ownerHead := 2, ownerTail := 2
        freeHead := noBlock, journal := none
        bucket := fun i => if i = bucketFor [97] then (1, 1) else (noBlock, noBlock)
        grouped := .default }
    | 1 => ⟨1, noBlock, .dictionary true [⟨[97], 1, 1, ⟨2, 0, 1⟩, 1, some ⟨3, 0, 2⟩⟩], false⟩
    | 2 => ⟨2, noBlock, .owners [⟨1, ⟨0, 1⟩, .published, true, 1, 1, noBlock, 16,
        List.replicate 16 0⟩], false⟩
    | b => Page.zero b

set_option maxRecDepth 10000 in
theorem lostOwnerStore_valid : PagesValid lostOwnerStore := by
  change ∀ b < 4, _
  decide +kernel

set_option maxRecDepth 10000 in
/-- The page that the dictionary entry names as that of its second owner passes the check. -/
theorem checkUnreferenced_misses : PagesValid lostOwnerStore ∧
    (checkUnreferenced 3 (List.range lostOwnerStore.blocks)).eval lostOwnerStore = .ok ⟨⟩ ∧
    1 < lostOwnerStore.blocks ∧ (lostOwnerStore.page 1).kind = .dictionary ∧
    (lostOwnerStore.page 1).Names 3 := by
  refine ⟨lostOwnerStore_valid, ?_, by decide, rfl, ?_⟩
  · decide +kernel
  · exact .inr ⟨_, List.mem_singleton_self _, _, rfl, rfl⟩

theorem lostOwnerStore_refuses : Refuses lostOwnerStore 2 :=
  ⟨1, by decide, nofun, .inl (.inr ⟨_, List.mem_singleton_self _, .inr (.inr rfl)⟩)⟩

/-- The page of its first owner is refused. -/
theorem checkUnreferenced_first : Refuses lostOwnerStore 2 ∧
    ((checkUnreferenced 2 (List.range lostOwnerStore.blocks)).eval lostOwnerStore = .ok ⟨⟩ →
      ∀ b < lostOwnerStore.blocks, (lostOwnerStore.page b).kind ≠ .zero →
        ¬ (lostOwnerStore.page b).Names 2) :=
  ⟨lostOwnerStore_refuses,
    (checkUnreferenced_sound_iff lostOwnerStore_valid).2 fun _ => lostOwnerStore_refuses⟩

end PinCore
