import PinCore.Scan.Interpret

/-!
# Draining a plan

The emission loop seeks past the previous owner until nothing is left, so it meets every owner
of `K` in the denoted set once and in order, and emits the roots of the live ones.
-/

namespace PinCore

open Obs

section

variable {H : ℕ → Store} {F : Store} {K : Set OwnerRef} {t : ℕ} {R : ℕ → List OwnerRef} {e : Expr}

theorem Hold.holds {cursors : List Cursor} (h : Hold H F K t cursors R) :
    ∀ c ∈ cursors, ∃ R, c.Holds H F K t R := by
  intro c hc
  obtain ⟨i, hi⟩ := List.mem_iff_getElem?.1 hc
  exact ⟨R i, h i c hi⟩

/-- One round of the loop, given the rounds after it. -/
theorem drain_round {p : Plan} {previous : Option OwnerRef} {cache : Option Page} {recheck : Bool}
    {Q : List (RootTid × Bool) → ℕ → Prop} (hH : History H F K) (hs : Spans p.nodes p.root e)
    (hd : e.cursors.Nodup) (he : ∀ c ∈ e.cursors, c < p.cursors.length)
    (hold : Hold H F K t p.cursors R) (hc : CacheAt H t cache) (hp : ∀ q ∈ previous, F.Known q)
    (hnone : ∀ t', Next K (e.den R ∩ past previous true) none → Q [] t')
    (hsome : ∀ owner v p' R' cache' t', Next K (e.den R ∩ past previous true) (some owner) →
      F.Known owner → Seen H t' owner v → p'.nodes = p.nodes → p'.root = p.root →
      p'.cursors.length = p.cursors.length → Hold H F K t' p'.cursors R' →
      Dropped K e (past previous true) R R' → CacheAt H t' cache' →
      Settles H t' (fun fuel => drain recheck fuel p' (some owner) cache') fun rest t'' =>
        Q (v.toList.map (fun r => (r, recheck)) ++ rest) t'') :
    Settles H t (fun fuel => drain recheck fuel p previous cache) Q := by
  refine Settles.succ ?_
  unfold drain
  refine (planSeek_settles hH hs hd he hold hp).bind ?_
  rintro ⟨value, p'⟩ t₁ ht₁ ⟨R', hv, hnodes, hroot⟩
  cases value with
  | none => exact Settles.pure (hnone _ hv.next)
  | some owner =>
    have hok : F.Known owner := hv.known_final hH owner rfl
    refine Settles.ofExcept_bind (?_ : _ = Except.ok Ordering.lt) (Settles.ensure_bind rfl ?_)
    · cases previous with
      | none => rfl
      | some q => exact compareOwner_lt (hp q rfl) hok hv.next.1.2
    refine (layout_sees hH).bind_settles ?_
    rintro _ t₂ ht₂ rfl
    have hrest : ∀ v cache' t₃, t₁ ≤ t₃ → Seen H t₃ owner v → CacheAt H t₃ cache' →
        Settles H t₃ (fun fuel => do
          let rest ← drain recheck fuel p' (some owner) cache'
          pure (v.toList.map (fun r => (r, recheck)) ++ rest)) Q := by
      intro v cache' t₃ ht₃ hseen hc'
      refine (hsome owner v p' R' cache' t₃ hv.next hok hseen hnodes hroot hv.length
        (hv.hold.mono hH ht₃) hv.dropped hc').bind ?_
      exact fun rest _ _ hQ => Settles.pure hQ
    rcases directOf_eq owner hH hv.hold.holds with hdirect | ⟨v, hseen, hdirect⟩
    · refine Settles.ofExcept_bind hdirect ?_
      have hc₂ := hc.mono (Nat.le_trans ht₁ ht₂)
      refine (resolve_sees hH hc₂ (hH.known ht₂ (hv.known owner rfl))).bind_settles ?_
      rintro ⟨root, cache'⟩ t₃ ht₃ ⟨hseen, hc'⟩
      exact hrest root cache' t₃ (Nat.le_trans ht₂ ht₃) hseen hc'
    · refine Settles.ofExcept_bind hdirect ?_
      exact hrest v cache t₂ ht₂ (hseen.mono ht₂) (hc.mono (Nat.le_trans ht₁ ht₂))

/-- The loop emits the roots of the denoted owners past `previous`, in owner order. -/
theorem drain_settles {p : Plan} {previous : Option OwnerRef} {cache : Option Page} {recheck : Bool}
    (hH : History H F K) (hs : Spans p.nodes p.root e) (hd : e.cursors.Nodup)
    (he : ∀ c ∈ e.cursors, c < p.cursors.length) (hold : Hold H F K t p.cursors R)
    (hc : CacheAt H t cache) (hp : ∀ q ∈ previous, F.Known q) :
    Settles H t (fun fuel => drain recheck fuel p previous cache) fun out t' =>
      ∃ L roots, Enumerates K L (e.den R ∩ past previous true) ∧ Emits H t' L roots ∧
        out = roots.map fun r => (r, recheck) := by
  -- every round leaves fewer postings past the bound
  suffices hmain : ∀ (U : List OwnerRef) n t (p : Plan) previous cache (R : ℕ → List OwnerRef),
      postingsPast U previous true < n → (∀ x ∈ e.den R, x ∈ U) → Spans p.nodes p.root e →
      (∀ c ∈ e.cursors, c < p.cursors.length) → Hold H F K t p.cursors R → CacheAt H t cache →
      (∀ q ∈ previous, F.Known q) →
      Settles H t (fun fuel => drain recheck fuel p previous cache) fun out t' =>
        ∃ L roots, Enumerates K L (e.den R ∩ past previous true) ∧ Emits H t' L roots ∧
          out = roots.map fun r => (r, recheck) from
    hmain (e.cursors.flatMap R) _ t p previous cache R (Nat.lt_succ_self _)
      (fun _ hx => Expr.mem_flatMap_of_den hx) hs he hold hc hp
  intro U n
  induction n with
  | zero => exact fun _ _ _ _ _ hn => absurd hn (Nat.not_lt_zero _)
  | succ n ih =>
    intro t p previous cache R hlt hU hs he hold hc hp
    refine drain_round hH hs hd he hold hc hp (fun _ hnone => ⟨[], [], .nil hnone, .nil, rfl⟩) ?_
    intro owner v p' R' cache' t' hnext hok hseen hnodes hroot hlen hold' hdrop hc'
    have hsub : past (some owner) true ⊆ past previous true := fun x hx =>
      mem_past_of_le hnext.1.2 (le_of_lt hx)
    have hless : postingsPast U (some owner) true < postingsPast U previous true := by
      refine length_filter_lt (a := owner) (fun x hx => ?_) (hU owner hnext.1.1)
        (decide_eq_true hnext.1.2) (decide_eq_false (lt_irrefl owner))
      exact decide_eq_true (hsub (of_decide_eq_true hx))
    refine (ih t' p' (some owner) cache' R' (by omega)
      (fun x hx => hU x (Expr.den_mono hdrop.sublist hx)) (by rwa [hnodes, hroot]) (hlen ▸ he)
      hold' hc' (by rintro _ ⟨⟩; exact hok)).mono ?_
    rintro rest t'' ht'' ⟨L, roots, hL, hem, rfl⟩
    refine ⟨owner :: L, v.toList ++ roots, .cons hnext hL (fun x hx => ?_) fun x hx hK hlt => ?_,
      .cons (hseen.mono ht'') hem, by rw [List.map_append]⟩
    · exact ⟨⟨Expr.den_mono hdrop.sublist hx.1, hsub hx.2⟩, hx.2⟩
    · exact ⟨hdrop.keeps ⟨hx, hK⟩, hlt⟩

end

end PinCore
