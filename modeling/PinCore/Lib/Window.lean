import Mathlib.Tactic.Common
import PinCore.Lib.Except

/-!
# Searching a window

A window of width `n` is searched in `n` ascending lists: some start `s` has `s + i` in list `i`
for every `i`.  The search takes the elements of one list, the anchor, in order and probes the
other lists at the start that the element implies.  The lists are read through cursors that only
move forward, with one element of lookahead.  `search_spec` says that the cursors miss nothing; a
read may also fail with one of a given set of errors.
-/

namespace PinCore

namespace Window

variable {σ ε : Type}

/-! ### Lookahead -/

/-- Reads on until an element is at least `target`; the element found is the new lookahead. -/
def lookahead (stuck : ε) (fetch : σ → Except ε (Option ℕ × σ)) (target : ℕ) :
    ℕ → Option ℕ → σ → Except ε (Option ℕ × σ)
  | 0, _, _ => .error stuck
  | fuel + 1, current, s => do
    let (value, s) ← match current with
      | some v => .ok (some v, s)
      | none => fetch s
    match value with
    | none => .ok (none, s)
    | some v =>
      if v < target then lookahead stuck fetch target fuel none s else .ok (some v, s)

/-- A read at `target` fails with an error in `E`, finds the list exhausted, or passes only
elements below the target and returns the next one. -/
def Fetches (E : ε → Prop) (Rep : σ → List ℕ → Prop) (Done : σ → Prop) (target : ℕ)
    (x : Except ε (Option ℕ × σ)) (ps : List ℕ) : Prop :=
  (∃ e, E e ∧ x = .error e) ∨
    ((∀ u ∈ ps, u < target) ∧ ∃ s, x = .ok (none, s) ∧ Done s) ∨
    ∃ passed v rest s, ps = passed ++ v :: rest ∧ (∀ u ∈ passed, u < target) ∧
      x = .ok (some v, s) ∧ Rep s rest

section

variable {stuck : ε} {fetch : σ → Except ε (Option ℕ × σ)} {target fuel v : ℕ} {E : ε → Prop}
  {Rep : σ → List ℕ → Prop} {Done : σ → Prop} {ps : List ℕ} {s : σ} {current : Option ℕ}
  {x : Except ε (Option ℕ × σ)}

theorem Fetches.cons (h : Fetches E Rep Done target x ps) (hv : v < target) :
    Fetches E Rep Done target x (v :: ps) := by
  rcases h with h | ⟨hall, h⟩ | ⟨passed, u, rest, s, rfl, hp, h⟩
  · exact .inl h
  · exact .inr (.inl ⟨List.forall_mem_cons.2 ⟨hv, hall⟩, h⟩)
  · exact .inr (.inr ⟨v :: passed, u, rest, s, rfl, List.forall_mem_cons.2 ⟨hv, hp⟩, h⟩)

/-- The elements passed first. -/
theorem Fetches.append {passed : List ℕ} (h : Fetches E Rep Done target x ps)
    (hp : ∀ u ∈ passed, u < target) : Fetches E Rep Done target x (passed ++ ps) := by
  induction passed with
  | nil => exact h
  | cons v passed ih =>
    obtain ⟨hv, hp⟩ := List.forall_mem_cons.1 hp
    exact (ih hp).cons hv

/-- With a lookahead, too, the first element not below the target is found. -/
theorem lookahead_spec (stuck : ε) (target : ℕ)
    (hfetch : ∀ s ps, Rep s ps → Fetches E Rep Done target (fetch s) ps)
    (hs : Rep s ps) (hfuel : current.toList.length + ps.length < fuel) :
    Fetches E Rep Done target (lookahead stuck fetch target fuel current s)
        (current.toList ++ ps) ∧
      ∀ v s', lookahead stuck fetch target fuel current s = .ok (some v, s') → target ≤ v := by
  induction fuel generalizing current s ps with
  | zero => omega
  | succ fuel ih =>
    cases current with
    | some v =>
      rw [lookahead]
      simp only [ok_bind]
      split_ifs with hv
      · have hless : (none : Option ℕ).toList.length + ps.length < fuel := by
          simp only [Option.toList_some, Option.toList_none, List.length_cons,
            List.length_nil] at hfuel ⊢
          omega
        obtain ⟨hrec, hle⟩ := ih hs hless
        exact ⟨hrec.cons hv, hle⟩
      · refine ⟨.inr (.inr ⟨[], v, ps, s, rfl, fun _ h => absurd h List.not_mem_nil, rfl, hs⟩), ?_⟩
        rintro u s' ⟨⟩
        exact Nat.le_of_not_lt hv
    | none =>
      rw [lookahead]
      rcases hfetch s ps hs with ⟨e, he, hx⟩ | ⟨hall, s', hx, hdone⟩ |
        ⟨passed, v, rest, s', rfl, hp, hx, hs'⟩
      · simp only [hx, error_bind]
        exact ⟨.inl ⟨e, he, rfl⟩, nofun⟩
      · simp only [hx, ok_bind]
        exact ⟨.inr (.inl ⟨hall, s', rfl, hdone⟩), nofun⟩
      · simp only [hx, ok_bind]
        split_ifs with hv
        · have hless : (none : Option ℕ).toList.length + rest.length < fuel := by
            simp only [Option.toList_none, List.length_nil, List.length_append,
              List.length_cons] at hfuel ⊢
            omega
          obtain ⟨hrec, hle⟩ := ih hs' hless
          exact ⟨(hrec.cons hv).append hp, hle⟩
        · refine ⟨.inr (.inr ⟨passed, v, rest, s', rfl, hp, rfl, hs'⟩), ?_⟩
          rintro u s'' ⟨⟩
          exact Nat.le_of_not_lt hv

end

/-! ### Windows -/

/-- What a probe of one list finds: the element, another one, or that no later start can match. -/
inductive Probe where
  | hit
  | miss
  | stop
  deriving DecidableEq, Repr

/-- Probes the lists from `index` on at a start, except the anchor. -/
def probeAll (probe : ℕ → ℕ → σ → Except ε (Probe × σ)) (anchor start : ℕ) :
    ℕ → ℕ → σ → Except ε (Probe × σ)
  | 0, _, s => .ok (.hit, s)
  | left + 1, index, s =>
    if index = anchor then probeAll probe anchor start left (index + 1) s
    else do
      let (found, s) ← probe index (start + index) s
      match found with
      | .hit => probeAll probe anchor start left (index + 1) s
      | found => .ok (found, s)

/-- The search over the elements of the anchor. -/
def search (stuck : ε) (pull : σ → Except ε (Option ℕ × σ))
    (probe : ℕ → ℕ → σ → Except ε (Probe × σ)) (n anchor : ℕ) : ℕ → σ → Except ε Bool
  | 0, _ => .error stuck
  | fuel + 1, s => do
    let (position, s) ← pull s
    match position with
    | none => .ok false
    | some p =>
      if p < anchor then search stuck pull probe n anchor fuel s
      else do
        let (found, s) ← probeAll probe anchor (p - anchor) n 0 s
        match found with
        | .hit => .ok true
        | .stop => .ok false
        | .miss => search stuck pull probe n anchor fuel s

/-- The lists `R'` have the elements of `R` that a start from `start` on can need. -/
def Keeps (start : ℕ) (R R' : ℕ → List ℕ) : Prop :=
  ∀ i u, start + i ≤ u → (u ∈ R' i ↔ u ∈ R i)

/-- The window of the anchor's element `p` is complete. -/
def Hit (n anchor : ℕ) (R : ℕ → List ℕ) (p : ℕ) : Prop :=
  anchor ≤ p ∧ ∀ i < n, i ≠ anchor → p - anchor + i ∈ R i

section

variable {n anchor start left index fuel p q : ℕ} {R R' R'' : ℕ → List ℕ} {A : List ℕ}
  {E : ε → Prop} {Rep : σ → List ℕ → (ℕ → List ℕ) → Prop} {s : σ} {stuck : ε}
  {pull : σ → Except ε (Option ℕ × σ)} {probe : ℕ → ℕ → σ → Except ε (Probe × σ)}

theorem Keeps.refl : Keeps start R R := fun _ _ _ => Iff.rfl

theorem Keeps.trans (h : Keeps start R R') (h' : Keeps start R' R'') : Keeps start R R'' :=
  fun i u hu => (h' i u hu).trans (h i u hu)

theorem Keeps.hit_iff (h : Keeps start R R') (hp : start ≤ p - anchor) :
    Hit n anchor R' p ↔ Hit n anchor R p := by
  refine and_congr_right fun _ => forall_congr' fun i => forall_congr' fun _ =>
    forall_congr' fun _ => ?_
  exact h i _ (Nat.add_le_add_right hp i)

/-- Some window is complete just when some start has an element in every list. -/
theorem exists_hit_iff (ha : anchor < n) :
    (∃ p ∈ R anchor, Hit n anchor R p) ↔ ∃ start, ∀ i < n, start + i ∈ R i := by
  constructor
  · rintro ⟨p, hp, hle, hall⟩
    refine ⟨p - anchor, fun i hi => ?_⟩
    by_cases hia : i = anchor
    · rw [hia, Nat.sub_add_cancel hle]
      exact hp
    · exact hall i hi hia
  · rintro ⟨start, hall⟩
    refine ⟨start + anchor, hall anchor ha, Nat.le_add_left _ _, fun i hi _ => ?_⟩
    rw [Nat.add_sub_cancel]
    exact hall i hi

/-- What a probe of list `index` at `start` may do. -/
def Probes (E : ε → Prop) (Rep : σ → List ℕ → (ℕ → List ℕ) → Prop) (start index : ℕ)
    (A : List ℕ) (R : ℕ → List ℕ) (x : Except ε (Probe × σ)) : Prop :=
  (∃ e, E e ∧ x = .error e) ∨
    (∃ s, x = .ok (.stop, s) ∧ ∀ u ∈ R index, u < start + index) ∨
    ∃ found s R', x = .ok (found, s) ∧ Rep s A R' ∧ Keeps start R R' ∧
      (found = .hit ∧ start + index ∈ R index ∨ found = .miss ∧ start + index ∉ R index)

/-- The probes of all lists. -/
theorem probeAll_spec
    (hprobe : ∀ index < n, index ≠ anchor → ∀ s A R, Rep s A R →
      Probes E Rep start index A R (probe index (start + index) s))
    (hs : Rep s A R) (hn : index + left = n) :
    (∃ e, E e ∧ probeAll probe anchor start left index s = .error e) ∨
      (∃ s', probeAll probe anchor start left index s = .ok (.stop, s') ∧
        ∃ i < n, i ≠ anchor ∧ ∀ u ∈ R i, u < start + i) ∨
      ∃ found s' R', probeAll probe anchor start left index s = .ok (found, s') ∧
        Rep s' A R' ∧ Keeps start R R' ∧
        (found = .hit ∧ (∀ i < n, index ≤ i → i ≠ anchor → start + i ∈ R i) ∨
          found = .miss ∧ ∃ i < n, i ≠ anchor ∧ start + i ∉ R i) := by
  induction left generalizing index s R with
  | zero =>
    refine .inr (.inr ⟨.hit, s, R, rfl, hs, .refl, .inl ⟨rfl, ?_⟩⟩)
    intro i hi hle
    omega
  | succ left ih =>
    have hn' : index + 1 + left = n := by omega
    rw [probeAll]
    by_cases ha : index = anchor
    · rw [if_pos ha]
      rcases ih hs hn' with h | h | ⟨found, s', R', hx, hs', hk, h⟩
      · exact .inl h
      · exact .inr (.inl h)
      · refine .inr (.inr ⟨found, s', R', hx, hs', hk, h.imp_left fun ⟨hf, hall⟩ => ⟨hf, ?_⟩⟩)
        intro i hi hle hne
        exact hall i hi (by omega) hne
    · rw [if_neg ha]
      rcases hprobe index (by omega) ha s A R hs with
        ⟨e, he, hx⟩ | ⟨s', hx, hlt⟩ | ⟨found, s', R', hx, hs', hk, h⟩
      · exact .inl ⟨e, he, by rw [hx]; rfl⟩
      · exact .inr (.inl ⟨s', by rw [hx]; rfl, index, by omega, ha, hlt⟩)
      rcases h with ⟨rfl, hmem⟩ | ⟨rfl, hmem⟩
      · -- the list has the element: go on with the next one
        rw [hx]
        simp only [ok_bind]
        rcases ih hs' hn' with h | ⟨s'', hx', i, hi, hne, hlt⟩ |
          ⟨found, s'', R'', hx', hs'', hk', h⟩
        · exact .inl h
        · refine .inr (.inl ⟨s'', hx', i, hi, hne, fun u hu => ?_⟩)
          by_contra hge
          exact hge (hlt u ((hk i u (Nat.le_of_not_lt hge)).2 hu))
        · refine .inr (.inr ⟨found, s'', R'', hx', hs'', hk.trans hk', ?_⟩)
          rcases h with ⟨rfl, hall⟩ | ⟨rfl, i, hi, hne, hmiss⟩
          · refine .inl ⟨rfl, fun i hi hle hne => ?_⟩
            rcases Nat.eq_or_lt_of_le hle with rfl | hlt
            · exact hmem
            · exact (hk i _ (Nat.le_refl _)).1 (hall i hi hlt hne)
          · exact .inr ⟨rfl, i, hi, hne, fun h => hmiss ((hk i _ (Nat.le_refl _)).2 h)⟩
      · rw [hx]
        exact .inr (.inr ⟨.miss, s', R', rfl, hs', hk, .inr ⟨rfl, index, by omega, ha, hmem⟩⟩)

/-- The search finds a window just when there is one, unless a read fails. -/
theorem search_spec (stuck : ε) (anchor bound : ℕ)
    (hpull : ∀ s A R, Rep s A R → (∃ e, E e ∧ pull s = .error e) ∨
      (A = [] ∧ ∃ s', pull s = .ok (none, s')) ∨
      ∃ p A' s', A = p :: A' ∧ pull s = .ok (some p, s') ∧ Rep s' A' R)
    (hprobe : ∀ start < bound, ∀ index < n, index ≠ anchor → ∀ s A R, Rep s A R →
      Probes E Rep start index A R (probe index (start + index) s))
    (hs : Rep s A R) (hA : A.Pairwise (· < ·)) (hbound : ∀ p ∈ A, p < bound)
    (hfuel : A.length < fuel) :
    (∃ e, E e ∧ search stuck pull probe n anchor fuel s = .error e) ∨
      ∃ b, search stuck pull probe n anchor fuel s = .ok b ∧
        (b = true ↔ ∃ p ∈ A, Hit n anchor R p) := by
  induction fuel generalizing s A R with
  | zero => omega
  | succ fuel ih =>
    rw [search]
    rcases hpull s A R hs with ⟨e, he, hx⟩ | ⟨rfl, s', hx⟩ | ⟨p, A, s', rfl, hx, hs'⟩
    · exact .inl ⟨e, he, by rw [hx]; rfl⟩
    · refine .inr ⟨false, by rw [hx]; rfl, ?_⟩
      simp
    rw [hx]
    simp only [ok_bind]
    obtain ⟨hp, hA⟩ := List.pairwise_cons.1 hA
    obtain ⟨hpb, hbound⟩ := List.forall_mem_cons.1 hbound
    rw [List.length_cons] at hfuel
    split_ifs with hlow
    · -- no window starts before the first token
      have hnot : ¬ Hit n anchor R p := fun h => by
        have := h.1
        omega
      rcases ih hs' hA hbound (by omega) with h | ⟨b, hb, hiff⟩
      · exact .inl h
      · exact .inr ⟨b, hb, by simp only [hiff, List.mem_cons, exists_eq_or_imp, hnot, false_or]⟩
    have hle : anchor ≤ p := Nat.le_of_not_lt hlow
    rcases probeAll_spec (hprobe (p - anchor) (by omega)) hs' (Nat.zero_add n) with
      ⟨e, he, hy⟩ | ⟨s'', hy, i, hi, hne, hlt⟩ | ⟨found, s'', R', hy, hs'', hk, h⟩
    · exact .inl ⟨e, he, by rw [hy]; rfl⟩
    · refine .inr ⟨false, by rw [hy]; rfl, ?_⟩
      -- list `i` has nothing left for this start or a later one
      have hnone : ¬ ∃ q ∈ p :: A, Hit n anchor R q := by
        rintro ⟨q, hq, -, hall⟩
        have hge : p ≤ q := by
          rcases List.mem_cons.1 hq with rfl | hq
          · exact Nat.le_refl _
          · exact Nat.le_of_lt (hp q hq)
        have := hlt _ (hall i hi hne)
        omega
      simpa using hnone
    rcases h with ⟨rfl, hall⟩ | ⟨rfl, i, hi, hne, hmiss⟩
    · refine .inr ⟨true, by rw [hy]; rfl, ?_⟩
      have hhit : Hit n anchor R p := ⟨hle, fun i hi hne => hall i hi (Nat.zero_le i) hne⟩
      simp only [true_iff]
      exact ⟨p, List.mem_cons_self, hhit⟩
    · rw [hy]
      simp only [ok_bind]
      have hnot : ¬ Hit n anchor R p := fun h => hmiss (h.2 i hi hne)
      rcases ih hs'' hA hbound (by omega) with h | ⟨b, hb, hiff⟩
      · exact .inl h
      · refine .inr ⟨b, hb, ?_⟩
        simp only [hiff, List.mem_cons, exists_eq_or_imp, hnot, false_or]
        refine exists_congr fun q => and_congr_right fun hq => hk.hit_iff ?_
        have := hp q hq
        omega

end

end Window

end PinCore
