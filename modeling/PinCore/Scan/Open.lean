import PinCore.Scan.Build

/-!
# Opening a plan

The cursors of a plan are positioned on the first owner of their term.  Terms that occur more
than once are looked up once; every cursor still gets a position of its own.
-/

namespace PinCore

open Obs

/-- The cursor holds the owners `R`, apart from later ones. -/
def Cursor.Lists (H : ℕ → Store) (F : Store) (K : Set OwnerRef) (t : ℕ) (c : Cursor)
    (R : List OwnerRef) : Prop := ∃ L, c.Holds H F K t L ∧ Trim K L R

section

variable {H : ℕ → Store} {F : Store} {K : Set OwnerRef} {t t₁ n : ℕ} {u : TermRef} {e : Entry}
  {R : List OwnerRef}

/-- The chain position of a captured entry, with `n` pages at most to come. -/
def Entry.openChain (n : ℕ) (u : TermRef) (e : Entry) : ChainCursor where
  reference := u
  block := if (e.toTerm u).inlineSecond ≠ none then noBlock else e.head
  tail := e.tail
  remaining := n
  previous := e.first
  inlineSecond := (e.toTerm u).inlineSecond
  page := none

theorem openChain_rests (hH : History H F K) (hc : Captured H F K t₁ u e R) (h₁ : t₁ ≤ t)
    (hn : (H t₁).blocks ≤ n) :
    ∃ rest, R = e.first :: rest ∧ (e.openChain n u).Rests H F K t rest := by
  cases hc with
  | inline second hs hk =>
    refine ⟨[second], rfl, .inline second hs rfl ?_ (hH.known h₁ hk)⟩
    simp [Entry.openChain, hs]
  | single hs hh =>
    refine ⟨chainRefs F [], rfl, .closed [] ⟨hs, rfl, ?_, .nil, Nat.zero_le _⟩⟩
    simp only [Entry.openChain, hs, ne_eq, not_true_eq_false, if_false]
    exact hh
  | chain b cs hs hh htr hlen =>
    refine ⟨chainRefs F (b :: cs), rfl, .closed (b :: cs) ⟨hs, rfl, ?_, htr.mono hH h₁, ?_⟩⟩
    · simp only [Entry.openChain, hs, ne_eq, not_true_eq_false, if_false, hh]
      rfl
    · exact Nat.le_trans hlen hn

/-- A cursor opened on an entry lists the owners of its term. -/
theorem open_lists (hH : History H F K) (he : (H t₁).entry u = some e) (hR : TermRefs F e.term R)
    (h₁ : t₁ ≤ t) (hn : (H t₁).blocks ≤ n) :
    Cursor.Lists H F K t ⟨some e.first, some (e.openChain n u)⟩ R := by
  obtain ⟨m, hF⟩ := hH.final
  obtain ⟨R', hcap, htrim⟩ := capture hH he hR
  obtain ⟨rest, rfl, hrests⟩ := openChain_rests hH hcap h₁ hn
  refine ⟨_, .standing e.first rest _ rfl rfl hrests rfl ?_ ?_ ?_ ?_, htrim⟩
  · exact fun p hp => absurd hp (by simp [Entry.openChain])
  · exact (hR.sorted hF).sublist htrim.sublist
  · exact fun q hq => hR.known hF q (htrim.sublist.subset hq)
  · exact hH.known h₁ ((hH.refs t₁).first u e he)

end

section

variable {cursors : List Cursor} {text : Text} {c : Cursor} {nodes : List Node}

@[simp] theorem length_positionAll :
    (Plan.positionAll text c nodes cursors).length = cursors.length := by
  induction nodes generalizing cursors with
  | nil => rfl
  | cons node nodes ih =>
    rcases node with _ | _ | ⟨t, _ | i⟩ | _ | _ <;> simp only [Plan.positionAll, ih]
    split_ifs <;> simp

theorem positionAll_other {i : ℕ} (h : Node.term text (some i) ∉ nodes) :
    (Plan.positionAll text c nodes cursors)[i]? = cursors[i]? := by
  induction nodes generalizing cursors with
  | nil => rfl
  | cons node nodes ih =>
    have hrest := fun cs => @ih cs fun hm => h (List.mem_cons_of_mem _ hm)
    rcases node with _ | _ | ⟨t, _ | j⟩ | _ | _ <;> simp only [Plan.positionAll, hrest]
    split_ifs with ht
    · have hne : j ≠ i := by
        rintro rfl
        exact h (ht ▸ List.mem_cons_self)
      rw [List.getElem?_set_ne hne]
    · rfl

theorem positionAll_mem {i : ℕ} (h : Node.term text (some i) ∈ nodes) (hi : i < cursors.length) :
    (Plan.positionAll text c nodes cursors)[i]? = some c := by
  induction nodes generalizing cursors with
  | nil => exact absurd h List.not_mem_nil
  | cons node nodes ih =>
    by_cases hm : Node.term text (some i) ∈ nodes
    · rcases node with _ | _ | ⟨t, _ | j⟩ | _ | _ <;> simp only [Plan.positionAll] <;>
        first | exact ih hm hi | (split_ifs <;> exact ih hm (by simpa using hi))
    · obtain rfl : Node.term text (some i) = node := (List.mem_cons.1 h).resolve_right hm
      simp only [Plan.positionAll, if_true]
      rw [positionAll_other hm, List.getElem?_set_self hi]

end

section

variable {H : ℕ → Store} {F : Store} {K : Set OwnerRef} {t t' : ℕ} {refs : Text → List OwnerRef}

theorem mem_cursors_of_term {text : Text} {i : ℕ} {nodes : List Node}
    (h : Node.term text (some i) ∈ nodes) : i ∈ nodes.filterMap Node.cursor? :=
  List.mem_filterMap.2 ⟨_, h, rfl⟩

/-- What the rest of `open` owes: the cursors of seen terms are in place, the others empty. -/
structure Opening (H : ℕ → Store) (F : Store) (K : Set OwnerRef) (t : ℕ)
    (refs : Text → List OwnerRef) (seen : List Text) (rest : List Node) (cursors : List Cursor) :
    Prop where
  nodup : (rest.filterMap Node.cursor?).Nodup
  lt : ∀ i ∈ rest.filterMap Node.cursor?, i < cursors.length
  placed : ∀ text i, Node.term text (some i) ∈ rest → text ∈ seen →
    ∃ c, cursors[i]? = some c ∧ c.Lists H F K t (refs text)
  fresh : ∀ text i, Node.term text (some i) ∈ rest → text ∉ seen → cursors[i]? = some .empty

/-- What `open` leaves. -/
structure Opened (H : ℕ → Store) (F : Store) (K : Set OwnerRef) (t : ℕ)
    (refs : Text → List OwnerRef) (rest : List Node) (cursors out : List Cursor) : Prop where
  length : out.length = cursors.length
  holds : ∀ text i, Node.term text (some i) ∈ rest →
    ∃ c, out[i]? = some c ∧ c.Lists H F K t (refs text)
  other : ∀ i, i ∉ rest.filterMap Node.cursor? → out[i]? = cursors[i]?

variable {seen : List Text} {rest : List Node} {cursors : List Cursor} {text : Text} {i : ℕ}

theorem Cursor.Lists.mono {c : Cursor} {R : List OwnerRef} (hH : History H F K)
    (h : c.Lists H F K t R) (ht : t ≤ t') : c.Lists H F K t' R :=
  let ⟨L, hL, htrim⟩ := h
  ⟨L, hL.mono hH ht, htrim⟩

theorem Opening.mono (hH : History H F K) (h : Opening H F K t refs seen rest cursors)
    (ht : t ≤ t') : Opening H F K t' refs seen rest cursors where
  nodup := h.nodup
  lt := h.lt
  placed text i hm hs :=
    let ⟨c, hc, hl⟩ := h.placed text i hm hs
    ⟨c, hc, hl.mono hH ht⟩
  fresh := h.fresh

/-- A node without a cursor. -/
theorem Opening.skip {node : Node} (hn : node.cursor? = none)
    (h : Opening H F K t refs seen (node :: rest) cursors) :
      Opening H F K t refs seen rest cursors := by
  obtain ⟨hnd, hlt, hs, hf⟩ := h
  rw [List.filterMap_cons_none hn] at hnd hlt
  exact ⟨hnd, hlt, fun text i hm => hs text i (List.mem_cons_of_mem _ hm),
    fun text i hm => hf text i (List.mem_cons_of_mem _ hm)⟩

theorem Opened.skip {node : Node} {out : List Cursor} (hn : node.cursor? = none)
    (h : Opened H F K t refs rest cursors out) :
      Opened H F K t refs (node :: rest) cursors out := by
  refine ⟨h.length, fun text i hm => ?_, fun i hi => ?_⟩
  · rcases List.mem_cons.1 hm with rfl | hm
    · cases hn
    · exact h.holds text i hm
  · rw [List.filterMap_cons_none hn] at hi
    exact h.other i hi

/-- The cursor at the head of the list is in place, and the rest does not touch it. -/
theorem Opened.cons {out cursors' : List Cursor} {c : Cursor}
    (hnd : ((Node.term text (some i) :: rest).filterMap Node.cursor?).Nodup)
    (h : Opened H F K t refs rest cursors' out) (hlen : cursors'.length = cursors.length)
    (hi : cursors'[i]? = some c) (hc : c.Lists H F K t (refs text))
    (ho : ∀ j, j ∉ (Node.term text (some i) :: rest).filterMap Node.cursor? →
      cursors'[j]? = cursors[j]?) :
    Opened H F K t refs (.term text (some i) :: rest) cursors out := by
  have hcur : (Node.term text (some i)).cursor? = some i := rfl
  rw [List.filterMap_cons_some hcur] at hnd ho
  refine ⟨h.length.trans hlen, fun text' j hm => ?_, fun j hj => ?_⟩
  · rcases List.mem_cons.1 hm with heq | hm
    · cases heq
      exact ⟨c, by rw [h.other i (List.nodup_cons.1 hnd).1, hi], hc⟩
    · exact h.holds text' j hm
  · rw [List.filterMap_cons_some hcur] at hj
    rw [h.other j fun hm => hj (List.mem_cons_of_mem _ hm)]
    exact ho j hj

/-- After the look-up of a new term its cursors are in place too. -/
theorem Opening.place {cursors' : List Cursor} {c : Cursor}
    (h : Opening H F K t refs seen (.term text (some i) :: rest) cursors)
    (hlen : cursors'.length = cursors.length) (hc : c.Lists H F K t (refs text))
    (hset : ∀ j, Node.term text (some j) ∈ rest → cursors'[j]? = some c)
    (hkeep : ∀ text' j, Node.term text' (some j) ∈ rest → text' ≠ text →
      cursors'[j]? = cursors[j]?) : Opening H F K t refs (text :: seen) rest cursors' := by
  obtain ⟨hnd, hlt, hs, hf⟩ := h
  have hcur : (Node.term text (some i)).cursor? = some i := rfl
  rw [List.filterMap_cons_some hcur] at hnd hlt
  refine ⟨(List.nodup_cons.1 hnd).2, fun j hj => hlen ▸ hlt j (List.mem_cons_of_mem _ hj),
    fun text' j hm ht => ?_, fun text' j hm ht => ?_⟩
  · by_cases heq : text' = text
    · subst heq
      exact ⟨c, hset j hm, hc⟩
    · rw [hkeep text' j hm heq]
      exact hs text' j (List.mem_cons_of_mem _ hm) ((List.mem_cons.1 ht).resolve_left heq)
  · rw [List.mem_cons, not_or] at ht
    rw [hkeep text' j hm ht.1]
    exact hf text' j (List.mem_cons_of_mem _ hm) ht.2

/-- A term node other than the head has another cursor. -/
theorem Opening.not_mem {text' : Text} {j : ℕ}
    (h : Opening H F K t refs seen (.term text (some i) :: rest) cursors) (hne : text' ≠ text)
    (hm : Node.term text' (some j) ∈ rest) :
    Node.term text (some j) ∉ Node.term text (some i) :: rest := by
  intro hm'
  obtain ⟨k, hk⟩ := List.mem_iff_getElem?.1 (List.mem_cons_of_mem (Node.term text (some i)) hm)
  obtain ⟨k', hk'⟩ := List.mem_iff_getElem?.1 hm'
  obtain rfl := cursor?_injective h.nodup hk hk' rfl rfl
  rw [hk, Option.some.injEq, Node.term.injEq] at hk'
  exact hne hk'.1

theorem openFrom_sees {t₀ : ℕ} {m : MetaBody} (hH : History H F K) (h : WF True (H t₀) m)
    (h₀ : t₀ ≤ t) (hrefs : ∀ x, TermRefs F x (refs x))
    (ho : Opening H F K t refs seen rest cursors) :
    Sees H t (Plan.openFrom (metaPage m) seen rest cursors) fun out t' =>
      Opened H F K t' refs rest cursors out := by
  induction rest generalizing seen cursors t with
  | nil =>
    exact Sees.pure ⟨rfl, fun _ _ hm => absurd hm List.not_mem_nil, fun _ _ => rfl⟩
  | cons node rest ih =>
    cases hcur : node.cursor? with
    | none =>
      have heq : Plan.openFrom (metaPage m) seen (node :: rest) cursors =
          Plan.openFrom (metaPage m) seen rest cursors := by
        rcases node with _ | _ | ⟨t, _ | i⟩ | _ | _ <;> first | rfl | cases hcur
      rw [heq]
      exact (ih h₀ (ho.skip hcur)).mono fun out _ _ hout => hout.skip hcur
    | some i =>
      obtain ⟨text, rfl⟩ : ∃ text, node = .term text (some i) := by
        rcases node with _ | _ | ⟨t, _ | j⟩ | _ | _ <;> cases hcur
        exact ⟨t, rfl⟩
      have hnd := ho.nodup
      have hi : i < cursors.length := ho.lt i (mem_cursors_of_term List.mem_cons_self)
      unfold Plan.openFrom
      by_cases hseen : text ∈ seen
      · -- the term was looked up before: this cursor is already in place
        simp only [if_pos hseen]
        obtain ⟨c, hc, hold⟩ := ho.placed text i List.mem_cons_self hseen
        have ho' : Opening H F K t refs seen rest cursors := by
          obtain ⟨hnd, hlt, hs, hf⟩ := ho
          rw [List.filterMap_cons_some hcur] at hnd hlt
          exact ⟨(List.nodup_cons.1 hnd).2, fun j hj => hlt j (List.mem_cons_of_mem _ hj),
            fun text i hm => hs text i (List.mem_cons_of_mem _ hm),
            fun text i hm => hf text i (List.mem_cons_of_mem _ hm)⟩
        exact (ih h₀ ho').mono fun out _ ht' hout =>
          hout.cons hnd rfl hc (hold.mono hH ht') fun _ _ => rfl
      · simp only [if_neg hseen]
        refine (findTerm_sees hH h h₀ text).bind ?_
        rintro (_ | ⟨p, u⟩) t' ht' hfound
        · -- no entry: the cursors of the term stay empty
          have hempty : Cursor.Lists H F K t' .empty (refs text) :=
            ⟨[], .done rfl, (hrefs text).trim_nil hH hfound⟩
          have hi' := ho.fresh text i List.mem_cons_self hseen
          refine (ih (Nat.le_trans h₀ ht') ((ho.mono hH ht').place rfl hempty (fun j hm => ?_)
            fun _ _ _ _ => rfl)).mono fun out _ ht'' hout =>
              hout.cons hnd rfl hi' (hempty.mono hH ht'') fun _ _ => rfl
          exact ho.fresh text j (List.mem_cons_of_mem _ hm) hseen
        · obtain ⟨t₁, h₁, h₂, rfl, e, he, rfl⟩ := hfound
          refine Sees.ofExcept_bind (term_eq (hH.pages t₁) he) ?_
          refine blocks_sees.bind ?_
          rintro _ _ ht'' ⟨rfl, rfl⟩
          -- the entry was read before the size
          have hold := open_lists (t := t' + 1) hH he (hrefs e.term) (by omega)
            (hH.mono t₁ t' h₂).blocks
          have ho' := ho.mono hH (Nat.le_trans ht' ht'')
          have hmem := fun j (hm : Node.term e.term (some j) ∈ Node.term e.term (some i) :: rest) =>
            positionAll_mem (c := ⟨some e.first, some (e.openChain (H t').blocks u)⟩) hm
              (ho.lt j (mem_cursors_of_term hm))
          refine (ih (by omega) (ho'.place length_positionAll hold ?_ ?_)).mono
            fun out _ ht₃ hout => hout.cons hnd length_positionAll (hmem i List.mem_cons_self)
              (hold.mono hH ht₃) ?_
          · exact fun j hm => hmem j (List.mem_cons_of_mem _ hm)
          · exact fun text' j hm hne => positionAll_other (ho.not_mem hne hm)
          · exact fun j hj => positionAll_other fun hm => hj (mem_cursors_of_term hm)

end

end PinCore
