import Mathlib.Data.List.Chain
import PinCore.Mutable.Scan
import PinCore.State.History

/-!
# Streams of live roots

The straight scans of the store: the postings of one term, the union over a term cover, and the
owner chain.  Each returns the live roots of a list of owner references in order, and the
references are those of the documents asked for.
-/

namespace PinCore

open Obs

/-! ### Owners in order -/

namespace OwnerRef

variable {a b : OwnerRef}

theorem Before.asymm (h : a.Before b) : ¬ b.Before a := fun h' => Before.irrefl (h.trans h')

end OwnerRef

/-- Lists in owner order are determined by their members. -/
theorem eq_of_before {L L' : List OwnerRef} (h : L.Pairwise OwnerRef.Before)
    (h' : L'.Pairwise OwnerRef.Before) (hm : ∀ r, r ∈ L ↔ r ∈ L') : L = L' := by
  refine List.Perm.eq_of_pairwise (fun a b _ _ hab hba => absurd hba hab.asymm) h h' ?_
  refine (List.perm_ext_iff_of_nodup ?_ ?_).2 hm
  · exact h.imp fun hab => hab.ne
  · exact h'.imp fun hab => hab.ne

section

variable {s : Store} {V : View}

theorem Shows.rootOf_owner (hv : Shows s V) {v : LiveDoc} (h : v ∈ V.docs) :
    s.rootOf v.owner = some v.root := (hv.live v.owner v.root).2 ⟨v.document, h⟩

/-- The live roots of a list of owners in order are those of the documents it names. -/
theorem Shows.roots (hv : Shows s V) {L : List OwnerRef} (hL : L.Pairwise OwnerRef.Before)
    {p : LiveDoc → Bool} (hp : ∀ v ∈ V.docs, v.owner ∈ L ↔ p v = true) :
    L.filterMap s.rootOf = (V.docs.filter p).map (·.root) := by
  have howners : L.filter (fun r => (s.rootOf r).isSome) = (V.docs.filter p).map (·.owner) := by
    refine eq_of_before (hL.filter _) (hv.sorted.sublist (List.filter_sublist.map _)) fun r => ?_
    rw [List.mem_filter, List.mem_map]
    constructor
    · rintro ⟨hr, hl⟩
      obtain ⟨x, hx⟩ := Option.isSome_iff_exists.1 hl
      obtain ⟨d, hd⟩ := (hv.live r x).1 hx
      exact ⟨⟨r, x, d⟩, List.mem_filter.2 ⟨hd, (hp _ hd).1 hr⟩, rfl⟩
    · rintro ⟨v, hm, rfl⟩
      obtain ⟨hm, hpv⟩ := List.mem_filter.1 hm
      exact ⟨(hp v hm).2 hpv, by rw [hv.rootOf_owner hm]; rfl⟩
  have hfilter : L.filterMap s.rootOf =
      (L.filter fun r => (s.rootOf r).isSome).filterMap s.rootOf := by
    rw [List.filterMap_filter]
    refine List.filterMap_congr fun r _ => ?_
    cases s.rootOf r <;> rfl
  rw [hfilter, howners, List.filterMap_map, ← List.filterMap_eq_map]
  refine List.filterMap_congr fun v hm => ?_
  exact hv.rootOf_owner (List.mem_filter.1 hm).1

end

/-! ### The owners of a term -/

/-- The owners listed under a term, in order. -/
def TermRefs (s : Store) (x : Text) (R : List OwnerRef) : Prop :=
  (∃ t e bs, s.entry t = some e ∧ e.term = x ∧ EntryChain s t e bs ∧ R = entryRefs s e bs) ∨
    ((∀ t e, s.entry t = some e → e.term ≠ x) ∧ R = [])

section

variable {strong : Prop} {s : Store} {m : MetaBody} {V : View} {x : Text} {R : List OwnerRef}
  {t : TermRef} {e : Entry} {bs : List ℕ} {b : ℕ}

theorem entryRefs_known (bs : List ℕ) (hr : RefsOk s) (he : s.entry t = some e) :
    ∀ r ∈ entryRefs s e bs, s.Known r := by
  intro r hm
  rcases List.mem_cons.1 hm with rfl | hm
  · exact hr.first t e he
  · rcases List.mem_append.1 hm with hm | hm
    · unfold Entry.inlineRefs at hm
      split_ifs at hm
      · exact hr.second t e r he (Option.mem_toList.1 hm)
      · exact absurd hm List.not_mem_nil
    · obtain ⟨b, -, hb⟩ := mem_chainRefs.1 hm
      exact hr.posting b r hb

theorem TermRefs.exists (h : WF strong s m) (x : Text) : ∃ R, TermRefs s x R := by
  by_cases hx : ∃ t e, s.entry t = some e ∧ e.term = x
  · obtain ⟨t, e, he, hx⟩ := hx
    obtain ⟨bs, hbs, -⟩ := h.chains.chain t e he
    exact ⟨_, .inl ⟨t, e, bs, he, hx, hbs, rfl⟩⟩
  · exact ⟨[], .inr ⟨fun t e he hx' => hx ⟨t, e, he, hx'⟩, rfl⟩⟩

theorem TermRefs.of_entry (he : s.entry t = some e) (hc : EntryChain s t e bs) :
    TermRefs s e.term (entryRefs s e bs) := .inl ⟨t, e, bs, he, rfl, hc, rfl⟩

theorem TermRefs.sorted (h : WF strong s m) (hR : TermRefs s x R) : R.Pairwise OwnerRef.Before := by
  rcases hR with ⟨t, e, bs, he, -, hc, rfl⟩ | ⟨-, rfl⟩
  · obtain ⟨cs, hcs, hp⟩ := h.chains.chain t e he
    rwa [hc.unique hcs]
  · exact List.Pairwise.nil

theorem TermRefs.known (h : WF strong s m) (hR : TermRefs s x R) : ∀ r ∈ R, s.Known r := by
  rcases hR with ⟨t, e, bs, he, -, hc, rfl⟩ | ⟨-, rfl⟩
  · exact entryRefs_known bs h.refs he
  · exact fun r hr => absurd hr List.not_mem_nil

theorem TermRefs.mem_iff (h : WF strong s m) (hR : TermRefs s x R) {r : OwnerRef} :
    r ∈ R ↔ Posted s x r := by
  obtain ⟨ds, hd⟩ := h.dict
  rcases hR with ⟨t, e, bs, he, hx, hc, rfl⟩ | ⟨hno, rfl⟩
  · refine ⟨fun hr => ⟨t, e, bs, he, hx, hc, hr⟩, ?_⟩
    rintro ⟨t', e', bs', he', hx', hc', hr⟩
    obtain rfl := hd.unique t t' e e' he he' (hx.trans hx'.symm)
    obtain rfl : e = e' := Option.some.inj (he.symm.trans he')
    rwa [hc.unique hc']
  · refine ⟨fun hr => absurd hr List.not_mem_nil, ?_⟩
    rintro ⟨t, e, -, he, hx, -⟩
    exact absurd hx (hno t e he)

theorem TermRefs.unique {R' : List OwnerRef} (h : WF strong s m) (hR : TermRefs s x R)
    (hR' : TermRefs s x R') : R = R' :=
  eq_of_before (hR.sorted h) (hR'.sorted h) fun _ => (hR.mem_iff h).trans (hR'.mem_iff h).symm

/-! ### Postings -/

theorem filterMap_cons_toList {r : OwnerRef} {L : List OwnerRef} :
    (r :: L).filterMap s.rootOf = (s.rootOf r).toList ++ L.filterMap s.rootOf := by
  rw [List.filterMap_cons]
  cases s.rootOf r <;> rfl

theorem follows_eq {a b : OwnerRef} (h : a.Before b) : follows a b = .ok ⟨⟩ := by
  have hc : compareOwner a b = .ok .lt := if_pos h.1
  rw [follows, hc]
  have hn : ¬ (Ordering.lt ≠ Ordering.lt ∨ b.incarnation ≤ a.incarnation) := by
    rintro (hn | hn)
    · exact hn rfl
    · exact Nat.not_lt.2 hn h.2
  exact if_neg hn

/-- The coordinates of a direct page are the live roots of its owners. -/
theorem directRoots_eq {p : Page} {l : HeapLayout} {first last : OwnerRef} (pre : List DirectRecord)
    {records : List DirectRecord} (hb : p.body = .direct t first last (pre ++ records))
    (hv : ∀ x ∈ records, x.root.Valid l)
    (hr : ∀ x ∈ records, (if x.live then some x.root else none) = s.rootOf x.owner) :
    directRoots p l pre.length records = .ok ((records.map (·.owner)).filterMap s.rootOf) := by
  induction records generalizing pre with
  | nil => rfl
  | cons x records ih =>
    have hx := directRoot_eq (i := pre.length) (x := x) hb (by simp) (hv x List.mem_cons_self)
    have hrest := ih (pre ++ [x]) (by rw [List.append_assoc]; exact hb)
      (fun y hy => hv y (List.mem_cons_of_mem _ hy)) fun y hy => hr y (List.mem_cons_of_mem _ hy)
    rw [List.length_append, List.length_singleton] at hrest
    rw [directRoots, hx, hr x List.mem_cons_self, List.map_cons, filterMap_cons_toList]
    change (do let roots ← directRoots p l (pre.length + 1) records
               Except.ok ((s.rootOf x.owner).toList ++ roots)) = _
    rw [hrest]
    rfl

theorem direct_of_kind (body : Body) (hk : body.kind = .directPostings) :
    ∃ t first last records, body = .direct t first last records := by
  revert hk
  cases body <;> simp [Body.kind]

/-- A coordinate agrees with its owner. -/
theorem DirectOk.coordinate (hd : DirectOk True s) (hr : RefsOk s) {x : DirectRecord}
    (hx : x ∈ (s.body b).records) (hm : x.owner ∈ (s.body b).postingRefs) :
    (if x.live then some x.root else none) = s.rootOf x.owner := by
  obtain ⟨o, ho⟩ := hr.posting b x.owner hm
  rw [Store.rootOf_eq ho]
  by_cases hl : x.live = true
  · have hne := hd.dead trivial b x o hx ho hl
    rw [if_pos hl, hd.root b x o hx ho]
    unfold OwnerSlot.liveRoot at hne ⊢
    split_ifs at hne ⊢ with hc
    · rfl
    · exact absurd rfl hne
  · rw [if_neg hl]
    by_contra hne
    exact hl (hd.live b x o hx ho (Ne.symm hne))

/-- What follows a posting page still follows its last owner. -/
theorem before_after_page {previous : OwnerRef} {refs more : List OwnerRef}
    (ho : (previous :: (refs ++ more)).Pairwise OwnerRef.Before) :
    (previous :: refs).Pairwise OwnerRef.Before ∧
      (refs.getLastD previous :: more).Pairwise OwnerRef.Before := by
  refine ⟨ho.sublist (List.Sublist.cons_cons _ (List.sublist_append_left _ _)), ?_⟩
  rcases List.eq_nil_or_concat refs with rfl | ⟨init, last, rfl⟩
  · exact ho
  · rw [List.concat_eq_append, List.getLastD_concat]
    refine ho.sublist (List.Sublist.cons _ ?_)
    rw [List.concat_eq_append, List.append_assoc]
    exact List.sublist_append_right _ _

end

/-! ### What a stream emits -/

/-- The roots emitted for a list of owners, each as it was at some moment up to `t`. -/
inductive Emits (H : ℕ → Store) (t : ℕ) : List OwnerRef → List RootTid → Prop
  | nil : Emits H t [] []
  | cons {r : OwnerRef} {v : Option RootTid} {refs : List OwnerRef} {out : List RootTid}
      (hv : Seen H t r v) (h : Emits H t refs out) : Emits H t (r :: refs) (v.toList ++ out)

namespace Emits

variable {H : ℕ → Store} {F : Store} {K : Set OwnerRef} {t t' : ℕ} {refs refs' : List OwnerRef}
  {out out' : List RootTid}

theorem mono (h : Emits H t refs out) (ht : t ≤ t') : Emits H t' refs out := by
  induction h with
  | nil => exact .nil
  | cons hv _ ih => exact .cons (hv.mono ht) ih

theorem append (h : Emits H t refs out) (h' : Emits H t refs' out') :
    Emits H t (refs ++ refs') (out ++ out') := by
  induction h with
  | nil => exact h'
  | cons hv _ ih =>
    rw [List.append_assoc]
    exact .cons hv ih

theorem single {r : OwnerRef} {v : Option RootTid} (hv : Seen H t r v) :
    Emits H t [r] v.toList := by
  have := Emits.cons hv .nil
  rwa [List.append_nil] at this

/-- The roots of one state. -/
theorem of_filterMap {t₁ : ℕ} (h₁ : t₁ ≤ t) : Emits H t refs (refs.filterMap (H t₁).rootOf) := by
  induction refs with
  | nil => exact .nil
  | cons r refs ih =>
    have h : (r :: refs).filterMap (H t₁).rootOf =
        ((H t₁).rootOf r).toList ++ refs.filterMap (H t₁).rootOf := by
      rw [List.filterMap_cons]
      cases (H t₁).rootOf r <;> rfl
    rw [h]
    exact .cons ⟨t₁, h₁, rfl⟩ ih

/-- On a store that does not change the roots are those of the live owners. -/
theorem eq_filterMap {s : Store} (h : Emits (fun _ => s) t refs out) :
    out = refs.filterMap s.rootOf := by
  induction h with
  | nil => rfl
  | cons hv _ ih =>
    obtain ⟨-, -, rfl⟩ := hv
    rw [ih, List.filterMap_cons]
    cases s.rootOf _ <;> rfl

/-- Every root was that of its owner at some moment. -/
theorem mem {x : RootTid} (h : Emits H t refs out) (hx : x ∈ out) :
    ∃ r ∈ refs, ∃ t₁, t₁ ≤ t ∧ (H t₁).rootOf r = some x := by
  induction h with
  | nil => exact absurd hx List.not_mem_nil
  | @cons r v refs out hv _ ih =>
    rcases List.mem_append.1 hx with hx | hx
    · obtain ⟨t₁, h₁, rfl⟩ := hv
      exact ⟨r, List.mem_cons_self, t₁, h₁, Option.mem_toList.1 hx⟩
    · obtain ⟨r', hr', h'⟩ := ih hx
      exact ⟨r', List.mem_cons_of_mem _ hr', h'⟩

/-- An owner that was live from the start is emitted. -/
theorem live {r : OwnerRef} {x : RootTid} (hH : History H F K) (h : Emits H t refs out)
    (hr : r ∈ refs) (hx : (H 0).rootOf r = some x) : x ∈ out := by
  induction h with
  | nil => exact absurd hr List.not_mem_nil
  | cons hv _ ih =>
    rcases List.mem_cons.1 hr with rfl | hr
    · rw [hH.seen_eq hv hx]
      exact List.mem_cons_self
    · exact List.mem_append_right _ (ih hr)

end Emits

/-! ### Documents there from the start -/

/-- The documents are live from the start, with owners in `K` and listed under their terms. -/
structure Stays (H : ℕ → Store) (F : Store) (K : Set OwnerRef) (docs : List LiveDoc) : Prop where
  kept : ∀ v ∈ docs, v.owner ∈ K
  live : ∀ v ∈ docs, (H 0).rootOf v.owner = some v.root
  posted : ∀ v ∈ docs, ∀ x, Posted F x v.owner ↔ x ∈ v.document

theorem Shows.stays {s : Store} {V : View} (hv : Shows s V) :
    Stays (fun _ => s) s Set.univ V.docs where
  kept _ _ := trivial
  live _ hm := hv.rootOf_owner hm
  posted v hm x := hv.posted v hm x

/-- Owners in order, of `docs` just those of the documents with `p`, and their roots. -/
def Finds (H : ℕ → Store) (t : ℕ) (docs : List LiveDoc) (p : LiveDoc → Bool)
    (out : List RootTid) : Prop :=
  ∃ L, L.Pairwise OwnerRef.Before ∧ (∀ v ∈ docs, v.owner ∈ L ↔ p v = true) ∧ Emits H t L out

section

variable {H : ℕ → Store} {F : Store} {K : Set OwnerRef} {t : ℕ} {docs : List LiveDoc}
  {p : LiveDoc → Bool} {out : List RootTid} {v : LiveDoc}

theorem Stays.known (hH : History H F K) (hst : Stays H F K docs) (hv : v ∈ docs) :
    F.Known v.owner := by
  obtain ⟨o, ho, -⟩ := Store.rootOf_eq_some (hst.live v hv)
  exact hH.known_final (t := 0) ⟨o, ho⟩

/-- On a store that does not change, just the documents with `p` are found. -/
theorem Finds.roots {s : Store} {V : View} (hv : Shows s V)
    (h : Finds (fun _ => s) t V.docs p out) : out = (V.docs.filter p).map (·.root) := by
  obtain ⟨L, hL, hp, hem⟩ := h
  rw [hem.eq_filterMap, hv.roots hL hp]

/-- Every document with `p` is found. -/
theorem Finds.complete (hH : History H F K) (hst : Stays H F K docs) (h : Finds H t docs p out)
    (hv : v ∈ docs) (hp : p v = true) : v.root ∈ out := by
  obtain ⟨L, -, hL, hem⟩ := h
  exact hem.live hH ((hL v hv).2 hp) (hst.live v hv)

/-- What is found was the root of an owner that is not one of another document of `docs`. -/
theorem Finds.sound {x : RootTid} (h : Finds H t docs p out) (hx : x ∈ out) :
    ∃ r t₁, t₁ ≤ t ∧ (H t₁).rootOf r = some x ∧ ∀ v ∈ docs, v.owner = r → p v = true := by
  obtain ⟨L, -, hL, hem⟩ := h
  obtain ⟨r, hr, t₁, h₁, hroot⟩ := hem.mem hx
  refine ⟨r, t₁, h₁, hroot, ?_⟩
  rintro v hv rfl
  exact (hL v hv).1 hr

end

/-! ### Captured chains -/

section

variable {H : ℕ → Store} {F : Store} {K : Set OwnerRef} {t t' t₁ b tail remaining : ℕ}
  {u : TermRef} {cs : List ℕ} {x : Text} {R : List OwnerRef} {e : Entry}

/-- A posting page of `u` that has from the moment `t` on all its owners in `K`. -/
structure Steady (H : ℕ → Store) (F : Store) (K : Set OwnerRef) (t : ℕ) (u : TermRef) (b : ℕ) :
    Prop where
  tag : ((H t).body b).postingTag = some u
  keeps : ∀ r ∈ (F.body b).postingRefs, r ∈ K → r ∈ ((H t).body b).postingRefs

theorem Steady.grows {H₀ : ℕ → Store} {t₀ : ℕ} (h : Steady H₀ F K t₀ u b)
    (hg : Grows (H₀ t₀) (H t)) : Steady H F K t u b := by
  obtain ⟨htag, hpre, -⟩ := hg.posting b u h.tag
  exact ⟨htag, fun r hr hK => hpre.subset (h.keeps r hr hK)⟩

theorem Steady.mono (hH : History H F K) (h : Steady H F K t u b) (ht : t ≤ t') :
    Steady H F K t' u b := h.grows (hH.mono t t' ht)

/-- What is read of the page is what it lists in the end, apart from later owners. -/
theorem Steady.trim (hH : History H F K) (h : Steady H F K t u b) :
    Trim K ((H t).body b).postingRefs (F.body b).postingRefs :=
  ⟨((hH.last t).posting b u h.tag).2.1.sublist, h.keeps⟩

/-- The pages still to be read of a chain captured with its last page. -/
structure Trail (H : ℕ → Store) (F : Store) (K : Set OwnerRef) (t : ℕ) (u : TermRef) (tail : ℕ)
    (cs : List ℕ) : Prop where
  steady : ∀ c ∈ cs, Steady H F K t u c
  links : cs.IsChain fun c d => (H t).next c = d
  nodup : cs.Nodup
  tail_eq : cs ≠ [] → tail = lastD noBlock cs

theorem Trail.ne_noBlock (hH : History H F K) (h : Trail H F K t u tail cs) :
    ∀ c ∈ cs, c ≠ noBlock := by
  intro c hc
  exact (hH.pages t).ne_noBlock ((isPosting_of_tag (h.steady c hc).tag).ne (by decide))

/-- The pages to be read stay so while the store grows. -/
theorem Trail.grows {H₀ : ℕ → Store} {t₀ : ℕ} (hH : History H F K)
    (h : Trail H₀ F K t₀ u tail cs) (hg : Grows (H₀ t₀) (H t)) : Trail H F K t u tail cs where
  steady c hc := (h.steady c hc).grows hg
  links := by
    refine List.IsChain.imp_of_mem_imp (fun c d hc hd hn => ?_) h.links
    -- a page with a link does not change any more
    have hne : (H₀ t₀).next c ≠ noBlock := by
      rw [hn]
      exact (hH.pages t).ne_noBlock
        ((isPosting_of_tag ((h.steady d hd).grows hg).tag).ne (by decide))
    have hpage := (hg.posting c u (h.steady c hc).tag).2.2 hne
    rw [← hn, Store.next, hpage]
    rfl
  nodup := h.nodup
  tail_eq := h.tail_eq

theorem Trail.mono (hH : History H F K) (h : Trail H F K t u tail cs) (ht : t ≤ t') :
    Trail H F K t' u tail cs := h.grows hH (hH.mono t t' ht)

theorem Trail.nil : Trail H F K t u tail [] :=
  ⟨fun _ hc => absurd hc List.not_mem_nil, .nil, List.nodup_nil, fun h => absurd rfl h⟩

theorem Trail.rest (h : Trail H F K t u tail (b :: cs)) : Trail H F K t u tail cs where
  steady c hc := h.steady c (List.mem_cons_of_mem _ hc)
  links := h.links.tail
  nodup := (List.nodup_cons.1 h.nodup).2
  tail_eq hne := by
    obtain ⟨d, cs, rfl⟩ := List.exists_cons_of_ne_nil hne
    exact (h.tail_eq (List.cons_ne_nil _ _)).trans lastD_cons_cons

/-- The step to the page after the current one. -/
theorem Trail.next (hH : History H F K) (h : Trail H F K t u tail (b :: cs)) (h₁ : t ≤ t₁)
    (hr : cs.length < remaining) :
    postingNext ((H t₁).page b) tail remaining = .ok (cs.head?, remaining - 1) := by
  have h' := h.mono hH h₁
  refine postingNext_of ((hH.pages t₁).block b) (fun c hc => ?_)
    (fun c hc => h'.ne_noBlock hH c (List.mem_cons_of_mem _ hc)) h.nodup
    (h.tail_eq (List.cons_ne_nil _ _)) hr
  cases cs with
  | nil => cases hc
  | cons d cs =>
    cases hc
    exact (List.isChain_cons_cons.1 h'.links).1

/-- What a captured entry leads to: the owners `R`, in order. -/
inductive Captured (H : ℕ → Store) (F : Store) (K : Set OwnerRef) (t : ℕ) (u : TermRef)
    (e : Entry) : List OwnerRef → Prop
  | inline (second : OwnerRef) (hs : (e.toTerm u).inlineSecond = some second)
      (hk : (H t).Known second) : Captured H F K t u e [e.first, second]
  | single (hs : (e.toTerm u).inlineSecond = none) (hh : e.head = noBlock) :
      Captured H F K t u e [e.first]
  | chain (b : ℕ) (cs : List ℕ) (hs : (e.toTerm u).inlineSecond = none) (hh : e.head = b)
      (ht : Trail H F K t u e.tail (b :: cs)) (hlen : cs.length < (H t).blocks) :
      Captured H F K t u e (e.first :: chainRefs F (b :: cs))

/-- The owners of `K` are listed under a term at every moment. -/
theorem TermRefs.keeps (hH : History H F K) (hR : TermRefs F x R) {r : OwnerRef} (hr : r ∈ R)
    (hK : r ∈ K) (t : ℕ) : Posted (H t) x r := by
  obtain ⟨m, h⟩ := hH.final
  exact hH.kept x r hK ((hR.mem_iff h).1 hr) t

/-- The entry of a listed term and its final state. -/
theorem TermRefs.entry (hH : History H F K) (he : (H t).entry u = some e)
    (hR : TermRefs F e.term R) :
    ∃ e' bs, F.entry u = some e' ∧ EntryGrows e e' ∧ EntryChain F u e' bs ∧
      R = entryRefs F e' bs := by
  obtain ⟨m, h⟩ := hH.final
  obtain ⟨e', he', hg⟩ := (hH.last t).entry u e he
  obtain ⟨bs, hbs, -⟩ := h.chains.chain u e' he'
  refine ⟨e', bs, he', hg, hbs, hR.unique h ?_⟩
  rw [← hg.term]
  exact .of_entry he' hbs

/-- A captured chain is the first part of the final one. -/
theorem Chain.captured {m : MetaBody} {tail' : ℕ} {bs bs' : List ℕ} (hH : History H F K)
    (h : WF True (H t) m) (he : (H t).entry u = some e) (hR : TermRefs F e.term R)
    (hrest : R = e.first :: chainRefs F bs')
    (hc : Chain (H t) u e.head tail bs) (hi : e.inlineRefs = [])
    (hch : EntryChain (H t) u e bs) (hc' : Chain F u e.head tail' bs') :
    bs <+: bs' ∧ Trail H F K t u tail bs := by
  obtain ⟨mF, hF⟩ := hH.final
  have hpre : bs <+: bs' := by
    refine hc.linked.initial hc'.linked fun c hcs hne => ?_
    rw [Store.next, ((hH.last t).posting c u (hc.tagged c hcs)).2.2 hne]
    rfl
  refine ⟨hpre, fun c hcs => ⟨hc.tagged c hcs, fun r hr hK => ?_⟩, hc.linked.isChain,
    hc.linked.nodup, fun _ => hc.tail_eq⟩
  have hsorted := hR.sorted hF
  have hrR : r ∈ chainRefs F bs' := mem_chainRefs.2 ⟨c, hpre.subset hcs, hr⟩
  -- the owner was listed before, and on no other page
  have hposted : Posted (H t) e.term r := by
    refine hR.keeps hH ?_ hK t
    rw [hrest]
    exact List.mem_cons_of_mem _ hrR
  have hmem := ((TermRefs.of_entry he hch).mem_iff h).2 hposted
  rw [entryRefs, hi, List.nil_append] at hmem
  rw [hrest] at hsorted
  rcases List.mem_cons.1 hmem with rfl | hmem
  · exact absurd ((List.pairwise_cons.1 hsorted).1 _ hrR) OwnerRef.Before.irrefl
  · obtain ⟨d, hd, hrd⟩ := mem_chainRefs.1 hmem
    have hrd' := ((hH.last t).posting d u (hc.tagged d hd)).2.1.subset hrd
    have hnd : (chainRefs F bs').Nodup := (List.pairwise_cons.1 hsorted).2.imp fun hab => hab.ne
    by_contra hne
    have hcd : c ≠ d := by rintro rfl; exact hne hrd
    obtain ⟨-, hdis⟩ := List.nodup_flatMap.1 hnd
    have : Std.Symm (Function.onFun List.Disjoint fun c => (F.body c).postingRefs) :=
      ⟨fun _ _ => List.disjoint_symm⟩
    exact hdis.forall (hpre.subset hcs) (hpre.subset hd) hcd hr hrd'

/-- The entry of a term, read at one moment, leads to its owners apart from later ones. -/
theorem capture (hH : History H F K) (he : (H t).entry u = some e) (hR : TermRefs F e.term R) :
    ∃ R', Captured H F K t u e R' ∧ Trim K R' R := by
  obtain ⟨m, h⟩ := hH.wf t
  obtain ⟨mF, hF⟩ := hH.final
  obtain ⟨e', bs', he', hg, hbs', rfl⟩ := hR.entry hH he
  obtain ⟨bs, hbs, -⟩ := h.chains.chain u e he
  have hlisted : ∀ r ∈ entryRefs F e' bs', r ∈ K → r ∈ entryRefs (H t) e bs := fun r hr hK =>
    ((TermRefs.of_entry he hbs).mem_iff h).2 (hR.keeps hH hr hK t)
  have hplace := entryPlace h.pages he hbs
  cases hplace with
  | inline second hs hr hh ht =>
    obtain ⟨p, hok⟩ := entry_ok h.pages he
    have hsec := (inlineSecond_eq_some hok hs).2.2.1
    refine ⟨_, .inline second hs (h.refs.second u e second he hsec), ?_, fun r hr' hK => ?_⟩
    · -- the second owner comes after the first, wherever it is listed now
      have hposted : Posted F e.term second := by
        refine (hH.last t).posted _ _ ⟨u, e, [], he, rfl, hbs, ?_⟩
        rw [entryRefs, hr]
        simp
      have hmem := (hR.mem_iff hF).2 hposted
      have hne : second ≠ e'.first := by
        have hsorted := (TermRefs.of_entry he hbs).sorted h
        rw [entryRefs, hr] at hsorted
        rw [hg.first]
        exact ((List.pairwise_cons.1 hsorted).1 second (by simp)).ne.symm
      rw [← hg.first]
      refine List.Sublist.cons_cons _ (List.singleton_sublist.2 ?_)
      exact (List.mem_cons.1 hmem).resolve_left hne
    · have := hlisted r hr' hK
      rw [entryRefs, hr] at this
      simpa [chainRefs] using this
  | single hs hr hh ht =>
    refine ⟨_, .single hs hh, ?_, fun r hr' hK => ?_⟩
    · rw [← hg.first]
      exact List.Sublist.cons_cons _ (List.nil_sublist _)
    · have := hlisted r hr' hK
      rw [entryRefs, hr] at this
      simpa [chainRefs] using this
  | chain b cs hs hr hh ht hl htag hlen =>
    obtain ⟨p, hok⟩ := entry_ok h.pages he
    have hi := inlineSecond_eq_none hok hs
    have hne : e.head ≠ noBlock := by rw [hh]; exact hl.2.1
    obtain ⟨hhead, hinl, -⟩ := hg.chained hi hne
    have hr' : e'.inlineRefs = [] := by
      unfold Entry.inlineRefs
      rw [if_neg (by rw [hinl]; exact hi)]
    have hc' : Chain F u e.head e'.tail bs' := by
      unfold EntryChain at hbs'
      rw [if_neg (by rw [hinl]; exact hi), hhead] at hbs'
      exact hbs'
    have hlist : entryRefs F e' bs' = e.first :: chainRefs F bs' := by
      rw [entryRefs, hr', hg.first]
      rfl
    have hc : Chain (H t) u e.head e.tail (b :: cs) := ⟨by rw [hh]; exact hl, ht, htag⟩
    obtain ⟨hpre, htrail⟩ := hc.captured hH h he hR hlist hr hbs hc'
    refine ⟨_, .chain b cs hs hh htrail hlen, ?_, fun r hr'' hK => ?_⟩
    · rw [hlist]
      refine List.Sublist.cons_cons _ ?_
      obtain ⟨ds, rfl⟩ := hpre
      rw [chainRefs_append]
      exact List.sublist_append_left _ _
    · have := hlisted r hr'' hK
      rw [entryRefs, hr] at this
      rcases List.mem_cons.1 this with rfl | hm
      · exact List.mem_cons_self
      · obtain ⟨c, hcs, hrc⟩ := mem_chainRefs.1 hm
        refine List.mem_cons_of_mem _ (mem_chainRefs.2 ⟨c, hcs, ?_⟩)
        exact ((hH.last t).posting c u (htag c hcs)).2.1.subset hrc

/-- No entry was there when the metapage was read: no owner of `K` is listed. -/
theorem TermRefs.trim_nil (hH : History H F K) (hR : TermRefs F x R)
    (hno : ∀ u e, (H t).entry u = some e → e.term ≠ x) : Trim K [] R := by
  refine ⟨List.nil_sublist _, fun r hr hK => ?_⟩
  obtain ⟨u, e, -, he, hx, -⟩ := hR.keeps hH hr hK t
  exact absurd hx (hno u e he)

end

/-- The owners of a stream, apart from later ones, and their roots. -/
def TermStreams (H : ℕ → Store) (K : Set OwnerRef) (t : ℕ) (R : List OwnerRef)
    (out : List RootTid) :
    Prop := ∃ refs, Trim K refs R ∧ Emits H t refs out

section

variable {H : ℕ → Store} {F : Store} {K : Set OwnerRef} {t b : ℕ} {u : TermRef}
  {cache : Option Page} {previous : OwnerRef} {e : Entry} {R : List OwnerRef}

theorem scanRefs_sees {refs : List OwnerRef} (hH : History H F K) (hc : CacheAt H t cache)
    (hk : ∀ r ∈ refs, (H t).Known r) (ho : (previous :: refs).Pairwise OwnerRef.Before) :
    Sees H t (scanRefs cache previous refs) fun y t' => Emits H t' refs y.1 ∧
      y.2.1 = refs.getLastD previous ∧ CacheAt H t' y.2.2 := by
  induction refs generalizing cache previous t with
  | nil => exact Sees.pure ⟨.nil, rfl, hc⟩
  | cons r refs ih =>
    obtain ⟨hprev, ho⟩ := List.pairwise_cons.1 ho
    refine Sees.ofExcept_bind (follows_eq (hprev r List.mem_cons_self)) ?_
    refine (resolve_sees hH hc (hk r List.mem_cons_self)).bind ?_
    rintro ⟨root, cache'⟩ t' ht' ⟨hseen, hc'⟩
    refine (ih hc' (fun q hq => hH.known ht' (hk q (List.mem_cons_of_mem _ hq))) ho).bind ?_
    rintro ⟨roots, last, cache''⟩ t'' ht'' ⟨hem, rfl, hc''⟩
    refine Sees.pure ⟨.cons (hseen.mono ht'') hem, ?_, hc''⟩
    rw [List.getLastD_cons]

/-- One posting page, as it was at the moment `t₁`. -/
theorem scanPage_sees {t₁ : ℕ} (hH : History H F K) (h₁ : t₁ ≤ t) (hc : CacheAt H t cache)
    (ht : ((H t₁).body b).postingTag = some u)
    (ho : (previous :: ((H t₁).body b).postingRefs).Pairwise OwnerRef.Before) :
    Sees H t (scanPage ((H t₁).page b) cache previous) fun y t' =>
      Emits H t' ((H t₁).body b).postingRefs y.1 ∧
        y.2.1 = ((H t₁).body b).postingRefs.getLastD previous ∧ CacheAt H t' y.2.2 := by
  obtain ⟨m, h⟩ := hH.wf t₁
  unfold scanPage
  by_cases hk : ((H t₁).page b).kind = .directPostings
  · simp only [if_pos hk]
    obtain ⟨u', first, last, records, hb⟩ := direct_of_kind ((H t₁).body b) hk
    have hb' : ((H t₁).page b).body = .direct u' first last records := hb
    have hok := h.pages.ok b
    rw [hb] at hok ho ⊢
    obtain ⟨-, hrec, hsort, hfirst, hlast⟩ := hok
    have hrefs : (Body.direct u' first last records).postingRefs = records.map (·.owner) := rfl
    rw [hrefs] at ho ⊢
    have hfm : first ∈ records.map (·.owner) := List.mem_of_mem_head? hfirst
    refine Sees.ofExcept_bind (a := (first, last)) (by rw [Page.directEndpoints, hb']) ?_
    refine Sees.ofExcept_bind (follows_eq ((List.pairwise_cons.1 ho).1 first hfm)) ?_
    refine (layout_sees hH).bind ?_
    rintro _ t' ht' rfl
    refine Sees.ofExcept_bind (a := records) (by rw [Page.directRecords, hb']) ?_
    have hroots := directRoots_eq (s := H t₁) (l := F.layout) [] hb'
      (fun x hx => by rw [← hH.layout t₁]; exact (hrec x hx).2) fun x hx =>
        h.direct.coordinate (b := b) h.refs (by rw [hb]; exact hx)
          (by rw [hb]; exact List.mem_map_of_mem hx)
    refine Sees.ofExcept_bind hroots (Sees.pure ⟨.of_filterMap (Nat.le_trans h₁ ht'), ?_,
      hc.mono ht'⟩)
    rw [List.getLastD_eq_getLast?, hlast]
    rfl
  · simp only [if_neg hk]
    refine Sees.ofExcept_bind (postingRefs_eq h.pages ht) ?_
    exact scanRefs_sees hH hc (fun r hr => hH.known h₁ (h.refs.posting b r hr)) ho

theorem scanEntryFrom_sees {tail remaining : ℕ} {cs : List ℕ} (hH : History H F K)
    (htr : Trail H F K t u tail (b :: cs)) (hrem : cs.length < remaining) (hc : CacheAt H t cache)
    (ho : (previous :: chainRefs F (b :: cs)).Pairwise OwnerRef.Before) :
    Sees H t (scanEntryFrom u tail remaining b cache previous) fun out t' =>
      TermStreams H K t' (chainRefs F (b :: cs)) out := by
  induction remaining generalizing b cs cache previous t with
  | zero => exact absurd hrem (Nat.not_lt_zero _)
  | succ remaining ih =>
    have hst := htr.steady b List.mem_cons_self
    have hrefs : chainRefs F (b :: cs) = (F.body b).postingRefs ++ chainRefs F cs := rfl
    rw [hrefs] at ho ⊢
    unfold scanEntryFrom
    refine (loadPosting_sees hH hst.tag).bind ?_
    rintro _ t' ht' ⟨t₁, h₁, h₂, rfl⟩
    have hst₁ := hst.mono hH h₁
    have htrim := hst₁.trim hH
    obtain ⟨hob, hocs⟩ := before_after_page
      (ho.sublist ((htrim.sublist.append_right (chainRefs F cs)).cons_cons previous))
    refine (scanPage_sees hH h₂ (hc.mono ht') hst₁.tag hob).bind ?_
    rintro ⟨roots, previous', cache'⟩ t'' ht'' ⟨hem, rfl, hc'⟩
    refine Sees.ofExcept_bind (htr.next hH h₁ hrem) ?_
    cases cs with
    | nil =>
      refine Sees.pure ⟨_, ?_, hem⟩
      rw [chainRefs, List.flatMap_nil, List.append_nil]
      exact htrim
    | cons c cs =>
      refine (ih ((htr.rest).mono hH (Nat.le_trans ht' ht'')) ?_ hc' hocs).bind ?_
      · simp only [List.length_cons] at hrem; omega
      · rintro rest t₃ ht₃ ⟨refs', htrim', hem'⟩
        exact Sees.pure ⟨_, htrim.append htrim', (hem.mono ht₃).append hem'⟩

/-- The postings of a captured entry. -/
theorem scanTermEntry_sees {t₁ : ℕ} (hH : History H F K) (h₁ : t₁ ≤ t)
    (he : (H t₁).entry u = some e) (hR : TermRefs F e.term R) :
    Sees H t (scanTermEntry (e.toTerm u)) fun out t' => TermStreams H K t' R out := by
  obtain ⟨mF, hF⟩ := hH.final
  obtain ⟨R', hcap, htrim⟩ := capture hH he hR
  have hsorted := (hR.sorted hF).sublist htrim.sublist
  have hmain : Sees H t (scanTermEntry (e.toTerm u)) fun out t' => TermStreams H K t' R' out := by
    unfold scanTermEntry
    refine (resolve_sees hH CacheAt.none (hH.known h₁ ((hH.refs t₁).first u e he))).bind ?_
    rintro ⟨root, cache⟩ t' ht' ⟨hseen, hcache⟩
    cases hcap with
    | inline second hs hk =>
      simp only [hs]
      refine (resolve_sees hH hcache (hH.known (Nat.le_trans h₁ ht') hk)).bind ?_
      rintro ⟨root', cache'⟩ t'' ht'' ⟨hseen', -⟩
      exact Sees.pure ⟨_, .refl _, .cons (hseen.mono ht'') (.single hseen')⟩
    | single hs hh =>
      have hh' : (e.toTerm u).head = noBlock := hh
      simp only [hs, if_pos hh']
      exact Sees.pure ⟨_, .refl _, .single hseen⟩
    | chain b cs hs hh htr hlen =>
      have hh' : (e.toTerm u).head = b := hh
      have hne : b ≠ noBlock := htr.ne_noBlock hH b List.mem_cons_self
      simp only [hs, hh', if_neg hne]
      refine blocks_sees.bind ?_
      rintro _ _ ht'' ⟨rfl, rfl⟩
      have hlen' : cs.length < (H t').blocks :=
        Nat.lt_of_lt_of_le hlen (hH.mono t₁ t' (Nat.le_trans h₁ ht')).blocks
      refine (scanEntryFrom_sees hH (htr.mono hH (by omega)) hlen'
        (hcache.mono ht'') hsorted).bind ?_
      rintro out t₃ ht₃ ⟨refs, htrim', hem⟩
      exact Sees.pure ⟨_, htrim'.cons e.first, .cons (hseen.mono (by omega)) hem⟩
  refine hmain.mono ?_
  rintro out t' - ⟨refs, htrim', hem⟩
  exact ⟨refs, htrim'.trans htrim, hem⟩

/-- A single-term scan streams the owners of the term. -/
theorem scanSingleTerm_sees {x : Text} (hH : History H F K) (hR : TermRefs F x R) :
    Sees H t (scanSingleTerm x) fun out t' => TermStreams H K t' R out := by
  unfold scanSingleTerm
  refine (loadInfo_sees hH).bind ?_
  rintro _ t' ht' ⟨t₀, m, -, h₀, rfl, h⟩
  refine (findTerm_sees hH h h₀ x).bind ?_
  rintro (_ | ⟨p, u⟩) t'' ht'' hfound
  · exact Sees.pure ⟨[], hR.trim_nil hH hfound, .nil⟩
  · obtain ⟨t₁, -, h₁, rfl, e, he, rfl⟩ := hfound
    refine Sees.ofExcept_bind (term_eq (hH.pages t₁) he) ?_
    exact scanTermEntry_sees hH h₁ he hR

/-! ### Covers -/

theorem resolveAll_sees {refs : List OwnerRef} (hH : History H F K) (hc : CacheAt H t cache)
    (hk : ∀ r ∈ refs, (H t).Known r) :
    Sees H t (resolveAll cache refs) fun y t' => Emits H t' refs y.1 ∧ CacheAt H t' y.2 := by
  induction refs generalizing cache t with
  | nil => exact Sees.pure ⟨.nil, hc⟩
  | cons r refs ih =>
    refine (resolve_sees hH hc (hk r List.mem_cons_self)).bind ?_
    rintro ⟨root, cache'⟩ t' ht' ⟨hseen, hc'⟩
    refine (ih hc' fun q hq => hH.known ht' (hk q (List.mem_cons_of_mem _ hq))).bind ?_
    rintro ⟨roots, cache''⟩ t'' ht'' ⟨hem, hc''⟩
    exact Sees.pure ⟨.cons (hseen.mono ht'') hem, hc''⟩

theorem scanChainFrom_sees {tail remaining : ℕ} {cs : List ℕ} (hH : History H F K)
    (htr : Trail H F K t u tail (b :: cs)) (hrem : cs.length < remaining) (hc : CacheAt H t cache) :
    Sees H t (scanChainFrom u tail remaining b cache) fun y t' =>
      TermStreams H K t' (chainRefs F (b :: cs)) y.1 ∧ CacheAt H t' y.2 := by
  induction remaining generalizing b cs cache t with
  | zero => exact absurd hrem (Nat.not_lt_zero _)
  | succ remaining ih =>
    have hst := htr.steady b List.mem_cons_self
    have hrefs : chainRefs F (b :: cs) = (F.body b).postingRefs ++ chainRefs F cs := rfl
    rw [hrefs]
    unfold scanChainFrom
    refine (loadPosting_sees hH hst.tag).bind ?_
    rintro _ t' ht' ⟨t₁, h₁, h₂, rfl⟩
    have hst₁ := hst.mono hH h₁
    have htrim := hst₁.trim hH
    refine Sees.ofExcept_bind (postingRefs_eq (hH.pages t₁) hst₁.tag) ?_
    refine (resolveAll_sees hH (hc.mono ht') fun r hr =>
      hH.known h₂ ((hH.refs t₁).posting b r hr)).bind ?_
    rintro ⟨roots, cache'⟩ t'' ht'' ⟨hem, hc'⟩
    refine Sees.ofExcept_bind (htr.next hH h₁ hrem) ?_
    cases cs with
    | nil =>
      refine Sees.pure ⟨⟨_, ?_, hem⟩, hc'⟩
      rw [chainRefs, List.flatMap_nil, List.append_nil]
      exact htrim
    | cons c cs =>
      refine (ih ((htr.rest).mono hH (Nat.le_trans ht' ht'')) ?_ hc').bind ?_
      · simp only [List.length_cons] at hrem; omega
      · rintro ⟨rest, cache''⟩ t₃ ht₃ ⟨⟨refs', htrim', hem'⟩, hc''⟩
        exact Sees.pure ⟨⟨_, htrim.append htrim', (hem.mono ht₃).append hem'⟩, hc''⟩

theorem scanTerm_sees {t₀ : ℕ} {m : MetaBody} {x : Text} (hH : History H F K)
    (h : WF True (H t₀) m) (h₀ : t₀ ≤ t) (hc : CacheAt H t cache) (hR : TermRefs F x R) :
    Sees H t (scanTerm (metaPage m) cache x) fun y t' =>
      TermStreams H K t' R y.1 ∧ CacheAt H t' y.2 := by
  unfold scanTerm
  refine (findTerm_sees hH h h₀ x).bind ?_
  rintro (_ | ⟨p, u⟩) t' ht' hfound
  · exact Sees.pure ⟨⟨[], hR.trim_nil hH hfound, .nil⟩, hc.mono ht'⟩
  obtain ⟨t₁, -, h₁, rfl, e, he, rfl⟩ := hfound
  obtain ⟨R', hcap, htrim⟩ := capture hH he hR
  refine Sees.ofExcept_bind (term_eq (hH.pages t₁) he) ?_
  refine (resolve_sees hH (hc.mono ht') (hH.known h₁ ((hH.refs t₁).first u e he))).bind ?_
  rintro ⟨root, cache'⟩ t'' ht'' ⟨hseen, hc'⟩
  cases hcap with
  | inline second hs hk =>
    simp only [hs]
    refine (resolve_sees hH hc' (hH.known (by omega) hk)).bind ?_
    rintro ⟨root', cache''⟩ t₃ ht₃ ⟨hseen', hc''⟩
    exact Sees.pure ⟨⟨_, htrim, .cons (hseen.mono ht₃) (.single hseen')⟩, hc''⟩
  | single hs hh =>
    have hh' : (e.toTerm u).head = noBlock := hh
    simp only [hs, if_pos hh']
    exact Sees.pure ⟨⟨_, htrim, .single hseen⟩, hc'⟩
  | chain b cs hs hh htr hlen =>
    have hh' : (e.toTerm u).head = b := hh
    have hne : b ≠ noBlock := htr.ne_noBlock hH b List.mem_cons_self
    simp only [hs, hh', if_neg hne]
    refine blocks_sees.bind ?_
    rintro _ _ ht₃ ⟨rfl, rfl⟩
    have hlen' : cs.length < (H t'').blocks :=
      Nat.lt_of_lt_of_le hlen (hH.mono t₁ t'' (by omega)).blocks
    refine (scanChainFrom_sees hH (htr.mono hH (by omega)) hlen' (hc'.mono ht₃)).bind ?_
    rintro ⟨out, cache''⟩ t₄ ht₄ ⟨⟨refs, htrim', hem⟩, hc''⟩
    exact Sees.pure
      ⟨⟨_, (htrim'.cons e.first).trans htrim, .cons (hseen.mono (by omega)) hem⟩, hc''⟩

end

/-- The documents of a term cover, once for each term they have. -/
def coveredDocs (docs : List LiveDoc) (ts : List Text) : List LiveDoc :=
  ts.flatMap fun x => docs.filter fun v => decide (x ∈ v.document)

/-- The streams of the terms of a cover, one after the other. -/
inductive CoverStreams (H : ℕ → Store) (F : Store) (K : Set OwnerRef) (t : ℕ) :
    List Text → List RootTid → Prop
  | nil : CoverStreams H F K t [] []
  | cons {x : Text} {ts : List Text} {R : List OwnerRef} {roots out : List RootTid}
      (hR : TermRefs F x R) (hs : TermStreams H K t R roots) (h : CoverStreams H F K t ts out) :
      CoverStreams H F K t (x :: ts) (roots ++ out)

section

variable {H : ℕ → Store} {F : Store} {K : Set OwnerRef} {t t' : ℕ} {cache : Option Page}

theorem TermStreams.mono {R : List OwnerRef} {out : List RootTid} (h : TermStreams H K t R out)
    (ht : t ≤ t') : TermStreams H K t' R out :=
  let ⟨refs, htrim, hem⟩ := h
  ⟨refs, htrim, hem.mono ht⟩

/-- The stream of a term finds the documents with the term. -/
theorem TermStreams.finds {docs : List LiveDoc} {x : Text} {R : List OwnerRef} {out : List RootTid}
    (hH : History H F K) (hst : Stays H F K docs) (hR : TermRefs F x R)
    (hs : TermStreams H K t R out) :
    Finds H t docs (fun v => decide (x ∈ v.document)) out := by
  obtain ⟨m, hF⟩ := hH.final
  obtain ⟨refs, htrim, hem⟩ := hs
  refine ⟨refs, (hR.sorted hF).sublist htrim.sublist, fun v hv => ?_, hem⟩
  rw [decide_eq_true_iff, ← hst.posted v hv, ← hR.mem_iff hF]
  exact ⟨fun hm => htrim.sublist.subset hm, fun hm => htrim.keeps _ hm (hst.kept v hv)⟩

theorem CoverStreams.roots {s : Store} {m : MetaBody} {V : View} {ts : List Text}
    {out : List RootTid} (h : WF True s m) (hv : Shows s V)
    (hs : CoverStreams (fun _ => s) s Set.univ t ts out) :
    out = (coveredDocs V.docs ts).map (·.root) := by
  induction hs with
  | nil => rfl
  | cons hR hs _ ih =>
    rw [(hs.finds (.constant h) hv.stays hR).roots hv, ih]
    simp only [coveredDocs, List.flatMap_cons, List.map_append]

theorem CoverStreams.complete {docs : List LiveDoc} {ts : List Text} {out : List RootTid}
    {v : LiveDoc} (hH : History H F K) (hst : Stays H F K docs) (hs : CoverStreams H F K t ts out)
    (hv : v ∈ coveredDocs docs ts) : v.root ∈ out := by
  induction hs with
  | nil => exact absurd hv List.not_mem_nil
  | cons hR hs _ ih =>
    rw [coveredDocs, List.flatMap_cons] at hv
    rcases List.mem_append.1 hv with hv | hv
    · obtain ⟨hv, hp⟩ := List.mem_filter.1 hv
      exact List.mem_append_left _ ((hs.finds hH hst hR).complete hH hst hv hp)
    · exact List.mem_append_right _ (ih hv)

theorem scanTerms_sees {t₀ : ℕ} {m : MetaBody} (hH : History H F K) (h : WF True (H t₀) m)
    (h₀ : t₀ ≤ t) (hc : CacheAt H t cache) (ts : List Text) :
    Sees H t (scanTerms (metaPage m) cache ts) fun out t' => CoverStreams H F K t' ts out := by
  obtain ⟨mF, hF⟩ := hH.final
  induction ts generalizing cache t with
  | nil => exact Sees.pure .nil
  | cons x ts ih =>
    obtain ⟨R, hR⟩ := TermRefs.exists hF x
    refine (scanTerm_sees hH h h₀ hc hR).bind ?_
    rintro ⟨roots, cache'⟩ t' ht' ⟨hs, hc'⟩
    refine (ih (Nat.le_trans h₀ ht') hc').bind ?_
    rintro out t'' ht'' hcov
    exact Sees.pure (.cons hR (hs.mono ht'') hcov)

end

/-! ### The owner chain -/

/-- The owners of one page from slot `i` on. -/
def slotRefs (b : ℕ) : ℕ → List OwnerSlot → List OwnerRef
  | _, [] => []
  | i, o :: os => ⟨b, i, o.incarnation⟩ :: slotRefs b (i + 1) os

/-- The owners of a list of owner pages. -/
def ownerRefs (s : Store) (bs : List ℕ) : List OwnerRef :=
  bs.flatMap fun b => slotRefs b 0 (s.body b).slots

section

variable {strong : Prop} {s : Store} {m : MetaBody} {V : View} {b : ℕ} {bs : List ℕ}

theorem mem_slotRefs {r : OwnerRef} {i : ℕ} {os : List OwnerSlot} :
    r ∈ slotRefs b i os ↔
      r.page = b ∧ i ≤ r.slot ∧ ∃ o, os[r.slot - i]? = some o ∧ o.incarnation = r.incarnation := by
  induction os generalizing i with
  | nil => simp [slotRefs]
  | cons o os ih =>
    rw [slotRefs, List.mem_cons, ih]
    constructor
    · rintro (rfl | ⟨hb, hi, o', ho', hinc⟩)
      · exact ⟨rfl, Nat.le_refl _, o, by simp, rfl⟩
      · refine ⟨hb, by omega, o', ?_, hinc⟩
        rwa [show r.slot - i = (r.slot - (i + 1)) + 1 by omega, List.getElem?_cons_succ]
    · rintro ⟨rfl, hi, o', ho', hinc⟩
      rcases Nat.eq_or_lt_of_le hi with heq | hlt
      · rw [← heq, Nat.sub_self, List.getElem?_cons_zero, Option.some.injEq] at ho'
        subst ho'
        left
        cases r
        simp_all
      · refine .inr ⟨rfl, hlt, o', ?_, hinc⟩
        rwa [show r.slot - i = (r.slot - (i + 1)) + 1 by omega, List.getElem?_cons_succ] at ho'

theorem mem_ownerRefs {r : OwnerRef} : r ∈ ownerRefs s bs ↔ r.page ∈ bs ∧ s.Known r := by
  simp only [ownerRefs, List.mem_flatMap, mem_slotRefs, Nat.sub_zero, Nat.zero_le, true_and]
  constructor
  · rintro ⟨b, hb, rfl, o, ho, hi⟩
    exact ⟨hb, o, ho, hi⟩
  · rintro ⟨hb, o, ho, hi⟩
    exact ⟨r.page, hb, rfl, o, ho, hi⟩

theorem slotRefs_sorted {i : ℕ} {os : List OwnerSlot} :
    (slotRefs b i os).Pairwise OwnerRef.posLt := by
  induction os generalizing i with
  | nil => exact List.Pairwise.nil
  | cons o os ih =>
    refine List.pairwise_cons.2 ⟨fun r hr => ?_, ih⟩
    obtain ⟨hb, hi, -⟩ := mem_slotRefs.1 hr
    exact .inr ⟨hb.symm, hi⟩

theorem ownerRefs_sorted {head tail incarnation : ℕ} (ho : OwnersOk s head tail incarnation bs) :
    (ownerRefs s bs).Pairwise OwnerRef.Before := by
  have hpos : (ownerRefs s bs).Pairwise OwnerRef.posLt := by
    refine List.pairwise_flatMap.2 ⟨fun b _ => slotRefs_sorted, ?_⟩
    refine ho.ascending.imp fun hlt r hr r' hr' => .inl ?_
    rwa [(mem_slotRefs.1 hr).1, (mem_slotRefs.1 hr').1]
  refine hpos.imp_of_mem fun hr hr' hlt => ⟨hlt, ?_⟩
  obtain ⟨o, ho₁⟩ := (mem_ownerRefs.1 hr).2
  obtain ⟨o', ho₂⟩ := (mem_ownerRefs.1 hr').2
  exact ho.ordered _ _ o o' ho₁ ho₂ hlt

/-- The live roots of one owner page. -/
theorem liveRoots_eq (hp : PagesOk s) (pre : List OwnerSlot) {slots : List OwnerSlot}
    (hs : (s.body b).slots = pre ++ slots) :
    liveRoots (s.page b) s.layout pre.length slots =
      .ok ((slotRefs b pre.length slots).filterMap s.rootOf) := by
  induction slots generalizing pre with
  | nil => rfl
  | cons o slots ih =>
    have hown : s.Owns ⟨b, pre.length, o.incarnation⟩ o :=
      ⟨by simp only; rw [hs]; simp, rfl⟩
    have hrest := ih (pre ++ [o]) (by rw [hs, List.append_assoc]; rfl)
    rw [List.length_append, List.length_singleton] at hrest
    have howner := owner_eq hp hown
    simp only at howner
    rw [liveRoots, howner, slotRefs, filterMap_cons_toList, Store.rootOf_eq hown]
    change (do
      let roots ← liveRoots (s.page b) s.layout (pre.length + 1) slots
      Except.ok (if o.publication = Publication.published ∧ o.live = true then o.root :: roots
        else roots)) = _
    rw [hrest]
    change Except.ok _ = _
    unfold OwnerSlot.liveRoot
    by_cases hl : o.live = true ∧ o.publication = .published
    · rw [if_pos hl, if_pos hl.symm]; rfl
    · rw [if_neg hl, if_neg fun h => hl h.symm]; rfl

/-- The walk over the captured owner chain. -/
theorem scanOwnersFrom_sees {H : ℕ → Store} {F : Store} {K : Set OwnerRef} {t t₀ : ℕ}
    {head tail fuel : ℕ} (as : List ℕ) {cs : List ℕ} (hH : History H F K) (h₀ : t₀ ≤ t)
    (hl : Linked (H t₀).next noBlock head (as ++ b :: cs))
    (ha : (as ++ b :: cs).Pairwise (· < ·)) (ht : tail = lastD noBlock (as ++ b :: cs))
    (hk : ∀ c ∈ b :: cs, ((H t₀).body c).kind = .owners) (hfuel : cs.length < fuel) :
    Sees H t (scanOwnersFrom tail fuel b) fun out t' => ∃ refs,
      (∀ r ∈ refs, r.page ∈ b :: cs ∧ F.Known r) ∧ refs.Pairwise OwnerRef.posLt ∧
      (∀ r, r.page ∈ b :: cs → (H t₀).Known r → r ∈ refs) ∧ Emits H t' refs out := by
  induction fuel generalizing b as cs t with
  | zero => exact absurd hfuel (Nat.not_lt_zero _)
  | succ fuel ih =>
    have hkb := hk b List.mem_cons_self
    have ha' := (List.pairwise_append.1 ha).2.1
    have hkinds : ∀ t', t ≤ t' → ((H t').body b).kind = .owners := fun t' ht' =>
      ((hH.mono t₀ t' (Nat.le_trans h₀ ht')).owners b hkb).1
    unfold scanOwnersFrom
    refine (load_sees hH (by decide) hkinds).bind ?_
    rintro _ t' ht' ⟨t₁, h₁, h₂, rfl⟩
    refine (layout_sees hH).bind ?_
    rintro _ t'' ht'' rfl
    refine Sees.ofExcept_bind (slots_eq (hkinds t₁ h₁)) ?_
    have hroots := liveRoots_eq (b := b) (hH.pages t₁) [] (List.nil_append _).symm
    rw [hH.layout t₁] at hroots
    refine Sees.ofExcept_bind hroots ?_
    have hfol : following ((H t₁).page b) tail = .ok cs.head? := by
      refine following_of ((hH.pages t₁).block b) (fun c hc => ?_)
        (fun c hc => hl.ne_stop (by simp [hc])) ha' (ht.trans lastD_append_cons)
      obtain ⟨cs', rfl⟩ : ∃ cs', cs = c :: cs' := by
        cases cs with
        | nil => cases hc
        | cons d cs => cases hc; exact ⟨cs, rfl⟩
      have hne : (H t₀).next b ≠ noBlock := by
        rw [hl.next_eq]
        exact hl.ne_stop (by simp)
      exact (((hH.mono t₀ t₁ (Nat.le_trans h₀ h₁)).owners b hkb).2 hne).trans hl.next_eq
    refine Sees.ofExcept_bind hfol ?_
    -- the owners of the page at the moment it was read
    have hpage : ∀ r ∈ slotRefs b 0 ((H t₁).body b).slots, r.page = b ∧ F.Known r := by
      intro r hr
      obtain ⟨rfl, -, o, ho, hi⟩ := mem_slotRefs.1 hr
      exact ⟨rfl, hH.known_final (t := t₁) ⟨o, ho, hi⟩⟩
    have hall : ∀ r, r.page = b → (H t₀).Known r → r ∈ slotRefs b 0 ((H t₁).body b).slots := by
      rintro r rfl hr
      obtain ⟨o, ho, hi⟩ := hH.known (Nat.le_trans h₀ h₁) hr
      exact mem_slotRefs.2 ⟨rfl, Nat.zero_le _, o, ho, hi⟩
    have hem : Emits H t'' (slotRefs b 0 ((H t₁).body b).slots)
        ((slotRefs b 0 ((H t₁).body b).slots).filterMap (H t₁).rootOf) :=
      .of_filterMap (by omega)
    cases cs with
    | nil =>
      refine Sees.pure ⟨_, fun r hr => ⟨?_, (hpage r hr).2⟩, slotRefs_sorted, fun r hr => ?_, hem⟩
      · rw [(hpage r hr).1]; exact List.mem_cons_self
      · exact hall r (List.mem_singleton.1 hr)
    | cons c cs =>
      have has : as ++ b :: c :: cs = (as ++ [b]) ++ c :: cs := by simp
      rw [has] at hl ha ht
      refine (ih _ (by omega) hl ha ht (fun d hd => hk d (List.mem_cons_of_mem _ hd)) ?_).bind ?_
      · simp only [List.length_cons] at hfuel; omega
      · rintro out t₃ ht₃ ⟨refs, hmem, hsort, hK, hem'⟩
        refine Sees.pure ⟨slotRefs b 0 ((H t₁).body b).slots ++ refs, fun r hr => ?_, ?_,
          fun r hr hkn => ?_, (hem.mono ht₃).append hem'⟩
        · rcases List.mem_append.1 hr with hr | hr
          · exact ⟨by rw [(hpage r hr).1]; exact List.mem_cons_self, (hpage r hr).2⟩
          · exact ⟨List.mem_cons_of_mem _ (hmem r hr).1, (hmem r hr).2⟩
        · refine List.pairwise_append.2 ⟨slotRefs_sorted, hsort, fun r hr r' hr' => .inl ?_⟩
          rw [(hpage r hr).1]
          exact (List.pairwise_cons.1 ha').1 _ (hmem r' hr').1
        · rcases List.mem_cons.1 hr with hr | hr
          · exact List.mem_append_left _ (hall r hr hkn)
          · exact List.mem_append_right _ (hK r hr hkn)

/-- A scan of the universe streams known owners in order, all those of `K` among them. -/
def UniverseStreams (H : ℕ → Store) (F : Store) (K : Set OwnerRef) (t : ℕ) (out : List RootTid) :
    Prop := ∃ refs, (∀ r ∈ refs, F.Known r) ∧ refs.Pairwise OwnerRef.Before ∧
      (∀ r, r ∈ K → F.Known r → r ∈ refs) ∧ Emits H t refs out

theorem scanUniversal_sees {H : ℕ → Store} {F : Store} {K : Set OwnerRef} {t : ℕ}
    (hH : History H F K) :
    Sees H t (scan .universal) fun out t' => UniverseStreams H F K t' out := by
  unfold scan
  refine (loadInfo_sees hH).bind ?_
  rintro _ t' ht' ⟨t₀, m, -, h₀, rfl, h⟩
  obtain ⟨bs, ho⟩ := h.owners
  obtain ⟨mF, hF⟩ := hH.final
  obtain ⟨bsF, hoF⟩ := hF.owners
  have hmem : ∀ r, (H t₀).Known r → r.page ∈ bs := fun r ⟨o, hr⟩ => (ho.mem_iff _).2 hr.kind
  refine Sees.ofExcept_bind (metaPage_ownerChain h.metaOk) ?_
  cases bs with
  | nil =>
    have hl : m.ownerHead = noBlock := ho.linked
    simp only [if_pos hl]
    refine Sees.pure ⟨[], fun _ hr => absurd hr List.not_mem_nil, .nil, fun r hK hr => ?_, .nil⟩
    exact absurd (hmem r (hH.present r hK hr t₀)) List.not_mem_nil
  | cons b cs =>
    have hb : m.ownerHead = b := ho.linked.1
    have hne : b ≠ noBlock := ho.linked.2.1
    simp only [hb, if_neg hne]
    have hlen : cs.length < m.ownerTail + 1 := by
      have := ascending_length noBlock ho.ascending
      rw [ho.tail_eq]
      omega
    refine (scanOwnersFrom_sees [] hH h₀ ho.linked ho.ascending ho.tail_eq
      (fun c hc => (ho.mem_iff c).1 hc) hlen).mono ?_
    rintro out t'' - ⟨refs, hknown, hsort, hall, hem⟩
    refine ⟨refs, fun r hr => (hknown r hr).2, ?_, fun r hK hr => ?_, hem⟩
    · refine hsort.imp_of_mem fun hr hr' hlt => ⟨hlt, ?_⟩
      obtain ⟨o, ho₁⟩ := (hknown _ hr).2
      obtain ⟨o', ho₂⟩ := (hknown _ hr').2
      exact hoF.ordered _ _ o o' ho₁ ho₂ hlt
    · have hr₀ := hH.present r hK hr t₀
      exact hall r (hmem r hr₀) hr₀

/-- The stream of the universe finds every document. -/
theorem UniverseStreams.finds {H : ℕ → Store} {F : Store} {K : Set OwnerRef} {t : ℕ}
    {docs : List LiveDoc} {out : List RootTid} (hH : History H F K) (hst : Stays H F K docs)
    (hs : UniverseStreams H F K t out) : Finds H t docs (fun _ => true) out := by
  obtain ⟨refs, -, hsort, hall, hem⟩ := hs
  refine ⟨refs, hsort, fun v hv => ⟨fun _ => rfl, fun _ => ?_⟩, hem⟩
  exact hall v.owner (hst.kept v hv) (hst.known hH hv)

/-- What a cover scan emits. -/
def CandidatePlan.docs (docs : List LiveDoc) : CandidatePlan → List LiveDoc
  | empty => []
  | universal => docs
  | terms ts => coveredDocs docs ts

/-- What a cover scan streams. -/
def CandidatePlan.Streams (H : ℕ → Store) (F : Store) (K : Set OwnerRef) (t : ℕ) :
    CandidatePlan → List RootTid → Prop
  | empty, out => out = []
  | universal, out => UniverseStreams H F K t out
  | terms ts, out => CoverStreams H F K t ts out

theorem scan_sees {H : ℕ → Store} {F : Store} {K : Set OwnerRef} {t : ℕ} (hH : History H F K)
    (plan : CandidatePlan) :
    Sees H t (scan plan) fun out t' => plan.Streams H F K t' out := by
  cases plan with
  | universal => exact scanUniversal_sees hH
  | empty => exact (loadInfo_sees hH).bind fun _ _ _ _ => Sees.pure rfl
  | terms ts =>
    refine (loadInfo_sees hH).bind ?_
    rintro _ t' ht' ⟨t₀, m, -, h₀, rfl, h⟩
    exact scanTerms_sees hH h h₀ CacheAt.none ts

theorem CandidatePlan.Streams.roots {t : ℕ} {plan : CandidatePlan} {out : List RootTid}
    (h : WF True s m) (hv : Shows s V)
    (hs : plan.Streams (fun _ => s) s Set.univ t out) : out = (plan.docs V.docs).map (·.root) := by
  cases plan with
  | universal =>
    rw [(UniverseStreams.finds (.constant h) hv.stays hs).roots hv, List.filter_true]
    rfl
  | empty => exact hs
  | terms ts => exact CoverStreams.roots h hv hs

/-- A cover scan emits every document of its cover. -/
theorem CandidatePlan.Streams.complete {H : ℕ → Store} {F : Store} {K : Set OwnerRef} {t : ℕ}
    {docs : List LiveDoc} {plan : CandidatePlan} {out : List RootTid} {v : LiveDoc}
    (hH : History H F K) (hst : Stays H F K docs) (hs : plan.Streams H F K t out)
    (hv : v ∈ plan.docs docs) : v.root ∈ out := by
  cases plan with
  | universal => exact (UniverseStreams.finds hH hst hs).complete hH hst hv rfl
  | empty => exact absurd hv List.not_mem_nil
  | terms ts => exact CoverStreams.complete hH hst hs hv

end

end PinCore
