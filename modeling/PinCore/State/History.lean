import PinCore.Lib.Seek
import PinCore.State.Grows

/-!
# Histories of a store under insertions

While a reader runs, insertions may commit between any two of its page reads.  A history gives
the store at each moment; all its states satisfy the invariant, each grows from those before, and
all of them into one final store.  The owners of a set `K` are there from the start: what the
final store knows and lists of them, every state knows and lists.

The checked loads return over such a history, and the images they return were the stored ones at
some moment between the call and the return.  A store that does not change is the constant
history, with every owner in `K`.
-/

namespace PinCore

open Obs

/-- The store at each moment, the store in the end, and the owners there from the start. -/
structure History (H : ℕ → Store) (F : Store) (K : Set OwnerRef) : Prop where
  wf : ∀ t, ∃ m, WF True (H t) m
  final : ∃ m, WF True F m
  mono : ∀ t t', t ≤ t' → Grows (H t) (H t')
  last : ∀ t, Grows (H t) F
  kept : ∀ x r, r ∈ K → Posted F x r → ∀ t, Posted (H t) x r
  present : ∀ r, r ∈ K → F.Known r → ∀ t, (H t).Known r

/-- A store that does not change. -/
theorem History.constant {s : Store} {m : MetaBody} (h : WF True s m) :
    History (fun _ => s) s Set.univ where
  wf _ := ⟨m, h⟩
  final := ⟨m, h⟩
  mono _ _ _ := .refl s
  last _ := .refl s
  kept _ _ _ hp _ := hp
  present _ _ hr _ := hr

/-- The root of the owner at some moment up to `t`. -/
def Seen (H : ℕ → Store) (t : ℕ) (r : OwnerRef) (v : Option RootTid) : Prop :=
  ∃ t₁, t₁ ≤ t ∧ v = (H t₁).rootOf r

/-- A cached page is the image of an owner page at some moment up to `t`. -/
def CacheAt (H : ℕ → Store) (t : ℕ) (cache : Option Page) : Prop :=
  ∀ p ∈ cache, ∃ t₁, t₁ ≤ t ∧ p = (H t₁).page p.block ∧ ((H t₁).body p.block).kind = .owners

section

variable {H : ℕ → Store} {F : Store} {K : Set OwnerRef} {t t' b : ℕ} {r : OwnerRef}
  {cache : Option Page}

theorem CacheAt.none : CacheAt H t none := fun _ h => nomatch h

theorem CacheAt.mono (h : CacheAt H t cache) (ht : t ≤ t') : CacheAt H t' cache := fun p hp =>
  let ⟨t₁, ht₁, h⟩ := h p hp
  ⟨t₁, Nat.le_trans ht₁ ht, h⟩

theorem Seen.mono {v : Option RootTid} (h : Seen H t r v) (ht : t ≤ t') : Seen H t' r v :=
  let ⟨t₁, ht₁, h⟩ := h
  ⟨t₁, Nat.le_trans ht₁ ht, h⟩

namespace History

theorem pages (hH : History H F K) (t : ℕ) : PagesOk (H t) :=
  let ⟨_, h⟩ := hH.wf t
  h.pages

theorem refs (hH : History H F K) (t : ℕ) : RefsOk (H t) :=
  let ⟨_, h⟩ := hH.wf t
  h.refs

theorem layout (hH : History H F K) (t : ℕ) : (H t).layout = F.layout := (hH.last t).layout.symm

theorem known (hH : History H F K) (ht : t ≤ t') (hr : (H t).Known r) : (H t').Known r :=
  (hH.mono t t' ht).known hr

theorem known_final (hH : History H F K) (hr : (H t).Known r) : F.Known r := (hH.last t).known hr

theorem valid (hH : History H F K) (t b : ℕ) : ((H t).page b).Valid F.layout := by
  rw [← hH.layout t]
  exact (hH.pages t).valid b

/-- What a live owner shows, every later observation shows. -/
theorem seen_eq (hH : History H F K) {v : Option RootTid} {x : RootTid} (h : Seen H t r v)
    (hx : (H 0).rootOf r = some x) : v = some x := by
  obtain ⟨t₁, -, rfl⟩ := h
  exact (hH.mono 0 t₁ (Nat.zero_le _)).rootOf hx

end History

/-! ### Pages -/

theorem blocks_sees : Sees H t blocks fun n t' => t' = t + 1 ∧ n = (H t).blocks :=
  Sees.observe ⟨rfl, rfl⟩

theorem layout_sees (hH : History H F K) : Sees H t layout fun l _ => l = F.layout :=
  Sees.observe (hH.layout t)

/-- The page was the image of block `b` at some moment between `t` and `t'`. -/
def ReadAt (H : ℕ → Store) (t t' b : ℕ) (p : Page) : Prop :=
  ∃ t₁, t ≤ t₁ ∧ t₁ ≤ t' ∧ p = (H t₁).page b

theorem loadAny_sees (hH : History H F K) (hb : b < (H t).blocks) :
    Sees H t (loadAny b) fun p t' => ReadAt H t t' b p := by
  refine blocks_sees.bind ?_
  rintro _ _ - ⟨rfl, rfl⟩
  refine Sees.ensure_bind hb ?_
  refine Sees.bind (Q := fun p t' => t' = t + 2 ∧ p = (H (t + 1)).page b)
    (Sees.observe ⟨rfl, rfl⟩) ?_
  rintro _ _ - ⟨rfl, rfl⟩
  refine Sees.ensure_bind ((hH.pages _).block b) ?_
  refine (layout_sees hH).bind ?_
  rintro _ t' ht rfl
  have hv : ((H (t + 1)).page b).validate F.layout = .ok () := if_pos (hH.valid _ b)
  refine Sees.ofExcept_bind hv (Sees.pure ⟨t + 1, by omega, by omega, rfl⟩)

theorem load_sees {k : PageKind} (hH : History H F K) (hz : k ≠ .zero)
    (hk : ∀ t', t ≤ t' → ((H t').body b).kind = k) :
    Sees H t (load b k) fun p t' => ReadAt H t t' b p := by
  have hb : b < (H t).blocks := (hH.pages t).lt_blocks ((hk t (Nat.le_refl t)).trans_ne hz)
  refine (loadAny_sees hH hb).bind ?_
  rintro p t' ht ⟨t₁, h₁, h₂, rfl⟩
  exact Sees.ensure_bind (hk t₁ h₁) (Sees.pure ⟨t₁, h₁, h₂, rfl⟩)

/-- The metapage, with the fields it had when it was read. -/
theorem loadInfo_sees (hH : History H F K) :
    Sees H t (load 0 .info) fun p t' => ∃ t₁ m, t ≤ t₁ ∧ t₁ ≤ t' ∧ p = metaPage m ∧
      WF True (H t₁) m := by
  have hk : ∀ t', t ≤ t' → ((H t').body 0).kind = .info := fun t' _ => by
    obtain ⟨m, h⟩ := hH.wf t'
    rw [h.body_zero]
    rfl
  refine (load_sees hH (by decide) hk).mono ?_
  rintro p t' - ⟨t₁, h₁, h₂, rfl⟩
  obtain ⟨m, h⟩ := hH.wf t₁
  exact ⟨t₁, m, h₁, h₂, h.info, h⟩

/-! ### Owners -/

/-- The page a reference is resolved in, read at the moment `t₁`. -/
theorem resolvePage_sees (hH : History H F K) {t₁ : ℕ} (h₁ : t₁ ≤ t)
    (hk : ((H t₁).body r.page).kind = .owners)
    (hlt : r.slot < ((H t₁).body r.page).slots.length) (hr : (H t).Known r) :
    Sees H t (do
      let l ← layout
      let o ← Obs.ofExcept (((H t₁).page r.page).owner r.slot l)
      Obs.ensure (o.reference = r) Error.invalidState
      pure (if o.record.live = true ∧ o.record.publication = .published then some o.record.root
        else Option.none, some ((H t₁).page r.page)) : Rd _) fun x t' =>
        Seen H t' r x.1 ∧ CacheAt H t' x.2 := by
  -- the record read is that of the reference: later records of the slot keep its incarnation
  obtain ⟨o, ho⟩ : ∃ o, (H t₁).Owns r o := by
    have hget := List.getElem?_eq_getElem hlt
    refine ⟨_, hget, ?_⟩
    have hown : (H t₁).Owns ⟨r.page, r.slot, ((H t₁).body r.page).slots[r.slot].incarnation⟩
        ((H t₁).body r.page).slots[r.slot] := ⟨hget, rfl⟩
    obtain ⟨o', ho', -⟩ := (hH.mono t₁ t h₁).owns _ _ hown
    obtain ⟨o'', ho''⟩ := hr
    have heq : o' = o'' := Option.some.inj (ho'.1.symm.trans ho''.1)
    have hi := ho'.2
    simp only at hi
    rw [← hi, heq]
    exact ho''.2
  refine (layout_sees hH).bind ?_
  rintro _ t' ht rfl
  have howner : ((H t₁).page r.page).owner r.slot F.layout = .ok ⟨r, o⟩ := by
    rw [← hH.layout t₁]
    exact owner_eq (hH.pages t₁) ho
  refine Sees.ofExcept_bind howner (Sees.ensure_bind rfl (Sees.pure ⟨⟨t₁, ?_, ?_⟩, ?_⟩))
  · exact Nat.le_trans h₁ ht
  · exact (Store.rootOf_eq ho).symm
  · rintro q ⟨⟩
    rw [(hH.pages t₁).block]
    exact ⟨t₁, Nat.le_trans h₁ ht, rfl, hk⟩

theorem resolve_sees (hH : History H F K) (hc : CacheAt H t cache) (hr : (H t).Known r) :
    Sees H t (resolve cache r) fun x t' => Seen H t' r x.1 ∧ CacheAt H t' x.2 := by
  have hload : Sees H t (load r.page .owners) fun p t' => ReadAt H t t' r.page p := by
    refine load_sees hH (by decide) fun t' ht => ?_
    obtain ⟨o, ho⟩ := hH.known ht hr
    exact ho.kind
  have hfresh : ∀ p t', t ≤ t' → ReadAt H t t' r.page p → Sees H t' (do
      let l ← layout
      let o ← Obs.ofExcept (p.owner r.slot l)
      Obs.ensure (o.reference = r) Error.invalidState
      pure (if o.record.live = true ∧ o.record.publication = .published then some o.record.root
        else Option.none, some p) : Rd _) fun x t' => Seen H t' r x.1 ∧ CacheAt H t' x.2 := by
    rintro p t' ht ⟨t₁, h₁, h₂, rfl⟩
    obtain ⟨o, ho⟩ := hH.known h₁ hr
    exact resolvePage_sees hH h₂ ho.kind ho.lt (hH.known ht hr)
  unfold resolve
  cases cache with
  | none => exact Sees.ofExcept_bind (a := true) rfl (hload.bind hfresh)
  | some p =>
    obtain ⟨t₁, h₁, hpage, hkind⟩ := hc p rfl
    by_cases hblock : p.block = r.page
    · rw [hblock] at hpage hkind
      have hcount : p.ownerCount = .ok ((H t₁).body r.page).slots.length := by
        rw [Page.ownerCount, hpage, slots_eq hkind]; rfl
      -- an outgrown image is read again
      have hx : (if p.block = r.page then
          (do let n ← p.ownerCount; Except.ok (decide (n ≤ r.slot)) : Except Error Bool)
          else .ok true) = .ok (decide (((H t₁).body r.page).slots.length ≤ r.slot)) := by
        rw [if_pos hblock, hcount]
        rfl
      refine Sees.ofExcept_bind hx ?_
      by_cases hlt : ((H t₁).body r.page).slots.length ≤ r.slot
      · rw [decide_eq_true hlt]
        exact hload.bind hfresh
      · rw [decide_eq_false hlt]
        subst hpage
        exact resolvePage_sees hH h₁ hkind (Nat.not_le.1 hlt) hr
    · exact Sees.ofExcept_bind (a := true) (if_neg hblock) (hload.bind hfresh)

/-! ### Terms -/

variable {t₀ : ℕ} {x : Text} {packed : Bool} {bucket : ℕ → ℕ × ℕ} {bs : ℕ → List ℕ}

/-- A page of a bucket chain stays in the chain of the bucket: its entries are never removed. -/
theorem History.dictOk (hH : History H F K) (hd : DictOk (H t₀) packed bucket bs) {i : ℕ}
    (hi : i < buckets) (hb : b ∈ bs i) (ht : t₀ ≤ t) :
    ∃ packed' bucket' bs', DictOk (H t) packed' bucket' bs' ∧ b ∈ bs' i := by
  obtain ⟨m, h⟩ := hH.wf t
  obtain ⟨bs', hd'⟩ := h.dict
  refine ⟨m.packed, m.bucket, bs', hd', ?_⟩
  have hg := hH.mono t₀ t ht
  obtain ⟨j, hj, hbj⟩ := hd'.covered b (hg.dictionary b (hd.kind i hi b hb)).1
  -- both chains route the first entry of the page
  obtain ⟨p, es, hbody⟩ := dictionary_of_kind (hd.kind i hi b hb)
  obtain ⟨e, he⟩ := List.exists_mem_of_ne_nil _ (hd.format b p es hbody).2
  have hfind : ∃ o, findEntry p o pageHeader es = some e := exists_findEntry he
  obtain ⟨o, ho⟩ := hfind
  have hentry : (H t₀).entry ⟨b, o⟩ = some e := by rw [Store.entry, hbody]; exact ho
  obtain ⟨e', he', hge⟩ := hg.entry _ e hentry
  obtain ⟨p', es', hbody', hf'⟩ := Store.entry_eq_some he'
  have hroute := hd'.route j hj b hbj p' es' hbody' e' (findEntry_mem hf')
  rw [hge.term, hd.route i hi b hb p es hbody e he] at hroute
  rwa [hroute]

/-- What `findTerm` reports up to the moment `t` about the pages `bs` of a chain captured at
`t₀`. -/
def FoundAt (H : ℕ → Store) (t₀ t : ℕ) (x : Text) (bs : List ℕ) : Option (Page × TermRef) → Prop
  | none => ∀ u e, u.page ∈ bs → (H t₀).entry u = some e → e.term ≠ x
  | some (p, u) => u.page ∈ bs ∧ ∃ t₁, t₀ ≤ t₁ ∧ t₁ ≤ t ∧ p = (H t₁).page u.page ∧
      ∃ e, (H t₁).entry u = some e ∧ e.term = x

theorem FoundAt.mono {ds : List ℕ} {found : Option (Page × TermRef)}
    (h : FoundAt H t₀ t x ds found) (ht : t ≤ t') : FoundAt H t₀ t' x ds found := by
  rcases found with _ | ⟨p, u⟩
  · exact h
  · obtain ⟨hu, t₁, h₁, h₂, h⟩ := h
    exact ⟨hu, t₁, h₁, Nat.le_trans h₂ ht, h⟩

theorem findTermFrom_sees {i tail fuel : ℕ} {as cs : List ℕ} {found : Option (Page × TermRef)}
    (hH : History H F K) (hd : DictOk (H t₀) packed bucket bs) (hi : i < buckets) (h₀ : t₀ ≤ t)
    (hbs : bs i = as ++ b :: cs) (ht : tail = (bucket i).2) (hf : tail < fuel + b)
    (hfound : FoundAt H t₀ t x as found) :
    Sees H t (findTermFrom i x tail fuel b found) fun r t' => FoundAt H t₀ t' x (bs i) r := by
  have hl := hd.linked i hi
  have ha := hd.ascending i hi
  have htl := hd.tail_eq i hi
  rw [hbs] at hl ha htl
  rw [lastD_append_cons] at htl
  have ha' := (List.pairwise_append.1 ha).2.1
  induction fuel generalizing b as cs found t with
  | zero =>
    -- an ascending chain does not pass its tail
    exfalso
    have hmem := lastD_mem noBlock (List.cons_ne_nil b cs)
    rw [← htl, ← ht] at hmem
    rcases List.mem_cons.1 hmem with h | h
    · omega
    · have := (List.pairwise_cons.1 ha').1 _ h
      omega
  | succ fuel ih =>
    have hb : b ∈ bs i := by rw [hbs]; simp
    have hk : ∀ t', t ≤ t' → ((H t').body b).kind = .dictionary := fun t' ht' =>
      ((hH.mono t₀ t' (Nat.le_trans h₀ ht')).dictionary b (hd.kind i hi b hb)).1
    refine (load_sees hH (by decide) hk).bind ?_
    rintro _ t' ht' ⟨t₁, h₁, h₂, rfl⟩
    have h₀₁ := Nat.le_trans h₀ h₁
    obtain ⟨packed', bucket', bs', hd', hb'⟩ := hH.dictOk hd hi hb h₀₁
    obtain ⟨ts, r, hts, hmt, hr⟩ := matchTerms_page (x := x) (hH.pages t₁) hd' hi hb'
    refine Sees.ofExcept_bind hts (Sees.ofExcept_bind hmt ?_)
    -- at most one page of the chain holds the term
    have hnotin : b ∉ as := by
      have := hl.nodup
      rw [List.nodup_append] at this
      exact fun h => this.2.2 b h b List.mem_cons_self rfl
    have hone : r = none ∨ found = none := by
      by_contra hcon
      obtain ⟨hr₁, hr₂⟩ := not_or.1 hcon
      obtain ⟨u, rfl⟩ := Option.ne_none_iff_exists'.1 hr₁
      obtain ⟨⟨p, w⟩, rfl⟩ := Option.ne_none_iff_exists'.1 hr₂
      obtain ⟨rfl, e, he, hx⟩ := hr
      obtain ⟨hw, t₂, -, h₃, -, e', he', hx'⟩ := hfound
      obtain ⟨e'', he'', hg⟩ := (hH.mono t₂ t₁ (Nat.le_trans h₃ h₁)).entry _ _ he'
      rw [hd'.unique u w e e'' he he'' (by rw [hg.term, hx, hx'])] at hnotin
      exact hnotin hw
    refine Sees.ensure_bind hone ?_
    have hfol : following ((H t₁).page b) tail = .ok cs.head? := by
      refine following_of ((hH.pages t₁).block b) (fun c hc => ?_)
        (fun c hc => hl.ne_stop (by simp [hc])) ha' (ht.trans htl)
      obtain ⟨cs', rfl⟩ : ∃ cs', cs = c :: cs' := by
        cases cs with
        | nil => cases hc
        | cons d cs => cases hc; exact ⟨cs, rfl⟩
      have hne : (H t₀).next b ≠ noBlock := by
        rw [hl.next_eq]
        exact hl.ne_stop (by simp)
      exact (((hH.mono t₀ t₁ h₀₁).dictionary b (hd.kind i hi b hb)).2 hne).trans hl.next_eq
    have hrest : ∀ found' (k : Option ℕ → Rd (Option (Page × TermRef))), k none = pure found' →
        (∀ next, k (some next) = findTermFrom i x tail fuel next found') →
        FoundAt H t₀ t' x (as ++ [b]) found' →
        Sees H t' (Obs.ofExcept (following ((H t₁).page b) tail) >>= k)
          fun r t' => FoundAt H t₀ t' x (bs i) r := by
      intro found' k hstop hmore hfound'
      refine Sees.ofExcept_bind hfol ?_
      cases cs with
      | nil =>
        rw [List.head?_nil, hstop, hbs]
        exact Sees.pure hfound'
      | cons c cs =>
        have hbc : b < c := (List.pairwise_cons.1 ha').1 c List.mem_cons_self
        have hbs' : bs i = (as ++ [b]) ++ c :: cs := by rw [hbs, List.append_assoc]; rfl
        have has : as ++ b :: c :: cs = (as ++ [b]) ++ c :: cs := by simp
        rw [has] at hl ha
        rw [List.head?_cons, hmore]
        exact ih (Nat.le_trans h₀ ht') hbs' (by omega) hfound' hl ha
          (htl.trans lastD_cons_cons) (List.pairwise_cons.1 ha').2
    cases r with
    | some u =>
      obtain ⟨rfl, he⟩ := hr
      exact hrest (some ((H t₁).page u.page, u)) _ rfl (fun _ => rfl)
        ⟨by simp, t₁, h₀₁, h₂, rfl, he⟩
    | none =>
      refine hrest found _ rfl (fun _ => rfl) ?_
      cases found with
      | none =>
        intro u e hu he
        rcases List.mem_append.1 hu with hu | hu
        · exact hfound u e hu he
        · obtain ⟨e', he', hg⟩ := (hH.mono t₀ t₁ h₀₁).entry u e he
          rw [← hg.term]
          exact hr u e' (List.mem_singleton.1 hu) he'
      | some q =>
        obtain ⟨hq, h⟩ := hfound.mono ht'
        exact ⟨List.mem_append_left _ hq, h⟩

/-- `findTerm` through a metapage captured at `t₀` finds the entry of a term, and finds it if it
was there at `t₀`. -/
theorem findTerm_sees {m : MetaBody} (hH : History H F K) (h : WF True (H t₀) m) (h₀ : t₀ ≤ t)
    (x : Text) :
    Sees H t (findTerm (metaPage m) x) fun r t' => match r with
      | none => ∀ u e, (H t₀).entry u = some e → e.term ≠ x
      | some (p, u) => ∃ t₁, t₀ ≤ t₁ ∧ t₁ ≤ t' ∧ p = (H t₁).page u.page ∧
          ∃ e, (H t₁).entry u = some e ∧ e.term = x := by
  obtain ⟨bs, hd⟩ := h.dict
  have hi := bucketFor_lt x
  refine Sees.ofExcept_bind (metaPage_bucket h.metaOk hi) ?_
  -- an entry of the term lies in the chain of its bucket
  have hin : ∀ u e, (H t₀).entry u = some e → e.term = x → u.page ∈ bs (bucketFor x) := by
    rintro u e he rfl
    obtain ⟨p, es, hb, hf⟩ := Store.entry_eq_some he
    obtain ⟨i, hi', hmem⟩ := hd.covered u.page (Store.entry_kind he)
    rwa [hd.route i hi' u.page hmem p es hb e (findEntry_mem hf)]
  have hl := hd.linked _ hi
  by_cases hhead : (m.bucket (bucketFor x)).1 = noBlock
  · simp only [if_pos hhead]
    refine Sees.pure fun u e he hx => ?_
    have := hin u e he hx
    rw [hl.head_eq_stop_iff.1 hhead] at this
    exact absurd this List.not_mem_nil
  · simp only [if_neg hhead]
    obtain ⟨c, cs, hcs⟩ : ∃ c cs, bs (bucketFor x) = c :: cs := by
      cases hb : bs (bucketFor x) with
      | nil => exact absurd (hl.head_eq_stop_iff.2 hb) hhead
      | cons c cs => exact ⟨c, cs, rfl⟩
    have hc : (m.bucket (bucketFor x)).1 = c := by rw [hcs] at hl; exact hl.1
    rw [hc]
    have hcs' : bs (bucketFor x) = [] ++ c :: cs := hcs
    refine (findTermFrom_sees hH hd hi h₀ hcs' rfl (Nat.lt_of_lt_of_le (Nat.lt_succ_self _)
      (Nat.le_add_right _ _)) ?_).mono ?_
    · exact fun u e hu => absurd hu List.not_mem_nil
    · rintro (_ | ⟨p, u⟩) t' - hr
      · exact fun u e he hx => hr u e (hin u e he hx) he hx
      · exact hr.2

/-! ### Posting pages -/

theorem loadPosting_sees {u : TermRef} (hH : History H F K)
    (htag : ((H t).body b).postingTag = some u) :
    Sees H t (loadPosting b u) fun p t' => ReadAt H t t' b p := by
  have htag' : ∀ t', t ≤ t' → ((H t').body b).postingTag = some u := fun t' ht =>
    ((hH.mono t t' ht).posting b u htag).1
  have hk : ∀ t', t ≤ t' → ((H t').body b).kind.IsPosting := fun t' ht =>
    isPosting_of_tag (htag' t' ht)
  have hlt : b < (H t).blocks := (hH.pages t).lt_blocks ((hk t (Nat.le_refl t)).ne (by decide))
  refine (loadAny_sees hH hlt).bind ?_
  rintro _ t' ht' ⟨t₁, h₁, h₂, rfl⟩
  have hnd : ¬ ((H t₁).page b).kind = .dictionary := (hk t₁ h₁).ne (by decide)
  rw [if_neg hnd]
  have hterm : ((H t₁).page b).postingTerm = .ok u := by
    have ht' : ((H t₁).page b).body.postingTag = some u := htag' t₁ h₁
    rw [Page.postingTerm, ht']
  exact Sees.ofExcept_bind hterm (Sees.ensure_bind rfl (Sees.pure ⟨t₁, h₁, h₂, rfl⟩))

end

end PinCore
