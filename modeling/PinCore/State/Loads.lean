import Mathlib.Data.List.Perm.Subperm
import PinCore.State.Invariant

/-!
# Loads

What the checked loads return on a store that satisfies the invariant and does not change
meanwhile.
-/

namespace PinCore

open Obs

variable {s : Store} {b : ℕ}

/-! ### Pages -/

namespace PagesOk

theorem lt_blocks (hp : PagesOk s) (hk : (s.body b).kind ≠ .zero) : b < s.blocks := by
  by_contra hlt
  refine hk ?_
  rw [Store.body, hp.fresh b (Nat.not_lt.1 hlt)]
  rfl

theorem ne_noBlock (hp : PagesOk s) (hk : (s.body b).kind ≠ .zero) : b ≠ noBlock := by
  have := hp.lt_blocks hk
  have := hp.le
  omega

theorem ok (hp : PagesOk s) (b : ℕ) : (s.body b).Ok s.layout b := by
  have := (hp.valid b).body
  rwa [hp.block b] at this

theorem info_iff (hp : PagesOk s) (hk : (s.body b).kind ≠ .zero) :
    b = 0 ↔ (s.body b).kind = .info := by
  have := (hp.valid b).block hk
  rwa [hp.block b] at this

/-- Blocks of a chain other than the metapage are valid block numbers. -/
theorem blockValid (hp : PagesOk s) (hk : (s.body b).kind ≠ .zero)
    (hi : (s.body b).kind ≠ .info) : blockValid b :=
  ⟨fun h => hi ((hp.info_iff hk).1 h), hp.ne_noBlock hk⟩

theorem posting_valid (hp : PagesOk s) (hk : (s.body b).kind.IsPosting) : PinCore.blockValid b :=
  hp.blockValid (hk.ne (by decide)) (hk.ne (by decide))

theorem slotOk {r : OwnerRef} {o : OwnerSlot} (hp : PagesOk s) (ho : s.Owns r o) :
    o.Ok s.layout := by
  have hok := hp.ok r.page
  have hmem := ho.mem
  revert hok hmem
  cases s.body r.page <;> simp only [Body.slots, List.not_mem_nil, false_imp_iff, imp_true_iff]
  exact fun hok hmem => hok o hmem

theorem entriesOk {p : Bool} {es : List Entry} (hp : PagesOk s)
    (hb : s.body b = .dictionary p es) : ∀ e ∈ es, e.Ok p b := by
  have := hp.ok b
  rwa [hb] at this

/-- Distinct blocks of the store number at most its size. -/
theorem length_le (hp : PagesOk s) {bs : List ℕ} (hn : bs.Nodup)
    (hk : ∀ b ∈ bs, (s.body b).kind ≠ .zero) : bs.length ≤ s.blocks := by
  have hsub : bs ⊆ List.range s.blocks := fun b hb =>
    List.mem_range.2 (hp.lt_blocks (hk b hb))
  simpa using (List.subperm_of_subset hn hsub).length_le

end PagesOk

theorem blocks_returns : Returns s blocks (· = s.blocks) := Returns.observe rfl

theorem layout_returns : Returns s layout (· = s.layout) := Returns.observe rfl

theorem readPage_returns : Returns s (readPage b) (· = s.page b) := Returns.observe rfl

theorem loadAny_returns (hp : PagesOk s) (hb : b < s.blocks) :
    Returns s (loadAny b) (· = s.page b) := by
  refine blocks_returns.bind fun n hn => ?_
  subst hn
  refine (Returns.ensure hb).bind fun _ _ => ?_
  refine readPage_returns.bind fun p hpage => ?_
  subst hpage
  refine (Returns.ensure (hp.block b)).bind fun _ _ => ?_
  refine layout_returns.bind fun l hl => ?_
  subst hl
  have hv : (s.page b).validate s.layout = .ok () := if_pos (hp.valid b)
  refine (Returns.ofExcept (Q := fun _ => True) hv trivial).bind fun _ _ => ?_
  exact Returns.pure rfl

theorem load_returns {k : PageKind} (hp : PagesOk s) (hk : (s.body b).kind = k)
    (hz : k ≠ .zero) : Returns s (load b k) (· = s.page b) := by
  refine (loadAny_returns hp (hp.lt_blocks (hk ▸ hz))).bind fun p hpage => ?_
  subst hpage
  exact (Returns.ensure hk).bind fun _ _ => Returns.pure rfl

/-! ### The metapage -/

section

variable {m : MetaBody} {l : HeapLayout}

@[simp] theorem metaPage_block : (metaPage m).block = 0 := rfl

@[simp] theorem metaPage_kind : (metaPage m).kind = .info := rfl

@[simp] theorem metaPage_info : (metaPage m).info = .ok m := rfl

theorem metaPage_ownerChain (h : m.Ok l) :
    (metaPage m).ownerChain = .ok (m.ownerHead, m.ownerTail) := if_pos h.owners

theorem metaPage_bucket (h : m.Ok l) {i : ℕ} (hi : i < buckets) :
    (metaPage m).bucket i = .ok (m.bucket i) := if_pos ⟨hi, h.bucket i hi⟩

theorem metaPage_freeHead (h : m.Ok l) : (metaPage m).freeHead = .ok m.freeHead :=
  if_neg h.free

theorem metaPage_setFreeHead (h : b ≠ 0) :
    (metaPage m).setFreeHead b = .ok (metaPage { m with freeHead := b }) := if_neg h

theorem metaPage_rewriteJournal (h : m.Ok l) : (metaPage m).rewriteJournal = .ok m.journal := by
  rw [Page.rewriteJournal, metaPage_info, ok_bind]
  cases hj : m.journal with
  | none => rfl
  | some j => exact if_pos (h.journal j hj)

theorem metaPage_setRewriteJournal {j : Option RewriteJournal} (h : ∀ x ∈ j, x.Ok) :
    (metaPage m).setRewriteJournal j = .ok (metaPage { m with journal := j }) := if_pos h

theorem metaPage_groupedState (h : m.Ok l) : (metaPage m).groupedState = .ok m.grouped := by
  rw [Page.groupedState, metaPage_info, ok_bind, if_neg (not_not.2 h.refs),
    if_pos ⟨h.grouped, h.ids⟩]

theorem metaPage_setOwnerChain {head tail : ℕ} (h : pairValid head tail) :
    (metaPage m).setOwnerChain head tail =
      .ok (metaPage { m with ownerHead := head, ownerTail := tail }) := if_pos h

theorem metaPage_setBucket {i head tail : ℕ} (hi : i < buckets) (h : pairValid head tail) :
    (metaPage m).setBucket i head tail = .ok (metaPage { m with
      bucket := fun j => if j = i then (head, tail) else m.bucket j }) := if_pos ⟨hi, h⟩

theorem metaPage_valid (h : m.Ok l) : (metaPage m).Valid l where
  next _ := .inl rfl
  block _ := ⟨fun _ => rfl, fun _ => rfl⟩
  body := h
  len := by
    change (if m.grouped = .default then 4160
      else if m.grouped.deltas = [] ∧ m.grouped.retired = [] then 4232 else 5664) ≤ capacity
    unfold capacity
    split_ifs <;> omega

end

section

variable {strong : Prop} {m : MetaBody}

theorem WF.metaOk (h : WF strong s m) : m.Ok s.layout := by
  have := (h.pages.valid 0).body
  rwa [h.info] at this

theorem WF.body_zero (h : WF strong s m) : s.body 0 = .info m := by
  rw [Store.body, h.info]; rfl

theorem WF.loadInfo (h : WF strong s m) : Returns s (load 0 .info) (· = metaPage m) := by
  rw [← h.info]
  exact load_returns h.pages (by rw [h.body_zero]; rfl) (by simp)

end

theorem bucketFor_lt (x : Text) : bucketFor x < buckets := Nat.mod_lt _ (by decide)

/-! ### Following chains -/

/-- The next page of an ascending chain, for any image that links to it. -/
theorem following_of {p : Page} {tail : ℕ} {cs : List ℕ} (hb : p.block = b)
    (hn : ∀ c ∈ cs.head?, p.next = c) (hne : ∀ c ∈ cs, c ≠ noBlock)
    (ha : (b :: cs).Pairwise (· < ·)) (ht : tail = lastD noBlock (b :: cs)) :
    following p tail = .ok cs.head? := by
  cases cs with
  | nil =>
    have : p.block = tail := by rw [hb, ht]; rfl
    exact if_pos this
  | cons c cs =>
    have hnext : p.next = c := hn c rfl
    have hbc : b < c := (List.pairwise_cons.1 ha).1 c List.mem_cons_self
    have hct : c ≤ tail := by
      rw [ht, lastD_cons_cons]
      have hmem := lastD_mem noBlock (List.cons_ne_nil c cs)
      rcases List.mem_cons.1 hmem with h | h
      · omega
      · have := (List.pairwise_cons.1 (List.pairwise_cons.1 ha).2).1 _ h
        omega
    have hc := hne c List.mem_cons_self
    have h₁ : ¬ p.block = tail := by rw [hb]; omega
    have h₂ : ¬ (p.next = noBlock ∨ tail < p.next ∨ p.next ≤ p.block) := by
      rw [hnext, hb]; omega
    rw [following, if_neg h₁, if_neg h₂, hnext]
    rfl

/-- The next page of an ascending chain. -/
theorem following_eq {head tail : ℕ} {as cs : List ℕ}
    (hl : Linked s.next noBlock head (as ++ b :: cs))
    (ha : (as ++ b :: cs).Pairwise (· < ·)) (ht : tail = lastD noBlock (as ++ b :: cs))
    (hb : (s.page b).block = b) : following (s.page b) tail = .ok cs.head? := by
  refine following_of hb (fun c hc => ?_) (fun c hc => hl.ne_stop (by simp [hc]))
    (List.pairwise_append.1 ha).2.1 (ht.trans lastD_append_cons)
  cases cs with
  | nil => cases hc
  | cons d cs =>
    cases hc
    exact hl.next_eq

/-- The next page of a posting chain, for any image that links to it. -/
theorem postingNext_of {p : Page} {tail remaining : ℕ} {cs : List ℕ} (hb : p.block = b)
    (hn : ∀ c ∈ cs.head?, p.next = c) (hne : ∀ c ∈ cs, c ≠ noBlock) (hnd : (b :: cs).Nodup)
    (ht : tail = lastD noBlock (b :: cs)) (hr : cs.length < remaining) :
    postingNext p tail remaining = .ok (cs.head?, remaining - 1) := by
  obtain ⟨n, rfl⟩ : ∃ n, remaining = n + 1 := ⟨remaining - 1, by omega⟩
  cases cs with
  | nil =>
    have : p.block = tail := by rw [hb, ht]; rfl
    exact if_pos this
  | cons c cs =>
    have hnext : p.next = c := hn c rfl
    have hc := hne c List.mem_cons_self
    have hpt : p.block ≠ tail := by
      rw [hb, ht, lastD_cons_cons]
      intro h
      have hmem := lastD_mem noBlock (List.cons_ne_nil c cs)
      rw [← h] at hmem
      exact (List.nodup_cons.1 hnd).1 hmem
    have hn' : ¬ (p.next = noBlock ∨ n = 0) := by
      rw [hnext]
      simp only [List.length_cons] at hr
      omega
    rw [postingNext, if_neg hpt, if_neg hn', hnext]
    rfl

/-- The next page of a posting chain. -/
theorem postingNext_eq {tail remaining : ℕ} {cs : List ℕ} (hl : Linked s.next noBlock b (b :: cs))
    (ht : tail = lastD noBlock (b :: cs)) (hb : (s.page b).block = b)
    (hr : cs.length < remaining) :
    postingNext (s.page b) tail remaining = .ok (cs.head?, remaining - 1) := by
  refine postingNext_of hb (fun c hc => ?_) (fun c hc => hl.ne_stop (by simp [hc])) hl.nodup ht hr
  cases cs with
  | nil => cases hc
  | cons d cs =>
    cases hc
    exact hl.2.2.1

/-! ### Owners -/

theorem slots_eq (hk : (s.body b).kind = .owners) : (s.page b).slots = .ok (s.body b).slots := by
  rw [Page.slots, ← Store.body]
  revert hk
  cases s.body b <;> simp [Body.kind, Body.slots]

theorem owner_eq {r : OwnerRef} {o : OwnerSlot} (hp : PagesOk s) (ho : s.Owns r o) :
    (s.page r.page).owner r.slot s.layout = .ok ⟨r, o⟩ := by
  rw [Page.owner, slots_eq ho.kind, ok_bind]
  simp only [ho.1, hp.block]
  refine (if_pos (hp.slotOk ho)).trans ?_
  rw [ho.2]

/-- A cached page is the stored image of an owner page. -/
def CacheOk (s : Store) (cache : Option Page) : Prop :=
  ∀ p ∈ cache, p = s.page p.block ∧ (s.body p.block).kind = .owners

theorem CacheOk.none : CacheOk s none := fun _ h => nomatch h

theorem resolve_returns {cache : Option Page} {r : OwnerRef} (hp : PagesOk s)
    (hc : CacheOk s cache) (hr : s.Known r) :
    Returns s (resolve cache r) fun x => x.1 = s.rootOf r ∧ CacheOk s x.2 := by
  obtain ⟨o, ho⟩ := hr
  -- both the cached and the reloaded page are the stored owner page of the reference
  have hload : Returns s (load r.page .owners) (· = s.page r.page) :=
    load_returns hp ho.kind (by simp)
  have hrest : ∀ p : Page, p = s.page r.page → Returns s (do
      let l ← layout
      let o ← Obs.ofExcept (p.owner r.slot l)
      Obs.ensure (o.reference = r) Error.invalidState
      pure (if o.record.live = true ∧ o.record.publication = .published then some o.record.root
        else Option.none, some p) : Rd _) fun x => x.1 = s.rootOf r ∧ CacheOk s x.2 := by
    rintro p rfl
    refine layout_returns.bind fun l hl => ?_
    subst hl
    refine (Returns.ofExcept (Q := (· = ⟨r, o⟩)) (owner_eq hp ho) rfl).bind fun x hx => ?_
    subst hx
    refine (Returns.ensure rfl).bind fun _ _ => Returns.pure ⟨(Store.rootOf_eq ho).symm, ?_⟩
    rintro q ⟨⟩
    exact ⟨by rw [hp.block], by rw [hp.block]; exact ho.kind⟩
  unfold resolve
  cases cache with
  | none =>
    refine (Returns.ofExcept (Q := (· = true)) rfl rfl).bind fun x hx => ?_
    subst hx
    exact hload.bind hrest
  | some p =>
    obtain ⟨hpage, hkind⟩ := hc p rfl
    by_cases hblock : p.block = r.page
    · rw [hblock] at hpage hkind
      have hcount : p.ownerCount = .ok (s.body r.page).slots.length := by
        rw [Page.ownerCount, hpage, slots_eq hkind]; rfl
      have hx : (if p.block = r.page then
          (do let n ← p.ownerCount; Except.ok (decide (n ≤ r.slot)) : Except Error Bool)
          else .ok true) = .ok false := by
        rw [if_pos hblock, hcount]
        have := ho.lt
        change Except.ok (decide _) = _
        rw [decide_eq_false (by omega)]
      refine (Returns.ofExcept (Q := (· = false)) hx rfl).bind fun x hx => ?_
      subst hx
      exact (Returns.pure (Q := (· = s.page r.page)) hpage).bind hrest
    · refine (Returns.ofExcept (Q := (· = true)) (if_neg hblock) rfl).bind fun x hx => ?_
      subst hx
      exact hload.bind hrest

/-! ### Terms -/

section

variable {t : TermRef} {e : Entry}

theorem Store.entry_eq_some (h : s.entry t = some e) :
    ∃ p es, s.body t.page = .dictionary p es ∧ findEntry p t.offset pageHeader es = some e := by
  unfold Store.entry at h
  split at h
  · next p es hb => exact ⟨p, es, hb, h⟩
  · cases h

theorem entry_ok (hp : PagesOk s) (h : s.entry t = some e) : ∃ p, e.Ok p t.page := by
  obtain ⟨p, es, hb, hf⟩ := Store.entry_eq_some h
  exact ⟨p, hp.entriesOk hb e (findEntry_mem hf)⟩

theorem term_eq (hp : PagesOk s) (h : s.entry t = some e) :
    (s.page t.page).term t = .ok (e.toTerm t) := by
  obtain ⟨p, es, hb, hf⟩ := Store.entry_eq_some h
  have hes : (s.page t.page).entries = .ok (p, es) := by
    have hb' : (s.page t.page).body = .dictionary p es := hb
    rw [Page.entries, hb']
  have hne : ¬ t.page ≠ (s.page t.page).block := not_not.2 (hp.block t.page).symm
  rw [Page.term, if_neg hne, hes, hp.block]
  exact termFrom_eq (hp.entriesOk hb) hf

theorem terms_eq {p : Bool} {es : List Entry} (hp : PagesOk s) (hb : s.body b = .dictionary p es) :
    (s.page b).terms =
      .ok ((located p pageHeader es).map fun x => x.2.toTerm ⟨b, x.1⟩) := by
  have hes : (s.page b).entries = .ok (p, es) := by
    have hb' : (s.page b).body = .dictionary p es := hb
    rw [Page.entries, hb']
  rw [Page.terms, hes, hp.block]
  exact termsFrom_eq (hp.entriesOk hb)

theorem dictionary_of_kind (hk : (s.body b).kind = .dictionary) :
    ∃ p es, s.body b = .dictionary p es := by
  revert hk
  cases s.body b <;> simp [Body.kind]

theorem matchTerms_none {bucket : ℕ} {x : Text} {ts : List Term} {found : Option TermRef}
    (hb : ∀ t ∈ ts, bucketFor t.term = bucket) (hx : ∀ t ∈ ts, t.term ≠ x) :
    matchTerms bucket x ts found = .ok found := by
  induction ts with
  | nil => rfl
  | cons t ts ih =>
    rw [matchTerms, if_neg (not_not.2 (hb t List.mem_cons_self)), if_neg (hx t List.mem_cons_self)]
    exact ih (fun u hu => hb u (List.mem_cons_of_mem _ hu))
      fun u hu => hx u (List.mem_cons_of_mem _ hu)

theorem matchTerms_some {bucket : ℕ} {x : Text} {ts : List Term} {t : Term}
    (hb : ∀ t ∈ ts, bucketFor t.term = bucket) (hm : t ∈ ts) (hx : t.term = x)
    (hu : ts.Pairwise fun a b => a.term ≠ b.term) :
    matchTerms bucket x ts none = .ok (some t.reference) := by
  induction ts with
  | nil => exact absurd hm List.not_mem_nil
  | cons a as ih =>
    obtain ⟨ha, has⟩ := List.pairwise_cons.1 hu
    have hbs : ∀ t ∈ as, bucketFor t.term = bucket := fun u hu => hb u (List.mem_cons_of_mem _ hu)
    rw [matchTerms, if_neg (not_not.2 (hb a List.mem_cons_self))]
    rcases List.mem_cons.1 hm with rfl | hm
    · rw [if_pos hx, if_neg (not_not.2 rfl)]
      exact matchTerms_none hbs fun u hu => hx ▸ (ha u hu).symm
    · rw [if_neg fun h => ha t hm (h.trans hx.symm)]
      exact ih hbs hm has

end

/-- What `findTerm` reports about the pages `bs`. -/
def FoundIn (s : Store) (x : Text) (bs : List ℕ) : Option (Page × TermRef) → Prop
  | none => ∀ t e, t.page ∈ bs → s.entry t = some e → e.term ≠ x
  | some (p, t) => p = s.page t.page ∧ t.page ∈ bs ∧ ∃ e, s.entry t = some e ∧ e.term = x

section

variable {packed : Bool} {bucket : ℕ → ℕ × ℕ} {bs : ℕ → List ℕ} {x : Text}

/-- The entries of one page of a bucket chain. -/
theorem matchTerms_page {i : ℕ} (hp : PagesOk s) (hd : DictOk s packed bucket bs)
    (hi : i < buckets) (hb : b ∈ bs i) :
    ∃ ts r, (s.page b).terms = .ok ts ∧ matchTerms i x ts none = .ok r ∧
      match r with
      | none => ∀ t e, t.page = b → s.entry t = some e → e.term ≠ x
      | some t => t.page = b ∧ ∃ e, s.entry t = some e ∧ e.term = x := by
  obtain ⟨p, es, hbody⟩ := dictionary_of_kind (hd.kind i hi b hb)
  have hentry : ∀ o e, findEntry p o pageHeader es = some e → s.entry ⟨b, o⟩ = some e :=
    fun o e h => by rw [Store.entry, hbody]; exact h
  have hroute : ∀ t ∈ (located p pageHeader es).map fun x => x.2.toTerm ⟨b, x.1⟩,
      bucketFor t.term = i := by
    intro t ht
    obtain ⟨⟨o, e⟩, hm, rfl⟩ := List.mem_map.1 ht
    exact hd.route i hi b hb p es hbody e (findEntry_mem (mem_located.1 hm))
  by_cases hex : ∃ t e, t.page = b ∧ s.entry t = some e ∧ e.term = x
  · obtain ⟨t, e, rfl, he, hx⟩ := hex
    refine ⟨_, some t, terms_eq hp hbody, ?_, rfl, e, he, hx⟩
    obtain ⟨p', es', hbody', hf⟩ := Store.entry_eq_some he
    obtain ⟨rfl, rfl⟩ : p' = p ∧ es' = es := by
      rw [hbody] at hbody'; cases hbody'; exact ⟨rfl, rfl⟩
    refine matchTerms_some (t := e.toTerm t) hroute ?_ hx ?_
    · exact List.mem_map.2 ⟨(t.offset, e), mem_located.2 hf, rfl⟩
    · refine List.pairwise_map.2 ((located_ascending).imp_of_mem fun {a c} ha hc hlt heq => ?_)
      have := hd.unique _ _ _ _ (hentry _ _ (mem_located.1 ha)) (hentry _ _ (mem_located.1 hc)) heq
      have := congrArg TermRef.offset this
      simp only at this
      omega
  · refine ⟨_, none, terms_eq hp hbody, matchTerms_none hroute ?_, ?_⟩
    · intro t ht hx
      obtain ⟨⟨o, e⟩, hm, rfl⟩ := List.mem_map.1 ht
      exact hex ⟨⟨b, o⟩, e, rfl, hentry _ _ (mem_located.1 hm), hx⟩
    · exact fun t e ht he hx => hex ⟨t, e, ht, he, hx⟩

theorem findTermFrom_returns {i tail fuel : ℕ} {as cs : List ℕ} {found : Option (Page × TermRef)}
    (hp : PagesOk s) (hd : DictOk s packed bucket bs) (hi : i < buckets)
    (hbs : bs i = as ++ b :: cs) (ht : tail = (bucket i).2) (hf : tail < fuel + b)
    (hfound : FoundIn s x as found) :
    Returns s (findTermFrom i x tail fuel b found) (FoundIn s x (bs i)) := by
  induction fuel generalizing b as cs found with
  | zero =>
    -- an ascending chain does not pass its tail
    exfalso
    have hl := hd.tail_eq i hi
    have ha := hd.ascending i hi
    rw [hbs, lastD_append_cons] at hl
    rw [hbs] at ha
    have ha' := (List.pairwise_append.1 ha).2.1
    have hmem := lastD_mem noBlock (List.cons_ne_nil b cs)
    rw [← hl] at hmem
    rcases List.mem_cons.1 hmem with h | h
    · omega
    · have := (List.pairwise_cons.1 ha').1 _ h
      omega
  | succ fuel ih =>
    have hb : b ∈ bs i := by rw [hbs]; simp
    obtain ⟨ts, r, hts, hmt, hr⟩ := matchTerms_page (x := x) hp hd hi hb
    have hl := hd.linked i hi
    have ha := hd.ascending i hi
    have htl := hd.tail_eq i hi
    rw [hbs] at hl ha htl
    refine (load_returns hp (hd.kind i hi b hb) (by simp)).bind fun p hpage => ?_
    subst hpage
    refine (Returns.ofExcept (Q := (· = ts)) hts rfl).bind fun ts' h => ?_
    subst h
    refine (Returns.ofExcept (Q := (· = r)) hmt rfl).bind fun r' h => ?_
    subst h
    -- at most one page of the chain holds the term
    have hnotin : b ∉ as := by
      have := hl.nodup
      rw [List.nodup_append] at this
      exact fun h => this.2.2 b h b List.mem_cons_self rfl
    have hone : r' = none ∨ found = none := by
      by_contra hcon
      obtain ⟨h₁, h₂⟩ := not_or.1 hcon
      obtain ⟨t, rfl⟩ := Option.ne_none_iff_exists'.1 h₁
      obtain ⟨⟨p, u⟩, rfl⟩ := Option.ne_none_iff_exists'.1 h₂
      obtain ⟨rfl, e, he, hx⟩ := hr
      obtain ⟨-, hu, e', he', hx'⟩ := hfound
      rw [hd.unique t u e e' he he' (hx.trans hx'.symm)] at hnotin
      exact hnotin hu
    refine (Returns.ensure hone).bind fun _ _ => ?_
    have hfol := following_eq hl ha (ht.trans htl) (hp.block b)
    have hrest : ∀ found' (k : Option ℕ → Rd (Option (Page × TermRef))), k none = pure found' →
        (∀ next, k (some next) = findTermFrom i x tail fuel next found') →
        FoundIn s x (as ++ [b]) found' →
        Returns s (Obs.ofExcept (following (s.page b) tail) >>= k) (FoundIn s x (bs i)) := by
      intro found' k hstop hmore hfound'
      refine (Returns.ofExcept (Q := (· = cs.head?)) hfol rfl).bind fun nx hnx => ?_
      subst hnx
      cases cs with
      | nil =>
        rw [List.head?_nil, hstop, hbs]
        exact Returns.pure hfound'
      | cons c cs =>
        have hbc : b < c := by
          have := (List.pairwise_append.1 ha).2.1
          exact (List.pairwise_cons.1 this).1 c List.mem_cons_self
        have hbs' : bs i = (as ++ [b]) ++ c :: cs := by rw [hbs, List.append_assoc]; rfl
        rw [List.head?_cons, hmore]
        exact ih hbs' (by omega) hfound'
    cases r' with
    | some t =>
      obtain ⟨rfl, he⟩ := hr
      exact hrest (some (s.page t.page, t)) _ rfl (fun _ => rfl) ⟨rfl, by simp, he⟩
    | none =>
      refine hrest found _ rfl (fun _ => rfl) ?_
      cases found with
      | none =>
        intro t e ht he
        rcases List.mem_append.1 ht with ht | ht
        · exact hfound t e ht he
        · exact hr t e (List.mem_singleton.1 ht) he
      | some q => exact ⟨hfound.1, List.mem_append_left _ hfound.2.1, hfound.2.2⟩

/-- `findTerm` finds the one entry of a term, and finds it if there is one. -/
theorem findTerm_returns {strong : Prop} {m : MetaBody} (h : WF strong s m) (x : Text) :
    Returns s (findTerm (metaPage m) x) fun r => match r with
      | none => ∀ t e, s.entry t = some e → e.term ≠ x
      | some (p, t) => p = s.page t.page ∧ ∃ e, s.entry t = some e ∧ e.term = x := by
  obtain ⟨bs, hd⟩ := h.dict
  have hi := bucketFor_lt x
  refine (Returns.ofExcept (Q := (· = m.bucket (bucketFor x))) (metaPage_bucket h.metaOk hi)
    rfl).bind fun c hc => ?_
  subst hc
  -- an entry of the term lies in the chain of its bucket
  have hin : ∀ t e, s.entry t = some e → e.term = x → t.page ∈ bs (bucketFor x) := by
    rintro t e he rfl
    obtain ⟨p, es, hb, hf⟩ := Store.entry_eq_some he
    obtain ⟨i, hi', hmem⟩ := hd.covered t.page (Store.entry_kind he)
    rwa [hd.route i hi' t.page hmem p es hb e (findEntry_mem hf)]
  have hl := hd.linked _ hi
  by_cases hhead : (m.bucket (bucketFor x)).1 = noBlock
  · simp only [if_pos hhead]
    refine Returns.pure fun t e he hx => ?_
    have := hin t e he hx
    rw [hl.head_eq_stop_iff.1 hhead] at this
    exact absurd this List.not_mem_nil
  · simp only [if_neg hhead]
    obtain ⟨c, cs, hcs⟩ : ∃ c cs, bs (bucketFor x) = c :: cs := by
      cases hb : bs (bucketFor x) with
      | nil => exact absurd (hl.head_eq_stop_iff.2 hb) hhead
      | cons c cs => exact ⟨c, cs, rfl⟩
    have hc : (m.bucket (bucketFor x)).1 = c := by rw [hcs] at hl; exact hl.1
    rw [hc]
    have hcs' : bs (bucketFor x) = [] ++ c :: cs := hcs
    refine (findTermFrom_returns h.pages hd hi hcs' rfl
      (Nat.lt_of_lt_of_le (Nat.lt_succ_self _) (Nat.le_add_right _ _)) ?_).mono ?_
    · exact fun t e ht => absurd ht List.not_mem_nil
    · rintro (_ | ⟨p, t⟩) hr
      · exact fun t e he hx => hr t e (hin t e he hx) he hx
      · exact ⟨hr.1, hr.2.2⟩

end

/-! ### Posting pages -/

section

variable {t : TermRef} {e : Entry} {bs : List ℕ}

theorem loadPosting_returns (hp : PagesOk s) (ht : (s.body b).postingTag = some t) :
    Returns s (loadPosting b t) (· = s.page b) := by
  have hk := isPosting_of_tag ht
  have hlt : b < s.blocks := hp.lt_blocks (hk.ne (by decide))
  refine (loadAny_returns hp hlt).bind fun p hpage => ?_
  subst hpage
  have hnd : ¬ (s.page b).kind = .dictionary := hk.ne (by decide)
  rw [if_neg hnd]
  have htag : (s.page b).postingTerm = .ok t := by
    have ht' : (s.page b).body.postingTag = some t := ht
    rw [Page.postingTerm, ht']
  refine (Returns.ofExcept (Q := (· = t)) htag rfl).bind fun t' h => ?_
  subst h
  exact (Returns.ensure rfl).bind fun _ _ => Returns.pure rfl

/-- A valid compressed page is not empty. -/
theorem postingRefs_ne_nil {body : Body} {l : HeapLayout} (hok : body.Ok l b)
    (ht : body.postingTag = some t) (hk : body.kind ≠ .postings) : body.postingRefs ≠ [] := by
  cases body with
  | sealed t refs => exact hok.2.2.2
  | direct t first last records =>
    intro h
    have hf := hok.2.2.2.1
    rw [show records.map (·.owner) = [] from h] at hf
    cases hf
  | postings => exact absurd rfl hk
  | _ => cases ht

theorem postingRefs_eq (hp : PagesOk s) (ht : (s.body b).postingTag = some t) :
    (s.page b).postingRefs = .ok (s.body b).postingRefs := by
  have htag : (s.page b).postingTerm = .ok t := by
    have ht' : (s.page b).body.postingTag = some t := ht
    rw [Page.postingTerm, ht']
  have hne : ¬ ((s.page b).kind ≠ .postings ∧ (s.page b).body.postingRefs = []) := fun h =>
    postingRefs_ne_nil (hp.ok b) ht h.1 h.2
  rw [Page.postingRefs, htag]
  exact if_neg hne

theorem directRoot_eq {i : ℕ} {p : Page} {l : HeapLayout} {first last : OwnerRef}
    {records : List DirectRecord} {x : DirectRecord} (hb : p.body = .direct t first last records)
    (hi : records[i]? = some x) (hx : x.root.Valid l) :
    p.directRoot i l = .ok (if x.live then some x.root else none) := by
  have hrec : p.directRecords = .ok records := by rw [Page.directRecords, hb]
  rw [Page.directRoot, hrec, ok_bind]
  simp only [hi]
  exact if_pos hx

/-- The state word of a packed entry is 1 exactly when it has an inline second. -/
theorem inlineSecond_eq_some {p : Bool} {page : ℕ} {second : OwnerRef} (hok : e.Ok p page)
    (h : (e.toTerm t).inlineSecond = some second) :
    p = true ∧ e.inline = 1 ∧ e.second = some second ∧ e.head = page ∧ e.tail = page := by
  simp only [Entry.toTerm] at h
  split_ifs at h with hi
  have hp : p = true := by
    by_contra hp
    have := hok.range
    rw [if_neg hp, hi] at this
    omega
  exact ⟨hp, hi, h, (hok.state.inline hp hi)⟩

theorem inlineSecond_eq_none {p : Bool} {page : ℕ} (hok : e.Ok p page)
    (h : (e.toTerm t).inlineSecond = none) : e.inline ≠ 1 := by
  intro hi
  simp only [Entry.toTerm, if_pos hi] at h
  have hp : p = true := by
    by_contra hp
    have := hok.range
    rw [if_neg hp, hi] at this
    omega
  have := hok.state.second hp (by rw [hi]; decide)
  rw [Entry.SecondOk, h] at this
  exact this

theorem Chain.length_le {head tail : ℕ} (hp : PagesOk s) (hc : Chain s t head tail bs) :
    bs.length ≤ s.blocks := by
  exact hp.length_le hc.linked.nodup fun b hb => (isPosting_of_tag (hc.tagged b hb)).ne (by decide)

/-- Where the postings of an entry are: the inline second, nowhere but in the entry, or in a
chain of pages. -/
inductive EntryPlace (s : Store) (t : TermRef) (e : Entry) : List ℕ → Prop
  | inline (second : OwnerRef) (hs : (e.toTerm t).inlineSecond = some second)
      (hr : e.inlineRefs = [second]) (hh : e.head = t.page) (ht : e.tail = t.page) :
      EntryPlace s t e []
  | single (hs : (e.toTerm t).inlineSecond = none) (hr : e.inlineRefs = [])
      (hh : e.head = noBlock) (ht : e.tail = noBlock) : EntryPlace s t e []
  | chain (b : ℕ) (cs : List ℕ) (hs : (e.toTerm t).inlineSecond = none) (hr : e.inlineRefs = [])
      (hh : e.head = b) (ht : e.tail = lastD noBlock (b :: cs))
      (hl : Linked s.next noBlock b (b :: cs))
      (htag : ∀ c ∈ b :: cs, (s.body c).postingTag = some t) (hlen : cs.length < s.blocks) :
      EntryPlace s t e (b :: cs)

theorem entryPlace (hp : PagesOk s) (he : s.entry t = some e) (hc : EntryChain s t e bs) :
    EntryPlace s t e bs := by
  obtain ⟨p, hok⟩ := entry_ok hp he
  unfold EntryChain at hc
  cases hin : (e.toTerm t).inlineSecond with
  | some second =>
    obtain ⟨-, hi, hs, hh, ht⟩ := inlineSecond_eq_some hok hin
    rw [if_pos hi] at hc
    subst hc
    exact .inline second hin (by rw [Entry.inlineRefs, if_pos hi, hs]; rfl) hh ht
  | none =>
    have hi := inlineSecond_eq_none hok hin
    have hr : e.inlineRefs = [] := by rw [Entry.inlineRefs, if_neg hi]
    rw [if_neg hi] at hc
    cases bs with
    | nil => exact .single hin hr hc.linked hc.tail_eq
    | cons b cs =>
      have hl : Linked s.next noBlock b (b :: cs) := ⟨rfl, hc.linked.2⟩
      exact .chain b cs hin hr hc.linked.1 hc.tail_eq hl hc.tagged (hc.length_le hp)

end

end PinCore
