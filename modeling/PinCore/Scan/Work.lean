import PinCore.Insert.Link
import PinCore.Lib.Claim
import PinCore.Mutable.Work
import PinCore.Query.Cover

/-!
# The batches of a captured scan

On a store that does not change, a captured `WorkState` passes one page after the other and ends.
The batches stream the postings of the one term of the cover, or the live owners, in owner order;
for a single-term query they are the candidates of `scan_count`.
-/

namespace PinCore

open Obs

/-- One turn of a participant outside the lock: the snapshot is checked and a batch prepared. -/
def WorkState.turn (s : Store) (w : WorkState) : Except Error (Option (WorkState × WorkBatch)) :=
  Obs.eval (Obs.ofExcept (fromWords w) >>= prepare) s

/-- The candidates of claimed batches, one batch after the other. -/
def consume (l : HeapLayout) : List WorkBatch → Except Error (List CountCandidate)
  | [] => .ok []
  | b :: bs => do
    let candidates ← b.forEach l
    let rest ← consume l bs
    .ok (candidates ++ rest)

/-- Working alone from `w` on comes to an end, and the batches stream the candidates `cs`. -/
def Streams (s : Store) (w : WorkState) (cs : List CountCandidate) : Prop :=
  ∃ bs, Drains (WorkState.turn s) w bs ∧ consume s.layout bs = .ok cs

section

variable {s : Store} {w w' : WorkState} {b : WorkBatch} {cs rest : List CountCandidate}

theorem WorkState.turn_eq {r : Option (WorkState × WorkBatch)} (hw : fromWords w = .ok w)
    (h : Returns s w.prepare (· = r)) : w.turn s = .ok r := by
  obtain ⟨a, ha, rfl⟩ := (Returns.ofExcept_bind hw h).eval
  exact ha

theorem Streams.done : Streams s .done [] := ⟨[], .done rfl, rfl⟩

theorem Streams.next (ht : w.turn s = .ok (some (w', b))) (hb : b.forEach s.layout = .ok cs)
    (hr : Streams s w' rest) : Streams s w (cs ++ rest) := by
  obtain ⟨bs, hd, hc⟩ := hr
  refine ⟨b :: bs, .next ht hd, ?_⟩
  rw [consume, hb, hc]
  rfl

end

/-! ### Valid words -/

/-- The words of a position in the postings of a term. -/
structure WorkState.ChainWords (w : WorkState) : Prop where
  kind : w.kind = 1 ∨ w.kind = 2
  limit : 0 < w.limit ∧ w.limit < noBlock
  remaining : 0 < w.remaining ∧ w.remaining ≤ w.limit
  single : w.single ≤ 1
  places : ((0 < w.block ∧ w.block < w.limit) ∧ 0 < w.tail ∧ w.tail < w.limit) ∨
    (w.kind = 1 ∧ w.block = noBlock ∧ w.tail = noBlock)
  term : (0 < w.term.page ∧ w.term.page < w.limit) ∧ w.term.offset ≤ 65535
  previous : (0 < w.previous.page ∧ w.previous.page < w.limit) ∧ w.previous.slot ≤ 65535 ∧
    w.previous.incarnation ≠ 0

/-- The words of a position in the owner chain. -/
structure WorkState.OwnerWords (w : WorkState) : Prop where
  kind : w.kind = 3
  limit : 0 < w.limit ∧ w.limit < noBlock
  remaining : 0 < w.remaining ∧ w.remaining ≤ w.limit
  places : (0 < w.block ∧ w.block < w.limit) ∧ 0 < w.tail ∧ w.tail < w.limit
  ordered : w.block ≤ w.tail
  unused : w.term = ⟨0, 0⟩ ∧ w.previous = ⟨0, 0, 0⟩ ∧ w.single = 0

section

variable {w w' : WorkState}

theorem WorkState.ChainWords.fromWords (h : w.ChainWords) : fromWords w = .ok w := by
  obtain ⟨hk, hl, hr, hs, hp, ht, hv⟩ := h
  rw [WorkState.fromWords, if_neg (by omega), if_neg (by omega), if_neg, if_neg (by omega),
    if_neg (by omega)]
  rintro ⟨h₁, h₂⟩
  exact hp.elim h₁ h₂

theorem WorkState.OwnerWords.fromWords (h : w.OwnerWords) : fromWords w = .ok w := by
  obtain ⟨hk, hl, hr, hp, ho, ht, hv, hs⟩ := h
  rw [WorkState.fromWords, if_neg (by omega), if_neg (by omega), if_neg (fun hn => hn.1 hp),
    if_pos hk, if_neg]
  rintro (h₁ | h₁ | h₁ | h₁)
  · omega
  · exact h₁ ht
  · exact h₁ hv
  · exact h₁ hs

/-- Accepted words are returned unchanged; a relation of the largest size is not accepted. -/
theorem WorkState.fromWords_ok (h : fromWords w = .ok w') (hk : w.kind ≠ 0) :
    w' = w ∧ w.limit < noBlock := by
  unfold WorkState.fromWords at h
  rw [if_neg hk] at h
  split_ifs at h with h₁ h₂ h₃ h₄ h₅
  all_goals
    cases h
    exact ⟨rfl, by omega⟩

end

/-! ### Positions in a store -/

section

variable {strong : Prop} {s : Store} {m : MetaBody} {V : View} {t : TermRef} {e : Entry}
  {bs cs : List ℕ} {b : ℕ} {r : OwnerRef}

theorem PagesOk.inRange (hp : PagesOk s) (hz : (s.body b).kind ≠ .zero)
    (hi : (s.body b).kind ≠ .info) : 0 < b ∧ b < s.blocks :=
  ⟨Nat.pos_of_ne_zero fun h => hi ((hp.info_iff hz).1 h), hp.lt_blocks hz⟩

theorem PagesOk.tagged_inRange (hp : PagesOk s) (ht : (s.body b).postingTag = some t) :
    0 < b ∧ b < s.blocks := by
  have hk := isPosting_of_tag ht
  exact hp.inRange (hk.ne (by decide)) (hk.ne (by decide))

theorem PagesOk.owner_words (hp : PagesOk s) (hr : s.Known r) :
    (0 < r.page ∧ r.page < s.blocks) ∧ r.slot ≤ 65535 ∧ r.incarnation ≠ 0 := by
  obtain ⟨o, ho⟩ := hr
  have hv := ho.valid hp
  have hslot := hv.2.1
  have hk := ho.kind
  refine ⟨hp.inRange (hk.trans_ne (by decide)) (hk.trans_ne (by decide)), ?_, hv.2.2⟩
  simp only [ownerSlots, capacity, ownerHeader, ownerBytes] at hslot
  omega

theorem PagesOk.term_words (hp : PagesOk s) (he : s.entry t = some e) :
    (0 < t.page ∧ t.page < s.blocks) ∧ t.offset ≤ 65535 := by
  have hk := Store.entry_kind he
  refine ⟨hp.inRange (hk.trans_ne (by decide)) (hk.trans_ne (by decide)), ?_⟩
  obtain ⟨p, es, hb, hf⟩ := Store.entry_eq_some he
  have hrange := (findEntry_range hf).2
  have hlen := (hp.valid t.page).len
  have hb' : (s.page t.page).body = .dictionary p es := hb
  rw [Page.len, hb'] at hlen
  simp only [capacity, pageHeader] at hlen hrange
  omega

/-! ### The postings of a term -/

/-- The candidates of one posting page; only a certified scan passes the sealed flag on. -/
def pageCandidates (s : Store) (certified : Bool) (b : ℕ) : List CountCandidate :=
  (s.body b).postingRefs.map fun o => ⟨o, certified && (s.page b).isSealed⟩

theorem checkOrder_eq {previous : OwnerRef} {refs : List OwnerRef}
    (ho : (previous :: refs).Pairwise OwnerRef.Before) :
    checkOrder previous refs = .ok (refs.getLastD previous) := by
  induction refs generalizing previous with
  | nil => rfl
  | cons r refs ih =>
    obtain ⟨hprev, ho⟩ := List.pairwise_cons.1 ho
    rw [checkOrder, if_pos (hprev r List.mem_cons_self), ih ho, List.getLastD_cons]

theorem forEach_postings {l : HeapLayout} {certified : Bool} (hp : PagesOk s)
    (ht : (s.body b).postingTag = some t) :
    WorkBatch.forEach ⟨some (s.page b), none, certified && (s.page b).isSealed⟩ l =
      .ok (pageCandidates s certified b) := by
  have hk : ¬ (s.page b).kind = .owners := (isPosting_of_tag ht).ne (by decide)
  simp only [WorkBatch.forEach, if_neg hk]
  rw [postingRefs_eq hp ht]
  rfl

/-- The last owner of a page, or the one before the page. -/
theorem known_getLastD {previous : OwnerRef} {refs : List OwnerRef} (hp : s.Known previous)
    (hr : ∀ r ∈ refs, s.Known r) : s.Known (refs.getLastD previous) := by
  rcases List.eq_nil_or_concat refs with rfl | ⟨init, last, rfl⟩
  · exact hp
  · rw [List.concat_eq_append, List.getLastD_concat]
    exact hr last (by simp)

/-- A position in the posting chain of a term. -/
def chainState (s : Store) (t : TermRef) (single b : ℕ) (cs : List ℕ) (remaining : ℕ)
    (previous : OwnerRef) : WorkState :=
  ⟨2, b, lastD noBlock (b :: cs), remaining, t, previous, s.blocks, single⟩

theorem chainState_words {single remaining : ℕ} {previous : OwnerRef} (h : WF strong s m)
    (hlim : s.blocks < noBlock) (he : s.entry t = some e)
    (htag : ∀ c ∈ b :: cs, (s.body c).postingTag = some t) (hrem : 0 < remaining)
    (hle : remaining ≤ s.blocks) (hone : single ≤ 1) (hprev : s.Known previous) :
    (chainState s t single b cs remaining previous).ChainWords where
  kind := .inr rfl
  limit := ⟨h.pages.pos, hlim⟩
  remaining := ⟨hrem, hle⟩
  single := hone
  places := .inl ⟨h.pages.tagged_inRange (htag b List.mem_cons_self),
    h.pages.tagged_inRange (htag _ (lastD_mem noBlock (List.cons_ne_nil b cs)))⟩
  term := h.pages.term_words he
  previous := h.pages.owner_words hprev

/-- The position after the first page. -/
def chainNext (s : Store) (t : TermRef) (single b : ℕ) (remaining : ℕ) (previous : OwnerRef) :
    List ℕ → WorkState
  | [] => .done
  | c :: cs => chainState s t single c cs (remaining - 1)
      ((s.body b).postingRefs.getLastD previous)

theorem prepare_chain {single remaining : ℕ} {previous : OwnerRef} (h : WF strong s m)
    (hlim : s.blocks < noBlock) (he : s.entry t = some e)
    (hl : Linked s.next noBlock b (b :: cs))
    (htag : ∀ c ∈ b :: cs, (s.body c).postingTag = some t) (hrem : cs.length < remaining)
    (hle : remaining ≤ s.blocks) (hone : single ≤ 1) (hprev : s.Known previous)
    (ho : (previous :: (s.body b).postingRefs).Pairwise OwnerRef.Before) :
    Returns s (chainState s t single b cs remaining previous).prepare
      (· = some (chainNext s t single b remaining previous cs,
        ⟨some (s.page b), none, decide (single = 1) && (s.page b).isSealed⟩)) := by
  have htb := htag b List.mem_cons_self
  have hnext : ({ chainState s t single b cs remaining previous with
      previous := (s.body b).postingRefs.getLastD previous }).successor cs.head? (remaining - 1) =
        .ok (chainNext s t single b remaining previous cs) := by
    cases cs with
    | nil => rfl
    | cons c cs =>
      have hlast : lastD noBlock (b :: c :: cs) = lastD noBlock (c :: cs) := lastD_cons_cons
      simp only [List.length_cons] at hrem
      have hw : (chainState s t single c cs (remaining - 1)
          ((s.body b).postingRefs.getLastD previous)).ChainWords :=
        chainState_words h hlim he (fun d hd => htag d (List.mem_cons_of_mem _ hd)) (by omega)
          (by omega) hone (known_getLastD hprev fun r hr => h.refs.posting b r hr)
      refine Eq.trans ?_ hw.fromWords
      simp only [WorkState.successor, List.head?_cons, chainState, hlast]
  unfold WorkState.prepare
  refine Returns.bind (Q := (· = (chainNext s t single b remaining previous cs,
    ⟨some (s.page b), none, decide (single = 1) && (s.page b).isSealed⟩))) ?_ ?_
  · unfold WorkState.preparePostings
    refine (loadPosting_returns h.pages htb).bind ?_
    rintro _ rfl
    refine Returns.ofExcept_bind (postingRefs_eq h.pages htb) ?_
    refine Returns.ofExcept_bind (checkOrder_eq ho) ?_
    refine Returns.ofExcept_bind (postingNext_eq hl rfl (h.pages.block b) hrem) ?_
    exact Returns.ofExcept_bind hnext (Returns.pure rfl)
  · rintro _ rfl
    exact Returns.pure rfl

theorem streams_chain {single remaining : ℕ} {previous : OwnerRef} (h : WF strong s m)
    (hlim : s.blocks < noBlock) (he : s.entry t = some e)
    (hl : Linked s.next noBlock b (b :: cs))
    (htag : ∀ c ∈ b :: cs, (s.body c).postingTag = some t) (hrem : cs.length < remaining)
    (hle : remaining ≤ s.blocks) (hone : single ≤ 1) (hprev : s.Known previous)
    (ho : (previous :: chainRefs s (b :: cs)).Pairwise OwnerRef.Before) :
    Streams s (chainState s t single b cs remaining previous)
      ((b :: cs).flatMap (pageCandidates s (decide (single = 1)))) := by
  induction cs generalizing b remaining previous with
  | nil =>
    obtain ⟨hob, -⟩ := @before_after_page previous _ [] ho
    have hw := chainState_words h hlim he htag (by omega) hle hone hprev
    have hturn := WorkState.turn_eq hw.fromWords
      (prepare_chain h hlim he hl htag hrem hle hone hprev hob)
    exact Streams.next hturn (forEach_postings h.pages (htag b List.mem_cons_self)) Streams.done
  | cons c cs ih =>
    obtain ⟨hob, hocs⟩ := @before_after_page previous _ (chainRefs s (c :: cs)) ho
    have hw := chainState_words h hlim he htag (by omega) hle hone hprev
    have hturn := WorkState.turn_eq hw.fromWords
      (prepare_chain h hlim he hl htag hrem hle hone hprev hob)
    simp only [List.length_cons] at hrem
    have hrest := ih hl.tail (fun d hd => htag d (List.mem_cons_of_mem _ hd))
      (by omega : cs.length < remaining - 1) (by omega)
      (known_getLastD hprev fun r hr => h.refs.posting b r hr) hocs
    exact Streams.next hturn (forEach_postings h.pages (htag b List.mem_cons_self)) hrest

/-- The first position of the postings of an entry. -/
def entryState (s : Store) (t : TermRef) (e : Entry) (single : ℕ) : WorkState :=
  ⟨1, e.head, e.tail, s.blocks, t, e.first, s.blocks, single⟩

/-- The candidates of an entry: the owners it holds itself, then those of its chain. -/
def entryCandidates (s : Store) (certified : Bool) (e : Entry) (bs : List ℕ) :
    List CountCandidate :=
  (e.first :: e.inlineRefs).map (⟨·, false⟩) ++ bs.flatMap (pageCandidates s certified)

theorem owner_pageCandidates {certified : Bool} :
    (pageCandidates s certified b).map (·.owner) = (s.body b).postingRefs := by
  simp [pageCandidates, List.map_map, Function.comp_def]

theorem owner_entryCandidates {certified : Bool} :
    (entryCandidates s certified e bs).map (·.owner) = entryRefs s e bs := by
  simp only [entryCandidates, entryRefs, chainRefs, List.map_append, List.map_map,
    List.map_flatMap, owner_pageCandidates, List.map_cons, List.cons_append]
  simp [Function.comp_def]

/-- The block of a dictionary page stands for the inline second of its entry. -/
theorem loadPosting_inline {second : OwnerRef} (h : WF strong s m) (he : s.entry t = some e)
    (hs : (e.toTerm t).inlineSecond = some second) :
    Returns s (loadPosting t.page t) (· = postingsPage t.page t [second]) := by
  obtain ⟨p, hok⟩ := entry_ok h.pages he
  obtain ⟨-, -, hsec, hh, htl⟩ := inlineSecond_eq_some hok hs
  obtain ⟨o, hown⟩ := h.refs.second t e second he hsec
  have hk := Store.entry_kind he
  have ht := termRef_ok h he
  refine (loadAny_returns h.pages (h.pages.lt_blocks (hk.trans_ne (by decide)))).bind ?_
  rintro _ rfl
  rw [if_pos (show (s.page t.page).kind = .dictionary from hk)]
  refine Returns.ofExcept_bind (term_eq h.pages he) ?_
  simp only [hs, Option.some_or]
  refine Returns.ensure_bind ?_ ?_
  · rintro ⟨-, hne⟩
    exact hne.elim (fun hne => hne hh) fun hne => hne htl
  refine Returns.ofExcept_bind (postings_new ht ht.1) ?_
  refine Returns.ofExcept_bind (postingsPage_appendPosting (hown.valid h.pages) (Nat.zero_le _)) ?_
  exact Returns.pure rfl

theorem prepare_inline {single : ℕ} {second : OwnerRef} (h : WF strong s m)
    (he : s.entry t = some e) (hs : (e.toTerm t).inlineSecond = some second)
    (ho : e.first.Before second) :
    Returns s (chainState s t single t.page [] s.blocks e.first).prepare
      (· = some (.done, ⟨some (postingsPage t.page t [second]), none, false⟩)) := by
  have hpos := h.pages.pos
  obtain ⟨n, hn⟩ : ∃ n, s.blocks = n + 1 := ⟨s.blocks - 1, by omega⟩
  unfold WorkState.prepare
  refine Returns.bind (Q := (· = (WorkState.done,
    ⟨some (postingsPage t.page t [second]), none, false⟩))) ?_ ?_
  · unfold WorkState.preparePostings
    refine (loadPosting_inline h he hs).bind ?_
    rintro _ rfl
    refine Returns.ofExcept_bind (a := [second]) rfl ?_
    refine Returns.ofExcept_bind (checkOrder_eq (List.pairwise_pair.2 ho)) ?_
    refine Returns.ofExcept_bind (a := (none, n)) ?_ ?_
    · simp only [chainState, hn]
      exact if_pos rfl
    · refine Returns.ofExcept_bind (a := WorkState.done) rfl (Returns.pure ?_)
      simp [Page.isSealed, postingsPage, Page.kind, Body.kind]
  · rintro _ rfl
    exact Returns.pure rfl

theorem entryState_words {single : ℕ} (h : WF strong s m) (hlim : s.blocks < noBlock)
    (he : s.entry t = some e) (hc : EntryPlace s t e bs) (hone : single ≤ 1) :
    (entryState s t e single).ChainWords where
  kind := .inl rfl
  limit := ⟨h.pages.pos, hlim⟩
  remaining := ⟨h.pages.pos, Nat.le_refl _⟩
  single := hone
  places := by
    have hpage := (h.pages.term_words he).1
    cases hc with
    | inline second hs hr hh ht => exact .inl (by rw [entryState, hh, ht]; exact ⟨hpage, hpage⟩)
    | single hs hr hh ht => exact .inr ⟨rfl, hh, ht⟩
    | chain b cs hs hr hh ht hl htag =>
      rw [entryState, hh, ht]
      exact .inl ⟨h.pages.tagged_inRange (htag b List.mem_cons_self),
        h.pages.tagged_inRange (htag _ (lastD_mem noBlock (List.cons_ne_nil b cs)))⟩
  term := h.pages.term_words he
  previous := h.pages.owner_words (h.refs.first t e he)

/-- The batches of an entry: its first owner, then page after page. -/
theorem streams_entry {single : ℕ} (h : WF strong s m) (hlim : s.blocks < noBlock)
    (he : s.entry t = some e) (hc : EntryChain s t e bs) (hone : single ≤ 1) :
    Streams s (entryState s t e single) (entryCandidates s (decide (single = 1)) e bs) := by
  have hplace := entryPlace h.pages he hc
  have hw := (entryState_words h hlim he hplace hone).fromWords
  have hfirst := h.refs.first t e he
  have hsorted := (TermRefs.of_entry he hc).sorted h
  have hinline : WorkBatch.forEach ⟨none, some e.first, false⟩ s.layout = .ok [⟨e.first, false⟩] :=
    rfl
  -- the first turn hands out the first owner and moves on to the pages
  have hturn : ∀ w', (if e.head = noBlock then WorkState.done
      else { entryState s t e single with kind := 2 }) = w' →
      (entryState s t e single).turn s = .ok (some (w', ⟨none, some e.first, false⟩)) := by
    rintro w' rfl
    exact WorkState.turn_eq hw (Returns.pure rfl)
  cases hplace with
  | inline second hs hr hh ht =>
    have hpage := (h.pages.term_words he).1
    have hne : e.head ≠ noBlock := by rw [hh]; omega
    have hbefore : e.first.Before second := by
      have : entryRefs s e [] = [e.first, second] := by rw [entryRefs, hr]; rfl
      rw [this] at hsorted
      exact List.pairwise_pair.1 hsorted
    have hstate : { entryState s t e single with kind := 2 } =
        chainState s t single t.page [] s.blocks e.first := by
      simp only [entryState, chainState, hh, ht]
      rfl
    have hwords : (chainState s t single t.page [] s.blocks e.first).ChainWords :=
      ⟨.inr rfl, ⟨h.pages.pos, hlim⟩, ⟨h.pages.pos, Nat.le_refl _⟩, hone, .inl ⟨hpage, hpage⟩,
        h.pages.term_words he, h.pages.owner_words hfirst⟩
    have hsecond : Streams s (chainState s t single t.page [] s.blocks e.first)
        [⟨second, false⟩] :=
      Streams.next (WorkState.turn_eq hwords.fromWords (prepare_inline h he hs hbefore))
        (by simp [WorkBatch.forEach, postingsPage, Page.kind, Body.kind]; rfl) Streams.done
    rw [entryCandidates, hr]
    change Streams s _ ([⟨e.first, false⟩] ++ [⟨second, false⟩])
    refine Streams.next (hturn _ (if_neg hne)) hinline ?_
    rw [hstate]
    exact hsecond
  | single hs hr hh ht =>
    rw [entryCandidates, hr]
    exact Streams.next (hturn _ (if_pos hh)) hinline Streams.done
  | chain b cs hs hr hh ht hl htag hlen =>
    have hne : e.head ≠ noBlock := by rw [hh]; exact hl.2.1
    have hstate : { entryState s t e single with kind := 2 } =
        chainState s t single b cs s.blocks e.first := by
      simp only [entryState, chainState, hh, ht]
    rw [entryRefs, hr, List.nil_append] at hsorted
    rw [entryCandidates, hr]
    refine Streams.next (hturn _ (if_neg hne)) hinline ?_
    rw [hstate]
    exact streams_chain h hlim he hl htag hlen (Nat.le_refl _) hone hfirst hsorted

/-! ### Counting the postings of a term -/

theorem countChainFrom_returns {tail remaining : ℕ} {previous : OwnerRef} (h : WF strong s m)
    (hl : Linked s.next noBlock b (b :: cs)) (htail : tail = lastD noBlock (b :: cs))
    (htag : ∀ c ∈ b :: cs, (s.body c).postingTag = some t) (hrem : cs.length < remaining)
    (ho : (previous :: chainRefs s (b :: cs)).Pairwise OwnerRef.Before) :
    Returns s (countChainFrom t tail remaining b previous)
      (· = (b :: cs).flatMap (pageCandidates s true)) := by
  induction remaining generalizing b cs previous with
  | zero => exact absurd hrem (Nat.not_lt_zero _)
  | succ remaining ih =>
    have htb := htag b List.mem_cons_self
    obtain ⟨hob, hocs⟩ := @before_after_page previous _ (chainRefs s cs) ho
    unfold countChainFrom
    refine (loadPosting_returns h.pages htb).bind ?_
    rintro _ rfl
    refine Returns.ofExcept_bind (postingRefs_eq h.pages htb) ?_
    refine Returns.ofExcept_bind (checkOrder_eq hob) ?_
    refine Returns.ofExcept_bind (postingNext_eq hl htail (h.pages.block b) hrem) ?_
    have hbatch : (s.body b).postingRefs.map
        (fun o => (⟨o, (s.page b).isSealed⟩ : CountCandidate)) =
        pageCandidates s true b := rfl
    cases cs with
    | nil =>
      exact Returns.pure
        (by rw [hbatch, List.flatMap_cons, List.flatMap_nil, List.append_nil])
    | cons c cs =>
      refine (ih hl.tail ?_ (fun d hd => htag d (List.mem_cons_of_mem _ hd)) ?_ hocs).bind ?_
      · rw [htail, lastD_cons_cons]
      · simp only [List.length_cons] at hrem; omega
      · rintro _ rfl
        exact Returns.pure (by rw [hbatch]; rfl)

/-- The candidates of an entry, as `scan_count` streams them. -/
theorem scanCount_entry {q : Query} (h : WF strong s m) (he : s.entry t = some e)
    (hc : EntryChain s t e bs) (hq : q.rootKind = .term e.term) :
    Returns s (scanCount q) (· = entryCandidates s true e bs) := by
  have hsorted := (TermRefs.of_entry he hc).sorted h
  have hplace := entryPlace h.pages he hc
  obtain ⟨ds, hd⟩ := h.dict
  simp only [scanCount, hq]
  refine h.loadInfo.bind ?_
  rintro _ rfl
  refine (findTerm_returns h e.term).bind ?_
  rintro (_ | ⟨p, t'⟩) hfound
  · exact absurd rfl (hfound t e he)
  obtain ⟨rfl, e', he', hx⟩ := hfound
  obtain rfl := hd.unique t t' e e' he he' hx.symm
  obtain rfl : e = e' := Option.some.inj (he.symm.trans he')
  refine Returns.ofExcept_bind (term_eq h.pages he) ?_
  cases hplace with
  | inline second hs hr =>
    simp only [hs]
    exact Returns.pure (by rw [entryCandidates, hr]; rfl)
  | single hs hr hh =>
    have hh' : (e.toTerm t).head = noBlock := hh
    simp only [hs, if_pos hh']
    exact Returns.pure (by rw [entryCandidates, hr]; rfl)
  | chain b cs hs hr hh ht hl htag hlen =>
    have hh' : (e.toTerm t).head = b := hh
    rw [entryRefs, hr, List.nil_append] at hsorted
    simp only [hs, hh', if_neg hl.2.1]
    refine blocks_returns.bind ?_
    rintro _ rfl
    refine (countChainFrom_returns h hl ht htag hlen hsorted).bind ?_
    rintro _ rfl
    exact Returns.pure (by rw [entryCandidates, hr]; rfl)

theorem scanCount_absent {q : Query} {x : Text} (h : WF strong s m)
    (hx : ∀ t e, s.entry t = some e → e.term ≠ x) (hq : q.rootKind = .term x) :
    Returns s (scanCount q) (· = []) := by
  simp only [scanCount, hq]
  refine h.loadInfo.bind ?_
  rintro _ rfl
  refine (findTerm_returns h x).bind ?_
  rintro (_ | ⟨p, t⟩) hfound
  · exact Returns.pure rfl
  · obtain ⟨-, e, he, hxe⟩ := hfound
    exact absurd hxe (hx t e he)

/-! ### The owner chain -/

/-- The live owners of a page, none with the sealed flag. -/
def ownerCandidates (s : Store) (b : ℕ) : List CountCandidate :=
  ((slotRefs b 0 (s.body b).slots).filter fun r => (s.rootOf r).isSome).map (⟨·, false⟩)

theorem liveOwners_eq (hp : PagesOk s) (pre : List OwnerSlot) {slots : List OwnerSlot}
    (hs : (s.body b).slots = pre ++ slots) :
    liveOwners (s.page b) s.layout pre.length slots =
      .ok (((slotRefs b pre.length slots).filter fun r => (s.rootOf r).isSome).map
        (⟨·, false⟩)) := by
  induction slots generalizing pre with
  | nil => rfl
  | cons o slots ih =>
    have hown : s.Owns ⟨b, pre.length, o.incarnation⟩ o :=
      ⟨by simp only; rw [hs]; simp, rfl⟩
    have hrest := ih (pre ++ [o]) (by rw [hs, List.append_assoc]; rfl)
    rw [List.length_append, List.length_singleton] at hrest
    have howner := owner_eq hp hown
    simp only at howner
    rw [liveOwners, howner, slotRefs, List.filter_cons, Store.rootOf_eq hown]
    change (do let more ← liveOwners (s.page b) s.layout (pre.length + 1) slots
               Except.ok (if o.live = true ∧ o.publication = Publication.published then
                 (⟨⟨b, pre.length, o.incarnation⟩, false⟩ : CountCandidate) :: more else more)) = _
    rw [hrest]
    change Except.ok _ = _
    unfold OwnerSlot.liveRoot
    by_cases hl : o.live = true ∧ o.publication = .published
    · rw [if_pos hl, if_pos hl]; rfl
    · rw [if_neg hl, if_neg hl]; rfl

/-- A position in the owner chain. -/
def ownersState (s : Store) (tail b remaining : ℕ) : WorkState :=
  ⟨3, b, tail, remaining, ⟨0, 0⟩, ⟨0, 0, 0⟩, s.blocks, 0⟩

theorem ownersState_words {tail remaining : ℕ} (hp : PagesOk s) (hlim : s.blocks < noBlock)
    (hk : (s.body b).kind = .owners) (hkt : (s.body tail).kind = .owners) (hle : b ≤ tail)
    (hrem : 0 < remaining ∧ remaining ≤ s.blocks) :
    (ownersState s tail b remaining).OwnerWords where
  kind := rfl
  limit := ⟨hp.pos, hlim⟩
  remaining := hrem
  places := ⟨hp.inRange (hk.trans_ne (by decide)) (hk.trans_ne (by decide)),
    hp.inRange (hkt.trans_ne (by decide)) (hkt.trans_ne (by decide))⟩
  ordered := hle
  unused := ⟨rfl, rfl, rfl⟩

/-- The last block of an ascending chain is the largest. -/
theorem le_lastD {cs : List ℕ} (h : cs.Pairwise (· < ·)) (hb : b ∈ cs) : b ≤ lastD noBlock cs := by
  have hne : cs ≠ [] := List.ne_nil_of_mem hb
  have heq := eq_append_lastD noBlock hne
  rw [heq] at hb h
  rcases List.mem_append.1 hb with hb | hb
  · exact Nat.le_of_lt ((List.pairwise_append.1 h).2.2 b hb _ (List.mem_singleton_self _))
  · exact Nat.le_of_eq (List.mem_singleton.1 hb)

/-- The position after the first page. -/
def ownersNext (s : Store) (tail remaining : ℕ) : List ℕ → WorkState
  | [] => .done
  | c :: _ => ownersState s tail c (remaining - 1)

/-- The rest of the owner chain from a position on. -/
structure OwnersFrom (s : Store) (tail remaining b : ℕ) (cs : List ℕ) : Prop where
  linked : Linked s.next noBlock b (b :: cs)
  ascending : (b :: cs).Pairwise (· < ·)
  tail_eq : tail = lastD noBlock (b :: cs)
  kind : ∀ c ∈ b :: cs, (s.body c).kind = .owners
  remaining : cs.length < remaining ∧ remaining ≤ s.blocks

theorem OwnersFrom.tail {tail remaining c : ℕ} (h : OwnersFrom s tail remaining b (c :: cs)) :
    OwnersFrom s tail (remaining - 1) c cs where
  linked := h.linked.tail
  ascending := (List.pairwise_cons.1 h.ascending).2
  tail_eq := h.tail_eq.trans lastD_cons_cons
  kind d hd := h.kind d (List.mem_cons_of_mem _ hd)
  remaining := by
    have := h.remaining
    simp only [List.length_cons] at this
    omega

theorem OwnersFrom.words {tail remaining : ℕ} (hp : PagesOk s) (hlim : s.blocks < noBlock)
    (h : OwnersFrom s tail remaining b cs) : (ownersState s tail b remaining).OwnerWords := by
  have hkt : (s.body tail).kind = .owners := by
    rw [h.tail_eq]
    exact h.kind _ (lastD_mem noBlock (List.cons_ne_nil b cs))
  have hle : b ≤ tail := h.tail_eq ▸ le_lastD h.ascending List.mem_cons_self
  have hrem := h.remaining
  exact ownersState_words hp hlim (h.kind b List.mem_cons_self) hkt hle (by omega)

theorem prepare_owners {tail remaining : ℕ} (hp : PagesOk s) (hlim : s.blocks < noBlock)
    (h : OwnersFrom s tail remaining b cs) :
    Returns s (ownersState s tail b remaining).prepare
      (· = some (ownersNext s tail remaining cs, ⟨some (s.page b), none, false⟩)) := by
  have hnext : (ownersState s tail b remaining).successor cs.head? (remaining - 1) =
      .ok (ownersNext s tail remaining cs) := by
    cases cs with
    | nil => rfl
    | cons c cs => exact (h.tail.words hp hlim).fromWords
  unfold WorkState.prepare
  refine Returns.bind (Q := (· = (ownersNext s tail remaining cs,
    ⟨some (s.page b), none, false⟩))) ?_ ?_
  · unfold WorkState.prepareOwners
    refine (load_returns hp (h.kind b List.mem_cons_self) (by simp)).bind ?_
    rintro _ rfl
    refine Returns.ofExcept_bind (@following_eq s b b tail [] cs h.linked h.ascending h.tail_eq
      (hp.block b)) ?_
    refine Returns.ensure_bind (show remaining ≠ 0 from ?_) ?_
    · have := h.remaining
      omega
    · exact Returns.ofExcept_bind hnext (Returns.pure rfl)
  · rintro _ rfl
    exact Returns.pure rfl

theorem forEach_owners (hp : PagesOk s) (hk : (s.body b).kind = .owners) :
    WorkBatch.forEach ⟨some (s.page b), none, false⟩ s.layout = .ok (ownerCandidates s b) := by
  have hk' : (s.page b).kind = .owners := hk
  simp only [WorkBatch.forEach, if_pos hk']
  rw [slots_eq hk]
  exact liveOwners_eq hp [] rfl

theorem streams_owners {tail remaining : ℕ} (hp : PagesOk s) (hlim : s.blocks < noBlock)
    (h : OwnersFrom s tail remaining b cs) :
    Streams s (ownersState s tail b remaining) ((b :: cs).flatMap (ownerCandidates s)) := by
  induction cs generalizing b remaining with
  | nil =>
    have hturn := WorkState.turn_eq (h.words hp hlim).fromWords (prepare_owners hp hlim h)
    exact Streams.next hturn (forEach_owners hp (h.kind b List.mem_cons_self)) Streams.done
  | cons c cs ih =>
    have hturn := WorkState.turn_eq (h.words hp hlim).fromWords (prepare_owners hp hlim h)
    exact Streams.next hturn (forEach_owners hp (h.kind b List.mem_cons_self)) (ih h.tail)

theorem owner_ownerCandidates {bs : List ℕ} : (bs.flatMap (ownerCandidates s)).map (·.owner) =
    (ownerRefs s bs).filter fun r => (s.rootOf r).isSome := by
  simp only [ownerRefs, List.map_flatMap, List.filter_flatMap, ownerCandidates, List.map_map]
  simp [Function.comp_def]

/-! ### Captured scans -/

/-- The candidates of a captured scan: no owner twice, every accepted document, and those of
`scan_count` for a single-term query. -/
structure CountsFor (s : Store) (V : View) (q : Query) (cs : List CountCandidate) : Prop where
  nodup : (cs.map (·.owner)).Nodup
  complete : ∀ v ∈ V.docs, oracle v.document q = true → v.owner ∈ cs.map (·.owner)
  count : q.isSingleTerm = true → (scanCount q).eval s = .ok cs

theorem isSingleTerm_iff {q : Query} : q.isSingleTerm = true ↔ ∃ x, q.rootKind = .term x := by
  unfold Query.isSingleTerm
  cases q.rootKind <;> simp

variable {z : Sizes} {q : Query} {memoryBytes : ℕ}

/-- The empty stream is right where no document is accepted. -/
theorem countsFor_nil (hno : ∀ v ∈ V.docs, oracle v.document q ≠ true)
    (hq : q.isSingleTerm = true → (scanCount q).eval s = .ok []) : CountsFor s V q [] where
  nodup := List.nodup_nil
  complete v hm ho := absurd ho (hno v hm)
  count := hq

theorem countsFor_entry {certified : Bool} (h : WF strong s m) (hv : Shows s V)
    (he : s.entry t = some e) (hc : EntryChain s t e bs)
    (hreach : ∀ v ∈ V.docs, oracle v.document q = true → e.term ∈ v.document)
    (hq : q.isSingleTerm = true → certified = true ∧ q.rootKind = .term e.term) :
    CountsFor s V q (entryCandidates s certified e bs) where
  nodup := by
    rw [owner_entryCandidates]
    exact ((TermRefs.of_entry he hc).sorted h).imp fun hab => hab.ne
  complete v hm ho := by
    rw [owner_entryCandidates, (TermRefs.of_entry he hc).mem_iff h, hv.posted v hm]
    exact hreach v hm ho
  count hs := by
    obtain ⟨rfl, hk⟩ := hq hs
    obtain ⟨a, ha, rfl⟩ := (scanCount_entry h he hc hk).eval
    exact ha

theorem countsFor_owners {head tail incarnation : ℕ} (hv : Shows s V)
    (ho : OwnersOk s head tail incarnation bs) (hq : q.isSingleTerm ≠ true) :
    CountsFor s V q (bs.flatMap (ownerCandidates s)) where
  nodup := by
    rw [owner_ownerCandidates]
    exact ((ownerRefs_sorted ho).filter _).imp fun hab => hab.ne
  complete v hm _ := by
    have hroot := hv.rootOf_owner hm
    obtain ⟨o, hown, -⟩ := Store.rootOf_eq_some hroot
    rw [owner_ownerCandidates, List.mem_filter, hroot]
    exact ⟨mem_ownerRefs.2 ⟨(ho.mem_iff _).2 hown.kind, o, hown⟩, rfl⟩
  count hs := absurd hs hq

/-- Capturing the owner chain. -/
theorem captureOwners_yields (h : WF strong s m) (hv : Shows s V) (hq : q.isSingleTerm ≠ true) :
    Yields s (do
      let (head, tail) ← Obs.ofExcept (metaPage m).ownerChain
      if head = noBlock then return .done
      else Obs.ofExcept (WorkState.fromWords {
        kind := 3, block := head, tail, remaining := s.blocks, term := ⟨0, 0⟩
        previous := ⟨0, 0, 0⟩, limit := s.blocks, single := 0 }))
      fun w => ∃ cs, Streams s w cs ∧ CountsFor s V q cs := by
  obtain ⟨bs, ho⟩ := h.owners
  have hcounts := countsFor_owners (q := q) hv ho hq
  refine Returns.bind_yields (Returns.ofExcept (Q := (· = (m.ownerHead, m.ownerTail)))
    (metaPage_ownerChain h.metaOk) rfl) ?_
  rintro _ rfl
  cases bs with
  | nil =>
    have hl : m.ownerHead = noBlock := ho.linked
    simp only [if_pos hl]
    exact (Returns.pure ⟨[], Streams.done, hcounts⟩).yields
  | cons b cs =>
    have hb : m.ownerHead = b := ho.linked.1
    have hne : b ≠ noBlock := ho.linked.2.1
    simp only [hb, if_neg hne]
    refine Yields.ofExcept fun w hw => ?_
    obtain ⟨rfl, hlim⟩ := WorkState.fromWords_ok hw (by decide : (3 : ℕ) ≠ 0)
    have hlen : cs.length < s.blocks :=
      h.pages.length_le ho.linked.nodup fun c hc => by rw [(ho.mem_iff c).1 hc]; decide
    have hfrom : OwnersFrom s m.ownerTail s.blocks b cs :=
      ⟨⟨rfl, ho.linked.2⟩, ho.ascending, ho.tail_eq, fun c hc => (ho.mem_iff c).1 hc, hlen,
        Nat.le_refl _⟩
    exact ⟨_, streams_owners h.pages hlim hfrom, hcounts⟩

/-- Capturing the postings of one term. -/
theorem captureTerm_yields {x : Text} (h : WF strong s m) (hv : Shows s V)
    (hreach : ∀ v ∈ V.docs, oracle v.document q = true → x ∈ v.document)
    (hq : q.isSingleTerm = true → q.rootKind = .term x) :
    Yields s (do
      match ← findTerm (metaPage m) x with
      | none => return .done
      | some (dictionary, reference) =>
        let entry ← Obs.ofExcept (dictionary.term reference)
        Obs.ofExcept (WorkState.fromWords {
          kind := 1, block := entry.head, tail := entry.tail, remaining := s.blocks
          term := reference, previous := entry.first, limit := s.blocks
          single := if q.isSingleTerm then 1 else 0 }))
      fun w => ∃ cs, Streams s w cs ∧ CountsFor s V q cs := by
  refine (findTerm_returns h x).bind_yields ?_
  rintro (_ | ⟨p, t⟩) hfound
  · have hR : TermRefs s x [] := .inr ⟨hfound, rfl⟩
    refine (Returns.pure ⟨[], Streams.done, countsFor_nil (fun v hm ho => ?_) fun hs => ?_⟩).yields
    · exact absurd ((hR.mem_iff h).2 ((hv.posted v hm x).2 (hreach v hm ho))) List.not_mem_nil
    · obtain ⟨a, ha, rfl⟩ := (scanCount_absent h hfound (hq hs)).eval
      exact ha
  · obtain ⟨rfl, e, he, rfl⟩ := hfound
    obtain ⟨bs, hc, -⟩ := h.chains.chain t e he
    refine Returns.bind_yields (Returns.ofExcept (Q := (· = e.toTerm t))
      (term_eq h.pages he) rfl) ?_
    rintro _ rfl
    refine Yields.ofExcept fun w hw => ?_
    obtain ⟨rfl, hlim⟩ := WorkState.fromWords_ok hw (by decide : (1 : ℕ) ≠ 0)
    have hone : (if q.isSingleTerm then 1 else 0) ≤ 1 := by split_ifs <;> decide
    refine ⟨_, streams_entry h hlim he hc hone, countsFor_entry h hv he hc hreach fun hs => ?_⟩
    rw [if_pos hs]
    exact ⟨rfl, hq hs⟩

/-- Whatever `capture` returns on a store streams the right candidates. -/
theorem capture_yields (h : WF strong s m) (hv : Shows s V) :
    Yields s (WorkState.capture z q memoryBytes) fun w =>
      ∃ cs, Streams s w cs ∧ CountsFor s V q cs := by
  unfold WorkState.capture
  refine Yields.ofExcept_bind fun plan hplan => ?_
  have hreach : ∀ v ∈ V.docs, oracle v.document q = true → v ∈ plan.docs V.docs :=
    fun v hm ho => CandidatePlan.build_reaches hplan hm ho
  have hsingle : ∀ x, q.rootKind = .term x → plan = .terms [x] := fun x hx =>
    CandidatePlan.build_singleTerm hx hplan
  -- every cover but one term leads to the owner chain
  have howners : ∀ plan', plan = plan' → (∀ x, plan' ≠ .terms [x]) → q.isSingleTerm ≠ true := by
    rintro _ rfl hne hs
    obtain ⟨x, hx⟩ := isSingleTerm_iff.1 hs
    exact hne x (hsingle x hx)
  cases plan with
  | empty =>
    refine (Returns.pure ⟨[], Streams.done, countsFor_nil (fun v hm ho => ?_) fun hs => ?_⟩).yields
    · exact absurd (hreach v hm ho) List.not_mem_nil
    · exact absurd hs (howners _ rfl fun x hx => nomatch hx)
  | universal =>
    refine h.loadInfo.bind_yields ?_
    rintro _ rfl
    refine blocks_returns.bind_yields ?_
    rintro _ rfl
    exact captureOwners_yields h hv (howners _ rfl fun x hx => nomatch hx)
  | terms ts =>
    refine h.loadInfo.bind_yields ?_
    rintro _ rfl
    refine blocks_returns.bind_yields ?_
    rintro _ rfl
    match ts with
    | [] => exact captureOwners_yields h hv (howners _ rfl fun x hx => nomatch hx)
    | _ :: _ :: _ => exact captureOwners_yields h hv (howners _ rfl fun x hx => nomatch hx)
    | [x] =>
      refine captureTerm_yields h hv (fun v hm ho => ?_) fun hs => ?_
      · have := hreach v hm ho
        simp only [CandidatePlan.docs, coveredDocs, List.flatMap_cons, List.flatMap_nil,
          List.append_nil, List.mem_filter, decide_eq_true_iff] at this
        exact this.2
      · obtain ⟨y, hy⟩ := isSingleTerm_iff.1 hs
        have := hsingle y hy
        simp only [CandidatePlan.terms.injEq, List.cons.injEq, and_true] at this
        rw [hy, this]

end

end PinCore
