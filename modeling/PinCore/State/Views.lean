import PinCore.Lib.Chain
import PinCore.Store

/-!
# Views of a store

What the pages of a store say when read as one structure: which owner slots exist, which
dictionary entry lies at a place, and which owner references the posting chain of an entry
lists.
-/

namespace PinCore

/-- The stored image of the metapage. -/
def metaPage (m : MetaBody) : Page := ⟨0, noBlock, .info m, false⟩

/-! ### Owner slots -/

/-- The slots of an owner page; other pages have none. -/
def Body.slots : Body → List OwnerSlot
  | owners slots => slots
  | _ => []

/-- The root of a slot, if it is live and published. -/
def OwnerSlot.liveRoot (o : OwnerSlot) : Option RootTid :=
  if o.live = true ∧ o.publication = .published then some o.root else none

/-- The slot that `r` names holds the record `o` of the same incarnation. -/
def Store.Owns (s : Store) (r : OwnerRef) (o : OwnerSlot) : Prop :=
  (s.body r.page).slots[r.slot]? = some o ∧ o.incarnation = r.incarnation

/-- The reference names an existing owner. -/
def Store.Known (s : Store) (r : OwnerRef) : Prop := ∃ o, s.Owns r o

/-- The root of a live published owner. -/
def Store.rootOf (s : Store) (r : OwnerRef) : Option RootTid :=
  match (s.body r.page).slots[r.slot]? with
  | some o => if o.incarnation = r.incarnation then o.liveRoot else none
  | none => none

namespace Store

variable {s s' : Store} {r : OwnerRef} {o o' : OwnerSlot}

theorem Owns.unique (h : s.Owns r o) (h' : s.Owns r o') : o = o' :=
  Option.some.inj (h.1.symm.trans h'.1)

theorem Owns.kind (h : s.Owns r o) : (s.body r.page).kind = .owners := by
  obtain ⟨h, -⟩ := h
  revert h
  cases s.body r.page <;> simp [Body.slots, Body.kind]

theorem Owns.mem (h : s.Owns r o) : o ∈ (s.body r.page).slots := List.mem_of_getElem? h.1

theorem Owns.lt (h : s.Owns r o) : r.slot < (s.body r.page).slots.length := by
  by_contra hn
  have := h.1
  rw [List.getElem?_eq_none (Nat.not_lt.1 hn)] at this
  cases this

theorem rootOf_eq (h : s.Owns r o) : s.rootOf r = o.liveRoot := by
  rw [rootOf, h.1]
  exact if_pos h.2

theorem rootOf_eq_some {x : RootTid} (h : s.rootOf r = some x) :
    ∃ o, s.Owns r o ∧ o.liveRoot = some x := by
  revert h
  unfold rootOf
  split
  · next o ho =>
    split_ifs with hi
    · exact fun h => ⟨o, ⟨ho, hi⟩, h⟩
    · exact fun h => nomatch h
  · exact fun h => nomatch h

end Store

/-! ### Dictionary entries -/

/-- The entries of a dictionary page with their byte offsets. -/
def located (packed : Bool) : ℕ → List Entry → List (ℕ × Entry)
  | _, [] => []
  | offset, e :: es => (offset, e) :: located packed (offset + e.size packed) es

/-- The entry at a byte offset. -/
def findEntry (packed : Bool) (target : ℕ) : ℕ → List Entry → Option Entry
  | _, [] => none
  | offset, e :: es =>
    if offset = target then some e else findEntry packed target (offset + e.size packed) es

/-- The dictionary entry at a place. -/
def Store.entry (s : Store) (t : TermRef) : Option Entry :=
  match s.body t.page with
  | .dictionary packed es => findEntry packed t.offset pageHeader es
  | _ => none

/-- The entry as the iterator returns it. -/
def Entry.toTerm (t : TermRef) (e : Entry) : Term where
  reference := t
  term := e.term
  first := e.first
  head := e.head
  tail := e.tail
  inlineSecond := if e.inline = 1 then e.second else none
  shadowSecond := if e.inline = 2 then e.second else none

section

variable {packed : Bool} {offset target page : ℕ} {e e' : Entry} {es : List Entry}

theorem Entry.size_pos (packed : Bool) (e : Entry) : 0 < e.size packed := by
  simp only [Entry.size, dictionaryEntry]; omega

theorem findEntry_mem (h : findEntry packed target offset es = some e) : e ∈ es := by
  induction es generalizing offset with
  | nil => cases h
  | cons a as ih =>
    unfold findEntry at h
    split_ifs at h with ho
    · exact Option.some.inj h ▸ List.mem_cons_self
    · exact List.mem_cons_of_mem _ (ih h)

theorem findEntry_range (h : findEntry packed target offset es = some e) :
    offset ≤ target ∧ target < offset + (es.map (Entry.size packed)).sum := by
  induction es generalizing offset with
  | nil => cases h
  | cons a as ih =>
    have := Entry.size_pos packed a
    unfold findEntry at h
    rw [List.map_cons, List.sum_cons]
    split_ifs at h with ho
    · omega
    · have := ih h
      omega

theorem findEntry_append (e' : Entry) :
    findEntry packed target offset (es ++ [e']) =
      if target = offset + (es.map (Entry.size packed)).sum then some e'
      else findEntry packed target offset es := by
  induction es generalizing offset with
  | nil =>
    simp only [List.nil_append, findEntry, List.map_nil, List.sum_nil, Nat.add_zero]
    split_ifs <;> first | rfl | omega
  | cons a as ih =>
    have := Entry.size_pos packed a
    simp only [List.cons_append, findEntry, List.map_cons, List.sum_cons, ih]
    split_ifs <;> first | rfl | omega

theorem mem_located {p : ℕ × Entry} :
    p ∈ located packed offset es ↔ findEntry packed p.1 offset es = some p.2 := by
  obtain ⟨target, e⟩ := p
  induction es generalizing offset with
  | nil => simp [located, findEntry]
  | cons a as ih =>
    simp only [located, findEntry, List.mem_cons, Prod.mk.injEq, ih]
    have := Entry.size_pos packed a
    split_ifs with ho
    · subst ho
      refine ⟨?_, fun h => .inl ⟨rfl, (Option.some.inj h).symm⟩⟩
      rintro (⟨-, rfl⟩ | h)
      · rfl
      · have := (findEntry_range h).1
        omega
    · refine ⟨?_, .inr⟩
      rintro (⟨rfl, -⟩ | h)
      · exact absurd rfl ho
      · exact h

theorem located_ascending : (located packed offset es).Pairwise fun a b => a.1 < b.1 := by
  induction es generalizing offset with
  | nil => exact List.Pairwise.nil
  | cons a as ih =>
    refine List.pairwise_cons.2 ⟨fun p hp => ?_, ih⟩
    have := (findEntry_range (mem_located.1 hp)).1
    have := Entry.size_pos packed a
    simp only
    omega

theorem exists_findEntry (h : e ∈ es) : ∃ target, findEntry packed target offset es = some e := by
  induction es generalizing offset with
  | nil => exact absurd h List.not_mem_nil
  | cons a as ih =>
    rcases List.mem_cons.1 h with rfl | h
    · exact ⟨offset, if_pos rfl⟩
    · obtain ⟨target, ht⟩ := @ih (offset + a.size packed) h
      have := (findEntry_range ht).1
      have := Entry.size_pos packed a
      exact ⟨target, by rw [findEntry, if_neg (by omega), ht]⟩

variable {f : Entry → Entry}

theorem modifyEntry_sizes (hf : ∀ e, (f e).term = e.term) :
    ((Page.modifyEntry packed target f offset es).map (Entry.size packed)).sum =
      (es.map (Entry.size packed)).sum := by
  induction es generalizing offset with
  | nil => rfl
  | cons a as ih =>
    unfold Page.modifyEntry
    split_ifs
    · simp only [List.map_cons, List.sum_cons, Entry.size, hf]
    · simp only [List.map_cons, List.sum_cons, ih]

theorem findEntry_modify (hf : ∀ e, (f e).term = e.term) {x : ℕ} :
    findEntry packed x offset (Page.modifyEntry packed target f offset es) =
      if x = target then (findEntry packed x offset es).map f
      else findEntry packed x offset es := by
  induction es generalizing offset with
  | nil => simp [Page.modifyEntry, findEntry]
  | cons a as ih =>
    have hs : (f a).size packed = a.size packed := by simp only [Entry.size, hf]
    by_cases ho : offset = target
    · subst ho
      simp only [Page.modifyEntry, if_true, findEntry, hs]
      by_cases hx : offset = x
      · simp [hx]
      · simp only [if_neg hx, if_neg (Ne.symm hx)]
    · simp only [Page.modifyEntry, if_neg ho, findEntry, ih]
      by_cases hx : offset = x
      · subst hx; simp [ho]
      · simp only [if_neg hx]

theorem mem_modifyEntry (h : e' ∈ Page.modifyEntry packed target f offset es) :
    e' ∈ es ∨ ∃ e, findEntry packed target offset es = some e ∧ e' = f e := by
  induction es generalizing offset with
  | nil => exact absurd h List.not_mem_nil
  | cons a as ih =>
    by_cases ho : offset = target
    · simp only [Page.modifyEntry, if_pos ho, List.mem_cons] at h
      rcases h with rfl | h
      · exact .inr ⟨a, by simp [findEntry, ho], rfl⟩
      · exact .inl (List.mem_cons_of_mem _ h)
    · simp only [Page.modifyEntry, if_neg ho, List.mem_cons] at h
      rcases h with rfl | h
      · exact .inl List.mem_cons_self
      · rcases ih h with h | ⟨e, he, rfl⟩
        · exact .inl (List.mem_cons_of_mem _ h)
        · exact .inr ⟨e, by rw [findEntry, if_neg ho, he], rfl⟩

/-! ### The iterator -/

theorem termFrom_eq (hok : ∀ e ∈ es, e.Ok packed page)
    (h : findEntry packed target offset es = some e) :
    Page.termFrom packed page ⟨page, target⟩ offset es = .ok (e.toTerm ⟨page, target⟩) := by
  induction es generalizing offset with
  | nil => cases h
  | cons a as ih =>
    have ha := hok a List.mem_cons_self
    have hread : Page.readEntry packed page offset a = .ok (a.toTerm ⟨page, offset⟩) := if_pos ha
    unfold findEntry at h
    simp only [Page.termFrom, hread]
    split_ifs at h with ho
    · obtain rfl := Option.some.inj h
      subst ho
      exact if_pos rfl
    · have hne : (a.toTerm ⟨page, offset⟩).reference ≠ ⟨page, target⟩ := by
        intro heq
        exact ho (congrArg TermRef.offset heq)
      exact (if_neg hne).trans (ih (fun e he => hok e (List.mem_cons_of_mem _ he)) h)

theorem termsFrom_eq (hok : ∀ e ∈ es, e.Ok packed page) :
    Page.termsFrom packed page offset es =
      .ok ((located packed offset es).map fun p => p.2.toTerm ⟨page, p.1⟩) := by
  induction es generalizing offset with
  | nil => rfl
  | cons a as ih =>
    have hread : Page.readEntry packed page offset a = .ok (a.toTerm ⟨page, offset⟩) :=
      if_pos (hok a List.mem_cons_self)
    simp only [Page.termsFrom, hread, ih fun e he => hok e (List.mem_cons_of_mem _ he), located]
    rfl

end

/-! ### Posting chains -/

/-- The pages of a posting chain of `t`. -/
structure Chain (s : Store) (t : TermRef) (head tail : ℕ) (bs : List ℕ) : Prop where
  linked : Linked s.next noBlock head bs
  tail_eq : tail = lastD noBlock bs
  tagged : ∀ b ∈ bs, (s.body b).postingTag = some t

/-- The owner references on a list of posting pages. -/
def chainRefs (s : Store) (bs : List ℕ) : List OwnerRef :=
  bs.flatMap fun b => (s.body b).postingRefs

/-- The pages that hold the postings of an entry; an entry with an inline second has none. -/
def EntryChain (s : Store) (t : TermRef) (e : Entry) (bs : List ℕ) : Prop :=
  if e.inline = 1 then bs = [] else Chain s t e.head e.tail bs

/-- The second owner of an entry in the inline state. -/
def Entry.inlineRefs (e : Entry) : List OwnerRef := if e.inline = 1 then e.second.toList else []

/-- All owner references of an entry, in order. -/
def entryRefs (s : Store) (e : Entry) (bs : List ℕ) : List OwnerRef :=
  e.first :: (e.inlineRefs ++ chainRefs s bs)

/-- The owner is listed under a term. -/
def Posted (s : Store) (x : Text) (r : OwnerRef) : Prop :=
  ∃ t e bs, s.entry t = some e ∧ e.term = x ∧ EntryChain s t e bs ∧ r ∈ entryRefs s e bs

section

variable {s s' : Store} {t : TermRef} {e : Entry} {head tail : ℕ} {bs cs : List ℕ}

theorem Chain.unique (h : Chain s t head tail bs) (h' : Chain s t head tail cs) : bs = cs :=
  h.linked.unique h'.linked

theorem EntryChain.unique (h : EntryChain s t e bs) (h' : EntryChain s t e cs) : bs = cs := by
  unfold EntryChain at h h'
  split_ifs at h h'
  · rw [h, h']
  · exact h.unique h'

theorem Chain.congr (h : Chain s t head tail bs) (hp : ∀ b ∈ bs, s'.page b = s.page b) :
    Chain s' t head tail bs where
  linked := h.linked.congr fun b hb => by rw [Store.next, hp b hb]; rfl
  tail_eq := h.tail_eq
  tagged b hb := by rw [Store.body, hp b hb]; exact h.tagged b hb

theorem EntryChain.congr (h : EntryChain s t e bs) (hp : ∀ b ∈ bs, s'.page b = s.page b) :
    EntryChain s' t e bs := by
  unfold EntryChain at h ⊢
  split_ifs with hi
  · exact (if_pos hi).mp h
  · exact Chain.congr ((if_neg hi).mp h) hp

theorem EntryChain.tagged (h : EntryChain s t e bs) : ∀ b ∈ bs, (s.body b).postingTag = some t := by
  unfold EntryChain at h
  split_ifs at h
  · subst h; exact fun _ hb => absurd hb List.not_mem_nil
  · exact h.tagged

theorem chainRefs_congr (hp : ∀ b ∈ bs, s'.page b = s.page b) :
    chainRefs s' bs = chainRefs s bs := by
  unfold chainRefs
  refine List.flatMap_congr fun b hb => ?_
  rw [Store.body, hp b hb]; rfl

theorem entryRefs_congr (hp : ∀ b ∈ bs, s'.page b = s.page b) :
    entryRefs s' e bs = entryRefs s e bs := by
  rw [entryRefs, entryRefs, chainRefs_congr hp]

theorem mem_chainRefs {r : OwnerRef} :
    r ∈ chainRefs s bs ↔ ∃ b ∈ bs, r ∈ (s.body b).postingRefs := List.mem_flatMap

theorem chainRefs_append : chainRefs s (bs ++ cs) = chainRefs s bs ++ chainRefs s cs :=
  List.flatMap_append

theorem postingRefs_tag {body : Body} {r : OwnerRef} (h : r ∈ body.postingRefs) :
    ∃ t, body.postingTag = some t := by
  cases body <;> simp_all [Body.postingRefs, Body.postingTag]

end

end PinCore
