import PinCore.Vacuum.Sweep

/-!
# Block references

`Page.Names` lists the block references that a page stores.  The check before a block that was
never written is put onto the free list reads all of them but one: the second owner of a packed
dictionary entry.
-/

namespace PinCore

namespace Grouped

/-- The block references of the grouped tail of the metapage. -/
def GroupState.Names (g : GroupState) (target : ℕ) : Prop :=
  (∃ x ∈ g.active, x.head = target ∨ x.tail = target ∨ x.root = target ∨
    x.frontierRoot = some target ∨ ∃ o ∈ x.after, o.page = target) ∨
  (∃ d ∈ g.deltas, d.snapshot.head = target ∨ d.snapshot.tail = target ∨ d.snapshot.root = target ∨
    d.snapshot.frontierRoot = some target ∨ (∃ o ∈ d.snapshot.after, o.page = target) ∨
    ∃ o ∈ d.before, o.page = target) ∨
  (∃ j ∈ g.journal, j.head = target ∨ j.tail = target) ∨
  ∃ r ∈ g.retired, r.head = target ∨ r.tail = target

/-- The block references of a catalog entry: its term, the child of a branch, the pages of a stored
record and of its members.  The chain in a frontier anchor is advisory. -/
def entryNames (level target : ℕ) (e : CatalogEntry) : Prop :=
  e.key.1 / 65536 = target ∨
    if level ≠ 0 then leAt e.value 0 4 = target
    else Anchor.isEntry e = false ∧ leAt e.value 0 4 ≠ 0 ∧
      (leAt e.value 4 4 = target ∨ leAt e.value 8 4 = target ∨ leAt e.value 12 4 = target ∨
        leAt e.value 48 4 = target)

/-- The reader of a leaf entry accepts it. -/
def Readable (e : CatalogEntry) : Prop :=
  if Anchor.isEntry e = true then ∃ a, Anchor.read e = .ok a else ∃ v, Value.read e = .ok v

end Grouped

namespace Page

/-- A dictionary page holds a second owner, inline or retained, on a page. -/
def SecondNames (p : Page) (target : ℕ) : Prop :=
  match p.body with
  | .dictionary _ entries => ∃ e ∈ entries, ∃ o ∈ e.second, o.page = target
  | _ => False

/-- Every other block reference that a page stores. -/
def OtherNames (p : Page) (target : ℕ) : Prop :=
  p.next = target ∨
    match p.body with
    | .zero | .free => False
    | .info m => m.ownerHead = target ∨ m.ownerTail = target ∨ m.freeHead = target ∨
        (∃ j ∈ m.journal, j.head = target ∨ j.tail = target) ∨
        (∃ i < buckets, (m.bucket i).1 = target ∨ (m.bucket i).2 = target) ∨
        Grouped.GroupState.Names m.grouped target
    | .owners slots => ∃ o ∈ slots, o.dataHead = target
    | .dictionary _ entries =>
      ∃ e ∈ entries, e.head = target ∨ e.tail = target ∨ e.first.page = target
    | .postings t refs | .sealed t refs => t.page = target ∨ ∃ o ∈ refs, o.page = target
    | .direct t first last records => t.page = target ∨ first.page = target ∨ last.page = target ∨
        ∃ r ∈ records, r.owner.page = target
    | .grouped (.node _ level entries) => ∃ e ∈ entries, Grouped.entryNames level target e
    | .grouped (.record _ _ key _ _ _) => key.1 / 65536 = target
    | .fragment owner _ _ => owner.page = target

/-- The block references that a page stores, those of advisory frontier anchors apart. -/
def Names (p : Page) (target : ℕ) : Prop := p.OtherNames target ∨ p.SecondNames target

/-- The leaf entries of a catalog page are readable. -/
def Readable (p : Page) : Prop :=
  match p.body with
  | .grouped (.node _ level entries) => level = 0 → ∀ e ∈ entries, Grouped.Readable e
  | _ => True

end Page

/-! ### What the check reads of a page -/

section

variable {p : Page} {l : HeapLayout} {m : MetaBody} {g : GroupState} {target level i : ℕ}
  {e : CatalogEntry} {es : List CatalogEntry} {slots rest : List OwnerSlot} {b : Bool}
  {x : Except Error Bool}

namespace Grouped

/-- A valid delta has no frontier. -/
theorem chainOk_frontier {after : Option OwnerRef} {id : ℕ} {lv : Option ℕ} {ds : List GroupDelta}
    (h : GroupDelta.ChainOk after id lv ds) : ∀ d ∈ ds, d.snapshot.frontierRoot = none := by
  induction ds generalizing after id lv with
  | nil => exact fun _ hd => absurd hd List.not_mem_nil
  | cons d ds ih =>
    obtain ⟨⟨-, -, hfrontier, -⟩, -, -, -, -, -, -, -, -, hrest⟩ := h
    rw [List.forall_mem_cons]
    exact ⟨hfrontier rfl, ih hrest⟩

theorem stateNames_iff (h : g.Ok) : stateNames g target ↔ GroupState.Names g target := by
  have hfrontier : ∀ d ∈ g.deltas, d.snapshot.frontierRoot = none := by
    cases ha : g.active with
    | none => rw [h.deltasNeedActive ha]; exact fun _ hd => absurd hd List.not_mem_nil
    | some x => exact chainOk_frontier (h.deltas x ha)
  rw [stateNames, GroupState.Names]
  refine or_congr (exists_congr fun x => and_congr_right fun _ => ?_)
    (or_congr (exists_congr fun d => and_congr_right fun hd => ?_) Iff.rfl)
  · rw [GroupSnapshot.names, or_assoc, or_assoc, or_assoc, or_comm (b := x.frontierRoot = _)]
  · have hnone : ¬ d.snapshot.frontierRoot = some target := by rw [hfrontier d hd]; nofun
    simp only [GroupSnapshot.names, hnone, false_or, or_assoc]

/-- What reading a leaf value says about its stored blocks. -/
theorem Value.read_blocks {v : Value} (h : Value.read e = .ok v) :
    (v.len ≠ 0 ∧ (target ∈ v.blocks ∨ v.members = target)) ↔ leAt e.value 0 4 ≠ 0 ∧
      (leAt e.value 4 4 = target ∨ leAt e.value 8 4 = target ∨ leAt e.value 12 4 = target ∨
        leAt e.value 48 4 = target) := by
  rw [Value.read] at h
  by_cases hinline : leAt e.value 0 4 = 0 ∧ leAt e.value 60 4 ≠ 0
  · rw [if_pos hinline] at h
    have hlen : v.len = 0 := by
      split_ifs at h
      obtain ⟨pages, -, h⟩ := ok_of_bind h
      rw [← Except.ok.inj h]
    exact iff_of_false (fun hv => hv.1 hlen) fun hv => hv.1 hinline.1
  · rw [if_neg hinline] at h
    have hv : v = ⟨leAt e.value 0 4, [leAt e.value 4 4, leAt e.value 8 4, leAt e.value 12 4],
        leAt e.value 16 32, leAt e.value 48 4, leAt e.value 52 4, leAt e.value 56 4, none⟩ := by
      dsimp only at h
      split_ifs at h
      · obtain ⟨-, -, h⟩ := ok_of_bind h
        exact (Except.ok.inj h).symm
      · exact (Except.ok.inj h).symm
    rw [hv]
    refine and_congr_right fun _ => ?_
    simp only [List.mem_cons, List.not_mem_nil, or_false, eq_comm (a := target)]
    tauto

/-- The entries of a node are passed exactly if they are readable and none names the block. -/
theorem entriesName_false : entriesName level target es = .ok false ↔
    ∀ e ∈ es, ¬ entryNames level target e ∧ (level = 0 → Readable e) := by
  induction es with
  | nil => simp [entriesName]
  | cons e es ih =>
    rw [entriesName, List.forall_mem_cons, ← ih, entryNames]
    by_cases hkey : e.key.1 / 65536 = target
    · rw [if_pos hkey]
      exact ⟨nofun, fun h => absurd (.inl hkey) h.1.1⟩
    rw [if_neg hkey]
    by_cases hlevel : level = 0
    · rw [if_neg (not_not.2 hlevel), if_neg (not_not.2 hlevel), Readable]
      by_cases hanchor : Anchor.isEntry e = true
      · rw [if_pos hanchor, if_pos hanchor, hanchor]
        cases ha : Anchor.read e with
        | error e' => simp [error_bind, hlevel]
        | ok a => simp [ok_bind, hkey]
      · rw [if_neg hanchor, if_neg hanchor, Bool.not_eq_true] at *
        cases hv : Value.read e with
        | error e' => simp [error_bind, hlevel]
        | ok v =>
          have hiff := @Value.read_blocks target e v hv
          rw [ok_bind]
          split_ifs with hnames
          · have := hiff.1 hnames
            exact ⟨nofun, fun h => absurd (.inr ⟨hanchor, this⟩) h.1.1⟩
          · rw [hiff] at hnames
            simp [hkey, hanchor, hnames]
    · rw [if_pos hlevel, if_pos hlevel]
      split_ifs with hchild
      · exact ⟨nofun, fun h => absurd (.inr hchild) h.1.1⟩
      · simp [hkey, hchild, hlevel]

end Grouped

/-- The loop over the owner slots passes exactly if no data head names the block. -/
theorem slotsName_iff (hs : p.slots = .ok slots) (hd : slots.drop i = rest)
    (hok : ∀ o ∈ slots, o.Ok l) :
    slotsName p l target i rest = .ok false ↔ ∀ o ∈ rest, o.dataHead ≠ target := by
  induction rest generalizing i with
  | nil => simp [slotsName]
  | cons o rest ih =>
    have hi : slots[i]? = some o := by
      have : (slots.drop i)[0]? = some o := by rw [hd]; rfl
      simpa using this
    have hrest : slots.drop (i + 1) = rest := by
      rw [← List.tail_drop, hd]; rfl
    rw [slotsName, pageOwner_eq hs hi (hok o (List.mem_of_getElem? hi)), ok_bind,
      List.forall_mem_cons]
    split_ifs with ht
    · exact iff_of_false (by rintro ⟨⟩) fun h => h.1 ht
    · rw [ih hrest]
      exact ⟨fun h => ⟨ht, h⟩, fun h => h.2⟩

/-- On a valid page other than the metapage and the catalog nodes the grouped check passes. -/
theorem references_eq (hinfo : ∀ m, p.body ≠ .info m)
    (hgrouped : ∀ g, p.body ≠ .grouped g) : Grouped.references p target = .ok false := by
  rw [Grouped.references]
  cases hb : p.body with
  | info m => exact absurd hb (hinfo m)
  | grouped g => exact absurd hb (hgrouped g)
  | _ => rfl

theorem pagePostings_eq {t : TermRef} {body : Body} (hbody : body.Ok l p.block) (hb : p.body = body)
    (ht : body.postingTag = some t) :
    p.postingTerm = .ok t ∧ p.postingRefs = .ok body.postingRefs := by
  have htag : p.postingTerm = .ok t := by rw [Page.postingTerm, hb, ht]
  refine ⟨htag, ?_⟩
  rw [Page.postingRefs, htag, ok_bind, Page.kind, hb]
  exact if_neg fun hn => postingRefs_ne_nil hbody ht hn.1 hn.2

theorem any_located {packed : Bool} {page offset : ℕ} {f : Term → Bool} {es : List Entry}
    (f' : Entry → Bool) (h : ∀ t e, f (e.toTerm t) = f' e) :
    ((located packed offset es).map fun x => x.2.toTerm ⟨page, x.1⟩).any f = es.any f' := by
  induction es generalizing offset with
  | nil => rfl
  | cons e es ih => rw [located, List.map_cons, List.any_cons, List.any_cons, h, ih]

theorem exists_located {packed : Bool} {offset : ℕ} {e : Entry} {es : List Entry} (he : e ∈ es) :
    ∃ o, (o, e) ∈ located packed offset es := by
  induction es generalizing offset with
  | nil => exact absurd he List.not_mem_nil
  | cons a as ih =>
    rw [located]
    rcases List.mem_cons.1 he with rfl | he
    · exact ⟨_, List.mem_cons_self⟩
    · obtain ⟨o, ho⟩ := ih he
      exact ⟨o, List.mem_cons_of_mem _ ho⟩

/-- The end points in the header of a direct page are those of its first and last record. -/
theorem direct_ends {t : TermRef} {first last o : OwnerRef} {records : List DirectRecord}
    (h : p.Valid l) (hb : p.body = .direct t first last records) (ho : o = first ∨ o = last) :
    ∃ r ∈ records, r.owner = o := by
  have hbody := h.body
  rw [hb] at hbody
  rcases ho with rfl | rfl
  · exact List.mem_map.1 (List.mem_of_head? hbody.2.2.2.1)
  · exact List.mem_map.1 (List.mem_of_getLast? hbody.2.2.2.2)

/-- The link and the grouped references are read before the other fields. -/
theorem references_bind (hr : Grouped.references p target = .ok b) :
    ((Grouped.references p target >>= fun grouped =>
      if p.next = target ∨ grouped = true then .ok true else x) = .ok false ↔
      p.next ≠ target ∧ b = false ∧ x = .ok false) := by
  rw [hr, ok_bind]
  split_ifs with hn
  · refine iff_of_false (by rintro ⟨⟩) fun hx => ?_
    rcases hn with hn | hn
    · exact hx.1 hn
    · rw [hx.2.1] at hn; cases hn
  · rw [not_or, Bool.not_eq_true] at hn
    exact ⟨fun hx => ⟨hn.1, hn.2, hx⟩, fun hx => hx.2.2⟩

theorem metaPage_buckets (h : m.Ok l) (is : List ℕ) (his : ∀ i ∈ is, i < buckets) :
    is.mapM (metaPage m).bucket = .ok (is.map m.bucket) := by
  induction is with
  | nil => rfl
  | cons i is ih =>
    rw [List.mapM_cons, metaPage_bucket h (his i List.mem_cons_self),
      ih fun k hk => his k (List.mem_cons_of_mem _ hk)]
    rfl

/-- What the check reads of the metapage. -/
theorem info_reads (hm : m.Ok l) (hb : p.body = .info m) (target : ℕ) :
    Grouped.references p target = .ok (decide (Grouped.stateNames m.grouped target)) ∧
      p.rewriteJournal = .ok m.journal ∧ p.ownerChain = .ok (m.ownerHead, m.ownerTail) ∧
      p.freeHead = .ok m.freeHead ∧
      (List.range buckets).mapM p.bucket = .ok ((List.range buckets).map m.bucket) := by
  have hinfo : p.info = (metaPage m).info := by rw [Page.info, hb]; rfl
  have hstate : p.groupedState = .ok m.grouped := by
    rw [Page.groupedState, hinfo]
    exact metaPage_groupedState hm
  refine ⟨?_, ?_, ?_, ?_, ?_⟩
  · simp only [Grouped.references, hb, hstate, ok_bind]
  · rw [Page.rewriteJournal, hinfo]
    exact metaPage_rewriteJournal hm
  · rw [Page.ownerChain, hinfo]
    exact metaPage_ownerChain hm
  · rw [Page.freeHead, hinfo]
    exact metaPage_freeHead hm
  · have : p.bucket = (metaPage m).bucket := funext fun i => by
      rw [Page.bucket, hinfo, Page.bucket]
    rw [this]
    exact metaPage_buckets hm _ fun i hi => List.mem_range.1 hi

/-- On the metapage the check reads every reference, if in another order. -/
theorem mentions_info (hm : m.Ok l) (hb : p.body = .info m) :
    mentions p l target = .ok false ↔ ¬ p.OtherNames target := by
  obtain ⟨hgrouped, hjournal, hchain, hfree, hbuckets⟩ := info_reads hm hb target
  unfold mentions
  rw [Page.OtherNames, hb, references_bind hgrouped, hjournal, hchain, hfree, hbuckets]
  simp only [ok_bind, Except.ok.injEq, decide_eq_false_iff_not,
    Grouped.stateNames_iff hm.grouped, List.mem_map, List.mem_range, exists_exists_and_eq_and]
  constructor
  · rintro ⟨hnext, hnames, hrest⟩ (h | h | h | h | h | h | h)
    · exact hnext h
    · exact hrest (.inr (.inl h))
    · exact hrest (.inr (.inr (.inl h)))
    · exact hrest (.inr (.inr (.inr (.inl h))))
    · exact hrest (.inl h)
    · exact hrest (.inr (.inr (.inr (.inr h))))
    · exact hnames h
  · intro hnone
    refine ⟨fun h => hnone (.inl h), fun h => hnone ?_, ?_⟩
    · exact .inr (.inr (.inr (.inr (.inr (.inr h)))))
    · rintro (h | h | h | h | h)
      · exact hnone (.inr (.inr (.inr (.inr (.inl h)))))
      · exact hnone (.inr (.inl h))
      · exact hnone (.inr (.inr (.inl h)))
      · exact hnone (.inr (.inr (.inr (.inl h))))
      · exact hnone (.inr (.inr (.inr (.inr (.inr (.inl h))))))

theorem mentions_direct {t : TermRef} {first last : OwnerRef} {records : List DirectRecord}
    (hvalid : p.Valid l) (hb : p.body = .direct t first last records) :
    mentions p l target = .ok false ↔ ¬ p.OtherNames target := by
  have hbody := hvalid.body
  rw [hb] at hbody
  obtain ⟨htag, hrefs⟩ := pagePostings_eq hbody hb rfl
  unfold mentions
  rw [Page.OtherNames, hb, references_bind (references_eq (by simp [hb]) (by simp [hb])), htag,
    hrefs]
  simp only [ok_bind, Except.ok.injEq, Bool.or_eq_false_iff, decide_eq_false_iff_not,
    Body.postingRefs, List.any_map, List.any_eq_false, Function.comp, decide_eq_true_eq,
    true_and, not_or, not_exists, not_and]
  refine and_congr_right fun _ => and_congr_right fun _ => ⟨fun h => ⟨?_, ?_, h⟩, fun h => h.2.2⟩
  · obtain ⟨r, hr, hfirst⟩ := direct_ends hvalid hb (.inl rfl)
    exact hfirst ▸ h r hr
  · obtain ⟨r, hr, hlast⟩ := direct_ends hvalid hb (.inr rfl)
    exact hlast ▸ h r hr

/-- On a catalog node the check reads every entry, and fails on one that it cannot read. -/
theorem mentions_node {id : ℕ} (hb : p.body = .grouped (.node id level es)) :
    mentions p l target = .ok false ↔ ¬ p.OtherNames target ∧ p.Readable := by
  have hg : Grouped.references p target = Grouped.entriesName level target es := by
    rw [Grouped.references, hb]
  unfold mentions
  rw [Page.OtherNames, Page.Readable, hb]
  cases hnames : Grouped.entriesName level target es with
  | error e =>
    rw [hg, hnames, error_bind]
    refine iff_of_false (by rintro ⟨⟩) fun hn => ?_
    have hpass : Grouped.entriesName level target es = .ok false :=
      Grouped.entriesName_false.2 fun e he =>
        ⟨fun hr => hn.1 (.inr ⟨e, he, hr⟩), fun hlevel => hn.2 hlevel e he⟩
    rw [hnames] at hpass
    cases hpass
  | ok b =>
    have hiff : b = false ↔ ∀ e ∈ es, ¬ Grouped.entryNames level target e ∧
        (level = 0 → Grouped.Readable e) := by
      rw [← Grouped.entriesName_false, hnames, Except.ok.injEq]
    rw [references_bind (hg.trans hnames), hiff]
    constructor
    · rintro ⟨hnext, hall, -⟩
      refine ⟨?_, fun hlevel e he => (hall e he).2 hlevel⟩
      rintro (hn | ⟨e, he, hn⟩)
      · exact hnext hn
      · exact (hall e he).1 hn
    · rintro ⟨hnone, hread⟩
      exact ⟨fun hn => hnone (.inl hn), fun e he =>
        ⟨fun hn => hnone (.inr ⟨e, he, hn⟩), fun hlevel => hread hlevel e he⟩, rfl⟩

/-- The check of one page passes exactly if no reference that it reads names the block, and the
leaf entries are readable. -/
theorem mentions_iff (h : p.Valid l) (hz : p.kind ≠ .zero) :
    mentions p l target = .ok false ↔ ¬ p.OtherNames target ∧ p.Readable := by
  have hbody := h.body
  -- only a catalog node has entries that may be unreadable
  have hreadable (hr : p.Readable) (hi : mentions p l target = .ok false ↔ ¬ p.OtherNames target) :
      mentions p l target = .ok false ↔ ¬ p.OtherNames target ∧ p.Readable :=
    hi.trans (and_iff_left hr).symm
  have hplain : (∀ m, p.body ≠ .info m) → (∀ g, p.body ≠ .grouped g) →
      Grouped.references p target = .ok false := references_eq
  cases hb : p.body with
  | zero => exact absurd (by rw [Page.kind, hb]; rfl) hz
  | info m =>
    rw [hb] at hbody
    exact hreadable (by rw [Page.Readable, hb]; trivial) (mentions_info hbody hb)
  | direct t first last records =>
    exact hreadable (by rw [Page.Readable, hb]; trivial) (mentions_direct h hb)
  | owners slots =>
    rw [hb] at hbody
    have hs : p.slots = .ok slots := by rw [Page.slots, hb]
    unfold mentions
    rw [references_bind (hplain (by simp [hb]) (by simp [hb])), Page.OtherNames, Page.Readable, hb]
    change _ ∧ _ ∧ slotsName p l target 0 slots = .ok false ↔ _
    rw [slotsName_iff hs (List.drop_zero (l := slots)) hbody]
    simp
  | dictionary packed es =>
    rw [hb] at hbody
    have hterms : p.terms =
        .ok ((located packed pageHeader es).map fun x => x.2.toTerm ⟨p.block, x.1⟩) := by
      rw [Page.terms, Page.entries, hb]
      exact termsFrom_eq hbody
    unfold mentions
    rw [references_bind (hplain (by simp [hb]) (by simp [hb])), hterms, Page.OtherNames,
      Page.Readable, hb]
    change _ ∧ _ ∧ Except.ok (List.any _ _) = _ ↔ _
    rw [any_located (fun e => decide (e.head = target ∨ e.tail = target ∨ e.first.page = target))
      fun _ _ => rfl]
    simp
  | postings t refs | «sealed» t refs =>
    rw [hb] at hbody
    obtain ⟨htag, hrefs⟩ := pagePostings_eq hbody hb rfl
    unfold mentions
    rw [references_bind (hplain (by simp [hb]) (by simp [hb])), htag, hrefs, Page.OtherNames,
      Page.Readable, hb]
    simp [ok_bind, Body.postingRefs]
  | grouped g =>
    cases g with
    | record id kind key total offset bytes =>
      have hg : Grouped.references p target = .ok (decide (key.1 / 65536 = target)) := by
        rw [Grouped.references, hb]
      unfold mentions
      rw [references_bind hg, Page.OtherNames, Page.Readable, hb]
      simp
    | node id level entries => exact mentions_node hb
  | fragment o offset payload =>
    rw [hb] at hbody
    have hdata : p.fragmentData = .ok (o, offset, payload) := by
      rw [Page.fragmentData, hb]
      exact if_pos hbody.1
    unfold mentions
    rw [references_bind (hplain (by simp [hb]) (by simp [hb])), hdata, Page.OtherNames,
      Page.Readable, hb]
    simp [ok_bind]
  | free =>
    unfold mentions
    rw [references_bind (hplain (by simp [hb]) (by simp [hb])), Page.OtherNames, Page.Readable, hb]
    simp

end

end PinCore
