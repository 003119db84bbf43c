import PinCore.Grouped.Seal

/-!
# Rows of the host sort

A build submits one row for every document, every posting and every captured suffix of a chain, and
gets them back in the order of their bytes.  `Orderly` says which sorted rows describe an index: the
owners in them, each with the catalog key it belongs to, ascend strictly.
-/

namespace PinCore

namespace Grouped

/-! ### Rows -/

/-- A row: four words, compared in this order by their big-endian bytes. -/
structure SortRecord where
  term : ℕ
  root : ℕ
  incarnation : ℕ
  slot : ℕ
  deriving DecidableEq, Repr

namespace SortRecord

/-- The row of an owner under a term. -/
def new (term : ℕ) (root : RootTid) (owner : OwnerRef) : SortRecord :=
  ⟨term, rootKey root, owner.incarnation, owner.page * 65536 + owner.slot⟩

/-- The order of the sort. -/
def Lt (a b : SortRecord) : Prop :=
  a.term < b.term ∨ (a.term = b.term ∧ (a.root < b.root ∨ (a.root = b.root ∧
    (a.incarnation < b.incarnation ∨ (a.incarnation = b.incarnation ∧ a.slot < b.slot)))))

instance (a b : SortRecord) : Decidable (a.Lt b) := inferInstanceAs (Decidable (_ ∨ _))

/-- The term and the owner of a row. -/
def fields (r : SortRecord) (l : HeapLayout) : Except Error (ℕ × Member) :=
  if noBlock ≤ r.root / 65536 ∨ r.slot / 65536 = 0 ∨ noBlock ≤ r.slot / 65536 then
    .error .invalidState
  else if ¬ RootTid.Valid l ⟨r.root / 65536, r.root % 65536⟩ ∨ r.incarnation = 0 then
    .error .invalidState
  else .ok (r.term, ⟨⟨r.root / 65536, r.root % 65536⟩, r.incarnation⟩)

end SortRecord

/-- The key of a place of a dictionary page. -/
def termKey (r : TermRef) : ℕ := r.page * 65536 + r.offset

namespace Anchor

/-- The row of a captured suffix; its root is below every valid one. -/
def sortRecord (a : Anchor) (term : ℕ) : SortRecord :=
  ⟨term, 0, a.head * 4294967296 + a.tail, a.last⟩

/-- The anchor in a row with the root 0; other rows hold none. -/
def fromSort (r : SortRecord) : Except Error (Option (ℕ × Anchor)) :=
  if r.root ≠ 0 then .ok none
  else if ¬ validTerm r.term then .error .invalidState
  else do
    let a ← Anchor.new (r.incarnation / 4294967296 % 4294967296) (r.incarnation % 4294967296) r.slot
    .ok (some (r.term, a))

/-- The catalog entry of an anchor. -/
def entry (a : Anchor) (term : ℕ) : CatalogEntry :=
  ⟨(term, 0), [0x46, 0x53, 0x41, 0x31] ++ (leBytes 4 a.head ++ (leBytes 4 a.tail ++
    (leBytes 8 a.last ++ List.replicate 44 0)))⟩

end Anchor

/-! ### What rows say -/

/-- The first block of the group of a block. -/
def groupBase (block : ℕ) : ℕ := block - block % 256

/-- An owner with the key it is entered under. -/
structure Post where
  key : ℕ × ℕ
  member : Member
  deriving DecidableEq, Repr

/-- What a row says: the suffix of a term, or an owner and its key. -/
inductive Content where
  | suffix (term : ℕ) (a : Anchor)
  | owner (p : Post)
  deriving DecidableEq, Repr

/-- What the row stands for: an anchor, or an owner under a term. -/
def SortRecord.content (r : SortRecord) (l : HeapLayout) : Except Error Content := do
  match ← Anchor.fromSort r with
  | some (term, a) => .ok (.suffix term a)
  | none =>
    let (term, x) ← r.fields l
    .ok (.owner ⟨(term, groupBase x.root.block), x⟩)

/-- The suffixes among what rows say. -/
def suffixesIn (cs : List Content) : List (ℕ × Anchor) :=
  cs.filterMap fun
    | .suffix term a => some (term, a)
    | .owner _ => none

/-- The owners among what rows say. -/
def postsIn (cs : List Content) : List Post :=
  cs.filterMap fun
    | .suffix _ _ => none
    | .owner p => some p

/-- Owners by key, then by root. -/
def Post.Lt (p q : Post) : Prop :=
  keyLt p.key q.key ∨ (p.key = q.key ∧ rootKey p.member.root < rootKey q.member.root)

/-- The owners entered under a key. -/
def membersAt (ps : List Post) (key : ℕ × ℕ) : List Member :=
  (ps.filter fun p => p.key = key).map Post.member

/-- The roots entered under a key. -/
def rootsAt (ps : List Post) (key : ℕ × ℕ) : List RootTid := (membersAt ps key).map Member.root

/-- The rows are sorted and describe an index: no owner is entered twice under a key, all are older
than the segment, and where suffixes are kept every term has one. -/
structure Orderly (l : HeapLayout) (id : ℕ) (anchored : Bool) (rows : List SortRecord)
    (cs : List Content) : Prop where
  sorted : rows.Pairwise SortRecord.Lt
  content : rows.map (fun r => r.content l) = cs.map .ok
  posts : (postsIn cs).Pairwise Post.Lt
  suffixes : (suffixesIn cs).Pairwise fun a b => a.1 < b.1
  bare : anchored = false → suffixesIn cs = []
  older : (∀ a ∈ suffixesIn cs, a.2.last < id) ∧ ∀ p ∈ postsIn cs, p.member.incarnation < id
  covered : anchored = true → ∀ p ∈ postsIn cs, p.key.1 ≠ 0 → ∃ a ∈ suffixesIn cs, a.1 = p.key.1

section

variable {l : HeapLayout} {id : ℕ} {anchored : Bool} {r q : SortRecord}
  {rows done : List SortRecord}
  {c d : Content} {cs : List Content} {term : ℕ} {a : Anchor} {p : Post} {ps : List Post}
  {key : ℕ × ℕ}

theorem SortRecord.Lt.trans {a b c : SortRecord} (h : a.Lt b) (h' : b.Lt c) : a.Lt c := by
  unfold SortRecord.Lt at *
  omega

theorem Post.Lt.trans {p q r : Post} (h : p.Lt q) (h' : q.Lt r) : p.Lt r := by
  rcases h with h | ⟨he, h⟩ <;> rcases h' with h' | ⟨he', h'⟩
  · exact .inl (keyLt_trans h h')
  · exact .inl (he' ▸ h)
  · exact .inl (he.symm ▸ h')
  · exact .inr ⟨he.trans he', Nat.lt_trans h h'⟩

theorem Post.Lt.key_le {p q : Post} (h : p.Lt q) : keyLt p.key q.key ∨ p.key = q.key :=
  h.imp_right fun h => h.1

/-! ### The content of a row -/

/-- The row of a suffix. -/
theorem SortRecord.content_suffix (h : r.content l = .ok (.suffix term a)) :
    r.term = term ∧ r.root = 0 ∧ Anchor.validTerm term ∧
      Anchor.fromSort r = .ok (some (term, a)) := by
  obtain ⟨o, ho, h⟩ := ok_of_bind h
  cases o with
  | none =>
    obtain ⟨⟨t, x⟩, -, h⟩ := ok_of_bind h
    cases h
  | some b =>
    obtain ⟨t, b⟩ := b
    cases h
    have hsort := ho
    unfold Anchor.fromSort at ho
    split_ifs at ho with h0 hv
    · cases ho
    · obtain ⟨b', -, hb⟩ := ok_of_bind ho
      cases hb
      exact ⟨rfl, not_not.1 h0, hv, hsort⟩

/-- The row of an owner. -/
theorem SortRecord.content_owner (h : r.content l = .ok (.owner p)) :
    r.root ≠ 0 ∧ Anchor.fromSort r = .ok none ∧ r.fields l = .ok (p.key.1, p.member) ∧
      p.key = (r.term, groupBase p.member.root.block) ∧ rootKey p.member.root = r.root ∧
      p.member.root.Valid l ∧ p.member.incarnation ≠ 0 ∧ p.member.root.block < noBlock := by
  obtain ⟨o, ho, h⟩ := ok_of_bind h
  cases o with
  | some b =>
    obtain ⟨t, b⟩ := b
    cases h
  | none =>
    obtain ⟨⟨t, x⟩, hf, h⟩ := ok_of_bind h
    cases h
    have hfields := hf
    have h0 : r.root ≠ 0 := by
      intro h0
      unfold Anchor.fromSort at ho
      rw [if_neg (not_not.2 h0)] at ho
      split_ifs at ho with hv
      obtain ⟨b, -, hb⟩ := ok_of_bind ho
      cases hb
    unfold SortRecord.fields at hf
    split_ifs at hf with hr hx
    cases hf
    rw [not_or, not_not] at hx
    rw [not_or, Nat.not_le] at hr
    exact ⟨h0, ho, hfields, rfl, Nat.div_add_mod' r.root 65536, hx.1, hx.2, hr.1⟩

/-- The key of an owner is one that pages may have, where the term is. -/
theorem SortRecord.validKey (h : r.content l = .ok (.owner p))
    (hterm : r.term = 0 ∨ Anchor.validTerm r.term) : PinCore.validKey p.key := by
  obtain ⟨-, -, -, hkey, -, -, -, hblock⟩ := content_owner h
  rw [hkey]
  refine ⟨?_, ?_, hterm⟩
  · change groupBase _ ≤ _
    unfold groupBase
    rw [noBlock] at hblock
    omega
  · change groupBase _ % 256 = 0
    unfold groupBase
    omega

theorem groupBase_mono {a b : ℕ} (h : a ≤ b) : groupBase a ≤ groupBase b := by
  unfold groupBase
  omega

/-- Rows in order have their owners' keys in order, and within a key the roots. -/
theorem SortRecord.Lt.posts {p p' : Post} {r r' : SortRecord} (h : r.Lt r')
    (hr : r.content l = .ok (.owner p)) (hr' : r'.content l = .ok (.owner p')) :
    p.Lt p' ∨ (p.key = p'.key ∧ p.member.root = p'.member.root) := by
  obtain ⟨-, -, -, hkey, hroot, hv, -⟩ := content_owner hr
  obtain ⟨-, -, -, hkey', hroot', hv', -⟩ := content_owner hr'
  have hlo : p.member.root.offset < 65536 := by
    have := hv.2.2
    have := l.le
    omega
  have hlo' : p'.member.root.offset < 65536 := by
    have := hv'.2.2
    have := l.le
    omega
  rw [hkey, hkey']
  rcases h with h | ⟨hterm, h⟩
  · exact .inl (.inl (by rw [hkey, hkey']; exact .inl h))
  have hle : r.root ≤ r'.root := by omega
  unfold rootKey at hroot hroot'
  have hblock : p.member.root.block ≤ p'.member.root.block := by omega
  rcases Nat.lt_or_eq_of_le (groupBase_mono hblock) with hb | hb
  · exact .inl (.inl (by rw [hkey, hkey']; exact .inr ⟨hterm, hb⟩))
  · rcases Nat.lt_or_eq_of_le hle with hlt | heq
    · exact .inl (.inr ⟨by rw [hkey, hkey', hterm, hb], by unfold rootKey; omega⟩)
    · refine .inr ⟨by rw [hterm, hb], ?_⟩
      have : p.member.root.block = p'.member.root.block := by omega
      have : p.member.root.offset = p'.member.root.offset := by omega
      cases hp : p.member.root
      cases hp' : p'.member.root
      simp_all

/-! ### One row more -/

theorem pairwise_concat {α : Type} {R : α → α → Prop} {as : List α} {b : α}
    (ht : ∀ {a b c}, R a b → R b c → R a c) (h : as.Pairwise R) (hb : ∀ a ∈ as.getLast?, R a b) :
    (as ++ [b]).Pairwise R := by
  refine List.pairwise_append.2 ⟨h, List.pairwise_singleton _ _, fun a ha c hc => ?_⟩
  rw [List.mem_singleton.1 hc]
  have hne := List.ne_nil_of_mem ha
  have hlast := hb (as.getLast hne) (List.getLast?_eq_some_getLast hne)
  rw [← List.dropLast_append_getLast hne] at ha h
  rcases List.mem_append.1 ha with ha | ha
  · exact ht ((List.pairwise_append.1 h).2.2 a ha _ (List.mem_singleton_self _)) hlast
  · rw [List.mem_singleton.1 ha]
    exact hlast

@[simp] theorem suffixesIn_append (cs ds : List Content) :
    suffixesIn (cs ++ ds) = suffixesIn cs ++ suffixesIn ds := List.filterMap_append

@[simp] theorem postsIn_append (cs ds : List Content) :
    postsIn (cs ++ ds) = postsIn cs ++ postsIn ds := List.filterMap_append

@[simp] theorem suffixesIn_suffix (cs : List Content) :
    suffixesIn (.suffix term a :: cs) = (term, a) :: suffixesIn cs := rfl

@[simp] theorem suffixesIn_owner (cs : List Content) :
    suffixesIn (.owner p :: cs) = suffixesIn cs := rfl

@[simp] theorem postsIn_suffix (cs : List Content) :
    postsIn (.suffix term a :: cs) = postsIn cs := rfl

@[simp] theorem postsIn_owner (cs : List Content) :
    postsIn (.owner p :: cs) = p :: postsIn cs := rfl

@[simp] theorem suffixesIn_nil : suffixesIn [] = [] := rfl

@[simp] theorem postsIn_nil : postsIn [] = [] := rfl

theorem mem_suffixesIn : (term, a) ∈ suffixesIn cs ↔ .suffix term a ∈ cs := by
  rw [suffixesIn, List.mem_filterMap]
  constructor
  · rintro ⟨c, hc, h⟩
    cases c with
    | suffix t b => cases h; exact hc
    | owner q => cases h
  · exact fun h => ⟨_, h, rfl⟩

theorem mem_postsIn : p ∈ postsIn cs ↔ .owner p ∈ cs := by
  rw [postsIn, List.mem_filterMap]
  constructor
  · rintro ⟨c, hc, h⟩
    cases c with
    | suffix t b => cases h
    | owner q => cases h; exact hc
  · exact fun h => ⟨_, h, rfl⟩

namespace Orderly

theorem nil : Orderly l id anchored [] [] :=
  ⟨.nil, rfl, .nil, .nil, fun _ => rfl, ⟨by simp, by simp⟩, by simp⟩

/-- What a row says stands in one of the rows. -/
theorem exists_row (h : rows.map (fun r => r.content l) = cs.map .ok) (hc : c ∈ cs) :
    ∃ r ∈ rows, r.content l = .ok c := by
  have hmem : (.ok c : Except Error Content) ∈ cs.map .ok := List.mem_map_of_mem hc
  rw [← h] at hmem
  exact List.mem_map.1 hmem

theorem suffix (h : Orderly l id anchored done cs) (hsort : ∀ q ∈ done.getLast?, q.Lt r)
    (hr : r.content l = .ok (.suffix term a)) (ha : anchored = true) (hlast : a.last < id)
    (hnext : ∀ b ∈ (suffixesIn cs).getLast?, b.1 < term) :
    Orderly l id anchored (done ++ [r]) (cs ++ [.suffix term a]) where
  sorted := pairwise_concat .trans h.sorted hsort
  content := by rw [List.map_append, List.map_append, h.content, List.map_singleton, hr]; rfl
  posts := by simpa using h.posts
  suffixes := by
    rw [suffixesIn_append]
    exact pairwise_concat Nat.lt_trans h.suffixes hnext
  bare hn := by rw [ha] at hn; cases hn
  older := by
    refine ⟨fun b hb => ?_, by simpa using h.older.2⟩
    rw [suffixesIn_append] at hb
    rcases List.mem_append.1 hb with hb | hb
    · exact h.older.1 b hb
    · rw [List.mem_singleton.1 hb]
      exact hlast
  covered hn p hp h0 := by
    obtain ⟨b, hb, he⟩ := h.covered hn p (by simpa using hp) h0
    exact ⟨b, by rw [suffixesIn_append]; exact List.mem_append_left _ hb, he⟩

theorem owner (h : Orderly l id anchored done cs) (hsort : ∀ q ∈ done.getLast?, q.Lt r)
    (hr : r.content l = .ok (.owner p)) (hold : p.member.incarnation < id)
    (hcov : anchored = true → p.key.1 ≠ 0 → ∃ a ∈ suffixesIn cs, a.1 = p.key.1)
    (hnew : ∀ q ∈ (postsIn cs).getLast?, ¬ (q.key = p.key ∧ q.member.root = p.member.root)) :
    Orderly l id anchored (done ++ [r]) (cs ++ [.owner p]) where
  sorted := pairwise_concat .trans h.sorted hsort
  content := by rw [List.map_append, List.map_append, h.content, List.map_singleton, hr]; rfl
  posts := by
    rw [postsIn_append]
    refine pairwise_concat .trans h.posts fun q hq => ?_
    obtain ⟨r', hr', hq'⟩ := exists_row h.content (mem_postsIn.1 (List.mem_of_getLast? hq))
    have hlt : r'.Lt r := by
      have hall := pairwise_concat .trans h.sorted hsort
      exact (List.pairwise_append.1 hall).2.2 r' hr' r (List.mem_singleton_self _)
    exact (hlt.posts hq' hr).resolve_right (hnew q hq)
  suffixes := by simpa using h.suffixes
  bare hn := by simpa using h.bare hn
  older := by
    refine ⟨by simpa using h.older.1, fun q hq => ?_⟩
    rw [postsIn_append] at hq
    rcases List.mem_append.1 hq with hq | hq
    · exact h.older.2 q hq
    · rw [List.mem_singleton.1 hq]
      exact hold
  covered hn q hq h0 := by
    simp only [suffixesIn_append, suffixesIn_owner, suffixesIn_nil, List.append_nil]
    rw [postsIn_append] at hq
    rcases List.mem_append.1 hq with hq | hq
    · exact h.covered hn q hq h0
    · obtain rfl := List.mem_singleton.1 hq
      exact hcov hn h0

/-! ### The next row of orderly rows -/

/-- In orderly rows, what the next row says is next. -/
theorem next {rest : List SortRecord} (h : Orderly l id anchored (done ++ r :: rest) cs)
    {ds : List Content} (hd : done.map (fun r => r.content l) = ds.map .ok) :
    ∃ c es, r.content l = .ok c ∧ cs = ds ++ c :: es ∧
      rest.map (fun r => r.content l) = es.map .ok := by
  have hmap := h.content
  rw [List.map_append, List.map_cons, hd] at hmap
  obtain ⟨as, bs, rfl, has, hbs⟩ := List.map_eq_append_iff.1 hmap.symm
  obtain ⟨c, es, rfl, hc, hes⟩ := List.map_eq_cons_iff.1 hbs
  have hinj : Function.Injective (Except.ok : Content → Except Error Content) := fun _ _ he =>
    Except.ok.inj he
  exact ⟨c, es, hc.symm, by rw [hinj.list_map has], hes.symm⟩

theorem next_lt {rest : List SortRecord} (h : Orderly l id anchored (done ++ r :: rest) cs) :
    ∀ q ∈ done.getLast?, q.Lt r := fun q hq =>
  (List.pairwise_append.1 h.sorted).2.2 q (List.mem_of_getLast? hq) r List.mem_cons_self

theorem next_suffix {ds es : List Content}
    (h : Orderly l id anchored rows (ds ++ .suffix term a :: es)) :
    anchored = true ∧ a.last < id ∧ ∀ b ∈ suffixesIn ds, b.1 < term := by
  have hmem : (term, a) ∈ suffixesIn (ds ++ .suffix term a :: es) := by simp
  refine ⟨?_, h.older.1 _ hmem, fun b hb => ?_⟩
  · by_contra hn
    rw [h.bare (Bool.eq_false_iff.2 hn)] at hmem
    cases hmem
  · have hs := h.suffixes
    rw [suffixesIn_append] at hs
    exact (List.pairwise_append.1 hs).2.2 b hb (term, a) (by simp)

theorem next_owner {ds es : List Content} (h : Orderly l id anchored rows (ds ++ .owner p :: es)) :
    p.member.incarnation < id ∧ ∀ q ∈ postsIn ds, q.Lt p := by
  refine ⟨h.older.2 p (by simp), fun q hq => ?_⟩
  have hs := h.posts
  rw [postsIn_append] at hs
  exact (List.pairwise_append.1 hs).2.2 q hq p (by simp)

/-- Where suffixes are kept, the last one before an owner is that of its term. -/
theorem next_covered {rest : List SortRecord} {ds es : List Content}
    (h : Orderly l id anchored (done ++ r :: rest) (ds ++ .owner p :: es))
    (hd : done.map (fun r => r.content l) = ds.map .ok) (hr : r.content l = .ok (.owner p))
    (hes : rest.map (fun r => r.content l) = es.map .ok) (hn : anchored = true)
    (h0 : p.key.1 ≠ 0) : (suffixesIn ds).getLast?.map Prod.fst = some p.key.1 := by
  obtain ⟨hroot, -, -, hkey, -⟩ := SortRecord.content_owner hr
  obtain ⟨-, hcross, hbetween⟩ := List.pairwise_append.1 h.sorted
  obtain ⟨⟨t, a⟩, ha, hat⟩ := h.covered hn p (by simp) h0
  have hat : t = p.key.1 := hat
  subst hat
  -- the row of the suffix cannot follow
  have hads : (p.key.1, a) ∈ suffixesIn ds := by
    rw [suffixesIn_append, suffixesIn_owner] at ha
    refine (List.mem_append.1 ha).resolve_right fun hb => ?_
    obtain ⟨q, hq, hqc⟩ := exists_row hes (mem_suffixesIn.1 hb)
    obtain ⟨hterm, hzero, -⟩ := SortRecord.content_suffix hqc
    have hlt := (List.pairwise_cons.1 hcross).1 q hq
    unfold SortRecord.Lt at hlt
    rw [hkey] at hterm
    dsimp only at hterm
    omega
  have hne := List.ne_nil_of_mem hads
  rw [List.getLast?_eq_some_getLast hne, Option.map_some]
  obtain ⟨⟨t, b⟩, hb⟩ : ∃ y, (suffixesIn ds).getLast hne = y := ⟨_, rfl⟩
  have hbm : (t, b) ∈ suffixesIn ds := hb ▸ List.getLast_mem hne
  rw [hb]
  -- the last suffix is not above the term, and not below the one found
  obtain ⟨q, hq, hqc⟩ := exists_row hd (mem_suffixesIn.1 hbm)
  obtain ⟨hterm, hzero, -⟩ := SortRecord.content_suffix hqc
  have hlt := hbetween q hq r List.mem_cons_self
  have hle : t ≤ p.key.1 := by
    unfold SortRecord.Lt at hlt
    rw [hkey]
    dsimp only
    omega
  have hs := h.suffixes
  rw [suffixesIn_append] at hs
  have hs := (List.pairwise_append.1 hs).1
  rw [← List.dropLast_append_getLast hne] at hs hads
  rcases List.mem_append.1 hads with hads | hads
  · have := (List.pairwise_append.1 hs).2.2 _ hads _ (List.mem_singleton_self _)
    rw [hb] at this
    dsimp only at this
    omega
  · have := List.mem_singleton.1 hads
    rw [hb] at this
    exact congrArg some (congrArg Prod.fst this).symm

/-! ### The owners of orderly rows -/

/-- An owner of orderly rows belongs to the group of its key. -/
theorem owner_of (h : Orderly l id anchored rows cs) (hid : id ≤ 2 ^ 64) (hp : p ∈ postsIn cs)
    (segment : ℕ) : p.member.Of ⟨1, segment, p.key.2, l.maxOffset⟩ := by
  obtain ⟨r, -, hr⟩ := exists_row h.content (mem_postsIn.1 hp)
  obtain ⟨-, -, -, hkey, -, hv, hinc, hblock⟩ := SortRecord.content_owner hr
  have hold := h.older.2 p hp
  rw [hkey]
  exact ⟨⟨rfl, hblock, hv.2⟩, Nat.pos_of_ne_zero hinc, Nat.lt_of_lt_of_le hold hid⟩

theorem validKey (h : Orderly l id anchored rows cs)
    (hterm : ∀ r ∈ rows, r.term = 0 ∨ Anchor.validTerm r.term) (hp : p ∈ postsIn cs) :
    PinCore.validKey p.key := by
  obtain ⟨r, hr, hrc⟩ := exists_row h.content (mem_postsIn.1 hp)
  exact SortRecord.validKey hrc (hterm r hr)

theorem length (h : Orderly l id anchored rows cs) : rows.length = cs.length := by
  simpa using congrArg List.length h.content

theorem length_add (h : Orderly l id anchored rows cs) :
    (postsIn cs).length + (suffixesIn cs).length = rows.length := by
  rw [h.length]
  clear h
  induction cs with
  | nil => rfl
  | cons c cs ih =>
    cases c with
    | suffix term a =>
      rw [postsIn_suffix, suffixesIn_suffix, List.length_cons, List.length_cons]
      omega
    | owner p => rw [postsIn_owner, suffixesIn_owner, List.length_cons, List.length_cons]; omega

end Orderly

theorem membersAt_ascending (h : ps.Pairwise Post.Lt) (key : ℕ × ℕ) :
    Ascending (membersAt ps key) := by
  refine List.pairwise_map.2 ((List.pairwise_filter.2 ?_))
  refine h.imp fun {p q} hlt hp hq => ?_
  have hp := of_decide_eq_true hp
  have hq := of_decide_eq_true hq
  rcases hlt with hlt | hlt
  · rw [hp, hq] at hlt
    exact absurd hlt (keyLt_irrefl key)
  · exact hlt.2

theorem membersAt_same : membersAt (ps ++ [p]) p.key = membersAt ps p.key ++ [p.member] := by
  rw [membersAt, List.filter_append, List.map_append]
  simp [membersAt]

theorem membersAt_other (h : key ≠ p.key) : membersAt (ps ++ [p]) key = membersAt ps key := by
  rw [membersAt, List.filter_append]
  simp [membersAt, Ne.symm h]

theorem mem_membersAt {x : Member} : x ∈ membersAt ps key ↔ ⟨key, x⟩ ∈ ps := by
  simp only [membersAt, List.mem_map, List.mem_filter, decide_eq_true_eq]
  constructor
  · rintro ⟨p, ⟨hp, rfl⟩, rfl⟩
    exact hp
  · exact fun h => ⟨_, ⟨h, rfl⟩, rfl⟩

/-- The keys of sorted owners do not go past that of the last. -/
theorem keys_le_last (h : ps.Pairwise Post.Lt) (hlast : ps.getLast? = some p) {q : Post}
    (hq : q ∈ ps) : keyLt q.key p.key ∨ q.key = p.key := by
  obtain ⟨front, rfl⟩ := List.getLast?_eq_some_iff.1 hlast
  rcases List.mem_append.1 hq with hq | hq
  · exact ((List.pairwise_append.1 h).2.2 q hq p (List.mem_singleton_self _)).key_le
  · exact .inr (by rw [List.mem_singleton.1 hq])

end

/-! ### Collecting a group -/

/-- Adds the offset of a root to the last page, or starts its page. -/
def addOffset (pages : List PageOffsets) (root : RootTid) : List PageOffsets :=
  match pages.getLast? with
  | some p =>
    if p.page = pageOf root.block then
      pages.dropLast ++ [⟨p.page, p.offsets ||| 2 ^ (root.offset - 1)⟩]
    else pages ++ [⟨pageOf root.block, 2 ^ (root.offset - 1)⟩]
  | none => [⟨pageOf root.block, 2 ^ (root.offset - 1)⟩]

/-- What was collected for a key so far are these owners. -/
structure Gathering (k : GroupKey) (key : ℕ × ℕ) (ms : List Member) (pages : List PageOffsets)
    (xs : List Member) : Prop where
  members : key.1 = 0 → ms = xs
  sorted : key.1 ≠ 0 → SortedPages pages
  of : key.1 ≠ 0 → ∀ p ∈ pages, p.Of k
  bits : key.1 ≠ 0 → ∀ page bit, (∃ p ∈ pages, p.page = page ∧ p.offsets.testBit bit = true) ↔
    ∃ x ∈ xs, x.root = ⟨k.base + page, bit + 1⟩

section

variable {k : GroupKey} {key : ℕ × ℕ} {ms xs : List Member} {pages : List PageOffsets} {x : Member}
  {root : RootTid}

theorem addOffset_cases :
    (∃ front p, pages = front ++ [p] ∧ p.page = pageOf root.block ∧
      addOffset pages root = front ++ [⟨p.page, p.offsets ||| 2 ^ (root.offset - 1)⟩]) ∨
    ((∀ p ∈ pages.getLast?, p.page ≠ pageOf root.block) ∧
      addOffset pages root = pages ++ [⟨pageOf root.block, 2 ^ (root.offset - 1)⟩]) := by
  rcases List.eq_nil_or_concat pages with rfl | ⟨front, p, rfl⟩
  · exact .inr ⟨by simp, rfl⟩
  · rw [List.concat_eq_append]
    by_cases hp : p.page = pageOf root.block
    · refine .inl ⟨front, p, rfl, hp, ?_⟩
      rw [addOffset, List.getLast?_concat]
      dsimp only
      rw [if_pos hp, List.dropLast_concat]
    · refine .inr ⟨by simpa using hp, ?_⟩
      rw [addOffset, List.getLast?_concat]
      exact if_neg hp

/-- One more offset is set. -/
theorem testBit_addOffset {page bit : ℕ} :
    (∃ p ∈ addOffset pages root, p.page = page ∧ p.offsets.testBit bit = true) ↔
      (∃ p ∈ pages, p.page = page ∧ p.offsets.testBit bit = true) ∨
        (page = pageOf root.block ∧ bit = root.offset - 1) := by
  rcases @addOffset_cases pages root with ⟨front, p, rfl, hp, hadd⟩ | ⟨-, hadd⟩
  · rw [hadd]
    simp only [List.mem_append, List.mem_singleton, or_and_right, exists_or, exists_eq_left,
      Nat.testBit_or, Bool.or_eq_true, Nat.testBit_two_pow, decide_eq_true_eq]
    rw [← hp]
    grind
  · rw [hadd]
    simp only [List.mem_append, List.mem_singleton, or_and_right, exists_or, exists_eq_left,
      Nat.testBit_two_pow, decide_eq_true_eq]
    grind

theorem addOffset_of (hof : ∀ p ∈ pages, p.Of k) (hr : RootTid.Of k root) :
    ∀ p ∈ addOffset pages root, p.Of k := by
  have hpage : pageOf root.block < 256 := Nat.mod_lt _ (by decide)
  have hblock : k.base + pageOf root.block ≠ noBlock := by
    rw [← hr.block_eq]
    exact Nat.ne_of_lt hr.block
  have hbit : root.offset - 1 < k.maxOffset := by
    have := hr.offset
    omega
  rcases @addOffset_cases pages root with ⟨front, p, rfl, hp, hadd⟩ | ⟨-, hadd⟩
  · rw [hadd]
    intro q hq
    rcases List.mem_append.1 hq with hq | hq
    · exact hof q (List.mem_append_left _ hq)
    · obtain rfl := List.mem_singleton.1 hq
      have hold := hof p (List.mem_append_right _ (List.mem_singleton_self _))
      exact ⟨hold.page, hold.block, by
        have := hold.pos
        exact fun hz => this (Nat.or_eq_zero_iff.1 hz).1,
        Nat.or_lt_two_pow hold.lt (Nat.pow_lt_pow_right (by decide) hbit)⟩
  · rw [hadd]
    intro q hq
    rcases List.mem_append.1 hq with hq | hq
    · exact hof q hq
    · obtain rfl := List.mem_singleton.1 hq
      exact ⟨hpage, hblock, Nat.ne_of_gt (Nat.two_pow_pos _),
        Nat.pow_lt_pow_right (by decide) hbit⟩

theorem RootTid.Of.eq_iff {page bit : ℕ} (h : RootTid.Of k root) :
    root = ⟨k.base + page, bit + 1⟩ ↔ page = pageOf root.block ∧ bit = root.offset - 1 := by
  have hb := h.block_eq
  have ho := h.offset.1
  constructor
  · rintro rfl
    dsimp only at hb ⊢
    omega
  · rintro ⟨rfl, rfl⟩
    rw [← hb, Nat.sub_add_cancel ho]

namespace Gathering

theorem nil : Gathering k key [] [] [] :=
  ⟨fun _ => rfl, fun _ => .nil, fun _ _ h => absurd h List.not_mem_nil, fun _ _ _ => by simp⟩

theorem member (h : Gathering k key ms pages xs) (h0 : key.1 = 0) :
    Gathering k key (ms ++ [x]) pages (xs ++ [x]) :=
  ⟨fun _ => by rw [h.members h0], fun hn => absurd h0 hn, fun hn => absurd h0 hn,
    fun hn => absurd h0 hn⟩

/-- A collected page has a collected owner. -/
theorem exists_owner (h : Gathering k key ms pages xs) (h0 : key.1 ≠ 0)
    {p : PageOffsets} (hp : p ∈ pages) : ∃ y ∈ xs, y.root.block = k.base + p.page := by
  obtain ⟨bit, hbit⟩ := Nat.exists_testBit_of_ne_zero (h.of h0 p hp).pos
  obtain ⟨y, hy, hroot⟩ := (h.bits h0 p.page bit).1 ⟨p, hp, rfl, hbit⟩
  exact ⟨y, hy, by rw [hroot]⟩

theorem offset (h : Gathering k key ms pages xs) (hv : k.Valid) (h0 : key.1 ≠ 0) (hx : x.Of k)
    (hlast : ∀ y ∈ xs, y.Of k ∧ rootKey y.root < rootKey x.root) :
    Gathering k key ms (addOffset pages x.root) (xs ++ [x]) := by
  refine ⟨fun hn => absurd hn h0, fun _ => ?_, fun _ => addOffset_of (h.of h0) hx.root,
    fun _ page bit => ?_⟩
  · rcases @addOffset_cases pages x.root with ⟨front, p, rfl, hp, hadd⟩ | ⟨hne, hadd⟩
    · -- the last page keeps its place
      rw [hadd]
      have hs := List.pairwise_append.1 (h.sorted h0)
      refine List.pairwise_append.2 ⟨hs.1, List.pairwise_singleton _ _, fun q hq q' hq' => ?_⟩
      rw [List.mem_singleton.1 hq']
      exact hs.2.2 q hq p (List.mem_singleton_self _)
    · rw [hadd]
      refine pairwise_concat Nat.lt_trans (h.sorted h0) fun p hp => ?_
      obtain ⟨y, hy, hblock⟩ := h.exists_owner h0 (List.mem_of_getLast? hp)
      obtain ⟨hyof, hlt⟩ := hlast y hy
      have hxb := hx.root.block_eq
      have hyo := hyof.root.offset.2
      have hxo := hx.root.offset.2
      have hmax := hv.maxOffset.2
      have hpne := hne p hp
      unfold rootKey at hlt
      dsimp only
      omega
  · rw [testBit_addOffset, h.bits h0, ← hx.root.eq_iff]
    simp only [List.mem_append, List.mem_singleton, or_and_right, exists_or, exists_eq_left]

/-- What was collected for a key can be sealed. -/
theorem gathered (h : Gathering k key ms pages xs) (hne : xs ≠ []) (hs : Ascending xs)
    (hof : ∀ x ∈ xs, x.Of k) : Gathered k key ms pages (xs.map Member.root) := by
  refine ⟨fun h0 => ?_, fun h0 => ?_⟩
  · rw [h.members h0]
    exact ⟨hne, hs, hof, rfl⟩
  · have hsorted := h.sorted h0
    refine ⟨?_, hsorted, h.of h0, fun page _ bit => ?_⟩
    · rintro rfl
      obtain ⟨x, xs', rfl⟩ := List.exists_cons_of_ne_nil hne
      have hx := hof x List.mem_cons_self
      obtain ⟨p, hp, -⟩ := (h.bits h0 (pageOf x.root.block) (x.root.offset - 1)).2
        ⟨x, List.mem_cons_self, hx.root.eq_iff.2 ⟨rfl, rfl⟩⟩
      cases hp
    · rw [List.mem_map, ← h.bits h0 page bit]
      constructor
      · intro hbit
        obtain ⟨p, hp, rfl⟩ := pageValue_page hbit
        rw [pageValue_of_mem hsorted hp] at hbit
        exact ⟨p, hp, rfl, hbit⟩
      · rintro ⟨p, hp, rfl, hbit⟩
        rw [pageValue_of_mem hsorted hp]
        exact hbit

end Gathering

end

end Grouped

end PinCore
