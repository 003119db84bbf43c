import PinCore.Grouped.Codec
import PinCore.Lib.LowerBound

/-!
# Membership records

An opened membership holds a list of owners, strictly ascending by root.  Searches over the record
are searches over that list, and a sorted list of owners is written and read back.
-/

namespace PinCore

namespace Grouped

/-- A root of the group. -/
structure RootTid.Of (key : GroupKey) (r : RootTid) : Prop where
  group : r.block - r.block % 256 = key.base
  block : r.block < noBlock
  offset : 0 < r.offset ∧ r.offset ≤ key.maxOffset

/-- An owner of the group. -/
structure Member.Of (key : GroupKey) (x : Member) : Prop where
  root : RootTid.Of key x.root
  incarnation : 0 < x.incarnation ∧ x.incarnation < 2 ^ 64

/-- Owners in strictly ascending order of their roots. -/
def Ascending (ms : List Member) : Prop := ms.Pairwise fun x y => rootKey x.root < rootKey y.root

/-- The page summary of a list of owners, over that of earlier ones. -/
def summary (mask : ℕ) (ms : List Member) : ℕ :=
  ms.foldl (fun mask x => insertPage mask (pageOf x.root.block)) mask

/-- Finds the single owner of a coordinate. -/
def Members.find (m : Members) (root : RootTid) : Except Error (Option Member) := do
  let index ← m.lowerBound (rootKey root) (m.len + 1) 0 m.len
  if index = m.len then .ok none
  else do
    let member ← m.get index
    .ok (if member.root = root then some member else none)

/-- The record of an opened membership holds these owners. -/
structure Members.Holds (m : Members) (ms : List Member) : Prop where
  valid : m.key.Valid
  header : m.header.InRange
  length : ms.length = m.len
  get : ∀ (j : ℕ) (x : Member), ms[j]? = some x → m.get j = .ok x
  sorted : Ascending ms
  of : ∀ x ∈ ms, x.Of m.key
  mask : m.header.mask = summary 0 ms

section

variable {key : GroupKey} {m : Members} {ms : List Member} {x : Member} {mask page i n r : ℕ}
  {bytes rest : List UInt8} {previous : Option RootTid} {root : RootTid}

/-! ### Page summaries -/

theorem testBit_insertPage : (insertPage mask i).testBit page = true ↔
    mask.testBit page = true ∨ i = page := by
  rw [insertPage, Nat.testBit_or, Nat.testBit_two_pow, Bool.or_eq_true, decide_eq_true_iff]

theorem testBit_summary : (summary mask ms).testBit page = true ↔
    mask.testBit page = true ∨ ∃ x ∈ ms, pageOf x.root.block = page := by
  induction ms generalizing mask with
  | nil => simp [summary]
  | cons x ms ih =>
    change (summary (insertPage mask (pageOf x.root.block)) ms).testBit page = true ↔ _
    rw [ih, testBit_insertPage, List.exists_mem_cons_iff, or_assoc]

theorem summary_lt (h : mask < 2 ^ 256) : summary mask ms < 2 ^ 256 := by
  refine Nat.lt_pow_two_of_testBit _ fun page hpage => Bool.eq_false_iff.2 fun hbit => ?_
  rcases testBit_summary.1 hbit with hbit | ⟨x, -, rfl⟩
  · exact absurd (testBit_lt h hbit) (Nat.not_lt.2 hpage)
  · have : pageOf x.root.block < 256 := Nat.mod_lt _ (by decide)
    omega

/-- The page of a root and its block determine each other. -/
theorem RootTid.Of.block_eq (h : RootTid.Of key root) :
    root.block = key.base + pageOf root.block := by
  have hg := h.group
  have hmod := Nat.mod_le root.block 256
  rw [pageOf]
  omega

theorem RootTid.Of.page_eq (h : RootTid.Of key root) (hv : key.Valid) (hp : page < 256) :
    pageOf root.block = page ↔ root.block = key.base + page := by
  have hb := h.block_eq
  have hbase := hv.base
  constructor
  · intro heq
    rw [hb, heq]
  · intro heq
    rw [pageOf, heq]
    omega

/-! ### The check of an opened record -/

theorem validateRoot_of {u : Unit} (h : validateRoot key root = .ok u) :
    root.block - root.block % 256 = key.base ∧ root.offset ≤ key.maxOffset := require_ok h

/-- The check over a list of owners. -/
theorem checkMembers_ok : checkMembers key previous mask ms = .ok r ↔
    (∀ x ∈ ms, x.root.block - x.root.block % 256 = key.base ∧ x.root.offset ≤ key.maxOffset) ∧
      (∀ p ∈ previous, ∀ x ∈ ms, rootKey p < rootKey x.root) ∧ Ascending ms ∧
        summary mask ms = r := by
  induction ms generalizing previous mask with
  | nil => simp [checkMembers, Ascending, summary]
  | cons x ms ih =>
    have hsum : summary mask (x :: ms) = summary (insertPage mask (pageOf x.root.block)) ms := rfl
    constructor
    · intro h
      obtain ⟨_, hroot, h⟩ := ok_of_bind h
      obtain ⟨_, hprev, h⟩ := ok_of_bind h
      obtain ⟨hall, hafter, hsorted, hr⟩ := ih.1 h
      have hprev := require_ok hprev
      refine ⟨List.forall_mem_cons.2 ⟨validateRoot_of hroot, hall⟩, fun p hp => ?_,
        List.pairwise_cons.2 ⟨hafter x.root rfl, hsorted⟩, hsum.trans hr⟩
      exact List.forall_mem_cons.2 ⟨hprev p hp, fun y hy =>
        Nat.lt_trans (hprev p hp) (hafter x.root rfl y hy)⟩
    · rintro ⟨hall, hafter, hsorted, hr⟩
      obtain ⟨hx, hall⟩ := List.forall_mem_cons.1 hall
      obtain ⟨hlt, hsorted⟩ := List.pairwise_cons.1 hsorted
      have hprev : ∀ p ∈ previous, rootKey p < rootKey x.root := fun p hp =>
        hafter p hp x List.mem_cons_self
      rw [checkMembers, validateRoot, require_of hx, ok_bind, require_of hprev, ok_bind]
      refine ih.2 ⟨hall, fun p hp => ?_, hsorted, hsum.symm.trans hr⟩
      cases hp
      exact hlt

/-- The check of the record is the check of the owners it holds. -/
theorem check_eq (hget : ∀ (j : ℕ) (x : Member), ms[j]? = some x → m.get (i + j) = .ok x) :
    m.check ms.length i previous mask = checkMembers m.key previous mask ms := by
  induction ms generalizing i previous mask with
  | nil => rfl
  | cons x ms ih =>
    have hx : m.get i = .ok x := hget 0 x rfl
    have hrest : ∀ (j : ℕ) (y : Member), ms[j]? = some y → m.get (i + 1 + j) = .ok y := by
      intro j y hy
      rw [Nat.add_assoc, Nat.add_comm 1]
      exact hget (j + 1) y (by simpa using hy)
    rw [List.length_cons, Members.check, hx, ok_bind]
    simp only [ih hrest]
    rfl

/-- A record that passes the check holds a list of owners. -/
theorem check_collect (h : m.check n i previous mask = .ok r) :
    ∃ ms : List Member, ms.length = n ∧
      ∀ (j : ℕ) (x : Member), ms[j]? = some x → m.get (i + j) = .ok x := by
  induction n generalizing i previous mask with
  | zero => exact ⟨[], rfl, fun j x hx => by simp at hx⟩
  | succ n ih =>
    obtain ⟨x, hx, h⟩ := ok_of_bind h
    obtain ⟨_, -, h⟩ := ok_of_bind h
    obtain ⟨_, -, h⟩ := ok_of_bind h
    obtain ⟨ms, hlen, hget⟩ := ih h
    refine ⟨x :: ms, by rw [List.length_cons, hlen], fun j y hy => ?_⟩
    cases j with
    | zero =>
      cases hy
      exact hx
    | succ j =>
      have := hget j y (by simpa using hy)
      rwa [Nat.add_assoc, Nat.add_comm 1] at this

/-- What the reader of one owner record checks. -/
theorem get_range (h : m.get i = .ok x) : x.root.block < noBlock ∧
    (0 < x.root.offset ∧ x.root.offset ≤ m.key.maxOffset) ∧
      0 < x.incarnation ∧ x.incarnation < 2 ^ 64 := by
  unfold Members.get at h
  obtain ⟨_, -, h⟩ := ok_of_bind h
  obtain ⟨_, -, h⟩ := ok_of_bind h
  obtain ⟨_, hroot, h⟩ := ok_of_bind h
  obtain ⟨_, hinc, h⟩ := ok_of_bind h
  obtain rfl := Except.ok.inj h
  obtain ⟨hblock, hpos, hle⟩ := require_ok hroot
  have hlt := leAt_lt m.bytes (72 + i * 16) 4
  have h64 := leAt_lt m.bytes (72 + i * 16 + 8) 8
  have hno : leAt m.bytes (72 + i * 16) 4 ≠ 4294967295 := hblock
  refine ⟨?_, ⟨Nat.pos_of_ne_zero hpos, hle⟩, Nat.pos_of_ne_zero (require_ok hinc), h64⟩
  change leAt m.bytes (72 + i * 16) 4 < 4294967295
  omega

/-- An opened record holds a sorted list of owners of its group. -/
theorem Members.openRecord_holds (ho : Members.openRecord bytes = .ok m) :
    m.bytes = bytes ∧ ∃ ms, m.Holds ms := by
  obtain ⟨h, hread, ho⟩ := ok_of_bind ho
  obtain ⟨_, hkind, ho⟩ := ok_of_bind ho
  obtain ⟨mask, hcheck, ho⟩ := ok_of_bind ho
  obtain ⟨_, hmask, ho⟩ := ok_of_bind ho
  obtain rfl := Except.ok.inj ho
  refine ⟨rfl, ?_⟩
  obtain ⟨ms, hlen, hget⟩ := check_collect hcheck
  simp only [Nat.zero_add] at hget
  rw [← hlen, check_eq (by simpa using hget)] at hcheck
  obtain ⟨hall, -, hsorted, hsum⟩ := checkMembers_ok.1 hcheck
  refine ⟨ms, Header.read_valid hread, Header.read_inRange hread, hlen, hget,
    hsorted, fun x hx => ?_, (require_ok hmask).symm.trans hsum.symm⟩
  obtain ⟨j, hj⟩ := List.mem_iff_getElem?.1 hx
  obtain ⟨hblock, hoffset, hinc⟩ := get_range (hget j x hj)
  exact ⟨⟨(hall x hx).1, hblock, hoffset⟩, hinc⟩

/-! ### Searching -/

/-- The binary search over the record is the search over the list. -/
theorem Members.Holds.lowerBound_eq (hm : m.Holds ms) {k fuel lo hi : ℕ} (hhi : hi ≤ ms.length) :
    m.lowerBound k fuel lo hi = Except.map Prod.fst (lowerBoundFrom (fun w : Unit => .ok w)
      (fun x : Member => decide (rootKey x.root < k)) ms fuel lo hi () :
        Except Error (ℕ × Unit)) := by
  induction fuel generalizing lo hi with
  | zero => rfl
  | succ fuel ih =>
    rw [Members.lowerBound, lowerBoundFrom]
    by_cases hlt : lo < hi
    · have hmid : lo + (hi - lo) / 2 < ms.length := by omega
      have hget := hm.get _ _ (List.getElem?_eq_getElem hmid)
      simp only [if_pos hlt, hget, ok_bind, List.getElem?_eq_getElem hmid, Option.any_some,
        decide_eq_true_eq]
      split_ifs
      · exact ih hhi
      · exact ih (Nat.le_of_lt hmid)
    · rw [if_neg hlt, if_neg hlt]
      rfl

/-- The owners before a key. -/
def before (k : ℕ) (x : Member) : Bool := rootKey x.root < k

theorem before_iff {k : ℕ} : before k x = true ↔ rootKey x.root < k := decide_eq_true_iff

theorem Ascending.before (hs : Ascending ms) (k : ℕ) :
    ms.Pairwise fun x y => before k y = true → before k x = true :=
  hs.imp fun hxy h => before_iff.2 (Nat.lt_trans hxy (before_iff.1 h))

/-- The search returns how many owners lie before a key. -/
theorem Members.Holds.lowerBound_ok (hm : m.Holds ms) (k : ℕ) :
    m.lowerBound k (m.len + 1) 0 m.len = .ok (ms.takeWhile (before k)).length := by
  obtain ⟨⟨i, w⟩, hi⟩ := @lowerBoundFrom_total Unit Error Member (fun w => .ok w) (before k) ms
    (fun w => ⟨w, rfl⟩) (ms.length + 1) 0 ms.length ()
  have hlen := lowerBoundFrom_pairwise (hm.sorted.before k) (Nat.le_add_right ms.length 1) hi
  rw [← hm.length, hm.lowerBound_eq (Nat.le_refl _)]
  change Except.map Prod.fst (lowerBoundFrom (fun w : Unit => .ok w) (before k) ms _ _ _ ()) = _
  rw [hi, ← hlen]
  rfl

/-- What lies at or past a key. -/
theorem mem_dropWhile_before (hs : Ascending ms) {k : ℕ} :
    x ∈ ms.dropWhile (before k) ↔ x ∈ ms ∧ k ≤ rootKey x.root := by
  constructor
  · intro hx
    refine ⟨(List.dropWhile_sublist _).subset hx, Nat.not_lt.1 fun hlt => ?_⟩
    have := dropWhile_after (hs.before k) x hx
    rw [before_iff.2 hlt] at this
    cases this
  · rintro ⟨hx, hk⟩
    rw [← List.takeWhile_append_dropWhile (p := before k) (l := ms), List.mem_append] at hx
    exact hx.resolve_left fun h =>
      absurd (before_iff.1 (List.mem_takeWhile_imp h)) (Nat.not_lt.2 hk)

/-- A lookup finds the owner of the coordinate, if there is one. -/
theorem Members.Holds.find_ok (hm : m.Holds ms) (root : RootTid) :
    ∃ o, m.find root = .ok o ∧ ∀ x, o = some x ↔ x ∈ ms ∧ x.root = root := by
  have hdrop : ∀ x, x.root = root → (x ∈ ms ↔ x ∈ ms.dropWhile (before (rootKey root))) := by
    rintro x rfl
    rw [mem_dropWhile_before hm.sorted]
    exact ⟨fun hx => ⟨hx, Nat.le_refl _⟩, And.left⟩
  have hhead := @getElem?_length_takeWhile Member (before (rootKey root)) ms
  rw [Members.find, hm.lowerBound_ok, ok_bind, ← hm.length]
  cases hd : ms.dropWhile (before (rootKey root)) with
  | nil =>
    rw [hd, List.head?_nil, List.getElem?_eq_none_iff] at hhead
    have hle := (List.takeWhile_sublist (before (rootKey root)) (l := ms)).length_le
    refine ⟨none, by rw [if_pos (Nat.le_antisymm hle hhead)], fun x => ?_⟩
    refine iff_of_false (fun h => by cases h) fun ⟨hx, hr⟩ => ?_
    have := (hdrop x hr).1 hx
    rw [hd] at this
    cases this
  | cons y rest =>
    rw [hd, List.head?_cons] at hhead
    have hlt := (List.getElem?_eq_some_iff.1 hhead).1
    rw [if_neg (Nat.ne_of_lt hlt), hm.get _ _ hhead, ok_bind]
    refine ⟨_, rfl, fun x => ?_⟩
    -- the first owner at or past the key is the only one that can have it
    have hfirst : x ∈ ms → x.root = root → y = x := by
      intro hx hr
      have hin := (hdrop x hr).1 hx
      have hsorted : Ascending (y :: rest) := hd ▸ hm.sorted.sublist (List.dropWhile_sublist _)
      have hy := (mem_dropWhile_before hm.sorted).1 (hd ▸ List.mem_cons_self :
        y ∈ ms.dropWhile (before (rootKey root)))
      rw [hd, List.mem_cons] at hin
      rcases hin with rfl | hin
      · rfl
      · have hyx := (List.pairwise_cons.1 hsorted).1 x hin
        rw [hr] at hyx
        omega
    constructor
    · intro h
      split_ifs at h with hroot
      cases h
      exact ⟨List.mem_of_getElem? hhead, hroot⟩
    · rintro ⟨hx, hr⟩
      obtain rfl := hfirst hx hr
      rw [if_pos hr]

theorem Members.Holds.find_eq (hm : m.Holds ms) (root : RootTid) :
    m.find root = .ok (ms.find? fun x => x.root = root) := by
  obtain ⟨o, ho, hfind⟩ := hm.find_ok root
  rw [ho]
  refine congrArg _ ?_
  cases hf : ms.find? fun x => x.root = root with
  | none =>
    refine Option.eq_none_iff_forall_ne_some.2 fun x hx => ?_
    obtain ⟨hmem, hroot⟩ := (hfind x).1 hx
    exact absurd hroot (by simpa using List.find?_eq_none.1 hf x hmem)
  | some y =>
    have hy := List.find?_some hf
    rw [decide_eq_true_iff] at hy
    exact (hfind y).2 ⟨List.mem_of_find?_eq_some hf, hy⟩

/-- The offsets of the owners from `index` on in one block. -/
theorem Members.Holds.offsetsFrom_ok (hm : m.Holds ms) {block index : ℕ} {l : List Member}
    (hl : ms.drop index = l) : ∃ all, m.offsetsFrom block l.length index mask = .ok all ∧
      ∀ bit, all.testBit bit = true ↔ mask.testBit bit = true ∨
        ∃ x ∈ l.takeWhile (fun x => decide (x.root.block = block)), x.root.offset = bit + 1 := by
  induction l generalizing index mask with
  | nil => exact ⟨mask, rfl, fun bit => by simp⟩
  | cons y l ih =>
    have hy : ms[index]? = some y := by rw [← List.head?_drop, hl, List.head?_cons]
    have hof := (hm.of y (List.mem_of_getElem? hy)).root.offset
    have hrest : ms.drop (index + 1) = l := by rw [← List.tail_drop, hl, List.tail_cons]
    rw [List.length_cons, Members.offsetsFrom, hm.get index y hy, ok_bind]
    by_cases hb : y.root.block = block
    · rw [if_neg (by rw [hb]; simp)]
      obtain ⟨all, hall, hbit⟩ := @ih (mask ||| 2 ^ (y.root.offset - 1)) _ hrest
      refine ⟨all, hall, fun bit => ?_⟩
      have hcons : (y :: l).takeWhile (fun x => decide (x.root.block = block)) =
          y :: l.takeWhile (fun x => decide (x.root.block = block)) :=
        List.takeWhile_cons_of_pos (by simpa using hb)
      rw [hbit, hcons, List.exists_mem_cons_iff, Nat.testBit_or, Nat.testBit_two_pow,
        Bool.or_eq_true, decide_eq_true_iff, or_assoc]
      refine or_congr_right (or_congr_left ?_)
      omega
    · rw [if_pos hb]
      have hnil : (y :: l).takeWhile (fun x => decide (x.root.block = block)) = [] :=
        List.takeWhile_cons_of_neg (by simpa using hb)
      exact ⟨mask, rfl, fun bit => by rw [hnil]; simp⟩

/-- The owners of one page, as a mask of offsets. -/
theorem Members.Holds.pageOffsets_ok (hm : m.Holds ms) (hblock : m.key.base + page ≠ noBlock) :
    ∃ all, m.pageOffsets page = .ok all ∧ ∀ bit, all.testBit bit = true ↔
      ∃ x ∈ ms, x.root = ⟨m.key.base + page, bit + 1⟩ := by
  obtain ⟨block, hb⟩ : ∃ block, block = m.key.base + page := ⟨_, rfl⟩
  rw [← hb] at hblock ⊢
  have hdrop := @drop_length_takeWhile Member (before (block * 65536)) ms
  obtain ⟨all, hall, hbit⟩ := @Members.Holds.offsetsFrom_ok m ms 0 hm block _ _ hdrop
  have hlen : m.len - (ms.takeWhile (before (block * 65536))).length =
      (ms.dropWhile (before (block * 65536))).length := by
    rw [← hdrop, List.length_drop, hm.length]
  refine ⟨all, ?_, fun bit => ?_⟩
  · rw [Members.pageOffsets, GroupKey.block, ← hb, if_neg hblock, ok_bind, hm.lowerBound_ok,
      ok_bind, hlen, hall]
  · have hoff : ∀ x ∈ ms, x.root.offset < 65536 := by
      intro x hx
      have h₁ := (hm.of x hx).root.offset.2
      have h₂ := hm.valid.maxOffset.2
      omega
    -- at or past the first key of the block, the owners of the block come first
    have hfirst : (ms.dropWhile (before (block * 65536))).Pairwise fun x y =>
        decide (y.root.block = block) = true → decide (x.root.block = block) = true := by
      refine (hm.sorted.sublist (List.dropWhile_sublist _)).imp_of_mem fun {x y} hx hy hxy h => ?_
      rw [decide_eq_true_iff] at h ⊢
      obtain ⟨hx, hk⟩ := (mem_dropWhile_before hm.sorted).1 hx
      have hy := hoff y ((mem_dropWhile_before hm.sorted).1 hy).1
      have hx := hoff x hx
      rw [rootKey] at hk
      rw [rootKey, rootKey, h] at hxy
      omega
    rw [hbit, Nat.zero_testBit]
    simp only [Bool.false_eq_true, false_or]
    refine exists_congr fun x => ?_
    rw [mem_takeWhile_of_pairwise hfirst, mem_dropWhile_before hm.sorted, decide_eq_true_iff]
    constructor
    · rintro ⟨⟨⟨hx, -⟩, hxb⟩, hxo⟩
      refine ⟨hx, ?_⟩
      cases hr : x.root
      rw [hr] at hxb hxo
      exact RootTid.mk.injEq .. ▸ ⟨hxb, hxo⟩
    · rintro ⟨hx, hr⟩
      rw [hr]
      refine ⟨⟨⟨hx, ?_⟩, rfl⟩, rfl⟩
      rw [rootKey]
      exact Nat.le_add_right _ _

end

/-! ### Writing -/

/-- The bytes of one owner record. -/
def memberBytes (x : Member) : List UInt8 :=
  leBytes 4 x.root.block ++ (leBytes 2 x.root.offset ++ (leBytes 2 0 ++ leBytes 8 x.incarnation))

/-- Writes a member. -/
def writeMember (x : Member) : Writer.Emit := do
  Writer.le 4 x.root.block
  Writer.le 2 x.root.offset
  Writer.le 2 0
  Writer.le 8 x.incarnation

/-- Writes the members in order. -/
def writeMembers : List Member → Writer.Emit
  | [] => pure ⟨⟩
  | x :: rest => do
    writeMember x
    writeMembers rest

/-- The checks of `encode_members`, and the page summary they find. -/
def memberSummary (key : GroupKey) (members : List Member) (room : ℕ) : Except Error ℕ := do
  require (members.length ≤ 256 * key.maxOffset) (.limit "group members")
  require (72 + members.length * 16 ≤ room) (.limit "group membership output")
  checkMembers key none 0 members

/-- Encodes a complete, sorted membership into a buffer of the caller; returns the length of the
record and the buffer after the call.  (`encode_members` in the source.) -/
def encodeMembersInto (key : GroupKey) (members : List Member) (output : List UInt8) :
    Except Error ℕ × List UInt8 :=
  match memberSummary key members output.length with
  | .error e => (.error e, output)
  | .ok mask =>
    Writer.into output (72 + members.length * 16) do
      Header.write ⟨key, 3, members.length, mask⟩ (72 + members.length * 16)
      writeMembers members

/-- The header of a list of owners. -/
def membersHeader (key : GroupKey) (ms : List Member) : Header := ⟨key, 3, ms.length, summary 0 ms⟩

/-- The record of a list of owners. -/
def membersImage (key : GroupKey) (ms : List Member) : List UInt8 :=
  (membersHeader key ms).bytes (72 + ms.length * 16) ++ ms.flatMap memberBytes

/-- The opened record. -/
def imageMembers (key : GroupKey) (ms : List Member) : Members :=
  ⟨membersImage key ms, membersHeader key ms⟩

section

variable {key : GroupKey} {m : Members} {ms : List Member} {x : Member} {i page lo hi : ℕ}
  {output : List UInt8}

theorem length_memberBytes : (memberBytes x).length = 16 := by
  simp [memberBytes, Reader.length_leBytes]

theorem length_flatMap_memberBytes : (ms.flatMap memberBytes).length = ms.length * 16 :=
  length_flatMap_const (fun _ => length_memberBytes) ms

theorem drop_flatMap_memberBytes :
    (ms.flatMap memberBytes).drop (i * 16) = (ms.drop i).flatMap memberBytes :=
  drop_flatMap_const (fun _ => length_memberBytes) ms i

theorem length_membersImage : (membersImage key ms).length = 72 + ms.length * 16 := by
  rw [membersImage, List.length_append, Header.length_bytes, length_flatMap_memberBytes]

theorem writeMembers_writes : Writer.Writes (writeMembers ms) (ms.flatMap memberBytes) := by
  induction ms with
  | nil => exact Writer.Writes.nil
  | cons x ms ih =>
    have hx : Writer.Writes (writeMember x) (memberBytes x) :=
      Writer.Writes.le.bind (Writer.Writes.le.bind (Writer.Writes.le.bind Writer.Writes.le))
    exact hx.bind ih

/-- Numbers in ascending order between two bounds are at most as many as lie between them. -/
theorem length_le_of_ascending {l : List ℕ} (hl : l.Pairwise (· < ·))
    (h : ∀ a ∈ l, lo ≤ a ∧ a < hi) (hlh : lo ≤ hi) : l.length ≤ hi - lo := by
  induction l generalizing lo with
  | nil => exact Nat.zero_le _
  | cons a l ih =>
    obtain ⟨ha, hl⟩ := List.pairwise_cons.1 hl
    obtain ⟨h₁, h₂⟩ := h a List.mem_cons_self
    have := ih hl (fun b hb => ⟨ha b hb, (h b (List.mem_cons_of_mem _ hb)).2⟩) h₂
    rw [List.length_cons]
    omega

/-- A group has at most one owner for each of its coordinates. -/
theorem Ascending.length_le (hs : Ascending ms) (hv : key.Valid) (hof : ∀ x ∈ ms, x.Of key) :
    ms.length ≤ 256 * key.maxOffset := by
  have hplace : (ms.map fun x => pageOf x.root.block * key.maxOffset + (x.root.offset - 1)).Pairwise
      (· < ·) := by
    rw [List.pairwise_map]
    refine hs.imp_of_mem fun {x y} hx hy hxy => ?_
    have hx' := (hof x hx).root
    have hy' := (hof y hy).root
    have hbx := hx'.block_eq
    have hby := hy'.block_eq
    have h₁ := hx'.offset
    have h₂ := hy'.offset
    have hmax := hv.maxOffset.2
    rw [rootKey, rootKey] at hxy
    by_cases heq : pageOf x.root.block = pageOf y.root.block
    · rw [heq]
      omega
    · have hlt : pageOf x.root.block + 1 ≤ pageOf y.root.block := by omega
      have := Nat.mul_le_mul_right key.maxOffset hlt
      rw [Nat.succ_mul] at this
      omega
  have hbound := @length_le_of_ascending 0 (256 * key.maxOffset) _ hplace (fun a ha => by
    obtain ⟨x, hx, rfl⟩ := List.mem_map.1 ha
    have h₁ := (hof x hx).root.offset
    have hpage : pageOf x.root.block + 1 ≤ 256 := Nat.mod_lt _ (by decide)
    have := Nat.mul_le_mul_right key.maxOffset hpage
    rw [Nat.succ_mul] at this
    exact ⟨Nat.zero_le _, by omega⟩) (Nat.zero_le _)
  rwa [List.length_map, Nat.sub_zero] at hbound

theorem membersHeader_writable (hv : key.Valid) (hof : ∀ x ∈ ms, x.Of key)
    (hcount : ms.length ≤ 256 * key.maxOffset) : (membersHeader key ms).Writable where
  key := hv
  kind := .inr (.inr rfl)
  count := by
    have := hv.maxOffset.2
    change ms.length < 2 ^ 32
    omega
  mask := summary_lt (by decide)
  last := by
    rintro ⟨hbase, hbit⟩
    rcases testBit_summary.1 hbit with hbit | ⟨x, hx, hpage⟩
    · rw [Nat.zero_testBit] at hbit
      cases hbit
    · have hroot := (hof x hx).root
      have hblock := hroot.block_eq
      have hlt := hroot.block
      rw [hpage] at hblock
      change key.base = 4294967040 at hbase
      rw [noBlock] at hlt
      omega

/-- The fields of one owner record are read back. -/
theorem get_image (hv : key.Valid) (hx : ms[i]? = some x) (hof : x.Of key) :
    (imageMembers key ms).get i = .ok x := by
  obtain ⟨hlt, hget⟩ := List.getElem?_eq_some_iff.1 hx
  have hdrop : (membersImage key ms).drop (72 + i * 16) =
      memberBytes x ++ (ms.drop (i + 1)).flatMap memberBytes := by
    rw [membersImage, ← List.drop_drop, List.drop_left' Header.length_bytes,
      drop_flatMap_memberBytes, List.drop_eq_getElem_cons hlt, hget, List.flatMap_cons]
  have hblock := hof.root.block
  have hoffset := hof.root.offset
  have hinc := hof.incarnation
  have hmax := hv.maxOffset.2
  rw [noBlock] at hblock
  simp only [memberBytes, List.append_assoc] at hdrop
  obtain ⟨e₁, h₁⟩ := leAt_of_drop hdrop (by omega)
  obtain ⟨e₂, h₂⟩ := leAt_of_drop h₁ (by omega)
  obtain ⟨e₃, h₃⟩ := leAt_of_drop h₂ (by decide)
  obtain ⟨e₄, -⟩ := leAt_of_drop h₃ (by omega)
  simp only [Nat.add_assoc, Nat.reduceAdd] at e₁ e₂ e₃ e₄
  have hroot : x.root.block ≠ noBlock ∧ x.root.offset ≠ 0 ∧ x.root.offset ≤ key.maxOffset := by
    rw [noBlock]
    omega
  have hnz : x.incarnation ≠ 0 := by omega
  have hindex : i < (imageMembers key ms).len := hlt
  rw [Members.get, require_of hindex, ok_bind]
  simp only [imageMembers, Nat.add_assoc, Members.key, membersHeader, e₁, e₂, e₃, e₄,
    require_of True.intro, require_of hroot, require_of hnz, ok_bind]

/-- What is encoded opens as the same membership. -/
theorem openRecord_membersImage (hv : key.Valid) (hs : Ascending ms) (hof : ∀ x ∈ ms, x.Of key) :
    Members.openRecord (membersImage key ms) = .ok (imageMembers key ms) ∧
      (imageMembers key ms).Holds ms := by
  have hcount := hs.length_le hv hof
  have hmax := hv.maxOffset.2
  have hread : Header.read (membersImage key ms) = .ok (membersHeader key ms) :=
    Header.read_bytes (membersHeader_writable hv hof hcount) length_membersImage
      (by rw [u32Limit]; omega) rfl
  have hget : ∀ (j : ℕ) (x : Member), ms[j]? = some x → (imageMembers key ms).get j = .ok x :=
    fun j x hx => get_image hv hx (hof x (List.mem_of_getElem? hx))
  have hcheck : (imageMembers key ms).check ms.length 0 none 0 = .ok (summary 0 ms) := by
    rw [check_eq (by simpa using hget)]
    refine checkMembers_ok.2 ⟨fun x hx => ?_, fun _ h => absurd h (Option.not_mem_none _),
      hs, rfl⟩
    exact ⟨(hof x hx).root.group, (hof x hx).root.offset.2⟩
  refine ⟨?_, hv, Header.read_inRange hread, rfl, hget, hs, hof, rfl⟩
  have hfits : (membersHeader key ms).kind = 3 ∧ (membersHeader key ms).count ≤
      256 * (membersHeader key ms).key.maxOffset ∧
      (membersImage key ms).length = 72 + (membersHeader key ms).count * 16 :=
    ⟨rfl, hcount, length_membersImage⟩
  rw [Members.openRecord, hread, ok_bind, require_of hfits, ok_bind]
  change ((imageMembers key ms).check ms.length 0 none 0 >>= fun mask => do
    require (mask = summary 0 ms) .invalidState
    .ok (imageMembers key ms)) = _
  rw [hcheck, ok_bind, require_of rfl, ok_bind]

/-- Encoding checks the order, the group and the room, and writes the record if they are right. -/
theorem encodeMembersInto_eq (hv : key.Valid) : encodeMembersInto key ms output =
    match memberSummary key ms output.length with
    | .error e => (.error e, output)
    | .ok _ => (.ok (72 + ms.length * 16),
        membersImage key ms ++ output.drop (72 + ms.length * 16)) := by
  unfold encodeMembersInto
  cases hsum : memberSummary key ms output.length with
  | error e => rfl
  | ok mask =>
    obtain ⟨_, hcount, hsum⟩ := ok_of_bind hsum
    obtain ⟨_, -, hsum⟩ := ok_of_bind hsum
    obtain ⟨-, -, -, rfl⟩ := checkMembers_ok.1 hsum
    have hcount := require_ok hcount
    have hmax := hv.maxOffset.2
    have hwrites : Writer.Writes (do
        Header.write (membersHeader key ms) (72 + ms.length * 16)
        writeMembers ms) (membersImage key ms) :=
      (Header.write_writes (by rw [u32Limit]; omega)).bind writeMembers_writes
    have hinto := hwrites.into (by rw [length_membersImage, usizeLimit]; omega) output
    rw [length_membersImage] at hinto
    exact hinto

theorem memberSummary_ok (hv : key.Valid) (hs : Ascending ms) (hof : ∀ x ∈ ms, x.Of key)
    (hroom : 72 + ms.length * 16 ≤ output.length) :
    memberSummary key ms output.length = .ok (summary 0 ms) := by
  rw [memberSummary, require_of (hs.length_le hv hof), ok_bind, require_of hroom, ok_bind]
  refine checkMembers_ok.2 ⟨fun x hx => ?_, nofun, hs, rfl⟩
  exact ⟨(hof x hx).root.group, (hof x hx).root.offset.2⟩

end

end Grouped

end PinCore
