import PinCore.Grouped.Liveness

/-!
# Retirement

`Members.retire` clears one owner in a private liveness image, `retireRootsInto` all roots that a
callback of the host approves.  Over any sequence of such calls the image stays a liveness image of
its membership whose live roots are those not retired so far.
-/

namespace PinCore

namespace Grouped

/-- Where `Members.retire` clears a bit: byte and bit in the byte. -/
def retirePosition (m : Members) (live : List UInt8) (x : Member) : Except Error (ℕ × ℕ) := do
  let found ← m.find x.root
  require (found = some x) .invalidState
  let view ← Bitmap.openRecord live
  require (view.kind = .liveness ∧ view.key = m.key ∧ view.mask = m.header.mask) .invalidState
  let current ← view.offsets (pageOf x.root.block)
  let all ← m.pageOffsets (pageOf x.root.block)
  require (Nat.ldiff current all = 0) .invalidState
  match view.span (pageOf x.root.block) with
  | none => .error .invalidState
  | some (start, len) => do
    let width ← bitmapLen m.key all
    require (len = width) .invalidState
    .ok (start + (x.root.offset - 1) / 8, (x.root.offset - 1) % 8)

/-- Clears one matching incarnation; returns whether the bit was set, and the image after the
call. -/
def Members.retire (m : Members) (live : List UInt8) (x : Member) :
    Except Error Bool × List UInt8 :=
  match retirePosition m live x with
  | .error e => (.error e, live)
  | .ok position => (.ok ((leAt live position.1 1).testBit position.2), clearBit live position)

/-- A callback of the host; its answer may depend on what it was asked before. -/
abbrev Removable := List RootTid → RootTid → Except Error Bool

/-- The bits of one page to clear. -/
def clearBits (key : GroupKey) (removable : Removable) (page start : ℕ) :
    List RootTid → List ℕ → Except Error (List (ℕ × ℕ))
  | _, [] => .ok []
  | asked, bit :: rest => do
    let block ← key.block page
    require (bit + 1 ≤ key.maxOffset) .invalidState
    let yes ← removable asked ⟨block, bit + 1⟩
    let more ← clearBits key removable page start (asked ++ [⟨block, bit + 1⟩]) rest
    .ok (if yes then (start + bit / 8, bit % 8) :: more else more)

/-- The bits to clear, page by page. -/
def clearAll (b : Bitmap) (removable : Removable) :
    List RootTid → List ℕ → Except Error (List (ℕ × ℕ))
  | _, [] => .ok []
  | asked, page :: rest => do
    let offsets ← b.offsets page
    match b.span page with
    | none => .error .invalidState
    | some (start, _) => do
      let first ← clearBits b.key removable page start asked (setBits offsets 512)
      let more ← clearAll b removable
        (asked ++ (setBits offsets 512).map fun bit => ⟨b.key.base + page, bit + 1⟩) rest
      .ok (first ++ more)

/-- The bits of an image that `retire_roots` clears. -/
def retirePositions (live : List UInt8) (key : GroupKey) (removable : Removable) :
    Except Error (List (ℕ × ℕ)) := do
  let b ← Bitmap.openRecord live
  if b.kind ≠ .liveness ∨ b.key ≠ key then .error .invalidState
  else clearAll b removable [] (setBits b.mask 256)

/-- Clears all approved roots in one exact generation's private image; returns their number, and
the image after the call.  (`retire_roots` in the source.) -/
def retireRootsInto (live : List UInt8) (key : GroupKey) (removable : Removable) :
    Except Error ℕ × List UInt8 :=
  match retirePositions live key removable with
  | .error e => (.error e, live)
  | .ok positions => (.ok positions.length, positions.foldl clearBit live)

/-! ### What retirement is for -/

/-- One call of a host. -/
inductive RetireCall where
  | one (x : Member)
  | roots (key : GroupKey) (removable : Removable)

/-- What a successful call returns. -/
inductive Retired where
  | one (changed : Bool)
  | roots (removed : ℕ)
  deriving DecidableEq, Repr

/-- The call on an image. -/
def RetireCall.run (m : Members) (live : List UInt8) :
    RetireCall → Except Error Retired × List UInt8
  | one x => ((m.retire live x).1.map Retired.one, (m.retire live x).2)
  | roots key removable =>
    ((retireRootsInto live key removable).1.map Retired.roots,
      (retireRootsInto live key removable).2)

/-- The roots that a callback approves, asked one after the other. -/
def approve (removable : Removable) : List RootTid → List RootTid → Except Error (List RootTid)
  | _, [] => .ok []
  | asked, root :: rest => do
    let yes ← removable asked root
    let more ← approve removable (asked ++ [root]) rest
    .ok (if yes then root :: more else more)

/-- The roots of the owners that are not retired. -/
def remaining (ms : List Member) (retired : List RootTid) : List RootTid :=
  (ms.map Member.root).filter fun root => root ∉ retired

/-- The call on the set of retired roots: an owner is removed if it is still there, and a callback
decides about what remains. -/
def RetireCall.ideal (key : GroupKey) (ms : List Member) (retired : List RootTid) :
    RetireCall → Except Error Retired × List RootTid
  | one x =>
    if x ∈ ms then (.ok (.one (x.root ∉ retired)), x.root :: retired)
    else (.error .invalidState, retired)
  | roots k removable =>
    if k ≠ key then (.error .invalidState, retired)
    else
      match approve removable [] (remaining ms retired) with
      | .error e => (.error e, retired)
      | .ok gone => (.ok (.roots gone.length), gone ++ retired)

/-- A sequence of calls on an image. -/
def runCalls (m : Members) : List UInt8 → List RetireCall → List (Except Error Retired) × List UInt8
  | live, [] => ([], live)
  | live, call :: rest =>
    let (results, last) := runCalls m (call.run m live).2 rest
    ((call.run m live).1 :: results, last)

/-- A sequence of calls on the set of retired roots. -/
def idealCalls (key : GroupKey) (ms : List Member) :
    List RootTid → List RetireCall → List (Except Error Retired) × List RootTid
  | retired, [] => ([], retired)
  | retired, call :: rest =>
    let (results, last) := idealCalls key ms (call.ideal key ms retired).2 rest
    ((call.ideal key ms retired).1 :: results, last)

/-! ### Clearing a bit of a record -/

section

variable {bytes front rest : List UInt8} {v w bit n page : ℕ}

theorem modify_append_left {α : Type} {g : α → α} {l r : List α} (h : n < l.length) :
    (l ++ r).modify n g = l.modify n g ++ r := by
  induction l generalizing n with
  | nil => exact absurd h (Nat.not_lt_zero _)
  | cons a l ih =>
    cases n with
    | zero => rfl
    | succ n =>
      rw [List.cons_append, List.modify_succ_cons, List.modify_succ_cons, List.cons_append,
        ih (Nat.lt_of_succ_lt_succ h)]

theorem modify_append_right {α : Type} {g : α → α} {l r : List α} :
    (l ++ r).modify (l.length + n) g = l ++ r.modify n g := by
  induction l with
  | nil => rw [List.length_nil, Nat.zero_add, List.nil_append, List.nil_append]
  | cons a l ih =>
    rw [List.length_cons, Nat.add_right_comm, List.cons_append, List.modify_succ_cons, ih,
      List.cons_append]

theorem clearBit_append (hbit : bit / 8 < w) :
    clearBit (front ++ (leBytes w v ++ rest)) (front.length + bit / 8, bit % 8) =
      front ++ (clearBit (leBytes w v) (bit / 8, bit % 8) ++ rest) := by
  rw [clearBit, modify_append_right, modify_append_left (by rwa [Reader.length_leBytes]), clearBit]

/-- Clearing a bit of the little-endian bytes of a number clears it in the number. -/
theorem clearBit_leBytes (hbit : bit < 8 * w) :
    clearBit (leBytes w v) (bit / 8, bit % 8) = leBytes w (dropBit v bit) := by
  induction w generalizing v bit with
  | zero => exact absurd hbit (Nat.not_lt_zero _)
  | succ w ih =>
    rw [leBytes, leBytes]
    by_cases hlow : bit < 8
    · -- the bit lies in the first byte
      have hset : (v % 256).testBit bit = v.testBit bit := by
        rw [show 256 = 2 ^ 8 from rfl, Nat.testBit_mod_two_pow, decide_eq_true hlow, Bool.true_and]
      rw [clearBit, Nat.div_eq_of_lt hlow, Nat.mod_eq_of_lt hlow, List.modify_zero_cons,
        Reader.toNat_byte, hset, dropBit]
      by_cases hv : v.testBit bit = true
      · rw [if_pos hv, if_pos hv]
        have hle := Nat.ge_two_pow_of_testBit (hset.trans hv)
        have hpos := Nat.two_pow_pos bit
        have hmod : (v - 2 ^ bit) % 256 = v % 256 - 2 ^ bit := by omega
        have hdiv : (v - 2 ^ bit) / 256 = v / 256 := by omega
        rw [hmod, hdiv]
      · rw [if_neg hv, if_neg hv]
    · obtain ⟨k, rfl⟩ := Nat.exists_eq_add_of_le (Nat.le_of_not_lt hlow)
      have hset : (v / 256).testBit k = v.testBit (8 + k) := by
        rw [show 256 = 2 ^ 8 from rfl, Nat.testBit_div_two_pow, Nat.add_comm]
      have hrest := @ih (v / 256) k (by omega)
      rw [clearBit] at hrest
      rw [clearBit, show (8 + k) / 8 = k / 8 + 1 by omega, show (8 + k) % 8 = k % 8 by omega,
        List.modify_succ_cons, hrest, dropBit, dropBit, hset]
      by_cases hv : v.testBit (8 + k) = true
      · rw [if_pos hv, if_pos hv]
        have hle := Nat.ge_two_pow_of_testBit hv
        rw [Nat.pow_add] at hle ⊢
        have hmod : (v - 2 ^ 8 * 2 ^ k) % 256 = v % 256 := by omega
        have hdiv : (v - 2 ^ 8 * 2 ^ k) / 256 = v / 256 - 2 ^ k := by omega
        rw [hmod, hdiv]
      · rw [if_neg hv, if_neg hv]

/-- One byte of the little-endian bytes of a number. -/
theorem testBit_byte (h : bytes = front ++ (leBytes w v ++ rest)) (hbit : bit < 8 * w) :
    (leAt bytes (front.length + bit / 8) 1).testBit (bit % 8) = v.testBit bit := by
  have hbyte : v / 256 ^ (bit / 8) % 256 < 256 ^ 1 := Nat.mod_lt _ (by decide)
  have hone : leBytes 1 (v / 256 ^ (bit / 8)) = leBytes 1 (v / 256 ^ (bit / 8) % 256) := by
    change [_] = [(v / 256 ^ (bit / 8) % 256 % 256).toUInt8]
    rw [Nat.mod_mod]
  have hdrop : bytes.drop (front.length + bit / 8) = leBytes 1 (v / 256 ^ (bit / 8) % 256) ++
      (leBytes (w - bit / 8 - 1) (v / 256 ^ (bit / 8) / 256 ^ 1) ++ rest) := by
    have hw : w = bit / 8 + (1 + (w - bit / 8 - 1)) := by omega
    rw [h, ← List.drop_drop, List.drop_left' rfl]
    conv_lhs => rw [hw]
    rw [leBytes_add, leBytes_add 1, ← hone, List.append_assoc,
      List.drop_left' Reader.length_leBytes, List.append_assoc]
  rw [(leAt_of_drop hdrop hbyte).1]
  rw [show (256 : ℕ) = 2 ^ 8 from rfl, ← Nat.pow_mul, Nat.testBit_mod_two_pow,
    Nat.testBit_div_two_pow, decide_eq_true (Nat.mod_lt _ (by decide)), Bool.true_and,
    Nat.add_comm, Nat.div_add_mod]

end

/-! ### Clearing roots in a liveness image -/

/-- Byte and bit of a root in the record of a membership. -/
def Members.position (m : Members) (root : RootTid) : ℕ × ℕ :=
  (payloadStart m.header.mask (widths m.all) (pageOf root.block) + (root.offset - 1) / 8,
    (root.offset - 1) % 8)

/-- The live offsets without one root. -/
def dropRoot (f : ℕ → ℕ) (root : RootTid) : ℕ → ℕ :=
  Function.update f (pageOf root.block) (dropBit (f (pageOf root.block)) (root.offset - 1))

section

variable {m : Members} {ms : List Member} {f : ℕ → ℕ} {page bit start mask : ℕ} {root : RootTid}
  {x : Member} {live : List UInt8} {key : GroupKey} {removable : Removable}
  {asked gone roots retired : List RootTid} {w f' : ℕ → ℕ} {ps : List ℕ}

/-- A root of the membership has a place in the record. -/
theorem Members.Holds.place (hm : m.Holds ms) (hx : x ∈ ms) :
    pageOf x.root.block ∈ setBits m.header.mask 256 ∧
      x.root = ⟨m.key.base + pageOf x.root.block, x.root.offset - 1 + 1⟩ ∧
      (m.all (pageOf x.root.block)).testBit (x.root.offset - 1) = true ∧
      x.root.offset - 1 < 8 * widths m.all (pageOf x.root.block) := by
  have hof := (hm.of x hx).root
  have hpage : pageOf x.root.block ∈ setBits m.header.mask 256 :=
    mem_setBits.2 ⟨Nat.mod_lt _ (by decide), hm.testBit_mask.2 ⟨x, hx, rfl⟩⟩
  have hroot : x.root = ⟨m.key.base + pageOf x.root.block, x.root.offset - 1 + 1⟩ := by
    rw [← hof.block_eq, Nat.sub_add_cancel hof.offset.1]
  have hbit : (m.all (pageOf x.root.block)).testBit (x.root.offset - 1) = true :=
    ((hm.pageOffsets_all (hm.block hpage)).2 _).2 ⟨x, hx, hroot⟩
  refine ⟨hpage, hroot, hbit, testBit_lt ?_ hbit⟩
  rw [Nat.pow_mul]
  exact lt_payloadLen

theorem offsetBytes_congr (h : ∀ page ∈ ps, f page = f' page) :
    offsetBytes w f ps = offsetBytes w f' ps := by
  rw [offsetBytes, offsetBytes, List.flatMap, List.flatMap]
  exact congrArg List.flatten (List.map_congr_left fun page hp => by rw [h page hp])

/-- Clearing the bit of a root gives the record without that root. -/
theorem clearBit_position (hm : m.Holds ms) (hx : x ∈ ms) :
    clearBit (m.liveness f).bytes (m.position x.root) = (m.liveness (dropRoot f x.root)).bytes ∧
      (leAt (m.liveness f).bytes (m.position x.root).1 1).testBit (m.position x.root).2 =
        (f (pageOf x.root.block)).testBit (x.root.offset - 1) := by
  obtain ⟨hp, -, -, hlt⟩ := hm.place hx
  obtain ⟨hpage, hbit⟩ := mem_setBits.1 hp
  obtain ⟨front, more, himage, hlen, hsplit, hfront⟩ :=
    @bitmapImage_split m.key .liveness (widths m.all) f m.header.mask _ hbit hpage
  obtain ⟨front', more', himage', -, hsplit', hfront'⟩ :=
    @bitmapImage_split m.key .liveness (widths m.all) (dropRoot f x.root) m.header.mask _ hbit hpage
  obtain rfl : more = more' := by
    rw [hsplit, List.append_cancel_left_eq, List.cons.injEq] at hsplit'
    exact hsplit'.2
  have hsorted : (setBits m.header.mask (pageOf x.root.block) ++
      pageOf x.root.block :: more).Pairwise (· < ·) := hsplit ▸ setBits_sorted
  -- the pages before and behind keep their offsets
  have hbefore : front = front' := by
    rw [hfront, hfront', offsetBytes_congr fun page hpage => ?_]
    rw [dropRoot, Function.update_of_ne (Nat.ne_of_lt (mem_setBits.1 hpage).1)]
  have hbehind : offsetBytes (widths m.all) f more =
      offsetBytes (widths m.all) (dropRoot f x.root) more := by
    refine offsetBytes_congr fun page hpage => ?_
    have hlt := (List.pairwise_cons.1 (List.pairwise_append.1 hsorted).2.1).1 page hpage
    rw [dropRoot, Function.update_of_ne (Nat.ne_of_gt hlt)]
  have hself : dropRoot f x.root (pageOf x.root.block) =
      dropBit (f (pageOf x.root.block)) (x.root.offset - 1) := Function.update_self ..
  change clearBit (bitmapImage m.key .liveness m.header.mask (widths m.all) f) _ =
    bitmapImage m.key .liveness m.header.mask (widths m.all) (dropRoot f x.root) ∧
    (leAt (bitmapImage m.key .liveness m.header.mask (widths m.all) f) _ 1).testBit _ = _
  rw [Members.position, ← hlen]
  refine ⟨?_, testBit_byte himage hlt⟩
  rw [himage, clearBit_append (by omega), clearBit_leBytes hlt, himage', ← hbefore, ← hbehind,
    hself]

theorem Within.dropRoot (hf : Within m f) (root : RootTid) : Within m (dropRoot f root) := by
  intro page hp bit hbit
  refine hf page hp bit ?_
  by_cases hpage : page = pageOf root.block
  · subst hpage
    rw [Grouped.dropRoot, Function.update_self, testBit_dropBit, Bool.and_eq_true] at hbit
    exact hbit.1
  · rwa [Grouped.dropRoot, Function.update_of_ne hpage] at hbit

/-- One root less is live. -/
theorem liveRoots_dropRoot (hv : key.Valid) (hroot : root = ⟨key.base + page, bit + 1⟩)
    (hp : page < 256) :
    liveRoots key mask (dropRoot f root) = (liveRoots key mask f).filter fun r => r ≠ root := by
  have hpage : pageOf root.block = page := by
    have hbase := hv.base
    rw [hroot, pageOf]
    simp only
    omega
  rw [liveRoots, liveRoots, List.filter_flatMap, List.flatMap, List.flatMap]
  refine congrArg List.flatten (List.map_congr_left fun p _ => ?_)
  rw [List.filter_map]
  by_cases hpp : p = page
  · subst hpp
    rw [dropRoot, hpage, Function.update_self, setBits_dropBit, hroot]
    refine congrArg (List.map _) (List.filter_congr fun i _ => ?_)
    simp only [Function.comp, Nat.add_sub_cancel, ne_eq, RootTid.mk.injEq, Nat.add_right_cancel_iff,
      true_and]
  · rw [dropRoot, hpage, Function.update_of_ne hpp]
    refine congrArg (List.map _) (List.filter_eq_self.2 fun i _ => ?_).symm
    rw [hroot]
    simp only [Function.comp, ne_eq, RootTid.mk.injEq, decide_eq_true_eq]
    omega

/-! ### Approval -/

theorem approve_append {more : List RootTid} : approve removable asked (roots ++ more) =
    (approve removable asked roots >>= fun first =>
      approve removable (asked ++ roots) more >>= fun rest => .ok (first ++ rest)) := by
  induction roots generalizing asked with
  | nil =>
    rw [List.nil_append, List.append_nil]
    change _ = approve removable asked more >>= fun rest => .ok ([] ++ rest)
    cases approve removable asked more with
    | error e => rfl
    | ok rest => rfl
  | cons root roots ih =>
    rw [List.cons_append, approve, approve]
    cases hyes : removable asked root with
    | error e => rfl
    | ok yes =>
      simp only [ok_bind, ih, List.append_assoc, List.singleton_append]
      cases approve removable (asked ++ [root]) roots with
      | error e => rfl
      | ok first =>
        simp only [ok_bind]
        cases approve removable (asked ++ root :: roots) more with
        | error e => rfl
        | ok rest =>
          simp only [ok_bind]
          cases yes <;> rfl

theorem approve_sublist (h : approve removable asked roots = .ok gone) : gone.Sublist roots := by
  induction roots generalizing asked gone with
  | nil =>
    cases h
    exact List.Sublist.refl _
  | cons root roots ih =>
    obtain ⟨yes, -, h⟩ := ok_of_bind h
    obtain ⟨more, hmore, h⟩ := ok_of_bind h
    obtain rfl := Except.ok.inj h
    cases yes with
    | false => exact (ih hmore).cons root
    | true => exact (ih hmore).cons_cons root

/-- The bits of one page to clear are those of its approved roots. -/
theorem clearBits_eq (hblock : key.base + page ≠ noBlock) {bits : List ℕ}
    (hbits : ∀ bit ∈ bits, bit < key.maxOffset) : clearBits key removable page start asked bits =
      (approve removable asked (bits.map fun bit => ⟨key.base + page, bit + 1⟩) >>= fun gone =>
        .ok (gone.map fun root => (start + (root.offset - 1) / 8, (root.offset - 1) % 8))) := by
  induction bits generalizing asked with
  | nil => rfl
  | cons bit bits ih =>
    have hle : bit + 1 ≤ key.maxOffset := hbits bit List.mem_cons_self
    rw [clearBits, GroupKey.block, if_neg hblock, ok_bind]
    simp only [require_of hle, ok_bind, List.map_cons, approve]
    cases hyes : removable asked ⟨key.base + page, bit + 1⟩ with
    | error e => rfl
    | ok yes =>
      simp only [ok_bind, ih fun b hb => hbits b (List.mem_cons_of_mem _ hb)]
      cases approve removable (asked ++ [⟨key.base + page, bit + 1⟩])
          (bits.map fun bit => ⟨key.base + page, bit + 1⟩) with
      | error e => rfl
      | ok gone =>
        simp only [ok_bind]
        cases yes <;> simp

/-- The bits to clear are those of the approved roots. -/
theorem clearAll_eq (hm : m.Holds ms) (hf : Within m f)
    (hps : ∀ page ∈ ps, page ∈ setBits m.header.mask 256) :
    clearAll (m.liveness f) removable asked ps =
      (approve removable asked (ps.flatMap fun page =>
        (setBits (f page) 512).map fun bit => ⟨m.key.base + page, bit + 1⟩) >>= fun gone =>
          .ok (gone.map m.position)) := by
  induction ps generalizing asked with
  | nil => rfl
  | cons page ps ih =>
    have hp := hps page List.mem_cons_self
    obtain ⟨hlt, hbit⟩ := mem_setBits.1 hp
    have hspan : (m.liveness f).span page =
        some (payloadStart m.header.mask (widths m.all) page, widths m.all page) :=
      span_image hm.valid (fun _ hp => (hf.laid hm hp).toPacked) hbit hlt
    have hbits : ∀ bit ∈ setBits (f page) 512, bit < m.key.maxOffset := fun bit hb =>
      testBit_lt (hf.laid hm hp).domain (mem_setBits.1 hb).2
    have hkey : (m.liveness f).key = m.key := rfl
    rw [clearAll, hf.offsets hm, if_pos hbit, ok_bind]
    simp only [hspan, hkey, clearBits_eq (hm.block hp) hbits, List.flatMap_cons, approve_append]
    cases ha : approve removable asked
        ((setBits (f page) 512).map fun bit => ⟨m.key.base + page, bit + 1⟩) with
    | error e => rfl
    | ok first =>
      simp only [ok_bind, ih fun p hp => hps p (List.mem_cons_of_mem _ hp)]
      cases approve removable
          (asked ++ (setBits (f page) 512).map fun bit => ⟨m.key.base + page, bit + 1⟩)
          (ps.flatMap fun page =>
            (setBits (f page) 512).map fun bit => ⟨m.key.base + page, bit + 1⟩) with
      | error e => rfl
      | ok more =>
        simp only [ok_bind, List.map_append]
        refine congrArg _ (congrArg (· ++ more.map m.position) ?_)
        refine List.map_congr_left fun root hroot => ?_
        obtain ⟨bit, -, rfl⟩ := List.mem_map.1 ((approve_sublist ha).subset hroot)
        have hpage : pageOf (m.key.base + page) = page := by
          have := hm.valid.base
          rw [pageOf]
          omega
        rw [Members.position, hpage]

end

/-! ### Every sequence of calls -/

/-- The image of a membership after some roots were retired. -/
structure RetiredImage (m : Members) (ms : List Member) (retired : List RootTid) (f : ℕ → ℕ)
    (live : List UInt8) : Prop where
  within : Within m f
  bytes : live = (m.liveness f).bytes
  roots : liveRoots m.key m.header.mask f = remaining ms retired

section

variable {m : Members} {ms : List Member} {f : ℕ → ℕ} {x : Member} {live bytes : List UInt8}
  {gone retired : List RootTid} {root : RootTid} {call : RetireCall}

theorem mem_remaining (hx : x ∈ ms) : x.root ∈ remaining ms retired ↔ x.root ∉ retired := by
  rw [remaining, List.mem_filter, decide_eq_true_iff, List.mem_map]
  exact and_iff_right ⟨x, hx, rfl⟩

theorem remaining_cons : remaining ms (root :: retired) =
    (remaining ms retired).filter fun r => r ≠ root := by
  rw [remaining, remaining, List.filter_filter]
  refine List.filter_congr fun r _ => ?_
  simp [List.mem_cons, not_or]

theorem remaining_append : remaining ms (gone ++ retired) =
    (remaining ms retired).filter fun r => r ∉ gone := by
  rw [remaining, remaining, List.filter_filter]
  refine List.filter_congr fun r _ => ?_
  simp [List.mem_append, not_or]

/-- The bit of an owner says whether its root is live. -/
theorem testBit_iff_live (hm : m.Holds ms) (hx : x ∈ ms) :
    (f (pageOf x.root.block)).testBit (x.root.offset - 1) = true ↔
      x.root ∈ liveRoots m.key m.header.mask f := by
  obtain ⟨hp, hroot, -, -⟩ := hm.place hx
  have hof := (hm.of x hx).root
  have hmax := hm.valid.maxOffset.2
  rw [mem_liveRoots]
  constructor
  · intro hbit
    have := hof.offset
    exact ⟨_, hp, _, mem_setBits.2 ⟨by omega, hbit⟩, hroot⟩
  · rintro ⟨page, hpage, bit, hbit, heq⟩
    have hlt := (mem_setBits.1 hpage).1
    have hpage' : pageOf x.root.block = page :=
      (hof.page_eq hm.valid hlt).2 (by rw [heq])
    have hbit' : x.root.offset - 1 = bit := by rw [heq]; rfl
    rw [hpage', hbit']
    exact (mem_setBits.1 hbit).2

/-- `Members.retire` finds the bit of an owner, and refuses anything else. -/
theorem retirePosition_eq (hm : m.Holds ms) (hf : Within m f) :
    retirePosition m (m.liveness f).bytes x =
    if x ∈ ms then .ok (m.position x.root) else .error .invalidState := by
  obtain ⟨o, ho, hfind⟩ := hm.find_ok x.root
  rw [retirePosition, ho, ok_bind]
  split_ifs with hx
  swap
  · have hne : o ≠ some x := fun h => hx ((hfind x).1 h).1
    rw [require, if_neg hne, error_bind]
  obtain ⟨hp, -, -, -⟩ := hm.place hx
  obtain ⟨hlt, hbit⟩ := mem_setBits.1 hp
  have he := hm.encodable hp
  have hsame : (m.liveness f).kind = .liveness ∧ (m.liveness f).key = m.key ∧
      (m.liveness f).mask = m.header.mask := ⟨rfl, rfl, rfl⟩
  have hspan : (m.liveness f).span (pageOf x.root.block) =
      some (payloadStart m.header.mask (widths m.all) (pageOf x.root.block),
        widths m.all (pageOf x.root.block)) :=
    span_image hm.valid (fun _ hp => (hf.laid hm hp).toPacked) hbit hlt
  have hwithin : Nat.ldiff (f (pageOf x.root.block)) (m.all (pageOf x.root.block)) = 0 :=
    ldiff_eq_zero.2 (hf _ hp)
  rw [require_of ((hfind x).2 ⟨hx, rfl⟩), ok_bind, hf.open_liveness hm, ok_bind, require_of hsame,
    ok_bind, hf.offsets hm, if_pos hbit, ok_bind, (hm.pageOffsets_all he.block).1, ok_bind,
    require_of hwithin, ok_bind, hspan]
  simp only [bitmapLen_ok he.pos he.lt, ok_bind]
  have hwidth : widths m.all (pageOf x.root.block) = payloadLen (m.all (pageOf x.root.block)) := rfl
  rw [require_of hwidth, ok_bind, Members.position]

/-- Clearing approved roots leaves the others. -/
theorem clear_gone (hm : m.Holds ms) (hf : Within m f) (hgone : ∀ r ∈ gone, ∃ x ∈ ms, x.root = r) :
    ∃ f', Within m f' ∧
      (gone.map m.position).foldl clearBit (m.liveness f).bytes = (m.liveness f').bytes ∧
      liveRoots m.key m.header.mask f' =
        (liveRoots m.key m.header.mask f).filter fun r => r ∉ gone := by
  induction gone generalizing f with
  | nil => exact ⟨f, hf, rfl, by simp⟩
  | cons root gone ih =>
    obtain ⟨x, hx, rfl⟩ := hgone root List.mem_cons_self
    obtain ⟨hp, hroot, -, -⟩ := hm.place hx
    obtain ⟨f', hf', hbytes, hroots⟩ := ih (hf.dropRoot x.root) fun r hr =>
      hgone r (List.mem_cons_of_mem _ hr)
    refine ⟨f', hf', ?_, ?_⟩
    · rw [List.map_cons, List.foldl_cons, (clearBit_position hm hx).1, hbytes]
    · rw [hroots, liveRoots_dropRoot hm.valid hroot (mem_setBits.1 hp).1, List.filter_filter]
      refine List.filter_congr fun r _ => ?_
      simp [List.mem_cons, not_or, Bool.and_comm]

/-- One call on the image does what it does on the set of retired roots. -/
theorem RetiredImage.step (hm : m.Holds ms) (h : RetiredImage m ms retired f live) :
    (call.run m live).1 = (call.ideal m.key ms retired).1 ∧
      ∃ f', RetiredImage m ms (call.ideal m.key ms retired).2 f' (call.run m live).2 := by
  obtain ⟨hf, rfl, hroots⟩ := h
  cases call with
  | one x =>
    have hpos := retirePosition_eq (x := x) hm hf
    by_cases hx : x ∈ ms
    · rw [if_pos hx] at hpos
      obtain ⟨hclear, hbit⟩ := @clearBit_position m ms f x hm hx
      obtain ⟨hp, hroot, -, -⟩ := hm.place hx
      have hlive := testBit_iff_live (f := f) hm hx
      rw [hroots, mem_remaining hx] at hlive
      simp only [RetireCall.run, RetireCall.ideal, Members.retire, hpos, if_pos hx, hbit, hclear]
      refine ⟨?_, _, hf.dropRoot x.root, rfl, ?_⟩
      · change Except.ok (Retired.one _) = _
        rw [Bool.eq_iff_iff.2 (hlive.trans decide_eq_true_iff.symm)]
      · rw [liveRoots_dropRoot hm.valid hroot (mem_setBits.1 hp).1, hroots, remaining_cons]
    · rw [if_neg hx] at hpos
      simp only [RetireCall.run, RetireCall.ideal, Members.retire, hpos, if_neg hx]
      exact ⟨rfl, f, hf, rfl, hroots⟩
  | roots key removable =>
    have hpositions : retirePositions (m.liveness f).bytes key removable =
        if key ≠ m.key then .error .invalidState
        else approve removable [] (remaining ms retired) >>= fun gone =>
          .ok (gone.map m.position) := by
      rw [retirePositions, hf.open_liveness hm, ok_bind]
      by_cases hkey : key = m.key
      · subst hkey
        have hsame : ¬ ((m.liveness f).kind ≠ .liveness ∨ (m.liveness f).key ≠ m.key) := by
          rintro (h | h)
          · exact h rfl
          · exact h rfl
        rw [if_neg hsame, if_neg (not_not.2 rfl), ← hroots]
        exact clearAll_eq hm hf fun _ hp => hp
      · rw [if_pos (.inr (Ne.symm hkey)), if_pos hkey]
    by_cases hkey : key = m.key
    · rw [if_neg (not_not.2 hkey)] at hpositions
      simp only [RetireCall.run, RetireCall.ideal, retireRootsInto, hpositions,
        if_neg (not_not.2 hkey)]
      cases ha : approve removable [] (remaining ms retired) with
      | error e => exact ⟨rfl, f, hf, rfl, hroots⟩
      | ok gone =>
        have hgone : ∀ r ∈ gone, ∃ x ∈ ms, x.root = r := fun r hr =>
          List.mem_map.1 (List.mem_filter.1 ((approve_sublist ha).subset hr)).1
        obtain ⟨f', hf', hbytes, hroots'⟩ := clear_gone hm hf hgone
        simp only [ok_bind, List.length_map, hbytes]
        exact ⟨rfl, f', hf', rfl, by rw [hroots', hroots, remaining_append]⟩
    · rw [if_pos hkey] at hpositions
      simp only [RetireCall.run, RetireCall.ideal, retireRootsInto, hpositions, if_pos hkey]
      exact ⟨rfl, f, hf, rfl, hroots⟩

/-- So does every sequence of calls. -/
theorem RetiredImage.runCalls (hm : m.Holds ms) {calls : List RetireCall}
    (h : RetiredImage m ms retired f live) :
    (runCalls m live calls).1 = (idealCalls m.key ms retired calls).1 ∧
      ∃ f', RetiredImage m ms (idealCalls m.key ms retired calls).2 f'
      (runCalls m live calls).2 := by
  induction calls generalizing retired f live with
  | nil => exact ⟨rfl, f, h⟩
  | cons call calls ih =>
    obtain ⟨hresult, f', h'⟩ : (call.run m live).1 = (call.ideal m.key ms retired).1 ∧
        ∃ f', RetiredImage m ms (call.ideal m.key ms retired).2 f' (call.run m live).2 := h.step hm
    obtain ⟨hresults, hlast⟩ := ih h'
    refine ⟨?_, hlast⟩
    change _ :: (Grouped.runCalls m (call.run m live).2 calls).1 = _ :: _
    rw [hresult, hresults]

theorem take_bodyStart {f' : ℕ → ℕ} : (m.liveness f).bytes.take (m.liveness f).bodyStart =
    (m.liveness f').bytes.take (m.liveness f).bodyStart := by
  have hbody : ∀ g, (m.liveness g).bytes = ((Header.mk m.key BitmapKind.liveness.code 0
      m.header.mask).bytes (imageLen m.header.mask (widths m.all)) ++
      entryBytes (widths m.all) 0 (setBits m.header.mask 256)) ++
      offsetBytes (widths m.all) g (setBits m.header.mask 256) := fun g => by
    rw [List.append_assoc]
    rfl
  have hlen : ((Header.mk m.key BitmapKind.liveness.code 0 m.header.mask).bytes
      (imageLen m.header.mask (widths m.all)) ++
      entryBytes (widths m.all) 0 (setBits m.header.mask 256)).length =
      (m.liveness f).bodyStart := by
    rw [List.length_append, Header.length_bytes, length_entryBytes]
    rfl
  rw [hbody, hbody f', List.take_left' hlen, List.take_left' hlen]

/-- From the initial image of a membership, any sequence of retirements leaves an image that opens
with it.  Its live roots are those of the owners not retired so far: a call for one owner returns
whether that owner was still there, a call with a callback the number of roots it removed.  The
pages, the directory and the length of the record never change, and a call that fails changes
nothing. -/
theorem retirements_exact (ho : Members.openRecord bytes = .ok m) :
    ∃ (ms : List Member) (image : List UInt8), ms.length = m.len ∧
      (∀ (j : ℕ) (x : Member), ms[j]? = some x → m.get j = .ok x) ∧
      (∀ output, m.encodeLiveness output =
        if output.length < image.length then (.error (.limit "bitmap group output"), output)
        else (.ok image.length, image ++ output.drop image.length)) ∧
      (∀ calls : List RetireCall,
        (runCalls m image calls).1 = (idealCalls m.key ms [] calls).1 ∧
        ∃ b, SegmentGroup.openGroup bytes (runCalls m image calls).2 = .ok ⟨m, b⟩ ∧
          (∀ root, b.has root = true ↔
            (∃ x ∈ ms, x.root = root) ∧ root ∉ (idealCalls m.key ms [] calls).2) ∧
          b.mask = m.header.mask ∧ (runCalls m image calls).2.length = image.length ∧
          (runCalls m image calls).2.take b.bodyStart = image.take b.bodyStart) ∧
      ∀ live call e, (RetireCall.run m live call).1 = .error e →
        (RetireCall.run m live call).2 = live := by
  obtain ⟨hbytes, ms, hm⟩ := Members.openRecord_holds ho
  refine ⟨ms, (m.liveness m.all).bytes, hm.length, hm.get, fun output => hm.encodeLiveness_eq,
    fun calls => ?_, fun live call e h => ?_⟩
  · have hinit : RetiredImage m ms [] m.all (m.liveness m.all).bytes :=
      ⟨within_all, rfl, by rw [liveRoots_all hm, remaining]; simp⟩
    obtain ⟨hresults, f, hf, hlive, hroots⟩ :
        (runCalls m (m.liveness m.all).bytes calls).1 = (idealCalls m.key ms [] calls).1 ∧
          ∃ f, RetiredImage m ms (idealCalls m.key ms [] calls).2 f
            (runCalls m (m.liveness m.all).bytes calls).2 := hinit.runCalls hm
    have hlen : ∀ g, (m.liveness g).bytes.length = imageLen m.header.mask (widths m.all) :=
      fun g => length_bitmapImage
    refine ⟨hresults, m.liveness f, ?_, fun root => ?_, rfl, ?_, ?_⟩
    · rw [hlive, hf.openGroup ho hm]
    · rw [hf.has_iff hm, hroots, remaining, List.mem_filter, List.mem_map, decide_eq_true_iff]
    · rw [hlive, hlen, hlen]
    · rw [hlive]
      exact take_bodyStart
  · cases call with
    | one x =>
      simp only [RetireCall.run, Members.retire] at h ⊢
      cases hp : retirePosition m live x with
      | error e' => rfl
      | ok position =>
        rw [hp] at h
        cases h
    | roots key removable =>
      simp only [RetireCall.run, retireRootsInto] at h ⊢
      cases hp : retirePositions live key removable with
      | error e' => rfl
      | ok positions =>
        rw [hp] at h
        cases h

end

/-- The first owner of the small segment is retired once. -/
theorem retirements_exact_twice : ∃ image, (runCalls sampleSegment.members image
    [.one ⟨⟨256, 1⟩, 3⟩, .one ⟨⟨256, 1⟩, 3⟩]).1 = [.ok (.one true), .ok (.one false)] := by
  have hopen : Members.openRecord sampleMembers = .ok sampleSegment.members := by decide +kernel
  obtain ⟨ms, image, hlen, hget, -, hcalls, -⟩ := retirements_exact hopen
  have hfirst : sampleSegment.members.get 0 = .ok ⟨⟨256, 1⟩, 3⟩ := by decide +kernel
  have hpos : 0 < ms.length := by rw [hlen]; decide
  have hx : (⟨⟨256, 1⟩, 3⟩ : Member) ∈ ms := by
    have hmem := hget 0 _ (List.getElem?_eq_getElem hpos)
    rw [hfirst, Except.ok.injEq] at hmem
    exact hmem ▸ List.getElem_mem hpos
  refine ⟨image, (hcalls _).1.trans ?_⟩
  simp [idealCalls, RetireCall.ideal, hx]

/-! ### Callbacks that do not fail -/

section

variable {key : GroupKey} {removable : RootTid → Bool} {page start : ℕ} {asked : List RootTid}
  {b : Bitmap} {ps : List ℕ}

theorem clearBits_total (hblock : key.base + page ≠ noBlock) {bits : List ℕ} :
    clearBits key (fun _ root => .ok (removable root)) page start asked bits =
      if bits.any fun bit => decide (key.maxOffset < bit + 1) then .error .invalidState
      else .ok (clearOffsets removable (key.base + page) start bits) := by
  induction bits generalizing asked with
  | nil => rfl
  | cons bit bits ih =>
    rw [clearBits, GroupKey.block, if_neg hblock, ok_bind, List.any_cons]
    by_cases hbit : key.maxOffset < bit + 1
    · rw [require, if_neg (Nat.not_le.2 hbit), error_bind, decide_eq_true hbit, Bool.true_or,
        if_pos rfl]
    · rw [require_of (Nat.not_lt.1 hbit), ok_bind, decide_eq_false hbit, Bool.false_or]
      simp only [ok_bind, ih]
      by_cases hany : bits.any (fun bit => decide (key.maxOffset < bit + 1)) = true
      · rw [if_pos hany, if_pos hany, error_bind]
      · rw [if_neg hany, if_neg hany, ok_bind, clearOffsets, clearOffsets]
        by_cases hyes : removable ⟨key.base + page, bit + 1⟩ = true
        · rw [if_pos hyes, List.filterMap_cons, if_pos hyes]
        · rw [if_neg hyes, List.filterMap_cons, if_neg hyes]

theorem clearAll_total (hopen : b.Opened) (hps : ∀ page ∈ ps, b.mask.testBit page = true) :
    clearAll b (fun _ root => .ok (removable root)) asked ps = clearPages b removable ps := by
  induction ps generalizing asked with
  | nil => rfl
  | cons page ps ih =>
    have hok := hopen.inRange.block_eq (hps page List.mem_cons_self)
    have hblock : b.key.base + page ≠ noBlock := by
      intro heq
      rw [GroupKey.block, if_pos heq] at hok
      cases hok
    rw [clearAll, clearPages]
    cases b.offsets page with
    | error e => rw [error_bind, error_bind]
    | ok offsets =>
      simp only [ok_bind]
      cases b.span page with
      | none => rfl
      | some x =>
        simp only [clearBits_total hblock, GroupKey.block, if_neg hblock, ok_bind,
          ih fun p hp => hps p (List.mem_cons_of_mem _ hp)]
        split_ifs <;> rfl

/-- With a callback that does not fail the call clears what `retireRoots` clears. -/
theorem retireRootsInto_value {live : List UInt8} :
    retireRootsInto live key (fun _ root => .ok (removable root)) =
      match retireRoots live key removable with
      | .error e => (.error e, live)
      | .ok (removed, bytes) => (.ok removed, bytes) := by
  rw [retireRootsInto, retirePositions, retireRoots]
  cases hopen : Bitmap.openRecord live with
  | error e => rfl
  | ok b =>
    simp only [ok_bind]
    split_ifs with hbad
    · rfl
    · rw [clearAll_total (Bitmap.openRecord_opened hopen) fun page hp => (mem_setBits.1 hp).2]
      cases clearPages b removable (setBits b.mask 256) <;> rfl

end

end Grouped

end PinCore
