import Mathlib.Data.Finset.Card
import PinCore.Grouped.Canonical
import PinCore.Grouped.Catalog

/-!
# Inline postings

A catalog entry holds at most eighteen coordinates of a sparse posting in its value bytes, three
bytes each: page above nine offset bits.  The seven bits above are not part of a coordinate, but
the reader compares them and drops them later.
-/

namespace PinCore

namespace Grouped

/-! ### Writing a value -/

/-- The entry of a value. -/
def Value.entry (v : Value) (key : ℕ × ℕ) : CatalogEntry :=
  match v.inline with
  | some bytes => ⟨key, leBytes 4 v.len ++ (bytes ++ ([0, 0] ++ leBytes 4 v.count))⟩
  | none =>
    ⟨key, leBytes 4 v.len ++ (v.blocks.flatMap (leBytes 4) ++ (leBytes 32 v.pages ++
      (leBytes 4 v.members ++ (leBytes 4 v.memberBytes ++ (leBytes 4 v.count ++ leBytes 4 0)))))⟩

/-- Packs the offsets of one page behind earlier coordinates; `none` if there are too many. -/
def packOffsets (maxOffset page : ℕ) : List ℕ → List ℕ → Except Error (Option (List ℕ))
  | [], cs => .ok (some cs)
  | bit :: bits, cs =>
    if maxOffset < bit + 1 then .error .invalidState
    else if cs.length = inlinePostings then .ok none
    else packOffsets maxOffset page bits (cs ++ [page * 512 + bit])

/-- Packs pages, with the mask and the coordinates of earlier ones. -/
def packPages (maxOffset : ℕ) :
    List PageOffsets → Option ℕ → ℕ → List ℕ → Except Error (Option (ℕ × List ℕ))
  | [], _, mask, cs => .ok (some (mask, cs))
  | p :: pages, previous, mask, cs => do
    require (∀ old ∈ previous, old < p.page) .invalidState
    match ← packOffsets maxOffset p.page (setBits p.offsets 512) cs with
    | none => .ok none
    | some cs => packPages maxOffset pages (some p.page) (insertPage mask p.page) cs

/-- The inline value of some coordinates. -/
def inlineValue (mask : ℕ) (cs : List ℕ) : Value :=
  ⟨0, [noBlock, noBlock, noBlock], mask, noBlock, 0, cs.length,
    some (cs.flatMap (leBytes 3) ++ List.replicate (inlinePostings * 3 - cs.length * 3) 0)⟩

/-- Embeds sparse postings in the catalog leaf.  (`inline_postings` in the source.) -/
def Value.inlinePostings (key : ℕ × ℕ) (pages : List PageOffsets) (layout : HeapLayout) :
    Except Error (Option CatalogEntry) :=
  if key.1 = 0 ∨ pages = [] then .error .invalidState
  else do
    match ← packPages layout.maxOffset pages none 0 [] with
    | none => .ok none
    | some (mask, cs) =>
      if cs = [] then .error .invalidState
      else
        let _ ← (inlineValue mask cs).inlinePages layout.maxOffset
        .ok (some ((inlineValue mask cs).entry key))

/-! ### Coordinates and pages -/

/-- The coordinates of the set offsets of pages. -/
def coordinatesOf (pages : List PageOffsets) : List ℕ :=
  pages.flatMap fun p => (setBits p.offsets 512).map fun bit => p.page * 512 + bit

/-- The number of set offsets of pages. -/
def totalOffsets (pages : List PageOffsets) : ℕ :=
  (pages.map fun p => (setBits p.offsets 512).length).sum

/-- The stored coordinates, all twenty-four bits of each. -/
def storedCoordinates : List UInt8 → ℕ → List ℕ
  | _, 0 => []
  | bytes, n + 1 => leAt bytes 0 3 :: storedCoordinates (bytes.drop 3) n

/-- The bits of a coordinate. -/
def coordinateLimit : ℕ := 131072

/-- The coordinates a value has space for. -/
def Value.slots (v : Value) : ℕ :=
  match v.inline with
  | some _ => PinCore.Grouped.inlinePostings
  | none => 6

/-- The stored coordinates of a value. -/
def Value.stored (v : Value) : List ℕ := storedCoordinates v.inlineBytes v.count

/-- The coordinates of a value are well formed. -/
structure Value.Inlined (v : Value) (maxOffset : ℕ) : Prop where
  len : v.len = 0
  count : 0 < v.count ∧ v.count ≤ v.slots
  zeros : ∀ b ∈ v.inlineBytes.drop (v.count * 3), b = 0
  offsets : ∀ c ∈ v.stored, c % 512 < maxOffset
  ascending : v.stored.Pairwise (· < ·)
  mask : v.inline = none → pageMask (collectPages v.stored) = v.pages

/-- The fields of a value fit the entry. -/
structure Value.Fits (v : Value) : Prop where
  len : v.len < 2 ^ 32
  blocks : ∃ a b c, v.blocks = [a, b, c] ∧ a < 2 ^ 32 ∧ b < 2 ^ 32 ∧ c < 2 ^ 32
  pages : v.pages < 2 ^ 256
  members : v.members < 2 ^ 32
  memberBytes : v.memberBytes < 2 ^ 32
  count : v.count < 2 ^ 32

/-- The values of a catalog leaf: a record in pages, or a sparse posting in either form. -/
inductive Value.Valid (key : ℕ × ℕ) (v : Value) : Prop
  | record (fits : v.Fits) (inline : v.inline = none) (stored : v.StoredOk key)
  | legacy (fits : v.Fits) (inline : v.inline = none) (term : key.1 ≠ 0) (inlined : v.Inlined 512)
  | inline (bytes : List UInt8) (inline : v.inline = some bytes) (length : bytes.length = 54)
      (blocks : v.blocks = [noBlock, noBlock, noBlock])
      (pages : v.pages = pageMask (collectPages v.stored)) (members : v.members = noBlock)
      (memberBytes : v.memberBytes = 0) (term : key.1 ≠ 0) (inlined : v.Inlined 512)

section

variable {pages : List PageOffsets} {cs : List ℕ} {c x page bit n maxOffset : ℕ} {p : PageOffsets}
  {bytes : List UInt8} {previous : Option ℕ} {mask : ℕ}

theorem length_coordinatesOf : (coordinatesOf pages).length = totalOffsets pages := by
  rw [coordinatesOf, totalOffsets, List.length_flatMap]
  simp only [List.length_map]

theorem mem_coordinatesOf : x ∈ coordinatesOf pages ↔
    ∃ p ∈ pages, p.page = x / 512 ∧ p.offsets.testBit (x % 512) = true := by
  simp only [coordinatesOf, List.mem_flatMap, List.mem_map, mem_setBits]
  refine exists_congr fun p => and_congr_right fun _ => ⟨?_, ?_⟩
  · rintro ⟨bit, ⟨hbit, hset⟩, rfl⟩
    rw [show (p.page * 512 + bit) / 512 = p.page by omega,
      show (p.page * 512 + bit) % 512 = bit by omega]
    exact ⟨rfl, hset⟩
  · rintro ⟨hpage, hset⟩
    exact ⟨x % 512, ⟨Nat.mod_lt _ (by decide), hset⟩, by omega⟩

theorem coordinatesOf_sorted (hs : SortedPages pages) : (coordinatesOf pages).Pairwise (· < ·) := by
  rw [coordinatesOf, List.pairwise_flatMap]
  refine ⟨fun p _ => ?_, hs.imp fun {p q} hpq => ?_⟩
  · rw [List.pairwise_map]
    exact setBits_sorted.imp fun h => Nat.add_lt_add_left h _
  · intro x hx y hy
    obtain ⟨i, hi, rfl⟩ := List.mem_map.1 hx
    obtain ⟨j, -, rfl⟩ := List.mem_map.1 hy
    have := (mem_setBits.1 hi).1
    omega

theorem coordinatesOf_lt (hp : ∀ p ∈ pages, p.page < 256) (hx : x ∈ coordinatesOf pages) :
    x < coordinateLimit := by
  obtain ⟨p, hmem, hpage, -⟩ := mem_coordinatesOf.1 hx
  have := hp p hmem
  rw [coordinateLimit]
  omega

/-- What is collected in front of the coordinates of later pages. -/
theorem collectPages_page {bits rest : List ℕ} {page : ℕ} (hp : page < 256)
    (hb : ∀ b ∈ bits, b < 512)
    (hne : bits ≠ []) (hr : ∀ p ∈ (collectPages rest).head?, p.page ≠ page) :
    collectPages (bits.map (page * 512 + ·) ++ rest) =
      ⟨page, bits.foldr (fun b acc => acc ||| 2 ^ b) 0⟩ :: collectPages rest := by
  induction bits with
  | nil => exact absurd rfl hne
  | cons b bits ih =>
    have hlt : b < 512 := hb b List.mem_cons_self
    have hpage : (page * 512 + b) / 512 % 256 = page := by omega
    have hbit : (page * 512 + b) % 512 = b := by omega
    rw [List.map_cons, List.cons_append, collectPages, hpage, hbit]
    by_cases hbits : bits = []
    · subst hbits
      rw [List.map_nil, List.nil_append, List.foldr_cons, List.foldr_nil, Nat.zero_or]
      cases hrest : collectPages rest with
      | nil => rfl
      | cons p ps =>
        rw [hrest] at hr
        simp only [if_neg (hr p rfl)]
    · rw [ih (fun b hb' => hb b (List.mem_cons_of_mem _ hb')) hbits]
      simp only [if_true, List.foldr_cons]

/-- Offsets are made of their bits. -/
theorem foldr_setBits {v bound : ℕ} (hv : v < 2 ^ bound) :
    (setBits v bound).foldr (fun b acc => acc ||| 2 ^ b) 0 = v := by
  have hbit : ∀ (l : List ℕ) i, (l.foldr (fun b acc => acc ||| 2 ^ b) 0).testBit i = true ↔
      i ∈ l := by
    intro l i
    induction l with
    | nil => simp
    | cons b l ih =>
      rw [List.foldr_cons, Nat.testBit_or, Bool.or_eq_true, ih, Nat.testBit_two_pow,
        decide_eq_true_eq, List.mem_cons, eq_comm, or_comm]
  refine Nat.eq_of_testBit_eq fun i => Bool.eq_iff_iff.2 ?_
  rw [hbit, mem_setBits]
  refine ⟨fun h => h.2, fun h => ⟨Nat.lt_of_not_le fun hi => ?_, h⟩⟩
  rw [Nat.testBit_lt_two_pow (Nat.lt_of_lt_of_le hv (Nat.pow_le_pow_right Nat.two_pos hi))] at h
  cases h

theorem setBits_ne_nil {v : ℕ} (hv : v < 2 ^ 512) (h0 : v ≠ 0) : setBits v 512 ≠ [] := by
  intro h
  have := foldr_setBits hv
  rw [h] at this
  exact h0 this.symm

theorem setBits_zero : setBits 0 512 = [] := by
  refine List.eq_nil_iff_forall_not_mem.2 fun i hi => ?_
  have := (mem_setBits.1 hi).2
  rw [Nat.zero_testBit] at this
  cases this

/-- Pages are collected again from their coordinates, apart from those without any. -/
theorem collectPages_coordinatesOf (hs : SortedPages pages)
    (hp : ∀ p ∈ pages, p.page < 256 ∧ p.offsets < 2 ^ 512) :
    collectPages (coordinatesOf pages) = pages.filter fun p => p.offsets ≠ 0 := by
  induction pages with
  | nil => rfl
  | cons p pages ih =>
    obtain ⟨hfirst, hs⟩ := List.pairwise_cons.1 hs
    obtain ⟨⟨hpage, hlt⟩, hp⟩ := List.forall_mem_cons.1 hp
    have ih := ih hs hp
    rw [coordinatesOf, List.flatMap_cons, ← coordinatesOf]
    by_cases h0 : p.offsets = 0
    · rw [h0, setBits_zero, List.map_nil, List.nil_append, ih,
        List.filter_cons_of_neg (by simp [h0])]
    · rw [collectPages_page hpage (fun b hb => (mem_setBits.1 hb).1) (setBits_ne_nil hlt h0) ?_, ih,
        foldr_setBits hlt, List.filter_cons_of_pos (by simp [h0])]
      intro q hq
      rw [ih] at hq
      have := hfirst q (List.mem_of_mem_filter (List.mem_of_mem_head? hq))
      omega

/-- The offsets of one page, if they are of the layout and there is space for them. -/
theorem packOffsets_iff {bits r : List ℕ} (hcs : cs.length ≤ inlinePostings) :
    packOffsets maxOffset page bits cs = .ok (some r) ↔
      r = cs ++ bits.map (page * 512 + ·) ∧ (∀ bit ∈ bits, bit < maxOffset) ∧
        r.length ≤ inlinePostings := by
  induction bits generalizing cs with
  | nil =>
    rw [packOffsets, List.map_nil, List.append_nil]
    constructor
    · rintro ⟨⟩
      exact ⟨rfl, nofun, hcs⟩
    · rintro ⟨rfl, -, -⟩
      rfl
  | cons bit bits ih =>
    have happend : cs ++ (bit :: bits).map (page * 512 + ·) =
        cs ++ [page * 512 + bit] ++ bits.map (page * 512 + ·) := by
      rw [List.map_cons, List.append_assoc, List.singleton_append]
    rw [packOffsets, happend, List.forall_mem_cons]
    by_cases hbit : maxOffset < bit + 1
    · rw [if_pos hbit]
      exact ⟨nofun, fun h => absurd h.2.1.1 (by omega)⟩
    rw [if_neg hbit]
    by_cases hfull : cs.length = inlinePostings
    · rw [if_pos hfull]
      refine ⟨nofun, fun ⟨hr, _, hlen⟩ => ?_⟩
      rw [hr, List.length_append, List.length_append, List.length_singleton] at hlen
      omega
    · rw [if_neg hfull, ih (by rw [List.length_append, List.length_singleton]; omega)]
      exact and_congr_right fun _ => and_congr_left fun _ => ⟨fun h => ⟨by omega, h⟩, fun h => h.2⟩

/-- A packed list is refused for the bound of the layout or for the space, never for both. -/
theorem packPages_iff {r : List ℕ} {m : ℕ} (hcs : cs.length ≤ inlinePostings) :
    packPages maxOffset pages previous mask cs = .ok (some (m, r)) ↔
      (∀ old ∈ previous, ∀ p ∈ pages, old < p.page) ∧ SortedPages pages ∧
        m = maskPages mask pages ∧ r = cs ++ coordinatesOf pages ∧
        (∀ p ∈ pages, ∀ bit ∈ setBits p.offsets 512, bit < maxOffset) ∧
        r.length ≤ inlinePostings := by
  induction pages generalizing previous mask cs with
  | nil =>
    simp only [packPages, SortedPages, coordinatesOf, maskPages, List.flatMap_nil, List.append_nil,
      List.foldl_nil]
    constructor
    · rintro ⟨⟩
      exact ⟨fun _ _ _ h => absurd h List.not_mem_nil, .nil, rfl, rfl,
        fun _ h => absurd h List.not_mem_nil, hcs⟩
    · rintro ⟨-, -, rfl, rfl, -, -⟩
      rfl
  | cons p pages ih =>
    have hmask : maskPages mask (p :: pages) = maskPages (insertPage mask p.page) pages := rfl
    have hcoords : cs ++ coordinatesOf (p :: pages) =
        cs ++ (setBits p.offsets 512).map (p.page * 512 + ·) ++ coordinatesOf pages := by
      rw [coordinatesOf, List.flatMap_cons, ← coordinatesOf, List.append_assoc]
    rw [hmask, hcoords, SortedPages, List.pairwise_cons, List.forall_mem_cons, ← SortedPages]
    constructor
    · intro h
      obtain ⟨_, hprev, h⟩ := ok_of_bind h
      obtain ⟨packed, hpack, h⟩ := ok_of_bind h
      have hprev := require_ok hprev
      cases packed with
      | none => cases h
      | some mid =>
        obtain ⟨rfl, hbits, hlen⟩ := (packOffsets_iff hcs).1 hpack
        obtain ⟨hlast, hs, hm, hr, hall, hlen'⟩ := (ih hlen).1 h
        have hlast := hlast p.page rfl
        refine ⟨fun old ho => ?_, ⟨hlast, hs⟩, hm, hr, ⟨hbits, hall⟩, hlen'⟩
        have hold := hprev old ho
        exact List.forall_mem_cons.2 ⟨hold, fun q hq => hold.trans (hlast q hq)⟩
    · rintro ⟨hold, ⟨hlast, hs⟩, hm, hr, ⟨hbits, hall⟩, hlen⟩
      have hmid : (cs ++ (setBits p.offsets 512).map (p.page * 512 + ·)).length ≤
          inlinePostings := by
        rw [hr, List.length_append] at hlen
        omega
      rw [packPages, require_of fun old ho => hold old ho p List.mem_cons_self, ok_bind,
        (packOffsets_iff hcs).2 ⟨rfl, hbits, hmid⟩, ok_bind]
      exact (ih hmid).2 ⟨fun _ ho q hq => Option.mem_some.1 ho ▸ hlast q hq, hs, hm, hr, hall, hlen⟩

/-! ### Stored coordinates -/

/-- Coordinates are read if they ascend and their offsets are of the layout. -/
theorem coordinates_iff : coordinates maxOffset bytes n previous = .ok cs ↔
    cs = storedCoordinates bytes n ∧ (∀ c ∈ cs, c % 512 < maxOffset) ∧
      (∀ old ∈ previous, ∀ c ∈ cs, old < c) ∧ cs.Pairwise (· < ·) := by
  induction n generalizing bytes previous cs with
  | zero =>
    rw [coordinates, storedCoordinates]
    constructor
    · rintro ⟨⟩
      exact ⟨rfl, nofun, nofun, .nil⟩
    · rintro ⟨rfl, -⟩
      rfl
  | succ n ih =>
    rw [coordinates, storedCoordinates]
    constructor
    · intro h
      split_ifs at h with hbad
      obtain ⟨rest, hrest, h⟩ := ok_of_bind h
      obtain rfl := Except.ok.inj h
      obtain ⟨rfl, hoff, hnext, hs⟩ := ih.1 hrest
      rw [not_or, not_exists] at hbad
      have hnext := hnext _ rfl
      refine ⟨rfl, List.forall_mem_cons.2 ⟨by omega, hoff⟩, fun old ho => ?_,
        List.pairwise_cons.2 ⟨hnext, hs⟩⟩
      have hold : old < leAt bytes 0 3 := Nat.lt_of_not_le fun hle => hbad.2 old ⟨ho, hle⟩
      exact List.forall_mem_cons.2 ⟨hold, fun c hc => hold.trans (hnext c hc)⟩
    · rintro ⟨rfl, hoff, hold, hs⟩
      obtain ⟨hfirst, hoff⟩ := List.forall_mem_cons.1 hoff
      obtain ⟨hnext, hs⟩ := List.pairwise_cons.1 hs
      have hgood : ¬ (maxOffset < leAt bytes 0 3 % 512 + 1 ∨
          ∃ old ∈ previous, leAt bytes 0 3 ≤ old) := by
        rintro (hlt | ⟨old, ho, hle⟩)
        · omega
        · exact absurd (hold old ho _ List.mem_cons_self) (Nat.not_lt.2 hle)
      rw [if_neg hgood, ih.2 ⟨rfl, hoff, fun _ ho c hc => Option.mem_some.1 ho ▸ hnext c hc, hs⟩]
      rfl

/-- Written coordinates are the stored ones. -/
theorem storedCoordinates_bytes {rest : List UInt8} (hlt : ∀ c ∈ cs, c < 256 ^ 3) :
    storedCoordinates (cs.flatMap (leBytes 3) ++ rest) cs.length = cs := by
  induction cs with
  | nil => rfl
  | cons c cs ih =>
    obtain ⟨hc, hlt⟩ := List.forall_mem_cons.1 hlt
    have h0 : ((c :: cs).flatMap (leBytes 3) ++ rest).drop 0 =
        leBytes 3 c ++ (cs.flatMap (leBytes 3) ++ rest) := by
      rw [List.drop_zero, List.flatMap_cons, List.append_assoc]
    obtain ⟨hat, hrest⟩ := leAt_of_drop h0 hc
    rw [List.length_cons, storedCoordinates, hat, ← Nat.zero_add 3, hrest, ih hlt]

theorem Value.inlinePages_eq {v : Value} : v.inlinePages maxOffset =
    if v.len ≠ 0 ∨ v.count = 0 ∨ v.slots < v.count then .error .invalidState
    else if (v.inlineBytes.drop (v.count * 3)).any fun b => b ≠ 0 then .error .invalidState
    else coordinates maxOffset v.inlineBytes v.count none >>= fun cs =>
      if v.inline = none ∧ pageMask (collectPages cs) ≠ v.pages then .error .invalidState
      else .ok (collectPages cs) := rfl

theorem Value.inlinePages_iff {v : Value} :
    v.inlinePages maxOffset = .ok pages ↔ v.Inlined maxOffset ∧ pages = collectPages v.stored := by
  have hzeros : ((v.inlineBytes.drop (v.count * 3)).any fun b => decide (b ≠ 0)) = true ↔
      ¬ ∀ b ∈ v.inlineBytes.drop (v.count * 3), b = 0 := by simp
  rw [Value.inlinePages_eq]
  constructor
  · intro h
    split_ifs at h with hbad hany
    obtain ⟨cs, hcs, h⟩ := ok_of_bind h
    split_ifs at h with hmask
    obtain rfl := Except.ok.inj h
    obtain ⟨rfl, hoff, -, hs⟩ := coordinates_iff.1 hcs
    rw [not_or, not_or] at hbad
    refine ⟨⟨not_not.1 hbad.1, ⟨Nat.pos_of_ne_zero hbad.2.1, Nat.not_lt.1 hbad.2.2⟩,
      not_not.1 fun hne => hany (hzeros.2 hne), hoff, hs, fun hn => ?_⟩, rfl⟩
    by_contra hne
    exact hmask ⟨hn, hne⟩
  · rintro ⟨h, rfl⟩
    have hgood : ¬ (v.len ≠ 0 ∨ v.count = 0 ∨ v.slots < v.count) := by
      have h₁ := h.len
      have h₂ := h.count
      omega
    have hcs : coordinates maxOffset v.inlineBytes v.count none = .ok v.stored :=
      coordinates_iff.2 ⟨rfl, h.offsets, nofun, h.ascending⟩
    rw [if_neg hgood, if_neg fun hany => hzeros.1 hany h.zeros, hcs, ok_bind,
      if_neg fun hne => hne.2 (h.mask hne.1)]

/-- The offsets of a smaller layout are offsets of the largest. -/
theorem Value.Inlined.mono {v : Value} {more : ℕ} (h : v.Inlined maxOffset)
    (hle : maxOffset ≤ more) :
    v.Inlined more :=
  { h with offsets := fun c hc => Nat.lt_of_lt_of_le (h.offsets c hc) hle }

/-- The fields of an entry in front of their bytes. -/
theorem Value.entry_fields {v : Value} (key : ℕ × ℕ) (h : v.Fits) (hinline : v.inline = none) :
    let e := v.entry key
    leAt e.value 0 4 = v.len ∧ [leAt e.value 4 4, leAt e.value 8 4, leAt e.value 12 4] = v.blocks ∧
      leAt e.value 16 32 = v.pages ∧ leAt e.value 48 4 = v.members ∧
      leAt e.value 52 4 = v.memberBytes ∧ leAt e.value 56 4 = v.count ∧ leAt e.value 60 4 = 0 := by
  obtain ⟨a, b, c, hblocks, ha, hb, hc⟩ := h.blocks
  have hvalue : (v.entry key).value.drop 0 = leBytes 4 v.len ++ (leBytes 4 a ++ (leBytes 4 b ++
      (leBytes 4 c ++ (leBytes 32 v.pages ++ (leBytes 4 v.members ++ (leBytes 4 v.memberBytes ++
        (leBytes 4 v.count ++ (leBytes 4 0 ++ [])))))))) := by
    simp only [Value.entry, hinline, hblocks, List.flatMap_cons, List.flatMap_nil,
      List.append_assoc, List.append_nil, List.drop_zero]
  have hpages : v.pages < 256 ^ 32 := Nat.lt_of_lt_of_le h.pages (by decide)
  obtain ⟨e₀, h₀⟩ := leAt_of_drop hvalue h.len
  obtain ⟨e₁, h₁⟩ := leAt_of_drop h₀ ha
  obtain ⟨e₂, h₂⟩ := leAt_of_drop h₁ hb
  obtain ⟨e₃, h₃⟩ := leAt_of_drop h₂ hc
  obtain ⟨e₄, h₄⟩ := leAt_of_drop h₃ hpages
  obtain ⟨e₅, h₅⟩ := leAt_of_drop h₄ h.members
  obtain ⟨e₆, h₆⟩ := leAt_of_drop h₅ h.memberBytes
  obtain ⟨e₇, h₇⟩ := leAt_of_drop h₆ h.count
  obtain ⟨e₈, -⟩ := leAt_of_drop h₇ (by decide)
  simp only [Nat.zero_add, Nat.reduceAdd] at e₀ e₁ e₂ e₃ e₄ e₅ e₆ e₇ e₈
  rw [hblocks]
  exact ⟨e₀, by rw [e₁, e₂, e₃], e₄, e₅, e₆, e₇, e₈⟩

/-- The entry of an inline value: the leading zero, the coordinates and the count. -/
theorem Value.entry_inline {v : Value} (key : ℕ × ℕ) (hinline : v.inline = some bytes)
    (hlen : bytes.length = 54) (h0 : v.len = 0)
    (hcount : v.count < 2 ^ 32) :
    let e := v.entry key
    leAt e.value 0 4 = 0 ∧ (e.value.drop 4).take 54 = bytes ∧ leAt e.value 58 2 = 0 ∧
      leAt e.value 60 4 = v.count := by
  have hvalue : (v.entry key).value =
      leBytes 4 0 ++ (bytes ++ (leBytes 2 0 ++ (leBytes 4 v.count ++ []))) := by
    rw [Value.entry, hinline, h0, List.append_nil]
    rfl
  have hfirst : (v.entry key).value.drop 4 =
      bytes ++ (leBytes 2 0 ++ (leBytes 4 v.count ++ [])) := by
    rw [hvalue, List.drop_left' Reader.length_leBytes]
  have hrest : (v.entry key).value.drop 58 = leBytes 2 0 ++ (leBytes 4 v.count ++ []) := by
    rw [show (58 : ℕ) = 4 + 54 from rfl, ← List.drop_drop, hfirst, List.drop_left' hlen]
  have hstart : (v.entry key).value.drop 0 =
      leBytes 4 0 ++ (bytes ++ (leBytes 2 0 ++ (leBytes 4 v.count ++ []))) := hvalue
  obtain ⟨e₀, -⟩ := leAt_of_drop hstart (by decide)
  obtain ⟨e₁, h₁⟩ := leAt_of_drop hrest (by decide)
  obtain ⟨e₂, -⟩ := leAt_of_drop h₁ hcount
  exact ⟨e₀, by rw [hfirst, List.take_left' hlen], e₁, e₂⟩

/-- A valid value is read back from its entry. -/
theorem Value.read_entry {v : Value} {key : ℕ × ℕ} (h : v.Valid key) :
    Value.read (v.entry key) = .ok v := by
  have hkey : (v.entry key).key = key := by
    unfold Value.entry
    split <;> rfl
  cases h with
  | record fits inline stored =>
    obtain ⟨e₀, e₁, e₂, e₃, e₄, e₅, e₆⟩ := Value.entry_fields key fits inline
    have hlen : v.len ≠ 0 := by
      have := stored.1
      omega
    unfold Value.read
    rw [if_neg fun hne => hne.2 e₆, e₀, e₁, e₂, e₃, e₄, e₅, e₆, hkey, ← inline]
    rw [if_neg (not_not.2 rfl), if_neg hlen, if_pos stored]
  | legacy fits inline term inlined =>
    obtain ⟨e₀, e₁, e₂, e₃, e₄, e₅, e₆⟩ := Value.entry_fields key fits inline
    unfold Value.read
    rw [if_neg fun hne => hne.2 e₆, e₀, e₁, e₂, e₃, e₄, e₅, e₆, hkey, ← inline]
    rw [if_neg (not_not.2 rfl), if_pos inlined.len, if_neg term]
    rw [Value.inlinePages_iff.2 ⟨inlined, rfl⟩]
    rfl
  | inline bytes inline length blocks pages members memberBytes term inlined =>
    have hslots : v.slots = 18 := by rw [Value.slots, inline]; rfl
    have hcount := inlined.count
    obtain ⟨e₀, e₁, e₂, e₃⟩ :=
      Value.entry_inline key inline length inlined.len (by omega)
    have hform : ∀ pages,
        (⟨0, [noBlock, noBlock, noBlock], pages, noBlock, 0, v.count, some bytes⟩ :
        Value) = { v with pages := pages } := by
      intro pages
      rw [Value.mk.injEq]
      exact ⟨inlined.len.symm, blocks.symm, rfl, members.symm, memberBytes.symm, rfl, inline.symm⟩
    have hpages : ({ v with pages := 0 } : Value).inlinePages 512 =
        .ok (collectPages v.stored) := by
      refine Value.inlinePages_iff.2 ⟨{ inlined with mask := fun hn => ?_ }, rfl⟩
      rw [inline] at hn
      cases hn
    unfold Value.read
    rw [e₀, e₁, e₂, e₃, hkey, if_pos ⟨rfl, by omega⟩,
      if_neg fun hor => hor.elim term fun h => h rfl]
    simp only [hform, hpages, ok_bind, ← pages]

/-- A field in front of the rest of the bytes. -/
theorem drop_eq_leAt (bytes : List UInt8) (offset width : ℕ) (h : offset + width ≤ bytes.length) :
    bytes.drop offset = leBytes width (leAt bytes offset width) ++ bytes.drop (offset + width) := by
  have hlen : ((bytes.drop offset).take width).length = width :=
    List.length_take_of_le (by rw [List.length_drop]; omega)
  have hback := Reader.leBytes_leNat ((bytes.drop offset).take width)
  rw [hlen] at hback
  rw [leAt, hback, ← List.drop_drop, List.take_append_drop]

/-- The value of the fields of an entry fits, and its entry has the same bytes. -/
theorem Value.of_fields {v : Value} {e : CatalogEntry} (hlen : e.value.length = 64)
    (hzero : leAt e.value 60 4 = 0) (hv : v = ⟨leAt e.value 0 4,
      [leAt e.value 4 4, leAt e.value 8 4, leAt e.value 12 4], leAt e.value 16 32,
      leAt e.value 48 4, leAt e.value 52 4, leAt e.value 56 4, none⟩) :
    v.Fits ∧ v.entry e.key = e := by
  have hlast : e.value.drop 60 = leBytes 4 0 := by
    rw [drop_eq_leAt _ 60 4 (by omega), List.drop_eq_nil_of_le (by omega), List.append_nil, hzero]
  have h₀ := drop_eq_leAt e.value 0 4 (by omega)
  rw [drop_eq_leAt _ (0 + 4) 4 (by omega),
    drop_eq_leAt _ (0 + 4 + 4) 4 (by omega),
    drop_eq_leAt _ (0 + 4 + 4 + 4) 4 (by omega),
    drop_eq_leAt _ (0 + 4 + 4 + 4 + 4) 32 (by omega),
    drop_eq_leAt _ (0 + 4 + 4 + 4 + 4 + 32) 4 (by omega),
    drop_eq_leAt _ (0 + 4 + 4 + 4 + 4 + 32 + 4) 4 (by omega),
    drop_eq_leAt _ (0 + 4 + 4 + 4 + 4 + 32 + 4 + 4) 4 (by omega)] at h₀
  simp only [Nat.zero_add, Nat.reduceAdd, List.drop_zero, hlast] at h₀
  subst hv
  constructor
  · exact ⟨leAt_lt _ _ 4, ⟨_, _, _, rfl, leAt_lt _ _ 4, leAt_lt _ _ 4, leAt_lt _ _ 4⟩,
      Nat.lt_of_lt_of_le (leAt_lt _ _ 32) (by decide), leAt_lt _ _ 4, leAt_lt _ _ 4, leAt_lt _ _ 4⟩
  · simp only [Value.entry, List.flatMap_cons, List.flatMap_nil, List.append_nil, List.append_assoc,
      ← h₀]

/-- What is read is valid, and the bytes are those of its entry. -/
theorem Value.of_read {v : Value} {e : CatalogEntry} (hlen : e.value.length = 64)
    (h : Value.read e = .ok v) : v.Valid e.key ∧ v.entry e.key = e := by
  unfold Value.read at h
  dsimp only at h
  split_ifs at h with hform hterm hzero hlegacy hkey hok
  · -- the inline form
    rw [not_or, not_not] at hterm
    obtain ⟨pages, hpages, h⟩ := ok_of_bind h
    obtain rfl := Except.ok.inj h
    obtain ⟨hin, rfl⟩ := Value.inlinePages_iff.1 hpages
    have hlen54 : ((e.value.drop 4).take 54).length = 54 :=
      List.length_take_of_le (by rw [List.length_drop]; omega)
    refine ⟨.inline _ rfl hlen54 rfl rfl rfl rfl hterm.1 { hin with mask := nofun }, ?_⟩
    have hstart : e.value.drop 0 = leBytes 4 0 ++ e.value.drop 4 := by
      rw [drop_eq_leAt _ 0 4 (by omega), hform.1]
    have hlast : e.value.drop 58 = [0, 0] ++ leBytes 4 (leAt e.value 60 4) := by
      rw [drop_eq_leAt _ 58 2 (by omega), hterm.2, drop_eq_leAt _ (58 + 2) 4 (by omega),
        List.drop_eq_nil_of_le (by omega), List.append_nil]
      rfl
    have hmid : e.value.drop 4 = (e.value.drop 4).take 54 ++ e.value.drop 58 := by
      rw [← List.drop_drop (i := 54), List.take_append_drop]
    rw [hmid, hlast, List.drop_zero] at hstart
    exact congrArg (CatalogEntry.mk e.key) hstart.symm
  · -- the older form
    have hform : leAt e.value 60 4 = 0 := not_not.1 hzero
    obtain ⟨pages, hpages, h⟩ := ok_of_bind h
    obtain rfl := Except.ok.inj h
    obtain ⟨hfits, hentry⟩ := Value.of_fields hlen hform rfl
    exact ⟨.legacy hfits rfl hkey (Value.inlinePages_iff.1 hpages).1, hentry⟩
  · -- a record
    obtain rfl := Except.ok.inj h
    obtain ⟨hfits, hentry⟩ := Value.of_fields hlen (not_not.1 hzero) rfl
    exact ⟨.record hfits rfl hok, hentry⟩

/-! ### Writing sparse postings -/

theorem length_flatMap_leBytes {w : ℕ} : (cs.flatMap (leBytes w)).length = cs.length * w :=
  length_flatMap_const (fun _ => Reader.length_leBytes) cs

theorem stored_inlineValue (hlt : ∀ c ∈ cs, c < coordinateLimit) :
    (inlineValue mask cs).stored = cs :=
  storedCoordinates_bytes fun c hc => Nat.lt_of_lt_of_le (hlt c hc) (by decide)

theorem inlined_inlineValue (hlt : ∀ c ∈ cs, c < coordinateLimit) (h0 : cs ≠ [])
    (hlen : cs.length ≤ inlinePostings) (hoff : ∀ c ∈ cs, c % 512 < maxOffset)
    (hs : cs.Pairwise (· < ·)) : (inlineValue mask cs).Inlined maxOffset where
  len := rfl
  count := ⟨List.length_pos_iff.2 h0, hlen⟩
  zeros := fun b hb => by
    have hdrop : ((inlineValue mask cs).inlineBytes).drop (cs.length * 3) =
        List.replicate (inlinePostings * 3 - cs.length * 3) 0 :=
      List.drop_left' length_flatMap_leBytes
    change b ∈ (inlineValue mask cs).inlineBytes.drop (cs.length * 3) at hb
    rw [hdrop] at hb
    exact List.eq_of_mem_replicate hb
  offsets := by rwa [stored_inlineValue hlt]
  ascending := by rwa [stored_inlineValue hlt]
  mask := nofun

/-- An entry is returned for at most eighteen coordinates of ascending pages. -/
theorem Value.inlinePostings_iff {key : ℕ × ℕ} {layout : HeapLayout} {e : CatalogEntry}
    (hp : ∀ p ∈ pages, p.page < 256) : Value.inlinePostings key pages layout = .ok (some e) ↔
      key.1 ≠ 0 ∧ SortedPages pages ∧
        (∀ p ∈ pages, ∀ bit ∈ setBits p.offsets 512, bit < layout.maxOffset) ∧
        (0 < totalOffsets pages ∧ totalOffsets pages ≤ 18) ∧
        e = (inlineValue (maskPages 0 pages) (coordinatesOf pages)).entry key := by
  have hpack := @packPages_iff pages [] layout.maxOffset none 0
  rw [← length_coordinatesOf, List.length_pos_iff, Value.inlinePostings]
  constructor
  · intro h
    split_ifs at h with hbad
    obtain ⟨packed, hpacked, h⟩ := ok_of_bind h
    cases packed with
    | none => cases h
    | some packed =>
      obtain ⟨-, hs, hm, hr, hbits, hlen⟩ := (hpack (Nat.zero_le _)).1 hpacked
      dsimp only at h
      split_ifs at h with h0
      obtain ⟨_, -, h⟩ := ok_of_bind h
      obtain rfl := Option.some.inj (Except.ok.inj h)
      rw [List.nil_append] at hr
      rw [hr] at h0 hlen
      rw [hr, hm]
      rw [not_or] at hbad
      exact ⟨hbad.1, hs, hbits, ⟨h0, hlen⟩, rfl⟩
  · rintro ⟨hkey, hs, hbits, ⟨h0, hlen⟩, rfl⟩
    have hpages : pages ≠ [] := by
      rintro rfl
      exact h0 rfl
    have hoff : ∀ c ∈ coordinatesOf pages, c % 512 < layout.maxOffset := by
      intro c hc
      obtain ⟨p, hmem, -, hbit⟩ := mem_coordinatesOf.1 hc
      exact hbits p hmem _ (mem_setBits.2 ⟨Nat.mod_lt _ (by decide), hbit⟩)
    have hin : (inlineValue (maskPages 0 pages) (coordinatesOf pages)).Inlined layout.maxOffset :=
      inlined_inlineValue (fun c hc => coordinatesOf_lt hp hc) h0 hlen hoff
        (coordinatesOf_sorted hs)
    rw [if_neg (not_or.2 ⟨hkey, hpages⟩),
      (hpack (Nat.zero_le _)).2 ⟨nofun, hs, rfl, rfl, hbits, hlen⟩, ok_bind]
    simp only [List.nil_append, if_neg h0, Value.inlinePages_iff.2 ⟨hin, rfl⟩, ok_bind]

theorem valid_inlineValue {key : ℕ × ℕ} (hlt : ∀ c ∈ cs, c < coordinateLimit) (hkey : key.1 ≠ 0)
    (hin : (inlineValue (pageMask (collectPages cs)) cs).Inlined 512) :
    (inlineValue (pageMask (collectPages cs)) cs).Valid key := by
  refine .inline _ rfl ?_ rfl ?_ rfl rfl hkey hin
  · have hcount : cs.length ≤ 18 := hin.count.2
    rw [List.length_append, length_flatMap_leBytes, List.length_replicate, inlinePostings]
    omega
  · rw [stored_inlineValue hlt]
    rfl

/-- What is written is read as the value of its coordinates. -/
theorem Value.read_inlinePostings {key : ℕ × ℕ} {layout : HeapLayout} {e : CatalogEntry}
    (hp : ∀ p ∈ pages, p.page < 256) (h : Value.inlinePostings key pages layout = .ok (some e)) :
    Value.read e = .ok (inlineValue (pageMask (collectPages (coordinatesOf pages)))
      (coordinatesOf pages)) ∧
    (inlineValue (pageMask (collectPages (coordinatesOf pages))) (coordinatesOf pages)).Inlined
      layout.maxOffset := by
  obtain ⟨hkey, hs, hbits, ⟨h0, hlen⟩, rfl⟩ := (Value.inlinePostings_iff hp).1 h
  rw [← length_coordinatesOf] at h0 hlen
  have hlt : ∀ c ∈ coordinatesOf pages, c < coordinateLimit := fun c hc => coordinatesOf_lt hp hc
  have hoff : ∀ c ∈ coordinatesOf pages, c % 512 < layout.maxOffset := by
    intro c hc
    obtain ⟨p, hmem, -, hbit⟩ := mem_coordinatesOf.1 hc
    exact hbits p hmem _ (mem_setBits.2 ⟨Nat.mod_lt _ (by decide), hbit⟩)
  have hin := @inlined_inlineValue _ layout.maxOffset
    (pageMask (collectPages (coordinatesOf pages))) hlt (List.length_pos_iff.1 h0) hlen hoff
    (coordinatesOf_sorted hs)
  -- the mask is not written
  exact ⟨Value.read_entry (valid_inlineValue hlt hkey (hin.mono layout.le)), hin⟩

end

end Grouped

end PinCore
