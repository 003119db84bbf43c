import PinCore.Document.Prepare

/-!
# Term membership

`TermMembership.new` sorts the wanted names once; `read` merges them with the directory of a
payload and returns the mask of those that occur in it.  The positions are counted, not decoded.
-/

namespace PinCore

open Reader

/-- The count of an encoded stream, which may not exceed the bytes after it. -/
def streamCount (tokens : ℕ) (stream : List UInt8) : Except Error ℕ :=
  match u32 (Reader.new stream) with
  | (.error e, _) => .error e
  | (.ok count, encoded) =>
    if count = 0 ∨ tokens < count ∨ encoded.remaining < count then .error .invalidDocument
    else .ok count

/-- Query-constant ordering: the indices of the names that are given, sorted by name. -/
structure TermMembership where
  names : List (Option Text)
  order : List ℕ

namespace TermMembership

/-- One insertion.  The sorted indices are given last first, as the loop visits them. -/
def insertIndex (names : List (Option Text)) (index : ℕ) (name : Text) :
    List ℕ → Except Error (List ℕ)
  | [] => .ok [index]
  | previous :: rest =>
    match names.getD previous none with
    | none => .error .invalidState
    | some previousName =>
      if previousName ≤ name then .ok (index :: previous :: rest)
      else do
        let rest ← insertIndex names index name rest
        .ok (previous :: rest)

/-- The names from `index` on, inserted one by one. -/
def orderFrom (names : List (Option Text)) : ℕ → List (Option Text) → List ℕ →
    Except Error (List ℕ)
  | _, [], order => .ok order
  | index, none :: rest, order => orderFrom names (index + 1) rest order
  | index, some name :: rest, order => do
    let order ← insertIndex names index name order
    orderFrom names (index + 1) rest order

/-- The reader of at most 64 names, in the order of the names. -/
def new (names : List (Option Text)) : Except Error TermMembership :=
  if 64 < names.length then .error (.limit "document membership")
  else do
    let order ← orderFrom names 0 names []
    .ok ⟨names, order.reverse⟩

/-- One directory entry: its term and the number of its positions. -/
def entry (tokens : ℕ) (previous : Option Text) : Parse (Text × ℕ) := do
  let len ← u16
  Read.ensure (len ≠ 0 ∧ len ≤ maxTermBytes) .invalidDocument
  let reserved ← u16
  Read.ensure (reserved = 0) .invalidDocument
  let positionBytes ← u32
  let term ← take len
  Read.ensure (utf8 term = true) .invalidDocument
  Read.ensure (∀ t ∈ previous, t < term) .invalidDocument
  let stream ← take positionBytes
  let count ← Read.ofExcept (streamCount tokens stream)
  return (term, count)

/-- Passes the names up to `term`, marking those that are equal to it. -/
def advance (names : List (Option Text)) (term : Text) : ℕ → List ℕ → Except Error (ℕ × List ℕ)
  | membership, [] => .ok (membership, [])
  | membership, index :: query =>
    match names.getD index none with
    | none => .error .invalidState
    | some name =>
      if name < term then advance names term membership query
      else if name ≠ term then .ok (membership, index :: query)
      else advance names term (membership ||| 2 ^ index) query

/-- The entries in order; returns the membership and the number of positions. -/
def readFrom (names : List (Option Text)) (tokens : ℕ) :
    ℕ → Option Text → ℕ → ℕ → List ℕ → Parse (ℕ × ℕ)
  | 0, _, positions, membership, _ => return (membership, positions)
  | n + 1, previous, positions, membership, query => do
    let (term, count) ← entry tokens previous
    Read.ensure (positions + count < u32Limit) .invalidDocument
    let (membership, query) ← Read.ofExcept (advance names term membership query)
    readFrom names tokens n (some term) (positions + count) membership query

/-- Exact term membership, without decoding the positions. -/
def read (m : TermMembership) (bytes : List UInt8) (expectedTokens expectedTerms : ℕ) :
    Except Error ℕ :=
  if maxDocumentBytes < bytes.length then .error (.limit "document membership")
  else
    match Document.header (Reader.new bytes) with
    | (.error e, _) => .error e
    | (.ok (tokens, terms), reader) =>
      if tokens ≠ expectedTokens ∨ terms ≠ expectedTerms ∨ maxDocumentTokens < tokens ∨
          tokens < terms then .error .invalidDocument
      else
        match readFrom m.names tokens terms none 0 0 m.order reader with
        | (.error e, _) => .error e
        | (.ok (membership, positions), reader) => do
          reader.finish
          if positions ≠ tokens then .error .invalidDocument else .ok membership

end TermMembership

/-! ### The order of the names -/

namespace TermMembership

section

variable {names : List (Option Text)} {ps : List (ℕ × Text)} {i index : ℕ} {n name term : Text}

/-- The pairs name the indices. -/
def Named (names : List (Option Text)) (ps : List (ℕ × Text)) : Prop :=
  ∀ x ∈ ps, names[x.1]? = some (some x.2)

theorem Named.getD (h : Named names ps) {x : ℕ × Text} (hx : x ∈ ps) :
    names.getD x.1 none = some x.2 := by
  rw [List.getD_eq_getElem?_getD, h x hx]
  rfl

theorem Named.tail {x : ℕ × Text} (h : Named names (x :: ps)) : Named names ps :=
  fun y hy => h y (List.mem_cons_of_mem _ hy)

/-- An insertion keeps the order. -/
theorem insertIndex_eq (hn : Named names ps) (hs : ps.Pairwise fun x y => y.2 ≤ x.2) :
    ∃ qs : List (ℕ × Text), insertIndex names index name (ps.map Prod.fst) = .ok (qs.map Prod.fst) ∧
      (qs.Pairwise fun x y => y.2 ≤ x.2) ∧ ∀ x, x ∈ qs ↔ x = (index, name) ∨ x ∈ ps := by
  induction ps with
  | nil => exact ⟨[(index, name)], rfl, List.pairwise_singleton _ _, fun x => by simp⟩
  | cons p ps ih =>
    obtain ⟨hp, hs'⟩ := List.pairwise_cons.1 hs
    rw [List.map_cons, insertIndex, hn.getD List.mem_cons_self]
    simp only
    split_ifs with hle
    · refine ⟨(index, name) :: p :: ps, rfl, List.pairwise_cons.2 ⟨fun x hx => ?_, hs⟩,
        fun x => List.mem_cons⟩
      rcases List.mem_cons.1 hx with rfl | hx
      · exact hle
      · exact List.le_trans (hp x hx) hle
    · obtain ⟨qs, hq, hsorted, hmem⟩ := ih hn.tail hs'
      refine ⟨p :: qs, by rw [hq]; rfl, List.pairwise_cons.2 ⟨fun x hx => ?_, hsorted⟩,
        fun x => ?_⟩
      · rcases (hmem x).1 hx with rfl | hx
        · exact List.le_of_lt (List.not_le.1 hle)
        · exact hp x hx
      · rw [List.mem_cons, hmem, List.mem_cons]
        exact or_left_comm

/-- The loop sorts the indices of the given names. -/
theorem orderFrom_eq {rest : List (Option Text)} (hn : Named names ps)
    (hs : ps.Pairwise fun x y => y.2 ≤ x.2) (hrest : rest = names.drop index) :
    ∃ qs : List (ℕ × Text), orderFrom names index rest (ps.map Prod.fst) = .ok (qs.map Prod.fst) ∧
      (qs.Pairwise fun x y => y.2 ≤ x.2) ∧
      ∀ x, x ∈ qs ↔ x ∈ ps ∨ (index ≤ x.1 ∧ names[x.1]? = some (some x.2)) := by
  induction rest generalizing index ps with
  | nil =>
    refine ⟨ps, rfl, hs, fun x => ⟨.inl, ?_⟩⟩
    rintro (h | ⟨h₁, h₂⟩)
    · exact h
    · have hlt := (List.getElem?_eq_some_iff.1 h₂).1
      have hlen := List.drop_eq_nil_iff.1 hrest.symm
      omega
  | cons o rest ih =>
    have hget : names[index]? = some o := by
      rw [← List.head?_drop, ← hrest]
      rfl
    have htail : rest = names.drop (index + 1) := by
      rw [← List.tail_drop, ← hrest]
      rfl
    have hstep : ∀ x : ℕ × Text, (index ≤ x.1 ∧ names[x.1]? = some (some x.2)) ↔
        (o = some x.2 ∧ x.1 = index) ∨ (index + 1 ≤ x.1 ∧ names[x.1]? = some (some x.2)) := by
      intro x
      constructor
      · rintro ⟨h₁, h₂⟩
        rcases Nat.eq_or_lt_of_le h₁ with h | h
        · rw [← h, hget] at h₂
          exact .inl ⟨Option.some.inj h₂, h.symm⟩
        · exact .inr ⟨h, h₂⟩
      · rintro (⟨rfl, h⟩ | ⟨h₁, h₂⟩)
        · exact ⟨Nat.le_of_eq h.symm, by rw [h, hget]⟩
        · exact ⟨Nat.le_of_lt h₁, h₂⟩
    cases o with
    | none =>
      obtain ⟨qs, hq, hsorted, hmem⟩ := ih hn hs htail
      refine ⟨qs, hq, hsorted, fun x => ?_⟩
      rw [hmem, hstep]
      simp
    | some name =>
      obtain ⟨qs, hq, hsorted, hmem⟩ : ∃ qs : List (ℕ × Text),
          insertIndex names index name (ps.map Prod.fst) = .ok (qs.map Prod.fst) ∧ _ :=
        insertIndex_eq hn hs
      have hnamed : Named names qs := fun x hx => by
        rcases (hmem x).1 hx with rfl | hx
        · exact hget
        · exact hn x hx
      obtain ⟨rs, hr, hsorted', hmem'⟩ := ih hnamed hsorted htail
      refine ⟨rs, by rw [orderFrom, hq]; exact hr, hsorted', fun x => ?_⟩
      have hx : x = (index, name) ↔ some name = some x.2 ∧ x.1 = index := by
        rw [Prod.ext_iff, Option.some.injEq]
        simp only
        constructor
        · exact fun h => ⟨h.2.symm, h.1⟩
        · exact fun h => ⟨h.2, h.1.symm⟩
      rw [hmem', hmem, hstep, hx]
      tauto

theorem new_eq (hlen : names.length ≤ 64) :
    ∃ ps : List (ℕ × Text), new names = .ok ⟨names, ps.map Prod.fst⟩ ∧
    (ps.Pairwise fun x y => x.2 ≤ y.2) ∧ ∀ x, x ∈ ps ↔ names[x.1]? = some (some x.2) := by
  have hnil : Named names [] := fun _ h => absurd h List.not_mem_nil
  obtain ⟨qs, hq, hsorted, hmem⟩ : ∃ qs : List (ℕ × Text),
      orderFrom names 0 names ([].map Prod.fst) = .ok (qs.map Prod.fst) ∧ _ :=
    orderFrom_eq hnil .nil rfl
  refine ⟨qs.reverse, ?_, List.pairwise_reverse.2 hsorted, fun x => ?_⟩
  · rw [List.map_nil] at hq
    rw [new, if_neg (Nat.not_lt.2 hlen), hq, ok_bind, List.map_reverse]
  · rw [List.mem_reverse, hmem]
    simp

/-- The names up to `term` are passed; those equal to it are marked. -/
theorem advance_eq (term : Text) (m : ℕ) (hn : Named names ps)
    (hs : ps.Pairwise fun x y => x.2 ≤ y.2) :
    ∃ (m' : ℕ) (qs : List (ℕ × Text)),
      advance names term m (ps.map Prod.fst) = .ok (m', qs.map Prod.fst) ∧
      Named names qs ∧ (qs.Pairwise fun x y => x.2 ≤ y.2) ∧
      (∀ i, m'.testBit i = true ↔ m.testBit i = true ∨ (i, term) ∈ ps) ∧
      ∀ x : ℕ × Text, term < x.2 → (x ∈ qs ↔ x ∈ ps) := by
  induction ps generalizing m with
  | nil => exact ⟨m, [], rfl, hn, hs, fun i => by simp, fun x _ => Iff.rfl⟩
  | cons p ps ih =>
    obtain ⟨hp, hs'⟩ := List.pairwise_cons.1 hs
    rw [List.map_cons, advance, hn.getD List.mem_cons_self]
    simp only
    split_ifs with hlt hne
    · obtain ⟨m', qs, hq, hn', hsorted, hbits, hmem⟩ := ih m hn.tail hs'
      refine ⟨m', qs, hq, hn', hsorted, fun i => ?_, fun x hx => ?_⟩
      · have hhead : (i, term) ≠ p := by
          rintro rfl
          exact List.lt_irrefl _ hlt
        rw [hbits, List.mem_cons, or_iff_right hhead]
      · have hhead : x ≠ p := by
          rintro rfl
          exact List.lt_irrefl _ (List.lt_trans hx hlt)
        rw [hmem x hx, List.mem_cons, or_iff_right hhead]
    · refine ⟨m, p :: ps, rfl, hn, hs, fun i => ?_, fun x _ => Iff.rfl⟩
      refine ⟨.inl, fun h => h.resolve_right fun hm => ?_⟩
      -- every name from here on is later than the term
      rcases List.mem_cons.1 hm with rfl | hm
      · exact hne rfl
      · rcases List.le_iff_lt_or_eq.1 (hp _ hm) with h | h
        · exact hlt h
        · exact hne h
    · obtain ⟨m', qs, hq, hn', hsorted, hbits, hmem⟩ := ih (m ||| 2 ^ p.1) hn.tail hs'
      have hterm : p.2 = term := not_not.1 hne
      refine ⟨m', qs, hq, hn', hsorted, fun i => ?_, fun x hx => ?_⟩
      · have hhead : (i, term) = p ↔ p.1 = i := by
          rw [Prod.ext_iff, hterm]
          simp [eq_comm]
        rw [hbits, testBit_mark, Bool.or_eq_true, decide_eq_true_iff, List.mem_cons, hhead,
          or_assoc]
      · have hhead : x ≠ p := by
          rintro rfl
          exact List.lt_irrefl _ (hterm ▸ hx)
        rw [hmem x hx, List.mem_cons, or_iff_right hhead]

end

/-! ### The pass over the directory -/

section

variable {names : List (Option Text)} {ps : List (ℕ × Text)} {tokens seen : ℕ}
  {previous : Text} {start : Option Text} {recs : List TermPositions} {x : TermPositions}
  {r r' : Reader}

theorem streamCount_eq (hne : x.2 ≠ []) (hle : x.2.length ≤ tokens)
    (hlt : (positionBytes x.2).length < u32Limit) :
    streamCount tokens (positionBytes x.2) = .ok x.2.length := by
  have hcount := length_le_deltaBytes 0 x.2
  have hsize : (positionBytes x.2).length = 4 + (deltaBytes 0 x.2).length := by
    rw [positionBytes, List.length_append, length_bytesU32]
  have hlimit : u32Limit < usizeLimit := by decide
  have hf : (Reader.new (positionBytes x.2)).Fits := by
    unfold Reader.Fits Reader.new
    simp only
    omega
  have hpast : Past (Reader.new (positionBytes x.2)) (bytesU32 x.2.length)
      ⟨deltaBytes 0 x.2, 4⟩ := ⟨rfl, rfl⟩
  have hpos : x.2.length ≠ 0 := fun h0 => hne (List.length_eq_zero_iff.1 h0)
  rw [streamCount, u32_past hf (by omega) hpast]
  exact if_neg (by simp only [Reader.remaining]; omega)

/-- The cursor stands before the encodings of `recs`, and nothing follows them. -/
structure At (r : Reader) (recs : List TermPositions) : Prop where
  fits : r.Fits
  bytes_le : r.rest.length ≤ maxDocumentBytes
  rest : r.rest = recs.flatMap recordBytes

theorem At.entry (h : At r (x :: recs)) (hstart : ∀ t ∈ start, t < x.1)
    (hok : Follows tokens previous seen (x :: recs)) :
    ∃ r', entry tokens start r = (.ok (x.1, x.2.length), r') ∧ At r' recs := by
  obtain ⟨⟨-, ⟨hterm, hmax, hutf⟩, ha, hne, hl, -⟩, -⟩ := Follows.cons_iff.1 hok
  obtain ⟨hf, hbytes, hrest⟩ := h
  rw [List.flatMap_cons] at hrest
  have hpast : Past r (recordBytes x) ⟨recs.flatMap recordBytes,
      r.offset + (recordBytes x).length⟩ :=
    ⟨hrest, rfl⟩
  have hle := hpast.length_le
  have hlen : (positionBytes x.2).length < u32Limit := by
    have : maxDocumentBytes < u32Limit := by decide
    have := length_positionBytes_le (x := x)
    omega
  refine ⟨_, ?_, hpast.fits hf, by simp only at hle ⊢; omega, rfl⟩
  have hmax' : x.1.length ≤ 1024 := hmax
  have hpos : x.1.length ≠ 0 := fun h0 => hterm (List.length_eq_zero_iff.1 h0)
  obtain ⟨h, hpositions⟩ := hpast.split
  obtain ⟨h, htake⟩ := h.split
  obtain ⟨h, hcount⟩ := h.split
  obtain ⟨hsize, hreserved⟩ := h.split
  have hf₁ := hsize.fits hf
  have hf₂ := hreserved.fits hf₁
  have hf₃ := hcount.fits hf₂
  have hf₄ := htake.fits hf₃
  unfold TermMembership.entry
  rw [Read.ok_bind (u16_past hf (by omega) hsize), Read.ensure_bind ⟨hpos, hmax⟩,
    Read.ok_bind (u16_past hf₁ (by decide) hreserved), Read.ensure_bind rfl,
    Read.ok_bind (u32_past hf₂ hlen hcount), Read.ok_bind (take_past hf₃ htake),
    Read.ensure_bind hutf, Read.ensure_bind hstart, Read.ok_bind (take_past hf₄ hpositions),
    Read.ofExcept_bind (streamCount_eq hne (length_positions_le ha hl) hlen)]
  rfl

/-- The pass marks just the names that the directory lists. -/
theorem readFrom_eq (start : Option Text) (positions m : ℕ)
    (hok : Follows tokens previous seen recs) (hat : At r recs)
    (htok : tokens ≤ maxDocumentTokens) (hstart : ∀ t ∈ start, t = previous) (hn : Named names ps)
    (hs : ps.Pairwise fun x y => x.2 ≤ y.2)
    (hpos : positions + (recs.flatMap Prod.snd).length ≤ tokens) :
    ∃ m' r', readFrom names tokens recs.length start positions m (ps.map Prod.fst) r =
        (.ok (m', positions + (recs.flatMap Prod.snd).length), r') ∧ r'.rest = [] ∧
      ∀ i, m'.testBit i = true ↔
        m.testBit i = true ∨ ∃ t ∈ recs.map Prod.fst, (i, t) ∈ ps := by
  induction recs generalizing previous seen start r positions m ps with
  | nil => exact ⟨m, r, rfl, hat.rest, fun i => by simp⟩
  | cons x recs ih =>
    obtain ⟨⟨hprev, -⟩, hok'⟩ := Follows.cons_iff.1 hok
    rw [List.flatMap_cons, List.length_append] at hpos ⊢
    have hstart' : ∀ t ∈ start, t < x.1 := fun t ht => by
      rw [hstart t ht]
      exact hprev
    obtain ⟨r₁, hentry, hat'⟩ := hat.entry hstart' hok
    obtain ⟨m₁, qs, hadv, hn', hsorted, hbits, hmem⟩ := advance_eq x.1 m hn hs
    obtain ⟨m', r', hread, hend, hbits'⟩ := ih (some x.1) (positions + x.2.length) m₁
      hok' hat' (fun t ht => (Option.some.inj ht).symm) hn' hsorted (by omega)
    have hlimit : positions + x.2.length < u32Limit := by
      have : maxDocumentTokens < u32Limit := by decide
      omega
    refine ⟨m', r', ?_, hend, fun i => ?_⟩
    · rw [List.length_cons, readFrom, Read.ok_bind hentry]
      simp only
      rw [Read.ensure_bind hlimit, Read.ofExcept_bind hadv]
      simp only
      rw [hread, Nat.add_assoc]
    · -- the later terms only meet names that this one left
      have hlater : (∃ t ∈ recs.map Prod.fst, (i, t) ∈ qs) ↔
          ∃ t ∈ recs.map Prod.fst, (i, t) ∈ ps := by
        refine exists_congr fun t => and_congr_right fun ht => ?_
        exact hmem (i, t) ((List.pairwise_cons.1 hok'.sorted).1 t ht)
      rw [hbits', hbits, hlater, List.map_cons, or_assoc]
      simp only [List.mem_cons, exists_eq_or_imp]

end

end TermMembership

/-- On an accepted payload the membership mask has a bit for each name, and it is set just when the
name is given and is one of the document's terms. -/
theorem TermMembership.read_eq (names : List (Option Text)) (bytes : List UInt8)
    (tokens terms memoryBytes : ℕ) (hlen : names.length ≤ 64)
    (hv : Document.validate bytes memoryBytes = .ok (tokens, terms)) :
    ∃ m mask recs, TermMembership.new names = .ok m ∧
      m.read bytes tokens terms = .ok mask ∧
      Payload.decode ⟨bytes, tokens, terms⟩ = .ok recs ∧
      ∀ i, mask.testBit i = true ↔
        ∃ name, names[i]? = some (some name) ∧ name ∈ recs.map Prod.fst := by
  obtain ⟨recs, rfl, rfl, hdir, hbytes⟩ := of_validate hv
  obtain ⟨ps, hnew, hsorted, hmem⟩ := new_eq hlen
  have htok := hdir.tokens_le
  have hterms := hdir.terms_le
  have hat := at_directory hbytes
  obtain ⟨mask, r', hread, hend, hbits⟩ := readFrom_eq none 0 0 hdir.follows
    ⟨hat.fits, hat.bytes_le, rfl⟩ htok nofun (fun x hx => (hmem x).1 hx) hsorted
      (by rw [hdir.length, Nat.zero_add])
  rw [hdir.length, Nat.zero_add] at hread
  refine ⟨_, mask, recs, hnew, ?_, hdir.decode hbytes, fun i => ?_⟩
  · rw [TermMembership.read, if_neg (Nat.not_lt.2 hbytes), hdir.header hbytes]
    simp only
    rw [if_neg (by omega), hread]
    simp only
    rw [Positions.finish_iff.2 hend]
    simp only [ok_bind, ne_eq, not_true_eq_false, if_false]
  · rw [hbits, Nat.zero_testBit]
    simp only [Bool.false_eq_true, false_or, hmem]
    exact ⟨fun ⟨t, h₁, h₂⟩ => ⟨t, h₂, h₁⟩, fun ⟨t, h₁, h₂⟩ => ⟨t, h₂, h₁⟩⟩

set_option maxRecDepth 10000 in
theorem TermMembership.read_bab :
    ∃ m mask recs, TermMembership.new [some [98], none, some [99], some [98], some []] = .ok m ∧
      m.read (payload babDocument) 3 2 = .ok mask ∧
      Payload.decode ⟨payload babDocument, 3, 2⟩ = .ok recs ∧
      ∀ i, mask.testBit i = true ↔
        ∃ name, [some [98], none, some [99], some [98], some []][i]? = some (some name) ∧
          name ∈ recs.map Prod.fst :=
  TermMembership.read_eq [some [98], none, some [99], some [98], some []] (payload babDocument) 3 2
    64 (by decide) (by decide +kernel)

end PinCore
