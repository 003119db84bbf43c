import PinCore.Grouped.Append
import PinCore.Grouped.Codec

/-!
# Catalog trees

A catalog is a tree of node pages of uniform depth.  `Under` says which leaf entries lie under an
entry of a node at some level; the key of a branch entry is the first key below it.
-/

namespace PinCore

namespace Grouped

/-- The branch entry that names the node page `child`. -/
def branchEntry (key : ℕ × ℕ) (child : ℕ) : CatalogEntry :=
  ⟨key, leBytes 4 child ++ List.replicate 60 0⟩

/-- The leaf entries under an entry of a node at `level`. -/
def Under (s : Store) (id : ℕ) : ℕ → CatalogEntry → List CatalogEntry → Prop
  | 0, e, es => es = [e]
  | level + 1, e, es => ∃ block entries parts, child e = .ok block ∧
      s.body block = .grouped (.node id level entries) ∧
      List.Forall₂ (Under s id level) entries parts ∧ es = parts.flatten ∧
      es.head?.map (·.key) = some e.key

/-- The leaf entries of the tree with the node page `block` at the top. -/
def UnderNode (s : Store) (id level block : ℕ) (es : List CatalogEntry) : Prop :=
  ∃ entries parts, s.body block = .grouped (.node id level entries) ∧ entries ≠ [] ∧
    List.Forall₂ (Under s id level) entries parts ∧ es = parts.flatten

/-- Catalog entries in key order. -/
def KeySorted (es : List CatalogEntry) : Prop := es.Pairwise fun a b => keyLt a.key b.key

/-- Node pages of the catalog keep their entries. -/
def NodesKept (id : ℕ) (s s' : Store) : Prop :=
  ∀ c level es, s.body c = .grouped (.node id level es) → s'.body c = .grouped (.node id level es)

section

variable {s s' : Store} {id level block : ℕ} {e : CatalogEntry} {es entries : List CatalogEntry}
  {parts : List (List CatalogEntry)} {key : ℕ × ℕ}

theorem keyLt_trans {a b c : ℕ × ℕ} (h : keyLt a b) (h' : keyLt b c) : keyLt a c := by
  unfold keyLt at *
  omega

theorem keyLt_irrefl (a : ℕ × ℕ) : ¬ keyLt a a := by
  unfold keyLt
  omega

theorem child_branchEntry (h0 : block ≠ 0) (hlt : block < noBlock) :
    child (branchEntry key block) = .ok block := by
  have hat : leAt (branchEntry key block).value 0 4 = block := by
    have hdrop : (branchEntry key block).value.drop 0 = leBytes 4 block ++
        List.replicate 60 0 := rfl
    refine (leAt_of_drop hdrop ?_).1
    exact Nat.lt_trans hlt (by decide)
  have hdrop : (branchEntry key block).value.drop 4 = List.replicate 60 0 :=
    List.drop_left' Reader.length_leBytes
  rw [child, hat, if_neg]
  rintro (h | h | h)
  · exact h0 h
  · exact Nat.ne_of_lt hlt h
  · exact h hdrop

theorem leU32_eq (bytes : List UInt8) (h : 4 ≤ bytes.length) : leU32 bytes 0 = leAt bytes 0 4 := by
  obtain ⟨a, b, c, d, rest, rfl⟩ : ∃ a b c d rest, bytes = a :: b :: c :: d :: rest := by
    rcases bytes with _ | ⟨a, _ | ⟨b, _ | ⟨c, _ | ⟨d, rest⟩⟩⟩⟩
    · exact absurd h (by decide)
    · exact absurd h (by rw [List.length_singleton]; decide)
    · exact absurd h (by rw [List.length_cons, List.length_singleton]; decide)
    · exact absurd h (by rw [List.length_cons, List.length_cons, List.length_singleton]; decide)
    · exact ⟨a, b, c, d, rest, rfl⟩
  change a.toNat + b.toNat * 256 + c.toNat * 65536 + d.toNat * 16777216 =
    a.toNat + 256 * (b.toNat + 256 * (c.toNat + 256 * (d.toNat + 256 * 0)))
  omega

/-- What a branch entry with a child looks like. -/
theorem child_ok {b : ℕ} (h : child e = .ok b) :
    blockValid b ∧ leU32 e.value 0 = b ∧ e.value.drop 4 = List.replicate 60 0 ∧
      e.value.length = 64 := by
  unfold child at h
  split_ifs at h with hc
  cases h
  obtain ⟨h0, hn, hd⟩ : leAt e.value 0 4 ≠ 0 ∧ leAt e.value 0 4 ≠ noBlock ∧
      e.value.drop 4 = List.replicate 60 0 := by
    refine ⟨fun h => hc (.inl h), fun h => hc (.inr (.inl h)), ?_⟩
    by_contra h
    exact hc (.inr (.inr h))
  have hlen := congrArg List.length hd
  rw [List.length_drop, List.length_replicate] at hlen
  exact ⟨⟨h0, hn⟩, leU32_eq _ (by omega), hd, by omega⟩

/-- The view of a valid node page. -/
theorem groupNode_of_ok {p : Page} {b : ℕ} (h : (GroupBody.node id level entries).Ok b)
    (hbody : p.body = .grouped (.node id level entries)) : groupNode p = .ok (level, entries) := by
  rw [groupNode, hbody]
  refine if_neg ?_
  rintro (h₁ | h₁ | h₁)
  · exact absurd h.2.1 (Nat.not_le.2 h₁)
  · exact h.2.2.1 h₁
  · exact absurd h.2.2.2.1 (Nat.not_le.2 h₁)

/-! ### Under an entry -/

theorem Under.kept (hk : NodesKept id s s') (h : Under s id level e es) :
    Under s' id level e es := by
  induction level generalizing e es with
  | zero => exact h
  | succ level ih =>
    obtain ⟨block, entries, parts, hc, hn, hp, hes⟩ := h
    exact ⟨block, entries, parts, hc, hk _ _ _ hn, hp.imp fun _ _ => ih, hes⟩

theorem UnderNode.kept (hk : NodesKept id s s') (h : UnderNode s id level block es) :
    UnderNode s' id level block es := by
  obtain ⟨entries, parts, hn, hne, hp, hes⟩ := h
  exact ⟨entries, parts, hk _ _ _ hn, hne, hp.imp fun _ _ => Under.kept hk, hes⟩

theorem nodesKept_of_body (hb : ∀ c g, s.body c = .grouped g → s'.body c = .grouped g) :
    NodesKept id s s' := fun c _ _ => hb c _

theorem Under.mono (hb : ∀ c g, s.body c = .grouped g → s'.body c = .grouped g)
    (h : Under s id level e es) : Under s' id level e es := h.kept (nodesKept_of_body hb)

theorem UnderNode.mono (hb : ∀ c g, s.body c = .grouped g → s'.body c = .grouped g)
    (h : UnderNode s id level block es) : UnderNode s' id level block es :=
  h.kept (nodesKept_of_body hb)

/-- The first entry under an entry has its key. -/
theorem Under.head (h : Under s id level e es) : es.head?.map (·.key) = some e.key := by
  cases level with
  | zero =>
    obtain rfl : es = [e] := h
    rfl
  | succ level =>
    obtain ⟨_, _, _, _, _, _, _, hk⟩ := h
    exact hk

theorem Under.ne_nil (h : Under s id level e es) : es ≠ [] := by
  rintro rfl
  exact absurd h.head (by simp)

theorem Under.first (h : Under s id level e es) : ∃ f fs, es = f :: fs ∧ f.key = e.key := by
  have hk := h.head
  cases es with
  | nil => cases hk
  | cons f fs => exact ⟨f, fs, rfl, Option.some.inj hk⟩

theorem Under.node (h : Under s id (level + 1) e es) :
    ∃ block, child e = .ok block ∧ UnderNode s id level block es := by
  have hne := h.ne_nil
  obtain ⟨block, entries, parts, hc, hn, hp, rfl, -⟩ := h
  refine ⟨block, hc, entries, parts, hn, ?_, hp, rfl⟩
  rintro rfl
  cases hp
  exact hne rfl

/-- A branch entry has one list of leaf entries below it. -/
theorem Under.unique {es' : List CatalogEntry} (h : Under s id level e es)
    (h' : Under s id level e es') : es = es' := by
  induction level generalizing e es es' with
  | zero => exact Eq.trans h (Eq.symm h')
  | succ level ih =>
    obtain ⟨b, entries, parts, hc, hb, hp, rfl, -⟩ := h
    obtain ⟨b', entries', parts', hc', hb', hp', rfl, -⟩ := h'
    obtain rfl := Except.ok.inj (hc.symm.trans hc')
    obtain rfl : entries = entries' := by
      rw [hb] at hb'
      injection hb' with hb'
      injection hb'
    have hunique : Relator.RightUnique (Under s id level) := fun _ _ _ h h' => ih h h'
    rw [List.right_unique_forall₂' hunique hp hp']

theorem UnderNode.unique {level' : ℕ} {es' : List CatalogEntry} (h : UnderNode s id level block es)
    (h' : UnderNode s id level' block es') : es = es' := by
  obtain ⟨entries, parts, hb, -, hp, rfl⟩ := h
  obtain ⟨entries', parts', hb', -, hp', rfl⟩ := h'
  rw [hb] at hb'
  injection hb' with hb'
  injection hb' with _ hlevel hentries
  subst hlevel hentries
  have hunique : Relator.RightUnique (Under s id level) := fun _ _ _ h h' => h.unique h'
  rw [List.right_unique_forall₂' hunique hp hp']

theorem forall₂_mem_left {α β : Type*} {R : α → β → Prop} {as : List α} {bs : List β}
    (h : List.Forall₂ R as bs) {a : α} (ha : a ∈ as) : ∃ b ∈ bs, R a b := by
  induction h with
  | nil => exact absurd ha List.not_mem_nil
  | @cons c d cs ds hr _ ih =>
    rcases List.mem_cons.1 ha with rfl | ha
    · exact ⟨d, List.mem_cons_self, hr⟩
    · obtain ⟨b, hb, hab⟩ := ih ha
      exact ⟨b, List.mem_cons_of_mem _ hb, hab⟩

/-- The keys of the entries of a node are first keys of consecutive stretches. -/
theorem forall₂_under_sorted (h : List.Forall₂ (Under s id level) entries parts)
    (hs : KeySorted parts.flatten) : KeySorted entries := by
  induction h with
  | nil => exact List.Pairwise.nil
  | @cons e p entries parts hu hrest ih =>
    rw [List.flatten_cons] at hs
    obtain ⟨-, hs₂, hs₃⟩ := List.pairwise_append.1 hs
    refine List.pairwise_cons.2 ⟨fun f hf => ?_, ih hs₂⟩
    obtain ⟨a, as, rfl, ha⟩ := hu.first
    obtain ⟨q, hq, hfq⟩ := forall₂_mem_left hrest hf
    obtain ⟨c, cs, rfl, hc⟩ := hfq.first
    rw [← ha, ← hc]
    exact hs₃ a List.mem_cons_self c (List.mem_flatten.2 ⟨_, hq, List.mem_cons_self⟩)

end

end Grouped

end PinCore
