import PinCore.Run.Reachable
import PinCore.Scan.Seek

/-!
# Successive owners

What the calls of `Plan.seek` return on an opened plan, one after the other.
-/

namespace PinCore

section

variable {s : Store} {m : MetaBody} {p : Plan} {z : Sizes} {q : Query} {memoryBytes : ℕ}
  {lists : Text → List OwnerRef}

/-- A plan whose root is a term or an operator, opened on a store and called again and again with
the owner that it returned last: each call returns the least owner past it in the set that the plan
denotes over the posting lists of its terms, or nothing if there is none.  Whatever the cursors do,
the interpreter never holds more pending tasks than the plan has nodes. -/
theorem planSeek_next (hw : WF True s m) (hb : Plan.build z q memoryBytes = .ok p)
    (hroot : (∃ text c, p.nodes.getD p.root .empty = .term text c) ∨
      ∃ a b, p.nodes.getD p.root .empty = .and a b ∨ p.nodes.getD p.root .empty = .or a b)
    (hl : ∀ x, TermRefs s x (lists x)) :
    ∃ p₀ t₀, p.openPlan (fun _ => s) 0 = .ok (p₀, t₀) ∧
      ∀ p' t target, Plan.Served s p₀ t₀ p' t target →
        (∃ value p'' t', p'.Seeks s t target value p'' t' ∧
          (∀ a, value = some a →
            IsLeast ({r | Plan.Denotes p.nodes lists p.root r} ∩ past target true) a) ∧
          (value = none →
            {r | Plan.Denotes p.nodes lists p.root r} ∩ past target true = ∅)) ∧
        ∀ c, Relation.ReflTransGen (Plan.Round s p'.nodes)
            ⟨p'.cursors, [.seek p'.root target true], none⟩ c →
          c.tasks.length ≤ p.nodes.length := by
  obtain ⟨hempty, huniversal, hordered⟩ := build_ordered hb
  cases build_planFor hb with
  | empty hr =>
    rw [hr, hempty] at hroot
    rcases hroot with ⟨_, _, h⟩ | ⟨_, _, h | h⟩ <;> cases h
  | universal hr =>
    rw [hr, huniversal] at hroot
    rcases hroot with ⟨_, _, h⟩ | ⟨_, _, h | h⟩ <;> cases h
  | tree tree e hs hn hd hlt hcur =>
    obtain ⟨n, hc, hrange⟩ := hcur
    obtain ⟨p₀, t₀, -, ⟨hnodes, hroot', hlen, R, hold, hR⟩, hopen⟩ :=
      openPlan_sees (t := 0) (History.constant hw) hl hc hrange
    -- on a store that does not change every cursor holds the whole list of its term
    have hnodup : ∀ x, (lists x).Nodup := fun x =>
      List.Pairwise.imp (fun h => ne_of_lt h.lt) ((hl x).sorted hw)
    have hlists : ∀ c text, Node.term text (some c) ∈ p.nodes → R c = lists text :=
      fun c text hmem => (hR c text hmem).eq (hnodup text)
    have hset : {r | Plan.Denotes p.nodes lists p.root r} = e.den R :=
      Set.ext fun r => hs.denotes_iff hlists
    have hready : Plan.Ready s e (e.den R) p.nodes p.root p₀ t₀ none :=
      ⟨hnodes, hroot', hlen ▸ hlt, nofun, R, hold, rfl⟩
    refine ⟨p₀, t₀, hopen, fun p' t target hserved => ?_⟩
    have hr := hserved.ready hw hs hd hready
    obtain ⟨value, p'', t', hseeks, hnext, -⟩ := hr.seek hw hs hd
    rw [hset]
    refine ⟨⟨value, p'', t', hseeks, ?_, ?_⟩, fun c hrun => ?_⟩
    · rintro a rfl
      exact ⟨hnext.1, fun x hx => hnext.2 x hx trivial⟩
    · rintro rfl
      exact Set.eq_empty_of_forall_notMem fun x hx => hnext x hx trivial
    · have hstart : Stacked p'.nodes [Task.seek p'.root target true] := by
        refine ⟨[p'.root], .cons rfl .nil, List.pairwise_singleton _ _, ?_⟩
        rw [List.forall_mem_singleton, hr.nodes, hr.root]
        by_contra hge
        rw [List.getD_eq_default _ _ (Nat.not_lt.1 hge)] at hroot
        rcases hroot with ⟨_, _, h⟩ | ⟨_, _, h | h⟩ <;> cases h
      rw [← hr.nodes]
      exact (hstart.rounds (hr.nodes ▸ hordered) hrun).length_le

end

/-- The nodes of the query `alpha OR (beta AND alpha)`. -/
def nestedNodes : List Kind := [.term [97, 108, 112, 104, 97], .term [98, 101, 116, 97],
  .term [97, 108, 112, 104, 97], .and 1 2, .or 0 3]

theorem nestedNodes_child_lt (i : ℕ) (k : Kind) (h : nestedNodes[i]? = some k) :
    ∀ c ∈ k.children, c < i := by
  intro c hc
  rcases i with _ | _ | _ | _ | _ | i
  · cases h; cases hc
  · cases h; cases hc
  · cases h; cases hc
  · cases h; simp [Kind.children] at hc; omega
  · cases h; simp [Kind.children] at hc; omega
  · simp [nestedNodes] at h

theorem nestedNodes_phrase_ne (ts : List Text) (h : Kind.phrase ts ∈ nestedNodes) : ts ≠ [] := by
  simp [nestedNodes] at h

/-- The query `alpha OR (beta AND alpha)`. -/
def nestedQuery : Query where
  nodes := nestedNodes
  root := 4
  root_last := rfl
  child_lt := nestedNodes_child_lt
  child_nodup := by decide
  phrase_ne := nestedNodes_phrase_ne

/-- The calls on the store with three owners of `alpha`. -/
theorem planSeek_next_nested :
    ∃ p lists, Plan.build ⟨8, 24, 48, 1, 64, 16⟩ nestedQuery 4096 = .ok p ∧
    (∀ x, TermRefs (alphaStore 3) x (lists x)) ∧
    ∃ p₀ t₀, p.openPlan (fun _ => alphaStore 3) 0 = .ok (p₀, t₀) ∧
      ∀ p' t target, Plan.Served (alphaStore 3) p₀ t₀ p' t target →
        (∃ value p'' t', p'.Seeks (alphaStore 3) t target value p'' t' ∧
          (∀ a, value = some a →
            IsLeast ({r | Plan.Denotes p.nodes lists p.root r} ∩ past target true) a) ∧
          (value = none →
            {r | Plan.Denotes p.nodes lists p.root r} ∩ past target true = ∅)) ∧
        ∀ c, Relation.ReflTransGen (Plan.Round (alphaStore 3) p'.nodes)
            ⟨p'.cursors, [.seek p'.root target true], none⟩ c →
          c.tasks.length ≤ p.nodes.length := by
  obtain ⟨x, y, w, -, h⟩ := alphaStore_reachable
  obtain ⟨m, hw, -⟩ := h.good
  choose lists hl using fun x => TermRefs.exists hw x
  have hb : Plan.build ⟨8, 24, 48, 1, 64, 16⟩ nestedQuery 4096 = .ok
      ⟨[.empty, .universal, .term [97, 108, 112, 104, 97] (some 0),
        .term [98, 101, 116, 97] (some 1),
        .term [97, 108, 112, 104, 97] (some 2), .and 3 4, .or 2 5],
        List.replicate 3 .empty, 6, 3456⟩ := by rfl
  exact ⟨_, lists, hb, hl, planSeek_next hw hb (.inr ⟨2, 5, .inr rfl⟩) hl⟩

end PinCore
