import Mathlib.Tactic.Common
import Mathlib.Data.List.Pairwise
import Mathlib.Data.List.Nodup

/-!
# Singly linked chains

`Linked next stop h bs` says that following `next` from `h` visits exactly `bs` and then reaches
`stop`.  The links are a function, so a chain is determined by its head; hence it has no
repetition, and two chains that share a node end in the same node.
-/

namespace PinCore

variable {α : Type*}

/-- The nodes visited from `h` before `stop` are `bs`. -/
def Linked (next : α → α) (stop : α) : α → List α → Prop
  | h, [] => h = stop
  | h, b :: bs => h = b ∧ b ≠ stop ∧ Linked next stop (next b) bs

/-- The last node of a chain, or `stop` if there is none. -/
def lastD (stop : α) (bs : List α) : α := bs.getLast?.getD stop

section

variable {stop b h : α} {bs cs : List α}

@[simp] theorem lastD_nil : lastD stop [] = stop := rfl

@[simp] theorem lastD_concat : lastD stop (bs ++ [b]) = b := by simp [lastD]

theorem lastD_append_cons : lastD stop (bs ++ b :: cs) = lastD stop (b :: cs) := by
  rw [lastD, lastD, List.getLast?_append, List.getLast?_eq_some_getLast (List.cons_ne_nil b cs)]
  rfl

theorem lastD_mem (stop : α) (h : bs ≠ []) : lastD stop bs ∈ bs := by
  rw [lastD, List.getLast?_eq_some_getLast h]
  exact List.getLast_mem h

theorem lastD_cons_cons {c : α} : lastD stop (b :: c :: bs) = lastD stop (c :: bs) := by
  simp [lastD]

theorem eq_append_lastD (stop : α) (h : bs ≠ []) : bs = bs.dropLast ++ [lastD stop bs] := by
  rw [lastD, List.getLast?_eq_some_getLast h]
  exact (List.dropLast_append_getLast h).symm

/-- Ascending numbers are at least as far apart as their places. -/
theorem ascending_length (stop : ℕ) {b : ℕ} {cs : List ℕ} (h : (b :: cs).Pairwise (· < ·)) :
    b + cs.length ≤ lastD stop (b :: cs) := by
  induction cs generalizing b with
  | nil => exact Nat.le_refl _
  | cons c cs ih =>
    have hbc : b < c := (List.pairwise_cons.1 h).1 c List.mem_cons_self
    have := ih (List.pairwise_cons.1 h).2
    rw [lastD_cons_cons, List.length_cons]
    omega

end

namespace Linked

variable {next next' : α → α} {stop h h' b c : α} {bs cs ds : List α}

theorem nil : Linked next stop stop [] := rfl

/-- A chain depends only on the links of its nodes. -/
theorem congr (hl : Linked next stop h bs) (hn : ∀ b ∈ bs, next' b = next b) :
    Linked next' stop h bs := by
  induction bs generalizing h with
  | nil => exact hl
  | cons b bs ih =>
    obtain ⟨rfl, hb, hl⟩ := hl
    refine ⟨rfl, hb, ?_⟩
    rw [hn h List.mem_cons_self]
    exact ih hl fun c hc => hn c (List.mem_cons_of_mem _ hc)

/-- The head determines the chain. -/
theorem unique (hl : Linked next stop h bs) (hl' : Linked next stop h cs) : bs = cs := by
  induction bs generalizing h cs with
  | nil =>
    cases cs with
    | nil => rfl
    | cons c cs => exact absurd (hl'.1.symm.trans hl) hl'.2.1
  | cons b bs ih =>
    cases cs with
    | nil => exact absurd (hl.1.symm.trans hl') hl.2.1
    | cons c cs =>
      obtain ⟨rfl, -, hl⟩ := hl
      obtain ⟨rfl, -, hl'⟩ := hl'
      rw [ih hl hl']

theorem ne_stop (hl : Linked next stop h bs) (hb : b ∈ bs) : b ≠ stop := by
  induction bs generalizing h with
  | nil => exact absurd hb List.not_mem_nil
  | cons c cs ih =>
    rcases List.mem_cons.1 hb with rfl | hb
    · exact hl.2.1
    · exact ih hl.2.2 hb

/-- Every suffix of a chain is a chain. -/
theorem suffix (hl : Linked next stop h (bs ++ c :: cs)) : Linked next stop c (c :: cs) := by
  induction bs generalizing h with
  | nil => exact ⟨rfl, hl.2.1, hl.2.2⟩
  | cons b bs ih => exact ih hl.2.2

theorem tail (hl : Linked next stop h (b :: c :: cs)) : Linked next stop c (c :: cs) :=
  ⟨rfl, hl.2.2.2.1, hl.2.2.2.2⟩

theorem next_eq (hl : Linked next stop h (bs ++ b :: c :: cs)) : next b = c :=
  hl.suffix.2.2.1

theorem next_last (hl : Linked next stop h (bs ++ [b])) : next b = stop :=
  hl.suffix.2.2

theorem head_mem (hl : Linked next stop h bs) (hh : h ≠ stop) : h ∈ bs := by
  cases bs with
  | nil => exact absurd hl hh
  | cons b bs => exact hl.1 ▸ List.mem_cons_self

theorem head_eq_stop_iff (hl : Linked next stop h bs) : h = stop ↔ bs = [] := by
  cases bs with
  | nil => exact ⟨fun _ => rfl, fun _ => hl⟩
  | cons b bs =>
    refine ⟨fun hh => absurd (hl.1.symm.trans hh) hl.2.1, fun hh => ?_⟩
    exact absurd hh (List.cons_ne_nil _ _)

theorem lastD_eq_stop_iff (hl : Linked next stop h bs) : lastD stop bs = stop ↔ bs = [] := by
  refine ⟨fun hh => ?_, fun hh => by rw [hh, lastD_nil]⟩
  by_contra hne
  exact hl.ne_stop (lastD_mem stop hne) hh

theorem nodup (hl : Linked next stop h bs) : bs.Nodup := by
  induction bs generalizing h with
  | nil => exact List.nodup_nil
  | cons b bs ih =>
    refine List.nodup_cons.2 ⟨fun hb => ?_, ih hl.2.2⟩
    obtain ⟨as, cs, rfl⟩ := List.append_of_mem hb
    -- a repeated node would have two chains of different length behind it
    have h₁ := hl.2.2.suffix.2.2
    have := congrArg List.length (hl.2.2.unique h₁)
    simp at this
    omega

/-- A node between two chains has one chain behind it. -/
theorem suffix_unique {as as' : List α} (hl : Linked next stop h (as ++ b :: bs))
    (hl' : Linked next stop h' (as' ++ b :: cs)) : bs = cs :=
  hl.suffix.2.2.unique hl'.suffix.2.2

/-- Chains that end in different nodes are disjoint. -/
theorem disjoint (hl : Linked next stop h bs) (hl' : Linked next stop h' cs)
    (ht : lastD stop bs ≠ lastD stop cs) (hb : b ∈ bs) : b ∉ cs := by
  intro hc
  obtain ⟨as, ds, rfl⟩ := List.append_of_mem hb
  obtain ⟨as', ds', rfl⟩ := List.append_of_mem hc
  obtain rfl := hl.suffix_unique hl'
  exact ht (by rw [lastD_append_cons, lastD_append_cons])

/-- Replace what follows the node `b`. -/
theorem relink (hl : Linked next stop h (bs ++ b :: cs)) (hn : ∀ c ∈ bs, next' c = next c)
    (hd : Linked next' stop (next' b) ds) : Linked next' stop h (bs ++ b :: ds) := by
  induction bs generalizing h with
  | nil => exact ⟨hl.1, hl.2.1, hd⟩
  | cons c bs ih =>
    obtain ⟨rfl, hc, hl⟩ := hl
    refine ⟨rfl, hc, ?_⟩
    rw [hn h List.mem_cons_self]
    exact ih hl fun d hd => hn d (List.mem_cons_of_mem _ hd)

/-- Append a node at the end. -/
theorem snoc (hl : Linked next stop h bs) (hne : bs ≠ [])
    (hn : ∀ b ∈ bs, b ≠ lastD stop bs → next' b = next b) (hlast : next' (lastD stop bs) = c)
    (hc : c ≠ stop) (hstop : next' c = stop) : Linked next' stop h (bs ++ [c]) := by
  have heq := eq_append_lastD stop hne
  have hnd := hl.nodup
  rw [heq] at hl hnd ⊢
  rw [List.append_assoc]
  refine hl.relink (fun b hb => hn b ?_ ?_) ?_
  · rw [heq]; exact List.mem_append_left _ hb
  · rintro rfl
    exact (List.nodup_append.1 hnd).2.2 _ hb _ (List.mem_singleton_self _) rfl
  · rw [hlast]; exact ⟨rfl, hc, hstop⟩

/-- Links that are only added lengthen a chain behind its last node. -/
theorem initial (hl : Linked next stop h bs) (hl' : Linked next' stop h cs)
    (hn : ∀ b ∈ bs, next b ≠ stop → next' b = next b) : bs <+: cs := by
  induction bs generalizing h cs with
  | nil => exact List.nil_prefix
  | cons b bs ih =>
    obtain ⟨rfl, hb, hl⟩ := hl
    cases cs with
    | nil => exact absurd hl' hb
    | cons c cs =>
      obtain ⟨rfl, -, hl'⟩ := hl'
      refine List.prefix_cons_inj h |>.2 ?_
      cases bs with
      | nil => exact List.nil_prefix
      | cons d ds =>
        rw [hn h List.mem_cons_self (hl.1.trans_ne hl.2.1)] at hl'
        exact ih hl hl' fun c hc => hn c (List.mem_cons_of_mem _ hc)

/-- Each node of a chain links to the one after it. -/
theorem isChain (hl : Linked next stop h bs) : bs.IsChain fun b c => next b = c := by
  induction bs generalizing h with
  | nil => exact .nil
  | cons b bs ih =>
    cases bs with
    | nil => exact .singleton b
    | cons c bs => exact .cons_cons hl.2.2.1 (ih hl.2.2)

theorem singleton (hb : b ≠ stop) (hn : next b = stop) : Linked next stop b [b] :=
  ⟨rfl, hb, hn⟩

end Linked

end PinCore
