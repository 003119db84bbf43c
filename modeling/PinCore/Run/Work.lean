import PinCore.Run.Queries
import PinCore.Scan.Work

/-!
# Parallel scans over runs

Any number of participants work off a captured scan of a reachable store: each takes a snapshot
of the shared words, prepares a batch outside the lock and claims it by compare-and-replace.
-/

namespace PinCore

section

variable {s : Store} {docs : List LiveDoc} {sizes : Sizes} {q : Query} {memoryBytes : ℕ}
  {w : WorkState} {P : Type} [DecidableEq P]

/-- What holds at every moment of a shared scan from `w` on, where `bs` are the batches of one
participant working alone. -/
structure SharedScan (s : Store) (bs : List WorkBatch) (x : Claims P WorkState WorkBatch) :
    Prop where
  prepares : ∀ p w, x.holding p = .taken w → ∃ r, w.turn s = .ok r
  serial : x.claimed.map Prod.snd <+: bs
  complete : x.shared = .done → x.claimed.map Prod.snd = bs
  never_returns : ∀ y z, Claims.Run (WorkState.turn s) x y → Claims.Run (WorkState.turn s) y z →
    z.shared = x.shared → y.shared = x.shared

theorem Claims.Inv.sharedScan {bs : List WorkBatch} {x : Claims P WorkState WorkBatch}
    (h : Claims.Inv (WorkState.turn s) bs x) : SharedScan s bs x where
  prepares _ _ hp := h.prepares hp
  serial := h.claimed_prefix
  complete hx := h.claimed_eq (by rw [hx]; rfl)
  never_returns _ _ hy hz := h.never_returns hy hz

/-- In every interleaving of the participants no one fails to prepare, the claimed batches are
those of the serial scan in its order, and the shared state never comes back to an earlier
value.  The serial scan emits no owner twice and every live owner the oracle accepts; for a
single-term query it emits the candidates of `scan_count`. -/
theorem shared_scan_serial (h : Reachable s docs)
    (hw : (WorkState.capture sizes q memoryBytes).eval s = .ok w) :
    ∃ bs cs, Drains (WorkState.turn s) w bs ∧ consume s.layout bs = .ok cs ∧
      (cs.map (·.owner)).Nodup ∧
      (∀ v ∈ docs, oracle v.document q = true → v.owner ∈ cs.map (·.owner)) ∧
      (q.isSingleTerm = true → (scanCount q).eval s = .ok cs) ∧
      ∀ x : Claims P WorkState WorkBatch,
        Claims.Run (WorkState.turn s) (Claims.start w) x → SharedScan s bs x := by
  obtain ⟨m, hwf, hv⟩ := h.good
  obtain ⟨cs, ⟨bs, hd, hc⟩, hcounts⟩ := (capture_yields hwf hv).eval hw
  exact ⟨bs, cs, hd, hc, hcounts.nodup, hcounts.complete, hcounts.count, fun x hx =>
    ((Claims.Inv.start hd).run hx).sharedScan⟩

end

/-- The query `alpha`. -/
def alphaTerm : Query where
  nodes := [.term [97, 108, 112, 104, 97]]
  root := 0
  root_last := List.length_singleton.symm
  child_lt i k h c hc := by
    match i with
    | 0 => cases h; cases hc
    | i + 1 => simp at h
  child_nodup := by decide
  phrase_ne ts h := by simp at h

set_option maxRecDepth 10000 in
/-- Any number of participants count the three owners of `alpha`. -/
theorem shared_scan_serial_alpha : ∃ docs : List LiveDoc, docs.length = 3 ∧ ∃ w,
    (WorkState.capture ⟨8, 24, 48, 1, 64, 16⟩ alphaTerm 4096).eval (alphaStore 3) = .ok w ∧
    ∃ bs cs, Drains (WorkState.turn (alphaStore 3)) w bs ∧
      consume (alphaStore 3).layout bs = .ok cs ∧ (cs.map (·.owner)).Nodup ∧
      (∀ v ∈ docs, oracle v.document alphaTerm = true → v.owner ∈ cs.map (·.owner)) ∧
      (alphaTerm.isSingleTerm = true → (scanCount alphaTerm).eval (alphaStore 3) = .ok cs) ∧
      ∀ x : Claims ℕ WorkState WorkBatch,
        Claims.Run (WorkState.turn (alphaStore 3)) (Claims.start w) x →
          SharedScan (alphaStore 3) bs x := by
  obtain ⟨x, y, z, -, h⟩ := alphaStore_reachable
  have hok : ((WorkState.capture ⟨8, 24, 48, 1, 64, 16⟩ alphaTerm 4096).eval
      (alphaStore 3)).isOk = true := by decide +kernel
  obtain ⟨w, hw⟩ : ∃ w, (WorkState.capture ⟨8, 24, 48, 1, 64, 16⟩ alphaTerm 4096).eval
      (alphaStore 3) = .ok w := by
    cases hr : (WorkState.capture ⟨8, 24, 48, 1, 64, 16⟩ alphaTerm 4096).eval (alphaStore 3) with
    | ok w => exact ⟨w, rfl⟩
    | error e => rw [hr] at hok; cases hok
  exact ⟨_, rfl, w, hw, shared_scan_serial h hw⟩

end PinCore
