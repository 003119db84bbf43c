import PinCore.Grouped.Builder
import PinCore.Grouped.Publish
import PinCore.Grouped.Record
import PinCore.Lib.Respects
import PinCore.Run.Reachable

/-!
# Runs of grouped storage

Every operation of grouped storage, on any arguments, completed, failed or cut off at any durable
step, keeps the storage segmented and the canonical index as it is; only publishing replaces what
is published.  Recovery may itself be cut off and is then finished by the next one.
-/

namespace PinCore

open Prog

/-- A store of the canonical index alone is segmented: it names no chain. -/
theorem WF.segmented {s : Store} {m : MetaBody} (h : WF True s m) : Segmented s m := by
  obtain ⟨hg, hb⟩ := h.grouped
  have hchains : m.grouped.chains = [] := by rw [hg]; rfl
  refine ⟨h.pages, h.info, h.free, by rw [hchains]; exact .nil, ?_, fun b g hbg => ?_⟩
  · rw [hchains]
    intro c hc
    exact absurd hc List.not_mem_nil
  · exact absurd (by rw [hbg]; rfl) (hb b)

namespace Grouped

/-- Grouped storage stays segmented, beside the canonical index. -/
def Sound (s s' : Store) : Prop := ∀ m, Segmented s m → ∃ m', Beside s s' m m'

/-- Moreover what is published stays. -/
def Intact (s s' : Store) : Prop := ∀ m, Segmented s m → ∃ m', Beside s s' m m' ∧ Retains s s' m m'

/-- The discipline of grouped storage. -/
def sound : Discipline Store where
  inv s := ∃ m, Segmented s m
  rel := Sound
  refl _ m h := ⟨m, h.beside⟩
  trans h h' m hm := by
    obtain ⟨m₁, hb⟩ := h m hm
    obtain ⟨m₂, hb'⟩ := h' m₁ hb.segmented
    exact ⟨m₂, hb.trans hb'⟩
  keeps hs h := by
    obtain ⟨m, hm⟩ := hs
    obtain ⟨m', hb⟩ := h m hm
    exact ⟨m', hb.segmented⟩

/-- The discipline of everything but publishing. -/
def intact : Discipline Store where
  inv s := ∃ m, Segmented s m
  rel := Intact
  refl s m h := ⟨m, h.beside, .refl s m⟩
  trans h h' m hm := by
    obtain ⟨m₁, hb, hr⟩ := h m hm
    obtain ⟨m₂, hb', hr'⟩ := h' m₁ hb.segmented
    exact ⟨m₂, hb.trans hb', hr.trans hr'⟩
  keeps hs h := by
    obtain ⟨m, hm⟩ := hs
    obtain ⟨m', hb, -⟩ := h m hm
    exact ⟨m', hb.segmented⟩

theorem Intact.sound {s s' : Store} (h : Intact s s') : Sound s s' := by
  intro m hm
  obtain ⟨m', hb, -⟩ := h m hm
  exact ⟨m', hb⟩

section

variable {α : Type} {s s' : Store} {m m' : MetaBody} {x : GroupSnapshot} {b : CatalogBuilder}
  {f : Wr α} {P : α → Prop}

theorem intact_of_spec (hf : ∀ s m, Segmented s m →
      Spec (fun _ => True) (fun s' => ∃ m', Beside s s' m m' ∧ Retains s s' m m') s f fun a s' =>
        (∃ m', Beside s s' m m' ∧ Retains s s' m m') ∧ P a) : intact.Respects f P := by
  rintro s ⟨m, hm⟩
  have hrel : ∀ s', (∃ m', Beside s s' m m' ∧ Retains s s' m m') → Intact s s' := by
    intro s' hs' m₁ hm₁
    rw [hm₁.meta_unique hm]
    exact hs'
  exact (hf s m hm).mono hrel fun _ s' h => ⟨hrel s' h.1, h.2⟩

theorem sound_of_spec (hf : ∀ s m, Segmented s m →
      Spec (fun _ => True) (fun s' => ∃ m', Beside s s' m m') s f fun a s' =>
        (∃ m', Beside s s' m m') ∧ P a) : sound.Respects f P := by
  rintro s ⟨m, hm⟩
  have hrel : ∀ s', (∃ m', Beside s s' m m') → Sound s s' := by
    intro s' hs' m₁ hm₁
    rw [hm₁.meta_unique hm]
    exact hs'
  exact (hf s m hm).mono hrel fun _ s' h => ⟨hrel s' h.1, h.2⟩

/-! ### Recovering and starting -/

theorem recover_intact : intact.Respects recover fun _ => True := by
  refine intact_of_spec fun s m h => (recover_spec h).mono ?_ ?_
  · rintro s' ⟨g, bs, hr⟩
    obtain ⟨free, hb⟩ := hr.beside h
    exact ⟨_, hb⟩
  · rintro _ s' ⟨bs, hr, -⟩
    obtain ⟨free, hb⟩ := hr.beside h
    exact ⟨⟨_, hb⟩, trivial⟩

theorem begin_intact (after : Option OwnerRef) : intact.Respects (begin after) (·.id ≠ 0) := by
  refine intact_of_spec fun s m h => (begin_spec h fun _ => trivial).post ?_
  rintro x s' ⟨m', hs⟩
  exact ⟨⟨m', hs.beside, hs.retains⟩, hs.appending.id⟩

/-! ### Appending -/

theorem append_intact {make : ℕ → Except Error Page} (hid : x.id ≠ 0)
    (hmake : ∀ b p, blockValid b → make b = .ok p →
      ∃ g, p = groupPage b g ∧ g.id = x.id ∧ g.Ok b) :
    intact.Respects (append x make) (·.2.id ≠ 0) := by
  refine intact_of_spec fun s m h => ?_
  by_cases hj : m.grouped.journal = buildingJournal x
  · refine (append_spec ⟨h, hj, hid⟩ trivial fun b hb _ => ?_).post ?_
    · cases hm : make b with
      | error e => exact .inl ⟨e, rfl, trivial⟩
      | ok p =>
        obtain ⟨g, rfl, hg, hok⟩ := hmake b p hb hm
        exact .inr ⟨g, rfl, hg, groupPage_valid hb hok⟩
    · rintro y s' ⟨g, m', -, ha⟩
      exact ⟨⟨m', ha.beside, ha.retains⟩, ha.appending.id⟩
  · -- another segment is under construction, or none
    refine Spec.reading_bind h.loadInfo ?_
    rintro _ rfl
    refine Spec.ofExcept_bind (metaPage_groupedState h.metaOk) ?_
    cases hs : m.grouped.journal with
    | none => exact spec_fail
    | some j =>
      refine spec_ensure fun hc => absurd ?_ hj
      obtain ⟨h₁, h₂, h₃, h₄⟩ := hc
      rw [hs, buildingJournal, ← h₁, ← h₂, ← h₃, ← h₄]

theorem groupNodePage_ok {block id level : ℕ} {es : List CatalogEntry} {p : Page}
    (hb : blockValid block) (h : groupNodePage block id level es = .ok p) :
    ∃ g : GroupBody, p = groupPage block g ∧ g.id = id ∧ g.Ok block := by
  rw [groupNodePage_eq hb] at h
  split_ifs at h with h₁ h₂
  cases h
  exact ⟨_, rfl, rfl, h₂⟩

theorem groupRecord_ok {block : ℕ} {d : GroupData} {p : Page} (hb : blockValid block)
    (h : groupRecord block d = .ok p) :
    ∃ g : GroupBody, p = groupPage block g ∧ g.id = d.id ∧ g.Ok block := by
  have hnew : Page.new block (.grouped (.record d.id d.kind d.key d.total d.offset d.bytes)) =
      .ok (groupPage block (.record d.id d.kind d.key d.total d.offset d.bytes)) :=
    if_neg (not_or.2 ⟨hb.2, not_not.2 ⟨fun h0 => absurd h0 hb.1, by rintro ⟨⟩⟩⟩)
  rw [groupRecord, hnew] at h
  change (if groupDataBytes < d.bytes.length then _ else
    groupData (groupPage block _) >>= fun _ => _) = _ at h
  split_ifs at h with hlen
  obtain ⟨y, hy, hp⟩ := ok_of_bind h
  cases hp
  unfold groupData groupPage at hy
  dsimp only at hy
  split_ifs at hy with hok
  exact ⟨_, rfl, rfl, hok⟩

/-! ### The catalog -/

theorem flush_intact (hid : x.id ≠ 0) (level : ℕ) :
    intact.Respects (b.flush x level) (·.2.1.id ≠ 0) := by
  refine .bind (P := fun _ => True) (.ofExcept fun _ _ => trivial) fun first _ => ?_
  refine .bind (append_intact hid fun block p hb hp => groupNodePage_ok hb hp) ?_
  rintro ⟨child, x'⟩ hx
  exact .pure hx

theorem addFrom_intact {left : ℕ} {e : CatalogEntry} (hid : x.id ≠ 0) :
    intact.Respects (CatalogBuilder.addFrom left x b e) (·.1.id ≠ 0) := by
  induction left generalizing x b e with
  | zero => exact .fail
  | succ left ih =>
    refine .ite (fun _ => ?_) fun _ => .pure hid
    refine .bind (flush_intact hid _) ?_
    rintro ⟨parent, x', b'⟩ hx
    exact ih hx

theorem push_intact {e : CatalogEntry} (hid : x.id ≠ 0) :
    intact.Respects (b.push x e) (·.1.id ≠ 0) :=
  .ite (fun _ => .fail) fun _ => addFrom_intact hid

theorem finishFrom_intact {left : ℕ} (hid : x.id ≠ 0) :
    intact.Respects (CatalogBuilder.finishFrom left x b) (·.id ≠ 0) := by
  induction left generalizing x b with
  | zero => exact .pure hid
  | succ left ih =>
    refine .ite (fun _ => ih hid) fun _ => .ite (fun _ => ?_) fun _ => ?_
    · refine .bind (P := fun _ => True) (.ofExcept fun _ _ => trivial) fun entry _ => ?_
      exact .bind (P := fun _ => True) (.ofExcept fun _ _ => trivial) fun root _ => .pure hid
    · refine .bind (flush_intact hid _) ?_
      rintro ⟨parent, x', b'⟩ hx
      refine .ite (fun _ => ?_) fun _ => ?_
      · exact .bind (P := fun _ => True) (.ofExcept fun _ _ => trivial) fun root _ => .pure hx
      · refine .bind (addFrom_intact hx) ?_
        rintro ⟨x'', b''⟩ hx'
        exact ih hx'

/-! ### Records -/

theorem writeFragments_intact {kind : GroupPageKind} {key : ℕ × ℕ} {bytes : List UInt8}
    {count index : ℕ} (hid : x.id ≠ 0) :
    intact.Respects (writeFragments kind key bytes count index x) (·.2.id ≠ 0) := by
  induction count generalizing index x with
  | zero => exact .pure hid
  | succ count ih =>
    refine .bind (append_intact hid fun block p hb hp => groupRecord_ok hb hp) ?_
    rintro ⟨block, x'⟩ hx
    refine .bind (ih hx) ?_
    rintro ⟨rest, x''⟩ hx'
    exact .pure hx'

theorem writeRecord_intact {kind : GroupPageKind} {key : ℕ × ℕ} {bytes : List UInt8}
    (hid : x.id ≠ 0) : intact.Respects (writeRecord x kind key bytes) (·.2.id ≠ 0) := by
  refine .ensure_bind fun _ => ?_
  refine .bind (writeFragments_intact hid) ?_
  rintro ⟨blocks, x'⟩ hx
  exact .ensure_bind fun _ => .pure hx

/-! ### Publishing -/

/-- A segment that passes the checks is the one under construction. -/
theorem verifyBuild_gives {state : GroupState} :
    Obs.Gives (verifyBuild state x) fun _ => state.journal = buildingJournal x := by
  refine Obs.Gives.ensure_bind fun _ => .bind .any fun _ _ => .bind .any fun _ _ => ?_
  cases hj : state.journal with
  | none => exact .fail
  | some j =>
    refine Obs.Gives.ensure_bind fun hc => .pure ?_
    obtain ⟨h₁, h₂, h₃, h₄⟩ := hc
    rw [buildingJournal, ← h₁, ← h₂, ← h₃, ← h₄]

theorem publish_sound (hid : x.id ≠ 0) : sound.Respects (publish x) fun _ => True := by
  refine sound_of_spec fun s m h => ?_
  refine Spec.reading_bind h.loadInfo ?_
  rintro _ rfl
  refine Spec.ofExcept_bind (metaPage_groupedState h.metaOk) ?_
  refine spec_reading verifyBuild_gives fun written hj => ?_
  refine spec_ensure fun hr => spec_ensure fun _ => ?_
  have ha : Appending s x m := ⟨h, hj, hid⟩
  by_cases hok : (replaced m.grouped x).Ok
  · refine (ha.switch_replaced hr hok (fun _ => trivial) fun k s' m' hrep =>
      Spec.pure (Q := fun _ s' => ∃ m' k, Replaced s s' m _ m' k) ⟨m', k, hrep⟩).mono ?_ ?_
    · rintro s' ⟨m', hp⟩
      exact ⟨m', hp.beside⟩
    · rintro _ s' ⟨m', k, hrep⟩
      exact ⟨⟨m', hrep.published.beside⟩, trivial⟩
  · refine spec_ofExcept fun p hp => absurd ?_ hok
    by_contra hn
    have hfail : (metaPage m).setGroupedState (replaced m.grouped x) = .error .invalidState :=
      if_pos fun hc => hn hc.1
    rw [hfail] at hp
    cases hp

theorem publishDelta_sound {before : Option OwnerRef} {level r : ℕ} (hid : x.id ≠ 0) :
    sound.Respects (publishDelta x before level r) fun _ => True := by
  refine sound_of_spec fun s m h => ?_
  refine spec_ensure fun _ => ?_
  refine Spec.reading_bind h.loadInfo ?_
  rintro _ rfl
  refine Spec.ofExcept_bind (metaPage_groupedState h.metaOk) ?_
  refine spec_reading verifyBuild_gives fun written hj => ?_
  refine spec_ensure fun hc => ?_
  obtain ⟨hactive, hr, -⟩ := hc
  obtain ⟨a, ha⟩ := Option.ne_none_iff_exists'.1 hactive
  have happ : Appending s x m := ⟨h, hj, hid⟩
  by_cases hok : (sealedBehind m.grouped x before level r).Ok
  · refine (happ.switch_sealed hr ha hok (fun _ => trivial) fun k s' m' hrep =>
      Spec.pure (Q := fun _ s' => ∃ m' k, Replaced s s' m _ m' k) ⟨m', k, hrep⟩).mono ?_ ?_
    · rintro s' ⟨m', hp⟩
      exact ⟨m', hp.beside⟩
    · rintro _ s' ⟨m', k, hrep⟩
      exact ⟨⟨m', hrep.published.beside⟩, trivial⟩
  · refine spec_ofExcept fun p hp => absurd ?_ hok
    by_contra hn
    have hfail : (metaPage m).setGroupedState (sealedBehind m.grouped x before level r) =
        .error .invalidState := if_pos fun hc => hn hc.1
    rw [hfail] at hp
    cases hp

/-! ### Cut off and recovered -/

/-- What a completed recovery leaves of the store `s`: nothing is pending, and only the pages of the
pending chains were freed. -/
structure Recovered (s s' : Store) (m m' : MetaBody) : Prop where
  beside : Beside s s' m m'
  retains : Retains s s' m m'
  pending : m'.grouped.pending = []
  freed : ∀ b, (∃ c ∈ m.grouped.pending, s.InSegment c.id b) → (s'.body b).kind = .free
  other : ∀ b, b ≠ 0 → (¬ ∃ c ∈ m.grouped.pending, s.InSegment c.id b) → s'.page b = s.page b
  blocks : s'.blocks = s.blocks

theorem recovered_of_dismantled {g : GroupState} {bs : List ℕ} (h : Segmented s m)
    (hr : Dismantled s s' m g bs) (hg : g.pending = []) :
    ∃ free, Recovered s s' m (m.regroup g free) := by
  obtain ⟨free, hb, hret⟩ := hr.beside h
  refine ⟨free, hb, hret, hg, fun b hp => ?_, fun b h0 hp => ?_, hr.blocks⟩
  · exact hr.freed b ((hr.all h hg b).2 hp)
  · exact hr.other b h0 fun hm => hp ((hr.all h hg b).1 hm)

theorem recovers (h : Segmented s m) : ∃ k s' m', recover.Completes s k s' ∧
    Recovered s s' m m' := by
  obtain ⟨k, s', hc, bs, hr, -⟩ :=
    (recover_spec (E := fun _ => False) h).exists_completes fun _ _ => id
  obtain ⟨free, hrec⟩ := recovered_of_dismantled h hr rfl
  exact ⟨k, s', _, hc, hrec⟩

/-- With nothing pending, recovery writes nothing. -/
theorem recover_idle (h : Segmented s m) (hp : m.grouped.pending = []) :
    (recover s).result = .ok 0 ∧ (recover s).final = s ∧ (recover s).trace = [] := by
  obtain ⟨hj, hr⟩ := List.append_eq_nil_iff.1 hp
  have hj : m.grouped.journal = none := by
    cases hm : m.grouped.journal with
    | none => rfl
    | some j =>
      rw [hm] at hj
      cases hj
  have hspec : Spec (fun _ => False) (fun _ => False) s recover fun n s' => n = 0 ∧ s' = s := by
    refine Spec.reading_bind blocks_returns ?_
    rintro _ rfl
    have hfirst : Spec (fun _ => False) (fun _ => False) s (recoverJournal (s.blocks + 2) 0)
        fun n s' => n = 0 ∧ s' = s := by
      refine Spec.reading_bind h.loadInfo ?_
      rintro _ rfl
      refine Spec.ofExcept_bind (metaPage_groupedState h.metaOk) ?_
      rw [hj]
      exact Spec.pure ⟨rfl, rfl⟩
    refine hfirst.bind ?_
    rintro _ _ ⟨rfl, rfl⟩
    refine Spec.reading_bind h.loadInfo ?_
    rintro _ rfl
    refine Spec.ofExcept_bind (metaPage_groupedState h.metaOk) ?_
    rw [hr]
    exact Spec.pure ⟨rfl, rfl⟩
  obtain ⟨n, s', ⟨hres, hf⟩, rfl, rfl⟩ := hspec.exists_completes fun _ _ => id
  exact ⟨hres, hf, List.eq_nil_iff_forall_not_mem.2 hspec.1⟩

/-- Recovery cut off anywhere is finished by the next one: in the end exactly the pages of the
pending chains are free, and a further recovery writes nothing. -/
theorem recover_resumes (h : Segmented s m) {c : Store} (hcut : recover.Crash s c) :
    ∃ k s' m', recover.Completes c k s' ∧ Recovered s s' m m' ∧
      (recover s').result = .ok 0 ∧ (recover s').trace = [] := by
  have hspec : Spec (fun _ => False) (fun s' => ∃ g bs, Dismantled s s' m g bs) s recover _ :=
    recover_spec h
  obtain ⟨g, bs, hr⟩ := hspec.crash ⟨_, _, h.dismantled_nil⟩ hcut
  obtain ⟨free, hseg⟩ := hr.segmented
  obtain ⟨k, s', hc, cs, hr', -⟩ :=
    (recover_spec (E := fun _ => False) hseg).exists_completes fun _ _ => id
  obtain ⟨free', hrec⟩ := recovered_of_dismantled h (hr.trans h hr') rfl
  obtain ⟨hres, -, htrace⟩ := recover_idle hrec.beside.segmented hrec.pending
  exact ⟨k, s', _, hc, hrec, hres, htrace⟩

/-- A new store in which the first segment was started. -/
def startedStore : Store := (begin none (freshStore smallLayout true)).final

/-- The first segment, without pages. -/
def firstSegment : GroupSnapshot := ⟨1, noBlock, noBlock, noBlock, none, none, false⟩

set_option maxRecDepth 10000 in
theorem startedStore_started :
    ∃ m, Started (freshStore smallLayout true) startedStore none firstSegment
    (freshMeta smallLayout true) m := by
  obtain ⟨x, hx⟩ : ∃ x, (begin none).Completes (freshStore smallLayout true) x startedStore :=
    completes_of_isOk (by decide +kernel)
  have hspec : Spec HostRefused _ (freshStore smallLayout true) (begin none) _ :=
    begin_spec freshStore_wf.segmented fun hfull => absurd hfull (by decide)
  obtain ⟨m, hstart⟩ := hspec.completes hx
  obtain rfl : x = firstSegment := hstart.snapshot
  exact ⟨m, hstart⟩

/-- The first segment with one page of a record. -/
def recordedStore : Store :=
  (writeRecord firstSegment .members (0, 0) (List.replicate 72 0) startedStore).final

/-- A segment of three pages: two records and a catalog. -/
def smallSegment (after : Option OwnerRef) : Wr GroupSnapshot := do
  let x ← begin after
  let y ← writeRecord x .members (0, 0) (List.replicate 72 0)
  let z ← writeRecord y.2 .liveness (0, 0) (List.replicate 72 0)
  let w ← CatalogBuilder.new.push z.2 ⟨(0, 0), leBytes 4 y.1.1 ++ List.replicate 60 0⟩
  w.2.finish w.1

/-- The operations that build a small segment. -/
def SmallSteps (s s' : Store) (after : Option OwnerRef) (x : GroupSnapshot) : Prop :=
  ∃ x₀ s₁ y s₂ z s₃ w s₄, (begin after).Completes s x₀ s₁ ∧
    (writeRecord x₀ .members (0, 0) (List.replicate 72 0)).Completes s₁ y s₂ ∧
    (writeRecord y.2 .liveness (0, 0) (List.replicate 72 0)).Completes s₂ z s₃ ∧
    (CatalogBuilder.new.push z.2 ⟨(0, 0), leBytes 4 y.1.1 ++ List.replicate 60 0⟩).Completes s₃ w
      s₄ ∧ (w.2.finish w.1).Completes s₄ x s' ∧
    x₀.id ≠ 0 ∧ y.2.id ≠ 0 ∧ z.2.id ≠ 0 ∧ w.1.id ≠ 0

theorem smallSegment_built {after : Option OwnerRef} {y : GroupSnapshot} (h : Segmented s m)
    (hc : (smallSegment after).Completes s y s') :
    SmallSteps s s' after y ∧ ∃ m', Appending s' y m' ∧ RootsOk s' y ∧ Retains s s' m m' ∧
      m'.grouped.retired = [] := by
  obtain ⟨x₀, s₁, h₁, hc⟩ := hc.of_bind
  obtain ⟨y₁, s₂, h₂, hc⟩ := hc.of_bind
  obtain ⟨z, s₃, h₃, hc⟩ := hc.of_bind
  obtain ⟨w, s₄, h₄, h₅⟩ := hc.of_bind
  have hbegin : Spec (fun _ => True) _ s (begin after) _ := begin_spec h fun _ => trivial
  obtain ⟨m₁, hst⟩ := hbegin.completes h₁
  have hmembers : RecordOk .members (0, 0) (List.replicate 72 0) :=
    ⟨.inl rfl, by decide, by decide, by rw [List.length_replicate]; decide⟩
  have hliveness : RecordOk .liveness (0, 0) (List.replicate 72 0) :=
    ⟨.inr (.inl rfl), by decide, by decide, by rw [List.length_replicate]; decide⟩
  have hwrite : Spec (fun _ => True) _ s₁ (writeRecord x₀ _ _ _) _ :=
    writeRecord_spec hst.appending trivial hmembers
  obtain ⟨m₂, -, hg₂, -, -⟩ := hwrite.completes h₂
  have hwrite' : Spec (fun _ => True) _ s₂ (writeRecord y₁.2 _ _ _) _ :=
    writeRecord_spec hg₂.appending trivial hliveness
  obtain ⟨m₃, -, hg₃, -, -⟩ := hwrite'.completes h₃
  have hvalue : (leBytes 4 y₁.1.1 ++ List.replicate 60 (0 : UInt8)).length = 64 := by
    rw [List.length_append, Reader.length_leBytes, List.length_replicate]
  have hkey : validKey (0, 0) := by decide
  have hpush : Spec (fun _ => True) _ s₃ (CatalogBuilder.new.push z.2 _) _ :=
    CatalogBuilder.push_spec (e := ⟨(0, 0), leBytes 4 y₁.1.1 ++ List.replicate 60 0⟩) hg₃.appending
      trivial CatalogBuilder.new_collects (by rintro k ⟨⟩)
      ⟨hkey, hvalue⟩ fun _ => trivial
  obtain ⟨m₄, hg₄, hcol, -⟩ := hpush.completes h₄
  have hfinish : Spec (fun _ => True) _ s₄ (w.2.finish w.1) _ :=
    CatalogBuilder.finish_spec hg₄.appending trivial hcol fun _ => trivial
  obtain ⟨m₅, x', hg₅, hy, hfin⟩ := hfinish.completes h₅
  refine ⟨⟨_, _, _, _, _, _, _, _, h₁, h₂, h₃, h₄, h₅, hst.appending.id, hg₂.appending.id,
    hg₃.appending.id, hg₄.appending.id⟩, m₅, ?_, ?_, ?_, ?_⟩
  · rw [hy]
    exact ⟨hg₅.appending.segmented, hg₅.appending.journal, hg₅.appending.id⟩
  · obtain ⟨level, -, entries, parts, hnode, -⟩ := hfin.tree (List.cons_ne_nil _ _)
    have hplain : y.frontierRoot = none := by
      rw [hy, hg₅.snapshot, hg₄.snapshot, hg₃.snapshot, hg₂.snapshot, hst.snapshot]
    have hidy : y.id = w.1.id := by
      rw [hy, hg₅.snapshot]
    intro r hr _
    rw [hplain, Option.toList_none, List.mem_singleton] at hr
    exact ⟨level, entries, by rw [hr, hidy]; exact hnode⟩
  · exact hst.retains.trans (hg₂.retains.trans (hg₃.retains.trans (hg₄.retains.trans hg₅.retains)))
  · rw [hg₅.retired, hg₄.retired, hg₃.retired, hg₂.retired, hst.retired]

/-- The first segment with its three pages. -/
def builtSegment : GroupSnapshot := ⟨1, 1, 3, 3, none, none, false⟩

/-- The fresh store in which the small segment was built. -/
def builtStore : Store := (smallSegment none (freshStore smallLayout true)).final

theorem builtStore_facts :
    (smallSegment none (freshStore smallLayout true)).result = .ok builtSegment ∧
      (recover builtStore).trace[0]?.map pageKinds = some [.info, .free, .grouped, .grouped] := by
  decide +kernel

theorem builtStore_appending :
    SmallSteps (freshStore smallLayout true) builtStore none builtSegment ∧
    ∃ m, Appending builtStore builtSegment m ∧ RootsOk builtStore builtSegment ∧
      Retains (freshStore smallLayout true) builtStore (freshMeta smallLayout true) m ∧
      m.grouped.retired = [] := by
  refine smallSegment_built freshStore_wf.segmented ?_
  rw [builtStore]
  exact completes_of_result builtStore_facts.1

/-- Recovery of a segment of three pages, cut off after it freed the first. -/
theorem recover_resumes_recorded : ∃ c m k s' m', (recover builtStore).trace[0]? = some c ∧
    pageKinds c = [.info, .free, .grouped, .grouped] ∧
    Segmented builtStore m ∧ recover.Completes c k s' ∧ Recovered builtStore s' m m' ∧
    (recover s').result = .ok 0 ∧ (recover s').trace = [] := by
  obtain ⟨-, m, happ, -⟩ := builtStore_appending
  obtain ⟨c, hc, hkinds⟩ := Option.map_eq_some_iff.1 builtStore_facts.2
  obtain ⟨k, s', m', hdone, hrec, hidle⟩ :=
    recover_resumes happ.segmented (.inr (List.mem_of_getElem? hc))
  exact ⟨c, m, k, s', m', hc, hkinds, happ.segmented, hdone, hrec, hidle⟩

section

variable {c : Store} {g : GroupState}

theorem published_recovered {m₁ : MetaBody} (hp : Published s c m g m₁)
    (hr : Recovered c s' m₁ m') :
    Published s s' m g m' where
  beside := hp.beside.trans hr.beside
  active := hr.retains.active.trans hp.active
  deltas := hr.retains.deltas.trans hp.deltas
  page d hd b hb := by
    have hd' : d ∈ m₁.grouped.published := by
      rw [GroupState.published, hp.active, hp.deltas]
      exact hd
    rcases hb with hb | hb
    · have h₁ := hp.page d hd b (.inl hb)
      exact (hr.retains.page d hd' b (.inl ((Store.inSegment_congr h₁).2 hb))).trans h₁
    · have h₂ := hr.retains.page d hd' b (.inr hb)
      exact h₂.trans (hp.page d hd b (.inr ((Store.inSegment_congr h₂).1 hb)))
  blocks := hr.blocks.trans hp.blocks

/-- After a switch was cut off, recovery leaves what was published before, or what was to be
published, with every page of it, and no other grouped page. -/
theorem cut_recovers (h : Segmented s m) (hcut : c = s ∨ ∃ m', Published s c m g m') :
    ∃ k s' m', recover.Completes c k s' ∧
      ((Beside s s' m m' ∧ Retains s s' m m') ∨ Published s s' m g m') ∧
      ∀ i b, s'.InSegment i b → ∃ d ∈ m'.grouped.published, d.id = i := by
  have hpages : ∀ {s' m'}, Segmented s' m' → m'.grouped.pending = [] → ∀ i b, s'.InSegment i b →
      ∃ d ∈ m'.grouped.published, d.id = i := by
    rintro s' m' hs hpend i b ⟨y, hy, rfl⟩
    obtain ⟨d, hd, hid⟩ := hs.covered b y hy
    rw [GroupState.chains, hpend] at hd
    exact ⟨d, hd, hid⟩
  rcases hcut with rfl | ⟨m₁, hp⟩
  · obtain ⟨k, s', m', hc, hrec⟩ := recovers h
    exact ⟨k, s', m', hc, .inl ⟨hrec.beside, hrec.retains⟩,
      hpages hrec.beside.segmented hrec.pending⟩
  · obtain ⟨k, s', m', hc, hrec⟩ := recovers hp.beside.segmented
    exact ⟨k, s', m', hc, .inr (published_recovered hp hrec),
      hpages hrec.beside.segmented hrec.pending⟩

/-- The publication of a finished segment, cut off anywhere and recovered, leaves the old segments
or the new one alone. -/
theorem publish_cut_recovers {bs : List ℕ} (h : Appending s x m) (hr : m.grouped.retired = [])
    (hc : SegmentOk s x.chain bs) (hx : x.Ok true) (hroots : RootsOk s x)
    (hcut : (publish x).Crash s c) : ∃ k s' m', recover.Completes c k s' ∧
      ((Beside s s' m m' ∧ Retains s s' m m') ∨ Published s s' m (replaced m.grouped x) m') ∧
      ∀ i b, s'.InSegment i b → ∃ d ∈ m'.grouped.published, d.id = i := by
  have hspec : Spec (fun _ => True) _ s (publish x) _ :=
    publish_spec h hr hc hx hroots fun _ => trivial
  refine cut_recovers h.segmented ?_
  rcases hcut with rfl | hcut
  · exact .inl rfl
  · exact .inr (hspec.1 c hcut)

/-- The first segment is published. -/
def publishedStore : Store := (publish builtSegment builtStore).final

theorem publishedStore_segmented : ∃ m, Segmented publishedStore m ∧
    m.grouped.active = some builtSegment ∧ m.grouped.deltas = [] ∧ 1 < m.incarnation := by
  obtain ⟨-, m, happ, hroots, -, hretired⟩ := builtStore_appending
  obtain ⟨bs, hbs⟩ := happ.chain
  have hspec : Spec (fun _ => False) _ builtStore (publish builtSegment) _ :=
    publish_spec happ hretired hbs (by decide) hroots fun hn => absurd (by rintro _ ⟨⟩) hn
  obtain ⟨y, _, ⟨-, rfl⟩, m₁, hrep, -⟩ := hspec.exists_completes fun _ _ => id
  rw [publishedStore]
  have hp := hrep.published
  have hid : 1 < m.incarnation := happ.segmented.metaOk.ids.2.2.1 _ happ.journal
  exact ⟨m₁, hp.beside.segmented, hp.active, hp.deltas,
    Nat.lt_of_lt_of_le hid hp.beside.incarnation⟩

/-- The second segment with its three pages. -/
def secondSegment : GroupSnapshot := ⟨2, 4, 6, 6, some ⟨1, 0, 1⟩, none, false⟩

/-- The second segment is built behind the first. -/
def rebuiltStore : Store := (smallSegment secondSegment.after publishedStore).final

theorem rebuiltStore_facts :
    (smallSegment secondSegment.after publishedStore).result = .ok secondSegment ∧
      (publish secondSegment rebuiltStore).trace[1]?.map
        (fun c => (pageKinds c, pageKinds (recover c).final)) =
        some ([.info, .free, .grouped, .grouped, .grouped, .grouped, .grouped],
          [.info, .free, .free, .free, .grouped, .grouped, .grouped]) := by decide +kernel

theorem rebuiltStore_appending : ∃ m, Appending rebuiltStore secondSegment m ∧
    RootsOk rebuiltStore secondSegment ∧ m.grouped.retired = [] ∧
    m.grouped.active = some builtSegment ∧ m.grouped.deltas = [] := by
  obtain ⟨m, hs, hactive, hdeltas, -⟩ := publishedStore_segmented
  obtain ⟨-, m', happ, hroots, hret, hretired⟩ :=
    smallSegment_built hs (completes_of_result rebuiltStore_facts.1)
  rw [rebuiltStore]
  exact ⟨m', happ, hroots, hretired, hret.active.trans hactive, hret.deltas.trans hdeltas⟩

/-- The second segment is published in place of the first; after the first page of that was freed,
the publication is cut off, and recovery frees the two others. -/
theorem publish_cut_recovers_second : ∃ c m k s' m',
    (publish secondSegment rebuiltStore).trace[1]? = some c ∧
    pageKinds c = [.info, .free, .grouped, .grouped, .grouped, .grouped, .grouped] ∧
    pageKinds s' = [.info, .free, .free, .free, .grouped, .grouped, .grouped] ∧
    Segmented rebuiltStore m ∧ recover.Completes c k s' ∧
    ((Beside rebuiltStore s' m m' ∧ Retains rebuiltStore s' m m') ∨
      Published rebuiltStore s' m (replaced m.grouped secondSegment) m') ∧
    ∀ i b, s'.InSegment i b → ∃ d ∈ m'.grouped.published, d.id = i := by
  obtain ⟨m, happ, hroots, hretired, -⟩ := rebuiltStore_appending
  obtain ⟨bs, hbs⟩ := happ.chain
  obtain ⟨c, hc, hkinds⟩ := Option.map_eq_some_iff.1 rebuiltStore_facts.2
  obtain ⟨hcut, hfinal⟩ := Prod.mk.inj hkinds
  obtain ⟨k, s', m', hrec, h⟩ := publish_cut_recovers happ hretired hbs (by decide) hroots
    (.inr (List.mem_of_getElem? hc))
  exact ⟨c, m, k, s', m', hc, hcut, by rw [← hrec.2]; exact hfinal, happ.segmented, hrec, h⟩

/-- The publication of a delta, cut off anywhere and recovered, leaves the old segments, or those in
front of the delta and the delta. -/
theorem publishDelta_cut_recovers {bs : List ℕ} {a : GroupSnapshot} {before : Option OwnerRef}
    {level r : ℕ} (h : Appending s x m) (hr : m.grouped.retired = [])
    (hc : SegmentOk s x.chain bs) (hx : x.Ok true) (hroots : RootsOk s x)
    (ha : m.grouped.active = some a) (hroom : r < 16) (hle : r ≤ m.grouped.deltas.length)
    (hd : Continues (endOf (a.after, a.id, none) (m.grouped.deltas.take r)) [⟨x, before, level⟩])
    (hcut : (publishDelta x before level r).Crash s c) : ∃ k s' m', recover.Completes c k s' ∧
      ((Beside s s' m m' ∧ Retains s s' m m') ∨
        Published s s' m (sealedBehind m.grouped x before level r) m') ∧
      ∀ i b, s'.InSegment i b → ∃ d ∈ m'.grouped.published, d.id = i := by
  have hspec : Spec (fun _ => True) _ s (publishDelta x before level r) _ :=
    publishDelta_spec h hr hc hx hroots ha hroom hle hd fun _ => trivial
  refine cut_recovers h.segmented ?_
  rcases hcut with rfl | hcut
  · exact .inl rfl
  · exact .inr (hspec.1 c hcut)

/-- The second segment is published as a delta. -/
def deltaStore : Store := (publishDelta secondSegment none 0 0 rebuiltStore).final

theorem deltaStore_segmented : ∃ m, Segmented deltaStore m ∧
    m.grouped.active = some builtSegment ∧ m.grouped.deltas = [⟨secondSegment, none, 0⟩] := by
  obtain ⟨m, happ, hroots, hretired, hactive, hdeltas⟩ := rebuiltStore_appending
  obtain ⟨bs, hbs⟩ := happ.chain
  have hcont : Continues (endOf (none, 1, none) (m.grouped.deltas.take 0))
      [⟨secondSegment, none, 0⟩] := by
    change GroupDelta.ChainOk none 1 none [⟨secondSegment, none, 0⟩]
    decide
  have howner : ∀ o ∈ secondSegment.after, o.Valid := by decide
  have hspec : Spec (fun _ => False) _ rebuiltStore (publishDelta secondSegment none 0 0) _ :=
    publishDelta_spec happ hretired hbs (by decide) hroots hactive (by decide) (Nat.zero_le _) hcont
      fun hn => absurd howner hn
  obtain ⟨y, _, ⟨-, rfl⟩, m₁, hrep, -⟩ := hspec.exists_completes fun _ _ => id
  rw [deltaStore]
  have hp := hrep.published
  exact ⟨m₁, hp.beside.segmented, hp.active.trans hactive, hp.deltas⟩

/-- The third segment with its three pages. -/
def thirdSegment : GroupSnapshot := ⟨3, 7, 9, 9, some ⟨1, 1, 2⟩, none, false⟩

/-- The third segment is built behind the delta. -/
def layeredStore : Store := (smallSegment thirdSegment.after deltaStore).final

theorem layeredStore_facts :
    (smallSegment thirdSegment.after deltaStore).result = .ok thirdSegment ∧
      (publishDelta thirdSegment none 1 0 layeredStore).trace[1]?.map
        (fun c => (pageKinds c, pageKinds (recover c).final)) =
        some ([.info, .grouped, .grouped, .grouped, .free, .grouped, .grouped, .grouped, .grouped,
          .grouped], [.info, .grouped, .grouped, .grouped, .free, .free, .free, .grouped, .grouped,
          .grouped]) := by decide +kernel

theorem layeredStore_appending : ∃ m, Appending layeredStore thirdSegment m ∧
    RootsOk layeredStore thirdSegment ∧ m.grouped.retired = [] ∧
    m.grouped.active = some builtSegment ∧ m.grouped.deltas = [⟨secondSegment, none, 0⟩] := by
  obtain ⟨m, hs, hactive, hdeltas⟩ := deltaStore_segmented
  obtain ⟨-, m', happ, hroots, hret, hretired⟩ :=
    smallSegment_built hs (completes_of_result layeredStore_facts.1)
  rw [layeredStore]
  exact ⟨m', happ, hroots, hretired, hret.active.trans hactive, hret.deltas.trans hdeltas⟩

/-- The third segment is published as a delta in place of the second; after the first page of that
was freed, the publication is cut off, and recovery frees the two others. -/
theorem publishDelta_cut_recovers_third : ∃ c m k s' m',
    (publishDelta thirdSegment none 1 0 layeredStore).trace[1]? = some c ∧
    pageKinds c = [.info, .grouped, .grouped, .grouped, .free, .grouped, .grouped, .grouped,
      .grouped, .grouped] ∧
    pageKinds s' = [.info, .grouped, .grouped, .grouped, .free, .free, .free, .grouped, .grouped,
      .grouped] ∧
    Segmented layeredStore m ∧ m.grouped.deltas = [⟨secondSegment, none, 0⟩] ∧
    recover.Completes c k s' ∧
    ((Beside layeredStore s' m m' ∧ Retains layeredStore s' m m') ∨
      Published layeredStore s' m (sealedBehind m.grouped thirdSegment none 1 0) m') ∧
    ∀ i b, s'.InSegment i b → ∃ d ∈ m'.grouped.published, d.id = i := by
  obtain ⟨m, happ, hroots, hretired, hactive, hdeltas⟩ := layeredStore_appending
  obtain ⟨bs, hbs⟩ := happ.chain
  have hcont : Continues (endOf (none, 1, none) (m.grouped.deltas.take 0))
      [⟨thirdSegment, none, 1⟩] := by
    change GroupDelta.ChainOk none 1 none [⟨thirdSegment, none, 1⟩]
    decide
  obtain ⟨c, hc, hkinds⟩ := Option.map_eq_some_iff.1 layeredStore_facts.2
  obtain ⟨hcut, hfinal⟩ := Prod.mk.inj hkinds
  obtain ⟨k, s', m', hrec, h⟩ := publishDelta_cut_recovers happ hretired hbs (by decide) hroots
    hactive (by decide) (Nat.zero_le _) hcont (.inr (List.mem_of_getElem? hc))
  exact ⟨c, m, k, s', m', hc, hcut, by rw [← hrec.2]; exact hfinal, happ.segmented, hdeltas,
    hrec, h⟩

end

end

/-! ### Runs -/

/-- An operation on grouped storage, with its arguments. -/
inductive GroupOp
  | recover
  | begin (after : Option OwnerRef)
  | push (x : GroupSnapshot) (b : CatalogBuilder) (e : CatalogEntry)
  | finish (x : GroupSnapshot) (b : CatalogBuilder)
  | record (x : GroupSnapshot) (kind : GroupPageKind) (key : ℕ × ℕ) (bytes : List UInt8)
  | publish (x : GroupSnapshot)
  | publishDelta (x : GroupSnapshot) (before : Option OwnerRef) (level replaceFrom : ℕ)

namespace GroupOp

/-- The identifier of a snapshot is an incarnation, which is not zero. -/
def Ok : GroupOp → Prop
  | recover | begin _ => True
  | push x .. | finish x .. | record x .. | publish x | publishDelta x .. => x.id ≠ 0

/-- The operation publishes a segment. -/
def publishes : GroupOp → Bool
  | publish .. | publishDelta .. => true
  | _ => false

/-- The step from `s` to `s'` is a run of the operation, completed or cut off. -/
def Leads : GroupOp → Store → Store → Prop
  | recover => Grouped.recover.Leads
  | begin after => (Grouped.begin after).Leads
  | push x b e => (b.push x e).Leads
  | finish x b => (b.finish x).Leads
  | record x kind key bytes => (writeRecord x kind key bytes).Leads
  | publish x => (Grouped.publish x).Leads
  | publishDelta x before level r => (Grouped.publishDelta x before level r).Leads

variable {op : GroupOp} {ops : List GroupOp} {s s' : Store} {m : MetaBody}

theorem Leads.intact (h : op.Leads s s') (hs : Segmented s m) (hop : op.Ok)
    (hp : op.publishes = false) : Intact s s' := by
  have hinv : Grouped.intact.inv s := ⟨m, hs⟩
  cases op with
  | recover => exact recover_intact.leads hinv h
  | begin after => exact (begin_intact after).leads hinv h
  | push x b e => exact (push_intact hop).leads hinv h
  | finish x b => exact (finishFrom_intact hop).leads hinv h
  | record x kind key bytes => exact (writeRecord_intact hop).leads hinv h
  | publish x => cases hp
  | publishDelta x before level r => cases hp

theorem Leads.sound (h : op.Leads s s') (hs : Segmented s m) (hop : op.Ok) : Sound s s' := by
  have hinv : Grouped.sound.inv s := ⟨m, hs⟩
  cases hp : op.publishes with
  | false => exact Intact.sound (h.intact hs hop hp)
  | true =>
    cases op with
    | publish x => exact (publish_sound hop).leads hinv h
    | publishDelta x before level r => exact (publishDelta_sound hop).leads hinv h
    | _ => cases hp

end GroupOp

/-- A run of operations, each completed, failed or cut off at a durable step. -/
inductive GroupRun : List GroupOp → Store → Store → Prop
  | nil (s : Store) : GroupRun [] s s
  | cons {op : GroupOp} {ops : List GroupOp} {s s' s'' : Store} (hop : op.Ok) (h : op.Leads s s')
      (hrest : GroupRun ops s' s'') : GroupRun (op :: ops) s s''

/-- Whatever a run of grouped operations did, the canonical index is untouched, what was published
is replaced by publishing only, and recovery leaves no grouped page but the published ones. -/
theorem grouped_runs {ops : List GroupOp} {s s' : Store} {m : MetaBody} (h : Segmented s m)
    (hrun : GroupRun ops s s') : ∃ m', Beside s s' m m' ∧
      ((∀ op ∈ ops, op.publishes = false) → Retains s s' m m') ∧
      ∃ k s'' m'', recover.Completes s' k s'' ∧ Recovered s' s'' m' m'' ∧
        ∀ i b, s''.InSegment i b → ∃ d ∈ m''.grouped.published, d.id = i := by
  have hboth : ∃ m', Beside s s' m m' ∧
      ((∀ op ∈ ops, op.publishes = false) → Retains s s' m m') := by
    induction hrun generalizing m with
    | nil s => exact ⟨m, h.beside, fun _ => .refl s m⟩
    | @cons op ops s s₁ s₂ hop hstep hrest ih =>
      obtain ⟨m₁, hb, hr⟩ : ∃ m₁, Beside s s₁ m m₁ ∧
          (op.publishes = false → Retains s s₁ m m₁) := by
        cases hp : op.publishes with
        | true =>
          obtain ⟨m₁, hb⟩ := hstep.sound h hop m h
          exact ⟨m₁, hb, by rintro ⟨⟩⟩
        | false =>
          obtain ⟨m₁, hb, hr⟩ := hstep.intact h hop hp m h
          exact ⟨m₁, hb, fun _ => hr⟩
      obtain ⟨m₂, hb', hr'⟩ := ih hb.segmented
      refine ⟨m₂, hb.trans hb', fun hall => ?_⟩
      have hfirst := hr (hall op List.mem_cons_self)
      exact hfirst.trans (hr' fun o ho => hall o (List.mem_cons_of_mem _ ho))
  obtain ⟨m', hb, hr⟩ := hboth
  obtain ⟨k, s'', m'', hc, hrec⟩ := recovers hb.segmented
  refine ⟨m', hb, hr, k, s'', m'', hc, hrec, ?_⟩
  rintro i b ⟨y, hy, rfl⟩
  obtain ⟨d, hd, hid⟩ := hrec.beside.segmented.covered b y hy
  rw [GroupState.chains, hrec.pending] at hd
  exact ⟨d, hd, hid⟩

theorem GroupRun.append {ops ops' : List GroupOp} {s s' s'' : Store} (h : GroupRun ops s s')
    (h' : GroupRun ops' s' s'') : GroupRun (ops ++ ops') s s'' := by
  induction h with
  | nil s => exact h'
  | cons hop hstep _ ih => exact .cons hop hstep (ih h')

/-- A small segment is built by a run. -/
theorem SmallSteps.run {s s' : Store} {after : Option OwnerRef} {x : GroupSnapshot}
    (h : SmallSteps s s' after x) : ∃ x₀ x₁ x₂ e x₃ b,
      GroupRun [.begin after, .record x₀ .members (0, 0) (List.replicate 72 0),
        .record x₁ .liveness (0, 0) (List.replicate 72 0), .push x₂ .new e, .finish x₃ b] s s' := by
  obtain ⟨x₀, s₁, y, s₂, z, s₃, w, s₄, h₁, h₂, h₃, h₄, h₅, hid₀, hid₁, hid₂, hid₃⟩ := h
  exact ⟨x₀, y.2, z.2, _, w.1, w.2, .cons trivial (.inr ⟨_, h₁⟩) (.cons hid₀ (.inr ⟨_, h₂⟩)
    (.cons hid₁ (.inr ⟨_, h₃⟩) (.cons hid₂ (.inr ⟨_, h₄⟩) (.cons hid₃ (.inr ⟨_, h₅⟩) (.nil _)))))⟩

/-- The second segment as it is started, and with its first record. -/
def startedSegment : GroupSnapshot := ⟨2, noBlock, noBlock, noBlock, some ⟨1, 0, 1⟩, none, false⟩

/-- The second segment with its first page. -/
def grownSegment : GroupSnapshot := ⟨2, 4, 4, noBlock, some ⟨1, 0, 1⟩, none, false⟩

/-- The published store in which another segment was begun. -/
def restartedStore : Store := (begin secondSegment.after publishedStore).final

/-- The store in which the first page of that segment was written. -/
def grownStore : Store :=
  (writeRecord startedSegment .members (0, 0) (List.replicate 72 0) restartedStore).final

/-- The second record of the second segment is cut off when it has a block. -/
def interruptedStore : Store :=
  (writeRecord grownSegment .liveness (0, 0) (List.replicate 72 0) grownStore).trace[0]?.getD
    grownStore

theorem interruptedStore_facts :
    (publish builtSegment builtStore).result.isOk = true ∧
    (begin secondSegment.after publishedStore).result.isOk = true ∧
    (writeRecord startedSegment .members (0, 0) (List.replicate 72 0) restartedStore).result.isOk =
      true ∧
    (writeRecord grownSegment .liveness (0, 0) (List.replicate 72 0) grownStore).trace[0]?.isSome =
      true ∧
    pageKinds interruptedStore = [.info, .grouped, .grouped, .grouped, .grouped, .zero] ∧
    pageKinds (recover interruptedStore).final =
      [.info, .grouped, .grouped, .grouped, .free, .zero] := by decide +kernel

/-- A run that builds and publishes the first segment and is cut off while it writes the second.
Recovery frees the page of the second and keeps those of the first. -/
theorem grouped_runs_second : ∃ ops, GroupRun ops (freshStore smallLayout true) interruptedStore ∧
    .publish builtSegment ∈ ops ∧
    pageKinds interruptedStore = [.info, .grouped, .grouped, .grouped, .grouped, .zero] ∧
    ∃ m', Beside (freshStore smallLayout true) interruptedStore (freshMeta smallLayout true) m' ∧
      ∃ k s'' m'', recover.Completes interruptedStore k s'' ∧
        pageKinds s'' = [.info, .grouped, .grouped, .grouped, .free, .zero] ∧
        Recovered interruptedStore s'' m' m'' ∧
        ∀ i b, s''.InSegment i b → ∃ d ∈ m''.grouped.published, d.id = i := by
  obtain ⟨x₀, x₁, x₂, e, x₃, b, hbuilt⟩ := builtStore_appending.1.run
  obtain ⟨hok₁, hok₂, hok₃, hsome, hkinds, hfinal⟩ := interruptedStore_facts
  obtain ⟨c, hc⟩ := Option.isSome_iff_exists.1 hsome
  have hcut : interruptedStore = c := by rw [interruptedStore, hc, Option.getD_some]
  have h₁ : (GroupOp.publish builtSegment).Leads builtStore publishedStore := by
    rw [publishedStore]
    exact .inr (completes_of_isOk hok₁)
  have h₂ : (GroupOp.begin secondSegment.after).Leads publishedStore restartedStore := by
    rw [restartedStore]
    exact .inr (completes_of_isOk hok₂)
  have h₃ : (GroupOp.record startedSegment .members (0, 0) (List.replicate 72 0)).Leads
      restartedStore grownStore := by
    rw [grownStore]
    exact .inr (completes_of_isOk hok₃)
  have h₄ : (GroupOp.record grownSegment .liveness (0, 0) (List.replicate 72 0)).Leads grownStore
      interruptedStore := by
    rw [hcut]
    exact .inl (.inr (List.mem_of_getElem? hc))
  have hid : builtSegment.id ≠ 0 ∧ startedSegment.id ≠ 0 ∧ grownSegment.id ≠ 0 := by decide
  have hrest : GroupRun [.publish builtSegment, .begin secondSegment.after,
      .record startedSegment .members (0, 0) (List.replicate 72 0),
      .record grownSegment .liveness (0, 0) (List.replicate 72 0)] builtStore interruptedStore :=
    .cons hid.1 h₁ (.cons trivial h₂ (.cons hid.2.1 h₃ (.cons hid.2.2 h₄ (.nil _))))
  have hrun := hbuilt.append hrest
  obtain ⟨m', hb, -, k, s'', m'', hrec, h⟩ := grouped_runs freshStore_wf.segmented hrun
  refine ⟨_, hrun, ?_, hkinds, m', hb, k, s'', m'', hrec, by rw [← hrec.2]; exact hfinal, h⟩
  exact List.mem_append_right _ List.mem_cons_self

end Grouped

end PinCore
