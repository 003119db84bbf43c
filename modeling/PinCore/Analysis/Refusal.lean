import PinCore.Analysis.Analyze
import PinCore.Analysis.Compose

/-!
# Why an analysis is refused

With tables of the pinned Unicode version an analysis fails for want of resources only, and when it
succeeds its terms depend on the text alone.
-/

namespace PinCore

/-- A limit, the memory budget or an allocation. -/
def Resource (e : Error) : Prop := (∃ what, e = .limit what) ∨ e = .budget ∨ e = .allocation

theorem Resource.limit {what : String} : Resource (.limit what) := .inl ⟨what, rfl⟩

theorem Resource.budget : Resource .budget := .inr (.inl rfl)

/-- The computation can be refused for want of resources only. -/
def Refusable {α : Type} (x : Except Error α) : Prop := ∀ e, x = .error e → Resource e

namespace Refusable

variable {α β : Type} {x : Except Error α} {f : α → Except Error β} {c : Prop} [Decidable c]

theorem ok {a : α} : Refusable (.ok a) := nofun

theorem error {e : Error} (h : Resource e) : Refusable (.error e : Except Error α) := by
  intro e' he
  cases he
  exact h

theorem bind (hx : Refusable x) (hf : ∀ a, Refusable (f a)) : Refusable (x >>= f) := by
  cases x with
  | error e => exact error (hx e rfl)
  | ok a => exact hf a

theorem ite {y : Except Error α} (hx : Refusable x) (hy : Refusable y) :
    Refusable (if c then x else y) := by
  split_ifs
  · exact hx
  · exact hy

theorem foldlM {σ : Type} {g : σ → α → Except Error σ} {l : List α} {s : σ}
    (hg : ∀ s, ∀ a ∈ l, Refusable (g s a)) : Refusable (l.foldlM g s) := by
  induction l generalizing s with
  | nil => exact ok
  | cons a l ih =>
    rw [List.foldlM_cons]
    exact (hg s a List.mem_cons_self).bind fun s' =>
      ih fun s b hb => hg s b (List.mem_cons_of_mem _ hb)

theorem reserve {length capacity additional limit size : ℕ} {budget : MemoryBudget} :
    Refusable (reserve length capacity additional limit size budget) := by
  unfold PinCore.reserve
  dsimp only
  split_ifs
  all_goals first
    | exact ok
    | exact error .limit
    | exact error .budget

theorem vector {b : MemoryBudget} {count size : ℕ} : Refusable (b.vector count size) := by
  unfold MemoryBudget.vector
  exact ite ok (error .budget)

theorem release {b : MemoryBudget} {bytes : ℕ} : Refusable (b.release bytes) := by
  unfold MemoryBudget.release
  exact ite ok (error .budget)

end Refusable

/-! ### Analyses -/

/-- The crates are those of the pinned Unicode version, and folding gives scalar values. -/
structure Unicode.Current (U : Unicode) : Prop where
  normalization : U.normalizationVersion = (16, 0, 0)
  segmentation : U.segmentationVersion = (16, 0, 0)
  case : U.caseVersion = (16, 0, 0)
  folded : ∀ c mapped, U.caseFolded c = some mapped → mapped.isValidChar

/-- The text that is cut into words: lowered ASCII, or the folded canonical form. -/
def Unicode.Profiled (U : Unicode) (text normalized : Str) : Prop :=
  if isAscii text then normalized = text.map toAsciiLowercase
  else ∃ f, (U.nfc text).mapM (fold U) = .ok f ∧ normalized = U.nfc f

/-- The terms that the analysis of a text yields. -/
def Unicode.Yields (U : Unicode) (text : Str) (terms : List Text) : Prop :=
  ∃ normalized, U.Profiled text normalized ∧ terms = (U.unicodeWords normalized).map Str.bytes

section

variable {U : Unicode} {text : Str} {limits : AnalysisLimits} {terms terms' : List Text} {τ : Type}
  {emitter : Nfc.Emit τ}

theorem Unicode.Yields.unique (h : U.Yields text terms) (h' : U.Yields text terms') :
    terms = terms' := by
  obtain ⟨n, hn, rfl⟩ := h
  obtain ⟨n', hn', rfl⟩ := h'
  unfold Unicode.Profiled at hn hn'
  split_ifs at hn hn' with hascii
  · rw [hn, hn']
  · obtain ⟨f, hf, rfl⟩ := hn
    obtain ⟨f', hf', rfl⟩ := hn'
    rw [Except.ok.inj (hf.symm.trans hf')]

/-- Passing on a scalar can be refused for want of resources only. -/
def Nfc.Frugal (emitter : Nfc.Emit τ) : Prop := ∀ c s, Refusable (emitter c s)

theorem Nfc.emit_refusable (he : Nfc.Frugal emitter) (s : Nfc × τ × MemoryBudget) :
    Refusable (Nfc.emit emitter s) := by
  obtain ⟨n, s⟩ := s
  exact (Refusable.foldlM fun s c _ => he c.value s).bind fun _ => .ok

theorem Nfc.finish_refusable (he : Nfc.Frugal emitter) (s : Nfc × τ × MemoryBudget) :
    Refusable (Nfc.finish U emitter s) := by
  obtain ⟨n, s⟩ := s
  exact Nfc.emit_refusable he (n.compose U, s)

theorem Nfc.add_refusable (value : Char) (s : Nfc × τ × MemoryBudget) :
    Refusable (Nfc.add value s) := by
  obtain ⟨n, t, budget⟩ := s
  exact .ite (.error .limit) (Refusable.reserve.bind fun _ => .ok)

theorem Nfc.push_refusable (he : Nfc.Frugal emitter) (value : Char) (s : Nfc × τ × MemoryBudget) :
    Refusable (Nfc.push U emitter value s) := by
  refine Refusable.foldlM fun s c _ => ?_
  obtain ⟨n, s⟩ := s
  unfold Nfc.decomposed
  dsimp only
  refine .ite ?_ (Nfc.add_refusable c _)
  split
  · exact .ok
  · exact (Nfc.emit_refusable he _).bind fun s => Nfc.add_refusable c _

theorem write_frugal {limit : ℕ} : Nfc.Frugal (Output.write limit) := by
  rintro c ⟨out, budget⟩
  exact Refusable.reserve.bind fun _ => .ok

theorem fold_refusable (hU : U.Current) (c : Char) : Refusable (fold U c) := by
  unfold fold
  split
  · exact .ok
  · next mapped hmapped =>
    rw [if_pos (hU.folded c mapped hmapped)]
    exact .ok

theorem folded_frugal (hU : U.Current) {limit : ℕ} : Nfc.Frugal (folded U limit) := by
  rintro c ⟨⟨second, out⟩, budget⟩
  refine (fold_refusable hU c).bind fun value => ?_
  exact (Nfc.push_refusable write_frugal value _).bind fun _ => .ok

theorem profileText_refusable (hU : U.Current) {limit : ℕ} {budget : MemoryBudget} :
    Refusable (profileText U text limit budget) := by
  refine Refusable.reserve.bind fun x => ?_
  obtain ⟨capacity, budget⟩ := x
  refine .ite (.ite (.error .limit) .ok) ?_
  refine (Refusable.foldlM fun s c _ => Nfc.push_refusable (folded_frugal hU) c s).bind fun s => ?_
  refine (Nfc.finish_refusable (folded_frugal hU) _).bind fun s => ?_
  obtain ⟨first, ⟨second, out⟩, budget⟩ := s
  refine (Nfc.finish_refusable write_frugal _).bind fun s => ?_
  obtain ⟨second, out, budget⟩ := s
  exact Refusable.release.bind fun _ => Refusable.release.bind fun _ => .ok

theorem tokenize_refusable {words : List (ℕ × Str)} {tokens : List TokenRange} {capacity : ℕ}
    {budget : MemoryBudget} : Refusable (tokenize limits words tokens capacity budget) := by
  induction words generalizing tokens capacity budget with
  | nil => exact .ok
  | cons word words ih =>
    obtain ⟨start, term⟩ := word
    exact .ite (.error .limit) (Refusable.reserve.bind fun _ => ih)

theorem analyze_refusable (hU : U.Current) : Refusable (Analyzed.analyze U text limits) := by
  have hcheck : Refusable (checkInput U text limits) := by
    unfold checkInput
    rw [if_neg (by rw [hU.normalization, hU.segmentation, hU.case]; simp)]
    exact .ite (.error .limit) .ok
  refine hcheck.bind fun _ => (profileText_refusable hU).bind fun x => ?_
  obtain ⟨normalized, peak, budget⟩ := x
  exact .ite (.error .limit) (tokenize_refusable.bind fun _ => .ok)

/-- The terms of an analysis are those that the text yields, whatever the limits. -/
theorem analyze_yields (hU : U.Lawful) (hT : U.Tables) {a : Analyzed}
    (h : Analyzed.analyze U text limits = .ok a) : U.Yields text a.document := by
  obtain ⟨peak, budget, hprofile, -, -⟩ := of_analyze h
  refine ⟨a.normalized, ?_, document_analyze hU h⟩
  unfold Unicode.Profiled
  split_ifs with hascii
  · obtain ⟨⟨capacity, b⟩, -, hrest⟩ := ok_of_bind hprofile
    simp only [hascii, if_true] at hrest
    split_ifs at hrest
    exact (Prod.mk.inj (Except.ok.inj hrest)).1.symm
  · exact profileText_nfc hT (Bool.not_eq_true _ ▸ hascii) hprofile

end

end PinCore
