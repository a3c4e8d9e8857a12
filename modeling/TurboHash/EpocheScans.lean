import TurboHash.EpocheSafety

/-!
# What a scan respects

A node may be in a list already when an operation publishes its epoch, as long as the thread of
the list is still behind the mark and not in its cleanup. The scan of that thread is then yet to
begin, and will come by the operation. Whether it keeps the node depends on the stamp as well.
-/

namespace TurboHash

namespace Epoche

variable {τ ν : Type} [DecidableEq τ] {s s' : Epoche τ ν} {guarded fresh : τ → Set ν}
  {a : EpocheAction τ ν} {t u : τ} {n : ν}

/-- A scan of a thread that has one of the nodes in its list has still to come by the operation,
or has seen its epoch. -/
def Seen (s : Epoche τ ν) (fresh : τ → Set ν) : Prop :=
  ∀ t u n k scan, (s.phase t).Protected → n ∈ fresh t → s.Stamped u n k →
    (s.phase u).scan = some scan → t ∈ scan.todo ∨ scan.least ≤ (s.deletionLists t).localEpoche

/-- The nodes that an operation may come to use: when it publishes its epoch, those that no
cleanup has in its list. -/
def freshAfter (s : Epoche τ ν) (fresh : τ → Set ν) : EpocheAction τ ν → τ → Set ν
  | .storeEpoche t =>
    Function.update fresh t {n | ∀ u k, s.Stamped u n k → (s.phase u).scan = none}
  | _ => fresh

/-! ## Steps -/

theorem Step.created_mono (step : s.Step a s') (listed : t ∈ s.created) : t ∈ s'.created := by
  cases step <;> simp_all [setPhase, storeLocal, resetCounter, setList]

/-- An operation is protected from the store of its epoch on, and keeps it. -/
theorem Step.published_after (sound : s.Sound guarded) (step : s.Step a s')
    (now : (s'.phase t).Protected) :
    (s.phase t).Protected ∧ a ≠ .storeEpoche t ∧
        (s'.deletionLists t).localEpoche = (s.deletionLists t).localEpoche ∨
      a = .storeEpoche t := by
  by_cases own : t = a.thread
  case neg =>
    obtain ⟨phase, list, -⟩ := step.others own
    rw [phase] at now
    refine Or.inl ⟨now, ?_, by rw [list]⟩
    rintro rfl
    exact own rfl
  case pos =>
    subst own
    cases step <;>
      simp only [EpocheAction.thread, setPhase, storeLocal, resetCounter, setList, DeletionList.add,
        Function.update_self] at now ⊢
    case storeEpoche => exact Or.inr trivial
    case list t value new =>
      have idle : s.phase t = .idle := by
        by_contra busy
        exact new ((sound.settled t).created busy)
      rw [idle] at now
      exact now.elim
    case relist => exact Or.inl ⟨now, (fun same => by cases same), trivial⟩
    case dropThreadInfo idle _ =>
      rw [idle] at now
      exact now.elim
    case mark inside => exact Or.inl ⟨by rw [inside]; trivial, (fun same => by cases same), trivial⟩
    case add marking => exact Or.inl ⟨by rw [marking]; trivial, (fun same => by cases same), trivial⟩
    case exitBump inside => exact Or.inl ⟨by rw [inside]; trivial, (fun same => by cases same), trivial⟩
    case exit inside => exact Or.inl ⟨by rw [inside]; trivial, (fun same => by cases same), trivial⟩
    all_goals exact now.elim

/-- A scan begins with every list that exists, and goes on with what it has seen. -/
theorem Step.scan_after (step : s.Step a s') {scan' : Reclaim.Scan τ}
    (now : (s'.phase u).scan = some scan') :
    a = .beginScan u ∧ scan' = ⟨s.created, ⊤⟩ ∨
      ∃ scan, (s.phase u).scan = some scan ∧ scan'.least ≤ scan.least ∧
        ∀ t ∈ scan.todo, t ∈ scan'.todo ∨ scan'.least ≤ (s.deletionLists t).localEpoche := by
  by_cases own : u = a.thread
  case neg =>
    rw [(step.others own).1] at now
    exact Or.inr ⟨scan', now, le_rfl, fun t left => Or.inl left⟩
  case pos =>
    subst own
    cases step <;>
      simp only [EpocheAction.thread, setPhase, storeLocal, resetCounter, setList,
        Function.update_self] at now ⊢
    case beginScan t cleaning =>
      cases now
      exact Or.inl ⟨trivial, rfl⟩
    case loadLocalEpoche t v todo oldest scanning listed =>
      cases now
      refine Or.inr ⟨⟨todo, oldest⟩, by rw [scanning]; rfl, min_le_left _ _, fun w left => ?_⟩
      by_cases here : w = v
      · subst here
        exact Or.inr (min_le_right _ _)
      · exact Or.inl (Finset.mem_erase.mpr ⟨here, left⟩)
    case endScan t oldest scanning =>
      cases now
      exact Or.inr ⟨⟨(∅ : Finset τ), oldest⟩, by rw [scanning]; rfl, le_rfl,
        fun w left => absurd left (Finset.notMem_empty w)⟩
    case relist => exact Or.inr ⟨scan', now, le_rfl, fun t left => Or.inl left⟩
    case list => exact Or.inr ⟨scan', now, le_rfl, fun t left => Or.inl left⟩
    case dropThreadInfo => exact Or.inr ⟨scan', now, le_rfl, fun t left => Or.inl left⟩
    case remove t k i oldest label sweeping =>
      cases now
      exact Or.inr ⟨⟨∅, oldest⟩, by rw [sweeping]; rfl, le_rfl, fun w left => left.elim⟩
    case sweepOn t k i k' i' oldest sweeping =>
      cases now
      exact Or.inr ⟨⟨∅, oldest⟩, by rw [sweeping]; rfl, le_rfl, fun w left => left.elim⟩
    all_goals cases now

theorem freshAfter_of_ne (different : a ≠ .storeEpoche t) : s.freshAfter fresh a t = fresh t := by
  cases a with
  | storeEpoche t' =>
    refine Function.update_of_ne ?_ ..
    rintro rfl
    exact different rfl
  | _ => rfl

/-- A thread that marks a node does not scan. -/
theorem Step.not_scanning_of_mark (step : s.Step (.mark u n) s') : (s'.phase u).scan = none := by
  cases step
  simp [setPhase, Phase.scan]

/-- Every step keeps what the scans respect. -/
theorem Seen.step (seen : s.Seen fresh) (sound : s.Sound guarded) (step : s.Step a s') :
    s'.Seen (s.freshAfter fresh a) := by
  intro t u n k scan' now mem stamped scanning
  rcases step.stamped_before stamped with ⟨k', before⟩ | rfl
  case inr =>
    rw [step.not_scanning_of_mark] at scanning
    cases scanning
  rcases step.published_after sound now with ⟨was, other, published⟩ | rfl
  · rw [freshAfter_of_ne other] at mem
    rw [published]
    rcases step.scan_after scanning with ⟨rfl, rfl⟩ | ⟨scan, scanned, least, todo⟩
    · refine Or.inl ((sound.settled t).created fun idle => ?_)
      rw [idle] at was
      exact was
    · rcases seen t u n k' scan was mem before scanned with left | passed
      · exact todo t left
      · exact Or.inr (least.trans passed)
  · -- no thread that scans has the node in its list
    simp only [freshAfter, Function.update_self] at mem
    rcases step.scan_after scanning with ⟨same, -⟩ | ⟨scan, scanned, -, -⟩
    · cases same
    · rw [mem u k' before] at scanned
      cases scanned

/-- The threads with a node in their lists are listed. -/
def Listed (s : Epoche τ ν) : Prop := ∀ u n k, s.Stamped u n k → u ∈ s.created

theorem Listed.step (listed : s.Listed) (sound : s.Sound guarded) (step : s.Step a s') :
    s'.Listed := by
  intro u n k stamped
  rcases step.stamped_before stamped with ⟨k', before⟩ | rfl
  · exact step.created_mono (listed u n k' before)
  · apply step.created_mono
    cases step
    case mark inside => exact (sound.settled u).created (by rw [inside]; nofun)

/-- A protected operation comes to use a node that was not stamped before its epoch, and that the
scans respect. -/
theorem Sound.obtains (sound : s.Sound guarded) (here : (s.phase t).Protected)
    (stamps : ∀ u k, s.Stamped u n k → (s.deletionLists t).localEpoche ≤ k)
    (scans : ∀ u k scan, s.Stamped u n k → (s.phase u).scan = some scan →
      t ∈ scan.todo ∨ scan.least ≤ (s.deletionLists t).localEpoche) :
    s.Sound (Function.update guarded t (insert n (guarded t))) where
  inv := by
    have settled := sound.settled t
    refine sound.inv.obtains (settled.protected_le here) (settled.created fun idle => ?_) stamps scans
    rw [idle] at here
    exact here
  settled u := by
    by_cases own : u = t
    · subst own
      have settled := sound.settled u
      exact { settled with unguarded := fun bare => absurd here bare }
    · rw [Function.update_of_ne own]
      exact sound.settled u

/-- An operation goes on until it ends. -/
theorem Step.inside_after (step : s.Step a s') (here : s.phase t = .inside) (leaves : a ≠ .leave t)
    (exits : a ≠ .exit t) (marks : ∀ n, a ≠ .mark t n) :
    s'.phase t = .inside ∧ s.guardedAfter guarded a t = guarded t := by
  by_cases own : t = a.thread
  case neg =>
    rw [(step.others own).1]
    exact ⟨here, guardedAfter_of_ne own⟩
  case pos =>
    subst own
    cases step <;> simp_all [EpocheAction.thread, setList, guardedAfter]

/-- The operation has stored its epoch and not come to its end. -/
def Working (s : Epoche τ ν) (t : τ) : Prop :=
  s.phase t = .inside ∨ ∃ n e, s.phase t = .marking n e

omit [DecidableEq τ] in
theorem Working.guards (working : s.Working t) : (s.phase t).Protected ∧ (s.phase t).scan = none := by
  rcases working with inside | ⟨n, e, marking⟩
  · rw [inside]
    exact ⟨trivial, rfl⟩
  · rw [marking]
    exact ⟨trivial, rfl⟩

theorem Step.working_after (step : s.Step a s') (working : s.Working t) (leaves : a ≠ .leave t)
    (exits : a ≠ .exit t) : s'.Working t := by
  by_cases own : t = a.thread
  case neg =>
    rw [Working, (step.others own).1]
    exact working
  case pos =>
    subst own
    rcases working with here | ⟨n, e, here⟩ <;>
      cases step <;> simp_all [EpocheAction.thread, Working, setPhase, setList]

end Epoche

end TurboHash
