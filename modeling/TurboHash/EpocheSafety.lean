import Mathlib.Logic.Relation
import TurboHash.Epoche
import TurboHash.Lib.Transition

/-!
# The epoch protocol reclaims no node in use

The protocol follows the pattern of epoch-based reclamation: its steps are steps of
the pattern, where an operation may use, from the store of its epoch on, the nodes
that were in no list at that store.
-/

namespace TurboHash

open Relation

namespace Epoche

variable {τ ν : Type} [DecidableEq τ] {s s' : Epoche τ ν} {guarded : τ → Set ν}

/-! ## What a step does to the pattern's state -/

/-- A thread that goes on while its node of `markNodeForDeletion` stays the same. -/
theorem reclaim_setPhase (t : τ) (phase : Phase τ ν) {old : Phase τ ν} (here : s.phase t = old)
    (marks : phase.mark = old.mark) :
    (s.setPhase t phase).reclaim guarded =
      { s.reclaim guarded with
        scan := Function.update (s.reclaim guarded).scan t phase.scan } := by
  subst here
  apply Reclaim.State.ext
  case stamped =>
    funext u n k
    by_cases here : u = t
    · subst here
      simp [reclaim, setPhase, Stamped, marks]
    · simp [reclaim, setPhase, Stamped, here]
  case scan =>
    funext u
    by_cases here : u = t
    · subst here
      simp [reclaim, setPhase]
    · simp [reclaim, setPhase, here]
  all_goals rfl

theorem reclaim_setPhase_eq (t : τ) (phase : Phase τ ν) {old : Phase τ ν}
    (here : s.phase t = old) (marks : phase.mark = old.mark) (scan : phase.scan = old.scan) :
    (s.setPhase t phase).reclaim guarded = s.reclaim guarded := by
  have same : (s.reclaim guarded).scan t = phase.scan := by
    rw [scan, ← here]
    rfl
  rw [reclaim_setPhase t phase here marks, ← same, Function.update_eq_self]

theorem reclaim_setList (t : τ) {list : DeletionList ν}
    (labels : list.headDeletionList = (s.deletionLists t).headDeletionList) :
    (s.setList t list).reclaim guarded =
      { s.reclaim guarded with
        published := Function.update (s.reclaim guarded).published t list.localEpoche } := by
  apply Reclaim.State.ext
  case published =>
    funext u
    by_cases here : u = t
    · subst here
      simp [reclaim, setList]
    · simp [reclaim, setList, here]
  case stamped =>
    funext u n k
    apply propext
    unfold reclaim setList Stamped
    by_cases here : u = t
    · subst here
      simp only [Function.update_self, labels]
    · simp only [Function.update_of_ne here]
  all_goals rfl

theorem reclaim_storeLocal (t : τ) (value : WithTop ℕ) :
    (s.storeLocal t value).reclaim guarded =
      { s.reclaim guarded with
        published := Function.update (s.reclaim guarded).published t value } :=
  reclaim_setList t rfl

theorem reclaim_resetCounter (t : τ) :
    (s.resetCounter t).reclaim guarded = s.reclaim guarded := by
  have same : (s.reclaim guarded).published t = (s.deletionLists t).localEpoche := rfl
  unfold resetCounter
  rw [reclaim_setList t (by rfl), ← same, Function.update_eq_self]

/-- The stamps that an `add` leaves are of its own epoch or older ones. -/
theorem stamped_add {t u : τ} {n m : ν} {e k : ℕ} (sound : s.Sound guarded)
    (marking : s.phase t = .marking n e) {c : ℕ}
    (now : ((s.setPhase t .inside).setList t { (s.deletionLists t).add n e with
      thresholdCounter := c }).Stamped u m k) :
    ∃ k' ≤ k, s.Stamped u m k' := by
  by_cases here : u = t
  · subst here
    rcases now with ⟨label, mem, inside, rfl⟩ | marks
    · simp only [setPhase, setList, Function.update_self, DeletionList.add] at mem
      rcases DeletionList.mem_addLabel mem with old | ⟨rfl, nodes⟩
      · exact ⟨_, le_rfl, Or.inl ⟨label, old, inside, rfl⟩⟩
      · rcases nodes m inside with rfl | ⟨old, mem, inside⟩
        · refine ⟨_, le_rfl, Or.inr ?_⟩
          rw [marking]
          rfl
        · exact ⟨old.epoche, ((sound.settled u).marking_le n _ marking).2 old mem,
            Or.inl ⟨old, mem, inside, rfl⟩⟩
    · simp [setPhase, setList, Phase.mark] at marks
  · refine ⟨k, le_rfl, ?_⟩
    simpa [Stamped, setPhase, setList, Function.update_of_ne here] using now

/-- The stamps that are left when a label is removed. -/
theorem stamped_remove {t u : τ} {i k : ℕ} {label : LabelDelete ν} {m : ν}
    (now : (s.setList t ((s.deletionLists t).remove label i)).Stamped u m k) :
    s.Stamped u m k := by
  rcases now with ⟨old, mem, inside, rfl⟩ | marks
  · refine Or.inl ⟨old, ?_, inside, rfl⟩
    by_cases here : u = t
    · subst here
      simp only [setList, Function.update_self, DeletionList.remove] at mem
      exact List.mem_of_mem_eraseIdx mem
    · simpa only [setList, Function.update_of_ne here] using mem
  · exact Or.inr marks

/-- Other labels under the same `localEpoche`. -/
theorem reclaim_relabel (t : τ) (list : DeletionList ν)
    (same : list.localEpoche = (s.deletionLists t).localEpoche) :
    (s.setList t list).reclaim guarded =
      { s.reclaim guarded with stamped := (s.setList t list).Stamped } := by
  apply Reclaim.State.ext
  case published =>
    funext u
    by_cases here : u = t
    · subst here
      simp [reclaim, setList, same]
    · simp [reclaim, setList, here]
  all_goals rfl

omit [DecidableEq τ] in
theorem Sound.unguarded (sound : s.Sound guarded) {t : τ} {phase : Phase τ ν}
    (here : s.phase t = phase) (notProtected : ¬ phase.Protected) : guarded t = ∅ := by
  apply (sound.settled t).unguarded
  rwa [here]

theorem reclaim_list {t : τ} (value : WithTop ℕ) (sound : s.Sound guarded)
    (new : t ∉ s.created) :
    ReflTransGen Reclaim.Step (s.reclaim guarded)
      ({ s.setList t (.new value) with created := insert t s.created }.reclaim guarded) := by
  have idle : s.phase t = .idle := by
    by_contra busy
    exact new ((sound.settled t).created busy)
  let next := { s.setList t (.new value) with created := insert t s.created }
  have dropped : Reclaim.Step (s.reclaim guarded)
      { s.reclaim guarded with stamped := next.Stamped } := by
    refine Reclaim.Step.restamp _ _ fun u n k now => ⟨k, le_rfl, ?_⟩
    rcases now with ⟨label, mem, inside, rfl⟩ | marks
    · refine Or.inl ⟨label, ?_, inside, rfl⟩
      by_cases here : u = t
      · subst here
        simp [next, setList, DeletionList.new] at mem
      · simpa [next, setList, Function.update_of_ne here] using mem
    · exact Or.inr marks
  have registered : Reclaim.Step { s.reclaim guarded with stamped := next.Stamped }
      (next.reclaim guarded) := by
    have step := Reclaim.Step.register { s.reclaim guarded with stamped := next.Stamped } t value
      (sound.unguarded idle not_false)
    convert step using 1
    apply Reclaim.State.ext
    case registered => exact Finset.coe_insert t s.created
    case published =>
      funext u
      by_cases here : u = t
      · subst here
        simp [reclaim, next, setList, DeletionList.new]
      · simp [reclaim, next, setList, here]
    all_goals rfl
  exact ReflTransGen.tail (.single dropped) registered

/-- The protocol follows the pattern. -/
theorem reclaim_step {a : EpocheAction τ ν} (sound : s.Sound guarded) (step : s.Step a s') :
    ReflTransGen Reclaim.Step (s.reclaim guarded) (s'.reclaim (s.guardedAfter guarded a)) := by
  cases step with
  | relist t value listed => exact .refl
  | list t value new => exact reclaim_list value sound new
  | dropThreadInfo t idle listed =>
    rw [reclaim_storeLocal]
    exact .single (.silence _ t (sound.unguarded idle not_false))
  | loadEpoche t idle listed =>
    rw [reclaim_setPhase_eq t (.entering _) idle rfl rfl]
    exact .refl
  | storeEpoche t e entering =>
    rw [reclaim_storeLocal, reclaim_setPhase_eq t .inside entering rfl rfl]
    refine .single (.publish (s.reclaim guarded) t e ?_ ?_ (sound.unguarded entering not_false))
    · exact (sound.settled t).entering_le e entering
    · exact (sound.settled t).created (by simp [entering])
  | mark t n inside =>
    have step := Reclaim.Step.retire (s.reclaim guarded) t n (by
      rw [show (s.reclaim guarded).scan t = (s.phase t).scan from rfl, inside]
      rfl)
    refine .single ?_
    convert step using 1
    apply Reclaim.State.ext
    case stamped =>
      funext u m k
      by_cases here : u = t
      · subst here
        simp [reclaim, setPhase, guardedAfter, Stamped, Phase.mark, inside, eq_comm]
      · simp [reclaim, setPhase, guardedAfter, Stamped, here]
    case scan =>
      funext u
      by_cases here : u = t
      · subst here
        simp [reclaim, setPhase, guardedAfter, inside, Phase.scan]
      · simp [reclaim, setPhase, guardedAfter, here]
    all_goals rfl
  | add t n e marking =>
    rw [reclaim_relabel t _ (by rfl)]
    have step := Reclaim.Step.restamp (s.reclaim guarded) _ fun u m k =>
      stamped_add (c := (s.deletionLists t).thresholdCounter + 1) sound marking
    refine .single ?_
    convert step using 1
    apply Reclaim.State.ext
    case scan =>
      funext u
      by_cases here : u = t
      · subst here
        simp [reclaim, setPhase, marking, Phase.scan]
      · simp [reclaim, setPhase, here]
    all_goals rfl
  | leave t inside =>
    rw [reclaim_setPhase_eq t .idle inside rfl rfl]
    exact .single (.release _ t)
  | exitBump t inside =>
    have same : (s.setPhase t .exiting).reclaim guarded = s.reclaim guarded :=
      reclaim_setPhase_eq t .exiting inside rfl rfl
    rw [← same]
    exact .single (.tick _)
  | exit t inside =>
    rw [reclaim_setPhase_eq t .exiting inside rfl rfl]
    exact .refl
  | nothingToFree t exiting =>
    rw [reclaim_resetCounter, reclaim_setPhase_eq t .idle exiting rfl rfl]
    exact .single (.release _ t)
  | storeMax t exiting =>
    rw [reclaim_storeLocal, reclaim_setPhase_eq t .cleaning exiting rfl rfl]
    have released : Reclaim.Step (s.reclaim guarded)
        (s.reclaim (Function.update guarded t ∅)) := .release _ t
    exact .tail (.single released) (.silence _ t (Function.update_self t _ _))
  | belowThreshold t exiting =>
    rw [reclaim_setPhase_eq t .idle exiting rfl rfl]
    exact .single (.release _ t)
  | beginScan t cleaning =>
    rw [reclaim_setPhase t (.scanning _ _) cleaning rfl]
    exact .single (.beginScan _ t)
  | loadLocalEpoche t u todo oldest scanning listed =>
    rw [reclaim_setPhase t (.scanning (todo.erase u) _) scanning rfl]
    have scan : (s.reclaim guarded).scan t = some ⟨todo, oldest⟩ := by
      rw [show (s.reclaim guarded).scan t = (s.phase t).scan from rfl, scanning]
      rfl
    have step := Reclaim.Step.visit (s.reclaim guarded) t u _ scan
    rw [← Finset.coe_erase] at step
    exact .single step
  | endScan t oldest scanning =>
    rw [reclaim_setPhase_eq t (.sweeping 0 0 oldest) scanning rfl (by simp [Phase.scan])]
    exact .refl
  | swept t k i oldest sweeping =>
    rw [reclaim_resetCounter, reclaim_setPhase t .idle sweeping rfl]
    exact .single (.endScan _ t)
  | remove t k i oldest label sweeping =>
    have same : (s.setPhase t (.sweeping k 0 oldest)).reclaim guarded = s.reclaim guarded :=
      reclaim_setPhase_eq t (.sweeping k 0 oldest) sweeping rfl rfl
    rw [← same, reclaim_relabel t _ (by rfl)]
    exact .single (.restamp _ _ fun u m e now => ⟨e, le_rfl, stamped_remove now⟩)
  | sweepOn t k i k' i' oldest sweeping =>
    rw [reclaim_setPhase_eq t (.sweeping k' i' oldest) sweeping rfl rfl]
    exact .refl

/-! ## The invariant -/

/-- A step leaves the other threads as they are. -/
theorem Step.others {a : EpocheAction τ ν} (step : s.Step a s') {u : τ} (other : u ≠ a.thread) :
    s'.phase u = s.phase u ∧ s'.deletionLists u = s.deletionLists u ∧
      (u ∈ s'.created ↔ u ∈ s.created) := by
  cases step <;> simp_all [setPhase, storeLocal, resetCounter, setList, EpocheAction.thread]

theorem guardedAfter_of_ne {a : EpocheAction τ ν} {u : τ} (other : u ≠ a.thread) :
    s.guardedAfter guarded a u = guarded u := by
  cases a <;> simp_all [guardedAfter, EpocheAction.thread]

theorem Step.currentEpoche_le {a : EpocheAction τ ν} (step : s.Step a s') :
    s.currentEpoche ≤ s'.currentEpoche := by
  cases step <;> simp [setPhase, storeLocal, resetCounter, setList]

/-- No step counts a word up by more than one. -/
theorem Step.words_le {a : EpocheAction τ ν} (step : s.Step a s') :
    s'.currentEpoche ≤ s.currentEpoche + 1 ∧
      ∀ u, (s'.deletionLists u).thresholdCounter ≤ (s.deletionLists u).thresholdCounter + 1 := by
  constructor
  · cases step <;> simp [setPhase, storeLocal, resetCounter, setList]
  · intro u
    by_cases own : u = a.thread
    · subst own
      cases step <;> simp [setPhase, storeLocal, resetCounter, setList, EpocheAction.thread,
        DeletionList.new, DeletionList.add, DeletionList.remove]
    · rw [(step.others own).2.1]
      exact Nat.le_succ _

omit [DecidableEq τ] in
/-- A thread without a published epoch and not about to publish one. -/
theorem Settled.unprotected {clock : ℕ} {listed : Prop} {list : DeletionList ν} {phase : Phase τ ν}
    {nodes : Set ν} (label_le : ∀ label ∈ list.headDeletionList, label.epoche ≤ clock)
    (entering : ∀ e, phase ≠ .entering e) (quiet : ¬ phase.Protected)
    (created : phase ≠ .idle → listed) (unguarded : nodes = ∅) :
    Settled clock listed list phase nodes where
  label_le := label_le
  entering_le e here := absurd here (entering e)
  marking_le n e here := by
    rw [here] at quiet
    exact absurd trivial quiet
  protected_le here := absurd here quiet
  created := created
  unguarded _ := unguarded

omit [DecidableEq τ] in
/-- A thread with a published epoch that is not marking a node. -/
theorem Settled.guarding {clock : ℕ} {listed : Prop} {list : DeletionList ν} {phase : Phase τ ν}
    {nodes : Set ν} (label_le : ∀ label ∈ list.headDeletionList, label.epoche ≤ clock)
    (guarding : phase.Protected) (marking : phase.mark = none) (le : list.localEpoche ≤ clock)
    (listed_ : listed) : Settled clock listed list phase nodes where
  label_le := label_le
  entering_le e here := by
    rw [here] at guarding
    exact guarding.elim
  marking_le n e here := by
    rw [here] at marking
    cases marking
  protected_le _ := le
  created _ := listed_
  unguarded quiet := absurd guarding quiet

omit [DecidableEq τ] in
theorem Settled.mono {clock clock' : ℕ} {listed : Prop} {list : DeletionList ν}
    {phase : Phase τ ν} {nodes : Set ν} (settled : Settled clock listed list phase nodes)
    (later : clock ≤ clock') : Settled clock' listed list phase nodes where
  label_le label mem := (settled.label_le label mem).trans later
  entering_le e here := (settled.entering_le e here).trans later
  marking_le n e here := ⟨(settled.marking_le n e here).1.trans later,
    (settled.marking_le n e here).2⟩
  protected_le here := (settled.protected_le here).trans (WithTop.coe_le_coe.mpr later)
  created := settled.created
  unguarded := settled.unguarded

theorem Sound.settled_step {a : EpocheAction τ ν} (sound : s.Sound guarded) (step : s.Step a s') :
    Settled s'.currentEpoche (a.thread ∈ s'.created) (s'.deletionLists a.thread)
      (s'.phase a.thread) (s.guardedAfter guarded a a.thread) := by
  have settled := sound.settled a.thread
  have label_le := settled.label_le
  -- the fields of the thread's own entry after the step
  cases step <;>
    simp only [EpocheAction.thread, setPhase, storeLocal, resetCounter, setList, guardedAfter,
      Function.update_self] at settled label_le ⊢
  case relist => exact settled
  case list t value new =>
    have idle : s.phase t = .idle := by
      by_contra busy
      exact new (settled.created busy)
    rw [idle]
    exact .unprotected nofun nofun not_false (absurd rfl) (sound.unguarded idle not_false)
  case dropThreadInfo t idle listed =>
    rw [idle]
    exact .unprotected label_le nofun not_false (absurd rfl) (sound.unguarded idle not_false)
  case loadEpoche t idle listed =>
    refine ⟨label_le, fun e here => ?_, nofun, False.elim, fun _ => listed,
      fun _ => sound.unguarded idle not_false⟩
    cases here
    exact le_rfl
  case storeEpoche t e entering =>
    exact .guarding label_le trivial rfl (WithTop.coe_le_coe.mpr (settled.entering_le e entering))
      (settled.created (by simp [entering]))
  case mark t n inside =>
    refine ⟨label_le, nofun, fun m e here => ?_, fun _ => ?_, fun _ => ?_, absurd trivial⟩
    · cases here
      exact ⟨le_rfl, label_le⟩
    · exact settled.protected_le (by rw [inside]; trivial)
    · exact settled.created (by simp [inside])
  case add t n e marking =>
    refine .guarding (fun label mem => ?_) trivial rfl
      (settled.protected_le (by rw [marking]; trivial)) (settled.created (by simp [marking]))
    rcases DeletionList.mem_addLabel mem with old | ⟨rfl, -⟩
    · exact label_le label old
    · exact (settled.marking_le n _ marking).1
  case leave t inside => exact .unprotected label_le nofun not_false (absurd rfl) rfl
  case exitBump t inside =>
    refine .guarding (fun label mem => (label_le label mem).trans (Nat.le_succ _)) trivial rfl ?_
      (settled.created (by simp [inside]))
    have le := settled.protected_le (by rw [inside]; trivial)
    exact le.trans (WithTop.coe_le_coe.mpr (Nat.le_succ _))
  case exit t inside =>
    exact .guarding label_le trivial rfl (settled.protected_le (by rw [inside]; trivial))
      (settled.created (by simp [inside]))
  case nothingToFree t exiting => exact .unprotected label_le nofun not_false (absurd rfl) rfl
  case storeMax t exiting =>
    exact .unprotected label_le nofun not_false (fun _ => settled.created (by simp [exiting])) rfl
  case belowThreshold t exiting => exact .unprotected label_le nofun not_false (absurd rfl) rfl
  case beginScan t cleaning =>
    exact .unprotected label_le nofun not_false (fun _ => settled.created (by simp [cleaning]))
      (sound.unguarded cleaning not_false)
  case loadLocalEpoche t u todo oldest scanning listed =>
    exact .unprotected label_le nofun not_false (fun _ => settled.created (by simp [scanning]))
      (sound.unguarded scanning not_false)
  case endScan t oldest scanning =>
    exact .unprotected label_le nofun not_false (fun _ => settled.created (by simp [scanning]))
      (sound.unguarded scanning not_false)
  case swept t k i oldest sweeping =>
    exact .unprotected label_le nofun not_false (absurd rfl) (sound.unguarded sweeping not_false)
  case remove t k i oldest label sweeping =>
    refine .unprotected (fun old mem => ?_) nofun not_false
      (fun _ => settled.created (by simp [sweeping])) (sound.unguarded sweeping not_false)
    exact label_le old (List.mem_of_mem_eraseIdx mem)
  case sweepOn t k i k' i' oldest sweeping =>
    exact .unprotected label_le nofun not_false (fun _ => settled.created (by simp [sweeping]))
      (sound.unguarded sweeping not_false)

/-- Every step keeps the invariant. -/
theorem Sound.step {a : EpocheAction τ ν} (sound : s.Sound guarded) (step : s.Step a s') :
    s'.Sound (s.guardedAfter guarded a) where
  inv := sound.inv.steps (reclaim_step sound step)
  settled u := by
    by_cases own : u = a.thread
    · subst own
      exact sound.settled_step step
    · obtain ⟨phase, list, created⟩ := step.others own
      rw [phase, list, guardedAfter_of_ne own, propext created]
      exact (sound.settled u).mono step.currentEpoche_le

/-- A node comes into a list by a mark only. -/
theorem Step.stamped_before {a : EpocheAction τ ν} (step : s.Step a s') {u : τ} {n : ν} {k : ℕ}
    (now : s'.Stamped u n k) : (∃ k', s.Stamped u n k') ∨ a = .mark u n := by
  by_cases own : u = a.thread
  case neg =>
    obtain ⟨phase, list, -⟩ := step.others own
    unfold Stamped at now
    rw [phase, list] at now
    exact Or.inl ⟨k, now⟩
  case pos =>
    subst own
    unfold Stamped at now
    -- what the thread has in its list and on its way there after the step
    cases step <;>
      simp only [EpocheAction.thread, setPhase, storeLocal, resetCounter, setList,
        Function.update_self, DeletionList.add, DeletionList.remove, DeletionList.new] at now ⊢
    case add t m e marking =>
      rcases now with ⟨label, mem, inside, -⟩ | marks
      · rcases DeletionList.mem_addLabel mem with old | ⟨-, nodes⟩
        · exact Or.inl ⟨_, Or.inl ⟨label, old, inside, rfl⟩⟩
        · rcases nodes n inside with rfl | ⟨old, mem, inside⟩
          · exact Or.inl ⟨e, Or.inr (by rw [marking]; rfl)⟩
          · exact Or.inl ⟨_, Or.inl ⟨old, mem, inside, rfl⟩⟩
      · cases marks
    case mark t m inside =>
      rcases now with now | marks
      · exact Or.inl ⟨k, Or.inl now⟩
      · cases marks
        exact Or.inr rfl
    case remove t i j oldest label sweeping =>
      rcases now with ⟨old, mem, inside, -⟩ | marks
      · exact Or.inl ⟨_, Or.inl ⟨old, List.mem_of_mem_eraseIdx mem, inside, rfl⟩⟩
      · cases marks
    case list t value new =>
      rcases now with ⟨old, mem, -⟩ | marks
      · cases mem
      · exact Or.inl ⟨k, Or.inr marks⟩
    case relist => exact Or.inl ⟨k, now⟩
    case dropThreadInfo => exact Or.inl ⟨k, now⟩
    -- the list is the same, and no node is on its way
    all_goals
      rcases now with now | marks
      · exact Or.inl ⟨k, Or.inl now⟩
      · cases marks

/-- An operation is protected from the store of its epoch on, by what it may use then. -/
theorem Step.protected_after {a : EpocheAction τ ν} (step : s.Step a s')
    (guarded : τ → Set ν) {t : τ} (now : (s'.phase t).Protected) :
    (s.phase t).Protected ∧ s.guardedAfter guarded a t = guarded t ∨
      (∃ e, s.phase t = .entering e) ∧
        s.guardedAfter guarded a t = {n | ∀ u k, ¬ s.Stamped u n k} := by
  by_cases own : t = a.thread
  case neg =>
    rw [(step.others own).1] at now
    exact Or.inl ⟨now, guardedAfter_of_ne own⟩
  case pos =>
    subst own
    cases step <;>
      simp only [EpocheAction.thread, setPhase, storeLocal, resetCounter, setList, guardedAfter,
        Function.update_self] at now ⊢
    case storeEpoche entering => exact Or.inr ⟨⟨_, entering⟩, trivial⟩
    case relist => exact Or.inl ⟨now, trivial⟩
    case list => exact Or.inl ⟨now, trivial⟩
    case dropThreadInfo => exact Or.inl ⟨now, trivial⟩
    case mark inside => exact Or.inl ⟨by rw [inside]; trivial, trivial⟩
    case add marking => exact Or.inl ⟨by rw [marking]; trivial, trivial⟩
    case exitBump inside => exact Or.inl ⟨by rw [inside]; trivial, trivial⟩
    case exit inside => exact Or.inl ⟨by rw [inside]; trivial, trivial⟩
    all_goals exact now.elim

theorem Step.entering_before {a : EpocheAction τ ν} (step : s.Step a s') {t : τ} {e : ℕ}
    (now : s'.phase t = .entering e) : s.phase t = .idle ∨ s.phase t = .entering e := by
  by_cases own : t = a.thread
  case neg =>
    rw [(step.others own).1] at now
    exact Or.inr now
  case pos =>
    subst own
    cases step <;>
      simp only [EpocheAction.thread, setPhase, storeLocal, resetCounter, setList,
        Function.update_self] at now ⊢
    case loadEpoche idle _ => exact Or.inl idle
    case relist => exact Or.inr now
    case list => exact Or.inr now
    case dropThreadInfo => exact Or.inr now
    all_goals cases now

omit [DecidableEq τ] in
theorem Sound.new (startGCThreshhold : ℕ) :
    (Epoche.new startGCThreshhold : Epoche τ ν).Sound fun _ => ∅ where
  inv := ⟨nofun, nofun, nofun, nofun⟩
  settled _ := .unprotected nofun nofun not_false (absurd rfl) rfl

omit [DecidableEq τ] in
/-- No step of a sweep runs the callback of a node that an operation may use. -/
theorem Sound.callback_not_guarded {t u : τ} {n : ν} (sound : s.Sound guarded)
    (runs : s.callback t = some n) : n ∉ guarded u := by
  unfold callback at runs
  split at runs
  case h_2 => cases runs
  case h_1 k i oldest sweeping =>
    split at runs
    case h_2 => cases runs
    case h_1 label found =>
      split at runs
      case isFalse => cases runs
      case isTrue older =>
        have stamped : s.Stamped t n label.epoche :=
          Or.inl ⟨label, List.mem_of_getElem? found, List.mem_of_getElem? runs, rfl⟩
        have scan : (s.reclaim guarded).scan t = some ⟨∅, oldest⟩ := by
          rw [show (s.reclaim guarded).scan t = (s.phase t).scan from rfl, sweeping]
          rfl
        exact sound.inv.not_guarded stamped scan rfl older

end Epoche

end TurboHash
