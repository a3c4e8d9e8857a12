import TurboHash.EpocheSafety
import TurboHash.Pending

/-!
# Every callback is run once

Any number of threads run their operations, and each load and store of the protocol is a step. A
node that a thread marks waits in the list of the thread, until a sweep of the same thread has run
its callback; what is left at the end `~Epoche` runs. A sweep runs the callbacks of a label one by
one and unlinks the label behind the last one, so in between a label holds callbacks that were run.
-/

namespace TurboHash

open Transition

/-! ## One list -/

namespace DeletionList

variable {ν : Type} {labels : List (LabelDelete ν)} {oldest : WithTop ℕ} {k i : ℕ}

/-- The callbacks that a sweep at node `i` of label `k` has not run. -/
def unswept (oldest : WithTop ℕ) (k i : ℕ) (labels : List (LabelDelete ν)) : List ν :=
  (labels.take k).flatMap LabelDelete.nodes ++
    match labels.drop k with
    | [] => []
    | label :: rest =>
      (if (label.epoche : WithTop ℕ) < oldest then label.nodes.drop i else label.nodes) ++
        rest.flatMap LabelDelete.nodes

theorem unswept_zero (oldest : WithTop ℕ) (k : ℕ) (labels : List (LabelDelete ν)) :
    unswept oldest k 0 labels = labels.flatMap LabelDelete.nodes := by
  conv_rhs => rw [← List.take_append_drop k labels, List.flatMap_append]
  unfold unswept
  cases labels.drop k with
  | nil => rfl
  | cons label rest => simp [List.flatMap_cons]

/-- At a label that is old enough. -/
theorem unswept_of_older {label : LabelDelete ν} (here : labels[k]? = some label)
    (older : (label.epoche : WithTop ℕ) < oldest) :
    unswept oldest k i labels = (labels.take k).flatMap LabelDelete.nodes ++
      (label.nodes.drop i ++ (labels.drop (k + 1)).flatMap LabelDelete.nodes) := by
  obtain ⟨inside, rfl⟩ := List.getElem?_eq_some_iff.mp here
  rw [unswept, List.drop_eq_getElem_cons inside]
  simp only [if_pos older]

/-- At a label that is kept, and behind the last one. -/
theorem unswept_of_kept (kept : ∀ label, labels[k]? = some label →
    ¬ (label.epoche : WithTop ℕ) < oldest) :
    unswept oldest k i labels = labels.flatMap LabelDelete.nodes := by
  rw [← unswept_zero oldest k labels, unswept, unswept]
  cases front : labels.drop k with
  | nil => rfl
  | cons label rest =>
    have here : labels[k]? = some label := by
      rw [← Nat.add_zero k, ← List.getElem?_drop, front]
      rfl
    simp only [if_neg (kept label here)]

/-- The callback at node `i` is run. -/
theorem unswept_succ {label : LabelDelete ν} {n : ν} (here : labels[k]? = some label)
    (older : (label.epoche : WithTop ℕ) < oldest) (node : label.nodes[i]? = some n) :
    (unswept oldest k i labels : Multiset ν) =
      (unswept oldest k (i + 1) labels : List ν) + {n} := by
  obtain ⟨inside, rfl⟩ := List.getElem?_eq_some_iff.mp node
  rw [unswept_of_older here older, unswept_of_older here older, List.drop_eq_getElem_cons inside,
    List.cons_append, ← Multiset.coe_singleton, Multiset.coe_add, Multiset.coe_eq_coe]
  exact List.perm_middle.trans (List.perm_append_singleton ..).symm

/-- The label is unlinked behind its last node. -/
theorem unswept_remove {list : DeletionList ν} {label : LabelDelete ν}
    (here : list.headDeletionList[k]? = some label) (older : (label.epoche : WithTop ℕ) < oldest)
    (behind : label.nodes.length ≤ i) :
    unswept oldest k 0 (list.remove label k).headDeletionList =
      unswept oldest k i list.headDeletionList := by
  rw [unswept_zero, unswept_of_older here older, List.drop_eq_nil_of_le behind, List.nil_append,
    ← List.flatMap_append, ← List.eraseIdx_eq_take_drop_succ]
  rfl

theorem pending_congr {list list' : DeletionList ν}
    (same : list'.headDeletionList = list.headDeletionList) : list'.pending = list.pending := by
  rw [pending, same, pending]

theorem Counted.congr {list list' : DeletionList ν} (counted : list.Counted)
    (same : list'.headDeletionList = list.headDeletionList)
    (count : list'.deletitionListCount = list.deletitionListCount) : list'.Counted := by
  rw [Counted, count, pending_congr same]
  exact counted

end DeletionList

/-! ## The lists of the threads -/

/-- The nodes of a thread whose callbacks were not run. -/
def Phase.waiting {τ ν : Type} (list : DeletionList ν) : Phase τ ν → Multiset ν
  | .marking node _ => node ::ₘ list.pending
  | .sweeping k i oldestEpoche =>
    (DeletionList.unswept oldestEpoche k i list.headDeletionList : List ν)
  | _ => list.pending

namespace Epoche

variable {τ ν : Type} [DecidableEq τ] {s s' : Epoche τ ν} {a : EpocheAction τ ν} {t : τ}

def waitingIn (s : Epoche τ ν) (t : τ) : Multiset ν := (s.phase t).waiting (s.deletionLists t)

def waiting (s : Epoche τ ν) : Multiset ν := ∑ t ∈ s.created, s.waitingIn t

/-- The callback that a step runs. -/
def ranBy (s : Epoche τ ν) : EpocheAction τ ν → Multiset ν
  | .sweep t => ((s.callback t).toList : List ν)
  | _ => 0

/-- The node that a step marks. -/
def markedBy : EpocheAction τ ν → Multiset ν
  | .mark _ node => {node}
  | _ => 0

/-- A sweep takes a step. -/
theorem waitingIn_sweep (taken : s.next (.sweep t) = some s') (counted : (s.deletionLists t).Counted) :
    s'.waitingIn t + ((s.callback t).toList : List ν) = s.waitingIn t ∧
      (s'.deletionLists t).Counted := by
  simp only [next] at taken
  split at taken
  case h_2 => cases taken
  case h_1 k i oldest sweeping =>
    have before : s.waitingIn t =
        (DeletionList.unswept oldest k i (s.deletionLists t).headDeletionList : List ν) := by
      rw [waitingIn, sweeping]
      rfl
    split at taken
    case h_1 none =>
      cases taken
      have same : (((s.setPhase t .idle).resetCounter t).deletionLists t).Counted := by
        simp only [resetCounter, setList, Function.update_self]
        exact counted.congr rfl rfl
      refine ⟨?_, same⟩
      rw [before, DeletionList.unswept_of_kept fun label here => by rw [none] at here; cases here]
      simp [waitingIn, Phase.waiting, resetCounter, setList, setPhase, callback, sweeping, none,
        DeletionList.pending]
    case h_2 label here =>
      split at taken
      case isTrue older =>
        split at taken <;> cases taken
        case isTrue inside =>
          refine ⟨?_, counted⟩
          have node : label.nodes[i]? = some label.nodes[i] := List.getElem?_eq_getElem inside
          rw [before, DeletionList.unswept_succ here older node]
          simp [waitingIn, Phase.waiting, setPhase, callback, sweeping, here, older, node]
        case isFalse outside =>
          have behind := Nat.le_of_not_lt outside
          have split : (s.deletionLists t).headDeletionList =
              (s.deletionLists t).headDeletionList.take k ++
                label :: (s.deletionLists t).headDeletionList.drop (k + 1) := by
            obtain ⟨inside, rfl⟩ := List.getElem?_eq_some_iff.mp here
            rw [← List.drop_eq_getElem_cons inside, List.take_append_drop]
          have position : ((s.deletionLists t).headDeletionList.take k).length = k := by
            obtain ⟨inside, -⟩ := List.getElem?_eq_some_iff.mp here
            exact List.length_take_of_le inside.le
          have removed := counted.remove _ split
          rw [position] at removed
          refine ⟨?_, by simpa [setList, setPhase] using removed⟩
          rw [before, ← DeletionList.unswept_remove here older behind]
          simp [waitingIn, Phase.waiting, setPhase, setList, callback, sweeping, here, older,
            List.getElem?_eq_none behind]
      case isFalse kept =>
        cases taken
        refine ⟨?_, counted⟩
        rw [before, DeletionList.unswept_of_kept fun other same => by
          cases here.symm.trans same
          exact kept]
        simp [waitingIn, Phase.waiting, setPhase, callback, sweeping, here, kept, DeletionList.unswept_zero]

/-- Every other step leaves the callbacks in the list of its thread, or adds one. -/
theorem waitingIn_step (step : s.Step a s') (counted : (s.deletionLists a.thread).Counted)
    (noSweep : ∀ t, a ≠ .sweep t) (listed : a.thread ∈ s.created) :
    s'.waitingIn a.thread = s.waitingIn a.thread + markedBy a ∧
      (s'.deletionLists a.thread).Counted := by
  cases step <;>
    simp only [waitingIn, EpocheAction.thread, setPhase, storeLocal, resetCounter, setList,
      Function.update_self, markedBy, add_zero] at counted noSweep listed ⊢
  case relist => exact ⟨trivial, counted⟩
  case list new => exact absurd listed new
  case swept t _ _ _ _ | remove t _ _ _ _ _ | sweepOn t _ _ _ _ _ _ => exact absurd rfl (noSweep t)
  case add marking =>
    rw [marking]
    exact ⟨DeletionList.pending_add .., (counted.add _ _).congr rfl rfl⟩
  case endScan scanning =>
    rw [scanning]
    refine ⟨?_, counted⟩
    rw [Phase.waiting, DeletionList.unswept_zero]
    rfl
  case mark inside =>
    rw [inside, add_comm]
    exact ⟨rfl, counted⟩
  case dropThreadInfo here _ | loadEpoche here _ | storeEpoche here | leave here | exitBump here |
      exit here | nothingToFree here | storeMax here | belowThreshold here | beginScan here |
      loadLocalEpoche here _ =>
    rw [here]
    exact ⟨rfl, counted.congr rfl rfl⟩

/-! ## All lists -/

/-- The threads that are in an operation have a list, and the lists are counted. -/
structure Tidy (s : Epoche τ ν) : Prop where
  listed : ∀ t, s.phase t ≠ .idle → t ∈ s.created
  counted : ∀ t ∈ s.created, (s.deletionLists t).Counted

theorem Step.created_eq (step : s.Step a s') (listed : a.thread ∈ s.created) :
    s'.created = s.created := by
  cases step
  case list new => exact absurd listed new
  all_goals rfl

/-- A thread without a list can only create it. -/
theorem Step.lists_of_new (step : s.Step a s') (tidy : s.Tidy) (new : a.thread ∉ s.created) :
    ∃ t value, a = .threadInfo t value ∧
      s' = { s.setList t (.new value) with created := insert t s.created } := by
  have idle : s.phase a.thread = .idle := by
    by_contra busy
    exact new (tidy.listed _ busy)
  cases step
  case list t value _ => exact ⟨t, value, rfl, rfl⟩
  case relist listed | dropThreadInfo listed | loadEpoche listed => exact absurd listed new
  case loadLocalEpoche scanning _ => cases idle.symm.trans scanning
  all_goals
    rename_i here
    cases idle.symm.trans here

/-- A step of a thread that has a list. -/
theorem waiting_of_listed (taken : s.next a = some s') (tidy : s.Tidy)
    (listed : a.thread ∈ s.created) :
    s'.waiting + s.ranBy a = s.waiting + markedBy a ∧ s'.Tidy := by
  have step := step_of_next taken
  have created := step.created_eq listed
  have counted := tidy.counted _ listed
  have own : s'.waitingIn a.thread + s.ranBy a = s.waitingIn a.thread + markedBy a ∧
      (s'.deletionLists a.thread).Counted := by
    cases a with
    | sweep t =>
      obtain ⟨same, counted'⟩ := waitingIn_sweep taken counted
      exact ⟨same.trans (add_zero _).symm, counted'⟩
    | _ =>
      obtain ⟨same, counted'⟩ := waitingIn_step step counted nofun listed
      exact ⟨(add_zero _).trans same, counted'⟩
  obtain ⟨own, counted'⟩ := own
  constructor
  · have exchanged := Heap.sum_exchange listed (f := s.waitingIn) (g := s'.waitingIn)
      fun u _ other => by
        obtain ⟨phase, list, -⟩ := step.others other
        rw [waitingIn, waitingIn, phase, list]
    refine add_right_cancel (b := s.waitingIn a.thread) ?_
    calc s'.waiting + s.ranBy a + s.waitingIn a.thread
        = ∑ u ∈ s.created, s'.waitingIn u + s.waitingIn a.thread + s.ranBy a := by
          rw [waiting, created]
          ac_rfl
      _ = s.waiting + (s'.waitingIn a.thread + s.ranBy a) := by rw [exchanged, waiting, add_assoc]
      _ = s.waiting + markedBy a + s.waitingIn a.thread := by
          rw [own]
          ac_rfl
  · refine ⟨fun u busy => ?_, fun u here => ?_⟩
    · rw [created]
      by_cases own : u = a.thread
      · exact own ▸ listed
      · rw [(step.others own).1] at busy
        exact tidy.listed u busy
    · rw [created] at here
      by_cases own : u = a.thread
      · exact own ▸ counted'
      · rw [(step.others own).2.1]
        exact tidy.counted u here

/-- What a step marks comes to wait, and what it runs has waited. -/
theorem waiting_next (taken : s.next a = some s') (tidy : s.Tidy) :
    s'.waiting + s.ranBy a = s.waiting + markedBy a ∧ s'.Tidy := by
  by_cases listed : a.thread ∈ s.created
  · exact waiting_of_listed taken tidy listed
  · obtain ⟨t, value, rfl, rfl⟩ := (step_of_next taken).lists_of_new tidy listed
    have listed : t ∉ s.created := listed
    have others : ∀ u ∈ s.created, u ≠ t := by
      rintro u here rfl
      exact listed here
    have idle : s.phase t = .idle := by
      by_contra busy
      exact listed (tidy.listed t busy)
    refine ⟨?_, fun u busy => Finset.mem_insert_of_mem (tidy.listed u busy), fun u here => ?_⟩
    · have same : ∀ u ∈ s.created,
          Epoche.waitingIn { s.setList t (.new value) with created := insert t s.created } u =
            s.waitingIn u := by
        intro u here
        simp [waitingIn, setList, others u here]
      have here : Epoche.waitingIn
          { s.setList t (.new value) with created := insert t s.created } t = 0 := by
        simp [waitingIn, setList, idle, Phase.waiting, DeletionList.pending, DeletionList.new]
      have sum := Finset.sum_insert (f := Epoche.waitingIn
        { s.setList t (.new value) with created := insert t s.created }) listed
      rw [here, Finset.sum_congr rfl same, zero_add] at sum
      exact congrArg (· + 0) sum
    · change DeletionList.Counted ((s.setList t (.new value)).deletionLists u)
      rw [deletionLists_setList]
      rcases Finset.mem_insert.mp here with rfl | old
      · rw [if_pos rfl]
        rfl
      · rw [if_neg (others u old)]
        exact tidy.counted u old

/-! ## Runs -/

/-- The nodes that the steps have marked. -/
def marked (steps : List (Epoche τ ν × EpocheAction τ ν)) : Multiset ν :=
  (steps.map fun p => markedBy p.2).sum

/-- The callbacks that the steps have run. -/
def ran (steps : List (Epoche τ ν × EpocheAction τ ν)) : Multiset ν :=
  (steps.map fun p => p.1.ranBy p.2).sum

variable {steps : List (Epoche τ ν × EpocheAction τ ν)} {startGCThreshhold : ℕ}

/-- What was marked was run or waits. -/
theorem waiting_run (run : Run next (.new startGCThreshhold) steps s) :
    s.waiting + ran steps = marked steps ∧ s.Tidy := by
  refine run.history (G := fun _ _ => True)
    (I := fun steps s => s.waiting + ran steps = marked steps ∧ s.Tidy) ?_ (fun _ _ => trivial) ?_
  · rintro steps s a s' ⟨same, tidy⟩ - taken
    obtain ⟨own, tidy'⟩ := waiting_next taken tidy
    refine ⟨?_, tidy'⟩
    calc s'.waiting + ran (steps ++ [(s, a)])
        = s'.waiting + s.ranBy a + ran steps := by
          simp only [ran, List.map_append, List.sum_append, List.map_cons, List.map_nil,
            List.sum_cons, List.sum_nil, add_zero]
          ac_rfl
      _ = marked steps + markedBy a := by
          rw [own, ← same]
          ac_rfl
      _ = marked (steps ++ [(s, a)]) := by simp [marked]
  · exact ⟨rfl, fun t busy => absurd rfl busy, nofun⟩

/-- No callback is run more often than its node was marked, and once every thread has gone and the
epochs are destroyed each was run as often. -/
structure RunsOnce (steps : List (Epoche ℕ ν × EpocheAction ℕ ν)) (s : Epoche ℕ ν) : Prop where
  le : ran steps ≤ marked steps
  destroyed : (∀ t ∈ s.created, s.phase t = .idle ∧ (s.deletionLists t).localEpoche = ⊤) →
    ∃ rest, s.destroy = some rest ∧ ran steps + rest = marked steps

/-- When every thread has gone, `~Epoche` runs what waits. -/
theorem Tidy.destroy {s : Epoche ℕ ν} (tidy : s.Tidy)
    (gone : ∀ t ∈ s.created, s.phase t = .idle ∧ (s.deletionLists t).localEpoche = ⊤) :
    ∃ rest, s.destroy = some rest ∧ (rest : Multiset ν) = s.waiting := by
  have quiet : s.Quiet ∅ :=
    ⟨nofun, tidy.counted, fun t here _ => (gone t here).2⟩
  have pending : s.waiting = s.pending :=
    Finset.sum_congr rfl fun t here => by
      rw [waitingIn, (gone t here).1]
      rfl
  obtain ⟨rest, destroyed, all⟩ := quiet.destroy
  exact ⟨rest, destroyed, all.trans pending.symm⟩

/-- In every interleaving of any number of threads. -/
theorem callbacks_run_once {s : Epoche ℕ ν} {steps : List (Epoche ℕ ν × EpocheAction ℕ ν)}
    (run : Run next (.new startGCThreshhold) steps s) : RunsOnce steps s := by
  obtain ⟨same, tidy⟩ := waiting_run run
  refine ⟨same ▸ Multiset.le_add_left _ _, fun gone => ?_⟩
  obtain ⟨rest, destroyed, all⟩ := tidy.destroy gone
  exact ⟨rest, destroyed, by rw [all, add_comm, same]⟩

/-- Thread 0 has marked two nodes, thread 1 one, and the sweep of thread 0 is between its two. -/
theorem callbacks_run_once_sweeping : ∃ s steps, Run next (.new 1 : Epoche ℕ ℕ) steps s ∧
    s.callback 0 = some 6 ∧ RunsOnce steps s := by
  have swept : (execute next (.new 1 : Epoche ℕ ℕ) [.threadInfo 0 ⊤, .threadInfo 1 ⊤,
      .loadEpoche 0, .storeEpoche 0, .mark 0 5, .add 0, .mark 0 6, .add 0, .loadEpoche 1,
      .storeEpoche 1, .mark 1 7, .add 1, .exit 1, .checkThreshold 1, .dropThreadInfo 1, .exit 0,
      .checkThreshold 0, .beginScan 0, .loadLocalEpoche 0 0, .loadLocalEpoche 0 1, .endScan 0,
      .sweep 0]).map (fun s => s.callback 0) = some (some 6) := by
    decide +kernel
  obtain ⟨s, executed, callback⟩ := Option.map_eq_some_iff.mp swept
  obtain ⟨steps, run, -⟩ := exists_run_of_execute executed
  exact ⟨s, steps, run, callback, callbacks_run_once run⟩

end Epoche

end TurboHash
