import Mathlib.Data.Finset.Basic
import TurboHash.Lib.Reclaim

/-!
# Epochs

`turbo_epoche.h`: every thread owns a deletion list, an operation publishes the
epoch it has loaded, a removed node is put under a label with the current epoch,
and the end of an operation may run the callbacks of its labels that are older than
every published epoch. Each load, store and increment of a shared word is a step of
its own; what a thread does to its own list is done with the next of them.

`currentEpoche`, the epoch of a label and `thresholdCounter` are 64-bit words in the source,
and no step counts one up by more than one. They are numbers here, which is the same up to
`2 ^ 64` increments, and the maximum that a cleanup stores is `⊤`.
-/

namespace TurboHash

/-- The callbacks under one label, in the order in which they were added. -/
structure LabelDelete (ν : Type) where
  nodes : List ν
  epoche : ℕ
  nodesCount_le : nodes.length ≤ 32

/-- A thread's list, its head first. The free labels are left out: a label taken
from them is emptied before it is used. -/
structure DeletionList (ν : Type) where
  headDeletionList : List (LabelDelete ν)
  deletitionListCount : ℕ
  localEpoche : WithTop ℕ
  thresholdCounter : ℕ
  deleted : ℕ
  added : ℕ

namespace DeletionList

variable {ν : Type}

/-- A new list. The word `localEpoche` holds what its memory held. -/
def new (localEpoche : WithTop ℕ) : DeletionList ν := ⟨[], 0, localEpoche, 0, 0, 0⟩

def size (list : DeletionList ν) : ℕ := list.deletitionListCount

/-- The labels after `add`: the head label takes the callback while it has room,
and its epoch is overwritten. -/
def addLabel (callback : ν) (globalEpoch : ℕ) : List (LabelDelete ν) → List (LabelDelete ν)
  | [] => [⟨[callback], globalEpoch, by simp⟩]
  | label :: rest =>
    if room : label.nodes.length < 32 then
      ⟨label.nodes ++ [callback], globalEpoch, by rwa [List.length_append]⟩ :: rest
    else
      ⟨[callback], globalEpoch, by simp⟩ :: label :: rest

def add (list : DeletionList ν) (callback : ν) (globalEpoch : ℕ) : DeletionList ν :=
  { list with
    deletitionListCount := list.deletitionListCount + 1
    headDeletionList := addLabel callback globalEpoch list.headDeletionList
    added := list.added + 1 }

/-- Unlink the label at position `k`. -/
def remove (list : DeletionList ν) (label : LabelDelete ν) (k : ℕ) : DeletionList ν :=
  { list with
    headDeletionList := list.headDeletionList.eraseIdx k
    deletitionListCount := list.deletitionListCount - label.nodes.length
    deleted := list.deleted + label.nodes.length }

theorem mem_addLabel {callback : ν} {globalEpoch : ℕ} {labels : List (LabelDelete ν)}
    {label : LabelDelete ν} (mem : label ∈ addLabel callback globalEpoch labels) :
    label ∈ labels ∨ label.epoche = globalEpoch ∧
      ∀ n ∈ label.nodes, n = callback ∨ ∃ old ∈ labels, n ∈ old.nodes := by
  unfold addLabel at mem
  split at mem
  · rcases List.mem_singleton.mp mem with rfl
    exact Or.inr ⟨rfl, fun n here => Or.inl (List.mem_singleton.mp here)⟩
  case h_2 first rest =>
    split at mem
    · rcases List.mem_cons.mp mem with rfl | mem
      · refine Or.inr ⟨rfl, fun n here => ?_⟩
        rcases List.mem_append.mp here with old | new
        · exact Or.inr ⟨first, by simp, old⟩
        · exact Or.inl (List.mem_singleton.mp new)
      · exact Or.inl (List.mem_cons_of_mem _ mem)
    · rcases List.mem_cons.mp mem with rfl | mem
      · exact Or.inr ⟨rfl, fun n here => Or.inl (List.mem_singleton.mp here)⟩
      · exact Or.inl mem

end DeletionList

/-- Where a thread stands. -/
inductive Phase (τ ν : Type)
  | idle
  /-- `enterEpoche` has loaded the current epoch and not yet stored it -/
  | entering (curEpoche : ℕ)
  | inside
  /-- `markNodeForDeletion` has loaded the current epoch for its node -/
  | marking (node : ν) (globalEpoch : ℕ)
  /-- `exitEpocheAndCleanup` is behind its increment -/
  | exiting
  /-- it has stored the maximum -/
  | cleaning
  /-- it has the lists of `todo` still to look at -/
  | scanning (todo : Finset τ) (oldestEpoche : WithTop ℕ)
  /-- it is at node `i` of label `k` -/
  | sweeping (k i : ℕ) (oldestEpoche : WithTop ℕ)

namespace Phase

variable {τ ν : Type}

/-- The operation has published its epoch and not withdrawn it. -/
def Protected : Phase τ ν → Prop
  | inside | marking _ _ | exiting => True
  | _ => False

/-- The operation has stored the maximum. -/
def Cleaning : Phase τ ν → Prop
  | cleaning | scanning _ _ | sweeping _ _ _ => True
  | _ => False

instance (phase : Phase τ ν) : Decidable phase.Protected := by
  unfold Protected
  split <;> infer_instance

instance (phase : Phase τ ν) : Decidable phase.Cleaning := by
  unfold Cleaning
  split <;> infer_instance

/-- The node on its way into the list, with its epoch. -/
def mark : Phase τ ν → Option (ν × ℕ)
  | marking n e => some (n, e)
  | _ => none

def scan : Phase τ ν → Option (Reclaim.Scan τ)
  | scanning todo oldestEpoche => some ⟨todo, oldestEpoche⟩
  | sweeping _ _ oldestEpoche => some ⟨∅, oldestEpoche⟩
  | _ => none

end Phase

/-- The shared epoch, the lists that exist and where the threads stand, for runs of fewer
than `2 ^ 64` increments. -/
structure Epoche (τ ν : Type) where
  currentEpoche : ℕ
  startGCThreshhold : ℕ
  created : Finset τ
  deletionLists : τ → DeletionList ν
  phase : τ → Phase τ ν

/-- The steps of the threads. -/
inductive EpocheAction (τ ν : Type)
  /-- `ThreadInfo (epoche)`: the list is created with the thread's first one -/
  | threadInfo (t : τ) (localEpoche : WithTop ℕ)
  /-- `~ThreadInfo` -/
  | dropThreadInfo (t : τ)
  | loadEpoche (t : τ)
  | storeEpoche (t : τ)
  | mark (t : τ) (node : ν)
  | add (t : τ)
  /-- the end of a read-only guard -/
  | leave (t : τ)
  | exit (t : τ)
  | checkThreshold (t : τ)
  | beginScan (t : τ)
  | loadLocalEpoche (t u : τ)
  | endScan (t : τ)
  | sweep (t : τ)

/-- The thread that takes the step. -/
def EpocheAction.thread {τ ν : Type} : EpocheAction τ ν → τ
  | threadInfo t _ | dropThreadInfo t | loadEpoche t | storeEpoche t | mark t _ | add t
  | leave t | exit t | checkThreshold t | beginScan t | loadLocalEpoche t _ | endScan t
  | sweep t => t

namespace Epoche

variable {τ ν : Type} [DecidableEq τ]

def new (startGCThreshhold : ℕ) : Epoche τ ν :=
  ⟨0, startGCThreshhold, ∅, fun _ => .new ⊤, fun _ => .idle⟩

def setPhase (s : Epoche τ ν) (t : τ) (phase : Phase τ ν) : Epoche τ ν :=
  { s with phase := Function.update s.phase t phase }

def setList (s : Epoche τ ν) (t : τ) (list : DeletionList ν) : Epoche τ ν :=
  { s with deletionLists := Function.update s.deletionLists t list }

/-- Store to `localEpoche` of the thread's list. -/
def storeLocal (s : Epoche τ ν) (t : τ) (value : WithTop ℕ) : Epoche τ ν :=
  s.setList t { s.deletionLists t with localEpoche := value }

def resetCounter (s : Epoche τ ν) (t : τ) : Epoche τ ν :=
  s.setList t { s.deletionLists t with thresholdCounter := 0 }

/-- The callback that the next step of a sweep runs. -/
def callback (s : Epoche τ ν) (t : τ) : Option ν :=
  match s.phase t with
  | .sweeping k i oldestEpoche =>
    match (s.deletionLists t).headDeletionList[k]? with
    | some label => if (label.epoche : WithTop ℕ) < oldestEpoche then label.nodes[i]? else none
    | none => none
  | _ => none

/-- One step of a thread, where it can be taken. -/
def next (s : Epoche τ ν) : EpocheAction τ ν → Option (Epoche τ ν)
  | .threadInfo t localEpoche =>
    if t ∈ s.created then some s
    else some { s.setList t (.new localEpoche) with created := insert t s.created }
  | .dropThreadInfo t =>
    match s.phase t with
    | .idle => if t ∈ s.created then some (s.storeLocal t ⊤) else none
    | _ => none
  | .loadEpoche t =>
    match s.phase t with
    | .idle => if t ∈ s.created then some (s.setPhase t (.entering s.currentEpoche)) else none
    | _ => none
  | .storeEpoche t =>
    match s.phase t with
    | .entering curEpoche => some ((s.setPhase t .inside).storeLocal t curEpoche)
    | _ => none
  | .mark t node =>
    match s.phase t with
    | .inside => some (s.setPhase t (.marking node s.currentEpoche))
    | _ => none
  | .add t =>
    match s.phase t with
    | .marking node globalEpoch =>
      let list := (s.deletionLists t).add node globalEpoch
      some ((s.setPhase t .inside).setList t
        { list with thresholdCounter := list.thresholdCounter + 1 })
    | _ => none
  | .leave t =>
    match s.phase t with
    | .inside => some (s.setPhase t .idle)
    | _ => none
  | .exit t =>
    match s.phase t with
    | .inside =>
      if (s.deletionLists t).thresholdCounter % 64 = 1 then
        some { s.setPhase t .exiting with currentEpoche := s.currentEpoche + 1 }
      else some (s.setPhase t .exiting)
    | _ => none
  | .checkThreshold t =>
    match s.phase t with
    | .exiting =>
      if s.startGCThreshhold < (s.deletionLists t).thresholdCounter then
        if (s.deletionLists t).size = 0 then some ((s.setPhase t .idle).resetCounter t)
        else some ((s.setPhase t .cleaning).storeLocal t ⊤)
      else some (s.setPhase t .idle)
    | _ => none
  | .beginScan t =>
    match s.phase t with
    | .cleaning => some (s.setPhase t (.scanning s.created ⊤))
    | _ => none
  | .loadLocalEpoche t u =>
    match s.phase t with
    | .scanning todo oldestEpoche =>
      if u ∈ s.created then
        some (s.setPhase t
          (.scanning (todo.erase u) (min oldestEpoche (s.deletionLists u).localEpoche)))
      else none
    | _ => none
  | .endScan t =>
    match s.phase t with
    | .scanning todo oldestEpoche =>
      if todo = ∅ then some (s.setPhase t (.sweeping 0 0 oldestEpoche)) else none
    | _ => none
  | .sweep t =>
    match s.phase t with
    | .sweeping k i oldestEpoche =>
      match (s.deletionLists t).headDeletionList[k]? with
      | none => some ((s.setPhase t .idle).resetCounter t)
      | some label =>
        if (label.epoche : WithTop ℕ) < oldestEpoche then
          if i < label.nodes.length then some (s.setPhase t (.sweeping k (i + 1) oldestEpoche))
          else
            some ((s.setPhase t (.sweeping k 0 oldestEpoche)).setList t
              ((s.deletionLists t).remove label k))
        else some (s.setPhase t (.sweeping (k + 1) 0 oldestEpoche))
    | _ => none

/-- The steps, one constructor for each branch of `next`. -/
inductive Step (s : Epoche τ ν) : EpocheAction τ ν → Epoche τ ν → Prop
  | relist (t : τ) (value : WithTop ℕ) (listed : t ∈ s.created) : Step s (.threadInfo t value) s
  | list (t : τ) (value : WithTop ℕ) (new : t ∉ s.created) :
    Step s (.threadInfo t value) { s.setList t (.new value) with created := insert t s.created }
  | dropThreadInfo (t : τ) (idle : s.phase t = .idle) (listed : t ∈ s.created) :
    Step s (.dropThreadInfo t) (s.storeLocal t ⊤)
  | loadEpoche (t : τ) (idle : s.phase t = .idle) (listed : t ∈ s.created) :
    Step s (.loadEpoche t) (s.setPhase t (.entering s.currentEpoche))
  | storeEpoche (t : τ) (e : ℕ) (entering : s.phase t = .entering e) :
    Step s (.storeEpoche t) ((s.setPhase t .inside).storeLocal t e)
  | mark (t : τ) (n : ν) (inside : s.phase t = .inside) :
    Step s (.mark t n) (s.setPhase t (.marking n s.currentEpoche))
  | add (t : τ) (n : ν) (e : ℕ) (marking : s.phase t = .marking n e) :
    Step s (.add t) ((s.setPhase t .inside).setList t { (s.deletionLists t).add n e with
      thresholdCounter := (s.deletionLists t).thresholdCounter + 1 })
  | leave (t : τ) (inside : s.phase t = .inside) : Step s (.leave t) (s.setPhase t .idle)
  | exitBump (t : τ) (inside : s.phase t = .inside) :
    Step s (.exit t) { s.setPhase t .exiting with currentEpoche := s.currentEpoche + 1 }
  | exit (t : τ) (inside : s.phase t = .inside) : Step s (.exit t) (s.setPhase t .exiting)
  | nothingToFree (t : τ) (exiting : s.phase t = .exiting) :
    Step s (.checkThreshold t) ((s.setPhase t .idle).resetCounter t)
  | storeMax (t : τ) (exiting : s.phase t = .exiting) :
    Step s (.checkThreshold t) ((s.setPhase t .cleaning).storeLocal t ⊤)
  | belowThreshold (t : τ) (exiting : s.phase t = .exiting) :
    Step s (.checkThreshold t) (s.setPhase t .idle)
  | beginScan (t : τ) (cleaning : s.phase t = .cleaning) :
    Step s (.beginScan t) (s.setPhase t (.scanning s.created ⊤))
  | loadLocalEpoche (t u : τ) (todo : Finset τ) (oldest : WithTop ℕ)
    (scanning : s.phase t = .scanning todo oldest) (listed : u ∈ s.created) :
    Step s (.loadLocalEpoche t u)
      (s.setPhase t (.scanning (todo.erase u) (min oldest (s.deletionLists u).localEpoche)))
  | endScan (t : τ) (oldest : WithTop ℕ) (scanning : s.phase t = .scanning ∅ oldest) :
    Step s (.endScan t) (s.setPhase t (.sweeping 0 0 oldest))
  | swept (t : τ) (k i : ℕ) (oldest : WithTop ℕ) (sweeping : s.phase t = .sweeping k i oldest) :
    Step s (.sweep t) ((s.setPhase t .idle).resetCounter t)
  | remove (t : τ) (k i : ℕ) (oldest : WithTop ℕ) (label : LabelDelete ν)
    (sweeping : s.phase t = .sweeping k i oldest) :
    Step s (.sweep t) ((s.setPhase t (.sweeping k 0 oldest)).setList t
      ((s.deletionLists t).remove label k))
  | sweepOn (t : τ) (k i k' i' : ℕ) (oldest : WithTop ℕ)
    (sweeping : s.phase t = .sweeping k i oldest) :
    Step s (.sweep t) (s.setPhase t (.sweeping k' i' oldest))

theorem step_of_next {s s' : Epoche τ ν} {a : EpocheAction τ ν} (taken : s.next a = some s') :
    s.Step a s' := by
  cases a with
  | threadInfo t value =>
    simp only [next] at taken
    split at taken <;> cases taken
    · apply Step.relist
      assumption
    · apply Step.list
      assumption
  | dropThreadInfo t =>
    simp only [next] at taken
    split at taken <;> try cases taken
    split at taken <;> cases taken
    apply Step.dropThreadInfo <;> assumption
  | loadEpoche t =>
    simp only [next] at taken
    split at taken <;> try cases taken
    split at taken <;> cases taken
    apply Step.loadEpoche <;> assumption
  | storeEpoche t =>
    simp only [next] at taken
    split at taken <;> cases taken
    apply Step.storeEpoche
    assumption
  | mark t n =>
    simp only [next] at taken
    split at taken <;> cases taken
    apply Step.mark
    assumption
  | add t =>
    simp only [next] at taken
    split at taken <;> cases taken
    apply Step.add
    assumption
  | leave t =>
    simp only [next] at taken
    split at taken <;> cases taken
    apply Step.leave
    assumption
  | exit t =>
    simp only [next] at taken
    split at taken <;> try cases taken
    split at taken <;> cases taken
    · apply Step.exitBump
      assumption
    · apply Step.exit
      assumption
  | checkThreshold t =>
    simp only [next] at taken
    split at taken <;> try cases taken
    split at taken
    · split at taken <;> cases taken
      · apply Step.nothingToFree
        assumption
      · apply Step.storeMax
        assumption
    · cases taken
      apply Step.belowThreshold
      assumption
  | beginScan t =>
    simp only [next] at taken
    split at taken <;> cases taken
    apply Step.beginScan
    assumption
  | loadLocalEpoche t u =>
    simp only [next] at taken
    split at taken <;> try cases taken
    split at taken <;> cases taken
    apply Step.loadLocalEpoche <;> assumption
  | endScan t =>
    simp only [next] at taken
    split at taken <;> try cases taken
    case h_1 todo oldest scanning =>
      split at taken <;> cases taken
      case isTrue finished =>
        subst finished
        exact Step.endScan t oldest scanning
  | sweep t =>
    simp only [next] at taken
    split at taken <;> try cases taken
    case h_1 k i oldest sweeping =>
      split at taken
      · cases taken
        exact Step.swept t k i oldest sweeping
      case h_2 label _ =>
        split at taken
        · split at taken <;> cases taken
          · exact Step.sweepOn t k i k (i + 1) oldest sweeping
          · exact Step.remove t k i oldest label sweeping
        · cases taken
          exact Step.sweepOn t k i (k + 1) 0 oldest sweeping

/-! ## The pattern that it follows -/

/-- Node `n` is in the list of thread `u`, or on its way into it. -/
def Stamped (s : Epoche τ ν) (u : τ) (n : ν) (k : ℕ) : Prop :=
  (∃ label ∈ (s.deletionLists u).headDeletionList, n ∈ label.nodes ∧ label.epoche = k) ∨
    (s.phase u).mark = some (n, k)

/-- The protocol as epoch-based reclamation, for what the operations may use. -/
def reclaim (s : Epoche τ ν) (guarded : τ → Set ν) : Reclaim.State τ ν where
  clock := s.currentEpoche
  registered := s.created
  published t := (s.deletionLists t).localEpoche
  guarded := guarded
  stamped := s.Stamped
  scan u := (s.phase u).scan

/-- What the operations may use after a step: a published epoch covers the nodes
that are in no list, and a withdrawn one nothing. -/
def guardedAfter (s : Epoche τ ν) (guarded : τ → Set ν) : EpocheAction τ ν → τ → Set ν
  | .storeEpoche t => Function.update guarded t {n | ∀ u k, ¬ s.Stamped u n k}
  | .leave t | .checkThreshold t => Function.update guarded t ∅
  | _ => guarded

/-- What a step needs to know of its thread. -/
structure Settled (currentEpoche : ℕ) (listed : Prop) (list : DeletionList ν) (phase : Phase τ ν)
    (guarded : Set ν) : Prop where
  label_le : ∀ label ∈ list.headDeletionList, label.epoche ≤ currentEpoche
  entering_le : ∀ e, phase = .entering e → e ≤ currentEpoche
  marking_le : ∀ n e, phase = .marking n e → e ≤ currentEpoche ∧
    ∀ label ∈ list.headDeletionList, label.epoche ≤ e
  protected_le : phase.Protected → list.localEpoche ≤ currentEpoche
  created : phase ≠ .idle → listed
  unguarded : ¬ phase.Protected → guarded = ∅

/-- The invariant of the pattern and what it needs of the threads. -/
structure Sound (s : Epoche τ ν) (guarded : τ → Set ν) : Prop where
  inv : Reclaim.Inv (s.reclaim guarded)
  settled : ∀ t, Settled s.currentEpoche (t ∈ s.created) (s.deletionLists t) (s.phase t) (guarded t)

end Epoche

end TurboHash
