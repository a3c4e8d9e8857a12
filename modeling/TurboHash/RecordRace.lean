import TurboHash.EpocheSafety
import TurboHash.TableRace

/-!
# Records that are read while they are retired

The threads of `TableRace` run their operations under epoch guards. `EpocheGuard`, that of `Put`
and `Delete`, ends with `exitEpocheAndCleanup`, `EpocheGuardReadonly`, that of `Find`, without it.
`markNodeForDeletion` is called before the store of the version word that takes the record out of
its slot, and stamps it with the epoch of that moment: a `Find` can enter in a later epoch and
still read the pointer.

`obtained` are the records whose pointers the `Find` of a thread has read out of slots.
-/

namespace TurboHash

open Simulation Transition

variable {F : CellFormat} {τ K V H E : Type}

/-- The record pointer that a `Find` reads with its next load: that of the slot whose key is
compared, if the key is in the record, and that of the slot whose entry is copied. -/
def FindCall.pointer (L : SlotLayout K (Nat × V) H E) (isKeyFlat : Bool)
    (arrays : Nat → Bucket F H E) : FindCall F H E → Option Nat
  | comparing p _ i _ => if isKeyFlat then none else recordAddress L ((p.cell arrays).slots i)
  | copying p _ i _ => recordAddress L ((p.cell arrays).slots i)
  | _ => none

/-- The table, the epochs, and what the `Find`s have read. -/
structure RecordRace (F : CellFormat) (τ K V H E : Type) where
  table : TableRace F τ K V H E
  epoche : Epoche τ Node
  obtained : τ → List Nat

inductive RecordAction (F : CellFormat) (τ K V H E : Type)
  /-- an operation is called; its guard loads the epoch -/
  | begin (t : τ) (op : MapOp K V)
  | load (t : τ)
  /-- with what lies in the memory that a `MinorRehash` gets -/
  | lock (t : τ) (memory : Nat → Cell F H E)
  | store (t : τ)
  /-- the load of the epoch in `markNodeForDeletion` -/
  | mark (t : τ)
  /-- its addition to the list -/
  | add (t : τ)
  | unlock (t : τ)
  /-- the operation ends: `Find` returns, the guards of the others start their cleanup -/
  | finish (t : τ)
  /-- a step of a guard or of a `ThreadInfo` -/
  | protocol (a : EpocheAction τ Node)

namespace RecordRace

/-- A table before the threads start. -/
def start (buckets : Nat → Bucket F H E) (puts startGCThreshhold : Nat) : RecordRace F τ K V H E :=
  ⟨.start buckets puts, .new startGCThreshhold, fun _ => []⟩

section Step

variable [DecidableEq τ] [DecidableEq H] (L : SlotLayout K (Nat × V) H E)
  (kCellCountLimit bucketCountShift : Nat) (isKeyFlat : Bool)

/-- The pointer that thread `t` reads with its next load, if that is the load of a `Find`. -/
def pointer (s : RecordRace F τ K V H E) (t : τ) : Option Nat :=
  match s.table.calls t with
  | .find key call =>
    call.pointer L isKeyFlat (s.table.buckets (TableRace.bucketOf L bucketCountShift key)).arrays
  | _ => none

/-- The thread has stored its epoch and is not in `markNodeForDeletion`. -/
def inside (s : RecordRace F τ K V H E) (t : τ) : Bool :=
  match s.epoche.phase t with
  | .inside => true
  | _ => false

/-- The steps of the protocol that the operations do not take themselves. -/
def Guards : EpocheAction τ Node → Bool
  | .loadEpoche _ | .mark _ _ | .add _ | .leave _ | .exit _ => false
  | .threadInfo _ _ | .dropThreadInfo _ | .storeEpoche _ | .checkThreshold _ | .beginScan _
  | .loadLocalEpoche _ _ | .endScan _ | .sweep _ => true

def next (s : RecordRace F τ K V H E) :
    RecordAction F τ K V H E → Option (RecordRace F τ K V H E)
  | .begin t op =>
    match s.table.calls t with
    | .idle => (s.epoche.next (.loadEpoche t)).map fun epoche =>
        { s with epoche, table := s.table.setCall t (.start op) }
    | _ => none
  | .load t =>
    if s.inside t then
      (s.table.load L bucketCountShift t).map fun table =>
        { s with
          table
          obtained := Function.update s.obtained t
            ((s.pointer L bucketCountShift isKeyFlat t).toList ++ s.obtained t) }
    else none
  | .lock t memory =>
    if s.inside t then
      (s.table.lock L kCellCountLimit bucketCountShift t memory).map fun table => { s with table }
    else none
  | .store t =>
    if s.inside t then
      (s.table.store L bucketCountShift t).map fun table => { s with table }
    else none
  | .mark t =>
    (s.table.mark L bucketCountShift t).bind fun (node, table) =>
      (s.epoche.next (.mark t node)).map fun epoche => { s with epoche, table }
  | .add t => (s.epoche.next (.add t)).map fun epoche => { s with epoche }
  | .unlock t =>
    if s.inside t then
      (s.table.unlock L bucketCountShift t).map fun table => { s with table }
    else none
  | .finish t =>
    let ended (a : EpocheAction τ Node) := (s.epoche.next a).map fun epoche =>
      { epoche
        table := s.table.setCall t .idle
        obtained := Function.update s.obtained t [] }
    match s.table.calls t with
    | .find _ (.returned _) => ended (.leave t)
    | .done => ended (.exit t)
    | _ => none
  | .protocol a => if Guards a then (s.epoche.next a).map fun epoche => { s with epoche } else none

/-! ## What the steps have to meet -/

/-- No list that holds the record has it under an epoch before that of the thread. -/
def NotOlder (s : RecordRace F τ K V H E) (t : τ) (n : Nat) : Prop :=
  ∀ u ∈ s.epoche.created,
    (∀ label ∈ (s.epoche.deletionLists u).headDeletionList, .record n ∈ label.nodes →
      (s.epoche.deletionLists t).localEpoche ≤ label.epoche) ∧
    ∀ mark ∈ (s.epoche.phase u).mark.toList, mark.1 = .record n →
      (s.epoche.deletionLists t).localEpoche ≤ mark.2

instance (s : RecordRace F τ K V H E) (t : τ) (n : Nat) : Decidable (s.NotOlder t n) :=
  inferInstanceAs (Decidable (∀ u ∈ s.epoche.created, _ ∧ _))

/-- A `Find` walks the path of its array, and reads no record that was retired in an epoch before
its own. -/
def ReadsInTime (s : RecordRace F τ K V H E) : RecordAction F τ K V H E → Prop
  | .load t =>
    match s.table.calls t with
    | .find key call =>
      let b := s.table.buckets (TableRace.bucketOf L bucketCountShift key)
      FindRace.SamePath L key { b with call } .read ∧
        ∀ n ∈ (s.pointer L bucketCountShift isKeyFlat t).toList, s.NotOlder t n
    | _ => True
  | _ => True

/-- A `Delete` that passes its tests under the lock has a slot that is still valid. -/
def DeletesValid (s : RecordRace F τ K V H E) : RecordAction F τ K V H E → Prop
  | .lock t _ =>
    match s.table.calls t with
    | .delete key (.comparing p m i _) =>
      TableRace.ValidSlot L (s.table.buckets (TableRace.bucketOf L bucketCountShift key)) key p m i
    | _ => True
  | _ => True

instance (s : RecordRace F τ K V H E) :
    ∀ a, Decidable (s.ReadsInTime L bucketCountShift isKeyFlat a)
  | .load t => by
    unfold ReadsInTime
    dsimp only
    split <;> infer_instance
  | .lock _ _ | .begin _ _ | .store _ | .mark _ | .add _ | .unlock _ | .finish _ | .protocol _ =>
    isTrue trivial

instance (s : RecordRace F τ K V H E) : ∀ a, Decidable (s.DeletesValid L bucketCountShift a)
  | .lock t _ => by
    unfold DeletesValid
    dsimp only
    split <;> infer_instance
  | .load _ | .begin _ _ | .store _ | .mark _ | .add _ | .unlock _ | .finish _ | .protocol _ =>
    isTrue trivial

end Step

end RecordRace

end TurboHash
