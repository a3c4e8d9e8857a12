import TurboHash.FindPath
import TurboHash.Owners

/-!
# Threads on one table

Any number of threads run `Put`, `Find` and `Delete`. The searches of `Find` and `Delete` load
word by word without a lock, as in `FindRace`. `Put` takes the lock of its bucket, searches,
stores the slot, its tag and the version word, or runs `MinorRehash` where it finds no room, and
begins again behind it. `Delete` takes the lock for a slot whose `H1` matches, tests the sequence
number, the key and the address of the array, and stores the version word. Before an old record
leaves its slot, with the store of the version word, it is passed to `markNodeForDeletion`; an old
array is passed to it behind the store of the bucket word.

A value comes with the number of its `Put`, which stands for the record that `Put` allocates. The
lookup of `FindRace` is not used here: each thread has one of its own.
-/

namespace TurboHash

open Simulation

variable {F : CellFormat} {τ K V H E : Type}

/-- What is passed to `markNodeForDeletion`: a record, or an array of a bucket. -/
inductive Node
  | record (n : Nat)
  | array (bucket array : Nat)
deriving DecidableEq

/-- Where a thread stands in an operation. -/
inductive TableCall (F : CellFormat) (K V H E : Type)
  | idle
  | find (key : K) (call : FindCall F H E)
  /-- before the lock -/
  | put (key : K) (value : V)
  /-- `deleteSlot` without the lock -/
  | delete (key : K) (call : FindCall F H E)
  /-- under the lock, before the version word; `marked` behind `markNodeForDeletion` -/
  | writing (key : K) (marked : Bool)
  /-- under the lock, behind a `MinorRehash` that has replaced the array `old` -/
  | rehashed (key : K) (value : V) (old : Nat) (marked : Bool)
  /-- under the lock, behind the version word -/
  | written (key : K)
  /-- before the end of `Put` or `Delete` -/
  | done

/-- An operation before its first load. -/
def TableCall.start : MapOp K V → TableCall F K V H E
  | .put key value => .put key value
  | .find key => .find key .calling
  | .delete key => .delete key .calling

/-- The key whose bucket the thread has locked. -/
def TableCall.locked : TableCall F K V H E → Option K
  | writing key _ | rehashed key _ _ _ | written key => some key
  | idle | find _ _ | put _ _ | delete _ _ | done => none

/-- The buckets with the stores of the lock holders still to come, the bucket locks, the threads,
and the number of the `Put`s. -/
structure TableRace (F : CellFormat) (τ K V H E : Type) where
  buckets : Nat → FindRace F K (Nat × V) H E
  locks : Nat → Option τ
  calls : τ → TableCall F K V H E
  puts : Nat

/-- The record that `ReleaseAddress` returns. -/
def SlotLayout.released (L : SlotLayout K (Nat × V) H E) (slot : HashSlot H E) : Option Nat :=
  (L.releaseAddress slot).bind fun _ => recordAddress L slot

/-- The record that leaves with the next store of the lock holder. -/
def Holder.retires (L : SlotLayout K (Nat × V) H E) (b : Bucket F H E) :
    Holder K (Nat × V) H → Option Nat
  | .putting .version _ _ target =>
    if target.equalKey then L.released ((b.cells target.cell).slots target.oldSlot) else none
  | .deleting _ cell slot => L.released ((b.cells cell).slots slot)
  | _ => none

namespace TableRace

/-- `bucketIndex` of a key, in a table of `2 ^ bucketCountShift` buckets. -/
def bucketOf (L : SlotLayout K V H E) (bucketCountShift : Nat) (key : K) : Nat :=
  (L.keyHash key).bucketHash.toNat &&& (2 ^ bucketCountShift - 1)

/-- The buckets before the threads start. -/
def start (buckets : Nat → Bucket F H E) (puts : Nat) : TableRace F τ K V H E :=
  ⟨fun bi => .start (buckets bi), fun _ => none, fun _ => .idle, puts⟩

section Step

variable [DecidableEq τ] [DecidableEq H] (L : SlotLayout K (Nat × V) H E)
  (kCellCountLimit bucketCountShift : Nat)

def setCall (s : TableRace F τ K V H E) (t : τ) (call : TableCall F K V H E) :
    TableRace F τ K V H E :=
  { s with calls := Function.update s.calls t call }

def setBucket (s : TableRace F τ K V H E) (bi : Nat) (b : FindRace F K (Nat × V) H E) :
    TableRace F τ K V H E :=
  { s with buckets := Function.update s.buckets bi b }

def setLock (s : TableRace F τ K V H E) (bi : Nat) (lock : Option τ) : TableRace F τ K V H E :=
  { s with locks := Function.update s.locks bi lock }

/-- The next load of a search without the lock. -/
def load (s : TableRace F τ K V H E) (t : τ) : Option (TableRace F τ K V H E) :=
  match s.calls t with
  | .find key call =>
    let bi := bucketOf L bucketCountShift key
    let b := s.buckets bi
    (call.read L key bi b.current b.arrays).map fun call => s.setCall t (.find key call)
  | .delete _ (.comparing _ _ _ _) => none
  | .delete key call =>
    let bi := bucketOf L bucketCountShift key
    let b := s.buckets bi
    (call.read L key bi b.current b.arrays).map fun
      | .returned _ => s.setCall t .done
      | call => s.setCall t (.delete key call)
  | _ => none

/-- `insertSlot` behind the lock: the search, and the rehash where there is no room. -/
def lockPut (s : TableRace F τ K V H E) (t : τ) (key : K) (value : V)
    (memory : Nat → Cell F H E) : Option (TableRace F τ K V H E) :=
  let bi := bucketOf L bucketCountShift key
  let b := s.buckets bi
  match b.bucket.findSlotForInsert L key (L.keyHash key) (maxProbeLen + 1) bi with
  | .ok res =>
    if res.find then
      let b := { b with holder := .putting .h1 key (s.puts, value) res.targetSlot }
      let s := { s with puts := s.puts + 1 }
      some (((s.setCall t (.writing key false)).setBucket bi b).setLock bi (some t))
    else
      (b.rehash L kCellCountLimit bi false memory).map fun b' =>
        ((s.setCall t (.rehashed key value b.current false)).setBucket bi b').setLock bi (some t)
  | .error _ => none

/-- `deleteSlot` behind the lock, up to its store; where it gives the lock back, it has stored
nothing. -/
def lockDelete (s : TableRace F τ K V H E) (t : τ) (key : K) (p : FindProbe) (m : CellMeta F)
    (i : Nat) (slots : List Nat) : TableRace F τ K V H E :=
  let bi := bucketOf L bucketCountShift key
  let b := s.buckets bi
  let c := p.cell b.arrays
  if seqAdvanced m.ver c.loadVersion then s.setCall t (.delete key (.probing p))
  else if L.slotKeyEqual key (c.slots i) then
    if p.array = b.current then
      let b := { b with holder := .deleting key p.probe.cellIndex i }
      ((s.setCall t (.writing key false)).setBucket bi b).setLock bi (some t)
    else s.setCall t (.delete key .calling)
  else s.setCall t (.delete key (.scanning p m slots))

/-- The slot of a `Delete` that passes its tests under the lock is valid. -/
def ValidSlot (b : FindRace F K (Nat × V) H E) (key : K) (p : FindProbe) (m : CellMeta F) (i : Nat) :
    Prop :=
  p.array = b.current → seqAdvanced m.ver (p.cell b.arrays).loadVersion = false →
    L.slotKeyEqual key ((p.cell b.arrays).slots i) = true →
      (p.cell b.arrays).ver.isPosValid i = true

instance (b : FindRace F K (Nat × V) H E) (key : K) (p : FindProbe) (m : CellMeta F) (i : Nat) :
    Decidable (ValidSlot L b key p m i) :=
  inferInstanceAs (Decidable (_ → _ → _ → _))

/-- The thread takes the lock of its bucket. -/
def lock (s : TableRace F τ K V H E) (t : τ) (memory : Nat → Cell F H E) :
    Option (TableRace F τ K V H E) :=
  match s.calls t with
  | .put key value =>
    match s.locks (bucketOf L bucketCountShift key) with
    | none => s.lockPut L kCellCountLimit bucketCountShift t key value memory
    | some _ => none
  | .delete key (.comparing p m i slots) =>
    match s.locks (bucketOf L bucketCountShift key) with
    | none => some (s.lockDelete L bucketCountShift t key p m i slots)
    | some _ => none
  | _ => none

/-- The next store under the lock. A record has to be marked before it leaves. -/
def store (s : TableRace F τ K V H E) (t : τ) : Option (TableRace F τ K V H E) :=
  match s.calls t with
  | .writing key marked =>
    let bi := bucketOf L bucketCountShift key
    let b := s.buckets bi
    if !marked && (b.holder.retires L b.bucket).isSome then none
    else (b.holder.store L b.bucket).map fun (bucket, holder) =>
      let s := s.setBucket bi { b.setBucket bucket with holder }
      match holder with
      | .free => s.setCall t (.written key)
      | _ => s.setCall t (.writing key marked)
  | _ => none

/-- `markNodeForDeletion` is called: the node, and the table behind the call. -/
def mark (s : TableRace F τ K V H E) (t : τ) : Option (Node × TableRace F τ K V H E) :=
  match s.calls t with
  | .writing key false =>
    let b := s.buckets (bucketOf L bucketCountShift key)
    (b.holder.retires L b.bucket).map fun n => (.record n, s.setCall t (.writing key true))
  | .rehashed key value old false =>
    some (.array (bucketOf L bucketCountShift key) old, s.setCall t (.rehashed key value old true))
  | _ => none

/-- The thread gives the lock back. -/
def unlock (s : TableRace F τ K V H E) (t : τ) : Option (TableRace F τ K V H E) :=
  match s.calls t with
  | .written key => some ((s.setCall t .done).setLock (bucketOf L bucketCountShift key) none)
  | .rehashed key value _ true =>
    some ((s.setCall t (.put key value)).setLock (bucketOf L bucketCountShift key) none)
  | _ => none

end Step

end TableRace

end TurboHash
