import TurboHash.BucketMap
import TurboHash.Lib.Transition
import TurboHash.Table

/-!
# Deletes that race with other writers

`deleteSlot` chooses a slot before it takes the bucket lock. A call is modelled as
the source runs it: a read of a cell's meta and of the `H1` of its matching slots,
the section under the lock with the test of the sequence number, the comparison of
the key and the commit, and, where the key differs, the read of the next `H1` with
the meta it has. A `Put` is one step under the lock. A full probe path, where the
`Put` would rehash, has no step.

Values carry the serial number of the `Put` that has stored them, which names the
binding and the record it has allocated. `deleted` logs the bindings that were
deleted by calls that return true, `retired` the records that were passed to
`markNodeForDeletion`.
-/

namespace TurboHash

open Transition

variable {F : CellFormat} {τ K V H E : Type}

/-- The loop of `deleteSlot` at a cell. -/
structure DeleteProbe (K : Type) where
  key : K
  probe : ProbeWithinBucket
  probeCount : Nat

/-- Where a thread stands in `deleteSlot`. -/
inductive DeleteCall (F : CellFormat) (K : Type)
  | idle
  /-- before the read of the cell's meta -/
  | probing (p : DeleteProbe K)
  /-- before the read of the `H1` of the slots it has not looked at -/
  | scanning (p : DeleteProbe K) (snapshot : CellMeta F) (slots : List Nat)
  /-- `H1` of `slot` matches, before the lock -/
  | matched (p : DeleteProbe K) (snapshot : CellMeta F) (slot : Nat) (slots : List Nat)

/-- The probe of a call on its way. -/
def DeleteCall.probe : DeleteCall F K → Option (DeleteProbe K)
  | idle => none
  | probing p | scanning p _ _ | matched p _ _ _ => some p

/-- How a step of `deleteSlot` ends. -/
inductive DeleteOutcome (F : CellFormat) (K : Type)
  | goOn (call : DeleteCall F K)
  | notFound
  | commit (cell slot : Nat)

/-- The result of the call, where the step returns. -/
def DeleteOutcome.found : DeleteOutcome F K → Option Bool
  | goOn _ => none
  | notFound => some false
  | commit _ _ => some true

namespace DeleteProbe

variable [DecidableEq H] (L : SlotLayout K V H E) (b : Bucket F H E) (p : DeleteProbe K)

def next : DeleteProbe K := ⟨p.key, p.probe.next, p.probeCount + 1⟩

/-- The cell under the probe. -/
def cell : Cell F H E := b.cells p.probe.cellIndex

/-- The slots from the first one on whose `H1` is that of the key. -/
def examine (snapshot : CellMeta F) (slots : List Nat) : DeleteOutcome F K :=
  match slots.dropWhile fun i => ((p.cell b).slots i).h1 != (L.keyHash p.key).h1 with
  | slot :: rest => .goOn (.matched p snapshot slot rest)
  | [] => if snapshot.full then .goOn (.probing p.next) else .notFound

/-- The unlocked read of a cell, behind the test of the loop. -/
def read : DeleteOutcome F K :=
  if p.probe.valid && decide (p.probeCount < maxProbeLen) then
    let m := (p.cell b).loadMeta
    p.examine L b m (m.matchBitSet (L.keyHash p.key).h2).toList
  else .notFound

/-- The section under the lock. -/
def lock (snapshot : CellMeta F) (slot : Nat) (slots : List Nat) : DeleteOutcome F K :=
  let c := p.cell b
  if seqAdvanced snapshot.ver c.loadVersion then .goOn (.probing p)
  else if L.slotKeyEqual p.key (c.slots slot) then .commit p.probe.cellIndex slot
  else .goOn (.scanning p snapshot slots)

end DeleteProbe

/-- A bucket, the threads that delete from it, and what has happened so far. -/
structure DeleteRace (F : CellFormat) (τ K H E : Type) where
  bucket : Bucket F H E
  calls : τ → DeleteCall F K
  puts : Nat
  deleted : List Nat
  retired : List Nat

inductive RaceAction (τ K V : Type)
  | put (key : K) (value : V)
  | call (t : τ) (key : K)
  | read (t : τ)
  | scan (t : τ)
  | lock (t : τ)

namespace DeleteRace

/-- The `Put` that has stored what a slot holds. -/
def serial (L : SlotLayout K (Nat × V) H E) (slot : HashSlot H E) : Option Nat :=
  (L.decode slot).map fun record => record.2.1

/-- Log the record of a slot that `markNodeForDeletion` is called for, if it is. -/
def retire (L : SlotLayout K (Nat × V) H E) (slot : HashSlot H E) (record : Option E)
    (retired : List Nat) : List Nat :=
  if record.isSome then (serial L slot).toList ++ retired else retired

section Step

variable [DecidableEq τ] [DecidableEq H] (L : SlotLayout K (Nat × V) H E)

/-- A new bucket. -/
def start (cellCountShift : Nat) : DeleteRace F τ K H E :=
  ⟨⟨cellCountShift, fun _ => Table.zeroCell L⟩, fun _ => .idle, 0, [], []⟩

/-- A `Put` that finds a slot. -/
def put (s : DeleteRace F τ K H E) (key : K) (value : V) : Option (DeleteRace F τ K H E) :=
  match s.bucket.findSlotForInsert L key (L.keyHash key) (maxProbeLen + 1) 0 with
  | .ok res =>
    if res.find then
      let target := res.targetSlot
      let old := (s.bucket.cells target.cell).slots target.oldSlot
      let written := insertToSlotAndGC L (L.keyToHash key) key (s.puts, value)
        (s.bucket.cells target.cell) target
      some { s with
        bucket := s.bucket.setCell target.cell written.1
        puts := s.puts + 1
        retired := retire L old written.2 s.retired }
    else none
  | .error _ => none

/-- The step of a `Delete`: its thread, its key and how it ends. -/
def outcome (s : DeleteRace F τ K H E) : RaceAction τ K V → Option (τ × K × DeleteOutcome F K)
  | .read t =>
    match s.calls t with
    | .probing p => some (t, p.key, p.read L s.bucket)
    | _ => none
  | .scan t =>
    match s.calls t with
    | .scanning p snapshot slots => some (t, p.key, p.examine L s.bucket snapshot slots)
    | _ => none
  | .lock t =>
    match s.calls t with
    | .matched p snapshot slot slots => some (t, p.key, p.lock L s.bucket snapshot slot slots)
    | _ => none
  | _ => none

def setCall (s : DeleteRace F τ K H E) (t : τ) (call : DeleteCall F K) : DeleteRace F τ K H E :=
  { s with calls := Function.update s.calls t call }

/-- What the step of a `Delete` does. -/
def conclude (s : DeleteRace F τ K H E) (t : τ) : DeleteOutcome F K → DeleteRace F τ K H E
  | .goOn call => s.setCall t call
  | .notFound => s.setCall t .idle
  | .commit cell slot =>
    let old := (s.bucket.cells cell).slots slot
    let written := deleteCommit L (s.bucket.cells cell) slot
    { s.setCall t .idle with
      bucket := s.bucket.setCell cell written.1
      deleted := (serial L old).toList ++ s.deleted
      retired := retire L old written.2 s.retired }

def next (s : DeleteRace F τ K H E) : RaceAction τ K V → Option (DeleteRace F τ K H E)
  | .put key value => s.put L key value
  | .call t key =>
    match s.calls t with
    | .idle =>
      let probe := .start (L.homeHash key) s.bucket.cellCountMask 0
      some (s.setCall t (.probing ⟨key, probe, 0⟩))
    | _ => none
  | a => (s.outcome L a).map fun (t, _, result) => s.conclude L t result

/-- The step is the return of a `Delete`: thread, key and result. -/
def returns (s : DeleteRace F τ K H E) (a : RaceAction τ K V) : Option (τ × K × Bool) :=
  (s.outcome L a).bind fun (t, key, result) => result.found.map fun found => (t, key, found)

end Step

end DeleteRace

end TurboHash
