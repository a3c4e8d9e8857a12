import TurboHash.BucketMap
import TurboHash.Lib.Transition
import TurboHash.Table

/-!
# Puts that choose their slot before the lock

Built with `PIN_KEY_TO_THREAD`, where each key is written by one thread only, `insertSlot`
runs `findSlotForInsert` without the bucket lock and tests the chosen slot again under it.
Every load of the search is a step of its own: the tags of a cell, its version word, each
matching slot, and the version word once more. The section under the lock is one step, and
so is a `Delete`. A search that finds no slot, behind which the bucket is rehashed, has no
step.

`map` is what the commits have stored under each key.
-/

namespace TurboHash

open Transition

variable {F : CellFormat} {τ K V H E : Type}

namespace CellMeta

/-- `Occupy`. -/
def occupy (m : CellMeta F) (i : Nat) : Bool := m.ver.bitmap.getLsbD i

/-- `IsDeleted`. -/
def isDeleted (m : CellMeta F) (i : Nat) : Bool := m.ver.bitmapDeleted.getLsbD i

end CellMeta

/-- The loop of `findSlotForInsert` at a cell. -/
structure InsertProbe (K V : Type) where
  key : K
  value : V
  probe : ProbeWithinBucket
  probeCount : Nat
  /-- `cell_to_insert` and `slot_to_insert` -/
  toInsert : Option (Nat × Nat)

/-- Where a thread stands in `insertSlot`. -/
inductive PutCall (F : CellFormat) (K V H : Type)
  | idle
  /-- before the load of the tags of a cell -/
  | probing (p : InsertProbe K V)
  /-- before the load of the version word -/
  | tagged (p : InsertProbe K V) (tags : Nat → UInt8)
  /-- before the load of the first of the matching slots that are left -/
  | scanning (p : InsertProbe K V) (m : CellMeta F) (slots : List Nat)
  /-- the key is in slot `i`, before the second load of the version word -/
  | equal (p : InsertProbe K V) (m : CellMeta F) (i : Nat)
  /-- at a cell that is not full, before the second load of the version word -/
  | ending (p : InsertProbe K V) (m : CellMeta F) (target : Nat × Nat)
  /-- behind the search, before the lock -/
  | found (key : K) (value : V) (target : SlotInfo H)

/-- How the section under the lock ends. -/
inductive Recheck
  | write (slot : Nat)
  /-- `goto after_rehash` -/
  | again
  /-- "Cannot update" -/
  | exit
deriving DecidableEq

/-- The tests under the lock, with the meta loaded there. -/
def recheck (m : CellMeta F) (target : SlotInfo H) : Recheck :=
  if !m.occupy target.slot || m.isDeleted target.slot then .write target.slot
  else if target.equalKey then
    if m.backupBitSet.toBool then .write m.backupBitSet.deref else .exit
  else if m.eraseBitSet.validCount != 0 then .write m.eraseBitSet.deref
  else if 2 ≤ m.backupBitSet.validCount then .write m.backupBitSet.deref
  else .again

namespace InsertProbe

variable (L : SlotLayout K V H E) (b : Bucket F H E) (p : InsertProbe K V)

def start (key : K) (value : V) : InsertProbe K V :=
  ⟨key, value, .start (L.homeHash key) b.cellCountMask 0, 0, none⟩

def next : InsertProbe K V :=
  { p with probe := p.probe.next, probeCount := p.probeCount + 1 }

/-- The cell under the probe. -/
def cell : Cell F H E := b.cells p.probe.cellIndex

/-- The slot that a new key takes. -/
def insertTarget (target : Nat × Nat) : SlotInfo H :=
  ⟨0, target.1, target.2, (L.keyHash p.key).h1, (L.keyHash p.key).h2, false, 0⟩

/-- The slots of an update. -/
def updateTarget (m : CellMeta F) (i : Nat) : SlotInfo H :=
  ⟨0, p.probe.cellIndex, m.backupBitSet.deref, (L.keyHash p.key).h1, (L.keyHash p.key).h2, true, i⟩

/-- Behind the scan of a cell without the key. -/
def missed (m : CellMeta F) : PutCall F K V H :=
  let toInsert :=
    if m.eraseBitSet.validCount != 0 then some (p.probe.cellIndex, m.eraseBitSet.deref)
    else p.toInsert
  if m.full then .probing { p with toInsert }.next
  else
    let target := toInsert.getD (p.probe.cellIndex, m.backupBitSet.deref)
    .ending { p with toInsert := some target } m target

variable [DecidableEq H]

/-- The slot has the `H1` and the key. -/
def matchesSlot (i : Nat) : Bool :=
  ((p.cell b).slots i).h1 == (L.keyHash p.key).h1 && L.slotKeyEqual p.key ((p.cell b).slots i)

end InsertProbe

namespace PutCall

variable [DecidableEq H] (L : SlotLayout K V H E) (b : Bucket F H E)

/-- The next load of a search; `none` where it is at its end and has found no slot. -/
def search : PutCall F K V H → Option (PutCall F K V H)
  | probing p =>
    if p.probe.valid && decide (p.probeCount < maxProbeLen) then
      some (.tagged p (p.cell b).tags)
    else p.toInsert.map fun target => .found p.key p.value (p.insertTarget L target)
  | tagged p tags =>
    let m : CellMeta F := ⟨tags, (p.cell b).loadVersion⟩
    some (.scanning p m (m.matchBitSet (L.keyHash p.key).h2).toList)
  | scanning p m (i :: slots) =>
    some (if p.matchesSlot L b i then .equal p m i else .scanning p m slots)
  | scanning p m [] => some (p.missed m)
  | equal p m i =>
    some (if seqAdvanced m.ver (p.cell b).loadVersion then .probing p
      else .found p.key p.value (p.updateTarget L m i))
  | ending p m target =>
    some (if seqAdvanced m.ver (p.cell b).loadVersion then .probing p
      else .found p.key p.value (p.insertTarget L target))
  | idle | found _ _ _ => none

end PutCall

/-- A bucket, the threads that put into it, and what they have stored. -/
structure PinnedRace (F : CellFormat) (τ K V H E : Type) where
  bucket : Bucket F H E
  calls : τ → PutCall F K V H
  map : K → Option V

inductive PinnedAction (τ K V : Type)
  | put (t : τ) (key : K) (value : V)
  | delete (t : τ) (key : K)
  /-- the next load of the search of a thread, or its section under the lock -/
  | step (t : τ)

namespace PinnedRace

section Step

variable [DecidableEq τ] [DecidableEq K] [DecidableEq H] (L : SlotLayout K V H E) (owner : K → τ)

def start (b : Bucket F H E) (map : K → Option V) : PinnedRace F τ K V H E :=
  ⟨b, fun _ => .idle, map⟩

def setCall (s : PinnedRace F τ K V H E) (t : τ) (call : PutCall F K V H) :
    PinnedRace F τ K V H E :=
  { s with calls := Function.update s.calls t call }

/-- `insertToSlotAndGC` on the slot that the tests have left. -/
def commit (s : PinnedRace F τ K V H E) (key : K) (value : V) (target : SlotInfo H) :
    PinnedRace F τ K V H E :=
  let written := insertToSlotAndGC L (L.keyToHash key) key value (s.bucket.cells target.cell) target
  { s with
    bucket := s.bucket.setCell target.cell written.1
    map := Function.update s.map key (some value) }

/-- The section under the lock. -/
def lock (s : PinnedRace F τ K V H E) (t : τ) (key : K) (value : V) (target : SlotInfo H) :
    Option (PinnedRace F τ K V H E) :=
  match recheck (s.bucket.cells target.cell).loadMeta target with
  | .write slot => some ((s.commit L key value { target with slot }).setCall t .idle)
  | .again => some (s.setCall t (.probing (.start L s.bucket key value)))
  | .exit => none

/-- A `Delete`. -/
def delete (s : PinnedRace F τ K V H E) (key : K) : Option (PinnedRace F τ K V H E) :=
  match s.bucket.findSlotForDelete L key (L.keyHash key) (maxProbeLen + 1) 0 with
  | .ok (some (c, i)) =>
    some { s with
      bucket := s.bucket.setCell c (deleteCommit L (s.bucket.cells c) i).1
      map := Function.update s.map key none }
  | .ok none => some s
  | .error _ => none

def next (s : PinnedRace F τ K V H E) : PinnedAction τ K V → Option (PinnedRace F τ K V H E)
  | .put t key value =>
    match s.calls t with
    | .idle =>
      if owner key = t then some (s.setCall t (.probing (.start L s.bucket key value))) else none
    | _ => none
  | .delete t key =>
    match s.calls t with
    | .idle => if owner key = t then s.delete L key else none
    | _ => none
  | .step t =>
    match s.calls t with
    | .found key value target => s.lock L t key value target
    | call => (call.search L s.bucket).map (s.setCall t)

end Step

section Calls

variable [DecidableEq τ] (s : PinnedRace F τ K V H E) {t u : τ} {call : PutCall F K V H}

@[simp] theorem setCall_bucket : (s.setCall t call).bucket = s.bucket := rfl

@[simp] theorem setCall_self : (s.setCall t call).calls t = call := Function.update_self ..

theorem setCall_of_ne (other : u ≠ t) : (s.setCall t call).calls u = s.calls u :=
  Function.update_of_ne other ..

end Calls

end PinnedRace

end TurboHash
