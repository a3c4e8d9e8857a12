import TurboHash.Probe

/-!
# One bucket: search, insertion and deletion

`findSlot`, `findSlotForInsert` and the search of `deleteSlot` are bodies of the
probe loop of `TurboHash/Probe.lean`, written as the source has them: match the
tags, compare `H1` and the key, load the version once more and retry when it
has moved on by two writes, and stop at the first cell that is not full.

The bucket lock and the comparison of bucket addresses after it are the
business of the concurrent models; run by one thread they change nothing.
-/

namespace TurboHash

/-- A bucket: the cell count kept in the packed bucket word, and the cells. -/
structure Bucket (F : CellFormat) (H E : Type) where
  cellCountShift : Nat
  cells : Nat → Cell F H E

namespace Bucket

variable {F : CellFormat} {H E : Type}

/-- `CellCount`. -/
def cellCount (b : Bucket F H E) : Nat := 2 ^ b.cellCountShift

/-- `CellCountMask`. -/
def cellCountMask (b : Bucket F H E) : Nat := b.cellCount - 1

def setCell (b : Bucket F H E) (i : Nat) (c : Cell F H E) : Bucket F H E :=
  { b with cells := Function.update b.cells i c }

@[simp] theorem setCell_shift (b : Bucket F H E) (i : Nat) (c : Cell F H E) :
    (b.setCell i c).cellCountShift = b.cellCountShift := rfl

@[simp] theorem setCell_count (b : Bucket F H E) (i : Nat) (c : Cell F H E) :
    (b.setCell i c).cellCount = b.cellCount := rfl

@[simp] theorem setCell_self (b : Bucket F H E) (i : Nat) (c : Cell F H E) :
    (b.setCell i c).cells i = c :=
  Function.update_self ..

theorem setCell_of_ne (b : Bucket F H E) {i j : Nat} (c : Cell F H E) (different : j ≠ i) :
    (b.setCell i c).cells j = b.cells j :=
  Function.update_of_ne different ..

theorem cellCount_pos (b : Bucket F H E) : 0 < b.cellCount := Nat.two_pow_pos _

end Bucket

/-- `SlotInfo`. -/
structure SlotInfo (H : Type) where
  bucket : Nat
  cell : Nat
  slot : Nat
  h1 : H
  h2 : UInt8
  equalKey : Bool
  oldSlot : Nat := 0

/-- `FindSlotForInsertResult`. -/
structure FindSlotForInsertResult (H : Type) where
  targetSlot : SlotInfo H
  find : Bool

/-- The retry test: the version has advanced by more than one write. -/
def seqAdvanced {F : CellFormat} (oldVersion version : Version F) : Bool :=
  oldVersion.seqNo + 1 < version.seqNo

/-- Outcome of one pass of `deleteSlot` over the matching slots of a cell. -/
inductive DeleteScan
  | hit (slot : Nat)
  | retry
  | miss
deriving DecidableEq

section Search

variable {F : CellFormat} {K V H E : Type} [DecidableEq H]
variable (L : SlotLayout K V H E) (b : Bucket F H E) (key : K) (ph : PartialHash H)

/-- The scan of a cell for `key`: the first slot whose tag, `H1` and key match. -/
def matchSlot (c : Cell F H E) (m : CellMeta F) : Option Nat :=
  (m.matchBitSet ph.h2).toList.find? fun i =>
    (c.slots i).h1 == ph.h1 && L.slotKeyEqual key (c.slots i)

/-- The loop body of `findSlot`. -/
def findBody (_ : Unit) (cell : Nat) : ProbeOutcome Unit (Option (HashSlot H E)) :=
  let c := b.cells cell
  let m := c.loadMeta
  match matchSlot L key ph c m with
  | some i =>
    if seqAdvanced m.ver c.loadVersion then .retry () else .done (some (c.slots i))
  | none =>
    -- a cell with more than one empty slot ends the search
    if m.full then .next () else .done none

/-- `findSlot` in the bucket of the key. -/
def Bucket.findSlot (fuel bucketI : Nat) : Except Halt (Option (HashSlot H E)) :=
  probeLoop (findBody L b key ph) (fun _ => none) fuel
    (.start (L.h1ToHash ph.h1) b.cellCountMask bucketI) 0 ()

/-- The loop body of `findSlotForInsert`; the locals are `cell_to_insert` and
`slot_to_insert`. -/
def insertBody (bucketI : Nat) (toInsert : Option (Nat × Nat)) (cell : Nat) :
    ProbeOutcome (Option (Nat × Nat)) (FindSlotForInsertResult H) :=
  let c := b.cells cell
  let m := c.loadMeta
  match matchSlot L key ph c m with
  | some i =>
    -- an update request
    if seqAdvanced m.ver c.loadVersion then .retry toInsert
    else .done ⟨⟨bucketI, cell, m.backupBitSet.deref, ph.h1, ph.h2, true, i⟩, true⟩
  | none =>
    -- choose deleted position first
    let toInsert :=
      if m.eraseBitSet.validCount != 0 then some (cell, m.eraseBitSet.deref) else toInsert
    if m.full then .next toInsert
    else
      let target := toInsert.getD (cell, m.backupBitSet.deref)
      if seqAdvanced m.ver c.loadVersion then .retry (some target)
      else .done ⟨⟨bucketI, target.1, target.2, ph.h1, ph.h2, false, 0⟩, true⟩

/-- Behind the loop: a deleted slot on the way can take the key. -/
def insertFinish (bucketI : Nat) : Option (Nat × Nat) → FindSlotForInsertResult H
  | some target => ⟨⟨bucketI, target.1, target.2, ph.h1, ph.h2, false, 0⟩, true⟩
  | none => ⟨⟨bucketI, 0, 0, ph.h1, ph.h2, false, 0⟩, false⟩

/-- `findSlotForInsert`. -/
def Bucket.findSlotForInsert (fuel bucketI : Nat) : Except Halt (FindSlotForInsertResult H) :=
  probeLoop (insertBody L b key ph bucketI) (insertFinish ph bucketI) fuel
    (.start (L.h1ToHash ph.h1) b.cellCountMask bucketI) 0 none

/-- The scan of `deleteSlot`, which checks the version before the key. -/
def deleteScan (c : Cell F H E) (m : CellMeta F) : List Nat → DeleteScan
  | [] => .miss
  | i :: rest =>
    if (c.slots i).h1 == ph.h1 then
      if seqAdvanced m.ver c.loadVersion then .retry
      else if L.slotKeyEqual key (c.slots i) then .hit i
      else deleteScan c m rest
    else deleteScan c m rest

/-- The loop body of `deleteSlot`, up to the slot it deletes. -/
def deleteBody (_ : Unit) (cell : Nat) : ProbeOutcome Unit (Option (Nat × Nat)) :=
  let c := b.cells cell
  let m := c.loadMeta
  match deleteScan L key ph c m (m.matchBitSet ph.h2).toList with
  | .hit i => .done (some (cell, i))
  | .retry => .retry ()
  | .miss => if m.full then .next () else .done none

/-- The cell and slot that `deleteSlot` deletes, if it finds the key. -/
def Bucket.findSlotForDelete (fuel bucketI : Nat) : Except Halt (Option (Nat × Nat)) :=
  probeLoop (deleteBody L b key ph) (fun _ => none) fuel
    (.start (L.h1ToHash ph.h1) b.cellCountMask bucketI) 0 ()

end Search

section Commit

variable {F : CellFormat} {K V H E : Type} (L : SlotLayout K V H E)

/-- `insertToSlotAndGC`: store the slot and its tag, commit the version word,
and hand out the record that an update has replaced. -/
def insertToSlotAndGC (hash : UInt64) (key : K) (value : V) (c : Cell F H E) (info : SlotInfo H) :
    Cell F H E × Option E :=
  let c := c.setSlot info.slot (L.store hash key value)
  let c := c.setTag info.slot info.h2
  let version := c.loadVersion
  if info.equalKey then
    (c.storeVersion (version.update info.slot info.oldSlot),
      L.releaseAddress (c.slots info.oldSlot))
  else (c.storeVersion (version.insert info.slot), none)

/-- The commit of `deleteSlot` on slot `i`. -/
def deleteCommit (c : Cell F H E) (i : Nat) : Cell F H E × Option E :=
  (c.storeVersion (c.loadVersion.delete i), L.releaseAddress (c.slots i))

end Commit

/-! ## Without contention a retry is a full counter -/

section Retry

variable {F : CellFormat}

/-- A cell on which the retry test succeeds although nothing has changed: its
32-bit counter is at its maximum, so that `seq_no_ + 1` wraps to zero. -/
def Cell.stuck {H E : Type} (c : Cell F H E) : Bool := seqAdvanced c.loadVersion c.loadVersion

theorem seqAdvanced_self (v : Version F) : seqAdvanced v v = true ↔ v.seqNo = 0xFFFFFFFF := by
  rw [seqAdvanced, decide_eq_true_eq, UInt32.lt_iff_toNat_lt, UInt32.toNat_add,
    ← UInt32.toNat_inj]
  have bound := v.seqNo.toNat_lt
  simp
  omega

theorem Cell.stuck_iff {H E : Type} (c : Cell F H E) :
    c.stuck = true ↔ c.ver.seqNo = 0xFFFFFFFF :=
  seqAdvanced_self _

variable {K V H E : Type} [DecidableEq H] {L : SlotLayout K V H E} {b : Bucket F H E} {key : K}
  {ph : PartialHash H}

theorem spins_findBody : Spins (findBody L b key ph) := fun locals cell _ retries =>
  ⟨(), by cases locals; simpa using retries⟩

theorem spins_insertBody {bucketI : Nat} : Spins (insertBody L b key ph bucketI) := by
  intro toInsert cell toInsert' retries
  simp only [insertBody] at retries ⊢
  split at retries
  case h_1 i hit =>
    split at retries
    case isTrue advanced =>
      cases retries
      exact ⟨toInsert, by simp [advanced]⟩
    case isFalse => cases retries
  case h_2 missed =>
    split at retries
    case isTrue => cases retries
    case isFalse notFull =>
      split at retries
      case isTrue advanced => exact ⟨_, by simp only [notFull, advanced, if_true]; rfl⟩
      case isFalse => cases retries

theorem spins_deleteBody : Spins (deleteBody L b key ph) := fun locals cell _ retries =>
  ⟨(), by cases locals; simpa using retries⟩

/-- Alone, the scan of `deleteSlot` is the scan of the other two searches. -/
theorem deleteScan_eq_find? (c : Cell F H E) (slots : List Nat) (calm : c.stuck = false) :
    deleteScan L key ph c c.loadMeta slots =
      match slots.find? fun i => (c.slots i).h1 == ph.h1 && L.slotKeyEqual key (c.slots i) with
      | some i => .hit i
      | none => .miss := by
  have noRetry : seqAdvanced c.loadMeta.ver c.loadVersion = false := calm
  induction slots with
  | nil => rfl
  | cons i rest ih =>
    rw [deleteScan, List.find?_cons, noRetry]
    cases sameH1 : (c.slots i).h1 == ph.h1
    · simpa using ih
    · cases equal : L.slotKeyEqual key (c.slots i)
      · simpa using ih
      · simp

end Retry

section FuelFree

variable {F : CellFormat} {K V H E : Type} [DecidableEq H] {L : SlotLayout K V H E}
  {b : Bucket F H E} {key : K} {ph : PartialHash H} {fuel bucketI : Nat}

theorem Bucket.findSlot_eq (enough : maxProbeLen < fuel) :
    b.findSlot L key ph fuel bucketI =
      pathLoop (findBody L b key ph) (fun _ => none)
        (probePath (L.h1ToHash ph.h1) b.cellCount) () :=
  probeLoop_eq_pathLoop spins_findBody _ _ _ _ enough

theorem Bucket.findSlotForInsert_eq (enough : maxProbeLen < fuel) :
    b.findSlotForInsert L key ph fuel bucketI =
      pathLoop (insertBody L b key ph bucketI) (insertFinish ph bucketI)
        (probePath (L.h1ToHash ph.h1) b.cellCount) none :=
  probeLoop_eq_pathLoop spins_insertBody _ _ _ _ enough

theorem Bucket.findSlotForDelete_eq (enough : maxProbeLen < fuel) :
    b.findSlotForDelete L key ph fuel bucketI =
      pathLoop (deleteBody L b key ph) (fun _ => none)
        (probePath (L.h1ToHash ph.h1) b.cellCount) () :=
  probeLoop_eq_pathLoop spins_deleteBody _ _ _ _ enough

/-- The target of `findSlotForInsert` names the bucket it was called for. -/
theorem Bucket.findSlotForInsert_bucket {res : FindSlotForInsertResult H}
    (ok : b.findSlotForInsert L key ph fuel bucketI = .ok res) :
    res.targetSlot.bucket = bucketI := by
  refine probeLoop_satisfies (p := fun res => res.targetSlot.bucket = bucketI) ?_ ?_ ok
  · intro locals cell result outcome
    simp only [insertBody] at outcome
    split at outcome
    · split at outcome <;> cases outcome
      rfl
    · split at outcome
      · cases outcome
      · split at outcome <;> cases outcome
        rfl
  · intro locals
    cases locals <;> rfl

end FuelFree

end TurboHash
