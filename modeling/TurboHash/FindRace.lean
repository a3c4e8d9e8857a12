import TurboHash.BucketMap
import TurboHash.Lib.Transition
import TurboHash.Rehash

/-!
# A lookup that races with writers

`findSlot` takes no lock. Each of its loads is a step of its own: the bucket word twice, for
`Address` and for `CellCountMask`, and at every cell the tags, the version word, `H1` and
`entry` of the slots that match, and the version word once more.

The holder of the bucket lock runs `insertSlot`, `deleteSlot` or `MinorRehash`. What it reads
under the lock nothing can change, so its search is one step; its stores are steps of their
own. `MinorRehash` fills an array that no other thread sees and publishes it with one store of
the bucket word. The arrays it replaces stay as they are: as long as the lookup runs none of
them is freed, so no two of them have one address, and their place in the order of
publication stands for it. (A `deleteSlot` that chooses its slot before the lock is the
subject of `DeleteRace`.)
-/

namespace TurboHash

open Transition

variable {F : CellFormat} {K V H E : Type}

/-- The loop of `findSlot` at a cell of the array `search_bucket_addr`. -/
structure FindProbe where
  array : Nat
  probe : ProbeWithinBucket
  probeCount : Nat

def FindProbe.next (p : FindProbe) : FindProbe := ⟨p.array, p.probe.next, p.probeCount + 1⟩

/-- The cell under the probe. -/
def FindProbe.cell (p : FindProbe) (arrays : Nat → Bucket F H E) : Cell F H E :=
  (arrays p.array).cells p.probe.cellIndex

/-- Where `findSlot` stands. -/
inductive FindCall (F : CellFormat) (H E : Type)
  | idle
  /-- before the load of `Address` -/
  | calling
  /-- before the load of `CellCountMask` -/
  | addressed (array : Nat)
  /-- before the load of the tags of a cell -/
  | probing (p : FindProbe)
  /-- before the load of the version word -/
  | tagged (p : FindProbe) (tags : Nat → UInt8)
  /-- before the load of the `H1` of the first of the matching slots that are left -/
  | scanning (p : FindProbe) (m : CellMeta F) (slots : List Nat)
  /-- `H1` of slot `i` matches, before the comparison of the key -/
  | comparing (p : FindProbe) (m : CellMeta F) (i : Nat) (slots : List Nat)
  /-- before the load of the `H1` of the record -/
  | matched (p : FindProbe) (m : CellMeta F) (i : Nat)
  /-- before the load of the `entry` of the record -/
  | copying (p : FindProbe) (m : CellMeta F) (i : Nat) (h1 : H)
  /-- before the second load of the version word -/
  | copied (p : FindProbe) (m : CellMeta F) (i : Nat) (record : HashSlot H E)
  | returned (result : Option (HashSlot H E))

/-- The probe of a call that has loaded from the cell under it. -/
def FindCall.probed : FindCall F H E → Option FindProbe
  | tagged p _ | scanning p _ _ | comparing p _ _ _ | matched p _ _ | copying p _ _ _
  | copied p _ _ _ => some p
  | idle | calling | addressed _ | probing _ | returned _ => none

/-- The record a call has returned. -/
def FindCall.result : FindCall F H E → Option (HashSlot H E)
  | returned result => result
  | _ => none

theorem FindCall.returned_of_result {call : FindCall F H E} {record : HashSlot H E}
    (result : call.result = some record) : call = .returned (some record) := by
  cases call with
  | returned result' => exact congrArg FindCall.returned result
  | _ => cases result

/-- The next load of `findSlot` for `key`. -/
def FindCall.read [DecidableEq H] (L : SlotLayout K V H E) (key : K) (bi current : Nat)
    (arrays : Nat → Bucket F H E) : FindCall F H E → Option (FindCall F H E)
  | idle | returned _ => none
  | calling => some (.addressed current)
  | addressed array =>
    some (.probing ⟨array, .start (L.homeHash key) (arrays current).cellCountMask bi, 0⟩)
  | probing p =>
    if p.probe.valid && decide (p.probeCount < maxProbeLen) then
      some (.tagged p (p.cell arrays).tags)
    else some (.returned none)
  | tagged p tags =>
    let m : CellMeta F := ⟨tags, (p.cell arrays).loadVersion⟩
    some (.scanning p m (m.matchBitSet (L.keyHash key).h2).toList)
  | scanning p m (i :: slots) =>
    some (if ((p.cell arrays).slots i).h1 == (L.keyHash key).h1 then .comparing p m i slots
      else .scanning p m slots)
  | scanning p m [] => some (if m.full then .probing p.next else .returned none)
  | comparing p m i slots =>
    some (if L.slotKeyEqual key ((p.cell arrays).slots i) then .matched p m i
      else .scanning p m slots)
  | matched p m i => some (.copying p m i ((p.cell arrays).slots i).h1)
  | copying p m i h1 => some (.copied p m i ⟨h1, ((p.cell arrays).slots i).entry⟩)
  | copied p m _ record =>
    some (if seqAdvanced m.ver (p.cell arrays).loadVersion then .probing p
      else .returned (some record))

/-- The store of `insertToSlotAndGC` that comes next. -/
inductive StorePoint
  | h1
  | entry
  | tag
  | version
deriving DecidableEq

/-- What the holder of the bucket lock is about to store. -/
inductive Holder (K V H : Type)
  | free
  | putting (point : StorePoint) (key : K) (value : V) (target : SlotInfo H)
  | deleting (key : K) (cell slot : Nat)

/-- The key that is being written. -/
def Holder.key : Holder K V H → Option K
  | free => none
  | putting _ key _ _ | deleting key _ _ => some key

/-- The cell behind one store of `insertToSlotAndGC`. -/
def StorePoint.store (L : SlotLayout K V H E) (key : K) (value : V) (target : SlotInfo H)
    (c : Cell F H E) : StorePoint → Cell F H E
  | h1 =>
    c.setSlot target.slot ⟨(L.store (L.keyToHash key) key value).h1, (c.slots target.slot).entry⟩
  | entry =>
    c.setSlot target.slot ⟨(c.slots target.slot).h1, (L.store (L.keyToHash key) key value).entry⟩
  | tag => c.setTag target.slot target.h2
  | version =>
    let version := c.loadVersion
    c.storeVersion (if target.equalKey then version.update target.slot target.oldSlot
      else version.insert target.slot)

/-- The store behind it; none behind the version word. -/
def StorePoint.next : StorePoint → Option StorePoint
  | h1 => some entry
  | entry => some tag
  | tag => some version
  | version => none

/-- The next store under the lock: the bucket behind it, and what is still to be stored. -/
def Holder.store (L : SlotLayout K V H E) (b : Bucket F H E) :
    Holder K V H → Option (Bucket F H E × Holder K V H)
  | free => none
  | putting point key value target =>
    let cell := point.store L key value target (b.cells target.cell)
    some (b.setCell target.cell cell,
      point.next.elim .free fun point => .putting point key value target)
  | deleting _ cell slot =>
    some (b.setCell cell (deleteCommit L (b.cells cell) slot).1, .free)

/-- The published arrays, the lookup, and the holder of the bucket lock. -/
structure FindRace (F : CellFormat) (K V H E : Type) where
  arrays : Nat → Bucket F H E
  current : Nat
  call : FindCall F H E
  holder : Holder K V H

inductive FindAction (F : CellFormat) (K V H E : Type)
  /-- the next load of the lookup -/
  | read
  /-- a `Put` takes the lock and finds a slot -/
  | put (key : K) (value : V)
  /-- a `Delete` takes the lock -/
  | delete (key : K)
  /-- the next store of the holder of the lock -/
  | store
  /-- `MinorRehash`, with what lies in the memory it gets -/
  | rehash (isgc : Bool) (memory : Nat → Cell F H E)

namespace FindRace

/-- The array that the bucket word points to. -/
def bucket (s : FindRace F K V H E) : Bucket F H E := s.arrays s.current

def setBucket (s : FindRace F K V H E) (b : Bucket F H E) : FindRace F K V H E :=
  { s with arrays := Function.update s.arrays s.current b }

/-- A bucket that nobody works on. -/
def start (b : Bucket F H E) : FindRace F K V H E := ⟨fun _ => b, 0, .idle, .free⟩

/-- A `Find` begins. -/
def find (s : FindRace F K V H E) : FindRace F K V H E := { s with call := .calling }

section Step

variable (L : SlotLayout K V H E) (kCellCountLimit bi : Nat) (key : K)

/-- `MinorRehash`: the shift of the new array. -/
def newShift (s : FindRace F K V H E) (isgc : Bool) : Nat :=
  if isgc then s.bucket.cellCountShift else s.bucket.cellCountShift + 1

/-- `MinorRehash`, up to `Reset`. -/
def rehash (s : FindRace F K V H E) (isgc : Bool) (memory : Nat → Cell F H E) :
    Option (FindRace F K V H E) :=
  if 32 ≤ s.newShift isgc ∨ kCellCountLimit < 2 ^ s.newShift isgc then none
  else
    match s.bucket.rehash L bi (s.newShift isgc) memory with
    | .ok (bucket, _) =>
      some { s with
        arrays := Function.update s.arrays (s.current + 1) bucket
        current := s.current + 1 }
    | .error _ => none

variable [DecidableEq H]

/-- A `Put` of a key that has room; where it has none, a rehash comes first. -/
def put (s : FindRace F K V H E) (key : K) (value : V) : Option (FindRace F K V H E) :=
  match s.bucket.findSlotForInsert L key (L.keyHash key) (maxProbeLen + 1) bi with
  | .ok res =>
    if res.find then some { s with holder := .putting .h1 key value res.targetSlot } else none
  | .error _ => none

def delete (s : FindRace F K V H E) (key : K) : Option (FindRace F K V H E) :=
  match s.bucket.findSlotForDelete L key (L.keyHash key) (maxProbeLen + 1) bi with
  | .ok (some (cell, slot)) => some { s with holder := .deleting key cell slot }
  | .ok none => some s
  | .error _ => none

def next (s : FindRace F K V H E) : FindAction F K V H E → Option (FindRace F K V H E)
  | .read =>
    (s.call.read L key bi s.current s.arrays).map fun call => { s with call }
  | .store => (s.holder.store L s.bucket).map fun (b, holder) => { s.setBucket b with holder }
  | .put key value => match s.holder with | .free => s.put L bi key value | _ => none
  | .delete key => match s.holder with | .free => s.delete L bi key | _ => none
  | .rehash isgc memory =>
    match s.holder with | .free => s.rehash L kCellCountLimit bi isgc memory | _ => none

end Step

end FindRace

end TurboHash
