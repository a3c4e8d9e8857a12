import TurboHash.Lib.Simulation
import TurboHash.Rehash

/-!
# The table

`TurboHashTable` is an array of buckets. A key selects its bucket with the upper
32 bits of its hash and its home cell with the hash of its `H1`. `Put` inserts or
updates, and rehashes the bucket, doubling it, for as long as no cell on the
probe path can take the key.

`Op.exec` runs one operation and `run` a sequence of them, by one thread. The
fuel bounds the visits of cells in one search and the rehashes of one `Put`.
-/

namespace TurboHash

open Simulation

/-- `kTurboCellCountLimit`. -/
def kTurboCellCountLimit : Nat := 32768

/-- The instantiation of the table: the slot layout, the limit on the cells of
a bucket, and what the memory that `Allocate` returns for a bucket contains. -/
structure TableParams (F : CellFormat) (K V H E : Type) where
  layout : SlotLayout K V H E
  kCellCountLimit : Nat
  /-- the second `static_assert` on `kCellCountLimit` -/
  limit_le : kCellCountLimit ≤ kTurboCellCountLimit
  uninit : (bucketI cellCountShift cell : Nat) → Cell F H E

/-- The buckets and the counter `capacity_`. -/
structure Table (F : CellFormat) (H E : Type) where
  bucketCountShift : Nat
  buckets : Nat → Bucket F H E
  capacity : UInt64

namespace Table

variable {F : CellFormat} {K V H E : Type}

/-- `bucket_count_`. -/
def bucketCount (t : Table F H E) : Nat := 2 ^ t.bucketCountShift

/-- `bucketIndex`. -/
def bucketIndex (t : Table F H E) (hash : UInt32) : Nat := hash.toNat &&& (t.bucketCount - 1)

def setBucket (t : Table F H E) (i : Nat) (b : Bucket F H E) : Table F H E :=
  { t with buckets := Function.update t.buckets i b }

/-- `util::isPowerOfTwo`. -/
def isPowerOfTwo (n : UInt32) : Bool := n != 0 && popcount n.toBitVec == 1

/-- A zeroed cell. -/
def zeroCell (L : SlotLayout K V H E) : Cell F H E := ⟨.zero, fun _ => 0, fun _ => L.zeroSlot⟩

/-- The cells of a new bucket after `memset (addr, 0, rnd_cell_count * kCellSize)`,
a 32-bit product. -/
def zeroedCells (P : TableParams F K V H E) (bucketI cellCountShift cell : Nat) : Cell F H E :=
  if (cell + 1) * F.cellSize ≤ 2 ^ cellCountShift * F.cellSize % 2 ^ 32 then zeroCell P.layout
  else P.uninit bucketI cellCountShift cell

/-- The constructor; `none` is the `exit (1)` of its size check. The products
are products of `uint32_t`. -/
def construct (P : TableParams F K V H E) (bucketCount cellCount : UInt32) :
    Option (Table F H E) :=
  if isPowerOfTwo bucketCount && isPowerOfTwo cellCount then
    let shift := ctz cellCount.toBitVec
    some {
      bucketCountShift := ctz bucketCount.toBitVec
      buckets := fun i => ⟨shift, zeroedCells P i shift⟩
      capacity := (bucketCount * cellCount * UInt32.ofNat (F.slotCount - 1)).toUInt64 }
  else none

section Operations

variable (P : TableParams F K V H E)

/-- `MinorRehash`; `.undefined` is a bucket of 2^31 cells, whose doubled size
wraps to zero. -/
def minorRehash (t : Table F H E) (bi : Nat) (isgc : Bool) :
    Except Halt (Table F H E × Nat) := do
  let old := t.buckets bi
  let newShift := if isgc then old.cellCountShift else old.cellCountShift + 1
  if 32 ≤ newShift then throw .undefined
  if P.kCellCountLimit < 2 ^ newShift then throw (.exit .cannotRehash)
  let added := UInt32.ofNat old.cellCount * UInt32.ofNat (F.slotCount - 1)
  let (bucket, count) ← old.rehash P.layout bi newShift (P.uninit bi newShift)
  return ({ t.setBucket bi bucket with capacity := t.capacity + added.toUInt64 }, count)

/-- The bucket indices that the four threads of `MinorReHashAll` and `GCAll`
visit. -/
def rehashOrder (t : Table F H E) : List Nat :=
  (List.range 4).flatMap fun thread =>
    List.range' (t.bucketCount / 4 * thread) (t.bucketCount / 4)

/-- `MinorReHashAll` (`isgc` false) and `GCAll` (`isgc` true). -/
def rehashAll (t : Table F H E) (isgc : Bool) : Except Halt (Table F H E × Nat) :=
  t.rehashOrder.foldlM
    (fun (t, counts) i => do
      let (t, count) ← t.minorRehash P i isgc
      return (t, counts + count))
    (t, 0)

variable [DecidableEq H]

/-- `findSlot`. -/
def findSlot (fuel : Nat) (t : Table F H E) (key : K) (hash : UInt64) :
    Except Halt (Option (HashSlot H E)) :=
  let ph := P.layout.partialHash key hash
  let bi := t.bucketIndex ph.bucketHash
  (t.buckets bi).findSlot P.layout key ph fuel bi

/-- `insertSlot`: the record it retires, and the table after it. Each round is one
pass behind the retry label, where a `MinorRehash` jumps back to. -/
def insertSlot (fuel : Nat) (key : K) (value : V) (hash : UInt64) :
    Nat → Table F H E → Except Halt (Table F H E × Option E)
  | 0, _ => .error .outOfFuel
  | rounds + 1, t => do
    let ph := P.layout.partialHash key hash
    let bi := t.bucketIndex ph.bucketHash
    let res ← (t.buckets bi).findSlotForInsert P.layout key ph fuel bi
    if res.find then
      let bucket := t.buckets bi
      let target := res.targetSlot
      let (cell, retired) :=
        insertToSlotAndGC P.layout hash key value (bucket.cells target.cell) target
      return (t.setBucket bi (bucket.setCell target.cell cell), retired)
    else
      let (t, _) ← t.minorRehash P res.targetSlot.bucket false
      insertSlot fuel key value hash rounds t

/-- `deleteSlot`: whether it found the key, the record it retires, and the
table after it. -/
def deleteSlot (fuel : Nat) (t : Table F H E) (key : K) (hash : UInt64) :
    Except Halt (Table F H E × Bool × Option E) := do
  let ph := P.layout.partialHash key hash
  let bi := t.bucketIndex ph.bucketHash
  let bucket := t.buckets bi
  match ← bucket.findSlotForDelete P.layout key ph fuel bi with
  | some (cellI, slot) =>
    let (cell, retired) := deleteCommit P.layout (bucket.cells cellI) slot
    return (t.setBucket bi (bucket.setCell cellI cell), true, retired)
  | none => return (t, false, none)

end Operations

end Table

/-- The operations of the table. -/
inductive Op (K V : Type)
  | map (op : MapOp K V)
  | minorReHashAll
  | gcAll

/-- What an operation returns: the answer of `Put`, `Find` (the record it hands
to its callback) or `Delete`, or the number of entries a rehash has moved. -/
inductive OpResult (K V : Type)
  | map (answer : MapAnswer (Option (K × V)))
  | count (entries : Nat)
deriving DecidableEq

section Run

variable {F : CellFormat} {K V H E : Type} [DecidableEq H]

/-- `Put`, `Find` and `Delete`. -/
def mapExec (P : TableParams F K V H E) (fuel : Nat) (t : Table F H E) :
    MapOp K V → Except Halt (Table F H E × MapAnswer (Option (K × V)))
  | .put key value => do
    let (t, _) ← t.insertSlot P fuel key value (P.layout.keyToHash key) fuel
    return (t, .put)
  | .find key => do
    let slot ← t.findSlot P fuel key (P.layout.keyToHash key)
    return (t, .find (slot.map P.layout.decode))
  | .delete key => do
    let (t, found, _) ← t.deleteSlot P fuel key (P.layout.keyToHash key)
    return (t, .delete found)

/-- One operation. -/
def Op.exec (P : TableParams F K V H E) (fuel : Nat) (t : Table F H E) :
    Op K V → Except Halt (Table F H E × OpResult K V)
  | .map op => do
    let (t, answer) ← mapExec P fuel t op
    return (t, .map answer)
  | .minorReHashAll => do
    let (t, count) ← t.rehashAll P false
    return (t, .count count)
  | .gcAll => do
    let (t, count) ← t.rehashAll P true
    return (t, .count count)

/-- A sequence of operations by one thread. -/
def run (P : TableParams F K V H E) (fuel : Nat) (t : Table F H E) (ops : List (Op K V)) :
    Except Halt (Table F H E × List (OpResult K V)) :=
  Simulation.run (Op.exec P fuel) t ops

end Run

end TurboHash
