import TurboHash.Bucket

/-!
# The bucket iterator and the rehash of a bucket

`MinorRehash` walks the live slots of a bucket with `BucketIterator`, in cell
order, and puts each entry into the first cell of the new bucket, from its home
cell on, whose slot counter has not reached `SlotMaxRange`. The counters
`slot_vec` start at `StartSlotPos`, so a cell takes `fullCount` entries and its
last slot stays free.

`findNextSlotInRehash` bounds its search on its own: it gives up, with
`exit (1)`, when it would leave the cell at distance `MAX_PROBE_LEN`.
-/

namespace TurboHash

/-- `BucketIterator`; `cells` is the memory behind `bucket_addr_`. -/
structure BucketIterator (F : CellFormat) (H E : Type) where
  bi : Nat
  cellCount : Nat
  cellI : Nat
  bitmap : BitSet
  cells : Nat → Cell F H E

/-- `BucketIterator::InfoPair`. -/
structure InfoPair (H E : Type) where
  slotInfo : SlotInfo H
  hashSlot : HashSlot H E

namespace BucketIterator

variable {F : CellFormat} {H E : Type}

/-- `toNextValidBitMap`; the rounds are the cells that are left. -/
def toNextValidBitMap (it : BucketIterator F H E) : BucketIterator F H E :=
  go (it.cellCount - it.cellI) it
where
  go : Nat → BucketIterator F H E → BucketIterator F H E
    | 0, it => it
    | left + 1, it =>
      if !it.bitmap.toBool && decide (it.cellI < it.cellCount) then
        let it := { it with cellI := it.cellI + 1 }
        if it.cellI = it.cellCount then it
        else go left { it with bitmap := (it.cells it.cellI).loadMeta.validBitSet }
      else it

/-- The constructor. -/
def start (bi : Nat) (cells : Nat → Cell F H E) (cellCount : Nat) : BucketIterator F H E :=
  let it : BucketIterator F H E := ⟨bi, cellCount, 0, (cells 0).loadMeta.validBitSet, cells⟩
  if it.bitmap.toBool then it else it.toNextValidBitMap

/-- `valid`. -/
def valid (it : BucketIterator F H E) : Bool :=
  decide (it.cellI < it.cellCount) && it.bitmap.toBool

/-- `operator++`. -/
def next (it : BucketIterator F H E) : BucketIterator F H E :=
  let it := { it with bitmap := it.bitmap.next }
  if it.bitmap.toBool then it else it.toNextValidBitMap

/-- `operator*`: the cell index, slot index and slot content. -/
def deref (it : BucketIterator F H E) : InfoPair H E :=
  let slotIndex := it.bitmap.deref
  let cell := it.cells it.cellI
  let slot := cell.slots slotIndex
  ⟨⟨it.bi, it.cellI, slotIndex, slot.h1, cell.tags slotIndex, false, 0⟩, slot⟩

/-- The loop `while (iter.valid ()) { *iter; ++iter; }`; a bucket has at most
`F.bits` slots in each cell, which bounds the rounds. -/
def toList (it : BucketIterator F H E) : List (InfoPair H E) :=
  go (it.cellCount * F.bits) it
where
  go : Nat → BucketIterator F H E → List (InfoPair H E)
    | 0, _ => []
    | rounds + 1, it => if it.valid then it.deref :: go rounds it.next else []

end BucketIterator

section Rehash

variable {F : CellFormat} {K V H E : Type} (L : SlotLayout K V H E)

/-- The search loop of `findNextSlotInRehash`; the rounds left are
`MAX_PROBE_LEN - loop_count`. -/
def nextSlotLoop (slotVec : Nat → Nat) (cellCountMask : Nat) : Nat → Nat → Except Halt Nat
  | 0, ai => if F.slotMaxRange ≤ slotVec ai then .error (.exit .noSlotInProbe) else .ok ai
  | rounds + 1, ai =>
    if F.slotMaxRange ≤ slotVec ai then
      let ai := ai + probeStep
      nextSlotLoop slotVec cellCountMask rounds
        (if cellCountMask < ai then ai &&& cellCountMask else ai)
    else .ok ai

/-- `findNextSlotInRehash`: the cell and slot for an entry, and the counters
after it has taken the slot. -/
def findNextSlotInRehash (slotVec : Nat → Nat) (h1 : H) (cellCountMask : Nat) :
    Except Halt ((Nat × Nat) × (Nat → Nat)) := do
  let ai ← nextSlotLoop (F := F) slotVec cellCountMask maxProbeLen
    ((L.h1ToHash h1).toNat &&& cellCountMask)
  return ((ai, slotVec ai), Function.update slotVec ai (slotVec ai + 1))

/-- `moveSlot`. -/
def moveSlot (c : Cell F H E) (desSlotI : Nat) (oldInfo : SlotInfo H) (oldSlot : HashSlot H E) :
    Cell F H E :=
  let c := c.setSlot desSlotI ⟨oldInfo.h1, oldSlot.entry⟩
  let c := c.setTag desSlotI oldInfo.h2
  c.storeVersion { c.ver with bitmap := c.ver.bitmap ||| BitVec.twoPow F.bits desSlotI }

/-- The state of the move loop: the slot counters and the new cells. -/
structure RehashState (F : CellFormat) (H E : Type) where
  slotVec : Nat → Nat
  cells : Nat → Cell F H E

/-- One round of the move loop of `MinorRehash`. -/
def moveEntry (cellCountMask : Nat) (state : RehashState F H E) (res : InfoPair H E) :
    Except Halt (RehashState F H E) := do
  let (validSlot, slotVec) ←
    findNextSlotInRehash (F := F) L state.slotVec res.slotInfo.h1 cellCountMask
  if F.slotMaxRange ≤ validSlot.2 then throw (.exit .rehashFail)
  let cell := moveSlot (state.cells validSlot.1) validSlot.2 res.slotInfo res.hashSlot
  return ⟨slotVec, Function.update state.cells validSlot.1 cell⟩

/-- The memory `Allocate` returns, with the meta of every cell reset. -/
def resetMeta (uninit : Nat → Cell F H E) (i : Nat) : Cell F H E :=
  { uninit i with ver := .zero, tags := fun _ => 0 }

/-- The clearing loop: zero the slots from `slot_vec[ci]` to `SlotMaxRange`. -/
def clearRemaining (slotVec : Nat → Nat) (cells : Nat → Cell F H E) (ci : Nat) : Cell F H E :=
  { cells ci with
    slots := fun si =>
      if slotVec ci ≤ si ∧ si ≤ F.slotMaxRange then L.zeroSlot else (cells ci).slots si }

/-- Steps 1 and 2 of `MinorRehash`: build the new bucket of `2 ^ newShift` cells
from the live slots of the old one, and count them. -/
def Bucket.rehash (bi newShift : Nat) (uninit : Nat → Cell F H E) (b : Bucket F H E) :
    Except Halt (Bucket F H E × Nat) := do
  let entries := (BucketIterator.start bi b.cells b.cellCount).toList
  let state ← entries.foldlM (moveEntry L (2 ^ newShift - 1))
    ⟨fun _ => F.startSlotPos, resetMeta uninit⟩
  return (⟨newShift, clearRemaining L state.slotVec state.cells⟩, entries.length)

end Rehash

end TurboHash
