import TurboHash.Lib.Transition
import TurboHash.Pmem
import TurboHash.RehashMap

/-!
# One thread on the persistent table

A `Machine` is the persistent memory, the DRAM array of bucket metas, and the stores,
flushes and fences that the running operation has still to make. A `Put` that finds a
slot and a `Delete` that finds its key queue their events, `step` makes the next one,
and `crash` reboots at any moment: every line keeps one of its survivors and `Recover`
reads the metas back. `MinorRehash` is one action, as no crash within it is considered.

Beside the state runs what the operations are meant to achieve: the table and the map
before and after the operation in progress, by the sequential semantics.
-/

namespace TurboHash.Pmem

open LineMemory

/-- A table and the map it stands for. -/
structure Snapshot (K V H E : Type) where
  table : Table cellMeta256V2 H E
  map : K → Option V

/-- The persistent memory, the DRAM array, and the operation in progress. -/
structure Machine {K V H E : Type} (S : Setup K V H E) where
  bucketCountShift : Nat
  memory : S.Memory
  buckets_ : Nat → BucketMetaDram
  /-- what the operation in progress has still to do -/
  todo : List S.Event
  /-- region, cell and version word that the operation commits -/
  pending : Option (Nat × Nat × Version cellMeta256V2)
  /-- before the operation in progress -/
  before : Snapshot K V H E
  /-- after it -/
  after : Snapshot K V H E

/-- What happens next. A `put` carries the address the allocator returns for its record,
a `rehash` the region of the new cells, a `crash` the survivor of each line. -/
inductive Action (K V : Type)
  | put (key : K) (value : V) (addr : Nat)
  | delete (key : K)
  | step
  | rehash (bi : Nat) (isgc : Bool) (region : Nat)
  | crash (keep : Addr → Nat)

namespace Setup

variable {K V H E : Type} (S : Setup K V H E)

/-- A slot as its two words, which is all a rehash knows of it. -/
def rawLayout : SlotLayout H S.format.Word H S.format.Word where
  keyToHash _ := 0
  h1Convert h1 _ := h1
  h1ToHash := S.layout.h1ToHash
  store _ h1 word := ⟨h1, word⟩
  slotKeyEqual _ _ := true
  decode slot := some (slot.h1, slot.entry)
  releaseAddress _ := none
  zeroSlot := ⟨S.layout.zeroSlot.h1, S.format.zeroWord⟩
  store_h1 _ _ _ := rfl
  decode_store _ _ _ := rfl
  slotKeyEqual_store k k' v same := by simpa using same

/-- A bucket as it lies in memory. -/
def rawBucket (x : S.Content) (b : BucketMetaDram) : Bucket cellMeta256V2 H S.format.Word :=
  ⟨b.shift, fun c => S.rawCell x b.address c⟩

/-- The copy that `BucketMetaPmem::Store` writes next; `none` is its `exit (1)`. -/
def nextCopy (x : S.Content) (bi : Nat) : Option Bool :=
  let cur : UInt8 := x (.curVer bi)
  if cur = 2 then some false else if cur = 1 then some true else none

end Setup

namespace Machine

variable {K V H E : Type} {S : Setup K V H E}

section View

variable (s : Machine S)

/-- `bucket_count_`. -/
def bucketCount : Nat := 2 ^ s.bucketCountShift

/-- What loads see. -/
def content : S.Content := current (lineOf S.metaWord) s.memory

/-- What a crash leaves. -/
def image (keep : Addr → Nat) : S.Content := LineMemory.image (lineOf S.metaWord) s.memory keep

/-- The table as the operations see it. -/
def view : Table cellMeta256V2 H E := S.table s.content s.bucketCountShift s.buckets_

end View

section Steps

variable [DecidableEq K] [DecidableEq H] (s : Machine S)

/-- `Put` of a key for which `findSlotForInsert` finds a slot. -/
def beginPut (key : K) (value : V) (addr : Nat) : Option (Machine S) :=
  match s.view.searchForInsert S.params searchFuel key with
  | .error _ => none
  | .ok res =>
    if res.find then
      let r := (s.buckets_ (s.view.bucketOf S.layout key)).address
      let info := res.targetSlot
      let version := putVersion (s.content (.ver r info.cell)) info
      some { s with
        todo := S.putPrepare r info key value addr ++ S.commitEvents r info.cell version
        pending := some (r, info.cell, version)
        before := ⟨s.view, s.after.map⟩
        after := ⟨s.view.commit S.params key value info,
          Function.update s.after.map key (some value)⟩ }
    else none

/-- `Delete`. -/
def beginDelete (key : K) : Option (Machine S) :=
  match s.view.searchForDelete S.params searchFuel key with
  | .error _ => none
  | .ok none =>
    let now : Snapshot K V H E := ⟨s.view, Function.update s.after.map key none⟩
    some { s with before := now, after := now }
  | .ok (some (c, i)) =>
    let bi := s.view.bucketOf S.layout key
    let r := (s.buckets_ bi).address
    let old : Version cellMeta256V2 := s.content (.ver r c)
    let version := old.masked.delete i
    some { s with
      todo := S.commitEvents r c version
      pending := some (r, c, version)
      before := ⟨s.view, s.after.map⟩
      after := ⟨s.view.setBucket bi ((s.view.buckets bi).setCell c
          (deleteCommit S.layout ((s.view.buckets bi).cells c) i).1),
        Function.update s.after.map key none⟩ }

omit [DecidableEq K] [DecidableEq H] in
/-- The next store, flush or fence of the operation. -/
def advance : Option (Machine S) :=
  match s.todo with
  | [] => none
  | e :: rest => some { s with
      memory := exec (lineOf S.metaWord) s.memory e
      todo := rest
      pending := if rest.isEmpty then none else s.pending
      before := if rest.isEmpty then s.after else s.before }

/-- The cell count exponent of the bucket that `MinorRehash` builds. -/
def newShift (bi : Nat) (isgc : Bool) : Nat :=
  if isgc then (s.buckets_ bi).shift else (s.buckets_ bi).shift + 1

omit [DecidableEq K] [DecidableEq H] in
/-- `MinorRehash` into a region that no bucket uses. -/
def rehash (bi : Nat) (isgc : Bool) (region : Nat) : Option (Machine S) :=
  if bi < s.bucketCount ∧ (∀ i < s.bucketCount, (s.buckets_ i).address ≠ region) ∧
      2 ^ s.newShift bi isgc ≤ S.params.kCellCountLimit then
    match (S.rawBucket s.content (s.buckets_ bi)).rehash S.rawLayout bi (s.newShift bi isgc)
        S.uninit, S.nextCopy s.content bi with
    | .ok (new, _), some second =>
      let memory := execAll (lineOf S.metaWord) s.memory (S.rehashEvents new region bi second)
      let buckets_ := Function.update s.buckets_ bi ⟨region, new.cellCountShift⟩
      let now : Snapshot K V H E :=
        ⟨S.table (current (lineOf S.metaWord) memory) s.bucketCountShift buckets_, s.after.map⟩
      some { s with memory := memory, buckets_ := buckets_, before := now, after := now }
    | _, _ => none
  else none

omit [DecidableEq K] [DecidableEq H] in
/-- The operation in progress is applied: its version word has survived. -/
def committed (keep : Addr → Nat) : Bool :=
  match s.pending with
  | none => true
  | some (r, c, version) =>
    let found : Version cellMeta256V2 := s.image keep (.ver r c)
    decide (found = version)

omit [DecidableEq K] [DecidableEq H] in
/-- What a crash takes the table back to. -/
def survivor (keep : Addr → Nat) : Snapshot K V H E :=
  if s.committed keep then s.after else s.before

omit [DecidableEq K] [DecidableEq H] in
/-- A crash, and `Recover`. -/
def reboot (keep : Addr → Nat) : Option (Machine S) :=
  (S.recover (s.image keep) s.bucketCount).map fun buckets_ =>
    let now : Snapshot K V H E :=
      ⟨S.table (s.image keep) s.bucketCountShift buckets_, (s.survivor keep).map⟩
    { bucketCountShift := s.bucketCountShift
      memory := crashed s.memory keep
      buckets_ := buckets_
      todo := []
      pending := none
      before := now
      after := now }

/-- One action. -/
def next : Action K V → Option (Machine S)
  | .put key value addr => if s.todo.isEmpty then s.beginPut key value addr else none
  | .delete key => if s.todo.isEmpty then s.beginDelete key else none
  | .step => s.advance
  | .rehash bi isgc region => if s.todo.isEmpty then s.rehash bi isgc region else none
  | .crash keep => s.reboot keep

end Steps

/-! ## Promises and conditions -/

section Conditions

variable (s : Machine S)

/-- The allocator returns memory that no live record uses. -/
def Allocated (addr length : Nat) : Prop :=
  ∀ bi < s.bucketCount, ∀ c < (s.buckets_ bi).cellCount, ∀ i < cellMeta256V2.bits,
    ((s.view.buckets bi).cells c).live i = true →
      let extent := S.format.extent (S.heap s.content)
        (s.content (.entry (s.buckets_ bi).address c i))
      extent.1 + extent.2 ≤ addr ∨ addr + length ≤ extent.1

/-- What the allocator promises about the memory for records. -/
def Promised : Action K V → Prop
  | .put key value addr =>
    ∀ bytes, S.format.encode key value = some bytes → s.Allocated addr bytes.length
  | _ => True

/-- The bytes of a record at `addr` lie on the line of `addr`. -/
def OnOneLine (addr length : Nat) : Prop :=
  ∀ i < length, (addr + i) / cacheLineSize = addr / cacheLineSize

theorem OnOneLine.length_le {addr length : Nat} (onLine : OnOneLine addr length) :
    length ≤ cacheLineSize := by
  by_contra longer
  have last := onLine cacheLineSize (by omega)
  simp only [cacheLineSize] at last
  omega

/-- The steps whose flushes reach everything they publish: a `Put` whose record lies on
one line, and a `MinorRehash` whose bucket pointer lies on the line of `cur_ver_`. Another
pointer may still be written back by a `MinorRehash` of the next bucket, but right behind
its own a crash finds the old one. -/
def Meets : Action K V → Prop
  | .put key value addr =>
    ∀ bytes, S.format.encode key value = some bytes → OnOneLine addr bytes.length
  | .rehash bi _ _ => ∀ second, S.nextCopy s.content bi = some second →
      lineOf S.metaWord (.bucketPtr second bi) = lineOf S.metaWord (.curVer bi)
  | _ => True

instance (addr length : Nat) : Decidable (s.Allocated addr length) :=
  inferInstanceAs (Decidable (∀ bi < s.bucketCount, ∀ c < (s.buckets_ bi).cellCount,
    ∀ i < cellMeta256V2.bits, _ → _))

instance (addr length : Nat) : Decidable (OnOneLine addr length) :=
  inferInstanceAs (Decidable (∀ i < length, _))

instance : (a : Action K V) → Decidable (s.Promised a)
  | .put key value _ => inferInstanceAs (Decidable (∀ bytes ∈ S.format.encode key value, _))
  | .delete _ | .step | .rehash _ _ _ | .crash _ => isTrue trivial

instance : (a : Action K V) → Decidable (s.Meets a)
  | .put key value _ => inferInstanceAs (Decidable (∀ bytes ∈ S.format.encode key value, _))
  | .rehash bi _ _ => inferInstanceAs (Decidable (∀ second ∈ S.nextCopy s.content bi, _))
  | .delete _ | .step | .crash _ => isTrue trivial

/-- The rehashes that put every entry on the probe path of its key. -/
def Near : Action K V → Prop
  | .rehash bi isgc _ => (s.view.buckets bi).Near S.layout (s.newShift bi isgc)
  | _ => True

end Conditions

end Machine

/-! ## The initial state -/

namespace Setup

variable {K V H E : Type} (S : Setup K V H E)

/-- The memory that `Initialize` leaves. -/
def initialMemory (bucketCount shift : Nat) : S.Memory :=
  execAll (lineOf S.metaWord) (fun _ => .clean S.heap₀)
    ((List.range bucketCount).flatMap (S.initializeBucket shift))

/-- `Initialize`; `none` is the `exit (1)` of its size check. -/
def initTable (bucketCount cellCount : UInt32) : Option (Machine S) :=
  if Table.isPowerOfTwo bucketCount && Table.isPowerOfTwo cellCount then
    let bucketShift := ctz bucketCount.toBitVec
    let shift := ctz cellCount.toBitVec
    let memory := S.initialMemory (2 ^ bucketShift) shift
    let buckets_ := fun bi => ⟨bi, shift⟩
    let now : Snapshot K V H E :=
      ⟨S.table (current (lineOf S.metaWord) memory) bucketShift buckets_, fun _ => none⟩
    some {
      bucketCountShift := bucketShift
      memory := memory
      buckets_ := buckets_
      todo := []
      pending := none
      before := now
      after := now }
  else none

end Setup

end TurboHash.Pmem
