import Mathlib.Data.Finset.Sort
import TurboHash.Epoche
import TurboHash.Lib.Heap
import TurboHash.Runs

/-!
# What a table allocates and frees

One thread works on a table whose keys or values are strings. `Put` allocates a record,
`MinorRehash` a bucket array; the outdated record or array goes to the deletion list of the
thread that retires it, and the callbacks in that list free it: at the end of an operation
when the list has grown, and the rest in `~Epoche`. The records that are still in the table,
and the arrays, are freed by `~TurboHashTable`.

A value carries the address of its record. The four workers of `MinorReHashAll` and `GCAll`
run one after the other; each has a `ThreadInfo`, with the list of its thread, for as long as
it runs. An operation that ends the program, or runs out of fuel, has no result.
-/

namespace TurboHash

open Simulation

/-! ## Epochs without interruption -/

namespace DeletionList

variable {ν : Type}

/-- The loop over the labels from position `k` on: run the callbacks of the labels older than
`oldestEpoche` and unlink them. -/
def sweep (oldestEpoche : WithTop ℕ) :
    List (LabelDelete ν) → ℕ → DeletionList ν → DeletionList ν × List ν
  | [], _, list => (list, [])
  | cur :: rest, k, list =>
    if (cur.epoche : WithTop ℕ) < oldestEpoche then
      let (list, ran) := sweep oldestEpoche rest k (list.remove cur k)
      (list, cur.nodes ++ ran)
    else sweep oldestEpoche rest (k + 1) list

/-- The loop of `~Epoche` over the labels of a list; `none` is a failed assertion. -/
def drain (oldestEpoche : WithTop ℕ) :
    List (LabelDelete ν) → DeletionList ν → Option (DeletionList ν × List ν)
  | [], list => some (list, [])
  | cur :: rest, list =>
    if (cur.epoche : WithTop ℕ) < oldestEpoche then
      (drain oldestEpoche rest (list.remove cur 0)).map fun (list, ran) => (list, cur.nodes ++ ran)
    else none

end DeletionList

namespace Epoche

variable {τ ν : Type} [DecidableEq τ]

/-- `ThreadInfo (epoche)`; `localEpoche` is what a new list starts with. -/
def threadInfo (s : Epoche τ ν) (t : τ) (localEpoche : WithTop ℕ) : Epoche τ ν :=
  if t ∈ s.created then s
  else { s.setList t (.new localEpoche) with created := insert t s.created }

/-- `~ThreadInfo`. -/
def dropThreadInfo (s : Epoche τ ν) (t : τ) : Epoche τ ν := s.storeLocal t ⊤

def enterEpoche (s : Epoche τ ν) (t : τ) : Epoche τ ν := s.storeLocal t s.currentEpoche

def markNodeForDeletion (s : Epoche τ ν) (t : τ) (callback : ν) : Epoche τ ν :=
  let list := (s.deletionLists t).add callback s.currentEpoche
  s.setList t { list with thresholdCounter := list.thresholdCounter + 1 }

/-- The minimum over the lists. -/
def oldestEpoche (s : Epoche τ ν) : WithTop ℕ :=
  s.created.inf fun t => (s.deletionLists t).localEpoche

/-- `exitEpocheAndCleanup`, with the callbacks it has run. -/
def exitEpocheAndCleanup (s : Epoche τ ν) (t : τ) : Epoche τ ν × List ν :=
  let s :=
    if (s.deletionLists t).thresholdCounter % 64 = 1 then
      { s with currentEpoche := s.currentEpoche + 1 }
    else s
  if s.startGCThreshhold < (s.deletionLists t).thresholdCounter then
    if (s.deletionLists t).size = 0 then (s.resetCounter t, [])
    else
      let s := s.storeLocal t ⊤
      let list := s.deletionLists t
      let (list, ran) := list.sweep s.oldestEpoche list.headDeletionList 0
      ((s.setList t list).resetCounter t, ran)
  else (s, [])

end Epoche

/-- `~Epoche` and then `~DeletionList` of every list: the callbacks that are run; `none` is a
failed assertion. -/
def Epoche.destroy {ν : Type} (s : Epoche ℕ ν) : Option (List ν) := do
  let drained ← (s.created.sort (· ≤ ·)).mapM fun t =>
    let list := s.deletionLists t
    list.drain s.oldestEpoche list.headDeletionList
  if drained.all fun (list, _) => list.size == 0 && list.headDeletionList.isEmpty then
    some (drained.flatMap Prod.snd)
  else none

/-! ## The table with its allocations -/

/-- A table, the addresses of its bucket arrays, what was allocated and freed so far, and the
epochs, whose callbacks free an address. -/
structure Process (F : CellFormat) (H E : Type) where
  table : Table F H E
  arrays : Nat → Nat
  heap : List (Heap.Event Nat)
  epoche : Epoche ℕ Nat

/-- The operations of the thread. A rehash of the table comes with the identities of its four
workers. -/
inductive ProcessOp (K V : Type)
  | put (key : K) (value : V)
  | find (key : K)
  | delete (key : K)
  | rehashAll (isgc : Bool) (workers : Nat → Nat)

variable {F : CellFormat} {K V H E : Type}

/-- The address of the record of a slot, if it has one. -/
def recordAddress (L : SlotLayout K (Nat × V) H E) (slot : HashSlot H E) : Option Nat :=
  (L.decode slot).map fun record => record.2.1

/-- A key or a value is a string: what is stored in a slot is a record that can be released. -/
def SlotLayout.HasRecords (L : SlotLayout K V H E) : Prop :=
  ∀ slot, (L.releaseAddress slot).isSome = (L.decode slot).isSome

namespace Process

section Steps

variable (P : TableParams F K (Nat × V) H E) (A : Heap.Allocator Nat)

/-- `Allocate`. -/
def allocate (p : Process F H E) : Nat × Process F H E :=
  let address := A.next p.heap
  (address, { p with heap := .allocate address :: p.heap })

/-- Run the callbacks. -/
def free (p : Process F H E) (addresses : List Nat) : Process F H E :=
  { p with heap := Heap.freeAll addresses p.heap }

/-- `markNodeForDeletion` for what `ReleaseAddress` has returned. -/
def retire (p : Process F H E) (t : ℕ) (address? : Option Nat) : Process F H E :=
  match address? with
  | some address => { p with epoche := p.epoche.markNodeForDeletion t address }
  | none => p

def enter (p : Process F H E) (t : ℕ) : Process F H E :=
  { p with epoche := p.epoche.enterEpoche t }

def exit (p : Process F H E) (t : ℕ) : Process F H E :=
  let (epoche, ran) := p.epoche.exitEpocheAndCleanup t
  { p with epoche }.free ran

/-- `MinorRehash` by thread `t`. -/
def minorRehash (p : Process F H E) (t : ℕ) (bi : Nat) (isgc : Bool) :
    Except Halt (Process F H E) := do
  let (address, p) := p.allocate A
  let (table, _) ← p.table.minorRehash P bi isgc
  let old := p.arrays bi
  return { p with table, arrays := Function.update p.arrays bi address }.retire t (some old)

variable [DecidableEq H]

/-- `insertSlot`. -/
def insertSlot (fuel : Nat) (t : ℕ) (key : K) (value : V) :
    Nat → Process F H E → Except Halt (Process F H E)
  | 0, _ => .error .outOfFuel
  | rounds + 1, p => do
    let res ← p.table.searchForInsert P fuel key
    let target := res.targetSlot
    if res.find then
      let (address, p) := p.allocate A
      let cell := (p.table.buckets (p.table.bucketOf P.layout key)).cells target.cell
      let released := (insertToSlotAndGC P.layout (P.layout.keyToHash key) key (address, value)
        cell target).2
      let old := released.bind fun _ => recordAddress P.layout (cell.slots target.oldSlot)
      let table := p.table.commit P key (address, value) target
      return { p with table }.retire t old
    else
      let p ← p.minorRehash P A t target.bucket false
      insertSlot fuel t key value rounds p

/-- `deleteSlot`. -/
def deleteSlot (fuel : Nat) (t : ℕ) (key : K) (p : Process F H E) :
    Except Halt (Process F H E) := do
  match ← p.table.searchForDelete P fuel key with
  | some (cellI, slot) =>
    let bi := p.table.bucketOf P.layout key
    let bucket := p.table.buckets bi
    let (cell, released) := deleteCommit P.layout (bucket.cells cellI) slot
    let old := released.bind fun _ => recordAddress P.layout ((bucket.cells cellI).slots slot)
    return { p with table := p.table.setBucket bi (bucket.setCell cellI cell) }.retire t old
  | none => return p

/-- `MinorReHashAll` and `GCAll`. -/
def rehashAll (memory : ℕ → WithTop ℕ) (isgc : Bool) (workers : Nat → ℕ) (p : Process F H E) :
    Except Halt (Process F H E) :=
  (List.range 4).foldlM
    (fun p thread => do
      let t := workers thread
      let share := p.table.bucketCount / 4
      let p := { p with epoche := p.epoche.threadInfo t (memory t) }
      let p ← (List.range' (share * thread) share).foldlM
        (fun p bi => p.minorRehash P A t bi isgc) p
      return { p with epoche := p.epoche.dropThreadInfo t })
    p

/-- One operation of thread `t`; `memory` is what the list of a new thread starts with. -/
def exec (memory : ℕ → WithTop ℕ) (fuel : Nat) (t : ℕ) (p : Process F H E) :
    ProcessOp K V → Except Halt (Process F H E)
  | .put key value => do return (← (p.enter t).insertSlot P A fuel t key value fuel).exit t
  | .find key => do
    let _ ← p.table.findSlot P fuel key (P.layout.keyToHash key)
    return p.enter t
  | .delete key => do return (← (p.enter t).deleteSlot P fuel t key).exit t
  | .rehashAll isgc workers => p.rehashAll P A memory isgc workers

def run (memory : ℕ → WithTop ℕ) (fuel : Nat) (t : ℕ) (p : Process F H E)
    (ops : List (ProcessOp K V)) : Except Halt (Process F H E) :=
  ops.foldlM (exec P A memory fuel t) p

omit [DecidableEq H] in
/-- The arrays that the constructor allocates, one for each bucket. -/
def allocateArrays : Nat → (Nat → Nat) × List (Heap.Event Nat)
  | 0 => (fun _ => 0, [])
  | n + 1 =>
    let (arrays, heap) := allocateArrays n
    let address := A.next heap
    (Function.update arrays n address, .allocate address :: heap)

/-- The constructor, and the `ThreadInfo` of thread `t`. -/
def construct (memory : ℕ → WithTop ℕ) (t : ℕ) (bucketCount cellCount : UInt32) :
    Option (Process F H E) := do
  let table ← Table.construct P bucketCount cellCount
  let (arrays, heap) := allocateArrays A table.bucketCount
  return ⟨table, arrays, heap, (Epoche.new 256).threadInfo t (memory t)⟩

end Steps

/-- `ReleaseRecords`, through `IterateAllCallback`: the addresses in the order of the buckets. -/
def releaseRecords (L : SlotLayout K (Nat × V) H E) (table : Table F H E) : List Nat :=
  let threads := min 8 table.bucketCount
  (List.range threads).flatMap fun t =>
    (List.range' (table.bucketCount / threads * t) (table.bucketCount / threads)).flatMap fun i =>
      let bucket := table.buckets i
      (BucketIterator.start i bucket.cells bucket.cellCount).toList.filterMap fun res =>
        recordAddress L res.hashSlot

/-- `~ThreadInfo`, `~TurboHashTable` and `~Epoche`: everything that was allocated and freed;
`none` is a failed assertion. -/
def destroy (L : SlotLayout K (Nat × V) H E) (t : ℕ) (p : Process F H E) :
    Option (List (Heap.Event Nat)) := do
  let epoche := p.epoche.dropThreadInfo t
  let heap := Heap.freeAll (releaseRecords L p.table) p.heap
  let heap := Heap.freeAll ((List.range p.table.bucketCount).map p.arrays) heap
  let ran ← epoche.destroy
  return Heap.freeAll ran heap

/-! ## The table behind it -/

section Projection

variable {P : TableParams F K (Nat × V) H E} {A : Heap.Allocator Nat} {p p' : Process F H E}
  {t : ℕ}

@[simp] theorem retire_table (p : Process F H E) (t : ℕ) (address? : Option Nat) :
    (p.retire t address?).table = p.table := by
  cases address? <;> rfl

theorem minorRehash_table {bi : Nat} {isgc : Bool} (ok : p.minorRehash P A t bi isgc = .ok p') :
    ∃ n, p.table.minorRehash P bi isgc = .ok (p'.table, n) := by
  obtain ⟨⟨table, n⟩, rehashed, same⟩ := bind_eq_ok.mp ok
  cases same
  exact ⟨n, rehashed⟩

/-- The share of a worker. -/
theorem foldlM_minorRehash_table {isgc : Bool} {order : List Nat}
    (ok : order.foldlM (fun p bi => p.minorRehash P A t bi isgc) p = .ok p') (counts : Nat) :
    (∃ counts', order.foldlM (fun (table, counts) i => do
        let (table, count) ← table.minorRehash P i isgc
        return (table, counts + count)) (p.table, counts) = .ok (p'.table, counts')) ∧
      p'.table.bucketCount = p.table.bucketCount := by
  induction order generalizing p counts with
  | nil =>
    cases ok
    exact ⟨⟨counts, rfl⟩, rfl⟩
  | cons bi order ih =>
    rw [List.foldlM_cons] at ok
    obtain ⟨p₁, first, rest⟩ := bind_eq_ok.mp ok
    obtain ⟨n, rehashed⟩ := minorRehash_table first
    obtain ⟨⟨counts', done⟩, count⟩ := ih rest (counts + n)
    obtain ⟨-, new, -, sameCount, -⟩ := Table.minorRehash_cases rehashed
    refine ⟨⟨counts', ?_⟩, count.trans (congrArg (2 ^ ·) sameCount)⟩
    rw [List.foldlM_cons]
    simp only [rehashed]
    exact done

/-- The workers, one after the other. -/
theorem foldlM_workers_table {memory : ℕ → WithTop ℕ} {isgc : Bool} {workers : Nat → ℕ}
    {threads : List Nat}
    (ok : threads.foldlM (fun (p : Process F H E) thread => do
      let t := workers thread
      let share := p.table.bucketCount / 4
      let p := { p with epoche := p.epoche.threadInfo t (memory t) }
      let p ← (List.range' (share * thread) share).foldlM
        (fun p bi => p.minorRehash P A t bi isgc) p
      return { p with epoche := p.epoche.dropThreadInfo t }) p = (.ok p' : Except Halt _))
    (counts : Nat) :
    ∃ counts', (threads.flatMap fun thread => List.range' (p.table.bucketCount / 4 * thread)
        (p.table.bucketCount / 4)).foldlM (fun (table, counts) i => do
          let (table, count) ← table.minorRehash P i isgc
          return (table, counts + count)) (p.table, counts) = .ok (p'.table, counts') := by
  induction threads generalizing p counts with
  | nil =>
    cases ok
    exact ⟨counts, rfl⟩
  | cons thread threads ih =>
    rw [List.foldlM_cons] at ok
    obtain ⟨p₁, worker, rest⟩ := bind_eq_ok.mp ok
    obtain ⟨p₂, share, same⟩ := bind_eq_ok.mp worker
    cases same
    obtain ⟨⟨counts₁, first⟩, count⟩ := foldlM_minorRehash_table share counts
    obtain ⟨counts', later⟩ := ih rest counts₁
    refine ⟨counts', ?_⟩
    rw [List.flatMap_cons, List.foldlM_append]
    change (Except.bind _ _) = _
    rw [first]
    dsimp only at count later
    rw [count] at later
    exact later

theorem rehashAll_table {memory : ℕ → WithTop ℕ} {isgc : Bool} {workers : Nat → ℕ}
    (ok : p.rehashAll P A memory isgc workers = .ok p') :
    ∃ n, p.table.rehashAll P isgc = .ok (p'.table, n) :=
  foldlM_workers_table ok 0

variable [DecidableEq H] {fuel : Nat}

theorem insertSlot_table {key : K} {value : V} {rounds : Nat}
    (ok : p.insertSlot P A fuel t key value rounds = .ok p') :
    ∃ address retired, p.table.insertSlot P fuel key (address, value) (P.layout.keyToHash key)
      rounds = .ok (p'.table, retired) := by
  induction rounds generalizing p with
  | zero => cases ok
  | succ rounds ih =>
    rw [insertSlot] at ok
    obtain ⟨res, search, rest⟩ := bind_eq_ok.mp ok
    cases found : res.find with
    | true =>
      rw [found, if_pos rfl] at rest
      cases rest
      obtain ⟨retired, inserted⟩ := Table.insertSlot_of_found search found
        (A.next p.heap, value) rounds
      exact ⟨_, retired, inserted.trans (by rw [retire_table])⟩
    | false =>
      rw [found, if_neg Bool.false_ne_true] at rest
      obtain ⟨p₁, first, again⟩ := bind_eq_ok.mp rest
      obtain ⟨n, rehashed⟩ := minorRehash_table first
      obtain ⟨address, retired, inserted⟩ := ih again
      refine ⟨address, retired, ?_⟩
      rw [Table.insertSlot_of_noRoom search found, rehashed]
      exact inserted

theorem deleteSlot_table {key : K} (ok : p.deleteSlot P fuel t key = .ok p') :
    ∃ found retired, p.table.deleteSlot P fuel key (P.layout.keyToHash key) =
      .ok (p'.table, found, retired) := by
  obtain ⟨res, search, rest⟩ := bind_eq_ok.mp ok
  simp only [Table.searchForDelete, Table.bucketOf, SlotLayout.keyHash] at search
  simp only [Table.deleteSlot, search]
  cases res with
  | none =>
    cases rest
    exact ⟨_, _, rfl⟩
  | some target =>
    cases rest
    rw [retire_table]
    exact ⟨_, _, rfl⟩

/-- An operation is one of the table, for some addresses. -/
theorem exec_table {memory : ℕ → WithTop ℕ} {op : ProcessOp K V}
    (ok : p.exec P A memory fuel t op = .ok p') :
    ∃ tableOp result, Op.exec P fuel p.table tableOp = .ok (p'.table, result) := by
  cases op with
  | put key value =>
    obtain ⟨p₁, inserted, same⟩ := bind_eq_ok.mp ok
    cases same
    obtain ⟨address, retired, done⟩ := insertSlot_table inserted
    refine ⟨.map (.put key (address, value)), .map .put, ?_⟩
    rw [Op.exec, mapExec]
    change Table.insertSlot P fuel key (address, value) _ fuel p.table = _ at done
    rw [done]
    rfl
  | find key =>
    obtain ⟨slot, found, same⟩ := bind_eq_ok.mp ok
    cases same
    refine ⟨.map (.find key), .map (.find (slot.map P.layout.decode)), ?_⟩
    rw [Op.exec, mapExec, found]
    rfl
  | delete key =>
    obtain ⟨p₁, deleted, same⟩ := bind_eq_ok.mp ok
    cases same
    obtain ⟨found, retired, done⟩ := deleteSlot_table deleted
    refine ⟨.map (.delete key), .map (.delete found), ?_⟩
    rw [Op.exec, mapExec]
    change p.table.deleteSlot P fuel key _ = _ at done
    rw [done]
    rfl
  | rehashAll isgc workers =>
    obtain ⟨n, done⟩ := rehashAll_table ok
    cases isgc with
    | false => exact ⟨.minorReHashAll, .count n, by rw [Op.exec, done]; rfl⟩
    | true => exact ⟨.gcAll, .count n, by rw [Op.exec, done]; rfl⟩

/-- A run of a process is one of its table. -/
theorem run_table {memory : ℕ → WithTop ℕ} {ops : List (ProcessOp K V)}
    (ok : p.run P A memory fuel t ops = .ok p') :
    ∃ tableOps results, TurboHash.run P fuel p.table tableOps = .ok (p'.table, results) := by
  induction ops generalizing p with
  | nil =>
    cases ok
    exact ⟨[], [], rfl⟩
  | cons op ops ih =>
    rw [run, List.foldlM_cons] at ok
    obtain ⟨p₁, first, rest⟩ := bind_eq_ok.mp ok
    obtain ⟨tableOp, result, done⟩ := exec_table first
    obtain ⟨tableOps, results, later⟩ := ih rest
    refine ⟨tableOp :: tableOps, result :: results, ?_⟩
    rw [TurboHash.run, run_cons_of_ok tableOps done]
    rw [TurboHash.run] at later
    rw [later]
    rfl

end Projection

end Process

end TurboHash
