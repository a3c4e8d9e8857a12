import TurboHash.Owners

/-!
# Every allocation is released once

`Process.Accounted` says that what is in use is owned: by the bucket that an array belongs
to, by the one live slot that refers to a record, or by a deletion list. Every operation
keeps it, and what is owned when the table is destroyed is freed then.
-/

namespace TurboHash

open Simulation

variable {F : CellFormat} {K V H E : Type}

/-! ## The owners -/

namespace Process

/-- The bucket arrays, the records of the live slots, and what the deletion lists hold. -/
def owned (L : SlotLayout K (Nat × V) H E) (p : Process F H E) : Multiset Nat :=
  ∑ i ∈ Finset.range p.table.bucketCount, {p.arrays i} + p.table.records L + p.epoche.pending

/-- Every allocation that is in use has one owner. -/
def Accounted (L : SlotLayout K (Nat × V) H E) (p : Process F H E) : Prop :=
  Heap.Balanced p.heap (p.owned L)

/-- The invariant of a process in which the threads of `busy` have a `ThreadInfo`. -/
structure Sound (L : SlotLayout K (Nat × V) H E) (busy : Set ℕ) (p : Process F H E) : Prop where
  wf : p.table.WellFormed L
  quiet : p.epoche.Quiet busy
  accounted : p.Accounted L

section Steps

variable {L : SlotLayout K (Nat × V) H E} {p p' : Process F H E} {busy : Set ℕ} {t : ℕ}

/-- The epochs change without a callback. -/
theorem Sound.setEpoche {busy' : Set ℕ} (sound : p.Sound L busy) {epoche : Epoche ℕ Nat}
    (kept : epoche.Quiet busy' ∧ epoche.pending = p.epoche.pending) :
    ({ p with epoche } : Process F H E).Sound L busy' where
  wf := sound.wf
  quiet := kept.1
  accounted := by
    rw [Accounted, owned, kept.2]
    exact sound.accounted

theorem Sound.enter (sound : p.Sound L busy) (here : t ∈ busy) : (p.enter t).Sound L busy :=
  sound.setEpoche (sound.quiet.enterEpoche here)

/-- The callbacks that the end of an operation runs free what the lists have held. -/
theorem Sound.exit (sound : p.Sound L busy) (here : t ∈ busy) : (p.exit t).Sound L busy := by
  obtain ⟨quiet, taken⟩ := sound.quiet.exitEpocheAndCleanup here
  refine ⟨sound.wf, quiet, ?_⟩
  have accounted := sound.accounted
  rw [Accounted, owned, ← taken, ← add_assoc, add_comm] at accounted
  exact accounted.freeAll

/-- What is retired passes into a deletion list. -/
theorem Sound.retire (old : Option Nat) (wf : p.table.WellFormed L) (quiet : p.epoche.Quiet busy)
    (here : t ∈ busy) (balanced : Heap.Balanced p.heap (p.owned L + (old.toList : List Nat))) :
    (p.retire t old).Sound L busy := by
  cases old with
  | none => exact ⟨wf, quiet, by rwa [Accounted, ← add_zero (Process.owned L _)]⟩
  | some address =>
    obtain ⟨quiet', pending⟩ := quiet.markNodeForDeletion here address
    have moved : (p.retire t (some address)).owned L = p.owned L + {address} := by
      have lists : (p.retire t (some address)).epoche.pending = p.epoche.pending + {address} := by
        rw [add_comm, Multiset.singleton_add]
        exact pending
      rw [owned, lists, ← add_assoc]
      rfl
    exact ⟨wf, quiet', by rwa [Accounted, moved]⟩

end Steps

section Operations

variable [DecidableEq H] {P : TableParams F K (Nat × V) H E} {A : Heap.Allocator Nat}
  {p p' : Process F H E} {busy : Set ℕ} {t : ℕ} {fuel : Nat}

omit [DecidableEq H] in
/-- A new array takes the place of the old one. -/
theorem arrays_update {bi : Nat} (inside : bi < p.table.bucketCount) (address : Nat) :
    (∑ i ∈ Finset.range p.table.bucketCount, {Function.update p.arrays bi address i} +
        {p.arrays bi} : Multiset Nat) =
      ∑ i ∈ Finset.range p.table.bucketCount, {p.arrays i} + {address} := by
  have exchanged := Heap.sum_exchange (Finset.mem_range.mpr inside)
    (f := fun i => ({p.arrays i} : Multiset Nat))
    (g := fun i => ({Function.update p.arrays bi address i} : Multiset Nat))
    fun i _ other => by rw [Function.update_of_ne other]
  rwa [Function.update_self] at exchanged

/-- `MinorRehash` exchanges the array of its bucket and keeps the records. -/
theorem Sound.minorRehash (sound : p.Sound P.layout busy) (here : t ∈ busy) {bi : Nat}
    (inside : bi < p.table.bucketCount) {isgc : Bool} (ok : p.minorRehash P A t bi isgc = .ok p') :
    p'.Sound P.layout busy ∧ p'.table.bucketCount = p.table.bucketCount := by
  obtain ⟨⟨table, n⟩, rehashed, same⟩ := bind_eq_ok.mp ok
  cases same
  have step : p.table.change P (.rehash bi isgc) = some table := by
    rw [Table.change, if_pos inside]
    have ok : p.table.minorRehash P bi isgc = .ok (table, n) := rehashed
    simp only [ok]
  obtain ⟨count, wf⟩ := (Changes.of_change sound.wf step).wf sound.wf
  have records := Table.records_minorRehash sound.wf inside rehashed
  refine ⟨Sound.retire _ wf sound.quiet here ?_, count⟩
  have balanced := sound.accounted.allocate A
  have arrays := arrays_update inside (A.next p.heap)
  have moved : ∑ i ∈ Finset.range table.bucketCount,
        {Function.update p.arrays bi (A.next p.heap) i} + table.records P.layout +
        p.epoche.pending + {p.arrays bi} = A.next p.heap ::ₘ p.owned P.layout := by
    rw [count, records, ← Multiset.singleton_add, add_comm {A.next p.heap}, owned,
      add_right_comm _ p.epoche.pending, add_right_comm _ (p.table.records P.layout), arrays]
    ac_rfl
  rw [← moved] at balanced
  exact balanced

/-- `Put`: the record that is allocated is the one of the slot, the one that is replaced is
retired. -/
theorem Sound.insertSlot (records : P.layout.HasRecords) (enough : maxProbeLen < fuel)
    (sound : p.Sound P.layout busy) (here : t ∈ busy) {key : K} {value : V} {rounds : Nat}
    (ok : p.insertSlot P A fuel t key value rounds = .ok p') : p'.Sound P.layout busy := by
  induction rounds generalizing p with
  | zero => cases ok
  | succ rounds ih =>
    rw [Process.insertSlot] at ok
    obtain ⟨res, search, rest⟩ := bind_eq_ok.mp ok
    dsimp only at rest
    split at rest
    case isTrue found =>
      cases rest
      have least : p.table.searchForInsert P searchFuel key = .ok res := by
        rw [← search, Table.searchForInsert_fuel lt_searchFuel enough]
      have wf : (p.table.commit P key (A.next p.heap, value) res.targetSlot).WellFormed P.layout :=
        ((Changes.of_put sound.wf least found).wf sound.wf).2
      refine Sound.retire (p.table.retiredByInsert P key (A.next p.heap, value) res.targetSlot)
        wf sound.quiet here ?_
      have balanced := sound.accounted.allocate A
      have exchanged := Table.records_commit records sound.wf enough search found
        (A.next p.heap) value
      have moved : ∑ i ∈ Finset.range p.table.bucketCount, {p.arrays i} +
            (p.table.commit P key (A.next p.heap, value) res.targetSlot).records P.layout +
            p.epoche.pending +
            (p.table.retiredByInsert P key (A.next p.heap, value) res.targetSlot).toList =
          A.next p.heap ::ₘ p.owned P.layout := by
        rw [add_right_comm, add_assoc _ (Table.records ..), exchanged, owned,
          ← Multiset.singleton_add]
        ac_rfl
      rw [← moved] at balanced
      exact balanced
    case isFalse =>
      obtain ⟨p₁, rehashed, again⟩ := bind_eq_ok.mp rest
      have bucket : res.targetSlot.bucket = p.table.bucketOf P.layout key :=
        Bucket.findSlotForInsert_bucket search
      refine ih (sound.minorRehash here ?_ rehashed).1 again
      rw [bucket]
      exact p.table.bucketOf_lt P.layout key

/-- `Delete`: the record that is deleted is retired. -/
theorem Sound.deleteSlot (records : P.layout.HasRecords) (enough : maxProbeLen < fuel)
    (sound : p.Sound P.layout busy) (here : t ∈ busy) {key : K}
    (ok : p.deleteSlot P fuel t key = .ok p') : p'.Sound P.layout busy := by
  obtain ⟨res, search, rest⟩ := bind_eq_ok.mp ok
  cases res with
  | none =>
    cases rest
    exact sound
  | some target =>
    obtain ⟨c, i⟩ := target
    cases rest
    have least : p.table.searchForDelete P searchFuel key = .ok (some (c, i)) := by
      rw [← search, Table.searchForDelete_fuel lt_searchFuel enough]
    have step : p.table.change P (.delete key) = some (p.table.setBucket
        (p.table.bucketOf P.layout key) ((p.table.buckets (p.table.bucketOf P.layout key)).setCell c
          (deleteCommit P.layout ((p.table.buckets (p.table.bucketOf P.layout key)).cells c) i).1)) := by
      simp only [Table.change, least]
    refine Sound.retire (p.table.retiredByDelete P key c i)
      ((Changes.of_change sound.wf step).wf sound.wf).2 sound.quiet here ?_
    have dropped := Table.records_deleteCommit records sound.wf enough search
    have accounted := sound.accounted
    rw [Accounted, owned, ← dropped, ← add_assoc, add_right_comm] at accounted
    exact accounted

/-- `MinorReHashAll` and `GCAll`: the workers come and go. -/
theorem Sound.rehashAll (sound : p.Sound P.layout busy) {memory : ℕ → WithTop ℕ} {isgc : Bool}
    {workers : Nat → ℕ} (ok : p.rehashAll P A memory isgc workers = .ok p') :
    p'.Sound P.layout busy := by
  refine foldlM_invariant (I := Sound P.layout busy) (fun p thread mem p' sound worker => ?_)
    sound ok
  obtain ⟨p₁, rehashed, same⟩ := bind_eq_ok.mp worker
  cases same
  have started := sound.setEpoche (sound.quiet.threadInfo (t := workers thread)
    (memory (workers thread)))
  have share : p.table.bucketCount / 4 * thread + p.table.bucketCount / 4 ≤ p.table.bucketCount := by
    have four := List.mem_range.mp mem
    calc p.table.bucketCount / 4 * thread + p.table.bucketCount / 4
        = p.table.bucketCount / 4 * (thread + 1) := (Nat.mul_succ ..).symm
      _ ≤ p.table.bucketCount / 4 * 4 := Nat.mul_le_mul_left _ four
      _ ≤ p.table.bucketCount := Nat.div_mul_le_self _ 4
  obtain ⟨-, worked⟩ := foldlM_invariant
    (I := fun p' => p'.table.bucketCount = p.table.bucketCount ∧
      Sound P.layout (insert (workers thread) busy) p')
    (fun p₂ bi mem p₃ ⟨count, sound⟩ ok => by
      have inside := (List.mem_range'_1.mp mem).2
      obtain ⟨sound', same⟩ := sound.minorRehash (Set.mem_insert _ _) (by omega) ok
      exact ⟨same.trans count, sound'⟩)
    ⟨rfl, started⟩ rehashed
  exact worked.setEpoche worked.quiet.dropThreadInfo

/-- One operation. -/
theorem Sound.exec (records : P.layout.HasRecords) (enough : maxProbeLen < fuel)
    (sound : p.Sound P.layout {t}) {memory : ℕ → WithTop ℕ} {op : ProcessOp K V}
    (ok : p.exec P A memory fuel t op = .ok p') : p'.Sound P.layout {t} := by
  have here : t ∈ ({t} : Set ℕ) := rfl
  cases op with
  | put key value =>
    obtain ⟨p₁, inserted, same⟩ := bind_eq_ok.mp ok
    cases same
    exact ((sound.enter here).insertSlot records enough here inserted).exit here
  | find key =>
    obtain ⟨slot, found, same⟩ := bind_eq_ok.mp ok
    cases same
    exact sound.enter here
  | delete key =>
    obtain ⟨p₁, deleted, same⟩ := bind_eq_ok.mp ok
    cases same
    exact ((sound.enter here).deleteSlot records enough here deleted).exit here
  | rehashAll isgc workers => exact sound.rehashAll ok

/-- A run of operations. -/
theorem Sound.run (records : P.layout.HasRecords) (enough : maxProbeLen < fuel)
    (sound : p.Sound P.layout {t}) {memory : ℕ → WithTop ℕ} {ops : List (ProcessOp K V)}
    (ok : p.run P A memory fuel t ops = .ok p') : p'.Sound P.layout {t} :=
  foldlM_invariant (fun _ _ _ _ sound ok => sound.exec records enough ok) sound ok

end Operations

/-! ## The end and the beginning -/

section Ends

variable {L : SlotLayout K (Nat × V) H E} {p : Process F H E} {t : ℕ}

theorem coe_map_arrays (n : Nat) (arrays : Nat → Nat) :
    (((List.range n).map arrays : List Nat) : Multiset Nat) =
      ∑ i ∈ Finset.range n, {arrays i} := by
  rw [List.map_eq_flatMap, Heap.coe_flatMap_range]
  rfl

/-- The destruction frees what is owned. -/
theorem Sound.destroy (sound : p.Sound L {t}) :
    ∃ heap, p.destroy L t = some heap ∧ Heap.Settled heap := by
  have last : p.epoche.Quiet (insert t ∅) := by
    rw [insert_empty_eq]
    exact sound.quiet
  obtain ⟨quiet, pending⟩ := last.dropThreadInfo
  obtain ⟨ran, ok, same⟩ := quiet.destroy
  refine ⟨_, by rw [Process.destroy, ok]; rfl, ?_⟩
  have accounted := sound.accounted
  rw [Accounted, owned, ← pending, ← same, ← Table.coe_releaseRecords sound.wf, ← coe_map_arrays,
    add_right_comm, add_comm] at accounted
  have arrays := accounted.freeAll
  rw [← add_zero (_ + (ran : Multiset Nat)), add_assoc] at arrays
  exact arrays.freeAll.freeAll.settled

/-- The arrays of the constructor. -/
theorem balanced_allocateArrays (A : Heap.Allocator Nat) (n : Nat) :
    Heap.Balanced (allocateArrays A n).2
      (∑ i ∈ Finset.range n, {(allocateArrays A n).1 i}) := by
  induction n with
  | zero => exact Heap.Balanced.nil
  | succ n ih =>
    have others : ∀ i ∈ Finset.range n, (allocateArrays A (n + 1)).1 i = (allocateArrays A n).1 i :=
      fun i inside => Function.update_of_ne (Finset.mem_range.mp inside).ne ..
    have here : (allocateArrays A (n + 1)).1 n = A.next (allocateArrays A n).2 :=
      Function.update_self ..
    rw [Finset.sum_range_succ, Finset.sum_congr rfl fun i inside => by rw [others i inside], here,
      add_comm _ {A.next _}, Multiset.singleton_add]
    exact ih.allocate A

theorem construct_cases {P : TableParams F K (Nat × V) H E} {A : Heap.Allocator Nat}
    {memory : ℕ → WithTop ℕ} {bucketCount cellCount : UInt32}
    (fresh : Process.construct P A memory t bucketCount cellCount = some p) :
    Table.construct P bucketCount cellCount = some p.table ∧
      p.arrays = (allocateArrays A p.table.bucketCount).1 ∧
      p.heap = (allocateArrays A p.table.bucketCount).2 ∧
      p.epoche = (Epoche.new 256).threadInfo t (memory t) := by
  obtain ⟨table, built, same⟩ := Option.bind_eq_some_iff.mp fresh
  cases same
  exact ⟨built, rfl, rfl, rfl⟩

theorem pending_new (threshold : ℕ) : (Epoche.new threshold : Epoche ℕ Nat).pending = 0 := rfl

theorem quiet_new (threshold : ℕ) : (Epoche.new threshold : Epoche ℕ Nat).Quiet ∅ where
  listed _ mem := absurd mem (Set.notMem_empty _)
  counted _ mem := absurd mem (Finset.notMem_empty _)
  withdrawn _ mem := absurd mem (Finset.notMem_empty _)

/-- A new table with buckets below 4 GiB. -/
theorem Sound.construct {P : TableParams F K (Nat × V) H E} {A : Heap.Allocator Nat}
    {memory : ℕ → WithTop ℕ} {bucketCount cellCount : UInt32}
    (fresh : Process.construct P A memory t bucketCount cellCount = some p)
    (small : cellCount.toNat * F.cellSize < 2 ^ 32) : p.Sound P.layout {t} := by
  obtain ⟨built, arrays, heap, epoche⟩ := construct_cases fresh
  have refines := Table.Refines.construct built small
  obtain ⟨quiet, pending⟩ := (quiet_new 256).threadInfo (t := t) (memory t)
  have none : p.table.records P.layout = 0 := by
    obtain ⟨power, buckets⟩ := Table.construct_cases built
    rw [Table.toNat_of_isPowerOfTwo power] at small
    refine Finset.sum_eq_zero fun i _ => Finset.sum_eq_zero fun c inside => ?_
    rw [buckets] at inside ⊢
    have zeroed : Table.zeroedCells P i (ctz cellCount.toBitVec) c = Table.zeroCell P.layout :=
      Table.zeroedCells_of_lt small (Finset.mem_range.mp inside)
    dsimp only
    rw [zeroed]
    exact Finset.sum_eq_zero fun slot _ => Cell.recordAt_of_dead (Version.live_zero slot)
  refine ⟨fun i inside => (refines.valid.placed i inside).wf, ?_, ?_⟩
  · rw [epoche, ← insert_empty_eq]
    exact quiet
  · rw [Accounted, owned, none, epoche, pending, pending_new, heap, arrays, add_zero, add_zero]
    exact balanced_allocateArrays A _

end Ends

end Process

/-! ## The result -/

section Result

variable [DecidableEq H]

/-- What the run of a process and its end do with what was allocated. -/
def ReleasedOnce (P : TableParams F K (Nat × V) H E) (A : Heap.Allocator Nat)
    (memory : ℕ → WithTop ℕ) (t : ℕ) (p₀ : Process F H E) : Prop :=
  ∀ fuel ops p, maxProbeLen < fuel → p₀.run P A memory fuel t ops = .ok p →
    p.Accounted P.layout ∧ ∃ heap, p.destroy P.layout t = some heap ∧ Heap.Settled heap

omit [DecidableEq H] in
/-- A table of stale cells has records. -/
theorem records_stale {L : SlotLayout K (Nat × V) H E} {table : Table F H E} {key : K}
    {pair : Nat × V} (stale : ∀ i c, (table.buckets i).cells c = staleCell L key pair) :
    table.WellFormed L ∧ table.records L ≠ 0 := by
  refine ⟨fun i _ c _ => stale i c ▸ staleCell_wf, fun none => ?_⟩
  have bucket := Finset.sum_eq_zero_iff.mp none 0 (Finset.mem_range.mpr table.bucketCount_pos)
  have cell := Finset.sum_eq_zero_iff.mp bucket 0
    (Finset.mem_range.mpr (Bucket.cellCount_pos _))
  rw [stale] at cell
  have holds : (staleCell L key pair : Cell F H E).Holds L F.startSlotPos key pair :=
    holds_staleCell.mpr ⟨rfl, rfl, rfl⟩
  have slot := Finset.sum_eq_zero_iff.mp cell F.startSlotPos
    (Finset.mem_range.mpr (Version.lt_bits_of_live holds.1))
  rw [holds.recordAt] at slot
  exact Multiset.singleton_ne_zero _ slot

omit [DecidableEq H] in
/-- On an allocator that hands out stale cells, the destructor of a table with buckets of
4 GiB frees what was not allocated, or the same array twice. -/
theorem not_releasedOnce {P : TableParams F K (Nat × V) H E} (A : Heap.Allocator Nat)
    (memory : ℕ → WithTop ℕ) (t : ℕ) {bucketCount cellCount : UInt32} {key : K} {pair : Nat × V}
    (bucketPower : Table.isPowerOfTwo bucketCount = true)
    (cellPower : Table.isPowerOfTwo cellCount = true)
    (large : 2 ^ 32 ≤ cellCount.toNat * F.cellSize)
    (uninit : ∀ i shift c, P.uninit i shift c = staleCell P.layout key pair) :
    ∃ p₀ : Process F H E, Process.construct P A memory t bucketCount cellCount = some p₀ ∧
      ¬ p₀.Accounted P.layout ∧
      ¬ ∃ heap, p₀.destroy P.layout t = some heap ∧ Heap.Settled heap := by
  obtain ⟨table, built, stale⟩ := construct_stale bucketPower cellPower large uninit
  obtain ⟨wf, some⟩ := records_stale stale
  obtain ⟨quiet, pending⟩ := (Epoche.Quiet.threadInfo (t := t) (Process.quiet_new 256) (memory t))
  have fresh : Process.construct P A memory t bucketCount cellCount = .some ⟨table,
      (Process.allocateArrays A table.bucketCount).1, (Process.allocateArrays A table.bucketCount).2,
      (Epoche.new 256).threadInfo t (memory t)⟩ := by
    rw [Process.construct, built]
    rfl
  have inUse := (Process.balanced_allocateArrays A table.bucketCount).2
  refine ⟨_, fresh, fun accounted => ?_, ?_⟩
  · have same := inUse.symm.trans accounted.2
    rw [Process.owned, pending, Process.pending_new, add_zero] at same
    exact some (add_left_cancel (same.symm.trans (add_zero _).symm))
  · rintro ⟨heap, destroyed, valid, -⟩
    obtain ⟨ran, -, same⟩ := Option.bind_eq_some_iff.mp destroyed
    cases same
    have freed := (Heap.Valid.of_freeAll valid)
    rw [← Heap.freeAll_append] at freed
    have le := freed.le_inUse
    rw [inUse, ← Multiset.coe_add, Process.coe_map_arrays, Table.coe_releaseRecords wf] at le
    exact some (nonpos_iff_eq_zero.mp (le_of_add_le_add_right (le.trans (zero_add _).ge)))

/-- Every allocation is released once in every run on a new table, whatever memory the
allocator returns, exactly when a bucket takes less than 4 GiB. -/
theorem released_once_iff [Inhabited K] [Inhabited V] (L : SlotLayout K (Nat × V) H E)
    (records : L.HasRecords) {limit : Nat} (limit_le : limit ≤ kTurboCellCountLimit)
    {bucketCount cellCount : UInt32} (bucketPower : Table.isPowerOfTwo bucketCount = true)
    (cellPower : Table.isPowerOfTwo cellCount = true) :
    (∀ uninit A memory t (p₀ : Process F H E),
      Process.construct ⟨L, limit, limit_le, uninit⟩ A memory t bucketCount cellCount = some p₀ →
        ReleasedOnce ⟨L, limit, limit_le, uninit⟩ A memory t p₀) ↔
      cellCount.toNat * F.cellSize < 2 ^ 32 := by
  constructor
  · intro holds
    by_contra large
    obtain ⟨p₀, fresh, not, -⟩ := not_releasedOnce
      (P := ⟨L, limit, limit_le, fun _ _ _ => staleCell L default (0, default)⟩)
      .above (fun _ => ⊤) 0 bucketPower cellPower (Nat.not_lt.mp large) fun _ _ _ => rfl
    exact not (holds _ _ _ _ p₀ fresh searchFuel [] p₀ lt_searchFuel rfl).1
  · intro small uninit A memory t p₀ fresh fuel ops p enough ok
    have sound := (Process.Sound.construct fresh small).run records enough ok
    exact ⟨sound.accounted, sound.destroy⟩

/-- A table with `std::string` keys and values, hashed by their length. -/
def stringLayout : SlotLayout (List UInt8) (Nat × List UInt8) UInt64
    (Option (List UInt8 × Nat × List UInt8)) :=
  stringKeyLayout fun key => hashInt (UInt64.ofNat key.length)

theorem released_once_iff_string :
    (∀ uninit A memory t (p₀ : Process cellMeta128 _ _),
      Process.construct ⟨stringLayout, kTurboCellCountLimit, le_rfl, uninit⟩ A memory t 4 8 =
          some p₀ →
        ReleasedOnce ⟨stringLayout, kTurboCellCountLimit, le_rfl, uninit⟩ A memory t p₀) ↔
      (8 : UInt32).toNat * cellMeta128.cellSize < 2 ^ 32 :=
  released_once_iff stringLayout (stringKeyLayout_hasRecords _) le_rfl (by decide) (by decide)

/-- 2^25 cells of 128 bytes: no cell of the new bucket is zeroed, and `ReleaseRecords` frees
what they contain. -/
theorem new_table_of_4GiB_not_released_once :
    ∃ p₀ : Process cellMeta128 UInt64 (Option (List UInt8 × Nat × List UInt8)),
      Process.construct ⟨stringLayout, kTurboCellCountLimit, le_rfl,
        fun _ _ _ => staleCell stringLayout [] (1, [])⟩ Heap.Allocator.above (fun _ => ⊤) 0
        1 33554432 = some p₀ ∧
      ¬ p₀.Accounted stringLayout ∧
      ¬ ∃ heap, p₀.destroy stringLayout 0 = some heap ∧ Heap.Settled heap :=
  not_releasedOnce _ _ _ (by decide +kernel) (by decide +kernel) (by decide) fun _ _ _ => rfl

end Result

end TurboHash
