import TurboHash.TableMap

/-!
# A fresh table is an empty map

The constructor zeroes the cells of every bucket with one `memset` whose length
is a product of two `uint32_t`. The zeroed cells are an empty map; the length is
the size of the bucket exactly when that size is below 4 GiB, and otherwise it is
zero and the bucket keeps what `aligned_alloc` has returned.
-/

namespace TurboHash

open Simulation

variable {F : CellFormat} {K V H E : Type} {L : SlotLayout K V H E}

namespace Table

theorem toNat_of_isPowerOfTwo {n : UInt32} (power : isPowerOfTwo n = true) :
    n.toNat = 2 ^ ctz n.toBitVec := by
  rw [isPowerOfTwo, Bool.and_eq_true, beq_iff_eq] at power
  exact toNat_of_popcount_eq_one power.2

variable {P : TableParams F K V H E} {bucketI shift cell : Nat}

/-- A length that has not wrapped covers every cell of the bucket. -/
theorem zeroedCells_of_lt (small : 2 ^ shift * F.cellSize < 2 ^ 32) (inside : cell < 2 ^ shift) :
    zeroedCells P bucketI shift cell = zeroCell P.layout := by
  rw [zeroedCells, Nat.mod_eq_of_lt small, if_pos (Nat.mul_le_mul_right _ inside)]

/-- A length that has wrapped is zero. -/
theorem zeroedCells_of_le (large : 2 ^ 32 ≤ 2 ^ shift * F.cellSize) :
    zeroedCells P bucketI shift cell = P.uninit bucketI shift cell := by
  rw [CellFormat.cellSize, ← pow_add] at large
  have exponent : 32 ≤ shift + F.cellSizeLeftShift :=
    (Nat.pow_le_pow_iff_right one_lt_two).mp large
  have wrapped : 2 ^ shift * F.cellSize % 2 ^ 32 = 0 := by
    rw [CellFormat.cellSize, ← pow_add]
    exact Nat.mod_eq_zero_of_dvd (pow_dvd_pow 2 exponent)
  have positive : 0 < (cell + 1) * F.cellSize :=
    Nat.mul_pos (Nat.succ_pos _) (Nat.two_pow_pos _)
  rw [zeroedCells, wrapped, if_neg (by omega)]

end Table

section Fresh

variable {P : TableParams F K V H E} {bucketCount cellCount : UInt32} {t : Table F H E}

theorem Table.construct_cases (fresh : Table.construct P bucketCount cellCount = some t) :
    isPowerOfTwo cellCount = true ∧
      t.buckets = fun i => ⟨ctz cellCount.toBitVec, zeroedCells P i (ctz cellCount.toBitVec)⟩ := by
  rw [construct] at fresh
  split at fresh
  case isTrue powers =>
    cases fresh
    exact ⟨(Bool.and_eq_true_iff.mp powers).2, rfl⟩
  case isFalse => cases fresh

/-- A table whose buckets take less than 4 GiB each starts empty. -/
theorem Table.Refines.construct (fresh : Table.construct P bucketCount cellCount = some t)
    (small : cellCount.toNat * F.cellSize < 2 ^ 32) : t.Refines P.layout fun _ => none := by
  obtain ⟨power, buckets⟩ := construct_cases fresh
  rw [toNat_of_isPowerOfTwo power] at small
  refine Refines.of_zeroed fun i _ c inside => ?_
  rw [buckets] at inside ⊢
  exact zeroedCells_of_lt small inside

end Fresh

/-! ## What a bucket of 4 GiB starts with -/

section Stale

variable {key : K} {value : V}

/-- A cell with one live slot, such as a table released before may leave in the
memory that the allocator hands out again. -/
def staleCell (L : SlotLayout K V H E) (key : K) (value : V) : Cell F H E :=
  (Table.zeroCell L).put L F.startSlotPos key value (Version.zero.insert F.startSlotPos)

theorem insertable_zero : (Version.zero : Version F).Insertable F.startSlotPos := by
  have := F.slotCount_eq
  have := F.fullCount_eq
  have := F.fullCount_pos
  have none : popcount (Version.zero : Version F).bitmap = 0 :=
    popcount_eq_zero.mpr fun i => by simp [Version.zero]
  exact ⟨le_rfl, by omega, Or.inl ⟨by simp [Version.zero], by omega⟩⟩

theorem staleCell_wf : (staleCell L key value : Cell F H E).WellFormed L :=
  Table.zeroCell_wf.insert insertable_zero

theorem holds_staleCell {i : Nat} {key' : K} {value' : V} :
    (staleCell L key value : Cell F H E).Holds L i key' value' ↔
      i = F.startSlotPos ∧ key' = key ∧ value' = value := by
  refine (Cell.holds_insert (c := Table.zeroCell L) insertable_zero).trans ?_
  simp [Table.not_holds_zeroCell]

theorem staleCell_stuck : (staleCell L key value : Cell F H E).stuck = false := by
  rw [← Bool.not_eq_true, Cell.stuck_iff]
  change (0 + 1 : UInt32) ≠ 0xFFFFFFFF
  decide

/-- Lookup in a bucket of stale cells finds the key they hold. -/
theorem Bucket.findSlot_of_stale [DecidableEq H] {b : Bucket F H E} {fuel bucketI : Nat}
    (stale : ∀ c, b.cells c = staleCell L key value) (enough : maxProbeLen < fuel) :
    b.findSlot L key (L.keyHash key) fuel bucketI = .ok (some (L.slotOf key value)) := by
  obtain ⟨rest, path⟩ := probePath_eq_cons (L.homeHash key) b.cellCount_pos
  have holds : (staleCell L key value : Cell F H E).Holds L F.startSlotPos key value :=
    holds_staleCell.mpr ⟨rfl, rfl, rfl⟩
  have scan := matchSlot_of_holds staleCell_wf holds fun j value' other =>
    (holds_staleCell.mp other).1
  have outcome : ∀ c, findBody L b key (L.keyHash key) () c =
      .done (some (L.slotOf key value)) := by
    intro c
    simp only [findBody, stale, scan, holds.2]
    exact if_neg (Bool.eq_false_iff.mp staleCell_stuck)
  rw [Bucket.findSlot_eq enough]
  change pathLoop _ _ (probePath (L.homeHash key) b.cellCount) () = _
  rw [path, pathLoop, outcome]

end Stale

/-! ## The result -/

section Result

variable [DecidableEq K] [DecidableEq H]

/-- The run of `ops` on `t` answers as an empty map does, and the live slots of
the table it ends in hold the map it ends in. -/
def BehavesAsMap (P : TableParams F K V H E) (fuel : Nat) (t : Table F H E)
    (ops : List (MapOp K V)) : Prop :=
  let spec := specRun (mapStep boundRecord) (fun _ => none) ops
  ∃ t', Simulation.run (mapExec P fuel) t ops = .ok (t', spec.2) ∧ t'.Represents P.layout spec.1

omit [DecidableEq K] [DecidableEq H] in
/-- On an allocator that hands out stale cells, a table with buckets of 4 GiB or
more consists of them. -/
theorem construct_stale {P : TableParams F K V H E} {bucketCount cellCount : UInt32} {key : K}
    {value : V} (bucketPower : Table.isPowerOfTwo bucketCount = true)
    (cellPower : Table.isPowerOfTwo cellCount = true)
    (large : 2 ^ 32 ≤ cellCount.toNat * F.cellSize)
    (uninit : ∀ i shift c, P.uninit i shift c = staleCell P.layout key value) :
    ∃ t, Table.construct P bucketCount cellCount = some t ∧
      ∀ i c, (t.buckets i).cells c = staleCell P.layout key value := by
  rw [Table.toNat_of_isPowerOfTwo cellPower] at large
  rw [Table.construct, bucketPower, cellPower]
  exact ⟨_, rfl, fun i c => (Table.zeroedCells_of_le large).trans (uninit ..)⟩

/-- In a table of stale cells a lookup finds a key that was never put. -/
theorem finds_stale {P : TableParams F K V H E} {fuel : Nat} {t : Table F H E} {key : K} {value : V}
    (stale : ∀ i c, (t.buckets i).cells c = staleCell P.layout key value)
    (enough : maxProbeLen < fuel) :
    Guarded (mapExec P fuel) (Quiet P) t [.find key] ∧
      ¬ BehavesAsMap P fuel t [MapOp.find key] := by
  refine ⟨⟨?_, fun _ _ _ => trivial⟩, ?_⟩
  · intro i _ c _
    rw [stale]
    exact fun maximal => Bool.eq_false_iff.mp staleCell_stuck ((Cell.stuck_iff _).mpr maximal)
  · rintro ⟨t', ok, -⟩
    have hit : t.findSlot P fuel key (P.layout.keyToHash key) =
        .ok (some (P.layout.slotOf key value)) :=
      Bucket.findSlot_of_stale (stale _) enough
    rw [Simulation.run, mapExec, hit] at ok
    cases ok

/-- Every quiet run on a new table behaves as a map, whatever memory the
allocator returns, exactly when a bucket takes less than 4 GiB. -/
theorem fresh_table_behaves_as_map_iff [Inhabited K] [Inhabited V] (L : SlotLayout K V H E)
    {limit : Nat} (limit_le : limit ≤ kTurboCellCountLimit) {bucketCount cellCount : UInt32}
    (bucketPower : Table.isPowerOfTwo bucketCount = true)
    (cellPower : Table.isPowerOfTwo cellCount = true) {fuel : Nat} (enough : searchFuel < fuel) :
    (∀ uninit t, Table.construct ⟨L, limit, limit_le, uninit⟩ bucketCount cellCount = some t →
      ∀ ops, Guarded (mapExec ⟨L, limit, limit_le, uninit⟩ fuel) (Quiet ⟨L, limit, limit_le, uninit⟩)
        t ops → BehavesAsMap ⟨L, limit, limit_le, uninit⟩ fuel (t : Table F H E) ops) ↔
      cellCount.toNat * F.cellSize < 2 ^ 32 := by
  constructor
  · intro behaves
    by_contra large
    obtain ⟨t, fresh, stale⟩ := construct_stale
      (P := ⟨L, limit, limit_le, fun _ _ _ => staleCell L default default⟩) bucketPower cellPower
      (Nat.not_lt.mp large) fun _ _ _ => rfl
    obtain ⟨quiet, misbehaves⟩ := finds_stale stale (Nat.lt_of_succ_lt enough)
    exact misbehaves (behaves _ t fresh _ quiet)
  · intro small uninit t fresh ops quiet
    obtain ⟨t', ok, refines⟩ :=
      (mapExec_simulates enough).run (Table.Refines.construct fresh small) quiet
    exact ⟨t', ok, refines.represents⟩

end Result

section Instances

/-- The DRAM table of `uint64_t` keys and values, with the default hash. -/
abbrev dramLayout : SlotLayout UInt64 UInt64 UInt64 UInt64 := flatLayout hashInt id

/-- The DRAM table on an allocator that hands out stale cells. -/
def staleDram : TableParams cellMeta128 UInt64 UInt64 UInt64 UInt64 where
  layout := dramLayout
  kCellCountLimit := kTurboCellCountLimit
  limit_le := le_rfl
  uninit _ _ _ := staleCell dramLayout 7 70

theorem fresh_dram_table_behaves_as_map_iff :
    (∀ uninit t, Table.construct ⟨dramLayout, kTurboCellCountLimit, le_rfl, uninit⟩ 4 8 = some t →
      ∀ ops, Guarded (mapExec ⟨dramLayout, kTurboCellCountLimit, le_rfl, uninit⟩ 17)
          (Quiet ⟨dramLayout, kTurboCellCountLimit, le_rfl, uninit⟩) t ops →
        BehavesAsMap ⟨dramLayout, kTurboCellCountLimit, le_rfl, uninit⟩ 17
          (t : Table cellMeta128 UInt64 UInt64) ops) ↔
      (8 : UInt32).toNat * cellMeta128.cellSize < 2 ^ 32 :=
  fresh_table_behaves_as_map_iff dramLayout le_rfl (by decide) (by decide) (by decide)

/-- 2^25 cells of 128 bytes: the product that `memset` is given is zero. -/
theorem fresh_dram_table_of_4GiB_finds_unput_key :
    ∃ t, Table.construct staleDram 1 33554432 = some t ∧
      Guarded (mapExec staleDram 17) (Quiet staleDram) t [.find 7] ∧
        ¬ BehavesAsMap staleDram 17 t [.find 7] := by
  obtain ⟨t, fresh, stale⟩ : ∃ t, Table.construct staleDram 1 33554432 = some t ∧
      ∀ i c, (t.buckets i).cells c = staleCell dramLayout 7 70 :=
    construct_stale (by decide +kernel) (by decide +kernel) (by decide) fun _ _ _ => rfl
  exact ⟨t, fresh, finds_stale stale (by decide)⟩

end Instances

end TurboHash
