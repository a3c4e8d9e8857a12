import TurboHash.PmemFlat

/-!
# The sizes of a new table

Both constructors allocate the cells of a bucket with a `size_t`, and zero them with a
length of 32 bits, which the persistent table writes back as an `int`. The initial
`capacity_` is a product of `uint32_t` too.
-/

namespace TurboHash

variable {F : CellFormat} {K V H E : Type}

/-- The size that `CellAllocator::Allocate` asks for. -/
def allocateSize (F : CellFormat) (cellCount : UInt32) : UInt64 :=
  cellCount.toUInt64 * UInt64.ofNat F.cellSize

/-- `rnd_cell_count * kCellSize`, the length of the `memset` over a bucket. -/
def memsetSize (F : CellFormat) (cellCount : UInt32) : UInt32 :=
  cellCount * UInt32.ofNat F.cellSize

/-- The new table is what the constructor means to build. -/
structure Table.SizesExact (P : TableParams F K V H E) (bucketCount cellCount : UInt32)
    (t : Table F H E) : Prop where
  allocated : (allocateSize F cellCount).toNat = cellCount.toNat * F.cellSize
  zeroed : (memsetSize F cellCount).toNat = (allocateSize F cellCount).toNat
  capacity : t.capacity.toNat = bucketCount.toNat * cellCount.toNat * (F.slotCount - 1)
  empty : ∀ i, ∀ c < (t.buckets i).cellCount, (t.buckets i).cells c = Table.zeroCell P.layout

/-! ## The products -/

section Products

variable {bucketCount cellCount : UInt32}

/-- The 64-bit size does not wrap. -/
theorem toNat_allocateSize : (allocateSize F cellCount).toNat = cellCount.toNat * F.cellSize := by
  have size : F.cellSize ≤ 2 ^ 16 := Nat.pow_le_pow_right two_pos F.cellSizeLeftShift_le
  have count := cellCount.toNat_lt
  have product : cellCount.toNat * F.cellSize ≤ 2 ^ 32 * 2 ^ 16 := Nat.mul_le_mul count.le size
  rw [allocateSize, UInt64.toNat_mul, UInt32.toNat_toUInt64, UInt64.toNat_ofNat_of_lt' (by
    change F.cellSize < 2 ^ 64
    omega)]
  exact Nat.mod_eq_of_lt (product.trans_lt (by decide))

theorem toNat_memsetSize :
    (memsetSize F cellCount).toNat = cellCount.toNat * F.cellSize % 2 ^ 32 := by
  have size : F.cellSize ≤ 2 ^ 16 := Nat.pow_le_pow_right two_pos F.cellSizeLeftShift_le
  rw [memsetSize, UInt32.toNat_mul, UInt32.toNat_ofNat_of_lt' (by
    change F.cellSize < 2 ^ 32
    omega)]

/-- The length of the `memset` is the size of the bucket below 4 GiB only. -/
theorem memsetSize_exact : (memsetSize F cellCount).toNat = (allocateSize F cellCount).toNat ↔
    cellCount.toNat * F.cellSize < 2 ^ 32 := by
  rw [toNat_memsetSize, toNat_allocateSize]
  constructor
  · intro same
    rw [← same]
    exact Nat.mod_lt _ (by decide)
  · exact Nat.mod_eq_of_lt

/-- The `int` that the persistent table writes back is the size below 2 GiB only. -/
theorem bucketSize_exact : (Pmem.bucketSize cellCount.toNat).toInt =
      ((allocateSize cellMeta256V2 cellCount).toNat : Int) ↔
    cellCount.toNat * cellMeta256V2.cellSize < 2 ^ 31 := by
  rw [toNat_allocateSize]
  constructor
  · intro same
    have bound := BitVec.toInt_lt (x := Pmem.bucketSize cellCount.toNat)
    rw [same] at bound
    exact_mod_cast bound
  · exact fun small => (Pmem.Setup.bucketSize_of_lt small).2

end Products

section Constructor

variable {P : TableParams F K V H E} {bucketCount cellCount : UInt32} {t : Table F H E}

theorem Table.construct_counts (fresh : Table.construct P bucketCount cellCount = some t) :
    bucketCount.toNat = t.bucketCount ∧ t.capacity.toNat =
      bucketCount.toNat * cellCount.toNat * (F.slotCount - 1) % 2 ^ 32 := by
  have slots := F.slotCount_eq
  have bits := F.bits_le
  rw [construct] at fresh
  split at fresh
  case isFalse => cases fresh
  case isTrue powers =>
    cases fresh
    refine ⟨toNat_of_isPowerOfTwo (Bool.and_eq_true_iff.mp powers).1, ?_⟩
    change (bucketCount * cellCount * UInt32.ofNat (F.slotCount - 1)).toUInt64.toNat = _
    rw [UInt32.toNat_toUInt64, UInt32.toNat_mul, UInt32.toNat_mul, UInt32.toNat_ofNat_of_lt' (by
      change F.slotCount - 1 < 2 ^ 32
      omega), Nat.mod_mul_mod]

/-- The DRAM table is as it should be if and only if a bucket takes less than 4 GiB and the
capacity fits into 32 bits. -/
theorem Table.sizesExact_iff (fresh : Table.construct P bucketCount cellCount = some t) :
    t.SizesExact P bucketCount cellCount ↔ cellCount.toNat * F.cellSize < 2 ^ 32 ∧
      bucketCount.toNat * cellCount.toNat * (F.slotCount - 1) < 2 ^ 32 := by
  obtain ⟨-, capacity⟩ := construct_counts fresh
  obtain ⟨power, buckets⟩ := construct_cases fresh
  constructor
  · intro exact
    refine ⟨memsetSize_exact.mp exact.zeroed, ?_⟩
    rw [← exact.capacity, capacity]
    exact Nat.mod_lt _ (by decide)
  · rintro ⟨small, fits⟩
    refine ⟨toNat_allocateSize, memsetSize_exact.mpr small, ?_, fun i c inside => ?_⟩
    · rw [capacity, Nat.mod_eq_of_lt fits]
    · rw [toNat_of_isPowerOfTwo power] at small
      rw [buckets] at inside ⊢
      exact zeroedCells_of_lt small inside

end Constructor

/-! ## The persistent table -/

namespace Pmem

open LineMemory

section Initialize

variable {S : Setup K V H E} {bucketCount cellCount : UInt32} {s : Machine S}

/-- The new persistent table is what `Initialize` means to build: what it has allocated is zeroed
and written back, no line more and none less, and every cell is empty, crash or not. -/
structure Machine.SizesExact (bucketCount cellCount : UInt32) (s : Machine S) : Prop where
  allocated : (allocateSize cellMeta256V2 cellCount).toNat =
    cellCount.toNat * cellMeta256V2.cellSize
  zeroed : (bucketSize cellCount.toNat).toNat = (allocateSize cellMeta256V2 cellCount).toNat
  flushed : (bucketSize cellCount.toNat).toInt = ((allocateSize cellMeta256V2 cellCount).toNat : Int)
  lines : ∀ r c line, line < 4 →
    memLines r (bucketSize cellCount.toNat).toInt (.cell r c line) = decide (c < cellCount.toNat)
  empty : ∀ i < bucketCount.toNat, ∀ c < cellCount.toNat,
    Surely (lineOf S.metaWord) s.memory (.ver (s.buckets_ i).address c) Version.zero

/-- The lines of the first bytes of a region are those of its cells. -/
theorem memLines_cells {count r c line : Nat} (inCell : line < 4) :
    memLines r (count * cellMeta256V2.cellSize : Nat) (.cell r c line) = decide (c < count) := by
  have size : cellMeta256V2.cellSize = 256 := rfl
  rw [memLines, size, cacheLineSize, decide_eq_decide]
  omega

/-- The persistent table is as it should be if and only if a bucket takes less than 2 GiB. -/
theorem Machine.sizesExact_iff (fresh : S.initTable bucketCount cellCount = some s) :
    s.SizesExact bucketCount cellCount ↔ cellCount.toNat * cellMeta256V2.cellSize < 2 ^ 31 := by
  constructor
  · exact fun exact => bucketSize_exact.mp exact.flushed
  · intro small
    obtain ⟨natural, int⟩ := Setup.bucketSize_of_lt small
    refine ⟨toNat_allocateSize, natural.trans toNat_allocateSize.symm,
      bucketSize_exact.mpr small, fun r c line inCell => ?_, fun i inside c less => ?_⟩
    · rw [int]
      exact memLines_cells inCell
    · unfold Setup.initTable at fresh
      split at fresh
      case isFalse => cases fresh
      case isTrue powers =>
        obtain ⟨buckets, cells⟩ := Bool.and_eq_true_iff.mp powers
        cases fresh
        rw [Table.toNat_of_isPowerOfTwo buckets] at inside
        rw [Table.toNat_of_isPowerOfTwo cells] at small less
        exact (Setup.initialized_initialMemory small _).cell i inside c less _ .ver

end Initialize

end Pmem

/-! ## The result -/

section Result

variable {K' V' H' E' : Type} {P : TableParams F K V H E} {S : Pmem.Setup K' V' H' E'}
  {bucketCount cellCount : UInt32} {t : Table F H E} {s : Pmem.Machine S}

/-- The sizes of the two new tables are exact under these conditions only. -/
theorem constructSizes_iff (fresh : Table.construct P bucketCount cellCount = some t)
    (freshPmem : S.initTable bucketCount cellCount = some s) :
    (t.SizesExact P bucketCount cellCount ↔ cellCount.toNat * F.cellSize < 2 ^ 32 ∧
      bucketCount.toNat * cellCount.toNat * (F.slotCount - 1) < 2 ^ 32) ∧
    (s.SizesExact bucketCount cellCount ↔
      cellCount.toNat * cellMeta256V2.cellSize < 2 ^ 31) :=
  ⟨Table.sizesExact_iff fresh, Pmem.Machine.sizesExact_iff freshPmem⟩

theorem constructSizes_iff_4x16 : ∃ s, (Pmem.wordSetup Pmem.usedHeap).initTable 4 16 = some s ∧
    dram4x16.SizesExact dram 4 16 ∧ s.SizesExact 4 16 := by
  refine ⟨_, if_pos (by decide), ?_⟩
  obtain ⟨dramIff, pmemIff⟩ := constructSizes_iff (S := Pmem.wordSetup Pmem.usedHeap)
    construct_dram4x16 (if_pos (by decide))
  exact ⟨dramIff.mpr (by decide), pmemIff.mpr (by decide)⟩

/-- A bucket of 4 GiB is not zeroed, a bucket of 2 GiB not written back, and the capacity of a
table of 2^31 cells wraps. -/
theorem not_constructSizes :
    (∃ t, Table.construct dram 1 33554432 = some t ∧ ¬ t.SizesExact dram 1 33554432) ∧
    (∃ t, Table.construct dram 65536 32768 = some t ∧ ¬ t.SizesExact dram 65536 32768) ∧
    ∃ s, (Pmem.wordSetup Pmem.usedHeap).initTable 1 8388608 = some s ∧
      ¬ s.SizesExact 1 8388608 := by
  refine ⟨⟨_, if_pos (by decide), fun exact => ?_⟩, ⟨_, if_pos (by decide), fun exact => ?_⟩,
    ⟨_, if_pos (by decide), fun exact => ?_⟩⟩
  · exact absurd (memsetSize_exact.mp exact.zeroed) (by decide)
  · exact absurd exact.capacity (by decide)
  · exact absurd (bucketSize_exact.mp exact.flushed) (by decide)

end Result

end TurboHash
