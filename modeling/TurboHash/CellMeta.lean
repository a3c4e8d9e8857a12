import TurboHash.BitSet

/-!
# Cells: the two cell formats and the version word

A cell is a version word, a vector of one-byte hash tags and an array of slots.
`turbo_hash.h` instantiates the table with `CellMeta128` (8 tags, slots 1..7),
`turbo_hash_pmem.h` with `CellMeta256V2` (16 tags, slots 2..15). The two classes
differ in constants only, so the model has one definition of each member, over
a `CellFormat` that carries those constants and what relates them.

`Version.WellFormed` is the occupancy invariant of one cell: a deleted slot is
occupied, only slots of the valid range are, and one slot is always left free
for an update.
-/

namespace TurboHash

/-- The constants of a cell class, with the relations between them that the
slot arithmetic of the table relies on. -/
structure CellFormat where
  /-- width of `bitmap_` and of `bitmap_deleted_` -/
  bits : Nat
  bitMapMask : BitVec bits
  startSlotPos : Nat
  slotMaxRange : Nat
  slotCount : Nat
  /-- the number of occupied slots `Full()` compares with -/
  fullCount : Nat
  /-- `CellSize() == 1 << CellSizeLeftShift` -/
  cellSizeLeftShift : Nat
  getLsbD_bitMapMask : ∀ i, bitMapMask.getLsbD i = decide (startSlotPos ≤ i ∧ i < bits)
  bits_eq : bits = slotMaxRange + 1
  slotCount_eq : startSlotPos + slotCount = bits
  fullCount_eq : fullCount + 1 = slotCount
  fullCount_pos : 0 < fullCount
  bits_le : bits ≤ 32
  cellSizeLeftShift_le : cellSizeLeftShift ≤ 16

/-- `CellSize`, in bytes. -/
def CellFormat.cellSize (F : CellFormat) : Nat := 2 ^ F.cellSizeLeftShift

/-- `CellMeta128`, the cell of the DRAM table. -/
def cellMeta128 : CellFormat where
  bits := 8
  bitMapMask := 0xFE
  startSlotPos := 1
  slotMaxRange := 7
  slotCount := 7
  fullCount := 6
  cellSizeLeftShift := 7
  getLsbD_bitMapMask i := by
    by_cases hi : i < 8
    · interval_cases i <;> rfl
    · rw [BitVec.getLsbD_of_ge _ _ (by omega)]
      simp [hi]
  bits_eq := rfl
  slotCount_eq := rfl
  fullCount_eq := rfl
  fullCount_pos := by decide
  bits_le := by decide
  cellSizeLeftShift_le := by decide

/-- `CellMeta256V2`, the cell of the persistent tables. -/
def cellMeta256V2 : CellFormat where
  bits := 16
  bitMapMask := 0xFFFC
  startSlotPos := 2
  slotMaxRange := 15
  slotCount := 14
  fullCount := 13
  cellSizeLeftShift := 8
  getLsbD_bitMapMask i := by
    by_cases hi : i < 16
    · interval_cases i <;> rfl
    · rw [BitVec.getLsbD_of_ge _ _ (by omega)]
      simp [hi]
  bits_eq := rfl
  slotCount_eq := rfl
  fullCount_eq := rfl
  fullCount_pos := by decide
  bits_le := by decide
  cellSizeLeftShift_le := by decide

/-- The 8-byte version word of a cell. -/
@[ext] structure Version (F : CellFormat) where
  bitmap : BitVec F.bits
  bitmapDeleted : BitVec F.bits
  seqNo : UInt32
deriving DecidableEq

namespace Version

variable {F : CellFormat}

/-- A zeroed version word. -/
def zero : Version F := ⟨0, 0, 0⟩

/-- `IsPosValid`. -/
def isPosValid (v : Version F) (i : Nat) : Bool :=
  v.bitmap &&& ~~~v.bitmapDeleted &&& BitVec.twoPow F.bits i != 0

/-- The mask `LoadVersion` applies to the stored word. -/
def masked (v : Version F) : Version F :=
  { v with
    bitmap := v.bitmap &&& F.bitMapMask
    bitmapDeleted := v.bitmapDeleted &&& F.bitMapMask }

/-- The version word `insertToSlotAndGC` commits for an insertion. -/
def insert (v : Version F) (slot : Nat) : Version F where
  bitmap := v.bitmap ||| BitVec.twoPow F.bits slot
  bitmapDeleted := v.bitmapDeleted &&& ~~~BitVec.twoPow F.bits slot
  seqNo := v.seqNo + 1

/-- The version word `insertToSlotAndGC` commits for an update: set the new
slot, toggle the old one. -/
def update (v : Version F) (slot oldSlot : Nat) : Version F where
  bitmap := (v.bitmap ||| BitVec.twoPow F.bits slot) ^^^ BitVec.twoPow F.bits oldSlot
  bitmapDeleted := v.bitmapDeleted &&& ~~~BitVec.twoPow F.bits slot
  seqNo := v.seqNo + 1

/-- The version word `deleteSlot` commits. -/
def delete (v : Version F) (slot : Nat) : Version F where
  bitmap := v.bitmap
  bitmapDeleted := v.bitmapDeleted ||| BitVec.twoPow F.bits slot
  seqNo := v.seqNo + 1

/-- The slot is occupied and not deleted: a reader may match it. -/
def live (v : Version F) (i : Nat) : Bool :=
  v.bitmap.getLsbD i && !v.bitmapDeleted.getLsbD i

theorem isPosValid_eq_live (v : Version F) (i : Nat) : v.isPosValid i = v.live i := by
  by_cases hi : i < F.bits
  · rw [Bool.eq_iff_iff, isPosValid, bne_iff_ne]
    constructor
    · intro nonzero
      by_contra dead
      apply nonzero
      refine BitVec.eq_of_getLsbD_eq fun j hj => ?_
      simp only [BitVec.getLsbD_and, BitVec.getLsbD_not, BitVec.getLsbD_twoPow, hj, decide_true,
        Bool.true_and]
      by_cases eq : i = j
      · subst eq
        simpa [live, hj] using dead
      · simp [eq]
    · intro alive zero
      have bit := congrArg (fun x => x.getLsbD i) zero
      obtain ⟨occupied, present⟩ := Bool.and_eq_true_iff.mp alive
      rw [BitVec.getLsbD_and, BitVec.getLsbD_and, BitVec.getLsbD_not, occupied, present,
        BitVec.getLsbD_twoPow] at bit
      simp [hi] at bit
  · have clear : v.bitmap.getLsbD i = false := BitVec.getLsbD_of_ge _ _ (by omega)
    have empty : BitVec.twoPow F.bits i = 0 :=
      BitVec.eq_of_getLsbD_eq fun j hj => by simp; omega
    simp [isPosValid, live, clear, empty]

/-- The occupancy invariant of one cell. -/
structure WellFormed (v : Version F) : Prop where
  deleted_occupied : ∀ i, v.bitmapDeleted.getLsbD i = true → v.bitmap.getLsbD i = true
  start_le : ∀ i, v.bitmap.getLsbD i = true → F.startSlotPos ≤ i
  count_le : popcount v.bitmap ≤ F.fullCount

theorem live_iff {v : Version F} {i : Nat} :
    v.live i = true ↔ v.bitmap.getLsbD i = true ∧ v.bitmapDeleted.getLsbD i = false := by
  simp [live]

theorem lt_bits_of_live {v : Version F} {i : Nat} (alive : v.live i = true) : i < F.bits :=
  BitVec.lt_of_getLsbD (live_iff.mp alive).1

theorem occupied_of_live {v : Version F} {i : Nat} (alive : v.live i = true) :
    v.bitmap.getLsbD i = true := (live_iff.mp alive).1

theorem WellFormed.zero : WellFormed (zero : Version F) where
  deleted_occupied i set := by simp [Version.zero] at set
  start_le i set := by simp [Version.zero] at set
  count_le := by simp [Version.zero, popcount_eq_zero.mpr]

@[simp] theorem live_zero (i : Nat) : (zero : Version F).live i = false := by
  simp [live, Version.zero]

/-- On a well-formed word the mask of `LoadVersion` changes nothing. -/
theorem WellFormed.masked_eq {v : Version F} (wf : v.WellFormed) : v.masked = v := by
  have bitmap : v.bitmap &&& F.bitMapMask = v.bitmap := by
    refine BitVec.eq_of_getLsbD_eq fun i hi => ?_
    rw [BitVec.getLsbD_and, F.getLsbD_bitMapMask]
    cases set : v.bitmap.getLsbD i
    · rfl
    · simp [wf.start_le i set, hi]
  have deleted : v.bitmapDeleted &&& F.bitMapMask = v.bitmapDeleted := by
    refine BitVec.eq_of_getLsbD_eq fun i hi => ?_
    rw [BitVec.getLsbD_and, F.getLsbD_bitMapMask]
    cases set : v.bitmapDeleted.getLsbD i
    · rfl
    · simp [wf.start_le i (wf.deleted_occupied i set), hi]
  rw [masked, bitmap, deleted]

section Steps

variable {v : Version F} {slot oldSlot i : Nat}

theorem live_insert (inside : slot < F.bits) :
    (v.insert slot).live i = (v.live i || decide (i = slot)) := by
  by_cases eq : i = slot
  · subst eq
    simp [live, insert, inside]
  · simp only [live, insert, BitVec.getLsbD_or, BitVec.getLsbD_and, BitVec.getLsbD_not,
      BitVec.getLsbD_twoPow, Ne.symm eq, eq, decide_false, Bool.and_false, Bool.or_false,
      Bool.not_false, Bool.and_true]
    cases set : v.bitmap.getLsbD i
    · rfl
    · simp [BitVec.lt_of_getLsbD set]

theorem live_update (alive : v.live oldSlot = true) (inside : slot < F.bits) :
    (v.update slot oldSlot).live i =
      ((v.live i || decide (i = slot)) && decide (i ≠ oldSlot)) := by
  obtain ⟨occupied, present⟩ := live_iff.mp alive
  have oldInside : oldSlot < F.bits := BitVec.lt_of_getLsbD occupied
  by_cases eqOld : i = oldSlot
  · subst eqOld
    simp [live, update, occupied, oldInside]
  · have occupiedEq : (v.update slot oldSlot).live i = (v.insert slot).live i := by
      simp [live, update, insert, Ne.symm eqOld]
    rw [occupiedEq, live_insert inside]
    simp [eqOld]

theorem live_delete (inside : slot < F.bits) :
    (v.delete slot).live i = (v.live i && decide (i ≠ slot)) := by
  by_cases eq : i = slot
  · subst eq
    simp [live, delete, inside]
  · simp [live, delete, eq, Ne.symm eq]

/-- A slot an insertion may take: a free slot of a cell that is not full, or a
deleted slot. -/
def Insertable (v : Version F) (slot : Nat) : Prop :=
  F.startSlotPos ≤ slot ∧ slot < F.bits ∧
    (v.bitmap.getLsbD slot = false ∧ popcount v.bitmap < F.fullCount ∨
      v.bitmapDeleted.getLsbD slot = true)

/-- A slot an update may take: any free slot of the valid range. -/
def Backup (v : Version F) (slot : Nat) : Prop :=
  F.startSlotPos ≤ slot ∧ slot < F.bits ∧ v.bitmap.getLsbD slot = false

theorem Insertable.not_live (free : v.Insertable slot) : v.live slot = false := by
  rcases free.2.2 with ⟨clear, -⟩ | deleted
  · simp [live, clear]
  · simp [live, deleted]

theorem Backup.not_live (free : v.Backup slot) : v.live slot = false := by
  simp [live, free.2.2]

theorem or_twoPow_of_set (x : BitVec F.bits) (set : x.getLsbD i = true) :
    x ||| BitVec.twoPow F.bits i = x := by
  refine BitVec.eq_of_getLsbD_eq fun j hj => ?_
  rw [BitVec.getLsbD_or, BitVec.getLsbD_twoPow]
  by_cases eq : i = j
  · subst eq
    simp [set]
  · simp [eq]

/-- An insertion fills a free slot, or takes a deleted one and leaves the
number of occupied slots as it is. -/
theorem popcount_insert (wf : v.WellFormed) (free : v.Insertable slot) :
    popcount (v.insert slot).bitmap = popcount v.bitmap + 1 ∧ popcount v.bitmap < F.fullCount ∨
      popcount (v.insert slot).bitmap = popcount v.bitmap := by
  rcases free with ⟨-, inside, ⟨clear, room⟩ | deleted⟩
  · exact Or.inl ⟨popcount_or_twoPow inside clear, room⟩
  · right
    rw [insert, or_twoPow_of_set _ (wf.deleted_occupied slot deleted)]

theorem popcount_update (alive : v.live oldSlot = true) (free : v.Backup slot) :
    popcount (v.update slot oldSlot).bitmap = popcount v.bitmap := by
  obtain ⟨-, inside, clear⟩ := free
  obtain ⟨occupied, -⟩ := live_iff.mp alive
  have oldSet : (v.bitmap ||| BitVec.twoPow F.bits slot).getLsbD oldSlot = true := by
    simp [occupied]
  have added := popcount_or_twoPow inside clear
  have removed := popcount_xor_twoPow (BitVec.lt_of_getLsbD occupied) oldSet
  rw [update]
  dsimp only
  omega

theorem WellFormed.insert (wf : v.WellFormed) (free : v.Insertable slot) :
    (v.insert slot).WellFormed where
  deleted_occupied i set := by
    simp only [Version.insert, BitVec.getLsbD_and, Bool.and_eq_true] at set
    simp [Version.insert, wf.deleted_occupied i set.1]
  start_le i set := by
    simp only [Version.insert, BitVec.getLsbD_or, BitVec.getLsbD_twoPow, Bool.or_eq_true,
      Bool.and_eq_true, decide_eq_true_eq] at set
    rcases set with set | ⟨-, rfl⟩
    · exact wf.start_le i set
    · exact free.1
  count_le := by
    have := wf.count_le
    rcases popcount_insert wf free with ⟨count, room⟩ | count <;> omega

theorem WellFormed.update (wf : v.WellFormed) (alive : v.live oldSlot = true)
    (free : v.Backup slot) : (v.update slot oldSlot).WellFormed where
  deleted_occupied i set := by
    simp only [Version.update, BitVec.getLsbD_and, Bool.and_eq_true] at set
    have notOld : oldSlot ≠ i := by
      rintro rfl
      have := (live_iff.mp alive).2
      rw [this] at set
      cases set.1
    simp [Version.update, wf.deleted_occupied i set.1, notOld]
  start_le i set := by
    simp only [Version.update, BitVec.getLsbD_xor, BitVec.getLsbD_or, BitVec.getLsbD_twoPow] at set
    by_cases eqSlot : slot = i
    · exact eqSlot ▸ free.1
    by_cases eqOld : oldSlot = i
    · exact eqOld ▸ wf.start_le oldSlot (live_iff.mp alive).1
    · simp [eqSlot, eqOld] at set
      exact wf.start_le i set
  count_le := by
    rw [popcount_update alive free]
    exact wf.count_le

theorem WellFormed.delete (wf : v.WellFormed) (occupied : v.bitmap.getLsbD slot = true) :
    (v.delete slot).WellFormed where
  deleted_occupied i set := by
    simp only [Version.delete, BitVec.getLsbD_or, BitVec.getLsbD_twoPow, Bool.or_eq_true,
      Bool.and_eq_true, decide_eq_true_eq] at set
    rcases set with set | ⟨-, rfl⟩
    · exact wf.deleted_occupied i set
    · exact occupied
  start_le := wf.start_le
  count_le := wf.count_le

end Steps

end Version

/-! ## `CellMeta`: the meta part of a cell as a reader has loaded it -/

/-- A loaded cell meta: the tag vector and the version word. -/
structure CellMeta (F : CellFormat) where
  tags : Nat → UInt8
  ver : Version F

namespace CellMeta

variable {F : CellFormat}

/-- The bytes of the tag vector that equal `h2`, as a bit mask. -/
def cmpeqMask (m : CellMeta F) (h2 : UInt8) : BitVec F.bits :=
  movemask (fun i => m.tags i == h2) F.bits

/-- `MatchBitSet`. -/
def matchBitSet (m : CellMeta F) (h2 : UInt8) : BitSet :=
  ⟨(m.cmpeqMask h2 &&& m.ver.bitmap &&& ~~~m.ver.bitmapDeleted &&& F.bitMapMask).setWidth 32⟩

/-- `EraseBitSet`. -/
def eraseBitSet (m : CellMeta F) : BitSet :=
  ⟨(m.ver.bitmapDeleted &&& F.bitMapMask).setWidth 32⟩

/-- `BackupBitSet`. -/
def backupBitSet (m : CellMeta F) : BitSet :=
  ⟨(~~~m.ver.bitmap &&& F.bitMapMask).setWidth 32⟩

/-- `ValidBitSet`. -/
def validBitSet (m : CellMeta F) : BitSet :=
  ⟨(m.ver.bitmap &&& ~~~m.ver.bitmapDeleted &&& F.bitMapMask).setWidth 32⟩

/-- `Full`: one slot is left. -/
def full (m : CellMeta F) : Bool :=
  popcount (m.ver.bitmap &&& F.bitMapMask) == F.fullCount

section BitSets

variable {m : CellMeta F} {i : Nat} {h2 : UInt8}

theorem getLsbD_matchBitSet (wf : m.ver.WellFormed) :
    (m.matchBitSet h2).bits.getLsbD i = true ↔ m.ver.live i = true ∧ m.tags i = h2 := by
  have wide := F.bits_le
  simp only [matchBitSet, cmpeqMask, BitVec.getLsbD_setWidth, BitVec.getLsbD_and,
    BitVec.getLsbD_not, F.getLsbD_bitMapMask, getLsbD_movemask, Version.live,
    Bool.and_eq_true, decide_eq_true_eq, beq_iff_eq]
  constructor
  · rintro ⟨-, ⟨⟨⟨⟨tag, -⟩, -⟩, occupied⟩, -, present⟩, -, hi⟩
    exact ⟨⟨occupied, present⟩, tag⟩
  · rintro ⟨⟨occupied, present⟩, tag⟩
    have hi : i < F.bits := BitVec.lt_of_getLsbD occupied
    exact ⟨by omega, ⟨⟨⟨⟨tag, hi⟩, hi⟩, occupied⟩, hi, present⟩, wf.start_le i occupied, hi⟩

theorem getLsbD_validBitSet (wf : m.ver.WellFormed) :
    m.validBitSet.bits.getLsbD i = m.ver.live i := by
  have wide := F.bits_le
  rw [Bool.eq_iff_iff]
  simp only [validBitSet, BitVec.getLsbD_setWidth, BitVec.getLsbD_and, BitVec.getLsbD_not,
    F.getLsbD_bitMapMask, Version.live, Bool.and_eq_true, decide_eq_true_eq]
  constructor
  · rintro ⟨-, ⟨occupied, -, present⟩, -⟩
    exact ⟨occupied, present⟩
  · rintro ⟨occupied, present⟩
    have hi : i < F.bits := BitVec.lt_of_getLsbD occupied
    exact ⟨by omega, ⟨occupied, hi, present⟩, wf.start_le i occupied, hi⟩

theorem getLsbD_eraseBitSet (wf : m.ver.WellFormed) :
    m.eraseBitSet.bits.getLsbD i = m.ver.bitmapDeleted.getLsbD i := by
  have wide := F.bits_le
  rw [Bool.eq_iff_iff]
  simp only [eraseBitSet, BitVec.getLsbD_setWidth, BitVec.getLsbD_and, F.getLsbD_bitMapMask,
    Bool.and_eq_true, decide_eq_true_eq]
  constructor
  · exact fun h => h.2.1
  · intro deleted
    have occupied := wf.deleted_occupied i deleted
    have hi : i < F.bits := BitVec.lt_of_getLsbD occupied
    exact ⟨by omega, deleted, wf.start_le i occupied, hi⟩

theorem getLsbD_backupBitSet :
    m.backupBitSet.bits.getLsbD i = true ↔ m.ver.Backup i := by
  have wide := F.bits_le
  simp only [backupBitSet, BitVec.getLsbD_setWidth, BitVec.getLsbD_and, BitVec.getLsbD_not,
    F.getLsbD_bitMapMask, Version.Backup, Bool.and_eq_true, decide_eq_true_eq,
    Bool.not_eq_true']
  constructor
  · rintro ⟨-, ⟨hi, clear⟩, start, -⟩
    exact ⟨start, hi, clear⟩
  · rintro ⟨start, hi, clear⟩
    exact ⟨by omega, ⟨hi, clear⟩, start, hi⟩

theorem popcount_bitMapMask : popcount F.bitMapMask = F.slotCount := by
  rw [popcount_eq_card]
  have slots : ((Finset.range F.bits).filter fun i => F.bitMapMask.getLsbD i = true) =
      Finset.Ico F.startSlotPos F.bits := by
    ext i
    simp only [Finset.mem_filter, Finset.mem_range, F.getLsbD_bitMapMask, Finset.mem_Ico,
      decide_eq_true_eq]
    tauto
  rw [slots, Nat.card_Ico]
  have := F.slotCount_eq
  omega

/-- One slot is always free, so the backup bit set is never empty. -/
theorem backupBitSet_toBool (wf : m.ver.WellFormed) : m.backupBitSet.toBool = true := by
  have room : popcount m.ver.bitmap < popcount F.bitMapMask := by
    have count := wf.count_le
    have := F.fullCount_eq
    rw [popcount_bitMapMask]
    omega
  obtain ⟨i, hi, clear, valid⟩ := exists_clear_of_popcount_lt room
  rw [F.getLsbD_bitMapMask, decide_eq_true_eq] at valid
  exact BitSet.toBool_eq_true.mpr ⟨i, getLsbD_backupBitSet.mpr ⟨valid.1, hi, clear⟩⟩

theorem backup_deref (wf : m.ver.WellFormed) : m.ver.Backup m.backupBitSet.deref :=
  getLsbD_backupBitSet.mp (BitSet.getLsbD_deref (backupBitSet_toBool wf))

theorem full_iff (wf : m.ver.WellFormed) : m.full = true ↔ popcount m.ver.bitmap = F.fullCount := by
  rw [full, beq_iff_eq]
  have masked : m.ver.bitmap &&& F.bitMapMask = m.ver.bitmap :=
    congrArg Version.bitmap wf.masked_eq
  rw [masked]

/-- In a cell that is not full the lowest free slot can take an insertion. -/
theorem insertable_backup_deref (wf : m.ver.WellFormed) (notFull : m.full = false) :
    m.ver.Insertable m.backupBitSet.deref := by
  obtain ⟨start, inside, clear⟩ := backup_deref wf
  have count := wf.count_le
  have room : popcount m.ver.bitmap ≠ F.fullCount := fun eq => by
    rw [(full_iff wf).mpr eq] at notFull
    cases notFull
  exact ⟨start, inside, Or.inl ⟨clear, by omega⟩⟩

/-- A deleted slot can take an insertion. -/
theorem insertable_erase_deref (wf : m.ver.WellFormed)
    (tombstone : m.eraseBitSet.toBool = true) : m.ver.Insertable m.eraseBitSet.deref := by
  have deleted := BitSet.getLsbD_deref tombstone
  rw [getLsbD_eraseBitSet wf] at deleted
  have occupied := wf.deleted_occupied _ deleted
  exact ⟨wf.start_le _ occupied, BitVec.lt_of_getLsbD occupied, Or.inr deleted⟩

end BitSets

end CellMeta

end TurboHash
