import TurboHash.Rehash

/-!
# The bucket iterator enumerates the live slots

`while (iter.valid ()) { *iter; ++iter; }` visits the cells in order and, in each
cell, its valid slots from the lowest to the highest, whatever the cells contain.
-/

namespace TurboHash

variable {F : CellFormat} {H E : Type}

/-- What the iterator yields for slot `i` of cell `c`. -/
def infoAt (bi : Nat) (cells : Nat → Cell F H E) (c i : Nat) : InfoPair H E :=
  let slot := (cells c).slots i
  ⟨⟨bi, c, i, slot.h1, (cells c).tags i, false, 0⟩, slot⟩

/-- The live slots of the cell `c`. -/
def cellInfos (bi : Nat) (cells : Nat → Cell F H E) (c : Nat) : List (InfoPair H E) :=
  (cells c).loadMeta.validBitSet.toList.map (infoAt bi cells c)

/-- The live slots of a bucket, in the order of cells and slots. -/
def Bucket.liveInfos (bi : Nat) (b : Bucket F H E) : List (InfoPair H E) :=
  (List.range b.cellCount).flatMap (cellInfos bi b.cells)

theorem CellMeta.lt_of_validBitSet {m : CellMeta F} {i : Nat}
    (set : m.validBitSet.bits.getLsbD i = true) : i < F.bits := by
  rw [validBitSet, BitVec.getLsbD_setWidth, Bool.and_eq_true] at set
  exact BitVec.lt_of_getLsbD set.2

theorem length_cellInfos_le (bi : Nat) (cells : Nat → Cell F H E) (c : Nat) :
    (cellInfos bi cells c).length ≤ F.bits := by
  rw [cellInfos, List.length_map]
  exact BitSet.length_toList_le fun i set => CellMeta.lt_of_validBitSet set

theorem length_flatMap_cellInfos_le (bi n : Nat) (cells : Nat → Cell F H E) :
    ((List.range n).flatMap (cellInfos bi cells)).length ≤ n * F.bits := by
  rw [List.length_flatMap]
  simpa using List.sum_le_card_nsmul ((List.range n).map fun c =>
    (cellInfos bi cells c).length) F.bits (by simp [length_cellInfos_le])

namespace BucketIterator

variable {it : BucketIterator F H E}

/-- What the iterator has not yet yielded. -/
def remaining (it : BucketIterator F H E) : List (InfoPair H E) :=
  it.bitmap.toList.map (infoAt it.bi it.cells it.cellI) ++
    (List.range' (it.cellI + 1) (it.cellCount - (it.cellI + 1))).flatMap
      (cellInfos it.bi it.cells)

/-- The iterator stands on a valid slot, or behind the last cell. -/
def Settled (it : BucketIterator F H E) : Prop :=
  it.valid = true ∨ it.cellI = it.cellCount ∧ it.bitmap.toBool = false

theorem valid_iff : it.valid = true ↔ it.cellI < it.cellCount ∧ it.bitmap.toBool = true := by
  rw [valid, Bool.and_eq_true, decide_eq_true_eq]

theorem toNextValidBitMap_go_cellCount (left : Nat) (it : BucketIterator F H E) :
    (toNextValidBitMap.go left it).cellCount = it.cellCount := by
  induction left generalizing it with
  | zero => rfl
  | succ left ih =>
    rw [toNextValidBitMap.go]
    dsimp only
    split_ifs
    · rfl
    · exact ih _
    · rfl

theorem start_cellCount (bi : Nat) (cells : Nat → Cell F H E) (count : Nat) :
    (start bi cells count).cellCount = count := by
  rw [start]
  dsimp only
  split_ifs
  · rfl
  · exact toNextValidBitMap_go_cellCount _ _

/-- Stepping into the next cell loses nothing. -/
theorem remaining_nextCell (inside : it.cellI + 1 < it.cellCount)
    (empty : it.bitmap.toBool = false) :
    remaining { it with
      cellI := it.cellI + 1
      bitmap := (it.cells (it.cellI + 1)).loadMeta.validBitSet } = it.remaining := by
  have cells : it.cellCount - (it.cellI + 1) = it.cellCount - (it.cellI + 1 + 1) + 1 := by omega
  rw [remaining, remaining, BitSet.toList_of_not_toBool empty, cells, List.range'_succ,
    List.flatMap_cons]
  rfl

theorem toNextValidBitMap_go {left : Nat} (count : it.cellI + left = it.cellCount)
    (inside : it.cellI < it.cellCount) (empty : it.bitmap.toBool = false) :
    (toNextValidBitMap.go left it).remaining = it.remaining ∧
      (toNextValidBitMap.go left it).Settled := by
  induction left generalizing it with
  | zero => omega
  | succ left ih =>
    rw [toNextValidBitMap.go]
    simp only [empty, Bool.not_false, Bool.true_and, decide_eq_true_eq, inside, if_true]
    split
    case isTrue last =>
      refine ⟨?_, Or.inr ⟨last, empty⟩⟩
      simp only [remaining, BitSet.toList_of_not_toBool empty, List.map_nil, List.nil_append]
      rw [last, Nat.sub_self, Nat.sub_eq_zero_of_le (Nat.le_succ _)]
      rfl
    case isFalse more =>
      have within : it.cellI + 1 < it.cellCount := by omega
      rw [← remaining_nextCell within empty]
      generalize eq : ({ it with
        cellI := it.cellI + 1
        bitmap := (it.cells (it.cellI + 1)).loadMeta.validBitSet } : BucketIterator F H E) = it'
      have same : it'.cellI = it.cellI + 1 ∧ it'.cellCount = it.cellCount := by
        rw [← eq]
        exact ⟨rfl, rfl⟩
      cases occupied : it'.bitmap.toBool with
      | false => exact ih (by omega) (by omega) occupied
      | true =>
        have stays : toNextValidBitMap.go left it' = it' := by
          cases left with
          | zero => rfl
          | succ left => simp [toNextValidBitMap.go, occupied]
        rw [stays]
        exact ⟨rfl, Or.inl (valid_iff.mpr ⟨by omega, occupied⟩)⟩

theorem toNextValidBitMap_spec (it : BucketIterator F H E) (inside : it.cellI < it.cellCount)
    (empty : it.bitmap.toBool = false) :
    it.toNextValidBitMap.remaining = it.remaining ∧ it.toNextValidBitMap.Settled :=
  toNextValidBitMap_go (by omega) inside empty

/-- The constructor stands on the first live slot. -/
theorem start_spec (bi : Nat) (cells : Nat → Cell F H E) {count : Nat} (positive : 0 < count) :
    (start bi cells count).remaining = (List.range count).flatMap (cellInfos bi cells) ∧
      (start bi cells count).Settled := by
  obtain ⟨rest, rfl⟩ := Nat.exists_eq_succ_of_ne_zero (Nat.ne_of_gt positive)
  have all : (⟨bi, rest + 1, 0, (cells 0).loadMeta.validBitSet, cells⟩ :
      BucketIterator F H E).remaining = (List.range (rest + 1)).flatMap (cellInfos bi cells) := by
    rw [List.range_eq_range', List.range'_succ, List.flatMap_cons]
    rfl
  rw [start]
  dsimp only
  split
  case isTrue occupied => exact ⟨all, Or.inl (valid_iff.mpr ⟨positive, occupied⟩)⟩
  case isFalse empty =>
    rw [Bool.not_eq_true] at empty
    obtain ⟨same, settled⟩ := toNextValidBitMap_spec ⟨bi, rest + 1, 0, _, cells⟩ positive
      empty
    exact ⟨same.trans all, settled⟩

/-- `*iter; ++iter` takes the first of the remaining slots. -/
theorem next_spec (valid : it.valid = true) :
    it.remaining = it.deref :: it.next.remaining ∧ it.next.Settled := by
  obtain ⟨inside, occupied⟩ := valid_iff.mp valid
  have first : it.remaining = it.deref :: remaining { it with bitmap := it.bitmap.next } := by
    rw [remaining, BitSet.toList_of_toBool occupied]
    rfl
  rw [next]
  dsimp only
  split
  case isTrue more => exact ⟨first, Or.inl (valid_iff.mpr ⟨inside, more⟩)⟩
  case isFalse last =>
    rw [Bool.not_eq_true] at last
    obtain ⟨same, settled⟩ :=
      toNextValidBitMap_spec { it with bitmap := it.bitmap.next } inside last
    exact ⟨same ▸ first, settled⟩

theorem toList_go {rounds : Nat} (settled : it.Settled) (enough : it.remaining.length ≤ rounds) :
    toList.go rounds it = it.remaining := by
  induction rounds generalizing it with
  | zero => exact (List.eq_nil_of_length_eq_zero (Nat.le_zero.mp enough)).symm
  | succ rounds ih =>
    rw [toList.go]
    split
    case isTrue valid =>
      obtain ⟨first, settled'⟩ := next_spec valid
      rw [first, List.length_cons] at enough
      rw [first, ih settled' (by omega)]
    case isFalse done =>
      obtain ⟨behind, empty⟩ := settled.resolve_left done
      rw [remaining, BitSet.toList_of_not_toBool empty, behind,
        Nat.sub_eq_zero_of_le (Nat.le_succ _)]
      rfl

end BucketIterator

/-- The iterator yields the live slots of the bucket. -/
theorem Bucket.iterate_eq_liveInfos (bi : Nat) (b : Bucket F H E) :
    (BucketIterator.start bi b.cells b.cellCount).toList = b.liveInfos bi := by
  obtain ⟨all, settled⟩ := BucketIterator.start_spec bi b.cells b.cellCount_pos
  have bounded : (b.liveInfos bi).length ≤ b.cellCount * F.bits :=
    length_flatMap_cellInfos_le bi b.cellCount b.cells
  rw [BucketIterator.toList, BucketIterator.start_cellCount,
    BucketIterator.toList_go settled (all ▸ bounded), all]
  rfl

end TurboHash
