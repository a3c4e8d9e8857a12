import TurboHash.Iteration

/-!
# The bucket iterator at its machine widths

The iterator keeps the cell count and the cell index in 32 bits, and computes the
offset of a cell from them in 32 bits too. So it walks the cells of
`BucketIterator`, but behind 2^32 bytes it reads the cells at the start of the
bucket again (`toList_eq`). It enumerates the live slots of a bucket if and only
if the cells it reads have the live slots of the cells it names
(`enumerates_iff`).
-/

namespace TurboHash

variable {F : CellFormat} {H E : Type}

/-- The part with the number `c` of lists that are numbered by their elements. -/
theorem filter_flatMap_range {α : Type} {list : Nat → List α} {number : α → Nat}
    {n : Nat} (own : ∀ d < n, ∀ a ∈ list d, number a = d) (c : Nat) :
    ((List.range n).flatMap list).filter (fun a => number a == c) =
      if c < n then list c else [] := by
  induction n with
  | zero => rfl
  | succ n ih =>
    replace ih := ih fun d less => own d (less.trans n.lt_succ_self)
    replace own := own n n.lt_succ_self
    rw [List.range_succ, List.flatMap_append, List.filter_append, ih, List.flatMap_singleton]
    by_cases last : n = c
    · subst last
      rw [if_neg (Nat.lt_irrefl n), if_pos n.lt_succ_self, List.nil_append, List.filter_eq_self]
      exact fun a mem => beq_iff_eq.mpr (own a mem)
    · have none : (list n).filter (fun a => number a == c) = [] :=
        List.filter_eq_nil_iff.mpr fun a mem => by simpa [own a mem] using last
      rw [none, List.append_nil]
      congr 1
      exact propext ⟨fun less => by omega, fun less => by omega⟩

/-- The number of cells that a 32-bit offset tells apart. -/
def CellFormat.offsetCells (F : CellFormat) : Nat := 2 ^ (32 - F.cellSizeLeftShift)

/-- The memory behind `bucket_addr_`; only the cells of the bucket can be read. -/
structure BucketMemory (F : CellFormat) (H E : Type) where
  cellCount : Nat
  cells : Nat → Cell F H E

namespace BucketMemory

/-- The cell at `bucket_addr_ + offset`. -/
def cellAt (m : BucketMemory F H E) (offset : UInt32) : Option (Cell F H E) :=
  let c := offset.toNat / F.cellSize
  if c < m.cellCount then some (m.cells c) else none

/-- The cells as 32-bit offsets reach them. -/
def reached (m : BucketMemory F H E) (c : Nat) : Cell F H E := m.cells (c % F.offsetCells)

/-- The live slots in the order of cells and slots, each with its H1, tag and entry. -/
def liveEntries (m : BucketMemory F H E) (bi : UInt32) : List (InfoPair H E) :=
  (List.range m.cellCount).flatMap fun c =>
    ((List.range' F.startSlotPos F.slotCount).filter (m.cells c).ver.live).map
      (infoAt bi.toNat m.cells c)

end BucketMemory

/-- `BucketIterator`, with the widths of its members. -/
structure WordIterator where
  bi : UInt32
  cellCount : UInt32
  cellI : UInt32
  bitmap : BitSet

namespace WordIterator

section Loops

variable (m : BucketMemory F H E)

/-- `toNextValidBitMap`; the rounds are the cells that are left. -/
def toNextValidBitMap (it : WordIterator) : Option WordIterator :=
  go (it.cellCount.toNat - it.cellI.toNat) it
where
  go : Nat → WordIterator → Option WordIterator
    | 0, it => some it
    | left + 1, it =>
      if !it.bitmap.toBool && decide (it.cellI < it.cellCount) then
        let it := { it with cellI := it.cellI + 1 }
        if it.cellI = it.cellCount then some it
        else do
          let cell ← m.cellAt (it.cellI <<< UInt32.ofNat F.cellSizeLeftShift)
          go left { it with bitmap := cell.loadMeta.validBitSet }
      else some it

/-- The constructor; `cell_count` is a `size_t`, `cell_count_` has 32 bits. -/
def start (bi : UInt32) : Option WordIterator := do
  let cell ← m.cellAt 0
  let it : WordIterator := ⟨bi, UInt32.ofNat m.cellCount, 0, cell.loadMeta.validBitSet⟩
  if it.bitmap.toBool then some it else it.toNextValidBitMap m

/-- `valid`. -/
def valid (it : WordIterator) : Bool :=
  decide (it.cellI < it.cellCount) && it.bitmap.toBool

/-- `operator++`. -/
def next (it : WordIterator) : Option WordIterator :=
  let it := { it with bitmap := it.bitmap.next }
  if it.bitmap.toBool then some it else it.toNextValidBitMap m

/-- `operator*`. -/
def deref (it : WordIterator) : Option (InfoPair H E) := do
  let slotIndex := it.bitmap.deref
  let cell ← m.cellAt (it.cellI * UInt32.ofNat F.cellSize)
  let slot := cell.slots slotIndex
  return ⟨⟨it.bi.toNat, it.cellI.toNat, slotIndex, slot.h1, cell.tags slotIndex, false, 0⟩, slot⟩

/-- The loop `while (iter.valid ()) { *iter; ++iter; }`, for a number of rounds. -/
def walk : Nat → WordIterator → Option (List (InfoPair H E))
  | 0, it => if it.valid then none else some []
  | rounds + 1, it =>
    if it.valid then do
      let info ← it.deref m
      let it ← it.next m
      let later ← walk rounds it
      return info :: later
    else some []

/-- The loop from the constructor on; a bucket has at most `F.bits` slots in each cell, which
bounds the rounds. -/
def toList (bi : UInt32) : Option (List (InfoPair H E)) :=
  (start m bi).bind (walk m (m.cellCount * F.bits))

end Loops

/-- The loop ends, has read cells of the bucket only, and has yielded the live slots. -/
def Enumerates (m : BucketMemory F H E) (bi : UInt32) : Prop :=
  ∃ rounds, (start m bi).bind (walk m rounds) = some (m.liveEntries bi)

/-! ## The cells that are read -/

section Offsets

variable {m : BucketMemory F H E} {i : UInt32}

theorem toNat_mul_cellSize (i : UInt32) :
    (i * UInt32.ofNat F.cellSize).toNat / F.cellSize = i.toNat % F.offsetCells := by
  have small := F.cellSizeLeftShift_le
  have size : F.cellSize < 2 ^ 32 := Nat.pow_lt_pow_right one_lt_two (by omega)
  have word : 2 ^ 32 = F.offsetCells * F.cellSize := by
    rw [CellFormat.offsetCells, CellFormat.cellSize, ← Nat.pow_add, Nat.sub_add_cancel (by omega)]
  have positive : 0 < F.cellSize := Nat.two_pow_pos _
  rw [UInt32.toNat_mul, UInt32.toNat_ofNat_of_lt' size, word, Nat.mul_mod_mul_right,
    Nat.mul_div_cancel _ positive]

theorem shiftLeft_eq_mul (i : UInt32) :
    i <<< UInt32.ofNat F.cellSizeLeftShift = i * UInt32.ofNat F.cellSize := by
  have small := F.cellSizeLeftShift_le
  have size : F.cellSize < 2 ^ 32 := Nat.pow_lt_pow_right one_lt_two (by omega)
  refine UInt32.toNat_inj.mp ?_
  rw [UInt32.toNat_shiftLeft, UInt32.toNat_mul, UInt32.toNat_ofNat_of_lt' size,
    UInt32.toNat_ofNat_of_lt' (show F.cellSizeLeftShift < 2 ^ 32 by omega),
    Nat.mod_eq_of_lt (show F.cellSizeLeftShift < 32 by omega), Nat.shiftLeft_eq]
  rfl

/-- The wrapped offset stays inside of the bucket. -/
theorem cellAt_mul (inside : i.toNat < m.cellCount) :
    m.cellAt (i * UInt32.ofNat F.cellSize) = some (m.reached i.toNat) := by
  have wrapped : i.toNat % F.offsetCells < m.cellCount := (Nat.mod_le _ _).trans_lt inside
  simp only [BucketMemory.cellAt, toNat_mul_cellSize, wrapped, if_true, BucketMemory.reached]

theorem cellAt_zero (positive : 0 < m.cellCount) : m.cellAt 0 = some (m.reached 0) := by
  simp [BucketMemory.cellAt, BucketMemory.reached, positive]

end Offsets

/-! ## The walk over the cells that are reached -/

section Walk

variable (m : BucketMemory F H E) {it : WordIterator}

/-- The iterator over the cells that the offsets reach. -/
def view (it : WordIterator) : BucketIterator F H E :=
  ⟨it.bi.toNat, it.cellCount.toNat, it.cellI.toNat, it.bitmap, m.reached⟩

theorem valid_view (it : WordIterator) : (it.view m).valid = it.valid := by
  rw [Bool.eq_iff_iff, BucketIterator.valid_iff, valid, Bool.and_eq_true, decide_eq_true_eq,
    UInt32.lt_iff_toNat_lt]
  rfl

variable {m}

theorem toNextValidBitMap_go {left : Nat} (inside : it.cellCount.toNat ≤ m.cellCount) :
    ∃ it', toNextValidBitMap.go m left it = some it' ∧ it'.cellCount = it.cellCount ∧
      it'.view m = BucketIterator.toNextValidBitMap.go left (it.view m) := by
  induction left generalizing it with
  | zero => exact ⟨it, rfl, rfl, rfl⟩
  | succ left ih =>
    have guard : (!(it.view m).bitmap.toBool &&
        decide ((it.view m).cellI < (it.view m).cellCount)) =
        (!it.bitmap.toBool && decide (it.cellI < it.cellCount)) := by
      rw [Bool.eq_iff_iff, Bool.and_eq_true, Bool.and_eq_true, decide_eq_true_eq,
        decide_eq_true_eq, UInt32.lt_iff_toNat_lt]
      rfl
    rw [toNextValidBitMap.go, BucketIterator.toNextValidBitMap.go, guard]
    by_cases more : (!it.bitmap.toBool && decide (it.cellI < it.cellCount)) = true
    case neg => exact ⟨it, if_neg more, rfl, (if_neg more).symm⟩
    case pos =>
      rw [if_pos more, if_pos more]
      have below : it.cellI < it.cellCount := by
        rw [Bool.and_eq_true, decide_eq_true_eq] at more
        exact more.2
      have bound := it.cellCount.toNat_lt
      rw [UInt32.lt_iff_toNat_lt] at below
      have succ : (it.cellI + 1).toNat = it.cellI.toNat + 1 := by
        rw [UInt32.toNat_add, Nat.mod_eq_of_lt (by simp; omega)]
        rfl
      have same_last : (it.view m).cellI + 1 = (it.view m).cellCount ↔
          it.cellI + 1 = it.cellCount := by
        rw [← UInt32.toNat_inj, succ]
        rfl
      by_cases last : it.cellI + 1 = it.cellCount
      case pos =>
        refine ⟨_, if_pos last, rfl, Eq.trans ?_ (if_pos (same_last.mpr last)).symm⟩
        rw [view, succ]
        rfl
      case neg =>
        have before : it.cellI.toNat + 1 ≠ it.cellCount.toNat := fun same =>
          last (UInt32.toNat_inj.mp (succ.trans same))
        have read := cellAt_mul (m := m) (i := it.cellI + 1) (by omega)
        rw [← shiftLeft_eq_mul, succ] at read
        obtain ⟨next, walked, count, same⟩ := @ih { it with
          cellI := it.cellI + 1
          bitmap := (m.reached (it.cellI.toNat + 1)).loadMeta.validBitSet } inside
        refine ⟨next, (if_neg last).trans ?_, count,
          Eq.trans ?_ (if_neg (same_last.not.mpr last)).symm⟩
        · rw [read]
          exact walked
        · rw [same, view, succ]
          rfl

/-- `toNextValidBitMap` behaves as on the cells that are reached. -/
theorem toNextValidBitMap_view (inside : it.cellCount.toNat ≤ m.cellCount) :
    ∃ it', it.toNextValidBitMap m = some it' ∧ it'.cellCount = it.cellCount ∧
      it'.view m = (it.view m).toNextValidBitMap :=
  toNextValidBitMap_go inside

theorem next_view (inside : it.cellCount.toNat ≤ m.cellCount) :
    ∃ it', it.next m = some it' ∧ it'.cellCount = it.cellCount ∧
      it'.view m = (it.view m).next := by
  rw [next, BucketIterator.next]
  by_cases occupied : it.bitmap.next.toBool = true
  case pos => exact ⟨_, if_pos occupied, rfl, (if_pos occupied).symm⟩
  case neg =>
    obtain ⟨next, walked, count, same⟩ :=
      @toNextValidBitMap_view _ _ _ m { it with bitmap := it.bitmap.next } inside
    exact ⟨next, (if_neg occupied).trans walked, count, same.trans (if_neg occupied).symm⟩

theorem deref_view (inside : it.cellCount.toNat ≤ m.cellCount) (valid : it.valid = true) :
    it.deref m = some (it.view m).deref := by
  rw [WordIterator.valid, Bool.and_eq_true, decide_eq_true_eq, UInt32.lt_iff_toNat_lt] at valid
  rw [deref, cellAt_mul (by omega)]
  rfl

theorem start_view (bi : UInt32) (positive : 0 < m.cellCount) :
    ∃ it, start m bi = some it ∧ it.cellCount.toNat = m.cellCount % 2 ^ 32 ∧
      it.view m = BucketIterator.start bi.toNat m.reached (m.cellCount % 2 ^ 32) := by
  have narrowed : (UInt32.ofNat m.cellCount).toNat = m.cellCount % 2 ^ 32 := UInt32.toNat_ofNat'
  rw [start, cellAt_zero positive, BucketIterator.start]
  by_cases occupied : (m.reached 0).loadMeta.validBitSet.toBool = true
  case pos =>
    refine ⟨_, if_pos occupied, narrowed, ?_⟩
    rw [if_pos occupied, view, narrowed]
    rfl
  case neg =>
    obtain ⟨it, walked, count, same⟩ := @toNextValidBitMap_view _ _ _ m
      ⟨bi, UInt32.ofNat m.cellCount, 0, (m.reached 0).loadMeta.validBitSet⟩
      (narrowed ▸ Nat.mod_le _ _)
    refine ⟨it, (if_neg occupied).trans walked, by rw [count, narrowed], ?_⟩
    rw [if_neg occupied, same, view, narrowed]
    rfl

/-- With enough rounds the loop yields what the iterator has left. -/
theorem walk_view {rounds : Nat} (inside : it.cellCount.toNat ≤ m.cellCount)
    (settled : (it.view m).Settled) (enough : (it.view m).remaining.length ≤ rounds) :
    walk m rounds it = some (it.view m).remaining := by
  induction rounds generalizing it with
  | zero =>
    have done : it.valid = false := by
      by_contra valid
      rw [Bool.not_eq_false, ← valid_view m] at valid
      rw [(BucketIterator.next_spec valid).1] at enough
      simp at enough
    rw [walk, done, List.eq_nil_of_length_eq_zero (Nat.le_zero.mp enough)]
    rfl
  | succ rounds ih =>
    rw [walk]
    split
    case isTrue valid =>
      obtain ⟨it', moved, count, same⟩ := next_view inside
      obtain ⟨first, settled'⟩ := BucketIterator.next_spec ((valid_view m it).trans valid)
      rw [← same] at first settled'
      rw [first, List.length_cons] at enough
      rw [deref_view inside valid, moved, first]
      simp [ih (count ▸ inside) settled' (by omega)]
    case isFalse done =>
      rw [← valid_view m] at done
      obtain ⟨behind, empty⟩ := settled.resolve_left done
      rw [BucketIterator.remaining, BitSet.toList_of_not_toBool empty, behind,
        Nat.sub_eq_zero_of_le (Nat.le_succ _)]
      rfl

/-- More rounds do not change what the loop has yielded. -/
theorem walk_mono {rounds rounds' : Nat} (le : rounds ≤ rounds') {infos : List (InfoPair H E)}
    (walked : walk m rounds it = some infos) : walk m rounds' it = some infos := by
  induction rounds generalizing it rounds' infos with
  | zero =>
    rw [walk] at walked
    split at walked
    · cases walked
    case isFalse done =>
      cases rounds' <;> simpa [walk, done] using walked
  | succ rounds ih =>
    obtain ⟨more, rfl⟩ := Nat.exists_eq_add_of_le' (Nat.lt_of_lt_of_le rounds.succ_pos le)
    rw [walk] at walked ⊢
    split at walked
    case isFalse done => simpa [done] using walked
    case isTrue valid =>
      obtain ⟨info, read, walked⟩ := Option.bind_eq_some_iff.mp walked
      obtain ⟨it', moved, walked⟩ := Option.bind_eq_some_iff.mp walked
      obtain ⟨later, rest, walked⟩ := Option.bind_eq_some_iff.mp walked
      have again := ih (Nat.le_of_succ_le_succ le) rest
      rw [if_pos valid, read, moved]
      simpa [again] using walked

/-- The loop yields the live slots of the cells that the offsets reach. -/
theorem toList_eq (bi : UInt32) (positive : 0 < m.cellCount) : toList m bi =
    some ((List.range (m.cellCount % 2 ^ 32)).flatMap (cellInfos bi.toNat m.reached)) := by
  obtain ⟨it, started, count, same⟩ := start_view bi positive
  have inside : it.cellCount.toNat ≤ m.cellCount := count ▸ Nat.mod_le _ _
  rw [toList, started, Option.bind_some]
  rcases Nat.eq_zero_or_pos (m.cellCount % 2 ^ 32) with none | more
  · have done : it.valid = false := by
      rw [← valid_view m, same, BucketIterator.valid, BucketIterator.start_cellCount, none]
      rfl
    rw [none]
    cases m.cellCount * F.bits <;> simp [walk, done]
  · obtain ⟨all, settled⟩ := BucketIterator.start_spec bi.toNat m.reached more
    rw [← same] at all settled
    have enough : (it.view m).remaining.length ≤ m.cellCount * F.bits := by
      rw [all]
      exact (length_flatMap_cellInfos_le _ _ _).trans
        (Nat.mul_le_mul_right _ (Nat.mod_le _ _))
    rw [walk_view inside settled enough, all]

end Walk

/-! ## Exactly the live slots -/

section Enumeration

variable {m : BucketMemory F H E} {bi : UInt32}

/-- The two cells have the same live slots, with the same contents and tags. -/
def SameLive (a b : Cell F H E) : Prop :=
  ∀ i, F.startSlotPos ≤ i → a.ver.live i = b.ver.live i ∧
    (b.ver.live i = true → a.slots i = b.slots i ∧ a.tags i = b.tags i)

/-- A cell that the iterator names is one with the live slots of the cell it reads; behind the
count that it keeps in 32 bits, nothing is live. -/
def SeesCell (m : BucketMemory F H E) (c : Nat) : Prop :=
  if c < m.cellCount % 2 ^ 32 then SameLive (m.reached c) (m.cells c)
  else ∀ i, F.startSlotPos ≤ i → (m.cells c).ver.live i = false

/-- `ValidBitSet` has the live slots, whatever the bitmaps contain. -/
theorem getLsbD_validBitSet {c : Cell F H E} {i : Nat} :
    c.loadMeta.validBitSet.bits.getLsbD i = true ↔
      F.startSlotPos ≤ i ∧ c.ver.live i = true := by
  have wide := F.bits_le
  rw [Version.live_iff]
  simp only [Cell.loadMeta, Cell.loadVersion, Version.masked, CellMeta.validBitSet,
    BitVec.getLsbD_setWidth, BitVec.getLsbD_and, BitVec.getLsbD_not, F.getLsbD_bitMapMask,
    Bool.and_eq_true, decide_eq_true_eq, Bool.not_eq_true', Bool.and_eq_false_iff,
    decide_eq_false_iff_not]
  constructor
  · rintro ⟨-, ⟨⟨occupied, -⟩, -, present⟩, slot⟩
    exact ⟨slot.1, occupied, present.resolve_right (not_not_intro slot)⟩
  · rintro ⟨start, occupied, present⟩
    have inside : i < F.bits := BitVec.lt_of_getLsbD occupied
    exact ⟨by omega, ⟨⟨occupied, start, inside⟩, inside, Or.inl present⟩, start, inside⟩

/-- What the iterator yields in a cell is what is live in it. -/
theorem cellInfos_eq (bi : Nat) (cells : Nat → Cell F H E) (c : Nat) :
    cellInfos bi cells c =
      ((List.range' F.startSlotPos F.slotCount).filter (cells c).ver.live).map
        (infoAt bi cells c) := by
  rw [cellInfos]
  congr 1
  refine (BitSet.pairwise_toList _).eq_of_mem_iff
    (List.Pairwise.filter _ List.pairwise_lt_range') fun i => ?_
  rw [BitSet.mem_toList, getLsbD_validBitSet, List.mem_filter, List.mem_range'_1,
    F.slotCount_eq]
  constructor
  · rintro ⟨start, alive⟩
    exact ⟨⟨start, Version.lt_bits_of_live alive⟩, alive⟩
  · rintro ⟨slot, alive⟩
    exact ⟨slot.1, alive⟩

theorem mem_cellInfos {bi c : Nat} {cells : Nat → Cell F H E} {info : InfoPair H E} :
    info ∈ cellInfos bi cells c ↔ ∃ i, F.startSlotPos ≤ i ∧ (cells c).ver.live i = true ∧
      infoAt bi cells c i = info := by
  rw [cellInfos, List.mem_map]
  simp only [BitSet.mem_toList, getLsbD_validBitSet, and_assoc]

theorem cellInfos_eq_nil {bi c : Nat} {cells : Nat → Cell F H E} :
    cellInfos bi cells c = [] ↔ ∀ i, F.startSlotPos ≤ i → (cells c).ver.live i = false := by
  rw [List.eq_nil_iff_forall_not_mem]
  constructor
  · intro none i start
    rw [← Bool.not_eq_true]
    exact fun alive => none _ (mem_cellInfos.mpr ⟨i, start, alive, rfl⟩)
  · intro dead info mem
    obtain ⟨i, start, alive, -⟩ := mem_cellInfos.mp mem
    rw [dead i start] at alive
    cases alive

/-- Two cells yield the same if and only if they have the same live slots. -/
theorem cellInfos_congr {bi c : Nat} {cells cells' : Nat → Cell F H E} :
    cellInfos bi cells c = cellInfos bi cells' c ↔ SameLive (cells c) (cells' c) := by
  constructor
  · intro same i start
    have found : ∀ {a b : Nat → Cell F H E}, cellInfos bi a c = cellInfos bi b c →
        (a c).ver.live i = true → (b c).ver.live i = true ∧ infoAt bi a c i = infoAt bi b c i := by
      intro a b same alive
      have mem : infoAt bi a c i ∈ cellInfos bi a c :=
        mem_cellInfos.mpr ⟨i, start, alive, rfl⟩
      rw [same] at mem
      obtain ⟨j, -, there, yields⟩ := mem_cellInfos.mp mem
      obtain rfl : j = i := congrArg (fun info => info.slotInfo.slot) yields
      exact ⟨there, yields.symm⟩
    refine ⟨Bool.eq_iff_iff.mpr ⟨fun alive => (found same alive).1,
      fun alive => (found same.symm alive).1⟩, fun alive => ?_⟩
    have yields := (found same.symm alive).2.symm
    exact ⟨congrArg InfoPair.hashSlot yields, congrArg (fun info => info.slotInfo.h2) yields⟩
  · intro same
    rw [cellInfos_eq, cellInfos_eq]
    have slots : (List.range' F.startSlotPos F.slotCount).filter (cells c).ver.live =
        (List.range' F.startSlotPos F.slotCount).filter (cells' c).ver.live :=
      List.filter_congr fun i mem => (same i (List.mem_range'_1.mp mem).1).1
    rw [slots]
    refine List.map_congr_left fun i mem => ?_
    obtain ⟨slot, alive⟩ := List.mem_filter.mp mem
    obtain ⟨content, tag⟩ := (same i (List.mem_range'_1.mp slot).1).2 alive
    rw [infoAt, infoAt, content, tag]

/-- The part of an enumeration that names the cell `c`. -/
theorem filter_flatMap_cellInfos (bi n c : Nat) (cells : Nat → Cell F H E) :
    ((List.range n).flatMap (cellInfos bi cells)).filter (fun info => info.slotInfo.cell == c) =
      if c < n then cellInfos bi cells c else [] := by
  refine filter_flatMap_range (fun d _ info mem => ?_) c
  obtain ⟨i, -, -, rfl⟩ := mem_cellInfos.mp mem
  rfl

theorem liveEntries_eq : m.liveEntries bi =
    (List.range m.cellCount).flatMap (cellInfos bi.toNat m.cells) := by
  simp only [BucketMemory.liveEntries, ← cellInfos_eq]

theorem flatMap_reached_eq_iff : (List.range (m.cellCount % 2 ^ 32)).flatMap
    (cellInfos bi.toNat m.reached) = m.liveEntries bi ↔ ∀ c < m.cellCount, SeesCell m c := by
  rw [liveEntries_eq]
  constructor
  · intro same c inside
    have part := congrArg (List.filter fun info => info.slotInfo.cell == c) same
    rw [filter_flatMap_cellInfos, filter_flatMap_cellInfos, if_pos inside] at part
    rw [SeesCell]
    split at part
    case isTrue named => exact (if_pos named).symm ▸ cellInfos_congr.mp part
    case isFalse behind => exact (if_neg behind).symm ▸ cellInfos_eq_nil.mp part.symm
  · intro sees
    obtain ⟨rest, count⟩ := Nat.exists_eq_add_of_le (Nat.mod_le m.cellCount (2 ^ 32))
    have all : List.range m.cellCount = List.range (m.cellCount % 2 ^ 32) ++
        (List.range rest).map (m.cellCount % 2 ^ 32 + ·) := by
      rw [← List.range_add, ← count]
    have behind : ((List.range rest).map (m.cellCount % 2 ^ 32 + ·)).flatMap
        (cellInfos bi.toNat m.cells) = [] := by
      refine List.flatMap_eq_nil_iff.mpr fun c mem => cellInfos_eq_nil.mpr ?_
      obtain ⟨k, within, rfl⟩ := List.mem_map.mp mem
      have seen := sees _ (count ▸ Nat.add_lt_add_left (List.mem_range.mp within) _)
      rwa [SeesCell, if_neg (Nat.not_lt.mpr (Nat.le_add_right _ _))] at seen
    rw [all, List.flatMap_append, behind, List.append_nil]
    refine List.flatMap_congr fun c mem => cellInfos_congr.mpr ?_
    have named := List.mem_range.mp mem
    have seen := sees c (named.trans_le (Nat.mod_le _ _))
    rwa [SeesCell, if_pos named] at seen

/-- The loop ends with the live slots if and only if the cells it reaches have them. -/
theorem enumerates_iff_reached (positive : 0 < m.cellCount) : Enumerates m bi ↔
    (List.range (m.cellCount % 2 ^ 32)).flatMap (cellInfos bi.toNat m.reached) =
      m.liveEntries bi := by
  have ends := toList_eq bi positive
  constructor
  · rintro ⟨rounds, walked⟩
    obtain ⟨it, started, walked⟩ := Option.bind_eq_some_iff.mp walked
    rw [toList, started] at ends
    have one := walk_mono (Nat.le_max_left rounds (m.cellCount * F.bits)) walked
    have other := walk_mono (Nat.le_max_right rounds (m.cellCount * F.bits)) ends
    exact Option.some.inj (other.symm.trans one)
  · intro same
    exact ⟨_, same ▸ ends⟩

/-- The iterator enumerates the live slots, each once and in order, without leaving the bucket, if
and only if every cell it names is one with the live slots of the cell that it reads. -/
theorem enumerates_iff (positive : 0 < m.cellCount) :
    Enumerates m bi ↔ ∀ c < m.cellCount, SeesCell m c :=
  (enumerates_iff_reached positive).trans flatMap_reached_eq_iff

/-- In a bucket that 32-bit offsets reach as a whole, the iterator reads the cells it names. -/
theorem seesCell_of_le (word : m.cellCount < 2 ^ 32) (reached : m.cellCount ≤ F.offsetCells)
    {c : Nat} (inside : c < m.cellCount) : SeesCell m c := by
  have named : c < m.cellCount % 2 ^ 32 := by rwa [Nat.mod_eq_of_lt word]
  rw [SeesCell, if_pos named, BucketMemory.reached, Nat.mod_eq_of_lt (inside.trans_le reached)]
  exact fun i _ => ⟨rfl, fun _ => ⟨rfl, rfl⟩⟩

/-- `cells` cells, of which the first one holds an entry in slot 1. -/
def oneEntry (cellCount : Nat) : BucketMemory cellMeta128 UInt64 UInt64 where
  cellCount
  cells c := ⟨if c = 0 then ⟨2, 0, 1⟩ else .zero, fun _ => 0, fun _ => ⟨7, 1⟩⟩

theorem enumerates_iff_fourCells : Enumerates (oneEntry 4) 0 :=
  (enumerates_iff (by decide)).mpr fun _ inside => seesCell_of_le (by decide) (by decide) inside

/-- In a bucket of 8 GiB the iterator yields the entry of the first cell again. -/
theorem not_enumerates : ¬ Enumerates (oneEntry (2 ^ 26)) 0 := by
  rw [enumerates_iff_reached (by decide), flatMap_reached_eq_iff]
  intro sees
  have again := sees (2 ^ 25) (by decide)
  rw [SeesCell, if_pos (by decide)] at again
  exact absurd (again 1 (by decide)).1 (by decide)

end Enumeration

end WordIterator

end TurboHash
