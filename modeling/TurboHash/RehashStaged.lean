import TurboHash.Agreement
import TurboHash.RehashMoves

/-!
# The rehash that goes through DRAM

`MinorRehash` of `turbo_hash_pmem.h` copies the old bucket to DRAM, builds the new bucket
in DRAM, and copies it back to persistent memory. In tables with records an `entry` is a
`pptr`, an offset that is relative to the address where it is stored, and the copies are
stored elsewhere: `PptrToDramPptr` takes the offset from the copy, but reads and writes it
as one that is stored in persistent memory.

`EntryCodec` is what a rehash needs of the entries. With every entry resolved at its own
address, the staged rehash is the direct one.
-/

namespace TurboHash

variable {F : CellFormat} {K V H E W : Type}

/-! ## Entries and their addresses -/

/-- `SlotSizeLeftShift`. -/
def slotSizeLeftShift : Nat := 4

/-- `LocateSlot` in cell `cell` of the bucket at `bucketAddr`. -/
def locateSlot (F : CellFormat) (bucketAddr : UInt64) (cell slotI : Nat) : UInt64 :=
  bucketAddr + UInt64.ofNat (cell <<< F.cellSizeLeftShift) +
    UInt64.ofNat (slotI <<< slotSizeLeftShift)

/-- The address of the second word of a slot. -/
def entryAddr (F : CellFormat) (bucketAddr : UInt64) (cell slotI : Nat) : UInt64 :=
  locateSlot F bucketAddr cell slotI + 8

/-- What the second word of a slot, stored at some address, stands for, and what it
becomes on its way from one address to another. -/
structure EntryCodec (W E : Type) where
  resolve : (addr : UInt64) → W → E
  convert : (oldAddr newAddr : UInt64) → W → W
  /-- what `entry = 0` stores -/
  zero : W
  resolve_convert : ∀ oldAddr newAddr word,
    resolve newAddr (convert oldAddr newAddr word) = resolve oldAddr word

namespace EntryCodec

/-- `PptrToDramPptr<E, true>`: a flat value is copied. -/
def flat (zero : W) : EntryCodec W W where
  resolve _ word := word
  convert _ _ word := word
  zero := zero
  resolve_convert _ _ _ := rfl

/-- `PptrToDramPptr<E, false>`: an offset is resolved at its old address in persistent
memory and taken again from its new one. -/
def pptr {α : Type} (fromPptrOff : UInt64 → UInt64 → α) (toPptrOff : α → UInt64 → UInt64)
    (from_to : ∀ a p, fromPptrOff (toPptrOff a p) p = a) (zero : UInt64) :
    EntryCodec UInt64 α where
  resolve addr off := fromPptrOff off addr
  convert oldAddr newAddr off := toPptrOff (fromPptrOff off oldAddr) newAddr
  zero := zero
  resolve_convert _ newAddr _ := from_to _ newAddr

end EntryCodec

/-- A slot with its entry resolved. -/
def EntryCodec.slot (C : EntryCodec W E) (addr : UInt64) (slot : HashSlot H W) : HashSlot H E :=
  ⟨slot.h1, C.resolve addr slot.entry⟩

/-- The bucket at `bucketAddr`, with its entries resolved. -/
def Bucket.resolved (C : EntryCodec W E) (bucketAddr : UInt64) (b : Bucket F H W) :
    Bucket F H E where
  cellCountShift := b.cellCountShift
  cells c := ⟨(b.cells c).ver, (b.cells c).tags,
    fun i => C.slot (entryAddr F bucketAddr c i) ((b.cells c).slots i)⟩

/-! ## The staged rehash -/

section Staged

variable (C : EntryCodec W E) (L : SlotLayout K V H E)

/-- `old_cell_count * kCellSize` and `new_cell_count * kCellSize`, 32-bit products. -/
def bucketBytes (F : CellFormat) (cellCount : Nat) : Nat := cellCount * F.cellSize % 2 ^ 32

/-- `memmove` of a number of bytes between buckets. -/
def moveCells (bytes : Nat) (src des : Nat → Cell F H W) (c : Nat) : Cell F H W :=
  if (c + 1) * F.cellSize ≤ bytes then src c else des c

/-- One round of the move loop. -/
def stagedMoveEntry (oldBucketAddrPmem newBucketAddrPmem : UInt64) (cellCountMask : Nat)
    (state : RehashState F H W) (res : InfoPair H W) : Except Halt (RehashState F H W) := do
  let (desSlotInfo, slotVec) ←
    findNextSlotInRehash (F := F) L state.slotVec res.slotInfo.h1 cellCountMask
  if F.slotMaxRange ≤ desSlotInfo.2 then throw (.exit .rehashFail)
  let oldEntryAddr := entryAddr F oldBucketAddrPmem res.slotInfo.cell res.slotInfo.slot
  let desEntryAddr := entryAddr F newBucketAddrPmem desSlotInfo.1 desSlotInfo.2
  let desSlot := ⟨res.slotInfo.h1, C.convert oldEntryAddr desEntryAddr res.hashSlot.entry⟩
  let cell := moveSlot (state.cells desSlotInfo.1) desSlotInfo.2 res.slotInfo desSlot
  return ⟨slotVec, Function.update state.cells desSlotInfo.1 cell⟩

/-- The clearing loop. -/
def stagedClear (slotVec : Nat → Nat) (cells : Nat → Cell F H W) (ci : Nat) : Cell F H W :=
  { cells ci with
    slots := fun si =>
      if slotVec ci ≤ si ∧ si ≤ F.slotMaxRange then ⟨L.zeroSlot.h1, C.zero⟩
      else (cells ci).slots si }

/-- Steps 1 to 3 of `MinorRehash`: the new bucket in persistent memory. The last three
arguments but one are what the memory holds that `aligned_alloc` and `Allocate` return. -/
def stagedRehash (kCellCountLimit bi : Nat) (isgc : Bool)
    (oldBucketAddrPmem newBucketAddrPmem : UInt64)
    (oldDram newDram newPmem : Nat → Cell F H W) (b : Bucket F H W) :
    Except Halt (Bucket F H W × Nat) := do
  let newShift := if isgc then b.cellCountShift else b.cellCountShift + 1
  let oldDram := moveCells (bucketBytes F b.cellCount) b.cells oldDram
  if 32 ≤ newShift then throw .undefined
  if kCellCountLimit < 2 ^ newShift then throw (.exit .cannotRehash)
  let entries := (BucketIterator.start bi oldDram b.cellCount).toList
  let state ← entries.foldlM
    (stagedMoveEntry C L oldBucketAddrPmem newBucketAddrPmem (2 ^ newShift - 1))
    ⟨fun _ => F.startSlotPos, resetMeta newDram⟩
  let newDram := stagedClear C L state.slotVec state.cells
  return (⟨newShift, moveCells (bucketBytes F (2 ^ newShift)) newDram newPmem⟩, entries.length)

end Staged

/-! ## The move loops side by side -/

section Simulation

variable {C : EntryCodec W E} {L : SlotLayout K V H E} {oldAddr newAddr : UInt64}
  {state : RehashState F H W} {direct : RehashState F H E}

/-- What the direct rehash moves for `info`. -/
def EntryCodec.info (C : EntryCodec W E) (F : CellFormat) (oldAddr : UInt64)
    (info : InfoPair H W) : InfoPair H E :=
  ⟨info.slotInfo, C.slot (entryAddr F oldAddr info.slotInfo.cell info.slotInfo.slot) info.hashSlot⟩

theorem Bucket.liveInfos_resolved (b : Bucket F H W) (bi : Nat) :
    (b.resolved C oldAddr).liveInfos bi = (b.liveInfos bi).map (C.info F oldAddr) := by
  unfold Bucket.liveInfos
  rw [List.map_flatMap]
  refine List.flatMap_congr fun c _ => ?_
  unfold cellInfos
  rw [List.map_map]
  rfl

/-- The state of the staged loop beside that of the direct one. -/
structure Beside (C : EntryCodec W E) (newAddr : UInt64) (state : RehashState F H W)
    (direct : RehashState F H E) : Prop where
  slotVec : state.slotVec = direct.slotVec
  ver : ∀ x, (state.cells x).ver = (direct.cells x).ver
  tags : ∀ x, (state.cells x).tags = (direct.cells x).tags
  slots : ∀ x i, F.startSlotPos ≤ i → i < direct.slotVec x →
    C.slot (entryAddr F newAddr x i) ((state.cells x).slots i) = (direct.cells x).slots i

theorem Beside.start (C : EntryCodec W E) (newAddr : UInt64) (newDram : Nat → Cell F H W)
    (uninit : Nat → Cell F H E) :
    Beside C newAddr ⟨fun _ => F.startSlotPos, resetMeta newDram⟩ (rehashStart uninit) where
  slotVec := rfl
  ver _ := rfl
  tags _ := rfl
  slots _ _ start less := absurd (Nat.lt_of_le_of_lt start less) (Nat.lt_irrefl _)

/-- The counter of the chosen cell is the slot that is handed out. -/
theorem findNextSlotInRehash_cases {slotVec slotVec' : Nat → Nat} {h1 : H} {mask : Nat}
    {des : Nat × Nat} (ok : findNextSlotInRehash (F := F) L slotVec h1 mask = .ok (des, slotVec')) :
    des.2 = slotVec des.1 ∧ slotVec' = Function.update slotVec des.1 (slotVec des.1 + 1) := by
  unfold findNextSlotInRehash at ok
  obtain ⟨ai, -, rest⟩ := Simulation.bind_eq_ok.mp ok
  cases rest
  exact ⟨rfl, rfl⟩

/-- A round of both loops. -/
theorem Beside.moveEntry (beside : Beside C newAddr state direct) (oldAddr : UInt64) (mask : Nat)
    (info : InfoPair H W) :
    match TurboHash.moveEntry L mask direct (C.info F oldAddr info) with
    | .ok direct' => ∃ state', stagedMoveEntry C L oldAddr newAddr mask state info = .ok state' ∧
        Beside C newAddr state' direct'
    | .error halt => stagedMoveEntry C L oldAddr newAddr mask state info = .error halt := by
  rw [TurboHash.moveEntry, stagedMoveEntry, beside.slotVec]
  cases search : findNextSlotInRehash (F := F) L direct.slotVec info.slotInfo.h1 mask with
  | error halt =>
    rw [show findNextSlotInRehash (F := F) L direct.slotVec (C.info F oldAddr info).slotInfo.h1 mask =
      _ from search]
    rfl
  | ok result =>
    obtain ⟨des, slotVec⟩ := result
    obtain ⟨slotEq, rfl⟩ := findNextSlotInRehash_cases search
    rw [show findNextSlotInRehash (F := F) L direct.slotVec (C.info F oldAddr info).slotInfo.h1 mask =
      _ from search]
    by_cases last : F.slotMaxRange ≤ des.2
    · simp only [bind, Except.bind, last, if_true]
      rfl
    · simp only [bind, Except.bind, last, if_false, pure, Except.pure]
      refine ⟨_, rfl, rfl, fun x => ?_, fun x => ?_, fun x i start less => ?_⟩
      · by_cases here : x = des.1
        · subst here
          simp only [Function.update_self, TurboHash.moveSlot, Cell.storeVersion, Cell.setTag,
            Cell.setSlot, beside.ver]
        · simp only [Function.update_of_ne here, beside.ver]
      · by_cases here : x = des.1
        · subst here
          simp only [Function.update_self, TurboHash.moveSlot, Cell.storeVersion, Cell.setTag,
            Cell.setSlot, beside.tags]
          rfl
        · simp only [Function.update_of_ne here, beside.tags]
      · by_cases here : x = des.1
        · subst here
          dsimp only
          rw [Function.update_self, Function.update_self]
          change C.slot _ (Function.update (state.cells des.1).slots des.2 _ i) =
            Function.update (direct.cells des.1).slots des.2 _ i
          by_cases new : i = des.2
          · subst new
            rw [Function.update_self, Function.update_self]
            exact HashSlot.ext rfl (C.resolve_convert ..)
          · rw [Function.update_of_ne new, Function.update_of_ne new]
            simp only [Function.update_self] at less
            exact beside.slots des.1 i start (by omega)
        · dsimp only at less ⊢
          rw [Function.update_of_ne here] at less
          rw [Function.update_of_ne here, Function.update_of_ne here]
          exact beside.slots x i start less

/-- Both loops. -/
theorem Beside.foldlM (beside : Beside C newAddr state direct) (oldAddr : UInt64) (mask : Nat)
    (infos : List (InfoPair H W)) :
    match (infos.map (C.info F oldAddr)).foldlM (TurboHash.moveEntry L mask) direct with
    | .ok direct' => ∃ state', infos.foldlM (stagedMoveEntry C L oldAddr newAddr mask) state =
        .ok state' ∧ Beside C newAddr state' direct'
    | .error halt => infos.foldlM (stagedMoveEntry C L oldAddr newAddr mask) state =
        .error halt := by
  induction infos generalizing state direct with
  | nil => exact ⟨state, rfl, beside⟩
  | cons info infos ih =>
    have step := beside.moveEntry (L := L) oldAddr mask info
    rw [List.map_cons, List.foldlM_cons, List.foldlM_cons]
    cases moved : TurboHash.moveEntry L mask direct (C.info F oldAddr info) with
    | error halt =>
      rw [moved] at step
      rw [show stagedMoveEntry C L oldAddr newAddr mask state info = _ from step]
      rfl
    | ok direct' =>
      rw [moved] at step
      obtain ⟨state', ok, beside'⟩ := step
      rw [ok]
      exact ih beside'

end Simulation

/-! ## The result -/

section Result

variable {C : EntryCodec W E} {L : SlotLayout K V H E} {kCellCountLimit : Nat}

/-- Cells whose bytes fit a 32-bit product are moved completely. -/
theorem moveCells_of_lt {count c : Nat} {src des : Nat → Cell F H W} (small : count ≤ 32768)
    (inside : c < count) : moveCells (bucketBytes F count) src des c = src c := by
  have size : F.cellSize ≤ 2 ^ 16 := Nat.pow_le_pow_right two_pos F.cellSizeLeftShift_le
  have bytes : count * F.cellSize < 2 ^ 32 := by
    calc count * F.cellSize ≤ 32768 * 2 ^ 16 := Nat.mul_le_mul small size
      _ < 2 ^ 32 := by decide
  rw [moveCells, bucketBytes, Nat.mod_eq_of_lt bytes, if_pos (Nat.mul_le_mul_right _ inside)]

/-- The iterator looks at the cells of the bucket only. -/
theorem liveInfos_congr {bi shift : Nat} {cells cells' : Nat → Cell F H W}
    (same : ∀ c < 2 ^ shift, cells' c = cells c) :
    (⟨shift, cells'⟩ : Bucket F H W).liveInfos bi = (⟨shift, cells⟩ : Bucket F H W).liveInfos bi := by
  unfold Bucket.liveInfos
  refine List.flatMap_congr fun c mem => ?_
  have inside : c < 2 ^ shift := List.mem_range.mp mem
  unfold cellInfos
  dsimp only
  rw [same c inside]
  refine List.map_congr_left fun i _ => ?_
  rw [infoAt, infoAt, same c inside]

/-- The new bucket, with its entries resolved in persistent memory. -/
theorem Beside.agrees {newAddr : UInt64} {state : RehashState F H W} {direct : RehashState F H E}
    (beside : Beside C newAddr state direct) {shift : Nat} (small : 2 ^ shift ≤ 32768)
    (filled : ∀ ci, ∃ infos, (direct.cells ci).Filled infos ∧
      direct.slotVec ci = F.startSlotPos + infos.length) (newPmem : Nat → Cell F H W) :
    ((⟨shift, moveCells (bucketBytes F (2 ^ shift)) (stagedClear C L state.slotVec state.cells)
      newPmem⟩ : Bucket F H W).resolved C newAddr).Agrees
        ⟨shift, clearRemaining L direct.slotVec direct.cells⟩ := by
  refine ⟨rfl, fun c inside => ?_⟩
  have moved : moveCells (bucketBytes F (2 ^ shift)) (stagedClear C L state.slotVec state.cells)
      newPmem c = stagedClear C L state.slotVec state.cells c := moveCells_of_lt small inside
  obtain ⟨infos, cell, slotVec⟩ := filled c
  constructor
  · exact (congrArg Cell.ver moved).trans (beside.ver c)
  · intro i alive
    change (direct.cells c).live i = true at alive
    rw [cell.live, decide_eq_true_eq] at alive
    have kept : ¬ (direct.slotVec c ≤ i ∧ i ≤ F.slotMaxRange) := by omega
    have slot : (stagedClear C L state.slotVec state.cells c).slots i = (state.cells c).slots i := by
      change (if _ then _ else _) = _
      rw [beside.slotVec, if_neg kept]
    have copied := (congrFun (congrArg Cell.slots moved) i).trans slot
    refine (congrArg (C.slot (entryAddr F newAddr c i)) copied).trans ?_
    exact (beside.slots c i alive.1 (by omega)).trans (if_neg kept).symm
  · intro i _
    exact (congrFun (congrArg Cell.tags moved) i).trans (congrFun (beside.tags c) i)

theorem Bucket.rehash_eq (b : Bucket F H E) (bi shift : Nat) (uninit : Nat → Cell F H E) :
    b.rehash L bi shift uninit =
      ((b.liveInfos bi).foldlM (moveEntry L (2 ^ shift - 1)) (rehashStart uninit)).map fun state =>
        (⟨shift, clearRemaining L state.slotVec state.cells⟩, (b.liveInfos bi).length) := by
  rw [Bucket.rehash, iterate_eq_liveInfos]
  change List.foldlM (moveEntry L (2 ^ shift - 1)) (rehashStart uninit) (b.liveInfos bi) >>= _ = _
  cases List.foldlM (moveEntry L (2 ^ shift - 1)) (rehashStart uninit) (b.liveInfos bi) <;> rfl

section Limit

variable {b : Bucket F H W} {bi shift : Nat} {isgc : Bool} {oldAddr newAddr : UInt64}
  {oldDram newDram newPmem : Nat → Cell F H W}
  (newShift : (if isgc then b.cellCountShift else b.cellCountShift + 1) = shift)
include newShift

theorem stagedRehash_of_le (limit_le : kCellCountLimit ≤ kTurboCellCountLimit)
    (below : 2 ^ shift ≤ kCellCountLimit) :
    stagedRehash C L kCellCountLimit bi isgc oldAddr newAddr oldDram newDram newPmem b =
      ((b.liveInfos bi).foldlM (stagedMoveEntry C L oldAddr newAddr (2 ^ shift - 1))
        ⟨fun _ => F.startSlotPos, resetMeta newDram⟩).map fun state =>
          (⟨shift, moveCells (bucketBytes F (2 ^ shift)) (stagedClear C L state.slotVec state.cells)
            newPmem⟩, (b.liveInfos bi).length) := by
  have small : 2 ^ shift ≤ 32768 := below.trans limit_le
  have fits : ¬ 32 ≤ shift := fun large => by
    have := Nat.pow_le_pow_right two_pos large
    omega
  have grows : b.cellCountShift ≤ shift := by
    rw [← newShift]
    split <;> omega
  have oldSmall : 2 ^ b.cellCountShift ≤ 32768 := (Nat.pow_le_pow_right two_pos grows).trans small
  -- the copy of the old bucket has its live slots
  have copied : (BucketIterator.start bi (moveCells (bucketBytes F b.cellCount) b.cells oldDram)
      b.cellCount).toList = b.liveInfos bi :=
    (Bucket.iterate_eq_liveInfos bi ⟨b.cellCountShift, _⟩).trans
      (liveInfos_congr fun c inside => moveCells_of_lt oldSmall inside)
  rw [stagedRehash, newShift]
  dsimp only
  rw [copied, if_neg fits, if_neg (Nat.not_lt.mpr below)]
  change _ >>= _ = _
  cases List.foldlM (stagedMoveEntry C L oldAddr newAddr (2 ^ shift - 1))
    ⟨fun _ => F.startSlotPos, resetMeta newDram⟩ (b.liveInfos bi) <;> rfl

theorem stagedRehash_of_lt (above : kCellCountLimit < 2 ^ shift) :
    stagedRehash C L kCellCountLimit bi isgc oldAddr newAddr oldDram newDram newPmem b =
      if 32 ≤ shift then .error .undefined else .error (.exit .cannotRehash) := by
  rw [stagedRehash, newShift]
  dsimp only
  by_cases large : 32 ≤ shift
  · rw [if_pos large, if_pos large]
    rfl
  · rw [if_neg large, if_neg large, if_pos above]
    rfl

end Limit

/-- The staged rehash returns when the direct one does, and then it leaves the same entries in
the same cells and slots; otherwise both take the same exit. -/
theorem stagedRehash_spec (C : EntryCodec W E) (P : TableParams F K V H E) (bi : Nat) (isgc : Bool)
    (oldAddr newAddr : UInt64) (oldDram newDram newPmem : Nat → Cell F H W) (b : Bucket F H W)
    (t : Table F H E) (here : t.buckets bi = b.resolved C oldAddr) :
    match t.minorRehash P bi isgc with
    | .ok (t', n) => ∃ new, stagedRehash C P.layout P.kCellCountLimit bi isgc oldAddr newAddr oldDram
          newDram newPmem b = .ok (new, n) ∧ (new.resolved C newAddr).Agrees (t'.buckets bi)
    | .error halt => stagedRehash C P.layout P.kCellCountLimit bi isgc oldAddr newAddr oldDram newDram
          newPmem b = .error halt := by
  have newShift : (if isgc then b.cellCountShift else b.cellCountShift + 1) = t.newShift bi isgc := by
    rw [Table.newShift, here]
    rfl
  by_cases below : 2 ^ t.newShift bi isgc ≤ P.kCellCountLimit
  · obtain ⟨capacity, direct⟩ := Table.minorRehash_of_le below
    rw [direct, here, Bucket.rehash_eq, stagedRehash_of_le newShift P.limit_le below]
    have loops := (Beside.start C newAddr newDram (P.uninit bi (t.newShift bi isgc))).foldlM
      (L := P.layout) oldAddr (2 ^ t.newShift bi isgc - 1) (b.liveInfos bi)
    rw [← Bucket.liveInfos_resolved] at loops
    cases moved : List.foldlM (moveEntry P.layout (2 ^ t.newShift bi isgc - 1))
        (rehashStart (P.uninit bi (t.newShift bi isgc))) ((b.resolved C oldAddr).liveInfos bi) with
    | error halt =>
      rw [moved] at loops
      dsimp only at loops
      rw [loops]
      rfl
    | ok state =>
      rw [moved] at loops
      obtain ⟨state', ok, beside⟩ := loops
      have built := (b.resolved C oldAddr).rehash_eq (L := P.layout) bi (t.newShift bi isgc)
        (P.uninit bi (t.newShift bi isgc))
      rw [moved] at built
      obtain ⟨-, _, again, -, filled⟩ := Bucket.rehash_cases built
      cases moved.symm.trans again
      rw [ok]
      refine ⟨⟨t.newShift bi isgc, moveCells (bucketBytes F (2 ^ t.newShift bi isgc))
        (stagedClear C P.layout state'.slotVec state'.cells) newPmem⟩, ?_, ?_⟩
      · rw [Bucket.liveInfos_resolved, List.length_map]
        rfl
      · change Bucket.Agrees _ (Function.update t.buckets bi _ bi)
        rw [Function.update_self]
        exact beside.agrees (below.trans P.limit_le) filled newPmem
  · have above := Nat.not_le.mp below
    rw [stagedRehash_of_lt newShift above]
    by_cases large : 32 ≤ t.newShift bi isgc
    · rw [if_pos large, Table.minorRehash_of_wrap large]
    · rw [if_neg large, Table.minorRehash_of_lt (Nat.not_le.mp large) above]

end Result

/-! ## The four layouts -/

section Layouts

variable {V α : Type}

/-- `Entry`: the value itself, or the offset of a record. -/
def EntryWord (V : Type) : (isFlatEntry : Bool) → Type
  | true => V
  | false => UInt64

/-- What an `Entry` stands for: the value itself, or the address of a record. -/
def EntryValue (V α : Type) : (isFlatEntry : Bool) → Type
  | true => V
  | false => α

/-- `PptrToDramPptr<E, is_flat_entry>`. -/
def pptrToDramPptr (fromPptrOff : UInt64 → UInt64 → α) (toPptrOff : α → UInt64 → UInt64)
    (from_to : ∀ a p, fromPptrOff (toPptrOff a p) p = a) :
    (isFlatEntry : Bool) → (zero : EntryWord V isFlatEntry) →
      EntryCodec (EntryWord V isFlatEntry) (EntryValue V α isFlatEntry)
  | true, zero => .flat zero
  | false, zero => .pptr fromPptrOff toPptrOff from_to zero

/-- Every live slot of `new` stands for what a slot of `old` stood for that the iterator
has come to, each read at its own address. -/
def Bucket.Resolves (C : EntryCodec W E) (oldAddr newAddr : UInt64) (old new : Bucket F H W) :
    Prop :=
  ∀ x < new.cellCount, ∀ j, (new.cells x).live j = true → ∃ c < old.cellCount, ∃ i,
    (old.cells c).loadMeta.validBitSet.bits.getLsbD i = true ∧
      ((new.cells x).slots j).h1 = ((old.cells c).slots i).h1 ∧
      (new.cells x).tags j = (old.cells c).tags i ∧
      C.resolve (entryAddr F newAddr x j) ((new.cells x).slots j).entry =
        C.resolve (entryAddr F oldAddr c i) ((old.cells c).slots i).entry

theorem Bucket.resolves_of_rehashed {C : EntryCodec W E} {L : SlotLayout K V H E}
    {oldAddr newAddr : UInt64} {old new : Bucket F H W} {direct : Bucket F H E} {bi shift : Nat}
    {placed : List (InfoPair H E × LinearProbe.Entry)}
    (rehashed : Rehashed L bi shift (old.resolved C oldAddr) direct placed)
    (agrees : (new.resolved C newAddr).Agrees direct) : old.Resolves C oldAddr newAddr new := by
  intro x inside j alive
  have cell : ((new.resolved C newAddr).cells x).Agrees (direct.cells x) :=
    agrees.cells x (agrees.count_eq ▸ inside)
  have alive' : (direct.cells x).live j = true := cell.live_eq.symm.trans alive
  obtain ⟨p, mem, -, -, slot, tag, -⟩ := rehashed.exists_of_live alive'
  have from' := rehashed.mem_infos mem
  rw [Bucket.liveInfos, List.mem_flatMap] at from'
  obtain ⟨c, within, found⟩ := from'
  obtain ⟨i, valid, same⟩ := List.mem_map.mp found
  have slots := ((cell.slots j alive').trans slot).trans (congrArg InfoPair.hashSlot same).symm
  have tags := ((cell.tags j alive').trans tag).trans
    (congrArg (fun p => p.slotInfo.h2) same).symm
  exact ⟨c, List.mem_range.mp within, i, BitSet.mem_toList.mp valid, (congrArg HashSlot.h1 slots :),
    tags, (congrArg HashSlot.entry slots :)⟩

/-- The bucket that `MinorRehash` leaves in persistent memory, and the one that a rehash in
place leaves. -/
theorem stagedRehash_refines (fromPptrOff : UInt64 → UInt64 → α) (toPptrOff : α → UInt64 → UInt64)
    (from_to : ∀ a p, fromPptrOff (toPptrOff a p) p = a) (isKeyFlat isValueFlat : Bool)
    (zero : EntryWord V (isKeyFlat && isValueFlat))
    (P : TableParams F K V H (EntryValue V α (isKeyFlat && isValueFlat)))
    (t : Table F H (EntryValue V α (isKeyFlat && isValueFlat))) (bi : Nat) (isgc : Bool)
    (oldAddr newAddr : UInt64)
    (oldDram newDram newPmem : Nat → Cell F H (EntryWord V (isKeyFlat && isValueFlat)))
    (b : Bucket F H (EntryWord V (isKeyFlat && isValueFlat))) :
    let C := pptrToDramPptr fromPptrOff toPptrOff from_to (isKeyFlat && isValueFlat) zero
    let staged := stagedRehash C P.layout P.kCellCountLimit bi isgc oldAddr newAddr oldDram newDram
      newPmem b
    let direct := (t.setBucket bi (b.resolved C oldAddr)).minorRehash P bi isgc
    (∀ t' n, direct = .ok (t', n) → ∃ new, staged = .ok (new, n) ∧
      (new.resolved C newAddr).Agrees (t'.buckets bi) ∧ b.Resolves C oldAddr newAddr new) ∧
    ∀ halt, direct = .error halt → staged = .error halt := by
  intro C staged direct
  have here : (t.setBucket bi (b.resolved C oldAddr)).buckets bi = b.resolved C oldAddr :=
    Function.update_self ..
  have spec := stagedRehash_spec C P bi isgc oldAddr newAddr oldDram newDram newPmem b _ here
  constructor
  · intro t' n ok
    rw [show Table.minorRehash P _ bi isgc = _ from ok] at spec
    obtain ⟨new, returns, agrees⟩ := spec
    obtain ⟨-, moved, built, -, buckets⟩ := Table.minorRehash_cases ok
    obtain ⟨placed, rehashed, -⟩ := Bucket.rehash_disp_lt_iff (k := 0) built
    refine ⟨new, returns, agrees, Bucket.resolves_of_rehashed (here ▸ rehashed) ?_⟩
    rwa [buckets, Function.update_self] at agrees
  · intro halt stopped
    rw [show Table.minorRehash P _ bi isgc = _ from stopped] at spec
    exact spec

/-- Records behind numeric keys, at distances from where their offsets are stored. -/
def pointers : TableParams cellMeta256V2 UInt64 UInt64 UInt64 UInt64 where
  layout := dramLayout
  kCellCountLimit := kTurboCellCountLimit
  limit_le := le_rfl
  uninit _ _ _ := Table.zeroCell dramLayout

/-- Keys of the two cells below: four with the home 0 of 4, and sixteen with the home 3. -/
def pointerKeys : Nat → List UInt64
  | 0 => [9, 11, 13, 15, 2, 4, 6]
  | _ => [17, 19, 21, 32, 34, 36, 38, 47, 49, 51, 53, 62, 64]

/-- Two cells, the second of them full, with the record at `5000 + 64 * key` behind each key. -/
def twentyPointers : Bucket cellMeta256V2 UInt64 UInt64 where
  cellCountShift := 1
  cells c :=
    ⟨⟨if c = 0 then 0x1FC else 0x7FFC, 0, 1⟩, fun i => UInt8.ofNat i, fun i =>
      let key := (pointerKeys c).getD (i - 2) 0
      ⟨key, 5000 + 64 * key - entryAddr cellMeta256V2 4096 c i⟩⟩

theorem add_offset (a p : UInt64) : p + (a - p) = a := by
  rw [UInt64.add_comm, UInt64.sub_add_cancel]

/-- What lies in the memory that the rehash is given. -/
def freshMemory (_ : Nat) : Cell cellMeta256V2 UInt64 UInt64 := Table.zeroCell dramLayout

/-- The records of `pointers`, at their distances. -/
def pointerCodec : EntryCodec UInt64 UInt64 :=
  .pptr (fun off p => p + off) (fun a p => a - p) add_offset 0

/-- A table with `twentyPointers` resolved at 4096. -/
def twentyResolved : Table cellMeta256V2 UInt64 UInt64 :=
  Table.setBucket ⟨0, fun _ => ⟨0, freshMemory⟩, 0⟩ 0 (twentyPointers.resolved pointerCodec 4096)

/-- The result with that bucket at 4096 and the new one at 8192: thirteen of the sixteen
entries with the home 3 fill their cell, and the others go on to cell 0. -/
theorem stagedRehash_refines_pointers :
    ∃ new, stagedRehash pointerCodec dramLayout kTurboCellCountLimit 0 false 4096 8192 freshMemory
        freshMemory freshMemory twentyPointers = .ok (new, 20) ∧
      (new.cells 3).loadMeta.full = true ∧
      twentyPointers.Resolves pointerCodec 4096 8192 new := by
  have counted : (twentyResolved.minorRehash pointers 0 false).map Prod.snd = .ok 20 := by
    decide +kernel
  have overflows : (stagedRehash pointerCodec dramLayout kTurboCellCountLimit 0 false 4096 8192
      freshMemory freshMemory freshMemory twentyPointers).map
        (fun r => (r.1.cells 3).loadMeta.full) = .ok true := by decide +kernel
  cases direct : twentyResolved.minorRehash pointers 0 false with
  | error halt =>
    rw [direct] at counted
    cases counted
  | ok result =>
    obtain ⟨t', n⟩ := result
    rw [direct] at counted
    cases counted
    obtain ⟨new, staged, -, resolves⟩ := (stagedRehash_refines (V := UInt64) (fun off p => p + off)
      (fun a p => a - p) add_offset true false (0 : UInt64) pointers
      ⟨0, fun _ => ⟨0, freshMemory⟩, 0⟩ 0 false 4096 8192 freshMemory freshMemory freshMemory
      twentyPointers).1 t' 20 direct
    have staged : stagedRehash pointerCodec dramLayout kTurboCellCountLimit 0 false 4096 8192
      freshMemory freshMemory freshMemory twentyPointers = .ok (new, 20) := staged
    rw [staged] at overflows
    exact ⟨new, staged, Except.ok.inj overflows, resolves⟩

end Layouts

end TurboHash
