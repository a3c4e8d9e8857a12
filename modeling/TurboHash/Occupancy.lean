import TurboHash.Lib.Transition
import TurboHash.MapRefinement
import TurboHash.Runs

/-!
# The occupancy of the cells

Every run of operations is a run of single changes: the commit of a `Put`, the commit of
a `Delete`, and the `MinorRehash` of one bucket. `Cell.Occupancy` is the invariant of these
changes, `Chosen` says what a `Put` writes its slot over, and `Bucket.Grows` that a bucket
which is not rehashed loses no occupied slot.
-/

namespace TurboHash

variable {F : CellFormat} {K V H E : Type}

/-! ## The changes of a table -/

/-- What an operation does to the table at a time. -/
inductive Change (K V : Type)
  | put (key : K) (value : V)
  | delete (key : K)
  | rehash (bi : Nat) (isgc : Bool)

/-- The change is a rehash of bucket `bi`. -/
def Change.Rehashes (bi : Nat) : Change K V → Prop
  | .rehash bi' _ => bi' = bi
  | _ => False

namespace Table

variable [DecidableEq H] (P : TableParams F K V H E)

/-- The commit of `insertSlot`, the commit of `deleteSlot`, or a `MinorRehash`. -/
def change (t : Table F H E) : Change K V → Option (Table F H E)
  | .put key value =>
    match t.searchForInsert P searchFuel key with
    | .ok res => if res.find then some (t.commit P key value res.targetSlot) else none
    | .error _ => none
  | .delete key =>
    match t.searchForDelete P searchFuel key with
    | .ok (some (c, i)) =>
      let bi := t.bucketOf P.layout key
      some (t.setBucket bi ((t.buckets bi).setCell c
        (deleteCommit P.layout ((t.buckets bi).cells c) i).1))
    | _ => none
  | .rehash bi isgc =>
    if bi < t.bucketCount then
      match t.minorRehash P bi isgc with
      | .ok (t', _) => some t'
      | .error _ => none
    else none

end Table

section Runs

variable [DecidableEq H] {P : TableParams F K V H E} {t t₀ t' : Table F H E} {fuel : Nat}

/-- The tables behind a run of changes. -/
def Changed (P : TableParams F K V H E) (t₀ : Table F H E) (t : Table F H E) : Prop :=
  ∃ steps, Transition.Run (Table.change P) t₀ steps t

theorem Changed.snoc {change : Change K V} (changed : Changed P t₀ t)
    (step : t.change P change = some t') : Changed P t₀ t' := by
  obtain ⟨steps, run⟩ := changed
  exact ⟨_, run.snoc step⟩

/-- The changes are all that the operations do. -/
theorem changed_kept [DecidableEq K] (enough : maxProbeLen < fuel) :
    Kept P fuel (fun _ _ _ => True) fun _ => Changed P t₀ where
  rehash _ t bi isgc t' n changed inside _ ok := by
    have step : t.change P (.rehash bi isgc) = some t' := by
      rw [Table.change, if_pos inside, ok]
    exact changed.snoc step
  put _ t key value res changed search found := by
    rw [Table.searchForInsert_fuel enough (Nat.lt_succ_self _)] at search
    have step : t.change P (.put key value) = some (t.commit P key value res.targetSlot) := by
      simp only [Table.change, searchFuel, search, found, if_true]
    exact changed.snoc step
  delete _ t key t' found retired changed ok := by
    rcases Table.deleteSlot_cases ok with ⟨-, rfl, -⟩ | ⟨c, i, search, -, rfl⟩
    · exact changed
    · have same : t.searchForDelete P searchFuel key = .ok (some (c, i)) := by
        rw [← search, Table.searchForDelete_fuel lt_searchFuel enough]
      refine Changed.snoc changed (?_ : t.change P (.delete key) = some _)
      simp only [Table.change, same]

/-- A run of operations is a run of changes. -/
theorem changed_of_run (enough : maxProbeLen < fuel) {ops : List (Op K V)}
    {results : List (OpResult K V)} (ok : run P fuel t₀ ops = .ok (t, results)) :
    Changed P t₀ t := by
  classical
  have meets : Simulation.Guarded (Op.exec P fuel) (Op.Meets P fuel fun _ _ _ => True) t₀ ops :=
    .of_forall fun _ _ _ => .of_forall (fun _ _ => trivial) fun _ => .of_forall fun _ _ => trivial
  exact (changed_kept enough).run (m := fun _ => none) ⟨[], .nil⟩ meets ok

end Runs

/-! ## The occupancy of a cell -/

/-- The occupancy invariant of a cell, in terms of its two bitmaps and of what `Put` asks
of them. -/
structure Cell.Occupancy (c : Cell F H E) : Prop where
  deleted_subset : c.ver.bitmapDeleted &&& ~~~c.ver.bitmap = 0
  count_le : popcount (c.ver.bitmap &&& F.bitMapMask) ≤ F.slotCount - 1
  /-- `BackupBitSet` has a lowest bit -/
  spare : c.loadMeta.backupBitSet.toBool = true
  /-- `Full` means that one free slot is left -/
  full_iff : c.loadMeta.full = true ↔ c.loadMeta.backupBitSet.validCount = 1

/-- What is true of the slot that `Put` writes in a cell. -/
structure Chosen (c : Cell F H E) (info : SlotInfo H) : Prop where
  start_le : F.startSlotPos ≤ info.slot
  le_last : info.slot ≤ F.slotMaxRange
  free : c.ver.bitmap.getLsbD info.slot = false ∨ c.ver.bitmapDeleted.getLsbD info.slot = true
  dead : c.live info.slot = false
  other : info.equalKey = true → c.live info.oldSlot = true ∧ info.slot ≠ info.oldSlot

/-- No cell of the bucket has lost an occupied slot. -/
structure Bucket.Grows (b b' : Bucket F H E) : Prop where
  shift : b'.cellCountShift = b.cellCountShift
  count : ∀ c < b.cellCount, popcount (b.cells c).ver.bitmap ≤ popcount (b'.cells c).ver.bitmap
  full : ∀ c < b.cellCount, (b.cells c).Full → (b'.cells c).Full

theorem Bucket.Grows.refl (b : Bucket F H E) : b.Grows b := ⟨rfl, fun _ _ => le_rfl, fun _ _ => id⟩

theorem Bucket.Grows.trans {b b' b'' : Bucket F H E} (first : b.Grows b') (second : b'.Grows b'') :
    b.Grows b'' where
  shift := second.shift.trans first.shift
  count c less :=
    (first.count c less).trans (second.count c (by rwa [cellCount, first.shift]))
  full c less full :=
    second.full c (by rwa [cellCount, first.shift]) (first.full c less full)

section Cells

variable {L : SlotLayout K V H E} {c : Cell F H E}

theorem Bucket.Grows.setCell {b : Bucket F H E} {i : Nat} (wf : (b.cells i).WellFormed L)
    (wf' : c.WellFormed L) (mono : popcount (b.cells i).ver.bitmap ≤ popcount c.ver.bitmap) :
    b.Grows (b.setCell i c) where
  shift := rfl
  count x _ := by
    rw [setCell_cells]
    split
    case isTrue here => exact here ▸ mono
    case isFalse => exact le_rfl
  full x _ full := by
    rw [setCell_cells]
    split
    case isTrue here =>
      subst here
      exact wf.full_of_popcount_le wf' mono full
    case isFalse => exact full

/-- The free slots of the valid range and the occupied ones make up the range. -/
theorem CellMeta.validCount_backupBitSet {m : CellMeta F} (wf : m.ver.WellFormed) :
    m.backupBitSet.validCount + popcount m.ver.bitmap = F.slotCount := by
  have := F.bits_le
  have := F.slotCount_eq
  have free : ((Finset.range 32).filter fun i => m.backupBitSet.bits.getLsbD i = true) =
      (Finset.Ico F.startSlotPos F.bits).filter fun i => ¬ m.ver.bitmap.getLsbD i = true := by
    ext i
    rw [Finset.mem_filter, Finset.mem_filter, CellMeta.getLsbD_backupBitSet, Version.Backup,
      Finset.mem_range, Finset.mem_Ico, Bool.not_eq_true]
    constructor
    · rintro ⟨-, start, less, clear⟩
      exact ⟨⟨start, less⟩, clear⟩
    · rintro ⟨⟨start, less⟩, clear⟩
      exact ⟨by omega, start, less, clear⟩
  have occupied : ((Finset.range F.bits).filter fun i => m.ver.bitmap.getLsbD i = true) =
      (Finset.Ico F.startSlotPos F.bits).filter fun i => m.ver.bitmap.getLsbD i = true := by
    ext i
    rw [Finset.mem_filter, Finset.mem_filter, Finset.mem_range, Finset.mem_Ico]
    constructor
    · rintro ⟨less, set⟩
      exact ⟨⟨wf.start_le i set, less⟩, set⟩
    · rintro ⟨within, set⟩
      exact ⟨within.2, set⟩
  rw [BitSet.validCount, popcount_eq_card, popcount_eq_card, free, occupied, Nat.add_comm,
    Finset.card_filter_add_card_filter_not, Nat.card_Ico]
  omega

theorem Cell.WellFormed.occupancy (wf : c.WellFormed L) : c.Occupancy where
  deleted_subset := by
    refine BitVec.eq_of_getLsbD_eq fun i less => ?_
    rw [BitVec.getLsbD_and, BitVec.getLsbD_not]
    cases deleted : c.ver.bitmapDeleted.getLsbD i with
    | false => simp
    | true => simp [wf.ver.deleted_occupied i deleted]
  count_le := by
    have masked : c.ver.bitmap &&& F.bitMapMask = c.ver.bitmap :=
      congrArg Version.bitmap wf.ver.masked_eq
    have count := wf.ver.count_le
    have := F.fullCount_eq
    rw [masked]
    omega
  spare := CellMeta.backupBitSet_toBool wf.loadMeta_wf
  full_iff := by
    have free := CellMeta.validCount_backupBitSet wf.loadMeta_wf
    have := F.fullCount_eq
    rw [CellMeta.full_iff wf.loadMeta_wf]
    omega

/-- The slots that an insertion or an update may take. -/
theorem Version.Insertable.chosen {info : SlotInfo H} (free : c.ver.Insertable info.slot)
    (fresh : info.equalKey = false) : Chosen c info where
  start_le := free.1
  le_last := by
    have := F.bits_eq
    have := free.2.1
    omega
  free := free.2.2.imp_left And.left
  dead := free.not_live
  other equal := by
    rw [fresh] at equal
    cases equal

theorem Version.Backup.chosen {info : SlotInfo H} (free : c.ver.Backup info.slot)
    (alive : c.live info.oldSlot = true) : Chosen c info where
  start_le := free.1
  le_last := by
    have := F.bits_eq
    have := free.2.1
    omega
  free := Or.inl free.2.2
  dead := free.not_live
  other _ := by
    refine ⟨alive, fun same => ?_⟩
    have dead := free.not_live
    rw [same] at dead
    exact Bool.false_ne_true (dead.symm.trans alive)

theorem InsertAnswer.chosen [DecidableEq H] {b : Bucket F H E} {key : K} {bucketI : Nat}
    {res : FindSlotForInsertResult H} (answer : InsertAnswer L b key bucketI res)
    (found : res.find = true) : Chosen (b.cells res.targetSlot.cell) res.targetSlot := by
  cases answer with
  | update inside reached value holds free => exact Version.Backup.chosen free holds.1
  | insert inside reached free unbound => exact Version.Insertable.chosen free rfl
  | noRoom => cases found

end Cells

/-! ## What a change does to it -/

section Changes

variable [DecidableEq H] {P : TableParams F K V H E} {t t₀ t' : Table F H E} {a : Change K V}
  {steps : List (Table F H E × Change K V)}

/-- Every cell of the table satisfies the occupancy invariant, its records included. -/
def Table.WellFormed (L : SlotLayout K V H E) (t : Table F H E) : Prop :=
  ∀ i < t.bucketCount, (t.buckets i).WellFormed L

/-- What a change is: the commit of one cell, or the rehash of one bucket. -/
inductive Changes (P : TableParams F K V H E) (t : Table F H E) :
    Change K V → Table F H E → Prop
  | commit {a : Change K V} {bi c : Nat} {cell : Cell F H E} (inside : bi < t.bucketCount)
      (within : c < (t.buckets bi).cellCount) (wf : cell.WellFormed P.layout)
      (mono : popcount ((t.buckets bi).cells c).ver.bitmap ≤ popcount cell.ver.bitmap)
      (plain : ∀ i, ¬ a.Rehashes i) :
      Changes P t a (t.setBucket bi ((t.buckets bi).setCell c cell))
  | rehash {bi : Nat} {isgc : Bool} {new : Bucket F H E} {capacity : UInt64}
      (inside : bi < t.bucketCount) (wf : new.WellFormed P.layout) :
      Changes P t (.rehash bi isgc) { t.setBucket bi new with capacity }

/-- The commit of a `Put`. -/
theorem Changes.of_put (wf : t.WellFormed P.layout) {key : K} {value : V}
    {res : FindSlotForInsertResult H} (search : t.searchForInsert P searchFuel key = .ok res)
    (found : res.find = true) :
    Changes P t (.put key value) (t.commit P key value res.targetSlot) := by
  have inside := t.bucketOf_lt P.layout key
  have answer := Bucket.findSlotForInsert_answer (wf _ inside) (Nat.lt_succ_self _) search
  have plain : ∀ i, ¬ (Change.put key value).Rehashes i := fun _ => id
  cases answer with
  | @update c oldSlot slot within _ old holds free =>
    have cellWf := wf _ inside c within
    refine Changes.commit inside within ?_ ?_ plain
    · rw [insertToSlotAndGC_update cellWf]
      exact cellWf.update holds.1 free
    · rw [insertToSlotAndGC_update cellWf]
      exact Cell.popcount_le_update holds.1 free
  | @insert c slot within _ free _ =>
    have cellWf := wf _ inside c within
    refine Changes.commit inside within ?_ ?_ plain
    · rw [insertToSlotAndGC_insert cellWf]
      exact cellWf.insert free
    · rw [insertToSlotAndGC_insert cellWf]
      exact cellWf.popcount_le_insert free
  | noRoom => cases found

theorem Changes.of_change (wf : t.WellFormed P.layout) (step : t.change P a = some t') :
    Changes P t a t' := by
  cases a with
  | put key value =>
    simp only [Table.change] at step
    split at step
    case h_1 res search =>
      split at step
      case isTrue found =>
        cases step
        exact Changes.of_put wf search found
      case isFalse => cases step
    case h_2 => cases step
  | delete key =>
    simp only [Table.change] at step
    split at step
    case h_1 c i search =>
      cases step
      have inside := t.bucketOf_lt P.layout key
      obtain ⟨within, value, holds⟩ :=
        Bucket.findSlotForDelete_answer (wf _ inside) (Nat.lt_succ_self _) search
      have cellWf := wf _ inside c within
      refine Changes.commit inside within ?_ ?_ fun _ => id
      · rw [deleteCommit_eq cellWf]
        exact cellWf.erase (Version.occupied_of_live holds.1)
      · rw [deleteCommit_eq cellWf]
        exact le_rfl
    case h_2 => cases step
  | rehash bi isgc =>
    simp only [Table.change] at step
    split at step
    case isTrue inside =>
      split at step
      case h_1 t' n ok =>
        cases step
        obtain ⟨-, new, built, count, buckets⟩ := Table.minorRehash_cases ok
        obtain ⟨placed, rehashed, -⟩ := Bucket.rehash_disp_lt_iff (k := 0) built
        have same : t' = { t.setBucket bi new with capacity := t'.capacity } := by
          cases t'
          simp only at count buckets
          simp only [Table.setBucket, count, buckets]
        rw [same]
        exact Changes.rehash inside (rehashed.wf (wf bi inside))
      case h_2 => cases step
    case isFalse => cases step

omit [DecidableEq H] in
/-- A change keeps the invariant of every cell. -/
theorem Changes.wf (changes : Changes P t a t') (wf : t.WellFormed P.layout) :
    t'.bucketCount = t.bucketCount ∧ t'.WellFormed P.layout := by
  cases changes with
  | @commit _ bi c cell inside within cellWf mono plain =>
    refine ⟨rfl, fun i less => ?_⟩
    rw [Table.setBucket_buckets]
    split
    case isTrue same =>
      intro c' less'
      rw [Bucket.setCell_cells]
      split
      case isTrue => exact cellWf
      case isFalse => exact wf bi inside c' less'
    case isFalse => exact wf i less
  | @rehash bi isgc new capacity inside newWf =>
    refine ⟨rfl, fun i less => ?_⟩
    change ((t.setBucket bi new).buckets i).WellFormed P.layout
    rw [Table.setBucket_buckets]
    split
    case isTrue => exact newWf
    case isFalse => exact wf i less

omit [DecidableEq H] in
/-- A bucket that is not rehashed grows. -/
theorem Changes.grows (changes : Changes P t a t') (wf : t.WellFormed P.layout) {i : Nat}
    (inside : i < t.bucketCount) (other : ¬ a.Rehashes i) :
    (t.buckets i).Grows (t'.buckets i) := by
  cases changes with
  | @commit _ bi c cell _ within cellWf mono plain =>
    rw [Table.setBucket_buckets]
    split
    case isTrue same =>
      subst same
      exact Bucket.Grows.setCell (wf i inside c within) cellWf mono
    case isFalse => exact Bucket.Grows.refl _
  | @rehash bi isgc new capacity _ newWf =>
    change (t.buckets i).Grows ((t.setBucket bi new).buckets i)
    rw [Table.setBucket_buckets, if_neg fun same => other same.symm]
    exact Bucket.Grows.refl _

/-! ## Runs -/

theorem wf_of_run (run : Transition.Run (Table.change P) t steps t')
    (wf : t.WellFormed P.layout) : t'.bucketCount = t.bucketCount ∧ t'.WellFormed P.layout := by
  refine run.invariant (G := fun _ _ => True)
    (I := fun s => s.bucketCount = t.bucketCount ∧ s.WellFormed P.layout)
    (fun s a s' before _ step => ?_) (fun _ _ => trivial) ⟨rfl, wf⟩
  obtain ⟨count, after⟩ := (Changes.of_change before.2 step).wf before.2
  exact ⟨count.trans before.1, after⟩

/-- Between two rehashes of a bucket its cells only fill up. -/
theorem grows_of_run (run : Transition.Run (Table.change P) t steps t')
    (wf : t.WellFormed P.layout) {i : Nat} (inside : i < t.bucketCount)
    (without : ∀ p ∈ steps, ¬ p.2.Rehashes i) : (t.buckets i).Grows (t'.buckets i) := by
  induction run with
  | nil => exact Bucket.Grows.refl _
  | @snoc _ s _ a run step ih =>
    obtain ⟨count, before⟩ := wf_of_run run wf
    have grown := ih fun p mem => without p (by simp [mem])
    exact grown.trans ((Changes.of_change before step).grows before (count ▸ inside)
      (without (s, a) (by simp)))

/-- The occupancy of the cells in every table that the operations reach from `t₀`. -/
structure OccupancyAlong (P : TableParams F K V H E) (t₀ : Table F H E) : Prop where
  cells : ∀ t, Changed P t₀ t → ∀ i < t.bucketCount, ∀ c < (t.buckets i).cellCount,
    ((t.buckets i).cells c).Occupancy
  chosen : ∀ t, Changed P t₀ t → ∀ key res, t.searchForInsert P searchFuel key = .ok res →
    res.find = true →
      Chosen ((t.buckets (t.bucketOf P.layout key)).cells res.targetSlot.cell) res.targetSlot
  grows : ∀ t, Changed P t₀ t → ∀ steps t', Transition.Run (Table.change P) t steps t' →
    ∀ i < t.bucketCount, (∀ p ∈ steps, ¬ p.2.Rehashes i) → (t.buckets i).Grows (t'.buckets i)

theorem OccupancyAlong.of_wf (wf : t₀.WellFormed P.layout) : OccupancyAlong P t₀ where
  cells _ changed i inside c within := by
    obtain ⟨steps, run⟩ := changed
    exact ((wf_of_run run wf).2 i inside c within).occupancy
  chosen t changed key res search found := by
    obtain ⟨steps, run⟩ := changed
    have now := (wf_of_run run wf).2 _ (t.bucketOf_lt P.layout key)
    exact (Bucket.findSlotForInsert_answer now (Nat.lt_succ_self _) search).chosen found
  grows t changed steps t' run' i inside without := by
    obtain ⟨_, run⟩ := changed
    exact grows_of_run run' (wf_of_run run wf).2 inside without

end Changes

/-! ## The result -/

section Result

variable [DecidableEq H]

/-- A cell with all of its slots in use, such as the memory may hold that the allocator
hands out. -/
def usedUpCell (L : SlotLayout K V H E) : Cell F H E :=
  ⟨⟨BitVec.allOnes F.bits, 0, 0⟩, fun _ => 0, fun _ => L.zeroSlot⟩

omit [DecidableEq H] in
theorem not_occupancy_usedUpCell (L : SlotLayout K V H E) :
    ¬ (usedUpCell L : Cell F H E).Occupancy := by
  intro occupancy
  have count := occupancy.count_le
  have all : (usedUpCell L : Cell F H E).ver.bitmap &&& F.bitMapMask = F.bitMapMask :=
    BitVec.allOnes_and
  rw [all, CellMeta.popcount_bitMapMask] at count
  have := F.fullCount_eq
  omega

/-- On an allocator that hands out used-up cells, a bucket of 4 GiB starts with them. -/
theorem not_occupancyAlong {P : TableParams F K V H E} {bucketCount cellCount : UInt32}
    (bucketPower : Table.isPowerOfTwo bucketCount = true)
    (cellPower : Table.isPowerOfTwo cellCount = true)
    (large : 2 ^ 32 ≤ cellCount.toNat * F.cellSize)
    (uninit : ∀ i shift c, P.uninit i shift c = usedUpCell P.layout) :
    ∃ t₀, Table.construct P bucketCount cellCount = some t₀ ∧ ¬ OccupancyAlong P t₀ := by
  rw [Table.toNat_of_isPowerOfTwo cellPower] at large
  rw [Table.construct, bucketPower, cellPower]
  refine ⟨_, rfl, fun along => ?_⟩
  have first := along.cells _ ⟨[], .nil⟩ 0 (Table.bucketCount_pos _) 0 (Bucket.cellCount_pos _)
  dsimp only at first
  rw [Table.zeroedCells_of_le large, uninit] at first
  exact not_occupancy_usedUpCell P.layout first

/-- The occupancy invariant holds in every table that is reached from a new one, whatever
memory the allocator returns, exactly when a bucket takes less than 4 GiB. -/
theorem occupancy_iff (L : SlotLayout K V H E) {limit : Nat}
    (limit_le : limit ≤ kTurboCellCountLimit) {bucketCount cellCount : UInt32}
    (bucketPower : Table.isPowerOfTwo bucketCount = true)
    (cellPower : Table.isPowerOfTwo cellCount = true) :
    (∀ uninit (t₀ : Table F H E),
      Table.construct ⟨L, limit, limit_le, uninit⟩ bucketCount cellCount = some t₀ →
        OccupancyAlong ⟨L, limit, limit_le, uninit⟩ t₀ ∧
          ∀ fuel ops t results, maxProbeLen < fuel →
            run ⟨L, limit, limit_le, uninit⟩ fuel t₀ ops = .ok (t, results) →
              Changed ⟨L, limit, limit_le, uninit⟩ t₀ t) ↔
      cellCount.toNat * F.cellSize < 2 ^ 32 := by
  constructor
  · intro holds
    by_contra large
    obtain ⟨t₀, fresh, not⟩ := not_occupancyAlong
      (P := ⟨L, limit, limit_le, fun _ _ _ => usedUpCell L⟩) bucketPower cellPower
      (Nat.not_lt.mp large) fun _ _ _ => rfl
    exact not (holds _ t₀ fresh).1
  · intro small uninit t₀ fresh
    refine ⟨OccupancyAlong.of_wf ?_, fun fuel ops t results enough ok => changed_of_run enough ok⟩
    have refines := Table.Refines.construct fresh small
    exact fun i inside => (refines.valid.placed i inside).wf

theorem occupancy_iff_dram :
    (∀ uninit (t₀ : Table cellMeta128 UInt64 UInt64),
      Table.construct ⟨dramLayout, kTurboCellCountLimit, le_rfl, uninit⟩ 4 8 = some t₀ →
        OccupancyAlong ⟨dramLayout, kTurboCellCountLimit, le_rfl, uninit⟩ t₀ ∧
          ∀ fuel ops t results, maxProbeLen < fuel →
            run ⟨dramLayout, kTurboCellCountLimit, le_rfl, uninit⟩ fuel t₀ ops = .ok (t, results) →
              Changed ⟨dramLayout, kTurboCellCountLimit, le_rfl, uninit⟩ t₀ t) ↔
      (8 : UInt32).toNat * cellMeta128.cellSize < 2 ^ 32 :=
  occupancy_iff dramLayout le_rfl (by decide) (by decide)

/-- 2^25 cells of 128 bytes: no cell of the new bucket is zeroed. -/
theorem new_table_of_4GiB_used_up :
    ∃ t₀ : Table cellMeta128 UInt64 UInt64,
      Table.construct ⟨dramLayout, kTurboCellCountLimit, le_rfl, fun _ _ _ => usedUpCell dramLayout⟩
        1 33554432 = some t₀ ∧
      ¬ OccupancyAlong
        ⟨dramLayout, kTurboCellCountLimit, le_rfl, fun _ _ _ => usedUpCell dramLayout⟩ t₀ :=
  not_occupancyAlong (by decide +kernel) (by decide +kernel) (by decide) fun _ _ _ => rfl

end Result

end TurboHash
