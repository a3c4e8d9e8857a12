import TurboHash.PmemTable

/-!
# What the memory surely holds

`Setup.Holds` says that a table lies in persistent memory, in terms of a relation `R`
between locations and values: the metas of its buckets, its version words, and what
belongs to its live slots, the tag, the two words and the record. With "`l` surely holds
`v`" for `R`, the table survives every crash; with "the image of a crash has `v` at `l`",
it is what `Recover` finds.
-/

namespace TurboHash.Pmem

open LineMemory

namespace Setup

variable {K V H E : Type} (S : Setup K V H E)

/-- What a relation says about the locations. -/
abbrev Says : Type := ∀ l : Loc, l.Val H S.format.Word → Prop

/-- Slot `i` of cell `c` holds `key` and `value`, with a record at `addr` if there is one. -/
structure SlotHolds (R : S.Says) (r c i : Nat) (key : K) (value : V) (addr : Nat) : Prop where
  tag : R (.tag r c i) (S.layout.keyHash key).h2
  h1 : R (.h1 r c i) (S.layout.keyHash key).h1
  entry : R (.entry r c i) (S.format.word value addr)
  fits : ∀ bytes, S.format.encode key value = some bytes → bytes.length ≤ cacheLineSize
  record : ∀ bytes, S.format.encode key value = some bytes →
    ∀ j b, bytes[j]? = some b → R (.byte (addr + j)) b

/-- Cell `c` of a region holds the version word and the live slots of `cell`. -/
structure CellHolds (R : S.Says) (r c : Nat) (cell : Cell cellMeta256V2 H E) : Prop where
  ver : R (.ver r c) cell.ver
  wf : cell.ver.WellFormed
  stored : ∀ i, cell.live i = true → ∃ key value,
    cell.slots i = S.layout.slotOf key value ∧ cell.tags i = (S.layout.keyHash key).h2 ∧
      ∃ addr, S.SlotHolds R r c i key value addr

/-- The `BucketMetaPmem` of bucket `bi` yields `b`, from the copy `second`. -/
structure MetaHolds (R : S.Says) (bi : Nat) (b : BucketMetaDram) (second : Bool) : Prop where
  cur : R (.curVer bi) (if second then 2 else 1 : UInt8)
  ptr : R (.bucketPtr second bi) b.address
  shift : R (.cellCountLeftshift second bi) b.shift

/-- Table `t` lies in persistent memory, its buckets in the regions of `buckets_`. -/
structure Holds (R : S.Says) (buckets_ : Nat → BucketMetaDram) (t : Table cellMeta256V2 H E) :
    Prop where
  metas : ∀ i < t.bucketCount, ∃ second, S.MetaHolds R i (buckets_ i) second
  apart : ∀ i < t.bucketCount, ∀ j < t.bucketCount,
    (buckets_ i).address = (buckets_ j).address → i = j
  shift : ∀ i < t.bucketCount, (t.buckets i).cellCountShift = (buckets_ i).shift
  cells : ∀ i < t.bucketCount, ∀ c < (t.buckets i).cellCount,
    S.CellHolds R (buckets_ i).address c ((t.buckets i).cells c)

variable {S} {R R' : S.Says} {r c : Nat} {cell : Cell cellMeta256V2 H E}
  {buckets_ : Nat → BucketMetaDram} {t : Table cellMeta256V2 H E}

/-- The record of a slot, where the relation says what a content has. -/
theorem SlotHolds.lineRecordAt {x : S.Content} {i addr : Nat} {key : K} {value : V}
    {bytes : List UInt8} (holds : S.SlotHolds R r c i key value addr)
    (read : ∀ a w, R (.byte a) w → x (.byte a) = w)
    (encoded : S.format.encode key value = some bytes) : LineRecordAt (S.heap x) addr bytes :=
  ⟨holds.fits bytes encoded, fun j b some => read _ _ (holds.record bytes encoded j b some)⟩

/-! ## Weakening -/

theorem SlotHolds.mono {i addr : Nat} {key : K} {value : V}
    (holds : S.SlotHolds R r c i key value addr) (tag : ∀ w, R (.tag r c i) w → R' (.tag r c i) w)
    (h1 : ∀ w, R (.h1 r c i) w → R' (.h1 r c i) w)
    (entry : ∀ w, R (.entry r c i) w → R' (.entry r c i) w)
    (byte : ∀ a w, R (.byte a) w → R' (.byte a) w) : S.SlotHolds R' r c i key value addr :=
  ⟨tag _ holds.tag, h1 _ holds.h1, entry _ holds.entry, holds.fits,
    fun bytes encoded j b some => byte _ _ (holds.record bytes encoded j b some)⟩

theorem CellHolds.mono (holds : S.CellHolds R r c cell)
    (keep : ∀ l w, R l w → R' l w) : S.CellHolds R' r c cell where
  ver := keep _ _ holds.ver
  wf := holds.wf
  stored i alive := by
    obtain ⟨key, value, slot, tag, addr, slotHolds⟩ := holds.stored i alive
    exact ⟨key, value, slot, tag, addr,
      slotHolds.mono (keep _) (keep _) (keep _) fun a => keep (.byte a)⟩

theorem MetaHolds.mono {bi : Nat} {b : BucketMetaDram} {second : Bool}
    (holds : S.MetaHolds R bi b second) (keep : ∀ l w, R l w → R' l w) :
    S.MetaHolds R' bi b second :=
  ⟨keep _ _ holds.cur, keep _ _ holds.ptr, keep _ _ holds.shift⟩

theorem Holds.mono (holds : S.Holds R buckets_ t) (keep : ∀ l w, R l w → R' l w) :
    S.Holds R' buckets_ t where
  metas i inside := by
    obtain ⟨second, metaHolds⟩ := holds.metas i inside
    exact ⟨second, metaHolds.mono keep⟩
  apart := holds.apart
  shift := holds.shift
  cells i inside c less := (holds.cells i inside c less).mono keep

/-! ## The occupancy invariant -/

theorem CellHolds.cell_wf (holds : S.CellHolds R r c cell) : cell.WellFormed S.layout where
  ver := holds.wf
  stored i alive := by
    obtain ⟨key, value, slot, tag, -⟩ := holds.stored i alive
    exact ⟨key, value, slot, tag⟩

theorem Holds.wf (holds : S.Holds R buckets_ t) :
    ∀ i < t.bucketCount, (t.buckets i).WellFormed S.layout :=
  fun i inside c less => (holds.cells i inside c less).cell_wf

/-! ## Reading back -/

theorem CellHolds.congr {cell' : Cell cellMeta256V2 H E} (holds : S.CellHolds R r c cell)
    (agrees : cell'.Agrees cell) : S.CellHolds R r c cell' where
  ver := agrees.ver ▸ holds.ver
  wf := agrees.ver ▸ holds.wf
  stored i alive := by
    rw [agrees.live_eq] at alive
    obtain ⟨key, value, slot, tag, rest⟩ := holds.stored i alive
    exact ⟨key, value, (agrees.slots i alive).trans slot, (agrees.tags i alive).trans tag, rest⟩

theorem Holds.congr {t' : Table cellMeta256V2 H E} {buckets' : Nat → BucketMetaDram}
    (holds : S.Holds R buckets_ t) (agrees : t'.Agrees t)
    (same : ∀ i < t.bucketCount, buckets' i = buckets_ i) : S.Holds R buckets' t' where
  metas i inside := by
    rw [agrees.count_eq] at inside
    rw [same i inside]
    exact holds.metas i inside
  apart i inside j inside' := by
    rw [agrees.count_eq] at inside inside'
    rw [same i inside, same j inside']
    exact holds.apart i inside j inside'
  shift i inside := by
    rw [agrees.count_eq] at inside
    rw [same i inside, (agrees.buckets i inside).shift]
    exact holds.shift i inside
  cells i inside c less := by
    rw [agrees.count_eq] at inside
    rw [(agrees.buckets i inside).count_eq] at less
    rw [same i inside]
    exact (holds.cells i inside c less).congr ((agrees.buckets i inside).cells c less)

variable {x : S.Content}

/-- A cell read from contents that hold it. -/
theorem CellHolds.agrees (holds : S.CellHolds (fun l w => x l = w) r c cell) :
    (S.cell x r c).Agrees cell where
  ver := holds.ver
  slots i alive := by
    obtain ⟨key, value, slot, -, addr, slotHolds⟩ := holds.stored i alive
    have word : S.format.resolve (S.heap x) (x (.entry r c i)) = (S.layout.slotOf key value).entry := by
      rw [slotHolds.entry]
      exact S.format.resolve_word _ _ _ _ _ fun bytes =>
        slotHolds.lineRecordAt fun _ _ read => read
    rw [slot]
    exact HashSlot.ext (slotHolds.h1.trans (S.layout.slotOf_h1 key value).symm) word
  tags i alive := by
    obtain ⟨key, value, -, tag, addr, slotHolds⟩ := holds.stored i alive
    rw [tag]
    exact slotHolds.tag

theorem MetaHolds.extract_eq {bi : Nat} {b : BucketMetaDram} {second : Bool}
    (holds : S.MetaHolds (fun l w => x l = w) bi b second) : S.extract x bi = some b := by
  unfold extract
  dsimp only
  rw [holds.cur]
  cases second with
  | false => rw [if_pos (by rfl), holds.ptr, holds.shift]
  | true => rw [if_neg (by decide), if_pos (by rfl), holds.ptr, holds.shift]

/-- `Recover` finds the metas. -/
theorem Holds.recover_eq (holds : S.Holds (fun l w => x l = w) buckets_ t) :
    ∃ buckets', S.recover x t.bucketCount = some buckets' ∧
      ∀ i < t.bucketCount, buckets' i = buckets_ i := by
  have found : ∀ i < t.bucketCount, S.extract x i = some (buckets_ i) := fun i inside => by
    obtain ⟨second, metaHolds⟩ := holds.metas i inside
    exact metaHolds.extract_eq
  refine ⟨_, if_pos fun i inside => by rw [found i inside]; rfl, fun i inside => ?_⟩
  rw [found i inside]
  rfl

/-- The table read with these metas agrees with the one the contents hold. -/
theorem Holds.agrees {buckets' : Nat → BucketMetaDram}
    (holds : S.Holds (fun l w => x l = w) buckets_ t)
    (same : ∀ i < t.bucketCount, buckets' i = buckets_ i) :
    (S.table x t.bucketCountShift buckets').Agrees t where
  count := rfl
  buckets i inside := by
    constructor
    · rw [holds.shift i inside, ← same i inside]
      rfl
    · intro c less
      change (S.cell x (buckets' i).address c).Agrees _
      rw [same i inside]
      exact (holds.cells i inside c less).agrees

/-! ## Replacing one cell -/

/-- A new content of one cell, with everything else kept but its version word. -/
theorem Holds.setCell {bi : Nat} {cell' : Cell cellMeta256V2 H E} (holds : S.Holds R buckets_ t)
    (inside : bi < t.bucketCount)
    (target : S.CellHolds R' (buckets_ bi).address c cell')
    (others : ∀ l w, l ≠ .ver (buckets_ bi).address c → R l w → R' l w) :
    S.Holds R' buckets_ (t.setBucket bi ((t.buckets bi).setCell c cell')) where
  metas i less := by
    obtain ⟨second, metaHolds⟩ := holds.metas i less
    exact ⟨second, others _ _ (by simp) metaHolds.cur, others _ _ (by simp) metaHolds.ptr,
      others _ _ (by simp) metaHolds.shift⟩
  apart := holds.apart
  shift i less := by
    rw [Table.setBucket_buckets]
    split
    case isTrue eq => rw [Bucket.setCell_shift, ← holds.shift i less, eq]
    case isFalse => exact holds.shift i less
  cells i less c' within := by
    rw [Table.setBucket_buckets] at within ⊢
    have other : (buckets_ i).address ≠ (buckets_ bi).address ∨ c' ≠ c →
        c' < (t.buckets i).cellCount →
        S.CellHolds R' (buckets_ i).address c' ((t.buckets i).cells c') := by
      intro different within
      have old := holds.cells i less c' within
      refine ⟨others _ _ (fun eq => ?_) old.ver, old.wf, fun j alive => ?_⟩
      · rw [Loc.ver.injEq] at eq
        rcases different with different | different
        · exact different eq.1
        · exact different eq.2
      · obtain ⟨key, value, slot, tag, addr, slotHolds⟩ := old.stored j alive
        exact ⟨key, value, slot, tag, addr, slotHolds.mono (fun w => others _ w (by simp))
          (fun w => others _ w (by simp)) (fun w => others _ w (by simp))
          fun a w => others _ w (by simp)⟩
    split at within
    case isTrue eq =>
      subst eq
      rw [if_pos rfl, Bucket.setCell_cells]
      split
      case isTrue eq =>
        subst eq
        exact target
      case isFalse different => exact other (Or.inr different) within
    case isFalse different =>
      rw [if_neg different]
      exact other (Or.inl fun same => different (holds.apart i less bi inside same)) within

end Setup

end TurboHash.Pmem
