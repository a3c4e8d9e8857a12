import TurboHash.BucketMetaPmem
import TurboHash.Lib.SharedMemory

/-!
# One bucket in persistent memory

`BucketHolds` says of one bucket what `Setup.Holds` says of a table, as an assertion about the
locations of the bucket. `Put`, `Delete` and `MinorRehash` are atomic under crashes in these terms, so
they stay so while other threads write to other buckets.
-/

namespace TurboHash.Pmem

open LineMemory

variable {K V H E : Type} {S : Setup K V H E}

namespace Setup

/-- Bucket `bi` lies in persistent memory, its cells where `b` says. -/
structure BucketHolds (S : Setup K V H E) (bi : Nat) (b : BucketMetaDram)
    (bucket : Bucket cellMeta256V2 H E) (R : S.Says) : Prop where
  metas : ∃ second, S.MetaHolds R bi b second
  shift : bucket.cellCountShift = b.shift
  cells : ∀ c < bucket.cellCount, S.CellHolds R b.address c (bucket.cells c)

/-- A bucket as a reader sees it, with the records behind its slots. -/
def bucket (S : Setup K V H E) (x : S.Content) (b : BucketMetaDram) : Bucket cellMeta256V2 H E :=
  ⟨b.shift, fun c => S.cell x b.address c⟩

variable {bi : Nat} {b : BucketMetaDram} {bucket : Bucket cellMeta256V2 H E} {R R' : S.Says}
  {buckets_ : Nat → BucketMetaDram} {t : Table cellMeta256V2 H E} {x : S.Content}

theorem BucketHolds.monotone : Monotone (S.BucketHolds bi b bucket) := by
  intro R R' keep holds
  obtain ⟨second, metaHolds⟩ := holds.metas
  exact ⟨⟨second, metaHolds.mono keep⟩, holds.shift, fun c less => (holds.cells c less).mono keep⟩

theorem Holds.bucketHolds (holds : S.Holds R buckets_ t) {i : Nat} (inside : i < t.bucketCount) :
    S.BucketHolds i (buckets_ i) (t.buckets i) R :=
  ⟨holds.metas i inside, holds.shift i inside, holds.cells i inside⟩

namespace BucketHolds

theorem wf (holds : S.BucketHolds bi b bucket R) : bucket.WellFormed S.layout :=
  fun c less => (holds.cells c less).cell_wf

theorem congr {bucket' : Bucket cellMeta256V2 H E} (holds : S.BucketHolds bi b bucket R)
    (agrees : bucket'.Agrees bucket) : S.BucketHolds bi b bucket' R where
  metas := holds.metas
  shift := agrees.shift.trans holds.shift
  cells c less := by
    rw [agrees.count_eq] at less
    exact (holds.cells c less).congr (agrees.cells c less)

/-- A bucket read from contents that hold it. -/
theorem agrees (holds : S.BucketHolds bi b bucket fun l w => x l = w) :
    (S.bucket x b).Agrees bucket :=
  ⟨holds.shift.symm, fun c less => (holds.cells c less).agrees⟩

theorem extract_eq (holds : S.BucketHolds bi b bucket fun l w => x l = w) :
    S.extract x bi = some b := by
  obtain ⟨second, metaHolds⟩ := holds.metas
  exact metaHolds.extract_eq

/-- A new content of one cell, with everything else kept but its version word. -/
theorem setCell {c : Nat} {cell' : Cell cellMeta256V2 H E} (holds : S.BucketHolds bi b bucket R)
    (target : S.CellHolds R' b.address c cell')
    (others : ∀ l w, l ≠ .ver b.address c → R l w → R' l w) :
    S.BucketHolds bi b (bucket.setCell c cell') R' where
  metas := by
    obtain ⟨second, metaHolds⟩ := holds.metas
    exact ⟨second, others _ _ (by simp) metaHolds.cur, others _ _ (by simp) metaHolds.ptr,
      others _ _ (by simp) metaHolds.shift⟩
  shift := holds.shift
  cells c' less := by
    rw [Bucket.setCell_cells]
    split
    case isTrue eq =>
      subst eq
      exact target
    case isFalse different =>
      have old := holds.cells c' less
      refine ⟨others _ _ (by simp [different]) old.ver, old.wf, fun j alive => ?_⟩
      obtain ⟨key, value, slot, tag, addr, slotHolds⟩ := old.stored j alive
      exact ⟨key, value, slot, tag, addr, slotHolds.mono (fun w => others _ w (by simp))
        (fun w => others _ w (by simp)) (fun w => others _ w (by simp))
        fun a w => others _ w (by simp)⟩

/-- What is true of all the locations that the bucket uses. -/
theorem restrict {A : Loc → Prop} (holds : S.BucketHolds bi b bucket R)
    (metas : ∀ second, A (.curVer bi) ∧ A (.bucketPtr second bi) ∧ A (.cellCountLeftshift second bi))
    (ver : ∀ c, A (.ver b.address c))
    (slot : ∀ c < bucket.cellCount, ∀ j, (bucket.cells c).live j = true →
      A (.tag b.address c j) ∧ A (.h1 b.address c j) ∧ A (.entry b.address c j))
    (byte : ∀ c < bucket.cellCount, ∀ j, (bucket.cells c).live j = true →
      ∀ key value addr bytes, S.SlotHolds R b.address c j key value addr →
        S.format.encode key value = some bytes → ∀ k < bytes.length, A (.byte (addr + k))) :
    S.BucketHolds bi b bucket fun l w => R l w ∧ A l where
  metas := by
    obtain ⟨second, metaHolds⟩ := holds.metas
    obtain ⟨cur, ptr, shift⟩ := metas second
    exact ⟨second, ⟨metaHolds.cur, cur⟩, ⟨metaHolds.ptr, ptr⟩, ⟨metaHolds.shift, shift⟩⟩
  shift := holds.shift
  cells c less := by
    have old := holds.cells c less
    refine ⟨⟨old.ver, ver c⟩, old.wf, fun j alive => ?_⟩
    obtain ⟨key, value, same, tag, addr, slotHolds⟩ := old.stored j alive
    obtain ⟨keepsTag, keepsH1, keepsEntry⟩ := slot c less j alive
    refine ⟨key, value, same, tag, addr, ⟨slotHolds.tag, keepsTag⟩, ⟨slotHolds.h1, keepsH1⟩,
      ⟨slotHolds.entry, keepsEntry⟩, slotHolds.fits, fun bytes encoded k b some => ?_⟩
    obtain ⟨within, -⟩ := List.getElem?_eq_some_iff.mp some
    exact ⟨slotHolds.record bytes encoded k b some,
      byte c less j alive key value addr bytes slotHolds encoded k within⟩

end BucketHolds

/-! ## `Put` and `Delete` -/

section Commits

variable {m : S.Memory} {mine : Loc → Prop} {key : K}

/-- A `Put` writes only what no live slot uses, and is atomic. -/
theorem atomic_put {value : V} {addr : Nat} {info : SlotInfo H}
    (holds : S.BucketHolds bi b bucket fun l w => (mine l ∧ Surely (lineOf S.metaWord) m l w) ∧
      ¬ S.PutWrites b.address info key value addr l)
    (target : PutTarget S.layout bucket key info)
    (onLine : ∀ bytes, S.format.encode key value = some bytes →
      Machine.OnOneLine addr bytes.length)
    (own : ∀ l, S.PutWrites b.address info key value addr l → mine l) :
    let version := putVersion (bucket.cells info.cell).ver info
    Atomic (lineOf S.metaWord) mine m
      (S.putPrepare b.address info key value addr ++ S.commitEvents b.address info.cell version)
      (.ver b.address info.cell) version (S.BucketHolds bi b bucket)
      (S.BucketHolds bi b (bucket.setCell info.cell (insertToSlotAndGC S.layout
        (S.layout.keyToHash key) key value (bucket.cells info.cell) info).1)) := by
  have cell := holds.cells info.cell target.inside
  have kept : S.BucketHolds bi b bucket fun l w => mine l ∧ Surely (lineOf S.metaWord) m l w ∧
      ∀ e ∈ S.putPrepare b.address info key value addr, e.Avoids (lineOf S.metaWord) l :=
    BucketHolds.monotone (fun l w held => ⟨held.1.1, held.1.2, avoids_putPrepare held.2⟩) holds
  refine Atomic.commit ⟨(bucket.cells info.cell).ver, ?_, (putVersion_ne cell.wf info).symm⟩ kept
    BucketHolds.monotone fun R published line sure => ?_
  · exact (kept.cells info.cell target.inside).ver.2
  · have stored := Machine.slotHolds_of_prepared (prepared onLine) target line sure
    have others : ∀ l w, l ≠ .ver b.address info.cell →
        (mine l ∧ Surely (lineOf S.metaWord) m l w ∧
          ∀ e ∈ S.putPrepare b.address info key value addr, e.Avoids (lineOf S.metaWord) l) →
        mine l ∧ R l w :=
      fun l w different held => ⟨held.1, sure l w different (held.2.1.execAll held.2.2)⟩
    have record : ∀ bytes, S.format.encode key value = some bytes →
        ∀ j w, bytes[j]? = some w → mine (.byte (addr + j)) := by
      intro bytes encoded j w some
      obtain ⟨less, -⟩ := List.getElem?_eq_some_iff.mp some
      exact own _ (Or.inr (Or.inr (Or.inr ⟨bytes, encoded, j, less, rfl⟩)))
    have slot : S.SlotHolds (fun l w => mine l ∧ R l w) b.address info.cell info.slot key value addr :=
      ⟨⟨own _ (Or.inl rfl), stored.tag⟩, ⟨own _ (Or.inr (Or.inl rfl)), stored.h1⟩,
        ⟨own _ (Or.inr (Or.inr (Or.inl rfl))), stored.entry⟩, stored.fits,
        fun bytes encoded j w some => ⟨record bytes encoded j w some,
          stored.record bytes encoded j w some⟩⟩
    have ver : mine (.ver b.address info.cell) ∧ R (.ver b.address info.cell)
        (putVersion (bucket.cells info.cell).ver info) := ⟨cell.ver.1.1, published⟩
    have put := (kept.cells info.cell target.inside).put ver target.wf target.lives slot others
    rw [← target.commit value] at put
    exact kept.setCell put others

/-- A `Delete` behind its tests is atomic. -/
theorem atomic_delete {c i : Nat}
    (holds : S.BucketHolds bi b bucket fun l w => mine l ∧ Surely (lineOf S.metaWord) m l w)
    (less : c < bucket.cellCount) (occupied : (bucket.cells c).ver.bitmap.getLsbD i = true) :
    let version := (bucket.cells c).ver.delete i
    Atomic (lineOf S.metaWord) mine m (S.commitEvents b.address c version) (.ver b.address c) version
      (S.BucketHolds bi b bucket)
      (S.BucketHolds bi b (bucket.setCell c (deleteCommit S.layout (bucket.cells c) i).1)) := by
  have cell := holds.cells c less
  have kept : S.BucketHolds bi b bucket fun l w => mine l ∧ Surely (lineOf S.metaWord) m l w ∧
      ∀ e ∈ ([] : List S.Event), e.Avoids (lineOf S.metaWord) l :=
    BucketHolds.monotone (fun l w held => ⟨held.1, held.2, by simp⟩) holds
  change Atomic (lineOf S.metaWord) mine m ([] ++ [.store (.ver b.address c)
    ((bucket.cells c).ver.delete i), .flushLine (lineOf S.metaWord (.ver b.address c)), .fence]) _ _ _ _
  refine Atomic.commit ⟨(bucket.cells c).ver, (kept.cells c less).ver.2, (delete_ne _ _).symm⟩ kept
    BucketHolds.monotone fun R published line sure => ?_
  have others : ∀ l w, l ≠ .ver b.address c → (mine l ∧ Surely (lineOf S.metaWord) m l w) →
      mine l ∧ R l w := fun l w different held => ⟨held.1, sure l w different held.2⟩
  have ver : mine (.ver b.address c) ∧ R (.ver b.address c) ((bucket.cells c).ver.delete i) :=
    ⟨cell.ver.1, published⟩
  rw [deleteCommit_eq cell.cell_wf]
  exact holds.setCell (cell.erase occupied ver others) others

end Commits

/-! ## `MinorRehash` -/

section Rehash

variable {m : S.Memory} {mine : Loc → Prop} {region shift n : Nat} {second : Bool}
  {new : Bucket cellMeta256V2 H S.format.Word}
  (holds : S.BucketHolds bi b (S.bucket (current (lineOf S.metaWord) m) b) fun l w =>
    mine l ∧ Surely (lineOf S.metaWord) m l w)
  (built : (S.rawBucket (current (lineOf S.metaWord) m) b).rehash S.rawLayout bi shift S.uninit =
    .ok (new, n))
include holds built

/-- What holds the new cells and their meta, and the records, holds the new bucket. -/
theorem bucketHolds_rehashed (metaHolds : S.MetaHolds R bi ⟨region, new.cellCountShift⟩ second)
    (written : ∀ c < new.cellCount, ∀ l, InCell region c l → R l (S.bucketContent new l))
    (kept : ∀ a w, (mine (.byte a) ∧ Surely (lineOf S.metaWord) m (.byte a) w) → R (.byte a) w) :
    S.BucketHolds bi ⟨region, new.cellCountShift⟩
      (new.mapEntry (S.format.resolve (S.heap (current (lineOf S.metaWord) m)))) R := by
  obtain ⟨placed, rehashed, -⟩ := Bucket.rehash_disp_lt_iff built (k := maxProbeLen)
  exact ⟨⟨second, metaHolds⟩, rfl, cellHolds_of_rehashed holds.cells
    (fun l w held => held.2.current) rehashed written kept⟩

/-- A `MinorRehash` into other cells is atomic. -/
theorem atomic_rehash (copy : S.nextCopy (current (lineOf S.metaWord) m) bi = some second)
    (limit : 2 ^ shift ≤ S.params.kCellCountLimit) (apart : b.address ≠ region)
    (onLine : lineOf S.metaWord (.bucketPtr second bi) = lineOf S.metaWord (.curVer bi))
    (ownMeta : mine (.curVer bi) ∧ mine (.bucketPtr second bi) ∧ mine (.cellCountLeftshift second bi))
    (ownCells : ∀ c l, InCell region c l → mine l) :
    Atomic (lineOf S.metaWord) mine m (S.rehashEvents new region bi second) (.curVer bi)
      (if second then 2 else 1 : UInt8)
      (S.BucketHolds bi b (S.bucket (current (lineOf S.metaWord) m) b))
      (S.BucketHolds bi ⟨region, new.cellCountShift⟩
        (new.mapEntry (S.format.resolve (S.heap (current (lineOf S.metaWord) m))))) := by
  obtain ⟨placed, rehashed, -⟩ := Bucket.rehash_disp_lt_iff built (k := maxProbeLen)
  let image : BucketImage S := ⟨⟨region, new.cellCountShift⟩, S.bucketContent new⟩
  have small : image.bucket.cellCount * cellMeta256V2.cellSize < 2 ^ 31 := by
    have same : image.bucket.cellCount = 2 ^ shift := rehashed.cellCount_eq
    rw [same]
    exact Machine.small_of_limit limit
  -- the copy in use is the other one
  obtain ⟨used, metaHolds⟩ := holds.metas
  have next := nextCopy_of_metaHolds (metaHolds.mono fun l w held => held.2.current)
  obtain rfl : used = !second := by
    rw [copy, Option.some_inj] at next
    rw [next, Bool.not_not]
  constructor
  · intro done todo split keep
    dsimp only
    have split : done ++ todo = S.writeCells image ++ S.metaStore second bi image.bucket := split
    rcases store_crash (m := m) small split onLine keep with
      kept | ⟨published, ⟨metaNew, written⟩, kept⟩
    · right
      obtain ⟨metaOld, unpublished⟩ := MetaHolds.crash (metaHolds.mono fun l w held => held.2) kept
      refine ⟨unpublished, ⟨!second, ?_⟩, rfl, fun c less => ?_⟩
      · exact ⟨⟨metaHolds.cur.1, metaOld.cur⟩, ⟨metaHolds.ptr.1, metaOld.ptr⟩,
          ⟨metaHolds.shift.1, metaOld.shift⟩⟩
      · refine (holds.cells c less).elsewhere apart fun l w
          (elsewhere : Elsewhere region bi l) held => ⟨held.1, ?_⟩
        obtain ⟨-, ptr, count⟩ := ne_of_elsewhere elsewhere second
        exact kept l w (avoids_writeCells elsewhere) ptr count held.2
    · left
      refine ⟨published, ?_⟩
      exact bucketHolds_rehashed holds built
        ⟨⟨ownMeta.1, metaNew.cur⟩, ⟨ownMeta.2.1, metaNew.ptr⟩, ⟨ownMeta.2.2, metaNew.shift⟩⟩
        (fun c less l inCell => ⟨ownCells c l inCell, written c less l inCell⟩)
        fun a w held => ⟨held.1, kept _ _ trivial held.2⟩
  · have metaNew : S.MetaHolds (Surely (lineOf S.metaWord) (execAll (lineOf S.metaWord) m
        (S.rehashEvents new region bi second))) bi ⟨region, new.cellCountShift⟩ second := by
      rw [rehashEvents, execAll_append]
      exact metaHolds_metaStore onLine
    refine bucketHolds_rehashed holds built
      ⟨⟨ownMeta.1, metaNew.cur⟩, ⟨ownMeta.2.1, metaNew.ptr⟩, ⟨ownMeta.2.2, metaNew.shift⟩⟩
      (fun c less l inCell => ⟨ownCells c l inCell, ?_⟩) fun a w held => ⟨held.1, ?_⟩
    · rw [rehashEvents, execAll_append]
      exact (surely_inCell small less inCell).execAll
        (avoids_metaStore (elsewhere_of_inCell inCell (Nat.succ_ne_self _).symm))
    · refine held.2.execAll fun e mem => ?_
      have elsewhere : Elsewhere region bi (.byte a) := trivial
      rcases List.mem_append.mp mem with mem | mem
      · exact avoids_writeRegion elsewhere e mem
      · exact avoids_metaStore elsewhere e mem

end Rehash

end Setup

end TurboHash.Pmem
