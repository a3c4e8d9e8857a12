import TurboHash.Pending
import TurboHash.RehashMoves

/-!
# The records of a table

The records that the live slots refer to, cell by cell. A `Put` adds the record that it has
allocated and drops the one that it retires, a `Delete` drops the one that it retires, and a
`MinorRehash` keeps them.
-/

namespace TurboHash

variable {F : CellFormat} {K V H E : Type} {L : SlotLayout K (Nat × V) H E}

/-! ## Slots -/

theorem recordAddress_slotOf (key : K) (address : Nat) (value : V) :
    recordAddress L (L.slotOf key (address, value)) = some address := by
  rw [recordAddress, L.decode_slotOf]
  rfl

/-- `ReleaseAddress` returns the record of a slot that was stored. -/
theorem SlotLayout.HasRecords.release_slotOf (records : L.HasRecords) (key : K) (address : Nat)
    (value : V) :
    ((L.releaseAddress (L.slotOf key (address, value))).bind fun _ =>
      recordAddress L (L.slotOf key (address, value))) = some address := by
  have some := records (L.slotOf key (address, value))
  rw [L.decode_slotOf, Option.isSome_some, Option.isSome_iff_exists] at some
  obtain ⟨entry, released⟩ := some
  rw [released, Option.bind_some, recordAddress_slotOf]

theorem flatKeyLayout_hasRecords {K V : Type} [Inhabited K] (keyToHash toSizeT : K → UInt64) :
    (flatKeyLayout keyToHash toSizeT : SlotLayout K V K (Option (K × V))).HasRecords := by
  rintro ⟨key, entry⟩
  cases entry <;> rfl

theorem stringKeyLayout_hasRecords {K V : Type} [DecidableEq K] (keyToHash : K → UInt64) :
    (stringKeyLayout keyToHash : SlotLayout K V UInt64 (Option (K × V))).HasRecords := by
  rintro ⟨hash, entry⟩
  cases entry <;> rfl

/-! ## Cells -/

namespace Cell

/-- The record of slot `i`, if the slot is live. -/
def recordAt (L : SlotLayout K (Nat × V) H E) (c : Cell F H E) (i : Nat) : Multiset Nat :=
  if c.live i then ((recordAddress L (c.slots i)).toList : List Nat) else 0

/-- The records of a cell. -/
def records (L : SlotLayout K (Nat × V) H E) (c : Cell F H E) : Multiset Nat :=
  ∑ i ∈ Finset.range F.bits, c.recordAt L i

variable {c : Cell F H E} {slot oldSlot : Nat} {key : K} {value : V} {address old : Nat}

theorem Holds.recordAt {i : Nat} {pair : Nat × V} (holds : c.Holds L i key pair) :
    c.recordAt L i = {pair.1} := by
  rw [Cell.recordAt, if_pos holds.1, holds.2, recordAddress_slotOf]
  rfl

theorem recordAt_of_dead {i : Nat} (dead : c.live i = false) : c.recordAt L i = 0 := by
  rw [recordAt, dead]
  rfl

/-- The record of a slot depends on the slot and on whether it is live. -/
theorem recordAt_congr {c' : Cell F H E} {i : Nat} (live : c'.live i = c.live i)
    (slots : c'.slots i = c.slots i) : c'.recordAt L i = c.recordAt L i := by
  rw [recordAt, recordAt, live, slots]

theorem recordAt_insert (free : c.ver.Insertable slot) (i : Nat) :
    (c.put L slot key (address, value) (c.ver.insert slot)).recordAt L i =
      Function.update (c.recordAt L) slot {address} i := by
  rw [Function.update_apply]
  split
  case isTrue here => exact ((holds_insert free).mpr (Or.inl ⟨here, rfl, rfl⟩)).recordAt
  case isFalse other =>
    refine recordAt_congr ?_ (put_slots_of_ne other)
    exact (Version.live_insert free.2.1).trans (by simp [other, live])

theorem recordAt_update (alive : c.live oldSlot = true) (free : c.ver.Backup slot) (i : Nat) :
    (c.put L slot key (address, value) (c.ver.update slot oldSlot)).recordAt L i =
      Function.update (Function.update (c.recordAt L) slot {address}) oldSlot 0 i := by
  have live_eq : (c.put L slot key (address, value) (c.ver.update slot oldSlot)).live i =
      ((c.live i || decide (i = slot)) && decide (i ≠ oldSlot)) :=
    Version.live_update alive free.2.1
  rw [Function.update_apply]
  split
  case isTrue old => exact recordAt_of_dead (by rw [live_eq]; simp [old])
  case isFalse notOld =>
    rw [Function.update_apply]
    split
    case isTrue here =>
      have stored : (c.put L slot key (address, value) (c.ver.update slot oldSlot)).Holds L i key
          (address, value) :=
        ⟨by rw [live_eq]; simp [here, here ▸ notOld], here ▸ put_slots_self⟩
      exact stored.recordAt
    case isFalse other =>
      refine recordAt_congr ?_ (put_slots_of_ne other)
      rw [live_eq]
      simp [other, notOld]

theorem recordAt_erase (alive : c.live slot = true) (i : Nat) :
    (c.erase slot).recordAt L i = Function.update (c.recordAt L) slot 0 i := by
  have live_eq : (c.erase slot).live i = (c.live i && decide (i ≠ slot)) :=
    Version.live_delete (Version.lt_bits_of_live alive)
  rw [Function.update_apply]
  split
  case isTrue here => exact recordAt_of_dead (by rw [live_eq]; simp [here])
  case isFalse other => exact recordAt_congr (by rw [live_eq]; simp [other]) rfl

theorem records_insert (free : c.ver.Insertable slot) :
    (c.put L slot key (address, value) (c.ver.insert slot)).records L =
      c.records L + {address} := by
  have added := Heap.sum_update (Finset.mem_range.mpr free.2.1) (c.recordAt L) {address}
  rw [recordAt_of_dead free.not_live, add_zero] at added
  rw [records, Finset.sum_congr rfl fun i _ => recordAt_insert free i, added, records]

theorem ne_of_backup (alive : c.live oldSlot = true) (free : c.ver.Backup slot) :
    oldSlot ≠ slot := by
  rintro rfl
  exact Bool.false_ne_true (free.not_live.symm.trans alive)

/-- An update exchanges the record of the old slot for the new one. -/
theorem records_update {pair : Nat × V} {oldKey : K} (holds : c.Holds L oldSlot oldKey pair)
    (free : c.ver.Backup slot) :
    (c.put L slot key (address, value) (c.ver.update slot oldSlot)).records L + {pair.1} =
      c.records L + {address} := by
  have added := Heap.sum_update (Finset.mem_range.mpr free.2.1) (c.recordAt L) {address}
  have dropped := Heap.sum_update (Finset.mem_range.mpr (Version.lt_bits_of_live holds.1))
    (Function.update (c.recordAt L) slot {address}) 0
  rw [recordAt_of_dead free.not_live, add_zero] at added
  rw [Function.update_of_ne (ne_of_backup holds.1 free), holds.recordAt, add_zero, added] at dropped
  rw [records, Finset.sum_congr rfl fun i _ => recordAt_update holds.1 free i, dropped, records]

theorem records_erase {pair : Nat × V} (holds : c.Holds L slot key pair) :
    (c.erase slot).records L + {pair.1} = c.records L := by
  have dropped := Heap.sum_update (Finset.mem_range.mpr (Version.lt_bits_of_live holds.1))
    (c.recordAt L) 0
  rw [holds.recordAt, add_zero] at dropped
  rw [records, Finset.sum_congr rfl fun i _ => recordAt_erase holds.1 i, dropped, records]

/-- The records of a cell are those of its live slots. -/
theorem records_eq (c : Cell F H E) :
    c.records L = (c.liveSlots.filterMap fun word => recordAddress L ⟨word.1, word.2.2⟩ :
      List Nat) := by
  rw [liveSlots, List.filterMap_map, List.filterMap_filter, List.filterMap_eq_flatMap_toList,
    Heap.coe_flatMap_range, records]
  refine Finset.sum_congr rfl fun i _ => ?_
  rw [recordAt]
  split <;> rfl

end Cell

/-! ## Buckets and tables -/

/-- The records of a bucket. -/
def Bucket.records (L : SlotLayout K (Nat × V) H E) (b : Bucket F H E) : Multiset Nat :=
  ∑ c ∈ Finset.range b.cellCount, (b.cells c).records L

/-- The records of a table. -/
def Table.records (L : SlotLayout K (Nat × V) H E) (t : Table F H E) : Multiset Nat :=
  ∑ i ∈ Finset.range t.bucketCount, (t.buckets i).records L

namespace Bucket

theorem records_setCell {b : Bucket F H E} {i : Nat} (inside : i < b.cellCount) (c : Cell F H E) :
    (b.setCell i c).records L + (b.cells i).records L = b.records L + c.records L := by
  have exchanged := Heap.sum_exchange (Finset.mem_range.mpr inside)
    (f := fun j => (b.cells j).records L) (g := fun j => ((b.setCell i c).cells j).records L)
    fun j _ other => by rw [setCell_of_ne b c other]
  rwa [setCell_self] at exchanged

theorem records_eq (b : Bucket F H E) :
    b.records L = (b.liveSlots.filterMap fun word => recordAddress L ⟨word.1, word.2.2⟩ :
      List Nat) := by
  rw [liveSlots, List.filterMap_flatMap, Heap.coe_flatMap_range, records]
  exact Finset.sum_congr rfl fun c _ => (b.cells c).records_eq

/-- The addresses that the iterator yields. -/
theorem coe_iterate {b : Bucket F H E} (wf : ∀ c < b.cellCount, (b.cells c).ver.WellFormed)
    (bi : Nat) :
    (((BucketIterator.start bi b.cells b.cellCount).toList.filterMap fun res =>
      recordAddress L res.hashSlot : List Nat) : Multiset Nat) = b.records L := by
  rw [iterate_eq_liveInfos, records_eq, Multiset.coe_eq_coe]
  have words : ((b.liveInfos bi).map InfoPair.words).Perm b.liveSlots := map_words_liveInfos wf
  refine List.Perm.trans ?_ (words.filterMap _)
  rw [List.filterMap_map, List.filterMap_congr fun info mem => ?_]
  change recordAddress L info.hashSlot = recordAddress L ⟨info.slotInfo.h1, info.hashSlot.entry⟩
  rw [h1_of_mem_liveInfos mem]

end Bucket

namespace Table

variable {t t' : Table F H E} {bi : Nat}

theorem records_setBucket (inside : bi < t.bucketCount) (b : Bucket F H E) :
    (t.setBucket bi b).records L + (t.buckets bi).records L = t.records L + b.records L := by
  have exchanged := Heap.sum_exchange (Finset.mem_range.mpr inside)
    (f := fun j => (t.buckets j).records L) (g := fun j => ((t.setBucket bi b).buckets j).records L)
    fun j _ other => by rw [setBucket_buckets, if_neg other]
  rwa [setBucket_buckets, if_pos rfl] at exchanged

/-- A cell is committed that has gained `gained` and lost `lost`. -/
theorem records_setCell (inside : bi < t.bucketCount) {i : Nat} (within : i < (t.buckets bi).cellCount)
    {c : Cell F H E} {gained lost : Multiset Nat}
    (cell : c.records L + lost = ((t.buckets bi).cells i).records L + gained) :
    (t.setBucket bi ((t.buckets bi).setCell i c)).records L + lost = t.records L + gained := by
  have bucket := Bucket.records_setCell (L := L) within c
  have table := records_setBucket (L := L) inside ((t.buckets bi).setCell i c)
  generalize (t.buckets bi).setCell i c = b at bucket table ⊢
  generalize ((t.buckets bi).cells i).records L = before at bucket cell
  refine add_right_cancel (b := (t.buckets bi).records L + b.records L + before) ?_
  calc (t.setBucket bi b).records L + lost + ((t.buckets bi).records L + b.records L + before)
      = (t.setBucket bi b).records L + (t.buckets bi).records L + (b.records L + before) + lost := by
        ac_rfl
    _ = t.records L + b.records L + (t.buckets bi).records L + (c.records L + lost) := by
        rw [table, bucket]
        ac_rfl
    _ = t.records L + gained + ((t.buckets bi).records L + b.records L + before) := by
        rw [cell]
        ac_rfl

/-! ## The operations -/

section Operations

variable {P : TableParams F K (Nat × V) H E}

/-- A rehash keeps the records. -/
theorem records_minorRehash (wf : t.WellFormed P.layout) (inside : bi < t.bucketCount)
    {isgc : Bool} {n : Nat} (ok : t.minorRehash P bi isgc = .ok (t', n)) :
    t'.records P.layout = t.records P.layout := by
  have moves := minorRehash_moves (fun c within => (wf bi inside c within).ver) ok
  rw [records, records, moves.others.1]
  refine Finset.sum_congr rfl fun i _ => ?_
  by_cases here : i = bi
  · rw [here, Bucket.records_eq, Bucket.records_eq, ← Multiset.filterMap_coe, moves.live]
    rfl
  · rw [moves.others.2 i here]

variable [DecidableEq H]

/-- The record that `insertSlot` retires. -/
def retiredByInsert (P : TableParams F K (Nat × V) H E) (t : Table F H E) (key : K)
    (pair : Nat × V) (target : SlotInfo H) : Option Nat :=
  let cell := (t.buckets (t.bucketOf P.layout key)).cells target.cell
  (insertToSlotAndGC P.layout (P.layout.keyToHash key) key pair cell target).2.bind fun _ =>
    recordAddress P.layout (cell.slots target.oldSlot)

/-- A `Put` adds a record and drops the one that it retires. -/
theorem records_commit (records : P.layout.HasRecords) (wf : t.WellFormed P.layout) {fuel : Nat}
    (enough : maxProbeLen < fuel) {key : K} {res : FindSlotForInsertResult H}
    (search : t.searchForInsert P fuel key = .ok res) (found : res.find = true) (address : Nat)
    (value : V) :
    (t.commit P key (address, value) res.targetSlot).records P.layout +
        (t.retiredByInsert P key (address, value) res.targetSlot).toList =
      t.records P.layout + {address} := by
  have inside := t.bucketOf_lt P.layout key
  have answer := Bucket.findSlotForInsert_answer (wf _ inside) enough search
  cases answer with
  | @update c oldSlot slot within _ old holds free =>
    have retired : t.retiredByInsert P key (address, value) ⟨t.bucketOf P.layout key, c, slot,
        (P.layout.keyHash key).h1, (P.layout.keyHash key).h2, true, oldSlot⟩ = some old.1 := by
      have other := Cell.ne_of_backup holds.1 free
      simp only [retiredByInsert, insertToSlotAndGC, if_true, Cell.setTag, Cell.setSlot,
        Function.update_of_ne other, holds.2]
      exact records.release_slotOf key old.1 old.2
    rw [retired, commit]
    refine records_setCell inside within ?_
    rw [insertToSlotAndGC_update (wf _ inside c within)]
    exact Cell.records_update holds free
  | @insert c slot within _ free _ =>
    have retired : t.retiredByInsert P key (address, value) ⟨t.bucketOf P.layout key, c, slot,
        (P.layout.keyHash key).h1, (P.layout.keyHash key).h2, false, 0⟩ = none := rfl
    rw [retired, commit]
    refine records_setCell inside within ?_
    rw [insertToSlotAndGC_insert (wf _ inside c within), Cell.records_insert free]
    exact add_zero _
  | noRoom => cases found

/-- The record that `deleteSlot` retires. -/
def retiredByDelete (P : TableParams F K (Nat × V) H E) (t : Table F H E) (key : K)
    (c i : Nat) : Option Nat :=
  let cell := (t.buckets (t.bucketOf P.layout key)).cells c
  (deleteCommit P.layout cell i).2.bind fun _ => recordAddress P.layout (cell.slots i)

/-- A `Delete` drops the record that it retires. -/
theorem records_deleteCommit (records : P.layout.HasRecords) (wf : t.WellFormed P.layout)
    {fuel : Nat} (enough : maxProbeLen < fuel) {key : K} {c i : Nat}
    (search : t.searchForDelete P fuel key = .ok (some (c, i))) :
    (t.setBucket (t.bucketOf P.layout key) ((t.buckets (t.bucketOf P.layout key)).setCell c
        (deleteCommit P.layout ((t.buckets (t.bucketOf P.layout key)).cells c) i).1)).records
          P.layout + (t.retiredByDelete P key c i).toList =
      t.records P.layout := by
  have inside := t.bucketOf_lt P.layout key
  obtain ⟨within, old, holds⟩ := Bucket.findSlotForDelete_answer (wf _ inside) enough search
  have retired : t.retiredByDelete P key c i = some old.1 := by
    simp only [retiredByDelete, deleteCommit, holds.2]
    exact records.release_slotOf key old.1 old.2
  rw [retired, deleteCommit_eq (wf _ inside c within)]
  have cell := (Cell.records_erase holds).trans (add_zero _).symm
  have dropped := records_setCell inside within cell
  rwa [add_zero] at dropped

end Operations

/-! ## `ReleaseRecords` -/

/-- The shares of the threads make up the buckets. -/
theorem flatMap_range'_mul (share threads : Nat) :
    ((List.range threads).flatMap fun t => List.range' (share * t) share) =
      List.range (share * threads) := by
  induction threads with
  | zero => rfl
  | succ threads ih =>
    rw [List.range_succ, List.flatMap_append, ih, List.flatMap_singleton, Nat.mul_succ,
      List.range_eq_range', List.range_eq_range', ← List.range'_append_1, Nat.zero_add]

/-- Up to eight threads visit every bucket. -/
theorem share_mul_threads (t : Table F H E) :
    t.bucketCount / min 8 t.bucketCount * min 8 t.bucketCount = t.bucketCount := by
  refine Nat.div_mul_cancel ?_
  change min (2 ^ 3) (2 ^ t.bucketCountShift) ∣ 2 ^ t.bucketCountShift
  rcases Nat.le_total 3 t.bucketCountShift with many | few
  · rw [Nat.min_eq_left (Nat.pow_le_pow_right Nat.two_pos many)]
    exact Nat.pow_dvd_pow 2 many
  · rw [Nat.min_eq_right (Nat.pow_le_pow_right Nat.two_pos few)]

/-- `ReleaseRecords` frees the records of the table. -/
theorem coe_releaseRecords (wf : t.WellFormed L) :
    (Process.releaseRecords L t : Multiset Nat) = t.records L := by
  rw [Process.releaseRecords]
  dsimp only
  rw [← List.flatMap_assoc, flatMap_range'_mul, share_mul_threads, Heap.coe_flatMap_range, records]
  refine Finset.sum_congr rfl fun i inside => ?_
  exact Bucket.coe_iterate (fun c within => (wf i (Finset.mem_range.mp inside) c within).ver) i

end Table

end TurboHash
