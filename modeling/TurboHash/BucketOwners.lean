import TurboHash.FindHolder
import TurboHash.TableRace

/-!
# The records under a bucket lock

The records of a bucket are those of its live slots and the one that the holder of the lock is
storing. A `Put` that takes the lock adds its record, and the version word drops the record that
was passed to `markNodeForDeletion` before it; no other store changes them. Nothing is asked of
the places of the keys, so this holds behind every rehash that returns.
-/

namespace TurboHash

variable {F : CellFormat} {K V H E : Type} {L : SlotLayout K (Nat × V) H E}

/-! ## Slots -/

/-- The pointer to the record lies in the word `entry`. -/
def SlotLayout.PointsByEntry (L : SlotLayout K (Nat × V) H E) : Prop :=
  ∀ slot slot', slot.entry = slot'.entry → recordAddress L slot = recordAddress L slot'

theorem flatKeyLayout_pointsByEntry {K V : Type} [Inhabited K] (keyToHash toSizeT : K → UInt64) :
    (flatKeyLayout keyToHash toSizeT : SlotLayout K (Nat × V) K _).PointsByEntry := by
  rintro ⟨h1, entry⟩ ⟨h1', entry'⟩ same
  cases same
  cases entry <;> rfl

theorem stringKeyLayout_pointsByEntry {K V : Type} [DecidableEq K] (keyToHash : K → UInt64) :
    (stringKeyLayout keyToHash : SlotLayout K (Nat × V) UInt64 _).PointsByEntry := by
  rintro ⟨h1, entry⟩ ⟨h1', entry'⟩ same
  cases same
  rfl

theorem SlotLayout.HasRecords.released_eq (records : L.HasRecords) (key : K) (value : Nat × V) :
    L.released (L.slotOf key value) = some value.1 :=
  records.release_slotOf key value.1 value.2

/-! ## Cells and buckets -/

theorem Cell.Agrees.records_eq {c c' : Cell F H E} (agrees : c'.Agrees c) :
    c'.records L = c.records L := by
  refine Finset.sum_congr rfl fun i _ => ?_
  rw [Cell.recordAt, Cell.recordAt, agrees.live_eq]
  split
  case isTrue alive => rw [agrees.slots i alive]
  case isFalse => rfl

namespace Bucket

variable {b b' : Bucket F H E}

theorem Agrees.records_eq (agrees : b'.Agrees b) : b'.records L = b.records L := by
  rw [records, records, agrees.count_eq]
  exact Finset.sum_congr rfl fun c mem => (agrees.cells c (Finset.mem_range.mp mem)).records_eq

/-- A cell is stored that has gained `gained` and lost `lost`. -/
theorem records_setCell_add {i : Nat} (inside : i < b.cellCount) {c : Cell F H E}
    {gained lost : Multiset Nat} (cell : c.records L + lost = (b.cells i).records L + gained) :
    (b.setCell i c).records L + lost = b.records L + gained := by
  have exchanged := records_setCell (L := L) inside c
  generalize (b.cells i).records L = before at cell exchanged
  refine add_right_cancel (b := before) ?_
  calc (b.setCell i c).records L + lost + before
      = ((b.setCell i c).records L + before) + lost := by ac_rfl
    _ = b.records L + (c.records L + lost) := by rw [exchanged, add_assoc]
    _ = b.records L + gained + before := by rw [cell]; ac_rfl

theorem WellFormed.setCell {i : Nat} {c : Cell F H E} (wf : b.WellFormed L) (cell : c.WellFormed L) :
    (b.setCell i c).WellFormed L := by
  intro x inside
  rw [setCell_cells]
  split
  case isTrue => exact cell
  case isFalse => exact wf x inside

/-- The record of a live slot. -/
theorem mem_records {c i n : Nat} (inside : c < b.cellCount) (alive : (b.cells c).live i = true)
    (points : recordAddress L ((b.cells c).slots i) = some n) : n ∈ b.records L := by
  rw [records, Multiset.mem_sum]
  refine ⟨c, Finset.mem_range.mpr inside, ?_⟩
  rw [Cell.records, Multiset.mem_sum]
  refine ⟨i, Finset.mem_range.mpr (Version.lt_bits_of_live alive), ?_⟩
  rw [Cell.recordAt, if_pos alive, points]
  exact List.mem_singleton_self n

end Bucket

/-! ## The holder of the lock -/

namespace Holder

variable {bi : Nat} {b b' : Bucket F H E} {holder holder' : Holder K (Nat × V) H}

/-- The record that the holder of the lock is storing. -/
def stores : Holder K (Nat × V) H → Multiset Nat
  | putting _ _ value _ => {value.1}
  | free | deleting _ _ _ => 0

/-- A bucket with well-formed cells, as the holder of the lock has left it. -/
def Formed (L : SlotLayout K (Nat × V) H E) (bi : Nat) (b : Bucket F H E) :
    Holder K (Nat × V) H → Prop
  | free => b.WellFormed L
  | putting point key value target =>
    ∃ b₀ : Bucket F H E, b₀.WellFormed L ∧ InsertAnswer L b₀ key bi ⟨target, true⟩ ∧
      b = b₀.setCell target.cell (point.stored L key value target (b₀.cells target.cell))
  | deleting _ cell slot =>
    b.WellFormed L ∧ cell < b.cellCount ∧ (b.cells cell).live slot = true

variable [DecidableEq H]

theorem Formed.wf (formed : holder.Formed L bi b) : b.WellFormed L := by
  cases holder with
  | free => exact formed
  | putting point key value target =>
    obtain ⟨b₀, wf, answer, rfl⟩ := formed
    exact (Bucket.Agrees.setCell (StorePoint.stored_agrees (answer.chosen rfl).dead)).wf wf
  | deleting key cell slot => exact formed.1

omit [DecidableEq H] in
/-- The commit of a `Put` adds its record, and an update drops that of the old slot. -/
theorem records_commit (records : L.HasRecords) {key : K} (value : Nat × V) {target : SlotInfo H}
    (wf : b.WellFormed L) (answer : InsertAnswer L b key bi ⟨target, true⟩) :
    let b' := b.setCell target.cell
      (insertToSlotAndGC L (L.keyToHash key) key value (b.cells target.cell) target).1
    let old := if target.equalKey then
      L.released ((b.cells target.cell).slots target.oldSlot) else none
    b'.WellFormed L ∧ b'.records L + (old.toList : List Nat) = b.records L + {value.1} := by
  cases answer with
  | @update c oldSlot slot inside _ old holds free =>
    have cellWf := wf c inside
    dsimp only
    rw [insertToSlotAndGC_update cellWf, if_pos rfl, holds.2, records.released_eq]
    refine ⟨?_, Bucket.records_setCell_add inside (Cell.records_update holds free)⟩
    exact wf.setCell (cellWf.update holds.1 free)
  | @insert c slot inside _ free _ =>
    have cellWf := wf c inside
    dsimp only
    rw [insertToSlotAndGC_insert cellWf, if_neg Bool.false_ne_true]
    refine ⟨wf.setCell (cellWf.insert free), Bucket.records_setCell_add inside ?_⟩
    rw [Cell.records_insert free]
    exact add_zero _

/-- The next store of the holder of the lock. -/
theorem Formed.store (records : L.HasRecords) (formed : holder.Formed L bi b)
    (stored : holder.store L b = some (b', holder')) :
    holder'.Formed L bi b' ∧
      b'.records L + holder'.stores + ((holder.retires L b).toList : List Nat) =
        b.records L + holder.stores := by
  cases holder with
  | free => cases stored
  | putting point key value target =>
    obtain ⟨b₀, wf, answer, same⟩ := formed
    have dead := (answer.chosen rfl).dead
    have agrees : b.Agrees b₀ :=
      same ▸ .setCell (StorePoint.stored_agrees (c := b₀.cells target.cell) dead)
    have here : b.cells target.cell = point.stored L key value target (b₀.cells target.cell) := by
      rw [same, Bucket.setCell_self]
    cases next : point.next with
    | some point' =>
      have quiet : (putting point key value target).retires L b = none := by
        cases point <;> cases next <;> rfl
      simp only [Holder.store, next, Option.elim, Option.some.injEq, Prod.mk.injEq] at stored
      obtain ⟨rfl, rfl⟩ := stored
      have stillDead : (b.cells target.cell).live target.slot = false := by
        rw [here, (StorePoint.stored_agrees dead).live_eq, dead]
      refine ⟨⟨b₀, wf, answer, ?_⟩, ?_⟩
      · rw [here, StorePoint.store_stored next, same, Bucket.setCell_setCell]
      · rw [(Bucket.Agrees.setCell (StorePoint.store_agrees next stillDead)).records_eq, quiet]
        exact add_zero _
    | none =>
      obtain rfl : point = .version := by cases point <;> cases next; rfl
      simp only [Holder.store, next, Option.elim, Option.some.injEq, Prod.mk.injEq] at stored
      obtain ⟨rfl, rfl⟩ := stored
      obtain ⟨wf', committed⟩ := records_commit records value wf answer
      have retired : (putting StorePoint.version key value target).retires L b =
          if target.equalKey then L.released ((b₀.cells target.cell).slots target.oldSlot)
          else none := by
        rw [retires]
        split
        case isTrue update =>
          have old := ((answer.chosen rfl).other update).1
          rw [here, (StorePoint.stored_agrees dead).slots _ old]
        case isFalse => rfl
      rw [here, StorePoint.store_version, retired, agrees.records_eq, same,
        Bucket.setCell_setCell]
      exact ⟨wf', (congrArg (· + _) (add_zero _)).trans committed⟩
  | deleting key cell slot =>
    obtain ⟨wf, inside, alive⟩ := formed
    cases stored
    obtain ⟨key', value, words, -⟩ := (wf cell inside).stored slot alive
    have retired : (deleting key cell slot).retires L b = some value.1 := by
      rw [retires, words, records.released_eq]
    rw [deleteCommit_eq (wf cell inside), retired]
    refine ⟨wf.setCell ((wf cell inside).erase (Version.occupied_of_live alive)), ?_⟩
    have erased := (Cell.records_erase ⟨alive, words⟩).trans (add_zero _).symm
    rw [stores, stores, add_zero]
    exact Bucket.records_setCell_add inside erased

/-- The record that leaves is one of the bucket. -/
theorem Formed.mem_of_retires {n : Nat} (records : L.HasRecords) (formed : holder.Formed L bi b)
    (leaves : holder.retires L b = some n) : n ∈ b.records L + holder.stores := by
  obtain ⟨b', holder', stored⟩ : ∃ b' holder', holder.store L b = some (b', holder') := by
    cases holder with
    | free => cases leaves
    | putting | deleting => exact ⟨_, _, rfl⟩
  obtain ⟨-, same⟩ := formed.store records stored
  rw [leaves] at same
  rw [← same]
  exact Multiset.mem_add.mpr (Or.inr (List.mem_singleton_self n))

omit [DecidableEq H] in
/-- A record leaves with the last store. -/
theorem free_of_retires {n : Nat} (leaves : holder.retires L b = some n)
    (stored : holder.store L b = some (b', holder')) : holder' = .free := by
  cases holder with
  | free => cases stored
  | putting point key value target =>
    cases point with
    | version =>
      cases stored
      rfl
    | _ => cases leaves
  | deleting =>
    cases stored
    rfl

omit [DecidableEq H] in
/-- A slot has the record that it had before the store, or the one that is being stored. -/
theorem store_slots (entry : L.PointsByEntry) (stored : holder.store L b = some (b', holder'))
    {c i n : Nat} (points : recordAddress L ((b'.cells c).slots i) = some n) :
    recordAddress L ((b.cells c).slots i) = some n ∨ n ∈ holder.stores := by
  cases holder with
  | free => cases stored
  | putting point key value target =>
    cases stored
    rw [Bucket.setCell_cells] at points
    split at points
    case isFalse => exact Or.inl points
    case isTrue here =>
      subst here
      by_cases other : i = target.slot
      · subst other
        cases point with
        | h1 =>
          refine Or.inl ((entry _ _ ?_).trans points)
          simp [StorePoint.store, Cell.setSlot]
        | entry =>
          have word : (StorePoint.entry.store L key value target (b.cells target.cell)).slots
              target.slot = ⟨((b.cells target.cell).slots target.slot).h1,
                (L.slotOf key value).entry⟩ := by
            simp [StorePoint.store, Cell.setSlot, SlotLayout.slotOf]
          have same := entry ⟨((b.cells target.cell).slots target.slot).h1,
            (L.slotOf key value).entry⟩ (L.slotOf key value) rfl
          rw [word, same, recordAddress_slotOf] at points
          cases points
          exact Or.inr (Multiset.mem_singleton_self _)
        | tag | version => exact Or.inl points
      · refine Or.inl ((congrArg (recordAddress L) ?_).trans points)
        cases point <;> simp [StorePoint.store, Cell.setSlot, Cell.setTag, Cell.storeVersion, other]
  | deleting key cell slot =>
    cases stored
    rw [Bucket.setCell_cells] at points
    split at points
    case isFalse => exact Or.inl points
    case isTrue here =>
      subst here
      exact Or.inl points

end Holder

end TurboHash
