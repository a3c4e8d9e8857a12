import TurboHash.Placement

/-!
# A bucket as a map

The commit of an insertion, an update and a deletion keeps the placement
invariant of the bucket and changes the keys it binds as a map changes: the key
gets the new value or loses its value, every other key keeps its own.
-/

namespace TurboHash

variable {F : CellFormat} {K V H E : Type} {L : SlotLayout K V H E} {b : Bucket F H E}
  {key : K} {value : V}

namespace Bucket

theorem setCell_cells (b : Bucket F H E) (c : Nat) (cell : Cell F H E) (x : Nat) :
    (b.setCell c cell).cells x = if x = c then cell else b.cells x :=
  Function.update_apply ..

theorem Placed.binds_unique (placed : b.Placed L) {value' : V} (left : b.Binds L key value)
    (right : b.Binds L key value') : value = value' := by
  obtain ⟨c, inside, i, holds⟩ := left
  obtain ⟨c', inside', i', holds'⟩ := right
  obtain ⟨rfl, rfl⟩ := placed.unique c inside c' inside' i i' key value value' holds holds'
  exact (holds.unique holds').2

/-- A key that is in no cell it could be in is not bound. -/
theorem Placed.not_binds (placed : b.Placed L)
    (unbound : ∀ x, Reaches b (b.path L key) x → ∀ i value, ¬ (b.cells x).Holds L i key value)
    (value : V) : ¬ b.Binds L key value := by
  rintro ⟨c, inside, i, holds⟩
  exact unbound c (placed.reaches c inside i key value holds) i value holds

/-- One cell of a placed bucket is replaced. Each binding of the new cell is for
a key the old cell had, or for a key that the rest of the bucket does not hold
and whose path reaches the cell. -/
theorem Placed.setCell {c : Nat} {cell : Cell F H E} (placed : b.Placed L)
    (inside : c < b.cellCount) (wf : cell.WellFormed L)
    (keep : (b.cells c).Full → cell.Full)
    (source : ∀ i key value, cell.Holds L i key value →
      (∃ i' value', (b.cells c).Holds L i' key value') ∨
        Reaches b (b.path L key) c ∧ ∀ value', ¬ b.Binds L key value')
    (unique : ∀ i i' key value value', cell.Holds L i key value → cell.Holds L i' key value' →
      i = i') : (b.setCell c cell).Placed L := by
  have keepAll : ∀ x, (b.cells x).Full → ((b.setCell c cell).cells x).Full := by
    intro x full
    rw [setCell_cells]
    split
    case isTrue eq => exact keep (eq ▸ full)
    case isFalse => exact full
  -- another cell does not hold a key of the new cell
  have apart : ∀ x < b.cellCount, x ≠ c → ∀ i i' key value value', cell.Holds L i key value →
      ¬ (b.cells x).Holds L i' key value' := by
    intro x xInside different i i' key value value' holds other
    rcases source i key value holds with ⟨j, old, holdsOld⟩ | ⟨-, unbound⟩
    · exact different (placed.unique x xInside c inside i' j key value' old other holdsOld).1
    · exact unbound value' ⟨x, xInside, i', other⟩
  constructor
  case wf =>
    intro x xInside
    rw [setCell_cells]
    split
    case isTrue => exact wf
    case isFalse => exact placed.wf x xInside
  case reaches =>
    intro x xInside i key value holds
    refine Reaches.mono (b := b) (fun y _ => keepAll y) ?_
    rw [setCell_cells] at holds
    split at holds
    case isTrue eq =>
      rcases source i key value holds with ⟨j, old, holdsOld⟩ | ⟨reached, -⟩
      · exact eq ▸ placed.reaches c inside j key old holdsOld
      · exact eq ▸ reached
    case isFalse => exact placed.reaches x xInside i key value holds
  case unique =>
    intro x xInside x' xInside' i i' key value value' holds holds'
    rw [setCell_cells] at holds holds'
    split at holds <;> split at holds'
    case isTrue.isTrue eq eq' =>
      exact ⟨eq.trans eq'.symm, unique i i' key value value' holds holds'⟩
    case isTrue.isFalse eq different =>
      exact absurd holds' (apart x' xInside' different i i' key value value' holds)
    case isFalse.isTrue different eq =>
      exact absurd holds (apart x xInside different i' i key value' value holds')
    case isFalse.isFalse =>
      exact placed.unique x xInside x' xInside' i i' key value value' holds holds'

theorem binds_setCell {c : Nat} {cell : Cell F H E} (inside : c < b.cellCount) {key : K}
    {value : V} :
    (b.setCell c cell).Binds L key value ↔
      (∃ i, cell.Holds L i key value) ∨
        ∃ x < b.cellCount, x ≠ c ∧ ∃ i, (b.cells x).Holds L i key value := by
  constructor
  · rintro ⟨x, xInside, i, holds⟩
    rw [setCell_cells] at holds
    split at holds
    case isTrue => exact Or.inl ⟨i, holds⟩
    case isFalse different => exact Or.inr ⟨x, xInside, different, i, holds⟩
  · rintro (⟨i, holds⟩ | ⟨x, xInside, different, i, holds⟩)
    · exact ⟨c, inside, i, by rwa [setCell_self]⟩
    · exact ⟨x, xInside, i, by rwa [setCell_of_ne _ _ different]⟩

/-! ## Insertion -/

section Insert

variable {c slot : Nat}

/-- The bucket behind the insertion of a new key. -/
def insert (L : SlotLayout K V H E) (b : Bucket F H E) (c slot : Nat) (key : K) (value : V) :
    Bucket F H E :=
  b.setCell c ((b.cells c).put L slot key value ((b.cells c).ver.insert slot))

theorem Placed.insert (placed : b.Placed L) (inside : c < b.cellCount)
    (free : (b.cells c).ver.Insertable slot) (reached : Reaches b (b.path L key) c)
    (unbound : ∀ value, ¬ b.Binds L key value) : (b.insert L c slot key value).Placed L := by
  have wf := placed.wf c inside
  have notHere : ∀ i value, ¬ (b.cells c).Holds L i key value :=
    fun i value holds => unbound value ⟨c, inside, i, holds⟩
  refine placed.setCell inside (wf.insert free)
    (wf.full_of_popcount_le (wf.insert free) (wf.popcount_le_insert free)) ?_ ?_
  · intro i key' value' holds
    rcases (Cell.holds_insert free).mp holds with ⟨-, rfl, -⟩ | ⟨-, holds⟩
    · exact Or.inr ⟨reached, unbound⟩
    · exact Or.inl ⟨i, value', holds⟩
  · intro i i' key' value₁ value₂ left right
    rcases (Cell.holds_insert free).mp left with ⟨rfl, rfl, -⟩ | ⟨-, oldLeft⟩ <;>
      rcases (Cell.holds_insert free).mp right with ⟨rfl, same, -⟩ | ⟨-, oldRight⟩
    · rfl
    · exact absurd oldRight (notHere i' value₂)
    · exact absurd (same ▸ oldLeft) (notHere i value₁)
    · exact (placed.unique c inside c inside i i' key' value₁ value₂ oldLeft oldRight).2

theorem binds_insert (inside : c < b.cellCount) (free : (b.cells c).ver.Insertable slot)
    (unbound : ∀ value, ¬ b.Binds L key value) {key' : K} {value' : V} :
    (b.insert L c slot key value).Binds L key' value' ↔
      key' = key ∧ value' = value ∨ key' ≠ key ∧ b.Binds L key' value' := by
  rw [insert, binds_setCell inside]
  have slotDead := free.not_live
  constructor
  · rintro (⟨i, holds⟩ | ⟨x, xInside, -, i, holds⟩)
    · rcases (Cell.holds_insert free).mp holds with ⟨-, rfl, rfl⟩ | ⟨-, holds⟩
      · exact Or.inl ⟨rfl, rfl⟩
      · exact Or.inr ⟨fun eq => unbound value' (eq ▸ ⟨c, inside, i, holds⟩), c, inside, i, holds⟩
    · exact Or.inr ⟨fun eq => unbound value' (eq ▸ ⟨x, xInside, i, holds⟩), x, xInside, i, holds⟩
  · rintro (⟨rfl, rfl⟩ | ⟨-, x, xInside, i, holds⟩)
    · exact Or.inl ⟨slot, (Cell.holds_insert free).mpr (Or.inl ⟨rfl, rfl, rfl⟩)⟩
    · by_cases eq : x = c
      · subst eq
        have different : i ≠ slot := by
          rintro rfl
          exact absurd holds.1 (by rw [Cell.live, slotDead]; simp)
        exact Or.inl ⟨i, (Cell.holds_insert free).mpr (Or.inr ⟨different, holds⟩)⟩
      · exact Or.inr ⟨x, xInside, eq, i, holds⟩

end Insert

/-! ## Update -/

section Update

variable {c slot oldSlot : Nat} {oldValue : V}

/-- The bucket behind the update of a bound key. -/
def update (L : SlotLayout K V H E) (b : Bucket F H E) (c slot oldSlot : Nat) (key : K)
    (value : V) : Bucket F H E :=
  b.setCell c ((b.cells c).put L slot key value ((b.cells c).ver.update slot oldSlot))

theorem Placed.update (placed : b.Placed L) (inside : c < b.cellCount)
    (holds : (b.cells c).Holds L oldSlot key oldValue) (free : (b.cells c).ver.Backup slot) :
    (b.update L c slot oldSlot key value).Placed L := by
  have wf := placed.wf c inside
  refine placed.setCell inside (wf.update holds.1 free)
    (wf.full_of_popcount_le (wf.update holds.1 free) (Cell.popcount_le_update holds.1 free)) ?_ ?_
  · intro i key' value' now
    rcases (Cell.holds_update holds.1 free).mp now with ⟨-, rfl, -⟩ | ⟨-, -, now⟩
    · exact Or.inl ⟨oldSlot, oldValue, holds⟩
    · exact Or.inl ⟨i, value', now⟩
  · intro i i' key' value₁ value₂ left right
    have onlyOld : ∀ j value', (b.cells c).Holds L j key value' → j = oldSlot :=
      fun j value' other => (placed.unique c inside c inside j oldSlot key value' oldValue other
        holds).2
    rcases (Cell.holds_update holds.1 free).mp left with ⟨rfl, rfl, -⟩ | ⟨-, notOld, leftOld⟩ <;>
      rcases (Cell.holds_update holds.1 free).mp right with ⟨rfl, same, -⟩ | ⟨-, notOld', rightOld⟩
    · rfl
    · exact absurd (onlyOld i' value₂ rightOld) notOld'
    · exact absurd (onlyOld i value₁ (same ▸ leftOld)) notOld
    · exact (placed.unique c inside c inside i i' key' value₁ value₂ leftOld rightOld).2

theorem binds_update (placed : b.Placed L) (inside : c < b.cellCount)
    (holds : (b.cells c).Holds L oldSlot key oldValue) (free : (b.cells c).ver.Backup slot)
    {key' : K} {value' : V} :
    (b.update L c slot oldSlot key value).Binds L key' value' ↔
      key' = key ∧ value' = value ∨ key' ≠ key ∧ b.Binds L key' value' := by
  rw [update, binds_setCell inside]
  have slotDead := free.not_live
  have elsewhere : ∀ x < b.cellCount, ∀ i value', (b.cells x).Holds L i key value' →
      x = c ∧ i = oldSlot := fun x xInside i value' other =>
    placed.unique x xInside c inside i oldSlot key value' oldValue other holds
  constructor
  · rintro (⟨i, now⟩ | ⟨x, xInside, different, i, now⟩)
    · rcases (Cell.holds_update holds.1 free).mp now with ⟨-, rfl, rfl⟩ | ⟨-, notOld, before⟩
      · exact Or.inl ⟨rfl, rfl⟩
      · refine Or.inr ⟨?_, c, inside, i, before⟩
        rintro rfl
        exact notOld (elsewhere c inside i value' before).2
    · refine Or.inr ⟨?_, x, xInside, i, now⟩
      rintro rfl
      exact different (elsewhere x xInside i value' now).1
  · rintro (⟨rfl, rfl⟩ | ⟨otherKey, x, xInside, i, now⟩)
    · exact Or.inl ⟨slot, (Cell.holds_update holds.1 free).mpr (Or.inl ⟨rfl, rfl, rfl⟩)⟩
    · by_cases eq : x = c
      · subst eq
        have notSlot : i ≠ slot := by
          rintro rfl
          exact absurd now.1 (by rw [Cell.live, slotDead]; simp)
        have notOld : i ≠ oldSlot := by
          rintro rfl
          exact otherKey (now.unique holds).1
        exact Or.inl ⟨i, (Cell.holds_update holds.1 free).mpr (Or.inr ⟨notSlot, notOld, now⟩)⟩
      · exact Or.inr ⟨x, xInside, eq, i, now⟩

end Update

/-! ## Deletion -/

section Erase

variable {c slot : Nat}

/-- The bucket behind the deletion of a slot. -/
def erase (b : Bucket F H E) (c slot : Nat) : Bucket F H E := b.setCell c ((b.cells c).erase slot)

theorem Placed.erase (placed : b.Placed L) (inside : c < b.cellCount)
    (occupied : (b.cells c).ver.bitmap.getLsbD slot = true) : (b.erase c slot).Placed L := by
  have wf := placed.wf c inside
  have within : slot < F.bits := BitVec.lt_of_getLsbD occupied
  refine placed.setCell inside (wf.erase occupied)
    (wf.full_of_popcount_le (wf.erase occupied) le_rfl) ?_ ?_
  · intro i key' value' now
    exact Or.inl ⟨i, value', ((Cell.holds_erase within).mp now).2⟩
  · intro i i' key' value₁ value₂ left right
    exact (placed.unique c inside c inside i i' key' value₁ value₂
      ((Cell.holds_erase within).mp left).2 ((Cell.holds_erase within).mp right).2).2

theorem binds_erase (placed : b.Placed L) (inside : c < b.cellCount)
    (holds : (b.cells c).Holds L slot key value) {key' : K} {value' : V} :
    (b.erase c slot).Binds L key' value' ↔ key' ≠ key ∧ b.Binds L key' value' := by
  have within : slot < F.bits := Version.lt_bits_of_live holds.1
  rw [erase, binds_setCell inside]
  constructor
  · rintro (⟨i, now⟩ | ⟨x, xInside, different, i, now⟩)
    · obtain ⟨notSlot, now⟩ := (Cell.holds_erase within).mp now
      refine ⟨?_, c, inside, i, now⟩
      rintro rfl
      exact notSlot (placed.unique c inside c inside i slot _ value' value now holds).2
    · refine ⟨?_, x, xInside, i, now⟩
      rintro rfl
      exact different (placed.unique x xInside c inside i slot _ value' value now holds).1
  · rintro ⟨otherKey, x, xInside, i, now⟩
    by_cases eq : x = c
    · subst eq
      have notSlot : i ≠ slot := by
        rintro rfl
        exact otherKey (now.unique holds).1
      exact Or.inl ⟨i, (Cell.holds_erase within).mpr ⟨notSlot, now⟩⟩
    · exact Or.inr ⟨x, xInside, eq, i, now⟩

/-- The deletion of a slot that another thread has deleted before. -/
theorem binds_erase_of_dead (inside : c < b.cellCount) (within : slot < F.bits)
    (dead : (b.cells c).live slot = false) {key' : K} {value' : V} :
    (b.erase c slot).Binds L key' value' ↔ b.Binds L key' value' := by
  have same : ∀ i, ((b.cells c).erase slot).Holds L i key' value' ↔
      (b.cells c).Holds L i key' value' := by
    intro i
    rw [Cell.holds_erase within]
    refine and_iff_right_of_imp fun now eq => ?_
    rw [eq, Cell.Holds, dead] at now
    cases now.1
  rw [erase, binds_setCell inside]
  constructor
  · rintro (⟨i, now⟩ | ⟨x, xInside, -, i, now⟩)
    · exact ⟨c, inside, i, (same i).mp now⟩
    · exact ⟨x, xInside, i, now⟩
  · rintro ⟨x, xInside, i, now⟩
    by_cases eq : x = c
    · subst eq
      exact Or.inl ⟨i, (same i).mpr now⟩
    · exact Or.inr ⟨x, xInside, eq, i, now⟩

end Erase

/-! ## The operations on a bucket -/

section Operations

variable {fuel bucketI : Nat}

/-- The commit of `insertSlot` where `findSlotForInsert` has found a slot: the
key is bound to the value, the other keys keep their bindings. -/
theorem Placed.commit (placed : b.Placed L) {res : FindSlotForInsertResult H}
    (answer : InsertAnswer L b key bucketI res) (found : res.find = true) (value : V) :
    let cell := (insertToSlotAndGC L (L.keyToHash key) key value (b.cells res.targetSlot.cell)
      res.targetSlot).1
    let b' := b.setCell res.targetSlot.cell cell
    b'.Placed L ∧ ∀ key' value', b'.Binds L key' value' ↔
      key' = key ∧ value' = value ∨ key' ≠ key ∧ b.Binds L key' value' := by
  cases answer with
  | update inside _ old holds free =>
    dsimp only
    rw [insertToSlotAndGC_update (placed.wf _ inside)]
    exact ⟨placed.update inside holds free, fun _ _ => binds_update placed inside holds free⟩
  | insert inside reached free nowhere =>
    have unbound := placed.not_binds nowhere
    dsimp only
    rw [insertToSlotAndGC_insert (placed.wf _ inside)]
    exact ⟨placed.insert inside free reached unbound,
      fun _ _ => binds_insert inside free unbound⟩
  | noRoom => cases found

/-- The commit of `deleteSlot` on the slot its search has found. -/
theorem Placed.deleteCommit (placed : b.Placed L) {c slot : Nat}
    (answer : DeleteAnswer L b key (some (c, slot))) :
    let b' := b.setCell c (TurboHash.deleteCommit L (b.cells c) slot).1
    (∃ value, b.Binds L key value) ∧ b'.Placed L ∧
      ∀ key' value', b'.Binds L key' value' ↔ key' ≠ key ∧ b.Binds L key' value' := by
  obtain ⟨inside, value, holds⟩ := answer
  rw [deleteCommit_eq (placed.wf c inside)]
  exact ⟨⟨value, c, inside, slot, holds⟩, placed.erase inside (Version.occupied_of_live holds.1),
    fun _ _ => binds_erase placed inside holds⟩

/-- Lookup in a bucket without a counter at its maximum. -/
theorem Placed.findSlot [DecidableEq H] (placed : b.Placed L) (calm : b.Calm) (enough : maxProbeLen < fuel)
    (value? : Option V) (bound : ∀ value, b.Binds L key value ↔ value? = some value) :
    b.findSlot L key (L.keyHash key) fuel bucketI = .ok (value?.map (L.slotOf key)) := by
  cases value? with
  | none =>
    exact Bucket.findSlot_of_unbound placed.wf enough fun x hx i value holds => by
      cases (bound value).mp ⟨x, b.lt_of_mem_path hx, i, holds⟩
  | some value =>
    obtain ⟨c, inside, i, holds⟩ := (bound value).mpr rfl
    rw [Bucket.findSlot_of_holds placed enough inside holds, calm.stuck inside]
    rfl

end Operations

end Bucket

end TurboHash
