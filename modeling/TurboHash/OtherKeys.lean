import TurboHash.DeleteReturns
import TurboHash.Occupancy

/-!
# Writes under other keys

A search for a key relies on what the writers of other keys leave as it is: the slot that
holds the key, and the cells before it that are full.
-/

namespace TurboHash

variable {F : CellFormat} {K V H E : Type} {L : SlotLayout K V H E}

/-- From one cell to the next, nothing has been written under `key`. -/
structure Cell.Keeps [DecidableEq H] (L : SlotLayout K V H E) (c c' : Cell F H E) (key : K) :
    Prop where
  holds : ∀ i value, c'.Holds L i key value ↔ c.Holds L i key value
  /-- a slot that compares equal did so before -/
  equal : ∀ i, ((c'.slots i).h1 == (L.keyHash key).h1 && L.slotKeyEqual key (c'.slots i)) = true →
    ((c.slots i).h1 == (L.keyHash key).h1 && L.slotKeyEqual key (c.slots i)) = true

namespace Cell.Keeps

variable [DecidableEq H] {c : Cell F H E} {key key' : K} {value : V} {slot oldSlot : Nat}

theorem refl (c : Cell F H E) (key : K) : c.Keeps L c key := ⟨fun _ _ => Iff.rfl, fun _ => id⟩

theorem equal_put {ver : Version F} (other : key' ≠ key) (i : Nat)
    (equal : (((c.put L slot key value ver).slots i).h1 == (L.keyHash key').h1 &&
      L.slotKeyEqual key' ((c.put L slot key value ver).slots i)) = true) :
    ((c.slots i).h1 == (L.keyHash key').h1 && L.slotKeyEqual key' (c.slots i)) = true := by
  by_cases here : i = slot
  · subst here
    rw [put_slots_self] at equal
    exact absurd ((L.match_slotOf key' key value).mp equal) other
  · rwa [put_slots_of_ne here] at equal

theorem insert (free : c.ver.Insertable slot) (other : key' ≠ key) :
    c.Keeps L (c.put L slot key value (c.ver.insert slot)) key' where
  holds i value' := by
    rw [holds_insert free]
    refine ⟨fun now => ?_, fun held => Or.inr ⟨?_, held⟩⟩
    · rcases now with ⟨-, same, -⟩ | ⟨-, held⟩
      · exact absurd same other
      · exact held
    · rintro rfl
      exact absurd held.1 (by rw [live, free.not_live]; simp)
  equal := equal_put other

theorem update {oldValue : V} (held : c.Holds L oldSlot key oldValue)
    (free : c.ver.Backup slot) (other : key' ≠ key) :
    c.Keeps L (c.put L slot key value (c.ver.update slot oldSlot)) key' where
  holds i value' := by
    rw [holds_update held.1 free]
    refine ⟨fun now => ?_, fun was => Or.inr ⟨?_, ?_, was⟩⟩
    · rcases now with ⟨-, same, -⟩ | ⟨-, -, was⟩
      · exact absurd same other
      · exact was
    · rintro rfl
      exact absurd was.1 (by rw [live, free.not_live]; simp)
    · rintro rfl
      exact other (was.unique held).1
  equal := equal_put other

theorem erase (held : c.Holds L slot key value) (other : key' ≠ key) :
    c.Keeps L (c.erase slot) key' where
  holds i value' := by
    rw [holds_erase (Version.lt_bits_of_live held.1)]
    refine ⟨And.right, fun was => ⟨?_, was⟩⟩
    rintro rfl
    exact other (was.unique held).1
  equal _ := id

end Cell.Keeps

/-- The same for the cells of a bucket, none of which loses an occupied slot. -/
structure Bucket.Keeps [DecidableEq H] (L : SlotLayout K V H E) (b b' : Bucket F H E) (key : K) :
    Prop where
  grows : b.Grows b'
  cells : ∀ c, (b.cells c).Keeps L (b'.cells c) key

namespace Bucket.Keeps

variable [DecidableEq H] {b b' : Bucket F H E} {key : K}

theorem setCell {c : Nat} {cell : Cell F H E} (grows : b.Grows (b.setCell c cell))
    (keeps : (b.cells c).Keeps L cell key) : b.Keeps L (b.setCell c cell) key where
  grows := grows
  cells x := by
    rw [setCell_cells]
    split
    case isTrue here => exact here ▸ keeps
    case isFalse => exact Cell.Keeps.refl _ _

theorem count (keeps : b.Keeps L b' key) : b'.cellCount = b.cellCount :=
  congrArg (2 ^ ·) keeps.grows.shift

theorem binds_iff (keeps : b.Keeps L b' key) {value : V} :
    b'.Binds L key value ↔ b.Binds L key value := by
  unfold Binds
  rw [keeps.count]
  exact exists_congr fun c => and_congr_right fun _ =>
    exists_congr fun i => (keeps.cells c).holds i value

theorem located_iff (keeps : b.Keeps L b' key) {c : Nat} :
    b'.Located L key c ↔ b.Located L key c :=
  exists_congr fun i => exists_congr fun value => (keeps.cells c).holds i value

theorem path_eq (keeps : b.Keeps L b' key) : b'.path L key = b.path L key := by
  rw [path, path, keeps.count]

theorem pathCell_eq (keeps : b.Keeps L b' key) (d : Nat) :
    pathCell L b' key d = pathCell L b key d := by
  rw [pathCell, pathCell, keeps.count]

theorem reaches (keeps : b.Keeps L b' key) {c : Nat} (reached : Reaches b (b.path L key) c) :
    Reaches b' (b'.path L key) c :=
  keeps.path_eq.symm ▸ reached.mono fun x mem => keeps.grows.full x (b.lt_of_mem_path mem)

end Bucket.Keeps

/-- The search has passed `d` full cells without the key. -/
def Cleared (L : SlotLayout K V H E) (b : Bucket F H E) (key : K) (d : Nat) : Prop :=
  ∀ e < d, (b.cells (pathCell L b key e)).Full ∧ ¬ b.Located L key (pathCell L b key e)

section Commit

variable [DecidableEq H] {b : Bucket F H E} {key : K}

/-- The commit of a `Put` keeps the other keys where they are. -/
theorem InsertAnswer.keeps {bucketI : Nat} {res : FindSlotForInsertResult H} (placed : b.Placed L)
    (answer : InsertAnswer L b key bucketI res) (found : res.find = true) (value : V) :
    let b' := b.setCell res.targetSlot.cell (insertToSlotAndGC L (L.keyToHash key) key value
      (b.cells res.targetSlot.cell) res.targetSlot).1
    b.Grows b' ∧ ∀ key' ≠ key, b.Keeps L b' key' := by
  cases answer with
  | @update c oldSlot slot inside _ old held free =>
    have wf := placed.wf _ inside
    have wf' : ((b.cells c).put L slot key value ((b.cells c).ver.update slot oldSlot)).WellFormed
      L := wf.update held.1 free
    dsimp only
    rw [insertToSlotAndGC_update wf]
    have grows := Bucket.Grows.setCell wf wf' (Cell.popcount_le_update held.1 free)
    exact ⟨grows, fun key' other => .setCell grows (.update held free other)⟩
  | @insert c slot inside _ free _ =>
    have wf := placed.wf _ inside
    have wf' : ((b.cells c).put L slot key value ((b.cells c).ver.insert slot)).WellFormed L :=
      wf.insert free
    dsimp only
    rw [insertToSlotAndGC_insert wf]
    have grows := Bucket.Grows.setCell wf wf' (wf.popcount_le_insert free)
    exact ⟨grows, fun key' other => .setCell grows (.insert free other)⟩
  | noRoom => cases found

end Commit

end TurboHash
