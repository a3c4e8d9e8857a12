import TurboHash.Bucket

/-!
# What the commits do to a cell

One lemma per commit says which slots of the cell bind which keys afterwards:
an insertion or an update adds the binding of the slot it stores, an update
also drops the one of the old slot, a deletion drops one. The scan of a cell
(`matchSlot`) finds exactly the bindings of the key.
-/

namespace TurboHash

variable {F : CellFormat} {K V H E : Type} {L : SlotLayout K V H E}

/-! ## The three commits -/

namespace Cell

/-- The cell `insertToSlotAndGC` leaves: slot `slot` holds `key` and `value`
under the version word `ver`. -/
def put (L : SlotLayout K V H E) (c : Cell F H E) (slot : Nat) (key : K) (value : V)
    (ver : Version F) : Cell F H E :=
  ((c.setSlot slot (L.slotOf key value)).setTag slot (L.keyHash key).h2).storeVersion ver

/-- The cell `deleteSlot` leaves. -/
def erase (c : Cell F H E) (slot : Nat) : Cell F H E := c.storeVersion (c.ver.delete slot)

variable {c : Cell F H E} {slot oldSlot i : Nat} {key key' : K} {value value' : V}

theorem put_slots_self {ver : Version F} :
    (c.put L slot key value ver).slots slot = L.slotOf key value :=
  Function.update_self ..

theorem put_slots_of_ne {ver : Version F} (different : i ≠ slot) :
    (c.put L slot key value ver).slots i = c.slots i :=
  Function.update_of_ne different ..

theorem put_tags_self {ver : Version F} :
    (c.put L slot key value ver).tags slot = (L.keyHash key).h2 :=
  Function.update_self ..

theorem put_tags_of_ne {ver : Version F} (different : i ≠ slot) :
    (c.put L slot key value ver).tags i = c.tags i :=
  Function.update_of_ne different ..

@[simp] theorem put_ver {ver : Version F} : (c.put L slot key value ver).ver = ver := rfl

/-- A store into a slot keeps the cell well formed if the committed version
word is, and if it makes no other slot live than the stored one. -/
theorem WellFormed.put {ver : Version F} (wf : c.WellFormed L) (verWf : ver.WellFormed)
    (lives : ∀ i, ver.live i = true → i = slot ∨ c.live i = true) :
    (c.put L slot key value ver).WellFormed L where
  ver := verWf
  stored i alive := by
    by_cases eq : i = slot
    · subst eq
      exact ⟨key, value, put_slots_self, put_tags_self⟩
    · rw [put_slots_of_ne eq, put_tags_of_ne eq]
      exact wf.stored i ((lives i alive).resolve_left eq)

theorem WellFormed.insert (wf : c.WellFormed L) (free : c.ver.Insertable slot) :
    (c.put L slot key value (c.ver.insert slot)).WellFormed L := by
  refine wf.put (wf.ver.insert free) fun i alive => ?_
  rw [Version.live_insert free.2.1, Bool.or_eq_true, decide_eq_true_eq] at alive
  exact alive.symm

theorem WellFormed.update (wf : c.WellFormed L) (alive : c.live oldSlot = true)
    (free : c.ver.Backup slot) :
    (c.put L slot key value (c.ver.update slot oldSlot)).WellFormed L := by
  refine wf.put (wf.ver.update alive free) fun i still => ?_
  rw [Version.live_update alive free.2.1, Bool.and_eq_true, Bool.or_eq_true,
    decide_eq_true_eq] at still
  exact still.1.symm

theorem WellFormed.erase (wf : c.WellFormed L) (occupied : c.ver.bitmap.getLsbD slot = true) :
    (c.erase slot).WellFormed L where
  ver := wf.ver.delete occupied
  stored i still := by
    refine wf.stored i ?_
    change (c.ver.delete slot).live i = true at still
    rw [Version.live_delete (BitVec.lt_of_getLsbD occupied), Bool.and_eq_true] at still
    exact still.1

theorem holds_insert (free : c.ver.Insertable slot) :
    (c.put L slot key value (c.ver.insert slot)).Holds L i key' value' ↔
      i = slot ∧ key' = key ∧ value' = value ∨ i ≠ slot ∧ c.Holds L i key' value' := by
  rw [Holds, live, put_ver, Version.live_insert free.2.1]
  by_cases eq : i = slot
  · subst eq
    rw [put_slots_self]
    simp only [decide_true, Bool.or_true, true_and, ne_eq, not_true_eq_false, false_and,
      or_false]
    exact ⟨fun same => ⟨(L.slotOf_inj same).1.symm, (L.slotOf_inj same).2.symm⟩,
      fun ⟨sameKey, sameValue⟩ => by rw [sameKey, sameValue]⟩
  · rw [put_slots_of_ne eq]
    simp [eq, Holds, live]

theorem holds_update (alive : c.live oldSlot = true) (free : c.ver.Backup slot) :
    (c.put L slot key value (c.ver.update slot oldSlot)).Holds L i key' value' ↔
      i = slot ∧ key' = key ∧ value' = value ∨
        i ≠ slot ∧ i ≠ oldSlot ∧ c.Holds L i key' value' := by
  have different : slot ≠ oldSlot := by
    rintro rfl
    have dead := free.not_live
    rw [live] at alive
    rw [alive] at dead
    cases dead
  rw [Holds, live, put_ver, Version.live_update alive free.2.1]
  by_cases eq : i = slot
  · subst eq
    rw [put_slots_self]
    simp only [decide_true, Bool.or_true, Bool.true_and, different, ne_eq, not_false_eq_true,
      not_true_eq_false, false_and, or_false, true_and]
    exact ⟨fun same => ⟨(L.slotOf_inj same).1.symm, (L.slotOf_inj same).2.symm⟩,
      fun ⟨sameKey, sameValue⟩ => by rw [sameKey, sameValue]⟩
  · rw [put_slots_of_ne eq]
    simp only [eq, decide_false, Bool.or_false, Bool.and_eq_true, decide_eq_true_eq, false_and,
      ne_eq, not_false_eq_true, true_and, false_or, Holds, live]
    tauto

theorem holds_erase (inside : slot < F.bits) :
    (c.erase slot).Holds L i key' value' ↔ i ≠ slot ∧ c.Holds L i key' value' := by
  change (c.ver.delete slot).live i = true ∧ c.slots i = _ ↔ _
  rw [Version.live_delete inside, Bool.and_eq_true, decide_eq_true_eq, Holds, live]
  tauto

/-! ## Fullness -/

/-- `Full` of the cell as it is now. -/
def Full (c : Cell F H E) : Prop := c.loadMeta.full = true

theorem WellFormed.full_iff (wf : c.WellFormed L) :
    c.Full ↔ popcount c.ver.bitmap = F.fullCount := by
  rw [Full, CellMeta.full_iff wf.loadMeta_wf, wf.loadMeta_ver]

/-- A full cell stays full when the number of occupied slots does not drop. -/
theorem WellFormed.full_of_popcount_le {c' : Cell F H E} (wf : c.WellFormed L)
    (wf' : c'.WellFormed L) (mono : popcount c.ver.bitmap ≤ popcount c'.ver.bitmap)
    (full : c.Full) : c'.Full := by
  rw [wf'.full_iff]
  have := wf.full_iff.mp full
  have := wf'.ver.count_le
  omega

theorem WellFormed.popcount_le_insert (wf : c.WellFormed L) (free : c.ver.Insertable slot) :
    popcount c.ver.bitmap ≤ popcount (c.put L slot key value (c.ver.insert slot)).ver.bitmap := by
  rw [put_ver]
  rcases Version.popcount_insert wf.ver free with ⟨count, -⟩ | count <;> omega

theorem popcount_le_update (alive : c.live oldSlot = true) (free : c.ver.Backup slot) :
    popcount c.ver.bitmap ≤
      popcount (c.put L slot key value (c.ver.update slot oldSlot)).ver.bitmap :=
  (Version.popcount_update alive free).ge

end Cell

/-! ## The source's commits are these -/

section Commits

variable {c : Cell F H E} {key : K} {value : V}

theorem insertToSlotAndGC_insert (wf : c.WellFormed L) (bucketI cell slot : Nat) :
    (insertToSlotAndGC L (L.keyToHash key) key value c
      ⟨bucketI, cell, slot, (L.keyHash key).h1, (L.keyHash key).h2, false, 0⟩).1 =
        c.put L slot key value (c.ver.insert slot) := by
  have loaded : ((c.setSlot slot (L.slotOf key value)).setTag slot
      (L.keyHash key).h2).loadVersion = c.ver := wf.loadVersion_eq
  simp only [insertToSlotAndGC, Bool.false_eq_true, if_false, Cell.put]
  rw [← SlotLayout.slotOf, loaded]

theorem insertToSlotAndGC_update (wf : c.WellFormed L) (bucketI cell slot oldSlot : Nat) :
    (insertToSlotAndGC L (L.keyToHash key) key value c
      ⟨bucketI, cell, slot, (L.keyHash key).h1, (L.keyHash key).h2, true, oldSlot⟩).1 =
        c.put L slot key value (c.ver.update slot oldSlot) := by
  have loaded : ((c.setSlot slot (L.slotOf key value)).setTag slot
      (L.keyHash key).h2).loadVersion = c.ver := wf.loadVersion_eq
  simp only [insertToSlotAndGC, if_true, Cell.put]
  rw [← SlotLayout.slotOf, loaded]

theorem deleteCommit_eq (wf : c.WellFormed L) (slot : Nat) :
    (deleteCommit L c slot).1 = c.erase slot := by
  rw [deleteCommit, Cell.erase, wf.loadVersion_eq]

end Commits

/-! ## The scan of a cell -/

section Scan

variable {c : Cell F H E} {key : K} {i : Nat}

theorem mem_matchBitSet (wf : c.WellFormed L) {h2 : UInt8} :
    i ∈ (c.loadMeta.matchBitSet h2).toList ↔ c.live i = true ∧ c.tags i = h2 := by
  rw [BitSet.mem_toList, CellMeta.getLsbD_matchBitSet wf.loadMeta_wf, wf.loadMeta_ver]
  rfl

variable [DecidableEq H]

/-- What the scan finds is a binding of the key. -/
theorem holds_of_matchSlot (wf : c.WellFormed L)
    (hit : matchSlot L key (L.keyHash key) c c.loadMeta = some i) :
    ∃ value, c.Holds L i key value := by
  have member := List.mem_of_find?_eq_some hit
  have matched := List.find?_some hit
  obtain ⟨alive, -⟩ := (mem_matchBitSet wf).mp member
  obtain ⟨key', value, stored, -⟩ := wf.stored i alive
  rw [stored, L.match_slotOf] at matched
  subst matched
  exact ⟨value, alive, stored⟩

/-- A binding of the key does not escape the scan. -/
theorem not_holds_of_matchSlot (wf : c.WellFormed L)
    (missed : matchSlot L key (L.keyHash key) c c.loadMeta = none) (value : V) :
    ¬ c.Holds L i key value := by
  rintro ⟨alive, stored⟩
  obtain ⟨key', value', stored', tag⟩ := wf.stored i alive
  obtain ⟨rfl, rfl⟩ := L.slotOf_inj (stored.symm.trans stored')
  have member : i ∈ (c.loadMeta.matchBitSet (L.keyHash key).h2).toList :=
    (mem_matchBitSet wf).mpr ⟨alive, tag⟩
  have unmatched := List.find?_eq_none.mp missed i member
  rw [stored] at unmatched
  exact unmatched ((L.match_slotOf key key value).mpr rfl)

/-- In a cell with one slot for the key the scan finds that slot. -/
theorem matchSlot_of_holds (wf : c.WellFormed L) {value : V} (holds : c.Holds L i key value)
    (only : ∀ j value', c.Holds L j key value' → j = i) :
    matchSlot L key (L.keyHash key) c c.loadMeta = some i := by
  cases scan : matchSlot L key (L.keyHash key) c c.loadMeta with
  | none => exact absurd holds (not_holds_of_matchSlot wf scan value)
  | some j =>
    obtain ⟨value', found⟩ := holds_of_matchSlot wf scan
    rw [only j value' found]

/-- A scan of `deleteSlot` that hits has found what the other searches find. -/
theorem matchSlot_of_deleteScan_hit {ph : PartialHash H}
    (hit : deleteScan L key ph c c.loadMeta (c.loadMeta.matchBitSet ph.h2).toList = .hit i) :
    matchSlot L key ph c c.loadMeta = some i := by
  rw [matchSlot]
  generalize (c.loadMeta.matchBitSet ph.h2).toList = slots at hit ⊢
  induction slots with
  | nil => cases hit
  | cons j rest ih =>
    rw [deleteScan] at hit
    rw [List.find?_cons]
    cases sameH1 : (c.slots j).h1 == ph.h1
    · rw [sameH1] at hit
      simpa using ih (by simpa using hit)
    · rw [sameH1, if_pos rfl] at hit
      split at hit
      case isTrue => cases hit
      case isFalse =>
        cases equal : L.slotKeyEqual key (c.slots j)
        · rw [equal] at hit
          simpa using ih (by simpa using hit)
        · rw [equal] at hit
          cases hit
          simp

theorem matchSlot_of_deleteScan_miss {ph : PartialHash H}
    (missed : deleteScan L key ph c c.loadMeta (c.loadMeta.matchBitSet ph.h2).toList = .miss) :
    matchSlot L key ph c c.loadMeta = none := by
  rw [matchSlot]
  generalize (c.loadMeta.matchBitSet ph.h2).toList = slots at missed ⊢
  induction slots with
  | nil => rfl
  | cons j rest ih =>
    rw [deleteScan] at missed
    rw [List.find?_cons]
    cases sameH1 : (c.slots j).h1 == ph.h1
    · rw [sameH1] at missed
      simpa using ih (by simpa using missed)
    · rw [sameH1, if_pos rfl] at missed
      split at missed
      case isTrue => cases missed
      case isFalse =>
        cases equal : L.slotKeyEqual key (c.slots j)
        · rw [equal] at missed
          simpa using ih (by simpa using missed)
        · rw [equal] at missed
          cases missed

end Scan

end TurboHash
