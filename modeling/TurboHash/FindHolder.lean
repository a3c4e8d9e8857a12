import TurboHash.Agreement
import TurboHash.FindRace
import TurboHash.OtherKeys
import TurboHash.RehashMap

/-!
# The stores of the lock holder

Until the version word is stored, a `Put` has written dead words only: the bucket agrees with
the one it has found. So a key that the holder of the lock does not write stays where it is
through each of the stores, and no slot that holds words of other keys gets to match it
(`Spares`).
-/

namespace TurboHash

variable {F : CellFormat} {K V H E : Type} {L : SlotLayout K V H E}

theorem Cell.Agrees.refl (c : Cell F H E) : c.Agrees c := ⟨rfl, fun _ _ => rfl, fun _ _ => rfl⟩

theorem Cell.Agrees.trans {c c' c'' : Cell F H E} (second : c''.Agrees c') (first : c'.Agrees c) :
    c''.Agrees c where
  ver := second.ver.trans first.ver
  slots i alive := (second.slots i (first.live_eq ▸ alive)).trans (first.slots i alive)
  tags i alive := (second.tags i (first.live_eq ▸ alive)).trans (first.tags i alive)

theorem Bucket.Agrees.setCell {b : Bucket F H E} {c : Nat} {cell : Cell F H E}
    (agrees : cell.Agrees (b.cells c)) : (b.setCell c cell).Agrees b where
  shift := rfl
  cells x _ := by
    rw [setCell_cells]
    split
    case isTrue here => exact here ▸ agrees
    case isFalse => exact .refl _

/-! ## A put that has not stored everything -/

namespace StorePoint

variable {point point' : StorePoint} {key : K} {value : V} {target : SlotInfo H} {c : Cell F H E}

/-- The cell behind the stores before `point`. -/
def stored (L : SlotLayout K V H E) (key : K) (value : V) (target : SlotInfo H)
    (c : Cell F H E) : StorePoint → Cell F H E
  | h1 => c
  | entry => h1.store L key value target c
  | tag => entry.store L key value target (h1.store L key value target c)
  | version =>
    tag.store L key value target
      (entry.store L key value target (h1.store L key value target c))

theorem store_stored (next : point.next = some point') :
    point.store L key value target (point.stored L key value target c) =
      point'.stored L key value target c := by
  cases point <;> cases next <;> rfl

/-- A store before that of the version word writes a dead slot. -/
theorem store_agrees (next : point.next = some point') (dead : c.live target.slot = false) :
    (point.store L key value target c).Agrees c := by
  have other : ∀ i, c.live i = true → i ≠ target.slot := by
    rintro i alive rfl
    rw [alive] at dead
    cases dead
  constructor
  case ver => cases point <;> cases next <;> rfl
  case slots =>
    intro i alive
    cases point <;> cases next <;> simp [store, Cell.setSlot, Cell.setTag, other i alive]
  case tags =>
    intro i alive
    cases point <;> cases next <;> simp [store, Cell.setSlot, Cell.setTag, other i alive]

theorem stored_agrees (dead : c.live target.slot = false) :
    (point.stored L key value target c).Agrees c := by
  have first : (h1.store L key value target c).Agrees c :=
    store_agrees (show h1.next = some entry from rfl) dead
  have second : (entry.store L key value target (h1.store L key value target c)).Agrees c :=
    (store_agrees (show entry.next = some tag from rfl) (first.live_eq.trans dead)).trans first
  have third : (tag.store L key value target
      (entry.store L key value target (h1.store L key value target c))).Agrees
        (entry.store L key value target (h1.store L key value target c)) :=
    store_agrees (show tag.next = some version from rfl) (second.live_eq.trans dead)
  cases point with
  | h1 => exact .refl c
  | entry => exact first
  | tag => exact second
  | version => exact third.trans second

/-- The last store is the commit of `insertToSlotAndGC`. -/
theorem store_version : version.store L key value target (version.stored L key value target c) =
    (insertToSlotAndGC L (L.keyToHash key) key value c target).1 := by
  cases h : target.equalKey <;>
    simp [stored, store, insertToSlotAndGC, Cell.setSlot, Cell.setTag, h]

end StorePoint

/-! ## What the other keys keep -/

/-- The words of the slot were stored under other keys, perhaps under two of them. -/
def Foreign (L : SlotLayout K V H E) (key : K) (slot : HashSlot H E) : Prop :=
  ∃ key₁ value₁ key₂ value₂, key₁ ≠ key ∧ key₂ ≠ key ∧
    slot = ⟨(L.slotOf key₁ value₁).h1, (L.slotOf key₂ value₂).entry⟩

theorem Foreign.of_slotOf {key key' : K} {value : V} (other : key' ≠ key) :
    Foreign L key (L.slotOf key' value) :=
  ⟨key', value, key', value, other, other, rfl⟩

/-- `H1` and the comparison of the key tell a key from words of other keys, each at a time of
its own. -/
def SlotLayout.TellsApart (L : SlotLayout K V H E) : Prop :=
  ∀ key slot slot', Foreign L key slot → Foreign L key slot' →
    slot.h1 = (L.keyHash key).h1 → L.slotKeyEqual key slot' = false

/-- From one bucket to the next, nothing has been written under `key`. -/
structure Bucket.Spares (L : SlotLayout K V H E) (b b' : Bucket F H E) (key : K) : Prop where
  grows : b.Grows b'
  holds : ∀ c < b.cellCount, ∀ i value,
    (b'.cells c).Holds L i key value ↔ (b.cells c).Holds L i key value
  foreign : ∀ c i, Foreign L key ((b.cells c).slots i) → Foreign L key ((b'.cells c).slots i)

theorem Bucket.Spares.refl (b : Bucket F H E) (key : K) : b.Spares L b key :=
  ⟨.refl b, fun _ _ _ _ => Iff.rfl, fun _ _ => id⟩

theorem Bucket.Agrees.symm {b b' : Bucket F H E} (agrees : b'.Agrees b) : b.Agrees b' where
  shift := agrees.shift.symm
  cells c inside := (agrees.cells c (agrees.count_eq ▸ inside)).symm

theorem Bucket.Agrees.grows {b b' : Bucket F H E} (agrees : b'.Agrees b) : b.Grows b' where
  shift := agrees.shift
  count c inside := by rw [(agrees.cells c inside).ver]
  full c inside := (agrees.cells c inside).full_iff.mpr

section Layouts

theorem flatLayout_tellsApart {K V : Type} [Inhabited K] [Inhabited V] (hash sizeT : K → UInt64) :
    (flatLayout hash sizeT : SlotLayout K V K V).TellsApart := by
  rintro key _ _ ⟨key₁, _, _, _, other, _, rfl⟩ _ same
  exact absurd same other

theorem flatKeyLayout_tellsApart {K V : Type} [Inhabited K] (hash sizeT : K → UInt64) :
    (flatKeyLayout hash sizeT : SlotLayout K V K (Option (K × V))).TellsApart := by
  rintro key _ _ ⟨key₁, _, _, _, other, _, rfl⟩ _ same
  exact absurd same other

theorem stringKeyLayout_tellsApart {K V : Type} [DecidableEq K] (hash : K → UInt64) :
    (stringKeyLayout hash : SlotLayout K V UInt64 (Option (K × V))).TellsApart := by
  rintro key _ _ _ ⟨_, _, key₂, value₂, _, other, rfl⟩ _
  simpa [stringKeyLayout, SlotLayout.slotOf] using other.symm

end Layouts

/-! ## The bucket under the lock -/

section Sound

variable [DecidableEq H] {bi : Nat} {b b' : Bucket F H E} {holder holder' : Holder K V H}

/-- A bucket as the holder of the lock has left it. -/
def Holder.Sound (L : SlotLayout K V H E) (bi : Nat) (b : Bucket F H E) : Holder K V H → Prop
  | .free => b.Placed L
  | .putting point key value target =>
    ∃ b₀ : Bucket F H E, b₀.Placed L ∧ InsertAnswer L b₀ key bi ⟨target, true⟩ ∧
      b = b₀.setCell target.cell (point.stored L key value target (b₀.cells target.cell))
  | .deleting key cell slot => b.Placed L ∧ DeleteAnswer L b key (some (cell, slot))

theorem Holder.Sound.placed (sound : holder.Sound L bi b) : b.Placed L := by
  cases holder with
  | free => exact sound
  | putting point key value target =>
    obtain ⟨b₀, placed, answer, rfl⟩ := sound
    exact (Bucket.Agrees.setCell (StorePoint.stored_agrees (answer.chosen rfl).dead)).placed placed
  | deleting key cell slot => exact sound.1

omit [DecidableEq H] in
theorem Bucket.setCell_setCell (b : Bucket F H E) (i : Nat) (c c' : Cell F H E) :
    (b.setCell i c).setCell i c' = b.setCell i c' := by
  simp [setCell]

omit [DecidableEq H] in
theorem StorePoint.store_foreign {point : StorePoint} {key key' : K} {value : V}
    {target : SlotInfo H} {c : Cell F H E} {i : Nat} (other : key ≠ key')
    (foreign : Foreign L key' (c.slots i)) :
    Foreign L key' ((point.store L key value target c).slots i) := by
  obtain ⟨key₁, value₁, key₂, value₂, other₁, other₂, words⟩ := foreign
  by_cases here : i = target.slot
  · subst here
    cases point with
    | h1 =>
      refine ⟨key, value, key₂, value₂, other, other₂, ?_⟩
      simp [store, Cell.setSlot, words, SlotLayout.slotOf]
    | entry =>
      refine ⟨key₁, value₁, key, value, other₁, other, ?_⟩
      simp [store, Cell.setSlot, words, SlotLayout.slotOf]
    | tag | version => exact ⟨key₁, value₁, key₂, value₂, other₁, other₂, words⟩
  · have same : (point.store L key value target c).slots i = c.slots i := by
      cases point <;> simp [store, Cell.setSlot, Cell.setTag, Cell.storeVersion, here]
    exact same ▸ ⟨key₁, value₁, key₂, value₂, other₁, other₂, words⟩

omit [DecidableEq H] in
/-- The slots of the other cells have not been written. -/
theorem foreign_setCell {key : K} {c i : Nat} {cell : Cell F H E}
    (kept : ∀ i, Foreign L key ((b.cells c).slots i) → Foreign L key (cell.slots i)) {x : Nat}
    (foreign : Foreign L key ((b.cells x).slots i)) :
    Foreign L key (((b.setCell c cell).cells x).slots i) := by
  rw [Bucket.setCell_cells]
  split
  case isTrue here => exact kept i (here ▸ foreign)
  case isFalse => exact foreign

/-- A store keeps the bucket sound and spares the keys that are not written. -/
theorem Holder.Sound.store (sound : holder.Sound L bi b)
    (step : holder.store L b = some (b', holder')) :
    holder'.Sound L bi b' ∧ ∀ key, holder.key ≠ some key → b.Spares L b' key := by
  cases holder with
  | free => cases step
  | putting point key value target =>
    obtain ⟨b₀, placed, answer, same⟩ := sound
    have dead := (answer.chosen rfl).dead
    have agrees : b.Agrees b₀ :=
      same ▸ .setCell (StorePoint.stored_agrees (c := b₀.cells target.cell) dead)
    have here : b.cells target.cell = point.stored L key value target (b₀.cells target.cell) := by
      rw [same, Bucket.setCell_self]
    have foreign : ∀ key', some key ≠ some key' → ∀ c i,
        Foreign L key' ((b.cells c).slots i) → Foreign L key' ((b'.cells c).slots i) := by
      intro key' other c i foreign
      cases step
      exact foreign_setCell (fun _ => StorePoint.store_foreign (by simpa using other)) foreign
    cases next : point.next with
    | some point' =>
      simp only [Holder.store, next, Option.elim, Option.some.injEq, Prod.mk.injEq] at step
      obtain ⟨rfl, rfl⟩ := step
      have stillDead : (b.cells target.cell).live target.slot = false := by
        rw [here, (StorePoint.stored_agrees dead).live_eq, dead]
      have storing : (b.setCell target.cell (point.store L key value target
          (b.cells target.cell))).Agrees b :=
        .setCell (StorePoint.store_agrees next stillDead)
      refine ⟨⟨b₀, placed, answer, ?_⟩, fun key' other => ⟨storing.grows, ?_, ?_⟩⟩
      · rw [here, StorePoint.store_stored next, same, Bucket.setCell_setCell]
      · exact fun c less i value => (storing.cells c less).holds_iff
      · exact foreign key' other
    | none =>
      obtain rfl : point = .version := by cases point <;> cases next; rfl
      simp only [Holder.store, next, Option.elim, Option.some.injEq, Prod.mk.injEq] at step
      obtain ⟨rfl, rfl⟩ := step
      rw [here, StorePoint.store_version, same, Bucket.setCell_setCell] at foreign ⊢
      obtain ⟨placed', -⟩ := placed.commit answer rfl value
      obtain ⟨grows, keeps⟩ := answer.keeps placed rfl value
      rw [← same] at foreign ⊢
      refine ⟨placed', fun key' other => ⟨agrees.symm.grows.trans grows, ?_, foreign key' other⟩⟩
      intro c less i value'
      rw [((keeps key' fun same => other (same ▸ rfl)).cells c).holds]
      exact (agrees.cells c (agrees.count_eq ▸ less)).holds_iff.symm
  | deleting key cell slot =>
    obtain ⟨placed, inside, value, held⟩ := sound
    cases step
    have answer : DeleteAnswer L b key (some (cell, slot)) := ⟨inside, value, held⟩
    obtain ⟨-, placed', -⟩ := placed.deleteCommit answer
    have wf := placed.wf cell inside
    rw [deleteCommit_eq wf] at placed' ⊢
    have grows := Bucket.Grows.setCell wf (wf.erase (Version.occupied_of_live held.1)) le_rfl
    refine ⟨placed', fun key' other => ⟨grows, fun c less => ?_, fun c i => ?_⟩⟩
    · have keeps := Bucket.Keeps.setCell grows
        (Cell.Keeps.erase held (show key' ≠ key from fun same => other (same ▸ rfl)))
      exact (keeps.cells c).holds
    · intro foreign
      refine foreign_setCell (fun i foreign => ?_) foreign
      exact foreign

end Sound

/-! ## The arrays of the race -/

namespace FindRace

variable [DecidableEq H] {kCellCountLimit bi : Nat} {key : K} {s s' : FindRace F K V H E}
  {a : FindAction F K V H E}

/-- Every published array keeps the placement invariant, the current one as far as the holder
of the lock has come. -/
structure Sound (L : SlotLayout K V H E) (bi : Nat) (s : FindRace F K V H E) : Prop where
  holder : s.holder.Sound L bi s.bucket
  old : ∀ array < s.current, (s.arrays array).Placed L

theorem Sound.placed (sound : s.Sound L bi) {array : Nat} (published : array ≤ s.current) :
    (s.arrays array).Placed L := by
  rcases Nat.lt_or_eq_of_le published with less | rfl
  · exact sound.old array less
  · exact sound.holder.placed

omit [DecidableEq H] in
theorem Sound.start {b : Bucket F H E} (placed : b.Placed L) : (start b).Sound L bi :=
  ⟨placed, fun _ less => absurd less (Nat.not_lt_zero _)⟩

/-- The rehash moves no entry beyond the reach of the searches, and so keeps the map
(`Bucket.Placed.rehash`). -/
def Preserves (L : SlotLayout K V H E) (s : FindRace F K V H E) : FindAction F K V H E → Prop
  | .rehash isgc _ => s.bucket.Near L (s.newShift isgc)
  | _ => True

/-- What a step of the writers leaves of the arrays. -/
structure Evolves (L : SlotLayout K V H E) (s s' : FindRace F K V H E) : Prop where
  current_le : s.current ≤ s'.current
  spares : ∀ key, s.holder.key ≠ some key → ∀ array ≤ s.current,
    (s.arrays array).Spares L (s'.arrays array) key
  /-- a new array binds what the old one has bound -/
  fresh : ∀ array, s.current < array → array ≤ s'.current → ∀ key value,
    (s'.arrays array).Binds L key value ↔ s.bucket.Binds L key value

omit [DecidableEq H] in
theorem Evolves.of_arrays (arrays : s'.arrays = s.arrays) (current : s'.current = s.current) :
    s.Evolves L s' where
  current_le := current.ge
  spares _ _ _ _ := arrays ▸ .refl _ _
  fresh _ less le := absurd less (Nat.not_lt.mpr (current ▸ le))

theorem Sound.rehash {isgc : Bool} {memory : Nat → Cell F H E} (sound : s.Sound L bi)
    (free : s.holder = .free) (near : s.bucket.Near L (s.newShift isgc))
    (taken : s.rehash L kCellCountLimit bi isgc memory = some s') :
    s'.Sound L bi ∧ s.Evolves L s' := by
  rw [FindRace.rehash] at taken
  split at taken
  case isTrue => cases taken
  case isFalse =>
    split at taken <;> cases taken
    case h_1 bucket count built =>
      obtain ⟨placed, binds⟩ := sound.holder.placed.rehash near built
      have before : ∀ array ≤ s.current,
          Function.update s.arrays (s.current + 1) bucket array = s.arrays array :=
        fun array le => Function.update_of_ne (by omega) ..
      refine ⟨⟨?_, fun array less => ?_⟩, ⟨Nat.le_succ _, fun key _ array le => ?_, ?_⟩⟩
      · simpa [free, Holder.Sound, FindRace.bucket] using placed
      · have le : array ≤ s.current := Nat.le_of_lt_succ less
        simpa only [before array le] using sound.placed le
      · simpa only [before array le] using Bucket.Spares.refl _ _
      · intro array less le
        obtain rfl : array = s.current + 1 := by simp only at le; omega
        simpa using binds

theorem Sound.store {b : Bucket F H E} {holder : Holder K V H} (sound : s.Sound L bi)
    (stored : s.holder.store L s.bucket = some (b, holder)) :
    Sound L bi { s.setBucket b with holder } ∧ s.Evolves L { s.setBucket b with holder } := by
  obtain ⟨holderSound, spares⟩ := sound.holder.store stored
  refine ⟨⟨?_, fun array less => ?_⟩, ⟨le_rfl, fun key other array le => ?_, ?_⟩⟩
  · simpa [FindRace.bucket, setBucket] using holderSound
  · have other : array ≠ s.current := Nat.ne_of_lt less
    simpa [setBucket, other] using sound.old array less
  · by_cases here : array = s.current
    · subst here
      simpa [setBucket, FindRace.bucket] using spares key other
    · simpa [setBucket, here] using Bucket.Spares.refl _ _
  · exact fun array less le => absurd less (Nat.not_lt.mpr le)

omit [DecidableEq H] in
theorem Sound.hold {holder : Holder K V H} (sound : s.Sound L bi)
    (holds : holder.Sound L bi s.bucket) :
    Sound L bi { s with holder } ∧ s.Evolves L { s with holder } :=
  ⟨⟨holds, sound.old⟩, .of_arrays rfl rfl⟩

theorem Sound.put {key : K} {value : V} (sound : s.Sound L bi)
    (taken : s.put L bi key value = some s') : s'.Sound L bi ∧ s.Evolves L s' := by
  have placed := sound.holder.placed
  rw [FindRace.put] at taken
  split at taken
  case h_1 res search =>
    have answer := Bucket.findSlotForInsert_answer placed.wf (Nat.lt_succ_self _) search
    split at taken <;> cases taken
    case isTrue found =>
      rw [show res = ⟨res.targetSlot, true⟩ from found ▸ rfl] at answer
      refine sound.hold ⟨s.bucket, placed, answer, ?_⟩
      simp [StorePoint.stored, Bucket.setCell]
  case h_2 => cases taken

theorem Sound.delete {key : K} (sound : s.Sound L bi) (taken : s.delete L bi key = some s') :
    s'.Sound L bi ∧ s.Evolves L s' := by
  have placed := sound.holder.placed
  rw [FindRace.delete] at taken
  split at taken <;> cases taken
  case h_1 cell slot search =>
    exact sound.hold ⟨placed,
      Bucket.findSlotForDelete_answer placed.wf (Nat.lt_succ_self _) search⟩
  case h_2 => exact ⟨sound, .of_arrays rfl rfl⟩

/-- Every step keeps the arrays sound. -/
theorem Sound.step (sound : s.Sound L bi) (preserves : s.Preserves L a)
    (taken : s.next L kCellCountLimit bi key a = some s') : s'.Sound L bi ∧ s.Evolves L s' := by
  cases a with
  | read =>
    obtain ⟨call, -, rfl⟩ := Option.map_eq_some_iff.mp taken
    exact ⟨⟨sound.holder, sound.old⟩, .of_arrays rfl rfl⟩
  | store =>
    obtain ⟨⟨b, holder⟩, stored, rfl⟩ := Option.map_eq_some_iff.mp taken
    exact sound.store stored
  | put key' value =>
    simp only [next] at taken
    split at taken
    case h_1 => exact sound.put taken
    case h_2 => cases taken
  | delete key' =>
    simp only [next] at taken
    split at taken
    case h_1 => exact sound.delete taken
    case h_2 => cases taken
  | rehash isgc memory =>
    simp only [next] at taken
    split at taken
    case h_1 free => exact sound.rehash free preserves taken
    case h_2 => cases taken

end FindRace

end TurboHash
