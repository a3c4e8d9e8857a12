import TurboHash.LookupBound

/-!
# A lookup of a key that is bound throughout

`findSlot` takes the slots to look at from two loads, of the tags and of the version word, and
has no test behind a scan that finds nothing. It sees a key that is bound all the time as long
as the tags show the slot that the version word shows, and a slot with the words of the key
stays among those it has still to look at: an update of the key leaves them in the old slot,
until a `Put` stores over them.
-/

namespace TurboHash

open Transition

variable {F : CellFormat} {τ K V H E : Type} {L : SlotLayout K V H E} {bi : Nat} {key : K}

/-- The test that a lookup makes of a slot with its two loads. -/
def SlotLayout.hasKey [DecidableEq H] (L : SlotLayout K V H E) (key : K) (slot : HashSlot H E) :
    Bool :=
  slot.h1 == (L.keyHash key).h1 && L.slotKeyEqual key slot

namespace LookupRace

/-! ## The conditions -/

section Conditions

variable [DecidableEq H] (L : SlotLayout K V H E) (key : K)

/-- One of the slots that a lookup has still to look at has the key. Of the slot that it
compares, it has loaded the `H1`. -/
def InSight (b : Bucket F H E) : FindCall F H E → Prop
  | .scanning p _ slots => ∃ i ∈ slots, L.hasKey key ((b.cells p.probe.cellIndex).slots i) = true
  | .comparing p _ i slots =>
    L.slotKeyEqual key ((b.cells p.probe.cellIndex).slots i) = true ∨
      ∃ j ∈ slots, L.hasKey key ((b.cells p.probe.cellIndex).slots j) = true
  | _ => True

instance (b : Bucket F H E) : ∀ call : FindCall F H E, Decidable (InSight L key b call)
  | .scanning _ _ slots => inferInstanceAs (Decidable (∃ i ∈ slots, _))
  | .comparing _ _ _ slots => inferInstanceAs (Decidable (_ ∨ ∃ j ∈ slots, _))
  | .idle | .calling | .addressed _ | .probing _ | .tagged _ _ | .matched _ _ _
  | .copying _ _ _ _ | .copied _ _ _ _ | .returned _ => isTrue trivial

/-- The tags that a lookup has loaded show the valid slot that has the key. -/
def TagsShow (arrays : Nat → Bucket F H E) : FindCall F H E → Prop
  | .tagged p tags => ∀ i < F.bits, (p.cell arrays).live i = true →
      L.hasKey key ((p.cell arrays).slots i) = true → tags i = (L.keyHash key).h2
  | _ => True

instance (arrays : Nat → Bucket F H E) :
    ∀ call : FindCall F H E, Decidable (TagsShow L key arrays call)
  | .tagged _ _ => inferInstanceAs (Decidable (∀ i < F.bits, _))
  | .idle | .calling | .addressed _ | .probing _ | .scanning _ _ _ | .comparing _ _ _ _
  | .matched _ _ _ | .copying _ _ _ _ | .copied _ _ _ _ | .returned _ => isTrue trivial

/-- Where the step is the load of a version word: the tags loaded before it show the slot that
has the key. -/
def SeesTag (s : LookupRace F τ K V H E) : LookupAction τ K V → Prop
  | .read => TagsShow L key s.race.arrays s.race.call
  | _ => True

instance (s : LookupRace F τ K V H E) : ∀ a : LookupAction τ K V, Decidable (s.SeesTag L key a)
  | .read => inferInstanceAs (Decidable (TagsShow L key s.race.arrays s.race.call))
  | .put _ _ | .store | .call _ _ | .load _ | .lock _ => isTrue trivial

/-- A `Put` that stores a word of its slot does not store over the last one of the slots in
sight that have the key. -/
def StoreKeeps (b : Bucket F H E) (call : FindCall F H E) : Holder K V H → Prop
  | .putting point key' value target =>
    point = .h1 ∨ point = .entry → InSight L key b call →
      InSight L key (b.setCell target.cell (point.store L key' value target (b.cells target.cell)))
        call
  | _ => True

instance (b : Bucket F H E) (call : FindCall F H E) :
    ∀ holder : Holder K V H, Decidable (StoreKeeps L key b call holder)
  | .putting _ _ _ _ => inferInstanceAs (Decidable (_ ∨ _ → _ → _))
  | .free | .deleting _ _ _ => isTrue trivial

/-- Where the step is a store: it keeps the key in sight. -/
def KeepsSight (s : LookupRace F τ K V H E) : LookupAction τ K V → Prop
  | .store => StoreKeeps L key s.bucket s.race.call s.race.holder
  | _ => True

instance (s : LookupRace F τ K V H E) :
    ∀ a : LookupAction τ K V, Decidable (s.KeepsSight L key a)
  | .store => inferInstanceAs (Decidable (StoreKeeps L key s.bucket s.race.call s.race.holder))
  | .read | .put _ _ | .call _ _ | .load _ | .lock _ => isTrue trivial

end Conditions

/-! ## The cell of the key -/

section Cells

variable [DecidableEq H] {b b' : Bucket F H E} {holder holder' : Holder K V H} {c : Nat}

omit [DecidableEq H] in
/-- The cell of a key is on its path. -/
theorem exists_pathCell (placed : b.Placed L) (inside : c < b.cellCount)
    (located : b.Located L key c) : ∃ d < min maxProbeLen b.cellCount, pathCell L b key d = c := by
  obtain ⟨i, value, holds⟩ := located
  obtain ⟨d, less, same⟩ := mem_probePath.mp (placed.reaches c inside i key value holds).mem
  exact ⟨d, less, same.symm⟩

/-- The stores of a `Put` before its version word leave every binding where it is. -/
theorem agrees_of_word {point point' : StorePoint} {key' : K} {value : V} {target : SlotInfo H}
    (sound : (Holder.putting point key' value target : Holder K V H).Sound L bi b)
    (next : point.next = some point') :
    (b.setCell target.cell (point.store L key' value target (b.cells target.cell))).Agrees b := by
  obtain ⟨b₀, -, answer, rfl⟩ := sound
  have dead := (answer.chosen rfl).dead
  refine .setCell (StorePoint.store_agrees next ?_)
  rw [Bucket.setCell_self, (StorePoint.stored_agrees dead).live_eq, dead]

omit [DecidableEq H] in
/-- The commit of a `Put` moves no key to another cell. -/
theorem located_of_commit {key' : K} {value : V} {target : SlotInfo H} (placed : b.Placed L)
    (answer : InsertAnswer L b key' bi ⟨target, true⟩) (located : b.Located L key c) :
    (b.setCell target.cell (insertToSlotAndGC L (L.keyToHash key') key' value
      (b.cells target.cell) target).1).Located L key c := by
  cases answer with
  | update inside _ old holds free =>
    rw [insertToSlotAndGC_update (placed.wf _ inside)]
    exact located.update holds free
  | insert inside _ free _ =>
    rw [insertToSlotAndGC_insert (placed.wf _ inside)]
    exact located.insert free

omit [DecidableEq H] in
theorem shift_of_stores (stores : Stores L b holder b' holder') :
    b'.cellCountShift = b.cellCountShift := by
  cases stores <;> rfl

/-- A key that is still bound behind a store is where it was. -/
theorem located_of_stores (sound : holder.Sound L bi b) (stores : Stores L b holder b' holder')
    (inside : c < b.cellCount) (located : b.Located L key c)
    (bound : ∃ value, b'.Binds L key value) : b'.Located L key c := by
  cases stores with
  | @word point point' key' value target next =>
    obtain ⟨i, value', holds⟩ := located
    exact ⟨i, value', ((agrees_of_word sound next).cells c inside).holds_iff.mpr holds⟩
  | @put key' value target =>
    obtain ⟨b₀, placed, answer, rfl⟩ := sound
    have dead := (answer.chosen rfl).dead
    have agrees : (b₀.setCell target.cell (StorePoint.version.stored L key' value target
        (b₀.cells target.cell))).Agrees b₀ := .setCell (StorePoint.stored_agrees dead)
    obtain ⟨i, value', holds⟩ := located
    have located : b₀.Located L key c := ⟨i, value', (agrees.cells c inside).holds_iff.mp holds⟩
    rw [Bucket.setCell_self, StorePoint.store_version, Bucket.setCell_setCell]
    exact located_of_commit placed answer located
  | @delete key' cell slot =>
    obtain ⟨placed, within, value, held⟩ := sound
    have answer : DeleteAnswer L b key' (some (cell, slot)) := ⟨within, value, held⟩
    obtain ⟨-, -, binds⟩ := placed.deleteCommit answer
    obtain ⟨value', bound⟩ := bound
    have other := ((binds key value').mp bound).1
    rw [deleteCommit_eq (placed.wf cell within)]
    exact located.erase other held

end Cells

/-! ## What the lookup has before it -/

/-- The lookup has not passed cell `c`. -/
def Ahead (L : SlotLayout K V H E) (key : K) (b : Bucket F H E) (c : Nat) (p : FindProbe) : Prop :=
  ∃ d < min maxProbeLen b.cellCount, pathCell L b key d = c ∧ p.probeCount ≤ d

/-- A lookup on its way to its key in cell `c`: there a slot with the key is in sight, and
another cell is one to go on behind. -/
def Finds [DecidableEq H] (L : SlotLayout K V H E) (key : K) (b : Bucket F H E) (c : Nat)
    (call : FindCall F H E) : Prop :=
  (∀ p, call.probe = some p → Ahead L key b c p) ∧
    match call with
    | .scanning p m _ | .comparing p m _ _ =>
      if p.probe.cellIndex = c then InSight L key b call else m.full = true
    | .returned result => result.isSome = true
    | _ => True

section Finds

variable [DecidableEq H] {b b' : Bucket F H E} {holder holder' : Holder K V H} {c : Nat}
  {call call' : FindCall F H E}

omit [DecidableEq H] in
theorem slots_setCell {cell : Cell F H E} {x : Nat} (slots : cell.slots = (b.cells x).slots)
    (c : Nat) : ((b.setCell x cell).cells c).slots = (b.cells c).slots := by
  rw [Bucket.setCell_cells]
  split
  case isTrue here => rw [slots, here]
  case isFalse => rfl

theorem InSight.congr (sight : InSight L key b call)
    (slots : ∀ c, (b'.cells c).slots = (b.cells c).slots) : InSight L key b' call := by
  cases call with
  | scanning p m listed | comparing p m i listed =>
    simp only [InSight, slots]
    exact sight
  | _ => trivial

/-- The stores of the holder of the lock leave the key in sight. -/
theorem InSight.stores {s : LookupRace F τ K V H E} (sight : InSight L key s.bucket s.race.call)
    (stores : Stores L s.bucket s.race.holder b' holder')
    (keeps : s.KeepsSight L key (.store : LookupAction τ K V)) :
    InSight L key b' s.race.call := by
  generalize held : s.race.holder = holder at stores
  rw [KeepsSight, held] at keeps
  cases stores with
  | @word point point' key' value target next =>
    cases point with
    | h1 => exact keeps (Or.inl rfl) sight
    | entry => exact keeps (Or.inr rfl) sight
    | tag => exact sight.congr (slots_setCell rfl)
    | version => cases next
  | put =>
    apply sight.congr (slots_setCell _)
    rw [StorePoint.store]
    split <;> rfl
  | delete => exact sight.congr (slots_setCell rfl)

/-- The bucket has changed under a lookup. -/
theorem Finds.imp (finds : Finds L key b c call) (shift : b'.cellCountShift = b.cellCountShift)
    (sight : InSight L key b call → InSight L key b' call) : Finds L key b' c call := by
  obtain ⟨ahead, rest⟩ := finds
  have count : b'.cellCount = b.cellCount := congrArg (2 ^ ·) shift
  refine ⟨fun p probe => ?_, ?_⟩
  · obtain ⟨d, less, same, le⟩ := ahead p probe
    refine ⟨d, count.symm ▸ less, ?_, le⟩
    rw [← same, pathCell, pathCell, count]
  · cases call with
    | scanning p m slots | comparing p m i slots =>
      dsimp only at rest ⊢
      split
      case isTrue here => exact sight (by rwa [if_pos here] at rest)
      case isFalse there => rwa [if_neg there] at rest
    | _ => exact rest

/-- The version word of the cell of the key, behind tags that show its slot. -/
theorem inSight_of_load {p : FindProbe} {tags : Nat → UInt8} (placed : b.Placed L)
    (within : p.probe.cellIndex < b.cellCount) (located : b.Located L key p.probe.cellIndex)
    (tagged : ∀ i < F.bits, (b.cells p.probe.cellIndex).live i = true →
      L.hasKey key ((b.cells p.probe.cellIndex).slots i) = true → tags i = (L.keyHash key).h2) :
    let m : CellMeta F := ⟨tags, (b.cells p.probe.cellIndex).loadVersion⟩
    InSight L key b (.scanning p m (m.matchBitSet (L.keyHash key).h2).toList) := by
  obtain ⟨i, value, alive, stored⟩ := located
  have same : L.hasKey key ((b.cells p.probe.cellIndex).slots i) = true := by
    rw [stored]
    exact (L.match_slotOf key key value).mpr rfl
  have tag := tagged i (Version.lt_bits_of_live alive) alive same
  have wf := placed.wf _ within
  refine ⟨i, ?_, same⟩
  rw [BitSet.mem_toList, CellMeta.getLsbD_matchBitSet (by exact wf.loadMeta_wf)]
  refine ⟨?_, tag⟩
  change (b.cells p.probe.cellIndex).loadVersion.live i = true
  rw [wf.loadVersion_eq]
  exact alive

theorem hasKey_eq {slot : HashSlot H E} :
    L.hasKey key slot = true ↔ slot.h1 = (L.keyHash key).h1 ∧ L.slotKeyEqual key slot = true := by
  rw [SlotLayout.hasKey, Bool.and_eq_true, beq_iff_eq]

/-- A load of the lookup. -/
theorem Finds.read {arrays : Nat → Bucket F H E} {current : Nat} (finds : Finds L key b c call)
    (placed : b.Placed L) (inside : c < b.cellCount) (located : b.Located L key c)
    (cells : ∀ p, call.probed = some p → p.cell arrays = b.cells p.probe.cellIndex ∧
      p.probe.cellIndex < b.cellCount)
    (onPath : ∀ p, call.probe = some p → p.OnPath L bi key b)
    (tagged : ∀ p tags, call = .tagged p tags → ∀ i < F.bits,
      (p.cell arrays).live i = true → L.hasKey key ((p.cell arrays).slots i) = true →
        tags i = (L.keyHash key).h2)
    (read : call.read L key bi current arrays = some call') : Finds L key b c call' := by
  obtain ⟨ahead, rest⟩ := finds
  have stay : ∀ {p}, call.probe = some p → ∀ q, some p = some q → Ahead L key b c q := by
    intro p probe q same
    cases same
    exact ahead p probe
  cases call with
  | idle | returned => cases read
  | calling =>
    cases read
    refine ⟨fun p probe => ?_, trivial⟩
    cases probe
  | addressed array =>
    cases read
    obtain ⟨d, less, same⟩ := exists_pathCell placed inside located
    refine ⟨fun p probe => ?_, trivial⟩
    cases probe
    exact ⟨d, less, same, Nat.zero_le d⟩
  | probing p =>
    obtain ⟨d, less, -, le⟩ := ahead p rfl
    have valid := (onPath p rfl).within_iff.mpr (Nat.lt_of_le_of_lt le less)
    rw [FindCall.read, if_pos valid] at read
    cases read
    exact ⟨stay rfl, trivial⟩
  | tagged p tags =>
    obtain ⟨here, within⟩ := cells p rfl
    have tagged := tagged p tags rfl
    rw [here] at tagged
    rw [FindCall.read, here] at read
    cases read
    refine ⟨stay rfl, ?_⟩
    dsimp only
    split
    case isTrue same => exact inSight_of_load placed within (same ▸ located) tagged
    case isFalse other =>
      obtain ⟨d, less, rfl, le⟩ := ahead p rfl
      have index := (onPath p rfl).cellIndex (Nat.lt_of_le_of_lt le less)
      rw [index] at other ⊢
      have before : p.probeCount < d := by
        refine Nat.lt_of_le_of_ne le fun same => other ?_
        rw [same]
      exact placed.full_before less located before
  | scanning p m slots =>
    obtain ⟨here, -⟩ := cells p rfl
    cases slots with
    | nil =>
      have other : p.probe.cellIndex ≠ c := by
        intro same
        dsimp only at rest
        rw [if_pos same] at rest
        obtain ⟨i, mem, -⟩ := rest
        exact List.not_mem_nil mem
      dsimp only at rest
      rw [if_neg other] at rest
      rw [FindCall.read, if_pos rest] at read
      cases read
      refine ⟨fun q probe => ?_, trivial⟩
      cases probe
      obtain ⟨d, less, same, le⟩ := ahead p rfl
      have index := (onPath p rfl).cellIndex (Nat.lt_of_le_of_lt le less)
      refine ⟨d, less, same, Nat.lt_of_le_of_ne le fun equal => other ?_⟩
      rw [index, equal, same]
    | cons i slots =>
      rw [FindCall.read, here] at read
      cases read
      split
      case isTrue sameH1 =>
        refine ⟨stay rfl, ?_⟩
        dsimp only at rest ⊢
        split
        case isTrue same =>
          rw [if_pos same] at rest
          obtain ⟨j, mem, has⟩ := rest
          rcases List.mem_cons.mp mem with rfl | mem
          · exact Or.inl (hasKey_eq.mp has).2
          · exact Or.inr ⟨j, mem, has⟩
        case isFalse other => rwa [if_neg other] at rest
      case isFalse otherH1 =>
        refine ⟨stay rfl, ?_⟩
        dsimp only at rest ⊢
        split
        case isTrue same =>
          rw [if_pos same] at rest
          obtain ⟨j, mem, has⟩ := rest
          rcases List.mem_cons.mp mem with rfl | mem
          · exact absurd (beq_iff_eq.mpr (hasKey_eq.mp has).1) otherH1
          · exact ⟨j, mem, has⟩
        case isFalse other => rwa [if_neg other] at rest
  | comparing p m i slots =>
    obtain ⟨here, -⟩ := cells p rfl
    rw [FindCall.read, here] at read
    cases read
    split
    case isTrue => exact ⟨stay rfl, trivial⟩
    case isFalse unequal =>
      refine ⟨stay rfl, ?_⟩
      dsimp only at rest ⊢
      split
      case isTrue same =>
        rw [if_pos same] at rest
        exact rest.resolve_left unequal
      case isFalse other => rwa [if_neg other] at rest
  | matched p m i | copying p m i h1 =>
    cases read
    exact ⟨stay rfl, trivial⟩
  | copied p m i record =>
    rw [FindCall.read] at read
    cases read
    split
    case isTrue => exact ⟨stay rfl, trivial⟩
    case isFalse =>
      refine ⟨fun p probe => ?_, rfl⟩
      cases probe

end Finds

/-! ## Updates of the key -/

end LookupRace

/-- `SlotKeyEqual` does not read `H1`. -/
def SlotLayout.ComparesEntry (L : SlotLayout K V H E) : Prop :=
  ∀ key h1 h1' entry, L.slotKeyEqual key ⟨h1, entry⟩ = L.slotKeyEqual key ⟨h1', entry⟩

theorem flatLayout_comparesEntry {K V : Type} [Inhabited K] [Inhabited V]
    (hash sizeT : K → UInt64) : (flatLayout hash sizeT : SlotLayout K V K V).ComparesEntry :=
  fun _ _ _ _ => rfl

theorem flatKeyLayout_comparesEntry {K V : Type} [Inhabited K] (hash sizeT : K → UInt64) :
    (flatKeyLayout hash sizeT : SlotLayout K V K (Option (K × V))).ComparesEntry :=
  fun _ _ _ _ => rfl

theorem stringKeyLayout_comparesEntry {K V : Type} [DecidableEq K] (hash : K → UInt64) :
    (stringKeyLayout hash : SlotLayout K V UInt64 (Option (K × V))).ComparesEntry :=
  fun _ _ _ _ => rfl

namespace LookupRace

section Own

variable [DecidableEq H] {point : StorePoint} {value : V} {target : SlotInfo H}

omit [DecidableEq H] in
/-- A `Put` of the key stores words of the key. -/
theorem store_own (compares : L.ComparesEntry) (b : Bucket F H E) (key : K) (value : V)
    (target : SlotInfo H) (stores : point = .h1 ∨ point = .entry) (c i : Nat) :
    let slot := (b.cells c).slots i
    let slot' := ((b.setCell target.cell
      (point.store L key value target (b.cells target.cell))).cells c).slots i
    (slot.h1 = (L.keyHash key).h1 → slot'.h1 = (L.keyHash key).h1) ∧
      (L.slotKeyEqual key slot = true → L.slotKeyEqual key slot' = true) := by
  dsimp only
  rw [Bucket.setCell_cells]
  split
  case isFalse => exact ⟨id, id⟩
  case isTrue here =>
    subst here
    by_cases stored : i = target.slot
    · subst stored
      rcases stores with rfl | rfl <;>
        simp only [StorePoint.store, Cell.setSlot, Function.update_self]
      · exact ⟨fun _ => L.store_h1 _ _ _, fun equal => by rwa [compares key _ (Cell.slots _ _).h1]⟩
      · refine ⟨id, fun _ => ?_⟩
        rw [compares key _ (L.slotOf key value).h1]
        exact (L.slotKeyEqual_store key key value rfl).mpr rfl
    · have same : ((point.store L key value target (b.cells target.cell)).slots i) =
          (b.cells target.cell).slots i := by
        rcases stores with rfl | rfl <;> exact Function.update_of_ne stored ..
      rw [same]
      exact ⟨id, id⟩

/-- An update of the key leaves it in sight. -/
theorem keepsSight_own {s : LookupRace F τ K V H E} (compares : L.ComparesEntry)
    (held : s.race.holder = .putting point key value target) :
    s.KeepsSight L key (.store : LookupAction τ K V) := by
  rw [KeepsSight, held]
  intro (stores : point = .h1 ∨ point = .entry) sight
  have kept := store_own compares s.bucket key value target stores
  have has : ∀ c i, L.hasKey key ((s.bucket.cells c).slots i) = true → L.hasKey key
      (((s.bucket.setCell target.cell (point.store L key value target
        (s.bucket.cells target.cell))).cells c).slots i) = true := fun c i has =>
    hasKey_eq.mpr ((hasKey_eq.mp has).imp (kept c i).1 (kept c i).2)
  cases call : s.race.call with
  | scanning p m slots =>
    rw [call] at sight
    obtain ⟨i, mem, matched⟩ := sight
    exact ⟨i, mem, has _ i matched⟩
  | comparing p m i slots =>
    rw [call] at sight
    rcases sight with equal | ⟨j, mem, matched⟩
    · exact Or.inl ((kept _ i).2 equal)
    · exact Or.inr ⟨j, mem, has _ j matched⟩
  | _ => trivial

end Own

/-! ## Runs -/

section Result

variable [DecidableEq τ] [DecidableEq H] {b : Bucket F H E} {s s' : LookupRace F τ K V H E}
  {a : LookupAction τ K V} {c : Nat}
  {earlier steps : List (LookupRace F τ K V H E × LookupAction τ K V)}

/-- The key has a binding. -/
def Bound (L : SlotLayout K V H E) (key : K) (s : LookupRace F τ K V H E) : Prop :=
  ∃ value, s.bucket.Binds L key value

/-- As long as the key is bound, it is in cell `c` and the lookup on its way to it. -/
structure OnWay (L : SlotLayout K V H E) (bi : Nat) (key : K) (c : Nat)
    (s : LookupRace F τ K V H E) : Prop where
  sound : s.Sound L bi key
  inside : c < s.bucket.cellCount
  here : s.Bound L key → s.bucket.Located L key c ∧ Finds L key s.bucket c s.race.call

omit [DecidableEq τ] [DecidableEq H] in
/-- The probe of the lookup is on the path of the key in the bucket. -/
theorem Sound.onPath (sound : s.Sound L bi key) {p : FindProbe}
    (probe : s.race.call.probe = some p) : p.OnPath L bi key s.bucket := by
  have array := sound.array_eq sound.inside probe
  have onPath := sound.inside.onPath p probe
  rwa [array] at onPath

theorem OnWay.step (onWay : s.OnWay L bi key c) (bound : s.Bound L key)
    (own : s.DeletesOwnSlot L a) (sees : s.SeesTag L key a) (keeps : s.KeepsSight L key a)
    (taken : s.next L bi key a = some s') : s'.OnWay L bi key c := by
  obtain ⟨sound', evolves⟩ := onWay.sound.step own taken
  obtain ⟨located, finds⟩ := onWay.here bound
  have holderSound := onWay.sound.race.holder
  rcases read_or_writes taken with ⟨rfl, call, read, same⟩ | ⟨-, writes⟩
  · refine ⟨sound', ?_, fun _ => ?_⟩ <;> rw [bucket, same]
    · exact onWay.inside
    · refine ⟨located, finds.read holderSound.placed onWay.inside located
        (fun p probed => onWay.sound.cells onWay.sound.inside probed)
        (fun p probe => onWay.sound.onPath probe) (fun p tags tagged => ?_) read⟩
      rw [SeesTag, tagged] at sees
      exact sees
  · have call := writes.call
    generalize after : s'.race = race at writes call
    cases writes with
    | keep | hold =>
      refine ⟨sound', ?_, fun _ => ?_⟩ <;> rw [bucket, after]
      · exact onWay.inside
      · exact ⟨located, finds⟩
    | @store b holder stores =>
      have now : s'.bucket = b := by
        rw [bucket, after]
        simp [FindRace.bucket, FindRace.setBucket]
      have shift := shift_of_stores stores
      refine ⟨sound', ?_, fun still => ?_⟩
      · rw [now, Bucket.cellCount, shift]
        exact onWay.inside
      · rw [Bound, now] at still
        rw [now, after]
        refine ⟨located_of_stores holderSound stores onWay.inside located still, ?_⟩
        exact finds.imp shift fun sight => sight.stores stores keeps

/-- A lookup of a key that is bound in every state it runs through finds it, if the tags it has
loaded show the slot of the key that its version word shows, no slot that it has still to look
at is stored over, unless another one has the key, and the deletes delete their own slots. -/
theorem find_present (placed : b.Placed L) (before : Run (next L bi key) (start b) earlier s)
    (run : Run (next L bi key) s.find steps s')
    (own : ∀ p ∈ earlier ++ steps, p.1.DeletesOwnSlot L p.2)
    (meets : ∀ p ∈ steps, p.1.SeesTag L key p.2 ∧ p.1.KeepsSight L key p.2)
    (bound : ∀ q ∈ visited steps s', ∃ value, q.bucket.Binds L key value)
    {result : Option (HashSlot H E)} (returned : s'.race.call = .returned result) :
    result.isSome = true := by
  have sound := sound_of_run placed before fun p mem => own p (by simp [mem])
  have first : s.find.Bound L key := bound s.find run.first_mem_visited
  obtain ⟨c, inside, i, value, holds⟩ : ∃ c < s.bucket.cellCount, s.bucket.Located L key c := by
    obtain ⟨value, c, inside, i, holds⟩ := first
    exact ⟨c, inside, i, value, holds⟩
  have onWay := run.invariant (I := OnWay L bi key c)
    (G := fun s a => s.Bound L key ∧ s.DeletesOwnSlot L a ∧ s.SeesTag L key a ∧
      s.KeepsSight L key a)
    (fun _ _ _ onWay ⟨bound, own, sees, keeps⟩ taken => onWay.step bound own sees keeps taken)
    (fun p mem => ⟨bound p.1 (by simp [visited, List.mem_map_of_mem mem]), own p (by simp [mem]),
      meets p mem⟩)
    ⟨sound.find, inside, fun _ => ⟨⟨i, value, holds⟩, nofun, trivial⟩⟩
  obtain ⟨-, -, found⟩ := onWay.here (bound s' (by simp [visited]))
  rwa [returned] at found

end Result

/-! ## Runs of the DRAM table -/

section Dram

/-- The call has returned false. -/
def missed : FindCall F H E → Bool
  | .returned none => true
  | _ => false

theorem returned_of_missed {call : FindCall F H E} (result : missed call = true) :
    call = .returned none := by
  cases call with
  | returned found =>
    cases found with
    | none => rfl
    | some _ => cases result
  | _ => cases result

/-- A slot of the one cell is valid and has the key. -/
def Stored (key : UInt64) (s : DramLookup) : Prop :=
  ∃ i < 8, (s.bucket.cells 0).live i = true ∧ ((s.bucket.cells 0).slots i).h1 = key

instance (key : UInt64) (s : DramLookup) : Decidable (Stored key s) :=
  inferInstanceAs (Decidable (∃ i < 8, _))

theorem Stored.bound {key : UInt64} {s : DramLookup} (stored : Stored key s) :
    s.Bound dramLayout key := by
  obtain ⟨i, -, alive, rfl⟩ := stored
  exact ⟨((s.bucket.cells 0).slots i).entry, 0, s.bucket.cellCount_pos, i, alive, rfl⟩

/-- The lookup has loaded the tags and the version word when its key is updated. -/
def updateBehind : List (LookupAction Nat UInt64 UInt64) :=
  List.replicate 4 .read ++ putAll 1 20 ++ List.replicate 5 .read

/-- The lookup has loaded the tags when its key is updated. -/
def updateBetween : List (LookupAction Nat UInt64 UInt64) :=
  List.replicate 3 .read ++ putAll 1 20 ++ List.replicate 2 .read

theorem exists_visited_stored {actions : List (LookupAction Nat UInt64 UInt64)}
    {good : DramLookup → LookupAction Nat UInt64 UInt64 → Prop} [∀ s a, Decidable (good s a)]
    {s s' : DramLookup}
    (found : execute (guarded dramNext fun s a => good s a ∧ Stored 1 s) s actions = some s')
    (last : Stored 1 s') : ∃ steps, Run dramNext s steps s' ∧ (∀ p ∈ steps, good p.1 p.2) ∧
      ∀ q ∈ visited steps s', ∃ value, q.bucket.Binds dramLayout 1 value := by
  obtain ⟨steps, run, met⟩ := exists_run_of_guarded found
  refine ⟨steps, run, fun p mem => (met p mem).1, fun q mem => ?_⟩
  rcases List.mem_append.mp mem with mem | mem
  · obtain ⟨p, passed, rfl⟩ := List.mem_map.mp mem
    exact (met p passed).2.bound
  · rw [List.mem_singleton.mp mem]
    exact last.bound

theorem find_present_updateBehind :
    ∃ (s : DramLookup) (steps : List (DramLookup × _)) (s' : _) (result : _),
      Run dramNext s.find steps s' ∧ s'.race.call = .returned result ∧ result.isSome = true := by
  have ran : ((execute (guarded dramNext (DeletesOwnSlot dramLayout)) (start emptyCell)
      (putAll 1 10)).bind fun s =>
        execute (guarded dramNext fun s a => (s.DeletesOwnSlot dramLayout a ∧
          s.SeesTag dramLayout 1 a ∧ s.KeepsSight dramLayout 1 a) ∧ Stored 1 s) s.find
            updateBehind).map
      (fun s => (s.race.call.result, decide (Stored 1 s))) = some (some ⟨1, 10⟩, true) := by
    decide +kernel
  obtain ⟨s', executed, seen⟩ := Option.map_eq_some_iff.mp ran
  obtain ⟨result, last⟩ := Prod.mk.inj seen
  obtain ⟨s, stored, found⟩ := Option.bind_eq_some_iff.mp executed
  obtain ⟨earlier, before, own⟩ := exists_run_of_guarded stored
  obtain ⟨steps, run, met, bound⟩ := exists_visited_stored found (of_decide_eq_true last)
  have returned := FindCall.returned_of_result result
  refine ⟨s, steps, s', _, run, returned, ?_⟩
  refine find_present placed_emptyCell before run (fun p mem => ?_) (fun p mem => (met p mem).2)
    bound returned
  rcases List.mem_append.mp mem with mem | mem
  · exact own p mem
  · exact (met p mem).1

/-- A `Find` misses a key that is bound in every state: the tags are those before an update of
the key, the version word the one behind it. -/
theorem find_misses_bound :
    ∃ (earlier : List (DramLookup × _)) (s : DramLookup) (steps : List (DramLookup × _)) (s' : _),
      Run dramNext (start emptyCell) earlier s ∧ Run dramNext s.find steps s' ∧
        (∀ q ∈ visited steps s', ∃ value, q.bucket.Binds dramLayout 1 value) ∧
          s'.race.call = .returned none := by
  have ran : ((execute dramNext (start emptyCell) (putAll 1 10)).bind fun s =>
      execute (guarded dramNext fun s _ => True ∧ Stored 1 s) s.find updateBetween).map
        (fun s => (missed s.race.call, decide (Stored 1 s))) = some (true, true) := by decide +kernel
  obtain ⟨s', executed, seen⟩ := Option.map_eq_some_iff.mp ran
  obtain ⟨result, last⟩ := Prod.mk.inj seen
  obtain ⟨s, stored, found⟩ := Option.bind_eq_some_iff.mp executed
  obtain ⟨earlier, before, -⟩ := exists_run_of_execute stored
  obtain ⟨steps, run, -, bound⟩ := exists_visited_stored found (of_decide_eq_true last)
  exact ⟨earlier, s, steps, s', before, run, bound, returned_of_missed result⟩

end Dram

end LookupRace

end TurboHash
