import TurboHash.FindPath

/-!
# A lookup across rehashes

As long as nobody writes its key, a lookup that walks the path of its array returns what the
key is bound to, no matter which of the published arrays it reads and what the writers of
other keys store meanwhile.
-/

namespace TurboHash

open Transition

variable {F : CellFormat} {K V H E : Type} {L : SlotLayout K V H E} {bi : Nat} {key : K}

/-! ## What the lookup knows of its key -/

/-- The cells behind the probe are full, and none holds the key. -/
structure FindProbe.Passed (L : SlotLayout K V H E) (bi : Nat) (key : K) (b : Bucket F H E)
    (p : FindProbe) : Prop where
  onPath : p.OnPath L bi key b
  cleared : Cleared L b key p.probeCount

structure FindProbe.AtCell (L : SlotLayout K V H E) (bi : Nat) (key : K) (b : Bucket F H E)
    (p : FindProbe) : Prop extends p.Passed L bi key b where
  within : p.probeCount < min maxProbeLen b.cellCount

/-- The slots that the lookup has still to look at in a cell: that of the key is among them,
and the words of the others are not those of the key. -/
structure Scans (L : SlotLayout K V H E) (key : K) (b : Bucket F H E) (cell : Nat)
    (m : CellMeta F) (slots : List Nat) : Prop where
  listed : ∀ i value, (b.cells cell).Holds L i key value → i ∈ slots
  words : ∀ i ∈ slots, (∃ value, (b.cells cell).Holds L i key value) ∨
    Foreign L key ((b.cells cell).slots i)
  full : m.full = true → (b.cells cell).Full
  here : m.full = false → ∀ value, b.Binds L key value → b.Located L key cell

/-- What a lookup has found out about a key whose binding is `value?`. -/
def FindCall.Sound (L : SlotLayout K V H E) (bi : Nat) (key : K) (value? : Option V)
    (arrays : Nat → Bucket F H E) : FindCall F H E → Prop
  | .idle | .calling | .addressed _ => True
  | .probing p => p.Passed L bi key (arrays p.array)
  | .tagged p tags => p.AtCell L bi key (arrays p.array) ∧
      ∀ i value, (p.cell arrays).Holds L i key value → tags i = (L.keyHash key).h2
  | .scanning p m slots => p.AtCell L bi key (arrays p.array) ∧
      Scans L key (arrays p.array) p.probe.cellIndex m slots
  | .comparing p m i slots => p.AtCell L bi key (arrays p.array) ∧
      ((∃ value, (p.cell arrays).Holds L i key value) ∨
        Foreign L key ((p.cell arrays).slots i) ∧
          (∃ slot, Foreign L key slot ∧ slot.h1 = (L.keyHash key).h1) ∧
            Scans L key (arrays p.array) p.probe.cellIndex m slots)
  | .matched p _ i => p.AtCell L bi key (arrays p.array) ∧
      ∃ value, (p.cell arrays).Holds L i key value
  | .copying p _ i h1 => p.AtCell L bi key (arrays p.array) ∧ h1 = (L.keyHash key).h1 ∧
      ∃ value, (p.cell arrays).Holds L i key value
  | .copied p _ i record => p.AtCell L bi key (arrays p.array) ∧
      ∃ value, (p.cell arrays).Holds L i key value ∧ record = L.slotOf key value
  | .returned result => result = value?.map (L.slotOf key)

/-! ## The writers of other keys -/

section Spares

variable {b b' : Bucket F H E} {p : FindProbe}

namespace Bucket.Spares

theorem count (spares : b.Spares L b' key) : b'.cellCount = b.cellCount :=
  congrArg (2 ^ ·) spares.grows.shift

theorem located_iff (spares : b.Spares L b' key) {c : Nat} (inside : c < b.cellCount) :
    b'.Located L key c ↔ b.Located L key c :=
  exists_congr fun i => exists_congr fun value => spares.holds c inside i value

theorem binds_iff (spares : b.Spares L b' key) {value : V} :
    b'.Binds L key value ↔ b.Binds L key value := by
  unfold Binds
  rw [spares.count]
  exact exists_congr fun c => and_congr_right fun inside =>
    exists_congr fun i => spares.holds c inside i value

end Bucket.Spares

theorem FindProbe.Passed.spares (passed : p.Passed L bi key b) (spares : b.Spares L b' key) :
    p.Passed L bi key b' where
  onPath := passed.onPath.congr spares.grows.shift
  cleared d less := by
    have inside : pathCell L b key d < b.cellCount := Nat.mod_lt _ b.cellCount_pos
    have same : pathCell L b' key d = pathCell L b key d := by
      rw [pathCell, pathCell, spares.count]
    obtain ⟨full, absent⟩ := passed.cleared d less
    rw [same, spares.located_iff inside]
    exact ⟨spares.grows.full _ inside full, absent⟩

theorem FindProbe.AtCell.inside (atCell : p.AtCell L bi key b) :
    p.probe.cellIndex < b.cellCount := by
  rw [atCell.onPath.cellIndex atCell.within]
  exact Nat.mod_lt _ b.cellCount_pos

theorem FindProbe.AtCell.spares (atCell : p.AtCell L bi key b) (spares : b.Spares L b' key) :
    p.AtCell L bi key b' where
  toPassed := atCell.toPassed.spares spares
  within := spares.count.symm ▸ atCell.within

theorem Scans.spares {cell : Nat} {m : CellMeta F} {slots : List Nat}
    (scans : Scans L key b cell m slots) (inside : cell < b.cellCount)
    (spares : b.Spares L b' key) : Scans L key b' cell m slots where
  listed i value held := scans.listed i value ((spares.holds cell inside i value).mp held)
  words i mem := by
    refine (scans.words i mem).imp ?_ (spares.foreign cell i)
    exact fun ⟨value, held⟩ => ⟨value, (spares.holds cell inside i value).mpr held⟩
  full full := spares.grows.full cell inside (scans.full full)
  here notFull value bound :=
    (spares.located_iff inside).mpr (scans.here notFull value (spares.binds_iff.mp bound))

theorem FindCall.Sound.spares {value? : Option V} {arrays arrays' : Nat → Bucket F H E}
    {call : FindCall F H E} (sound : call.Sound L bi key value? arrays)
    (spares : ∀ array, call.array = some array → (arrays array).Spares L (arrays' array) key) :
    call.Sound L bi key value? arrays' := by
  cases call with
  | idle | calling | addressed | returned => exact sound
  | probing p => exact FindProbe.Passed.spares sound (spares _ rfl)
  | tagged p tags =>
    obtain ⟨atCell, tagged⟩ := sound
    have spares := spares _ rfl
    exact ⟨atCell.spares spares,
      fun i value held => tagged i value ((spares.holds _ atCell.inside i value).mp held)⟩
  | scanning p m slots =>
    obtain ⟨atCell, scans⟩ := sound
    have spares := spares _ rfl
    exact ⟨atCell.spares spares, scans.spares atCell.inside spares⟩
  | comparing p m i slots =>
    obtain ⟨atCell, holds | ⟨foreign, seen, scans⟩⟩ := sound
    all_goals have spares := spares _ rfl
    · obtain ⟨value, held⟩ := holds
      exact ⟨atCell.spares spares,
        Or.inl ⟨value, (spares.holds _ atCell.inside i value).mpr held⟩⟩
    · exact ⟨atCell.spares spares, Or.inr ⟨spares.foreign _ i foreign, seen,
        scans.spares atCell.inside spares⟩⟩
  | matched p m i =>
    obtain ⟨atCell, value, held⟩ := sound
    have spares := spares _ rfl
    exact ⟨atCell.spares spares, value, (spares.holds _ atCell.inside i value).mpr held⟩
  | copying p m i h1 =>
    obtain ⟨atCell, same, value, held⟩ := sound
    have spares := spares _ rfl
    exact ⟨atCell.spares spares, same, value, (spares.holds _ atCell.inside i value).mpr held⟩
  | copied p m i record =>
    obtain ⟨atCell, value, held, same⟩ := sound
    have spares := spares _ rfl
    exact ⟨atCell.spares spares, value, (spares.holds _ atCell.inside i value).mpr held, same⟩

end Spares

/-! ## The loads -/

theorem SlotLayout.slotKeyEqual_slotOf (L : SlotLayout K V H E) (key : K) (value : V) :
    L.slotKeyEqual key (L.slotOf key value) = true :=
  (L.slotKeyEqual_store key key value rfl).mpr rfl

theorem SlotLayout.TellsApart.not_foreign (tells : L.TellsApart) {value : V} :
    ¬ Foreign L key (L.slotOf key value) := fun foreign => by
  have equal := L.slotKeyEqual_slotOf key value
  rw [tells key _ _ foreign foreign (L.slotOf_h1 key value)] at equal
  cases equal

section Read

variable {b : Bucket F H E} {p : FindProbe} {value? : Option V}

/-- Nothing is left to probe. -/
theorem FindProbe.Passed.unbound (passed : p.Passed L bi key b) (placed : b.Placed L)
    (done : ¬ p.probeCount < min maxProbeLen b.cellCount) (value : V) :
    ¬ b.Binds L key value := by
  intro bound
  obtain ⟨d, less, located⟩ := placed.exists_located bound
  exact (passed.cleared d (by omega)).2 located

/-- Past one more cell. -/
theorem FindProbe.AtCell.next (atCell : p.AtCell L bi key b)
    (full : (b.cells p.probe.cellIndex).Full) (absent : ¬ b.Located L key p.probe.cellIndex) :
    p.next.Passed L bi key b where
  onPath := atCell.onPath.next
  cleared d less := by
    rcases Nat.lt_or_eq_of_le (Nat.le_of_lt_succ less) with before | rfl
    · exact atCell.cleared d before
    · rw [atCell.onPath.cellIndex atCell.within] at full absent
      exact ⟨full, absent⟩

/-- The tags of the cell. -/
theorem tag_of_holds (placed : b.Placed L) {c i : Nat} (inside : c < b.cellCount) {value : V}
    (held : (b.cells c).Holds L i key value) : (b.cells c).tags i = (L.keyHash key).h2 := by
  obtain ⟨key', value', stored, tag⟩ := (placed.wf c inside).stored i held.1
  obtain ⟨rfl, -⟩ := L.slotOf_inj (held.2.symm.trans stored)
  exact tag

/-- The version word of the cell, behind tags that show the slot of the key. -/
theorem FindProbe.AtCell.scans (atCell : p.AtCell L bi key b) (placed : b.Placed L)
    {tags : Nat → UInt8} (tagged : ∀ i value,
      (b.cells p.probe.cellIndex).Holds L i key value → tags i = (L.keyHash key).h2) :
    let m : CellMeta F := ⟨tags, (b.cells p.probe.cellIndex).loadVersion⟩
    Scans L key b p.probe.cellIndex m (m.matchBitSet (L.keyHash key).h2).toList := by
  have wf := placed.wf _ atCell.inside
  have listed : ∀ i, i ∈ ((⟨tags, (b.cells p.probe.cellIndex).loadVersion⟩ :
      CellMeta F).matchBitSet (L.keyHash key).h2).toList ↔
        (b.cells p.probe.cellIndex).live i = true ∧ tags i = (L.keyHash key).h2 := by
    intro i
    rw [BitSet.mem_toList, CellMeta.getLsbD_matchBitSet (by exact wf.loadMeta_wf)]
    change (b.cells p.probe.cellIndex).loadVersion.live i = true ∧ _ ↔ _
    rw [wf.loadVersion_eq]
    rfl
  constructor
  case listed => exact fun i value held => (listed i).mpr ⟨held.1, tagged i value held⟩
  case words =>
    intro i mem
    have alive := ((listed i).mp mem).1
    obtain ⟨key', value, stored, -⟩ := wf.stored i alive
    by_cases same : key' = key
    · exact Or.inl ⟨value, alive, same ▸ stored⟩
    · exact Or.inr (stored ▸ .of_slotOf same)
  case full => exact fun full => full
  case here =>
    intro notFull value bound
    obtain ⟨d, less, located⟩ := placed.exists_located bound
    rw [atCell.onPath.cellIndex atCell.within] at notFull ⊢
    rcases Nat.lt_trichotomy d p.probeCount with before | rfl | behind
    · exact absurd located (atCell.cleared d before).2
    · exact located
    · have full := placed.full_before less located behind
      exact absurd (notFull.symm.trans full) Bool.false_ne_true

/-- A slot that does not hold the key is done with. -/
theorem Scans.tail {cell i : Nat} {m : CellMeta F} {slots : List Nat}
    (scans : Scans L key b cell m (i :: slots))
    (other : ∀ value, ¬ (b.cells cell).Holds L i key value) : Scans L key b cell m slots where
  listed j value held := by
    rcases List.mem_cons.mp (scans.listed j value held) with rfl | mem
    · exact absurd held (other value)
    · exact mem
  words j mem := scans.words j (by simp [mem])
  full := scans.full
  here := scans.here

theorem Scans.not_located {cell : Nat} {m : CellMeta F} (scans : Scans L key b cell m []) :
    ¬ b.Located L key cell := by
  rintro ⟨i, value, held⟩
  exact List.not_mem_nil (scans.listed i value held)

variable [DecidableEq H] {arrays : Nat → Bucket F H E} {current : Nat}
  {call call' : FindCall F H E}

/-- Each load keeps what the lookup knows of its key. -/
theorem FindCall.Sound.read (sound : call.Sound L bi key value? arrays) (tells : L.TellsApart)
    (placed : ∀ array, call.array = some array → (arrays array).Placed L)
    (binds : ∀ array, call.array = some array → ∀ value,
      (arrays array).Binds L key value ↔ value? = some value)
    (same : ∀ array, call = .addressed array →
      (arrays current).path L key = (arrays array).path L key)
    (read : call.read L key bi current arrays = some call') :
    call'.Sound L bi key value? arrays := by
  have unbound : ∀ array, call.array = some array →
      (∀ value, ¬ (arrays array).Binds L key value) → value? = none := by
    intro array here unbound
    cases bound : value? with
    | none => rfl
    | some value => exact absurd ((binds array here value).mpr bound) (unbound value)
  cases call with
  | idle | returned => cases read
  | calling =>
    cases read
    trivial
  | addressed array =>
    cases read
    exact ⟨.start (same array rfl), fun _ less => absurd less (Nat.not_lt_zero _)⟩
  | probing p =>
    have here : FindProbe.Passed L bi key (arrays p.array) p := sound
    rw [FindCall.read] at read
    split at read
    case isTrue valid =>
      cases read
      have atCell : p.AtCell L bi key (arrays p.array) := ⟨here, here.onPath.within_iff.mp valid⟩
      exact ⟨atCell, fun i value held => tag_of_holds (placed _ rfl) atCell.inside held⟩
    case isFalse past =>
      cases read
      rw [here.onPath.within_iff] at past
      have none_bound := unbound _ rfl (here.unbound (placed _ rfl) past)
      exact none_bound ▸ rfl
  | tagged p tags =>
    obtain ⟨atCell, tagged⟩ := sound
    cases read
    exact ⟨atCell, atCell.scans (placed _ rfl) tagged⟩
  | scanning p m slots =>
    obtain ⟨atCell, scans⟩ := sound
    cases slots with
    | nil =>
      rw [FindCall.read] at read
      cases read
      split
      case isTrue full => exact atCell.next (scans.full full) scans.not_located
      case isFalse notFull =>
        have none_bound := unbound _ rfl fun value bound =>
          scans.not_located (scans.here (by simpa using notFull) value bound)
        exact none_bound ▸ rfl
    | cons i slots =>
      rw [FindCall.read] at read
      cases read
      split
      case isTrue sameH1 =>
        rw [beq_iff_eq] at sameH1
        rcases scans.words i (by simp) with held | foreign
        · exact ⟨atCell, Or.inl held⟩
        · refine ⟨atCell, Or.inr ⟨foreign, ⟨_, foreign, sameH1⟩, scans.tail ?_⟩⟩
          exact fun value held => tells.not_foreign (held.2 ▸ foreign)
      case isFalse otherH1 =>
        refine ⟨atCell, scans.tail fun value held => otherH1 ?_⟩
        rw [beq_iff_eq, FindProbe.cell, held.2, L.slotOf_h1]
  | comparing p m i slots =>
    obtain ⟨atCell, kind⟩ := sound
    rw [FindCall.read] at read
    cases read
    rcases kind with ⟨value, held⟩ | ⟨foreign, ⟨slot, seen, sameH1⟩, scans⟩
    · rw [held.2, L.slotKeyEqual_slotOf, if_pos rfl]
      exact ⟨atCell, value, held⟩
    · rw [tells key slot _ seen foreign sameH1, if_neg Bool.false_ne_true]
      exact ⟨atCell, scans⟩
  | matched p m i =>
    obtain ⟨atCell, value, held⟩ := sound
    cases read
    exact ⟨atCell, held.2 ▸ L.slotOf_h1 key value, value, held⟩
  | copying p m i h1 =>
    obtain ⟨atCell, rfl, value, held⟩ := sound
    cases read
    refine ⟨atCell, value, held, ?_⟩
    rw [held.2, ← L.slotOf_h1 key value]
  | copied p m i record =>
    obtain ⟨atCell, value, held, rfl⟩ := sound
    rw [FindCall.read] at read
    cases read
    split
    case isTrue => exact atCell.toPassed
    case isFalse =>
      have bound := (binds _ rfl value).mp ⟨_, atCell.inside, i, held⟩
      rw [bound]
      rfl

end Read

/-! ## Runs -/

namespace FindRace

variable [DecidableEq H] {kCellCountLimit : Nat} {value? : Option V} {first : Nat}
  {s s' : FindRace F K V H E} {a : FindAction F K V H E}
  {earlier steps : List (FindRace F K V H E × FindAction F K V H E)}

/-- The arrays published since `first` bind the key alike, and the lookup is in one of them. -/
structure Answers (L : SlotLayout K V H E) (bi : Nat) (key : K) (value? : Option V) (first : Nat)
    (s : FindRace F K V H E) : Prop where
  sound : s.Sound L bi
  published : ∀ array, s.call.array = some array → first ≤ array ∧ array ≤ s.current
  binds : ∀ array, first ≤ array → array ≤ s.current → ∀ value,
    (s.arrays array).Binds L key value ↔ value? = some value
  call : s.call.Sound L bi key value? s.arrays
  first_le : first ≤ s.current

omit [DecidableEq H] in
theorem Answers.find (sound : s.Sound L bi)
    (binds : ∀ value, s.bucket.Binds L key value ↔ value? = some value) :
    s.find.Answers L bi key value? s.current where
  sound := ⟨sound.holder, sound.old⟩
  published := nofun
  binds array le le' := by
    obtain rfl : array = s.current := le_antisymm le' le
    exact binds
  call := trivial
  first_le := le_rfl

theorem Answers.read {call : FindCall F H E} (answers : s.Answers L bi key value? first)
    (tells : L.TellsApart) (same : s.SamePath L key .read)
    (read : s.call.read L key bi s.current s.arrays = some call) :
    Answers L bi key value? first { s with call } where
  sound := ⟨answers.sound.holder, answers.sound.old⟩
  published array here := by
    rcases (FindCall.moves_of_read read).array here with was | rfl
    · exact answers.published array was
    · exact ⟨answers.first_le, le_rfl⟩
  binds := answers.binds
  call := by
    refine answers.call.read tells ?_ ?_ ?_ read
    · exact fun array here => answers.sound.placed (answers.published array here).2
    · intro array here
      obtain ⟨le, le'⟩ := answers.published array here
      exact answers.binds array le le'
    · intro array here
      rw [SamePath, here] at same
      exact same
  first_le := answers.first_le

/-- The steps of the writers leave the lookup with what it knows. -/
theorem Answers.writer (answers : s.Answers L bi key value? first)
    (preserves : s.Preserves L a) (quiet : s.holder.key ≠ some key)
    (taken : s.next L kCellCountLimit bi key a = some s') (writer : a ≠ .read) :
    s'.Answers L bi key value? first := by
  obtain ⟨sound, evolves⟩ := answers.sound.step preserves taken
  obtain ⟨call, -, -⟩ := next_of_writer taken writer
  refine ⟨sound, ?_, ?_, ?_, answers.first_le.trans evolves.current_le⟩
  · intro array here
    obtain ⟨le, le'⟩ := answers.published array (call ▸ here)
    exact ⟨le, le'.trans evolves.current_le⟩
  · intro array le le' value
    rcases Nat.lt_or_ge s.current array with new | old
    · rw [evolves.fresh array new le' key value]
      exact answers.binds s.current answers.first_le le_rfl value
    · rw [(evolves.spares key quiet array old).binds_iff]
      exact answers.binds array le old value
  · rw [call]
    exact answers.call.spares fun array here =>
      evolves.spares key quiet array (answers.published array here).2

theorem Answers.step (answers : s.Answers L bi key value? first) (tells : L.TellsApart)
    (meets : s.SamePath L key a ∧ s.Preserves L a ∧ s.holder.key ≠ some key)
    (taken : s.next L kCellCountLimit bi key a = some s') : s'.Answers L bi key value? first := by
  obtain ⟨same, preserves, quiet⟩ := meets
  by_cases reads : a = .read
  · subst reads
    obtain ⟨call, read, rfl⟩ := Option.map_eq_some_iff.mp taken
    exact answers.read tells same read
  · exact answers.writer preserves quiet taken reads

/-- What a `Find` of `key` promises that runs from `s` to `s'`, behind the steps `earlier`. -/
structure Undisturbed (L : SlotLayout K V H E) (bi : Nat) (key : K)
    (earlier : List (FindRace F K V H E × FindAction F K V H E)) (s : FindRace F K V H E)
    (steps : List (FindRace F K V H E × FindAction F K V H E)) (s' : FindRace F K V H E) :
    Prop where
  inArray : ∀ q ∈ visited steps s', q.InArray
  /-- if the rehashes preserve the map and nobody writes the key meanwhile -/
  answer : (∀ p ∈ earlier ++ steps, p.1.Preserves L p.2) →
    (∀ p ∈ steps, p.1.holder.key ≠ some key) → ∀ result, s'.call = .returned result →
      (∀ value, s.bucket.Binds L key value ↔ result = some (L.slotOf key value)) ∧
      ∀ fuel alone, maxProbeLen < fuel →
        s.bucket.findSlot L key (L.keyHash key) fuel bi = .ok alone → result = alone

omit [DecidableEq H] in
theorem exists_binding {b : Bucket F H E} (placed : b.Placed L) (key : K) :
    ∃ value?, ∀ value, b.Binds L key value ↔ value? = some value := by
  by_cases bound : ∃ value, b.Binds L key value
  · obtain ⟨value, bound⟩ := bound
    refine ⟨some value, fun value' => ⟨fun now => ?_, fun same => ?_⟩⟩
    · rw [placed.binds_unique bound now]
    · cases same
      exact bound
  · exact ⟨none, fun value => ⟨fun now => absurd ⟨value, now⟩ bound, nofun⟩⟩

/-- A lookup alone returns the binding of its key, if it returns. -/
theorem findSlot_eq_of_ok {b : Bucket F H E} (placed : b.Placed L) {fuel : Nat}
    {alone : Option (HashSlot H E)} (enough : maxProbeLen < fuel)
    (binds : ∀ value, b.Binds L key value ↔ value? = some value)
    (ok : b.findSlot L key (L.keyHash key) fuel bi = .ok alone) :
    alone = value?.map (L.slotOf key) := by
  cases value? with
  | none =>
    have unbound : b.findSlot L key (L.keyHash key) fuel bi = .ok none :=
      Bucket.findSlot_of_unbound placed.wf enough fun x mem i value held => by
        cases (binds value).mp ⟨x, b.lt_of_mem_path mem, i, held⟩
    exact Except.ok.inj (ok.symm.trans unbound)
  | some value =>
    obtain ⟨c, inside, i, held⟩ := (binds value).mpr rfl
    rw [Bucket.findSlot_of_holds placed enough inside held] at ok
    split at ok <;> cases ok
    rfl

/-- A lookup stays in its array and returns what the key is bound to, where the size it reads
gives the key the path of the array it searches. -/
theorem find_undisturbed (tells : L.TellsApart) {b : Bucket F H E} (placed : b.Placed L)
    (before : Run (next L kCellCountLimit bi key) (start b) earlier s)
    (run : Run (next L kCellCountLimit bi key) s.find steps s')
    (same : ∀ p ∈ steps, p.1.SamePath L key p.2) : Undisturbed L bi key earlier s steps s' where
  inArray q mem := by
    have inside := run.forall_visited (I := Inside L bi key)
      (fun _ _ _ inside same taken => inside.step same taken) same (.find s) q mem
    exact inside.inArray
  answer preserves quiet result returned := by
    have sound : s.Sound L bi := before.invariant (I := FindRace.Sound L bi)
      (fun _ _ _ sound preserves taken => (sound.step preserves taken).1)
      (fun p mem => preserves p (by simp [mem])) (.start placed)
    obtain ⟨value?, binds⟩ := exists_binding sound.holder.placed key
    have answers := run.invariant (I := Answers L bi key value? s.current)
      (fun _ _ _ answers meets taken => answers.step tells meets taken)
      (fun p mem => ⟨same p mem, preserves p (by simp [mem]), quiet p mem⟩) (.find sound binds)
    have call := answers.call
    rw [returned] at call
    obtain rfl : result = value?.map (L.slotOf key) := call
    constructor
    · intro value
      rw [binds, Option.map_eq_some_iff]
      constructor
      · exact fun bound => ⟨value, bound, rfl⟩
      · rintro ⟨value', bound, same⟩
        rw [bound, (L.slotOf_inj same).2]
    · exact fun fuel alone enough ok =>
        (findSlot_eq_of_ok sound.holder.placed enough binds ok).symm

/-! ## Runs of the DRAM table -/

/-- A bucket of one cell, and nothing stored. -/
def oneCell : Bucket cellMeta128 UInt64 UInt64 := ⟨0, fun _ => Table.zeroCell dramLayout⟩

abbrev DramAction := FindAction cellMeta128 UInt64 UInt64 UInt64 UInt64

/-- A step of the race in a bucket of the DRAM table, with a lookup of key 1. -/
def dramNext (s : FindRace cellMeta128 UInt64 UInt64 UInt64 UInt64) (a : DramAction) :=
  s.next dramLayout kTurboCellCountLimit 0 1 a

/-- A `Put` with all its stores. -/
def putWhole (key value : UInt64) : List DramAction :=
  .put key value :: List.replicate 4 .store

/-- A rehash of the same size between the two loads of the bucket word, and one that doubles
the bucket before the first load of a cell. -/
def rehashTwice : List DramAction :=
  [.read, .rehash true oneCell.cells, .read] ++ putWhole 2 20 ++
    [.rehash false oneCell.cells] ++ List.replicate 7 .read

theorem placed_oneCell : oneCell.Placed dramLayout :=
  (Bucket.Placed.of_zero fun _ _ => rfl).1

theorem find_undisturbed_rehashTwice :
    ∃ earlier s steps s', Run dramNext (start oneCell) earlier s ∧ Run dramNext s.find steps s' ∧
      s'.current = 2 ∧ s'.call.result = some ⟨1, 10⟩ ∧
        Undisturbed dramLayout 0 1 earlier s steps s' := by
  have ran : ((execute dramNext (start oneCell) (putWhole 1 10)).bind fun s =>
      execute (guarded dramNext (SamePath dramLayout 1)) s.find rehashTwice).map
        (fun s => (s.current, s.call.result)) = some (2, some ⟨1, 10⟩) := by decide +kernel
  obtain ⟨s', executed, seen⟩ := Option.map_eq_some_iff.mp ran
  obtain ⟨current, result⟩ := Prod.mk.inj seen
  obtain ⟨s, stored, found⟩ := Option.bind_eq_some_iff.mp executed
  obtain ⟨earlier, before, -⟩ := exists_run_of_execute stored
  obtain ⟨steps, run, same⟩ := exists_run_of_guarded found
  exact ⟨earlier, s, steps, s', before, run, current, result,
    find_undisturbed (flatLayout_tellsApart _ _) placed_oneCell before run same⟩

/-- The bucket is doubled between the two loads of the bucket word. -/
def rehashBetween : List DramAction := [.read, .rehash false oneCell.cells, .read, .read]

/-- The lookup loads from cell 1 of an array of one cell. -/
theorem find_leaves_array :
    ∃ steps s', Run dramNext (start oneCell).find steps s' ∧
      (∃ p, s'.call.probed = some p ∧ p.probe.cellIndex = 1 ∧ (s'.arrays p.array).cellCount = 1) ∧
        ¬ Undisturbed dramLayout 0 1 [] (start oneCell) steps s' := by
  have ran : (execute dramNext (start oneCell).find rehashBetween).bind
      (fun s => s.call.probed.map fun p => (p.probe.cellIndex, (s.arrays p.array).cellCount)) =
        some (1, 1) := by decide +kernel
  obtain ⟨s', executed, seen⟩ := Option.bind_eq_some_iff.mp ran
  obtain ⟨p, probed, places⟩ := Option.map_eq_some_iff.mp seen
  obtain ⟨cell, count⟩ := Prod.mk.inj places
  obtain ⟨steps, run, -⟩ := exists_run_of_execute executed
  refine ⟨steps, s', run, ⟨p, probed, cell, count⟩, fun undisturbed => ?_⟩
  have inside := undisturbed.inArray s' (by simp [visited]) p probed
  rw [cell, count] at inside
  exact absurd inside (by decide)

end FindRace

end TurboHash
