import TurboHash.FindHolder

/-!
# The cells a lookup loads from

The bucket word holds the address of the array and its size, and `findSlot` reads them with
two loads. Between the two a rehash may publish a larger array, and the lookup then walks the
array of the first load along the path of the second, out of its bounds. It stays inside
where the size it reads gives its key the path that the array has.
-/

namespace TurboHash

open Transition

variable {F : CellFormat} {K V H E : Type} {L : SlotLayout K V H E}

/-! ## The path of the lookup -/

theorem probePath_eq {hash : UInt64} {count count' : Nat}
    (same : probePath hash count = probePath hash count') :
    min maxProbeLen count = min maxProbeLen count' ∧
      ∀ d < min maxProbeLen count', (hash.toNat + d) % count = (hash.toNat + d) % count' := by
  have lengths : min maxProbeLen count = min maxProbeLen count' := by
    simpa [probePath] using congrArg List.length same
  refine ⟨lengths, fun d less => ?_⟩
  have entries := congrArg (fun path => path[d]?) same
  simpa [probePath, lengths, less] using entries

/-- The probe walks the path that the key has in the array. -/
def FindProbe.OnPath (L : SlotLayout K V H E) (bi : Nat) (key : K) (b : Bucket F H E)
    (p : FindProbe) : Prop :=
  ∃ shift, p.probe = probeAt (L.homeHash key) (2 ^ shift) bi p.probeCount ∧
    probePath (L.homeHash key) (2 ^ shift) = b.path L key

namespace FindProbe.OnPath

variable {bi : Nat} {key : K} {b b' : Bucket F H E} {p : FindProbe}

theorem cellIndex (onPath : p.OnPath L bi key b)
    (within : p.probeCount < min maxProbeLen b.cellCount) :
    p.probe.cellIndex = pathCell L b key p.probeCount := by
  obtain ⟨shift, aligned, same⟩ := onPath
  rw [aligned]
  exact (probePath_eq same).2 _ within

theorem within_iff (onPath : p.OnPath L bi key b) :
    (p.probe.valid && decide (p.probeCount < maxProbeLen)) = true ↔
      p.probeCount < min maxProbeLen b.cellCount := by
  obtain ⟨shift, aligned, same⟩ := onPath
  have positive := Nat.two_pow_pos shift
  have lengths := (probePath_eq same).1
  rw [aligned, probeAt_inside, ← lengths]
  omega

theorem next (onPath : p.OnPath L bi key b) : p.next.OnPath L bi key b := by
  obtain ⟨shift, aligned, same⟩ := onPath
  refine ⟨shift, ?_, same⟩
  rw [FindProbe.next, aligned, next_probeAt]

theorem congr (onPath : p.OnPath L bi key b) (same : b'.cellCountShift = b.cellCountShift) :
    p.OnPath L bi key b' := by
  obtain ⟨shift, aligned, path⟩ := onPath
  refine ⟨shift, aligned, path.trans ?_⟩
  rw [Bucket.path, Bucket.path, Bucket.cellCount, Bucket.cellCount, same]

/-- The lookup has read the size that goes with its array. -/
theorem start {array : Nat} (same : b'.path L key = b.path L key) :
    FindProbe.OnPath L bi key b
      ⟨array, .start (L.homeHash key) b'.cellCountMask bi, 0⟩ :=
  ⟨b'.cellCountShift, start_eq_probeAt _ _ _, same⟩

end FindProbe.OnPath

/-! ## Inside the array -/

namespace FindCall

/-- The probe of a call. -/
def probe (call : FindCall F H E) : Option FindProbe :=
  match call with
  | probing p => some p
  | call => call.probed

/-- The array a call works on. -/
def array (call : FindCall F H E) : Option Nat :=
  match call with
  | addressed array => some array
  | call => call.probe.map FindProbe.array

variable {call call' : FindCall F H E}

theorem probe_of_probed {p : FindProbe} (probed : call.probed = some p) :
    call.probe = some p := by
  cases call <;> first | exact probed | cases probed

theorem array_of_probe {p : FindProbe} (probe : call.probe = some p) :
    call.array = some p.array := by
  cases call <;> first | exact congrArg (Option.map FindProbe.array) probe | cases probe

theorem array_of_probed {p : FindProbe} (probed : call.probed = some p) :
    call.array = some p.array :=
  array_of_probe (probe_of_probed probed)

variable [DecidableEq H] {key : K} {bi current : Nat} {arrays : Nat → Bucket F H E}

/-- How a load moves the probe of a lookup. -/
inductive Moves (L : SlotLayout K V H E) (key : K) (bi current : Nat)
    (arrays : Nat → Bucket F H E) : FindCall F H E → FindCall F H E → Prop
  | address : Moves L key bi current arrays .calling (.addressed current)
  | size (array : Nat) : Moves L key bi current arrays (.addressed array)
      (.probing ⟨array, .start (L.homeHash key) (arrays current).cellCountMask bi, 0⟩)
  | enter {p : FindProbe} (valid : (p.probe.valid && decide (p.probeCount < maxProbeLen)) = true) :
      Moves L key bi current arrays (.probing p) (.tagged p (p.cell arrays).tags)
  | stay {p : FindProbe} {call call' : FindCall F H E} (was : call.probed = some p)
      (now : call'.probed = some p) : Moves L key bi current arrays call call'
  | retry {p : FindProbe} {call : FindCall F H E} (was : call.probed = some p) :
      Moves L key bi current arrays call (.probing p)
  | leave {p : FindProbe} {call : FindCall F H E} (was : call.probed = some p) :
      Moves L key bi current arrays call (.probing p.next)
  | stop {call : FindCall F H E} (result : Option (HashSlot H E)) :
      Moves L key bi current arrays call (.returned result)

theorem moves_of_read (read : call.read L key bi current arrays = some call') :
    Moves L key bi current arrays call call' := by
  cases call with
  | idle | returned => cases read
  | calling =>
    cases read
    exact .address
  | addressed array =>
    cases read
    exact .size array
  | probing p =>
    rw [FindCall.read] at read
    split at read
    case isTrue valid =>
      cases read
      exact .enter valid
    case isFalse =>
      cases read
      exact .stop none
  | tagged p tags | matched p m i | copying p m i h1 =>
    cases read
    exact .stay rfl rfl
  | scanning p m slots =>
    cases slots with
    | nil =>
      rw [FindCall.read] at read
      cases read
      split
      case isTrue => exact .leave rfl
      case isFalse => exact .stop none
    | cons i slots =>
      rw [FindCall.read] at read
      cases read
      split <;> exact .stay rfl rfl
  | comparing p m i slots =>
    rw [FindCall.read] at read
    cases read
    split <;> exact .stay rfl rfl
  | copied p m i record =>
    rw [FindCall.read] at read
    cases read
    split
    case isTrue => exact .retry rfl
    case isFalse => exact .stop _

omit [DecidableEq H] in
/-- The lookup stays in its array. -/
theorem Moves.array {array : Nat} (moves : Moves L key bi current arrays call call')
    (here : call'.array = some array) : call.array = some array ∨ array = current := by
  cases moves with
  | address =>
    cases here
    exact Or.inr rfl
  | size =>
    cases here
    exact Or.inl rfl
  | enter =>
    cases here
    exact Or.inl rfl
  | stay was now =>
    cases (array_of_probed now).symm.trans here
    exact Or.inl (array_of_probed was)
  | retry was | leave was =>
    cases here
    have same := array_of_probed was
    exact Or.inl same
  | stop => cases here

end FindCall

namespace FindRace

variable {kCellCountLimit bi : Nat} {key : K} {s s' : FindRace F K V H E}
  {a : FindAction F K V H E}

/-- The cells that the lookup has loaded from lie in the array it searches. -/
def InArray (s : FindRace F K V H E) : Prop :=
  ∀ p, s.call.probed = some p → p.probe.cellIndex < (s.arrays p.array).cellCount

/-- Where the step is the load of the size: the key has the path in the current array that it
has in the array of the address. -/
def SamePath (L : SlotLayout K V H E) (key : K) (s : FindRace F K V H E) :
    FindAction F K V H E → Prop
  | .read =>
    match s.call with
    | .addressed array => s.bucket.path L key = (s.arrays array).path L key
    | _ => True
  | _ => True

instance (L : SlotLayout K V H E) (key : K) (s : FindRace F K V H E) :
    ∀ a, Decidable (s.SamePath L key a)
  | .read => by
    unfold SamePath
    dsimp only
    split <;> infer_instance
  | .put _ _ | .delete _ | .store | .rehash _ _ => isTrue trivial

/-- The invariant of the lookup's way. -/
structure Inside (L : SlotLayout K V H E) (bi : Nat) (key : K) (s : FindRace F K V H E) :
    Prop where
  published : ∀ array, s.call.array = some array → array ≤ s.current
  onPath : ∀ p, s.call.probe = some p → p.OnPath L bi key (s.arrays p.array)
  within : ∀ p, s.call.probed = some p →
    p.probeCount < min maxProbeLen (s.arrays p.array).cellCount

theorem Inside.inArray (inside : s.Inside L bi key) : s.InArray := by
  intro p probed
  rw [(inside.onPath p (FindCall.probe_of_probed probed)).cellIndex (inside.within p probed)]
  exact Nat.mod_lt _ (Bucket.cellCount_pos _)

/-- The probe at a cell that has still to be loaded. -/
theorem Inside.at_probing {p : FindProbe} (published : p.array ≤ s.current)
    (onPath : p.OnPath L bi key (s.arrays p.array)) :
    Inside L bi key { s with call := .probing p } where
  published array same := by
    cases same
    exact published
  onPath p' same := by
    cases same
    exact onPath
  within := nofun

/-- The probe at a cell that the lookup loads from. -/
theorem Inside.at_cell {p : FindProbe} {call : FindCall F H E} (probed : call.probed = some p)
    (published : p.array ≤ s.current) (onPath : p.OnPath L bi key (s.arrays p.array))
    (within : p.probeCount < min maxProbeLen (s.arrays p.array).cellCount) :
    Inside L bi key { s with call } where
  published array same := by
    cases (FindCall.array_of_probed probed).symm.trans same
    exact published
  onPath p' same := by
    cases (FindCall.probe_of_probed probed).symm.trans same
    exact onPath
  within p' same := by
    cases probed.symm.trans same
    exact within

variable [DecidableEq H]

theorem Inside.read {call : FindCall F H E} (inside : s.Inside L bi key)
    (same : s.SamePath L key .read)
    (read : s.call.read L key bi s.current s.arrays = some call) :
    Inside L bi key { s with call } := by
  have published : ∀ p, s.call.probed = some p → p.array ≤ s.current :=
    fun p probed => inside.published _ (FindCall.array_of_probed probed)
  have onPath : ∀ p, s.call.probed = some p → p.OnPath L bi key (s.arrays p.array) :=
    fun p probed => inside.onPath p (FindCall.probe_of_probed probed)
  generalize old : s.call = was at read
  cases FindCall.moves_of_read read with
  | address =>
    refine ⟨fun array same => ?_, nofun, nofun⟩
    cases same
    exact le_rfl
  | size array =>
    rw [SamePath, old] at same
    exact .at_probing (inside.published array (by rw [old]; rfl)) (.start same)
  | @enter p valid =>
    have here := inside.onPath p (by rw [old]; rfl)
    exact .at_cell rfl (inside.published _ (by rw [old]; rfl)) here (here.within_iff.mp valid)
  | @stay p _ _ probed now =>
    rw [← old] at probed
    exact .at_cell now (published p probed) (onPath p probed) (inside.within p probed)
  | @retry p _ probed =>
    rw [← old] at probed
    exact .at_probing (published p probed) (onPath p probed)
  | @leave p _ probed =>
    rw [← old] at probed
    exact .at_probing (p := p.next) (published p probed) (onPath p probed).next
  | stop result => exact ⟨nofun, nofun, nofun⟩

omit [DecidableEq H] in
theorem shift_of_store {b b' : Bucket F H E} {holder holder' : Holder K V H}
    (step : holder.store L b = some (b', holder')) : b'.cellCountShift = b.cellCountShift := by
  cases holder with
  | free => cases step
  | putting | deleting =>
    cases step
    rfl

omit [DecidableEq H] in
theorem shift_of_rehash {isgc : Bool} {memory : Nat → Cell F H E}
    (taken : s.rehash L kCellCountLimit bi isgc memory = some s') :
    s'.call = s.call ∧ s.current ≤ s'.current ∧
      ∀ array ≤ s.current, (s'.arrays array).cellCountShift = (s.arrays array).cellCountShift := by
  rw [FindRace.rehash] at taken
  split at taken
  case isTrue => cases taken
  case isFalse =>
    split at taken <;> cases taken
    refine ⟨rfl, Nat.le_succ _, fun array le => ?_⟩
    have before : array ≠ s.current + 1 := by omega
    simp [before]

/-- The writers touch neither the lookup nor the size of an array. -/
theorem next_of_writer (taken : s.next L kCellCountLimit bi key a = some s') (writer : a ≠ .read) :
    s'.call = s.call ∧ s.current ≤ s'.current ∧
      ∀ array ≤ s.current, (s'.arrays array).cellCountShift = (s.arrays array).cellCountShift := by
  cases a with
  | read => exact absurd rfl writer
  | store =>
    obtain ⟨⟨b, holder⟩, stored, rfl⟩ := Option.map_eq_some_iff.mp taken
    refine ⟨rfl, le_rfl, fun array _ => ?_⟩
    by_cases here : array = s.current
    · subst here
      simpa [setBucket, FindRace.bucket] using shift_of_store stored
    · simp [setBucket, here]
  | put key' value =>
    simp only [next] at taken
    split at taken
    case h_1 =>
      rw [FindRace.put] at taken
      split at taken
      case h_1 =>
        split at taken <;> cases taken
        exact ⟨rfl, le_rfl, fun _ _ => rfl⟩
      case h_2 => cases taken
    case h_2 => cases taken
  | delete key' =>
    simp only [next] at taken
    split at taken
    case h_1 =>
      rw [FindRace.delete] at taken
      split at taken <;> cases taken
      all_goals exact ⟨rfl, le_rfl, fun _ _ => rfl⟩
    case h_2 => cases taken
  | rehash isgc memory =>
    simp only [next] at taken
    split at taken
    case h_1 => exact shift_of_rehash taken
    case h_2 => cases taken

omit [DecidableEq H] in
/-- No array changes its size. -/
theorem Inside.congr (inside : s.Inside L bi key) (call : s'.call = s.call)
    (current_le : s.current ≤ s'.current) (shift : ∀ array ≤ s.current,
      (s'.arrays array).cellCountShift = (s.arrays array).cellCountShift) :
    s'.Inside L bi key := by
  have published : ∀ array, s'.call.array = some array → array ≤ s.current :=
    fun array same => inside.published array (call ▸ same)
  constructor
  case published => exact fun array same => (published array same).trans current_le
  case onPath =>
    intro p probe
    have known := published _ (FindCall.array_of_probe probe)
    rw [call] at probe
    exact (inside.onPath p probe).congr (shift _ known)
  case within =>
    intro p probed
    have known := published _ (FindCall.array_of_probed probed)
    rw [call] at probed
    rw [Bucket.cellCount, shift _ known]
    exact inside.within p probed

theorem Inside.writer (inside : s.Inside L bi key)
    (taken : s.next L kCellCountLimit bi key a = some s') (writer : a ≠ .read) :
    s'.Inside L bi key := by
  obtain ⟨call, current_le, shift⟩ := next_of_writer taken writer
  exact inside.congr call current_le shift

theorem Inside.step (inside : s.Inside L bi key) (same : s.SamePath L key a)
    (taken : s.next L kCellCountLimit bi key a = some s') : s'.Inside L bi key := by
  by_cases reads : a = .read
  · subst reads
    obtain ⟨call, read, rfl⟩ := Option.map_eq_some_iff.mp taken
    exact inside.read same read
  · exact inside.writer taken reads

omit [DecidableEq H] in
theorem Inside.find (s : FindRace F K V H E) : s.find.Inside L bi key :=
  ⟨nofun, nofun, nofun⟩

end FindRace

end TurboHash
