import TurboHash.FindPath

/-!
# A lookup among puts and deletes

The loads of `findSlot` and the stores under the bucket lock are those of `FindRace`. Here
`deleteSlot` is not under the lock from its start: it loads the tags, the version word and the
`H1` of the matching slots like a lookup, one by one, and takes the lock for a slot whose `H1`
matches, where it tests the sequence number and compares the key. Nobody rehashes.
-/

namespace TurboHash

open Transition

variable {F : CellFormat} {τ K V H E : Type}

/-- The bucket with the lookup and the holder of its lock, and the threads in `deleteSlot`, each
with its key and as far as it has come without the lock. -/
structure LookupRace (F : CellFormat) (τ K V H E : Type) where
  race : FindRace F K V H E
  deletes : τ → Option (K × FindCall F H E)

inductive LookupAction (τ K V : Type)
  /-- the next load of the lookup -/
  | read
  /-- a `Put` takes the lock and finds a slot -/
  | put (key : K) (value : V)
  /-- the next store of the holder of the lock -/
  | store
  /-- a `Delete` begins -/
  | call (t : τ) (key : K)
  /-- its next load -/
  | load (t : τ)
  /-- it takes the lock for a slot whose `H1` matches -/
  | lock (t : τ)
deriving DecidableEq

namespace LookupRace

/-- A bucket that nobody works on. -/
def start (b : Bucket F H E) : LookupRace F τ K V H E := ⟨.start b, fun _ => none⟩

/-- A `Find` begins. -/
def find (s : LookupRace F τ K V H E) : LookupRace F τ K V H E := { s with race := s.race.find }

/-- The bucket as the bucket word has it. -/
abbrev bucket (s : LookupRace F τ K V H E) : Bucket F H E := s.race.bucket

section Step

variable [DecidableEq τ] [DecidableEq H] (L : SlotLayout K V H E) (bi : Nat) (key : K)

def setDelete (s : LookupRace F τ K V H E) (t : τ) (delete : Option (K × FindCall F H E)) :
    LookupRace F τ K V H E :=
  { s with deletes := Function.update s.deletes t delete }

/-- The next load of `deleteSlot`; a search that has found nothing returns. -/
def load (s : LookupRace F τ K V H E) (t : τ) : Option (LookupRace F τ K V H E) :=
  match s.deletes t with
  | none | some (_, .comparing _ _ _ _) => none
  | some (key, call) =>
    (call.read L key bi s.race.current s.race.arrays).map fun
      | .returned _ => s.setDelete t none
      | call => s.setDelete t (some (key, call))

/-- The section of `deleteSlot` under the lock, up to its store. -/
def lock (s : LookupRace F τ K V H E) (t : τ) : Option (LookupRace F τ K V H E) :=
  match s.race.holder, s.deletes t with
  | .free, some (key, .comparing p m i slots) =>
    let c := p.cell s.race.arrays
    some (
      if seqAdvanced m.ver c.loadVersion then s.setDelete t (some (key, .probing p))
      else if L.slotKeyEqual key (c.slots i) then
        { s.setDelete t none with
          race := { s.race with holder := .deleting key p.probe.cellIndex i } }
      else s.setDelete t (some (key, .scanning p m slots)))
  | _, _ => none

def next (s : LookupRace F τ K V H E) : LookupAction τ K V → Option (LookupRace F τ K V H E)
  | .read => (s.race.next L 0 bi key .read).map fun race => { s with race }
  | .put key' value => (s.race.next L 0 bi key (.put key' value)).map fun race => { s with race }
  | .store => (s.race.next L 0 bi key .store).map fun race => { s with race }
  | .call t key' =>
    match s.deletes t with
    | none => some (s.setDelete t (some (key', .calling)))
    | some _ => none
  | .load t => s.load L bi t
  | .lock t => s.lock L t

end Step

/-! ## What a step does -/

/-- The action of `FindRace` behind a step. -/
def action : LookupAction τ K V → Option (FindAction F K V H E)
  | .read => some .read
  | .put key value => some (.put key value)
  | .store => some .store
  | .call _ _ | .load _ | .lock _ => none

/-- The `Delete` of thread `t` gets the lock and is about to commit. -/
structure Takes (L : SlotLayout K V H E) (s : LookupRace F τ K V H E) (t : τ) (key : K)
    (cell slot : Nat) : Prop where
  free : s.race.holder = .free
  chosen : ∃ p m slots, s.deletes t = some (key, .comparing p m slot slots) ∧
    cell = p.probe.cellIndex ∧ seqAdvanced m.ver (p.cell s.race.arrays).loadVersion = false ∧
    L.slotKeyEqual key ((p.cell s.race.arrays).slots slot) = true

section Steps

variable [DecidableEq τ] [DecidableEq H] {L : SlotLayout K V H E} {bi : Nat} {key : K}
  {s s' : LookupRace F τ K V H E} {a : LookupAction τ K V}

/-- A step is one of the bucket, the lookup and the lock; or a `Delete` goes on without the lock;
or a `Delete` takes the lock. -/
inductive Step (L : SlotLayout K V H E) (bi : Nat) (key : K) (s : LookupRace F τ K V H E) :
    LookupAction τ K V → LookupRace F τ K V H E → Prop
  | race {a : LookupAction τ K V} {a' : FindAction F K V H E} {race : FindRace F K V H E}
    (same : action a = some a') (taken : s.race.next L 0 bi key a' = some race) :
    Step L bi key s a { s with race }
  | begin (t : τ) (key' : K) : Step L bi key s (.call t key') (s.setDelete t (some (key', .calling)))
  | leave (t : τ) : Step L bi key s (.load t) (s.setDelete t none)
  | load {t : τ} {key' : K} {call call' : FindCall F H E} (was : s.deletes t = some (key', call))
    (read : call.read L key' bi s.race.current s.race.arrays = some call') :
    Step L bi key s (.load t) (s.setDelete t (some (key', call')))
  | retry {t : τ} {key' : K} {p : FindProbe} {call : FindCall F H E}
    (was : s.deletes t = some (key', call)) (probed : call.probed = some p) :
    Step L bi key s (.lock t) (s.setDelete t (some (key', .probing p)))
  | goOn {t : τ} {key' : K} {p : FindProbe} {m : CellMeta F} {slots : List Nat}
    {call : FindCall F H E} (was : s.deletes t = some (key', call)) (probed : call.probed = some p) :
    Step L bi key s (.lock t) (s.setDelete t (some (key', .scanning p m slots)))
  | take {t : τ} {key' : K} {cell slot : Nat} (takes : s.Takes L t key' cell slot) :
    Step L bi key s (.lock t)
      { s.setDelete t none with race := { s.race with holder := .deleting key' cell slot } }

theorem step_of_next (taken : s.next L bi key a = some s') : s.Step L bi key a s' := by
  cases a with
  | read | put _ _ | store =>
    obtain ⟨race, stepped, rfl⟩ := Option.map_eq_some_iff.mp taken
    exact .race rfl stepped
  | call t key' =>
    simp only [next] at taken
    split at taken <;> cases taken
    exact .begin t key'
  | load t =>
    simp only [next, load] at taken
    split at taken
    case h_1 | h_2 => cases taken
    case h_3 key' call _ was =>
      obtain ⟨call', read, same⟩ := Option.map_eq_some_iff.mp taken
      cases call' with
      | returned =>
        cases same
        exact .leave t
      | _ =>
        cases same
        exact .load was read
  | lock t =>
    simp only [next, lock] at taken
    split at taken
    case h_2 => cases taken
    case h_1 key' p m i slots free was =>
      cases taken
      split
      case isTrue => exact .retry was rfl
      case isFalse current =>
        split
        case isTrue equal =>
          exact .take ⟨free, p, m, slots, was, rfl, Bool.eq_false_iff.mpr current, equal⟩
        case isFalse => exact .goOn was rfl

end Steps

/-! ## What the writers do -/

/-- The stores under the lock, one constructor for each kind. -/
inductive Stores (L : SlotLayout K V H E) (b : Bucket F H E) :
    Holder K V H → Bucket F H E → Holder K V H → Prop
  /-- a word of the slot, or its tag -/
  | word {point point' : StorePoint} {key : K} {value : V} {target : SlotInfo H}
    (next : point.next = some point') :
    Stores L b (.putting point key value target)
      (b.setCell target.cell (point.store L key value target (b.cells target.cell)))
      (.putting point' key value target)
  /-- the version word of a `Put` -/
  | put {key : K} {value : V} {target : SlotInfo H} :
    Stores L b (.putting .version key value target)
      (b.setCell target.cell (StorePoint.version.store L key value target (b.cells target.cell)))
      .free
  /-- the version word of a `Delete` -/
  | delete {key : K} {cell slot : Nat} :
    Stores L b (.deleting key cell slot) (b.setCell cell (deleteCommit L (b.cells cell) slot).1)
      .free

theorem stores_of_store {L : SlotLayout K V H E} {b b' : Bucket F H E} {holder holder' : Holder K V H}
    (stored : holder.store L b = some (b', holder')) : Stores L b holder b' holder' := by
  cases holder with
  | free => cases stored
  | deleting key cell slot =>
    cases stored
    exact .delete
  | putting point key value target =>
    cases point with
    | version =>
      cases stored
      exact .put
    | h1 | entry | tag =>
      cases stored
      exact .word rfl

/-- The lock is held, and nothing stored yet. -/
def Begins : Holder K V H → Prop
  | .free => False
  | .putting point _ _ _ => point = .h1
  | .deleting _ _ _ => True

/-- What a step of a writer does to the bucket and the lock. -/
inductive Writes (L : SlotLayout K V H E) (r : FindRace F K V H E) :
    LookupAction τ K V → FindRace F K V H E → Prop
  | keep {a : LookupAction τ K V} : Writes L r a r
  | hold {a : LookupAction τ K V} {holder : Holder K V H} (free : r.holder = .free)
    (begins : Begins holder) : Writes L r a { r with holder }
  | store {b : Bucket F H E} {holder : Holder K V H} (stores : Stores L r.bucket r.holder b holder) :
    Writes L r .store { r.setBucket b with holder }

theorem Writes.call {L : SlotLayout K V H E} {r r' : FindRace F K V H E} {a : LookupAction τ K V}
    (writes : Writes L r a r') : r'.call = r.call := by
  cases writes <;> rfl

theorem read_or_writes [DecidableEq τ] [DecidableEq H] {L : SlotLayout K V H E} {bi : Nat} {key : K}
    {s s' : LookupRace F τ K V H E} {a : LookupAction τ K V} (taken : s.next L bi key a = some s') :
    (a = .read ∧ ∃ call, s.race.call.read L key bi s.race.current s.race.arrays = some call ∧
      s'.race = { s.race with call }) ∨ a ≠ .read ∧ Writes L s.race a s'.race := by
  cases step_of_next taken with
  | @race _ a' race same stepped =>
    cases a with
    | read =>
      cases same
      obtain ⟨call, read, rfl⟩ := Option.map_eq_some_iff.mp stepped
      exact Or.inl ⟨rfl, call, read, rfl⟩
    | put key' value =>
      cases same
      simp only [FindRace.next] at stepped
      split at stepped
      case h_1 free =>
        rw [FindRace.put] at stepped
        split at stepped
        case h_1 =>
          split at stepped <;> cases stepped
          exact Or.inr ⟨by simp, .hold free rfl⟩
        case h_2 => cases stepped
      case h_2 => cases stepped
    | store =>
      cases same
      obtain ⟨⟨b, holder⟩, stored, rfl⟩ := Option.map_eq_some_iff.mp stepped
      exact Or.inr ⟨by simp, .store (stores_of_store stored)⟩
    | call | load | lock => cases same
  | begin | leave | load | retry | goOn => exact Or.inr ⟨by simp, .keep⟩
  | take takes => exact Or.inr ⟨by simp, .hold takes.free trivial⟩

/-! ## What every step keeps -/

/-- A `Delete` that passes both tests under the lock has a slot that is still valid and still has
the `H1` of its key. -/
def DeletesOwnSlot [DecidableEq H] (L : SlotLayout K V H E) (s : LookupRace F τ K V H E) :
    LookupAction τ K V → Prop
  | .lock t =>
    match s.deletes t with
    | some (key, .comparing p m i _) =>
      let c := p.cell s.race.arrays
      seqAdvanced m.ver c.loadVersion = false → L.slotKeyEqual key (c.slots i) = true →
        c.ver.isPosValid i = true ∧ (c.slots i).h1 = (L.keyHash key).h1
    | _ => True
  | _ => True

instance [DecidableEq H] (L : SlotLayout K V H E) (s : LookupRace F τ K V H E) :
    ∀ a : LookupAction τ K V, Decidable (s.DeletesOwnSlot L a)
  | .lock t => by
    unfold DeletesOwnSlot
    dsimp only
    split <;> infer_instance
  | .read | .put _ _ | .store | .call _ _ | .load _ => isTrue trivial

/-- The one array keeps the placement invariant, and no search leaves it. -/
structure Sound (L : SlotLayout K V H E) (bi : Nat) (key : K) (s : LookupRace F τ K V H E) :
    Prop where
  current : s.race.current = 0
  race : s.race.Sound L bi
  inside : s.race.Inside L bi key
  deletes : ∀ t key' call, s.deletes t = some (key', call) →
    FindRace.Inside L bi key' { s.race with call }

section Kept

variable [DecidableEq τ] [DecidableEq H] {L : SlotLayout K V H E} {bi : Nat} {key : K}
  {s s' : LookupRace F τ K V H E} {a : LookupAction τ K V}

omit [DecidableEq H] in
/-- The way of a thread in `deleteSlot` is replaced. -/
theorem Sound.setDelete (sound : s.Sound L bi key) {t : τ} {delete : Option (K × FindCall F H E)}
    (inside : ∀ key' call, delete = some (key', call) →
      FindRace.Inside L bi key' { s.race with call }) :
    (s.setDelete t delete).Sound L bi key where
  current := sound.current
  race := sound.race
  inside := sound.inside
  deletes u key' call was := by
    by_cases here : u = t
    · subst here
      rw [LookupRace.setDelete] at was
      dsimp only at was
      rw [Function.update_self] at was
      exact inside key' call was
    · rw [LookupRace.setDelete] at was
      dsimp only at was
      rw [Function.update_of_ne here] at was
      exact sound.deletes u key' call was

omit [DecidableEq τ] [DecidableEq H] in
/-- There is only one array. -/
theorem Sound.samePath (sound : s.Sound L bi key) {key' : K} {call : FindCall F H E}
    (inside : FindRace.Inside L bi key' { s.race with call }) :
    FindRace.SamePath L key' { s.race with call } .read := by
  cases call with
  | addressed array =>
    have le : array ≤ s.race.current := inside.published array rfl
    have same : array = s.race.current := by
      rw [sound.current] at le ⊢
      exact Nat.le_zero.mp le
    subst same
    rfl
  | _ => trivial

omit [DecidableEq τ] [DecidableEq H] in
theorem Sound.array_eq (sound : s.Sound L bi key) {key' : K} {call : FindCall F H E}
    (inside : FindRace.Inside L bi key' { s.race with call }) {p : FindProbe}
    (probe : call.probe = some p) : p.array = s.race.current := by
  have le : p.array ≤ s.race.current := inside.published _ (FindCall.array_of_probe probe)
  rw [sound.current] at le ⊢
  exact Nat.le_zero.mp le

omit [DecidableEq τ] [DecidableEq H] in
/-- A search loads from the cells of the bucket. -/
theorem Sound.cells (sound : s.Sound L bi key) {key' : K} {call : FindCall F H E}
    (inside : FindRace.Inside L bi key' { s.race with call }) {p : FindProbe}
    (probed : call.probed = some p) :
    p.cell s.race.arrays = s.bucket.cells p.probe.cellIndex ∧
      p.probe.cellIndex < s.bucket.cellCount := by
  have array := sound.array_eq inside (FindCall.probe_of_probed probed)
  have within := inside.inArray p probed
  rw [array] at within
  refine ⟨?_, within⟩
  rw [FindProbe.cell, array]
  rfl

omit [DecidableEq τ] in
theorem current_of_action {a' : FindAction F K V H E} {race : FindRace F K V H E}
    (same : action a = some a') (taken : s.race.next L 0 bi key a' = some race) :
    race.current = s.race.current := by
  cases a with
  | read =>
    cases same
    obtain ⟨call, -, rfl⟩ := Option.map_eq_some_iff.mp taken
    rfl
  | store =>
    cases same
    obtain ⟨stored, -, rfl⟩ := Option.map_eq_some_iff.mp taken
    rfl
  | put key' value =>
    cases same
    simp only [FindRace.next] at taken
    split at taken
    case h_1 =>
      rw [FindRace.put] at taken
      split at taken
      case h_1 =>
        split at taken <;> cases taken
        rfl
      case h_2 => cases taken
    case h_2 => cases taken
  | call | load | lock => cases same

omit [DecidableEq τ] in
/-- Under the lock a `Delete` of its own slot is what the holder of the lock may do. -/
theorem Takes.sound {t : τ} {key' : K} {cell slot : Nat} (sound : s.Sound L bi key)
    (takes : s.Takes L t key' cell slot) (own : s.DeletesOwnSlot L (.lock t : LookupAction τ K V)) :
    (Holder.deleting key' cell slot : Holder K V H).Sound L bi s.bucket := by
  obtain ⟨p, m, slots, was, rfl, current, equal⟩ := takes.chosen
  have placed := sound.race.holder.placed
  have inside := sound.deletes t key' _ was
  obtain ⟨here, within⟩ := sound.cells inside (p := p) rfl
  rw [DeletesOwnSlot, was] at own
  obtain ⟨valid, sameH1⟩ := own current equal
  rw [here] at valid sameH1 equal
  rw [Version.isPosValid_eq_live] at valid
  obtain ⟨key'', value, stored, -⟩ := (placed.wf _ within).stored slot valid
  rw [stored] at sameH1 equal
  obtain rfl : key' = key'' := (L.match_slotOf key' key'' value).mp
    (Bool.and_eq_true_iff.mpr ⟨beq_iff_eq.mpr sameH1, equal⟩)
  exact ⟨placed, within, value, valid, stored⟩

theorem Sound.step (sound : s.Sound L bi key) (own : s.DeletesOwnSlot L a)
    (taken : s.next L bi key a = some s') :
    s'.Sound L bi key ∧ s.race.Evolves L s'.race := by
  cases step_of_next taken with
  | @race _ a' race same stepped =>
    have preserves : s.race.Preserves L a' := by
      cases a <;> cases same <;> trivial
    have path : s.race.SamePath L key a' := by
      cases a <;> cases same <;> first | trivial | exact sound.samePath sound.inside
    obtain ⟨arrays, evolves⟩ := sound.race.step preserves stepped
    have current := current_of_action same stepped
    refine ⟨⟨current.trans sound.current, arrays, sound.inside.step path stepped,
      fun t key' call was => ?_⟩, evolves⟩
    by_cases reads : a' = .read
    · subst reads
      obtain ⟨call', -, rfl⟩ := Option.map_eq_some_iff.mp stepped
      exact sound.deletes t key' call was
    · obtain ⟨-, current_le, shift⟩ := FindRace.next_of_writer stepped reads
      exact (sound.deletes t key' call was).congr rfl current_le shift
  | begin t key' =>
    refine ⟨sound.setDelete fun key'' call same => ?_, .of_arrays rfl rfl⟩
    cases same
    exact ⟨nofun, nofun, nofun⟩
  | leave t => exact ⟨sound.setDelete nofun, .of_arrays rfl rfl⟩
  | @load t key' call call' was read =>
    have inside := sound.deletes t key' call was
    refine ⟨sound.setDelete fun key'' call'' same => ?_, .of_arrays rfl rfl⟩
    cases same
    exact inside.read (sound.samePath inside) read
  | @retry t key' p call was probed =>
    have inside := sound.deletes t key' call was
    refine ⟨sound.setDelete fun key'' call'' same => ?_, .of_arrays rfl rfl⟩
    cases same
    exact .at_probing (inside.published _ (FindCall.array_of_probed probed))
      (inside.onPath p (FindCall.probe_of_probed probed))
  | @goOn t key' p m slots call was probed =>
    have inside := sound.deletes t key' call was
    refine ⟨sound.setDelete fun key'' call'' same => ?_, .of_arrays rfl rfl⟩
    cases same
    exact .at_cell rfl (inside.published _ (FindCall.array_of_probed probed))
      (inside.onPath p (FindCall.probe_of_probed probed)) (inside.within p probed)
  | @take t key' cell slot takes =>
    obtain ⟨arrays, evolves⟩ := sound.race.hold (takes.sound sound own)
    have kept : (s.setDelete t none).Sound L bi key := sound.setDelete nofun
    refine ⟨⟨sound.current, arrays, ?_, fun u key'' call was => ?_⟩, evolves⟩
    · exact sound.inside.congr rfl le_rfl fun _ _ => rfl
    · exact (kept.deletes u key'' call was).congr rfl le_rfl fun _ _ => rfl

end Kept

end LookupRace

end TurboHash
