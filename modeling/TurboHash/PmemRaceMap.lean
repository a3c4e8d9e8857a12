import TurboHash.PmemRaceSound
import TurboHash.PmemRecord

/-!
# Durable linearizability

Whatever the interleaving and whenever the crash, `Recover` finds the map of the operations that have
ended and of those in progress whose publishing store has survived.
-/

namespace TurboHash

section Stands

variable {F : CellFormat} {K V H E : Type} {L : SlotLayout K V H E} {b b' : Bucket F H E}
  {own : K → Prop} {m m' : K → Option V}

/-- The bucket holds what `m` has for the keys of the bucket. -/
structure Bucket.Stands (L : SlotLayout K V H E) (b : Bucket F H E) (own : K → Prop)
    (m : K → Option V) : Prop where
  placed : b.Placed L
  binds : ∀ key value, b.Binds L key value ↔ own key ∧ m key = some value

namespace Bucket.Stands

theorem congr (stands : b.Stands L own m) (same : ∀ key, own key → m' key = m key) :
    b.Stands L own m' where
  placed := stands.placed
  binds key value := by
    rw [stands.binds]
    exact and_congr_right fun mem => by rw [same key mem]

theorem agrees (stands : b.Stands L own m) (agrees : b'.Agrees b) : b'.Stands L own m where
  placed := agrees.placed stands.placed
  binds key value := agrees.binds_iff.trans (stands.binds key value)

theorem replace (stands : b.Stands L own m) (placed : b'.Placed L)
    (binds : ∀ key value, b'.Binds L key value ↔ b.Binds L key value) : b'.Stands L own m :=
  ⟨placed, fun key value => (binds key value).trans (stands.binds key value)⟩

theorem update [DecidableEq K] (stands : b.Stands L own m) {key : K} (mem : own key)
    (placed : b'.Placed L) (value? : Option V)
    (binds : ∀ key' value', b'.Binds L key' value' ↔
      key' = key ∧ value? = some value' ∨ key' ≠ key ∧ b.Binds L key' value') :
    b'.Stands L own (Function.update m key value?) where
  placed := placed
  binds key' value' := by
    rw [binds, stands.binds, Function.update_apply]
    by_cases eq : key' = key
    · subst eq
      simp [mem]
    · simp [eq]

end Bucket.Stands

/-- A table of such buckets. -/
theorem Table.Refines.of_stands {t : Table F H E}
    (each : ∀ i < t.bucketCount, (t.buckets i).Stands L (fun key => t.bucketOf L key = i) m) :
    t.Refines L m where
  valid := ⟨fun i inside => (each i inside).placed,
    fun i inside key value bound => (((each i inside).binds key value).mp bound).1⟩
  binds key value := by
    rw [Table.Binds, (each _ (t.bucketOf_lt L key)).binds]
    exact and_iff_right rfl

theorem Table.Refines.stands {t : Table F H E} (refines : t.Refines L m) {i : Nat}
    (inside : i < t.bucketCount) : (t.buckets i).Stands L (fun key => t.bucketOf L key = i) m where
  placed := refines.valid.placed i inside
  binds key value := by
    rw [← refines.binds]
    constructor
    · intro bound
      have home := refines.valid.home i inside key value bound
      exact ⟨home, by rwa [Table.Binds, home]⟩
    · rintro ⟨rfl, bound⟩
      exact bound

end Stands

namespace Pmem

open LineMemory

variable {K V H E : Type} {S : Setup K V H E}

namespace PmemRace

/-- The keys of bucket `i`. -/
def Own (s : PmemRace S) (i : Nat) (key : K) : Prop := s.view.bucketOf S.layout key = i

section Refined

variable [DecidableEq K] {s s' : PmemRace S} {i p : Nat} {w : Writing S}

/-- The buckets stand for the maps before and behind the operations in progress. -/
structure Refined (s : PmemRace S) : Prop where
  before : ∀ i < s.bucketCount, (s.before i).Stands S.layout (s.Own i) s.map
  after : ∀ i w, s.writing i = some w → w.bucket.Stands S.layout (s.Own i) (w.apply s.map)
  effect : ∀ i w, s.writing i = some w → ∀ key value?, w.effect = some (key, value?) → s.Own i key

/-- An operation changes the map at the key of its effect alone. -/
theorem apply_eq {map : K → Option V} {key : K}
    (other : ∀ key' value?, w.effect = some (key', value?) → key ≠ key') :
    w.apply map key = map key := by
  unfold Writing.apply
  cases effect : w.effect with
  | none => rfl
  | some pair => exact Function.update_of_ne (other pair.1 pair.2 effect) ..

theorem apply_congr {map map' : K → Option V} {key : K} (same : map' key = map key) :
    w.apply map' key = w.apply map key := by
  unfold Writing.apply
  cases w.effect with
  | none => exact same
  | some pair =>
    dsimp only
    rw [Function.update_apply, Function.update_apply, same]

theorem Refined.apply_other (refined : s.Refined) (now : s.writing p = some w) {key : K}
    (own : s.Own i key) (other : i ≠ p) : w.apply s.map key = s.map key := by
  refine apply_eq fun key' value? effect same => other ?_
  subst same
  exact own.symm.trans (refined.effect p w now key value? effect)

/-- Any choice of the operations in progress. -/
theorem Refined.stands (refined : s.Refined) (applied : Nat → Bool) (less : i < s.bucketCount) :
    ((s.tableWith applied).buckets i).Stands S.layout (s.Own i) (s.mapWith applied) := by
  cases now : s.writing i with
  | none =>
    simp only [tableWith, now]
    refine (refined.before i less).congr fun key own => ?_
    simp only [mapWith, show s.view.bucketOf S.layout key = i from own, now]
  | some w =>
    simp only [tableWith, now]
    split
    case isTrue isApplied =>
      refine (refined.after i w now).congr fun key own => ?_
      simp only [mapWith, show s.view.bucketOf S.layout key = i from own, now, if_pos isApplied]
    case isFalse notApplied =>
      refine (refined.before i less).congr fun key own => ?_
      simp only [mapWith, show s.view.bucketOf S.layout key = i from own, now, if_neg notApplied]

theorem Refined.refines (refined : s.Refined) (applied : Nat → Bool) :
    (s.tableWith applied).Refines S.layout (s.mapWith applied) :=
  .of_stands fun _ less => refined.stands applied less

/-! ### Steps -/

omit [DecidableEq K] in
/-- The home of a key stays. -/
theorem own_eq (count : s'.bucketCountShift = s.bucketCountShift) : s'.Own i = s.Own i := by
  funext key
  have same : s'.view.bucketOf S.layout key = s.view.bucketOf S.layout key := by
    rw [Table.bucketOf, Table.bucketOf, Table.bucketIndex_eq, Table.bucketIndex_eq]
    exact congrArg (_ % 2 ^ ·) count
  rw [Own, Own, same]

/-- A step on one bucket. -/
theorem Refined.of_bucket (refined : s.Refined) (count : s'.bucketCountShift = s.bucketCountShift)
    (elsewhere : ∀ i ≠ p, s'.before i = s.before i ∧ s'.writing i = s.writing i)
    (map : ∀ i ≠ p, ∀ key, s.Own i key → s'.map key = s.map key)
    (before : p < s.bucketCount → (s'.before p).Stands S.layout (s.Own p) s'.map)
    (after : ∀ w, s'.writing p = some w → w.bucket.Stands S.layout (s.Own p) (w.apply s'.map))
    (effect : ∀ w, s'.writing p = some w → ∀ key value?, w.effect = some (key, value?) →
      s.Own p key) : s'.Refined := by
  have counts : s'.bucketCount = s.bucketCount := congrArg (2 ^ ·) count
  constructor
  · rw [counts]
    intro i less
    rw [own_eq count]
    by_cases eq : i = p
    · subst eq
      exact before less
    · rw [(elsewhere i eq).1]
      exact (refined.before i less).congr (map i eq)
  · intro i w now
    rw [own_eq count]
    by_cases eq : i = p
    · subst eq
      exact after w now
    · rw [(elsewhere i eq).2] at now
      exact (refined.after i w now).congr fun key own => apply_congr (map i eq key own)
  · intro i w now
    rw [own_eq count]
    by_cases eq : i = p
    · subst eq
      exact effect w now
    · rw [(elsewhere i eq).2] at now
      exact refined.effect i w now

theorem Refined.advance (refined : s.Refined) (step : s.advance p = some s') : s'.Refined := by
  obtain ⟨w, e, rest, now, -, ⟨-, rfl⟩ | ⟨-, rfl⟩⟩ := advance_cases step
  · -- the map takes the effect of the operation
    refine refined.of_bucket rfl (fun i other => ⟨Function.update_of_ne other ..,
      Function.update_of_ne other ..⟩) (fun i other key own => refined.apply_other now own other)
      (fun _ => ?_) (fun u ended => ?_) (fun u ended => ?_)
    · dsimp only
      rw [Function.update_self]
      exact refined.after p w now
    all_goals
      dsimp only at ended
      rw [Function.update_self] at ended
      cases ended
  · have running : ∀ u, Function.update s.writing p (some { w with todo := rest }) p = some u →
        u = { w with todo := rest } := by
      intro u eq
      rw [Function.update_self] at eq
      exact (Option.some.inj eq).symm
    refine refined.of_bucket rfl (fun i other => ⟨rfl, Function.update_of_ne other ..⟩)
      (fun _ _ _ _ => rfl) (refined.before p) (fun u eq => ?_) (fun u eq => ?_)
    · rw [running u eq]
      exact refined.after p w now
    · rw [running u eq]
      exact refined.effect p w now

/-- What an operation finds in its bucket. -/
theorem Refined.viewed (refined : s.Refined) (settled : s.Settled p) (less : p < s.bucketCount) :
    (s.view.buckets p).Stands S.layout (s.Own p) s.map :=
  (refined.before p less).agrees settled.viewed.1

/-- An operation begins. -/
theorem Refined.begin (refined : s.Refined) (settled : s.Settled p)
    (after : w.bucket.Stands S.layout (s.Own p) (w.apply s.map))
    (effect : ∀ key value?, w.effect = some (key, value?) → s.Own p key) : (s.begin p w).Refined := by
  have running : ∀ u, (s.begin p w).writing p = some u → u = w := by
    intro u eq
    rw [begin_writing] at eq
    exact (Option.some.inj eq).symm
  refine refined.of_bucket rfl (fun i other => ⟨Function.update_of_ne other ..,
    Function.update_of_ne other ..⟩) (fun _ _ _ _ => rfl) (fun less => ?_) (fun u eq => ?_)
    (fun u eq => ?_)
  · rw [begin_before]
    exact refined.viewed settled less
  · rw [running u eq]
    exact after
  · rw [running u eq]
    exact effect

theorem Refined.beginPut [DecidableEq H] (refined : s.Refined) (sound : s.Sound) {key : K}
    {value : V} {addr : Nat} (step : s.beginPut key value addr = some s') : s'.Refined := by
  obtain ⟨free, res, search, found, rfl⟩ := beginPut_cases step
  have less : s.view.bucketOf S.layout key < s.bucketCount := s.view.bucketOf_lt _ _
  have settled := sound.idle _ less free
  have stands := refined.viewed settled less
  have answer := Bucket.findSlotForInsert_answer stands.placed.wf (Nat.lt_succ_self _) search
  obtain ⟨placed, binds⟩ := stands.placed.commit answer found value
  have bucket : (s.putting key value addr res.targetSlot).bucket =
      (s.view.buckets (s.view.bucketOf S.layout key)).setCell res.targetSlot.cell
        (insertToSlotAndGC S.layout (S.layout.keyToHash key) key value
          ((s.view.buckets (s.view.bucketOf S.layout key)).cells res.targetSlot.cell)
            res.targetSlot).1 := Function.update_self ..
  have begun : (s.begin (s.view.bucketOf S.layout key)
      (s.putting key value addr res.targetSlot)).Refined := by
    refine refined.begin settled ?_ fun key' value? effect => ?_
    · rw [bucket]
      refine stands.update rfl placed (some value) fun key' value' => ?_
      rw [binds, Option.some.injEq, eq_comm (a := value)]
    · cases effect
      rfl
  exact ⟨begun.before, begun.after, begun.effect⟩

theorem Refined.beginDelete [DecidableEq H] (refined : s.Refined) (sound : s.Sound) {key : K}
    {c j : Nat} (step : s.beginDelete key c j = some s') : s'.Refined := by
  obtain ⟨free, inside, occupied, equal, rfl⟩ := beginDelete_cases step
  have less : s.view.bucketOf S.layout key < s.bucketCount := s.view.bucketOf_lt _ _
  have settled := sound.idle _ less free
  have stands := refined.viewed settled less
  have wf := stands.placed.wf c inside
  have bucket : (s.deleting key c j).bucket =
      (s.view.buckets (s.view.bucketOf S.layout key)).erase c j := by
    rw [Bucket.erase, ← deleteCommit_eq wf]
    rfl
  have placed := stands.placed.erase inside occupied
  cases alive : ((s.view.buckets (s.view.bucketOf S.layout key)).cells c).live j with
  | false =>
    have effect : (s.deleting key c j).effect = none := by
      rw [deleting, alive]
      rfl
    refine refined.begin settled ?_ fun key' value? some => ?_
    · rw [bucket, Writing.apply, effect]
      exact stands.replace placed fun key' value' =>
        Bucket.binds_erase_of_dead inside (BitVec.lt_of_getLsbD occupied) alive
    · rw [effect] at some
      cases some
  | true =>
    -- the slot has the key
    obtain ⟨key', value, stored, -⟩ := wf.stored j alive
    rw [stored, S.layout.match_slotOf] at equal
    subst equal
    have effect : (s.deleting key c j).effect = some (key, none) := by
      rw [deleting, alive]
      rfl
    refine refined.begin settled ?_ fun key' value? some => ?_
    · rw [bucket, Writing.apply, effect]
      refine stands.update rfl placed none fun key' value' => ?_
      simpa using Bucket.binds_erase stands.placed inside ⟨alive, stored⟩
    · rw [effect] at some
      cases some
      rfl

theorem Refined.beginRehash (refined : s.Refined) (sound : s.Sound) {bi region : Nat} {isgc : Bool}
    (near : s.Near (.rehash bi isgc region)) (step : s.beginRehash bi isgc region = some s') :
    s'.Refined := by
  obtain ⟨free, less, -, -, new, n, second, built, -, rfl⟩ := beginRehash_cases step
  have settled := sound.idle bi less free
  have stands := refined.viewed settled less
  obtain ⟨placed, binds⟩ := Setup.placed_rehashed built stands.placed near
  exact refined.begin settled (stands.replace placed binds) nofun

theorem Refined.reboot (refined : s.Refined) (sound : s.Sound) {keep : Addr → Nat}
    (step : s.reboot keep = some s') : s'.Refined := by
  obtain ⟨buckets', found, each⟩ := sound.recovers keep
  unfold PmemRace.reboot at step
  rw [found, Option.map_some, Option.some_inj] at step
  subst step
  refine ⟨fun i less => ?_, nofun, nofun⟩
  exact (refined.stands (s.survived keep) less).agrees (each i less).2.1

theorem Refined.next [DecidableEq H] (refined : s.Refined) (sound : s.Sound) {a : PmemAction K V}
    (near : s.Near a) (step : s.next a = some s') : s'.Refined := by
  cases a with
  | put key value addr => exact refined.beginPut sound step
  | delete key c i => exact refined.beginDelete sound step
  | rehash bi isgc region => exact refined.beginRehash sound near step
  | step bi => exact refined.advance step
  | crash keep => exact refined.reboot sound step

end Refined

/-! ## The initial state -/

theorem initTable_cases {bucketCount cellCount : UInt32} {machine : Machine S}
    (fresh : S.initTable bucketCount cellCount = some machine) :
    machine.todo = [] ∧ machine.after = ⟨machine.view, fun _ => none⟩ := by
  unfold Setup.initTable at fresh
  split at fresh
  case isTrue =>
    cases fresh
    exact ⟨rfl, rfl⟩
  case isFalse => cases fresh

/-- An empty table in persistent memory. -/
theorem Sound.start {machine : Machine S}
    (holds : S.Holds (Surely (lineOf S.metaWord) machine.memory) machine.buckets_ machine.view)
    (empty : machine.view.Refines S.layout fun _ => none) : (PmemRace.start machine).Sound := by
  have own : ∀ i r, r ∈ (PmemRace.start machine).regions i → r = (machine.buckets_ i).address := by
    intro i r mem
    simpa [regions, PmemRace.start] using mem
  refine ⟨fun i less j less' r mem mem' => ?_, fun i w now => ?_, fun i less _ => ?_,
    fun i w now => ?_⟩
  · exact holds.apart i less j less' ((own i r mem).symm.trans (own j r mem'))
  · cases now
  · have dead : ∀ c < (machine.view.buckets i).cellCount, ∀ j,
        ¬ ((machine.view.buckets i).cells c).live j = true := by
      intro c inside j alive
      obtain ⟨key, value, -, bound⟩ := empty.represents.bound ⟨i, c, j⟩ ⟨less, inside, alive⟩
      cases bound
    have settled := (holds.bucketHolds less).restrict (A := (PmemRace.start machine).Mine i)
      (fun _ => ⟨rfl, rfl, rfl⟩) (fun _ => List.mem_cons_self)
      (fun c inside j alive => absurd alive (dead c inside j))
      fun c inside j alive => absurd alive (dead c inside j)
    exact Setup.BucketHolds.monotone (fun l v held => ⟨held.2, held.1⟩) settled
  · cases now

theorem Refined.start {machine : Machine S} (empty : machine.view.Refines S.layout fun _ => none)
    [DecidableEq K] : (PmemRace.start machine).Refined :=
  ⟨fun _ less => empty.stands less, nofun, nofun⟩

/-! ## Runs -/

section Runs

variable [DecidableEq K] [DecidableEq H] {s : PmemRace S} {machine : Machine S}
  {steps : List (PmemRace S × PmemAction K V)}

/-- Threads that run `Put`, `Delete` and `MinorRehash` on a table that `Initialize` has left, with
flushes that reach what they publish: a crash at any moment leaves every bucket as it was before the
operation in progress, or behind it if its publishing store has survived, and the map of the operations
that have ended or have survived, as long as the rehashes keep the map. -/
theorem threads_crash_atomic {bucketCount cellCount : UInt32}
    (fresh : S.initTable bucketCount cellCount = some machine)
    (small : cellCount.toNat * cellMeta256V2.cellSize < 2 ^ 31)
    (lastOnLine : S.LastOnLine bucketCount.toNat)
    (run : Transition.Run PmemRace.next (PmemRace.start machine) steps s)
    (promised : ∀ p ∈ steps, p.1.Promised p.2) (meets : ∀ p ∈ steps, p.1.Meets p.2)
    (keep : Addr → Nat) :
    s.Recovers keep fun t => (∀ i < t.bucketCount, (t.buckets i).WellFormed S.layout) ∧
      t.Agrees (s.tableWith (s.survived keep)) ∧
      ((∀ p ∈ steps, p.1.Near p.2) → t.Refines S.layout (s.mapWith (s.survived keep))) := by
  obtain ⟨initial, -, refines⟩ := Machine.Sound.initTable fresh small lastOnLine
  obtain ⟨finished, after⟩ := initTable_cases fresh
  have idle := initial.idle (by simp [finished])
  rw [after] at refines
  have holds := idle.holds
  rw [after] at holds
  have sound : s.Sound := run.invariant (I := Sound) (G := fun s a => s.Promised a ∧ s.Meets a)
    (fun _ _ _ sound good taken => sound.next good.1 good.2 taken)
    (fun p mem => ⟨promised p mem, meets p mem⟩) (.start holds refines)
  obtain ⟨buckets', found, each⟩ := sound.recovers keep
  have agrees : (S.table (s.image keep) s.bucketCountShift buckets').Agrees
      (s.tableWith (s.survived keep)) := ⟨rfl, fun i less => (each i less).2.1⟩
  refine ⟨buckets', found, fun i less => ?_, agrees, fun near => ?_⟩
  · exact (each i less).2.1.wf (each i less).2.2.wf
  · have refined := run.invariant (I := fun s => s.Sound ∧ s.Refined)
      (G := fun s a => s.Promised a ∧ s.Meets a ∧ s.Near a)
      (fun _ _ _ before good taken => ⟨before.1.next good.1 good.2.1 taken,
        before.2.next before.1 good.2.2 taken⟩)
      (fun p mem => ⟨promised p mem, meets p mem, near p mem⟩)
      ⟨.start holds refines, .start refines⟩
    exact agrees.refines (refined.2.refines _)

end Runs

/-- Two threads whose records share a line, a rehash that a crash cuts short, and a put and a rehash
that have both stored what publishes them. -/
def putsAndRehashes : List (PmemAction UInt64 (List UInt8)) :=
  [.put 7 [5] 128, .put 8 [6] 145] ++ (List.replicate 24 [.step 0, .step 1]).flatten ++
    [.step 0, .step 0, .rehash 0 true 9, .step 0, .step 1, .step 0, .crash fun _ => 1,
      .rehash 1 false 10, .put 11 [9] 192] ++
    (List.replicate 8 [.step 0, .step 0, .step 0, .step 1]).flatten

theorem threads_crash_atomic_interleaved :
    ∃ (machine : Machine textSetup) (s : PmemRace textSetup)
        (steps : List (PmemRace textSetup × PmemAction UInt64 (List UInt8))),
      textSetup.initTable 2 2 = some machine ∧
        Transition.Run PmemRace.next (PmemRace.start machine) steps s ∧
        (s.map 7 = some [5] ∧ s.map 8 = some [6]) ∧
        (s.mapWith (s.survived fun _ => 0) 11 = none ∧
          s.mapWith (s.survived fun _ => 9) 11 = some [9]) ∧
        ∀ keep, s.Recovers keep fun t =>
          t.Refines textSetup.layout (s.mapWith (s.survived keep)) := by
  have ran : (textSetup.initTable 2 2).bind (fun machine =>
      (Transition.execute (Transition.guarded PmemRace.next fun s a =>
        s.Promised a ∧ s.Meets a ∧ s.Near a) (PmemRace.start machine) putsAndRehashes).map fun s =>
          ((s.map 7, s.map 8), s.mapWith (s.survived fun _ => 0) 11,
            s.mapWith (s.survived fun _ => 9) 11)) =
      some ((some [5], some [6]), none, some [9]) := by decide +kernel
  obtain ⟨machine, fresh, rest⟩ := Option.bind_eq_some_iff.mp ran
  obtain ⟨s, executed, result⟩ := Option.map_eq_some_iff.mp rest
  obtain ⟨durable, crashed⟩ := Prod.mk.inj result
  obtain ⟨steps, run, good⟩ := Transition.exists_run_of_guarded executed
  refine ⟨machine, s, steps, fresh, run, Prod.mk.inj durable, Prod.mk.inj crashed,
    fun keep => ?_⟩
  obtain ⟨buckets', found, -, -, refines⟩ := threads_crash_atomic fresh (by decide) rfl run
    (fun p mem => (good p mem).1) (fun p mem => (good p mem).2.1) keep
  exact ⟨buckets', found, refines fun p mem => (good p mem).2.2⟩

end PmemRace

end Pmem

end TurboHash
