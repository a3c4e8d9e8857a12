import TurboHash.FindRehash
import TurboHash.RecordSafe
import TurboHash.TableBindings

/-!
# The table as a map that threads share

In every interleaving of `Put`, `Find` and `Delete`, with the rehashes that the `Put`s run, the table
is an atomic map: an operation takes effect with the store of one version word, between its call and
its return, and a `Put` does so exactly once. What has to be asked of the steps is asked of those that
take a bucket lock (`TableRace.LocksOwn`).
-/

namespace TurboHash

open Simulation Transition

variable {F : CellFormat} {τ K V H E : Type} [DecidableEq τ] [DecidableEq K] [DecidableEq H]
  {L : SlotLayout K (Nat × V) H E} {kCellCountLimit bucketCountShift : Nat}

/-! ## The table and the atomic map -/

namespace TableRace

variable {s s' : TableRace F τ K V H E} {q : AtomicMap τ K V} {t : τ}

/-- The table holds the map, and the threads are as far as those of the map. -/
structure Follows (L : SlotLayout K (Nat × V) H E) (bucketCountShift : Nat)
    (s : TableRace F τ K V H E) (q : AtomicMap τ K V) : Prop where
  orderly : s.Orderly L bucketCountShift
  refines : s.Refines L bucketCountShift q.map
  serves : ∀ t, s.Serves L bucketCountShift t (q.pending t)

omit [DecidableEq τ] [DecidableEq K] in
theorem Orderly.start {buckets : Nat → Bucket F H E} (puts : Nat)
    (placed : ∀ bi < 2 ^ bucketCountShift, (buckets bi).Placed L) :
    (start buckets puts : TableRace F τ K V H E).Orderly L bucketCountShift :=
  ⟨.start buckets puts, fun bi inside => .start (placed bi inside),
    fun _ _ _ writing => (by cases writing)⟩

omit [DecidableEq τ] [DecidableEq K] in
theorem Follows.start {buckets : Nat → Bucket F H E} {puts : Nat} {m : K → Option V}
    (placed : ∀ bi < 2 ^ bucketCountShift, (buckets bi).Placed L)
    (refines : (start buckets puts : TableRace F τ K V H E).Refines L bucketCountShift m) :
    (start buckets puts : TableRace F τ K V H E).Follows L bucketCountShift (.start m) where
  orderly := .start puts placed
  refines := refines
  serves _ := rfl

theorem Follows.proceed {op? : Option (MapOp K V)} (follows : s.Follows L bucketCountShift q)
    (step : Proceeds L bucketCountShift t s op? s') :
    op?.elim (s'.Follows L bucketCountShift q) fun _ =>
      ∃ q', q.next (.commit t) = some q' ∧ s'.Follows L bucketCountShift q' := by
  have own := step.own _ (follows.serves t)
  have refines := step.refines _ follows.refines
  cases op? with
  | none =>
    refine ⟨step.orderly, refines, fun u => ?_⟩
    by_cases here : u = t
    · exact here ▸ own
    · exact step.serves u here _ (follows.serves u)
  | some op =>
    obtain ⟨pending, serves⟩ := own
    obtain ⟨m', effect, refines'⟩ := refines
    refine ⟨{ q.setPending t .committed with map := m' }, ?_, step.orderly, refines', fun u => ?_⟩
    · simp only [AtomicMap.next, pending, effect, Option.map_some]
    · by_cases here : u = t
      · subst here
        rw [AtomicMap.setPending_self]
        exact serves
      · rw [AtomicMap.setPending_of_ne here]
        exact step.serves u here _ (follows.serves u)

omit [DecidableEq K] in
/-- A thread calls an operation. -/
theorem Orderly.begin (orderly : s.Orderly L bucketCountShift) (idle : s.calls t = .idle)
    (op : MapOp K V) : (s.setCall t (.start op)).Orderly L bucketCountShift := by
  refine orderly.go (by rw [idle]; rfl) (by cases op <;> rfl) fun key c same => ?_
  cases op <;> cases same
  exact ⟨fun array here => (by cases here), fun here => (by cases here)⟩

omit [DecidableEq K] in
/-- A thread returns. -/
theorem Orderly.finish (orderly : s.Orderly L bucketCountShift)
    (ends : (∃ key call, s.calls t = .find key call) ∨ s.calls t = .done) :
    (s.setCall t .idle).Orderly L bucketCountShift := by
  refine orderly.go ?_ rfl (by simp)
  rcases ends with ⟨key, call, was⟩ | was <;> rw [was] <;> rfl

omit [DecidableEq K] in
theorem Follows.setCall {call : TableCall F K V H E} {pending : Pending K V}
    (follows : s.Follows L bucketCountShift q) (orderly : (s.setCall t call).Orderly L bucketCountShift)
    (serves : (s.setCall t call).Serves L bucketCountShift t pending) :
    (s.setCall t call).Follows L bucketCountShift (q.setPending t pending) where
  orderly := orderly
  refines := follows.refines
  serves u := by
    by_cases here : u = t
    · subst here
      rw [AtomicMap.setPending_self]
      exact serves
    · rw [AtomicMap.setPending_of_ne here]
      exact (follows.serves u).congr (setCall_of_ne here) fun _ _ _ => rfl

theorem Follows.begin (follows : s.Follows L bucketCountShift q) (idle : s.calls t = .idle)
    (op : MapOp K V) : ∃ q', q.next (.call t op) = some q' ∧
      (s.setCall t (.start op)).Follows L bucketCountShift q' := by
  have pending : q.pending t = .idle := by
    have serves := follows.serves t
    rwa [Serves, idle] at serves
  refine ⟨q.setPending t (.called op), by simp only [AtomicMap.next, pending],
    follows.setCall (follows.orderly.begin idle op) ?_⟩
  rw [Serves, setCall_self]
  cases op <;> rfl

theorem Follows.finish (follows : s.Follows L bucketCountShift q)
    (ends : (∃ key call, s.calls t = .find key call) ∨ s.calls t = .done) :
    ∃ q', q.next (.ret t) = some q' ∧ (s.setCall t .idle).Follows L bucketCountShift q' := by
  have serves := follows.serves t
  refine ⟨q.setPending t .idle, ?_, follows.setCall (follows.orderly.finish ends) ?_⟩
  · rw [Serves] at serves
    rcases ends with ⟨key, call, was⟩ | was
    · rw [was] at serves
      simp only [AtomicMap.next, serves]
    · rw [was] at serves
      rcases serves with committed | ⟨key, called⟩
      · simp only [AtomicMap.next, committed]
      · simp only [AtomicMap.next, called]
  · rw [Serves, setCall_self]

end TableRace

/-! ## The runs -/

namespace RecordRace

variable {isKeyFlat : Bool} {s s' : RecordRace F τ K V H E} {a : RecordAction F τ K V H E} {t : τ}

section Steps

variable (L : SlotLayout K (Nat × V) H E) (kCellCountLimit bucketCountShift : Nat)

/-- What a step does to the table. -/
inductive Moves (s : RecordRace F τ K V H E) :
    RecordAction F τ K V H E → TableRace F τ K V H E → Prop
  | begin {t : τ} {op : MapOp K V} (idle : s.table.calls t = .idle) :
    Moves s (.begin t op) (s.table.setCall t (.start op))
  | load {t : τ} {table : TableRace F τ K V H E}
    (taken : s.table.load L bucketCountShift t = some table) : Moves s (.load t) table
  | lock {t : τ} {memory : Nat → Cell F H E} {table : TableRace F τ K V H E}
    (taken : s.table.lock L kCellCountLimit bucketCountShift t memory = some table) :
    Moves s (.lock t memory) table
  | store {t : τ} {table : TableRace F τ K V H E}
    (taken : s.table.store L bucketCountShift t = some table) : Moves s (.store t) table
  | mark {t : τ} {node : Node} {table : TableRace F τ K V H E}
    (taken : s.table.mark L bucketCountShift t = some (node, table)) : Moves s (.mark t) table
  | unlock {t : τ} {table : TableRace F τ K V H E}
    (taken : s.table.unlock L bucketCountShift t = some table) : Moves s (.unlock t) table
  | finish {t : τ}
    (ends : (∃ key call, s.table.calls t = .find key call) ∨ s.table.calls t = .done) :
    Moves s (.finish t) (s.table.setCall t .idle)
  | add {t : τ} : Moves s (.add t) s.table
  | protocol {a : EpocheAction τ Node} : Moves s (.protocol a) s.table

/-- What a step shows of the atomic map: the call, the effect, the return. -/
def shows (s : RecordRace F τ K V H E) : RecordAction F τ K V H E → Option (AtomicAction τ K V)
  | .begin t op => some (.call t op)
  | .store t => (s.table.commits L bucketCountShift t).map fun _ => .commit t
  | .finish t => some (.ret t)
  | .load _ | .lock _ _ | .mark _ | .add _ | .unlock _ | .protocol _ => none

/-- A step that takes a bucket lock meets what is asked of it. -/
def LocksOwn (s : RecordRace F τ K V H E) : RecordAction F τ K V H E → Prop
  | .lock t _ => s.table.LocksOwn L bucketCountShift t
  | _ => True

instance (s : RecordRace F τ K V H E) : ∀ a, Decidable (s.LocksOwn L bucketCountShift a)
  | .lock t _ => inferInstanceAs (Decidable (s.table.LocksOwn L bucketCountShift t))
  | .begin _ _ | .load _ | .store _ | .mark _ | .add _ | .unlock _ | .finish _ | .protocol _ =>
    isTrue trivial

end Steps

omit [DecidableEq K] in
theorem moves_of_next (taken : s.next L kCellCountLimit bucketCountShift isKeyFlat a = some s') :
    s.Moves L kCellCountLimit bucketCountShift a s'.table := by
  cases a with
  | begin t op =>
    simp only [next] at taken
    split at taken
    case h_1 idle =>
      obtain ⟨epoche, -, rfl⟩ := Option.map_eq_some_iff.mp taken
      exact .begin idle
    case h_2 => cases taken
  | load t | lock t memory | store t | unlock t =>
    simp only [next] at taken
    split at taken
    case isFalse => cases taken
    case isTrue =>
      obtain ⟨table, moved, rfl⟩ := Option.map_eq_some_iff.mp taken
      first | exact .load moved | exact .lock moved | exact .store moved | exact .unlock moved
  | mark t =>
    obtain ⟨⟨node, table⟩, marks, rest⟩ := Option.bind_eq_some_iff.mp taken
    obtain ⟨epoche, -, rfl⟩ := Option.map_eq_some_iff.mp rest
    exact .mark marks
  | add t =>
    obtain ⟨epoche, -, rfl⟩ := Option.map_eq_some_iff.mp taken
    exact .add
  | finish t =>
    simp only [next] at taken
    split at taken
    case h_1 key result was =>
      obtain ⟨epoche, -, rfl⟩ := Option.map_eq_some_iff.mp taken
      exact .finish (Or.inl ⟨key, _, was⟩)
    case h_2 was =>
      obtain ⟨epoche, -, rfl⟩ := Option.map_eq_some_iff.mp taken
      exact .finish (Or.inr was)
    case h_3 => cases taken
  | protocol a =>
    simp only [next] at taken
    split at taken
    case isFalse => cases taken
    case isTrue =>
      obtain ⟨epoche, -, rfl⟩ := Option.map_eq_some_iff.mp taken
      exact .protocol

/-- Every step is one of the atomic map, or none that it shows. -/
theorem follows_of_next {q : AtomicMap τ K V} (follows : s.table.Follows L bucketCountShift q)
    (owns : s.LocksOwn L bucketCountShift a)
    (taken : s.next L kCellCountLimit bucketCountShift isKeyFlat a = some s') :
    (s.shows L bucketCountShift a).elim (s'.table.Follows L bucketCountShift q) fun b =>
      ∃ q', q.next b = some q' ∧ s'.table.Follows L bucketCountShift q' := by
  have moves := moves_of_next taken
  generalize s'.table = table at moves ⊢
  cases moves with
  | begin idle => exact follows.begin idle _
  | load loaded => exact follows.proceed (.load follows.orderly loaded)
  | lock locked => exact follows.proceed (.lockBucket follows.orderly owns locked)
  | @store t _ stored =>
    have step := follows.proceed (.store follows.orderly stored)
    rw [shows]
    generalize s.table.commits L bucketCountShift t = op? at step ⊢
    cases op? <;> exact step
  | mark marked => exact follows.proceed (.mark follows.orderly marked)
  | unlock unlocked => exact follows.proceed (.unlock follows.orderly unlocked)
  | finish ends => exact follows.finish ends
  | add | protocol => exact follows

/-- The run of an atomic map behind the steps of a table. -/
structure Linearizes (L : SlotLayout K (Nat × V) H E) (bucketCountShift : Nat) (m : K → Option V)
    (steps : List (RecordRace F τ K V H E × RecordAction F τ K V H E)) (s : RecordRace F τ K V H E)
    (atomic : List (AtomicMap τ K V × AtomicAction τ K V)) (q : AtomicMap τ K V) : Prop where
  run : Run AtomicMap.next (.start m) atomic q
  /-- the same calls and returns, and an effect with every version word of a slot -/
  visible : atomic.map Prod.snd = steps.filterMap fun p => p.1.shows L bucketCountShift p.2
  /-- the effects make the map, one after the other -/
  sequential : (atomic.filterMap fun p => p.1.commits p.2).foldlM MapOp.effect m = some q.map
  binds : ∀ key value, s.table.Binds L bucketCountShift key value ↔ q.map key = some value
  serves : ∀ t, s.table.Serves L bucketCountShift t (q.pending t)
  /-- a lookup by itself -/
  lookup : ∀ key fuel record, maxProbeLen < fuel →
    (let bi := TableRace.bucketOf L bucketCountShift key
     (s.table.buckets bi).bucket.findSlot L key (L.keyHash key) fuel bi = .ok record) →
    ∃ binding : Option (Nat × V), record = binding.map (L.slotOf key) ∧
      q.map key = binding.map Prod.snd

theorem linearizes {buckets : Nat → Bucket F H E} {puts startGCThreshhold : Nat} {m : K → Option V}
    (placed : ∀ bi < 2 ^ bucketCountShift, (buckets bi).Placed L)
    (binds : ∀ key value, (∃ n, (buckets (TableRace.bucketOf L bucketCountShift key)).Binds L key
      (n, value)) ↔ m key = some value)
    {steps : List (RecordRace F τ K V H E × RecordAction F τ K V H E)}
    (run : Run (next L kCellCountLimit bucketCountShift isKeyFlat)
      (.start buckets puts startGCThreshhold) steps s)
    (owns : ∀ p ∈ steps, p.1.LocksOwn L bucketCountShift p.2) :
    ∃ atomic q, Linearizes L bucketCountShift m steps s atomic q := by
  obtain ⟨atomic, q, atomicRun, visible, follows⟩ := run.simulate
    (G := fun s a => s.LocksOwn L bucketCountShift a)
    (R := fun s q => s.table.Follows L bucketCountShift q) (shows L bucketCountShift)
    (fun _ _ _ _ follows owns taken => follows_of_next follows owns taken) owns
    (.start placed binds)
  refine ⟨atomic, q, atomicRun, visible, AtomicMap.map_of_run atomicRun, follows.refines,
    follows.serves, fun key fuel record enough found => ?_⟩
  have sound := follows.orderly.buckets _ (TableRace.bucketOf_lt L bucketCountShift key)
  obtain ⟨binding, holds⟩ := FindRace.exists_binding sound.holder.placed key
  refine ⟨binding, FindRace.findSlot_eq_of_ok sound.holder.placed enough holds found, ?_⟩
  cases binding with
  | none =>
    refine Option.eq_none_iff_forall_ne_some.mpr fun value bound => ?_
    obtain ⟨n, bound⟩ := (follows.refines key value).mpr bound
    cases (holds _).mp bound
  | some binding => exact (follows.refines key binding.2).mp ⟨binding.1, (holds _).mpr rfl⟩

/-! ## A `Delete` across a rehash -/

/-- A `Delete` that has found a slot and is about to take the lock. -/
def searchSlot (t : Nat) (key : UInt64) : List TwoThreadsAction :=
  [.begin t (.delete key), .protocol (.storeEpoche t)] ++ List.replicate 5 (.load t)

/-- A `Put` that finds no room: it replaces the array and begins again. -/
def growWhole (t : Nat) (key : UInt64) : List TwoThreadsAction :=
  [.begin t (.put key 0), .protocol (.storeEpoche t), .lock t zeroedBucket.cells, .mark t, .add t,
    .unlock t, .lock t zeroedBucket.cells, .store t, .store t, .store t] ++ commitSlot t

/-- The `Delete` finds its array replaced, and the slot in the new one. -/
def deleteAgain (t : Nat) : List TwoThreadsAction :=
  [.lock t zeroedBucket.cells] ++ List.replicate 5 (.load t) ++
    [.lock t zeroedBucket.cells, .mark t, .add t] ++ commitSlot t

/-- A lookup that returns nothing. -/
def FindsNothing (s : RecordRace cellMeta128 Nat UInt64 Nat UInt64 (Option (UInt64 × Nat × Nat)))
    (key : UInt64) : Bool :=
  let bi := TableRace.bucketOf DeleteRace.recordLayout 1 key
  match (s.table.buckets bi).bucket.findSlot DeleteRace.recordLayout key
    (DeleteRace.recordLayout.keyHash key) 17 bi with
  | .ok none => true
  | _ => false

/-- Six keys fill a cell. Thread 1 has found the slot of one of them when thread 0 replaces the
array for a seventh, and deletes it from the new one. -/
theorem linearizes_rehashed : ∃ s steps atomic q,
    Run nextTwoThreads (.start (fun _ => zeroedBucket) 0 256) steps s ∧
      (s.table.buckets 0).current = 1 ∧ q.map 7 = none ∧
        Linearizes DeleteRace.recordLayout 1 (fun _ => none) steps s atomic q := by
  have ran : (execute (guarded nextTwoThreads fun s a => s.LocksOwn DeleteRace.recordLayout 1 a)
      (.start (fun _ => zeroedBucket) 0 256) (listBoth ++ [7, 0, 1, 2, 6, 11].flatMap (insertWhole 0) ++
        searchSlot 1 7 ++ growWhole 0 12 ++ deleteAgain 1)).map
        (fun s => ((s.table.buckets 0).current, FindsNothing s 7)) = some (1, true) := by
    decide +kernel
  obtain ⟨s, executed, facts⟩ := Option.map_eq_some_iff.mp ran
  obtain ⟨current, nothing⟩ := Prod.mk.inj facts
  obtain ⟨steps, run, owns⟩ := exists_run_of_guarded executed
  have zeroed := Bucket.Placed.of_zero (L := DeleteRace.recordLayout) (b := zeroedBucket) fun _ _ => rfl
  obtain ⟨atomic, q, linearizes⟩ := linearizes (m := fun _ => none) (fun _ _ => zeroed.1)
    (fun key value => iff_of_false (fun ⟨n, binds⟩ => zeroed.2 key (n, value) binds) (by simp)) run owns
  refine ⟨s, steps, atomic, q, run, current, ?_, linearizes⟩
  rw [FindsNothing] at nothing
  split at nothing
  case h_1 found =>
    obtain ⟨binding, none, same⟩ := linearizes.lookup 7 17 _ (by decide) found
    cases binding with
    | none => exact same
    | some binding => cases none
  case h_2 => cases nothing

end RecordRace

end TurboHash
