import TurboHash.PmemRehash

/-!
# Crash atomicity of the persistent table

In every run of puts, deletes, rehashes and crashes whose flushes reach what they
publish, a crash at any moment leaves a table that agrees with the one before the
operation in progress or with the one after it, and that is the map of the operations
as long as the rehashes have kept the map.
-/

namespace TurboHash.Pmem

open LineMemory

variable {K V H E : Type} {S : Setup K V H E} [DecidableEq K] [DecidableEq H]

namespace Machine

variable {s s' s₀ : Machine S} {a : Action K V} {steps : List (Machine S × Action K V)}

omit [DecidableEq K] [DecidableEq H] in
theorem Sound.idle (sound : s.Sound) (empty : s.todo.isEmpty = true) : s.Idle := by
  rcases sound.phase with idle | ⟨m₀, prepare, done, r, c, version, run⟩
  · exact idle
  · exact absurd empty (by simpa using run.unfinished)

/-- Each action keeps the invariant. -/
theorem Sound.next (sound : s.Sound) (promised : s.Promised a) (meets : s.Meets a)
    (step : s.next a = some s') : s'.Sound := by
  cases a with
  | put key value addr =>
    rw [Machine.next] at step
    split at step
    case isTrue empty => exact (sound.idle empty).beginPut sound.after_count promised meets step
    case isFalse => cases step
  | delete key =>
    rw [Machine.next] at step
    split at step
    case isTrue empty => exact (sound.idle empty).beginDelete sound.after_count step
    case isFalse => cases step
  | step => exact sound.advance step
  | rehash bi isgc region =>
    rw [Machine.next] at step
    split at step
    case isTrue empty => exact ((sound.idle empty).rehash sound.after_count meets step).1
    case isFalse => cases step
  | crash keep => exact sound.reboot step

/-- The tables before and after the operation stand for the maps beside them. -/
structure Refined (s : Machine S) : Prop where
  before : s.before.table.Refines S.layout s.before.map
  after : s.after.table.Refines S.layout s.after.map

theorem Refined.beginPut (refined : s.Refined) (view : s.view.Agrees s.after.table) {key : K}
    {value : V} {addr : Nat} (step : s.beginPut key value addr = some s') : s'.Refined := by
  have now := view.refines refined.after
  unfold Machine.beginPut at step
  split at step
  case h_1 => cases step
  case h_2 res search =>
    split at step
    case isFalse => cases step
    case isTrue found =>
      cases step
      exact ⟨now, now.commit (Nat.lt_succ_self _) search found value⟩

theorem Refined.beginDelete (refined : s.Refined) (view : s.view.Agrees s.after.table) {key : K}
    (step : s.beginDelete key = some s') : s'.Refined := by
  have now := view.refines refined.after
  unfold Machine.beginDelete at step
  split at step
  case h_1 => cases step
  case h_2 search =>
    cases step
    have unbound := now.unbound_of_search (Nat.lt_succ_self _) search
    have same : Function.update s.after.map key none = s.after.map := by
      rw [← unbound, Function.update_eq_self]
    constructor <;> rwa [same]
  case h_3 c i search =>
    cases step
    exact ⟨now, (now.deleteCommit (Nat.lt_succ_self _) search).2⟩

omit [DecidableEq K] [DecidableEq H] in
theorem Refined.advance (refined : s.Refined) (step : s.advance = some s') : s'.Refined := by
  unfold Machine.advance at step
  split at step
  case h_1 => cases step
  case h_2 e rest _ =>
    cases step
    refine ⟨?_, refined.after⟩
    dsimp only
    split
    case isTrue => exact refined.after
    case isFalse => exact refined.before

omit [DecidableEq K] [DecidableEq H] in
theorem Refined.reboot (refined : s.Refined) (sound : s.Sound) {keep : Addr → Nat}
    (step : s.reboot keep = some s') : s'.Refined := by
  obtain ⟨buckets', found, -, agrees⟩ := sound.recovers keep
  unfold Machine.reboot at step
  rw [found] at step
  cases step
  have survivor : (s.survivor keep).table.Refines S.layout (s.survivor keep).map := by
    unfold Machine.survivor
    split
    case isTrue => exact refined.after
    case isFalse => exact refined.before
  exact ⟨agrees.refines survivor, agrees.refines survivor⟩

/-- Each action whose rehash keeps the map keeps the maps. -/
theorem Refined.next (refined : s.Refined) (sound : s.Sound) (meets : s.Meets a) (near : s.Near a)
    (step : s.next a = some s') : s'.Refined := by
  cases a with
  | put key value addr =>
    rw [Machine.next] at step
    split at step
    case isTrue empty =>
      exact refined.beginPut ((sound.idle empty).view sound.after_count).1 step
    case isFalse => cases step
  | delete key =>
    rw [Machine.next] at step
    split at step
    case isTrue empty =>
      exact refined.beginDelete ((sound.idle empty).view sound.after_count).1 step
    case isFalse => cases step
  | step => exact refined.advance step
  | rehash bi isgc region =>
    rw [Machine.next] at step
    split at step
    case isTrue empty =>
      have idle := sound.idle empty
      have now := (idle.view sound.after_count).1.refines refined.after
      have kept := (idle.rehash sound.after_count meets step).2 near s.after.map now
      obtain ⟨-, -, -, new, n, second, -, -, rfl⟩ := rehash_cases step
      exact ⟨kept, kept⟩
    case isFalse => cases step
  | crash keep => exact refined.reboot sound step

/-! ## Runs -/

/-- `Recover` after a crash that keeps `keep` finds a table of which `p` holds. -/
def Recovers (s : Machine S) (keep : Addr → Nat) (p : Table cellMeta256V2 H E → Prop) : Prop :=
  ∃ buckets', S.recover (s.image keep) s.bucketCount = some buckets' ∧
    p (S.table (s.image keep) s.bucketCountShift buckets')

omit [DecidableEq K] [DecidableEq H] in
/-- What is recovered agrees with neither of the two tables. -/
theorem not_recovers_agrees {keep : Addr → Nat}
    (differs : ∀ t ∈ [s.before.table, s.after.table], ¬ s.Recovers keep (·.Agrees t)) :
    ¬ s.Recovers keep fun t => t.Agrees s.before.table ∨ t.Agrees s.after.table := by
  rintro ⟨buckets', recovered, before | after⟩
  · exact differs _ (by simp) ⟨buckets', recovered, before⟩
  · exact differs _ (by simp) ⟨buckets', recovered, after⟩

theorem sound_of_run (run : Transition.Run Machine.next s₀ steps s) (start : s₀.Sound)
    (promised : ∀ p ∈ steps, p.1.Promised p.2) (meets : ∀ p ∈ steps, p.1.Meets p.2) : s.Sound :=
  run.invariant (G := fun s a => s.Promised a ∧ s.Meets a) (I := Sound)
    (fun _ _ _ sound good step => sound.next good.1 good.2 step)
    (fun p mem => ⟨promised p mem, meets p mem⟩) start

theorem refined_of_run (run : Transition.Run Machine.next s₀ steps s) (start : s₀.Sound)
    (refined : s₀.Refined) (promised : ∀ p ∈ steps, p.1.Promised p.2)
    (meets : ∀ p ∈ steps, p.1.Meets p.2) (near : ∀ p ∈ steps, p.1.Near p.2) : s.Refined :=
  (run.invariant (G := fun s a => s.Promised a ∧ s.Meets a ∧ s.Near a)
    (I := fun s => s.Sound ∧ s.Refined)
    (fun _ _ _ before good step => ⟨before.1.next good.1 good.2.1 step,
      before.2.next before.1 good.2.1 good.2.2 step⟩)
    (fun p mem => ⟨promised p mem, meets p mem, near p mem⟩) ⟨start, refined⟩).2

omit [DecidableEq K] [DecidableEq H] in
/-- A sound state recovers to the table before or after the operation in progress. -/
theorem Sound.recovers_before_or_after (sound : s.Sound) (keep : Addr → Nat) :
    s.Recovers keep fun t => (∀ i < t.bucketCount, (t.buckets i).WellFormed S.layout) ∧
      (t.Agrees s.before.table ∨ t.Agrees s.after.table) ∧
      (s.Refined → t.Refines S.layout s.before.map ∨ t.Refines S.layout s.after.map) := by
  obtain ⟨buckets', found, -, agrees⟩ := sound.recovers keep
  have wf := agrees.wf (sound.survives keep).wf
  refine ⟨buckets', found, wf, ?_⟩
  unfold survivor at agrees
  split at agrees
  case isTrue => exact ⟨Or.inr agrees, fun refined => Or.inr (agrees.refines refined.after)⟩
  case isFalse => exact ⟨Or.inl agrees, fun refined => Or.inl (agrees.refines refined.before)⟩

/-- Every reachable state of a table whose flushes reach what they publish survives a crash:
the completed operations are durable, and the one in progress has happened or has not. -/
theorem crash_atomic {bucketCount cellCount : UInt32}
    (fresh : S.initTable bucketCount cellCount = some s₀)
    (small : cellCount.toNat * cellMeta256V2.cellSize < 2 ^ 31)
    (lastOnLine : S.LastOnLine bucketCount.toNat)
    (run : Transition.Run Machine.next s₀ steps s) (promised : ∀ p ∈ steps, p.1.Promised p.2)
    (meets : ∀ p ∈ steps, p.1.Meets p.2) :
    (s.todo = [] → s.before = s.after) ∧ ∀ keep, s.Recovers keep fun t =>
      (∀ i < t.bucketCount, (t.buckets i).WellFormed S.layout) ∧
        (t.Agrees s.before.table ∨ t.Agrees s.after.table) ∧
        ((∀ p ∈ steps, p.1.Near p.2) →
          t.Refines S.layout s.before.map ∨ t.Refines S.layout s.after.map) := by
  obtain ⟨start, same, empty⟩ := Sound.initTable fresh small lastOnLine
  have sound := sound_of_run run start promised meets
  refine ⟨fun finished => (sound.idle (by simp [finished])).same, fun keep => ?_⟩
  obtain ⟨buckets', found, wf, agrees, refines⟩ := sound.recovers_before_or_after keep
  refine ⟨buckets', found, wf, agrees, fun near => refines ?_⟩
  exact refined_of_run run start ⟨same ▸ empty, empty⟩ promised meets near

end Machine

end TurboHash.Pmem
