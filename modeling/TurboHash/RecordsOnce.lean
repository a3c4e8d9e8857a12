import TurboHash.CallbacksOnce
import TurboHash.RecordSafe

/-!
# Every record and every array is freed once

What leaves the table is passed to `markNodeForDeletion` exactly once: a record by the thread whose
next store takes it out of its slot, an array by the thread that has replaced it. The protocol runs
the callbacks that it was given, each at most once. So no cleanup frees a record that the table still
has, or one that was freed before, and none is forgotten.
-/

namespace TurboHash

open Simulation Transition

variable {F : CellFormat} {τ K V H E : Type} [DecidableEq τ] {L : SlotLayout K (Nat × V) H E}

/-! ## What a working thread has marked -/

namespace Epoche

variable {ν : Type} {s s' : Epoche τ ν} {a : EpocheAction τ ν} {t : τ}

omit [DecidableEq τ] in
theorem Tidy.listed_of_working (tidy : s.Tidy) (working : s.Working t) : t ∈ s.created := by
  refine tidy.listed t fun idle => ?_
  rcases working with here | ⟨n, e, here⟩ <;> cases idle.symm.trans here

/-- As long as an operation goes on, its thread runs none of its callbacks. -/
theorem waitingIn_le_next (taken : s.next a = some s') (tidy : s.Tidy) (working : s.Working t) :
    s.waitingIn t ≤ s'.waitingIn t := by
  have step := step_of_next taken
  by_cases own : t = a.thread
  case neg =>
    obtain ⟨phase, list, -⟩ := step.others own
    rw [waitingIn, waitingIn, phase, list]
  case pos =>
    subst own
    have listed := tidy.listed_of_working working
    have noSweep : ∀ t, a ≠ .sweep t := by
      rintro t rfl
      cases step <;> rcases working with here | ⟨n, e, here⟩ <;> simp_all [EpocheAction.thread]
    rw [(waitingIn_step step (tidy.counted _ listed) noSweep listed).1]
    exact Multiset.le_add_right _ _

omit [DecidableEq τ] in
theorem waitingIn_le_waiting (tidy : s.Tidy) (working : s.Working t) : s.waitingIn t ≤ s.waiting :=
  Finset.single_le_sum (f := s.waitingIn) (fun _ _ => Multiset.zero_le _) (tidy.listed_of_working working)

end Epoche

/-! ## What the table passes on -/

namespace TableRace

variable {bucketCountShift : Nat} {s s' : TableRace F τ K V H E} {t u : τ}

section Passes

variable (L : SlotLayout K (Nat × V) H E) (bucketCountShift : Nat)

/-- A thread has replaced the array and not yet marked it. -/
def Replacing (s : TableRace F τ K V H E) (bi array : Nat) : Prop :=
  ∃ t key value, s.calls t = .rehashed key value array false ∧ bucketOf L bucketCountShift key = bi

/-- A replaced array is behind the current one. -/
def Behind (s : TableRace F τ K V H E) : Prop :=
  ∀ bi array, s.Replacing L bucketCountShift bi array → array < (s.buckets bi).current

/-- A step of thread `t` that passes the nodes `gained` to `markNodeForDeletion`. -/
structure Passes (t : τ) (s s' : TableRace F τ K V H E) (gained : Multiset Node) : Prop where
  sound : s'.Sound L bucketCountShift
  kept : s.Kept L bucketCountShift t s'
  nodup : gained.Nodup
  record : ∀ n, .record n ∈ gained →
    s'.Retiring L bucketCountShift t n ∧ ¬ s.Retiring L bucketCountShift t n
  retires : ∀ n, s'.Retiring L bucketCountShift t n →
    s.Retiring L bucketCountShift t n ∨ .record n ∈ gained
  array : ∀ bi array, .array bi array ∈ gained → s.Replacing L bucketCountShift bi array
  behind : s'.Behind L bucketCountShift
  arrays : ∀ bi array,
    array < (s'.buckets bi).current ∧ ¬ s'.Replacing L bucketCountShift bi array ↔
      .array bi array ∈ gained ∨
        array < (s.buckets bi).current ∧ ¬ s.Replacing L bucketCountShift bi array

end Passes

omit [DecidableEq τ] in
theorem Retiring.mem [DecidableEq H] {n : Nat} (records : L.HasRecords)
    (sound : s.Sound L bucketCountShift) (retiring : s.Retiring L bucketCountShift t n) :
    ∃ key, s.calls t = .writing key true ∧
      n ∈ (s.buckets (bucketOf L bucketCountShift key)).owned L := by
  obtain ⟨key, writing, leaves⟩ := retiring
  exact ⟨key, writing, (sound.formed _ (bucketOf_lt L _ key)).holder.mem_of_retires records leaves⟩

omit [DecidableEq τ] in
/-- One thread takes a record out of the table. -/
theorem Sound.eq_of_retiring [DecidableEq H] {n : Nat} (records : L.HasRecords)
    (sound : s.Sound L bucketCountShift) (retiring : s.Retiring L bucketCountShift t n)
    (other : s.Retiring L bucketCountShift u n) : u = t := by
  obtain ⟨key, writing, mem⟩ := Retiring.mem records sound retiring
  obtain ⟨key', writing', mem'⟩ := Retiring.mem records sound other
  refine sound.alone (by rw [writing]; rfl) (by rw [writing']; rfl) ?_
  exact sound.bucket_eq (bucketOf_lt L _ key) (bucketOf_lt L _ key') mem mem'

omit [DecidableEq τ] in
theorem Retiring.alive [DecidableEq H] {n : Nat} (records : L.HasRecords)
    (sound : s.Sound L bucketCountShift) (retiring : s.Retiring L bucketCountShift t n) :
    s.Alive L bucketCountShift n := by
  obtain ⟨key, -, mem⟩ := Retiring.mem records sound retiring
  exact Or.inr (mem_owned (bucketOf_lt L _ key) mem)

omit [DecidableEq τ] in
theorem Kept.refl (t : τ) (s : TableRace F τ K V H E) : s.Kept L bucketCountShift t s where
  others _ _ := rfl
  alive _ := id
  leaves _ := Or.inl
  puts_le := le_rfl
  current_le _ := le_rfl
  old _ _ _ _ := rfl
  shift _ _ _ := rfl
  slots _ _ _ _ _ _ _ := Or.inl
  retiring _ _ := Or.inl
  marks _ _ _ := id

omit [DecidableEq τ] in
/-- Who has replaced an array, before and after a step of thread `t`. -/
theorem replacing_iff (others : ∀ u, u ≠ t → s'.calls u = s.calls u) {bi array : Nat}
    (own : (∃ key value, s'.calls t = .rehashed key value array false ∧
        bucketOf L bucketCountShift key = bi) ↔
      ∃ key value, s.calls t = .rehashed key value array false ∧
        bucketOf L bucketCountShift key = bi) :
    s'.Replacing L bucketCountShift bi array ↔ s.Replacing L bucketCountShift bi array := by
  refine exists_congr fun u => ?_
  by_cases here : u = t
  · rw [here]
    exact own
  · rw [others u here]

omit [DecidableEq τ] in
/-- A step of another part of the program. -/
theorem Passes.refl (sound : s.Sound L bucketCountShift) (behind : s.Behind L bucketCountShift)
    (t : τ) : s.Passes L bucketCountShift t s 0 :=
  ⟨sound, .refl t s, Multiset.nodup_zero, fun _ mem => absurd mem (Multiset.notMem_zero _),
    fun _ => Or.inl, fun _ _ mem => absurd mem (Multiset.notMem_zero _), behind,
    fun _ _ => (or_iff_right (Multiset.notMem_zero _)).symm⟩

omit [DecidableEq τ] in
/-- A step of thread `t` that marks nothing and replaces nothing. -/
theorem Passes.quiet (step : s'.Sound L bucketCountShift ∧ s.Kept L bucketCountShift t s')
    (behind : s.Behind L bucketCountShift)
    (current : ∀ bi, (s'.buckets bi).current = (s.buckets bi).current)
    (marked : ∀ key, s'.calls t ≠ .writing key true)
    (was : ∀ key value array, s.calls t ≠ .rehashed key value array false)
    (now : ∀ key value array, s'.calls t ≠ .rehashed key value array false) :
    s.Passes L bucketCountShift t s' 0 := by
  have replacing : ∀ bi array,
      s'.Replacing L bucketCountShift bi array ↔ s.Replacing L bucketCountShift bi array := by
    refine fun bi array => replacing_iff step.2.others (iff_of_false ?_ ?_)
    · rintro ⟨key, value, has, -⟩
      exact now key value array has
    · rintro ⟨key, value, has, -⟩
      exact was key value array has
  refine ⟨step.1, step.2, Multiset.nodup_zero, fun _ mem => absurd mem (Multiset.notMem_zero _), ?_,
    fun _ _ mem => absurd mem (Multiset.notMem_zero _), fun bi array has => ?_, fun bi array => ?_⟩
  · rintro n ⟨key, writing, -⟩
    exact absurd writing (marked key)
  · rw [current]
    exact behind bi array ((replacing bi array).mp has)
  · rw [current, replacing]
    exact (or_iff_right (Multiset.notMem_zero _)).symm

omit [DecidableEq τ] in
/-- A `MinorRehash` of thread `t`. -/
theorem Passes.rehash (step : s'.Sound L bucketCountShift ∧ s.Kept L bucketCountShift t s')
    (behind : s.Behind L bucketCountShift) {key : K} {value : V}
    (was : ∀ key value array, s.calls t ≠ .rehashed key value array false)
    (now : s'.calls t = .rehashed key value
      (s.buckets (bucketOf L bucketCountShift key)).current false)
    (current : ∀ bi, (s'.buckets bi).current = (s.buckets bi).current +
      if bi = bucketOf L bucketCountShift key then 1 else 0) :
    s.Passes L bucketCountShift t s' 0 := by
  have mine : ∀ bi array, (∃ key value, s'.calls t = .rehashed key value array false ∧
      bucketOf L bucketCountShift key = bi) ↔
        bucketOf L bucketCountShift key = bi ∧ array = (s.buckets bi).current := by
    refine fun bi array => ⟨?_, ?_⟩
    · rintro ⟨key', value', has, rfl⟩
      cases now.symm.trans has
      exact ⟨rfl, rfl⟩
    · rintro ⟨rfl, rfl⟩
      exact ⟨key, value, now, rfl⟩
  have replacing : ∀ bi array, s'.Replacing L bucketCountShift bi array ↔
      s.Replacing L bucketCountShift bi array ∨
        bucketOf L bucketCountShift key = bi ∧ array = (s.buckets bi).current := by
    intro bi array
    constructor
    · rintro ⟨u, has⟩
      by_cases here : u = t
      · subst here
        exact Or.inr ((mine bi array).mp has)
      · rw [step.2.others u here] at has
        exact Or.inl ⟨u, has⟩
    · rintro (⟨u, key', value', has, same⟩ | here)
      · have other : u ≠ t := by
          rintro rfl
          exact was key' value' array has
        exact ⟨u, key', value', (step.2.others u other).trans has, same⟩
      · exact ⟨t, (mine bi array).mpr here⟩
  refine ⟨step.1, step.2, Multiset.nodup_zero, fun _ mem => absurd mem (Multiset.notMem_zero _), ?_,
    fun _ _ mem => absurd mem (Multiset.notMem_zero _), fun bi array has => ?_, fun bi array => ?_⟩
  · rintro n ⟨key', writing, -⟩
    cases now.symm.trans writing
  · rw [current]
    rcases (replacing bi array).mp has with before | ⟨rfl, rfl⟩
    · exact Nat.lt_add_right _ (behind bi array before)
    · rw [if_pos rfl]
      exact Nat.lt_succ_self _
  · rw [current, replacing, or_iff_right (Multiset.notMem_zero _), not_or, not_and]
    constructor
    · rintro ⟨less, apart, new⟩
      refine ⟨?_, apart⟩
      split at less
      case isTrue here => exact lt_of_le_of_ne (Nat.le_of_lt_succ less) (new here.symm)
      case isFalse => exact less
    · rintro ⟨less, apart⟩
      exact ⟨Nat.lt_add_right _ less, apart, fun _ => Nat.ne_of_lt less⟩

/-- A call of `markNodeForDeletion`. -/
theorem Passes.mark (sound : s.Sound L bucketCountShift) (behind : s.Behind L bucketCountShift)
    {node : Node} (taken : s.mark L bucketCountShift t = some (node, s')) :
    s.Passes L bucketCountShift t s' {node} := by
  obtain ⟨sound', kept⟩ := sound.mark taken
  obtain ⟨buckets, ⟨key, n, was, now, rfl, retiring⟩ | ⟨key, value, old, was, now, rfl⟩⟩ :=
    calls_of_mark taken
  · have replacing : ∀ bi array,
        s'.Replacing L bucketCountShift bi array ↔ s.Replacing L bucketCountShift bi array := by
      refine fun bi array => replacing_iff kept.others (iff_of_false ?_ ?_)
      · rintro ⟨key', value, has, -⟩
        cases now.symm.trans has
      · rintro ⟨key', value, has, -⟩
        cases was.symm.trans has
    refine ⟨sound', kept, Multiset.nodup_singleton _, fun m mem => ?_, fun m other => ?_,
      fun bi array mem => ?_, fun bi array has => ?_, fun bi array => ?_⟩
    · cases Multiset.mem_singleton.mp mem
      refine ⟨retiring, ?_⟩
      rintro ⟨key', writing, -⟩
      cases was.symm.trans writing
    · obtain ⟨key', writing, leaves⟩ := retiring
      obtain ⟨key'', writing', leaves'⟩ := other
      cases writing.symm.trans writing'
      cases leaves.symm.trans leaves'
      exact Or.inr (Multiset.mem_singleton_self _)
    · cases Multiset.mem_singleton.mp mem
    · rw [buckets]
      exact behind bi array ((replacing bi array).mp has)
    · rw [buckets, replacing]
      refine (or_iff_right fun mem => ?_).symm
      cases Multiset.mem_singleton.mp mem
  · have mine : s.Replacing L bucketCountShift (bucketOf L bucketCountShift key) old :=
      ⟨t, key, value, was, rfl⟩
    have done : ∀ u key' value' array, s'.calls u = .rehashed key' value' array false →
        u ≠ t ∧ s.calls u = .rehashed key' value' array false := by
      intro u key' value' array has
      have other : u ≠ t := by
        rintro rfl
        cases now.symm.trans has
      exact ⟨other, (kept.others u other).symm.trans has⟩
    have after : ∀ bi array, s'.Replacing L bucketCountShift bi array →
        s.Replacing L bucketCountShift bi array := by
      rintro bi array ⟨u, key', value', has, same⟩
      exact ⟨u, key', value', (done u key' value' array has).2, same⟩
    refine ⟨sound', kept, Multiset.nodup_singleton _, fun m mem => ?_, fun m other => ?_,
      fun bi array mem => ?_, fun bi array has => ?_, fun bi array => ?_⟩
    · cases Multiset.mem_singleton.mp mem
    · obtain ⟨key', writing, -⟩ := other
      cases now.symm.trans writing
    · cases Multiset.mem_singleton.mp mem
      exact mine
    · rw [buckets]
      exact behind bi array (after bi array has)
    · rw [buckets, Multiset.mem_singleton]
      constructor
      · rintro ⟨less, marked⟩
        by_cases before : s.Replacing L bucketCountShift bi array
        · obtain ⟨u, key', value', has, rfl⟩ := before
          by_cases here : u = t
          · subst here
            cases was.symm.trans has
            exact Or.inl rfl
          · exact absurd ⟨u, key', value', (kept.others u here).trans has, rfl⟩ marked
        · exact Or.inr ⟨less, before⟩
      · rintro (same | ⟨less, apart⟩)
        · cases same
          refine ⟨behind _ _ mine, ?_⟩
          rintro ⟨u, key', value', has, same⟩
          obtain ⟨other, before⟩ := done u key' value' old has
          exact other (sound.alone (by rw [was]; rfl) (by rw [before]; rfl) same)
        · exact ⟨less, fun has => apart (after bi array has)⟩

end TableRace

/-! ## The protocol under the table -/

/-- The thread that takes the step. -/
def RecordAction.thread {τ : Type} : RecordAction F τ K V H E → τ
  | begin t _ | load t | lock t _ | store t | mark t | add t | unlock t | finish t => t
  | protocol a => a.thread

namespace RecordRace

variable [DecidableEq H] {kCellCountLimit bucketCountShift : Nat} {isKeyFlat : Bool}
  {s s' : RecordRace F τ K V H E} {a : RecordAction F τ K V H E} {t : τ}

section Protocol

variable (L) (bucketCountShift)

omit [DecidableEq H] in
/-- The step of the protocol that a step takes. -/
def protocolStep (s : RecordRace F τ K V H E) :
    RecordAction F τ K V H E → Option (EpocheAction τ Node)
  | .begin t _ => some (.loadEpoche t)
  | .mark t => (s.table.mark L bucketCountShift t).map fun p => .mark t p.1
  | .add t => some (.add t)
  | .finish t =>
    match s.table.calls t with
    | .find _ _ => some (.leave t)
    | _ => some (.exit t)
  | .protocol a => some a
  | .load _ | .lock _ _ | .store _ | .unlock _ => none

/-- The steps of the protocol in a run. -/
def protocolSteps (steps : List (RecordRace F τ K V H E × RecordAction F τ K V H E)) :
    List (Epoche τ Node × EpocheAction τ Node) :=
  steps.filterMap fun p => (p.1.protocolStep L bucketCountShift p.2).map (Prod.mk p.1.epoche)

end Protocol

theorem epoche_next (taken : s.next L kCellCountLimit bucketCountShift isKeyFlat a = some s') :
    (s.protocolStep L bucketCountShift a).elim (s'.epoche = s.epoche) fun b =>
      s.epoche.next b = some s'.epoche := by
  cases a with
  | begin t op =>
    simp only [next] at taken
    split at taken
    case h_2 => cases taken
    case h_1 =>
      obtain ⟨epoche, loaded, rfl⟩ := Option.map_eq_some_iff.mp taken
      exact loaded
  | load t | lock t memory | store t | unlock t =>
    simp only [next] at taken
    split at taken
    case isFalse => cases taken
    case isTrue =>
      obtain ⟨table, -, rfl⟩ := Option.map_eq_some_iff.mp taken
      rfl
  | mark t =>
    obtain ⟨⟨node, table⟩, marks, rest⟩ := Option.bind_eq_some_iff.mp taken
    obtain ⟨epoche, marked, rfl⟩ := Option.map_eq_some_iff.mp rest
    rw [protocolStep, marks]
    exact marked
  | add t =>
    obtain ⟨epoche, added, rfl⟩ := Option.map_eq_some_iff.mp taken
    exact added
  | finish t =>
    simp only [next] at taken
    split at taken
    case h_1 has =>
      obtain ⟨epoche, ended, rfl⟩ := Option.map_eq_some_iff.mp taken
      rw [protocolStep, has]
      exact ended
    case h_2 has =>
      obtain ⟨epoche, ended, rfl⟩ := Option.map_eq_some_iff.mp taken
      rw [protocolStep, has]
      exact ended
    case h_3 => cases taken
  | protocol a =>
    simp only [next] at taken
    split at taken
    case isFalse => cases taken
    case isTrue =>
      obtain ⟨epoche, moved, rfl⟩ := Option.map_eq_some_iff.mp taken
      exact moved

/-- The nodes that a step marks. -/
def markedBy (L : SlotLayout K (Nat × V) H E) (bucketCountShift : Nat) (s : RecordRace F τ K V H E)
    (a : RecordAction F τ K V H E) : Multiset Node :=
  (s.protocolStep L bucketCountShift a).elim 0 Epoche.markedBy

/-- What a step passes to `markNodeForDeletion`, and that its thread is inside its operation where
it works on a bucket. -/
theorem passes_of_next (records : L.HasRecords) (entry : L.PointsByEntry)
    (sound : s.table.Sound L bucketCountShift) (behind : s.table.Behind L bucketCountShift)
    (valid : s.DeletesValid L bucketCountShift a)
    (taken : s.next L kCellCountLimit bucketCountShift isKeyFlat a = some s') :
    s.table.Passes L bucketCountShift a.thread s'.table (s.markedBy L bucketCountShift a) ∧
      ((s'.table.calls a.thread).locked ≠ none →
        (s.table.calls a.thread).locked ≠ none ∨ s.inside a.thread = true) := by
  cases a with
  | begin t op =>
    dsimp only [RecordAction.thread]
    simp only [next] at taken
    split at taken
    case h_2 => cases taken
    case h_1 idle =>
      obtain ⟨epoche, -, rfl⟩ := Option.map_eq_some_iff.mp taken
      refine ⟨.quiet (sound.begin op idle) behind (fun _ => rfl) (fun key => ?_)
        (by simp [idle]) fun key value array => ?_, fun locked => ?_⟩
      case refine_3 => exact absurd (by rw [TableRace.setCall_self]; cases op <;> rfl) locked
      all_goals
        rw [TableRace.setCall_self]
        cases op <;> simp [TableCall.start]
  | load t =>
    dsimp only [RecordAction.thread]
    simp only [next] at taken
    split at taken
    case isFalse => cases taken
    case isTrue inside =>
      obtain ⟨table, loaded, rfl⟩ := Option.map_eq_some_iff.mp taken
      refine ⟨?_, fun _ => Or.inr inside⟩
      have step := sound.load loaded
      obtain ⟨key, call, call', was, -, rfl⟩ | ⟨key, call, was, rfl | ⟨call', -, rfl⟩⟩ :=
        TableRace.load_cases loaded
      all_goals
        exact .quiet step behind (fun _ => rfl) (by simp [TableRace.setCall_self]) (by simp [was])
          (by simp [TableRace.setCall_self])
  | lock t memory =>
    dsimp only [RecordAction.thread]
    simp only [next] at taken
    split at taken
    case isFalse => cases taken
    case isTrue inside =>
      obtain ⟨table, locked, rfl⟩ := Option.map_eq_some_iff.mp taken
      refine ⟨?_, fun _ => Or.inr inside⟩
      have step := sound.lockBucket valid.slot locked
      obtain ⟨key, was, ⟨now, current⟩ | ⟨value, now, current⟩⟩ := TableRace.calls_of_lock locked
      · refine .quiet step behind current ?_ ?_ ?_
        · obtain now | ⟨c, now⟩ := now <;> simp [now]
        · obtain ⟨value, was⟩ | ⟨c, was⟩ := was <;> simp [was]
        · obtain now | ⟨c, now⟩ := now <;> simp [now]
      · refine .rehash step behind ?_ now current
        obtain ⟨value, was⟩ | ⟨c, was⟩ := was <;> simp [was]
  | store t =>
    dsimp only [RecordAction.thread]
    simp only [next] at taken
    split at taken
    case isFalse => cases taken
    case isTrue inside =>
      obtain ⟨table, stored, rfl⟩ := Option.map_eq_some_iff.mp taken
      refine ⟨?_, fun _ => Or.inr inside⟩
      obtain ⟨key, marked, was, now, current⟩ := sound.calls_of_store stored
      refine .quiet (sound.store records entry stored) behind current ?_ (by simp [was]) ?_
      all_goals obtain now | now := now <;> simp [now]
  | mark t =>
    dsimp only [RecordAction.thread]
    obtain ⟨⟨node, table⟩, marks, rest⟩ := Option.bind_eq_some_iff.mp taken
    obtain ⟨epoche, -, rfl⟩ := Option.map_eq_some_iff.mp rest
    refine ⟨?_, fun _ => Or.inl ?_⟩
    · rw [markedBy, protocolStep, marks]
      exact .mark sound behind marks
    · obtain ⟨-, ⟨key, n, was, -⟩ | ⟨key, value, old, was, -⟩⟩ := TableRace.calls_of_mark marks
      all_goals simp [was, TableCall.locked]
  | add t =>
    obtain ⟨epoche, -, rfl⟩ := Option.map_eq_some_iff.mp taken
    exact ⟨.refl sound behind t, Or.inl⟩
  | unlock t =>
    dsimp only [RecordAction.thread]
    simp only [next] at taken
    split at taken
    case isFalse => cases taken
    case isTrue inside =>
      obtain ⟨table, unlocked, rfl⟩ := Option.map_eq_some_iff.mp taken
      refine ⟨?_, fun _ => Or.inr inside⟩
      have step := sound.unlock unlocked
      obtain ⟨buckets, key, ⟨was, now⟩ | ⟨value, old, was, now⟩⟩ :=
        TableRace.calls_of_unlock unlocked
      all_goals
        exact .quiet step behind (fun bi => by rw [buckets]) (by simp [now]) (by simp [was])
          (by simp [now])
  | finish t =>
    dsimp only [RecordAction.thread]
    have unlocked : (s.table.calls t).locked = none ∧ ∃ epoche obtained,
        s' = ⟨s.table.setCall t .idle, epoche, obtained⟩ := by
      simp only [next] at taken
      split at taken
      case h_1 has | h_2 has =>
        obtain ⟨epoche, -, rfl⟩ := Option.map_eq_some_iff.mp taken
        exact ⟨by rw [has]; rfl, _, _, rfl⟩
      case h_3 => cases taken
    obtain ⟨unlocked, epoche, obtained, rfl⟩ := unlocked
    have quiet : s.markedBy L bucketCountShift (.finish t) = 0 := by
      rw [markedBy, protocolStep]
      split <;> rfl
    rw [quiet]
    refine ⟨.quiet (sound.go unlocked rfl fun key c same => by cases same) behind (fun _ => rfl)
      (by simp [TableRace.setCall_self]) ?_ (by simp [TableRace.setCall_self]), fun locked => ?_⟩
    · intro key value array has
      rw [has] at unlocked
      cases unlocked
    · exact absurd (by rw [TableRace.setCall_self]; rfl) locked
  | protocol a =>
    simp only [next] at taken
    split at taken
    case isFalse => cases taken
    case isTrue guards =>
      obtain ⟨epoche, -, rfl⟩ := Option.map_eq_some_iff.mp taken
      refine ⟨?_, Or.inl⟩
      have quiet : s.markedBy L bucketCountShift (.protocol a) = 0 := by
        cases a <;> first | rfl | cases guards
      rw [quiet]
      exact .refl sound behind a.thread

/-- A guard that ends holds no lock. -/
theorem locked_of_ends
    (ends : s.protocolStep L bucketCountShift a = some (.leave t) ∨
      s.protocolStep L bucketCountShift a = some (.exit t))
    (taken : s.next L kCellCountLimit bucketCountShift isKeyFlat a = some s') :
    (s'.table.calls t).locked = none := by
  cases a with
  | finish u =>
    simp only [next] at taken
    split at taken
    case h_1 has | h_2 has =>
      obtain ⟨epoche, -, rfl⟩ := Option.map_eq_some_iff.mp taken
      simp only [protocolStep, has] at ends
      rcases ends with same | same <;> cases same
      rw [TableRace.setCall_self]
      rfl
    case h_3 => cases taken
  | protocol a =>
    simp only [next] at taken
    split at taken
    case isFalse => cases taken
    case isTrue guards => rcases ends with same | same <;> cases same <;> cases guards
  | mark u =>
    simp only [protocolStep, Option.map_eq_some_iff] at ends
    rcases ends with ⟨p, -, same⟩ | ⟨p, -, same⟩ <;> cases same
  | _ => rcases ends with same | same <;> cases same

/-- A thread works on a bucket inside its operation only. -/
theorem working_of_next (working : ∀ t, (s.table.calls t).locked ≠ none → s.epoche.Working t)
    (others : ∀ u, u ≠ a.thread → s'.table.calls u = s.table.calls u)
    (own : (s'.table.calls a.thread).locked ≠ none →
      (s.table.calls a.thread).locked ≠ none ∨ s.inside a.thread = true)
    (taken : s.next L kCellCountLimit bucketCountShift isKeyFlat a = some s') :
    ∀ u, (s'.table.calls u).locked ≠ none → s'.epoche.Working u := by
  intro u locked
  have before : s.epoche.Working u := by
    by_cases here : u = a.thread
    · subst here
      rcases own locked with was | inside
      · exact working _ was
      · exact Or.inl (inside_iff.mp inside)
    · rw [others u here] at locked
      exact working u locked
  have moved := epoche_next taken
  cases shown : s.protocolStep L bucketCountShift a with
  | none =>
    rw [shown] at moved
    rwa [show s'.epoche = s.epoche from moved]
  | some b =>
    rw [shown] at moved
    refine (Epoche.step_of_next moved).working_after before ?_ ?_
    · rintro rfl
      exact locked (locked_of_ends (Or.inl shown) taken)
    · rintro rfl
      exact locked (locked_of_ends (Or.inr shown) taken)

/-- What a step marks waits in the list of its thread. -/
theorem mem_waitingIn_of_markedBy (tidy : s.epoche.Tidy) {node : Node}
    (mem : node ∈ s.markedBy L bucketCountShift a)
    (taken : s.next L kCellCountLimit bucketCountShift isKeyFlat a = some s') :
    node ∈ s'.epoche.waitingIn a.thread := by
  have moved := epoche_next taken
  rw [markedBy] at mem
  cases a with
  | mark t =>
    simp only [protocolStep] at mem moved
    cases marks : s.table.mark L bucketCountShift t with
    | none =>
      rw [marks] at mem
      exact absurd mem (Multiset.notMem_zero _)
    | some p =>
      rw [marks] at mem moved
      have step := Epoche.step_of_next moved
      have inside : s.epoche.Working t := by
        generalize s'.epoche = epoche at step
        cases step
        case mark inside => exact Or.inl inside
      have listed := tidy.listed_of_working inside
      have waits := (Epoche.waitingIn_step step (tidy.counted t listed) nofun listed).1
      change node ∈ s'.epoche.waitingIn t
      change s'.epoche.waitingIn t = _ at waits
      rw [waits]
      exact Multiset.mem_add.mpr (Or.inr mem)
  | finish t =>
    simp only [protocolStep] at mem
    split at mem <;> exact absurd mem (Multiset.notMem_zero _)
  | protocol a =>
    simp only [next] at taken
    split at taken
    case isFalse => cases taken
    case isTrue guards =>
      cases a <;> first | exact absurd mem (Multiset.notMem_zero _) | cases guards
  | _ => exact absurd mem (Multiset.notMem_zero _)

/-! ## What was marked -/

/-- Every record and every replaced array is accounted for, when the nodes `marked` were passed to
`markNodeForDeletion` since the table was `began`. -/
structure Accounted (L : SlotLayout K (Nat × V) H E) (bucketCountShift : Nat)
    (s : RecordRace F τ K V H E) (began : TableRace F τ K V H E) (marked : Multiset Node) : Prop where
  table : s.table.Sound L bucketCountShift
  behind : s.table.Behind L bucketCountShift
  working : ∀ t, (s.table.calls t).locked ≠ none → s.epoche.Working t
  tidy : s.epoche.Tidy
  waiting : s.epoche.waiting ≤ marked
  nodup : marked.Nodup
  /-- what is taken out of the table waits in the list of the thread that takes it out -/
  retiring : ∀ t n, s.table.Retiring L bucketCountShift t n → .record n ∈ s.epoche.waitingIn t
  leaves : ∀ n, .record n ∈ marked → s.table.Alive L bucketCountShift n →
    ∃ t, s.table.Retiring L bucketCountShift t n
  kept : ∀ n, began.Alive L bucketCountShift n →
    s.table.Alive L bucketCountShift n ∨ .record n ∈ marked
  arrays : ∀ bi array, .array bi array ∈ marked ↔
    array < (s.table.buckets bi).current ∧ ¬ s.table.Replacing L bucketCountShift bi array

namespace Accounted

variable {began : TableRace F τ K V H E} {marked : Multiset Node}

omit [DecidableEq τ] [DecidableEq H] in
theorem marked_of_retiring (accounted : s.Accounted L bucketCountShift began marked) {n : ℕ}
    (retiring : s.table.Retiring L bucketCountShift t n) : .record n ∈ marked := by
  have working : s.epoche.Working t := by
    obtain ⟨key, writing, -⟩ := retiring
    refine accounted.working t ?_
    rw [writing]
    exact Option.some_ne_none key
  have le := (Epoche.waitingIn_le_waiting accounted.tidy working).trans accounted.waiting
  exact Multiset.mem_of_le le (accounted.retiring t n retiring)

omit [DecidableEq τ] in
/-- What is marked was not marked before. -/
theorem fresh (accounted : s.Accounted L bucketCountShift began marked) (records : L.HasRecords)
    {table : TableRace F τ K V H E} {gained : Multiset Node}
    (passes : s.table.Passes L bucketCountShift t table gained) {node : Node} (mem : node ∈ gained) :
    node ∉ marked := by
  cases node with
  | record n =>
    intro before
    obtain ⟨retiring, new⟩ := passes.record n mem
    have alive := TableRace.Retiring.alive records passes.sound retiring
    obtain ⟨u, earlier⟩ := accounted.leaves n before (passes.kept.alive n alive)
    have still := (passes.kept.retiring u n earlier).resolve_right fun dead => dead alive
    obtain rfl := passes.sound.eq_of_retiring records retiring still
    exact new earlier
  | array bi array =>
    exact fun before => ((accounted.arrays bi array).mp before).2 (passes.array bi array mem)

/-- Every step keeps the account. -/
theorem step (accounted : s.Accounted L bucketCountShift began marked) (records : L.HasRecords)
    (entry : L.PointsByEntry) (valid : s.DeletesValid L bucketCountShift a)
    (taken : s.next L kCellCountLimit bucketCountShift isKeyFlat a = some s') :
    s'.Accounted L bucketCountShift began (marked + s.markedBy L bucketCountShift a) := by
  obtain ⟨passes, own⟩ :=
    passes_of_next records entry accounted.table accounted.behind valid taken
  have moved := epoche_next taken
  have tidy : s'.epoche.Tidy ∧ s'.epoche.waiting ≤ s.epoche.waiting + s.markedBy L bucketCountShift a ∧
      ∀ u, s.epoche.Working u → s.epoche.waitingIn u ≤ s'.epoche.waitingIn u := by
    rw [markedBy]
    cases shown : s.protocolStep L bucketCountShift a with
    | none =>
      rw [shown] at moved
      rw [show s'.epoche = s.epoche from moved]
      exact ⟨accounted.tidy, Multiset.le_add_right _ _, fun _ _ => le_rfl⟩
    | some b =>
      rw [shown] at moved
      obtain ⟨same, tidy'⟩ := Epoche.waiting_next moved accounted.tidy
      refine ⟨tidy', ?_, fun u => Epoche.waitingIn_le_next moved accounted.tidy⟩
      exact same ▸ Multiset.le_add_right _ _
  obtain ⟨tidy, waiting, listed⟩ := tidy
  constructor
  case table => exact passes.sound
  case behind => exact passes.behind
  case working => exact working_of_next accounted.working passes.kept.others own taken
  case tidy => exact tidy
  case waiting => exact waiting.trans (add_le_add_left accounted.waiting _)
  case nodup =>
    refine Multiset.nodup_add.mpr ⟨accounted.nodup, passes.nodup, ?_⟩
    exact Multiset.disjoint_left.mpr fun before mem => accounted.fresh records passes mem before
  case retiring =>
    intro u n retiring
    have before : s.table.Retiring L bucketCountShift u n →
        .record n ∈ s'.epoche.waitingIn u := by
      intro was
      refine Multiset.mem_of_le (listed u (accounted.working u ?_)) (accounted.retiring u n was)
      obtain ⟨key, writing, -⟩ := was
      rw [writing]
      exact Option.some_ne_none key
    by_cases here : u = a.thread
    · subst here
      rcases passes.retires n retiring with was | mem
      · exact before was
      · exact mem_waitingIn_of_markedBy accounted.tidy mem taken
    · exact before (passes.kept.marks u n here retiring)
  case leaves =>
    intro n mem alive
    rcases Multiset.mem_add.mp mem with before | new
    · obtain ⟨u, retiring⟩ := accounted.leaves n before (passes.kept.alive n alive)
      exact ⟨u, (passes.kept.retiring u n retiring).resolve_right fun dead => dead alive⟩
    · exact ⟨_, (passes.record n new).1⟩
  case kept =>
    intro n mem
    rcases accounted.kept n mem with alive | before
    · rcases passes.kept.leaves n alive with still | retiring
      · exact Or.inl still
      · exact Or.inr (Multiset.mem_add.mpr (Or.inl (accounted.marked_of_retiring retiring)))
    · exact Or.inr (Multiset.mem_add.mpr (Or.inl before))
  case arrays =>
    intro bi array
    rw [passes.arrays, ← accounted.arrays, Multiset.mem_add, or_comm]

omit [DecidableEq τ] [DecidableEq H] in
theorem start {buckets : Nat → Bucket F H E} {puts : Nat}
    (stocked : TableRace.Stocked L bucketCountShift buckets puts) (startGCThreshhold : Nat) :
    (RecordRace.start buckets puts startGCThreshhold : RecordRace F τ K V H E).Accounted L
      bucketCountShift (.start buckets puts) 0 where
  table := stocked.sound
  behind bi array := by rintro ⟨t, key, value, has, -⟩; cases has
  working _ locked := absurd rfl locked
  tidy := ⟨fun _ busy => absurd rfl busy, nofun⟩
  waiting := le_rfl
  nodup := Multiset.nodup_zero
  retiring t n := by rintro ⟨key, has, -⟩; cases has
  leaves _ mem := absurd mem (Multiset.notMem_zero _)
  kept _ mem := Or.inl mem
  arrays _ _ := iff_of_false (Multiset.notMem_zero _) fun ⟨less, _⟩ => Nat.not_lt_zero _ less

end Accounted

/-! ## Runs -/

section Runs

variable {puts startGCThreshhold : ℕ} {buckets : Nat → Bucket F H E}
  {steps : List (RecordRace F τ K V H E × RecordAction F τ K V H E)}

omit [DecidableEq H] in
/-- The marks of a run, step by step. -/
theorem marked_snoc : Epoche.marked (protocolSteps L bucketCountShift (steps ++ [(s, a)])) =
    Epoche.marked (protocolSteps L bucketCountShift steps) + s.markedBy L bucketCountShift a := by
  rw [markedBy]
  cases shown : s.protocolStep L bucketCountShift a <;>
    simp [protocolSteps, Epoche.marked, List.filterMap_append, shown]

theorem Accounted.of_run (records : L.HasRecords) (entry : L.PointsByEntry)
    (stocked : TableRace.Stocked L bucketCountShift buckets puts)
    (run : Run (next L kCellCountLimit bucketCountShift isKeyFlat)
      (.start buckets puts startGCThreshhold) steps s)
    (valid : ∀ p ∈ steps, p.1.DeletesValid L bucketCountShift p.2) :
    s.Accounted L bucketCountShift (.start buckets puts)
      (Epoche.marked (protocolSteps L bucketCountShift steps)) := by
  refine run.history (G := fun s a => s.DeletesValid L bucketCountShift a)
    (I := fun steps s => s.Accounted L bucketCountShift (.start buckets puts)
      (Epoche.marked (protocolSteps L bucketCountShift steps)))
    (fun steps s a s' accounted valid taken => ?_) valid (.start stocked startGCThreshhold)
  rw [marked_snoc]
  exact accounted.step records entry valid taken

/-- The protocol under a run of the table. -/
theorem protocol_run (run : Run (next L kCellCountLimit bucketCountShift isKeyFlat)
    (.start buckets puts startGCThreshhold) steps s) :
    Run Epoche.next (.new startGCThreshhold) (protocolSteps L bucketCountShift steps) s.epoche :=
  run.project RecordRace.epoche (protocolStep L bucketCountShift) fun _ _ _ => epoche_next

end Runs

/-- The nodes that a run has freed, `freed`, are freed once, each behind its end in the table, and with
those that wait for it they are all that has left the table. -/
structure RetiredOnce (L : SlotLayout K (Nat × V) H E) (bucketCountShift : Nat)
    (start : TableRace F ℕ K V H E) (s : RecordRace F ℕ K V H E) (freed : Multiset Node) : Prop where
  nodup : (freed + s.epoche.waiting).Nodup
  record : ∀ n, .record n ∈ freed → ¬ s.table.Alive L bucketCountShift n
  array : ∀ bi array, .array bi array ∈ freed → array < (s.table.buckets bi).current
  records : ∀ n, start.Alive L bucketCountShift n →
    s.table.Alive L bucketCountShift n ∨ .record n ∈ freed + s.epoche.waiting
  arrays : ∀ bi, ∀ array < (s.table.buckets bi).current,
    s.table.Replacing L bucketCountShift bi array ∨ .array bi array ∈ freed + s.epoche.waiting
  destroyed : (∀ t ∈ s.epoche.created,
      s.epoche.phase t = .idle ∧ (s.epoche.deletionLists t).localEpoche = ⊤) →
    ∃ rest, s.epoche.destroy = some rest ∧ (rest : Multiset Node) = s.epoche.waiting

/-- Any number of threads run `Put`, `Find` and `Delete`. No record and no array is freed twice, or
before it has left the table, and none is lost. -/
theorem retired_once {s : RecordRace F ℕ K V H E}
    {steps : List (RecordRace F ℕ K V H E × RecordAction F ℕ K V H E)} {puts startGCThreshhold : ℕ}
    {buckets : Nat → Bucket F H E} (records : L.HasRecords) (entry : L.PointsByEntry)
    (stocked : TableRace.Stocked L bucketCountShift buckets puts)
    (run : Run (next L kCellCountLimit bucketCountShift isKeyFlat)
      (.start buckets puts startGCThreshhold) steps s)
    (valid : ∀ p ∈ steps, p.1.DeletesValid L bucketCountShift p.2) :
    RetiredOnce L bucketCountShift (.start buckets puts) s
      (Epoche.ran (protocolSteps L bucketCountShift steps)) := by
  have accounted := Accounted.of_run records entry stocked run valid
  obtain ⟨balance, tidy⟩ := Epoche.waiting_run (protocol_run run)
  have nodup := accounted.nodup
  have all : Epoche.ran (protocolSteps L bucketCountShift steps) + s.epoche.waiting =
      Epoche.marked (protocolSteps L bucketCountShift steps) := by rw [add_comm, balance]
  have was_marked : ∀ node ∈ Epoche.ran (protocolSteps L bucketCountShift steps),
      node ∈ Epoche.marked (protocolSteps L bucketCountShift steps) :=
    fun node mem => all ▸ Multiset.mem_add.mpr (Or.inl mem)
  rw [← all] at nodup
  refine ⟨nodup, fun n mem alive => ?_, fun bi array mem => ?_, fun n began => ?_,
    fun bi array less => ?_, tidy.destroy⟩
  · -- what has not left the table waits
    obtain ⟨t, retiring⟩ := accounted.leaves n (was_marked _ mem) alive
    have working : s.epoche.Working t := by
      obtain ⟨key, writing, -⟩ := retiring
      refine accounted.working t ?_
      rw [writing]
      exact Option.some_ne_none key
    have waits := Multiset.mem_of_le (Epoche.waitingIn_le_waiting tidy working)
      (accounted.retiring t n retiring)
    exact Multiset.disjoint_left.mp (Multiset.nodup_add.mp nodup).2.2 mem waits
  · exact ((accounted.arrays bi array).mp (was_marked _ mem)).1
  · rw [all]
    exact accounted.kept n began
  · rw [all, accounted.arrays]
    by_cases replacing : s.table.Replacing L bucketCountShift bi array
    · exact Or.inl replacing
    · exact Or.inr ⟨less, replacing⟩

/-- Thread 0 updates a key and frees the old record, while thread 1 is still in its `Find`. -/
theorem retired_once_updated : ∃ s steps,
    Run nextTwoThreads (.start (fun _ => zeroedBucket) 0 0) steps s ∧
      (s.epoche.deletionLists 0).deleted = 1 ∧
        RetiredOnce DeleteRace.recordLayout 1 (.start (fun _ => zeroedBucket) 0) s
          (Epoche.ran (protocolSteps DeleteRace.recordLayout 1 steps)) := by
  have ran : (execute (guarded nextTwoThreads fun s a => s.DeletesValid DeleteRace.recordLayout 1 a)
      (.start (fun _ => zeroedBucket) 0 0) (listBoth ++ insertWhole 0 7 ++ updateWhole 0 7 ++
        findWhole 1 7 ++ scanBoth 0 ++ [.protocol (.sweep 0), .protocol (.sweep 0)])).map
        (fun s => (s.epoche.deletionLists 0).deleted) = some 1 := by
    decide +kernel
  obtain ⟨s, executed, deleted⟩ := Option.map_eq_some_iff.mp ran
  obtain ⟨steps, run, meets⟩ := exists_run_of_guarded executed
  exact ⟨s, steps, run, deleted, retired_once (flatKeyLayout_hasRecords hashInt id)
    (flatKeyLayout_pointsByEntry hashInt id) (.of_zero 0 fun _ _ => rfl) run meets⟩

end RecordRace

end TurboHash
