import TurboHash.PmemAtomic

/-!
# Crashes of a table with flat keys and values

A flat value lies in the slot itself, so a `Put` has no record to write back, and every
`Put` and `Delete` is atomic under crashes. What can fail is what the puts start from:
`Initialize` does not write a bucket of 2 GiB back, because `TURBO_PMEM_CLFLUSH` takes
its length as an `int`, and `BucketMetaPmem::Store` flushes the line of `cur_ver_` only,
not the one its pointer may lie on.
-/

namespace TurboHash.Pmem

open LineMemory

section Flat

variable {K V : Type} [Inhabited K] [Inhabited V]

/-- `SlotRecord<T1, true, true>`: the second word is the value. -/
def flatFormat (keyToHash toSizeT : K → UInt64) :
    RecordFormat (flatLayout keyToHash toSizeT : SlotLayout K V K V) where
  Word := V
  zeroWord := default
  word value _ := value
  encode _ _ := none
  resolve _ word := word
  extent _ _ := (0, 0)
  resolve_word _ _ _ _ _ _ := rfl
  extent_word _ _ _ _ _ encoded := by cases encoded

/-- The persistent table with flat keys and values. -/
def flatSetup (keyToHash toSizeT : K → UInt64) (kCellCountLimit : Nat)
    (limit_le : kCellCountLimit ≤ kTurboCellCountLimit) (metaWord : Nat)
    (heap₀ : Content (Loc.Val K V)) (uninit : Nat → Cell cellMeta256V2 K V) : Setup K V K V where
  params := ⟨flatLayout keyToHash toSizeT, kCellCountLimit, limit_le,
    fun _ _ _ => Table.zeroCell (flatLayout keyToHash toSizeT)⟩
  format := flatFormat keyToHash toSizeT
  metaWord := metaWord
  heap₀ := heap₀
  uninit := uninit

variable [DecidableEq K] {keyToHash toSizeT : K → UInt64} {kCellCountLimit : Nat}
  {limit_le : kCellCountLimit ≤ kTurboCellCountLimit} {metaWord : Nat}
  {heap₀ : Content (Loc.Val K V)} {uninit : Nat → Cell cellMeta256V2 K V}

/-- Put and Delete are atomic under crashes in every table whose buckets start with less
than 2 GiB and whose bucket pointers lie on the lines that are flushed. -/
theorem flat_table_crash_atomic {bucketCount cellCount : UInt32}
    {s₀ s : Machine (flatSetup keyToHash toSizeT kCellCountLimit limit_le metaWord heap₀ uninit)}
    {steps : List (Machine (flatSetup keyToHash toSizeT kCellCountLimit limit_le metaWord heap₀
      uninit) × Action K V)}
    (fresh : (flatSetup keyToHash toSizeT kCellCountLimit limit_le metaWord heap₀
      uninit).initTable bucketCount cellCount = some s₀)
    (small : cellCount.toNat * cellMeta256V2.cellSize < 2 ^ 31)
    (lastOnLine : (flatSetup keyToHash toSizeT kCellCountLimit limit_le metaWord heap₀
      uninit).LastOnLine bucketCount.toNat)
    (run : Transition.Run Machine.next s₀ steps s) (meets : ∀ p ∈ steps, p.1.Meets p.2) :
    (s.todo = [] → s.before = s.after) ∧ ∀ keep, s.Recovers keep fun t =>
      (∀ i < t.bucketCount, (t.buckets i).WellFormed (flatLayout keyToHash toSizeT)) ∧
        (t.Agrees s.before.table ∨ t.Agrees s.after.table) ∧
        ((∀ p ∈ steps, p.1.Near p.2) →
          t.Refines (flatLayout keyToHash toSizeT) s.before.map ∨
            t.Refines (flatLayout keyToHash toSizeT) s.after.map) := by
  refine Machine.crash_atomic fresh small lastOnLine run (fun p _ => ?_) meets
  unfold Machine.Promised
  split
  case h_1 => exact fun bytes encoded => by cases encoded
  case h_2 => trivial

end Flat

/-! ## Concrete tables -/

/-- A table of 64-bit keys and values. -/
def wordSetup (heap₀ : Content (Loc.Val UInt64 UInt64)) : Setup UInt64 UInt64 UInt64 UInt64 :=
  flatSetup hashInt id kTurboCellCountLimit le_rfl 0 heap₀
    fun _ => Table.zeroCell (flatLayout hashInt id)

/-- A heap that an earlier table has used: its cells have a live slot, its metas point
to a region that is not in use. -/
def usedHeap : Content (Loc.Val UInt64 UInt64)
  | .ver _ _ => ⟨4, 0, 1⟩
  | .tag _ _ _ => (0 : UInt8)
  | .h1 _ _ _ => (7 : UInt64)
  | .entry _ _ _ => (1 : UInt64)
  | .curVer _ => (0 : UInt8)
  | .cellCountLeftshift _ _ => (0 : Nat)
  | .bucketPtr _ _ => (99 : Nat)
  | .byte _ => (0 : UInt8)

/-- A put, a crash in the middle of an update, another put and a deletion. -/
def updateAndCrash : List (Action UInt64 UInt64) :=
  [.put 7 1 0, .step, .step, .step, .step, .step, .step, .step, .step,
    .put 7 2 0, .step, .step, .step, .step, .step, .step, .crash fun _ => 1,
    .put 8 1 0, .step, .step, .step, .step, .step, .step, .step, .step, .delete 7, .step]

theorem flat_table_crash_atomic_update :
    ∃ (s₀ s : Machine (wordSetup usedHeap)) (steps : List (Machine (wordSetup usedHeap) ×
        Action UInt64 UInt64)),
      (wordSetup usedHeap).initTable 2 2 = some s₀ ∧ Transition.Run Machine.next s₀ steps s ∧
        (s.before.map 7, s.after.map 7) = (some 2, none) ∧ ∀ keep, s.Recovers keep fun t =>
          t.Agrees s.before.table ∨ t.Agrees s.after.table := by
  have ran : ((wordSetup usedHeap).initTable 2 2).bind (fun s₀ =>
      (Transition.execute Machine.next s₀ updateAndCrash).map fun s =>
        (s.before.map 7, s.after.map 7)) = some (some 2, none) := by decide +kernel
  obtain ⟨s₀, fresh, rest⟩ := Option.bind_eq_some_iff.mp ran
  obtain ⟨s, executed, maps⟩ := Option.map_eq_some_iff.mp rest
  obtain ⟨steps, run, actions⟩ := Transition.exists_run_of_execute executed
  have plain : ∀ a ∈ updateAndCrash, ∀ s : Machine (wordSetup usedHeap), s.Meets a := by
    simp [updateAndCrash, Machine.Meets, wordSetup, flatSetup, flatFormat]
  have meets : ∀ p ∈ steps, p.1.Meets p.2 := fun p mem =>
    plain p.2 (actions ▸ List.mem_map_of_mem mem) p.1
  refine ⟨s₀, s, steps, fresh, run, maps, fun keep => ?_⟩
  obtain ⟨buckets', found, -, agrees, -⟩ :=
    (flat_table_crash_atomic fresh (by decide) rfl run meets).2 keep
  exact ⟨buckets', found, agrees⟩

/-! ## What is not written back -/

/-- The version word that `Recover` finds for a cell when every line keeps only what has
surely been written back. -/
def durableVersion (s : Machine (wordSetup usedHeap)) (bi c : Nat) :
    Option (Version cellMeta256V2) :=
  (Setup.recover _ (s.image fun _ => 0) s.bucketCount).map fun buckets' =>
    ((((wordSetup usedHeap).table (s.image fun _ => 0) s.bucketCountShift buckets').buckets
      bi).cells c).ver

/-- The recovered version word is neither the one before nor the one after. -/
def Lost (s : Machine (wordSetup usedHeap)) (bi c : Nat) : Prop :=
  ∀ t ∈ [s.before.table, s.after.table], bi < t.bucketCount ∧ c < (t.buckets bi).cellCount ∧
    durableVersion s bi c ≠ some ((t.buckets bi).cells c).ver

instance (s : Machine (wordSetup usedHeap)) (bi c : Nat) : Decidable (Lost s bi c) :=
  inferInstanceAs (Decidable (∀ t ∈ [s.before.table, s.after.table], _))

theorem not_recovers_of_lost {s : Machine (wordSetup usedHeap)} {bi c : Nat} (lost : Lost s bi c) :
    ¬ s.Recovers (fun _ => 0) fun t => t.Agrees s.before.table ∨ t.Agrees s.after.table := by
  apply s.not_recovers_agrees
  rintro t mem ⟨buckets', recovered, agrees⟩
  obtain ⟨bucket, cell, other⟩ := lost t mem
  apply other
  rw [durableVersion, recovered, Option.map_some]
  exact congrArg some ((agrees.buckets bi bucket).cells c cell).ver

/-- What a crash leaves of `Initialize` with one bucket of 2 GiB, and of a rehash whose
bucket pointer is the first word of a line. -/
theorem flat_table_not_crash_atomic :
    (∃ s : Machine (wordSetup usedHeap), (wordSetup usedHeap).initTable 1 8388608 = some s ∧
      ¬ s.Recovers (fun _ => 0) fun t => t.Agrees s.before.table ∨ t.Agrees s.after.table) ∧
    ∃ s₀ s : Machine (wordSetup usedHeap), (wordSetup usedHeap).initTable 4 1 = some s₀ ∧
      Transition.execute Machine.next s₀ [.rehash 2 true 9] = some s ∧
      ¬ s.Recovers (fun _ => 0) fun t => t.Agrees s.before.table ∨ t.Agrees s.after.table := by
  constructor
  · have lost : ((wordSetup usedHeap).initTable 1 8388608).map (fun s => decide (Lost s 0 0)) =
        some true := by decide +kernel
    obtain ⟨s, fresh, lost⟩ := Option.map_eq_some_iff.mp lost
    exact ⟨s, fresh, not_recovers_of_lost (of_decide_eq_true lost)⟩
  · have lost : ((wordSetup usedHeap).initTable 4 1).bind (fun s₀ =>
        (Transition.execute Machine.next s₀ [.rehash 2 true 9]).map fun s =>
          decide (Lost s 2 0)) = some true := by decide +kernel
    obtain ⟨s₀, fresh, rest⟩ := Option.bind_eq_some_iff.mp lost
    obtain ⟨s, ran, lost⟩ := Option.map_eq_some_iff.mp rest
    exact ⟨s₀, s, fresh, ran, not_recovers_of_lost (of_decide_eq_true lost)⟩

end TurboHash.Pmem
