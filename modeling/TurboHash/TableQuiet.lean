import TurboHash.TableLookup
import TurboHash.WholeTable

/-!
# The table that the threads leave

Whatever the threads do, the buckets are those of a table: an entry is in the bucket of its key, on
its probe path, and no key is there twice. So one thread can go on with the table once the others have
returned, and `IterateAllCallback` visits each binding once.
-/

namespace TurboHash

open Simulation Transition

variable {F : CellFormat} {τ K V H E : Type}

/-! ## The entries of a table that holds a map -/

namespace Table

/-- The entries are those of the bindings, each once. -/
structure Lists (L : SlotLayout K V H E) (infos : List (InfoPair H E)) (m : K → Option V) : Prop where
  bound : ∀ info ∈ infos, ∃ key value, info.hashSlot = L.slotOf key value ∧ m key = some value
  once : ∀ key value, m key = some value → ∃ before info after, infos = before ++ info :: after ∧
    info.hashSlot = L.slotOf key value ∧
      ∀ other ∈ before ++ after, ∀ value', other.hashSlot ≠ L.slotOf key value'

variable {L : SlotLayout K V H E} {t : Table F H E} {m : K → Option V}

theorem nodup_liveEntries (accepted : t.bucketCountShift < 32) : t.liveEntries.Nodup := by
  rw [liveEntries, List.nodup_flatMap]
  refine ⟨fun i mem => ?_, ?_⟩
  · rw [← liveInfos_eq accepted (List.mem_range.mp mem)]
    exact nodup_liveInfos i _
  · refine List.nodup_range.imp_of_mem fun {i j} here there different => ?_
    simp only [Function.onFun]
    intro info mem mem'
    rw [← liveInfos_eq accepted (List.mem_range.mp here), Bucket.liveInfos] at mem
    rw [← liveInfos_eq accepted (List.mem_range.mp there), Bucket.liveInfos] at mem'
    obtain ⟨c, -, mem⟩ := List.mem_flatMap.mp mem
    obtain ⟨c', -, mem'⟩ := List.mem_flatMap.mp mem'
    obtain ⟨s, -, -, rfl⟩ := WordIterator.mem_cellInfos.mp mem
    obtain ⟨s', -, -, same⟩ := WordIterator.mem_cellInfos.mp mem'
    exact different (congrArg (fun info => info.slotInfo.bucket) same).symm

/-- The entries are those of the live slots. -/
theorem mem_liveEntries (accepted : t.bucketCountShift < 32) (valid : t.Valid L)
    {info : InfoPair H E} : info ∈ t.liveEntries ↔
      ∃ p, t.LiveAt p ∧ info = infoAt p.1 (t.buckets p.1).cells p.2.1 p.2.2 := by
  rw [liveEntries, List.mem_flatMap]
  constructor
  · intro mem
    obtain ⟨i, inTable, mem⟩ := mem
    have inside := List.mem_range.mp inTable
    rw [← liveInfos_eq accepted inside, mem_liveInfos (valid.placed i inside).wf] at mem
    obtain ⟨c, within, s, alive, same⟩ := mem
    exact ⟨(i, c, s), ⟨inside, within, alive⟩, same⟩
  · intro live
    obtain ⟨⟨i, c, s⟩, ⟨inside, within, alive⟩, same⟩ := live
    refine ⟨i, List.mem_range.mpr inside, ?_⟩
    rw [← liveInfos_eq accepted inside, mem_liveInfos (valid.placed i inside).wf]
    exact ⟨c, within, s, alive, same⟩

theorem Refines.lists (refines : t.Refines L m) (accepted : t.bucketCountShift < 32) :
    Lists L t.liveEntries m := by
  have represents := refines.represents
  refine ⟨fun info mem => ?_, fun key value bound => ?_⟩
  · obtain ⟨p, alive, rfl⟩ := (mem_liveEntries accepted refines.valid).mp mem
    obtain ⟨key, value, ⟨-, -, -, stored⟩, bound⟩ := represents.bound p alive
    exact ⟨key, value, stored, bound⟩
  · obtain ⟨p, ⟨inTable, inside, alive, stored⟩, alone⟩ := represents.once key value bound
    have mem := (mem_liveEntries accepted refines.valid).mpr ⟨p, ⟨inTable, inside, alive⟩, rfl⟩
    obtain ⟨before, after, split⟩ := List.append_of_mem mem
    refine ⟨before, _, after, split, stored, fun other elsewhere value' same => ?_⟩
    have nodup := nodup_liveEntries accepted (t := t)
    rw [split, List.nodup_middle, List.nodup_cons] at nodup
    have listed : other ∈ t.liveEntries := by
      rw [split]
      rcases List.mem_append.mp elsewhere with front | back
      · exact List.mem_append_left _ front
      · exact List.mem_append_right _ (List.mem_cons_of_mem _ back)
    obtain ⟨p', alive', rfl⟩ := (mem_liveEntries accepted refines.valid).mp listed
    obtain ⟨key', value'', holds, bound'⟩ := represents.bound p' alive'
    obtain ⟨rfl, -⟩ := L.slotOf_inj (holds.2.2.2.symm.trans same)
    cases bound.symm.trans bound'
    obtain rfl := alone p' holds
    exact nodup.1 elsewhere

/-- `IterateAllCallback` visits the bindings, where no bucket has more cells than the limit. -/
theorem Refines.iterates (refines : t.Refines L m) (accepted : t.bucketCountShift < 32)
    (small : ∀ i < t.bucketCount, (t.buckets i).cellCount ≤ kTurboCellCountLimit) :
    ∃ infos, t.iterateAllCallback = some infos ∧ Lists L infos m := by
  refine ⟨_, (visits_iff accepted).mpr fun i inside c within => ?_, refines.lists accepted⟩
  have few : (t.buckets i).memory.cellCount ≤ 2 ^ 15 := small i inside
  have offsets : 2 ^ 15 ≤ F.offsetCells := by
    have shift := F.cellSizeLeftShift_le
    exact Nat.pow_le_pow_right (by decide) (by omega)
  exact WordIterator.seesCell_of_le (few.trans_lt (by decide)) (few.trans offsets) within

end Table

/-! ## The table of the threads -/

namespace FindRace

variable {L : SlotLayout K (Nat × V) H E} {r r' : FindRace F K (Nat × V) H E}

/-- A key that the holder of the lock does not write stays bound as it is. -/
theorem Evolves.binds_iff (evolves : r.Evolves L r') {key : K} {value : Nat × V}
    (other : r.holder.key ≠ some key) :
    r'.bucket.Binds L key value ↔ r.bucket.Binds L key value := by
  rcases Nat.eq_or_lt_of_le evolves.current_le with same | new
  · rw [bucket, ← same]
    exact (evolves.spares key other r.current le_rfl).binds_iff
  · exact evolves.fresh r'.current new le_rfl key value

theorem cellCount_of_rehash {kCellCountLimit bi : Nat} {isgc : Bool} {memory : Nat → Cell F H E}
    (taken : r.rehash L kCellCountLimit bi isgc memory = some r') :
    r'.bucket.cellCount ≤ kCellCountLimit := by
  rw [FindRace.rehash] at taken
  split at taken
  case isTrue => cases taken
  case isFalse small =>
    split at taken <;> cases taken
    case h_1 bucket count built =>
      obtain ⟨placed, rehashed, -⟩ := Bucket.rehash_disp_lt_iff (k := 0) built
      rw [FindRace.bucket, Bucket.cellCount]
      simp only [Function.update_self, rehashed.shift_eq]
      omega

end FindRace

namespace TableRace

variable {L : SlotLayout K (Nat × V) H E} {kCellCountLimit bucketCountShift : Nat}
  {s s' : TableRace F τ K V H E} {t : τ}

/-- The buckets and a value of `capacity_` are a table. -/
def whole (bucketCountShift : Nat) (capacity : UInt64) (s : TableRace F τ K V H E) : Table F H E :=
  ⟨bucketCountShift, fun bi => (s.buckets bi).bucket, capacity⟩

/-- Every entry is in the bucket of its key. -/
def Homed (L : SlotLayout K (Nat × V) H E) (bucketCountShift : Nat) (s : TableRace F τ K V H E) :
    Prop :=
  ∀ bi < 2 ^ bucketCountShift, ∀ key value, (s.buckets bi).bucket.Binds L key value →
    bucketOf L bucketCountShift key = bi

/-- No bucket has more cells than the limit. -/
def Small (bucketCountShift : Nat) (s : TableRace F τ K V H E) : Prop :=
  ∀ bi < 2 ^ bucketCountShift, (s.buckets bi).bucket.cellCount ≤ kTurboCellCountLimit

theorem Small.update (small : s.Small bucketCountShift) {bi : Nat} {b : FindRace F K (Nat × V) H E}
    (few : b.bucket.cellCount ≤ (s.buckets bi).bucket.cellCount ∨
      b.bucket.cellCount ≤ kTurboCellCountLimit)
    (same : s'.buckets = Function.update s.buckets bi b) : s'.Small bucketCountShift := by
  intro bi' inside
  rw [same, Function.update_apply]
  split
  case isTrue here =>
    subst here
    exact few.elim (fun fewer => fewer.trans (small bi' inside)) id
  case isFalse => exact small bi' inside

variable [DecidableEq H]

/-- The holder of a lock writes a key of its bucket. -/
theorem Orderly.key_of_holder (orderly : s.Orderly L bucketCountShift) {bi : Nat}
    (inside : bi < 2 ^ bucketCountShift) {key : K} (writes : (s.buckets bi).holder.key = some key) :
    bucketOf L bucketCountShift key = bi := by
  rcases orderly.holder bi inside with free | ⟨t, key', marked, writing, same⟩
  · rw [free] at writes
    cases writes
  · have own := orderly.writing t key' marked writing
    rw [same, writes] at own
    cases own
    exact same

theorem Homed.step (homed : s.Homed L bucketCountShift) (orderly : s.Orderly L bucketCountShift)
    (evolves : ∀ bi < 2 ^ bucketCountShift, (s.buckets bi).Evolves L (s'.buckets bi)) :
    s'.Homed L bucketCountShift := by
  intro bi inside key value binds
  by_contra elsewhere
  have other : (s.buckets bi).holder.key ≠ some key :=
    fun writes => elsewhere (orderly.key_of_holder inside writes)
  exact elsewhere (homed bi inside key value (((evolves bi inside).binds_iff other).mp binds))

/-- The buckets are those of a table that holds the map. -/
theorem Homed.refines [DecidableEq K] (homed : s.Homed L bucketCountShift)
    (orderly : s.Orderly L bucketCountShift) {m : K → Option V}
    (refines : s.Refines L bucketCountShift m) (capacity : UInt64) :
    ∃ m' : K → Option (Nat × V), (∀ key, (m' key).map Prod.snd = m key) ∧
      (s.whole bucketCountShift capacity).Refines L m' := by
  have sound := fun key => orderly.buckets _ (bucketOf_lt L bucketCountShift key)
  choose m' binds using fun key => FindRace.exists_binding (sound key).holder.placed key
  refine ⟨m', fun key => ?_, ⟨fun bi inside => (orderly.buckets bi inside).holder.placed, homed⟩,
    binds⟩
  refine Option.ext fun value => ?_
  rw [← refines key value, TableRace.Binds, Option.map_eq_some_iff]
  simp only [binds, Prod.exists, exists_eq_right]

end TableRace

/-! ## The runs -/

namespace RecordRace

variable [DecidableEq τ] [DecidableEq K] [DecidableEq H] {L : SlotLayout K (Nat × V) H E}
  {kCellCountLimit bucketCountShift : Nat} {isKeyFlat : Bool} {s s' : RecordRace F τ K V H E}
  {a : RecordAction F τ K V H E} {m : K → Option V}

/-- The operation that takes effect with the step, as the version word of a slot is stored. -/
def takesEffect (L : SlotLayout K (Nat × V) H E) (bucketCountShift : Nat)
    (s : RecordRace F τ K V H E) : RecordAction F τ K V H E → Option (MapOp K V)
  | .store t => s.table.commits L bucketCountShift t
  | _ => none

/-- The buckets are those of a table that holds the map. -/
structure Keeps (L : SlotLayout K (Nat × V) H E) (bucketCountShift : Nat)
    (s : RecordRace F τ K V H E) (m : K → Option V) : Prop where
  orderly : s.table.Orderly L bucketCountShift
  homed : s.table.Homed L bucketCountShift
  small : s.table.Small bucketCountShift
  refines : s.table.Refines L bucketCountShift m

omit [DecidableEq K] in
theorem small_of_moves (limit : kCellCountLimit ≤ kTurboCellCountLimit)
    (small : s.table.Small bucketCountShift) {table : TableRace F τ K V H E}
    (moves : s.Moves L kCellCountLimit bucketCountShift a table) : table.Small bucketCountShift := by
  cases moves with
  | begin | finish | add | protocol => exact small
  | load loaded =>
    rcases TableRace.load_cases loaded with ⟨key, call, call', -, -, rfl⟩ | ⟨key, call, -, next⟩
    · exact small
    · rcases next with rfl | ⟨call', -, rfl⟩ <;> exact small
  | lock locked =>
    cases TableRace.lock_cases locked with
    | put | delete =>
      refine small.update ?_ rfl
      exact Or.inl le_rfl
    | rehash _ _ _ _ rehashed =>
      exact small.update (Or.inr ((FindRace.cellCount_of_rehash rehashed).trans limit)) rfl
    | goOn => exact small
  | store stored =>
    obtain ⟨key, marked, bucket, holder, -, -, store, rfl⟩ := TableRace.store_cases stored
    refine small.update (Or.inl (Nat.pow_le_pow_right two_pos ?_)) rfl
    exact (FindRace.shift_of_setBucket store _).le
  | mark marked =>
    simp only [TableRace.mark] at marked
    split at marked
    case h_1 =>
      obtain ⟨n, -, same⟩ := Option.map_eq_some_iff.mp marked
      cases same
      exact small
    case h_2 =>
      cases marked
      exact small
    case h_3 => cases marked
  | unlock unlocked =>
    obtain ⟨same, -⟩ := TableRace.calls_of_unlock unlocked
    intro bi inside
    rw [same]
    exact small bi inside

/-- The map changes with the operations that take effect, and with nothing else. -/
theorem Keeps.step (limit : kCellCountLimit ≤ kTurboCellCountLimit)
    (keeps : s.Keeps L bucketCountShift m) (owns : s.LocksOwn L bucketCountShift a)
    (taken : s.next L kCellCountLimit bucketCountShift isKeyFlat a = some s') :
    (s.takesEffect L bucketCountShift a).elim (s'.Keeps L bucketCountShift m) fun op =>
      ∃ m', op.effect m = some m' ∧ s'.Keeps L bucketCountShift m' := by
  obtain ⟨orderly, evolves⟩ := orderly_of_next keeps.orderly owns taken
  have homed := keeps.homed.step keeps.orderly evolves
  have moves := moves_of_next taken
  have small := small_of_moves limit keeps.small moves
  have refined : (s.takesEffect L bucketCountShift a).elim
      (s'.table.Refines L bucketCountShift m) fun op =>
        ∃ m', op.effect m = some m' ∧ s'.table.Refines L bucketCountShift m' := by
    generalize s'.table = table at moves ⊢
    cases moves with
    | begin | finish | add | protocol => exact keeps.refines
    | load loaded => exact (TableRace.Proceeds.load keeps.orderly loaded).refines m keeps.refines
    | lock locked =>
      exact (TableRace.Proceeds.lockBucket keeps.orderly owns locked).refines m keeps.refines
    | store stored => exact (TableRace.Proceeds.store keeps.orderly stored).refines m keeps.refines
    | mark marked => exact (TableRace.Proceeds.mark keeps.orderly marked).refines m keeps.refines
    | unlock unlocked =>
      exact (TableRace.Proceeds.unlock keeps.orderly unlocked).refines m keeps.refines
  cases effect : s.takesEffect L bucketCountShift a with
  | none =>
    rw [effect] at refined
    exact ⟨orderly, homed, small, refined⟩
  | some op =>
    rw [effect] at refined
    obtain ⟨m', changed, refines⟩ := refined
    exact ⟨m', changed, orderly, homed, small, refines⟩

theorem Keeps.of_run (limit : kCellCountLimit ≤ kTurboCellCountLimit) {s₀ : RecordRace F τ K V H E}
    (start : s₀.Keeps L bucketCountShift m)
    {steps : List (RecordRace F τ K V H E × RecordAction F τ K V H E)}
    (run : Run (next L kCellCountLimit bucketCountShift isKeyFlat) s₀ steps s)
    (owns : ∀ p ∈ steps, p.1.LocksOwn L bucketCountShift p.2) :
    ∃ m', (steps.filterMap fun p => p.1.takesEffect L bucketCountShift p.2).foldlM MapOp.effect m =
      some m' ∧ s.Keeps L bucketCountShift m' := by
  refine run.history (G := fun s a => s.LocksOwn L bucketCountShift a)
    (I := fun steps s => ∃ m', (steps.filterMap fun p =>
      p.1.takesEffect L bucketCountShift p.2).foldlM MapOp.effect m = some m' ∧
        s.Keeps L bucketCountShift m') ?_ owns ⟨m, rfl, start⟩
  intro steps s a s' kept owns taken
  obtain ⟨m', sequential, keeps⟩ := kept
  have step := keeps.step limit owns taken
  rw [List.filterMap_append, List.foldlM_append, sequential]
  cases effect : s.takesEffect L bucketCountShift a with
  | none =>
    rw [effect] at step
    exact ⟨m', by simp [effect], step⟩
  | some op =>
    rw [effect] at step
    obtain ⟨m'', changed, keeps'⟩ := step
    exact ⟨m'', by simp [effect, changed], keeps'⟩

omit [DecidableEq τ] [DecidableEq K] in
theorem Keeps.start {t₀ : Table F H E} {m₀ : K → Option (Nat × V)} (refines : t₀.Refines L m₀)
    (small : ∀ i < t₀.bucketCount, (t₀.buckets i).cellCount ≤ kTurboCellCountLimit)
    (puts startGCThreshhold : Nat) :
    (start t₀.buckets puts startGCThreshhold : RecordRace F τ K V H E).Keeps L t₀.bucketCountShift
      fun key => (m₀ key).map Prod.snd where
  orderly := .start puts refines.valid.placed
  homed := refines.valid.home
  small := small
  refines key value := by
    rw [Option.map_eq_some_iff]
    constructor
    · intro binds
      obtain ⟨n, binds⟩ := binds
      exact ⟨(n, value), (refines.binds key _).mp binds, rfl⟩
    · intro bound
      obtain ⟨⟨n, value⟩, bound, rfl⟩ := bound
      exact ⟨n, (refines.binds key _).mpr bound⟩

/-- The threads leave a table that holds what the operations have made of the map, one after the
other, and `IterateAllCallback` visits its bindings, each once. -/
theorem leaves_table {t₀ : Table F H E} {m₀ : K → Option (Nat × V)} (refines : t₀.Refines L m₀)
    (accepted : t₀.bucketCountShift < 32) (limit : kCellCountLimit ≤ kTurboCellCountLimit)
    (small : ∀ i < t₀.bucketCount, (t₀.buckets i).cellCount ≤ kTurboCellCountLimit)
    {puts startGCThreshhold : Nat}
    {steps : List (RecordRace F τ K V H E × RecordAction F τ K V H E)}
    (run : Run (next L kCellCountLimit t₀.bucketCountShift isKeyFlat)
      (.start t₀.buckets puts startGCThreshhold) steps s)
    (owns : ∀ p ∈ steps, p.1.LocksOwn L t₀.bucketCountShift p.2) (capacity : UInt64) :
    ∃ m m', (steps.filterMap fun p => p.1.takesEffect L t₀.bucketCountShift p.2).foldlM MapOp.effect
        (fun key => (m₀ key).map Prod.snd) = some m ∧ (∀ key, (m' key).map Prod.snd = m key) ∧
      let t := s.table.whole t₀.bucketCountShift capacity
      t.Refines L m' ∧ ∃ infos, t.iterateAllCallback = some infos ∧ Table.Lists L infos m' := by
  obtain ⟨m, sequential, keeps⟩ := Keeps.of_run limit (.start refines small puts startGCThreshhold)
    run owns
  obtain ⟨m', numbers, refines'⟩ := keeps.homed.refines keeps.orderly keeps.refines capacity
  exact ⟨m, m', sequential, numbers, refines', refines'.iterates accepted keeps.small⟩

/-- Thread 0 leaves six keys in the bucket it has replaced, without the one that thread 1 deletes. -/
theorem leaves_table_rehashed : ∃ s steps m m' infos,
    Run nextTwoThreads (.start (fun _ => zeroedBucket) 0 256) steps s ∧
      (s.table.buckets 0).current = 1 ∧ infos.length = 6 ∧
        (steps.filterMap fun p => p.1.takesEffect DeleteRace.recordLayout 1 p.2).foldlM
          MapOp.effect (fun _ => none) = some m ∧ (∀ key, (m' key).map Prod.snd = m key) ∧
            (s.table.whole 1 0).iterateAllCallback = some infos ∧
              Table.Lists DeleteRace.recordLayout infos m' := by
  have ran : (execute (guarded nextTwoThreads fun s a => s.LocksOwn DeleteRace.recordLayout 1 a)
      (.start (fun _ => zeroedBucket) 0 256) (listBoth ++ [7, 0, 1, 2, 6, 11].flatMap (insertWhole 0) ++
        searchSlot 1 7 ++ growWhole 0 12 ++ deleteAgain 1)).map
        (fun s => ((s.table.buckets 0).current,
          (s.table.whole 1 0).iterateAllCallback.map List.length)) = some (1, some 6) := by
    decide +kernel
  obtain ⟨s, executed, facts⟩ := Option.map_eq_some_iff.mp ran
  obtain ⟨current, six⟩ := Prod.mk.inj facts
  obtain ⟨steps, run, owns⟩ := exists_run_of_guarded executed
  have empty : (⟨1, fun _ => zeroedBucket, 0⟩ : Table cellMeta128 UInt64
      (Option (UInt64 × Nat × Nat))).Refines DeleteRace.recordLayout fun _ => none :=
    .of_zeroed fun _ _ _ _ => rfl
  obtain ⟨m, m', sequential, numbers, -, infos, visits, lists⟩ := leaves_table empty (by decide) le_rfl
    (fun _ _ => show 2 ^ 0 ≤ 32768 by decide) run owns 0
  rw [visits] at six
  exact ⟨s, steps, m, m', infos, run, current, Option.some.inj six, sequential, numbers, visits, lists⟩

end RecordRace

end TurboHash
