import TurboHash.TableHistory
import TurboHash.TableSteps

/-!
# A lookup among the threads of a table

While no thread holds the lock to write its key, a `Find` returns what the table binds the key to, no
matter what the other threads store meanwhile and how often they replace the array of its bucket. It
has to walk the path of the array it searches.
-/

namespace TurboHash

open Simulation Transition

variable {F : CellFormat} {τ K V H E : Type} {L : SlotLayout K (Nat × V) H E} {bi first : Nat}
  {key : K}

/-! ## The bucket of the key -/

namespace FindRace

variable [DecidableEq H] {value? : Option (Nat × V)} {r r' : FindRace F K (Nat × V) H E}

omit [DecidableEq H] in
theorem Evolves.setCall (evolves : r.Evolves L r') (call call' : FindCall F H E) :
    Evolves L { r with call } { r' with call := call' } :=
  ⟨evolves.current_le, evolves.spares, evolves.fresh⟩

omit [DecidableEq H] in
/-- A step at the bucket leaves the lookup with what it knows. -/
theorem Answers.evolve (answers : r.Answers L bi key value? first) (sound : r'.Sound L bi)
    (evolves : r.Evolves L r') (call : r'.call = r.call) (quiet : r.holder.key ≠ some key) :
    r'.Answers L bi key value? first where
  sound := sound
  published array here := by
    obtain ⟨le, le'⟩ := answers.published array (call ▸ here)
    exact ⟨le, le'.trans evolves.current_le⟩
  binds array le le' value := by
    rcases Nat.lt_or_ge r.current array with new | old
    · rw [evolves.fresh array new le' key value]
      exact answers.binds r.current answers.first_le le_rfl value
    · rw [(evolves.spares key quiet array old).binds_iff]
      exact answers.binds array le old value
  call := by
    rw [call]
    exact answers.call.spares fun array here =>
      evolves.spares key quiet array (answers.published array here).2
  first_le := answers.first_le.trans evolves.current_le

omit [DecidableEq H] in
/-- A lookup begins. -/
theorem Answers.calling (answers : r.Answers L bi key value? first) :
    Answers L bi key value? first { r with call := .calling } :=
  ⟨⟨answers.sound.holder, answers.sound.old⟩, fun array here => (by cases here), answers.binds,
    trivial, answers.first_le⟩

end FindRace

/-! ## The table -/

namespace TableRace

variable [DecidableEq H] {bucketCountShift : Nat} {value? : Option (Nat × V)}
  {s s' : TableRace F τ K V H E} {t : τ}

/-- The arrays of the bucket published since `first` bind the key alike, and thread `t` looks it up
in one of them, if at all. -/
structure Answering (L : SlotLayout K (Nat × V) H E) (bucketCountShift : Nat) (key : K)
    (value? : Option (Nat × V)) (first : Nat) (t : τ) (s : TableRace F τ K V H E) : Prop where
  orderly : s.Orderly L bucketCountShift
  bucket : let bi := bucketOf L bucketCountShift key
    FindRace.Answers L bi key value? first { s.buckets bi with call := .idle }
  find : ∀ call, s.calls t = .find key call →
    let bi := bucketOf L bucketCountShift key
    FindRace.Answers L bi key value? first { s.buckets bi with call }

theorem Answering.start (orderly : s.Orderly L bucketCountShift)
    (binds : ∀ value, (s.buckets (bucketOf L bucketCountShift key)).bucket.Binds L key value ↔
      value? = some value) (notFinding : ∀ call, s.calls t ≠ .find key call) :
    s.Answering L bucketCountShift key value?
      (s.buckets (bucketOf L bucketCountShift key)).current t where
  orderly := orderly
  bucket := by
    have sound := orderly.buckets _ (bucketOf_lt L bucketCountShift key)
    obtain ⟨sound, published, binds, -, first_le⟩ := FindRace.Answers.find sound binds
    exact ⟨⟨sound.holder, sound.old⟩, fun array here => (by cases here), binds, trivial, first_le⟩
  find call finding := absurd finding (notFinding call)

/-- Behind a step that is not a load of thread `t`. -/
theorem Answering.keep (answering : s.Answering L bucketCountShift key value? first t)
    (orderly : s'.Orderly L bucketCountShift)
    (evolves : ∀ bi < 2 ^ bucketCountShift, (s.buckets bi).Evolves L (s'.buckets bi))
    (quiet : (s.buckets (bucketOf L bucketCountShift key)).holder.key ≠ some key)
    (calls : ∀ call, s'.calls t = .find key call → s.calls t = .find key call ∨ call = .calling) :
    s'.Answering L bucketCountShift key value? first t := by
  have inside := bucketOf_lt L bucketCountShift key
  have sound := orderly.buckets _ inside
  have moved : ∀ call, FindRace.Answers L (bucketOf L bucketCountShift key) key value? first
      { s.buckets (bucketOf L bucketCountShift key) with call } →
        FindRace.Answers L (bucketOf L bucketCountShift key) key value? first
          { s'.buckets (bucketOf L bucketCountShift key) with call } :=
    fun call answers => answers.evolve ⟨sound.holder, sound.old⟩
      ((evolves _ inside).setCall call call) rfl quiet
  refine ⟨orderly, moved _ answering.bucket, fun call finding => ?_⟩
  rcases calls call finding with was | rfl
  · exact moved _ (answering.find call was)
  · exact (moved _ answering.bucket).calling

variable [DecidableEq τ]

/-- A load. -/
theorem Answering.load (answering : s.Answering L bucketCountShift key value? first t)
    (tells : L.TellsApart) {u : τ}
    (path : u = t → ∀ call, s.calls t = .find key call → FindRace.SamePath L key
      { s.buckets (bucketOf L bucketCountShift key) with call } .read)
    (orderly : s'.Orderly L bucketCountShift) (taken : s.load L bucketCountShift u = some s') :
    s'.Answering L bucketCountShift key value? first t := by
  have other : ∀ call, u ≠ t → (s.setCall u call).calls t = s.calls t :=
    fun _ other => setCall_of_ne (Ne.symm other)
  rcases load_cases taken with ⟨key', call, call', was, read, rfl⟩ | ⟨key', call, was, next⟩
  · refine ⟨orderly, answering.bucket, fun call'' finding => ?_⟩
    by_cases here : u = t
    · subst here
      cases setCall_self.symm.trans finding
      exact (answering.find call was).read tells (path rfl call was) read
    · rw [other _ here] at finding
      exact answering.find call'' finding
  · refine ⟨orderly, ?_, fun call'' finding => ?_⟩
    · rcases next with rfl | ⟨call', -, rfl⟩ <;> exact answering.bucket
    · by_cases here : u = t
      · subst here
        rcases next with rfl | ⟨call', -, rfl⟩ <;> cases setCall_self.symm.trans finding
      · rcases next with rfl | ⟨call', -, rfl⟩
        all_goals
          rw [other _ here] at finding
          exact answering.find call'' finding

end TableRace

/-! ## The runs -/

namespace RecordRace

variable [DecidableEq τ] [DecidableEq K] [DecidableEq H] {kCellCountLimit bucketCountShift : Nat}
  {isKeyFlat : Bool} {value? : Option (Nat × V)} {s s' : RecordRace F τ K V H E}
  {a : RecordAction F τ K V H E} {t : τ}

section Steps

variable (L : SlotLayout K (Nat × V) H E) (bucketCountShift : Nat)

/-- No thread holds the lock to write the key. -/
def Quiet (key : K) (s : RecordRace F τ K V H E) : Prop :=
  (s.table.buckets (TableRace.bucketOf L bucketCountShift key)).holder.key ≠ some key

/-- Where the step is the load of the size in a `Find` of thread `t`, the key has the path in the
current array that it has in the array of the address. -/
def WalksPath (t : τ) (s : RecordRace F τ K V H E) : RecordAction F τ K V H E → Prop
  | .load u =>
    u = t → match s.table.calls t with
    | .find key call =>
      let b := s.table.buckets (TableRace.bucketOf L bucketCountShift key)
      FindRace.SamePath L key { b with call } .read
    | _ => True
  | _ => True

instance (t : τ) (s : RecordRace F τ K V H E) : ∀ a, Decidable (s.WalksPath L bucketCountShift t a)
  | .load u => by
    unfold WalksPath
    dsimp only
    split <;> infer_instance
  | .begin _ _ | .lock _ _ | .store _ | .mark _ | .add _ | .unlock _ | .finish _ | .protocol _ =>
    isTrue trivial

instance (key : K) (s : RecordRace F τ K V H E) : Decidable (Quiet L bucketCountShift key s) :=
  inferInstanceAs (Decidable (_ ≠ _))

end Steps

theorem orderly_of_next (orderly : s.table.Orderly L bucketCountShift)
    (owns : s.LocksOwn L bucketCountShift a)
    (taken : s.next L kCellCountLimit bucketCountShift isKeyFlat a = some s') :
    s'.table.Orderly L bucketCountShift ∧
      ∀ bi < 2 ^ bucketCountShift, (s.table.buckets bi).Evolves L (s'.table.buckets bi) := by
  have proceeds : ∀ {t op?} {table : TableRace F τ K V H E},
      TableRace.Proceeds L bucketCountShift t s.table op? table →
        table.Orderly L bucketCountShift ∧
          ∀ bi < 2 ^ bucketCountShift, (s.table.buckets bi).Evolves L (table.buckets bi) :=
    fun step => ⟨step.orderly, step.evolves⟩
  have moves := moves_of_next taken
  generalize s'.table = table at moves ⊢
  cases moves with
  | begin idle => exact ⟨orderly.begin idle _, fun _ _ => .of_arrays rfl rfl⟩
  | finish ends => exact ⟨orderly.finish ends, fun _ _ => .of_arrays rfl rfl⟩
  | load loaded => exact proceeds (.load orderly loaded)
  | lock locked => exact proceeds (.lockBucket orderly owns locked)
  | store stored => exact proceeds (.store orderly stored)
  | mark marked => exact proceeds (.mark orderly marked)
  | unlock unlocked => exact proceeds (.unlock orderly unlocked)
  | add | protocol => exact ⟨orderly, fun _ _ => .of_arrays rfl rfl⟩

omit [DecidableEq K] in
/-- Only a load takes a thread on in its `Find`. -/
theorem find_of_moves {table : TableRace F τ K V H E}
    (moves : s.Moves L kCellCountLimit bucketCountShift a table) (noLoad : ∀ u, a ≠ .load u)
    {call : FindCall F H E} (finding : table.calls t = .find key call) :
    s.table.calls t = .find key call ∨ call = .calling := by
  have updated : ∀ {u : τ} {call' : TableCall F K V H E},
      table.calls = Function.update s.table.calls u call' →
        (∀ key c, call' = .find key c → c = .calling) →
          s.table.calls t = .find key call ∨ call = .calling := by
    intro u call' same begins
    rw [same, Function.update_apply] at finding
    split at finding
    · exact Or.inr (begins key call finding)
    · exact Or.inl finding
  cases moves with
  | @begin u op =>
    refine updated rfl fun key c same => ?_
    cases op <;> cases same
    rfl
  | load => exact absurd rfl (noLoad _)
  | lock locked =>
    cases TableRace.lock_cases locked with
    | put | rehash | delete | goOn => exact updated rfl (by simp)
  | store stored =>
    obtain ⟨key', marked, bucket, holder, -, -, -, rfl⟩ := TableRace.store_cases stored
    exact updated rfl (by cases holder <;> simp)
  | mark marked =>
    simp only [TableRace.mark] at marked
    split at marked
    case h_1 =>
      obtain ⟨n, -, same⟩ := Option.map_eq_some_iff.mp marked
      cases same
      exact updated rfl (by simp)
    case h_2 =>
      cases marked
      exact updated rfl (by simp)
    case h_3 => cases marked
  | unlock unlocked =>
    simp only [TableRace.unlock] at unlocked
    split at unlocked <;> cases unlocked
    all_goals exact updated rfl (by simp)
  | finish => exact updated rfl (by simp)
  | add | protocol => exact Or.inl finding

/-- Every step keeps the binding of the key and what thread `t` knows of it. -/
theorem answering_of_next (answering : s.table.Answering L bucketCountShift key value? first t)
    (tells : L.TellsApart) (owns : s.LocksOwn L bucketCountShift a)
    (path : s.WalksPath L bucketCountShift t a) (quiet : s.Quiet L bucketCountShift key)
    (taken : s.next L kCellCountLimit bucketCountShift isKeyFlat a = some s') :
    s'.table.Answering L bucketCountShift key value? first t := by
  obtain ⟨orderly, evolves⟩ := orderly_of_next answering.orderly owns taken
  have moves := moves_of_next taken
  by_cases loads : ∃ u, a = .load u
  · obtain ⟨u, rfl⟩ := loads
    generalize s'.table = table at moves orderly ⊢
    cases moves with
    | load loaded =>
      refine answering.load tells (fun same call was => ?_) orderly loaded
      have walks := path same
      rwa [was] at walks
  · exact answering.keep orderly evolves quiet fun call finding =>
      find_of_moves moves (fun u same => loads ⟨u, same⟩) finding

/-- A `Find` that began and returned while no thread held the lock to write its key returns what the
table bound the key to all the time. -/
theorem find_answers (tells : L.TellsApart) {buckets : Nat → Bucket F H E}
    {puts startGCThreshhold : Nat} (placed : ∀ bi < 2 ^ bucketCountShift, (buckets bi).Placed L)
    {earlier steps : List (RecordRace F τ K V H E × RecordAction F τ K V H E)}
    (before : Run (next L kCellCountLimit bucketCountShift isKeyFlat)
      (.start buckets puts startGCThreshhold) earlier s)
    (run : Run (next L kCellCountLimit bucketCountShift isKeyFlat) s steps s')
    (owns : ∀ p ∈ earlier ++ steps, p.1.LocksOwn L bucketCountShift p.2)
    (notFinding : ∀ call, s.table.calls t ≠ .find key call)
    (path : ∀ p ∈ steps, p.1.WalksPath L bucketCountShift t p.2)
    (quiet : ∀ p ∈ steps, p.1.Quiet L bucketCountShift key) {result : Option (HashSlot H E)}
    (returned : s'.table.calls t = .find key (.returned result)) :
    ∃ binding : Option (Nat × V), result = binding.map (L.slotOf key) ∧
      ∀ q ∈ visited steps s', ∀ value,
        (q.table.buckets (TableRace.bucketOf L bucketCountShift key)).bucket.Binds L key value ↔
          binding = some value := by
  have orderly : s.table.Orderly L bucketCountShift :=
    before.invariant (I := fun s => s.table.Orderly L bucketCountShift)
      (fun _ _ _ orderly owns taken => (orderly_of_next orderly owns taken).1)
      (fun p mem => owns p (by simp [mem])) (.start puts placed)
  have inside := TableRace.bucketOf_lt L bucketCountShift key
  obtain ⟨binding, binds⟩ := FindRace.exists_binding (orderly.buckets _ inside).holder.placed key
  have always := run.forall_visited
    (G := fun s a => s.LocksOwn L bucketCountShift a ∧ s.WalksPath L bucketCountShift t a ∧
      s.Quiet L bucketCountShift key)
    (I := fun s' => s'.table.Answering L bucketCountShift key binding
      (s.table.buckets (TableRace.bucketOf L bucketCountShift key)).current t)
    (fun _ _ _ answering meets taken =>
      answering_of_next answering tells meets.1 meets.2.1 meets.2.2 taken)
    (fun p mem => ⟨owns p (by simp [mem]), path p mem, quiet p mem⟩)
    (.start orderly binds notFinding)
  refine ⟨binding, ((always s' (by simp [visited])).find _ returned).call, fun q mem value => ?_⟩
  have bucket := (always q mem).bucket
  exact bucket.binds _ bucket.first_le le_rfl value

/-! ## A `Find` across a rehash -/

/-- Thread 1 is in a `Find`. -/
def Finding (s : RecordRace cellMeta128 Nat UInt64 Nat UInt64 (Option (UInt64 × Nat × Nat))) : Bool :=
  match s.table.calls 1 with
  | .find _ _ => true
  | _ => false

/-- Thread 1 has found the record of key 7 that the first `Put` has stored. -/
def HasFound (s : RecordRace cellMeta128 Nat UInt64 Nat UInt64 (Option (UInt64 × Nat × Nat))) : Bool :=
  match s.table.calls 1 with
  | .find 7 (.returned (some record)) => record = DeleteRace.recordLayout.slotOf 7 (0, 0)
  | _ => false

/-- Thread 1 looks a key up, and has the array and its size when thread 0 replaces the array. -/
theorem find_answers_rehashed : ∃ earlier s steps s',
    Run nextTwoThreads (.start (fun _ => zeroedBucket) 0 256) earlier s ∧
      Run nextTwoThreads s steps s' ∧ (s'.table.buckets 0).current = 1 ∧ HasFound s' = true ∧
        ∀ q ∈ visited steps s', ∀ value,
          (q.table.buckets 0).bucket.Binds DeleteRace.recordLayout 7 value ↔ (0, 0) = value := by
  have ran : ((execute (guarded nextTwoThreads fun s a => s.LocksOwn DeleteRace.recordLayout 1 a)
      (.start (fun _ => zeroedBucket) 0 256)
        (listBoth ++ [7, 0, 1, 2, 6, 11].flatMap (insertWhole 0))).bind fun s =>
      (execute (guarded nextTwoThreads fun s a => s.LocksOwn DeleteRace.recordLayout 1 a ∧
        s.WalksPath DeleteRace.recordLayout 1 1 a ∧ s.Quiet DeleteRace.recordLayout 1 7) s
          ((findWhole 1 7).take 4 ++ growWhole 0 12 ++ List.replicate 7 (.load 1))).map fun s' =>
            (Finding s, (s'.table.buckets 0).current, HasFound s')) = some (false, 1, true) := by
    decide +kernel
  obtain ⟨s, executed, later⟩ := Option.bind_eq_some_iff.mp ran
  obtain ⟨s', executed', facts⟩ := Option.map_eq_some_iff.mp later
  obtain ⟨outside, rest⟩ := Prod.mk.inj facts
  obtain ⟨current, found⟩ := Prod.mk.inj rest
  obtain ⟨earlier, before, owned⟩ := exists_run_of_guarded executed
  obtain ⟨steps, run, meets⟩ := exists_run_of_guarded executed'
  have placed := (Bucket.Placed.of_zero (L := DeleteRace.recordLayout) (b := zeroedBucket)
    fun _ _ => rfl).1
  have has := found
  rw [HasFound] at has
  split at has
  case h_2 => cases has
  case h_1 record returned =>
    obtain rfl := of_decide_eq_true has
    obtain ⟨binding, same, binds⟩ := find_answers (flatKeyLayout_tellsApart hashInt id)
      (fun _ _ => placed) before run
      (fun p mem => (List.mem_append.mp mem).elim (owned p) fun mem => (meets p mem).1)
      (fun call finding => by simp [Finding, finding] at outside)
      (fun p mem => (meets p mem).2.1) (fun p mem => (meets p mem).2.2) returned
    refine ⟨earlier, s, steps, s', before, run, current, found, fun q mem value => ?_⟩
    obtain ⟨value', rfl, stored⟩ := Option.map_eq_some_iff.mp same.symm
    rw [← (DeleteRace.recordLayout.slotOf_inj stored).2]
    exact (binds q mem value).trans Option.some_inj

end RecordRace

end TurboHash
