import TurboHash.PmemFlat

/-!
# Crashes of the PMDK table with flat keys and values

In `turbo_hash_pmem_pmdk.h` the `Store` of a flat `SlotRecord` writes the two words of the
slot and flushes nothing; `insertToSlotAndGC` flushes the line of the version word behind
it. That line also holds the slots 2 and 3, so a `Put` into one of these is atomic under
crashes. A `Put` into any other slot publishes words that no flush has covered.

Metas, deletions, rehashes and `Recover` are those of `turbo_hash_pmem.h`, so the machine
is the same but for its `Put`. That the slots 2 and 3 lie on the line of the version word
is so for cells that start on a line, as `lineOf` takes them to do.
-/

namespace TurboHash.Pmdk

open LineMemory Pmem

/-- A `Setup` whose slots hold their values. -/
def Flat {K V H E : Type} (S : Setup K V H E) : Prop :=
  ∀ key value, S.format.encode key value = none

section Events

variable {K V H E : Type} (S : Setup K V H E)

/-- `SlotRecord<T1, true, true>::Store`. -/
def slotStore (r c i : Nat) (hash : UInt64) (key : K) (value : V) : List S.Event :=
  [.store (.h1 r c i) (S.layout.h1Convert key hash), .store (.entry r c i) (S.format.word value 0)]

/-- `insertToSlotAndGC` up to the store of the version word. -/
def putPrepare (r : Nat) (info : SlotInfo H) (key : K) (value : V) : List S.Event :=
  .store (.tag r info.cell info.slot) info.h2 ::
    slotStore S r info.cell info.slot (S.layout.keyToHash key) key value

end Events

variable {K V H E : Type} {S : Setup K V H E} [DecidableEq K] [DecidableEq H]

/-! ## The machine -/

/-- `Put` of a key for which `findSlotForInsert` finds a slot. -/
def beginPut (s : Machine S) (key : K) (value : V) : Option (Machine S) :=
  match s.view.searchForInsert S.params searchFuel key with
  | .error _ => none
  | .ok res =>
    if res.find then
      let r := (s.buckets_ (s.view.bucketOf S.layout key)).address
      let info := res.targetSlot
      let version := putVersion (s.content (.ver r info.cell)) info
      some { s with
        todo := putPrepare S r info key value ++ S.commitEvents r info.cell version
        pending := some (r, info.cell, version)
        before := ⟨s.view, s.after.map⟩
        after := ⟨s.view.commit S.params key value info,
          Function.update s.after.map key (some value)⟩ }
    else none

/-- One action; there is no record, so the address of a `put` does not count. -/
def next (s : Machine S) : Action K V → Option (Machine S)
  | .put key value _ => if s.todo.isEmpty then beginPut s key value else none
  | a => s.next a

/-- What the flush of the version word has to reach: the slot lies on its line, or holds
these very words already. -/
def Published (s : Machine S) (r : Nat) (info : SlotInfo H) (key : K) (value : V) : Prop :=
  info.slot < 4 ∨
    Surely (lineOf S.metaWord) s.memory (.h1 r info.cell info.slot)
        (S.layout.h1Convert key (S.layout.keyToHash key)) ∧
      Surely (lineOf S.metaWord) s.memory (.entry r info.cell info.slot) (S.format.word value 0)

/-- The steps whose flushes reach everything they publish. -/
def Meets (s : Machine S) : Action K V → Prop
  | .put key value _ =>
    ∀ res, s.view.searchForInsert S.params searchFuel key = .ok res → res.find = true →
      Published s (s.buckets_ (s.view.bucketOf S.layout key)).address res.targetSlot key value
  | a => s.Meets a

/-! ## What a `Put` publishes -/

section Publish

variable {r : Nat} {info : SlotInfo H} {key : K} {value : V}

omit [DecidableEq K] [DecidableEq H] in
/-- It stores what the `Put` of `turbo_hash_pmem.h` stores, and nothing else. -/
theorem mem_putPrepare {e : S.Event} (mem : e ∈ putPrepare S r info key value) :
    e ∈ S.putPrepare r info key value 0 := by
  simp only [putPrepare, slotStore, List.mem_cons, List.not_mem_nil, or_false] at mem
  rcases mem with rfl | rfl | rfl <;> simp [Setup.putPrepare, Setup.slotStore]

omit [DecidableEq K] [DecidableEq H] in
theorem current_putPrepare (m : S.Memory) (r : Nat) (info : SlotInfo H) (key : K) (value : V) :
    current (lineOf S.metaWord) (execAll (lineOf S.metaWord) m (putPrepare S r info key value))
        (.tag r info.cell info.slot) = info.h2 ∧
      current (lineOf S.metaWord) (execAll (lineOf S.metaWord) m (putPrepare S r info key value))
        (.h1 r info.cell info.slot) = S.layout.h1Convert key (S.layout.keyToHash key) ∧
      current (lineOf S.metaWord) (execAll (lineOf S.metaWord) m (putPrepare S r info key value))
        (.entry r info.cell info.slot) = S.format.word value 0 := by
  rw [current_execAll]
  generalize current (lineOf S.metaWord) m = x
  have h1 : Loc.h1 r info.cell info.slot ≠ .entry r info.cell info.slot := Loc.noConfusion
  have tag : Loc.tag r info.cell info.slot ≠ .entry r info.cell info.slot := Loc.noConfusion
  have tag' : Loc.tag r info.cell info.slot ≠ .h1 r info.cell info.slot := Loc.noConfusion
  refine ⟨?_, ?_, ?_⟩
  · refine (Function.update_of_ne tag (S.format.word value 0) _).trans ?_
    refine (Function.update_of_ne tag' (S.layout.h1Convert key (S.layout.keyToHash key)) _).trans ?_
    exact Function.update_self ..
  · refine (Function.update_of_ne h1 (S.format.word value 0) _).trans ?_
    exact Function.update_self ..
  · exact Function.update_self ..

omit [DecidableEq K] [DecidableEq H] in
/-- Words that the slot holds already stay sure. -/
theorem surely_putPrepare {m : S.Memory}
    (h1 : Surely (lineOf S.metaWord) m (.h1 r info.cell info.slot)
      (S.layout.h1Convert key (S.layout.keyToHash key)))
    (entry : Surely (lineOf S.metaWord) m (.entry r info.cell info.slot)
      (S.format.word value 0)) :
    Surely (lineOf S.metaWord) (execAll (lineOf S.metaWord) m (putPrepare S r info key value))
        (.h1 r info.cell info.slot) (S.layout.h1Convert key (S.layout.keyToHash key)) ∧
      Surely (lineOf S.metaWord) (execAll (lineOf S.metaWord) m (putPrepare S r info key value))
        (.entry r info.cell info.slot) (S.format.word value 0) := by
  have tag : ∀ l, l ≠ Loc.tag r info.cell info.slot →
      (Event.store (Loc.tag r info.cell info.slot) info.h2 : S.Event).Avoids (lineOf S.metaWord) l :=
    fun l different => Ne.symm different
  constructor
  · have stored := (h1.exec (tag _ Loc.noConfusion)).exec_store
    exact stored.exec (e := .store (.entry r info.cell info.slot) _) Loc.noConfusion
  · have stored := entry.exec (tag _ Loc.noConfusion)
    exact (stored.exec (e := .store (.h1 r info.cell info.slot) _) Loc.noConfusion).exec_store

omit [DecidableEq K] [DecidableEq H] in
/-- What a published `Put` has in its slot. -/
theorem slotHolds {s : Machine S} {b : Bucket cellMeta256V2 H E} {R : S.Says} (flat : Flat S)
    (published : Published s r info key value) (target : PutTarget S.layout b key info)
    (line : ∀ k, k ≠ .ver r info.cell →
      lineOf S.metaWord k = lineOf S.metaWord (.ver r info.cell) →
        R k (current (lineOf S.metaWord) (execAll (lineOf S.metaWord) s.memory
          (putPrepare S r info key value)) k))
    (sure : ∀ k w, k ≠ .ver r info.cell → Surely (lineOf S.metaWord)
      (execAll (lineOf S.metaWord) s.memory (putPrepare S r info key value)) k w → R k w) :
    S.SlotHolds R r info.cell info.slot key value 0 := by
  obtain ⟨tag, h1, entry⟩ := current_putPrepare s.memory r info key value
  have less : info.slot < 16 := target.slot_lt
  have words : R (.h1 r info.cell info.slot) (S.layout.h1Convert key (S.layout.keyToHash key)) ∧
      R (.entry r info.cell info.slot) (S.format.word value 0) := by
    rcases published with first | ⟨h1Sure, entrySure⟩
    · -- the line of the version word
      have onLine : lineOf S.metaWord (.h1 r info.cell info.slot) =
          lineOf S.metaWord (.ver r info.cell) := by
        simp only [lineOf, cacheLineSize, Addr.cell.injEq, true_and]
        omega
      constructor
      · rw [← h1]
        exact line _ Loc.noConfusion onLine
      · rw [← entry]
        exact line _ Loc.noConfusion ((Setup.lineOf_entry ..).trans onLine)
    · obtain ⟨h1Sure, entrySure⟩ := surely_putPrepare h1Sure entrySure
      exact ⟨sure _ _ Loc.noConfusion h1Sure, sure _ _ Loc.noConfusion entrySure⟩
  refine ⟨?_, words.1, words.2, fun bytes encoded => ?_, fun bytes encoded => ?_⟩
  · rw [← target.h2, ← tag]
    refine line _ Loc.noConfusion ?_
    simp only [lineOf, cacheLineSize, Addr.cell.injEq, true_and]
    omega
  · rw [flat] at encoded
    cases encoded
  · rw [flat] at encoded
    cases encoded

end Publish

/-! ## The invariant -/

variable {s s' s₀ : Machine S} {a : Action K V} {steps : List (Machine S × Action K V)}

theorem idle_beginPut (flat : Flat S) (idle : s.Idle)
    (count : s.after.table.bucketCountShift = s.bucketCountShift) {key : K} {value : V} {addr : Nat}
    (meets : Meets s (.put key value addr)) (step : beginPut s key value = some s') :
    s'.Sound := by
  obtain ⟨-, holds⟩ := idle.view count
  have inside : s.view.bucketOf S.layout key < s.view.bucketCount := s.view.bucketOf_lt _ _
  have promised : s.Promised (.put key value 0) := fun bytes encoded => by
    rw [flat] at encoded
    cases encoded
  unfold beginPut at step
  split at step
  case h_1 => cases step
  case h_2 res search =>
    split at step
    case isFalse => cases step
    case isTrue found =>
      cases step
      have published := meets res search found
      have wf := holds.wf _ inside
      have answer := Bucket.findSlotForInsert_answer wf (Nat.lt_succ_self _) search
      have target := PutTarget.of_answer wf answer found
      have old : S.Holds (fun l w => Surely (lineOf S.metaWord) s.memory l w ∧
          ∀ e ∈ putPrepare S (s.buckets_ (s.view.bucketOf S.layout key)).address
            res.targetSlot key value, e.Avoids (lineOf S.metaWord) l) s.buckets_ s.view :=
        (Machine.not_putWrites_of_promised holds inside target.dead promised).mono
          fun l w held => ⟨held.1, fun e mem => held.2 e (mem_putPrepare mem)⟩
      refine ⟨rfl, rfl, Or.inr ⟨s.memory, _, [], _, _, _, by simp [Setup.commitEvents], rfl, rfl,
        rfl, ?_, old, ?_⟩⟩
      · have held := (old.cells _ inside _ target.inside).ver
        exact ⟨_, held, (putVersion_ne (holds.cells _ inside _ target.inside).wf _).symm⟩
      · intro R ver line sure
        have others : ∀ l w, l ≠ .ver (s.buckets_ (s.view.bucketOf S.layout key)).address
            res.targetSlot.cell → (Surely (lineOf S.metaWord) s.memory l w ∧
              ∀ e ∈ putPrepare S (s.buckets_ (s.view.bucketOf S.layout key)).address
                res.targetSlot key value, e.Avoids (lineOf S.metaWord) l) → R l w :=
          fun l w different held => sure l w different (Surely.execAll held.1 held.2)
        have stored := slotHolds flat published target line sure
        have now := old.setCell inside ((old.cells _ inside _ target.inside).put ver
          target.wf target.lives stored others) others
        exact (congrArg (fun cell => S.Holds R s.buckets_ (s.view.setBucket _
          (Bucket.setCell _ _ cell))) (target.commit value)).mpr now

theorem sound_next (flat : Flat S) (sound : s.Sound) (meets : Meets s a)
    (step : next s a = some s') : s'.Sound := by
  cases a with
  | put key value addr =>
    rw [next] at step
    split at step
    case isTrue empty =>
      exact idle_beginPut flat (sound.idle empty) sound.after_count meets step
    case isFalse => cases step
  | delete key => exact sound.next (a := .delete key) trivial meets step
  | step => exact sound.next (a := .step) trivial meets step
  | rehash bi isgc region => exact sound.next (a := .rehash bi isgc region) trivial meets step
  | crash keep => exact sound.next (a := .crash keep) trivial meets step

theorem refined_beginPut (refined : s.Refined) (view : s.view.Agrees s.after.table) {key : K}
    {value : V} (step : beginPut s key value = some s') : s'.Refined := by
  have now := view.refines refined.after
  unfold beginPut at step
  split at step
  case h_1 => cases step
  case h_2 res search =>
    split at step
    case isFalse => cases step
    case isTrue found =>
      cases step
      exact ⟨now, now.commit (Nat.lt_succ_self _) search found value⟩

theorem refined_next (refined : s.Refined) (sound : s.Sound) (meets : Meets s a) (near : s.Near a)
    (step : next s a = some s') : s'.Refined := by
  cases a with
  | put key value addr =>
    rw [next] at step
    split at step
    case isTrue empty =>
      exact refined_beginPut refined ((sound.idle empty).view sound.after_count).1 step
    case isFalse => cases step
  | delete key => exact refined.next (a := .delete key) sound meets near step
  | step => exact refined.next (a := .step) sound meets near step
  | rehash bi isgc region => exact refined.next (a := .rehash bi isgc region) sound meets near step
  | crash keep => exact refined.next (a := .crash keep) sound meets near step

/-! ## Runs -/

theorem sound_of_run (flat : Flat S) (run : Transition.Run next s₀ steps s) (start : s₀.Sound)
    (meets : ∀ p ∈ steps, Meets p.1 p.2) : s.Sound :=
  run.invariant (G := Meets) (I := Machine.Sound)
    (fun _ _ _ sound good step => sound_next flat sound good step) meets start

theorem refined_of_run (flat : Flat S) (run : Transition.Run next s₀ steps s) (start : s₀.Sound)
    (refined : s₀.Refined) (meets : ∀ p ∈ steps, Meets p.1 p.2)
    (near : ∀ p ∈ steps, p.1.Near p.2) : s.Refined :=
  (run.invariant (G := fun s a => Meets s a ∧ s.Near a) (I := fun s => s.Sound ∧ s.Refined)
    (fun _ _ _ before good step => ⟨sound_next flat before.1 good.1 step,
      refined_next before.2 before.1 good.1 good.2 step⟩)
    (fun p mem => ⟨meets p mem, near p mem⟩) ⟨start, refined⟩).2

/-! ## Flat keys and values -/

section FlatTable

variable {K V : Type} [Inhabited K] [Inhabited V] [DecidableEq K] {keyToHash toSizeT : K → UInt64}
  {kCellCountLimit : Nat} {limit_le : kCellCountLimit ≤ kTurboCellCountLimit} {metaWord : Nat}
  {heap₀ : Content (Loc.Val K V)} {uninit : Nat → Cell cellMeta256V2 K V}

/-- Every run whose puts write slots on the line of the version word, from a table whose
buckets start with less than 2 GiB and whose bucket pointers lie on the lines that are
flushed, survives a crash. -/
theorem pmdk_table_crash_atomic {bucketCount cellCount : UInt32}
    {s₀ s : Machine (flatSetup keyToHash toSizeT kCellCountLimit limit_le metaWord heap₀ uninit)}
    {steps : List (Machine (flatSetup keyToHash toSizeT kCellCountLimit limit_le metaWord heap₀
      uninit) × Action K V)}
    (fresh : (flatSetup keyToHash toSizeT kCellCountLimit limit_le metaWord heap₀
      uninit).initTable bucketCount cellCount = some s₀)
    (small : cellCount.toNat * cellMeta256V2.cellSize < 2 ^ 31)
    (lastOnLine : (flatSetup keyToHash toSizeT kCellCountLimit limit_le metaWord heap₀
      uninit).LastOnLine bucketCount.toNat)
    (run : Transition.Run next s₀ steps s) (meets : ∀ p ∈ steps, Meets p.1 p.2) :
    (s.todo = [] → s.before = s.after) ∧ ∀ keep, s.Recovers keep fun t =>
      (∀ i < t.bucketCount, (t.buckets i).WellFormed (flatLayout keyToHash toSizeT)) ∧
        (t.Agrees s.before.table ∨ t.Agrees s.after.table) ∧
        ((∀ p ∈ steps, p.1.Near p.2) →
          t.Refines (flatLayout keyToHash toSizeT) s.before.map ∨
            t.Refines (flatLayout keyToHash toSizeT) s.after.map) := by
  have flat : Flat (flatSetup keyToHash toSizeT kCellCountLimit limit_le metaWord heap₀ uninit) :=
    fun _ _ => rfl
  obtain ⟨start, same, empty⟩ := Machine.Sound.initTable fresh small lastOnLine
  have sound := sound_of_run flat run start meets
  refine ⟨fun finished => (sound.idle (by simp [finished])).same, fun keep => ?_⟩
  obtain ⟨buckets', found, wf, agrees, refines⟩ := sound.recovers_before_or_after keep
  refine ⟨buckets', found, wf, agrees, fun near => refines ?_⟩
  exact refined_of_run flat run start ⟨same ▸ empty, empty⟩ meets near

end FlatTable

/-! ## Concrete runs -/

instance [DecidableEq S.format.Word] (s : Machine S) (r : Nat) (info : SlotInfo H) (key : K)
    (value : V) : Decidable (Published s r info key value) :=
  inferInstanceAs (Decidable (_ ∨ (∀ x ∈ (s.memory (lineOf S.metaWord (.h1 r info.cell
    info.slot))).survivors, (x (.h1 r info.cell info.slot) : H) = _) ∧
      ∀ x ∈ (s.memory (lineOf S.metaWord (.entry r info.cell info.slot))).survivors,
        (x (.entry r info.cell info.slot) : S.format.Word) = _))

instance [DecidableEq S.format.Word] (s : Machine S) : (a : Action K V) → Decidable (Meets s a)
  | .put key value _ =>
    match found : s.view.searchForInsert S.params searchFuel key with
    | .error _ => isTrue fun _ same => by rw [found] at same; cases same
    | .ok res => decidable_of_iff (res.find = true →
        Published s (s.buckets_ (s.view.bucketOf S.layout key)).address res.targetSlot key value)
      ⟨fun holds res' same => by rw [found] at same; cases same; exact holds,
        fun holds => holds res found⟩
  | .delete _ | .step | .crash _ => isTrue trivial
  | .rehash bi isgc region => inferInstanceAs (Decidable (s.Meets (.rehash bi isgc region)))

/-- A `Put` and the six events it queues. -/
def putAll (key value : UInt64) : List (Action UInt64 UInt64) :=
  .put key value 0 :: List.replicate 6 .step

/-- Two puts into the first cell, a crash, and an update of which the store of the version
word is still to come. -/
def putsAndCrash : List (Action UInt64 UInt64) :=
  putAll 7 1 ++ [.crash fun _ => 0, .put 7 2 0, .step, .step, .step]

instance : DecidableEq (wordSetup usedHeap).format.Word := inferInstanceAs (DecidableEq UInt64)

theorem pmdk_table_crash_atomic_update :
    ∃ (s₀ s : Machine (wordSetup usedHeap)) (steps : List (Machine (wordSetup usedHeap) ×
        Action UInt64 UInt64)),
      (wordSetup usedHeap).initTable 2 2 = some s₀ ∧ Transition.Run next s₀ steps s ∧
        (s.before.map 7, s.after.map 7) = (some 1, some 2) ∧ ∀ keep, s.Recovers keep fun t =>
          t.Agrees s.before.table ∨ t.Agrees s.after.table := by
  have ran : ((wordSetup usedHeap).initTable 2 2).bind (fun s₀ =>
      (Transition.execute (Transition.guarded next Meets) s₀ putsAndCrash).map fun s =>
        (s.before.map 7, s.after.map 7)) = some (some 1, some 2) := by decide +kernel
  obtain ⟨s₀, fresh, rest⟩ := Option.bind_eq_some_iff.mp ran
  obtain ⟨s, executed, maps⟩ := Option.map_eq_some_iff.mp rest
  obtain ⟨steps, run, meets⟩ := Transition.exists_run_of_guarded executed
  refine ⟨s₀, s, steps, fresh, run, maps, fun keep => ?_⟩
  obtain ⟨buckets', found, -, agrees, -⟩ :=
    (pmdk_table_crash_atomic fresh (by decide) rfl run meets).2 keep
  exact ⟨buckets', found, agrees⟩

/-! ## A slot on another line -/

/-- Three puts into the first cell have returned. The third one wrote slot 4, whose line
no flush covers, and behind a crash its key is gone. -/
theorem pmdk_put_not_durable :
    ∃ s₀ s : Machine (wordSetup usedHeap), (wordSetup usedHeap).initTable 1 1 = some s₀ ∧
      Transition.execute next s₀ (putAll 7 1 ++ putAll 8 1 ++ putAll 9 1) = some s ∧
      s.todo.length = 0 ∧ (s.before.map 9, s.after.map 9) = (some 1, some 1) ∧
      s.Recovers (fun _ => 0) fun t =>
        (t.findSlot (wordSetup usedHeap).params searchFuel 9 (hashInt 9)).toOption = some none := by
  have ran : ((wordSetup usedHeap).initTable 1 1).bind (fun s₀ =>
      (Transition.execute next s₀ (putAll 7 1 ++ putAll 8 1 ++ putAll 9 1)).bind fun s =>
        ((wordSetup usedHeap).recover (s.image fun _ => 0) s.bucketCount).map fun buckets' =>
          (s.todo.length, (s.before.map 9, s.after.map 9),
            (((wordSetup usedHeap).table (s.image fun _ => 0) s.bucketCountShift buckets').findSlot
              (wordSetup usedHeap).params searchFuel 9 (hashInt 9)).toOption)) =
      some (0, (some 1, some 1), some none) := by decide +kernel
  obtain ⟨s₀, fresh, rest⟩ := Option.bind_eq_some_iff.mp ran
  obtain ⟨s, executed, rest⟩ := Option.bind_eq_some_iff.mp rest
  obtain ⟨buckets', recovered, result⟩ := Option.map_eq_some_iff.mp rest
  obtain ⟨finished, found⟩ := Prod.mk.inj result
  obtain ⟨bound, missed⟩ := Prod.mk.inj found
  exact ⟨s₀, s, fresh, executed, finished, bound, buckets', recovered, missed⟩

end TurboHash.Pmdk
