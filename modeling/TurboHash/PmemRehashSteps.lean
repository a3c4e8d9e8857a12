import TurboHash.BucketMetaPmem

/-!
# A crash within a rehash

`MinorRehash` copies the new cells into persistent memory, writes them back, and lets
`BucketMetaPmem::Store` write the copy of the meta that is not in use and switch to it. In a
`RehashMachine` each of these stores, flushes and fences is a step of its own, beside those of `Put`
and `Delete`, and a crash comes between any two of them. "As long as this is not finished, if crash
happens, turbo hash will reboot from the last state", says the source: `Recover` finds the old bucket,
or the new one with all of its cells.
-/

namespace TurboHash.Pmem

open LineMemory

variable {K V H E : Type} {S : Setup K V H E}

/-- A `MinorRehash` in progress: its bucket, the region that `Allocate` has returned, the new cells in
DRAM, and the copy of the meta that `Store` writes. -/
structure Rehashing (S : Setup K V H E) where
  bi : Nat
  region : Nat
  new : Bucket cellMeta256V2 H S.format.Word
  second : Bool

namespace Rehashing

variable (r : Rehashing S)

/-- Steps 3 and 5 of `MinorRehash`. -/
def events : List S.Event := S.rehashEvents r.new r.region r.bi r.second

/-- What `Store` commits to. -/
def image : BucketImage S := ⟨⟨r.region, r.new.cellCountShift⟩, S.bucketContent r.new⟩

end Rehashing

/-- The table, and the `MinorRehash` in progress with the events that it has still to make. -/
structure RehashMachine (S : Setup K V H E) where
  machine : Machine S
  rehashing : Option (Rehashing S × List S.Event)

namespace Machine

variable (s : Machine S) (bi region : Nat) (isgc : Bool)

/-- `MinorRehash` up to its copy into persistent memory. -/
def beginRehash : Option (Rehashing S) :=
  if bi < s.bucketCount ∧ (∀ i < s.bucketCount, (s.buckets_ i).address ≠ region) ∧
      2 ^ s.newShift bi isgc ≤ S.params.kCellCountLimit then
    match (S.rawBucket s.content (s.buckets_ bi)).rehash S.rawLayout bi (s.newShift bi isgc)
        S.uninit, S.nextCopy s.content bi with
    | .ok (new, _), some second => some ⟨bi, region, new, second⟩
    | _, _ => none
  else none

/-- Step 4 of `MinorRehash`: the bucket in DRAM. -/
def endRehash (r : Rehashing S) : Machine S :=
  let buckets_ := Function.update s.buckets_ r.bi ⟨r.region, r.new.cellCountShift⟩
  let now : Snapshot K V H E := ⟨S.table s.content s.bucketCountShift buckets_, s.after.map⟩
  { s with buckets_ := buckets_, before := now, after := now }

/-- The machine behind events of a rehash. -/
def writes (events : List S.Event) : Machine S :=
  { s with memory := execAll (lineOf S.metaWord) s.memory events }

variable {s bi region isgc}

/-- `MinorRehash` event by event is `MinorRehash` at once. -/
theorem rehash_eq : s.rehash bi isgc region =
    (s.beginRehash bi region isgc).map fun r => (s.writes r.events).endRehash r := by
  rw [rehash, beginRehash]
  split
  case isTrue =>
    generalize (S.rawBucket s.content (s.buckets_ bi)).rehash S.rawLayout bi (s.newShift bi isgc)
      S.uninit = built
    generalize S.nextCopy s.content bi = copy
    rcases built with halt | ⟨new, n⟩ <;> rcases copy with none | second <;> rfl
  case isFalse => rfl

theorem beginRehash_cases {r : Rehashing S} (begun : s.beginRehash bi region isgc = some r) :
    bi < s.bucketCount ∧ (∀ i < s.bucketCount, (s.buckets_ i).address ≠ region) ∧
      2 ^ s.newShift bi isgc ≤ S.params.kCellCountLimit ∧ r.bi = bi ∧ r.region = region ∧
        (∃ n, (S.rawBucket s.content (s.buckets_ bi)).rehash S.rawLayout bi (s.newShift bi isgc)
          S.uninit = .ok (r.new, n)) ∧ S.nextCopy s.content bi = some r.second := by
  rw [beginRehash] at begun
  split at begun
  case isFalse => cases begun
  case isTrue allowed =>
    obtain ⟨inside, fresh, limit⟩ := allowed
    split at begun
    case h_2 => cases begun
    case h_1 new n second built copy =>
      cases begun
      exact ⟨inside, fresh, limit, rfl, rfl, ⟨n, built⟩, copy⟩

end Machine

/-- As long as `cur_ver_` has not survived, the table is as it was. -/
theorem Setup.Holds.kept {m : S.Memory} {x : S.Content} {buckets_ : Nat → BucketMetaDram}
    {t : Table cellMeta256V2 H E} {bi : Nat} {new : BucketImage S} {second : Bool}
    (holds : S.Holds (Surely (lineOf S.metaWord) m) buckets_ t)
    (copy : S.nextCopy (current (lineOf S.metaWord) m) bi = some second)
    (fresh : ∀ i < t.bucketCount, (buckets_ i).address ≠ new.bucket.address)
    (kept : ∀ l w, (∀ e ∈ S.writeCells new, e.Avoids (lineOf S.metaWord) l) →
      l ≠ .bucketPtr second bi → l ≠ .cellCountLeftshift second bi →
        Surely (lineOf S.metaWord) m l w → x l = w) :
    S.Holds (fun l w => x l = w) buckets_ t := by
  have elsewhere : ∀ l w, Elsewhere new.bucket.address bi l → Surely (lineOf S.metaWord) m l w →
      x l = w := by
    intro l w apart sure
    obtain ⟨-, ptr, shift⟩ := ne_of_elsewhere apart second
    exact kept l w (Setup.avoids_writeCells apart) ptr shift sure
  refine ⟨fun i less => ?_, holds.apart, holds.shift, fun i less c within => ?_⟩
  · obtain ⟨used, metaHolds⟩ := holds.metas i less
    by_cases here : i = bi
    · subst here
      have next := Setup.nextCopy_of_metaHolds (metaHolds.mono fun l w sure => sure.current)
      obtain rfl : used = !second := by
        rw [copy, Option.some_inj] at next
        rw [next, Bool.not_not]
      exact ⟨_, (metaHolds.crash kept).1⟩
    · exact ⟨used, elsewhere _ _ here metaHolds.cur, elsewhere _ _ here metaHolds.ptr,
        elsewhere _ _ here metaHolds.shift⟩
  · exact (holds.cells i less c within).elsewhere (fresh i less) elsewhere

namespace RehashMachine

section Steps

variable [DecidableEq K] [DecidableEq H] (s : RehashMachine S)

def next : Action K V → Option (RehashMachine S)
  | .rehash bi isgc region =>
    match s.rehashing with
    | none =>
      if s.machine.todo.isEmpty then
        (s.machine.beginRehash bi region isgc).map fun r => ⟨s.machine, some (r, r.events)⟩
      else none
    | some _ => none
  | .step =>
    match s.rehashing with
    | none => s.machine.advance.map fun machine => ⟨machine, none⟩
    | some (_, []) => none
    | some (r, e :: todo) =>
      let machine := s.machine.writes [e]
      some (if todo.isEmpty then ⟨machine.endRehash r, none⟩ else ⟨machine, some (r, todo)⟩)
  | .crash keep => (s.machine.reboot keep).map fun machine => ⟨machine, none⟩
  | .put key value addr =>
    match s.rehashing with
    | none => (s.machine.next (.put key value addr)).map fun machine => ⟨machine, none⟩
    | some _ => none
  | .delete key =>
    match s.rehashing with
    | none => (s.machine.next (.delete key)).map fun machine => ⟨machine, none⟩
    | some _ => none

end Steps

/-- The tables that a crash may take the machine back to: those before and behind the operation in
progress. -/
def tables (s : RehashMachine S) : List (Table cellMeta256V2 H E) :=
  match s.rehashing with
  | none => [s.machine.before.table, s.machine.after.table]
  | some (r, todo) => [s.machine.after.table, ((s.machine.writes todo).endRehash r).after.table]

/-! ## The invariant -/

/-- A rehash that began on memory `m₀` has made the events `done`. -/
structure Running (s : RehashMachine S) (m₀ : S.Memory) (isgc : Bool) (r : Rehashing S)
    (done todo : List S.Event) : Prop where
  rehashing : s.rehashing = some (r, todo)
  unfinished : todo ≠ []
  split : done ++ todo = r.events
  memory : s.machine.memory = execAll (lineOf S.metaWord) m₀ done
  count : s.machine.after.table.bucketCountShift = s.machine.bucketCountShift
  idle : ({ s.machine with memory := m₀ } : Machine S).Idle
  begun : ({ s.machine with memory := m₀ } : Machine S).beginRehash r.bi r.region isgc = some r
  onLine : lineOf S.metaWord (.bucketPtr r.second r.bi) = lineOf S.metaWord (.curVer r.bi)

/-- The invariant. -/
def Sound (s : RehashMachine S) : Prop :=
  s.rehashing = none ∧ s.machine.Sound ∨ ∃ m₀ isgc r done todo, s.Running m₀ isgc r done todo

variable {s s' : RehashMachine S} {m₀ : S.Memory} {isgc : Bool} {r : Rehashing S}
  {done todo : List S.Event} {keep : Addr → Nat}

/-- The machine behind all of the events. -/
theorem Running.writes_todo (run : s.Running m₀ isgc r done todo) :
    s.machine.writes todo = ({ s.machine with memory := m₀ } : Machine S).writes r.events := by
  rw [Machine.writes, Machine.writes, run.memory, ← execAll_append, run.split]

/-- The finished rehash. -/
theorem Running.rehash_eq (run : s.Running m₀ isgc r done todo) :
    ({ s.machine with memory := m₀ } : Machine S).rehash r.bi isgc r.region =
      some ((s.machine.writes todo).endRehash r) := by
  rw [Machine.rehash_eq, run.begun, Option.map_some, run.writes_todo]

theorem Running.meets (run : s.Running m₀ isgc r done todo) :
    ({ s.machine with memory := m₀ } : Machine S).Meets (.rehash r.bi isgc r.region) := by
  obtain ⟨-, -, -, -, -, -, copy⟩ := Machine.beginRehash_cases run.begun
  intro second same
  cases copy.symm.trans same
  exact run.onLine

/-- What a crash leaves holds the table before the rehash, or the one behind it. -/
theorem Running.survives (run : s.Running m₀ isgc r done todo) (keep : Addr → Nat) :
    ∃ buckets_, ∃ t ∈ s.tables, t.bucketCountShift = s.machine.bucketCountShift ∧
      S.Holds (fun l w => s.machine.image keep l = w) buckets_ t := by
  obtain ⟨inside, fresh, limit, -, -, ⟨n, built⟩, copy⟩ := Machine.beginRehash_cases run.begun
  obtain ⟨-, holds⟩ := run.idle.view run.count
  obtain ⟨placed, rehashed, -⟩ := Bucket.rehash_disp_lt_iff built (k := maxProbeLen)
  have small : r.image.bucket.cellCount * cellMeta256V2.cellSize < 2 ^ 31 := by
    have same : r.image.bucket.cellCount = 2 ^ _ := rehashed.cellCount_eq
    rw [same]
    exact Machine.small_of_limit limit
  have tables : s.tables = [s.machine.after.table, ((s.machine.writes todo).endRehash r).after.table] := by
    rw [RehashMachine.tables, run.rehashing]
  have image : s.machine.image keep = LineMemory.image (lineOf S.metaWord)
      (execAll (lineOf S.metaWord) m₀ done) keep := by
    rw [Machine.image, run.memory]
  rw [image, tables]
  have split : done ++ todo = S.writeCells r.image ++ S.metaStore r.second r.bi r.image.bucket :=
    run.split
  rcases Setup.store_crash (m := m₀) small split run.onLine keep with
    kept | ⟨-, ⟨metaHolds, cells⟩, kept⟩
  · refine ⟨s.machine.buckets_, _, List.mem_cons_self, run.count, ?_⟩
    refine run.idle.holds.kept copy (fun i less => fresh i ?_) kept
    exact less.trans_eq (congrArg (2 ^ ·) run.count)
  · refine ⟨Function.update s.machine.buckets_ r.bi r.image.bucket, _,
      List.mem_cons_of_mem _ List.mem_cons_self, rfl, ?_⟩
    have after := run.idle.holds_after_rehash run.count inside fresh limit built run.onLine
    have agrees := (after.mono fun l w sure => sure.current).agrees fun i _ => rfl
    have holds' := Machine.holds_rehashed built holds inside fresh kept metaHolds cells
    rw [run.writes_todo]
    exact holds'.congr agrees fun i _ => rfl

theorem Sound.survives (sound : s.Sound) (keep : Addr → Nat) :
    ∃ buckets_, ∃ t ∈ s.tables, t.bucketCountShift = s.machine.bucketCountShift ∧
      S.Holds (fun l w => s.machine.image keep l = w) buckets_ t := by
  rcases sound with ⟨none, sound⟩ | ⟨m₀, isgc, r, done, todo, run⟩
  · refine ⟨s.machine.buckets_, (s.machine.survivor keep).table, ?_,
      Machine.survivor_count sound keep, sound.survives keep⟩
    simp only [tables, none, Machine.survivor]
    split <;> simp
  · exact run.survives keep

/-- `Recover` finds a table that agrees with one of the two. -/
theorem Sound.recovers (sound : s.Sound) (keep : Addr → Nat) :
    ∃ buckets', S.recover (s.machine.image keep) s.machine.bucketCount = some buckets' ∧
      let found := S.table (s.machine.image keep) s.machine.bucketCountShift buckets'
      (∃ t ∈ s.tables, found.Agrees t) ∧
        (∀ i < found.bucketCount, (found.buckets i).WellFormed S.layout) ∧
          S.Holds (fun l w => s.machine.image keep l = w) buckets' found := by
  obtain ⟨buckets_, t, mem, count, holds⟩ := sound.survives keep
  obtain ⟨buckets', found, same⟩ := holds.recover_eq
  have agrees := holds.agrees same
  have counts : t.bucketCount = s.machine.bucketCount := congrArg (2 ^ ·) count
  rw [count] at agrees
  rw [counts] at found
  exact ⟨buckets', found, ⟨t, mem, agrees⟩, agrees.wf holds.wf, holds.congr agrees same⟩

theorem Sound.reboot (sound : s.Sound) {machine : Machine S}
    (step : s.machine.reboot keep = some machine) : machine.Sound := by
  obtain ⟨buckets', found, -, -, holds⟩ := sound.recovers keep
  unfold Machine.reboot at step
  rw [found] at step
  cases step
  exact ⟨rfl, rfl, Or.inl ⟨rfl, rfl, rfl, holds.mono fun l w image => image ▸ surely_crashed⟩⟩

/-- Outside a rehash the invariant is that of the machine. -/
theorem Sound.machine (sound : s.Sound) (none : s.rehashing = none) : s.machine.Sound := by
  rcases sound with ⟨-, sound⟩ | ⟨m₀, isgc, r, done, todo, run⟩
  · exact sound
  · cases none.symm.trans run.rehashing

/-- The next event of a rehash. -/
theorem Running.step {e : S.Event} (run : s.Running m₀ isgc r done (e :: todo)) :
    RehashMachine.Sound (if todo.isEmpty then ⟨(s.machine.writes [e]).endRehash r, none⟩
      else ⟨s.machine.writes [e], some (r, todo)⟩) := by
  cases todo with
  | nil =>
    exact Or.inl ⟨rfl, (run.idle.rehash run.count run.meets run.rehash_eq).1⟩
  | cons e' todo =>
    refine Or.inr ⟨m₀, isgc, r, done ++ [e], e' :: todo, rfl, List.cons_ne_nil _ _, ?_, ?_, run.count,
      run.idle, run.begun, run.onLine⟩
    · rw [← run.split, List.append_assoc]
      rfl
    · rw [execAll_append, ← run.memory]
      rfl

/-- The tables stand for the maps beside them; the one behind a rehash for the same map as the one
before. -/
structure Refined (s : RehashMachine S) : Prop where
  machine : s.machine.Refined
  rehashed : ∀ r todo, s.rehashing = some (r, todo) →
    ((s.machine.writes todo).endRehash r).after.table.Refines S.layout s.machine.after.map

theorem Refined.refines (refined : s.Refined) {t found : Table cellMeta256V2 H E}
    (mem : t ∈ s.tables) (agrees : found.Agrees t) :
    found.Refines S.layout s.machine.before.map ∨ found.Refines S.layout s.machine.after.map := by
  cases now : s.rehashing with
  | none =>
    simp only [tables, now, List.mem_cons, List.not_mem_nil, or_false] at mem
    rcases mem with rfl | rfl
    · exact Or.inl (agrees.refines refined.machine.before)
    · exact Or.inr (agrees.refines refined.machine.after)
  | some rehashing =>
    obtain ⟨r, todo⟩ := rehashing
    simp only [tables, now, List.mem_cons, List.not_mem_nil, or_false] at mem
    rcases mem with rfl | rfl
    · exact Or.inr (agrees.refines refined.machine.after)
    · exact Or.inr (agrees.refines (refined.rehashed r todo now))

variable [DecidableEq K] [DecidableEq H] {a : Action K V}

/-- What a step can do. -/
theorem next_cases (taken : s.next a = some s') :
    (s.rehashing = none ∧ ∃ machine, s.machine.next a = some machine ∧ s' = ⟨machine, none⟩) ∨
    (∃ r e todo, s.rehashing = some (r, e :: todo) ∧
      s' = if todo.isEmpty then ⟨(s.machine.writes [e]).endRehash r, none⟩
        else ⟨s.machine.writes [e], some (r, todo)⟩) ∨
    (∃ bi isgc region r, a = .rehash bi isgc region ∧ s.rehashing = none ∧
      s.machine.todo.isEmpty = true ∧ s.machine.beginRehash bi region isgc = some r ∧
        s' = ⟨s.machine, some (r, r.events)⟩) ∨
    ∃ keep machine, s.machine.reboot keep = some machine ∧ s' = ⟨machine, none⟩ := by
  cases a with
  | put key value addr =>
    simp only [RehashMachine.next] at taken
    split at taken
    case h_2 => cases taken
    case h_1 none =>
      obtain ⟨machine, step, rfl⟩ := Option.map_eq_some_iff.mp taken
      exact Or.inl ⟨none, machine, step, rfl⟩
  | delete key =>
    simp only [RehashMachine.next] at taken
    split at taken
    case h_2 => cases taken
    case h_1 none =>
      obtain ⟨machine, step, rfl⟩ := Option.map_eq_some_iff.mp taken
      exact Or.inl ⟨none, machine, step, rfl⟩
  | step =>
    simp only [RehashMachine.next] at taken
    split at taken
    case h_1 none =>
      obtain ⟨machine, step, rfl⟩ := Option.map_eq_some_iff.mp taken
      exact Or.inl ⟨none, machine, step, rfl⟩
    case h_2 => cases taken
    case h_3 r e todo now =>
      cases taken
      exact Or.inr (Or.inl ⟨r, e, todo, now, rfl⟩)
  | rehash bi isgc region =>
    simp only [RehashMachine.next] at taken
    split at taken
    case h_2 => cases taken
    case h_1 none =>
      split at taken
      case isFalse => cases taken
      case isTrue empty =>
        obtain ⟨r, begun, rfl⟩ := Option.map_eq_some_iff.mp taken
        exact Or.inr (Or.inr (Or.inl ⟨bi, isgc, region, r, rfl, none, empty, begun, rfl⟩))
  | crash keep =>
    obtain ⟨machine, step, rfl⟩ := Option.map_eq_some_iff.mp taken
    exact Or.inr (Or.inr (Or.inr ⟨keep, machine, step, rfl⟩))

/-- Each action keeps the invariant. -/
theorem Sound.next (sound : s.Sound) (promised : s.machine.Promised a) (meets : s.machine.Meets a)
    (taken : s.next a = some s') : s'.Sound := by
  rcases next_cases taken with ⟨none, machine, step, rfl⟩ | ⟨r, e, todo, now, rfl⟩ |
    ⟨bi, isgc, region, r, rfl, none, empty, begun, rfl⟩ | ⟨keep, machine, step, rfl⟩
  · exact Or.inl ⟨rfl, (sound.machine none).next promised meets step⟩
  · rcases sound with ⟨none, -⟩ | ⟨m₀, isgc, r', done, todo', run⟩
    · cases none.symm.trans now
    · cases run.rehashing.symm.trans now
      exact run.step
  · have before := sound.machine none
    obtain ⟨-, -, -, rfl, rfl, -, copy⟩ := Machine.beginRehash_cases begun
    refine Or.inr ⟨s.machine.memory, isgc, r, [], r.events, rfl, ?_, rfl, rfl, before.after_count,
      before.idle empty, begun, meets r.second copy⟩
    simp [Rehashing.events, Setup.rehashEvents, Setup.writeRegion]
  · exact Or.inl ⟨rfl, sound.reboot step⟩

/-- Each action whose rehash keeps the map keeps the maps. -/
theorem Refined.next (refined : s.Refined) (sound : s.Sound) (meets : s.machine.Meets a)
    (near : s.machine.Near a) (taken : s.next a = some s') : s'.Refined := by
  rcases next_cases taken with ⟨none, machine, step, rfl⟩ | ⟨r, e, todo, now, rfl⟩ |
    ⟨bi, isgc, region, r, rfl, none, empty, begun, rfl⟩ | ⟨keep, machine, step, rfl⟩
  · exact ⟨refined.machine.next (sound.machine none) meets near step,
      fun r todo same => by cases same⟩
  · have rehashed := refined.rehashed r (e :: todo) now
    cases todo with
    | nil => exact ⟨⟨rehashed, rehashed⟩, fun r todo same => by cases same⟩
    | cons e' todo =>
      refine ⟨⟨refined.machine.before, refined.machine.after⟩, fun r' todo' same => ?_⟩
      cases same
      exact rehashed
  · have before := sound.machine none
    have idle := before.idle empty
    have now := (idle.view before.after_count).1.refines refined.machine.after
    have step := (Machine.rehash_eq (s := s.machine)).trans (congrArg _ begun)
    have kept := (idle.rehash before.after_count meets step).2 near _ now
    refine ⟨⟨refined.machine.before, refined.machine.after⟩, fun r' todo' same => ?_⟩
    cases same
    exact kept
  · refine ⟨?_, fun r todo same => by cases same⟩
    obtain ⟨buckets', found, ⟨t, mem, agrees⟩, -⟩ := sound.recovers keep
    rcases sound with ⟨none, sound⟩ | ⟨m₀, isgc, r, done, todo, run⟩
    · exact refined.machine.reboot sound step
    · have refines : t.Refines S.layout s.machine.after.map := by
        simp only [tables, run.rehashing, List.mem_cons, List.not_mem_nil, or_false] at mem
        rcases mem with rfl | rfl
        · exact refined.machine.after
        · exact refined.rehashed r todo run.rehashing
      have pending : s.machine.pending = none := run.idle.pending
      unfold Machine.reboot at step
      rw [found, Machine.survivor_of_idle pending] at step
      cases step
      exact ⟨agrees.refines refines, agrees.refines refines⟩

/-! ## Runs -/

/-- In every run of `Put`, `Delete` and `MinorRehash` whose flushes reach what they publish, a crash
between any two stores, flushes and fences leaves the table before the operation in progress, or the
one behind it; within a rehash the map is that of the completed operations. -/
theorem rehash_crash_atomic {bucketCount cellCount : UInt32} {machine : Machine S}
    (fresh : S.initTable bucketCount cellCount = some machine)
    (small : cellCount.toNat * cellMeta256V2.cellSize < 2 ^ 31)
    (lastOnLine : S.LastOnLine bucketCount.toNat)
    {steps : List (RehashMachine S × Action K V)}
    (run : Transition.Run next ⟨machine, none⟩ steps s)
    (promised : ∀ p ∈ steps, p.1.machine.Promised p.2) (meets : ∀ p ∈ steps, p.1.machine.Meets p.2) :
    (s.rehashing.isSome → s.machine.before = s.machine.after) ∧
      ∀ keep, s.machine.Recovers keep fun found => (∃ t ∈ s.tables, found.Agrees t) ∧
        (∀ i < found.bucketCount, (found.buckets i).WellFormed S.layout) ∧
          ((∀ p ∈ steps, p.1.machine.Near p.2) →
            found.Refines S.layout s.machine.before.map ∨
              found.Refines S.layout s.machine.after.map) := by
  obtain ⟨start, same, empty⟩ := Machine.Sound.initTable fresh small lastOnLine
  have sound : s.Sound := run.invariant (I := Sound)
    (G := fun s a => s.machine.Promised a ∧ s.machine.Meets a)
    (fun _ _ _ sound good taken => sound.next good.1 good.2 taken)
    (fun p mem => ⟨promised p mem, meets p mem⟩) (Or.inl ⟨rfl, start⟩)
  refine ⟨fun rehashing => ?_, fun keep => ?_⟩
  · rcases sound with ⟨none, -⟩ | ⟨m₀, isgc, r, done, todo, running⟩
    · rw [none] at rehashing
      cases rehashing
    · exact running.idle.same
  · obtain ⟨buckets', found, agrees, wf, -⟩ := sound.recovers keep
    refine ⟨buckets', found, agrees, wf, fun near => ?_⟩
    have refined := run.invariant (I := fun s => s.Sound ∧ s.Refined)
      (G := fun s a => s.machine.Promised a ∧ s.machine.Meets a ∧ s.machine.Near a)
      (fun _ _ _ before good taken => ⟨before.1.next good.1 good.2.1 taken,
        before.2.next before.1 good.2.1 good.2.2 taken⟩)
      (fun p mem => ⟨promised p mem, meets p mem, near p mem⟩)
      ⟨Or.inl ⟨rfl, start⟩, ⟨same ▸ empty, empty⟩, fun r todo same => by cases same⟩
    obtain ⟨t, mem, agrees⟩ := agrees
    exact refined.2.refines mem agrees

/-- A rehash that a crash cuts short, another one with all of its events, and the start of a third. -/
def rehashesAndCrash : List (Action UInt64 UInt64) :=
  .put 7 1 0 :: List.replicate 8 .step ++
    [.rehash 0 true 9, .step, .step, .step, .crash fun _ => 1, .rehash 0 true 10] ++
    List.replicate 10 .step ++ [.rehash 0 true 11, .step, .step, .step]

theorem rehash_crash_atomic_restarted :
    ∃ (machine : Machine (wordSetup usedHeap)) (s : RehashMachine (wordSetup usedHeap))
        (steps : List (RehashMachine (wordSetup usedHeap) × Action UInt64 UInt64)),
      (wordSetup usedHeap).initTable 2 2 = some machine ∧
        Transition.Run next ⟨machine, none⟩ steps s ∧
        s.rehashing.isSome = true ∧ (s.machine.buckets_ 0).address = 10 ∧
        ∀ keep, s.machine.Recovers keep fun found => ∃ t ∈ s.tables, found.Agrees t := by
  have ran : ((wordSetup usedHeap).initTable 2 2).bind (fun machine =>
      (Transition.execute (Transition.guarded next fun s a => s.machine.Meets a) ⟨machine, none⟩
        rehashesAndCrash).map fun s => (s.rehashing.isSome, (s.machine.buckets_ 0).address)) =
      some (true, 10) := by decide +kernel
  obtain ⟨machine, fresh, rest⟩ := Option.bind_eq_some_iff.mp ran
  obtain ⟨s, executed, result⟩ := Option.map_eq_some_iff.mp rest
  obtain ⟨rehashing, address⟩ := Prod.mk.inj result
  obtain ⟨steps, run, meets⟩ := Transition.exists_run_of_guarded executed
  have promised : ∀ (s : Machine (wordSetup usedHeap)) a, s.Promised a := by
    intro s a
    cases a with
    | put key value addr => exact fun bytes encoded => by cases encoded
    | _ => trivial
  refine ⟨machine, s, steps, fresh, run, rehashing, address, fun keep => ?_⟩
  obtain ⟨buckets', found, agrees, -⟩ := (rehash_crash_atomic fresh (by decide) rfl run
    (fun p _ => promised p.1.machine p.2) meets).2 keep
  exact ⟨buckets', found, agrees⟩

end RehashMachine

end TurboHash.Pmem
