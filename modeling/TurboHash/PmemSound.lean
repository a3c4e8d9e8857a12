import TurboHash.PmemCommit

/-!
# Every crash leaves the table before the operation or the table after it

`Machine.Sound` is the invariant of the runs: between operations the memory surely holds
the table, and during one it surely holds what the operation found, under locations that
the operation avoids, while whatever is published holds what the operation makes of it.
`Sound.survives` draws the conclusion for a crash at any moment.
-/

namespace TurboHash.Pmem

open LineMemory

namespace Machine

variable {K V H E : Type} {S : Setup K V H E}

/-- No operation is in progress. -/
structure Idle (s : Machine S) : Prop where
  todo : s.todo = []
  pending : s.pending = none
  same : s.before = s.after
  holds : S.Holds (Surely (lineOf S.metaWord) s.memory) s.buckets_ s.after.table

/-- An operation that started on memory `m₀` has made the events `done`. It prepares with
`prepare` and publishes with the version word of cell `c`. -/
structure Running (s : Machine S) (m₀ : S.Memory) (prepare done : List S.Event) (r c : Nat)
    (version : Version cellMeta256V2) : Prop where
  unfinished : s.todo ≠ []
  split : done ++ s.todo = prepare ++ S.commitEvents r c version
  memory : s.memory = execAll (lineOf S.metaWord) m₀ done
  pending : s.pending = some (r, c, version)
  stale : ∃ w, (Surely (lineOf S.metaWord) m₀ (.ver r c) w ∧
    ∀ e ∈ prepare, e.Avoids (lineOf S.metaWord) (.ver r c)) ∧ w ≠ version
  old : S.Holds (fun l w => Surely (lineOf S.metaWord) m₀ l w ∧
    ∀ e ∈ prepare, e.Avoids (lineOf S.metaWord) l) s.buckets_ s.before.table
  new : ∀ R : S.Says, R (.ver r c) version →
    (∀ k, k ≠ .ver r c → lineOf S.metaWord k = lineOf S.metaWord (.ver r c) →
      R k (current (lineOf S.metaWord) (execAll (lineOf S.metaWord) m₀ prepare) k)) →
    (∀ k w, k ≠ .ver r c → Surely (lineOf S.metaWord) (execAll (lineOf S.metaWord) m₀ prepare) k w →
      R k w) → S.Holds R s.buckets_ s.after.table

/-- The invariant. -/
structure Sound (s : Machine S) : Prop where
  before_count : s.before.table.bucketCountShift = s.bucketCountShift
  after_count : s.after.table.bucketCountShift = s.bucketCountShift
  phase : s.Idle ∨ ∃ m₀ prepare done r c version, s.Running m₀ prepare done r c version

variable {s s' : Machine S}

/-! ## A crash -/

theorem survivor_of_idle (pending : s.pending = none) (keep : Addr → Nat) :
    s.survivor keep = s.after := by
  unfold survivor committed
  rw [pending]
  rfl

theorem survivor_of_running {r c : Nat} {version : Version cellMeta256V2}
    (pending : s.pending = some (r, c, version)) (keep : Addr → Nat) :
    (s.image keep (.ver r c) = version → s.survivor keep = s.after) ∧
      (s.image keep (.ver r c) ≠ version → s.survivor keep = s.before) := by
  have decided : s.committed keep = decide (s.image keep (.ver r c) = version) := by
    unfold committed
    rw [pending]
  unfold survivor
  rw [decided]
  exact ⟨fun same => if_pos (decide_eq_true same), fun different => if_neg (by simp [different])⟩

theorem survivor_count (sound : s.Sound) (keep : Addr → Nat) :
    (s.survivor keep).table.bucketCountShift = s.bucketCountShift := by
  unfold survivor
  split
  case isTrue => exact sound.after_count
  case isFalse => exact sound.before_count

/-- What a crash leaves holds the table before the operation, or the one after it if its
version word has survived. -/
theorem Sound.survives (sound : s.Sound) (keep : Addr → Nat) :
    S.Holds (fun l w => s.image keep l = w) s.buckets_ (s.survivor keep).table := by
  rcases sound.phase with idle | ⟨m₀, prepare, done, r, c, version, run⟩
  · rw [survivor_of_idle idle.pending]
    exact idle.holds.mono fun l w sure => sure.image keep
  · have image : s.image keep =
        LineMemory.image (lineOf S.metaWord) (execAll (lineOf S.metaWord) m₀ done) keep := by
      rw [Machine.image, run.memory]
    have quiet : ∀ e ∈ [S.flushLoc (.ver r c), .fence], e.Quiet := by
      intro e mem
      rw [List.mem_cons, List.mem_singleton] at mem
      rcases mem with rfl | rfl <;> trivial
    obtain ⟨committed, stale⟩ := survivor_of_running run.pending keep
    rcases commit_atomic (lineOf S.metaWord) (m := m₀) quiet run.split keep with
      unpublished | ⟨published, line, sure⟩
    · obtain ⟨w, ⟨before, avoids⟩, different⟩ := run.stale
      have found : s.image keep (.ver r c) = w := image ▸ unpublished _ _ before avoids
      rw [stale (found ▸ different)]
      exact run.old.mono fun l w held => image ▸ unpublished l w held.1 held.2
    · have found : s.image keep (.ver r c) = version := image ▸ published
      rw [committed found]
      exact run.new _ found (fun k different same => image ▸ line k different same)
        fun k w different held => image ▸ sure k w different held

/-- `Recover` finds a table that agrees with the survivor. -/
theorem Sound.recovers (sound : s.Sound) (keep : Addr → Nat) :
    ∃ buckets', S.recover (s.image keep) s.bucketCount = some buckets' ∧
      (∀ i < s.bucketCount, buckets' i = s.buckets_ i) ∧
      (S.table (s.image keep) s.bucketCountShift buckets').Agrees (s.survivor keep).table := by
  have holds := sound.survives keep
  have count : (s.survivor keep).table.bucketCount = s.bucketCount :=
    congrArg (2 ^ ·) (survivor_count sound keep)
  obtain ⟨buckets', found, same⟩ := holds.recover_eq
  have agrees := holds.agrees same
  rw [survivor_count sound] at agrees
  rw [count] at found same
  exact ⟨buckets', found, same, agrees⟩

theorem Sound.reboot (sound : s.Sound) {keep : Addr → Nat} (step : s.reboot keep = some s') :
    s'.Sound := by
  obtain ⟨buckets', found, same, agrees⟩ := sound.recovers keep
  unfold Machine.reboot at step
  rw [found] at step
  cases step
  have count : (s.survivor keep).table.bucketCount = s.bucketCount :=
    congrArg (2 ^ ·) (survivor_count sound keep)
  refine ⟨rfl, rfl, Or.inl ⟨rfl, rfl, rfl, ?_⟩⟩
  have held := (sound.survives keep).congr agrees fun i inside => same i (count ▸ inside)
  exact held.mono fun l w image => image ▸ surely_crashed

/-! ## The next event -/

theorem Sound.advance (sound : s.Sound) (step : s.advance = some s') : s'.Sound := by
  unfold Machine.advance at step
  rcases sound.phase with idle | ⟨m₀, prepare, done, r, c, version, run⟩
  · rw [idle.todo] at step
    cases step
  · cases pending : s.todo with
    | nil =>
      rw [pending] at step
      cases step
    | cons e rest =>
      rw [pending] at step
      cases step
      have split : (done ++ [e]) ++ rest = prepare ++ S.commitEvents r c version := by
        rw [← run.split, pending, List.append_assoc]
        rfl
      have memory : exec (lineOf S.metaWord) s.memory e =
          execAll (lineOf S.metaWord) m₀ (done ++ [e]) := by
        rw [execAll_append, ← run.memory]
        rfl
      cases rest with
      | nil =>
        -- the operation has ended
        refine ⟨sound.after_count, sound.after_count, Or.inl ⟨rfl, rfl, rfl, ?_⟩⟩
        rw [List.append_nil] at split
        rw [memory, split]
        obtain ⟨published, line, sure⟩ := commit_settled (lineOf S.metaWord) prepare (m := m₀)
          (l := .ver r c) (v := version)
        exact run.new _ published line sure
      | cons e' rest =>
        exact ⟨sound.before_count, sound.after_count, Or.inr ⟨m₀, prepare, done ++ [e], r, c,
          version, by simp, split, memory, run.pending, run.stale, run.old, run.new⟩⟩

/-! ## The operations -/

/-- Between operations the operations see the table that the memory holds. -/
theorem Idle.view (idle : s.Idle) (count : s.after.table.bucketCountShift = s.bucketCountShift) :
    s.view.Agrees s.after.table ∧
      S.Holds (Surely (lineOf S.metaWord) s.memory) s.buckets_ s.view := by
  have seen : S.Holds (fun l w => s.content l = w) s.buckets_ s.after.table :=
    idle.holds.mono fun l w sure => sure.current
  have agrees := seen.agrees fun i _ => rfl
  rw [count] at agrees
  exact ⟨agrees, idle.holds.congr agrees fun i _ => rfl⟩

/-- A `Put` writes nothing that the table uses. -/
theorem not_putWrites_of_promised {bi : Nat} {key : K} {value : V} {addr : Nat} {info : SlotInfo H}
    (holds : S.Holds (Surely (lineOf S.metaWord) s.memory) s.buckets_ s.view)
    (inside : bi < s.view.bucketCount)
    (dead : ((s.view.buckets bi).cells info.cell).live info.slot = false)
    (promised : s.Promised (.put key value addr)) :
    S.Holds (fun l w => Surely (lineOf S.metaWord) s.memory l w ∧
        ∀ e ∈ S.putPrepare (s.buckets_ bi).address info key value addr,
          e.Avoids (lineOf S.metaWord) l) s.buckets_ s.view := by
  have weaker : S.Holds (fun l w => Surely (lineOf S.metaWord) s.memory l w ∧
      ¬ S.PutWrites (s.buckets_ bi).address info key value addr l) s.buckets_ s.view := by
    refine holds.restrict (fun i second => ?_) (fun r c => ?_) (fun i less c within j alive => ?_)
      fun i less c within j alive key' value' addr' bytes' slotHolds encoded' k shorter => ?_
    · simp [Setup.PutWrites]
    · simp [Setup.PutWrites]
    · -- a live slot is not the target
      have other : ¬ ((s.buckets_ i).address = (s.buckets_ bi).address ∧ c = info.cell ∧
          j = info.slot) := by
        intro same
        obtain ⟨region, rfl, rfl⟩ := same
        have eq := holds.apart i less bi inside region
        subst eq
        rw [dead] at alive
        cases alive
      simp only [Setup.PutWrites, Loc.tag.injEq, Loc.h1.injEq, Loc.entry.injEq, reduceCtorEq,
        false_or, or_false, and_false, exists_false]
      exact ⟨other, other, other⟩
    · -- the record of a live slot is not where the allocator has put the new one
      simp only [Setup.PutWrites, reduceCtorEq, Loc.byte.injEq, false_or, not_exists, not_and]
      intro bytes encoded l less' same
      have extent : S.format.extent (S.heap s.content)
          (s.content (.entry (s.buckets_ i).address c j)) = (addr', bytes'.length) := by
        have word : s.content (.entry (s.buckets_ i).address c j) = S.format.word value' addr' :=
          slotHolds.entry.current
        rw [word]
        exact S.format.extent_word _ _ _ _ _ encoded'
          (slotHolds.lineRecordAt (fun _ _ sure => sure.current) encoded')
      have apart := promised bytes encoded i less c within j (Version.lt_bits_of_live alive) alive
      dsimp only at apart
      rw [extent] at apart
      rcases apart with before | behind
      · dsimp only at before
        omega
      · dsimp only at behind
        omega
  exact weaker.mono fun l w held => ⟨held.1, Setup.avoids_putPrepare held.2⟩

/-- What a published `Put` has in its slot. -/
theorem slotHolds_of_prepared {m : S.Memory} {r addr : Nat} {key : K} {value : V}
    {info : SlotInfo H} {b : Bucket cellMeta256V2 H E} {R : S.Says}
    (prepared : Setup.Prepared m r info key value addr) (target : PutTarget S.layout b key info)
    (line : ∀ k, k ≠ .ver r info.cell →
      lineOf S.metaWord k = lineOf S.metaWord (.ver r info.cell) →
        R k (current (lineOf S.metaWord) m k))
    (sure : ∀ k w, k ≠ .ver r info.cell → Surely (lineOf S.metaWord) m k w → R k w) :
    S.SlotHolds R r info.cell info.slot key value addr where
  tag := by
    have onLine : lineOf S.metaWord (.tag r info.cell info.slot) =
        lineOf S.metaWord (.ver r info.cell) := by
      have less : info.slot < 16 := target.slot_lt
      simp only [lineOf, cacheLineSize, Addr.cell.injEq, true_and]
      omega
    have tag := line (.tag r info.cell info.slot) Loc.noConfusion onLine
    rwa [prepared.tag, target.h2] at tag
  h1 := sure _ _ Loc.noConfusion prepared.h1
  entry := sure _ _ Loc.noConfusion prepared.entry
  fits := prepared.fits
  record bytes encoded j b some := sure _ _ Loc.noConfusion (prepared.record bytes encoded j b some)

variable [DecidableEq K] [DecidableEq H]

theorem Idle.beginPut (idle : s.Idle) (count : s.after.table.bucketCountShift = s.bucketCountShift)
    {key : K} {value : V} {addr : Nat} (promised : s.Promised (.put key value addr))
    (meets : s.Meets (.put key value addr)) (step : s.beginPut key value addr = some s') :
    s'.Sound := by
  obtain ⟨-, holds⟩ := idle.view count
  have inside : s.view.bucketOf S.layout key < s.view.bucketCount := s.view.bucketOf_lt _ _
  unfold Machine.beginPut at step
  split at step
  case h_1 => cases step
  case h_2 res search =>
    split at step
    case isFalse => cases step
    case isTrue found =>
      cases step
      have wf := holds.wf _ inside
      have answer := Bucket.findSlotForInsert_answer wf (Nat.lt_succ_self _) search
      have target := PutTarget.of_answer wf answer found
      have old := not_putWrites_of_promised holds inside target.dead promised
      refine ⟨rfl, rfl, Or.inr ⟨s.memory, _, [], _, _, _, by simp [Setup.commitEvents], rfl, rfl,
        rfl, ?_, old, ?_⟩⟩
      · have held := (old.cells _ inside _ target.inside).ver
        exact ⟨_, held, (putVersion_ne (holds.cells _ inside _ target.inside).wf _).symm⟩
      · intro R published line sure
        have others : ∀ l w, l ≠ .ver (s.buckets_ (s.view.bucketOf S.layout key)).address
            res.targetSlot.cell → (Surely (lineOf S.metaWord) s.memory l w ∧
              ∀ e ∈ S.putPrepare (s.buckets_ (s.view.bucketOf S.layout key)).address
                res.targetSlot key value addr, e.Avoids (lineOf S.metaWord) l) → R l w :=
          fun l w different held => sure l w different (Surely.execAll held.1 held.2)
        have stored := slotHolds_of_prepared (Setup.prepared meets) target line sure
        have published := old.setCell inside ((old.cells _ inside _ target.inside).put published
          target.wf target.lives stored others) others
        exact (congrArg (fun cell => S.Holds R s.buckets_ (s.view.setBucket _
          (Bucket.setCell _ _ cell))) (target.commit value)).mpr published

theorem Idle.beginDelete (idle : s.Idle)
    (count : s.after.table.bucketCountShift = s.bucketCountShift) {key : K}
    (step : s.beginDelete key = some s') : s'.Sound := by
  obtain ⟨-, holds⟩ := idle.view count
  have inside : s.view.bucketOf S.layout key < s.view.bucketCount := s.view.bucketOf_lt _ _
  unfold Machine.beginDelete at step
  split at step
  case h_1 => cases step
  case h_2 search =>
    cases step
    exact ⟨rfl, rfl, Or.inl ⟨idle.todo, idle.pending, rfl, holds⟩⟩
  case h_3 c i search =>
    cases step
    have wf := holds.wf _ inside
    obtain ⟨within, value, alive, -⟩ :=
      Bucket.findSlotForDelete_answer wf (Nat.lt_succ_self _) search
    have masked : (s.content (.ver (s.buckets_ (s.view.bucketOf S.layout key)).address c) :
        Version cellMeta256V2).masked = ((s.view.buckets (s.view.bucketOf S.layout key)).cells c).ver :=
      (wf c within).ver.masked_eq
    have unprepared : S.Holds (fun l w => Surely (lineOf S.metaWord) s.memory l w ∧
        ∀ e ∈ ([] : List S.Event), e.Avoids (lineOf S.metaWord) l) s.buckets_ s.view :=
      holds.mono fun l w sure => ⟨sure, by simp⟩
    refine ⟨rfl, rfl, Or.inr ⟨s.memory, [], [], _, _, _, by simp [Setup.commitEvents], rfl, rfl,
      rfl, ?_, unprepared, ?_⟩⟩
    · rw [masked]
      exact ⟨_, (unprepared.cells _ inside _ within).ver, (delete_ne _ _).symm⟩
    · intro R published line sure
      rw [masked] at published
      have deleted := holds.setCell inside ((holds.cells _ inside _ within).erase
        (Version.occupied_of_live alive) published fun l w different held => sure l w different held) fun l w different held =>
          sure l w different held
      rwa [← deleteCommit_eq (wf c within)] at deleted

end Machine

end TurboHash.Pmem
