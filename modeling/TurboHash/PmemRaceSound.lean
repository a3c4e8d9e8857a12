import TurboHash.PmemRace

/-!
# Every bucket survives a crash of the threads

Each bucket has its locations: its regions, its entry of the meta array, and the bytes of its records.
An operation stores nowhere else, so its bucket sees the memory as if no other thread was there, and
`atomic_put`, `atomic_delete` and `atomic_rehash` apply to it. What a crash leaves is the table with
those operations in progress whose publishing store has survived.
-/

namespace TurboHash.Pmem

open LineMemory

variable {K V H E : Type} {S : Setup K V H E}

namespace PmemRace

/-- The locations of bucket `i`. -/
def Mine (s : PmemRace S) (i : Nat) : Loc → Prop
  | .ver r _ | .tag r _ _ | .h1 r _ _ | .entry r _ _ => r ∈ s.regions i
  | .curVer j | .cellCountLeftshift _ j | .bucketPtr _ j => j = i
  | .byte a => s.allocated a = some i

/-- An operation in progress keeps to the locations of its bucket, and is within an atomic program. -/
structure Busy (s : PmemRace S) (i : Nat) (w : Writing S) : Prop where
  unfinished : w.todo ≠ []
  own : s.Mine i w.publish.loc
  avoids : ∀ e ∈ w.todo, ∀ l, ¬ s.Mine i l → e.Avoids (lineOf S.metaWord) l
  within : Within (lineOf S.metaWord) (s.Mine i) (s.memory.view i) w.todo w.publish.loc
    w.publish.value (S.BucketHolds i (s.buckets_ i) (s.before i))
    (S.BucketHolds i w.bucketMeta w.bucket)

/-- The bucket is in persistent memory for sure. -/
def Settled (s : PmemRace S) (i : Nat) : Prop :=
  S.BucketHolds i (s.buckets_ i) (s.before i) fun l w =>
    s.Mine i l ∧ Surely (lineOf S.metaWord) s.memory.content l w

/-- The invariant. -/
structure Sound (s : PmemRace S) : Prop where
  apart : ∀ i < s.bucketCount, ∀ j < s.bucketCount, ∀ r ∈ s.regions i, r ∈ s.regions j → i = j
  inside : ∀ i w, s.writing i = some w → i < s.bucketCount
  idle : ∀ i < s.bucketCount, s.writing i = none → s.Settled i
  busy : ∀ i w, s.writing i = some w → s.Busy i w

variable {s s' : PmemRace S} {i p : Nat} {w : Writing S}

/-- A location belongs to one bucket. -/
theorem Sound.disjoint (sound : s.Sound) (less : i < s.bucketCount) (less' : p < s.bucketCount)
    {l : Loc} (own : s.Mine i l) (own' : s.Mine p l) : i = p := by
  cases l with
  | ver r c | tag r c j | h1 r c j | entry r c j => exact sound.apart i less p less' r own own'
  | curVer j | cellCountLeftshift second j | bucketPtr second j => exact own.symm.trans own'
  | byte a => exact Option.some.inj (own.symm.trans own')

/-! ## A crash -/

/-- The bucket that a crash takes the bucket back to: that before the operation in progress, or that
behind it. -/
theorem Sound.survives (sound : s.Sound) (keep : Addr → Nat) (less : i < s.bucketCount) :
    ∃ b, b.address ∈ s.regions i ∧ S.BucketHolds i b ((s.tableWith (s.survived keep)).buckets i)
      fun l w => s.Mine i l ∧ s.image keep l = w := by
  cases now : s.writing i with
  | none =>
    refine ⟨s.buckets_ i, List.mem_cons_self, ?_⟩
    simp only [tableWith, now]
    exact Setup.BucketHolds.monotone (fun l w held => ⟨held.1, held.2.image keep⟩)
      (sound.idle i less now)
  | some w =>
    have busy := sound.busy i w now
    have survived : s.survived keep i = w.publish.happened (s.image keep) := by
      rw [PmemRace.survived, now]
      rfl
    simp only [tableWith, now]
    rcases busy.within.crash busy.own ⟨Setup.BucketHolds.monotone, Setup.BucketHolds.monotone⟩ keep
      with ⟨published, holds⟩ | ⟨unpublished, holds⟩
    · refine ⟨w.bucketMeta, by simp [regions, now], ?_⟩
      have happened : w.publish.happened (s.image keep) = true := Publish.happened_iff.mpr published
      rw [survived, if_pos happened]
      exact holds
    · refine ⟨s.buckets_ i, List.mem_cons_self, ?_⟩
      have lost : ¬ w.publish.happened (s.image keep) = true :=
        fun happened => unpublished (Publish.happened_iff.mp happened)
      rw [survived, if_neg lost]
      exact holds

/-- `Recover` finds the metas of these buckets. -/
theorem Sound.recovers (sound : s.Sound) (keep : Addr → Nat) :
    ∃ buckets', S.recover (s.image keep) s.bucketCount = some buckets' ∧
      ∀ i < s.bucketCount, (buckets' i).address ∈ s.regions i ∧
        (S.bucket (s.image keep) (buckets' i)).Agrees
          ((s.tableWith (s.survived keep)).buckets i) ∧
        S.BucketHolds i (buckets' i) ((s.tableWith (s.survived keep)).buckets i)
          fun l w => s.Mine i l ∧ s.image keep l = w := by
  have each : ∀ i < s.bucketCount, ∃ b, S.extract (s.image keep) i = some b ∧
      b.address ∈ s.regions i ∧ S.BucketHolds i b ((s.tableWith (s.survived keep)).buckets i)
        fun l w => s.Mine i l ∧ s.image keep l = w := by
    intro i less
    obtain ⟨b, mem, holds⟩ := sound.survives keep less
    refine ⟨b, ?_, mem, holds⟩
    exact (Setup.BucketHolds.monotone (fun l w held => held.2) holds).extract_eq
  refine ⟨_, if_pos fun i less => ?_, fun i less => ?_⟩
  · obtain ⟨b, found, -⟩ := each i less
    rw [found]
    rfl
  · obtain ⟨b, found, mem, holds⟩ := each i less
    rw [found]
    exact ⟨mem, (Setup.BucketHolds.monotone (fun l w held => held.2) holds).agrees, holds⟩

/-! ## What the other buckets keep -/

theorem mine_congr (regions : s'.regions i = s.regions i)
    (allocated : ∀ a, s'.allocated a = some i ↔ s.allocated a = some i) : s'.Mine i = s.Mine i := by
  funext l
  cases l with
  | ver r c | tag r c j | h1 r c j | entry r c j => simp only [Mine, regions]
  | curVer j | cellCountLeftshift second j | bucketPtr second j => rfl
  | byte a => exact propext (allocated a)

theorem Settled.follow (settled : s.Settled i) (sameMeta : s'.buckets_ i = s.buckets_ i)
    (sameBefore : s'.before i = s.before i) (mine : s'.Mine i = s.Mine i)
    (follows : Follows (lineOf S.metaWord) (s.Mine i) (s'.memory.view i) (s.memory.view i)) :
    s'.Settled i := by
  unfold Settled
  rw [sameMeta, sameBefore, mine]
  exact Setup.BucketHolds.monotone
    (fun l v held => ⟨held.1, follows.surely held.1 (m := s.memory.view i) held.2⟩) settled

theorem Busy.follow (busy : s.Busy i w) (sameMeta : s'.buckets_ i = s.buckets_ i)
    (sameBefore : s'.before i = s.before i) (mine : s'.Mine i = s.Mine i)
    (follows : Follows (lineOf S.metaWord) (s.Mine i) (s'.memory.view i) (s.memory.view i)) :
    s'.Busy i w := by
  refine ⟨busy.unfinished, ?_, ?_, ?_⟩
  · rw [mine]
    exact busy.own
  · rw [mine]
    exact busy.avoids
  · rw [mine, sameMeta, sameBefore]
    exact busy.within.follow follows

/-- An operation stores nothing that belongs to another bucket. -/
theorem Sound.follows (sound : s.Sound) (now : s.writing p = some w) {e : S.Event}
    (mem : e ∈ w.todo) (less : i < s.bucketCount) (other : i ≠ p) :
    Follows (lineOf S.metaWord) (s.Mine i)
      ((execBy (lineOf S.metaWord) p s.memory e).view i) (s.memory.view i) := by
  refine follows_execBy other fun l own => (sound.busy p w now).avoids e mem l fun own' => other ?_
  exact sound.disjoint less (sound.inside p w now) own own'

/-- A bucket whose locations have become others: those it uses are still its own. -/
theorem bucketHolds_mine {b : BucketMetaDram} {bucket : Bucket cellMeta256V2 H E} {Q : S.Says}
    (holds : S.BucketHolds i b bucket fun l v => s.Mine i l ∧ Q l v)
    (region : b.address ∈ s'.regions i)
    (bytes : ∀ c < bucket.cellCount, ∀ j, (bucket.cells c).live j = true →
      ∀ key value addr record, S.SlotHolds (fun l v => s.Mine i l ∧ Q l v) b.address c j key value
        addr → S.format.encode key value = some record →
          ∀ k < record.length, s'.allocated (addr + k) = some i) :
    S.BucketHolds i b bucket fun l v => s'.Mine i l ∧ Q l v :=
  Setup.BucketHolds.monotone (fun _ _ held => ⟨held.2, held.1.2⟩)
    (holds.restrict (A := s'.Mine i) (fun _ => ⟨rfl, rfl, rfl⟩) (fun _ => region)
      (fun _ _ _ _ => ⟨region, region, region⟩) bytes)

/-- The bytes of a record that a slot holds. -/
theorem allocated_of_slotHolds {r c j addr : Nat} {key : K} {value : V} {record : List UInt8}
    {Q : S.Says} (holds : S.SlotHolds (fun l v => s.Mine i l ∧ Q l v) r c j key value addr)
    (encoded : S.format.encode key value = some record) {k : Nat} (less : k < record.length) :
    s.allocated (addr + k) = some i :=
  (holds.record record encoded k _ (List.getElem?_eq_getElem less)).1

/-- What holds of the other buckets, behind a step on bucket `p`. -/
structure Kept (s s' : PmemRace S) (i : Nat) : Prop where
  writing : s'.writing i = s.writing i
  regions : s'.regions i = s.regions i
  settled : s.writing i = none → s.Settled i → s'.Settled i
  busy : ∀ w, s.writing i = some w → s.Busy i w → s'.Busy i w

theorem Kept.of_follows (writing : s'.writing i = s.writing i)
    (sameMeta : s'.buckets_ i = s.buckets_ i) (sameBefore : s'.before i = s.before i)
    (allocated : s'.allocated = s.allocated)
    (follows : Follows (lineOf S.metaWord) (s.Mine i) (s'.memory.view i) (s.memory.view i)) :
    s.Kept s' i := by
  have regions : s'.regions i = s.regions i := by simp only [PmemRace.regions, writing, sameMeta]
  have mine := mine_congr regions fun a => by rw [allocated]
  exact ⟨writing, regions, fun _ settled => settled.follow sameMeta sameBefore mine follows,
    fun w _ busy => busy.follow sameMeta sameBefore mine follows⟩

/-- A step on one bucket. -/
theorem Sound.of_bucket (sound : s.Sound) (less : p < s.bucketCount)
    (count : s'.bucketCountShift = s.bucketCountShift)
    (elsewhere : ∀ i ≠ p, s'.writing i = s.writing i)
    (others : ∀ i < s.bucketCount, i ≠ p → s.Kept s' i)
    (regions : ∀ r ∈ s'.regions p, r ∈ s.regions p ∨ ∀ i < s.bucketCount, r ∉ s.regions i)
    (self : s'.writing p = none ∧ s'.Settled p ∨ ∃ w, s'.writing p = some w ∧ s'.Busy p w) :
    s'.Sound := by
  have counts : s'.bucketCount = s.bucketCount := congrArg (2 ^ ·) count
  have apart : ∀ i < s.bucketCount, i ≠ p → ∀ r ∈ s'.regions p, r ∉ s'.regions i := by
    intro i less' other r mem mem'
    rw [(others i less' other).regions] at mem'
    rcases regions r mem with old | fresh
    · exact other (sound.apart i less' p less r mem' old)
    · exact fresh i less' mem'
  constructor
  · rw [counts]
    intro i less₁ j less₂ r mem mem'
    by_cases eq : i = p
    · by_cases eq' : j = p
      · rw [eq, eq']
      · exact absurd mem' (apart j less₂ eq' r (eq ▸ mem))
    · by_cases eq' : j = p
      · exact absurd mem (apart i less₁ eq r (eq' ▸ mem'))
      · rw [(others i less₁ eq).regions] at mem
        rw [(others j less₂ eq').regions] at mem'
        exact sound.apart i less₁ j less₂ r mem mem'
  · intro i w now
    rw [counts]
    by_cases eq : i = p
    · exact eq ▸ less
    · exact sound.inside i w ((elsewhere i eq).symm.trans now)
  · rw [counts]
    intro i less' free
    by_cases eq : i = p
    · subst eq
      rcases self with ⟨-, settled⟩ | ⟨w, now, -⟩
      · exact settled
      · cases now.symm.trans free
    · rw [elsewhere i eq] at free
      exact (others i less' eq).settled free (sound.idle i less' free)
  · intro i w now
    by_cases eq : i = p
    · subst eq
      rcases self with ⟨free, -⟩ | ⟨u, now', busy⟩
      · cases free.symm.trans now
      · cases now'.symm.trans now
        exact busy
    · rw [elsewhere i eq] at now
      exact (others i (sound.inside i w now) eq).busy w now (sound.busy i w now)

/-! ## The next event -/

theorem Sound.advance [DecidableEq K] (sound : s.Sound) (step : s.advance p = some s') :
    s'.Sound := by
  obtain ⟨w, e, rest, now, todo, result⟩ := advance_cases step
  have busy := sound.busy p w now
  have less := sound.inside p w now
  have follows : ∀ i < s.bucketCount, i ≠ p → Follows (lineOf S.metaWord) (s.Mine i)
      ((execBy (lineOf S.metaWord) p s.memory e).view i) (s.memory.view i) :=
    fun i less other => sound.follows now (by simp [todo]) less other
  have within := busy.within
  rw [todo] at within
  have next := within.step
  rw [← view_execBy_self] at next
  rcases result with ⟨rfl, rfl⟩ | ⟨unfinished, rfl⟩
  · -- the operation has ended, and its bucket is durable
    refine sound.of_bucket less rfl (fun i other => Function.update_of_ne other ..)
      (fun i less' other => .of_follows (Function.update_of_ne other ..)
        (Function.update_of_ne other ..) (Function.update_of_ne other ..) rfl
        (follows i less' other)) (fun r mem => Or.inl ?_) (Or.inl ⟨Function.update_self .., ?_⟩)
    · simp only [regions, Function.update_self, Option.toList_none, List.map_nil,
        List.mem_singleton] at mem
      simp [regions, now, mem]
    · have settled := next.settled Setup.BucketHolds.monotone
      unfold Settled
      simp only [Function.update_self]
      refine bucketHolds_mine settled ?_ fun c _ j _ key value addr record holds encoded k inside =>
        allocated_of_slotHolds holds encoded inside
      simp [regions]
  · have regions : ∀ i, PmemRace.regions { s with
        memory := execBy (lineOf S.metaWord) p s.memory e
        writing := Function.update s.writing p (some { w with todo := rest }) } i = s.regions i := by
      intro i
      by_cases eq : i = p
      · subst eq
        simp [PmemRace.regions, now]
      · simp [PmemRace.regions, eq]
    have mine := mine_congr (i := p) (regions p) fun _ => Iff.rfl
    refine sound.of_bucket less rfl (fun i other => Function.update_of_ne other ..)
      (fun i less' other => .of_follows (Function.update_of_ne other ..) rfl rfl rfl
        (follows i less' other)) (fun r mem => Or.inl (regions p ▸ mem))
      (Or.inr ⟨{ w with todo := rest }, Function.update_self .., unfinished, ?_,
        fun e' mem l other => ?_, ?_⟩)
    · rw [mine]
      exact busy.own
    · rw [mine] at other
      exact busy.avoids e' (by simp [todo, mem]) l other
    · rw [mine]
      exact next

/-! ## The beginning of an operation -/

/-- What a bucket without an operation in progress holds, and how its operation sees it. -/
theorem Settled.viewed (settled : s.Settled i) :
    (s.view.buckets i).Agrees (s.before i) ∧ S.BucketHolds i (s.buckets_ i) (s.view.buckets i)
      fun l w => s.Mine i l ∧ Surely (lineOf S.metaWord) (s.memory.view i) l w := by
  have seen : S.BucketHolds i (s.buckets_ i) (s.before i) fun l w => s.content l = w :=
    Setup.BucketHolds.monotone (fun l w held => held.2.current) settled
  exact ⟨seen.agrees, settled.congr seen.agrees⟩

/-- The records of a bucket are not where the allocator puts the new one. -/
theorem apart_of_unused (free : s.writing i = none) {addr length : Nat}
    (unused : s.Unused i addr length) :
    ∀ c < (s.view.buckets i).cellCount, ∀ j, ((s.view.buckets i).cells c).live j = true →
      ∀ key value addr' record, S.SlotHolds
          (fun l w => s.Mine i l ∧ Surely (lineOf S.metaWord) (s.memory.view i) l w)
          (s.buckets_ i).address c j key value addr' →
        S.format.encode key value = some record →
          addr' + record.length ≤ addr ∨ addr + length ≤ addr' := by
  intro c less j alive key value addr' record holds encoded
  unfold Unused at unused
  rw [free] at unused
  have apart := unused c less j (Version.lt_bits_of_live alive) alive
  have word : s.content (.entry (s.buckets_ i).address c j) = S.format.word value addr' :=
    holds.entry.2.current
  have extent : S.format.extent (S.heap s.content)
      (s.content (.entry (s.buckets_ i).address c j)) = (addr', record.length) := by
    rw [word]
    exact S.format.extent_word _ _ _ _ _ encoded
      (holds.lineRecordAt (fun _ _ held => held.2.current) encoded)
  dsimp only at apart
  rw [extent] at apart
  exact apart

/-- An operation begins, and its allocator returns memory that no bucket uses. -/
theorem Sound.begin (sound : s.Sound) (less : p < s.bucketCount)
    (fresh : w.bucketMeta.address = (s.buckets_ p).address ∨
      ∀ i < s.bucketCount, w.bucketMeta.address ∉ s.regions i) {addr length : Nat}
    (unused : 0 < length → ∀ i < s.bucketCount, s.Unused i addr length)
    (busy : ((s.begin p w).allocate p addr length).Busy p w) :
    ((s.begin p w).allocate p addr length).Sound := by
  have regions : ∀ i, i ≠ p → ((s.begin p w).allocate p addr length).regions i = s.regions i := by
    intro i other
    simp [PmemRace.regions, PmemRace.begin, allocate, other]
  have outside : ∀ {a}, ¬ (addr ≤ a ∧ a < addr + length) →
      ((s.begin p w).allocate p addr length).allocated a = s.allocated a := fun h => if_neg h
  refine sound.of_bucket less rfl (fun i other => Function.update_of_ne other ..)
    (fun i less' other => ?_) (fun r mem => ?_) (Or.inr ⟨w, s.begin_writing p w, busy⟩)
  · have before : (s.begin p w).before i = s.before i := Function.update_of_ne other ..
    refine ⟨Function.update_of_ne other .., regions i other, fun idle settled => ?_,
      fun u now busy => ?_⟩
    · -- its live records are elsewhere
      obtain ⟨agrees, -⟩ := settled.viewed
      change S.BucketHolds i (s.buckets_ i) ((s.begin p w).before i) _
      rw [before]
      refine bucketHolds_mine settled ?_ fun c inside j alive key value addr' record holds encoded k
        shorter => ?_
      · rw [regions i other]
        exact List.mem_cons_self
      · rw [outside]
        · exact allocated_of_slotHolds holds encoded shorter
        · intro within
          rw [← agrees.count_eq] at inside
          rw [← (agrees.cells c (agrees.count_eq ▸ inside)).live_eq] at alive
          have apart := apart_of_unused idle (unused (by omega) i less') c inside j alive key value
            addr' record holds encoded
          omega
    · have mine : ((s.begin p w).allocate p addr length).Mine i = s.Mine i := by
        refine mine_congr (regions i other) fun a => ?_
        by_cases within : addr ≤ a ∧ a < addr + length
        · have never := unused (by omega) i less'
          unfold Unused at never
          rw [now] at never
          have other' : s.allocated a ≠ some i := by
            have := never (a - addr) (by omega)
            rwa [Nat.add_sub_cancel' within.1] at this
          have given : ((s.begin p w).allocate p addr length).allocated a = some p := if_pos within
          rw [given, Option.some_inj]
          exact ⟨fun same => absurd same.symm other, fun same => absurd same other'⟩
        · rw [outside within]
      exact busy.follow rfl before mine .refl
  · simp only [PmemRace.regions, PmemRace.begin, allocate, Function.update_self, Option.toList_some,
      List.map_cons, List.map_nil, List.mem_cons, List.not_mem_nil, or_false] at mem
    rcases mem with rfl | rfl
    · exact Or.inl List.mem_cons_self
    · rcases fresh with same | fresh
      · exact Or.inl (same ▸ List.mem_cons_self)
      · exact Or.inr fresh

/-- A bucket keeps its locations when its operation begins. -/
theorem mine_of_mine (free : s.writing p = none) {addr length : Nat} {l : Loc} (own : s.Mine p l) :
    ((s.begin p w).allocate p addr length).Mine p l := by
  have regions : ∀ r ∈ s.regions p, r ∈ ((s.begin p w).allocate p addr length).regions p := by
    intro r mem
    simp only [PmemRace.regions, free, Option.toList_none, List.map_nil, List.mem_singleton] at mem
    rw [mem]
    exact List.mem_cons_self
  cases l with
  | ver r c | tag r c j | h1 r c j | entry r c j => exact regions r own
  | curVer j | cellCountLeftshift second j | bucketPtr second j => exact own
  | byte a =>
    change (if _ then some p else s.allocated a) = some p
    split
    case isTrue => rfl
    case isFalse => exact own

theorem allocate_nothing {addr : Nat} : s.allocate p addr 0 = s := by
  unfold allocate
  congr 1
  funext a
  exact if_neg (by omega)

theorem mine_of_begin (free : s.writing p = none) {l : Loc} (own : s.Mine p l) :
    (s.begin p w).Mine p l := by
  have mine : ((s.begin p w).allocate p 0 0).Mine p l := mine_of_mine free own
  rwa [allocate_nothing] at mine

/-- An operation without a record begins. -/
theorem Sound.begin_nothing (sound : s.Sound) (less : p < s.bucketCount)
    (fresh : w.bucketMeta.address = (s.buckets_ p).address ∨
      ∀ i < s.bucketCount, w.bucketMeta.address ∉ s.regions i) (busy : (s.begin p w).Busy p w) :
    (s.begin p w).Sound := by
  have begun : ((s.begin p w).allocate p 0 0).Sound :=
    sound.begin less fresh (fun none => absurd none (Nat.lt_irrefl 0)) (by rwa [allocate_nothing])
  rwa [allocate_nothing] at begun

section Put

variable {key : K} {value : V} {addr : Nat} {info : SlotInfo H}

theorem recordLength_eq {bytes : List UInt8} (encoded : S.format.encode key value = some bytes) :
    recordLength S key value = bytes.length := by
  rw [recordLength, encoded]
  rfl

theorem unused_of_promised (promised : s.Promised (.put key value addr))
    (some : 0 < recordLength S key value) :
    ∀ i < s.bucketCount, s.Unused i addr (recordLength S key value) := by
  intro i less
  cases encoded : S.format.encode key value with
  | none =>
    rw [recordLength, encoded] at some
    cases some
  | some bytes =>
    rw [recordLength_eq encoded]
    exact promised bytes encoded i less

/-- What a `Put` writes belongs to its bucket behind the allocation of the record. -/
theorem mine_of_putWrites {l : Loc}
    (writes : S.PutWrites (s.buckets_ p).address info key value addr l) :
    ((s.begin p w).allocate p addr (recordLength S key value)).Mine p l := by
  rcases writes with rfl | rfl | rfl | ⟨bytes, encoded, j, less, rfl⟩
  · exact List.mem_cons_self
  · exact List.mem_cons_self
  · exact List.mem_cons_self
  · refine if_pos ⟨Nat.le_add_right _ _, ?_⟩
    rw [recordLength_eq encoded]
    exact Nat.add_lt_add_left less addr

/-- The events of `commitEvents` store the version word alone. -/
theorem avoids_commitEvents {r c : Nat} {v : Version cellMeta256V2} {l : Loc} (other : l ≠ .ver r c) :
    ∀ e ∈ S.commitEvents r c v, e.Avoids (lineOf S.metaWord) l := by
  intro e mem
  simp only [Setup.commitEvents, List.mem_cons, List.not_mem_nil, or_false] at mem
  rcases mem with rfl | rfl | rfl
  · exact other.symm
  · trivial
  · trivial

/-- A `Put` writes nothing that its bucket uses. -/
theorem Settled.not_putWrites (settled : s.Settled p) (free : s.writing p = none)
    (dead : (((s.view.buckets p).cells info.cell).live info.slot) = false)
    (unused : 0 < recordLength S key value → s.Unused p addr (recordLength S key value)) :
    S.BucketHolds p (s.buckets_ p) (s.view.buckets p) fun l v =>
      (s.Mine p l ∧ Surely (lineOf S.metaWord) (s.memory.view p) l v) ∧
        ¬ S.PutWrites (s.buckets_ p).address info key value addr l := by
  obtain ⟨-, holds⟩ := settled.viewed
  refine holds.restrict (fun second => ?_) (fun c => ?_) (fun c less j alive => ?_)
    fun c less j alive key' value' addr' bytes' slotHolds encoded' k shorter => ?_
  · simp [Setup.PutWrites]
  · simp [Setup.PutWrites]
  · -- a live slot is not the target
    have other : ¬ (c = info.cell ∧ j = info.slot) := by
      intro same
      obtain ⟨rfl, rfl⟩ := same
      cases dead.symm.trans alive
    simp only [Setup.PutWrites, Loc.tag.injEq, Loc.h1.injEq, Loc.entry.injEq, reduceCtorEq,
      false_or, or_false, and_false, exists_false, true_and]
    exact ⟨other, other, other⟩
  · -- the record of a live slot is not where the allocator has put the new one
    simp only [Setup.PutWrites, reduceCtorEq, Loc.byte.injEq, false_or, not_exists, not_and]
    intro bytes encoded j' less' same
    have length := recordLength_eq encoded
    have apart := apart_of_unused free (unused (by omega)) c less j alive key' value' addr' bytes'
      slotHolds encoded'
    omega

theorem Busy.put (settled : s.Settled p) (free : s.writing p = none) (less : p < s.bucketCount)
    (home : s.view.bucketOf S.layout key = p)
    (target : PutTarget S.layout (s.view.buckets p) key info)
    (promised : s.Promised (.put key value addr)) (meets : s.Meets (.put key value addr)) :
    ((s.begin p (s.putting key value addr info)).allocate p addr (recordLength S key value)).Busy p
      (s.putting key value addr info) := by
  subst home
  have holds := settled.not_putWrites free target.dead fun some => unused_of_promised promised some _ less
  have bucket : (s.putting key value addr info).bucket =
      (s.view.buckets (s.view.bucketOf S.layout key)).setCell info.cell (insertToSlotAndGC S.layout
        (S.layout.keyToHash key) key value
          ((s.view.buckets (s.view.bucketOf S.layout key)).cells info.cell) info).1 :=
    Function.update_self ..
  refine ⟨by simp [putting, Setup.commitEvents], List.mem_cons_self, fun e mem l other => ?_, ?_⟩
  · rcases List.mem_append.mp mem with mem | mem
    · exact Setup.avoids_putPrepare (fun writes => other (mine_of_putWrites writes)) e mem
    · refine avoids_commitEvents (fun same => other ?_) e mem
      rw [same]
      exact List.mem_cons_self
  · change Within _ _ _ _ _ _
      (S.BucketHolds _ _ ((s.begin _ (s.putting key value addr info)).before _)) _
    rw [begin_before, bucket]
    refine (Setup.atomic_put ?_ target meets fun l writes => mine_of_putWrites writes).within
    exact Setup.BucketHolds.monotone
      (fun l v held => ⟨⟨mine_of_mine free held.1.1, held.1.2⟩, held.2⟩) holds

theorem Sound.beginPut [DecidableEq H] (sound : s.Sound)
    (promised : s.Promised (.put key value addr)) (meets : s.Meets (.put key value addr))
    (step : s.beginPut key value addr = some s') : s'.Sound := by
  obtain ⟨free, res, search, found, rfl⟩ := beginPut_cases step
  have less : s.view.bucketOf S.layout key < s.bucketCount := s.view.bucketOf_lt _ _
  have settled := sound.idle _ less free
  have answer := Bucket.findSlotForInsert_answer settled.viewed.2.wf (Nat.lt_succ_self _) search
  have target := PutTarget.of_answer settled.viewed.2.wf answer found
  exact sound.begin less (Or.inl rfl) (unused_of_promised promised)
    (.put settled free less rfl target promised meets)

end Put

theorem Sound.beginDelete [DecidableEq H] (sound : s.Sound) {key : K} {c j : Nat}
    (step : s.beginDelete key c j = some s') : s'.Sound := by
  obtain ⟨free, inside, occupied, -, rfl⟩ := beginDelete_cases step
  have less : s.view.bucketOf S.layout key < s.bucketCount := s.view.bucketOf_lt _ _
  obtain ⟨-, holds⟩ := (sound.idle _ less free).viewed
  refine sound.begin_nothing less (Or.inl rfl)
    ⟨by simp [deleting, Setup.commitEvents], List.mem_cons_self, fun e mem l other => ?_, ?_⟩
  · refine avoids_commitEvents (fun same => other ?_) e mem
    rw [same]
    exact List.mem_cons_self
  · rw [begin_before]
    unfold deleting
    dsimp only
    rw [(holds.wf c inside).ver.masked_eq]
    refine (Setup.atomic_delete ?_ inside occupied).within
    exact Setup.BucketHolds.monotone (fun l v held => ⟨mine_of_begin free held.1, held.2⟩) holds

theorem Sound.beginRehash (sound : s.Sound) {bi region : Nat} {isgc : Bool}
    (meets : s.Meets (.rehash bi isgc region)) (step : s.beginRehash bi isgc region = some s') :
    s'.Sound := by
  obtain ⟨free, less, fresh, limit, new, n, second, built, copy, rfl⟩ := beginRehash_cases step
  obtain ⟨-, holds⟩ := (sound.idle bi less free).viewed
  have mem : region ∈ (s.begin bi (s.rehashing bi region new second)).regions bi := by
    simp [regions, PmemRace.begin, rehashing]
  refine sound.begin_nothing less (Or.inr fresh)
    ⟨by simp [rehashing, Setup.rehashEvents, Setup.writeRegion], rfl,
      fun e inEvents l other => ?_, ?_⟩
  · -- what the bucket does not have is neither in the region nor in the meta
    have elsewhere : Elsewhere region bi l := by
      cases l with
      | ver r c | tag r c k | h1 r c k | entry r c k =>
        exact fun same => other (by rw [same]; exact mem)
      | curVer k | cellCountLeftshift copy k | bucketPtr copy k => exact other
      | byte a => trivial
    rcases List.mem_append.mp inEvents with written | stored
    · exact Setup.avoids_writeRegion elsewhere e written
    · exact Setup.avoids_metaStore elsewhere e stored
  · rw [begin_before]
    refine (Setup.atomic_rehash (m := s.memory.view bi) ?_ built copy limit ?_ (meets second copy) ?_
      fun c l inCell => ?_).within
    · exact Setup.BucketHolds.monotone (fun l v held => ⟨mine_of_begin free held.1, held.2⟩) holds
    · exact fun same => fresh bi less (same ▸ List.mem_cons_self)
    · exact ⟨rfl, rfl, rfl⟩
    · cases inCell <;> exact mem

/-! ## A restart -/

theorem Sound.reboot [DecidableEq K] (sound : s.Sound) {keep : Addr → Nat}
    (step : s.reboot keep = some s') : s'.Sound := by
  obtain ⟨buckets', found, each⟩ := sound.recovers keep
  unfold PmemRace.reboot at step
  rw [found, Option.map_some, Option.some_inj] at step
  subst step
  have single : ∀ {i r}, r ∈ ({ s with
      memory := s.memory.crashed keep, buckets_ := buckets'
      before := fun i => S.bucket (s.image keep) (buckets' i), writing := fun _ => none
      map := s.mapWith (s.survived keep) } : PmemRace S).regions i → r = (buckets' i).address := by
    intro i r mem
    simpa [regions] using mem
  refine ⟨?_, nofun, fun i less _ => ?_, nofun⟩
  · intro i less j less' r mem mem'
    rw [single mem] at mem'
    refine sound.apart i less j less' _ (each i less).1 ?_
    rw [single mem']
    exact (each j less').1
  · obtain ⟨-, agrees, holds⟩ := each i less
    refine bucketHolds_mine (s := s) (Q := Surely (lineOf S.metaWord) (s.memory.crashed keep).content)
      ?_ List.mem_cons_self fun c _ j _ key value addr record slotHolds encoded k within =>
        allocated_of_slotHolds slotHolds encoded within
    refine Setup.BucketHolds.monotone (fun l v (held : s.Mine i l ∧ s.image keep l = v) =>
      ⟨held.1, ?_⟩) (holds.congr agrees)
    rw [← held.2]
    exact surely_crashed

theorem Sound.next [DecidableEq K] [DecidableEq H] (sound : s.Sound) {a : PmemAction K V}
    (promised : s.Promised a) (meets : s.Meets a) (step : s.next a = some s') : s'.Sound := by
  cases a with
  | put key value addr => exact sound.beginPut promised meets step
  | delete key c i => exact sound.beginDelete step
  | rehash bi isgc region => exact sound.beginRehash meets step
  | step bi => exact sound.advance step
  | crash keep => exact sound.reboot step

end PmemRace

end TurboHash.Pmem
