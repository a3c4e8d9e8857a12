import TurboHash.TableRace

/-!
# The threads of a table and its bucket locks

A bucket is worked on by the thread that has its lock, and a search of `deleteSlot` stays inside its
array for as long as that is the current one. A step of a thread leaves the buckets alone, or is
one at a bucket whose lock the thread takes, has, or gives back.
-/

namespace TurboHash

open Simulation

variable {F : CellFormat} {τ K V H E : Type} {L : SlotLayout K (Nat × V) H E}

/-! ## A search without the lock -/

namespace FindRace

variable {bi : Nat} {r r' : FindRace F K (Nat × V) H E} {key : K} {call call' : FindCall F H E}

/-- A search of `deleteSlot` stays inside its array for as long as that is the current one. -/
def InsideCurrent (L : SlotLayout K (Nat × V) H E) (bi : Nat) (key : K)
    (r : FindRace F K (Nat × V) H E) : Prop :=
  (∀ array, r.call.array = some array → array ≤ r.current) ∧
    (r.call.array = some r.current → r.Inside L bi key)

variable [DecidableEq H]

/-- The array of a search, and of the load before it. -/
theorem FindCall.array_of_read {current array : Nat} {arrays : Nat → Bucket F H E}
    (read : call.read L key bi current arrays = some call') (here : call'.array = some array) :
    call.array = some array ∨ call = .calling ∧ call' = .addressed current ∧ array = current := by
  cases FindCall.moves_of_read read with
  | address =>
    cases here
    exact Or.inr ⟨rfl, rfl, rfl⟩
  | size | enter =>
    cases here
    exact Or.inl rfl
  | stay was now =>
    cases (FindCall.array_of_probed now).symm.trans here
    exact Or.inl (FindCall.array_of_probed was)
  | retry was | leave was =>
    cases here
    have same := FindCall.array_of_probed was
    exact Or.inl same
  | stop => cases here

theorem InsideCurrent.read (inside : InsideCurrent L bi key { r with call })
    (read : call.read L key bi r.current r.arrays = some call') :
    InsideCurrent L bi key { r with call := call' } := by
  refine ⟨fun array here => ?_, fun here => ?_⟩
  · rcases FindCall.array_of_read read here with was | ⟨-, -, rfl⟩
    · exact inside.1 array was
    · exact le_rfl
  · rcases FindCall.array_of_read read here with was | ⟨-, rfl, -⟩
    · refine Inside.read (s := { r with call }) (inside.2 was) ?_ read
      cases call with
      | addressed array =>
        cases was
        rfl
      | _ => trivial
    · refine ⟨fun array same => ?_, nofun, nofun⟩
      cases same
      exact le_rfl

omit [DecidableEq H] in
theorem InsideCurrent.congr (inside : InsideCurrent L bi key r) (call : r'.call = r.call)
    (current_le : r.current ≤ r'.current) (shift : ∀ array ≤ r.current,
      (r'.arrays array).cellCountShift = (r.arrays array).cellCountShift) :
    r'.InsideCurrent L bi key := by
  refine ⟨fun array here => ?_, fun here => ?_⟩
  · exact (inside.1 array (call ▸ here)).trans current_le
  · have same : r'.current = r.current := le_antisymm (inside.1 _ (call ▸ here)) current_le
    exact (inside.2 (by rw [← call, here, same])).congr call current_le shift

omit [DecidableEq H] in
/-- The search goes on from its cell, or begins again. -/
theorem InsideCurrent.goOn {p : FindProbe} (inside : InsideCurrent L bi key { r with call })
    (probed : call.probed = some p)
    (next : call' = .calling ∨ call' = .probing p ∨ ∃ m slots, call' = .scanning p m slots) :
    InsideCurrent L bi key { r with call := call' } := by
  obtain ⟨published, current⟩ := inside
  have here : p.array ≤ r.current := published _ (FindCall.array_of_probed probed)
  have way : p.array = r.current → Inside L bi key { r with call } := by
    intro same
    exact current ((FindCall.array_of_probed probed).trans (congrArg some same))
  rcases next with rfl | rfl | ⟨m, slots, rfl⟩
  · exact ⟨fun array same => (by cases same), fun same => (by cases same)⟩
  · refine ⟨fun array same => ?_, fun same => ?_⟩
    · cases same
      exact here
    · have onPath := (way (Option.some.inj same)).onPath p (FindCall.probe_of_probed probed)
      exact .at_probing here onPath
  · refine ⟨fun array same => ?_, fun same => ?_⟩
    · cases same
      exact here
    · have way := way (Option.some.inj same)
      exact .at_cell rfl here (way.onPath p (FindCall.probe_of_probed probed)) (way.within p probed)

omit [DecidableEq H] in
theorem current_of_rehash {kCellCountLimit : Nat} {isgc : Bool} {memory : Nat → Cell F H E}
    (taken : r.rehash L kCellCountLimit bi isgc memory = some r') :
    r'.current = r.current + 1 ∧ r'.holder = r.holder := by
  rw [FindRace.rehash] at taken
  split at taken
  case isTrue => cases taken
  case isFalse =>
    split at taken <;> cases taken
    exact ⟨rfl, rfl⟩

omit [DecidableEq H] in
/-- A store leaves the sizes of the arrays as they are. -/
theorem shift_of_setBucket {b : Bucket F H E} {holder : Holder K (Nat × V) H}
    (stored : r.holder.store L r.bucket = some (b, holder)) (array : Nat) :
    ((r.setBucket b).arrays array).cellCountShift = (r.arrays array).cellCountShift := by
  by_cases here : array = r.current
  · subst here
    simpa [setBucket, FindRace.bucket] using shift_of_store stored
  · simp [setBucket, here]

end FindRace

namespace TableRace

section Locked

variable (L : SlotLayout K (Nat × V) H E) (bucketCountShift : Nat)

theorem bucketOf_lt (key : K) : bucketOf L bucketCountShift key < 2 ^ bucketCountShift := by
  rw [bucketOf, Nat.and_two_pow_sub_one_eq_mod]
  exact Nat.mod_lt _ (Nat.two_pow_pos _)

/-- A bucket is worked on by the thread that has its lock, and a search of `deleteSlot` does not leave
its array. -/
structure Locked (s : TableRace F τ K V H E) : Prop where
  lock : ∀ t key, (s.calls t).locked = some key →
    s.locks (bucketOf L bucketCountShift key) = some t
  holder : ∀ bi < 2 ^ bucketCountShift, (s.buckets bi).holder = .free ∨
    ∃ t key marked, s.calls t = .writing key marked ∧ bucketOf L bucketCountShift key = bi
  deletes : ∀ t key call, s.calls t = .delete key call →
    let bi := bucketOf L bucketCountShift key
    FindRace.InsideCurrent L bi key { s.buckets bi with call }

end Locked

variable {kCellCountLimit bucketCountShift bi puts : Nat} {s s' : TableRace F τ K V H E} {t : τ}
  {call : TableCall F K V H E} {b : FindRace F K (Nat × V) H E} {lock : Option τ}

theorem Locked.start (buckets : Nat → Bucket F H E) (puts : Nat) :
    (start buckets puts : TableRace F τ K V H E).Locked L bucketCountShift :=
  ⟨nofun, fun _ _ => Or.inl rfl, nofun⟩

/-! ## The lock of a bucket -/

/-- A thread that works on a bucket has its lock for itself. -/
theorem Locked.alone (locked : s.Locked L bucketCountShift) {key key' : K} {u : τ}
    (has : (s.calls t).locked = some key) (other : (s.calls u).locked = some key')
    (same : bucketOf L bucketCountShift key' = bucketOf L bucketCountShift key) : u = t := by
  have mine := locked.lock t key has
  rw [← same, locked.lock u key' other] at mine
  exact Option.some.inj mine

/-- Nobody works on a bucket whose lock is free. -/
theorem Locked.unlocked (locked : s.Locked L bucketCountShift) (inside : bi < 2 ^ bucketCountShift)
    (free : s.locks bi = none) :
    (∀ u key, (s.calls u).locked = some key → bucketOf L bucketCountShift key ≠ bi) ∧
      (s.buckets bi).holder = .free := by
  have nobody : ∀ u key, (s.calls u).locked = some key → bucketOf L bucketCountShift key ≠ bi := by
    rintro u key has rfl
    rw [locked.lock u key has] at free
    cases free
  refine ⟨nobody, (locked.holder bi inside).resolve_right ?_⟩
  rintro ⟨u, key, marked, writing, same⟩
  exact nobody u key (by rw [writing]; rfl) same

/-- The holder of a lock that stores nothing leaves nothing to be stored. -/
theorem Locked.holder_free (locked : s.Locked L bucketCountShift) {key : K}
    (has : (s.calls t).locked = some key)
    (notWriting : ∀ key marked, s.calls t ≠ .writing key marked) :
    (s.buckets (bucketOf L bucketCountShift key)).holder = .free := by
  refine (locked.holder _ (bucketOf_lt L _ key)).resolve_right ?_
  rintro ⟨u, key', marked, writing, same⟩
  obtain rfl := locked.alone has (by rw [writing]; rfl) same
  exact notWriting key' marked writing

section Change

variable [DecidableEq τ]

@[simp] theorem setCall_self : (s.setCall t call).calls t = call := Function.update_self ..

theorem setCall_of_ne {u : τ} (other : u ≠ t) : (s.setCall t call).calls u = s.calls u :=
  Function.update_of_ne other ..

/-- A thread goes on without a lock, or under the one it has. -/
theorem Locked.setCall (locked : s.Locked L bucketCountShift)
    (same : call.locked = (s.calls t).locked)
    (writing : ∀ key marked, s.calls t = .writing key marked → ∃ marked', call = .writing key marked')
    (delete : ∀ key c, call = .delete key c →
      let bi := bucketOf L bucketCountShift key
      FindRace.InsideCurrent L bi key { s.buckets bi with call := c }) :
    (s.setCall t call).Locked L bucketCountShift where
  lock u key has := by
    by_cases here : u = t
    · subst here
      rw [setCall_self, same] at has
      exact locked.lock u key has
    · rw [setCall_of_ne here] at has
      exact locked.lock u key has
  holder bi inside := by
    refine (locked.holder bi inside).imp_right ?_
    rintro ⟨u, key, mark, was, at_bi⟩
    by_cases here : u = t
    · subst here
      obtain ⟨mark', now⟩ := writing key mark was
      exact ⟨u, key, mark', setCall_self.trans now, at_bi⟩
    · exact ⟨u, key, mark, (setCall_of_ne here).trans was, at_bi⟩
  deletes u key c has := by
    by_cases here : u = t
    · subst here
      rw [setCall_self] at has
      exact delete key c has
    · rw [setCall_of_ne here] at has
      exact locked.deletes u key c has

/-! ## Steps at a bucket -/

/-- The state behind a step of thread `t` at bucket `bi`. -/
def change (s : TableRace F τ K V H E) (t : τ) (bi : Nat) (call : TableCall F K V H E)
    (b : FindRace F K (Nat × V) H E) (lock : Option τ) (puts : Nat) : TableRace F τ K V H E where
  buckets := Function.update s.buckets bi b
  locks := Function.update s.locks bi lock
  calls := Function.update s.calls t call
  puts := puts

theorem change_self : (s.change t bi call b lock puts).calls t = call := Function.update_self ..

theorem change_bucket (bi' : Nat) :
    (s.change t bi call b lock puts).buckets bi' = if bi' = bi then b else s.buckets bi' :=
  Function.update_apply ..

/-- A step of the thread that has the lock. -/
theorem Locked.change_eq (locked : s.Locked L bucketCountShift) {key : K}
    (has : (s.calls t).locked = some key) :
    s.change t (bucketOf L bucketCountShift key) call b (some t) s.puts =
      (s.setBucket (bucketOf L bucketCountShift key) b).setCall t call := by
  have same : Function.update s.locks (bucketOf L bucketCountShift key) (some t) = s.locks := by
    rw [← locked.lock t key has, Function.update_eq_self]
  rw [TableRace.change, same]
  rfl

/-- A step that gives the lock back. -/
theorem change_eq_setLock :
    s.change t bi call (s.buckets bi) none s.puts = (s.setCall t call).setLock bi none := by
  rw [TableRace.change, Function.update_eq_self]
  rfl

/-- The thread takes the lock of the bucket, has it, or gives it back. -/
structure Touches (L : SlotLayout K (Nat × V) H E) (bucketCountShift : Nat)
    (s : TableRace F τ K V H E) (t : τ) (bi : Nat) (call : TableCall F K V H E)
    (b : FindRace F K (Nat × V) H E) (lock : Option τ) : Prop where
  inside : bi < 2 ^ bucketCountShift
  /-- no other thread has the lock -/
  alone : ∀ u key, (s.calls u).locked = some key → bucketOf L bucketCountShift key = bi → u = t
  own : ∀ key, (s.calls t).locked = some key → bucketOf L bucketCountShift key = bi
  locked : ∀ key, call.locked = some key → bucketOf L bucketCountShift key = bi ∧ lock = some t
  holds : b.holder = .free ∨
    ∃ key marked, call = .writing key marked ∧ bucketOf L bucketCountShift key = bi
  noSearch : ∀ key c, call ≠ .delete key c
  current_le : (s.buckets bi).current ≤ b.current
  shift : ∀ array ≤ (s.buckets bi).current,
    (b.arrays array).cellCountShift = ((s.buckets bi).arrays array).cellCountShift

omit [DecidableEq τ] in
theorem Touches.take {key : K} (locked : s.Locked L bucketCountShift)
    (was : (s.calls t).locked = none) (free : s.locks (bucketOf L bucketCountShift key) = none)
    (now : call.locked = some key) (holds : b.holder = .free ∨ call = .writing key false)
    (current_le : (s.buckets (bucketOf L bucketCountShift key)).current ≤ b.current)
    (shift : ∀ array ≤ (s.buckets (bucketOf L bucketCountShift key)).current,
      (b.arrays array).cellCountShift =
        ((s.buckets (bucketOf L bucketCountShift key)).arrays array).cellCountShift) :
    s.Touches L bucketCountShift t (bucketOf L bucketCountShift key) call b (some t) := by
  have inside := bucketOf_lt L bucketCountShift key
  obtain ⟨nobody, -⟩ := locked.unlocked inside free
  refine ⟨inside, ?_, ?_, ?_, ?_, ?_, current_le, shift⟩
  · exact fun u key' has same => absurd same (nobody u key' has)
  · intro key' has
    rw [was] at has
    cases has
  · intro key' has
    cases now.symm.trans has
    exact ⟨rfl, rfl⟩
  · exact holds.imp_right fun writing => ⟨key, false, writing, rfl⟩
  · rintro key' c rfl
    cases now

omit [DecidableEq τ] in
theorem Touches.under {key : K} {marked : Bool} (locked : s.Locked L bucketCountShift)
    (was : s.calls t = .writing key marked) (now : call.locked = some key)
    (holds : b.holder = .free ∨ call = .writing key marked)
    (current_le : (s.buckets (bucketOf L bucketCountShift key)).current ≤ b.current)
    (shift : ∀ array ≤ (s.buckets (bucketOf L bucketCountShift key)).current,
      (b.arrays array).cellCountShift =
        ((s.buckets (bucketOf L bucketCountShift key)).arrays array).cellCountShift) :
    s.Touches L bucketCountShift t (bucketOf L bucketCountShift key) call b (some t) := by
  have has : (s.calls t).locked = some key := by rw [was]; rfl
  refine ⟨bucketOf_lt L _ key, ?_, ?_, ?_, ?_, ?_, current_le, shift⟩
  · exact fun u key' has' same => locked.alone has has' same
  · intro key' has'
    cases has.symm.trans has'
    rfl
  · intro key' has'
    cases now.symm.trans has'
    exact ⟨rfl, rfl⟩
  · exact holds.imp_right fun writing => ⟨key, marked, writing, rfl⟩
  · rintro key' c rfl
    cases now

omit [DecidableEq τ] in
theorem Touches.giveBack {key : K} (locked : s.Locked L bucketCountShift)
    (has : (s.calls t).locked = some key)
    (notWriting : ∀ key marked, s.calls t ≠ .writing key marked) (unlocked : call.locked = none)
    (noSearch : ∀ key c, call ≠ .delete key c) :
    s.Touches L bucketCountShift t (bucketOf L bucketCountShift key) call
      (s.buckets (bucketOf L bucketCountShift key)) none := by
  refine ⟨bucketOf_lt L _ key, ?_, ?_, ?_, ?_, noSearch, le_rfl, fun _ _ => rfl⟩
  · exact fun u key' has' same => locked.alone has has' same
  · intro key' has'
    cases has.symm.trans has'
    rfl
  · intro key' has'
    rw [unlocked] at has'
    cases has'
  · exact Or.inl (locked.holder_free has notWriting)

/-- The searches of the others go on. -/
theorem Touches.searching (touches : s.Touches L bucketCountShift t bi call b lock) {bi' : Nat} :
    (s.buckets bi').current ≤ ((s.change t bi call b lock puts).buckets bi').current ∧
      ∀ array ≤ (s.buckets bi').current,
        (((s.change t bi call b lock puts).buckets bi').arrays array).cellCountShift =
          ((s.buckets bi').arrays array).cellCountShift := by
  rw [change_bucket]
  split
  case isTrue here =>
    subst here
    exact ⟨touches.current_le, touches.shift⟩
  case isFalse => exact ⟨le_rfl, fun _ _ => rfl⟩

theorem Locked.change (locked : s.Locked L bucketCountShift)
    (touches : s.Touches L bucketCountShift t bi call b lock) :
    (s.change t bi call b lock puts).Locked L bucketCountShift where
  lock u key has := by
    by_cases here : u = t
    · subst here
      rw [TableRace.change] at has ⊢
      simp only [Function.update_self] at has
      obtain ⟨same, mine⟩ := touches.locked key has
      simp only [same, Function.update_self, mine]
    · rw [TableRace.change] at has ⊢
      simp only [Function.update_of_ne here] at has
      have other : bucketOf L bucketCountShift key ≠ bi :=
        fun same => here (touches.alone u key has same)
      simp only [Function.update_of_ne other]
      exact locked.lock u key has
  holder bi' inside := by
    rw [change_bucket]
    split
    case isTrue here =>
      refine touches.holds.imp_right ?_
      rintro ⟨key, marked, now, same⟩
      exact ⟨t, key, marked, (Function.update_self ..).trans now, same.trans here.symm⟩
    case isFalse other =>
      refine (locked.holder bi' inside).imp_right ?_
      rintro ⟨u, key, marked, was, same⟩
      have apart : u ≠ t := by
        rintro rfl
        exact other (same.symm.trans (touches.own key (by rw [was]; rfl)))
      exact ⟨u, key, marked, (Function.update_of_ne apart ..).trans was, same⟩
  deletes u key c has := by
    have other : u ≠ t := by
      rintro rfl
      exact touches.noSearch key c (change_self.symm.trans has)
    have was := locked.deletes u key c ((Function.update_of_ne other ..).symm.trans has)
    exact was.congr rfl touches.searching.1 touches.searching.2

end Change

/-! ## Where the steps lead -/

section Steps

variable [DecidableEq τ]

theorem load_cases [DecidableEq H] (taken : s.load L bucketCountShift t = some s') :
    (∃ key call call', s.calls t = .find key call ∧
      (let bi := bucketOf L bucketCountShift key
       let b := s.buckets bi
       call.read L key bi b.current b.arrays = some call') ∧ s' = s.setCall t (.find key call')) ∨
    ∃ key call, s.calls t = .delete key call ∧ (s' = s.setCall t .done ∨
      ∃ call', (let bi := bucketOf L bucketCountShift key
        let b := s.buckets bi
        call.read L key bi b.current b.arrays = some call') ∧
          s' = s.setCall t (.delete key call')) := by
  simp only [load] at taken
  split at taken
  case h_1 key call was =>
    obtain ⟨call', read, rfl⟩ := Option.map_eq_some_iff.mp taken
    exact Or.inl ⟨key, call, call', was, read, rfl⟩
  case h_2 | h_4 => cases taken
  case h_3 key call _ was =>
    obtain ⟨call', read, same⟩ := Option.map_eq_some_iff.mp taken
    refine Or.inr ⟨key, call, was, ?_⟩
    cases call' with
    | returned result => exact Or.inl same.symm
    | _ => exact Or.inr ⟨_, read, same.symm⟩

/-- What a thread does with the lock of its bucket: a `Put` has found a slot, or has replaced the
array; a `Delete` has found its slot, or has given the lock back and goes on with its search. -/
inductive Locks [DecidableEq H] (L : SlotLayout K (Nat × V) H E) (kCellCountLimit bucketCountShift : Nat)
    (s : TableRace F τ K V H E) (t : τ) : TableRace F τ K V H E → Prop
  | put {key : K} {value : V} {res : FindSlotForInsertResult H} (was : s.calls t = .put key value)
    (free : s.locks (bucketOf L bucketCountShift key) = none)
    (search : (s.buckets (bucketOf L bucketCountShift key)).bucket.findSlotForInsert L key
      (L.keyHash key) (maxProbeLen + 1) (bucketOf L bucketCountShift key) = .ok res)
    (found : res.find = true) :
    Locks L kCellCountLimit bucketCountShift s t
      (s.change t (bucketOf L bucketCountShift key) (.writing key false)
        { s.buckets (bucketOf L bucketCountShift key) with
          holder := .putting .h1 key (s.puts, value) res.targetSlot } (some t) (s.puts + 1))
  | rehash {key : K} {value : V} {res : FindSlotForInsertResult H} {memory : Nat → Cell F H E}
    {b : FindRace F K (Nat × V) H E} (was : s.calls t = .put key value)
    (free : s.locks (bucketOf L bucketCountShift key) = none)
    (search : (s.buckets (bucketOf L bucketCountShift key)).bucket.findSlotForInsert L key
      (L.keyHash key) (maxProbeLen + 1) (bucketOf L bucketCountShift key) = .ok res)
    (noRoom : res.find = false)
    (rehashed : (s.buckets (bucketOf L bucketCountShift key)).rehash L kCellCountLimit
      (bucketOf L bucketCountShift key) false memory = some b) :
    Locks L kCellCountLimit bucketCountShift s t
      (s.change t (bucketOf L bucketCountShift key)
        (.rehashed key value (s.buckets (bucketOf L bucketCountShift key)).current false) b (some t)
        s.puts)
  | delete {key : K} {p : FindProbe} {m : CellMeta F} {i : Nat} {slots : List Nat}
    (was : s.calls t = .delete key (.comparing p m i slots))
    (free : s.locks (bucketOf L bucketCountShift key) = none)
    (fresh : seqAdvanced m.ver
      (p.cell (s.buckets (bucketOf L bucketCountShift key)).arrays).loadVersion = false)
    (equal : L.slotKeyEqual key
      ((p.cell (s.buckets (bucketOf L bucketCountShift key)).arrays).slots i) = true)
    (here : p.array = (s.buckets (bucketOf L bucketCountShift key)).current) :
    Locks L kCellCountLimit bucketCountShift s t
      (s.change t (bucketOf L bucketCountShift key) (.writing key false)
        { s.buckets (bucketOf L bucketCountShift key) with
          holder := .deleting key p.probe.cellIndex i } (some t) s.puts)
  | goOn {key : K} {p : FindProbe} {call call' : FindCall F H E} (was : s.calls t = .delete key call)
    (probed : call.probed = some p)
    (next : call' = .calling ∨ call' = .probing p ∨ ∃ m slots, call' = .scanning p m slots) :
    Locks L kCellCountLimit bucketCountShift s t (s.setCall t (.delete key call'))

theorem lock_cases [DecidableEq H] {memory : Nat → Cell F H E}
    (taken : s.lock L kCellCountLimit bucketCountShift t memory = some s') :
    s.Locks L kCellCountLimit bucketCountShift t s' := by
  simp only [TableRace.lock] at taken
  split at taken
  case h_1 key value was =>
    split at taken
    case h_2 => cases taken
    case h_1 free =>
      simp only [TableRace.lockPut] at taken
      split at taken
      case h_2 => cases taken
      case h_1 res search =>
        split at taken
        case isTrue found =>
          cases taken
          exact .put was free search found
        case isFalse noRoom =>
          obtain ⟨b, rehashed, rfl⟩ := Option.map_eq_some_iff.mp taken
          exact .rehash was free search (Bool.eq_false_iff.mpr noRoom) rehashed
  case h_2 key p m i slots was =>
    split at taken <;> cases taken
    case h_1 free =>
      simp only [TableRace.lockDelete]
      split
      case isTrue => exact .goOn was rfl (Or.inr (Or.inl rfl))
      case isFalse fresh =>
        split
        case isFalse => exact .goOn was rfl (Or.inr (Or.inr ⟨m, slots, rfl⟩))
        case isTrue equal =>
          split
          case isTrue here => exact .delete was free (Bool.eq_false_iff.mpr fresh) equal here
          case isFalse => exact .goOn was rfl (Or.inl rfl)
  case h_3 => cases taken

/-- A thread that takes a lock has a slot, has run a `MinorRehash`, or goes on with its search. -/
theorem calls_of_lock [DecidableEq H] {memory : Nat → Cell F H E}
    (taken : s.lock L kCellCountLimit bucketCountShift t memory = some s') :
    ∃ key, ((∃ value, s.calls t = .put key value) ∨ ∃ c, s.calls t = .delete key c) ∧
      (((s'.calls t = .writing key false ∨ ∃ c, s'.calls t = .delete key c) ∧
          ∀ bi, (s'.buckets bi).current = (s.buckets bi).current) ∨
        ∃ value, s'.calls t = .rehashed key value
            (s.buckets (bucketOf L bucketCountShift key)).current false ∧
          ∀ bi, (s'.buckets bi).current = (s.buckets bi).current +
            if bi = bucketOf L bucketCountShift key then 1 else 0) := by
  cases lock_cases taken with
  | @put key value _ was =>
    refine ⟨key, Or.inl ⟨value, was⟩, Or.inl ⟨Or.inl change_self, fun bi => ?_⟩⟩
    by_cases here : bi = bucketOf L bucketCountShift key <;> simp [change_bucket, here]
  | @rehash key value _ _ b was _ _ _ rehashed =>
    refine ⟨key, Or.inl ⟨value, was⟩, Or.inr ⟨value, change_self, fun bi => ?_⟩⟩
    by_cases here : bi = bucketOf L bucketCountShift key
    · simp [change_bucket, here, (FindRace.current_of_rehash rehashed).1]
    · simp [change_bucket, here]
  | @delete key _ _ _ _ was =>
    refine ⟨key, Or.inr ⟨_, was⟩, Or.inl ⟨Or.inl change_self, fun bi => ?_⟩⟩
    by_cases here : bi = bucketOf L bucketCountShift key <;> simp [change_bucket, here]
  | @goOn key _ _ _ was =>
    exact ⟨key, Or.inr ⟨_, was⟩, Or.inl ⟨Or.inr ⟨_, setCall_self⟩, fun _ => rfl⟩⟩

/-- The next store of a thread: of a word, or of the version word, which is the last. -/
theorem store_cases (taken : s.store L bucketCountShift t = some s') :
    ∃ key marked bucket holder, s.calls t = .writing key marked ∧
      (let b := s.buckets (bucketOf L bucketCountShift key)
       ((b.holder.retires L b.bucket).isSome = true → marked = true) ∧
        b.holder.store L b.bucket = some (bucket, holder) ∧
          s' = (s.setBucket (bucketOf L bucketCountShift key)
            { b.setBucket bucket with holder }).setCall t
              (match holder with
              | .free => .written key
              | _ => .writing key marked)) := by
  simp only [TableRace.store] at taken
  split at taken
  case h_2 => cases taken
  case h_1 key marked was =>
    split at taken
    case isTrue => cases taken
    case isFalse unmarked =>
      obtain ⟨⟨bucket, holder⟩, stored, rfl⟩ := Option.map_eq_some_iff.mp taken
      refine ⟨key, marked, bucket, holder, was, fun retires => ?_, stored, ?_⟩
      · cases marked <;> simp_all
      · cases holder <;> rfl

theorem calls_of_unlock (taken : s.unlock L bucketCountShift t = some s') :
    s'.buckets = s.buckets ∧
      ∃ key, (s.calls t = .written key ∧ s'.calls t = .done) ∨
        ∃ value old, s.calls t = .rehashed key value old true ∧ s'.calls t = .put key value := by
  simp only [TableRace.unlock] at taken
  split at taken <;> cases taken
  case h_1 key was => exact ⟨rfl, key, Or.inl ⟨was, Function.update_self ..⟩⟩
  case h_2 key value old was => exact ⟨rfl, key, Or.inr ⟨value, old, was, Function.update_self ..⟩⟩

end Steps

end TableRace

end TurboHash
