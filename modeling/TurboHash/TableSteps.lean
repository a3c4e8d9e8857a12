import TurboHash.TableOwners

/-!
# The steps of the threads on a table

Each step keeps every record with one owner, and leaves to the other threads what they rely on
(`Sound`, `Kept`). One thing has to be asked of the steps: a `Delete` that passes its tests under the
lock has a slot that is still valid.
-/

namespace TurboHash

open Simulation

namespace TableRace

variable {F : CellFormat} {τ K V H E : Type} [DecidableEq τ] {L : SlotLayout K (Nat × V) H E}
  {kCellCountLimit bucketCountShift : Nat} {s s' : TableRace F τ K V H E} {t : τ}

/-! ## Where the steps lead -/

/-- Behind a mark the next store is the last one. -/
theorem Sound.calls_of_store (sound : s.Sound L bucketCountShift)
    (taken : s.store L bucketCountShift t = some s') :
    ∃ key marked, s.calls t = .writing key marked ∧
      (s'.calls t = .written key ∨ s'.calls t = .writing key false) ∧
        ∀ bi, (s'.buckets bi).current = (s.buckets bi).current := by
  obtain ⟨key, marked, bucket, holder, was, -, stored, rfl⟩ := store_cases taken
  refine ⟨key, marked, was, ?_, fun bi => ?_⟩
  · cases marked with
    | false =>
      cases holder with
      | free => exact Or.inl setCall_self
      | _ => exact Or.inr setCall_self
    | true =>
      obtain ⟨n, key', writing, retires⟩ := sound.marked t key was
      cases was.symm.trans writing
      obtain rfl := Holder.free_of_retires retires stored
      exact Or.inl setCall_self
  · by_cases here : bi = bucketOf L bucketCountShift key
    · simp [setBucket, TableRace.setCall, FindRace.setBucket, here]
    · simp [setBucket, TableRace.setCall, here]

theorem calls_of_mark {node : Node} (taken : s.mark L bucketCountShift t = some (node, s')) :
    s'.buckets = s.buckets ∧
      ((∃ key n, s.calls t = .writing key false ∧ s'.calls t = .writing key true ∧
          node = .record n ∧ s'.Retiring L bucketCountShift t n) ∨
        ∃ key value old, s.calls t = .rehashed key value old false ∧
          s'.calls t = .rehashed key value old true ∧
            node = .array (bucketOf L bucketCountShift key) old) := by
  simp only [TableRace.mark] at taken
  split at taken
  case h_1 key was =>
    obtain ⟨n, leaves, same⟩ := Option.map_eq_some_iff.mp taken
    cases same
    exact ⟨rfl, Or.inl ⟨key, n, was, setCall_self, rfl, key, setCall_self, leaves⟩⟩
  case h_2 key value old was =>
    cases taken
    exact ⟨rfl, Or.inr ⟨key, value, old, was, setCall_self, rfl⟩⟩
  case h_3 => cases taken

/-- A step that needs no lock, of a thread that has none. -/
theorem Sound.go (sound : s.Sound L bucketCountShift) {call : TableCall F K V H E}
    (was : (s.calls t).locked = none) (locked : call.locked = none)
    (delete : ∀ key c, call = .delete key c →
      let bi := bucketOf L bucketCountShift key
      FindRace.InsideCurrent L bi key { s.buckets bi with call := c }) :
    (s.setCall t call).Sound L bucketCountShift ∧ s.Kept L bucketCountShift t (s.setCall t call) := by
  have notWriting : ∀ key marked, s.calls t ≠ .writing key marked := by
    intro key marked writing
    rw [writing] at was
    cases was
  refine ⟨sound.setCall (locked.trans was.symm) ?_ ?_ delete, .setCall fun key => notWriting key true⟩
  · exact fun key marked writing => absurd writing (notWriting key marked)
  · intro key writing
    rw [writing] at locked
    cases locked

theorem Sound.begin (sound : s.Sound L bucketCountShift) (op : MapOp K V) (idle : s.calls t = .idle) :
    (s.setCall t (.start op)).Sound L bucketCountShift ∧
      s.Kept L bucketCountShift t (s.setCall t (.start op)) := by
  refine sound.go (by rw [idle]; rfl) (by cases op <;> rfl) fun key c same => ?_
  cases op <;> cases same
  exact ⟨fun array here => (by cases here), fun here => (by cases here)⟩

theorem Sound.load [DecidableEq H] (sound : s.Sound L bucketCountShift)
    (taken : s.load L bucketCountShift t = some s') :
    s'.Sound L bucketCountShift ∧ s.Kept L bucketCountShift t s' := by
  rcases load_cases taken with ⟨key, call, call', was, read, rfl⟩ | ⟨key, call, was, next⟩
  · exact sound.go (by rw [was]; rfl) rfl (by simp)
  · rcases next with rfl | ⟨call', read, rfl⟩
    · exact sound.go (by rw [was]; rfl) rfl (by simp)
    · refine sound.go (by rw [was]; rfl) rfl fun key' c same => ?_
      cases same
      exact (sound.deletes t key call was).read read

/-! ## The sections under the lock -/

section Lock

variable [DecidableEq H]

omit [DecidableEq H] in
/-- A thread takes the free lock of the bucket of its key. -/
theorem Sound.take (sound : s.Sound L bucketCountShift) {key : K} {call : TableCall F K V H E}
    {b : FindRace F K (Nat × V) H E} {puts : Nat} {gained : Multiset Nat}
    (was : (s.calls t).locked = none) (free : s.locks (bucketOf L bucketCountShift key) = none)
    (exchanges : (s.buckets (bucketOf L bucketCountShift key)).Exchanges L
      (bucketOf L bucketCountShift key) b gained 0)
    (gain : gained = 0 ∧ puts = s.puts ∨ gained = {s.puts} ∧ puts = s.puts + 1)
    (locked : call.locked = some key) (unmarked : ∀ key, call ≠ .writing key true)
    (holds : b.holder = .free ∨ call = .writing key false) :
    (s.change t (bucketOf L bucketCountShift key) call b (some t) puts).Sound L bucketCountShift ∧
      s.Kept L bucketCountShift t
        (s.change t (bucketOf L bucketCountShift key) call b (some t) puts) := by
  have touches : s.Touches L bucketCountShift t (bucketOf L bucketCountShift key) call b (some t) :=
    .take sound.toLocked was free locked holds exchanges.current_le exchanges.shift
  have changes : s.Changes L bucketCountShift t (bucketOf L bucketCountShift key) call b (some t)
      puts gained 0 := by
    refine ⟨touches, exchanges, gain, fun key' => unmarked key', fun n => ?_⟩
    refine iff_of_false ?_ (Multiset.notMem_zero n)
    rintro ⟨key', writing, -⟩
    rw [writing] at was
    cases was
  exact ⟨sound.change changes, .change sound changes⟩

/-- A thread takes the lock of its bucket. -/
theorem Sound.lockBucket (sound : s.Sound L bucketCountShift) {memory : Nat → Cell F H E}
    (valid : ∀ key p m i slots, s.calls t = .delete key (.comparing p m i slots) →
      ValidSlot L (s.buckets (bucketOf L bucketCountShift key)) key p m i)
    (taken : s.lock L kCellCountLimit bucketCountShift t memory = some s') :
    s'.Sound L bucketCountShift ∧ s.Kept L bucketCountShift t s' := by
  cases lock_cases taken with
  | @put key value res was free search found =>
    have inside := bucketOf_lt L bucketCountShift key
    exact sound.take (by rw [was]; rfl) free (.put (sound.formed _ inside)
      (sound.unlocked inside free).2 value search found) (Or.inr ⟨rfl, rfl⟩) rfl (by simp) (Or.inr rfl)
  | @rehash key value _ _ b was free _ _ rehashed =>
    have inside := bucketOf_lt L bucketCountShift key
    obtain ⟨exchanges, free'⟩ := FindRace.Exchanges.rehash (sound.formed _ inside)
      (sound.unlocked inside free).2 rehashed
    exact sound.take (by rw [was]; rfl) free exchanges (Or.inl ⟨rfl, rfl⟩) rfl (by simp) (Or.inl free')
  | @delete key p m i slots was free fresh equal here =>
    have inside := bucketOf_lt L bucketCountShift key
    have way := (sound.deletes t key _ was).2 (congrArg some here)
    have inArray := way.inArray p rfl
    have alive := valid key p m i slots was here fresh equal
    rw [Version.isPosValid_eq_live] at alive
    simp only [FindProbe.cell, here] at alive inArray
    exact sound.take (by rw [was]; rfl) free (.delete (sound.formed _ inside)
      (sound.unlocked inside free).2 inArray alive) (Or.inl ⟨rfl, rfl⟩) rfl (by simp) (Or.inr rfl)
  | @goOn key p call call' was probed next =>
    refine sound.go (by rw [was]; rfl) rfl fun key' c same => ?_
    cases same
    exact (sound.deletes t key call was).goOn probed next

omit [DecidableEq H] in
/-- A thread stores under the lock that it has. -/
theorem Sound.under (sound : s.Sound L bucketCountShift) {key : K} {marked : Bool}
    {call : TableCall F K V H E} {b : FindRace F K (Nat × V) H E} {lost : Multiset Nat}
    (was : s.calls t = .writing key marked)
    (exchanges : (s.buckets (bucketOf L bucketCountShift key)).Exchanges L
      (bucketOf L bucketCountShift key) b 0 lost)
    (has : call.locked = some key) (unmarked : ∀ key, call ≠ .writing key true)
    (holds : b.holder = .free ∨ call = .writing key marked)
    (leaves : ∀ n, s.Retiring L bucketCountShift t n ↔ n ∈ lost) :
    let s' := (s.setBucket (bucketOf L bucketCountShift key) b).setCall t call
    s'.Sound L bucketCountShift ∧ s.Kept L bucketCountShift t s' := by
  have locked : (s.calls t).locked = some key := by rw [was]; rfl
  have touches : s.Touches L bucketCountShift t (bucketOf L bucketCountShift key) call b (some t) :=
    .under sound.toLocked was has holds exchanges.current_le exchanges.shift
  have changes : s.Changes L bucketCountShift t (bucketOf L bucketCountShift key) call b (some t)
      s.puts 0 lost := ⟨touches, exchanges, Or.inl ⟨rfl, rfl⟩, unmarked, leaves⟩
  dsimp only
  rw [← sound.change_eq locked]
  exact ⟨sound.change changes, .change sound changes⟩

/-- The next store under the lock. -/
theorem Sound.store (sound : s.Sound L bucketCountShift) (records : L.HasRecords)
    (entry : L.PointsByEntry) (taken : s.store L bucketCountShift t = some s') :
    s'.Sound L bucketCountShift ∧ s.Kept L bucketCountShift t s' := by
  obtain ⟨key, marked, bucket, holder, was, unmarked, stored, rfl⟩ := store_cases taken
  have formed := sound.formed _ (bucketOf_lt L bucketCountShift key)
  have exchanges := FindRace.Exchanges.store records entry formed stored
  have leaves : ∀ n, s.Retiring L bucketCountShift t n ↔
      n ∈ ((Holder.retires L (s.buckets (bucketOf L bucketCountShift key)).bucket
        (s.buckets (bucketOf L bucketCountShift key)).holder).toList : List Nat) := by
    intro n
    rw [Option.mem_toList]
    constructor
    · rintro ⟨key', writing, leaves⟩
      cases was.symm.trans writing
      exact leaves
    · -- a record is not stored over before it is marked
      intro leaves
      obtain rfl := unmarked (by rw [Option.mem_def.mp leaves]; rfl)
      exact ⟨key, was, leaves⟩
  cases marked with
  | true =>
    -- what was marked leaves with this store
    obtain ⟨n, key', writing, retires⟩ := sound.marked t key was
    cases was.symm.trans writing
    obtain rfl := Holder.free_of_retires retires stored
    exact sound.under was exchanges rfl (by simp) (Or.inl rfl) leaves
  | false =>
    cases holder with
    | free => exact sound.under was exchanges rfl (by simp) (Or.inl rfl) leaves
    | _ => exact sound.under was exchanges rfl (by simp) (Or.inr rfl) leaves

omit [DecidableEq H] in
/-- A thread gives the lock of a bucket back. -/
theorem Sound.giveBack (sound : s.Sound L bucketCountShift) {key : K} {call : TableCall F K V H E}
    (has : (s.calls t).locked = some key) (notWriting : ∀ key marked, s.calls t ≠ .writing key marked)
    (unlocked : call.locked = none) (noSearch : ∀ key c, call ≠ .delete key c) :
    let s' := (s.setCall t call).setLock (bucketOf L bucketCountShift key) none
    s'.Sound L bucketCountShift ∧ s.Kept L bucketCountShift t s' := by
  have inside := bucketOf_lt L bucketCountShift key
  have changes : s.Changes L bucketCountShift t (bucketOf L bucketCountShift key) call
      (s.buckets (bucketOf L bucketCountShift key)) none s.puts 0 0 := by
    refine ⟨.giveBack sound.toLocked has notWriting unlocked noSearch, .refl (sound.formed _ inside),
      Or.inl ⟨rfl, rfl⟩, ?_, fun n => iff_of_false ?_ (Multiset.notMem_zero n)⟩
    · rintro key' rfl
      cases unlocked
    · rintro ⟨key', writing, -⟩
      exact notWriting key' true writing
  dsimp only
  rw [← change_eq_setLock]
  exact ⟨sound.change changes, .change sound changes⟩

omit [DecidableEq H] in
theorem Sound.unlock (sound : s.Sound L bucketCountShift)
    (taken : s.unlock L bucketCountShift t = some s') :
    s'.Sound L bucketCountShift ∧ s.Kept L bucketCountShift t s' := by
  simp only [TableRace.unlock] at taken
  split at taken <;> cases taken
  case h_1 key was =>
    exact sound.giveBack (by rw [was]; rfl) (by simp [was]) rfl (by simp)
  case h_2 key value old was =>
    exact sound.giveBack (by rw [was]; rfl) (by simp [was]) rfl (by simp)

omit [DecidableEq H] in
/-- The call of `markNodeForDeletion`. -/
theorem Sound.mark (sound : s.Sound L bucketCountShift) {node : Node}
    (taken : s.mark L bucketCountShift t = some (node, s')) :
    s'.Sound L bucketCountShift ∧ s.Kept L bucketCountShift t s' := by
  simp only [TableRace.mark] at taken
  split at taken
  case h_1 key was =>
    obtain ⟨n, leaves, same⟩ := Option.map_eq_some_iff.mp taken
    cases same
    refine ⟨sound.setCall (by rw [was]; rfl) ?_ ?_ (by simp), .setCall ?_⟩
    · intro key' marked writing
      cases was.symm.trans writing
      exact ⟨true, rfl⟩
    · exact fun key' writing => ⟨n, key, setCall_self, leaves⟩
    · intro key' writing
      cases was.symm.trans writing
  case h_2 key value old was =>
    cases taken
    refine ⟨sound.setCall (by rw [was]; rfl) ?_ (by simp) (by simp), .setCall ?_⟩
    · intro key' marked writing
      cases was.symm.trans writing
    · intro key' writing
      cases was.symm.trans writing
  case h_3 => cases taken

end Lock

end TableRace

end TurboHash
