import TurboHash.DeleteAtomic
import TurboHash.Lib.AtomicMap
import TurboHash.LookupRace
import TurboHash.TableLocks

/-!
# The bindings of a table under its threads

The map of a table changes with the version words that are stored under the bucket locks, and with
nothing else: a `Put` binds its key, a `Delete` unbinds a bound one, each with its last store. Two
things have to be asked. A `MinorRehash` moves no entry out of the reach of the searches, and a
`Delete` that passes its tests under the lock has a slot that is valid and has the `H1` of its key.
-/

namespace TurboHash

open Simulation

variable {F : CellFormat} {τ K V H E : Type} {L : SlotLayout K (Nat × V) H E}

/-! ## The holder of a lock -/

namespace Holder

variable {bi : Nat} {b b' : Bucket F H E} {holder holder' : Holder K (Nat × V) H}

/-- The operation that the holder of the lock carries out. -/
def op : Holder K (Nat × V) H → Option (MapOp K V)
  | free => none
  | putting _ key value _ => some (.put key value.2)
  | deleting key _ _ => some (.delete key)

/-- The operation that takes effect with the next store. -/
def commits : Holder K (Nat × V) H → Option (MapOp K V)
  | putting .version key value _ => some (.put key value.2)
  | deleting key _ _ => some (.delete key)
  | free | putting _ _ _ _ => none

/-- What the key of the holder is bound to behind its last store. -/
def value : Holder K (Nat × V) H → Option (Nat × V)
  | putting _ _ value _ => some value
  | free | deleting _ _ _ => none

variable [DecidableEq H]

/-- A store before the version word leaves the bindings as they are. -/
theorem Sound.binds_of_word (sound : holder.Sound L bi b)
    (stored : holder.store L b = some (b', holder')) (word : holder.commits = none) :
    holder'.op = holder.op ∧ holder'.key = holder.key ∧ holder' ≠ .free ∧
      ∀ key value, b'.Binds L key value ↔ b.Binds L key value := by
  cases LookupRace.stores_of_store stored with
  | put | delete => cases word
  | @word point point' key value target next =>
    refine ⟨rfl, rfl, by simp, fun key' value' => ?_⟩
    obtain ⟨b₀, -, answer, same⟩ := sound
    have dead := (answer.chosen rfl).dead
    have here : b.cells target.cell = point.stored L key value target (b₀.cells target.cell) := by
      rw [same, Bucket.setCell_self]
    have stillDead : (b.cells target.cell).live target.slot = false := by
      rw [here, (StorePoint.stored_agrees dead).live_eq, dead]
    exact (Bucket.Agrees.setCell (StorePoint.store_agrees next stillDead)).binds_iff

/-- The version word binds the key of a `Put`, and unbinds that of a `Delete`, which is bound. -/
theorem Sound.binds_of_commit (sound : holder.Sound L bi b)
    (stored : holder.store L b = some (b', holder')) {op : MapOp K V}
    (commit : holder.commits = some op) :
    holder' = .free ∧ ∃ key, holder.key = some key ∧ b.Rebinds L b' key holder.value ∧
      (holder.value = none → ∃ value, b.Binds L key value) := by
  cases LookupRace.stores_of_store stored with
  | @word point _ key value target next => cases point <;> cases next <;> cases commit
  | @put key value target =>
    refine ⟨rfl, key, rfl, fun key' value' => ?_, by simp [Holder.value]⟩
    obtain ⟨b₀, placed, answer, same⟩ := sound
    have agrees : b.Agrees b₀ :=
      same ▸ .setCell (StorePoint.stored_agrees (answer.chosen rfl).dead)
    have here : b.cells target.cell =
        StorePoint.version.stored L key value target (b₀.cells target.cell) := by
      rw [same, Bucket.setCell_self]
    have committed := (placed.commit answer rfl value).2 key' value'
    rw [here, StorePoint.store_version, same, Bucket.setCell_setCell, ← same, agrees.binds_iff,
      committed]
    simp [Holder.value, eq_comm]
  | @delete key cell slot =>
    obtain ⟨placed, answer⟩ := sound
    obtain ⟨bound, -, erased⟩ := placed.deleteCommit answer
    refine ⟨rfl, key, rfl, fun key' value' => ?_, fun _ => bound⟩
    rw [erased]
    simp [Holder.value]

omit [DecidableEq H] in
theorem effect_of_commits [DecidableEq K] {op : MapOp K V} (commit : holder.commits = some op)
    {key : K} (same : holder.key = some key) {m : K → Option V}
    (bound : holder.value = none → (m key).isSome = true) :
    op.effect m = some (Function.update m key (holder.value.map Prod.snd)) := by
  cases holder with
  | free => cases commit
  | putting point key' value target =>
    cases same
    cases point <;> cases commit
    rfl
  | deleting key' cell slot =>
    cases same
    cases commit
    rw [MapOp.effect, if_pos (bound rfl)]
    rfl

omit [DecidableEq H] in
theorem op_of_commits {op : MapOp K V} (commit : holder.commits = some op) :
    holder.op = some op := by
  cases holder with
  | free => cases commit
  | putting point key' value target => cases point <;> first | exact commit | cases commit
  | deleting key' cell slot => exact commit

end Holder

/-- A live slot with the `H1` and the key of a `Delete` is that of its key. -/
theorem Bucket.Placed.deleteAnswer {b : Bucket F H E} [DecidableEq H] (placed : b.Placed L) {key : K}
    {c i : Nat} (inside : c < b.cellCount) (alive : (b.cells c).live i = true)
    (sameH1 : ((b.cells c).slots i).h1 = (L.keyHash key).h1)
    (equal : L.slotKeyEqual key ((b.cells c).slots i) = true) :
    DeleteAnswer L b key (some (c, i)) := by
  obtain ⟨key', value, stored, -⟩ := (placed.wf c inside).stored i alive
  rw [stored] at sameH1 equal
  obtain rfl : key = key' := (L.match_slotOf key key' value).mp
    (Bool.and_eq_true_iff.mpr ⟨beq_iff_eq.mpr sameH1, equal⟩)
  exact ⟨inside, value, alive, stored⟩

/-! ## The table -/

namespace TableRace

section Orderly

variable (L : SlotLayout K (Nat × V) H E) (bucketCountShift : Nat)

/-- The table binds `key` to `value`, which some `Put` has stored. -/
def Binds (s : TableRace F τ K V H E) (key : K) (value : V) : Prop :=
  ∃ n, (s.buckets (bucketOf L bucketCountShift key)).bucket.Binds L key (n, value)

/-- The table holds the map. -/
def Refines (s : TableRace F τ K V H E) (m : K → Option V) : Prop :=
  ∀ key value, s.Binds L bucketCountShift key value ↔ m key = some value

/-- Every bucket keeps the placement invariant, as far as the holder of its lock has come, and the
holder writes its own key. -/
structure Orderly [DecidableEq H] (s : TableRace F τ K V H E) : Prop
    extends s.Locked L bucketCountShift where
  buckets : ∀ bi < 2 ^ bucketCountShift, (s.buckets bi).Sound L bi
  writing : ∀ t key marked, s.calls t = .writing key marked →
    (s.buckets (bucketOf L bucketCountShift key)).holder.key = some key

/-- The slot of a `Delete` that passes its tests under the lock is valid and has the `H1` of the
key. -/
def OwnSlot [DecidableEq H] (b : FindRace F K (Nat × V) H E) (key : K) (p : FindProbe)
    (m : CellMeta F) (i : Nat) : Prop :=
  p.array = b.current → seqAdvanced m.ver (p.cell b.arrays).loadVersion = false →
    L.slotKeyEqual key ((p.cell b.arrays).slots i) = true →
      (p.cell b.arrays).ver.isPosValid i = true ∧
        ((p.cell b.arrays).slots i).h1 = (L.keyHash key).h1

instance [DecidableEq H] (b : FindRace F K (Nat × V) H E) (key : K) (p : FindProbe) (m : CellMeta F)
    (i : Nat) : Decidable (OwnSlot L b key p m i) :=
  inferInstanceAs (Decidable (_ → _ → _ → _ ∧ _))

/-- The rehash of a `Put` that finds no room moves no entry out of reach. -/
def NearRehash [DecidableEq H] (b : FindRace F K (Nat × V) H E) (key : K) : Prop :=
  match b.bucket.findSlotForInsert L key (L.keyHash key) (maxProbeLen + 1)
    (bucketOf L bucketCountShift key) with
  | .ok res => res.find = false → b.bucket.Near L (b.newShift false)
  | .error _ => True

instance [DecidableEq H] (b : FindRace F K (Nat × V) H E) (key : K) :
    Decidable (NearRehash L bucketCountShift b key) := by
  unfold NearRehash Bucket.Near
  split <;> infer_instance

/-- What a thread that takes a lock has to meet. -/
def LocksOwn [DecidableEq H] (s : TableRace F τ K V H E) (t : τ) : Prop :=
  match s.calls t with
  | .put key _ => NearRehash L bucketCountShift (s.buckets (bucketOf L bucketCountShift key)) key
  | .delete key (.comparing p m i _) =>
    OwnSlot L (s.buckets (bucketOf L bucketCountShift key)) key p m i
  | _ => True

instance [DecidableEq H] (s : TableRace F τ K V H E) (t : τ) :
    Decidable (s.LocksOwn L bucketCountShift t) := by
  unfold LocksOwn
  split <;> infer_instance

/-- How far the operation of a thread has come. -/
def Serves (s : TableRace F τ K V H E) (t : τ) (pending : Pending K V) : Prop :=
  match s.calls t with
  | .idle => pending = .idle
  | .find key _ => pending = .called (.find key)
  | .put key value | .rehashed key value _ _ => pending = .called (.put key value)
  | .delete key _ => pending = .called (.delete key)
  | .writing key _ => ∃ op,
    (s.buckets (bucketOf L bucketCountShift key)).holder.op = some op ∧ pending = .called op
  | .written _ => pending = .committed
  | .done => pending = .committed ∨ ∃ key, pending = .called (.delete key)

/-- The operation that takes effect with the next store of a thread. -/
def commits (s : TableRace F τ K V H E) (t : τ) : Option (MapOp K V) :=
  match s.calls t with
  | .writing key _ => (s.buckets (bucketOf L bucketCountShift key)).holder.commits
  | _ => none

/-- A step of thread `t`, with which the operation `op?` takes effect, if there is one. -/
structure Proceeds [DecidableEq H] [DecidableEq K] (t : τ) (s : TableRace F τ K V H E)
    (op? : Option (MapOp K V)) (s' : TableRace F τ K V H E) : Prop where
  orderly : s'.Orderly L bucketCountShift
  others : ∀ u, u ≠ t → s'.calls u = s.calls u
  serves : ∀ u, u ≠ t → ∀ pending, s.Serves L bucketCountShift u pending →
    s'.Serves L bucketCountShift u pending
  own : ∀ pending, s.Serves L bucketCountShift t pending →
    op?.elim (s'.Serves L bucketCountShift t pending) fun op =>
      pending = .called op ∧ s'.Serves L bucketCountShift t .committed
  evolves : ∀ bi < 2 ^ bucketCountShift, (s.buckets bi).Evolves L (s'.buckets bi)
  refines : ∀ m, s.Refines L bucketCountShift m →
    op?.elim (s'.Refines L bucketCountShift m) fun op =>
      ∃ m', op.effect m = some m' ∧ s'.Refines L bucketCountShift m'

end Orderly

section Steps

variable {bucketCountShift bi puts : Nat} {s s' : TableRace F τ K V H E} {t u : τ}
  {call : TableCall F K V H E} {b : FindRace F K (Nat × V) H E} {lock : Option τ} {m : K → Option V}

theorem Serves.congr {pending : Pending K V} (serves : s.Serves L bucketCountShift u pending)
    (same : s'.calls u = s.calls u) (holder : ∀ key marked, s.calls u = .writing key marked →
      (s'.buckets (bucketOf L bucketCountShift key)).holder =
        (s.buckets (bucketOf L bucketCountShift key)).holder) :
    s'.Serves L bucketCountShift u pending := by
  rw [Serves] at serves ⊢
  rw [same]
  generalize call_eq : s.calls u = call at serves holder
  cases call with
  | writing key marked =>
    simp only at serves ⊢
    rw [holder key marked rfl]
    exact serves
  | _ => exact serves

variable [DecidableEq τ]

theorem Refines.keep (refines : s.Refines L bucketCountShift m)
    (binds : ∀ key value, b.bucket.Binds L key value ↔ (s.buckets bi).bucket.Binds L key value) :
    (s.change t bi call b lock puts).Refines L bucketCountShift m := by
  intro key value
  rw [← refines, TableRace.Binds, TableRace.Binds, change_bucket]
  split
  case isTrue here => simp only [here, binds]
  case isFalse => exact Iff.rfl

theorem Refines.rebind [DecidableEq K] {key : K} {value? : Option (Nat × V)}
    (refines : s.Refines L bucketCountShift m)
    (rebinds : (s.buckets (bucketOf L bucketCountShift key)).bucket.Rebinds L b.bucket key value?) :
    (s.change t (bucketOf L bucketCountShift key) call b lock puts).Refines L bucketCountShift
      (Function.update m key (value?.map Prod.snd)) := by
  intro key' value
  rw [TableRace.Binds, change_bucket, Function.update_apply]
  by_cases same : key' = key
  · subst same
    simp [rebinds key', Option.map_eq_some_iff]
  · rw [if_neg same, ← refines, TableRace.Binds]
    split
    case isTrue here => simp [here, rebinds key', same]
    case isFalse => exact Iff.rfl

variable [DecidableEq H]

theorem Orderly.setCall (orderly : s.Orderly L bucketCountShift)
    (locked : call.locked = (s.calls t).locked)
    (writing : ∀ key marked, s.calls t = .writing key marked → ∃ marked', call = .writing key marked')
    (wrote : ∀ key marked, call = .writing key marked → ∃ marked', s.calls t = .writing key marked')
    (delete : ∀ key c, call = .delete key c →
      let bi := bucketOf L bucketCountShift key
      FindRace.InsideCurrent L bi key { s.buckets bi with call := c }) :
    (s.setCall t call).Orderly L bucketCountShift where
  toLocked := orderly.toLocked.setCall locked writing delete
  buckets := orderly.buckets
  writing u key marked has := by
    by_cases here : u = t
    · subst here
      rw [setCall_self] at has
      obtain ⟨marked', was⟩ := wrote key marked has
      exact orderly.writing u key marked' was
    · rw [setCall_of_ne here] at has
      exact orderly.writing u key marked has

theorem Orderly.go (orderly : s.Orderly L bucketCountShift) (was : (s.calls t).locked = none)
    (locked : call.locked = none)
    (delete : ∀ key c, call = .delete key c →
      let bi := bucketOf L bucketCountShift key
      FindRace.InsideCurrent L bi key { s.buckets bi with call := c }) :
    (s.setCall t call).Orderly L bucketCountShift := by
  refine orderly.setCall (locked.trans was.symm) ?_ ?_ delete
  · intro key marked writing
    rw [writing] at was
    cases was
  · rintro key marked rfl
    cases locked

theorem Orderly.change (orderly : s.Orderly L bucketCountShift)
    (touches : s.Touches L bucketCountShift t bi call b lock) (sound : b.Sound L bi)
    (writes : ∀ key marked, call = .writing key marked → b.holder.key = some key) :
    (s.change t bi call b lock puts).Orderly L bucketCountShift where
  toLocked := orderly.toLocked.change touches
  buckets bi' inside := by
    rw [change_bucket]
    split
    case isTrue here => exact here ▸ sound
    case isFalse => exact orderly.buckets bi' inside
  writing u key marked has := by
    by_cases here : u = t
    · subst here
      have now := change_self.symm.trans has
      obtain ⟨same, -⟩ := touches.locked key (by rw [now]; rfl)
      rw [change_bucket, if_pos same]
      exact writes key marked now
    · have was := (Function.update_of_ne here ..).symm.trans has
      have apart : bucketOf L bucketCountShift key ≠ bi :=
        fun same => here (touches.alone u key (by rw [was]; rfl) same)
      rw [change_bucket, if_neg apart]
      exact orderly.writing u key marked was

variable [DecidableEq K]

/-- A thread goes on, and the buckets stay as they are. -/
theorem Proceeds.setCall (orderly : (s.setCall t call).Orderly L bucketCountShift)
    (own : ∀ pending, s.Serves L bucketCountShift t pending →
      (s.setCall t call).Serves L bucketCountShift t pending) :
    Proceeds L bucketCountShift t s none (s.setCall t call) where
  orderly := orderly
  others _ other := setCall_of_ne other
  serves _ other _ serves := serves.congr (setCall_of_ne other) fun _ _ _ => rfl
  own := own
  evolves _ _ := .of_arrays rfl rfl
  refines _ refines := refines

/-- A thread takes a step at a bucket. -/
theorem Proceeds.change (orderly : s.Orderly L bucketCountShift) {op? : Option (MapOp K V)}
    (touches : s.Touches L bucketCountShift t bi call b lock)
    (step : b.Sound L bi ∧ (s.buckets bi).Evolves L b)
    (writes : ∀ key marked, call = .writing key marked → b.holder.key = some key)
    (own : ∀ pending, s.Serves L bucketCountShift t pending →
      op?.elim ((s.change t bi call b lock puts).Serves L bucketCountShift t pending) fun op =>
        pending = .called op ∧
          (s.change t bi call b lock puts).Serves L bucketCountShift t .committed)
    (refines : ∀ m, s.Refines L bucketCountShift m →
      op?.elim ((s.change t bi call b lock puts).Refines L bucketCountShift m) fun op =>
        ∃ m', op.effect m = some m' ∧
          (s.change t bi call b lock puts).Refines L bucketCountShift m') :
    Proceeds L bucketCountShift t s op? (s.change t bi call b lock puts) where
  orderly := orderly.change touches step.1 writes
  others _ other := Function.update_of_ne other ..
  serves u other pending serves := by
    refine serves.congr (Function.update_of_ne other ..) fun key marked was => ?_
    have apart : bucketOf L bucketCountShift key ≠ bi :=
      fun same => other (touches.alone u key (by rw [was]; rfl) same)
    rw [change_bucket, if_neg apart]
  own := own
  evolves bi' _ := by
    rw [change_bucket]
    split
    case isTrue here => exact here ▸ step.2
    case isFalse => exact .of_arrays rfl rfl
  refines := refines

/-! ## The steps -/

theorem Proceeds.load (orderly : s.Orderly L bucketCountShift)
    (taken : s.load L bucketCountShift t = some s') : Proceeds L bucketCountShift t s none s' := by
  rcases load_cases taken with ⟨key, call, call', was, read, rfl⟩ | ⟨key, call, was, next⟩
  · refine .setCall (orderly.go (by rw [was]; rfl) rfl (by simp)) fun pending serves => ?_
    simpa [Serves, was] using serves
  · rcases next with rfl | ⟨call', read, rfl⟩
    · refine .setCall (orderly.go (by rw [was]; rfl) rfl (by simp)) fun pending serves => ?_
      rw [Serves, was] at serves
      rw [Serves, setCall_self]
      exact Or.inr ⟨key, serves⟩
    · refine .setCall (orderly.go (by rw [was]; rfl) rfl fun key' c same => ?_) fun pending serves => ?_
      · cases same
        exact (orderly.deletes t key call was).read read
      · simpa [Serves, was] using serves

variable {kCellCountLimit : Nat}

theorem Proceeds.lockBucket (orderly : s.Orderly L bucketCountShift) {memory : Nat → Cell F H E}
    (owns : s.LocksOwn L bucketCountShift t)
    (taken : s.lock L kCellCountLimit bucketCountShift t memory = some s') :
    Proceeds L bucketCountShift t s none s' := by
  cases lock_cases taken with
  | @put key value res was free search found =>
    have sound := orderly.buckets _ (bucketOf_lt L bucketCountShift key)
    have taken : (s.buckets (bucketOf L bucketCountShift key)).put L
        (bucketOf L bucketCountShift key) key (s.puts, value) = some
          { s.buckets (bucketOf L bucketCountShift key) with
            holder := .putting .h1 key (s.puts, value) res.targetSlot } := by
      rw [FindRace.put, search]
      exact if_pos found
    have step := sound.put taken
    refine .change orderly (.take orderly.toLocked (by rw [was]; rfl) free rfl (Or.inr rfl) le_rfl
      fun _ _ => rfl) step ?_ (fun pending serves => ?_) fun m refines => refines.keep fun _ _ => Iff.rfl
    · intro key' marked same
      cases same
      rfl
    · rw [Serves, was] at serves
      rw [Option.elim, Serves, change_self]
      simp only [change_bucket, if_pos]
      exact ⟨_, rfl, serves⟩
  | @rehash key value res _ b was free search noRoom rehashed =>
    have inside := bucketOf_lt L bucketCountShift key
    have sound := orderly.buckets _ inside
    have near : (s.buckets (bucketOf L bucketCountShift key)).bucket.Near L
        ((s.buckets (bucketOf L bucketCountShift key)).newShift false) := by
      rw [LocksOwn, was] at owns
      simp only [NearRehash, search] at owns
      exact owns noRoom
    have holder := (orderly.unlocked inside free).2
    have step := sound.rehash holder near rehashed
    obtain ⟨-, current_le, shift⟩ := FindRace.shift_of_rehash rehashed
    obtain ⟨next, sameHolder⟩ := FindRace.current_of_rehash rehashed
    refine .change orderly (.take orderly.toLocked (by rw [was]; rfl) free rfl
      (Or.inl (sameHolder.trans holder)) current_le shift) step (by simp) (fun pending serves => ?_)
      fun m refines => refines.keep fun key' value' => ?_
    · rw [Serves, was] at serves
      rw [Option.elim, Serves, change_self]
      exact serves
    · exact step.2.fresh b.current (by omega) le_rfl key' value'
  | @delete key p m i slots was free fresh equal here =>
    have inside := bucketOf_lt L bucketCountShift key
    have sound := orderly.buckets _ inside
    have way := (orderly.deletes t key _ was).2 (congrArg some here)
    have inArray := way.inArray p rfl
    have own : OwnSlot L (s.buckets (bucketOf L bucketCountShift key)) key p m i := by
      rwa [LocksOwn, was] at owns
    obtain ⟨valid, sameH1⟩ := own here fresh equal
    rw [Version.isPosValid_eq_live] at valid
    simp only [FindProbe.cell, here] at valid sameH1 equal inArray
    have answer := sound.holder.placed.deleteAnswer inArray valid sameH1 equal
    refine .change orderly (.take orderly.toLocked (by rw [was]; rfl) free rfl (Or.inr rfl) le_rfl
      fun _ _ => rfl) (sound.hold ⟨sound.holder.placed, answer⟩) ?_ (fun pending serves => ?_)
      fun m refines => refines.keep fun _ _ => Iff.rfl
    · intro key' marked same
      cases same
      rfl
    · rw [Serves, was] at serves
      rw [Option.elim, Serves, change_self]
      simp only [change_bucket, if_pos]
      exact ⟨_, rfl, serves⟩
  | @goOn key p call call' was probed next =>
    refine .setCall (orderly.go (by rw [was]; rfl) rfl fun key' c same => ?_) fun pending serves => ?_
    · cases same
      exact (orderly.deletes t key call was).goOn probed next
    · simpa [Serves, was] using serves

/-- The next store under the lock, with which the operation may take effect. -/
theorem Proceeds.store (orderly : s.Orderly L bucketCountShift)
    (taken : s.store L bucketCountShift t = some s') :
    Proceeds L bucketCountShift t s (s.commits L bucketCountShift t) s' := by
  obtain ⟨key, marked, bucket, holder, was, -, stored, rfl⟩ := store_cases taken
  have has : (s.calls t).locked = some key := by rw [was]; rfl
  have sound := orderly.buckets _ (bucketOf_lt L bucketCountShift key)
  have step := sound.store stored
  have commits : s.commits L bucketCountShift t =
      (s.buckets (bucketOf L bucketCountShift key)).holder.commits := by rw [TableRace.commits, was]
  rw [commits, ← orderly.change_eq has]
  have shift := fun array (_ : array ≤ (s.buckets (bucketOf L bucketCountShift key)).current) =>
    FindRace.shift_of_setBucket stored array
  cases commit : (s.buckets (bucketOf L bucketCountShift key)).holder.commits with
  | none =>
    obtain ⟨op, sameKey, notFree, binds⟩ := sound.holder.binds_of_word stored commit
    cases holder with
    | free => exact absurd rfl notFree
    | _ =>
      refine .change orderly (.under orderly.toLocked was rfl (Or.inr rfl) le_rfl shift) step ?_
        (fun pending serves => ?_) fun m refines => refines.keep ?_
      · intro key' marked' same
        cases same
        exact sameKey.trans (orderly.writing t key marked was)
      · rw [Serves, was] at serves
        rw [Option.elim, Serves, change_self]
        simp only [change_bucket, if_pos, op]
        exact serves
      · simpa [FindRace.bucket, FindRace.setBucket] using binds
  | some op =>
    obtain ⟨rfl, key', sameKey, rebinds, bound⟩ := sound.holder.binds_of_commit stored commit
    obtain rfl : key = key' := Option.some.inj ((orderly.writing t key marked was).symm.trans sameKey)
    have rebinds' : (s.buckets (bucketOf L bucketCountShift key)).bucket.Rebinds L
        ((s.buckets (bucketOf L bucketCountShift key)).setBucket bucket).bucket key
          (s.buckets (bucketOf L bucketCountShift key)).holder.value := by
      simpa [FindRace.bucket, FindRace.setBucket] using rebinds
    refine .change orderly (.under orderly.toLocked was rfl (Or.inl rfl) le_rfl shift) step (by simp)
      (fun pending serves => ⟨?_, ?_⟩) fun m refines => ⟨_, ?_, refines.rebind rebinds'⟩
    · rw [Serves, was] at serves
      obtain ⟨op', same, rfl⟩ := serves
      cases (Holder.op_of_commits commit).symm.trans same
      rfl
    · rw [Serves, change_self]
    · refine Holder.effect_of_commits commit sameKey fun none => ?_
      obtain ⟨⟨n, value⟩, holds⟩ := bound none
      rw [(refines key value).mp ⟨n, holds⟩]
      rfl

/-- The call of `markNodeForDeletion`. -/
theorem Proceeds.mark (orderly : s.Orderly L bucketCountShift) {node : Node}
    (taken : s.mark L bucketCountShift t = some (node, s')) :
    Proceeds L bucketCountShift t s none s' := by
  simp only [TableRace.mark] at taken
  split at taken
  case h_1 key was =>
    obtain ⟨n, -, same⟩ := Option.map_eq_some_iff.mp taken
    cases same
    refine .setCall (orderly.setCall (by rw [was]; rfl) ?_ ?_ (by simp)) fun pending serves => ?_
    · intro key' marked writing
      cases was.symm.trans writing
      exact ⟨true, rfl⟩
    · intro key' marked writing
      cases writing
      exact ⟨false, was⟩
    · rw [Serves, was] at serves
      rw [Serves, setCall_self]
      exact serves
  case h_2 key value old was =>
    cases taken
    refine .setCall (orderly.setCall (by rw [was]; rfl) ?_ (by simp) (by simp)) fun pending serves => ?_
    · intro key' marked writing
      cases was.symm.trans writing
    · simpa [Serves, was] using serves
  case h_3 => cases taken

/-- A thread gives the lock of a bucket back. -/
theorem Proceeds.giveBack (orderly : s.Orderly L bucketCountShift) {key : K}
    (has : (s.calls t).locked = some key) (notWriting : ∀ key marked, s.calls t ≠ .writing key marked)
    (unlocked : call.locked = none) (noSearch : ∀ key c, call ≠ .delete key c)
    (own : ∀ pending, s.Serves L bucketCountShift t pending →
      (s.setCall t call).Serves L bucketCountShift t pending) :
    Proceeds L bucketCountShift t s none
      ((s.setCall t call).setLock (bucketOf L bucketCountShift key) none) := by
  rw [← change_eq_setLock]
  refine .change orderly (.giveBack orderly.toLocked has notWriting unlocked noSearch)
    ⟨orderly.buckets _ (bucketOf_lt L bucketCountShift key), .of_arrays rfl rfl⟩ ?_ ?_
    fun m refines => refines.keep fun _ _ => Iff.rfl
  · rintro key' marked rfl
    cases unlocked
  · intro pending serves
    rw [change_eq_setLock]
    exact own pending serves

theorem Proceeds.unlock (orderly : s.Orderly L bucketCountShift)
    (taken : s.unlock L bucketCountShift t = some s') : Proceeds L bucketCountShift t s none s' := by
  simp only [TableRace.unlock] at taken
  split at taken <;> cases taken
  case h_1 key was =>
    refine .giveBack orderly (by rw [was]; rfl) (by simp [was]) rfl (by simp) fun pending serves => ?_
    rw [Serves, was] at serves
    rw [Serves, setCall_self]
    exact Or.inl serves
  case h_2 key value old was =>
    refine .giveBack orderly (by rw [was]; rfl) (by simp [was]) rfl (by simp) fun pending serves => ?_
    simpa [Serves, was] using serves

end Steps

end TableRace

end TurboHash
