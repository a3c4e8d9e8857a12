import TurboHash.BucketOwners
import TurboHash.TableLocks

/-!
# The records of a table under its threads

Every record belongs to one live slot, or to one thread that is storing it, or to a `Put` still to
come. A step keeps this: it takes a new record from the `Put`s to come, or drops one with the
version word of a `Put` or a `Delete`, behind the call of `markNodeForDeletion` for it.
-/

namespace TurboHash

open Simulation

variable {F : CellFormat} {τ K V H E : Type} {L : SlotLayout K (Nat × V) H E}

/-! ## The arrays of a bucket -/

namespace FindRace

variable {bi : Nat} {r r' : FindRace F K (Nat × V) H E} {gained lost : Multiset Nat}

/-- Every published array has well-formed cells, the current one as far as the holder of the lock
has come. -/
structure Formed (L : SlotLayout K (Nat × V) H E) (bi : Nat) (r : FindRace F K (Nat × V) H E) :
    Prop where
  holder : r.holder.Formed L bi r.bucket
  old : ∀ array < r.current, (r.arrays array).WellFormed L

theorem Formed.wf [DecidableEq H] (formed : r.Formed L bi) {array : Nat}
    (published : array ≤ r.current) : (r.arrays array).WellFormed L := by
  rcases Nat.lt_or_eq_of_le published with less | rfl
  · exact formed.old array less
  · exact formed.holder.wf

/-- The records of the bucket and of the holder of its lock. -/
def owned (L : SlotLayout K (Nat × V) H E) (r : FindRace F K (Nat × V) H E) : Multiset Nat :=
  r.bucket.records L + r.holder.stores

/-- What a step of the lock holder does: it takes the records `gained` and drops `lost`, and the
arrays behind the current one stay as they are. -/
structure Exchanges (L : SlotLayout K (Nat × V) H E) (bi : Nat) (r r' : FindRace F K (Nat × V) H E)
    (gained lost : Multiset Nat) : Prop where
  formed : r'.Formed L bi
  owned : r'.owned L + lost = r.owned L + gained
  current_le : r.current ≤ r'.current
  old : ∀ array < r'.current, array ≤ r.current → r'.arrays array = r.arrays array
  shift : ∀ array ≤ r.current,
    (r'.arrays array).cellCountShift = (r.arrays array).cellCountShift
  slots : ∀ array ≤ r.current, ∀ c i n,
    recordAddress L (((r'.arrays array).cells c).slots i) = some n →
      recordAddress L (((r.arrays array).cells c).slots i) = some n ∨ n ∈ r.owned L

theorem Exchanges.of_arrays (formed : r'.Formed L bi) (owned : r'.owned L + lost = r.owned L + gained)
    (current : r'.current = r.current) (arrays : r'.arrays = r.arrays) :
    r.Exchanges L bi r' gained lost where
  formed := formed
  owned := owned
  current_le := current.ge
  old _ _ _ := by rw [arrays]
  shift _ _ := by rw [arrays]
  slots _ _ _ _ _ points := Or.inl (arrays ▸ points)

/-- The lock is given back. -/
theorem Exchanges.refl (formed : r.Formed L bi) : r.Exchanges L bi r 0 0 :=
  .of_arrays formed rfl rfl rfl

variable [DecidableEq H]

/-- A `Put` has found a slot for its record. -/
theorem Exchanges.put (formed : r.Formed L bi) (free : r.holder = .free) {key : K} {n : Nat}
    (value : V) {res : FindSlotForInsertResult H}
    (search : r.bucket.findSlotForInsert L key (L.keyHash key) (maxProbeLen + 1) bi = .ok res)
    (found : res.find = true) :
    r.Exchanges L bi { r with holder := .putting .h1 key (n, value) res.targetSlot } {n} 0 := by
  have wf : r.bucket.WellFormed L := formed.holder.wf
  have answer := Bucket.findSlotForInsert_answer wf (Nat.lt_succ_self _) search
  rw [show res = ⟨res.targetSlot, true⟩ from found ▸ rfl] at answer
  refine .of_arrays ⟨⟨r.bucket, wf, answer, ?_⟩, formed.old⟩ ?_ rfl rfl
  · simp [StorePoint.stored, Bucket.setCell, FindRace.bucket]
  · rw [FindRace.owned, FindRace.owned, free]
    change r.bucket.records L + {n} + 0 = r.bucket.records L + 0 + {n}
    rw [add_zero, add_zero]

omit [DecidableEq H] in
/-- A `Delete` has found a live slot. -/
theorem Exchanges.delete (formed : r.Formed L bi) (free : r.holder = .free) {key : K} {cell slot : Nat}
    (inside : cell < r.bucket.cellCount) (alive : (r.bucket.cells cell).live slot = true) :
    r.Exchanges L bi { r with holder := .deleting key cell slot } 0 0 := by
  have wf : r.bucket.WellFormed L := by
    have holder := formed.holder
    rwa [free] at holder
  refine .of_arrays ⟨⟨wf, inside, alive⟩, formed.old⟩ ?_ rfl rfl
  rw [FindRace.owned, FindRace.owned, free]
  rfl

/-- A `MinorRehash` keeps the records. -/
theorem Exchanges.rehash (formed : r.Formed L bi) (free : r.holder = .free) {kCellCountLimit : Nat}
    {isgc : Bool} {memory : Nat → Cell F H E}
    (taken : r.rehash L kCellCountLimit bi isgc memory = some r') :
    r.Exchanges L bi r' 0 0 ∧ r'.holder = .free := by
  have wf : r.bucket.WellFormed L := formed.holder.wf
  rw [FindRace.rehash] at taken
  split at taken
  case isTrue => cases taken
  case isFalse =>
    split at taken <;> cases taken
    case h_1 bucket count built =>
      obtain ⟨placed, rehashed, -⟩ := Bucket.rehash_disp_lt_iff (k := 0) built
      have before : ∀ array ≤ r.current,
          Function.update r.arrays (r.current + 1) bucket array = r.arrays array :=
        fun array le => Function.update_of_ne (by omega) ..
      have records : bucket.records L = r.bucket.records L := by
        have live := rehashed.liveSlots_perm fun c within => (wf c within).ver
        rw [Bucket.records_eq, Bucket.records_eq]
        exact Multiset.coe_eq_coe.mpr (live.filterMap _)
      refine ⟨⟨⟨?_, fun array less => ?_⟩, ?_, Nat.le_succ _, fun array _ le => before array le,
        fun array le => congrArg _ (before array le), fun array le c i n points => ?_⟩, free⟩
      · simpa [free, Holder.Formed, FindRace.bucket] using rehashed.wf wf
      · have le : array ≤ r.current := Nat.le_of_lt_succ less
        simpa only [before array le] using formed.wf le
      · simp [FindRace.owned, FindRace.bucket, records]
      · simp only [before array le] at points
        exact Or.inl points

/-- The next store of the lock holder. -/
theorem Exchanges.store (records : L.HasRecords) (entry : L.PointsByEntry) (formed : r.Formed L bi)
    {bucket : Bucket F H E} {holder : Holder K (Nat × V) H}
    (stored : r.holder.store L r.bucket = some (bucket, holder)) :
    r.Exchanges L bi { r.setBucket bucket with holder } 0
      ((r.holder.retires L r.bucket).toList : List Nat) := by
  obtain ⟨formed', owned'⟩ := formed.holder.store records stored
  have shift := shift_of_store stored
  constructor
  case formed =>
    refine ⟨by simpa [FindRace.bucket, setBucket] using formed', fun array less => ?_⟩
    have other : array ≠ r.current := Nat.ne_of_lt less
    simpa [setBucket, other] using formed.old array less
  case owned => simpa [FindRace.owned, FindRace.bucket, setBucket] using owned'
  case current_le => exact le_rfl
  case old =>
    intro array less _
    exact Function.update_of_ne (Nat.ne_of_lt less) ..
  case shift =>
    intro array _
    by_cases here : array = r.current
    · subst here
      simpa [setBucket, FindRace.bucket] using shift
    · simp [setBucket, here]
  case slots =>
    intro array _ c i n points
    by_cases here : array = r.current
    · subst here
      simp only [setBucket, Function.update_self] at points
      refine (Holder.store_slots entry stored points).imp_right fun mem => ?_
      exact Multiset.mem_add.mpr (Or.inr mem)
    · simp only [setBucket, Function.update_of_ne here] at points
      exact Or.inl points

end FindRace

/-! ## The table -/

namespace TableRace

section Owners

variable (L : SlotLayout K (Nat × V) H E) (bucketCountShift : Nat)

/-- The records of the live slots and of the threads that are storing one. -/
def owned (s : TableRace F τ K V H E) : Multiset Nat :=
  ∑ bi ∈ Finset.range (2 ^ bucketCountShift), (s.buckets bi).owned L

/-- The record is one of these, or that of a `Put` still to come. -/
def Alive (s : TableRace F τ K V H E) (n : Nat) : Prop :=
  s.puts ≤ n ∨ n ∈ s.owned L bucketCountShift

/-- Thread `t` has marked record `n`, which leaves with its next store. -/
def Retiring (s : TableRace F τ K V H E) (t : τ) (n : Nat) : Prop :=
  ∃ key, s.calls t = .writing key true ∧
    let b := s.buckets (bucketOf L bucketCountShift key)
    b.holder.retires L b.bucket = some n

/-- Every record has one owner, and what was marked leaves with the next store. -/
structure Sound (s : TableRace F τ K V H E) : Prop extends s.Locked L bucketCountShift where
  formed : ∀ bi < 2 ^ bucketCountShift, (s.buckets bi).Formed L bi
  nodup : (s.owned L bucketCountShift).Nodup
  below : ∀ n ∈ s.owned L bucketCountShift, n < s.puts
  marked : ∀ t key, s.calls t = .writing key true → ∃ n, s.Retiring L bucketCountShift t n

/-- What a step of thread `t` leaves to the others: no record comes back or leaves without a mark,
a slot gets a new one only, the arrays behind the current one stay as they are, and a marked record
is marked until it leaves. -/
structure Kept (t : τ) (s s' : TableRace F τ K V H E) : Prop where
  others : ∀ u, u ≠ t → s'.calls u = s.calls u
  alive : ∀ n, s'.Alive L bucketCountShift n → s.Alive L bucketCountShift n
  leaves : ∀ n, s.Alive L bucketCountShift n →
    s'.Alive L bucketCountShift n ∨ s.Retiring L bucketCountShift t n
  puts_le : s.puts ≤ s'.puts
  current_le : ∀ bi, (s.buckets bi).current ≤ (s'.buckets bi).current
  old : ∀ bi, ∀ array < (s'.buckets bi).current, array ≤ (s.buckets bi).current →
    (s'.buckets bi).arrays array = (s.buckets bi).arrays array
  shift : ∀ bi, ∀ array ≤ (s.buckets bi).current,
    ((s'.buckets bi).arrays array).cellCountShift = ((s.buckets bi).arrays array).cellCountShift
  slots : ∀ bi < 2 ^ bucketCountShift, ∀ array ≤ (s.buckets bi).current, ∀ c i n,
    recordAddress L ((((s'.buckets bi).arrays array).cells c).slots i) = some n →
      recordAddress L ((((s.buckets bi).arrays array).cells c).slots i) = some n ∨
        s.Alive L bucketCountShift n
  retiring : ∀ u n, s.Retiring L bucketCountShift u n →
    s'.Retiring L bucketCountShift u n ∨ ¬ s'.Alive L bucketCountShift n
  marks : ∀ u n, u ≠ t → s'.Retiring L bucketCountShift u n → s.Retiring L bucketCountShift u n

end Owners

variable {bucketCountShift : Nat} {s s' : TableRace F τ K V H E} {t : τ}
  {call : TableCall F K V H E}

theorem mem_owned {bi n : Nat} (inside : bi < 2 ^ bucketCountShift)
    (mem : n ∈ (s.buckets bi).owned L) : n ∈ s.owned L bucketCountShift :=
  Multiset.mem_sum.mpr ⟨bi, Finset.mem_range.mpr inside, mem⟩

/-- A record lies in one bucket. -/
theorem Sound.bucket_eq (sound : s.Sound L bucketCountShift) {bi bi' n : Nat}
    (inside : bi < 2 ^ bucketCountShift) (inside' : bi' < 2 ^ bucketCountShift)
    (mem : n ∈ (s.buckets bi).owned L) (mem' : n ∈ (s.buckets bi').owned L) : bi' = bi := by
  by_contra other
  have split := Finset.add_sum_erase _ (fun i => (s.buckets i).owned L)
    (Finset.mem_range.mpr inside)
  have apart := sound.nodup
  rw [TableRace.owned, ← split] at apart
  refine Multiset.disjoint_left.mp (Multiset.nodup_add.mp apart).2.2 mem ?_
  exact Multiset.mem_sum.mpr ⟨bi', Finset.mem_erase.mpr ⟨other, Finset.mem_range.mpr inside'⟩, mem'⟩

/-- The buckets before the threads start: every record lies in one live slot. -/
structure Stocked (L : SlotLayout K (Nat × V) H E) (bucketCountShift : Nat)
    (buckets : Nat → Bucket F H E) (puts : Nat) : Prop where
  wf : ∀ bi < 2 ^ bucketCountShift, (buckets bi).WellFormed L
  nodup : (∑ bi ∈ Finset.range (2 ^ bucketCountShift), (buckets bi).records L).Nodup
  below : ∀ n ∈ ∑ bi ∈ Finset.range (2 ^ bucketCountShift), (buckets bi).records L, n < puts

theorem Stocked.of_zero {buckets : Nat → Bucket F H E} (puts : Nat)
    (zero : ∀ bi, ∀ c, (buckets bi).cells c = Table.zeroCell L) :
    Stocked L bucketCountShift buckets puts := by
  have none : ∑ bi ∈ Finset.range (2 ^ bucketCountShift), (buckets bi).records L = 0 := by
    refine Finset.sum_eq_zero fun bi _ => Finset.sum_eq_zero fun c _ =>
      Finset.sum_eq_zero fun i _ => ?_
    rw [zero, Cell.recordAt, if_neg]
    simp [Table.zeroCell, Cell.live]
  refine ⟨fun bi _ c _ => ?_, ?_, ?_⟩
  · rw [zero]
    exact Table.zeroCell_wf
  · rw [none]
    exact Multiset.nodup_zero
  · rw [none]
    exact fun n mem => absurd mem (Multiset.notMem_zero n)

theorem Stocked.owned {buckets : Nat → Bucket F H E} {puts : Nat} :
    (start buckets puts : TableRace F τ K V H E).owned L bucketCountShift =
      ∑ bi ∈ Finset.range (2 ^ bucketCountShift), (buckets bi).records L :=
  Finset.sum_congr rfl fun _ _ => add_zero _

theorem Stocked.sound {buckets : Nat → Bucket F H E} {puts : Nat}
    (stocked : Stocked L bucketCountShift buckets puts) :
    (start buckets puts : TableRace F τ K V H E).Sound L bucketCountShift where
  toLocked := .start buckets puts
  formed bi inside := ⟨stocked.wf bi inside, nofun⟩
  nodup := Stocked.owned (τ := τ) ▸ stocked.nodup
  below := Stocked.owned (τ := τ) ▸ stocked.below
  marked := nofun

section Change

variable [DecidableEq τ]

/-- A thread goes on without a lock, or under the one it has. -/
theorem Sound.setCall (sound : s.Sound L bucketCountShift)
    (locked : call.locked = (s.calls t).locked)
    (writing : ∀ key marked, s.calls t = .writing key marked → ∃ marked', call = .writing key marked')
    (marked : ∀ key, call = .writing key true →
      ∃ n, (s.setCall t call).Retiring L bucketCountShift t n)
    (delete : ∀ key c, call = .delete key c →
      let bi := bucketOf L bucketCountShift key
      FindRace.InsideCurrent L bi key { s.buckets bi with call := c }) :
    (s.setCall t call).Sound L bucketCountShift where
  toLocked := sound.toLocked.setCall locked writing delete
  formed := sound.formed
  nodup := sound.nodup
  below := sound.below
  marked u key has := by
    by_cases here : u = t
    · subst here
      rw [setCall_self] at has
      exact marked key has
    · rw [setCall_of_ne here] at has
      obtain ⟨n, key', was, leaves⟩ := sound.marked u key has
      exact ⟨n, key', (setCall_of_ne here).trans was, leaves⟩

theorem Kept.setCall (unmarked : ∀ key, s.calls t ≠ .writing key true) :
    s.Kept L bucketCountShift t (s.setCall t call) where
  others _ other := setCall_of_ne other
  alive _ alive := alive
  leaves _ alive := Or.inl alive
  puts_le := le_rfl
  current_le _ := le_rfl
  old _ _ _ _ := rfl
  shift _ _ _ := rfl
  slots _ _ _ _ _ _ _ points := Or.inl points
  retiring u n retiring := by
    obtain ⟨key, was, leaves⟩ := retiring
    have other : u ≠ t := by
      rintro rfl
      exact unmarked key was
    exact Or.inl ⟨key, (setCall_of_ne other).trans was, leaves⟩
  marks u n other retiring := by
    obtain ⟨key, now, leaves⟩ := retiring
    exact ⟨key, (setCall_of_ne other).symm.trans now, leaves⟩

/-- A step at a bucket that takes the records `gained` and drops `lost`. -/
structure Changes (L : SlotLayout K (Nat × V) H E) (bucketCountShift : Nat)
    (s : TableRace F τ K V H E) (t : τ) (bi : Nat) (call : TableCall F K V H E)
    (b : FindRace F K (Nat × V) H E) (lock : Option τ) (puts : Nat) (gained lost : Multiset Nat) :
    Prop extends s.Touches L bucketCountShift t bi call b lock where
  exchanges : (s.buckets bi).Exchanges L bi b gained lost
  gain : gained = 0 ∧ puts = s.puts ∨ gained = {s.puts} ∧ puts = s.puts + 1
  unmarked : ∀ key, call ≠ .writing key true
  leaves : ∀ n, s.Retiring L bucketCountShift t n ↔ n ∈ lost

section Changes

variable {bi puts : Nat} {b : FindRace F K (Nat × V) H E} {lock : Option τ}
  {gained lost : Multiset Nat}

theorem Changes.owned
    (changes : s.Changes L bucketCountShift t bi call b lock puts gained lost) :
    (s.change t bi call b lock puts).owned L bucketCountShift + lost =
      s.owned L bucketCountShift + gained := by
  have exchanged := Heap.sum_exchange (Finset.mem_range.mpr changes.inside)
    (f := fun i => (s.buckets i).owned L)
    (g := fun i => ((s.change t bi call b lock puts).buckets i).owned L)
    fun j _ other => by simp [change, other]
  have here : (s.change t bi call b lock puts).buckets bi = b := Function.update_self ..
  have bucket := changes.exchanges.owned
  simp only [here] at exchanged
  refine add_right_cancel (b := (s.buckets bi).owned L) ?_
  calc (s.change t bi call b lock puts).owned L bucketCountShift + lost + (s.buckets bi).owned L
      = (s.change t bi call b lock puts).owned L bucketCountShift + (s.buckets bi).owned L +
          lost := add_right_comm ..
    _ = s.owned L bucketCountShift + (b.owned L + lost) := by
        rw [TableRace.owned, exchanged, TableRace.owned, add_assoc]
    _ = s.owned L bucketCountShift + gained + (s.buckets bi).owned L := by
        rw [bucket]
        ac_rfl

omit [DecidableEq τ] in
/-- The records before the step and the new one are different ones. -/
theorem Changes.distinct (sound : s.Sound L bucketCountShift)
    (changes : s.Changes L bucketCountShift t bi call b lock puts gained lost) :
    (s.owned L bucketCountShift + gained).Nodup ∧
      ∀ n ∈ s.owned L bucketCountShift + gained, n < puts := by
  rcases changes.gain with ⟨rfl, rfl⟩ | ⟨rfl, rfl⟩
  · rw [add_zero]
    exact ⟨sound.nodup, sound.below⟩
  · rw [add_comm, Multiset.singleton_add]
    refine ⟨Multiset.nodup_cons.mpr ⟨fun mem => ?_, sound.nodup⟩, fun n mem => ?_⟩
    · exact absurd (sound.below _ mem) (lt_irrefl _)
    · rcases Multiset.mem_cons.mp mem with rfl | mem
      · exact Nat.lt_succ_self _
      · exact (sound.below n mem).trans (Nat.lt_succ_self _)

/-- A record that is alive behind the step was so before, and has not left. -/
theorem Changes.alive (sound : s.Sound L bucketCountShift)
    (changes : s.Changes L bucketCountShift t bi call b lock puts gained lost) {n : Nat}
    (alive : (s.change t bi call b lock puts).Alive L bucketCountShift n) :
    s.Alive L bucketCountShift n ∧ n ∉ lost := by
  obtain ⟨nodup, below⟩ := changes.distinct sound
  have same := changes.owned
  rcases alive with late | mem
  · refine ⟨Or.inl ?_, fun left => ?_⟩
    · change puts ≤ n at late
      rcases changes.gain with ⟨-, eq⟩ | ⟨-, eq⟩ <;> omega
    · have mem : n ∈ s.owned L bucketCountShift + gained :=
        same ▸ Multiset.mem_add.mpr (Or.inr left)
      exact absurd (below n mem) (Nat.not_lt.mpr late)
  · refine ⟨?_, fun left => ?_⟩
    · have now : n ∈ s.owned L bucketCountShift + gained :=
        same ▸ Multiset.mem_add.mpr (Or.inl mem)
      rcases Multiset.mem_add.mp now with mem | new
      · exact Or.inr mem
      · rcases changes.gain with ⟨rfl, -⟩ | ⟨rfl, -⟩
        · cases new
        · exact Or.inl (Multiset.mem_singleton.mp new).ge
    · rw [← same] at nodup
      exact Multiset.disjoint_left.mp (Multiset.nodup_add.mp nodup).2.2 mem left

theorem Sound.change (sound : s.Sound L bucketCountShift)
    (changes : s.Changes L bucketCountShift t bi call b lock puts gained lost) :
    (s.change t bi call b lock puts).Sound L bucketCountShift where
  toLocked := sound.toLocked.change changes.toTouches
  formed bi' inside := by
    rw [change_bucket]
    split
    case isTrue here => exact here ▸ changes.exchanges.formed
    case isFalse => exact sound.formed bi' inside
  nodup := by
    have nodup := (changes.distinct sound).1
    rw [← changes.owned] at nodup
    exact Multiset.nodup_of_le (Multiset.le_add_right _ _) nodup
  below n mem := by
    refine (changes.distinct sound).2 n ?_
    rw [← changes.owned]
    exact Multiset.mem_add.mpr (Or.inl mem)
  marked u key has := by
    have other : u ≠ t := by
      rintro rfl
      exact changes.unmarked key (change_self.symm.trans has)
    have was := (Function.update_of_ne other ..).symm.trans has
    obtain ⟨n, key', writing, leaves⟩ := sound.marked u key was
    have apart : bucketOf L bucketCountShift key' ≠ bi :=
      fun same => other (changes.alone u key' (by rw [writing]; rfl) same)
    refine ⟨n, key', (Function.update_of_ne other ..).trans writing, ?_⟩
    rw [change_bucket, if_neg apart]
    exact leaves

theorem Kept.change (sound : s.Sound L bucketCountShift)
    (changes : s.Changes L bucketCountShift t bi call b lock puts gained lost) :
    s.Kept L bucketCountShift t (s.change t bi call b lock puts) where
  others _ other := Function.update_of_ne other ..
  alive _ alive := (changes.alive sound alive).1
  leaves n alive := by
    rcases alive with new | mem
    · rcases Nat.lt_or_ge n puts with less | later
      · -- it is the number of this `Put`
        rcases changes.gain with ⟨-, rfl⟩ | ⟨rfl, rfl⟩
        · exact absurd less (Nat.not_lt.mpr new)
        · obtain rfl : n = s.puts := by omega
          have mem : s.puts ∈ s.owned L bucketCountShift + {s.puts} := by simp
          rw [← changes.owned] at mem
          rcases Multiset.mem_add.mp mem with mem | gone
          · exact Or.inl (Or.inr mem)
          · exact Or.inr ((changes.leaves _).mpr gone)
      · exact Or.inl (Or.inl later)
    · have mem : n ∈ s.owned L bucketCountShift + gained := Multiset.mem_add.mpr (Or.inl mem)
      rw [← changes.owned] at mem
      rcases Multiset.mem_add.mp mem with mem | gone
      · exact Or.inl (Or.inr mem)
      · exact Or.inr ((changes.leaves n).mpr gone)
  puts_le := by
    rcases changes.gain with ⟨-, rfl⟩ | ⟨-, rfl⟩
    · exact le_rfl
    · exact Nat.le_succ _
  current_le _ := changes.searching.1
  shift _ := changes.searching.2
  old bi' array less le := by
    rw [change_bucket] at less ⊢
    split at less
    case isTrue here =>
      subst here
      rw [if_pos rfl]
      exact changes.exchanges.old array less le
    case isFalse other => rw [if_neg other]
  slots bi' inside array le c i n points := by
    rw [change_bucket] at points
    split at points
    case isTrue here =>
      subst here
      refine (changes.exchanges.slots array le c i n points).imp_right fun mem => ?_
      exact Or.inr (mem_owned inside mem)
    case isFalse => exact Or.inl points
  retiring u n retiring := by
    by_cases here : u = t
    · subst here
      exact Or.inr fun alive => (changes.alive sound alive).2 ((changes.leaves n).mp retiring)
    · obtain ⟨key, was, leaves⟩ := retiring
      have other : bucketOf L bucketCountShift key ≠ bi :=
        fun same => here (changes.alone u key (by rw [was]; rfl) same)
      refine Or.inl ⟨key, (Function.update_of_ne here ..).trans was, ?_⟩
      rw [change_bucket, if_neg other]
      exact leaves
  marks u n other retiring := by
    obtain ⟨key, now, leaves⟩ := retiring
    have was := (Function.update_of_ne other ..).symm.trans now
    have apart : bucketOf L bucketCountShift key ≠ bi :=
      fun same => other (changes.alone u key (by rw [was]; rfl) same)
    rw [change_bucket, if_neg apart] at leaves
    exact ⟨key, was, leaves⟩

end Changes

end Change

end TableRace

end TurboHash
