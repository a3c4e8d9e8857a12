import TurboHash.BucketMap
import TurboHash.Table

/-!
# The table as a map

Between rehashes the table is a finite map. `Table.Valid` says that every bucket
is placed and that a key is live only in the bucket its hash selects; `Refines`
ties a valid table to the map of its bindings. `Put`, `Delete` and `Find` simulate
the operations of the map as long as no `Put` needs a rehash and no counter is at
its maximum.
-/

namespace TurboHash

open Simulation

variable {F : CellFormat} {K V H E : Type} {L : SlotLayout K V H E} {t : Table F H E}

/-! ## Zeroed cells -/

theorem Table.zeroCell_wf : (Table.zeroCell L : Cell F H E).WellFormed L where
  ver := Version.WellFormed.zero
  stored i alive := by simp [Table.zeroCell, Cell.live] at alive

theorem Table.not_holds_zeroCell {i : Nat} {key : K} {value : V} :
    ¬ (Table.zeroCell L : Cell F H E).Holds L i key value := by
  rintro ⟨alive, -⟩
  simp [Table.zeroCell, Cell.live] at alive

/-- A bucket of zeroed cells binds nothing. -/
theorem Bucket.Placed.of_zero {b : Bucket F H E}
    (zeroed : ∀ c < b.cellCount, b.cells c = Table.zeroCell L) :
    b.Placed L ∧ ∀ key value, ¬ b.Binds L key value := by
  have unbound : ∀ c < b.cellCount, ∀ i key value, ¬ (b.cells c).Holds L i key value := by
    intro c inside i key value
    rw [zeroed c inside]
    exact Table.not_holds_zeroCell
  refine ⟨⟨fun c inside => ?_, fun c inside i key value holds => ?_,
    fun c inside _ _ i _ key value _ holds => ?_⟩, ?_⟩
  · rw [zeroed c inside]
    exact Table.zeroCell_wf
  · exact absurd holds (unbound c inside i key value)
  · exact fun _ => absurd holds (unbound c inside i key value)
  · rintro key value ⟨c, inside, i, holds⟩
    exact unbound c inside i key value holds

/-! ## Bindings of the table -/

namespace Table

/-- The bucket of a key. -/
def bucketOf (L : SlotLayout K V H E) (t : Table F H E) (key : K) : Nat :=
  t.bucketIndex (L.keyHash key).bucketHash

/-- The table binds `key` to `value`. -/
def Binds (L : SlotLayout K V H E) (t : Table F H E) (key : K) (value : V) : Prop :=
  (t.buckets (t.bucketOf L key)).Binds L key value

/-- The invariant of the table. -/
structure Valid (L : SlotLayout K V H E) (t : Table F H E) : Prop where
  placed : ∀ i < t.bucketCount, (t.buckets i).Placed L
  home : ∀ i < t.bucketCount, ∀ key value, (t.buckets i).Binds L key value → t.bucketOf L key = i

/-- No cell of the table has its counter at the maximum. -/
def Calm (t : Table F H E) : Prop := ∀ i < t.bucketCount, (t.buckets i).Calm

instance (t : Table F H E) : Decidable t.Calm :=
  inferInstanceAs (Decidable (∀ i < t.bucketCount, (t.buckets i).Calm))

/-- A slot of the table: bucket, cell and slot index. -/
abbrev Place := Nat × Nat × Nat

/-- The slot lies in the table and is live. -/
def LiveAt (t : Table F H E) (p : Place) : Prop :=
  p.1 < t.bucketCount ∧ p.2.1 < (t.buckets p.1).cellCount ∧
    ((t.buckets p.1).cells p.2.1).live p.2.2 = true

/-- The slot lies in the table and binds `key` to `value`. -/
def HoldsAt (L : SlotLayout K V H E) (t : Table F H E) (p : Place) (key : K) (value : V) : Prop :=
  p.1 < t.bucketCount ∧ p.2.1 < (t.buckets p.1).cellCount ∧
    ((t.buckets p.1).cells p.2.1).Holds L p.2.2 key value

/-- The live slots of the table hold the bindings of `m`, each exactly once, and
nothing else. -/
structure Represents (L : SlotLayout K V H E) (t : Table F H E) (m : K → Option V) : Prop where
  bound : ∀ p, t.LiveAt p → ∃ key value, t.HoldsAt L p key value ∧ m key = some value
  once : ∀ key value, m key = some value → ∃! p, t.HoldsAt L p key value

/-- A valid table whose bindings are those of `m`. -/
structure Refines (L : SlotLayout K V H E) (t : Table F H E) (m : K → Option V) : Prop where
  valid : t.Valid L
  binds : ∀ key value, t.Binds L key value ↔ m key = some value

theorem bucketCount_pos (t : Table F H E) : 0 < t.bucketCount := Nat.two_pow_pos _

theorem bucketIndex_eq (t : Table F H E) (hash : UInt32) :
    t.bucketIndex hash = hash.toNat % t.bucketCount :=
  Nat.and_two_pow_sub_one_eq_mod ..

theorem bucketOf_lt (L : SlotLayout K V H E) (t : Table F H E) (key : K) : t.bucketOf L key < t.bucketCount := by
  rw [bucketOf, bucketIndex_eq]
  exact Nat.mod_lt _ t.bucketCount_pos

@[simp] theorem setBucket_count (t : Table F H E) (i : Nat) (b : Bucket F H E) :
    (t.setBucket i b).bucketCount = t.bucketCount := rfl

@[simp] theorem setBucket_bucketOf (t : Table F H E) (i : Nat) (b : Bucket F H E) (key : K) :
    (t.setBucket i b).bucketOf L key = t.bucketOf L key := rfl

theorem setBucket_buckets (t : Table F H E) (i : Nat) (b : Bucket F H E) (j : Nat) :
    (t.setBucket i b).buckets j = if j = i then b else t.buckets j :=
  Function.update_apply ..

theorem Refines.represents {m : K → Option V} (refines : t.Refines L m) : t.Represents L m where
  bound p alive := by
    obtain ⟨inTable, inside, alive⟩ := alive
    obtain ⟨key, value, stored, -⟩ :=
      ((refines.valid.placed _ inTable).wf _ inside).stored _ alive
    have binds : (t.buckets p.1).Binds L key value := ⟨_, inside, _, alive, stored⟩
    refine ⟨key, value, ⟨inTable, inside, alive, stored⟩, (refines.binds key value).mp ?_⟩
    rwa [Binds, refines.valid.home _ inTable key value binds]
  once key value same := by
    obtain ⟨c, inside, i, holds⟩ := (refines.binds key value).mpr same
    refine ⟨(t.bucketOf L key, c, i), ⟨t.bucketOf_lt _ key, inside, holds⟩, ?_⟩
    rintro ⟨bi, c', i'⟩ ⟨inTable, inside', holds'⟩
    have home := refines.valid.home bi inTable key value ⟨c', inside', i', holds'⟩
    subst home
    obtain ⟨rfl, rfl⟩ := (refines.valid.placed _ inTable).unique c' inside' c inside i' i key value
      value holds' holds
    rfl

/-- A table of zeroed cells is the empty map. -/
theorem Refines.of_zeroed (zeroed : ∀ i < t.bucketCount, ∀ c < (t.buckets i).cellCount,
    (t.buckets i).cells c = zeroCell L) : t.Refines L fun _ => none := by
  have empty : ∀ i < t.bucketCount, (t.buckets i).Placed L ∧
      ∀ key value, ¬ (t.buckets i).Binds L key value :=
    fun i inside => Bucket.Placed.of_zero (zeroed i inside)
  refine ⟨⟨fun i inside => (empty i inside).1, fun i inside key value bound => ?_⟩,
    fun key value => ?_⟩
  · exact absurd bound ((empty i inside).2 key value)
  · simpa using show ¬ t.Binds L key value from (empty _ (t.bucketOf_lt L key)).2 key value

/-- A bucket is replaced by one that binds the same keys. -/
theorem Refines.replaceBucket {t' : Table F H E} {m : K → Option V} {bi : Nat}
    {new : Bucket F H E} (refines : t.Refines L m)
    (sameCount : t'.bucketCountShift = t.bucketCountShift)
    (buckets : t'.buckets = Function.update t.buckets bi new) (placed : new.Placed L)
    (binds : ∀ key value, new.Binds L key value ↔ (t.buckets bi).Binds L key value) :
    t'.Refines L m := by
  have count : t'.bucketCount = t.bucketCount := congrArg (2 ^ ·) sameCount
  have home : ∀ key, t'.bucketOf L key = t.bucketOf L key := fun key => by
    rw [bucketOf, bucketOf, bucketIndex_eq, bucketIndex_eq, count]
  have same : ∀ i key value, (t'.buckets i).Binds L key value ↔
      (t.buckets i).Binds L key value := by
    intro i key value
    rw [buckets, Function.update_apply]
    split
    case isTrue eq => rw [binds, eq]
    case isFalse => rfl
  refine ⟨⟨fun i less => ?_, fun i less key value bound => ?_⟩, fun key value => ?_⟩
  · rw [buckets, Function.update_apply]
    split
    case isTrue => exact placed
    case isFalse => exact refines.valid.placed i (count ▸ less)
  · rw [home]
    exact refines.valid.home i (count ▸ less) key value ((same i key value).mp bound)
  · rw [Binds, same, home]
    exact refines.binds key value

/-- The bucket of `key` is replaced by one that differs in what it binds `key`
to. -/
theorem Refines.setBucket {m : K → Option V} (refines : t.Refines L m) {b' : Bucket F H E}
    {key : K} (placed : b'.Placed L) (value? : Option V)
    (binds : ∀ key' value', b'.Binds L key' value' ↔
      key' = key ∧ value? = some value' ∨
        key' ≠ key ∧ (t.buckets (t.bucketOf L key)).Binds L key' value') [DecidableEq K] :
    (t.setBucket (t.bucketOf L key) b').Refines L (Function.update m key value?) where
  valid := by
    constructor
    · intro i inside
      rw [setBucket_buckets]
      split
      case isTrue => exact placed
      case isFalse => exact refines.valid.placed i inside
    · intro i inside key' value' bound
      rw [setBucket_buckets] at bound
      split at bound
      case isTrue eq =>
        rcases (binds key' value').mp bound with ⟨rfl, -⟩ | ⟨-, bound⟩
        · exact eq.symm
        · exact eq ▸ refines.valid.home _ (t.bucketOf_lt _ key) key' value' bound
      case isFalse => exact refines.valid.home i inside key' value' bound
  binds key' value' := by
    rw [Binds, setBucket_bucketOf, setBucket_buckets, Function.update_apply]
    by_cases eq : key' = key
    · subst eq
      simp [binds]
    · rw [if_neg eq]
      split
      case isTrue same =>
        rw [binds, ← refines.binds, Binds, same]
        simp [eq]
      case isFalse => exact refines.binds key' value'

/-! ## The operations -/

section Operations

variable [DecidableEq H] {P : TableParams F K V H E} {m : K → Option V} {fuel : Nat}

/-- The search of `Put` for a slot. -/
def searchForInsert (P : TableParams F K V H E) (fuel : Nat) (t : Table F H E) (key : K) :
    Except Halt (FindSlotForInsertResult H) :=
  (t.buckets (t.bucketOf P.layout key)).findSlotForInsert P.layout key (P.layout.keyHash key) fuel
    (t.bucketOf P.layout key)

/-- Any fuel that covers the probe path gives the same answer. -/
theorem searchForInsert_fuel {fuel' : Nat} (enough : maxProbeLen < fuel)
    (enough' : maxProbeLen < fuel') (key : K) :
    t.searchForInsert P fuel key = t.searchForInsert P fuel' key := by
  rw [searchForInsert, searchForInsert, Bucket.findSlotForInsert_eq enough,
    Bucket.findSlotForInsert_eq enough']

omit [DecidableEq H] in
/-- The table after the commit of `Put`. -/
def commit (P : TableParams F K V H E) (t : Table F H E) (key : K) (value : V)
    (target : SlotInfo H) : Table F H E :=
  let bi := t.bucketOf P.layout key
  let bucket := t.buckets bi
  t.setBucket bi (bucket.setCell target.cell
    (insertToSlotAndGC P.layout (P.layout.keyToHash key) key value (bucket.cells target.cell)
      target).1)

theorem insertSlot_of_found {key : K} {res : FindSlotForInsertResult H}
    (search : t.searchForInsert P fuel key = .ok res) (found : res.find = true) (value : V)
    (rounds : Nat) :
    ∃ retired, t.insertSlot P fuel key value (P.layout.keyToHash key) (rounds + 1) =
      .ok (t.commit P key value res.targetSlot, retired) := by
  simp only [searchForInsert, bucketOf, SlotLayout.keyHash] at search
  rw [Table.insertSlot]
  simp only [search]
  change ∃ retired, (if res.find = true then _ else _) = _
  rw [if_pos found]
  exact ⟨_, rfl⟩

theorem insertSlot_of_noRoom {key : K} {value : V} {res : FindSlotForInsertResult H}
    (search : t.searchForInsert P fuel key = .ok res) (noRoom : res.find = false) (rounds : Nat) :
    t.insertSlot P fuel key value (P.layout.keyToHash key) (rounds + 1) =
      (t.minorRehash P res.targetSlot.bucket false).bind fun rehashed =>
        rehashed.1.insertSlot P fuel key value (P.layout.keyToHash key) rounds := by
  simp only [searchForInsert, bucketOf, SlotLayout.keyHash] at search
  rw [Table.insertSlot]
  simp only [search]
  change (if res.find = true then _ else _) = _
  rw [if_neg (by simp [noRoom])]
  rfl

theorem insertSlot_of_error {key : K} {value : V} {halt : Halt}
    (search : t.searchForInsert P fuel key = .error halt) (rounds : Nat) :
    t.insertSlot P fuel key value (P.layout.keyToHash key) (rounds + 1) = .error halt := by
  simp only [searchForInsert, bucketOf, SlotLayout.keyHash] at search
  rw [Table.insertSlot]
  simp only [search]
  rfl

/-- `Put` in a table where the search has found a slot. -/
theorem Refines.commit [DecidableEq K] (refines : t.Refines P.layout m)
    (enough : maxProbeLen < fuel) {key : K} {res : FindSlotForInsertResult H}
    (search : t.searchForInsert P fuel key = .ok res) (found : res.find = true) (value : V) :
    (t.commit P key value res.targetSlot).Refines P.layout
      (Function.update m key (some value)) := by
  have placed := refines.valid.placed _ (t.bucketOf_lt P.layout key)
  have answer := Bucket.findSlotForInsert_answer placed.wf enough search
  obtain ⟨placed', binds'⟩ := placed.commit answer found value
  refine refines.setBucket placed' (some value) fun key' value' => ?_
  rw [binds', Option.some.injEq, eq_comm (a := value)]

/-- The search of `Delete` for the slot of a key. -/
def searchForDelete (P : TableParams F K V H E) (fuel : Nat) (t : Table F H E) (key : K) :
    Except Halt (Option (Nat × Nat)) :=
  (t.buckets (t.bucketOf P.layout key)).findSlotForDelete P.layout key (P.layout.keyHash key) fuel
    (t.bucketOf P.layout key)

theorem searchForDelete_fuel {fuel' : Nat} (enough : maxProbeLen < fuel)
    (enough' : maxProbeLen < fuel') (key : K) :
    t.searchForDelete P fuel key = t.searchForDelete P fuel' key := by
  rw [searchForDelete, searchForDelete, Bucket.findSlotForDelete_eq enough,
    Bucket.findSlotForDelete_eq enough']

/-- A `Delete` that returns has found nothing, or has deleted what it has found. -/
theorem deleteSlot_cases {key : K} {t' : Table F H E} {found : Bool} {retired : Option E}
    (ok : t.deleteSlot P fuel key (P.layout.keyToHash key) = .ok (t', found, retired)) :
    (t.searchForDelete P fuel key = .ok none ∧ t' = t ∧ found = false) ∨
      ∃ c i, t.searchForDelete P fuel key = .ok (some (c, i)) ∧ found = true ∧
        t' = t.setBucket (t.bucketOf P.layout key)
          ((t.buckets (t.bucketOf P.layout key)).setCell c
            (deleteCommit P.layout ((t.buckets (t.bucketOf P.layout key)).cells c) i).1) := by
  cases search : t.searchForDelete P fuel key with
  | error halt =>
    simp only [searchForDelete, bucketOf, SlotLayout.keyHash] at search
    simp only [Table.deleteSlot, search] at ok
    cases ok
  | ok res =>
    simp only [searchForDelete, bucketOf, SlotLayout.keyHash] at search
    simp only [Table.deleteSlot, search] at ok
    cases res with
    | none =>
      cases ok
      exact Or.inl ⟨rfl, rfl, rfl⟩
    | some target =>
      cases ok
      exact Or.inr ⟨target.1, target.2, rfl, rfl, rfl⟩

/-- A `Delete` that finds nothing has an unbound key. -/
theorem Refines.unbound_of_search (refines : t.Refines P.layout m) (enough : maxProbeLen < fuel)
    {key : K} (search : t.searchForDelete P fuel key = .ok none) : m key = none := by
  have placed := refines.valid.placed _ (t.bucketOf_lt P.layout key)
  have answer := Bucket.findSlotForDelete_answer placed.wf enough search
  by_contra some
  obtain ⟨value, eq⟩ := Option.ne_none_iff_exists'.mp some
  exact placed.not_binds answer value ((refines.binds key value).mpr eq)

/-- The commit of a `Delete` that has found its key. -/
theorem Refines.deleteCommit [DecidableEq K] (refines : t.Refines P.layout m)
    (enough : maxProbeLen < fuel) {key : K} {c i : Nat}
    (search : t.searchForDelete P fuel key = .ok (some (c, i))) :
    (∃ value, m key = some value) ∧
      (t.setBucket (t.bucketOf P.layout key)
        ((t.buckets (t.bucketOf P.layout key)).setCell c
          (TurboHash.deleteCommit P.layout ((t.buckets (t.bucketOf P.layout key)).cells c) i).1)).Refines
        P.layout (Function.update m key none) := by
  have placed := refines.valid.placed _ (t.bucketOf_lt P.layout key)
  have answer := Bucket.findSlotForDelete_answer placed.wf enough search
  obtain ⟨⟨value, bound⟩, placed', binds'⟩ := placed.deleteCommit answer
  refine ⟨⟨value, (refines.binds key value).mp bound⟩,
    refines.setBucket placed' none fun key' value' => ?_⟩
  simpa using binds' key' value'

/-- `Delete` that returns. -/
theorem Refines.deleteSlot [DecidableEq K] (refines : t.Refines P.layout m)
    (enough : maxProbeLen < fuel) {key : K} {t' : Table F H E} {found : Bool} {retired : Option E}
    (ok : t.deleteSlot P fuel key (P.layout.keyToHash key) = .ok (t', found, retired)) :
    found = (m key).isSome ∧ t'.Refines P.layout (Function.update m key none) := by
  rcases deleteSlot_cases ok with ⟨search, rfl, rfl⟩ | ⟨c, i, search, rfl, rfl⟩
  · have was := refines.unbound_of_search enough search
    exact ⟨by rw [was]; rfl, by rwa [← was, Function.update_eq_self]⟩
  · obtain ⟨⟨value, was⟩, refines'⟩ := refines.deleteCommit enough search
    exact ⟨by rw [was]; rfl, refines'⟩

theorem deleteSlot_returns (calm : t.Calm) (enough : maxProbeLen < fuel) (key : K) :
    ∃ result, t.deleteSlot P fuel key (P.layout.keyToHash key) = .ok result := by
  obtain ⟨res, search⟩ : ∃ res, t.searchForDelete P fuel key = .ok res :=
    Bucket.findSlotForDelete_returns (calm _ (t.bucketOf_lt P.layout key)) enough
  simp only [searchForDelete, bucketOf, SlotLayout.keyHash] at search
  rw [Table.deleteSlot]
  simp only [search]
  cases res <;> exact ⟨_, rfl⟩

/-- `Find`. -/
theorem Refines.findSlot (refines : t.Refines P.layout m) (enough : maxProbeLen < fuel)
    (calm : t.Calm) (key : K) :
    t.findSlot P fuel key (P.layout.keyToHash key) = .ok ((m key).map (P.layout.slotOf key)) := by
  have inTable := t.bucketOf_lt P.layout key
  exact (refines.valid.placed _ inTable).findSlot (calm _ inTable) enough (m key)
    fun value => refines.binds key value

end Operations

end Table

/-! ## The simulation -/

section Simulation

variable [DecidableEq K] [DecidableEq H] {P : TableParams F K V H E} {fuel : Nat}

/-- The fuel of a single search: the cells of a probe path, and the round that
leaves the loop. -/
def searchFuel : Nat := maxProbeLen + 1

theorem lt_searchFuel : maxProbeLen < searchFuel := Nat.lt_succ_self _

/-- No counter is at its maximum, and a `Put` finds a slot without `MinorRehash`. -/
def Quiet (P : TableParams F K V H E) (t : Table F H E) : MapOp K V → Prop
  | .put key _ => t.Calm ∧ ∀ res, t.searchForInsert P searchFuel key = .ok res → res.find = true
  | _ => t.Calm

/-- What the callback of `Find` sees of a binding: the decoded record. -/
def boundRecord (key : K) (value : V) : Option (K × V) := some (key, value)

/-- Quiet operations are those of a map. -/
theorem mapExec_simulates (enough : searchFuel < fuel) :
    Simulates (mapExec P fuel) (Quiet P) (mapStep boundRecord) (Table.Refines P.layout) := by
  rw [searchFuel] at enough
  intro t m op refines quiet
  cases op with
  | put key value =>
    obtain ⟨calm, room⟩ := quiet
    obtain ⟨res, search⟩ : ∃ res, t.searchForInsert P fuel key = .ok res :=
      Bucket.findSlotForInsert_returns (calm _ (t.bucketOf_lt _ key)) (by omega : maxProbeLen < fuel)
    have same : t.searchForInsert P searchFuel key = t.searchForInsert P fuel key :=
      Table.searchForInsert_fuel (Nat.lt_succ_self _) (by omega) key
    have found := room res (same.trans search)
    obtain ⟨rounds, eq⟩ := Nat.exists_eq_succ_of_ne_zero (Nat.ne_zero_of_lt enough)
    obtain ⟨retired, ok⟩ := Table.insertSlot_of_found search found value rounds
    refine ⟨_, ?_, refines.commit (by omega) search found value⟩
    rw [← Nat.succ_eq_add_one, ← eq] at ok
    rw [mapExec, ok]
    rfl
  | find key =>
    refine ⟨t, ?_, refines⟩
    have decoded : P.layout.decode ∘ P.layout.slotOf key = boundRecord key :=
      funext fun value => P.layout.decode_slotOf key value
    rw [mapExec, refines.findSlot (by omega) quiet]
    change Except.ok (t, MapAnswer.find (((m key).map _).map _)) = _
    rw [Option.map_map, decoded]
    rfl
  | delete key =>
    obtain ⟨⟨t', found, retired⟩, ok⟩ :=
      Table.deleteSlot_returns (P := P) quiet (by omega : maxProbeLen < fuel) key
    obtain ⟨rfl, refines'⟩ := refines.deleteSlot (by omega) ok
    refine ⟨t', ?_, refines'⟩
    rw [mapExec, ok]
    rfl

end Simulation

end TurboHash
