import TurboHash.ConstructSizes
import TurboHash.WholeTable

/-!
# The capacity of the table

`capacity_` is not recomputed: every `MinorRehash` adds the slots of the old bucket to it.
That is what doubling the bucket adds to the table, but a rehash that only collects, which
adds no slot, does the same. So the counter is exact until a `GCAll` visits a bucket
(`capacity_exact_iff`).
-/

namespace TurboHash

open Simulation

variable {F : CellFormat} {K V H E : Type}

namespace Table

section Definitions

variable (t : Table F H E)

/-- The slots of bucket `i` that entries can fill. -/
def bucketCapacity (i : Nat) : Nat := (t.buckets i).cellCount * (F.slotCount - 1)

/-- The capacity, recomputed from the buckets. -/
def capacitySum : Nat := ∑ i ∈ Finset.range t.bucketCount, t.bucketCapacity i

/-- `Capacity` is the capacity of the buckets. -/
def CapacityExact : Prop := t.capacity.toNat = t.capacitySum

instance : Decidable t.CapacityExact := inferInstanceAs (Decidable (_ = _))

/-- What is true of the capacity before a `GCAll`: it is exact, and too small to wrap. -/
structure Tracked (shift bound : Nat) : Prop where
  count : t.bucketCountShift = shift
  bounded : ∀ i, t.bucketCapacity i ≤ bound
  exact : t.CapacityExact

end Definitions

variable {P : TableParams F K V H E} {t t' : Table F H E} {shift bound bi n : Nat} {isgc : Bool}

theorem capacitySum_le (bounded : ∀ i, t.bucketCapacity i ≤ bound) :
    t.capacitySum ≤ t.bucketCount * bound := by
  have sum := Finset.sum_le_card_nsmul (Finset.range t.bucketCount) t.bucketCapacity bound
    fun i _ => bounded i
  rwa [Finset.card_range, smul_eq_mul] at sum

theorem capacitySum_pos (t : Table F H E) : 0 < t.capacitySum := by
  have slots : 0 < F.slotCount - 1 := by
    have := F.fullCount_eq
    have := F.fullCount_pos
    omega
  exact Finset.sum_pos (fun i _ => Nat.mul_pos (t.buckets i).cellCount_pos slots)
    ⟨0, Finset.mem_range.mpr t.bucketCount_pos⟩

/-! ## One rehash -/

/-- A rehash adds the capacity of the old bucket to the counter, whatever it is for. -/
theorem minorRehash_capacity (ok : t.minorRehash P bi isgc = .ok (t', n)) :
    t'.capacity.toNat = (t.capacity.toNat + t.bucketCapacity bi) % 2 ^ 64 := by
  obtain ⟨below, -⟩ := minorRehash_cases ok
  have limit : 2 ^ t.newShift bi isgc ≤ 2 ^ 15 := below.trans P.limit_le
  have cells : (t.buckets bi).cellCount ≤ 2 ^ 15 :=
    (Nat.pow_le_pow_right two_pos (t.shift_le_newShift bi isgc)).trans limit
  have slots : F.slotCount - 1 < 2 ^ 5 := by
    have := F.slotCount_eq
    have := F.bits_le
    omega
  have product : t.bucketCapacity bi < 2 ^ 32 :=
    (Nat.mul_le_mul cells slots.le).trans_lt (by decide)
  have added : (UInt32.ofNat (t.buckets bi).cellCount *
      UInt32.ofNat (F.slotCount - 1)).toUInt64.toNat = t.bucketCapacity bi := by
    rw [UInt32.toNat_toUInt64, UInt32.toNat_mul,
      UInt32.toNat_ofNat_of_lt' (cells.trans_lt (by decide)),
      UInt32.toNat_ofNat_of_lt' (slots.trans (by decide))]
    exact Nat.mod_eq_of_lt product
  have small : ¬ 32 ≤ t.newShift bi isgc := by
    intro large
    exact absurd ((Nat.pow_le_pow_right two_pos large).trans limit) (by decide)
  simp only [minorRehash] at ok
  change (if 32 ≤ t.newShift bi isgc then _ else _) = _ at ok
  rw [if_neg small] at ok
  change (if P.kCellCountLimit < 2 ^ t.newShift bi isgc then _ else _) = _ at ok
  rw [if_neg (Nat.not_lt.mpr below)] at ok
  obtain ⟨⟨bucket, count⟩, -, same⟩ := bind_eq_ok.mp ok
  cases same
  change (t.capacity + _).toNat = _
  rw [UInt64.toNat_add, added]

/-- The cells that a rehash gives the bucket. -/
theorem minorRehash_bucketCapacity (ok : t.minorRehash P bi isgc = .ok (t', n)) :
    t'.bucketCapacity bi = t.bucketCapacity bi + (if isgc then 0 else t.bucketCapacity bi) ∧
      ∀ i, i ≠ bi → t'.bucketCapacity i = t.bucketCapacity i := by
  obtain ⟨-, newShift, -, -, others⟩ := minorRehash_clean ok
  refine ⟨?_, fun i other => by rw [bucketCapacity, others i other, bucketCapacity]⟩
  rw [bucketCapacity, Bucket.cellCount, newShift, Table.newShift]
  cases isgc with
  | true => rfl
  | false =>
    rw [if_neg Bool.false_ne_true, if_neg Bool.false_ne_true, Nat.pow_succ, Nat.mul_two,
      Nat.add_mul]
    rfl

/-- What a rehash adds to the capacity of the buckets. -/
theorem minorRehash_capacitySum (inside : bi < t.bucketCount)
    (ok : t.minorRehash P bi isgc = .ok (t', n)) :
    t'.capacitySum = t.capacitySum + (if isgc then 0 else t.bucketCapacity bi) := by
  obtain ⟨here, others⟩ := minorRehash_bucketCapacity ok
  obtain ⟨-, -, -, count, -⟩ := minorRehash_clean ok
  have mem : bi ∈ Finset.range t.bucketCount := Finset.mem_range.mpr inside
  have rest : ∑ i ∈ (Finset.range t.bucketCount).erase bi, t'.bucketCapacity i =
      ∑ i ∈ (Finset.range t.bucketCount).erase bi, t.bucketCapacity i :=
    Finset.sum_congr rfl fun i mem => others i (Finset.ne_of_mem_erase mem)
  rw [capacitySum, capacitySum, show t'.bucketCount = t.bucketCount from congrArg (2 ^ ·) count,
    ← Finset.add_sum_erase _ _ mem, ← Finset.add_sum_erase _ t.bucketCapacity mem, rest, here]
  omega

/-- The capacity of a rehashed bucket stays below the bound. -/
theorem bucketCapacity_le (large : 2 ^ 15 * (F.slotCount - 1) ≤ bound)
    (bounded : ∀ i, t.bucketCapacity i ≤ bound) (ok : t.minorRehash P bi isgc = .ok (t', n))
    (i : Nat) : t'.bucketCapacity i ≤ bound := by
  obtain ⟨below, -⟩ := minorRehash_cases ok
  obtain ⟨-, newShift, -, -, others⟩ := minorRehash_clean ok
  by_cases here : i = bi
  · rw [here, bucketCapacity, Bucket.cellCount, newShift]
    exact (Nat.mul_le_mul_right _ (below.trans P.limit_le)).trans large
  · rw [bucketCapacity, others i here]
    exact bounded i

/-! ## Runs without a collection -/

section Runs

variable [DecidableEq K] [DecidableEq H] {fuel : Nat}

omit [DecidableEq K] [DecidableEq H] in
/-- Nothing but the counts and the counter decides. -/
theorem Tracked.congr (tracked : t.Tracked shift bound)
    (count : t'.bucketCountShift = t.bucketCountShift) (capacity : t'.capacity = t.capacity)
    (cells : ∀ i, (t'.buckets i).cellCountShift = (t.buckets i).cellCountShift) :
    t'.Tracked shift bound := by
  have same : t'.bucketCapacity = t.bucketCapacity := by
    funext i
    rw [bucketCapacity, bucketCapacity, Bucket.cellCount, Bucket.cellCount, cells]
  refine ⟨count.trans tracked.count, fun i => same ▸ tracked.bounded i, ?_⟩
  rw [CapacityExact, capacity, capacitySum, bucketCount, count, same]
  exact tracked.exact

/-- The commits and the rehashes that double a bucket keep the capacity exact. -/
theorem tracked_kept (large : 2 ^ 15 * (F.slotCount - 1) ≤ bound)
    (fits : 2 ^ shift * bound < 2 ^ 64) :
    Kept P fuel (fun _ _ isgc => isgc = false) fun _ t => t.Tracked shift bound where
  rehash _ t bi isgc t' n tracked inside doubles ok := by
    subst doubles
    obtain ⟨-, -, -, count, -⟩ := minorRehash_clean ok
    have bounded := bucketCapacity_le large tracked.bounded ok
    refine ⟨count.trans tracked.count, bounded, ?_⟩
    have sum := minorRehash_capacitySum inside ok
    have below := capacitySum_le bounded
    rw [bucketCount, count, tracked.count] at below
    rw [CapacityExact, minorRehash_capacity ok, show t.capacity.toNat = _ from tracked.exact, sum,
      if_neg Bool.false_ne_true, Nat.mod_eq_of_lt]
    rw [if_neg Bool.false_ne_true] at sum
    omega
  put _ t key value res tracked _ _ :=
    tracked.congr rfl rfl fun i => Table.commit_shift t key value res.targetSlot i
  delete _ t key t' found retired tracked ok := by
    refine tracked.congr ?_ ?_ fun i => Table.deleteSlot_shift ok i
    · rcases deleteSlot_cases ok with ⟨-, rfl, -⟩ | ⟨c, i, -, -, rfl⟩ <;> rfl
    · rcases deleteSlot_cases ok with ⟨-, rfl, -⟩ | ⟨c, i, -, -, rfl⟩ <;> rfl

theorem Tracked.exec (large : 2 ^ 15 * (F.slotCount - 1) ≤ bound)
    (fits : 2 ^ shift * bound < 2 ^ 64) {op : Op K V} {result : OpResult K V}
    (few : op = .gcAll → 2 ^ shift < 4) (tracked : t.Tracked shift bound)
    (ok : op.exec P fuel t = .ok (t', result)) : t'.Tracked shift bound := by
  have kept : Kept P fuel _ fun _ t => t.Tracked shift bound := tracked_kept large fits
  refine kept.exec (m := fun _ => none) tracked ?_ ok
  refine Op.Meets.of_forall ?_ fun collects => ?_
  · exact fun _ _ => rfl
  · have few : t.bucketCount < 4 := by
      rw [bucketCount, tracked.count]
      exact few collects
    rw [rehashOrder_of_lt few]
    trivial

theorem Tracked.run (large : 2 ^ 15 * (F.slotCount - 1) ≤ bound)
    (fits : 2 ^ shift * bound < 2 ^ 64) {ops : List (Op K V)} {results : List (OpResult K V)}
    (few : .gcAll ∈ ops → 2 ^ shift < 4) (tracked : t.Tracked shift bound)
    (ok : TurboHash.run P fuel t ops = .ok (t', results)) : t'.Tracked shift bound := by
  induction ops generalizing t results with
  | nil =>
    cases ok
    exact tracked
  | cons op ops ih =>
    obtain ⟨middle, answer, rest, first, ok, -⟩ := run_cons_eq_ok.mp ok
    have next := tracked.exec large fits (fun collects => few (by simp [collects])) first
    exact ih (fun mem => few (List.mem_cons_of_mem _ mem)) next ok

end Runs

/-! ## A collection -/

/-- A pass that collects adds to the counter and to no bucket. -/
theorem foldlM_collect {order : List Nat} {counts counts' : Nat}
    (ok : order.foldlM (fun (t, counts) i => do
      let (t, count) ← t.minorRehash P i true
      return (t, counts + count)) (t, counts) = .ok (t', counts')) :
    t'.bucketCountShift = t.bucketCountShift ∧ t'.bucketCapacity = t.bucketCapacity ∧
      t'.capacity.toNat = (t.capacity.toNat + (order.map t.bucketCapacity).sum) % 2 ^ 64 := by
  induction order generalizing t counts with
  | nil =>
    cases ok
    exact ⟨rfl, rfl, (Nat.mod_eq_of_lt (UInt64.toNat_lt _)).symm⟩
  | cons i order ih =>
    rw [List.foldlM_cons] at ok
    obtain ⟨⟨t₁, counts₁⟩, first, rest⟩ := bind_eq_ok.mp ok
    obtain ⟨⟨t₂, n⟩, rehashed, same⟩ := bind_eq_ok.mp first
    cases same
    obtain ⟨-, -, -, count, -⟩ := minorRehash_clean rehashed
    obtain ⟨here, others⟩ := minorRehash_bucketCapacity rehashed
    obtain ⟨count', kept, capacity⟩ := ih rest
    have same : t₁.bucketCapacity = t.bucketCapacity := by
      funext j
      by_cases eq : j = i
      · rw [eq, here, if_pos rfl, Nat.add_zero]
      · exact others j eq
    refine ⟨count'.trans count, kept.trans same, ?_⟩
    rw [capacity, same, minorRehash_capacity rehashed, Nat.mod_add_mod, List.map_cons,
      List.sum_cons, Nat.add_assoc]

/-- `GCAll` of a table of four buckets or more adds its whole capacity to the counter. -/
theorem gcAll_capacity (four : 4 ≤ t.bucketCount) (ok : t.rehashAll P true = .ok (t', n)) :
    t'.capacitySum = t.capacitySum ∧
      t'.capacity.toNat = (t.capacity.toNat + t.capacitySum) % 2 ^ 64 := by
  rw [rehashAll, rehashOrder_eq four] at ok
  obtain ⟨count, same, capacity⟩ := foldlM_collect ok
  refine ⟨?_, capacity⟩
  rw [capacitySum, capacitySum, bucketCount, bucketCount, count, same]

end Table

/-! ## The result -/

section Result

variable [DecidableEq H] {P : TableParams F K V H E} {bucketCount cellCount : UInt32}
  {t₀ t : Table F H E} {fuel : Nat} {ops : List (Op K V)} {results : List (OpResult K V)}

omit [DecidableEq H] in
/-- A new table is tracked, if its capacity fits into 32 bits. -/
theorem Table.Tracked.construct (fresh : Table.construct P bucketCount cellCount = some t₀)
    (below : bucketCount.toNat * cellCount.toNat * (F.slotCount - 1) < 2 ^ 32) :
    t₀.Tracked t₀.bucketCountShift
      (cellCount.toNat * (F.slotCount - 1) + 2 ^ 15 * (F.slotCount - 1)) := by
  obtain ⟨count, capacity⟩ := construct_counts fresh
  obtain ⟨power, buckets⟩ := construct_cases fresh
  have each : ∀ i, t₀.bucketCapacity i = cellCount.toNat * (F.slotCount - 1) := by
    intro i
    rw [bucketCapacity, buckets, Bucket.cellCount, ← toNat_of_isPowerOfTwo power]
  refine ⟨rfl, fun i => (each i).trans_le (Nat.le_add_right _ _), ?_⟩
  rw [CapacityExact, capacity, Nat.mod_eq_of_lt below, capacitySum,
    Finset.sum_congr rfl fun i _ => each i, Finset.sum_const, Finset.card_range, smul_eq_mul,
    ← count, Nat.mul_assoc]

/-- The capacity is exact after every operation of a run if and only if the run has no `GCAll`, or
the table too few buckets for `GCAll` to visit one. -/
theorem capacity_exact_iff (fresh : Table.construct P bucketCount cellCount = some t₀)
    (below : bucketCount.toNat * cellCount.toNat * (F.slotCount - 1) < 2 ^ 32)
    (ran : run P fuel t₀ ops = .ok (t, results)) :
    (∀ before, before <+: ops → ∀ t' results', run P fuel t₀ before = .ok (t', results') →
      t'.CapacityExact) ↔ (Op.gcAll ∈ ops → bucketCount.toNat < 4) := by
  classical
  have start := Table.Tracked.construct fresh below
  obtain ⟨count, -⟩ := Table.construct_counts fresh
  generalize bound_eq :
    cellCount.toNat * (F.slotCount - 1) + 2 ^ 15 * (F.slotCount - 1) = bound at start
  have large : 2 ^ 15 * (F.slotCount - 1) ≤ bound := bound_eq ▸ Nat.le_add_left _ _
  have fits : 2 ^ t₀.bucketCountShift * bound < 2 ^ 64 := by
    have slots : 2 ^ 15 * (F.slotCount - 1) ≤ 2 ^ 15 * 2 ^ 5 := by
      have := F.slotCount_eq
      have := F.bits_le
      omega
    have growth := Nat.mul_le_mul bucketCount.toNat_lt.le slots
    change t₀.bucketCount * bound < _
    rw [← count, ← bound_eq, Nat.mul_add, ← Nat.mul_assoc]
    omega
  constructor
  · intro exact collects
    by_contra many
    -- the first `GCAll` of the run
    obtain ⟨before, after, rfl, fresh⟩ := List.eq_append_cons_of_mem collects
    rw [List.append_cons] at ran
    obtain ⟨t₂, upTo, _, ran₂, -⟩ := run_append_ok ran
    obtain ⟨t₁, first, _, ran₁, last⟩ := run_append_ok ran₂
    have tracked := start.run large fits (fun mem => absurd mem fresh) ran₁
    obtain ⟨_, _, _, step, done, -⟩ := run_cons_eq_ok.mp last
    cases done
    obtain ⟨⟨t₂, n⟩, passed, same⟩ := bind_eq_ok.mp step
    cases same
    have four : 4 ≤ t₁.bucketCount := by
      rw [Table.bucketCount, tracked.count]
      exact (Nat.not_lt.mp many).trans_eq count
    obtain ⟨sum, capacity⟩ := Table.gcAll_capacity four passed
    have late := exact (before ++ [Op.gcAll]) ⟨after, by simp⟩ t₂ upTo ran₂
    rw [Table.CapacityExact, sum, capacity, show t₁.capacity.toNat = _ from tracked.exact] at late
    have small := (Table.capacitySum_le tracked.bounded).trans_lt
      (by rwa [Table.bucketCount, tracked.count])
    have positive := t₁.capacitySum_pos
    omega
  · intro few before part t' results' ok
    refine (start.run large fits (fun mem => ?_) ok).exact
    exact count.symm.trans_lt (few (part.subset mem))

theorem capacity_exact_iff_growth : ∃ t results,
    run dram 16 dram4x16 [.map (.put 7 70), .minorReHashAll] = .ok (t, results) ∧
      t.CapacityExact := by
  obtain ⟨t, results, ran⟩ : ∃ t results,
      run dram 16 dram4x16 [.map (.put 7 70), .minorReHashAll] = .ok (t, results) := ⟨_, _, rfl⟩
  refine ⟨t, results, ran, ?_⟩
  exact (capacity_exact_iff construct_dram4x16 (by decide) ran).mpr (by simp) _
    List.prefix_rfl t results ran

/-- `GCAll` of an empty table doubles what `Capacity` says. -/
theorem capacity_not_exact : ∃ t results,
    run dram 16 dram4x16 [.gcAll] = .ok (t, results) ∧ ¬ t.CapacityExact := by
  obtain ⟨t, results, ran⟩ : ∃ t results, run dram 16 dram4x16 [.gcAll] = .ok (t, results) :=
    ⟨_, _, rfl⟩
  have computed : (run dram 16 dram4x16 [.gcAll]).map (fun r => decide r.1.CapacityExact) =
      .ok false := by decide +kernel
  rw [ran] at computed
  exact ⟨t, results, ran, of_decide_eq_false (Except.ok.inj computed)⟩

end Result

end TurboHash
