import TurboHash.RehashMap
import TurboHash.TableMap

/-!
# Runs with rehashes

`Put` rehashes its bucket for as long as its search finds no slot, and the
whole-table passes rehash one bucket after the other. `Op.Meets good` says that
every rehash of an operation meets the condition `good` in the table it starts
from. An invariant of the commits and of the rehashes that meet `good` is then an
invariant of the run (`run_invariant`).
-/

namespace TurboHash

open Simulation

variable {F : CellFormat} {K V H E : Type} {P : TableParams F K V H E} {t t' : Table F H E}
  {bi n : Nat} {isgc : Bool}

namespace Table

/-! ## One rehash -/

/-- The cell count shift that `MinorRehash` gives the bucket. -/
def newShift (t : Table F H E) (bi : Nat) (isgc : Bool) : Nat :=
  if isgc then (t.buckets bi).cellCountShift else (t.buckets bi).cellCountShift + 1

theorem shift_le_newShift (t : Table F H E) (bi : Nat) (isgc : Bool) :
    (t.buckets bi).cellCountShift ≤ t.newShift bi isgc := by
  rw [newShift]
  split <;> omega

/-- `MinorRehash` below the limit on the cells of a bucket. -/
theorem minorRehash_of_le (below : 2 ^ t.newShift bi isgc ≤ P.kCellCountLimit) :
    ∃ capacity, t.minorRehash P bi isgc =
      ((t.buckets bi).rehash P.layout bi (t.newShift bi isgc)
        (P.uninit bi (t.newShift bi isgc))).map fun rehashed =>
          ({ t.setBucket bi rehashed.1 with capacity }, rehashed.2) := by
  have small : ¬ 32 ≤ t.newShift bi isgc := by
    intro large
    have := Nat.pow_le_pow_right two_pos large
    have := P.limit_le
    rw [kTurboCellCountLimit] at this
    omega
  refine ⟨t.capacity + (UInt32.ofNat (t.buckets bi).cellCount *
    UInt32.ofNat (F.slotCount - 1)).toUInt64, ?_⟩
  simp only [minorRehash]
  change (if 32 ≤ t.newShift bi isgc then _ else _) = _
  rw [if_neg small]
  change (if P.kCellCountLimit < 2 ^ t.newShift bi isgc then _ else _) = _
  rw [if_neg (Nat.not_lt.mpr below)]
  change ((t.buckets bi).rehash P.layout bi (t.newShift bi isgc)
    (P.uninit bi (t.newShift bi isgc))).bind _ = _
  cases (t.buckets bi).rehash P.layout bi (t.newShift bi isgc)
    (P.uninit bi (t.newShift bi isgc)) <;> rfl

/-- `MinorRehash` above the limit. -/
theorem minorRehash_of_lt (small : t.newShift bi isgc < 32)
    (above : P.kCellCountLimit < 2 ^ t.newShift bi isgc) :
    t.minorRehash P bi isgc = .error (.exit .cannotRehash) := by
  simp only [minorRehash]
  change (if 32 ≤ t.newShift bi isgc then _ else _) = _
  rw [if_neg (Nat.not_le.mpr small)]
  change (if P.kCellCountLimit < 2 ^ t.newShift bi isgc then _ else _) = _
  rw [if_pos above]
  rfl

/-- `MinorRehash` of a bucket whose doubled size wraps to zero. -/
theorem minorRehash_of_wrap (large : 32 ≤ t.newShift bi isgc) :
    t.minorRehash P bi isgc = .error .undefined := by
  simp only [minorRehash]
  change (if 32 ≤ t.newShift bi isgc then _ else _) = _
  rw [if_pos large]
  rfl

/-- A `MinorRehash` that returns. -/
theorem minorRehash_cases (ok : t.minorRehash P bi isgc = .ok (t', n)) :
    2 ^ t.newShift bi isgc ≤ P.kCellCountLimit ∧
      ∃ new, (t.buckets bi).rehash P.layout bi (t.newShift bi isgc)
          (P.uninit bi (t.newShift bi isgc)) = .ok (new, n) ∧
        t'.bucketCountShift = t.bucketCountShift ∧ t'.buckets = Function.update t.buckets bi new := by
  by_cases below : 2 ^ t.newShift bi isgc ≤ P.kCellCountLimit
  · obtain ⟨capacity, eq⟩ := minorRehash_of_le (P := P) below
    rw [eq] at ok
    cases built : (t.buckets bi).rehash P.layout bi (t.newShift bi isgc)
        (P.uninit bi (t.newShift bi isgc)) with
    | error halt =>
      rw [built] at ok
      cases ok
    | ok rehashed =>
      rw [built] at ok
      cases ok
      exact ⟨below, rehashed.1, rfl, rfl, rfl⟩
  · by_cases small : t.newShift bi isgc < 32
    · rw [minorRehash_of_lt small (Nat.not_le.mp below)] at ok
      cases ok
    · rw [minorRehash_of_wrap (Nat.not_lt.mp small)] at ok
      cases ok

theorem lt_of_mem_rehashOrder {i : Nat} (mem : i ∈ t.rehashOrder) : i < t.bucketCount := by
  simp only [rehashOrder, List.mem_flatMap, List.mem_range, List.mem_range'_1] at mem
  obtain ⟨thread, four, -, less⟩ := mem
  have share : t.bucketCount / 4 * thread + t.bucketCount / 4 ≤ t.bucketCount / 4 * 4 := by
    rw [← Nat.mul_succ]
    exact Nat.mul_le_mul_left _ four
  have := Nat.div_mul_le_self t.bucketCount 4
  omega

/-! ## Conditions on the rehashes of an operation -/

section Meets

variable [DecidableEq H] (P : TableParams F K V H E) (fuel : Nat)
  (good : Table F H E → Nat → Bool → Prop)

/-- Every rehash of a `Put` of `key` meets `good`. -/
def PutMeets (key : K) : Nat → Table F H E → Prop
  | 0, _ => True
  | rounds + 1, t =>
    ∀ res, t.searchForInsert P fuel key = .ok res → res.find = false →
      good t (t.bucketOf P.layout key) false ∧
        ∀ t' n, t.minorRehash P (t.bucketOf P.layout key) false = .ok (t', n) →
          PutMeets key rounds t'

omit [DecidableEq H] in
/-- Every rehash of a pass over the buckets `order` meets `good`. -/
def AllMeet (isgc : Bool) : List Nat → Table F H E → Prop
  | [], _ => True
  | i :: order, t =>
    good t i isgc ∧ ∀ t' n, t.minorRehash P i isgc = .ok (t', n) → AllMeet isgc order t'

end Meets

end Table

/-- Every rehash of the operation meets `good`. -/
def Op.Meets [DecidableEq H] (P : TableParams F K V H E) (fuel : Nat)
    (good : Table F H E → Nat → Bool → Prop) (t : Table F H E) : Op K V → Prop
  | .map (.put key _) => t.PutMeets P fuel good key fuel
  | .map _ => True
  | .minorReHashAll => t.AllMeet P good false t.rehashOrder
  | .gcAll => t.AllMeet P good true t.rehashOrder

section Meets

variable {fuel : Nat} {good : Table F H E → Nat → Bool → Prop}

section Decidable

variable [∀ t bi isgc, Decidable (good t bi isgc)]

instance Table.PutMeets.decide [DecidableEq H] (key : K) :
    ∀ rounds t, Decidable (Table.PutMeets P fuel good key rounds t)
  | 0, _ => isTrue trivial
  | rounds + 1, t =>
    have (t' : Table F H E) : Decidable (t'.PutMeets P fuel good key rounds) :=
      Table.PutMeets.decide key rounds t'
    inferInstanceAs (Decidable (∀ res, t.searchForInsert P fuel key = .ok res → res.find = false → _))

instance Table.AllMeet.decide (isgc : Bool) :
    ∀ order t, Decidable (Table.AllMeet P good isgc order t)
  | [], _ => isTrue trivial
  | i :: order, t =>
    have (t' : Table F H E) : Decidable (t'.AllMeet P good isgc order) :=
      Table.AllMeet.decide isgc order t'
    inferInstanceAs (Decidable (good t i isgc ∧ ∀ t' n, t.minorRehash P i isgc = .ok (t', n) → _))

instance [DecidableEq H] (t : Table F H E) : (op : Op K V) → Decidable (op.Meets P fuel good t)
  | .map (.put key _) => inferInstanceAs (Decidable (t.PutMeets P fuel good key fuel))
  | .map (.find _) | .map (.delete _) => isTrue trivial
  | .minorReHashAll => inferInstanceAs (Decidable (t.AllMeet P good false t.rehashOrder))
  | .gcAll => inferInstanceAs (Decidable (t.AllMeet P good true t.rehashOrder))

end Decidable

/-- A condition that every table meets. -/
theorem Table.AllMeet.of_forall (always : ∀ t bi, good t bi isgc) {order : List Nat} :
    t.AllMeet P good isgc order := by
  induction order generalizing t with
  | nil => trivial
  | cons i order ih => exact ⟨always t i, fun _ _ _ => ih⟩

theorem Table.PutMeets.of_forall [DecidableEq H] (always : ∀ t bi, good t bi false) {key : K}
    {rounds : Nat} : t.PutMeets P fuel good key rounds := by
  induction rounds generalizing t with
  | zero => trivial
  | succ rounds ih => exact fun _ _ _ => ⟨always t _, fun _ _ _ => ih⟩

/-- A condition on whether it is a rehash that collects; only `GCAll` asks it of one that does. -/
theorem Op.Meets.of_forall [DecidableEq H] (always : ∀ t bi, good t bi false) {op : Op K V}
    (collects : op = .gcAll → t.AllMeet P good true t.rehashOrder) : op.Meets P fuel good t := by
  cases op with
  | map op =>
    cases op with
    | put => exact Table.PutMeets.of_forall always
    | find | delete => trivial
  | minorReHashAll => exact Table.AllMeet.of_forall always
  | gcAll => exact collects rfl

end Meets

/-- What an operation does to the map: a rehash does nothing. -/
def opMap [DecidableEq K] (m : K → Option V) : Op K V → K → Option V
  | .map op => (mapStep boundRecord m op).1
  | .minorReHashAll => m
  | .gcAll => m

/-! ## The rule of invariants -/

section Invariant

variable [DecidableEq K] [DecidableEq H] {fuel : Nat} {good : Table F H E → Nat → Bool → Prop}

/-- What the commits and the rehashes that meet `good` keep. -/
structure Kept (P : TableParams F K V H E) (fuel : Nat) (good : Table F H E → Nat → Bool → Prop)
    (I : (K → Option V) → Table F H E → Prop) : Prop where
  rehash : ∀ m t bi isgc t' n, I m t → bi < t.bucketCount → good t bi isgc →
    t.minorRehash P bi isgc = .ok (t', n) → I m t'
  put : ∀ m t key value res, I m t → t.searchForInsert P fuel key = .ok res → res.find = true →
    I (Function.update m key (some value)) (t.commit P key value res.targetSlot)
  delete : ∀ m t key t' found retired, I m t →
    t.deleteSlot P fuel key (P.layout.keyToHash key) = .ok (t', found, retired) →
      I (Function.update m key none) t'

namespace Kept

variable {I : (K → Option V) → Table F H E → Prop} {m : K → Option V}

theorem insertSlot (kept : Kept P fuel good I) {key : K} {value : V} {rounds : Nat}
    {retired : Option E} (start : I m t) (meets : t.PutMeets P fuel good key rounds)
    (ok : t.insertSlot P fuel key value (P.layout.keyToHash key) rounds = .ok (t', retired)) :
    I (Function.update m key (some value)) t' := by
  induction rounds generalizing t with
  | zero => cases ok
  | succ rounds ih =>
    cases search : t.searchForInsert P fuel key with
    | error halt =>
      rw [Table.insertSlot_of_error search] at ok
      cases ok
    | ok res =>
      cases found : res.find with
      | true =>
        obtain ⟨retired', eq⟩ := Table.insertSlot_of_found search found value rounds
        cases eq.symm.trans ok
        exact kept.put m t key value res start search found
      | false =>
        obtain ⟨met, later⟩ := meets res search found
        rw [Table.insertSlot_of_noRoom search found, Bucket.findSlotForInsert_bucket search] at ok
        cases rehashed : t.minorRehash P (t.bucketOf P.layout key) false with
        | error halt =>
          rw [rehashed] at ok
          cases ok
        | ok result =>
          obtain ⟨t₁, n⟩ := result
          rw [rehashed] at ok
          have next := kept.rehash m t _ false t₁ n start (t.bucketOf_lt _ key) met rehashed
          exact ih next (later t₁ n rehashed) ok

omit [DecidableEq H] [DecidableEq K] in
theorem foldlM_minorRehash
    (kept : ∀ t bi t' n, I m t → bi < t.bucketCount → good t bi isgc →
      t.minorRehash P bi isgc = .ok (t', n) → I m t')
    {order : List Nat} {counts counts' : Nat} (inside : ∀ i ∈ order, i < t.bucketCount)
    (start : I m t) (meets : t.AllMeet P good isgc order)
    (ok : order.foldlM (fun (t, counts) i => do
      let (t, count) ← t.minorRehash P i isgc
      return (t, counts + count)) (t, counts) = .ok (t', counts')) : I m t' := by
  induction order generalizing t counts with
  | nil =>
    cases ok
    exact start
  | cons i order ih =>
    obtain ⟨met, later⟩ := meets
    rw [List.foldlM_cons] at ok
    cases rehashed : t.minorRehash P i isgc with
    | error halt =>
      simp only [rehashed] at ok
      cases ok
    | ok result =>
      obtain ⟨t₁, n⟩ := result
      simp only [rehashed] at ok
      have next := kept t i t₁ n start (inside i (by simp)) met rehashed
      obtain ⟨-, new, -, sameCount, -⟩ := Table.minorRehash_cases rehashed
      have count : t₁.bucketCount = t.bucketCount := congrArg (2 ^ ·) sameCount
      exact ih (fun j mem => count ▸ inside j (by simp [mem])) next (later t₁ n rehashed) ok

/-- An operation whose rehashes meet `good` keeps what the commits and these
rehashes keep. -/
theorem exec (kept : Kept P fuel good I) {op : Op K V} {result : OpResult K V} (start : I m t)
    (meets : op.Meets P fuel good t) (ok : op.exec P fuel t = .ok (t', result)) :
    I (opMap m op) t' := by
  cases op with
  | map op =>
    cases op with
    | put key value =>
      cases inserted : t.insertSlot P fuel key value (P.layout.keyToHash key) fuel with
      | error halt =>
        simp only [Op.exec, mapExec, inserted] at ok
        cases ok
      | ok result =>
        simp only [Op.exec, mapExec, inserted] at ok
        cases ok
        exact kept.insertSlot start meets inserted
    | find key =>
      cases found : t.findSlot P fuel key (P.layout.keyToHash key) with
      | error halt =>
        simp only [Op.exec, mapExec, found] at ok
        cases ok
      | ok slot =>
        simp only [Op.exec, mapExec, found] at ok
        cases ok
        exact start
    | delete key =>
      cases deleted : t.deleteSlot P fuel key (P.layout.keyToHash key) with
      | error halt =>
        simp only [Op.exec, mapExec, deleted] at ok
        cases ok
      | ok result =>
        simp only [Op.exec, mapExec, deleted] at ok
        cases ok
        exact kept.delete m t key _ _ _ start deleted
  | minorReHashAll =>
    cases passed : t.rehashAll P false with
    | error halt =>
      simp only [Op.exec, passed] at ok
      cases ok
    | ok result =>
      simp only [Op.exec, passed] at ok
      cases ok
      exact foldlM_minorRehash (fun t bi t' n => kept.rehash m t bi false t' n)
        (fun i mem => Table.lt_of_mem_rehashOrder mem) start meets passed
  | gcAll =>
    cases passed : t.rehashAll P true with
    | error halt =>
      simp only [Op.exec, passed] at ok
      cases ok
    | ok result =>
      simp only [Op.exec, passed] at ok
      cases ok
      exact foldlM_minorRehash (fun t bi t' n => kept.rehash m t bi true t' n)
        (fun i mem => Table.lt_of_mem_rehashOrder mem) start meets passed

theorem run (kept : Kept P fuel good I) {ops : List (Op K V)} {results : List (OpResult K V)}
    (start : I m t) (meets : Guarded (Op.exec P fuel) (Op.Meets P fuel good) t ops)
    (ok : TurboHash.run P fuel t ops = .ok (t', results)) : I (ops.foldl opMap m) t' := by
  refine run_invariant ?_ start meets ok
  exact fun _ _ _ _ _ start meets ok => kept.exec start meets ok

end Kept

end Invariant

end TurboHash
