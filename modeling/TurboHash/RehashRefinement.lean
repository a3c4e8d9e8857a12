import TurboHash.MapRefinement
import TurboHash.Runs

/-!
# Rehashes keep the map, unless an entry lands too far

`findNextSlotInRehash` places an entry up to `MAX_PROBE_LEN` cells from its home,
lookups and searches visit the first `MAX_PROBE_LEN` cells only, the last of which
is one cell nearer. As long as no rehash places an entry in the cell between,
the table remains the map of the operations, whatever buckets are rehashed in
between.
-/

namespace TurboHash

open Simulation

variable {F : CellFormat} {K V H E : Type} {P : TableParams F K V H E} {t t' : Table F H E}
  {bi n : Nat} {isgc : Bool}

namespace Table

/-- The rehash of bucket `bi` puts every entry on the probe path of its key. -/
def NearRehash (P : TableParams F K V H E) (t : Table F H E) (bi : Nat) (isgc : Bool) : Prop :=
  (t.buckets bi).Near P.layout (t.newShift bi isgc)

instance (t : Table F H E) (bi : Nat) (isgc : Bool) : Decidable (t.NearRehash P bi isgc) :=
  inferInstanceAs (Decidable (LinearProbe.Fits _ _ _ _ _))

/-- A rehash without far entries keeps the map. -/
theorem Refines.minorRehash {m : K → Option V} (refines : t.Refines P.layout m)
    (inside : bi < t.bucketCount) (near : t.NearRehash P bi isgc)
    (ok : t.minorRehash P bi isgc = .ok (t', n)) : t'.Refines P.layout m := by
  obtain ⟨-, new, built, sameCount, buckets⟩ := minorRehash_cases ok
  obtain ⟨placed, binds⟩ := (refines.valid.placed bi inside).rehash near built
  exact refines.replaceBucket sameCount buckets placed binds

/-- `Put` of a bound key finds its slot. -/
theorem Refines.search_bound [DecidableEq H] {m : K → Option V} {fuel : Nat}
    (refines : t.Refines P.layout m) (enough : maxProbeLen < fuel) {key : K} {value : V}
    {res : FindSlotForInsertResult H} (bound : m key = some value)
    (search : t.searchForInsert P fuel key = .ok res) :
    res.find = true ∧ res.targetSlot.equalKey = true := by
  have placed := refines.valid.placed _ (t.bucketOf_lt P.layout key)
  obtain ⟨c, inside, i, holds⟩ := (refines.binds key value).mpr bound
  have reached := placed.reaches c inside i key value holds
  cases Bucket.findSlotForInsert_answer placed.wf enough search with
  | update => exact ⟨rfl, rfl⟩
  | insert _ _ _ nowhere => exact absurd holds (nowhere c reached i value)
  | noRoom _ nowhere => exact absurd holds (nowhere c reached.mem i value)

end Table

section Kept

variable [DecidableEq K] [DecidableEq H] {fuel : Nat}

/-- The map is kept by the commits and by rehashes without far entries. -/
theorem refines_kept (enough : maxProbeLen < fuel) :
    Kept P fuel (Table.NearRehash P) fun m t => t.Refines P.layout m where
  rehash _ _ _ _ _ _ refines inside near ok := refines.minorRehash inside near ok
  put _ _ _ value _ refines search found := refines.commit enough search found value
  delete _ _ _ _ _ _ refines ok := (refines.deleteSlot enough ok).2

omit [DecidableEq K] [DecidableEq H] in
theorem Table.commit_shift (t : Table F H E) (key : K) (value : V) (target : SlotInfo H) (i : Nat) :
    ((t.commit P key value target).buckets i).cellCountShift = (t.buckets i).cellCountShift := by
  rw [Table.commit, Table.setBucket_buckets]
  split
  case isTrue eq => rw [Bucket.setCell_shift, eq]
  case isFalse => rfl

omit [DecidableEq K] in
theorem Table.deleteSlot_shift {key : K} {found : Bool} {retired : Option E}
    (ok : t.deleteSlot P fuel key (P.layout.keyToHash key) = .ok (t', found, retired)) (i : Nat) :
    (t'.buckets i).cellCountShift = (t.buckets i).cellCountShift := by
  rcases Table.deleteSlot_cases ok with ⟨-, rfl, -⟩ | ⟨c, slot, -, -, rfl⟩
  · rfl
  · rw [Table.setBucket_buckets]
    split
    case isTrue eq => rw [Bucket.setCell_shift, eq]
    case isFalse => rfl

/-- Buckets never shrink. -/
theorem shift_kept (good : Table F H E → Nat → Bool → Prop) (shift : Nat) :
    Kept P fuel good fun _ t => ∀ i, shift ≤ (t.buckets i).cellCountShift where
  rehash m t bi isgc t' n large inside _ ok i := by
    obtain ⟨-, new, built, -, buckets⟩ := Table.minorRehash_cases ok
    obtain ⟨placed, rehashed, -⟩ := Bucket.rehash_disp_lt_iff (k := 0) built
    rw [buckets, Function.update_apply]
    split
    case isTrue eq =>
      rw [rehashed.shift_eq]
      exact (large bi).trans (t.shift_le_newShift bi isgc)
    case isFalse => exact large i
  put m t key value res large _ _ i := by
    rw [Table.commit_shift]
    exact large i
  delete m t key t' found retired large ok i := by
    rw [Table.deleteSlot_shift ok]
    exact large i

end Kept

/-! ## The result -/

section Result

variable [DecidableEq K] [DecidableEq H] {bucketCount cellCount : UInt32} {t₀ : Table F H E}
  {fuel : Nat} {ops : List (Op K V)} {results : List (OpResult K V)}

/-- A bucket that `MinorRehash` may rebuild was zeroed completely. -/
theorem small_of_rehash (fresh : Table.construct P bucketCount cellCount = some t₀)
    {good : Table F H E → Nat → Bool → Prop}
    (meets : Guarded (Op.exec P fuel) (Op.Meets P fuel good) t₀ ops)
    (ran : run P fuel t₀ ops = .ok (t, results))
    (below : 2 ^ t.newShift bi isgc ≤ P.kCellCountLimit) :
    cellCount.toNat * F.cellSize < 2 ^ 32 := by
  obtain ⟨power, buckets⟩ := Table.construct_cases fresh
  have start : ∀ i, ctz cellCount.toBitVec ≤ (t₀.buckets i).cellCountShift := fun i => by
    rw [buckets]
  have grown := (shift_kept good _).run (m := fun _ => none) start meets ran bi
  have limit := P.limit_le
  have cellSize := F.cellSizeLeftShift_le
  have newShift : ctz cellCount.toBitVec ≤ 15 := by
    have exponent : 2 ^ t.newShift bi isgc ≤ 2 ^ 15 := below.trans limit
    exact (grown.trans (t.shift_le_newShift bi isgc)).trans
      ((Nat.pow_le_pow_iff_right one_lt_two).mp exponent)
  rw [Table.toNat_of_isPowerOfTwo power, CellFormat.cellSize, ← pow_add]
  exact Nat.pow_lt_pow_right one_lt_two (by omega)

/-- In every run from a new table whose rehashes put the entries on their probe
paths, the table holds the map of the operations; and a further rehash of a bucket
changes no lookup exactly when no live entry sits under a counter at its maximum
and none meets `MAX_PROBE_LEN` saturated cells. Where none does, the table still
holds the map, and a `Put` of a bound key finds the slot to update. -/
theorem minorRehash_keeps_lookups_iff (fresh : Table.construct P bucketCount cellCount = some t₀)
    (enough : maxProbeLen < fuel) (ran : run P fuel t₀ ops = .ok (t, results))
    (near : Guarded (Op.exec P fuel) (Op.Meets P fuel (Table.NearRehash P)) t₀ ops) :
    (cellCount.toNat * F.cellSize < 2 ^ 32 →
        t.Represents P.layout (ops.foldl opMap fun _ => none)) ∧
      ∀ bi < t.bucketCount, ∀ isgc t' n, t.minorRehash P bi isgc = .ok (t', n) →
        ((∀ key, (t'.buckets bi).findSlot P.layout key (P.layout.keyHash key) fuel bi =
            (t.buckets bi).findSlot P.layout key (P.layout.keyHash key) fuel bi) ↔
          (t.buckets bi).LiveCalm ∧ t.NearRehash P bi isgc) ∧
        (t.NearRehash P bi isgc →
          t'.Represents P.layout (ops.foldl opMap fun _ => none) ∧
          ∀ key value res, (ops.foldl opMap fun _ => none) key = some value →
            t'.searchForInsert P fuel key = .ok res →
              res.find = true ∧ res.targetSlot.equalKey = true) := by
  have refines : cellCount.toNat * F.cellSize < 2 ^ 32 →
      t.Refines P.layout (ops.foldl opMap fun _ => none) := fun small =>
    (refines_kept enough).run (Table.Refines.construct fresh small) near ran
  refine ⟨fun small => (refines small).represents, fun bi inside isgc t' n ok => ?_⟩
  obtain ⟨below, new, built, -, buckets⟩ := Table.minorRehash_cases ok
  have now := refines (small_of_rehash fresh near ran below)
  refine ⟨?_, fun nearNext => ?_⟩
  rotate_left
  · have next := now.minorRehash inside nearNext ok
    exact ⟨next.represents, fun key value res bound search => next.search_bound enough bound search⟩
  rw [buckets, Function.update_self]
  exact Bucket.rehash_keeps_findSlot_iff (now.valid.placed bi inside) built enough

end Result

section Instances

/-- The DRAM table of `uint64_t` keys and values, with the default hash. -/
def dram : TableParams cellMeta128 UInt64 UInt64 UInt64 UInt64 where
  layout := dramLayout
  kCellCountLimit := kTurboCellCountLimit
  limit_le := le_rfl
  uninit _ _ _ := Table.zeroCell dramLayout

/-- Four buckets of 16 cells. -/
def dram4x16 : Table cellMeta128 UInt64 UInt64 where
  bucketCountShift := 2
  buckets i := ⟨4, Table.zeroedCells dram i 4⟩
  capacity := 384

theorem construct_dram4x16 : Table.construct dram 4 16 = some dram4x16 := by
  have powers : (Table.isPowerOfTwo 4 && Table.isPowerOfTwo 16) = true := by decide
  have bucketShift : ctz (4 : UInt32).toBitVec = 2 := by decide
  have cellShift : ctz (16 : UInt32).toBitVec = 4 := by decide
  have slots : (4 * 16 * UInt32.ofNat (cellMeta128.slotCount - 1)).toUInt64 = 384 := by decide
  rw [Table.construct, if_pos powers, bucketShift, cellShift, slots]
  rfl

/-- Eight keys with the home 15 of 16, the last two of which go on to cell 0, the gc
rehash of all buckets, and then an update, a deletion and a key with the home 0. -/
def opsAroundGc : List (Op UInt64 UInt64) :=
  [47, 94, 141, 188, 235, 295, 342, 488].map (fun key => .map (.put key key)) ++
    [.gcAll, .map (.put 47 48), .map (.delete 94), .map (.put 99 99)]

/-- The entries that a doubling of bucket 0 moves behind `ops`, and whether the table
meets the condition of the result. -/
def movedBehind (ops : List (Op UInt64 UInt64)) : Except Halt (Nat × Bool) := do
  let (t, _) ← run dram 16 dram4x16 ops
  let (_, n) ← t.minorRehash dram 0 false
  return (n, decide (0 < t.bucketCount ∧ (t.buckets 0).LiveCalm ∧ t.NearRehash dram 0 false))

/-- The result at this run, with a doubling of the bucket behind it: the earlier
rehash and this one keep the map and every lookup. -/
theorem minorRehash_keeps_lookups_behind_gc :
    ∃ t results t', run dram 16 dram4x16 opsAroundGc = .ok (t, results) ∧
      t.minorRehash dram 0 false = .ok (t', 8) ∧
      t.Represents dram.layout (opsAroundGc.foldl opMap fun _ => none) ∧
      t'.Represents dram.layout (opsAroundGc.foldl opMap fun _ => none) ∧
      ∀ key, (t'.buckets 0).findSlot dramLayout key (dramLayout.keyHash key) 16 0 =
        (t.buckets 0).findSlot dramLayout key (dramLayout.keyHash key) 16 0 := by
  have moved : movedBehind opsAroundGc = .ok (8, true) := by decide +kernel
  obtain ⟨⟨t, results⟩, ran, moved⟩ := bind_eq_ok.mp moved
  obtain ⟨⟨t', n⟩, rehashed, moved⟩ := bind_eq_ok.mp moved
  obtain ⟨rfl, meets⟩ := Prod.mk.inj (Except.ok.inj moved)
  obtain ⟨inside, calm, near⟩ := of_decide_eq_true meets
  obtain ⟨represents, next⟩ :=
    minorRehash_keeps_lookups_iff construct_dram4x16 (by decide) ran (by decide +kernel)
  obtain ⟨same, keeps⟩ := next 0 inside false t' 8 rehashed
  exact ⟨t, results, t', ran, rehashed, represents (by decide), (keeps near).1,
    same.mpr ⟨calm, near⟩⟩

/-- 96 keys of the first bucket: twelve with the home 15, then six each with the
homes 0 to 13. -/
def crowd : List UInt64 :=
  [47, 94, 141, 188, 235, 295, 342, 488, 535, 595, 642, 689,
    99, 146, 193, 240, 300, 347, 52, 198, 245, 292, 352, 399,
    57, 104, 151, 297, 404, 451, 2, 49, 109, 156, 203, 250,
    54, 161, 208, 255, 302, 349, 7, 114, 260, 307, 354, 414,
    12, 59, 106, 119, 166, 213, 17, 64, 111, 171, 218, 265,
    69, 116, 176, 223, 270, 317, 22, 168, 275, 322, 369, 416,
    27, 74, 121, 181, 228, 374, 32, 79, 126, 173, 233, 280,
    84, 131, 178, 238, 285, 332, 37, 183, 230, 290, 337, 384]

/-- The lookups of `key` before and after the rehash of bucket 0 behind a run. -/
def lookupsAroundRehash (ops : List (Op UInt64 UInt64)) (isgc : Bool) (key : UInt64) :
    Except Halt (Option (HashSlot UInt64 UInt64) × Option (HashSlot UInt64 UInt64)) := do
  let (t, _) ← run dram 16 dram4x16 ops
  let (t', _) ← t.minorRehash dram 0 isgc
  let before ← (t.buckets 0).findSlot dramLayout key (dramLayout.keyHash key) 16 0
  let after ← (t'.buckets 0).findSlot dramLayout key (dramLayout.keyHash key) 16 0
  return (before, after)

theorem lookupsAroundRehash_cases {ops : List (Op UInt64 UInt64)} {isgc : Bool} {key : UInt64}
    {before after : Option (HashSlot UInt64 UInt64)}
    (looked : lookupsAroundRehash ops isgc key = .ok (before, after)) :
    ∃ t results t' n, run dram 16 dram4x16 ops = .ok (t, results) ∧
      t.minorRehash dram 0 isgc = .ok (t', n) ∧
      (t.buckets 0).findSlot dramLayout key (dramLayout.keyHash key) 16 0 = .ok before ∧
      (t'.buckets 0).findSlot dramLayout key (dramLayout.keyHash key) 16 0 = .ok after := by
  obtain ⟨⟨t, results⟩, ran, looked⟩ := bind_eq_ok.mp looked
  obtain ⟨⟨t', n⟩, rehashed, looked⟩ := bind_eq_ok.mp looked
  obtain ⟨found, foundBefore, looked⟩ := bind_eq_ok.mp looked
  obtain ⟨found', foundAfter, looked⟩ := bind_eq_ok.mp looked
  cases looked
  exact ⟨t, results, t', n, ran, rehashed, foundBefore, foundAfter⟩

/-- After these 96 puts a gc rehash of the bucket places key 47, which was found at
its home before, 15 cells from it, and loses it. -/
theorem minorRehash_loses_key :
    ∃ t results t' n,
      run dram 16 dram4x16 (crowd.map fun key => .map (.put key key)) = .ok (t, results) ∧
      t.minorRehash dram 0 true = .ok (t', n) ∧
      (t.buckets 0).findSlot dramLayout 47 (dramLayout.keyHash 47) 16 0 = .ok (some ⟨47, 47⟩) ∧
      (t'.buckets 0).findSlot dramLayout 47 (dramLayout.keyHash 47) 16 0 = .ok none :=
  lookupsAroundRehash_cases (by decide +kernel)

end Instances

end TurboHash
