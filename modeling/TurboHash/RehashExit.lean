import TurboHash.RehashRefinement

/-!
# How a `Put` ends

Below the limit on the cells of a bucket a rehash either moves every live entry or
takes the `exit (1)` of `findNextSlotInRehash`, and the homes of the entries say
which. A `Put` rehashes at most until the limit is reached, so that it returns,
or ends at the limit or at that exit.
-/

namespace TurboHash

open LinearProbe Simulation

variable {F : CellFormat} {K V H E : Type} {P : TableParams F K V H E} {t : Table F H E}

/-- No entry of the bucket meets `MAX_PROBE_LEN + 1` saturated cells in a rehash to
`2 ^ shift` cells. -/
def Bucket.Placeable (L : SlotLayout K V H E) (b : Bucket F H E) (shift : Nat) : Prop :=
  Fits F.fullCount (2 ^ shift) rehashSpan [] (b.homes L shift)

namespace Table

/-- How `MinorRehash` ends below the limit. -/
def RehashEnds (P : TableParams F K V H E) (t : Table F H E) (bi : Nat) (isgc : Bool) : Prop :=
  let shift := t.newShift bi isgc
  ((t.buckets bi).Placeable P.layout shift ∧ ∃ t' n placed, t.minorRehash P bi isgc = .ok (t', n) ∧
      Rehashed P.layout bi shift (t.buckets bi) (t'.buckets bi) placed) ∨
    (¬ (t.buckets bi).Placeable P.layout shift ∧
      t.minorRehash P bi isgc = .error (.exit .noSlotInProbe))

/-- `Put` has returned, or has ended at "Cannot rehash" or at the exit of
`findNextSlotInRehash`. -/
def PutEnds {α : Type} : Except Halt α → Prop
  | .ok _ => True
  | .error halt => halt = .exit .cannotRehash ∨ halt = .exit .noSlotInProbe

theorem rehashEnds_of_le {bi : Nat} {isgc : Bool}
    (below : 2 ^ t.newShift bi isgc ≤ P.kCellCountLimit) : t.RehashEnds P bi isgc := by
  obtain ⟨capacity, eq⟩ := minorRehash_of_le (P := P) below
  rcases (t.buckets bi).rehash_ok_or_exit P.layout bi (t.newShift bi isgc)
      (P.uninit bi (t.newShift bi isgc)) with ⟨fits, new, placed, built, rehashed⟩ | ⟨unfit, stops⟩
  · refine Or.inl ⟨fits, { t.setBucket bi new with capacity }, _, placed, by rw [eq, built]; rfl, ?_⟩
    change Rehashed _ _ _ _ (Function.update t.buckets bi new bi) _
    rwa [Function.update_self]
  · exact Or.inr ⟨unfit, by rw [eq, stops]; rfl⟩

variable [DecidableEq H] {fuel : Nat}

omit [DecidableEq H] in
/-- A rehash leaves no counter at its maximum if there was none. -/
theorem Calm.minorRehash {t' : Table F H E} {bi n : Nat} {isgc : Bool} (calm : t.Calm)
    (ok : t.minorRehash P bi isgc = .ok (t', n)) : t'.Calm := by
  obtain ⟨-, new, built, sameCount, buckets⟩ := minorRehash_cases ok
  intro i inside
  rw [buckets, Function.update_apply]
  split
  case isTrue => exact Bucket.rehash_calm built
  case isFalse =>
    refine calm i ?_
    rwa [bucketCount, ← sameCount]

/-- A `Put` ends after at most as many rounds as the bucket can still be doubled. -/
theorem putEnds_of_calm {key : K} {value : V} (enough : maxProbeLen < fuel) (calm : t.Calm)
    (small : (t.buckets (t.bucketOf P.layout key)).cellCountShift ≤ 30) {rounds : Nat}
    (some : 0 < rounds)
    (rest : 16 ≤ (t.buckets (t.bucketOf P.layout key)).cellCountShift + rounds) :
    PutEnds (t.insertSlot P fuel key value (P.layout.keyToHash key) rounds) := by
  induction rounds generalizing t with
  | zero => omega
  | succ rounds ih =>
    obtain ⟨res, search⟩ : ∃ res, t.searchForInsert P fuel key = .ok res :=
      Bucket.findSlotForInsert_returns (calm _ (t.bucketOf_lt _ key)) enough
    cases found : res.find with
    | true =>
      obtain ⟨retired, eq⟩ := insertSlot_of_found search found value rounds
      rw [eq]
      trivial
    | false =>
      rw [insertSlot_of_noRoom search found, Bucket.findSlotForInsert_bucket search]
      have doubled : t.newShift (t.bucketOf P.layout key) false =
          (t.buckets (t.bucketOf P.layout key)).cellCountShift + 1 := rfl
      by_cases below : 2 ^ t.newShift (t.bucketOf P.layout key) false ≤ P.kCellCountLimit
      · rcases rehashEnds_of_le below with ⟨-, t', n, placed, ok, rehashed⟩ | ⟨-, stops⟩
        · have limit : 2 ^ t.newShift (t.bucketOf P.layout key) false ≤ 2 ^ 15 :=
            below.trans P.limit_le
          have within := (Nat.pow_le_pow_iff_right one_lt_two).mp limit
          obtain ⟨-, -, -, sameCount, -⟩ := minorRehash_cases ok
          have home : t'.bucketOf P.layout key = t.bucketOf P.layout key := by
            rw [bucketOf, bucketOf, bucketIndex, bucketIndex, bucketCount, bucketCount, sameCount]
          have grown : (t'.buckets (t'.bucketOf P.layout key)).cellCountShift =
              t.newShift (t.bucketOf P.layout key) false := by
            rw [home]
            exact rehashed.shift_eq
          rw [ok]
          change PutEnds (t'.insertSlot P fuel key value (P.layout.keyToHash key) rounds)
          exact ih (calm.minorRehash ok) (by omega) (by omega) (by omega)
        · rw [stops]
          exact Or.inr rfl
      · rw [minorRehash_of_lt (by omega) (Nat.not_le.mp below)]
        exact Or.inl rfl

end Table

section Result

variable [DecidableEq H]

/-- In every state, a rehash below the limit moves every live entry into a slot of
its own or exits, the latter exactly when an entry meets `MAX_PROBE_LEN + 1`
saturated cells; and where no counter is at its maximum, a `Put` ends within 17
rounds: it returns, or stops at the limit or at that exit. -/
theorem rehash_and_put_end (P : TableParams F K V H E) (t : Table F H E) {fuel : Nat}
    (enough : maxProbeLen < fuel) :
    (∀ bi isgc, 2 ^ t.newShift bi isgc ≤ P.kCellCountLimit → t.RehashEnds P bi isgc) ∧
      ∀ key value, t.Calm → (t.buckets (t.bucketOf P.layout key)).cellCountShift ≤ 30 →
        ∀ rounds, 17 ≤ rounds →
          Table.PutEnds (t.insertSlot P fuel key value (P.layout.keyToHash key) rounds) :=
  ⟨fun _ _ below => Table.rehashEnds_of_le below,
    fun _ _ calm small _ rounds => Table.putEnds_of_calm enough calm small (by omega) (by omega)⟩

/-- Four buckets of 32 cells. -/
def dram4x32 : Table cellMeta128 UInt64 UInt64 where
  bucketCountShift := 2
  buckets i := ⟨5, Table.zeroedCells dram i 5⟩
  capacity := 768

/-- Whether a `Put` of `key` behind `ops` finds room, the entries that the doubling of
bucket 0 moves, and whether the table meets the conditions of the result. -/
def doublingAfter (ops : List (Op UInt64 UInt64)) (key : UInt64) :
    Except Halt (Bool × Nat × Bool) := do
  let (t, _) ← run dram 16 dram4x16 ops
  let res ← t.searchForInsert dram 16 key
  let (_, n) ← t.minorRehash dram 0 false
  return (res.find, n, decide (t.Calm ∧ 2 ^ t.newShift 0 false ≤ kTurboCellCountLimit ∧
    (t.buckets (t.bucketOf dramLayout key)).cellCountShift ≤ 30))

/-- The result behind 96 puts, which fill bucket 0: the `Put` of another key of the
bucket finds no room, and the doubling moves all 96 entries. -/
theorem rehash_and_put_end_of_full :
    ∃ t results res t', run dram 16 dram4x16 (crowd.map fun key => .map (.put key key)) =
        .ok (t, results) ∧
      t.searchForInsert dram 16 736 = .ok res ∧ res.find = false ∧
      t.minorRehash dram 0 false = .ok (t', 96) ∧ t.RehashEnds dram 0 false ∧
      Table.PutEnds (t.insertSlot dram 16 736 736 (dramLayout.keyToHash 736) 17) := by
  have doubled : doublingAfter (crowd.map fun key => .map (.put key key)) 736 =
      .ok (false, 96, true) := by decide +kernel
  obtain ⟨⟨t, results⟩, ran, doubled⟩ := bind_eq_ok.mp doubled
  obtain ⟨res, search, doubled⟩ := bind_eq_ok.mp doubled
  obtain ⟨⟨t', n⟩, rehashed, doubled⟩ := bind_eq_ok.mp doubled
  obtain ⟨noRoom, moved⟩ := Prod.mk.inj (Except.ok.inj doubled)
  obtain ⟨rfl, meets⟩ := Prod.mk.inj moved
  obtain ⟨calm, below, small⟩ := of_decide_eq_true meets
  obtain ⟨rehashEnds, putEnds⟩ := rehash_and_put_end dram t (show maxProbeLen < 16 by decide)
  exact ⟨t, results, res, t', ran, search, noRoom, rehashed, rehashEnds 0 false below,
    putEnds 736 736 calm small 17 le_rfl⟩

/-- 102 keys of the first bucket: twelve with the home 31, then six each with the
homes 32 to 46, of 64. -/
def ringCrowd : List UInt64 :=
  [94, 736, 843, 1083, 1190, 1832, 2179, 2286, 2474, 2928, 3275, 3382,
    146, 441, 788, 895, 1242, 1537, 198, 493, 600, 840, 947, 1589,
    545, 652, 999, 1294, 1641, 1748, 250, 357, 597, 704, 1051, 1346,
    302, 409, 756, 1398, 1505, 1745, 7, 114, 354, 461, 808, 1103,
    59, 166, 513, 967, 1155, 1262, 111, 218, 565, 860, 1207, 1314,
    270, 617, 724, 912, 1019, 1259, 322, 964, 1071, 1418, 2060, 2167,
    27, 374, 481, 669, 776, 1016, 79, 533, 721, 828, 1175, 1817,
    131, 238, 426, 773, 880, 1227, 183, 290, 478, 585, 932, 1386,
    530, 637, 984, 1279, 1626, 1733]

/-- Behind a run on `dram4x32` that leaves 32 cells to the first bucket, the `Put`
of `key` ends at the exit of `findNextSlotInRehash`. -/
def exitsAfter (ops : List (Op UInt64 UInt64)) (key : UInt64) : Bool :=
  match run dram 16 dram4x32 ops with
  | .ok (t, _) =>
    (t.buckets 0).cellCountShift == 5 &&
      match t.insertSlot dram 16 key key (dramLayout.keyToHash key) 17 with
      | .error halt => halt == .exit .noSlotInProbe
      | .ok _ => false
  | .error _ => false

theorem exitsAfter_cases {ops : List (Op UInt64 UInt64)} {key : UInt64}
    (exits : exitsAfter ops key = true) :
    ∃ t results, run dram 16 dram4x32 ops = .ok (t, results) ∧
      (t.buckets 0).cellCountShift = 5 ∧
      t.insertSlot dram 16 key key (dramLayout.keyToHash key) 17 =
        .error (.exit .noSlotInProbe) := by
  rw [exitsAfter] at exits
  split at exits
  case h_2 => cases exits
  case h_1 t results ran =>
    obtain ⟨shift, ends⟩ := Bool.and_eq_true_iff.mp exits
    split at ends
    case h_2 => cases ends
    case h_1 halt put =>
      exact ⟨t, results, ran, beq_iff_eq.mp shift, beq_iff_eq.mp ends ▸ put⟩

/-- After these 102 puts the `Put` of one more key with the home 31 doubles the
bucket of 32 cells and exits. -/
theorem put_exits_in_rehash :
    ∃ t results, run dram 16 dram4x32 (ringCrowd.map fun key => .map (.put key key)) =
        .ok (t, results) ∧
      (t.buckets 0).cellCountShift = 5 ∧
      t.insertSlot dram 16 3570 3570 (dramLayout.keyToHash 3570) 17 =
        .error (.exit .noSlotInProbe) :=
  exitsAfter_cases (by decide +kernel)

end Result

end TurboHash
