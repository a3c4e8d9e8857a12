import TurboHash.SearchReturns

/-!
# The user's hash and equality

`unordered_map` takes a `Hash` and a `KeyEqual`. With flat keys the table uses the hash
for the bucket and the tag of a key, but probes from the hash of the key itself, and
compares keys with `==` instead of `KeyEqual`. So it honours the two functions if and
only if `KeyEqual` is `==`, and `Hash` leads to the cells of the key's own hash
(`honoured_iff`).
-/

namespace TurboHash

open Simulation

/-- The functions of a table with flat keys. -/
structure UserHash (K : Type) where
  /-- `Hash` -/
  hash : K → UInt64
  /-- `Hash` is `turbo::hash<Key>` -/
  isDefault : Bool
  /-- `KeyEqual` -/
  keyEqual : K → K → Bool
  /-- the conversion of a key to `size_t` -/
  toSizeT : K → UInt64

namespace UserHash

variable {F : CellFormat} {K V E : Type}

section Definitions

variable (u : UserHash K)

/-- `KeyToHash`. -/
def keyToHash (key : K) : UInt64 := if u.isDefault then u.hash key else hashInt (u.hash key)

/-- `H1ToHash` of a flat key. -/
def h1ToHash (h1 : K) : UInt64 := hashInt (u.toSizeT h1)

/-- The layout is one of a table with flat keys and these functions. -/
structure Lays (L : SlotLayout K V K E) : Prop where
  keyToHash : L.keyToHash = u.keyToHash
  h1Convert : L.h1Convert = fun key _ => key
  h1ToHash : L.h1ToHash = u.h1ToHash

/-- What the user promises. -/
structure Lawful : Prop where
  equivalence : Equivalence fun a b => u.keyEqual a b = true
  hash_eq : ∀ a b, u.keyEqual a b = true → u.hash a = u.hash b

/-- What an operation does to a map modulo `KeyEqual`. -/
def mapNext (m : K → Option V) : MapOp K V → K → Option V
  | .put key value => fun b => if u.keyEqual key b then some value else m b
  | .find _ => m
  | .delete key => fun b => if u.keyEqual key b then none else m b

/-- A probe over `2 ^ shift` cells starts at the cell of the table hash. -/
def HomeAt (L : SlotLayout K V K E) (shift : Nat) : Prop :=
  ∀ key, (L.homeHash key).toNat &&& (2 ^ shift - 1) = (L.keyToHash key).toNat &&& (2 ^ shift - 1)

variable [DecidableEq K]

/-- The table `t` answers as the map `m`, and probes from the cells that `KeyToHash` names. -/
structure HonoursIn (P : TableParams F K V K E) (fuel : Nat) (t : Table F K E)
    (m : K → Option V) : Prop where
  finds : t.Calm → ∀ key, ∃ slot, t.findSlot P fuel key (P.layout.keyToHash key) = .ok slot ∧
    (slot.bind P.layout.decode).map Prod.snd = m key
  lookup : ∀ i, HomeAt P.layout (t.buckets i).cellCountShift
  rehash : ∀ i isgc, 2 ^ t.newShift i isgc ≤ P.kCellCountLimit →
    HomeAt P.layout (t.newShift i isgc)

/-- The table honours the functions after every run of `Put`, `Find` and `Delete` whose rehashes
put the entries on their probe paths, if buckets take less than 4 GiB. -/
def Honoured (P : TableParams F K V K E) (fuel : Nat) : Prop :=
  ∀ bucketCount cellCount t₀, Table.construct P bucketCount cellCount = some t₀ →
    cellCount.toNat * F.cellSize < 2 ^ 32 → ∀ (ops : List (MapOp K V)) t results,
      Guarded (Op.exec P fuel) (Op.Meets P fuel (Table.NearRehash P)) t₀ (ops.map Op.map) →
      run P fuel t₀ (ops.map Op.map) = .ok (t, results) →
        HonoursIn P fuel t (ops.foldl u.mapNext fun _ => none)

/-- The bits of a hash that select a cell in a bucket of less than 4 GiB. -/
def homeBits (F : CellFormat) : Nat := 31 - F.cellSizeLeftShift

end Definitions

/-! ## The layouts -/

section Layouts

variable [Inhabited K] (u : UserHash K)

theorem lays_flatLayout [Inhabited V] :
    u.Lays (flatLayout u.keyToHash u.toSizeT : SlotLayout K V K V) := ⟨rfl, rfl, rfl⟩

theorem lays_flatKeyLayout :
    u.Lays (flatKeyLayout u.keyToHash u.toSizeT : SlotLayout K V K (Option (K × V))) :=
  ⟨rfl, rfl, rfl⟩

end Layouts

variable {u : UserHash K} {L : SlotLayout K V K E}

theorem Lays.homeHash (lays : u.Lays L) (key : K) : L.homeHash key = u.h1ToHash key := by
  rw [SlotLayout.homeHash, lays.h1ToHash, SlotLayout.keyHash, SlotLayout.partialHash,
    lays.h1Convert]

/-- A home is the lower bits of a hash. -/
theorem homeAt_iff (lays : u.Lays L) {shift : Nat} : HomeAt L shift ↔
    ∀ key, (u.h1ToHash key).toNat % 2 ^ shift = (u.keyToHash key).toNat % 2 ^ shift := by
  simp only [HomeAt, Nat.and_two_pow_sub_one_eq_mod, lays.homeHash, lays.keyToHash]

/-- Hashes that agree in the bits of a large bucket agree in those of a small one. -/
theorem HomeAt.mono {shift shift' : Nat} (le : shift ≤ shift') (home : HomeAt L shift') :
    HomeAt L shift := by
  intro key
  have whole := congrArg (· % 2 ^ shift) (home key)
  have divides : 2 ^ shift ∣ 2 ^ shift' := Nat.pow_dvd_pow 2 le
  simpa only [Nat.and_two_pow_sub_one_eq_mod, Nat.mod_mod_of_dvd _ divides] using whole

/-- An equality that compares images, and a hash of the image. -/
theorem Lawful.of_image {β : Type} {image : K → β}
    (same : ∀ a b, u.keyEqual a b = true ↔ image a = image b)
    (hash : ∀ a b, image a = image b → u.hash a = u.hash b) : u.Lawful where
  equivalence := by
    simp only [same]
    exact ⟨fun _ => rfl, Eq.symm, Eq.trans⟩
  hash_eq a b equal := hash a b ((same a b).mp equal)

/-! ## The cell counts of a run -/

section Shifts

variable [DecidableEq K] {P : TableParams F K V K E} {fuel : Nat} {t : Table F K E}

omit [DecidableEq K] in
theorem newShift_le {i : Nat} {isgc : Bool} (below : 2 ^ t.newShift i isgc ≤ P.kCellCountLimit) :
    t.newShift i isgc ≤ homeBits F := by
  have limit : 2 ^ t.newShift i isgc ≤ 2 ^ 15 := below.trans P.limit_le
  have exponent := (Nat.pow_le_pow_iff_right one_lt_two).mp limit
  have size := F.cellSizeLeftShift_le
  rw [homeBits]
  omega

/-- Buckets stay within the cells that fit into 4 GiB. -/
theorem homeBits_kept (good : Table F K E → Nat → Bool → Prop) :
    Kept P fuel good fun _ t => ∀ i, (t.buckets i).cellCountShift ≤ homeBits F where
  rehash m t bi isgc t' n small inside _ ok i := by
    obtain ⟨below, new, built, -, buckets⟩ := Table.minorRehash_cases ok
    obtain ⟨placed, rehashed, -⟩ := Bucket.rehash_disp_lt_iff (k := 0) built
    rw [buckets, Function.update_apply]
    split
    case isTrue eq =>
      rw [rehashed.shift_eq]
      exact newShift_le below
    case isFalse => exact small i
  put m t key value res small _ _ i := by
    rw [Table.commit_shift]
    exact small i
  delete m t key t' found retired small ok i := by
    rw [Table.deleteSlot_shift ok]
    exact small i

omit [DecidableEq K] in
theorem homeBits_construct {bucketCount cellCount : UInt32} {t₀ : Table F K E}
    (fresh : Table.construct P bucketCount cellCount = some t₀)
    (small : cellCount.toNat * F.cellSize < 2 ^ 32) (i : Nat) :
    (t₀.buckets i).cellCountShift ≤ homeBits F := by
  obtain ⟨power, buckets⟩ := Table.construct_cases fresh
  rw [Table.toNat_of_isPowerOfTwo power, CellFormat.cellSize, ← pow_add] at small
  have exponent := (Nat.pow_lt_pow_iff_right one_lt_two).mp small
  rw [buckets, homeBits]
  change ctz cellCount.toBitVec ≤ _
  omega

end Shifts

/-! ## Where the functions are honoured -/

section Honours

variable [DecidableEq K] {P : TableParams F K V K E} {fuel : Nat} {t : Table F K E}

/-- With `==` for `KeyEqual`, a map modulo `KeyEqual` is a map. -/
theorem mapNext_eq (same : ∀ a b, u.keyEqual a b = true ↔ a = b) (ops : List (MapOp K V))
    (m : K → Option V) : (ops.map Op.map).foldl opMap m = ops.foldl u.mapNext m := by
  induction ops generalizing m with
  | nil => rfl
  | cons op ops ih =>
    rw [List.map_cons, List.foldl_cons, List.foldl_cons, ih]
    congr 1
    funext b
    cases op with
    | put key value | delete key =>
      simp only [opMap, mapStep, mapNext, Function.update_apply, same, eq_comm]
    | find key => rfl

/-- The answer of `Find` in a table that holds the map `m`. -/
theorem finds_of_refines {m : K → Option V} (refines : t.Refines P.layout m)
    (enough : maxProbeLen < fuel) (calm : t.Calm) (key : K) :
    ∃ slot, t.findSlot P fuel key (P.layout.keyToHash key) = .ok slot ∧
      (slot.bind P.layout.decode).map Prod.snd = m key := by
  refine ⟨_, refines.findSlot enough calm key, ?_⟩
  cases m key with
  | none => rfl
  | some value => exact congrArg (Option.map Prod.snd) (P.layout.decode_slotOf key value)

theorem honoured_of (lays : u.Lays P.layout) (enough : maxProbeLen < fuel)
    (same : ∀ a b, u.keyEqual a b = true ↔ a = b)
    (home : ∀ key, (u.h1ToHash key).toNat % 2 ^ homeBits F =
      (u.keyToHash key).toNat % 2 ^ homeBits F) : u.Honoured P fuel := by
  intro bucketCount cellCount t₀ fresh small ops t results near ran
  have whole : HomeAt P.layout (homeBits F) := (homeAt_iff lays).mpr home
  have refines := (refines_kept enough).run (Table.Refines.construct fresh small) near ran
  have within := (homeBits_kept _).run (m := fun _ => none) (homeBits_construct fresh small) near ran
  rw [mapNext_eq same] at refines
  exact ⟨finds_of_refines refines enough, fun i => whole.mono (within i),
    fun i isgc below => whole.mono (newShift_le below)⟩

end Honours

/-! ## Where they are not -/

section Fails

variable [DecidableEq K] {P : TableParams F K V K E} {fuel : Nat} {t : Table F K E}

omit [DecidableEq K] in
/-- A zeroed cell has room. -/
theorem not_full_zeroCell : ¬ (Table.zeroCell L : Cell F K E).Full := by
  rw [Table.zeroCell_wf.full_iff]
  have none : popcount (Version.zero : Version F).bitmap = 0 :=
    popcount_eq_zero.mpr fun i => by simp [Version.zero]
  have positive := F.fullCount_pos
  change popcount (Version.zero : Version F).bitmap ≠ _
  omega

/-- The first `Put` of a zeroed table. -/
theorem put_zeroed (zeroed : ∀ i, ∀ c < (t.buckets i).cellCount,
      (t.buckets i).cells c = Table.zeroCell P.layout) (enough : maxProbeLen < fuel)
    (key : K) (value : V) : ∃ t' results,
      run P fuel t [.map (.put key value)] = .ok (t', results) ∧ t'.Calm ∧
      t'.Refines P.layout (Function.update (fun _ => none) key (some value)) ∧
      Guarded (Op.exec P fuel) (Op.Meets P fuel (Table.NearRehash P)) t [.map (.put key value)] := by
  have empty : t.Refines P.layout fun _ => none := .of_zeroed fun i _ c inside => zeroed i c inside
  have calm : t.Calm := fun i _ c inside => by
    rw [zeroed i c inside]
    exact (by decide : (0 : UInt32) ≠ 0xFFFFFFFF)
  have inTable := t.bucketOf_lt P.layout key
  have placed := empty.valid.placed _ inTable
  obtain ⟨res, search⟩ : ∃ res, t.searchForInsert P fuel key = .ok res :=
    Bucket.findSlotForInsert_returns (calm _ inTable) enough
  have answer := Bucket.findSlotForInsert_answer placed.wf enough search
  have found : res.find = true := by
    cases answer with
    | update | insert => rfl
    | noRoom full =>
      have some := (t.buckets (t.bucketOf P.layout key)).cellCount_pos
      obtain ⟨rest, path⟩ := probePath_eq_cons (P.layout.homeHash key) some
      have mem : _ ∈ (t.buckets (t.bucketOf P.layout key)).path P.layout key :=
        path ▸ List.mem_cons_self
      have first := (full _ mem).1
      rw [zeroed _ _ (lt_of_mem_probePath some mem)] at first
      exact absurd first not_full_zeroCell
  obtain ⟨rounds, rfl⟩ := Nat.exists_eq_succ_of_ne_zero (Nat.ne_zero_of_lt enough)
  obtain ⟨retired, ok⟩ := Table.insertSlot_of_found search found value rounds
  rw [← Nat.succ_eq_add_one] at ok
  refine ⟨t.commit P key value res.targetSlot, [.map .put], ?_, ?_,
    empty.commit enough search found value, ⟨?_, fun _ _ _ => trivial⟩⟩
  · refine run_cons_eq_ok.mpr ⟨_, _, [], ?_, rfl, rfl⟩
    rw [Op.exec, mapExec, ok]
    rfl
  · intro i inside c less
    rw [Table.commit, Table.setBucket_buckets]
    split
    case isFalse other =>
      rw [Table.commit, Table.setBucket_buckets, if_neg other] at less
      rw [zeroed i c less]
      exact (by decide : (0 : UInt32) ≠ 0xFFFFFFFF)
    case isTrue here =>
      rw [Table.commit, Table.setBucket_buckets, if_pos here] at less
      rw [Bucket.setCell_cells]
      split
      case isFalse =>
        rw [zeroed _ c less]
        exact (by decide : (0 : UInt32) ≠ 0xFFFFFFFF)
      case isTrue target =>
        rw [insertToSlotAndGC_seqNo, zeroed _ _ (target ▸ less)]
        exact (by decide : (0 + 1 : UInt32) ≠ 0xFFFFFFFF)
  · intro res' search' none
    rw [search] at search'
    cases search'
    rw [found] at none
    cases none

/-- A table that honours its functions has `==` for `KeyEqual`: it does not find the second of two
keys that `KeyEqual` takes for one. -/
theorem Honoured.eq_of_keyEqual [Inhabited V] (honoured : u.Honoured P fuel)
    (enough : maxProbeLen < fuel) {a b : K} (equal : u.keyEqual a b = true) : a = b := by
  obtain ⟨t₀, fresh⟩ : ∃ t₀, Table.construct P 1 1 = some t₀ := ⟨_, if_pos (by decide)⟩
  have size : F.cellSize ≤ 2 ^ 16 := Nat.pow_le_pow_right two_pos F.cellSizeLeftShift_le
  have small : (1 : UInt32).toNat * F.cellSize < 2 ^ 32 := by
    change 1 * F.cellSize < 2 ^ 32
    omega
  obtain ⟨power, buckets⟩ := Table.construct_cases fresh
  have zeroed : ∀ i, ∀ c < (t₀.buckets i).cellCount,
      (t₀.buckets i).cells c = Table.zeroCell P.layout := by
    intro i c inside
    rw [buckets] at inside ⊢
    rw [Table.toNat_of_isPowerOfTwo power] at small
    exact Table.zeroedCells_of_lt small inside
  obtain ⟨t, results, ran, calm, refines, near⟩ := put_zeroed zeroed enough a default
  have honours := honoured 1 1 t₀ fresh small [.put a default] t results near ran
  obtain ⟨slot, found, value⟩ := honours.finds calm b
  obtain ⟨slot', found', value'⟩ := finds_of_refines refines enough calm b
  cases found.symm.trans found'
  have bound : Function.update (fun _ => none) a (some default) b = some (default : V) := by
    rw [← value', value]
    exact if_pos equal
  by_contra different
  rw [Function.update_of_ne (Ne.symm different)] at bound
  cases bound

/-- A table that honours its functions probes from the cells that `KeyToHash` names, also in a
bucket of 2 GiB. -/
theorem Honoured.homeAt (honoured : u.Honoured P fuel) : HomeAt P.layout (homeBits F) := by
  have powers : ∀ k < 32, Table.isPowerOfTwo (UInt32.ofNat (2 ^ k)) = true ∧
      ctz (UInt32.ofNat (2 ^ k)).toBitVec = k := by decide
  obtain ⟨power, shift⟩ := powers (homeBits F) (by rw [homeBits]; omega)
  obtain ⟨t₀, fresh⟩ : ∃ t₀, Table.construct P 1 (UInt32.ofNat (2 ^ homeBits F)) = some t₀ := by
    rw [Table.construct, power]
    exact ⟨_, rfl⟩
  have small : (UInt32.ofNat (2 ^ homeBits F)).toNat * F.cellSize < 2 ^ 32 := by
    have size := F.cellSizeLeftShift_le
    rw [Table.toNat_of_isPowerOfTwo power, shift, CellFormat.cellSize, ← pow_add, homeBits]
    exact Nat.pow_lt_pow_right one_lt_two (by omega)
  have honours := honoured 1 _ t₀ fresh small [] t₀ [] trivial rfl
  have home := honours.lookup 0
  obtain ⟨-, buckets⟩ := Table.construct_cases fresh
  rw [buckets] at home
  exact shift ▸ home

end Fails

/-! ## The result -/

section Result

variable [DecidableEq K] [Inhabited V] {P : TableParams F K V K E} {fuel : Nat}

/-- The table honours `Hash` and `KeyEqual` if and only if `KeyEqual` is `==`, and the table hash
of every key has the lower bits of the hash of the key itself. -/
theorem honoured_iff (lays : u.Lays P.layout) (lawful : u.Lawful) (enough : maxProbeLen < fuel) :
    u.Honoured P fuel ↔ (∀ a b, u.keyEqual a b = true ↔ a = b) ∧
      ∀ key, (hashInt (u.toSizeT key)).toNat % 2 ^ homeBits F =
        (u.keyToHash key).toNat % 2 ^ homeBits F := by
  constructor
  · intro honoured
    refine ⟨fun a b => ⟨honoured.eq_of_keyEqual enough, ?_⟩, (homeAt_iff lays).mp honoured.homeAt⟩
    rintro rfl
    exact lawful.equivalence.refl a
  · rintro ⟨same, home⟩
    exact honoured_of lays enough same home

end Result

section Instances

/-- The default hash and equality of `uint64_t`. -/
def defaultHash : UserHash UInt64 := ⟨hashInt, true, fun a b => a == b, id⟩

theorem lawful_defaultHash : defaultHash.Lawful :=
  .of_image (fun _ _ => beq_iff_eq) fun _ _ => congrArg hashInt

theorem honoured_defaultHash : defaultHash.Honoured dram 17 :=
  (honoured_iff ⟨rfl, rfl, rfl⟩ lawful_defaultHash (by decide)).mpr
    ⟨fun _ _ => beq_iff_eq, fun _ => rfl⟩

/-- Keys that are equal when they are congruent modulo 2. -/
def parity : UserHash UInt64 := ⟨fun key => key % 2, false, fun a b => a % 2 == b % 2, id⟩

/-- A hash of the user with `==` for equality. -/
def successor : UserHash UInt64 := ⟨fun key => key + 1, false, fun a b => a == b, id⟩

/-- The DRAM table of `uint64_t` keys and values with the functions `u`. -/
def dramWith (u : UserHash UInt64) : TableParams cellMeta128 UInt64 UInt64 UInt64 UInt64 where
  layout := flatLayout u.keyToHash u.toSizeT
  kCellCountLimit := kTurboCellCountLimit
  limit_le := le_rfl
  uninit _ _ _ := Table.zeroCell dramLayout

theorem lawful_parity : parity.Lawful :=
  .of_image (fun _ _ => beq_iff_eq) fun _ _ => id

theorem lawful_successor : successor.Lawful :=
  .of_image (fun _ _ => beq_iff_eq) fun _ _ => congrArg (· + 1)

/-- A table with another `KeyEqual` than `==`, and one with a hash of the user. -/
theorem not_honoured : parity.Lawful ∧ ¬ parity.Honoured (dramWith parity) 17 ∧
    successor.Lawful ∧ ¬ successor.Honoured (dramWith successor) 17 := by
  refine ⟨lawful_parity, fun honoured => ?_, lawful_successor, fun honoured => ?_⟩
  · have equal : parity.keyEqual 2 4 = true := by decide
    exact absurd (honoured.eq_of_keyEqual (by decide) equal) (by decide)
  · exact absurd (honoured.homeAt 0) (by decide)

end Instances

end UserHash

end TurboHash
