import Mathlib.Data.Finset.Card
import Mathlib.Data.List.Sort
import Mathlib.Tactic

/-!
# `util::BitSet` and the bit operations of a cell's version word

`BitSet` iterates the set bits of a 32-bit word from the lowest one up: `*bits`
counts the trailing zeros and `++bits` clears the lowest set bit. `toList` is the
loop `for (int i : bitset)`: it visits exactly the set bits (`mem_toList`), each
once and in increasing order (`pairwise_toList`).

`popcount` is stated for words of any width, because the bitmap of a cell has
8 or 16 bits, depending on the cell format.
-/

namespace TurboHash

/-- `__builtin_popcount`. -/
def popcount {w : Nat} (x : BitVec w) : Nat :=
  (List.range w).countP x.getLsbD

/-- `__builtin_ctz`: the position of the lowest set bit (undefined, here `w`,
on zero). -/
def ctz {w : Nat} (x : BitVec w) : Nat :=
  (List.range w).findIdx x.getLsbD

/-- The bit mask of the positions below `n` that satisfy `p`, as `movemask`
collects it from a byte-wise comparison. -/
def movemask {w : Nat} (p : Nat → Bool) : Nat → BitVec w
  | 0 => 0
  | n + 1 => if p n then movemask p n ||| BitVec.twoPow w n else movemask p n

theorem getLsbD_movemask {w : Nat} (p : Nat → Bool) (n i : Nat) :
    (movemask p n : BitVec w).getLsbD i = (p i && decide (i < n) && decide (i < w)) := by
  induction n with
  | zero => simp [movemask]
  | succ n ih =>
    rw [movemask]
    by_cases eq : n = i
    · subst eq
      cases hit : p n <;> simp [ih, hit]
    · have bound : i < n + 1 ↔ i < n := by omega
      cases hit : p n <;> simp [ih, eq, bound]

section Popcount

variable {w : Nat} {x y : BitVec w} {i j : Nat}

theorem popcount_eq_card (x : BitVec w) :
    popcount x = ((Finset.range w).filter fun i => x.getLsbD i = true).card := by
  rw [popcount, List.countP_eq_length_filter, ← List.toFinset_card_of_nodup
    (List.nodup_range.filter _)]
  congr 1
  ext i
  simp

theorem popcount_mono (sub : ∀ i, x.getLsbD i = true → y.getLsbD i = true) :
    popcount x ≤ popcount y := by
  rw [popcount_eq_card, popcount_eq_card]
  exact Finset.card_le_card fun i => by
    simp only [Finset.mem_filter]
    exact fun h => ⟨h.1, sub i h.2⟩

/-- Setting a clear bit adds one to the population count. -/
theorem popcount_or_twoPow (hi : i < w) (clear : x.getLsbD i = false) :
    popcount (x ||| BitVec.twoPow w i) = popcount x + 1 := by
  rw [popcount_eq_card, popcount_eq_card]
  have split : ((Finset.range w).filter fun j => (x ||| BitVec.twoPow w i).getLsbD j = true) =
      insert i ((Finset.range w).filter fun j => x.getLsbD j = true) := by
    ext j
    simp only [Finset.mem_filter, Finset.mem_range, BitVec.getLsbD_or, BitVec.getLsbD_twoPow,
      Finset.mem_insert, Bool.or_eq_true, Bool.and_eq_true, decide_eq_true_eq]
    constructor
    · rintro ⟨hj, set | ⟨-, rfl⟩⟩
      · exact Or.inr ⟨hj, set⟩
      · exact Or.inl rfl
    · rintro (rfl | ⟨hj, set⟩)
      · exact ⟨hi, Or.inr ⟨hi, rfl⟩⟩
      · exact ⟨hj, Or.inl set⟩
  rw [split, Finset.card_insert_of_notMem]
  simp [clear]

/-- Toggling a set bit takes one off the population count. -/
theorem popcount_xor_twoPow (hi : i < w) (set : x.getLsbD i = true) :
    popcount (x ^^^ BitVec.twoPow w i) + 1 = popcount x := by
  have clear : (x ^^^ BitVec.twoPow w i).getLsbD i = false := by simp [set, hi]
  rw [← popcount_or_twoPow hi clear]
  congr 1
  ext j hj
  simp only [BitVec.getElem_or, BitVec.getElem_xor, BitVec.getElem_twoPow]
  by_cases eq : j = i
  · subst eq
    rw [← BitVec.getLsbD_eq_getElem, set]
    simp
  · simp [eq]

/-- A word with fewer set bits than another misses one of the other's bits. -/
theorem exists_clear_of_popcount_lt (less : popcount x < popcount y) :
    ∃ i < w, x.getLsbD i = false ∧ y.getLsbD i = true := by
  by_contra none
  push Not at none
  have sub : popcount y ≤ popcount x := by
    refine popcount_mono fun i set => ?_
    have hi : i < w := BitVec.lt_of_getLsbD set
    by_contra clear
    exact none i hi (by simpa using clear) set
  omega

theorem popcount_eq_zero : popcount x = 0 ↔ ∀ i, x.getLsbD i = false := by
  rw [popcount, List.countP_eq_zero]
  constructor
  · intro clear i
    by_cases hi : i < w
    · simpa using clear i (List.mem_range.mpr hi)
    · exact BitVec.getLsbD_of_ge x i (by omega)
  · intro clear i _
    simp [clear i]

end Popcount

section CountTrailingZeros

variable {w : Nat} {x : BitVec w} {i : Nat}

/-- The lowest set bit is set, and every bit below it is clear. -/
theorem getLsbD_ctz (set : x.getLsbD i = true) : x.getLsbD (ctz x) = true := by
  have hi : i < w := BitVec.lt_of_getLsbD set
  have inside : ctz x < (List.range w).length :=
    List.findIdx_lt_length_of_exists ⟨i, List.mem_range.mpr hi, set⟩
  have found : x.getLsbD ((List.range w)[ctz x]) = true := List.findIdx_getElem (w := inside)
  simpa using found

theorem getLsbD_of_lt_ctz (less : i < ctz x) : x.getLsbD i = false := by
  have bound : ctz x ≤ (List.range w).length := List.findIdx_le_length
  have inside : i < (List.range w).length := by omega
  have notFound : ¬ x.getLsbD ((List.range w)[i]) = true := by
    simpa using List.not_of_lt_findIdx less
  simpa using notFound

theorem ctz_le (set : x.getLsbD i = true) : ctz x ≤ i := by
  by_contra less
  rw [getLsbD_of_lt_ctz (by omega)] at set
  cases set

/-- A word with one set bit is a power of two. -/
theorem toNat_of_popcount_eq_one (one : popcount x = 1) : x.toNat = 2 ^ ctz x := by
  obtain ⟨i, set⟩ : ∃ i, x.getLsbD i = true := by
    by_contra none
    push Not at none
    have := popcount_eq_zero.mpr fun i => by simpa using none i
    omega
  have lowest := getLsbD_ctz set
  have inside : ctz x < w := BitVec.lt_of_getLsbD lowest
  have rest := popcount_xor_twoPow inside lowest
  have empty := popcount_eq_zero.mp (show popcount (x ^^^ BitVec.twoPow w (ctz x)) = 0 by omega)
  have eq : x = BitVec.twoPow w (ctz x) := by
    refine BitVec.eq_of_getLsbD_eq fun j hj => ?_
    have := empty j
    rw [BitVec.getLsbD_xor] at this
    simpa using this
  have value := congrArg BitVec.toNat eq
  rwa [BitVec.toNat_twoPow, Nat.mod_eq_of_lt (Nat.pow_lt_pow_right one_lt_two inside)] at value

end CountTrailingZeros

/-- Clearing the lowest set bit: `n & (n - 1)` keeps every bit but one, and
that one is the lowest set bit of `n`. -/
theorem testBit_and_pred {n : Nat} (positive : 0 < n) :
    ∃ c, n.testBit c = true ∧ (∀ j < c, n.testBit j = false) ∧
      ∀ i, (n &&& (n - 1)).testBit i = (n.testBit i && decide (i ≠ c)) := by
  induction n using Nat.strongRecOn with
  | _ n ih =>
    rcases Nat.even_or_odd' n with ⟨m, rfl | rfl⟩
    · obtain ⟨c, set, below, clears⟩ := ih m (by omega) (by omega)
      have half : (2 * m - 1) / 2 = m - 1 := by omega
      refine ⟨c + 1, ?_, ?_, ?_⟩
      · simpa [Nat.testBit_succ] using set
      · intro j hj
        cases j with
        | zero => simp
        | succ j => simpa [Nat.testBit_succ] using below j (by omega)
      · intro i
        cases i with
        | zero => simp
        | succ i =>
          have tail := clears i
          rw [Nat.testBit_and] at tail ⊢
          simpa [Nat.testBit_succ, half] using tail
    · refine ⟨0, by simp, by simp, ?_⟩
      intro i
      cases i with
      | zero => simp
      | succ i =>
        have half : (2 * m + 1) / 2 = m := by omega
        have halfPred : (2 * m + 1 - 1) / 2 = m := by omega
        rw [Nat.testBit_and, Nat.testBit_succ, Nat.testBit_succ, half, halfPred]
        simp

/-- `util::BitSet`. -/
structure BitSet where
  bits : BitVec 32
deriving DecidableEq

namespace BitSet

/-- `validCount`. -/
def validCount (s : BitSet) : Nat := popcount s.bits

/-- `operator*`: count the trailing zero bits. -/
def deref (s : BitSet) : Nat := ctz s.bits

/-- `operator++`: remove the lowest 1-bit. -/
def next (s : BitSet) : BitSet := ⟨s.bits &&& (s.bits - 1)⟩

/-- `operator bool`. -/
def toBool (s : BitSet) : Bool := s.bits != 0

/-- The range loop `for (int i : bitset)`; a 32-bit word has at most 32 set
bits, so 32 rounds see the end. -/
def toList (s : BitSet) : List Nat := go 32 s
where
  go : Nat → BitSet → List Nat
    | 0, _ => []
    | rounds + 1, s => if s.toBool then s.deref :: go rounds s.next else []

@[simp] theorem toBool_eq_true {s : BitSet} :
    s.toBool = true ↔ ∃ i, s.bits.getLsbD i = true := by
  rw [toBool, bne_iff_ne]
  constructor
  · intro nonzero
    by_contra none
    push Not at none
    exact nonzero (BitVec.eq_of_getLsbD_eq fun i _ => by simpa using none i)
  · rintro ⟨i, set⟩ zero
    simp [zero] at set

@[simp] theorem toBool_eq_false {s : BitSet} :
    s.toBool = false ↔ ∀ i, s.bits.getLsbD i = false := by
  rw [← Bool.not_eq_true, toBool_eq_true]
  push Not
  simp

theorem getLsbD_next {s : BitSet} (nonzero : s.toBool = true) (i : Nat) :
    s.next.bits.getLsbD i = (s.bits.getLsbD i && decide (i ≠ s.deref)) := by
  obtain ⟨k, set⟩ := toBool_eq_true.mp nonzero
  have positive : 0 < s.bits.toNat := by
    by_contra zero
    have : s.bits = 0 := BitVec.eq_of_toNat_eq (by simp; omega)
    simp [this] at set
  obtain ⟨c, cSet, below, clears⟩ := testBit_and_pred positive
  have lowest : s.deref = c := by
    have le : s.deref ≤ c := ctz_le (i := c) cSet
    have ge : c ≤ s.deref := by
      by_contra less
      have clear := below s.deref (by omega)
      have found : s.bits.getLsbD s.deref = true := getLsbD_ctz set
      rw [BitVec.getLsbD, clear] at found
      cases found
    omega
  have pred : (s.bits - 1).toNat = s.bits.toNat - 1 := by
    have bound := s.bits.isLt
    rw [BitVec.toNat_sub]
    simp
    omega
  rw [lowest, ← BitVec.testBit_toNat, ← BitVec.testBit_toNat]
  change (s.bits &&& (s.bits - 1)).toNat.testBit i = _
  rw [BitVec.toNat_and, pred]
  exact clears i

theorem getLsbD_of_mem_go {rounds : Nat} {s : BitSet} {i : Nat}
    (visited : i ∈ toList.go rounds s) : s.bits.getLsbD i = true := by
  induction rounds generalizing s with
  | zero => cases visited
  | succ rounds ih =>
    rw [toList.go] at visited
    split at visited
    case isFalse => cases visited
    case isTrue nonzero =>
      obtain ⟨k, set⟩ := toBool_eq_true.mp nonzero
      rcases List.mem_cons.mp visited with rfl | later
      · exact getLsbD_ctz set
      · have still := ih later
        rw [getLsbD_next nonzero, Bool.and_eq_true] at still
        exact still.1

/-- The rounds left visit every bit that is still set. -/
theorem mem_go_of_getLsbD (start : Nat) {rounds : Nat} {s : BitSet} {i : Nat}
    (low : ∀ j < start, s.bits.getLsbD j = false) (enough : 32 ≤ start + rounds)
    (set : s.bits.getLsbD i = true) : i ∈ toList.go rounds s := by
  induction rounds generalizing start s with
  | zero =>
    have inside : i < 32 := BitVec.lt_of_getLsbD set
    rw [low i (by omega)] at set
    cases set
  | succ rounds ih =>
    have nonzero : s.toBool = true := toBool_eq_true.mpr ⟨i, set⟩
    have found : s.bits.getLsbD s.deref = true := getLsbD_ctz set
    have start_le : start ≤ s.deref := by
      by_contra less
      rw [low s.deref (by omega)] at found
      cases found
    rw [toList.go, if_pos nonzero, List.mem_cons]
    by_cases eq : i = s.deref
    · exact Or.inl eq
    · right
      refine ih (s.deref + 1) ?_ (by omega) ?_
      · intro j hj
        rw [getLsbD_next nonzero]
        rcases Nat.lt_succ_iff_lt_or_eq.mp hj with below | rfl
        · rw [getLsbD_of_lt_ctz below, Bool.false_and]
        · simp
      · simp [getLsbD_next nonzero, set, eq]

theorem pairwise_go (rounds : Nat) (s : BitSet) : (toList.go rounds s).Pairwise (· < ·) := by
  induction rounds generalizing s with
  | zero => exact .nil
  | succ rounds ih =>
    rw [toList.go]
    split
    case isFalse => exact .nil
    case isTrue nonzero =>
      refine List.pairwise_cons.mpr ⟨fun i later => ?_, ih s.next⟩
      have set := getLsbD_of_mem_go later
      rw [getLsbD_next nonzero, Bool.and_eq_true, decide_eq_true_eq] at set
      exact lt_of_le_of_ne (ctz_le set.1) (Ne.symm set.2)

/-- The range loop visits exactly the set bits. -/
@[simp] theorem mem_toList {s : BitSet} {i : Nat} :
    i ∈ s.toList ↔ s.bits.getLsbD i = true :=
  ⟨getLsbD_of_mem_go, mem_go_of_getLsbD 0 (by simp) (by simp)⟩

/-- The range loop goes from the lowest set bit to the highest. -/
theorem pairwise_toList (s : BitSet) : s.toList.Pairwise (· < ·) :=
  pairwise_go 32 s

theorem nodup_toList (s : BitSet) : s.toList.Nodup :=
  (pairwise_toList s).imp fun less => ne_of_lt less

theorem validCount_ne_zero {s : BitSet} : s.validCount ≠ 0 ↔ s.toBool = true := by
  rw [validCount, Ne, popcount_eq_zero, toBool_eq_true]
  push Not
  simp

theorem getLsbD_deref {s : BitSet} (nonzero : s.toBool = true) :
    s.bits.getLsbD s.deref = true := by
  obtain ⟨k, set⟩ := toBool_eq_true.mp nonzero
  exact getLsbD_ctz set

/-- The range loop, one step. -/
theorem toList_of_toBool {s : BitSet} (nonzero : s.toBool = true) :
    s.toList = s.deref :: s.next.toList := by
  refine (pairwise_toList s).eq_of_mem_iff ?_ fun i => ?_
  · refine List.pairwise_cons.mpr ⟨fun i later => ?_, pairwise_toList s.next⟩
    rw [mem_toList, getLsbD_next nonzero, Bool.and_eq_true, decide_eq_true_eq] at later
    exact lt_of_le_of_ne (ctz_le later.1) (Ne.symm later.2)
  · rw [mem_toList, List.mem_cons, mem_toList, getLsbD_next nonzero]
    by_cases eq : i = s.deref
    · simp [eq, getLsbD_deref nonzero]
    · simp [eq]

theorem toList_of_not_toBool {s : BitSet} (zero : s.toBool = false) : s.toList = [] := by
  rw [List.eq_nil_iff_forall_not_mem]
  intro i mem
  rw [mem_toList, toBool_eq_false.mp zero i] at mem
  cases mem

/-- A loop visits at most as many bits as lie below a bound on them. -/
theorem length_toList_le {s : BitSet} {n : Nat} (below : ∀ i, s.bits.getLsbD i = true → i < n) :
    s.toList.length ≤ n := by
  have sub : s.toList ⊆ List.range n := fun i mem =>
    List.mem_range.mpr (below i (mem_toList.mp mem))
  simpa using (s.nodup_toList.subperm sub).length_le

end BitSet

end TurboHash
