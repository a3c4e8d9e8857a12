import TurboHash.BitSet

/-!
# The word of a bucket

`BucketMeta` packs the lock bits, the size and the address of a bucket into one word.
`Reset` and the readers use all 64 bits, the bit locks the low 32. `reset_shift` and
`store32_shift` say what each leaves above the flags.
-/

namespace TurboHash

/-- What `Reset` is called with: an address of 48 bits and a power of two of cells. -/
structure ResetArgs where
  addr : BitVec 64
  cellCount : BitVec 32
  addr_lt : addr.toNat < 2 ^ 48
  power : ∃ k, cellCount.toNat = 2 ^ k

namespace BucketMeta

/-- `Address`. -/
def address (data : BitVec 64) : BitVec 64 := data >>> 16

/-- `CellCount`. -/
def cellCount (data : BitVec 64) : BitVec 32 := 1#32 <<< ((data >>> 8) &&& 0xFF#64).toNat

/-- `Reset`. -/
def reset (data : BitVec 64) (args : ResetArgs) : BitVec 64 :=
  (data &&& 0xFF#64) ||| (args.addr <<< 16) ||| (BitVec.ofNat 64 (ctz args.cellCount) <<< 8)

/-- `*(uint32_t*)(&data_)`. -/
def load32 (data : BitVec 64) : BitVec 32 := data.setWidth 32

/-- A store through `(uint32_t*)(&data_)`. -/
def store32 (data : BitVec 64) (v : BitVec 32) : BitVec 64 := data.extractLsb' 32 32 ++ v

section Bits

variable {data data' : BitVec 64} {v : BitVec 32} {args : ResetArgs} {i : Nat}

theorem getLsbD_255 (i : Nat) : (0xFF#64).getLsbD i = decide (i < 8) := by
  by_cases flag : i < 8
  · interval_cases i <;> rfl
  · rw [← BitVec.testBit_toNat]
    simp only [flag, decide_false]
    exact Nat.testBit_lt_two_pow (Nat.lt_of_lt_of_le (by decide)
      (Nat.pow_le_pow_right Nat.two_pos (Nat.not_lt.mp flag)))

@[simp] theorem getLsbD_load32 :
    (load32 data).getLsbD i = (decide (i < 32) && data.getLsbD i) := by
  simp [load32]

@[simp] theorem getLsbD_store32 :
    (store32 data v).getLsbD i = if i < 32 then v.getLsbD i else data.getLsbD i := by
  rw [store32, BitVec.getLsbD_append, BitVec.getLsbD_extractLsb']
  by_cases low : i < 32
  · simp [low]
  · have back : 32 + (i - 32) = i := by omega
    simp only [low, if_false, back]
    by_cases inside : i < 64
    · have high : i - 32 < 32 := by omega
      simp [high]
    · rw [BitVec.getLsbD_of_ge data i (by omega), Bool.and_false]

/-- A store to the low half that changes flags only keeps the address and the size. -/
theorem store32_shift (same : ∀ i, 8 ≤ i → i < 32 → v.getLsbD i = data.getLsbD i) :
    store32 data v >>> 8 = data >>> 8 := by
  refine BitVec.eq_of_getLsbD_eq fun i _ => ?_
  rw [BitVec.getLsbD_ushiftRight, BitVec.getLsbD_ushiftRight, getLsbD_store32]
  split
  case isTrue low => exact same _ (by omega) low
  case isFalse => rfl

end Bits

/-! ## What `Reset` writes -/

section Reset

variable {data data' : BitVec 64} {args : ResetArgs} {i : Nat}

theorem toNat_cellCount (args : ResetArgs) :
    args.cellCount.toNat = 2 ^ ctz args.cellCount ∧ ctz args.cellCount < 32 := by
  obtain ⟨k, power⟩ := args.power
  have small : k < 32 := by
    have bound := args.cellCount.isLt
    rw [power] at bound
    exact (Nat.pow_lt_pow_iff_right one_lt_two).mp bound
  have bits : ∀ i, args.cellCount.getLsbD i = decide (k = i) := fun i => by
    rw [← BitVec.testBit_toNat, power, Nat.testBit_two_pow]
  have lowest : ctz args.cellCount = k := by
    have set := getLsbD_ctz (x := args.cellCount) (i := k) (by simp [bits])
    rw [bits, decide_eq_true_eq] at set
    exact set.symm
  exact ⟨lowest ▸ power, lowest ▸ small⟩

theorem getLsbD_size (args : ResetArgs) (i : Nat) :
    (BitVec.ofNat 64 (ctz args.cellCount)).getLsbD i = (ctz args.cellCount).testBit i := by
  have small := (toNat_cellCount args).2
  rw [BitVec.getLsbD_ofNat]
  by_cases inside : i < 64
  · simp [inside]
  · have high : (ctz args.cellCount).testBit i = false :=
      Nat.testBit_lt_two_pow (small.trans (Nat.lt_of_lt_of_le (by decide)
        (Nat.pow_le_pow_right Nat.two_pos (Nat.not_lt.mp inside))))
    simp [inside, high]

/-- The flags stay. -/
theorem getLsbD_reset (flag : i < 8) : (reset data args).getLsbD i = data.getLsbD i := by
  have below : i < 16 := by omega
  simp only [reset, BitVec.getLsbD_or, BitVec.getLsbD_and, getLsbD_255, BitVec.getLsbD_shiftLeft,
    flag, below, decide_true, Bool.and_true, Bool.not_true, Bool.and_false, Bool.false_and,
    Bool.or_false]

/-- What `Reset` writes above the flags does not depend on the word it has loaded. -/
theorem reset_shift (data data' : BitVec 64) (args : ResetArgs) :
    reset data args >>> 8 = reset data' args >>> 8 := by
  refine BitVec.eq_of_getLsbD_eq fun i _ => ?_
  have above : ¬ 8 + i < 8 := by omega
  simp only [BitVec.getLsbD_ushiftRight, reset, BitVec.getLsbD_or, BitVec.getLsbD_and,
    getLsbD_255, above, decide_false, Bool.and_false]

theorem address_reset (data : BitVec 64) (args : ResetArgs) :
    address (reset data args) = args.addr := by
  refine BitVec.eq_of_getLsbD_eq fun i inside => ?_
  have above : ¬ 16 + i < 8 := by omega
  have behind : ¬ 16 + i < 16 := by omega
  have small := (toNat_cellCount args).2
  have size : (ctz args.cellCount).testBit (16 + i - 8) = false :=
    Nat.testBit_lt_two_pow (small.trans_le ((by decide : 32 ≤ 2 ^ 8).trans
      (Nat.pow_le_pow_right Nat.two_pos (by omega))))
  simp only [address, reset, BitVec.getLsbD_ushiftRight, BitVec.getLsbD_or, BitVec.getLsbD_and,
    getLsbD_255, BitVec.getLsbD_shiftLeft, getLsbD_size, above, behind, size, decide_false,
    Bool.and_false, Bool.false_or, Bool.or_false, Bool.not_false, Bool.and_true,
    Nat.add_sub_cancel_left]
  by_cases short : 16 + i < 64
  · simp [short]
  · have zero : args.addr.getLsbD i = false := by
      rw [← BitVec.testBit_toNat]
      exact Nat.testBit_lt_two_pow (args.addr_lt.trans_le
        (Nat.pow_le_pow_right Nat.two_pos (by omega)))
    simp [short, zero]

theorem cellCount_reset (data : BitVec 64) (args : ResetArgs) :
    cellCount (reset data args) = args.cellCount := by
  obtain ⟨power, small⟩ := toNat_cellCount args
  have size : (reset data args >>> 8) &&& 0xFF#64 = BitVec.ofNat 64 (ctz args.cellCount) := by
    refine BitVec.eq_of_getLsbD_eq fun i inside => ?_
    have above : ¬ 8 + i < 8 := by omega
    simp only [reset, BitVec.getLsbD_ushiftRight, BitVec.getLsbD_or, BitVec.getLsbD_and,
      getLsbD_255, BitVec.getLsbD_shiftLeft, getLsbD_size, above, decide_false, Bool.and_false,
      Bool.false_or, Bool.not_false, Bool.and_true, Nat.add_sub_cancel_left]
    by_cases low : i < 8
    · have below : 8 + i < 16 := by omega
      have short : 8 + i < 64 := by omega
      simp [low, below, short]
    · have zero : (ctz args.cellCount).testBit i = false :=
        Nat.testBit_lt_two_pow (small.trans_le ((by decide : 32 ≤ 2 ^ 8).trans
          (Nat.pow_le_pow_right Nat.two_pos (Nat.not_lt.mp low))))
      simp [low, zero]
  rw [cellCount, size]
  refine BitVec.eq_of_toNat_eq ?_
  have fits : 2 ^ ctz args.cellCount < 2 ^ 32 := Nat.pow_lt_pow_right one_lt_two small
  rw [BitVec.toNat_ofNat, Nat.mod_eq_of_lt (small.trans (by decide)), BitVec.toNat_shiftLeft,
    Nat.shiftLeft_eq, power]
  simpa using fits

/-- The address and the size are read from the word above its flags. -/
theorem address_congr (same : data >>> 8 = data' >>> 8) : address data = address data' := by
  have split : ∀ w : BitVec 64, address w = w >>> 8 >>> 8 := fun w => by
    rw [address, BitVec.shiftRight_add w 8 8]
  rw [split, split, same]

theorem cellCount_congr (same : data >>> 8 = data' >>> 8) : cellCount data = cellCount data' := by
  rw [cellCount, cellCount, same]

end Reset

end BucketMeta

end TurboHash
