import TurboHash.Record

/-!
# The hash of a string

`hash<std::string>` passes the address and the size of a string to `MurmurHash64A`,
whose `len` is an `int`. The loop over the words ends when its pointer meets the one
that it has computed from `len / 8`, the switch goes by `len & 7`. `reads_words` and
`reads_rest` list the bytes that both read, for every `len`; they are the bytes of the
string if and only if its size is an `int` (`readsItsBytes_iff`).
-/

namespace TurboHash

open Bytes

namespace Hasher

/-- The multiplier `m`. -/
def murmurM : UInt64 := 0xc6a4a7935bd1e995

def murmurSeed : UInt64 := 0xe17a1465

/-- The shift `r`. -/
def murmurR : UInt64 := 47

/-- A hash on its way, with the addresses of the bytes that have been read. -/
structure Hashing where
  h : UInt64
  reads : List UInt64

/-- The addresses of `count` bytes from `data` on. -/
def addresses (data : UInt64) (count : Nat) : List UInt64 :=
  (List.range count).map fun i => data + UInt64.ofNat i

/-- The body of the loop, for the word `k`. -/
def mixWord (h k : UInt64) : UInt64 :=
  let k := k * murmurM
  let k := k ^^^ (k >>> murmurR)
  let k := k * murmurM
  (h ^^^ k) * murmurM

/-- The loop `while (data != end)`, for a number of rounds. -/
def words (mem : Mem) (stop : UInt64) : Nat → UInt64 → Hashing → Option Hashing
  | 0, _, _ => none
  | rounds + 1, data, s =>
    if data = stop then some s
    else words mem stop rounds (data + 8)
      ⟨mixWord s.h (loadSizeT mem data.toNat), s.reads ++ addresses data 8⟩

/-- The cases of the switch from `n` down to 1, which fall through. -/
def cases (mem : Mem) (data2 : UInt64) : Nat → Hashing → Hashing
  | 0, s => { s with h := s.h * murmurM }
  | n + 1, s =>
    let p := data2 + UInt64.ofNat n
    cases mem data2 n
      ⟨s.h ^^^ ((mem p.toNat).toUInt64 <<< UInt64.ofNat (8 * n)), s.reads ++ [p]⟩

/-- `switch (len & 7)`. -/
def rest (mem : Mem) (data2 : UInt64) (n : Nat) (s : Hashing) : Hashing :=
  if n = 0 then s else cases mem data2 n s

/-- The last three statements on `h`. -/
def finish (s : Hashing) : Hashing :=
  let h := s.h ^^^ (s.h >>> murmurR)
  let h := h * murmurM
  let h := h ^^^ (h >>> murmurR)
  ⟨h, s.reads⟩

/-- `MurmurHash64A`; `len / 8` and `len & 7` are computed with `len` as an `int`. -/
def murmurHash64A (mem : Mem) (key : UInt64) (len : Int32) (rounds : Nat) : Option Hashing := do
  let h := murmurSeed ^^^ (len.toInt64.toUInt64 * murmurM)
  let stop := key + (len / 8).toInt64.toUInt64 * 8
  let s ← words mem stop rounds key ⟨h, []⟩
  return finish (rest mem stop (len &&& 7).toUInt32.toNat s)

/-- `hash<std::string>`: the `size_t` is narrowed to an `int`. -/
def hashString (mem : Mem) (data size : UInt64) (rounds : Nat) : Option Hashing :=
  murmurHash64A mem data size.toUInt32.toInt32 rounds

/-- The hash terminates and has read each byte of the string exactly once, and no other. -/
def ReadsItsBytes (mem : Mem) (data : UInt64) (s : StdString) : Prop :=
  ∃ rounds out, hashString mem data (stringSize s.1) rounds = some out ∧
    out.reads.Perm (addresses data s.1.length)

/-! ## The bytes that are read -/

section Reads

variable {mem : Mem} {s s' : Hashing} {data : UInt64}

theorem reads_mk (h : UInt64) (reads : List UInt64) : (Hashing.mk h reads).reads = reads := rfl

@[simp] theorem length_addresses (data : UInt64) (count : Nat) :
    (addresses data count).length = count := by
  simp [addresses]

/-- Bytes that follow each other. -/
theorem addresses_add (data : UInt64) (a b : Nat) :
    addresses data (a + b) = addresses data a ++ addresses (data + UInt64.ofNat a) b := by
  rw [addresses, List.range_add, List.map_append, List.map_map, addresses, addresses]
  congr 1
  refine List.map_congr_left fun i _ => ?_
  rw [Function.comp_apply, UInt64.ofNat_add, UInt64.add_assoc]

/-- The loop over `count` words reads their bytes in order. -/
theorem reads_words {count : Nat} (small : count < 2 ^ 61) :
    ∃ s', words mem (data + UInt64.ofNat count * 8) (count + 1) data s = some s' ∧
      s'.reads = s.reads ++ addresses data (8 * count) := by
  induction count generalizing data s with
  | zero =>
    refine ⟨s, if_pos ?_, by simp [addresses]⟩
    simp
  | succ count ih =>
    have more : data ≠ data + UInt64.ofNat (count + 1) * 8 := by
      intro same
      have zero : UInt64.ofNat (count + 1) * 8 = 0 := by grind
      have value := congrArg UInt64.toNat zero
      rw [UInt64.toNat_mul, UInt64.toNat_ofNat'] at value
      simp at value
      omega
    have stop : data + UInt64.ofNat (count + 1) * 8 = data + 8 + UInt64.ofNat count * 8 := by
      rw [UInt64.ofNat_add]
      grind
    obtain ⟨s', walked, reads⟩ := @ih
      ⟨mixWord s.h (loadSizeT mem data.toNat), s.reads ++ addresses data 8⟩ (data + 8) (by omega)
    refine ⟨s', ?_, ?_⟩
    · rw [words, if_neg more, stop]
      exact walked
    · rw [reads, Nat.mul_add_one, Nat.add_comm, addresses_add, List.append_assoc]
      rfl

/-- More rounds do not change what the loop has read. -/
theorem words_mono {stop : UInt64} {rounds more : Nat} (le : rounds ≤ more)
    (walked : words mem stop rounds data s = some s') :
    words mem stop more data s = some s' := by
  induction rounds generalizing data s more with
  | zero => cases walked
  | succ rounds ih =>
    obtain ⟨more, rfl⟩ := Nat.exists_eq_add_of_le' (Nat.lt_of_lt_of_le rounds.succ_pos le)
    rw [words] at walked ⊢
    split at walked
    case isTrue done => rwa [if_pos done]
    case isFalse goes => rw [if_neg goes, ih (Nat.le_of_succ_le_succ le) walked]

theorem reads_cases (mem : Mem) (data : UInt64) (n : Nat) (s : Hashing) :
    ∃ last, (cases mem data n s).reads = s.reads ++ last ∧ last.Perm (addresses data n) := by
  induction n generalizing s with
  | zero =>
    rw [cases, reads_mk]
    exact ⟨[], (List.append_nil _).symm, .nil⟩
  | succ n ih =>
    rw [cases]
    generalize s.h ^^^ _ = h
    obtain ⟨last, reads, perm⟩ := ih ⟨h, s.reads ++ [data + UInt64.ofNat n]⟩
    refine ⟨(data + UInt64.ofNat n) :: last, ?_, ?_⟩
    · rw [reads, List.append_assoc]
      rfl
    · rw [addresses_add]
      have one : addresses (data + UInt64.ofNat n) 1 = [data + UInt64.ofNat n] := by
        simp [addresses]
      rw [one]
      exact (perm.cons _).trans (List.perm_append_singleton _ _).symm

/-- The switch reads the bytes of the rest. -/
theorem reads_rest (mem : Mem) (data : UInt64) (n : Nat) (s : Hashing) :
    ∃ last, (rest mem data n s).reads = s.reads ++ last ∧ last.Perm (addresses data n) := by
  rw [rest]
  split
  case isTrue zero => exact ⟨[], by simp, by simp [zero, addresses]⟩
  case isFalse => exact reads_cases mem data n s

/-- The number of words up to the pointer that is computed from `len / 8`. -/
def wordCount (len : Int32) : Nat := (len / 8).toInt64.toUInt64.toNat % 2 ^ 61

theorem wordCount_lt (len : Int32) : wordCount len < 2 ^ 61 := Nat.mod_lt _ (Nat.two_pow_pos 61)

/-- For every `len` the hash terminates, having read as many words as lie before that pointer,
and the rest behind them. -/
theorem reads_murmurHash64A (mem : Mem) (key : UInt64) (len : Int32) :
    ∃ rounds out, murmurHash64A mem key len rounds = some out ∧
      out.reads.Perm (addresses key (8 * wordCount len + (len &&& 7).toUInt32.toNat)) := by
  have stop : (len / 8).toInt64.toUInt64 * 8 = UInt64.ofNat (wordCount len) * 8 := by
    refine UInt64.toNat_inj.mp ?_
    rw [UInt64.toNat_mul, UInt64.toNat_mul, UInt64.toNat_ofNat', wordCount]
    simp
    omega
  obtain ⟨s, walked, reads⟩ := @reads_words mem
    ⟨murmurSeed ^^^ (len.toInt64.toUInt64 * murmurM), []⟩ key _ (wordCount_lt len)
  obtain ⟨last, readsLast, perm⟩ := reads_rest mem (key + UInt64.ofNat (wordCount len) * 8)
    (len &&& 7).toUInt32.toNat s
  refine ⟨wordCount len + 1, finish (rest mem (key + UInt64.ofNat (wordCount len) * 8)
    (len &&& 7).toUInt32.toNat s), ?_, ?_⟩
  · rw [murmurHash64A, stop, walked]
    rfl
  · have offset : UInt64.ofNat (8 * wordCount len) = UInt64.ofNat (wordCount len) * 8 := by
      rw [UInt64.ofNat_mul, UInt64.mul_comm]
      rfl
    rw [finish, reads_mk, readsLast, reads, List.nil_append, addresses_add, offset]
    exact perm.append_left _

/-- Whatever the hash has read does not depend on the rounds. -/
theorem murmurHash64A_unique {key : UInt64} {len : Int32} {rounds rounds' : Nat}
    {out out' : Hashing} (one : murmurHash64A mem key len rounds = some out)
    (other : murmurHash64A mem key len rounds' = some out') : out = out' := by
  obtain ⟨s, walked, made⟩ := Option.bind_eq_some_iff.mp one
  obtain ⟨s', walked', made'⟩ := Option.bind_eq_some_iff.mp other
  have same := (words_mono (Nat.le_max_left rounds rounds') walked).symm.trans
    (words_mono (Nat.le_max_right rounds rounds') walked')
  rw [Option.some.inj same] at made
  exact Option.some.inj (made.symm.trans made')

end Reads

/-! ## The length as an `int` -/

section Length

variable {size : UInt64}

theorem toInt_narrowed (size : UInt64) : size.toUInt32.toInt32.toInt =
    if size.toNat % 2 ^ 32 < 2 ^ 31 then (size.toNat : Int) % 2 ^ 32
    else (size.toNat : Int) % 2 ^ 32 - 2 ^ 32 := by
  have bits : size.toUInt32.toInt32.toBitVec.toNat = size.toNat % 2 ^ 32 :=
    UInt64.toNat_toUInt32 size
  change size.toUInt32.toInt32.toBitVec.toInt = _
  rw [BitVec.toInt_eq_toNat_cond, bits]
  split_ifs <;> omega

/-- The tail is the size modulo 8 for every size. -/
theorem toNat_tail (size : UInt64) :
    (size.toUInt32.toInt32 &&& 7).toUInt32.toNat = size.toNat % 8 := by
  have tail : (size.toUInt32.toInt32 &&& 7).toUInt32.toNat = size.toUInt32.toNat &&& 7 := rfl
  rw [tail, UInt64.toNat_toUInt32, Nat.and_two_pow_sub_one_eq_mod _ 3]
  omega

/-- The distance to the end pointer, in words. -/
theorem toNat_eighth (size : UInt64) :
    (size.toUInt32.toInt32 / 8).toInt64.toUInt64.toNat =
      if size.toNat % 2 ^ 32 < 2 ^ 31 then size.toNat % 2 ^ 32 / 8
      else (2 ^ 64 - (2 ^ 32 - size.toNat % 2 ^ 32) / 8) % 2 ^ 64 := by
  have quotient : (size.toUInt32.toInt32 / 8).toInt64.toInt =
      size.toUInt32.toInt32.toInt.tdiv 8 := by
    rw [Int32.toInt_toInt64, Int32.toInt_div_of_ne_right _ _ (by decide)]
    rfl
  have bound := (size.toUInt32.toInt32 / 8).toInt64.toBitVec.isLt
  rw [toInt_narrowed] at quotient
  change (size.toUInt32.toInt32 / 8).toInt64.toBitVec.toInt = _ at quotient
  change (size.toUInt32.toInt32 / 8).toInt64.toBitVec.toNat = _
  rw [BitVec.toInt_eq_toNat_cond] at quotient
  generalize (size.toUInt32.toInt32 / 8).toInt64.toBitVec.toNat = e at quotient bound ⊢
  generalize size.toNat = n at quotient ⊢
  by_cases positive : n % 2 ^ 32 < 2 ^ 31
  case pos =>
    rw [if_pos positive, Int.tdiv_eq_ediv_of_nonneg (by omega)] at quotient
    rw [if_pos positive]
    split_ifs at quotient <;> omega
  case neg =>
    have negated : (n : Int) % 2 ^ 32 - 2 ^ 32 = -(2 ^ 32 - (n : Int) % 2 ^ 32) := by omega
    rw [if_neg positive, negated, Int.neg_tdiv, Int.tdiv_eq_ediv_of_nonneg (by omega)] at quotient
    rw [if_neg positive]
    split_ifs at quotient <;> omega

/-- A string whose size is an `int` is read as a whole. -/
theorem wordCount_of_lt (small : size.toNat < 2 ^ 31) :
    8 * wordCount size.toUInt32.toInt32 + size.toNat % 8 = size.toNat := by
  rw [wordCount, toNat_eighth, if_pos (by omega)]
  omega

/-- A longer string is not: fewer bytes are read when its size is narrowed to a positive number or
to less than a word, and nearly the whole address space otherwise. -/
theorem wordCount_of_le (large : 2 ^ 31 ≤ size.toNat) (string : size.toNat < 2 ^ 63) :
    8 * wordCount size.toUInt32.toInt32 + size.toNat % 8 ≠ size.toNat := by
  rw [wordCount, toNat_eighth]
  split <;> omega

end Length

section Strings

variable {mem : Mem} {data : UInt64} {s : StdString}

theorem readsItsBytes_iff_wordCount : ReadsItsBytes mem data s ↔
    8 * wordCount (stringSize s.1).toUInt32.toInt32 + (stringSize s.1).toNat % 8 =
      (stringSize s.1).toNat := by
  obtain ⟨rounds, out, hashed, reads⟩ :=
    reads_murmurHash64A mem data (stringSize s.1).toUInt32.toInt32
  rw [toNat_tail] at reads
  have length := toNat_stringSize s.2
  constructor
  · rintro ⟨rounds', out', hashed', its⟩
    rw [murmurHash64A_unique hashed hashed'] at reads
    have count := reads.length_eq.symm.trans its.length_eq
    rwa [length_addresses, length_addresses, ← length] at count
  · intro same
    rw [same, length] at reads
    exact ⟨rounds, out, hashed, reads⟩

theorem not_readsItsBytes_of_le (large : 2 ^ 31 ≤ s.1.length) : ¬ ReadsItsBytes mem data s := by
  have length := toNat_stringSize s.2
  rw [readsItsBytes_iff_wordCount]
  exact wordCount_of_le (length ▸ large) (length ▸ s.2)

/-- The hash of a string terminates, reads each of its bytes exactly once and no other byte, if
and only if the size of the string is an `int`. -/
theorem readsItsBytes_iff (mem : Mem) (data : UInt64) (s : StdString) :
    ReadsItsBytes mem data s ↔ s.1.length < 2 ^ 31 := by
  constructor
  · intro reads
    by_contra large
    exact not_readsItsBytes_of_le (Nat.not_lt.mp large) reads
  · intro small
    have length := toNat_stringSize s.2
    exact readsItsBytes_iff_wordCount.mpr (wordCount_of_lt (length ▸ small))

theorem exists_string {n : Nat} (small : n < 2 ^ 63) : ∃ s : StdString, s.1.length = n :=
  ⟨⟨List.replicate n 97, List.length_replicate.symm ▸ small⟩, List.length_replicate⟩

/-- A string of 4 GiB is not read. -/
theorem not_readsItsBytes : ∃ s : StdString, s.1.length = 2 ^ 32 ∧
    ¬ ReadsItsBytes (fun _ => 0) 4096 s := by
  obtain ⟨s, length⟩ := exists_string (show 2 ^ 32 < 2 ^ 63 by decide)
  exact ⟨s, length, not_readsItsBytes_of_le (length ▸ by decide)⟩

end Strings

end Hasher

end TurboHash
