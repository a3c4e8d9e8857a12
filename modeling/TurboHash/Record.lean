import TurboHash.Lib.Bytes

/-!
# Records

A key or a value that is a `std::string` lies in a record: a numeric field by its object
representation, a string by its length and its bytes. Each combination of fields has its
own `Size`, `Length`, `Encode` and `Decode`; what they have in common is the list of bytes
that the record is.
-/

namespace TurboHash

open Bytes

/-! ## Fields -/

/-- A numeric type, by its object representation. -/
structure Numeric (T : Type) where
  size : Nat
  bytes : T → List UInt8
  value : List UInt8 → T
  size_le : size ≤ 16
  length_bytes : ∀ t, (bytes t).length = size
  value_bytes : ∀ t, value (bytes t) = t

/-- The contents of a `std::string`; `max_size` bounds its length. -/
abbrev StdString : Type := {s : List UInt8 // s.length < 2 ^ 63}

/-- `sizeof (size_t)`. -/
def sizeofSizeT : Nat := 8

/-- `sizeof (uint32_t)`. -/
def sizeofU32 : Nat := 4

/-- `util::Slice`. -/
structure Slice where
  data : Nat
  size : UInt64

/-- The bytes a slice refers to. -/
def Slice.contents (m : Mem) (s : Slice) : List UInt8 := read m s.data s.size.toNat

/-- `*reinterpret_cast<size_t*> (addr)`. -/
def loadSizeT (m : Mem) (addr : Nat) : UInt64 := UInt64.ofNat (load m addr sizeofSizeT)

/-- `*reinterpret_cast<uint32_t*> (addr)`. -/
def loadU32 (m : Mem) (addr : Nat) : UInt32 := UInt32.ofNat (load m addr sizeofU32)

/-- `size` of a string. -/
def stringSize (s : List UInt8) : UInt64 := UInt64.ofNat s.length

/-- The bytes of a `size_t`. -/
def sizeTBytes (n : UInt64) : List UInt8 := ofNat sizeofSizeT n.toNat

/-- The bytes of a `uint32_t`. -/
def u32Bytes (n : UInt32) : List UInt8 := ofNat sizeofU32 n.toNat

section Fields

variable {T : Type} {m : Mem} {addr : Nat} {s : List UInt8}

@[simp] theorem length_sizeTBytes (n : UInt64) : (sizeTBytes n).length = sizeofSizeT :=
  length_ofNat _ _

@[simp] theorem length_u32Bytes (n : UInt32) : (u32Bytes n).length = sizeofU32 :=
  length_ofNat _ _

attribute [simp] Numeric.length_bytes

theorem loadSizeT_of_at {n : UInt64} (holds : At m addr (sizeTBytes n)) :
    loadSizeT m addr = n := by
  have small : n.toNat < 256 ^ sizeofSizeT := n.toNat_lt
  rw [loadSizeT, load_of_at holds, Nat.mod_eq_of_lt small]
  exact UInt64.ofNat_toNat

theorem loadU32_of_at {n : UInt32} (holds : At m addr (u32Bytes n)) : loadU32 m addr = n := by
  have small : n.toNat < 256 ^ sizeofU32 := n.toNat_lt
  rw [loadU32, load_of_at holds, Nat.mod_eq_of_lt small]
  exact UInt32.ofNat_toNat

theorem Numeric.value_of_at (A : Numeric T) {t : T} (holds : At m addr (A.bytes t)) :
    A.value (read m addr A.size) = t := by
  have bytes := holds.read_eq
  rw [A.length_bytes] at bytes
  rw [bytes, A.value_bytes]

theorem toNat_ofNat_size {n : Nat} (small : n ≤ 16) : (UInt64.ofNat n).toNat = n :=
  UInt64.toNat_ofNat_of_lt (by simp only [UInt64.size]; omega)

theorem toNat_stringSize (short : s.length < 2 ^ 63) : (stringSize s).toNat = s.length :=
  UInt64.toNat_ofNat_of_lt (by simp only [UInt64.size]; omega)

theorem contents_of_at {size : UInt64} (holds : At m addr s) (length : size.toNat = s.length) :
    (Slice.mk addr size).contents m = s := by
  rw [Slice.contents, length]
  exact holds.read_eq

end Fields

/-! ## Records of one field -/

/-- `Record1Size`, `Record1Format`, `EncodeToRecord1` and `DecodeInRecord1` of one case. -/
structure Record1 (T : Type) where
  /-- `Size` -/
  size : Mem → Nat → UInt64
  /-- `Length` -/
  length : T → UInt64
  /-- `Encode` -/
  encode : T → Nat → Mem → Mem
  /-- `Decode` -/
  decode : Mem → Nat → T

namespace Record1

variable {T : Type}

/-- Case 1: numeric. -/
def numeric (A : Numeric T) : Record1 T where
  size _ _ := UInt64.ofNat A.size
  length _ := UInt64.ofNat A.size
  encode t1 addr m := write m addr (A.bytes t1)
  decode m addr := A.value (read m addr A.size)

/-- Case 2: string. -/
def string : Record1 (List UInt8) where
  size m addr :=
    let len1 := loadSizeT m addr
    UInt64.ofNat sizeofSizeT + len1
  length t1 := UInt64.ofNat sizeofSizeT + stringSize t1
  encode t1 addr m :=
    let m := write m addr (sizeTBytes (stringSize t1))
    write m (addr + sizeofSizeT) t1
  decode m addr :=
    let len1 := loadSizeT m addr
    (Slice.mk (addr + sizeofSizeT) len1).contents m

/-- Decoding undoes encoding, and both stay inside of `Length` bytes. -/
structure Undoes (c : Record1 T) (t1 : T) : Prop where
  outside : ∀ addr m a, a < addr ∨ addr + (c.length t1).toNat ≤ a → c.encode t1 addr m a = m a
  decode : ∀ addr m, c.decode (c.encode t1 addr m) addr = t1
  size : ∀ addr m, c.size (c.encode t1 addr m) addr = c.length t1

theorem numeric_undoes (A : Numeric T) (t1 : T) : (numeric A).Undoes t1 where
  outside addr m a outside := by
    have length : (UInt64.ofNat A.size).toNat = (A.bytes t1).length := by
      rw [A.length_bytes, toNat_ofNat_size A.size_le]
    exact write_outside (length ▸ outside)
  decode addr m := A.value_of_at (at_write m addr _)
  size _ _ := rfl

theorem string_undoes {t1 : List UInt8} (short : t1.length < 2 ^ 63) : string.Undoes t1 := by
  have encoded : ∀ addr m, string.encode t1 addr m =
      write m addr (sizeTBytes (stringSize t1) ++ t1) := by
    intro addr m
    have next := write_write_append m addr (sizeTBytes (stringSize t1)) t1
    rwa [length_sizeTBytes] at next
  have lies : ∀ addr m, At (string.encode t1 addr m) addr (sizeTBytes (stringSize t1)) ∧
      At (string.encode t1 addr m) (addr + sizeofSizeT) t1 := by
    intro addr m
    have fields := at_write m addr (sizeTBytes (stringSize t1) ++ t1)
    rwa [← encoded, at_append, length_sizeTBytes] at fields
  constructor
  · intro addr m a outside
    rw [encoded]
    apply write_outside
    simp only [string, UInt64.toNat_add, toNat_ofNat_size (n := sizeofSizeT) (by decide),
      toNat_stringSize short] at outside
    simp only [List.length_append, length_sizeTBytes]
    simp only [sizeofSizeT] at outside ⊢
    omega
  · intro addr m
    obtain ⟨length, text⟩ := lies addr m
    have found := loadSizeT_of_at length
    rw [string] at found text ⊢
    dsimp only at found text ⊢
    rw [found]
    exact contents_of_at text (toNat_stringSize short)
  · intro addr m
    have found := loadSizeT_of_at (lies addr m).1
    rw [string] at found ⊢
    dsimp only at found ⊢
    rw [found]

end Record1

/-! ## Records of two fields -/

/-- `Record2Size`, `Record2Format`, `EncodeToRecord2` and `DecodeInRecord2` of one case. -/
structure Record2 (T1 T2 : Type) where
  /-- `Size` -/
  size : Mem → Nat → UInt64
  /-- `Length` -/
  length : T1 → T2 → UInt64
  /-- `Encode` -/
  encode : T1 → T2 → Nat → Mem → Mem
  /-- `Decode` of the first field -/
  decodeFirst : Mem → Nat → T1
  /-- `Decode` of the second field -/
  decodeSecond : Mem → Nat → T2

namespace Record2

variable {T1 T2 : Type}

/-- Case 1: numeric and numeric. -/
def numericNumeric (A : Numeric T1) (B : Numeric T2) : Record2 T1 T2 where
  size _ _ := UInt64.ofNat A.size + UInt64.ofNat B.size
  length _ _ := UInt64.ofNat A.size + UInt64.ofNat B.size
  encode t1 t2 addr m :=
    let m := write m addr (A.bytes t1)
    write m (addr + A.size) (B.bytes t2)
  decodeFirst m addr := A.value (read m addr A.size)
  decodeSecond m addr := B.value (read m (addr + A.size) B.size)

/-- Case 2: numeric and string. -/
def numericString (A : Numeric T1) : Record2 T1 (List UInt8) where
  size m addr :=
    let len2 := loadSizeT m (addr + A.size)
    UInt64.ofNat A.size + UInt64.ofNat sizeofSizeT + len2
  length _ t2 := UInt64.ofNat A.size + UInt64.ofNat sizeofSizeT + stringSize t2
  encode t1 t2 addr m :=
    let offset := A.size + sizeofSizeT
    let m := write m addr (A.bytes t1)
    let m := write m (addr + A.size) (sizeTBytes (stringSize t2))
    if t2.length ≠ 0 then write m (addr + offset) t2 else m
  decodeFirst m addr := A.value (read m addr A.size)
  decodeSecond m addr :=
    let len2 := loadSizeT m (addr + A.size)
    (Slice.mk (addr + A.size + sizeofSizeT) len2).contents m

/-- Case 3: string and numeric. -/
def stringNumeric (B : Numeric T2) : Record2 (List UInt8) T2 where
  size m addr :=
    let len1 := loadSizeT m addr
    UInt64.ofNat sizeofSizeT + UInt64.ofNat B.size + len1
  length t1 _ := UInt64.ofNat sizeofSizeT + UInt64.ofNat B.size + stringSize t1
  encode t1 t2 addr m :=
    let offset := sizeofSizeT + B.size
    let m := write m addr (sizeTBytes (stringSize t1))
    let m := write m (addr + sizeofSizeT) (B.bytes t2)
    write m (addr + offset) t1
  decodeFirst m addr :=
    let len1 := loadSizeT m addr
    (Slice.mk (addr + sizeofSizeT + B.size) len1).contents m
  decodeSecond m addr := B.value (read m (addr + sizeofSizeT) B.size)

/-- Case 4: string and string. Both lengths are stored as `uint32_t`. -/
def stringString : Record2 (List UInt8) (List UInt8) where
  size m addr :=
    let len1 := loadU32 m addr
    let len2 := loadU32 m (addr + sizeofU32)
    UInt64.ofNat sizeofU32 + UInt64.ofNat sizeofU32 + len1.toUInt64 + len2.toUInt64
  length t1 t2 :=
    UInt64.ofNat sizeofU32 + UInt64.ofNat sizeofU32 + stringSize t1 + stringSize t2
  encode t1 t2 addr m :=
    let offset := sizeofU32 + sizeofU32
    let m := write m addr (u32Bytes (stringSize t1).toUInt32)
    let m := write m (addr + sizeofU32) (u32Bytes (stringSize t2).toUInt32)
    let m := write m (addr + offset) t1
    if t2.length ≠ 0 then write m (addr + offset + t1.length) t2 else m
  decodeFirst m addr :=
    let len1 := loadU32 m addr
    (Slice.mk (addr + sizeofU32 + sizeofU32) len1.toUInt64).contents m
  decodeSecond m addr :=
    let len1 := loadU32 m addr
    let len2 := loadU32 m (addr + sizeofU32)
    (Slice.mk (addr + sizeofU32 + sizeofU32 + len1.toNat) len2.toUInt64).contents m

/-- Decoding undoes encoding, and both stay inside of `Length` bytes. -/
structure Undoes (c : Record2 T1 T2) (t1 : T1) (t2 : T2) : Prop where
  outside : ∀ addr m a, a < addr ∨ addr + (c.length t1 t2).toNat ≤ a →
    c.encode t1 t2 addr m a = m a
  first : ∀ addr m, c.decodeFirst (c.encode t1 t2 addr m) addr = t1
  second : ∀ addr m, c.decodeSecond (c.encode t1 t2 addr m) addr = t2
  size : ∀ addr m, c.size (c.encode t1 t2 addr m) addr = c.length t1 t2

/-! ## The bytes of a record -/

/-- `bytes` is what `Encode` writes, and the decoders and `Size` find the fields in it
as long as the fields fit. -/
structure LaidOut (c : Record2 T1 T2) (bytes : T1 → T2 → List UInt8) (Fits : T1 → T2 → Prop) :
    Prop where
  encode_eq : ∀ t1 t2 addr m, c.encode t1 t2 addr m = write m addr (bytes t1 t2)
  length_eq : ∀ t1 t2, Fits t1 t2 → (c.length t1 t2).toNat = (bytes t1 t2).length
  first : ∀ t1 t2 addr m, Fits t1 t2 → At m addr (bytes t1 t2) → c.decodeFirst m addr = t1
  second : ∀ t1 t2 addr m, Fits t1 t2 → At m addr (bytes t1 t2) → c.decodeSecond m addr = t2
  size : ∀ t1 t2 addr m, Fits t1 t2 → At m addr (bytes t1 t2) → c.size m addr = c.length t1 t2

theorem LaidOut.undoes {c : Record2 T1 T2} {bytes : T1 → T2 → List UInt8} {Fits : T1 → T2 → Prop}
    (laidOut : c.LaidOut bytes Fits) {t1 : T1} {t2 : T2} (fits : Fits t1 t2) : c.Undoes t1 t2 := by
  have lies : ∀ addr m, At (c.encode t1 t2 addr m) addr (bytes t1 t2) := by
    intro addr m
    rw [laidOut.encode_eq]
    exact at_write m addr _
  constructor
  · intro addr m a outside
    rw [laidOut.length_eq t1 t2 fits] at outside
    rw [laidOut.encode_eq]
    exact write_outside outside
  · exact fun addr m => laidOut.first t1 t2 addr _ fits (lies addr m)
  · exact fun addr m => laidOut.second t1 t2 addr _ fits (lies addr m)
  · exact fun addr m => laidOut.size t1 t2 addr _ fits (lies addr m)

section Cases

variable (A : Numeric T1) (B : Numeric T2)

theorem numericNumeric_laidOut : (numericNumeric A B).LaidOut
    (fun t1 t2 => A.bytes t1 ++ B.bytes t2) (fun _ _ => True) where
  encode_eq t1 t2 addr m := by
    have next := write_write_append m addr (A.bytes t1) (B.bytes t2)
    rwa [A.length_bytes] at next
  length_eq t1 t2 _ := by
    have := A.size_le
    have := B.size_le
    simp only [numericNumeric, UInt64.toNat_add, toNat_ofNat_size A.size_le,
      toNat_ofNat_size B.size_le, List.length_append, Numeric.length_bytes]
    omega
  first t1 t2 addr m _ holds := A.value_of_at (at_append.mp holds).1
  second t1 t2 addr m _ holds := by
    have second := (at_append.mp holds).2
    rw [A.length_bytes] at second
    exact B.value_of_at second
  size _ _ _ _ _ _ := rfl

theorem numericString_laidOut : (numericString A).LaidOut
    (fun t1 t2 => A.bytes t1 ++ sizeTBytes (stringSize t2) ++ t2)
    (fun _ t2 => t2.length < 2 ^ 63) where
  encode_eq t1 t2 addr m := by
    have next := write_write_append m addr (A.bytes t1) (sizeTBytes (stringSize t2))
    have last := write_write_append m addr (A.bytes t1 ++ sizeTBytes (stringSize t2)) t2
    rw [A.length_bytes] at next
    rw [List.length_append, A.length_bytes, length_sizeTBytes, ← next] at last
    dsimp only [numericString]
    split
    case isTrue => exact last
    case isFalse empty =>
      rw [not_not, List.length_eq_zero_iff] at empty
      subst empty
      rw [List.append_nil, next]
  length_eq t1 t2 short := by
    have := A.size_le
    simp only [numericString, UInt64.toNat_add, toNat_ofNat_size A.size_le,
      toNat_ofNat_size (n := sizeofSizeT) (by decide), toNat_stringSize short,
      List.length_append, Numeric.length_bytes, length_sizeTBytes]
    simp only [sizeofSizeT]
    omega
  first t1 t2 addr m _ holds := A.value_of_at (at_append.mp (at_append.mp holds).1).1
  second t1 t2 addr m short holds := by
    obtain ⟨fields, text⟩ := at_append.mp holds
    have length := (at_append.mp fields).2
    rw [A.length_bytes] at length
    rw [List.length_append, A.length_bytes, length_sizeTBytes] at text
    have found := loadSizeT_of_at length
    simp only [numericString, found]
    exact contents_of_at (by rwa [Nat.add_assoc]) (toNat_stringSize short)
  size t1 t2 addr m short holds := by
    have length := (at_append.mp (at_append.mp holds).1).2
    rw [A.length_bytes] at length
    simp only [numericString, loadSizeT_of_at length]

theorem stringNumeric_laidOut : (stringNumeric B).LaidOut
    (fun t1 t2 => sizeTBytes (stringSize t1) ++ B.bytes t2 ++ t1)
    (fun t1 _ => t1.length < 2 ^ 63) where
  encode_eq t1 t2 addr m := by
    have next := write_write_append m addr (sizeTBytes (stringSize t1)) (B.bytes t2)
    have last := write_write_append m addr (sizeTBytes (stringSize t1) ++ B.bytes t2) t1
    rw [length_sizeTBytes] at next
    rwa [List.length_append, B.length_bytes, length_sizeTBytes, ← next] at last
  length_eq t1 t2 short := by
    have := B.size_le
    simp only [stringNumeric, UInt64.toNat_add, toNat_ofNat_size B.size_le,
      toNat_ofNat_size (n := sizeofSizeT) (by decide), toNat_stringSize short,
      List.length_append, Numeric.length_bytes, length_sizeTBytes]
    simp only [sizeofSizeT]
    omega
  first t1 t2 addr m short holds := by
    obtain ⟨fields, text⟩ := at_append.mp holds
    rw [List.length_append, B.length_bytes, length_sizeTBytes] at text
    simp only [stringNumeric, loadSizeT_of_at (at_append.mp fields).1]
    exact contents_of_at (by rwa [Nat.add_assoc]) (toNat_stringSize short)
  second t1 t2 addr m _ holds := by
    have number := (at_append.mp (at_append.mp holds).1).2
    rw [length_sizeTBytes] at number
    exact B.value_of_at number
  size t1 t2 addr m _ holds := by
    simp only [stringNumeric, loadSizeT_of_at (at_append.mp (at_append.mp holds).1).1]

/-- The bytes of a record of two strings. -/
def stringStringBytes (t1 t2 : List UInt8) : List UInt8 :=
  u32Bytes (stringSize t1).toUInt32 ++ u32Bytes (stringSize t2).toUInt32 ++ t1 ++ t2

theorem stringString_encode_eq (t1 t2 : List UInt8) (addr : Nat) (m : Mem) :
    stringString.encode t1 t2 addr m = write m addr (stringStringBytes t1 t2) := by
  have next := write_write_append m addr (u32Bytes (stringSize t1).toUInt32)
    (u32Bytes (stringSize t2).toUInt32)
  have third := write_write_append m addr
    (u32Bytes (stringSize t1).toUInt32 ++ u32Bytes (stringSize t2).toUInt32) t1
  have last := write_write_append m addr
    (u32Bytes (stringSize t1).toUInt32 ++ u32Bytes (stringSize t2).toUInt32 ++ t1) t2
  rw [length_u32Bytes] at next
  rw [List.length_append, length_u32Bytes, length_u32Bytes, ← next] at third
  rw [List.length_append, List.length_append, length_u32Bytes, length_u32Bytes, ← third,
    ← Nat.add_assoc addr _ t1.length] at last
  dsimp only [stringString]
  split
  case isTrue => exact last
  case isFalse empty =>
    rw [not_not, List.length_eq_zero_iff] at empty
    subst empty
    rw [third, stringStringBytes, List.append_nil]

/-- What the two length fields of a record of two strings hold. -/
theorem stringString_lengths {t1 t2 : List UInt8} {addr : Nat} {m : Mem}
    (holds : At m addr (stringStringBytes t1 t2)) :
    loadU32 m addr = (stringSize t1).toUInt32 ∧
      loadU32 m (addr + sizeofU32) = (stringSize t2).toUInt32 := by
  obtain ⟨first, second⟩ := at_append.mp (at_append.mp (at_append.mp holds).1).1
  rw [length_u32Bytes] at second
  exact ⟨loadU32_of_at first, loadU32_of_at second⟩

theorem toNat_stringSize_toUInt32 (s : List UInt8) :
    (stringSize s).toUInt32.toNat = s.length % 2 ^ 32 := by
  rw [UInt64.toNat_toUInt32, stringSize, UInt64.toNat_ofNat']
  omega

theorem stringString_laidOut : stringString.LaidOut stringStringBytes
    (fun t1 t2 => t1.length < 2 ^ 32 ∧ t2.length < 2 ^ 32) where
  encode_eq := stringString_encode_eq
  length_eq t1 t2 short := by
    obtain ⟨short1, short2⟩ := short
    simp only [stringString, stringStringBytes, UInt64.toNat_add,
      toNat_ofNat_size (n := sizeofU32) (by decide), toNat_stringSize (s := t1) (by omega),
      toNat_stringSize (s := t2) (by omega), List.length_append, length_u32Bytes]
    simp only [sizeofU32]
    omega
  first t1 t2 addr m short holds := by
    obtain ⟨short1, short2⟩ := short
    have text := (at_append.mp (at_append.mp holds).1).2
    simp only [List.length_append, length_u32Bytes] at text
    simp only [stringString, (stringString_lengths holds).1]
    refine contents_of_at (by rwa [Nat.add_assoc]) ?_
    rw [UInt32.toNat_toUInt64, toNat_stringSize_toUInt32, Nat.mod_eq_of_lt short1]
  second t1 t2 addr m short holds := by
    obtain ⟨short1, short2⟩ := short
    have text := (at_append.mp holds).2
    simp only [List.length_append, length_u32Bytes] at text
    simp only [stringString, (stringString_lengths holds).1, (stringString_lengths holds).2]
    rw [toNat_stringSize_toUInt32, Nat.mod_eq_of_lt short1]
    refine contents_of_at (by rwa [Nat.add_assoc addr, Nat.add_assoc addr]) ?_
    rw [UInt32.toNat_toUInt64, toNat_stringSize_toUInt32, Nat.mod_eq_of_lt short2]
  size t1 t2 addr m short holds := by
    obtain ⟨short1, short2⟩ := short
    simp only [stringString, (stringString_lengths holds).1, (stringString_lengths holds).2]
    have widen : ∀ s : List UInt8, s.length < 2 ^ 32 →
        (stringSize s).toUInt32.toUInt64 = stringSize s := by
      intro s short
      apply UInt64.toNat_inj.mp
      rw [UInt32.toNat_toUInt64, toNat_stringSize_toUInt32, toNat_stringSize (by omega),
        Nat.mod_eq_of_lt short]
    rw [widen t1 short1, widen t2 short2]

end Cases

/-! ## Which records can be read back -/

/-- What the decoders find in a record of two strings is as long as the 32-bit length
fields say. -/
theorem stringString_decoded_lengths (t1 t2 : List UInt8) (addr : Nat) (m : Mem) :
    (stringString.decodeFirst (stringString.encode t1 t2 addr m) addr).length =
        t1.length % 2 ^ 32 ∧
      (stringString.decodeSecond (stringString.encode t1 t2 addr m) addr).length =
        t2.length % 2 ^ 32 := by
  have lies : At (stringString.encode t1 t2 addr m) addr (stringStringBytes t1 t2) := by
    rw [stringString_encode_eq]
    exact at_write m addr _
  obtain ⟨length1, length2⟩ := stringString_lengths lies
  have first : (stringString.decodeFirst (stringString.encode t1 t2 addr m) addr).length =
      (loadU32 (stringString.encode t1 t2 addr m) addr).toNat := length_read _ _ _
  have second : (stringString.decodeSecond (stringString.encode t1 t2 addr m) addr).length =
      (loadU32 (stringString.encode t1 t2 addr m) (addr + sizeofU32)).toNat := length_read _ _ _
  rw [first, second, length1, length2]
  exact ⟨toNat_stringSize_toUInt32 t1, toNat_stringSize_toUInt32 t2⟩

theorem Undoes.stringString_short {t1 t2 : List UInt8} (undoes : stringString.Undoes t1 t2) :
    t1.length < 2 ^ 32 ∧ t2.length < 2 ^ 32 := by
  obtain ⟨first, second⟩ := stringString_decoded_lengths t1 t2 0 fun _ => 0
  rw [undoes.first] at first
  rw [undoes.second] at second
  exact ⟨by omega, by omega⟩

end Record2

/-- Every record can be read back, but for a record of two strings one of which takes
4 GiB or more. -/
theorem decode_undoes_encode_iff {N1 N2 : Type} (A : Numeric N1) (B : Numeric N2) :
    (∀ n : N1, (Record1.numeric A).Undoes n) ∧ (∀ s : StdString, Record1.string.Undoes s.1) ∧
      (∀ (n1 : N1) (n2 : N2), (Record2.numericNumeric A B).Undoes n1 n2) ∧
      (∀ (n1 : N1) (s2 : StdString), (Record2.numericString A).Undoes n1 s2.1) ∧
      (∀ (s1 : StdString) (n2 : N2), (Record2.stringNumeric B).Undoes s1.1 n2) ∧
      ∀ s1 s2 : StdString, Record2.stringString.Undoes s1.1 s2.1 ↔
        s1.1.length < 2 ^ 32 ∧ s2.1.length < 2 ^ 32 := by
  refine ⟨Record1.numeric_undoes A, fun s => Record1.string_undoes s.2,
    fun n1 n2 => (Record2.numericNumeric_laidOut A B).undoes trivial,
    fun n1 s2 => (Record2.numericString_laidOut A).undoes s2.2,
    fun s1 n2 => (Record2.stringNumeric_laidOut B).undoes s1.2, fun s1 s2 => ?_⟩
  constructor
  · exact Record2.Undoes.stringString_short
  · exact Record2.stringString_laidOut.undoes

/-- A key of 4 GiB is not read back. -/
theorem decode_loses_long_key : ¬ ∀ s1 s2 : StdString, Record2.stringString.Undoes s1.1 s2.1 := by
  intro undoes
  have short : ∀ n < 2 ^ 63, (List.replicate n (0 : UInt8)).length < 2 ^ 63 := by simp
  have undone := undoes ⟨List.replicate (2 ^ 32) 0, short _ (by decide)⟩ ⟨[], by decide⟩
  have small := undone.stringString_short.1
  rw [List.length_replicate] at small
  exact lt_irrefl _ small

end TurboHash
