import Mathlib.Data.List.Basic
import Mathlib.Data.Nat.Basic
import Mathlib.Tactic.Ring

/-!
# Bytes in a memory

A memory holds a byte at every address. `write` stores a list of bytes, `read` loads
one, and `At` says that a list lies in the memory; lists that follow each other are one
list. Numbers are stored with the least significant byte first.
-/

namespace Bytes

/-- A byte-addressed memory. -/
abbrev Mem : Type := Nat → UInt8

variable {m : Mem} {addr a b : Nat} {xs ys : List UInt8}

/-- The `len` bytes from `addr` on. -/
def read (m : Mem) (addr len : Nat) : List UInt8 :=
  (List.range len).map fun i => m (addr + i)

/-- Store `bytes` from `addr` on. -/
def write (m : Mem) (addr : Nat) (bytes : List UInt8) : Mem := fun a =>
  if addr ≤ a then (bytes[a - addr]?).getD (m a) else m a

/-- The memory from `addr` on holds `bytes`. -/
def At (m : Mem) (addr : Nat) (bytes : List UInt8) : Prop :=
  ∀ i b, bytes[i]? = some b → m (addr + i) = b

/-! ## Reading and writing -/

@[simp] theorem length_read (m : Mem) (addr len : Nat) : (read m addr len).length = len := by
  simp [read]

theorem at_iff_read : At m addr xs ↔ read m addr xs.length = xs := by
  constructor
  · intro holds
    apply List.ext_getElem (length_read m addr xs.length)
    intro i _ inside
    simp only [read, List.getElem_map, List.getElem_range]
    exact holds i _ (List.getElem?_eq_getElem inside)
  · intro same i b found
    obtain ⟨inside, rfl⟩ := List.getElem?_eq_some_iff.mp found
    have byte := congrArg (·[i]?) same
    simpa [read, inside] using byte

theorem At.read_eq (holds : At m addr xs) : read m addr xs.length = xs :=
  at_iff_read.mp holds

/-- Lists that follow each other are one list. -/
theorem at_append : At m addr (xs ++ ys) ↔ At m addr xs ∧ At m (addr + xs.length) ys := by
  constructor
  · intro holds
    constructor
    · intro i b found
      obtain ⟨inside, -⟩ := List.getElem?_eq_some_iff.mp found
      exact holds i b (by rwa [List.getElem?_append_left inside])
    · intro i b found
      rw [Nat.add_assoc]
      apply holds
      rw [List.getElem?_append_right (Nat.le_add_right _ _), Nat.add_sub_cancel_left, found]
  · intro ⟨first, second⟩ i b found
    rcases Nat.lt_or_ge i xs.length with inside | beyond
    · exact first i b (by rwa [List.getElem?_append_left inside] at found)
    · rw [List.getElem?_append_right beyond] at found
      have byte := second _ b found
      rwa [Nat.add_assoc, Nat.add_sub_cancel' beyond] at byte

theorem at_write (m : Mem) (addr : Nat) (xs : List UInt8) : At (write m addr xs) addr xs := by
  intro i b found
  rw [write, if_pos (Nat.le_add_right _ _), Nat.add_sub_cancel_left, found, Option.getD_some]

/-- A write leaves the rest of the memory alone. -/
theorem write_outside (outside : a < addr ∨ addr + xs.length ≤ a) : write m addr xs a = m a := by
  unfold write
  split
  case isTrue after =>
    rw [List.getElem?_eq_none (by omega), Option.getD_none]
  case isFalse => rfl

/-- Two writes that follow each other are one write. -/
theorem write_write_append (m : Mem) (addr : Nat) (xs ys : List UInt8) :
    write (write m addr xs) (addr + xs.length) ys = write m addr (xs ++ ys) := by
  funext a
  rcases Nat.lt_or_ge a (addr + xs.length) with before | after
  · rw [write_outside (Or.inl before)]
    unfold write
    split
    case isTrue inside => rw [List.getElem?_append_left (by omega)]
    case isFalse => rfl
  · rw [write, if_pos after, write_outside (Or.inr after), write, if_pos (by omega),
      List.getElem?_append_right (by omega), Nat.sub_sub]

/-! ## Numbers -/

/-- The `width` low bytes of `n`, the least significant one first. -/
def ofNat : Nat → Nat → List UInt8
  | 0, _ => []
  | width + 1, n => UInt8.ofNat n :: ofNat width (n / 256)

/-- The number that `bytes` stand for. -/
def toNat : List UInt8 → Nat
  | [] => 0
  | b :: bytes => b.toNat + 256 * toNat bytes

@[simp] theorem length_ofNat (width n : Nat) : (ofNat width n).length = width := by
  induction width generalizing n with
  | zero => rfl
  | succ width ih => rw [ofNat, List.length_cons, ih]

/-- What does not fit into the width is lost. -/
theorem toNat_ofNat (width n : Nat) : toNat (ofNat width n) = n % 256 ^ width := by
  induction width generalizing n with
  | zero => rw [ofNat, toNat, Nat.pow_zero, Nat.mod_one]
  | succ width ih =>
    have low : (UInt8.ofNat n).toNat = n % 256 := UInt8.toNat_ofNat'
    rw [ofNat, toNat, ih, low, Nat.pow_succ', Nat.mod_mul]

/-- The number of `width` bytes at `addr`. -/
def load (m : Mem) (addr width : Nat) : Nat := toNat (read m addr width)

theorem load_of_at {width n : Nat} (holds : At m addr (ofNat width n)) :
    load m addr width = n % 256 ^ width := by
  have bytes := holds.read_eq
  rw [length_ofNat] at bytes
  rw [load, bytes, toNat_ofNat]

end Bytes
