import TurboHash.PmemAtomic
import TurboHash.Record

/-!
# Crashes of a table with records

A `Put` of a string key or a string value writes a record and flushes the line of its
first byte only. A `Put` is atomic under crashes when the record lies on that line.
-/

namespace TurboHash.Pmem

open LineMemory Bytes

section Formats

variable {K V H : Type}

/-- The `SlotRecord` whose `entry` points to a record of the form `c`. -/
def recordFormat {L : SlotLayout K V H (Option (K × V))} (c : Record2 K V)
    (bytes : K → V → List UInt8) {Fits : K → V → Prop} (laidOut : c.LaidOut bytes Fits)
    (fits : ∀ key value, (bytes key value).length ≤ cacheLineSize → Fits key value)
    (entry : ∀ hash key value, (L.store hash key value).entry = some (key, value)) :
    RecordFormat L where
  Word := Option Nat
  zeroWord := none
  word _ addr := some addr
  encode key value := some (bytes key value)
  resolve heap word := word.map fun addr => (c.decodeFirst heap addr, c.decodeSecond heap addr)
  extent heap word := word.elim (0, 0) fun addr => (addr, (c.size heap addr).toNat)
  resolve_word heap addr hash key value records := by
    obtain ⟨short, lies⟩ := records _ rfl
    have fit := fits key value short
    rw [entry, Option.map_some, laidOut.first key value addr heap fit lies,
      laidOut.second key value addr heap fit lies]
  extent_word heap addr key value record encoded records := by
    cases encoded
    obtain ⟨short, lies⟩ := records
    have fit := fits key value short
    rw [Option.elim_some, laidOut.size key value addr heap fit lies,
      laidOut.length_eq key value fit]

/-! A string on one line is short enough for the size fields of its record. -/

theorem numericString_fits (A : Numeric K) (key : K) (value : List UInt8)
    (short : (A.bytes key ++ sizeTBytes (stringSize value) ++ value).length ≤ cacheLineSize) :
    value.length < 2 ^ 63 := by
  simp only [List.length_append, cacheLineSize] at short
  omega

theorem stringNumeric_fits (B : Numeric V) (key : List UInt8) (value : V)
    (short : (sizeTBytes (stringSize key) ++ B.bytes value ++ key).length ≤ cacheLineSize) :
    key.length < 2 ^ 63 := by
  simp only [List.length_append, cacheLineSize] at short
  omega

theorem stringString_fits (key value : List UInt8)
    (short : (Record2.stringStringBytes key value).length ≤ cacheLineSize) :
    key.length < 2 ^ 32 ∧ value.length < 2 ^ 32 := by
  simp only [Record2.stringStringBytes, List.length_append, cacheLineSize] at short
  exact ⟨by omega, by omega⟩

theorem flatKeyLayout_entry [Inhabited K] (keyToHash toSizeT : K → UInt64) (hash : UInt64)
    (key : K) (value : V) :
    ((flatKeyLayout keyToHash toSizeT).store hash key value).entry = some (key, value) := rfl

theorem stringKeyLayout_entry [DecidableEq K] (keyToHash : K → UInt64) (hash : UInt64) (key : K)
    (value : V) : ((stringKeyLayout keyToHash).store hash key value).entry = some (key, value) :=
  rfl

/-- `SlotRecord<T1, true, false>`. -/
def numericStringFormat [Inhabited K] (A : Numeric K) (keyToHash toSizeT : K → UInt64) :
    RecordFormat (flatKeyLayout keyToHash toSizeT : SlotLayout K (List UInt8) K _) :=
  recordFormat (Record2.numericString A) _ (Record2.numericString_laidOut A)
    (numericString_fits A) (flatKeyLayout_entry keyToHash toSizeT)

/-- `SlotRecord<T1, false, true>`. -/
def stringNumericFormat (B : Numeric V) (keyToHash : List UInt8 → UInt64) :
    RecordFormat (stringKeyLayout keyToHash : SlotLayout (List UInt8) V UInt64 _) :=
  recordFormat (Record2.stringNumeric B) _ (Record2.stringNumeric_laidOut B)
    (stringNumeric_fits B) (stringKeyLayout_entry keyToHash)

/-- `SlotRecord<T1, false, false>`. -/
def stringStringFormat (keyToHash : List UInt8 → UInt64) :
    RecordFormat (stringKeyLayout keyToHash : SlotLayout (List UInt8) (List UInt8) UInt64 _) :=
  recordFormat Record2.stringString _ Record2.stringString_laidOut stringString_fits
    (stringKeyLayout_entry keyToHash)

end Formats

/-- The persistent table whose slots have the given layout and format. -/
def recordSetup {K V H E : Type} {L : SlotLayout K V H E} (format : RecordFormat L)
    (kCellCountLimit : Nat) (limit_le : kCellCountLimit ≤ kTurboCellCountLimit) (metaWord : Nat)
    (heap₀ : Content (Loc.Val H format.Word))
    (uninit : Nat → Cell cellMeta256V2 H format.Word) : Setup K V H E where
  params := ⟨L, kCellCountLimit, limit_le, fun _ _ _ => Table.zeroCell L⟩
  format := format
  metaWord := metaWord
  heap₀ := heap₀
  uninit := uninit

/-! ## Crash atomicity -/

/-- Every run from a table whose buckets start with less than 2 GiB and whose bucket
pointers lie on the lines that are flushed, with every record on the line of its address,
survives a crash. -/
def Setup.CrashAtomic {K V H E : Type} [DecidableEq K] [DecidableEq H] (S : Setup K V H E) :
    Prop :=
  ∀ {bucketCount cellCount : UInt32} {s₀ s : Machine S} {steps : List (Machine S × Action K V)},
    S.initTable bucketCount cellCount = some s₀ →
    cellCount.toNat * cellMeta256V2.cellSize < 2 ^ 31 → S.LastOnLine bucketCount.toNat →
    Transition.Run Machine.next s₀ steps s → (∀ p ∈ steps, p.1.Promised p.2) →
    (∀ p ∈ steps, p.1.Meets p.2) →
    (s.todo = [] → s.before = s.after) ∧ ∀ keep, s.Recovers keep fun t =>
      (∀ i < t.bucketCount, (t.buckets i).WellFormed S.layout) ∧
        (t.Agrees s.before.table ∨ t.Agrees s.after.table) ∧
        ((∀ p ∈ steps, p.1.Near p.2) →
          t.Refines S.layout s.before.map ∨ t.Refines S.layout s.after.map)

/-- The three kinds of tables with records survive every crash of such a run. -/
theorem record_tables_crash_atomic {N : Type} [Inhabited N] [DecidableEq N] (A : Numeric N)
    (numericToHash toSizeT : N → UInt64) (stringToHash : List UInt8 → UInt64)
    (kCellCountLimit : Nat) (limit_le : kCellCountLimit ≤ kTurboCellCountLimit)
    (metaWord : Nat) :
    (∀ heap₀ uninit, (recordSetup (numericStringFormat A numericToHash toSizeT) kCellCountLimit
      limit_le metaWord heap₀ uninit).CrashAtomic) ∧
    (∀ heap₀ uninit, (recordSetup (stringNumericFormat A stringToHash) kCellCountLimit
      limit_le metaWord heap₀ uninit).CrashAtomic) ∧
    ∀ heap₀ uninit, (recordSetup (stringStringFormat stringToHash) kCellCountLimit
      limit_le metaWord heap₀ uninit).CrashAtomic := by
  refine ⟨fun heap₀ uninit => ?_, fun heap₀ uninit => ?_, fun heap₀ uninit => ?_⟩
  all_goals
    intro bucketCount cellCount s₀ s steps fresh small lastOnLine run promised meets
    exact Machine.crash_atomic fresh small lastOnLine run promised meets

/-! ## Concrete tables -/

theorem sizeofSizeT_le : sizeofSizeT ≤ 16 := by decide

/-- `uint64_t`. -/
def numericUInt64 : Numeric UInt64 where
  size := 8
  bytes := sizeTBytes
  value bytes := UInt64.ofNat (toNat bytes)
  size_le := sizeofSizeT_le
  length_bytes := length_sizeTBytes
  value_bytes n := by
    have small : n.toNat < 256 ^ sizeofSizeT := n.toNat_lt
    rw [sizeTBytes, toNat_ofNat, Nat.mod_eq_of_lt small]
    exact UInt64.ofNat_toNat

/-- Integer keys and string values on an empty heap. -/
def textSetup : Setup UInt64 (List UInt8) UInt64 (Option (UInt64 × List UInt8)) :=
  recordSetup (numericStringFormat numericUInt64 hashInt id) kTurboCellCountLimit le_rfl 0
    (fun
      | .ver _ _ => ⟨0, 0, 0⟩
      | .tag _ _ _ => (0 : UInt8)
      | .h1 _ _ _ => (0 : UInt64)
      | .entry _ _ _ => (none : Option Nat)
      | .curVer _ => (0 : UInt8)
      | .cellCountLeftshift _ _ => (0 : Nat)
      | .bucketPtr _ _ => (0 : Nat)
      | .byte _ => (0 : UInt8))
    fun _ => ⟨⟨0, 0, 0⟩, fun _ => 0, fun _ => ⟨0, none⟩⟩

/-- A put of one character whose record, of 17 bytes, is written at `addr`. -/
def putText (addr : Nat) : List (Action UInt64 (List UInt8)) :=
  .put 7 [5] addr :: List.replicate 26 .step

theorem record_tables_crash_atomic_put :
    ∃ (s₀ s : Machine textSetup) (steps : List (Machine textSetup × Action UInt64 (List UInt8))),
      textSetup.initTable 2 2 = some s₀ ∧ Transition.Run Machine.next s₀ steps s ∧
        s.todo.length = 0 ∧ s.after.map 7 = some [5] ∧
        ∀ keep, s.Recovers keep fun t => t.Agrees s.before.table ∨ t.Agrees s.after.table := by
  have ran : (textSetup.initTable 2 2).bind (fun s₀ =>
      (Transition.execute (Transition.guarded Machine.next fun s a => s.Promised a ∧ s.Meets a) s₀
        (putText 128)).map fun s => (s.todo.length, s.after.map 7)) = some (0, some [5]) := by
    decide +kernel
  obtain ⟨s₀, fresh, rest⟩ := Option.bind_eq_some_iff.mp ran
  obtain ⟨s, executed, result⟩ := Option.map_eq_some_iff.mp rest
  obtain ⟨finished, bound⟩ := Prod.mk.inj result
  obtain ⟨steps, run, met⟩ := Transition.exists_run_of_guarded executed
  refine ⟨s₀, s, steps, fresh, run, finished, bound, fun keep => ?_⟩
  obtain ⟨buckets', found, -, agrees, -⟩ :=
    ((record_tables_crash_atomic numericUInt64 hashInt id (fun _ => 0) kTurboCellCountLimit le_rfl
      0).1 _ _ fresh (by decide) rfl run (fun p mem => (met p mem).1)
        fun p mem => (met p mem).2).2 keep
  exact ⟨buckets', found, agrees⟩

/-! ## A record on two lines -/

/-- The value that `Recover` finds in the first slot when every line keeps only what has
surely been written back. -/
def durableText (s : Machine textSetup) : Option (List UInt8) :=
  (textSetup.recover (s.image fun _ => 0) s.bucketCount).bind fun buckets' =>
    ((((textSetup.table (s.image fun _ => 0) s.bucketCountShift buckets').buckets 0).cells
      0).slots 2).entry.map Prod.snd

/-- The first slot is in use before and after, with another value than the one recovered. -/
def TextLost (s : Machine textSetup) : Prop :=
  ∀ t ∈ [s.before.table, s.after.table], 0 < t.bucketCount ∧ 0 < (t.buckets 0).cellCount ∧
    ((t.buckets 0).cells 0).live 2 = true ∧
    durableText s ≠ (((t.buckets 0).cells 0).slots 2).entry.map Prod.snd

instance (s : Machine textSetup) : Decidable (TextLost s) :=
  inferInstanceAs (Decidable (∀ t ∈ [s.before.table, s.after.table], _))

theorem not_recovers_of_textLost {s : Machine textSetup} (lost : TextLost s) :
    ¬ s.Recovers (fun _ => 0) fun t => t.Agrees s.before.table ∨ t.Agrees s.after.table := by
  apply s.not_recovers_agrees
  rintro t mem ⟨buckets', recovered, agrees⟩
  obtain ⟨bucket, cell, alive, other⟩ := lost t mem
  apply other
  rw [durableText, recovered, Option.bind_some]
  exact congrArg (·.entry.map Prod.snd) (((agrees.buckets 0 bucket).cells 0 cell).slots 2 alive)

/-- A `Put` has returned, and a crash loses the last byte of its record, which is the first
one of the next line. -/
theorem record_not_durable :
    ∃ s₀ s : Machine textSetup, textSetup.initTable 1 1 = some s₀ ∧
      Transition.execute Machine.next s₀ (putText 48) = some s ∧ s.todo.length = 0 ∧
      ¬ s.Recovers (fun _ => 0) fun t => t.Agrees s.before.table ∨ t.Agrees s.after.table := by
  have ran : (textSetup.initTable 1 1).bind (fun s₀ =>
      (Transition.execute Machine.next s₀ (putText 48)).map fun s =>
        (s.todo.length, decide (TextLost s))) = some (0, true) := by decide +kernel
  obtain ⟨s₀, fresh, rest⟩ := Option.bind_eq_some_iff.mp ran
  obtain ⟨s, executed, result⟩ := Option.map_eq_some_iff.mp rest
  obtain ⟨finished, lost⟩ := Prod.mk.inj result
  exact ⟨s₀, s, fresh, executed, finished, not_recovers_of_textLost (of_decide_eq_true lost)⟩

end TurboHash.Pmem
