import TurboHash.Slot

/-!
# Probing a bucket

`findSlot`, `findSlotForInsert` and `deleteSlot` share one loop:

    while (probe && (probe_count++ < MAX_PROBE_LEN)) { ... probe.next (); }

whose body loads the meta of the cell under the probe, and either returns, goes
on to the next cell, or jumps back to a `retry` label when the version of the
cell has moved on. `probeLoop` is that loop over an arbitrary body. It runs on
fuel, one unit for each visit of a cell, because nothing bounds the number of
retries.

`probeLoop_eq_pathLoop` removes the fuel: with more fuel than cells to visit the
loop is a recursion over `probePath`, the cells a key may live in.
-/

namespace TurboHash

/-- `kTurboMaxProbeLen`. -/
def maxProbeLen : Nat := 15

/-- `kTurboProbeStep`. -/
def probeStep : Nat := 1

/-- How the program stops other than by returning: an `exit (1)`. -/
inductive Exit
  /-- `MinorRehash`: "Cannot rehash" -/
  | cannotRehash
  /-- `findNextSlotInRehash`: "Even we rehash this bucket, we cannot find a valid slot" -/
  | noSlotInProbe
  /-- `MinorRehash`: "rehash fail" -/
  | rehashFail
deriving DecidableEq

/-- Why an operation yields no result. -/
inductive Halt
  | exit (reason : Exit)
  | outOfFuel
  /-- undefined behaviour: the size of a bucket has wrapped to zero -/
  | undefined
deriving DecidableEq

/-- `ProbeWithinBucket`. -/
@[ext] structure ProbeWithinBucket where
  h : UInt64
  cellCountMask : Nat
  cellIndex : Nat
  bucketI : Nat
  probeCount : Nat

namespace ProbeWithinBucket

/-- The constructor. -/
def start (initialHash : UInt64) (cellCountMask bucketI : Nat) : ProbeWithinBucket where
  h := initialHash
  cellCountMask := cellCountMask
  cellIndex := initialHash.toNat &&& cellCountMask
  bucketI := bucketI
  probeCount := 0

/-- `operator bool`: not all cells have been probed. -/
def valid (p : ProbeWithinBucket) : Bool := p.probeCount ≤ p.cellCountMask

/-- `next`. -/
def next (p : ProbeWithinBucket) : ProbeWithinBucket :=
  { p with
    cellIndex := (p.cellIndex + probeStep) &&& p.cellCountMask
    probeCount := p.probeCount + 1 }

end ProbeWithinBucket

/-- How the body of the probe loop ends at a cell: it returns, leaves for the
next cell, or jumps back to the retry label; `σ` are the locals it keeps. -/
inductive ProbeOutcome (σ α : Type)
  | done (result : α)
  | next (locals : σ)
  | retry (locals : σ)

section Loop

variable {σ α : Type}

/-- The probe loop, with `finish` the code behind it. -/
def probeLoop (body : σ → Nat → ProbeOutcome σ α) (finish : σ → α) :
    Nat → ProbeWithinBucket → Nat → σ → Except Halt α
  | 0, _, _, _ => .error .outOfFuel
  | fuel + 1, probe, probeCount, locals =>
    if probe.valid && decide (probeCount < maxProbeLen) then
      match body locals probe.cellIndex with
      | .done result => .ok result
      | .next locals => probeLoop body finish fuel probe.next (probeCount + 1) locals
      | .retry locals => probeLoop body finish fuel probe probeCount locals
    else .ok (finish locals)

/-- What holds of every answer of the body and behind the loop holds of the result. -/
theorem probeLoop_satisfies {body : σ → Nat → ProbeOutcome σ α} {finish : σ → α} {p : α → Prop}
    (answers : ∀ locals cell result, body locals cell = .done result → p result)
    (finishes : ∀ locals, p (finish locals)) {fuel : Nat} {probe : ProbeWithinBucket}
    {probeCount : Nat} {locals : σ} {result : α}
    (ok : probeLoop body finish fuel probe probeCount locals = .ok result) : p result := by
  induction fuel generalizing probe probeCount locals with
  | zero => cases ok
  | succ fuel ih =>
    rw [probeLoop] at ok
    split at ok
    case isFalse =>
      cases ok
      exact finishes locals
    case isTrue =>
      split at ok
      case h_1 outcome =>
        cases ok
        exact answers _ _ _ outcome
      case h_2 => exact ih ok
      case h_3 => exact ih ok

/-- More fuel does not change an answer. -/
theorem probeLoop_mono {body : σ → Nat → ProbeOutcome σ α} {finish : σ → α} {fuel fuel' : Nat}
    {probe : ProbeWithinBucket} {probeCount : Nat} {locals : σ} {result : α}
    (more : fuel ≤ fuel') (ok : probeLoop body finish fuel probe probeCount locals = .ok result) :
    probeLoop body finish fuel' probe probeCount locals = .ok result := by
  induction fuel generalizing fuel' probe probeCount locals with
  | zero => cases ok
  | succ fuel ih =>
    obtain ⟨fuel', rfl⟩ := Nat.exists_eq_succ_of_ne_zero (by omega : fuel' ≠ 0)
    rw [probeLoop] at ok ⊢
    split at ok
    case isFalse outside => rwa [if_neg outside]
    case isTrue inside =>
      rw [if_pos inside]
      split at ok
      case h_1 => exact ok
      case h_2 => exact ih (by omega) ok
      case h_3 => exact ih (by omega) ok

/-- The cells that a probe starting from `hash` visits in a bucket of `count`
cells. -/
def probePath (hash : UInt64) (count : Nat) : List Nat :=
  (List.range (min maxProbeLen count)).map fun d => (hash.toNat + d) % count

/-- The probe loop without fuel: a retry spins. -/
def pathLoop (body : σ → Nat → ProbeOutcome σ α) (finish : σ → α) :
    List Nat → σ → Except Halt α
  | [], locals => .ok (finish locals)
  | cell :: cells, locals =>
    match body locals cell with
    | .done result => .ok result
    | .next locals => pathLoop body finish cells locals
    | .retry _ => .error .outOfFuel

/-- The probe after `d` calls of `next`. -/
def probeAt (hash : UInt64) (count bucketI d : Nat) : ProbeWithinBucket where
  h := hash
  cellCountMask := count - 1
  cellIndex := (hash.toNat + d) % count
  bucketI := bucketI
  probeCount := d

theorem probeAt_inside {hash : UInt64} {count bucketI d : Nat} :
    ((probeAt hash count bucketI d).valid && decide (d < maxProbeLen)) = true ↔
      d ≤ count - 1 ∧ d < maxProbeLen := by
  rw [Bool.and_eq_true, ProbeWithinBucket.valid, decide_eq_true_eq, decide_eq_true_eq]
  rfl

theorem start_eq_probeAt (hash : UInt64) (shift bucketI : Nat) :
    ProbeWithinBucket.start hash (2 ^ shift - 1) bucketI = probeAt hash (2 ^ shift) bucketI 0 := by
  simp [ProbeWithinBucket.start, probeAt, Nat.and_two_pow_sub_one_eq_mod]

theorem next_probeAt (hash : UInt64) (shift bucketI d : Nat) :
    (probeAt hash (2 ^ shift) bucketI d).next = probeAt hash (2 ^ shift) bucketI (d + 1) := by
  simp [ProbeWithinBucket.next, probeAt, probeStep, Nat.and_two_pow_sub_one_eq_mod, Nat.add_assoc]

/-- A body that retries on a cell it has not seen change retries again. -/
def Spins (body : σ → Nat → ProbeOutcome σ α) : Prop :=
  ∀ locals cell locals', body locals cell = .retry locals' →
    ∃ locals'', body locals' cell = .retry locals''

/-- A retry uses up any amount of fuel. -/
theorem probeLoop_of_retry {body : σ → Nat → ProbeOutcome σ α} {finish : σ → α}
    (spins : Spins body) {probe : ProbeWithinBucket} {probeCount : Nat} {locals locals' : σ}
    (inside : (probe.valid && decide (probeCount < maxProbeLen)) = true)
    (retries : body locals probe.cellIndex = .retry locals') (fuel : Nat) :
    probeLoop body finish fuel probe probeCount locals = .error .outOfFuel := by
  induction fuel generalizing locals locals' with
  | zero => rfl
  | succ fuel ih =>
    rw [probeLoop, if_pos inside, retries]
    obtain ⟨locals'', again⟩ := spins _ _ _ retries
    exact ih again

theorem probeLoop_probeAt {body : σ → Nat → ProbeOutcome σ α} {finish : σ → α}
    (spins : Spins body) (hash : UInt64) (shift bucketI : Nat) {d left fuel : Nat} {locals : σ}
    (cells : d + left = min maxProbeLen (2 ^ shift)) (enough : left < fuel) :
    probeLoop body finish fuel (probeAt hash (2 ^ shift) bucketI d) d locals =
      pathLoop body finish
        ((List.range' d left).map fun e => (hash.toNat + e) % 2 ^ shift) locals := by
  induction left generalizing d fuel locals with
  | zero =>
    obtain ⟨fuel, rfl⟩ := Nat.exists_eq_succ_of_ne_zero (by omega : fuel ≠ 0)
    have positive := Nat.two_pow_pos shift
    rw [probeLoop, if_neg (fun inside => by have := probeAt_inside.mp inside; omega)]
    rfl
  | succ left ih =>
    obtain ⟨fuel, rfl⟩ := Nat.exists_eq_succ_of_ne_zero (by omega : fuel ≠ 0)
    have inside : ((probeAt hash (2 ^ shift) bucketI d).valid && decide (d < maxProbeLen)) = true :=
      probeAt_inside.mpr (by omega)
    rw [List.range'_succ, List.map_cons, pathLoop]
    cases outcome : body locals ((hash.toNat + d) % 2 ^ shift) with
    | done result =>
      rw [probeLoop, if_pos inside]
      simp only [probeAt, outcome]
    | next locals' =>
      rw [probeLoop, if_pos inside, next_probeAt]
      simp only [probeAt] at outcome ⊢
      rw [outcome]
      exact ih (by omega) (by omega)
    | retry locals' =>
      exact probeLoop_of_retry spins inside (by simpa [probeAt] using outcome) _

/-- With more fuel than cells to visit, the probe loop walks the probe path. -/
theorem probeLoop_eq_pathLoop {body : σ → Nat → ProbeOutcome σ α} {finish : σ → α}
    (spins : Spins body) (hash : UInt64) (shift bucketI : Nat) {fuel : Nat} (locals : σ)
    (enough : maxProbeLen < fuel) :
    probeLoop body finish fuel (.start hash (2 ^ shift - 1) bucketI) 0 locals =
      pathLoop body finish (probePath hash (2 ^ shift)) locals := by
  rw [start_eq_probeAt, probePath, List.range_eq_range']
  exact probeLoop_probeAt spins hash shift bucketI (by omega)
    (lt_of_le_of_lt (Nat.min_le_left _ _) enough)

end Loop

section Path

variable {hash : UInt64} {count cell : Nat}

theorem mem_probePath :
    cell ∈ probePath hash count ↔
      ∃ d < min maxProbeLen count, cell = (hash.toNat + d) % count := by
  simp only [probePath, List.mem_map, List.mem_range]
  exact ⟨fun ⟨d, bound, eq⟩ => ⟨d, bound, eq.symm⟩, fun ⟨d, bound, eq⟩ => ⟨d, bound, eq.symm⟩⟩

theorem lt_of_mem_probePath (positive : 0 < count) (mem : cell ∈ probePath hash count) :
    cell < count := by
  obtain ⟨d, -, rfl⟩ := mem_probePath.mp mem
  exact Nat.mod_lt _ positive

theorem probePath_eq_cons (hash : UInt64) (positive : 0 < count) :
    ∃ rest, probePath hash count = hash.toNat % count :: rest := by
  obtain ⟨left, eq⟩ := Nat.exists_eq_succ_of_ne_zero
    (Nat.ne_of_gt (lt_min (show 0 < maxProbeLen by decide) positive))
  rw [probePath, eq, List.range_succ_eq_map]
  exact ⟨_, rfl⟩

/-- The path before and behind the cell at displacement `d`. -/
theorem probePath_split (hash : UInt64) {d : Nat} (inside : d < min maxProbeLen count) :
    ∃ after, probePath hash count =
      (List.range d).map (fun e => (hash.toNat + e) % count) ++
        (hash.toNat + d) % count :: after := by
  obtain ⟨rest, eq⟩ := Nat.exists_eq_add_of_lt inside
  rw [probePath, eq, Nat.add_assoc, List.range_add, List.map_append, List.range_succ_eq_map,
    List.map_cons, List.map_cons]
  exact ⟨_, rfl⟩

/-- Two displacements below the number of cells reach different cells. -/
theorem add_mod_inj {base d e count : Nat} (hd : d < count) (he : e < count)
    (same : (base + d) % count = (base + e) % count) : d = e := by
  have := Nat.ModEq.add_left_cancel' base (show base + d ≡ base + e [MOD count] from same)
  rwa [Nat.ModEq, Nat.mod_eq_of_lt hd, Nat.mod_eq_of_lt he] at this

end Path

end TurboHash
