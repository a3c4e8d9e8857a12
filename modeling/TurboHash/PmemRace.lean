import TurboHash.PmemBucket

/-!
# Threads on the persistent table

Any number of threads run `Put`, `Delete` and `MinorRehash`, each under the lock of its bucket, so that
a bucket has one operation in progress at most. Their stores, flushes and fences are interleaved in any
order, and lines are shared: the entries of the array of `BucketMetaPmem` take three words each, and
the records of several buckets may lie on one line. A crash comes at any moment and takes the
operations in progress with it.

A `Delete` begins behind its tests under the lock, on a slot that another thread may have deleted since
its search. `Find` stores nothing and has no step here.
-/

namespace TurboHash.Pmem

open LineMemory

variable {K V H E : Type}

/-- The store that publishes an operation: that of a version word, or of `cur_ver_`. -/
inductive Publish
  | version (region cell : Nat) (version : Version cellMeta256V2)
  | copy (bi : Nat) (second : Bool)

namespace Publish

def loc : Publish → Loc
  | version r c _ => .ver r c
  | copy bi _ => .curVer bi

def value {W : Type} : (p : Publish) → p.loc.Val H W
  | version _ _ v => v
  | copy _ second => (if second then 2 else 1 : UInt8)

/-- The store has survived. -/
def happened {W : Type} (x : Content (Loc.Val H W)) : Publish → Bool
  | version r c v =>
    let found : Version cellMeta256V2 := x (.ver r c)
    decide (found = v)
  | copy bi second =>
    let cur : UInt8 := x (.curVer bi)
    decide (cur = if second then 2 else 1)

theorem happened_iff {W : Type} {x : Content (Loc.Val H W)} {p : Publish} :
    p.happened x = true ↔ x p.loc = p.value := by
  cases p <;> exact decide_eq_true_iff

end Publish

/-- An operation in progress. -/
structure Writing (S : Setup K V H E) where
  /-- what it has still to do -/
  todo : List S.Event
  publish : Publish
  /-- its bucket behind it -/
  bucketMeta : BucketMetaDram
  bucket : Bucket cellMeta256V2 H E
  /-- what it does to the map -/
  effect : Option (K × Option V)

/-- The map behind an operation. -/
def Writing.apply [DecidableEq K] {S : Setup K V H E} (w : Writing S) (map : K → Option V) :
    K → Option V :=
  match w.effect with
  | none => map
  | some (key, value?) => Function.update map key value?

/-- The persistent memory, the DRAM array, and the operations in progress. -/
structure PmemRace (S : Setup K V H E) where
  bucketCountShift : Nat
  memory : SharedMemory Nat Addr (Loc.Val H S.format.Word)
  buckets_ : Nat → BucketMetaDram
  /-- the bucket for whose record the allocator has last returned a byte -/
  allocated : Nat → Option Nat
  /-- the buckets before the operations in progress -/
  before : Nat → Bucket cellMeta256V2 H E
  writing : Nat → Option (Writing S)
  /-- the map before the operations in progress -/
  map : K → Option V

/-- What happens next. A `put` carries the address the allocator returns for its record, a `delete`
the slot it has found, a `step` the bucket whose operation goes on. -/
inductive PmemAction (K V : Type)
  | put (key : K) (value : V) (addr : Nat)
  | delete (key : K) (cell slot : Nat)
  | rehash (bi : Nat) (isgc : Bool) (region : Nat)
  | step (bi : Nat)
  | crash (keep : Addr → Nat)

namespace PmemRace

variable {S : Setup K V H E}

section View

variable (s : PmemRace S)

def bucketCount : Nat := 2 ^ s.bucketCountShift

/-- What loads see. -/
def content : S.Content := current (lineOf S.metaWord) s.memory.content

/-- What a crash leaves. -/
def image (keep : Addr → Nat) : S.Content :=
  LineMemory.image (lineOf S.metaWord) s.memory.content keep

/-- The table as the operations see it. -/
def view : Table cellMeta256V2 H E := S.table s.content s.bucketCountShift s.buckets_

/-- The regions that a bucket uses: that of its cells, and the one `MinorRehash` writes to. -/
def regions (i : Nat) : List Nat :=
  (s.buckets_ i).address :: (s.writing i).toList.map fun w => w.bucketMeta.address

/-- The cell count exponent of the bucket that `MinorRehash` builds. -/
def newShift (bi : Nat) (isgc : Bool) : Nat :=
  if isgc then (s.buckets_ bi).shift else (s.buckets_ bi).shift + 1

/-- The table with those of the operations in progress that `applied` tells. -/
def tableWith (applied : Nat → Bool) : Table cellMeta256V2 H E where
  bucketCountShift := s.bucketCountShift
  buckets i :=
    match s.writing i with
    | none => s.before i
    | some w => if applied i then w.bucket else s.before i
  capacity := 0

/-- The map with those of the operations in progress that `applied` tells. -/
def mapWith [DecidableEq K] (applied : Nat → Bool) (key : K) : Option V :=
  match s.writing (s.view.bucketOf S.layout key) with
  | none => s.map key
  | some w => if applied (s.view.bucketOf S.layout key) then w.apply s.map key else s.map key

/-- The operations in progress whose publishing store a crash leaves. -/
def survived (keep : Addr → Nat) (i : Nat) : Bool :=
  (s.writing i).any fun w => w.publish.happened (s.image keep)

end View

/-! ## Steps -/

section Steps

variable [DecidableEq K] [DecidableEq H] (s : PmemRace S)

omit [DecidableEq K] [DecidableEq H] in
/-- An operation begins on bucket `bi`. -/
def begin (bi : Nat) (w : Writing S) : PmemRace S :=
  { s with
    before := Function.update s.before bi (s.view.buckets bi)
    writing := Function.update s.writing bi (some w) }

omit [DecidableEq K] [DecidableEq H] in
theorem begin_before (bi : Nat) (w : Writing S) : (s.begin bi w).before bi = s.view.buckets bi :=
  Function.update_self ..

omit [DecidableEq K] [DecidableEq H] in
theorem begin_writing (bi : Nat) (w : Writing S) : (s.begin bi w).writing bi = some w :=
  Function.update_self ..

omit [DecidableEq K] [DecidableEq H] in
/-- The allocator returns memory for a record of bucket `bi`. -/
def allocate (bi addr length : Nat) : PmemRace S :=
  { s with allocated := fun a => if addr ≤ a ∧ a < addr + length then some bi else s.allocated a }

/-- The length of the record behind a slot. -/
def recordLength (S : Setup K V H E) (key : K) (value : V) : Nat :=
  (S.format.encode key value).elim 0 List.length

omit [DecidableEq K] [DecidableEq H] in
/-- `insertToSlotAndGC` into the slot of `info`, with the record at `addr`. -/
def putting (key : K) (value : V) (addr : Nat) (info : SlotInfo H) : Writing S :=
  let bi := s.view.bucketOf S.layout key
  let r := (s.buckets_ bi).address
  let version := putVersion (s.content (.ver r info.cell)) info
  { todo := S.putPrepare r info key value addr ++ S.commitEvents r info.cell version
    publish := .version r info.cell version
    bucketMeta := s.buckets_ bi
    bucket := (s.view.commit S.params key value info).buckets bi
    effect := some (key, some value) }

omit [DecidableEq K] in
/-- `Put` of a key for which `findSlotForInsert` finds a slot. -/
def beginPut (key : K) (value : V) (addr : Nat) : Option (PmemRace S) :=
  let bi := s.view.bucketOf S.layout key
  match s.writing bi, s.view.searchForInsert S.params searchFuel key with
  | none, .ok res =>
    if res.find then
      some ((s.begin bi (s.putting key value addr res.targetSlot)).allocate bi addr
        (recordLength S key value))
    else none
  | _, _ => none

omit [DecidableEq K] [DecidableEq H] in
/-- `deleteSlot` behind its tests, of slot `i` of cell `c`. Where another thread has deleted the slot
since the search has seen it valid, the map stays. -/
def deleting (key : K) (c i : Nat) : Writing S :=
  let bi := s.view.bucketOf S.layout key
  let b := s.view.buckets bi
  let r := (s.buckets_ bi).address
  let version := (b.cells c).ver.masked.delete i
  { todo := S.commitEvents r c version
    publish := .version r c version
    bucketMeta := s.buckets_ bi
    bucket := b.setCell c (deleteCommit S.layout (b.cells c) i).1
    effect := if (b.cells c).live i then some (key, none) else none }

omit [DecidableEq K] in
/-- `Delete` of a slot that is occupied, as one that was valid stays, and that has the key. -/
def beginDelete (key : K) (c i : Nat) : Option (PmemRace S) :=
  let bi := s.view.bucketOf S.layout key
  let b := s.view.buckets bi
  if (s.writing bi).isNone ∧ c < b.cellCount ∧ (b.cells c).ver.bitmap.getLsbD i = true ∧
      (((b.cells c).slots i).h1 == (S.layout.keyHash key).h1 &&
        S.layout.slotKeyEqual key ((b.cells c).slots i)) = true then
    some (s.begin bi (s.deleting key c i))
  else none

omit [DecidableEq K] [DecidableEq H] in
/-- Steps 3 to 5 of `MinorRehash`, with the new cells `new`. -/
def rehashing (bi region : Nat) (new : Bucket cellMeta256V2 H S.format.Word) (second : Bool) :
    Writing S where
  todo := S.rehashEvents new region bi second
  publish := .copy bi second
  bucketMeta := ⟨region, new.cellCountShift⟩
  bucket := new.mapEntry (S.format.resolve (S.heap s.content))
  effect := none

omit [DecidableEq K] [DecidableEq H] in
/-- `MinorRehash` into a region that no bucket uses, up to its copy into persistent memory. -/
def beginRehash (bi : Nat) (isgc : Bool) (region : Nat) : Option (PmemRace S) :=
  if (s.writing bi).isNone ∧ bi < s.bucketCount ∧ (∀ i < s.bucketCount, region ∉ s.regions i) ∧
      2 ^ s.newShift bi isgc ≤ S.params.kCellCountLimit then
    match (S.rawBucket s.content (s.buckets_ bi)).rehash S.rawLayout bi (s.newShift bi isgc)
        S.uninit, S.nextCopy s.content bi with
    | .ok (new, _), some second => some (s.begin bi (s.rehashing bi region new second))
    | _, _ => none
  else none

omit [DecidableEq H] in
/-- The operation on bucket `bi` ends: the lock is given back. -/
def finish (bi : Nat) (w : Writing S) : PmemRace S :=
  { s with
    buckets_ := Function.update s.buckets_ bi w.bucketMeta
    before := Function.update s.before bi w.bucket
    writing := Function.update s.writing bi none
    map := w.apply s.map }

omit [DecidableEq H] in
/-- The next store, flush or fence of the operation on bucket `bi`. -/
def advance (bi : Nat) : Option (PmemRace S) :=
  match s.writing bi with
  | none => none
  | some w =>
    match w.todo with
    | [] => none
    | e :: rest =>
      let s := { s with memory := execBy (lineOf S.metaWord) bi s.memory e }
      some (if rest.isEmpty then s.finish bi w
        else { s with writing := Function.update s.writing bi (some { w with todo := rest }) })

omit [DecidableEq H] in
/-- A crash, and `Recover`. -/
def reboot (keep : Addr → Nat) : Option (PmemRace S) :=
  (S.recover (s.image keep) s.bucketCount).map fun buckets_ =>
    { bucketCountShift := s.bucketCountShift
      memory := s.memory.crashed keep
      buckets_ := buckets_
      allocated := s.allocated
      before := fun i => S.bucket (s.image keep) (buckets_ i)
      writing := fun _ => none
      map := s.mapWith (s.survived keep) }

/-- One action. -/
def next : PmemAction K V → Option (PmemRace S)
  | .put key value addr => s.beginPut key value addr
  | .delete key c i => s.beginDelete key c i
  | .rehash bi isgc region => s.beginRehash bi isgc region
  | .step bi => s.advance bi
  | .crash keep => s.reboot keep

variable {s} {s' : PmemRace S}

omit [DecidableEq K] in
theorem beginPut_cases {key : K} {value : V} {addr : Nat}
    (step : s.beginPut key value addr = some s') :
    s.writing (s.view.bucketOf S.layout key) = none ∧
      ∃ res, s.view.searchForInsert S.params searchFuel key = .ok res ∧ res.find = true ∧
        s' = (s.begin (s.view.bucketOf S.layout key) (s.putting key value addr res.targetSlot)).allocate
          (s.view.bucketOf S.layout key) addr (recordLength S key value) := by
  unfold beginPut at step
  dsimp only at step
  split at step
  case h_1 res free search =>
    split at step
    case isTrue found =>
      cases step
      exact ⟨free, res, search, found, rfl⟩
    case isFalse => cases step
  case h_2 => cases step

omit [DecidableEq K] in
theorem beginDelete_cases {key : K} {c i : Nat} (step : s.beginDelete key c i = some s') :
    let b := s.view.buckets (s.view.bucketOf S.layout key)
    s.writing (s.view.bucketOf S.layout key) = none ∧ c < b.cellCount ∧
      (b.cells c).ver.bitmap.getLsbD i = true ∧ (((b.cells c).slots i).h1 == (S.layout.keyHash key).h1 &&
        S.layout.slotKeyEqual key ((b.cells c).slots i)) = true ∧
        s' = s.begin (s.view.bucketOf S.layout key) (s.deleting key c i) := by
  unfold beginDelete at step
  dsimp only at step
  split at step
  case isTrue tests =>
    cases step
    exact ⟨Option.isNone_iff_eq_none.mp tests.1, tests.2.1, tests.2.2.1, tests.2.2.2, rfl⟩
  case isFalse => cases step

omit [DecidableEq K] [DecidableEq H] in
theorem beginRehash_cases {bi region : Nat} {isgc : Bool}
    (step : s.beginRehash bi isgc region = some s') :
    s.writing bi = none ∧ bi < s.bucketCount ∧ (∀ i < s.bucketCount, region ∉ s.regions i) ∧
      2 ^ s.newShift bi isgc ≤ S.params.kCellCountLimit ∧ ∃ new n second,
        (S.rawBucket s.content (s.buckets_ bi)).rehash S.rawLayout bi (s.newShift bi isgc)
          S.uninit = .ok (new, n) ∧ S.nextCopy s.content bi = some second ∧
            s' = s.begin bi (s.rehashing bi region new second) := by
  unfold beginRehash at step
  split at step
  case isFalse => cases step
  case isTrue allowed =>
    obtain ⟨free, inside, fresh, limit⟩ := allowed
    split at step
    case h_2 => cases step
    case h_1 new n second built copy =>
      cases step
      exact ⟨Option.isNone_iff_eq_none.mp free, inside, fresh, limit, new, n, second, built, copy, rfl⟩

omit [DecidableEq H] in
/-- What the next event does. -/
theorem advance_cases {bi : Nat} (step : s.advance bi = some s') :
    ∃ w e rest, s.writing bi = some w ∧ w.todo = e :: rest ∧
      (rest = [] ∧ s' = { s with
          memory := execBy (lineOf S.metaWord) bi s.memory e
          buckets_ := Function.update s.buckets_ bi w.bucketMeta
          before := Function.update s.before bi w.bucket
          writing := Function.update s.writing bi none
          map := w.apply s.map } ∨
        rest ≠ [] ∧ s' = { s with
          memory := execBy (lineOf S.metaWord) bi s.memory e
          writing := Function.update s.writing bi (some { w with todo := rest }) }) := by
  unfold advance at step
  split at step
  case h_1 => cases step
  case h_2 w now =>
    split at step
    case h_1 => cases step
    case h_2 e rest todo =>
      refine ⟨w, e, rest, now, todo, ?_⟩
      cases rest with
      | nil =>
        cases step
        exact Or.inl ⟨rfl, rfl⟩
      | cons e' rest =>
        cases step
        exact Or.inr ⟨List.cons_ne_nil _ _, rfl⟩

end Steps

/-! ## Promises and conditions -/

section Conditions

variable (s : PmemRace S)

/-- Memory that the records of bucket `i` do not use: none that a live slot refers to and, while an
operation is in progress, none that was returned for a record of the bucket at all. -/
def Unused (i addr length : Nat) : Prop :=
  match s.writing i with
  | none => ∀ c < (s.buckets_ i).cellCount, ∀ j < cellMeta256V2.bits,
      ((s.view.buckets i).cells c).live j = true →
        let extent := S.format.extent (S.heap s.content)
          (s.content (.entry (s.buckets_ i).address c j))
        extent.1 + extent.2 ≤ addr ∨ addr + length ≤ extent.1
  | some _ => ∀ k < length, s.allocated (addr + k) ≠ some i

/-- The allocator returns memory for a record that no bucket uses. -/
def Promised : PmemAction K V → Prop
  | .put key value addr => ∀ bytes, S.format.encode key value = some bytes →
      ∀ i < s.bucketCount, s.Unused i addr bytes.length
  | _ => True

/-- The steps whose flushes reach everything they publish, as in `Machine.Meets`. -/
def Meets : PmemAction K V → Prop
  | .put key value addr => ∀ bytes, S.format.encode key value = some bytes →
      Machine.OnOneLine addr bytes.length
  | .rehash bi _ _ => ∀ second, S.nextCopy s.content bi = some second →
      lineOf S.metaWord (.bucketPtr second bi) = lineOf S.metaWord (.curVer bi)
  | _ => True

/-- The rehashes that put every entry on the probe path of its key. -/
def Near : PmemAction K V → Prop
  | .rehash bi isgc _ => (s.view.buckets bi).Near S.layout (s.newShift bi isgc)
  | _ => True

instance (i addr length : Nat) : Decidable (s.Unused i addr length) := by
  unfold Unused
  split <;> infer_instance

instance : (a : PmemAction K V) → Decidable (s.Promised a)
  | .put key value _ => inferInstanceAs (Decidable (∀ bytes ∈ S.format.encode key value, _))
  | .delete _ _ _ | .step _ | .rehash _ _ _ | .crash _ => isTrue trivial

instance : (a : PmemAction K V) → Decidable (s.Meets a)
  | .put key value _ => inferInstanceAs (Decidable (∀ bytes ∈ S.format.encode key value, _))
  | .rehash bi _ _ => inferInstanceAs (Decidable (∀ second ∈ S.nextCopy s.content bi, _))
  | .delete _ _ _ | .step _ | .crash _ => isTrue trivial

instance : (a : PmemAction K V) → Decidable (s.Near a)
  | .rehash _ _ _ => inferInstanceAs (Decidable (LinearProbe.Fits _ _ _ _ _))
  | .put _ _ _ | .delete _ _ _ | .step _ | .crash _ => isTrue trivial

end Conditions

/-! ## The initial state -/

/-- The threads start on a table that `Initialize` has left. -/
def start (machine : Machine S) : PmemRace S where
  bucketCountShift := machine.bucketCountShift
  memory a := ⟨(machine.memory a).durable, (machine.memory a).later, fun _ => 0, fun _ => Nat.zero_le _⟩
  buckets_ := machine.buckets_
  allocated _ := none
  before i := S.bucket machine.content (machine.buckets_ i)
  writing _ := none
  map _ := none

/-- `Recover` after a crash that keeps `keep` finds a table of which `p` holds. -/
def Recovers (s : PmemRace S) (keep : Addr → Nat) (p : Table cellMeta256V2 H E → Prop) : Prop :=
  ∃ buckets', S.recover (s.image keep) s.bucketCount = some buckets' ∧
    p (S.table (s.image keep) s.bucketCountShift buckets')

end PmemRace

end TurboHash.Pmem
