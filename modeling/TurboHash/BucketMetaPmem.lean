import TurboHash.PmemFlat

/-!
# Commits to the array of `BucketMetaPmem`

The `Init` of every entry by the loop of `Initialize`, and then a `Store` of any entries,
each behind the write-back of the cells it publishes, and a crash between any two of their
stores, flushes and fences. Beside the memory runs what every entry has been committed to.

`Extract` of an entry finds the bucket that was committed last, or the one whose `Store` is
in progress, with all of its cells, when the pointer that the operations on this entry
write lies on the line of `cur_ver_`, the only one that is flushed. The first pointer of an
inner entry may lie on the next line: the `Init` of the next entry flushes it.
-/

namespace TurboHash.Pmem

open LineMemory

variable {K V H E : Type}

/-- A bucket as it is committed: its meta, and the content of its cells. -/
structure BucketImage (S : Setup K V H E) where
  bucket : BucketMetaDram
  cells : S.Content

/-- The persistent memory, what the entries of the array have been committed to, and the
`Init` or `Store` in progress: its events, its entry, its bucket, and the `cur_ver_` it
ends with. -/
structure Commits (S : Setup K V H E) where
  bucketCount : Nat
  memory : S.Memory
  committed : Nat → Option (BucketImage S)
  todo : List S.Event
  pending : Option (Nat × BucketImage S × UInt8)

/-- What happens next. A `crash` carries the survivor of each line. -/
inductive CommitAction (S : Setup K V H E)
  | init (bi : Nat) (new : BucketImage S)
  | store (bi : Nat) (new : BucketImage S)
  | step
  | crash (keep : Addr → Nat)

namespace Setup

variable (S : Setup K V H E)

/-- The cells of a new bucket, copied and written back. -/
def writeCells (new : BucketImage S) : List S.Event :=
  S.writeRegion new.bucket.address (bucketSize new.bucket.cellCount).toNat
    (bucketSize new.bucket.cellCount).toInt new.cells

/-- The meta and the cells of `img` are where relation `R` says. -/
def ImageHolds (R : S.Says) (bi : Nat) (img : BucketImage S) : Prop :=
  (∃ second, S.MetaHolds R bi img.bucket second) ∧
    ∀ c < img.bucket.cellCount, ∀ l, InCell img.bucket.address c l → R l (img.cells l)

end Setup

namespace Commits

variable {S : Setup K V H E}

section Steps

variable (s : Commits S)

def content : S.Content := current (lineOf S.metaWord) s.memory

/-- What a crash leaves. -/
def image (keep : Addr → Nat) : S.Content := LineMemory.image (lineOf S.metaWord) s.memory keep

/-- The loop of `Initialize` has reached entry `bi`. -/
def Reaches (bi : Nat) : Prop :=
  ∀ j < s.bucketCount, (s.committed j).isSome = decide (j < bi)

/-- Every entry has been initialised. Only behind this does `Initialize` write the root,
without which there is nothing to recover. -/
def Rooted : Prop := ∀ j < s.bucketCount, (s.committed j).isSome

instance (bi : Nat) : Decidable (s.Reaches bi) :=
  inferInstanceAs (Decidable (∀ j < s.bucketCount, _))

instance : Decidable s.Rooted := inferInstanceAs (Decidable (∀ j < s.bucketCount, _))

/-- `Init`, by the loop of `Initialize`. -/
def beginInit (bi : Nat) (new : BucketImage S) : Option (Commits S) :=
  if bi < s.bucketCount ∧ s.Reaches bi then
    some { s with
      todo := S.writeCells new ++ S.metaInit bi new.bucket
      pending := some (bi, new, 1) }
  else none

/-- `Store` by `MinorRehash`, behind the check of the new cell count. -/
def beginStore (bi : Nat) (new : BucketImage S) : Option (Commits S) :=
  if bi < s.bucketCount ∧ s.Rooted ∧ new.bucket.cellCount ≤ S.params.kCellCountLimit then
    (S.nextCopy s.content bi).map fun second => { s with
      todo := S.writeCells new ++ S.metaStore second bi new.bucket
      pending := some (bi, new, if second then 2 else 1) }
  else none

/-- The entries behind the operation in progress. -/
def settled : Nat → Option (BucketImage S) :=
  match s.pending with
  | none => s.committed
  | some (bi, new, _) => Function.update s.committed bi (some new)

/-- The next store, flush or fence. -/
def advance : Option (Commits S) :=
  match s.todo with
  | [] => none
  | e :: rest => some {
      bucketCount := s.bucketCount
      memory := exec (lineOf S.metaWord) s.memory e
      committed := if rest.isEmpty then s.settled else s.committed
      todo := rest
      pending := if rest.isEmpty then none else s.pending }

/-- A `Store` has happened when its `cur_ver_` has survived. -/
def survived (keep : Addr → Nat) : Bool :=
  match s.pending with
  | none => true
  | some (bi, _, v) =>
    let found : UInt8 := s.image keep (.curVer bi)
    (s.committed bi).isSome && found == v

/-- A crash. -/
def reboot (keep : Addr → Nat) : Commits S where
  bucketCount := s.bucketCount
  memory := crashed s.memory keep
  committed := if s.survived keep then s.settled else s.committed
  todo := []
  pending := none

/-- One action. -/
def next : CommitAction S → Option (Commits S)
  | .init bi new => if s.todo.isEmpty then s.beginInit bi new else none
  | .store bi new => if s.todo.isEmpty then s.beginStore bi new else none
  | .step => s.advance
  | .crash keep => if s.Rooted then some (s.reboot keep) else none

end Steps

/-! ## Promises and conditions -/

section Conditions

variable (s : Commits S)

/-- The allocator returns a region that no committed bucket lies in. -/
def Fresh (new : BucketImage S) : Prop :=
  ∀ i < s.bucketCount, ∀ old ∈ s.committed i, old.bucket.address ≠ new.bucket.address

/-- What the allocator promises. -/
def Promised : CommitAction S → Prop
  | .init _ new => s.Fresh new
  | .store _ new => s.Fresh new
  | _ => True

/-- The flushes of a step reach what it publishes for entry `i`: its pointer lies on the
line of `cur_ver_`, or is the first one of an inner entry, and the size of a bucket that
`Init` publishes fits into an `int`. A step on another entry may be any. -/
def Meets (i : Nat) : CommitAction S → Prop
  | .init bi new => bi = i → new.bucket.cellCount * cellMeta256V2.cellSize < 2 ^ 31 ∧
      (i + 1 < s.bucketCount ∨
        lineOf S.metaWord (.bucketPtr false i) = lineOf S.metaWord (.curVer i))
  | .store bi _ => bi = i → ∀ second, S.nextCopy s.content i = some second →
      lineOf S.metaWord (.bucketPtr second i) = lineOf S.metaWord (.curVer i)
  | _ => True

instance (new : BucketImage S) : Decidable (s.Fresh new) :=
  inferInstanceAs (Decidable (∀ i < s.bucketCount, ∀ old ∈ s.committed i, _))

instance : (a : CommitAction S) → Decidable (s.Promised a)
  | .init _ new | .store _ new => inferInstanceAs (Decidable (s.Fresh new))
  | .step | .crash _ => isTrue trivial

instance (i : Nat) : (a : CommitAction S) → Decidable (s.Meets i a)
  | .init _ _ => inferInstanceAs (Decidable (_ → _ ∧ (_ ∨ _)))
  | .store _ _ => inferInstanceAs (Decidable (_ → ∀ second ∈ S.nextCopy s.content i, _))
  | .step | .crash _ => isTrue trivial

/-- `Extract` after a crash finds a bucket with all of its cells: the one committed last,
or the one whose `Store` is in progress. -/
def Extracts (keep : Addr → Nat) (i : Nat) (old : BucketImage S) : Prop :=
  ∃ img, S.extract (s.image keep) i = some img.bucket ∧
    (∀ c < img.bucket.cellCount, ∀ l, InCell img.bucket.address c l →
      s.image keep l = img.cells l) ∧
    (img = old ∨ ∃ v, s.pending = some (i, img, v))

end Conditions

end Commits

/-! ## One `Init` or `Store` -/

namespace Setup

variable {S : Setup K V H E} {R R' : S.Says} {bi i : Nat} {img old new : BucketImage S}
  {second : Bool} {m : S.Memory} {b : BucketMetaDram} {l : Loc} {events : List S.Event}

theorem ImageHolds.mono (holds : S.ImageHolds R i img) (keep : ∀ l w, R l w → R' l w) :
    S.ImageHolds R' i img := by
  obtain ⟨⟨second, metaHolds⟩, cells⟩ := holds
  exact ⟨⟨second, metaHolds.mono keep⟩, fun c less l inCell => keep _ _ (cells c less l inCell)⟩

theorem elsewhere_of_inCell {r r' c : Nat} (inCell : InCell r c l) (different : r ≠ r') :
    Elsewhere r' bi l := by
  cases inCell <;> exact different

/-- What is kept elsewhere keeps the buckets of the other entries. -/
theorem ImageHolds.others (holds : S.ImageHolds R i img) (different : i ≠ bi)
    (apart : img.bucket.address ≠ new.bucket.address)
    (keep : ∀ l w, Elsewhere new.bucket.address bi l → R l w → R' l w) : S.ImageHolds R' i img := by
  obtain ⟨⟨second, metaHolds⟩, cells⟩ := holds
  refine ⟨⟨second, ?_, ?_, ?_⟩, fun c less l inCell => ?_⟩
  · exact keep (.curVer i) _ different metaHolds.cur
  · exact keep (.bucketPtr second i) _ different metaHolds.ptr
  · exact keep (.cellCountLeftshift second i) _ different metaHolds.shift
  · exact keep l _ (elsewhere_of_inCell inCell apart) (cells c less l inCell)

/-- The copy that `Store` writes is the one that is not in use. -/
theorem nextCopy_of_metaHolds {x : S.Content}
    (holds : S.MetaHolds (fun l w => x l = w) bi b second) : S.nextCopy x bi = some !second := by
  unfold nextCopy
  dsimp only
  rw [holds.cur]
  cases second <;> rfl

theorem avoids_writeCells (elsewhere : Elsewhere new.bucket.address bi l) :
    ∀ e ∈ S.writeCells new, e.Avoids (lineOf S.metaWord) l :=
  avoids_writeRegion elsewhere

/-- What `Init` stores, the pointer aside, is durable. -/
theorem metaInit_durable (bi : Nat) (b : BucketMetaDram) (m : S.Memory) :
    Surely (lineOf S.metaWord) (execAll (lineOf S.metaWord) m (S.metaInit bi b)) (.curVer bi)
        (1 : UInt8) ∧
      Surely (lineOf S.metaWord) (execAll (lineOf S.metaWord) m (S.metaInit bi b))
        (.cellCountLeftshift false bi) b.shift ∧
      current (lineOf S.metaWord) (execAll (lineOf S.metaWord) m (S.metaInit bi b))
        (.bucketPtr false bi) = b.address := by
  have cur := surely_metaInit (S := S) (m := m) (b := b) (l := .curVer bi) rfl
  have shift := surely_metaInit (S := S) (m := m) (b := b) (l := .cellCountLeftshift false bi) rfl
  rw [current_metaInit] at cur shift
  rw [Function.update_of_ne Loc.noConfusion, Function.update_of_ne Loc.noConfusion,
    Function.update_self] at cur
  rw [Function.update_self] at shift
  refine ⟨cur, shift, ?_⟩
  rw [current_metaInit, Function.update_of_ne Loc.noConfusion]
  exact Function.update_self ..

/-- All of the bucket of entry `i` is durable but its first pointer, which lies on the line
of the next entry. -/
structure AwaitsNext (S : Setup K V H E) (m : S.Memory) (i : Nat) (img : BucketImage S) :
    Prop where
  offLine : lineOf S.metaWord (.bucketPtr false i) ≠ lineOf S.metaWord (.curVer i)
  cur : Surely (lineOf S.metaWord) m (.curVer i) (1 : UInt8)
  seen : current (lineOf S.metaWord) m (.bucketPtr false i) = img.bucket.address
  shift : Surely (lineOf S.metaWord) m (.cellCountLeftshift false i) img.bucket.shift
  cells : ∀ c < img.bucket.cellCount, ∀ l, InCell img.bucket.address c l →
    Surely (lineOf S.metaWord) m l (img.cells l)

/-- Operations on the other entries leave it so. -/
theorem AwaitsNext.others (awaits : S.AwaitsNext m i img) (different : i ≠ bi)
    (apart : img.bucket.address ≠ new.bucket.address)
    (avoids : ∀ l, Elsewhere new.bucket.address bi l →
      ∀ e ∈ events, e.Avoids (lineOf S.metaWord) l) :
    S.AwaitsNext (execAll (lineOf S.metaWord) m events) i img where
  offLine := awaits.offLine
  cur := awaits.cur.execAll (avoids (.curVer i) different)
  seen := by
    rw [current_execAll, foldl_apply_of_avoids (avoids (.bucketPtr false i) different)]
    exact awaits.seen
  shift := awaits.shift.execAll (avoids (.cellCountLeftshift false i) different)
  cells c less l inCell :=
    (awaits.cells c less l inCell).execAll (avoids l (elsewhere_of_inCell inCell apart))

theorem avoids_init (elsewhere : Elsewhere new.bucket.address bi l) :
    ∀ e ∈ S.writeCells new ++ S.metaInit bi new.bucket, e.Avoids (lineOf S.metaWord) l := by
  intro e mem
  rcases List.mem_append.mp mem with mem | mem
  · exact avoids_writeCells elsewhere e mem
  · exact avoids_metaInit elsewhere e mem

theorem avoids_store (elsewhere : Elsewhere new.bucket.address bi l) :
    ∀ e ∈ S.writeCells new ++ S.metaStore second bi new.bucket,
      e.Avoids (lineOf S.metaWord) l := by
  intro e mem
  rcases List.mem_append.mp mem with mem | mem
  · exact avoids_writeCells elsewhere e mem
  · exact avoids_metaStore elsewhere e mem

/-- The `Init` of the next entry flushes the pointer. -/
theorem AwaitsNext.init_next (awaits : S.AwaitsNext m i img)
    (apart : img.bucket.address ≠ new.bucket.address) :
    S.ImageHolds (Surely (lineOf S.metaWord) (execAll (lineOf S.metaWord) m
      (S.writeCells new ++ S.metaInit (i + 1) new.bucket))) i img := by
  have behind := awaits.others (Nat.succ_ne_self i).symm apart fun _ elsewhere =>
    avoids_init (S := S) elsewhere
  have same : lineOf S.metaWord (.bucketPtr false i) = lineOf S.metaWord (.curVer (i + 1)) := by
    have offLine := awaits.offLine
    simp only [lineOf, ptrWord, cacheLineSize, ne_eq, Addr.heap.injEq] at offLine ⊢
    rw [if_neg Bool.false_ne_true] at offLine ⊢
    omega
  have ptr : Surely (lineOf S.metaWord) (execAll (lineOf S.metaWord) m
      (S.writeCells new ++ S.metaInit (i + 1) new.bucket)) (.bucketPtr false i)
      img.bucket.address := by
    rw [← behind.seen, execAll_append]
    exact surely_metaInit same
  exact ⟨⟨false, behind.cur, ptr, behind.shift⟩, behind.cells⟩

section Cells

variable (small : new.bucket.cellCount * cellMeta256V2.cellSize < 2 ^ 31)
include small

theorem surely_writeCells {c : Nat} (less : c < new.bucket.cellCount)
    (inCell : InCell new.bucket.address c l) :
    Surely (lineOf S.metaWord) (execAll (lineOf S.metaWord) m (S.writeCells new)) l (new.cells l) :=
  surely_inCell small less inCell

/-- A finished `Init`. -/
theorem imageHolds_or_awaitsNext :
    let last := execAll (lineOf S.metaWord) m (S.writeCells new ++ S.metaInit bi new.bucket)
    S.ImageHolds (Surely (lineOf S.metaWord) last) bi new ∨ S.AwaitsNext last bi new := by
  dsimp only
  rw [execAll_append]
  have cells : ∀ c < new.bucket.cellCount, ∀ l, InCell new.bucket.address c l →
      Surely (lineOf S.metaWord) (execAll (lineOf S.metaWord) (execAll (lineOf S.metaWord) m
        (S.writeCells new)) (S.metaInit bi new.bucket)) l (new.cells l) :=
    fun c less l inCell => (surely_writeCells small less inCell).execAll
      (avoids_metaInit (elsewhere_of_inCell inCell (Nat.succ_ne_self _).symm))
  obtain ⟨cur, shift, seen⟩ := metaInit_durable bi new.bucket
    (execAll (lineOf S.metaWord) m (S.writeCells new))
  by_cases onLine : lineOf S.metaWord (.bucketPtr false bi) = lineOf S.metaWord (.curVer bi)
  · have ptr := surely_metaInit (S := S) (b := new.bucket) onLine
      (m := execAll (lineOf S.metaWord) m (S.writeCells new))
    rw [seen] at ptr
    exact Or.inl ⟨⟨false, cur, ptr, shift⟩, cells⟩
  · exact Or.inr ⟨onLine, cur, seen, shift, cells⟩

/-- A finished `Store`. -/
theorem imageHolds_store
    (onLine : lineOf S.metaWord (.bucketPtr second bi) = lineOf S.metaWord (.curVer bi)) :
    S.ImageHolds (Surely (lineOf S.metaWord) (execAll (lineOf S.metaWord) m
      (S.writeCells new ++ S.metaStore second bi new.bucket))) bi new := by
  rw [execAll_append]
  refine ⟨⟨second, metaHolds_metaStore onLine⟩, fun c less l inCell => ?_⟩
  exact (surely_writeCells small less inCell).execAll
    (avoids_metaStore (elsewhere_of_inCell inCell (Nat.succ_ne_self _).symm))

omit small in
/-- The copy of the meta that is in use is not written. -/
theorem MetaHolds.crash {x : S.Content}
    (metaHolds : S.MetaHolds (Surely (lineOf S.metaWord) m) bi b !second)
    (kept : ∀ l w, (∀ e ∈ S.writeCells new, e.Avoids (lineOf S.metaWord) l) →
      l ≠ .bucketPtr second bi → l ≠ .cellCountLeftshift second bi →
        Surely (lineOf S.metaWord) m l w → x l = w) :
    S.MetaHolds (fun l w => x l = w) bi b (!second) ∧
      x (.curVer bi) ≠ (if second then 2 else 1 : UInt8) := by
  have other : (!second) ≠ second := Bool.not_ne_self second
  -- the copy of the cells writes no meta at all
  have curElsewhere : Elsewhere new.bucket.address (bi + 1) (.curVer bi) := (Nat.succ_ne_self bi).symm
  have ptrElsewhere : Elsewhere new.bucket.address (bi + 1) (.bucketPtr (!second) bi) :=
    (Nat.succ_ne_self bi).symm
  have shiftElsewhere : Elsewhere new.bucket.address (bi + 1) (.cellCountLeftshift (!second) bi) :=
    (Nat.succ_ne_self bi).symm
  have cur := kept (.curVer bi) _ (avoids_writeRegion curElsewhere) Loc.noConfusion
    Loc.noConfusion metaHolds.cur
  refine ⟨⟨cur, ?_, ?_⟩, ?_⟩
  · exact kept (.bucketPtr (!second) bi) _ (avoids_writeRegion ptrElsewhere)
      (fun same => other (Loc.bucketPtr.inj same).1) Loc.noConfusion metaHolds.ptr
  · exact kept (.cellCountLeftshift (!second) bi) _ (avoids_writeRegion shiftElsewhere)
      Loc.noConfusion
      (fun same => other (Loc.cellCountLeftshift.inj same).1) metaHolds.shift
  · rw [cur]
    cases second <;> simp

/-- A crash within `Store`: as long as `cur_ver_` has not survived, what is not written is as it was
before; else the new bucket is there. -/
theorem store_crash {done todo : List S.Event}
    (split : done ++ todo = S.writeCells new ++ S.metaStore second bi new.bucket)
    (onLine : lineOf S.metaWord (.bucketPtr second bi) = lineOf S.metaWord (.curVer bi))
    (keep : Addr → Nat) :
    let x := image (lineOf S.metaWord) (execAll (lineOf S.metaWord) m done) keep
    (∀ l w, (∀ e ∈ S.writeCells new, e.Avoids (lineOf S.metaWord) l) → l ≠ .bucketPtr second bi →
        l ≠ .cellCountLeftshift second bi → Surely (lineOf S.metaWord) m l w → x l = w) ∨
      x (.curVer bi) = (if second then 2 else 1 : UInt8) ∧
        (S.MetaHolds (fun l w => x l = w) bi new.bucket second ∧
          ∀ c < new.bucket.cellCount, ∀ l, InCell new.bucket.address c l → x l = new.cells l) ∧
        ∀ l w, Elsewhere new.bucket.address bi l → Surely (lineOf S.metaWord) m l w → x l = w := by
  dsimp only
  let v : UInt8 := if second then 2 else 1
  let ready : List S.Event := [.store (.bucketPtr second bi) new.bucket.address,
    .store (.cellCountLeftshift second bi) new.bucket.shift, S.flushLoc (.curVer bi), .fence]
  let finish : List S.Event := [S.flushLoc (.curVer bi), .fence]
  have quiet : ∀ e ∈ finish, e.Quiet := by
    intro e mem
    simp only [finish, List.mem_cons, List.not_mem_nil, or_false] at mem
    rcases mem with rfl | rfl <;> trivial
  have split' : done ++ todo = (S.writeCells new ++ ready) ++ .store (.curVer bi) v :: finish := by
    rw [split, List.append_assoc]
    rfl
  have readyAvoids : ∀ l, l ≠ .bucketPtr second bi → l ≠ .cellCountLeftshift second bi →
      ∀ e ∈ ready, e.Avoids (lineOf S.metaWord) l := by
    intro l ptr shift e mem
    simp only [ready, List.mem_cons, List.not_mem_nil, or_false] at mem
    rcases mem with rfl | rfl | rfl | rfl
    · exact ptr.symm
    · exact shift.symm
    · trivial
    · trivial
  have avoidsAll : ∀ l, (∀ e ∈ S.writeCells new, e.Avoids (lineOf S.metaWord) l) →
      l ≠ .bucketPtr second bi → l ≠ .cellCountLeftshift second bi →
      ∀ e ∈ S.writeCells new ++ ready, e.Avoids (lineOf S.metaWord) l := by
    intro l avoids ptr shift e mem
    rcases List.mem_append.mp mem with mem | mem
    · exact avoids e mem
    · exact readyAvoids l ptr shift e mem
  rcases commit_atomic (m := m) (lineOf S.metaWord) quiet split' keep with before | after
  · left
    exact fun l w avoids ptr shift sure => before l w sure (avoidsAll l avoids ptr shift)
  · right
    obtain ⟨cur, line, others⟩ := after
    have seen : ∀ l, current (lineOf S.metaWord) (execAll (lineOf S.metaWord) m
        (S.writeCells new ++ ready)) l = Function.update (Function.update
          (current (lineOf S.metaWord) (execAll (lineOf S.metaWord) m (S.writeCells new)))
          (.bucketPtr second bi) new.bucket.address)
          (.cellCountLeftshift second bi) new.bucket.shift l := by
      intro l
      rw [execAll_append, current_execAll]
      rfl
    refine ⟨cur, ⟨⟨cur, ?_, ?_⟩, fun c less l inCell => ?_⟩, fun l w elsewhere sure => ?_⟩
    · rw [line (.bucketPtr second bi) Loc.noConfusion onLine, seen,
        Function.update_of_ne Loc.noConfusion, Function.update_self]
    · rw [line (.cellCountLeftshift second bi) Loc.noConfusion rfl, seen, Function.update_self]
    · refine others l _ (by cases inCell <;> exact Loc.noConfusion) ?_
      rw [execAll_append]
      refine (surely_writeCells small less inCell).execAll (readyAvoids l ?_ ?_)
      all_goals cases inCell <;> exact Loc.noConfusion
    · obtain ⟨notCur, ptr, shift⟩ := ne_of_elsewhere elsewhere second
      exact others l w notCur (sure.execAll (avoidsAll l (avoids_writeCells elsewhere) ptr shift))

/-- A crash within `Store` leaves the bucket in use, or the new one. -/
theorem imageHolds_crash {done todo : List S.Event}
    (split : done ++ todo = S.writeCells new ++ S.metaStore second bi new.bucket)
    (metaHolds : S.MetaHolds (Surely (lineOf S.metaWord) m) bi old.bucket !second)
    (cells : ∀ c < old.bucket.cellCount, ∀ l, InCell old.bucket.address c l →
      Surely (lineOf S.metaWord) m l (old.cells l))
    (apart : old.bucket.address ≠ new.bucket.address)
    (onLine : lineOf S.metaWord (.bucketPtr second bi) = lineOf S.metaWord (.curVer bi))
    (keep : Addr → Nat) :
    let x := image (lineOf S.metaWord) (execAll (lineOf S.metaWord) m done) keep
    x (.curVer bi) ≠ (if second then 2 else 1 : UInt8) ∧ S.ImageHolds (fun l w => x l = w) bi old ∨
      x (.curVer bi) = (if second then 2 else 1 : UInt8) ∧
        S.ImageHolds (fun l w => x l = w) bi new := by
  rcases store_crash small split onLine keep with kept | ⟨cur, ⟨metaNew, cellsNew⟩, -⟩
  · left
    obtain ⟨metaOld, different⟩ := metaHolds.crash kept
    refine ⟨different, ⟨!second, metaOld⟩, fun c less l inCell => ?_⟩
    have cellElsewhere : Elsewhere new.bucket.address bi l := elsewhere_of_inCell inCell apart
    refine kept l _ (avoids_writeRegion cellElsewhere) ?_ ?_ (cells c less l inCell)
    all_goals cases inCell <;> exact Loc.noConfusion
  · exact Or.inr ⟨cur, ⟨second, metaNew⟩, cellsNew⟩

end Cells

end Setup

/-! ## The invariant -/

namespace Commits

variable {S : Setup K V H E} {s s' s₀ : Commits S} {m₀ : S.Memory} {done : List S.Event}
  {bi i : Nat} {old new img : BucketImage S} {v : UInt8} {second : Bool} {a : CommitAction S}

/-- Memory `m` holds the bucket of entry `i`, durable but for a first pointer that awaits
the `Init` of the next of the `entries`. -/
def Held (s : Commits S) (entries : Nat → Option (BucketImage S)) (m : S.Memory) (i : Nat)
    (img : BucketImage S) : Prop :=
  S.ImageHolds (Surely (lineOf S.metaWord) m) i img ∨
    i + 1 < s.bucketCount ∧ entries (i + 1) = none ∧ S.AwaitsNext m i img

/-- An `Init` has made the events `done`. -/
structure Initing (s : Commits S) (i : Nat) (done : List S.Event) (bi : Nat)
    (new : BucketImage S) : Prop where
  reaches : s.Reaches bi
  split : done ++ s.todo = S.writeCells new ++ S.metaInit bi new.bucket
  own : bi = i → new.bucket.cellCount * cellMeta256V2.cellSize < 2 ^ 31 ∧ (i + 1 < s.bucketCount ∨
    lineOf S.metaWord (.bucketPtr false i) = lineOf S.metaWord (.curVer i))

/-- A `Store` that started on memory `m₀` has made the events `done`. -/
structure Storing (s : Commits S) (i : Nat) (m₀ : S.Memory) (done : List S.Event) (bi : Nat)
    (new : BucketImage S) (v : UInt8) (second : Bool) : Prop where
  rooted : s.Rooted
  small : new.bucket.cellCount * cellMeta256V2.cellSize < 2 ^ 31
  split : done ++ s.todo = S.writeCells new ++ S.metaStore second bi new.bucket
  version : v = if second then 2 else 1
  own : bi = i → (∃ old, s.committed i = some old ∧
      S.MetaHolds (Surely (lineOf S.metaWord) m₀) i old.bucket !second) ∧
    lineOf S.metaWord (.bucketPtr second i) = lineOf S.metaWord (.curVer i)

/-- An `Init` or a `Store` that started on memory `m₀` is in progress. -/
structure Running (s : Commits S) (i : Nat) (m₀ : S.Memory) (done : List S.Event) (bi : Nat)
    (new : BucketImage S) (v : UInt8) : Prop where
  inside : bi < s.bucketCount
  unfinished : s.todo ≠ []
  memory : s.memory = execAll (lineOf S.metaWord) m₀ done
  pending : s.pending = some (bi, new, v)
  fresh : s.Fresh new
  holds : ∀ img ∈ s.committed i, s.Held s.committed m₀ i img
  op : s.Initing i done bi new ∨ ∃ second, s.Storing i m₀ done bi new v second

/-- No `Init` or `Store` is in progress. -/
structure Idle (s : Commits S) (i : Nat) : Prop where
  todo : s.todo = []
  pending : s.pending = none
  holds : ∀ img ∈ s.committed i, s.Held s.committed s.memory i img

/-- The invariant of entry `i`; of the others it says nothing. -/
def Sound (s : Commits S) (i : Nat) : Prop :=
  s.Idle i ∨ ∃ m₀ done bi new v, s.Running i m₀ done bi new v

theorem Sound.idle (sound : s.Sound i) (empty : s.todo.isEmpty = true) : s.Idle i := by
  rcases sound with idle | ⟨m₀, done, bi, new, v, run⟩
  · exact idle
  · exact absurd empty (by simpa using run.unfinished)

/-- Behind the root no pointer awaits the `Init` of a neighbour. -/
theorem Held.durable (held : s.Held s.committed m₀ i img) (rooted : s.Rooted) :
    S.ImageHolds (Surely (lineOf S.metaWord) m₀) i img := by
  rcases held with holds | ⟨less, absent, -⟩
  · exact holds
  · have present := rooted (i + 1) less
    rw [absent] at present
    cases present

/-- The events of an operation leave the other entries alone. -/
theorem Running.avoids (run : s.Running i m₀ done bi new v) {l : Loc}
    (elsewhere : Elsewhere new.bucket.address bi l) :
    ∀ e ∈ done ++ s.todo, e.Avoids (lineOf S.metaWord) l := by
  rcases run.op with initing | ⟨second, storing⟩
  · rw [initing.split]
    exact Setup.avoids_init elsewhere
  · rw [storing.split]
    exact Setup.avoids_store elsewhere

theorem Running.others (run : s.Running i m₀ done bi new v) (less : i < s.bucketCount)
    (different : i ≠ bi) (found : s.committed i = some img)
    (holds : S.ImageHolds (Surely (lineOf S.metaWord) m₀) i img) {events : List S.Event}
    (part : ∀ e ∈ events, e ∈ done ++ s.todo) :
    S.ImageHolds (Surely (lineOf S.metaWord) (execAll (lineOf S.metaWord) m₀ events)) i img :=
  holds.others different (run.fresh i less img found)
    fun _ _ elsewhere sure => sure.execAll fun e mem => run.avoids elsewhere e (part e mem)

/-- The memory at the end of an operation on entry `i` itself. -/
theorem Running.finished_own (run : s.Running i m₀ done i new v) :
    s.Held (Function.update s.committed i (some new))
      (execAll (lineOf S.metaWord) m₀ (done ++ s.todo)) i new := by
  rcases run.op with initing | ⟨second, storing⟩
  · obtain ⟨small, durable⟩ := initing.own rfl
    rw [initing.split]
    refine (Setup.imageHolds_or_awaitsNext small).imp_right fun awaits => ?_
    -- the pointer lies on the next line, so there is a next entry, and its turn comes
    have next := durable.resolve_right awaits.offLine
    refine ⟨next, ?_, awaits⟩
    rw [Function.update_of_ne (Nat.succ_ne_self i)]
    have absent := initing.reaches (i + 1) next
    rwa [decide_eq_false (by omega), Option.isSome_eq_false_iff,
      Option.isNone_iff_eq_none] at absent
  · left
    rw [storing.split]
    exact Setup.imageHolds_store storing.small (storing.own rfl).2

/-- The memory at the end of an operation on another entry: that on the next one may be the
`Init` which flushes the pointer. -/
theorem Running.finished_others (run : s.Running i m₀ done bi new v) (less : i < s.bucketCount)
    (different : i ≠ bi) (found : s.committed i = some img) :
    s.Held (Function.update s.committed bi (some new))
      (execAll (lineOf S.metaWord) m₀ (done ++ s.todo)) i img := by
  rcases run.holds img found with holds | ⟨next, absent, awaits⟩
  · exact Or.inl (run.others less different found holds fun _ mem => mem)
  · rcases run.op with initing | ⟨second, storing⟩
    · by_cases neighbour : bi = i + 1
      · subst neighbour
        left
        rw [initing.split]
        exact awaits.init_next (run.fresh i less img found)
      · right
        refine ⟨next, ?_, awaits.others different (run.fresh i less img found)
          fun _ elsewhere => run.avoids elsewhere⟩
        rwa [Function.update_of_ne (Ne.symm neighbour)]
    · have present := storing.rooted (i + 1) next
      rw [absent] at present
      cases present

/-- The memory at the end of an operation. -/
theorem Running.finished (run : s.Running i m₀ done bi new v) (less : i < s.bucketCount)
    (found : s.settled i = some img) :
    s.Held s.settled (execAll (lineOf S.metaWord) m₀ (done ++ s.todo)) i img := by
  have settles : s.settled = Function.update s.committed bi (some new) := by
    rw [settled, run.pending]
  rw [settles] at found ⊢
  by_cases same : bi = i
  · subst same
    rw [Function.update_self] at found
    cases found
    exact run.finished_own
  · have different : i ≠ bi := Ne.symm same
    rw [Function.update_of_ne different] at found
    exact run.finished_others less different found

theorem Sound.advance (less : i < s.bucketCount) (sound : s.Sound i)
    (step : s.advance = some s') : s'.Sound i := by
  unfold Commits.advance at step
  split at step
  case h_1 => cases step
  case h_2 e rest todo =>
    cases step
    rcases sound with idle | ⟨m₀, done, bi, new, v, run⟩
    · rw [idle.todo] at todo
      cases todo
    · have memory : exec (lineOf S.metaWord) s.memory e =
          execAll (lineOf S.metaWord) m₀ (done ++ [e]) := by
        rw [execAll_append, run.memory]
        rfl
      have split : done ++ s.todo = (done ++ [e]) ++ rest := by
        rw [todo, List.append_assoc]
        rfl
      cases rest with
      | nil =>
        left
        rw [List.append_nil] at split
        refine ⟨rfl, rfl, fun img found => ?_⟩
        have held := run.finished less found
        rw [split, ← memory] at held
        exact held
      | cons e' rest =>
        right
        refine ⟨m₀, done ++ [e], bi, new, v, run.inside, List.cons_ne_nil _ _, memory, run.pending,
          run.fresh, run.holds, ?_⟩
        rcases run.op with initing | ⟨second, storing⟩
        · exact Or.inl ⟨initing.reaches, split ▸ initing.split, initing.own⟩
        · exact Or.inr ⟨second, storing.rooted, storing.small, split ▸ storing.split,
            storing.version, storing.own⟩

/-- Behind the root the operation in progress is a `Store`. -/
theorem Running.storing (run : s.Running i m₀ done bi new v) (rooted : s.Rooted) :
    ∃ second, s.Storing i m₀ done bi new v second := by
  rcases run.op with initing | storing
  · have absent := initing.reaches bi run.inside
    rw [rooted bi run.inside, decide_eq_false (lt_irrefl bi)] at absent
    cases absent
  · exact storing

/-- What a crash leaves holds the bucket before the operation, or also its own if its
`cur_ver_` has survived. -/
theorem Sound.survives (sound : s.Sound i) (rooted : s.Rooted) (keep : Addr → Nat)
    (less : i < s.bucketCount)
    (found : (if s.survived keep then s.settled else s.committed) i = some img) :
    S.ImageHolds (fun l w => s.image keep l = w) i img := by
  rcases sound with idle | ⟨m₀, done, bi, new, v, run⟩
  · have same : s.settled = s.committed := by
      rw [settled, idle.pending]
    rw [same, ite_self] at found
    exact ((idle.holds img found).durable rooted).mono fun l w sure => sure.image keep
  · have seen : s.image keep =
        LineMemory.image (lineOf S.metaWord) (execAll (lineOf S.metaWord) m₀ done) keep :=
      congrArg (LineMemory.image (lineOf S.metaWord) · keep) run.memory
    have settles : s.settled = Function.update s.committed bi (some new) := by
      rw [settled, run.pending]
    have survives : s.survived keep =
        ((s.committed bi).isSome && decide (s.image keep (.curVer bi) = v)) := by
      rw [survived, run.pending]
      rfl
    rw [settles] at found
    obtain ⟨second, storing⟩ := run.storing rooted
    by_cases same : bi = i
    · subst same
      obtain ⟨⟨old, present, inUse⟩, onLine⟩ := storing.own rfl
      have before := (run.holds old present).durable rooted
      have crash := Setup.imageHolds_crash storing.small storing.split inUse before.2
        (run.fresh bi less old present) onLine keep
      dsimp only at crash
      rw [← seen, ← storing.version] at crash
      rw [ite_apply, Function.update_self, survives, present, Option.isSome_some,
        Bool.true_and] at found
      rcases crash with ⟨other, holds⟩ | ⟨same, holds⟩
      · rw [if_neg (by simpa using other)] at found
        cases found
        exact holds
      · rw [if_pos (decide_eq_true same)] at found
        cases found
        exact holds
    · have different : i ≠ bi := Ne.symm same
      have found : s.committed i = some img := by
        rw [ite_apply, Function.update_of_ne different, ite_self] at found
        exact found
      rw [seen]
      exact (run.others less different found ((run.holds img found).durable rooted)
        fun e mem => List.mem_append_left _ mem).mono fun l w sure => sure.image keep

theorem Sound.reboot (sound : s.Sound i) (rooted : s.Rooted) (keep : Addr → Nat)
    (less : i < s.bucketCount) : (s.reboot keep).Sound i := by
  refine Or.inl ⟨rfl, rfl, fun img found => Or.inl ?_⟩
  refine (sound.survives rooted keep less found).mono fun l w same => ?_
  subst same
  exact surely_crashed

theorem Idle.beginInit (idle : s.Idle i) (fresh : s.Fresh new) (meets : s.Meets i (.init bi new))
    (step : s.beginInit bi new = some s') : s'.Sound i := by
  unfold Commits.beginInit at step
  split at step
  case isFalse => cases step
  case isTrue allowed =>
    obtain ⟨inside, reaches⟩ := allowed
    cases step
    refine Or.inr ⟨s.memory, [], bi, new, 1, inside, ?_, rfl, rfl, fresh, idle.holds,
      Or.inl ⟨reaches, rfl, meets⟩⟩
    exact List.append_ne_nil_of_right_ne_nil _ (List.cons_ne_nil _ _)

theorem Idle.beginStore (less : i < s.bucketCount) (idle : s.Idle i) (fresh : s.Fresh new)
    (meets : s.Meets i (.store bi new)) (step : s.beginStore bi new = some s') : s'.Sound i := by
  unfold Commits.beginStore at step
  split at step
  case isFalse => cases step
  case isTrue allowed =>
    obtain ⟨inside, rooted, limit⟩ := allowed
    obtain ⟨second, copy, rfl⟩ := Option.map_eq_some_iff.mp step
    have small : new.bucket.cellCount * cellMeta256V2.cellSize < 2 ^ 31 := by
      have size : cellMeta256V2.cellSize = 256 := rfl
      have bound : kTurboCellCountLimit = 32768 := rfl
      have := S.params.limit_le
      rw [size]
      omega
    refine Or.inr ⟨s.memory, [], bi, new, _, inside, ?_, rfl, rfl, fresh, idle.holds,
      Or.inr ⟨second, rooted, small, rfl, rfl, ?_⟩⟩
    · exact List.append_ne_nil_of_right_ne_nil _ (List.cons_ne_nil _ _)
    · intro same
      subst same
      obtain ⟨old, present⟩ := Option.isSome_iff_exists.mp (rooted bi inside)
      obtain ⟨⟨used, metaHolds⟩, -⟩ := (idle.holds old present).durable rooted
      have seen : S.MetaHolds (fun l w => s.content l = w) bi old.bucket used :=
        metaHolds.mono fun l w sure => sure.current
      have next := Setup.nextCopy_of_metaHolds seen
      rw [copy, Option.some_inj] at next
      refine ⟨⟨old, present, ?_⟩, meets rfl second copy⟩
      rwa [next, Bool.not_not]

/-- No action changes the length of the array. -/
theorem next_bucketCount (step : s.next a = some s') : s'.bucketCount = s.bucketCount := by
  cases a with
  | init bi new =>
    simp only [Commits.next, Commits.beginInit, Option.ite_none_right_eq_some,
      Option.some_inj] at step
    obtain ⟨-, -, rfl⟩ := step
    rfl
  | store bi new =>
    simp only [Commits.next, Commits.beginStore, Option.ite_none_right_eq_some,
      Option.map_eq_some_iff] at step
    obtain ⟨-, -, second, -, rfl⟩ := step
    rfl
  | step =>
    change s.advance = some s' at step
    unfold Commits.advance at step
    split at step
    case h_1 => cases step
    case h_2 =>
      cases step
      rfl
  | crash keep =>
    simp only [Commits.next, Option.ite_none_right_eq_some, Option.some_inj] at step
    obtain ⟨-, rfl⟩ := step
    rfl

/-- Each action keeps the invariant. -/
theorem Sound.next (less : i < s.bucketCount) (sound : s.Sound i) (promised : s.Promised a)
    (meets : s.Meets i a) (step : s.next a = some s') : s'.Sound i := by
  cases a with
  | init bi new =>
    rw [Commits.next] at step
    split at step
    case isTrue empty => exact (sound.idle empty).beginInit promised meets step
    case isFalse => cases step
  | store bi new =>
    rw [Commits.next] at step
    split at step
    case isTrue empty => exact (sound.idle empty).beginStore less promised meets step
    case isFalse => cases step
  | step => exact sound.advance less step
  | crash keep =>
    rw [Commits.next] at step
    split at step
    case isTrue rooted =>
      cases step
      exact sound.reboot rooted keep less
    case isFalse => cases step

/-- A sound state lets `Extract` find the committed bucket. -/
theorem Sound.extracts (sound : s.Sound i) (rooted : s.Rooted) (keep : Addr → Nat)
    (less : i < s.bucketCount) (found : s.committed i = some old) : s.Extracts keep i old := by
  obtain ⟨img, survives, origin⟩ : ∃ img,
      (if s.survived keep then s.settled else s.committed) i = some img ∧
        (img = old ∨ ∃ v, s.pending = some (i, img, v)) := by
    split
    case isFalse => exact ⟨old, found, Or.inl rfl⟩
    case isTrue =>
      cases pending : s.pending with
      | none => exact ⟨old, by rw [settled, pending]; exact found, Or.inl rfl⟩
      | some op =>
        obtain ⟨bi, new, v⟩ := op
        rw [settled, pending]
        by_cases same : i = bi
        · subst same
          exact ⟨new, Function.update_self .., Or.inr ⟨v, rfl⟩⟩
        · exact ⟨old, (Function.update_of_ne same ..).trans found, Or.inl rfl⟩
  obtain ⟨⟨second, metaHolds⟩, cells⟩ := sound.survives rooted keep less survives
  exact ⟨img, metaHolds.extract_eq, cells, origin⟩

/-! ## Runs -/

/-- In every run of `Initialize`, `Store` and crashes whose `Init` and `Store` of entry `i`
reach what they publish, whatever happens to the other entries, a crash at any moment behind
the root lets `Extract` find the bucket the entry was committed to with all of its cells, or
the one whose `Store` is in progress. -/
theorem commits_atomic {bucketCount : Nat} {memory : S.Memory}
    {steps : List (Commits S × CommitAction S)}
    (run : Transition.Run Commits.next ⟨bucketCount, memory, fun _ => none, [], none⟩ steps s)
    (inside : i < bucketCount) (promised : ∀ p ∈ steps, p.1.Promised p.2)
    (meets : ∀ p ∈ steps, p.1.Meets i p.2) :
    (s.todo = [] → s.pending = none) ∧
      (s.Rooted → ∃ old, s.committed i = some old ∧ ∀ keep, s.Extracts keep i old) := by
  obtain ⟨sound, less⟩ : s.Sound i ∧ i < s.bucketCount :=
    run.invariant (G := fun s a => s.Promised a ∧ s.Meets i a)
      (I := fun s => s.Sound i ∧ i < s.bucketCount)
      (fun _ _ _ ⟨sound, less⟩ good step =>
        ⟨sound.next less good.1 good.2 step, (next_bucketCount step).symm ▸ less⟩)
      (fun p mem => ⟨promised p mem, meets p mem⟩)
      ⟨Or.inl ⟨rfl, rfl, fun img found => by cases found⟩, inside⟩
  refine ⟨fun finished => (sound.idle (by simp [finished])).pending, fun rooted => ?_⟩
  obtain ⟨old, present⟩ := Option.isSome_iff_exists.mp (rooted i less)
  exact ⟨old, present, fun keep => sound.extracts rooted keep less present⟩

end Commits

/-! ## Concrete runs -/

/-- 64-bit keys and values, a heap in use before, and the array from word `metaWord` on. -/
def arraySetup (metaWord : Nat) : Setup UInt64 UInt64 UInt64 UInt64 :=
  flatSetup hashInt id kTurboCellCountLimit le_rfl metaWord usedHeap
    fun _ => Table.zeroCell (flatLayout hashInt id)

namespace Commits

variable {metaWord : Nat}

/-- No entry initialised. -/
def unused (metaWord bucketCount : Nat) : Commits (arraySetup metaWord) :=
  ⟨bucketCount, fun _ => .clean usedHeap, fun _ => none, [], none⟩

/-- A bucket of zeroed cells in a region. -/
def zeroedIn (region shift : Nat) : BucketImage (arraySetup metaWord) :=
  ⟨⟨region, shift⟩, (arraySetup metaWord).zeroContent⟩

/-- The loop of `Initialize`, with the regions from 0 on. -/
def initializeRun (bucketCount shift : Nat) : List (CommitAction (arraySetup metaWord)) :=
  (List.range bucketCount).flatMap fun bi => .init bi (zeroedIn bi shift) :: List.replicate 8 .step

/-- `Store` from start to end. -/
def storeRun (bi region shift : Nat) : List (CommitAction (arraySetup metaWord)) :=
  .store bi (zeroedIn region shift) :: List.replicate 10 .step

/-- Stores of entries 1, 2 and 5 of an array, a crash in the middle of another store of
entry 1, and a store of entry 2 that has not returned. -/
def storesAndCrash : List (CommitAction (arraySetup 0)) :=
  initializeRun 8 1 ++ storeRun 1 8 2 ++ storeRun 2 9 2 ++ storeRun 5 10 2 ++ storeRun 1 11 2 ++
    (storeRun 1 12 3).take 8 ++ [.crash fun _ => 1] ++ (storeRun 2 13 2).take 9

/-- The result for entry 1. The first pointer of entry 5 and the second one of entry 2 lie
on the next line. -/
theorem commits_atomic_storesAndCrash :
    ∃ (s : Commits (arraySetup 0)) (steps : List (Commits (arraySetup 0) ×
        CommitAction (arraySetup 0))),
      Transition.Run Commits.next (unused 0 8) steps s ∧
        (s.committed 1).map BucketImage.bucket = some ⟨11, 2⟩ ∧
        ∃ old, s.committed 1 = some old ∧ ∀ keep, s.Extracts keep 1 old := by
  have ran : (Transition.execute (Transition.guarded Commits.next fun s a =>
      s.Promised a ∧ s.Meets 1 a) (unused 0 8) storesAndCrash).map (fun s =>
        ((s.committed 1).map BucketImage.bucket, decide s.Rooted)) = some (some ⟨11, 2⟩, true) := by
    decide +kernel
  obtain ⟨s, executed, result⟩ := Option.map_eq_some_iff.mp ran
  obtain ⟨found, rooted⟩ := Prod.mk.inj result
  obtain ⟨steps, run, met⟩ := Transition.exists_run_of_guarded executed
  exact ⟨s, steps, run, found, (commits_atomic (i := 1) run (by decide)
    (fun p mem => (met p mem).1) fun p mem => (met p mem).2).2 (of_decide_eq_true rooted)⟩

/-- With only what has surely been written back, entry `i` is not what it has been committed
to: its meta is another one, or the version word of its first cell. -/
def Lost (s : Commits (arraySetup metaWord)) (i : Nat) : Prop :=
  s.Rooted ∧ s.todo.isEmpty = true ∧ s.pending.isNone = true ∧ ∃ old ∈ s.committed i,
    (arraySetup metaWord).extract (s.image fun _ => 0) i ≠ some old.bucket ∨
      0 < old.bucket.cellCount ∧
        (s.image fun _ => 0) (.ver old.bucket.address 0) ≠ old.cells (.ver old.bucket.address 0)

instance (s : Commits (arraySetup metaWord)) (i : Nat) : Decidable (s.Lost i) :=
  inferInstanceAs (Decidable (_ ∧ _ ∧ _ ∧ ∃ old ∈ s.committed i, _))

theorem Lost.not_extracts {s : Commits (arraySetup metaWord)} {i : Nat} (lost : s.Lost i) :
    s.Rooted ∧ s.todo = [] ∧ ∃ old, s.committed i = some old ∧ ¬ s.Extracts (fun _ => 0) i old := by
  obtain ⟨rooted, finished, idle, old, found, wrong⟩ := lost
  refine ⟨rooted, List.isEmpty_iff.mp finished, old, found, fun ⟨img, extracted, cells, origin⟩ => ?_⟩
  have same : img = old := by
    rcases origin with same | ⟨v, pending⟩
    · exact same
    · rw [pending] at idle
      cases idle
  subst same
  rcases wrong with other | ⟨positive, other⟩
  · exact other extracted
  · exact other (cells 0 positive _ .ver)

/-- What a crash leaves behind a finished `Store` of entry 2 of 4, whose second pointer is
the first word of a line; behind the `Init` of a single entry whose first pointer is; and
behind the `Init` of a bucket of 2 GiB. -/
theorem commits_not_atomic :
    (∃ s, Transition.execute Commits.next (unused 0 4) (initializeRun 4 1 ++ storeRun 2 4 1) =
        some s ∧ s.Rooted ∧ s.todo = [] ∧
      ∃ old, s.committed 2 = some old ∧ ¬ s.Extracts (fun _ => 0) 2 old) ∧
    (∃ s, Transition.execute Commits.next (unused 7 1) (initializeRun 1 1) = some s ∧
      s.Rooted ∧ s.todo = [] ∧ ∃ old, s.committed 0 = some old ∧ ¬ s.Extracts (fun _ => 0) 0 old) ∧
    ∃ s, Transition.execute Commits.next (unused 0 1) (initializeRun 1 23) = some s ∧
      s.Rooted ∧ s.todo = [] ∧ ∃ old, s.committed 0 = some old ∧ ¬ s.Extracts (fun _ => 0) 0 old := by
  have lost : ∀ metaWord bucketCount actions i, (Transition.execute Commits.next
      (unused metaWord bucketCount) actions).map (fun s => decide (s.Lost i)) = some true →
        ∃ s, Transition.execute Commits.next (unused metaWord bucketCount) actions = some s ∧
          s.Rooted ∧ s.todo = [] ∧ ∃ old, s.committed i = some old ∧
            ¬ s.Extracts (fun _ => 0) i old := by
    intro metaWord bucketCount actions i ran
    obtain ⟨s, executed, lost⟩ := Option.map_eq_some_iff.mp ran
    exact ⟨s, executed, (of_decide_eq_true lost).not_extracts⟩
  exact ⟨lost _ _ _ _ (by decide +kernel), lost _ _ _ _ (by decide +kernel),
    lost _ _ _ _ (by decide +kernel)⟩

end Commits

end TurboHash.Pmem
