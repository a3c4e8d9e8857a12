import TurboHash.PmemSound
import TurboHash.RehashRefinement

/-!
# A new bucket and its meta become durable

`MinorRehash` writes the new bucket back as a whole and switches the `BucketMetaPmem` to
it with one more flush and fence. It flushes the line of `cur_ver_` only, so the pointer
is durable when it lies on that line. `Initialize` writes its buckets back through an
`int`, which is their size as long as they take less than 2 GiB.
-/

namespace TurboHash.Pmem

open LineMemory

variable {K V H E : Type} {S : Setup K V H E}

/-! ## Lines of a region -/

/-- The location lies in cell `c` of region `r`, at a tag or slot that exists. -/
inductive InCell (r c : Nat) : Loc → Prop
  | ver : InCell r c (.ver r c)
  | tag {i : Nat} (inside : i < cellMeta256V2.bits) : InCell r c (.tag r c i)
  | h1 {i : Nat} (inside : i < cellMeta256V2.bits) : InCell r c (.h1 r c i)
  | entry {i : Nat} (inside : i < cellMeta256V2.bits) : InCell r c (.entry r c i)

/-- A length of `count` cells covers the cells. -/
theorem memLines_of_inCell {mw r c count : Nat} {len : Int} {l : Loc} (inCell : InCell r c l)
    (less : c < count) (covers : ((count * cellMeta256V2.cellSize : Nat) : Int) ≤ len) :
    memLines r len (lineOf mw l) = true := by
  have size : cellMeta256V2.cellSize = 256 := rfl
  have bits : cellMeta256V2.bits = 16 := rfl
  cases inCell with
  | ver =>
    simp only [lineOf, memLines, decide_eq_true_eq, true_and]
    rw [size] at covers ⊢
    omega
  | tag inside | h1 inside | entry inside =>
    simp only [lineOf, memLines, decide_eq_true_eq, true_and, cacheLineSize]
    rw [size] at covers ⊢
    omega

/-- The locations outside a region, and outside the meta of a bucket. -/
def Elsewhere (r bi : Nat) : Loc → Prop
  | .ver r' _ => r' ≠ r
  | .tag r' _ _ => r' ≠ r
  | .h1 r' _ _ => r' ≠ r
  | .entry r' _ _ => r' ≠ r
  | .curVer bi' => bi' ≠ bi
  | .cellCountLeftshift _ bi' => bi' ≠ bi
  | .bucketPtr _ bi' => bi' ≠ bi
  | .byte _ => True

theorem ne_of_elsewhere {r bi : Nat} {l : Loc} (elsewhere : Elsewhere r bi l) (second : Bool) :
    l ≠ .curVer bi ∧ l ≠ .bucketPtr second bi ∧ l ≠ .cellCountLeftshift second bi := by
  refine ⟨?_, ?_, ?_⟩
  all_goals
    intro same
    subst same
    exact elsewhere rfl

theorem memLines_of_elsewhere {mw r bi : Nat} {len : Int} {l : Loc} (elsewhere : Elsewhere r bi l) :
    memLines r len (lineOf mw l) = false := by
  cases l with
  | ver r' c => exact decide_eq_false fun same => elsewhere same.1
  | tag r' c i => exact decide_eq_false fun same => elsewhere same.1
  | h1 r' c i => exact decide_eq_false fun same => elsewhere same.1
  | entry r' c i => exact decide_eq_false fun same => elsewhere same.1
  | curVer | cellCountLeftshift | bucketPtr | byte => rfl

namespace Setup

variable {r bi : Nat} {m : S.Memory} {x : S.Content} {copied flushed : Int} {l : Loc}

/-- A cell outside the region. -/
theorem CellHolds.elsewhere {R R' : S.Says} {region c : Nat} {cell : Cell cellMeta256V2 H E}
    (holds : S.CellHolds R r c cell) (apart : r ≠ region)
    (kept : ∀ l w, Elsewhere region bi l → R l w → R' l w) : S.CellHolds R' r c cell := by
  refine ⟨kept _ _ apart holds.ver, holds.wf, fun i alive => ?_⟩
  obtain ⟨key, value, slot, tag, addr, slotHolds⟩ := holds.stored i alive
  exact ⟨key, value, slot, tag, addr, slotHolds.mono (fun w => kept _ w apart)
    (fun w => kept _ w apart) (fun w => kept _ w apart) fun a w => kept _ w trivial⟩

theorem avoids_writeRegion (elsewhere : Elsewhere r bi l) :
    ∀ e ∈ S.writeRegion r copied flushed x, e.Avoids (lineOf S.metaWord) l := by
  intro e mem
  simp only [writeRegion, List.mem_cons, List.not_mem_nil, or_false] at mem
  rcases mem with rfl | rfl | rfl
  · exact memLines_of_elsewhere elsewhere
  · trivial
  · trivial

/-- What is copied and covered by the flush is durable. -/
theorem surely_writeRegion (isCopied : memLines r copied (lineOf S.metaWord l) = true)
    (isFlushed : memLines r flushed (lineOf S.metaWord l) = true) :
    Surely (lineOf S.metaWord) (execAll (lineOf S.metaWord) m (S.writeRegion r copied flushed x)) l
      (x l) := by
  have seen : current (lineOf S.metaWord) (exec (lineOf S.metaWord) m
      (.copy (memLines r copied) x)) l = x l := by
    rw [current_exec]
    exact if_pos isCopied
  rw [← seen]
  exact surely_of_flush_fence isFlushed

/-! ## `BucketMetaPmem` -/

variable {b : BucketMetaDram} {second : Bool}

theorem avoids_metaStore (elsewhere : Elsewhere r bi l) :
    ∀ e ∈ S.metaStore second bi b, e.Avoids (lineOf S.metaWord) l := by
  intro e mem
  simp only [metaStore, List.mem_cons, List.not_mem_nil, or_false] at mem
  rcases mem with rfl | rfl | rfl | rfl | rfl | rfl | rfl
  case inl | inr.inl | inr.inr.inr.inr.inl =>
    intro same
    subst same
    exact elsewhere rfl
  all_goals trivial

/-- `Store` makes the new meta durable when its pointer lies on the line of `cur_ver_`. -/
theorem metaHolds_metaStore
    (onLine : lineOf S.metaWord (.bucketPtr second bi) = lineOf S.metaWord (.curVer bi)) :
    S.MetaHolds (Surely (lineOf S.metaWord)
      (execAll (lineOf S.metaWord) m (S.metaStore second bi b))) bi b second := by
  obtain ⟨cur, line, -⟩ := commit_settled (lineOf S.metaWord) (m := m) (l := .curVer bi)
    (v := (if second then 2 else 1 : UInt8)) [.store (.bucketPtr second bi) b.address,
      .store (.cellCountLeftshift second bi) b.shift, S.flushLoc (.curVer bi), .fence]
  refine ⟨cur, ?_, ?_⟩
  · have ptr := line (.bucketPtr second bi) Loc.noConfusion onLine
    have other : Loc.bucketPtr second bi ≠ .cellCountLeftshift second bi := Loc.noConfusion
    have value : current (lineOf S.metaWord) (execAll (lineOf S.metaWord) m
        [.store (.bucketPtr second bi) b.address, .store (.cellCountLeftshift second bi) b.shift,
          S.flushLoc (.curVer bi), .fence]) (.bucketPtr second bi) = b.address := by
      rw [current_execAll]
      exact (Function.update_of_ne other b.shift _).trans (Function.update_self ..)
    rwa [value] at ptr
  · have shift := line (.cellCountLeftshift second bi) Loc.noConfusion rfl
    have value : current (lineOf S.metaWord) (execAll (lineOf S.metaWord) m
        [.store (.bucketPtr second bi) b.address, .store (.cellCountLeftshift second bi) b.shift,
          S.flushLoc (.curVer bi), .fence]) (.cellCountLeftshift second bi) = b.shift := by
      rw [current_execAll]
      exact Function.update_self ..
    rwa [value] at shift

/-- The 32-bit size of a bucket of less than 2 GiB is its size, also as an `int`. -/
theorem bucketSize_of_lt {count : Nat} (small : count * cellMeta256V2.cellSize < 2 ^ 31) :
    (bucketSize count).toNat = count * cellMeta256V2.cellSize ∧
      (bucketSize count).toInt = (count * cellMeta256V2.cellSize : Nat) := by
  have size : cellMeta256V2.cellSize = 256 := rfl
  rw [size] at small ⊢
  have natural : (bucketSize count).toNat = count * 256 := by
    unfold bucketSize
    rw [size, BitVec.toNat_mul, BitVec.toNat_ofNat, BitVec.toNat_ofNat]
    rw [Nat.mod_eq_of_lt (a := count) (by omega), Nat.mod_eq_of_lt (a := 256) (by omega),
      Nat.mod_eq_of_lt (by omega)]
  refine ⟨natural, ?_⟩
  rw [BitVec.toInt_eq_toNat_of_lt (by omega), natural]

/-- The cells of a region that has been written and written back. -/
theorem surely_inCell {count c : Nat} (small : count * cellMeta256V2.cellSize < 2 ^ 31)
    (less : c < count) (inCell : InCell r c l) :
    Surely (lineOf S.metaWord) (execAll (lineOf S.metaWord) m (S.writeRegion r
      (bucketSize count).toNat (bucketSize count).toInt x)) l (x l) := by
  obtain ⟨natural, int⟩ := bucketSize_of_lt small
  rw [natural, int]
  exact surely_writeRegion (memLines_of_inCell inCell less le_rfl)
    (memLines_of_inCell inCell less le_rfl)

/-! ## The cells of a rehashed bucket -/

/-- The new cells hold the entries of the old ones, word by word. -/
theorem cellHolds_of_rehashed {R R' : S.Says} {shift : Nat} {old : BucketMetaDram}
    {new : Bucket cellMeta256V2 H S.format.Word}
    {placed : List (InfoPair H S.format.Word × LinearProbe.Entry)}
    (holds : ∀ c < old.cellCount, S.CellHolds R old.address c (S.cell x old.address c))
    (seen : ∀ l w, R l w → x l = w)
    (rehashed : Rehashed S.rawLayout bi shift (S.rawBucket x old) new placed)
    (written : ∀ c < new.cellCount, ∀ l, InCell r c l → R' l (S.bucketContent new l))
    (kept : ∀ a w, R (.byte a) w → R' (.byte a) w) :
    ∀ c < new.cellCount, S.CellHolds R' r c
      ((new.cells c).mapEntry (S.format.resolve (S.heap x))) := by
  intro c less
  refine ⟨written c less _ .ver, (rehashed.filled c).version_wf, fun j alive => ?_⟩
  have within : j < cellMeta256V2.bits := Version.lt_bits_of_live alive
  obtain ⟨p, mem, -, -, slot, tag, -⟩ := rehashed.exists_of_live (i := j) alive
  have versions : ∀ c < (S.rawBucket x old).cellCount,
      ((S.rawBucket x old).cells c).ver.WellFormed := fun c less => (holds c less).wf
  obtain ⟨c₀, less₀, j₀, alive₀, same⟩ :=
    (mem_liveInfos_of_ver versions).mp (rehashed.mem_infos mem)
  obtain ⟨key, value, stored, h2, addr, old⟩ := (holds c₀ less₀).stored j₀ alive₀
  -- the two words and the tag, from the old slot to the new one
  have h1 : ((new.cells c).slots j).h1 = (S.layout.keyHash key).h1 := by
    rw [slot, same]
    exact seen _ _ old.h1
  have entry : ((new.cells c).slots j).entry = S.format.word value addr := by
    rw [slot, same]
    exact seen _ _ old.entry
  have newTag : (new.cells c).tags j = (S.layout.keyHash key).h2 := by
    rw [tag, same]
    exact seen _ _ old.tag
  refine ⟨key, value, ?_, newTag, addr, ?_⟩
  · have decoded : S.format.resolve (S.heap x) (S.format.word value addr) =
        (S.layout.slotOf key value).entry :=
      S.format.resolve_word _ _ _ _ _ fun bytes => old.lineRecordAt fun _ _ => seen _ _
    refine HashSlot.ext ?_ ?_
    · exact h1.trans (S.layout.slotOf_h1 key value).symm
    · change S.format.resolve _ ((new.cells c).slots j).entry = _
      rw [entry, decoded]
  · refine ⟨?_, ?_, ?_, old.fits, fun bytes encoded k b some => kept _ _ (old.record bytes encoded k b some)⟩
    · exact newTag ▸ written c less _ (.tag within)
    · exact h1 ▸ written c less _ (.h1 within)
    · exact entry ▸ written c less _ (.entry within)

/-- The new bucket binds what the old one has bound, if no entry lands too far from its home. -/
theorem placed_rehashed {shift n : Nat} {b : BucketMetaDram}
    {new : Bucket cellMeta256V2 H S.format.Word}
    (built : (S.rawBucket x b).rehash S.rawLayout bi shift S.uninit = .ok (new, n))
    (was : ((S.rawBucket x b).mapEntry (S.format.resolve (S.heap x))).Placed S.layout)
    (near : ((S.rawBucket x b).mapEntry (S.format.resolve (S.heap x))).Near S.layout shift) :
    (new.mapEntry (S.format.resolve (S.heap x))).Placed S.layout ∧
      ∀ key value, (new.mapEntry (S.format.resolve (S.heap x))).Binds S.layout key value ↔
        ((S.rawBucket x b).mapEntry (S.format.resolve (S.heap x))).Binds S.layout key value := by
  obtain ⟨placed, rehashed, near_iff⟩ := Bucket.rehash_disp_lt_iff built (k := maxProbeLen)
  have viewed := Rehashed.mapEntry (L := S.layout) (S.format.resolve (S.heap x)) rfl rehashed
  have close : ∀ p ∈ placed, p.2.disp < maxProbeLen := by
    refine near_iff.mpr ?_
    rw [← Bucket.homes_mapEntry (L := S.layout) (S.format.resolve (S.heap x)) rfl]
    exact near
  refine ⟨viewed.placed_of_near was fun p mem => ?_, fun key value => viewed.binds_iff was.wf⟩
  obtain ⟨raw, rawMem, rfl⟩ := List.mem_map.mp mem
  exact close raw rawMem

end Setup

/-! ## `MinorRehash` -/

namespace Machine

variable {s s' : Machine S} {bi region : Nat} {isgc : Bool}

/-- What `rehash` has done. -/
theorem rehash_cases (step : s.rehash bi isgc region = some s') :
    bi < s.bucketCount ∧ (∀ i < s.bucketCount, (s.buckets_ i).address ≠ region) ∧
      2 ^ s.newShift bi isgc ≤ S.params.kCellCountLimit ∧ ∃ new n second,
        (S.rawBucket s.content (s.buckets_ bi)).rehash S.rawLayout bi (s.newShift bi isgc)
          S.uninit = .ok (new, n) ∧ S.nextCopy s.content bi = some second ∧
        let memory := execAll (lineOf S.metaWord) s.memory (S.rehashEvents new region bi second)
        let buckets_ := Function.update s.buckets_ bi ⟨region, new.cellCountShift⟩
        let now : Snapshot K V H E := ⟨S.table (current (lineOf S.metaWord) memory)
          s.bucketCountShift buckets_, s.after.map⟩
        s' = { s with memory := memory, buckets_ := buckets_, before := now, after := now } := by
  unfold Machine.rehash at step
  split at step
  case isFalse => cases step
  case isTrue allowed =>
    obtain ⟨inside, fresh, limit⟩ := allowed
    split at step
    case h_2 => cases step
    case h_1 new n second built copy =>
      cases step
      exact ⟨inside, fresh, limit, new, n, second, built, copy, rfl⟩

/-- The table with the new bucket, with the records behind its slots. -/
def rehashedTable (s : Machine S) (bi : Nat) (new : Bucket cellMeta256V2 H S.format.Word) :
    Table cellMeta256V2 H E :=
  s.view.setBucket bi (new.mapEntry (S.format.resolve (S.heap s.content)))

section Rehashed

variable {new : Bucket cellMeta256V2 H S.format.Word} {shift n : Nat}
  (built : (S.rawBucket s.content (s.buckets_ bi)).rehash S.rawLayout bi shift S.uninit = .ok (new, n))
include built

/-- What holds the new cells and their meta, and has kept the rest, holds the new table. -/
theorem holds_rehashed {R : S.Says} {second : Bool}
    (holds : S.Holds (Surely (lineOf S.metaWord) s.memory) s.buckets_ s.view)
    (inside : bi < s.bucketCount) (fresh : ∀ i < s.bucketCount, (s.buckets_ i).address ≠ region)
    (kept : ∀ l w, Elsewhere region bi l → Surely (lineOf S.metaWord) s.memory l w → R l w)
    (metaHolds : S.MetaHolds R bi ⟨region, new.cellCountShift⟩ second)
    (written : ∀ c < new.cellCount, ∀ l, InCell region c l → R l (S.bucketContent new l)) :
    S.Holds R (Function.update s.buckets_ bi ⟨region, new.cellCountShift⟩)
      (s.rehashedTable bi new) := by
  obtain ⟨placed, rehashed, -⟩ := Bucket.rehash_disp_lt_iff built (k := maxProbeLen)
  constructor
  · intro i less
    by_cases eq : i = bi
    · subst eq
      rw [Function.update_self]
      exact ⟨second, metaHolds⟩
    · rw [Function.update_of_ne eq]
      obtain ⟨second', metaHolds⟩ := holds.metas i less
      exact ⟨second', kept _ _ eq metaHolds.cur, kept _ _ eq metaHolds.ptr,
        kept _ _ eq metaHolds.shift⟩
  · intro i less j less' same
    by_cases eq : i = bi
    · by_cases eq' : j = bi
      · rw [eq, eq']
      · rw [eq, Function.update_self, Function.update_of_ne eq'] at same
        exact absurd same.symm (fresh j less')
    · by_cases eq' : j = bi
      · rw [eq', Function.update_self, Function.update_of_ne eq] at same
        exact absurd same (fresh i less)
      · rw [Function.update_of_ne eq, Function.update_of_ne eq'] at same
        exact holds.apart i less j less' same
  · intro i less
    rw [rehashedTable, Table.setBucket_buckets]
    by_cases eq : i = bi
    · rw [if_pos eq, eq, Function.update_self]
      rfl
    · rw [if_neg eq, Function.update_of_ne eq]
      exact holds.shift i less
  · intro i less c within
    rw [rehashedTable, Table.setBucket_buckets] at within ⊢
    by_cases eq : i = bi
    · rw [if_pos eq] at within ⊢
      rw [eq, Function.update_self]
      exact Setup.cellHolds_of_rehashed (holds.cells bi inside) (fun l w sure => sure.current) rehashed
        written (fun a w sure => kept _ _ trivial sure) c within
    · rw [if_neg eq] at within ⊢
      rw [Function.update_of_ne eq]
      exact (holds.cells i less c within).elsewhere (fresh i less) kept

/-- The new table holds the map of the old one, if no entry lands too far from its home. -/
theorem refines_rehashed {map : K → Option V} (refines : s.view.Refines S.layout map)
    (inside : bi < s.bucketCount) (near : (s.view.buckets bi).Near S.layout shift) :
    (s.rehashedTable bi new).Refines S.layout map := by
  obtain ⟨placed, binds⟩ := Setup.placed_rehashed built (refines.valid.placed bi inside) near
  exact refines.replaceBucket rfl rfl placed binds

end Rehashed

/-- A bucket that `MinorRehash` builds takes less than 2 GiB. -/
theorem small_of_limit {shift : Nat} (limit : 2 ^ shift ≤ S.params.kCellCountLimit) :
    2 ^ shift * cellMeta256V2.cellSize < 2 ^ 31 := by
  have size : cellMeta256V2.cellSize = 256 := rfl
  have bound : kTurboCellCountLimit = 32768 := rfl
  have := S.params.limit_le
  rw [size]
  omega

/-- `MinorRehash` leaves the new table surely in memory. -/
theorem Idle.holds_after_rehash (idle : s.Idle)
    (count : s.after.table.bucketCountShift = s.bucketCountShift) (inside : bi < s.bucketCount)
    (fresh : ∀ i < s.bucketCount, (s.buckets_ i).address ≠ region)
    (limit : 2 ^ s.newShift bi isgc ≤ S.params.kCellCountLimit)
    {new : Bucket cellMeta256V2 H S.format.Word} {n : Nat} {second : Bool}
    (built : (S.rawBucket s.content (s.buckets_ bi)).rehash S.rawLayout bi (s.newShift bi isgc)
      S.uninit = .ok (new, n))
    (onLine : lineOf S.metaWord (.bucketPtr second bi) = lineOf S.metaWord (.curVer bi)) :
    S.Holds (Surely (lineOf S.metaWord) (execAll (lineOf S.metaWord) s.memory
      (S.rehashEvents new region bi second)))
      (Function.update s.buckets_ bi ⟨region, new.cellCountShift⟩) (s.rehashedTable bi new) := by
  obtain ⟨-, holds⟩ := idle.view count
  obtain ⟨placed, rehashed, -⟩ := Bucket.rehash_disp_lt_iff built (k := maxProbeLen)
  have small : new.cellCount * cellMeta256V2.cellSize < 2 ^ 31 := by
    rw [rehashed.cellCount_eq]
    exact small_of_limit limit
  have kept : ∀ l w, Elsewhere region bi l → Surely (lineOf S.metaWord) s.memory l w →
      Surely (lineOf S.metaWord) (execAll (lineOf S.metaWord) s.memory
        (S.rehashEvents new region bi second)) l w := by
    intro l w elsewhere sure
    refine sure.execAll fun e mem => ?_
    rcases List.mem_append.mp mem with mem | mem
    · exact Setup.avoids_writeRegion elsewhere e mem
    · exact Setup.avoids_metaStore elsewhere e mem
  have metaHolds : S.MetaHolds (Surely (lineOf S.metaWord) (execAll (lineOf S.metaWord) s.memory
      (S.rehashEvents new region bi second))) bi ⟨region, new.cellCountShift⟩ second := by
    rw [Setup.rehashEvents, execAll_append]
    exact Setup.metaHolds_metaStore onLine
  refine holds_rehashed built holds inside fresh kept metaHolds fun c within l inCell => ?_
  rw [Setup.rehashEvents, execAll_append]
  refine (Setup.surely_inCell small within inCell).execAll ?_
  -- the stores of the meta are elsewhere than any region
  cases inCell <;> exact Setup.avoids_metaStore (r := region + 1) (Nat.succ_ne_self _).symm

/-- `MinorRehash` leaves the new table surely in memory, and it keeps the map unless an
entry lands too far from its home. -/
theorem Idle.rehash (idle : s.Idle) (count : s.after.table.bucketCountShift = s.bucketCountShift)
    (meets : s.Meets (.rehash bi isgc region)) (step : s.rehash bi isgc region = some s') :
    s'.Sound ∧ (s.Near (.rehash bi isgc region) → ∀ map : K → Option V,
      s.view.Refines S.layout map → s'.after.table.Refines S.layout map) := by
  obtain ⟨inside, fresh, limit, new, n, second, built, copy, rfl⟩ := rehash_cases step
  have hybrid := idle.holds_after_rehash count inside fresh limit built (meets second copy)
  have seen : S.Holds (fun l w => current (lineOf S.metaWord) (execAll (lineOf S.metaWord) s.memory
      (S.rehashEvents new region bi second)) l = w)
      (Function.update s.buckets_ bi ⟨region, new.cellCountShift⟩) (s.rehashedTable bi new) :=
    hybrid.mono fun l w sure => sure.current
  have agrees := seen.agrees fun i _ => rfl
  refine ⟨⟨rfl, rfl, Or.inl ⟨idle.todo, idle.pending, rfl, hybrid.congr agrees fun i _ => rfl⟩⟩, ?_⟩
  intro near map refines
  exact agrees.refines (refines_rehashed built refines inside near)

end Machine

/-! ## `Initialize` -/

namespace Setup

variable {m : S.Memory} {shift n : Nat}

theorem avoids_metaInit {r bi : Nat} {b : BucketMetaDram} {l : Loc} (elsewhere : Elsewhere r bi l) :
    ∀ e ∈ S.metaInit bi b, e.Avoids (lineOf S.metaWord) l := by
  intro e mem
  simp only [metaInit, List.mem_cons, List.not_mem_nil, or_false] at mem
  rcases mem with rfl | rfl | rfl | rfl | rfl
  case inl | inr.inl | inr.inr.inl =>
    intro same
    subst same
    exact elsewhere rfl
  all_goals trivial

theorem avoids_initializeBucket {l : Loc} (elsewhere : Elsewhere n n l) :
    ∀ e ∈ S.initializeBucket shift n, e.Avoids (lineOf S.metaWord) l := by
  intro e mem
  rcases List.mem_append.mp mem with mem | mem
  · exact avoids_writeRegion elsewhere e mem
  · exact avoids_metaInit elsewhere e mem

theorem current_metaInit {bi : Nat} {b : BucketMetaDram} :
    current (lineOf S.metaWord) (execAll (lineOf S.metaWord) m (S.metaInit bi b)) =
      Function.update (Function.update (Function.update (current (lineOf S.metaWord) m)
        (.curVer bi) (1 : UInt8)) (.bucketPtr false bi) b.address)
          (.cellCountLeftshift false bi) b.shift :=
  current_execAll _

/-- `Init` makes everything on the line of `cur_ver_` durable. -/
theorem surely_metaInit {bi : Nat} {b : BucketMetaDram} {l : Loc}
    (onLine : lineOf S.metaWord l = lineOf S.metaWord (.curVer bi)) :
    Surely (lineOf S.metaWord) (execAll (lineOf S.metaWord) m (S.metaInit bi b)) l
      (current (lineOf S.metaWord) (execAll (lineOf S.metaWord) m (S.metaInit bi b)) l) := by
  have stored : current (lineOf S.metaWord) (execAll (lineOf S.metaWord) m
      [.store (.curVer bi) (1 : UInt8), .store (.bucketPtr false bi) b.address,
        .store (.cellCountLeftshift false bi) b.shift]) =
      current (lineOf S.metaWord) (execAll (lineOf S.metaWord) m (S.metaInit bi b)) := by
    rw [current_metaInit]
    exact current_execAll _
  rw [← stored]
  exact surely_of_flushLine_fence onLine

/-- What the first `n` rounds of `Initialize` leave. The pointer of a bucket may lie on the
line of the next meta, and is durable with that. -/
structure Initialized (S : Setup K V H E) (m : S.Memory) (shift n : Nat) : Prop where
  cell : ∀ i < n, ∀ c < 2 ^ shift, ∀ l, InCell i c l →
    Surely (lineOf S.metaWord) m l (S.zeroContent l)
  cur : ∀ i < n, Surely (lineOf S.metaWord) m (.curVer i) (1 : UInt8)
  shift : ∀ i < n, Surely (lineOf S.metaWord) m (.cellCountLeftshift false i) shift
  seen : ∀ i < n, current (lineOf S.metaWord) m (.bucketPtr false i) = i
  ptr : ∀ i < n, (i + 1 < n ∨
    lineOf S.metaWord (.bucketPtr false i) = lineOf S.metaWord (.curVer i)) →
      Surely (lineOf S.metaWord) m (.bucketPtr false i) i

theorem Initialized.next (initialized : S.Initialized m shift n)
    (small : 2 ^ shift * cellMeta256V2.cellSize < 2 ^ 31) :
    S.Initialized (execAll (lineOf S.metaWord) m (S.initializeBucket shift n)) shift (n + 1) := by
  have kept : ∀ l w, Elsewhere n n l → Surely (lineOf S.metaWord) m l w → Surely
      (lineOf S.metaWord) (execAll (lineOf S.metaWord) m (S.initializeBucket shift n)) l w :=
    fun l w elsewhere sure => sure.execAll (avoids_initializeBucket elsewhere)
  have seen : ∀ l, Elsewhere n n l → current (lineOf S.metaWord) (execAll (lineOf S.metaWord) m
      (S.initializeBucket shift n)) l = current (lineOf S.metaWord) m l := by
    intro l elsewhere
    rw [current_execAll]
    exact foldl_apply_of_avoids (avoids_initializeBucket elsewhere)
  have onLine : ∀ l, lineOf S.metaWord l = lineOf S.metaWord (.curVer n) → Surely
      (lineOf S.metaWord) (execAll (lineOf S.metaWord) m (S.initializeBucket shift n)) l (current
        (lineOf S.metaWord) (execAll (lineOf S.metaWord) m (S.initializeBucket shift n)) l) := by
    intro l same
    rw [initializeBucket, execAll_append]
    exact surely_metaInit same
  have new : current (lineOf S.metaWord) (execAll (lineOf S.metaWord) m
        (S.initializeBucket shift n)) (.curVer n) = (1 : UInt8) ∧
      current (lineOf S.metaWord) (execAll (lineOf S.metaWord) m
        (S.initializeBucket shift n)) (.cellCountLeftshift false n) = shift ∧
      current (lineOf S.metaWord) (execAll (lineOf S.metaWord) m
        (S.initializeBucket shift n)) (.bucketPtr false n) = n := by
    rw [initializeBucket, execAll_append, current_metaInit]
    refine ⟨?_, Function.update_self .., ?_⟩
    · rw [Function.update_of_ne Loc.noConfusion, Function.update_of_ne Loc.noConfusion]
      exact Function.update_self ..
    · rw [Function.update_of_ne Loc.noConfusion]
      exact Function.update_self ..
  obtain ⟨newCur, newShift, newPtr⟩ := new
  constructor
  · intro i less c within l inCell
    by_cases eq : i = n
    · subst eq
      rw [initializeBucket, execAll_append]
      refine (surely_inCell small within inCell).execAll ?_
      cases inCell <;> exact avoids_metaInit (r := i + 1) (Nat.succ_ne_self _).symm
    · refine kept l _ ?_ (initialized.cell i (by omega) c within l inCell)
      cases inCell <;> exact eq
  · intro i less
    by_cases eq : i = n
    · subst eq
      have sure := onLine (.curVer i) rfl
      rwa [newCur] at sure
    · exact kept (.curVer i) _ eq (initialized.cur i (by omega))
  · intro i less
    by_cases eq : i = n
    · subst eq
      have sure := onLine (.cellCountLeftshift false i) rfl
      rwa [newShift] at sure
    · exact kept (.cellCountLeftshift false i) _ eq (initialized.shift i (by omega))
  · intro i less
    by_cases eq : i = n
    · subst eq
      exact newPtr
    · rw [seen (.bucketPtr false i) eq]
      exact initialized.seen i (by omega)
  · intro i less durable
    by_cases eq : i = n
    · subst eq
      have sure := onLine (.bucketPtr false i) (durable.resolve_left (by omega))
      rwa [newPtr] at sure
    · by_cases own : i + 1 < n ∨
          lineOf S.metaWord (.bucketPtr false i) = lineOf S.metaWord (.curVer i)
      · exact kept (.bucketPtr false i) _ eq (initialized.ptr i (by omega) own)
      · -- the pointer lies on the line of the meta that this round flushes
        have last : i + 1 = n := by omega
        have same : lineOf S.metaWord (.bucketPtr false i) = lineOf S.metaWord (.curVer n) := by
          simp only [lineOf, ptrWord, cacheLineSize, Addr.heap.injEq, not_or] at own ⊢
          rw [if_neg Bool.false_ne_true] at own ⊢
          omega
        have sure := onLine (.bucketPtr false i) same
        rwa [seen (.bucketPtr false i) eq, initialized.seen i (by omega)] at sure

/-- The memory that `Initialize` leaves for buckets of less than 2 GiB. -/
theorem initialized_initialMemory (small : 2 ^ shift * cellMeta256V2.cellSize < 2 ^ 31) (n : Nat) :
    S.Initialized (S.initialMemory n shift) shift n := by
  induction n with
  | zero => exact ⟨by simp, by simp, by simp, by simp, by simp⟩
  | succ n ih =>
    have rounds : S.initialMemory (n + 1) shift =
        execAll (lineOf S.metaWord) (S.initialMemory n shift) (S.initializeBucket shift n) := by
      unfold initialMemory
      rw [List.range_succ, List.flatMap_append, execAll_append]
      simp
    rw [rounds]
    exact ih.next small

end Setup

/-- The last element of the meta array has its first pointer on the line of its
`cur_ver_`. -/
def Setup.LastOnLine (S : Setup K V H E) (bucketCount : Nat) : Prop :=
  lineOf S.metaWord (.bucketPtr false (bucketCount - 1)) =
    lineOf S.metaWord (.curVer (bucketCount - 1))

/-- `Initialize` leaves the empty table surely in memory. -/
theorem Machine.Sound.initTable {bucketCount cellCount : UInt32} {s : Machine S}
    (fresh : S.initTable bucketCount cellCount = some s)
    (small : cellCount.toNat * cellMeta256V2.cellSize < 2 ^ 31)
    (onLine : S.LastOnLine bucketCount.toNat) :
    s.Sound ∧ s.before = s.after ∧ s.after.table.Refines S.layout s.after.map := by
  unfold Setup.initTable at fresh
  split at fresh
  case isFalse => cases fresh
  case isTrue powers =>
    obtain ⟨buckets, cells⟩ := Bool.and_eq_true_iff.mp powers
    rw [Table.toNat_of_isPowerOfTwo buckets] at onLine
    rw [Table.toNat_of_isPowerOfTwo cells] at small
    cases fresh
    generalize ctz bucketCount.toBitVec = bucketShift at onLine ⊢
    generalize ctz cellCount.toBitVec = shift at small ⊢
    have initialized := Setup.initialized_initialMemory (S := S) small (2 ^ bucketShift)
    have zeroed : S.Holds (Surely (lineOf S.metaWord) (S.initialMemory (2 ^ bucketShift) shift))
        (fun bi => ⟨bi, shift⟩)
        ⟨bucketShift, fun _ => ⟨shift, fun _ => Table.zeroCell S.layout⟩, 0⟩ := by
      refine ⟨fun i inside => ?_, fun i _ j _ same => same, fun i _ => rfl,
        fun i inside c less => ?_⟩
      · refine ⟨false, initialized.cur i inside, initialized.ptr i inside ?_,
          initialized.shift i inside⟩
        have inside : i < 2 ^ bucketShift := inside
        rcases Nat.lt_or_ge (i + 1) (2 ^ bucketShift) with before | last
        · exact Or.inl before
        · right
          rw [show i = 2 ^ bucketShift - 1 by omega]
          exact onLine
      · exact ⟨initialized.cell i inside c less _ .ver, Version.WellFormed.zero,
          fun j alive => by simp [Table.zeroCell, Cell.live] at alive⟩
    have seen : S.Holds (fun l w => current (lineOf S.metaWord)
        (S.initialMemory (2 ^ bucketShift) shift) l = w) _ _ :=
      zeroed.mono fun l w sure => sure.current
    have agrees := seen.agrees fun i _ => rfl
    refine ⟨⟨rfl, rfl, Or.inl ⟨rfl, rfl, rfl, zeroed.congr agrees fun i _ => rfl⟩⟩, rfl, ?_⟩
    exact agrees.refines (Table.Refines.of_zeroed fun i _ c _ => rfl)

end TurboHash.Pmem
