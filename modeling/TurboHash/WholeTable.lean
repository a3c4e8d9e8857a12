import TurboHash.IterationWords
import TurboHash.Owners

/-!
# The passes over the whole table

`MinorReHashAll` and `GCAll` divide the buckets among four threads, `IterateAllCallback`
among eight, or as many as there are buckets. Each share has `bucket_count_ / threads`
buckets, so fewer than four buckets are no share for any of the four
(`passesCover_iff`).
-/

namespace TurboHash

open Simulation

variable {F : CellFormat} {K V H E : Type}

/-- The memory of a bucket. -/
def Bucket.memory (b : Bucket F H E) : BucketMemory F H E := ⟨b.cellCount, b.cells⟩

namespace Table

section Passes

variable (t : Table F H E)

/-- The buckets of the thread `w`, from `start_b` to `end_b`. -/
def share (threads w : Nat) : List Nat :=
  List.range' (t.bucketCount / threads * w) (t.bucketCount / threads)

/-- The number of threads of `IterateAllCallback`. -/
def iterateThreads : Nat := min 8 t.bucketCount

/-- `IterateAllCallback`: what its threads pass to the callback, one share after the other. -/
def iterateAllCallback : Option (List (InfoPair H E)) :=
  (((List.range t.iterateThreads).flatMap (t.share t.iterateThreads)).mapM fun i =>
    WordIterator.toList (t.buckets i).memory (UInt32.ofNat i)).map List.flatten

/-- The live entries of the table, each once. -/
def liveEntries : List (InfoPair H E) :=
  (List.range t.bucketCount).flatMap fun i => (t.buckets i).memory.liveEntries (UInt32.ofNat i)

/-- The shares do not overlap and are together all of the buckets. -/
structure Covers (threads : Nat) : Prop where
  disjoint : ∀ v < threads, ∀ w < threads, v ≠ w →
    (t.share threads v).Disjoint (t.share threads w)
  exactly : ∀ i, (∃ w < threads, i ∈ t.share threads w) ↔ i < t.bucketCount

/-- The passes reach every bucket once, and do there what they are for. -/
structure PassesCover (P : TableParams F K V H E) : Prop where
  rehash : t.Covers 4
  iterate : t.Covers t.iterateThreads
  doubles : ∀ t' n, t.rehashAll P false = .ok (t', n) → n = t.liveEntries.length ∧
    ∀ i < t.bucketCount, (t'.buckets i).cellCount = 2 * (t.buckets i).cellCount
  collects : ∀ t' n, t.rehashAll P true = .ok (t', n) → n = t.liveEntries.length ∧
    ∀ i < t.bucketCount, ∀ c, ((t'.buckets i).cells c).ver.bitmapDeleted = 0
  visits : t.iterateAllCallback = some t.liveEntries

end Passes

/-! ## The shares -/

section Shares

variable {t : Table F H E} {threads v w i : Nat}

theorem mem_share : i ∈ t.share threads w ↔
    t.bucketCount / threads * w ≤ i ∧ i < t.bucketCount / threads * (w + 1) := by
  rw [share, List.mem_range'_1, Nat.mul_succ]

theorem disjoint_share (different : v ≠ w) :
    (t.share threads v).Disjoint (t.share threads w) := by
  intro i one other
  rw [mem_share] at one other
  rcases Nat.lt_or_gt_of_ne different with less | more
  · exact absurd ((Nat.mul_le_mul_left _ less).trans other.1) (Nat.not_le.mpr one.2)
  · exact absurd ((Nat.mul_le_mul_left _ more).trans one.1) (Nat.not_le.mpr other.2)

/-- Shares of a number of threads that divides the bucket count. -/
theorem covers_of_dvd (divides : threads ∣ t.bucketCount) : t.Covers threads where
  disjoint _ _ _ _ different := disjoint_share different
  exactly i := by
    have whole : t.bucketCount / threads * threads = t.bucketCount := Nat.div_mul_cancel divides
    constructor
    · rintro ⟨w, within, mem⟩
      exact ((mem_share.mp mem).2.trans_le (Nat.mul_le_mul_left _ within)).trans_eq whole
    · intro inside
      rw [← whole, Nat.mul_comm] at inside
      have positive : 0 < t.bucketCount / threads := by
        by_contra zero
        simp [Nat.eq_zero_of_not_pos zero] at inside
      refine ⟨i / (t.bucketCount / threads), Nat.div_lt_of_lt_mul (Nat.mul_comm _ _ ▸ inside),
        mem_share.mpr ⟨Nat.mul_div_le _ _, Nat.lt_mul_div_succ i positive⟩⟩

/-- Four threads cover the buckets if and only if there are four. -/
theorem covers_four_iff : t.Covers 4 ↔ 4 ≤ t.bucketCount := by
  constructor
  · intro covers
    by_contra few
    obtain ⟨w, -, mem⟩ := (covers.exactly 0).mpr t.bucketCount_pos
    have none : t.bucketCount / 4 = 0 := Nat.div_eq_of_lt (Nat.not_le.mp few)
    rw [mem_share, none, Nat.zero_mul, Nat.zero_mul] at mem
    exact absurd mem.2 (Nat.lt_irrefl 0)
  · intro four
    have shift : 2 ≤ t.bucketCountShift := (Nat.pow_le_pow_iff_right one_lt_two).mp four
    exact covers_of_dvd (Nat.pow_dvd_pow 2 shift)

theorem covers_iterateThreads (t : Table F H E) : t.Covers t.iterateThreads :=
  covers_of_dvd (Dvd.intro_left _ t.share_mul_threads)

theorem flatMap_share_iterateThreads (t : Table F H E) :
    (List.range t.iterateThreads).flatMap (t.share t.iterateThreads) =
      List.range t.bucketCount :=
  (flatMap_range'_mul _ _).trans (congrArg List.range t.share_mul_threads)

theorem rehashOrder_eq (four : 4 ≤ t.bucketCount) : t.rehashOrder = List.range t.bucketCount := by
  have shift : 2 ≤ t.bucketCountShift := (Nat.pow_le_pow_iff_right one_lt_two).mp four
  have whole : t.bucketCount / 4 * 4 = t.bucketCount :=
    Nat.div_mul_cancel (Nat.pow_dvd_pow 2 shift)
  exact (flatMap_range'_mul _ _).trans (congrArg List.range whole)

end Shares

/-! ## What the passes do -/

section Rehash

variable {P : TableParams F K V H E} {t t' : Table F H E} {isgc : Bool}

/-- A rehash that returns, whatever the bucket contains. -/
theorem minorRehash_clean {bi n : Nat} (ok : t.minorRehash P bi isgc = .ok (t', n)) :
    n = ((t.buckets bi).liveInfos bi).length ∧
      (t'.buckets bi).cellCountShift = t.newShift bi isgc ∧
      (∀ c, ((t'.buckets bi).cells c).ver.bitmapDeleted = 0) ∧
      t'.bucketCountShift = t.bucketCountShift ∧ ∀ j, j ≠ bi → t'.buckets j = t.buckets j := by
  obtain ⟨-, new, built, sameCount, buckets⟩ := minorRehash_cases ok
  obtain ⟨placed, rehashed, -⟩ := Bucket.rehash_disp_lt_iff (k := 0) built
  obtain ⟨count, -⟩ := Bucket.rehash_cases built
  have here : t'.buckets bi = new := by rw [buckets, Function.update_self]
  refine ⟨count, here ▸ rehashed.shift_eq, fun c => ?_, sameCount, fun j other => ?_⟩
  · rw [here]
    exact (rehashed.filled c).bitmapDeleted
  · rw [buckets, Function.update_of_ne other]

/-- A pass over buckets rehashes each of them, and counts what is live in them. -/
theorem foldlM_minorRehash_clean {order : List Nat} {counts counts' : Nat} (once : order.Nodup)
    (ok : order.foldlM (fun (t, counts) i => do
      let (t, count) ← t.minorRehash P i isgc
      return (t, counts + count)) (t, counts) = .ok (t', counts')) :
    counts' = counts + (order.map fun i => ((t.buckets i).liveInfos i).length).sum ∧
      (∀ i ∈ order, (t'.buckets i).cellCountShift = t.newShift i isgc ∧
        ∀ c, ((t'.buckets i).cells c).ver.bitmapDeleted = 0) ∧
      ∀ i, i ∉ order → t'.buckets i = t.buckets i := by
  induction order generalizing t counts with
  | nil =>
    cases ok
    exact ⟨rfl, by simp, fun _ _ => rfl⟩
  | cons i order ih =>
    obtain ⟨fresh, once⟩ := List.nodup_cons.mp once
    rw [List.foldlM_cons] at ok
    obtain ⟨⟨t₁, counts₁⟩, first, rest⟩ := bind_eq_ok.mp ok
    obtain ⟨⟨t₂, n⟩, rehashed, same⟩ := bind_eq_ok.mp first
    cases same
    obtain ⟨count, shift, clean, -, others⟩ := minorRehash_clean rehashed
    obtain ⟨sum, each, kept⟩ := ih once rest
    have later : ∀ j ∈ order, t₁.buckets j = t.buckets j := fun j mem =>
      others j fun same => fresh (same ▸ mem)
    refine ⟨?_, fun j mem => ?_, fun j out => ?_⟩
    · rw [sum, count, List.map_cons, List.sum_cons, Nat.add_assoc]
      congr 2
      refine congrArg List.sum (List.map_congr_left fun j mem => ?_)
      rw [later j mem]
    · rcases List.mem_cons.mp mem with rfl | mem
      · rw [kept j fresh]
        exact ⟨shift, clean⟩
      · obtain ⟨shift', clean'⟩ := each j mem
        rw [newShift, later j mem] at shift'
        exact ⟨shift', clean'⟩
    · rw [List.mem_cons, not_or] at out
      rw [kept j out.2, others j out.1]

end Rehash

section Visits

variable {P : TableParams F K V H E} {t : Table F H E}

theorem toNat_bucketIndex (accepted : t.bucketCountShift < 32) {i : Nat}
    (inside : i < t.bucketCount) : (UInt32.ofNat i).toNat = i := by
  have small : t.bucketCount < 2 ^ 32 := Nat.pow_lt_pow_right one_lt_two accepted
  exact UInt32.toNat_ofNat_of_lt' (inside.trans small)

theorem liveInfos_eq (accepted : t.bucketCountShift < 32) {i : Nat} (inside : i < t.bucketCount) :
    (t.buckets i).liveInfos i = (t.buckets i).memory.liveEntries (UInt32.ofNat i) := by
  rw [WordIterator.liveEntries_eq, toNat_bucketIndex accepted inside]
  rfl

/-- A pass that starts from `t` and returns has counted the live entries. -/
theorem sum_liveInfos (accepted : t.bucketCountShift < 32) :
    ((List.range t.bucketCount).map fun i => ((t.buckets i).liveInfos i).length).sum =
      t.liveEntries.length := by
  rw [liveEntries, List.length_flatMap]
  refine congrArg List.sum (List.map_congr_left fun i mem => ?_)
  rw [liveInfos_eq accepted (List.mem_range.mp mem)]

/-- `IterateAllCallback` visits what the offsets reach in each bucket. -/
theorem iterateAllCallback_eq (t : Table F H E) : t.iterateAllCallback =
    some ((List.range t.bucketCount).flatMap fun i =>
      (List.range ((t.buckets i).memory.cellCount % 2 ^ 32)).flatMap
        (cellInfos (UInt32.ofNat i).toNat (t.buckets i).memory.reached)) := by
  have yields : (fun i => WordIterator.toList (t.buckets i).memory (UInt32.ofNat i)) = fun i =>
      pure ((List.range ((t.buckets i).memory.cellCount % 2 ^ 32)).flatMap
        (cellInfos (UInt32.ofNat i).toNat (t.buckets i).memory.reached)) := by
    funext i
    exact WordIterator.toList_eq _ (t.buckets i).cellCount_pos
  rw [iterateAllCallback, flatMap_share_iterateThreads, yields, List.mapM_pure]
  rfl

/-- It visits the live entries if and only if it does in each bucket. -/
theorem visits_iff (accepted : t.bucketCountShift < 32) :
    t.iterateAllCallback = some t.liveEntries ↔ ∀ i < t.bucketCount,
      ∀ c < (t.buckets i).cellCount, WordIterator.SeesCell (t.buckets i).memory c := by
  rw [iterateAllCallback_eq, Option.some_inj, liveEntries]
  constructor
  · intro same i inside
    -- the entries of one bucket are those that name it
    have own : ∀ {n : Nat} {cells : Nat → Cell F H E}, ∀ j < t.bucketCount,
        ∀ info ∈ (List.range n).flatMap (cellInfos (UInt32.ofNat j).toNat cells),
          info.slotInfo.bucket = j := by
      intro n cells j inside info mem
      obtain ⟨c, -, mem⟩ := List.mem_flatMap.mp mem
      obtain ⟨s, -, -, rfl⟩ := WordIterator.mem_cellInfos.mp mem
      exact toNat_bucketIndex accepted inside
    have part := congrArg (List.filter fun info => info.slotInfo.bucket == i) same
    simp only [WordIterator.liveEntries_eq] at part
    rw [filter_flatMap_range (fun j inside => own j inside), if_pos inside,
      filter_flatMap_range (fun j inside => own j inside), if_pos inside,
      ← WordIterator.liveEntries_eq] at part
    exact WordIterator.flatMap_reached_eq_iff.mp part
  · intro sees
    refine List.flatMap_congr fun i mem => ?_
    exact WordIterator.flatMap_reached_eq_iff.mpr (sees i (List.mem_range.mp mem))

end Visits

/-! ## Fewer than four buckets -/

section Covered

variable {P : TableParams F K V H E} {t : Table F H E}

/-- With fewer than four buckets, no thread visits a bucket. -/
theorem rehashOrder_of_lt (few : t.bucketCount < 4) : t.rehashOrder = [] := by
  rw [rehashOrder, Nat.div_eq_of_lt few]
  rfl

/-- `MinorReHashAll` and `GCAll` leave such a table as it is. -/
theorem rehashAll_of_lt (few : t.bucketCount < 4) (isgc : Bool) :
    t.rehashAll P isgc = .ok (t, 0) := by
  rw [rehashAll, rehashOrder_of_lt few]
  rfl

/-- What a pass over four buckets or more has done when it returns. -/
theorem rehashAll_clean (accepted : t.bucketCountShift < 32) (four : 4 ≤ t.bucketCount)
    {t' : Table F H E} {isgc : Bool} {n : Nat} (ok : t.rehashAll P isgc = .ok (t', n)) :
    n = t.liveEntries.length ∧ ∀ i < t.bucketCount,
      (t'.buckets i).cellCountShift = t.newShift i isgc ∧
        ∀ c, ((t'.buckets i).cells c).ver.bitmapDeleted = 0 := by
  rw [rehashAll, rehashOrder_eq four] at ok
  obtain ⟨count, each, -⟩ := foldlM_minorRehash_clean List.nodup_range ok
  refine ⟨?_, fun i inside => each i (List.mem_range.mpr inside)⟩
  rw [count, Nat.zero_add, sum_liveInfos accepted]

/-- The passes cover the table if and only if it has four buckets, and 32-bit offsets reach the
live slots of each. -/
theorem passesCover_iff (accepted : t.bucketCountShift < 32) : t.PassesCover P ↔
    4 ≤ t.bucketCount ∧ ∀ i < t.bucketCount,
      ∀ c < (t.buckets i).cellCount, WordIterator.SeesCell (t.buckets i).memory c := by
  constructor
  · intro covers
    exact ⟨covers_four_iff.mp covers.rehash, (visits_iff accepted).mp covers.visits⟩
  · rintro ⟨four, sees⟩
    refine ⟨covers_four_iff.mpr four, covers_iterateThreads t, fun t' n ok => ?_,
      fun t' n ok => ?_, (visits_iff accepted).mpr sees⟩
    · obtain ⟨count, each⟩ := rehashAll_clean accepted four ok
      refine ⟨count, fun i inside => ?_⟩
      rw [Bucket.cellCount, (each i inside).1, newShift, if_neg Bool.false_ne_true, Nat.pow_succ,
        Nat.mul_comm, Bucket.cellCount]
    · obtain ⟨count, each⟩ := rehashAll_clean accepted four ok
      exact ⟨count, fun i inside => (each i inside).2⟩

/-- Four buckets of 16 cells, with slots marked as deleted in the last cell of the first. -/
def HasDeleted (t : Table cellMeta128 UInt64 UInt64) : Prop :=
  t.bucketCountShift = 2 ∧ (∀ i < t.bucketCount, (t.buckets i).cellCountShift = 4) ∧
    ((t.buckets 0).cells 15).ver.bitmapDeleted ≠ 0

instance (t : Table cellMeta128 UInt64 UInt64) : Decidable t.HasDeleted :=
  inferInstanceAs (Decidable (_ ∧ (∀ i < t.bucketCount, _) ∧ _))

/-- The result at a table with live and deleted slots. -/
theorem passesCover_behind_gc : ∃ t results, run dram 16 dram4x16 opsAroundGc = .ok (t, results) ∧
    t.HasDeleted ∧ t.PassesCover dram := by
  have left : (run dram 16 dram4x16 opsAroundGc).bind (fun r => .ok (decide r.1.HasDeleted)) =
      .ok true := by decide +kernel
  obtain ⟨⟨t, results⟩, ran, left⟩ := bind_eq_ok.mp left
  have shape : t.HasDeleted := of_decide_eq_true (Except.ok.inj left)
  have ⟨four, sixteen, _⟩ := shape
  refine ⟨t, results, ran, shape, (passesCover_iff (by rw [four]; decide)).mpr
    ⟨by rw [bucketCount, four]; decide, fun i inside c within => ?_⟩⟩
  have cells : (t.buckets i).memory.cellCount = 2 ^ 4 := congrArg (2 ^ ·) (sixteen i inside)
  exact WordIterator.seesCell_of_le (by rw [cells]; decide) (by rw [cells]; decide) within

/-- The passes do not cover a table of two buckets. -/
theorem not_passesCover : ∃ t, Table.construct dram 2 1 = some t ∧ ¬ t.PassesCover dram := by
  refine ⟨_, if_pos (by decide), fun covers => ?_⟩
  have four := covers_four_iff.mp covers.rehash
  exact absurd four (by decide)

end Covered

end Table

end TurboHash
