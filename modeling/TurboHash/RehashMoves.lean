import TurboHash.Occupancy
import TurboHash.RehashRefinement

/-!
# A rehash moves the live entries, all of them and nothing else

Behind a `MinorRehash` that returns, the live slots of the bucket are those it had before,
as a multiset of `H1`, `H2` and `entry`. All that is asked of the old bucket is the
occupancy invariant of its version words: what its slots contain, and what the hash of
their `H1` is, does not matter.
-/

namespace TurboHash

open LinearProbe

variable {F : CellFormat} {K V H E : Type} {L : SlotLayout K V H E} {bi shift : Nat}
  {old new : Bucket F H E} {placed : List (InfoPair H E × Entry)}

/-! ## The live slots as a multiset -/

/-- The live slots of a cell: `H1`, `H2` and `entry`. -/
def Cell.liveSlots (c : Cell F H E) : List (H × UInt8 × E) :=
  ((List.range F.bits).filter c.live).map fun i => ((c.slots i).h1, c.tags i, (c.slots i).entry)

/-- The live slots of a bucket. -/
def Bucket.liveSlots (b : Bucket F H E) : List (H × UInt8 × E) :=
  (List.range b.cellCount).flatMap fun c => (b.cells c).liveSlots

/-- What the iterator yields, without the place it comes from. -/
def InfoPair.words (info : InfoPair H E) : H × UInt8 × E :=
  (info.slotInfo.h1, info.slotInfo.h2, info.hashSlot.entry)

/-- The parts of a list by a bounded number make up the list. -/
theorem flatMap_filter_perm {α : Type} (f : α → Nat) (l : List α) (n : Nat) :
    ((List.range n).flatMap fun x => l.filter fun a => f a == x).Perm
      (l.filter fun a => decide (f a < n)) := by
  induction n with
  | zero => simp
  | succ n ih =>
    rw [List.range_succ, List.flatMap_append, List.flatMap_singleton]
    have front : (l.filter fun a => decide (f a < n)) =
        (l.filter fun a => decide (f a < n + 1)).filter fun a => decide (f a < n) := by
      rw [List.filter_filter]
      exact List.filter_congr fun a _ => by simp; omega
    have last : (l.filter fun a => f a == n) =
        (l.filter fun a => decide (f a < n + 1)).filter fun a => !decide (f a < n) := by
      rw [List.filter_filter]
      refine List.filter_congr fun a _ => ?_
      rw [Bool.eq_iff_iff]
      simp
      omega
    rw [front] at ih
    rw [last]
    exact (ih.append_right _).trans (List.filter_append_perm _ _)

/-- The iterator yields the live slots of a bucket with well-formed version words. -/
theorem Bucket.map_words_liveInfos (wf : ∀ c < old.cellCount, (old.cells c).ver.WellFormed) :
    ((old.liveInfos bi).map InfoPair.words).Perm old.liveSlots := by
  rw [liveInfos, liveSlots, List.map_flatMap]
  refine List.Perm.flatMap_left _ fun c mem => ?_
  have inside := List.mem_range.mp mem
  have loaded : (old.cells c).loadMeta.ver = (old.cells c).ver := (wf c inside).masked_eq
  rw [cellInfos, List.map_map, Cell.liveSlots]
  refine List.Perm.map _ ?_
  rw [List.perm_ext_iff_of_nodup (BitSet.nodup_toList _) (List.nodup_range.filter _)]
  intro i
  rw [BitSet.mem_toList, CellMeta.getLsbD_validBitSet (loaded ▸ wf c inside), loaded,
    List.mem_filter, List.mem_range]
  exact ⟨fun alive => ⟨Version.lt_bits_of_live alive, alive⟩, And.right⟩

/-- The live slots of a filled cell. -/
theorem Cell.Filled.liveSlots_perm {c : Cell F H E} {infos : List (InfoPair H E)}
    (filled : c.Filled infos) : c.liveSlots.Perm (infos.map InfoPair.words) := by
  have short := filled.length_le
  have := F.slotCount_eq
  have := F.fullCount_eq
  have slots : ((List.range F.bits).filter c.live).Perm
      ((List.range infos.length).map (F.startSlotPos + ·)) := by
    rw [List.perm_ext_iff_of_nodup (List.nodup_range.filter _)
      (List.nodup_range.map fun _ _ => Nat.add_left_cancel)]
    intro i
    rw [List.mem_filter, List.mem_range, filled.live, decide_eq_true_eq, List.mem_map]
    constructor
    · rintro ⟨-, start, less⟩
      exact ⟨i - F.startSlotPos, List.mem_range.mpr (by omega), by omega⟩
    · rintro ⟨j, mem, rfl⟩
      have := List.mem_range.mp mem
      omega
  have words : ((List.range infos.length).map (F.startSlotPos + ·)).map
      (fun i => ((c.slots i).h1, c.tags i, (c.slots i).entry)) = infos.map InfoPair.words := by
    refine List.ext_getElem (by simp) fun j less less' => ?_
    have found := List.getElem?_eq_getElem (by simpa using less : j < infos.length)
    simp only [List.getElem_map, List.getElem_range, filled.slots j _ found, filled.tags j _ found]
    rfl
  rw [← words]
  exact slots.map _

namespace Rehashed

/-- The entries, cell by cell. -/
theorem residents_perm (rehashed : Rehashed L bi shift old new placed) :
    ((List.range (2 ^ shift)).flatMap (residents (2 ^ shift) placed)).Perm (old.liveInfos bi) := by
  have parts := flatMap_filter_perm (fun p : InfoPair H E × Entry => p.2.cell (2 ^ shift)) placed
    (2 ^ shift)
  have all : (placed.filter fun p => decide (p.2.cell (2 ^ shift) < 2 ^ shift)) = placed :=
    List.filter_eq_self.mpr fun p _ => decide_eq_true (p.2.cell_lt (Nat.two_pow_pos shift))
  rw [all] at parts
  rw [← rehashed.infos]
  have mapped := parts.map Prod.fst
  rwa [List.map_flatMap] at mapped

/-- The new bucket has the live slots of the old one. -/
theorem liveSlots_perm (rehashed : Rehashed L bi shift old new placed)
    (wf : ∀ c < old.cellCount, (old.cells c).ver.WellFormed) :
    new.liveSlots.Perm old.liveSlots := by
  have cells : new.liveSlots.Perm
      ((List.range (2 ^ shift)).flatMap fun x => (residents (2 ^ shift) placed x).map
        InfoPair.words) := by
    rw [Bucket.liveSlots, rehashed.cellCount_eq]
    exact List.Perm.flatMap_left _ fun x _ => (rehashed.filled x).liveSlots_perm
  rw [← List.map_flatMap] at cells
  exact cells.trans ((rehashed.residents_perm.map _).trans (Bucket.map_words_liveInfos wf))

end Rehashed

/-! ## The cells of the new bucket -/

namespace Cell.Filled

variable {c : Cell F H E} {infos : List (InfoPair H E)}

theorem loadMeta_ver (filled : c.Filled infos) : c.loadMeta.ver = c.ver :=
  filled.version_wf.masked_eq

theorem full_iff (filled : c.Filled infos) : c.Full ↔ infos.length = F.fullCount := by
  have wf : c.loadMeta.ver.WellFormed := filled.loadMeta_ver ▸ filled.version_wf
  rw [Cell.Full, CellMeta.full_iff wf, filled.loadMeta_ver, filled.popcount]

/-- The slot an update would take next is behind the entries. -/
theorem backup_deref (filled : c.Filled infos) :
    F.startSlotPos + infos.length ≤ c.loadMeta.backupBitSet.deref ∧
      c.loadMeta.backupBitSet.deref ≤ F.slotMaxRange := by
  have wf : c.loadMeta.ver.WellFormed := filled.loadMeta_ver ▸ filled.version_wf
  obtain ⟨start, inside, clear⟩ := CellMeta.backup_deref wf
  rw [filled.loadMeta_ver, filled.bitmap, decide_eq_false_iff_not] at clear
  have := F.bits_eq
  omega

end Cell.Filled

/-- An entry has passed full cells only. -/
theorem Rehashed.passed (rehashed : Rehashed L bi shift old new placed) {x i : Nat}
    (alive : (new.cells x).live i = true) :
    ∃ d, x = ((L.h1ToHash ((new.cells x).slots i).h1).toNat + d) % new.cellCount ∧
      ∀ d' < d, (new.cells
        (((L.h1ToHash ((new.cells x).slots i).h1).toNat + d') % new.cellCount)).Full := by
  obtain ⟨p, mem, rfl, -, slot, -, -⟩ := rehashed.exists_of_live alive
  have home : p.2.home = (L.h1ToHash p.1.hashSlot.h1).toNat % 2 ^ shift := by
    rw [rehashed.home p mem, homeCell, h1_of_mem_liveInfos (rehashed.mem_infos mem)]
  rw [slot, rehashed.cellCount_eq]
  refine ⟨p.2.disp, ?_, fun d' less => ?_⟩
  · rw [Entry.cell, home, Nat.mod_add_mod]
  · have full := rehashed.layout.passed p.2 (List.mem_map_of_mem mem) d' less
    rw [home, Nat.mod_add_mod] at full
    rw [(rehashed.filled _).full_iff, length_residents, full]

/-! ## The loops -/

section Loops

variable {uninit : Nat → Cell F H E} {n : Nat}

/-- The state before the move loop. -/
def rehashStart (uninit : Nat → Cell F H E) : RehashState F H E :=
  ⟨fun _ => F.startSlotPos, resetMeta uninit⟩

/-- Whenever the move loop has come to an entry, the search finds it a slot below
`SlotMaxRange`, or there is none and the rehash does not return. -/
theorem findNextSlotInRehash_handed {before after : List (InfoPair H E)} {info : InfoPair H E}
    {state : RehashState F H E} {final : RehashState F H E}
    (reached : before.foldlM (moveEntry L (2 ^ shift - 1)) (rehashStart uninit) = .ok state)
    (ends : (info :: after).foldlM (moveEntry L (2 ^ shift - 1)) state = .ok final) :
    ∃ ai slot slotVec, findNextSlotInRehash (F := F) L state.slotVec info.slotInfo.h1
        (2 ^ shift - 1) = .ok ((ai, slot), slotVec) ∧ ai < 2 ^ shift ∧ F.startSlotPos ≤ slot ∧
      slot < F.slotMaxRange := by
  have loop := (Moved.start L (2 ^ shift) uninit).foldlM before
  rw [show (⟨fun _ => F.startSlotPos, resetMeta uninit⟩ : RehashState F H E) =
    rehashStart uninit from rfl, reached] at loop
  split at loop
  case h_2 => cases loop
  case h_1 =>
    obtain ⟨_, placed', same, moved, -, -⟩ := loop
    cases same
    have search := findNextSlotInRehash_eq moved info
    have step := moved.moveEntry info
    cases outcome : place F.fullCount (2 ^ shift) rehashSpan
        (load (2 ^ shift) (placed'.map Prod.snd)) (homeCell L (2 ^ shift) info) with
    | none =>
      rw [outcome] at step
      rw [List.foldlM_cons, show moveEntry L (2 ^ shift - 1) state info = _ from step] at ends
      cases ends
    | some d =>
      rw [outcome] at search
      obtain ⟨-, room, -⟩ := place_eq_some.mp outcome
      refine ⟨_, _, _, search, Nat.mod_lt _ (Nat.two_pow_pos shift), ?_, ?_⟩
      · rw [moved.slotVec]
        exact Nat.le_add_right _ _
      · rw [moved.slotVec, F.slotMaxRange_eq]
        exact Nat.add_lt_add_left room _

/-- A rehash that returns: the move loop, and the clearing loop behind it, which starts
behind the entries of each cell. -/
theorem Bucket.rehash_cases (ok : old.rehash L bi shift uninit = .ok (new, n)) :
    n = (old.liveInfos bi).length ∧ ∃ state,
      (old.liveInfos bi).foldlM (moveEntry L (2 ^ shift - 1)) (rehashStart uninit) = .ok state ∧
      new = ⟨shift, clearRemaining L state.slotVec state.cells⟩ ∧
      ∀ ci, ∃ infos, (state.cells ci).Filled infos ∧
        state.slotVec ci = F.startSlotPos + infos.length := by
  have loop := (Moved.start L (2 ^ shift) uninit).foldlM (old.liveInfos bi)
  rw [Bucket.rehash, old.iterate_eq_liveInfos] at ok
  split at loop
  case h_2 =>
    simp only [loop] at ok
    cases ok
  case h_1 =>
    obtain ⟨state, placed', moves, moved, -, -⟩ := loop
    simp only [moves] at ok
    cases ok
    refine ⟨rfl, state, moves, rfl, fun ci => ⟨_, moved.filled ci, ?_⟩⟩
    rw [moved.slotVec, length_residents]

/-- The clearing loop clears no entry, and stays within the cell. -/
theorem Cell.Filled.not_cleared {c : Cell F H E} {infos : List (InfoPair H E)}
    (filled : c.Filled infos) {si : Nat} (behind : F.startSlotPos + infos.length ≤ si)
    (last : si ≤ F.slotMaxRange) : si < F.bits ∧ c.live si = false := by
  have := F.bits_eq
  refine ⟨by omega, ?_⟩
  rw [filled.live, decide_eq_false_iff_not]
  omega

end Loops

/-! ## The result -/

section Result

variable {P : TableParams F K V H E} {t t' : Table F H E} {isgc : Bool} {n : Nat}

/-- What a `MinorRehash` of bucket `bi` that returns `n` has done. -/
structure Table.Moves (P : TableParams F K V H E) (t : Table F H E) (bi : Nat) (isgc : Bool)
    (t' : Table F H E) (n : Nat) : Prop where
  shift : (t'.buckets bi).cellCountShift = t.newShift bi isgc
  live : ((t'.buckets bi).liveSlots : Multiset (H × UInt8 × E)) = (t.buckets bi).liveSlots
  count : n = (t.buckets bi).liveSlots.length
  /-- no tombstone, one slot at least to spare, and that slot zeroed -/
  clean : ∀ x < (t'.buckets bi).cellCount,
    ((t'.buckets bi).cells x).ver.bitmapDeleted = 0 ∧
      popcount ((t'.buckets bi).cells x).ver.bitmap ≤ F.slotCount - 1 ∧
      ((t'.buckets bi).cells x).slots ((t'.buckets bi).cells x).loadMeta.backupBitSet.deref =
        P.layout.zeroSlot
  /-- the slots that `findNextSlotInRehash` hands out -/
  handed : ∀ before info after state,
    (BucketIterator.start bi (t.buckets bi).cells (t.buckets bi).cellCount).toList =
        before ++ info :: after →
      before.foldlM (moveEntry P.layout (2 ^ t.newShift bi isgc - 1))
          (rehashStart (P.uninit bi (t.newShift bi isgc))) = .ok state →
        ∃ ai slot slotVec, findNextSlotInRehash (F := F) P.layout state.slotVec info.slotInfo.h1
            (2 ^ t.newShift bi isgc - 1) = .ok ((ai, slot), slotVec) ∧
          ai < 2 ^ t.newShift bi isgc ∧ F.startSlotPos ≤ slot ∧ slot < F.slotMaxRange
  /-- the slots that the clearing loop overwrites -/
  cleared : ∃ state,
    (BucketIterator.start bi (t.buckets bi).cells (t.buckets bi).cellCount).toList.foldlM
        (moveEntry P.layout (2 ^ t.newShift bi isgc - 1))
        (rehashStart (P.uninit bi (t.newShift bi isgc))) = .ok state ∧
      t'.buckets bi = ⟨t.newShift bi isgc, clearRemaining P.layout state.slotVec state.cells⟩ ∧
      ∀ ci si, state.slotVec ci ≤ si → si ≤ F.slotMaxRange →
        si < F.bits ∧ (state.cells ci).live si = false
  /-- the cells between the home of an entry and the entry -/
  passed : ∀ x < (t'.buckets bi).cellCount, ∀ i, ((t'.buckets bi).cells x).live i = true →
    ∃ d, x = ((P.layout.h1ToHash (((t'.buckets bi).cells x).slots i).h1).toNat + d) %
        (t'.buckets bi).cellCount ∧
      ∀ d' < d, ((t'.buckets bi).cells
        (((P.layout.h1ToHash (((t'.buckets bi).cells x).slots i).h1).toNat + d') %
          (t'.buckets bi).cellCount)).Full
  others : t'.bucketCount = t.bucketCount ∧ ∀ j, j ≠ bi → t'.buckets j = t.buckets j

/-- `MinorRehash` moves the live entries of its bucket, all of them and nothing else. -/
theorem minorRehash_moves (wf : ∀ c < (t.buckets bi).cellCount,
      ((t.buckets bi).cells c).ver.WellFormed)
    (ok : t.minorRehash P bi isgc = .ok (t', n)) : t.Moves P bi isgc t' n := by
  obtain ⟨-, new, built, sameCount, buckets⟩ := Table.minorRehash_cases ok
  obtain ⟨placed, rehashed, -⟩ := Bucket.rehash_disp_lt_iff (k := 0) built
  obtain ⟨count, state, moves, same, filled⟩ := Bucket.rehash_cases built
  have here : t'.buckets bi = new := by rw [buckets, Function.update_self]
  have words : (((t.buckets bi).liveInfos bi).map InfoPair.words).Perm (t.buckets bi).liveSlots :=
    Bucket.map_words_liveInfos wf
  refine ⟨?_, ?_, ?_, fun x _ => ?_, fun before info after st split reached => ?_, ⟨state, ?_, ?_,
    fun ci si behind last => ?_⟩, fun x _ i alive => ?_, congrArg (2 ^ ·) sameCount,
    fun j other => ?_⟩
  · rw [here, rehashed.shift_eq]
  · rw [here]
    exact Multiset.coe_eq_coe.mpr (rehashed.liveSlots_perm wf)
  · rw [count, ← words.length_eq, List.length_map]
  · rw [here]
    have cell := rehashed.filled x
    refine ⟨cell.bitmapDeleted, ?_, ?_⟩
    · have := F.fullCount_eq
      have := cell.length_le
      rw [cell.popcount]
      omega
    · obtain ⟨infos, old, slotVec⟩ := filled x
      have now : (new.cells x).Filled infos := by
        rw [same]
        refine old.congr rfl rfl fun i before => if_neg fun cleared => ?_
        omega
      obtain ⟨behind, last⟩ := now.backup_deref
      rw [same] at behind last ⊢
      exact if_pos ⟨slotVec.trans_le behind, last⟩
  · rw [Bucket.iterate_eq_liveInfos] at split
    rw [split, List.foldlM_append, reached] at moves
    exact findNextSlotInRehash_handed reached moves
  · rw [Bucket.iterate_eq_liveInfos]
    exact moves
  · rw [here, same]
  · obtain ⟨infos, old, slotVec⟩ := filled ci
    exact old.not_cleared (slotVec ▸ behind) last
  · rw [here] at alive ⊢
    exact rehashed.passed alive
  · rw [buckets, Function.update_of_ne other]

end Result

section Instances

/-- The entries that a gc rehash of bucket 0 moves behind `ops`, and whether it fills cell 15. -/
def movedByGc (ops : List (Op UInt64 UInt64)) : Except Halt (Nat × Bool) := do
  let (t, _) ← run dram 16 dram4x16 ops
  let (t', n) ← t.minorRehash dram 0 true
  return (n, ((t'.buckets 0).cells 15).loadMeta.full)

/-- The result at a gc rehash behind puts, another gc rehash, an update and a deletion: of the
eight entries seven have the home 15, and the last of these goes on to cell 0. -/
theorem minorRehash_moves_overflow :
    ∃ t results t' n, run dram 16 dram4x16 opsAroundGc = .ok (t, results) ∧
      t.minorRehash dram 0 true = .ok (t', n) ∧ n = 8 ∧
      ((t'.buckets 0).cells 15).loadMeta.full = true ∧ t.Moves dram 0 true t' n := by
  have moved : movedByGc opsAroundGc = .ok (8, true) := by decide +kernel
  obtain ⟨⟨t, results⟩, ran, moved⟩ := Simulation.bind_eq_ok.mp moved
  obtain ⟨⟨t', n⟩, ok, moved⟩ := Simulation.bind_eq_ok.mp moved
  obtain ⟨rfl, full⟩ := Prod.mk.inj (Except.ok.inj moved)
  obtain ⟨steps, changes⟩ := changed_of_run (by decide) ran
  have start : dram4x16.WellFormed dram.layout := fun i inside =>
    ((Table.Refines.construct construct_dram4x16 (by decide)).valid.placed i inside).wf
  obtain ⟨-, wf⟩ := wf_of_run changes start
  refine ⟨t, results, t', 8, ran, ok, rfl, full, minorRehash_moves (fun c within => ?_) ok⟩
  exact (wf 0 (Table.bucketCount_pos t) c within).ver

end Instances

end TurboHash
