import TurboHash.BucketMap
import TurboHash.RehashLayout

/-!
# What a rehash does to the bindings

The new bucket binds what the old one bound. It is placed, so that every search
works on it, exactly when no entry has landed `MAX_PROBE_LEN` cells from its home:
`findNextSlotInRehash` searches one cell more than a lookup does.
-/

namespace TurboHash

open LinearProbe

variable {F : CellFormat} {K V H E : Type} {L : SlotLayout K V H E} {bi shift : Nat}
  {old new : Bucket F H E} {placed : List (InfoPair H E × Entry)}

/-! ## The live slots of a well-formed bucket -/

section LiveInfos

theorem mem_liveInfos_of_ver (wf : ∀ c < old.cellCount, (old.cells c).ver.WellFormed)
    {info : InfoPair H E} :
    info ∈ old.liveInfos bi ↔
      ∃ c < old.cellCount, ∃ i, (old.cells c).live i = true ∧ info = infoAt bi old.cells c i := by
  simp only [Bucket.liveInfos, cellInfos, List.mem_flatMap, List.mem_range, List.mem_map,
    BitSet.mem_toList]
  refine exists_congr fun c => and_congr_right fun inside => exists_congr fun i => ?_
  have loaded : (old.cells c).loadMeta.ver = (old.cells c).ver := (wf c inside).masked_eq
  rw [CellMeta.getLsbD_validBitSet (loaded ▸ wf c inside), loaded, eq_comm (a := info)]
  rfl

theorem mem_liveInfos (wf : old.WellFormed L) {info : InfoPair H E} :
    info ∈ old.liveInfos bi ↔
      ∃ c < old.cellCount, ∃ i, (old.cells c).live i = true ∧ info = infoAt bi old.cells c i :=
  mem_liveInfos_of_ver fun c inside => (wf c inside).ver

theorem infoAt_inj {cells : Nat → Cell F H E} {c c' i i' : Nat}
    (same : infoAt bi cells c i = infoAt bi cells c' i') : c = c' ∧ i = i' := by
  have slots := congrArg InfoPair.slotInfo same
  exact ⟨congrArg SlotInfo.cell slots, congrArg SlotInfo.slot slots⟩

theorem nodup_liveInfos (bi : Nat) (b : Bucket F H E) : (b.liveInfos bi).Nodup := by
  rw [Bucket.liveInfos, List.nodup_flatMap]
  refine ⟨fun c _ => (BitSet.nodup_toList _).map_on fun i _ i' _ same => (infoAt_inj same).2, ?_⟩
  refine List.nodup_range.imp fun {c c'} different => ?_
  simp only [Function.onFun, cellInfos]
  intro info mem mem'
  obtain ⟨i, -, rfl⟩ := List.mem_map.mp mem
  obtain ⟨i', -, same⟩ := List.mem_map.mp mem'
  exact different (infoAt_inj same).1.symm

/-- A live slot of a well-formed bucket holds a stored key. -/
theorem stored_of_mem_liveInfos (wf : old.WellFormed L) {info : InfoPair H E}
    (mem : info ∈ old.liveInfos bi) :
    ∃ key value, info.hashSlot = L.slotOf key value ∧ info.slotInfo.h2 = (L.keyHash key).h2 ∧
      ∃ c < old.cellCount, ∃ i, (old.cells c).Holds L i key value ∧
        info = infoAt bi old.cells c i := by
  obtain ⟨c, inside, i, alive, rfl⟩ := (mem_liveInfos wf).mp mem
  obtain ⟨key, value, stored, tag⟩ := (wf c inside).stored i alive
  exact ⟨key, value, stored, tag, c, inside, i, ⟨alive, stored⟩, rfl⟩

theorem h1_of_mem_liveInfos {info : InfoPair H E} (mem : info ∈ old.liveInfos bi) :
    info.slotInfo.h1 = info.hashSlot.h1 := by
  simp only [Bucket.liveInfos, cellInfos, List.mem_flatMap, List.mem_map] at mem
  obtain ⟨c, -, i, -, rfl⟩ := mem
  rfl

end LiveInfos

namespace Rehashed

variable {key : K} {value : V}

theorem mem_infos (rehashed : Rehashed L bi shift old new placed) {p : InfoPair H E × Entry}
    (mem : p ∈ placed) : p.1 ∈ old.liveInfos bi :=
  rehashed.infos ▸ List.mem_map_of_mem mem

theorem cellCount_eq (rehashed : Rehashed L bi shift old new placed) :
    new.cellCount = 2 ^ shift := by
  rw [Bucket.cellCount, rehashed.shift_eq]

/-- A live slot of the new bucket is where an entry has been moved to. -/
theorem exists_of_live (rehashed : Rehashed L bi shift old new placed) {x i : Nat}
    (alive : (new.cells x).live i = true) :
    ∃ p ∈ placed, p.2.cell (2 ^ shift) = x ∧
      (residents (2 ^ shift) placed x)[i - F.startSlotPos]? = some p.1 ∧
      (new.cells x).slots i = p.1.hashSlot ∧ (new.cells x).tags i = p.1.slotInfo.h2 ∧
      F.startSlotPos ≤ i := by
  have filled := rehashed.filled x
  rw [filled.live, decide_eq_true_eq] at alive
  obtain ⟨start, last⟩ := alive
  obtain ⟨j, rfl⟩ := Nat.exists_eq_add_of_le start
  have inside : j < (residents (2 ^ shift) placed x).length := by omega
  have found : (residents (2 ^ shift) placed x)[j]? =
      some ((residents (2 ^ shift) placed x)[j]) := List.getElem?_eq_getElem inside
  have mem := List.getElem_mem inside
  generalize (residents (2 ^ shift) placed x)[j] = info at found mem
  rw [residents, List.mem_map] at mem
  obtain ⟨p, mem, rfl⟩ := mem
  rw [List.mem_filter, beq_iff_eq] at mem
  rw [Nat.add_sub_cancel_left]
  refine ⟨p, mem.1, mem.2, found, ?_, filled.tags j _ found, start⟩
  rw [filled.slots j _ found, h1_of_mem_liveInfos (rehashed.mem_infos mem.1)]

/-- Every entry is live where it has been moved to. -/
theorem live_of_mem (rehashed : Rehashed L bi shift old new placed) {p : InfoPair H E × Entry}
    (mem : p ∈ placed) :
    ∃ i, (new.cells (p.2.cell (2 ^ shift))).live i = true ∧
      (new.cells (p.2.cell (2 ^ shift))).slots i = p.1.hashSlot := by
  have filled := rehashed.filled (p.2.cell (2 ^ shift))
  have here : p.1 ∈ residents (2 ^ shift) placed (p.2.cell (2 ^ shift)) :=
    List.mem_map_of_mem (List.mem_filter.mpr ⟨mem, by simp⟩)
  obtain ⟨j, inside, eq⟩ := List.getElem_of_mem here
  have found := List.getElem?_eq_some_iff.mpr ⟨inside, eq⟩
  refine ⟨F.startSlotPos + j, ?_, ?_⟩
  · rw [filled.live, decide_eq_true_eq]
    omega
  · rw [filled.slots j _ found, h1_of_mem_liveInfos (rehashed.mem_infos mem)]

theorem wf (rehashed : Rehashed L bi shift old new placed) (wf : old.WellFormed L) :
    new.WellFormed L := by
  intro x _
  refine ⟨(rehashed.filled x).version_wf, fun i alive => ?_⟩
  obtain ⟨p, mem, -, -, slot, tag, -⟩ := rehashed.exists_of_live alive
  obtain ⟨key, value, stored, h2, -⟩ := stored_of_mem_liveInfos wf (rehashed.mem_infos mem)
  exact ⟨key, value, slot.trans stored, tag.trans h2⟩

/-- No counter of the new bucket is at its maximum. -/
theorem calm (rehashed : Rehashed L bi shift old new placed) : new.Calm := by
  intro x _
  rw [(rehashed.filled x).seqNo]
  decide

/-- The new bucket binds what the old one bound. -/
theorem binds_iff (rehashed : Rehashed L bi shift old new placed) (wf : old.WellFormed L) :
    new.Binds L key value ↔ old.Binds L key value := by
  constructor
  · rintro ⟨x, -, i, alive, stored⟩
    obtain ⟨p, mem, -, -, slot, -, -⟩ := rehashed.exists_of_live alive
    obtain ⟨c, inside, j, alive', same⟩ := (mem_liveInfos wf).mp (rehashed.mem_infos mem)
    refine ⟨c, inside, j, alive', ?_⟩
    rw [← stored, slot, same]
    rfl
  · rintro ⟨c, inside, i, alive, stored⟩
    have mem : infoAt bi old.cells c i ∈ old.liveInfos bi :=
      (mem_liveInfos wf).mpr ⟨c, inside, i, alive, rfl⟩
    rw [← rehashed.infos] at mem
    obtain ⟨p, placedMem, eq⟩ := List.mem_map.mp mem
    obtain ⟨j, alive', slot⟩ := rehashed.live_of_mem placedMem
    refine ⟨_, ?_, j, alive', ?_⟩
    · rw [rehashed.cellCount_eq]
      exact Nat.mod_lt _ (Nat.two_pow_pos shift)
    · rw [slot, eq]
      exact stored

/-- The home of an entry is the first cell of its key's probe path. -/
theorem cell_eq (rehashed : Rehashed L bi shift old new placed) {p : InfoPair H E × Entry}
    (mem : p ∈ placed) (stored : p.1.hashSlot = L.slotOf key value) (d : Nat) :
    (p.2.home + d) % 2 ^ shift = ((L.homeHash key).toNat + d) % 2 ^ shift := by
  rw [rehashed.home p mem, homeCell, h1_of_mem_liveInfos (rehashed.mem_infos mem), stored,
    SlotLayout.slotOf_h1, Nat.mod_add_mod]
  rfl

theorem full_iff (rehashed : Rehashed L bi shift old new placed) (wf : old.WellFormed L)
    {x : Nat} (inside : x < new.cellCount) :
    (new.cells x).Full ↔ load (2 ^ shift) (placed.map Prod.snd) x = F.fullCount := by
  rw [(rehashed.wf wf x inside).full_iff, (rehashed.filled x).popcount, length_residents]

/-- No key is live twice in the new bucket if none was in the old one. -/
theorem unique (rehashed : Rehashed L bi shift old new placed) (was : old.Placed L) {x x' i i' : Nat}
    {value' : V} (holds : (new.cells x).Holds L i key value)
    (holds' : (new.cells x').Holds L i' key value') : x = x' ∧ i = i' := by
  obtain ⟨p, mem, rfl, found, slot, -, start⟩ := rehashed.exists_of_live holds.1
  obtain ⟨p', mem', rfl, found', slot', -, start'⟩ := rehashed.exists_of_live holds'.1
  obtain ⟨c, inside, j, alive, eq⟩ := (mem_liveInfos was.wf).mp (rehashed.mem_infos mem)
  obtain ⟨c', inside', j', alive', eq'⟩ := (mem_liveInfos was.wf).mp (rehashed.mem_infos mem')
  -- both entries come from the one slot of the old bucket that binds the key
  obtain ⟨rfl, rfl⟩ := was.unique c inside c' inside' j j' key value value'
    ⟨alive, by rw [← holds.2, slot, eq]; rfl⟩ ⟨alive', by rw [← holds'.2, slot', eq']; rfl⟩
  have distinct : (placed.map Prod.fst).Nodup := rehashed.infos ▸ nodup_liveInfos bi old
  have same : p = p' := List.inj_on_of_nodup_map distinct mem mem' (eq.trans eq'.symm)
  subst same
  have residentsNodup : (residents (2 ^ shift) placed (p.2.cell (2 ^ shift))).Nodup :=
    distinct.sublist (List.filter_sublist.map Prod.fst)
  have := (List.getElem?_inj (List.getElem?_eq_some_iff.mp found).1 residentsNodup).mp
    (found.trans found'.symm)
  exact ⟨rfl, by omega⟩

/-- The new bucket is placed if every entry lies on its key's probe path. -/
theorem placed_of_near (rehashed : Rehashed L bi shift old new placed) (was : old.Placed L)
    (near : ∀ p ∈ placed, p.2.disp < maxProbeLen) : new.Placed L where
  wf := rehashed.wf was.wf
  reaches x inside i key value holds := by
    obtain ⟨p, mem, rfl, -, slot, -, -⟩ := rehashed.exists_of_live holds.1
    have entryMem : p.2 ∈ placed.map Prod.snd := List.mem_map_of_mem mem
    have walk := rehashed.cell_eq mem (slot.symm.trans holds.2)
    have bounded : p.2.disp < min maxProbeLen (2 ^ shift) :=
      lt_min (near p mem) (rehashed.layout.disp_lt _ entryMem)
    obtain ⟨after, split⟩ := probePath_split (L.homeHash key) bounded
    rw [Bucket.path, rehashed.cellCount_eq, split, Entry.cell, walk]
    refine ⟨_, after, rfl, fun y before => ?_⟩
    obtain ⟨d, less, rfl⟩ := List.mem_map.mp before
    have within : ((L.homeHash key).toNat + d) % 2 ^ shift < new.cellCount := by
      rw [rehashed.cellCount_eq]
      exact Nat.mod_lt _ (Nat.two_pow_pos shift)
    rw [rehashed.full_iff was.wf within, ← walk]
    exact rehashed.layout.passed _ entryMem d (List.mem_range.mp less)
  unique x _ x' _ i i' key value value' holds holds' := rehashed.unique was holds holds'

/-- An entry beyond the probe path of its key is lost to lookups. -/
theorem findSlot_of_far [DecidableEq H] (rehashed : Rehashed L bi shift old new placed)
    (was : old.Placed L) {p : InfoPair H E × Entry} (mem : p ∈ placed)
    (far : maxProbeLen ≤ p.2.disp) (stored : p.1.hashSlot = L.slotOf key value) {fuel bucketI : Nat}
    (enough : maxProbeLen < fuel) :
    new.findSlot L key (L.keyHash key) fuel bucketI = .ok none := by
  refine Bucket.findSlot_of_unbound (rehashed.wf was.wf) enough fun x onPath i value' holds => ?_
  obtain ⟨j, alive, slot⟩ := rehashed.live_of_mem mem
  obtain ⟨rfl, -⟩ := rehashed.unique was holds ⟨alive, slot.trans stored⟩
  obtain ⟨d, near, eq⟩ := mem_probePath.mp onPath
  have inside := rehashed.layout.disp_lt p.2 (List.mem_map_of_mem mem)
  rw [Entry.cell, rehashed.cell_eq mem stored, rehashed.cellCount_eq] at eq
  rw [rehashed.cellCount_eq] at near
  have := add_mod_inj inside (by omega) eq
  omega

end Rehashed

/-! ## Rehashing undecoded slots

A rehash moves the second word of a slot without looking at it, so that it commutes
with decoding that word. -/

section MapEntry

variable {W K' V' : Type} {L' : SlotLayout K' V' H W}

/-- The cell with its second words decoded by `g`. -/
def Cell.mapEntry (g : W → E) (c : Cell F H W) : Cell F H E :=
  ⟨c.ver, c.tags, fun i => ⟨(c.slots i).h1, g (c.slots i).entry⟩⟩

def Bucket.mapEntry (g : W → E) (b : Bucket F H W) : Bucket F H E :=
  ⟨b.cellCountShift, fun c => (b.cells c).mapEntry g⟩

def InfoPair.mapEntry (g : W → E) (info : InfoPair H W) : InfoPair H E :=
  ⟨info.slotInfo, ⟨info.hashSlot.h1, g info.hashSlot.entry⟩⟩

theorem Bucket.liveInfos_mapEntry (g : W → E) (b : Bucket F H W) (bi : Nat) :
    (b.mapEntry g).liveInfos bi = (b.liveInfos bi).map (InfoPair.mapEntry g) := by
  unfold Bucket.liveInfos
  rw [List.map_flatMap]
  refine List.flatMap_congr fun c _ => ?_
  unfold cellInfos
  rw [List.map_map]
  rfl

theorem Cell.Filled.mapEntry {c : Cell F H W} {infos : List (InfoPair H W)} (g : W → E)
    (filled : c.Filled infos) : (c.mapEntry g).Filled (infos.map (InfoPair.mapEntry g)) where
  length_le := by simpa using filled.length_le
  bitmap i := by
    rw [List.length_map]
    exact filled.bitmap i
  bitmapDeleted := filled.bitmapDeleted
  seqNo := filled.seqNo
  slots j info some := by
    rw [List.getElem?_map, Option.map_eq_some_iff] at some
    obtain ⟨raw, some, rfl⟩ := some
    change (⟨(c.slots (F.startSlotPos + j)).h1, g (c.slots (F.startSlotPos + j)).entry⟩ :
      HashSlot H E) = _
    rw [filled.slots j raw some]
    rfl
  tags j info some := by
    rw [List.getElem?_map, Option.map_eq_some_iff] at some
    obtain ⟨raw, some, rfl⟩ := some
    exact filled.tags j raw some

theorem Rehashed.mapEntry {oldRaw newRaw : Bucket F H W} {placedRaw : List (InfoPair H W × Entry)}
    (g : W → E) (sameHash : L'.h1ToHash = L.h1ToHash)
    (rehashed : Rehashed L' bi shift oldRaw newRaw placedRaw) :
    Rehashed L bi shift (oldRaw.mapEntry g) (newRaw.mapEntry g)
      (placedRaw.map fun p => (p.1.mapEntry g, p.2)) where
  shift_eq := rehashed.shift_eq
  infos := by
    rw [Bucket.liveInfos_mapEntry, ← rehashed.infos, List.map_map, List.map_map]
    rfl
  layout := by
    rw [List.map_map]
    exact rehashed.layout
  home p mem := by
    obtain ⟨raw, rawMem, rfl⟩ := List.mem_map.mp mem
    dsimp only
    rw [rehashed.home raw rawMem, homeCell, homeCell, sameHash]
    rfl
  filled x := by
    have moved : residents (2 ^ shift) (placedRaw.map fun p => (p.1.mapEntry g, p.2)) x =
        (residents (2 ^ shift) placedRaw x).map (InfoPair.mapEntry g) := by
      unfold residents
      rw [List.filter_map, List.map_map, List.map_map]
      rfl
    rw [moved]
    exact (rehashed.filled x).mapEntry g

theorem Bucket.homes_mapEntry (g : W → E) (sameHash : L'.h1ToHash = L.h1ToHash)
    (b : Bucket F H W) (shift : Nat) : (b.mapEntry g).homes L shift = b.homes L' shift := by
  rw [← Bucket.map_homeCell_liveInfos L _ 0, ← Bucket.map_homeCell_liveInfos L' _ 0,
    Bucket.liveInfos_mapEntry, List.map_map]
  refine List.map_congr_left fun info _ => ?_
  rw [Function.comp_apply, homeCell, homeCell, sameHash]
  rfl

end MapEntry

section Lookups

variable [DecidableEq H] {uninit : Nat → Cell F H E} {n fuel bucketI : Nat}

/-- No live entry lies in a cell whose counter is at its maximum. -/
def Bucket.LiveCalm (b : Bucket F H E) : Prop :=
  ∀ c < b.cellCount, ∀ i, (b.cells c).live i = true → (b.cells c).ver.seqNo ≠ 0xFFFFFFFF

instance (b : Bucket F H E) : Decidable b.LiveCalm :=
  decidable_of_iff (∀ c < b.cellCount, ∀ i < F.bits, (b.cells c).live i = true →
      (b.cells c).ver.seqNo ≠ 0xFFFFFFFF)
    ⟨fun calm c inside i alive => calm c inside i (Version.lt_bits_of_live alive) alive,
      fun calm c inside i _ => calm c inside i⟩

/-- No entry of the bucket meets `MAX_PROBE_LEN` saturated cells in a rehash to
`2 ^ shift` cells. -/
def Bucket.Near (L : SlotLayout K V H E) (b : Bucket F H E) (shift : Nat) : Prop :=
  Fits F.fullCount (2 ^ shift) maxProbeLen [] (b.homes L shift)

omit [DecidableEq H] in
/-- A rehash without far entries keeps the placement invariant and the bindings. -/
theorem Bucket.Placed.rehash (was : old.Placed L) (near : old.Near L shift)
    (ok : old.rehash L bi shift uninit = .ok (new, n)) :
    new.Placed L ∧ ∀ key value, new.Binds L key value ↔ old.Binds L key value := by
  obtain ⟨placed, rehashed, near_iff⟩ := Bucket.rehash_disp_lt_iff ok (k := maxProbeLen)
  exact ⟨rehashed.placed_of_near was (near_iff.mpr near), fun _ _ => rehashed.binds_iff was.wf⟩

omit [DecidableEq H] in
theorem Bucket.rehash_calm (ok : old.rehash L bi shift uninit = .ok (new, n)) : new.Calm := by
  obtain ⟨placed, rehashed, -⟩ := Bucket.rehash_disp_lt_iff ok (k := 0)
  exact rehashed.calm

/-- Every lookup answers after the rehash what it answered before exactly when no
live entry sits under a counter at its maximum, where a lookup spins, and none
meets `MAX_PROBE_LEN` saturated cells on its way. -/
theorem Bucket.rehash_keeps_findSlot_iff (was : old.Placed L)
    (ok : old.rehash L bi shift uninit = .ok (new, n)) (enough : maxProbeLen < fuel) :
    (∀ key, new.findSlot L key (L.keyHash key) fuel bucketI =
        old.findSlot L key (L.keyHash key) fuel bucketI) ↔
      old.LiveCalm ∧ old.Near L shift := by
  have calm := Bucket.rehash_calm ok
  constructor
  · intro same
    constructor
    · intro c inside i alive maximal
      obtain ⟨key, value, stored, -⟩ := (was.wf c inside).stored i alive
      have spins : old.findSlot L key (L.keyHash key) fuel bucketI = _ :=
        Bucket.findSlot_of_holds was enough inside ⟨alive, stored⟩
      rw [(Cell.stuck_iff _).mpr maximal, if_pos rfl, ← same] at spins
      obtain ⟨res, returns⟩ : ∃ res, new.findSlot L key (L.keyHash key) fuel bucketI = .ok res :=
        Bucket.findSlot_returns calm enough
      cases returns.symm.trans spins
    · obtain ⟨placed, rehashed, near_iff⟩ := Bucket.rehash_disp_lt_iff ok (k := maxProbeLen)
      refine near_iff.mp fun p mem => ?_
      by_contra far
      obtain ⟨key, value, stored, -, c, inside, i, holds, -⟩ :=
        stored_of_mem_liveInfos was.wf (rehashed.mem_infos mem)
      have lost : new.findSlot L key (L.keyHash key) fuel bucketI = .ok none :=
        rehashed.findSlot_of_far was mem (Nat.not_lt.mp far) stored enough
      rw [same, Bucket.findSlot_of_holds was enough inside holds] at lost
      split at lost <;> cases lost
  · rintro ⟨liveCalm, near⟩ key
    obtain ⟨now, binds⟩ := was.rehash near ok
    by_cases bound : ∃ value, old.Binds L key value
    · obtain ⟨value, c, inside, i, holds⟩ := bound
      obtain ⟨c', inside', i', holds'⟩ := (binds key value).mpr ⟨c, inside, i, holds⟩
      have notStuck : (old.cells c).stuck = false := by
        rw [← Bool.not_eq_true, Cell.stuck_iff]
        exact liveCalm c inside i holds.1
      rw [Bucket.findSlot_of_holds was enough inside holds, notStuck,
        Bucket.findSlot_of_holds now enough inside' holds', calm.stuck inside']
    · rw [Bucket.findSlot_of_unbound was.wf enough fun x hx i value holds =>
          bound ⟨value, x, old.lt_of_mem_path hx, i, holds⟩,
        Bucket.findSlot_of_unbound now.wf enough fun x hx i value holds =>
          bound ⟨value, (binds key value).mp ⟨x, new.lt_of_mem_path hx, i, holds⟩⟩]

end Lookups

end TurboHash
