import TurboHash.CellSteps
import TurboHash.Iteration
import TurboHash.Lib.LinearProbe

/-!
# A rehash is linear probing

The counters of `MinorRehash` are the loads of a ring of cells that takes
`fullCount` entries a cell, and its move loop places the live slots of the old
bucket one after the other by linear probing. `Moved` ties the state of the loop
to the layout of the ring; `Bucket.rehash_spec` is the outcome: the new bucket, or
the exit of `findNextSlotInRehash` when an entry finds no room in the
`MAX_PROBE_LEN + 1` cells from its home on.
-/

namespace TurboHash

open LinearProbe

variable {F : CellFormat} {K V H E : Type} {L : SlotLayout K V H E}

theorem CellFormat.slotMaxRange_eq (F : CellFormat) :
    F.slotMaxRange = F.startSlotPos + F.fullCount := by
  have := F.bits_eq
  have := F.slotCount_eq
  have := F.fullCount_eq
  omega

/-! ## The search for a slot -/

/-- `findNextSlotInRehash` searches `MAX_PROBE_LEN + 1` cells. -/
def rehashSpan : Nat := maxProbeLen + 1

theorem nextSlotLoop_eq {load : Nat → Nat} {shift rounds ai : Nat} (inside : ai < 2 ^ shift) :
    nextSlotLoop (F := F) (fun x => F.startSlotPos + load x) (2 ^ shift - 1) rounds ai =
      match place F.fullCount (2 ^ shift) (rounds + 1) load ai with
      | some d => .ok ((ai + d) % 2 ^ shift)
      | none => .error (.exit .noSlotInProbe) := by
  have here : ai % 2 ^ shift = ai := Nat.mod_eq_of_lt inside
  have full : F.slotMaxRange ≤ F.startSlotPos + load ai ↔ ¬ load ai < F.fullCount := by
    rw [F.slotMaxRange_eq]
    omega
  induction rounds generalizing ai with
  | zero =>
    rw [nextSlotLoop, place_succ, place_zero, here]
    by_cases room : load ai < F.fullCount <;> simp [full, room, here]
  | succ rounds ih =>
    have wraps : (if 2 ^ shift - 1 < ai + probeStep then (ai + probeStep) &&& (2 ^ shift - 1)
        else ai + probeStep) = (ai + 1) % 2 ^ shift := by
      rw [Nat.and_two_pow_sub_one_eq_mod, probeStep]
      split
      case isTrue => rfl
      case isFalse => rw [Nat.mod_eq_of_lt (by omega)]
    have next : (ai + 1) % 2 ^ shift < 2 ^ shift := Nat.mod_lt _ (Nat.two_pow_pos _)
    rw [nextSlotLoop, place_succ, here]
    dsimp only
    rw [wraps]
    by_cases room : load ai < F.fullCount
    · simp [full, room, here]
    · rw [if_pos (full.mpr room), if_neg room, ih next (Nat.mod_eq_of_lt next) (by
        rw [F.slotMaxRange_eq]
        omega)]
      cases place F.fullCount (2 ^ shift) (rounds + 1) load ((ai + 1) % 2 ^ shift) with
      | none => rfl
      | some d => simp [Nat.add_assoc, Nat.add_comm 1 d]

/-! ## Filling a cell -/

/-- The first slots of the cell hold the entries `infos`; nothing else is live. -/
structure Cell.Filled (c : Cell F H E) (infos : List (InfoPair H E)) : Prop where
  length_le : infos.length ≤ F.fullCount
  bitmap : ∀ i, c.ver.bitmap.getLsbD i =
    decide (F.startSlotPos ≤ i ∧ i < F.startSlotPos + infos.length)
  bitmapDeleted : c.ver.bitmapDeleted = 0
  seqNo : c.ver.seqNo = 0
  slots : ∀ j info, infos[j]? = some info →
    c.slots (F.startSlotPos + j) = ⟨info.slotInfo.h1, info.hashSlot.entry⟩
  tags : ∀ j info, infos[j]? = some info → c.tags (F.startSlotPos + j) = info.slotInfo.h2

namespace Cell.Filled

variable {c : Cell F H E} {infos : List (InfoPair H E)}

theorem resetMeta (uninit : Nat → Cell F H E) (i : Nat) : (resetMeta uninit i).Filled [] where
  length_le := Nat.zero_le _
  bitmap i := by
    simp [TurboHash.resetMeta, Version.zero]
  bitmapDeleted := rfl
  seqNo := rfl
  slots j info some := by simp at some
  tags j info some := by simp at some

/-- `moveSlot` into the first free slot. -/
theorem moveSlot (filled : c.Filled infos) (room : infos.length < F.fullCount)
    (info : InfoPair H E) :
    (moveSlot c (F.startSlotPos + infos.length) info.slotInfo info.hashSlot).Filled
      (infos ++ [info]) where
  length_le := by simpa using room
  bitmap i := by
    have := F.slotCount_eq
    have := F.fullCount_eq
    change (c.ver.bitmap ||| BitVec.twoPow F.bits (F.startSlotPos + infos.length)).getLsbD i = _
    rw [BitVec.getLsbD_or, filled.bitmap, BitVec.getLsbD_twoPow, List.length_append,
      List.length_singleton, Bool.eq_iff_iff]
    simp only [Bool.or_eq_true, Bool.and_eq_true, decide_eq_true_eq]
    omega
  bitmapDeleted := filled.bitmapDeleted
  seqNo := filled.seqNo
  slots j info' some := by
    change Function.update c.slots _ _ _ = _
    rcases Nat.lt_trichotomy j infos.length with before | rfl | behind
    · rw [Function.update_of_ne (by omega)]
      exact filled.slots j info' (by rwa [List.getElem?_append_left before] at some)
    · rw [List.getElem?_concat_length] at some
      cases some
      rw [Function.update_self]
    · rw [List.getElem?_eq_none (by simp; omega)] at some
      cases some
  tags j info' some := by
    change Function.update c.tags _ _ _ = _
    rcases Nat.lt_trichotomy j infos.length with before | rfl | behind
    · rw [Function.update_of_ne (by omega)]
      exact filled.tags j info' (by rwa [List.getElem?_append_left before] at some)
    · rw [List.getElem?_concat_length] at some
      cases some
      rw [Function.update_self]
    · rw [List.getElem?_eq_none (by simp; omega)] at some
      cases some

theorem live (filled : c.Filled infos) (i : Nat) :
    c.live i = decide (F.startSlotPos ≤ i ∧ i < F.startSlotPos + infos.length) := by
  rw [Cell.live, Version.live, filled.bitmap, filled.bitmapDeleted]
  simp

theorem popcount (filled : c.Filled infos) : popcount c.ver.bitmap = infos.length := by
  have := F.slotCount_eq
  have := F.fullCount_eq
  have := filled.length_le
  have occupied : ((Finset.range F.bits).filter fun i => c.ver.bitmap.getLsbD i = true) =
      Finset.Ico F.startSlotPos (F.startSlotPos + infos.length) := by
    ext i
    simp only [Finset.mem_filter, Finset.mem_range, filled.bitmap, Finset.mem_Ico,
      decide_eq_true_eq]
    omega
  rw [popcount_eq_card, occupied, Nat.card_Ico]
  omega

theorem version_wf (filled : c.Filled infos) : c.ver.WellFormed where
  deleted_occupied i set := by
    rw [filled.bitmapDeleted] at set
    simp at set
  start_le i set := by
    rw [filled.bitmap, decide_eq_true_eq] at set
    exact set.1
  count_le := filled.popcount.trans_le filled.length_le

/-- Changing the slots behind the filled ones changes nothing. -/
theorem congr {c' : Cell F H E} (filled : c.Filled infos) (ver : c'.ver = c.ver)
    (tags : c'.tags = c.tags)
    (slots : ∀ i, i < F.startSlotPos + infos.length → c'.slots i = c.slots i) :
    c'.Filled infos where
  length_le := filled.length_le
  bitmap := ver ▸ filled.bitmap
  bitmapDeleted := ver ▸ filled.bitmapDeleted
  seqNo := ver ▸ filled.seqNo
  slots j info some := by
    obtain ⟨inside, -⟩ := List.getElem?_eq_some_iff.mp some
    rw [slots _ (by omega)]
    exact filled.slots j info some
  tags := tags ▸ filled.tags

end Cell.Filled

/-! ## The move loop -/

/-- The home cell of an entry in a bucket of `count` cells. -/
def homeCell (L : SlotLayout K V H E) (count : Nat) (info : InfoPair H E) : Nat :=
  (L.h1ToHash info.slotInfo.h1).toNat % count

/-- The entries that have been moved into cell `x`, in the order of the moves. -/
def residents (count : Nat) (placed : List (InfoPair H E × Entry)) (x : Nat) :
    List (InfoPair H E) :=
  (placed.filter fun p => p.2.cell count == x).map Prod.fst

theorem length_residents (count : Nat) (placed : List (InfoPair H E × Entry)) (x : Nat) :
    (residents count placed x).length = load count (placed.map Prod.snd) x := by
  rw [residents, List.length_map, load, List.countP_map, List.countP_eq_length_filter]
  rfl

/-- The state of the move loop after the entries of `placed`. -/
structure Moved (L : SlotLayout K V H E) (count : Nat) (placed : List (InfoPair H E × Entry))
    (state : RehashState F H E) : Prop where
  layout : Layout F.fullCount count (placed.map Prod.snd)
  home : ∀ p ∈ placed, p.2.home = homeCell L count p.1
  slotVec : state.slotVec = fun x => F.startSlotPos + load count (placed.map Prod.snd) x
  filled : ∀ x, (state.cells x).Filled (residents count placed x)

section Move

variable {shift : Nat} {placed : List (InfoPair H E × Entry)} {state : RehashState F H E}

theorem homeCell_lt (L : SlotLayout K V H E) (shift : Nat) (info : InfoPair H E) :
    homeCell L (2 ^ shift) info < 2 ^ shift :=
  Nat.mod_lt _ (Nat.two_pow_pos shift)

theorem Moved.start (L : SlotLayout K V H E) (count : Nat) (uninit : Nat → Cell F H E) :
    Moved L count [] ⟨fun _ => F.startSlotPos, resetMeta uninit⟩ where
  layout := .nil _ _
  home p mem := by cases mem
  slotVec := rfl
  filled := Cell.Filled.resetMeta uninit

theorem residents_snoc (count : Nat) (info : InfoPair H E) (e : Entry) (x : Nat) :
    residents count (placed ++ [(info, e)]) x =
      residents count placed x ++ if e.cell count = x then [info] else [] := by
  rw [residents, residents, List.filter_append, List.map_append]
  by_cases here : e.cell count = x <;> simp [here]

theorem findNextSlotInRehash_eq (moved : Moved L (2 ^ shift) placed state) (info : InfoPair H E) :
    findNextSlotInRehash (F := F) L state.slotVec info.slotInfo.h1 (2 ^ shift - 1) =
      match place F.fullCount (2 ^ shift) rehashSpan (load (2 ^ shift) (placed.map Prod.snd))
        (homeCell L (2 ^ shift) info) with
      | some d =>
        let x := (homeCell L (2 ^ shift) info + d) % 2 ^ shift
        .ok ((x, state.slotVec x), Function.update state.slotVec x (state.slotVec x + 1))
      | none => .error (.exit .noSlotInProbe) := by
  have mask : (L.h1ToHash info.slotInfo.h1).toNat &&& (2 ^ shift - 1) =
      homeCell L (2 ^ shift) info :=
    Nat.and_two_pow_sub_one_eq_mod ..
  rw [findNextSlotInRehash, mask, moved.slotVec, nextSlotLoop_eq (homeCell_lt L shift info)]
  rw [show maxProbeLen + 1 = rehashSpan from rfl]
  cases place F.fullCount (2 ^ shift) rehashSpan (load (2 ^ shift) (placed.map Prod.snd))
    (homeCell L (2 ^ shift) info) <;> rfl

/-- One round of the move loop; the "rehash fail" exit is not taken. -/
theorem Moved.moveEntry (moved : Moved L (2 ^ shift) placed state) (info : InfoPair H E) :
    match place F.fullCount (2 ^ shift) rehashSpan (load (2 ^ shift) (placed.map Prod.snd))
      (homeCell L (2 ^ shift) info) with
    | some d => ∃ state', moveEntry L (2 ^ shift - 1) state info = .ok state' ∧
        Moved L (2 ^ shift) (placed ++ [(info, ⟨homeCell L (2 ^ shift) info, d⟩)]) state'
    | none => moveEntry L (2 ^ shift - 1) state info = .error (.exit .noSlotInProbe) := by
  have search := findNextSlotInRehash_eq moved info
  rw [TurboHash.moveEntry]
  cases outcome : place F.fullCount (2 ^ shift) rehashSpan
      (load (2 ^ shift) (placed.map Prod.snd)) (homeCell L (2 ^ shift) info) with
  | none =>
    rw [search, outcome]
    rfl
  | some d =>
    obtain ⟨-, room, -⟩ := place_eq_some.mp outcome
    rw [outcome] at search
    dsimp only at search
    generalize target : (homeCell L (2 ^ shift) info + d) % 2 ^ shift = x at room search
    have counter : state.slotVec x =
        F.startSlotPos + (residents (2 ^ shift) placed x).length := by
      rw [moved.slotVec, length_residents]
    have valid : ¬ F.slotMaxRange ≤ state.slotVec x := by
      rw [counter, length_residents, F.slotMaxRange_eq]
      omega
    have cell : (⟨homeCell L (2 ^ shift) info, d⟩ : Entry).cell (2 ^ shift) = x := target
    rw [search]
    refine ⟨⟨Function.update state.slotVec x (state.slotVec x + 1), Function.update state.cells x
      (moveSlot (state.cells x) (state.slotVec x) info.slotInfo info.hashSlot)⟩, ?_, ?_, ?_, ?_, ?_⟩
    · simp only [bind, Except.bind, valid, if_false, pure, Except.pure]
    · rw [List.map_append]
      exact moved.layout.place (homeCell_lt L shift info) outcome
    · intro p mem
      rcases List.mem_append.mp mem with mem | mem
      · exact moved.home p mem
      · obtain rfl := List.mem_singleton.mp mem
        rfl
    · funext y
      rw [List.map_append, load_append]
      by_cases eq : y = x
      · subst eq
        simp [moved.slotVec, load_singleton, cell, Nat.add_assoc]
      · simp [moved.slotVec, load_singleton, cell, eq, Ne.symm eq]
    · intro y
      change (Function.update state.cells x _ y).Filled _
      rw [residents_snoc, cell]
      by_cases eq : y = x
      · subst eq
        rw [Function.update_self, if_pos rfl, counter]
        refine (moved.filled y).moveSlot ?_ info
        rw [length_residents]
        exact room
      · rw [Function.update_of_ne eq, if_neg (Ne.symm eq), List.append_nil]
        exact moved.filled y

/-- The move loop. -/
theorem Moved.foldlM (moved : Moved L (2 ^ shift) placed state) (infos : List (InfoPair H E)) :
    match placeAll F.fullCount (2 ^ shift) rehashSpan (placed.map Prod.snd)
      (infos.map (homeCell L (2 ^ shift))) with
    | some entries => ∃ state' placed',
        infos.foldlM (TurboHash.moveEntry L (2 ^ shift - 1)) state = .ok state' ∧
          Moved L (2 ^ shift) placed' state' ∧ placed'.map Prod.fst = placed.map Prod.fst ++ infos ∧
          placed'.map Prod.snd = entries
    | none => infos.foldlM (TurboHash.moveEntry L (2 ^ shift - 1)) state =
        .error (.exit .noSlotInProbe) := by
  induction infos generalizing placed state with
  | nil => exact ⟨state, placed, rfl, moved, by simp, rfl⟩
  | cons info infos ih =>
    have step := moved.moveEntry info
    rw [List.map_cons, placeAll, List.foldlM_cons]
    cases outcome : place F.fullCount (2 ^ shift) rehashSpan
        (load (2 ^ shift) (placed.map Prod.snd)) (homeCell L (2 ^ shift) info) with
    | none =>
      rw [outcome] at step
      rw [show TurboHash.moveEntry L (2 ^ shift - 1) state info = _ from step]
      rfl
    | some d =>
      rw [outcome] at step
      obtain ⟨state', ok, moved'⟩ := step
      have rest := ih moved'
      rw [List.map_append] at rest
      have shifted : ∀ {α : Type} (f : RehashState F H E → Except Halt α),
          (TurboHash.moveEntry L (2 ^ shift - 1) state info >>= f) = f state' :=
        fun f => by rw [ok]; rfl
      rw [shifted, Option.bind_some]
      simpa using rest

end Move

/-! ## The new bucket -/

/-- The home cells, in a bucket of `2 ^ shift` cells, of the live slots of `b` in
the order in which the iterator visits them. -/
def Bucket.homes (L : SlotLayout K V H E) (b : Bucket F H E) (shift : Nat) : List Nat :=
  (List.range b.cellCount).flatMap fun c =>
    (b.cells c).loadMeta.validBitSet.toList.map fun i =>
      (L.h1ToHash ((b.cells c).slots i).h1).toNat % 2 ^ shift

theorem Bucket.map_homeCell_liveInfos (L : SlotLayout K V H E) (b : Bucket F H E) (bi shift : Nat) :
    (b.liveInfos bi).map (homeCell L (2 ^ shift)) = b.homes L shift := by
  simp only [liveInfos, homes, List.map_flatMap, cellInfos, List.map_map]
  rfl

theorem Bucket.lt_of_mem_homes {b : Bucket F H E} {shift h : Nat} (mem : h ∈ b.homes L shift) :
    h < 2 ^ shift := by
  rw [← b.map_homeCell_liveInfos L 0] at mem
  obtain ⟨info, -, rfl⟩ := List.mem_map.mp mem
  exact homeCell_lt L shift info

/-- What `MinorRehash` builds: the entries of the old bucket, each in the cell that
linear probing gives it. -/
structure Rehashed (L : SlotLayout K V H E) (bi shift : Nat) (old new : Bucket F H E)
    (placed : List (InfoPair H E × Entry)) : Prop where
  shift_eq : new.cellCountShift = shift
  infos : placed.map Prod.fst = old.liveInfos bi
  layout : Layout F.fullCount (2 ^ shift) (placed.map Prod.snd)
  home : ∀ p ∈ placed, p.2.home = homeCell L (2 ^ shift) p.1
  filled : ∀ x, (new.cells x).Filled (residents (2 ^ shift) placed x)

/-- Steps 1 and 2 of `MinorRehash`. -/
theorem Bucket.rehash_spec (L : SlotLayout K V H E) (bi shift : Nat) (uninit : Nat → Cell F H E)
    (b : Bucket F H E) :
    match placeAll F.fullCount (2 ^ shift) rehashSpan [] (b.homes L shift) with
    | some entries => ∃ new placed, b.rehash L bi shift uninit = .ok (new, (b.liveInfos bi).length) ∧
        Rehashed L bi shift b new placed ∧ placed.map Prod.snd = entries
    | none => b.rehash L bi shift uninit = .error (.exit .noSlotInProbe) := by
  have loop := (Moved.start L (2 ^ shift) uninit).foldlM (b.liveInfos bi)
  rw [b.map_homeCell_liveInfos] at loop
  rw [Bucket.rehash, b.iterate_eq_liveInfos]
  change match placeAll F.fullCount (2 ^ shift) rehashSpan [] (b.homes L shift) with
    | some entries => _
    | none => _ at loop
  cases outcome : placeAll F.fullCount (2 ^ shift) rehashSpan [] (b.homes L shift) with
  | none =>
    rw [outcome] at loop
    dsimp only at loop ⊢
    rw [loop]
    rfl
  | some entries =>
    rw [outcome] at loop
    obtain ⟨state, placed, ok, moved, infos, rfl⟩ := loop
    dsimp only
    rw [ok]
    refine ⟨⟨shift, clearRemaining L state.slotVec state.cells⟩, placed, rfl,
      ⟨rfl, infos, moved.layout, moved.home, fun x => ?_⟩, rfl⟩
    refine (moved.filled x).congr rfl rfl fun i before => if_neg fun cleared => ?_
    have counted : F.startSlotPos + load (2 ^ shift) (placed.map Prod.snd) x ≤ i := by
      simpa [moved.slotVec] using cleared.1
    rw [length_residents] at before
    omega

/-- `MinorRehash` finds all entries a place exactly when none meets
`MAX_PROBE_LEN + 1` saturated cells. -/
theorem Bucket.rehash_ok_or_exit (L : SlotLayout K V H E) (bi shift : Nat)
    (uninit : Nat → Cell F H E) (b : Bucket F H E) :
    (Fits F.fullCount (2 ^ shift) rehashSpan [] (b.homes L shift) ∧
        ∃ new placed, b.rehash L bi shift uninit = .ok (new, (b.liveInfos bi).length) ∧
          Rehashed L bi shift b new placed) ∨
      ¬ Fits F.fullCount (2 ^ shift) rehashSpan [] (b.homes L shift) ∧
        b.rehash L bi shift uninit = .error (.exit .noSlotInProbe) := by
  have spec := b.rehash_spec L bi shift uninit
  have none_iff : placeAll F.fullCount (2 ^ shift) rehashSpan [] (b.homes L shift) = none ↔
      ¬ Fits F.fullCount (2 ^ shift) rehashSpan [] (b.homes L shift) :=
    (Layout.nil _ _).placeAll_eq_none_iff fun h mem => Bucket.lt_of_mem_homes mem
  cases outcome : placeAll F.fullCount (2 ^ shift) rehashSpan [] (b.homes L shift) with
  | none =>
    rw [outcome] at spec
    exact Or.inr ⟨none_iff.mp outcome, spec⟩
  | some entries =>
    rw [outcome] at spec none_iff
    obtain ⟨new, placed, ok, rehashed, -⟩ := spec
    refine Or.inl ⟨?_, new, placed, ok, rehashed⟩
    by_contra unfit
    cases none_iff.mpr unfit

/-- Which entries a rehash has put within `k` cells of their homes. -/
theorem Bucket.rehash_disp_lt_iff {L : SlotLayout K V H E} {bi shift k n : Nat}
    {uninit : Nat → Cell F H E} {b new : Bucket F H E}
    (ok : b.rehash L bi shift uninit = .ok (new, n)) :
    ∃ placed, Rehashed L bi shift b new placed ∧
      ((∀ p ∈ placed, p.2.disp < k) ↔ Fits F.fullCount (2 ^ shift) k [] (b.homes L shift)) := by
  have spec := b.rehash_spec L bi shift uninit
  cases outcome : placeAll F.fullCount (2 ^ shift) rehashSpan [] (b.homes L shift) with
  | none =>
    rw [outcome] at spec
    cases spec.symm.trans ok
  | some entries =>
    rw [outcome] at spec
    obtain ⟨new', placed, ok', rehashed, rfl⟩ := spec
    cases ok'.symm.trans ok
    refine ⟨placed, rehashed, ?_⟩
    have near := (Layout.nil F.fullCount (2 ^ shift)).disp_lt_iff
      (fun h mem => Bucket.lt_of_mem_homes mem) outcome (k := k)
    rw [List.forall_mem_map] at near
    exact near.trans ⟨And.right, fun fits => ⟨by simp, fits⟩⟩

end TurboHash
