import TurboHash.RehashRefinement

/-!
# When the searches return

`seq_no_ + 1` wraps to zero after 2^32 - 1 writes to a cell. From then on the retry
test holds of a cell that nobody changes, and a search that makes the test on it never
returns: `findSlot` in the cell that matches the key, `findSlotForInsert` also in the
first cell that is not full, `deleteSlot` in every cell with the `H1` of the key.

The statements are about any content of the cells.
-/

namespace TurboHash

variable {F : CellFormat} {K V H E : Type} {L : SlotLayout K V H E}

/-! ## What a search looks at -/

/-- Slot `i` is live and has the tag and the `H1` of the key. -/
def Cell.SameH1 (L : SlotLayout K V H E) (c : Cell F H E) (key : K) (i : Nat) : Prop :=
  c.loadVersion.live i = true ∧ c.tags i = (L.keyHash key).h2 ∧
    (c.slots i).h1 = (L.keyHash key).h1

/-- Slot `i` matches the key. -/
def Cell.Matches (L : SlotLayout K V H E) (c : Cell F H E) (key : K) (i : Nat) : Prop :=
  c.SameH1 L key i ∧ L.slotKeyEqual key (c.slots i) = true

/-- A search passes a cell that is full and has no slot of the key. -/
def Cell.Passed (L : SlotLayout K V H E) (c : Cell F H E) (key : K) : Prop :=
  c.Full ∧ ∀ i, ¬ c.Matches L key i

/-- A search for the key comes to cell `c`: it passes all cells of the path before it. -/
def Bucket.Visits (L : SlotLayout K V H E) (b : Bucket F H E) (key : K) (c : Nat) : Prop :=
  ∃ before after, b.path L key = before ++ c :: after ∧ ∀ x ∈ before, (b.cells x).Passed L key

/-- The bits of `MatchBitSet`, whatever the cell holds. -/
theorem Cell.mem_matchBitSet {c : Cell F H E} {i : Nat} {h2 : UInt8} :
    i ∈ (c.loadMeta.matchBitSet h2).toList ↔ c.loadVersion.live i = true ∧ c.tags i = h2 := by
  have wide := F.bits_le
  rw [BitSet.mem_toList]
  simp only [CellMeta.matchBitSet, CellMeta.cmpeqMask, Cell.loadMeta, Cell.loadVersion,
    Version.masked, BitVec.getLsbD_setWidth, BitVec.getLsbD_and, BitVec.getLsbD_not,
    F.getLsbD_bitMapMask, getLsbD_movemask, Version.live, Bool.and_eq_true, decide_eq_true_eq,
    beq_iff_eq, Bool.not_eq_true']
  constructor
  · rintro ⟨_, ⟨⟨⟨⟨tag, _⟩, _⟩, occupied⟩, _, present⟩, _⟩
    exact ⟨⟨occupied, present⟩, tag⟩
  · rintro ⟨⟨⟨occupied, start, inside⟩, present⟩, tag⟩
    exact ⟨by omega, ⟨⟨⟨⟨tag, inside⟩, inside⟩, occupied, start, inside⟩, inside, present⟩, start,
      inside⟩

section Scan

variable [DecidableEq H] {c : Cell F H E} {key : K}

/-- The scan of a lookup finds a slot when there is one. -/
theorem Cell.matchSlot_isSome :
    (matchSlot L key (L.keyHash key) c c.loadMeta).isSome = true ↔ ∃ i, c.Matches L key i := by
  rw [matchSlot, List.find?_isSome]
  simp only [Bool.and_eq_true, beq_iff_eq]
  constructor
  · rintro ⟨i, mem, sameH1, equal⟩
    obtain ⟨alive, tag⟩ := Cell.mem_matchBitSet.mp mem
    exact ⟨i, ⟨alive, tag, sameH1⟩, equal⟩
  · rintro ⟨i, ⟨alive, tag, sameH1⟩, equal⟩
    exact ⟨i, Cell.mem_matchBitSet.mpr ⟨alive, tag⟩, sameH1, equal⟩

theorem Cell.matchSlot_eq_none :
    matchSlot L key (L.keyHash key) c c.loadMeta = none ↔ ∀ i, ¬ c.Matches L key i := by
  rw [← Option.not_isSome_iff_eq_none, Cell.matchSlot_isSome, not_exists]

/-- On a stuck cell the scan of `deleteSlot` retries at the first slot with the `H1`. -/
theorem deleteScan_of_stuck (stuck : c.stuck = true) (slots : List Nat) :
    deleteScan L key (L.keyHash key) c c.loadMeta slots =
      if ∃ i ∈ slots, (c.slots i).h1 = (L.keyHash key).h1 then .retry else .miss := by
  have advanced : seqAdvanced c.loadMeta.ver c.loadVersion = true := stuck
  induction slots with
  | nil => rw [deleteScan, if_neg (by simp)]
  | cons i rest ih =>
    rw [deleteScan, advanced, ih]
    by_cases same : (c.slots i).h1 = (L.keyHash key).h1
    · rw [if_pos (beq_iff_eq.mpr same), if_pos rfl, if_pos ⟨i, by simp, same⟩]
    · rw [if_neg (by simpa using same)]
      simp only [List.mem_cons, exists_eq_or_imp, same, false_or]

end Scan

/-! ## When a loop returns -/

section Loop

variable {σ α : Type} {body : σ → Nat → ProbeOutcome σ α} {finish : σ → α}

/-- What a loop body does in the cells it retries in for ever, passes, and stops in. -/
structure Sorted (body : σ → Nat → ProbeOutcome σ α) (Bad Pass : Nat → Prop) : Prop where
  retries : ∀ c locals, Bad c → ∃ locals', body locals c = .retry locals'
  passes : ∀ c locals, ¬ Bad c → Pass c → ∃ locals', body locals c = .next locals'
  stops : ∀ c locals, ¬ Bad c → ¬ Pass c → ∃ result, body locals c = .done result

theorem Sorted.pathLoop_returns_iff {Bad Pass : Nat → Prop} (sorted : Sorted body Bad Pass)
    (path : List Nat) (locals : σ) :
    (∃ result, pathLoop body finish path locals = .ok result) ↔
      ∀ before c after, path = before ++ c :: after → (∀ x ∈ before, Pass x) → ¬ Bad c := by
  induction path generalizing locals with
  | nil => simp [pathLoop]
  | cons x path ih =>
    rw [pathLoop]
    by_cases bad : Bad x
    · obtain ⟨locals', outcome⟩ := sorted.retries x locals bad
      rw [outcome]
      constructor
      · rintro ⟨result, ok⟩
        cases ok
      · intro never
        exact absurd bad (never [] x path rfl (by simp))
    · by_cases pass : Pass x
      · obtain ⟨locals', outcome⟩ := sorted.passes x locals bad pass
        rw [outcome]
        simp only [ih]
        constructor
        · intro never before c after split passed
          rcases List.cons_eq_append_iff.mp split with ⟨rfl, rest⟩ | ⟨before', rfl, rest⟩
          · exact (List.cons.inj rest).1 ▸ bad
          · exact never before' c after rest fun y mem => passed y (by simp [mem])
        · intro never before c after split passed
          refine never (x :: before) c after (by rw [split]; rfl) fun y mem => ?_
          rcases List.mem_cons.mp mem with rfl | mem
          · exact pass
          · exact passed y mem
      · obtain ⟨result, outcome⟩ := sorted.stops x locals bad pass
        rw [outcome]
        constructor
        · intro _ before c after split passed
          rcases List.cons_eq_append_iff.mp split with ⟨rfl, rest⟩ | ⟨before', rfl, -⟩
          · exact (List.cons.inj rest).1 ▸ bad
          · exact absurd (passed x (by simp)) pass
        · exact fun _ => ⟨result, rfl⟩

/-- The loop with fuel returns for some fuel when the walk along the path returns. -/
theorem probeLoop_returns_iff (spins : Spins body) (hash : UInt64) (shift bucketI : Nat)
    (locals : σ) :
    (∃ fuel result, probeLoop body finish fuel (.start hash (2 ^ shift - 1) bucketI) 0 locals =
      .ok result) ↔ ∃ result, pathLoop body finish (probePath hash (2 ^ shift)) locals =
        .ok result := by
  constructor
  · rintro ⟨fuel, result, ok⟩
    have more := probeLoop_mono (Nat.le_max_left fuel (maxProbeLen + 1)) ok
    rw [probeLoop_eq_pathLoop spins hash shift bucketI locals (by omega)] at more
    exact ⟨result, more⟩
  · rintro ⟨result, ok⟩
    refine ⟨maxProbeLen + 1, result, ?_⟩
    rwa [probeLoop_eq_pathLoop spins hash shift bucketI locals (Nat.lt_succ_self _)]

end Loop

/-! ## The three searches -/

namespace Bucket

variable [DecidableEq H] {b : Bucket F H E} {key : K} {bucketI : Nat}

theorem sorted_findBody : Sorted (findBody L b key (L.keyHash key))
    (fun c => (∃ i, (b.cells c).Matches L key i) ∧ (b.cells c).stuck = true)
    fun c => (b.cells c).Passed L key := by
  constructor
  · rintro c locals ⟨found, stuck⟩
    obtain ⟨i, hit⟩ := Option.isSome_iff_exists.mp (Cell.matchSlot_isSome.mpr found)
    exact ⟨(), by simp only [findBody, hit]; exact if_pos stuck⟩
  · rintro c locals _ ⟨full, unmatched⟩
    exact ⟨(), by simp only [findBody, Cell.matchSlot_eq_none.mpr unmatched]; exact if_pos full⟩
  · intro c locals calm stop
    cases scan : matchSlot L key (L.keyHash key) (b.cells c) (b.cells c).loadMeta with
    | some i =>
      have found := Cell.matchSlot_isSome.mp (by rw [scan]; rfl)
      have quiet : (b.cells c).stuck ≠ true := fun stuck => calm ⟨found, stuck⟩
      exact ⟨_, by simp only [findBody, scan]; exact if_neg quiet⟩
    | none =>
      have notFull : ¬ (b.cells c).Full := fun full => stop ⟨full, Cell.matchSlot_eq_none.mp scan⟩
      exact ⟨_, by simp only [findBody, scan]; exact if_neg notFull⟩

theorem sorted_insertBody : Sorted (insertBody L b key (L.keyHash key) bucketI)
    (fun c => ((∃ i, (b.cells c).Matches L key i) ∨ ¬ (b.cells c).Full) ∧
      (b.cells c).stuck = true)
    fun c => (b.cells c).Passed L key := by
  constructor
  · rintro c toInsert ⟨stops, stuck⟩
    cases scan : matchSlot L key (L.keyHash key) (b.cells c) (b.cells c).loadMeta with
    | some i => exact ⟨_, by rw [insertBody_of_holds scan, if_pos stuck]⟩
    | none =>
      have notFull : ¬ (b.cells c).Full :=
        stops.resolve_left (not_exists.mpr (Cell.matchSlot_eq_none.mp scan))
      refine ⟨some ((rememberTombstone b toInsert c).getD
        (c, (b.cells c).loadMeta.backupBitSet.deref)), ?_⟩
      rw [insertBody_of_missed scan]
      dsimp only
      rw [if_neg (show ¬ (b.cells c).loadMeta.full = true from notFull), if_pos stuck]
  · rintro c toInsert _ ⟨full, unmatched⟩
    refine ⟨rememberTombstone b toInsert c, ?_⟩
    rw [insertBody_of_missed (Cell.matchSlot_eq_none.mpr unmatched)]
    exact if_pos full
  · intro c toInsert calm stop
    cases scan : matchSlot L key (L.keyHash key) (b.cells c) (b.cells c).loadMeta with
    | some i =>
      have found := Cell.matchSlot_isSome.mp (by rw [scan]; rfl)
      have quiet : (b.cells c).stuck ≠ true := fun stuck => calm ⟨Or.inl found, stuck⟩
      exact ⟨_, by rw [insertBody_of_holds scan, if_neg quiet]⟩
    | none =>
      have notFull : ¬ (b.cells c).Full := fun full => stop ⟨full, Cell.matchSlot_eq_none.mp scan⟩
      have quiet : (b.cells c).stuck ≠ true := fun stuck => calm ⟨Or.inr notFull, stuck⟩
      exact ⟨_, by
        rw [insertBody_of_missed scan]
        dsimp only
        rw [if_neg (show ¬ (b.cells c).loadMeta.full = true from notFull), if_neg quiet]⟩

theorem sorted_deleteBody : Sorted (deleteBody L b key (L.keyHash key))
    (fun c => (∃ i, (b.cells c).SameH1 L key i) ∧ (b.cells c).stuck = true)
    fun c => (b.cells c).Passed L key := by
  have scanned : ∀ c, (∃ i, (b.cells c).SameH1 L key i) ↔
      ∃ i ∈ ((b.cells c).loadMeta.matchBitSet (L.keyHash key).h2).toList,
        ((b.cells c).slots i).h1 = (L.keyHash key).h1 := by
    intro c
    simp only [Cell.mem_matchBitSet, Cell.SameH1, and_assoc]
  constructor
  · rintro c locals ⟨found, stuck⟩
    refine ⟨(), ?_⟩
    simp only [deleteBody]
    rw [deleteScan_of_stuck stuck, if_pos ((scanned c).mp found)]
  · rintro c locals calm ⟨full, unmatched⟩
    refine ⟨(), ?_⟩
    simp only [deleteBody]
    cases stuck : (b.cells c).stuck with
    | true =>
      rw [deleteScan_of_stuck stuck, if_neg fun found => calm ⟨(scanned c).mpr found, stuck⟩]
      exact if_pos full
    | false =>
      have missed := Cell.matchSlot_eq_none.mpr unmatched
      rw [matchSlot] at missed
      rw [deleteScan_eq_find? _ _ stuck, missed]
      exact if_pos full
  · intro c locals calm stop
    simp only [deleteBody]
    cases stuck : (b.cells c).stuck with
    | true =>
      have unfound : ¬ ∃ i, (b.cells c).SameH1 L key i := fun found => calm ⟨found, stuck⟩
      have notFull : ¬ (b.cells c).Full := fun full =>
        stop ⟨full, fun i matched => unfound ⟨i, matched.1⟩⟩
      rw [deleteScan_of_stuck stuck, if_neg fun found => unfound ((scanned c).mpr found)]
      exact ⟨_, if_neg notFull⟩
    | false =>
      rw [deleteScan_eq_find? _ _ stuck]
      cases scan : matchSlot L key (L.keyHash key) (b.cells c) (b.cells c).loadMeta with
      | some i =>
        rw [matchSlot] at scan
        rw [scan]
        exact ⟨_, rfl⟩
      | none =>
        have notFull : ¬ (b.cells c).Full := fun full =>
          stop ⟨full, Cell.matchSlot_eq_none.mp scan⟩
        rw [matchSlot] at scan
        rw [scan]
        exact ⟨_, if_neg notFull⟩

omit [DecidableEq H] in
/-- A search whose body is sorted returns when no cell it comes to is one to retry in
for ever. -/
theorem returns_iff {σ α : Type} {body : σ → Nat → ProbeOutcome σ α} {finish : σ → α}
    {locals : σ} {Bad : Nat → Prop} (spins : Spins body)
    (sorted : Sorted body (fun c => Bad c ∧ (b.cells c).stuck = true)
      fun c => (b.cells c).Passed L key) :
    (∃ fuel result, probeLoop body finish fuel
        (.start (L.homeHash key) b.cellCountMask bucketI) 0 locals = .ok result) ↔
      ∀ c, b.Visits L key c → Bad c → (b.cells c).ver.seqNo ≠ 0xFFFFFFFF := by
  rw [Bucket.cellCountMask, Bucket.cellCount, probeLoop_returns_iff spins]
  refine (sorted.pathLoop_returns_iff (b.path L key) locals).trans ?_
  constructor
  · rintro never c ⟨before, after, split, passed⟩ bad maximal
    exact never before c after split passed ⟨bad, (Cell.stuck_iff _).mpr maximal⟩
  · rintro never before c after split passed ⟨bad, stuck⟩
    exact never c ⟨before, after, split, passed⟩ bad ((Cell.stuck_iff _).mp stuck)

end Bucket

/-! ## The three operations -/

namespace Table

variable [DecidableEq H] {P : TableParams F K V H E} {t : Table F H E} {key : K}

theorem deleteSlot_returns_iff_search :
    (∃ fuel result, t.deleteSlot P fuel key (P.layout.keyToHash key) = .ok result) ↔
      ∃ fuel result, t.searchForDelete P fuel key = .ok result := by
  constructor
  · rintro ⟨fuel, ⟨t', found, retired⟩, ok⟩
    rcases deleteSlot_cases ok with ⟨search, -⟩ | ⟨c, i, search, -⟩
    · exact ⟨fuel, _, search⟩
    · exact ⟨fuel, _, search⟩
  · rintro ⟨fuel, result, search⟩
    simp only [searchForDelete, bucketOf, SlotLayout.keyHash] at search
    refine ⟨fuel, ?_⟩
    rw [Table.deleteSlot]
    simp only [search]
    cases result <;> exact ⟨_, rfl⟩

theorem findSlot_returns_iff :
    (∃ fuel result, t.findSlot P fuel key (P.layout.keyToHash key) = .ok result) ↔
      ∀ c, (t.buckets (t.bucketOf P.layout key)).Visits P.layout key c →
        (∃ i, ((t.buckets (t.bucketOf P.layout key)).cells c).Matches P.layout key i) →
        ((t.buckets (t.bucketOf P.layout key)).cells c).ver.seqNo ≠ 0xFFFFFFFF :=
  Bucket.returns_iff spins_findBody Bucket.sorted_findBody

theorem searchForInsert_returns_iff :
    (∃ fuel result, t.searchForInsert P fuel key = .ok result) ↔
      ∀ c, (t.buckets (t.bucketOf P.layout key)).Visits P.layout key c →
        ((∃ i, ((t.buckets (t.bucketOf P.layout key)).cells c).Matches P.layout key i) ∨
          ¬ ((t.buckets (t.bucketOf P.layout key)).cells c).Full) →
        ((t.buckets (t.bucketOf P.layout key)).cells c).ver.seqNo ≠ 0xFFFFFFFF :=
  Bucket.returns_iff spins_insertBody Bucket.sorted_insertBody

theorem deleteSlot_returns_iff :
    (∃ fuel result, t.deleteSlot P fuel key (P.layout.keyToHash key) = .ok result) ↔
      ∀ c, (t.buckets (t.bucketOf P.layout key)).Visits P.layout key c →
        (∃ i, ((t.buckets (t.bucketOf P.layout key)).cells c).SameH1 P.layout key i) →
        ((t.buckets (t.bucketOf P.layout key)).cells c).ver.seqNo ≠ 0xFFFFFFFF := by
  rw [deleteSlot_returns_iff_search]
  exact Bucket.returns_iff spins_deleteBody Bucket.sorted_deleteBody

/-- Alone, the searches return exactly when they make no retry test on a cell whose counter
is at its maximum; and the retry test fails on an unchanged cell exactly when its counter
is not. -/
theorem searches_return_iff (P : TableParams F K V H E) (t : Table F H E) (key : K) :
    ((∃ fuel result, t.findSlot P fuel key (P.layout.keyToHash key) = .ok result) ↔
      ∀ c, (t.buckets (t.bucketOf P.layout key)).Visits P.layout key c →
        (∃ i, ((t.buckets (t.bucketOf P.layout key)).cells c).Matches P.layout key i) →
        ((t.buckets (t.bucketOf P.layout key)).cells c).ver.seqNo ≠ 0xFFFFFFFF) ∧
    ((∃ fuel result, t.searchForInsert P fuel key = .ok result) ↔
      ∀ c, (t.buckets (t.bucketOf P.layout key)).Visits P.layout key c →
        ((∃ i, ((t.buckets (t.bucketOf P.layout key)).cells c).Matches P.layout key i) ∨
          ¬ ((t.buckets (t.bucketOf P.layout key)).cells c).Full) →
        ((t.buckets (t.bucketOf P.layout key)).cells c).ver.seqNo ≠ 0xFFFFFFFF) ∧
    ((∃ fuel result, t.deleteSlot P fuel key (P.layout.keyToHash key) = .ok result) ↔
      ∀ c, (t.buckets (t.bucketOf P.layout key)).Visits P.layout key c →
        (∃ i, ((t.buckets (t.bucketOf P.layout key)).cells c).SameH1 P.layout key i) →
        ((t.buckets (t.bucketOf P.layout key)).cells c).ver.seqNo ≠ 0xFFFFFFFF) ∧
    ∀ c : Cell F H E, seqAdvanced c.loadMeta.ver c.loadVersion = false ↔
      c.ver.seqNo ≠ 0xFFFFFFFF := by
  refine ⟨findSlot_returns_iff, searchForInsert_returns_iff, deleteSlot_returns_iff, fun c => ?_⟩
  rw [Ne, ← Cell.stuck_iff, Bool.not_eq_true]
  rfl

end Table

/-! ## A counter at its maximum -/

section Hot

open Simulation

theorem insertToSlotAndGC_seqNo {hash : UInt64} {key : K} {value : V} {c : Cell F H E}
    {info : SlotInfo H} :
    (insertToSlotAndGC L hash key value c info).1.ver.seqNo = c.ver.seqNo + 1 := by
  rw [insertToSlotAndGC]
  split <;> rfl

theorem Cell.Holds.matches [DecidableEq H] {c : Cell F H E} {key : K} {value : V} {i : Nat}
    (wf : c.WellFormed L) (holds : c.Holds L i key value) : c.Matches L key i := by
  obtain ⟨alive, stored⟩ := holds
  obtain ⟨key', value', stored', tag⟩ := wf.stored i alive
  obtain ⟨rfl, rfl⟩ := L.slotOf_inj (stored.symm.trans stored')
  have same := (L.match_slotOf key key value).mpr rfl
  rw [← stored, Bool.and_eq_true, beq_iff_eq] at same
  refine ⟨⟨?_, tag, same.1⟩, same.2⟩
  rw [wf.loadVersion_eq]
  exact alive

/-- A table of one cell after `n` puts of key 7. -/
structure Hot (n : Nat) (t : Table cellMeta128 UInt64 UInt64) : Prop where
  bucketShift : t.bucketCountShift = 0
  cellShift : (t.buckets 0).cellCountShift = 0
  seqNo : ((t.buckets 0).cells 0).ver.seqNo = UInt32.ofNat n
  refines : t.Refines dramLayout (if n = 0 then fun _ => none else
    Function.update (fun _ => none) 7 (some 1))
  unused : n = 0 → ¬ ((t.buckets 0).cells 0).Full

variable {n : Nat} {t : Table cellMeta128 UInt64 UInt64}

theorem Hot.bucketOf (hot : Hot n t) (key : UInt64) : t.bucketOf dramLayout key = 0 := by
  have less := t.bucketOf_lt dramLayout key
  rw [Table.bucketCount, hot.bucketShift] at less
  exact Nat.lt_one_iff.mp less

theorem Hot.cellCount (hot : Hot n t) : (t.buckets 0).cellCount = 1 := by
  rw [Bucket.cellCount, hot.cellShift]
  rfl

theorem Hot.calm (hot : Hot n t) (small : n < 2 ^ 32 - 1) : (t.buckets 0).Calm := by
  intro c inside maximal
  rw [hot.cellCount, Nat.lt_one_iff] at inside
  have count : (UInt32.ofNat n).toNat = n :=
    UInt32.toNat_ofNat_of_lt (by simp only [UInt32.size]; omega)
  rw [inside, hot.seqNo, ← UInt32.toNat_inj, count] at maximal
  rw [maximal] at small
  exact absurd small (by decide)

/-- The search of a put of key 7 finds a slot in the only cell. -/
theorem Hot.search (hot : Hot n t) (small : n < 2 ^ 32 - 1) :
    ∃ res, t.searchForInsert dram 17 7 = .ok res ∧ res.find = true ∧ res.targetSlot.cell = 0 := by
  have zero : t.bucketOf dram.layout 7 = 0 := hot.bucketOf 7
  have placed : (t.buckets 0).Placed dramLayout :=
    hot.refines.valid.placed 0 t.bucketCount_pos
  obtain ⟨res, search⟩ : ∃ res, t.searchForInsert dram 17 7 = .ok res := by
    rw [Table.searchForInsert, zero]
    exact Bucket.findSlotForInsert_returns (hot.calm small) (by decide)
  have only : ∀ c < (t.buckets 0).cellCount, c = 0 := fun c inside => by
    rwa [hot.cellCount, Nat.lt_one_iff] at inside
  refine ⟨res, search, ?_⟩
  rw [Table.searchForInsert, zero] at search
  cases Bucket.findSlotForInsert_answer placed.wf (by decide) search with
  | update inside => exact ⟨rfl, only _ inside⟩
  | insert inside => exact ⟨rfl, only _ inside⟩
  | noRoom full unbound =>
    obtain ⟨rest, path⟩ := probePath_eq_cons (dramLayout.homeHash 7) (t.buckets 0).cellCount_pos
    have mem : 0 ∈ (t.buckets 0).path dramLayout 7 := by
      rw [Bucket.path, path, hot.cellCount, Nat.mod_one]
      exact List.mem_cons_self
    by_cases first : n = 0
    · exact absurd (full 0 mem).1 (hot.unused first)
    · have bound := (hot.refines.binds 7 1).mpr (by rw [if_neg first, Function.update_self])
      rw [Table.Binds, hot.bucketOf] at bound
      obtain ⟨c, inside, i, holds⟩ := bound
      exact absurd (only c inside ▸ holds) (unbound 0 mem i 1)

/-- One more put adds one to the counter. -/
theorem Hot.put (hot : Hot n t) (small : n < 2 ^ 32 - 1) :
    ∃ t', mapExec dram 17 t (.put 7 1) = .ok (t', .put) ∧ Hot (n + 1) t' := by
  have zero : t.bucketOf dram.layout 7 = 0 := hot.bucketOf 7
  obtain ⟨res, search, found, cell⟩ := hot.search small
  obtain ⟨retired, ok⟩ := Table.insertSlot_of_found search found 1 16
  refine ⟨t.commit dram 7 1 res.targetSlot, by rw [mapExec, ok]; rfl, ?_⟩
  have refines := hot.refines.commit (P := dram) (by decide) search found 1
  have bucket : (t.commit dram 7 1 res.targetSlot).buckets 0 =
      (t.buckets 0).setCell 0 (insertToSlotAndGC dramLayout (dramLayout.keyToHash 7) 7 1
        ((t.buckets 0).cells 0) res.targetSlot).1 := by
    simp only [Table.commit, zero, cell, Table.setBucket, Function.update_self]
    rfl
  constructor
  · exact hot.bucketShift
  · rw [bucket]
    exact hot.cellShift
  · rw [bucket, Bucket.setCell_self, insertToSlotAndGC_seqNo, hot.seqNo]
    exact (UInt32.ofNat_add n 1).symm
  · rw [if_neg (Nat.succ_ne_zero n)]
    split at refines
    case isTrue => exact refines
    case isFalse => rwa [Function.update_idem] at refines
  · intro impossible
    exact absurd impossible (Nat.succ_ne_zero n)

/-- One bucket of one cell. -/
def dram1x1 : Table cellMeta128 UInt64 UInt64 where
  bucketCountShift := 0
  buckets i := ⟨0, Table.zeroedCells dram i 0⟩
  capacity := 6

theorem construct_dram1x1 : Table.construct dram 1 1 = some dram1x1 := by
  have power : (Table.isPowerOfTwo 1 && Table.isPowerOfTwo 1) = true := by decide
  have shift : ctz (1 : UInt32).toBitVec = 0 := by decide
  have slots : (1 * 1 * UInt32.ofNat (cellMeta128.slotCount - 1)).toUInt64 = 6 := by decide
  rw [Table.construct, if_pos power, shift, slots]
  rfl

theorem hot_dram1x1 : Hot 0 dram1x1 where
  bucketShift := rfl
  cellShift := rfl
  seqNo := by decide
  refines := by
    refine Table.Refines.of_zeroed fun i _ c _ => ?_
    change Table.zeroedCells dram i 0 c = _
    rw [Table.zeroedCells]
    split <;> rfl
  unused _ := by
    unfold Cell.Full
    decide

/-- Any number of puts up to the maximum of the counter. -/
theorem Hot.run (hot : Hot n t) (k : Nat) (small : n + k ≤ 2 ^ 32 - 1) :
    ∃ t' answers, Simulation.run (mapExec dram 17) t (List.replicate k (.put 7 1)) =
      .ok (t', answers) ∧ Hot (n + k) t' := by
  induction k generalizing n t with
  | zero => exact ⟨t, [], rfl, hot⟩
  | succ k ih =>
    obtain ⟨middle, ok, next⟩ := hot.put (by omega)
    obtain ⟨t', answers, rest, last⟩ := ih next (by omega)
    rw [List.replicate_succ, run_cons_of_ok _ ok, rest]
    exact ⟨t', _, rfl, by rwa [show n + (k + 1) = n + 1 + k by omega]⟩

/-- When the counter is at its maximum, no search for the key returns. -/
theorem Hot.not_returns (hot : Hot (2 ^ 32 - 1) t) :
    (¬ ∃ fuel result, t.findSlot dram fuel 7 (dramLayout.keyToHash 7) = .ok result) ∧
      (¬ ∃ fuel result, t.searchForInsert dram fuel 7 = .ok result) ∧
      ¬ ∃ fuel result, t.deleteSlot dram fuel 7 (dramLayout.keyToHash 7) = .ok result := by
  have zero : t.bucketOf dramLayout 7 = 0 := hot.bucketOf 7
  have placed : (t.buckets 0).Placed dramLayout :=
    hot.refines.valid.placed 0 t.bucketCount_pos
  have bound := (hot.refines.binds 7 1).mpr (by simp)
  rw [Table.Binds, zero] at bound
  obtain ⟨c, inside, i, holds⟩ := bound
  rw [hot.cellCount, Nat.lt_one_iff] at inside
  subst inside
  have found := holds.matches (placed.wf 0 (by rw [hot.cellCount]; decide))
  obtain ⟨rest, path⟩ := probePath_eq_cons (dramLayout.homeHash 7) (t.buckets 0).cellCount_pos
  have visits : (t.buckets 0).Visits dramLayout 7 0 := by
    refine ⟨[], rest, ?_, by simp⟩
    rw [Bucket.path, path, hot.cellCount, Nat.mod_one]
    rfl
  have maximal : ((t.buckets 0).cells 0).ver.seqNo = 0xFFFFFFFF := by
    rw [hot.seqNo]
    decide
  refine ⟨fun returns => ?_, fun returns => ?_, fun returns => ?_⟩
  · have never := (Table.findSlot_returns_iff (P := dram)).mp returns 0
    rw [show t.bucketOf dram.layout 7 = 0 from zero] at never
    exact never visits ⟨i, found⟩ maximal
  · have never := (Table.searchForInsert_returns_iff (P := dram)).mp returns 0
    rw [show t.bucketOf dram.layout 7 = 0 from zero] at never
    exact never visits (Or.inl ⟨i, found⟩) maximal
  · have never := (Table.deleteSlot_returns_iff (P := dram)).mp returns 0
    rw [show t.bucketOf dram.layout 7 = 0 from zero] at never
    exact never visits ⟨i, found.1⟩ maximal

/-- After 2^32 - 1 puts of one key, `findSlot`, `findSlotForInsert` and `deleteSlot` of that
key do not return. -/
theorem searches_spin_after_4294967295_puts :
    ∃ t answers, Table.construct dram 1 1 = some dram1x1 ∧
      Simulation.run (mapExec dram 17) dram1x1 (List.replicate (2 ^ 32 - 1) (.put 7 1)) =
        .ok (t, answers) ∧
      (¬ ∃ fuel result, t.findSlot dram fuel 7 (dramLayout.keyToHash 7) = .ok result) ∧
      (¬ ∃ fuel result, t.searchForInsert dram fuel 7 = .ok result) ∧
      ¬ ∃ fuel result, t.deleteSlot dram fuel 7 (dramLayout.keyToHash 7) = .ok result := by
  obtain ⟨t, answers, ran, hot⟩ := hot_dram1x1.run (2 ^ 32 - 1) (by omega)
  rw [Nat.zero_add] at hot
  exact ⟨t, answers, construct_dram1x1, ran, hot.not_returns⟩

end Hot

end TurboHash
