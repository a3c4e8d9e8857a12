import TurboHash.CellSteps

/-!
# Where the keys of a bucket live

`Bucket.Placed` is the invariant behind the early stop of the searches: every
live entry sits in a cell of its key's probe path, all cells before it on the
path are full, and no key is live twice. A search may therefore stop at the
first cell that is not full, as long as full cells stay full.

From `Placed` the three searches are characterised: `findSlot` returns the value
the key is bound to, `findSlotForInsert` returns the slot of an update, or a slot
on the path that may take a new key, or finds all the path full.
-/

namespace TurboHash

variable {F : CellFormat} {K V H E : Type} {L : SlotLayout K V H E}

/-- `cell` lies on the probe path behind full cells only. -/
def Reaches (b : Bucket F H E) (path : List Nat) (cell : Nat) : Prop :=
  ∃ before after, path = before ++ cell :: after ∧ ∀ x ∈ before, (b.cells x).Full

namespace Bucket

/-- The probe path of a key in a bucket. -/
def path (L : SlotLayout K V H E) (b : Bucket F H E) (key : K) : List Nat :=
  probePath (L.homeHash key) b.cellCount

/-- Every cell of the bucket satisfies the occupancy invariant. -/
def WellFormed (L : SlotLayout K V H E) (b : Bucket F H E) : Prop :=
  ∀ c < b.cellCount, (b.cells c).WellFormed L

/-- The bucket binds `key` to `value`. -/
def Binds (L : SlotLayout K V H E) (b : Bucket F H E) (key : K) (value : V) : Prop :=
  ∃ c < b.cellCount, ∃ i, (b.cells c).Holds L i key value

/-- The placement invariant. -/
structure Placed (L : SlotLayout K V H E) (b : Bucket F H E) : Prop where
  wf : b.WellFormed L
  reaches : ∀ c < b.cellCount, ∀ i key value, (b.cells c).Holds L i key value →
    Reaches b (b.path L key) c
  unique : ∀ c < b.cellCount, ∀ c' < b.cellCount, ∀ i i' key value value',
    (b.cells c).Holds L i key value → (b.cells c').Holds L i' key value' → c = c' ∧ i = i'

theorem lt_of_mem_path {b : Bucket F H E} {key : K} {c : Nat} (mem : c ∈ b.path L key) :
    c < b.cellCount :=
  lt_of_mem_probePath b.cellCount_pos mem

theorem nodup_path (b : Bucket F H E) (key : K) : (b.path L key).Nodup := by
  refine List.Nodup.map_on ?_ List.nodup_range
  intro d hd e he same
  rw [List.mem_range] at hd he
  exact add_mod_inj (by omega) (by omega) same

end Bucket

theorem Reaches.mem {b : Bucket F H E} {path : List Nat} {cell : Nat}
    (reached : Reaches b path cell) : cell ∈ path := by
  obtain ⟨before, after, rfl, -⟩ := reached
  simp

/-- Nothing is reached behind a cell that is not full. -/
theorem Reaches.mem_of_not_full {b : Bucket F H E} {before after : List Nat} {stop cell : Nat}
    (reached : Reaches b (before ++ stop :: after) cell) (notFull : ¬ (b.cells stop).Full) :
    cell ∈ before ∨ cell = stop := by
  obtain ⟨front, back, split, full⟩ := reached
  rcases List.append_eq_append_iff.mp split with ⟨middle, eq, rest⟩ | ⟨middle, eq, rest⟩
  · cases middle with
    | nil => exact Or.inr (List.cons.inj rest).1.symm
    | cons x middle =>
      obtain ⟨rfl, -⟩ := List.cons.inj rest
      exact absurd (full stop (by simp [eq])) notFull
  · cases middle with
    | nil => exact Or.inr (List.cons.inj rest).1
    | cons x middle =>
      obtain ⟨rfl, -⟩ := List.cons.inj rest
      exact Or.inl (by simp [eq])

/-- A path stays open as long as full cells stay full. -/
theorem Reaches.mono {b b' : Bucket F H E} {path : List Nat} {cell : Nat}
    (keep : ∀ x ∈ path, (b.cells x).Full → (b'.cells x).Full) (reached : Reaches b path cell) :
    Reaches b' path cell := by
  obtain ⟨before, after, rfl, full⟩ := reached
  exact ⟨before, after, rfl, fun x hx => keep x (by simp [hx]) (full x hx)⟩

/-! ## Walking the path -/

section Walk

variable {σ α : Type} {body : σ → Nat → ProbeOutcome σ α} {finish : σ → α}

/-- A body that leaves the cells of `before` for the next one walks past them. -/
theorem pathLoop_append {step : σ → Nat → σ} {before after : List Nat} (locals : σ)
    (passes : ∀ x ∈ before, ∀ s, body s x = .next (step s x)) :
    pathLoop body finish (before ++ after) locals =
      pathLoop body finish after (before.foldl step locals) := by
  induction before generalizing locals with
  | nil => rfl
  | cons x before ih =>
    rw [List.cons_append, pathLoop, passes x (by simp)]
    exact ih _ fun y hy => passes y (by simp [hy])

/-- A walk that never retries returns. -/
theorem pathLoop_returns {path : List Nat} (locals : σ)
    (calm : ∀ x ∈ path, ∀ s s', body s x ≠ .retry s') :
    ∃ result, pathLoop body finish path locals = .ok result := by
  induction path generalizing locals with
  | nil => exact ⟨_, rfl⟩
  | cons x path ih =>
    rw [pathLoop]
    cases outcome : body locals x with
    | done result => exact ⟨result, rfl⟩
    | next locals' => exact ih locals' fun y hy => calm y (by simp [hy])
    | retry locals' => exact absurd outcome (calm x (by simp) _ _)

end Walk

/-- A search has passed the cells of `before`: they are full and do not hold the
key. -/
structure Walk (L : SlotLayout K V H E) (b : Bucket F H E) (key : K)
    (before after : List Nat) : Prop where
  split : b.path L key = before ++ after
  full : ∀ x ∈ before, (b.cells x).Full
  unbound : ∀ x ∈ before, ∀ i value, ¬ (b.cells x).Holds L i key value

namespace Walk

variable {b : Bucket F H E} {key : K} {before after : List Nat} {c : Nat}

theorem start (L : SlotLayout K V H E) (b : Bucket F H E) (key : K) :
    Walk L b key [] (b.path L key) :=
  ⟨rfl, by simp, by simp⟩

theorem reaches (walk : Walk L b key before after) {x : Nat} (mem : x ∈ before) :
    Reaches b (b.path L key) x := by
  obtain ⟨front, back, rfl⟩ := List.append_of_mem mem
  exact ⟨front, back ++ after, by simp [walk.split], fun y hy => walk.full y (by simp [hy])⟩

theorem reaches_next (walk : Walk L b key before (c :: after)) :
    Reaches b (b.path L key) c :=
  ⟨before, after, walk.split, walk.full⟩

theorem inside (walk : Walk L b key before after) {x : Nat} (mem : x ∈ before ∨ x ∈ after) :
    x < b.cellCount :=
  b.lt_of_mem_path (show x ∈ b.path L key by rw [walk.split, List.mem_append]; exact mem)

/-- Past one more full cell without the key. -/
theorem snoc (walk : Walk L b key before (c :: after)) (full : (b.cells c).Full)
    (unbound : ∀ i value, ¬ (b.cells c).Holds L i key value) :
    Walk L b key (before ++ [c]) after where
  split := by simp [walk.split]
  full x hx := by
    rcases List.mem_append.mp hx with hx | hx
    · exact walk.full x hx
    · exact List.mem_singleton.mp hx ▸ full
  unbound x hx := by
    rcases List.mem_append.mp hx with hx | hx
    · exact walk.unbound x hx
    · exact List.mem_singleton.mp hx ▸ unbound

/-- The walk ends at a cell that is not full: the key is in none of the cells
it could be in. -/
theorem unbound_of_not_full (walk : Walk L b key before (c :: after))
    (notFull : ¬ (b.cells c).Full) (unbound : ∀ i value, ¬ (b.cells c).Holds L i key value)
    {x : Nat} (reached : Reaches b (b.path L key) x) (i : Nat) (value : V) :
    ¬ (b.cells x).Holds L i key value := by
  rw [walk.split] at reached
  rcases reached.mem_of_not_full notFull with mem | rfl
  · exact walk.unbound x mem i value
  · exact unbound i value

/-- The walk ends behind the last cell of the path. -/
theorem unbound_of_end (walk : Walk L b key before []) {x : Nat}
    (mem : x ∈ b.path L key) (i : Nat) (value : V) : ¬ (b.cells x).Holds L i key value :=
  walk.unbound x (by simpa [walk.split] using mem) i value

end Walk

/-! ## `findSlot` -/

section Find

variable [DecidableEq H] {b : Bucket F H E} {key : K}

theorem findBody_of_holds {c i : Nat} {value : V} (placed : b.Placed L) (inside : c < b.cellCount)
    (holds : (b.cells c).Holds L i key value) :
    findBody L b key (L.keyHash key) () c =
      if (b.cells c).stuck then .retry () else .done (some (L.slotOf key value)) := by
  have scan := matchSlot_of_holds (placed.wf c inside) holds fun j value' other =>
    (placed.unique c inside c inside j i key value' value other holds).2
  simp only [findBody, scan, holds.2]
  rfl

theorem findBody_of_not_holds {c : Nat} (wf : (b.cells c).WellFormed L)
    (unbound : ∀ i value, ¬ (b.cells c).Holds L i key value) :
    findBody L b key (L.keyHash key) () c =
      if (b.cells c).loadMeta.full then .next () else .done none := by
  cases scan : matchSlot L key (L.keyHash key) (b.cells c) (b.cells c).loadMeta with
  | some i =>
    obtain ⟨value, holds⟩ := holds_of_matchSlot wf scan
    exact absurd holds (unbound i value)
  | none => simp only [findBody, scan]

/-- Lookup of a bound key: its value, unless the cell's counter is at its
maximum and the lookup spins. -/
theorem Bucket.findSlot_of_holds {fuel bucketI c i : Nat} {value : V} (placed : b.Placed L)
    (enough : maxProbeLen < fuel) (inside : c < b.cellCount)
    (holds : (b.cells c).Holds L i key value) :
    b.findSlot L key (L.keyHash key) fuel bucketI =
      if (b.cells c).stuck then .error .outOfFuel else .ok (some (L.slotOf key value)) := by
  obtain ⟨before, after, split, full⟩ := placed.reaches c inside i key value holds
  have fresh : c ∉ before := by
    have distinct := b.nodup_path (L := L) key
    rw [split] at distinct
    exact fun mem => (List.nodup_append.mp distinct).2.2 c mem c (by simp) rfl
  have passes : ∀ x ∈ before, ∀ s, findBody L b key (L.keyHash key) s x = .next () := by
    intro x hx s
    have xInside : x < b.cellCount :=
      b.lt_of_mem_path (show x ∈ b.path L key by rw [split]; simp [hx])
    rw [findBody_of_not_holds (placed.wf x xInside) ?_, if_pos (show _ = true from full x hx)]
    rintro j value' other
    have same := (placed.unique x xInside c inside j i key value' value other holds).1
    exact fresh (same ▸ hx)
  rw [Bucket.findSlot_eq enough]
  change pathLoop _ _ (b.path L key) () = _
  rw [split, pathLoop_append () passes, pathLoop, findBody_of_holds placed inside holds]
  cases (b.cells c).stuck <;> rfl

/-- Lookup of a key that is in no cell of its probe path. -/
theorem Bucket.findSlot_of_unbound {fuel bucketI : Nat} (wf : b.WellFormed L)
    (enough : maxProbeLen < fuel)
    (unbound : ∀ x ∈ b.path L key, ∀ i value, ¬ (b.cells x).Holds L i key value) :
    b.findSlot L key (L.keyHash key) fuel bucketI = .ok none := by
  rw [Bucket.findSlot_eq enough]
  change pathLoop _ _ (b.path L key) () = _
  have insides : ∀ x ∈ b.path L key, x < b.cellCount := fun x hx => b.lt_of_mem_path hx
  generalize b.path L key = path at insides unbound
  induction path with
  | nil => rfl
  | cons x path ih =>
    have xInside := insides x (by simp)
    rw [pathLoop, findBody_of_not_holds (wf x xInside) (unbound x (by simp))]
    split
    case h_1 result outcome =>
      split at outcome <;> cases outcome
      rfl
    case h_2 outcome =>
      exact ih (fun y hy => insides y (by simp [hy])) fun y hy => unbound y (by simp [hy])
    case h_3 outcome => split at outcome <;> cases outcome

end Find

/-! ## `findSlotForInsert` -/

section Insert

variable [DecidableEq H] {b : Bucket F H E} {key : K} {bucketI : Nat}

/-- What `findSlotForInsert` answers for `key`. -/
inductive InsertAnswer (L : SlotLayout K V H E) (b : Bucket F H E) (key : K) (bucketI : Nat) :
    FindSlotForInsertResult H → Prop
  /-- the key is bound: its slot, and the free slot that takes the update -/
  | update {c oldSlot slot : Nat} (inside : c < b.cellCount)
      (reached : Reaches b (b.path L key) c) (value : V)
      (holds : (b.cells c).Holds L oldSlot key value) (free : (b.cells c).ver.Backup slot) :
      InsertAnswer L b key bucketI
        ⟨⟨bucketI, c, slot, (L.keyHash key).h1, (L.keyHash key).h2, true, oldSlot⟩, true⟩
  /-- the key is not bound on the path, and a slot on the path can take it -/
  | insert {c slot : Nat} (inside : c < b.cellCount) (reached : Reaches b (b.path L key) c)
      (free : (b.cells c).ver.Insertable slot)
      (unbound : ∀ x, Reaches b (b.path L key) x → ∀ i value, ¬ (b.cells x).Holds L i key value) :
      InsertAnswer L b key bucketI
        ⟨⟨bucketI, c, slot, (L.keyHash key).h1, (L.keyHash key).h2, false, 0⟩, true⟩
  /-- the path is full and has no deleted slot -/
  | noRoom
      (full : ∀ x ∈ b.path L key, (b.cells x).Full ∧ (b.cells x).ver.bitmapDeleted = 0)
      (unbound : ∀ x ∈ b.path L key, ∀ i value, ¬ (b.cells x).Holds L i key value) :
      InsertAnswer L b key bucketI
        ⟨⟨bucketI, 0, 0, (L.keyHash key).h1, (L.keyHash key).h2, false, 0⟩, false⟩

/-- `cell_to_insert` and `slot_to_insert` after the cell `c`: its deleted slot,
if it has one. -/
def rememberTombstone (b : Bucket F H E) (toInsert : Option (Nat × Nat)) (c : Nat) :
    Option (Nat × Nat) :=
  let erased := (b.cells c).loadMeta.eraseBitSet
  if erased.validCount != 0 then some (c, erased.deref) else toInsert

omit [DecidableEq H] in
theorem rememberTombstone_cases (toInsert : Option (Nat × Nat)) {c : Nat}
    (wf : (b.cells c).WellFormed L) :
    (∃ slot, rememberTombstone b toInsert c = some (c, slot) ∧
        (b.cells c).ver.Insertable slot) ∨
      rememberTombstone b toInsert c = toInsert ∧ (b.cells c).ver.bitmapDeleted = 0 := by
  rw [rememberTombstone]
  split
  case isTrue tombstone =>
    rw [bne_iff_ne, BitSet.validCount_ne_zero] at tombstone
    have free := CellMeta.insertable_erase_deref wf.loadMeta_wf tombstone
    rw [wf.loadMeta_ver] at free
    exact Or.inl ⟨_, rfl, free⟩
  case isFalse clean =>
    rw [bne_iff_ne, BitSet.validCount_ne_zero, BitSet.toBool_eq_true] at clean
    push Not at clean
    refine Or.inr ⟨rfl, BitVec.eq_of_getLsbD_eq fun i _ => ?_⟩
    have clear := clean i
    rw [CellMeta.getLsbD_eraseBitSet wf.loadMeta_wf, wf.loadMeta_ver] at clear
    simpa using clear

theorem insertBody_of_holds {toInsert : Option (Nat × Nat)} {c i : Nat}
    (scan : matchSlot L key (L.keyHash key) (b.cells c) (b.cells c).loadMeta = some i) :
    insertBody L b key (L.keyHash key) bucketI toInsert c =
      if (b.cells c).stuck then .retry toInsert
      else .done ⟨⟨bucketI, c, (b.cells c).loadMeta.backupBitSet.deref, (L.keyHash key).h1,
        (L.keyHash key).h2, true, i⟩, true⟩ := by
  simp only [insertBody, scan]
  rfl

theorem insertBody_of_missed {toInsert : Option (Nat × Nat)} {c : Nat}
    (scan : matchSlot L key (L.keyHash key) (b.cells c) (b.cells c).loadMeta = none) :
    insertBody L b key (L.keyHash key) bucketI toInsert c =
      let toInsert := rememberTombstone b toInsert c
      if (b.cells c).loadMeta.full then .next toInsert
      else
        let target := toInsert.getD (c, (b.cells c).loadMeta.backupBitSet.deref)
        if (b.cells c).stuck then .retry (some target)
        else .done ⟨⟨bucketI, target.1, target.2, (L.keyHash key).h1, (L.keyHash key).h2, false,
          0⟩, true⟩ := by
  simp only [insertBody, scan]
  rfl

/-- The walk of `findSlotForInsert`: the slot it remembers is in one of the cells
it has passed, and if it remembers none, these have no deleted slot. -/
structure InsertWalk (L : SlotLayout K V H E) (b : Bucket F H E) (key : K)
    (before after : List Nat) (toInsert : Option (Nat × Nat)) : Prop
    extends Walk L b key before after where
  remembered : ∀ target, toInsert = some target →
    target.1 ∈ before ∧ (b.cells target.1).ver.Insertable target.2
  noTombstone : toInsert = none → ∀ x ∈ before, (b.cells x).ver.bitmapDeleted = 0

namespace InsertWalk

variable {before after : List Nat} {toInsert : Option (Nat × Nat)} {c : Nat}

omit [DecidableEq H] in
theorem next (walk : InsertWalk L b key before (c :: after) toInsert)
    (wf : (b.cells c).WellFormed L) (full : (b.cells c).Full)
    (unbound : ∀ i value, ¬ (b.cells c).Holds L i key value) :
    InsertWalk L b key (before ++ [c]) after (rememberTombstone b toInsert c) where
  toWalk := walk.snoc full unbound
  remembered target same := by
    rcases rememberTombstone_cases toInsert wf with ⟨slot, eq, free⟩ | ⟨eq, -⟩
    · cases eq.symm.trans same
      exact ⟨by simp, free⟩
    · obtain ⟨mem, free⟩ := walk.remembered target (eq.symm.trans same)
      exact ⟨by simp [mem], free⟩
  noTombstone no x hx := by
    rcases rememberTombstone_cases toInsert wf with ⟨slot, eq, -⟩ | ⟨eq, clean⟩
    · cases eq.symm.trans no
    · rcases List.mem_append.mp hx with hx | hx
      · exact walk.noTombstone (eq.symm.trans no) x hx
      · exact List.mem_singleton.mp hx ▸ clean

theorem answer (walk : InsertWalk L b key before after toInsert) (wf : b.WellFormed L)
    {res : FindSlotForInsertResult H}
    (found : pathLoop (insertBody L b key (L.keyHash key) bucketI)
      (insertFinish (L.keyHash key) bucketI) after toInsert = .ok res) :
    InsertAnswer L b key bucketI res := by
  induction after generalizing before toInsert with
  | nil =>
    have all : b.path L key = before := by simpa using walk.split
    cases toInsert with
    | none =>
      cases found
      exact .noRoom (fun x hx => ⟨walk.full x (all ▸ hx), walk.noTombstone rfl x (all ▸ hx)⟩)
        fun x hx => walk.unbound_of_end hx
    | some target =>
      cases found
      obtain ⟨mem, free⟩ := walk.remembered target rfl
      exact .insert (walk.inside (Or.inl mem)) (walk.reaches mem) free
        fun x hx => walk.unbound_of_end hx.mem
  | cons c after ih =>
    have cInside : c < b.cellCount := walk.inside (Or.inr (by simp))
    have cWf := wf c cInside
    rw [pathLoop] at found
    cases scan : matchSlot L key (L.keyHash key) (b.cells c) (b.cells c).loadMeta with
    | some i =>
      rw [insertBody_of_holds scan] at found
      obtain ⟨value, holds⟩ := holds_of_matchSlot cWf scan
      have free := CellMeta.backup_deref cWf.loadMeta_wf
      rw [cWf.loadMeta_ver] at free
      cases stuck : (b.cells c).stuck <;> simp only [stuck, if_true, if_false,
        Bool.false_eq_true] at found
      · cases found
        exact .update cInside walk.reaches_next value holds free
      · cases found
    | none =>
      have unbound : ∀ i value, ¬ (b.cells c).Holds L i key value :=
        fun i value => not_holds_of_matchSlot cWf scan value
      rw [insertBody_of_missed scan] at found
      dsimp only at found
      by_cases full : (b.cells c).loadMeta.full = true
      · rw [if_pos full] at found
        exact ih (walk.next cWf full unbound) found
      · rw [if_neg full] at found
        cases stuck : (b.cells c).stuck <;> simp only [stuck, if_true, if_false,
          Bool.false_eq_true] at found
        · cases found
          have nowhere := fun x reached => walk.unbound_of_not_full (x := x) full unbound reached
          rcases rememberTombstone_cases toInsert cWf with
            ⟨slot, eq, free⟩ | ⟨eq, -⟩
          · rw [eq]
            exact .insert cInside walk.reaches_next free nowhere
          · rw [eq]
            cases toInsert with
            | some target =>
              obtain ⟨mem, free⟩ := walk.remembered target rfl
              exact .insert (walk.inside (Or.inl mem)) (walk.reaches mem) free nowhere
            | none =>
              have free := CellMeta.insertable_backup_deref cWf.loadMeta_wf (by simpa using full)
              rw [cWf.loadMeta_ver] at free
              exact .insert cInside walk.reaches_next free nowhere
        · cases found

end InsertWalk

/-- The answer of `findSlotForInsert` on a well-formed bucket. -/
theorem Bucket.findSlotForInsert_answer {fuel : Nat} {res : FindSlotForInsertResult H}
    (wf : b.WellFormed L) (enough : maxProbeLen < fuel)
    (found : b.findSlotForInsert L key (L.keyHash key) fuel bucketI = .ok res) :
    InsertAnswer L b key bucketI res := by
  rw [Bucket.findSlotForInsert_eq enough] at found
  have start : InsertWalk L b key [] (b.path L key) none :=
    ⟨.start L b key, by simp, by simp⟩
  exact start.answer wf found

end Insert

/-! ## The search of `deleteSlot` -/

section Delete

variable [DecidableEq H] {b : Bucket F H E} {key : K}

/-- What the search of `deleteSlot` answers for `key`: a slot that binds it, or
nothing, and then the key is in no cell it could be in. -/
def DeleteAnswer (L : SlotLayout K V H E) (b : Bucket F H E) (key : K) :
    Option (Nat × Nat) → Prop
  | some (c, i) => c < b.cellCount ∧ ∃ value, (b.cells c).Holds L i key value
  | none => ∀ x, Reaches b (b.path L key) x → ∀ i value, ¬ (b.cells x).Holds L i key value

theorem Walk.deleteAnswer {before after : List Nat} {res : Option (Nat × Nat)}
    (walk : Walk L b key before after) (wf : b.WellFormed L)
    (found : pathLoop (deleteBody L b key (L.keyHash key)) (fun _ => none) after () = .ok res) :
    DeleteAnswer L b key res := by
  induction after generalizing before with
  | nil =>
    cases found
    exact fun x hx => walk.unbound_of_end hx.mem
  | cons c after ih =>
    have cInside : c < b.cellCount := walk.inside (Or.inr (by simp))
    have cWf := wf c cInside
    rw [pathLoop] at found
    simp only [deleteBody] at found
    cases scan : deleteScan L key (L.keyHash key) (b.cells c) (b.cells c).loadMeta
        ((b.cells c).loadMeta.matchBitSet (L.keyHash key).h2).toList with
    | hit i =>
      rw [scan] at found
      cases found
      exact ⟨cInside, holds_of_matchSlot cWf (matchSlot_of_deleteScan_hit scan)⟩
    | retry =>
      rw [scan] at found
      cases found
    | miss =>
      have unbound : ∀ i value, ¬ (b.cells c).Holds L i key value :=
        fun i value => not_holds_of_matchSlot cWf (matchSlot_of_deleteScan_miss scan) value
      rw [scan] at found
      by_cases full : (b.cells c).loadMeta.full = true
      · simp only [full, if_true] at found
        exact ih (walk.snoc full unbound) found
      · simp only [full] at found
        cases found
        exact fun x reached => walk.unbound_of_not_full full unbound reached

/-- The answer of the search of `deleteSlot` on a well-formed bucket. -/
theorem Bucket.findSlotForDelete_answer {fuel bucketI : Nat} {res : Option (Nat × Nat)}
    (wf : b.WellFormed L) (enough : maxProbeLen < fuel)
    (found : b.findSlotForDelete L key (L.keyHash key) fuel bucketI = .ok res) :
    DeleteAnswer L b key res := by
  rw [Bucket.findSlotForDelete_eq enough] at found
  exact (Walk.start L b key).deleteAnswer wf found

end Delete

/-! ## Without counters at their maximum the searches return -/

section Calm

variable [DecidableEq H] {b : Bucket F H E} {key : K} {ph : PartialHash H} {fuel bucketI : Nat}

/-- No cell of the bucket has its counter at the maximum. -/
def Bucket.Calm (b : Bucket F H E) : Prop :=
  ∀ c < b.cellCount, (b.cells c).ver.seqNo ≠ 0xFFFFFFFF

instance (b : Bucket F H E) : Decidable b.Calm :=
  inferInstanceAs (Decidable (∀ c < b.cellCount, _))

omit [DecidableEq H] in
theorem Bucket.Calm.stuck {b : Bucket F H E} (calm : b.Calm) {c : Nat} (inside : c < b.cellCount) :
    (b.cells c).stuck = false := by
  rw [← Bool.not_eq_true, Cell.stuck_iff]
  exact calm c inside

theorem Bucket.findSlot_returns (calm : b.Calm) (enough : maxProbeLen < fuel) :
    ∃ res, b.findSlot L key ph fuel bucketI = .ok res := by
  rw [Bucket.findSlot_eq enough]
  refine pathLoop_returns _ fun c mem _ _ retries => ?_
  have quiet : seqAdvanced (b.cells c).loadMeta.ver (b.cells c).loadVersion = false :=
    calm.stuck (lt_of_mem_probePath b.cellCount_pos mem)
  simp only [findBody, quiet] at retries
  split at retries
  · cases retries
  · split at retries <;> cases retries

theorem Bucket.findSlotForInsert_returns (calm : b.Calm) (enough : maxProbeLen < fuel) :
    ∃ res, b.findSlotForInsert L key ph fuel bucketI = .ok res := by
  rw [Bucket.findSlotForInsert_eq enough]
  refine pathLoop_returns _ fun c mem toInsert toInsert' retries => ?_
  have quiet : seqAdvanced (b.cells c).loadMeta.ver (b.cells c).loadVersion = false :=
    calm.stuck (lt_of_mem_probePath b.cellCount_pos mem)
  simp only [insertBody, quiet] at retries
  split at retries
  · cases retries
  · split at retries <;> cases retries

theorem Bucket.findSlotForDelete_returns (calm : b.Calm) (enough : maxProbeLen < fuel) :
    ∃ res, b.findSlotForDelete L key ph fuel bucketI = .ok res := by
  rw [Bucket.findSlotForDelete_eq enough]
  refine pathLoop_returns _ fun c mem _ _ retries => ?_
  have quiet := calm.stuck (lt_of_mem_probePath b.cellCount_pos mem)
  simp only [deleteBody, deleteScan_eq_find? _ _ quiet] at retries
  split at retries
  · cases retries
  · rename_i scan
    split at scan <;> cases scan
  · split at retries <;> cases retries

end Calm

end TurboHash
