import TurboHash.OtherKeys
import TurboHash.PinnedRace

/-!
# When the slot chosen before the lock is safe

The section under the lock accepts a slot that is free or deleted. For an insertion it
should also ask whether the cell has a second free slot, as its last branch does, and for
an update a deleted slot is one too few: the old slot is given back, and the cell has an
occupied slot less. A run whose commits meet this keeps the placement invariant.

The threads write their own keys only, so between two steps of a call its key is where it
was: `Bucket.Keeps` is what the steps of the others leave, and `CallSound` what a search
may rely on.
-/

namespace TurboHash

open Transition

variable {F : CellFormat} {τ K V H E : Type} {L : SlotLayout K V H E}

/-! ## What a search may rely on -/

/-- A cell and a slot that a new key may be stored in, as far as the search can tell. -/
structure TargetSound (L : SlotLayout K V H E) (b : Bucket F H E) (key : K) (cell slot : Nat) :
    Prop where
  inside : cell < b.cellCount
  reached : Reaches b (b.path L key) cell
  start_le : F.startSlotPos ≤ slot
  lt_bits : slot < F.bits

structure ProbeSound (L : SlotLayout K V H E) (b : Bucket F H E) (p : InsertProbe K V) : Prop where
  aligned : p.probe = probeAt (L.homeHash p.key) b.cellCount 0 p.probeCount
  cleared : Cleared L b p.key p.probeCount
  remembered : ∀ target, p.toInsert = some target → TargetSound L b p.key target.1 target.2

theorem ProbeSound.cellIndex {b : Bucket F H E} {p : InsertProbe K V} (sound : ProbeSound L b p) :
    p.probe.cellIndex = pathCell L b p.key p.probeCount := by
  rw [sound.aligned]
  rfl

theorem ProbeSound.inside {b : Bucket F H E} {p : InsertProbe K V} (sound : ProbeSound L b p) :
    p.probe.cellIndex < b.cellCount :=
  sound.cellIndex ▸ Nat.mod_lt _ b.cellCount_pos

/-- What the version word that a search has loaded says of the cell as it is now. -/
structure MetaSound (L : SlotLayout K V H E) (b : Bucket F H E) (p : InsertProbe K V)
    (m : CellMeta F) : Prop where
  within : p.probeCount < min maxProbeLen b.cellCount
  wf : m.ver.WellFormed
  full : m.full = true → (p.cell b).Full
  here : m.full = false → ∀ value, b.Binds L p.key value → b.Located L p.key p.probe.cellIndex

/-- What a thread has found out about its key. -/
def CallSound [DecidableEq H] (L : SlotLayout K V H E) (b : Bucket F H E) :
    PutCall F K V H → Prop
  | .idle => True
  | .probing p => ProbeSound L b p
  | .tagged p tags => ProbeSound L b p ∧ p.probeCount < min maxProbeLen b.cellCount ∧
      ∀ i value, (p.cell b).Holds L i p.key value → tags i = (L.keyHash p.key).h2
  | .scanning p m slots => ProbeSound L b p ∧ MetaSound L b p m ∧
      (∀ i value, (p.cell b).Holds L i p.key value → i ∈ slots) ∧
      ∀ i ∈ slots, p.matchesSlot L b i = true → ∃ value, (p.cell b).Holds L i p.key value
  | .equal p m i => ProbeSound L b p ∧ MetaSound L b p m ∧
      ∃ value, (p.cell b).Holds L i p.key value
  | .ending p _ target => ProbeSound L b p ∧ TargetSound L b p.key target.1 target.2 ∧
      ∀ value, ¬ b.Binds L p.key value
  | .found key _ target => TargetSound L b key target.cell target.slot ∧
      ((target = ⟨0, target.cell, target.slot, (L.keyHash key).h1, (L.keyHash key).h2, false, 0⟩ ∧
        ∀ value, ¬ b.Binds L key value) ∨
      (target = ⟨0, target.cell, target.slot, (L.keyHash key).h1, (L.keyHash key).h2, true,
        target.oldSlot⟩ ∧ ∃ value, (b.cells target.cell).Holds L target.oldSlot key value))

/-- The key that a call writes. -/
def PutCall.key : PutCall F K V H → Option K
  | .idle => none
  | .probing p | .tagged p _ | .scanning p _ _ | .equal p _ _ | .ending p _ _ => some p.key
  | .found key _ _ => some key

section Keeps

variable [DecidableEq H] {b b' : Bucket F H E} {key : K} {p : InsertProbe K V}

theorem TargetSound.keeps {cell slot : Nat} (target : TargetSound L b key cell slot)
    (keeps : b.Keeps L b' key) : TargetSound L b' key cell slot where
  inside := keeps.count.symm ▸ target.inside
  reached := keeps.reaches target.reached
  start_le := target.start_le
  lt_bits := target.lt_bits

theorem ProbeSound.keeps (sound : ProbeSound L b p) (keeps : b.Keeps L b' p.key) :
    ProbeSound L b' p where
  aligned := keeps.count.symm ▸ sound.aligned
  cleared e less := by
    rw [keeps.pathCell_eq]
    obtain ⟨full, absent⟩ := sound.cleared e less
    exact ⟨keeps.grows.full _ (Nat.mod_lt _ b.cellCount_pos) full, fun located => absent (keeps.located_iff.mp located)⟩
  remembered target same := (sound.remembered target same).keeps keeps

theorem MetaSound.keeps {m : CellMeta F} (sound : MetaSound L b p m) (probe : ProbeSound L b p)
    (keeps : b.Keeps L b' p.key) : MetaSound L b' p m where
  within := keeps.count.symm ▸ sound.within
  wf := sound.wf
  full full := keeps.grows.full _ probe.inside (sound.full full)
  here notFull value bound :=
    keeps.located_iff.mpr (sound.here notFull value (keeps.binds_iff.mp bound))

/-- The writes to other keys. -/
theorem CallSound.keeps {call : PutCall F K V H} (sound : CallSound L b call)
    (keeps : ∀ key, call.key = some key → b.Keeps L b' key) : CallSound L b' call := by
  cases call with
  | idle => trivial
  | probing p => exact ProbeSound.keeps sound (keeps _ rfl)
  | tagged p tags =>
    obtain ⟨probe, within, tagged⟩ := sound
    have keeps := keeps _ rfl
    exact ⟨probe.keeps keeps, keeps.count.symm ▸ within,
      fun i value held => tagged i value (((keeps.cells _).holds i value).mp held)⟩
  | scanning p m slots =>
    obtain ⟨probe, loaded, listed, equal⟩ := sound
    have keeps := keeps _ rfl
    refine ⟨probe.keeps keeps, loaded.keeps probe keeps,
      fun i value held => listed i value (((keeps.cells _).holds i value).mp held),
      fun i mem matched => ?_⟩
    obtain ⟨value, held⟩ := equal i mem ((keeps.cells _).equal i matched)
    exact ⟨value, ((keeps.cells _).holds i value).mpr held⟩
  | equal p m i =>
    obtain ⟨probe, loaded, value, held⟩ := sound
    have keeps := keeps _ rfl
    exact ⟨probe.keeps keeps, loaded.keeps probe keeps, value, ((keeps.cells _).holds i value).mpr held⟩
  | ending p m target =>
    obtain ⟨probe, target, absent⟩ := sound
    have keeps := keeps _ rfl
    exact ⟨probe.keeps keeps, target.keeps keeps,
      fun value bound => absent value (keeps.binds_iff.mp bound)⟩
  | found key value target =>
    obtain ⟨sound, kind⟩ := sound
    have keeps := keeps _ rfl
    refine ⟨sound.keeps keeps, kind.imp ?_ ?_⟩
    · exact fun ⟨same, absent⟩ => ⟨same, fun v bound => absent v (keeps.binds_iff.mp bound)⟩
    · exact fun ⟨same, v, held⟩ => ⟨same, v, ((keeps.cells _).holds _ v).mpr held⟩

end Keeps

/-! ## The search -/

section Search

variable [DecidableEq H] {b : Bucket F H E} {p : InsertProbe K V} {call call' : PutCall F K V H}

omit [DecidableEq H] in
theorem ProbeSound.reaches (sound : ProbeSound L b p)
    (within : p.probeCount < min maxProbeLen b.cellCount) :
    Reaches b (b.path L p.key) p.probe.cellIndex := by
  obtain ⟨after, split⟩ := probePath_split (L.homeHash p.key) within
  rw [sound.cellIndex]
  refine ⟨_, after, split, fun x mem => ?_⟩
  obtain ⟨e, less, rfl⟩ := List.mem_map.mp mem
  exact (sound.cleared e (List.mem_range.mp less)).1

omit [DecidableEq H] in
/-- A free or deleted slot of the cell under the probe. -/
theorem ProbeSound.target (sound : ProbeSound L b p)
    (within : p.probeCount < min maxProbeLen b.cellCount) {slot : Nat}
    (start_le : F.startSlotPos ≤ slot) (lt_bits : slot < F.bits) :
    TargetSound L b p.key p.probe.cellIndex slot :=
  ⟨sound.inside, sound.reaches within, start_le, lt_bits⟩

omit [DecidableEq H] in
/-- The load of the version word behind that of the tags. -/
theorem ProbeSound.loaded (sound : ProbeSound L b p) (placed : b.Placed L)
    (within : p.probeCount < min maxProbeLen b.cellCount) (tags : Nat → UInt8) :
    MetaSound L b p ⟨tags, (p.cell b).loadVersion⟩ where
  within := within
  wf := (placed.wf _ sound.inside).loadMeta_wf
  full full := full
  here notFull value bound := by
    obtain ⟨d, less, located⟩ := placed.exists_located bound
    rw [sound.cellIndex]
    rcases Nat.lt_trichotomy d p.probeCount with before | same | behind
    · exact absurd located (sound.cleared d before).2
    · exact same ▸ located
    · have full := placed.full_before less located behind
      rw [← sound.cellIndex] at full
      exact absurd (notFull.symm.trans full) Bool.false_ne_true

/-- Behind the scan of a cell without the key. -/
theorem MetaSound.missed {m : CellMeta F} (loaded : MetaSound L b p m) (sound : ProbeSound L b p)
    (absent : ¬ b.Located L p.key p.probe.cellIndex) :
    CallSound L b (p.missed m : PutCall F K V H) ∧
      (p.missed m : PutCall F K V H).key = some p.key := by
  have remembered : ∀ target, (if m.eraseBitSet.validCount != 0 then
      some (p.probe.cellIndex, m.eraseBitSet.deref) else p.toInsert) = some target →
      TargetSound L b p.key target.1 target.2 := by
    intro target same
    split at same
    case isTrue tombstone =>
      cases same
      rw [bne_iff_ne, BitSet.validCount_ne_zero] at tombstone
      have free := CellMeta.insertable_erase_deref loaded.wf tombstone
      exact sound.target loaded.within free.1 free.2.1
    case isFalse => exact sound.remembered target same
  unfold InsertProbe.missed
  dsimp only
  cases full : m.full with
  | true =>
    rw [if_pos rfl]
    refine ⟨⟨?_, fun e less => ?_, remembered⟩, rfl⟩
    · change p.probe.next = _
      rw [show p.probe = _ from sound.aligned]
      exact next_probeAt _ _ _ _
    · rcases Nat.lt_succ_iff_lt_or_eq.mp less with before | here
      · exact sound.cleared e before
      · subst here
        change (b.cells (pathCell L b p.key p.probeCount)).Full ∧
          ¬ b.Located L p.key (pathCell L b p.key p.probeCount)
        rw [← sound.cellIndex]
        exact ⟨loaded.full full, absent⟩
  | false =>
    rw [if_neg Bool.false_ne_true]
    have target : TargetSound L b p.key
        ((if m.eraseBitSet.validCount != 0 then some (p.probe.cellIndex, m.eraseBitSet.deref)
          else p.toInsert).getD (p.probe.cellIndex, m.backupBitSet.deref)).1
        ((if m.eraseBitSet.validCount != 0 then some (p.probe.cellIndex, m.eraseBitSet.deref)
          else p.toInsert).getD (p.probe.cellIndex, m.backupBitSet.deref)).2 := by
      cases chosen : (if m.eraseBitSet.validCount != 0 then
          some (p.probe.cellIndex, m.eraseBitSet.deref) else p.toInsert) with
      | some target => exact remembered target chosen
      | none =>
        have free := CellMeta.backup_deref loaded.wf
        exact sound.target loaded.within free.1 free.2.1
    refine ⟨⟨⟨sound.aligned, sound.cleared, fun t same => ?_⟩, target, fun value bound => ?_⟩, rfl⟩
    · cases same
      exact target
    · exact absent (loaded.here full value bound)

/-- Every load of a search keeps what it may rely on. -/
theorem CallSound.search (placed : b.Placed L) (sound : CallSound L b call)
    (step : call.search L b = some call') : CallSound L b call' ∧ call'.key = call.key := by
  cases call with
  | idle | found => cases step
  | probing p =>
    have probe : ProbeSound L b p := sound
    rw [PutCall.search] at step
    have aligned := probe.aligned
    split at step
    case isTrue valid =>
      cases step
      rw [aligned, probeAt_inside] at valid
      have := b.cellCount_pos
      refine ⟨⟨probe, by omega, fun i value held => ?_⟩, rfl⟩
      obtain ⟨key', value', stored, tag⟩ := (placed.wf _ probe.inside).stored i held.1
      rw [(L.slotOf_inj (held.2.symm.trans stored)).1]
      exact tag
    case isFalse invalid =>
      obtain ⟨target, remembered, rfl⟩ := Option.map_eq_some_iff.mp step
      refine ⟨⟨probe.remembered target remembered, Or.inl ⟨rfl, fun value bound => ?_⟩⟩, rfl⟩
      obtain ⟨d, less, located⟩ := placed.exists_located bound
      rw [aligned, probeAt_inside] at invalid
      exact (probe.cleared d (by omega)).2 located
  | tagged p tags =>
    obtain ⟨probe, within, tagged⟩ := sound
    cases step
    have loaded := probe.loaded placed within tags
    have wf := placed.wf _ probe.inside
    have ver : (p.cell b).loadVersion = (p.cell b).ver := wf.loadVersion_eq
    refine ⟨⟨probe, loaded, fun i value held => ?_, fun i mem matched => ?_⟩, rfl⟩
    · rw [BitSet.mem_toList, CellMeta.getLsbD_matchBitSet loaded.wf]
      exact ⟨ver.symm ▸ held.1, tagged i value held⟩
    · rw [BitSet.mem_toList, CellMeta.getLsbD_matchBitSet loaded.wf] at mem
      have alive : (p.cell b).live i = true :=
        (congrArg (fun v => Version.live v i) ver).symm.trans mem.1
      obtain ⟨key, value, stored, -⟩ := wf.stored i alive
      rw [InsertProbe.matchesSlot, InsertProbe.cell, stored, L.match_slotOf] at matched
      subst matched
      exact ⟨value, alive, stored⟩
  | scanning p m slots =>
    obtain ⟨probe, loaded, listed, equal⟩ := sound
    cases slots with
    | nil =>
      cases step
      exact loaded.missed probe fun ⟨i, value, held⟩ => List.not_mem_nil (listed i value held)
    | cons i slots =>
      cases step
      cases matched : p.matchesSlot L b i with
      | true => exact ⟨⟨probe, loaded, equal i List.mem_cons_self matched⟩, rfl⟩
      | false =>
        refine ⟨⟨probe, loaded, fun j value held => ?_,
          fun j mem => equal j (List.mem_cons_of_mem i mem)⟩, rfl⟩
        refine (List.mem_cons.mp (listed j value held)).resolve_left ?_
        rintro rfl
        rw [InsertProbe.matchesSlot, held.2, (L.match_slotOf p.key p.key value).mpr rfl] at matched
        cases matched
  | equal p m i =>
    obtain ⟨probe, loaded, held⟩ := sound
    rw [PutCall.search] at step
    split at step <;> cases step
    · exact ⟨probe, rfl⟩
    · have free := CellMeta.backup_deref loaded.wf
      exact ⟨⟨probe.target loaded.within free.1 free.2.1, Or.inr ⟨rfl, held⟩⟩, rfl⟩
  | ending p m target =>
    obtain ⟨probe, target, absent⟩ := sound
    rw [PutCall.search] at step
    split at step <;> cases step
    · exact ⟨probe, rfl⟩
    · exact ⟨⟨target, Or.inl ⟨rfl, absent⟩⟩, rfl⟩

end Search

/-! ## The section under the lock -/

section Lock

variable [DecidableEq H] {b : Bucket F H E} {key key' : K}

/-- The tests under the lock do not accept a free slot of a full cell for an insertion,
nor a deleted slot for an update. -/
def Accepts (m : CellMeta F) (target : SlotInfo H) : Prop :=
  m.occupy target.slot = false ∨ m.isDeleted target.slot = true →
    if target.equalKey then m.isDeleted target.slot = false
    else m.isDeleted target.slot = true ∨ m.full = false

instance (m : CellMeta F) (target : SlotInfo H) : Decidable (Accepts m target) := by
  unfold Accepts
  infer_instance

/-- Under that condition, what is written is an answer of `findSlotForInsert`. -/
theorem CallSound.answer {value : V} {target : SlotInfo H} {slot : Nat} (placed : b.Placed L)
    (sound : CallSound L b (.found key value target))
    (accepts : Accepts (b.cells target.cell).loadMeta target)
    (write : recheck (b.cells target.cell).loadMeta target = .write slot) :
    InsertAnswer L b key 0 ⟨{ target with slot }, true⟩ := by
  obtain ⟨chosen, kind⟩ := sound
  have wf := placed.wf _ chosen.inside
  have loaded : (b.cells target.cell).loadMeta.ver = (b.cells target.cell).ver := wf.loadMeta_ver
  have metaWf := wf.loadMeta_wf
  have backup := CellMeta.backup_deref metaWf
  rw [recheck] at write
  rcases kind with ⟨same, absent⟩ | ⟨same, oldValue, held⟩
  · have fresh : target.equalKey = false := by rw [same]
    have free : (b.cells target.cell).ver.Insertable slot := by
      rw [← loaded]
      split at write
      case isTrue accepted =>
        cases write
        rw [Bool.or_eq_true, Bool.not_eq_true'] at accepted
        have room := accepts accepted
        rw [fresh, if_neg Bool.false_ne_true] at room
        refine ⟨chosen.start_le, chosen.lt_bits, ?_⟩
        by_cases deleted : (b.cells target.cell).loadMeta.isDeleted target.slot = true
        · exact Or.inr deleted
        · refine Or.inl ⟨accepted.resolve_right deleted, ?_⟩
          have notFull : ¬ (b.cells target.cell).loadMeta.full = true := by
            rw [room.resolve_left deleted]
            exact Bool.false_ne_true
          rw [CellMeta.full_iff metaWf] at notFull
          have := metaWf.count_le
          omega
      case isFalse =>
        rw [fresh, if_neg Bool.false_ne_true] at write
        split at write
        case isTrue tombstone =>
          cases write
          rw [bne_iff_ne, BitSet.validCount_ne_zero] at tombstone
          exact CellMeta.insertable_erase_deref metaWf tombstone
        case isFalse =>
          split at write <;> cases write
          case isTrue two =>
            have split := CellMeta.validCount_backupBitSet metaWf
            have := F.fullCount_eq
            exact ⟨backup.1, backup.2.1, Or.inl ⟨backup.2.2, by omega⟩⟩
    rw [same]
    exact .insert chosen.inside chosen.reached free
      fun x reached i v holds => absent v ⟨x, b.lt_of_mem_path reached.mem, i, holds⟩
  · have update : target.equalKey = true := by rw [same]
    have free : (b.cells target.cell).ver.Backup slot := by
      rw [← loaded]
      split at write
      case isTrue accepted =>
        cases write
        rw [Bool.or_eq_true, Bool.not_eq_true'] at accepted
        have clear := accepts accepted
        rw [update, if_pos rfl] at clear
        refine ⟨chosen.start_le, chosen.lt_bits, accepted.resolve_right fun deleted => ?_⟩
        exact Bool.false_ne_true (clear.symm.trans deleted)
      case isFalse =>
        split at write <;> cases write
        exact backup
    rw [same]
    exact .update chosen.inside chosen.reached oldValue held free

end Lock

/-! ## Steps -/

namespace PinnedRace

variable [DecidableEq τ] [DecidableEq K] [DecidableEq H] {owner : K → τ}
  {s s' : PinnedRace F τ K V H E}

/-- What a step has to find: the tests under the lock accept the chosen slot only where it
may be taken. -/
def Meets (s : PinnedRace F τ K V H E) : PinnedAction τ K V → Prop
  | .step t =>
    match s.calls t with
    | .found _ _ target => Accepts (s.bucket.cells target.cell).loadMeta target
    | _ => True
  | _ => True

instance (s : PinnedRace F τ K V H E) (a : PinnedAction τ K V) : Decidable (Meets s a) := by
  unfold Meets
  split
  · split <;> infer_instance
  · infer_instance

/-- The bucket is placed and binds what has been stored, and every thread knows of its own
key what it may rely on. -/
structure Sound (L : SlotLayout K V H E) (owner : K → τ) (s : PinnedRace F τ K V H E) : Prop where
  placed : s.bucket.Placed L
  binds : ∀ key value, s.bucket.Binds L key value ↔ s.map key = some value
  calls : ∀ t, CallSound L s.bucket (s.calls t)
  own : ∀ t key, (s.calls t).key = some key → owner key = t

omit [DecidableEq K] in
theorem Sound.setCall {t : τ} {call : PutCall F K V H} (sound : Sound L owner s)
    (callSound : CallSound L s.bucket call) (own : ∀ key, call.key = some key → owner key = t) :
    Sound L owner (s.setCall t call) where
  placed := sound.placed
  binds := sound.binds
  calls u := by
    by_cases here : u = t
    · subst here
      rw [setCall_self, setCall_bucket]
      exact callSound
    · rw [setCall_of_ne _ here, setCall_bucket]
      exact sound.calls u
  own u key has := by
    by_cases here : u = t
    · subst here
      rw [setCall_self] at has
      exact own key has
    · rw [setCall_of_ne _ here] at has
      exact sound.own u key has

omit [DecidableEq τ] in
/-- A write of thread `t`, which has no call behind it, to one of its keys. -/
theorem Sound.write {t : τ} {key : K} {value? : Option V} {b : Bucket F H E}
    (sound : Sound L owner s) (mine : owner key = t) (idle : s.calls t = .idle)
    (placed : b.Placed L)
    (binds : ∀ key' value', b.Binds L key' value' ↔
      key' = key ∧ value? = some value' ∨ key' ≠ key ∧ s.bucket.Binds L key' value')
    (keeps : ∀ key' ≠ key, s.bucket.Keeps L b key') :
    Sound L owner { s with bucket := b, map := Function.update s.map key value? } where
  placed := placed
  binds key' value' := by
    rw [binds, sound.binds]
    by_cases here : key' = key
    · subst here
      simp
    · simp [here]
  calls u := by
    refine (sound.calls u).keeps fun key' has => keeps key' ?_
    rintro rfl
    have theirs := sound.own u key' has
    rw [← theirs, mine, idle] at has
    cases has
  own := sound.own

/-- The section under the lock. -/
theorem Sound.lock {t : τ} {key : K} {value : V} {target : SlotInfo H} (sound : Sound L owner s)
    (meets : Meets s (.step t : PinnedAction τ K V)) (here : s.calls t = .found key value target)
    (taken : s.lock L t key value target = some s') :
    Sound L owner s' ∧ s.bucket.Grows s'.bucket := by
  have mine : owner key = t := sound.own t key (by rw [here]; rfl)
  have waiting := sound.calls t
  rw [here] at waiting
  rw [PinnedRace.lock] at taken
  split at taken <;> cases taken
  case h_1 slot write =>
    simp only [Meets, here] at meets
    have answer := waiting.answer sound.placed meets write
    obtain ⟨placed, binds⟩ := sound.placed.commit answer rfl value
    obtain ⟨grows, keeps⟩ := answer.keeps sound.placed rfl value
    have idle : Sound L owner (s.setCall t .idle) := sound.setCall trivial nofun
    have stored : ∀ key' value', Bucket.Binds L _ key' value' ↔
        key' = key ∧ some value = some value' ∨
          key' ≠ key ∧ (s.setCall t .idle).bucket.Binds L key' value' := fun key' value' =>
      (binds key' value').trans (by rw [Option.some_inj, eq_comm (a := value'), setCall_bucket])
    exact ⟨idle.write mine (setCall_self s) placed stored keeps, grows⟩
  case h_2 =>
    refine ⟨sound.setCall ?_ fun key' same => ?_, Bucket.Grows.refl _⟩
    · exact ⟨start_eq_probeAt _ _ _, fun _ less => absurd less (Nat.not_lt_zero _), nofun⟩
    · cases same
      exact mine

omit [DecidableEq τ] in
/-- A `Delete` of a thread without a call. -/
theorem Sound.delete {t : τ} {key : K} (sound : Sound L owner s) (mine : owner key = t)
    (idle : s.calls t = .idle) (taken : s.delete L key = some s') :
    Sound L owner s' ∧ s.bucket.Grows s'.bucket := by
  rw [PinnedRace.delete] at taken
  split at taken <;> cases taken
  case h_1 c i search =>
    have answer := Bucket.findSlotForDelete_answer sound.placed.wf (Nat.lt_succ_self _) search
    obtain ⟨-, placed, binds⟩ := sound.placed.deleteCommit answer
    obtain ⟨inside, value, held⟩ := answer
    have wf := sound.placed.wf c inside
    rw [deleteCommit_eq wf] at placed binds ⊢
    have grows := Bucket.Grows.setCell wf (wf.erase (Version.occupied_of_live held.1)) le_rfl
    have stored : ∀ key' value', Bucket.Binds L _ key' value' ↔
        key' = key ∧ none = some value' ∨ key' ≠ key ∧ s.bucket.Binds L key' value' :=
      fun key' value' => (binds key' value').trans (by simp)
    exact ⟨sound.write mine idle placed stored
      fun key' other => .setCell grows (.erase held other), grows⟩
  case h_2 => exact ⟨sound, Bucket.Grows.refl _⟩

/-- Every step that meets the condition keeps the invariant, and no cell loses an occupied
slot. -/
theorem Sound.step {a : PinnedAction τ K V} (sound : Sound L owner s) (meets : Meets s a)
    (taken : s.next L owner a = some s') : Sound L owner s' ∧ s.bucket.Grows s'.bucket := by
  cases a with
  | put t key value =>
    simp only [PinnedRace.next] at taken
    split at taken
    case h_1 idle =>
      split at taken <;> cases taken
      case isTrue mine =>
        refine ⟨sound.setCall ?_ fun key' same => ?_, Bucket.Grows.refl _⟩
        · exact ⟨start_eq_probeAt _ _ _, fun _ less => absurd less (Nat.not_lt_zero _), nofun⟩
        · cases same
          exact mine
    case h_2 => cases taken
  | delete t key =>
    simp only [PinnedRace.next] at taken
    split at taken
    case h_1 idle =>
      split at taken
      case isTrue mine => exact sound.delete mine idle taken
      case isFalse => cases taken
    case h_2 => cases taken
  | step t =>
    simp only [PinnedRace.next] at taken
    split at taken
    case h_1 key value target here => exact sound.lock meets here taken
    case h_2 =>
      obtain ⟨call, next, rfl⟩ := Option.map_eq_some_iff.mp taken
      obtain ⟨callSound, key⟩ := (sound.calls t).search sound.placed next
      exact ⟨sound.setCall callSound fun key' same => sound.own t key' (key ▸ same),
        Bucket.Grows.refl _⟩

/-! ## Runs -/

omit [DecidableEq τ] [DecidableEq K] in
/-- A bucket as the operations leave it, before the threads start. -/
theorem Sound.start {b : Bucket F H E} {map : K → Option V} (placed : b.Placed L)
    (binds : ∀ key value, b.Binds L key value ↔ map key = some value) :
    Sound L owner (.start b map) where
  placed := placed
  binds := binds
  calls _ := trivial
  own _ _ has := by cases has

theorem sound_of_run {s₀ : PinnedRace F τ K V H E}
    {steps : List (PinnedRace F τ K V H E × PinnedAction τ K V)} (run : Run (next L owner) s₀ steps s)
    (meets : ∀ p ∈ steps, Meets p.1 p.2) (start : Sound L owner s₀) : Sound L owner s :=
  run.invariant (fun _ _ _ sound meets taken => (sound.step meets taken).1) meets start

/-- What the unlocked search should preserve. -/
structure Safe (L : SlotLayout K V H E) (owner : K → τ)
    (steps : List (PinnedRace F τ K V H E × PinnedAction τ K V)) (s : PinnedRace F τ K V H E) :
    Prop where
  cells : ∀ c < s.bucket.cellCount, (s.bucket.cells c).Occupancy
  grows : ∀ p ∈ steps, ∀ s', p.1.next L owner p.2 = some s' → ∀ c < p.1.bucket.cellCount,
    popcount (p.1.bucket.cells c).ver.bitmap ≤ popcount (s'.bucket.cells c).ver.bitmap
  /-- in particular when all operations have finished -/
  finds : s.bucket.Calm → ∀ key,
    s.bucket.findSlot L key (L.keyHash key) searchFuel 0 = .ok ((s.map key).map (L.slotOf key))

/-- The threads write disjoint sets of keys, and every commit meets the condition. -/
theorem pinned_puts_safe {b : Bucket F H E} {map : K → Option V}
    {steps : List (PinnedRace F τ K V H E × PinnedAction τ K V)} (placed : b.Placed L)
    (binds : ∀ key value, b.Binds L key value ↔ map key = some value)
    (run : Run (next L owner) (.start b map) steps s) (meets : ∀ p ∈ steps, Meets p.1 p.2) :
    Safe L owner steps s where
  cells c inside := ((sound_of_run run meets (.start placed binds)).placed.wf c inside).occupancy
  grows p mem s' taken c inside := by
    obtain ⟨before, after, rfl, front⟩ := run.exists_prefix mem
    have sound := sound_of_run front (fun q here => meets q (by simp [here])) (.start placed binds)
    exact (sound.step (meets p mem) taken).2.count c inside
  finds calm key := by
    have sound := sound_of_run run meets (.start placed binds)
    exact sound.placed.findSlot calm (Nat.lt_succ_self _) (s.map key) (sound.binds key)

/-! ## Two threads on a fresh cell -/

/-- Every key is written by the thread of that number. -/
def ownKey (key : UInt64) : UInt64 := key

/-- A bucket of one cell, and nothing stored. -/
def freshCell : PinnedRace cellMeta128 UInt64 UInt64 UInt64 UInt64 UInt64 :=
  .start ⟨0, fun _ => Table.zeroCell dramLayout⟩ fun _ => none

/-- A `Put` up to the lock. -/
def searchFor (key value : UInt64) : List (PinnedAction UInt64 UInt64 UInt64) :=
  .put key key value :: List.replicate 4 (.step key)

/-- A `Put` that is not disturbed. -/
def putWhole (key value : UInt64) : List (PinnedAction UInt64 UInt64 UInt64) :=
  searchFor key value ++ [.step key]

/-- Two threads choose the same slot, and the second one to come takes another. -/
def sameSlot : List (PinnedAction UInt64 UInt64 UInt64) :=
  searchFor 1 10 ++ putWhole 2 20 ++ [.step 1]

theorem pinned_puts_safe_sameSlot :
    ∃ s steps, Run (next dramLayout ownKey) freshCell steps s ∧
      popcount (s.bucket.cells 0).ver.bitmap = 2 ∧ Safe dramLayout ownKey steps s := by
  have ran : (execute (guarded (next dramLayout ownKey) Meets) freshCell sameSlot).map
      (fun s => popcount (s.bucket.cells 0).ver.bitmap) = some 2 := by decide +kernel
  obtain ⟨s, executed, count⟩ := Option.map_eq_some_iff.mp ran
  obtain ⟨steps, run, meets⟩ := exists_run_of_guarded executed
  obtain ⟨placed, unbound⟩ := Bucket.Placed.of_zero (L := dramLayout) (b := freshCell.bucket)
    fun _ _ => rfl
  exact ⟨s, steps, run, count,
    pinned_puts_safe placed (fun key value => by simp [unbound key value]) run meets⟩

/-- The cell has five keys and two free slots. Thread 20 chooses the first of them, thread
21 inserts its key there and updates it to the other one, and thread 20 takes the slot that
is free again. -/
def takesLastSlot : List (PinnedAction UInt64 UInt64 UInt64) :=
  putWhole 10 1 ++ putWhole 11 1 ++ putWhole 12 1 ++ putWhole 13 1 ++ putWhole 14 1 ++
    searchFor 20 1 ++ putWhole 21 1 ++ putWhole 21 2 ++ [.step 20]

/-- All seven slots of the cell are occupied. -/
theorem pinned_put_takes_last_slot :
    ∃ s steps, Run (next dramLayout ownKey) freshCell steps s ∧
      popcount (s.bucket.cells 0).ver.bitmap = 7 ∧ ¬ Safe dramLayout ownKey steps s := by
  have ran : (execute (next dramLayout ownKey) freshCell takesLastSlot).map
      (fun s => (s.bucket.cellCount, popcount (s.bucket.cells 0).ver.bitmap,
        popcount ((s.bucket.cells 0).ver.bitmap &&& cellMeta128.bitMapMask))) = some (1, 7, 7) := by
    decide +kernel
  obtain ⟨s, executed, counts⟩ := Option.map_eq_some_iff.mp ran
  obtain ⟨cells, counts⟩ := Prod.mk.inj counts
  obtain ⟨count, masked⟩ := Prod.mk.inj counts
  obtain ⟨steps, run, -⟩ := exists_run_of_execute executed
  refine ⟨s, steps, run, count, fun safe => ?_⟩
  have bound := (safe.cells 0 (cells.symm ▸ Nat.one_pos)).count_le
  rw [masked] at bound
  exact absurd bound (by decide)

end PinnedRace

end TurboHash
