import TurboHash.LookupRace

/-!
# What a lookup returns was bound

A slot that the version word has shown as valid keeps its words until a commit has freed it, a
`Put` has taken it and stored into it. So the two words that a lookup loads are one binding,
unless the slot is being stored to when it loads the value: with one commit behind the
version word the `Put` has not stored its own, and with two the test of the sequence number
sends the lookup back. So it does when the `Put` commits before the lookup makes this test.
-/

namespace TurboHash

open Transition

variable {F : CellFormat} {τ K V H E : Type} {L : SlotLayout K V H E} {bi : Nat} {key : K}

namespace LookupRace

/-! ## The conditions -/

/-- A `Put` has stored to slot `i` of cell `c` and not yet its version word. -/
def Rewrites (c i : Nat) : Holder K V H → Prop
  | .putting point _ _ target => point ≠ .h1 ∧ target.cell = c ∧ target.slot = i
  | _ => False

instance (c i : Nat) (holder : Holder K V H) : Decidable (Rewrites c i holder) := by
  unfold Rewrites
  split <;> infer_instance

/-- The next load is that of a value from a slot that a `Put` is storing into. -/
def LoadsTorn (s : LookupRace F τ K V H E) : Prop :=
  match s.race.call with
  | .copying p _ i _ => Rewrites p.probe.cellIndex i s.race.holder
  | _ => False

/-- The next load is that of the version word behind the value, and a `Put` is storing into the
slot. -/
def ChecksTorn (s : LookupRace F τ K V H E) : Prop :=
  match s.race.call with
  | .copied p _ i _ => Rewrites p.probe.cellIndex i s.race.holder
  | _ => False

instance (s : LookupRace F τ K V H E) : Decidable s.ChecksTorn := by
  unfold ChecksTorn
  split <;> infer_instance

/-- When a value is loaded while a `Put` is storing into the slot, no `Put` is any more when the
lookup loads the version word behind it. -/
def LoadsWhole (steps : List (LookupRace F τ K V H E × LookupAction τ K V)) : Prop :=
  ∀ before s waiting s' after,
    steps = before ++ (s, .read) :: (waiting ++ (s', .read) :: after) →
      (∀ p ∈ waiting, p.2 ≠ .read) → s.LoadsTorn → ¬ s'.ChecksTorn

/-- The last load was that of a value from a slot that a `Put` was storing into. -/
def Torn (steps : List (LookupRace F τ K V H E × LookupAction τ K V)) : Prop :=
  ∃ before s waiting, steps = before ++ (s, .read) :: waiting ∧ (∀ p ∈ waiting, p.2 ≠ .read) ∧
    s.LoadsTorn

theorem Torn.snoc {steps : List (LookupRace F τ K V H E × LookupAction τ K V)}
    {a : LookupAction τ K V} (torn : Torn steps) (s : LookupRace F τ K V H E) (other : a ≠ .read) :
    Torn (steps ++ [(s, a)]) := by
  obtain ⟨before, s₁, waiting, rfl, quiet, loads⟩ := torn
  refine ⟨before, s₁, waiting ++ [(s, a)], by simp, fun p mem => ?_, loads⟩
  rcases List.mem_append.mp mem with mem | mem
  · exact quiet p mem
  · rw [List.mem_singleton.mp mem]
    exact other

theorem LoadsWhole.prefix {steps steps' : List (LookupRace F τ K V H E × LookupAction τ K V)}
    (whole : LoadsWhole (steps ++ steps')) : LoadsWhole steps := by
  rintro before s waiting s' after rfl
  exact whole before s waiting s' (after ++ steps') (by simp)

/-- The load of the version word behind a torn value. -/
theorem LoadsWhole.not_checksTorn {steps : List (LookupRace F τ K V H E × LookupAction τ K V)}
    {s : LookupRace F τ K V H E} (whole : LoadsWhole (steps ++ [(s, .read)])) (torn : Torn steps) :
    ¬ s.ChecksTorn := by
  obtain ⟨before, s₁, waiting, rfl, quiet, loads⟩ := torn
  exact whole before s₁ waiting s [] (by simp) quiet loads

/-- The store is not that of a version word whose counter is at its maximum. -/
def CountsUp (b : Bucket F H E) : Holder K V H → Prop
  | .putting .version _ _ target => (b.cells target.cell).ver.seqNo ≠ 0xFFFFFFFF
  | .deleting _ cell _ => (b.cells cell).ver.seqNo ≠ 0xFFFFFFFF
  | _ => True

instance (b : Bucket F H E) (holder : Holder K V H) : Decidable (CountsUp b holder) := by
  unfold CountsUp
  split <;> infer_instance

/-- No counter wraps. -/
def NoWrap (s : LookupRace F τ K V H E) : LookupAction τ K V → Prop
  | .store => CountsUp s.bucket s.race.holder
  | _ => True

instance (s : LookupRace F τ K V H E) : ∀ a : LookupAction τ K V, Decidable (s.NoWrap a)
  | .store => inferInstanceAs (Decidable (CountsUp s.bucket s.race.holder))
  | .read | .put _ _ | .call _ _ | .load _ | .lock _ => isTrue trivial

/-! ## Slots behind a snapshot -/

/-- The snapshot of a cell is not from the future. -/
structure Loaded (b : Bucket F H E) (c : Nat) (m : CellMeta F) : Prop where
  le : m.ver.seqNo.toNat ≤ (b.cells c).ver.seqNo.toNat
  same : m.ver.seqNo.toNat = (b.cells c).ver.seqNo.toNat → m.ver = (b.cells c).ver

/-- Two commits are behind the snapshot. -/
def Overtaken (b : Bucket F H E) (c : Nat) (m : CellMeta F) : Prop :=
  m.ver.seqNo.toNat + 1 < (b.cells c).ver.seqNo.toNat

/-- A slot that the snapshot shows as valid: its words are as they were, or a `Put` is storing
into it behind a commit, or two commits are behind the snapshot. -/
structure Kept (words : HashSlot H E → Prop) (b : Bucket F H E) (holder : Holder K V H) (c : Nat)
    (m : CellMeta F) (i : Nat) : Prop where
  valid : m.ver.live i = true
  words : words ((b.cells c).slots i) ∨
    m.ver.seqNo.toNat < (b.cells c).ver.seqNo.toNat ∧ Rewrites c i holder ∨ Overtaken b c m

section Stores

variable [DecidableEq H] {b b' : Bucket F H E} {holder holder' : Holder K V H} {c i : Nat}
  {m : CellMeta F} {words words' : HashSlot H E → Prop}

omit [DecidableEq H] in
theorem Kept.imp (kept : Kept words b holder c m i)
    (weaker : words ((b.cells c).slots i) → words' ((b.cells c).slots i)) :
    Kept words' b holder c m i :=
  ⟨kept.valid, kept.words.imp_left weaker⟩

theorem toNat_add_one {n : UInt32} (small : n ≠ 0xFFFFFFFF) : (n + 1).toNat = n.toNat + 1 := by
  have bound := n.toNat_lt
  have other : n.toNat ≠ 0xFFFFFFFF := fun same => small (UInt32.toNat_inj.mp same)
  rw [UInt32.toNat_add]
  simp
  omega

omit [DecidableEq H] in
/-- A commit counts up and leaves the slots alone. -/
theorem store_version_words {key : K} {value : V} {target : SlotInfo H} {cell : Cell F H E} :
    (StorePoint.version.store L key value target cell).ver.seqNo = cell.ver.seqNo + 1 ∧
      (StorePoint.version.store L key value target cell).slots = cell.slots := by
  rw [StorePoint.store]
  split <;> exact ⟨rfl, rfl⟩

omit [DecidableEq H] in
/-- The stores before it leave the version word alone, and the other slots. -/
theorem store_word {point point' : StorePoint} (key : K) (value : V) (target : SlotInfo H)
    (cell : Cell F H E) (next : point.next = some point') :
    point' ≠ .h1 ∧ (point.store L key value target cell).ver = cell.ver ∧
      ∀ j, j ≠ target.slot → (point.store L key value target cell).slots j = cell.slots j := by
  cases point <;> cases next
  all_goals refine ⟨nofun, rfl, fun j other => ?_⟩
  · exact Function.update_of_ne other ..
  · exact Function.update_of_ne other ..
  · rfl

/-- The slot that a `Put` stores to is not valid before the commit. -/
theorem dead_of_putting {point : StorePoint} {key : K} {value : V} {target : SlotInfo H}
    (sound : (Holder.putting point key value target : Holder K V H).Sound L bi b) :
    (b.cells target.cell).live target.slot = false := by
  obtain ⟨b₀, -, answer, rfl⟩ := sound
  have dead := (answer.chosen rfl).dead
  rw [Bucket.setCell_self, (StorePoint.stored_agrees dead).live_eq, dead]

omit [DecidableEq H] in
theorem Loaded.commit {cell : Cell F H E} {x : Nat} (loaded : Loaded b c m)
    (counted : cell.ver.seqNo = (b.cells x).ver.seqNo + 1)
    (small : (b.cells x).ver.seqNo ≠ 0xFFFFFFFF) : Loaded (b.setCell x cell) c m := by
  by_cases here : c = x
  · subst here
    have up := toNat_add_one small
    rw [← counted] at up
    have le := loaded.le
    constructor
    case le =>
      rw [Bucket.setCell_self]
      omega
    case same =>
      rw [Bucket.setCell_self]
      intro same
      omega
  · refine ⟨?_, ?_⟩ <;> rw [Bucket.setCell_of_ne b cell here]
    · exact loaded.le
    · exact loaded.same

omit [DecidableEq H] in
/-- A snapshot stays one of the past. -/
theorem Loaded.stores (loaded : Loaded b c m) (stores : Stores L b holder b' holder')
    (up : CountsUp b holder) : Loaded b' c m := by
  cases stores with
  | @word point point' key value target next =>
    by_cases here : c = target.cell
    · subst here
      obtain ⟨-, ver, -⟩ := store_word (L := L) key value target (b.cells target.cell) next
      refine ⟨?_, ?_⟩ <;> rw [Bucket.setCell_self, ver]
      · exact loaded.le
      · exact loaded.same
    · refine ⟨?_, ?_⟩ <;> rw [Bucket.setCell_of_ne b _ here]
      · exact loaded.le
      · exact loaded.same
  | put => exact loaded.commit store_version_words.1 up
  | delete => exact loaded.commit rfl up

omit [DecidableEq H] in
/-- A commit leaves the words alone, and overtakes a slot that has been stored to. -/
theorem Kept.commit {cell : Cell F H E} {x : Nat} (kept : Kept words b holder c m i)
    (counted : cell.ver.seqNo = (b.cells x).ver.seqNo + 1)
    (small : (b.cells x).ver.seqNo ≠ 0xFFFFFFFF) (slots : cell.slots = (b.cells x).slots)
    (here : Rewrites c i holder → c = x) :
    Kept words (b.setCell x cell) (.free : Holder K V H) c m i := by
  by_cases same : c = x
  · subst same
    have up := toNat_add_one small
    rw [← counted] at up
    refine ⟨kept.valid, ?_⟩
    unfold Overtaken
    rw [Bucket.setCell_self, slots]
    rcases kept.words with words | ⟨behind, -⟩ | overtaken
    · exact Or.inl words
    · exact Or.inr (Or.inr (by omega))
    · rw [Overtaken] at overtaken
      exact Or.inr (Or.inr (by omega))
  · refine ⟨kept.valid, ?_⟩
    unfold Overtaken
    rw [Bucket.setCell_of_ne b cell same]
    rcases kept.words with words | ⟨-, rewrites⟩ | overtaken
    · exact Or.inl words
    · exact absurd (here rewrites) same
    · exact Or.inr (Or.inr overtaken)

/-- What a store leaves of a slot. -/
theorem Kept.stores (kept : Kept words b holder c m i) (loaded : Loaded b c m)
    (sound : holder.Sound L bi b) (stores : Stores L b holder b' holder') (up : CountsUp b holder) :
    Kept words b' holder' c m i := by
  cases stores with
  | @word point point' key value target next =>
    obtain ⟨later, ver, others⟩ := store_word (L := L) key value target (b.cells target.cell) next
    by_cases here : c = target.cell
    · subst here
      refine ⟨kept.valid, ?_⟩
      unfold Overtaken
      rw [Bucket.setCell_self, ver]
      by_cases stored : i = target.slot
      · subst stored
        have dead := dead_of_putting sound
        have behind : m.ver.seqNo.toNat ≠ (b.cells target.cell).ver.seqNo.toNat := by
          intro same
          have valid := kept.valid
          rw [loaded.same same] at valid
          exact Bool.false_ne_true (dead.symm.trans valid)
        exact Or.inr (Or.inl ⟨Nat.lt_of_le_of_ne loaded.le behind, later, rfl, rfl⟩)
      · rw [others i stored]
        rcases kept.words with words | ⟨-, -, -, same⟩ | overtaken
        · exact Or.inl words
        · exact absurd same.symm stored
        · exact Or.inr (Or.inr overtaken)
    · refine ⟨kept.valid, ?_⟩
      unfold Overtaken
      rw [Bucket.setCell_of_ne b _ here]
      rcases kept.words with words | ⟨-, -, same, -⟩ | overtaken
      · exact Or.inl words
      · exact absurd same.symm here
      · exact Or.inr (Or.inr overtaken)
  | put =>
    obtain ⟨counted, slots⟩ := store_version_words (L := L)
    exact kept.commit counted up slots fun ⟨_, same, _⟩ => same.symm
  | delete => exact kept.commit rfl up rfl nofun

end Stores

/-! ## What the lookup has loaded -/

/-- The record of a binding of `key` that one of the states has. -/
def BoundIn (L : SlotLayout K V H E) (key : K) (past : List (LookupRace F τ K V H E))
    (slot : HashSlot H E) : Prop :=
  ∃ value, slot = L.slotOf key value ∧ ∃ q ∈ past, q.bucket.Binds L key value

theorem BoundIn.mono {past : List (LookupRace F τ K V H E)} {slot : HashSlot H E}
    (bound : BoundIn L key past slot) (s : LookupRace F τ K V H E) :
    BoundIn L key (past ++ [s]) slot := by
  obtain ⟨value, same, q, mem, binds⟩ := bound
  exact ⟨value, same, q, List.mem_append_left _ mem, binds⟩

/-- What a lookup has loaded from the cell under its probe is of bindings that it has seen. -/
def Traced (L : SlotLayout K V H E) (key : K) (past : List (LookupRace F τ K V H E)) (torn : Prop)
    (b : Bucket F H E) (holder : Holder K V H) : FindCall F H E → Prop
  | .scanning p m slots => Loaded b p.probe.cellIndex m ∧
      ∀ i ∈ slots, Kept (fun slot => ∃ key', BoundIn L key' past slot) b holder p.probe.cellIndex m i
  | .comparing p m i slots => Loaded b p.probe.cellIndex m ∧
      Kept (fun slot => (∃ key', BoundIn L key' past slot) ∧ slot.h1 = (L.keyHash key).h1) b holder
        p.probe.cellIndex m i ∧
      ∀ i ∈ slots, Kept (fun slot => ∃ key', BoundIn L key' past slot) b holder p.probe.cellIndex m i
  | .matched p m i => Loaded b p.probe.cellIndex m ∧
      Kept (BoundIn L key past) b holder p.probe.cellIndex m i
  | .copying p m i h1 => Loaded b p.probe.cellIndex m ∧
      Kept (fun slot => BoundIn L key past slot ∧ slot.h1 = h1) b holder p.probe.cellIndex m i
  | .copied p m i record => Loaded b p.probe.cellIndex m ∧ (BoundIn L key past record ∨
      Overtaken b p.probe.cellIndex m ∨
        torn ∧ Kept (fun _ => False) b holder p.probe.cellIndex m i)
  | .returned (some record) => BoundIn L key past record
  | .idle | .calling | .addressed _ | .probing _ | .tagged _ _ | .returned none => True

section Traced

variable {b b' : Bucket F H E} {holder holder' : Holder K V H} {call call' : FindCall F H E}
  {past : List (LookupRace F τ K V H E)} {torn torn' : Prop}

theorem Traced.mono (traced : Traced L key past torn b holder call) (s : LookupRace F τ K V H E) :
    Traced L key (past ++ [s]) torn b holder call := by
  cases call with
  | idle | calling | addressed | probing | tagged => trivial
  | scanning p m slots =>
    obtain ⟨loaded, kept⟩ := traced
    exact ⟨loaded, fun i mem => (kept i mem).imp fun ⟨key', bound⟩ => ⟨key', bound.mono s⟩⟩
  | comparing p m i slots =>
    obtain ⟨loaded, first, kept⟩ := traced
    exact ⟨loaded, first.imp fun ⟨⟨key', bound⟩, same⟩ => ⟨⟨key', bound.mono s⟩, same⟩,
      fun j mem => (kept j mem).imp fun ⟨key', bound⟩ => ⟨key', bound.mono s⟩⟩
  | matched p m i =>
    obtain ⟨loaded, kept⟩ := traced
    exact ⟨loaded, kept.imp fun bound => bound.mono s⟩
  | copying p m i h1 =>
    obtain ⟨loaded, kept⟩ := traced
    exact ⟨loaded, kept.imp fun ⟨bound, same⟩ => ⟨bound.mono s, same⟩⟩
  | copied p m i record =>
    obtain ⟨loaded, record⟩ := traced
    exact ⟨loaded, record.imp_left fun bound => bound.mono s⟩
  | returned result =>
    cases result with
    | none => trivial
    | some record => exact BoundIn.mono traced s

theorem Overtaken.le {c : Nat} {m : CellMeta F} (overtaken : Overtaken b c m)
    (le : (b.cells c).ver.seqNo.toNat ≤ (b'.cells c).ver.seqNo.toNat) : Overtaken b' c m :=
  Nat.lt_of_lt_of_le overtaken le

/-- The bucket and the lock have changed under a lookup. -/
theorem Traced.imp (traced : Traced L key past torn b holder call) (still : torn → torn')
    (le : ∀ c, (b.cells c).ver.seqNo.toNat ≤ (b'.cells c).ver.seqNo.toNat)
    (loaded : ∀ c m, Loaded b c m → Loaded b' c m)
    (kept : ∀ words c m i, Loaded b c m → Kept words b holder c m i → Kept words b' holder' c m i) :
    Traced L key past torn' b' holder' call := by
  cases call with
  | idle | calling | addressed | probing | tagged => trivial
  | scanning p m slots =>
    obtain ⟨was, slots⟩ := traced
    exact ⟨loaded _ _ was, fun i mem => kept _ _ _ _ was (slots i mem)⟩
  | comparing p m i slots =>
    obtain ⟨was, first, slots⟩ := traced
    exact ⟨loaded _ _ was, kept _ _ _ _ was first, fun j mem => kept _ _ _ _ was (slots j mem)⟩
  | matched p m i | copying p m i h1 =>
    obtain ⟨was, first⟩ := traced
    exact ⟨loaded _ _ was, kept _ _ _ _ was first⟩
  | copied p m i record =>
    obtain ⟨was, record⟩ := traced
    exact ⟨loaded _ _ was, record.imp_right fun changed =>
      changed.imp (fun overtaken => overtaken.le (le _))
        fun ⟨was', first⟩ => ⟨still was', kept _ _ _ _ was first⟩⟩
  | returned result =>
    cases result with
    | none => trivial
    | some record => exact traced

theorem seqNo_le_commit {cell : Cell F H E} {x : Nat}
    (counted : cell.ver.seqNo = (b.cells x).ver.seqNo + 1)
    (small : (b.cells x).ver.seqNo ≠ 0xFFFFFFFF) (c : Nat) :
    (b.cells c).ver.seqNo.toNat ≤ ((b.setCell x cell).cells c).ver.seqNo.toNat := by
  rw [Bucket.setCell_cells]
  split
  case isTrue here =>
    rw [counted, toNat_add_one small, here]
    exact Nat.le_succ _
  case isFalse => exact le_rfl

theorem seqNo_le_of_stores (stores : Stores L b holder b' holder') (up : CountsUp b holder)
    (c : Nat) : (b.cells c).ver.seqNo.toNat ≤ (b'.cells c).ver.seqNo.toNat := by
  cases stores with
  | @word point point' key value target next =>
    obtain ⟨-, ver, -⟩ := store_word (L := L) key value target (b.cells target.cell) next
    rw [Bucket.setCell_cells]
    split
    case isTrue here => rw [ver, here]
    case isFalse => exact le_rfl
  | put => exact seqNo_le_commit store_version_words.1 up c
  | delete => exact seqNo_le_commit rfl up c

/-- The steps of the writers leave what the lookup has loaded a binding it has seen. -/
theorem Traced.writes [DecidableEq H] {r r' : FindRace F K V H E} {a : LookupAction τ K V}
    (traced : Traced L key past torn r.bucket r.holder call) (still : torn → torn')
    (sound : r.holder.Sound L bi r.bucket) (writes : Writes L r a r')
    (up : a = .store → CountsUp r.bucket r.holder) :
    Traced L key past torn' r'.bucket r'.holder call := by
  cases writes with
  | keep => exact traced.imp still (fun _ => le_rfl) (fun _ _ => id) fun _ _ _ _ _ => id
  | @hold _ holder free begins =>
    refine traced.imp still (fun _ => le_rfl) (fun _ _ => id) fun words c m i loaded kept => ?_
    refine ⟨kept.valid, kept.words.imp_right fun changed => changed.imp_left fun ⟨_, rewrites⟩ => ?_⟩
    rw [free] at rewrites
    exact absurd rewrites id
  | @store b holder stores =>
    have now : ({ r.setBucket b with holder } : FindRace F K V H E).bucket = b := by
      simp [FindRace.bucket, FindRace.setBucket]
    rw [now]
    exact traced.imp still (seqNo_le_of_stores stores (up rfl))
      (fun _ _ loaded => loaded.stores stores (up rfl))
      fun _ _ _ _ loaded kept => kept.stores loaded sound stores (up rfl)

theorem seqAdvanced_of_overtaken {c : Nat} {m : CellMeta F} (overtaken : Overtaken b c m) :
    seqAdvanced m.ver (b.cells c).loadVersion = true := by
  have bound := (b.cells c).ver.seqNo.toNat_lt
  rw [Overtaken] at overtaken
  have next : (m.ver.seqNo + 1).toNat = m.ver.seqNo.toNat + 1 := by
    rw [UInt32.toNat_add]
    simp
    omega
  rw [seqAdvanced, decide_eq_true_eq, UInt32.lt_iff_toNat_lt, next]
  exact overtaken

/-- The slots that match in a cell that has been loaded just now. -/
theorem kept_of_load (placed : b.Placed L) {c : Nat} (inside : c < b.cellCount)
    {tags : Nat → UInt8} {h2 : UInt8} {now : LookupRace F τ K V H E} (same : now.bucket = b)
    (mem : now ∈ past) {i : Nat}
    (listed : i ∈ ((⟨tags, (b.cells c).loadVersion⟩ : CellMeta F).matchBitSet h2).toList) :
    Kept (fun slot => ∃ key', BoundIn L key' past slot) b holder c
      ⟨tags, (b.cells c).loadVersion⟩ i := by
  have wf := placed.wf c inside
  rw [BitSet.mem_toList, CellMeta.getLsbD_matchBitSet (by exact wf.loadMeta_wf)] at listed
  have alive : (b.cells c).live i = true := by
    have valid := listed.1
    rwa [show (⟨tags, (b.cells c).loadVersion⟩ : CellMeta F).ver = (b.cells c).ver from
      wf.loadVersion_eq] at valid
  obtain ⟨key', value, stored, -⟩ := wf.stored i alive
  exact ⟨listed.1, Or.inl ⟨key', value, stored, now, mem, same ▸ ⟨c, inside, i, alive, stored⟩⟩⟩

/-- A load of the lookup. -/
theorem Traced.read [DecidableEq H] {arrays : Nat → Bucket F H E} {current : Nat}
    {now : LookupRace F τ K V H E} (traced : Traced L key past torn b holder call)
    (placed : b.Placed L) (same : now.bucket = b) (mem : now ∈ past)
    (cells : ∀ p, call.probed = some p → p.cell arrays = b.cells p.probe.cellIndex ∧
      p.probe.cellIndex < b.cellCount)
    (tears : ∀ p m i h1, call = .copying p m i h1 → Rewrites p.probe.cellIndex i holder → torn')
    (checks : ∀ p m i record, call = .copied p m i record → torn →
      ¬ Rewrites p.probe.cellIndex i holder)
    (read : call.read L key bi current arrays = some call') :
    Traced L key past torn' b holder call' := by
  cases call with
  | idle | returned => cases read
  | calling | addressed =>
    cases read
    trivial
  | probing p =>
    rw [FindCall.read] at read
    split at read <;> cases read <;> trivial
  | tagged p tags =>
    obtain ⟨here, inside⟩ := cells p rfl
    cases read
    rw [here]
    have loaded : (b.cells p.probe.cellIndex).loadVersion = (b.cells p.probe.cellIndex).ver :=
      (placed.wf _ inside).loadVersion_eq
    refine ⟨⟨?_, fun _ => loaded⟩, fun i listed => kept_of_load placed inside same mem listed⟩
    exact le_rfl
  | scanning p m slots =>
    obtain ⟨loaded, kept⟩ := traced
    obtain ⟨here, -⟩ := cells p rfl
    cases slots with
    | nil =>
      rw [FindCall.read] at read
      cases read
      split <;> trivial
    | cons i slots =>
      rw [FindCall.read, here] at read
      cases read
      split
      case isTrue sameH1 =>
        refine ⟨loaded, (kept i List.mem_cons_self).imp fun bound => ⟨bound, ?_⟩,
          fun j mem => kept j (List.mem_cons_of_mem i mem)⟩
        exact beq_iff_eq.mp sameH1
      case isFalse => exact ⟨loaded, fun j mem => kept j (List.mem_cons_of_mem i mem)⟩
  | comparing p m i slots =>
    obtain ⟨loaded, first, kept⟩ := traced
    obtain ⟨here, -⟩ := cells p rfl
    rw [FindCall.read, here] at read
    cases read
    split
    case isTrue equal =>
      refine ⟨loaded, first.imp fun bound => ?_⟩
      obtain ⟨⟨key', value, stored, seen⟩, sameH1⟩ := bound
      rw [stored] at equal sameH1
      obtain rfl : key = key' := (L.match_slotOf key key' value).mp
        (Bool.and_eq_true_iff.mpr ⟨beq_iff_eq.mpr sameH1, equal⟩)
      exact ⟨value, stored, seen⟩
    case isFalse => exact ⟨loaded, kept⟩
  | matched p m i =>
    obtain ⟨loaded, kept⟩ := traced
    obtain ⟨here, -⟩ := cells p rfl
    rw [FindCall.read, here] at read
    cases read
    exact ⟨loaded, kept.imp fun bound => ⟨bound, rfl⟩⟩
  | copying p m i h1 =>
    obtain ⟨loaded, kept⟩ := traced
    obtain ⟨here, -⟩ := cells p rfl
    rw [FindCall.read, here] at read
    cases read
    refine ⟨loaded, ?_⟩
    rcases kept.words with ⟨bound, rfl⟩ | ⟨behind, rewrites⟩ | overtaken
    · exact Or.inl bound
    · exact Or.inr (Or.inr ⟨tears p m i h1 rfl rewrites,
        kept.valid, Or.inr (Or.inl ⟨behind, rewrites⟩)⟩)
    · exact Or.inr (Or.inl overtaken)
  | copied p m i record =>
    obtain ⟨loaded, origin⟩ := traced
    obtain ⟨here, -⟩ := cells p rfl
    rw [FindCall.read, here] at read
    cases read
    split
    case isTrue => trivial
    case isFalse current =>
      have recent : ¬ Overtaken b p.probe.cellIndex m := fun overtaken =>
        current (seqAdvanced_of_overtaken overtaken)
      rcases origin with bound | overtaken | ⟨tore, -, never | ⟨-, rewrites⟩ | overtaken⟩
      · exact bound
      · exact absurd overtaken recent
      · exact absurd never id
      · exact absurd rewrites (checks p m i record rfl tore)
      · exact absurd overtaken recent

end Traced

/-! ## The result -/

section Result

variable [DecidableEq τ] [DecidableEq H] {b : Bucket F H E} {s s' : LookupRace F τ K V H E}
  {earlier steps : List (LookupRace F τ K V H E × LookupAction τ K V)}

omit [DecidableEq τ] [DecidableEq H] in
theorem sound_start (placed : b.Placed L) :
    (start b : LookupRace F τ K V H E).Sound L bi key where
  current := rfl
  race := .start placed
  inside := ⟨nofun, nofun, nofun⟩
  deletes := nofun

omit [DecidableEq τ] [DecidableEq H] in
theorem Sound.find (sound : s.Sound L bi key) : s.find.Sound L bi key where
  current := sound.current
  race := ⟨sound.race.holder, sound.race.old⟩
  inside := .find s.race
  deletes := sound.deletes

/-- The bucket when the `Find` begins. -/
theorem sound_of_run (placed : b.Placed L) (before : Run (next L bi key) (start b) earlier s)
    (own : ∀ p ∈ earlier, p.1.DeletesOwnSlot L p.2) : s.Sound L bi key :=
  before.invariant (fun _ _ _ sound own taken => (sound.step own taken).1) own (sound_start placed)

/-- The record that a `Find` returns is that of a binding that its key had while it ran, if no
slot is being stored to both when it loads the value and when it loads the version word behind
it, no counter wraps, and the deletes delete their own slots. -/
theorem find_returns_bound (placed : b.Placed L)
    (before : Run (next L bi key) (start b) earlier s)
    (run : Run (next L bi key) s.find steps s')
    (own : ∀ p ∈ earlier ++ steps, p.1.DeletesOwnSlot L p.2) (whole : LoadsWhole steps)
    (noWrap : ∀ p ∈ steps, p.1.NoWrap p.2) {record : HashSlot H E}
    (returned : s'.race.call = .returned (some record)) :
    BoundIn L key (visited steps s') record := by
  have sound := sound_of_run placed before fun p mem => own p (by simp [mem])
  have kept := run.history (G := fun s a => s.DeletesOwnSlot L a ∧ s.NoWrap a)
    (I := fun steps s => s.Sound L bi key ∧ (LoadsWhole steps →
      Traced L key (visited steps s) (Torn steps) s.bucket s.race.holder s.race.call))
    (fun steps s a s' ⟨sound, traced⟩ ⟨own, noWrap⟩ taken => ?_)
    (fun p mem => ⟨own p (by simp [mem]), noWrap p mem⟩) ⟨sound.find, fun _ => trivial⟩
  · have traced := kept.2 whole
    rwa [returned] at traced
  · refine ⟨(sound.step own taken).1, fun whole => ?_⟩
    rw [visited_snoc]
    refine Traced.mono ?_ s'
    have traced := traced whole.prefix
    have now : s ∈ visited steps s := by simp [visited]
    rcases read_or_writes taken with ⟨rfl, call, read, same⟩ | ⟨other, writes⟩
    · rw [bucket, same]
      refine traced.read sound.race.holder.placed rfl now
        (fun p probed => sound.cells sound.inside probed) (fun p m i h1 copying rewrites => ?_)
        (fun p m i record copied torn rewrites => ?_) read
      · refine ⟨steps, s, [], rfl, by simp, ?_⟩
        rw [LoadsTorn, copying]
        exact rewrites
      · refine whole.not_checksTorn torn ?_
        rw [ChecksTorn, copied]
        exact rewrites
    · rw [writes.call, bucket]
      refine traced.writes (fun torn => torn.snoc s other) sound.race.holder writes fun stores => ?_
      subst stores
      exact noWrap

end Result

/-! ## Runs of the DRAM table -/

section Dram

abbrev DramLookup := LookupRace cellMeta128 Nat UInt64 UInt64 UInt64 UInt64

/-- A bucket of one cell, and nothing stored. -/
def emptyCell : Bucket cellMeta128 UInt64 UInt64 := ⟨0, fun _ => Table.zeroCell dramLayout⟩

theorem placed_emptyCell : emptyCell.Placed dramLayout := (Bucket.Placed.of_zero fun _ _ => rfl).1

/-- A step in a bucket of the DRAM table, with a lookup of key 1. -/
def dramNext (s : DramLookup) (a : LookupAction Nat UInt64 UInt64) : Option DramLookup :=
  s.next dramLayout 0 1 a

/-- A `Put` with all its stores. -/
def putAll (key value : UInt64) : List (LookupAction Nat UInt64 UInt64) :=
  .put key value :: List.replicate 4 .store

/-- A `Delete` in the first cell with its commit. -/
def deleteAll (t : Nat) (key : UInt64) : List (LookupAction Nat UInt64 UInt64) :=
  .call t key :: List.replicate 5 (.load t) ++ [.lock t, .store]

/-- An update frees the slot of the key, and another `Put` is storing into it when the lookup
loads the value. -/
def tornLoad : List (LookupAction Nat UInt64 UInt64) :=
  List.replicate 7 .read ++ putAll 1 20 ++ [.put 2 5, .store, .store, .read, .store, .store] ++
    List.replicate 8 .read

/-- Where no load of a version word finds a `Put` storing into the slot of the value. -/
theorem LoadsWhole.of_checks {steps : List (LookupRace F τ K V H E × LookupAction τ K V)}
    (checks : ∀ p ∈ steps, p.2 = .read → ¬ p.1.ChecksTorn) : LoadsWhole steps := by
  rintro before s waiting s' after rfl - -
  exact checks (s', .read) (by simp) rfl

theorem find_returns_bound_tornLoad :
    ∃ (earlier : List (DramLookup × _)) (s : DramLookup) (steps : List (DramLookup × _)) (s' : _),
      Run dramNext (start emptyCell) earlier s ∧ Run dramNext s.find steps s' ∧
        BoundIn dramLayout 1 (visited steps s') ⟨1, 20⟩ := by
  have ran : ((execute (guarded dramNext (DeletesOwnSlot dramLayout)) (start emptyCell)
      (putAll 1 10)).bind fun s =>
        execute (guarded dramNext fun s a => s.DeletesOwnSlot dramLayout a ∧
          (a = .read → ¬ s.ChecksTorn) ∧ s.NoWrap a) s.find tornLoad).map (fun s => s.race.call.result) =
      some (some ⟨1, 20⟩) := by decide +kernel
  obtain ⟨s', executed, result⟩ := Option.map_eq_some_iff.mp ran
  obtain ⟨s, stored, found⟩ := Option.bind_eq_some_iff.mp executed
  obtain ⟨earlier, before, own⟩ := exists_run_of_guarded stored
  obtain ⟨steps, run, met⟩ := exists_run_of_guarded found
  refine ⟨earlier, s, steps, s', before, run, ?_⟩
  refine find_returns_bound placed_emptyCell before run (fun p mem => ?_)
    (.of_checks fun p mem => (met p mem).2.1) (fun p mem => (met p mem).2.2)
    (FindCall.returned_of_result result)
  rcases List.mem_append.mp mem with mem | mem
  · exact own p mem
  · exact (met p mem).1

/-- The lookup has compared the key; the key is deleted, and put again up to the version word. -/
def reuse : List (LookupAction Nat UInt64 UInt64) :=
  List.replicate 6 .read ++ deleteAll 0 1 ++ [.put 1 20, .store, .store] ++ List.replicate 3 .read

/-- The bucket is one cell, and no slot binds `key` to `value`. -/
def Lacks (key value : UInt64) (s : DramLookup) : Prop :=
  s.bucket.cellCountShift = 0 ∧
    ∀ i < 8, ¬ ((s.bucket.cells 0).live i = true ∧ (s.bucket.cells 0).slots i = ⟨key, value⟩)

instance (key value : UInt64) (s : DramLookup) : Decidable (Lacks key value s) :=
  inferInstanceAs (Decidable (_ ∧ ∀ i < 8, _))

theorem Lacks.not_binds {key value : UInt64} {s : DramLookup} (lacks : Lacks key value s) :
    ¬ s.bucket.Binds dramLayout key value := by
  rintro ⟨c, inside, i, alive, same⟩
  have first : c = 0 := by
    rw [Bucket.cellCount, lacks.1] at inside
    exact Nat.lt_one_iff.mp inside
  subst first
  exact lacks.2 i (Version.lt_bits_of_live alive) ⟨alive, same⟩

/-- The lookup returns a value before the `Put` that stores it has committed. -/
theorem find_returns_unbound :
    ∃ (earlier : List (DramLookup × _)) (s : DramLookup) (steps : List (DramLookup × _)) (s' : _),
      Run dramNext (start emptyCell) earlier s ∧ Run dramNext s.find steps s' ∧
        s'.race.call = .returned (some ⟨1, 20⟩) ∧
          ¬ BoundIn dramLayout 1 (visited steps s') ⟨1, 20⟩ := by
  have ran : ((execute dramNext (start emptyCell) (putAll 1 10)).bind fun s =>
      execute (guarded dramNext fun s _ => Lacks 1 20 s) s.find reuse).map
        (fun s => (s.race.call.result, decide (Lacks 1 20 s))) =
      some (some ⟨1, 20⟩, true) := by decide +kernel
  obtain ⟨s', executed, seen⟩ := Option.map_eq_some_iff.mp ran
  obtain ⟨result, last⟩ := Prod.mk.inj seen
  obtain ⟨s, stored, found⟩ := Option.bind_eq_some_iff.mp executed
  obtain ⟨earlier, before, -⟩ := exists_run_of_execute stored
  obtain ⟨steps, run, lacks⟩ := exists_run_of_guarded found
  refine ⟨earlier, s, steps, s', before, run, FindCall.returned_of_result result, ?_⟩
  rintro ⟨value, same, q, mem, binds⟩
  have value_eq : value = 20 := (congrArg HashSlot.entry same).symm
  subst value_eq
  have lacksAt : Lacks 1 20 q := by
    rcases List.mem_append.mp mem with mem | mem
    · obtain ⟨p, passed, rfl⟩ := List.mem_map.mp mem
      exact lacks p passed
    · rw [List.mem_singleton.mp mem]
      exact of_decide_eq_true last
  exact lacksAt.not_binds binds

end Dram

end LookupRace

end TurboHash
