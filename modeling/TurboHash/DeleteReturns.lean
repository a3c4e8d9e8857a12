import TurboHash.DeleteAtomic

/-!
# What the answers of racing deletes mean

A key that stays bound stays in its cell, so a `Delete` that reads the cells of the
path one after the other cannot pass it by. A call that returns false has seen a
moment without the key; a call that returns true has removed the binding, which no
other call removes.
-/

namespace TurboHash

open Transition

variable {F : CellFormat} {τ K V H E : Type}

/-! ## The cell of a bound key -/

/-- The cell at displacement `d` from the home of the key. -/
def pathCell (L : SlotLayout K V H E) (b : Bucket F H E) (key : K) (d : Nat) : Nat :=
  ((L.homeHash key).toNat + d) % b.cellCount

namespace Bucket

variable {L : SlotLayout K V H E} {b : Bucket F H E} {key : K}

theorem Placed.exists_located (placed : b.Placed L) {value : V} (binds : b.Binds L key value) :
    ∃ d < min maxProbeLen b.cellCount, b.Located L key (pathCell L b key d) := by
  rcases binds with ⟨c, inside, i, holds⟩
  rcases mem_probePath.mp (placed.reaches c inside i key value holds).mem with ⟨d, less, rfl⟩
  exact ⟨d, less, i, value, holds⟩

/-- The cells before the one of a bound key are full. -/
theorem Placed.full_before (placed : b.Placed L) {d e : Nat}
    (inside : d < min maxProbeLen b.cellCount) (located : b.Located L key (pathCell L b key d))
    (before : e < d) : (b.cells (pathCell L b key e)).Full := by
  by_contra notFull
  rcases located with ⟨i, value, holds⟩
  have reached := placed.reaches _ (Nat.mod_lt _ b.cellCount_pos) i key value holds
  rcases probePath_split (L.homeHash key) (before.trans inside) with ⟨after, split⟩
  rw [path, split] at reached
  have small := lt_of_lt_of_le inside (Nat.min_le_right _ _)
  rcases reached.mem_of_not_full notFull with mem | same
  · rcases List.mem_map.mp mem with ⟨e', less, same⟩
    have := add_mod_inj ((List.mem_range.mp less).trans (before.trans small)) small same
    have := List.mem_range.mp less
    omega
  · have := add_mod_inj small (before.trans small) same
    omega

end Bucket

namespace DeleteRace

variable [DecidableEq τ] [DecidableEq H] {L : SlotLayout K (Nat × V) H E}
  {s s' : DeleteRace F τ K H E} {key : K} {t : τ}

/-! ## A call that has not passed the key -/

/-- The call for `key` has yet to look at displacement `d`, or is looking at it. -/
def OnTrack (key : K) (d : Nat) : DeleteCall F K → Prop
  | .idle => False
  | .probing p => p.key = key ∧ p.probeCount ≤ d
  | .scanning p m _ | .matched p m _ _ =>
    p.key = key ∧ (p.probeCount = d ∨ p.probeCount < d ∧ m.full = true)

/-- The key is bound, in a cell that the call of thread `t` has not passed. -/
def Tracks (L : SlotLayout K (Nat × V) H E) (s : DeleteRace F τ K H E) (t : τ) (key : K) : Prop :=
  ∃ d < min maxProbeLen s.bucket.cellCount,
    s.bucket.Located L key (pathCell L s.bucket key d) ∧ OnTrack key d (s.calls t)

def Unbound (L : SlotLayout K (Nat × V) H E) (s : DeleteRace F τ K H E) (key : K) : Prop :=
  ∀ value, ¬ s.bucket.Binds L key value

omit [DecidableEq τ] [DecidableEq H] in
theorem Aligned.cellIndex {b : Bucket F H E} {p : DeleteProbe K} (aligned : Aligned L b p) :
    p.probe.cellIndex = pathCell L b p.key p.probeCount := by
  rw [show p.probe = _ from aligned]
  rfl

omit [DecidableEq τ] in
/-- A scan that does not run out in the cell of the key stays on track. -/
theorem examine_onTrack {p : DeleteProbe K} {b : Bucket F H E} {m : CellMeta F}
    {slots : List Nat} {d : Nat} (own : p.key = key)
    (here : p.probeCount = d ∧ (∃ i ∈ slots, ((p.cell b).slots i).h1 = (L.keyHash p.key).h1) ∨
      p.probeCount < d ∧ m.full = true) :
    ∃ call, p.examine L b m slots = .goOn call ∧ OnTrack key d call := by
  rcases examine_cases (L := L) p b m slots with ⟨slot, rest, eq⟩ | ⟨missed, eq⟩
  · exact ⟨_, eq, own, here.imp And.left id⟩
  · rcases here with ⟨-, i, mem, same⟩ | ⟨before, full⟩
    · exact absurd same (missed i mem)
    · rw [full, if_pos rfl] at eq
      exact ⟨_, eq, own, before⟩

omit [DecidableEq τ] in
/-- A step of the call ends it with a commit, or stays on track. -/
theorem outcome_onTrack {a : RaceAction τ K V} {key' : K} {out : DeleteOutcome F K} {d : Nat}
    (sound : Sound L s) (meets : Meets L s a) (ends : s.outcome L a = some (t, key', out))
    (inside : d < min maxProbeLen s.bucket.cellCount)
    (located : s.bucket.Located L key (pathCell L s.bucket key d))
    (track : OnTrack key d (s.calls t)) :
    key' = key ∧ ((∃ cell slot, out = .commit cell slot) ∨
      ∃ call, out = .goOn call ∧ OnTrack key d call) := by
  rcases outcome_cases ends with ⟨p, rfl, here, rfl, same⟩ | ⟨p, m, slots, rfl, here, rfl, same⟩ |
    ⟨p, m, slot, slots, rfl, here, rfl, same⟩ <;>
    have aligned := sound.aligned t p (by rw [here]; rfl) <;>
    rw [here] at track <;> rcases track with ⟨own, track⟩ <;> refine ⟨own, ?_⟩ <;> subst own <;>
    have wf := sound.placed.wf _ aligned.inside
  · -- the read of a cell of the path
    have valid : (p.probe.valid && decide (p.probeCount < maxProbeLen)) = true := by
      rw [show p.probe = _ from aligned, probeAt_inside]
      omega
    rw [DeleteProbe.read, if_pos valid] at same
    right
    rw [same]
    refine examine_onTrack rfl ?_
    rcases Nat.eq_or_lt_of_le track with last | before
    · left
      refine ⟨last, ?_⟩
      rcases located with ⟨i, value, holds⟩
      rw [← last, ← aligned.cellIndex] at holds
      rcases wf.stored i holds.1 with ⟨key', value', stored, tag⟩
      rcases L.slotOf_inj (holds.2.symm.trans stored) with ⟨rfl, -⟩
      refine ⟨i, (mem_matchBitSet wf).mpr ⟨holds.1, tag⟩, ?_⟩
      rw [DeleteProbe.cell, holds.2, L.slotOf_h1]
    · right
      refine ⟨before, ?_⟩
      rw [DeleteProbe.cell, aligned.cellIndex]
      exact sound.placed.full_before inside located before
  · -- the scan behind another key with the same `H1`
    right
    rw [same]
    refine examine_onTrack rfl ?_
    rcases track with last | passed
    · left
      refine ⟨last, ?_⟩
      simp only [Meets, here] at meets
      apply meets
      rcases located with ⟨i, value, holds⟩
      rw [← last, ← aligned.cellIndex] at holds
      rw [← Option.ne_none_iff_isSome]
      intro missed
      exact not_holds_of_matchSlot wf missed value holds
    · exact Or.inr passed
  · -- the section under the lock
    unfold DeleteProbe.lock at same
    dsimp only at same
    split at same
    · refine Or.inr ⟨_, same, rfl, ?_⟩
      rcases track with last | ⟨before, -⟩ <;> omega
    · split at same
      · exact Or.inl ⟨_, _, same⟩
      · exact Or.inr ⟨_, same, rfl, track⟩

/-! ## Steps and runs -/

omit [DecidableEq τ] [DecidableEq H] in
theorem Tracks.wrote {value? : Option (Nat × V)} {key' : K} (tracks : Tracks L s t key)
    (wrote : Wrote L s s' key' value?) (kept : key ≠ key' ∨ value?.isSome = true)
    (calls : s'.calls t = s.calls t) : Tracks L s' t key := by
  rcases tracks with ⟨d, inside, located, track⟩
  refine ⟨d, ?_, ?_, by rwa [calls]⟩
  · rwa [Bucket.cellCount, wrote.shift]
  · rw [pathCell, Bucket.cellCount, wrote.shift]
    exact wrote.located key _ kept located

omit [DecidableEq H] in
theorem Tracks.setCall {u : τ} {call : DeleteCall F K} (tracks : Tracks L s t key)
    (other : t ≠ u) : Tracks L (s.setCall u call) t key := by
  rcases tracks with ⟨d, inside, located, track⟩
  refine ⟨d, inside, located, ?_⟩
  simpa only [DeleteRace.setCall, Function.update_of_ne other] using track

/-- A step of any thread leaves the call on track, or the key unbound. -/
theorem Tracks.step {a : RaceAction τ K V} (tracks : Tracks L s t key) (sound : Sound L s)
    (meets : Meets L s a) (taken : s.next L a = some s') :
    Unbound L s' key ∨ Tracks L s' t key := by
  rcases next_cases taken with ⟨key', value, rfl, put⟩ | ⟨u, key', rfl, idle, rfl⟩ |
    ⟨u, key', out, ends, rfl⟩
  · rcases put_wrote sound.placed put with ⟨wrote, calls⟩
    exact Or.inr (tracks.wrote wrote (Or.inr rfl) (by rw [calls]))
  · have other : t ≠ u := by
      rintro rfl
      rcases tracks with ⟨d, -, -, track⟩
      rw [idle] at track
      exact track
    exact Or.inr (tracks.setCall other)
  · by_cases own : t = u
    · subst own
      rcases tracks with ⟨d, inside, located, track⟩
      rcases outcome_onTrack sound meets ends inside located track with
        ⟨rfl, ⟨cell, slot, rfl⟩ | ⟨call, rfl, onTrack⟩⟩
      · rcases commit_holds sound meets ends with ⟨cellInside, n, value, holds⟩
        left
        intro value' binds
        have rebinds := (commit_wrote (t := t) sound cellInside holds).1.rebinds
        simpa using (rebinds key' value').mp binds
      · right
        refine ⟨d, inside, located, ?_⟩
        simp only [conclude, DeleteRace.setCall, Function.update_self]
        exact onTrack
    · cases out with
      | goOn call => exact Or.inr (tracks.setCall own)
      | notFound => exact Or.inr (tracks.setCall own)
      | commit cell slot =>
        rcases commit_holds sound meets ends with ⟨cellInside, n, value, holds⟩
        have wrote := (commit_wrote (t := u) sound cellInside holds).1
        by_cases same : key = key'
        · subst same
          left
          intro value' binds
          simpa using (wrote.rebinds key value').mp binds
        · refine Or.inr (tracks.wrote wrote (Or.inl same) ?_)
          simp only [conclude, DeleteRace.setCall, Function.update_of_ne own]

/-- A call that starts with the key bound is on track. -/
theorem tracks_call (sound : Sound L s) (taken : s.next L (.call t key) = some s') :
    Unbound L s' key ∨ Tracks L s' t key := by
  by_cases bound : ∃ value, s.bucket.Binds L key value
  · rcases bound with ⟨value, binds⟩
    rcases sound.placed.exists_located binds with ⟨d, inside, located⟩
    rcases next_cases taken with ⟨_, _, none, -⟩ | ⟨u, key', same, idle, rfl⟩ | ⟨_, _, _, none, -⟩
    · cases none
    · cases same
      refine Or.inr ⟨d, inside, located, ?_⟩
      simp only [DeleteRace.setCall, Function.update_self]
      exact ⟨rfl, Nat.zero_le d⟩
    · cases none
  · rcases next_cases taken with ⟨_, _, none, -⟩ | ⟨u, key', same, idle, rfl⟩ | ⟨_, _, _, none, -⟩
    · cases none
    · exact Or.inl fun value binds => bound ⟨value, binds⟩
    · cases none

omit [DecidableEq τ] in
theorem returns_cases {a : RaceAction τ K V} {found : Bool}
    (returned : s.returns L a = some (t, key, found)) :
    ∃ out, s.outcome L a = some (t, key, out) ∧ out.found = some found := by
  rcases Option.bind_eq_some_iff.mp returned with ⟨⟨t', key', out⟩, ends, same⟩
  rcases Option.map_eq_some_iff.mp same with ⟨found', eq, same⟩
  cases same
  exact ⟨out, ends, eq⟩

omit [DecidableEq τ] in
/-- A call on track does not return false. -/
theorem Tracks.not_returns_false {a : RaceAction τ K V} (tracks : Tracks L s t key)
    (sound : Sound L s) (meets : Meets L s a) : s.returns L a ≠ some (t, key, false) := by
  intro returned
  rcases returns_cases returned with ⟨out, ends, found⟩
  rcases tracks with ⟨d, inside, located, track⟩
  rcases outcome_onTrack sound meets ends inside located track with
    ⟨-, ⟨cell, slot, rfl⟩ | ⟨call, rfl, -⟩⟩
  · cases found
  · cases found

/-- The deletes of a run are atomic. -/
structure AtomicDeletes (L : SlotLayout K (Nat × V) H E)
    (steps : List (DeleteRace F τ K H E × RaceAction τ K V)) (s : DeleteRace F τ K H E) :
    Prop where
  /-- a call that returns true removes the binding that the key has at its commit -/
  removes : ∀ p ∈ steps, ∀ t key, p.1.returns L p.2 = some (t, key, true) →
    ∃ n value, p.1.bucket.Binds L key (n, value) ∧ ∀ s', p.1.next L p.2 = some s' →
      Unbound L s' key ∧ s'.deleted = n :: p.1.deleted
  /-- a call that returns false has seen a moment at which the key was unbound -/
  justified : ∀ before s₀ t key during s₁ a after,
    steps = before ++ (s₀, .call t key) :: (during ++ (s₁, a) :: after) →
      s₁.returns L a = some (t, key, false) → ∃ s' ∈ visited during s₁, Unbound L s' key
  /-- no binding is removed by two calls -/
  deletedOnce : s.deleted.Nodup
  /-- no record is passed to `markNodeForDeletion` twice -/
  retiredOnce : s.retired.Nodup

theorem returns_true_removes {a : RaceAction τ K V} (sound : Sound L s) (meets : Meets L s a)
    (returned : s.returns L a = some (t, key, true)) :
    ∃ n value, s.bucket.Binds L key (n, value) ∧ ∀ s', s.next L a = some s' →
      Unbound L s' key ∧ s'.deleted = n :: s.deleted := by
  rcases returns_cases returned with ⟨out, ends, found⟩
  match out with
  | .goOn _ => cases found
  | .notFound => cases found
  | .commit cell slot =>
    rcases commit_holds sound meets ends with ⟨inside, n, value, holds⟩
    rcases commit_wrote (t := t) sound inside holds with ⟨wrote, deleted⟩
    refine ⟨n, value, ⟨cell, inside, slot, holds⟩, fun s' taken => ?_⟩
    rcases next_cases taken with ⟨_, _, rfl, -⟩ | ⟨_, _, rfl, -, -⟩ | ⟨u, key', out, ends', rfl⟩
    · cases ends
    · cases ends
    · cases ends.symm.trans ends'
      refine ⟨fun value' binds => ?_, deleted⟩
      simpa using (wrote.rebinds key value').mp binds

theorem Sound.run {steps : List (DeleteRace F τ K H E × RaceAction τ K V)}
    (run : Run (next L) s steps s') (met : ∀ p ∈ steps, Meets L p.1 p.2) (sound : Sound L s) :
    Sound L s' :=
  run.invariant (G := Meets L) (I := Sound L) (fun _ _ _ sound meets taken =>
    sound.step meets taken) met sound

/-- In a run whose deletes meet the condition, they are atomic. -/
theorem deletes_atomic {cellCountShift : Nat}
    {steps : List (DeleteRace F τ K H E × RaceAction τ K V)}
    (run : Run (next L) (start L cellCountShift) steps s)
    (met : ∀ p ∈ steps, Meets L p.1 p.2) : AtomicDeletes L steps s := by
  have sound := Sound.run run met (Sound.start cellCountShift)
  refine ⟨fun p mem t key returned => ?_, ?_, sound.deleted.nodup, sound.retired.nodup⟩
  · rcases run.exists_prefix mem with ⟨before, after, rfl, earlier⟩
    have soundThen := Sound.run earlier (fun q here => met q (by simp [here]))
      (Sound.start cellCountShift)
    exact returns_true_removes soundThen (met p (by simp)) returned
  · rintro before s₀ t key during s₁ a after rfl returned
    rcases run.split with ⟨middle, front, back⟩
    rcases back.head with ⟨rfl, called, call, rest⟩
    rcases rest.split with ⟨last, waiting, back⟩
    rcases back.head with ⟨rfl, -⟩
    have sound₀ := Sound.run front (fun q here => met q (by simp [here]))
      (Sound.start cellCountShift)
    have soundCalled := sound₀.step (met _ (by simp)) call
    -- until the return the key has been unbound, or the call has not passed it
    have history := waiting.history (G := Meets L) (I := fun steps s => Sound L s ∧
      ((∃ s' ∈ visited steps s, Unbound L s' key) ∨ Tracks L s t key)) ?_
      (fun q here => met q (by simp [here])) ?_
    · rcases history.2 with seen | tracks
      · exact seen
      · exact absurd returned (tracks.not_returns_false history.1 (met _ (by simp)))
    · rintro steps s b s' ⟨sound, seen⟩ meets taken
      refine ⟨sound.step meets taken, ?_⟩
      rcases seen with ⟨s'', mem, unbound⟩ | tracks
      · refine Or.inl ⟨s'', ?_, unbound⟩
        simp only [visited, List.map_append, List.mem_append] at mem ⊢
        tauto
      · exact (tracks.step sound meets taken).imp_left fun unbound => ⟨s', by simp [visited], unbound⟩
    · refine ⟨soundCalled, (tracks_call sound₀ call).imp_left fun unbound => ?_⟩
      exact ⟨called, by simp [visited], unbound⟩

/-! ## One update in between -/

section Update

/-- A table with flat keys and records for the values. -/
abbrev recordLayout : SlotLayout UInt64 (Nat × Nat) UInt64 (Option (UInt64 × Nat × Nat)) :=
  flatKeyLayout hashInt id

/-- A bucket of one cell and one thread that deletes. -/
abbrev oneCell : DeleteRace cellMeta128 Unit UInt64 UInt64 (Option (UInt64 × Nat × Nat)) :=
  start recordLayout 0

/-- A bucket of one cell, and two threads that delete. -/
abbrev sharedCell : DeleteRace cellMeta128 Bool UInt64 UInt64 (Option (UInt64 × Nat × Nat)) :=
  start recordLayout 0

/-- Both threads delete the key 7, the first with an insertion between its read and its lock.
Then they delete the keys 9 and 8, where two writes make each read the cell again. -/
def interleavedDeletes : List (RaceAction Bool UInt64 Nat) :=
  [.put 7 1, .call false 7, .call true 7, .read false, .put 8 2, .lock false, .put 9 3,
    .read true, .call true 8, .read true, .put 10 4, .call false 9, .put 11 5, .lock true,
    .read false, .read true, .lock true, .put 7 6, .lock false, .read false, .lock false]

theorem execute_interleaved_deletes :
    (execute (guarded (next recordLayout) (Meets recordLayout)) sharedCell
      interleavedDeletes).map (fun s => (s.deleted, s.retired)) =
        some ([2, 1, 0], [2, 1, 0]) := by
  decide +kernel

theorem deletes_atomic_interleaved : ∃ steps s, Run (next recordLayout) sharedCell steps s ∧
    s.deleted = [2, 1, 0] ∧ AtomicDeletes recordLayout steps s := by
  rcases Option.map_eq_some_iff.mp execute_interleaved_deletes with ⟨s, ok, logged⟩
  rcases exists_run_of_guarded ok with ⟨steps, run, met⟩
  exact ⟨steps, s, run, (Prod.mk.inj logged).1, deletes_atomic run met⟩

/-- The delete of key 7 has read the cell when an update moves the key to slot 2. -/
theorem execute_overtaken_delete :
    (execute (next recordLayout) oneCell
      [.put 7 1, .call () 7, .read (), .put 7 2]).any (fun s =>
        s.returns recordLayout (.lock ()) = some ((), 7, true) ∧
          (s.next recordLayout (.lock ())).any (fun s' => (s'.bucket.cells 0).live 2 = true ∧
            (s'.bucket.cells 0).slots 2 = recordLayout.slotOf 7 (1, 2) ∧
            s'.retired = [0, 0])) = true := by
  decide +kernel

/-- It then deletes the slot that the update has freed: it returns true, the key stays
bound, and the record of the first `Put` is passed to `markNodeForDeletion` twice. -/
theorem overtaken_delete_not_atomic : ∃ steps s, Run (next recordLayout) oneCell steps s ∧
    s.retired = [0, 0] ∧ ¬ AtomicDeletes recordLayout steps s := by
  rcases (Option.any_eq_true _ _).mp execute_overtaken_delete with ⟨s, ok, facts⟩
  rcases of_decide_eq_true facts with ⟨returned, after⟩
  rcases (Option.any_eq_true _ _).mp after with ⟨s', taken, facts⟩
  rcases of_decide_eq_true facts with ⟨alive, stored, retired⟩
  rcases exists_run_of_execute ok with ⟨steps, run, -⟩
  refine ⟨_, s', Run.snoc run taken, retired, fun atomic => ?_⟩
  rcases atomic.removes (s, .lock ()) (by simp) () 7 returned with ⟨n, value, -, after⟩
  exact (after s' taken).1 (1, 2) ⟨0, s'.bucket.cellCount_pos, 2, alive, stored⟩

end Update

end DeleteRace

end TurboHash
