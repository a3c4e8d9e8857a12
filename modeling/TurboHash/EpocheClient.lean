import TurboHash.EpocheSafety

/-!
# Clients of the epoch protocol that unlink first

The operations read nodes that can be reached and mark only nodes that cannot be
reached any more. The callback of a node then runs behind the operations that have
obtained it, up to the store of the maximum with which an operation starts its own
cleanup.
-/

namespace TurboHash

/-- A node can be reached by new reads from its link to its unlink. -/
inductive Reach
  | fresh
  | reachable
  | unreachable
deriving DecidableEq

/-- Clients of the protocol: which nodes can be reached, and which the operation of a
thread has obtained. -/
structure EpocheClient (τ ν : Type) where
  epoche : Epoche τ ν
  reach : ν → Reach
  obtained : τ → List ν

inductive ClientAction (τ ν : Type)
  | link (n : ν)
  | unlink (n : ν)
  /-- thread `t` reads a reference to `n` -/
  | obtain (t : τ) (n : ν)
  | protocol (a : EpocheAction τ ν)

namespace EpocheClient

variable {τ ν : Type} [DecidableEq τ] [DecidableEq ν]

def new (startGCThreshhold : ℕ) : EpocheClient τ ν :=
  ⟨.new startGCThreshhold, fun _ => .fresh, fun _ => []⟩

/-- Only a node that cannot be reached is passed to `markNodeForDeletion`. -/
def UnlinksFirst (c : EpocheClient τ ν) : EpocheAction τ ν → Prop
  | .mark _ n => c.reach n = .unreachable
  | _ => True

instance (c : EpocheClient τ ν) (a : EpocheAction τ ν) : Decidable (c.UnlinksFirst a) := by
  unfold UnlinksFirst
  split <;> infer_instance

/-- An operation that has ended keeps nothing. -/
def obtainedAfter (c : EpocheClient τ ν) (epoche : Epoche τ ν) (t : τ) : List ν :=
  match epoche.phase t with
  | .idle => []
  | _ => c.obtained t

def next (c : EpocheClient τ ν) : ClientAction τ ν → Option (EpocheClient τ ν)
  | .link n =>
    if c.reach n = .fresh then some { c with reach := Function.update c.reach n .reachable }
    else none
  | .unlink n =>
    if c.reach n = .reachable then
      some { c with reach := Function.update c.reach n .unreachable }
    else none
  | .obtain t n =>
    match c.epoche.phase t with
    | .inside =>
      if c.reach n = .reachable then
        some { c with obtained := Function.update c.obtained t (n :: c.obtained t) }
      else none
    | _ => none
  | .protocol a =>
    if c.UnlinksFirst a then
      (c.epoche.next a).map fun epoche =>
        { c with epoche := epoche, obtained := c.obtainedAfter epoche }
    else none

/-! ## The invariant -/

/-- The operations in progress may use what they have obtained and what they can
still reach, and a node is stamped only when it cannot be reached. -/
structure Safe (c : EpocheClient τ ν) (guarded : τ → Set ν) : Prop where
  sound : c.epoche.Sound guarded
  stamped : ∀ u n k, c.epoche.Stamped u n k → c.reach n = .unreachable
  reachable : ∀ t n, (c.epoche.phase t).Protected → c.reach n ≠ .unreachable → n ∈ guarded t
  obtained : ∀ t, (c.epoche.phase t).Protected → ∀ n ∈ c.obtained t, n ∈ guarded t
  idle : ∀ t, c.epoche.phase t = .idle → c.obtained t = []
  entering : ∀ t e, c.epoche.phase t = .entering e → c.obtained t = []

variable {c c' : EpocheClient τ ν} {guarded : τ → Set ν}

omit [DecidableEq τ] [DecidableEq ν] in
theorem obtainedAfter_sub {epoche : Epoche τ ν} {t : τ} {n : ν}
    (mem : n ∈ c.obtainedAfter epoche t) : n ∈ c.obtained t := by
  unfold obtainedAfter at mem
  split at mem
  · cases mem
  · exact mem

omit [DecidableEq ν] in
theorem Safe.protocol {a : EpocheAction τ ν} {epoche : Epoche τ ν} (safe : c.Safe guarded)
    (first : c.UnlinksFirst a) (step : c.epoche.Step a epoche) :
    Safe { c with epoche := epoche, obtained := c.obtainedAfter epoche }
      (c.epoche.guardedAfter guarded a) where
  sound := safe.sound.step step
  stamped u n k now := by
    rcases step.stamped_before now with ⟨k', before⟩ | rfl
    · exact safe.stamped u n k' before
    · exact first
  reachable t n now reach := by
    rcases step.protected_after guarded now with ⟨before, same⟩ | ⟨-, new⟩
    · rw [same]
      exact safe.reachable t n before reach
    · rw [new]
      exact fun u k stamped => reach (safe.stamped u n k stamped)
  obtained t now n mem := by
    have had := obtainedAfter_sub mem
    rcases step.protected_after guarded now with ⟨before, same⟩ | ⟨⟨e, entering⟩, -⟩
    · rw [same]
      exact safe.obtained t before n had
    · rw [safe.entering t e entering] at had
      cases had
  idle t now := by
    simp only [obtainedAfter, show epoche.phase t = .idle from now]
  entering t e now := by
    rw [List.eq_nil_iff_forall_not_mem]
    intro n mem
    have had := obtainedAfter_sub mem
    rcases step.entering_before now with before | before
    · rw [safe.idle t before] at had
      cases had
    · rw [safe.entering t e before] at had
      cases had

/-- Every step keeps the invariant. -/
theorem Safe.step {a : ClientAction τ ν} (safe : c.Safe guarded) (taken : c.next a = some c') :
    ∃ guarded', c'.Safe guarded' := by
  cases a with
  | link n =>
    simp only [next] at taken
    split at taken
    case isFalse => cases taken
    case isTrue fresh =>
      cases taken
      refine ⟨guarded, safe.sound, fun u m k stamped => ?_, fun t m here reach => ?_,
        safe.obtained, safe.idle, safe.entering⟩
      · have unreachable := safe.stamped u m k stamped
        have other : m ≠ n := by
          intro same
          rw [same, fresh] at unreachable
          cases unreachable
        simpa [other] using unreachable
      · apply safe.reachable t m here
        intro unreachable
        by_cases same : m = n
        · rw [same, fresh] at unreachable
          cases unreachable
        · exact reach (by simpa [same] using unreachable)
  | unlink n =>
    simp only [next] at taken
    split at taken <;> cases taken
    refine ⟨guarded, safe.sound, fun u m k stamped => ?_, fun t m here reach => ?_,
      safe.obtained, safe.idle, safe.entering⟩
    · by_cases same : m = n
      · simp [same]
      · simpa [same] using safe.stamped u m k stamped
    · apply safe.reachable t m here
      intro unreachable
      apply reach
      by_cases same : m = n
      · simp [same]
      · simpa [same] using unreachable
  | obtain t n =>
    simp only [next] at taken
    split at taken <;> try cases taken
    case h_1 inside =>
      split at taken
      case isFalse => cases taken
      case isTrue reachable =>
        cases taken
        have other : ∀ u phase, c.epoche.phase u = phase → phase ≠ .inside → u ≠ t := by
          rintro u phase here different rfl
          exact different (here.symm.trans inside)
        refine ⟨guarded, safe.sound, safe.stamped, safe.reachable, fun u here m mem => ?_,
          fun u here => ?_, fun u e here => ?_⟩
        · by_cases same : u = t
          · subst same
            simp only [Function.update_self] at mem
            rcases List.mem_cons.mp mem with rfl | had
            · exact safe.reachable u m here (by simp [reachable])
            · exact safe.obtained u here m had
          · simp only [Function.update_of_ne same] at mem
            exact safe.obtained u here m mem
        · simpa [other u _ here nofun] using safe.idle u here
        · simpa [other u _ here nofun] using safe.entering u e here
  | protocol a =>
    simp only [next] at taken
    split at taken <;> try cases taken
    case isTrue first =>
      rcases Option.map_eq_some_iff.mp taken with ⟨epoche, moved, rfl⟩
      exact ⟨_, safe.protocol first (Epoche.step_of_next moved)⟩

omit [DecidableEq τ] [DecidableEq ν] in
theorem Safe.new (startGCThreshhold : ℕ) :
    (new startGCThreshhold : EpocheClient τ ν).Safe fun _ => ∅ where
  sound := .new startGCThreshhold
  stamped _ _ _ stamped := by
    rcases stamped with ⟨label, mem, -⟩ | marks
    · cases mem
    · cases marks
  reachable _ _ := False.elim
  obtained _ := False.elim
  idle _ _ := rfl
  entering _ _ _ := rfl

omit [DecidableEq τ] [DecidableEq ν] in
/-- An operation that holds the node of a callback is cleaning up: a thread that has not
entered holds nothing, and a protected operation holds nodes that are not freed. -/
theorem Safe.not_callback {t u : τ} {n : ν} (safe : c.Safe guarded)
    (runs : c.epoche.callback t = some n) (held : n ∈ c.obtained u) :
    (c.epoche.phase u).Cleaning := by
  have free := safe.sound.callback_not_guarded (u := u) runs
  match phase : c.epoche.phase u with
  | .idle =>
    rw [safe.idle u phase] at held
    cases held
  | .entering e =>
    rw [safe.entering u e phase] at held
    cases held
  | .inside | .marking _ _ | .exiting =>
    exact absurd (safe.obtained u (by rw [phase]; trivial) n held) free
  | .cleaning | .scanning _ _ | .sweeping _ _ _ => trivial

/-! ## Runs -/

theorem epoche_of_next {a : ClientAction τ ν} (taken : c.next a = some c') :
    c'.epoche = c.epoche ∨ ∃ b, c.epoche.Step b c'.epoche := by
  cases a with
  | link n | unlink n =>
    simp only [next] at taken
    split at taken <;> cases taken
    exact Or.inl rfl
  | obtain t n =>
    simp only [next] at taken
    split at taken <;> try cases taken
    split at taken <;> cases taken
    exact Or.inl rfl
  | protocol a =>
    simp only [next] at taken
    split at taken <;> try cases taken
    rcases Option.map_eq_some_iff.mp taken with ⟨epoche, step, rfl⟩
    exact Or.inr ⟨a, Epoche.step_of_next step⟩

/-- In a run of fewer than `2 ^ 64` steps the words do not wrap, and are the numbers that
they are here. -/
theorem words_le_steps {startGCThreshhold : ℕ}
    {steps : List (EpocheClient τ ν × ClientAction τ ν)}
    (run : Transition.Run next (new startGCThreshhold) steps c) :
    c.epoche.currentEpoche ≤ steps.length ∧
      ∀ u, (c.epoche.deletionLists u).thresholdCounter ≤ steps.length := by
  apply run.history (G := fun _ _ => True) (I := fun steps c =>
    c.epoche.currentEpoche ≤ steps.length ∧
      ∀ u, (c.epoche.deletionLists u).thresholdCounter ≤ steps.length)
  · intro steps c a c' counted _ taken
    rw [List.length_append, List.length_singleton]
    rcases epoche_of_next taken with same | ⟨b, step⟩
    · rw [same]
      exact ⟨counted.1.trans (Nat.le_succ _), fun u => (counted.2 u).trans (Nat.le_succ _)⟩
    · have words := step.words_le
      exact ⟨words.1.trans (Nat.succ_le_succ counted.1),
        fun u => (words.2 u).trans (Nat.succ_le_succ (counted.2 u))⟩
  · exact fun _ _ => trivial
  · exact ⟨le_rfl, fun u => le_rfl⟩

/-- In every run, the node whose callback a thread is about to run is held by no
operation that has not yet stored the maximum in its own `exitEpocheAndCleanup`. -/
theorem callback_only_behind_readers {startGCThreshhold : ℕ}
    {steps : List (EpocheClient τ ν × ClientAction τ ν)}
    (run : Transition.Run next (new startGCThreshhold) steps c) {t u : τ} {n : ν}
    (runs : c.epoche.callback t = some n) (held : n ∈ c.obtained u) :
    (c.epoche.phase u).Cleaning := by
  have kept : ∃ guarded, c.Safe guarded := by
    apply run.invariant (G := fun _ _ => True) (I := fun c => ∃ guarded, c.Safe guarded)
    · intro s a s' safe _ taken
      rcases safe with ⟨guarded, safe⟩
      exact safe.step taken
    · exact fun _ _ => trivial
    · exact ⟨_, .new startGCThreshhold⟩
  rcases kept with ⟨guarded, safe⟩
  exact safe.not_callback runs held

/-- One operation that reads, unlinks and marks `count` nodes and then looks at its own
list in its cleanup. -/
def cleanupRun (count : ℕ) : List (ClientAction ℕ ℕ) :=
  [.protocol (.threadInfo 0 ⊤), .protocol (.loadEpoche 0), .protocol (.storeEpoche 0)] ++
    (List.range count).flatMap (fun n =>
      [.link n, .obtain 0 n, .unlink n, .protocol (.mark 0 n), .protocol (.add 0)]) ++
    [.protocol (.exit 0), .protocol (.checkThreshold 0), .protocol (.beginScan 0),
      .protocol (.loadLocalEpoche 0 0), .protocol (.endScan 0)]

/-- With the table's threshold, the cleanup is about to free the last node while the
operation that obtained it is still in `exitEpocheAndCleanup`. -/
theorem execute_cleanupRun :
    (Transition.execute next (new 256) (cleanupRun 257)).any (fun c =>
      c.epoche.callback 0 = some 256 ∧ 256 ∈ c.obtained 0) = true := by
  decide +kernel

theorem exists_cleanupRun : ∃ steps c, Transition.Run next (new 256) steps c ∧
    c.epoche.callback 0 = some 256 ∧ 256 ∈ c.obtained 0 := by
  rcases (Option.any_eq_true _ _).mp execute_cleanupRun with ⟨c, ok, freed⟩
  rcases Transition.exists_run_of_execute ok with ⟨steps, run, -⟩
  exact ⟨steps, c, run, of_decide_eq_true freed⟩

/-- The operation that holds the node is the one whose cleanup frees it. -/
theorem callback_only_behind_readers_cleanup : ∃ steps c,
    Transition.Run next (new 256 : EpocheClient ℕ ℕ) steps c ∧
      c.epoche.callback 0 = some 256 ∧ 256 ∈ c.obtained 0 ∧ (c.epoche.phase 0).Cleaning := by
  rcases exists_cleanupRun with ⟨steps, c, run, runs, held⟩
  exact ⟨steps, c, run, runs, held, callback_only_behind_readers run runs held⟩

/-- An operation's own cleanup, which is before its end, runs the callback of a node
that the operation has obtained. -/
theorem callback_within_cleanup : ¬ ∀ steps (c : EpocheClient ℕ ℕ) t u n,
    Transition.Run next (new 256) steps c → c.epoche.callback t = some n →
      n ∉ c.obtained u := by
  intro never
  rcases exists_cleanupRun with ⟨steps, c, run, runs, held⟩
  exact never steps c 0 0 256 run runs held

end EpocheClient

end TurboHash
