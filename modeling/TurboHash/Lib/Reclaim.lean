import Mathlib.Algebra.Order.Monoid.Unbundled.WithTop
import Mathlib.Data.Set.Basic
import Mathlib.Order.Lattice.Nat
import Mathlib.Order.WithBot

/-!
# Epoch-based reclamation

Threads publish the value of a clock for the time of an operation. A node that is
retired is stamped with the clock; its owner may free it after a scan that has
seen no published value at or below the stamp. A node that was not stamped when an
operation published its epoch is then not freed before the operation ends.

The machine below is the general pattern: how the epochs are loaded and stored and
in what order a scan visits the threads is left to an implementation, which
simulates it.
-/

namespace Reclaim

variable {τ ν : Type} [DecidableEq τ]

/-- A scan in progress: the threads it has still to visit, and the least
published value it has seen. -/
@[ext] structure Scan (τ : Type) where
  todo : Set τ
  least : WithTop ℕ

/-- `guarded t` is what the operation of thread `t` may use, and `stamped u n s`
says that thread `u` has retired node `n` at time `s`. -/
@[ext] structure State (τ ν : Type) where
  clock : ℕ
  registered : Set τ
  published : τ → WithTop ℕ
  guarded : τ → Set ν
  stamped : τ → ν → ℕ → Prop
  scan : τ → Option (Scan τ)

/-- The nodes that nobody has retired. -/
def State.unstamped (s : State τ ν) : Set ν := {n | ∀ u k, ¬ s.stamped u n k}

/-- A node that an operation may come to use although it may have been retired:
at or after the operation's epoch, by a thread that is not scanning yet. -/
def State.Covered (s : State τ ν) (t : τ) (n : ν) : Prop :=
  s.published t ≤ s.clock ∧ t ∈ s.registered ∧
    ∀ u k, s.stamped u n k → s.published t ≤ k ∧ s.scan u = none

/-- The steps of the pattern. -/
inductive Step : State τ ν → State τ ν → Prop
  | register (s : State τ ν) (t : τ) (initial : WithTop ℕ) (idle : s.guarded t = ∅) :
    Step s { s with
      registered := insert t s.registered
      published := Function.update s.published t initial }
  | tick (s : State τ ν) : Step s { s with clock := s.clock + 1 }
  /-- an operation begins with an epoch that the clock has had -/
  | publish (s : State τ ν) (t : τ) (e : ℕ) (past : e ≤ s.clock) (registered : t ∈ s.registered)
    (idle : s.guarded t = ∅) :
    Step s { s with
      published := Function.update s.published t (e : WithTop ℕ)
      guarded := Function.update s.guarded t s.unstamped }
  | cover (s : State τ ν) (t : τ) (n : ν) (covered : s.Covered t n) :
    Step s { s with guarded := Function.update s.guarded t (insert n (s.guarded t)) }
  | release (s : State τ ν) (t : τ) :
    Step s { s with guarded := Function.update s.guarded t ∅ }
  | silence (s : State τ ν) (t : τ) (idle : s.guarded t = ∅) :
    Step s { s with published := Function.update s.published t ⊤ }
  | retire (s : State τ ν) (u : τ) (n : ν) (quiet : s.scan u = none) :
    Step s { s with
      stamped := fun v m k => s.stamped v m k ∨ v = u ∧ m = n ∧ k = s.clock }
  /-- stamps may be raised, to earlier values of the clock, and dropped -/
  | restamp (s : State τ ν) (stamped : τ → ν → ℕ → Prop)
    (later : ∀ u n k, stamped u n k → ∃ k' ≤ k, s.stamped u n k') :
    Step s { s with stamped }
  | beginScan (s : State τ ν) (u : τ) :
    Step s { s with scan := Function.update s.scan u (some ⟨s.registered, ⊤⟩) }
  | visit (s : State τ ν) (u t : τ) (scan : Scan τ) (scanning : s.scan u = some scan) :
    Step s { s with
      scan := Function.update s.scan u
        (some ⟨scan.todo \ {t}, min scan.least (s.published t)⟩) }
  | endScan (s : State τ ν) (u : τ) :
    Step s { s with scan := Function.update s.scan u none }

/-- What keeps the nodes of an operation from being freed. -/
structure Inv (s : State τ ν) : Prop where
  registered : ∀ t n, n ∈ s.guarded t → t ∈ s.registered
  published_le : ∀ t n, n ∈ s.guarded t → s.published t ≤ s.clock
  published_le_stamp : ∀ t n u k, n ∈ s.guarded t → s.stamped u n k → s.published t ≤ k
  scanned : ∀ t n u k scan, n ∈ s.guarded t → s.stamped u n k → s.scan u = some scan →
    t ∈ scan.todo ∨ scan.least ≤ s.published t

omit [DecidableEq τ] in
/-- A finished scan frees no node of an operation. -/
theorem Inv.not_guarded {s : State τ ν} (inv : Inv s) {u t : τ} {n : ν} {k : ℕ} {scan : Scan τ}
    (stamped : s.stamped u n k) (scanning : s.scan u = some scan) (finished : scan.todo = ∅)
    (below : (k : WithTop ℕ) < scan.least) : n ∉ s.guarded t := by
  intro used
  have late := inv.published_le_stamp t n u k used stamped
  rcases inv.scanned t n u k scan used stamped scanning with left | seen
  · rw [finished] at left
    cases left
  · exact absurd (below.trans_le (seen.trans late)) (lt_irrefl _)

section Kept

variable {s s' : State τ ν}

theorem mem_update_guarded {t t' : τ} {n : ν} {nodes : Set ν}
    (used : n ∈ Function.update s.guarded t nodes t') :
    t' = t ∧ n ∈ nodes ∨ t' ≠ t ∧ n ∈ s.guarded t' := by
  rw [Function.update_apply] at used
  split at used
  case isTrue eq => exact Or.inl ⟨eq, used⟩
  case isFalse different => exact Or.inr ⟨different, used⟩

/-- Another value is published by a thread that uses nothing. -/
theorem published_of_used {t t' : τ} {n : ν} {value : WithTop ℕ} (idle : s.guarded t = ∅)
    (used : n ∈ s.guarded t') : Function.update s.published t value t' = s.published t' := by
  apply Function.update_of_ne
  rintro rfl
  rw [idle] at used
  cases used

theorem Inv.publish (inv : Inv s) {t : τ} {e : ℕ} (past : e ≤ s.clock)
    (registered : t ∈ s.registered) :
    Inv { s with
      published := Function.update s.published t (e : WithTop ℕ)
      guarded := Function.update s.guarded t s.unstamped } where
  registered t' n used := by
    rcases mem_update_guarded used with ⟨rfl, -⟩ | ⟨-, used⟩
    · exact registered
    · exact inv.registered t' n used
  published_le t' n used := by
    rcases mem_update_guarded used with ⟨rfl, -⟩ | ⟨different, used⟩
    · simp only [Function.update_self]
      exact WithTop.coe_le_coe.mpr past
    · simpa [different] using inv.published_le t' n used
  published_le_stamp t' n u k used stamped := by
    rcases mem_update_guarded used with ⟨rfl, fresh⟩ | ⟨different, used⟩
    · exact absurd stamped (fresh u k)
    · simpa [different] using inv.published_le_stamp t' n u k used stamped
  scanned t' n u k scan used stamped scanning := by
    rcases mem_update_guarded used with ⟨rfl, fresh⟩ | ⟨different, used⟩
    · exact absurd stamped (fresh u k)
    · simpa [different] using inv.scanned t' n u k scan used stamped scanning

/-- An operation comes to use a node that no one has stamped before its epoch, and that every scan
of a thread that has stamped it will respect. -/
theorem Inv.obtains (inv : Inv s) {t : τ} {n : ν} (past : s.published t ≤ s.clock)
    (registered : t ∈ s.registered) (stamps : ∀ u k, s.stamped u n k → s.published t ≤ k)
    (scans : ∀ u k scan, s.stamped u n k → s.scan u = some scan →
      t ∈ scan.todo ∨ scan.least ≤ s.published t) :
    Inv { s with guarded := Function.update s.guarded t (insert n (s.guarded t)) } := by
  constructor
  · intro t' m used
    rcases mem_update_guarded used with ⟨rfl, -⟩ | ⟨-, used⟩
    · exact registered
    · exact inv.registered t' m used
  · intro t' m used
    rcases mem_update_guarded used with ⟨rfl, -⟩ | ⟨-, used⟩
    · exact past
    · exact inv.published_le t' m used
  · intro t' m u k used stamped
    rcases mem_update_guarded used with ⟨rfl, rfl | used⟩ | ⟨-, used⟩
    · exact stamps u k stamped
    · exact inv.published_le_stamp t' m u k used stamped
    · exact inv.published_le_stamp t' m u k used stamped
  · intro t' m u k scan used stamped scanning
    rcases mem_update_guarded used with ⟨rfl, rfl | used⟩ | ⟨-, used⟩
    · exact scans u k scan stamped scanning
    · exact inv.scanned t' m u k scan used stamped scanning
    · exact inv.scanned t' m u k scan used stamped scanning

theorem Inv.cover (inv : Inv s) {t : τ} {n : ν} (covered : s.Covered t n) :
    Inv { s with guarded := Function.update s.guarded t (insert n (s.guarded t)) } := by
  rcases covered with ⟨past, registered, stamps⟩
  refine inv.obtains past registered (fun u k stamped => (stamps u k stamped).1) ?_
  intro u k scan stamped scanning
  rw [(stamps u k stamped).2] at scanning
  cases scanning

omit [DecidableEq τ] in
theorem Inv.retire (inv : Inv s) {u : τ} {n : ν} (quiet : s.scan u = none) :
    Inv { s with stamped := fun v m k => s.stamped v m k ∨ v = u ∧ m = n ∧ k = s.clock } where
  registered := inv.registered
  published_le := inv.published_le
  published_le_stamp t m v k used stamped := by
    rcases stamped with stamped | ⟨-, -, rfl⟩
    · exact inv.published_le_stamp t m v k used stamped
    · exact inv.published_le t m used
  scanned t m v k scan used stamped scanning := by
    rcases stamped with stamped | ⟨rfl, -, -⟩
    · exact inv.scanned t m v k scan used stamped scanning
    · rw [show s.scan v = some scan from scanning] at quiet
      cases quiet

omit [DecidableEq τ] in
theorem Inv.restamp (inv : Inv s) {stamped : τ → ν → ℕ → Prop}
    (later : ∀ u n k, stamped u n k → ∃ k' ≤ k, s.stamped u n k') : Inv { s with stamped } where
  registered := inv.registered
  published_le := inv.published_le
  published_le_stamp t n u k used now := by
    obtain ⟨k', less, before⟩ := later u n k now
    exact (inv.published_le_stamp t n u k' used before).trans (WithTop.coe_le_coe.mpr less)
  scanned t n u k scan used now scanning := by
    obtain ⟨k', -, before⟩ := later u n k now
    exact inv.scanned t n u k' scan used before scanning

theorem Inv.beginScan (inv : Inv s) (u : τ) :
    Inv { s with scan := Function.update s.scan u (some ⟨s.registered, ⊤⟩) } where
  registered := inv.registered
  published_le := inv.published_le
  published_le_stamp := inv.published_le_stamp
  scanned t n v k scan used stamped scanning := by
    dsimp only at scanning
    rw [Function.update_apply] at scanning
    split at scanning
    case isTrue =>
      cases scanning
      exact Or.inl (inv.registered t n used)
    case isFalse => exact inv.scanned t n v k scan used stamped scanning

theorem Inv.visit (inv : Inv s) {u t : τ} {scan : Scan τ} (scanning : s.scan u = some scan) :
    Inv { s with
      scan := Function.update s.scan u
        (some ⟨scan.todo \ {t}, min scan.least (s.published t)⟩) } where
  registered := inv.registered
  published_le := inv.published_le
  published_le_stamp := inv.published_le_stamp
  scanned t' n v k scan' used stamped scanning' := by
    dsimp only at scanning'
    rw [Function.update_apply] at scanning'
    split at scanning'
    case isFalse => exact inv.scanned t' n v k scan' used stamped scanning'
    case isTrue eq =>
      subst eq
      cases scanning'
      by_cases here : t' = t
      · subst here
        exact Or.inr (min_le_right _ _)
      · rcases inv.scanned t' n v k scan used stamped scanning with left | seen
        · exact Or.inl ⟨left, here⟩
        · exact Or.inr ((min_le_left _ _).trans seen)

/-- Every step keeps the invariant. -/
theorem Inv.step (inv : Inv s) (step : Step s s') : Inv s' := by
  cases step with
  | register t initial idle =>
    refine ⟨fun t' n used => Or.inr (inv.registered t' n used), fun t' n used => ?_,
      fun t' n u k used stamped => ?_, fun t' n u k scan used stamped scanning => ?_⟩
    · dsimp only
      rw [published_of_used idle used]
      exact inv.published_le t' n used
    · dsimp only
      rw [published_of_used idle used]
      exact inv.published_le_stamp t' n u k used stamped
    · dsimp only
      rw [published_of_used idle used]
      exact inv.scanned t' n u k scan used stamped scanning
  | tick =>
    refine ⟨inv.registered, fun t n used => ?_, inv.published_le_stamp, inv.scanned⟩
    exact (inv.published_le t n used).trans (WithTop.coe_le_coe.mpr (Nat.le_succ _))
  | publish t e past registered _ => exact inv.publish past registered
  | cover t n covered => exact inv.cover covered
  | release t =>
    have used : ∀ t' n, n ∈ Function.update s.guarded t ∅ t' → n ∈ s.guarded t' := by
      intro t' n now
      rcases mem_update_guarded now with ⟨-, nothing⟩ | ⟨-, used⟩
      · cases nothing
      · exact used
    exact ⟨fun t' n now => inv.registered t' n (used t' n now),
      fun t' n now => inv.published_le t' n (used t' n now),
      fun t' n u k now => inv.published_le_stamp t' n u k (used t' n now),
      fun t' n u k scan now => inv.scanned t' n u k scan (used t' n now)⟩
  | silence t idle =>
    refine ⟨inv.registered, fun t' n used => ?_, fun t' n u k used stamped => ?_,
      fun t' n u k scan used stamped scanning => ?_⟩
    · dsimp only
      rw [published_of_used idle used]
      exact inv.published_le t' n used
    · dsimp only
      rw [published_of_used idle used]
      exact inv.published_le_stamp t' n u k used stamped
    · dsimp only
      rw [published_of_used idle used]
      exact inv.scanned t' n u k scan used stamped scanning
  | retire u n quiet => exact inv.retire quiet
  | restamp stamped later => exact inv.restamp later
  | beginScan u => exact inv.beginScan u
  | visit u t scan scanning => exact inv.visit scanning
  | endScan u =>
    refine ⟨inv.registered, inv.published_le, inv.published_le_stamp,
      fun t n v k scan used stamped scanning => ?_⟩
    dsimp only at scanning
    rw [Function.update_apply] at scanning
    split at scanning
    case isTrue => cases scanning
    case isFalse => exact inv.scanned t n v k scan used stamped scanning

/-- Every sequence of steps keeps the invariant. -/
theorem Inv.steps (inv : Inv s) (steps : Relation.ReflTransGen Step s s') : Inv s' := by
  induction steps with
  | refl => exact inv
  | tail _ step ih => exact ih.step step

end Kept

end Reclaim
