import TurboHash.Lib.Simulation
import TurboHash.Lib.Transition

/-!
# A map shared by threads

A thread calls an operation and returns from it, and between the two the operation takes effect in
one step. A `put` does not return without its effect. A `find` has none, and neither has a `delete`
that removes no binding. The map is at any time what the operations that took effect make of it, one
after the other.
-/

namespace Simulation

open Transition

variable {τ K V : Type}

/-- Where a thread stands in its operation. -/
inductive Pending (K V : Type)
  | idle
  /-- before its effect -/
  | called (op : MapOp K V)
  /-- behind its effect -/
  | committed

/-- A map and the threads that use it. -/
structure AtomicMap (τ K V : Type) where
  map : K → Option V
  pending : τ → Pending K V

inductive AtomicAction (τ K V : Type)
  | call (t : τ) (op : MapOp K V)
  | commit (t : τ)
  | ret (t : τ)

/-- What an operation makes of the map, if it has an effect. -/
def MapOp.effect [DecidableEq K] (map : K → Option V) : MapOp K V → Option (K → Option V)
  | .put key value => some (Function.update map key (some value))
  | .find _ => none
  | .delete key => if (map key).isSome then some (Function.update map key none) else none

namespace AtomicMap

/-- Nobody uses the map. -/
def start (map : K → Option V) : AtomicMap τ K V := ⟨map, fun _ => .idle⟩

variable [DecidableEq τ] [DecidableEq K]

def setPending (s : AtomicMap τ K V) (t : τ) (pending : Pending K V) : AtomicMap τ K V :=
  { s with pending := Function.update s.pending t pending }

def next (s : AtomicMap τ K V) : AtomicAction τ K V → Option (AtomicMap τ K V)
  | .call t op =>
    match s.pending t with
    | .idle => some (s.setPending t (.called op))
    | _ => none
  | .commit t =>
    match s.pending t with
    | .called op => (op.effect s.map).map fun map => { s.setPending t .committed with map }
    | _ => none
  | .ret t =>
    match s.pending t with
    | .idle | .called (.put _ _) => none
    | _ => some (s.setPending t .idle)

omit [DecidableEq τ] [DecidableEq K] in
/-- The operation that takes effect. -/
def commits (s : AtomicMap τ K V) : AtomicAction τ K V → Option (MapOp K V)
  | .commit t =>
    match s.pending t with
    | .called op => some op
    | _ => none
  | .call _ _ | .ret _ => none

variable {s s' : AtomicMap τ K V} {a : AtomicAction τ K V} {map : K → Option V}
  {steps : List (AtomicMap τ K V × AtomicAction τ K V)} {t : τ}

omit [DecidableEq K] in
@[simp] theorem setPending_self {pending : Pending K V} :
    (s.setPending t pending).pending t = pending := Function.update_self ..

omit [DecidableEq K] in
theorem setPending_of_ne {pending : Pending K V} {u : τ} (other : u ≠ t) :
    (s.setPending t pending).pending u = s.pending u := Function.update_of_ne other ..

theorem next_map (taken : s.next a = some s') :
    (s.commits a).elim (s'.map = s.map) fun op => op.effect s.map = some s'.map := by
  cases a with
  | call t op =>
    simp only [next] at taken
    split at taken <;> cases taken
    rfl
  | commit t =>
    simp only [next] at taken
    split at taken
    case h_1 op was =>
      obtain ⟨map, effect, rfl⟩ := Option.map_eq_some_iff.mp taken
      rw [commits, was]
      exact effect
    case h_2 => cases taken
  | ret t =>
    simp only [next] at taken
    split at taken <;> cases taken
    rfl

/-- The map is what the operations that took effect make of it, one after the other. -/
theorem map_of_run (run : Run next (.start map) steps s) :
    (steps.filterMap fun p => p.1.commits p.2).foldlM MapOp.effect map = some s.map := by
  induction run with
  | nil => rfl
  | @snoc steps s' s'' a _ step ih =>
    have last := next_map step
    rw [List.filterMap_append, List.foldlM_append, ih]
    cases same : s'.commits a with
    | none =>
      rw [same] at last
      simp [same, show s''.map = s'.map from last]
    | some op =>
      rw [same] at last
      simpa [same] using last

end AtomicMap

end Simulation
