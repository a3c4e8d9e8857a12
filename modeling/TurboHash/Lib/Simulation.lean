import Mathlib.Logic.Function.Basic

/-!
# Simulation of a deterministic machine

An implementation is a step function that may fail; a specification is a total
one. A relation between their states that every guarded step preserves makes
every guarded run of the implementation succeed with the answers of the
specification.
-/

namespace Simulation

variable {S σ α β ε : Type}

/-- A computation that succeeds, taken apart. -/
theorem bind_eq_ok {x : Except ε α} {f : α → Except ε β} {b : β} :
    x >>= f = .ok b ↔ ∃ a, x = .ok a ∧ f a = .ok b := by
  cases x with
  | error e => exact ⟨fun h => (nomatch h), fun ⟨a, h, _⟩ => (nomatch h)⟩
  | ok a => exact ⟨fun h => ⟨a, rfl, h⟩, fun ⟨a', h, same⟩ => by cases h; exact same⟩

/-- What every step of a loop keeps, a loop that succeeds keeps. -/
theorem foldlM_invariant {I : S → Prop} {f : S → α → Except ε S} {l : List α}
    (kept : ∀ s, ∀ a ∈ l, ∀ s', I s → f s a = .ok s' → I s') {s s' : S} (start : I s)
    (ok : l.foldlM f s = .ok s') : I s' := by
  induction l generalizing s with
  | nil =>
    cases ok
    exact start
  | cons a l ih =>
    rw [List.foldlM_cons] at ok
    obtain ⟨middle, first, rest⟩ := bind_eq_ok.mp ok
    exact ih (fun s b mem => kept s b (List.mem_cons_of_mem a mem))
      (kept s a List.mem_cons_self middle start first) rest

/-- An implementation runs a list of operations. -/
def run (exec : S → α → Except ε (S × β)) : S → List α → Except ε (S × List β)
  | s, [] => .ok (s, [])
  | s, op :: ops => do
    let (s, answer) ← exec s op
    let (s, answers) ← run exec s ops
    return (s, answer :: answers)

/-- A specification runs a list of operations. -/
def specRun (step : σ → α → σ × β) : σ → List α → σ × List β
  | m, [] => (m, [])
  | m, op :: ops =>
    let rest := specRun step (step m op).1 ops
    (rest.1, (step m op).2 :: rest.2)

/-- Every operation of the run meets the guard in the state it starts from. -/
def Guarded (exec : S → α → Except ε (S × β)) (guard : S → α → Prop) : S → List α → Prop
  | _, [] => True
  | s, op :: ops =>
    guard s op ∧ ∀ s' answer, exec s op = .ok (s', answer) → Guarded exec guard s' ops

/-- What a computation returns can be tried, if it returns. -/
instance decideOk (x : Except ε α) (p : α → Prop) [∀ a, Decidable (p a)] :
    Decidable (∀ a, x = .ok a → p a) :=
  match x with
  | .error _ => isTrue nofun
  | .ok a => decidable_of_iff (p a) ⟨fun holds _ same => Except.ok.inj same ▸ holds, fun all => all a rfl⟩

instance decideOkPair (x : Except ε (α × β)) (p : α → β → Prop) [∀ a b, Decidable (p a b)] :
    Decidable (∀ a b, x = .ok (a, b) → p a b) :=
  decidable_of_iff (∀ r, x = .ok r → p r.1 r.2) ⟨fun all a b => all (a, b), fun all r => all r.1 r.2⟩

instance Guarded.decide {exec : S → α → Except ε (S × β)} {guard : S → α → Prop}
    [∀ s op, Decidable (guard s op)] : ∀ ops s, Decidable (Guarded exec guard s ops)
  | [], _ => isTrue trivial
  | op :: ops, s =>
    have (s' : S) : Decidable (Guarded exec guard s' ops) := Guarded.decide ops s'
    inferInstanceAs (Decidable (guard s op ∧
      ∀ s' answer, exec s op = .ok (s', answer) → Guarded exec guard s' ops))

/-- A guarded step succeeds, answers as the specification and keeps the relation. -/
def Simulates (exec : S → α → Except ε (S × β)) (guard : S → α → Prop)
    (step : σ → α → σ × β) (R : S → σ → Prop) : Prop :=
  ∀ s m op, R s m → guard s op →
    ∃ s', exec s op = .ok (s', (step m op).2) ∧ R s' (step m op).1

section Rules

variable {exec : S → α → Except ε (S × β)} {guard : S → α → Prop} {step : σ → α → σ × β}
  {R : S → σ → Prop}

theorem run_cons_of_ok {s s' : S} {op : α} {answer : β} (ops : List α)
    (ok : exec s op = .ok (s', answer)) :
    run exec s (op :: ops) =
      (run exec s' ops).map fun rest => (rest.1, answer :: rest.2) := by
  rw [run, ok]
  change (run exec s' ops).bind _ = _
  cases run exec s' ops <;> rfl

/-- A run that succeeds, taken apart at its first operation. -/
theorem run_cons_eq_ok {s s' : S} {op : α} {ops : List α} {answers : List β} :
    run exec s (op :: ops) = .ok (s', answers) ↔ ∃ middle answer rest,
      exec s op = .ok (middle, answer) ∧ run exec middle ops = .ok (s', rest) ∧
        answers = answer :: rest := by
  rw [run, bind_eq_ok]
  constructor
  · rintro ⟨⟨middle, answer⟩, first, later⟩
    obtain ⟨⟨s'', rest⟩, second, same⟩ := bind_eq_ok.mp later
    cases same
    exact ⟨middle, answer, rest, first, second, rfl⟩
  · rintro ⟨middle, answer, rest, first, second, rfl⟩
    exact ⟨_, first, bind_eq_ok.mpr ⟨_, second, rfl⟩⟩

/-- A run that succeeds has a state between two parts of its operations. -/
theorem run_append_ok {s s' : S} {ops ops' : List α} {answers : List β}
    (ok : run exec s (ops ++ ops') = .ok (s', answers)) : ∃ middle first rest,
      run exec s ops = .ok (middle, first) ∧ run exec middle ops' = .ok (s', rest) := by
  induction ops generalizing s answers with
  | nil => exact ⟨s, [], answers, rfl, ok⟩
  | cons op ops ih =>
    obtain ⟨next, answer, later, step, ok, -⟩ := run_cons_eq_ok.mp ok
    obtain ⟨middle, first, rest, before, after⟩ := ih ok
    exact ⟨middle, _, rest, run_cons_eq_ok.mpr ⟨next, answer, first, step, before, rfl⟩, after⟩

/-- A guard that the operations of the run meet in every state. -/
theorem Guarded.of_forall {ops : List α} (always : ∀ op ∈ ops, ∀ s, guard s op) {s : S} :
    Guarded exec guard s ops := by
  induction ops generalizing s with
  | nil => trivial
  | cons op ops ih =>
    exact ⟨always op List.mem_cons_self s,
      fun _ _ _ => ih fun op mem => always op (List.mem_cons_of_mem _ mem)⟩

/-- A guarded run answers as the specification and ends in a related state. -/
theorem Simulates.run {s : S} {m : σ} (simulates : Simulates exec guard step R) (related : R s m)
    {ops : List α} (guarded : Guarded exec guard s ops) :
    ∃ s', run exec s ops = .ok (s', (specRun step m ops).2) ∧ R s' (specRun step m ops).1 := by
  induction ops generalizing s m with
  | nil => exact ⟨s, rfl, related⟩
  | cons op ops ih =>
    obtain ⟨start, later⟩ := guarded
    obtain ⟨s', ok, related'⟩ := simulates s m op related start
    obtain ⟨s'', rest, final⟩ := ih related' (later s' _ ok)
    refine ⟨s'', ?_, final⟩
    rw [run_cons_of_ok ops ok, rest]
    rfl

/-- What every guarded step keeps, every guarded run that succeeds keeps. -/
theorem run_invariant {I : σ → S → Prop} {next : σ → α → σ}
    (kept : ∀ m s op s' answer, I m s → guard s op → exec s op = .ok (s', answer) →
      I (next m op) s')
    {m : σ} {s s' : S} {ops : List α} {answers : List β} (start : I m s)
    (guarded : Guarded exec guard s ops) (ok : Simulation.run exec s ops = .ok (s', answers)) :
    I (ops.foldl next m) s' := by
  induction ops generalizing m s answers with
  | nil =>
    cases ok
    exact start
  | cons op ops ih =>
    obtain ⟨met, later⟩ := guarded
    obtain ⟨middle, answer, rest, first, ok, -⟩ := run_cons_eq_ok.mp ok
    exact ih (kept m s op middle answer start met first) (later middle answer first) ok

end Rules

/-! ## Maps as specifications -/

section Map

variable {K V : Type}

/-- The operations of a map. -/
inductive MapOp (K V : Type)
  | put (key : K) (value : V)
  | find (key : K)
  | delete (key : K)

/-- The answers of a map whose lookups yield records of type `R`. -/
inductive MapAnswer (R : Type)
  | put
  | find (record : Option R)
  | delete (found : Bool)
deriving DecidableEq

/-- A finite map: `put` binds, `delete` unbinds and reports whether the key was
bound, `find` yields the record of the binding. -/
def mapStep [DecidableEq K] {R : Type} (record : K → V → R) (m : K → Option V) :
    MapOp K V → (K → Option V) × MapAnswer R
  | .put key value => (Function.update m key (some value), .put)
  | .find key => (m, .find ((m key).map (record key)))
  | .delete key => (Function.update m key none, .delete (m key).isSome)

end Map

end Simulation
