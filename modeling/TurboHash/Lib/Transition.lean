import Mathlib.Data.List.Basic

/-!
# Runs of a labelled transition system

The step function says what the action `a` does in the state `s`, or that it
cannot be taken there. A run keeps its steps, each with the state it starts from:
a condition on a run is a condition on its steps, and "at some moment of the run"
is a state the run has visited.
-/

namespace Transition

variable {σ α : Type}

/-- The steps from one state to another. -/
inductive Run (next : σ → α → Option σ) (s : σ) : List (σ × α) → σ → Prop
  | nil : Run next s [] s
  | snoc {steps : List (σ × α)} {s' s'' : σ} {a : α} (run : Run next s steps s')
      (step : next s' a = some s'') : Run next s (steps ++ [(s', a)]) s''

/-- The states of a run, the last one included. -/
def visited (steps : List (σ × α)) (last : σ) : List σ := steps.map Prod.fst ++ [last]

/-- Take a list of actions one after the other. -/
def execute (next : σ → α → Option σ) : σ → List α → Option σ
  | s, [] => some s
  | s, a :: actions => (next s a).bind fun s' => execute next s' actions

/-- The steps that meet `good`. -/
def guarded (next : σ → α → Option σ) (good : σ → α → Prop) [∀ s a, Decidable (good s a)]
    (s : σ) (a : α) : Option σ :=
  if good s a then next s a else none

section Run

variable {next : σ → α → Option σ} {s s' s'' : σ} {steps : List (σ × α)}

theorem Run.cons {a : α} (step : next s a = some s') (run : Run next s' steps s'') :
    Run next s ((s, a) :: steps) s'' := by
  induction run with
  | nil => exact Run.snoc .nil step
  | snoc _ last ih => exact Run.snoc ih last

theorem Run.append {steps' : List (σ × α)} (run : Run next s steps s')
    (run' : Run next s' steps' s'') : Run next s (steps ++ steps') s'' := by
  induction run' with
  | nil => simpa using run
  | snoc _ last ih =>
    rw [← List.append_assoc]
    exact Run.snoc ih last

/-- Actions that can be taken are a run. -/
theorem exists_run_of_execute {actions : List α} (ok : execute next s actions = some s') :
    ∃ steps, Run next s steps s' ∧ steps.map Prod.snd = actions := by
  induction actions generalizing s with
  | nil =>
    cases ok
    exact ⟨[], .nil, rfl⟩
  | cons a actions ih =>
    obtain ⟨middle, step, rest⟩ := Option.bind_eq_some_iff.mp ok
    obtain ⟨steps, run, same⟩ := ih rest
    exact ⟨(s, a) :: steps, run.cons step, by rw [List.map_cons, same]⟩

theorem exists_run_of_guarded {good : σ → α → Prop} [∀ s a, Decidable (good s a)]
    {actions : List α} (ok : execute (guarded next good) s actions = some s') :
    ∃ steps, Run next s steps s' ∧ ∀ p ∈ steps, good p.1 p.2 := by
  induction actions generalizing s with
  | nil =>
    cases ok
    exact ⟨[], .nil, by simp⟩
  | cons a actions ih =>
    obtain ⟨middle, step, rest⟩ := Option.bind_eq_some_iff.mp ok
    obtain ⟨steps, run, met⟩ := ih rest
    unfold guarded at step
    split at step
    case isTrue meets =>
      refine ⟨(s, a) :: steps, run.cons step, fun p mem => ?_⟩
      rcases List.mem_cons.mp mem with rfl | later
      · exact meets
      · exact met p later
    case isFalse => cases step

/-- The rule of invariants: what holds at the start and is kept by every step that
meets `G` holds behind every run whose steps meet it. -/
theorem Run.invariant {G : σ → α → Prop} {I : σ → Prop} (run : Run next s steps s')
    (kept : ∀ s a s', I s → G s a → next s a = some s' → I s')
    (met : ∀ p ∈ steps, G p.1 p.2) (start : I s) : I s' := by
  induction run with
  | nil => exact start
  | snoc _ step ih =>
    have before := ih fun p mem => met p (by simp [mem])
    exact kept _ _ _ before (met (_, _) (by simp)) step

theorem visited_snoc (steps : List (σ × α)) (s s' : σ) (a : α) :
    visited (steps ++ [(s, a)]) s' = visited steps s ++ [s'] := by
  simp [visited]

theorem Run.first_mem_visited (run : Run next s steps s') : s ∈ visited steps s' := by
  induction run with
  | nil => simp [visited]
  | snoc _ _ ih =>
    rw [visited_snoc]
    exact List.mem_append_left _ ih

/-- The invariant holds in every state that the run visits. -/
theorem Run.forall_visited {G : σ → α → Prop} {I : σ → Prop} (run : Run next s steps s')
    (kept : ∀ s a s', I s → G s a → next s a = some s' → I s')
    (met : ∀ p ∈ steps, G p.1 p.2) (start : I s) : ∀ q ∈ visited steps s', I q := by
  induction run with
  | nil => simpa [visited] using start
  | @snoc steps s' s'' a run step ih =>
    have before := ih fun p mem => met p (by simp [mem])
    intro q mem
    rw [visited_snoc, List.mem_append, List.mem_singleton] at mem
    rcases mem with mem | rfl
    · exact before q mem
    · exact kept _ _ _ (before s' (by simp [visited])) (met (_, _) (by simp)) step

/-- The rule of invariants for a relation to the steps taken so far. -/
theorem Run.history {G : σ → α → Prop} {I : List (σ × α) → σ → Prop} (run : Run next s steps s')
    (kept : ∀ steps s a s', I steps s → G s a → next s a = some s' → I (steps ++ [(s, a)]) s')
    (met : ∀ p ∈ steps, G p.1 p.2) (start : I [] s) : I steps s' := by
  induction run with
  | nil => exact start
  | snoc _ step ih =>
    have before := ih fun p mem => met p (by simp [mem])
    exact kept _ _ _ _ before (met (_, _) (by simp)) step

/-- A run to any of its visited states. -/
theorem Run.exists_prefix (run : Run next s steps s') {p : σ × α} (mem : p ∈ steps) :
    ∃ before after, steps = before ++ p :: after ∧ Run next s before p.1 := by
  induction run with
  | nil => cases mem
  | snoc earlier step ih =>
    rcases List.mem_append.mp mem with mem | mem
    · obtain ⟨before, after, eq, run⟩ := ih mem
      exact ⟨before, after ++ [_], by rw [eq, List.append_assoc, List.cons_append], run⟩
    · obtain rfl := List.mem_singleton.mp mem
      exact ⟨_, [], rfl, earlier⟩

/-- What a system does of which each state and each step shows at most one of another system: a run
of the other one. -/
theorem Run.project {σ' β : Type} {next' : σ' → β → Option σ'} (view : σ → σ')
    (act : σ → α → Option β) (run : Run next s steps s')
    (sees : ∀ s a s', next s a = some s' →
      (act s a).elim (view s' = view s) fun b => next' (view s) b = some (view s')) :
    Run next' (view s) (steps.filterMap fun p => (act p.1 p.2).map (Prod.mk (view p.1)))
      (view s') := by
  induction run with
  | nil => exact .nil
  | @snoc steps s' s'' a run step ih =>
    have shown := sees s' a s'' step
    rw [List.filterMap_append]
    cases taken : act s' a with
    | none =>
      rw [taken] at shown
      simpa [taken, show view s'' = view s' from shown] using ih
    | some b =>
      rw [taken] at shown
      simpa [taken] using ih.snoc shown

/-- Forward simulation: a step that `act` shows is a step of the other system, any other one leaves
it where it is. -/
theorem Run.simulate {σ' β : Type} {next' : σ' → β → Option σ'} {G : σ → α → Prop} {R : σ → σ' → Prop}
    {q : σ'} (act : σ → α → Option β) (run : Run next s steps s')
    (sees : ∀ s a s' q, R s q → G s a → next s a = some s' →
      (act s a).elim (R s' q) fun b => ∃ q', next' q b = some q' ∧ R s' q')
    (met : ∀ p ∈ steps, G p.1 p.2) (start : R s q) :
    ∃ steps' q', Run next' q steps' q' ∧
      steps'.map Prod.snd = steps.filterMap (fun p => act p.1 p.2) ∧ R s' q' := by
  induction run with
  | nil => exact ⟨[], q, .nil, rfl, start⟩
  | @snoc steps s' s'' a _ step ih =>
    obtain ⟨steps', q', run', same, related⟩ := ih fun p mem => met p (by simp [mem])
    have shown := sees s' a s'' q' related (met (s', a) (by simp)) step
    cases taken : act s' a with
    | none =>
      rw [taken] at shown
      exact ⟨steps', q', run', by simp [same, taken], shown⟩
    | some b =>
      rw [taken] at shown
      obtain ⟨q'', step', related'⟩ := shown
      exact ⟨steps' ++ [(q', b)], q'', run'.snoc step', by simp [same, taken], related'⟩

theorem Run.eq_of_nil (run : Run next s [] s') : s' = s := by
  generalize none_left : ([] : List (σ × α)) = steps at run
  cases run with
  | nil => rfl
  | snoc _ _ => exact absurd none_left (by simp)

/-- The first step of a run. -/
theorem Run.head {p : σ × α} (run : Run next s (p :: steps) s'') :
    p.1 = s ∧ ∃ s', next s p.2 = some s' ∧ Run next s' steps s'' := by
  generalize all : p :: steps = whole at run
  induction run generalizing p steps with
  | nil => cases all
  | @snoc front _ _ a run step ih =>
    cases front with
    | nil =>
      cases all
      cases run.eq_of_nil
      exact ⟨rfl, _, step, .nil⟩
    | cons first front =>
      cases all
      obtain ⟨here, s', taken, rest⟩ := ih rfl
      exact ⟨here, s', taken, Run.snoc rest step⟩

/-- The two parts of a run. -/
theorem Run.split {earlier later : List (σ × α)} (run : Run next s (earlier ++ later) s') :
    ∃ middle, Run next s earlier middle ∧ Run next middle later s' := by
  induction earlier generalizing s with
  | nil => exact ⟨s, .nil, run⟩
  | cons p earlier ih =>
    obtain ⟨here, _, step, rest⟩ := Run.head run
    obtain ⟨middle, front, back⟩ := ih rest
    subst here
    exact ⟨middle, front.cons step, back⟩

end Run

end Transition
