import Mathlib.Data.List.GetD
import Mathlib.Order.Basic

/-!
# Memory that survives a crash line by line

A line holds what it was last written back with, and what it held after each store
since. A flush covers the stores made so far, the next fence makes what it covers
durable, and a crash leaves each line with one of its survivors: the durable content
or a later one. Locations are typed, and `lineOf` says on which line a location lies.

The rule of this file is `commit_atomic`: a program prepares locations nobody reads
yet, writes them back, and publishes them with one store. Whatever a crash leaves,
either nothing of the preparation is published or all of it is.
-/

namespace LineMemory

/-! ## One line -/

/-- A line: its durable content, its contents since, and how many of the later stores
a flush has covered. -/
structure Line (X : Type) where
  durable : X
  later : List X
  flushed : Nat
  flushed_le : flushed ≤ later.length

namespace Line

variable {X : Type} {l : Line X} {x : X}

/-- A line without pending stores. -/
def clean (x : X) : Line X := ⟨x, [], 0, Nat.le_refl _⟩

/-- The contents a crash may leave, oldest first. -/
def survivors (l : Line X) : List X := l.durable :: l.later

theorem survivors_ne_nil (l : Line X) : l.survivors ≠ [] := List.cons_ne_nil _ _

/-- The content that loads see. -/
def current (l : Line X) : X := l.survivors.getLast l.survivors_ne_nil

/-- The content after `k` of the stores that are not yet durable. -/
def survivor (l : Line X) (k : Nat) : X := l.survivors.getD k l.current

def store (f : X → X) (l : Line X) : Line X where
  durable := l.durable
  later := l.later ++ [f l.current]
  flushed := l.flushed
  flushed_le := by
    have := l.flushed_le
    simp
    omega

def flush (l : Line X) : Line X := ⟨l.durable, l.later, l.later.length, Nat.le_refl _⟩

def fence (l : Line X) : Line X :=
  ⟨l.survivor l.flushed, l.later.drop l.flushed, 0, Nat.zero_le _⟩

theorem current_mem (l : Line X) : l.current ∈ l.survivors := List.getLast_mem _

theorem survivor_mem (l : Line X) (k : Nat) : l.survivor k ∈ l.survivors := by
  unfold survivor
  rcases Nat.lt_or_ge k l.survivors.length with inside | outside
  · rw [List.getD_eq_getElem _ _ inside]
    exact List.getElem_mem inside
  · rw [List.getD_eq_default _ _ outside]
    exact l.current_mem

@[simp] theorem survivors_clean : (clean x).survivors = [x] := rfl

@[simp] theorem current_clean : (clean x).current = x := rfl

@[simp] theorem survivors_store (f : X → X) :
    (l.store f).survivors = l.survivors ++ [f l.current] := rfl

@[simp] theorem current_store (f : X → X) : (l.store f).current = f l.current := by
  unfold current
  simp only [survivors_store, List.getLast_concat]
  rfl

@[simp] theorem survivors_flush : l.flush.survivors = l.survivors := rfl

@[simp] theorem current_flush : l.flush.current = l.current := rfl

theorem survivors_fence : l.fence.survivors = l.survivors.drop l.flushed := by
  have inside : l.flushed < l.survivors.length := Nat.lt_succ_of_le l.flushed_le
  rw [List.drop_eq_getElem_cons inside, ← List.getD_eq_getElem _ l.current inside]
  rfl

theorem survivors_fence_subset : l.fence.survivors ⊆ l.survivors := by
  rw [survivors_fence]
  exact List.drop_subset _ _

@[simp] theorem current_fence : l.fence.current = l.current := by
  unfold current
  simp only [survivors_fence]
  exact List.getLast_drop _

/-- A fence behind a flush leaves one survivor. -/
theorem survivors_flushed_fence (all : l.flushed = l.later.length) :
    l.fence.survivors = [l.current] := by
  have inside : l.later.length < l.survivors.length := Nat.lt_succ_self _
  rw [survivors_fence, all, List.drop_eq_getElem_cons inside, current, List.getLast_eq_getElem]
  simp [survivors]

end Line

/-! ## The memory -/

section Memory

variable {Loc Addr : Type} {Val : Loc → Type}

/-- What the locations hold. -/
abbrev Content (Val : Loc → Type) := ∀ l, Val l

/-- The lines. Of a line's content only its own locations count. -/
abbrev Memory (Addr : Type) (Val : Loc → Type) := Addr → Line (Content Val)

/-- What a program does to the memory: store one location, copy whole lines, write a
set of lines back, and order the write-backs. -/
inductive Event (Addr : Type) (Val : Loc → Type)
  | store (l : Loc) (v : Val l)
  | copy (lines : Addr → Bool) (x : Content Val)
  | flush (lines : Addr → Bool)
  | fence

variable [DecidableEq Loc] [DecidableEq Addr] (lineOf : Loc → Addr)

/-- The flush of a single line. -/
def Event.flushLine (a : Addr) : Event Addr Val := .flush fun b => decide (b = a)

def exec (m : Memory Addr Val) : Event Addr Val → Memory Addr Val
  | .store l v =>
    Function.update m (lineOf l) ((m (lineOf l)).store fun x => Function.update x l v)
  | .copy lines x => fun a => if lines a then (m a).store fun _ => x else m a
  | .flush lines => fun a => if lines a then (m a).flush else m a
  | .fence => fun a => (m a).fence

def execAll (m : Memory Addr Val) (events : List (Event Addr Val)) : Memory Addr Val :=
  events.foldl (exec lineOf) m

/-- What loads see. -/
def current (m : Memory Addr Val) : Content Val := fun l => (m (lineOf l)).current l

/-- What a crash leaves when line `a` survives as its survivor `keep a`. -/
def image (m : Memory Addr Val) (keep : Addr → Nat) : Content Val :=
  fun l => (m (lineOf l)).survivor (keep (lineOf l)) l

/-- The memory a crash leaves. -/
def crashed (m : Memory Addr Val) (keep : Addr → Nat) : Memory Addr Val :=
  fun a => .clean ((m a).survivor (keep a))

/-- Location `l` holds `v`, crash or not. -/
def Surely (m : Memory Addr Val) (l : Loc) (v : Val l) : Prop :=
  ∀ x ∈ (m (lineOf l)).survivors, x l = v

/-- The event stores nothing into `l`. -/
def Event.Avoids (l : Loc) : Event Addr Val → Prop
  | .store l' _ => l' ≠ l
  | .copy lines _ => lines (lineOf l) = false
  | .flush _ => True
  | .fence => True

/-- The event stores nothing at all. -/
def Event.Quiet : Event Addr Val → Prop
  | .store _ _ => False
  | .copy _ _ => False
  | .flush _ => True
  | .fence => True

/-- What the event does to the contents that loads see. -/
def Event.apply (x : Content Val) : Event Addr Val → Content Val
  | .store l v => Function.update x l v
  | .copy lines y => fun l => if lines (lineOf l) then y l else x l
  | .flush _ => x
  | .fence => x

/-- A flush covers every store made to the line. -/
def Flushed (m : Memory Addr Val) (a : Addr) : Prop := (m a).flushed = (m a).later.length

variable {lineOf} {m : Memory Addr Val} {l : Loc} {v : Val l} {a : Addr}

theorem exec_store_self :
    exec lineOf m (.store l v) (lineOf l) =
      (m (lineOf l)).store fun x => Function.update x l v :=
  Function.update_self ..

theorem exec_store_of_ne (different : a ≠ lineOf l) : exec lineOf m (.store l v) a = m a :=
  Function.update_of_ne different ..

theorem exec_copy (lines : Addr → Bool) (x : Content Val) :
    exec lineOf m (.copy lines x) a = if lines a then (m a).store fun _ => x else m a := rfl

theorem exec_flush (lines : Addr → Bool) :
    exec lineOf m (.flush lines) a = if lines a then (m a).flush else m a := rfl

theorem exec_fence : exec lineOf m .fence a = (m a).fence := rfl

@[simp] theorem execAll_nil : execAll lineOf m [] = m := rfl

@[simp] theorem execAll_cons (e : Event Addr Val) (events : List (Event Addr Val)) :
    execAll lineOf m (e :: events) = execAll lineOf (exec lineOf m e) events := rfl

theorem execAll_append (events events' : List (Event Addr Val)) :
    execAll lineOf m (events ++ events') = execAll lineOf (execAll lineOf m events) events' :=
  List.foldl_append

/-! ## What loads see -/

theorem current_exec (e : Event Addr Val) :
    current lineOf (exec lineOf m e) = e.apply lineOf (current lineOf m) := by
  funext k
  unfold current
  cases e with
  | store l v =>
    by_cases same : lineOf k = lineOf l
    · rw [same, exec_store_self, Line.current_store, ← same]
      by_cases eq : k = l
      · subst eq
        exact (Function.update_self ..).trans (Function.update_self ..).symm
      · exact (Function.update_of_ne eq ..).trans (Function.update_of_ne eq ..).symm
    · have different : k ≠ l := fun eq => same (congrArg lineOf eq)
      rw [exec_store_of_ne same]
      exact (Function.update_of_ne different ..).symm
  | copy lines x =>
    rw [exec_copy]
    change _ = if lines (lineOf k) then x k else (m (lineOf k)).current k
    split
    case isTrue => rw [Line.current_store]
    case isFalse => rfl
  | flush lines =>
    rw [exec_flush, Event.apply]
    split <;> rfl
  | fence => rw [exec_fence, Event.apply, Line.current_fence]

theorem current_execAll (events : List (Event Addr Val)) :
    current lineOf (execAll lineOf m events) =
      events.foldl (Event.apply lineOf) (current lineOf m) := by
  induction events generalizing m with
  | nil => rfl
  | cons e events ih => rw [execAll_cons, ih, current_exec, List.foldl_cons]

omit [DecidableEq Addr] in
theorem apply_of_avoids {x : Content Val} {e : Event Addr Val} (avoids : e.Avoids lineOf l) :
    e.apply lineOf x l = x l := by
  cases e with
  | store l' v => exact Function.update_of_ne (Ne.symm avoids) ..
  | copy lines y => exact if_neg (by rw [avoids]; simp)
  | flush | fence => rfl

omit [DecidableEq Addr] in
theorem foldl_apply_of_avoids {x : Content Val} {events : List (Event Addr Val)}
    (avoids : ∀ e ∈ events, e.Avoids lineOf l) :
    events.foldl (Event.apply lineOf) x l = x l := by
  induction events generalizing x with
  | nil => rfl
  | cons e events ih =>
    rw [List.foldl_cons, ih fun e mem => avoids e (by simp [mem]),
      apply_of_avoids (avoids e (by simp))]

/-! ## What is sure -/

omit [DecidableEq Loc] [DecidableEq Addr] in
theorem Surely.current (sure : Surely lineOf m l v) : current lineOf m l = v :=
  sure (m (lineOf l)).current (m (lineOf l)).current_mem

omit [DecidableEq Loc] [DecidableEq Addr] in
theorem Surely.image (sure : Surely lineOf m l v) (keep : Addr → Nat) :
    image lineOf m keep l = v :=
  sure ((m (lineOf l)).survivor _) ((m (lineOf l)).survivor_mem _)

omit [DecidableEq Loc] [DecidableEq Addr] in
theorem surely_crashed {keep : Addr → Nat} :
    Surely lineOf (crashed m keep) l (LineMemory.image lineOf m keep l) := by
  intro x mem
  rw [crashed, Line.survivors_clean, List.mem_singleton] at mem
  rw [mem]
  rfl

/-- What is sure stays so, unless it is stored to. -/
theorem Surely.exec {e : Event Addr Val} (sure : Surely lineOf m l v)
    (avoids : e.Avoids lineOf l) : Surely lineOf (exec lineOf m e) l v := by
  intro x mem
  cases e with
  | store l' v' =>
    by_cases same : lineOf l = lineOf l'
    · rw [same, exec_store_self, Line.survivors_store, List.mem_append, List.mem_singleton,
        ← same] at mem
      rcases mem with older | rfl
      · exact sure x older
      · rw [Function.update_of_ne (Ne.symm avoids)]
        exact sure.current
    · rw [exec_store_of_ne same] at mem
      exact sure x mem
  | copy lines y =>
    rw [exec_copy, if_neg (by rw [avoids]; simp)] at mem
    exact sure x mem
  | flush lines =>
    rw [exec_flush] at mem
    split at mem <;> exact sure x mem
  | fence => exact sure x (Line.survivors_fence_subset mem)

/-- Storing what is sure changes nothing. -/
theorem Surely.exec_store (sure : Surely lineOf m l v) :
    Surely lineOf (LineMemory.exec lineOf m (.store l v)) l v := by
  intro x mem
  rw [exec_store_self, Line.survivors_store, List.mem_append, List.mem_singleton] at mem
  rcases mem with older | rfl
  · exact sure x older
  · exact Function.update_self ..

theorem Surely.execAll {events : List (Event Addr Val)} (sure : Surely lineOf m l v)
    (avoids : ∀ e ∈ events, e.Avoids lineOf l) : Surely lineOf (execAll lineOf m events) l v := by
  induction events generalizing m with
  | nil => exact sure
  | cons e events ih =>
    exact ih (sure.exec (avoids e (by simp))) fun e mem => avoids e (by simp [mem])

omit [DecidableEq Loc] [DecidableEq Addr] in
theorem Event.Quiet.avoids {e : Event Addr Val} (quiet : e.Quiet) (l : Loc) :
    e.Avoids lineOf l := by
  cases e with
  | store | copy => cases quiet
  | flush | fence => trivial

/-- Without a store the survivors only become fewer. -/
theorem survivors_subset_of_quiet {events : List (Event Addr Val)}
    (quiet : ∀ e ∈ events, e.Quiet) (a : Addr) :
    (execAll lineOf m events a).survivors ⊆ (m a).survivors := by
  induction events generalizing m with
  | nil => exact List.Subset.refl _
  | cons e events ih =>
    refine List.Subset.trans (ih fun e mem => quiet e (by simp [mem])) ?_
    cases e with
    | store l v => exact False.elim (quiet (.store l v) (by simp))
    | copy lines x => exact False.elim (quiet (.copy lines x) (by simp))
    | flush lines =>
      rw [exec_flush]
      split <;> exact List.Subset.refl _
    | fence => exact Line.survivors_fence_subset

/-! ## Writing back -/

theorem flushed_flush {lines : Addr → Bool} (covered : lines a = true) :
    Flushed (exec lineOf m (.flush lines)) a := by
  rw [Flushed, exec_flush, if_pos covered]
  rfl

theorem flushed_flushLine : Flushed (exec lineOf m (.flushLine a)) a :=
  flushed_flush (decide_eq_true rfl)

theorem Flushed.flush {lines : Addr → Bool} (flushed : Flushed m a) :
    Flushed (exec lineOf m (.flush lines)) a := by
  rw [Flushed, exec_flush]
  split
  case isTrue => rfl
  case isFalse => exact flushed

/-- Behind a fence a flushed line holds what loads see. -/
theorem Flushed.surely (flushed : Flushed m (lineOf l)) :
    Surely lineOf (exec lineOf m .fence) l (current lineOf m l) := by
  intro x mem
  rw [exec_fence, Line.survivors_flushed_fence flushed, List.mem_singleton] at mem
  rw [mem]
  rfl

/-- A flush of a line and a fence make its locations durable. -/
theorem surely_of_flush_fence {lines : Addr → Bool} (covered : lines (lineOf l) = true) :
    Surely lineOf (execAll lineOf m [.flush lines, .fence]) l (current lineOf m l) := by
  have flushed : Flushed (exec lineOf m (.flush lines)) (lineOf l) := flushed_flush covered
  have sure := flushed.surely
  rwa [current_exec] at sure

theorem surely_of_flushLine_fence (same : lineOf l = a) :
    Surely lineOf (execAll lineOf m [.flushLine a, .fence]) l (current lineOf m l) :=
  surely_of_flush_fence (decide_eq_true same)

/-! ## Publishing with one store -/

variable (lineOf) in
/-- A program that prepares, publishes with the store of `v` into `l`, and writes back:
a crash leaves what was sure and is not prepared, or all that is sure behind the
preparation together with what the line of `l` holds there. -/
theorem commit_atomic {prepare finish done todo : List (Event Addr Val)}
    (quiet : ∀ e ∈ finish, e.Quiet) (split : done ++ todo = prepare ++ .store l v :: finish)
    (keep : Addr → Nat) :
    (∀ k w, Surely lineOf m k w → (∀ e ∈ prepare, e.Avoids lineOf k) →
        image lineOf (execAll lineOf m done) keep k = w) ∨
      image lineOf (execAll lineOf m done) keep l = v ∧
        (∀ k, k ≠ l → lineOf k = lineOf l → image lineOf (execAll lineOf m done) keep k =
          current lineOf (execAll lineOf m prepare) k) ∧
        ∀ k w, k ≠ l → Surely lineOf (execAll lineOf m prepare) k w →
          image lineOf (execAll lineOf m done) keep k = w := by
  rcases List.append_eq_append_iff.mp split with ⟨rest, eq, -⟩ | ⟨rest, eq, rest_eq⟩
  · -- the crash comes before the store
    left
    intro k w sure avoids
    refine (sure.execAll fun e mem => avoids e ?_).image keep
    simp [eq, mem]
  · cases rest with
    | nil =>
      left
      intro k w sure avoids
      refine (sure.execAll fun e mem => avoids e ?_).image keep
      simpa [eq] using mem
    | cons e rest =>
      obtain ⟨rfl, tail⟩ := List.cons.inj rest_eq
      have restQuiet : ∀ e ∈ rest, e.Quiet := fun e mem => quiet e (by simp [tail, mem])
      have doneEq : execAll lineOf m done = execAll lineOf (exec lineOf
          (execAll lineOf m prepare) (.store l v)) rest := by
        rw [eq, execAll_append, execAll_cons]
      have prepared : ∀ k w, Surely lineOf m k w → (∀ e ∈ prepare, e.Avoids lineOf k) →
          Surely lineOf (execAll lineOf m prepare) k w := fun k w sure avoids => sure.execAll avoids
      rw [doneEq]
      generalize execAll lineOf m prepare = m₁ at prepared ⊢
      have others : ∀ k w, k ≠ l → Surely lineOf m₁ k w →
          image lineOf (execAll lineOf (exec lineOf m₁ (.store l v)) rest) keep k = w :=
        fun k w different sure =>
          ((sure.exec (e := .store l v) (Ne.symm different)).execAll fun e mem =>
            (restQuiet e mem).avoids k).image keep
      -- the survivor of the line of `l`, before or behind the store
      have survivor := survivors_subset_of_quiet restQuiet (lineOf l)
        (Line.survivor_mem (execAll lineOf (exec lineOf m₁ (.store l v)) rest (lineOf l))
          (keep (lineOf l)))
      rw [exec_store_self, Line.survivors_store, List.mem_append, List.mem_singleton] at survivor
      rcases survivor with older | newest
      · left
        intro k w sure avoids
        have before := prepared k w sure avoids
        by_cases eq : lineOf k = lineOf l
        · unfold image
          rw [eq]
          exact before _ (eq ▸ older)
        · exact others k w (fun same => eq (congrArg lineOf same)) before
      · right
        refine ⟨?_, fun k different same => ?_, others⟩
        · unfold image
          rw [newest, Function.update_self]
        · unfold image
          rw [same, newest, Function.update_of_ne different, ← same]
          rfl

variable (lineOf) in
/-- The whole program, when it ends with a write-back of the line of `l`. -/
theorem commit_settled (prepare : List (Event Addr Val)) :
    let last := execAll lineOf m (prepare ++ [.store l v, .flushLine (lineOf l), .fence])
    Surely lineOf last l v ∧
      (∀ k, k ≠ l → lineOf k = lineOf l →
        Surely lineOf last k (current lineOf (execAll lineOf m prepare) k)) ∧
      ∀ k w, k ≠ l → Surely lineOf (execAll lineOf m prepare) k w → Surely lineOf last k w := by
  dsimp only
  rw [execAll_append, execAll_cons]
  generalize execAll lineOf m prepare = m₁
  have seen : current lineOf (exec lineOf m₁ (.store l v)) =
      Function.update (current lineOf m₁) l v := current_exec _
  have line : ∀ k, lineOf k = lineOf l → Surely lineOf
      (execAll lineOf (exec lineOf m₁ (.store l v)) [.flushLine (lineOf l), .fence]) k
      (Function.update (current lineOf m₁) l v k) := fun k same =>
    seen ▸ surely_of_flushLine_fence same
  refine ⟨?_, fun k different same => ?_, fun k w different sure => ?_⟩
  · have sure := line l rfl
    rwa [Function.update_self] at sure
  · have sure := line k same
    rwa [Function.update_of_ne different] at sure
  · refine (sure.exec (e := .store l v) (Ne.symm different)).execAll fun e mem => ?_
    rw [List.mem_cons, List.mem_singleton] at mem
    rcases mem with rfl | rfl <;> trivial

end Memory

end LineMemory
