import Mathlib.Order.Monotone.Defs
import TurboHash.Lib.LineMemory

/-!
# Several writers on one memory

The stores of all writers into a line lie one behind the other, and a crash leaves the line as it was
behind one of them. A flush covers every store made so far, whoever made it, and a fence makes durable
what the flushes of its own writer have covered.

`Follows` compares this memory with the one a writer would have alone, at the locations that nobody
else writes: what a crash leaves there it could also leave of the other. So a program that is atomic
under crashes for one writer stays so among the others, who may share its lines.
-/

namespace LineMemory

/-! ## One line -/

/-- A line, with how many of the later stores the flushes of each writer have covered. -/
structure SharedLine (ω X : Type) where
  durable : X
  later : List X
  flushed : ω → Nat
  flushed_le : ∀ o, flushed o ≤ later.length

namespace SharedLine

variable {ω X : Type} {l : SharedLine ω X} {o p : ω}

/-- The line with the flushes of one writer. -/
def view (l : SharedLine ω X) (o : ω) : Line X := ⟨l.durable, l.later, l.flushed o, l.flushed_le o⟩

/-- The line without the flushes. -/
def content (l : SharedLine ω X) : Line X := ⟨l.durable, l.later, 0, Nat.zero_le _⟩

def clean (x : X) : SharedLine ω X := ⟨x, [], fun _ => 0, fun _ => Nat.le_refl _⟩

def store (f : X → X) (l : SharedLine ω X) : SharedLine ω X where
  durable := l.durable
  later := l.later ++ [f l.content.current]
  flushed := l.flushed
  flushed_le o := by
    have := l.flushed_le o
    simp
    omega

def flush [DecidableEq ω] (o : ω) (l : SharedLine ω X) : SharedLine ω X where
  durable := l.durable
  later := l.later
  flushed := Function.update l.flushed o l.later.length
  flushed_le p := by
    rw [Function.update_apply]
    split
    case isTrue => exact Nat.le_refl _
    case isFalse => exact l.flushed_le p

def fence (o : ω) (l : SharedLine ω X) : SharedLine ω X where
  durable := l.content.survivor (l.flushed o)
  later := l.later.drop (l.flushed o)
  flushed p := l.flushed p - l.flushed o
  flushed_le p := by
    have := l.flushed_le p
    rw [List.length_drop]
    omega

@[simp] theorem content_clean (x : X) : (clean x : SharedLine ω X).content = .clean x := rfl

theorem view_store (f : X → X) : (l.store f).view o = (l.view o).store f := rfl

theorem view_flush_self [DecidableEq ω] : (l.flush o).view o = (l.view o).flush := by
  simp only [view, flush, Line.flush, Function.update_self]

theorem view_flush_of_ne [DecidableEq ω] (other : o ≠ p) : (l.flush p).view o = l.view o := by
  simp only [view, flush, Function.update_of_ne other]

theorem view_fence_self : (l.fence o).view o = (l.view o).fence := by
  simp only [view, fence, Line.fence, Nat.sub_self]
  rfl

/-- Another writer's fence drops survivors, and none that this writer's fence would keep. -/
theorem survivors_fence_view : ((l.fence p).view o).survivors = (l.view o).survivors.drop (l.flushed p) :=
  Line.survivors_fence (l := l.view p)

end SharedLine

/-! ## What one writer sees of a line -/

/-- What a crash leaves of `l'`, now and behind the next fence, it could leave of `l`. -/
structure Line.Follows {X : Type} (same : X → X → Prop) (l' l : Line X) : Prop where
  survivors : ∀ x ∈ l'.survivors, ∃ y ∈ l.survivors, same x y
  current : same l'.current l.current
  covered : ∀ x ∈ l'.survivors.drop l'.flushed, ∃ y ∈ l.survivors.drop l.flushed, same x y

namespace Line.Follows

variable {X : Type} {same : X → X → Prop} {l l' l'' : Line X}

theorem refl (equal : ∀ x, same x x) : l.Follows same l :=
  ⟨fun x mem => ⟨x, mem, equal x⟩, equal _, fun x mem => ⟨x, mem, equal x⟩⟩

theorem trans (chain : ∀ {x y z}, same x y → same y z → same x z) (first : l''.Follows same l')
    (second : l'.Follows same l) : l''.Follows same l := by
  refine ⟨fun x mem => ?_, chain first.current second.current, fun x mem => ?_⟩
  · obtain ⟨y, mem, xy⟩ := first.survivors x mem
    obtain ⟨z, mem, yz⟩ := second.survivors y mem
    exact ⟨z, mem, chain xy yz⟩
  · obtain ⟨y, mem, xy⟩ := first.covered x mem
    obtain ⟨z, mem, yz⟩ := second.covered y mem
    exact ⟨z, mem, chain xy yz⟩

/-- The survivors that a store adds. -/
theorem drop_store (l : Line X) (f : X → X) :
    (l.store f).survivors.drop l.flushed = l.survivors.drop l.flushed ++ [f l.current] := by
  rw [survivors_store, List.drop_append_of_le_length (Nat.le_succ_of_le l.flushed_le)]

theorem drop_flush (l : Line X) : l.flush.survivors.drop l.flush.flushed = [l.current] := by
  have settled := survivors_flushed_fence (l := l.flush) rfl
  rwa [survivors_fence] at settled

theorem store {f f' : X → X} (follows : l'.Follows same l)
    (both : ∀ x y, same x y → same (f' x) (f y)) : (l'.store f').Follows same (l.store f) := by
  have last := both _ _ follows.current
  refine ⟨fun x mem => ?_, by simpa using last, fun x mem => ?_⟩
  · rw [survivors_store, List.mem_append, List.mem_singleton] at mem
    rw [survivors_store]
    rcases mem with older | rfl
    · obtain ⟨y, mem, xy⟩ := follows.survivors x older
      exact ⟨y, List.mem_append_left _ mem, xy⟩
    · exact ⟨_, List.mem_append_right _ (List.mem_singleton_self _), last⟩
  · change x ∈ (l'.store f').survivors.drop l'.flushed at mem
    change ∃ y ∈ (l.store f).survivors.drop l.flushed, _
    rw [drop_store, List.mem_append, List.mem_singleton] at mem
    rw [drop_store]
    rcases mem with older | rfl
    · obtain ⟨y, mem, xy⟩ := follows.covered x older
      exact ⟨y, List.mem_append_left _ mem, xy⟩
    · exact ⟨_, List.mem_append_right _ (List.mem_singleton_self _), last⟩

theorem flush (follows : l'.Follows same l) : l'.flush.Follows same l.flush := by
  refine ⟨follows.survivors, follows.current, fun x mem => ?_⟩
  rw [drop_flush, List.mem_singleton] at mem
  rw [drop_flush]
  exact ⟨_, List.mem_singleton_self _, mem ▸ follows.current⟩

theorem fence (follows : l'.Follows same l) : l'.fence.Follows same l.fence := by
  have kept : ∀ x ∈ l'.fence.survivors, ∃ y ∈ l.fence.survivors, same x y := by
    rw [survivors_fence, survivors_fence]
    exact follows.covered
  exact ⟨kept, by simpa using follows.current, kept⟩

/-- A store that changes nothing of what counts. -/
theorem store_left {f : X → X} (chain : ∀ {x y z}, same x y → same y z → same x z)
    (follows : l'.Follows same l) (kept : same (f l'.current) l'.current) :
    (l'.store f).Follows same l := by
  have last := chain kept follows.current
  refine ⟨fun x mem => ?_, by simpa using last, fun x mem => ?_⟩
  · rw [survivors_store, List.mem_append, List.mem_singleton] at mem
    rcases mem with older | rfl
    · exact follows.survivors x older
    · exact ⟨_, l.current_mem, last⟩
  · change x ∈ (l'.store f).survivors.drop l'.flushed at mem
    rw [drop_store, List.mem_append, List.mem_singleton] at mem
    rcases mem with older | rfl
    · exact follows.covered x older
    · refine ⟨l.current, ?_, last⟩
      have settled := l.fence.current_mem
      rwa [survivors_fence, current_fence] at settled

end Line.Follows

/-- Another writer's fence leaves nothing that was not there. -/
theorem SharedLine.follows_fence {ω X : Type} {same : X → X → Prop} (equal : ∀ x, same x x)
    (l : SharedLine ω X) (o p : ω) : ((l.fence p).view o).Follows same (l.view o) := by
  refine ⟨fun x mem => ?_, ?_, fun x mem => ?_⟩
  · rw [survivors_fence_view] at mem
    exact ⟨x, List.mem_of_mem_drop mem, equal x⟩
  · have seen : ((l.fence p).view o).current = (l.view o).current := (l.view p).current_fence
    exact seen ▸ equal _
  · rw [survivors_fence_view, List.drop_drop] at mem
    -- what both fences drop is more than what the one of `o` drops
    have more : l.flushed p + ((l.fence p).view o).flushed =
        l.flushed o + (l.flushed p - l.flushed o) := by
      change l.flushed p + (l.flushed o - l.flushed p) = _
      omega
    rw [more, ← List.drop_drop] at mem
    exact ⟨x, List.mem_of_mem_drop mem, equal x⟩

/-! ## The memory -/

section Memory

variable {ω Loc Addr : Type} {Val : Loc → Type}

abbrev SharedMemory (ω Addr : Type) (Val : Loc → Type) := Addr → SharedLine ω (Content Val)

namespace SharedMemory

/-- The memory with the flushes of one writer. -/
def view (m : SharedMemory ω Addr Val) (o : ω) : Memory Addr Val := fun a => (m a).view o

/-- The memory without the flushes. -/
def content (m : SharedMemory ω Addr Val) : Memory Addr Val := fun a => (m a).content

/-- The memory a crash leaves. -/
def crashed (m : SharedMemory ω Addr Val) (keep : Addr → Nat) : SharedMemory ω Addr Val :=
  fun a => .clean ((m a).content.survivor (keep a))

end SharedMemory

section Exec

variable [DecidableEq ω] [DecidableEq Loc] [DecidableEq Addr] (lineOf : Loc → Addr)

/-- An event of writer `o`. -/
def execBy (o : ω) (m : SharedMemory ω Addr Val) : Event Addr Val → SharedMemory ω Addr Val
  | .store l v =>
    Function.update m (lineOf l) ((m (lineOf l)).store fun x => Function.update x l v)
  | .copy lines x => fun a => if lines a then (m a).store fun _ => x else m a
  | .flush lines => fun a => if lines a then (m a).flush o else m a
  | .fence => fun a => (m a).fence o

/-- A writer sees its own events as if it were alone. -/
theorem view_execBy_self (o : ω) (m : SharedMemory ω Addr Val) (e : Event Addr Val) :
    (execBy lineOf o m e).view o = exec lineOf (m.view o) e := by
  funext a
  cases e with
  | store l v =>
    by_cases same : a = lineOf l
    · subst same
      rw [exec_store_self, SharedMemory.view, execBy, Function.update_self]
      rfl
    · rw [exec_store_of_ne same, SharedMemory.view, execBy, Function.update_of_ne same]
      rfl
  | copy lines x =>
    rw [exec_copy, SharedMemory.view, execBy]
    dsimp only
    split <;> rfl
  | flush lines =>
    rw [exec_flush, SharedMemory.view, execBy]
    dsimp only
    split
    case isTrue => exact SharedLine.view_flush_self
    case isFalse => rfl
  | fence => exact SharedLine.view_fence_self

end Exec

/-! ## What one writer sees of the memory -/

section Follows

variable (lineOf : Loc → Addr) (mine : Loc → Prop)

/-- Contents of line `a` that are the same at the locations `mine`. -/
def SameAt (a : Addr) (x y : Content Val) : Prop := ∀ l, mine l → lineOf l = a → x l = y l

/-- At the locations `mine`, what a crash leaves of `m'` it could leave of `m`. -/
def Follows (m' m : Memory Addr Val) : Prop :=
  ∀ a, (m' a).Follows (SameAt lineOf mine a) (m a)

variable {lineOf mine} {m m' m'' : Memory Addr Val} {l : Loc} {v : Val l}

theorem SameAt.trans {a : Addr} {x y z : Content Val} (first : SameAt lineOf mine a x y)
    (second : SameAt lineOf mine a y z) : SameAt lineOf mine a x z :=
  fun l own line => (first l own line).trans (second l own line)

theorem Follows.refl : Follows lineOf mine m m := fun _ => .refl fun _ _ _ _ => rfl

theorem Follows.trans (first : Follows lineOf mine m'' m') (second : Follows lineOf mine m' m) :
    Follows lineOf mine m'' m := fun a => (first a).trans SameAt.trans (second a)

theorem Follows.mono {mine' : Loc → Prop} (follows : Follows lineOf mine m' m)
    (fewer : ∀ l, mine' l → mine l) : Follows lineOf mine' m' m := by
  intro a
  have weaker : ∀ {x y : Content Val}, SameAt lineOf mine a x y → SameAt lineOf mine' a x y :=
    fun same l own line => same l (fewer l own) line
  refine ⟨fun x mem => ?_, weaker (follows a).current, fun x mem => ?_⟩
  · obtain ⟨y, mem, same⟩ := (follows a).survivors x mem
    exact ⟨y, mem, weaker same⟩
  · obtain ⟨y, mem, same⟩ := (follows a).covered x mem
    exact ⟨y, mem, weaker same⟩

theorem Follows.current (follows : Follows lineOf mine m' m) (own : mine l) :
    current lineOf m' l = current lineOf m l := (follows (lineOf l)).current l own rfl

theorem Follows.surely (follows : Follows lineOf mine m' m) (own : mine l)
    (sure : Surely lineOf m l v) : Surely lineOf m' l v := by
  intro x mem
  obtain ⟨y, mem, same⟩ := (follows (lineOf l)).survivors x mem
  exact (same l own rfl).trans (sure y mem)

/-- A survivor of a line is the content behind some number of its stores. -/
theorem Line.exists_survivor {X : Type} {l : Line X} {x : X} (mem : x ∈ l.survivors) :
    ∃ k, l.survivor k = x := by
  obtain ⟨k, inside, same⟩ := List.getElem_of_mem mem
  refine ⟨k, ?_⟩
  rw [Line.survivor, List.getD_eq_getElem _ _ inside]
  exact same

theorem Follows.image (follows : Follows lineOf mine m' m) (keep : Addr → Nat) :
    ∃ keep', ∀ l, mine l → image lineOf m' keep l = image lineOf m keep' l := by
  have each : ∀ a, ∃ k, SameAt lineOf mine a ((m' a).survivor (keep a)) ((m a).survivor k) := by
    intro a
    obtain ⟨y, mem, same⟩ := (follows a).survivors _ ((m' a).survivor_mem (keep a))
    obtain ⟨k, rfl⟩ := Line.exists_survivor mem
    exact ⟨k, same⟩
  obtain ⟨keep', same⟩ := Classical.axiomOfChoice each
  exact ⟨keep', fun l own => same (lineOf l) l own rfl⟩

variable [DecidableEq Loc] [DecidableEq Addr]

/-- An event of the writer itself. -/
theorem Follows.exec (follows : Follows lineOf mine m' m) (e : Event Addr Val) :
    Follows lineOf mine (exec lineOf m' e) (LineMemory.exec lineOf m e) := by
  intro a
  cases e with
  | store k w =>
    by_cases same : a = lineOf k
    · subst same
      rw [exec_store_self, exec_store_self]
      refine (follows _).store fun x y same l own line => ?_
      by_cases eq : l = k
      · subst eq
        rw [Function.update_self, Function.update_self]
      · rw [Function.update_of_ne eq, Function.update_of_ne eq]
        exact same l own line
    · rw [exec_store_of_ne same, exec_store_of_ne same]
      exact follows a
  | copy lines x =>
    rw [exec_copy, exec_copy]
    split
    case isTrue => exact (follows a).store fun _ _ _ _ _ _ => rfl
    case isFalse => exact follows a
  | flush lines =>
    rw [exec_flush, exec_flush]
    split
    case isTrue => exact (follows a).flush
    case isFalse => exact follows a
  | fence => exact (follows a).fence

/-- An event of another writer, which stores elsewhere. -/
theorem follows_execBy [DecidableEq ω] {o p : ω} (other : o ≠ p) {m : SharedMemory ω Addr Val}
    {e : Event Addr Val} (avoids : ∀ l, mine l → e.Avoids lineOf l) :
    Follows lineOf mine ((execBy lineOf p m e).view o) (m.view o) := by
  have equal : ∀ a (x : Content Val), SameAt lineOf mine a x x := fun _ _ _ _ _ => rfl
  intro a
  cases e with
  | store k w =>
    by_cases same : a = lineOf k
    · subst same
      rw [SharedMemory.view, execBy, Function.update_self, SharedLine.view_store]
      refine Line.Follows.store_left SameAt.trans (.refl (equal _)) fun l own line => ?_
      exact Function.update_of_ne (Ne.symm (avoids l own)) ..
    · rw [SharedMemory.view, execBy, Function.update_of_ne same]
      exact .refl (equal a)
  | copy lines x =>
    rw [SharedMemory.view, execBy]
    dsimp only
    split
    case isTrue covered =>
      rw [SharedLine.view_store]
      refine Line.Follows.store_left SameAt.trans (.refl (equal a)) fun l own line => ?_
      have missed : lines (lineOf l) = false := avoids l own
      rw [line, covered] at missed
      cases missed
    case isFalse => exact .refl (equal a)
  | flush lines =>
    rw [SharedMemory.view, execBy]
    dsimp only
    split
    case isTrue =>
      rw [SharedLine.view_flush_of_ne other]
      exact .refl (equal a)
    case isFalse => exact .refl (equal a)
  | fence => exact SharedLine.follows_fence (equal a) _ _ _

end Follows

/-! ## Programs that are atomic under crashes -/

section Atomic

variable [DecidableEq Loc] [DecidableEq Addr] (lineOf : Loc → Addr) (mine : Loc → Prop)

/-- What a relation between locations and values has to say, for instance that a table lies there. -/
abbrev Assertion (Val : Loc → Type) := (∀ l, Val l → Prop) → Prop

/-- Whatever a crash leaves of the program has `before` or, when `l` holds `v`, `after`; behind its end
`after` is there for sure. -/
structure Atomic (m : Memory Addr Val) (events : List (Event Addr Val)) (l : Loc) (v : Val l)
    (before after : Assertion Val) : Prop where
  crash : ∀ done todo, done ++ todo = events → ∀ keep,
    let x := image lineOf (execAll lineOf m done) keep
    x l = v ∧ after (fun k w => mine k ∧ x k = w) ∨ x l ≠ v ∧ before fun k w => mine k ∧ x k = w
  settled : after fun k w => mine k ∧ Surely lineOf (execAll lineOf m events) k w

/-- The program has come so far that `todo` remains of it. -/
def Within (m : Memory Addr Val) (todo : List (Event Addr Val)) (l : Loc) (v : Val l)
    (before after : Assertion Val) : Prop :=
  ∃ m₀ done, Follows lineOf mine m (execAll lineOf m₀ done) ∧
    Atomic lineOf mine m₀ (done ++ todo) l v before after

variable {lineOf mine} {m m' : Memory Addr Val} {e : Event Addr Val}
  {events todo : List (Event Addr Val)} {l : Loc} {v : Val l} {before after : Assertion Val}

theorem Atomic.within (atomic : Atomic lineOf mine m events l v before after) :
    Within lineOf mine m events l v before after := ⟨m, [], .refl, atomic⟩

namespace Within

theorem step (within : Within lineOf mine m (e :: todo) l v before after) :
    Within lineOf mine (exec lineOf m e) todo l v before after := by
  obtain ⟨m₀, done, follows, atomic⟩ := within
  refine ⟨m₀, done ++ [e], ?_, ?_⟩
  · rw [execAll_append]
    exact follows.exec e
  · rwa [List.append_assoc]

theorem follow (within : Within lineOf mine m todo l v before after)
    (follows : Follows lineOf mine m' m) : Within lineOf mine m' todo l v before after := by
  obtain ⟨m₀, done, followed, atomic⟩ := within
  exact ⟨m₀, done, follows.trans followed, atomic⟩

theorem crash (within : Within lineOf mine m todo l v before after) (own : mine l)
    (monotone : Monotone before ∧ Monotone after) (keep : Addr → Nat) :
    let x := image lineOf m keep
    x l = v ∧ after (fun k w => mine k ∧ x k = w) ∨ x l ≠ v ∧ before fun k w => mine k ∧ x k = w := by
  obtain ⟨m₀, done, follows, atomic⟩ := within
  obtain ⟨keep', same⟩ := follows.image keep
  have kept : (fun k w => mine k ∧ image lineOf (execAll lineOf m₀ done) keep' k = w) ≤
      fun k w => mine k ∧ image lineOf m keep k = w :=
    fun k w held => ⟨held.1, (same k held.1).trans held.2⟩
  dsimp only
  rw [same l own]
  rcases atomic.crash done todo rfl keep' with ⟨published, held⟩ | ⟨unpublished, held⟩
  · exact Or.inl ⟨published, monotone.2 kept held⟩
  · exact Or.inr ⟨unpublished, monotone.1 kept held⟩

theorem settled (within : Within lineOf mine m [] l v before after) (monotone : Monotone after) :
    after fun k w => mine k ∧ Surely lineOf m k w := by
  obtain ⟨m₀, done, follows, atomic⟩ := within
  rw [List.append_nil] at atomic
  exact monotone (fun k w held => ⟨held.1, follows.surely held.1 held.2⟩) atomic.settled

end Within

/-- A program that prepares and publishes with one store is atomic. -/
theorem Atomic.commit {prepare : List (Event Addr Val)}
    (stale : ∃ w, (Surely lineOf m l w ∧ ∀ e ∈ prepare, e.Avoids lineOf l) ∧ w ≠ v)
    (old : before fun k w => mine k ∧ Surely lineOf m k w ∧ ∀ e ∈ prepare, e.Avoids lineOf k)
    (monotone : Monotone before)
    (new : ∀ R : ∀ k, Val k → Prop, R l v →
      (∀ k, k ≠ l → lineOf k = lineOf l → R k (current lineOf (execAll lineOf m prepare) k)) →
      (∀ k w, k ≠ l → Surely lineOf (execAll lineOf m prepare) k w → R k w) →
        after fun k w => mine k ∧ R k w) :
    Atomic lineOf mine m (prepare ++ [.store l v, .flushLine (lineOf l), .fence]) l v before
      after := by
  constructor
  · intro done todo split keep
    have quiet : ∀ e ∈ ([.flushLine (lineOf l), .fence] : List (Event Addr Val)), e.Quiet := by
      intro e mem
      rw [List.mem_cons, List.mem_singleton] at mem
      rcases mem with rfl | rfl <;> trivial
    rcases commit_atomic lineOf (m := m) quiet split keep with
      unpublished | ⟨published, line, sure⟩
    · obtain ⟨w, ⟨was, avoids⟩, different⟩ := stale
      refine Or.inr ⟨fun same => different ?_, monotone (fun k w held => ?_) old⟩
      · exact (unpublished _ _ was avoids).symm.trans same
      · exact ⟨held.1, unpublished k w held.2.1 held.2.2⟩
    · exact Or.inl ⟨published, new (fun k w => image lineOf (execAll lineOf m done) keep k = w)
        published line sure⟩
  · obtain ⟨published, line, sure⟩ := commit_settled lineOf prepare (m := m) (l := l) (v := v)
    exact new _ published line sure

end Atomic

end Memory

end LineMemory
