import Mathlib.Data.Fintype.Basic
import TurboHash.BucketWord
import TurboHash.Lib.Transition

/-!
# The bit locks of a bucket word

Any number of threads take and release the lock bits of one bucket word and reset its
address and size; each load, store and atomic operation on the word is a step. Two
headers take a lock in different ways: `turbo_hash.h` by a load and a compare-and-swap,
`turbo_hash_pmem.h` by an atomic test-and-set of the bit. Both release it by a load and
a store. `Access` says once what a step can do; the invariants of the locks follow from
it.
-/

namespace TurboHash

open Transition BucketMeta

/-- How `turbo_bit_spin_lock` and `turbo_bit_spin_try_lock` take a bit. -/
inductive SpinLock
  /-- `turbo_hash.h`: load, then compare-and-swap -/
  | compareAndSwap
  /-- `turbo_hash_pmem.h`: `BitTestAndSet` -/
  | testAndSet

/-- The lock bits that the threads use, with their positions. -/
structure LockBits (β : Type) where
  pos : β → Nat
  /-- the bit of `Lock` and `Unlock` -/
  bucket : β
  pos_lt : ∀ b, pos b < 8
  pos_injective : Function.Injective pos

/-- A call that a thread makes. -/
inductive LockCall (β : Type)
  | lock (b : β)
  | tryLock (b : β)
  | unlock (b : β)
  | reset (args : ResetArgs)

/-- The access to the word that a thread makes next, with what it has loaded; a lock spins,
a try lock does not. -/
inductive LockPc (β : Type)
  | idle
  | load (b : β) (spins : Bool)
  | cas (b : β) (spins : Bool) (old : BitVec 32)
  | bts (b : β) (spins : Bool)
  | busy (b : β)
  | unlockLoad (b : β)
  | unlockStore (b : β) (v : BitVec 32)
  | resetLoad (args : ResetArgs)
  | resetStore (args : ResetArgs) (data : BitVec 64)

/-- A thread, with the locks that it holds. -/
structure LockThread (β : Type) where
  pc : LockPc β
  holds : β → Bool

/-- The bucket word and the threads. -/
structure BucketLock (τ β : Type) where
  word : BitVec 64
  threads : τ → LockThread β

/-- One step: a thread makes a call, or its next access to the word. -/
inductive LockAction (τ β : Type)
  | call (t : τ) (c : LockCall β)
  | access (t : τ)

/-- The thread that takes the step. -/
def LockAction.thread {τ β : Type} : LockAction τ β → τ
  | .call t _ | .access t => t

namespace LockBits

variable {β : Type} (B : LockBits β)

/-- `1 << bit_pos`. -/
def mask (b : β) : BitVec 32 := BitVec.twoPow 32 (B.pos b)

variable {B} {b b' : β}

theorem getLsbD_mask : (B.mask b).getLsbD (B.pos b') = true ↔ b = b' := by
  have low : B.pos b < 32 := (B.pos_lt b).trans (by decide)
  rw [mask, BitVec.getLsbD_twoPow]
  simp only [low, decide_true, Bool.true_and, decide_eq_true_eq]
  exact B.pos_injective.eq_iff

/-- The masks of the locks leave what is above the flags. -/
theorem getLsbD_mask_of_ge {i : Nat} (above : 8 ≤ i) : (B.mask b).getLsbD i = false := by
  have flag := B.pos_lt b
  have other : B.pos b ≠ i := by omega
  simp [mask, BitVec.getLsbD_twoPow, other]

end LockBits

section Model

variable {τ β : Type} [DecidableEq β] (A : SpinLock) (B : LockBits β)

/-- The first access of `turbo_bit_spin_lock` or `turbo_bit_spin_try_lock`. -/
def SpinLock.first (b : β) (spins : Bool) : LockPc β :=
  match A with
  | .compareAndSwap => .load b spins
  | .testAndSet => .bts b spins

/-- A thread unlocks what it holds, and resets the bucket while it holds the bucket lock. -/
def LockThread.call (th : LockThread β) (c : LockCall β) : Option (LockThread β) :=
  match th.pc, c with
  | .idle, .lock b => some { th with pc := A.first b true }
  | .idle, .tryLock b => some { th with pc := A.first b false }
  | .idle, .unlock b => if th.holds b then some { th with pc := .unlockLoad b } else none
  | .idle, .reset args =>
    if th.holds B.bucket then some { th with pc := .resetLoad args } else none
  | _, _ => none

/-- The next access of a thread to the word. -/
def LockThread.access (word : BitVec 64) (th : LockThread β) :
    Option (BitVec 64 × LockThread β) :=
  match th.pc with
  | .idle => none
  | .load b spins =>
    let old := load32 word
    if old.getLsbD (B.pos b) then
      some (word, { th with pc := if spins then .load b true else .idle })
    else some (word, { th with pc := .cas b spins old })
  | .cas b spins old =>
    if load32 word = old then
      some (store32 word (old ||| B.mask b), ⟨.idle, Function.update th.holds b true⟩)
    else some (word, { th with pc := if spins then .load b true else .idle })
  | .bts b spins =>
    if (load32 word).getLsbD (B.pos b) then
      some (word, { th with pc := if spins then .busy b else .idle })
    else some (store32 word (load32 word ||| B.mask b), ⟨.idle, Function.update th.holds b true⟩)
  | .busy b =>
    if (load32 word).getLsbD (B.pos b) then some (word, th)
    else some (word, { th with pc := .bts b true })
  | .unlockLoad b => some (word, { th with pc := .unlockStore b (load32 word) })
  | .unlockStore b v =>
    some (store32 word (v &&& ~~~B.mask b), ⟨.idle, Function.update th.holds b false⟩)
  | .resetLoad args => some (word, { th with pc := .resetStore args word })
  | .resetStore args data => some (reset data args, { th with pc := .idle })

variable [DecidableEq τ]

namespace BucketLock

/-- What an action does. -/
def next (s : BucketLock τ β) : LockAction τ β → Option (BucketLock τ β)
  | .call t c =>
    ((s.threads t).call A B c).map fun th => ⟨s.word, Function.update s.threads t th⟩
  | .access t =>
    ((s.threads t).access B s.word).map fun p => ⟨p.1, Function.update s.threads t p.2⟩

/-- Nobody holds a lock or is in a call. -/
def start (word : BitVec 64) : BucketLock τ β := ⟨word, fun _ => ⟨.idle, fun _ => false⟩⟩

end BucketLock

end Model

/-! ## What a step does -/

section Steps

variable {τ β : Type} [DecidableEq β] {A : SpinLock} {B : LockBits β}

/-- What a thread relies on about its own locks. -/
def LockThread.Ok (B : LockBits β) (th : LockThread β) : Prop :=
  match th.pc with
  | .cas b _ old => old.getLsbD (B.pos b) = false
  | .unlockLoad b | .unlockStore b _ => th.holds b = true
  | .resetLoad _ | .resetStore _ _ => th.holds B.bucket = true
  | _ => True

/-- What the thread has loaded in an unlock or a reset is still in the word. -/
def LockThread.Fresh (word : BitVec 64) (th : LockThread β) : Prop :=
  match th.pc with
  | .unlockStore _ v => v = load32 word
  | .resetStore _ data => data = word
  | _ => True

/-- The lock bits that a store keeps are in the word as they have been loaded. -/
def LockPc.FindsOthers (B : LockBits β) (word : BitVec 64) : LockPc β → Prop
  | .unlockStore b v => ∀ b', b' ≠ b → v.getLsbD (B.pos b') = word.getLsbD (B.pos b')
  | .resetStore _ data => ∀ b, data.getLsbD (B.pos b) = word.getLsbD (B.pos b)
  | _ => True

instance [Fintype β] (word : BitVec 64) : DecidablePred (LockPc.FindsOthers B word)
  | .unlockStore b v =>
    inferInstanceAs (Decidable (∀ b', b' ≠ b → v.getLsbD (B.pos b') = word.getLsbD (B.pos b')))
  | .resetStore _ data =>
    inferInstanceAs (Decidable (∀ b, data.getLsbD (B.pos b) = word.getLsbD (B.pos b)))
  | .idle | .load _ _ | .cas _ _ _ | .bts _ _ | .busy _ | .unlockLoad _ | .resetLoad _ =>
    inferInstanceAs (Decidable True)

/-- The arguments of the reset that the thread completes with its next access. -/
def LockThread.completes (th : LockThread β) : Option ResetArgs :=
  match th.pc with
  | .resetStore args _ => some args
  | _ => none

/-- What a step of a thread does to the word and the thread. -/
inductive Access (B : LockBits β) (word : BitVec 64) (th : LockThread β) :
    BitVec 64 → LockThread β → Prop
  /-- a load, or a compare-and-swap or test-and-set that fails -/
  | quiet {th' : LockThread β} (same : th'.holds = th.holds) (ok : th'.Ok B)
      (fresh : th'.Fresh word) (none : th.completes = none) : Access B word th word th'
  | acquire {b : β} (free : word.getLsbD (B.pos b) = false) (none : th.completes = none) :
      Access B word th (store32 word (load32 word ||| B.mask b))
        ⟨.idle, Function.update th.holds b true⟩
  | release {b : β} {v : BitVec 32} (pc : th.pc = .unlockStore b v) :
      Access B word th (store32 word (v &&& ~~~B.mask b))
        ⟨.idle, Function.update th.holds b false⟩
  | resets {args : ResetArgs} {data : BitVec 64} (pc : th.pc = .resetStore args data) :
      Access B word th (reset data args) ⟨.idle, th.holds⟩

theorem access_of_call {th th' : LockThread β} {c : LockCall β} (word : BitVec 64)
    (called : th.call A B c = some th') : Access B word th word th' := by
  rcases th with ⟨pc, holds⟩
  cases pc with
  | idle =>
    cases c with
    | lock b =>
      cases called
      cases A <;> exact .quiet rfl trivial trivial rfl
    | tryLock b =>
      cases called
      cases A <;> exact .quiet rfl trivial trivial rfl
    | unlock b =>
      simp only [LockThread.call] at called
      split at called
      case isTrue held =>
        cases called
        exact .quiet rfl held trivial rfl
      case isFalse => cases called
    | reset args =>
      simp only [LockThread.call] at called
      split at called
      case isTrue held =>
        cases called
        exact .quiet rfl held trivial rfl
      case isFalse => cases called
  | _ => cases called

theorem access_of_access {th th' : LockThread β} {word word' : BitVec 64} (ok : th.Ok B)
    (accessed : th.access B word = some (word', th')) : Access B word th word' th' := by
  have bit : ∀ b, (load32 word).getLsbD (B.pos b) = word.getLsbD (B.pos b) := fun b => by
    have low : B.pos b < 32 := (B.pos_lt b).trans (by decide)
    rw [getLsbD_load32, decide_eq_true low, Bool.true_and]
  rcases th with ⟨pc, holds⟩
  cases pc with
  | idle => cases accessed
  | load b spins =>
    simp only [LockThread.access] at accessed
    split at accessed
    case isTrue =>
      cases accessed
      cases spins <;> exact .quiet rfl trivial trivial rfl
    case isFalse free =>
      cases accessed
      rw [Bool.not_eq_true] at free
      exact .quiet rfl free trivial rfl
  | cas b spins old =>
    simp only [LockThread.access] at accessed
    split at accessed
    case isTrue same =>
      cases accessed
      subst same
      exact .acquire ((bit b).symm.trans ok) rfl
    case isFalse =>
      cases accessed
      cases spins <;> exact .quiet rfl trivial trivial rfl
  | bts b spins =>
    simp only [LockThread.access] at accessed
    split at accessed
    case isTrue =>
      cases accessed
      cases spins <;> exact .quiet rfl trivial trivial rfl
    case isFalse free =>
      cases accessed
      rw [Bool.not_eq_true] at free
      exact .acquire ((bit b).symm.trans free) rfl
  | busy b =>
    simp only [LockThread.access] at accessed
    split at accessed
    all_goals
      cases accessed
      exact .quiet rfl trivial trivial rfl
  | unlockLoad b =>
    cases accessed
    exact .quiet rfl ok rfl rfl
  | unlockStore b v =>
    cases accessed
    exact .release rfl
  | resetLoad args =>
    cases accessed
    exact .quiet rfl ok rfl rfl
  | resetStore args data =>
    cases accessed
    exact .resets rfl

end Steps

/-! ## The locks over a run -/

namespace BucketLock

section Invariant

variable {τ β : Type} [DecidableEq τ] [DecidableEq β] {A : SpinLock} {B : LockBits β}
  {s s' : BucketLock τ β} {a : LockAction τ β} {t u : τ} {b : β}

/-- A lock bit is set exactly while some thread holds it, and at most one does. -/
structure Exclusive (B : LockBits β) (s : BucketLock τ β) : Prop where
  set_iff : ∀ b, s.word.getLsbD (B.pos b) = true ↔ ∃ t, (s.threads t).holds b = true
  unique : ∀ b t u, (s.threads t).holds b = true → (s.threads u).holds b = true → t = u

/-- The invariant of the locks. -/
structure Sound (B : LockBits β) (s : BucketLock τ β) : Prop extends Exclusive B s where
  threads : ∀ t, (s.threads t).Ok B

/-- The store of an unlock finds the other lock bits as the unlock has loaded them, and the store
of a reset all of them. -/
def OthersUnchanged (B : LockBits β) (s : BucketLock τ β) (a : LockAction τ β) : Prop :=
  (s.threads a.thread).pc.FindsOthers B s.word

instance [Fintype β] (s : BucketLock τ β) (a : LockAction τ β) :
    Decidable (OthersUnchanged B s a) :=
  inferInstanceAs (Decidable ((s.threads a.thread).pc.FindsOthers B s.word))

/-- A step is an access of its thread, or a call, which leaves the word. -/
theorem access_of_next (sound : Sound B s) (taken : s.next A B a = some s') :
    ∃ word th, s' = ⟨word, Function.update s.threads a.thread th⟩ ∧
      Access B s.word (s.threads a.thread) word th := by
  cases a with
  | call t c =>
    obtain ⟨th, called, rfl⟩ := Option.map_eq_some_iff.mp taken
    exact ⟨_, th, rfl, access_of_call s.word called⟩
  | access t =>
    obtain ⟨⟨word, th⟩, accessed, rfl⟩ := Option.map_eq_some_iff.mp taken
    exact ⟨word, th, rfl, access_of_access (sound.threads t) accessed⟩

omit [DecidableEq β] in
/-- Who holds what behind a step that leaves the locks of its thread. -/
theorem holds_update {th : LockThread β} (same : th.holds = (s.threads t).holds) (u : τ) :
    (Function.update s.threads t th u).holds = (s.threads u).holds := by
  by_cases eq : u = t
  · subst eq
    rw [Function.update_self, same]
  · rw [Function.update_of_ne eq]

/-- Who holds what behind a step that takes or releases one lock. -/
theorem holds_update_one (value : Bool) (b' : β) (u : τ) :
    (Function.update s.threads t
      ⟨.idle, Function.update (s.threads t).holds b value⟩ u).holds b' =
      if u = t ∧ b' = b then value else (s.threads u).holds b' := by
  by_cases eq : u = t
  · subst eq
    by_cases one : b' = b
    · simp [one]
    · simp [one, Function.update_of_ne]
  · simp [eq, Function.update_of_ne]

theorem getLsbD_acquire (word : BitVec 64) (b b' : β) :
    (store32 word (load32 word ||| B.mask b)).getLsbD (B.pos b') =
      (word.getLsbD (B.pos b') || decide (b = b')) := by
  have low : B.pos b' < 32 := (B.pos_lt b').trans (by decide)
  rw [Bool.eq_iff_iff, getLsbD_store32, if_pos low, BitVec.getLsbD_or, Bool.or_eq_true,
    LockBits.getLsbD_mask, getLsbD_load32, decide_eq_true low, Bool.true_and, Bool.or_eq_true,
    decide_eq_true_eq]

theorem getLsbD_release (word : BitVec 64) (v : BitVec 32) (b b' : β) :
    (store32 word (v &&& ~~~B.mask b)).getLsbD (B.pos b') =
      (v.getLsbD (B.pos b') && decide (b ≠ b')) := by
  have low : B.pos b' < 32 := (B.pos_lt b').trans (by decide)
  rw [getLsbD_store32, if_pos low, BitVec.getLsbD_and, BitVec.getLsbD_not, decide_eq_true low,
    Bool.true_and]
  congr 1
  rw [Bool.eq_iff_iff, Bool.not_eq_true', ← Bool.not_eq_true, LockBits.getLsbD_mask,
    decide_eq_true_eq]

omit [DecidableEq β] in
/-- The threads but one keep what they rely on. -/
theorem threads_update {th : LockThread β} (sound : Sound B s) (ok : th.Ok B) (u : τ) :
    (Function.update s.threads t th u).Ok B := by
  by_cases eq : u = t
  · subst eq
    rwa [Function.update_self]
  · rw [Function.update_of_ne eq]
    exact sound.threads u

theorem Sound.step (sound : Sound B s) (unchanged : OthersUnchanged B s a)
    (taken : s.next A B a = some s') : Sound B s' := by
  obtain ⟨word, th, rfl, access⟩ := access_of_next sound taken
  cases access with
  | quiet same ok fresh none =>
    refine ⟨⟨fun b => ?_, fun b t u one other => ?_⟩, threads_update sound ok⟩
    · simp only [holds_update same]
      exact sound.set_iff b
    · rw [holds_update same] at one other
      exact sound.unique b t u one other
  | @acquire b free none =>
    have nobody : ∀ u, (s.threads u).holds b = false := fun u => by
      rw [← Bool.not_eq_true]
      intro held
      rw [(sound.set_iff b).mpr ⟨u, held⟩] at free
      cases free
    refine ⟨⟨fun b' => ?_, fun b' t u one other => ?_⟩, threads_update sound trivial⟩
    · simp only [getLsbD_acquire, holds_update_one, Bool.or_eq_true, decide_eq_true_eq]
      by_cases taken : b = b'
      · subst taken
        exact ⟨fun _ => ⟨a.thread, by simp⟩, fun _ => Or.inr rfl⟩
      · simp only [taken, Ne.symm taken, and_false, if_false, or_false]
        exact sound.set_iff b'
    · rw [holds_update_one] at one other
      by_cases taken : b' = b
      · subst taken
        simp only [and_true, nobody, Bool.if_false_right, Bool.and_true,
          decide_eq_true_eq] at one other
        exact one.trans other.symm
      · simp only [taken, and_false, if_false] at one other
        exact sound.unique b' t u one other
  | @release b v pc =>
    have held : (s.threads a.thread).holds b = true := by
      have ok := sound.threads a.thread
      rwa [LockThread.Ok, pc] at ok
    rw [OthersUnchanged, pc, LockPc.FindsOthers] at unchanged
    refine ⟨⟨fun b' => ?_, fun b' t u one other => ?_⟩, threads_update sound trivial⟩
    · simp only [getLsbD_release, holds_update_one, Bool.and_eq_true, decide_eq_true_eq]
      by_cases released : b' = b
      · subst released
        simp only [ne_eq, not_true_eq_false, and_false, and_true, false_iff, not_exists]
        intro u
        split
        · exact Bool.false_ne_true
        case isFalse other => exact fun also => other (sound.unique b' u _ also held)
      · simp only [released, Ne.symm released, ne_eq, not_false_eq_true, and_true, and_false,
          if_false, unchanged b' released]
        exact sound.set_iff b'
    · rw [holds_update_one] at one other
      split at one
      · cases one
      · split at other
        · cases other
        · exact sound.unique b' t u one other
  | @resets args data pc =>
    rw [OthersUnchanged, pc, LockPc.FindsOthers] at unchanged
    have keep : ∀ u, (Function.update s.threads a.thread
        ⟨.idle, (s.threads a.thread).holds⟩ u).holds = (s.threads u).holds := holds_update rfl
    refine ⟨⟨fun b => ?_, fun b t u one other => ?_⟩, threads_update sound trivial⟩
    · simp only [keep, getLsbD_reset (B.pos_lt b), unchanged b]
      exact sound.set_iff b
    · simp only [keep] at one other
      exact sound.unique b t u one other

omit [DecidableEq τ] [DecidableEq β] in
theorem sound_start {word : BitVec 64} (clear : ∀ b, word.getLsbD (B.pos b) = false) :
    Sound B (start word : BucketLock τ β) where
  set_iff b := by simp [start, clear b]
  unique b t u held := by simp [start] at held
  threads t := trivial

/-- The step leaves the lock bits that its thread does not take or release. -/
def KeepsOtherBits (A : SpinLock) (B : LockBits β) (s : BucketLock τ β) (a : LockAction τ β) :
    Prop :=
  ∀ s', s.next A B a = some s' → ∀ b, (∀ t, (s'.threads t).holds b = (s.threads t).holds b) →
    s'.word.getLsbD (B.pos b) = s.word.getLsbD (B.pos b)

theorem Sound.keepsOtherBits (sound : Sound B s) (unchanged : OthersUnchanged B s a) :
    KeepsOtherBits A B s a := by
  intro s' taken b same
  have sound' := sound.step unchanged taken
  rw [Bool.eq_iff_iff, sound.set_iff, sound'.set_iff]
  simp only [same]

/-- In a run in which no unlock or reset stores over a lock bit that has changed since it has
loaded the word, each lock bit is set exactly while some thread holds it, at most one holds
it, and no step changes a bit that it does not take or release. -/
theorem locks_independent {word : BitVec 64} {steps : List (BucketLock τ β × LockAction τ β)}
    (clear : ∀ b, word.getLsbD (B.pos b) = false)
    (run : Run (next A B) (start word) steps s)
    (unchanged : ∀ p ∈ steps, OthersUnchanged B p.1 p.2) :
    (∀ q ∈ visited steps s, Exclusive B q) ∧ ∀ p ∈ steps, KeepsOtherBits A B p.1 p.2 := by
  have all : ∀ q ∈ visited steps s, Sound B q :=
    run.forall_visited (fun _ _ _ sound unchanged taken => sound.step unchanged taken) unchanged
      (sound_start clear)
  refine ⟨fun q mem => (all q mem).toExclusive, fun p mem => ?_⟩
  exact (all p.1 (by simp [visited]; exact Or.inl ⟨p.2, mem⟩)).keepsOtherBits (unchanged p mem)

end Invariant

/-! ## Two lock bits -/

/-- The lock bits of a bucket. -/
inductive LockBit
  | bucket
  | rehash
deriving DecidableEq

instance : Fintype LockBit where
  elems := {.bucket, .rehash}
  complete b := by cases b <;> decide

/-- Bit 0 is the bucket lock, bit 1 the rehash lock. -/
def bothBits : LockBits LockBit where
  pos b := if b = .bucket then 0 else 1
  bucket := .bucket
  pos_lt b := by cases b <;> decide
  pos_injective b b' := by cases b <;> cases b' <;> simp

/-- A call that accesses the word `count` times. -/
def callOf (t : Bool) (c : LockCall LockBit) (count : Nat) : List (LockAction Bool LockBit) :=
  .call t c :: List.replicate count (.access t)

/-- The accesses of a lock that finds its bit clear. -/
def accesses : SpinLock → Nat
  | .compareAndSwap => 2
  | .testAndSet => 1

/-- A thread rehashes, and another one releases the bucket lock before it. -/
def oneAfterOther (A : SpinLock) : List (LockAction Bool LockBit) :=
  callOf false (.lock .bucket) (accesses A) ++ callOf true (.tryLock .rehash) (accesses A) ++
    callOf false (.unlock .bucket) 2 ++ callOf true (.lock .bucket) (accesses A) ++
    callOf true (.unlock .bucket) 2 ++ callOf true (.unlock .rehash) 2

theorem locks_independent_oneAfterOther : ∃ steps s,
    Run (next .compareAndSwap bothBits) (start 0 : BucketLock Bool LockBit) steps s ∧
      ∀ q ∈ visited steps s, Exclusive bothBits q := by
  have ran : (execute (guarded (next .compareAndSwap bothBits) (OthersUnchanged bothBits))
      (start 0 : BucketLock Bool LockBit) (oneAfterOther .compareAndSwap)).isSome = true := by
    decide +kernel
  obtain ⟨s, executed⟩ := Option.isSome_iff_exists.mp ran
  obtain ⟨steps, run, unchanged⟩ := exists_run_of_guarded executed
  exact ⟨steps, s, run, (locks_independent (by decide) run unchanged).1⟩

/-- A thread takes the rehash lock between the load and the store of an unlock. -/
def lostLock (A : SpinLock) : List (LockAction Bool LockBit) :=
  callOf false (.lock .bucket) (accesses A) ++ callOf false (.unlock .bucket) 1 ++
    callOf true (.tryLock .rehash) (accesses A) ++ [.access false]

theorem exists_not_exclusive (A : SpinLock) : ∃ steps s,
    Run (next A bothBits) (start 0 : BucketLock Bool LockBit) steps s ∧
      ¬ Exclusive bothBits s := by
  have ran : (execute (next A bothBits) (start 0 : BucketLock Bool LockBit) (lostLock A)).map
      (fun s => (s.word.getLsbD 1, (s.threads true).holds .rehash)) = some (false, true) := by
    cases A <;> decide +kernel
  obtain ⟨s, executed, lost⟩ := Option.map_eq_some_iff.mp ran
  obtain ⟨steps, run, -⟩ := exists_run_of_execute executed
  obtain ⟨clear, held⟩ := Prod.mk.inj lost
  refine ⟨steps, s, run, fun exclusive => ?_⟩
  have set : s.word.getLsbD 1 = true := (exclusive.set_iff .rehash).mpr ⟨true, held⟩
  rw [clear] at set
  cases set

/-- The unlock clears the rehash lock that the other thread holds, in both headers. -/
theorem unlock_clears_other_lock :
    (∃ steps s, Run (next .compareAndSwap bothBits) (start 0 : BucketLock Bool LockBit) steps s ∧
      ¬ Exclusive bothBits s) ∧
    ∃ steps s, Run (next .testAndSet bothBits) (start 0 : BucketLock Bool LockBit) steps s ∧
      ¬ Exclusive bothBits s :=
  ⟨exists_not_exclusive .compareAndSwap, exists_not_exclusive .testAndSet⟩

/-! ## The bucket lock alone -/

section BucketBit

variable {τ β : Type} [DecidableEq τ] [DecidableEq β] {A : SpinLock} {B : LockBits β}
  {s s' : BucketLock τ β} {a : LockAction τ β}

/-- Where the threads use one bit only, nothing changes the word while a thread holds it. -/
structure Alone (B : LockBits β) (s : BucketLock τ β) : Prop extends Sound B s where
  fresh : ∀ t, (s.threads t).Fresh s.word

/-- The arguments of the reset that the step completes; a thread that makes a call is idle. -/
def completedReset (s : BucketLock τ β) (a : LockAction τ β) : Option ResetArgs :=
  (s.threads a.thread).completes

/-- The last reset that the steps complete, or an earlier one. -/
def lastReset (earlier : ResetArgs) (steps : List (BucketLock τ β × LockAction τ β)) :
    ResetArgs :=
  steps.foldl (fun last p => (completedReset p.1 p.2).getD last) earlier

omit [DecidableEq τ] [DecidableEq β] in
theorem lastReset_snoc (earlier : ResetArgs) (steps : List (BucketLock τ β × LockAction τ β))
    (s : BucketLock τ β) (a : LockAction τ β) :
    lastReset earlier (steps ++ [(s, a)]) =
      (completedReset s a).getD (lastReset earlier steps) := by
  simp [lastReset]

omit [DecidableEq τ] [DecidableEq β] in
theorem Alone.othersUnchanged (alone : Alone B s) : OthersUnchanged B s a := by
  have fresh := alone.fresh a.thread
  unfold LockThread.Fresh at fresh
  unfold OthersUnchanged LockPc.FindsOthers
  split
  case h_1 b v pc =>
    rw [pc] at fresh
    intro b' _
    have low : B.pos b' < 32 := (B.pos_lt b').trans (by decide)
    rw [fresh, getLsbD_load32, decide_eq_true low, Bool.true_and]
  case h_2 args data pc =>
    rw [pc] at fresh
    exact fun b => by rw [fresh]
  case h_3 => trivial

omit [DecidableEq τ] [DecidableEq β] in
/-- A thread that is to store in an unlock or a reset holds the lock. -/
theorem fresh_of_not_holds [Subsingleton β] (sound : Sound B s) {u : τ}
    (free : (s.threads u).holds B.bucket = false) (word : BitVec 64) :
    (s.threads u).Fresh word := by
  have ok := sound.threads u
  unfold LockThread.Ok at ok
  unfold LockThread.Fresh
  split
  case h_1 b v pc =>
    have held : (s.threads u).holds b = true := by rwa [pc] at ok
    rw [Subsingleton.elim b B.bucket, free] at held
    cases held
  case h_2 args data pc =>
    have held : (s.threads u).holds B.bucket = true := by rwa [pc] at ok
    rw [free] at held
    cases held
  case h_3 => trivial

theorem Alone.step [Subsingleton β] (alone : Alone B s) (taken : s.next A B a = some s') :
    Alone B s' := by
  refine ⟨alone.toSound.step alone.othersUnchanged taken, fun u => ?_⟩
  obtain ⟨word, th, rfl, access⟩ := access_of_next alone.toSound taken
  have changed : th.Fresh word → (word ≠ s.word → ∀ u, u ≠ a.thread →
      (s.threads u).holds B.bucket = false) →
      (Function.update s.threads a.thread th u).Fresh word := by
    intro own others
    by_cases eq : u = a.thread
    · subst eq
      rwa [Function.update_self]
    · rw [Function.update_of_ne eq]
      by_cases same : word = s.word
      · rw [same]
        exact alone.fresh u
      · exact fresh_of_not_holds alone.toSound (others same u eq) word
  have owner : (s.threads a.thread).holds B.bucket = true → ∀ u, u ≠ a.thread →
      (s.threads u).holds B.bucket = false := by
    intro held u other
    rw [← Bool.not_eq_true]
    exact fun also => other (alone.unique B.bucket u _ also held)
  have ok := alone.threads a.thread
  cases access with
  | quiet same ok fresh none => exact changed fresh fun moved => absurd rfl moved
  | @acquire b free none =>
    refine changed trivial fun _ u _ => ?_
    rw [← Bool.not_eq_true]
    intro held
    rw [(alone.set_iff b).mpr ⟨u, Subsingleton.elim B.bucket b ▸ held⟩] at free
    cases free
  | @release b v pc =>
    rw [LockThread.Ok, pc, Subsingleton.elim b B.bucket] at ok
    exact changed trivial fun _ => owner ok
  | @resets args data pc =>
    rw [LockThread.Ok, pc] at ok
    exact changed trivial fun _ => owner ok

/-- A step leaves what is above the flags, unless it completes a reset. -/
theorem Alone.shift (alone : Alone B s) (taken : s.next A B a = some s') :
    s'.word >>> 8 = ((completedReset s a).map fun args => reset 0 args >>> 8).getD
      (s.word >>> 8) := by
  have fresh := alone.fresh a.thread
  obtain ⟨word, th, rfl, access⟩ := access_of_next alone.toSound taken
  have flags : ∀ v : BitVec 32, (∀ i, 8 ≤ i → i < 32 → v.getLsbD i = (load32 s.word).getLsbD i) →
      store32 s.word v >>> 8 = s.word >>> 8 := by
    refine fun v same => store32_shift fun i above low => ?_
    rw [same i above low, getLsbD_load32, decide_eq_true low, Bool.true_and]
  cases access with
  | quiet same ok fresh none =>
    rw [completedReset, none]
    rfl
  | @acquire b free none =>
    rw [completedReset, none]
    refine flags _ fun i above _ => ?_
    rw [BitVec.getLsbD_or, LockBits.getLsbD_mask_of_ge above, Bool.or_false]
  | @release b v pc =>
    have loaded : v = load32 s.word := by rwa [LockThread.Fresh, pc] at fresh
    rw [completedReset, LockThread.completes, pc]
    refine flags _ fun i above low => ?_
    rw [BitVec.getLsbD_and, BitVec.getLsbD_not, LockBits.getLsbD_mask_of_ge above, loaded]
    simp [low]
  | @resets args data pc =>
    rw [completedReset, LockThread.completes, pc]
    exact reset_shift data 0 args

/-- The bucket lock excludes, and preserves the packed word: at most one thread holds it, and the
address and the size are those of the last completed reset. -/
theorem lock_preserves_word [Subsingleton β] {word : BitVec 64} {first : ResetArgs}
    {steps : List (BucketLock τ β × LockAction τ β)}
    (clear : ∀ b, word.getLsbD (B.pos b) = false)
    (run : Run (next A B) (start (reset word first)) steps s) :
    (∀ b t u, (s.threads t).holds b = true → (s.threads u).holds b = true → t = u) ∧
      address s.word = (lastReset first steps).addr ∧
      cellCount s.word = (lastReset first steps).cellCount := by
  have started : Alone B (start (reset word first) : BucketLock τ β) :=
    ⟨sound_start fun b => (getLsbD_reset (B.pos_lt b)).trans (clear b), fun _ => trivial⟩
  have ⟨alone, shift⟩ : Alone B s ∧
      s.word >>> 8 = reset 0 (lastReset first steps) >>> 8 := by
    refine run.history (G := fun _ _ => True)
      (I := fun steps s => Alone B s ∧ s.word >>> 8 = reset 0 (lastReset first steps) >>> 8)
      (fun steps s a s' before _ taken => ?_) (fun _ _ => trivial)
      ⟨started, reset_shift word 0 first⟩
    refine ⟨before.1.step taken, ?_⟩
    rw [before.1.shift taken, lastReset_snoc, before.2]
    cases completedReset s a <;> rfl
  refine ⟨alone.unique, ?_, ?_⟩
  · rw [address_congr shift, address_reset]
  · rw [cellCount_congr shift, cellCount_reset]

/-- The default build uses bit 0 only. -/
def bucketBit : LockBits Unit where
  pos _ := 0
  bucket := ()
  pos_lt _ := by decide
  pos_injective _ _ _ := rfl

/-- A bucket of `2 ^ shift` cells. -/
def someBucket (addr : BitVec 48) (shift : Fin 32) : ResetArgs where
  addr := addr.setWidth 64
  cellCount := 1#32 <<< shift.val
  addr_lt := by
    rw [BitVec.toNat_setWidth_of_le (by decide)]
    exact addr.isLt
  power := ⟨shift, by
    have fits : 2 ^ shift.val < 2 ^ 32 := Nat.pow_lt_pow_right one_lt_two shift.isLt
    rw [BitVec.toNat_shiftLeft, Nat.shiftLeft_eq]
    simpa using fits⟩

/-- A locker has loaded the word before a reset, and tries its compare-and-swap behind it. -/
def staleLocker : List (LockAction Bool Unit) :=
  [.call true (.lock ()), .access true, .call false (.tryLock ()), .access false, .access false,
    .call false (.reset (someBucket 0xFFFFFFFFFFFF 31)), .access false, .access false,
    .access true, .call false (.unlock ()), .access false, .access false, .access true,
    .access true]

theorem lock_preserves_word_staleLocker : ∃ steps s,
    Run (next .compareAndSwap bucketBit)
      (start (reset 0 (someBucket 4096 5)) : BucketLock Bool Unit) steps s ∧
      address s.word = (lastReset (someBucket 4096 5) steps).addr := by
  have ran : (execute (next .compareAndSwap bucketBit)
      (start (reset 0 (someBucket 4096 5)) : BucketLock Bool Unit) staleLocker).isSome = true := by
    decide +kernel
  obtain ⟨s, executed⟩ := Option.isSome_iff_exists.mp ran
  obtain ⟨steps, run, -⟩ := exists_run_of_execute executed
  exact ⟨steps, s, run, (lock_preserves_word (by decide) run).2.1⟩

end BucketBit

end BucketLock

end TurboHash
