import Mathlib.Data.List.TakeWhile
import TurboHash.DeleteRace
import TurboHash.TableMap

/-!
# When a racing delete is atomic

The slot of a `Delete` was chosen before the lock, and the test of the sequence
number lets one write through. The commit is right exactly when the slot is still
valid under the lock and still has the `H1` of the key; an update of the key in
between frees the slot and leaves its content.

A run whose deletes meet this keeps the placement invariant, and every binding and
every record leaves the bucket once.
-/

namespace TurboHash

open Transition

variable {F : CellFormat} {τ K V H E : Type}

/-! ## Bindings with serial numbers -/

namespace Bucket

/-- From one bucket to the next, `key` gets the binding `value?` and every other key
keeps its own. -/
def Rebinds (L : SlotLayout K V H E) (b b' : Bucket F H E) (key : K) (value? : Option V) : Prop :=
  ∀ key' value', b'.Binds L key' value' ↔
    key' = key ∧ value? = some value' ∨ key' ≠ key ∧ b.Binds L key' value'

/-- The key is in cell `c`. -/
def Located (L : SlotLayout K V H E) (b : Bucket F H E) (key : K) (c : Nat) : Prop :=
  ∃ i value, (b.cells c).Holds L i key value

variable {L : SlotLayout K V H E} {b : Bucket F H E} {key key' : K} {value : V} {c slot : Nat}

theorem Located.binds (located : b.Located L key c) (inside : c < b.cellCount) :
    ∃ value, b.Binds L key value := by
  rcases located with ⟨i, value, holds⟩
  exact ⟨value, c, inside, i, holds⟩

theorem located_of_ne {cell : Cell F H E} {x : Nat} (different : x ≠ c) :
    (b.setCell c cell).Located L key x ↔ b.Located L key x := by
  unfold Located
  rw [setCell_of_ne b cell different]

/-- An insertion moves no key. -/
theorem Located.insert {x : Nat} (located : b.Located L key' x)
    (free : (b.cells c).ver.Insertable slot) : (b.insert L c slot key value).Located L key' x := by
  by_cases here : x = c
  · subst here
    rcases located with ⟨i, old, holds⟩
    have different : i ≠ slot := by
      rintro rfl
      rw [Cell.Holds, Cell.live, free.not_live] at holds
      cases holds.1
    refine ⟨i, old, ?_⟩
    rw [Bucket.insert, setCell_self]
    exact (Cell.holds_insert free).mpr (Or.inr ⟨different, holds⟩)
  · exact (located_of_ne here).mpr located

/-- An update keeps every key in its cell, its own key included. -/
theorem Located.update {x oldSlot : Nat} {oldValue : V} (located : b.Located L key' x)
    (holds : (b.cells c).Holds L oldSlot key oldValue) (free : (b.cells c).ver.Backup slot) :
    (b.update L c slot oldSlot key value).Located L key' x := by
  by_cases here : x = c
  · subst here
    rcases located with ⟨i, old, was⟩
    have different : i ≠ slot := by
      rintro rfl
      rw [Cell.Holds, Cell.live, free.not_live] at was
      cases was.1
    unfold Located
    rw [Bucket.update, setCell_self]
    by_cases moved : i = oldSlot
    · subst moved
      rw [(was.unique holds).1]
      exact ⟨slot, value, (Cell.holds_update holds.1 free).mpr (Or.inl ⟨rfl, rfl, rfl⟩)⟩
    · exact ⟨i, old, (Cell.holds_update holds.1 free).mpr (Or.inr ⟨different, moved, was⟩)⟩
  · exact (located_of_ne here).mpr located

theorem Located.erase {x : Nat} {value : V} (located : b.Located L key' x) (other : key' ≠ key)
    (holds : (b.cells c).Holds L slot key value) : (b.erase c slot).Located L key' x := by
  by_cases here : x = c
  · subst here
    rcases located with ⟨i, old, was⟩
    have different : i ≠ slot := by
      rintro rfl
      exact other (was.unique holds).1
    unfold Located
    rw [Bucket.erase, setCell_self]
    exact ⟨i, old, (Cell.holds_erase (Version.lt_bits_of_live holds.1)).mpr ⟨different, was⟩⟩
  · exact (located_of_ne here).mpr located

end Bucket

section Serial

variable {L : SlotLayout K (Nat × V) H E} {b b' : Bucket F H E} {key : K} {puts puts' : Nat}
  {value? : Option (Nat × V)} {log : List Nat}

/-- Every binding has the number of an earlier `Put`, and no two have the same. -/
structure Numbered (L : SlotLayout K (Nat × V) H E) (b : Bucket F H E) (puts : Nat) : Prop where
  lt : ∀ key n value, b.Binds L key (n, value) → n < puts
  unique : ∀ key key' n value value', b.Binds L key (n, value) → b.Binds L key' (n, value') →
    key = key'

/-- A log of bindings that have left the bucket, each once. -/
structure Logged (L : SlotLayout K (Nat × V) H E) (b : Bucket F H E) (puts : Nat)
    (log : List Nat) : Prop where
  nodup : log.Nodup
  lt : ∀ n ∈ log, n < puts
  gone : ∀ key n value, b.Binds L key (n, value) → n ∉ log

/-- A new binding takes the next number. -/
def NumbersNext (puts puts' : Nat) (value? : Option (Nat × V)) : Prop :=
  puts ≤ puts' ∧ ∀ value, value? = some value → value.1 = puts ∧ puts < puts'

theorem Numbered.rebinds (numbered : Numbered L b puts) (step : b.Rebinds L b' key value?)
    (next : NumbersNext puts puts' value?) : Numbered L b' puts' where
  lt key' n value binds := by
    rcases (step key' (n, value)).mp binds with ⟨-, new⟩ | ⟨-, old⟩
    · rcases next.2 _ new with ⟨rfl, less⟩
      exact less
    · exact (numbered.lt key' n value old).trans_le next.1
  unique key₁ key₂ n value₁ value₂ left right := by
    rcases (step key₁ (n, value₁)).mp left with ⟨rfl, new⟩ | ⟨-, old⟩ <;>
      rcases (step key₂ (n, value₂)).mp right with ⟨rfl, new'⟩ | ⟨-, old'⟩
    · rfl
    · have less := numbered.lt key₂ n value₂ old'
      have same : n = puts := (next.2 _ new).1
      omega
    · have less := numbered.lt key₁ n value₁ old
      have same : n = puts := (next.2 _ new').1
      omega
    · exact numbered.unique key₁ key₂ n value₁ value₂ old old'

theorem Logged.rebinds (logged : Logged L b puts log) (step : b.Rebinds L b' key value?)
    (next : NumbersNext puts puts' value?) : Logged L b' puts' log where
  nodup := logged.nodup
  lt n mem := (logged.lt n mem).trans_le next.1
  gone key' n value binds mem := by
    rcases (step key' (n, value)).mp binds with ⟨-, new⟩ | ⟨-, old⟩
    · have less := logged.lt n mem
      have same : n = puts := (next.2 _ new).1
      omega
    · exact logged.gone key' n value old mem

/-- The binding that the step removes is logged. -/
theorem Logged.cons (logged : Logged L b puts log) (numbered : Numbered L b puts)
    (step : b.Rebinds L b' key value?) (next : NumbersNext puts puts' value?) {n : Nat} {value : V}
    (was : b.Binds L key (n, value)) : Logged L b' puts' (n :: log) where
  nodup := List.nodup_cons.mpr ⟨logged.gone key n value was, logged.nodup⟩
  lt m mem := by
    rcases List.mem_cons.mp mem with rfl | old
    · exact (numbered.lt key m value was).trans_le next.1
    · exact (logged.rebinds step next).lt m old
  gone key' m value' binds mem := by
    rcases List.mem_cons.mp mem with rfl | old
    · rcases (step key' (m, value')).mp binds with ⟨-, new⟩ | ⟨other, still⟩
      · have less := numbered.lt key m value was
        have same : m = puts := (next.2 _ new).1
        omega
      · exact other (numbered.unique key' key m value' value still was)
    · exact (logged.rebinds step next).gone key' m value' binds old

end Serial

namespace DeleteRace

section Steps

variable [DecidableEq τ] [DecidableEq H] {L : SlotLayout K (Nat × V) H E}
  {s s' : DeleteRace F τ K H E} {key : K} {value : V}

/-! ## What a write does -/

/-- The log is as it was, or has the binding of `key` on top. -/
def Logs (L : SlotLayout K (Nat × V) H E) (b : Bucket F H E) (key : K) (log log' : List Nat) :
    Prop :=
  log' = log ∨ ∃ n value, b.Binds L key (n, value) ∧ log' = n :: log

/-- A write to the binding of `key`. -/
structure Wrote (L : SlotLayout K (Nat × V) H E) (s s' : DeleteRace F τ K H E) (key : K)
    (value? : Option (Nat × V)) : Prop where
  placed : s'.bucket.Placed L
  shift : s'.bucket.cellCountShift = s.bucket.cellCountShift
  rebinds : s.bucket.Rebinds L s'.bucket key value?
  located : ∀ key' c, key' ≠ key ∨ value?.isSome = true → s.bucket.Located L key' c →
    s'.bucket.Located L key' c
  numbers : NumbersNext s.puts s'.puts value?
  deleted : Logs L s.bucket key s.deleted s'.deleted
  retired : Logs L s.bucket key s.retired s'.retired

omit [DecidableEq H] in
theorem serial_slotOf (n : Nat) : serial L (L.slotOf key (n, value)) = some n := by
  rw [serial, L.decode_slotOf]
  rfl

omit [DecidableEq H] in
/-- The record of a slot that holds a binding. -/
theorem retire_of_holds {c : Cell F H E} {i n : Nat} (holds : c.Holds L i key (n, value))
    (record : Option E) (retired : List Nat) :
    retire L (c.slots i) record retired = retired ∨
      retire L (c.slots i) record retired = n :: retired := by
  rw [retire, holds.2]
  split
  · exact Or.inr (by rw [serial_slotOf]; rfl)
  · exact Or.inl rfl

omit [DecidableEq τ] in
theorem put_wrote (placed : s.bucket.Placed L) (taken : s.put L key value = some s') :
    Wrote L s s' key (some (s.puts, value)) ∧ s'.calls = s.calls := by
  unfold put at taken
  split at taken
  case h_2 => cases taken
  case h_1 res found =>
    split at taken
    case isFalse => cases taken
    case isTrue hit =>
      have answer := Bucket.findSlotForInsert_answer placed.wf (Nat.lt_succ_self _) found
      have commit := placed.commit answer hit (s.puts, value)
      have numbers : NumbersNext s.puts (s.puts + 1) (some (s.puts, value)) :=
        ⟨Nat.le_succ _, fun _ same => by cases same; exact ⟨rfl, Nat.lt_succ_self _⟩⟩
      have rebinds : ∀ {b : Bucket F H E}, (∀ key' value', b.Binds L key' value' ↔
          key' = key ∧ value' = (s.puts, value) ∨ key' ≠ key ∧ s.bucket.Binds L key' value') →
          s.bucket.Rebinds L b key (some (s.puts, value)) := by
        intro b binds key' value'
        rw [binds, Option.some_inj, eq_comm (a := value')]
      rw [Option.some.injEq] at taken
      subst taken
      refine ⟨⟨commit.1, rfl, rebinds commit.2, fun key' c _ located => ?_, numbers, Or.inl rfl,
        ?_⟩, rfl⟩
      · cases answer with
        | update inside _ old holds free =>
          dsimp only
          rw [insertToSlotAndGC_update (placed.wf _ inside)]
          exact located.update holds free
        | insert inside _ free _ =>
          dsimp only
          rw [insertToSlotAndGC_insert (placed.wf _ inside)]
          exact located.insert free
        | noRoom => cases hit
      · cases answer with
        | @update c oldSlot _ inside _ old holds free =>
          apply (retire_of_holds holds _ s.retired).imp_right
          exact fun logged => ⟨old.1, old.2, ⟨c, inside, oldSlot, holds⟩, logged⟩
        | insert inside _ free _ => exact Or.inl rfl
        | noRoom => cases hit

/-! ## The condition on the deletes -/

/-- What a step of a `Delete` has to find. The locked section, where it passes both of
its tests, finds the slot still valid and with the `H1` of the key; the scan behind
another key with the same `H1` finds that `H1` in a slot it has not looked at, where
the cell binds the key. -/
def Meets (L : SlotLayout K (Nat × V) H E) (s : DeleteRace F τ K H E) : RaceAction τ K V → Prop
  | .lock t =>
    match s.calls t with
    | .matched p snapshot slot _ =>
      let c := p.cell s.bucket
      seqAdvanced snapshot.ver c.loadVersion = false →
        L.slotKeyEqual p.key (c.slots slot) = true →
          c.loadVersion.isPosValid slot = true ∧ (c.slots slot).h1 = (L.keyHash p.key).h1
    | _ => True
  | .scan t =>
    match s.calls t with
    | .scanning p _ slots =>
      let c := p.cell s.bucket
      (matchSlot L p.key (L.keyHash p.key) c c.loadMeta).isSome = true →
        ∃ i ∈ slots, (c.slots i).h1 = (L.keyHash p.key).h1
    | _ => True
  | _ => True

instance (s : DeleteRace F τ K H E) (a : RaceAction τ K V) : Decidable (Meets L s a) := by
  unfold Meets
  split
  · split <;> infer_instance
  · split <;> infer_instance
  · infer_instance

/-! ## The invariant -/

/-- The probe stands at its place on the path of its key. -/
def Aligned (L : SlotLayout K V H E) (b : Bucket F H E) (p : DeleteProbe K) : Prop :=
  p.probe = probeAt (L.homeHash p.key) b.cellCount 0 p.probeCount

/-- The bucket is placed, its bindings are numbered, and what has left it has left it
once. -/
structure Sound (L : SlotLayout K (Nat × V) H E) (s : DeleteRace F τ K H E) : Prop where
  placed : s.bucket.Placed L
  numbered : Numbered L s.bucket s.puts
  deleted : Logged L s.bucket s.puts s.deleted
  retired : Logged L s.bucket s.puts s.retired
  aligned : ∀ t p, (s.calls t).probe = some p → Aligned L s.bucket p

omit [DecidableEq τ] [DecidableEq H] in
theorem Sound.start (cellCountShift : Nat) :
    Sound L (DeleteRace.start L cellCountShift : DeleteRace F τ K H E) := by
  rcases Bucket.Placed.of_zero (b := (DeleteRace.start L cellCountShift :
    DeleteRace F τ K H E).bucket) fun _ _ => rfl with ⟨placed, unbound⟩
  have logged : Logged L (DeleteRace.start L cellCountShift : DeleteRace F τ K H E).bucket 0 [] :=
    ⟨List.nodup_nil, nofun, fun _ _ _ _ => List.not_mem_nil⟩
  exact ⟨placed, ⟨fun key n value binds => absurd binds (unbound _ _),
    fun key _ n value _ binds => absurd binds (unbound _ _)⟩, logged, logged, nofun⟩

omit [DecidableEq H] in
theorem Aligned.next {b : Bucket F H E} {p : DeleteProbe K} (aligned : Aligned L b p) :
    Aligned L b p.next := by
  unfold Aligned DeleteProbe.next
  dsimp only
  rw [show p.probe = _ from aligned]
  exact next_probeAt _ _ _ _

omit [DecidableEq H] in
theorem Aligned.inside {b : Bucket F H E} {p : DeleteProbe K} (aligned : Aligned L b p) :
    p.probe.cellIndex < b.cellCount := by
  rw [show p.probe = _ from aligned]
  exact Nat.mod_lt _ b.cellCount_pos

/-! ## The steps -/

/-- What a step can be. -/
theorem next_cases {a : RaceAction τ K V} (taken : s.next L a = some s') :
    (∃ key value, a = .put key value ∧ s.put L key value = some s') ∨
    (∃ t key, a = .call t key ∧ s.calls t = .idle ∧ s' = s.setCall t
      (.probing ⟨key, .start (L.homeHash key) s.bucket.cellCountMask 0, 0⟩)) ∨
    (∃ t key out, s.outcome L a = some (t, key, out) ∧ s' = s.conclude L t out) := by
  cases a with
  | put key value => exact Or.inl ⟨key, value, rfl, taken⟩
  | call t key =>
    simp only [next] at taken
    split at taken <;> cases taken
    case h_1 idle => exact Or.inr (Or.inl ⟨t, key, rfl, idle, rfl⟩)
  | read t | scan t | lock t =>
    rcases Option.map_eq_some_iff.mp taken with ⟨⟨t', key, out⟩, ends, rfl⟩
    exact Or.inr (Or.inr ⟨t', key, out, ends, rfl⟩)

omit [DecidableEq τ] in
/-- What a step of a `Delete` can be. -/
theorem outcome_cases {a : RaceAction τ K V} {t : τ} {out : DeleteOutcome F K}
    (ends : s.outcome L a = some (t, key, out)) :
    (∃ p, a = .read t ∧ s.calls t = .probing p ∧ p.key = key ∧ out = p.read L s.bucket) ∨
    (∃ p m slots, a = .scan t ∧ s.calls t = .scanning p m slots ∧ p.key = key ∧
      out = p.examine L s.bucket m slots) ∨
    (∃ p m slot slots, a = .lock t ∧ s.calls t = .matched p m slot slots ∧ p.key = key ∧
      out = p.lock L s.bucket m slot slots) := by
  cases a with
  | put | call => cases ends
  | read t' =>
    simp only [outcome] at ends
    split at ends <;> cases ends
    case h_1 p here => exact Or.inl ⟨p, rfl, here, rfl, rfl⟩
  | scan t' =>
    simp only [outcome] at ends
    split at ends <;> cases ends
    case h_1 p m slots here => exact Or.inr (Or.inl ⟨p, m, slots, rfl, here, rfl, rfl⟩)
  | lock t' =>
    simp only [outcome] at ends
    split at ends <;> cases ends
    case h_1 p m slot slots here =>
      exact Or.inr (Or.inr ⟨p, m, slot, slots, rfl, here, rfl, rfl⟩)

omit [DecidableEq τ] in
theorem examine_cases (p : DeleteProbe K) (b : Bucket F H E) (m : CellMeta F)
    (slots : List Nat) :
    (∃ slot rest, p.examine L b m slots = .goOn (.matched p m slot rest)) ∨
    (∀ i ∈ slots, ((p.cell b).slots i).h1 ≠ (L.keyHash p.key).h1) ∧
      p.examine L b m slots = if m.full then .goOn (.probing p.next) else .notFound := by
  unfold DeleteProbe.examine
  split
  case h_1 slot rest _ => exact Or.inl ⟨slot, rest, rfl⟩
  case h_2 none =>
    refine Or.inr ⟨fun i mem => ?_, rfl⟩
    simpa using List.dropWhile_eq_nil_iff.mp none i mem

omit [DecidableEq τ] in
/-- A step of a `Delete` goes on with its probe, or with the next one. -/
theorem probe_of_goOn {a : RaceAction τ K V} {t : τ} {call : DeleteCall F K}
    (ends : s.outcome L a = some (t, key, .goOn call)) :
    ∃ p p', (s.calls t).probe = some p ∧ call.probe = some p' ∧ (p' = p ∨ p' = p.next) := by
  have examined : ∀ p : DeleteProbe K, (s.calls t).probe = some p → ∀ m slots,
      .goOn call = p.examine L s.bucket m slots →
        ∃ p', call.probe = some p' ∧ (p' = p ∨ p' = p.next) := by
    intro p _ m slots same
    rcases examine_cases (L := L) p s.bucket m slots with ⟨slot, rest, eq⟩ | ⟨-, eq⟩
    · cases same.trans eq
      exact ⟨p, rfl, Or.inl rfl⟩
    · rw [eq] at same
      split at same <;> cases same
      exact ⟨p.next, rfl, Or.inr rfl⟩
  rcases outcome_cases ends with ⟨p, -, here, -, same⟩ | ⟨p, m, slots, -, here, -, same⟩ |
    ⟨p, m, slot, slots, -, here, -, same⟩
  · unfold DeleteProbe.read at same
    split at same
    · rcases examined p (by rw [here]; rfl) _ _ same with ⟨p', eq, next⟩
      exact ⟨p, p', by rw [here]; rfl, eq, next⟩
    · cases same
  · rcases examined p (by rw [here]; rfl) _ _ same with ⟨p', eq, next⟩
    exact ⟨p, p', by rw [here]; rfl, eq, next⟩
  · unfold DeleteProbe.lock at same
    dsimp only at same
    split at same
    · cases same
      exact ⟨p, p, by rw [here]; rfl, rfl, Or.inl rfl⟩
    · split at same <;> cases same
      exact ⟨p, p, by rw [here]; rfl, rfl, Or.inl rfl⟩

omit [DecidableEq τ] in
/-- A commit that meets the condition is on a slot that binds the key. -/
theorem commit_holds {a : RaceAction τ K V} {t : τ} {cell slot : Nat} (sound : Sound L s)
    (meets : Meets L s a) (ends : s.outcome L a = some (t, key, .commit cell slot)) :
    cell < s.bucket.cellCount ∧ ∃ n value, (s.bucket.cells cell).Holds L slot key (n, value) := by
  have noExamine : ∀ (p : DeleteProbe K) m slots,
      .commit cell slot ≠ p.examine L s.bucket m slots := by
    intro p m slots same
    rcases examine_cases (L := L) p s.bucket m slots with ⟨i, rest, eq⟩ | ⟨-, eq⟩
    · cases same.trans eq
    · rw [eq] at same
      split at same <;> cases same
  rcases outcome_cases ends with ⟨p, -, -, -, same⟩ | ⟨p, m, slots, -, -, -, same⟩ |
    ⟨p, m, i, slots, rfl, here, rfl, same⟩
  · unfold DeleteProbe.read at same
    split at same
    · exact absurd same (noExamine _ _ _)
    · cases same
  · exact absurd same (noExamine _ _ _)
  · have inside := (sound.aligned t p (by rw [here]; rfl)).inside
    have wf := sound.placed.wf _ inside
    simp only [Meets, here] at meets
    simp only [DeleteProbe.lock] at same
    split at same
    · cases same
    case isFalse calm =>
      split at same <;> cases same
      case isTrue equal =>
        rcases meets (by simpa using calm) equal with ⟨valid, sameH1⟩
        rw [DeleteProbe.cell, wf.loadVersion_eq, Version.isPosValid_eq_live] at valid
        rcases wf.stored _ valid with ⟨key', ⟨n, value⟩, stored, -⟩
        refine ⟨inside, n, value, valid, ?_⟩
        rw [DeleteProbe.cell, stored] at sameH1 equal
        have matches_key := (L.match_slotOf p.key key' (n, value)).mp (by
          rw [Bool.and_eq_true, beq_iff_eq]
          exact ⟨sameH1, equal⟩)
        rw [stored, matches_key]

omit [DecidableEq H] in
/-- The commit on a slot that binds the key. -/
theorem commit_wrote {t : τ} {cell slot n : Nat} (sound : Sound L s)
    (inside : cell < s.bucket.cellCount)
    (holds : (s.bucket.cells cell).Holds L slot key (n, value)) :
    Wrote L s (s.conclude L t (.commit cell slot)) key none ∧
      (s.conclude L t (.commit cell slot)).deleted = n :: s.deleted := by
  have bound : s.bucket.Binds L key (n, value) := ⟨cell, inside, slot, holds⟩
  have answer : DeleteAnswer L s.bucket key (some (cell, slot)) := ⟨inside, _, holds⟩
  have commit := sound.placed.deleteCommit answer
  have deleted : (s.conclude L t (.commit cell slot)).deleted = n :: s.deleted := by
    change (serial L ((s.bucket.cells cell).slots slot)).toList ++ s.deleted = _
    rw [holds.2, serial_slotOf]
    rfl
  refine ⟨⟨commit.2.1, rfl, fun key' value' => ?_, fun key' c other located => ?_,
    ⟨le_rfl, nofun⟩, Or.inr ⟨n, value, bound, deleted⟩, ?_⟩, deleted⟩
  · refine (commit.2.2 key' value').trans ?_
    simp
  · change Bucket.Located L (s.bucket.setCell cell _) key' c
    rw [deleteCommit_eq (sound.placed.wf cell inside)]
    exact located.erase (other.resolve_right nofun) holds
  · exact (retire_of_holds holds _ _).imp_right fun logged => ⟨n, value, bound, logged⟩

omit [DecidableEq H] in
theorem Logs.logged {b b' : Bucket F H E} {log log' : List Nat} {puts puts' : Nat}
    {value? : Option (Nat × V)} (logs : Logs L b key log log') (logged : Logged L b puts log)
    (numbered : Numbered L b puts) (step : b.Rebinds L b' key value?)
    (numbers : NumbersNext puts puts' value?) : Logged L b' puts' log' := by
  rcases logs with rfl | ⟨n, value, was, rfl⟩
  · exact logged.rebinds step numbers
  · exact logged.cons numbered step numbers was

omit [DecidableEq τ] [DecidableEq H] in
theorem Sound.wrote {value? : Option (Nat × V)} (sound : Sound L s) (wrote : Wrote L s s' key value?)
    (calls : ∀ t p, (s'.calls t).probe = some p → (s.calls t).probe = some p) : Sound L s' where
  placed := wrote.placed
  numbered := sound.numbered.rebinds wrote.rebinds wrote.numbers
  deleted := wrote.deleted.logged sound.deleted sound.numbered wrote.rebinds wrote.numbers
  retired := wrote.retired.logged sound.retired sound.numbered wrote.rebinds wrote.numbers
  aligned t p here := by
    have aligned := sound.aligned t p (calls t p here)
    rwa [Aligned, Bucket.cellCount, wrote.shift]

omit [DecidableEq H] in
theorem Sound.setCall {t : τ} {call : DeleteCall F K} (sound : Sound L s)
    (aligned : ∀ p, call.probe = some p → Aligned L s.bucket p) : Sound L (s.setCall t call) where
  placed := sound.placed
  numbered := sound.numbered
  deleted := sound.deleted
  retired := sound.retired
  aligned u p here := by
    by_cases own : u = t
    · subst own
      simp only [DeleteRace.setCall, Function.update_self] at here
      exact aligned p here
    · simp only [DeleteRace.setCall, Function.update_of_ne own] at here
      exact sound.aligned u p here

omit [DecidableEq H] in
/-- The probe of a call that ends is gone, the others stay. -/
theorem probe_of_conclude {t u : τ} {p : DeleteProbe K} {cell slot : Nat}
    (here : ((s.conclude L t (.commit cell slot)).calls u).probe = some p) :
    (s.calls u).probe = some p := by
  by_cases own : u = t
  · subst own
    simp [conclude, DeleteRace.setCall, DeleteCall.probe] at here
  · simpa [conclude, DeleteRace.setCall, own] using here

/-- Every step that meets the condition keeps the invariant. -/
theorem Sound.step {a : RaceAction τ K V} (sound : Sound L s) (meets : Meets L s a)
    (taken : s.next L a = some s') : Sound L s' := by
  rcases next_cases taken with ⟨key, value, rfl, put⟩ | ⟨t, key, rfl, -, rfl⟩ |
    ⟨t, key, out, ends, rfl⟩
  · rcases put_wrote sound.placed put with ⟨wrote, calls⟩
    exact sound.wrote wrote fun t p here => by rwa [calls] at here
  · refine sound.setCall fun p here => ?_
    cases here
    exact start_eq_probeAt _ _ _
  · match out with
    | .goOn call =>
      rcases probe_of_goOn ends with ⟨p, p', here, there, same⟩
      have aligned := sound.aligned t p here
      refine sound.setCall fun p'' eq => ?_
      cases there.symm.trans eq
      rcases same with rfl | rfl
      · exact aligned
      · exact aligned.next
    | .notFound => exact sound.setCall nofun
    | .commit cell slot =>
      rcases commit_holds sound meets ends with ⟨inside, n, value, holds⟩
      exact sound.wrote (commit_wrote sound inside holds).1 fun _ _ => probe_of_conclude

end Steps

end DeleteRace

end TurboHash
