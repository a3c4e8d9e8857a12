import TurboHash.DeleteReturns
import TurboHash.EpocheScans
import TurboHash.RecordRace
import TurboHash.TableSteps

/-!
# No record is freed under a reader that comes in time

A `Find` reads a record pointer out of a slot that its version word has shown as valid, or that a
`Put` has taken since. So the record was in the table at some moment of the `Find`, and while it
is in the table it can be in a deletion list only as the one that the lock holder has just marked.
The cleanup of that thread begins behind its operation, and sees the epoch of the `Find`. What it
does with the record depends on the epoch that the record was marked under, and that may be the
older one: `NotOlder` has to be asked of the `Find`.
-/

namespace TurboHash

open Simulation Transition

variable {F : CellFormat} {τ K V H E : Type} {L : SlotLayout K (Nat × V) H E}

/-! ## The slots that a lookup may come to read -/

/-- The slots of the cell that the lookup may still load the words of. -/
def FindCall.watched : FindCall F H E → List Nat
  | scanning _ _ slots => slots
  | comparing _ _ i slots => i :: slots
  | matched _ _ i | copying _ _ i _ => [i]
  | _ => []

/-- A lookup watches the slots that it watched before, or those whose tags match. -/
theorem FindCall.watched_of_read [DecidableEq H] {key : K} {bi current i : Nat}
    {arrays : Nat → Bucket F H E} {call call' : FindCall F H E} {p : FindProbe}
    (read : call.read L key bi current arrays = some call') (probed : call'.probed = some p)
    (mem : i ∈ call'.watched) :
    call.probed = some p ∧ i ∈ call.watched ∨ ∃ tags, call = .tagged p tags ∧
      i ∈ (CellMeta.matchBitSet (⟨tags, (p.cell arrays).loadVersion⟩ : CellMeta F)
        (L.keyHash key).h2).toList := by
  cases call with
  | idle | returned => cases read
  | calling | addressed =>
    cases read
    cases probed
  | probing =>
    rw [FindCall.read] at read
    split at read <;> cases read <;> cases mem
  | tagged p' tags =>
    cases read
    cases probed
    exact Or.inr ⟨tags, rfl, mem⟩
  | scanning p' m slots =>
    cases slots with
    | nil =>
      cases read
      split at mem <;> cases mem
    | cons j slots =>
      rw [FindCall.read] at read
      cases read
      split at probed
      case isTrue same =>
        cases probed
        rw [if_pos same] at mem
        exact Or.inl ⟨rfl, mem⟩
      case isFalse other =>
        cases probed
        rw [if_neg other] at mem
        exact Or.inl ⟨rfl, List.mem_cons_of_mem j mem⟩
  | comparing p' m j slots =>
    rw [FindCall.read] at read
    cases read
    split at probed
    case isTrue same =>
      cases probed
      rw [if_pos same] at mem
      exact Or.inl ⟨rfl, List.mem_singleton.mp mem ▸ List.mem_cons_self⟩
    case isFalse other =>
      cases probed
      rw [if_neg other] at mem
      exact Or.inl ⟨rfl, List.mem_cons_of_mem j mem⟩
  | matched p' m j =>
    cases read
    cases probed
    exact Or.inl ⟨rfl, mem⟩
  | copying =>
    cases read
    cases mem
  | copied =>
    rw [FindCall.read] at read
    cases read
    split at probed <;> cases probed

/-- The records that a lookup may come to read are among the nodes `fresh`: those of an array that
was replaced, and those of the slots that it watches. -/
structure Watches (L : SlotLayout K (Nat × V) H E) (fresh : Set Node)
    (b : FindRace F K (Nat × V) H E) (call : FindCall F H E) : Prop where
  array : ∀ array, call.array = some array → array < b.current →
    ∀ n ∈ (b.arrays array).records L, .record n ∈ fresh
  slots : ∀ p, call.probed = some p → ∀ i ∈ call.watched, ∀ n,
    recordAddress L ((p.cell b.arrays).slots i) = some n → .record n ∈ fresh

/-- The record that a lookup reads lies in a slot that it watches. -/
theorem FindCall.watched_of_pointer {isKeyFlat : Bool} {arrays : Nat → Bucket F H E}
    {call : FindCall F H E} {n : Nat} (points : call.pointer L isKeyFlat arrays = some n) :
    ∃ p, call.probed = some p ∧ ∃ i ∈ call.watched,
      recordAddress L ((p.cell arrays).slots i) = some n := by
  cases call with
  | comparing p m i slots =>
    rw [FindCall.pointer] at points
    split at points
    case isTrue => cases points
    case isFalse => exact ⟨p, rfl, i, List.mem_cons_self, points⟩
  | copying p m i h1 => exact ⟨p, rfl, i, List.mem_singleton_self i, points⟩
  | _ => cases points

namespace Watches

variable {fresh : Set Node} {b b' : FindRace F K (Nat × V) H E} {call call' : FindCall F H E}

theorem calling : Watches L fresh b .calling := ⟨nofun, nofun⟩

/-- The next load of the lookup. -/
theorem read [DecidableEq H] {key : K} {bi : Nat} (watches : Watches L fresh b call)
    (formed : b.Formed L bi) (alive : ∀ n ∈ b.bucket.records L, .record n ∈ fresh)
    (inside : FindRace.Inside L bi key { b with call := call' })
    (read : call.read L key bi b.current b.arrays = some call') : Watches L fresh b call' where
  array array here less := by
    rcases FindRace.FindCall.array_of_read read here with was | ⟨-, -, rfl⟩
    · exact watches.array array was less
    · exact absurd less (lt_irrefl _)
  slots p probed i mem n points := by
    rcases FindCall.watched_of_read read probed mem with ⟨was, mem⟩ | ⟨tags, rfl, listed⟩
    · exact watches.slots p was i mem n points
    · -- the version word has shown the slot as valid
      have published : p.array ≤ b.current := inside.published _ (FindCall.array_of_probed probed)
      have inArray : p.probe.cellIndex < (b.arrays p.array).cellCount := inside.inArray p probed
      have wf := formed.wf published p.probe.cellIndex inArray
      rw [BitSet.mem_toList, CellMeta.getLsbD_matchBitSet (by exact wf.loadMeta_wf)] at listed
      have live : ((b.arrays p.array).cells p.probe.cellIndex).live i = true := by
        rw [Cell.live, ← wf.loadVersion_eq]
        exact listed.1
      have stored : n ∈ (b.arrays p.array).records L := Bucket.mem_records inArray live points
      rcases Nat.lt_or_eq_of_le published with less | here
      · exact watches.array p.array rfl less n stored
      · rw [here] at stored
        exact alive n stored

/-- Another thread takes a step: the array that the lookup is in may be replaced, and its slots
may get records that were in the table before. -/
theorem kept (watches : Watches L fresh b call)
    (published : ∀ array, call.array = some array → array ≤ b.current)
    (alive : ∀ n ∈ b.bucket.records L, .record n ∈ fresh)
    (old : ∀ array < b'.current, array ≤ b.current → b'.arrays array = b.arrays array)
    (slots : ∀ array ≤ b.current, ∀ c i n,
      recordAddress L (((b'.arrays array).cells c).slots i) = some n →
        recordAddress L (((b.arrays array).cells c).slots i) = some n ∨ .record n ∈ fresh) :
    Watches L fresh b' call where
  array array here less n mem := by
    have le := published array here
    rw [old array less le] at mem
    rcases Nat.lt_or_eq_of_le le with before | rfl
    · exact watches.array array here before n mem
    · exact alive n mem
  slots p probed i mem n points := by
    have le := published p.array (FindCall.array_of_probed probed)
    rcases slots p.array le p.probe.cellIndex i n points with was | known
    · exact watches.slots p probed i mem n was
    · exact known

end Watches

/-! ## The invariant -/

namespace RecordRace

/-- What the operations may use (`guarded`), what they may come to read (`fresh`), and what they
have read. -/
structure Safe (L : SlotLayout K (Nat × V) H E) (bucketCountShift : Nat) (s : RecordRace F τ K V H E)
    (guarded fresh : τ → Set Node) : Prop where
  table : s.table.Sound L bucketCountShift
  epoche : s.epoche.Sound guarded
  seen : s.epoche.Seen fresh
  listed : s.epoche.Listed
  /-- a record of the table is one that an operation may come to read -/
  alive : ∀ t n, (s.epoche.phase t).Protected → s.table.Alive L bucketCountShift n →
    .record n ∈ fresh t
  /-- in a list it is one that leaves with the next store of the thread -/
  retiring : ∀ u n k, s.epoche.Stamped u (.record n) k → s.table.Alive L bucketCountShift n →
    s.table.Retiring L bucketCountShift u n
  working : ∀ t, (s.table.calls t).locked ≠ none → s.epoche.Working t
  finding : ∀ t key call, s.table.calls t = .find key call →
    let bi := TableRace.bucketOf L bucketCountShift key
    let b := s.table.buckets bi
    (s.epoche.phase t = .inside ∨ call = .calling) ∧
      FindRace.Inside L bi key { b with call } ∧ Watches L (fresh t) b call
  obtained : ∀ t, ∀ n ∈ s.obtained t, .record n ∈ guarded t ∧ s.epoche.phase t = .inside ∧
    ∃ key call, s.table.calls t = .find key call

variable {bucketCountShift : Nat} {s : RecordRace F τ K V H E} {guarded fresh : τ → Set Node}

section Steps

variable [DecidableEq τ] {t : τ}

omit [DecidableEq τ] in
/-- A lookup may come to read the records of its bucket. -/
theorem Safe.alive_of_mem (safe : s.Safe L bucketCountShift guarded fresh)
    (here : (s.epoche.phase t).Protected) {key : K} {n : Nat}
    (mem : n ∈ (s.table.buckets (TableRace.bucketOf L bucketCountShift key)).bucket.records L) :
    .record n ∈ fresh t := by
  refine safe.alive t n here (Or.inr (TableRace.mem_owned (TableRace.bucketOf_lt L _ key) ?_))
  exact Multiset.mem_add.mpr (Or.inl mem)

/-- A step of thread `t` on the table. -/
theorem Safe.setTable (safe : s.Safe L bucketCountShift guarded fresh)
    {table : TableRace F τ K V H E} (sound : table.Sound L bucketCountShift)
    (kept : s.table.Kept L bucketCountShift t table)
    (working : (table.calls t).locked ≠ none → s.epoche.Working t)
    (finding : ∀ key call, table.calls t = .find key call →
      let bi := TableRace.bucketOf L bucketCountShift key
      let b := table.buckets bi
      (s.epoche.phase t = .inside ∨ call = .calling) ∧
        FindRace.Inside L bi key { b with call } ∧ Watches L (fresh t) b call)
    (obtained : ∀ n ∈ s.obtained t, ∃ key call, table.calls t = .find key call) :
    ({ s with table } : RecordRace F τ K V H E).Safe L bucketCountShift guarded fresh where
  table := sound
  epoche := safe.epoche
  seen := safe.seen
  listed := safe.listed
  alive u n here alive := safe.alive u n here (kept.alive n alive)
  retiring u n k stamped alive := by
    have was := safe.retiring u n k stamped (kept.alive n alive)
    exact (kept.retiring u n was).resolve_right fun dead => dead alive
  working u locked := by
    by_cases own : u = t
    · subst own
      exact working locked
    · dsimp only at locked
      rw [kept.others u own] at locked
      exact safe.working u locked
  finding u key call has := by
    by_cases own : u = t
    · subst own
      exact finding key call has
    · dsimp only at has
      rw [kept.others u own] at has
      obtain ⟨stage, way, watches⟩ := safe.finding u key call has
      refine ⟨stage, way.congr rfl (kept.current_le _) (kept.shift _), ?_⟩
      rcases stage with inside | rfl
      case inr => exact .calling
      have here : (s.epoche.phase u).Protected := by
        rw [inside]
        trivial
      refine watches.kept way.published
        (fun n mem => safe.alive_of_mem here mem) (kept.old _) fun array le c i n points => ?_
      exact (kept.slots _ (TableRace.bucketOf_lt L _ key) array le c i n points).imp_right
        (safe.alive u n here)
  obtained u n mem := by
    obtain ⟨used, inside, find⟩ := safe.obtained u n mem
    refine ⟨used, inside, ?_⟩
    by_cases own : u = t
    · subst own
      exact obtained n mem
    · dsimp only
      rwa [kept.others u own]

/-- A step of the protocol. -/
theorem Safe.setEpoche (safe : s.Safe L bucketCountShift guarded fresh) {epoche : Epoche τ Node}
    {a : EpocheAction τ Node} (step : s.epoche.Step a epoche)
    (marks : ∀ u node, a = .mark u node →
      (∀ n, node = .record n → s.table.Retiring L bucketCountShift u n) ∧
        ∀ key call, s.table.calls u ≠ .find key call)
    (ends : ∀ u, a = .leave u ∨ a = .exit u → s.table.calls u = .idle) :
    ({ s with epoche } : RecordRace F τ K V H E).Safe L bucketCountShift
      (s.epoche.guardedAfter guarded a) (s.epoche.freshAfter fresh a) := by
  -- an operation that has read something goes on
  have goes_on : ∀ u key call, s.table.calls u = .find key call → s.epoche.phase u = .inside →
      epoche.phase u = .inside ∧ s.epoche.guardedAfter guarded a u = guarded u := by
    intro u key call has inside
    refine step.inside_after inside ?_ ?_ ?_
    · intro leaves
      rw [ends u (Or.inl leaves)] at has
      cases has
    · intro exits
      rw [ends u (Or.inr exits)] at has
      cases has
    · intro node mark
      exact (marks u node mark).2 key call has
  constructor
  case table => exact safe.table
  case epoche => exact safe.epoche.step step
  case seen => exact safe.seen.step safe.epoche step
  case listed => exact safe.listed.step safe.epoche step
  case alive =>
    intro u n here alive
    rcases step.published_after safe.epoche here with ⟨was, other, -⟩ | rfl
    · rw [Epoche.freshAfter_of_ne other]
      exact safe.alive u n was alive
    · -- who has marked the record of a slot is not in its cleanup
      simp only [Epoche.freshAfter, Function.update_self]
      intro v k stamped
      obtain ⟨key, writing, -⟩ := safe.retiring v n k stamped alive
      refine (safe.working v ?_).guards.2
      rw [writing]
      exact Option.some_ne_none key
  case retiring =>
    intro u n k stamped alive
    rcases step.stamped_before stamped with ⟨k', before⟩ | mark
    · exact safe.retiring u n k' before alive
    · exact (marks u _ mark).1 n rfl
  case working =>
    intro u locked
    refine step.working_after (safe.working u locked) ?_ ?_
    · intro leaves
      rw [show s.table.calls u = .idle from ends u (Or.inl leaves)] at locked
      exact locked rfl
    · intro exits
      rw [show s.table.calls u = .idle from ends u (Or.inr exits)] at locked
      exact locked rfl
  case finding =>
    intro u key call has
    obtain ⟨inside | rfl, way, watches⟩ := safe.finding u key call has
    · refine ⟨Or.inl (goes_on u key call has inside).1, way, ?_⟩
      rw [Epoche.freshAfter_of_ne]
      · exact watches
      · rintro rfl
        cases step
        case storeEpoche entering => cases inside.symm.trans entering
    · exact ⟨Or.inr rfl, way, .calling⟩
  case obtained =>
    intro u n mem
    obtain ⟨used, inside, key, call, has⟩ := safe.obtained u n mem
    obtain ⟨inside', same⟩ := goes_on u key call has inside
    rw [same]
    exact ⟨used, inside', key, call, has⟩

/-! ## The steps -/

omit [DecidableEq τ] in
theorem inside_iff : s.inside t = true ↔ s.epoche.phase t = .inside := by
  rw [inside]
  split
  case h_1 here => exact iff_of_true rfl here
  case h_2 other => exact iff_of_false Bool.false_ne_true fun here => other here

omit [DecidableEq τ] in
/-- A thread that is not in a `Find` has read nothing. -/
theorem Safe.obtained_eq_nil (safe : s.Safe L bucketCountShift guarded fresh)
    (noFind : ∀ key call, s.table.calls t ≠ .find key call) : s.obtained t = [] := by
  refine List.eq_nil_iff_forall_not_mem.mpr fun n mem => ?_
  obtain ⟨-, -, key, call, has⟩ := safe.obtained t n mem
  exact noFind key call has

/-- A step on the table that is not one of a `Find`. -/
theorem Safe.quiet (safe : s.Safe L bucketCountShift guarded fresh) {table : TableRace F τ K V H E}
    (inside : s.inside t = true)
    (step : table.Sound L bucketCountShift ∧ s.table.Kept L bucketCountShift t table)
    (noFind : ∀ key call, s.table.calls t ≠ .find key call ∧ table.calls t ≠ .find key call) :
    ({ s with table } : RecordRace F τ K V H E).Safe L bucketCountShift guarded fresh := by
  refine safe.setTable step.1 step.2 (fun _ => Or.inl (inside_iff.mp inside)) ?_ ?_
  · exact fun key call has => absurd has (noFind key call).2
  · rw [safe.obtained_eq_nil fun key call => (noFind key call).1]
    nofun

/-- What a thread has read is forgotten. -/
theorem Safe.forget (safe : s.Safe L bucketCountShift guarded fresh) (t : τ) :
    ({ s with obtained := Function.update s.obtained t [] } : RecordRace F τ K V H E).Safe L
      bucketCountShift guarded fresh :=
  { safe with
    obtained := by
      intro u n mem
      dsimp only at mem
      by_cases own : u = t
      · rw [own, Function.update_self] at mem
        cases mem
      · rw [Function.update_of_ne own] at mem
        exact safe.obtained u n mem }

variable [DecidableEq H]

omit [DecidableEq τ] [DecidableEq H] in
theorem NotOlder.le_of_stamped {n k : Nat} {u : τ} (notOlder : s.NotOlder t n)
    (listed : s.epoche.Listed) (stamped : s.epoche.Stamped u (.record n) k) :
    (s.epoche.deletionLists t).localEpoche ≤ k := by
  obtain ⟨labels, marks⟩ := notOlder u (listed u _ k stamped)
  rcases stamped with ⟨label, mem, inside, rfl⟩ | marking
  · exact labels label mem inside
  · exact marks (.record n, k) (by rw [marking]; exact List.mem_singleton_self _) rfl

omit [DecidableEq H] in
/-- A `Find` reads a pointer to a record that was not retired before its epoch. -/
theorem Safe.obtain {isKeyFlat : Bool} (safe : s.Safe L bucketCountShift guarded fresh) {key : K}
    {call : FindCall F H E} (has : s.table.calls t = .find key call) (inside : s.inside t = true)
    (notOlder : ∀ n ∈ (s.pointer L bucketCountShift isKeyFlat t).toList, s.NotOlder t n) :
    ∃ guarded', ({ s with
      obtained := Function.update s.obtained t
        ((s.pointer L bucketCountShift isKeyFlat t).toList ++ s.obtained t) } :
          RecordRace F τ K V H E).Safe L bucketCountShift guarded' fresh := by
  have here := inside_iff.mp inside
  have guards : (s.epoche.phase t).Protected := by
    rw [here]
    trivial
  cases read : s.pointer L bucketCountShift isKeyFlat t with
  | none =>
    refine ⟨guarded, ?_⟩
    rw [Option.toList_none, List.nil_append, Function.update_eq_self]
    exact safe
  | some n =>
    have points := read
    rw [pointer, has] at points
    obtain ⟨p, probed, i, mem, points⟩ := FindCall.watched_of_pointer points
    have known := (safe.finding t key call has).2.2.slots p probed i mem n points
    have stamps := fun u k => (notOlder n (by simp [read])).le_of_stamped (u := u) (k := k)
      safe.listed
    have used := safe.epoche.obtains guards stamps fun u k scan stamped scanning =>
      safe.seen t u _ k scan guards known stamped scanning
    refine ⟨_, { safe with epoche := used, obtained := ?_ }⟩
    intro u m mem
    by_cases own : u = t
    · subst own
      simp only [Function.update_self] at mem ⊢
      rcases List.mem_append.mp mem with new | old
      · obtain rfl := List.mem_singleton.mp new
        exact ⟨Or.inl rfl, here, key, call, has⟩
      · obtain ⟨used, rest⟩ := safe.obtained u m old
        exact ⟨Or.inr used, rest⟩
    · simp only [Function.update_of_ne own] at mem ⊢
      exact safe.obtained u m mem

omit [DecidableEq τ] [DecidableEq H] in
theorem DeletesValid.slot {memory : Nat → Cell F H E}
    (valid : s.DeletesValid L bucketCountShift (.lock t memory)) (key : K) (p : FindProbe)
    (m : CellMeta F) (i : Nat) (slots : List Nat)
    (has : s.table.calls t = .delete key (.comparing p m i slots)) :
    TableRace.ValidSlot L (s.table.buckets (TableRace.bucketOf L bucketCountShift key)) key p m i := by
  simp only [DeletesValid, has] at valid
  exact valid

/-- The next load of a search. -/
theorem Safe.load {isKeyFlat : Bool} (safe : s.Safe L bucketCountShift guarded fresh)
    (inTime : s.ReadsInTime L bucketCountShift isKeyFlat (.load t)) (inside : s.inside t = true)
    {table : TableRace F τ K V H E} (taken : s.table.load L bucketCountShift t = some table) :
    ∃ guarded', ({ s with
      table
      obtained := Function.update s.obtained t
        ((s.pointer L bucketCountShift isKeyFlat t).toList ++ s.obtained t) } :
          RecordRace F τ K V H E).Safe L bucketCountShift guarded' fresh := by
  have here := inside_iff.mp inside
  obtain ⟨sound, kept⟩ := safe.table.load taken
  rcases TableRace.load_cases taken with ⟨key, call, call', has, read, rfl⟩ | ⟨key, call, has, next⟩
  · simp only [ReadsInTime, has] at inTime
    obtain ⟨path, notOlder⟩ := inTime
    obtain ⟨-, way, watches⟩ := safe.finding t key call has
    obtain ⟨guarded', safe'⟩ := safe.obtain has inside notOlder
    refine ⟨guarded', safe'.setTable sound kept (fun _ => Or.inl here) ?_ ?_⟩
    · intro key' c same
      cases TableRace.setCall_self.symm.trans same
      have onWay := way.read path read
      refine ⟨Or.inl here, onWay, watches.read
        (safe.table.formed _ (TableRace.bucketOf_lt L _ key)) ?_ onWay read⟩
      exact fun n mem => safe.alive_of_mem (by rw [here]; trivial) mem
    · exact fun n _ => ⟨key, call', TableRace.setCall_self⟩
  · refine ⟨guarded, ?_⟩
    have quiet : s.pointer L bucketCountShift isKeyFlat t = none := by rw [pointer, has]
    rw [quiet, Option.toList_none, List.nil_append, Function.update_eq_self]
    refine safe.quiet inside ⟨sound, kept⟩ fun key' c => ⟨by rw [has]; nofun, ?_⟩
    rcases next with rfl | ⟨call', -, rfl⟩
    all_goals
      rw [TableRace.setCall_self]
      nofun

omit [DecidableEq H] in
/-- An operation ends. -/
theorem Safe.finish (safe : s.Safe L bucketCountShift guarded fresh) {epoche : Epoche τ Node}
    {a : EpocheAction τ Node} (unlocked : (s.table.calls t).locked = none)
    (ends : a = .leave t ∨ a = .exit t) (taken : s.epoche.next a = some epoche) :
    ∃ guarded' fresh', ({
      epoche
      table := s.table.setCall t .idle
      obtained := Function.update s.obtained t [] } : RecordRace F τ K V H E).Safe L
        bucketCountShift guarded' fresh' := by
  have noDelete : ∀ key c, (TableCall.idle : TableCall F K V H E) = .delete key c →
      FindRace.InsideCurrent L (TableRace.bucketOf L bucketCountShift key) key
        { s.table.buckets (TableRace.bucketOf L bucketCountShift key) with call := c } :=
    fun key c same => by cases same
  obtain ⟨sound, kept⟩ := safe.table.go unlocked rfl noDelete
  have idle := (safe.forget t).setTable (t := t) sound kept
    (fun locked => absurd (by rw [TableRace.setCall_self]; rfl) locked)
    (fun key call has => by cases TableRace.setCall_self.symm.trans has)
    (fun n mem => by
      simp only [Function.update_self] at mem
      cases mem)
  refine ⟨_, _, idle.setEpoche (Epoche.step_of_next taken) (fun u node mark => ?_) fun u other => ?_⟩
  · rcases ends with rfl | rfl <;> cases mark
  · rcases ends with rfl | rfl <;> rcases other with same | same <;> cases same
    all_goals exact TableRace.setCall_self

/-- Every step keeps the invariant. -/
theorem Safe.step {kCellCountLimit : Nat} {isKeyFlat : Bool} {s' : RecordRace F τ K V H E}
    {a : RecordAction F τ K V H E} (records : L.HasRecords) (entry : L.PointsByEntry)
    (safe : s.Safe L bucketCountShift guarded fresh) (valid : s.DeletesValid L bucketCountShift a)
    (inTime : s.ReadsInTime L bucketCountShift isKeyFlat a)
    (taken : s.next L kCellCountLimit bucketCountShift isKeyFlat a = some s') :
    ∃ guarded' fresh', s'.Safe L bucketCountShift guarded' fresh' := by
  cases a with
  | begin t op =>
    simp only [next] at taken
    split at taken
    case h_2 => cases taken
    case h_1 idle =>
      obtain ⟨epoche, loaded, rfl⟩ := Option.map_eq_some_iff.mp taken
      obtain ⟨sound, kept⟩ := safe.table.begin op idle
      have begun := safe.setTable sound kept
        (fun locked => absurd (by rw [TableRace.setCall_self]; cases op <;> rfl) locked)
        (fun key call has => by
          have calling := TableRace.setCall_self.symm.trans has
          cases op <;> cases calling
          exact ⟨Or.inr rfl, ⟨nofun, nofun, nofun⟩, .calling⟩)
        (fun n mem => by
          rw [safe.obtained_eq_nil fun key call => by rw [idle]; nofun] at mem
          cases mem)
      exact ⟨_, _, begun.setEpoche (Epoche.step_of_next loaded) nofun
        fun u ends => by rcases ends with ends | ends <;> cases ends⟩
  | load t =>
    simp only [next] at taken
    split at taken
    case isFalse => cases taken
    case isTrue inside =>
      obtain ⟨table, loaded, rfl⟩ := Option.map_eq_some_iff.mp taken
      obtain ⟨guarded', safe'⟩ := safe.load inTime inside loaded
      exact ⟨guarded', fresh, safe'⟩
  | lock t memory =>
    simp only [next] at taken
    split at taken
    case isFalse => cases taken
    case isTrue inside =>
      obtain ⟨table, locked, rfl⟩ := Option.map_eq_some_iff.mp taken
      refine ⟨guarded, fresh, safe.quiet inside (safe.table.lockBucket valid.slot locked) ?_⟩
      obtain ⟨key, was, ⟨now, -⟩ | ⟨value, now, -⟩⟩ := TableRace.calls_of_lock locked
      · obtain ⟨value, was⟩ | ⟨c, was⟩ := was <;> obtain now | ⟨c', now⟩ := now <;> simp [was, now]
      · obtain ⟨value', was⟩ | ⟨c, was⟩ := was <;> simp [was, now]
  | store t =>
    simp only [next] at taken
    split at taken
    case isFalse => cases taken
    case isTrue inside =>
      obtain ⟨table, stored, rfl⟩ := Option.map_eq_some_iff.mp taken
      refine ⟨guarded, fresh, safe.quiet inside (safe.table.store records entry stored) ?_⟩
      obtain ⟨key, marked, was, now | now, -⟩ := safe.table.calls_of_store stored <;>
        simp [was, now]
  | mark t =>
    obtain ⟨⟨node, table⟩, marks, rest⟩ := Option.bind_eq_some_iff.mp taken
    obtain ⟨epoche, marked, rfl⟩ := Option.map_eq_some_iff.mp rest
    have step := Epoche.step_of_next marked
    obtain ⟨-, calls⟩ := TableRace.calls_of_mark marks
    have inside : s.inside t = true := by
      cases step
      case mark inside => exact inside_iff.mpr inside
    have called : ({ s with table } : RecordRace F τ K V H E).Safe L bucketCountShift guarded
        fresh := by
      refine safe.quiet inside (safe.table.mark marks) ?_
      obtain ⟨key, n, was, now, -⟩ | ⟨key, value, old, was, now, -⟩ := calls <;> simp [was, now]
    refine ⟨_, _, called.setEpoche step (fun u node' mark => ?_) fun u ends => ?_⟩
    · cases mark
      obtain ⟨key, n, -, now, rfl, retiring⟩ | ⟨key, value, old, -, now, rfl⟩ := calls
      · refine ⟨fun m same => ?_, by simp [now]⟩
        cases same
        exact retiring
      · exact ⟨nofun, by simp [now]⟩
    · rcases ends with ends | ends <;> cases ends
  | add t =>
    obtain ⟨epoche, added, rfl⟩ := Option.map_eq_some_iff.mp taken
    exact ⟨_, _, safe.setEpoche (Epoche.step_of_next added) nofun
      fun u ends => by rcases ends with ends | ends <;> cases ends⟩
  | unlock t =>
    simp only [next] at taken
    split at taken
    case isFalse => cases taken
    case isTrue inside =>
      obtain ⟨table, unlocked, rfl⟩ := Option.map_eq_some_iff.mp taken
      refine ⟨guarded, fresh, safe.quiet inside (safe.table.unlock unlocked) ?_⟩
      obtain ⟨-, key, ⟨was, now⟩ | ⟨value, old, was, now⟩⟩ := TableRace.calls_of_unlock unlocked <;>
        simp [was, now]
  | finish t =>
    simp only [next] at taken
    split at taken
    case h_1 has =>
      obtain ⟨epoche, ended, rfl⟩ := Option.map_eq_some_iff.mp taken
      exact safe.finish (by rw [has]; rfl) (Or.inl rfl) ended
    case h_2 has =>
      obtain ⟨epoche, ended, rfl⟩ := Option.map_eq_some_iff.mp taken
      exact safe.finish (by rw [has]; rfl) (Or.inr rfl) ended
    case h_3 => cases taken
  | protocol a =>
    simp only [next] at taken
    split at taken
    case isFalse => cases taken
    case isTrue guards =>
      obtain ⟨epoche, moved, rfl⟩ := Option.map_eq_some_iff.mp taken
      refine ⟨_, _, safe.setEpoche (Epoche.step_of_next moved) (fun u node mark => ?_) fun u ends => ?_⟩
      · rw [mark] at guards
        cases guards
      · rcases ends with rfl | rfl <;> cases guards

omit [DecidableEq τ] [DecidableEq H] in
theorem Safe.start {buckets : Nat → Bucket F H E} {puts : Nat}
    (stocked : TableRace.Stocked L bucketCountShift buckets puts) (startGCThreshhold : Nat) :
    (RecordRace.start buckets puts startGCThreshhold : RecordRace F τ K V H E).Safe L
      bucketCountShift (fun _ => ∅) fun _ => ∅ where
  table := stocked.sound
  epoche := Epoche.Sound.new startGCThreshhold
  seen := nofun
  listed u n k stamped := by rcases stamped with ⟨label, mem, -⟩ | marks <;> contradiction
  alive _ _ := nofun
  retiring u n k stamped := by rcases stamped with ⟨label, mem, -⟩ | marks <;> contradiction
  working _ locked := absurd rfl locked
  finding _ _ _ := nofun
  obtained _ _ := nofun

variable {kCellCountLimit startGCThreshhold puts : Nat} {isKeyFlat : Bool}
  {buckets : Nat → Bucket F H E} {steps : List (RecordRace F τ K V H E × RecordAction F τ K V H E)}

theorem Safe.of_run (records : L.HasRecords) (entry : L.PointsByEntry)
    (stocked : TableRace.Stocked L bucketCountShift buckets puts)
    (run : Run (next L kCellCountLimit bucketCountShift isKeyFlat)
      (.start buckets puts startGCThreshhold) steps s)
    (valid : ∀ p ∈ steps, p.1.DeletesValid L bucketCountShift p.2)
    (inTime : ∀ p ∈ steps, p.1.ReadsInTime L bucketCountShift isKeyFlat p.2) :
    ∃ guarded fresh, s.Safe L bucketCountShift guarded fresh := by
  refine run.invariant (I := fun s => ∃ guarded fresh, s.Safe L bucketCountShift guarded fresh)
    (G := fun s a => s.DeletesValid L bucketCountShift a ∧ s.ReadsInTime L bucketCountShift isKeyFlat a)
    (fun s a s' safe meets taken => ?_) (fun p mem => ⟨valid p mem, inTime p mem⟩)
    ⟨_, _, .start stocked startGCThreshhold⟩
  obtain ⟨guarded, fresh, safe⟩ := safe
  exact safe.step records entry meets.1 meets.2 taken

/-- The threads run `Put`, `Find` and `Delete` on a table with records, in any number and order. As
long as no `Find` reads a record that was retired in an epoch before its own, no cleanup frees a
record that a `Find` has read. -/
theorem callback_not_obtained (records : L.HasRecords) (entry : L.PointsByEntry)
    (stocked : TableRace.Stocked L bucketCountShift buckets puts)
    (run : Run (next L kCellCountLimit bucketCountShift isKeyFlat)
      (.start buckets puts startGCThreshhold) steps s)
    (valid : ∀ p ∈ steps, p.1.DeletesValid L bucketCountShift p.2)
    (inTime : ∀ p ∈ steps, p.1.ReadsInTime L bucketCountShift isKeyFlat p.2) {u : τ} {n : Nat}
    (runs : s.epoche.callback t = some (.record n)) : n ∉ s.obtained u := by
  obtain ⟨guarded, fresh, safe⟩ := Safe.of_run records entry stocked run valid inTime
  exact fun mem => safe.epoche.callback_not_guarded runs (safe.obtained u n mem).1

end Steps

/-! ## Two buckets and two threads -/

section TwoThreads

/-- A bucket of one cell, numeric keys, and records for the values. -/
abbrev zeroedBucket : Bucket cellMeta128 UInt64 (Option (UInt64 × Nat × Nat)) :=
  ⟨0, fun _ => Table.zeroCell DeleteRace.recordLayout⟩

abbrev TwoThreadsAction := RecordAction cellMeta128 Nat UInt64 Nat UInt64 (Option (UInt64 × Nat × Nat))

abbrev nextTwoThreads := next (F := cellMeta128) (τ := Nat) DeleteRace.recordLayout 32768 1 true

/-- Thread `t` enters and takes the lock; its `Put` has a slot. -/
def takeSlot (t : Nat) (key : UInt64) : List TwoThreadsAction :=
  [.begin t (.put key 0), .protocol (.storeEpoche t), .lock t zeroedBucket.cells, .store t, .store t,
    .store t]

/-- The version word, and the end of the `Put`. -/
def commitSlot (t : Nat) : List TwoThreadsAction :=
  [.store t, .unlock t, .finish t, .protocol (.checkThreshold t)]

def insertWhole (t : Nat) (key : UInt64) : List TwoThreadsAction := takeSlot t key ++ commitSlot t

/-- An update up to the store of the version word. -/
def markOld (t : Nat) (key : UInt64) : List TwoThreadsAction := takeSlot t key ++ [.mark t, .add t]

def updateWhole (t : Nat) (key : UInt64) : List TwoThreadsAction := markOld t key ++ commitSlot t

/-- A `Find` up to its end. -/
def findWhole (t : Nat) (key : UInt64) : List TwoThreadsAction :=
  [.begin t (.find key), .protocol (.storeEpoche t)] ++ List.replicate 8 (.load t)

/-- The two lists are scanned. -/
def scanBoth (t : Nat) : List TwoThreadsAction :=
  [.protocol (.beginScan t), .protocol (.loadLocalEpoche t 0), .protocol (.loadLocalEpoche t 1),
    .protocol (.endScan t)]

def listBoth : List TwoThreadsAction := [.protocol (.threadInfo 0 ⊤), .protocol (.threadInfo 1 ⊤)]

/-- Thread 0 updates a key, thread 1 reads the new record, and the old one is freed. -/
theorem callback_not_obtained_updated : ∃ s steps,
    Run nextTwoThreads (.start (fun _ => zeroedBucket) 0 0) steps s ∧
      s.epoche.callback 0 = some (.record 0) ∧ s.obtained 1 = [1] ∧ 0 ∉ s.obtained 1 := by
  have ran : (execute (guarded nextTwoThreads fun s a => s.DeletesValid DeleteRace.recordLayout 1 a ∧
      s.ReadsInTime DeleteRace.recordLayout 1 true a)
      (.start (fun _ => zeroedBucket) 0 0) (listBoth ++ insertWhole 0 7 ++ updateWhole 0 7 ++
        findWhole 1 7 ++ scanBoth 0)).map
        (fun s => (s.epoche.callback 0, s.obtained 1)) = some (some (.record 0), [1]) := by
    decide +kernel
  obtain ⟨s, executed, facts⟩ := Option.map_eq_some_iff.mp ran
  obtain ⟨runs, obtained⟩ := Prod.mk.inj facts
  obtain ⟨steps, run, meets⟩ := exists_run_of_guarded executed
  exact ⟨s, steps, run, runs, obtained, callback_not_obtained
    (flatKeyLayout_hasRecords hashInt id) (flatKeyLayout_pointsByEntry hashInt id)
    (.of_zero 0 fun _ _ => rfl) run (fun p mem => (meets p mem).1) (fun p mem => (meets p mem).2)
    runs⟩

/-- Thread 0 has marked record 1 when thread 1 raises the epoch, enters and reads it. The cleanup of
thread 0 finds it under the older epoch. (The table has a threshold of 256 instead of 1.) -/
theorem callback_obtained_older : ∃ s steps,
    Run nextTwoThreads (.start (fun _ => zeroedBucket) 0 1) steps s ∧
      s.epoche.callback 0 = some (.record 1) ∧ 1 ∈ s.obtained 1 := by
  have ran : (execute nextTwoThreads (.start (fun _ => zeroedBucket) 0 1)
      (listBoth ++ insertWhole 0 7 ++ updateWhole 0 7 ++ insertWhole 1 9 ++ markOld 0 7 ++
        updateWhole 1 9 ++ findWhole 1 7 ++ commitSlot 0 ++ scanBoth 0 ++
          [.protocol (.sweep 0)])).map
        (fun s => (s.epoche.callback 0, s.obtained 1)) = some (some (.record 1), [1]) := by
    decide +kernel
  obtain ⟨s, executed, facts⟩ := Option.map_eq_some_iff.mp ran
  obtain ⟨runs, obtained⟩ := Prod.mk.inj facts
  obtain ⟨steps, run, -⟩ := exists_run_of_execute executed
  exact ⟨s, steps, run, runs, obtained ▸ List.mem_singleton_self 1⟩

end TwoThreads

end RecordRace

end TurboHash
