import TurboHash.Allocations

/-!
# What waits in the deletion lists

A node that `markNodeForDeletion` has put into a list stays there until its callback is run,
once: by the sweep at the end of an operation, or by `~Epoche`.
-/

namespace TurboHash

/-! ## One list -/

namespace DeletionList

variable {ν : Type} {list : DeletionList ν} {callback : ν} {epoch : ℕ} {oldestEpoche : WithTop ℕ}

/-- The callbacks in a list. -/
def pending (list : DeletionList ν) : Multiset ν :=
  (list.headDeletionList.flatMap LabelDelete.nodes : List ν)

/-- `deletitionListCount` counts the callbacks. -/
def Counted (list : DeletionList ν) : Prop := list.deletitionListCount = list.pending.card

theorem pending_addLabel (labels : List (LabelDelete ν)) :
    ((addLabel callback epoch labels).flatMap LabelDelete.nodes : Multiset ν) =
      callback ::ₘ (labels.flatMap LabelDelete.nodes : List ν) := by
  unfold addLabel
  split
  · simp
  case h_2 label rest =>
    split
    · rw [List.flatMap_cons, List.flatMap_cons, List.append_assoc, Multiset.cons_coe,
        Multiset.coe_eq_coe]
      exact List.perm_middle
    · simp

@[simp] theorem pending_add (list : DeletionList ν) (callback : ν) (epoch : ℕ) :
    (list.add callback epoch).pending = callback ::ₘ list.pending :=
  pending_addLabel _

theorem Counted.add (counted : list.Counted) (callback : ν) (epoch : ℕ) :
    (list.add callback epoch).Counted := by
  rw [Counted, pending_add, Multiset.card_cons, ← counted]
  rfl

theorem headDeletionList_remove (front : List (LabelDelete ν)) {rest : List (LabelDelete ν)}
    {label : LabelDelete ν}
    (labels : list.headDeletionList = front ++ label :: rest) :
    (list.remove label front.length).headDeletionList = front ++ rest := by
  simp [remove, labels, List.eraseIdx_append_of_length_le]

/-- The callbacks of an unlinked label leave the list. -/
theorem pending_remove (front : List (LabelDelete ν)) {rest : List (LabelDelete ν)}
    {label : LabelDelete ν}
    (labels : list.headDeletionList = front ++ label :: rest) :
    (list.remove label front.length).pending + label.nodes = list.pending := by
  rw [pending, pending, headDeletionList_remove front labels, labels, Multiset.coe_add,
    Multiset.coe_eq_coe, List.flatMap_append, List.flatMap_append, List.flatMap_cons,
    List.append_assoc]
  exact List.Perm.append_left _ List.perm_append_comm

/-- The callbacks behind a label, and those of the others. -/
theorem Counted.count_eq (counted : list.Counted) (front : List (LabelDelete ν))
    {rest : List (LabelDelete ν)} {label : LabelDelete ν}
    (labels : list.headDeletionList = front ++ label :: rest) :
    (list.remove label front.length).pending.card + label.nodes.length =
      list.deletitionListCount := by
  rw [counted, ← pending_remove front labels, Multiset.card_add, Multiset.coe_card]

theorem Counted.length_le (counted : list.Counted) (front : List (LabelDelete ν))
    {rest : List (LabelDelete ν)} {label : LabelDelete ν}
    (labels : list.headDeletionList = front ++ label :: rest) :
    label.nodes.length ≤ list.deletitionListCount :=
  counted.count_eq front labels ▸ Nat.le_add_left _ _

theorem Counted.remove (counted : list.Counted) (front : List (LabelDelete ν))
    {rest : List (LabelDelete ν)} {label : LabelDelete ν}
    (labels : list.headDeletionList = front ++ label :: rest) :
    (list.remove label front.length).Counted := by
  have count := counted.count_eq front labels
  change list.deletitionListCount - label.nodes.length = _
  omega

/-- A sweep runs the callbacks that it takes out of the list. -/
theorem sweep_spec (oldestEpoche : WithTop ℕ) (rest front : List (LabelDelete ν))
    {list : DeletionList ν}
    (labels : list.headDeletionList = front ++ rest) (counted : list.Counted) :
    (sweep oldestEpoche rest front.length list).1.pending +
        (sweep oldestEpoche rest front.length list).2 = list.pending ∧
      (sweep oldestEpoche rest front.length list).1.Counted ∧
      (sweep oldestEpoche rest front.length list).1.localEpoche = list.localEpoche := by
  induction rest generalizing front list with
  | nil => exact ⟨by simp [sweep], counted, rfl⟩
  | cons cur rest ih =>
    rw [sweep]
    split
    · obtain ⟨same, counted', localEpoche⟩ :=
        ih front (headDeletionList_remove front labels) (counted.remove front labels)
      refine ⟨?_, counted', localEpoche⟩
      rw [← pending_remove front labels, ← same, ← Multiset.coe_add]
      ac_rfl
    · have next : (front ++ [cur]).length = front.length + 1 := by simp
      rw [← next]
      exact ih (front ++ [cur]) (by rw [labels, List.append_cons]) counted

/-- Once no thread has an epoch, every label is drained. -/
theorem drain_spec (labels : List (LabelDelete ν)) {list : DeletionList ν}
    (all : list.headDeletionList = labels) (counted : list.Counted) :
    ∃ drained ran, list.drain ⊤ labels = some (drained, ran) ∧
      (ran : Multiset ν) = list.pending ∧ drained.size = 0 ∧ drained.headDeletionList = [] := by
  induction labels generalizing list with
  | nil =>
    have none : list.pending = 0 := by simp [pending, all]
    exact ⟨list, [], rfl, none.symm, by rw [size, counted, none, Multiset.card_zero], all⟩
  | cons cur rest ih =>
    obtain ⟨drained, ran, ok, same, size, empty⟩ :=
      ih (headDeletionList_remove [] all) (counted.remove [] all)
    refine ⟨drained, cur.nodes ++ ran, ?_, ?_, size, empty⟩
    · have older : (cur.epoche : WithTop ℕ) < ⊤ := WithTop.coe_lt_top _
      rw [List.length_nil] at ok
      rw [drain, if_pos older, ok]
      rfl
    · rw [← pending_remove [] all, ← Multiset.coe_add, same, add_comm]

end DeletionList

/-! ## The lists of the threads -/

namespace Epoche

section Lists

variable {τ ν : Type} [DecidableEq τ] {s : Epoche τ ν} {t : τ} {busy : Set τ}

/-- The callbacks in the lists. -/
def pending (s : Epoche τ ν) : Multiset ν := ∑ t ∈ s.created, (s.deletionLists t).pending

/-- The threads of `busy` have a list, every list is counted, and the threads that are not
in `busy` have no epoch. -/
structure Quiet (busy : Set τ) (s : Epoche τ ν) : Prop where
  listed : ∀ t ∈ busy, t ∈ s.created
  counted : ∀ t ∈ s.created, (s.deletionLists t).Counted
  withdrawn : ∀ t ∈ s.created, t ∉ busy → (s.deletionLists t).localEpoche = ⊤

@[simp] theorem created_setList (s : Epoche τ ν) (t : τ) (list : DeletionList ν) :
    (s.setList t list).created = s.created := rfl

theorem deletionLists_setList (s : Epoche τ ν) (t u : τ) (list : DeletionList ν) :
    (s.setList t list).deletionLists u = if u = t then list else s.deletionLists u :=
  Function.update_apply ..

/-- One list is replaced. -/
theorem pending_setList (listed : t ∈ s.created) (list : DeletionList ν) :
    (s.setList t list).pending + (s.deletionLists t).pending = s.pending + list.pending := by
  have exchanged := Heap.sum_exchange listed (f := fun u => (s.deletionLists u).pending)
    (g := fun u => ((s.setList t list).deletionLists u).pending) fun u _ other => by
      rw [deletionLists_setList, if_neg other]
  rwa [deletionLists_setList, if_pos rfl] at exchanged

/-- A callback is added to one list. -/
theorem pending_setList_cons (listed : t ∈ s.created) {list : DeletionList ν} {callback : ν}
    (grown : list.pending = callback ::ₘ (s.deletionLists t).pending) :
    (s.setList t list).pending = callback ::ₘ s.pending := by
  have exchanged := pending_setList listed list
  rw [grown, Multiset.add_cons, ← Multiset.cons_add] at exchanged
  exact add_right_cancel exchanged

theorem Quiet.setList (quiet : s.Quiet busy) {list : DeletionList ν} (counted : list.Counted)
    (withdrawn : t ∉ busy → list.localEpoche = ⊤) : (s.setList t list).Quiet busy where
  listed := quiet.listed
  counted u listed := by
    rw [deletionLists_setList]
    split
    · exact counted
    · exact quiet.counted u listed
  withdrawn u listed idle := by
    rw [deletionLists_setList]
    split
    case isTrue same => exact withdrawn (same ▸ idle)
    case isFalse => exact quiet.withdrawn u listed idle

/-- The list of a busy thread changes in its other words only. -/
theorem Quiet.relist (quiet : s.Quiet busy) (here : t ∈ busy) (list : DeletionList ν)
    (labels : list.headDeletionList = (s.deletionLists t).headDeletionList)
    (count : list.deletitionListCount = (s.deletionLists t).deletitionListCount) :
    (s.setList t list).Quiet busy ∧ (s.setList t list).pending = s.pending := by
  have listed := quiet.listed t here
  have same : list.pending = (s.deletionLists t).pending := by
    rw [DeletionList.pending, labels, DeletionList.pending]
  have counted : list.Counted := by
    rw [DeletionList.Counted, count, same]
    exact quiet.counted t listed
  refine ⟨quiet.setList counted fun idle => absurd here idle, ?_⟩
  have exchanged := pending_setList listed list
  rw [same] at exchanged
  exact add_right_cancel exchanged

theorem Quiet.enterEpoche (quiet : s.Quiet busy) (here : t ∈ busy) :
    (s.enterEpoche t).Quiet busy ∧ (s.enterEpoche t).pending = s.pending :=
  quiet.relist here _ rfl rfl

theorem Quiet.markNodeForDeletion (quiet : s.Quiet busy) (here : t ∈ busy) (callback : ν) :
    (s.markNodeForDeletion t callback).Quiet busy ∧
      (s.markNodeForDeletion t callback).pending = callback ::ₘ s.pending := by
  have listed := quiet.listed t here
  have counted := (quiet.counted t listed).add callback s.currentEpoche
  exact ⟨quiet.setList counted fun idle => absurd here idle,
    pending_setList_cons listed (DeletionList.pending_add ..)⟩

/-- The sweep of a thread's own list. -/
theorem Quiet.sweep (quiet : s.Quiet busy) (here : t ∈ busy) (oldest : WithTop ℕ)
    {list : DeletionList ν} {ran : List ν}
    (swept : (s.deletionLists t).sweep oldest (s.deletionLists t).headDeletionList 0 =
      (list, ran)) :
    (s.setList t list).Quiet busy ∧ (s.setList t list).pending + ran = s.pending := by
  have listed := quiet.listed t here
  obtain ⟨taken, counted, -⟩ := DeletionList.sweep_spec oldest
    (s.deletionLists t).headDeletionList [] rfl (quiet.counted t listed)
  simp only [List.length_nil, swept] at taken counted
  refine ⟨quiet.setList counted fun idle => absurd here idle, ?_⟩
  have exchanged := pending_setList listed list
  rw [← taken, add_comm list.pending, ← add_assoc] at exchanged
  exact add_right_cancel exchanged

/-- The end of an operation runs the callbacks that it takes out of the lists. -/
theorem Quiet.exitEpocheAndCleanup (quiet : s.Quiet busy) (here : t ∈ busy) :
    (s.exitEpocheAndCleanup t).1.Quiet busy ∧
      (s.exitEpocheAndCleanup t).1.pending + (s.exitEpocheAndCleanup t).2 = s.pending := by
  obtain ⟨s', raised⟩ : ∃ s', (if (s.deletionLists t).thresholdCounter % 64 = 1 then
      { s with currentEpoche := s.currentEpoche + 1 } else s) = s' := ⟨_, rfl⟩
  have same : s'.Quiet busy ∧ s'.pending = s.pending := by
    rw [← raised]
    split
    · exact ⟨⟨quiet.listed, quiet.counted, quiet.withdrawn⟩, rfl⟩
    · exact ⟨quiet, rfl⟩
  obtain ⟨quiet', pending⟩ := same
  rw [Epoche.exitEpocheAndCleanup, raised, ← pending]
  dsimp only
  split
  · split
    · obtain ⟨reset, rest⟩ := quiet'.relist here
        { s'.deletionLists t with thresholdCounter := 0 } rfl rfl
      exact ⟨reset, (add_zero _).trans rest⟩
    · obtain ⟨stored, kept⟩ := quiet'.relist here
        { s'.deletionLists t with localEpoche := ⊤ } rfl rfl
      obtain ⟨cleaned, taken⟩ := Quiet.sweep (s := s'.storeLocal t ⊤) stored here
        (s'.storeLocal t ⊤).oldestEpoche rfl
      obtain ⟨reset, rest⟩ := cleaned.relist here
        { ((s'.storeLocal t ⊤).setList t _).deletionLists t with thresholdCounter := 0 } rfl rfl
      exact ⟨reset, (congrArg (· + _) rest).trans (taken.trans kept)⟩
  · exact ⟨quiet', add_zero _⟩

theorem Quiet.threadInfo (quiet : s.Quiet busy) (localEpoche : WithTop ℕ) :
    (s.threadInfo t localEpoche).Quiet (insert t busy) ∧
      (s.threadInfo t localEpoche).pending = s.pending := by
  rw [Epoche.threadInfo]
  split
  case isTrue listed =>
    refine ⟨⟨fun u mem => ?_, quiet.counted, fun u here idle => ?_⟩, rfl⟩
    · rcases mem with rfl | mem
      · exact listed
      · exact quiet.listed u mem
    · exact quiet.withdrawn u here fun mem => idle (Set.mem_insert_of_mem t mem)
  case isFalse new =>
    have others : ∀ u ∈ s.created,
        (s.setList t (.new localEpoche)).deletionLists u = s.deletionLists u := by
      intro u listed
      rw [deletionLists_setList, if_neg]
      rintro rfl
      exact new listed
    have here : (s.setList t (.new localEpoche)).deletionLists t = .new localEpoche := by
      rw [deletionLists_setList, if_pos rfl]
    refine ⟨⟨fun u mem => ?_, fun u mem => ?_, fun u mem idle => ?_⟩, ?_⟩
    · rcases mem with rfl | mem
      · exact Finset.mem_insert_self u _
      · exact Finset.mem_insert_of_mem (quiet.listed u mem)
    · change DeletionList.Counted ((s.setList t (.new localEpoche)).deletionLists u)
      rcases Finset.mem_insert.mp mem with rfl | mem
      · rw [here]
        rfl
      · rw [others u mem]
        exact quiet.counted u mem
    · have old : u ∈ s.created := Finset.mem_of_mem_insert_of_ne mem fun same =>
        idle (same ▸ Set.mem_insert t busy)
      exact (congrArg _ (others u old)).trans
        (quiet.withdrawn u old fun mem => idle (Set.mem_insert_of_mem t mem))
    · change ∑ u ∈ insert t s.created,
        DeletionList.pending ((s.setList t (.new localEpoche)).deletionLists u) = _
      rw [Finset.sum_insert new, here, Finset.sum_congr rfl fun u mem => by rw [others u mem]]
      exact zero_add _

theorem Quiet.dropThreadInfo (quiet : s.Quiet (insert t busy)) :
    (s.dropThreadInfo t).Quiet busy ∧ (s.dropThreadInfo t).pending = s.pending := by
  obtain ⟨stored, kept⟩ := quiet.relist (t := t) (Set.mem_insert t busy)
    { s.deletionLists t with localEpoche := ⊤ } rfl rfl
  refine ⟨⟨fun u mem => stored.listed u (Set.mem_insert_of_mem t mem), stored.counted,
    fun u listed idle => ?_⟩, kept⟩
  by_cases same : u = t
  · rw [same]
    exact congrArg DeletionList.localEpoche ((deletionLists_setList ..).trans (if_pos rfl))
  · refine stored.withdrawn u listed fun mem => ?_
    rcases mem with rfl | mem
    · exact same rfl
    · exact idle mem

omit [DecidableEq τ] in
/-- Once every thread has gone no epoch is left. -/
theorem Quiet.oldestEpoche (quiet : s.Quiet ∅) : s.oldestEpoche = ⊤ :=
  Finset.inf_eq_top_iff _ _ |>.mpr fun t listed => quiet.withdrawn t listed fun mem => mem

end Lists

/-! ## The end -/

variable {ν : Type} {s : Epoche ℕ ν}

/-- The lists are drained one after the other. -/
theorem Quiet.drainAll (quiet : s.Quiet ∅) (order : List ℕ) (listed : ∀ t ∈ order, t ∈ s.created) :
    ∃ drained, (order.mapM fun t => (s.deletionLists t).drain s.oldestEpoche
        (s.deletionLists t).headDeletionList) = some drained ∧
      (drained.all fun (list, _) => list.size == 0 && list.headDeletionList.isEmpty) = true ∧
      (drained.flatMap Prod.snd : Multiset ν) =
        (order.map fun t => (s.deletionLists t).pending).sum := by
  induction order with
  | nil => exact ⟨[], rfl, rfl, rfl⟩
  | cons t order ih =>
    obtain ⟨drained, rest, empty, same⟩ := ih fun u mem => listed u (List.mem_cons_of_mem t mem)
    obtain ⟨list, ran, ok, taken, size, labels⟩ := DeletionList.drain_spec
      (s.deletionLists t).headDeletionList rfl (quiet.counted t (listed t List.mem_cons_self))
    rw [quiet.oldestEpoche] at rest ⊢
    refine ⟨(list, ran) :: drained, ?_, ?_, ?_⟩
    · rw [List.mapM_cons, ok, rest]
      rfl
    · rw [List.all_cons, empty]
      simp [size, labels]
    · rw [List.flatMap_cons, List.map_cons, List.sum_cons, ← same, ← taken, Multiset.coe_add]

/-- Once every thread has gone `~Epoche` runs the callbacks that are left. -/
theorem Quiet.destroy (quiet : s.Quiet ∅) :
    ∃ ran, s.destroy = some ran ∧ (ran : Multiset ν) = s.pending := by
  obtain ⟨drained, ok, empty, same⟩ := quiet.drainAll (s.created.sort (· ≤ ·))
    fun t mem => (Finset.mem_sort _).mp mem
  refine ⟨drained.flatMap Prod.snd, ?_, same.trans ?_⟩
  · rw [Epoche.destroy]
    simp only [ok, Option.bind_eq_bind, Option.bind_some, empty, if_true]
  · rw [← Multiset.sum_coe, ← Multiset.map_coe, Finset.sort_eq]
    rfl

end Epoche

end TurboHash
