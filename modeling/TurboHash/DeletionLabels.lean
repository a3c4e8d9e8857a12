import TurboHash.Lib.LinkedList
import TurboHash.Pending

/-!
# The labels of a deletion list

A deletion list keeps its callbacks in labels of 32, which a cleanup unlinks while it
walks over them, and which `add` takes again from the list of free labels. This is the
list as it lies in memory: labels with `next` pointers, and counters of 64 bits. `Shows`
relates it to the list of labels of the protocol.
-/

namespace TurboHash.Labels

open LinkedList Simulation

/-- How a pass ends before its time. -/
inductive Stop
  | outOfFuel
  | assertion
deriving DecidableEq

/-- `LabelDelete`; `nodes` has 32 elements. -/
structure LabelDelete (ν : Type) where
  nodes : Nat → ν
  epoche : UInt64
  nodesCount : Nat
  next : Option Nat

/-- The callbacks that a cleanup runs. -/
def LabelDelete.callbacks {ν : Type} (label : LabelDelete ν) : List ν :=
  (List.range label.nodesCount).map label.nodes

/-- What `add` stores to the label that it has chosen. -/
def LabelDelete.store {ν : Type} (label : LabelDelete ν) (callback : ν) (globalEpoch : UInt64) :
    LabelDelete ν :=
  { label with
    nodes := Function.update label.nodes label.nodesCount callback
    nodesCount := label.nodesCount + 1
    epoche := globalEpoch }

/-- `DeletionList`, with the memory of the labels and the allocations of this memory. -/
structure DeletionList (ν : Type) where
  labels : Nat → LabelDelete ν
  heap : List (Heap.Event Nat)
  headDeletionList : Option Nat
  freeLabelDeletes : Option Nat
  deletitionListCount : UInt64
  deleted : UInt64
  added : UInt64

namespace DeletionList

variable {ν : Type}

/-- A new list; nothing is said of the memory that is not allocated. -/
def new (labels : Nat → LabelDelete ν) : DeletionList ν := ⟨labels, [], none, none, 0, 0, 0⟩

/-- `size`. -/
def size (d : DeletionList ν) : UInt64 := d.deletitionListCount

def setLabel (d : DeletionList ν) (a : Nat) (label : LabelDelete ν) : DeletionList ν :=
  { d with labels := Function.update d.labels a label }

/-- `remove`. -/
def remove (d : DeletionList ν) (label : Nat) (prev : Option Nat) : DeletionList ν :=
  let next := (d.labels label).next
  let d := match prev with
    | none => { d with headDeletionList := next }
    | some prev => d.setLabel prev { d.labels prev with next }
  let d := { d with deletitionListCount :=
    d.deletitionListCount - UInt64.ofNat (d.labels label).nodesCount }
  let d := d.setLabel label { d.labels label with next := d.freeLabelDeletes }
  { d with
    freeLabelDeletes := some label
    deleted := d.deleted + UInt64.ofNat (d.labels label).nodesCount }

/-- The branch of `add` that puts a new label, or a free one, at the front. -/
def takeLabel (A : Heap.Allocator Nat) (d : DeletionList ν) : Nat × DeletionList ν :=
  let (label, d) := match d.freeLabelDeletes with
    | some label => (label, { d with freeLabelDeletes := (d.labels label).next })
    | none => (A.next d.heap, { d with heap := .allocate (A.next d.heap) :: d.heap })
  let d := d.setLabel label
    { d.labels label with nodesCount := 0, next := d.headDeletionList }
  (label, { d with headDeletionList := some label })

/-- The label that `add` uses. -/
def chooseLabel (A : Heap.Allocator Nat) (d : DeletionList ν) : Nat × DeletionList ν :=
  match d.headDeletionList with
  | some head => if (d.labels head).nodesCount < 32 then (head, d) else d.takeLabel A
  | none => d.takeLabel A

/-- `add`. -/
def add (A : Heap.Allocator Nat) (d : DeletionList ν) (callback : ν) (globalEpoch : UInt64) :
    DeletionList ν :=
  let d := { d with deletitionListCount := d.deletitionListCount + 1 }
  let (label, d) := d.chooseLabel A
  let d := d.setLabel label ((d.labels label).store callback globalEpoch)
  { d with added := d.added + 1 }

/-- The loop of `exitEpocheAndCleanup`, with the callbacks it runs. -/
def cleanupLoop (oldestEpoche : UInt64) :
    Nat → DeletionList ν → Option Nat → Option Nat → Except Stop (DeletionList ν × List ν)
  | _, d, none, _ => .ok (d, [])
  | 0, _, some _, _ => .error .outOfFuel
  | rounds + 1, d, some cur, prev => do
    let next := (d.labels cur).next
    if (d.labels cur).epoche < oldestEpoche then
      let ran := (d.labels cur).callbacks
      let (d, later) ← cleanupLoop oldestEpoche rounds (d.remove cur prev) next prev
      return (d, ran ++ later)
    else cleanupLoop oldestEpoche rounds d next (some cur)

/-- A cleanup pass. -/
def cleanup (fuel : Nat) (oldestEpoche : UInt64) (d : DeletionList ν) :
    Except Stop (DeletionList ν × List ν) :=
  cleanupLoop oldestEpoche fuel d d.headDeletionList none

/-- The loop of `~Epoche`, where `prev` stays the null pointer. The assertion compares with
`oldestEpoche`; `none` is a build without assertions. -/
def drainLoop (oldestEpoche : Option UInt64) :
    Nat → DeletionList ν → Option Nat → Except Stop (DeletionList ν × List ν)
  | _, d, none => .ok (d, [])
  | 0, _, some _ => .error .outOfFuel
  | rounds + 1, d, some cur => do
    let next := (d.labels cur).next
    if oldestEpoche.any fun oldest => oldest ≤ (d.labels cur).epoche then throw .assertion
    let ran := (d.labels cur).callbacks
    let (d, later) ← drainLoop oldestEpoche rounds (d.remove cur none) next
    return (d, ran ++ later)

/-- The final pass. -/
def drain (fuel : Nat) (oldestEpoche : Option UInt64) (d : DeletionList ν) :
    Except Stop (DeletionList ν × List ν) :=
  drainLoop oldestEpoche fuel d d.headDeletionList

end DeletionList

/-- What happens to a deletion list. -/
inductive ListAction (ν : Type)
  | add (callback : ν) (globalEpoch : UInt64)
  | cleanup (oldestEpoche : UInt64)

/-- One action, and the callbacks that it runs. -/
def exec {ν : Type} (A : Heap.Allocator Nat) (fuel : Nat) (d : DeletionList ν) :
    ListAction ν → Except Stop (DeletionList ν × List ν)
  | .add callback globalEpoch => .ok (d.add A callback globalEpoch, [])
  | .cleanup oldestEpoche => d.cleanup fuel oldestEpoche

/-! ## The pointers -/

namespace DeletionList

variable {ν : Type} {A : Heap.Allocator Nat} {d d' : DeletionList ν} {a : Nat}
  {active spare : List Nat}

/-- The links of the labels. -/
def next (d : DeletionList ν) (a : Nat) : Option Nat := (d.labels a).next

/-- The labels `active` are in use and the labels `spare` are free, in two lists without cycles
that share no label. -/
structure Linked (d : DeletionList ν) (active spare : List Nat) : Prop where
  head : Segment d.next d.headDeletionList active none
  free : Segment d.next d.freeLabelDeletes spare none
  nodup : (active ++ spare).Nodup
  inUse : ∀ a ∈ active ++ spare, a ∈ Heap.inUse d.heap

theorem next_setLabel (d : DeletionList ν) (a : Nat) (label : LabelDelete ν) :
    (d.setLabel a label).next = Function.update d.next a label.next := by
  funext b
  change (Function.update d.labels a label b).next = _
  rw [Function.update_apply, Function.update_apply]
  split <;> rfl

theorem Linked.new (labels : Nat → LabelDelete ν) : (DeletionList.new labels).Linked [] [] :=
  ⟨rfl, rfl, List.nodup_nil, nofun⟩

/-- Nothing but the links and the two heads decides. -/
theorem Linked.congr (linked : d.Linked active spare) (next : d'.next = d.next)
    (head : d'.headDeletionList = d.headDeletionList)
    (free : d'.freeLabelDeletes = d.freeLabelDeletes) (heap : d'.heap = d.heap) :
    d'.Linked active spare where
  head := by
    rw [next, head]
    exact linked.head
  free := by
    rw [next, free]
    exact linked.free
  nodup := linked.nodup
  inUse := heap ▸ linked.inUse

/-- A store to a label that leaves its link alone. -/
theorem Linked.setLabel (linked : d.Linked active spare) {label : LabelDelete ν}
    (same : label.next = (d.labels a).next) : (d.setLabel a label).Linked active spare := by
  refine linked.congr ?_ rfl rfl rfl
  rw [next_setLabel, same]
  exact Function.update_eq_self ..

/-- The new label is at the front, is empty, and is none of the others. -/
theorem Linked.takeLabel (linked : d.Linked active spare) (A : Heap.Allocator Nat) :
    ∃ spare', (d.takeLabel A).2.Linked ((d.takeLabel A).1 :: active) spare' ∧
      ((d.takeLabel A).2.labels (d.takeLabel A).1).nodesCount = 0 ∧
      ∀ a ∈ active, (d.takeLabel A).2.labels a = d.labels a := by
  have start := linked.free.head?_eq
  cases spare with
  | nil =>
    rw [List.head?_nil] at start
    have taken : d.takeLabel A = (A.next d.heap,
        { ({ d with heap := .allocate (A.next d.heap) :: d.heap } : DeletionList ν).setLabel
          (A.next d.heap) { d.labels (A.next d.heap) with
            nodesCount := 0, next := d.headDeletionList } with
          headDeletionList := some (A.next d.heap) }) := by
      rw [DeletionList.takeLabel, start]
    have new : A.next d.heap ∉ active := fun mem =>
      A.fresh d.heap (linked.inUse _ (List.mem_append_left _ mem))
    rw [taken]
    refine ⟨[], ⟨?_, start, ?_, fun b mem => ?_⟩, ?_, fun b mem => ?_⟩
    · change Segment (DeletionList.setLabel _ _ _).next _ _ _
      rw [next_setLabel]
      exact linked.head.push new
    · rw [List.append_nil]
      exact List.nodup_cons.mpr ⟨new, (List.append_nil active) ▸ linked.nodup⟩
    · rw [List.append_nil] at mem
      rcases List.mem_cons.mp mem with rfl | mem
      · exact List.mem_cons_self
      · exact List.mem_cons_of_mem _ (linked.inUse b (List.mem_append_left _ mem))
    · change (Function.update d.labels _ _ _).nodesCount = 0
      rw [Function.update_self]
    · have different : b ≠ _ := ne_of_mem_of_not_mem mem new
      exact Function.update_of_ne different ..
  | cons f spare =>
    rw [List.head?_cons] at start
    have taken : d.takeLabel A = (f,
        { ({ d with freeLabelDeletes := (d.labels f).next } : DeletionList ν).setLabel f
          { d.labels f with nodesCount := 0, next := d.headDeletionList } with
          headDeletionList := some f }) := by
      rw [DeletionList.takeLabel, start]
    rcases List.nodup_cons.mp (List.nodup_middle.mp linked.nodup) with ⟨other, distinct⟩
    have new : f ∉ active := fun mem => other (List.mem_append_left _ mem)
    rw [taken]
    refine ⟨spare, ⟨?_, ?_, List.nodup_middle.mp linked.nodup, fun b mem => ?_⟩, ?_, fun b mem => ?_⟩
    · change Segment (DeletionList.setLabel _ _ _).next _ _ _
      rw [next_setLabel]
      exact linked.head.push new
    · change Segment (DeletionList.setLabel _ _ _).next _ _ _
      rw [next_setLabel]
      exact linked.free.2.update fun mem => other (List.mem_append_right _ mem)
    · refine linked.inUse b ?_
      rw [List.cons_append, List.mem_cons, List.mem_append] at mem
      rw [List.mem_append, List.mem_cons]
      tauto
    · change (Function.update d.labels _ _ _).nodesCount = 0
      rw [Function.update_self]
    · have different : b ≠ _ := ne_of_mem_of_not_mem mem new
      exact Function.update_of_ne different ..

theorem next_remove (d : DeletionList ν) (a : Nat) (prev : Option Nat) :
    (d.remove a prev).next = Function.update
      (match prev with
        | none => d.next
        | some b => Function.update d.next b (d.next a)) a d.freeLabelDeletes := by
  cases prev with
  | none => exact next_setLabel ..
  | some b =>
    refine (next_setLabel ..).trans ?_
    change Function.update (DeletionList.setLabel _ _ _).next _ _ = _
    rw [next_setLabel]
    rfl

/-- A label is unlinked and put at the front of the free ones. -/
theorem Linked.remove {front rest : List Nat} (linked : d.Linked (front ++ a :: rest) spare) :
    (d.remove a front.getLast?).Linked (front ++ rest) (a :: spare) := by
  have nodup := linked.nodup
  rw [List.append_assoc, List.cons_append] at nodup
  rcases List.nodup_cons.mp (List.nodup_middle.mp nodup) with ⟨other, distinct⟩
  have outside : a ∉ front ∧ a ∉ rest ∧ a ∉ spare := by
    simpa [not_or] using other
  have nodup' : (front ++ rest ++ a :: spare).Nodup := by
    rw [List.nodup_middle, List.append_assoc]
    exact List.nodup_cons.mpr ⟨other, distinct⟩
  have inUse : ∀ b ∈ front ++ rest ++ a :: spare, b ∈ Heap.inUse (d.remove a front.getLast?).heap := by
    intro b mem
    have same : (d.remove a front.getLast?).heap = d.heap := by
      cases front.getLast? <;> rfl
    rw [same]
    refine linked.inUse b ?_
    simp only [List.mem_append, List.mem_cons] at mem ⊢
    tauto
  rcases List.eq_nil_or_concat front with rfl | ⟨front, b, rfl⟩
  · refine ⟨?_, ?_, nodup', inUse⟩
    · rw [List.getLast?_nil, next_remove]
      exact linked.head.2.update outside.2.1
    · rw [List.getLast?_nil, next_remove]
      exact linked.free.push outside.2.2
  · rw [List.concat_eq_append] at *
    have last : (front ++ [b]).getLast? = some b := List.getLast?_concat
    have unused : b ∉ spare := by
      intro mem
      rcases List.nodup_append.mp distinct with ⟨-, -, apart⟩
      exact apart b (List.mem_append_right _ List.mem_cons_self) b (List.mem_append_right _ mem) rfl
    have head := linked.head
    have nodupActive := (List.nodup_append.mp linked.nodup).1
    rw [List.append_assoc] at head nodupActive
    refine ⟨?_, ?_, nodup', inUse⟩
    · rw [last, next_remove]
      refine Segment.update ?_ ?_
      · rw [List.append_assoc]
        exact head.unlink nodupActive
      · rw [List.mem_append, not_or]
        exact ⟨outside.1, outside.2.1⟩
    · rw [last, next_remove]
      exact (linked.free.update unused).push outside.2.2

end DeletionList

/-! ## The callbacks -/

section Callbacks

variable {ν : Type} {label label' : LabelDelete ν}

theorem LabelDelete.length_callbacks (label : LabelDelete ν) :
    label.callbacks.length = label.nodesCount := by
  rw [callbacks, List.length_map, List.length_range]

/-- The label holds the callbacks of `l`, each of which is listed there with its epoch, and has its
epoch. -/
def LabelDelete.Shows (label : LabelDelete ν) (l : TurboHash.LabelDelete (ν × UInt64)) : Prop :=
  label.callbacks = l.nodes.map Prod.fst ∧ label.epoche.toNat = l.epoche

/-- The labels have the same contents; the link is none of them. -/
def LabelDelete.Same (label label' : LabelDelete ν) : Prop :=
  label'.nodes = label.nodes ∧ label'.nodesCount = label.nodesCount ∧ label'.epoche = label.epoche

theorem LabelDelete.Same.trans {label'' : LabelDelete ν} (first : label.Same label')
    (second : label'.Same label'') : label.Same label'' :=
  ⟨second.1.trans first.1, second.2.1.trans first.2.1, second.2.2.trans first.2.2⟩

theorem LabelDelete.Shows.congr {l : TurboHash.LabelDelete (ν × UInt64)} (shows : label.Shows l)
    (same : label.Same label') : label'.Shows l := by
  rcases same with ⟨nodes, count, epoche⟩
  rw [Shows, callbacks, nodes, count, epoche]
  exact shows

theorem LabelDelete.Shows.nodesCount {l : TurboHash.LabelDelete (ν × UInt64)}
    (shows : label.Shows l) : label.nodesCount = l.nodes.length := by
  rw [← label.length_callbacks, shows.1, List.length_map]

theorem LabelDelete.callbacks_store (label : LabelDelete ν) (callback : ν) (globalEpoch : UInt64) :
    (label.store callback globalEpoch).callbacks = label.callbacks ++ [callback] := by
  change (List.range (label.nodesCount + 1)).map (Function.update label.nodes _ callback) = _
  rw [List.range_succ, List.map_append, List.map_singleton, Function.update_self, callbacks]
  congr 1
  refine List.map_congr_left fun i mem => ?_
  exact Function.update_of_ne (List.mem_range.mp mem).ne ..

end Callbacks

namespace DeletionList

variable {ν : Type} {A : Heap.Allocator Nat} {d d' : DeletionList ν}
  {l : TurboHash.DeletionList (ν × UInt64)} {a : Nat} {active spare : List Nat}

/-- The labels `active` hold the callbacks of the list `ls`. -/
def Shown (m : Nat → LabelDelete ν) (active : List Nat)
    (ls : List (TurboHash.LabelDelete (ν × UInt64))) : Prop :=
  List.Forall₂ (fun a label => (m a).Shows label) active ls

theorem Shown.congr {m m' : Nat → LabelDelete ν} {ls : List (TurboHash.LabelDelete (ν × UInt64))}
    (shown : Shown m active ls) (same : ∀ a ∈ active, ∀ label, (m a).Shows label →
      (m' a).Shows label) : Shown m' active ls := by
  induction shown with
  | nil => exact .nil
  | cons head _ ih =>
    refine .cons (same _ List.mem_cons_self _ head) (ih fun a mem => ?_)
    exact same a (List.mem_cons_of_mem _ mem)

/-- The counters are those of the list `l`, modulo 2^64. -/
structure Counts (d : DeletionList ν) (l : TurboHash.DeletionList (ν × UInt64)) : Prop where
  size : d.size = UInt64.ofNat l.size
  deleted : d.deleted = UInt64.ofNat l.deleted
  added : d.added = UInt64.ofNat l.added

/-- The memory holds the deletion list `l` of the protocol. -/
structure Shows (d : DeletionList ν) (active spare : List Nat)
    (l : TurboHash.DeletionList (ν × UInt64)) : Prop where
  linked : d.Linked active spare
  labels : Shown d.labels active l.headDeletionList
  counts : d.Counts l

theorem takeLabel_counts (d : DeletionList ν) (A : Heap.Allocator Nat) :
    (d.takeLabel A).2.size = d.size ∧ (d.takeLabel A).2.deleted = d.deleted ∧
      (d.takeLabel A).2.added = d.added := by
  rw [takeLabel]
  cases d.freeLabelDeletes <;> exact ⟨rfl, rfl, rfl⟩

theorem chooseLabel_counts (d : DeletionList ν) (A : Heap.Allocator Nat) :
    (d.chooseLabel A).2.size = d.size ∧ (d.chooseLabel A).2.deleted = d.deleted ∧
      (d.chooseLabel A).2.added = d.added := by
  rw [chooseLabel]
  split
  · split
    · exact ⟨rfl, rfl, rfl⟩
    · exact d.takeLabel_counts A
  · exact d.takeLabel_counts A

/-- The label `chosen.1` is the one that gets `entry` in the protocol, where the labels are `ls`. -/
def Chosen (chosen : Nat × DeletionList ν) (ls : List (TurboHash.LabelDelete (ν × UInt64)))
    (entry : ν × UInt64) (epoche count : Nat) : Prop :=
  ∃ rest spare first later fits, chosen.2.Linked (chosen.1 :: rest) spare ∧
    Shown chosen.2.labels rest later ∧
    (chosen.2.labels chosen.1).callbacks = first.map Prod.fst ∧
    TurboHash.DeletionList.addLabel entry epoche ls = ⟨first ++ [entry], epoche, fits⟩ :: later ∧
    rest.length ≤ count

section Choose

variable {ls : List (TurboHash.LabelDelete (ν × UInt64))}

theorem Linked.chosen_takeLabel (linked : d.Linked active spare)
    (shown : Shown d.labels active ls) (A : Heap.Allocator Nat) {entry : ν × UInt64} {epoche : Nat}
    (labels : TurboHash.DeletionList.addLabel entry epoche ls = ⟨[entry], epoche, by simp⟩ :: ls) :
    Chosen (d.takeLabel A) ls entry epoche active.length := by
  rcases linked.takeLabel A with ⟨spare', linked', empty, kept⟩
  refine ⟨active, spare', [], ls, by simp, linked', shown.congr fun a mem label holds => ?_, ?_,
    labels, le_rfl⟩
  · rwa [kept a mem]
  · rw [LabelDelete.callbacks, empty]
    rfl

/-- `add` chooses the label of the protocol. -/
theorem Linked.chosen (linked : d.Linked active spare) (shown : Shown d.labels active ls)
    (A : Heap.Allocator Nat) (entry : ν × UInt64) (epoche : Nat) :
    Chosen (d.chooseLabel A) ls entry epoche active.length := by
  have start := linked.head.head?_eq
  cases shown with
  | nil =>
    have chosen : d.chooseLabel A = d.takeLabel A := by
      rw [chooseLabel, start]
      rfl
    rw [chosen]
    exact linked.chosen_takeLabel .nil A rfl
  | @cons a label rest later holds others =>
    have count := holds.nodesCount
    have chosen : d.chooseLabel A =
        if (d.labels a).nodesCount < 32 then (a, d) else d.takeLabel A := by
      rw [chooseLabel, start]
      rfl
    rw [chosen]
    split
    case isTrue room =>
      rw [count] at room
      refine ⟨rest, spare, label.nodes, later, ?_, linked, others, holds.1, ?_, Nat.le_succ _⟩
      · rwa [List.length_append]
      · exact dif_pos room
    case isFalse full =>
      rw [count] at full
      exact linked.chosen_takeLabel (.cons holds others) A (dif_neg full)

end Choose

/-- `add` is the `add` of the protocol. -/
theorem Shows.add (shows : d.Shows active spare l) (A : Heap.Allocator Nat) (callback : ν)
    (globalEpoch : UInt64) : ∃ active' spare',
      (d.add A callback globalEpoch).Shows active' spare'
        (l.add (callback, globalEpoch) globalEpoch.toNat) ∧ active'.length ≤ active.length + 1 := by
  have linked : { d with deletitionListCount := d.deletitionListCount + 1 }.Linked active spare :=
    shows.linked.congr rfl rfl rfl rfl
  rcases linked.chosen shows.labels A (callback, globalEpoch) globalEpoch.toNat with
    ⟨rest, spare', first, later, fits, linked', others, holds, labels, count⟩
  rcases chooseLabel_counts { d with deletitionListCount := d.deletitionListCount + 1 } A with
    ⟨size, deleted, added⟩
  have result : d.add A callback globalEpoch =
      let chosen := chooseLabel A { d with deletitionListCount := d.deletitionListCount + 1 }
      { chosen.2.setLabel chosen.1 ((chosen.2.labels chosen.1).store callback globalEpoch) with
        added := chosen.2.added + 1 } := rfl
  rw [result]
  generalize chooseLabel A { d with deletitionListCount := d.deletitionListCount + 1 } = chosen at *
  rcases chosen with ⟨label, d₁⟩
  have other : label ∉ rest := (List.nodup_cons.mp (List.nodup_append.mp linked'.nodup).1).1
  refine ⟨label :: rest, spare', ⟨?_, ?_, ?_, ?_, ?_⟩, Nat.succ_le_succ count⟩
  · exact Linked.congr (d := d₁.setLabel label ((d₁.labels label).store callback globalEpoch))
      (linked'.setLabel rfl) rfl rfl rfl rfl
  · change Shown (Function.update d₁.labels label _) _ (TurboHash.DeletionList.addLabel _ _ _)
    rw [labels]
    refine .cons ⟨?_, ?_⟩ (Shown.congr others fun a mem shown holds => ?_)
    · rw [Function.update_self, LabelDelete.callbacks_store, holds, List.map_append]
      rfl
    · rw [Function.update_self]
      rfl
    · rwa [Function.update_of_ne (ne_of_mem_of_not_mem mem other)]
  · change d₁.size = UInt64.ofNat (l.size + 1)
    rw [size, UInt64.ofNat_add, ← shows.counts.size]
    rfl
  · change d₁.deleted = _
    rw [deleted]
    exact shows.counts.deleted
  · change d₁.added + 1 = UInt64.ofNat (l.added + 1)
    rw [added, UInt64.ofNat_add, ← shows.counts.added]
    rfl

/-! ## A pass over the labels -/

/-- A store to the link of a label leaves the contents of all of them alone. -/
theorem same_setLabel (d : DeletionList ν) (a : Nat) (next : Option Nat) (b : Nat) :
    (d.labels b).Same ((d.setLabel a { d.labels a with next }).labels b) := by
  change (d.labels b).Same (Function.update d.labels a _ b)
  rw [Function.update_apply]
  split
  case isTrue here => exact here ▸ ⟨rfl, rfl, rfl⟩
  case isFalse => exact ⟨rfl, rfl, rfl⟩

/-- `remove` changes no more of the labels than their links. -/
theorem same_remove (d : DeletionList ν) (a : Nat) (prev : Option Nat) (b : Nat) :
    (d.labels b).Same ((d.remove a prev).labels b) := by
  cases prev with
  | none => exact same_setLabel d a _ b
  | some prev =>
    have first := same_setLabel d prev (d.labels a).next b
    exact first.trans (same_setLabel { d.setLabel prev _ with deletitionListCount := _ } a _ b)

theorem Shown.remove {ls : List (TurboHash.LabelDelete (ν × UInt64))}
    (shown : Shown d.labels active ls) (a : Nat) (prev : Option Nat) :
    Shown (d.remove a prev).labels active ls :=
  shown.congr fun b _ _ holds => holds.congr (d.same_remove a prev b)

/-- The counters after `remove`. -/
theorem Counts.remove (counts : d.Counts l) {label : TurboHash.LabelDelete (ν × UInt64)}
    (holds : (d.labels a).Shows label) (enough : label.nodes.length ≤ l.deletitionListCount)
    (prev : Option Nat) (k : Nat) : (d.remove a prev).Counts (l.remove label k) := by
  have count := holds.nodesCount
  have size : (d.remove a prev).size = d.size - UInt64.ofNat (d.labels a).nodesCount := by
    cases prev with
    | none => rfl
    | some prev => rw [← (same_setLabel d prev (d.labels a).next a).2.1]; rfl
  have deleted : (d.remove a prev).deleted = d.deleted + UInt64.ofNat (d.labels a).nodesCount := by
    rw [← (d.same_remove a prev a).2.1]
    cases prev <;> rfl
  refine ⟨?_, ?_, ?_⟩
  · rw [size, counts.size, count]
    exact (UInt64.ofNat_sub enough).symm
  · rw [deleted, counts.deleted, count]
    exact (UInt64.ofNat_add ..).symm
  · cases prev <;> exact counts.added

/-- The next label of a pass. -/
theorem Linked.next_eq {front rest : List Nat} (linked : d.Linked (front ++ a :: rest) spare) :
    (d.labels a).next = rest.head? := by
  rcases segment_append.mp linked.head with ⟨r, -, -, tail⟩
  exact tail.head?_eq

theorem Shown.callbacks_eq {ls : List (TurboHash.LabelDelete (ν × UInt64))}
    {m : Nat → LabelDelete ν} (shown : Shown m active ls) :
    active.flatMap (fun a => (m a).callbacks) =
      (ls.flatMap TurboHash.LabelDelete.nodes).map Prod.fst := by
  induction shown with
  | nil => rfl
  | cons holds _ ih => rw [List.flatMap_cons, List.flatMap_cons, List.map_append, ih, holds.1]

theorem Shown.append {rest : List Nat} {ls ls' : List (TurboHash.LabelDelete (ν × UInt64))}
    {m : Nat → LabelDelete ν} (first : Shown m active ls) (second : Shown m rest ls') :
    Shown m (active ++ rest) (ls ++ ls') :=
  List.rel_append first second

/-- A label that is unlinked in the protocol is unlinked in memory. -/
theorem Shows.removed {front rest : List Nat}
    {before after : List (TurboHash.LabelDelete (ν × UInt64))}
    {label : TurboHash.LabelDelete (ν × UInt64)} (linked : d.Linked (front ++ a :: rest) spare)
    (counts : d.Counts l) (first : Shown d.labels front before)
    (second : Shown d.labels (a :: rest) (label :: after))
    (labels : l.headDeletionList = before ++ label :: after) (counted : l.Counted) :
    (d.remove a front.getLast?).Linked (front ++ rest) (a :: spare) ∧
      (d.remove a front.getLast?).Counts (l.remove label before.length) ∧
      Shown (d.remove a front.getLast?).labels front before ∧
      Shown (d.remove a front.getLast?).labels rest after := by
  rcases List.forall₂_cons.mp second with ⟨holds, others⟩
  have enough := counted.length_le before labels
  exact ⟨linked.remove, counts.remove holds enough _ _, first.remove a _, Shown.remove others a _⟩

/-- A cleanup pass runs the callbacks that the pass of the protocol runs, and leaves the list that
it leaves. -/
theorem cleanupLoop_spec (oldestEpoche : UInt64) {rounds : Nat} {front rest : List Nat}
    {before after : List (TurboHash.LabelDelete (ν × UInt64))}
    (linked : d.Linked (front ++ rest) spare) (counts : d.Counts l)
    (first : Shown d.labels front before) (second : Shown d.labels rest after)
    (labels : l.headDeletionList = before ++ after) (counted : l.Counted)
    (enough : rest.length ≤ rounds) : ∃ d' active' spare',
      cleanupLoop oldestEpoche rounds d rest.head? front.getLast? = .ok (d',
        (TurboHash.DeletionList.sweep oldestEpoche.toNat after before.length l).2.map Prod.fst) ∧
      d'.Shows active' spare'
        (TurboHash.DeletionList.sweep oldestEpoche.toNat after before.length l).1 ∧
      active'.length ≤ (front ++ rest).length := by
  induction after generalizing rest front before d l spare rounds with
  | nil =>
    cases second
    have whole : Shown d.labels (front ++ []) l.headDeletionList := labels ▸ first.append .nil
    cases rounds <;> exact ⟨d, _, spare, rfl, ⟨linked, whole, counts⟩, le_rfl⟩
  | cons label after ih =>
    rcases List.forall₂_cons_right_iff.mp second with ⟨a, rest, holds, others, rfl⟩
    obtain ⟨rounds, rfl⟩ := Nat.exists_eq_succ_of_ne_zero (Nat.ne_zero_of_lt enough)
    have older : (d.labels a).epoche < oldestEpoche ↔
        (label.epoche : WithTop ℕ) < (oldestEpoche.toNat : WithTop ℕ) := by
      rw [UInt64.lt_iff_toNat_lt, holds.2]
      exact Nat.cast_lt.symm
    rw [List.head?_cons, cleanupLoop, TurboHash.DeletionList.sweep, linked.next_eq]
    by_cases old : (d.labels a).epoche < oldestEpoche
    · rcases Shows.removed linked counts first second labels counted with
        ⟨linked', counts', first', others'⟩
      rcases ih linked' counts' first' others'
        (TurboHash.DeletionList.headDeletionList_remove before labels)
        (counted.remove before labels) (Nat.le_of_succ_le_succ enough) with
        ⟨d', active', spare', ok, shows, count⟩
      refine ⟨d', active', spare', ?_, ?_, count.trans (by simp)⟩
      · rw [if_pos old, if_pos (older.mp old), ok, holds.1]
        change Except.ok (d', _ ++ _) = _
        rw [← List.map_append]
      · rw [if_pos (older.mp old)]
        exact shows
    · have next : (before ++ [label]).length = before.length + 1 := List.length_append
      rw [List.append_cons] at linked labels
      rcases ih linked counts (first.append (.cons holds .nil)) others labels counted
        (Nat.le_of_succ_le_succ enough) with ⟨d', active', spare', ok, shows, count⟩
      rw [List.getLast?_concat] at ok
      rw [next] at ok shows
      refine ⟨d', active', spare', ?_, ?_, count.trans_eq (by simp)⟩
      · rw [if_neg old, if_neg (older.not.mp old)]
        exact ok
      · rw [if_neg (older.not.mp old)]
        exact shows

/-- The final pass runs everything that is left, if no assertion fails. -/
theorem drainLoop_spec {oldestEpoche : Option UInt64} {rounds : Nat}
    {ls : List (TurboHash.LabelDelete (ν × UInt64))} (linked : d.Linked active spare)
    (counts : d.Counts l) (shown : Shown d.labels active ls) (labels : l.headDeletionList = ls)
    (counted : l.Counted)
    (older : ∀ oldest ∈ oldestEpoche, ∀ label ∈ ls, label.epoche < oldest.toNat)
    (enough : active.length ≤ rounds) : ∃ d',
      drainLoop oldestEpoche rounds d active.head? =
        .ok (d', (ls.flatMap TurboHash.LabelDelete.nodes).map Prod.fst) ∧
      d'.headDeletionList = none ∧ d'.size = 0 := by
  induction ls generalizing d l active spare rounds with
  | nil =>
    cases shown
    have none : l.size = 0 := by
      rw [TurboHash.DeletionList.size, counted, TurboHash.DeletionList.pending, labels]
      rfl
    have size : d.size = 0 := by
      rw [counts.size, none]
      rfl
    cases rounds <;> exact ⟨d, rfl, linked.head, size⟩
  | cons label ls ih =>
    rcases List.forall₂_cons_right_iff.mp shown with ⟨a, rest, holds, others, rfl⟩
    obtain ⟨rounds, rfl⟩ := Nat.exists_eq_succ_of_ne_zero (Nat.ne_zero_of_lt enough)
    have whole : d.Linked ([] ++ a :: rest) spare := linked
    rcases Shows.removed whole counts .nil shown labels counted with
      ⟨linked', counts', -, others'⟩
    rcases ih linked' counts' others' (TurboHash.DeletionList.headDeletionList_remove [] labels)
      (counted.remove [] labels) (fun oldest mem label' here => older oldest mem label'
        (List.mem_cons_of_mem _ here)) (Nat.le_of_succ_le_succ enough) with ⟨d', ok, empty, size⟩
    have passes : (oldestEpoche.any fun oldest => oldest ≤ (d.labels a).epoche) = false := by
      cases oldestEpoche with
      | none => rfl
      | some oldest =>
        have less := older oldest rfl label List.mem_cons_self
        rw [← holds.2, ← UInt64.lt_iff_toNat_lt, ← UInt64.not_le] at less
        exact decide_eq_false less
    refine ⟨d', ?_, empty, size⟩
    rw [List.head?_cons, drainLoop, whole.next_eq, passes]
    change (drainLoop oldestEpoche rounds (d.remove a none) rest.head?).bind _ = _
    rw [List.getLast?_nil, List.nil_append] at ok
    rw [ok, holds.1, List.flatMap_cons, List.map_append]
    rfl

end DeletionList

/-! ## The list of the protocol -/

section Protocol

variable {ν : Type} {l : TurboHash.DeletionList (ν × UInt64)} {last : UInt64}

/-- What is true of a label: its epoch is that of one of its callbacks, and none has a later one. -/
structure Stamped (last : UInt64) (label : TurboHash.LabelDelete (ν × UInt64)) : Prop where
  entry_le : ∀ entry ∈ label.nodes, entry.2.toNat ≤ label.epoche
  latest : ∃ entry ∈ label.nodes, entry.2.toNat = label.epoche
  le_last : label.epoche ≤ last.toNat

/-- What is true of the list, if no epoch of an addition was later than `last`. -/
structure Booked (last : UInt64) (l : TurboHash.DeletionList (ν × UInt64)) : Prop where
  counted : l.Counted
  difference : l.added = l.deleted + l.size
  stamped : ∀ label ∈ l.headDeletionList, Stamped last label

theorem Booked.new (localEpoche : WithTop ℕ) :
    Booked last (TurboHash.DeletionList.new localEpoche : TurboHash.DeletionList (ν × UInt64)) :=
  ⟨rfl, rfl, nofun⟩

theorem Stamped.mono {label : TurboHash.LabelDelete (ν × UInt64)} (stamped : Stamped last label)
    {later : UInt64} (le : last ≤ later) : Stamped later label :=
  ⟨stamped.entry_le, stamped.latest, stamped.le_last.trans (UInt64.le_iff_toNat_le.mp le)⟩

/-- An addition stamps its label with an epoch that is not earlier than that of another entry. -/
theorem Booked.add (booked : Booked last l) (callback : ν) {globalEpoch : UInt64}
    (later : last ≤ globalEpoch) :
    Booked globalEpoch (l.add (callback, globalEpoch) globalEpoch.toNat) where
  counted := booked.counted.add _ _
  difference := by
    change l.added + 1 = l.deleted + (l.size + 1)
    rw [booked.difference, Nat.add_assoc]
  stamped label mem := by
    have le := UInt64.le_iff_toNat_le.mp later
    change label ∈ TurboHash.DeletionList.addLabel _ _ l.headDeletionList at mem
    have fresh : ∀ fits, Stamped globalEpoch
        (⟨[(callback, globalEpoch)], globalEpoch.toNat, fits⟩ :
          TurboHash.LabelDelete (ν × UInt64)) := by
      refine fun fits => ⟨fun entry here => ?_, ⟨_, List.mem_cons_self, rfl⟩, le_rfl⟩
      rw [List.mem_singleton.mp here]
    unfold TurboHash.DeletionList.addLabel at mem
    split at mem
    case h_1 =>
      rw [List.mem_singleton.mp mem]
      exact fresh _
    case h_2 first rest labels =>
      have stamped : ∀ other ∈ first :: rest, Stamped last other := labels ▸ booked.stamped
      split at mem
      case isTrue room =>
        rcases List.mem_cons.mp mem with rfl | mem
        · refine ⟨fun entry here => ?_, ⟨_, List.mem_append_right _ List.mem_cons_self, rfl⟩, le_rfl⟩
          rcases List.mem_append.mp here with old | new
          · have head := stamped first List.mem_cons_self
            exact ((head.entry_le entry old).trans head.le_last).trans le
          · rw [List.mem_singleton.mp new]
        · exact (stamped label (List.mem_cons_of_mem _ mem)).mono later
      case isFalse full =>
        rcases List.mem_cons.mp mem with rfl | mem
        · exact fresh _
        · exact (stamped label mem).mono later

theorem Booked.remove (booked : Booked last l)
    (before : List (TurboHash.LabelDelete (ν × UInt64)))
    {after : List (TurboHash.LabelDelete (ν × UInt64))}
    {label : TurboHash.LabelDelete (ν × UInt64)}
    (labels : l.headDeletionList = before ++ label :: after) :
    Booked last (l.remove label before.length) where
  counted := booked.counted.remove before labels
  difference := by
    have enough := booked.counted.length_le before labels
    have difference := booked.difference
    rw [TurboHash.DeletionList.size] at difference
    change l.added = l.deleted + label.nodes.length + (l.deletitionListCount - label.nodes.length)
    omega
  stamped other mem := by
    rw [TurboHash.DeletionList.headDeletionList_remove before labels] at mem
    refine booked.stamped other (labels ▸ ?_)
    rw [List.mem_append] at mem ⊢
    exact mem.imp_right (List.mem_cons_of_mem _)

/-- A pass runs only what was added in an older epoch. -/
theorem Booked.sweep (booked : Booked last l) (oldestEpoche : UInt64)
    (before : List (TurboHash.LabelDelete (ν × UInt64)))
    {after : List (TurboHash.LabelDelete (ν × UInt64))}
    (labels : l.headDeletionList = before ++ after) :
    Booked last (TurboHash.DeletionList.sweep oldestEpoche.toNat after before.length l).1 ∧
      ∀ entry ∈ (TurboHash.DeletionList.sweep oldestEpoche.toNat after before.length l).2,
        entry.2 < oldestEpoche := by
  induction after generalizing before l with
  | nil => exact ⟨booked, nofun⟩
  | cons label after ih =>
    have next : (before ++ [label]).length = before.length + 1 := List.length_append
    rw [TurboHash.DeletionList.sweep]
    split
    case isTrue old =>
      have rest := ih (booked.remove before labels) before
        (TurboHash.DeletionList.headDeletionList_remove before labels)
      refine ⟨rest.1, fun entry mem => ?_⟩
      rcases List.mem_append.mp mem with here | later
      · have stamped := booked.stamped label (labels ▸ List.mem_append_right _ List.mem_cons_self)
        rw [UInt64.lt_iff_toNat_lt]
        exact (stamped.entry_le entry here).trans_lt (Nat.cast_lt.mp old)
      · exact rest.2 entry later
    case isFalse =>
      have rest := ih booked (before ++ [label]) (labels.trans (List.append_cons ..))
      rwa [next] at rest

end Protocol

/-! ## Runs -/

/-- What an action adds to the list, with its epoch. -/
def ListAction.entry {ν : Type} : ListAction ν → Option (ν × UInt64)
  | .add callback globalEpoch => some (callback, globalEpoch)
  | .cleanup _ => none

/-- What a run adds to the list. -/
def entries {ν : Type} (ops : List (ListAction ν)) : List (ν × UInt64) :=
  ops.filterMap ListAction.entry

/-- The callbacks `executed` may run in the action: it is a pass, and they were added in epochs
before its oldest one. -/
def Older {ν : Type} (op : ListAction ν) (executed : List (ν × UInt64)) : Prop :=
  ∀ entry ∈ executed, ∃ oldestEpoche, op = .cleanup oldestEpoche ∧ entry.2 < oldestEpoche

section Runs

variable {ν : Type} {A : Heap.Allocator Nat} {fuel : Nat} {d : DeletionList ν}
  {l : TurboHash.DeletionList (ν × UInt64)} {active spare : List Nat} {last : UInt64}

/-- The state after the actions `ops`, which have run `ran`: every entry is either among the pending
ones or was executed, once and in a pass that was late enough; the two lists of labels have no
cycles and share no label; and a final pass runs everything that is left. -/
structure Bookkept (fuel : Nat) (ops : List (ListAction ν)) (ran : List (List ν))
    (d : DeletionList ν) (active spare : List Nat) (pending : List (ν × UInt64))
    (executed : List (List (ν × UInt64))) : Prop where
  head : Segment d.next d.headDeletionList active none
  free : Segment d.next d.freeLabelDeletes spare none
  disjoint : (active ++ spare).Nodup
  waits : active.flatMap (fun a => (d.labels a).callbacks) = pending.map Prod.fst
  runs : ran = executed.map (List.map Prod.fst)
  once : (pending ++ executed.flatten).Perm (entries ops)
  older : List.Forall₂ Older ops executed
  size : d.size = UInt64.ofNat pending.length
  difference : d.size = d.added - d.deleted
  final : ∀ oldestEpoche : Option UInt64, (∀ oldest ∈ oldestEpoche, ∀ entry ∈ pending,
    entry.2 < oldest) → ∃ d', d.drain fuel oldestEpoche = .ok (d', pending.map Prod.fst) ∧
      d'.headDeletionList = none ∧ d'.size = 0

/-- What one action does to the list of the protocol. -/
theorem exec_spec (shows : d.Shows active spare l) (booked : Booked last l) (op : ListAction ν)
    (later : ∀ entry ∈ op.entry, last ≤ entry.2) (enough : active.length ≤ fuel) :
    ∃ d' active' spare' l' last' executed,
      exec A fuel d op = .ok (d', executed.map Prod.fst) ∧ d'.Shows active' spare' l' ∧
      Booked last' l' ∧ Older op executed ∧ active'.length ≤ active.length + 1 ∧
      l'.pending + executed = l.pending + op.entry.toList ∧
      last' = op.entry.elim last Prod.snd := by
  cases op with
  | add callback globalEpoch =>
    rcases shows.add A callback globalEpoch with ⟨active', spare', shows', count⟩
    refine ⟨_, active', spare', _, globalEpoch, [], rfl, shows',
      booked.add callback (later _ rfl), nofun, count, ?_, rfl⟩
    change (l.add (callback, globalEpoch) _).pending + 0 = l.pending + {(callback, globalEpoch)}
    rw [TurboHash.DeletionList.pending_add, ← Multiset.singleton_add, add_zero, add_comm]
  | cleanup oldestEpoche =>
    have whole : d.Linked ([] ++ active) spare := shows.linked
    rcases DeletionList.cleanupLoop_spec oldestEpoche whole shows.counts .nil
      shows.labels rfl booked.counted enough with ⟨d', active', spare', ok, shows', count⟩
    rcases booked.sweep oldestEpoche [] rfl with ⟨booked', older⟩
    rcases TurboHash.DeletionList.sweep_spec oldestEpoche.toNat l.headDeletionList [] rfl
      booked.counted with ⟨same, -, -⟩
    refine ⟨d', active', spare', _, last, _, ?_, shows', booked', fun entry mem =>
      ⟨oldestEpoche, rfl, older entry mem⟩, count.trans (Nat.le_succ _), ?_, rfl⟩
    · rw [exec, DeletionList.cleanup, shows.linked.head.head?_eq]
      exact ok
    · rw [← same]
      simp [ListAction.entry]

/-- What a run does to it. -/
theorem run_spec {ops : List (ListAction ν)} (shows : d.Shows active spare l)
    (booked : Booked last l) (later : ∀ entry ∈ entries ops, last ≤ entry.2)
    (ordered : ((entries ops).map Prod.snd).Pairwise (· ≤ ·))
    (enough : active.length + ops.length ≤ fuel) :
    ∃ d' active' spare' l' last' executed,
      Simulation.run (exec A fuel) d ops = .ok (d', executed.map (List.map Prod.fst)) ∧
      d'.Shows active' spare' l' ∧ Booked last' l' ∧ List.Forall₂ Older ops executed ∧
      active'.length ≤ fuel ∧ l'.pending + executed.flatten = l.pending + entries ops := by
  induction ops generalizing d l active spare last with
  | nil => exact ⟨d, active, spare, l, last, [], rfl, shows, booked, .nil, enough, rfl⟩
  | cons op ops ih =>
    have split : entries (op :: ops) = op.entry.toList ++ entries ops := by
      rw [entries, List.filterMap_cons]
      cases op.entry <;> rfl
    rw [split] at later ordered
    rw [List.length_cons] at enough
    have room : active.length ≤ fuel := by omega
    rcases exec_spec (A := A) shows booked op (fun entry mem => later entry
      (List.mem_append_left _ (Option.mem_toList.mpr mem))) room with
      ⟨d₁, active₁, spare₁, l₁, last₁, first, ok, shows₁, booked₁, older, count, same, last_eq⟩
    have later₁ : ∀ entry ∈ entries ops, last₁ ≤ entry.2 := by
      intro entry mem
      rw [last_eq]
      cases new : op.entry with
      | none => exact later entry (List.mem_append_right _ mem)
      | some first =>
        rw [new, List.map_append] at ordered
        exact (List.pairwise_append.mp ordered).2.2 _ List.mem_cons_self _
          (List.mem_map_of_mem mem)
    have ordered₁ : ((entries ops).map Prod.snd).Pairwise (· ≤ ·) := by
      rw [List.map_append] at ordered
      exact (List.pairwise_append.mp ordered).2.1
    rcases ih shows₁ booked₁ later₁ ordered₁ (by omega) with
      ⟨d', active', spare', l', last', rest, ran, shows', booked', olders, count', same'⟩
    refine ⟨d', active', spare', l', last', first :: rest, ?_, shows', booked', .cons older olders,
      count', ?_⟩
    · exact run_cons_eq_ok.mpr ⟨d₁, _, _, ok, ran, rfl⟩
    · rw [List.flatten_cons, split, ← Multiset.coe_add, ← Multiset.coe_add]
      calc l'.pending + (↑first + ↑rest.flatten)
          = (l'.pending + ↑rest.flatten) + ↑first := by ac_rfl
        _ = (l₁.pending + ↑first) + ↑(entries ops) := by rw [same', add_right_comm]
        _ = l.pending + (↑op.entry.toList + ↑(entries ops)) := by rw [same, add_assoc]

/-- The bookkeeping of a deletion list: a run of additions in epochs that do not decrease, with
cleanup passes for any oldest epoch between them, returns and keeps the books. -/
theorem run_bookkept (memory : Nat → LabelDelete ν) {ops : List (ListAction ν)}
    (ordered : ((entries ops).map Prod.snd).Pairwise (· ≤ ·)) (enough : ops.length ≤ fuel) :
    ∃ d ran active spare pending executed,
      Simulation.run (exec A fuel) (.new memory) ops = .ok (d, ran) ∧
      Bookkept fuel ops ran d active spare pending executed := by
  have shows : (DeletionList.new memory).Shows [] []
      (TurboHash.DeletionList.new ⊤ : TurboHash.DeletionList (ν × UInt64)) :=
    ⟨.new memory, .nil, rfl, rfl, rfl⟩
  have booked : Booked 0 (TurboHash.DeletionList.new ⊤ : TurboHash.DeletionList (ν × UInt64)) :=
    .new ⊤
  rcases run_spec (A := A) shows booked (fun entry _ => UInt64.zero_le) ordered
    ((Nat.zero_add _).trans_le enough) with
    ⟨d, active, spare, l, last, executed, ran, shows', booked', older, count, same⟩
  have size : l.size = (l.headDeletionList.flatMap TurboHash.LabelDelete.nodes).length :=
    booked'.counted
  refine ⟨d, _, active, spare, l.headDeletionList.flatMap TurboHash.LabelDelete.nodes, executed,
    ran, shows'.linked.head, shows'.linked.free, shows'.linked.nodup,
    shows'.labels.callbacks_eq, rfl, ?_, older, ?_, ?_, fun oldestEpoche later => ?_⟩
  · have none : (TurboHash.DeletionList.new ⊤ : TurboHash.DeletionList (ν × UInt64)).pending = 0 :=
      rfl
    rw [none, zero_add] at same
    exact Multiset.coe_eq_coe.mp same
  · rw [shows'.counts.size, size]
  · have below : l.deleted ≤ l.added := booked'.difference ▸ Nat.le_add_right _ _
    rw [shows'.counts.size, shows'.counts.added, shows'.counts.deleted, ← UInt64.ofNat_sub below,
      booked'.difference, Nat.add_sub_cancel_left]
  · have younger : ∀ oldest ∈ oldestEpoche, ∀ label ∈ l.headDeletionList,
        label.epoche < oldest.toNat := by
      intro oldest mem label here
      rcases (booked'.stamped label here).latest with ⟨entry, inside, same⟩
      rw [← same, ← UInt64.lt_iff_toNat_lt]
      exact later oldest mem entry (List.mem_flatMap.mpr ⟨label, here, inside⟩)
    rw [DeletionList.drain, shows'.linked.head.head?_eq]
    exact DeletionList.drainLoop_spec shows'.linked shows'.counts shows'.labels rfl booked'.counted
      younger count

/-- Two passes between three additions; memory that is not allocated holds empty labels. -/
theorem run_bookkept_twoPasses : ∃ d ran active spare pending executed,
    Simulation.run (exec Heap.Allocator.above 5) (.new fun _ => ⟨fun _ => 0, 0, 0, none⟩)
        [.add 7 1, .add 8 2, .cleanup 2, .add 9 3, .cleanup 4] = .ok (d, ran) ∧
      Bookkept 5 [.add 7 1, .add 8 2, .cleanup 2, .add 9 3, .cleanup 4] ran d active spare
        (pending : List (Nat × UInt64)) executed :=
  run_bookkept _ (by decide) (by decide)

end Runs

end TurboHash.Labels
