import Mathlib.Algebra.BigOperators.Group.Finset.Basic
import Mathlib.Algebra.Order.BigOperators.Group.Finset
import Mathlib.Data.Multiset.AddSub
import Mathlib.Tactic

/-!
# Allocations and their owners

A heap is the list of its allocations and releases. `Balanced` says that nothing was
released that was not in use, and that what is in use now is what the owners hold, each
address with one of them. Its rules are one for each thing that can happen to an address:
it is allocated for an owner, it passes from one owner to another, it is released.
-/

namespace Heap

variable {α : Type}

/-- An address is handed out or taken back. -/
inductive Event (α : Type)
  | allocate (a : α)
  | free (a : α)
deriving DecidableEq

variable [DecidableEq α]

/-- The addresses in use, the latest event first. -/
def inUse : List (Event α) → List α
  | [] => []
  | .allocate a :: events => a :: inUse events
  | .free a :: events => (inUse events).erase a

/-- No address is handed out while it is in use, and none is taken back that is not. -/
def Valid : List (Event α) → Prop
  | [] => True
  | .allocate a :: events => a ∉ inUse events ∧ Valid events
  | .free a :: events => a ∈ inUse events ∧ Valid events

/-- Every address was taken back once for each time it was handed out. -/
def Settled (events : List (Event α)) : Prop := Valid events ∧ inUse events = []

/-- What is in use is what is owned. -/
def Balanced (events : List (Event α)) (owned : Multiset α) : Prop :=
  Valid events ∧ (inUse events : Multiset α) = owned

/-- `malloc`: an address that is not in use. -/
structure Allocator (α : Type) [DecidableEq α] where
  next : List (Event α) → α
  fresh : ∀ events, next events ∉ inUse events

/-- Take back a list of addresses. -/
def freeAll (addresses : List α) (events : List (Event α)) : List (Event α) :=
  addresses.foldl (fun events a => .free a :: events) events

omit [DecidableEq α] in
theorem freeAll_append (addresses others : List α) (events : List (Event α)) :
    freeAll (addresses ++ others) events = freeAll others (freeAll addresses events) :=
  List.foldl_append

section Rules

variable {events : List (Event α)} {owned : Multiset α} {a : α}

theorem Balanced.nil : Balanced ([] : List (Event α)) 0 := ⟨trivial, rfl⟩

theorem Valid.nodup (valid : Valid events) : (inUse events).Nodup := by
  induction events with
  | nil => exact List.nodup_nil
  | cons event events ih =>
    cases event with
    | allocate a => exact List.nodup_cons.mpr ⟨valid.1, ih valid.2⟩
    | free a => exact (ih valid.2).erase a

/-- Each address in use has one owner. -/
theorem Balanced.nodup (balanced : Balanced events owned) : owned.Nodup := by
  obtain ⟨valid, rfl⟩ := balanced
  exact valid.nodup

theorem Balanced.allocate (balanced : Balanced events owned) (A : Allocator α) :
    Balanced (.allocate (A.next events) :: events) (A.next events ::ₘ owned) := by
  obtain ⟨valid, rfl⟩ := balanced
  exact ⟨⟨A.fresh events, valid⟩, rfl⟩

theorem Balanced.free (balanced : Balanced events (a ::ₘ owned)) :
    Balanced (.free a :: events) owned := by
  obtain ⟨valid, same⟩ := balanced
  have mem : a ∈ (inUse events : Multiset α) := same ▸ Multiset.mem_cons_self a owned
  refine ⟨⟨mem, valid⟩, ?_⟩
  have erased := congrArg (Multiset.erase · a) same
  rwa [Multiset.erase_cons_head] at erased

theorem Balanced.freeAll {addresses : List α}
    (balanced : Balanced events (addresses + owned)) :
    Balanced (Heap.freeAll addresses events) owned := by
  induction addresses generalizing events with
  | nil => simpa [Heap.freeAll] using balanced
  | cons a addresses ih =>
    rw [← Multiset.cons_coe, Multiset.cons_add] at balanced
    exact ih balanced.free

theorem Balanced.settled (balanced : Balanced events 0) : Settled events :=
  ⟨balanced.1, Multiset.coe_eq_zero _ |>.mp balanced.2⟩

theorem Valid.of_freeAll {addresses : List α} (valid : Valid (Heap.freeAll addresses events)) :
    Valid events := by
  induction addresses generalizing events with
  | nil => exact valid
  | cons a addresses ih => exact (ih valid).2

/-- No more can be taken back than is in use. -/
theorem Valid.le_inUse {addresses : List α} (valid : Valid (Heap.freeAll addresses events)) :
    (addresses : Multiset α) ≤ inUse events := by
  induction addresses generalizing events with
  | nil => exact Multiset.zero_le _
  | cons a addresses ih =>
    have later : Valid (Heap.freeAll addresses (.free a :: events)) := valid
    have rest := ih later
    have mem : a ∈ inUse events := later.of_freeAll.1
    rw [← Multiset.cons_coe]
    exact (Multiset.cons_le_cons a rest).trans (Multiset.cons_erase mem).le

end Rules

/-- An allocator: the address above all that are in use. -/
def Allocator.above : Allocator Nat where
  next events := (inUse events).sum + 1
  fresh events mem := by
    have le := List.single_le_sum (by simp) _ mem
    omega

/-! ## Owners -/

section Sums

variable {ι M : Type} [DecidableEq ι] [AddCommMonoid M]

/-- One owner has exchanged what it holds. -/
theorem sum_exchange {s : Finset ι} {i : ι} {f g : ι → M} (mem : i ∈ s)
    (others : ∀ j ∈ s, j ≠ i → g j = f j) : ∑ j ∈ s, g j + f i = ∑ j ∈ s, f j + g i := by
  rw [← Finset.add_sum_erase s g mem, ← Finset.add_sum_erase s f mem]
  have same : ∑ j ∈ s.erase i, g j = ∑ j ∈ s.erase i, f j :=
    Finset.sum_congr rfl fun j other =>
      others j (Finset.mem_of_mem_erase other) (Finset.ne_of_mem_erase other)
  rw [same]
  ac_rfl

/-- One owner has exchanged `f i` for `x`. -/
theorem sum_update {s : Finset ι} {i : ι} (mem : i ∈ s) (f : ι → M) (x : M) :
    ∑ j ∈ s, Function.update f i x j + f i = ∑ j ∈ s, f j + x := by
  have exchanged := sum_exchange mem (f := f) (g := Function.update f i x) fun j _ other =>
    Function.update_of_ne other ..
  rwa [Function.update_self] at exchanged

omit [DecidableEq ι] [DecidableEq α] in
/-- The sum over the parts of a list. -/
theorem coe_flatMap (l : List ι) (f : ι → List α) :
    (l.flatMap f : Multiset α) = (l.map fun i => (f i : Multiset α)).sum := by
  induction l with
  | nil => rfl
  | cons i l ih => rw [List.flatMap_cons, List.map_cons, List.sum_cons, ← ih, Multiset.coe_add]

omit [DecidableEq α] in
theorem coe_flatMap_range (n : ℕ) (f : ℕ → List α) :
    ((List.range n).flatMap f : Multiset α) = ∑ i ∈ Finset.range n, (f i : Multiset α) := by
  rw [coe_flatMap, ← Multiset.sum_coe, ← Multiset.map_coe]
  rfl

end Sums

end Heap
