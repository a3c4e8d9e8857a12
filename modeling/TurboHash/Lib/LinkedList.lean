import Mathlib.Data.List.Nodup
import Mathlib.Logic.Function.Basic

/-!
# Singly linked lists

`Segment next p nodes q` says that the pointer `p` leads through `nodes`, in this order,
to the pointer `q`. A list that ends at the null pointer, and whose nodes are distinct,
has no cycle. Its rules are those of an update elsewhere, of a push at the front and of
unlinking a node behind another.
-/

namespace LinkedList

variable {α : Type}

/-- From the pointer `p` over the nodes of the list to the pointer `q`. -/
def Segment (next : α → Option α) : Option α → List α → Option α → Prop
  | p, [], q => p = q
  | p, a :: nodes, q => p = some a ∧ Segment next (next a) nodes q

variable {next next' : α → Option α} {p q : Option α} {a b : α} {front rest nodes : List α}

theorem segment_append : Segment next p (front ++ rest) q ↔
    ∃ r, Segment next p front r ∧ Segment next r rest q := by
  induction front generalizing p with
  | nil => exact ⟨fun tail => ⟨p, rfl, tail⟩, fun ⟨r, same, tail⟩ => by cases same; exact tail⟩
  | cons a front ih =>
    constructor
    · rintro ⟨start, tail⟩
      rcases ih.mp tail with ⟨r, before, after⟩
      exact ⟨r, ⟨start, before⟩, after⟩
    · rintro ⟨r, ⟨start, before⟩, after⟩
      exact ⟨start, ih.mpr ⟨r, before, after⟩⟩

/-- Only the links of its own nodes make up a list. -/
theorem Segment.congr (segment : Segment next p nodes q)
    (same : ∀ a ∈ nodes, next' a = next a) : Segment next' p nodes q := by
  induction nodes generalizing p with
  | nil => exact segment
  | cons a nodes ih =>
    rcases segment with ⟨start, tail⟩
    rw [← same a List.mem_cons_self] at tail
    exact ⟨start, ih tail fun b mem => same b (List.mem_cons_of_mem _ mem)⟩

theorem Segment.head?_eq (segment : Segment next p nodes none) : p = nodes.head? := by
  cases nodes with
  | nil => exact segment
  | cons a nodes => exact segment.1

variable [DecidableEq α]

theorem Segment.update (segment : Segment next p nodes q) {r : Option α} (other : a ∉ nodes) :
    Segment (Function.update next a r) p nodes q :=
  segment.congr fun _ mem => Function.update_of_ne (ne_of_mem_of_not_mem mem other) ..

/-- A new node at the front. -/
theorem Segment.push (segment : Segment next p nodes q) (new : a ∉ nodes) :
    Segment (Function.update next a p) (some a) (a :: nodes) q := by
  refine ⟨rfl, ?_⟩
  rw [Function.update_self]
  exact segment.update new

/-- Link the node `b` past its successor `a`. -/
theorem Segment.unlink (segment : Segment next p (front ++ b :: a :: rest) q)
    (distinct : (front ++ b :: a :: rest).Nodup) :
    Segment (Function.update next b (next a)) p (front ++ b :: rest) q := by
  rcases segment_append.mp segment with ⟨r, before, start, -, after⟩
  rcases List.nodup_append.mp distinct with ⟨-, tail, apart⟩
  refine segment_append.mpr ⟨r, before.update fun mem => ?_, start, ?_⟩
  · exact apart b mem b List.mem_cons_self rfl
  · rw [Function.update_self]
    refine after.update fun mem => ?_
    exact (List.nodup_cons.mp tail).1 (List.mem_cons_of_mem _ mem)

end LinkedList
