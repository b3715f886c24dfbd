import Mathlib.Algebra.Ring.Int.Defs
import Mathlib.Algebra.Ring.Nat
import Mathlib.Data.Finset.Card
import Mathlib.Data.Finset.Range
import Mathlib.Data.List.Nodup
import Mathlib.Logic.Function.Basic
import Mathlib.Tactic.Common

/-!
# Doubly linked lists

Nodes in a heap that are linked both ways. `Segment` says that the cells of a list, each a
pointer with its item, follow each other in the heap from the pointer before them to the
pointer after them : segments are cut and joined at any place (`segment_append`), and an
operation that writes to other nodes keeps them (`Segment.congr`). The two ends of a segment
are moved by `Segment.setNext` and `Segment.setPrev`.
-/

namespace Linked

/-- A node of a doubly linked list. -/
structure Node (α : Type*) where
  item : α
  prev : Option ℕ
  next : Option ℕ

/-- The nodes in memory, and the pointer of the next one. -/
structure Nodes (α : Type*) where
  get : ℕ → Option (Node α)
  fresh : ℕ

variable {α : Type*}

namespace Nodes

variable (w : Nodes α) (p q : ℕ)

/-- `malloc` of a node. -/
def alloc (node : Node α) : Nodes α :=
  ⟨Function.update w.get w.fresh (some node), w.fresh + 1⟩

/-- `free` of a node. -/
def free : Nodes α :=
  { w with get := Function.update w.get p none }

/-- Write the `next` field of a node. -/
def setNext (next : Option ℕ) : Nodes α :=
  { w with get := Function.update w.get p ((w.get p).map fun node => { node with next := next }) }

/-- Write the `prev` field of a node. -/
def setPrev (prev : Option ℕ) : Nodes α :=
  { w with get := Function.update w.get p ((w.get p).map fun node => { node with prev := prev }) }

variable {w p q}

@[simp]
theorem get_alloc_self (node : Node α) : (w.alloc node).get w.fresh = some node :=
  Function.update_self ..

theorem get_alloc_of_ne (h : q ≠ w.fresh) (node : Node α) : (w.alloc node).get q = w.get q :=
  Function.update_of_ne h ..

theorem get_free_of_ne (h : q ≠ p) : (w.free p).get q = w.get q :=
  Function.update_of_ne h ..

@[simp]
theorem get_setNext_self (next : Option ℕ) :
    (w.setNext p next).get p = (w.get p).map fun node => { node with next := next } :=
  Function.update_self ..

theorem get_setNext_of_ne (h : q ≠ p) (next : Option ℕ) : (w.setNext p next).get q = w.get q :=
  Function.update_of_ne h ..

@[simp]
theorem get_setPrev_self (prev : Option ℕ) :
    (w.setPrev p prev).get p = (w.get p).map fun node => { node with prev := prev } :=
  Function.update_self ..

theorem get_setPrev_of_ne (h : q ≠ p) (prev : Option ℕ) : (w.setPrev p prev).get q = w.get q :=
  Function.update_of_ne h ..

theorem isSome_get_alloc (node : Node α) :
    ((w.alloc node).get q).isSome ↔ q = w.fresh ∨ (w.get q).isSome := by
  by_cases h : q = w.fresh
  · subst h
    simp
  · simp [get_alloc_of_ne h, h]

theorem isSome_get_free : ((w.free p).get q).isSome ↔ q ≠ p ∧ (w.get q).isSome := by
  by_cases h : q = p
  · subst h
    simp [free]
  · simp [get_free_of_ne h, h]

@[simp]
theorem isSome_get_setNext (next : Option ℕ) :
    ((w.setNext p next).get q).isSome = (w.get q).isSome := by
  by_cases h : q = p
  · subst h
    simp
  · rw [get_setNext_of_ne h]

@[simp]
theorem isSome_get_setPrev (prev : Option ℕ) :
    ((w.setPrev p prev).get q).isSome = (w.get q).isSome := by
  by_cases h : q = p
  · subst h
    simp
  · rw [get_setPrev_of_ne h]

end Nodes

/-! ## Segments -/

/-- The first pointer of the cells, or the pointer after them. -/
def first : List (ℕ × α) → Option ℕ → Option ℕ
  | [], next => next
  | (p, _) :: _, _ => some p

/-- The last pointer of the cells, or the pointer before them. -/
def last : Option ℕ → List (ℕ × α) → Option ℕ
  | prev, [] => prev
  | _, (p, _) :: cells => last (some p) cells

/-- The cells are linked to each other, and to the pointers before and after them. -/
def Segment (get : ℕ → Option (Node α)) : Option ℕ → List (ℕ × α) → Option ℕ → Prop
  | _, [], _ => True
  | prev, (p, x) :: cells, next =>
    get p = some ⟨x, prev, first cells next⟩ ∧ Segment get (some p) cells next

variable {get get' : ℕ → Option (Node α)} {prev next : Option ℕ} {cells rest : List (ℕ × α)}
  {p : ℕ} {x : α}

@[simp]
theorem first_append : first (cells ++ rest) next = first cells (first rest next) := by
  cases cells <;> rfl

@[simp]
theorem last_append : last prev (cells ++ rest) = last (last prev cells) rest := by
  induction cells generalizing prev with
  | nil => rfl
  | cons c cells ih => exact ih

theorem segment_append : Segment get prev (cells ++ rest) next ↔
    Segment get prev cells (first rest next) ∧ Segment get (last prev cells) rest next := by
  induction cells generalizing prev with
  | nil => exact ⟨fun h => ⟨trivial, h⟩, And.right⟩
  | cons c cells ih =>
    rw [List.cons_append, Segment, Segment, first_append, ih, and_assoc]
    rfl

/-- A segment depends on its own nodes only. -/
theorem Segment.congr (h : Segment get prev cells next) (hget : ∀ c ∈ cells, get' c.1 = get c.1) :
    Segment get' prev cells next := by
  induction cells generalizing prev with
  | nil => trivial
  | cons c cells ih =>
    refine ⟨(hget c List.mem_cons_self).trans h.1, ih h.2 fun d hd => ?_⟩
    exact hget d (List.mem_cons_of_mem _ hd)

/-- The end of a segment is linked to another node. -/
theorem Segment.setNext {w : Nodes α} (h : Segment w.get prev (cells ++ [(p, x)]) next)
    (hp : p ∉ cells.map Prod.fst) (next' : Option ℕ) :
    Segment (w.setNext p next').get prev (cells ++ [(p, x)]) next' := by
  rw [segment_append] at h ⊢
  refine ⟨h.1.congr fun c hc => Nodes.get_setNext_of_ne ?_ _, ?_, trivial⟩
  · rintro rfl
    exact hp (List.mem_map_of_mem hc)
  · rw [Nodes.get_setNext_self, h.2.1]
    rfl

/-- The start of a segment is linked to another node. -/
theorem Segment.setPrev {w : Nodes α} (h : Segment w.get prev ((p, x) :: cells) next)
    (hp : p ∉ cells.map Prod.fst) (prev' : Option ℕ) :
    Segment (w.setPrev p prev').get prev' ((p, x) :: cells) next := by
  refine ⟨?_, h.2.congr fun c hc => Nodes.get_setPrev_of_ne ?_ _⟩
  · rw [Nodes.get_setPrev_self, h.1]
    rfl
  · rintro rfl
    exact hp (List.mem_map_of_mem hc)

end Linked
