import StorageServer.LinkedLists
import StorageServer.Lib.Transition

/-!
# The lists as deques

The four operations of `list.c` at both ends of a list. They do what the operations of a deque
do (`deque_of_run`) as long as `nelem` can count the nodes, which is an `unsigned int`.

A pop cuts none of the links of the new end, which go on pointing to the node that is freed.
So the links are only right between the nodes (`IsDeque`), and a walk along them ends at `NULL`
in those runs only in which no pop leaves a node behind (`wellFormed_of_run`).
-/

open Linked Transitions

namespace StorageServer

variable {α : Type}

/-! ## Operations -/

/-- `list_push_front`. -/
def listPushFront (w : Nodes α) (list : ListT) (item : α) : Option (Nodes α × ListT) :=
  if list.nelem = 0 then
    some (w.alloc ⟨item, none, none⟩, ⟨some w.fresh, some w.fresh, 1⟩)
  else do
    let w' := w.alloc ⟨item, none, list.head⟩
    let head ← list.head
    let _ ← w'.get head
    return (w'.setPrev head (some w.fresh), ⟨some w.fresh, list.tail, (list.nelem + 1) % 2 ^ 32⟩)

/-- `list_pop_front` : its value, and the item of the node that is freed. -/
def listPopFront (w : Nodes α) (list : ListT) : Option ((ℤ × Option α) × Nodes α × ListT) :=
  if list.nelem = 0 then some ((-1, none), w, list)
  else do
    let node ← list.head
    let head ← w.get node
    let nelem := list.nelem - 1
    return ((0, some head.item), w.free node,
      ⟨head.next, if nelem = 0 then none else list.tail, nelem⟩)

/-- `list_pop_back`. -/
def listPopBack (w : Nodes α) (list : ListT) : Option ((ℤ × Option α) × Nodes α × ListT) :=
  if list.nelem = 0 then some ((-1, none), w, list)
  else do
    let node ← list.tail
    let tail ← w.get node
    let nelem := list.nelem - 1
    return ((0, some tail.item), w.free node,
      ⟨if nelem = 0 then none else list.head, tail.prev, nelem⟩)

/-- The operations. -/
inductive ListOp (α : Type)
  | pushFront (item : α)
  | pushBack (item : α)
  | popFront
  | popBack
  deriving DecidableEq, Repr

/-- An operation with its value, and the item that it gives back. -/
abbrev ListCall (α : Type) := ListOp α × ℤ × Option α

namespace ListOp

/-- Perform an operation. -/
def run (s : Nodes α × ListT) : ListOp α → Option ((ℤ × Option α) × Nodes α × ListT)
  | pushFront item => (listPushFront s.1 s.2 item).map fun s' => ((0, none), s')
  | pushBack item => (listPushBack s.1 s.2 item).map fun s' => ((0, none), s')
  | popFront => listPopFront s.1 s.2
  | popBack => listPopBack s.1 s.2

/-- What an operation does to a deque. -/
def deque (d : List α) : ListOp α → (ℤ × Option α) × List α
  | pushFront item => ((0, none), item :: d)
  | pushBack item => ((0, none), d ++ [item])
  | popFront =>
    match d with
    | [] => ((-1, none), [])
    | item :: d => ((0, some item), d)
  | popBack =>
    match d.getLast? with
    | none => ((-1, none), [])
    | some item => ((0, some item), d.dropLast)

/-- An operation that the list can count, of a list with `nelem` nodes. -/
def Counts (nelem : ℕ) : ListOp α → Prop
  | pushFront _ | pushBack _ => nelem + 1 < 2 ^ 32
  | popFront | popBack => True

/-- An operation that leaves no end with a link to a freed node. -/
def LeavesNone (nelem : ℕ) : ListOp α → Prop
  | pushFront _ | pushBack _ => True
  | popFront | popBack => nelem ≤ 1

end ListOp

/-- A list from `empty_list` on. -/
def listSystem (α : Type) : System (Nodes α × ListT) (ListCall α) where
  init s := s = (⟨fun _ => none, 0⟩, emptyList)
  step s call s' := call.1.run s = some (call.2, s')

/-- A deque. -/
def dequeSystem (α : Type) : System (List α) (ListCall α) where
  init d := d = []
  step d call d' := call.1.deque d = (call.2, d')

/-! ## The links between the nodes -/

/-- The list consists of these cells : it counts them and knows its ends, and the links between
them are right. The ends are linked to `prev` and `next`, which may be freed nodes. -/
structure IsDeque (w : Nodes α) (list : ListT) (prev next : Option ℕ) (cells : List (ℕ × α)) :
    Prop where
  nelem : list.nelem = cells.length
  ends : cells ≠ [] → list.head = first cells none ∧ list.tail = last none cells
  linked : Segment w.get prev cells next
  nodup : (cells.map Prod.fst).Nodup
  lt_fresh : ∀ c ∈ cells, c.1 < w.fresh
  live : ∀ p, (w.get p).isSome → p ∈ cells.map Prod.fst

section Operations

variable {w : Nodes α} {list : ListT} {prev next : Option ℕ} {cells : List (ℕ × α)} {p : ℕ} {x : α}

theorem isDeque_emptyList : IsDeque (⟨fun _ => none, 0⟩ : Nodes α) emptyList none none [] :=
  ⟨rfl, fun h => absurd rfl h, trivial, List.nodup_nil, nofun, nofun⟩

theorem IsDeque.nelem_ne (h : IsDeque w list prev next ((p, x) :: cells)) : list.nelem ≠ 0 := by
  rw [h.nelem]
  exact Nat.succ_ne_zero _

/-- A push to an empty list. -/
theorem isDeque_single (h : IsDeque w list prev next []) (y : α) :
    IsDeque (w.alloc ⟨y, none, none⟩) ⟨some w.fresh, some w.fresh, 1⟩ none none [(w.fresh, y)] where
  nelem := rfl
  ends _ := ⟨rfl, rfl⟩
  linked := ⟨Nodes.get_alloc_self _, trivial⟩
  nodup := List.nodup_singleton _
  lt_fresh c hc := by
    obtain rfl := List.mem_singleton.1 hc
    exact Nat.lt_succ_self _
  live q hq := by
    by_cases hq' : q = w.fresh
    · exact hq' ▸ List.mem_cons_self
    · rw [Nodes.get_alloc_of_ne hq'] at hq
      exact absurd (h.live q hq) List.not_mem_nil

/-- A push to the front puts a node before the others, unless the list cannot count it. -/
theorem IsDeque.pushFront (h : IsDeque w list prev next cells) (y : α) :
    ∃ w' list', listPushFront w list y = some (w', list') ∧
      list'.nelem = (cells.length + 1) % 2 ^ 32 ∧
      (cells.length + 1 < 2 ^ 32 →
        IsDeque w' list' none (if cells = [] then none else next) ((w.fresh, y) :: cells)) := by
  cases cells with
  | nil => exact ⟨_, _, if_pos h.nelem, rfl, fun _ => isDeque_single h y⟩
  | cons c cells =>
    obtain ⟨p, x⟩ := c
    obtain ⟨hhead, htail⟩ := h.ends (List.cons_ne_nil _ _)
    have hseg := h.linked
    have hp : p < w.fresh := h.lt_fresh _ List.mem_cons_self
    have hnodup := List.nodup_cons.1 h.nodup
    let w₁ := w.alloc ⟨y, none, some p⟩
    have hseg₁ : Segment w₁.get prev ((p, x) :: cells) next :=
      hseg.congr fun c hc => Nodes.get_alloc_of_ne (h.lt_fresh c hc).ne _
    have hpush : listPushFront w list y = some (w₁.setPrev p (some w.fresh),
        ⟨some w.fresh, list.tail, (list.nelem + 1) % 2 ^ 32⟩) := by
      rw [listPushFront, if_neg h.nelem_ne, hhead]
      simp only [first, Option.bind_eq_bind, Option.bind_some]
      rw [show (w.alloc ⟨y, none, some p⟩).get p = _ from hseg₁.1]
      rfl
    refine ⟨_, _, hpush, by rw [h.nelem], fun hlen => ⟨?_, ?_, ?_, ?_, ?_, ?_⟩⟩
    · change (list.nelem + 1) % 2 ^ 32 = _
      rw [h.nelem, Nat.mod_eq_of_lt hlen]
      rfl
    · exact fun _ => ⟨rfl, htail⟩
    · refine ⟨?_, hseg₁.setPrev hnodup.1 _⟩
      rw [Nodes.get_setPrev_of_ne hp.ne']
      exact Nodes.get_alloc_self _
    · refine List.nodup_cons.2 ⟨fun hmem => ?_, h.nodup⟩
      obtain ⟨c, hc, he⟩ := List.mem_map.1 hmem
      exact (h.lt_fresh c hc).ne he
    · intro c hc
      rcases List.mem_cons.1 hc with rfl | hc
      · exact Nat.lt_succ_self _
      · exact Nat.lt_succ_of_lt (h.lt_fresh c hc)
    · intro q hq
      rw [Nodes.isSome_get_setPrev, Nodes.isSome_get_alloc] at hq
      exact List.mem_cons.2 (hq.imp_right (h.live q))

/-- A push to the back puts a node behind the others, unless the list cannot count it. -/
theorem IsDeque.pushBack (h : IsDeque w list prev next cells) (y : α) :
    ∃ w' list', listPushBack w list y = some (w', list') ∧
      list'.nelem = (cells.length + 1) % 2 ^ 32 ∧
      (cells.length + 1 < 2 ^ 32 →
        IsDeque w' list' (if cells = [] then none else prev) none (cells ++ [(w.fresh, y)])) := by
  by_cases hnil : cells = []
  · subst hnil
    exact ⟨_, _, if_pos h.nelem, rfl, fun _ => isDeque_single h y⟩
  obtain ⟨init, ⟨p, x⟩, rfl⟩ := List.exists_concat hnil
  obtain ⟨hhead, htail⟩ := h.ends hnil
  have htail : list.tail = some p := by
    rw [htail, last_append]
    rfl
  have hseg := h.linked
  have hne : list.nelem ≠ 0 := by
    rw [h.nelem, List.length_append]
    exact Nat.succ_ne_zero _
  have hp : p < w.fresh := h.lt_fresh (p, x) (by simp)
  have hinit : p ∉ init.map Prod.fst := by
    have hnodup := h.nodup
    rw [List.map_append, List.nodup_append] at hnodup
    exact fun hm => hnodup.2.2 p hm p (by simp) rfl
  let w₁ := w.alloc ⟨y, some p, none⟩
  have hseg₁ : Segment w₁.get prev (init ++ [(p, x)]) next :=
    hseg.congr fun c hc => Nodes.get_alloc_of_ne (h.lt_fresh c hc).ne _
  have hpush : listPushBack w list y = some (w₁.setNext p (some w.fresh),
      ⟨list.head, some w.fresh, (list.nelem + 1) % 2 ^ 32⟩) := by
    rw [listPushBack, if_neg hne, htail]
    simp only [Option.bind_eq_bind, Option.bind_some]
    rw [show (w.alloc ⟨y, some p, none⟩).get p = _ from (segment_append.1 hseg₁).2.1]
    rfl
  refine ⟨_, _, hpush, by rw [h.nelem], fun hlen => ⟨?_, ?_, ?_, ?_, ?_, ?_⟩⟩
  · change (list.nelem + 1) % 2 ^ 32 = _
    rw [h.nelem, Nat.mod_eq_of_lt hlen]
    simp only [List.length_append, List.length_singleton]
  · refine fun _ => ⟨?_, ?_⟩
    · change list.head = _
      rw [hhead, List.append_assoc, first_append, first_append]
      rfl
    · rw [last_append]
      rfl
  · rw [if_neg hnil]
    refine segment_append.2 ⟨hseg₁.setNext hinit _, ?_, trivial⟩
    rw [last_append, Nodes.get_setNext_of_ne hp.ne', Nodes.get_alloc_self]
    rfl
  · rw [List.map_append, List.nodup_append]
    refine ⟨h.nodup, List.nodup_singleton _, fun q hq r hr he => ?_⟩
    obtain ⟨c, hc, rfl⟩ := List.mem_map.1 hq
    rw [List.mem_singleton.1 hr] at he
    exact (h.lt_fresh c hc).ne he
  · intro c hc
    rcases List.mem_append.1 hc with hc | hc
    · exact Nat.lt_succ_of_lt (h.lt_fresh c hc)
    · obtain rfl := List.mem_singleton.1 hc
      exact Nat.lt_succ_self _
  · intro q hq
    rw [Nodes.isSome_get_setNext, Nodes.isSome_get_alloc] at hq
    rw [List.map_append]
    rcases hq with rfl | hq
    · exact List.mem_append_right _ List.mem_cons_self
    · exact List.mem_append_left _ (h.live q hq)

/-- A pop from the front takes out the first node and frees it. -/
theorem IsDeque.popFront (h : IsDeque w list prev next ((p, x) :: cells)) :
    ∃ list', listPopFront w list = some ((0, some x), w.free p, list') ∧
      IsDeque (w.free p) list' (some p) next cells ∧
      (cells = [] → list'.head = next ∧ list'.tail = none) := by
  obtain ⟨hhead, htail⟩ := h.ends (List.cons_ne_nil _ _)
  have hseg := h.linked
  have hnodup := List.nodup_cons.1 h.nodup
  have hne : ∀ c ∈ cells, c.1 ≠ p := fun c hc he =>
    hnodup.1 (List.mem_map.2 ⟨c, hc, he⟩)
  have hlen : list.nelem - 1 = cells.length := by
    rw [h.nelem]
    rfl
  have hpop : listPopFront w list = some ((0, some x), w.free p,
      ⟨first cells next, if list.nelem - 1 = 0 then none else list.tail, list.nelem - 1⟩) := by
    rw [listPopFront, if_neg h.nelem_ne, hhead]
    simp only [first, Option.bind_eq_bind, Option.bind_some]
    rw [hseg.1]
    rfl
  refine ⟨_, hpop, ⟨hlen, fun hcells => ?_, ?_, hnodup.2, ?_, ?_⟩, fun hcells => ?_⟩
  · have hpos : list.nelem - 1 ≠ 0 := by
      rw [hlen]
      exact fun h0 => hcells (List.eq_nil_of_length_eq_zero h0)
    obtain ⟨c, rest, rfl⟩ := List.exists_cons_of_ne_nil hcells
    exact ⟨rfl, (if_neg hpos).trans htail⟩
  · exact hseg.2.congr fun c hc => Nodes.get_free_of_ne (hne c hc)
  · exact fun c hc => h.lt_fresh c (List.mem_cons_of_mem _ hc)
  · intro q hq
    obtain ⟨hqp, hq⟩ := Nodes.isSome_get_free.1 hq
    exact (List.mem_cons.1 (h.live q hq)).resolve_left hqp
  · subst hcells
    exact ⟨rfl, if_pos hlen⟩

/-- A pop from the back takes out the last node and frees it. -/
theorem IsDeque.popBack (h : IsDeque w list prev next (cells ++ [(p, x)])) :
    ∃ list', listPopBack w list = some ((0, some x), w.free p, list') ∧
      IsDeque (w.free p) list' prev (some p) cells ∧
      (cells = [] → list'.head = none ∧ list'.tail = prev) := by
  obtain ⟨hhead, htail⟩ := h.ends (List.append_ne_nil_of_right_ne_nil _ (List.cons_ne_nil _ _))
  have htail : list.tail = some p := by
    rw [htail, last_append]
    rfl
  obtain ⟨hseg, hlast, -⟩ := segment_append.1 h.linked
  have hnodup := h.nodup
  rw [List.map_append, List.nodup_append] at hnodup
  have hne : ∀ c ∈ cells, c.1 ≠ p := fun c hc =>
    hnodup.2.2 _ (List.mem_map.2 ⟨c, hc, rfl⟩) p (by simp)
  have hlen : list.nelem - 1 = cells.length := by
    rw [h.nelem, List.length_append]
    rfl
  have hnelem : list.nelem ≠ 0 := by
    rw [h.nelem, List.length_append]
    exact Nat.succ_ne_zero _
  have hpop : listPopBack w list = some ((0, some x), w.free p,
      ⟨if list.nelem - 1 = 0 then none else list.head, last prev cells, list.nelem - 1⟩) := by
    rw [listPopBack, if_neg hnelem, htail]
    simp only [Option.bind_eq_bind, Option.bind_some]
    rw [hlast]
    rfl
  refine ⟨_, hpop, ⟨hlen, fun hcells => ?_, ?_, hnodup.1, ?_, ?_⟩, fun hcells => ?_⟩
  · have hpos : list.nelem - 1 ≠ 0 := by
      rw [hlen]
      exact fun h0 => hcells (List.eq_nil_of_length_eq_zero h0)
    obtain ⟨c, rest, rfl⟩ := List.exists_cons_of_ne_nil hcells
    exact ⟨(if_neg hpos).trans hhead, rfl⟩
  · exact hseg.congr fun c hc => Nodes.get_free_of_ne (hne c hc)
  · exact fun c hc => h.lt_fresh c (List.mem_append_left _ hc)
  · intro q hq
    obtain ⟨hqp, hq⟩ := Nodes.isSome_get_free.1 hq
    have hmem := h.live q hq
    rw [List.map_append] at hmem
    exact (List.mem_append.1 hmem).resolve_right fun hm => hqp (List.mem_singleton.1 hm)
  · subst hcells
    exact ⟨if_pos hlen, rfl⟩

end Operations

/-! ## Runs as deques -/

section Runs

variable {s s' : Nodes α × ListT} {prev next : Option ℕ} {cells : List (ℕ × α)} {op : ListOp α}
  {r : ℤ × Option α}
  {tr : List (ListCall α)}

/-- Every operation returns and gives what that of a deque gives. It does the same if the list
can count it, and nothing if it gives `-1`. -/
theorem IsDeque.run_eq (h : IsDeque s.1 s.2 prev next cells) (op : ListOp α) :
    ∃ s', op.run s = some ((op.deque (cells.map Prod.snd)).1, s') ∧
      (op.Counts s.2.nelem → ∃ prev' next' cells', IsDeque s'.1 s'.2 prev' next' cells' ∧
        cells'.map Prod.snd = (op.deque (cells.map Prod.snd)).2) ∧
      ((op.deque (cells.map Prod.snd)).1.1 = -1 → cells = [] ∧ s' = s) := by
  obtain ⟨w, list⟩ := s
  dsimp only at h
  cases op with
  | pushFront y =>
    obtain ⟨w', list', hrun, -, hdeque⟩ := h.pushFront y
    refine ⟨(w', list'), congrArg (Option.map _) hrun, fun hcounts => ?_, nofun⟩
    exact ⟨_, _, _, hdeque (h.nelem ▸ hcounts), rfl⟩
  | pushBack y =>
    obtain ⟨w', list', hrun, -, hdeque⟩ := h.pushBack y
    refine ⟨(w', list'), congrArg (Option.map _) hrun, fun hcounts => ?_, nofun⟩
    exact ⟨_, _, _, hdeque (h.nelem ▸ hcounts), List.map_append⟩
  | popFront =>
    cases cells with
    | nil => exact ⟨_, if_pos h.nelem, fun _ => ⟨_, _, [], h, rfl⟩, fun _ => ⟨rfl, rfl⟩⟩
    | cons c cells =>
      obtain ⟨list', hrun, hdeque, -⟩ := h.popFront
      exact ⟨_, hrun, fun _ => ⟨_, _, cells, hdeque, rfl⟩, nofun⟩
  | popBack =>
    by_cases hnil : cells = []
    · subst hnil
      exact ⟨_, if_pos h.nelem, fun _ => ⟨_, _, [], h, rfl⟩, fun _ => ⟨rfl, rfl⟩⟩
    · obtain ⟨init, ⟨p, x⟩, rfl⟩ := List.exists_concat hnil
      obtain ⟨list', hrun, hdeque, -⟩ := h.popBack
      have hlast : ((init ++ [(p, x)]).map Prod.snd).getLast? = some x := by simp
      have hpop : ListOp.popBack.deque ((init ++ [(p, x)]).map Prod.snd) =
          ((0, some x), init.map Prod.snd) := by
        rw [ListOp.deque, hlast]
        simp
      rw [hpop]
      exact ⟨(w.free p, list'), hrun, fun _ => ⟨_, _, init, hdeque, rfl⟩, nofun⟩

/-- In every run in which the list can count its nodes, the operations are those of a deque. -/
theorem exists_deque (h : Run ((listSystem α).restrict fun s call =>
    call.1.Counts s.2.nelem) tr s) :
    ∃ prev next cells, Run (dequeSystem α) tr (cells.map Prod.snd) ∧
      IsDeque s.1 s.2 prev next cells := by
  refine h.induction (I := fun tr s => ∃ prev next cells,
    Run (dequeSystem α) tr (cells.map Prod.snd) ∧ IsDeque s.1 s.2 prev next cells) ?_ ?_
  · rintro s rfl
    exact ⟨none, none, [], .start rfl, isDeque_emptyList⟩
  · rintro tr s ⟨op, r⟩ s' - ⟨prev, next, cells, hd, hs⟩ ⟨hcounts, hstep⟩
    obtain ⟨s₁, hrun, hdeque, -⟩ := hs.run_eq op
    obtain ⟨prev', next', cells', hs', hcells'⟩ := hdeque hcounts
    have heq : op.run s = some (r, s') := hstep
    rw [hrun] at heq
    obtain ⟨hr, rfl⟩ := Prod.mk.inj (Option.some.inj heq)
    refine ⟨prev', next', cells', .step hd ?_, hs'⟩
    change op.deque _ = (r, _)
    rw [hcells', ← hr]

/-- In every run in which the list can count its nodes, the operations are those of a deque :
they give the same, `nelem` is the length of the deque, an operation always returns, and one
that gives `-1` finds the deque empty and changes nothing. -/
theorem deque_of_run (h : Run ((listSystem α).restrict fun s call =>
    call.1.Counts s.2.nelem) tr s) :
    ∃ d, Run (dequeSystem α) tr d ∧ s.2.nelem = d.length ∧
      ∀ op : ListOp α, ∃ s', op.run s = some ((op.deque d).1, s') ∧
        ((op.deque d).1.1 = -1 → d = [] ∧ s' = s) := by
  obtain ⟨prev, next, cells, hd, hs⟩ := exists_deque h
  refine ⟨_, hd, by rw [hs.nelem, List.length_map], fun op => ?_⟩
  obtain ⟨s', hrun, -, hunchanged⟩ := hs.run_eq op
  refine ⟨s', hrun, fun hvalue => ?_⟩
  obtain ⟨hcells, hs'⟩ := hunchanged hvalue
  exact ⟨List.map_eq_nil_iff.2 hcells, hs'⟩

/-- Two items are pushed and popped from the other end. -/
theorem deque_of_run_two : ∃ (tr : List (ListCall ℕ)) (s : Nodes ℕ × ListT) (d : List ℕ),
    tr.length = 3 ∧ Run (dequeSystem ℕ) tr d ∧ s.2.nelem = d.length := by
  let S := (listSystem ℕ).restrict fun s call => call.1.Counts s.2.nelem
  have hstart : Run S [] (⟨fun _ => none, 0⟩, emptyList) := .start rfl
  have hone : Run S [(.pushFront 7, 0, none)] _ := .step hstart ⟨(by decide : 0 + 1 < 2 ^ 32), rfl⟩
  have htwo : Run S [(.pushFront 8, 0, none), (.pushFront 7, 0, none)] _ :=
    .step hone ⟨(by decide : 1 + 1 < 2 ^ 32), rfl⟩
  have hpop : Run S [(.popBack, 0, some 7), (.pushFront 8, 0, none), (.pushFront 7, 0, none)] _ :=
    .step htwo ⟨trivial, rfl⟩
  obtain ⟨d, hd, hnelem, -⟩ := deque_of_run hpop
  exact ⟨_, _, d, rfl, hd, hnelem⟩

/-- As many pushes as the list can count. -/
theorem exists_pushes (n : ℕ) (hn : n < 2 ^ 32) : ∃ s,
    Run (listSystem ℕ) (List.replicate n (.pushBack 0, 0, none)) s ∧
      ∃ prev next cells, IsDeque s.1 s.2 prev next cells ∧ cells.length = n := by
  induction n with
  | zero => exact ⟨_, .start rfl, _, _, [], isDeque_emptyList, rfl⟩
  | succ n ih =>
    obtain ⟨⟨w, list⟩, hrun, prev, next, cells, hs, hlen⟩ := ih (Nat.lt_of_succ_lt hn)
    obtain ⟨w', list', hpush, -, hdeque⟩ := hs.pushBack 0
    have hstep := congrArg (Option.map fun s' => (((0 : ℤ), (none : Option ℕ)), s')) hpush
    refine ⟨(w', list'), .step hrun hstep, _, _, _, hdeque (hlen ▸ hn), ?_⟩
    rw [List.length_append, hlen]
    rfl

theorem deque_pushes {n : ℕ} {d : List ℕ}
    (h : Run (dequeSystem ℕ) (List.replicate n (.pushBack 0, 0, none)) d) : d.length = n := by
  induction n generalizing d with
  | zero =>
    cases h with
    | start h => exact congrArg List.length h
  | succ n ih =>
    cases h with
    | @step _ d₀ _ _ h hs =>
      have hd : d₀ ++ [0] = d := congrArg Prod.snd hs
      rw [← hd, List.length_append, ih h]
      rfl

/-- After `2 ^ 32` pushes the list counts no node. -/
theorem not_deque_of_run : ¬∀ (tr : List (ListCall ℕ)) (s : Nodes ℕ × ListT),
    Run (listSystem ℕ) tr s → ∃ d, Run (dequeSystem ℕ) tr d ∧ s.2.nelem = d.length := by
  intro hall
  obtain ⟨⟨w, list⟩, hrun, prev, next, cells, hs, hlen⟩ := exists_pushes (2 ^ 32 - 1) (by decide)
  obtain ⟨w', list', hpush, hnelem, -⟩ := hs.pushBack 0
  have hrun' : Run (listSystem ℕ) (List.replicate (2 ^ 32 - 1 + 1) (.pushBack 0, 0, none))
      (w', list') := .step hrun (congrArg (Option.map _) hpush)
  obtain ⟨d, hd, hcount⟩ := hall _ _ hrun'
  have hwrap : (2 ^ 32 - 1 + 1) % 2 ^ 32 = 0 := by decide
  have hzero : list'.nelem = 0 := by
    rw [hnelem, hlen, hwrap]
  have hcount : list'.nelem = d.length := hcount
  rw [hzero, deque_pushes hd] at hcount
  exact absurd hcount (by decide)

end Runs

/-! ## Walks -/

/-- The nodes that are found by following a link until it is `NULL`. -/
def walk (link : Node α → Option ℕ) (w : Nodes α) : ℕ → Option ℕ → Option (List ℕ)
  | _, none => some []
  | 0, some _ => none
  | fuel + 1, some curr => do
    let node ← w.get curr
    let rest ← walk link w fuel (link node)
    return curr :: rest

/-- A list of the items of a deque that ends at `NULL` on both sides : the walk along `next` from
the head finds `nelem` nodes, all there are, and that along `prev` from the tail the same
backwards. -/
structure WellFormed (w : Nodes α) (list : ListT) (d : List α) (nodes : List ℕ) : Prop where
  next : walk Node.next w list.nelem list.head = some nodes
  prev : walk Node.prev w list.nelem list.tail = some nodes.reverse
  length : nodes.length = list.nelem
  head : list.head = nodes.head?
  tail : list.tail = nodes.getLast?
  items : nodes.map (fun p => (w.get p).map Node.item) = d.map some
  nodup : nodes.Nodup
  live : ∀ p, (w.get p).isSome ↔ p ∈ nodes

section Walks

variable {w : Nodes α} {list : ListT} {prev next : Option ℕ} {cells : List (ℕ × α)}
  {s : Nodes α × ListT}
  {tr : List (ListCall α)}

theorem walk_next (h : Segment w.get prev cells none) :
    walk Node.next w cells.length (first cells none) = some (cells.map Prod.fst) := by
  induction cells generalizing prev with
  | nil => rfl
  | cons c cells ih =>
    rw [List.length_cons, first, walk, h.1]
    simp only [Option.bind_eq_bind, Option.bind_some]
    rw [ih h.2]
    rfl

theorem walk_prev (h : Segment w.get none cells next) :
    walk Node.prev w cells.length (last none cells) = some (cells.map Prod.fst).reverse := by
  induction cells using List.reverseRecOn generalizing next with
  | nil => rfl
  | append_singleton cells c ih =>
    obtain ⟨hseg, hlast, -⟩ := segment_append.1 h
    rw [List.length_append, last_append, List.length_singleton, last, last, walk, hlast]
    simp only [Option.bind_eq_bind, Option.bind_some]
    rw [ih hseg]
    simp

/-- With no links beyond its ends a list is well formed. -/
theorem IsDeque.wellFormed (h : IsDeque w list none none cells)
    (hnil : cells = [] → list.head = none ∧ list.tail = none) :
    WellFormed w list (cells.map Prod.snd) (cells.map Prod.fst) := by
  have hends : list.head = first cells none ∧ list.tail = last none cells := by
    by_cases hcells : cells = []
    · subst hcells
      exact hnil rfl
    · exact h.ends hcells
  have hget : ∀ c ∈ cells, ∃ node, w.get c.1 = some node ∧ node.item = c.2 := by
    intro c hc
    obtain ⟨pre, post, rfl⟩ := List.append_of_mem hc
    exact ⟨_, (segment_append.1 h.linked).2.1, rfl⟩
  refine ⟨?_, ?_, ?_, ?_, ?_, ?_, h.nodup, fun p => ⟨h.live p, fun hp => ?_⟩⟩
  · rw [hends.1, h.nelem]
    exact walk_next h.linked
  · rw [hends.2, h.nelem]
    exact walk_prev h.linked
  · rw [List.length_map, h.nelem]
  · rw [hends.1]
    cases cells <;> rfl
  · rw [hends.2]
    induction cells using List.reverseRecOn with
    | nil => rfl
    | append_singleton cells c => simp [last]
  · rw [List.map_map, List.map_map]
    refine List.map_congr_left fun c hc => ?_
    obtain ⟨node, hnode, hitem⟩ := hget c hc
    change (w.get c.1).map Node.item = some c.2
    rw [hnode, ← hitem]
    rfl
  · obtain ⟨c, hc, rfl⟩ := List.mem_map.1 hp
    obtain ⟨node, hnode, -⟩ := hget c hc
    rw [hnode]
    rfl

theorem IsDeque.nil (h : IsDeque w list prev next []) : IsDeque w list none none [] :=
  ⟨h.nelem, h.ends, trivial, h.nodup, h.lt_fresh, h.live⟩

/-- The first node is the only one. -/
theorem IsDeque.eq_nil_of_le {c : ℕ × α} (h : IsDeque w list prev next (c :: cells))
    (hle : list.nelem ≤ 1) : cells = [] := by
  rw [h.nelem, List.length_cons] at hle
  exact List.eq_nil_of_length_eq_zero (Nat.le_zero.1 (Nat.le_of_succ_le_succ hle))

/-- An operation that leaves no link to a freed node at the ends. -/
theorem IsDeque.run_wellFormed (h : IsDeque s.1 s.2 none none cells)
    (hnil : cells = [] → s.2.head = none ∧ s.2.tail = none) (op : ListOp α)
    (hcounts : op.Counts s.2.nelem) (hleaves : op.LeavesNone s.2.nelem) :
    ∃ s' cells', op.run s = some ((op.deque (cells.map Prod.snd)).1, s') ∧
      IsDeque s'.1 s'.2 none none cells' ∧
      cells'.map Prod.snd = (op.deque (cells.map Prod.snd)).2 ∧
      (cells' = [] → s'.2.head = none ∧ s'.2.tail = none) := by
  obtain ⟨w, list⟩ := s
  dsimp only at h hnil hcounts hleaves
  cases op with
  | pushFront y =>
    obtain ⟨w', list', hrun, -, hdeque⟩ := h.pushFront y
    have hdeque := hdeque (h.nelem ▸ hcounts)
    rw [ite_self] at hdeque
    exact ⟨(w', list'), _, congrArg (Option.map _) hrun, hdeque, rfl, nofun⟩
  | pushBack y =>
    obtain ⟨w', list', hrun, -, hdeque⟩ := h.pushBack y
    have hdeque := hdeque (h.nelem ▸ hcounts)
    rw [ite_self] at hdeque
    refine ⟨(w', list'), _, congrArg (Option.map _) hrun, hdeque, List.map_append, fun hnil => ?_⟩
    exact absurd hnil (List.append_ne_nil_of_right_ne_nil _ (List.cons_ne_nil _ _))
  | popFront =>
    cases cells with
    | nil => exact ⟨(w, list), [], if_pos h.nelem, h, rfl, hnil⟩
    | cons c cells =>
      obtain rfl := h.eq_nil_of_le hleaves
      obtain ⟨list', hrun, hdeque, hends⟩ := h.popFront
      exact ⟨(w.free c.1, list'), [], hrun, hdeque.nil, rfl, hends⟩
  | popBack =>
    cases cells with
    | nil => exact ⟨(w, list), [], if_pos h.nelem, h, rfl, hnil⟩
    | cons c cells =>
      obtain rfl := h.eq_nil_of_le hleaves
      have hlast : IsDeque w list none none ([] ++ [c]) := h
      obtain ⟨list', hrun, hdeque, hends⟩ := hlast.popBack
      exact ⟨(w.free c.1, list'), [], hrun, hdeque.nil, rfl, hends⟩

/-- In every run in which the list can count its nodes and no pop leaves a node behind, the list
is well formed and has the items of the deque. -/
theorem wellFormed_of_run (h : Run ((listSystem α).restrict fun s call =>
    call.1.Counts s.2.nelem ∧ call.1.LeavesNone s.2.nelem) tr s) :
    ∃ d nodes, Run (dequeSystem α) tr d ∧ WellFormed s.1 s.2 d nodes := by
  have hinv : ∃ cells, Run (dequeSystem α) tr (cells.map Prod.snd) ∧
      IsDeque s.1 s.2 none none cells ∧ (cells = [] → s.2.head = none ∧ s.2.tail = none) := by
    refine h.induction (I := fun tr s => ∃ cells, Run (dequeSystem α) tr (cells.map Prod.snd) ∧
      IsDeque s.1 s.2 none none cells ∧ (cells = [] → s.2.head = none ∧ s.2.tail = none)) ?_ ?_
    · rintro s rfl
      exact ⟨[], .start rfl, isDeque_emptyList, fun _ => ⟨rfl, rfl⟩⟩
    · rintro tr s ⟨op, r⟩ s' - ⟨cells, hd, hs, hnil⟩ ⟨⟨hcounts, hleaves⟩, hstep⟩
      obtain ⟨s₁, cells', hrun, hs', hcells', hnil'⟩ := hs.run_wellFormed hnil op hcounts hleaves
      have heq : op.run s = some (r, s') := hstep
      rw [hrun] at heq
      obtain ⟨hr, rfl⟩ := Prod.mk.inj (Option.some.inj heq)
      refine ⟨cells', .step hd ?_, hs', hnil'⟩
      change op.deque _ = (r, _)
      rw [hcells', ← hr]
  obtain ⟨cells, hd, hs, hnil⟩ := hinv
  exact ⟨_, _, hd, hs.wellFormed hnil⟩

theorem wellFormed_of_run_two : ∃ (s : Nodes ℕ × ListT) (d nodes : List ℕ),
    s.2.nelem = 2 ∧ WellFormed s.1 s.2 d nodes := by
  let S := (listSystem ℕ).restrict fun s call =>
    call.1.Counts s.2.nelem ∧ call.1.LeavesNone s.2.nelem
  have hstart : Run S [] (⟨fun _ => none, 0⟩, emptyList) := .start rfl
  have hone : Run S [(.pushFront 7, 0, none)] _ :=
    .step hstart ⟨⟨(by decide : 0 + 1 < 2 ^ 32), trivial⟩, rfl⟩
  have htwo : Run S [(.pushBack 8, 0, none), (.pushFront 7, 0, none)] _ :=
    .step hone ⟨⟨(by decide : 1 + 1 < 2 ^ 32), trivial⟩, rfl⟩
  obtain ⟨d, nodes, -, hwf⟩ := wellFormed_of_run htwo
  exact ⟨_, d, nodes, rfl, hwf⟩

/-- A pop from the back of two nodes : the walk along `next` comes to the freed one. -/
theorem not_wellFormed_of_run : ¬∀ (tr : List (ListCall ℕ)) (s : Nodes ℕ × ListT),
    Run (listSystem ℕ) tr s → ∃ d nodes, Run (dequeSystem ℕ) tr d ∧ WellFormed s.1 s.2 d nodes := by
  intro hall
  have hstart : Run (listSystem ℕ) [] (⟨fun _ => none, 0⟩, emptyList) := .start rfl
  have hone : Run (listSystem ℕ) [(.pushBack 7, 0, none)] _ := .step hstart rfl
  have htwo : Run (listSystem ℕ) [(.pushBack 8, 0, none), (.pushBack 7, 0, none)] _ :=
    .step hone rfl
  have hpop : Run (listSystem ℕ) [(.popBack, 0, some 8), (.pushBack 8, 0, none),
      (.pushBack 7, 0, none)] _ := .step htwo rfl
  obtain ⟨d, nodes, -, hwf⟩ := hall _ _ hpop
  have hnext := hwf.next
  cases hnext

end Walks

end StorageServer
