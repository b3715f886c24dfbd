import StorageServer.Lib.Buckets
import StorageServer.Lib.Linked

/-!
# The lists of a table

`list.c`, and what `hashmap.c` and `hashtable.c` do with an array of its lists : a node is
appended to one of them, unlinked by hand, or searched, and the nodes of all lists are copied
into those of another array and freed. A `NULL` or dangling pointer that is followed is `none`.

`Lists` says that every list of the array is a well-formed doubly linked list that counts its
nodes, and that no node is in two of them. Every function keeps it, and does to the items what
it is meant to do.
-/

open Linked

namespace StorageServer

variable {α : Type}

/-- `list_t`. -/
structure ListT where
  head : Option ℕ
  tail : Option ℕ
  nelem : ℕ

/-- `empty_list`. -/
def emptyList : ListT := ⟨none, none, 0⟩

/-- `list_push_back`. -/
def listPushBack (w : Nodes α) (list : ListT) (item : α) : Option (Nodes α × ListT) :=
  if list.nelem = 0 then
    some (w.alloc ⟨item, none, none⟩, ⟨some w.fresh, some w.fresh, 1⟩)
  else do
    let w' := w.alloc ⟨item, list.tail, none⟩
    let tail ← list.tail
    let _ ← w'.get tail
    return (w'.setNext tail (some w.fresh), ⟨list.head, some w.fresh, (list.nelem + 1) % 2 ^ 32⟩)

/-- The node before an unlinked one, or the head of the list, is linked to the node after it. -/
def relinkHead (w : Nodes α) (list : ListT) (curr : Node α) : Option (Nodes α × ListT) :=
  -- is head?
  match curr.prev with
  | some prev => (w.get prev).map fun _ => (w.setNext prev curr.next, list)
  | none => some (w, { list with head := curr.next })

/-- The node after an unlinked one, or the tail of the list, is linked to the node before it. -/
def relinkTail (w : Nodes α) (list : ListT) (curr : Node α) : Option (Nodes α × ListT) :=
  -- is tail?
  match curr.next with
  | some next => (w.get next).map fun _ => (w.setPrev next curr.prev, list)
  | none => some (w, { list with tail := curr.prev })

/-- The lines of `hashmap_remove` and `hashtbl_remove` that unlink a node and free it. -/
def unlinkNode (w : Nodes α) (list : ListT) (curr : ℕ) : Option (Nodes α × ListT) := do
  let (w, list) ← relinkHead w list (← w.get curr)
  let (w, list) ← relinkTail w list (← w.get curr)
  return (w.free curr, { list with nelem := (list.nelem + (2 ^ 32 - 1)) % 2 ^ 32 })

/-- The search of a node by its item. No walk visits a node twice, so their number bounds it. -/
def searchNode (w : Nodes α) (p : α → Bool) : ℕ → Option ℕ → Option (Option ℕ)
  | _, none => some none
  | 0, some _ => none
  | fuel + 1, some curr => do
    let node ← w.get curr
    if p node.item then return some curr else searchNode w p fuel node.next

/-- `list_delete`. -/
def listDelete : ℕ → Nodes α → Option ℕ → Option (Nodes α)
  | _, w, none => some w
  | 0, _, some _ => none
  | fuel + 1, w, some tmp => do
    let node ← w.get tmp
    listDelete fuel (w.free tmp) node.next

/-- `_hashmap_insert` and `_hashtbl_insert` : the insertion of an item into the list of its
index, and the count of the items. -/
def pushAt (idx : α → ℕ) (w : Nodes α) (lists : List ListT) (nelem : ℕ) (item : α) :
    Option (Nodes α × List ListT × ℕ) := do
  let list ← lists[idx item]?
  let (w, list) ← listPushBack w list item
  return (w, lists.set (idx item) list, nelem + 1)

/-- The loop that inserts the items of a list into new lists. -/
def copyNodes (idx : α → ℕ) :
    ℕ → Nodes α → List ListT → ℕ → Option ℕ → Option (Nodes α × List ListT × ℕ)
  | _, w, lists, nelem, none => some (w, lists, nelem)
  | 0, _, _, _, some _ => none
  | fuel + 1, w, lists, nelem, some curr => do
    let node ← w.get curr
    let (w, lists, nelem) ← pushAt idx w lists nelem node.item
    let node ← w.get curr
    copyNodes idx fuel w lists nelem node.next

/-- The expansion of a table : its items are inserted into new lists, and its nodes freed. -/
def expandLists (idx : α → ℕ) (w : Nodes α) (lists new : List ListT) :
    Option (Nodes α × List ListT × ℕ) := do
  let (w, new, nelem) ← lists.foldlM
    (fun (w, new, nelem) list => copyNodes idx w.fresh w new nelem list.head) (w, new, 0)
  let w ← lists.foldlM (fun w list => listDelete w.fresh w list.head) w
  return (w, new, nelem)

/-- The search of an item in one list. -/
def findAt (w : Nodes α) (lists : List ListT) (i : ℕ) (p : α → Bool) : Option (Option α) := do
  let list ← lists[i]?
  match ← searchNode w p w.fresh list.head with
  | none => return none
  | some curr => return some (← w.get curr).item

/-- The removal of an item from one list. -/
def removeAt (w : Nodes α) (lists : List ListT) (i : ℕ) (p : α → Bool) :
    Option (Option α × Nodes α × List ListT) := do
  let list ← lists[i]?
  match ← searchNode w p w.fresh list.head with
  | none => return (none, w, lists)
  | some curr =>
    let node ← w.get curr
    let (w, list) ← unlinkNode w list curr
    return (some node.item, w, lists.set i list)

/-! ## Well-formed lists -/

/-- The list is linked both ways through these cells, and counts them. -/
structure IsList (w : Nodes α) (list : ListT) (cells : List (ℕ × α)) : Prop where
  head : list.head = first cells none
  tail : list.tail = last none cells
  nelem : list.nelem = cells.length
  linked : Segment w.get none cells none

/-- The lists of an array are well formed, and share no node. -/
structure Lists (w : Nodes α) (lists : List ListT) (css : List (List (ℕ × α))) : Prop where
  length : lists.length = css.length
  isList : ∀ ⦃i : ℕ⦄ ⦃list cells⦄, lists[i]? = some list → css[i]? = some cells →
    IsList w list cells
  nodup : ∀ ⦃i : ℕ⦄ ⦃cells⦄, css[i]? = some cells → (cells.map Prod.fst).Nodup
  disjoint : ∀ ⦃i j : ℕ⦄ ⦃cells ds⦄, i ≠ j → css[i]? = some cells → css[j]? = some ds →
    ∀ c ∈ cells, ∀ d ∈ ds, c.1 ≠ d.1
  lt_fresh : ∀ ⦃i : ℕ⦄ ⦃cells⦄, css[i]? = some cells → ∀ c ∈ cells, c.1 < w.fresh

section Lists

variable {w w' : Nodes α} {list list' : ListT} {lists : List ListT} {cells cells' : List (ℕ × α)}
  {css : List (List (ℕ × α))} {i : ℕ} {x : α}

theorem IsList.congr (h : IsList w list cells) (hget : ∀ c ∈ cells, w'.get c.1 = w.get c.1) :
    IsList w' list cells :=
  ⟨h.head, h.tail, h.nelem, h.linked.congr hget⟩

/-- There are at least as many nodes as a list has cells. -/
theorem Lists.length_le_fresh (h : Lists w lists css) (hi : css[i]? = some cells) :
    cells.length ≤ w.fresh := by
  have hsub : (cells.map Prod.fst).toFinset ⊆ Finset.range w.fresh := fun p hp => by
    obtain ⟨c, hc, rfl⟩ := List.mem_map.1 (List.mem_toFinset.1 hp)
    exact Finset.mem_range.2 (h.lt_fresh hi c hc)
  have hcard := Finset.card_le_card hsub
  rwa [List.toFinset_card_of_nodup (h.nodup hi), List.length_map, Finset.card_range] at hcard

/-- The lists that an array holds after a change to one of them. -/
theorem getElem?_set_cases {β : Type*} {l : List β} {j : ℕ} {a b : β}
    (h : (l.set i a)[j]? = some b) : (i = j ∧ b = a) ∨ (i ≠ j ∧ l[j]? = some b) := by
  by_cases hij : i = j
  · subst hij
    rw [List.getElem?_set_self'] at h
    obtain ⟨-, -, rfl⟩ := Option.map_eq_some_iff.1 h
    exact .inl ⟨rfl, rfl⟩
  · rw [List.getElem?_set_ne hij] at h
    exact .inr ⟨hij, h⟩

/-- A change to the nodes of one list leaves the others well formed. -/
theorem Lists.set (h : Lists w lists css) (hi : css[i]? = some cells)
    (hlist : IsList w' list' cells') (hnodup : (cells'.map Prod.fst).Nodup)
    (hsub : ∀ c ∈ cells', c ∈ cells ∨ c.1 = w.fresh) (hlt : ∀ c ∈ cells', c.1 < w'.fresh)
    (hle : w.fresh ≤ w'.fresh)
    (hframe : ∀ q, q < w.fresh → q ∉ cells.map Prod.fst → w'.get q = w.get q) :
    Lists w' (lists.set i list') (css.set i cells') where
  length := by rw [List.length_set, List.length_set, h.length]
  isList := by
    intro j l ds hl hds
    rcases getElem?_set_cases hl with ⟨rfl, rfl⟩ | ⟨hij, hl⟩ <;>
      rcases getElem?_set_cases hds with ⟨hij', rfl⟩ | ⟨hij', hds⟩
    · exact hlist
    · exact absurd rfl hij'
    · exact absurd hij' hij
    · refine (h.isList hl hds).congr fun d hd => hframe _ (h.lt_fresh hds d hd) fun hm => ?_
      obtain ⟨c, hc, he⟩ := List.mem_map.1 hm
      exact h.disjoint hij hi hds c hc d hd he
  nodup := by
    intro j ds hds
    rcases getElem?_set_cases hds with ⟨-, rfl⟩ | ⟨-, hds⟩
    · exact hnodup
    · exact h.nodup hds
  disjoint := by
    have hnew : ∀ ⦃j ds⦄, i ≠ j → css[j]? = some ds → ∀ c ∈ cells', ∀ d ∈ ds, c.1 ≠ d.1 := by
      intro j ds hij hds c hc d hd
      rcases hsub c hc with hm | he
      · exact h.disjoint hij hi hds c hm d hd
      · exact he ▸ (h.lt_fresh hds d hd).ne'
    intro j k ds es hjk hds hes d hd e he
    rcases getElem?_set_cases hds with ⟨rfl, rfl⟩ | ⟨hij, hds'⟩ <;>
      rcases getElem?_set_cases hes with ⟨hik, rfl⟩ | ⟨hik, hes'⟩
    · exact absurd hik hjk
    · exact hnew hik hes' d hd e he
    · exact fun heq => hnew hij hds' e he d hd heq.symm
    · exact h.disjoint hjk hds' hes' d hd e he
  lt_fresh := by
    intro j ds hds
    rcases getElem?_set_cases hds with ⟨-, rfl⟩ | ⟨-, hds⟩
    · exact hlt
    · exact fun d hd => (h.lt_fresh hds d hd).trans_le hle

/-! ## The functions -/

/-- A search finds the first node whose item matches. -/
theorem searchNode_first {prev : Option ℕ} (h : Segment w.get prev cells none) (p : α → Bool)
    {fuel : ℕ} (hfuel : cells.length ≤ fuel) :
    searchNode w p fuel (first cells none) = some ((cells.find? fun c => p c.2).map Prod.fst) := by
  induction cells generalizing prev fuel with
  | nil => cases fuel <;> rfl
  | cons c cells ih =>
    obtain ⟨fuel, rfl⟩ := Nat.exists_eq_add_of_lt (Nat.lt_of_lt_of_le (Nat.succ_pos _) hfuel)
    obtain ⟨q, y⟩ := c
    have hfuel : cells.length ≤ fuel := by simpa using hfuel
    rw [Nat.zero_add, first, searchNode, h.1, List.find?_cons]
    simp only [Option.pure_def, Option.bind_eq_bind, Option.bind_some]
    cases hp : p y with
    | true => rfl
    | false => exact ih h.2 hfuel

theorem List.exists_concat {β : Type*} {l : List β} (h : l ≠ []) : ∃ init a, l = init ++ [a] :=
  ⟨l.dropLast, l.getLast h, (List.dropLast_append_getLast h).symm⟩

/-- An append puts a new node behind the nodes of the list. -/
theorem IsList.pushBack (h : IsList w list cells) (hnodup : (cells.map Prod.fst).Nodup)
    (hlt : ∀ c ∈ cells, c.1 < w.fresh) (hlen : cells.length + 1 < 2 ^ 32) (x : α) :
    ∃ w' list', listPushBack w list x = some (w', list') ∧
      IsList w' list' (cells ++ [(w.fresh, x)]) ∧ w'.fresh = w.fresh + 1 ∧
      ∀ q, q < w.fresh → q ∉ cells.map Prod.fst → w'.get q = w.get q := by
  by_cases hnil : cells = []
  · subst hnil
    refine ⟨_, _, if_pos h.nelem, ⟨rfl, rfl, rfl, Nodes.get_alloc_self _, trivial⟩, rfl,
      fun q hq _ => Nodes.get_alloc_of_ne hq.ne _⟩
  obtain ⟨init, ⟨t, y⟩, rfl⟩ := List.exists_concat hnil
  have htail : list.tail = some t := by rw [h.tail, last_append]; rfl
  have hne : list.nelem ≠ 0 := by rw [h.nelem, List.length_append]; exact Nat.succ_ne_zero _
  have ht : t < w.fresh := hlt (t, y) (by simp)
  have hinit : t ∉ init.map Prod.fst := by
    rw [List.map_append, List.nodup_append] at hnodup
    exact fun hm => hnodup.2.2 t hm t (by simp) rfl
  let w₁ := w.alloc ⟨x, some t, none⟩
  have hseg : Segment w₁.get none (init ++ [(t, y)]) none :=
    h.linked.congr fun c hc => Nodes.get_alloc_of_ne (hlt c hc).ne _
  have hget : ∃ node, w₁.get t = some node := ⟨_, (segment_append.1 hseg).2.1⟩
  obtain ⟨node, hnode⟩ := hget
  have hpush : listPushBack w list x = some (w₁.setNext t (some w.fresh),
      ⟨list.head, some w.fresh, (list.nelem + 1) % 2 ^ 32⟩) := by
    rw [listPushBack, if_neg hne, htail]
    simp only [Option.bind_eq_bind, Option.bind_some]
    rw [show (w.alloc ⟨x, some t, none⟩).get t = some node from hnode]
    rfl
  refine ⟨_, _, hpush, ⟨?_, ?_, ?_, ?_⟩, rfl, fun q hq hm => ?_⟩
  · change list.head = _
    rw [h.head, List.append_assoc, first_append, first_append]
    rfl
  · rw [last_append]
    rfl
  · have hnelem : (list.nelem + 1) % 2 ^ 32 = (init ++ [(t, y)]).length + 1 := by
      rw [h.nelem, Nat.mod_eq_of_lt hlen]
    exact hnelem.trans (by simp only [List.length_append, List.length_singleton])
  · refine segment_append.2 ⟨hseg.setNext hinit _, ?_, trivial⟩
    rw [last_append, Nodes.get_setNext_of_ne ht.ne', Nodes.get_alloc_self]
    rfl
  · have hqt : q ≠ t := by
      rintro rfl
      exact hm (by simp)
    rw [Nodes.get_setNext_of_ne hqt, Nodes.get_alloc_of_ne hq.ne]

theorem relinkHead_eq {curr : Node α} {p : ℕ} (h : Segment w.get none cells (some p))
    (hprev : curr.prev = last none cells) (hhead : list.head = first cells (some p))
    (hnodup : (cells.map Prod.fst).Nodup) :
    ∃ w', relinkHead w list curr = some (w', { list with head := first cells curr.next }) ∧
      Segment w'.get none cells curr.next ∧ w'.fresh = w.fresh ∧
      ∀ q, q ∉ cells.map Prod.fst → w'.get q = w.get q := by
  by_cases hnil : cells = []
  · subst hnil
    exact ⟨w, by rw [relinkHead, hprev]; rfl, trivial, rfl, fun _ _ => rfl⟩
  obtain ⟨init, ⟨a, y⟩, rfl⟩ := List.exists_concat hnil
  have hprev : curr.prev = some a := by rw [hprev, last_append]; rfl
  have hinit : a ∉ init.map Prod.fst := by
    rw [List.map_append, List.nodup_append] at hnodup
    exact fun hm => hnodup.2.2 a hm a (by simp) rfl
  have hget : w.get a = some _ := (segment_append.1 h).2.1
  have hlist : { list with head := first (init ++ [(a, y)]) curr.next } = list := by
    rw [first_append] at hhead ⊢
    exact congrArg (fun q => (⟨q, list.tail, list.nelem⟩ : ListT)) hhead.symm
  refine ⟨w.setNext a curr.next, ?_, h.setNext hinit _, rfl, fun q hq => ?_⟩
  · rw [relinkHead, hprev, hlist]
    dsimp only
    rw [hget]
    rfl
  · refine Nodes.get_setNext_of_ne ?_ _
    rintro rfl
    exact hq (by simp)

theorem relinkTail_eq {curr : Node α} {p : ℕ} (h : Segment w.get (some p) cells none)
    (hnext : curr.next = first cells none) (htail : list.tail = last (some p) cells)
    (hnodup : (cells.map Prod.fst).Nodup) :
    ∃ w', relinkTail w list curr = some (w', { list with tail := last curr.prev cells }) ∧
      Segment w'.get curr.prev cells none ∧ w'.fresh = w.fresh ∧
      ∀ q, q ∉ cells.map Prod.fst → w'.get q = w.get q := by
  cases cells with
  | nil => exact ⟨w, by rw [relinkTail, hnext]; rfl, trivial, rfl, fun _ _ => rfl⟩
  | cons c rest =>
    obtain ⟨b, y⟩ := c
    have hnext : curr.next = some b := hnext
    have hlist : { list with tail := last curr.prev ((b, y) :: rest) } = list :=
      congrArg (fun q => (⟨list.head, q, list.nelem⟩ : ListT)) htail.symm
    refine ⟨w.setPrev b curr.prev, ?_, h.setPrev (List.nodup_cons.1 hnodup).1 _, rfl,
      fun q hq => Nodes.get_setPrev_of_ne (List.ne_of_not_mem_cons hq) _⟩
    rw [relinkTail, hnext, hlist]
    dsimp only
    rw [h.1]
    rfl

/-- Unlinking a node takes it out of the list. -/
theorem IsList.unlink {pre post : List (ℕ × α)} {p : ℕ}
    (h : IsList w list (pre ++ (p, x) :: post))
    (hnodup : ((pre ++ (p, x) :: post).map Prod.fst).Nodup)
    (hlen : (pre ++ (p, x) :: post).length < 2 ^ 32) :
    ∃ w' list', unlinkNode w list p = some (w', list') ∧ IsList w' list' (pre ++ post) ∧
      w'.fresh = w.fresh ∧
      ∀ q, q ∉ (pre ++ (p, x) :: post).map Prod.fst → w'.get q = w.get q := by
  obtain ⟨hpre, hp, hpost⟩ := segment_append.1 h.linked
  have hnodup' : (pre.map Prod.fst).Nodup ∧ p ∉ pre.map Prod.fst ∧
      (∀ c ∈ post, c.1 ∉ pre.map Prod.fst) ∧ (∀ c ∈ pre, c.1 ∉ post.map Prod.fst) ∧
      p ∉ post.map Prod.fst ∧ (post.map Prod.fst).Nodup := by
    rw [List.map_append, List.map_cons, List.nodup_append, List.nodup_cons] at hnodup
    obtain ⟨hnpre, ⟨hppost, hnpost⟩, hne⟩ := hnodup
    refine ⟨hnpre, fun hm => hne p hm p List.mem_cons_self rfl, fun c hc hm =>
      ?_, fun c hc hm => ?_,
      hppost, hnpost⟩
    · exact hne c.1 hm c.1 (List.mem_cons_of_mem _ (List.mem_map_of_mem hc)) rfl
    · exact hne c.1 (List.mem_map_of_mem hc) c.1 (List.mem_cons_of_mem _ hm) rfl
  obtain ⟨hnpre, hppre, hpostpre, hprepost, hppost, hnpost⟩ := hnodup'
  let curr : Node α := ⟨x, last none pre, first post none⟩
  have hhead : list.head = first pre (some p) := h.head.trans first_append
  have htail : list.tail = last (some p) post := h.tail.trans last_append
  obtain ⟨w₁, hrun₁, hseg₁, hfresh₁, hframe₁⟩ :=
    @relinkHead_eq _ w list _ curr p hpre rfl hhead hnpre
  have hp₁ : w₁.get p = some curr := (hframe₁ p hppre).trans hp
  have hpost₁ : Segment w₁.get (some p) post none :=
    hpost.congr fun c hc => hframe₁ _ (hpostpre c hc)
  obtain ⟨w₂, hrun₂, hseg₂, hfresh₂, hframe₂⟩ := @relinkTail_eq _ w₁
    { list with head := first pre curr.next } _ curr p hpost₁ rfl htail hnpost
  have hpre₂ : Segment w₂.get none pre (first post none) :=
    hseg₁.congr fun c hc => hframe₂ _ (hprepost c hc)
  have hp₂ : w₂.get p = some curr := (hframe₂ p hppost).trans hp₁
  have hrun : unlinkNode w list p = some (w₂.free p, ⟨first pre (first post none),
      last (last none pre) post, (list.nelem + (2 ^ 32 - 1)) % 2 ^ 32⟩) := by
    rw [unlinkNode, hp]
    simp only [Option.bind_eq_bind, Option.bind_some]
    rw [show relinkHead w list ⟨x, last none pre, first post none⟩ = _ from hrun₁]
    simp only [Option.bind_some]
    rw [hp₁, Option.bind_some, hrun₂]
    rfl
  have hnp : ∀ c ∈ pre ++ post, c.1 ≠ p := fun c hc he => by
    rcases List.mem_append.1 hc with hc | hc
    · exact hppre (he ▸ List.mem_map_of_mem hc)
    · exact hppost (he ▸ List.mem_map_of_mem hc)
  have hseg : Segment w₂.get none (pre ++ post) none := segment_append.2 ⟨hpre₂, hseg₂⟩
  refine ⟨_, _, hrun, ⟨first_append.symm, last_append.symm, ?_, ?_⟩, hfresh₂.trans hfresh₁,
    fun q hq => ?_⟩
  · have hnelem : list.nelem = (pre ++ post).length + 1 := by
      rw [h.nelem, List.length_append, List.length_append, List.length_cons, Nat.add_assoc]
    have hlt : (pre ++ post).length < 2 ^ 32 := by
      rw [h.nelem] at hnelem
      omega
    change (list.nelem + (2 ^ 32 - 1)) % 2 ^ 32 = _
    omega
  · exact hseg.congr fun c hc => Nodes.get_free_of_ne (hnp c hc)
  · simp only [List.map_append, List.map_cons, List.mem_append, List.mem_cons, not_or] at hq
    rw [Nodes.get_free_of_ne hq.2.1, hframe₂ q hq.2.2, hframe₁ q hq.1]

/-- The items of the cells of an array. -/
def items (css : List (List (ℕ × α))) : List (List α) :=
  css.map fun cells => cells.map Prod.snd

@[simp]
theorem length_items : (items css).length = css.length := List.length_map ..

theorem items_cons (cells : List (ℕ × α)) (css : List (List (ℕ × α))) :
    items (cells :: css) = cells.map Prod.snd :: items css := rfl

theorem items_set (cells : List (ℕ × α)) :
    items (css.set i cells) = (items css).set i (cells.map Prod.snd) := List.map_set

theorem length_le_items (hi : css[i]? = some cells) :
    cells.length ≤ (items css).flatten.length := by
  have hmem : cells.map Prod.snd ∈ items css := List.mem_map_of_mem (List.mem_of_getElem? hi)
  have hle := (List.sublist_flatten_of_mem hmem).length_le
  rwa [List.length_map] at hle

theorem bucket_items (hi : css[i]? = some cells) :
    Buckets.bucket (items css) i = cells.map Prod.snd := by
  rw [Buckets.bucket, items, List.getElem?_map, hi]
  rfl

theorem items_modify {f : List α → List α} (hi : css[i]? = some cells)
    (hf : cells'.map Prod.snd = f (cells.map Prod.snd)) :
    items (css.set i cells') = (items css).modify i f := by
  obtain ⟨hlt, he⟩ := List.getElem?_eq_some_iff.1 hi
  rw [items_set, hf, List.modify_eq_set_getElem?, items, List.getElem?_map, hi]
  rfl

theorem Lists.exists_list (h : Lists w lists css) (hi : i < css.length) :
    ∃ list cells, lists[i]? = some list ∧ css[i]? = some cells ∧ IsList w list cells := by
  have hi' : i < lists.length := h.length ▸ hi
  exact ⟨_, _, List.getElem?_eq_getElem hi', List.getElem?_eq_getElem hi,
    h.isList (List.getElem?_eq_getElem hi') (List.getElem?_eq_getElem hi)⟩

/-- A search in one list. -/
theorem Lists.findAt_eq (h : Lists w lists css) (hi : i < css.length) (p : α → Bool) :
    findAt w lists i p = some ((Buckets.bucket (items css) i).find? p) := by
  obtain ⟨list, cells, hl, hc, hlist⟩ := h.exists_list hi
  have hsearch := searchNode_first hlist.linked p (h.length_le_fresh hc)
  rw [findAt, hl, bucket_items hc, List.find?_map]
  simp only [Option.bind_eq_bind, Option.bind_some]
  rw [hlist.head, hsearch, Option.bind_some]
  change _ = some ((cells.find? fun c => p c.2).map Prod.snd)
  cases hfind : cells.find? fun c => p c.2 with
  | none => rfl
  | some c =>
    obtain ⟨pre, post, rfl, -⟩ := (List.find?_eq_some_iff_append.1 hfind).2
    have hget : w.get c.1 = some ⟨c.2, _, _⟩ := (segment_append.1 hlist.linked).2.1
    simp only [Option.map_some]
    rw [hget]
    rfl

/-- A removal from one list takes out the item that a search finds. -/
theorem Lists.removeAt_eq (h : Lists w lists css) (hi : i < css.length)
    (hlen : (items css).flatten.length < 2 ^ 32) (p : α → Bool) :
    ∃ w' lists' css', removeAt w lists i p =
        some ((Buckets.bucket (items css) i).find? p, w', lists') ∧ Lists w' lists' css' ∧
      items css' = (items css).modify i (·.eraseP p) ∧
      ((Buckets.bucket (items css) i).find? p = none → w' = w ∧ lists' = lists) := by
  obtain ⟨list, cells, hl, hc, hlist⟩ := h.exists_list hi
  have hsearch := searchNode_first hlist.linked p (h.length_le_fresh hc)
  have hmap : (cells.map Prod.snd).find? p = (cells.find? fun c => p c.2).map Prod.snd :=
    List.find?_map ..
  rw [removeAt, hl, bucket_items hc, hmap]
  simp only [Option.bind_eq_bind, Option.bind_some]
  rw [hlist.head, hsearch, Option.bind_some]
  cases hfind : cells.find? fun c => p c.2 with
  | none =>
    refine ⟨w, lists, css, rfl, h, ?_, fun _ => ⟨rfl, rfl⟩⟩
    have hnone : ∀ x ∈ cells.map Prod.snd, ¬p x = true := by
      rw [hfind, Option.map_none, List.find?_eq_none] at hmap
      exact hmap
    have hset : css.set i cells = css := by
      obtain ⟨hlt, he⟩ := List.getElem?_eq_some_iff.1 hc
      rw [← he, List.set_getElem_self]
    rw [← items_modify (f := (·.eraseP p)) hc (List.eraseP_of_forall_not hnone).symm, hset]
  | some c =>
    obtain ⟨hp, pre, post, rfl, hpre⟩ := List.find?_eq_some_iff_append.1 hfind
    obtain ⟨w', list', hunlink, hlist', hfresh, hframe⟩ :=
      hlist.unlink (h.nodup hc) (lt_of_le_of_lt (length_le_items hc) hlen)
    have hget : w.get c.1 = some ⟨c.2, _, _⟩ := (segment_append.1 hlist.linked).2.1
    have hsub : (pre ++ post).Sublist (pre ++ c :: post) :=
      (List.sublist_cons_self c post).append_left pre
    have hlists : Lists w' (lists.set i list') (css.set i (pre ++ post)) :=
      h.set hc hlist' ((h.nodup hc).sublist (hsub.map _)) (fun d hd => .inl (hsub.subset hd))
        (fun d hd => hfresh ▸ h.lt_fresh hc d (hsub.subset hd)) hfresh.ge
        (fun q _ hq => hframe q hq)
    have herase : (pre ++ post).map Prod.snd = ((pre ++ c :: post).map Prod.snd).eraseP p := by
      have hpre' : ∀ x ∈ pre.map Prod.snd, ¬p x = true := fun x hx => by
        obtain ⟨d, hd, rfl⟩ := List.mem_map.1 hx
        simpa using hpre d hd
      rw [List.map_append, List.map_append, List.map_cons, List.eraseP_append_right _ hpre',
        List.eraseP_cons_of_pos hp]
    refine ⟨w', lists.set i list', css.set i (pre ++ post), ?_, hlists, items_modify hc herase,
      nofun⟩
    simp only [Option.map_some]
    rw [hget, Option.bind_some, hunlink]
    rfl

theorem listDelete_first {prev : Option ℕ} (h : Segment w.get prev cells none)
    (hnodup : (cells.map Prod.fst).Nodup) {fuel : ℕ} (hfuel : cells.length ≤ fuel) :
    ∃ w', listDelete fuel w (first cells none) = some w' ∧ w'.fresh = w.fresh ∧
      ∀ q, q ∉ cells.map Prod.fst → w'.get q = w.get q := by
  induction cells generalizing w prev fuel with
  | nil => exact ⟨w, by cases fuel <;> rfl, rfl, fun _ _ => rfl⟩
  | cons c cells ih =>
    obtain ⟨fuel, rfl⟩ := Nat.exists_eq_add_of_lt (Nat.lt_of_lt_of_le (Nat.succ_pos _) hfuel)
    obtain ⟨q, y⟩ := c
    obtain ⟨hq, hnodup⟩ := List.nodup_cons.1 hnodup
    have hseg : Segment (w.free q).get (some q) cells none :=
      h.2.congr fun d hd => Nodes.get_free_of_ne fun he => hq (List.mem_map.2 ⟨d, hd, he⟩)
    obtain ⟨w', hrun, hfresh, hframe⟩ :=
      @ih (w.free q) (some q) hseg hnodup fuel (by simpa using hfuel)
    refine ⟨w', ?_, hfresh, fun r hr => ?_⟩
    · rw [Nat.zero_add, first, listDelete, h.1]
      exact hrun
    · rw [List.map_cons, List.mem_cons, not_or] at hr
      rw [hframe r hr.2, Nodes.get_free_of_ne hr.1]

/-- Freeing the nodes of the first list leaves the others well formed. -/
theorem Lists.listDelete_eq (h : Lists w (list :: lists) (cells :: css)) :
    ∃ w', listDelete w.fresh w list.head = some w' ∧ Lists w' lists css := by
  have hcells : (cells :: css)[0]? = some cells := rfl
  have hlist : IsList w list cells := h.isList (i := 0) rfl rfl
  obtain ⟨w', hrun, hfresh, hframe⟩ :=
    listDelete_first hlist.linked (h.nodup hcells) (h.length_le_fresh hcells)
  refine ⟨w', hlist.head ▸ hrun, Nat.succ.inj h.length, ?_, ?_, ?_, ?_⟩
  · intro i l ds hl hds
    have hds' : (cells :: css)[i + 1]? = some ds := hds
    refine (h.isList (i := i + 1) hl hds').congr fun d hd => hframe _ fun hm => ?_
    obtain ⟨c, hc, he⟩ := List.mem_map.1 hm
    exact h.disjoint i.succ_ne_zero.symm hcells hds' c hc d hd he
  · exact fun i ds hds => h.nodup (i := i + 1) hds
  · exact fun i j ds es hij hds hes =>
      h.disjoint (i := i + 1) (j := j + 1) (by omega) hds hes
  · exact fun i ds hds d hd => hfresh ▸ h.lt_fresh (i := i + 1) hds d hd

variable {olds : List ListT} {old : List (List (ℕ × α))} {idx : α → ℕ} {nelem : ℕ}

/-- An insertion among the lists that stand behind others. -/
theorem Lists.pushAt_eq (h : Lists w (olds ++ lists) (old ++ css)) (hold : olds.length = old.length)
    (hi : idx x < css.length) (hlen : (items css).flatten.length + 1 < 2 ^ 32) :
    ∃ w' lists' css', pushAt idx w lists nelem x = some (w', lists', nelem + 1) ∧
      Lists w' (olds ++ lists') (old ++ css') ∧ items css' = Buckets.push idx (items css) x := by
  have hi' : idx x < lists.length := by
    have := h.length
    simp only [List.length_append] at this
    omega
  obtain ⟨list, hl⟩ : ∃ list, lists[idx x]? = some list := ⟨_, List.getElem?_eq_getElem hi'⟩
  obtain ⟨cells, hc⟩ : ∃ cells, css[idx x]? = some cells := ⟨_, List.getElem?_eq_getElem hi⟩
  have hl' : (olds ++ lists)[olds.length + idx x]? = some list := by
    rw [List.getElem?_append_right (Nat.le_add_right ..), Nat.add_sub_cancel_left, hl]
  have hc' : (old ++ css)[olds.length + idx x]? = some cells := by
    rw [hold, List.getElem?_append_right (Nat.le_add_right ..), Nat.add_sub_cancel_left, hc]
  have hle := length_le_items hc
  obtain ⟨w', list', hpush, hlist', hfresh, hframe⟩ :=
    (h.isList hl' hc').pushBack (h.nodup hc') (h.lt_fresh hc') (by omega) x
  have hlists := h.set hc' hlist' (by
      rw [List.map_append, List.nodup_append]
      refine ⟨h.nodup hc', List.nodup_singleton _, fun p hp q hq => ?_⟩
      obtain ⟨c, hc, rfl⟩ := List.mem_map.1 hp
      rw [List.mem_singleton.1 hq]
      exact (h.lt_fresh hc' c hc).ne)
    (fun d hd => (List.mem_append.1 hd).imp_right fun hd => by rw [List.mem_singleton.1 hd])
    (fun d hd => by
      rw [hfresh]
      rcases List.mem_append.1 hd with hd | hd
      · exact Nat.lt_succ_of_lt (h.lt_fresh hc' d hd)
      · rw [List.mem_singleton.1 hd]
        exact Nat.lt_succ_self _)
    (by omega) hframe
  rw [List.set_append_right _ _ (Nat.le_add_right ..), Nat.add_sub_cancel_left, hold,
    List.set_append_right _ _ (Nat.le_add_right ..), Nat.add_sub_cancel_left] at hlists
  refine ⟨w', _, _, ?_, hlists, items_modify hc (by rw [List.map_append]; rfl)⟩
  rw [pushAt, hl]
  simp only [Option.bind_eq_bind, Option.bind_some]
  rw [hpush]
  rfl

theorem length_flatten_push {bs : List (List α)} (hi : idx x < bs.length) :
    (Buckets.push idx bs x).flatten.length = bs.flatten.length + 1 := by
  rw [Buckets.push, (Buckets.flatten_push_perm hi x).length_eq, List.length_append]
  rfl

/-- The items of one list are inserted into the lists behind it, and the list is kept. -/
theorem Lists.copyNodes_eq {i fuel : ℕ} {done rest : List (ℕ × α)}
    (h : Lists w (olds ++ lists) (old ++ css)) (hold : olds.length = old.length)
    (hi : old[i]? = some (done ++ rest)) (hfuel : rest.length ≤ fuel)
    (hidx : ∀ x, idx x < css.length)
    (hlen : (items css).flatten.length + rest.length < 2 ^ 32) :
    ∃ w' lists' css', copyNodes idx fuel w lists nelem (first rest none) =
        some (w', lists', nelem + rest.length) ∧
      Lists w' (olds ++ lists') (old ++ css') ∧
      items css' = (rest.map Prod.snd).foldl (Buckets.push idx) (items css) := by
  induction rest generalizing w lists css done fuel nelem with
  | nil => exact ⟨w, lists, css, by cases fuel <;> rfl, h, rfl⟩
  | cons c rest ih =>
    obtain ⟨fuel, rfl⟩ := Nat.exists_eq_add_of_lt (Nat.lt_of_lt_of_le (Nat.succ_pos _) hfuel)
    obtain ⟨p, x⟩ := c
    have hnode : ∀ {w : Nodes α} {lists : List ListT} {css : List (List (ℕ × α))},
        Lists w (olds ++ lists) (old ++ css) →
          w.get p = some ⟨x, last none done, first rest none⟩ := fun {w lists css} h => by
      have hlt : i < old.length := (List.getElem?_eq_some_iff.1 hi).1
      have hi' : (old ++ css)[i]? = some (done ++ (p, x) :: rest) := by
        rw [List.getElem?_append_left hlt, hi]
      obtain ⟨list, cells, -, hc, hlist⟩ := h.exists_list (i := i) (by
        rw [List.length_append]
        omega)
      obtain rfl := Option.some.inj (hi'.symm.trans hc)
      exact (segment_append.1 hlist.linked).2.1
    rw [List.length_cons] at hlen
    obtain ⟨w₁, lists₁, css₁, hpush, h₁, hitems₁⟩ := h.pushAt_eq hold (hidx x) (by omega)
    have hlength : css₁.length = css.length := by
      rw [← length_items, hitems₁, Buckets.length_push, length_items]
    have hlen₁ : (items css₁).flatten.length = (items css).flatten.length + 1 := by
      rw [hitems₁, length_flatten_push (by rw [length_items]; exact hidx x)]
    obtain ⟨w₂, lists₂, css₂, hcopy, h₂, hitems₂⟩ := @ih w₁ lists₁ css₁ (nelem + 1) fuel
      (done ++ [(p, x)]) h₁ (by rw [hi, List.append_assoc]; rfl) (by simpa using hfuel)
        (fun y => hlength ▸ hidx y)
      (by omega)
    refine ⟨w₂, lists₂, css₂, ?_, h₂, ?_⟩
    · rw [Nat.zero_add, first, copyNodes, hnode h]
      simp only [Option.bind_eq_bind, Option.bind_some]
      rw [hpush, Option.bind_some]
      dsimp only
      rw [hnode h₁, Option.bind_some, List.length_cons, Nat.add_comm rest.length, ← Nat.add_assoc]
      exact hcopy
    · rw [hitems₂, hitems₁]
      rfl

/-- The items of the lists from one on are inserted into the lists behind them. -/
theorem Lists.copyLists_eq {done rest : List ListT} {cdone crest : List (List (ℕ × α))}
    (h : Lists w (done ++ rest ++ lists) (cdone ++ crest ++ css))
    (hdone : done.length = cdone.length) (hrest : rest.length = crest.length)
    (hidx : ∀ x, idx x < css.length)
    (hlen : (items css).flatten.length + (items crest).flatten.length < 2 ^ 32) :
    ∃ w' lists' css', rest.foldlM
        (fun s list => copyNodes idx s.1.fresh s.1 s.2.1 s.2.2 list.head) (w, lists, nelem) =
          some (w', lists', nelem + (items crest).flatten.length) ∧
      Lists w' (done ++ rest ++ lists') (cdone ++ crest ++ css') ∧
      items css' = (items crest).flatten.foldl (Buckets.push idx) (items css) := by
  induction rest generalizing w lists css nelem done cdone crest with
  | nil =>
    obtain rfl := List.eq_nil_of_length_eq_zero hrest.symm
    exact ⟨w, lists, css, rfl, h, rfl⟩
  | cons list rest ih =>
    obtain ⟨cells, crest, rfl⟩ := List.exists_cons_of_length_eq_add_one hrest.symm
    have hlength : (done ++ list :: rest).length = (cdone ++ cells :: crest).length := by
      rw [List.length_append, List.length_append, hdone, hrest]
    have hcells : (cdone ++ cells :: crest)[done.length]? = some ([] ++ cells) := by
      rw [hdone, List.getElem?_append_right (Nat.le_refl _), Nat.sub_self]
      rfl
    have hcells' : (cdone ++ cells :: crest ++ css)[done.length]? = some cells := by
      rw [List.getElem?_append_left (List.getElem?_eq_some_iff.1 hcells).1, hcells]
      rfl
    have hlist : IsList w list cells := by
      refine h.isList ?_ hcells'
      rw [List.append_assoc, List.getElem?_append_right (Nat.le_refl _), Nat.sub_self]
      rfl
    have hflat : (items (cells :: crest)).flatten.length =
        cells.length + (items crest).flatten.length := by
      rw [items_cons, List.flatten_cons, List.length_append, List.length_map]
    obtain ⟨w₁, lists₁, css₁, hcopy, h₁, hitems₁⟩ := h.copyNodes_eq hlength hcells
      (h.length_le_fresh hcells') hidx (by omega)
    have hlength₁ : css₁.length = css.length := by
      rw [← length_items, hitems₁, Buckets.length_foldl_push, length_items]
    have hlen₁ : (items css₁).flatten.length = (items css).flatten.length + cells.length := by
      have hidx' : ∀ x, idx x < (items css).length := fun x => by
        rw [length_items]
        exact hidx x
      rw [hitems₁, (Buckets.flatten_foldl_push_perm hidx' _).length_eq, List.length_append,
        List.length_map]
    rw [List.append_cons done, List.append_cons cdone] at h₁
    obtain ⟨w₂, lists₂, css₂, hfold, h₂, hitems₂⟩ := ih h₁
      (by rw [List.length_append, List.length_append, hdone]; rfl) (Nat.succ.inj hrest)
      (fun x => hlength₁ ▸ hidx x) (by omega)
    rw [← List.append_cons, ← List.append_cons] at h₂
    refine ⟨w₂, lists₂, css₂, ?_, h₂, ?_⟩
    · rw [List.foldlM_cons]
      dsimp only
      rw [hlist.head, hcopy, hflat, ← Nat.add_assoc]
      exact hfold
    · rw [hitems₂, hitems₁, items_cons, List.flatten_cons, List.foldl_append]

/-- Freeing the nodes of some lists leaves those behind them well formed. -/
theorem Lists.listDelete_lists {news : List (List (ℕ × α))}
    (h : Lists w (olds ++ lists) (old ++ news)) (hold : olds.length = old.length) :
    ∃ w', olds.foldlM (fun w list => listDelete w.fresh w list.head) w = some w' ∧
      Lists w' lists news := by
  induction olds generalizing w old with
  | nil =>
    obtain rfl := List.eq_nil_of_length_eq_zero hold.symm
    exact ⟨w, rfl, h⟩
  | cons list olds ih =>
    obtain ⟨cells, old, rfl⟩ := List.exists_cons_of_length_eq_add_one hold.symm
    obtain ⟨w₁, hdelete, h₁⟩ := Lists.listDelete_eq h
    obtain ⟨w₂, hfold, h₂⟩ := ih h₁ (Nat.succ.inj hold)
    refine ⟨w₂, ?_, h₂⟩
    rw [List.foldlM_cons, hdelete]
    exact hfold

/-- Empty lists behind others. -/
theorem Lists.append_empty (h : Lists w lists css) (n : ℕ) :
    Lists w (lists ++ List.replicate n emptyList) (css ++ List.replicate n []) := by
  have hcases : ∀ {i : ℕ} {cells : List (ℕ × α)},
      (css ++ List.replicate n [])[i]? = some cells → css[i]? = some cells ∨ cells = [] := by
    intro i cells hi
    rcases Nat.lt_or_ge i css.length with hlt | hge
    · rw [List.getElem?_append_left hlt] at hi
      exact .inl hi
    · rw [List.getElem?_append_right hge] at hi
      exact .inr (List.eq_of_mem_replicate (List.mem_of_getElem? hi))
  refine ⟨?_, ?_, ?_, ?_, ?_⟩
  · rw [List.length_append, List.length_append, h.length, List.length_replicate,
      List.length_replicate]
  · intro i list cells hl hc
    rcases Nat.lt_or_ge i css.length with hlt | hge
    · rw [List.getElem?_append_left hlt] at hc
      rw [List.getElem?_append_left (h.length ▸ hlt)] at hl
      exact h.isList hl hc
    · rw [List.getElem?_append_right hge] at hc
      rw [List.getElem?_append_right (h.length ▸ hge)] at hl
      rw [List.eq_of_mem_replicate (List.mem_of_getElem? hl),
        List.eq_of_mem_replicate (List.mem_of_getElem? hc)]
      exact ⟨rfl, rfl, rfl, trivial⟩
  · intro i cells hc
    rcases hcases hc with hc | rfl
    · exact h.nodup hc
    · exact List.nodup_nil
  · intro i j cells ds hij hc hd c hmc d hmd
    rcases hcases hc with hc | rfl
    · rcases hcases hd with hd | rfl
      · exact h.disjoint hij hc hd c hmc d hmd
      · exact absurd hmd List.not_mem_nil
    · exact absurd hmc List.not_mem_nil
  · intro i cells hc c hmc
    rcases hcases hc with hc | rfl
    · exact h.lt_fresh hc c hmc
    · exact absurd hmc List.not_mem_nil

/-- An expansion inserts the items of all lists into new lists. -/
theorem Lists.expandLists_eq (h : Lists w lists css) {n : ℕ} (hidx : ∀ x, idx x < n)
    (hlen : (items css).flatten.length < 2 ^ 32) :
    ∃ w' lists' css', expandLists idx w lists (List.replicate n emptyList) =
        some (w', lists', (items css).flatten.length) ∧
      Lists w' lists' css' ∧
      items css' = (items css).flatten.foldl (Buckets.push idx) (List.replicate n []) := by
  have hempty : items (List.replicate n ([] : List (ℕ × α))) = List.replicate n [] := by
    rw [items, List.map_replicate]
    rfl
  have hnone : (List.replicate n ([] : List α)).flatten.length = 0 := by simp
  obtain ⟨w₁, lists₁, css₁, hcopy, h₁, hitems₁⟩ :=
    @Lists.copyLists_eq _ _ _ _ idx 0 [] lists [] css (h.append_empty n) rfl h.length
      (fun x => by rw [List.length_replicate]; exact hidx x) (by rw [hempty, hnone]; omega)
  obtain ⟨w₂, hdelete, h₂⟩ := Lists.listDelete_lists h₁ h.length
  refine ⟨w₂, lists₁, css₁, ?_, h₂, by rw [hitems₁, hempty]⟩
  rw [Nat.zero_add] at hcopy
  have hcopy : lists.foldlM (fun x list => match x with
      | (w, new, nelem) => copyNodes idx w.fresh w new nelem list.head)
        (w, List.replicate n emptyList, 0) = some (w₁, lists₁, (items css).flatten.length) := hcopy
  rw [expandLists, hcopy]
  simp only [Option.bind_eq_bind, Option.bind_some]
  rw [List.nil_append] at hdelete
  rw [hdelete]
  rfl

end Lists

end StorageServer
