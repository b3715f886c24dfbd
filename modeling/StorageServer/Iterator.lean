import StorageServer.LinkedMap
import StorageServer.LinkedTable

/-!
# Iterators

`hash.c` on the nodes of the lists of a map or a table. An iterator keeps a node and the index of
its list. The next node is the one behind it, or the first one of the next list that is not empty.

`Behind` says which nodes an iterator has still to come to. A call goes to the first of them
(`Behind.next`) and returns `1` when there is none, so the calls after `hash_iter_init` go through
the nodes of all lists, list by list (`iterGetNext_visits`).
-/

open Linked

namespace StorageServer

variable {α V : Type}

/-- `hash_iter_t`. -/
structure HashIter where
  currentPos : Option ℕ
  currentList : ℤ
  deriving DecidableEq, Repr

/-- `hash_iter_init`. -/
def hashIterInit : HashIter :=
  ⟨none, -1⟩

/-- The search of the next list that is not empty. It is `none` if it reads outside the lists. -/
def nextList (lists : List ListT) (nlist : ℕ) (iter : HashIter) : Option HashIter :=
  if iter.currentList + 1 < nlist ∧ iter.currentPos = none then
    if iter.currentList + 1 < 0 then none
    else
      lists[(iter.currentList + 1).toNat]?.bind fun list =>
        nextList lists nlist ⟨list.head, iter.currentList + 1⟩
  else some iter
termination_by (nlist - (iter.currentList + 1)).toNat
decreasing_by
  omega

/-- The next position of an iterator, and what is returned. -/
def iterGetNext (w : Nodes α) (lists : List ListT) (nlist : ℕ) (iter : HashIter) :
    Option (ℤ × HashIter) := do
  let next ←
    match iter.currentPos with
    | none => some none
    | some pos => (w.get pos).map Node.next
  -- found next element in the same list
  if next.isSome then return (0, ⟨next, iter.currentList⟩)
  -- list ended: must go to next list
  let iter ← nextList lists nlist ⟨next, iter.currentList⟩
  if iter.currentPos.isSome then return (0, iter)
  -- end of hashtable
  else return (1, ⟨none, -2⟩)

/-- `hashtbl_iter_get_next`. -/
def hashtblIterGetNext (w : Nodes ℤ) (iter : HashIter) (table : LinkedTable) :
    Option (ℤ × HashIter) :=
  iterGetNext w table.list table.nlist iter

/-- `hashmap_iter_get_next`. -/
def hashmapIterGetNext (w : Nodes (CString × V)) (iter : HashIter) (map : LinkedMap) :
    Option (ℤ × HashIter) :=
  iterGetNext w map.list map.nlist iter

/-- What a number of calls return, each with the iterator after it. -/
def calls (getNext : HashIter → Option (ℤ × HashIter)) :
    ℕ → HashIter → Option (List (ℤ × HashIter))
  | 0, _ => some []
  | n + 1, iter => do
    let res ← getNext iter
    return res :: (← calls getNext n res.2)

/-! ## What is left -/

section Behind

variable {w : Nodes α} {lists : List ListT} {css : List (List (ℕ × α))} {nlist : ℕ}
  {iter : HashIter} {c : ℕ × α} {rest : List (ℕ × α)}

/-- The cells that an iterator has not come to : those behind its own in the list of its own, and
those of the lists behind. -/
inductive Behind (css : List (List (ℕ × α))) : HashIter → List (ℕ × α) → Prop
  | start : Behind css hashIterInit css.flatten
  | node {i : ℕ} {pre cells : List (ℕ × α)} {c : ℕ × α} (hi : css[i]? = some (pre ++ c :: cells)) :
    Behind css ⟨some c.1, i⟩ (cells ++ (css.drop (i + 1)).flatten)

/-- What a call comes to if these cells are left : it goes to the first of them. -/
def Goes (w : Nodes α) (lists : List ListT) (nlist : ℕ) (css : List (List (ℕ × α)))
    (iter : HashIter) : List (ℕ × α) → Prop
  | [] => iterGetNext w lists nlist iter = some (1, ⟨none, -2⟩)
  | c :: rest => ∃ i : ℕ, iterGetNext w lists nlist iter = some (0, ⟨some c.1, i⟩) ∧ i < nlist ∧
      Behind css ⟨some c.1, i⟩ rest

/-- Where a search of the next list ends. -/
theorem nextList_eq (h : Lists w lists css) (hlen : lists.length = nlist) {j : ℕ} (hj : j ≤ nlist) :
    match (css.drop j).flatten with
    | [] => nextList lists nlist ⟨none, j - 1⟩ = some ⟨none, nlist - 1⟩
    | c :: rest => ∃ (i : ℕ) (cells : List (ℕ × α)),
        nextList lists nlist ⟨none, j - 1⟩ = some ⟨some c.1, i⟩ ∧ css[i]? = some (c :: cells) ∧
          rest = cells ++ (css.drop (i + 1)).flatten := by
  have hcss : css.length = nlist := h.length.symm.trans hlen
  generalize hk : nlist - j = k
  induction k generalizing j with
  | zero =>
    obtain rfl : j = nlist := by omega
    rw [List.drop_eq_nil_of_le hcss.le, List.flatten_nil]
    rw [nextList, if_neg (by dsimp only; omega)]
  | succ k ih =>
    obtain ⟨list, cells, hlist, hcells, hlinked⟩ := h.exists_list (i := j) (by omega)
    have hdrop : css.drop j = cells :: css.drop (j + 1) := by
      obtain ⟨hlt, rfl⟩ := List.getElem?_eq_some_iff.1 hcells
      exact List.drop_eq_getElem_cons hlt
    have hindex : (j : ℤ) - 1 + 1 = j := by omega
    have hstep : nextList lists nlist ⟨none, j - 1⟩ = nextList lists nlist ⟨list.head, j⟩ := by
      rw [nextList, if_pos ⟨by dsimp only; omega, rfl⟩]
      dsimp only
      rw [hindex, if_neg (by omega), Int.toNat_natCast, hlist]
      rfl
    rw [hdrop, List.flatten_cons, hstep, hlinked.head]
    cases cells with
    | nil =>
      -- an empty list is passed by
      have hnext := ih (j := j + 1) (by omega) (by omega)
      rwa [Int.natCast_add, Int.natCast_one, Int.add_sub_cancel] at hnext
    | cons c cells =>
      refine ⟨j, cells, ?_, hcells, rfl⟩
      rw [nextList, if_neg fun hn => nomatch hn.2]
      rfl

/-- A call behind the last cell of a list goes to the first cell of the lists behind. -/
theorem iterGetNext_eq (h : Lists w lists css) (hlen : lists.length = nlist) {j : ℕ}
    (hj : j ≤ nlist)
    {pos : Option ℕ} (hpos : pos = none ∨ ∃ p node, pos = some p ∧ w.get p = some node ∧
      node.next = none) : Goes w lists nlist css ⟨pos, j - 1⟩ (css.drop j).flatten := by
  have hcss : css.length = nlist := h.length.symm.trans hlen
  have hlist : iterGetNext w lists nlist ⟨pos, j - 1⟩ =
      (nextList lists nlist ⟨none, j - 1⟩).bind fun iter =>
        if iter.currentPos.isSome then some (0, iter) else some (1, ⟨none, -2⟩) := by
    rcases hpos with rfl | ⟨p, node, rfl, hget, hnext⟩
    · rfl
    · simp only [iterGetNext, hget, Option.map_some, hnext]
      rfl
  have hsearch := nextList_eq h hlen hj
  cases hrest : (css.drop j).flatten with
  | nil =>
    rw [hrest] at hsearch
    rw [Goes, hlist, hsearch]
    rfl
  | cons c rest =>
    rw [hrest] at hsearch
    obtain ⟨i, cells, hfound, hi, rfl⟩ := hsearch
    refine ⟨i, by rw [hlist, hfound]; rfl, ?_, @Behind.node _ _ _ [] _ _ hi⟩
    exact hcss ▸ (List.getElem?_eq_some_iff.1 hi).1

/-- A call goes to the first cell that is left. -/
theorem Behind.next (hbehind : Behind css iter rest) (h : Lists w lists css)
    (hlen : lists.length = nlist) : Goes w lists nlist css iter rest := by
  cases hbehind with
  | start => exact iterGetNext_eq h hlen (Nat.zero_le _) (.inl rfl)
  | @node i pre cells c hi =>
    have hlt : i < nlist := h.length.symm.trans hlen ▸ (List.getElem?_eq_some_iff.1 hi).1
    obtain ⟨list, -, hlist, -, -⟩ := h.exists_list (List.getElem?_eq_some_iff.1 hi).1
    have hget := (segment_append.1 (h.isList hlist hi).linked).2.1
    cases cells with
    | nil =>
      have hnext := iterGetNext_eq h hlen (j := i + 1) hlt
        (.inr ⟨c.1, _, rfl, hget, rfl⟩)
      rwa [Int.natCast_add, Int.natCast_one, Int.add_sub_cancel] at hnext
    | cons d cells =>
      refine ⟨i, ?_, hlt, @Behind.node _ _ _ (pre ++ [c]) _ _ ?_⟩
      · simp only [iterGetNext, hget, Option.map_some]
        rfl
      · rw [hi, List.append_assoc]
        rfl

/-- The calls go through the cells that are left. -/
theorem Behind.calls_eq (hbehind : Behind css iter rest) (h : Lists w lists css)
    (hlen : lists.length = nlist) :
    ∃ steps, calls (iterGetNext w lists nlist) (rest.length + 1) iter =
        some (steps ++ [(1, ⟨none, -2⟩)]) ∧
      steps.map (fun s => (s.1, s.2.currentPos)) = rest.map (fun c => (0, some c.1)) ∧
      ∀ s ∈ steps, 0 ≤ s.2.currentList ∧ s.2.currentList < nlist := by
  induction rest generalizing iter with
  | nil =>
    have hnext : iterGetNext w lists nlist iter = some (1, ⟨none, -2⟩) := hbehind.next h hlen
    refine ⟨[], ?_, rfl, nofun⟩
    rw [List.length_nil, calls, hnext]
    rfl
  | cons c rest ih =>
    obtain ⟨i, hnext, hi, hbehind'⟩ := hbehind.next h hlen
    obtain ⟨steps, hcalls, hvisit, hrange⟩ := ih hbehind'
    refine ⟨(0, ⟨some c.1, i⟩) :: steps, ?_, ?_, ?_⟩
    · rw [List.length_cons, calls, hnext, Option.bind_eq_bind, Option.bind_some, hcalls]
      rfl
    · rw [List.map_cons, List.map_cons, hvisit]
    · intro s hs
      rcases List.mem_cons.1 hs with rfl | hs
      · exact ⟨by dsimp only; omega, by dsimp only; omega⟩
      · exact hrange s hs

/-- No node is a cell twice. -/
theorem Lists.nodup_flatten (h : Lists w lists css) : (css.flatten.map Prod.fst).Nodup := by
  rw [List.map_flatten, List.nodup_flatten]
  constructor
  · intro ps hps
    obtain ⟨cells, hcells, rfl⟩ := List.mem_map.1 hps
    obtain ⟨i, hi⟩ := List.mem_iff_getElem?.1 hcells
    exact h.nodup hi
  · refine List.pairwise_map.2 (List.pairwise_iff_getElem.2 fun i j hi hj hij p hp hq => ?_)
    obtain ⟨c, hc, rfl⟩ := List.mem_map.1 hp
    obtain ⟨d, hd, he⟩ := List.mem_map.1 hq
    exact h.disjoint (Nat.ne_of_lt hij) (List.getElem?_eq_getElem hi) (List.getElem?_eq_getElem hj)
      c hc d hd he.symm

end Behind

/-! ## Iterations -/

/-- After `hash_iter_init` the calls return `0` as often as there are elements, with the position
on the nodes of the lists, list by list, and then `1`. They read no list but those of the array. -/
def Visits (getNext : HashIter → Option (ℤ × HashIter)) (w : Nodes α) (lists : List ListT)
    (nlist nelem : ℕ) (xs : List (List α)) : Prop :=
  lists.length = nlist ∧ ∃ css steps, Lists w lists css ∧ items css = xs ∧
    (css.flatten.map Prod.fst).Nodup ∧ steps.length = nelem ∧
    calls getNext (nelem + 1) hashIterInit = some (steps ++ [(1, ⟨none, -2⟩)]) ∧
    steps.map (fun s => (s.1, s.2.currentPos)) = css.flatten.map (fun c => (0, some c.1)) ∧
    ∀ s ∈ steps, 0 ≤ s.2.currentList ∧ s.2.currentList < nlist

/-- The calls go through the nodes of well-formed lists. -/
theorem Lists.visits {w : Nodes α} {lists : List ListT} {css : List (List (ℕ × α))}
    {nlist nelem : ℕ}
    (h : Lists w lists css) (hlen : (items css).length = nlist)
    (hnelem : nelem = (items css).flatten.length) :
    Visits (iterGetNext w lists nlist) w lists nlist nelem (items css) := by
  have hlists : lists.length = nlist := by rw [h.length, ← length_items, hlen]
  obtain ⟨steps, hcalls, hvisit, hrange⟩ := Behind.start.calls_eq h hlists
  have hcells : nelem = css.flatten.length := by
    rw [hnelem, items, ← List.map_flatten, List.length_map]
  have hsteps : steps.length = nelem := by
    have hmap := congrArg List.length hvisit
    rwa [List.length_map, List.length_map, ← hcells] at hmap
  exact ⟨hlists, css, steps, h, rfl, h.nodup_flatten, hsteps, hcells ▸ hcalls, hvisit, hrange⟩

/-- A call after the end would read the list in front of the first. -/
theorem iterGetNext_end (w : Nodes α) (lists : List ListT) (nlist : ℕ) :
    iterGetNext w lists nlist ⟨none, -2⟩ = none := by
  have hread : nextList lists nlist ⟨none, -2⟩ = none := by
    rw [nextList, if_pos ⟨by dsimp only; omega, rfl⟩, if_pos (by decide)]
  change (nextList lists nlist ⟨none, -2⟩).bind _ = none
  rw [hread]
  rfl

/-- An iteration over a table or a map comes to every element once, in the order of the lists. -/
theorem iterGetNext_visits :
    (∀ (w : Nodes ℤ) (table : LinkedTable) (abs : HashTbl), table.Represents w abs →
      abs.WellFormed →
      Visits (hashtblIterGetNext w · table) w table.list table.nlist table.nelem abs.list) ∧
    ∀ (V : Type) (w : Nodes (CString × V)) (map : LinkedMap) (abs : HashMap V),
      map.Represents w abs → abs.WF →
      Visits (hashmapIterGetNext w · map) w map.list map.nlist map.nelem abs.list := by
  constructor
  · rintro w table abs ⟨hnlist, hnelem, -, css, hlists, hitems⟩ hwf
    rw [← hitems]
    exact hlists.visits (by rw [hitems, hwf.length, hnlist])
      (by rw [hitems, hnelem, hwf.nelem, HashTbl.items])
  · rintro V w map abs ⟨hnlist, hnelem, -, css, hlists, hitems⟩ hwf
    rw [← hitems]
    exact hlists.visits (by rw [hitems, hwf.length, hnlist])
      (by rw [hitems, hnelem, hwf.nelem, HashMap.entries])

/-- An example of `iterGetNext_visits` : a table of two descriptors, and a map of two files. -/
theorem iterGetNext_visits_two :
    (∃ w table, ((LinkedTable.insertNode ⟨fun _ => none, 0⟩
          ⟨8, 0, List.replicate 8 emptyList, defaultHashtblHash⟩ 5).bind fun r =>
        LinkedTable.insertNode r.1 r.2 13) = some (w, table) ∧ table.nelem = 2 ∧
      Visits (hashtblIterGetNext w · table) w table.list table.nlist table.nelem
        (hashtblInsertNode (hashtblInsertNode ⟨8, 0, List.replicate 8 [], defaultHashtblHash⟩ 5)
          13).list) ∧
    ∃ (w : Nodes (CString × ℕ)) (map : LinkedMap), ((LinkedMap.insertNode ⟨fun _ => none, 0⟩
          ⟨8, 0, List.replicate 8 emptyList, defaultHashmapHash⟩ [97] 0).bind fun r =>
        LinkedMap.insertNode r.1 r.2 [98] 1) = some (w, map) ∧ map.nelem = 2 ∧
      Visits (hashmapIterGetNext w · map) w map.list map.nlist map.nelem
        (hashmapInsertNode (hashmapInsertNode
          (⟨8, 0, List.replicate 8 [], defaultHashmapHash⟩ : HashMap ℕ) [97] 0) [98] 1).list := by
  constructor
  · have hwf := HashTbl.WF.init 8 (by decide) (by decide)
    obtain ⟨w, table, hinsert, hrep⟩ :=
      (LinkedTable.represents_init 8 ⟨fun _ => none, 0⟩).insertNode hwf (by decide) 5
    have hwf₁ := hwf.wellFormed.insertNode 5
    have hlen := (hwf.wellFormed.insertNode_perm 5).length_eq
    obtain ⟨w', table', hinsert', hrep'⟩ := hrep.insertNode
      (HashTbl.wf_iff.2 ⟨hwf₁, rfl⟩) (by rw [hlen]; decide) 13
    refine ⟨w', table', ?_, hrep'.nelem,
      iterGetNext_visits.1 w' table' _ hrep' (hwf₁.insertNode 13)⟩
    rw [hinsert]
    exact hinsert'
  · have hwf : (⟨8, 0, List.replicate 8 [], defaultHashmapHash⟩ : HashMap ℕ).WF :=
      HashMap.WF.init 8 (by decide) (by decide) defaultHashmapHash
    obtain ⟨w, map, hinsert, hrep⟩ :=
      (LinkedMap.represents_init 8 defaultHashmapHash ⟨fun _ => none, 0⟩).insertNode hwf (by decide)
        [97] 0
    have hwf₁ := hwf.insertNode [97] 0
    have hlen := (hwf.insertNode_perm [97] 0).length_eq
    obtain ⟨w', map', hinsert', hrep'⟩ := hrep.insertNode hwf₁ (by rw [hlen]; decide) [98] 1
    refine ⟨w', map', ?_, hrep'.nelem, iterGetNext_visits.2 ℕ w' map' _ hrep'
      (hwf₁.insertNode [98] 1)⟩
    rw [hinsert]
    exact hinsert'

end StorageServer
