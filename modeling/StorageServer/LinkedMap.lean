import StorageServer.HashMap
import StorageServer.LinkedLists

/-!
# The hash map over its nodes

`hashmap.c` on the nodes of its lists. `LinkedMap.Represents` says that the lists are well
formed and hold the items of a `HashMap`, and every function does to them what it does to the
buckets of that map.

A sequence of insertions and removals leaves the items that were inserted and not removed,
those with the same key in the order of insertion (`linkedMap_refines`).
-/

open Linked

namespace StorageServer

variable {V : Type}

/-- `hashmap_t`. -/
structure LinkedMap where
  nlist : ℕ
  nelem : ℕ
  list : List ListT
  hashFunct : CString → ℕ → ℕ

namespace LinkedMap

/-- The list in which `key` is looked up. -/
def hash (map : LinkedMap) (key : CString) : ℕ :=
  map.hashFunct key map.nlist % map.nlist

/-- `hashmap_init`. -/
def init (nlist : ℤ) (hashFunct : CString → ℕ → ℕ) : Option LinkedMap :=
  if nlist < 0 then none
  else some ⟨nlist.toNat, 0, List.replicate nlist.toNat emptyList, hashFunct⟩

/-- `_hashmap_insert`. -/
def insertNode (w : Nodes (CString × V)) (map : LinkedMap) (key : CString) (data : V) :
    Option (Nodes (CString × V) × LinkedMap) := do
  let (w, list, nelem) ← pushAt (fun item => map.hash item.1) w map.list map.nelem (key, data)
  return (w, { map with list := list, nelem := nelem })

/-- `hashmap_expand`. The inner `none` is a failed allocation. -/
def expand (w : Nodes (CString × V)) (map : LinkedMap) :
    Option (Option (Nodes (CString × V) × LinkedMap)) :=
  (init (toInt (map.nlist * 2)) map.hashFunct).mapM fun newMap => do
    let (w, list, nelem) ← expandLists (fun item => newMap.hash item.1) w map.list newMap.list
    return (w, { newMap with list := list, nelem := nelem })

/-- `hashmap_insert`. -/
def insert (w : Nodes (CString × V)) (map : LinkedMap) (key : CString) (item : V) :
    Option (ℤ × Nodes (CString × V) × LinkedMap) := do
  if map.nelem + 1 > map.nlist / 2 then
    match ← expand w map with
    | none => return (-1, w, map)
    | some (w, map) => return (0, ← insertNode w map key item)
  else return (0, ← insertNode w map key item)

/-- `hashmap_remove` : `0` and the removed item, or `1`. -/
def remove (w : Nodes (CString × V)) (map : LinkedMap) (key : CString) :
    Option ((ℤ × Option (CString × V)) × Nodes (CString × V) × LinkedMap) := do
  match ← removeAt w map.list (map.hash key) fun curr => curr.1 = key with
  | (none, w, list) => return ((1, none), w, { map with list := list })
  | (some curr, w, list) =>
    return ((0, some curr), w, { map with list := list, nelem := map.nelem - 1 })

/-- `hashmap_get_by_key` : the inner `none` is its `ENOENT`. -/
def getByKey (w : Nodes (CString × V)) (map : LinkedMap) (key : CString) : Option (Option V) := do
  return (← findAt w map.list (map.hash key) fun curr => curr.1 = key).map Prod.snd

/-- `hashmap_contains`. -/
def contains (w : Nodes (CString × V)) (map : LinkedMap) (key : CString) : Option Bool := do
  return (← findAt w map.list (map.hash key) fun curr => curr.1 = key).isSome

end LinkedMap

/-! ## The map that the nodes represent -/

section Represents

variable {w : Nodes (CString × V)} {map : LinkedMap} {abs : HashMap V}

/-- The nodes hold the items of the map. -/
structure LinkedMap.Represents (w : Nodes (CString × V)) (map : LinkedMap) (abs : HashMap V) :
    Prop where
  nlist : map.nlist = abs.nlist
  nelem : map.nelem = abs.nelem
  hashFunct : map.hashFunct = abs.hashFunct
  lists : ∃ css, Lists w map.list css ∧ items css = abs.list

namespace LinkedMap

theorem Represents.hash_eq (h : map.Represents w abs) : map.hash = abs.hash := by
  funext key
  rw [hash, HashMap.hash, h.nlist, h.hashFunct]

/-- `_hashmap_insert` inserts a node. -/
theorem Represents.insertNode (h : map.Represents w abs) (hwf : abs.WF)
    (hlen : abs.entries.length + 1 < 2 ^ 32) (key : CString) (data : V) :
    ∃ w' map', LinkedMap.insertNode w map key data = some (w', map') ∧
      map'.Represents w' (hashmapInsertNode abs key data) := by
  obtain ⟨css, hlists, hitems⟩ := h.lists
  have hlt : abs.hash key < css.length := by
    rw [← length_items, hitems]
    exact hwf.hash_lt key
  obtain ⟨w', lists', css', hpush, hlists', hitems'⟩ :=
    @Lists.pushAt_eq _ w map.list css (key, data)
    [] [] (fun item => abs.hash item.1) map.nelem hlists rfl hlt (by rwa [hitems])
  refine ⟨w', { map with list := lists', nelem := map.nelem + 1 }, ?_,
    ⟨h.nlist, congrArg (· + 1) h.nelem, h.hashFunct, css', hlists', by rw [hitems', hitems]; rfl⟩⟩
  rw [LinkedMap.insertNode, h.hash_eq, hpush]
  rfl

/-- `hashmap_expand` moves the items into twice as many lists. -/
theorem Represents.expand (h : map.Represents w abs) (hwf : abs.WF)
    (hlen : abs.entries.length < 2 ^ 32) {abs' : HashMap V} (he : hashmapExpand abs = some abs') :
    ∃ w' map', LinkedMap.expand w map = some (some (w', map')) ∧ map'.Represents w' abs' := by
  obtain ⟨css, hlists, hitems⟩ := h.lists
  obtain ⟨hwf', hperm, hnlist'⟩ := hwf.hashmapExpand_some he
  obtain ⟨hlt, rfl⟩ := hwf.hashmapExpand_eq_some he
  have hpos := hwf.pos
  let new : HashMap V := ⟨2 * abs.nlist, 0, List.replicate (2 * abs.nlist) [], abs.hashFunct⟩
  have hn : toInt (map.nlist * 2) = ((2 * abs.nlist : ℕ) : ℤ) := by
    rw [h.nlist]
    unfold toInt
    omega
  have hinit : init (toInt (map.nlist * 2)) map.hashFunct = some ⟨2 * abs.nlist, 0,
      List.replicate (2 * abs.nlist) emptyList, abs.hashFunct⟩ := by
    rw [hn, init, if_neg (by omega), h.hashFunct, Int.toNat_natCast]
  obtain ⟨w', lists', css', hexpand, hlists', hitems'⟩ := @Lists.expandLists_eq _ w map.list css
    (fun item => new.hash item.1) hlists (2 * abs.nlist)
    (fun item => Nat.mod_lt _ (show 0 < 2 * abs.nlist by omega)) (by rwa [hitems])
  obtain ⟨hlist, hfunct⟩ := @HashMap.insertNodes_list V new abs.entries
  refine ⟨w', ⟨2 * abs.nlist, (items css).flatten.length, lists', abs.hashFunct⟩, ?_,
    ⟨hnlist'.symm, ?_, hfunct.symm, css', hlists', ?_⟩⟩
  · have hexpand : expandLists (fun item => hash ⟨2 * abs.nlist, 0,
        List.replicate (2 * abs.nlist) emptyList, abs.hashFunct⟩ item.1) w map.list
          (List.replicate (2 * abs.nlist) emptyList) =
            some (w', lists', (items css).flatten.length) := hexpand
    rw [LinkedMap.expand, hinit, Option.mapM_some]
    dsimp only
    rw [hexpand]
    rfl
  · rw [hwf'.nelem, hperm.length_eq, hitems]
    rfl
  · rw [hitems', hitems]
    exact hlist.symm

/-- `hashmap_insert`. -/
theorem Represents.insert (h : map.Represents w abs) (hwf : abs.WF)
    (hlen : abs.entries.length < 2 ^ 29) (key : CString) (item : V) :
    ∃ w' map', LinkedMap.insert w map key item = some (0, w', map') ∧
      map'.Represents w' (hashmapInsert .all abs key item).2 := by
  unfold LinkedMap.insert
  rw [HashMap.hashmapInsert_all]
  rw [h.nelem, h.nlist]
  split_ifs with hfull
  · obtain ⟨abs', he⟩ : ∃ abs', hashmapExpand abs = some abs' := by
      cases he : hashmapExpand abs with
      | some abs' => exact ⟨abs', rfl⟩
      | none =>
        have := hwf.hashmapExpand_eq_none.1 he
        have := hwf.nelem
        omega
    obtain ⟨hwf', hperm, -⟩ := hwf.hashmapExpand_some he
    obtain ⟨w₁, map₁, hexpand, h₁⟩ := h.expand hwf (by omega) he
    obtain ⟨w₂, map₂, hinsert, h₂⟩ :=
      h₁.insertNode hwf' (by rw [hperm.length_eq]; omega) key item
    refine ⟨w₂, map₂, ?_, by rw [he]; exact h₂⟩
    rw [hexpand]
    simp only [Option.bind_eq_bind, Option.bind_some]
    rw [hinsert]
    rfl
  · obtain ⟨w', map', hinsert, h'⟩ := h.insertNode hwf (by omega) key item
    refine ⟨w', map', ?_, h'⟩
    rw [hinsert]
    rfl

/-- `hashmap_remove`. -/
theorem Represents.remove (h : map.Represents w abs) (hwf : abs.WF)
    (hlen : abs.entries.length < 2 ^ 32) (key : CString) :
    ∃ w' map', LinkedMap.remove w map key =
        some ((if (abs.entries.find? fun curr => curr.1 = key).isSome then 0 else 1,
          abs.entries.find? fun curr => curr.1 = key), w', map') ∧
      map'.Represents w' (hashmapRemove abs key).2 ∧
      ((abs.entries.find? fun curr => curr.1 = key) = none → w' = w ∧ map' = map) := by
  obtain ⟨css, hlists, hitems⟩ := h.lists
  have hlt : abs.hash key < css.length := by
    rw [← length_items, hitems]
    exact hwf.hash_lt key
  obtain ⟨w', lists', css', hremove, hlists', hitems', hsame⟩ :=
    hlists.removeAt_eq hlt (by rwa [hitems]) fun curr => curr.1 = key
  rw [hitems] at hremove hitems' hsame
  rw [← hwf.find?_bucket key]
  rw [LinkedMap.remove, h.hash_eq, hremove, hashmapRemove]
  cases hfind : (Buckets.bucket abs.list (abs.hash key)).find? fun curr => curr.1 = key with
  | none =>
    obtain ⟨rfl, rfl⟩ := hsame hfind
    exact ⟨w', map, rfl, h, fun _ => ⟨rfl, rfl⟩⟩
  | some curr =>
    refine ⟨w', _, rfl, ⟨h.nlist, congrArg (· - 1) h.nelem, h.hashFunct, css', hlists', hitems'⟩,
      fun hn => absurd hn (Option.some_ne_none curr)⟩

/-- `hashmap_get_by_key`. -/
theorem Represents.getByKey (h : map.Represents w abs) (hwf : abs.WF) (key : CString) :
    LinkedMap.getByKey w map key =
      some ((abs.entries.find? fun curr => curr.1 = key).map Prod.snd) := by
  obtain ⟨css, hlists, hitems⟩ := h.lists
  have hlt : abs.hash key < css.length := by
    rw [← length_items, hitems]
    exact hwf.hash_lt key
  rw [LinkedMap.getByKey, h.hash_eq, hlists.findAt_eq hlt, hitems, hwf.find?_bucket]
  rfl

/-- `hashmap_contains`. -/
theorem Represents.contains (h : map.Represents w abs) (hwf : abs.WF) (key : CString) :
    LinkedMap.contains w map key = some (abs.entries.find? fun curr => curr.1 = key).isSome := by
  obtain ⟨css, hlists, hitems⟩ := h.lists
  have hlt : abs.hash key < css.length := by
    rw [← length_items, hitems]
    exact hwf.hash_lt key
  rw [LinkedMap.contains, h.hash_eq, hlists.findAt_eq hlt, hitems, hwf.find?_bucket]
  rfl

theorem represents_init (nlist : ℕ) (hashFunct : CString → ℕ → ℕ) (w : Nodes (CString × V)) :
    Represents w ⟨nlist, 0, List.replicate nlist emptyList, hashFunct⟩
      (⟨nlist, 0, List.replicate nlist [], hashFunct⟩ : HashMap V) := by
  have hnil : Lists w ([] : List ListT) ([] : List (List (ℕ × CString × V))) :=
    ⟨rfl, nofun, nofun, nofun, nofun⟩
  exact ⟨rfl, rfl, rfl, _, hnil.append_empty nlist, by simp [items]⟩

end LinkedMap

end Represents

/-! ## Sequences of calls -/

/-- A call that changes a map. -/
inductive MapCall (V : Type)
  | insert (key : CString) (item : V)
  | remove (key : CString)

/-- The items after a call, in the order of insertion. -/
def MapCall.live (items : List (CString × V)) : MapCall V → List (CString × V)
  | insert key item => items ++ [(key, item)]
  | remove key => items.eraseP fun curr => curr.1 = key

/-- What a call is to return, and the item that it is to give back. -/
def MapCall.result (items : List (CString × V)) : MapCall V → ℤ × Option (CString × V)
  | insert _ _ => (0, none)
  | remove key =>
    (if (items.find? fun curr => curr.1 = key).isSome then 0 else 1,
      items.find? fun curr => curr.1 = key)

/-- The items that were inserted and not removed, in the order of insertion. -/
def liveItems (items : List (CString × V)) (calls : List (MapCall V)) : List (CString × V) :=
  calls.foldl MapCall.live items

/-- What the calls are to return. -/
def callResults : List (CString × V) → List (MapCall V) → List (ℤ × Option (CString × V))
  | _, [] => []
  | items, call :: calls => call.result items :: callResults (call.live items) calls

namespace LinkedMap

/-- A call. -/
def call (w : Nodes (CString × V)) (map : LinkedMap) :
    MapCall V → Option ((ℤ × Option (CString × V)) × Nodes (CString × V) × LinkedMap)
  | .insert key item => do
    let (r, w, map) ← insert w map key item
    return ((r, none), w, map)
  | .remove key => remove w map key

/-- The calls of a sequence, with what they return. -/
def run : List (MapCall V) → Nodes (CString × V) → LinkedMap →
    Option (List (ℤ × Option (CString × V)) × Nodes (CString × V) × LinkedMap)
  | [], w, map => some ([], w, map)
  | c :: calls, w, map => do
    let (r, w, map) ← call w map c
    let (rs, w, map) ← run calls w map
    return (r :: rs, w, map)

/-- The map holds these live items : every list is a well-formed doubly linked list of the items
that hash to it, and the items with one key come in the order of insertion. -/
structure Holds (hashFunct : CString → ℕ → ℕ) (w : Nodes (CString × V)) (map : LinkedMap)
    (live : List (CString × V)) : Prop where
  getByKey : ∀ key, getByKey w map key =
    some ((live.find? fun curr => curr.1 = key).map Prod.snd)
  contains : ∀ key, contains w map key = some (live.find? fun curr => curr.1 = key).isSome
  remove : ∀ key, (live.find? fun curr => curr.1 = key) = none →
    remove w map key = some ((1, none), w, map)
  nelem : map.nelem = live.length
  load : map.nelem ≤ map.nlist / 2
  lists : ∃ css, Lists w map.list css ∧ css.length = map.nlist ∧
    (∀ (i : ℕ) cells, css[i]? = some cells →
      ∀ c ∈ cells, hashFunct c.2.1 map.nlist % map.nlist = i) ∧
    HashMap.SameOrder (items css).flatten live ∧ (items css).flatten.Perm live

/-- A map that represents the live items, with at most half as many items as lists. -/
structure Keeps (hashFunct : CString → ℕ → ℕ) (w : Nodes (CString × V)) (map : LinkedMap)
    (abs : HashMap V) (live : List (CString × V)) : Prop where
  represents : map.Represents w abs
  wf : abs.WF
  sameOrder : HashMap.SameOrder abs.entries live
  hashFunct : abs.hashFunct = hashFunct
  load : live.length ≤ abs.nlist / 2

section Keeps

variable {hashFunct : CString → ℕ → ℕ} {w : Nodes (CString × V)} {map : LinkedMap}
  {abs : HashMap V} {live : List (CString × V)} {c : MapCall V}

theorem Keeps.length_eq (h : map.Keeps hashFunct w abs live) : abs.entries.length = live.length :=
  h.sameOrder.perm.length_eq

theorem Keeps.holds (h : map.Keeps hashFunct w abs live) (hlen : live.length < 2 ^ 28) :
    map.Holds hashFunct w live := by
  have hnelem : map.nelem = live.length := by rw [h.represents.nelem, h.wf.nelem, h.length_eq]
  obtain ⟨css, hlists, hitems⟩ := h.represents.lists
  refine ⟨fun key => ?_, fun key => ?_, fun key hnone =>
    ?_, hnelem, ?_, css, hlists, ?_, fun i cells hi c hc => ?_, ?_,
    ?_⟩
  · rw [h.represents.getByKey h.wf, h.sameOrder.find?]
  · rw [h.represents.contains h.wf, h.sameOrder.find?]
  · obtain ⟨w', map', hremove, -, hsame⟩ :=
      h.represents.remove h.wf (by rw [h.length_eq]; omega) key
    rw [h.sameOrder.find?, hnone] at hremove hsame
    obtain ⟨rfl, rfl⟩ := hsame rfl
    exact hremove
  · rw [hnelem, h.represents.nlist]
    exact h.load
  · rw [← length_items, hitems, h.wf.length, h.represents.nlist]
  · have hi' : abs.list[i]? = some (cells.map Prod.snd) := by
      rw [← hitems, items, List.getElem?_map, hi]
      rfl
    have hplaced : abs.hash c.2.1 = i := h.wf.placed i _ hi' c.2 (List.mem_map_of_mem hc)
    rwa [HashMap.hash, ← h.represents.nlist, h.hashFunct] at hplaced
  · rw [hitems]
    exact h.sameOrder
  · rw [hitems]
    exact h.sameOrder.perm

/-- A call returns what it is to return, and leaves the live items. -/
theorem Keeps.call (h : map.Keeps hashFunct w abs live) (hlen : live.length < 2 ^ 28)
    (hlen' : (c.live live).length < 2 ^ 28) :
    ∃ w' map' abs', map.call w c = some (c.result live, w', map') ∧
      map'.Keeps hashFunct w' abs' (c.live live) := by
  have hlength := h.length_eq
  have hload := h.load
  have hpos := h.wf.pos
  cases c with
  | insert key item =>
    obtain ⟨w', map', hinsert, hrep⟩ := h.represents.insert h.wf (by omega) key item
    have htakes : abs.Takes .all := h.wf.takes_of_lt (by omega) ⟨rfl, rfl⟩
    obtain ⟨-, abs', he, hwf, -, hnlist⟩ :=
      (h.wf.hashmapInsert_cases .all key item).resolve_left fun hn => hn.1 htakes
    obtain ⟨hsame, hfunct⟩ := h.wf.hashmapInsert_sameOrder he
    rw [he] at hrep
    refine ⟨w', map', abs', ?_, hrep, hwf, hsame.trans (h.sameOrder.append _),
      hfunct.trans h.hashFunct, ?_⟩
    · rw [LinkedMap.call, hinsert]
      rfl
    · rw [MapCall.live, List.length_append, List.length_singleton]
      split_ifs at hnlist <;> omega
  | remove key =>
    obtain ⟨w', map', hremove, hrep, -⟩ := h.represents.remove h.wf (by omega) key
    rw [h.sameOrder.find?] at hremove
    obtain ⟨hwf, hentries, hnlist, hfunct⟩ := h.wf.hashmapRemove_entries key
    refine ⟨w', map', _, hremove, hrep, hwf, ?_, hfunct.trans h.hashFunct, ?_⟩
    · rw [hentries]
      exact h.sameOrder.eraseP key
    · rw [hnlist]
      exact (List.eraseP_sublist ..).length_le.trans h.load

/-- A sequence of calls returns what it is to return, and leaves the live items. -/
theorem Keeps.run (h : map.Keeps hashFunct w abs live) (calls : List (MapCall V))
    (hlive : ∀ cs, cs <+: calls → (liveItems live cs).length < 2 ^ 28) :
    ∃ w' map' abs', map.run calls w = some (callResults live calls, w', map') ∧
      map'.Keeps hashFunct w' abs' (liveItems live calls) := by
  induction calls generalizing w map abs live with
  | nil => exact ⟨w, map, abs, rfl, h⟩
  | cons c calls ih =>
    have hlen : live.length < 2 ^ 28 := hlive [] List.nil_prefix
    have hlen' : (c.live live).length < 2 ^ 28 :=
      hlive [c] ((List.prefix_append [c] calls))
    obtain ⟨w₁, map₁, abs₁, hcall, h₁⟩ := h.call hlen hlen'
    obtain ⟨w₂, map₂, abs₂, hrun, h₂⟩ := ih h₁ fun cs hcs =>
      hlive (c :: cs) (List.cons_prefix_cons.2 ⟨rfl, hcs⟩)
    refine ⟨w₂, map₂, abs₂, ?_, h₂⟩
    rw [LinkedMap.run, hcall]
    simp only [Option.bind_eq_bind, Option.bind_some]
    rw [hrun]
    rfl

end Keeps

end LinkedMap

/-- A sequence of insertions and removals that keeps fewer than `2 ^ 28` items returns what it
is to return, and the map then holds the items that were inserted and not removed. -/
theorem linkedMap_refines (hashFunct : CString → ℕ → ℕ) {nlist : ℕ} (hpos : 1 ≤ nlist)
    (hle : nlist ≤ 2 ^ 29) (calls : List (MapCall V))
    (hlive : ∀ cs, cs <+: calls → (liveItems [] cs).length < 2 ^ 28)
    (w₀ : Nodes (CString × V)) :
    ∃ map₀ w map, LinkedMap.init nlist hashFunct = some map₀ ∧
      map₀.run calls w₀ = some (callResults [] calls, w, map) ∧
      map.Holds hashFunct w (liveItems [] calls) := by
  have hkeeps : LinkedMap.Keeps hashFunct w₀
      ⟨nlist, 0, List.replicate nlist emptyList, hashFunct⟩ _ [] :=
    ⟨LinkedMap.represents_init nlist hashFunct w₀,
      HashMap.WF.init nlist (by omega) (by omega) hashFunct, fun _ =>
        by simp [HashMap.entries], rfl,
      Nat.zero_le _⟩
  obtain ⟨w, map, abs, hrun, hkeeps⟩ := hkeeps.run calls hlive
  refine ⟨_, w, map, ?_, hrun, hkeeps.holds (hlive calls (List.prefix_refl calls))⟩
  rw [LinkedMap.init, if_neg (by omega), Int.toNat_natCast]

/-- Of two items with the same key in one list, the first is removed. -/
theorem linkedMap_refines_twice : ∃ map₀ w map, LinkedMap.init 1 (fun _ _ => 0) = some map₀ ∧
    map₀.run [.insert [97] 1, .insert [97] 2, .remove [97]] (⟨fun _ => none, 0⟩ : Nodes _) =
      some ([(0, none), (0, none), (0, some ([97], 1))], w, map) ∧
    map.Holds (fun _ _ => 0) w [([97], (2 : ℕ))] := by
  refine linkedMap_refines (fun _ _ => 0) le_rfl (by decide) _ (fun cs hcs => ?_) _
  simp only [List.prefix_cons_iff, List.prefix_nil] at hcs
  rcases hcs with rfl | ⟨_, rfl, rfl | ⟨_, rfl, rfl | ⟨_, rfl, rfl⟩⟩⟩ <;> decide

end StorageServer
