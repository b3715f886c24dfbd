import Mathlib.Data.List.Flatten
import StorageServer.Lib.Buckets
import StorageServer.Util

/-!
# The hash map of strings

`hashmap.c`, with the buckets as lists. An item lies in the bucket of its key, and an
insertion that would fill more than half of the lists first moves every item into a map
of twice as many. `hashmap_init` takes that number as an `int`, so from `2 ^ 30` lists on
the doubling asks for a negative number of lists, the allocation fails and the insertion
with it ; it fails as well if the memory for the doubling or for the node is refused
(`hashmapInsert_cases`).

`entries` is the order in which an iterator runs through the map. A lookup is the lookup
in that list (`hashmapGetByKey_eq`), an insertion permutes it and adds one item, behind the
items with its key (`hashmapInsert_sameOrder`), and a removal takes one item out of it
(`hashmapRemove_eq_some`).
-/

namespace StorageServer

variable {V : Type}

/-- Whether the allocations of an insertion are granted. -/
structure Granted where
  /-- All that `hashmap_expand` or `hashtbl_expand` allocates. -/
  expand : Bool
  /-- The node of `create_node`. -/
  node : Bool
  deriving DecidableEq, Repr

/-- All of them are. -/
def Granted.all : Granted :=
  ⟨true, true⟩

/-- `hashmap_t`. -/
structure HashMap (V : Type) where
  nlist : ℕ
  nelem : ℕ
  list : List (List (CString × V))
  hashFunct : CString → ℕ → ℕ

/-- `default_hashmap_hash`. -/
def defaultHashmapHash (str : CString) (_nlist : ℕ) : ℕ :=
  str.foldl (fun hash c => (hash * 33 + toSize (UInt8.toInt8 c).toInt) % 2 ^ 64) 5381

/-- `hashmap_init`. The allocation of a negative number of lists is refused. -/
def hashmapInit (nlist : ℤ) (hashFunct : CString → ℕ → ℕ) : Option (HashMap V) :=
  if nlist < 0 then none
  else some ⟨nlist.toNat, 0, List.replicate nlist.toNat [], hashFunct⟩

namespace HashMap

/-- The list in which `key` is looked up. -/
def hash (map : HashMap V) (key : CString) : ℕ :=
  map.hashFunct key map.nlist % map.nlist

/-- The items in the order of an iteration. -/
def entries (map : HashMap V) : List (CString × V) :=
  map.list.flatten

/-- A map as the functions of `hashmap.c` leave it. -/
structure WF (map : HashMap V) : Prop where
  pos : 0 < map.nlist
  lt : map.nlist < 2 ^ 31
  length : map.list.length = map.nlist
  nelem : map.nelem = map.entries.length
  placed : Buckets.Placed (fun item => map.hash item.1) map.list

theorem WF.hash_lt {map : HashMap V} (h : map.WF) (key : CString) :
    map.hash key < map.list.length := by
  rw [h.length]
  exact Nat.mod_lt _ h.pos

end HashMap

/-- `_hashmap_insert`. -/
def hashmapInsertNode (map : HashMap V) (key : CString) (data : V) : HashMap V :=
  { map with
    list := map.list.modify (map.hash key) (· ++ [(key, data)])
    nelem := map.nelem + 1 }

/-- `hashmap_expand`. -/
def hashmapExpand (map : HashMap V) : Option (HashMap V) :=
  (hashmapInit (toInt (map.nlist * 2)) map.hashFunct).map fun newMap =>
    map.list.foldl
      (fun newMap nodes => nodes.foldl (fun newMap curr =>
        hashmapInsertNode newMap curr.1 curr.2) newMap)
      newMap

/-- `hashmap_insert`. An expansion for which there is no memory leaves the map as it is ; a
node that is refused is missing in the expanded map. -/
def hashmapInsert (granted : Granted) (map : HashMap V) (key : CString) (item : V) :
    ℤ × HashMap V :=
  let expanded :=
    if map.nelem + 1 > map.nlist / 2 then
      if granted.expand then hashmapExpand map else none
    else some map
  match expanded with
  | none => (-1, map)
  | some map => if granted.node then (0, hashmapInsertNode map key item) else (-1, map)

/-- `hashmap_remove` : the data of the removed item, if there is one. -/
def hashmapRemove (map : HashMap V) (key : CString) : Option V × HashMap V :=
  match (Buckets.bucket map.list (map.hash key)).find? (fun curr => curr.1 = key) with
  | none => (none, map)
  | some curr =>
    (some curr.2, { map with
      list := map.list.modify (map.hash key) (·.eraseP fun curr => curr.1 = key)
      nelem := map.nelem - 1 })

/-- `hashmap_get_by_key` : `none` is its `ENOENT`. -/
def hashmapGetByKey (map : HashMap V) (key : CString) : Option V :=
  ((Buckets.bucket map.list (map.hash key)).find? fun curr => curr.1 = key).map Prod.snd

/-- `hashmap_contains`. -/
def hashmapContains (map : HashMap V) (key : CString) : Bool :=
  (Buckets.bucket map.list (map.hash key)).any fun curr => curr.1 = key

/-! ## Lookups -/

namespace HashMap

theorem hashmapContains_eq (map : HashMap V) (key : CString) :
    hashmapContains map key = (hashmapGetByKey map key).isSome := by
  rw [hashmapContains, hashmapGetByKey, Option.isSome_map, Bool.eq_iff_iff, List.any_eq_true,
    List.find?_isSome]

variable {map : HashMap V} (h : map.WF)

include h

theorem WF.find?_bucket (key : CString) :
    (Buckets.bucket map.list (map.hash key)).find? (fun curr => curr.1 = key) =
      map.entries.find? fun curr => curr.1 = key :=
  h.placed.find?_bucket fun x _ hx => by rw [of_decide_eq_true hx]

/-- A lookup gives the first item with the key. -/
theorem WF.hashmapGetByKey_eq (key : CString) :
    hashmapGetByKey map key = (map.entries.find? fun curr => curr.1 = key).map Prod.snd := by
  rw [hashmapGetByKey, h.find?_bucket]

/-- In a map without repeated keys a lookup gives the item with the key. -/
theorem WF.hashmapGetByKey_eq_some (hk : (map.entries.map Prod.fst).Nodup) {key : CString}
    {item : V} : hashmapGetByKey map key = some item ↔ (key, item) ∈ map.entries := by
  rw [h.hashmapGetByKey_eq, Option.map_eq_some_iff]
  constructor
  · rintro ⟨⟨k, i⟩, hf, rfl⟩
    obtain rfl : k = key := by simpa using List.find?_some hf
    exact List.mem_of_find?_eq_some hf
  · intro hm
    obtain ⟨x, hx⟩ : ∃ x, map.entries.find? (fun curr => curr.1 = key) = some x :=
      Option.isSome_iff_exists.1 (List.find?_isSome.2 ⟨_, hm, by simp⟩)
    have hxk : x.1 = key := by simpa using List.find?_some hx
    have := List.inj_on_of_nodup_map hk (List.mem_of_find?_eq_some hx) hm hxk
    exact ⟨x, hx, by rw [this]⟩

theorem WF.hashmapGetByKey_eq_none {key : CString} :
    hashmapGetByKey map key = none ↔ ∀ item, (key, item) ∉ map.entries := by
  rw [h.hashmapGetByKey_eq, Option.map_eq_none_iff, List.find?_eq_none]
  constructor
  · intro hn item hm
    exact hn _ hm (by simp)
  · rintro hn ⟨k, i⟩ hm hk
    obtain rfl : k = key := by simpa using hk
    exact hn i hm

/-! ## Insertion -/

theorem WF.insertNode (key : CString) (data : V) : (hashmapInsertNode map key data).WF where
  pos := h.pos
  lt := h.lt
  length := by simpa [hashmapInsertNode] using h.length
  nelem := by
    have := (Buckets.flatten_push_perm (h.hash_lt key) (key, data)).length_eq
    simp only [hashmapInsertNode, entries, h.nelem] at this ⊢
    simpa using this.symm
  placed := h.placed.push (key, data)

theorem WF.insertNode_perm (key : CString) (data : V) :
    (hashmapInsertNode map key data).entries.Perm (map.entries ++ [(key, data)]) :=
  Buckets.flatten_push_perm (h.hash_lt key) (key, data)

omit h in
theorem WF.init (nlist : ℕ) (hpos : 0 < nlist) (hlt : nlist < 2 ^ 31)
    (hashFunct : CString → ℕ → ℕ) :
    (⟨nlist, 0, List.replicate nlist [], hashFunct⟩ : HashMap V).WF where
  pos := hpos
  lt := hlt
  length := by simp
  nelem := by simp [entries]
  placed := Buckets.placed_replicate_nil _ _

theorem WF.insertNodes (items : List (CString × V)) :
    (items.foldl (fun map curr => hashmapInsertNode map curr.1 curr.2) map).WF ∧
      (items.foldl (fun map curr => hashmapInsertNode map curr.1 curr.2) map).entries.Perm
        (map.entries ++ items) ∧
      (items.foldl (fun map curr => hashmapInsertNode map curr.1 curr.2) map).nlist =
        map.nlist := by
  induction items generalizing map with
  | nil => simp [h]
  | cons curr items ih =>
    obtain ⟨hwf, hperm, hn⟩ := ih (h.insertNode curr.1 curr.2)
    refine ⟨hwf, hperm.trans ?_, hn⟩
    simpa using (h.insertNode_perm curr.1 curr.2).append_right items

/-- A map of `2 ^ 30` lists cannot be expanded. -/
theorem WF.hashmapExpand_eq_none : hashmapExpand map = none ↔ 2 ^ 30 ≤ map.nlist := by
  have := h.lt
  unfold hashmapExpand hashmapInit toInt
  split <;> simp <;> omega

/-- An expansion inserts the items into a map of twice as many lists. -/
theorem WF.hashmapExpand_eq_some {map' : HashMap V} (he : hashmapExpand map = some map') :
    map.nlist < 2 ^ 30 ∧
      map' = map.entries.foldl (fun map curr => hashmapInsertNode map curr.1 curr.2)
        ⟨2 * map.nlist, 0, List.replicate (2 * map.nlist) [], map.hashFunct⟩ := by
  have hlt : map.nlist < 2 ^ 30 := by
    by_contra hn
    rw [h.hashmapExpand_eq_none.2 (by omega)] at he
    cases he
  have hn : toInt (map.nlist * 2) = ((2 * map.nlist : ℕ) : ℤ) := by
    unfold toInt
    omega
  simp only [hashmapExpand, hashmapInit, hn, Int.toNat_natCast, Option.map_eq_some_iff,
    Option.ite_none_left_eq_some, Option.some.injEq] at he
  obtain ⟨_, ⟨-, rfl⟩, rfl⟩ := he
  rw [← List.foldl_flatten]
  exact ⟨hlt, rfl⟩

/-- An expansion keeps the items, in twice as many lists. -/
theorem WF.hashmapExpand_some {map' : HashMap V} (he : hashmapExpand map = some map') :
    map'.WF ∧ map'.entries.Perm map.entries ∧ map'.nlist = 2 * map.nlist := by
  obtain ⟨hlt, rfl⟩ := h.hashmapExpand_eq_some he
  have hpos := h.pos
  obtain ⟨hwf, hperm, hnl⟩ := (WF.init (V := V) (2 * map.nlist) (by omega) (by omega)
    map.hashFunct).insertNodes map.entries
  exact ⟨hwf, by simpa [entries] using hperm, hnl⟩

omit h in
/-- `hashmap_insert` where there is memory. -/
theorem hashmapInsert_all (key : CString) (item : V) : hashmapInsert .all map key item =
    if map.nelem + 1 > map.nlist / 2 then
      match hashmapExpand map with
      | none => (-1, map)
      | some map => (0, hashmapInsertNode map key item)
    else (0, hashmapInsertNode map key item) := by
  unfold hashmapInsert
  by_cases hfull : map.nelem + 1 > map.nlist / 2
  · rw [if_pos hfull, if_pos hfull]
    cases hashmapExpand map <;> rfl
  · rw [if_neg hfull, if_neg hfull]
    rfl

/-- The map has a place for one more item or can be expanded, and there is memory. -/
def Takes (granted : Granted) (map : HashMap V) : Prop :=
  granted.node = true ∧
    (map.nelem + 1 > map.nlist / 2 → granted.expand = true ∧ map.nlist < 2 ^ 30)

/-- A map of fewer than `2 ^ 29` items takes one more if there is memory. -/
theorem WF.takes_of_lt (hlen : map.entries.length < 2 ^ 29) {granted : Granted}
    (hgranted : granted.expand = true ∧ granted.node = true) : map.Takes granted := by
  have hne := h.nelem
  exact ⟨hgranted.2, fun hfull => ⟨hgranted.1, by omega⟩⟩

/-- An insertion adds one item, or fails on a map that does not take it. -/
theorem WF.hashmapInsert_cases (granted : Granted) (key : CString) (item : V) :
    (¬map.Takes granted ∧ ∃ map', hashmapInsert granted map key item = (-1, map') ∧ map'.WF ∧
        map'.entries.Perm map.entries) ∨
      (map.Takes granted ∧ ∃ map', hashmapInsert granted map key item = (0, map') ∧ map'.WF ∧
        map'.entries.Perm (map.entries ++ [(key, item)]) ∧
        map'.nlist = if map.entries.length + 1 > map.nlist / 2 then 2 * map.nlist
          else map.nlist) := by
  have hne := h.nelem
  unfold hashmapInsert Takes
  rw [hne]
  by_cases hfull : map.entries.length + 1 > map.nlist / 2
  · rw [if_pos hfull, if_pos hfull]
    by_cases hexpand : granted.expand = true
    · rw [if_pos hexpand]
      cases he : hashmapExpand map with
      | none =>
        have hlarge := h.hashmapExpand_eq_none.1 he
        exact .inl ⟨fun ht => Nat.not_lt.2 hlarge (ht.2 hfull).2, map, rfl, h, List.Perm.refl _⟩
      | some map' =>
        obtain ⟨hwf, hperm, hn⟩ := h.hashmapExpand_some he
        have hlt := (h.hashmapExpand_eq_some he).1
        by_cases hnode : granted.node = true
        · exact .inr ⟨⟨hnode, fun _ => ⟨hexpand, hlt⟩⟩, _, if_pos hnode, hwf.insertNode key item,
            (hwf.insertNode_perm key item).trans (hperm.append_right _), hn⟩
        · exact .inl ⟨fun ht => hnode ht.1, map', if_neg hnode, hwf, hperm⟩
    · rw [if_neg hexpand]
      exact .inl ⟨fun ht => hexpand (ht.2 hfull).1, map, rfl, h, List.Perm.refl _⟩
  · rw [if_neg hfull, if_neg hfull]
    by_cases hnode : granted.node = true
    · exact .inr ⟨⟨hnode, fun hn => absurd hn hfull⟩, _, if_pos hnode, h.insertNode key item,
        h.insertNode_perm key item, rfl⟩
    · exact .inl ⟨fun ht => hnode ht.1, map, if_neg hnode, h, List.Perm.refl _⟩

/-! ## Removal -/

omit h in
theorem hashmapRemove_eq_none {key : CString} (hf : hashmapGetByKey map key = none) :
    hashmapRemove map key = (none, map) := by
  rw [hashmapGetByKey, Option.map_eq_none_iff] at hf
  rw [hashmapRemove, hf]

omit h in
@[simp] theorem nlist_hashmapRemove (map : HashMap V) (key : CString) :
    (hashmapRemove map key).2.nlist = map.nlist := by
  rw [hashmapRemove]
  split <;> rfl

/-- A removal takes the item that a lookup finds out of the map. -/
theorem WF.hashmapRemove_eq_some {key : CString} {item : V}
    (hf : hashmapGetByKey map key = some item) :
    ∃ map', hashmapRemove map key = (some item, map') ∧ map'.WF ∧
      map'.entries = map.entries.eraseP (fun curr => curr.1 = key) ∧ map'.nlist = map.nlist := by
  have hp : ∀ x ∈ map.list.flatten, decide (x.1 = key) = true →
      (fun item => map.hash item.1) x = map.hash key :=
    fun x _ hx => by simp only; rw [of_decide_eq_true hx]
  have herase := h.placed.flatten_eraseP hp (h.hash_lt key)
  obtain ⟨curr, hc, rfl⟩ := Option.map_eq_some_iff.1 hf
  have hmem : curr ∈ map.entries := by
    rw [h.find?_bucket] at hc
    exact List.mem_of_find?_eq_some hc
  have hlen := List.length_eraseP_of_mem hmem (List.find?_some hc)
  rw [hashmapRemove, hc]
  refine ⟨_, rfl, ⟨h.pos, h.lt, by simpa using h.length, ?_, h.placed.eraseP _ _⟩, herase, rfl⟩
  simp only [entries, h.nelem] at hlen ⊢
  rw [herase, hlen]

/-- A removal takes the first item with the key out of the map, if there is one. -/
theorem WF.hashmapRemove_entries (key : CString) :
    (hashmapRemove map key).2.WF ∧
      (hashmapRemove map key).2.entries = map.entries.eraseP (fun curr => curr.1 = key) ∧
      (hashmapRemove map key).2.nlist = map.nlist ∧
      (hashmapRemove map key).2.hashFunct = map.hashFunct := by
  have hfunct : (hashmapRemove map key).2.hashFunct = map.hashFunct := by
    rw [hashmapRemove]
    split <;> rfl
  cases hf : hashmapGetByKey map key with
  | none =>
    have hnone : ∀ item ∈ map.entries, ¬decide (item.1 = key) = true := by
      rw [h.hashmapGetByKey_eq, Option.map_eq_none_iff, List.find?_eq_none] at hf
      exact hf
    rw [hashmapRemove_eq_none hf, List.eraseP_of_forall_not hnone]
    exact ⟨h, rfl, rfl, rfl⟩
  | some item =>
    obtain ⟨map', he, hwf, hentries, hnlist⟩ := h.hashmapRemove_eq_some hf
    rw [he] at hfunct ⊢
    exact ⟨hwf, hentries, hnlist, hfunct⟩

omit h in
/-- Without repeated keys, removing an item leaves the items with other keys. -/
theorem eraseP_key {items : List (CString × V)} (hk : (items.map Prod.fst).Nodup)
    {key : CString} :
    items.eraseP (fun curr => curr.1 = key) = items.filter fun curr => curr.1 ≠ key := by
  induction items with
  | nil => rfl
  | cons curr items ih =>
    rw [List.map_cons, List.nodup_cons] at hk
    by_cases hc : curr.1 = key
    · subst hc
      rw [List.eraseP_cons_of_pos (by simp), List.filter_cons_of_neg (by simp), eq_comm,
        List.filter_eq_self]
      intro x hx
      simp only [ne_eq, decide_not, Bool.not_eq_eq_eq_not, Bool.not_true, decide_eq_false_iff_not]
      intro he
      exact hk.1 (he ▸ List.mem_map_of_mem hx)
    · rw [List.eraseP_cons_of_neg (by simpa using hc), List.filter_cons_of_pos (by simpa using hc),
        ih hk.2]

/-! ## The order of the items with one key -/

/-- The items with a given key come in the same order in both lists. -/
def SameOrder (xs ys : List (CString × V)) : Prop :=
  ∀ key, xs.filter (fun curr => curr.1 = key) = ys.filter fun curr => curr.1 = key

omit h

variable {xs ys : List (CString × V)}

theorem SameOrder.trans {zs : List (CString × V)} (hxy : SameOrder xs ys)
    (hyz : SameOrder ys zs) : SameOrder xs zs :=
  fun key => (hxy key).trans (hyz key)

theorem SameOrder.append (hs : SameOrder xs ys) (zs : List (CString × V)) :
    SameOrder (xs ++ zs) (ys ++ zs) := fun key => by
  rw [List.filter_append, List.filter_append, hs key]

/-- Both lists have the same first item with a key. -/
theorem SameOrder.find? (hs : SameOrder xs ys) (key : CString) :
    xs.find? (fun curr => curr.1 = key) = ys.find? fun curr => curr.1 = key := by
  rw [← List.head?_filter, ← List.head?_filter, hs key]

theorem filter_eraseP (xs : List (CString × V)) (key key' : CString) :
    (xs.eraseP fun curr => curr.1 = key).filter (fun curr => curr.1 = key') =
      if key = key' then (xs.filter fun curr => curr.1 = key').tail
      else xs.filter fun curr => curr.1 = key' := by
  induction xs with
  | nil => simp
  | cons curr xs ih =>
    by_cases hc : curr.1 = key
    · rw [List.eraseP_cons_of_pos (by simpa using hc)]
      split_ifs with hk
      · rw [List.filter_cons_of_pos (by simpa using hc.trans hk), List.tail_cons]
      · rw [List.filter_cons_of_neg (by simpa [hc] using hk)]
    · rw [List.eraseP_cons_of_neg (by simpa using hc)]
      by_cases hk : curr.1 = key'
      · have hne : ¬key = key' := fun he => hc (hk.trans he.symm)
        rw [if_neg hne] at ih ⊢
        rw [List.filter_cons_of_pos (by simpa using hk),
          List.filter_cons_of_pos (by simpa using hk),
          ih]
      · rw [List.filter_cons_of_neg (by simpa using hk), ih,
          List.filter_cons_of_neg (by simpa using hk)]

theorem SameOrder.eraseP (hs : SameOrder xs ys) (key : CString) :
    SameOrder (xs.eraseP fun curr => curr.1 = key) (ys.eraseP fun curr => curr.1 = key) :=
  fun key' => by rw [filter_eraseP, filter_eraseP, hs key']

/-- Lists in which the items with each key are the same hold the same items. -/
theorem SameOrder.perm (hs : SameOrder xs ys) : xs.Perm ys := by
  classical
  refine List.perm_iff_count.2 fun item => ?_
  have hcount : ∀ zs : List (CString × V),
      (zs.filter fun curr => curr.1 = item.1).count item = zs.count item :=
    fun _ => List.count_filter (decide_eq_true rfl)
  rw [← hcount, hs item.1, hcount]

theorem insertNodes_list (items : List (CString × V)) :
    (items.foldl (fun map curr => hashmapInsertNode map curr.1 curr.2) map).list =
        items.foldl (Buckets.push fun item => map.hash item.1) map.list ∧
      (items.foldl (fun map curr => hashmapInsertNode map curr.1 curr.2) map).hashFunct =
        map.hashFunct := by
  induction items generalizing map with
  | nil => exact ⟨rfl, rfl⟩
  | cons curr items ih => exact ih

include h

theorem WF.insertNode_sameOrder (key : CString) (data : V) :
    SameOrder (hashmapInsertNode map key data).entries (map.entries ++ [(key, data)]) :=
  fun key' => by
    rw [List.filter_append]
    exact h.placed.filter_push (i := map.hash key')
      (fun item hitem => by rw [of_decide_eq_true hitem]) (h.hash_lt key') (key, data)

/-- An expansion keeps the order of the items with one key, and the hash function. -/
theorem WF.hashmapExpand_sameOrder {map' : HashMap V} (he : hashmapExpand map = some map') :
    SameOrder map'.entries map.entries ∧ map'.hashFunct = map.hashFunct := by
  obtain ⟨-, rfl⟩ := h.hashmapExpand_eq_some he
  have hpos := h.pos
  let new : HashMap V := ⟨2 * map.nlist, 0, List.replicate (2 * map.nlist) [], map.hashFunct⟩
  obtain ⟨hlist, hfunct⟩ := @insertNodes_list V new map.entries
  refine ⟨fun key => ?_, hfunct⟩
  have hlt : new.hash key < new.list.length := by
    rw [List.length_replicate]
    exact Nat.mod_lt _ (show 0 < 2 * map.nlist by omega)
  have hplaced : Buckets.Placed (fun item => new.hash item.1) new.list :=
    Buckets.placed_replicate_nil _ _
  have hfilter := hplaced.filter_foldl_push (p := fun curr => curr.1 = key)
    (fun item hitem => by rw [of_decide_eq_true hitem]) hlt map.entries
  have hnone : new.list.flatten = [] := by simp [new]
  rw [hnone, List.filter_nil, List.nil_append, ← hlist] at hfilter
  exact hfilter

/-- An insertion puts the item behind those with its key. -/
theorem WF.hashmapInsert_sameOrder {map' : HashMap V} {key : CString} {item : V}
    (he : hashmapInsert .all map key item = (0, map')) :
    SameOrder map'.entries (map.entries ++ [(key, item)]) ∧ map'.hashFunct = map.hashFunct := by
  rw [hashmapInsert_all] at he
  split_ifs at he with hfull
  · cases hexpand : hashmapExpand map with
    | none =>
      rw [hexpand] at he
      cases he
    | some map₁ =>
      rw [hexpand] at he
      cases he
      obtain ⟨hsame, hfunct⟩ := h.hashmapExpand_sameOrder hexpand
      have hwf := (h.hashmapExpand_some hexpand).1
      exact ⟨(hwf.insertNode_sameOrder key item).trans (hsame.append _), hfunct⟩
  · cases he
    exact ⟨h.insertNode_sameOrder key item, rfl⟩

end HashMap

end StorageServer
