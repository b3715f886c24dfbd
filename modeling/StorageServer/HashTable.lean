import StorageServer.HashMap

/-!
# The hash table of descriptors

`hashtable.c`, with the buckets as lists. Insertion and search reduce the hash modulo
the number of lists, `hashtblRemove` uses it as it is : for a hash outside the table it
reads past the array, which is `none` here. Under `defaultHashtblHash` and for
non-negative items, the descriptors the server stores, the three agree
(`WF.hashtblRemove_eq`), and the table is a list of items up to order. For any hash function they
agree where the hash is less than the number of lists (`WellFormed.insert_contains_remove_iff`).
-/

namespace StorageServer

/-- `hashtbl_t`. -/
structure HashTbl where
  nlist : ℕ
  nelem : ℕ
  list : List (List ℤ)
  hashFunct : ℤ → ℤ → ℕ

/-- `default_hashtbl_hash`. -/
def defaultHashtblHash (val nlist : ℤ) : ℕ :=
  toSize (val.tmod nlist)

/-- `hashtbl_init`. The allocation of a negative number of lists is refused. -/
def hashtblInit (nlist : ℤ) (hashFunct : ℤ → ℤ → ℕ) : Option HashTbl :=
  if nlist < 0 then none
  else some ⟨nlist.toNat, 0, List.replicate nlist.toNat [], hashFunct⟩

namespace HashTbl

/-- The list in which `_hashtbl_insert` and `hashtbl_contains` look. -/
def hash (table : HashTbl) (item : ℤ) : ℕ :=
  table.hashFunct item table.nlist % table.nlist

/-- The index at which `hashtbl_remove` looks. -/
def removeHash (table : HashTbl) (item : ℤ) : ℤ :=
  toLong (table.hashFunct item table.nlist)

/-- The items in the order of an iteration. -/
def items (table : HashTbl) : List ℤ :=
  table.list.flatten

end HashTbl

/-- `_hashtbl_insert`. -/
def hashtblInsertNode (table : HashTbl) (item : ℤ) : HashTbl :=
  { table with
    list := table.list.modify (table.hash item) (· ++ [item])
    nelem := table.nelem + 1 }

/-- `hashtbl_expand`. -/
def hashtblExpand (table : HashTbl) : Option HashTbl :=
  (hashtblInit (toInt (table.nlist * 2)) table.hashFunct).map fun newTable =>
    table.list.foldl (fun newTable nodes => nodes.foldl hashtblInsertNode newTable) newTable

/-- `hashtbl_insert`. An expansion for which there is no memory leaves the table as it is ; a
node that is refused is missing in the expanded table. -/
def hashtblInsert (granted : Granted) (table : HashTbl) (item : ℤ) : ℤ × HashTbl :=
  let expanded :=
    if table.nelem + 1 > table.nlist / 2 then
      if granted.expand then hashtblExpand table else none
    else some table
  match expanded with
  | none => (-1, table)
  | some table => if granted.node then (0, hashtblInsertNode table item) else (-1, table)

/-- A table that need not be expanded takes the item. -/
theorem hashtblInsert_of_not_full {table : HashTbl} (h : ¬table.nelem + 1 > table.nlist / 2)
    (item : ℤ) :
    hashtblInsert .all table item = (0, hashtblInsertNode table item) := by
  rw [hashtblInsert, if_neg h]
  rfl

/-- An insertion that succeeds has been granted all that it asks for. -/
theorem hashtblInsert_all_of_eq_zero {granted : Granted} {table table' : HashTbl} {item : ℤ}
    (h : hashtblInsert granted table item = (0, table')) :
    hashtblInsert .all table item = (0, table') := by
  unfold hashtblInsert at h ⊢
  by_cases hfull : table.nelem + 1 > table.nlist / 2
  · rw [if_pos hfull] at h ⊢
    by_cases hexpand : granted.expand = true
    · rw [if_pos hexpand] at h
      rw [if_pos (show Granted.all.expand = true from rfl)]
      cases he : hashtblExpand table with
      | none =>
        rw [he] at h
        cases h
      | some table =>
        rw [he] at h
        dsimp only at h
        split_ifs at h with hnode
        · exact h
        · cases h
    · rw [if_neg hexpand] at h
      cases h
  · rw [if_neg hfull] at h ⊢
    dsimp only at h
    split_ifs at h with hnode
    · exact h
    · cases h

/-- `hashtbl_contains`. -/
def hashtblContains (table : HashTbl) (item : ℤ) : Bool :=
  (Buckets.bucket table.list (table.hash item)).any (· = item)

/-- `hashtbl_remove`, `none` if it looks outside the table. -/
def hashtblRemove (table : HashTbl) (item : ℤ) : Option (ℤ × HashTbl) :=
  let hash := table.removeHash item
  if 0 ≤ hash ∧ hash < table.nlist then
    if item ∈ Buckets.bucket table.list hash.toNat then
      some (0, { table with
        list := table.list.modify hash.toNat (·.eraseP (· = item))
        nelem := table.nelem - 1 })
    else some (1, table)
  else none

namespace HashTbl

/-- A table with any hash function, as the functions of `hashtable.c` leave it. -/
structure WellFormed (table : HashTbl) : Prop where
  pos : 0 < table.nlist
  lt : table.nlist < 2 ^ 31
  length : table.list.length = table.nlist
  nelem : table.nelem = table.items.length
  placed : Buckets.Placed table.hash table.list
  /-- The values of the hash function are of type `unsigned long`. -/
  range : ∀ val nlist, table.hashFunct val nlist < 2 ^ 64

/-- A table of descriptors as the functions of `hashtable.c` leave it. -/
structure WF (table : HashTbl) : Prop where
  pos : 0 < table.nlist
  lt : table.nlist < 2 ^ 31
  length : table.list.length = table.nlist
  nelem : table.nelem = table.items.length
  placed : Buckets.Placed table.hash table.list
  default : table.hashFunct = defaultHashtblHash

theorem defaultHashtblHash_lt (val nlist : ℤ) : defaultHashtblHash val nlist < 2 ^ 64 := by
  unfold defaultHashtblHash toSize
  omega

theorem wf_iff {table : HashTbl} :
    table.WF ↔ table.WellFormed ∧ table.hashFunct = defaultHashtblHash := by
  constructor
  · rintro ⟨hpos, hlt, hlength, hnelem, hplaced, hdefault⟩
    exact ⟨⟨hpos, hlt, hlength, hnelem, hplaced, fun val nlist => hdefault ▸
      defaultHashtblHash_lt val nlist⟩, hdefault⟩
  · rintro ⟨⟨hpos, hlt, hlength, hnelem, hplaced, -⟩, hdefault⟩
    exact ⟨hpos, hlt, hlength, hnelem, hplaced, hdefault⟩

theorem WF.wellFormed {table : HashTbl} (h : table.WF) : table.WellFormed :=
  (wf_iff.1 h).1

/-! ## Any hash function -/

/-- The number of lists after an insertion, which doubles them if more than half of them would be
filled. A table of `2 ^ 30` lists cannot be expanded. -/
def insertNList (table : HashTbl) : ℕ :=
  if table.nelem + 1 > table.nlist / 2 ∧ table.nlist < 2 ^ 30 then 2 * table.nlist
  else table.nlist

/-- `hashtbl_insert`, `hashtbl_contains` and `hashtbl_remove` look for an item in the same list,
which is one of the table. -/
structure SameList (table : HashTbl) (item : ℤ) : Prop where
  eq : table.removeHash item = table.hash item
  lt : table.hash item < table.nlist

section

/-- The table has a place for one more item or can be expanded, and there is memory. -/
def Takes (granted : Granted) (table : HashTbl) : Prop :=
  granted.node = true ∧
    (table.nelem + 1 > table.nlist / 2 → granted.expand = true ∧ table.nlist < 2 ^ 30)

instance (granted : Granted) (table : HashTbl) : Decidable (table.Takes granted) :=
  inferInstanceAs (Decidable (_ ∧ _))

variable {table : HashTbl}

theorem insertNodes_list (items : List ℤ) :
    (items.foldl hashtblInsertNode table).list = items.foldl (Buckets.push table.hash) table.list ∧
      (items.foldl hashtblInsertNode table).hashFunct = table.hashFunct ∧
      (items.foldl hashtblInsertNode table).nlist = table.nlist := by
  induction items generalizing table with
  | nil => exact ⟨rfl, rfl, rfl⟩
  | cons item items ih => exact ih

theorem WellFormed.init {hashFunct : ℤ → ℤ → ℕ} (nlist : ℕ) (hpos : 0 < nlist)
    (hlt : nlist < 2 ^ 31) (hrange : ∀ val nlist, hashFunct val nlist < 2 ^ 64) :
    (⟨nlist, 0, List.replicate nlist [], hashFunct⟩ : HashTbl).WellFormed where
  pos := hpos
  lt := hlt
  length := by simp
  nelem := by simp [items]
  placed := Buckets.placed_replicate_nil _ _
  range := hrange

variable (h : table.WellFormed)

include h

theorem WellFormed.hash_lt (item : ℤ) : table.hash item < table.list.length := by
  rw [h.length]
  exact Nat.mod_lt _ h.pos

/-- A search finds the items in the table. -/
theorem WellFormed.hashtblContains_iff {item : ℤ} :
    hashtblContains table item = true ↔ item ∈ table.items := by
  rw [hashtblContains, List.any_eq_true]
  constructor
  · rintro ⟨x, hx, hxi⟩
    rw [← of_decide_eq_true hxi]
    exact Buckets.mem_flatten_of_mem_bucket hx
  · intro hm
    exact ⟨item, h.placed.mem_bucket hm, by simp⟩

theorem WellFormed.insertNode (item : ℤ) : (hashtblInsertNode table item).WellFormed where
  pos := h.pos
  lt := h.lt
  length := by simpa [hashtblInsertNode] using h.length
  nelem := by
    have := (Buckets.flatten_push_perm (h.hash_lt item) item).length_eq
    simp only [hashtblInsertNode, items, h.nelem] at this ⊢
    simpa using this.symm
  placed := h.placed.push item
  range := h.range

theorem WellFormed.insertNode_perm (item : ℤ) :
    (hashtblInsertNode table item).items.Perm (table.items ++ [item]) :=
  Buckets.flatten_push_perm (h.hash_lt item) item

theorem WellFormed.insertNodes (items : List ℤ) :
    (items.foldl hashtblInsertNode table).WellFormed ∧
      (items.foldl hashtblInsertNode table).items.Perm (table.items ++ items) := by
  induction items generalizing table with
  | nil => simp [h]
  | cons item items ih =>
    obtain ⟨hwf, hperm⟩ := ih (h.insertNode item)
    refine ⟨hwf, hperm.trans ?_⟩
    simpa using (h.insertNode_perm item).append_right items

theorem WellFormed.hashtblExpand_eq_none : hashtblExpand table = none ↔ 2 ^ 30 ≤ table.nlist := by
  have := h.lt
  unfold hashtblExpand hashtblInit toInt
  split <;> simp <;> omega

/-- An expansion inserts the items into a table of twice as many lists. -/
theorem WellFormed.hashtblExpand_eq_some {table' : HashTbl}
    (he : hashtblExpand table = some table') :
    table.nlist < 2 ^ 30 ∧
      table' = table.items.foldl hashtblInsertNode
        ⟨2 * table.nlist, 0, List.replicate (2 * table.nlist) [], table.hashFunct⟩ := by
  have hlt : table.nlist < 2 ^ 30 := by
    by_contra hn
    rw [h.hashtblExpand_eq_none.2 (by omega)] at he
    cases he
  have hn : toInt (table.nlist * 2) = ((2 * table.nlist : ℕ) : ℤ) := by
    unfold toInt
    omega
  simp only [hashtblExpand, hashtblInit, hn, Int.toNat_natCast,
    Option.map_eq_some_iff, Option.ite_none_left_eq_some, Option.some.injEq] at he
  obtain ⟨_, ⟨-, rfl⟩, rfl⟩ := he
  rw [← List.foldl_flatten]
  exact ⟨hlt, rfl⟩

/-- An expansion keeps the items. -/
theorem WellFormed.hashtblExpand_some {table' : HashTbl} (he : hashtblExpand table = some table') :
    table'.WellFormed ∧ table'.items.Perm table.items ∧ table'.hashFunct = table.hashFunct ∧
      table'.nlist = 2 * table.nlist := by
  obtain ⟨hlt, rfl⟩ := h.hashtblExpand_eq_some he
  have hpos := h.pos
  obtain ⟨hwf, hperm⟩ :=
    (WellFormed.init (2 * table.nlist) (by omega) (by omega) h.range).insertNodes table.items
  obtain ⟨-, hfunct, hnlist⟩ := @insertNodes_list
    ⟨2 * table.nlist, 0, List.replicate (2 * table.nlist) [], table.hashFunct⟩ table.items
  exact ⟨hwf, by simpa [items] using hperm, hfunct, hnlist⟩

omit h in
/-- `hashtbl_insert` where there is memory. -/
theorem hashtblInsert_all (item : ℤ) : hashtblInsert .all table item =
    if table.nelem + 1 > table.nlist / 2 then
      match hashtblExpand table with
      | none => (-1, table)
      | some table => (0, hashtblInsertNode table item)
    else (0, hashtblInsertNode table item) := by
  unfold hashtblInsert
  by_cases hfull : table.nelem + 1 > table.nlist / 2
  · rw [if_pos hfull, if_pos hfull]
    cases hashtblExpand table <;> rfl
  · rw [if_neg hfull, if_neg hfull]
    rfl

/-- Whatever the memory, a table is in order after an insertion, and has the new item besides
those it had if and only if it takes it. -/
theorem WellFormed.hashtblInsert_granted (granted : Granted) (item : ℤ) :
    ∃ r table', hashtblInsert granted table item = (r, table') ∧ table'.WellFormed ∧
      table'.hashFunct = table.hashFunct ∧
      ((¬table.Takes granted ∧ table'.items.Perm table.items) ∨
        (table.Takes granted ∧ table'.items.Perm (table.items ++ [item]))) := by
  unfold hashtblInsert Takes
  by_cases hfull : table.nelem + 1 > table.nlist / 2
  · rw [if_pos hfull]
    by_cases hexpand : granted.expand = true
    · rw [if_pos hexpand]
      cases he : hashtblExpand table with
      | none =>
        have hlarge := h.hashtblExpand_eq_none.1 he
        exact ⟨_, _, rfl, h, rfl,
          .inl ⟨fun ht => Nat.not_lt.2 hlarge (ht.2 hfull).2, List.Perm.refl _⟩⟩
      | some table' =>
        obtain ⟨hwf, hperm, hfunct, -⟩ := h.hashtblExpand_some he
        have hlt := (h.hashtblExpand_eq_some he).1
        by_cases hnode : granted.node = true
        · exact ⟨_, _, if_pos hnode, hwf.insertNode item, hfunct, .inr ⟨⟨hnode, fun _ =>
            ⟨hexpand, hlt⟩⟩, (hwf.insertNode_perm item).trans (hperm.append_right _)⟩⟩
        · exact ⟨_, _, if_neg hnode, hwf, hfunct, .inl ⟨fun ht => hnode ht.1, hperm⟩⟩
    · rw [if_neg hexpand]
      exact ⟨_, _, rfl, h, rfl, .inl ⟨fun ht => hexpand (ht.2 hfull).1, List.Perm.refl _⟩⟩
  · rw [if_neg hfull]
    by_cases hnode : granted.node = true
    · exact ⟨_, _, if_pos hnode, h.insertNode item, rfl,
        .inr ⟨⟨hnode, fun hn => absurd hn hfull⟩, h.insertNode_perm item⟩⟩
    · exact ⟨_, _, if_neg hnode, h, rfl, .inl ⟨fun ht => hnode ht.1, List.Perm.refl _⟩⟩

/-- An insertion adds one item, or fails on a table that cannot be expanded. -/
theorem WellFormed.hashtblInsert_cases (item : ℤ) :
    (hashtblInsert .all table item = (-1, table) ∧ table.nelem + 1 > table.nlist / 2 ∧
        2 ^ 30 ≤ table.nlist) ∨
      ∃ table', hashtblInsert .all table item = (0, table') ∧ table'.WellFormed ∧
        table'.items.Perm (table.items ++ [item]) ∧ table'.hashFunct = table.hashFunct ∧
        table'.nlist = table.insertNList := by
  rw [hashtblInsert_all]
  unfold insertNList
  by_cases hfull : table.nelem + 1 > table.nlist / 2
  · rw [if_pos hfull]
    cases he : hashtblExpand table with
    | none => exact .inl ⟨rfl, hfull, h.hashtblExpand_eq_none.1 he⟩
    | some table' =>
      obtain ⟨hwf, hperm, hfunct, hnlist⟩ := h.hashtblExpand_some he
      rw [if_pos ⟨hfull, (h.hashtblExpand_eq_some he).1⟩]
      exact .inr ⟨_, rfl, hwf.insertNode item,
        (hwf.insertNode_perm item).trans (hperm.append_right _), hfunct, hnlist⟩
  · rw [if_neg hfull, if_neg fun hn => hfull hn.1]
    exact .inr ⟨_, rfl, h.insertNode item, h.insertNode_perm item, rfl, rfl⟩

/-- Where an item is looked for in the list it is in, a removal takes one occurrence of it out of
the table. -/
theorem WellFormed.hashtblRemove_eq {item : ℤ} (hsame : table.SameList item) :
    ∃ r table', hashtblRemove table item = some (r, table') ∧ table'.WellFormed ∧
      table'.items = table.items.erase item ∧ table'.hashFunct = table.hashFunct ∧
      (item ∈ table.items → r = 0) := by
  have hlt := h.hash_lt item
  have hlen := h.length
  have hp : ∀ x ∈ table.list.flatten, decide (x = item) = true →
      table.hash x = table.hash item := fun x _ hx => by rw [of_decide_eq_true hx]
  have herase : (table.list.modify (table.hash item) (·.eraseP (· = item))).flatten =
      table.items.erase item := by
    rw [h.placed.flatten_eraseP hp hlt, List.erase_eq_eraseP']
    rfl
  simp only [hashtblRemove, hsame.eq, Int.toNat_natCast]
  rw [if_pos ⟨by omega, by omega⟩]
  split_ifs with hm
  · have hmem : item ∈ table.items := Buckets.mem_flatten_of_mem_bucket hm
    refine ⟨0, _, rfl, ⟨h.pos, h.lt, by simpa using h.length, ?_, h.placed.eraseP _ _, h.range⟩,
      herase, rfl, fun _ => rfl⟩
    simp only [items] at herase hmem ⊢
    rw [herase, List.length_erase_of_mem hmem, h.nelem, items]
  · exact ⟨1, table, rfl, h, (List.erase_of_not_mem fun hmem => hm (h.placed.mem_bucket hmem)).symm,
      rfl, fun hmem => absurd (h.placed.mem_bucket hmem) hm⟩

/-- The lists are the same where the hash is one of the table. -/
theorem WellFormed.sameList_iff (item : ℤ) :
    table.SameList item ↔ table.hashFunct item table.nlist < table.nlist := by
  have hpos := h.pos
  have hlt := h.lt
  constructor
  · rintro ⟨heq, hmod⟩
    have hrange := h.range item table.nlist
    rw [removeHash, hash] at heq
    rw [hash] at hmod
    unfold toLong at heq
    omega
  · intro hhash
    have hmod : table.hash item = table.hashFunct item table.nlist := Nat.mod_eq_of_lt hhash
    refine ⟨?_, hmod ▸ hhash⟩
    rw [removeHash, hmod, toLong_of_range (by omega) (by omega)]

/-- The three functions look in the same list of the table, and an item is found and removed
directly after its insertion, if and only if the hash of the item is the index of a list both
before and after it. -/
theorem WellFormed.insert_contains_remove_iff (item : ℤ) :
    (table.SameList item ∧ ∀ table', hashtblInsert .all table item = (0, table') →
      table'.SameList item ∧ hashtblContains table' item = true ∧
        ∃ table'', hashtblRemove table' item = some (0, table'')) ↔
    table.hashFunct item table.nlist < table.nlist ∧
      table.hashFunct item table.insertNList < table.insertNList := by
  rw [h.sameList_iff]
  refine and_congr_right fun hhash => ?_
  rcases h.hashtblInsert_cases item with
    ⟨hfail, -, hlarge⟩ | ⟨table', hinsert, hwf, hperm, hfunct, hnlist⟩
  · -- nothing is inserted into a table that cannot be expanded
    have hsame : table.insertNList = table.nlist := if_neg fun hn => by omega
    rw [hsame, hfail]
    exact iff_of_true (fun _ he => by cases he) hhash
  · have hsame := hwf.sameList_iff item
    rw [hfunct, hnlist] at hsame
    rw [← hsame, hinsert]
    constructor
    · intro hfound
      exact (hfound table' rfl).1
    · rintro hlist _ he
      cases he
      have hmem : item ∈ table'.items :=
        hperm.mem_iff.2 (List.mem_append_right _ (List.mem_singleton_self item))
      obtain ⟨r, table'', hremove, -, -, -, hr⟩ := hwf.hashtblRemove_eq hlist
      exact ⟨hlist, hwf.hashtblContains_iff.2 hmem, table'', by rw [hremove, hr hmem]⟩

end

/-- An example of `WellFormed.insert_contains_remove_iff` : a descriptor, in a table that the
insertion expands. -/
theorem WellFormed.insert_contains_remove_iff_expanded :
    (⟨1, 0, [[]], fun _ _ => 0⟩ : HashTbl).SameList 5 ∧
      ∀ table', hashtblInsert .all ⟨1, 0, [[]], fun _ _ => 0⟩ 5 = (0, table') →
        table'.SameList 5 ∧ hashtblContains table' 5 = true ∧
          ∃ table'', hashtblRemove table' 5 = some (0, table'') :=
  ((WellFormed.init 1 (by decide) (by decide) fun _ _ => by decide).insert_contains_remove_iff 5).2
    (by decide)

/-- The hash of a negative item by `default_hashtbl_hash` is the index of a list only if it is a
multiple of the number of lists. -/
theorem defaultHashtblHash_lt_iff {nlist : ℕ} (hpos : 0 < nlist) (hlt : nlist < 2 ^ 31) (item : ℤ) :
    defaultHashtblHash item nlist < nlist ↔ 0 ≤ item ∨ (nlist : ℤ) ∣ item := by
  have hneg : -(nlist : ℤ) < item.tmod nlist := Int.lt_tmod_of_pos item (by omega)
  have hmod : item.tmod nlist < nlist := Int.tmod_lt_of_pos item (by omega)
  have hsign : 0 ≤ item.tmod nlist ↔ 0 ≤ item ∨ (nlist : ℤ) ∣ item := by
    rcases Int.lt_or_le item 0 with hitem | hitem
    · have hopp : 0 ≤ (-item).tmod nlist := Int.tmod_nonneg _ (by omega)
      rw [Int.neg_tmod] at hopp
      rw [Int.dvd_iff_tmod_eq_zero]
      omega
    · exact iff_of_true (Int.tmod_nonneg _ hitem) (.inl hitem)
  rw [← hsign]
  unfold defaultHashtblHash toSize
  omega

/-- The item `-1` in an empty table of descriptors : it is inserted into the last list, and a
removal looks in front of the first. -/
theorem not_sameList_neg : (⟨8, 0, List.replicate 8 [], defaultHashtblHash⟩ : HashTbl).WellFormed ∧
    (⟨8, 0, List.replicate 8 [], defaultHashtblHash⟩ : HashTbl).hash (-1) = 7 ∧
    (⟨8, 0, List.replicate 8 [], defaultHashtblHash⟩ : HashTbl).removeHash (-1) = -1 ∧
    ∃ table, hashtblInsert .all ⟨8, 0, List.replicate 8 [], defaultHashtblHash⟩ (-1) = (0, table) ∧
      hashtblRemove table (-1) = none := by
  have hhash : defaultHashtblHash (-1) 8 = 2 ^ 64 - 1 := by
    rw [defaultHashtblHash, show Int.tmod (-1) 8 = -1 by decide]
    unfold toSize
    omega
  have hremove : ∀ nelem list,
      (⟨8, nelem, list, defaultHashtblHash⟩ : HashTbl).removeHash (-1) = -1 := by
    intro nelem list
    change toLong (defaultHashtblHash (-1) 8) = -1
    rw [hhash]
    unfold toLong
    omega
  refine ⟨WellFormed.init 8 (by decide) (by decide) defaultHashtblHash_lt, ?_, hremove _ _, _, rfl,
    if_neg fun hindex => ?_⟩
  · calc defaultHashtblHash (-1) 8 % 8 = (2 ^ 64 - 1) % 8 := congrArg (· % 8) hhash
      _ = 7 := by decide
  · exact absurd (hremove _ _ ▸ hindex.1) (by decide)

/-! ## Descriptors -/

section

variable {table : HashTbl} (h : table.WF)

include h

theorem WF.hash_lt (item : ℤ) : table.hash item < table.list.length :=
  h.wellFormed.hash_lt item

/-- The index at which a descriptor is removed is the one at which it is inserted. -/
theorem WF.sameList (fd : ℕ) : table.SameList fd := by
  have hpos := h.pos
  have hlt := h.lt
  have hmod : fd % table.nlist < table.nlist := Nat.mod_lt _ hpos
  rw [h.wellFormed.sameList_iff, h.default, defaultHashtblHash, ← Int.ofNat_tmod,
    toSize_of_range (by omega)]
  exact hmod

theorem WF.removeHash_eq (fd : ℕ) : table.removeHash fd = table.hash fd :=
  (h.sameList fd).eq

/-- A search finds the descriptors in the table. -/
theorem WF.hashtblContains_iff {item : ℤ} :
    hashtblContains table item = true ↔ item ∈ table.items :=
  h.wellFormed.hashtblContains_iff

omit h in
theorem WF.init (nlist : ℕ) (hpos : 0 < nlist) (hlt : nlist < 2 ^ 31) :
    (⟨nlist, 0, List.replicate nlist [], defaultHashtblHash⟩ : HashTbl).WF :=
  wf_iff.2 ⟨WellFormed.init nlist hpos hlt defaultHashtblHash_lt, rfl⟩

/-- A table of `2 ^ 30` lists cannot be expanded. -/
theorem WF.hashtblExpand_eq_none : hashtblExpand table = none ↔ 2 ^ 30 ≤ table.nlist :=
  h.wellFormed.hashtblExpand_eq_none

/-- An expansion inserts the items into a table of twice as many lists. -/
theorem WF.hashtblExpand_eq_some {table' : HashTbl} (he : hashtblExpand table = some table') :
    table.nlist < 2 ^ 30 ∧
      table' = table.items.foldl hashtblInsertNode
        ⟨2 * table.nlist, 0, List.replicate (2 * table.nlist) [], table.hashFunct⟩ :=
  h.wellFormed.hashtblExpand_eq_some he

/-- An expansion keeps the items. -/
theorem WF.hashtblExpand_some {table' : HashTbl} (he : hashtblExpand table = some table') :
    table'.WF ∧ table'.items.Perm table.items := by
  obtain ⟨hwf, hperm, hfunct, -⟩ := h.wellFormed.hashtblExpand_some he
  exact ⟨wf_iff.2 ⟨hwf, hfunct.trans h.default⟩, hperm⟩

/-- An insertion adds one item, or fails on a table of at least `2 ^ 29` items. -/
theorem WF.hashtblInsert_cases (item : ℤ) :
    (hashtblInsert .all table item = (-1, table) ∧ 2 ^ 29 ≤ table.items.length) ∨
      ∃ table', hashtblInsert .all table item = (0, table') ∧ table'.WF ∧
        table'.items.Perm (table.items ++ [item]) := by
  have hne := h.nelem
  rcases h.wellFormed.hashtblInsert_cases item with
    ⟨hfail, hfull, hlarge⟩ | ⟨table', hinsert, hwf, hperm, hfunct, -⟩
  · exact .inl ⟨hfail, by omega⟩
  · exact .inr ⟨table', hinsert, wf_iff.2 ⟨hwf, hfunct.trans h.default⟩, hperm⟩

/-- An insertion into a table of fewer than `2 ^ 29` items succeeds, and doubles the number of
lists if more than half of them would be filled. -/
theorem WF.hashtblInsert_spec (hlen : table.items.length < 2 ^ 29) (item : ℤ) :
    ∃ table', hashtblInsert .all table item = (0, table') ∧ table'.WF ∧
      table'.items.Perm (table.items ++ [item]) ∧
      table'.nlist = if table.items.length + 1 > table.nlist / 2 then 2 * table.nlist
        else table.nlist := by
  have hne := h.nelem
  rcases h.wellFormed.hashtblInsert_cases item with
    ⟨-, hfull, hlarge⟩ | ⟨table', hinsert, hwf, hperm, hfunct, hnlist⟩
  · omega
  refine ⟨table', hinsert, wf_iff.2 ⟨hwf, hfunct.trans h.default⟩, hperm, ?_⟩
  rw [hnlist, insertNList, hne]
  split_ifs <;> omega

/-- Removing a descriptor takes one occurrence of it out of the table. -/
theorem WF.hashtblRemove_eq (fd : ℕ) :
    ∃ r table', hashtblRemove table fd = some (r, table') ∧ table'.WF ∧
      table'.items = table.items.erase fd := by
  obtain ⟨r, table', hremove, hwf, herase, hfunct, -⟩ :=
    h.wellFormed.hashtblRemove_eq (h.sameList fd)
  exact ⟨r, table', hremove, wf_iff.2 ⟨hwf, hfunct.trans h.default⟩, herase⟩

end

end HashTbl

/-! ## Pointers to tables -/

/-- A `hashtbl_t*`. It is null if there was no memory for the table. -/
abbrev HashTblPtr := Option HashTbl

namespace HashTblPtr

/-- `hashtbl_contains`. -/
def contains (table : HashTblPtr) (item : ℤ) : Bool :=
  match table with
  | none => false
  | some table => hashtblContains table item

/-- `hashtbl_insert`. -/
def insert (granted : Granted) (table : HashTblPtr) (item : ℤ) : ℤ × HashTblPtr :=
  match table with
  | none => (-1, none)
  | some table =>
    let r := hashtblInsert granted table item
    (r.1, some r.2)

/-- `hashtbl_remove`, `none` if it looks outside the table. -/
def remove (table : HashTblPtr) (item : ℤ) : Option (ℤ × HashTblPtr) :=
  match table with
  | none => some (-1, none)
  | some table => (hashtblRemove table item).map fun r => (r.1, some r.2)

/-- The items of the table, if there is one. -/
def items : HashTblPtr → List ℤ
  | none => []
  | some table => table.items

/-- There is a table, and it takes one more item. -/
def Takes (granted : Granted) (table : HashTblPtr) : Prop :=
  match table with
  | none => False
  | some table => table.Takes granted

instance (granted : Granted) : (table : HashTblPtr) → Decidable (table.Takes granted)
  | none => instDecidableFalse
  | some table => inferInstanceAs (Decidable (table.Takes granted))

/-- The table is in order, if there is one. -/
def WF (table : HashTblPtr) : Prop :=
  ∀ t, table = some t → t.WF

variable {table : HashTblPtr}

theorem WF.contains_iff (h : table.WF) {item : ℤ} :
    table.contains item = true ↔ item ∈ table.items := by
  cases table with
  | none => exact iff_of_false Bool.false_ne_true List.not_mem_nil
  | some table => exact (h table rfl).hashtblContains_iff

/-- An insertion leaves a table in order, and adds the item if the table takes it. -/
theorem WF.insert_spec (h : table.WF) (granted : Granted) (item : ℤ) :
    (table.insert granted item).2.WF ∧
      ((¬table.Takes granted ∧ (table.insert granted item).2.items.Perm table.items) ∨
        (table.Takes granted ∧
          (table.insert granted item).2.items.Perm (table.items ++ [item]))) := by
  cases table with
  | none => exact ⟨h, .inl ⟨id, List.Perm.refl _⟩⟩
  | some table =>
    have hwf := h table rfl
    obtain ⟨r, table', he, hwf', hfunct, hitems⟩ :=
      hwf.wellFormed.hashtblInsert_granted granted item
    simp only [insert, he]
    refine ⟨fun t ht => ?_, hitems⟩
    cases ht
    exact HashTbl.wf_iff.2 ⟨hwf', hfunct.trans hwf.default⟩

/-- A removal takes one occurrence of a descriptor out of the table. -/
theorem WF.remove_eq (h : table.WF) (fd : ℕ) :
    ∃ r table', table.remove fd = some (r, table') ∧ table'.WF ∧
      table'.items = table.items.erase fd := by
  cases table with
  | none => exact ⟨-1, none, rfl, h, rfl⟩
  | some table =>
    obtain ⟨r, table', hremove, hwf, hitems⟩ := (h table rfl).hashtblRemove_eq fd
    refine ⟨r, some table', by simp only [remove, hremove, Option.map_some], fun t ht => ?_, hitems⟩
    cases ht
    exact hwf

end HashTblPtr

end StorageServer
