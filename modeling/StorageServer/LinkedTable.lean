import Mathlib.Data.Multiset.AddSub
import StorageServer.HashTable
import StorageServer.LinkedLists

/-!
# The hash table over its nodes

`hashtable.c` on the nodes of its lists. `LinkedTable.Represents` says that the lists are well
formed and hold the items of a `HashTbl`, and every function does to them what it does to the
buckets of that table.

Under `default_hashtbl_hash` a sequence of insertions and removals of non-negative items leaves
the multiset of those that were inserted and not removed (`linkedTable_refines`).
-/

open Linked

namespace StorageServer

/-- `hashtbl_t`. -/
structure LinkedTable where
  nlist : ℕ
  nelem : ℕ
  list : List ListT
  hashFunct : ℤ → ℤ → ℕ

namespace LinkedTable

/-- The list in which `_hashtbl_insert` and `hashtbl_contains` look. -/
def hash (table : LinkedTable) (item : ℤ) : ℕ :=
  table.hashFunct item table.nlist % table.nlist

/-- `hashtbl_init`. -/
def init (nlist : ℤ) (hashFunct : ℤ → ℤ → ℕ) : Option LinkedTable :=
  if nlist < 0 then none
  else some ⟨nlist.toNat, 0, List.replicate nlist.toNat emptyList, hashFunct⟩

/-- `_hashtbl_insert`. -/
def insertNode (w : Nodes ℤ) (table : LinkedTable) (item : ℤ) : Option (Nodes ℤ × LinkedTable) := do
  let (w, list, nelem) ← pushAt table.hash w table.list table.nelem item
  return (w, { table with list := list, nelem := nelem })

/-- `hashtbl_expand`. The inner `none` is a failed allocation. -/
def expand (w : Nodes ℤ) (table : LinkedTable) : Option (Option (Nodes ℤ × LinkedTable)) :=
  (init (toInt (table.nlist * 2)) table.hashFunct).mapM fun newTable => do
    let (w, list, nelem) ← expandLists newTable.hash w table.list newTable.list
    return (w, { newTable with list := list, nelem := nelem })

/-- `hashtbl_insert`. -/
def insert (w : Nodes ℤ) (table : LinkedTable) (item : ℤ) : Option (ℤ × Nodes ℤ × LinkedTable) := do
  if table.nelem + 1 > table.nlist / 2 then
    match ← expand w table with
    | none => return (-1, w, table)
    | some (w, table) => return (0, ← insertNode w table item)
  else return (0, ← insertNode w table item)

/-- `hashtbl_contains`. -/
def contains (w : Nodes ℤ) (table : LinkedTable) (item : ℤ) : Option Bool := do
  return (← findAt w table.list (table.hash item) (· = item)).isSome

/-- `hashtbl_remove`, which does not reduce the hash again : outside the lists it is `none`. -/
def remove (w : Nodes ℤ) (table : LinkedTable) (item : ℤ) : Option (ℤ × Nodes ℤ × LinkedTable) := do
  let hash := toLong (table.hashFunct item table.nlist)
  if hash < 0 then none
  else
    match ← removeAt w table.list hash.toNat (· = item) with
    | (none, w, list) => return (1, w, { table with list := list })
    | (some _, w, list) => return (0, w, { table with list := list, nelem := table.nelem - 1 })

/-! ## The table that the nodes represent -/

/-- The nodes hold the items of the table. -/
structure Represents (w : Nodes ℤ) (table : LinkedTable) (abs : HashTbl) : Prop where
  nlist : table.nlist = abs.nlist
  nelem : table.nelem = abs.nelem
  hashFunct : table.hashFunct = abs.hashFunct
  lists : ∃ css, Lists w table.list css ∧ items css = abs.list

section Represents

variable {w : Nodes ℤ} {table : LinkedTable} {abs : HashTbl}

theorem Represents.hash_eq (h : table.Represents w abs) : table.hash = abs.hash := by
  funext item
  rw [hash, HashTbl.hash, h.nlist, h.hashFunct]

/-- `_hashtbl_insert` inserts a node. -/
theorem Represents.insertNode (h : table.Represents w abs) (hwf : abs.WF)
    (hlen : abs.items.length + 1 < 2 ^ 32) (item : ℤ) :
    ∃ w' table', LinkedTable.insertNode w table item = some (w', table') ∧
      table'.Represents w' (hashtblInsertNode abs item) := by
  obtain ⟨css, hlists, hitems⟩ := h.lists
  have hlt : abs.hash item < css.length := by
    rw [← length_items, hitems]
    exact hwf.hash_lt item
  obtain ⟨w', lists', css', hpush, hlists', hitems'⟩ := @Lists.pushAt_eq _ w table.list css item
    [] [] abs.hash table.nelem hlists rfl hlt (by rwa [hitems])
  refine ⟨w', { table with list := lists', nelem := table.nelem + 1 }, ?_,
    ⟨h.nlist, congrArg (· + 1) h.nelem, h.hashFunct, css', hlists', by rw [hitems', hitems]; rfl⟩⟩
  rw [LinkedTable.insertNode, h.hash_eq, hpush]
  rfl

/-- `hashtbl_expand` moves the items into twice as many lists. -/
theorem Represents.expand (h : table.Represents w abs) (hwf : abs.WF)
    (hlen : abs.items.length < 2 ^ 32) {abs' : HashTbl} (he : hashtblExpand abs = some abs') :
    ∃ w' table', LinkedTable.expand w table = some (some (w', table')) ∧
      table'.Represents w' abs' := by
  obtain ⟨css, hlists, hitems⟩ := h.lists
  obtain ⟨hwf', hperm⟩ := hwf.hashtblExpand_some he
  obtain ⟨hlt, rfl⟩ := hwf.hashtblExpand_eq_some he
  have hpos := hwf.pos
  let new : HashTbl := ⟨2 * abs.nlist, 0, List.replicate (2 * abs.nlist) [], abs.hashFunct⟩
  have hn : toInt (table.nlist * 2) = ((2 * abs.nlist : ℕ) : ℤ) := by
    rw [h.nlist]
    unfold toInt
    omega
  have hinit : init (toInt (table.nlist * 2)) table.hashFunct = some ⟨2 * abs.nlist, 0,
      List.replicate (2 * abs.nlist) emptyList, abs.hashFunct⟩ := by
    rw [hn, init, if_neg (by omega), h.hashFunct, Int.toNat_natCast]
  obtain ⟨w', lists', css', hexpand, hlists', hitems'⟩ := @Lists.expandLists_eq _ w table.list css
    new.hash hlists (2 * abs.nlist)
    (fun item => Nat.mod_lt _ (show 0 < 2 * abs.nlist by omega)) (by rwa [hitems])
  obtain ⟨hlist, hfunct, hnlist⟩ := @HashTbl.insertNodes_list new abs.items
  refine ⟨w', ⟨2 * abs.nlist, (items css).flatten.length, lists', abs.hashFunct⟩, ?_,
    ⟨hnlist.symm, ?_, hfunct.symm, css', hlists', ?_⟩⟩
  · have hexpand : expandLists (hash ⟨2 * abs.nlist, 0,
        List.replicate (2 * abs.nlist) emptyList, abs.hashFunct⟩) w table.list
          (List.replicate (2 * abs.nlist) emptyList) =
            some (w', lists', (items css).flatten.length) := hexpand
    rw [LinkedTable.expand, hinit, Option.mapM_some]
    dsimp only
    rw [hexpand]
    rfl
  · rw [hwf'.nelem, hperm.length_eq, hitems]
    rfl
  · rw [hitems', hitems]
    exact hlist.symm

/-- `hashtbl_insert`. -/
theorem Represents.insert (h : table.Represents w abs) (hwf : abs.WF)
    (hlen : abs.items.length < 2 ^ 29) (item : ℤ) :
    ∃ w' table', LinkedTable.insert w table item = some (0, w', table') ∧
      table'.Represents w' (hashtblInsert .all abs item).2 := by
  unfold LinkedTable.insert
  rw [HashTbl.hashtblInsert_all]
  rw [h.nelem, h.nlist]
  split_ifs with hfull
  · obtain ⟨abs', he⟩ : ∃ abs', hashtblExpand abs = some abs' := by
      cases he : hashtblExpand abs with
      | some abs' => exact ⟨abs', rfl⟩
      | none =>
        have := hwf.hashtblExpand_eq_none.1 he
        have := hwf.nelem
        omega
    obtain ⟨hwf', hperm⟩ := hwf.hashtblExpand_some he
    obtain ⟨w₁, table₁, hexpand, h₁⟩ := h.expand hwf (by omega) he
    obtain ⟨w₂, table₂, hinsert, h₂⟩ :=
      h₁.insertNode hwf' (by rw [hperm.length_eq]; omega) item
    refine ⟨w₂, table₂, ?_, by rw [he]; exact h₂⟩
    rw [hexpand]
    simp only [Option.bind_eq_bind, Option.bind_some]
    rw [hinsert]
    rfl
  · obtain ⟨w', table', hinsert, h'⟩ := h.insertNode hwf (by omega) item
    refine ⟨w', table', ?_, h'⟩
    rw [hinsert]
    rfl

/-- `hashtbl_contains`. -/
theorem Represents.contains (h : table.Represents w abs) (hwf : abs.WF) (item : ℤ) :
    LinkedTable.contains w table item = some (decide (item ∈ abs.items)) := by
  obtain ⟨css, hlists, hitems⟩ := h.lists
  have hlt : abs.hash item < css.length := by
    rw [← length_items, hitems]
    exact hwf.hash_lt item
  have hfind : ((Buckets.bucket abs.list (abs.hash item)).find? (· = item)).isSome =
      decide (item ∈ abs.items) := by
    rw [Bool.eq_iff_iff, List.find?_isSome, decide_eq_true_eq, ← hwf.hashtblContains_iff,
      hashtblContains, List.any_eq_true]
  rw [LinkedTable.contains, h.hash_eq, hlists.findAt_eq hlt, hitems]
  exact congrArg some hfind

/-- `hashtbl_remove`. -/
theorem Represents.remove (h : table.Represents w abs) (hwf : abs.WF)
    (hlen : abs.items.length < 2 ^ 32) (fd : ℕ) :
    ∃ w' table' abs', LinkedTable.remove w table fd =
        some (if (fd : ℤ) ∈ abs.items then 0 else 1, w', table') ∧
      table'.Represents w' abs' ∧ abs'.WF ∧ abs'.items = abs.items.erase fd ∧
      abs'.nlist = abs.nlist ∧ ((fd : ℤ) ∉ abs.items → w' = w ∧ table' = table) := by
  obtain ⟨css, hlists, hitems⟩ := h.lists
  have hlt : abs.hash fd < css.length := by
    rw [← length_items, hitems]
    exact hwf.hash_lt fd
  have hmem : (fd : ℤ) ∈ Buckets.bucket abs.list (abs.hash fd) ↔ (fd : ℤ) ∈ abs.items :=
    ⟨Buckets.mem_flatten_of_mem_bucket, hwf.placed.mem_bucket⟩
  obtain ⟨w', lists', css', hremove, hlists', hitems', hsame⟩ :=
    hlists.removeAt_eq hlt (by rwa [hitems]) (· = (fd : ℤ))
  rw [hitems] at hremove hitems' hsame
  have hhash : toLong (table.hashFunct fd table.nlist) = abs.hash fd := by
    rw [h.hashFunct, h.nlist]
    exact hwf.removeHash_eq fd
  obtain ⟨r, abs', habs, hwf', herase⟩ := hwf.hashtblRemove_eq fd
  have hin : (0 : ℤ) ≤ abs.hash fd ∧ (abs.hash fd : ℤ) < abs.nlist := by
    have := hwf.hash_lt fd
    have := hwf.length
    omega
  simp only [hashtblRemove, hwf.removeHash_eq, Int.toNat_natCast, if_pos hin] at habs
  have hrun : LinkedTable.remove w table fd =
      if ((Buckets.bucket abs.list (abs.hash fd)).find? (· = (fd : ℤ))).isSome then
        some (0, w', { table with list := lists', nelem := table.nelem - 1 })
      else some (1, w', { table with list := lists' }) := by
    simp only [LinkedTable.remove, hhash, Int.toNat_natCast, if_neg (Int.not_lt.2 hin.1), hremove]
    cases (Buckets.bucket abs.list (abs.hash fd)).find? (· = (fd : ℤ)) <;> rfl
  by_cases hm : (fd : ℤ) ∈ Buckets.bucket abs.list (abs.hash fd)
  · rw [if_pos hm] at habs
    cases habs
    have hsome : ((Buckets.bucket abs.list (abs.hash fd)).find? (· = (fd : ℤ))).isSome = true :=
      List.find?_isSome.2 ⟨fd, hm, decide_eq_true rfl⟩
    have hrep : Represents w' { table with list := lists', nelem := table.nelem - 1 }
        { abs with
          list := abs.list.modify (abs.hash fd) (·.eraseP (· = (fd : ℤ)))
          nelem := abs.nelem - 1 } :=
      ⟨h.nlist, congrArg (· - 1) h.nelem, h.hashFunct, css', hlists', hitems'⟩
    refine ⟨w', _, _, ?_, hrep, hwf', herase, rfl, fun hn => absurd (hmem.1 hm) hn⟩
    rw [hrun, if_pos hsome, if_pos (hmem.1 hm)]
  · rw [if_neg hm] at habs
    cases habs
    have hfind : (Buckets.bucket abs.list (abs.hash fd)).find? (· = (fd : ℤ)) = none :=
      List.find?_eq_none.2 fun x hx hp => hm (of_decide_eq_true hp ▸ hx)
    obtain ⟨rfl, rfl⟩ := hsame hfind
    refine ⟨w', table, abs, ?_, h, hwf', herase, rfl, fun _ => ⟨rfl, rfl⟩⟩
    rw [hrun, hfind, Option.isSome_none, if_neg Bool.false_ne_true, if_neg (mt hmem.2 hm)]

theorem represents_init (nlist : ℕ) (w : Nodes ℤ) :
    Represents w ⟨nlist, 0, List.replicate nlist emptyList, defaultHashtblHash⟩
      ⟨nlist, 0, List.replicate nlist [], defaultHashtblHash⟩ := by
  have hnil : Lists w ([] : List ListT) ([] : List (List (ℕ × ℤ))) :=
    ⟨rfl, nofun, nofun, nofun, nofun⟩
  exact ⟨rfl, rfl, rfl, _, hnil.append_empty nlist, by simp [items]⟩

end Represents

end LinkedTable

/-! ## Sequences of calls -/

/-- A call that changes a table of descriptors. -/
inductive TableCall
  | insert (item : ℕ)
  | remove (item : ℕ)

/-- The occurrences after a call. -/
def TableCall.live (items : Multiset ℕ) : TableCall → Multiset ℕ
  | insert item => item ::ₘ items
  | remove item => items.erase item

/-- What a call is to return. -/
def TableCall.result (items : Multiset ℕ) : TableCall → ℤ
  | insert _ => 0
  | remove item => if item ∈ items then 0 else 1

/-- The occurrences that were inserted and not removed. -/
def liveOccurrences (items : Multiset ℕ) (calls : List TableCall) : Multiset ℕ :=
  calls.foldl TableCall.live items

/-- What the calls are to return. -/
def tableResults : Multiset ℕ → List TableCall → List ℤ
  | _, [] => []
  | items, call :: calls => call.result items :: tableResults (call.live items) calls

namespace LinkedTable

/-- A call. -/
def call (w : Nodes ℤ) (table : LinkedTable) : TableCall → Option (ℤ × Nodes ℤ × LinkedTable)
  | .insert item => insert w table item
  | .remove item => remove w table item

/-- The calls of a sequence, with what they return. -/
def run : List TableCall → Nodes ℤ → LinkedTable → Option (List ℤ × Nodes ℤ × LinkedTable)
  | [], w, table => some ([], w, table)
  | c :: calls, w, table => do
    let (r, w, table) ← call w table c
    let (rs, w, table) ← run calls w table
    return (r :: rs, w, table)

/-- The table holds these occurrences. -/
structure Holds (w : Nodes ℤ) (table : LinkedTable) (live : Multiset ℕ) : Prop where
  contains : ∀ item : ℕ, contains w table item = some (decide (item ∈ live))
  remove : ∀ item : ℕ, item ∉ live → remove w table item = some (1, w, table)
  nelem : table.nelem = live.card
  load : table.nelem ≤ table.nlist / 2
  lists : ∃ css, Lists w table.list css ∧ css.length = table.nlist ∧
    ((items css).flatten : Multiset ℤ) = live.map (↑)

/-- A table that represents the occurrences, with at most half as many as lists. -/
structure Keeps (w : Nodes ℤ) (table : LinkedTable) (abs : HashTbl) (live : Multiset ℕ) : Prop where
  represents : table.Represents w abs
  wf : abs.WF
  items : (abs.items : Multiset ℤ) = live.map (↑)
  load : live.card ≤ abs.nlist / 2

section Keeps

variable {w : Nodes ℤ} {table : LinkedTable} {abs : HashTbl} {live : Multiset ℕ} {c : TableCall}

theorem Keeps.length_eq (h : table.Keeps w abs live) : abs.items.length = live.card := by
  rw [← Multiset.coe_card, h.items, Multiset.card_map]

theorem Keeps.mem_items (h : table.Keeps w abs live) (item : ℕ) :
    (item : ℤ) ∈ abs.items ↔ item ∈ live := by
  rw [← Multiset.mem_coe, h.items, Multiset.mem_map]
  constructor
  · rintro ⟨n, hn, he⟩
    rwa [← Int.natCast_inj.1 he]
  · exact fun hm => ⟨item, hm, rfl⟩

theorem Keeps.holds (h : table.Keeps w abs live) (hlen : live.card < 2 ^ 28) :
    table.Holds w live := by
  have hnelem : table.nelem = live.card := by rw [h.represents.nelem, h.wf.nelem, h.length_eq]
  obtain ⟨css, hlists, hitems⟩ := h.represents.lists
  refine ⟨fun item => ?_, fun item hn => ?_, hnelem, ?_, css, hlists, ?_, ?_⟩
  · rw [h.represents.contains h.wf, decide_eq_decide.2 (h.mem_items item)]
  · obtain ⟨w', table', abs', hremove, -, -, -, -, hsame⟩ :=
      h.represents.remove h.wf (by rw [h.length_eq]; omega) item
    have hn' : (item : ℤ) ∉ abs.items := mt (h.mem_items item).1 hn
    obtain ⟨rfl, rfl⟩ := hsame hn'
    rwa [if_neg hn'] at hremove
  · rw [hnelem, h.represents.nlist]
    exact h.load
  · rw [← length_items, hitems, h.wf.length, h.represents.nlist]
  · rw [hitems]
    exact h.items

/-- A call returns what it is to return, and leaves the live occurrences. -/
theorem Keeps.call (h : table.Keeps w abs live) (hlen : live.card < 2 ^ 28)
    (hlen' : (c.live live).card < 2 ^ 28) :
    ∃ w' table' abs', table.call w c = some (c.result live, w', table') ∧
      table'.Keeps w' abs' (c.live live) := by
  have hlength := h.length_eq
  have hload := h.load
  have hpos := h.wf.pos
  cases c with
  | insert item =>
    obtain ⟨w', table', hinsert, hrep⟩ := h.represents.insert h.wf (by omega) item
    obtain ⟨abs', he, hwf, hperm, hnlist⟩ := h.wf.hashtblInsert_spec (by omega) item
    rw [he] at hrep
    refine ⟨w', table', abs', hinsert, hrep, hwf, ?_, ?_⟩
    · rw [TableCall.live, Multiset.map_cons, ← h.items, Multiset.cons_coe]
      exact Multiset.coe_eq_coe.2 (hperm.trans (List.perm_append_singleton ..))
    · rw [TableCall.live, Multiset.card_cons]
      split_ifs at hnlist <;> omega
  | remove item =>
    obtain ⟨w', table', abs', hremove, hrep, hwf, herase, hnlist, -⟩ :=
      h.represents.remove h.wf (by omega) item
    simp only [h.mem_items] at hremove
    refine ⟨w', table', abs', hremove, hrep, hwf, ?_, ?_⟩
    · rw [herase, TableCall.live, ← Multiset.coe_erase, h.items,
        Multiset.map_erase _ fun _ _ he => Int.natCast_inj.1 he]
    · rw [hnlist]
      exact (Multiset.card_le_card (Multiset.erase_le ..)).trans h.load

/-- A sequence of calls returns what it is to return, and leaves the live occurrences. -/
theorem Keeps.run (h : table.Keeps w abs live) (calls : List TableCall)
    (hlive : ∀ cs, cs <+: calls → (liveOccurrences live cs).card < 2 ^ 28) :
    ∃ w' table' abs', table.run calls w = some (tableResults live calls, w', table') ∧
      table'.Keeps w' abs' (liveOccurrences live calls) := by
  induction calls generalizing w table abs live with
  | nil => exact ⟨w, table, abs, rfl, h⟩
  | cons c calls ih =>
    obtain ⟨w₁, table₁, abs₁, hcall, h₁⟩ :=
      h.call (hlive [] List.nil_prefix) (hlive [c] (List.prefix_append [c] calls))
    obtain ⟨w₂, table₂, abs₂, hrun, h₂⟩ := ih h₁ fun cs hcs =>
      hlive (c :: cs) (List.cons_prefix_cons.2 ⟨rfl, hcs⟩)
    refine ⟨w₂, table₂, abs₂, ?_, h₂⟩
    rw [LinkedTable.run, hcall]
    simp only [Option.bind_eq_bind, Option.bind_some]
    rw [hrun]
    rfl

end Keeps

end LinkedTable

/-- A sequence of insertions and removals of descriptors that keeps fewer than `2 ^ 28`
occurrences returns what it is to return, and the table then holds those that were inserted and
not removed. -/
theorem linkedTable_refines {nlist : ℕ} (hpos : 1 ≤ nlist) (hle : nlist ≤ 2 ^ 29)
    (calls : List TableCall)
    (hlive : ∀ cs, cs <+: calls → (liveOccurrences 0 cs).card < 2 ^ 28) (w₀ : Nodes ℤ) :
    ∃ table₀ w table, LinkedTable.init nlist defaultHashtblHash = some table₀ ∧
      table₀.run calls w₀ = some (tableResults 0 calls, w, table) ∧
      table.Holds w (liveOccurrences 0 calls) := by
  have hkeeps : LinkedTable.Keeps w₀
      ⟨nlist, 0, List.replicate nlist emptyList, defaultHashtblHash⟩ _ 0 :=
    ⟨LinkedTable.represents_init nlist w₀, HashTbl.WF.init nlist (by omega) (by omega),
      by simp [HashTbl.items], Nat.zero_le _⟩
  obtain ⟨w, table, abs, hrun, hkeeps⟩ := hkeeps.run calls hlive
  refine ⟨_, w, table, ?_, hrun, hkeeps.holds (hlive calls (List.prefix_refl calls))⟩
  rw [LinkedTable.init, if_neg (by omega), Int.toNat_natCast]

/-- Two occurrences of a descriptor are removed one after the other. -/
theorem linkedTable_refines_twice : ∃ table₀ w table,
    LinkedTable.init 1 defaultHashtblHash = some table₀ ∧
    table₀.run [.insert 7, .insert 7, .remove 7, .remove 3] ⟨fun _ => none, 0⟩ =
      some ([0, 0, 0, 1], w, table) ∧ table.Holds w {7} := by
  refine linkedTable_refines le_rfl (by decide) _ (fun cs hcs => ?_) _
  simp only [List.prefix_cons_iff, List.prefix_nil] at hcs
  rcases hcs with rfl | ⟨_, rfl, rfl | ⟨_, rfl, rfl | ⟨_, rfl, rfl | ⟨_, rfl, rfl⟩⟩⟩⟩ <;> decide

end StorageServer
