import StorageServer.FileSystem

/-!
# The file system of a store

`Store.Holds s xs` says that the map of the store `s` has the files `xs`, each with its
address, and that the memory behind them is in order. `Store.fileSystem` reads the file
system off a store. The lemmas say what the assignments of the handlers do to the two :
a file changed in place (`Holds.put`), an object outside the map (`Holds.delete`), an
entry added or removed (`Holds.insert`, `Holds.remove`).
-/

namespace StorageServer

/-- The table of openers is in order, and the size is that of the contents. -/
structure File.WF (f : File) : Prop where
  fdOpen : f.fdOpen.WF
  size : f.contents.length = f.size

/-- The map has the files `xs`, in this order, at these addresses. -/
structure Store.Holds (s : Store) (xs : List (FilePtr × File)) : Prop where
  map : s.files.WF
  entries : s.files.entries = xs.map fun x => (x.2.pathName, x.1)
  heap : ∀ x ∈ xs, s.heap x.1 = some x.2
  wf : ∀ x ∈ xs, x.2.WF
  names : (xs.map fun x => x.2.pathName).Nodup
  ptrs : (xs.map Prod.fst).Nodup
  fresh : ∀ p, s.fresh ≤ p → s.heap p = none

/-- The files of the map and the counters. -/
def Store.fileSystem (s : Store) : FileSystem where
  files := s.files.entries.filterMap fun e => s.heap e.2
  state := s.currState
  nlist := s.files.nlist

namespace Store

variable {s s' : Store} {xs : List (FilePtr × File)} {x : FilePtr × File} {p : FilePtr}
  {f : File} {path : CString}

theorem Holds.fileSystem_eq (h : s.Holds xs) :
    s.fileSystem = ⟨xs.map Prod.snd, s.currState, s.files.nlist⟩ := by
  have hf : s.files.entries.filterMap (fun e => s.heap e.2) = xs.map Prod.snd := by
    rw [h.entries, List.filterMap_map]
    have hx : ∀ x ∈ xs, ((fun e => s.heap e.2) ∘ fun x => (x.2.pathName, x.1)) x =
        (some ∘ Prod.snd) x := fun x hx => h.heap x hx
    rw [List.filterMap_congr hx, List.filterMap_eq_map]
  rw [fileSystem, hf]

theorem Holds.ext (h : s.Holds xs) (hx : x ∈ xs) {y : FilePtr × File} (hy : y ∈ xs)
    (hn : x.2.pathName = y.2.pathName) : x = y :=
  List.inj_on_of_nodup_map h.names hx hy hn

theorem Holds.ext_ptr (h : s.Holds xs) (hx : x ∈ xs) {y : FilePtr × File} (hy : y ∈ xs)
    (hp : x.1 = y.1) : x = y :=
  List.inj_on_of_nodup_map h.ptrs hx hy hp

theorem Holds.lt_fresh (h : s.Holds xs) (hx : x ∈ xs) : x.1 < s.fresh := by
  by_contra hn
  have := h.heap x hx
  rw [h.fresh x.1 (Nat.le_of_not_lt hn)] at this
  cases this

theorem Holds.nelem (h : s.Holds xs) : s.files.nelem = xs.length := by
  rw [h.map.nelem, h.entries, List.length_map]

theorem Holds.iter (h : s.Holds xs) : s.files.entries.map Prod.snd = xs.map Prod.fst := by
  rw [h.entries, List.map_map]
  rfl

/-! ## Lookups -/

theorem Holds.keys (h : s.Holds xs) : (s.files.entries.map Prod.fst).Nodup := by
  rw [h.entries, List.map_map]
  exact h.names

theorem Holds.hashmapGetByKey_eq_some (h : s.Holds xs) :
    hashmapGetByKey s.files path = some p ↔ ∃ f, (p, f) ∈ xs ∧ f.pathName = path := by
  rw [h.map.hashmapGetByKey_eq_some h.keys, h.entries, List.mem_map]
  constructor
  · rintro ⟨⟨q, f⟩, hx, he⟩
    obtain ⟨rfl, rfl⟩ := Prod.mk.inj he
    exact ⟨f, hx, rfl⟩
  · rintro ⟨f, hx, rfl⟩
    exact ⟨_, hx, rfl⟩

theorem Holds.hashmapGetByKey_eq_none (h : s.Holds xs) :
    hashmapGetByKey s.files path = none ↔ ∀ x ∈ xs, x.2.pathName ≠ path := by
  rw [h.map.hashmapGetByKey_eq_none, h.entries]
  constructor
  · rintro hn x hx rfl
    exact hn x.1 (List.mem_map.2 ⟨x, hx, rfl⟩)
  · rintro hn p hm
    obtain ⟨x, hx, he⟩ := List.mem_map.1 hm
    exact hn x hx (Prod.mk.inj he).1

theorem Holds.find?_eq_some (h : s.Holds xs) (hx : x ∈ xs) :
    s.fileSystem.find? x.2.pathName = some x.2 := by
  have hm : x.2 ∈ xs.map Prod.snd := List.mem_map_of_mem hx
  rw [h.fileSystem_eq, FileSystem.find?]
  cases hf : (xs.map Prod.snd).find? fun f => f.pathName = x.2.pathName with
  | none =>
    rw [List.find?_eq_none] at hf
    exact absurd (decide_eq_true rfl) (hf x.2 hm)
  | some f =>
    obtain ⟨y, hy, rfl⟩ := List.mem_map.1 (List.mem_of_find?_eq_some hf)
    rw [h.ext hy hx (by simpa using List.find?_some hf)]

theorem Holds.find?_eq_none (h : s.Holds xs) :
    s.fileSystem.find? path = none ↔ ∀ x ∈ xs, x.2.pathName ≠ path := by
  rw [h.fileSystem_eq, FileSystem.find?, List.find?_eq_none]
  simp only [List.mem_map, decide_eq_true_eq]
  exact ⟨fun hn x hx => hn _ ⟨x, hx, rfl⟩, fun hn f ⟨x, hx, hf⟩ => hf ▸ hn x hx⟩

theorem Holds.exists_of_find? (h : s.Holds xs) (hf : s.fileSystem.find? path = some f) :
    f.pathName = path ∧ ∃ p, (p, f) ∈ xs := by
  rw [h.fileSystem_eq, FileSystem.find?] at hf
  obtain ⟨x, hx, rfl⟩ := List.mem_map.1 (List.mem_of_find?_eq_some hf)
  exact ⟨by simpa using List.find?_some hf, x.1, hx⟩

/-! ## Changes in place -/

/-- Files changed in place, by a function of the address. -/
theorem Holds.map_files (h : s.Holds xs) {g : FilePtr → File → File}
    (hname : ∀ x ∈ xs, (g x.1 x.2).pathName = x.2.pathName) (hwf : ∀ x ∈ xs, (g x.1 x.2).WF)
    (hfiles : s'.files = s.files) (hfresh : ∀ p, s'.fresh ≤ p → s'.heap p = none)
    (hheap : ∀ x ∈ xs, s'.heap x.1 = some (g x.1 x.2)) :
    s'.Holds (xs.map fun x => (x.1, g x.1 x.2)) where
  map := hfiles ▸ h.map
  entries := by
    rw [hfiles, h.entries, List.map_map]
    exact List.map_congr_left fun x hx => by simp [hname x hx]
  heap := by
    rintro _ hm
    obtain ⟨x, hx, rfl⟩ := List.mem_map.1 hm
    exact hheap x hx
  wf := by
    rintro _ hm
    obtain ⟨x, hx, rfl⟩ := List.mem_map.1 hm
    exact hwf x hx
  names := by
    have : xs.map (fun x => (g x.1 x.2).pathName) = xs.map fun x => x.2.pathName :=
      List.map_congr_left hname
    rw [List.map_map]
    exact this ▸ h.names
  ptrs := by
    rw [List.map_map]
    exact h.ptrs
  fresh := hfresh

/-- A file is changed in place. -/
theorem Holds.put (h : s.Holds xs) (hx : x ∈ xs) (hname : f.pathName = x.2.pathName)
    (hwf : f.WF) :
    (s.put x.1 f).Holds (xs.map fun y => (y.1, if y.1 = x.1 then f else y.2)) := by
  refine h.map_files (g := fun p f' => if p = x.1 then f else f') ?_ ?_ rfl ?_ ?_
  · intro y hy
    split_ifs with hp
    · rw [h.ext_ptr hy hx hp, hname]
    · rfl
  · intro y hy
    split_ifs with hp
    · exact hwf
    · exact h.wf y hy
  · intro p hp
    rw [heap_put_of_ne _ _ _ (Nat.ne_of_gt (Nat.lt_of_lt_of_le (h.lt_fresh hx) hp))]
    exact h.fresh p hp
  · intro y hy
    rw [heap_put]
    split_ifs with hp
    · rfl
    · exact h.heap y hy

/-- The same memory, whatever the counters and the mutexes are. -/
theorem Holds.of_eq (h : s.Holds xs) (hfiles : s'.files = s.files) (hheap : s'.heap = s.heap)
    (hfresh : s'.fresh = s.fresh) : s'.Holds xs where
  map := hfiles ▸ h.map
  entries := hfiles ▸ h.entries
  heap := hheap ▸ h.heap
  wf := h.wf
  names := h.names
  ptrs := h.ptrs
  fresh := by
    rw [hheap, hfresh]
    exact h.fresh

theorem Holds.setState (h : s.Holds xs) (st : ServerState) : (s.setState st).Holds xs :=
  h.of_eq rfl rfl rfl

theorem Holds.setLocked (h : s.Holds xs) (b : Bool) (m : Mutex) : (s.setLocked b m).Holds xs :=
  h.of_eq (files_setLocked ..) (heap_setLocked ..) (fresh_setLocked ..)

theorem Holds.fileSystem_put (h : s.Holds xs) (hx : x ∈ xs) {g : File → File}
    (hname : (g x.2).pathName = x.2.pathName) (hwf : (g x.2).WF) :
    (s.put x.1 (g x.2)).fileSystem = s.fileSystem.update x.2.pathName g := by
  rw [(h.put hx hname hwf).fileSystem_eq, h.fileSystem_eq, FileSystem.update]
  simp only [List.map_map, currState_put, files_put, FileSystem.mk.injEq, and_true]
  refine List.map_congr_left fun y hy => ?_
  simp only [Function.comp_apply]
  by_cases hp : y.1 = x.1
  · obtain rfl := h.ext_ptr hy hx hp
    simp
  · rw [if_neg hp, if_neg fun hn => hp (by rw [h.ext hy hx hn])]

/-! ## Objects outside the map -/

/-- An object outside the map is changed. -/
theorem Holds.put_outside (h : s.Holds xs) (hp : p ∉ xs.map Prod.fst) (hlt : p < s.fresh) :
    (s.put p f).Holds xs where
  map := h.map
  entries := h.entries
  heap x hx := by
    have hne : x.1 ≠ p := fun he => hp (List.mem_map.2 ⟨x, hx, he⟩)
    rw [heap_put_of_ne _ _ _ hne]
    exact h.heap x hx
  wf := h.wf
  names := h.names
  ptrs := h.ptrs
  fresh q hq := by
    rw [heap_put_of_ne _ _ _ (Nat.ne_of_gt (Nat.lt_of_lt_of_le hlt hq))]
    exact h.fresh q hq

/-- An object outside the map is deleted. -/
theorem Holds.delete (h : s.Holds xs) (hp : p ∉ xs.map Prod.fst) : (s.delete p).Holds xs where
  map := h.map
  entries := h.entries
  heap x hx := by
    have hne : x.1 ≠ p := fun he => hp (List.mem_map.2 ⟨x, hx, he⟩)
    rw [heap_delete, if_neg hne]
    exact h.heap x hx
  wf := h.wf
  names := h.names
  ptrs := h.ptrs
  fresh q hq := by
    rw [heap_delete]
    split_ifs
    · rfl
    · exact h.fresh q hq

/-- A new object is allocated. -/
theorem Holds.alloc (h : s.Holds xs) (f : File) : (s.alloc f).Holds xs where
  map := h.map
  entries := h.entries
  heap x hx := by
    have hne : x.1 ≠ s.fresh := Nat.ne_of_lt (h.lt_fresh hx)
    simpa [Store.alloc, hne] using h.heap x hx
  wf := h.wf
  names := h.names
  ptrs := h.ptrs
  fresh q hq := by
    have hlt : s.fresh < q := hq
    have hne : q ≠ s.fresh := Nat.ne_of_gt hlt
    simpa [Store.alloc, hne] using h.fresh q (Nat.le_of_lt hlt)

/-! ## Entries -/

theorem Holds.stored_at (h : s.Holds xs) (hx : x ∈ xs) :
    hashmapGetByKey s.files x.2.pathName = some x.1 :=
  h.hashmapGetByKey_eq_some.2 ⟨x.2, hx, rfl⟩

/-- The entry of a file is removed from the map. -/
theorem Holds.remove (h : s.Holds xs) (hx : x ∈ xs) :
    (hashmapRemove s.files x.2.pathName).1 = some x.1 ∧
      (s.setFiles (hashmapRemove s.files x.2.pathName).2).Holds (xs.filter fun y => y.1 ≠ x.1) := by
  have hget := h.stored_at hx
  obtain ⟨map', hrem, hmap, hentries, -⟩ := h.map.hashmapRemove_eq_some hget
  rw [hrem]
  refine ⟨rfl, hmap, ?_, ?_, ?_, ?_, ?_, h.fresh⟩
  · rw [files_setFiles, hentries, HashMap.eraseP_key h.keys, h.entries, List.filter_map]
    refine congrArg (List.map _) (List.filter_congr fun y hy => ?_)
    have hiff : y.2.pathName = x.2.pathName ↔ y.1 = x.1 :=
      ⟨fun hn => by rw [h.ext hy hx hn], fun hp => by rw [h.ext_ptr hy hx hp]⟩
    simp [hiff]
  · exact fun y hy => h.heap y (List.mem_of_mem_filter hy)
  · exact fun y hy => h.wf y (List.mem_of_mem_filter hy)
  · exact h.names.sublist (List.filter_sublist.map _)
  · exact h.ptrs.sublist (List.filter_sublist.map _)

/-- The files without one of them. -/
theorem Holds.map_filter_ne (h : s.Holds xs) (hx : x ∈ xs) :
    (xs.filter fun y => y.1 ≠ x.1).map Prod.snd = s.fileSystem.others x.2.pathName := by
  rw [h.fileSystem_eq, FileSystem.others, List.filter_map]
  refine congrArg (List.map _) (List.filter_congr fun y hy => ?_)
  have hiff : y.1 = x.1 ↔ y.2.pathName = x.2.pathName :=
    ⟨fun hp => by rw [h.ext_ptr hy hx hp], fun hn => by rw [h.ext hy hx hn]⟩
  simp [hiff]

/-- A permutation of images is the images of a permutation. -/
theorem exists_eq_map_of_perm_map {α β : Type*} {g : α → β} {l : List β} {as : List α}
    (h : l.Perm (as.map g)) : ∃ as' : List α, l = as'.map g ∧ as'.Perm as := by
  have hg : List.Forall₂ (fun b a => b = g a) (as.map g) as :=
    List.forall₂_map_left_iff.2 (List.forall₂_same.2 fun _ _ => rfl)
  obtain ⟨as', hl, has'⟩ := List.perm_comp_forall₂ h hg
  have he : List.Forall₂ (· = ·) l (as'.map g) := List.forall₂_map_right_iff.2 hl
  rw [List.forall₂_eq_eq_eq] at he
  exact ⟨as', he, has'⟩

/-- A map with the same entries in another order. -/
theorem Holds.permute (h : s.Holds xs) {map : HashMap FilePtr} (hmap : map.WF)
    {ys : List (FilePtr × File)} (hentries : map.entries = ys.map fun x => (x.2.pathName, x.1))
    (hperm : ys.Perm xs) : (s.setFiles map).Holds ys where
  map := hmap
  entries := hentries
  heap x hx := h.heap x (hperm.subset hx)
  wf x hx := h.wf x (hperm.subset hx)
  names := ((hperm.map _).nodup_iff).2 h.names
  ptrs := ((hperm.map _).nodup_iff).2 h.ptrs
  fresh := h.fresh

/-- An object of the memory is added to the map under its path, if the map takes it. -/
theorem Holds.insert (h : s.Holds xs) (hheap : s.heap p = some f) (hwf : f.WF)
    (hname : ∀ x ∈ xs, x.2.pathName ≠ f.pathName) (hp : p ∉ xs.map Prod.fst)
    (granted : Granted) :
    ∃ xs', (s.setFiles (hashmapInsert granted s.files f.pathName p).2).Holds xs' ∧
      (s.files.Takes granted ∧ xs'.Perm (xs ++ [(p, f)]) ∨
        ¬s.files.Takes granted ∧ xs'.Perm xs) := by
  rcases h.map.hashmapInsert_cases granted f.pathName p with
    ⟨htakes, map', hins, hmap, hperm⟩ | ⟨htakes, map', hins, hmap, hperm, -⟩
  · rw [hins]
    rw [h.entries] at hperm
    obtain ⟨xs', he, hxs'⟩ := exists_eq_map_of_perm_map hperm
    exact ⟨xs', h.permute hmap he hxs', .inr ⟨htakes, hxs'⟩⟩
  · rw [hins]
    have hperm' : map'.entries.Perm ((xs ++ [(p, f)]).map fun x => (x.2.pathName, x.1)) := by
      rw [List.map_append, ← h.entries]
      exact hperm
    obtain ⟨xs', he, hxs'⟩ := exists_eq_map_of_perm_map hperm'
    have hmem : ∀ x ∈ xs', x ∈ xs ∨ x = (p, f) := fun x hx => by
      simpa using hxs'.subset hx
    refine ⟨xs', ⟨hmap, he, ?_, ?_, ?_, ?_, h.fresh⟩, .inl ⟨htakes, hxs'⟩⟩
    · intro x hx
      rcases hmem x hx with hx | rfl
      · exact h.heap x hx
      · exact hheap
    · intro x hx
      rcases hmem x hx with hx | rfl
      · exact h.wf x hx
      · exact hwf
    · refine ((hxs'.map _).nodup_iff).2 ?_
      simp only [List.map_append, List.map_cons, List.map_nil]
      refine h.names.append (List.nodup_singleton _) ?_
      simp only [List.disjoint_singleton, List.mem_map, not_exists, not_and]
      exact hname
    · refine ((hxs'.map _).nodup_iff).2 ?_
      simp only [List.map_append, List.map_cons, List.map_nil]
      exact h.ptrs.append (List.nodup_singleton _) (List.disjoint_singleton.2 hp)

/-! ## Several files -/

/-- Change several files in place, one after the other. -/
def putAll (s : Store) (g : File → File) (ys : List (FilePtr × File)) : Store :=
  ys.foldl (fun s y => s.put y.1 (g y.2)) s

variable {g : File → File} {ys : List (FilePtr × File)}

@[simp] theorem putAll_nil : s.putAll g [] = s :=
  rfl

@[simp] theorem putAll_cons (y : FilePtr × File) :
    s.putAll g (y :: ys) = (s.put y.1 (g y.2)).putAll g ys :=
  rfl

@[simp] theorem files_putAll : (s.putAll g ys).files = s.files := by
  induction ys generalizing s with
  | nil => rfl
  | cons y ys ih => rw [putAll_cons, ih, files_put]

@[simp] theorem currState_putAll : (s.putAll g ys).currState = s.currState := by
  induction ys generalizing s with
  | nil => rfl
  | cons y ys ih => rw [putAll_cons, ih, currState_put]

@[simp] theorem fresh_putAll : (s.putAll g ys).fresh = s.fresh := by
  induction ys generalizing s with
  | nil => rfl
  | cons y ys ih => rw [putAll_cons, ih, fresh_put]

@[simp] theorem locked_putAll (m : Mutex) : (s.putAll g ys).locked m = s.locked m := by
  induction ys generalizing s with
  | nil => rfl
  | cons y ys ih => rw [putAll_cons, ih, locked_put]

@[simp] theorem setLocked_putAll (b : Bool) (m : Mutex) :
    (s.putAll g ys).setLocked b m = (s.setLocked b m).putAll g ys := by
  induction ys generalizing s with
  | nil => rfl
  | cons y ys ih => rw [putAll_cons, ih, setLocked_put, putAll_cons]

theorem heap_putAll_of_not_mem (hp : p ∉ ys.map Prod.fst) :
    (s.putAll g ys).heap p = s.heap p := by
  induction ys generalizing s with
  | nil => rfl
  | cons y ys ih =>
    rw [List.map_cons, List.mem_cons, not_or] at hp
    rw [putAll_cons, ih hp.2, heap_put_of_ne _ _ _ hp.1]

theorem heap_putAll_of_mem (hnodup : (ys.map Prod.fst).Nodup) (hx : x ∈ ys) :
    (s.putAll g ys).heap x.1 = some (g x.2) := by
  induction ys generalizing s with
  | nil => cases hx
  | cons y ys ih =>
    rw [List.map_cons, List.nodup_cons] at hnodup
    rw [putAll_cons]
    rcases List.mem_cons.1 hx with rfl | hx
    · rw [heap_putAll_of_not_mem hnodup.1, heap_put_self]
    · exact ih hnodup.2 hx

/-- Several files of the map are changed in place. -/
theorem Holds.putAll (h : s.Holds xs) (hys : ys.Sublist xs)
    (hname : ∀ f : File, (g f).pathName = f.pathName) (hwf : ∀ f : File, f.WF → (g f).WF) :
    (s.putAll g ys).Holds
      (xs.map fun x => (x.1, if x.1 ∈ ys.map Prod.fst then g x.2 else x.2)) := by
  have hnodup : (ys.map Prod.fst).Nodup := h.ptrs.sublist (hys.map _)
  refine h.map_files (g := fun p f => if p ∈ ys.map Prod.fst then g f else f) ?_ ?_
    files_putAll ?_ ?_
  · intro x hx
    split_ifs
    · exact hname x.2
    · rfl
  · intro x hx
    split_ifs
    · exact hwf _ (h.wf x hx)
    · exact h.wf x hx
  · intro p hp
    rw [fresh_putAll] at hp
    rw [heap_putAll_of_not_mem, h.fresh p hp]
    intro hm
    obtain ⟨y, hy, rfl⟩ := List.mem_map.1 hm
    exact absurd (h.lt_fresh (hys.subset hy)) (Nat.not_lt.2 hp)
  · intro x hx
    split_ifs with hm
    · obtain ⟨y, hy, he⟩ := List.mem_map.1 hm
      obtain rfl := h.ext_ptr (hys.subset hy) hx he
      exact heap_putAll_of_mem hnodup hy
    · rw [heap_putAll_of_not_mem hm]
      exact h.heap x hx

end Store

end StorageServer
