import StorageServer.Sections
import StorageServer.Soundness

/-!
# The effect of a section

The part of each handler under `files_mtx` has the effect on the file system that
`FileSystem.Effect` says, and gives the last part of the handler the objects of the
outcome (`safe_storeSection`).
-/

open Programs Selection

namespace StorageServer

/-- The objects `ys` have been taken out of the map and are locked for writing. -/
structure Store.Owns (s : Store) (xs ys : List (FilePtr × File)) : Prop where
  heap : ∀ y ∈ ys, s.heap y.1 = some y.2.writeLocked
  nodup : (ys.map Prod.fst).Nodup
  outside : ∀ y ∈ ys, y.1 ∉ xs.map Prod.fst

theorem Store.owns_nil (s : Store) (xs : List (FilePtr × File)) : s.Owns xs [] :=
  ⟨by simp, by simp, by simp⟩

/-- The objects that the last part of a handler is given are those of the outcome. -/
inductive Store.Shows (s : Store) (xs : List (FilePtr × File)) :
    Except Sa Reply → Except Sa FileSystem.Outcome → Prop
  | error (code) : Shows s xs (.error code) (.error code)
  | done : Shows s xs (.ok .done) (.ok .done)
  | created {p : FilePtr} {f g : File} {y : Option (FilePtr × File)} (h : s.Owns xs y.toList)
      (hp : s.heap p = some g) (hname : g.pathName = f.pathName) (hne : ∀ x ∈ y, x.1 ≠ p) :
      Shows s xs (.ok (.created p (y.map Prod.fst))) (.ok (.created f (y.map Prod.snd)))
  | expelled {ys : List (FilePtr × File)} (h : s.Owns xs ys) :
      Shows s xs (.ok (.expelled (ys.map Prod.fst))) (.ok (.expelled (ys.map Prod.snd)))
  | reading {x : FilePtr × File} (hx : x ∈ xs) (hr : 0 < x.2.nReaders) :
      Shows s xs (.ok (.reading x.1)) (.ok (.reading x.2))
  | readingN {zs : List (FilePtr × File)} (hz : zs.Sublist xs) (hr : ∀ z ∈ zs, 0 < z.2.nReaders) :
      Shows s xs (.ok (.readingN (zs.map Prod.fst))) (.ok (.readingN (zs.map Prod.snd)))

/-- What the section of a request leaves : its effect, the files `xs'` of the map, the
objects for the reply, and the clock after the readings. An error leaves the store alone. -/
structure Served (cfg : ServerConfig) (fdClient : ℕ) (req : Request) (l : Local) (s : Store)
    (r : Except Sa Reply) (l' : Local) (s' : Store) (xs' : List (FilePtr × File))
    (readings : List Timespec) (out : Except Sa FileSystem.Outcome) : Prop where
  effect : s.fileSystem.Effect cfg fdClient l.malloc req readings out s'.fileSystem
  idle : s'.Idle cfg xs'
  shown : s'.Shows xs' r out
  clock : l.clock = readings ++ l'.clock
  frame : l' = { l with clock := l'.clock, log := l'.log }
  unchanged : ∀ code, r = .error code → s' = s

section Effects

variable {cfg : ServerConfig} {fdClient : ℕ} {req : Request} {l : Local} {s s' : Store}
  {xs xs' : List (FilePtr × File)} {path : CString}

theorem Store.Idle.wf_files (hs : s.Idle cfg xs) {f : File} (hf : f ∈ s.fileSystem.files) :
    f.contents.length = f.size := by
  rw [hs.fileSystem_eq] at hf
  obtain ⟨x, hx, rfl⟩ := List.mem_map.1 hf
  exact (hs.wf x hx).size

theorem Store.Idle.space_lt (hs : s.Idle cfg xs) (hfit : s.fileSystem.Fits req) :
    s.currState.space + req.buffer.length < 2 ^ 63 := by
  rw [FileSystem.Fits, FileSystem.contentBytes_eq hs.sound fun f hf => hs.wf_files hf] at hfit
  exact hfit

/-- After an effect with both mutexes released, the store is idle again. -/
theorem Store.Idle.of_effect (hs : s.Idle cfg xs) (hfit : s.fileSystem.Fits req) (hreq : req.WF)
    {readings : List Timespec} {out : Except Sa FileSystem.Outcome}
    (he : s.fileSystem.Effect cfg fdClient l.malloc req readings out s'.fileSystem)
    (h : s'.Holds xs')
    (hfiles : s'.locked .files = false) (hstate : s'.locked .currState = false) :
    s'.Idle cfg xs' :=
  ⟨h, hfiles, hstate, he.sound hs.sound hreq (hs.space_lt hfit)⟩

/-- A refused request leaves everything as it is. -/
theorem Store.Idle.refused (hs : s.Idle cfg xs) {code : Sa}
    (h : s.fileSystem.refusal cfg fdClient req = some code) :
    Served cfg fdClient req l s (.error code) l s xs [] (.error code) :=
  ⟨.refused h, hs, .error code, rfl, rfl, fun _ _ => rfl⟩

/-- Nor does a request that passes its checks, but not its allocations, change anything. -/
theorem Store.Idle.noMemory (hs : s.Idle cfg xs) {a : Allocation} (hreq : req.MakesList)
    (h : s.fileSystem.refusal cfg fdClient req = none) (ha : l.malloc a = false) :
    Served cfg fdClient req l s (.error .error) l s xs [] (.error .error) :=
  ⟨.noMemory hreq h ha, hs, .error .error, rfl, rfl, fun _ _ => rfl⟩

/-- A file has been changed in place. -/
theorem Store.Idle.put (hs : s.Idle cfg xs) (hfit : s.fileSystem.Fits req) (hreq : req.WF)
    {readings : List Timespec} {out : Except Sa FileSystem.Outcome} {x : FilePtr × File}
    (hx : x ∈ xs) {g : File → File} (hname : (g x.2).pathName = x.2.pathName) (hwf : (g x.2).WF)
    (he : s.fileSystem.Effect cfg fdClient l.malloc req readings out
      (s.fileSystem.update x.2.pathName g)) :
    s.fileSystem.Effect cfg fdClient l.malloc req readings out (s.put x.1 (g x.2)).fileSystem ∧
      (s.put x.1 (g x.2)).Idle cfg (xs.map fun y => (y.1, if y.1 = x.1 then g x.2 else y.2)) := by
  rw [← hs.fileSystem_put hx hname hwf] at he
  refine ⟨he, hs.of_effect hfit hreq he (hs.toHolds.put hx hname hwf) ?_ ?_⟩
  · rw [Store.locked_put, hs.filesMtx]
  · rw [Store.locked_put, hs.currStateMtx]

/-! ## Files in order -/

/-- There is memory for the table of a new file and for its creator in it. -/
def OpenersGranted (malloc : Allocation → Bool) : Prop :=
  malloc .hashtbl = true ∧ malloc .hashtblNode = true

instance (malloc : Allocation → Bool) : Decidable (OpenersGranted malloc) :=
  inferInstanceAs (Decidable (_ ∧ _))

/-- A new file is open for its creator only, or for nobody if there is no memory. -/
theorem File.newOpeners_spec (malloc : Allocation → Bool) (fdClient : ℕ) :
    (File.newOpeners malloc fdClient).WF ∧
      ((¬OpenersGranted malloc ∧ (File.newOpeners malloc fdClient).items = []) ∨
        (OpenersGranted malloc ∧
          (File.newOpeners malloc fdClient).items = [(fdClient : ℤ)])) := by
  unfold File.newOpeners OpenersGranted
  by_cases htable : malloc .hashtbl = true
  · let empty : HashTblPtr := some ⟨4, 0, List.replicate 4 [], defaultHashtblHash⟩
    have hempty : empty.WF := fun t ht =>
      Option.some.inj ht ▸ HashTbl.WF.init 4 (by omega) (by omega)
    have htakes : empty.Takes (openersGranted malloc) ↔ malloc .hashtblNode = true :=
      ⟨And.left, fun hnode => ⟨hnode, fun hfull => absurd hfull (by decide)⟩⟩
    obtain ⟨hwf, hitems⟩ := hempty.insert_spec (openersGranted malloc) fdClient
    rw [if_pos htable]
    refine ⟨hwf, hitems.imp (fun h => ⟨fun hn => h.1 (htakes.2 hn.2), ?_⟩)
      fun h => ⟨⟨htable, htakes.1 h.1⟩, ?_⟩⟩
    · exact List.perm_nil.1 h.2
    · exact List.perm_singleton.1 h.2
  · rw [if_neg htable]
    exact ⟨fun t ht => (by cases ht), .inl ⟨fun hn => htable hn.1, rfl⟩⟩

variable {malloc : Allocation → Bool}

theorem File.WF.new (path : CString) (flags : ℤ) (t₁ t₂ : Timespec) :
    (File.new malloc path flags fdClient t₁ t₂).WF :=
  ⟨(File.newOpeners_spec malloc fdClient).1, rfl⟩

theorem File.items_new (hmalloc : OpenersGranted malloc) (path : CString) (flags : ℤ)
    (t₁ t₂ : Timespec) :
    (File.new malloc path flags fdClient t₁ t₂).fdOpen.items = [(fdClient : ℤ)] := by
  rcases (File.newOpeners_spec malloc fdClient).2 with ⟨hn, -⟩ | ⟨-, hitems⟩
  · exact absurd hmalloc hn
  · exact hitems

theorem File.contains_new (hmalloc : OpenersGranted malloc) (path : CString) (flags : ℤ)
    (t₁ t₂ : Timespec) :
    (File.new malloc path flags fdClient t₁ t₂).fdOpen.contains fdClient = true := by
  rw [(File.WF.new path flags t₁ t₂).fdOpen.contains_iff, File.items_new hmalloc]
  exact List.mem_singleton_self _

theorem File.WF.opened {f : File} (h : f.WF) (flags : ℤ) (t : Timespec) :
    (f.opened malloc fdClient flags t).WF := by
  refine ⟨?_, h.size⟩
  dsimp only [File.opened]
  split_ifs
  · exact h.fdOpen
  · exact (h.fdOpen.insert_spec (openersGranted malloc) fdClient).1

/-- Opening a file adds the client to its openers, if it is not one of them and the table takes
it. -/
theorem File.WF.items_opened {f : File} (h : f.WF) (malloc : Allocation → Bool) (flags : ℤ)
    (t : Timespec) :
    ((f.opened malloc fdClient flags t).fdOpen.items.Perm f.fdOpen.items ∧
        (f.fdOpen.Takes (openersGranted malloc) → (fdClient : ℤ) ∈ f.fdOpen.items)) ∨
      ((fdClient : ℤ) ∉ f.fdOpen.items ∧ f.fdOpen.Takes (openersGranted malloc) ∧
        (f.opened malloc fdClient flags t).fdOpen.items.Perm
          (f.fdOpen.items ++ [(fdClient : ℤ)])) := by
  dsimp only [File.opened]
  by_cases hmem : (fdClient : ℤ) ∈ f.fdOpen.items
  · rw [if_pos (h.fdOpen.contains_iff.2 hmem)]
    exact .inl ⟨List.Perm.refl _, fun _ => hmem⟩
  · rw [if_neg fun hc => hmem (h.fdOpen.contains_iff.1 hc)]
    exact (h.fdOpen.insert_spec (openersGranted malloc) fdClient).2.imp
      (fun hn => ⟨hn.2, fun ht => absurd ht hn.1⟩) fun ht => ⟨hmem, ht.1, ht.2⟩

theorem File.WF.closed {f : File} (h : f.WF) : (f.closed fdClient).WF := by
  refine ⟨?_, h.size⟩
  obtain ⟨r, table, hrem, hwf, -⟩ := h.fdOpen.remove_eq fdClient
  dsimp only [File.closed]
  rwa [hrem]

/-- Closing a file takes the client out of its openers, once. -/
theorem File.WF.items_closed {f : File} (h : f.WF) :
    (f.closed fdClient).fdOpen.items = f.fdOpen.items.erase fdClient := by
  obtain ⟨r, table, hrem, -, hitems⟩ := h.fdOpen.remove_eq fdClient
  dsimp only [File.closed]
  rwa [hrem]

/-! ## The sections -/

theorem Store.Idle.removed (hs : s.Idle cfg xs) {x : FilePtr × File} (hx : x ∈ xs) :
    (s.removed x).Holds (xs.filter fun y => y.1 ≠ x.1) ∧
      (s.removed x).fileSystem = s.fileSystem.remove x.2 := by
  have hholds : (s.removed x).Holds (xs.filter fun y => y.1 ≠ x.1) :=
    (((hs.remove hx).2.setState (s.currState.remove x.2)).put_outside (by simp)
      (hs.lt_fresh hx)).delete (by simp)
  have hnlist : (s.removed x).files.nlist = s.files.nlist := HashMap.nlist_hashmapRemove ..
  refine ⟨hholds, ?_⟩
  rw [hholds.fileSystem_eq, FileSystem.remove, ← hs.map_filter_ne hx, hnlist]
  rfl

/-- What is to be shown of a section. -/
def SafeSection (cfg : ServerConfig) (fdClient : ℕ) (req : Request) (l : Local) (s : Store) :
    Prop :=
  Prog.wp safeExec (storeSection cfg fdClient req)
    (fun r w => ∃ xs readings out, Served cfg fdClient req l s r w.1 w.2 xs readings out) (l, s)

theorem safeSection_closeFile (hs : s.Idle cfg xs)
    (hfit : s.fileSystem.Fits (.closeFile path)) :
    SafeSection cfg fdClient (.closeFile path) l s := by
  rw [SafeSection, storeSection, Prog.wp_bind]
  refine safe_closeFileStore hs (fun hfind => ?_) fun x hx hpath hfind => ?_
  · exact ⟨xs, [], _, hs.refused (by simp [FileSystem.refusal, hfind])⟩
  · subst hpath
    obtain ⟨he, hidle⟩ := hs.put (g := File.closed fdClient) hfit trivial hx rfl (hs.wf x hx).closed
      (.closed hfind)
    exact ⟨_, [], _, he, hidle, .done, rfl, rfl, fun _ h => by cases h⟩

theorem safeSection_openFile (hs : s.Idle cfg xs) {flags : ℤ} (hc : ¬isFlagSet flags oCreate)
    (hfit : s.fileSystem.Fits (.openFile path flags)) :
    SafeSection cfg fdClient (.openFile path flags) l s := by
  rw [SafeSection, storeSection, if_neg hc, Prog.wp_bind]
  refine safe_openFileExisting hs (fun hfind => ?_) (fun x hx hfind hl => ?_)
    fun x hx hpath hfind hl t rest hclock => ?_
  · exact ⟨xs, [], _, hs.refused (by simp [FileSystem.refusal, hfind, hc])⟩
  · refine ⟨xs, [], _, hs.refused ?_⟩
    rw [FileSystem.refusal, if_neg hc, hfind]
    exact if_pos hl
  · subst hpath
    have hpass : s.fileSystem.refusal cfg fdClient (.openFile x.2.pathName flags) = none := by
      rw [FileSystem.refusal, if_neg hc, hfind]
      exact if_neg hl
    obtain ⟨he, hidle⟩ := hs.put (g := File.opened l.malloc fdClient flags t) hfit trivial hx rfl
      ((hs.wf x hx).opened flags t) (.opened hc hfind hpass)
    exact ⟨_, [t], _, he, hidle, .done, hclock, rfl, fun _ h => by cases h⟩

theorem safeSection_readFile (hs : s.Idle cfg xs)
    (hfit : s.fileSystem.Fits (.readFile path)) :
    SafeSection cfg fdClient (.readFile path) l s := by
  rw [SafeSection, storeSection, Prog.wp_bind]
  refine safe_readFileStore hs (fun hfind => ?_) (fun x hx hfind hc => ?_)
    fun x hx hpath hfind hc t rest hclock => ?_
  · exact ⟨xs, [], _, hs.refused (by simp [FileSystem.refusal, hfind])⟩
  · exact ⟨xs, [], _, hs.refused (by simp [FileSystem.refusal, hfind, hc])⟩
  · subst hpath
    obtain ⟨he, hidle⟩ := hs.put (g := fun f => (f.used t).readLocked) hfit trivial hx rfl
      ⟨(hs.wf x hx).fdOpen, (hs.wf x hx).size⟩
      (.read hfind ((FileSystem.refusal_readFile_eq_none hfind).2 hc))
    refine ⟨_, [t], _, he, hidle, .reading (x := (x.1, (x.2.used t).readLocked)) ?_ ?_, hclock, rfl,
      fun _ h => by cases h⟩
    · exact List.mem_map.2 ⟨x, hx, by rw [if_pos rfl]⟩
    · exact Nat.succ_pos _

theorem safeSection_removeFile (hs : s.Idle cfg xs)
    (hfit : s.fileSystem.Fits (.removeFile path)) :
    SafeSection cfg fdClient (.removeFile path) l s := by
  rw [SafeSection, storeSection, Prog.wp_bind]
  refine safe_removeFileStore hs (fun hfind => ?_) (fun x hx hfind hc => ?_)
    (fun x hx hfind hc hl => ?_) fun x hx hpath hfind hc hl => ?_
  · exact ⟨xs, [], _, .removedNothing hfind, hs, .done, rfl, rfl, fun _ h => by cases h⟩
  · exact ⟨xs, [], _, hs.refused (by simp [FileSystem.refusal, hfind, hc])⟩
  · exact ⟨xs, [], _, hs.refused (by simp [FileSystem.refusal, hfind, hc, hl])⟩
  · subst hpath
    have he : s.fileSystem.Effect cfg fdClient l.malloc (.removeFile x.2.pathName) [] (.ok .done)
        (s.fileSystem.remove x.2) :=
      .removed hfind ((FileSystem.refusal_removeFile_eq_none hfind).2 ⟨hc, hl⟩)
    obtain ⟨hholds, hfs⟩ := hs.removed hx
    rw [← hfs] at he
    exact ⟨_, [], _, he, hs.of_effect hfit trivial he hholds hs.filesMtx hs.currStateMtx, .done,
      rfl, rfl, fun _ h => by cases h⟩

/-- Changing the first files of a list, in terms of their addresses. -/
theorem map_ite_mem_append {as bs : List (FilePtr × File)}
    (hnodup : ((as ++ bs).map Prod.fst).Nodup) (g : File → File) :
    (as ++ bs).map (fun x => (x.1, if x.1 ∈ as.map Prod.fst then g x.2 else x.2)) =
      as.map (fun x => (x.1, g x.2)) ++ bs := by
  rw [List.map_append] at hnodup
  have hdisj : ∀ x ∈ bs, x.1 ∉ as.map Prod.fst := fun x hx hm =>
    List.disjoint_of_nodup_append hnodup hm (List.mem_map_of_mem hx)
  rw [List.map_append]
  congr 1
  · exact List.map_congr_left fun x hx => by rw [if_pos (List.mem_map_of_mem hx)]
  · exact (List.map_congr_left fun x hx => by rw [if_neg (hdisj x hx), id]).trans (List.map_id _)

/-- The first `n` files are locked for reading. -/
theorem Store.Idle.readLockAll (hs : s.Idle cfg xs) (n : ℕ) :
    (s.putAll File.readLocked (xs.take n)).Holds
        ((xs.take n).map (fun x => (x.1, x.2.readLocked)) ++ xs.drop n) ∧
      (s.putAll File.readLocked (xs.take n)).fileSystem =
        { s.fileSystem with files := (s.fileSystem.files.take n).map File.readLocked ++
            s.fileSystem.files.drop n } := by
  have hholds := hs.toHolds.putAll (g := File.readLocked) (List.take_sublist n xs)
    (fun _ => rfl) fun f hf => ⟨hf.fdOpen, hf.size⟩
  have hmap :=
    map_ite_mem_append (by rw [List.take_append_drop n xs]; exact hs.ptrs) File.readLocked
  rw [List.take_append_drop] at hmap
  rw [hmap] at hholds
  refine ⟨hholds, ?_⟩
  rw [hholds.fileSystem_eq, hs.fileSystem_eq, Store.currState_putAll, Store.files_putAll,
    List.map_append, List.map_map, ← List.map_take, ← List.map_drop, List.map_map]
  rfl

theorem safeSection_readNFiles (hs : s.Idle cfg xs) {N : ℤ}
    (hfit : s.fileSystem.Fits (.readNFiles N)) :
    SafeSection cfg fdClient (.readNFiles N) l s := by
  have hfs : s.fileSystem.files = xs.map Prod.snd := congrArg FileSystem.files hs.fileSystem_eq
  rw [SafeSection, storeSection, Prog.wp_bind]
  refine safe_readNFilesStore hs (fun hnil => ?_)
    (fun a ha => ⟨xs, [], _, hs.noMemory trivial rfl ha⟩) ?_
  · refine ⟨xs, [], _, .unset ?_, hs, .error .error, rfl, rfl, fun _ _ => rfl⟩
    rw [hfs, ← List.map_take, hnil, List.map_nil]
  · obtain ⟨hholds, hfs'⟩ := hs.readLockAll (s.fileSystem.countRead N)
    have he : s.fileSystem.Effect cfg fdClient l.malloc (.readNFiles N) []
        (.ok (.readingN ((s.fileSystem.files.take (s.fileSystem.countRead N)).map File.readLocked)))
        _ := .readN
    rw [← hfs'] at he
    have hidle := hs.of_effect hfit trivial he hholds (by simp [hs.filesMtx])
      (by simp [hs.currStateMtx])
    have hshown := Store.Shows.readingN
      (s := s.putAll File.readLocked (xs.take (s.fileSystem.countRead N)))
      (List.sublist_append_left
        ((xs.take (s.fileSystem.countRead N)).map fun x => (x.1, x.2.readLocked))
        (xs.drop (s.fileSystem.countRead N)))
      fun z hz => by
        obtain ⟨x, -, rfl⟩ := List.mem_map.1 hz
        exact Nat.succ_pos _
    rw [List.map_map, List.map_map] at hshown
    rw [hfs, ← List.map_take, List.map_map] at he
    exact ⟨_, [], _, he, hidle, hshown, rfl, rfl, fun _ h => by cases h⟩

section Grown

variable {x : FilePtr × File} {g : File → File} {size : ℕ}

/-- The files that are expelled are those of the file system. -/
theorem Store.Holds.toExpell_map_snd (h : s.Holds xs) (hx : x ∈ xs)
    (hname : ∀ f, (g f).pathName = f.pathName) :
    (toExpell cfg s xs x.1 size).map Prod.snd =
      ((s.fileSystem.update x.2.pathName g).makeRoom cfg x.2.pathName size).1 := by
  rw [FileSystem.makeRoom_fst, FileSystem.others_update hname, ← h.map_filter_ne hx, ← sorted_map,
    ← takeWeight_map]
  rfl

theorem nodup_toExpell (hnodup : (xs.map Prod.fst).Nodup) (p : FilePtr) :
    ((toExpell cfg s xs p size).map Prod.fst).Nodup := by
  have hsorted : ((sorted cfg.policy.keyAt (xs.filter fun y => y.1 ≠ p)).map Prod.fst).Nodup :=
    (((sorted_perm _).map _).nodup_iff).2 (hnodup.sublist (List.filter_sublist.map _))
  exact hsorted.sublist ((takeWeight_isPrefix _ _).sublist.map _)

theorem Store.fileSystem_setState (s : Store) (st : ServerState) :
    (s.setState st).fileSystem = { s.fileSystem with state := st } :=
  rfl

/-- What a write leaves in the map and in the file system. -/
theorem Store.Holds.grown (h : s.Holds xs) (hx : x ∈ xs)
    (hname : ∀ f, (g f).pathName = f.pathName) (hwf : (g x.2).WF) :
    (s.grown x.1 (g x.2) size (toExpell cfg s xs x.1 size)).Holds
        ((xs.map fun y => (y.1, if y.1 = x.1 then g x.2 else y.2)).filter fun y =>
          y.1 ∉ (toExpell cfg s xs x.1 size).map Prod.fst) ∧
      (s.grown x.1 (g x.2) size (toExpell cfg s xs x.1 size)).fileSystem =
        ((s.fileSystem.update x.2.pathName g).makeRoom cfg x.2.pathName size).2 := by
  have hx' : x.1 ∉ (toExpell cfg s xs x.1 size).map Prod.fst := not_mem_toExpell
  have hput := h.put hx (hname x.2) hwf
  have hsub : toExpell cfg s xs x.1 size ⊆
      xs.map fun y => (y.1, if y.1 = x.1 then g x.2 else y.2) := fun y hy => by
    obtain ⟨hy, hne⟩ := mem_toExpell hy
    exact List.mem_map.2 ⟨y, hy, by rw [if_neg hne]⟩
  obtain ⟨hholds, hfs⟩ := (hput.setState (s.currState.addSpace size)).expellAll hsub
    (nodup_toExpell h.ptrs x.1)
  -- the file is changed before the others are expelled
  have hgrown : s.grown x.1 (g x.2) size (toExpell cfg s xs x.1 size) =
      (((s.put x.1 (g x.2)).setState (s.currState.addSpace size)).expellAll
        (toExpell cfg s xs x.1 size)).setState (((toExpell cfg s xs x.1 size).map
          Prod.snd).foldl ServerState.expell (s.currState.addSpace size)).noteSpace := by
    rw [setState_put, expellAll_put hx', setState_put]
    rfl
  rw [hgrown]
  refine ⟨hholds.setState _, ?_⟩
  rw [fileSystem_setState, hfs, fileSystem_setState, h.fileSystem_put hx (hname x.2) hwf,
    h.toExpell_map_snd hx hname, ← FileSystem.state_foldl_expell
      { s.fileSystem.update x.2.pathName g with state := s.currState.addSpace size }]
  rfl

/-- The expelled files are out of the map and locked for writing. -/
theorem Store.Holds.owns_grown (h : s.Holds xs) {f : File} {xs' : List (FilePtr × File)}
    (hxs' : ∀ z ∈ xs', z.1 ∉ (toExpell cfg s xs x.1 size).map Prod.fst) :
    (s.grown x.1 f size (toExpell cfg s xs x.1 size)).Owns xs' (toExpell cfg s xs x.1 size) where
  heap y hy := by
    rw [Store.grown, heap_put_of_ne _ _ _ (mem_toExpell hy).2, heap_setState]
    exact heap_expellAll_of_mem (nodup_toExpell h.ptrs x.1) hy
  nodup := nodup_toExpell h.ptrs x.1
  outside y hy hm := by
    obtain ⟨z, hz, he⟩ := List.mem_map.1 hm
    exact hxs' z hz (he ▸ List.mem_map_of_mem hy)

/-- The section of a write that passes its checks. -/
theorem Store.Idle.served_grown (hs : s.Idle cfg xs) (hfit : s.fileSystem.Fits req) (hreq : req.WF)
    (hx : x ∈ xs) (hname : ∀ f, (g f).pathName = f.pathName) (hwf : (g x.2).WF)
    {t : Timespec} {rest : List Timespec} {log : List LogLine} (hclock : l.clock = t :: rest)
    (he : s.fileSystem.Effect cfg fdClient l.malloc req [t]
      (.ok (.expelled ((s.fileSystem.update x.2.pathName g).makeRoom cfg x.2.pathName size).1))
      ((s.fileSystem.update x.2.pathName g).makeRoom cfg x.2.pathName size).2) :
    ∃ xs' readings out, Served cfg fdClient req l s
      (.ok (.expelled ((toExpell cfg s xs x.1 size).map Prod.fst)))
      { l with clock := rest, log := log }
      (s.grown x.1 (g x.2) size (toExpell cfg s xs x.1 size)) xs' readings out := by
  obtain ⟨hholds, hfs⟩ := @Store.Holds.grown cfg s xs x g size hs.toHolds hx hname hwf
  rw [← hfs, ← hs.toExpell_map_snd hx hname] at he
  refine ⟨_, [t], _, he, hs.of_effect hfit hreq he hholds ?_ ?_,
    .expelled (hs.toHolds.owns_grown fun z hz => by simpa using (List.mem_filter.1 hz).2),
    hclock, rfl, fun _ h => by cases h⟩
  · simp [Store.grown, hs.filesMtx]
  · simp [Store.grown, hs.currStateMtx]

end Grown

theorem safeSection_writeFile (hs : s.Idle cfg xs) {size : ℤ} {buf : List UInt8}
    (hreq : (Request.writeFile path size buf).WF)
    (hfit : s.fileSystem.Fits (.writeFile path size buf)) :
    SafeSection cfg fdClient (.writeFile path size buf) l s := by
  have hbuf : buf.length = toSize size := hreq
  have hlt := hs.space_lt hfit
  rw [SafeSection, storeSection, Prog.wp_bind]
  refine safe_writeFileStore hs hbuf (hbuf ▸ hlt) (fun code hcode => ?_)
    (fun hpass hlist => ⟨xs, [], _, hs.noMemory trivial hpass hlist⟩)
    fun x hx hpath hfind hpass hzero hle t rest hclock s' hs' => ?_
  · exact ⟨xs, [], _, hs.refused hcode⟩
  · subst hpath hs'
    exact hs.served_grown (g := File.written (toSize size) buf t) hfit hreq hx (fun _ => rfl)
      ⟨(hs.wf x hx).fdOpen, hbuf⟩ hclock (.written hfind hpass)

theorem safeSection_appendToFile (hs : s.Idle cfg xs) {size : ℕ} {buf : List UInt8}
    (hreq : (Request.appendToFile path size buf).WF)
    (hfit : s.fileSystem.Fits (.appendToFile path size buf)) :
    SafeSection cfg fdClient (.appendToFile path size buf) l s := by
  have hbuf : buf.length = size := hreq
  have hlt := hs.space_lt hfit
  rw [SafeSection, storeSection]
  by_cases hpos : size > 0
  · have hne : size ≠ 0 := Nat.ne_of_gt hpos
    rw [if_pos hpos, Prog.wp_bind]
    refine safe_appendToFileStore hs hne hbuf (hbuf ▸ hlt) (fun code hcode => ?_)
      fun x hx hpath hfind hpass hle t rest hclock s' hs' => ?_
    · exact ⟨xs, [], _, hs.refused hcode⟩
    · subst hpath hbuf hs'
      exact hs.served_grown (g := File.appended buf t) hfit hreq hx (fun _ => rfl)
        ⟨(hs.wf x hx).fdOpen, by simp [File.appended, (hs.wf x hx).size]⟩ hclock
        (.appended hne hfind hpass)
  · obtain rfl : size = 0 := Nat.eq_zero_of_not_pos hpos
    rw [if_neg hpos, Prog.wp_pure]
    exact ⟨xs, [], _, .appendedNothing, hs, .expelled (s.owns_nil xs), rfl,
      rfl, fun _ h => by cases h⟩

section Created

theorem Store.Holds.victim_map_snd (h : s.Holds xs) :
    (victim cfg s xs).map Prod.snd = (s.fileSystem.makePlace cfg).1 ∧
      (s.fileSystem.makePlace cfg).2 = ((victim cfg s xs).map Prod.snd).elim s.fileSystem
        s.fileSystem.expell := by
  have hhead : (sorted cfg.policy.key s.fileSystem.files).head? =
      (scan cfg.policy.keyAt none xs).map Prod.snd := by
    rw [h.fileSystem_eq, ← sorted_head?, ← List.head?_map]
    exact congrArg List.head? (sorted_map Prod.snd xs).symm
  have hstate : s.fileSystem.state = s.currState := rfl
  rw [FileSystem.makePlace, victim, hhead, hstate]
  split_ifs
  · cases scan cfg.policy.keyAt none xs <;> exact ⟨rfl, rfl⟩
  · exact ⟨rfl, rfl⟩

/-- What is left to a creation once it has expelled a file. -/
theorem Store.Holds.placed (h : s.Holds xs) :
    ∃ xs', (s.placed (victim cfg s xs)).Holds xs' ∧
      (s.placed (victim cfg s xs)).fileSystem = (s.fileSystem.makePlace cfg).2 ∧
      xs' ⊆ xs ∧ (s.placed (victim cfg s xs)).Owns xs' (victim cfg s xs).toList := by
  rw [h.victim_map_snd.2]
  cases hv : victim cfg s xs with
  | none => exact ⟨xs, h, rfl, List.Subset.refl _, s.owns_nil xs⟩
  | some x =>
    have hx : x ∈ xs := mem_of_victim hv
    refine ⟨_, h.expellOne hx, h.fileSystem_expellOne hx, List.filter_subset_self _, ?_,
      by simp, ?_⟩
    · rintro y hy
      obtain rfl : y = x := by simpa using hy
      simp [Store.placed, Store.heap_expellOne]
    · rintro y hy
      obtain rfl : y = x := by simpa using hy
      simp

theorem safeSection_create (hs : s.Idle cfg xs) {flags : ℤ} (hc : isFlagSet flags oCreate)
    (hfit : s.fileSystem.Fits (.openFile path flags)) :
    SafeSection cfg fdClient (.openFile path flags) l s := by
  rw [SafeSection, storeSection, if_pos hc, Prog.wp_bind]
  refine safe_openFileCreate hs (fun hfind => ?_) fun hfind t₁ t₂ rest hclock s' hs' => ?_
  · exact ⟨xs, [], _, hs.refused (by simp [FileSystem.refusal, hfind, hc])⟩
  subst hs'
  obtain ⟨xs₁, hholds, hfs, hsub, howns⟩ := @Store.Holds.placed cfg s xs hs.toHolds
  have hfresh : (s.placed (victim cfg s xs)).fresh = s.fresh := Store.fresh_placed _
  have hout : ∀ x ∈ xs, x.1 ≠ (s.placed (victim cfg s xs)).fresh := fun x hx => by
    rw [hfresh]
    exact Nat.ne_of_lt (hs.lt_fresh hx)
  have hnames : ∀ x ∈ xs₁, x.2.pathName ≠ path := fun x hx =>
    FileSystem.find?_eq_none hfind (by
      rw [hs.fileSystem_eq]
      exact List.mem_map_of_mem (hsub hx))
  obtain ⟨xs₂, hholds₂, hxs₂⟩ := (hholds.alloc (File.new l.malloc path flags fdClient t₁ t₂)).insert
    (f := File.new l.malloc path flags fdClient t₁ t₂)
    (Store.heap_alloc_self _ _ rfl) (File.WF.new path flags t₁ t₂) hnames (fun hm => by
      obtain ⟨x, hx, he⟩ := List.mem_map.1 hm
      exact hout x (hsub hx) he) (filesGranted l.malloc)
  have hcreated : ((s.placed (victim cfg s xs)).created (filesGranted l.malloc) path
      (File.new l.malloc path flags fdClient t₁ t₂)).Holds xs₂ := hholds₂.setState _
  have hplace : (s.fileSystem.makePlace cfg).2 =
    ⟨xs₁.map Prod.snd, (s.placed (victim cfg s xs)).currState,
      (s.placed (victim cfg s xs)).files.nlist⟩ := hfs ▸ hholds.fileSystem_eq
  let nlist' := (hashmapInsert (filesGranted l.malloc) (s.placed (victim cfg s xs)).files path
    (s.placed (victim cfg s xs)).fresh).2.nlist
  have he : s.fileSystem.Effect cfg fdClient l.malloc (.openFile path flags) [t₁, t₂]
      (.ok (.created (File.new l.malloc path flags fdClient t₁ t₂) (s.fileSystem.makePlace cfg).1))
      ⟨xs₂.map Prod.snd, (s.fileSystem.makePlace cfg).2.state.addFile, nlist'⟩ := by
    refine .created hc hfind ?_
    rw [hplace]
    rcases hxs₂ with ⟨-, hperm⟩ | ⟨htakes, hperm⟩
    · exact Or.inl (by simpa using hperm.map Prod.snd)
    · refine Or.inr ⟨fun hmem => htakes ?_, hperm.map Prod.snd⟩
      simpa [FileSystem.HasMemory, HashMap.Takes, filesGranted, hholds.map.nelem, hholds.entries]
        using hmem
  have hfs₂ : ((s.placed (victim cfg s xs)).created (filesGranted l.malloc) path
      (File.new l.malloc path flags fdClient t₁ t₂)).fileSystem =
      ⟨xs₂.map Prod.snd, (s.fileSystem.makePlace cfg).2.state.addFile, nlist'⟩ := by
    rw [hcreated.fileSystem_eq, hplace]
    rfl
  have howns₂ : ((s.placed (victim cfg s xs)).created (filesGranted l.malloc) path
      (File.new l.malloc path flags fdClient t₁ t₂)).Owns xs₂ (victim cfg s xs).toList := by
    have hmem : ∀ y ∈ (victim cfg s xs).toList, y.1 ≠ (s.placed (victim cfg s xs)).fresh :=
      fun y hy => hout y (mem_of_victim (Option.mem_toList.1 hy))
    refine ⟨fun y hy => ?_, howns.nodup, fun y hy hm => ?_⟩
    · exact (Store.heap_alloc_of_ne _ _ (hmem y hy)).trans (howns.heap y hy)
    · obtain ⟨z, hz, hzy⟩ := List.mem_map.1 hm
      have hz : z ∈ xs₁ ∨ z.1 = (s.placed (victim cfg s xs)).fresh := by
        rcases hxs₂ with ⟨-, hperm⟩ | ⟨-, hperm⟩
        · rcases List.mem_append.1 (hperm.subset hz) with hz | hz
          · exact Or.inl hz
          · exact Or.inr (by rw [List.mem_singleton.1 hz])
        · exact Or.inl (hperm.subset hz)
      rcases hz with hz | hz
      · exact howns.outside y hy (hzy ▸ List.mem_map_of_mem hz)
      · exact hmem y hy (hzy ▸ hz)
  rw [← hs.victim_map_snd.1, ← hfs₂] at he
  rw [← hfresh]
  refine ⟨xs₂, [t₁, t₂], _, he, hs.of_effect hfit trivial he hcreated ?_ ?_,
    .created howns₂ (Store.heap_alloc_self _ _ rfl) rfl fun y hy => hout y (mem_of_victim hy),
    hclock, rfl, fun _ h => by cases h⟩
  · simp [Store.created, hs.filesMtx]
  · simp [Store.created, hs.currStateMtx]

end Created

/-- The section of every request has its effect. -/
theorem safe_storeSection (hs : s.Idle cfg xs) (hreq : req.WF) (hfit : s.fileSystem.Fits req) :
    SafeSection cfg fdClient req l s := by
  cases req with
  | openFile path flags =>
    by_cases hc : isFlagSet flags oCreate
    · exact safeSection_create hs hc hfit
    · exact safeSection_openFile hs hc hfit
  | closeFile path => exact safeSection_closeFile hs hfit
  | writeFile path size buf => exact safeSection_writeFile hs hreq hfit
  | appendToFile path size buf => exact safeSection_appendToFile hs hreq hfit
  | readFile path => exact safeSection_readFile hs hfit
  | readNFiles N => exact safeSection_readNFiles hs hfit
  | removeFile path => exact safeSection_removeFile hs hfit

end Effects

end StorageServer
