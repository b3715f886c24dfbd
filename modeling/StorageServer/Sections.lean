import StorageServer.Expulsion

/-!
# The effect of a section

The part of each handler under `files_mtx` has the effect on the file system that
`FileSystem.Effect` says (`safe_storeSection`).
-/

open Programs Selection

namespace StorageServer

/-- A store between two requests : both mutexes are free, and the file system is sound. -/
structure Store.Idle (cfg : ServerConfig) (s : Store) (xs : List (FilePtr × File)) : Prop
    extends s.Holds xs where
  filesMtx : s.locked .files = false
  currStateMtx : s.locked .currState = false
  sound : s.fileSystem.Sound cfg

namespace Store.Idle

variable {cfg : ServerConfig} {s : Store} {xs : List (FilePtr × File)} (hs : s.Idle cfg xs)

include hs

theorem expellable {x : FilePtr × File} (hx : x ∈ xs) : expellable x = true := by
  refine hs.sound.expellable x.2 ?_
  rw [hs.fileSystem_eq]
  exact List.mem_map_of_mem hx

theorem space : s.currState.space = (xs.map sizeAt).sum := by
  have := hs.sound.space
  rw [hs.fileSystem_eq, List.map_map] at this
  exact this

theorem space_le : s.currState.space ≤ cfg.maxSpace :=
  hs.sound.space_le

end Store.Idle

section Sections

variable {cfg : ServerConfig} {fdClient : ℕ} {l : Local} {s : Store}
  {xs : List (FilePtr × File)} {path : CString}

/-- A lookup finds the file at the path, if there is one. -/
theorem Store.Holds.lookup (h : s.Holds xs) (path : CString) :
    (hashmapGetByKey s.files path = none ∧ s.fileSystem.find? path = none) ∨
      ∃ x ∈ xs, x.2.pathName = path ∧ hashmapGetByKey s.files path = some x.1 ∧
        s.heap x.1 = some x.2 ∧ s.fileSystem.find? path = some x.2 := by
  cases hget : hashmapGetByKey s.files path with
  | none =>
    exact Or.inl ⟨rfl, h.find?_eq_none.2 (h.hashmapGetByKey_eq_none.1 hget)⟩
  | some p =>
    obtain ⟨f, hx, rfl⟩ := h.hashmapGetByKey_eq_some.1 hget
    exact Or.inr ⟨(p, f), hx, rfl, rfl, h.heap _ hx, h.find?_eq_some hx⟩

theorem safe_removeOpener {p : FilePtr} {f : File} {r : ℤ} {table fdOpen : HashTblPtr}
    (hheap : s.heap p = some f) (htable : f.fdOpen = table)
    (hrem : table.remove fdClient = some (r, fdOpen))
    {Q : Unit → World → Prop} (hQ : Q () (l, s.put p { f with fdOpen := fdOpen })) :
    Prog.wp safeExec (removeOpener p fdClient) Q (l, s) := by
  rw [removeOpener, Prog.wp_bind, safe_getFdOpen]
  refine ⟨f, hheap, ?_⟩
  rw [htable, hrem]
  exact (safe_set_fdOpen _ _).2 ⟨f, hheap, hQ⟩

@[simp] theorem safe_openersMemory (Q : Granted → World → Prop) :
    Prog.wp safeExec openersMemory Q (l, s) ↔ Q (openersGranted l.malloc) (l, s) := by
  simp only [openersMemory, Prog.wp_bind, Prog.wp_pure, safe_malloc, openersGranted]

/-- A process that goes on has made the table as far as there is memory. -/
theorem safe_initOpeners {Q : HashTblPtr → World → Prop}
    (hQ : Q (File.newOpeners l.malloc fdClient) (l, s)) :
    Prog.wp safeExec (initOpeners fdClient) Q (l, s) := by
  simp only [initOpeners, Prog.wp_bind, safe_malloc]
  cases htable : l.malloc .hashtbl with
  | false => simpa [File.newOpeners, htable] using hQ
  | true =>
    have hQ (_ : l.malloc .hashtblLists = true) := hQ
    simpa [File.newOpeners, htable] using hQ

@[simp] theorem safe_addOpener (p : FilePtr) (Q : Unit → World → Prop) :
    Prog.wp safeExec (addOpener p fdClient) Q (l, s) ↔ ∃ f, s.heap p = some f ∧
      Q () (l, s.put p { f with
        fdOpen := (f.fdOpen.insert (openersGranted l.malloc) fdClient).2 }) := by
  simp only [addOpener, Prog.wp_bind, safe_openersMemory, safe_getFdOpen, safe_set_fdOpen]
  constructor
  · rintro ⟨f, hf, f', hf', hQ⟩
    cases hf.symm.trans hf'
    exact ⟨f, hf, hQ⟩
  · rintro ⟨f, hf, hQ⟩
    exact ⟨f, hf, f, hf, hQ⟩

theorem safe_closeFileStore (hs : s.Idle cfg xs) {Q : Sa → World → Prop}
    (hnone : s.fileSystem.find? path = none → Q .noFile (l, s))
    (hsome : ∀ x ∈ xs, x.2.pathName = path → s.fileSystem.find? path = some x.2 →
      Q .success (l, s.put x.1 (x.2.closed fdClient))) :
    Prog.wp safeExec (closeFileStore fdClient path) Q (l, s) := by
  simp only [closeFileStore, Prog.wp_bind, safe_mutexLock, safe_filesGetByKey,
    Store.files_setLocked]
  intro _
  rcases hs.lookup path with ⟨hget, hfind⟩ | ⟨x, hx, hpath, hget, hheap, hfind⟩
  · simpa [hget, hs.filesMtx] using hnone hfind
  · obtain ⟨r, fdOpen, hrem, -, -⟩ := (hs.wf x hx).fdOpen.remove_eq fdClient
    have hclosed : x.2.closed fdClient = { x.2 with
        fdLock := if x.2.fdLock = fdClient then -1 else x.2.fdLock, fdOpen := fdOpen } := by
      rw [File.closed, hrem]
      rfl
    have hdone := hsome x hx hpath hfind
    rw [hclosed] at hdone
    simp only [hget, Prog.wp_bind]
    refine safe_fileWriterLock_of (f := x.2) (by rw [Store.heap_setLocked, hheap]) fun _ _ => ?_
    rw [Prog.wp_bind]
    refine safe_removeOpener (f := x.2.writeLocked) (Store.heap_put_self ..) rfl hrem ?_
    by_cases hl : x.2.fdLock = fdClient
    · simpa [hl, hs.filesMtx, File.writeLocked, File.writeUnlocked] using hdone
    · simpa [hl, hs.filesMtx, File.writeLocked, File.writeUnlocked] using hdone

theorem safe_openFileExisting (hs : s.Idle cfg xs) {flags : ℤ} {Q : Sa → World → Prop}
    (hnone : s.fileSystem.find? path = none → Q .noFile (l, s))
    (hlocked : ∀ x ∈ xs, s.fileSystem.find? path = some x.2 →
      isFlagSet flags oLock ∧ x.2.fdLock ≠ -1 ∧ x.2.fdLock ≠ fdClient → Q .alreadyLocked (l, s))
    (hsome : ∀ x ∈ xs, x.2.pathName = path → s.fileSystem.find? path = some x.2 →
      ¬(isFlagSet flags oLock ∧ x.2.fdLock ≠ -1 ∧ x.2.fdLock ≠ fdClient) →
      ∀ t rest, l.clock = t :: rest →
        Q .success ({ l with clock := rest }, s.put x.1 (x.2.opened l.malloc fdClient flags t))) :
    Prog.wp safeExec (openFileExisting fdClient path flags) Q (l, s) := by
  simp only [openFileExisting, Prog.wp_bind, safe_mutexLock, safe_filesGetByKey,
    Store.files_setLocked]
  intro _
  rcases hs.lookup path with ⟨hget, hfind⟩ | ⟨x, hx, hpath, hget, hheap, hfind⟩
  · simpa [hget, hs.filesMtx] using hnone hfind
  · have hlocked := hlocked x hx hfind
    have hsome := hsome x hx hpath hfind
    simp only [hget, Prog.wp_bind]
    refine safe_fileWriterLock_of (f := x.2) (by rw [Store.heap_setLocked, hheap]) fun _ _ => ?_
    by_cases hl : isFlagSet flags oLock ∧ x.2.fdLock ≠ -1 ∧ x.2.fdLock ≠ fdClient
    · simpa [hl, hs.filesMtx, hheap] using hlocked hl
    · have hsome := hsome hl
      -- the client takes the lock or leaves it, and is among the openers already or is added
      by_cases hflag : isFlagSet flags oLock
      · have hl' : x.2.fdLock ≠ -1 → ¬x.2.fdLock = fdClient → False :=
          fun h₁ h₂ => hl ⟨hflag, h₁, h₂⟩
        simp only [hflag, if_true, Prog.wp_bind, Prog.wp_ite, safe_getFdLock, safe_set_fdLock,
          safe_getFdOpen, safe_addOpener, safe_set_lastUse, safe_clockGettime,
          Store.heap_put_self, Option.some.injEq, exists_eq_left']
        refine ⟨fun h => (hl' h.1 h.2).elim, fun _ => ⟨fun hc t rest hclock => ?_,
          fun hc t rest hclock => ?_⟩⟩
        · have hc : x.2.fdOpen.contains fdClient = false := by simpa using hc
          simpa [File.opened, hflag, hc, File.writeUnlocked, hs.filesMtx] using
            hsome t rest hclock
        · have hc : x.2.fdOpen.contains fdClient = true := by simpa using hc
          simpa [File.opened, hflag, hc, File.writeUnlocked, hs.filesMtx] using
            hsome t rest hclock
      · simp only [hflag, Bool.false_eq_true, if_false, Prog.wp_bind, Prog.wp_ite,
          safe_getFdOpen, safe_addOpener, safe_set_lastUse, safe_clockGettime,
          Store.heap_put_self, Option.some.injEq, exists_eq_left']
        refine ⟨fun hc t rest hclock => ?_, fun hc t rest hclock => ?_⟩
        · have hc : x.2.fdOpen.contains fdClient = false := by simpa using hc
          simpa [File.opened, hflag, hc, File.writeUnlocked, hs.filesMtx] using
            hsome t rest hclock
        · have hc : x.2.fdOpen.contains fdClient = true := by simpa using hc
          simpa [File.opened, hflag, hc, File.writeUnlocked, hs.filesMtx] using
            hsome t rest hclock

theorem safe_readFileStore (hs : s.Idle cfg xs) {Q : Except Sa FilePtr → World → Prop}
    (hnone : s.fileSystem.find? path = none → Q (.error .noFile) (l, s))
    (hnoOpen : ∀ x ∈ xs, s.fileSystem.find? path = some x.2 →
      x.2.fdOpen.contains fdClient = false → Q (.error .noOpen) (l, s))
    (hsome : ∀ x ∈ xs, x.2.pathName = path → s.fileSystem.find? path = some x.2 →
      x.2.fdOpen.contains fdClient = true → ∀ t rest, l.clock = t :: rest →
        Q (.ok x.1) ({ l with clock := rest }, s.put x.1 (x.2.used t).readLocked)) :
    Prog.wp safeExec (readFileStore fdClient path) Q (l, s) := by
  simp only [readFileStore, Prog.wp_bind, safe_mutexLock, safe_filesGetByKey,
    Store.files_setLocked]
  intro _
  rcases hs.lookup path with ⟨hget, hfind⟩ | ⟨x, hx, hpath, hget, hheap, hfind⟩
  · simpa [hget, hs.filesMtx] using hnone hfind
  · simp only [hget, Prog.wp_bind]
    refine safe_fileReaderLock_of (f := x.2) (by rw [Store.heap_setLocked, hheap]) fun _ => ?_
    by_cases hc : x.2.fdOpen.contains fdClient
    · simpa [hc, hs.filesMtx, File.used, File.readLocked] using hsome x hx hpath hfind hc
    · have hc : x.2.fdOpen.contains fdClient = false := by simpa using hc
      simpa [hc, hs.filesMtx, hheap] using hnoOpen x hx hfind hc

/-- The store after a file has been removed on the request of a client. -/
def Store.removed (s : Store) (x : FilePtr × File) : Store :=
  (((s.setFiles (hashmapRemove s.files x.2.pathName).2).setState (s.currState.remove x.2)).put x.1
    x.2.writeLocked).delete x.1

theorem safe_removeFileStore (hs : s.Idle cfg xs) {Q : Sa → World → Prop}
    (hnone : s.fileSystem.find? path = none → Q .success (l, s))
    (hnoOpen : ∀ x ∈ xs, s.fileSystem.find? path = some x.2 →
      x.2.fdOpen.contains fdClient = false → Q .noOpen (l, s))
    (hnotLocked : ∀ x ∈ xs, s.fileSystem.find? path = some x.2 →
      x.2.fdOpen.contains fdClient = true → x.2.fdLock ≠ fdClient → Q .notLocked (l, s))
    (hsome : ∀ x ∈ xs, x.2.pathName = path → s.fileSystem.find? path = some x.2 →
      x.2.fdOpen.contains fdClient = true → x.2.fdLock = fdClient →
      Q .success ({ l with log := l.log ++ [.currentFiles (s.currState.remove x.2).files,
        .currentSpace (s.currState.remove x.2).space] }, s.removed x)) :
    Prog.wp safeExec (removeFileStore fdClient path) Q (l, s) := by
  simp only [removeFileStore, Prog.wp_bind, safe_mutexLock, safe_filesGetByKey,
    Store.files_setLocked]
  intro _
  rcases hs.lookup path with ⟨hget, hfind⟩ | ⟨x, hx, hpath, hget, hheap, hfind⟩
  · simpa [hget, hs.filesMtx] using hnone hfind
  · simp only [hget, Prog.wp_bind]
    refine safe_fileWriterLock_of (f := x.2) (by rw [Store.heap_setLocked, hheap]) fun _ _ => ?_
    by_cases hc : x.2.fdOpen.contains fdClient
    · by_cases hl : x.2.fdLock = fdClient
      · have hrem := (hs.remove hx).1
        have hdone := hsome x hx hpath hfind hc hl
        have hwriters : 0 < x.2.writeLocked.nWriters := Nat.succ_pos _
        simp only [Store.removed, hpath] at hrem hdone
        simpa [hc, hl, hs.filesMtx, hs.currStateMtx, hget, hrem, hwriters, ServerState.remove]
          using hdone
      · simpa [hc, hl, hs.filesMtx, hheap] using hnotLocked x hx hfind hc hl
    · have hc : x.2.fdOpen.contains fdClient = false := by simpa using hc
      simpa [hc, hs.filesMtx, hheap] using hnoOpen x hx hfind hc

/-- A write to another file can be done before. -/
theorem Store.put_putAll {s : Store} {g : File → File} {ys : List (FilePtr × File)} {p : FilePtr}
    {f : File} (hp : p ∉ ys.map Prod.fst) : (s.putAll g ys).put p f = (s.put p f).putAll g ys := by
  induction ys generalizing s with
  | nil => rfl
  | cons y ys ih =>
    rw [List.map_cons, List.mem_cons, not_or] at hp
    rw [putAll_cons, putAll_cons, ih hp.2, put_comm _ _ _ _ (Ne.symm hp.1)]

/-- Files that are locked for reading and unlocked are as they were. -/
theorem Store.putAll_readUnlocked {s : Store} {ys : List (FilePtr × File)}
    (hheap : ∀ y ∈ ys, s.heap y.1 = some y.2) (hnodup : (ys.map Prod.fst).Nodup) :
    (s.putAll File.readLocked ys).putAll File.readUnlocked (ys.map fun y => (y.1, y.2.readLocked)) =
      s := by
  induction ys with
  | nil => rfl
  | cons y ys ih =>
    rw [List.map_cons, List.nodup_cons] at hnodup
    have hsame : y.2.readLocked.readUnlocked = y.2 := rfl
    rw [List.map_cons, putAll_cons, putAll_cons, put_putAll hnodup.1, put_put, hsame,
      put_self (hheap y List.mem_cons_self)]
    exact ih (fun z hz => hheap z (List.mem_cons_of_mem _ hz)) hnodup.2

theorem safe_readerUnlockAll {Q : Unit → World → Prop} (hheap : ∀ y ∈ ys, s.heap y.1 = some y.2)
    (hread : ∀ z ∈ ys, 0 < z.2.nReaders) (hnodup : (ys.map Prod.fst).Nodup)
    (hQ : Q () (l, s.putAll File.readUnlocked ys)) :
    Prog.wp safeExec (readerUnlockAll (ys.map Prod.fst)) Q (l, s) := by
  induction ys generalizing s with
  | nil => exact hQ
  | cons z ys ih =>
    rw [List.map_cons, List.nodup_cons] at hnodup
    rw [List.map_cons, readerUnlockAll, Prog.wp_bind]
    refine safe_fileReaderUnlock_of (hheap z List.mem_cons_self) (hread z List.mem_cons_self) ?_
    refine ih (fun y hy => ?_) (fun y hy => hread y (List.mem_cons_of_mem _ hy)) hnodup.2 hQ
    have hne : y.1 ≠ z.1 := fun he => hnodup.1 (he ▸ List.mem_map_of_mem hy)
    rw [Store.heap_put_of_ne _ _ _ hne]
    exact hheap y (List.mem_cons_of_mem _ hy)

/-- Files that have just been locked for reading are unlocked. -/
theorem safe_readerUnlockAll_locked {Q : Unit → World → Prop}
    (hheap : ∀ y ∈ ys, s.heap y.1 = some y.2) (hnodup : (ys.map Prod.fst).Nodup)
    (hQ : Q () (l, s)) :
    Prog.wp safeExec (readerUnlockAll (ys.map Prod.fst)) Q (l, s.putAll File.readLocked ys) := by
  have hfst : (ys.map fun y => (y.1, y.2.readLocked)).map Prod.fst = ys.map Prod.fst := by
    rw [List.map_map]
    rfl
  rw [← hfst]
  refine safe_readerUnlockAll (fun z hz => ?_) (fun z hz => ?_) (hfst ▸ hnodup) ?_
  · obtain ⟨y, hy, rfl⟩ := List.mem_map.1 hz
    exact Store.heap_putAll_of_mem hnodup hy
  · obtain ⟨y, -, rfl⟩ := List.mem_map.1 hz
    exact Nat.succ_pos _
  · rwa [Store.putAll_readUnlocked hheap hnodup]

/-- The loop of `read_n_files` locks the first `N` files for reading, if there is memory for the
list of them. It ends with `-1` only where it has not run, or where there is none. -/
theorem safe_readNLoop {ys : List (FilePtr × File)} {N err : ℤ} {acc : List FilePtr}
    (hheap : ∀ y ∈ ys, s.heap y.1 = some y.2) (hnodup : (ys.map Prod.fst).Nodup)
    (herr : err = -1 → acc = []) {Q : List FilePtr × ℤ → World → Prop}
    (hrefused : ∀ zs a, zs.Sublist ys → l.malloc a = false →
      Q (acc ++ zs.map Prod.fst, -1) (l, s.putAll File.readLocked zs))
    (hQ : ∀ e, (e = -1 → acc ++ (ys.take N.toNat).map Prod.fst = []) →
      Q (acc ++ (ys.take N.toNat).map Prod.fst, e)
        (l, s.putAll File.readLocked (ys.take N.toNat))) :
    Prog.wp safeExec (readNLoop (ys.map Prod.fst) N err acc) Q (l, s) := by
  induction ys generalizing s N err acc with
  | nil =>
    have := hQ (if N > 0 then 1 else err) fun he => by
      split_ifs at he
      simpa using herr he
    simpa [readNLoop] using this
  | cons y ys ih =>
    simp only [List.map_cons, readNLoop]
    by_cases hN : N > 0
    · obtain ⟨n, rfl⟩ : ∃ n : ℕ, N = n + 1 := ⟨(N - 1).toNat, by omega⟩
      rw [if_pos hN, Prog.wp_bind]
      have hy := hheap y List.mem_cons_self
      refine safe_fileReaderLock_of hy fun _ => ?_
      rw [List.map_cons, List.nodup_cons] at hnodup
      simp only [Prog.wp_bind, Prog.wp_ite, safe_malloc]
      refine ⟨fun hnode => ?_, fun _ => ?_⟩
      · have := hrefused [] (.listNode acc.length) (List.nil_sublist _) (by simpa using hnode)
        refine safe_fileReaderUnlock_of (Store.heap_put_self ..) (Nat.succ_pos _) ?_
        rw [List.map_nil, List.append_nil, Store.putAll_nil] at this
        simpa [Store.put_self hy] using this
      refine ih (fun z hz => ?_) hnodup.2 (fun h => by cases h) (fun zs a hzs ha => ?_)
        fun e he => ?_
      · have hne : z.1 ≠ y.1 := fun h => hnodup.1 (List.mem_map.2 ⟨z, hz, h⟩)
        rw [Store.heap_put_of_ne _ _ _ hne]
        exact hheap z (List.mem_cons_of_mem _ hz)
      · have := hrefused (y :: zs) a (hzs.cons_cons y) ha
        rwa [List.map_cons, Store.putAll_cons, ← List.singleton_append, ← List.append_assoc]
          at this
      · have hn : ((n : ℤ) + 1).toNat = n + 1 := by omega
        have hn' : ((n : ℤ) + 1 - 1).toNat = n := by omega
        rw [hn'] at he ⊢
        have := hQ e fun h => absurd (he h) (by simp)
        rw [hn, List.take_succ_cons, List.map_cons, Store.putAll_cons] at this
        rwa [List.append_assoc]
    · rw [if_neg hN, Prog.wp_pure]
      have hN : N.toNat = 0 := by omega
      have := hQ err fun h => by simpa [hN] using herr h
      simpa [hN] using this

theorem safe_readNFilesStore (hs : s.Idle cfg xs) {N : ℤ}
    {Q : Except Sa (List FilePtr) → World → Prop}
    (hunset : xs.take (s.fileSystem.countRead N) = [] → Q (.error .error) (l, s))
    (hmemory : ∀ a, l.malloc a = false → Q (.error .error) (l, s))
    (hsome : Q (.ok ((xs.take (s.fileSystem.countRead N)).map Prod.fst))
      (l, s.putAll File.readLocked (xs.take (s.fileSystem.countRead N)))) :
    Prog.wp safeExec (readNFilesStore N) Q (l, s) := by
  have hcount : (if N ≤ 0 then toInt s.currState.files else N).toNat =
    s.fileSystem.countRead N := rfl
  simp only [readNFilesStore, Prog.wp_bind, safe_mutexLock, safe_getState, safe_mutexUnlock,
    safe_uninit, safe_filesIter, Store.files_setLocked, Store.currState_setLocked, hs.iter]
  intro _ _
  have hheap : ∀ y ∈ xs, (((s.setLocked true .files).setLocked true .currState).setLocked false
      .currState).heap y.1 = some y.2 := fun y hy => by
    rw [Store.heap_setLocked, Store.heap_setLocked, Store.heap_setLocked]
    exact hs.heap y hy
  refine safe_readNLoop hheap hs.ptrs (fun _ => rfl) (fun zs a hzs ha => ?_) fun e he => ?_
  · rw [List.nil_append, if_pos rfl, Prog.wp_bind]
    refine safe_readerUnlockAll_locked (fun z hz => hheap z (hzs.subset hz))
      (hs.ptrs.sublist (hzs.map _)) ?_
    simpa [hs.filesMtx, hs.currStateMtx] using hmemory a ha
  · rw [hcount] at he ⊢
    by_cases h1 : e = -1
    · have hnil : xs.take (s.fileSystem.countRead N) = [] := by simpa using he h1
      have := hunset hnil
      simpa [hnil, h1, readerUnlockAll, hs.filesMtx, hs.currStateMtx] using this
    · simpa [h1, hs.filesMtx, hs.currStateMtx] using hsome

theorem safe_closeClientLoop {ys : List (FilePtr × File)}
    (hheap : ∀ y ∈ ys, s.heap y.1 = some y.2) (hnodup : (ys.map Prod.fst).Nodup)
    (hwf : ∀ y ∈ ys, y.2.WF) {Q : Unit → World → Prop}
    (hQ : Q () (l, s.putAll (File.closed fdClient) ys)) :
    Prog.wp safeExec (closeClientLoop fdClient (ys.map Prod.fst)) Q (l, s) := by
  induction ys generalizing s with
  | nil => simpa [closeClientLoop] using hQ
  | cons y ys ih =>
    obtain ⟨r, fdOpen, hrem, -, -⟩ :=
      (hwf y List.mem_cons_self).fdOpen.remove_eq fdClient
    have hclosed : y.2.closed fdClient = { y.2 with
        fdLock := if y.2.fdLock = fdClient then -1 else y.2.fdLock, fdOpen := fdOpen } := by
      rw [File.closed, hrem]
      rfl
    rw [List.map_cons, List.nodup_cons] at hnodup
    have hrest : ∀ z ∈ ys, (s.put y.1 (y.2.closed fdClient)).heap z.1 = some z.2 := fun z hz => by
      have hne : z.1 ≠ y.1 := fun h => hnodup.1 (List.mem_map.2 ⟨z, hz, h⟩)
      rw [Store.heap_put_of_ne _ _ _ hne]
      exact hheap z (List.mem_cons_of_mem _ hz)
    have ih := ih hrest hnodup.2 (fun z hz => hwf z (List.mem_cons_of_mem _ hz)) hQ
    rw [hclosed] at ih
    simp only [List.map_cons, closeClientLoop, Prog.wp_bind]
    refine safe_fileWriterLock_of (hheap y List.mem_cons_self) fun _ _ => ?_
    simp only [Prog.wp_bind, Prog.wp_ite, safe_getFdLock, safe_set_fdLock, Store.heap_put_self,
      Option.some.injEq, exists_eq_left']
    refine ⟨fun hl => ?_, fun hl => ?_⟩
    · refine safe_removeOpener (f := { y.2.writeLocked with fdLock := -1 })
        (by simp) rfl hrem ?_
      rw [File.writeLocked_fdLock] at hl
      simpa [hl, File.writeUnlocked] using ih
    · refine safe_removeOpener (f := y.2.writeLocked) (by simp) rfl hrem ?_
      rw [File.writeLocked_fdLock] at hl
      simpa [hl, File.writeUnlocked] using ih

theorem safe_closeClient (hs : s.Idle cfg xs) {Q : Unit → World → Prop}
    (hQ : Q () (l, s.putAll (File.closed fdClient) xs)) :
    Prog.wp safeExec (closeClient fdClient) Q (l, s) := by
  simp only [closeClient, Prog.wp_bind, safe_safeMalloc, safe_mutexLock, safe_filesIter,
    Store.files_setLocked, hs.iter]
  intro _ _
  refine safe_closeClientLoop (fun y hy => ?_) hs.ptrs hs.wf ?_
  · rw [Store.heap_setLocked]
    exact hs.heap y hy
  · simpa [hs.filesMtx] using hQ

/-- What `size_to_remove` is : the excess if there is one, and otherwise not positive, or,
below a limit of more than `2 ^ 63` bytes, more than the whole space. -/
theorem sizeToRemove_cases {space maxSpace : ℕ} (h : space < 2 ^ 63) (h' : maxSpace < 2 ^ 64) :
    (0 < toLong (space - maxSpace) ∧ toSize (toLong (space - maxSpace)) = space - maxSpace ∧
        maxSpace < space) ∨
      (¬0 < toLong (space - maxSpace) ∧ space ≤ maxSpace) ∨
      (0 < toLong (space - maxSpace) ∧ space < toSize (toLong (space - maxSpace)) ∧
        space ≤ maxSpace) := by
  unfold toLong toSize
  omega

theorem sum_filter_ne (hnodup : (xs.map Prod.fst).Nodup) {x : FilePtr × File} (hx : x ∈ xs)
    (w : FilePtr × File → ℕ) :
    w x + ((xs.filter fun y => y.1 ≠ x.1).map w).sum = (xs.map w).sum := by
  obtain ⟨l₁, l₂, rfl⟩ := List.append_of_mem hx
  rw [filter_ne_of_split rfl hnodup]
  simp only [List.map_append, List.map_cons, List.sum_append, List.sum_cons]
  omega

/-- The files other than one that cannot be expelled are those that can. -/
theorem filter_expellable {p : FilePtr} {f : File} (hexp : ∀ x ∈ xs, expellable x = true)
    (hf : f.canBeExpelled = false) :
    (xs.map fun y => (y.1, if y.1 = p then f else y.2)).filter expellable =
      xs.filter fun y => y.1 ≠ p := by
  induction xs with
  | nil => rfl
  | cons x xs ih =>
    have ih := ih fun y hy => hexp y (List.mem_cons_of_mem _ hy)
    have hx := hexp x List.mem_cons_self
    rw [List.map_cons]
    by_cases hp : x.1 = p
    · rw [if_pos hp, List.filter_cons_of_neg (by simp [expellable, hf]), ih,
        List.filter_cons_of_neg (by simpa using hp)]
    · rw [if_neg hp, List.filter_cons_of_pos hx, ih, List.filter_cons_of_pos (by simpa using hp)]

/-- The file that grows is not to be expelled. -/
def Store.excepted (s : Store) (x : FilePtr × File) : Store :=
  s.put x.1 { x.2 with canBeExpelled := false }

/-- The files with one that is not to be expelled. -/
def exceptFor (x : FilePtr × File) (xs : List (FilePtr × File)) : List (FilePtr × File) :=
  xs.map fun y => (y.1, if y.1 = x.1 then { x.2 with canBeExpelled := false } else y.2)

/-- The counters take the `size` new bytes. If there are too many, the other files hold the
excess. The difference with a limit of more than `2 ^ 63` bytes can be taken for an excess,
but is more than the whole space. -/
theorem safe_makeRoomStart {x : FilePtr × File} {size : ℕ} (h : s.Holds xs) (hx : x ∈ xs)
    (hexp : ∀ y ∈ xs, expellable y = true)
    (hspace : s.currState.space + size = (xs.map sizeAt).sum) (hle : x.2.size ≤ cfg.maxSpace)
    (hlt : s.currState.space + size < 2 ^ 63) {Q : ℤ → World → Prop}
    (hroom : ∀ n, ¬n > 0 → s.currState.space + size ≤ cfg.maxSpace →
      Q n (l, s.setState (s.currState.addSpace size)))
    (hexcess : ∀ n s', n > 0 → s' = (s.setState (s.currState.addSpace size)).excepted x →
      s'.Holds (exceptFor x xs) →
      (s'.currState.space < toSize n ∧ s.currState.space + size ≤ cfg.maxSpace ∨
        toSize n ≤ s'.currState.space ∧ toSize n = s.currState.space + size - cfg.maxSpace ∧
          s'.CanFree (exceptFor x xs) (toSize n) 0) → Q n (l, s')) :
    Prog.wp safeExec (makeRoomStart cfg x.1 size) Q (l, s) := by
  have hsize : toSize (s.currState.space + size) = s.currState.space + size :=
    toSize_of_range (n := s.currState.space + size) (by omega)
  have hsum := sum_filter_ne h.ptrs hx sizeAt
  have hself : sizeAt x = x.2.size := rfl
  have hcases := sizeToRemove_cases hlt cfg.maxSpace_lt
  simp only [makeRoomStart, Prog.wp_bind, safe_getState, safe_setState, hsize,
    Store.currState_setState]
  refine (Prog.wp_ite _ _ _).2 ⟨fun hpos => ?_, fun hpos => ?_⟩
  · simp only [Prog.wp_bind, Prog.wp_pure, safe_set_canBeExpelled, Store.heap_setState, h.heap x hx,
      Option.some.injEq, exists_eq_left']
    have hholds : ((s.setState (s.currState.addSpace size)).excepted x).Holds (exceptFor x xs) :=
      (h.setState (s.currState.addSpace size)).put hx
        (f := { x.2 with canBeExpelled := false }) rfl ⟨(h.wf x hx).fdOpen, (h.wf x hx).size⟩
    have hfilter : (exceptFor x xs).filter expellable = xs.filter fun y => y.1 ≠ x.1 :=
      filter_expellable hexp rfl
    refine hexcess _ ((s.setState (s.currState.addSpace size)).excepted x) hpos rfl hholds ?_
    have hstate : ((s.setState (s.currState.addSpace size)).excepted x).currState.space =
      s.currState.space + size := rfl
    rcases hcases with ⟨-, hneed, hgt⟩ | ⟨hnot, -⟩ | ⟨-, hgt, hmax⟩
    · refine Or.inr ⟨by omega, by omega, hholds, ?_, ?_⟩ <;> rw [hfilter] <;> omega
    · exact absurd hpos hnot
    · exact Or.inl ⟨by omega, by omega⟩
  · exact hroom _ hpos (by omega)

/-- The end of a write : the counters take the `size` new bytes, and the shortest prefix of
the other files in the order of the policy that makes room for them is expelled. -/
theorem safe_makeRoom {x : FilePtr × File} {size : ℕ} (h : s.Holds xs) (hx : x ∈ xs)
    (hexp : ∀ y ∈ xs, expellable y = true)
    (hspace : s.currState.space + size = (xs.map sizeAt).sum) (hle : x.2.size ≤ cfg.maxSpace)
    (hlt : s.currState.space + size < 2 ^ 63) {Q : List FilePtr → World → Prop}
    (hQ : ∀ ys, ys = takeWeight sizeAt (s.currState.space + size - cfg.maxSpace)
        (sorted cfg.policy.keyAt (xs.filter fun y => y.1 ≠ x.1)) →
      Q (ys.map Prod.fst) (l, ((s.setState (s.currState.addSpace size)).expellAll ys).setState
        ((ys.map Prod.snd).foldl ServerState.expell (s.currState.addSpace size)).noteSpace)) :
    Prog.wp safeExec (makeRoom cfg x.1 size) Q (l, s) := by
  have hnil : s.currState.space + size ≤ cfg.maxSpace →
      Q [] (l, (s.setState (s.currState.addSpace size)).setState
        (s.currState.addSpace size).noteSpace) := fun hle =>
    hQ [] (by rw [Nat.sub_eq_zero_of_le hle, takeWeight_zero])
  rw [makeRoom, Prog.wp_bind]
  refine safe_makeRoomStart h hx hexp hspace hle hlt (fun n hn hle' => ?_)
    fun n s' hn hs' hholds hcases => ?_
  · rw [if_neg hn]
    simp only [makeRoomEnd, Prog.wp_bind, Prog.wp_pure, safe_getState, safe_setState,
      Store.currState_setState]
    exact hnil hle'
  have hheap : s.heap x.1 = some x.2 := h.heap x hx
  have hback : { x.2 with canBeExpelled := true } = x.2 := by
    rw [← show x.2.canBeExpelled = true from hexp x hx]
  have hfilter : (exceptFor x xs).filter expellable = xs.filter fun y => y.1 ≠ x.1 :=
    filter_expellable hexp rfl
  -- what is left of the exception after files have been expelled
  have hdone : ∀ ys, x.1 ∉ ys.map Prod.fst → Q (ys.map Prod.fst)
      (l, ((s.setState (s.currState.addSpace size)).expellAll ys).setState
        ((ys.map Prod.snd).foldl ServerState.expell (s.currState.addSpace size)).noteSpace) →
      Prog.wp safeExec (set x.1 .canBeExpelled true >>= fun _ => makeRoomEnd (ys.map Prod.fst)) Q
        (l, s'.expellAll ys) := fun ys hx' hq => by
    have hself : ((s.setState (s.currState.addSpace size)).expellAll ys).put x.1 x.2 =
        (s.setState (s.currState.addSpace size)).expellAll ys :=
      Store.put_self ((Store.heap_expellAll_of_not_mem hx').trans hheap)
    have hstate : ((s.setState (s.currState.addSpace size)).expellAll ys).currState =
        (ys.map Prod.snd).foldl ServerState.expell (s.currState.addSpace size) :=
      Store.currState_expellAll ys
    rw [← hstate, ← hself] at hq
    rw [hs', Store.excepted, Store.expellAll_put hx']
    simp only [makeRoomEnd, Prog.wp_bind, Prog.wp_pure, safe_getState, safe_setState,
      safe_set_canBeExpelled, Store.heap_put_self, Option.some.injEq, exists_eq_left',
      Store.put_put, hback, Store.currState_put]
    exact hq
  rw [if_pos hn, Prog.wp_bind]
  rcases hcases with ⟨hlt', hle'⟩ | ⟨hle', hneed, hfree⟩
  · refine safe_expellMultipleFiles hholds (fun hle => absurd hlt' (Nat.not_lt.2 hle)) ?_ ?_ ?_
    · rw [hfilter]
      have := sum_filter_ne h.ptrs hx sizeAt
      omega
    · exact fun _ => hdone [] (List.not_mem_nil) (hnil hle')
    · exact fun ys _ hle => absurd hlt' (Nat.not_lt.2 hle)
  · refine safe_expellMultipleFiles hholds (fun _ => ?_) ?_ ?_ fun ys hys _ => ?_
    · simpa using hfree.enough
    · simpa using hfree.lt
    · exact fun hlt' => absurd hle' (Nat.not_le.2 hlt')
    · rw [hfilter, hneed] at hys
      refine hdone ys (fun hm => ?_) (hQ ys hys)
      obtain ⟨y, hy, he⟩ := List.mem_map.1 hm
      have hmem := mem_sorted.1 ((hys ▸ takeWeight_isPrefix _ _).subset hy)
      simp [he] at hmem

theorem filter_ne_map {p : FilePtr} {f : File} :
    (xs.map fun y => (y.1, if y.1 = p then f else y.2)).filter (fun y => y.1 ≠ p) =
      xs.filter fun y => y.1 ≠ p := by
  induction xs with
  | nil => rfl
  | cons x xs ih =>
    rw [List.map_cons]
    by_cases hp : x.1 = p
    · rw [List.filter_cons_of_neg (by simpa using hp), ih,
        List.filter_cons_of_neg (by simpa using hp)]
    · rw [if_neg hp, List.filter_cons_of_pos (by simpa using hp), ih,
        List.filter_cons_of_pos (by simpa using hp)]

/-- The store after a file has grown by `size` bytes to `f` and the files `ys` have been
expelled to make room for them. -/
def Store.grown (s : Store) (p : FilePtr) (f : File) (size : ℕ) (ys : List (FilePtr × File)) :
    Store :=
  (((s.setState (s.currState.addSpace size)).expellAll ys).setState
    ((ys.map Prod.snd).foldl ServerState.expell (s.currState.addSpace size)).noteSpace).put p f

/-- The files that a write of `size` bytes to the file at `p` expels. -/
def toExpell (cfg : ServerConfig) (s : Store) (xs : List (FilePtr × File)) (p : FilePtr)
    (size : ℕ) : List (FilePtr × File) :=
  takeWeight sizeAt (s.currState.space + size - cfg.maxSpace)
    (sorted cfg.policy.keyAt (xs.filter fun y => y.1 ≠ p))

theorem mem_toExpell {p : FilePtr} {size : ℕ} {y : FilePtr × File}
    (hy : y ∈ toExpell cfg s xs p size) : y ∈ xs ∧ y.1 ≠ p := by
  have := mem_sorted.1 ((takeWeight_isPrefix _ _).subset hy)
  simpa using this

theorem not_mem_toExpell {p : FilePtr} {size : ℕ} :
    p ∉ (toExpell cfg s xs p size).map Prod.fst := by
  intro hm
  obtain ⟨y, hy, he⟩ := List.mem_map.1 hm
  exact (mem_toExpell hy).2 he

/-- The stored file `x` has been changed to `f`, which is larger by `size`. -/
structure Grows (cfg : ServerConfig) (xs : List (FilePtr × File)) (x : FilePtr × File) (f : File)
    (size : ℕ) : Prop where
  mem : x ∈ xs
  name : f.pathName = x.2.pathName
  wf : f.WF
  expellable : f.canBeExpelled = true
  size : f.size = x.2.size + size
  size_le : f.size ≤ cfg.maxSpace

/-- The store in which room is made for a file that has grown to `f`. -/
def Store.growing (s : Store) (p : FilePtr) (f : File) : Store :=
  ((s.setLocked true .files).setLocked true .currState).put p f

/-- The files after one has changed. -/
def changed (x : FilePtr × File) (f : File) (xs : List (FilePtr × File)) : List (FilePtr × File) :=
  xs.map fun y => (y.1, if y.1 = x.1 then f else y.2)

/-- The counted space is that of the files once it has taken the bytes that a file has grown
by. -/
theorem holds_growing {x : FilePtr × File} {f : File} {size : ℕ} (hs : s.Idle cfg xs)
    (hf : Grows cfg xs x f size) : (s.growing x.1 f).Holds (changed x f xs) ∧
      (x.1, f) ∈ changed x f xs ∧ (∀ y ∈ changed x f xs, expellable y = true) ∧
      (s.growing x.1 f).currState.space + size = ((changed x f xs).map sizeAt).sum := by
  have hholds : (s.growing x.1 f).Holds (changed x f xs) :=
    ((hs.toHolds.setLocked true .files).setLocked true .currState).put hf.mem hf.name hf.wf
  have hmem : (x.1, f) ∈ changed x f xs := List.mem_map.2 ⟨x, hf.mem, by simp⟩
  refine ⟨hholds, hmem, fun y hy => ?_, ?_⟩
  · obtain ⟨z, hz, rfl⟩ := List.mem_map.1 hy
    dsimp only [expellable]
    split_ifs
    · exact hf.expellable
    · exact hs.expellable hz
  · have hsum := sum_filter_ne hholds.ptrs hmem sizeAt
    have hsum' := sum_filter_ne hs.ptrs hf.mem sizeAt
    have hspace := hs.space
    have hsizes : sizeAt (x.1, f) = f.size ∧ sizeAt x = x.2.size := ⟨rfl, rfl⟩
    have hsize := hf.size
    simp only [changed, filter_ne_map] at hsum
    simp only [Store.growing, Store.currState_put, Store.currState_setLocked, changed]
    omega

theorem safe_makeRoom_grown {x : FilePtr × File} {f : File} {size : ℕ} (hs : s.Idle cfg xs)
    (hf : Grows cfg xs x f size) (hlt : s.currState.space + size < 2 ^ 63)
    {Q : List FilePtr → World → Prop}
    (hQ : Q ((toExpell cfg s xs x.1 size).map Prod.fst)
      (l, ((s.grown x.1 f size (toExpell cfg s xs x.1 size)).setLocked true .files).setLocked true
        .currState)) :
    Prog.wp safeExec (makeRoom cfg x.1 size) Q (l, s.growing x.1 f) := by
  obtain ⟨hholds, hmem, hexp, hspace⟩ := holds_growing hs hf
  have hstate : (s.growing x.1 f).currState = s.currState := by
    simp only [Store.growing, Store.currState_put, Store.currState_setLocked]
  refine safe_makeRoom (x := (x.1, f)) hholds hmem hexp hspace hf.size_le (by rwa [hstate])
    fun ys hys => ?_
  rw [hstate, changed, filter_ne_map] at hys
  obtain rfl : ys = toExpell cfg s xs x.1 size := hys
  have hx' : x.1 ∉ (toExpell cfg s xs x.1 size).map Prod.fst := not_mem_toExpell
  simpa [Store.growing, Store.grown, Store.expellAll_put hx'] using hQ

/-- A `write_file` is refused, or has grown the file at its path. -/
theorem safe_writeFileStart (hs : s.Idle cfg xs) {size : ℤ} {buf : List UInt8}
    {Q : Except Sa (FilePtr × ℕ) → World → Prop}
    (hrefused : ∀ code, s.fileSystem.refusal cfg fdClient (.writeFile path size buf) = some code →
      Q (.error code) (l, s))
    (hmemory : s.fileSystem.refusal cfg fdClient (.writeFile path size buf) = none →
      l.malloc .list = false → Q (.error .error) (l, s))
    (hsome : ∀ x ∈ xs, x.2.pathName = path → s.fileSystem.find? path = some x.2 →
      s.fileSystem.refusal cfg fdClient (.writeFile path size buf) = none →
      x.2.size = 0 → toSize size ≤ cfg.maxSpace → ∀ t rest, l.clock = t :: rest →
        Q (.ok (x.1, toSize size)) ({ l with clock := rest },
          s.growing x.1 (x.2.written (toSize size) buf t).writeLocked)) :
    Prog.wp safeExec (writeFileStart cfg fdClient path size buf) Q (l, s) := by
  simp only [writeFileStart, Prog.wp_bind, safe_mutexLock, safe_filesGetByKey,
    Store.files_setLocked]
  intro _
  rcases hs.lookup path with ⟨hget, hfind⟩ | ⟨x, hx, hpath, hget, hheap, hfind⟩
  · simpa [hget, hs.filesMtx] using hrefused .noFile (by simp [FileSystem.refusal, hfind])
  · simp only [hget, Prog.wp_bind]
    refine safe_fileWriterLock_of (f := x.2) (by rw [Store.heap_setLocked, hheap]) fun _ _ => ?_
    by_cases hc : x.2.fdOpen.contains fdClient = true
    swap
    · have hc : x.2.fdOpen.contains fdClient = false := by simpa using hc
      simpa [hc, hs.filesMtx, hheap] using
        hrefused .noOpen (by simp [FileSystem.refusal, hfind, hc])
    by_cases hl : x.2.fdLock = fdClient
    swap
    · simpa [hc, hl, hs.filesMtx, hheap] using
        hrefused .notLocked (by simp [FileSystem.refusal, hfind, hc, hl])
    by_cases he : x.2.size = 0
    swap
    · simpa [hc, hl, he, hs.filesMtx, hheap] using
        hrefused .notEmpty (by simp [FileSystem.refusal, hfind, hc, hl, he])
    by_cases hb : cfg.maxSpace < toSize size
    · simpa [hc, hl, he, hb, hs.filesMtx, hheap] using
        hrefused .tooBig (by simp [FileSystem.refusal, hfind, hc, hl, he, hb])
    have hpass : s.fileSystem.refusal cfg fdClient (.writeFile path size buf) = none := by
      simp [FileSystem.refusal, hfind, hc, hl, he, hb]
    by_cases hlist : l.malloc .list = true
    swap
    · have hlist : l.malloc .list = false := by simpa using hlist
      simpa [hc, hl, he, hb, hlist, hs.filesMtx, hheap] using hmemory hpass hlist
    have hdone := hsome x hx hpath hfind hpass he (Nat.le_of_not_lt hb)
    simpa [hc, hl, he, hb, hlist, Store.growing, File.written, File.writeLocked] using
      fun t rest hclock (_ : s.locked .currState = false) => hdone t rest hclock

/-- The locks of a write are released, and the counters are printed. -/
theorem safe_writeFileEnd {p : FilePtr} {f : File} {toExpell : List FilePtr}
    (hheap : s.heap p = some f) (hfiles : s.locked .files = false)
    (hstate : s.locked .currState = false) {Q : Except Sa (List FilePtr) → World → Prop}
    (hQ : Q (.ok toExpell) ({ l with
      log := l.log ++ [.currentFiles s.currState.files, .currentSpace s.currState.space] }, s)) :
    Prog.wp safeExec (writeFileEnd p toExpell) Q
      (l, ((s.put p f.writeLocked).setLocked true .files).setLocked true .currState) := by
  have hself := Store.put_self hheap
  simpa [writeFileEnd, hfiles, hstate, hself] using hQ

theorem safe_appendToFileEnd {p : FilePtr} {f : File} {toExpell : List FilePtr}
    (hheap : s.heap p = some f) (hfiles : s.locked .files = false)
    (hstate : s.locked .currState = false) {Q : Except Sa (List FilePtr) → World → Prop}
    (hQ : Q (.ok toExpell) ({ l with log := l.log ++ [.currentFiles (toUInt s.currState.space),
      .currentSpace (toUInt s.currState.files)] }, s)) :
    Prog.wp safeExec (appendToFileEnd p toExpell) Q
      (l, ((s.put p f.writeLocked).setLocked true .files).setLocked true .currState) := by
  have hself := Store.put_self hheap
  simpa [appendToFileEnd, hfiles, hstate, hself] using hQ

/-- An `append_to_file` is refused, or has grown the file at its path. -/
theorem safe_appendToFileStart (hs : s.Idle cfg xs) {size : ℕ} {buf : List UInt8}
    (hpos : size ≠ 0) (hbuf : buf.length = size) (hmem : s.currState.space + size < 2 ^ 63)
    {Q : Except Sa (FilePtr × ℕ) → World → Prop}
    (hrefused : ∀ code, s.fileSystem.refusal cfg fdClient (.appendToFile path size buf) =
      some code →
      Q (.error code) (l, s))
    (hsome : ∀ x ∈ xs, x.2.pathName = path → s.fileSystem.find? path = some x.2 →
      s.fileSystem.refusal cfg fdClient (.appendToFile path size buf) = none →
      x.2.size + size ≤ cfg.maxSpace → ∀ t rest, l.clock = t :: rest →
        Q (.ok (x.1, size)) ({ l with clock := rest },
          s.growing x.1 (x.2.appended buf t).writeLocked)) :
    Prog.wp safeExec (appendToFileStart cfg fdClient path size buf) Q (l, s) := by
  subst hbuf
  simp only [appendToFileStart, Prog.wp_bind, safe_mutexLock, safe_filesGetByKey,
    Store.files_setLocked]
  intro _
  rcases hs.lookup path with ⟨hget, hfind⟩ | ⟨x, hx, hpath, hget, hheap, hfind⟩
  · simpa [hget, hs.filesMtx] using hrefused .noFile (by simp [FileSystem.refusal, hfind, hpos])
  · simp only [hget, Prog.wp_bind]
    refine safe_fileWriterLock_of (f := x.2) (by rw [Store.heap_setLocked, hheap]) fun _ _ => ?_
    by_cases hc : x.2.fdOpen.contains fdClient = true
    swap
    · have hc : x.2.fdOpen.contains fdClient = false := by simpa using hc
      simpa [hc, hs.filesMtx, hheap] using
        hrefused .noOpen (by simp [FileSystem.refusal, hfind, hc, hpos])
    have hsize : toSize (x.2.size + buf.length) = x.2.size + buf.length := by
      have := sum_filter_ne hs.ptrs hx sizeAt
      have : sizeAt x = x.2.size := rfl
      have := hs.space
      exact toSize_of_range (n := x.2.size + buf.length) (by omega)
    by_cases hb : cfg.maxSpace < x.2.size + buf.length
    · simpa [hc, hsize, hb, hs.filesMtx, hheap] using
        hrefused .tooBig (by simp [FileSystem.refusal, hfind, hc, hb, hpos])
    have hpass : s.fileSystem.refusal cfg fdClient (.appendToFile path buf.length buf) = none := by
      simp [FileSystem.refusal, hfind, hc, hb]
    have hle := Nat.le_of_not_lt hb
    have hdone := hsome x hx hpath hfind hpass hle
    simpa [hc, hsize, hle, Store.growing, File.appended, File.writeLocked] using
      fun (_ : l.malloc (.safe (x.2.size + buf.length)) = true) t rest hclock
        (_ : s.locked .currState = false) => hdone t rest hclock

theorem Store.grown_put {p : FilePtr} {f g : File} {size : ℕ} {ys : List (FilePtr × File)} :
    (s.grown p f size ys).put p g = s.grown p g size ys :=
  put_put ..

theorem Store.locked_grown {p : FilePtr} {f : File} {size : ℕ} {ys : List (FilePtr × File)}
    (m : Mutex) : (s.grown p f size ys).locked m = s.locked m := by
  simp only [grown, locked_put, locked_setState, locked_expellAll]

theorem Store.heap_grown {p : FilePtr} {f : File} {size : ℕ} {ys : List (FilePtr × File)} :
    (s.grown p f size ys).heap p = some f :=
  heap_put_self ..

theorem Grows.written (hs : s.Idle cfg xs) {x : FilePtr × File} (hx : x ∈ xs) {size : ℤ}
    {buf : List UInt8} (hbuf : buf.length = toSize size) (he : x.2.size = 0)
    (hle : toSize size ≤ cfg.maxSpace) (t : Timespec) :
    Grows cfg xs x (x.2.written (toSize size) buf t).writeLocked (toSize size) where
  mem := hx
  name := rfl
  wf := ⟨(hs.wf x hx).fdOpen, hbuf⟩
  expellable := hs.expellable hx
  size := by
    rw [he, Nat.zero_add]
    rfl
  size_le := hle

theorem Grows.appended (hs : s.Idle cfg xs) {x : FilePtr × File} (hx : x ∈ xs)
    {buf : List UInt8} (hle : x.2.size + buf.length ≤ cfg.maxSpace) (t : Timespec) :
    Grows cfg xs x (x.2.appended buf t).writeLocked buf.length where
  mem := hx
  name := rfl
  wf := ⟨(hs.wf x hx).fdOpen, by simp [File.appended, (hs.wf x hx).size]⟩
  expellable := hs.expellable hx
  size := rfl
  size_le := hle

theorem safe_writeFileStore (hs : s.Idle cfg xs) {size : ℤ} {buf : List UInt8}
    (hbuf : buf.length = toSize size) (hmem : s.currState.space + toSize size < 2 ^ 63)
    {Q : Except Sa (List FilePtr) → World → Prop}
    (hrefused : ∀ code, s.fileSystem.refusal cfg fdClient (.writeFile path size buf) = some code →
      Q (.error code) (l, s))
    (hmemory : s.fileSystem.refusal cfg fdClient (.writeFile path size buf) = none →
      l.malloc .list = false → Q (.error .error) (l, s))
    (hsome : ∀ x ∈ xs, x.2.pathName = path → s.fileSystem.find? path = some x.2 →
      s.fileSystem.refusal cfg fdClient (.writeFile path size buf) = none →
      x.2.size = 0 → toSize size ≤ cfg.maxSpace → ∀ t rest, l.clock = t :: rest → ∀ s',
        s' = s.grown x.1 (x.2.written (toSize size) buf t) (toSize size)
          (toExpell cfg s xs x.1 (toSize size)) →
        Q (.ok ((toExpell cfg s xs x.1 (toSize size)).map Prod.fst))
          ({ l with clock := rest, log := l.log ++
            [.currentFiles s'.currState.files, .currentSpace s'.currState.space] }, s')) :
    Prog.wp safeExec (writeFileStore cfg fdClient path size buf) Q (l, s) := by
  rw [writeFileStore, Prog.wp_bind]
  refine safe_writeFileStart hs hrefused hmemory fun x hx hpath hfind hpass he hle t rest hclock =>
    ?_
  simp only [Prog.wp_bind]
  refine safe_makeRoom_grown hs (.written hs hx hbuf he hle t) hmem ?_
  rw [← Store.grown_put (f := x.2.written (toSize size) buf t)]
  exact safe_writeFileEnd Store.heap_grown ((Store.locked_grown _).trans hs.filesMtx)
    ((Store.locked_grown _).trans hs.currStateMtx)
    (hsome x hx hpath hfind hpass he hle t rest hclock _ rfl)

theorem safe_appendToFileStore (hs : s.Idle cfg xs) {size : ℕ} {buf : List UInt8}
    (hpos : size ≠ 0) (hbuf : buf.length = size) (hmem : s.currState.space + size < 2 ^ 63)
    {Q : Except Sa (List FilePtr) → World → Prop}
    (hrefused : ∀ code, s.fileSystem.refusal cfg fdClient (.appendToFile path size buf) =
      some code →
      Q (.error code) (l, s))
    (hsome : ∀ x ∈ xs, x.2.pathName = path → s.fileSystem.find? path = some x.2 →
      s.fileSystem.refusal cfg fdClient (.appendToFile path size buf) = none →
      x.2.size + size ≤ cfg.maxSpace → ∀ t rest, l.clock = t :: rest → ∀ s',
        s' = s.grown x.1 (x.2.appended buf t) size (toExpell cfg s xs x.1 size) →
        Q (.ok ((toExpell cfg s xs x.1 size).map Prod.fst))
          ({ l with clock := rest, log := l.log ++ [.currentFiles (toUInt s'.currState.space),
            .currentSpace (toUInt s'.currState.files)] }, s')) :
    Prog.wp safeExec (appendToFileStore cfg fdClient path size buf) Q (l, s) := by
  rw [appendToFileStore, Prog.wp_bind]
  refine safe_appendToFileStart hs hpos hbuf hmem hrefused
    fun x hx hpath hfind hpass hle t rest hclock => ?_
  subst hbuf
  simp only [Prog.wp_bind]
  refine safe_makeRoom_grown hs (.appended hs hx hle t) hmem ?_
  rw [← Store.grown_put (f := x.2.appended buf t)]
  exact safe_appendToFileEnd Store.heap_grown ((Store.locked_grown _).trans hs.filesMtx)
    ((Store.locked_grown _).trans hs.currStateMtx)
    (hsome x hx hpath hfind hpass hle t rest hclock _ rfl)

/-- The file that a creation expels. -/
def victim (cfg : ServerConfig) (s : Store) (xs : List (FilePtr × File)) :
    Option (FilePtr × File) :=
  if s.currState.files = cfg.maxFiles then scan cfg.policy.keyAt none xs else none

/-- The store after the file, if there is one, has been expelled. -/
def Store.placed (s : Store) (y : Option (FilePtr × File)) : Store :=
  y.elim s s.expellOne

/-- The store after a file has been created, and put into the map if it takes it. -/
def Store.created (s : Store) (granted : Granted) (path : CString) (f : File) : Store :=
  ((s.alloc f).setFiles (hashmapInsert granted s.files path s.fresh).2).setState
    s.currState.addFile

@[simp] theorem Store.fresh_placed (y : Option (FilePtr × File)) :
    (s.placed y).fresh = s.fresh := by
  cases y <;> rfl

@[simp] theorem Store.locked_placed (y : Option (FilePtr × File)) (m : Mutex) :
    (s.placed y).locked m = s.locked m := by
  cases y <;> cases m <;> rfl

theorem Store.placed_setLocked (y : Option (FilePtr × File)) (b : Bool) (m : Mutex) :
    (s.setLocked b m).placed y = (s.placed y).setLocked b m := by
  cases y <;> cases m <;> rfl

theorem Store.placed_alloc {y : Option (FilePtr × File)} {f : File}
    (hy : ∀ x ∈ y, x.1 ≠ s.fresh) : (s.alloc f).placed y = (s.placed y).alloc f := by
  cases y with
  | none => rfl
  | some x =>
    have hx : x.1 ≠ s.fresh := hy x rfl
    simp only [placed, Option.elim_some, expellOne, alloc, put,
      setFiles, setState, Function.update_comm hx.symm]

theorem mem_of_victim {x : FilePtr × File} (h : victim cfg s xs = some x) : x ∈ xs := by
  unfold victim at h
  split_ifs at h
  obtain ⟨l₁, l₂, hl, -⟩ := first_of_scan h
  simp [hl]

/-- A creation expels the first file in the order of the policy if there are too many. -/
theorem safe_makePlace (h : s.Holds xs) (hexp : ∀ x ∈ xs, expellable x = true)
    {α : Type} {k : Option FilePtr → M α} {Q : α → World → Prop}
    (hQ : Prog.wp safeExec (k ((victim cfg s xs).map Prod.fst)) Q
      (l, s.placed (victim cfg s xs))) :
    Prog.wp safeExec
      (if s.currState.files = cfg.maxFiles then expellSingleFile cfg >>= k else k none)
      Q (l, s) := by
  have hfilter : xs.filter expellable = xs := List.filter_eq_self.2 hexp
  by_cases hfiles : s.currState.files = cfg.maxFiles
  · rw [victim, if_pos hfiles] at hQ
    rw [if_pos hfiles, Prog.wp_bind]
    refine safe_expellSingleFile h (fun hne => ?_) (fun hnil => ?_) fun x hx hscan => ?_
    · obtain ⟨x, hx⟩ := List.exists_mem_of_ne_nil xs hne
      exact ⟨x, hx, hexp x hx⟩
    · subst hnil
      exact hQ
    · rw [hfilter] at hscan
      rwa [hscan] at hQ
  · rw [victim, if_neg hfiles] at hQ
    rwa [if_neg hfiles]

/-- A new file before it is in the map : locked, and not to be expelled. -/
def File.unborn (f : File) : File :=
  { f with nWriters := 1, canBeExpelled := false }

/-- An `open_file` with `O_CREATE` is refused, or has allocated a new file. -/
theorem safe_openFileCreateStart (hs : s.Idle cfg xs) {flags : ℤ}
    {Q : Except Sa FilePtr → World → Prop}
    (hexists : (s.fileSystem.find? path).isSome → Q (.error .exists) (l, s))
    (hsome : s.fileSystem.find? path = none → ∀ t₁ t₂ rest, l.clock = t₁ :: t₂ :: rest →
      Q (.ok s.fresh) ({ l with clock := rest }, ((s.setLocked true .files).alloc
        (File.new l.malloc path flags fdClient t₁ t₂).unborn).setLocked true .currState)) :
    Prog.wp safeExec (openFileCreateStart fdClient path flags) Q (l, s) := by
  simp only [openFileCreateStart, createFile, Prog.wp_bind, safe_mutexLock, safe_filesContains,
    Store.files_setLocked, HashMap.hashmapContains_eq]
  intro _
  rcases hs.lookup path with ⟨hget, hfind⟩ | ⟨x, hx, hpath, hget, hheap, hfind⟩
  swap
  · simpa [hget, hs.filesMtx] using hexists (by simp [hfind])
  have hdone := hsome hfind
  simp only [hget, Option.isSome_none, Bool.false_eq_true, if_false, Prog.wp_bind,
    safe_safeMalloc]
  intro _
  refine safe_initOpeners ?_
  simp only [Prog.wp_bind, safe_fileNew, safe_fileWriterLock, safe_clockGettime,
    safe_set_creationTime, safe_set_lastUse, Prog.wp_pure, safe_mutexLock,
    Store.fresh_setLocked, Store.heap_alloc_self, Store.alloc_put_self, Option.some.injEq,
    exists_eq_left']
  intro _ _ t₁ _ hclock t₂ rest hrest _
  subst hrest
  exact hdone t₁ t₂ rest hclock

/-- The new file goes into the map, and is counted. -/
theorem safe_openFileCreateEnd {f : File} {expelled : Option FilePtr}
    (hexp : f.canBeExpelled = true) (hw : f.nWriters = 0) (hfiles : s.locked .files = false)
    (hstate : s.locked .currState = false)
    {Q : Except Sa (FilePtr × Option FilePtr) → World → Prop}
    (hQ : Q (.ok (s.fresh, expelled)) ({ l with log := l.log ++
        [.currentFiles s.currState.addFile.files, .currentSpace (toUInt s.currState.space)] },
      s.created (filesGranted l.malloc) path f)) :
    Prog.wp safeExec (openFileCreateEnd path s.fresh expelled) Q
      (l, ((s.setLocked true .files).setLocked true .currState).alloc f.unborn) := by
  have hf : ({ f.unborn with canBeExpelled := true } : File).writeUnlocked = f := by
    cases f
    cases hexp
    cases hw
    rfl
  have hwriters : 0 < f.unborn.nWriters := Nat.one_pos
  have hmax : ∀ (a b : ℕ) [Decidable (b < a)], (if b < a then a else b) = max b a :=
    fun a b _ => by split <;> omega
  simpa [openFileCreateEnd, Store.created, hfiles, hstate, hf, hwriters, hmax,
    ServerState.addFile] using hQ

theorem safe_openFileCreate (hs : s.Idle cfg xs) {flags : ℤ}
    {Q : Except Sa (FilePtr × Option FilePtr) → World → Prop}
    (hexists : (s.fileSystem.find? path).isSome → Q (.error .exists) (l, s))
    (hsome : s.fileSystem.find? path = none → ∀ t₁ t₂ rest, l.clock = t₁ :: t₂ :: rest → ∀ s',
      s' = (s.placed (victim cfg s xs)).created (filesGranted l.malloc) path
        (File.new l.malloc path flags fdClient t₁ t₂) →
      Q (.ok (s.fresh, (victim cfg s xs).map Prod.fst)) ({ l with clock := rest, log := l.log ++
        [.currentFiles s'.currState.files, .currentSpace (toUInt s'.currState.space)] }, s')) :
    Prog.wp safeExec (openFileCreate cfg fdClient path flags) Q (l, s) := by
  rw [openFileCreate, Prog.wp_bind]
  refine safe_openFileCreateStart hs hexists fun hfind t₁ t₂ rest hclock => ?_
  let f₀ : File := (File.new l.malloc path flags fdClient t₁ t₂).unborn
  have hholds := ((hs.toHolds.setLocked true .files).alloc f₀).setLocked true .currState
  have hvictim : victim cfg (((s.setLocked true .files).alloc f₀).setLocked true .currState) xs =
      victim cfg s xs := by
    simp only [victim, Store.currState_setLocked, Store.currState_alloc]
  have hplaced : (((s.setLocked true .files).alloc f₀).setLocked true .currState).placed
        (victim cfg s xs) =
      (((s.placed (victim cfg s xs)).setLocked true .files).setLocked true .currState).alloc
        f₀ := by
    rw [Store.setLocked_alloc, Store.placed_alloc, Store.placed_setLocked, Store.placed_setLocked]
    intro x hx
    simpa using Nat.ne_of_lt (hs.lt_fresh (mem_of_victim hx))
  simp only [Prog.wp_bind, safe_getState]
  refine safe_makePlace hholds (fun x hx => hs.expellable hx) ?_
  rw [hvictim, hplaced, ← Store.fresh_placed (s := s) (victim cfg s xs)]
  refine safe_openFileCreateEnd rfl rfl ((Store.locked_placed ..).trans hs.filesMtx)
    ((Store.locked_placed ..).trans hs.currStateMtx) ?_
  rw [Store.fresh_placed]
  exact hsome hfind t₁ t₂ rest hclock _ rfl

end Sections

end StorageServer
