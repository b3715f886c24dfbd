import StorageServer.Exchange

/-!
# Requests that succeed

A section whose locks are free, whose allocations are granted and for which the clock goes
on returns. The rules `ends_*` say so of each operation, and `ends_openFileCreate`,
`ends_writeFileStore` and `ends_readFileStore` of the sections of a request that passes
its checks and expels nothing. A reply comes to no operation that can wait (`Op.Prompt`), and
always returns (`ends_finish`).
-/

open Programs

namespace StorageServer

/-! ## Rules -/

section Rules

variable {p : FilePtr} {l : Local} {s : Store}

/-- The rule of an operation that returns. -/
theorem ends_of_ok (o : Op) {w w' : World} {a : Ans o} (he : exec o w = .ok (a, w'))
    (Q : Ans o → World → Prop) : Prog.twp exec (perform o) Q w ↔ Q a w' := by
  rw [perform, Prog.twp_perform, he]
  exact Res.exists_ok_eq

/-- The rule of an access to a file. -/
theorem ends_of_withFile (o : Op) {f : File → Res (Ans o × World)}
    (he : exec o (l, s) = withFile (l, s) p f) (Q : Ans o → World → Prop) :
    Prog.twp exec (perform o) Q (l, s) ↔
      ∃ file, s.heap p = some file ∧ ∃ a w', f file = .ok (a, w') ∧ Q a w' := by
  rw [perform, Prog.twp_perform, he, withFile]
  cases s.heap p <;> simp

@[simp] theorem ends_writen (bytes : List UInt8) (Q : ℤ → World → Prop) :
    Prog.twp exec (writen bytes) Q (l, s) ↔ Q (l.writen bytes).1 ((l.writen bytes).2, s) :=
  ends_of_ok _ rfl _

@[simp] theorem ends_clockGettime (Q : Timespec → World → Prop) :
    Prog.twp exec clockGettime Q (l, s) ↔
      ∃ t rest, l.clock = t :: rest ∧ Q t ({ l with clock := rest }, s) := by
  rw [clockGettime, perform, Prog.twp_perform]
  cases h : l.clock <;> simp [exec, h]

@[simp] theorem ends_safeMalloc (size : ℕ) (Q : Unit → World → Prop) :
    Prog.twp exec (safeMalloc size) Q (l, s) ↔ l.malloc (.safe size) = true ∧ Q () (l, s) := by
  rw [safeMalloc, perform, Prog.twp_perform]
  cases h : l.malloc (.safe size)
  · simp [exec, h]
  · simpa only [exec, h, if_true, true_and] using Res.exists_ok_eq

@[simp] theorem ends_malloc (a : Allocation) (Q : Bool → World → Prop) :
    Prog.twp exec (malloc a) Q (l, s) ↔ Q (l.malloc a) (l, s) :=
  ends_of_ok _ rfl _

@[simp] theorem ends_exit (Q : Unit → World → Prop) :
    Prog.twp exec exit Q (l, s) ↔ False := by
  rw [exit, perform, Prog.twp_perform]
  simp [exec]

@[simp] theorem ends_logger (line : LogLine) (Q : Unit → World → Prop) :
    Prog.twp exec (logger line) Q (l, s) ↔ Q () ({ l with log := l.log ++ [line] }, s) :=
  ends_of_ok _ rfl _

@[simp] theorem ends_uninit (Q : ℤ → World → Prop) :
    Prog.twp exec uninit Q (l, s) ↔ Q l.uninit (l, s) :=
  ends_of_ok _ rfl _

@[simp] theorem ends_mutexLock (m : Mutex) (Q : Unit → World → Prop) :
    Prog.twp exec (mutexLock m) Q (l, s) ↔
      s.locked m = false ∧ Q () (l, s.setLocked true m) := by
  rw [mutexLock, perform, Prog.twp_perform]
  cases h : s.locked m
  · simpa only [exec, h, Bool.false_eq_true, if_false, true_and] using Res.exists_ok_eq
  · simp [exec, h]

@[simp] theorem ends_mutexUnlock (m : Mutex) (Q : Unit → World → Prop) :
    Prog.twp exec (mutexUnlock m) Q (l, s) ↔ Q () (l, s.setLocked false m) :=
  ends_of_ok _ rfl _

@[simp] theorem ends_getState (Q : ServerState → World → Prop) :
    Prog.twp exec getState Q (l, s) ↔ Q s.currState (l, s) :=
  ends_of_ok _ rfl _

@[simp] theorem ends_setState (st : ServerState) (Q : Unit → World → Prop) :
    Prog.twp exec (setState st) Q (l, s) ↔ Q () (l, s.setState st) :=
  ends_of_ok _ rfl _

@[simp] theorem ends_filesContains (key : CString) (Q : Bool → World → Prop) :
    Prog.twp exec (filesContains key) Q (l, s) ↔ Q (hashmapContains s.files key) (l, s) :=
  ends_of_ok _ rfl _

@[simp] theorem ends_filesGetByKey (key : CString) (Q : Option FilePtr → World → Prop) :
    Prog.twp exec (filesGetByKey key) Q (l, s) ↔ Q (hashmapGetByKey s.files key) (l, s) :=
  ends_of_ok _ rfl _

@[simp] theorem ends_filesInsert (key : CString) (file : FilePtr) (Q : ℤ → World → Prop) :
    Prog.twp exec (filesInsert key file) Q (l, s) ↔
      Q (hashmapInsert (filesGranted l.malloc) s.files key file).1
        (l, s.setFiles (hashmapInsert (filesGranted l.malloc) s.files key file).2) :=
  ends_of_ok _ rfl _

@[simp] theorem ends_filesIter (Q : List FilePtr → World → Prop) :
    Prog.twp exec filesIter Q (l, s) ↔ Q (s.files.entries.map Prod.snd) (l, s) :=
  ends_of_ok _ rfl _

@[simp] theorem ends_filesNelem (Q : ℕ → World → Prop) :
    Prog.twp exec filesNelem Q (l, s) ↔ Q s.files.nelem (l, s) :=
  ends_of_ok _ rfl _

@[simp] theorem ends_fileNew (file : File) (Q : FilePtr → World → Prop) :
    Prog.twp exec (fileNew file) Q (l, s) ↔ Q s.fresh (l, s.alloc file) :=
  ends_of_ok _ rfl _

theorem ends_get (fld : Field) (Q : fld.Ty → World → Prop) :
    Prog.twp exec (perform (.get p fld)) Q (l, s) ↔
      ∃ file, s.heap p = some file ∧ Q (file.get fld) (l, s) := by
  rw [ends_of_withFile (.get p fld) rfl]
  simp

theorem ends_set (fld : Field) (v : fld.Ty) (Q : Unit → World → Prop) :
    Prog.twp exec (set p fld v) Q (l, s) ↔
      ∃ file, s.heap p = some file ∧ Q () (l, s.put p (file.set fld v)) := by
  rw [set, ends_of_withFile (.set p fld v) rfl]
  exact exists_congr fun file => and_congr_right fun _ => Res.exists_ok_eq

@[simp] theorem ends_getContents (Q : List UInt8 → World → Prop) :
    Prog.twp exec (getContents p) Q (l, s) ↔
      ∃ file, s.heap p = some file ∧ Q file.contents (l, s) :=
  ends_get .contents Q

@[simp] theorem ends_getSize (Q : ℕ → World → Prop) :
    Prog.twp exec (getSize p) Q (l, s) ↔ ∃ file, s.heap p = some file ∧ Q file.size (l, s) :=
  ends_get .size Q

@[simp] theorem ends_getFdLock (Q : ℤ → World → Prop) :
    Prog.twp exec (getFdLock p) Q (l, s) ↔ ∃ file, s.heap p = some file ∧ Q file.fdLock (l, s) :=
  ends_get .fdLock Q

@[simp] theorem ends_getFdOpen (Q : HashTblPtr → World → Prop) :
    Prog.twp exec (getFdOpen p) Q (l, s) ↔ ∃ file, s.heap p = some file ∧ Q file.fdOpen (l, s) :=
  ends_get .fdOpen Q

@[simp] theorem ends_getPathName (Q : CString → World → Prop) :
    Prog.twp exec (getPathName p) Q (l, s) ↔
      ∃ file, s.heap p = some file ∧ Q file.pathName (l, s) :=
  ends_get .pathName Q

@[simp] theorem ends_getLastUse (Q : Timespec → World → Prop) :
    Prog.twp exec (getLastUse p) Q (l, s) ↔ ∃ file, s.heap p = some file ∧ Q file.lastUse (l, s) :=
  ends_get .lastUse Q

@[simp] theorem ends_getCreationTime (Q : Timespec → World → Prop) :
    Prog.twp exec (getCreationTime p) Q (l, s) ↔
      ∃ file, s.heap p = some file ∧ Q file.creationTime (l, s) :=
  ends_get .creationTime Q

@[simp] theorem ends_getCanBeExpelled (Q : Bool → World → Prop) :
    Prog.twp exec (getCanBeExpelled p) Q (l, s) ↔
      ∃ file, s.heap p = some file ∧ Q file.canBeExpelled (l, s) :=
  ends_get .canBeExpelled Q

@[simp] theorem ends_set_contents (v : List UInt8) (Q : Unit → World → Prop) :
    Prog.twp exec (set p .contents v) Q (l, s) ↔
      ∃ file, s.heap p = some file ∧ Q () (l, s.put p { file with contents := v }) :=
  ends_set .contents v Q

@[simp] theorem ends_set_size (v : ℕ) (Q : Unit → World → Prop) :
    Prog.twp exec (set p .size v) Q (l, s) ↔
      ∃ file, s.heap p = some file ∧ Q () (l, s.put p { file with size := v }) :=
  ends_set .size v Q

@[simp] theorem ends_set_fdOpen (v : HashTblPtr) (Q : Unit → World → Prop) :
    Prog.twp exec (set p .fdOpen v) Q (l, s) ↔
      ∃ file, s.heap p = some file ∧ Q () (l, s.put p { file with fdOpen := v }) :=
  ends_set .fdOpen v Q

@[simp] theorem ends_set_lastUse (v : Timespec) (Q : Unit → World → Prop) :
    Prog.twp exec (set p .lastUse v) Q (l, s) ↔
      ∃ file, s.heap p = some file ∧ Q () (l, s.put p { file with lastUse := v }) :=
  ends_set .lastUse v Q

@[simp] theorem ends_set_creationTime (v : Timespec) (Q : Unit → World → Prop) :
    Prog.twp exec (set p .creationTime v) Q (l, s) ↔
      ∃ file, s.heap p = some file ∧ Q () (l, s.put p { file with creationTime := v }) :=
  ends_set .creationTime v Q

@[simp] theorem ends_set_canBeExpelled (v : Bool) (Q : Unit → World → Prop) :
    Prog.twp exec (set p .canBeExpelled v) Q (l, s) ↔
      ∃ file, s.heap p = some file ∧ Q () (l, s.put p { file with canBeExpelled := v }) :=
  ends_set .canBeExpelled v Q

@[simp] theorem ends_fileReaderLock (Q : Unit → World → Prop) :
    Prog.twp exec (fileReaderLock p) Q (l, s) ↔
      ∃ file, s.heap p = some file ∧ file.nWriters = 0 ∧ Q () (l, s.put p file.readLocked) := by
  rw [fileReaderLock, ends_of_withFile (.fileReaderLock p) rfl]
  refine exists_congr fun file => and_congr_right fun _ => ?_
  split_ifs with h
  · simp [Nat.ne_of_gt h]
  · simpa only [Nat.eq_zero_of_not_pos h, true_and] using Res.exists_ok_eq

@[simp] theorem ends_fileReaderUnlock (Q : Unit → World → Prop) :
    Prog.twp exec (fileReaderUnlock p) Q (l, s) ↔
      ∃ file, s.heap p = some file ∧ Q () (l, s.put p file.readUnlocked) := by
  rw [fileReaderUnlock, ends_of_withFile (.fileReaderUnlock p) rfl]
  exact exists_congr fun file => and_congr_right fun _ => Res.exists_ok_eq

@[simp] theorem ends_fileWriterLock (Q : Unit → World → Prop) :
    Prog.twp exec (fileWriterLock p) Q (l, s) ↔
      ∃ file, s.heap p = some file ∧ file.nWriters = 0 ∧ file.nReaders = 0 ∧
        Q () (l, s.put p file.writeLocked) := by
  rw [fileWriterLock, ends_of_withFile (.fileWriterLock p) rfl]
  refine exists_congr fun file => and_congr_right fun _ => ?_
  split_ifs with h
  · simp only [false_and, exists_false, false_iff, not_and]
    omega
  · have : file.nWriters = 0 ∧ file.nReaders = 0 := by omega
    simpa only [this.1, this.2, true_and] using Res.exists_ok_eq

@[simp] theorem ends_fileWriterUnlock (Q : Unit → World → Prop) :
    Prog.twp exec (fileWriterUnlock p) Q (l, s) ↔
      ∃ file, s.heap p = some file ∧ Q () (l, s.put p file.writeUnlocked) := by
  rw [fileWriterUnlock, ends_of_withFile (.fileWriterUnlock p) rfl]
  exact exists_congr fun file => and_congr_right fun _ => Res.exists_ok_eq

end Rules

section Openers

variable {fdClient : ℕ} {p : FilePtr} {l : Local} {s : Store}

@[simp] theorem ends_openersMemory (Q : Granted → World → Prop) :
    Prog.twp exec openersMemory Q (l, s) ↔ Q (openersGranted l.malloc) (l, s) := by
  simp only [openersMemory, Prog.twp_bind, Prog.twp_pure, ends_malloc, openersGranted]

@[simp] theorem ends_initOpeners (Q : HashTblPtr → World → Prop) :
    Prog.twp exec (initOpeners fdClient) Q (l, s) ↔
      (l.malloc .hashtbl = true → l.malloc .hashtblLists = true) ∧
        Q (File.newOpeners l.malloc fdClient) (l, s) := by
  cases htable : l.malloc .hashtbl <;> cases hlists : l.malloc .hashtblLists <;>
    simp [initOpeners, File.newOpeners, htable, hlists]

end Openers

/-! ## Sections -/

/-- A run that returns satisfies what is known of the runs that return. -/
theorem ends_of_safe {α : Type} {p : M α} {Q : α → World → Prop} {w : World}
    (h : Prog.wp safeExec p Q w) (hr : Prog.twp exec p (fun _ _ => True) w) :
    Prog.twp exec p Q w := by
  obtain ⟨a, w', hrun, -⟩ := hr
  exact ⟨a, w', hrun, post_of_safe h hrun⟩

section Sections

variable {cfg : ServerConfig} {fdClient : ℕ} {l : Local} {s : Store}
  {xs : List (FilePtr × File)} {path : CString}

/-- A file is allocated where there is none. -/
theorem ends_openFileCreateStart (hs : s.Idle cfg xs) {flags : ℤ} {t₁ t₂ : Timespec}
    {rest : List Timespec} (hfind : s.fileSystem.find? path = none)
    (hmalloc : l.malloc (.safe sizeofFile) = true)
    (hlists : l.malloc .hashtbl = true → l.malloc .hashtblLists = true)
    (hclock : l.clock = t₁ :: t₂ :: rest) :
    Prog.twp exec (openFileCreateStart fdClient path flags)
      (fun r w => r = .ok s.fresh ∧ w.2.currState = s.currState) (l, s) := by
  have hget : hashmapGetByKey s.files path = none := by
    rw [hs.hashmapGetByKey_eq_none]
    exact hs.find?_eq_none.1 hfind
  have hfilesMtx := hs.filesMtx
  have hstateMtx := hs.currStateMtx
  simpa [openFileCreateStart, createFile, HashMap.hashmapContains_eq, hget, hmalloc, hclock,
    hfilesMtx, hstateMtx] using hlists

/-- A file is created where there is none, while there is place for it. -/
theorem ends_openFileCreate (hs : s.Idle cfg xs) {flags : ℤ} {t₁ t₂ : Timespec}
    {rest : List Timespec} (hfind : s.fileSystem.find? path = none)
    (hfiles : s.currState.files ≠ cfg.maxFiles) (hmalloc : l.malloc (.safe sizeofFile) = true)
    (hlists : l.malloc .hashtbl = true → l.malloc .hashtblLists = true)
    (hclock : l.clock = t₁ :: t₂ :: rest) :
    Prog.twp exec (openFileCreate cfg fdClient path flags) (fun _ _ => True) (l, s) := by
  have hget : hashmapGetByKey s.files path = none := by
    rw [hs.hashmapGetByKey_eq_none]
    exact hs.find?_eq_none.1 hfind
  have hfilesMtx := hs.filesMtx
  have hstateMtx := hs.currStateMtx
  simpa [openFileCreate, openFileCreateStart, openFileCreateEnd, createFile,
    HashMap.hashmapContains_eq, hget, hmalloc, hclock, hfiles, hfilesMtx, hstateMtx] using hlists

/-- The lookup of a stored file, which is there to be locked. -/
theorem Store.Holds.get (h : s.Holds xs) {x : FilePtr × File} (hx : x ∈ xs) :
    hashmapGetByKey s.files x.2.pathName = some x.1 ∧ s.heap x.1 = some x.2 :=
  ⟨h.hashmapGetByKey_eq_some.2 ⟨x.2, hx, rfl⟩, h.heap x hx⟩

/-- Without too many bytes nothing is expelled, also where the difference of the two sizes
is taken for a positive one. -/
theorem ends_expellMultipleFiles {space : ℕ} (hspace : s.currState.space = space)
    (hroom : space ≤ cfg.maxSpace) (hpos : 0 < toLong ((space : ℤ) - cfg.maxSpace))
    {Q : List FilePtr → World → Prop} (hQ : Q [] (l, s)) :
    Prog.twp exec (expellMultipleFiles cfg (toSize (toLong ((space : ℤ) - cfg.maxSpace)))) Q
      (l, s) := by
  have hmax := cfg.maxSpace_lt
  have hgt : toSize (toLong ((space : ℤ) - cfg.maxSpace)) > space := by
    unfold toLong at hpos
    unfold toSize toLong
    omega
  simpa [expellMultipleFiles, hspace, hgt] using hQ

/-- Room for a file that leaves enough of it. -/
theorem ends_makeRoom {p : FilePtr} {f : File} {size : ℕ} (hheap : s.heap p = some f)
    (hroom : s.currState.space + size ≤ cfg.maxSpace) {Q : List FilePtr → World → Prop}
    (hQ : ∀ s' : Store, s'.heap p = some { f with canBeExpelled := true } ∨ s'.heap p = some f →
      s'.locked = s.locked → Q [] (l, s')) :
    Prog.twp exec (makeRoom cfg p size) Q (l, s) := by
  have hmax := cfg.maxSpace_lt
  have hadd : toSize (s.currState.space + size) = s.currState.space + size :=
    toSize_of_range (n := s.currState.space + size) (by omega)
  have hcast : (s.currState.space : ℤ) + size = ((s.currState.space + size : ℕ) : ℤ) := by
    rw [Int.natCast_add]
  simp only [makeRoom, makeRoomStart, Prog.twp_bind, ends_getState, ends_setState,
    Store.currState_setState, hadd]
  by_cases hpos : 0 < toLong (((s.currState.space + size : ℕ) : ℤ) - cfg.maxSpace)
  · simp only [gt_iff_lt, hpos, if_true, Prog.twp_bind, Prog.twp_pure, ends_set_canBeExpelled,
      Store.heap_setState, hheap, Option.some.injEq, exists_eq_left']
    refine ends_expellMultipleFiles rfl hroom hpos ?_
    simp [makeRoomEnd]
    exact hQ _ (Or.inl (by simp)) (by funext m; simp)
  · simp only [gt_iff_lt, hpos, if_false, Prog.twp_pure]
    simp [makeRoomEnd]
    exact hQ _ (Or.inr (by simpa using hheap)) (by funext m; simp)

/-- An empty file is written to by the client that locked it, and there is room for it. -/
theorem ends_writeFileStore (hs : s.Idle cfg xs) {size : ℤ} {buf : List UInt8} {t : Timespec}
    {rest : List Timespec} {x : FilePtr × File} (hx : x ∈ xs)
    (hfree : x.2.nReaders = 0 ∧ x.2.nWriters = 0)
    (hopen : x.2.fdOpen.contains fdClient = true) (hlock : x.2.fdLock = fdClient)
    (hsize : x.2.size = 0) (hroom : s.currState.space + toSize size ≤ cfg.maxSpace)
    (hlist : l.malloc .list = true) (hclock : l.clock = t :: rest) :
    Prog.twp exec (writeFileStore cfg fdClient x.2.pathName size buf) (fun _ _ => True) (l, s) := by
  obtain ⟨hget, hheap⟩ := hs.toHolds.get hx
  have hfilesMtx := hs.filesMtx
  have hstateMtx := hs.currStateMtx
  have hle : ¬cfg.maxSpace < toSize size := by omega
  simp [writeFileStore, writeFileStart, hget, hheap, hfree, hopen, hlock, hsize, hclock, hfilesMtx,
    hstateMtx, hle, hlist]
  refine ends_makeRoom (Store.heap_put_self ..) (by simpa using hroom) fun s' hheap' _ => ?_
  rcases hheap' with hheap' | hheap' <;> simp [writeFileEnd, hheap']

/-- Bytes are appended to a file by a client that has opened it, and there is room for
them. -/
theorem ends_appendToFileStore (hs : s.Idle cfg xs) {size : ℕ} {buf : List UInt8} {t : Timespec}
    {rest : List Timespec} {x : FilePtr × File} (hx : x ∈ xs)
    (hfree : x.2.nReaders = 0 ∧ x.2.nWriters = 0)
    (hopen : x.2.fdOpen.contains fdClient = true)
    (hroom : s.currState.space + size ≤ cfg.maxSpace)
    (hmalloc : l.malloc (.safe (toSize (x.2.size + size))) = true) (hclock : l.clock = t :: rest) :
    Prog.twp exec (appendToFileStore cfg fdClient x.2.pathName size buf) (fun _ _ => True)
      (l, s) := by
  obtain ⟨hget, hheap⟩ := hs.toHolds.get hx
  have hfilesMtx := hs.filesMtx
  have hstateMtx := hs.currStateMtx
  simp [appendToFileStore, appendToFileStart, hget, hheap, hfree, hopen, hclock, hfilesMtx,
    hstateMtx, hmalloc]
  intro _
  refine ends_makeRoom (Store.heap_put_self ..) (by simpa using hroom) fun s' hheap' _ => ?_
  rcases hheap' with hheap' | hheap' <;> simp [appendToFileEnd, hheap']

/-- A file is opened, and not locked. -/
theorem ends_openFileExisting (hs : s.Idle cfg xs) {flags : ℤ} {t : Timespec}
    {rest : List Timespec} {x : FilePtr × File} (hx : x ∈ xs)
    (hfree : x.2.nReaders = 0 ∧ x.2.nWriters = 0) (hflags : isFlagSet flags oLock = false)
    (hclock : l.clock = t :: rest) :
    Prog.twp exec (openFileExisting fdClient x.2.pathName flags) (fun _ _ => True) (l, s) := by
  obtain ⟨hget, hheap⟩ := hs.toHolds.get hx
  have hfilesMtx := hs.filesMtx
  simp [openFileExisting, addOpener, hget, hheap, hfree, hflags, hclock, hfilesMtx]

/-- A file without a writer is read. -/
theorem ends_readFileStore (hs : s.Idle cfg xs) {t : Timespec} {rest : List Timespec}
    {x : FilePtr × File} (hx : x ∈ xs) (hfree : x.2.nWriters = 0) (hclock : l.clock = t :: rest) :
    Prog.twp exec (readFileStore fdClient x.2.pathName) (fun _ _ => True) (l, s) := by
  obtain ⟨hget, hheap⟩ := hs.toHolds.get hx
  have hfilesMtx := hs.filesMtx
  simp [readFileStore, hget, hheap, hfree, hclock, hfilesMtx]

end Sections

/-! ## Replies -/

/-- An operation that neither waits nor ends the process. -/
def Op.Prompt : Op → Prop
  | .readn _ | .clockGettime | .safeMalloc _ | .exit | .mutexLock _ | .fileReaderLock _
  | .fileWriterLock _ => False
  | _ => True

/-- An operation that a request is replied with. -/
def Op.Replying : Op → Prop
  | .writen _ | .logger _ | .get _ .pathName | .get _ .contents | .get _ .size | .fileDelete _
  | .fileReaderUnlock _ => True
  | _ => False

theorem Op.Replying.prompt {o : Op} (h : o.Replying) : o.Prompt := by
  cases o <;> first | exact trivial | exact h.elim

theorem exec_of_prompt {o : Op} (w : World) (h : o.Prompt) :
    exec o w ≠ .blocked ∧ exec o w ≠ .halt := by
  have hok : ∀ {β : Type} (b : β), Res.ok b ≠ .blocked ∧ Res.ok b ≠ .halt :=
    fun _ => ⟨nofun, nofun⟩
  have hfault : ∀ {β : Type}, (Res.fault : Res β) ≠ .blocked ∧ (Res.fault : Res β) ≠ .halt :=
    ⟨nofun, nofun⟩
  have hfile : ∀ {β : Type} {p : FilePtr} {f : File → Res (β × World)},
      (∀ file, f file ≠ .blocked ∧ f file ≠ .halt) →
      withFile w p f ≠ .blocked ∧ withFile w p f ≠ .halt := by
    intro β p f hf
    unfold withFile
    cases w.2.heap p with
    | none => exact hfault
    | some file => exact hf file
  obtain ⟨l, s⟩ := w
  cases o <;> first
    | exact h.elim
    | exact hok _
    | exact hfile fun file => hok _
    | exact hfault

section Replies

variable {cfg : ServerConfig} {l : Local} {s : Store} {xs : List (FilePtr × File)}

/-- What every run of a prompt program satisfies, it returns with. -/
theorem ends_of_prompt {α : Type} {p : M α} {Q : α → World → Prop} {w : World}
    (hp : p.Only Op.Prompt) (h : Prog.wp safeExec p Q w) : Prog.twp exec p Q w :=
  hp.twp (fun _ w ho => exec_of_prompt w ho) (Prog.wp_of_checked h)

theorem prompt_bind (o : Op) (ho : o.Prompt) {α : Type} {k : Ans o → M α}
    (hk : ∀ r, (k r).Only Op.Prompt) : (perform o >>= k).Only Op.Prompt :=
  ((Prog.only_perform o).2 ho).bind hk

theorem prompt_of_replying {α : Type} {p : M α} (h : p.Only Op.Replying) : p.Only Op.Prompt :=
  h.mono fun _ => Op.Replying.prompt

theorem replying_bind (o : Op) (ho : o.Replying) {α : Type} {k : Ans o → M α}
    (hk : ∀ r, (k r).Only Op.Replying) : (perform o >>= k).Only Op.Replying :=
  ((Prog.only_perform o).2 ho).bind hk

theorem replying_sendSingleFile (p : FilePtr) (sendPath : Bool) :
    (sendSingleFile p sendPath).Only Op.Replying := by
  have hfalse : (sendSingleFile p false).Only Op.Replying := by
    refine replying_bind (.get p .size) trivial fun size => ?_
    refine replying_bind (.writen _) trivial fun r => .ite trivial ?_
    refine replying_bind (.get p .size) trivial fun size => .ite ?_ trivial
    refine replying_bind (.get p .contents) trivial fun contents => ?_
    refine replying_bind (.get p .size) trivial fun size => ?_
    exact replying_bind (.writen _) trivial fun r => .ite trivial trivial
  cases sendPath with
  | false => exact hfalse
  | true =>
    rw [sendSingleFile_true]
    refine replying_bind (.get p .pathName) trivial fun path => ?_
    refine replying_bind (.writen _) trivial fun r => .ite trivial ?_
    exact replying_bind (.writen _) trivial fun r => .ite trivial hfalse

theorem replying_sendListOfFiles (ps : List FilePtr) : (sendListOfFiles ps).Only Op.Replying := by
  induction ps with
  | nil => exact replying_bind (.writen _) trivial fun r => .ite trivial trivial
  | cons p ps ih => exact Prog.Only.bind (replying_sendSingleFile p true) fun r => .ite trivial ih

theorem replying_deleteList (ps : List FilePtr) : (deleteList ps).Only Op.Replying := by
  induction ps with
  | nil => trivial
  | cons p ps ih => exact replying_bind (.fileDelete p) trivial fun _ => ih

theorem replying_readerUnlockAll (ps : List FilePtr) : (readerUnlockAll ps).Only Op.Replying := by
  induction ps with
  | nil => trivial
  | cons p ps ih => exact replying_bind (.fileReaderUnlock p) trivial fun _ => ih

/-- A success, the pieces, and what is given back on either way out. -/
theorem replying_reply {send : M ℤ} {onError onSuccess : M Sa} (hsend : send.Only Op.Replying)
    (herror : onError.Only Op.Replying) (hsuccess : onSuccess.Only Op.Replying) :
    (writen (intBytes Sa.success.code) >>= fun r =>
      if r = -1 then onError
      else send >>= fun r => if r = -1 then onError else onSuccess).Only Op.Replying :=
  replying_bind (.writen _) trivial fun _ => .ite herror (hsend.bind fun _ => .ite herror hsuccess)

/-- The last part of a handler is a reply. -/
theorem replying_finish (r : Except Sa Reply) : (finish r).Only Op.Replying := by
  rcases r with code | ⟨_ | ⟨file, expelled⟩ | toExpell | toSend | fileList⟩
  · trivial
  · trivial
  · have hlog : (getPathName file >>= fun path =>
        logger (.path path) >>= fun _ => pure Sa.success).Only Op.Replying :=
      replying_bind (.get file .pathName) trivial fun _ =>
        replying_bind (.logger _) trivial fun _ => trivial
    cases expelled with
    | none => exact hlog
    | some expelled =>
      refine replying_bind (.get expelled .pathName) trivial fun _ => ?_
      refine replying_bind (.logger _) trivial fun _ => ?_
      exact replying_bind (.fileDelete expelled) trivial fun _ => hlog
  · have hdelete : ∀ code : Sa, (deleteList toExpell >>= fun _ => pure code).Only Op.Replying :=
      fun code => (replying_deleteList toExpell).bind fun _ => trivial
    exact replying_reply (replying_sendListOfFiles toExpell) (hdelete _) (hdelete _)
  · exact replying_reply (replying_sendSingleFile toSend false) trivial
      (replying_bind (.fileReaderUnlock toSend) trivial fun _ => trivial)
  · have hunlock : ∀ code : Sa, (readerUnlockAll fileList >>= fun _ => pure code).Only Op.Replying :=
      fun code => (replying_readerUnlockAll fileList).bind fun _ => trivial
    exact replying_reply (replying_sendListOfFiles fileList) (hunlock _) (hunlock _)

/-- A reply returns. -/
theorem ends_finish (hs : s.Idle cfg xs) {r : Except Sa Reply}
    {out : Except Sa FileSystem.Outcome} (h : s.Shows xs r out) :
    Prog.twp exec (finish r) (fun code w => code = FileSystem.Outcome.code l out ∧
      (∃ xs', w.2.Idle cfg xs') ∧ w.2.fileSystem = s.fileSystem.release out code ∧
      w.1 = { (l.sendAll (FileSystem.Outcome.pieces out)).2 with
        log := l.log ++ (FileSystem.Outcome.logged out).map .path }) (l, s) :=
  ends_of_prompt (prompt_of_replying (replying_finish r)) (safe_finish hs h)

end Replies

end StorageServer
