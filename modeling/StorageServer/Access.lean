import StorageServer.Store

/-!
# Programs of the server

`M` are the programs over the operations of the store; each operation is also a program
under its name.

`safeExec` is `exec` with the discipline of the locks added (`guard`) : the contents and
the size of a file are assigned to, and a file is deleted, only while it is locked for
writing, its path is never assigned to, and a lock is released only by a holder. The
handlers are verified under `safeExec`, with one rule for each operation; what is proved
there holds under `exec` as well (`wp_of_checked`).
-/

open Programs

namespace StorageServer

/-- Programs of the server. -/
abbrev M := Prog Op Ans

/-- Perform one operation. -/
def perform (o : Op) : M (Ans o) :=
  Prog.perform o

/-! ## One operation each -/

def readn (size : ℕ) : M (ℤ × List UInt8) :=
  perform (.readn size)

def writen (bytes : List UInt8) : M ℤ :=
  perform (.writen bytes)

def clockGettime : M Timespec :=
  perform .clockGettime

def safeMalloc (size : ℕ) : M Unit :=
  perform (.safeMalloc size)

def malloc (a : Allocation) : M Bool :=
  perform (.malloc a)

def exit : M Unit :=
  perform .exit

def uninit : M ℤ :=
  perform .uninit

def logger (line : LogLine) : M Unit :=
  perform (.logger line)

def mutexLock (m : Mutex) : M Unit :=
  perform (.mutexLock m)

def mutexUnlock (m : Mutex) : M Unit :=
  perform (.mutexUnlock m)

def getState : M ServerState :=
  perform .getState

def setState (st : ServerState) : M Unit :=
  perform (.setState st)

def filesContains (key : CString) : M Bool :=
  perform (.hashmapContains key)

def filesGetByKey (key : CString) : M (Option FilePtr) :=
  perform (.hashmapGetByKey key)

def filesInsert (key : CString) (file : FilePtr) : M ℤ :=
  perform (.hashmapInsert key file)

def filesRemove (key : CString) : M (Option FilePtr) :=
  perform (.hashmapRemove key)

def filesIter : M (List FilePtr) :=
  perform .hashmapIter

def filesNelem : M ℕ :=
  perform .hashmapNelem

def fileNew (file : File) : M FilePtr :=
  perform (.fileNew file)

def fileDelete (file : FilePtr) : M Unit :=
  perform (.fileDelete file)

def getPathName (file : FilePtr) : M CString :=
  perform (.get file .pathName)

def getContents (file : FilePtr) : M (List UInt8) :=
  perform (.get file .contents)

def getSize (file : FilePtr) : M ℕ :=
  perform (.get file .size)

def getFdLock (file : FilePtr) : M ℤ :=
  perform (.get file .fdLock)

def getFdOpen (file : FilePtr) : M HashTblPtr :=
  perform (.get file .fdOpen)

def getLastUse (file : FilePtr) : M Timespec :=
  perform (.get file .lastUse)

def getCreationTime (file : FilePtr) : M Timespec :=
  perform (.get file .creationTime)

def getCanBeExpelled (file : FilePtr) : M Bool :=
  perform (.get file .canBeExpelled)

def set (file : FilePtr) (fld : Field) (v : fld.Ty) : M Unit :=
  perform (.set file fld v)

def fileReaderLock (file : FilePtr) : M Unit :=
  perform (.fileReaderLock file)

def fileReaderUnlock (file : FilePtr) : M Unit :=
  perform (.fileReaderUnlock file)

def fileWriterLock (file : FilePtr) : M Unit :=
  perform (.fileWriterLock file)

def fileWriterUnlock (file : FilePtr) : M Unit :=
  perform (.fileWriterUnlock file)

def undefined : M Unit :=
  perform .undefined

/-! ## The discipline of the locks -/

namespace Store

/-- The file at an address is locked for writing. -/
def writing (s : Store) (p : FilePtr) : Bool :=
  (s.heap p).any fun file => 0 < file.nWriters

/-- The file at an address is locked for reading. -/
def reading (s : Store) (p : FilePtr) : Bool :=
  (s.heap p).any fun file => 0 < file.nReaders

end Store

/-- When an operation keeps to the discipline of the locks. -/
def guard : Op → World → Bool
  | .set _ .pathName _, _ => false
  | .set p .contents _, (_, s) => s.writing p
  | .set p .size _, (_, s) => s.writing p
  | .fileDelete p, (_, s) => s.writing p
  | .fileWriterUnlock p, (_, s) => s.writing p
  | .fileReaderUnlock p, (_, s) => s.reading p
  | .hashmapRemove key, (_, s) => (hashmapGetByKey s.files key).all s.writing
  | _, _ => true

/-- `exec`, undefined outside the discipline of the locks. -/
def safeExec : Sem Op Ans World :=
  Prog.checked (fun o w => guard o w = true) exec

/-- What a run that keeps to the discipline of the locks returns. -/
theorem post_of_safe {α : Type} {p : M α} {Q : α → World → Prop} {w w' : World} {a : α}
    (h : Prog.wp safeExec p Q w) (hr : Prog.run exec p w = .ok (a, w')) : Q a w' :=
  Prog.post_of_run (Prog.wp_of_checked h) hr

/-! ## The store after an assignment -/

namespace Store

variable (s : Store) (p q : FilePtr) (f g : File) (m : Mutex) (b : Bool) (st : ServerState)
  (files : HashMap FilePtr)

@[simp] theorem heap_put_self : (s.put p f).heap p = some f :=
  Function.update_self ..

theorem heap_put : (s.put p f).heap q = if q = p then some f else s.heap q :=
  Function.update_apply ..

@[simp] theorem heap_put_of_ne {q : FilePtr} (h : q ≠ p) : (s.put p f).heap q = s.heap q :=
  Function.update_of_ne h ..

theorem heap_delete : (s.delete p).heap q = if q = p then none else s.heap q :=
  Function.update_apply ..

@[simp] theorem put_put : (s.put p f).put p g = s.put p g := by
  simp [put]

theorem put_comm {q : FilePtr} (h : p ≠ q) : (s.put p f).put q g = (s.put q g).put p f := by
  simp only [put, Function.update_comm h]

@[simp] theorem put_self {s : Store} {p : FilePtr} {f : File} (h : s.heap p = some f) :
    s.put p f = s := by
  simp [put, ← h]

@[simp] theorem files_put : (s.put p f).files = s.files := rfl
@[simp] theorem currState_put : (s.put p f).currState = s.currState := rfl
@[simp] theorem fresh_put : (s.put p f).fresh = s.fresh := rfl
@[simp] theorem locked_put : (s.put p f).locked m = s.locked m := by cases m <;> rfl

@[simp] theorem files_delete : (s.delete p).files = s.files := rfl
@[simp] theorem currState_delete : (s.delete p).currState = s.currState := rfl
@[simp] theorem fresh_delete : (s.delete p).fresh = s.fresh := rfl
@[simp] theorem locked_delete : (s.delete p).locked m = s.locked m := by cases m <;> rfl

@[simp] theorem heap_setState : (s.setState st).heap = s.heap := rfl
@[simp] theorem files_setState : (s.setState st).files = s.files := rfl
@[simp] theorem currState_setState : (s.setState st).currState = st := rfl
@[simp] theorem fresh_setState : (s.setState st).fresh = s.fresh := rfl
@[simp] theorem locked_setState : (s.setState st).locked m = s.locked m := by cases m <;> rfl
@[simp] theorem setState_setState (st' : ServerState) :
    (s.setState st).setState st' = s.setState st' := rfl
@[simp] theorem setState_put : (s.put p f).setState st = (s.setState st).put p f := rfl
@[simp] theorem setState_delete : (s.delete p).setState st = (s.setState st).delete p := rfl

@[simp] theorem heap_setFiles : (s.setFiles files).heap = s.heap := rfl
@[simp] theorem files_setFiles : (s.setFiles files).files = files := rfl
@[simp] theorem currState_setFiles : (s.setFiles files).currState = s.currState := rfl
@[simp] theorem fresh_setFiles : (s.setFiles files).fresh = s.fresh := rfl
@[simp] theorem locked_setFiles : (s.setFiles files).locked m = s.locked m := by cases m <;> rfl
@[simp] theorem setFiles_put : (s.put p f).setFiles files = (s.setFiles files).put p f := rfl
@[simp] theorem setFiles_setState :
    (s.setState st).setFiles files = (s.setFiles files).setState st := rfl

@[simp] theorem heap_setLocked : (s.setLocked b m).heap = s.heap := by cases m <;> rfl
@[simp] theorem files_setLocked : (s.setLocked b m).files = s.files := by cases m <;> rfl
@[simp] theorem currState_setLocked : (s.setLocked b m).currState = s.currState := by
  cases m <;> rfl
@[simp] theorem fresh_setLocked : (s.setLocked b m).fresh = s.fresh := by cases m <;> rfl
@[simp] theorem locked_setLocked_self : (s.setLocked b m).locked m = b := by cases m <;> rfl
@[simp] theorem currState_locked_setLocked_files :
    (s.setLocked b .files).locked .currState = s.locked .currState := rfl
@[simp] theorem files_locked_setLocked_currState :
    (s.setLocked b .currState).locked .files = s.locked .files := rfl
@[simp] theorem setLocked_setLocked_self (b' : Bool) :
    (s.setLocked b m).setLocked b' m = s.setLocked b' m := by cases m <;> rfl
@[simp] theorem setLocked_currState_setLocked_files (b' : Bool) :
    (s.setLocked b .currState).setLocked b' .files =
      (s.setLocked b' .files).setLocked b .currState :=
  rfl
@[simp] theorem setLocked_put : (s.put p f).setLocked b m = (s.setLocked b m).put p f := by
  cases m <;> rfl
@[simp] theorem setLocked_delete :
    (s.delete p).setLocked b m = (s.setLocked b m).delete p := by cases m <;> rfl
@[simp] theorem setLocked_setState :
    (s.setState st).setLocked b m = (s.setLocked b m).setState st := by cases m <;> rfl
@[simp] theorem setLocked_setFiles :
    (s.setFiles files).setLocked b m = (s.setLocked b m).setFiles files := by cases m <;> rfl
@[simp] theorem setLocked_alloc :
    (s.alloc f).setLocked b m = (s.setLocked b m).alloc f := by cases m <;> rfl
@[simp] theorem heap_alloc_self {p : FilePtr} (h : p = s.fresh) : (s.alloc f).heap p = some f := by
  subst h
  exact Function.update_self ..

theorem heap_alloc_of_ne {q : FilePtr} (h : q ≠ s.fresh) : (s.alloc f).heap q = s.heap q :=
  Function.update_of_ne h ..

@[simp] theorem alloc_put_self {p : FilePtr} (h : p = s.fresh) :
    (s.alloc f).put p g = s.alloc g := by
  subst h
  simp [alloc, put]

@[simp] theorem files_alloc : (s.alloc f).files = s.files := rfl
@[simp] theorem currState_alloc : (s.alloc f).currState = s.currState := rfl
@[simp] theorem locked_alloc : (s.alloc f).locked m = s.locked m := by cases m <;> rfl
@[simp] theorem setState_alloc : (s.alloc f).setState st = (s.setState st).alloc f := rfl
@[simp] theorem setFiles_alloc : (s.alloc f).setFiles files = (s.setFiles files).alloc f := rfl
@[simp] theorem setLocked_eq_self {s : Store} {m : Mutex} {b : Bool} (h : s.locked m = b) :
    s.setLocked b m = s := by
  subst h
  cases m <;> rfl

@[simp] theorem writing_put_self : (s.put p f).writing p = decide (0 < f.nWriters) := by
  simp [writing]

@[simp] theorem writing_alloc_self {p : FilePtr} (h : p = s.fresh) :
    (s.alloc f).writing p = decide (0 < f.nWriters) := by
  simp [writing, h]

@[simp] theorem reading_put_self : (s.put p f).reading p = decide (0 < f.nReaders) := by
  simp [reading]

end Store

/-! ## Rules -/

section Rules

variable {p : FilePtr} {l : Local} {s : Store}

theorem safe_perform (o : Op) (Q : Ans o → World → Prop) (w : World) :
    Prog.wp safeExec (perform o) Q w ↔ guard o w = true ∧ (exec o w).Sat fun r => Q r.1 r.2 := by
  rw [perform, Prog.wp_perform, safeExec, Prog.checked_sat]

/-- The rule of an operation that returns. -/
theorem safe_of_ok (o : Op) {w w' : World} {a : Ans o} (hg : guard o w = true)
    (he : exec o w = .ok (a, w')) (Q : Ans o → World → Prop) :
    Prog.wp safeExec (perform o) Q w ↔ Q a w' := by
  rw [safe_perform, he, Res.sat_ok]
  exact and_iff_right hg

/-- The rule of an access to a file. -/
theorem safe_of_withFile (o : Op) {f : File → Res (Ans o × World)}
    (he : exec o (l, s) = withFile (l, s) p f) (Q : Ans o → World → Prop) :
    Prog.wp safeExec (perform o) Q (l, s) ↔
      ∃ file, s.heap p = some file ∧ guard o (l, s) = true ∧ (f file).Sat fun r => Q r.1 r.2 := by
  rw [safe_perform, he, withFile]
  cases s.heap p <;> simp

@[simp] theorem safe_readn (size : ℕ) (Q : ℤ × List UInt8 → World → Prop) :
    Prog.wp safeExec (readn size) Q (l, s) ↔
      (l.inp.readn size).Sat fun r => Q r.1 ({ l with inp := r.2 }, s) := by
  refine (safe_perform (.readn size) Q _).trans ((and_iff_right rfl).trans ?_)
  exact Res.sat_bind

@[simp] theorem safe_writen (bytes : List UInt8) (Q : ℤ → World → Prop) :
    Prog.wp safeExec (writen bytes) Q (l, s) ↔ Q (l.writen bytes).1 ((l.writen bytes).2, s) :=
  safe_of_ok (.writen bytes) rfl rfl Q

@[simp] theorem safe_clockGettime (Q : Timespec → World → Prop) :
    Prog.wp safeExec clockGettime Q (l, s) ↔
      ∀ t rest, l.clock = t :: rest → Q t ({ l with clock := rest }, s) := by
  refine (safe_perform .clockGettime Q _).trans ((and_iff_right rfl).trans ?_)
  obtain ⟨inp, sends, clock, malloc, uninit, out, log⟩ := l
  cases clock with
  | nil => exact iff_of_true trivial fun _ _ h => by cases h
  | cons t rest => exact ⟨fun h _ _ he => by cases he; exact h, fun h => h t rest rfl⟩

@[simp] theorem safe_safeMalloc (size : ℕ) (Q : Unit → World → Prop) :
    Prog.wp safeExec (safeMalloc size) Q (l, s) ↔
      (l.malloc (.safe size) = true → Q () (l, s)) := by
  refine (safe_perform (.safeMalloc size) Q _).trans ((and_iff_right rfl).trans ?_)
  change (if l.malloc (.safe size) = true then _ else _ : Res _).Sat _ ↔ _
  split <;> simp_all

@[simp] theorem safe_malloc (a : Allocation) (Q : Bool → World → Prop) :
    Prog.wp safeExec (malloc a) Q (l, s) ↔ Q (l.malloc a) (l, s) :=
  safe_of_ok (.malloc a) rfl rfl Q

@[simp] theorem safe_exit (Q : Unit → World → Prop) : Prog.wp safeExec exit Q (l, s) :=
  (safe_perform .exit Q _).2 ⟨rfl, trivial⟩

@[simp] theorem safe_uninit (Q : ℤ → World → Prop) :
    Prog.wp safeExec uninit Q (l, s) ↔ Q l.uninit (l, s) :=
  safe_of_ok .uninit rfl rfl Q

@[simp] theorem safe_logger (line : LogLine) (Q : Unit → World → Prop) :
    Prog.wp safeExec (logger line) Q (l, s) ↔ Q () ({ l with log := l.log ++ [line] }, s) :=
  safe_of_ok (.logger line) rfl rfl Q

@[simp] theorem safe_mutexLock (m : Mutex) (Q : Unit → World → Prop) :
    Prog.wp safeExec (mutexLock m) Q (l, s) ↔
      (s.locked m = false → Q () (l, s.setLocked true m)) := by
  refine (safe_perform (.mutexLock m) Q _).trans ((and_iff_right rfl).trans ?_)
  change (if s.locked m = true then _ else _ : Res _).Sat _ ↔ _
  split <;> simp_all

@[simp] theorem safe_mutexUnlock (m : Mutex) (Q : Unit → World → Prop) :
    Prog.wp safeExec (mutexUnlock m) Q (l, s) ↔ Q () (l, s.setLocked false m) :=
  safe_of_ok (.mutexUnlock m) rfl rfl Q

@[simp] theorem safe_getState (Q : ServerState → World → Prop) :
    Prog.wp safeExec getState Q (l, s) ↔ Q s.currState (l, s) :=
  safe_of_ok .getState rfl rfl Q

@[simp] theorem safe_setState (st : ServerState) (Q : Unit → World → Prop) :
    Prog.wp safeExec (setState st) Q (l, s) ↔ Q () (l, s.setState st) :=
  safe_of_ok (.setState st) rfl rfl Q

@[simp] theorem safe_filesContains (key : CString) (Q : Bool → World → Prop) :
    Prog.wp safeExec (filesContains key) Q (l, s) ↔ Q (hashmapContains s.files key) (l, s) :=
  safe_of_ok (.hashmapContains key) rfl rfl Q

@[simp] theorem safe_filesGetByKey (key : CString) (Q : Option FilePtr → World → Prop) :
    Prog.wp safeExec (filesGetByKey key) Q (l, s) ↔ Q (hashmapGetByKey s.files key) (l, s) :=
  safe_of_ok (.hashmapGetByKey key) rfl rfl Q

@[simp] theorem safe_filesInsert (key : CString) (file : FilePtr) (Q : ℤ → World → Prop) :
    Prog.wp safeExec (filesInsert key file) Q (l, s) ↔
      Q (hashmapInsert (filesGranted l.malloc) s.files key file).1
        (l, s.setFiles (hashmapInsert (filesGranted l.malloc) s.files key file).2) :=
  safe_of_ok (.hashmapInsert key file) rfl rfl Q

@[simp] theorem safe_filesRemove (key : CString) (Q : Option FilePtr → World → Prop) :
    Prog.wp safeExec (filesRemove key) Q (l, s) ↔
      (hashmapGetByKey s.files key).all s.writing = true ∧
        Q (hashmapRemove s.files key).1 (l, s.setFiles (hashmapRemove s.files key).2) :=
  safe_perform (.hashmapRemove key) Q (l, s)

@[simp] theorem safe_filesIter (Q : List FilePtr → World → Prop) :
    Prog.wp safeExec filesIter Q (l, s) ↔ Q (s.files.entries.map Prod.snd) (l, s) :=
  safe_of_ok .hashmapIter rfl rfl Q

@[simp] theorem safe_filesNelem (Q : ℕ → World → Prop) :
    Prog.wp safeExec filesNelem Q (l, s) ↔ Q s.files.nelem (l, s) :=
  safe_of_ok .hashmapNelem rfl rfl Q

@[simp] theorem safe_fileNew (file : File) (Q : FilePtr → World → Prop) :
    Prog.wp safeExec (fileNew file) Q (l, s) ↔ Q s.fresh (l, s.alloc file) :=
  safe_of_ok (.fileNew file) rfl rfl Q

@[simp] theorem safe_undefined (Q : Unit → World → Prop) :
    ¬Prog.wp safeExec undefined Q (l, s) :=
  id

theorem safe_get (fld : Field) (Q : fld.Ty → World → Prop) :
    Prog.wp safeExec (perform (.get p fld)) Q (l, s) ↔
      ∃ file, s.heap p = some file ∧ Q (file.get fld) (l, s) := by
  refine (safe_of_withFile (.get p fld) rfl Q).trans
    (exists_congr fun file => and_congr_right fun _ => ?_)
  exact and_iff_right rfl

theorem safe_set (fld : Field) (v : fld.Ty) (Q : Unit → World → Prop) :
    Prog.wp safeExec (set p fld v) Q (l, s) ↔
      ∃ file, s.heap p = some file ∧ guard (.set p fld v) (l, s) = true ∧
        Q () (l, s.put p (file.set fld v)) :=
  safe_of_withFile (.set p fld v) rfl Q

@[simp] theorem safe_getPathName (Q : CString → World → Prop) :
    Prog.wp safeExec (getPathName p) Q (l, s) ↔
      ∃ file, s.heap p = some file ∧ Q file.pathName (l, s) :=
  safe_get .pathName Q

@[simp] theorem safe_getContents (Q : List UInt8 → World → Prop) :
    Prog.wp safeExec (getContents p) Q (l, s) ↔
      ∃ file, s.heap p = some file ∧ Q file.contents (l, s) :=
  safe_get .contents Q

@[simp] theorem safe_getSize (Q : ℕ → World → Prop) :
    Prog.wp safeExec (getSize p) Q (l, s) ↔
      ∃ file, s.heap p = some file ∧ Q file.size (l, s) :=
  safe_get .size Q

@[simp] theorem safe_getFdLock (Q : ℤ → World → Prop) :
    Prog.wp safeExec (getFdLock p) Q (l, s) ↔
      ∃ file, s.heap p = some file ∧ Q file.fdLock (l, s) :=
  safe_get .fdLock Q

@[simp] theorem safe_getFdOpen (Q : HashTblPtr → World → Prop) :
    Prog.wp safeExec (getFdOpen p) Q (l, s) ↔
      ∃ file, s.heap p = some file ∧ Q file.fdOpen (l, s) :=
  safe_get .fdOpen Q

@[simp] theorem safe_getLastUse (Q : Timespec → World → Prop) :
    Prog.wp safeExec (getLastUse p) Q (l, s) ↔
      ∃ file, s.heap p = some file ∧ Q file.lastUse (l, s) :=
  safe_get .lastUse Q

@[simp] theorem safe_getCreationTime (Q : Timespec → World → Prop) :
    Prog.wp safeExec (getCreationTime p) Q (l, s) ↔
      ∃ file, s.heap p = some file ∧ Q file.creationTime (l, s) :=
  safe_get .creationTime Q

@[simp] theorem safe_getCanBeExpelled (Q : Bool → World → Prop) :
    Prog.wp safeExec (getCanBeExpelled p) Q (l, s) ↔
      ∃ file, s.heap p = some file ∧ Q file.canBeExpelled (l, s) :=
  safe_get .canBeExpelled Q

@[simp] theorem safe_set_contents (v : List UInt8) (Q : Unit → World → Prop) :
    Prog.wp safeExec (set p .contents v) Q (l, s) ↔
      ∃ file, s.heap p = some file ∧ s.writing p = true ∧
        Q () (l, s.put p { file with contents := v }) :=
  safe_set .contents v Q

@[simp] theorem safe_set_size (v : ℕ) (Q : Unit → World → Prop) :
    Prog.wp safeExec (set p .size v) Q (l, s) ↔
      ∃ file, s.heap p = some file ∧ s.writing p = true ∧
        Q () (l, s.put p { file with size := v }) :=
  safe_set .size v Q

@[simp] theorem safe_set_fdLock (v : ℤ) (Q : Unit → World → Prop) :
    Prog.wp safeExec (set p .fdLock v) Q (l, s) ↔
      ∃ file, s.heap p = some file ∧ Q () (l, s.put p { file with fdLock := v }) :=
  (safe_set .fdLock v Q).trans (exists_congr fun _ => and_congr_right fun _ => and_iff_right rfl)

@[simp] theorem safe_set_fdOpen (v : HashTblPtr) (Q : Unit → World → Prop) :
    Prog.wp safeExec (set p .fdOpen v) Q (l, s) ↔
      ∃ file, s.heap p = some file ∧ Q () (l, s.put p { file with fdOpen := v }) :=
  (safe_set .fdOpen v Q).trans (exists_congr fun _ => and_congr_right fun _ => and_iff_right rfl)

@[simp] theorem safe_set_lastUse (v : Timespec) (Q : Unit → World → Prop) :
    Prog.wp safeExec (set p .lastUse v) Q (l, s) ↔
      ∃ file, s.heap p = some file ∧ Q () (l, s.put p { file with lastUse := v }) :=
  (safe_set .lastUse v Q).trans (exists_congr fun _ => and_congr_right fun _ => and_iff_right rfl)

@[simp] theorem safe_set_creationTime (v : Timespec) (Q : Unit → World → Prop) :
    Prog.wp safeExec (set p .creationTime v) Q (l, s) ↔
      ∃ file, s.heap p = some file ∧ Q () (l, s.put p { file with creationTime := v }) :=
  (safe_set .creationTime v Q).trans
    (exists_congr fun _ => and_congr_right fun _ => and_iff_right rfl)

@[simp] theorem safe_set_canBeExpelled (v : Bool) (Q : Unit → World → Prop) :
    Prog.wp safeExec (set p .canBeExpelled v) Q (l, s) ↔
      ∃ file, s.heap p = some file ∧ Q () (l, s.put p { file with canBeExpelled := v }) :=
  (safe_set .canBeExpelled v Q).trans
    (exists_congr fun _ => and_congr_right fun _ => and_iff_right rfl)

@[simp] theorem safe_fileDelete (Q : Unit → World → Prop) :
    Prog.wp safeExec (fileDelete p) Q (l, s) ↔
      ∃ file, s.heap p = some file ∧ s.writing p = true ∧ Q () (l, s.delete p) :=
  safe_of_withFile (.fileDelete p) rfl Q

@[simp] theorem safe_fileReaderLock (Q : Unit → World → Prop) :
    Prog.wp safeExec (fileReaderLock p) Q (l, s) ↔
      ∃ file, s.heap p = some file ∧ (file.nWriters = 0 →
        Q () (l, s.put p file.readLocked)) := by
  refine (safe_of_withFile (.fileReaderLock p) rfl Q).trans
    (exists_congr fun file => and_congr_right fun _ => ?_)
  refine (and_iff_right rfl).trans ?_
  split <;> simp_all [Nat.pos_iff_ne_zero]

@[simp] theorem safe_fileReaderUnlock (Q : Unit → World → Prop) :
    Prog.wp safeExec (fileReaderUnlock p) Q (l, s) ↔
      ∃ file, s.heap p = some file ∧ s.reading p = true ∧
        Q () (l, s.put p file.readUnlocked) :=
  safe_of_withFile (.fileReaderUnlock p) rfl Q

@[simp] theorem safe_fileWriterLock (Q : Unit → World → Prop) :
    Prog.wp safeExec (fileWriterLock p) Q (l, s) ↔
      ∃ file, s.heap p = some file ∧ (file.nWriters = 0 → file.nReaders = 0 →
        Q () (l, s.put p file.writeLocked)) := by
  refine (safe_of_withFile (.fileWriterLock p) rfl Q).trans
    (exists_congr fun file => and_congr_right fun _ => ?_)
  refine (and_iff_right rfl).trans ?_
  split
  · exact iff_of_true trivial fun h₁ h₂ => by omega
  · exact ⟨fun h _ _ => h, fun h => h (by omega) (by omega)⟩

@[simp] theorem safe_fileWriterUnlock (Q : Unit → World → Prop) :
    Prog.wp safeExec (fileWriterUnlock p) Q (l, s) ↔
      ∃ file, s.heap p = some file ∧ s.writing p = true ∧
        Q () (l, s.put p file.writeUnlocked) :=
  safe_of_withFile (.fileWriterUnlock p) rfl Q

/-- The lock of a file taken for writing. -/
theorem safe_fileWriterLock_of {f : File} (h : s.heap p = some f) {Q : Unit → World → Prop}
    (hQ : f.nWriters = 0 → f.nReaders = 0 → Q () (l, s.put p f.writeLocked)) :
    Prog.wp safeExec (fileWriterLock p) Q (l, s) :=
  (safe_fileWriterLock Q).2 ⟨f, h, hQ⟩

/-- The lock of a file released by its writer. -/
theorem safe_fileWriterUnlock_of {f : File} (h : s.heap p = some f) (hw : 0 < f.nWriters)
    {Q : Unit → World → Prop} (hQ : Q () (l, s.put p f.writeUnlocked)) :
    Prog.wp safeExec (fileWriterUnlock p) Q (l, s) :=
  (safe_fileWriterUnlock Q).2 ⟨f, h, by simp [Store.writing, h, hw], hQ⟩

/-- The lock of a file taken for reading. -/
theorem safe_fileReaderLock_of {f : File} (h : s.heap p = some f) {Q : Unit → World → Prop}
    (hQ : f.nWriters = 0 → Q () (l, s.put p f.readLocked)) :
    Prog.wp safeExec (fileReaderLock p) Q (l, s) :=
  (safe_fileReaderLock Q).2 ⟨f, h, hQ⟩

/-- The lock of a file released by a reader. -/
theorem safe_fileReaderUnlock_of {f : File} (h : s.heap p = some f) (hr : 0 < f.nReaders)
    {Q : Unit → World → Prop} (hQ : Q () (l, s.put p f.readUnlocked)) :
    Prog.wp safeExec (fileReaderUnlock p) Q (l, s) :=
  (safe_fileReaderUnlock Q).2 ⟨f, h, by simp [Store.reading, h, hr], hQ⟩

/-- A file deleted by its writer. -/
theorem safe_fileDelete_of {f : File} (h : s.heap p = some f) (hw : 0 < f.nWriters)
    {Q : Unit → World → Prop} (hQ : Q () (l, s.delete p)) :
    Prog.wp safeExec (fileDelete p) Q (l, s) :=
  (safe_fileDelete Q).2 ⟨f, h, by simp [Store.writing, h, hw], hQ⟩

end Rules

end StorageServer
