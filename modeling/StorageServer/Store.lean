import StorageServer.HashTable

/-!
# The store and the operations on it

The memory that the threads of the server share is a `Store` : the `file_t` objects, the
map `files` from paths to them, the counters of `curr_state` and the two global mutexes.
What one request has to itself is a `Local` : the bytes its client sends, how its sends
end, the readings of the clock it takes, which of its allocations are granted, and what
it has sent and logged. A path that is logged is read through the pointer to it.

A handler is a program over the operations `Op`. Each is one access of the source : a
field of a `file_t` read or written, a call on the map, a lock taken or released, a
`readn`, a `writen`. `exec` says what each does. An access to an object that does not
exist is undefined (`Res.fault`); a lock that is taken waits (`Res.blocked`); an
allocation that `safe_malloc` is refused and a failing clock end the process
(`Res.halt`). What a refused `malloc` does is up to the handler, which is told.

`n_readers` and `n_writers` count threads and are natural numbers.
-/

open Programs

namespace StorageServer

/-! ## Data -/

/-- `policy_t`. -/
inductive Policy
  | LRU
  | FIFO
  deriving DecidableEq, Repr

/-- What the handlers use of `server_config_t`. -/
structure ServerConfig where
  maxSpace : ℕ
  maxFiles : ℕ
  policy : Policy
  maxSpace_lt : maxSpace < 2 ^ 64
  maxFiles_lt : maxFiles < 2 ^ 32

/-- `server_state_t`, without the connection counters, which only the main thread uses. -/
structure ServerState where
  files : ℕ
  space : ℕ
  noLRU : ℕ
  maxFiles : ℕ
  maxSpace : ℕ
  deriving DecidableEq, Repr

/-- `struct timespec`. -/
structure Timespec where
  tvSec : ℤ
  tvNsec : ℤ
  deriving DecidableEq, Repr

/-- `file_t`, without the mutexes and the condition variable behind the two counters. -/
structure File where
  pathName : CString
  contents : List UInt8
  size : ℕ
  fdLock : ℤ
  fdOpen : HashTblPtr
  nReaders : ℕ
  nWriters : ℕ
  creationTime : Timespec
  lastUse : Timespec
  canBeExpelled : Bool

/-- A `file_t*`. -/
abbrev FilePtr := ℕ

/-- The fields of a `file_t` that the handlers access by name. -/
inductive Field
  | pathName
  | contents
  | size
  | fdLock
  | fdOpen
  | creationTime
  | lastUse
  | canBeExpelled
  deriving DecidableEq, Repr

/-- The type of a field. -/
@[reducible] def Field.Ty : Field → Type
  | pathName => CString
  | contents => List UInt8
  | size => ℕ
  | fdLock => ℤ
  | fdOpen => HashTblPtr
  | creationTime => Timespec
  | lastUse => Timespec
  | canBeExpelled => Bool

/-- `file->fld`. -/
def File.get (file : File) : (fld : Field) → fld.Ty
  | .pathName => file.pathName
  | .contents => file.contents
  | .size => file.size
  | .fdLock => file.fdLock
  | .fdOpen => file.fdOpen
  | .creationTime => file.creationTime
  | .lastUse => file.lastUse
  | .canBeExpelled => file.canBeExpelled

/-- `file->fld = v`. -/
def File.set (file : File) : (fld : Field) → fld.Ty → File
  | .pathName, v => { file with pathName := v }
  | .contents, v => { file with contents := v }
  | .size, v => { file with size := v }
  | .fdLock, v => { file with fdLock := v }
  | .fdOpen, v => { file with fdOpen := v }
  | .creationTime, v => { file with creationTime := v }
  | .lastUse, v => { file with lastUse := v }
  | .canBeExpelled, v => { file with canBeExpelled := v }

namespace File

/-- The file with one more reader. -/
@[simps] def readLocked (file : File) : File :=
  { file with nReaders := file.nReaders + 1 }

/-- The file with one reader less. -/
@[simps] def readUnlocked (file : File) : File :=
  { file with nReaders := file.nReaders - 1 }

/-- The file with one more writer. -/
@[simps] def writeLocked (file : File) : File :=
  { file with nWriters := file.nWriters + 1 }

/-- The file with one writer less. -/
@[simps] def writeUnlocked (file : File) : File :=
  { file with nWriters := file.nWriters - 1 }

@[simp] theorem readUnlocked_readLocked (file : File) : file.readLocked.readUnlocked = file := rfl
@[simp] theorem writeUnlocked_writeLocked (file : File) : file.writeLocked.writeUnlocked = file :=
  rfl

end File

/-- The two global mutexes that the handlers lock. -/
inductive Mutex
  /-- `files_mtx`. -/
  | files
  /-- `curr_state_mtx`. -/
  | currState
  deriving DecidableEq, Repr

/-- The memory shared by the threads. -/
structure Store where
  /-- `files`. -/
  files : HashMap FilePtr
  /-- The `file_t` objects that have been allocated and not deleted. -/
  heap : FilePtr → Option File
  /-- The address of the next object. -/
  fresh : FilePtr
  /-- `curr_state`. -/
  currState : ServerState
  /-- `files_mtx` is locked. -/
  filesMtx : Bool
  /-- `curr_state_mtx` is locked. -/
  currStateMtx : Bool

/-- The lines of the log that report the counters, and those that print the path of a
file object. -/
inductive LogLine
  /-- `[CURRENT_FILES] n`. -/
  | currentFiles (n : ℕ)
  /-- `[CURRENT_SPACE] n`. -/
  | currentSpace (n : ℕ)
  /-- A line that prints a `path_name`. -/
  | path (pathName : CString)
  deriving DecidableEq, Repr

/-- The allocations of a request. -/
inductive Allocation
  /-- `safe_malloc`, `safe_calloc` and `safe_realloc` of this size. -/
  | safe (size : ℕ)
  /-- The list of `empty_list`. -/
  | list
  /-- The node with which `list_push_back` makes this the `i`-th object of that list. -/
  | listNode (i : ℕ)
  /-- The `hashtbl_t` of `hashtbl_init`. -/
  | hashtbl
  /-- The array of lists of `hashtbl_init`, and the lists. -/
  | hashtblLists
  /-- All that `hashtbl_expand` allocates. -/
  | hashtblExpand
  /-- The node of `hashtbl_insert`. -/
  | hashtblNode
  /-- All that `hashmap_expand` allocates. -/
  | hashmapExpand
  /-- The node of `hashmap_insert`. -/
  | hashmapNode
  deriving DecidableEq, Repr

/-- Every allocation is granted. -/
abbrev allGranted : Allocation → Bool :=
  fun _ => true

/-- What a request has to itself. -/
structure Local where
  /-- What the client sends. -/
  inp : Stream
  /-- How the coming sends end; the sends after the last of these succeed. -/
  sends : List SendRes
  /-- The coming readings of the clock; after the last of these the clock fails. -/
  clock : List Timespec
  /-- Whether an allocation is granted. -/
  malloc : Allocation → Bool
  /-- What an uninitialised variable holds. -/
  uninit : ℤ
  /-- The bytes sent to the client. -/
  out : List UInt8
  /-- The lines logged. -/
  log : List LogLine

/-! ## Operations -/

/-- The operations of the handlers. -/
inductive Op
  | readn (size : ℕ)
  | writen (bytes : List UInt8)
  | clockGettime
  | safeMalloc (size : ℕ)
  /-- A `malloc` whose caller goes on if it is refused. -/
  | malloc (a : Allocation)
  /-- `exit`. -/
  | exit
  | uninit
  | logger (line : LogLine)
  | mutexLock (m : Mutex)
  | mutexUnlock (m : Mutex)
  | getState
  | setState (st : ServerState)
  | hashmapContains (key : CString)
  | hashmapGetByKey (key : CString)
  | hashmapInsert (key : CString) (file : FilePtr)
  | hashmapRemove (key : CString)
  /-- The file objects in the order of an iteration over `files`. -/
  | hashmapIter
  | hashmapNelem
  /-- The allocation of a `file_t` and the assignments that initialise it. -/
  | fileNew (file : File)
  | fileDelete (file : FilePtr)
  | get (file : FilePtr) (fld : Field)
  | set (file : FilePtr) (fld : Field) (v : fld.Ty)
  | fileReaderLock (file : FilePtr)
  | fileReaderUnlock (file : FilePtr)
  | fileWriterLock (file : FilePtr)
  | fileWriterUnlock (file : FilePtr)
  /-- The use of a null or uninitialised pointer, or of an index outside an array. -/
  | undefined

/-- The answer to an operation. -/
@[reducible] def Ans : Op → Type
  | .readn _ => ℤ × List UInt8
  | .writen _ => ℤ
  | .clockGettime => Timespec
  | .malloc _ => Bool
  | .uninit => ℤ
  | .getState => ServerState
  | .hashmapContains _ => Bool
  | .hashmapGetByKey _ => Option FilePtr
  | .hashmapInsert _ _ => ℤ
  | .hashmapRemove _ => Option FilePtr
  | .hashmapIter => List FilePtr
  | .hashmapNelem => ℕ
  | .fileNew _ => FilePtr
  | .get _ fld => fld.Ty
  | _ => Unit

/-- A request's own state and the shared memory. -/
abbrev World := Local × Store

/-- The memory for an insertion into `files`. -/
def filesGranted (malloc : Allocation → Bool) : Granted :=
  ⟨malloc .hashmapExpand, malloc .hashmapNode⟩

/-- The memory for an insertion into `fd_open`. -/
def openersGranted (malloc : Allocation → Bool) : Granted :=
  ⟨malloc .hashtblExpand, malloc .hashtblNode⟩

namespace Store

/-- Whether the mutex is locked. -/
def locked (s : Store) : Mutex → Bool
  | .files => s.filesMtx
  | .currState => s.currStateMtx

/-- Lock or unlock the mutex. -/
def setLocked (s : Store) (b : Bool) : Mutex → Store
  | .files => { s with filesMtx := b }
  | .currState => { s with currStateMtx := b }

/-- Put a file object at an address. -/
def put (s : Store) (p : FilePtr) (file : File) : Store :=
  { s with heap := Function.update s.heap p (some file) }

/-- Delete the object at an address. -/
def delete (s : Store) (p : FilePtr) : Store :=
  { s with heap := Function.update s.heap p none }

/-- Assign to `curr_state`. -/
def setState (s : Store) (st : ServerState) : Store :=
  { s with currState := st }

/-- Assign to `files`. -/
def setFiles (s : Store) (files : HashMap FilePtr) : Store :=
  { s with files := files }

/-- Put a file object at the next address. -/
def alloc (s : Store) (file : File) : Store :=
  { s with heap := Function.update s.heap s.fresh (some file), fresh := s.fresh + 1 }

end Store

/-- One `writen` : nothing is written for an empty buffer. -/
def Local.writen (l : Local) (bytes : List UInt8) : ℤ × Local :=
  if bytes = [] then (1, l)
  else
    match l.sends with
    | [] => (1, { l with out := l.out ++ bytes })
    | r :: rest => (r.code, { l with sends := rest, out := l.out ++ r.bytes bytes })

/-- Access a file object. -/
def withFile {β : Type} (w : World) (p : FilePtr) (f : File → Res (β × World)) :
    Res (β × World) :=
  match w.2.heap p with
  | some file => f file
  | none => .fault

/-- What each operation does. -/
def exec : Sem Op Ans World
  | .readn size, (l, s) => (l.inp.readn size).bind fun r => .ok (r.1, ({ l with inp := r.2 }, s))
  | .writen bytes, (l, s) => .ok ((l.writen bytes).1, ((l.writen bytes).2, s))
  | .clockGettime, (l, s) =>
    match l.clock with
    | t :: rest => .ok (t, ({ l with clock := rest }, s))
    | [] => .halt
  | .safeMalloc size, (l, s) => if l.malloc (.safe size) then .ok ((), (l, s)) else .halt
  | .malloc a, (l, s) => .ok (l.malloc a, (l, s))
  | .exit, _ => .halt
  | .uninit, (l, s) => .ok (l.uninit, (l, s))
  | .logger line, (l, s) => .ok ((), ({ l with log := l.log ++ [line] }, s))
  | .mutexLock m, (l, s) =>
    if s.locked m then .blocked else .ok ((), (l, s.setLocked true m))
  | .mutexUnlock m, (l, s) => .ok ((), (l, s.setLocked false m))
  | .getState, (l, s) => .ok (s.currState, (l, s))
  | .setState st, (l, s) => .ok ((), (l, s.setState st))
  | .hashmapContains key, (l, s) => .ok (StorageServer.hashmapContains s.files key, (l, s))
  | .hashmapGetByKey key, (l, s) => .ok (StorageServer.hashmapGetByKey s.files key, (l, s))
  | .hashmapInsert key file, (l, s) =>
    let r := StorageServer.hashmapInsert (filesGranted l.malloc) s.files key file
    .ok (r.1, (l, s.setFiles r.2))
  | .hashmapRemove key, (l, s) =>
    let r := StorageServer.hashmapRemove s.files key
    .ok (r.1, (l, s.setFiles r.2))
  | .hashmapIter, (l, s) => .ok (s.files.entries.map Prod.snd, (l, s))
  | .hashmapNelem, (l, s) => .ok (s.files.nelem, (l, s))
  | .fileNew file, (l, s) => .ok (s.fresh, (l, s.alloc file))
  | .fileDelete p, (l, s) => withFile (l, s) p fun _ => .ok ((), (l, s.delete p))
  | .get p fld, (l, s) => withFile (l, s) p fun file => .ok (file.get fld, (l, s))
  | .set p fld v, (l, s) => withFile (l, s) p fun file => .ok ((), (l, s.put p (file.set fld v)))
  | .fileReaderLock p, (l, s) => withFile (l, s) p fun file =>
    if file.nWriters > 0 then .blocked
    else .ok ((), (l, s.put p file.readLocked))
  | .fileReaderUnlock p, (l, s) => withFile (l, s) p fun file =>
    .ok ((), (l, s.put p file.readUnlocked))
  | .fileWriterLock p, (l, s) => withFile (l, s) p fun file =>
    if file.nWriters > 0 ∨ file.nReaders > 0 then .blocked
    else .ok ((), (l, s.put p file.writeLocked))
  | .fileWriterUnlock p, (l, s) => withFile (l, s) p fun file =>
    .ok ((), (l, s.put p file.writeUnlocked))
  | .undefined, _ => .fault

end StorageServer
