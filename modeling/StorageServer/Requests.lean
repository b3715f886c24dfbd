import StorageServer.Handlers

/-!
# The three parts of a handler

Every handler reads a request, works on the store, and replies. `readRequest` is the
first part of each of them and gives a `Request`; `storeSection` is the part between the
locking and the unlocking of `files_mtx`, as a program of the request; `finish` sends
what is left to send and gives back the files it was given. `handle_eq` puts the
handlers of the source together from the three.
-/

open Programs

namespace StorageServer

/-- The handlers that a worker calls. -/
inductive Handler
  | openFile
  | closeFile
  | writeFile
  | appendToFile
  | readFile
  | readNFiles
  | removeFile
  deriving DecidableEq, Repr

/-- The handler as a program. -/
def handle (cfg : ServerConfig) (fdClient : ℕ) : Handler → M Sa
  | .openFile => openFile cfg fdClient
  | .closeFile => closeFile fdClient
  | .writeFile => writeFile cfg fdClient
  | .appendToFile => appendToFile cfg fdClient
  | .readFile => readFile fdClient
  | .readNFiles => readNFiles
  | .removeFile => removeFile fdClient

/-- What a client asks for. -/
inductive Request
  | openFile (pathname : CString) (flags : ℤ)
  | closeFile (pathname : CString)
  | writeFile (pathname : CString) (size : ℤ) (buf : List UInt8)
  | appendToFile (pathname : CString) (size : ℕ) (buf : List UInt8)
  | readFile (pathname : CString)
  | readNFiles (N : ℤ)
  | removeFile (pathname : CString)
  deriving DecidableEq

/-- The first part of each handler. -/
def readRequest : Handler → M (Except Sa Request)
  | .openFile => return (← readOpenRequest).map fun r => .openFile r.1 r.2
  | .closeFile => return (← readPathname).map .closeFile
  | .writeFile => return (← readWriteRequest).map fun r => .writeFile r.1 r.2.1 r.2.2
  | .appendToFile => return (← readAppendRequest).map fun r => .appendToFile r.1 r.2.1 r.2.2
  | .readFile => return (← readPathname).map .readFile
  | .readNFiles => return (← readNRequest).map .readNFiles
  | .removeFile => return (← readPathname).map .removeFile

/-- What the last part of a handler is given. -/
inductive Reply
  /-- Nothing is left to do. -/
  | done
  /-- The created file, and the one expelled for it. -/
  | created (file : FilePtr) (expelled : Option FilePtr)
  /-- The expelled files, to be sent. -/
  | expelled (toExpell : List FilePtr)
  /-- The file to be sent, locked for reading. -/
  | reading (toSend : FilePtr)
  /-- The files to be sent with their paths, locked for reading. -/
  | readingN (fileList : List FilePtr)

/-- The reply to a code : no other than `SA_SUCCESS` goes on. -/
def Sa.toReply : Sa → Except Sa Reply
  | .success => .ok .done
  | code => .error code

/-- The part of the handlers under `files_mtx`. -/
def storeSection (cfg : ServerConfig) (fdClient : ℕ) : Request → M (Except Sa Reply)
  | .openFile pathname flags => do
    if isFlagSet flags oCreate then
      return (← openFileCreate cfg fdClient pathname flags).map fun r => .created r.1 r.2
    else
      return (← openFileExisting fdClient pathname flags).toReply
  | .closeFile pathname => return (← closeFileStore fdClient pathname).toReply
  | .writeFile pathname size buf =>
    return (← writeFileStore cfg fdClient pathname size buf).map .expelled
  | .appendToFile pathname size buf => do
    if size > 0 then
      return (← appendToFileStore cfg fdClient pathname size buf).map .expelled
    else
      return .ok (.expelled [])
  | .readFile pathname => return (← readFileStore fdClient pathname).map .reading
  | .readNFiles N => return (← readNFilesStore N).map .readingN
  | .removeFile pathname => return (← removeFileStore fdClient pathname).toReply

/-- The last part of the handlers. -/
def finish : Except Sa Reply → M Sa
  | .error code => return code
  | .ok .done => return .success
  | .ok (.created file expelled) => replyCreated file expelled
  | .ok (.expelled toExpell) => replyExpelled toExpell
  | .ok (.reading toSend) => replyReading toSend
  | .ok (.readingN fileList) => replyReadingN fileList

/-- A request, from its first access of the store on. -/
def serveRequest (cfg : ServerConfig) (fdClient : ℕ) (req : Request) : M Sa :=
  storeSection cfg fdClient req >>= finish

/-- A section that gives a code goes on to give it back. -/
theorem bind_toReply (p : M Sa) : (p >>= fun code => pure code.toReply) >>= finish = p := by
  have h : ∀ code : Sa, finish code.toReply = pure code := fun code => by cases code <;> rfl
  simp only [bind_assoc, pure_bind, h, bind_pure]

theorem bind_map_finish {α : Type} (p : M (Except Sa α)) {f : α → Reply} {k : Except Sa α → M Sa}
    (hk : ∀ r, k r = finish (r.map f)) : p >>= k = (p >>= fun r => pure (r.map f)) >>= finish := by
  rw [bind_assoc]
  exact bind_congr fun r => (hk r).trans (pure_bind ..).symm

/-- A handler reads a request and serves it. -/
theorem handle_eq (cfg : ServerConfig) (fdClient : ℕ) (h : Handler) :
    handle cfg fdClient h = readRequest h >>= fun r =>
      match r with
      | .error code => return code
      | .ok req => serveRequest cfg fdClient req := by
  cases h
  case openFile =>
    refine Eq.trans ?_ (bind_assoc ..).symm
    refine bind_congr fun r => ?_
    rcases r with code | ⟨pathname, flags⟩
    · rfl
    · change (if _ then _ else _) = (if _ then _ else _) >>= finish
      split
      · exact bind_map_finish _ fun r => by cases r <;> rfl
      · exact (bind_toReply _).symm
  case closeFile =>
    refine Eq.trans ?_ (bind_assoc ..).symm
    refine bind_congr fun r => ?_
    rcases r with code | pathname
    · rfl
    · exact (bind_toReply _).symm
  case writeFile =>
    refine Eq.trans ?_ (bind_assoc ..).symm
    refine bind_congr fun r => ?_
    rcases r with code | ⟨pathname, size, buf⟩
    · rfl
    · exact bind_map_finish _ fun r => by cases r <;> rfl
  case appendToFile =>
    refine Eq.trans ?_ (bind_assoc ..).symm
    refine bind_congr fun r => ?_
    rcases r with code | ⟨pathname, size, buf⟩
    · rfl
    · change (if _ then _ else _) = (if _ then _ else _) >>= finish
      split
      · exact bind_map_finish _ fun r => by cases r <;> rfl
      · rfl
  case readFile =>
    refine Eq.trans ?_ (bind_assoc ..).symm
    refine bind_congr fun r => ?_
    rcases r with code | pathname
    · rfl
    · exact bind_map_finish _ fun r => by cases r <;> rfl
  case readNFiles =>
    refine Eq.trans ?_ (bind_assoc ..).symm
    refine bind_congr fun r => ?_
    rcases r with code | N
    · rfl
    · exact bind_map_finish _ fun r => by cases r <;> rfl
  case removeFile =>
    refine Eq.trans ?_ (bind_assoc ..).symm
    refine bind_congr fun r => ?_
    rcases r with code | pathname
    · rfl
    · exact (bind_toReply _).symm

end StorageServer
