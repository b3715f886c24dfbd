import StorageServer.Worker

/-!
# The client side

The functions of the API, each in its two halves : what it writes to the socket, and how it
reads the reply. A `Client` is the state of the process that calls them; a function gives
`-1` with an `errno`, or the value it returns.

The two halves are separate because nothing is sent to a client before its whole request has
been read, and the API reads only after it has written everything.
-/

open Programs

namespace StorageServer.Api

/-! ## The state of a client -/

/-- The values of `errno` that the API sets. -/
inductive Errno
  | eexist
  | enoent
  | ebusy
  | eperm
  | efbig
  | enokey
  | eacces
  | enotrecoverable
  | ebade
  | eio
  | enotty
  | enotconn
  | enotempty
  | ecanceled
  | einval
  | eisconn
  | etimedout
  | enosys
  /-- What an earlier call has left. -/
  | other
  deriving DecidableEq, Repr

/-- `last_op_t`. -/
structure LastOp where
  isOpen : Bool
  create : Bool
  lock : Bool
  success : Bool
  path : CString
  deriving DecidableEq, Repr

/-- `RESET_LAST_OP`. -/
def LastOp.reset : LastOp :=
  ⟨false, false, false, false, []⟩

/-- A process that uses the API. -/
structure Client where
  /-- `fd_sock` is not `-1`. -/
  connected : Bool
  lastOp : LastOp
  /-- What the server sends. -/
  inp : Stream
  /-- How the coming sends end; the sends after the last of these succeed. -/
  sends : List SendRes
  /-- Whether an allocation is granted. -/
  malloc : Allocation → Bool
  /-- The bytes sent to the server. -/
  out : List UInt8

/-- Programs of a client. -/
abbrev ApiM := StateT Client Res

/-- `readn(fd_sock, buf, size)`. -/
def readn (size : ℕ) : ApiM (ℤ × List UInt8) := fun c =>
  (c.inp.readn size).bind fun r => .ok (r.1, { c with inp := r.2 })

/-- `writen(fd_sock, buf, size)`. -/
def writen (bytes : List UInt8) : ApiM ℤ := fun c =>
  if bytes = [] then .ok (1, c)
  else
    match c.sends with
    | [] => .ok (1, { c with out := c.out ++ bytes })
    | r :: rest => .ok (r.code, { c with sends := rest, out := c.out ++ r.bytes bytes })

/-- `safe_malloc` and `safe_calloc`. -/
def safeMalloc (size : ℕ) : ApiM Unit := fun c =>
  if c.malloc (.safe size) then .ok ((), c) else .halt

/-- A `malloc` whose caller goes on if it is refused. -/
def malloc (a : Allocation) : ApiM Bool := fun c => .ok (c.malloc a, c)

/-- Assign to `last_op`. -/
def setLastOp (op : LastOp) : ApiM Unit := fun c => .ok ((), { c with lastOp := op })

/-- The value and the number that a `readn` of an `int` stores. -/
def readnInt : ApiM (ℤ × ℤ) := do
  let (l, bytes) ← readn 4
  return (l, bytesInt bytes)

/-- `convert_res_to_errno`, for a result other than `SA_SUCCESS`. -/
def convertResToErrno (res : ℤ) : Errno :=
  if res = Sa.exists.code then .eexist
  else if res = Sa.noFile.code then .enoent
  else if res = Sa.alreadyLocked.code then .ebusy
  else if res = Sa.notLocked.code then .eperm
  else if res = Sa.tooBig.code then .efbig
  else if res = Sa.noOpen.code then .enokey
  else if res = Sa.notEmpty.code then .eacces
  else .enotrecoverable

/-- Whether `strncmp(a, b, n)` gives `0`. -/
def strncmpEq (a b : CString) (n : ℕ) : Bool :=
  a.take n = b.take n

/-! ## Requests -/

/-- Write the pieces of a request one after the other : whether no `writen` has failed. -/
def sendPieces : List (List UInt8) → ApiM Bool
  | [] => return true
  | bytes :: rest => do
    if (← writen bytes) = -1 then
      return false
    sendPieces rest

/-- The two pieces in which a path is sent : its length in an `int`, and the path with its
`NUL`. -/
def pathPieces (pathname : CString) : List (List UInt8) :=
  [intBytes (toInt pathname.length),
    (pathname ++ [0]).take (toSize (toInt (toInt pathname.length + 1)))]

/-- What `openFile` writes. -/
def openFilePieces (pathname : CString) (flags : ℤ) : List (List UInt8) :=
  intBytes OpCode.openFile.code :: pathPieces pathname ++ [intBytes flags]

/-- What `closeFile` writes. -/
def closeFilePieces (pathname : CString) : List (List UInt8) :=
  intBytes OpCode.closeFile.code :: pathPieces pathname

/-- What `writeFile` writes for a local file with these contents. -/
def writeFilePieces (pathname : CString) (contents : List UInt8) : List (List UInt8) :=
  intBytes OpCode.writeFile.code :: pathPieces pathname ++ [sizeBytes contents.length, contents]

/-- What `appendToFile` writes. -/
def appendToFilePieces (pathname : CString) (buf : List UInt8) : List (List UInt8) :=
  intBytes OpCode.appendToFile.code :: pathPieces pathname ++
    sizeBytes buf.length :: if 0 < buf.length then [buf] else []

/-- What `readFile` writes. -/
def readFilePieces (pathname : CString) : List (List UInt8) :=
  intBytes OpCode.readFile.code :: pathPieces pathname

/-- What `readNFiles` writes. -/
def readNFilesPieces (N : ℤ) : List (List UInt8) :=
  [intBytes OpCode.readNFiles.code, intBytes N]

/-- What `removeFile` writes. -/
def removeFilePieces (pathname : CString) : List (List UInt8) :=
  intBytes OpCode.removeFile.code :: pathPieces pathname

/-! ## Replies -/

/-- Read the result of the operation : `EBADE` if it does not arrive. -/
def readRes : ApiM (Except Errno ℤ) := do
  let (l, res) ← readnInt
  if l = -1 ∨ l = 0 then
    return .error .ebade
  return .ok res

/-- Read a result that has to be `SA_SUCCESS`. -/
def readSuccess : ApiM (Except Errno Unit) := do
  match ← readRes with
  | .error e => return .error e
  | .ok res =>
    if res ≠ Sa.success.code then
      return .error (convertResToErrno res)
    return .ok ()

/-- A file as the client rebuilds it. -/
structure Received where
  path : CString
  size : ℕ
  buf : List UInt8
  deriving DecidableEq, Repr

/-- The size of a `size_n_buf_t`. -/
def sizeofSizeNBuf : ℕ :=
  16

/-- The loop of `write_files_sent_by_server`, with the files read so far. Each round reads
at least the four bytes of a length, so that `fuel` past the number of bytes is never used
up. A `list_push_back` that fails ends it, with the files behind still to be read. -/
def receiveLoop : ℕ → List Received → ApiM (Except Errno (List Received))
  | 0, _ => fun _ => .fault
  | fuel + 1, files => do
    let (l, pathLen) ← readnInt
    if l = -1 ∨ l = 0 then
      return .error .ebade
    -- ended list
    if pathLen = 0 then
      return .ok files
    safeMalloc sizeofSizeNBuf
    safeMalloc (toSize (toInt (pathLen + 1)))
    let (l, path) ← readn (toSize (toInt (pathLen + 1)))
    if l = -1 ∨ l = 0 then
      return .error .ebade
    let (l, bytes) ← readn 8
    if l = -1 ∨ l = 0 then
      return .error .ebade
    let size := bytesSize bytes
    -- empty file => no content
    if size ≠ 0 then
      safeMalloc size
      let (l, buf) ← readn size
      if l = -1 ∨ l = 0 then
        return .error .ebade
      if !(← malloc (.listNode files.length)) then
        return .error .enotrecoverable
      receiveLoop fuel (files ++ [⟨cstring path, size, buf⟩])
    else
      if !(← malloc (.listNode files.length)) then
        return .error .enotrecoverable
      receiveLoop fuel (files ++ [⟨cstring path, size, []⟩])

/-- The whole loop. -/
def receiveList : ApiM (Except Errno (List Received)) := fun c =>
  receiveLoop (c.inp.bytes.length + 1) [] c

/-- The part of `write_files_sent_by_server` that reads from the socket : the files, then the
final answer. Nothing is read if there is no memory for the list. -/
def receiveFiles : ApiM (Except Errno (List Received)) := do
  if !(← malloc .list) then
    return .error .enotrecoverable
  match ← receiveList with
  | .error e => return .error e
  | .ok files =>
    match ← readSuccess with
    | .error e => return .error e
    | .ok () => return .ok files

/-- `write_files_sent_by_server`, where `written` is what `write_list_of_files_into_dir`
returns for the files. It is compared with an `unsigned int`, so a `-1` is not less than the
number of files. -/
def writeFilesSentByServer (written : List Received → ℤ) : ApiM (Except Errno ℤ) := do
  match ← receiveFiles with
  | .error e => return .error e
  | .ok files =>
    if toUInt (written files) < toUInt files.length then
      return .error (if written files = -1 then .enotempty else .ecanceled)
    return if written files = -1 then .error .other else .ok (written files)

/-! ## The functions of the API -/

/-- The pieces are sent, and the reply is read. -/
def exchange (pieces : List (List UInt8)) {α : Type} (reply : ApiM (Except Errno α)) :
    ApiM (Except Errno α) := do
  if ← sendPieces pieces then reply else return .error .ebade

/-- Nothing is done without a connection. -/
def whenConnected {α : Type} (p : ApiM (Except Errno α)) : ApiM (Except Errno α) := fun c =>
  if c.connected then p c else .ok (.error .enotconn, c)

/-- `openFile`. -/
def openFile (pathname : CString) (flags : ℤ) : ApiM (Except Errno Unit) :=
  whenConnected do
    if !(← sendPieces (openFilePieces pathname flags)) then
      return .error .ebade
    let op : LastOp := ⟨true, isFlagSet flags oCreate, isFlagSet flags oLock, false, pathname⟩
    setLastOp op
    safeMalloc (toSize (toInt (toInt pathname.length + 1)))
    match ← readSuccess with
    | .error e => return .error e
    | .ok () =>
      setLastOp { op with success := true }
      return .ok ()

/-- `closeFile`. -/
def closeFile (pathname : CString) : ApiM (Except Errno Unit) :=
  whenConnected do
    setLastOp .reset
    exchange (closeFilePieces pathname) readSuccess

/-- `removeFile`. -/
def removeFile (pathname : CString) : ApiM (Except Errno Unit) :=
  whenConnected do
    setLastOp .reset
    exchange (removeFilePieces pathname) readSuccess

/-- The reply to `readFile` : the size and the contents. -/
def readFileReply : ApiM (Except Errno (ℕ × List UInt8)) := do
  match ← readSuccess with
  | .error e => return .error e
  | .ok () =>
    let (l, bytes) ← readn 8
    if l = -1 ∨ l = 0 then
      return .error .ebade
    let size := bytesSize bytes
    safeMalloc size
    let (l, buf) ← readn size
    if l = -1 ∨ l = 0 then
      return .error .ebade
    -- reading final result
    match ← readSuccess with
    | .error e => return .error e
    | .ok () => return .ok (size, buf)

/-- `readFile`. -/
def readFile (pathname : CString) : ApiM (Except Errno (ℕ × List UInt8)) :=
  whenConnected do
    setLastOp .reset
    exchange (readFilePieces pathname) readFileReply

/-- The reply of the functions that are sent files. -/
def filesReply (written : List Received → ℤ) : ApiM (Except Errno ℤ) := do
  match ← readSuccess with
  | .error e => return .error e
  | .ok () => writeFilesSentByServer written

/-- `readNFiles`. -/
def readNFiles (N : ℤ) (written : List Received → ℤ) : ApiM (Except Errno ℤ) :=
  whenConnected do
    setLastOp .reset
    exchange (readNFilesPieces N) (filesReply written)

/-- `appendToFile`. -/
def appendToFile (pathname : CString) (buf : List UInt8) (written : List Received → ℤ) :
    ApiM (Except Errno ℤ) :=
  whenConnected do
    setLastOp .reset
    exchange (appendToFilePieces pathname buf) (filesReply written)

/-- `writeFile`, where `file` is the local file with that name, if it can be opened. -/
def writeFile (pathname : CString) (file : Option (List UInt8)) (written : List Received → ℤ) :
    ApiM (Except Errno ℤ) :=
  whenConnected fun c =>
    -- last op was not a successful open-create-lock
    if !c.lastOp.isOpen || !c.lastOp.create || !c.lastOp.lock || !c.lastOp.success ||
        !strncmpEq c.lastOp.path pathname (toSize (toInt pathname.length)) then
      .ok (.error .enotty, c)
    else
      (do
        setLastOp .reset
        match file with
        | none => return .error .eio
        | some contents =>
          safeMalloc contents.length
          match ← exchange (writeFilePieces pathname contents) (filesReply written) with
          | .error e => return .error e
          | .ok _ => return .ok 0 : ApiM (Except Errno ℤ)) c

/-! ## Calls -/

/-- A call of a function of the API, with what it finds on the disk of the client : the
contents of the local file, and what `write_list_of_files_into_dir` returns. -/
inductive Call
  | openFile (pathname : CString) (flags : ℤ)
  | closeFile (pathname : CString)
  | readFile (pathname : CString)
  | readNFiles (N : ℤ) (written : List Received → ℤ)
  | removeFile (pathname : CString)
  | writeFile (pathname : CString) (file : Option (List UInt8)) (written : List Received → ℤ)
  | appendToFile (pathname : CString) (buf : List UInt8) (written : List Received → ℤ)

namespace Call

/-- Perform a call : whether it returns `-1`. -/
def run : Call → ApiM (Except Errno Unit)
  | .openFile pathname flags => Api.openFile pathname flags
  | .closeFile pathname => Api.closeFile pathname
  | .readFile pathname => return (← Api.readFile pathname).map fun _ => ()
  | .readNFiles N written => return (← Api.readNFiles N written).map fun _ => ()
  | .removeFile pathname => Api.removeFile pathname
  | .writeFile pathname file written =>
    return (← Api.writeFile pathname file written).map fun _ => ()
  | .appendToFile pathname buf written =>
    return (← Api.appendToFile pathname buf written).map fun _ => ()

/-- What a call writes if it sends a request. -/
def pieces : Call → List (List UInt8)
  | .openFile pathname flags => openFilePieces pathname flags
  | .closeFile pathname => closeFilePieces pathname
  | .readFile pathname => readFilePieces pathname
  | .readNFiles N _ => readNFilesPieces N
  | .removeFile pathname => removeFilePieces pathname
  | .writeFile pathname file _ => writeFilePieces pathname (file.getD [])
  | .appendToFile pathname buf _ => appendToFilePieces pathname buf

/-- What a call asks the server for. -/
def request : Call → Request
  | .openFile pathname flags => .openFile pathname flags
  | .closeFile pathname => .closeFile pathname
  | .readFile pathname => .readFile pathname
  | .readNFiles N _ => .readNFiles N
  | .removeFile pathname => .removeFile pathname
  | .writeFile pathname file _ => .writeFile pathname (file.getD []).length (file.getD [])
  | .appendToFile pathname buf _ => .appendToFile pathname buf.length buf

/-- The handler that serves a call. -/
def handler : Call → Handler
  | .openFile _ _ => .openFile
  | .closeFile _ => .closeFile
  | .readFile _ => .readFile
  | .readNFiles _ _ => .readNFiles
  | .removeFile _ => .removeFile
  | .writeFile _ _ _ => .writeFile
  | .appendToFile _ _ _ => .appendToFile

/-- What a call writes after the code of its operation. -/
def arguments (call : Call) : List UInt8 :=
  call.pieces.tail.flatten

theorem flatten_pieces (call : Call) :
    call.pieces.flatten = intBytes call.handler.opCode.code ++ call.arguments := by
  cases call <;> rfl

/-- A path that an `int` can count, with its `NUL`. -/
def ValidPath (pathname : CString) : Prop :=
  (0 : UInt8) ∉ pathname ∧ pathname.length < intMax

/-- A value of type `int`. -/
def ValidInt (n : ℤ) : Prop :=
  -2 ^ 31 ≤ n ∧ n < 2 ^ 31

/-- A call whose integers and lengths fit into an `int`, and that writes no empty file. -/
def Valid : Call → Prop
  | .openFile pathname flags => ValidPath pathname ∧ ValidInt flags
  | .closeFile pathname => ValidPath pathname
  | .readFile pathname => ValidPath pathname
  | .readNFiles N _ => ValidInt N
  | .removeFile pathname => ValidPath pathname
  | .writeFile pathname file _ =>
    ValidPath pathname ∧ 1 ≤ (file.getD []).length ∧ (file.getD []).length ≤ intMax
  | .appendToFile pathname buf _ => ValidPath pathname ∧ buf.length ≤ intMax

end Call

end StorageServer.Api
