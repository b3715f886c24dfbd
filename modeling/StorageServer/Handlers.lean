import StorageServer.Replacement

/-!
# The request handlers

`open_file`, `close_file`, `write_file`, `append_to_file`, `read_file`, `read_n_files`,
`remove_file` and `close_client`, access by access. A handler first reads its request
from the client (`readPathname`, `readWriteRequest`, `readAppendRequest`), then works on
the store while it holds `files_mtx`, and replies after it has released it. The part
under the mutex is a definition of its own (`writeFileStore` is that of `writeFile`),
and gives the code of an error or what the reply is made of.
-/

open Programs

namespace StorageServer

/-- The result codes of the protocol between the server and the API. -/
inductive Sa
  | success
  | error
  | close
  | exists
  | noFile
  | alreadyLocked
  | notLocked
  | notEmpty
  | tooBig
  | noOpen
  deriving DecidableEq, Repr

/-- The values of `SA_SUCCESS`, `SA_ERROR` and the other codes. -/
def Sa.code : Sa → ℤ
  | success => 0
  | error => -1
  | close => -2
  | «exists» => -10
  | noFile => -11
  | alreadyLocked => -12
  | notLocked => -20
  | notEmpty => -21
  | tooBig => -22
  | noOpen => -23

/-- `O_CREATE`. -/
def oCreate : ℕ :=
  1

/-- `O_LOCK`. -/
def oLock : ℕ :=
  2

/-- `IS_FLAG_SET`. -/
def isFlagSet (val : ℤ) (flag : ℕ) : Bool :=
  (val >>> (flag / 2)) % 2 = 1

/-! ## Reading the request -/

/-- The value and the number that a `readn` of an `int` stores. -/
def readnInt : M (ℤ × ℤ) := do
  let (l, bytes) ← readn 4
  return (l, bytesInt bytes)

/-- The beginning of every handler that is given a path : its length, then its bytes and
their `NUL`. -/
def readPathname : M (Except Sa CString) := do
  let (l, pathnameLen) ← readnInt
  if l = -1 then
    return .error .error
  if l = 0 then
    return .error .close
  safeMalloc (toSize (toInt (pathnameLen + 1)))
  let (l, pathname) ← readn (toSize (toInt (pathnameLen + 1)))
  if l = -1 then
    return .error .error
  if l = 0 then
    return .error .close
  return .ok (cstring pathname)

/-- The request of `open_file` : the path and the flags. -/
def readOpenRequest : M (Except Sa (CString × ℤ)) := do
  match ← readPathname with
  | .error code => return .error code
  | .ok pathname =>
    let (l, flags) ← readnInt
    if l = -1 then
      return .error .error
    if l = 0 then
      return .error .close
    return .ok (pathname, flags)

/-- The request of `write_file` : the path, the size as a `long` and the buffer. -/
def readWriteRequest : M (Except Sa (CString × ℤ × List UInt8)) := do
  match ← readPathname with
  | .error code => return .error code
  | .ok pathname =>
    let (l, bytes) ← readn 8
    if l = -1 then
      return .error .error
    if l = 0 then
      return .error .close
    let size := bytesLong bytes
    safeMalloc (toSize size)
    let (l, buf) ← readn (toSize size)
    if l = -1 then
      return .error .error
    if l = 0 then
      return .error .close
    return .ok (pathname, size, buf)

/-- The request of `append_to_file` : the path, the size as a `size_t` and the buffer,
which is only read if it is not empty. The list of the files to be expelled is made
before `files_mtx` is locked. -/
def readAppendRequest : M (Except Sa (CString × ℕ × List UInt8)) := do
  match ← readPathname with
  | .error code => return .error code
  | .ok pathname =>
    let (l, bytes) ← readn 8
    if l = -1 then
      return .error .error
    if l = 0 then
      return .error .close
    let size := bytesSize bytes
    if size > 0 then
      safeMalloc size
      let (l, buf) ← readn size
      if l = -1 then
        return .error .error
      if l = 0 then
        return .error .close
      if !(← malloc .list) then
        return .error .error
      return .ok (pathname, size, buf)
    else
      if !(← malloc .list) then
        return .error .error
      return .ok (pathname, size, [])

/-- The request of `read_n_files` : the number of files. The list and the iterator are made
before `files_mtx` is locked. -/
def readNRequest : M (Except Sa ℤ) := do
  let (l, N) ← readnInt
  if l = -1 then
    return .error .error
  if l = 0 then
    return .error .close
  if !(← malloc .list) then
    return .error .error
  safeMalloc sizeofHashIter
  return .ok N

/-! ## Sending files -/

/-- `send_single_file` : `-1` if a send fails. -/
def sendSingleFile (file : FilePtr) (sendPath : Bool) : M ℤ := do
  if sendPath then
    let pathName ← getPathName file
    let pathLen := toInt pathName.length
    if (← writen (intBytes pathLen)) = -1 then
      return -1
    if (← writen ((pathName ++ [0]).take (toSize (toInt (pathLen + 1))))) = -1 then
      return -1
  let size ← getSize file
  if (← writen (sizeBytes size)) = -1 then
    return -1
  if (← getSize file) ≠ 0 then
    let contents ← getContents file
    if (← writen (contents.take (← getSize file))) = -1 then
      return -1
  return 0

/-- `send_list_of_files` with `send_path` set : the files, then a zero. -/
def sendListOfFiles : List FilePtr → M ℤ
  | [] => do
    if (← writen (intBytes 0)) = -1 then
      return -1
    return 0
  | currFile :: rest => do
    if (← sendSingleFile currFile true) = -1 then
      return -1
    sendListOfFiles rest

/-- `list_delete(&list, files_node_cleaner)`. -/
def deleteList : List FilePtr → M Unit
  | [] => return ()
  | file :: rest => do
    fileDelete file
    deleteList rest

/-! ## `open_file` -/

/-- `sizeof(file_t)`. -/
def sizeofFile : ℕ :=
  216

/-- The memory for `hashtbl_insert`. -/
def openersMemory : M Granted := do
  let expand ← malloc .hashtblExpand
  let node ← malloc .hashtblNode
  return ⟨expand, node⟩

/-- `hashtbl_init` and `hashtbl_insert` in `create_file`, which looks at neither result. Where
the lists of the table are not allocated `hashtbl_insert` goes through a null or uninitialised
pointer, and the process ends. -/
def initOpeners (fdClient : ℕ) : M HashTblPtr := do
  if !(← malloc .hashtbl) then
    return none
  if !(← malloc .hashtblLists) then
    exit
  let granted ← openersMemory
  return (HashTblPtr.insert granted (some ⟨4, 0, List.replicate 4 [], defaultHashtblHash⟩)
    fdClient).2

/-- `create_file`. -/
def createFile (pathname : CString) (flags : ℤ) (fdClient : ℕ) : M FilePtr := do
  safeMalloc sizeofFile
  let fdOpen ← initOpeners fdClient
  let file ← fileNew {
    pathName := pathname
    contents := []
    size := 0
    fdLock := if isFlagSet flags oLock then fdClient else -1
    fdOpen := fdOpen
    nReaders := 0
    nWriters := 0
    creationTime := ⟨0, 0⟩
    lastUse := ⟨0, 0⟩
    canBeExpelled := false }
  -- current thread gets mutex control
  fileWriterLock file
  set file .creationTime (← clockGettime)
  set file .lastUse (← clockGettime)
  return file

/-- `open_file` under `files_mtx` if `O_CREATE` is set, up to the comparison of
`curr_state.files` with its limit : the new file. -/
def openFileCreateStart (fdClient : ℕ) (pathname : CString) (flags : ℤ) :
    M (Except Sa FilePtr) := do
  mutexLock .files
  if ← filesContains pathname then
    mutexUnlock .files
    return .error .exists
  let file ← createFile pathname flags fdClient
  mutexLock .currState
  return .ok file

/-- The rest of it, after a file has been expelled, or none. It does not look at the result of
`hashmap_insert`. -/
def openFileCreateEnd (pathname : CString) (file : FilePtr) (expelled : Option FilePtr) :
    M (Except Sa (FilePtr × Option FilePtr)) := do
  mutexUnlock .currState
  set file .canBeExpelled true
  let _ ← filesInsert pathname file
  mutexLock .currState
  let st ← getState
  setState { st with files := toUInt (st.files + 1) }
  let st ← getState
  setState { st with maxFiles := if st.files > st.maxFiles then st.files else st.maxFiles }
  let st ← getState
  logger (.currentFiles st.files)
  logger (.currentSpace (toUInt st.space))
  mutexUnlock .currState
  fileWriterUnlock file
  mutexUnlock .files
  return .ok (file, expelled)

/-- The part of `open_file` under `files_mtx` if `O_CREATE` is set : the new file and the
file that was expelled to make room for it. -/
def openFileCreate (cfg : ServerConfig) (fdClient : ℕ) (pathname : CString) (flags : ℤ) :
    M (Except Sa (FilePtr × Option FilePtr)) := do
  match ← openFileCreateStart fdClient pathname flags with
  | .error code => return .error code
  | .ok file =>
    let st ← getState
    if st.files = cfg.maxFiles then
      openFileCreateEnd pathname file (← expellSingleFile cfg)
    else
      openFileCreateEnd pathname file none

/-- `hashtbl_insert(&file->fd_open, fd_client)`. -/
def addOpener (file : FilePtr) (fdClient : ℕ) : M Unit := do
  let granted ← openersMemory
  set file .fdOpen ((← getFdOpen file).insert granted fdClient).2

/-- The part of `open_file` under `files_mtx` if `O_CREATE` is not set. -/
def openFileExisting (fdClient : ℕ) (pathname : CString) (flags : ℤ) : M Sa := do
  mutexLock .files
  match ← filesGetByKey pathname with
  | none =>
    mutexUnlock .files
    return .noFile
  | some file =>
    fileWriterLock file
    if isFlagSet flags oLock then
      let fdLock ← getFdLock file
      if fdLock ≠ -1 ∧ fdLock ≠ fdClient then -- already locked by other client
        fileWriterUnlock file
        mutexUnlock .files
        return .alreadyLocked
      else
        set file .fdLock fdClient
    if !(← getFdOpen file).contains fdClient then
      addOpener file fdClient
    set file .lastUse (← clockGettime)
    fileWriterUnlock file
    mutexUnlock .files
    return .success

/-- The end of `open_file` for a created file. Its path is printed through the pointer that was
handed to the file, without a lock. -/
def replyCreated (file : FilePtr) (expelled : Option FilePtr) : M Sa := do
  match expelled with
  | some expelled =>
    logger (.path (← getPathName expelled))
    fileDelete expelled
  | none => pure ()
  logger (.path (← getPathName file))
  return .success

/-- `open_file`. -/
def openFile (cfg : ServerConfig) (fdClient : ℕ) : M Sa := do
  match ← readOpenRequest with
  | .error code => return code
  | .ok (pathname, flags) =>
    if isFlagSet flags oCreate then
      match ← openFileCreate cfg fdClient pathname flags with
      | .error code => return code
      | .ok (file, expelled) => replyCreated file expelled
    else
      openFileExisting fdClient pathname flags

/-! ## `close_file` -/

/-- `hashtbl_remove(file->fd_open, fd_client)`. -/
def removeOpener (file : FilePtr) (fdClient : ℕ) : M Unit := do
  match (← getFdOpen file).remove fdClient with
  | none => undefined
  | some (_, fdOpen) => set file .fdOpen fdOpen

/-- The part of `close_file` under `files_mtx`. -/
def closeFileStore (fdClient : ℕ) (pathname : CString) : M Sa := do
  mutexLock .files
  match ← filesGetByKey pathname with
  | none =>
    mutexUnlock .files
    return .noFile
  | some file =>
    fileWriterLock file
    removeOpener file fdClient
    -- if file was locked, unlock it
    if (← getFdLock file) = fdClient then
      set file .fdLock (-1)
    fileWriterUnlock file
    mutexUnlock .files
    return .success

/-- `close_file`. -/
def closeFile (fdClient : ℕ) : M Sa := do
  match ← readPathname with
  | .error code => return code
  | .ok pathname => closeFileStore fdClient pathname

/-! ## `write_file` and `append_to_file` -/

/-- The end of both under `files_mtx`, up to the call of `expell_multiple_files` : `size` bytes
are added to `curr_state.space`, and those that are too many are `size_to_remove`. -/
def makeRoomStart (cfg : ServerConfig) (file : FilePtr) (size : ℕ) : M ℤ := do
  let st ← getState
  setState { st with space := toSize (st.space + size) }
  let st ← getState
  let sizeToRemove := toLong (st.space - cfg.maxSpace)
  if sizeToRemove > 0 then
    set file .canBeExpelled false
  return sizeToRemove

/-- The rest of it. -/
def makeRoomEnd (toExpell : List FilePtr) : M (List FilePtr) := do
  let st ← getState
  setState { st with maxSpace := if st.space > st.maxSpace then st.space else st.maxSpace }
  return toExpell

/-- `size` bytes are added to `curr_state.space`, and other files are expelled if there are
too many. -/
def makeRoom (cfg : ServerConfig) (file : FilePtr) (size : ℕ) : M (List FilePtr) := do
  let sizeToRemove ← makeRoomStart cfg file size
  if sizeToRemove > 0 then
    let toExpell ← expellMultipleFiles cfg (toSize sizeToRemove)
    set file .canBeExpelled true
    makeRoomEnd toExpell
  else
    makeRoomEnd []

/-- `write_file` under `files_mtx` up to `makeRoom` : the file and by how much it has grown. -/
def writeFileStart (cfg : ServerConfig) (fdClient : ℕ) (pathname : CString) (size : ℤ)
    (buf : List UInt8) : M (Except Sa (FilePtr × ℕ)) := do
  mutexLock .files
  match ← filesGetByKey pathname with
  | none =>
    mutexUnlock .files
    return .error .noFile
  | some file =>
    fileWriterLock file
    -- client hasn't opened file
    if !(← getFdOpen file).contains fdClient then
      fileWriterUnlock file
      mutexUnlock .files
      return .error .noOpen
    -- file isn't locked
    if (← getFdLock file) ≠ fdClient then
      fileWriterUnlock file
      mutexUnlock .files
      return .error .notLocked
    -- file isn't empty
    if (← getSize file) ≠ 0 then
      fileWriterUnlock file
      mutexUnlock .files
      return .error .notEmpty
    -- file is too big
    if toSize size > cfg.maxSpace then
      fileWriterUnlock file
      mutexUnlock .files
      return .error .tooBig
    -- the list of the files to be expelled
    if !(← malloc .list) then
      fileWriterUnlock file
      mutexUnlock .files
      return .error .error
    set file .size (toSize size)
    set file .contents buf
    set file .lastUse (← clockGettime)
    mutexLock .currState
    return .ok (file, ← getSize file)

/-- `write_file` under `files_mtx` after `makeRoom`. -/
def writeFileEnd (file : FilePtr) (toExpell : List FilePtr) : M (Except Sa (List FilePtr)) := do
  let st ← getState
  logger (.currentFiles st.files)
  logger (.currentSpace st.space)
  mutexUnlock .currState
  fileWriterUnlock file
  mutexUnlock .files
  return .ok toExpell

/-- The part of `write_file` under `files_mtx` : the files to send to the client. -/
def writeFileStore (cfg : ServerConfig) (fdClient : ℕ) (pathname : CString) (size : ℤ)
    (buf : List UInt8) : M (Except Sa (List FilePtr)) := do
  match ← writeFileStart cfg fdClient pathname size buf with
  | .error code => return .error code
  | .ok (file, size) => writeFileEnd file (← makeRoom cfg file size)

/-- `append_to_file` under `files_mtx` up to `makeRoom`, for a buffer that is not empty : the
file and by how much it has grown. -/
def appendToFileStart (cfg : ServerConfig) (fdClient : ℕ) (pathname : CString) (size : ℕ)
    (buf : List UInt8) : M (Except Sa (FilePtr × ℕ)) := do
  mutexLock .files
  match ← filesGetByKey pathname with
  | none =>
    mutexUnlock .files
    return .error .noFile
  | some file =>
    fileWriterLock file
    -- checking that client has previously opened the file
    if !(← getFdOpen file).contains fdClient then
      fileWriterUnlock file
      mutexUnlock .files
      return .error .noOpen
    -- checking that buf can be appended to file without going over space requirements
    if toSize ((← getSize file) + size) > cfg.maxSpace then
      fileWriterUnlock file
      mutexUnlock .files
      return .error .tooBig
    safeMalloc (toSize ((← getSize file) + size))
    set file .contents ((← getContents file) ++ buf)
    set file .size (toSize ((← getSize file) + size))
    set file .lastUse (← clockGettime)
    mutexLock .currState
    return .ok (file, size)

/-- `append_to_file` under `files_mtx` after `makeRoom`. -/
def appendToFileEnd (file : FilePtr) (toExpell : List FilePtr) : M (Except Sa (List FilePtr)) := do
  let st ← getState
  mutexUnlock .currState
  -- the two counters are printed under each other's name, from `int` variables
  logger (.currentFiles (toUInt st.space))
  logger (.currentSpace (toUInt st.files))
  fileWriterUnlock file
  mutexUnlock .files
  return .ok toExpell

/-- The part of `append_to_file` under `files_mtx`, for a buffer that is not empty : the
files to send to the client. -/
def appendToFileStore (cfg : ServerConfig) (fdClient : ℕ) (pathname : CString) (size : ℕ)
    (buf : List UInt8) : M (Except Sa (List FilePtr)) := do
  match ← appendToFileStart cfg fdClient pathname size buf with
  | .error code => return .error code
  | .ok (file, size) => appendToFileEnd file (← makeRoom cfg file size)

/-! ### The reply -/

/-- The reply of both : the success so far, then the expelled files, which are deleted. -/
def replyExpelled (toExpell : List FilePtr) : M Sa := do
  if (← writen (intBytes Sa.success.code)) = -1 then
    deleteList toExpell
    return .error
  if (← sendListOfFiles toExpell) = -1 then
    deleteList toExpell
    return .error
  deleteList toExpell
  return .success

/-- `write_file`. -/
def writeFile (cfg : ServerConfig) (fdClient : ℕ) : M Sa := do
  match ← readWriteRequest with
  | .error code => return code
  | .ok (pathname, size, buf) =>
    match ← writeFileStore cfg fdClient pathname size buf with
    | .error code => return code
    | .ok toExpell => replyExpelled toExpell

/-- `append_to_file`. -/
def appendToFile (cfg : ServerConfig) (fdClient : ℕ) : M Sa := do
  match ← readAppendRequest with
  | .error code => return code
  | .ok (pathname, size, buf) =>
    if size > 0 then
      match ← appendToFileStore cfg fdClient pathname size buf with
      | .error code => return code
      | .ok toExpell => replyExpelled toExpell
    else -- if size == 0 it's a waste of time
      replyExpelled []

/-! ## `read_file` and `read_n_files` -/

/-- The part of `read_file` under `files_mtx` : the file to send, locked for reading. -/
def readFileStore (fdClient : ℕ) (pathname : CString) : M (Except Sa FilePtr) := do
  mutexLock .files
  match ← filesGetByKey pathname with
  | none =>
    mutexUnlock .files
    return .error .noFile
  | some toSend =>
    fileReaderLock toSend
    if !(← getFdOpen toSend).contains fdClient then
      fileReaderUnlock toSend
      mutexUnlock .files
      return .error .noOpen
    set toSend .lastUse (← clockGettime)
    mutexUnlock .files
    return .ok toSend

/-- The reply of `read_file`. It returns without `file_reader_unlock` if a send fails. -/
def replyReading (toSend : FilePtr) : M Sa := do
  if (← writen (intBytes Sa.success.code)) = -1 then
    return .error
  if (← sendSingleFile toSend false) = -1 then
    return .error
  fileReaderUnlock toSend
  return .success

/-- `read_file`. -/
def readFile (fdClient : ℕ) : M Sa := do
  match ← readPathname with
  | .error code => return code
  | .ok pathname =>
    match ← readFileStore fdClient pathname with
    | .error code => return code
    | .ok toSend => replyReading toSend

/-- `reader_unlock_all`. -/
def readerUnlockAll : List FilePtr → M Unit
  | [] => return ()
  | file :: rest => do
    fileReaderUnlock file
    readerUnlockAll rest

/-- The loop of `read_n_files` over the files still to come : the locked files and the
value of `err`. A `list_push_back` that fails gives up the file, and goes on as `err = -1`
does : the other files are unlocked, and `SA_ERROR` is returned. -/
def readNLoop : List FilePtr → ℤ → ℤ → List FilePtr → M (List FilePtr × ℤ)
  | [], N, err, fileList => return (fileList, if N > 0 then 1 else err)
  | currFile :: rest, N, err, fileList => do
    if N > 0 then
      fileReaderLock currFile
      if !(← malloc (.listNode fileList.length)) then
        fileReaderUnlock currFile
        return (fileList, -1)
      readNLoop rest (N - 1) 0 (fileList ++ [currFile])
    else
      return (fileList, err)

/-- The part of `read_n_files` under `files_mtx` : the files to send, locked for reading. -/
def readNFilesStore (N : ℤ) : M (Except Sa (List FilePtr)) := do
  mutexLock .files
  mutexLock .currState
  let st ← getState
  let N := if N ≤ 0 then toInt st.files else N
  mutexUnlock .currState
  let err ← uninit
  let (fileList, err) ← readNLoop (← filesIter) N err []
  if err = -1 then
    readerUnlockAll fileList
    mutexUnlock .files
    return .error .error
  mutexUnlock .files
  return .ok fileList

/-- The reply of `read_n_files`. -/
def replyReadingN (fileList : List FilePtr) : M Sa := do
  if (← writen (intBytes Sa.success.code)) = -1 then
    readerUnlockAll fileList
    return .error
  if (← sendListOfFiles fileList) = -1 then
    readerUnlockAll fileList
    return .error
  readerUnlockAll fileList
  return .success

/-- `read_n_files`. -/
def readNFiles : M Sa := do
  match ← readNRequest with
  | .error code => return code
  | .ok N =>
    match ← readNFilesStore N with
    | .error code => return code
    | .ok fileList => replyReadingN fileList

/-! ## `remove_file` -/

/-- The part of `remove_file` under `files_mtx`. -/
def removeFileStore (fdClient : ℕ) (pathname : CString) : M Sa := do
  mutexLock .files
  match ← filesGetByKey pathname with
  | none => -- file not present => success
    mutexUnlock .files
    return .success
  | some toRemove =>
    fileWriterLock toRemove
    -- client didn't open this file
    if !(← getFdOpen toRemove).contains fdClient then
      fileWriterUnlock toRemove
      mutexUnlock .files
      return .noOpen
    -- file hasn't been locked by client
    if (← getFdLock toRemove) ≠ fdClient then
      fileWriterUnlock toRemove
      mutexUnlock .files
      return .notLocked
    mutexLock .currState
    let st ← getState
    setState { st with files := toUInt (st.files - 1) }
    let st ← getState
    setState { st with space := toSize (st.space - (← getSize toRemove)) }
    let st ← getState
    logger (.currentFiles st.files)
    logger (.currentSpace st.space)
    mutexUnlock .currState
    let removed ← filesRemove pathname
    fileDelete (removed.getD toRemove)
    mutexUnlock .files
    return .success

/-- `remove_file`. -/
def removeFile (fdClient : ℕ) : M Sa := do
  match ← readPathname with
  | .error code => return code
  | .ok pathname => removeFileStore fdClient pathname

/-! ## `close_client` -/

/-- The loop of `close_client` over the files still to come. -/
def closeClientLoop (fdClient : ℕ) : List FilePtr → M Unit
  | [] => return ()
  | currFile :: rest => do
    fileWriterLock currFile
    if (← getFdLock currFile) = fdClient then
      set currFile .fdLock (-1)
    removeOpener currFile fdClient
    fileWriterUnlock currFile
    closeClientLoop fdClient rest

/-- What `close_client` does to the files. -/
def closeClient (fdClient : ℕ) : M Unit := do
  safeMalloc sizeofHashIter
  mutexLock .files
  closeClientLoop fdClient (← filesIter)
  mutexUnlock .files

end StorageServer
