import StorageServer.Requests

/-!
# A worker and its client

What `worker_thread` does with one descriptor of the queue : it reads the code of an
operation, calls the handler, sends its result to the client, and gives the main thread a
code that says whether the connection goes on. `worker_eq` splits the work at the place
where the handler has read its request, and before it looks at the store.
-/

open Programs

namespace StorageServer

/-- `op_code_t`. -/
inductive OpCode
  | openFile
  | closeFile
  | readFile
  | writeFile
  | appendToFile
  | readNFiles
  | lockFile
  | unlockFile
  | removeFile
  deriving DecidableEq, Repr

/-- The value of an enumerator. -/
def OpCode.code : OpCode → ℤ
  | openFile => 0
  | closeFile => 1
  | readFile => 2
  | writeFile => 3
  | appendToFile => 4
  | readNFiles => 5
  | lockFile => 6
  | unlockFile => 7
  | removeFile => 8

/-- `worker_code_t`. -/
inductive WorkerCode
  | success
  | close
  | fatalError
  | nonFatalError
  deriving DecidableEq, Repr

/-- The operation of a handler. -/
def Handler.opCode : Handler → OpCode
  | .openFile => .openFile
  | .closeFile => .closeFile
  | .writeFile => .writeFile
  | .appendToFile => .appendToFile
  | .readFile => .readFile
  | .readNFiles => .readNFiles
  | .removeFile => .removeFile

/-- The handlers in the order of the cases of the `switch`. -/
def Handler.all : List Handler :=
  [.openFile, .closeFile, .writeFile, .appendToFile, .readFile, .readNFiles, .removeFile]

/-- The case of the `switch` that is taken, `none` for the default. -/
def Handler.ofOpCode (opCode : ℤ) : Option Handler :=
  Handler.all.find? fun h => h.opCode.code = opCode

@[simp] theorem Handler.ofOpCode_code (h : Handler) : ofOpCode h.opCode.code = some h := by
  cases h <;> rfl

/-- The codes of the operations are values of type `int`. -/
theorem Handler.opCode_range (h : Handler) :
    -2 ^ 31 ≤ h.opCode.code ∧ h.opCode.code < 2 ^ 31 := by
  cases h <;> decide

/-- The code for the main thread, from the result of a handler. -/
def Sa.workerCode : Sa → WorkerCode
  | success => .success
  | close => .fatalError
  | error => .fatalError
  | _ => .nonFatalError

/-- The end of each case of the `switch`. -/
def sendResult (res : Sa) : M WorkerCode := do
  if (← writen (intBytes res.code)) = -1 then
    return .fatalError
  return res.workerCode

/-- The body of the loop of `worker_thread`, from the reading of the operation on : the code
that is written to the pipe. -/
def worker (cfg : ServerConfig) (fdClient : ℕ) : M WorkerCode := do
  let (l, opCode) ← readnInt
  if l = -1 then -- error in reading
    return .fatalError
  if l = 0 then -- closed connection
    return .close
  match Handler.ofOpCode opCode with
  | none => return .fatalError
  | some h =>
    let res ← handle cfg fdClient h
    sendResult res

/-- What a worker has read before it looks at the store : a request, or a result to send, or
the code for the main thread. -/
def readOperation : M (Except WorkerCode (Except Sa Request)) := do
  let (l, opCode) ← readnInt
  if l = -1 then
    return .error .fatalError
  if l = 0 then
    return .error .close
  match Handler.ofOpCode opCode with
  | none => return .error .fatalError
  | some h => return .ok (← readRequest h)

/-- A worker reads an operation, serves it, and sends the result. -/
theorem worker_eq (cfg : ServerConfig) (fdClient : ℕ) :
    worker cfg fdClient = readOperation >>= fun r =>
      match r with
      | .error code => return code
      | .ok (.error res) => sendResult res
      | .ok (.ok req) => serveRequest cfg fdClient req >>= sendResult := by
  rw [worker, readOperation]
  refine Eq.trans ?_ (bind_assoc ..).symm
  refine bind_congr fun ⟨l, opCode⟩ => ?_
  dsimp only
  split
  · rfl
  split
  · rfl
  cases Handler.ofOpCode opCode with
  | none => rfl
  | some h =>
    dsimp only
    rw [handle_eq]
    simp only [bind_assoc]
    refine bind_congr fun r => ?_
    cases r <;> rfl

end StorageServer
