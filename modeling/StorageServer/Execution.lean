import StorageServer.Handlers
import StorageServer.Scan

/-!
# The requests of the client

`validate_options` looks back from each `-d` and `-D` to the request before it, and
`execute_requests` looks forward from each request to the modifier behind it. On a list that is
validated they agree : every request is handled once and in order, with the directory of its own
modifier, as long as the handlers return (`executeLoop_walks`, `toEnd_of_handled`).

What the server answers to the calls of the API, and what is in the directories of the client, is
that of an arbitrary environment with a state of its own.
-/

open Programs

namespace StorageServer.App

open Api (Errno Received)

/-! ## The request list -/

/-- A node of the request list, with its data. -/
inductive ReqNode
  | w (dir : CString) (nFiles : ℤ)
  | W (files : List CString)
  | t (msec : ℤ)
  | D (dir : CString)
  | r (files : List CString)
  | R (n : ℤ)
  | d (dir : CString)
  | l (files : List CString)
  | u (files : List CString)
  | c (files : List CString)
  deriving DecidableEq, Repr

namespace ReqNode

/-- Whether the node is one of `-r` and `-R`. -/
def reads : ReqNode → Bool
  | .r _ | .R _ => true
  | _ => false

/-- Whether the node is one of `-w` and `-W`. -/
def writes : ReqNode → Bool
  | .w _ _ | .W _ => true
  | _ => false

/-- The directory of a `-d` or `-D`. -/
def modifier : ReqNode → Option CString
  | .d dir | .D dir => some dir
  | _ => none

/-- The time of a `-t`. -/
def time : ReqNode → Option ℤ
  | .t msec => some msec
  | _ => none

end ReqNode

/-- Whether `validate_options` lets a node pass, with the node before it. -/
def allowed (prev : Option ReqNode) : ReqNode → Bool
  | .d _ => prev.any ReqNode.reads
  | .D _ => prev.any ReqNode.writes
  | _ => true

/-- The loop of `validate_options`, with the node before the current one : whether the process goes
on. -/
def validateLoop : Option ReqNode → List ReqNode → Bool
  | _, [] => true
  | prev, node :: rest => allowed prev node && validateLoop (some node) rest

/-- `validate_options`. -/
def validateOptions (fOption : Bool) (requestQ : List ReqNode) : Bool :=
  fOption && validateLoop none requestQ

/-! ## The environment -/

/-- What `readdir` gives for a directory, entry by entry. -/
inductive Listing
  /-- `readdir` returns `NULL`, at the end or for an error. -/
  | done (fails : Bool)
  /-- `.` or `..`. -/
  | dot (rest : Listing)
  /-- An entry whose `stat` fails. -/
  | unreadable (name : CString) (rest : Listing)
  | file (name : CString) (rest : Listing)
  /-- A subdirectory, that `opendir` may fail to open. -/
  | dir (name : CString) (opens : Bool) (sub rest : Listing)
  deriving DecidableEq, Repr

/-- The server and the file system of a client : the answers to the calls of the API, where a call
that is sent files answers with them, before they are written. There is no answer if an allocation
that fails ends the process. -/
structure Env (S : Type) where
  openFile : CString → ℤ → StateT S Option (Option Errno)
  writeFile : CString → StateT S Option (Except Errno (List Received))
  closeFile : CString → StateT S Option (Option Errno)
  readFile : CString → StateT S Option (Except Errno (ℕ × List UInt8))
  readNFiles : ℤ → StateT S Option (Except Errno (List Received))
  removeFile : CString → StateT S Option (Option Errno)
  /-- The directory tree below a path, if it can be opened. -/
  listing : CString → StateT S Option (Bool × Listing)
  /-- What `write_list_of_files_into_dir` finds. -/
  disk : S → Disk
  /-- What it leaves. -/
  wrote : Writing → S → S

section Handlers

variable {S : Type} (env : Env S)

/-- A call without an answer ends the process. -/
def ask {α : Type} (call : StateT S Option α) : StateT S Res α := fun s =>
  match call s with
  | none => .halt
  | some r => .ok r

/-- `CHECK_IF_FATAL_ERR` : whether a call has succeeded. -/
def checkErr : Option Errno → StateT S Res Bool
  | none => return true
  | some e => if Errno.fatal e then fun _ => .halt else return false

/-- Whether a call succeeds, with `CHECK_IF_FATAL_ERR` if it does not. -/
def callOk (call : StateT S Option (Option Errno)) : StateT S Res Bool := do
  checkErr (← ask call)

/-- `write_list_of_files_into_dir` in the environment, for as many rounds as `fuel` at most. -/
def writeList (fuel : ℕ) (expDir : Option CString) (files : List Received) : StateT S Res ℤ :=
  fun s => (writeListOfFilesIntoDir fuel (env.disk s) expDir files).bind fun r =>
    .ok (r.1, env.wrote r.2 s)

/-- What `write_files_sent_by_server` makes of the files that it has read : they are written, and
what is returned is compared with their number. -/
def writeAnswer (fuel : ℕ) (expDir : Option CString) :
    Except Errno (List Received) → StateT S Res (Option Errno)
  | .error e => return some e
  | .ok files => do
    let nFiles ← writeList env fuel expDir files
    if toUInt nFiles < toUInt files.length then
      return some (if nFiles = -1 then .enotempty else .ecanceled)
    return if nFiles = -1 then some .other else none

/-- A call that is sent files, with `CHECK_IF_FATAL_ERR`. -/
def receives (fuel : ℕ) (expDir : Option CString)
    (call : StateT S Option (Except Errno (List Received))) : StateT S Res Bool := do
  checkErr (← writeAnswer env fuel expDir (← ask call))

/-- A file is opened, written and closed : whether all calls succeed. -/
def sendFile (fuel : ℕ) (expDir : Option CString) (file : CString) : StateT S Res Bool := do
  if ← callOk (env.openFile file ((oCreate ||| oLock : ℕ) : ℤ)) then
    if ← receives env fuel expDir (env.writeFile file) then
      callOk (env.closeFile file)
    else return false
  else return false

/-- The loop of `-W`. -/
def sendFiles (fuel : ℕ) (expDir : Option CString) : List CString → StateT S Res Unit
  | [] => return ()
  | file :: rest => do
    let _ ← sendFile env fuel expDir file
    sendFiles fuel expDir rest

/-- The condition of the loop of `rec_scan_dirs`, before `readdir` is called. -/
def whenReads (N nReads : ℤ) (body : StateT S Res ℤ) : StateT S Res ℤ :=
  if N = -1 ∨ nReads < N then body else return nReads

/-- The scan of a directory that `opendir` may fail to open. -/
def scanOpened (opens : Bool) (scan : StateT S Res ℤ) : StateT S Res ℤ :=
  if opens then scan else return -1

/-- The loop of `rec_scan_dirs`, with the uploads of the files. -/
def scanListing (fuel : ℕ) (expDir : Option CString) :
    Listing → CString → ℤ → ℤ → StateT S Res ℤ
  | .done fails, _, N, nReads => whenReads N nReads (return if fails then -1 else nReads)
  | .dot rest, dirname, N, nReads =>
    whenReads N nReads (scanListing fuel expDir rest dirname N nReads)
  | .unreadable _ _, _, N, nReads => whenReads N nReads (return -3)
  | .file name rest, dirname, N, nReads => whenReads N nReads do
    if ← sendFile env fuel expDir (newPath dirname name) then
      scanListing fuel expDir rest dirname N (nReads + 1)
    else scanListing fuel expDir rest dirname N nReads
  | .dir name opens sub rest, dirname, N, nReads => whenReads N nReads do
    let res ← scanOpened opens
      (scanListing fuel expDir sub (newPath dirname name) (if N = -1 then -1 else N - nReads) 0)
    -- an error of the subdirectory leaves the count as it was
    scanListing fuel expDir rest dirname N (if res ≥ 0 then nReads + res else nReads)

/-- `rec_scan_dirs`. -/
def recScan (fuel : ℕ) (expDir : Option CString) (dirname : CString) (N : ℤ) :
    StateT S Res ℤ := do
  let (opens, listing) ← ask (env.listing dirname)
  scanOpened opens (scanListing env fuel expDir listing dirname N 0)

/-- The loop of `-r` : the files that are read. -/
def readFiles : List CString → StateT S Res (List Received)
  | [] => return []
  | file :: rest => do
    if ← callOk (env.openFile file 0) then
      match ← ask (env.readFile file) with
      | .error e => if Errno.fatal e then fun _ => .halt else readFiles rest
      | .ok (size, buf) =>
        let _ ← callOk (env.closeFile file)
        let files ← readFiles rest
        return ⟨file, size, buf⟩ :: files
    else
      readFiles rest

/-- The loop of `-c`. -/
def removeFiles : List CString → StateT S Res Unit
  | [] => return ()
  | file :: rest => do
    if ← callOk (env.openFile file (oLock : ℕ)) then
      let _ ← callOk (env.removeFile file)
    removeFiles rest

/-- The cases of `execute_requests`, for a node that is not a `-t`. -/
def handle (fuel : ℕ) : ReqNode → Option CString → StateT S Res Unit
  | .w dir nFiles, expDir => do
    let _ ← recScan env fuel expDir dir (toInt (if nFiles = 0 then -1 else nFiles))
  | .W files, expDir => sendFiles env fuel expDir files
  | .r files, expDir => do
    let _ ← writeList env fuel expDir (← readFiles env files)
  | .R n, expDir => do
    let _ ← receives env fuel expDir (env.readNFiles (toInt (if n = 0 then -1 else n)))
  | .c files, _ => removeFiles env files
  -- option not implemented
  | _, _ => return ()

end Handlers

/-! ## The loop -/

/-- `set_timespec_from_msec` : what is in the `timespec` afterwards. -/
def setTimespecFromMsec (msec : ℤ) (req : Timespec) : Timespec :=
  if msec < 0 then req else ⟨msec.tdiv 1000, msec.tmod 1000 * 1000⟩

/-- `exp_dir`, from the node behind a request. -/
def expDirOf : ReqNode → List ReqNode → Option CString
  | .w _ _, .D dir :: _ | .W _, .D dir :: _ | .r _, .d dir :: _ | .R _, .d dir :: _ => some dir
  | _, _ => none

/-- A node that is handled : its position, the directory and what is passed to `nanosleep`. -/
structure Handled where
  pos : ℕ
  node : ReqNode
  expDir : Option CString
  interval : Option Timespec
  deriving DecidableEq, Repr

/-- The loop of `execute_requests` : the nodes that are handled, and how it ends. -/
def executeLoop {S : Type} (handle : ReqNode → Option CString → StateT S Res Unit) :
    List ReqNode → ℕ → Timespec → S → List Handled × Res S
  | [], _, _, s => ([], .ok s)
  | node :: rest, pos, waitTime, s =>
    match node.time with
    | some msec =>
      let run := executeLoop handle rest (pos + 1) (setTimespecFromMsec msec waitTime) s
      (⟨pos, node, none, none⟩ :: run.1, run.2)
    | none =>
      let expDir := expDirOf node rest
      let handled : Handled := ⟨pos, node, expDir, some waitTime⟩
      match handle node expDir s with
      | .ok (_, s) =>
        let run :=
          -- `GO_TO_NEXT`
          match expDir with
          | none => executeLoop handle rest (pos + 1) waitTime s
          | some _ =>
            match rest with
            | [] => ([], .fault)
            | _ :: rest => executeLoop handle rest (pos + 2) waitTime s
        (handled :: run.1, run.2)
      | .blocked => ([handled], .blocked)
      | .halt => ([handled], .halt)
      | .fault => ([handled], .fault)

/-- `execute_requests`. -/
def executeRequests {S : Type} (env : Env S) (fuel : ℕ) (requestQ : List ReqNode) (s : S) :
    List Handled × Res S :=
  executeLoop (handle env fuel) requestQ 0 (setTimespecFromMsec 0 ⟨0, 0⟩) s

/-! ## What is to be handled -/

/-- The requests of a list with their positions, and the directory of the modifier behind each. -/
def requests : List ReqNode → ℕ → List (ℕ × ReqNode × Option CString)
  | [], _ => []
  | node :: rest, pos =>
    if node.modifier.isSome then requests rest (pos + 1)
    else (pos, node, rest.head?.bind ReqNode.modifier) :: requests rest (pos + 1)

/-- What is handled, without the intervals. -/
def Handled.request (h : Handled) : ℕ × ReqNode × Option CString :=
  (h.pos, h.node, h.expDir)

/-- The handlers of these requests, called in this order, return or end the process. -/
def AllReturn {S : Type} (handle : ReqNode → Option CString → StateT S Res Unit) :
    List (ℕ × ReqNode × Option CString) → S → Prop
  | [], _ => True
  | (_, node, expDir) :: rest, s =>
    match node.time with
    | some _ => AllReturn handle rest s
    | none =>
      match handle node expDir s with
      | .ok (_, s') => AllReturn handle rest s'
      | .halt => True
      | .blocked => False
      | .fault => False

section Loop

variable {S : Type} {handle : ReqNode → Option CString → StateT S Res Unit} {prev : Option ReqNode}
  {node : ReqNode} {rest q : List ReqNode} {pos : ℕ} {waitTime : Timespec} {s : S}

/-- No modifier comes first. -/
def Free (q : List ReqNode) : Prop :=
  q.head?.bind ReqNode.modifier = none

theorem validateLoop_cons (h : validateLoop prev (node :: rest) = true) :
    validateLoop (some node) rest = true := by
  rw [validateLoop, Bool.and_eq_true] at h
  exact h.2

/-- A modifier is allowed behind a request of its own only. -/
theorem free_of_validateLoop (h : validateLoop prev q = true)
    (hreads : prev.any ReqNode.reads = false)
    (hwrites : prev.any ReqNode.writes = false) : Free q := by
  cases q with
  | nil => rfl
  | cons node rest =>
    rw [validateLoop, Bool.and_eq_true] at h
    obtain ⟨hallowed, -⟩ := h
    cases node with
    | d dir => exact absurd (hreads.symm.trans hallowed) (by decide)
    | D dir => exact absurd (hwrites.symm.trans hallowed) (by decide)
    | _ => rfl

/-- A request finds the modifier that is behind it. -/
theorem expDirOf_eq (h : validateLoop (some node) rest = true) :
    expDirOf node rest = rest.head?.bind ReqNode.modifier := by
  cases rest with
  | nil => cases node <;> rfl
  | cons next rest =>
    rw [validateLoop, Bool.and_eq_true] at h
    obtain ⟨hmod, -⟩ := h
    cases next with
    | d dir => cases node <;> first | rfl | cases hmod
    | D dir => cases node <;> first | rfl | cases hmod
    | _ => cases node <;> rfl

/-- Behind a modifier there is no other. -/
theorem free_of_modifier {next : ReqNode} (h : validateLoop (some next) rest = true)
    (hmod : next.modifier.isSome = true) : Free rest := by
  refine free_of_validateLoop h ?_ ?_ <;> cases next <;> first | rfl | cases hmod

/-- A step of the loop, behind which it goes on with the nodes `q'`. -/
structure Goes (handle : ReqNode → Option CString → StateT S Res Unit) (node : ReqNode)
    (rest : List ReqNode) (pos : ℕ) (waitTime : Timespec) (s : S) (h : Handled)
    (skipped q' : List ReqNode)
    (waitTime' : Timespec) (s' : S) : Prop where
  rest_eq : rest = skipped ++ q'
  modifiers : ∀ n ∈ skipped, n.time = none
  valid : ∃ prev, validateLoop prev q' = true
  free : Free q'
  request : h.request = (pos, node, rest.head?.bind ReqNode.modifier)
  requests_eq : requests rest (pos + 1) = requests q' (pos + 1 + skipped.length)
  returned : node.time = none → handle node (rest.head?.bind ReqNode.modifier) s = .ok ((), s')
  returns : ∀ expected, AllReturn handle (h.request :: expected) s ↔ AllReturn handle expected s'
  times : (node.time = none ∧ h.interval = some waitTime ∧ waitTime' = waitTime) ∨
    ∃ msec, node.time = some msec ∧ h.interval = none ∧
      waitTime' = setTimespecFromMsec msec waitTime
  run : executeLoop handle (node :: rest) pos waitTime s =
    (h :: (executeLoop handle q' (pos + 1 + skipped.length) waitTime' s').1,
      (executeLoop handle q' (pos + 1 + skipped.length) waitTime' s').2)

/-- A step behind which the loop does not go on. -/
structure Stops (handle : ReqNode → Option CString → StateT S Res Unit) (node : ReqNode)
    (rest : List ReqNode) (pos : ℕ) (waitTime : Timespec) (s : S) (h : Handled) (e : Res S) :
    Prop where
  time : node.time = none
  stuck : ∀ r, handle node (rest.head?.bind ReqNode.modifier) s ≠ .ok r
  request : h.request = (pos, node, rest.head?.bind ReqNode.modifier)
  interval : h.interval = some waitTime
  returns : ∀ expected, AllReturn handle (h.request :: expected) s ↔ e = .halt
  not_ok : ∀ s', e ≠ .ok s'
  run : executeLoop handle (node :: rest) pos waitTime s = ([h], e)

/-- A `-t`. -/
theorem goes_time (hvalid : validateLoop prev (node :: rest) = true) {msec : ℤ}
    (htime : node.time = some msec) :
    Goes handle node rest pos waitTime s ⟨pos, node, none, none⟩ [] rest
      (setTimespecFromMsec msec waitTime) s := by
  have hvalid' := validateLoop_cons hvalid
  have hfree : Free rest := by
    refine free_of_validateLoop hvalid' ?_ ?_ <;> cases node <;> first | rfl | cases htime
  refine ⟨rfl, List.forall_mem_nil _, ⟨_, hvalid'⟩, hfree, ?_, rfl, fun h => ?_, fun expected => ?_,
    .inr ⟨msec, htime, rfl, rfl⟩, ?_⟩
  · rw [hfree]
    rfl
  · cases htime.symm.trans h
  · rw [Handled.request, AllReturn, htime]
  · rw [executeLoop, htime]
    rfl

/-- A request whose handler returns. -/
theorem goes_handle (hvalid : validateLoop prev (node :: rest) = true) (htime : node.time = none)
    {s' : S} (hhandle : handle node (expDirOf node rest) s = .ok ((), s')) :
    ∃ skipped q',
      Goes handle node rest pos waitTime s ⟨pos, node, expDirOf node rest, some waitTime⟩
      skipped q' waitTime s' := by
  have hvalid' := validateLoop_cons hvalid
  have hdir := expDirOf_eq hvalid'
  have hreturns : ∀ expected, AllReturn handle ((pos, node, expDirOf node rest) :: expected) s ↔
      AllReturn handle expected s' := by
    intro expected
    rw [AllReturn, htime]
    dsimp only
    rw [hhandle]
  cases hexp : expDirOf node rest with
  | none =>
    refine ⟨[], rest, rfl, List.forall_mem_nil _, ⟨_, hvalid'⟩, hdir.symm.trans hexp, ?_, rfl,
      fun _ => hdir ▸ hhandle, hexp ▸ hreturns, .inl ⟨htime, rfl, rfl⟩, ?_⟩
    · rw [← hdir, hexp]
      rfl
    · rw [executeLoop, htime]
      dsimp only
      rw [hhandle, hexp]
      rfl
  | some dir =>
    cases rest with
    | nil => cases node <;> cases hexp
    | cons next rest =>
      have hmod : next.modifier = some dir := hdir.symm.trans hexp
      have hnext : next.time = none := by cases next <;> first | rfl | cases hmod
      refine ⟨[next], rest, rfl, List.forall_mem_singleton.2 hnext, ⟨_, validateLoop_cons hvalid'⟩,
        free_of_modifier (validateLoop_cons hvalid') (by rw [hmod]; rfl), ?_, ?_,
        fun _ => hdir ▸ hhandle, hexp ▸ hreturns, .inl ⟨htime, rfl, rfl⟩, ?_⟩
      · rw [← hdir, hexp]
        rfl
      · rw [requests, hmod]
        rfl
      · rw [executeLoop, htime]
        dsimp only
        rw [hhandle, hexp]
        rfl

/-- A request whose handler does not return. -/
theorem stops_of_handle (hvalid : validateLoop prev (node :: rest) = true)
    (htime : node.time = none)
    (hhandle : ∀ r, handle node (expDirOf node rest) s ≠ .ok r) :
    ∃ e,
      Stops handle node rest pos waitTime s ⟨pos, node, expDirOf node rest, some waitTime⟩ e := by
  have hdir := expDirOf_eq (validateLoop_cons hvalid)
  have hrequest : (pos, node, expDirOf node rest) =
      (pos, node, rest.head?.bind ReqNode.modifier) := by
    rw [hdir]
  cases hres : handle node (expDirOf node rest) s with
  | ok r => exact absurd hres (hhandle r)
  | blocked | halt | fault =>
    have hrun : ∃ e : Res S, executeLoop handle (node :: rest) pos waitTime s =
        ([⟨pos, node, expDirOf node rest, some waitTime⟩], e) ∧
        (e = .halt ↔ handle node (expDirOf node rest) s = .halt) ∧ ∀ s', e ≠ .ok s' := by
      rw [executeLoop, htime]
      dsimp only
      rw [hres]
      exact ⟨_, rfl, by simp, fun _ => nofun⟩
    obtain ⟨e, hrun, hhalt, hnot⟩ := hrun
    refine ⟨e, htime, hdir ▸ hhandle, hrequest, rfl, fun expected => ?_, hnot, hrun⟩
    rw [hhalt, Handled.request, AllReturn, htime]
    dsimp only
    rw [hres]
    simp

theorem requests_of_free (hfree : Free (node :: rest)) : requests (node :: rest) pos =
    (pos, node, rest.head?.bind ReqNode.modifier) :: requests rest (pos + 1) := by
  have hmod : node.modifier = none := hfree
  rw [requests, hmod]
  rfl

/-- What holds of a run on a validated list, if it holds at its end and each step keeps it. -/
theorem executeLoop_induction {P : List ReqNode → ℕ → Timespec → S → Prop}
    (nil : ∀ pos waitTime s, P [] pos waitTime s)
    (goes : ∀ {node rest pos waitTime s h skipped q' waitTime' s'}, Free (node :: rest) →
      Goes handle node rest pos waitTime s h skipped q' waitTime' s' →
      P q' (pos + 1 + skipped.length) waitTime' s' → P (node :: rest) pos waitTime s)
    (stops : ∀ {node rest pos waitTime s h e}, Free (node :: rest) →
      Stops handle node rest pos waitTime s h e → P (node :: rest) pos waitTime s)
    (hvalid : validateLoop prev q = true) (hfree : Free q) (pos : ℕ) (waitTime : Timespec) (s : S) :
    P q pos waitTime s := by
  induction hn : q.length using Nat.strong_induction_on generalizing q prev pos waitTime s with
  | _ n ih =>
    cases q with
    | nil => exact nil pos waitTime s
    | cons node rest =>
      have hrest : ∀ {h skipped q' waitTime' s'},
          Goes handle node rest pos waitTime s h skipped q' waitTime' s' →
            P (node :: rest) pos waitTime s := by
        intro h skipped q' waitTime' s' hg
        have hlen := congrArg List.length hg.rest_eq
        rw [List.length_append] at hlen
        rw [List.length_cons] at hn
        obtain ⟨prev', hvalid'⟩ := hg.valid
        exact goes hfree hg (ih q'.length (by omega) hvalid' hg.free _ _ _ rfl)
      cases htime : node.time with
      | some msec => exact hrest (goes_time hvalid htime)
      | none =>
        by_cases hhandle : ∃ r, handle node (expDirOf node rest) s = .ok r
        · obtain ⟨⟨⟨⟩, s'⟩, hok⟩ := hhandle
          obtain ⟨skipped, q', hg⟩ := goes_handle hvalid htime hok
          exact hrest hg
        · push Not at hhandle
          obtain ⟨e, hs⟩ := stops_of_handle hvalid htime hhandle
          exact stops hfree hs

/-- A run of the loop handles what is expected, in order, and ends if the handlers return. -/
structure Walks (handle : ReqNode → Option CString → StateT S Res Unit)
    (expected : List (ℕ × ReqNode × Option CString)) (s : S) (run : List Handled × Res S) :
    Prop where
  in_order : (run.1.map Handled.request).IsPrefix expected
  returns : AllReturn handle expected s →
    run.2 = .halt ∨ (∃ s', run.2 = .ok s') ∧ run.1.map Handled.request = expected
  stops : ¬AllReturn handle expected s → run.2 = .blocked ∨ run.2 = .fault

/-- On a validated list the requests are handled in order, and all of them if the handlers
return. -/
theorem executeLoop_walks (hvalid : validateLoop prev q = true) (hfree : Free q) (pos : ℕ)
    (waitTime : Timespec) (s : S) :
    Walks handle (requests q pos) s (executeLoop handle q pos waitTime s) := by
  refine @executeLoop_induction S handle prev q (fun q pos waitTime s =>
    Walks handle (requests q pos) s (executeLoop handle q pos waitTime s)) ?_ ?_ ?_ hvalid hfree pos
      waitTime s
  · intro pos waitTime s
    exact ⟨List.prefix_refl _, fun _ => .inr ⟨⟨s, rfl⟩, rfl⟩, fun h => absurd trivial h⟩
  · intro node rest pos waitTime s h skipped q' waitTime' s' hfree hg hw
    rw [requests_of_free hfree, ← hg.request, hg.requests_eq, hg.run]
    exact ⟨(List.prefix_cons_inj _).2 hw.in_order,
      fun hr => (hw.returns ((hg.returns _).1 hr)).imp_right fun h => ⟨h.1, congrArg _ h.2⟩,
      fun hr => hw.stops fun h => hr ((hg.returns _).2 h)⟩
  · intro node rest pos waitTime s h e hfree hs
    rw [requests_of_free hfree, ← hs.request, hs.run]
    refine ⟨(List.prefix_cons_inj _).2 List.nil_prefix, fun hr =>
      .inl ((hs.returns _).1 hr), fun hr => ?_⟩
    cases e with
    | ok s' => exact absurd rfl (hs.not_ok s')
    | halt => exact absurd ((hs.returns _).2 rfl) hr
    | blocked => exact .inl rfl
    | fault => exact .inr rfl

theorem mem_requests {j : ℕ} {dir : Option CString} : (j, node, dir) ∈ requests q pos ↔
    ∃ i, j = pos + i ∧ q[i]? = some node ∧ node.modifier = none ∧
      dir = q[i + 1]?.bind ReqNode.modifier := by
  induction q generalizing pos with
  | nil => simp [requests]
  | cons head rest ih =>
    have hrest : (∃ i, j = pos + i ∧ (head :: rest)[i]? = some node ∧ node.modifier = none ∧
          dir = (head :: rest)[i + 1]?.bind ReqNode.modifier) ↔
        (j = pos ∧ head = node ∧ node.modifier = none ∧ dir = rest.head?.bind ReqNode.modifier) ∨
          (j, node, dir) ∈ requests rest (pos + 1) := by
      rw [ih]
      constructor
      · rintro ⟨i, rfl, hnode, hmod, rfl⟩
        cases i with
        | zero =>
          refine .inl ⟨rfl, Option.some.inj hnode, hmod, ?_⟩
          rw [List.getElem?_cons_succ, List.head?_eq_getElem?]
        | succ i => exact .inr ⟨i, by omega, hnode, hmod, rfl⟩
      · rintro (⟨rfl, rfl, hmod, rfl⟩ | ⟨i, rfl, hnode, hmod, rfl⟩)
        · refine ⟨0, rfl, rfl, hmod, ?_⟩
          rw [List.getElem?_cons_succ, List.head?_eq_getElem?]
        · exact ⟨i + 1, by omega, hnode, hmod, rfl⟩
    rw [hrest, requests]
    split_ifs with hmod
    · refine (or_iff_right ?_).symm
      rintro ⟨-, rfl, hnone, -⟩
      rw [hnone] at hmod
      cases hmod
    · rw [List.mem_cons, Prod.mk.injEq, Prod.mk.injEq]
      refine or_congr_left ⟨?_, ?_⟩
      · rintro ⟨rfl, rfl, rfl⟩
        exact ⟨rfl, rfl, by simpa using hmod, rfl⟩
      · rintro ⟨rfl, rfl, -, rfl⟩
        exact ⟨rfl, rfl, rfl⟩

/-- Every node of a validated list is allowed behind the one before it. -/
theorem allowed_of_validateLoop (h : validateLoop prev q = true) :
    (∀ n ∈ q.head?, allowed prev n = true) ∧
      ∀ i n, q[i + 1]? = some n → allowed q[i]? n = true := by
  induction q generalizing prev with
  | nil => exact ⟨nofun, nofun⟩
  | cons node rest ih =>
    rw [validateLoop, Bool.and_eq_true] at h
    obtain ⟨hhead, htail⟩ := ih h.2
    refine ⟨fun n hn => ?_, fun i n hn => ?_⟩
    · obtain rfl : node = n := Option.some.inj hn
      exact h.1
    · cases i with
      | zero =>
        rw [List.getElem?_cons_succ, ← List.head?_eq_getElem?] at hn
        exact hhead n hn
      | succ i => exact htail i n hn

/-- The run has come to the end of the list, with every request handled once and in order, and with
the directory of the modifier behind it. -/
structure ToEnd (q : List ReqNode) (run : List Handled × Res S) : Prop where
  ends : ∃ s', run.2 = .ok s'
  handled : run.1.map Handled.request = requests q 0
  read_dirs : ∀ i dir, q[i]? = some (.d dir) →
    ∃ h ∈ run.1, h.pos + 1 = i ∧ h.node.reads = true ∧ h.expDir = some dir
  write_dirs : ∀ i dir, q[i]? = some (.D dir) →
    ∃ h ∈ run.1, h.pos + 1 = i ∧ h.node.writes = true ∧ h.expDir = some dir

/-- The request before a modifier is handled with its directory. -/
theorem exists_handled {run : List Handled × Res S}
    (hhandled : run.1.map Handled.request = requests q 0)
    {i : ℕ} (hnode : q[i]? = some node) (hmod : node.modifier = none) {next : ReqNode}
    {dir : CString}
    (hnext : q[i + 1]? = some next) (hdir : next.modifier = some dir) :
    ∃ h ∈ run.1, h.pos + 1 = i + 1 ∧ h.node = node ∧ h.expDir = some dir := by
  have hmem : (i, node, some dir) ∈ requests q 0 :=
    mem_requests.2 ⟨i, (Nat.zero_add i).symm, hnode, hmod, by rw [hnext]; exact hdir.symm⟩
  rw [← hhandled] at hmem
  obtain ⟨h, hh, heq⟩ := List.mem_map.1 hmem
  simp only [Handled.request, Prod.mk.injEq] at heq
  exact ⟨h, hh, by omega, heq.2⟩

theorem toEnd_of_handled (hvalid : validateLoop none q = true) {run : List Handled × Res S}
    (hends : ∃ s', run.2 = .ok s') (hhandled : run.1.map Handled.request = requests q 0) :
    ToEnd q run := by
  obtain ⟨hhead, hallowed⟩ := allowed_of_validateLoop hvalid
  refine ⟨hends, hhandled, fun i dir hi => ?_, fun i dir hi => ?_⟩
  · cases i with
    | zero =>
      have hfirst := hhead _ (by rw [List.head?_eq_getElem?]; exact hi)
      exact absurd hfirst Bool.false_ne_true
    | succ i =>
      have hany : q[i]?.any ReqNode.reads = true := hallowed i _ hi
      obtain ⟨node, hnode, hreads⟩ := Option.any_eq_true _ _ |>.1 hany
      have hmod : node.modifier = none := by cases node <;> first | rfl | cases hreads
      obtain ⟨h, hh, hpos, rfl, hexp⟩ := exists_handled hhandled hnode hmod hi rfl
      exact ⟨h, hh, hpos, hreads, hexp⟩
  · cases i with
    | zero =>
      have hfirst := hhead _ (by rw [List.head?_eq_getElem?]; exact hi)
      exact absurd hfirst Bool.false_ne_true
    | succ i =>
      have hany : q[i]?.any ReqNode.writes = true := hallowed i _ hi
      obtain ⟨node, hnode, hwrites⟩ := Option.any_eq_true _ _ |>.1 hany
      have hmod : node.modifier = none := by cases node <;> first | rfl | cases hwrites
      obtain ⟨h, hh, hpos, rfl, hexp⟩ := exists_handled hhandled hnode hmod hi rfl
      exact ⟨h, hh, hpos, hwrites, hexp⟩

end Loop

/-- An environment without a state, in which each call is answered in one way and each directory
holds one file. -/
def Env.steady (opens : Option Errno) (read : Except Errno (ℕ × List UInt8))
    (reply : Except Errno (List Received)) (disk : Disk) : Env Unit where
  openFile _ _ := return opens
  writeFile _ := return reply
  closeFile _ := return none
  readFile _ := return read
  readNFiles _ := return reply
  removeFile _ := return none
  listing _ := return (true, .file [97] (.done false))
  disk _ := disk
  wrote _ _ := ()

end StorageServer.App
