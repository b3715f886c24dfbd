import StorageServer.Answers

/-!
# The globals of the API

`fd_sock` and `socket_path` are the connection of a process, and `last_op` is the record by
which `writeFile` knows the call before it. This file models the functions of the API with all
their arguments, which may be `NULL`, and the sequences of their calls.

`fd_sock` is `-1` as long as `socket_path` is `NULL`, and without a connection every function
that needs one gives `ENOTCONN`, but for `closeConnection`, which compares its argument with
`NULL` (`refuses_of_run`). `last_op` outlives the calls that do not touch it, and `writeFile`
compares no more of its path than its own is long (`writeFile_of_run`).
-/

open Programs Transitions

namespace StorageServer.Api

/-! ## The state -/

/-- The globals. -/
structure Globals where
  fdSock : ℤ
  socketPath : Option CString
  lastOp : LastOp
  deriving DecidableEq, Repr

/-- The globals of a process that starts. -/
def Globals.initial : Globals :=
  ⟨-1, none, .reset⟩

/-- `RESET_SOCK`. -/
def Globals.resetSock (g : Globals) : Globals :=
  { g with fdSock := -1, socketPath := none }

/-- What a call finds outside of the process. -/
structure Environment where
  inp : Stream
  sends : List SendRes
  malloc : Allocation → Bool

/-- The client that the globals are the state of, before it has sent anything. -/
def Globals.client (g : Globals) (env : Environment) : Client where
  connected := g.fdSock ≠ -1
  lastOp := g.lastOp
  inp := env.inp
  sends := env.sends
  malloc := env.malloc
  out := []

/-! ## Connections -/

/-- The size of `sun_path`. -/
def sunPathSize : ℕ :=
  108

/-- A round of the loop of `openConnection` : whether `connect` and `nanosleep` succeed, and
the seconds that `clock_gettime` reads, if it succeeds. -/
structure Attempt where
  connect : Bool
  nanosleep : Bool
  clock : Option ℤ
  deriving DecidableEq, Repr

/-- What `openConnection` finds outside : the descriptor that `socket` gives, if it succeeds,
the seconds before the first round, and the rounds. -/
structure Dialing where
  socket : Option ℕ
  now : ℤ
  attempts : List Attempt
  deriving DecidableEq, Repr

/-- The loop of `openConnection`, until `abstime`. -/
def connectLoop (abstime : ℤ) : ℤ → List Attempt → Res (Except Errno Unit)
  | _, [] => .blocked
  | now, attempt :: rest =>
    if attempt.connect then .ok (.ok ())
    else if now < abstime then
      if !attempt.nanosleep then .ok (.error .other)
      else
        match attempt.clock with
        | none => .ok (.error .other)
        | some now => connectLoop abstime now rest
    else .ok (.error .etimedout)

/-- `openConnection`. The copy of the name into `sun_path` has no bound. -/
def openConnection (sockname : Option CString) (msec abstime : ℤ) (dialing : Dialing)
    (g : Globals) : Res (Except Errno Unit × Globals) :=
  -- already connected
  if g.socketPath ≠ none ∨ g.fdSock ≠ -1 then .ok (.error .eisconn, g)
  else
    match sockname with
    | none => .ok (.error .einval, g)
    | some sockname =>
      if msec < 0 then .ok (.error .einval, g)
      else
        match dialing.socket with
        | none => .ok (.error .other, { g with fdSock := -1 })
        | some fd =>
          if sunPathSize < sockname.length + 1 then .fault
          else
            (connectLoop abstime dialing.now dialing.attempts).bind fun
              | .error e => .ok (.error e, { g with fdSock := fd }.resetSock)
              | .ok () => .ok (.ok (), { g with fdSock := fd, socketPath := some sockname })

/-- `closeConnection`, where `closed` says whether `close` succeeds. The comparison with
`socket_path` is undefined if that is `NULL`. -/
def closeConnection (sockname : Option CString) (closed : Bool) (g : Globals) :
    Res (Except Errno Unit × Globals) :=
  match sockname, g.socketPath with
  | none, _ => .ok (.error .einval, g)
  | some _, none => .fault
  | some sockname, some socketPath =>
    if sockname ≠ socketPath then .ok (.error .enotconn, g)
    else if !closed then .ok (.error .other, g.resetSock)
    else .ok (.ok (), g.resetSock)

/-! ## Invocations -/

/-- A call of a function of the API with its arguments, where a pointer may be `NULL`. Of the
pointers that are only written through it is said whether they are not `NULL`. -/
inductive Invocation
  | openConnection (sockname : Option CString) (msec abstime : ℤ) (dialing : Dialing)
  | closeConnection (sockname : Option CString) (closed : Bool)
  | openFile (pathname : Option CString) (flags : ℤ)
  | readFile (pathname : Option CString) (buf size : Bool)
  | readNFiles (N : ℤ) (written : List Received → ℤ)
  | writeFile (pathname : Option CString) (file : Option (List UInt8)) (written : List Received → ℤ)
  | appendToFile (pathname : Option CString) (buf : Option (List UInt8))
      (written : List Received → ℤ)
  | lockFile (pathname : Option CString)
  | unlockFile (pathname : Option CString)
  | closeFile (pathname : Option CString)
  | removeFile (pathname : Option CString)

/-- What a call gives back : its value, the globals and what it has sent. -/
structure Returned where
  value : Except Errno Unit
  globals : Globals
  sent : List UInt8

/-- A function that needs the connection : `call` is `none` if one of its pointers is `NULL`. -/
def onConnection (env : Environment) (g : Globals) (call : Option Call) : Res Returned :=
  let p : ApiM (Except Errno Unit) := whenConnected <|
    match call with
    | none => return .error .einval
    | some call => call.run
  (p (g.client env)).bind fun r => .ok ⟨r.1, { g with lastOp := r.2.lastOp }, r.2.out⟩

namespace Invocation

/-- Perform a call. -/
def run (env : Environment) (g : Globals) : Invocation → Res Returned
  | .openConnection sockname msec abstime dialing =>
    (Api.openConnection sockname msec abstime dialing g).bind fun r => .ok ⟨r.1, r.2, []⟩
  | .closeConnection sockname closed =>
    (Api.closeConnection sockname closed g).bind fun r => .ok ⟨r.1, r.2, []⟩
  | .openFile pathname flags => onConnection env g (pathname.map fun p => .openFile p flags)
  | .readFile pathname buf size =>
    onConnection env g (if buf && size then pathname.map .readFile else none)
  | .readNFiles N written => onConnection env g (some (.readNFiles N written))
  | .writeFile pathname file written =>
    onConnection env g (pathname.map fun p => .writeFile p file written)
  | .appendToFile pathname buf written =>
    onConnection env g (pathname.bind fun p => buf.map fun buf => .appendToFile p buf written)
  | .closeFile pathname => onConnection env g (pathname.map .closeFile)
  | .removeFile pathname => onConnection env g (pathname.map .removeFile)
  | .lockFile _ | .unlockFile _ => .ok ⟨.error .enosys, g, []⟩

end Invocation

/-- A call that has been made : the descriptor it has found in `fd_sock`, and its value. -/
structure Made where
  fdSock : ℤ
  invocation : Invocation
  value : Except Errno Unit

/-- A process that calls functions of the API. -/
def apiSystem : System Globals Made where
  init g := g = .initial
  step g made g' := made.fdSock = g.fdSock ∧
    ∃ env sent, made.invocation.run env g = .ok ⟨made.value, g', sent⟩

/-! ## What a function records -/

/-- The record by which `writeFile` lets a path pass. -/
def LastOp.Allows (op : LastOp) (pathname : CString) : Prop :=
  op.isOpen = true ∧ op.create = true ∧ op.lock = true ∧ op.success = true ∧
    strncmpEq op.path pathname (toSize (toInt pathname.length)) = true

/-- The calls that leave `last_op` as it is : the functions that do not mention it, and those
that return before they come to it. -/
def Made.Leaves (made : Made) : Prop :=
  match made.invocation, made.value with
  | .openConnection _ _ _ _, _ | .closeConnection _ _, _ | .lockFile _, _ | .unlockFile _, _ => True
  | _, .error .enotconn => True
  | _, .error .einval => True
  -- the request could not be sent
  | .openFile _ _, .error .ebade => True
  | .writeFile _ _ _, .error .enotty => True
  | _, _ => False

section LastOp

variable {α : Type} {c c' : Client} {a : Except Errno Unit}

/-- A program that does not assign to `last_op`. -/
def KeepsLastOp (p : ApiM α) : Prop :=
  ∀ {c a c'}, p c = .ok (a, c') → c'.lastOp = c.lastOp

theorem KeepsLastOp.reads : Reads KeepsLastOp where
  pure a _ _ _ h := by
    cases h
    rfl
  bind hp hk _ _ _ h := by
    obtain ⟨⟨a, c₁⟩, h₁, h₂⟩ := Res.bind_eq_ok.1 h
    exact (hk a h₂).trans (hp h₁)
  readn size _ _ _ h := by
    obtain ⟨_, -, h₂⟩ := Res.bind_eq_ok.1 h
    cases h₂
    rfl
  safeMalloc size _ _ _ h := by
    unfold Api.safeMalloc at h
    split_ifs at h
    cases h
    rfl
  malloc a _ _ _ _ h := by
    cases h
    rfl
  choose f hp _ _ _ h := hp _ h
  fault := nofun

theorem KeepsLastOp.writen (bytes : List UInt8) : KeepsLastOp (Api.writen bytes) := by
  intro c a c' h
  unfold Api.writen at h
  split_ifs at h
  · cases h
    rfl
  · split at h
    · cases h
      rfl
    · cases h
      rfl

theorem KeepsLastOp.sendPieces (pieces : List (List UInt8)) :
    KeepsLastOp (Api.sendPieces pieces) := by
  induction pieces with
  | nil => exact reads.pure _
  | cons bytes rest ih => exact reads.bind (writen bytes) fun _ => reads.ite (reads.pure _) ih

theorem KeepsLastOp.exchange (pieces : List (List UInt8)) {reply : ApiM (Except Errno α)}
    (hreply : KeepsLastOp reply) : KeepsLastOp (Api.exchange pieces reply) :=
  reads.bind (sendPieces pieces) fun _ => reads.ite hreply (reads.pure _)

theorem whenConnected_eq_ok {p : ApiM (Except Errno α)} {r : Except Errno α}
    (h : whenConnected p c = .ok (r, c')) : r = .error .enotconn ∧ c' = c ∨ p c = .ok (r, c') := by
  unfold whenConnected at h
  split_ifs at h
  · exact .inr h
  · cases h
    exact .inl ⟨rfl, rfl⟩

/-- A call leaves `last_op` as it is, resets it, or records that it is an `openFile`. -/
theorem Call.lastOp_cases (call : Call) (h : call.run c = .ok (a, c')) :
    (c'.lastOp = c.lastOp ∧ (a = .error .enotconn ∨
      (∃ pathname flags, call = .openFile pathname flags) ∧ a = .error .ebade ∨
      (∃ pathname file written, call = .writeFile pathname file written) ∧ a = .error .enotty)) ∨
    (c'.lastOp = .reset ∧ ∀ pathname flags, call ≠ .openFile pathname flags) ∨
    ∃ pathname flags, call = .openFile pathname flags ∧
      c'.lastOp = ⟨true, isFlagSet flags oCreate, isFlagSet flags oLock, a.isOk, pathname⟩ := by
  have hreply := KeepsLastOp.reads
  -- the functions that reset it before they send and read
  have hreset : ∀ {α : Type} {pieces : List (List UInt8)} {reply : ApiM (Except Errno α)}
      {r : Except Errno α}, KeepsLastOp reply →
      whenConnected (Api.setLastOp .reset >>= fun _ => exchange pieces reply) c = .ok (r, c') →
      (c'.lastOp = c.lastOp ∧ r = .error .enotconn) ∨ c'.lastOp = .reset := by
    intro α pieces reply r hkeeps h
    rcases whenConnected_eq_ok h with ⟨rfl, rfl⟩ | h
    · exact .inl ⟨rfl, rfl⟩
    · rw [bind_of_ok (Api.setLastOp_apply _ c)] at h
      exact .inr (KeepsLastOp.exchange pieces hkeeps h)
  -- what a function gives that drops what it has read
  have hmap : ∀ {α : Type} {r : Except Errno α}, r = .error .enotconn →
      r.map (fun _ => ()) = .error .enotconn := by
    rintro α r rfl
    rfl
  cases call with
  | openFile pathname flags =>
    rcases whenConnected_eq_ok h with ⟨rfl, rfl⟩ | h
    · exact .inl ⟨rfl, .inl rfl⟩
    obtain ⟨⟨sent, c₁⟩, h₁, h⟩ := Res.bind_eq_ok.1 h
    have hop := KeepsLastOp.sendPieces _ h₁
    cases sent with
    | false =>
      cases h
      exact .inl ⟨hop, .inr (.inl ⟨⟨_, _, rfl⟩, rfl⟩)⟩
    | true =>
      obtain ⟨⟨_, c₂⟩, h₂, h⟩ := Res.bind_eq_ok.1 h
      obtain ⟨⟨r, c₃⟩, h₃, h⟩ := Res.bind_eq_ok.1 h
      have hop₃ := (hreply.readSuccess h₃).trans (hreply.safeMalloc _ h₂)
      refine .inr (.inr ⟨_, _, rfl, ?_⟩)
      cases r with
      | error e =>
        cases h
        exact hop₃
      | ok _ =>
        cases h
        rfl
  | closeFile pathname | removeFile pathname =>
    refine (hreset hreply.readSuccess h).imp (fun h => ⟨h.1, .inl h.2⟩) fun h => .inl ⟨h, nofun⟩
  | readFile pathname =>
    obtain ⟨⟨r, c₁⟩, h₁, h₂⟩ := Res.bind_eq_ok.1 h
    cases h₂
    exact (hreset hreply.readFileReply h₁).imp (fun h => ⟨h.1, .inl (hmap h.2)⟩)
      fun h => .inl ⟨h, nofun⟩
  | readNFiles N written | appendToFile pathname buf written =>
    obtain ⟨⟨r, c₁⟩, h₁, h₂⟩ := Res.bind_eq_ok.1 h
    cases h₂
    exact (hreset (hreply.filesReply written) h₁).imp (fun h => ⟨h.1, .inl (hmap h.2)⟩)
      fun h => .inl ⟨h, nofun⟩
  | writeFile pathname file written =>
    obtain ⟨⟨r, c₁⟩, h₁, h₂⟩ := Res.bind_eq_ok.1 h
    cases h₂
    rcases whenConnected_eq_ok h₁ with ⟨rfl, rfl⟩ | h₁
    · exact .inl ⟨rfl, .inl rfl⟩
    split_ifs at h₁
    · cases h₁
      exact .inl ⟨rfl, .inr (.inr ⟨⟨_, _, _, rfl⟩, rfl⟩)⟩
    refine .inr (.inl ⟨?_, nofun⟩)
    rw [bind_of_ok (Api.setLastOp_apply _ c)] at h₁
    cases file with
    | none =>
      cases h₁
      rfl
    | some contents =>
      obtain ⟨⟨_, c₂⟩, h₂, h₃⟩ := Res.bind_eq_ok.1 h₁
      obtain ⟨⟨r', c₃⟩, h₄, h₅⟩ := Res.bind_eq_ok.1 h₃
      have hop₃ : c₃.lastOp = c₂.lastOp :=
        KeepsLastOp.exchange _ (hreply.filesReply written) h₄
      have hop₂ : c₂.lastOp = .reset := hreply.safeMalloc _ h₂
      cases r' with
      | error e =>
        cases h₅
        exact hop₃.trans hop₂
      | ok n =>
        cases h₅
        exact hop₃.trans hop₂

end LastOp

/-! ## What a call does to the globals -/

section Steps

variable {env : Environment} {g g' : Globals} {made : Made} {call : Option Call} {ret : Returned}

/-- Without a connection nothing is done. -/
theorem onConnection_of_unconnected (h : g.fdSock = -1) :
    onConnection env g call = .ok ⟨.error .enotconn, g, []⟩ := by
  have hc : ¬(g.client env).connected = true := by
    simp [Globals.client, h]
  unfold onConnection whenConnected
  simp only [if_neg hc]
  rfl

/-- A function that needs the connection changes at most `last_op`, and nothing if it has been
given `NULL`. -/
theorem onConnection_eq_ok (h : onConnection env g call = .ok ret) :
    ret.globals = { g with lastOp := ret.globals.lastOp } ∧
      ((ret.globals.lastOp = g.lastOp ∧
          (ret.value = .error .enotconn ∨ ret.value = .error .einval)) ∨
        ∃ fn c', call = some fn ∧ fn.run (g.client env) = .ok (ret.value, c') ∧
          c'.lastOp = ret.globals.lastOp) := by
  obtain ⟨⟨r, c'⟩, hrun, hret⟩ := Res.bind_eq_ok.1 h
  cases hret
  refine ⟨rfl, ?_⟩
  rcases whenConnected_eq_ok hrun with ⟨rfl, rfl⟩ | hrun
  · exact .inl ⟨rfl, .inl rfl⟩
  · cases call with
    | none =>
      cases hrun
      exact .inl ⟨rfl, .inr rfl⟩
    | some fn => exact .inr ⟨fn, c', rfl, hrun, rfl⟩

theorem Made.leaves_of_refused (h : made.value = .error .enotconn ∨ made.value = .error .einval) :
    made.Leaves := by
  obtain ⟨fdSock, invocation, value⟩ := made
  rcases h with rfl | rfl <;> cases invocation <;> trivial

/-- `openConnection` and `closeConnection` leave `last_op` alone. -/
theorem openConnection_eq_ok {sockname : Option CString} {msec abstime : ℤ} {dialing : Dialing}
    {value : Except Errno Unit}
    (h : openConnection sockname msec abstime dialing g = .ok (value, g')) :
    g'.lastOp = g.lastOp ∧ (g' = g ∨ g'.fdSock = -1 ∧ g'.socketPath = none ∨
      0 ≤ g'.fdSock ∧ g'.socketPath ≠ none) := by
  unfold openConnection at h
  by_cases hconnected : g.socketPath ≠ none ∨ g.fdSock ≠ -1
  · rw [if_pos hconnected] at h
    cases h
    exact ⟨rfl, .inl rfl⟩
  rw [if_neg hconnected] at h
  push Not at hconnected
  cases sockname with
  | none =>
    cases h
    exact ⟨rfl, .inl rfl⟩
  | some sockname =>
    obtain ⟨socket, now, attempts⟩ := dialing
    dsimp only at h
    by_cases hmsec : msec < 0
    · rw [if_pos hmsec] at h
      cases h
      exact ⟨rfl, .inl rfl⟩
    · rw [if_neg hmsec] at h
      cases socket with
      | none =>
        cases h
        exact ⟨rfl, .inr (.inl ⟨rfl, hconnected.1⟩)⟩
      | some fd =>
        dsimp only at h
        split_ifs at h with hsize
        obtain ⟨r, -, h⟩ := Res.bind_eq_ok.1 h
        cases r with
        | error e =>
          cases h
          exact ⟨rfl, .inr (.inl ⟨rfl, rfl⟩)⟩
        | ok _ =>
          cases h
          exact ⟨rfl, .inr (.inr ⟨Int.natCast_nonneg fd, nofun⟩)⟩

theorem closeConnection_eq_ok {sockname : Option CString} {closed : Bool}
    {value : Except Errno Unit} (h : closeConnection sockname closed g = .ok (value, g')) :
    g'.lastOp = g.lastOp ∧ (g' = g ∨ g'.fdSock = -1 ∧ g'.socketPath = none) := by
  unfold closeConnection at h
  split at h
  · cases h
    exact ⟨rfl, .inl rfl⟩
  · cases h
  · split_ifs at h
    · cases h
      exact ⟨rfl, .inl rfl⟩
    · cases h
      exact ⟨rfl, .inr ⟨rfl, rfl⟩⟩
    · cases h
      exact ⟨rfl, .inr ⟨rfl, rfl⟩⟩

/-- A call leaves `last_op` as it is, resets it, or records that it is an `openFile`. -/
theorem Made.lastOp_cases (h : apiSystem.step g made g') :
    (g'.lastOp = g.lastOp ∧ made.Leaves) ∨
    (g'.lastOp = .reset ∧ ∀ pathname flags, made.invocation ≠ .openFile pathname flags) ∨
    ∃ pathname flags, made.invocation = .openFile (some pathname) flags ∧ g'.fdSock = made.fdSock ∧
      g'.lastOp =
        ⟨true, isFlagSet flags oCreate, isFlagSet flags oLock, made.value.isOk, pathname⟩ := by
  obtain ⟨fdSock, invocation, value⟩ := made
  obtain ⟨hfd, env, sent, h⟩ := h
  dsimp only at hfd h ⊢
  have hrefused : value = .error .enotconn ∨ value = .error .einval →
      Made.Leaves ⟨fdSock, invocation, value⟩ := fun hv => @Made.leaves_of_refused ⟨_, _, _⟩ hv
  -- the functions that reset `last_op`
  have hresets : ∀ {call : Option Call}, onConnection env g call = .ok ⟨value, g', sent⟩ →
      (∀ pathname flags, call ≠ some (.openFile pathname flags)) →
      (∀ pathname file written, call ≠ some (.writeFile pathname file written)) →
      (g'.lastOp = g.lastOp ∧ Made.Leaves ⟨fdSock, invocation, value⟩) ∨ g'.lastOp = .reset := by
    intro call h hopen hwrite
    obtain ⟨-, ⟨hop, hvalue⟩ | ⟨fn, c', rfl, hrun, hop⟩⟩ := onConnection_eq_ok h
    · exact .inl ⟨hop, hrefused hvalue⟩
    dsimp only at hrun hop
    rcases fn.lastOp_cases hrun with ⟨hkeep, hv | ⟨⟨_, _, rfl⟩, -⟩ | ⟨⟨_, _, _, rfl⟩, -⟩⟩ | hreset |
      ⟨p, flags, rfl, -⟩
    · exact .inl ⟨hop ▸ hkeep, hrefused (.inl hv)⟩
    · exact absurd rfl (hopen _ _)
    · exact absurd rfl (hwrite _ _ _)
    · exact .inr (hop ▸ hreset.1)
    · exact absurd rfl (hopen _ _)
  cases invocation with
  | openConnection sockname msec abstime dialing =>
    obtain ⟨r, hrun, hret⟩ := Res.bind_eq_ok.1 h
    cases hret
    exact .inl ⟨(openConnection_eq_ok hrun).1, trivial⟩
  | closeConnection sockname closed =>
    obtain ⟨r, hrun, hret⟩ := Res.bind_eq_ok.1 h
    cases hret
    exact .inl ⟨(closeConnection_eq_ok hrun).1, trivial⟩
  | lockFile | unlockFile =>
    cases h
    exact .inl ⟨rfl, trivial⟩
  | openFile pathname flags =>
    obtain ⟨hglobals, ⟨hop, hvalue⟩ | ⟨fn, c', hfn, hrun, hop⟩⟩ := onConnection_eq_ok h
    · exact .inl ⟨hop, hrefused hvalue⟩
    obtain ⟨p, rfl, rfl⟩ := Option.map_eq_some_iff.1 hfn
    dsimp only at hglobals hrun hop
    rw [← hop]
    rcases Call.lastOp_cases _ hrun with ⟨hkeep, rfl | ⟨-, rfl⟩ | ⟨⟨_, _, _, hne⟩, -⟩⟩ |
      ⟨-, hne⟩ | ⟨_, _, hsame, hrecord⟩
    · exact .inl ⟨hkeep, hrefused (.inl rfl)⟩
    · exact .inl ⟨hkeep, trivial⟩
    · cases hne
    · exact absurd rfl (hne _ _)
    · cases hsame
      exact .inr (.inr ⟨_, _, rfl, by rw [hglobals, hfd], hrecord⟩)
  | writeFile pathname file written =>
    obtain ⟨-, ⟨hop, hvalue⟩ | ⟨fn, c', hfn, hrun, hop⟩⟩ := onConnection_eq_ok h
    · exact .inl ⟨hop, hrefused hvalue⟩
    obtain ⟨p, rfl, rfl⟩ := Option.map_eq_some_iff.1 hfn
    dsimp only at hrun hop
    rw [← hop]
    rcases Call.lastOp_cases _ hrun with ⟨hkeep, rfl | ⟨⟨_, _, hne⟩, -⟩ | ⟨-, rfl⟩⟩ |
      ⟨hreset, -⟩ | ⟨_, _, hne, -⟩
    · exact .inl ⟨hkeep, hrefused (.inl rfl)⟩
    · cases hne
    · exact .inl ⟨hkeep, trivial⟩
    · exact .inr (.inl ⟨hreset, nofun⟩)
    · cases hne
  | readFile pathname buf size =>
    refine (hresets h (fun _ _ hcall => ?_) fun _ _ _ hcall => ?_).imp_right
      fun hreset => .inl ⟨hreset, nofun⟩
    · split_ifs at hcall
      obtain ⟨_, -, hne⟩ := Option.map_eq_some_iff.1 hcall
      cases hne
    · split_ifs at hcall
      obtain ⟨_, -, hne⟩ := Option.map_eq_some_iff.1 hcall
      cases hne
  | readNFiles N written =>
    have hcall : onConnection env g (some (.readNFiles N written)) = .ok ⟨value, g', sent⟩ := h
    refine (hresets hcall (fun _ _ hne => ?_) fun _ _ _ hne => ?_).imp_right
      fun hreset => .inl ⟨hreset, nofun⟩
    · cases hne
    · cases hne
  | appendToFile pathname buf written =>
    refine (hresets h (fun _ _ hcall => ?_) fun _ _ _ hcall => ?_).imp_right
      fun hreset => .inl ⟨hreset, nofun⟩
    · obtain ⟨_, -, hcall⟩ := Option.bind_eq_some_iff.1 hcall
      obtain ⟨_, -, hne⟩ := Option.map_eq_some_iff.1 hcall
      cases hne
    · obtain ⟨_, -, hcall⟩ := Option.bind_eq_some_iff.1 hcall
      obtain ⟨_, -, hne⟩ := Option.map_eq_some_iff.1 hcall
      cases hne
  | closeFile pathname | removeFile pathname =>
    refine (hresets h (fun _ _ hcall => ?_) fun _ _ _ hcall => ?_).imp_right
      fun hreset => .inl ⟨hreset, nofun⟩
    · obtain ⟨_, -, hne⟩ := Option.map_eq_some_iff.1 hcall
      cases hne
    · obtain ⟨_, -, hne⟩ := Option.map_eq_some_iff.1 hcall
      cases hne

/-- A call leaves the connection as it is, ends it, or makes it. -/
theorem Made.sock_cases (h : apiSystem.step g made g') :
    (g'.fdSock = g.fdSock ∧ g'.socketPath = g.socketPath) ∨
      (g'.fdSock = -1 ∧ g'.socketPath = none) ∨ (0 ≤ g'.fdSock ∧ g'.socketPath ≠ none) := by
  obtain ⟨fdSock, invocation, value⟩ := made
  obtain ⟨-, env, sent, h⟩ := h
  dsimp only at h
  have hneeds : ∀ {call : Option Call}, onConnection env g call = .ok ⟨value, g', sent⟩ →
      g'.fdSock = g.fdSock ∧ g'.socketPath = g.socketPath := by
    intro call h
    have hglobals : g' = { g with lastOp := g'.lastOp } := (onConnection_eq_ok h).1
    rw [hglobals]
    exact ⟨rfl, rfl⟩
  cases invocation with
  | openConnection sockname msec abstime dialing =>
    obtain ⟨r, hrun, hret⟩ := Res.bind_eq_ok.1 h
    cases hret
    refine (openConnection_eq_ok hrun).2.imp_left fun hsame => ?_
    rw [hsame]
    exact ⟨rfl, rfl⟩
  | closeConnection sockname closed =>
    obtain ⟨r, hrun, hret⟩ := Res.bind_eq_ok.1 h
    cases hret
    rcases (closeConnection_eq_ok hrun).2 with hsame | hclosed
    · rw [hsame]
      exact .inl ⟨rfl, rfl⟩
    · exact .inr (.inl hclosed)
  | lockFile | unlockFile =>
    cases h
    exact .inl ⟨rfl, rfl⟩
  | readNFiles N written =>
    have hcall : onConnection env g (some (.readNFiles N written)) = .ok ⟨value, g', sent⟩ := h
    exact .inl (hneeds hcall)
  | openFile | readFile | writeFile | appendToFile | closeFile | removeFile => exact .inl (hneeds h)

end Steps

/-! ## Runs -/

/-- The arguments of a call that have to be given are not `NULL`. -/
def Invocation.NonNull : Invocation → Prop
  | .openConnection sockname _ _ _ | .closeConnection sockname _ => sockname ≠ none
  | .openFile pathname _ | .writeFile pathname _ _ | .closeFile pathname | .removeFile pathname =>
    pathname ≠ none
  | .lockFile pathname | .unlockFile pathname => pathname ≠ none
  | .readFile pathname buf size => pathname ≠ none ∧ buf = true ∧ size = true
  | .readNFiles _ _ => True
  | .appendToFile pathname buf _ => pathname ≠ none ∧ buf ≠ none

/-- The functions that look at `fd_sock` before anything else. -/
def Invocation.TestsSock : Invocation → Prop
  | .openConnection _ _ _ _ | .closeConnection _ _ | .lockFile _ | .unlockFile _ => False
  | _ => True

/-- The call sends something, if everything outside goes well. -/
def Globals.Sends (g : Globals) (invocation : Invocation) : Prop :=
  ∃ env ret, invocation.run env g = .ok ret ∧ ret.sent ≠ []

/-- The call before was an `openFile` of this path on this connection that has created the
file and locked it. -/
def Follows (g : Globals) (pathname : CString) (tr : List Made) : Prop :=
  ∃ flags rest, tr = ⟨g.fdSock, .openFile (some pathname) flags, .ok ()⟩ :: rest ∧
    isFlagSet flags oCreate = true ∧ isFlagSet flags oLock = true

section Runs

variable {env : Environment} {g g' : Globals} {tr : List Made} {made : Made} {pathname : CString}
  {file : Option (List UInt8)} {written : List Received → ℤ}

/-- `writeFile` sends if it is connected, the record lets the path pass and it can read the
file. -/
theorem sends_writeFile_iff : g.Sends (.writeFile (some pathname) file written) ↔
    g.fdSock ≠ -1 ∧ g.lastOp.Allows pathname ∧ file.isSome := by
  have hguard : ∀ op : LastOp, (!op.isOpen || !op.create || !op.lock || !op.success ||
      !strncmpEq op.path pathname (toSize (toInt pathname.length))) = true ↔
        ¬op.Allows pathname := by
    intro op
    simp only [LastOp.Allows, Bool.or_eq_true, Bool.not_eq_true', not_and_or, Bool.not_eq_true,
      or_assoc]
  constructor
  · rintro ⟨env, ret, hrun, hsent⟩
    have hcall : onConnection env g (some (.writeFile pathname file written)) = .ok ret := hrun
    obtain ⟨⟨r, c'⟩, hwrite, hret⟩ := Res.bind_eq_ok.1 hcall
    cases hret
    dsimp only at hwrite hsent
    by_cases hfd : g.fdSock = -1
    · rw [onConnection_of_unconnected hfd] at hcall
      exact absurd (congrArg Returned.sent (Res.ok.inj hcall)).symm hsent
    refine ⟨hfd, ?_⟩
    rcases whenConnected_eq_ok hwrite with ⟨-, rfl⟩ | hwrite
    · exact absurd rfl hsent
    obtain ⟨⟨r', c₁⟩, hwrite, hmap⟩ := Res.bind_eq_ok.1 hwrite
    cases hmap
    rcases whenConnected_eq_ok hwrite with ⟨-, rfl⟩ | hwrite
    · exact absurd rfl hsent
    split_ifs at hwrite with hg
    · cases hwrite
      exact absurd rfl hsent
    refine ⟨not_not.1 fun hop => hg ((hguard _).2 hop), ?_⟩
    cases file with
    | none =>
      cases hwrite
      exact absurd rfl hsent
    | some contents => rfl
  · rintro ⟨hfd, hop, hfile⟩
    obtain ⟨contents, rfl⟩ := Option.isSome_iff_exists.1 hfile
    -- everything is sent, and no answer arrives
    let env : Environment := ⟨⟨[], .eof⟩, [], allGranted⟩
    let c₁ : Client := { g.client env with
      lastOp := .reset
      out := [] ++ (writeFilePieces pathname contents).flatten }
    have hc : (g.client env).connected = true := by
      simp [Globals.client, hfd]
    have hreply : filesReply written c₁ = .ok (.error .ebade, c₁) := rfl
    have hwrite : Api.writeFile pathname (some contents) written (g.client env) =
        .ok (.error .ebade, c₁) := by
      rw [Api.writeFile, whenConnected_of hc, if_neg fun hg =>
        (hguard (g.client env).lastOp).1 hg hop,
        bind_of_ok (setLastOp_apply _ _)]
      have hmalloc : safeMalloc contents.length { g.client env with lastOp := .reset } =
          .ok ((), { g.client env with lastOp := .reset }) := rfl
      rw [bind_of_ok hmalloc, bind_of_ok ((exchange_eq rfl _ _).trans hreply)]
      rfl
    refine ⟨env, ⟨.error .ebade, { g with lastOp := .reset }, c₁.out⟩, ?_, ?_⟩
    · change onConnection env g (some (.writeFile pathname (some contents) written)) = _
      have hrun : Call.run (.writeFile pathname (some contents) written) (g.client env) =
          .ok (.error .ebade, c₁) := by
        rw [Call.run, bind_of_ok hwrite]
        rfl
      unfold onConnection
      dsimp only
      rw [whenConnected_of hc, hrun]
      rfl
    · exact List.cons_ne_nil _ _

/-- What is recorded is recorded by the call before, or that has left it. -/
theorem follows_or_leaves (h : Run apiSystem tr g) (hop : g.lastOp.Allows pathname) :
    (∃ made ∈ tr.head?, made.Leaves) ∨ Follows g g.lastOp.path tr := by
  obtain ⟨hopen, hcreate, hlock, hsuccess, -⟩ := hop
  cases h with
  | start h =>
    obtain rfl : g = .initial := h
    cases hopen
  | @step rest g₀ made g h hs =>
    rcases Made.lastOp_cases hs with ⟨-, hleaves⟩ | ⟨hreset, -⟩ | ⟨p, flags, hinv, hfd, hrecord⟩
    · exact .inl ⟨made, rfl, hleaves⟩
    · rw [hreset] at hopen
      cases hopen
    · rw [hrecord] at hcreate hlock hsuccess
      have hvalue : made.value = .ok () := by
        cases hv : made.value with
        | error e =>
          rw [hv] at hsuccess
          cases hsuccess
        | ok _ => rfl
      refine .inr ⟨flags, rest, ?_, hcreate, hlock⟩
      rw [hrecord, hfd, ← hinv, ← hvalue]

theorem path_of_follows (h : Run apiSystem tr g) (hfollows : Follows g pathname tr) :
    g.lastOp.path = pathname := by
  obtain ⟨flags, rest, rfl, -⟩ := hfollows
  cases h with
  | step h hs =>
    rcases Made.lastOp_cases hs with ⟨-, hleaves⟩ | ⟨-, hne⟩ | ⟨p, flags', hinv, -, hrecord⟩
    · exact hleaves.elim
    · exact absurd rfl (hne _ _)
    · cases hinv
      rw [hrecord]

/-- In every run, `writeFile` sends only right after an `openFile` of the whole path that has
created and locked it, unless the call before has left an older record alone, or the path is
only the beginning of the recorded one. -/
theorem writeFile_of_run (h : Run apiSystem tr g) :
    (g.Sends (.writeFile (some pathname) file written) → Follows g pathname tr) ↔
      (g.fdSock ≠ -1 ∧ g.lastOp.Allows pathname ∧ file.isSome →
        (∀ made ∈ tr.head?, ¬made.Leaves) ∧ g.lastOp.path = pathname) := by
  rw [sends_writeFile_iff]
  refine forall_congr' fun hsends => ⟨fun hfollows => ?_, fun ⟨hleaves, hpath⟩ => ?_⟩
  · refine ⟨fun made hmade hleaves => ?_, path_of_follows h hfollows⟩
    obtain ⟨flags, rest, rfl, -⟩ := hfollows
    cases hmade
    exact hleaves
  · rcases follows_or_leaves h hsends.2.1 with ⟨made, hmade, hm⟩ | hfollows
    · exact absurd hm (hleaves made hmade)
    · rwa [hpath] at hfollows

/-- A run that connects, creates a file and locks it. -/
theorem exists_opened : ∃ tr g, Run apiSystem tr g ∧ Follows g [97, 98] tr ∧
    g.fdSock = 3 ∧ g.lastOp = ⟨true, true, true, true, [97, 98]⟩ := by
  let g₁ : Globals := ⟨3, some [115], .reset⟩
  let op : LastOp := ⟨true, true, true, false, [97, 98]⟩
  let g₂ : Globals := { g₁ with lastOp := { op with success := true } }
  have hconnect : apiSystem.step .initial
      ⟨-1, .openConnection (some [115]) 0 0 ⟨some 3, 0, [⟨true, true, none⟩]⟩, .ok ()⟩ g₁ :=
    ⟨rfl, ⟨⟨[], .eof⟩, [], allGranted⟩, [], rfl⟩
  have hopen : apiSystem.step g₁ ⟨3, .openFile (some [97, 98]) 3, .ok ()⟩ g₂ := by
    let env : Environment := ⟨⟨intBytes Sa.success.code ++ [], .eof⟩, [], allGranted⟩
    let c : Client := { g₁.client env with out := (openFilePieces [97, 98] 3).flatten }
    let c₂ : Client := { c with lastOp := { op with success := true }, inp := ⟨[], .eof⟩ }
    have hsend : sendPieces (openFilePieces [97, 98] 3) (g₁.client env) = .ok (true, c) :=
      sendPieces_eq rfl _
    have hread : readSuccess { c with lastOp := op } =
        .ok (.ok (), ({ c with lastOp := op } : Client).left []) := by
      have hleft := @readSuccess_left { c with lastOp := op } [] .success
      rw [if_pos rfl] at hleft
      exact hleft
    have hrun : Call.run (.openFile [97, 98] 3) (g₁.client env) = .ok (.ok (), c₂) := by
      rw [Call.run, Api.openFile, whenConnected_of rfl, bind_of_ok hsend]
      have hmalloc : ∀ n, safeMalloc n { c with lastOp := op } =
        .ok ((), { c with lastOp := op }) :=
        fun _ => rfl
      change (setLastOp op >>= fun _ => _) c = _
      rw [bind_of_ok (setLastOp_apply op c), bind_of_ok (hmalloc _), bind_of_ok hread]
      rfl
    refine ⟨rfl, env, c.out, ?_⟩
    change onConnection env g₁ (some (.openFile [97, 98] 3)) = _
    unfold onConnection
    dsimp only
    rw [whenConnected_of rfl, hrun]
    rfl
  exact ⟨_, _, .step (.step (.start rfl) hconnect) hopen, ⟨3, _, rfl, rfl, rfl⟩, rfl, rfl⟩

/-- The write of a file that the process has just created and locked. -/
theorem writeFile_of_run_opened : ∃ tr g, Run apiSystem tr g ∧ Follows g [97, 98] tr ∧
    (g.fdSock ≠ -1 ∧ g.lastOp.Allows [97, 98] ∧ (some [1] : Option (List UInt8)).isSome →
      (∀ made ∈ tr.head?, ¬made.Leaves) ∧ g.lastOp.path = [97, 98]) := by
  obtain ⟨tr, g, hrun, hfollows, -⟩ := exists_opened
  exact ⟨tr, g, hrun, hfollows, (@writeFile_of_run _ _ _ _ (fun _ => 0) hrun).1 fun _ => hfollows⟩

/-- A process that has created `ab` and locked it writes to `a`. -/
theorem not_writeFile_of_run : ¬∀ (tr : List Made) (g : Globals) (pathname : CString)
    (file : Option (List UInt8)) (written : List Received → ℤ), Run apiSystem tr g →
    g.Sends (.writeFile (some pathname) file written) → Follows g pathname tr := by
  intro hall
  obtain ⟨tr, g, hrun, hfollows, hfd, hop⟩ := exists_opened
  have hallows : g.lastOp.Allows [97] := by
    have hlen : toSize (toInt ([97] : CString).length) = 1 := by
      rw [toInt_of_range (by decide) (by decide)]
      exact toSize_of_range (by decide)
    rw [hop]
    refine ⟨rfl, rfl, rfl, rfl, ?_⟩
    rw [hlen]
    rfl
  have hsends : g.Sends (.writeFile (some [97]) (some [1]) fun _ => 0) :=
    sends_writeFile_iff.2 ⟨by rw [hfd]; decide, hallows, rfl⟩
  have hne := path_of_follows hrun (hall tr g [97] (some [1]) (fun _ => 0) hrun hsends)
  rw [hop] at hne
  cases hne

/-- The descriptor and the path of the socket are set and reset together. -/
theorem sock_of_run (h : Run apiSystem tr g) : g.fdSock = -1 ↔ g.socketPath = none := by
  refine h.induction (I := fun _ g => g.fdSock = -1 ↔ g.socketPath = none) ?_ ?_
  · rintro g rfl
    exact ⟨fun _ => rfl, fun _ => rfl⟩
  · rintro tr g made g' - hg hs
    rcases Made.sock_cases hs with ⟨hfd, hpath⟩ | ⟨hfd, hpath⟩ | ⟨hfd, hpath⟩
    · rwa [hfd, hpath]
    · exact ⟨fun _ => hpath, fun _ => hfd⟩
    · exact ⟨fun h => by omega, fun h => absurd h hpath⟩

/-- In every run `fd_sock` is `-1` just when `socket_path` is `NULL`, and a function of the API
that is called without a connection gives `ENOTCONN` and sends nothing if it is one of those
that look at `fd_sock`, and only then. -/
theorem refuses_of_run (h : Run apiSystem tr g) :
    (g.fdSock = -1 ↔ g.socketPath = none) ∧
      ∀ (env : Environment) (invocation : Invocation), (∀ sockname msec abstime dialing,
          invocation ≠ .openConnection sockname msec abstime dialing) →
        invocation.NonNull → g.fdSock = -1 →
          (invocation.run env g = .ok ⟨.error .enotconn, g, []⟩ ↔ invocation.TestsSock) := by
  refine ⟨sock_of_run h, fun env invocation hconn hnull hfd => ?_⟩
  cases invocation with
  | openConnection => exact absurd rfl (hconn _ _ _ _)
  | closeConnection sockname closed =>
    refine iff_of_false (fun hrun => ?_) id
    obtain ⟨sockname, rfl⟩ := Option.ne_none_iff_exists'.1 hnull
    have hfault : closeConnection (some sockname) closed g = .fault := by
      unfold closeConnection
      rw [(sock_of_run h).1 hfd]
    rw [Invocation.run, hfault] at hrun
    cases hrun
  | lockFile | unlockFile => exact iff_of_false nofun id
  | readNFiles N written =>
    have hcall : onConnection env g (some (.readNFiles N written)) =
        .ok ⟨.error .enotconn, g, []⟩ := onConnection_of_unconnected hfd
    exact iff_of_true hcall trivial
  | openFile | readFile | writeFile | appendToFile | closeFile | removeFile =>
    exact iff_of_true (onConnection_of_unconnected hfd) trivial

/-- The process connects and closes the connection. -/
theorem refuses_of_run_closed : ∃ tr g, Run apiSystem tr g ∧ tr ≠ [] ∧
    ∀ env pathname, Invocation.run env g (.removeFile (some pathname)) =
      .ok ⟨.error .enotconn, g, []⟩ := by
  let g₁ : Globals := ⟨3, some [115], .reset⟩
  have hconnect : apiSystem.step .initial
      ⟨-1, .openConnection (some [115]) 0 0 ⟨some 3, 0, [⟨true, true, none⟩]⟩, .ok ()⟩ g₁ :=
    ⟨rfl, ⟨⟨[], .eof⟩, [], allGranted⟩, [], rfl⟩
  have hclose : apiSystem.step g₁ ⟨3, .closeConnection (some [115]) true, .ok ()⟩ .initial :=
    ⟨rfl, ⟨⟨[], .eof⟩, [], allGranted⟩, [], rfl⟩
  have hrun : Run apiSystem _ .initial := .step (.step (.start rfl) hconnect) hclose
  refine ⟨_, _, hrun, List.cons_ne_nil _ _, fun env pathname => ?_⟩
  have hnull : (Invocation.removeFile (some pathname)).NonNull := Option.some_ne_none _
  refine ((refuses_of_run hrun).2 env _ (fun _ _ _ _ h => ?_) hnull rfl).2 trivial
  cases h

/-- `closeConnection` without a connection does not return. -/
theorem not_refuses : ¬∀ (tr : List Made) (g : Globals) (env : Environment)
    (invocation : Invocation), Run apiSystem tr g → (∀ sockname msec abstime dialing,
      invocation ≠ .openConnection sockname msec abstime dialing) → invocation.NonNull →
    g.fdSock = -1 → invocation.run env g = .ok ⟨.error .enotconn, g, []⟩ := by
  intro hall
  have hrun := hall [] .initial ⟨⟨[], .eof⟩, [], allGranted⟩ (.closeConnection (some [115]) true)
    (.start rfl) nofun nofun rfl
  cases hrun

end Runs

end StorageServer.Api
