import Mathlib.Algebra.Order.BigOperators.Group.List
import Mathlib.Algebra.Order.Group.Nat
import StorageServer.Answers
import StorageServer.Progress

/-!
# A client and the server on one connection

The calls that a client makes on its connection, between the requests of other clients
(`connectionSystem`). After every call on a connection that the server keeps, nothing is left
to be read (`consumed_of_run`), if every file that is sent is one that the client can read
back, and the client has memory for the list of the files (`Receivable`). An empty file that
`read_file` sends is not one : the `readn` of its contents returns `0`, and the final code stays
in the socket (`not_consumed`). Without memory for the list, none of the files is read.
-/

open Programs Transitions

namespace StorageServer

/-! ## The connection -/

/-- The server, and one of its clients. -/
structure Connection where
  server : Server
  client : Api.Client
  /-- What the client has sent and the server has not read. -/
  unread : List UInt8
  /-- The server keeps the connection. -/
  isOpen : Bool

/-- What the client finds after the answer : the main thread closes a connection that it does
not keep. -/
def WorkerCode.ending (code : WorkerCode) : Ending :=
  if code.keeps then .waiting else .eof

/-- A client calls a function of the API. If it sends anything, a worker serves it : the worker
reads what the function writes, and the function reads what the worker writes. -/
inductive Connection.Call (cfg : ServerConfig) (fdClient : ℕ) {α : Type} (p : Api.ApiM α)
    (l : Local) : Connection → α → Connection → Prop
  | unsent {s : Store} {c c' : Api.Client} {u : List UInt8} {isOpen : Bool} {a : α}
      (hclient : p c = .ok (a, c')) (hout : c'.out = c.out) :
      Call cfg fdClient p l ⟨⟨s, none⟩, c, u, isOpen⟩ a ⟨⟨s, none⟩, c', u, isOpen⟩
  | served {s s' : Store} {c c' : Api.Client} {u sent : List UInt8} {a : α} {l' : Local}
      {code : WorkerCode}
      (hclient : p { c with inp := ⟨c.inp.bytes ++ l'.out, code.ending⟩ } = .ok (a, c'))
      (hsent : c'.out = c.out ++ sent) (hne : sent ≠ [])
      (hworker : Prog.run exec (worker cfg fdClient)
        ({ l with inp := ⟨u ++ sent, .waiting⟩, out := [] }, s) = .ok (code, (l', s'))) :
      Call cfg fdClient p l ⟨⟨s, none⟩, c, u, true⟩ a
        ⟨⟨s', none⟩, c', l'.inp.bytes, code.keeps⟩

/-- The events on a connection. -/
inductive ConnectionEvent
  /-- A step of the server on behalf of another client. -/
  | other (e : Event)
  /-- A call of the client, with the allocations that it is granted. -/
  | call (call : Api.Call) (malloc : Allocation → Bool)

/-- The steps of a connection. -/
inductive Connection.Step (cfg : ServerConfig) (fdClient : ℕ) :
    Connection → ConnectionEvent → Connection → Prop
  | other {σ σ' : Server} {e : Event} {c : Api.Client} {u : List UInt8} {isOpen : Bool}
      (h : Server.Step cfg σ e σ') :
      Step cfg fdClient ⟨σ, c, u, isOpen⟩ (.other e) ⟨σ', c, u, isOpen⟩
  | call {σ : Server} {c : Api.Client} {u : List UInt8} {isOpen : Bool} {κ' : Connection}
      {call : Api.Call} {malloc : Allocation → Bool} {l : Local} {a : Except Api.Errno Unit}
      (ht : call.Typed) (hl : l.Steady) (hfit : σ.store.fileSystem.Fits call.decoded)
      (h : Connection.Call cfg fdClient call.run l
        ⟨σ, { c with malloc := malloc }, u, isOpen⟩ a κ') :
      Step cfg fdClient ⟨σ, c, u, isOpen⟩ (.call call malloc) κ'

/-- A client on a connection. -/
def connectionSystem (cfg : ServerConfig) (fdClient : ℕ) : System Connection ConnectionEvent where
  init κ := κ.server = ⟨.initial, none⟩ ∧ κ.client.inp.bytes = [] ∧ κ.client.sends = [] ∧
    κ.unread = []
  step := Connection.Step cfg fdClient

/-- The client can read back every file that is sent to it, and has memory for a list of them. -/
def ConnectionEvent.Receivable (cfg : ServerConfig) (fdClient : ℕ) (κ : Connection) :
    ConnectionEvent → Prop
  | .other _ => True
  | .call f malloc => κ.server.store.fileSystem.Receivable cfg fdClient malloc f.decoded

/-- The client and the server agree on where the next message starts. -/
structure Connection.InStep (cfg : ServerConfig) (κ : Connection) : Prop where
  server : ∃ φ, κ.server.Refines cfg φ
  sends : κ.client.sends = []
  consumed : κ.isOpen → κ.client.inp.bytes = [] ∧ κ.unread = []

section Conversation

variable {cfg : ServerConfig} {fdClient : ℕ} {κ κ' : Connection} {e : ConnectionEvent}
  {tr : List ConnectionEvent} {call : Api.Call} {l : Local} {a : Except Api.Errno Unit}
  {s : Store} {xs : List (FilePtr × File)} {req : Request}

/-- The files in memory are as long as they say. -/
theorem Store.Idle.sized (hs : s.Idle cfg xs) (hfit : s.fileSystem.Fits req) :
    ∀ f ∈ s.fileSystem.files, f.Sized := by
  intro f hf
  have hsize := hs.wf_files hf
  have hle : f.contents.length ≤ s.fileSystem.contentBytes :=
    List.le_sum_of_mem (List.mem_map_of_mem hf)
  have hlt : s.fileSystem.contentBytes < 2 ^ 63 := lt_of_le_of_lt (Nat.le_add_right ..) hfit
  exact ⟨hsize, by omega⟩

theorem Api.Call.flatten_pieces_ne_nil (call : Api.Call) : call.pieces.flatten ≠ [] := by
  rw [Api.Call.flatten_pieces]
  exact List.ne_nil_of_length_pos (by simp only [List.length_append, length_intBytes]; omega)

/-- What a call that sends anything sends, and what it then does with the answer. -/
theorem sent_eq {c c' : Api.Client} {inp : Stream} {sent : List UInt8} (hsends : c.sends = [])
    (hclient : call.run { c with inp := inp } = .ok (a, c')) (hsent : c'.out = c.out ++ sent)
    (hne : sent ≠ []) : sent = call.pieces.flatten ∧ c'.sends = [] ∧ ∃ op,
      call.reply { c with inp := inp, lastOp := op, out := c.out ++ call.pieces.flatten } =
        .ok (a, c') := by
  rcases call.run_cases (c := { c with inp := inp }) hsends hclient with ⟨hout, -⟩ | ⟨op, hreply⟩
  · have hnil : c.out ++ sent = c.out := hsent.symm.trans hout
    exact absurd (List.append_right_eq_self.1 hnil) hne
  · obtain ⟨hout, hsends'⟩ := call.reading_reply.frame hreply
    have hbytes : c.out ++ sent = c.out ++ call.pieces.flatten := hsent.symm.trans hout
    exact ⟨List.append_cancel_left hbytes, hsends'.trans hsends, op, hreply⟩

/-- A call leaves the client and the server in step. -/
theorem Connection.Call.inStep (h : Connection.Call cfg fdClient call.run l κ a κ')
    (hκ : κ.InStep cfg) (ht : call.Typed) (hl : l.Steady)
    (hfit : κ.server.store.fileSystem.Fits call.decoded)
    (hr : κ.server.store.fileSystem.Receivable cfg fdClient κ.client.malloc call.decoded) :
    κ'.InStep cfg := by
  obtain ⟨⟨φ, hφ⟩, hsends, hconsumed⟩ := hκ
  cases h with
  | @unsent s c c' u isOpen a hclient hout =>
    rcases call.run_cases hsends hclient with ⟨-, hinp, hsends'⟩ | ⟨op, hreply⟩
    · refine ⟨⟨φ, hφ⟩, hsends', fun ho => ?_⟩
      rw [show c'.inp = c.inp from hinp]
      exact hconsumed ho
    · have hsent : c.out ++ call.pieces.flatten = c.out :=
        (call.reading_reply.frame hreply).1.symm.trans hout
      exact absurd (List.append_right_eq_self.1 hsent) call.flatten_pieces_ne_nil
  | @served s s' c c' u sent a l' code hclient hsent hne hworker =>
    obtain ⟨rfl, hsends', op, hreply⟩ := sent_eq hsends hclient hsent hne
    obtain ⟨hinp, rfl⟩ := hconsumed rfl
    obtain ⟨xs, hs, -⟩ := hφ.idle
    obtain ⟨⟨xs', hs'⟩, hanswered⟩ := of_worker
      (l := { l with inp := ⟨[] ++ call.pieces.flatten, .waiting⟩, out := [] }) hs ht rfl hl hfit
      hworker
    refine ⟨⟨⟨s'.fileSystem, none⟩, ⟨xs', hs', not_replying⟩, rfl, rfl⟩, hsends', fun hkeeps => ?_⟩
    obtain ⟨readings, out, fs, hanswered⟩ := hanswered hkeeps
    have hbytes : FileSystem.Outcome.answer out ++ [] = c.inp.bytes ++ l'.out := by
      rw [show c.inp.bytes = [] from hinp, hanswered.out, List.append_nil]
      rfl
    let c₁ : Api.Client :=
      { c with inp := ⟨[], code.ending⟩, lastOp := op, out := c.out ++ call.pieces.flatten }
    have hgranted : call.reply (c₁.granted.left (FileSystem.Outcome.answer out ++ [])) =
        .ok (a, c'.granted) := by
      rw [hbytes]
      exact call.reading_reply.granted hreply
    obtain ⟨a', op', hread⟩ := reads_answer (c := c₁.granted) hanswered.effect hr
      (hs.sized hfit) (fun _ => rfl)
    have hc' := (Prod.mk.inj (Res.ok.inj (hgranted.symm.trans hread))).2
    exact ⟨congrArg (fun c => c.inp.bytes) hc', congrArg Stream.bytes hanswered.inp⟩

/-- Every step keeps the client and the server in step. -/
theorem Connection.Step.inStep (h : Connection.Step cfg fdClient κ e κ') (hκ : κ.InStep cfg)
    (he : e.Receivable cfg fdClient κ) : κ'.InStep cfg := by
  cases h with
  | other h =>
    obtain ⟨⟨φ, hφ⟩, hsends, hconsumed⟩ := hκ
    obtain ⟨φ', -, hφ'⟩ := h.refines hφ
    exact ⟨⟨φ', hφ'⟩, hsends, hconsumed⟩
  | @call σ c u isOpen _ call malloc l a ht hl hfit h =>
    obtain ⟨hserver, hsends, hconsumed⟩ := hκ
    exact h.inStep ⟨hserver, hsends, hconsumed⟩ ht hl hfit he

/-- In every run on a connection in which every file that is sent is one that the client can
read back, and the client has memory for the lists of files, nothing that the server has written is
left to be read after a call, as long as the server keeps the connection. -/
theorem consumed_of_run
    (h : Run ((connectionSystem cfg fdClient).restrict fun κ e => e.Receivable cfg fdClient κ) tr κ)
    (hopen : κ.isOpen) : κ.client.inp.bytes = [] ∧ κ.unread = [] := by
  have hκ : κ.InStep cfg := by
    refine h.induction (I := fun _ κ => κ.InStep cfg) ?_ ?_
    · rintro ⟨σ, c, u, isOpen⟩ ⟨rfl, hinp, hsends, hunread⟩
      exact ⟨⟨⟨.empty, none⟩, ⟨[], idle_initial, not_replying⟩, fileSystem_initial, rfl⟩, hsends,
        fun _ => ⟨hinp, hunread⟩⟩
    · rintro - κ e κ' - hκ ⟨he, hstep⟩
      exact hstep.inStep hκ he
  exact hκ.consumed hopen

/-! ## Calls that return -/

section Calls

variable {c : Api.Client} {path : CString} {f : File}

/-- A worker that serves a call with success, and a function that reads its answer. -/
theorem Connection.Call.of_answer {α : Type} {p : Api.ApiM α} {a : α} {c' : Api.Client}
    {l' : Local} {s' : Store} {answer : List UInt8}
    (hrun : Prog.run exec (worker cfg fdClient)
      ({ l with inp := ⟨[] ++ call.pieces.flatten, .waiting⟩, out := [] }, s) =
        .ok (.success, (l', s')))
    (hinp : l'.inp.bytes = []) (hout : l'.out = [] ++ answer)
    (hclient : p (c.receives answer) = .ok (a, c'))
    (hsent : c'.out = c.out ++ call.pieces.flatten) :
    Connection.Call cfg fdClient p l ⟨⟨s, none⟩, c, [], true⟩ a ⟨⟨s', none⟩, c', [], true⟩ := by
  have hclient' : p { c with inp := ⟨c.inp.bytes ++ l'.out, WorkerCode.success.ending⟩ } =
      .ok (a, c') := by
    rw [hout]
    exact hclient
  have h := Connection.Call.served hclient' hsent call.flatten_pieces_ne_nil hrun
  rwa [hinp] at h

/-- A call creates a file while the number of files is below its limit. -/
theorem Connection.Call.create (hs : s.Idle cfg xs) (hc : c.Ready) (hl : l.Good)
    (hpath : Api.Call.ValidPath path) {flags : ℤ} (hflags : Api.Call.ValidInt flags)
    (hcreate : isFlagSet flags oCreate = true) (hfind : s.fileSystem.find? path = none)
    (hfiles : s.currState.files ≠ cfg.maxFiles) :
    ∃ t₁ t₂, Connection.Call cfg fdClient (Api.Call.openFile path flags).run l
      ⟨⟨s, none⟩, c, [], true⟩ (.ok ())
      ⟨⟨s.created .all path (File.new allGranted path flags fdClient t₁ t₂), none⟩,
        c.after (.openFile path flags)
          ⟨true, isFlagSet flags oCreate, isFlagSet flags oLock, true, path⟩, [], true⟩ := by
  let l₀ : Local :=
    { l with inp := ⟨[] ++ (Api.Call.openFile path flags).pieces.flatten, .waiting⟩, out := [] }
  have hl₀ : l₀.Good := ⟨hl.reliable, hl.malloc, hl.clock⟩
  have hbytes : l₀.inp.bytes = (Api.Call.openFile path flags).pieces.flatten := List.nil_append _
  obtain ⟨t₁, t₂, l', hrun, hout, hinp⟩ :=
    answers_create hs hl₀ hpath hflags hcreate hbytes hfind hfiles
  exact ⟨t₁, t₂, .of_answer hrun hinp hout (hc.openFile path flags) (Api.Client.after_out ..)⟩

/-- A call writes to an empty file that the client has created and locked, while there is
room. -/
theorem Connection.Call.write (hs : s.Idle cfg xs) (hc : c.Ready) (hl : l.Good)
    (hpath : Api.Call.ValidPath path) (hop : c.lastOp = ⟨true, true, true, true, path⟩)
    {buf : List UInt8} {written : List Api.Received → ℤ} (hwritten : written [] = 0)
    (hpos : 1 ≤ buf.length) (hlen : buf.length ≤ intMax)
    (hfind : s.fileSystem.find? path = some f) (hfree : f.nReaders = 0 ∧ f.nWriters = 0)
    (hopen : f.fdOpen.contains fdClient = true) (hlock : f.fdLock = fdClient)
    (hsize : f.size = 0) (hroom : s.currState.space + buf.length ≤ cfg.maxSpace)
    (hfit : s.fileSystem.Fits (.writeFile path buf.length buf)) :
    ∃ t s', (∃ xs', s'.Idle cfg xs') ∧
      s'.fileSystem.find? path = some (f.written buf.length buf t) ∧
      Connection.Call cfg fdClient (Api.Call.writeFile path (some buf) written).run l
        ⟨⟨s, none⟩, c, [], true⟩ (.ok ())
        ⟨⟨s', none⟩, c.after (.writeFile path (some buf) written) .reset, [], true⟩ := by
  let l₀ : Local := { l with
    inp := ⟨[] ++ (Api.Call.writeFile path (some buf) written).pieces.flatten, .waiting⟩
    out := [] }
  have hl₀ : l₀.Good := ⟨hl.reliable, hl.malloc, hl.clock⟩
  have hbytes : l₀.inp.bytes = (Api.Call.writeFile path (some buf) written).pieces.flatten :=
    List.nil_append _
  obtain ⟨t, l', s', hrun, hidle, hinp, hout, hfind'⟩ :=
    answers_write hs hl₀ hpath hbytes hpos hlen hfind hfree hopen hlock hsize hroom hfit
  exact ⟨t, s', hidle, hfind', .of_answer hrun hinp hout (hc.writeFile hop buf hwritten)
    (Api.Client.after_out ..)⟩

/-- A call reads a file that the client has opened. -/
theorem Connection.Call.read (hs : s.Idle cfg xs) (hc : c.Ready) (hl : l.Good)
    (hpath : Api.Call.ValidPath path) (hfind : s.fileSystem.find? path = some f)
    (hfree : f.nWriters = 0) (hopen : f.fdOpen.contains fdClient = true)
    (hsize : toInt f.size ≠ 0 ∧ toInt f.size ≠ -1)
    (hfit : s.fileSystem.Fits (.readFile path)) :
    ∃ s', Connection.Call cfg fdClient (Api.readFile path) l ⟨⟨s, none⟩, c, [], true⟩
      (.ok (f.size, f.contents))
      ⟨⟨s', none⟩, c.after (.readFile path) .reset, [], true⟩ := by
  let l₀ : Local :=
    { l with inp := ⟨[] ++ (Api.Call.readFile path).pieces.flatten, .waiting⟩, out := [] }
  have hl₀ : l₀.Good := ⟨hl.reliable, hl.malloc, hl.clock⟩
  have hbytes : l₀.inp.bytes = (Api.Call.readFile path).pieces.flatten := List.nil_append _
  obtain ⟨l', s', hrun, -, hinp, hout⟩ := answers_read hs hl₀ hpath hbytes hfind hfree hopen hfit
  have hsized := hs.sized hfit f (FileSystem.find?_eq_some hfind).1
  exact ⟨s', .of_answer hrun hinp hout (hc.readFile path hsize hsized) (Api.Client.after_out ..)⟩

/-- A call that reads an empty file leaves the final code in the socket. -/
theorem Connection.Call.read_empty (hs : s.Idle cfg xs) (hc : c.Ready) (hl : l.Good)
    (hpath : Api.Call.ValidPath path) (hfind : s.fileSystem.find? path = some f)
    (hfree : f.nWriters = 0) (hopen : f.fdOpen.contains fdClient = true)
    (hsize : f.size = 0) (hfit : s.fileSystem.Fits (.readFile path)) :
    ∃ s', Connection.Call cfg fdClient (Api.Call.readFile path).run l ⟨⟨s, none⟩, c, [], true⟩
      (.error .ebade) ⟨⟨s', none⟩,
        (c.after (.readFile path) .reset).left (intBytes Sa.success.code), [], true⟩ := by
  let l₀ : Local :=
    { l with inp := ⟨[] ++ (Api.Call.readFile path).pieces.flatten, .waiting⟩, out := [] }
  have hl₀ : l₀.Good := ⟨hl.reliable, hl.malloc, hl.clock⟩
  have hbytes : l₀.inp.bytes = (Api.Call.readFile path).pieces.flatten := List.nil_append _
  obtain ⟨l', s', hrun, -, hinp, hout⟩ := answers_read hs hl₀ hpath hbytes hfind hfree hopen hfit
  have hsized := hs.sized hfit f (FileSystem.find?_eq_some hfind).1
  have hclient : (Api.Call.readFile path).run (c.receives (intBytes Sa.success.code ++
      ((f.pieces false).flatten ++ intBytes Sa.success.code))) = .ok (.error .ebade,
        (c.after (.readFile path) .reset).left (intBytes Sa.success.code)) :=
    Res.bind_eq_ok.2 ⟨_, hc.readFile_empty path hsize hsized, rfl⟩
  exact ⟨s', .of_answer hrun hinp hout hclient (Api.Client.after_out c (.readFile path) .reset)⟩

end Calls

theorem Api.length_sentPath_le (path : CString) : (Api.sentPath path).length ≤ path.length + 1 := by
  rw [Api.sentPath, List.length_take, List.length_append]
  exact min_le_right ..

/-- What a valid call writes is short enough. -/
theorem Api.Call.Valid.typed (h : call.Valid) : call.Typed := by
  have hmax : intMax = 2 ^ 31 - 1 := rfl
  have hpath : ∀ {path : CString}, Api.Call.ValidPath path → (Api.sentPath path).length < 2 ^ 31 :=
    fun {path} hp => by
      have hle := Api.length_sentPath_le path
      have hlt := hp.2
      omega
  cases call with
  | openFile path flags =>
    have hlen := hpath h.1
    refine ⟨?_, h.2⟩
    simp only [pieces, Api.openFilePieces, List.flatten_append, List.flatten_cons,
      Api.flatten_pathPieces, List.length_append, length_intBytes, List.flatten_nil,
      List.length_nil]
    omega
  | closeFile path | removeFile path | readFile path =>
    have hlen := hpath h
    refine ⟨?_, trivial⟩
    simp only [pieces, Api.closeFilePieces, Api.removeFilePieces, Api.readFilePieces,
      List.flatten_cons, Api.flatten_pathPieces, List.length_append, length_intBytes]
    omega
  | readNFiles N written =>
    refine ⟨?_, h⟩
    simp only [pieces, Api.readNFilesPieces, List.flatten_cons, List.length_append, length_intBytes,
      List.flatten_nil, List.length_nil]
    omega
  | writeFile path file written =>
    obtain ⟨hvalid, -, hle⟩ := h
    have hlen := hpath hvalid
    refine ⟨?_, trivial⟩
    simp only [pieces, Api.writeFilePieces, List.flatten_append, List.flatten_cons,
      Api.flatten_pathPieces, List.length_append, length_intBytes, length_sizeBytes,
      List.flatten_nil, List.length_nil]
    omega
  | appendToFile path buf written =>
    obtain ⟨hvalid, hle⟩ := h
    have hlen := hpath hvalid
    refine ⟨?_, trivial⟩
    have hbuf : (if 0 < buf.length then [buf] else []).flatten = buf := by
      cases buf <;> simp
    simp only [pieces, Api.appendToFilePieces, List.flatten_append, List.flatten_cons,
      Api.flatten_pathPieces, List.length_append, length_intBytes, length_sizeBytes, hbuf]
    omega

/-- What is read of a valid call is what it asks for. -/
theorem Api.Call.Valid.decoded_eq (h : call.Valid) : call.decoded = call.request := by
  have hpath : ∀ {path : CString}, Api.Call.ValidPath path → cstring (Api.sentPath path) = path :=
    fun {path} hp => by
      have hpieces : [_, Api.sentPath path] = [_, path ++ [0]] := pathPieces_eq hp.2
      rw [(List.cons.inj (List.cons.inj hpieces).2).1, cstring_append_nul hp.1]
  cases call with
  | openFile | writeFile | appendToFile => simp only [decoded, request, hpath h.1]
  | closeFile | removeFile | readFile => simp only [decoded, request, hpath h]
  | readNFiles => rfl

/-- A call of which the answer is mapped. -/
theorem Connection.Call.map {α β : Type} {p : Api.ApiM α} {κ κ' : Connection} {a : α}
    (h : Connection.Call cfg fdClient p l κ a κ') (g : α → β) :
    Connection.Call cfg fdClient (p >>= fun r => pure (g r)) l κ (g a) κ' := by
  cases h with
  | unsent hclient hout => exact .unsent (Res.bind_eq_ok.2 ⟨_, hclient, rfl⟩) hout
  | served hclient hsent hne hworker =>
    exact .served (Res.bind_eq_ok.2 ⟨_, hclient, rfl⟩) hsent hne hworker

/-- A configuration with room for one file of two bytes. -/
def small : ServerConfig :=
  ⟨2, 1, .LRU, by decide, by decide⟩

/-- On an empty server, the client with descriptor `7` creates and locks the file `a`. -/
theorem exists_creation : ∃ s c t₁ t₂,
    Connection.Step small 7 ⟨⟨.initial, none⟩, .ofBytes [], [], true⟩
        (.call (.openFile [97] 3) allGranted) ⟨⟨s, none⟩, c, [], true⟩ ∧
      c.Ready ∧ c.lastOp = ⟨true, true, true, true, [97]⟩ ∧ (∃ xs, s.Idle small xs) ∧
      s.fileSystem.contentBytes = 0 ∧
      s.fileSystem.find? [97] = some (File.new allGranted [97] 3 7 t₁ t₂) := by
  let κ : Connection := ⟨⟨.initial, none⟩, .ofBytes [], [], true⟩
  let call : Api.Call := .openFile [97] 3
  let l : Local := .ofBytes [] [⟨0, 0⟩, ⟨0, 0⟩] []
  have hs : Store.initial.Idle small [] := idle_initial
  have hl : l.Good := ⟨nofun, fun _ => rfl, le_rfl⟩
  have hc : (Api.Client.ofBytes []).Ready := ⟨rfl, rfl, fun _ => rfl, rfl⟩
  have hfit : Store.initial.fileSystem.Fits call.decoded := by
    change 0 + 0 < 2 ^ 63
    decide
  have hpath : Api.Call.ValidPath [97] := ⟨by decide, by decide⟩
  have hflags : Api.Call.ValidInt 3 := ⟨by decide, by decide⟩
  have hvalid : call.Valid := ⟨hpath, hflags⟩
  obtain ⟨t₁, t₂, hcall⟩ := @Connection.Call.create small 7 l _ _ _ _ hs hc hl hpath _ hflags
    (by decide) rfl (by decide)
  have hstep : Connection.Step small 7 κ (.call call allGranted) _ :=
    .call hvalid.typed hl.reliable.steady hfit hcall
  have hκ : κ.InStep small :=
    ⟨⟨⟨.empty, none⟩, ⟨[], hs, not_replying⟩, fileSystem_initial, rfl⟩, rfl,
    fun _ => ⟨rfl, rfl⟩⟩
  have hreceivable : ConnectionEvent.Receivable small 7 κ (.call call allGranted) := fun _ =>
    ⟨fun f hf => absurd hf List.not_mem_nil, fun _ => ⟨rfl, fun _ _ => rfl⟩⟩
  obtain ⟨φ, hφ⟩ := (hstep.inStep hκ hreceivable).server
  obtain ⟨xs, hs', -⟩ := hφ.idle
  exact ⟨_, _, t₁, t₂, hstep, hc.after _ _, rfl, ⟨xs, hs'⟩,
    FileSystem.contentBytes_eq hs'.sound fun f hf => hs'.wf_files hf,
    hs.find?_created (File.WF.new ..) rfl (by decide)⟩

/-- A client that creates a file, writes two bytes to it and reads them back. -/
theorem consumed_of_run_stored : ∃ tr κ, tr.length = 3 ∧
    Run (connectionSystem small 7) tr κ ∧ κ.isOpen = true ∧
    κ.client.inp.bytes = [] ∧ κ.unread = [] := by
  let l : Local := .ofBytes [] [⟨0, 0⟩, ⟨0, 0⟩] []
  let write : Api.Call := .writeFile [97] (some [1, 2]) fun _ => 0
  have hl : l.Good := ⟨nofun, fun _ => rfl, le_rfl⟩
  have hpath : Api.Call.ValidPath [97] := ⟨by decide, by decide⟩
  obtain ⟨s, c, t₁, t₂, hcreate, hc, hop, ⟨xs, hs⟩, hbytes, hfind⟩ := exists_creation
  have hopen : (File.new allGranted [97] 3 7 t₁ t₂).fdOpen.contains (7 : ℕ) = true :=
    File.contains_new ⟨rfl, rfl⟩ ..
  have hspace : s.currState.space = 0 :=
    (FileSystem.contentBytes_eq hs.sound fun f hf => hs.wf_files hf).symm.trans hbytes
  have hroom : s.currState.space + [1, 2].length ≤ small.maxSpace := by
    rw [hspace]
    decide
  have hfit : s.fileSystem.Fits write.decoded := by
    rw [FileSystem.Fits, hbytes]
    decide
  obtain ⟨t, s', ⟨xs', hs'⟩, hfind', hwrite⟩ :=
    @Connection.Call.write small 7 l s xs c [97] _ hs hc hl
    hpath hop [1, 2] (fun _ => 0) rfl (by decide) (by decide) hfind ⟨rfl, rfl⟩
    hopen rfl rfl hroom hfit
  have hspace' : s'.fileSystem.contentBytes ≤ small.maxSpace :=
    (FileSystem.contentBytes_eq hs'.sound fun f hf => hs'.wf_files hf).trans_le hs'.sound.space_le
  have hfit' : s'.fileSystem.Fits (.readFile [97]) := by
    have hsmall : small.maxSpace = 2 := rfl
    change s'.fileSystem.contentBytes + 0 < 2 ^ 63
    omega
  have htwo : toInt (2 : ℕ) ≠ 0 ∧ toInt (2 : ℕ) ≠ -1 := by
    rw [toInt_of_range (by decide) (by decide)]
    decide
  obtain ⟨s'', hread⟩ :=
    Connection.Call.read hs' (hc.after _ _) hl hpath hfind' rfl hopen htwo hfit'
  have hvalid : write.Valid := ⟨hpath, by decide, by decide⟩
  have hvalid' : (Api.Call.readFile [97]).Valid := hpath
  have hstep : Connection.Step small 7 ⟨⟨s, none⟩, c, [], true⟩ (.call write c.malloc) _ :=
    .call hvalid.typed hl.reliable.steady hfit hwrite
  have hstep' : Connection.Step small 7 ⟨⟨s', none⟩, c.after write .reset, [], true⟩
      (.call (.readFile [97]) c.malloc) _ :=
    .call hvalid'.typed hl.reliable.steady hfit' (hread.map fun r => r.map fun _ => ())
  -- nothing is sent back by the write, and two bytes by the read
  have hsend : ConnectionEvent.Receivable small 7 ⟨⟨s, none⟩, c, [], true⟩
      (.call write c.malloc) := by
    have hsize : toSize (2 : ℕ) = 2 := toSize_of_range (by decide)
    change s.fileSystem.Receivable small 7 c.malloc write.decoded
    rw [hvalid.decoded_eq]
    refine fun _ => ⟨fun f hf => ?_, fun _ => ⟨hc.malloc _, fun _ _ => hc.malloc _⟩⟩
    have hneed : s.fileSystem.state.space + toSize (2 : ℕ) - small.maxSpace = 0 := by
      rw [hsize, show s.fileSystem.state.space = 0 from hspace]
      rfl
    change f ∈ (s.fileSystem.makeRoom small [97] (toSize (2 : ℕ))).1 at hf
    rw [FileSystem.makeRoom_fst, hneed, Selection.takeWeight_zero] at hf
    cases hf
  have hsend' : ConnectionEvent.Receivable small 7 ⟨⟨s', none⟩, c.after write .reset, [], true⟩
      (.call (.readFile [97]) c.malloc) := by
    change s'.fileSystem.Receivable small 7 c.malloc (Api.Call.readFile [97]).decoded
    rw [hvalid'.decoded_eq]
    refine fun _ => ⟨fun f hf => ?_, False.elim⟩
    rw [Api.Call.request, FileSystem.sends, hfind'] at hf
    obtain rfl := List.mem_singleton.1 hf
    exact htwo
  have hcreated : ConnectionEvent.Receivable small 7 ⟨⟨.initial, none⟩, .ofBytes [], [], true⟩
      (.call (.openFile [97] 3) allGranted) :=
    fun _ => ⟨fun _ hf => absurd hf List.not_mem_nil, False.elim⟩
  have hstart : Run ((connectionSystem small 7).restrict fun κ e => e.Receivable small 7 κ) []
      ⟨⟨.initial, none⟩, .ofBytes [], [], true⟩ := .start ⟨rfl, rfl, rfl, rfl⟩
  have hrun := ((hstart.step ⟨hcreated, hcreate⟩).step ⟨hsend, hstep⟩).step ⟨hsend', hstep'⟩
  exact ⟨_, _, rfl, hrun.of_restrict, rfl, consumed_of_run hrun rfl⟩

/-- A client that reads an empty file does not read the final code : the next call takes it for
the start of its own answer. -/
theorem not_consumed : ∃ cfg fdClient tr κ, Run (connectionSystem cfg fdClient) tr κ ∧
    κ.isOpen = true ∧ κ.client.inp.bytes = intBytes Sa.success.code := by
  let l : Local := .ofBytes [] [⟨0, 0⟩, ⟨0, 0⟩] []
  have hl : l.Good := ⟨nofun, fun _ => rfl, le_rfl⟩
  obtain ⟨s, c, t₁, t₂, hstep, hc, -, ⟨xs, hs⟩, hbytes, hfind⟩ := exists_creation
  have hfit : s.fileSystem.Fits (.readFile [97]) := by
    rw [FileSystem.Fits, hbytes]
    decide
  have hpath : Api.Call.ValidPath [97] := ⟨by decide, by decide⟩
  obtain ⟨s', hcall⟩ := Connection.Call.read_empty hs hc hl hpath hfind rfl
    (File.contains_new ⟨rfl, rfl⟩ ..) rfl hfit
  have hvalid : (Api.Call.readFile [97]).Valid := hpath
  have hread : Connection.Step small 7 _ (.call _ c.malloc) _ :=
    .call hvalid.typed hl.reliable.steady hfit hcall
  exact ⟨small, 7, _, _, .step (.step (.start ⟨rfl, rfl, rfl, rfl⟩) hstep) hread, rfl, rfl⟩

end Conversation

end StorageServer
