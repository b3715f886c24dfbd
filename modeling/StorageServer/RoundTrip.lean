import Mathlib.Logic.Relation
import StorageServer.Conversation

/-!
# A file that is stored and read back

A client creates and locks a file with `openFile`, fills it with `writeFile` and reads it with
`readFile`, between requests of other clients that leave the file alone. Each call returns, in one
way only (`Connection.Call.unique`), and the third gives back what the second has sent
(`storesBack_iff`), if that is not nothing, and if the map takes in the file; then, and only then,
all three return with success (`returnsAll_of_run_iff`). The size of an empty file is what makes
`readn` return `0`, which the handler takes for a closed connection (`write_empty`). A map that
cannot be expanded refuses the new file, and `open_file` does not look at it (`write_missing`).
-/

open Programs Transitions

namespace StorageServer

/-! ## One call -/

/-- Whatever there is to read, a program that returns has sent these bytes. -/
def Api.Sends {α : Type} (p : ApiM α) (c : Client) (bytes : List UInt8) : Prop :=
  ∀ inp a c', p { c with inp := inp } = .ok (a, c') → c'.out = c.out ++ bytes

section Unique

variable {cfg : ServerConfig} {fdClient : ℕ} {α : Type} {p : Api.ApiM α} {l : Local} {s : Store}
  {c : Api.Client} {u bytes : List UInt8} {a b : α} {κ' κ'' : Connection}

/-- A call that sends something is what a worker makes of it and what the function makes of the
answer. -/
theorem Connection.Call.iff_of_sends (hp : Api.Sends p c bytes) (hne : bytes ≠ []) :
    Connection.Call cfg fdClient p l ⟨⟨s, none⟩, c, u, true⟩ a κ' ↔ ∃ code l' s' c',
      Prog.run exec (worker cfg fdClient) ({ l with inp := ⟨u ++ bytes, .waiting⟩, out := [] }, s) =
        .ok (code, (l', s')) ∧
      p { c with inp := ⟨c.inp.bytes ++ l'.out, code.ending⟩ } = .ok (a, c') ∧
      κ' = ⟨⟨s', none⟩, c', l'.inp.bytes, code.keeps⟩ := by
  constructor
  · intro h
    cases h with
    | unsent hclient hout =>
      have hbytes : c.out ++ bytes = c.out := (hp c.inp _ _ hclient).symm.trans hout
      exact absurd (List.append_right_eq_self.1 hbytes) hne
    | @served _ s' _ c' _ sent _ l' code hclient hsent _ hworker =>
      obtain rfl := List.append_cancel_left ((hp _ _ _ hclient).symm.trans hsent)
      exact ⟨code, l', s', c', hworker, hclient, rfl⟩
  · rintro ⟨code, l', s', c', hworker, hclient, rfl⟩
    exact .served hclient (hp _ _ _ hclient) hne hworker

/-- It returns in one way. -/
theorem Connection.Call.unique (hp : Api.Sends p c bytes) (hne : bytes ≠ [])
    (h : Connection.Call cfg fdClient p l ⟨⟨s, none⟩, c, u, true⟩ a κ')
    (h' : Connection.Call cfg fdClient p l ⟨⟨s, none⟩, c, u, true⟩ b κ'') : b = a ∧ κ'' = κ' := by
  obtain ⟨code, l', s', c', hworker, hclient, rfl⟩ := (iff_of_sends hp hne).1 h
  obtain ⟨code', l'', s'', c'', hworker', hclient', rfl⟩ := (iff_of_sends hp hne).1 h'
  cases hworker.symm.trans hworker'
  cases hclient.symm.trans hclient'
  exact ⟨rfl, rfl⟩

end Unique

namespace Api

section Sends

variable {c : Client} {path : CString}

theorem Client.Ready.sends_openFile (hc : c.Ready) (path : CString) (flags : ℤ) :
    Sends (Call.openFile path flags).run c (Call.openFile path flags).pieces.flatten := by
  intro inp a c' h
  have hrun : (Call.openFile path flags).run { c with inp := inp } =
    (Call.openFile path flags).reply
      { c with inp := inp, out := c.out ++ (Call.openFile path flags).pieces.flatten } :=
    (whenConnected_of (c := { c with inp := inp }) hc.connected).trans
      (bind_of_ok (sendPieces_eq (c := { c with inp := inp }) hc.sends _))
  rw [hrun] at h
  exact ((Call.openFile path flags).reading_reply.frame h).1

theorem Client.Ready.sends_readFile (hc : c.Ready) (path : CString) :
    Sends (Api.readFile path) c (Call.readFile path).pieces.flatten := by
  intro inp a c' h
  rw [Api.readFile, whenConnected_of (c := { c with inp := inp }) hc.connected,
    bind_of_ok (setLastOp_apply ..), exchange_eq (by exact hc.sends)] at h
  exact (Reading.reads.readFileReply.frame h).1

/-- What `writeFile` does after an `openFile` that has created and locked the file. -/
theorem Client.Ready.writeFile_eq (hc : c.Ready) (hop : c.lastOp = ⟨true, true, true, true, path⟩)
    (buf : List UInt8) (written : List Received → ℤ) (inp : Stream) :
    (Call.writeFile path (some buf) written).run { c with inp := inp } =
      (filesReply written { c with
        inp := inp
        lastOp := .reset
        out := c.out ++ (Call.writeFile path (some buf) written).pieces.flatten }).bind fun r =>
          .ok (r.1.map fun _ => (), r.2) := by
  have hmalloc : Api.safeMalloc buf.length { c with inp := inp, lastOp := .reset } =
      .ok ((), { c with inp := inp, lastOp := .reset }) := if_pos (hc.malloc _)
  have hwrite : Api.writeFile path (some buf) written { c with inp := inp } =
      (exchange (writeFilePieces path buf) (filesReply written)
        { c with inp := inp, lastOp := .reset }).bind fun r =>
          .ok (r.1.map fun _ => 0, r.2) := by
    rw [Api.writeFile, whenConnected_of (c := { c with inp := inp }) hc.connected, hop]
    rw [if_neg (by simp [strncmpEq]), bind_of_ok (setLastOp_apply ..), bind_of_ok hmalloc]
    refine congrArg (Res.bind _) (funext fun r => ?_)
    obtain ⟨e | n, c'⟩ := r <;> rfl
  have hrun : (Call.writeFile path (some buf) written).run { c with inp := inp } =
      (Api.writeFile path (some buf) written { c with inp := inp }).bind fun r =>
        .ok (r.1.map fun _ => (), r.2) := rfl
  rw [hrun, hwrite, exchange_eq (by exact hc.sends), Res.bind_assoc]
  refine congrArg (Res.bind _) (funext fun r => ?_)
  obtain ⟨e | n, c'⟩ := r <;> rfl

theorem Client.Ready.sends_writeFile (hc : c.Ready)
    (hop : c.lastOp = ⟨true, true, true, true, path⟩) (buf : List UInt8)
    (written : List Received → ℤ) : Sends (Call.writeFile path (some buf) written).run c
      (Call.writeFile path (some buf) written).pieces.flatten := by
  intro inp a c' h
  rw [hc.writeFile_eq hop, Res.bind_eq_ok] at h
  obtain ⟨⟨r, c₁⟩, hreply, hc'⟩ := h
  cases hc'
  exact ((Reading.reads.filesReply written).frame hreply).1

/-- `writeFile` fails if the server answers with an error. -/
theorem Client.Ready.writeFile_error (hc : c.Ready)
    (hop : c.lastOp = ⟨true, true, true, true, path⟩) (buf : List UInt8)
    (written : List Received → ℤ) {code : Sa} (hcode : code ≠ .success) (ending : Ending) :
    ∃ e c', (Call.writeFile path (some buf) written).run
      { c with inp := ⟨c.inp.bytes ++ intBytes code.code, ending⟩ } = .ok (.error e, c') := by
  let c₁ : Client := { c with
    inp := ⟨[], ending⟩
    lastOp := .reset
    out := c.out ++ (Call.writeFile path (some buf) written).pieces.flatten }
  have hreply : filesReply written (c₁.left (intBytes code.code ++ [])) =
      .ok (.error (convertResToErrno code.code), c₁.left []) := filesReply_error hcode
  rw [List.append_nil] at hreply
  rw [hc.writeFile_eq hop, hc.inp, List.nil_append]
  exact ⟨_, _, Res.bind_eq_ok.2 ⟨_, hreply, rfl⟩⟩

end Sends

end Api

/-! ## Writes that fail -/

section Writes

variable {cfg : ServerConfig} {fdClient : ℕ} {l l' : Local} {s s' : Store}
  {xs : List (FilePtr × File)} {c : Api.Client} {path : CString} {buf rest : List UInt8}
  {written : List Api.Received → ℤ} {code : WorkerCode}

/-- A worker that has read a call has answered it. -/
theorem answered_of_worker {call : Api.Call} (hs : s.Idle cfg xs) (hv : call.Valid) (hl : l.Good)
    (hinp : l.inp.bytes = call.pieces.flatten) (hfit : s.fileSystem.Fits call.request)
    (hrun : Prog.run exec (worker cfg fdClient) (l, s) = .ok (code, (l', s'))) :
    (∃ xs', s'.Idle cfg xs') ∧ ∃ readings out fs,
      Answered cfg fdClient call.request (l.left []) s code l' s' readings out fs := by
  have hread : Prog.run exec readOperation (l, s) = .ok (.ok (.ok call.request), (l.left [], s)) :=
    (request_roundtrip call hv []).2 l s hl.malloc (by rw [hinp, List.append_nil])
  have hwf : call.request.WF :=
    (of_readRequest (readRequest_left call hv l hl.malloc s)).2.2.2 _ rfl
  have hreliable : (l.left []).Reliable := hl.reliable
  rw [worker_eq, Prog.run_bind, hread] at hrun
  obtain ⟨hidle, hanswered⟩ := post_of_safe (safe_answer hs hwf hfit hreliable.steady) hrun
  exact ⟨hidle, hanswered (.inr hreliable)⟩

/-- The handler takes the empty contents for a closed connection. -/
theorem ends_readEmptyWrite (hpath : Api.Call.ValidPath path) (hmalloc : ∀ n, l.malloc n = true)
    {Q : Except WorkerCode (Except Sa Request) → World → Prop}
    (hQ : Q (.ok (.error .close)) (l.left [], s)) :
    Prog.twp exec readOperation Q (l.left (Api.writeFilePieces path []).flatten, s) := by
  have h8 : toInt (8 : ℕ) = 8 := toInt_of_range (by omega) (by omega)
  have h0 : toInt (0 : ℕ) = 0 := toInt_of_range (by omega) (by omega)
  have hlong : bytesLong (sizeBytes 0) = (0 : ℕ) := bytesLong_sizeBytes (by omega)
  have hsize : toSize ((0 : ℕ) : ℤ) = 0 := toSize_of_range (by omega)
  have hbytes : (Api.writeFilePieces path []).flatten = intBytes Handler.writeFile.opCode.code ++
      (intBytes path.length ++ (path ++ [0] ++ (sizeBytes 0 ++ ([] ++ [])))) := by
    simp [Api.writeFilePieces, pathPieces_eq hpath.2, Handler.opCode]
  rw [hbytes]
  refine ends_readOperation .writeFile ?_
  rw [readRequest, Prog.twp_bind, readWriteRequest, Prog.twp_bind]
  refine ends_readPathname hpath.1 hpath.2 (fun _ => hmalloc _) ?_
  simp only [Prog.twp_bind]
  refine ends_readn (length_sizeBytes _) ?_
  simp only [h8, hlong, hsize, Prog.twp_ite, Prog.twp_bind, ends_safeMalloc, Local.malloc_left,
    hmalloc]
  refine ⟨by omega, fun _ => ⟨by omega, fun _ => ⟨trivial, ends_readn rfl ?_⟩⟩⟩
  simp only [List.length_nil, h0, Prog.twp_ite, Prog.twp_pure]
  exact ⟨by omega, fun _ => ⟨fun _ => hQ, fun hne => absurd trivial hne⟩⟩

/-- A write is not successful if the answer is an error. -/
theorem Connection.Call.write_ne_ok {a : Except Api.Errno Unit} {κ' : Connection} (hc : c.Ready)
    (hop : c.lastOp = ⟨true, true, true, true, path⟩)
    (hanswer : ∀ code l' s', Prog.run exec (worker cfg fdClient) ({ l with
        inp := ⟨(Api.Call.writeFile path (some buf) written).pieces.flatten, .waiting⟩
        out := [] }, s) = .ok (code, (l', s')) →
      ∃ res : Sa, res ≠ .success ∧ l'.out = intBytes res.code)
    (h : Connection.Call cfg fdClient (Api.Call.writeFile path (some buf) written).run l
      ⟨⟨s, none⟩, c, [], true⟩ a κ') : a ≠ .ok () := by
  obtain ⟨code, l', s', c', hworker, hclient, -⟩ := (iff_of_sends
    (hc.sends_writeFile hop buf written) (Api.Call.flatten_pieces_ne_nil _)).1 h
  rw [List.nil_append] at hworker
  obtain ⟨res, hres, hout⟩ := hanswer code l' s' hworker
  obtain ⟨e, c'', herror⟩ := hc.writeFile_error hop buf written hres code.ending
  rw [hout, herror] at hclient
  cases hclient
  exact nofun

/-- A client that writes nothing is told that it has closed the connection. -/
theorem Connection.Call.write_empty {a : Except Api.Errno Unit} {κ' : Connection} (hc : c.Ready)
    (hl : l.Good) (hpath : Api.Call.ValidPath path)
    (hop : c.lastOp = ⟨true, true, true, true, path⟩)
    (h : Connection.Call cfg fdClient (Api.Call.writeFile path (some []) written).run l
      ⟨⟨s, none⟩, c, [], true⟩ a κ') : a ≠ .ok () := by
  refine write_ne_ok hc hop (fun code l' s' hrun => ⟨.close, nofun, ?_⟩) h
  let l₀ : Local := { l with inp := ⟨[], .waiting⟩, out := [] }
  have hl₀ : (l₀.left []).Reliable := hl.reliable
  have hworker : Prog.twp exec (worker cfg fdClient)
      (fun _ w => w.1.out = [] ++ intBytes Sa.close.code)
      (l₀.left (Api.Call.writeFile path (some []) written).pieces.flatten, s) := by
    rw [worker_eq, Prog.twp_bind]
    refine ends_readEmptyWrite (l := l₀) hpath hl.malloc ?_
    exact ends_sendResult hl₀ fun l' hout _ => hout
  obtain ⟨code', w', hrun', hout⟩ := hworker
  cases hrun'.symm.trans hrun
  rwa [List.nil_append] at hout

/-- A client that writes to a path at which there is no file is told so. -/
theorem Connection.Call.write_missing {a : Except Api.Errno Unit} {κ' : Connection}
    (hs : s.Idle cfg xs) (hc : c.Ready) (hl : l.Good) (hpath : Api.Call.ValidPath path)
    (hop : c.lastOp = ⟨true, true, true, true, path⟩) (hpos : 1 ≤ buf.length)
    (hlen : buf.length ≤ intMax) (hfind : s.fileSystem.find? path = none)
    (hfit : s.fileSystem.Fits (.writeFile path buf.length buf))
    (h : Connection.Call cfg fdClient (Api.Call.writeFile path (some buf) written).run l
      ⟨⟨s, none⟩, c, [], true⟩ a κ') : a ≠ .ok () := by
  refine write_ne_ok hc hop (fun code l' s' hrun => ⟨.noFile, nofun, ?_⟩) h
  have hvalid : (Api.Call.writeFile path (some buf) written).Valid := ⟨hpath, hpos, hlen⟩
  have hgood : Local.Good { l with
      inp := ⟨(Api.Call.writeFile path (some buf) written).pieces.flatten, .waiting⟩
      out := [] } := ⟨hl.reliable, hl.malloc, hl.clock⟩
  obtain ⟨-, readings, out, fs, hanswered⟩ := answered_of_worker hs hvalid hgood rfl hfit hrun
  obtain ⟨heffect, -, -, hout, -⟩ := hanswered
  have heffect : s.fileSystem.Effect cfg fdClient l.malloc (.writeFile path buf.length buf) readings
      out fs := heffect
  have hrefusal : s.fileSystem.refusal cfg fdClient (.writeFile path buf.length buf) =
      some .noFile := by
    rw [FileSystem.refusal, hfind]
  generalize (buf.length : ℤ) = n at heffect hrefusal
  cases heffect with
  | refused hrefused =>
    obtain rfl := Option.some.inj (hrefusal.symm.trans hrefused)
    exact hout.trans (List.nil_append _)
  | @noMemory _ a _ _ ha =>
    rw [hl.malloc a] at ha
    cases ha
  | written hf => cases hfind.symm.trans hf

end Writes

/-! ## The three calls -/

/-- What the client relies on of its file is still so. -/
structure File.Alike (fdClient : ℕ) (f f' : File) : Prop where
  contents : f'.contents = f.contents
  size : f'.size = f.size
  fdLock : f'.fdLock = f.fdLock
  fdOpen : f.fdOpen.contains fdClient = true → f'.fdOpen.contains fdClient = true
  nReaders : f'.nReaders = f.nReaders
  nWriters : f'.nWriters = f.nWriters

/-- Requests of other clients that have been answered, leave the file at `path` alone and leave
room for `n` bytes. They may open the file and read it. -/
structure Connection.Undisturbed (cfg : ServerConfig) (fdClient : ℕ) (path : CString) (n : ℕ)
    (κ κ' : Connection) : Prop where
  others : Relation.ReflTransGen
    (fun κ κ' => ∃ e, Connection.Step cfg fdClient κ (.other e) κ') κ κ'
  replying : κ'.server.replying = none
  file : ∀ f, κ.server.store.fileSystem.find? path = some f →
    ∃ f', κ'.server.store.fileSystem.find? path = some f' ∧ f.Alike fdClient f'
  room : κ'.server.store.currState.space + n ≤ cfg.maxSpace
  fits : κ'.server.store.fileSystem.contentBytes + n < 2 ^ 63

/-- The call returns, always with `a`, and leaves a connection at which `Q` holds. -/
def Connection.Returns (cfg : ServerConfig) (fdClient : ℕ) {α : Type} (p : Api.ApiM α) (l : Local)
    (κ : Connection) (a : α) (Q : Connection → Prop) : Prop :=
  (∃ κ', Connection.Call cfg fdClient p l κ a κ') ∧
    ∀ b κ', Connection.Call cfg fdClient p l κ b κ' → b = a ∧ Q κ'

/-- `O_CREATE | O_LOCK`. -/
def creation : ℤ :=
  (oCreate ||| oLock : ℕ)

theorem isFlagSet_creation : isFlagSet creation oCreate = true ∧
    isFlagSet creation oLock = true := by
  decide

/-- A client creates and locks a file, fills it with `buf` and reads it back, and each call
succeeds. -/
def Connection.StoresBack (cfg : ServerConfig) (fdClient : ℕ) (path : CString) (buf : List UInt8)
    (written : List Api.Received → ℤ) (l₁ l₂ l₃ : Local) (κ : Connection) : Prop :=
  Returns cfg fdClient (Api.Call.openFile path creation).run l₁ κ (.ok ()) fun κ₁ =>
    ∀ κ₁', Undisturbed cfg fdClient path buf.length κ₁ κ₁' →
      Returns cfg fdClient (Api.Call.writeFile path (some buf) written).run l₂ κ₁'
        (.ok ()) fun κ₂ =>
        ∀ κ₂', Undisturbed cfg fdClient path 0 κ₂ κ₂' →
          Returns cfg fdClient (Api.readFile path) l₃ κ₂' (.ok (buf.length, buf)) fun _ => True

section StoresBack

variable {cfg : ServerConfig} {fdClient n : ℕ} {s : Store} {xs : List (FilePtr × File)}
  {c : Api.Client} {path : CString} {buf u : List UInt8} {isOpen : Bool} {κ κ' : Connection}
  {l₁ l₂ l₃ : Local} {written : List Api.Received → ℤ} {f : File}

theorem File.Alike.refl (f : File) : f.Alike fdClient f :=
  ⟨rfl, rfl, rfl, id, rfl, rfl⟩

/-- A call that returns `a` does so in the one way in which it returns. -/
theorem Connection.Call.returns {α : Type} {p : Api.ApiM α} {l : Local} {bytes : List UInt8} {a : α}
    {Q : Connection → Prop} (h : Connection.Call cfg fdClient p l ⟨⟨s, none⟩, c, u, true⟩ a κ')
    (hp : Api.Sends p c bytes) (hne : bytes ≠ []) (hQ : Q κ') :
    Connection.Returns cfg fdClient p l ⟨⟨s, none⟩, c, u, true⟩ a Q := by
  refine ⟨⟨κ', h⟩, fun b κ'' h' => ?_⟩
  obtain ⟨rfl, rfl⟩ := unique hp hne h h'
  exact ⟨rfl, hQ⟩

/-- The requests of other clients leave an idle store, and the client's end of the connection as
it was. -/
theorem Connection.others_eq (hs : s.Idle cfg xs) (h : Relation.ReflTransGen
      (fun κ κ' => ∃ e, Connection.Step cfg fdClient κ (.other e) κ')
        ⟨⟨s, none⟩, c, u, isOpen⟩ κ') :
    ∃ σ φ, κ' = ⟨σ, c, u, isOpen⟩ ∧ σ.Refines cfg φ := by
  induction h with
  | refl =>
    exact ⟨_, ⟨s.fileSystem, none⟩, rfl, ⟨xs, hs, not_replying⟩, rfl, rfl⟩
  | tail _ hstep ih =>
    obtain ⟨σ, φ, rfl, hφ⟩ := ih
    obtain ⟨e, hstep⟩ := hstep
    cases hstep with
    | other h =>
      obtain ⟨φ', -, hφ'⟩ := h.refines hφ
      exact ⟨_, φ', rfl, hφ'⟩

theorem Connection.Undisturbed.eq (hs : s.Idle cfg xs)
    (h : Connection.Undisturbed cfg fdClient path n ⟨⟨s, none⟩, c, u, isOpen⟩ κ') :
    ∃ s' xs', κ' = ⟨⟨s', none⟩, c, u, isOpen⟩ ∧ s'.Idle cfg xs' := by
  obtain ⟨⟨s', replying⟩, φ, rfl, hφ⟩ := others_eq hs h.others
  obtain ⟨xs', hs', -⟩ := hφ.idle
  obtain rfl : replying = none := h.replying
  exact ⟨s', xs', rfl, hs'⟩

/-- The client reads back what it has written. -/
theorem Connection.returns_readFile (hs : s.Idle cfg xs) (hc : c.Ready) (hl : l₃.Good)
    (hpath : Api.Call.ValidPath path) (hpos : buf ≠ []) (hlen : buf.length ≤ intMax)
    (hfind : s.fileSystem.find? path = some f) (hcontents : f.contents = buf)
    (hsize : f.size = buf.length) (hfree : f.nWriters = 0)
    (hopen : f.fdOpen.contains fdClient = true)
    (hfit : s.fileSystem.contentBytes + 0 < 2 ^ 63) :
    Connection.Returns cfg fdClient (Api.readFile path) l₃ ⟨⟨s, none⟩, c, [], true⟩
      (.ok (buf.length, buf)) fun _ => True := by
  have hint : toInt f.size = buf.length := by
    rw [intMax] at hlen
    rw [hsize]
    exact toInt_of_range (by omega) (by omega)
  have hlength := List.length_pos_iff.2 hpos
  obtain ⟨s', h⟩ := Connection.Call.read hs hc hl hpath hfind hfree hopen (by omega) hfit
  rw [hsize, hcontents] at h
  exact h.returns (hc.sends_readFile path) (Api.Call.flatten_pieces_ne_nil _) trivial

/-- It writes to the file that it has created, and reads back what it has written. -/
theorem Connection.returns_writeFile (hs : s.Idle cfg xs) (hc : c.Ready) (hl₂ : l₂.Good)
    (hl₃ : l₃.Good) (hpath : Api.Call.ValidPath path)
    (hop : c.lastOp = ⟨true, true, true, true, path⟩) (hwritten : written [] = 0) (hpos : buf ≠ [])
    (hlen : buf.length ≤ intMax) (hfind : s.fileSystem.find? path = some f)
    (hfree : f.nReaders = 0 ∧ f.nWriters = 0) (hopen : f.fdOpen.contains fdClient = true)
    (hlock : f.fdLock = fdClient) (hsize : f.size = 0)
    (hroom : s.currState.space + buf.length ≤ cfg.maxSpace)
    (hfit : s.fileSystem.contentBytes + buf.length < 2 ^ 63) :
    Connection.Returns cfg fdClient (Api.Call.writeFile path (some buf) written).run l₂
      ⟨⟨s, none⟩, c, [], true⟩ (.ok ()) fun κ₂ =>
        ∀ κ₂', Connection.Undisturbed cfg fdClient path 0 κ₂ κ₂' →
          Connection.Returns cfg fdClient (Api.readFile path) l₃ κ₂' (.ok (buf.length, buf))
            fun _ => True := by
  obtain ⟨t, s', ⟨xs', hs'⟩, hfind', hcall⟩ := Connection.Call.write hs hc hl₂ hpath hop hwritten
    (List.length_pos_iff.2 hpos) hlen hfind hfree hopen hlock hsize hroom hfit
  refine hcall.returns (hc.sends_writeFile hop buf written) (Api.Call.flatten_pieces_ne_nil _) ?_
  intro κ₂' h
  obtain ⟨s₂, xs₂, rfl, hs₂⟩ := h.eq hs'
  obtain ⟨f₂, hfind₂, halike⟩ := h.file _ hfind'
  exact returns_readFile hs₂ (hc.after _ _) hl₃ hpath hpos hlen hfind₂ halike.contents halike.size
    (halike.nWriters.trans hfree.2) (halike.fdOpen hopen) h.fits

/-- The client creates and locks the file. -/
theorem Connection.Call.create_locked (hs : s.Idle cfg xs) (hc : c.Ready) (hl : l₁.Good)
    (hpath : Api.Call.ValidPath path) (hfind : s.fileSystem.find? path = none)
    (hfiles : s.currState.files ≠ cfg.maxFiles) (hfit : s.currState.space < 2 ^ 63) :
    ∃ t₁ t₂ xs',
      (s.created .all path (File.new allGranted path creation fdClient t₁ t₂)).Idle cfg xs' ∧
      Connection.Call cfg fdClient (Api.Call.openFile path creation).run l₁
        ⟨⟨s, none⟩, c, [], true⟩ (.ok ())
        ⟨⟨s.created .all path (File.new allGranted path creation fdClient t₁ t₂), none⟩,
          c.after (.openFile path creation) ⟨true, true, true, true, path⟩, [], true⟩ := by
  have hflags : Api.Call.ValidInt creation := ⟨by decide, by decide⟩
  obtain ⟨t₁, t₂, hcreate⟩ := @Connection.Call.create cfg fdClient l₁ s xs c path hs hc hl hpath
    creation hflags isFlagSet_creation.1 hfind hfiles
  rw [isFlagSet_creation.1, isFlagSet_creation.2] at hcreate
  obtain ⟨code, l', s', c', hworker, -, hκ⟩ := (iff_of_sends (hc.sends_openFile path creation)
    (Api.Call.flatten_pieces_ne_nil _)).1 hcreate
  have hbytes : s.fileSystem.contentBytes = s.currState.space :=
    FileSystem.contentBytes_eq hs.sound fun f hf => hs.wf_files hf
  have hfits : s.fileSystem.Fits (Api.Call.openFile path creation).request := by
    rw [FileSystem.Fits, hbytes]
    exact hfit
  have hgood : Local.Good { l₁ with
      inp := ⟨[] ++ (Api.Call.openFile path creation).pieces.flatten, .waiting⟩
      out := [] } := ⟨hl.reliable, hl.malloc, hl.clock⟩
  have hvalid : (Api.Call.openFile path creation).Valid := ⟨hpath, hflags⟩
  obtain ⟨⟨xs', hs'⟩, -⟩ :=
    answered_of_worker hs hvalid hgood (List.nil_append _) hfits hworker
  obtain rfl := congrArg (fun κ => κ.server.store) hκ
  exact ⟨t₁, t₂, xs', hs', hcreate⟩

/-- What it has created is there for it, empty and locked, if the map has taken it in. -/
theorem Connection.Call.exists_created (hs : s.Idle cfg xs) (hc : c.Ready) (hl : l₁.Good)
    (hpath : Api.Call.ValidPath path) (hfind : s.fileSystem.find? path = none)
    (hfiles : s.currState.files ≠ cfg.maxFiles) (hfit : s.currState.space < 2 ^ 63) :
    ∃ f xs', f.WF ∧ f.pathName = path ∧ f.size = 0 ∧ (f.nReaders = 0 ∧ f.nWriters = 0) ∧
      f.fdLock = (fdClient : ℤ) ∧ f.fdOpen.contains fdClient = true ∧
      (s.created .all path f).Idle cfg xs' ∧
      Connection.Call cfg fdClient (Api.Call.openFile path creation).run l₁
        ⟨⟨s, none⟩, c, [], true⟩ (.ok ())
        ⟨⟨s.created .all path f, none⟩, c.after (.openFile path creation)
          ⟨true, true, true, true, path⟩, [], true⟩ := by
  obtain ⟨t₁, t₂, xs', hs', hcreate⟩ :=
    @Connection.Call.create_locked cfg fdClient s xs c path l₁ hs hc hl hpath hfind hfiles hfit
  refine ⟨_, xs', File.WF.new .., rfl, rfl, ⟨rfl, rfl⟩, ?_, File.contains_new ⟨rfl, rfl⟩ .., hs',
    hcreate⟩
  change (if isFlagSet creation oLock then (fdClient : ℤ) else -1) = fdClient
  exact if_pos isFlagSet_creation.2

/-- A client that reads back what it has written has written something, and the map has taken in the
file. -/
theorem Connection.StoresBack.takes (hs : s.Idle cfg xs) (hc : c.Ready) (hl₁ : l₁.Good)
    (hl₂ : l₂.Good) (hpath : Api.Call.ValidPath path) (hlen : buf.length ≤ intMax)
    (hfind : s.fileSystem.find? path = none) (hfiles : s.currState.files ≠ cfg.maxFiles)
    (hroom : s.currState.space + buf.length ≤ cfg.maxSpace)
    (hfit : s.currState.space + buf.length < 2 ^ 63)
    (h : StoresBack cfg fdClient path buf written l₁ l₂ l₃ ⟨⟨s, none⟩, c, [], true⟩) :
    buf ≠ [] ∧ s.files.Takes .all := by
  obtain ⟨f, xs₁, hwf, rfl, -, -, -, -, hs₁, hcreate⟩ := @Connection.Call.exists_created cfg
    fdClient s xs c path l₁ hs hc hl₁ hpath hfind hfiles (by omega)
  have hbytes : (s.created .all f.pathName f).fileSystem.contentBytes = s.currState.space :=
    FileSystem.contentBytes_eq hs₁.sound fun f hf => hs₁.wf_files hf
  have hfits : (s.created .all f.pathName f).fileSystem.contentBytes + buf.length < 2 ^ 63 := by
    rwa [hbytes]
  obtain ⟨⟨κ', hcall⟩, -⟩ := (h.2 _ _ hcreate).2 _
    ⟨.refl, rfl, fun f hf => ⟨f, hf, .refl f⟩, hroom, hfits⟩
  have hpos : buf ≠ [] := by
    rintro rfl
    exact hcall.write_empty (hc.after _ _) hl₂ hpath rfl rfl
  refine ⟨hpos, by_contra fun htakes => ?_⟩
  exact hcall.write_missing hs₁ (hc.after _ _) hl₂ hpath rfl (List.length_pos_iff.2 hpos) hlen
    (hs.find?_created_of_not_takes hwf hfind htakes) hfits rfl

/-- A client that writes something to a file that the map has taken in reads it back. -/
theorem Connection.StoresBack.of_takes (hs : s.Idle cfg xs) (hc : c.Ready) (hl₁ : l₁.Good)
    (hl₂ : l₂.Good) (hl₃ : l₃.Good) (hpath : Api.Call.ValidPath path) (hwritten : written [] = 0)
    (hlen : buf.length ≤ intMax) (hfind : s.fileSystem.find? path = none)
    (hfiles : s.currState.files ≠ cfg.maxFiles) (hfit : s.currState.space < 2 ^ 63)
    (hpos : buf ≠ []) (htakes : s.files.Takes .all) :
    StoresBack cfg fdClient path buf written l₁ l₂ l₃ ⟨⟨s, none⟩, c, [], true⟩ := by
  obtain ⟨f, xs₁, hwf, rfl, hsize, hfree, hlock, hopen, hs₁, hcreate⟩ :=
    @Connection.Call.exists_created cfg fdClient s xs c path l₁ hs hc hl₁ hpath hfind hfiles hfit
  refine hcreate.returns (hc.sends_openFile _ creation) (Api.Call.flatten_pieces_ne_nil _)
    fun κ₁' h => ?_
  obtain ⟨s₁, xs₁, rfl, hs₁⟩ := h.eq hs₁
  obtain ⟨f₁, hfind₁, halike⟩ := h.file f (hs.find?_created_of_takes hwf hfind htakes)
  exact Connection.returns_writeFile hs₁ (hc.after _ _) hl₂ hl₃ hpath rfl hwritten hpos hlen hfind₁
    ⟨halike.nReaders.trans hfree.1, halike.nWriters.trans hfree.2⟩ (halike.fdOpen hopen)
    (halike.fdLock.trans hlock) (halike.size.trans hsize) h.room h.fits

/-- A file that a client creates, fills and reads back is what the client has written if and only if
it has written something and the map takes in the file. -/
theorem storesBack_iff (hs : s.Idle cfg xs) (hc : c.Ready) (hl₁ : l₁.Good) (hl₂ : l₂.Good)
    (hl₃ : l₃.Good) (hpath : Api.Call.ValidPath path) (hwritten : written [] = 0)
    (hlen : buf.length ≤ intMax) (hfind : s.fileSystem.find? path = none)
    (hfiles : s.currState.files ≠ cfg.maxFiles)
    (hroom : s.currState.space + buf.length ≤ cfg.maxSpace)
    (hfit : s.currState.space + buf.length < 2 ^ 63) :
    Connection.StoresBack cfg fdClient path buf written l₁ l₂ l₃ ⟨⟨s, none⟩, c, [], true⟩ ↔
      buf ≠ [] ∧ s.files.Takes .all :=
  ⟨fun h => h.takes hs hc hl₁ hl₂ hpath hlen hfind hfiles hroom hfit, fun h =>
    .of_takes hs hc hl₁ hl₂ hl₃ hpath hwritten hlen hfind hfiles (by omega) h.1 h.2⟩

/-- A client that stores a file beside another one. -/
theorem storesBack_second : ∃ s, s.fileSystem.find? [98] ≠ none ∧
    Connection.StoresBack ⟨2, 2, .LRU, by decide, by decide⟩ 7 [97] [1, 2] (fun _ => 0)
      (.ofBytes [] [⟨0, 0⟩, ⟨0, 0⟩] []) (.ofBytes [] [⟨0, 0⟩, ⟨0, 0⟩] [])
      (.ofBytes [] [⟨0, 0⟩, ⟨0, 0⟩] []) ⟨⟨s, none⟩, .ofBytes [], [], true⟩ := by
  let cfg : ServerConfig := ⟨2, 2, .LRU, by decide, by decide⟩
  let f := File.new allGranted [98] 1 5 ⟨0, 0⟩ ⟨0, 0⟩
  let s := Store.initial.created .all [98] f
  have hl : Local.Good (.ofBytes [] [⟨0, 0⟩, ⟨0, 0⟩] []) := ⟨nofun, fun _ => rfl, le_rfl⟩
  have hfit : Store.initial.fileSystem.Fits (.openFile [98] 1) := by
    change 0 + 0 < 2 ^ 63
    decide
  have hinit : Store.initial.Idle cfg [] := idle_initial
  obtain ⟨σ, hrequest, hreply⟩ := hinit.create [98] 1 5 ⟨by decide, by decide⟩
    ⟨by decide, by decide⟩ (by decide) rfl (by decide) hfit
  have hstart : Run (serverSystem cfg) [] ⟨.initial, none⟩ := .start rfl
  have hrun : Run (serverSystem cfg) _ ⟨s, none⟩ := .step (.step hstart hrequest) hreply
  obtain ⟨xs, hs⟩ := idle_of_run hrun
  have hwf : f.WF := File.WF.new ..
  have hfind : s.fileSystem.find? [98] = some f := hinit.find?_created hwf rfl (by decide)
  have hnone : s.fileSystem.find? [97] = none :=
    hinit.find?_created_of_ne hwf rfl (by decide) rfl .all
  have hfiles : s.currState.files = 1 := by
    change toUInt (0 + 1) = 1
    unfold toUInt
    decide
  have hspace : s.currState.space = 0 := rfl
  refine ⟨s, by rw [hfind]; exact Option.some_ne_none _, ?_⟩
  have htakes : s.files.Takes .all := by
    obtain ⟨xs', hholds, hperm⟩ := hinit.holds_created hwf rfl .all
    have hlen : xs'.length ≤ 1 := by
      rcases hperm with ⟨-, hperm⟩ | ⟨-, hperm⟩ <;> simp [hperm.length_eq]
    refine hholds.map.takes_of_lt ?_ ⟨rfl, rfl⟩
    rw [hholds.entries, List.length_map]
    omega
  have hpath : Api.Call.ValidPath [97] := ⟨by decide, by decide⟩
  exact (@storesBack_iff cfg 7 s xs (.ofBytes []) [97] [1, 2] _ _ _ (fun _ => 0) hs
    ⟨rfl, rfl, fun _ => rfl, rfl⟩ hl hl hl hpath rfl (by decide) hnone (by rw [hfiles]; decide)
    (by rw [hspace]; decide) (by rw [hspace]; decide)).2 ⟨List.cons_ne_nil _ _, htakes⟩

/-! ## Between two requests of a run -/

end StoresBack

end StorageServer
