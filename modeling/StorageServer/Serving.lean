import StorageServer.Decoding

/-!
# A worker serves a call

What the worker reads of a call of the API, whatever its path and its sizes (`Call.decoded`) : an
`int` that cannot count the path makes it a part of it, or keeps the worker waiting. If the
worker then lets the connection go on, it has read all of the call, has sent the whole reply
(`Answered`), and the file system has changed by the effect of the request.
-/

open Programs

namespace StorageServer

/-! ## Calls of any length -/

namespace Api

/-- What is sent of a path after its length. -/
def sentPath (pathname : CString) : List UInt8 :=
  (pathname ++ [0]).take (toSize (toInt (toInt pathname.length + 1)))

theorem flatten_pathPieces (pathname : CString) :
    (pathPieces pathname).flatten = intBytes (toInt pathname.length) ++ sentPath pathname := by
  simp [pathPieces, sentPath]

namespace Call

/-- A call whose integers are of type `int`, and whose bytes are in memory. -/
def Typed (call : Call) : Prop :=
  call.pieces.flatten.length < 2 ^ 63 ∧
    match call with
    | .openFile _ flags => ValidInt flags
    | .readNFiles N _ => ValidInt N
    | _ => True

/-- The request that is read of a call. -/
def decoded : Call → Request
  | .openFile pathname flags => .openFile (cstring (sentPath pathname)) flags
  | .closeFile pathname => .closeFile (cstring (sentPath pathname))
  | .readFile pathname => .readFile (cstring (sentPath pathname))
  | .readNFiles N _ => .readNFiles N
  | .removeFile pathname => .removeFile (cstring (sentPath pathname))
  | .writeFile pathname file _ =>
    .writeFile (cstring (sentPath pathname)) (file.getD []).length (file.getD [])
  | .appendToFile pathname buf _ => .appendToFile (cstring (sentPath pathname)) buf.length buf

end Call

end Api

section Reading

variable {l : Local} {s : Store} {bytes rest : List UInt8} {path : CString}

/-- Bytes that are there are read. -/
theorem reads_readn {size : ℕ} (hsize : bytes.length = size) {Q : ℤ × List UInt8 → World → Prop}
    (hQ : Q (toInt size, bytes) (l.left rest, s)) :
    Prog.wp safeExec (readn size) Q (l.left (bytes ++ rest), s) := by
  subst hsize
  rw [safe_readn]
  simpa [Stream.readn, Local.left] using hQ

/-- A reader waits for bytes that are not sent. -/
theorem waits_readn (hending : l.inp.ending = .waiting) {size : ℕ} (hsize : bytes.length < size)
    {Q : ℤ × List UInt8 → World → Prop} :
    Prog.wp safeExec (readn size) Q (l.left bytes, s) := by
  have hlt : ¬size ≤ bytes.length := by omega
  rw [safe_readn]
  simp [Stream.readn, Local.left, hlt, hending]

theorem reads_readnInt {n : ℤ} (h : -2 ^ 31 ≤ n) (h' : n < 2 ^ 31) {Q : ℤ × ℤ → World → Prop}
    (hQ : Q (4, n) (l.left rest, s)) :
    Prog.wp safeExec readnInt Q (l.left (intBytes n ++ rest), s) := by
  have h4 : toInt (4 : ℕ) = 4 := toInt_of_range (by omega) (by omega)
  rw [readnInt, Prog.wp_bind]
  refine reads_readn (length_intBytes n) ?_
  rw [h4]
  dsimp only
  rw [Prog.wp_pure, bytesInt_intBytes h h']
  exact hQ

/-- The length of a path counts what is sent of it, or more than can be sent. -/
theorem length_sentPath (path : CString) :
    (Api.sentPath path).length = toSize (toInt (toInt path.length + 1)) ∨
      2 ^ 63 ≤ toSize (toInt (toInt path.length + 1)) := by
  rw [Api.sentPath, List.length_take, List.length_append, List.length_singleton]
  have h : toSize (toInt (toInt path.length + 1)) ≤ path.length + 1 ∨
      2 ^ 63 ≤ toSize (toInt (toInt path.length + 1)) := by
    unfold toSize toInt
    omega
  omega

/-- What a handler reads of a path. -/
theorem reads_readPathname (hending : l.inp.ending = .waiting)
    (hlen : (Api.sentPath path).length + rest.length < 2 ^ 63)
    {Q : Except Sa CString → World → Prop}
    (herror : ∀ code inp, code = .error ∨ code = .close →
      Q (.error code) ({ l with inp := inp }, s))
    (hok : Q (.ok (cstring (Api.sentPath path))) (l.left rest, s)) :
    Prog.wp safeExec readPathname Q
      (l.left (intBytes (toInt path.length) ++ (Api.sentPath path ++ rest)), s) := by
  obtain ⟨hlow, hhigh⟩ := toInt_range path.length
  rw [readPathname, Prog.wp_bind]
  refine reads_readnInt hlow hhigh ?_
  simp only [Prog.wp_ite, Prog.wp_bind, Prog.wp_pure, safe_safeMalloc]
  refine ⟨by omega, fun _ => ⟨by omega, fun _ _ => ?_⟩⟩
  rcases length_sentPath path with hsize | hsize
  · refine reads_readn hsize ?_
    simp only [Prog.wp_ite, Prog.wp_pure]
    exact ⟨fun _ => herror _ _ (.inl rfl), fun _ => ⟨fun _ => herror _ _ (.inr rfl), fun _ => hok⟩⟩
  · refine waits_readn hending ?_
    rw [List.length_append]
    omega

/-- A number that follows the path is read. -/
theorem reads_readOpenRequest {flags : ℤ} (hending : l.inp.ending = .waiting)
    (hflags : Api.Call.ValidInt flags) (hlen : (Api.sentPath path).length + 4 < 2 ^ 63)
    {Q : Except Sa (CString × ℤ) → World → Prop}
    (herror : ∀ code inp, code = .error ∨ code = .close →
      Q (.error code) ({ l with inp := inp }, s))
    (hok : Q (.ok (cstring (Api.sentPath path), flags)) (l.left [], s)) :
    Prog.wp safeExec readOpenRequest Q (l.left (intBytes (toInt path.length) ++
      (Api.sentPath path ++ (intBytes flags ++ []))), s) := by
  rw [readOpenRequest, Prog.wp_bind]
  refine reads_readPathname hending (by simpa using hlen) herror ?_
  simp only [Prog.wp_bind]
  refine reads_readnInt hflags.1 hflags.2 ?_
  simpa using hok

/-- A size and a buffer that follow the path are read. -/
theorem reads_readWriteRequest {buf : List UInt8} (hending : l.inp.ending = .waiting)
    (hlen : (Api.sentPath path).length + (8 + buf.length) < 2 ^ 63)
    {Q : Except Sa (CString × ℤ × List UInt8) → World → Prop}
    (herror : ∀ code inp, code = .error ∨ code = .close →
      Q (.error code) ({ l with inp := inp }, s))
    (hok : Q (.ok (cstring (Api.sentPath path), buf.length, buf)) (l.left [], s)) :
    Prog.wp safeExec readWriteRequest Q (l.left (intBytes (toInt path.length) ++
      (Api.sentPath path ++ (sizeBytes buf.length ++ (buf ++ [])))), s) := by
  have h8 : toInt (8 : ℕ) = 8 := toInt_of_range (by omega) (by omega)
  have hlong : bytesLong (sizeBytes buf.length) = buf.length := bytesLong_sizeBytes (by omega)
  have hsize := @toSize_of_range buf.length (by omega)
  rw [readWriteRequest, Prog.wp_bind]
  refine reads_readPathname hending (by simpa using hlen) herror ?_
  simp only [Prog.wp_bind]
  refine reads_readn (length_sizeBytes _) ?_
  simp only [h8, hlong, hsize, Prog.wp_ite, Prog.wp_bind, Prog.wp_pure, safe_safeMalloc]
  refine ⟨by omega, fun _ => ⟨by omega, fun _ _ => reads_readn rfl ?_⟩⟩
  simp only [Prog.wp_ite, Prog.wp_pure]
  exact ⟨fun _ => herror _ _ (.inl rfl), fun _ => ⟨fun _ => herror _ _ (.inr rfl), fun _ => hok⟩⟩

theorem reads_readAppendRequest {buf : List UInt8} (hending : l.inp.ending = .waiting)
    (hlen : (Api.sentPath path).length + (8 + buf.length) < 2 ^ 63)
    {Q : Except Sa (CString × ℕ × List UInt8) → World → Prop}
    (herror : ∀ code inp, code = .error ∨ code = .close →
      Q (.error code) ({ l with inp := inp }, s))
    (hok : Q (.ok (cstring (Api.sentPath path), buf.length, buf)) (l.left [], s)) :
    Prog.wp safeExec readAppendRequest Q (l.left (intBytes (toInt path.length) ++
      (Api.sentPath path ++ (sizeBytes buf.length ++ (buf ++ [])))), s) := by
  have h8 : toInt (8 : ℕ) = 8 := toInt_of_range (by omega) (by omega)
  have hsize : bytesSize (sizeBytes buf.length) = buf.length := bytesSize_sizeBytes (by omega)
  rw [readAppendRequest, Prog.wp_bind]
  refine reads_readPathname hending (by simpa using hlen) herror ?_
  simp only [Prog.wp_bind]
  refine reads_readn (length_sizeBytes _) ?_
  simp only [h8, hsize, Prog.wp_ite, Prog.wp_bind, Prog.wp_pure, safe_safeMalloc]
  refine ⟨by omega, fun _ => ⟨by omega, fun _ => ⟨fun _ _ => reads_readn rfl ?_, fun hzero => ?_⟩⟩⟩
  · simp only [Prog.wp_ite, Prog.wp_bind, Prog.wp_pure, safe_malloc]
    exact ⟨fun _ => herror _ _ (.inl rfl), fun _ => ⟨fun _ => herror _ _ (.inr rfl),
      fun _ => ⟨fun _ => herror _ _ (.inl rfl), fun _ => hok⟩⟩⟩
  · obtain rfl : buf = [] := List.eq_nil_of_length_eq_zero (Nat.eq_zero_of_not_pos hzero)
    simp only [Prog.wp_ite, Prog.wp_pure, safe_malloc]
    exact ⟨fun _ => herror _ _ (.inl rfl), fun _ => hok⟩

theorem reads_readNRequest {N : ℤ} (hN : Api.Call.ValidInt N) {Q : Except Sa ℤ → World → Prop}
    (herror : ∀ code inp, code = .error ∨ code = .close →
      Q (.error code) ({ l with inp := inp }, s))
    (hok : Q (.ok N) (l.left rest, s)) :
    Prog.wp safeExec readNRequest Q (l.left (intBytes N ++ rest), s) := by
  rw [readNRequest, Prog.wp_bind]
  refine reads_readnInt hN.1 hN.2 ?_
  simp only [Prog.wp_ite, Prog.wp_bind, Prog.wp_pure, safe_malloc, safe_safeMalloc]
  exact ⟨by omega, fun _ => ⟨by omega, fun _ => ⟨fun _ => herror _ _ (.inl rfl), fun _ _ => hok⟩⟩⟩

/-- A handler that is sent its arguments reads them all, unless it fails. -/
theorem reads_readRequest {call : Api.Call} (ht : call.Typed) (hending : l.inp.ending = .waiting)
    {Q : Except Sa Request → World → Prop}
    (herror : ∀ code inp, code = .error ∨ code = .close →
      Q (.error code) ({ l with inp := inp }, s))
    (hok : Q (.ok call.decoded) (l.left [], s)) :
    Prog.wp safeExec (readRequest call.handler) Q (l.left call.arguments, s) := by
  obtain ⟨hlen, htype⟩ := ht
  have harguments : call.arguments.length < 2 ^ 63 := by
    rw [Api.Call.flatten_pieces, List.length_append] at hlen
    omega
  have hmap : ∀ {α : Type} {p : M (Except Sa α)} {g : α → Request} {w : World},
      Prog.wp safeExec p (fun r w => Q (r.map g) w) w →
      Prog.wp safeExec (do return (← p).map g) Q w := fun h =>
    (Prog.wp_bind ..).2 (Prog.wp_mono h fun _ _ hq => (Prog.wp_pure _).2 hq)
  have hpath : ∀ (path : CString) (rest : List (List UInt8)),
      (Api.pathPieces path ++ rest).flatten =
        intBytes (toInt path.length) ++ (Api.sentPath path ++ rest.flatten) := by
    intro path rest
    rw [List.flatten_append, Api.flatten_pathPieces, List.append_assoc]
  have hlast : ∀ path : CString, (Api.pathPieces path).flatten =
      intBytes (toInt path.length) ++ (Api.sentPath path ++ []) := by
    intro path
    rw [Api.flatten_pathPieces, List.append_nil]
  cases call with
  | openFile path flags =>
    have hbytes : (Api.Call.openFile path flags).arguments = _ := hpath path [intBytes flags]
    rw [hbytes] at harguments ⊢
    simp only [List.length_append, length_intBytes, List.flatten_singleton] at harguments
    exact hmap (reads_readOpenRequest hending htype (by omega) herror hok)
  | closeFile path =>
    have hbytes : (Api.Call.closeFile path).arguments = _ := hlast path
    rw [hbytes] at harguments ⊢
    simp only [List.length_append, length_intBytes] at harguments
    exact hmap (reads_readPathname hending (by omega) herror hok)
  | readFile path =>
    have hbytes : (Api.Call.readFile path).arguments = _ := hlast path
    rw [hbytes] at harguments ⊢
    simp only [List.length_append, length_intBytes] at harguments
    exact hmap (reads_readPathname hending (by omega) herror hok)
  | removeFile path =>
    have hbytes : (Api.Call.removeFile path).arguments = _ := hlast path
    rw [hbytes] at harguments ⊢
    simp only [List.length_append, length_intBytes] at harguments
    exact hmap (reads_readPathname hending (by omega) herror hok)
  | readNFiles N written =>
    have hbytes : (Api.Call.readNFiles N written).arguments = intBytes N ++ [] := rfl
    rw [hbytes]
    exact hmap (reads_readNRequest htype herror hok)
  | writeFile path file written =>
    have hbytes : (Api.Call.writeFile path file written).arguments = _ :=
      hpath path [sizeBytes (file.getD []).length, file.getD []]
    rw [hbytes] at harguments ⊢
    simp only [List.length_append, length_intBytes, List.flatten_cons, List.flatten_nil,
      length_sizeBytes] at harguments
    exact hmap (reads_readWriteRequest hending (by omega) herror hok)
  | appendToFile path buf written =>
    have hbuf : (if 0 < buf.length then [buf] else []).flatten = buf ++ [] := by
      split_ifs with h
      · rfl
      · rw [List.eq_nil_of_length_eq_zero (Nat.eq_zero_of_not_pos h)]
        rfl
    have hbytes : (Api.Call.appendToFile path buf written).arguments = _ :=
      hpath path (sizeBytes buf.length :: if 0 < buf.length then [buf] else [])
    rw [hbytes, List.flatten_cons, hbuf] at harguments ⊢
    simp only [List.length_append, length_intBytes, length_sizeBytes] at harguments
    exact hmap (reads_readAppendRequest hending (by omega) herror hok)

/-- A worker that is sent a call reads it all, unless it gives up the connection. -/
theorem reads_readOperation {call : Api.Call} (ht : call.Typed)
    (hending : l.inp.ending = .waiting) {Q : Except WorkerCode (Except Sa Request) → World → Prop}
    (herror : ∀ code inp, code = .error ∨ code = .close →
      Q (.ok (.error code)) ({ l with inp := inp }, s))
    (hok : Q (.ok (.ok call.decoded)) (l.left [], s)) :
    Prog.wp safeExec readOperation Q (l.left call.pieces.flatten, s) := by
  have hcode := call.handler.opCode_range
  rw [Api.Call.flatten_pieces, readOperation, Prog.wp_bind]
  refine reads_readnInt hcode.1 hcode.2 ?_
  simp only [Handler.ofOpCode_code, Prog.wp_ite, Prog.wp_bind, Prog.wp_pure]
  refine ⟨by omega, fun _ => ⟨by omega, fun _ => ?_⟩⟩
  exact reads_readRequest ht hending herror hok

end Reading

/-! ## Answers -/

namespace FileSystem.Outcome

/-- The result of a handler, if its sends succeed. -/
def result : Except Sa Outcome → Sa
  | .error code => code
  | .ok _ => .success

/-- The bytes of a whole answer. -/
def answer (out : Except Sa Outcome) : List UInt8 :=
  (pieces out).flatten ++ intBytes (result out).code

end FileSystem.Outcome

/-- The main thread keeps the connection. -/
def WorkerCode.keeps : WorkerCode → Bool
  | success => true
  | close => false
  | fatalError => false
  | nonFatalError => true

/-- What a worker that keeps the connection has done for a request : its effect, and the whole
answer. -/
structure Answered (cfg : ServerConfig) (fdClient : ℕ) (req : Request) (l : Local) (s : Store)
    (code : WorkerCode) (l' : Local) (s' : Store) (readings : List Timespec)
    (out : Except Sa FileSystem.Outcome) (fs : FileSystem) : Prop where
  effect : s.fileSystem.Effect cfg fdClient l.malloc req readings out fs
  fileSystem : s'.fileSystem = fs.release out (FileSystem.Outcome.result out)
  code : code = (FileSystem.Outcome.result out).workerCode
  out : l'.out = l.out ++ FileSystem.Outcome.answer out
  inp : l'.inp = l.inp

section Answers

open FileSystem

variable {cfg : ServerConfig} {fdClient : ℕ} {req : Request} {l l' : Local} {s s' : Store}
  {xs : List (FilePtr × File)} {code : WorkerCode} {call : Api.Call}

/-- A result that keeps the connection is that of sends that succeed. -/
theorem result_of_keeps {out : Except Sa Outcome}
    (h : (Outcome.code l out).workerCode.keeps ∨ l.Reliable) :
    Outcome.code l out = Outcome.result out ∧ (l.sendAll (Outcome.pieces out)).1 ≠ -1 := by
  have hreliable : l.Reliable → (l.sendAll (Outcome.pieces out)).1 ≠ -1 := fun hl => by
    rw [(sendAll_reliable hl _).2]
    omega
  cases out with
  | error code =>
    have hsend : (l.sendAll (Outcome.pieces (.error code))).1 = 0 := rfl
    exact ⟨rfl, by rw [hsend]; omega⟩
  | ok o =>
    by_cases hs : (l.sendAll (Outcome.pieces (.ok o))).1 = -1
    · rw [Outcome.code_of_failed hs] at h
      exact absurd hs (hreliable (h.resolve_left nofun))
    · exact ⟨Outcome.code_of_sent hs, hs⟩

/-- The result is sent, or the connection is given up. -/
theorem safe_sendResult (hl : l.Steady) (res : Sa) {Q : WorkerCode → World → Prop}
    (hfatal : ¬l.Reliable → ∀ l', Q .fatalError (l', s))
    (hsent : ∀ l', l'.out = l.out ++ intBytes res.code → l'.inp = l.inp →
      Q res.workerCode (l', s)) :
    Prog.wp safeExec (sendResult res) Q (l, s) := by
  have hinp : (l.writen (intBytes res.code)).2.inp = l.inp := by
    have hframe := frame_sendAll l [intBytes res.code]
    rw [sendAll_singleton] at hframe
    rw [hframe]
  rw [sendResult, Prog.wp_bind, safe_writen, Prog.wp_ite, Prog.wp_pure, Prog.wp_pure]
  refine ⟨fun hw => hfatal (fun h => ?_) _, fun hw => hsent _ ((writen_steady hl _).2 hw) hinp⟩
  rw [(writen_reliable h _).2] at hw
  omega

/-- A request is served and answered, or the connection is given up. -/
theorem safe_answer (hs : s.Idle cfg xs) (hreq : req.WF) (hfit : s.fileSystem.Fits req)
    (hl : l.Steady) :
    Prog.wp safeExec (serveRequest cfg fdClient req >>= sendResult) (fun code w =>
      (∃ xs', w.2.Idle cfg xs') ∧ (code.keeps ∨ l.Reliable → ∃ readings out fs,
        Answered cfg fdClient req l s code w.1 w.2 readings out fs)) (l, s) := by
  rw [Prog.wp_bind, serveRequest, Prog.wp_bind]
  refine Prog.wp_mono (safe_storeSection hs hreq hfit) ?_
  rintro r ⟨l₁, s₁⟩ ⟨xs₁, readings, out, hserved⟩
  dsimp only at hserved
  have hl₁ : l₁.Steady := by
    rw [hserved.frame]
    exact hl
  refine Prog.wp_mono (safe_finish (l := l₁) hserved.idle hserved.shown) ?_
  rintro res ⟨l₂, s₂⟩ ⟨hres, hidle, hfs, hl₂⟩
  dsimp only at hidle hfs hl₂ ⊢
  obtain ⟨hsteady, hout⟩ := sendAll_steady hl₁ (Outcome.pieces out)
  have hl₂' : l₂.Steady := by
    rw [hl₂]
    exact hsteady
  have hreliable : l.Reliable → l₁.Reliable := fun h => by
    rw [hserved.frame]
    exact h
  have hreliable' : l.Reliable → l₂.Reliable := fun h => by
    rw [hl₂]
    exact (sendAll_reliable (hreliable h) (Outcome.pieces out)).1
  refine safe_sendResult hl₂' res (fun hne l' => ⟨hidle, fun h => ?_⟩) fun l' hl'out hl'inp => ?_
  · exact absurd (hreliable' (h.resolve_left nofun)) hne
  refine ⟨hidle, fun hkeeps => ⟨readings, out, s₁.fileSystem, ?_⟩⟩
  rw [hres] at hkeeps
  obtain ⟨hresult, hsent⟩ := result_of_keeps (hkeeps.imp_right hreliable)
  have hl₂out : l₂.out = l.out ++ (Outcome.pieces out).flatten := by
    rw [hl₂]
    refine (hout hsent).trans ?_
    rw [hserved.frame]
  have hl₂inp : l₂.inp = l.inp := by
    rw [hl₂]
    have hframe := congrArg Local.inp (frame_sendAll l₁ (Outcome.pieces out))
    refine hframe.trans ?_
    rw [hserved.frame]
  rw [hres, hresult] at hfs hl'out ⊢
  refine ⟨hserved.effect, hfs, rfl, ?_, hl'inp.trans hl₂inp⟩
  rw [hl'out, hl₂out, Outcome.answer, List.append_assoc]

theorem Api.Call.wf_decoded (ht : call.Typed) : call.decoded.WF := by
  cases call with
  | writeFile path file written =>
    have hlen : (file.getD []).length < 2 ^ 63 := by
      refine lt_of_le_of_lt ?_ ht.1
      simp [Api.Call.pieces, Api.writeFilePieces]
      omega
    exact (@toSize_of_range (file.getD []).length (by omega)).symm
  | appendToFile path buf written => exact rfl
  | _ => trivial

/-- What a worker that is sent a call does. -/
theorem of_worker (hs : s.Idle cfg xs) (ht : call.Typed)
    (hinp : l.inp = ⟨call.pieces.flatten, .waiting⟩) (hl : l.Steady)
    (hfit : s.fileSystem.Fits call.decoded)
    (hrun : Prog.run exec (worker cfg fdClient) (l, s) = .ok (code, (l', s'))) :
    (∃ xs', s'.Idle cfg xs') ∧ (code.keeps → ∃ readings out fs,
      Answered cfg fdClient call.decoded (l.left []) s code l' s' readings out fs) := by
  refine post_of_safe (Q := fun code w => (∃ xs', w.2.Idle cfg xs') ∧ (code.keeps →
    ∃ readings out fs, Answered cfg fdClient call.decoded (l.left []) s code w.1 w.2 readings out
      fs)) ?_ hrun
  have hleft : l = l.left call.pieces.flatten := by
    rw [Local.left, hinp]
    cases l
    simp_all
  rw [worker_eq, Prog.wp_bind]
  nth_rewrite 2 [hleft]
  refine reads_readOperation ht (by rw [hinp]) (fun res inp hres => ?_) ?_
  · change Prog.wp safeExec (sendResult res) _ _
    refine safe_sendResult (l := { l with inp := inp }) hl res
      (fun _ l' => ⟨⟨xs, hs⟩, fun h => Bool.noConfusion h⟩) fun l' _ _ => ⟨⟨xs, hs⟩, ?_⟩
    rcases hres with rfl | rfl <;> exact fun h => Bool.noConfusion h
  · refine Prog.wp_mono (safe_answer hs (Api.Call.wf_decoded ht) hfit hl) fun code w h => ?_
    exact ⟨h.1, fun hkeeps => h.2 (.inl hkeeps)⟩

/-- A worker that is sent a call answers it, if the section of the call returns. -/
theorem ends_worker (hs : s.Idle cfg xs) (hv : call.Valid) (hmalloc : ∀ n, l.malloc n = true)
    (hinp : l.inp.bytes = call.pieces.flatten) (hl : l.Reliable)
    (hfit : s.fileSystem.Fits call.request)
    (hends : Prog.twp exec (storeSection cfg fdClient call.request) (fun _ _ => True)
      (l.left [], s)) :
    ∃ code l' s' readings out fs, Prog.run exec (worker cfg fdClient) (l, s) =
        .ok (code, (l', s')) ∧ (∃ xs', s'.Idle cfg xs') ∧
      Answered cfg fdClient call.request (l.left []) s code l' s' readings out fs := by
  have hwf : call.request.WF := (of_readRequest (readRequest_left call hv l hmalloc s)).2.2.2 _ rfl
  have hserve : Prog.twp exec (serveRequest cfg fdClient call.request >>= sendResult)
      (fun _ _ => True) (l.left [], s) := by
    rw [Prog.twp_bind, serveRequest, Prog.twp_bind]
    refine Prog.twp_mono (ends_of_safe (safe_storeSection hs hwf hfit) hends) ?_
    rintro r ⟨l₁, s₁⟩ ⟨xs₁, readings, out, hserved⟩
    refine Prog.twp_mono (ends_finish (l := l₁) hserved.idle hserved.shown) fun res w _ => ?_
    rw [sendResult, Prog.twp_bind, ends_writen, Prog.twp_ite, Prog.twp_pure, Prog.twp_pure]
    exact ⟨fun _ => trivial, fun _ => trivial⟩
  have hleft : l.left (call.pieces.flatten ++ []) = l := by
    rw [List.append_nil, Local.left, ← hinp]
  have hworker : Prog.twp exec (worker cfg fdClient) (fun code w => (∃ xs', w.2.Idle cfg xs') ∧
      ∃ readings out fs, Answered cfg fdClient call.request (l.left []) s code w.1 w.2 readings out
        fs) (l, s) := by
    rw [worker_eq, Prog.twp_bind, ← hleft]
    refine ends_readCall hv hmalloc (Prog.twp_mono (ends_of_safe
      (safe_answer hs hwf hfit hl.steady) hserve) fun code w h => ?_)
    rw [hleft]
    exact ⟨h.1, h.2 (.inr hl)⟩
  obtain ⟨code, ⟨l', s'⟩, hrun, hidle, readings, out, fs, hanswered⟩ := hworker
  exact ⟨code, l', s', readings, out, fs, hrun, hidle, hanswered⟩

end Answers

end StorageServer
