import StorageServer.Completion
import StorageServer.Runs
import StorageServer.Api

/-!
# The codec of the requests

What a function of the API writes is read by the worker and its handler as the request it
was made from, and nothing of what follows is read (`request_roundtrip`).
-/

open Programs

namespace StorageServer

/-- The state of a handler with these bytes left to be read. -/
def Local.left (l : Local) (bytes : List UInt8) : Local :=
  { l with inp := { l.inp with bytes := bytes } }

@[simp] theorem Local.left_left (l : Local) (bs bs' : List UInt8) :
    (l.left bs).left bs' = l.left bs' :=
  rfl

@[simp] theorem Local.malloc_left (l : Local) (bytes : List UInt8) :
    (l.left bytes).malloc = l.malloc :=
  rfl

/-- Sends that succeed write every piece. -/
theorem Api.sendPieces_eq {c : Api.Client} (hc : c.sends = []) (pieces : List (List UInt8)) :
    Api.sendPieces pieces c = .ok (true, { c with out := c.out ++ pieces.flatten }) := by
  induction pieces generalizing c with
  | nil =>
    rw [List.flatten_nil, List.append_nil]
    rfl
  | cons bytes rest ih =>
    have hwriten : Api.writen bytes c = .ok (1, { c with out := c.out ++ bytes }) := by
      unfold Api.writen
      split_ifs with hnil
      · rw [hnil, List.append_nil]
      · rw [hc]
    have hsend : Api.sendPieces (bytes :: rest) c =
        (Api.writen bytes c).bind fun r =>
          (if r.1 = -1 then pure false else Api.sendPieces rest : Api.ApiM Bool) r.2 := rfl
    have hne : ¬(1 : ℤ) = -1 := by decide
    rw [hsend, hwriten, Res.bind_ok]
    dsimp only
    rw [if_neg hne, List.flatten_cons, ← List.append_assoc]
    exact ih hc

/-- The state of a handler whose client has sent these bytes and is then silent, and for which
every allocation is granted. -/
def Local.ofBytes (bytes : List UInt8) (clock : List Timespec) (sends : List SendRes) : Local where
  inp := ⟨bytes, .waiting⟩
  sends := sends
  clock := clock
  malloc := allGranted
  uninit := 0
  out := []
  log := []

/-- What a handler needs at the time `t`, before its client has sent anything. -/
def Local.at (t : ℤ) : Local :=
  .ofBytes [] [⟨t, 0⟩, ⟨t, 1⟩] []

section Reading

variable {l : Local} {s : Store} {bytes rest : List UInt8} {path : CString}

/-- Bytes that are there are read. -/
theorem ends_readn {size : ℕ} (hsize : bytes.length = size) {Q : ℤ × List UInt8 → World → Prop}
    (hQ : Q (toInt size, bytes) (l.left rest, s)) :
    Prog.twp exec (readn size) Q (l.left (bytes ++ rest), s) := by
  subst hsize
  rw [readn, perform, Prog.twp_perform]
  refine ⟨_, _, ?_, hQ⟩
  simp [exec, Stream.readn, Local.left]

theorem ends_readnInt {n : ℤ} (h : -2 ^ 31 ≤ n) (h' : n < 2 ^ 31) {Q : ℤ × ℤ → World → Prop}
    (hQ : Q (4, n) (l.left rest, s)) :
    Prog.twp exec readnInt Q (l.left (intBytes n ++ rest), s) := by
  rw [readnInt, Prog.twp_bind]
  refine ends_readn (length_intBytes n) ?_
  have h4 : toInt (4 : ℕ) = 4 := toInt_of_range (by omega) (by omega)
  rw [h4]
  dsimp only
  rw [Prog.twp_pure, bytesInt_intBytes h h']
  exact hQ

/-- What the two pieces of a path are. -/
theorem pathPieces_eq (hlen : path.length < 2 ^ 31 - 1) :
    Api.pathPieces path = [intBytes path.length, path ++ [0]] := by
  have h := @toInt_of_range path.length (by omega) (by omega)
  have h' := @toInt_of_range (path.length + 1) (by omega) (by omega)
  have h'' := @toSize_of_range (path.length + 1) (by omega)
  rw [Api.pathPieces, h, h', ← Int.natCast_succ, h'', List.take_of_length_le]
  simp

theorem ends_readPathname (hnul : (0 : UInt8) ∉ path) (hlen : path.length < 2 ^ 31 - 1)
    (hmalloc : ∀ n, l.malloc (.safe n) = true) {Q : Except Sa CString → World → Prop}
    (hQ : Q (.ok path) (l.left rest, s)) :
    Prog.twp exec readPathname Q
      (l.left (intBytes path.length ++ (path ++ [0] ++ rest)), s) := by
  have h' := @toInt_of_range (path.length + 1) (by omega) (by omega)
  have h'' := @toSize_of_range (path.length + 1) (by omega)
  rw [readPathname, Prog.twp_bind]
  refine ends_readnInt (by omega) (by omega) ?_
  simp only [Prog.twp_ite, Prog.twp_bind, ends_safeMalloc, Local.malloc_left, hmalloc]
  refine ⟨by omega, fun _ => ⟨by omega, fun _ => ⟨trivial, ?_⟩⟩⟩
  rw [h', ← Int.natCast_succ, h'']
  refine ends_readn (by simp) ?_
  have hr : toInt ((path.length + 1 : ℕ) : ℤ) = path.length + 1 := by
    rw [Int.natCast_succ, h']
  rw [hr]
  simp only [Prog.twp_ite, Prog.twp_pure, cstring_append_nul hnul]
  exact ⟨by omega, fun _ => ⟨by omega, fun _ => hQ⟩⟩

theorem ends_readOpenRequest {flags : ℤ} (hpath : Api.Call.ValidPath path)
    (hflags : Api.Call.ValidInt flags) (hmalloc : ∀ n, l.malloc (.safe n) = true)
    {Q : Except Sa (CString × ℤ) → World → Prop} (hQ : Q (.ok (path, flags)) (l.left rest, s)) :
    Prog.twp exec readOpenRequest Q
      (l.left (intBytes path.length ++ (path ++ [0] ++ (intBytes flags ++ rest))), s) := by
  rw [readOpenRequest, Prog.twp_bind]
  refine ends_readPathname hpath.1 hpath.2 hmalloc ?_
  simp only [Prog.twp_bind]
  refine ends_readnInt hflags.1 hflags.2 ?_
  simpa using hQ

theorem ends_readWriteRequest {buf : List UInt8} (hpath : Api.Call.ValidPath path)
    (hpos : 1 ≤ buf.length) (hlen : buf.length ≤ intMax) (hmalloc : ∀ n, l.malloc (.safe n) = true)
    {Q : Except Sa (CString × ℤ × List UInt8) → World → Prop}
    (hQ : Q (.ok (path, (buf.length, buf))) (l.left rest, s)) :
    Prog.twp exec readWriteRequest Q
      (l.left (intBytes path.length ++ (path ++ [0] ++ (sizeBytes buf.length ++ (buf ++ rest)))),
        s) := by
  have hint : intMax = 2 ^ 31 - 1 := rfl
  have h8 : toInt (8 : ℕ) = 8 := toInt_of_range (by omega) (by omega)
  have hlong : bytesLong (sizeBytes buf.length) = buf.length := bytesLong_sizeBytes (by omega)
  have hsize := @toSize_of_range buf.length (by omega)
  have hr := @toInt_of_range buf.length (by omega) (by omega)
  rw [readWriteRequest, Prog.twp_bind]
  refine ends_readPathname hpath.1 hpath.2 hmalloc ?_
  simp only [Prog.twp_bind]
  refine ends_readn (length_sizeBytes _) ?_
  simp only [h8, hlong, hsize, Prog.twp_ite, Prog.twp_bind, ends_safeMalloc, Local.malloc_left,
    hmalloc]
  refine ⟨by omega, fun _ => ⟨by omega, fun _ => ⟨trivial, ?_⟩⟩⟩
  refine ends_readn rfl ?_
  simp only [hr, Prog.twp_ite, Prog.twp_pure]
  exact ⟨by omega, fun _ => ⟨by omega, fun _ => hQ⟩⟩

theorem ends_readAppendRequest {buf : List UInt8} (hpath : Api.Call.ValidPath path)
    (hlen : buf.length ≤ intMax) (hmalloc : ∀ n, l.malloc n = true)
    {Q : Except Sa (CString × ℕ × List UInt8) → World → Prop}
    (hQ : Q (.ok (path, (buf.length, buf))) (l.left rest, s)) :
    Prog.twp exec readAppendRequest Q
      (l.left (intBytes path.length ++ (path ++ [0] ++ (sizeBytes buf.length ++ (buf ++ rest)))),
        s) := by
  have hint : intMax = 2 ^ 31 - 1 := rfl
  have h8 : toInt (8 : ℕ) = 8 := toInt_of_range (by omega) (by omega)
  have hsize : bytesSize (sizeBytes buf.length) = buf.length := bytesSize_sizeBytes (by omega)
  have hr := @toInt_of_range buf.length (by omega) (by omega)
  rw [readAppendRequest, Prog.twp_bind]
  refine ends_readPathname hpath.1 hpath.2 (fun _ => hmalloc _) ?_
  simp only [Prog.twp_bind]
  refine ends_readn (length_sizeBytes _) ?_
  simp only [h8, hsize, Prog.twp_ite, Prog.twp_bind, ends_safeMalloc, Local.malloc_left,
    hmalloc]
  refine ⟨by omega, fun _ => ⟨by omega, fun _ => ⟨fun hpos => ⟨trivial, ?_⟩, fun hzero => ?_⟩⟩⟩
  · refine ends_readn rfl ?_
    simp only [hr, Prog.twp_ite, Prog.twp_bind, Prog.twp_pure, ends_malloc,
      Local.malloc_left, hmalloc]
    exact ⟨by omega, fun _ => ⟨by omega, fun _ => ⟨by simp, fun _ => hQ⟩⟩⟩
  · obtain rfl : buf = [] := List.eq_nil_of_length_eq_zero (Nat.eq_zero_of_not_pos hzero)
    simpa [hmalloc] using hQ

theorem ends_readNRequest {N : ℤ} (hN : Api.Call.ValidInt N) (hlist : l.malloc .list = true)
    (hiter : l.malloc (.safe sizeofHashIter) = true) {Q : Except Sa ℤ → World → Prop}
    (hQ : Q (.ok N) (l.left rest, s)) :
    Prog.twp exec readNRequest Q (l.left (intBytes N ++ rest), s) := by
  rw [readNRequest, Prog.twp_bind]
  refine ends_readnInt hN.1 hN.2 ?_
  simp only [Prog.twp_ite, Prog.twp_bind, Prog.twp_pure, ends_malloc, ends_safeMalloc,
    Local.malloc_left, hlist, hiter]
  exact ⟨by omega, fun _ => ⟨by omega, fun _ => ⟨by simp, fun _ => ⟨trivial, hQ⟩⟩⟩⟩

/-- The code of an operation is read, and the rest by its handler. -/
theorem ends_readOperation (h : Handler) {Q : Except WorkerCode (Except Sa Request) → World → Prop}
    (hQ : Prog.twp exec (readRequest h) (fun r w => Q (.ok r) w) (l.left rest, s)) :
    Prog.twp exec readOperation Q (l.left (intBytes h.opCode.code ++ rest), s) := by
  have hcode := h.opCode_range
  rw [readOperation, Prog.twp_bind]
  refine ends_readnInt hcode.1 hcode.2 ?_
  simp only [Handler.ofOpCode_code, Prog.twp_ite, Prog.twp_bind, Prog.twp_pure]
  refine ⟨by omega, fun _ => ⟨by omega, fun _ => Prog.twp_mono hQ fun r w h => ?_⟩⟩
  exact (Prog.twp_pure _).2 h

/-- The request of a call is read by its handler. -/
theorem ends_readRequest {call : Api.Call} (hv : call.Valid) (hmalloc : ∀ n, l.malloc n = true)
    {Q : Except Sa Request → World → Prop} (hQ : Q (.ok call.request) (l.left rest, s)) :
    Prog.twp exec (readRequest call.handler) Q (l.left (call.arguments ++ rest), s) := by
  have hpath : ∀ {path : CString}, Api.Call.ValidPath path →
      Api.pathPieces path = [intBytes path.length, path ++ [0]] := fun h => pathPieces_eq h.2
  have hmap : ∀ {α : Type} {p : M (Except Sa α)} {g : α → Request} {w : World},
      Prog.twp exec p (fun r w => Q (r.map g) w) w →
      Prog.twp exec (do return (← p).map g) Q w := fun h =>
    (Prog.twp_bind ..).2 (Prog.twp_mono h fun _ _ hq => (Prog.twp_pure _).2 hq)
  cases call with
  | openFile path flags =>
    have hbytes : (Api.Call.openFile path flags).arguments ++ rest =
        intBytes path.length ++ (path ++ [0] ++ (intBytes flags ++ rest)) := by
      simp [Api.Call.arguments, Api.Call.pieces, Api.openFilePieces, hpath hv.1]
    rw [hbytes]
    exact hmap (ends_readOpenRequest hv.1 hv.2 (fun _ => hmalloc _) hQ)
  | closeFile path =>
    have hbytes : (Api.Call.closeFile path).arguments ++ rest =
        intBytes path.length ++ (path ++ [0] ++ rest) := by
      simp [Api.Call.arguments, Api.Call.pieces, Api.closeFilePieces, hpath hv]
    rw [hbytes]
    exact hmap (ends_readPathname hv.1 hv.2 (fun _ => hmalloc _) hQ)
  | readFile path =>
    have hbytes : (Api.Call.readFile path).arguments ++ rest =
        intBytes path.length ++ (path ++ [0] ++ rest) := by
      simp [Api.Call.arguments, Api.Call.pieces, Api.readFilePieces, hpath hv]
    rw [hbytes]
    exact hmap (ends_readPathname hv.1 hv.2 (fun _ => hmalloc _) hQ)
  | removeFile path =>
    have hbytes : (Api.Call.removeFile path).arguments ++ rest =
        intBytes path.length ++ (path ++ [0] ++ rest) := by
      simp [Api.Call.arguments, Api.Call.pieces, Api.removeFilePieces, hpath hv]
    rw [hbytes]
    exact hmap (ends_readPathname hv.1 hv.2 (fun _ => hmalloc _) hQ)
  | readNFiles N written =>
    have hbytes : (Api.Call.readNFiles N written).arguments ++ rest = intBytes N ++ rest := by
      simp [Api.Call.arguments, Api.Call.pieces, Api.readNFilesPieces]
    rw [hbytes, Api.Call.handler, readRequest, Prog.twp_bind]
    exact ends_readNRequest hv (hmalloc _) (hmalloc _) ((Prog.twp_pure _).2 hQ)
  | writeFile path file written =>
    have hbytes : (Api.Call.writeFile path file written).arguments ++ rest =
        intBytes path.length ++ (path ++ [0] ++
          (sizeBytes (file.getD []).length ++ (file.getD [] ++ rest))) := by
      simp [Api.Call.arguments, Api.Call.pieces, Api.writeFilePieces, hpath hv.1]
    rw [hbytes]
    exact hmap (ends_readWriteRequest hv.1 hv.2.1 hv.2.2 (fun _ => hmalloc _) hQ)
  | appendToFile path buf written =>
    have hbuf : (if 0 < buf.length then [buf] else []).flatten = buf := by
      split_ifs with h
      · simp
      · simpa using (List.eq_nil_of_length_eq_zero (Nat.eq_zero_of_not_pos h)).symm
    have hbytes : (Api.Call.appendToFile path buf written).arguments ++ rest =
        intBytes path.length ++ (path ++ [0] ++ (sizeBytes buf.length ++ (buf ++ rest))) := by
      simp [Api.Call.arguments, Api.Call.pieces, Api.appendToFilePieces, hpath hv.1, hbuf]
    rw [hbytes]
    exact hmap (ends_readAppendRequest hv.1 hv.2 hmalloc hQ)

/-- The request of a call is read by the worker and its handler. -/
theorem ends_readCall {call : Api.Call} (hv : call.Valid) (hmalloc : ∀ n, l.malloc n = true)
    {Q : Except WorkerCode (Except Sa Request) → World → Prop}
    (hQ : Q (.ok (.ok call.request)) (l.left rest, s)) :
    Prog.twp exec readOperation Q (l.left (call.pieces.flatten ++ rest), s) := by
  rw [Api.Call.flatten_pieces, List.append_assoc]
  exact ends_readOperation _ (ends_readRequest hv hmalloc hQ)

end Reading

/-- A handler reads the request of a call, and nothing is left of it. -/
theorem readRequest_left (call : Api.Call) (hv : call.Valid) (l : Local)
    (hmalloc : ∀ n, l.malloc n = true) (s : Store) :
    Prog.run exec (readRequest call.handler) (l.left call.arguments, s) =
      .ok (.ok call.request, (l.left [], s)) := by
  have hends : Prog.twp exec (readRequest call.handler)
      (fun a w => a = .ok call.request ∧ w = (l.left [], s)) (l.left (call.arguments ++ []), s) :=
    ends_readRequest hv hmalloc ⟨rfl, rfl⟩
  obtain ⟨_, _, hrun, rfl, rfl⟩ := hends
  rwa [List.append_nil] at hrun

/-- A handler reads the request of an `openFile`, for which it only uses `safe_malloc`. -/
theorem readOpen_left {path : CString} {flags : ℤ} (hv : (Api.Call.openFile path flags).Valid)
    (l : Local) (hmalloc : ∀ n, l.malloc (.safe n) = true) (s : Store) :
    Prog.run exec (readRequest .openFile) (l.left (Api.Call.openFile path flags).arguments, s) =
      .ok (.ok (.openFile path flags), (l.left [], s)) := by
  have hbytes : (Api.Call.openFile path flags).arguments =
      intBytes path.length ++ (path ++ [0] ++ (intBytes flags ++ [])) := by
    simp [Api.Call.arguments, Api.Call.pieces, Api.openFilePieces, pathPieces_eq hv.1.2]
  have hends : Prog.twp exec (readRequest .openFile)
      (fun a w => a = .ok (.openFile path flags) ∧ w = (l.left [], s))
      (l.left (Api.Call.openFile path flags).arguments, s) := by
    rw [hbytes, readRequest, Prog.twp_bind]
    exact ends_readOpenRequest hv.1 hv.2 hmalloc ((Prog.twp_pure _).2 ⟨rfl, rfl⟩)
  obtain ⟨_, _, hrun, rfl, rfl⟩ := hends
  exact hrun

/-- A request of the API that is all sent arrives as the bytes of its pieces, and the worker
and the handler read back what was asked for, and leave what follows, before they look at
the store. -/
theorem request_roundtrip (call : Api.Call) (hv : call.Valid) (r : List UInt8) :
    (∀ c : Api.Client, c.sends = [] → Api.sendPieces call.pieces c =
      .ok (true, { c with out := c.out ++ call.pieces.flatten })) ∧
    ∀ (l : Local) (s : Store), (∀ n, l.malloc n = true) →
      l.inp.bytes = call.pieces.flatten ++ r →
      Prog.run exec readOperation (l, s) =
        .ok (.ok (.ok call.request), ({ l with inp := { l.inp with bytes := r } }, s)) := by
  refine ⟨fun c hc => ?_, fun l s hmalloc hinp => ?_⟩
  · exact Api.sendPieces_eq hc _
  · have hends : Prog.twp exec readOperation
        (fun a w => a = .ok (.ok call.request) ∧ w = (l.left r, s))
        (l.left (call.pieces.flatten ++ r), s) :=
      ends_readCall hv hmalloc ⟨rfl, rfl⟩
    obtain ⟨_, _, hrun, rfl, rfl⟩ := hends
    have hl : l.left (call.pieces.flatten ++ r) = l := by
      rw [Local.left, ← hinp]
    rwa [hl] at hrun

theorem request_roundtrip_append :
    Prog.run exec readOperation
        (Local.ofBytes ((Api.appendToFilePieces [97] [1, 2]).flatten ++ [7]) [] [], Store.initial) =
      .ok (.ok (.ok (.appendToFile [97] 2 [1, 2])), (Local.ofBytes [7] [] [], Store.initial)) :=
  (request_roundtrip (.appendToFile [97] [1, 2] fun _ => 0)
    ⟨⟨by decide, by decide⟩, by decide⟩ [7]).2 _ _ (fun _ => rfl) rfl

/-- A client calls a function of the API, and the handler replies. -/
def Api.Call.actions (call : Api.Call) (fdClient : ℕ) (l : Local) : List ServerAction :=
  [.call call.handler fdClient (l.left call.arguments), .reply]

/-! ## Two short runs -/

/-- A configuration for two files and three bytes. -/
def ServerConfig.small : ServerConfig :=
  ⟨3, 2, .LRU, by decide, by decide⟩

/-- A client creates and locks a file, without one allocation. -/
def creationWithout (a : Allocation) : List ServerAction :=
  Api.Call.actions (.openFile [97] (oCreate + oLock)) 7
    { Local.at 0 with malloc := fun b => b ≠ a }

/-- A client creates three files and fills each of them. The first is expelled by a creation, the
second by a write. -/
def expulsions : List ServerAction :=
  Api.Call.actions (.openFile [97] (oCreate + oLock)) 7 (.at 0) ++
    Api.Call.actions (.writeFile [97] (some [1, 2]) fun _ => 0) 7 (.at 1) ++
    Api.Call.actions (.openFile [98] (oCreate + oLock)) 7 (.at 2) ++
    Api.Call.actions (.openFile [99] (oCreate + oLock)) 7 (.at 3) ++
    Api.Call.actions (.writeFile [98] (some [3, 4]) fun _ => 0) 7 (.at 4) ++
    Api.Call.actions (.writeFile [99] (some [5, 6]) fun _ => 0) 7 (.at 5)

end StorageServer
