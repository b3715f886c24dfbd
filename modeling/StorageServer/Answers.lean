import StorageServer.Serving

/-!
# Calls and their answers

A function of the API first writes its request and then reads the answer
(`Api.Call.run_cases`), and what it reads is exactly what the server writes, if the files in
it can be read back (`reads_answer`). A file that is sent with its path must not have the empty
one, which ends the list, and a file that `read_file` sends must not be empty.
-/

open Programs

namespace StorageServer

/-! ## The two halves of a call -/

namespace Api

variable {α β : Type} {c c' : Client} {a : α}

/-- The client with every `safe_malloc` granted. -/
def Client.granted (c : Client) : Client :=
  { c with malloc := fun
      | .safe _ => true
      | a => c.malloc a }

/-- A property of programs that `readn` and the allocations have, and what is built from
them. -/
structure Reads (P : ∀ {α : Type}, ApiM α → Prop) : Prop where
  pure : ∀ {α : Type} (a : α), P (Pure.pure a : ApiM α)
  bind : ∀ {α β : Type} {p : ApiM α} {k : α → ApiM β}, P p → (∀ a, P (k a)) → P (p >>= k)
  readn : ∀ size, P (Api.readn size)
  safeMalloc : ∀ size, P (Api.safeMalloc size)
  malloc : ∀ a, (∀ size, a ≠ .safe size) → P (Api.malloc a)
  /-- A program that is chosen by what there is to read. -/
  choose : ∀ {α β : Type} {p : β → ApiM α} (f : Stream → β), (∀ b, P (p b)) →
    P fun c => p (f c.inp) c
  fault : ∀ {α : Type}, P (fun _ => .fault : ApiM α)

namespace Reads

variable {P : ∀ {α : Type}, ApiM α → Prop}

theorem ite (_ : Reads P) {b : Prop} [Decidable b] {p q : ApiM α} (hp : P p) (hq : P q) :
    P (if b then p else q) := by
  split
  · exact hp
  · exact hq

variable (h : Reads P)

include h

theorem readnInt : P Api.readnInt :=
  h.bind (h.readn 4) fun _ => h.pure _

theorem readRes : P Api.readRes :=
  h.bind h.readnInt fun _ => h.ite (h.pure _) (h.pure _)

theorem readSuccess : P Api.readSuccess :=
  h.bind h.readRes fun r => by
    cases r with
    | error e => exact h.pure _
    | ok res => exact h.ite (h.pure _) (h.pure _)

theorem receiveLoop (fuel : ℕ) (files : List Received) : P (Api.receiveLoop fuel files) := by
  induction fuel generalizing files with
  | zero => exact h.fault
  | succ fuel ih =>
    have hpush : ∀ files', P (Api.malloc (.listNode files.length) >>= fun granted =>
        if (!granted) = true then Pure.pure (.error .enotrecoverable)
        else Api.receiveLoop fuel files') := fun files' =>
      h.bind (h.malloc _ nofun) fun _ => h.ite (h.pure _) (ih files')
    refine h.bind h.readnInt fun _ => h.ite (h.pure _) (h.ite (h.pure _) ?_)
    refine h.bind (h.safeMalloc _) fun _ => h.bind (h.safeMalloc _) fun _ => ?_
    refine h.bind (h.readn _) fun _ => h.ite (h.pure _) ?_
    refine h.bind (h.readn 8) fun _ => h.ite (h.pure _) (h.ite ?_ (hpush _))
    exact h.bind (h.safeMalloc _) fun _ => h.bind (h.readn _) fun _ => h.ite (h.pure _) (hpush _)

theorem receiveList : P Api.receiveList :=
  h.choose (fun st => st.bytes.length + 1) fun n => h.receiveLoop n []

theorem receiveFiles : P Api.receiveFiles := by
  refine h.bind (h.malloc _ nofun) fun _ => h.ite (h.pure _) (h.bind h.receiveList fun r => ?_)
  cases r with
  | error e => exact h.pure _
  | ok files =>
    refine h.bind h.readSuccess fun r => ?_
    cases r <;> exact h.pure _

theorem filesReply (written : List Received → ℤ) : P (Api.filesReply written) :=
  h.bind h.readSuccess fun r => by
    cases r with
    | error e => exact h.pure _
    | ok _ =>
      refine h.bind h.receiveFiles fun r => ?_
      cases r with
      | error e => exact h.pure _
      | ok files => exact h.ite (h.pure _) (h.pure _)

theorem readFileReply : P Api.readFileReply :=
  h.bind h.readSuccess fun r => by
    cases r with
    | error e => exact h.pure _
    | ok _ =>
      refine h.bind (h.readn 8) fun _ => h.ite (h.pure _) ?_
      refine h.bind (h.safeMalloc _) fun _ => h.bind (h.readn _) fun _ => h.ite (h.pure _) ?_
      refine h.bind h.readSuccess fun r => ?_
      cases r <;> exact h.pure _

end Reads

/-- A program that only reads : it leaves alone what has been sent, and an allocation that is
refused ends the process. -/
structure Reading (p : ApiM α) : Prop where
  frame : ∀ {c a c'}, p c = .ok (a, c') → c'.out = c.out ∧ c'.sends = c.sends
  granted : ∀ {c a c'}, p c = .ok (a, c') → p c.granted = .ok (a, c'.granted)

namespace Reading

theorem pure (a : α) : Reading (Pure.pure a : ApiM α) where
  frame h := by
    cases h
    exact ⟨rfl, rfl⟩
  granted h := by
    cases h
    rfl

theorem bind {p : ApiM α} {k : α → ApiM β} (hp : Reading p) (hk : ∀ a, Reading (k a)) :
    Reading (p >>= k) where
  frame {c b c'} h := by
    obtain ⟨⟨a, c₁⟩, h₁, h₂⟩ := Res.bind_eq_ok.1 h
    obtain ⟨hout, hsends⟩ := (hk a).frame h₂
    obtain ⟨hout₁, hsends₁⟩ := hp.frame h₁
    exact ⟨hout.trans hout₁, hsends.trans hsends₁⟩
  granted {c b c'} h := by
    obtain ⟨⟨a, c₁⟩, h₁, h₂⟩ := Res.bind_eq_ok.1 h
    exact Res.bind_eq_ok.2 ⟨_, hp.granted h₁, (hk a).granted h₂⟩

theorem readn (size : ℕ) : Reading (Api.readn size) where
  frame h := by
    obtain ⟨_, -, h₂⟩ := Res.bind_eq_ok.1 h
    cases h₂
    exact ⟨rfl, rfl⟩
  granted h := by
    obtain ⟨r, h₁, h₂⟩ := Res.bind_eq_ok.1 h
    cases h₂
    exact Res.bind_eq_ok.2 ⟨r, h₁, rfl⟩

theorem safeMalloc (size : ℕ) : Reading (Api.safeMalloc size) where
  frame {c a c'} h := by
    unfold Api.safeMalloc at h
    split_ifs at h
    cases h
    exact ⟨rfl, rfl⟩
  granted {c a c'} h := by
    unfold Api.safeMalloc at h
    split_ifs at h
    cases h
    rfl

theorem malloc (a : Allocation) (ha : ∀ size, a ≠ .safe size) : Reading (Api.malloc a) where
  frame {c b c'} h := by
    cases h
    exact ⟨rfl, rfl⟩
  granted {c b c'} h := by
    cases h
    cases a with
    | safe size => exact absurd rfl (ha size)
    | _ => rfl

theorem setLastOp (op : LastOp) : Reading (Api.setLastOp op) where
  frame h := by
    cases h
    exact ⟨rfl, rfl⟩
  granted h := by
    cases h
    rfl

/-- What only reads is built from `readn` and the allocations. -/
theorem reads : Reads Reading where
  pure := pure
  bind := bind
  readn := readn
  safeMalloc := safeMalloc
  malloc := malloc
  choose f hp :=
    ⟨fun {c _ _} h => (hp (f c.inp)).frame h, fun {c _ _} h => (hp (f c.inp)).granted h⟩
  fault := ⟨nofun, nofun⟩

end Reading

theorem setLastOp_apply (op : LastOp) (c : Client) :
    setLastOp op c = .ok ((), { c with lastOp := op }) :=
  rfl

theorem whenConnected_of {p : ApiM (Except Errno α)} (h : c.connected = true) :
    whenConnected p c = p c :=
  if_pos h

/-- Without a connection nothing is done. -/
theorem whenConnected_cases {p : ApiM (Except Errno α)} {r : Except Errno α}
    (h : whenConnected p c = .ok (r, c')) : c' = c ∨ p c = .ok (r, c') := by
  unfold whenConnected at h
  split_ifs at h
  · exact .inr h
  · cases h
    exact .inl rfl

/-- A request that is all sent is followed by its reply. -/
theorem exchange_eq (hc : c.sends = []) (pieces : List (List UInt8))
    (reply : ApiM (Except Errno α)) :
    exchange pieces reply c = reply { c with out := c.out ++ pieces.flatten } := by
  rw [exchange, bind_of_ok (sendPieces_eq hc pieces)]
  rfl

namespace Call

/-- What a call does after it has written its request. -/
def reply : Call → ApiM (Except Errno Unit)
  | .openFile pathname flags => do
    let op : LastOp := ⟨true, isFlagSet flags oCreate, isFlagSet flags oLock, false, pathname⟩
    Api.setLastOp op
    Api.safeMalloc (toSize (toInt (toInt pathname.length + 1)))
    match ← Api.readSuccess with
    | .error e => return .error e
    | .ok () =>
      Api.setLastOp { op with success := true }
      return .ok ()
  | .closeFile _ => Api.readSuccess
  | .removeFile _ => Api.readSuccess
  | .readFile _ => return (← Api.readFileReply).map fun _ => ()
  | .readNFiles _ written => return (← Api.filesReply written).map fun _ => ()
  | .writeFile _ _ written => return (← Api.filesReply written).map fun _ => ()
  | .appendToFile _ _ written => return (← Api.filesReply written).map fun _ => ()

theorem reading_reply (call : Call) : Reading call.reply := by
  cases call with
  | openFile pathname flags =>
    refine (Reading.setLastOp _).bind fun _ => (Reading.safeMalloc _).bind fun _ => ?_
    refine Reading.reads.readSuccess.bind fun r => ?_
    cases r with
    | error e => exact Reading.pure _
    | ok _ => exact (Reading.setLastOp _).bind fun _ => Reading.pure _
  | closeFile | removeFile => exact Reading.reads.readSuccess
  | readFile => exact Reading.reads.readFileReply.bind fun _ => Reading.pure _
  | readNFiles _ written | writeFile _ _ written | appendToFile _ _ written =>
    exact (Reading.reads.filesReply written).bind fun _ => Reading.pure _

/-- A call returns without having sent anything, or it sends its request and then reads. -/
theorem run_cases (call : Call) {a : Except Errno Unit} (hc : c.sends = [])
    (h : call.run c = .ok (a, c')) :
    (c'.out = c.out ∧ c'.inp = c.inp ∧ c'.sends = []) ∨
      ∃ op, call.reply { c with lastOp := op, out := c.out ++ call.pieces.flatten } =
        .ok (a, c') := by
  -- a function that forgets the last operation, and then sends and reads
  have hreset : ∀ {α : Type} {pieces : List (List UInt8)} {reply : ApiM (Except Errno α)}
      {a : Except Errno α}, whenConnected (Api.setLastOp .reset >>= fun _ => exchange pieces reply)
        c = .ok (a, c') → c' = c ∨
      reply { c with lastOp := .reset, out := c.out ++ pieces.flatten } = .ok (a, c') := by
    intro α pieces reply a h
    rcases whenConnected_cases h with rfl | h
    · exact .inl rfl
    · rw [bind_of_ok (Api.setLastOp_apply _ c), exchange_eq (by exact hc)] at h
      exact .inr h
  have hleft : c' = c → c'.out = c.out ∧ c'.inp = c.inp ∧ c'.sends = [] := by
    rintro rfl
    exact ⟨rfl, rfl, hc⟩
  cases call with
  | openFile pathname flags =>
    rcases whenConnected_cases h with rfl | h
    · exact .inl (hleft rfl)
    · rw [bind_of_ok (sendPieces_eq hc _)] at h
      exact .inr ⟨c.lastOp, h⟩
  | closeFile pathname => exact (hreset h).imp hleft fun h => ⟨_, h⟩
  | removeFile pathname => exact (hreset h).imp hleft fun h => ⟨_, h⟩
  | readFile pathname =>
    obtain ⟨⟨r, c₁⟩, h₁, h₂⟩ := Res.bind_eq_ok.1 h
    obtain ⟨rfl, rfl⟩ := Prod.mk.inj (Res.ok.inj h₂)
    exact (hreset h₁).imp hleft fun h => ⟨_, Res.bind_eq_ok.2 ⟨_, h, rfl⟩⟩
  | readNFiles N written =>
    obtain ⟨⟨r, c₁⟩, h₁, h₂⟩ := Res.bind_eq_ok.1 h
    obtain ⟨rfl, rfl⟩ := Prod.mk.inj (Res.ok.inj h₂)
    exact (hreset h₁).imp hleft fun h => ⟨_, Res.bind_eq_ok.2 ⟨_, h, rfl⟩⟩
  | appendToFile pathname buf written =>
    obtain ⟨⟨r, c₁⟩, h₁, h₂⟩ := Res.bind_eq_ok.1 h
    obtain ⟨rfl, rfl⟩ := Prod.mk.inj (Res.ok.inj h₂)
    exact (hreset h₁).imp hleft fun h => ⟨_, Res.bind_eq_ok.2 ⟨_, h, rfl⟩⟩
  | writeFile pathname file written =>
    obtain ⟨⟨r, c₁⟩, h₁, h₂⟩ := Res.bind_eq_ok.1 h
    obtain ⟨rfl, rfl⟩ := Prod.mk.inj (Res.ok.inj h₂)
    rcases whenConnected_cases h₁ with rfl | h₁
    · exact .inl (hleft rfl)
    split_ifs at h₁
    · cases h₁
      exact .inl (hleft rfl)
    rw [bind_of_ok (Api.setLastOp_apply _ c)] at h₁
    cases file with
    | none =>
      cases h₁
      exact .inl ⟨rfl, rfl, hc⟩
    | some contents =>
      obtain ⟨⟨_, c₂⟩, hmalloc, h₃⟩ := Res.bind_eq_ok.1 h₁
      unfold Api.safeMalloc at hmalloc
      split_ifs at hmalloc
      obtain ⟨-, rfl⟩ := Prod.mk.inj (Res.ok.inj hmalloc)
      obtain ⟨⟨r', c₃⟩, h₄, h₅⟩ := Res.bind_eq_ok.1 h₃
      rw [exchange_eq (by exact hc)] at h₄
      refine .inr ⟨.reset, Res.bind_eq_ok.2 ⟨_, h₄, ?_⟩⟩
      cases r' with
      | error e =>
        cases h₅
        rfl
      | ok n =>
        cases h₅
        rfl

end Call

end Api

/-! ## Answers -/

namespace FileSystem

/-- The files that a request sends if it is not refused. -/
def sends (cfg : ServerConfig) (fs : FileSystem) : Request → List File
  | .writeFile path size _ => (fs.makeRoom cfg path (toSize size)).1
  | .appendToFile path size _ => if size = 0 then [] else (fs.makeRoom cfg path size).1
  | .readFile path => (fs.find? path).toList
  | .readNFiles N => fs.files.take (fs.countRead N)
  | _ => []

end FileSystem

/-- The client can read back a file that the request sends : `read_file` sends the contents
without the path, also if there are none. -/
def Request.CanSend : Request → File → Prop
  | .readFile _, f => toInt f.size ≠ 0 ∧ toInt f.size ≠ -1
  | _, f => f.Sendable

/-- The answer to the request has a list of files. -/
def Request.SendsList : Request → Prop
  | .writeFile _ _ _ | .appendToFile _ _ _ | .readNFiles _ => True
  | _ => False

namespace FileSystem

/-- The client can read back every file that the request sends, and it has memory for a list of
them. -/
def Receivable (cfg : ServerConfig) (fdClient : ℕ) (fs : FileSystem)
    (malloc : Allocation → Bool) (req : Request) : Prop :=
  fs.refusal cfg fdClient req = none → (∀ f ∈ fs.sends cfg req, req.CanSend f) ∧
    (req.SendsList → malloc .list = true ∧
      ∀ i < (fs.sends cfg req).length, malloc (.listNode i) = true)

/-- The files in the answer of an outcome. -/
def Outcome.files : Except Sa Outcome → List File
  | .ok (.expelled fs) => fs
  | .ok (.reading f) => [f]
  | .ok (.readingN fs) => fs
  | _ => []

end FileSystem

section Answers

open FileSystem

variable {cfg : ServerConfig} {fdClient : ℕ} {fs fs' : FileSystem} {req : Request}
  {malloc : Allocation → Bool} {readings : List Timespec} {out : Except Sa Outcome}
  {c : Api.Client} {rest : List UInt8}

theorem refusal_ne_success {code : Sa} (h : fs.refusal cfg fdClient req = some code) :
    code ≠ .success := by
  rintro rfl
  cases req <;> simp only [refusal] at h <;> repeat' split at h
  all_goals cases h

/-- A change to the file at a path does not change which others are expelled for it. -/
theorem makeRoom_update {path : CString} {g : File → File} {size : ℕ}
    (hg : ∀ f, (g f).pathName = f.pathName) :
    ((fs.update path g).makeRoom cfg path size).1 = (fs.makeRoom cfg path size).1 := by
  rw [makeRoom_fst, makeRoom_fst, others_update hg]
  rfl

/-- The file as it is sent. -/
def File.sent (f : File) : CString × ℕ × List UInt8 :=
  (f.pathName, f.size, f.contents)

/-- The files of an answer are those that the request sends, unless it is an error. -/
theorem FileSystem.Effect.files_sent (he : fs.Effect cfg fdClient malloc req readings out fs') :
    (∃ code, out = .error code) ∨ fs.refusal cfg fdClient req = none ∧
      (Outcome.files out).map File.sent = (fs.sends cfg req).map File.sent := by
  cases he with
  | refused | noMemory | unset => exact .inl ⟨_, rfl⟩
  | created hc hf =>
    rw [refusal, if_pos hc, hf]
    exact .inr ⟨rfl, rfl⟩
  | opened _ _ h | removed _ h => exact .inr ⟨h, rfl⟩
  | closed hf | removedNothing hf =>
    rw [refusal, hf]
    exact .inr ⟨rfl, rfl⟩
  | @written path size buf t _ _ h =>
    rw [Outcome.files, makeRoom_update (g := File.written (toSize size) buf t) fun _ => rfl]
    exact .inr ⟨h, rfl⟩
  | @appended path size buf t _ hsize _ h =>
    rw [Outcome.files, makeRoom_update (g := File.appended buf t) fun _ => rfl, sends, if_neg hsize]
    exact .inr ⟨h, rfl⟩
  | appendedNothing => exact .inr ⟨rfl, rfl⟩
  | @read path t g hg h =>
    rw [sends, hg]
    exact .inr ⟨h, rfl⟩
  | readN =>
    rw [Outcome.files, List.map_map]
    exact .inr ⟨rfl, rfl⟩

theorem FileSystem.Effect.mem_sent (he : fs.Effect cfg fdClient malloc req readings out fs')
    {f : File} (hf : f ∈ Outcome.files out) : fs.refusal cfg fdClient req = none ∧
      ∃ g ∈ fs.sends cfg req, f.pathName = g.pathName ∧ f.size = g.size ∧
        f.contents = g.contents := by
  rcases he.files_sent with ⟨code, rfl⟩ | ⟨hrefusal, hsent⟩
  · cases hf
  · have hmem : f.sent ∈ (fs.sends cfg req).map File.sent := hsent ▸ List.mem_map_of_mem hf
    obtain ⟨g, hg, hfg⟩ := List.mem_map.1 hmem
    simp only [File.sent, Prod.mk.injEq] at hfg
    exact ⟨hrefusal, g, hg, hfg.1.symm, hfg.2.1.symm, hfg.2.2.symm⟩

/-- Every file that is sent is stored. -/
theorem mem_of_sends {f : File} (hf : f ∈ fs.sends cfg req) : f ∈ fs.files := by
  cases req with
  | openFile | closeFile | removeFile => cases hf
  | writeFile path size buf => exact (mem_makeRoom_fst hf).1
  | appendToFile path size buf =>
    rw [sends] at hf
    split_ifs at hf
    · cases hf
    · exact (mem_makeRoom_fst hf).1
  | readFile path => exact List.mem_of_find?_eq_some (Option.mem_toList.1 hf)
  | readNFiles N => exact List.mem_of_mem_take hf

/-! ### Reading an answer -/

namespace Api

variable {f : File} {files : List File} {written : List Received → ℤ} {code : Sa}

theorem filesReply_error (hcode : code ≠ .success) :
    filesReply written (c.left (intBytes code.code ++ rest)) =
      .ok (.error (convertResToErrno code.code), c.left rest) := by
  rw [filesReply, bind_of_ok readSuccess_left, if_neg hcode]
  rfl

theorem filesReply_files (h : ∀ f ∈ files, f.Sendable ∧ f.Sized)
    (hmalloc : c.MakesList files.length) :
    ∃ r, filesReply written (c.left (intBytes Sa.success.code ++
      ((listPieces files).flatten ++ (intBytes Sa.success.code ++ rest)))) =
        .ok (r, c.left rest) := by
  rw [filesReply, bind_of_ok readSuccess_left, if_pos rfl]
  dsimp only
  rw [writeFilesSentByServer, bind_of_ok (receiveFiles_left h hmalloc .success), if_pos rfl]
  dsimp only
  split_ifs <;> exact ⟨_, rfl⟩

theorem readFileReply_error (hcode : code ≠ .success) :
    readFileReply (c.left (intBytes code.code ++ rest)) =
      .ok (.error (convertResToErrno code.code), c.left rest) := by
  rw [readFileReply, bind_of_ok readSuccess_left, if_neg hcode]
  rfl

theorem readFileReply_file (h : toInt f.size ≠ 0 ∧ toInt f.size ≠ -1) (hf : f.Sized)
    (hmalloc : ∀ n, c.malloc (.safe n) = true) :
    readFileReply (c.left (intBytes Sa.success.code ++
      ((f.pieces false).flatten ++ (intBytes Sa.success.code ++ rest)))) =
        .ok (.ok (f.size, f.contents), c.left rest) := by
  have h8 : toInt (8 : ℕ) = 8 := toInt_of_range (by omega) (by omega)
  have h8' : ¬((8 : ℤ) = -1 ∨ (8 : ℤ) = 0) := by omega
  rw [readFileReply, bind_of_ok readSuccess_left, if_pos rfl, hf.flatten_pieces]
  dsimp only
  rw [List.append_assoc, bind_of_ok (readn_left (length_sizeBytes _)), h8]
  dsimp only
  rw [if_neg h8', bytesSize_sizeBytes hf.size_lt, bind_of_ok (safeMalloc_left hmalloc _),
    bind_of_ok (readn_left hf.contents)]
  dsimp only
  rw [if_neg (not_or.2 ⟨h.2, h.1⟩), bind_of_ok readSuccess_left, if_pos rfl]
  rfl

end Api

theorem FileSystem.Outcome.answer_reading (f : File) : Outcome.answer (.ok (.reading f)) =
    intBytes Sa.success.code ++ ((f.pieces false).flatten ++ intBytes Sa.success.code) := by
  simp [answer, pieces, result]

theorem FileSystem.Outcome.answer_expelled (files : List File) :
    Outcome.answer (.ok (.expelled files)) =
      intBytes Sa.success.code ++ ((listPieces files).flatten ++ intBytes Sa.success.code) := by
  simp [answer, pieces, result]

theorem FileSystem.Outcome.answer_readingN (files : List File) :
    Outcome.answer (.ok (.readingN files)) =
      intBytes Sa.success.code ++ ((listPieces files).flatten ++ intBytes Sa.success.code) := by
  simp [answer, pieces, result]

/-- What the answer to a request is made of. -/
theorem FileSystem.Effect.answer_cases (he : fs.Effect cfg fdClient malloc req readings out fs') :
    match req with
    | .readFile _ => (∃ code : Sa, code ≠ .success ∧ Outcome.answer out = intBytes code.code) ∨
        ∃ f ∈ Outcome.files out, Outcome.answer out =
          intBytes Sa.success.code ++ ((f.pieces false).flatten ++ intBytes Sa.success.code)
    | .writeFile _ _ _ | .appendToFile _ _ _ | .readNFiles _ =>
      (∃ code : Sa, code ≠ .success ∧ Outcome.answer out = intBytes code.code) ∨
        Outcome.answer out = intBytes Sa.success.code ++
          ((listPieces (Outcome.files out)).flatten ++ intBytes Sa.success.code)
    | _ => ∃ code : Sa, Outcome.answer out = intBytes code.code := by
  cases he with
  | @refused req code h =>
    have hne := refusal_ne_success h
    cases req with
    | openFile | closeFile | removeFile => exact ⟨code, rfl⟩
    | readFile | writeFile | appendToFile | readNFiles => exact .inl ⟨code, hne, rfl⟩
  | @noMemory req a hreq =>
    cases req with
    | writeFile | readNFiles => exact .inl ⟨.error, nofun, rfl⟩
    | openFile | closeFile | removeFile | readFile | appendToFile => cases hreq
  | created | opened | closed | removed | removedNothing => exact ⟨.success, rfl⟩
  | written | appended | appendedNothing => exact .inr (Outcome.answer_expelled _)
  | readN => exact .inr (Outcome.answer_readingN _)
  | read => exact .inr ⟨_, List.mem_singleton_self _, Outcome.answer_reading _⟩
  | unset => exact .inl ⟨.error, nofun, rfl⟩

/-- A call reads all of the answer to it, and nothing more. -/
theorem reads_answer {call : Api.Call}
    (he : fs.Effect cfg fdClient malloc call.decoded readings out fs')
    (hr : fs.Receivable cfg fdClient c.malloc call.decoded) (hsized : ∀ f ∈ fs.files, f.Sized)
    (hmalloc : ∀ n, c.malloc (.safe n) = true) :
    ∃ a op, call.reply (c.left (Outcome.answer out ++ rest)) =
      .ok (a, { c.left rest with lastOp := op }) := by
  have hfiles : ∀ f ∈ Outcome.files out, call.decoded.CanSend f ∧ f.Sized := fun f hf => by
    obtain ⟨hrefusal, g, hg, hname, hsize, hcontents⟩ := he.mem_sent hf
    obtain ⟨hlen, hlt⟩ := hsized g (mem_of_sends hg)
    refine ⟨?_, by rw [hcontents, hsize, hlen], by rwa [hsize]⟩
    have hcan := (hr hrefusal).1 g hg
    cases call with
    | readFile path =>
      rw [Api.Call.decoded, Request.CanSend, hsize]
      exact hcan
    | _ => exact ⟨hname ▸ hcan.nonempty, hname ▸ hcan.path, hsize ▸ hcan.size⟩
  -- the reply of a function that is sent files
  have hreply : ∀ (written : List Api.Received → ℤ), call.decoded.SendsList →
      (∀ f ∈ Outcome.files out, f.Sendable ∧ f.Sized) →
      ((∃ code : Sa, code ≠ .success ∧ Outcome.answer out = intBytes code.code) ∨
        Outcome.answer out = intBytes Sa.success.code ++
          ((listPieces (Outcome.files out)).flatten ++ intBytes Sa.success.code)) →
      ∃ a op, (Api.filesReply written >>= fun r => pure (r.map fun _ => ()))
        (c.left (Outcome.answer out ++ rest)) = .ok (a, { c.left rest with lastOp := op }) := by
    rintro written hlist hsend (⟨code, hne, hanswer⟩ | hanswer)
    · rw [hanswer, Api.bind_of_ok (Api.filesReply_error hne)]
      exact ⟨_, c.lastOp, rfl⟩
    · have hmakes : c.MakesList (Outcome.files out).length := by
        rcases he.files_sent with ⟨code, rfl⟩ | ⟨hrefusal, hsent⟩
        · -- the answer is longer than a code
          change intBytes code.code = _ at hanswer
          have hlen := congrArg List.length hanswer
          simp only [List.length_append, length_intBytes] at hlen
          omega
        · obtain ⟨hl, hnode⟩ := (hr hrefusal).2 hlist
          refine ⟨hmalloc, hl, ?_⟩
          have hlen := congrArg List.length hsent
          rw [List.length_map, List.length_map] at hlen
          rwa [hlen]
      obtain ⟨r, hr⟩ := Api.filesReply_files hsend hmakes
      rw [hanswer, List.append_assoc, List.append_assoc, Api.bind_of_ok hr]
      exact ⟨_, c.lastOp, rfl⟩
  have hanswer := he.answer_cases
  cases call with
  | openFile path flags =>
    obtain ⟨code, hanswer⟩ := hanswer
    let op : Api.LastOp := ⟨true, isFlagSet flags oCreate, isFlagSet flags oLock, false, path⟩
    have hop : Api.setLastOp op (c.left (intBytes code.code ++ rest)) =
        .ok ((), { c with lastOp := op }.left (intBytes code.code ++ rest)) := rfl
    have hmalloc : ∀ n, ({ c with lastOp := op } : Api.Client).malloc (.safe n) = true := hmalloc
    rw [hanswer, Api.Call.reply, Api.bind_of_ok hop, Api.bind_of_ok (Api.safeMalloc_left hmalloc _),
      Api.bind_of_ok Api.readSuccess_left]
    by_cases hcode : code = .success
    · exact ⟨_, { op with success := true }, by rw [if_pos hcode]; rfl⟩
    · exact ⟨_, op, by rw [if_neg hcode]; rfl⟩
  | closeFile | removeFile =>
    obtain ⟨code, hanswer⟩ := hanswer
    exact ⟨_, c.lastOp, by rw [hanswer]; exact Api.readSuccess_left⟩
  | readFile path =>
    rcases hanswer with ⟨code, hne, hanswer⟩ | ⟨f, hf, hanswer⟩
    · rw [hanswer, Api.Call.reply, Api.bind_of_ok (Api.readFileReply_error hne)]
      exact ⟨_, c.lastOp, rfl⟩
    · obtain ⟨hsend, hfsized⟩ := hfiles f hf
      rw [hanswer, Api.Call.reply, List.append_assoc, List.append_assoc,
        Api.bind_of_ok (Api.readFileReply_file hsend hfsized hmalloc)]
      exact ⟨_, c.lastOp, rfl⟩
  | readNFiles N written => exact hreply written trivial hfiles hanswer
  | writeFile path file written => exact hreply written trivial hfiles hanswer
  | appendToFile path buf written => exact hreply written trivial hfiles hanswer

end Answers

/-! ## Answers of a server on which nothing fails -/

/-- What a worker has to itself if nothing fails : sends succeed, allocations are granted, and
there are readings of the clock. -/
structure Local.Good (l : Local) : Prop where
  reliable : l.Reliable
  malloc : ∀ n, l.malloc n = true
  clock : 2 ≤ l.clock.length

section Good

open FileSystem

variable {cfg : ServerConfig} {fdClient : ℕ} {l : Local} {s : Store} {xs : List (FilePtr × File)}
  {path : CString}

/-- A success is sent. -/
theorem ends_sendResult (hl : l.Reliable) {Q : WorkerCode → World → Prop} {res : Sa}
    (hQ : ∀ l', l'.out = l.out ++ intBytes res.code → l'.inp = l.inp → Q res.workerCode (l', s)) :
    Prog.twp exec (sendResult res) Q (l, s) := by
  have hends : Prog.twp exec (sendResult res) (fun _ _ => True) (l, s) := by
    rw [sendResult, Prog.twp_bind, ends_writen, Prog.twp_ite, Prog.twp_pure, Prog.twp_pure]
    exact ⟨fun _ => trivial, fun _ => trivial⟩
  exact ends_of_safe (safe_sendResult hl.steady res (fun hne => absurd hl hne) hQ) hends

/-- A client creates a file while the number of files is below its limit. -/
theorem answers_create (hs : s.Idle cfg xs) (hl : l.Good) (hpath : Api.Call.ValidPath path)
    {flags : ℤ} (hflags : Api.Call.ValidInt flags) (hcreate : isFlagSet flags oCreate = true)
    (hinp : l.inp.bytes = (Api.Call.openFile path flags).pieces.flatten)
    (hfind : s.fileSystem.find? path = none) (hfiles : s.currState.files ≠ cfg.maxFiles) :
    ∃ t₁ t₂ l', Prog.run exec (worker cfg fdClient) (l, s) =
        .ok (.success, (l', s.created .all path (File.new allGranted path flags fdClient t₁ t₂))) ∧
      l'.out = l.out ++ intBytes Sa.success.code ∧ l'.inp.bytes = [] := by
  have hmalloc : l.malloc = allGranted := funext hl.malloc
  obtain ⟨t₁, t₂, rest, hclock⟩ : ∃ t₁ t₂ rest, l.clock = t₁ :: t₂ :: rest := by
    match hc : l.clock, hl.clock with
    | t₁ :: t₂ :: rest, _ => exact ⟨t₁, t₂, rest, rfl⟩
  have hvictim : victim cfg s xs = none := if_neg hfiles
  let f := File.new allGranted path flags fdClient t₁ t₂
  have hstore : Prog.twp exec (openFileCreate cfg fdClient path flags) (fun r w =>
      r = .ok (s.fresh, none) ∧ ∃ log, w = ({ l.left [] with clock := rest, log := log },
        s.created .all path f)) (l.left [], s) := by
    refine ends_of_safe (safe_openFileCreate hs (fun h => by simp [hfind] at h)
      fun _ t₁' t₂' rest' hclock' s' hs' => ?_)
      (ends_openFileCreate hs hfind hfiles (hl.malloc _) (fun _ => hl.malloc _) hclock)
    have he : t₁ :: t₂ :: rest = t₁' :: t₂' :: rest' := hclock.symm.trans hclock'
    cases he
    rw [hs', hvictim]
    refine ⟨rfl, _, Prod.ext rfl ?_⟩
    rw [Local.malloc_left, hmalloc]
    rfl
  have hleft : l.left (((Api.Call.openFile path flags).pieces.flatten) ++ []) = l := by
    rw [List.append_nil, Local.left, ← hinp]
  have hworker : Prog.twp exec (worker cfg fdClient) (fun code w => code = .success ∧
      w.2 = s.created .all path f ∧
      w.1.out = l.out ++ intBytes Sa.success.code ∧ w.1.inp.bytes = [])
      (l.left ((Api.Call.openFile path flags).pieces.flatten ++ []), s) := by
    rw [worker_eq, Prog.twp_bind]
    have hvalid : (Api.Call.openFile path flags).Valid := ⟨hpath, hflags⟩
    refine ends_readCall hvalid hl.malloc ?_
    simp only [Api.Call.request, serveRequest, storeSection, hcreate, if_true, Prog.twp_bind]
    refine Prog.twp_mono hstore ?_
    rintro _ _ ⟨rfl, log, rfl⟩
    have hreliable : ({ l.left [] with
        clock := rest
        log := log ++ [.path f.pathName] } : Local).Reliable := hl.reliable
    have hheap : (s.created .all path f).heap s.fresh = some f := Store.heap_alloc_self s f rfl
    simp only [Except.map, Prog.twp_pure, finish, replyCreated, Prog.twp_bind, ends_getPathName,
      ends_logger, hheap]
    exact ⟨f, rfl, ends_sendResult hreliable fun l' hout hinp' =>
      ⟨rfl, rfl, hout, congrArg Stream.bytes hinp'⟩⟩
  rw [hleft] at hworker
  obtain ⟨_, ⟨l', _⟩, hrun, rfl, rfl, hout, hinp'⟩ := hworker
  exact ⟨t₁, t₂, l', hrun, hout, hinp'⟩

theorem Local.Good.clock_left (hl : l.Good) (bytes : List UInt8) :
    ∃ t rest, (l.left bytes).clock = t :: rest := by
  obtain ⟨t, rest, hclock⟩ := List.exists_cons_of_length_pos (Nat.zero_lt_of_lt hl.clock)
  exact ⟨t, rest, hclock⟩

/-- A client that has opened a file without a writer reads it. -/
theorem answers_read (hs : s.Idle cfg xs) (hl : l.Good) (hpath : Api.Call.ValidPath path)
    (hinp : l.inp.bytes = (Api.Call.readFile path).pieces.flatten) {f : File}
    (hfind : s.fileSystem.find? path = some f) (hfree : f.nWriters = 0)
    (hopen : f.fdOpen.contains fdClient = true)
    (hfit : s.fileSystem.Fits (.readFile path)) :
    ∃ l' s', Prog.run exec (worker cfg fdClient) (l, s) = .ok (.success, (l', s')) ∧
      (∃ xs', s'.Idle cfg xs') ∧ l'.inp.bytes = [] ∧
      l'.out = l.out ++ (intBytes Sa.success.code ++
        ((f.pieces false).flatten ++ intBytes Sa.success.code)) := by
  obtain ⟨rfl, p, hx⟩ := hs.exists_of_find? hfind
  obtain ⟨t, rest, hclock⟩ := hl.clock_left []
  have hends : Prog.twp exec (storeSection cfg fdClient (.readFile f.pathName)) (fun _ _ => True)
      (l.left [], s) :=
    (Prog.twp_bind ..).2 (Prog.twp_mono (ends_readFileStore hs hx hfree hclock) fun _ _ _ =>
      (Prog.twp_pure _).2 trivial)
  have hvalid : (Api.Call.readFile f.pathName).Valid := hpath
  obtain ⟨code, l', s', readings, out, fs, hrun, hidle, ha⟩ :=
    ends_worker hs hvalid hl.malloc hinp hl.reliable hfit hends
  obtain ⟨heffect, -, hcode, hout, hinp'⟩ := ha
  have heffect : s.fileSystem.Effect cfg fdClient l.malloc (.readFile f.pathName) readings out fs :=
    heffect
  cases heffect with
  | refused h =>
    rw [(refusal_readFile_eq_none hfind).2 hopen] at h
    cases h
  | noMemory hreq => cases hreq
  | @read _ t' g hg h =>
    obtain rfl := Option.some.inj (hfind.symm.trans hg)
    obtain rfl : code = .success := hcode
    rw [Outcome.answer_reading] at hout
    exact ⟨l', s', hrun, hidle, congrArg Stream.bytes hinp', hout⟩

/-- A client writes to an empty file that it has locked, while there is room. -/
theorem answers_write (hs : s.Idle cfg xs) (hl : l.Good) (hpath : Api.Call.ValidPath path)
    {buf : List UInt8} {written : List Api.Received → ℤ}
    (hinp : l.inp.bytes = (Api.Call.writeFile path (some buf) written).pieces.flatten) {f : File}
    (hpos : 1 ≤ buf.length) (hlen : buf.length ≤ intMax)
    (hfind : s.fileSystem.find? path = some f) (hfree : f.nReaders = 0 ∧ f.nWriters = 0)
    (hopen : f.fdOpen.contains fdClient = true) (hlock : f.fdLock = fdClient)
    (hsize : f.size = 0) (hroom : s.currState.space + buf.length ≤ cfg.maxSpace)
    (hfit : s.fileSystem.Fits (.writeFile path buf.length buf)) :
    ∃ t l' s', Prog.run exec (worker cfg fdClient) (l, s) = .ok (.success, (l', s')) ∧
      (∃ xs', s'.Idle cfg xs') ∧ l'.inp.bytes = [] ∧
      l'.out = l.out ++ (intBytes Sa.success.code ++
        ((listPieces []).flatten ++ intBytes Sa.success.code)) ∧
      s'.fileSystem.find? path = some (f.written buf.length buf t) := by
  have hint : intMax = 2 ^ 31 - 1 := rfl
  have hbuf : toSize (buf.length : ℤ) = buf.length := toSize_of_range (by omega)
  obtain ⟨rfl, p, hx⟩ := hs.exists_of_find? hfind
  obtain ⟨t, rest, hclock⟩ := hl.clock_left []
  have hends : Prog.twp exec (storeSection cfg fdClient (.writeFile f.pathName buf.length buf))
      (fun _ _ => True) (l.left [], s) :=
    (Prog.twp_bind ..).2 (Prog.twp_mono (ends_writeFileStore hs hx hfree hopen hlock hsize
      (by rwa [hbuf]) (hl.malloc _) hclock) fun _ _ _ => (Prog.twp_pure _).2 trivial)
  have hvalid : (Api.Call.writeFile f.pathName (some buf) written).Valid := ⟨hpath, hpos, hlen⟩
  obtain ⟨code, l', s', readings, out, fs, hrun, hidle, ha⟩ :=
    ends_worker hs hvalid hl.malloc hinp hl.reliable hfit hends
  obtain ⟨heffect, hfs, hcode, hout, hinp'⟩ := ha
  have heffect : s.fileSystem.Effect cfg fdClient l.malloc (.writeFile f.pathName buf.length buf)
      readings out fs := heffect
  have hrefusal : s.fileSystem.refusal cfg fdClient (.writeFile f.pathName buf.length buf) = none :=
    (refusal_writeFile_eq_none hfind).2 ⟨hopen, hlock, hsize, by rw [hbuf]; omega⟩
  generalize hn : (buf.length : ℤ) = n at heffect hrefusal
  cases heffect with
  | refused h =>
    rw [hrefusal] at h
    cases h
  | @noMemory _ a _ _ ha =>
    rw [hl.malloc a] at ha
    cases ha
  | @written path size buf' t _ hf =>
    subst hn
    rw [hbuf] at hout hfs
    have hnames : ((s.fileSystem.update f.pathName (File.written buf.length buf t)).files.map
        File.pathName).Nodup := by
      rw [map_name_update (g := File.written buf.length buf t) fun _ => rfl]
      exact hs.sound.names
    have hmem := mem_update (g := File.written buf.length buf t) (find?_eq_some hfind).1
    have hnone : ((s.fileSystem.update f.pathName (File.written buf.length buf t)).makeRoom cfg
        f.pathName buf.length).1 = [] := by
      have hneed : s.currState.space + buf.length - cfg.maxSpace = 0 := Nat.sub_eq_zero_of_le hroom
      rw [makeRoom_fst]
      exact (congrArg (Selection.takeWeight File.size · _) hneed).trans
        (Selection.takeWeight_zero _)
    obtain rfl : code = .success := hcode
    rw [hnone, Outcome.answer_expelled] at hout
    refine ⟨t, l', s', hrun, hidle, congrArg Stream.bytes hinp', hout, ?_⟩
    rw [hfs]
    exact find?_makeRoom hnames hmem

end Good

/-! ### The client -/

namespace Api

/-- A connected client that waits for nothing, and for which nothing fails. -/
structure Client.Ready (c : Client) : Prop where
  connected : c.connected = true
  sends : c.sends = []
  malloc : ∀ n, c.malloc n = true
  inp : c.inp.bytes = []

/-- The client to which these bytes are sent. -/
def Client.receives (c : Client) (bytes : List UInt8) : Client :=
  { c with inp := ⟨c.inp.bytes ++ bytes, .waiting⟩ }

section Ready

variable {c : Client} {path : CString} {f : File}

/-- The client after a call : it has sent the pieces of the call and read all of the answer. -/
def Client.after (c : Client) (call : Call) (op : LastOp) : Client :=
  { c with inp := ⟨[], .waiting⟩, lastOp := op, out := c.out ++ call.pieces.flatten }

@[simp]
theorem Client.after_out (c : Client) (call : Call) (op : LastOp) :
    (c.after call op).out = c.out ++ call.pieces.flatten := rfl

theorem Client.Ready.after (h : c.Ready) (call : Call) (op : LastOp) : (c.after call op).Ready :=
  ⟨h.connected, h.sends, h.malloc, rfl⟩

/-- The client that is to read the answer to a call. -/
theorem Client.Ready.left_after (h : c.Ready) (call : Call) (op : LastOp) (bytes : List UInt8) :
    { c.receives bytes with lastOp := op, out := c.out ++ call.pieces.flatten } =
      (c.after call op).left (bytes ++ []) := by
  rw [Client.receives, h.inp, List.nil_append, List.append_nil]
  rfl

/-- `openFile` succeeds. -/
theorem Client.Ready.openFile (h : c.Ready) (path : CString) (flags : ℤ) :
    (Call.openFile path flags).run (c.receives (intBytes Sa.success.code)) =
      .ok (.ok (), c.after (.openFile path flags)
        ⟨true, isFlagSet flags oCreate, isFlagSet flags oLock, true, path⟩) := by
  let op : LastOp := ⟨true, isFlagSet flags oCreate, isFlagSet flags oLock, false, path⟩
  have hrun : (Call.openFile path flags).run (c.receives (intBytes Sa.success.code)) =
      (Call.openFile path flags).reply { c.receives (intBytes Sa.success.code) with
        out := c.out ++ (Call.openFile path flags).pieces.flatten } :=
    (whenConnected_of (c := c.receives _) h.connected).trans
      (bind_of_ok (sendPieces_eq (c := c.receives _) h.sends _))
  have hop : setLastOp op { c.receives (intBytes Sa.success.code) with
      out := c.out ++ (Call.openFile path flags).pieces.flatten } =
        .ok ((), (c.after (.openFile path flags) op).left (intBytes Sa.success.code ++ [])) := by
    rw [← h.left_after]
    rfl
  rw [hrun, Call.reply, bind_of_ok hop,
    bind_of_ok (safeMalloc_left (fun _ => (h.after _ op).malloc _) _),
    bind_of_ok readSuccess_left, if_pos rfl]
  rfl

theorem Client.Ready.readFile_eq (h : c.Ready) (path : CString) (bytes : List UInt8) :
    Api.readFile path (c.receives bytes) =
      readFileReply ((c.after (.readFile path) .reset).left (bytes ++ [])) := by
  rw [Api.readFile, whenConnected_of (c := c.receives _) h.connected,
    bind_of_ok (setLastOp_apply ..), exchange_eq (by exact h.sends), ← h.left_after]
  rfl

/-- `readFile` reads a file. -/
theorem Client.Ready.readFile (h : c.Ready) (path : CString)
    (hsize : toInt f.size ≠ 0 ∧ toInt f.size ≠ -1) (hf : f.Sized) :
    Api.readFile path (c.receives (intBytes Sa.success.code ++
      ((f.pieces false).flatten ++ intBytes Sa.success.code))) =
        .ok (.ok (f.size, f.contents), c.after (.readFile path) .reset) := by
  rw [h.readFile_eq, List.append_assoc, List.append_assoc,
    readFileReply_file hsize hf fun _ => (h.after _ _).malloc _]
  rfl

/-- `readFile` does not read an empty file. -/
theorem Client.Ready.readFile_empty (h : c.Ready) (path : CString) (hsize : f.size = 0)
    (hf : f.Sized) : Api.readFile path (c.receives (intBytes Sa.success.code ++
      ((f.pieces false).flatten ++ intBytes Sa.success.code))) =
        .ok (.error .ebade, (c.after (.readFile path) .reset).left (intBytes Sa.success.code)) := by
  have h8 : toInt (8 : ℕ) = 8 := toInt_of_range (by omega) (by omega)
  have h8' : ¬((8 : ℤ) = -1 ∨ (8 : ℤ) = 0) := by omega
  have h0 : Api.readn 0 ((c.after (.readFile path) .reset).left (intBytes Sa.success.code)) =
      .ok
        ((toInt (0 : ℕ), []), (c.after (.readFile path) .reset).left (intBytes Sa.success.code)) :=
    readn_left List.length_nil
  rw [h.readFile_eq, List.append_assoc, List.append_assoc, List.append_nil, readFileReply,
    bind_of_ok readSuccess_left, if_pos rfl, hf.flatten_pieces, hf.eq_nil hsize, List.append_nil]
  dsimp only
  rw [bind_of_ok (readn_left (length_sizeBytes _)), h8]
  dsimp only
  rw [if_neg h8', bytesSize_sizeBytes hf.size_lt, hsize,
    bind_of_ok (safeMalloc_left (fun _ => (h.after _ _).malloc _) _), bind_of_ok h0,
    toInt_of_range (by omega) (by omega)]
  rfl

/-- The answer to a write that expels nothing. -/
theorem filesReply_nil {written : List Received → ℤ} (hwritten : written [] = 0)
    (hmalloc : ∀ n, c.malloc n = true) (rest : List UInt8) :
    filesReply written (c.left (intBytes Sa.success.code ++
      ((listPieces []).flatten ++ (intBytes Sa.success.code ++ rest)))) =
        .ok (.ok 0, c.left rest) := by
  have h0 : toUInt 0 = 0 := by
    unfold toUInt
    rfl
  rw [filesReply, bind_of_ok readSuccess_left, if_pos rfl]
  dsimp only
  rw [writeFilesSentByServer, bind_of_ok (receiveFiles_left (List.forall_mem_nil _)
    (.of_granted hmalloc _) .success), if_pos rfl]
  simp [hwritten, h0]

/-- `writeFile` succeeds after an `openFile` that has created and locked the file. -/
theorem Client.Ready.writeFile (h : c.Ready) (hop : c.lastOp = ⟨true, true, true, true, path⟩)
    (buf : List UInt8) {written : List Received → ℤ} (hwritten : written [] = 0) :
    (Call.writeFile path (some buf) written).run (c.receives (intBytes Sa.success.code ++
      ((listPieces []).flatten ++ intBytes Sa.success.code))) =
        .ok (.ok (), c.after (.writeFile path (some buf) written) .reset) := by
  let bytes := intBytes Sa.success.code ++ ((listPieces []).flatten ++ intBytes Sa.success.code)
  have hop' : (c.receives bytes).lastOp = ⟨true, true, true, true, path⟩ := hop
  have hwrite : Api.writeFile path (some buf) written (c.receives bytes) =
      .ok (.ok 0, c.after (.writeFile path (some buf) written) .reset) := by
    rw [Api.writeFile, whenConnected_of (c := c.receives _) h.connected, hop']
    rw [if_neg (by simp [strncmpEq]), bind_of_ok (setLastOp_apply ..)]
    have hmalloc : Api.safeMalloc buf.length { c.receives bytes with lastOp := .reset } =
        .ok ((), { c.receives bytes with lastOp := .reset }) := if_pos (h.malloc _)
    have hexchange : exchange (writeFilePieces path buf) (filesReply written)
        { c.receives bytes with lastOp := .reset } =
          .ok (.ok 0, c.after (.writeFile path (some buf) written) .reset) := by
      rw [exchange_eq (by exact h.sends)]
      refine Eq.trans ?_ (filesReply_nil hwritten
        (h.after (.writeFile path (some buf) written) .reset).malloc [])
      rw [← List.append_assoc, ← List.append_assoc, ← h.left_after]
      rfl
    rw [bind_of_ok hmalloc, bind_of_ok hexchange]
    rfl
  exact Res.bind_eq_ok.2 ⟨_, hwrite, rfl⟩

end Ready

end Api

end StorageServer
