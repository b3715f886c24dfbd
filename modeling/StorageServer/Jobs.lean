import StorageServer.Lib.Interleaving
import StorageServer.Runs
import StorageServer.Worker

/-!
# The jobs of the threads

A worker serves a client (`worker`), and the main thread closes one (`close_client`). Each `Job` has
three parts (`Job.program_eq`) : up to the locking of `files_mtx` it concerns nobody else
(`private_prelude`), from there to the unlocking it works on the store (`Critical`), and after that
it only sends, reads files that it has kept, and gives them back (`Gives`).
-/

open Programs

namespace StorageServer

/-! ## Jobs -/

/-- What a thread does with a client. -/
inductive Job
  /-- A worker serves it. -/
  | worker (fdClient : ℕ)
  /-- The main thread closes it. -/
  | closeClient (fdClient : ℕ)
  deriving DecidableEq, Repr

/-- The client of a job. -/
def Job.fdClient : Job → ℕ
  | worker fdClient => fdClient
  | closeClient fdClient => fdClient

/-- The job as a program : a worker ends with the code for the main thread. -/
def Job.program (cfg : ServerConfig) : Job → M (Option WorkerCode)
  | worker fdClient => return some (← StorageServer.worker cfg fdClient)
  | closeClient fdClient => do
    StorageServer.closeClient fdClient
    return none

/-- What a job is before it comes to the store. -/
inductive Asked
  /-- There is no operation : the code for the main thread. -/
  | nothing (code : WorkerCode)
  /-- The request could not be read : the result to be sent. -/
  | unread (res : Sa)
  | request (req : Request)
  | close

/-- The part before the store. -/
def Job.prelude : Job → M Asked
  | worker _ => do
    match ← readOperation with
    | .error code => return .nothing code
    | .ok (.error res) => return .unread res
    | .ok (.ok req) => return .request req
  | closeClient _ => do
    safeMalloc sizeofHashIter
    return .close

/-- The part under `files_mtx`. -/
def Asked.body (cfg : ServerConfig) (fdClient : ℕ) : Asked → M (Except Sa Reply)
  | nothing _ => return .ok .done
  | unread _ => return .ok .done
  | request req => storeSection cfg fdClient req
  | close => do
    mutexLock .files
    closeClientLoop fdClient (← filesIter)
    mutexUnlock .files
    return .ok .done

/-- The part after it. -/
def Asked.tail : Asked → Except Sa Reply → M (Option WorkerCode)
  | nothing code, _ => return some code
  | unread res, _ => return some (← sendResult res)
  | request _, r => return some (← sendResult (← finish r))
  | close, _ => return none

/-- A job is its three parts. -/
theorem Job.program_eq (cfg : ServerConfig) (job : Job) :
    job.program cfg = job.prelude >>= fun asked => asked.body cfg job.fdClient >>= asked.tail := by
  cases job with
  | closeClient fdClient =>
    change (safeMalloc _ >>= _) >>= _ = (safeMalloc _ >>= _) >>= _
    simp only [bind_assoc, pure_bind, Asked.body, Asked.tail, Job.fdClient]
  | worker fdClient =>
    rw [Job.program, worker_eq, Job.prelude]
    simp only [bind_assoc]
    refine bind_congr fun r => ?_
    rcases r with code | res | req
    · rfl
    · rfl
    · simp only [pure_bind, Asked.body, serveRequest, bind_assoc, Job.fdClient]
      rfl

/-! ## Before the store -/

/-- An operation that does not concern the store. -/
def Op.Private : Op → Prop
  | .readn _ | .writen _ | .clockGettime | .safeMalloc _ | .malloc _ | .exit | .uninit
  | .logger _ => True
  | _ => False

theorem exec_of_private {o : Op} (ho : o.Private) {l l' : Local} {s s' : Store} {a : Ans o}
    (h : exec o (l, s) = .ok (a, (l', s'))) : s' = s ∧ ∀ v, exec o (l, v) = .ok (a, (l', v)) := by
  cases o
  case readn size =>
    obtain ⟨r, hr, he⟩ := Res.bind_eq_ok.1 h
    cases he
    exact ⟨rfl, fun v => Res.bind_eq_ok.2 ⟨r, hr, rfl⟩⟩
  case clockGettime =>
    obtain ⟨inp, sends, clock, malloc, uninit, out, log⟩ := l
    cases clock with
    | nil => cases h
    | cons t rest =>
      cases h
      exact ⟨rfl, fun v => rfl⟩
  case safeMalloc size =>
    change (if l.malloc (.safe size) then _ else _) = _ at h
    split_ifs at h with hmalloc
    cases h
    exact ⟨rfl, fun v => if_pos hmalloc⟩
  case exit => cases h
  case writen | malloc | uninit | logger =>
    cases h
    exact ⟨rfl, fun v => rfl⟩
  all_goals exact ho.elim

/-- An operation that a request is read with. -/
def Op.Asking : Op → Prop
  | .readn _ | .safeMalloc _ | .malloc _ => True
  | _ => False

theorem Op.Asking.isPrivate {o : Op} (h : o.Asking) : o.Private := by
  cases o <;> first | exact trivial | exact h.elim

section Asking

theorem asking_bind (o : Op) (ho : o.Asking) {α : Type} {k : Ans o → M α}
    (hk : ∀ r, (k r).Only Op.Asking) : (perform o >>= k).Only Op.Asking :=
  ((Prog.only_perform o).2 ho).bind hk

theorem asking_readnInt : readnInt.Only Op.Asking :=
  asking_bind (.readn 4) trivial fun _ => trivial

/-- A `readn` that has failed ends what follows. -/
theorem asking_failed {α : Type} {l : ℤ} {p q k : M α} (hp : p.Only Op.Asking)
    (hq : q.Only Op.Asking) (hk : k.Only Op.Asking) :
    (if l = -1 then p else if l = 0 then q else k).Only Op.Asking :=
  .ite hp (.ite hq hk)

theorem asking_readPathname : readPathname.Only Op.Asking := by
  refine asking_readnInt.bind fun r => asking_failed trivial trivial ?_
  refine asking_bind (.safeMalloc _) trivial fun _ => ?_
  exact asking_bind (.readn _) trivial fun r => asking_failed trivial trivial trivial

/-- The memory of a list. -/
theorem asking_list {α : Type} {p : M α} {k : M α} (hp : p.Only Op.Asking)
    (hk : k.Only Op.Asking) :
    (malloc .list >>= fun b => if (!b) = true then p else k).Only Op.Asking :=
  asking_bind (.malloc .list) trivial fun _ => .ite hp hk

/-- A path that cannot be read ends what follows. -/
theorem asking_readPathname_bind {α : Type} {k : Except Sa CString → M (Except Sa α)}
    (hk : ∀ path, (k (.ok path)).Only Op.Asking)
    (herror : ∀ code, k (.error code) = pure (.error code)) :
    (readPathname >>= k).Only Op.Asking :=
  asking_readPathname.bind fun r => by
    cases r with
    | error code =>
      rw [herror]
      trivial
    | ok path => exact hk path

theorem asking_readRequest (h : Handler) : (readRequest h).Only Op.Asking := by
  cases h
  case openFile =>
    refine Prog.Only.bind (asking_readPathname_bind (fun path => ?_) fun _ => rfl) fun _ => trivial
    exact asking_readnInt.bind fun r => asking_failed trivial trivial trivial
  case writeFile =>
    refine Prog.Only.bind (asking_readPathname_bind (fun path => ?_) fun _ => rfl) fun _ => trivial
    refine asking_bind (.readn 8) trivial fun r => asking_failed trivial trivial ?_
    refine asking_bind (.safeMalloc _) trivial fun _ => ?_
    exact asking_bind (.readn _) trivial fun r => asking_failed trivial trivial trivial
  case appendToFile =>
    refine Prog.Only.bind (asking_readPathname_bind (fun path => ?_) fun _ => rfl) fun _ => trivial
    refine asking_bind (.readn 8) trivial fun r => asking_failed trivial trivial
      (.ite ?_ (asking_list trivial trivial))
    refine asking_bind (.safeMalloc _) trivial fun _ => ?_
    exact asking_bind (.readn _) trivial fun r => asking_failed trivial trivial
      (asking_list trivial trivial)
  case readNFiles =>
    refine Prog.Only.bind ?_ fun _ => trivial
    refine asking_readnInt.bind fun r => asking_failed trivial trivial (asking_list trivial ?_)
    exact asking_bind (.safeMalloc _) trivial fun _ => trivial
  all_goals exact asking_readPathname.bind fun _ => trivial

theorem asking_prelude (job : Job) : job.prelude.Only Op.Asking := by
  cases job with
  | closeClient fdClient => exact asking_bind (.safeMalloc _) trivial fun _ => trivial
  | worker fdClient =>
    refine Prog.Only.bind ?_ fun r => ?_
    · refine asking_readnInt.bind fun r => asking_failed trivial trivial ?_
      cases Handler.ofOpCode r.2 with
      | none => trivial
      | some h => exact (asking_readRequest h).bind fun _ => trivial
    · rcases r with code | res | req <;> trivial

theorem private_prelude (job : Job) : job.prelude.Only Op.Private :=
  (asking_prelude job).mono fun _ => Op.Asking.isPrivate

end Asking

/-! ## Under `files_mtx` -/

/-- An operation that locks or unlocks neither `files_mtx` nor a file for reading. Only the policy
LRU looks at `last_use`. -/
def Op.Plain (policy : Policy) : Op → Prop
  | .mutexLock .files | .mutexUnlock .files | .fileReaderLock _ | .fileReaderUnlock _ => False
  | .get _ .lastUse => policy = .LRU
  | _ => True

/-- Such an operation that does not read the clock. -/
def Op.Steady (policy : Policy) : Op → Prop
  | .clockGettime => False
  | o => o.Plain policy

/-- What is done under `files_mtx`, when the files `own` have been locked for reading. The mutex is
unlocked by the last operation, and then the files that are still locked are those of the result. -/
inductive Critical (policy : Policy) {α : Type} (kept : α → List FilePtr) :
    List FilePtr → M α → Prop
  | unlock {a : α} {k : Unit → M α} (hk : k () = .ret a) :
      Critical policy kept (kept a) (.op (.mutexUnlock .files) k)
  | readerLock {own : List FilePtr} {p : FilePtr} {k : Unit → M α}
      (h : Critical policy kept (own ++ [p]) (k ())) :
        Critical policy kept own (.op (.fileReaderLock p) k)
  | readerUnlock {own rest : List FilePtr} {p : FilePtr} {k : Unit → M α}
      (hp : own.Perm (p :: rest))
      (h : Critical policy kept rest (k ())) :
        Critical policy kept own (.op (.fileReaderUnlock p) k)
  | plain {own : List FilePtr} {o : Op} {k : Ans o → M α} (ho : o.Plain policy)
      (h : ∀ a, Critical policy kept own (k a)) : Critical policy kept own (.op o k)

/-- The files that the last part of a handler has been given locked for reading. -/
def Reply.readers : Except Sa Reply → List FilePtr
  | .ok (.reading toSend) => [toSend]
  | .ok (.readingN fileList) => fileList
  | _ => []

/-- A part that locks `files_mtx` first. -/
def Locking (policy : Policy) {α : Type} (kept : α → List FilePtr) (p : M α) : Prop :=
  ∃ k, p = .op (.mutexLock .files) k ∧ Critical policy kept [] (k ())

section Critical

variable {policy : Policy} {α β : Type} {kept : α → List FilePtr} {own : List FilePtr} {p : M β}
  {k : β → M α}

theorem Critical.bind (hp : p.Only (Op.Plain policy)) (hk : ∀ b, Critical policy kept own (k b)) :
    Critical policy kept own (p >>= k) := by
  induction p with
  | ret b => exact hk b
  | op o q ih => exact .plain hp.1 fun r => ih r (hp.2 r)

theorem Critical.perform (o : Op) (ho : o.Plain policy) {k : Ans o → M α}
    (hk : ∀ a, Critical policy kept own (k a)) : Critical policy kept own (perform o >>= k) :=
  .plain ho hk

theorem Critical.ite {c : Prop} [Decidable c] {p q : M α} (hp : Critical policy kept own p)
    (hq : Critical policy kept own q) : Critical policy kept own (if c then p else q) := by
  split
  · exact hp
  · exact hq

/-- The result is made into another one with the same files. -/
theorem Critical.map {kept' : β → List FilePtr} {g : β → α} (hg : ∀ b, kept (g b) = kept' b)
    (hp : Critical policy kept' own p) : Critical policy kept own (p >>= fun b => pure (g b)) := by
  induction hp with
  | @unlock b k hk =>
    rw [← hg b]
    exact .unlock (congrArg (fun q => q >>= fun b => pure (g b)) hk)
  | readerLock h ih => exact .readerLock ih
  | readerUnlock hp h ih => exact .readerUnlock hp ih
  | plain ho h ih => exact .plain ho ih

theorem Locking.map {kept' : β → List FilePtr} {g : β → α} (hg : ∀ b, kept (g b) = kept' b)
    (hp : Locking policy kept' p) : Locking policy kept (p >>= fun b => pure (g b)) := by
  obtain ⟨k, rfl, hk⟩ := hp
  exact ⟨_, rfl, hk.map hg⟩

/-- The end of a section. -/
theorem Critical.done (a : α) (ha : kept a = own) :
    Critical policy kept own (mutexUnlock .files >>= fun _ => pure a) :=
  ha ▸ .unlock rfl

/-- A refusal, which unlocks the file first. -/
theorem Critical.refuse (p : FilePtr) (a : α) (ha : kept a = own) :
    Critical policy kept own (fileWriterUnlock p >>= fun _ => mutexUnlock .files >>= fun _ =>
      pure a) :=
  .perform (.fileWriterUnlock p) trivial fun _ => .done a ha

/-- The first part of a section : it goes on with the mutex locked, or gives the code of an error
and has unlocked it. -/
structure Opening (policy : Policy) {β : Type} (own : List FilePtr) (p : M (Except Sa β)) :
    Prop where
  critical : ∀ {α : Type} {kept : α → List FilePtr} {k : Except Sa β → M α},
    (∀ code, ∃ a, k (.error code) = .ret a ∧ kept a = own) →
      (∀ b, Critical policy kept own (k (.ok b))) → Critical policy kept own (p >>= k)

theorem Opening.ok (b : β) : Opening policy own (pure (.ok b)) :=
  ⟨fun _ hk => hk b⟩

theorem Opening.done (code : Sa) :
    Opening policy own (mutexUnlock .files >>= fun _ => pure (.error code : Except Sa β)) := by
  refine ⟨fun herror _ => ?_⟩
  obtain ⟨a, ha, rfl⟩ := herror code
  exact .unlock ha

theorem Opening.perform (o : Op) (ho : o.Plain policy) {q : Ans o → M (Except Sa β)}
    (hq : ∀ a, Opening policy own (q a)) : Opening policy own (StorageServer.perform o >>= q) :=
  ⟨fun herror hk => .plain ho fun a => (hq a).critical herror hk⟩

theorem Opening.refuse (p : FilePtr) (code : Sa) :
    Opening policy own (fileWriterUnlock p >>= fun _ =>
    mutexUnlock .files >>= fun _ => pure (.error code : Except Sa β)) :=
  .perform (.fileWriterUnlock p) trivial fun _ => .done code

theorem Opening.bind {γ : Type} {p : M γ} {q : γ → M (Except Sa β)} (hp : p.Only (Op.Plain policy))
    (hq : ∀ c, Opening policy own (q c)) : Opening policy own (p >>= q) := by
  refine ⟨fun herror hk => ?_⟩
  rw [bind_assoc]
  exact Critical.bind hp fun c => (hq c).critical herror hk

theorem Opening.ite {c : Prop} [Decidable c] {p q : M (Except Sa β)} (hp : Opening policy own p)
    (hq : Opening policy own q) : Opening policy own (if c then p else q) := by
  split
  · exact hp
  · exact hq

/-- A section in two parts. -/
theorem Opening.locking {q : Unit → M (Except Sa β)} {k : Except Sa β → M α}
    (hq : Opening policy [] (q ()))
    (herror : ∀ code, ∃ a, k (.error code) = .ret a ∧ kept a = [])
    (hk : ∀ b, Critical policy kept [] (k (.ok b))) :
    Locking policy kept ((mutexLock .files >>= q) >>= k) :=
  ⟨_, rfl, hq.critical herror hk⟩

theorem steady_bind (o : Op) (ho : o.Steady policy) {α : Type} {k : Ans o → M α}
    (hk : ∀ r, (k r).Only (Op.Steady policy)) :
    (StorageServer.perform o >>= k).Only (Op.Steady policy) :=
  ((Prog.only_perform o).2 ho).bind hk

theorem steady_policyCmp (policy : Policy) (p q : FilePtr) :
    (policyCmp policy p q).Only (Op.Steady policy) := by
  cases policy with
  | LRU =>
    exact steady_bind (.get p .lastUse) rfl fun _ =>
      steady_bind (.get q .lastUse) rfl fun _ => trivial
  | FIFO =>
    exact steady_bind (.get p .creationTime) trivial fun _ =>
      steady_bind (.get q .creationTime) trivial fun _ => trivial

theorem steady_expellScan (policy : Policy) (ps : List FilePtr) (least : Option FilePtr) :
    (expellScan policy ps least).Only (Op.Steady policy) := by
  induction ps generalizing least with
  | nil => trivial
  | cons p ps ih =>
    refine steady_bind (.get p .canBeExpelled) trivial fun b => .ite (ih _) ?_
    refine steady_bind (.fileWriterLock p) trivial fun _ => ?_
    cases least with
    | none => exact ih _
    | some m =>
      refine (steady_policyCmp policy p m).bind fun r => .ite ?_ ?_
      · exact steady_bind (.fileWriterUnlock m) trivial fun _ => ih _
      · exact steady_bind (.fileWriterUnlock p) trivial fun _ => ih _

theorem steady_expellSingleFile (cfg : ServerConfig) :
    (expellSingleFile cfg).Only (Op.Steady cfg.policy) := by
  refine steady_bind .hashmapNelem trivial fun n => .ite trivial ?_
  refine steady_bind (.safeMalloc _) trivial fun _ => steady_bind .hashmapIter trivial fun ps => ?_
  refine (steady_expellScan cfg.policy ps none).bind fun least => ?_
  cases least with
  | none => exact steady_bind .undefined trivial fun _ => trivial
  | some m =>
    refine steady_bind (.get m .pathName) trivial fun path => ?_
    refine steady_bind (.hashmapRemove path) trivial fun removed => ?_
    cases removed with
    | none => exact steady_bind .undefined trivial fun _ => trivial
    | some expelled =>
      refine steady_bind .getState trivial fun _ => steady_bind (.setState _) trivial fun _ => ?_
      refine steady_bind (.get expelled .size) trivial fun _ =>
        steady_bind .getState trivial fun _ => ?_
      refine steady_bind (.setState _) trivial fun _ => steady_bind .getState trivial fun _ => ?_
      exact steady_bind (.setState _) trivial fun _ => trivial

theorem steady_expellLoop (cfg : ServerConfig) (need fuel freed : ℕ) (acc : List FilePtr) :
    (expellLoop cfg need fuel freed acc).Only (Op.Steady cfg.policy) := by
  induction fuel generalizing freed acc with
  | zero => exact steady_bind .undefined trivial fun _ => trivial
  | succ fuel ih =>
    refine .ite ((steady_expellSingleFile cfg).bind fun expelled => ?_) trivial
    cases expelled with
    | none => trivial
    | some p =>
      have hrest : ∀ u : Unit, (getSize p >>= fun size => expellLoop cfg need fuel
          (toSize (freed + size)) (acc ++ [p])).Only (Op.Steady cfg.policy) := fun _ =>
        steady_bind (.get p .size) trivial fun _ => ih _ _
      refine steady_bind (.malloc _) trivial fun b => .ite ?_ (hrest ())
      exact steady_bind .exit trivial hrest

theorem steady_makeRoom (cfg : ServerConfig) (p : FilePtr) (size : ℕ) :
    (makeRoom cfg p size).Only (Op.Steady cfg.policy) := by
  have hexpell : ∀ need, (expellMultipleFiles cfg need).Only (Op.Steady cfg.policy) :=
      fun need => by
    refine steady_bind .getState trivial fun st => .ite trivial ?_
    exact steady_bind .hashmapNelem trivial fun n => steady_expellLoop ..
  have hend : ∀ toExpell, (makeRoomEnd toExpell).Only (Op.Steady cfg.policy) := fun _ =>
    steady_bind .getState trivial fun _ => steady_bind (.setState _) trivial fun _ => trivial
  refine Prog.Only.bind ?_ fun sizeToRemove => .ite ?_ (hend _)
  · refine steady_bind .getState trivial fun _ => steady_bind (.setState _) trivial fun _ => ?_
    refine steady_bind .getState trivial fun _ => .ite ?_ trivial
    exact steady_bind (.set p .canBeExpelled false) trivial fun _ => trivial
  · refine (hexpell _).bind fun toExpell => ?_
    exact steady_bind (.set p .canBeExpelled true) trivial fun _ => hend _

theorem steady_removeOpener (p : FilePtr) (fdClient : ℕ) :
    (removeOpener p fdClient).Only (Op.Steady policy) := by
  refine steady_bind (.get p .fdOpen) trivial fun (table : HashTblPtr) => ?_
  cases table.remove fdClient with
  | none => exact (Prog.only_perform Op.undefined).2 trivial
  | some r => exact (Prog.only_perform (Op.set p .fdOpen r.2)).2 trivial

theorem steady_openersMemory : openersMemory.Only (Op.Steady policy) :=
  steady_bind (.malloc _) trivial fun _ => steady_bind (.malloc _) trivial fun _ => trivial

theorem steady_addOpener (p : FilePtr) (fdClient : ℕ) :
    (addOpener p fdClient).Only (Op.Steady policy) := by
  refine steady_openersMemory.bind fun granted =>
    steady_bind (.get p .fdOpen) trivial fun table => ?_
  exact (Prog.only_perform (Op.set p .fdOpen _)).2 trivial

theorem steady_initOpeners (fdClient : ℕ) : (initOpeners fdClient).Only (Op.Steady policy) := by
  have hinsert : ∀ u : Unit, (openersMemory >>= fun granted => pure (HashTblPtr.insert granted
      (some ⟨4, 0, List.replicate 4 [], defaultHashtblHash⟩) fdClient).2).Only (Op.Steady policy) :=
    fun _ => steady_openersMemory.bind fun _ => trivial
  refine steady_bind (.malloc _) trivial fun b => .ite trivial ?_
  refine steady_bind (.malloc _) trivial fun b => .ite ?_ (hinsert ())
  exact steady_bind .exit trivial hinsert

theorem plain_of_steady {p : M α} (h : p.Only (Op.Steady policy)) : p.Only (Op.Plain policy) :=
  h.mono fun o ho => by
    cases o
    case clockGettime => trivial
    all_goals exact ho

theorem plain_bind (o : Op) (ho : o.Plain policy) {k : Ans o → M α}
    (hk : ∀ r, (k r).Only (Op.Plain policy)) :
    (StorageServer.perform o >>= k).Only (Op.Plain policy) :=
  ((Prog.only_perform o).2 ho).bind hk

theorem plain_createFile (flags : ℤ) (fdClient : ℕ) (path : CString) :
    (createFile path flags fdClient).Only (Op.Plain policy) := by
  refine plain_bind (.safeMalloc _) trivial fun _ =>
    (plain_of_steady (steady_initOpeners fdClient)).bind fun fdOpen => ?_
  refine plain_bind (.fileNew _) trivial fun file => ?_
  refine plain_bind (.fileWriterLock file) trivial fun _ =>
    plain_bind .clockGettime trivial fun _ => ?_
  refine plain_bind (.set file .creationTime _) trivial fun _ =>
    plain_bind .clockGettime trivial fun _ => ?_
  exact plain_bind (.set file .lastUse _) trivial fun _ => trivial

/-! ### The sections -/

section Sections

variable {cfg : ServerConfig} {fdClient : ℕ} {path : CString}

theorem locking_openFileCreate (flags : ℤ) :
    Locking cfg.policy (fun _ => []) (openFileCreate cfg fdClient path flags) := by
  refine Opening.locking ?_ (fun code => ⟨.error code, rfl, rfl⟩) fun file => ?_
  · refine .perform (.hashmapContains path) trivial fun b => .ite (.done _) ?_
    refine .bind (plain_createFile ..) fun file =>
      .perform (.mutexLock .currState) trivial fun _ => ?_
    exact .ok file
  -- what follows the expulsion
  have hend : ∀ expelled : Option FilePtr, Critical cfg.policy (fun _ => []) []
      (openFileCreateEnd path file expelled) := fun expelled => by
    refine .perform (.mutexUnlock .currState) trivial fun _ => ?_
    refine .perform (.set file .canBeExpelled true) trivial fun _ => ?_
    refine .perform (.hashmapInsert path file) trivial fun _ => ?_
    refine .perform (.mutexLock .currState) trivial fun _ => .perform .getState trivial fun _ => ?_
    refine .perform (.setState _) trivial fun _ => .perform .getState trivial fun _ => ?_
    refine .perform (.setState _) trivial fun _ => .perform .getState trivial fun _ => ?_
    refine .perform (.logger _) trivial fun _ => .perform (.logger _) trivial fun _ => ?_
    exact .perform (.mutexUnlock .currState) trivial fun _ => .refuse file _ rfl
  refine .perform .getState trivial fun st => .ite ?_ (hend none)
  exact .bind (plain_of_steady (steady_expellSingleFile cfg)) hend

theorem locking_openFileExisting (flags : ℤ) :
    Locking policy (fun _ => []) (openFileExisting fdClient path flags) := by
  refine ⟨_, rfl, .perform (.hashmapGetByKey path) trivial fun found => ?_⟩
  cases found with
  | none => exact .done _ rfl
  | some p =>
    have hend : ∀ u : Unit, Critical policy (fun _ : Sa => []) [] (clockGettime >>= fun t =>
        set p .lastUse t >>= fun _ => fileWriterUnlock p >>= fun _ =>
          mutexUnlock .files >>= fun _ =>
          pure .success) := fun _ =>
      .perform .clockGettime trivial fun t => .perform (.set p .lastUse t) trivial fun _ =>
        .refuse p _ rfl
    have hopen : Critical policy (fun _ : Sa => []) [] (getFdOpen p >>= fun table =>
        if !table.contains fdClient then
          addOpener p fdClient >>= fun _ => clockGettime >>= fun t => set p .lastUse t >>= fun _ =>
            fileWriterUnlock p >>= fun _ => mutexUnlock .files >>= fun _ => pure .success
        else clockGettime >>= fun t => set p .lastUse t >>= fun _ =>
          fileWriterUnlock p >>= fun _ => mutexUnlock .files >>= fun _ => pure .success) :=
      .perform (.get p .fdOpen) trivial fun _ =>
        .ite (.bind (plain_of_steady (steady_addOpener p fdClient)) hend) (hend ())
    refine .perform (.fileWriterLock p) trivial fun _ => .ite ?_ hopen
    refine .perform (.get p .fdLock) trivial fun fdLock => .ite (.refuse p _ rfl) ?_
    exact .perform (.set p .fdLock _) trivial fun _ => hopen

theorem locking_closeFileStore : Locking policy (fun _ => []) (closeFileStore fdClient path) := by
  refine ⟨_, rfl, .perform (.hashmapGetByKey path) trivial fun found => ?_⟩
  cases found with
  | none => exact .done _ rfl
  | some p =>
    refine .perform (.fileWriterLock p) trivial fun _ =>
      .bind (plain_of_steady (steady_removeOpener p fdClient)) fun _ => ?_
    refine .perform (.get p .fdLock) trivial fun fdLock => .ite ?_ (.refuse p _ rfl)
    exact .perform (.set p .fdLock (-1)) trivial fun _ => .refuse p _ rfl

theorem locking_writeFileStore (size : ℤ) (buf : List UInt8) :
    Locking cfg.policy (fun _ => []) (writeFileStore cfg fdClient path size buf) := by
  refine Opening.locking ?_ (fun code => ⟨.error code, rfl, rfl⟩) fun r => ?_
  · refine .perform (.hashmapGetByKey path) trivial fun found => ?_
    cases found with
    | none => exact .done _
    | some p =>
      refine .perform (.fileWriterLock p) trivial fun _ => ?_
      refine .perform (.get p .fdOpen) trivial fun _ => .ite (.refuse p _) ?_
      refine .perform (.get p .fdLock) trivial fun _ => .ite (.refuse p _) ?_
      refine .perform (.get p .size) trivial fun _ => .ite (.refuse p _) (.ite (.refuse p _) ?_)
      refine .perform (.malloc .list) trivial fun _ => .ite (.refuse p _) ?_
      refine .perform (.set p .size _) trivial fun _ =>
        .perform (.set p .contents _) trivial fun _ => ?_
      refine .perform .clockGettime trivial fun t =>
        .perform (.set p .lastUse t) trivial fun _ => ?_
      exact .perform (.mutexLock .currState) trivial fun _ =>
        .perform (.get p .size) trivial fun n => .ok _
  · refine .bind (plain_of_steady (steady_makeRoom cfg r.1 r.2)) fun toExpell => ?_
    refine .perform .getState trivial fun _ => .perform (.logger _) trivial fun _ => ?_
    refine .perform (.logger _) trivial fun _ =>
      .perform (.mutexUnlock .currState) trivial fun _ => ?_
    exact .refuse r.1 _ rfl

theorem locking_appendToFileStore (size : ℕ) (buf : List UInt8) :
    Locking cfg.policy (fun _ => []) (appendToFileStore cfg fdClient path size buf) := by
  refine Opening.locking ?_ (fun code => ⟨.error code, rfl, rfl⟩) fun r => ?_
  · refine .perform (.hashmapGetByKey path) trivial fun found => ?_
    cases found with
    | none => exact .done _
    | some p =>
      refine .perform (.fileWriterLock p) trivial fun _ => ?_
      refine .perform (.get p .fdOpen) trivial fun _ => .ite (.refuse p _) ?_
      refine .perform (.get p .size) trivial fun _ => .ite (.refuse p _) ?_
      refine .perform (.get p .size) trivial fun _ => .perform (.safeMalloc _) trivial fun _ => ?_
      refine .perform (.get p .contents) trivial fun _ =>
        .perform (.set p .contents _) trivial fun _ => ?_
      refine .perform (.get p .size) trivial fun _ => .perform (.set p .size _) trivial fun _ => ?_
      refine .perform .clockGettime trivial fun t =>
        .perform (.set p .lastUse t) trivial fun _ => ?_
      exact .perform (.mutexLock .currState) trivial fun _ => .ok _
  · refine .bind (plain_of_steady (steady_makeRoom cfg r.1 r.2)) fun toExpell =>
      .perform .getState trivial fun _ => ?_
    refine .perform (.mutexUnlock .currState) trivial fun _ =>
      .perform (.logger _) trivial fun _ => ?_
    exact .perform (.logger _) trivial fun _ => .refuse r.1 _ rfl

theorem locking_removeFileStore : Locking policy (fun _ => []) (removeFileStore fdClient path) := by
  refine ⟨_, rfl, .perform (.hashmapGetByKey path) trivial fun found => ?_⟩
  cases found with
  | none => exact .done _ rfl
  | some p =>
    refine .perform (.fileWriterLock p) trivial fun _ => ?_
    refine .perform (.get p .fdOpen) trivial fun _ => .ite (.refuse p _ rfl) ?_
    refine .perform (.get p .fdLock) trivial fun _ => .ite (.refuse p _ rfl) ?_
    refine .perform (.mutexLock .currState) trivial fun _ => .perform .getState trivial fun _ => ?_
    refine .perform (.setState _) trivial fun _ => .perform .getState trivial fun _ => ?_
    refine .perform (.get p .size) trivial fun _ => .perform (.setState _) trivial fun _ => ?_
    refine .perform .getState trivial fun _ => .perform (.logger _) trivial fun _ => ?_
    refine .perform (.logger _) trivial fun _ =>
      .perform (.mutexUnlock .currState) trivial fun _ => ?_
    refine .perform (.hashmapRemove path) trivial fun removed => ?_
    exact .perform (.fileDelete _) trivial fun _ => .done _ rfl

/-- The file that `read_file` leaves locked. -/
theorem locking_readFileStore :
    Locking policy (fun r => r.toOption.toList) (readFileStore fdClient path) := by
  refine ⟨_, rfl, .perform (.hashmapGetByKey path) trivial fun found => ?_⟩
  cases found with
  | none => exact .done _ rfl
  | some p =>
    refine .readerLock (.perform (.get p .fdOpen) trivial fun _ => .ite ?_ ?_)
    · exact .readerUnlock (.refl _) (.done _ rfl)
    · refine .perform .clockGettime trivial fun t =>
        .perform (.set p .lastUse t) trivial fun _ => ?_
      exact .done _ rfl

/-- The loop of `read_n_files` locks the files of its list. -/
theorem critical_readNLoop {α : Type} {kept : α → List FilePtr} {k : List FilePtr × ℤ → M α}
    (hk : ∀ fileList err, Critical policy kept fileList (k (fileList, err))) (ps : List FilePtr)
    (N err : ℤ)
    (fileList : List FilePtr) :
    Critical policy kept fileList (readNLoop ps N err fileList >>= k) := by
  induction ps generalizing N err fileList with
  | nil => exact hk _ _
  | cons p ps ih =>
    rw [readNLoop, Prog.ite_bind]
    refine .ite (.readerLock (.perform (.malloc _) trivial fun granted => ?_)) (hk _ _)
    cases granted with
    | false => exact .readerUnlock (List.perm_append_singleton ..) (hk _ _)
    | true => exact ih _ _ _

theorem critical_readerUnlockAll {α : Type} {kept : α → List FilePtr} {own : List FilePtr}
    {k : Unit → M α} (hk : ∀ u, Critical policy kept own (k u)) (ps : List FilePtr) :
    Critical policy kept (ps ++ own) (readerUnlockAll ps >>= k) := by
  induction ps with
  | nil => exact hk ()
  | cons p ps ih => exact .readerUnlock (.refl _) ih

/-- The files that `read_n_files` leaves locked. -/
theorem locking_readNFilesStore (N : ℤ) :
    Locking policy (fun r => r.toOption.getD []) (readNFilesStore N) := by
  refine ⟨_, rfl, .perform (.mutexLock .currState) trivial fun _ =>
    .perform .getState trivial fun st => ?_⟩
  refine .perform (.mutexUnlock .currState) trivial fun _ => .perform .uninit trivial fun err => ?_
  refine .perform .hashmapIter trivial fun ps =>
    critical_readNLoop (fun fileList err => ?_) ps _ _ _
  refine .ite ?_ (.done _ rfl)
  have hdone : Critical policy (fun r : Except Sa (List FilePtr) => r.toOption.getD []) []
      (mutexUnlock .files >>= fun _ => pure (.error .error)) := .done _ rfl
  have h := critical_readerUnlockAll (fun _ => hdone) fileList
  rwa [List.append_nil] at h

theorem steady_closeClientLoop (ps : List FilePtr) :
    (closeClientLoop fdClient ps).Only (Op.Steady policy) := by
  induction ps with
  | nil => trivial
  | cons p ps ih =>
    have hrest : (removeOpener p fdClient >>= fun _ => fileWriterUnlock p >>= fun _ =>
        closeClientLoop fdClient ps).Only (Op.Steady policy) :=
      (steady_removeOpener p fdClient).bind fun _ =>
        steady_bind (.fileWriterUnlock p) trivial fun _ => ih
    refine steady_bind (.fileWriterLock p) trivial fun _ => ?_
    refine steady_bind (.get p .fdLock) trivial fun fdLock => .ite ?_ hrest
    exact steady_bind (.set p .fdLock (-1)) trivial fun _ => hrest

end Sections

/-- The job comes to `files_mtx` : an append of nothing does not. -/
def Asked.locks : Asked → Bool
  | nothing _ => false
  | unread _ => false
  | request (.appendToFile _ size _) => 0 < size
  | request _ => true
  | close => true

/-- What a job does between the locking and the unlocking of `files_mtx`. -/
theorem Asked.locking_body (cfg : ServerConfig) (fdClient : ℕ) {asked : Asked}
    (h : asked.locks = true) : Locking cfg.policy Reply.readers (asked.body cfg fdClient) := by
  have hcode : ∀ code : Sa, Reply.readers code.toReply = [] := fun code => by cases code <;> rfl
  cases asked with
  | nothing code => cases h
  | unread res => cases h
  | close =>
    refine ⟨_, rfl, .perform .hashmapIter trivial fun ps => ?_⟩
    exact .bind (plain_of_steady (steady_closeClientLoop ps)) fun _ => .done _ rfl
  | request req =>
    cases req with
    | openFile path flags =>
      rw [Asked.body, storeSection]
      split
      · exact (locking_openFileCreate flags).map fun r => by cases r <;> rfl
      · exact (locking_openFileExisting flags).map hcode
    | closeFile path => exact locking_closeFileStore.map hcode
    | writeFile path size buf =>
      exact (locking_writeFileStore size buf).map fun r => by cases r <;> rfl
    | appendToFile path size buf =>
      rw [Asked.body, storeSection, if_pos (of_decide_eq_true h)]
      exact (locking_appendToFileStore size buf).map fun r => by cases r <;> rfl
    | readFile path => exact locking_readFileStore.map fun r => by cases r <;> rfl
    | readNFiles N => exact (locking_readNFilesStore N).map fun r => by cases r <;> rfl
    | removeFile path => exact locking_removeFileStore.map hcode

/-- What is given to the last part of a job that does not come to the store. -/
def Asked.noReply : Asked → Except Sa Reply
  | request _ => .ok (.expelled [])
  | _ => .ok .done

theorem Asked.body_eq (cfg : ServerConfig) (fdClient : ℕ) {asked : Asked}
    (h : asked.locks = false) :
    asked.body cfg fdClient = .ret asked.noReply := by
  cases asked with
  | nothing code => rfl
  | unread res => rfl
  | close => cases h
  | request req =>
    cases req with
    | appendToFile path size buf =>
      rw [Asked.body, storeSection, if_neg (of_decide_eq_false h)]
      rfl
    | _ => cases h

end Critical

end StorageServer
