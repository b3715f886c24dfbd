import StorageServer.Handling
import StorageServer.Serialization

/-!
# What the threads do to the store

What holds of the serial server holds of the threads. Whatever the threads do between each other, an
operation is only performed on a file that is there, and as the locks allow it (`safe_of_run`), and
whenever `files_mtx` is free the store is one that the server leaves which takes one request at a
time, but for what threads have still to give back (`server_of_pool`).
-/

open Programs Transitions Threads Function

namespace StorageServer

/-! ## The discipline of the locks -/

section Discipline

variable {s : Store} {l : Local} {o : Op} {p : FilePtr} {unlocks deletes reads : FilePtr → ℕ}

end Discipline

section Runs

variable {T : Type} [Fintype T] [DecidableEq T] {cfg : ServerConfig} {tr : List (ServerEvent T)}
  {σ : ServerPool T} {t : T} {job : Job} {l₀ l l' : Local} {s s' : Store} {o : Op} {p : FilePtr}
  {k : Ans o → M (Option WorkerCode)}

/-! ## Files that are gone -/

/-- An operation that neither makes a file nor deletes this one. -/
theorem gone_iff_of_exec {a : Ans o} (hnew : ∀ file, o ≠ .fileNew file) (hdelete : o ≠ .fileDelete p)
    (hexec : exec o (l, s) = .ok (a, (l', s'))) :
    (s'.heap p = none ↔ s.heap p = none) ∧ s'.fresh = s.fresh := by
  have hput : ∀ {q : FilePtr} {f g : File}, s.heap q = some f → s' = s.put q g →
      (s'.heap p = none ↔ s.heap p = none) ∧ s'.fresh = s.fresh := by
    rintro q f g hf rfl
    refine ⟨?_, rfl⟩
    by_cases he : p = q
    · rw [he, Store.heap_put_self, hf]
      exact iff_of_false nofun nofun
    · rw [Store.heap_put_of_ne _ _ _ he]
  cases o
  case readn | writen | clockGettime | safeMalloc | malloc | exit | uninit | logger =>
    obtain ⟨rfl, -⟩ := exec_of_private (by exact trivial) hexec
    exact ⟨.rfl, rfl⟩
  case mutexLock m =>
    change (if s.locked m = true then _ else _) = _ at hexec
    split_ifs at hexec
    cases hexec
    rw [Store.heap_setLocked]
    exact ⟨.rfl, Store.fresh_setLocked ..⟩
  case mutexUnlock m =>
    cases hexec
    rw [Store.heap_setLocked]
    exact ⟨.rfl, Store.fresh_setLocked ..⟩
  case undefined => cases hexec
  case fileNew file => exact absurd rfl (hnew file)
  case fileDelete q =>
    obtain ⟨f, -, he⟩ := withFile_eq_ok hexec
    cases he
    have hne : p ≠ q := fun he => hdelete (congrArg _ he.symm)
    rw [Store.heap_delete, if_neg hne]
    exact ⟨.rfl, rfl⟩
  case get =>
    obtain ⟨f, -, he⟩ := withFile_eq_ok hexec
    cases he
    exact ⟨.rfl, rfl⟩
  case set | fileReaderUnlock | fileWriterUnlock =>
    obtain ⟨f, hf, he⟩ := withFile_eq_ok hexec
    cases he
    exact hput hf rfl
  case fileReaderLock | fileWriterLock =>
    obtain ⟨f, hf, he⟩ := withFile_eq_ok hexec
    split_ifs at he
    cases he
    exact hput hf rfl
  all_goals
    cases hexec
    exact ⟨.rfl, rfl⟩

/-- An operation that is not the deletion of a file leaves it there. -/
theorem heap_of_exec {a : Ans o} (hdelete : o ≠ .fileDelete p)
    (hexec : exec o (l, s) = .ok (a, (l', s'))) (hgone : s'.heap p = none) :
    s.heap p = none ∧ (p < s'.fresh → p < s.fresh) := by
  by_cases hnew : ∃ file, o = .fileNew file
  · obtain ⟨file, rfl⟩ := hnew
    cases hexec
    by_cases he : p = s.fresh
    · rw [he, Store.heap_alloc_self _ _ rfl] at hgone
      cases hgone
    · rw [Store.heap_alloc_of_ne _ _ he] at hgone
      exact ⟨hgone, fun hp => lt_of_le_of_ne (Nat.le_of_lt_succ hp) he⟩
  · obtain ⟨hiff, hfresh⟩ := gone_iff_of_exec (fun file he => hnew ⟨file, he⟩) hdelete hexec
    exact ⟨hiff.1 hgone, fun hp => hfresh ▸ hp⟩

/-- A file that is gone does not come back. -/
theorem gone_of_exec {a : Ans o} (hexec : exec o (l, s) = .ok (a, (l', s')))
    (hgone : s.heap p = none) (hp : p < s.fresh) : s'.heap p = none ∧ p < s'.fresh := by
  have hdelete : o ≠ .fileDelete p := by
    rintro rfl
    obtain ⟨f, hf, -⟩ := withFile_eq_ok hexec
    cases hf.symm.trans hgone
  by_cases hnew : ∃ file, o = .fileNew file
  · obtain ⟨file, rfl⟩ := hnew
    cases hexec
    exact ⟨(Store.heap_alloc_of_ne _ _ hp.ne).trans hgone, Nat.lt_succ_of_lt hp⟩
  · obtain ⟨hiff, hfresh⟩ := gone_iff_of_exec (fun file he => hnew ⟨file, he⟩) hdelete hexec
    exact ⟨hiff.2 hgone, hfresh.symm ▸ hp⟩

theorem exists_of_exec {a : Ans o} (hdelete : o ≠ .fileDelete p)
    (hexec : exec o (l, s) = .ok (a, (l', s'))) (hthere : ∃ f, s.heap p = some f) :
    ∃ f, s'.heap p = some f := by
  obtain ⟨f, hf⟩ := hthere
  refine Option.ne_none_iff_exists'.1 fun hgone => ?_
  cases hf.symm.trans (heap_of_exec hdelete hexec hgone).1

/-- The client 9 creates a file, and before its path is printed the client 8 creates two others, for
which it is expelled. -/
def printing : List (PoolAction Bool Job Local) :=
  serve false 9 (.openFile [97] oCreate) (.at 0) 34 ++
    served true 8 (.openFile [98] oCreate) (.at 1) 37 ++
    serve true 8 (.openFile [99] oCreate) (.at 2) 55

/-- There is such an `open_file`. -/
theorem exists_freed : ∃ tr σ job l₀ k l, Run (serverPool .small Bool) tr σ ∧
    σ.threads false = some ⟨job, l₀, .op (.get 0 .pathName) k, l⟩ ∧
    safeExec (.get 0 .pathName) (l, σ.shared) = .fault := by
  obtain ⟨tr, σ, hrun, hprint, hgone⟩ :=
    (computes_serverPool .small Bool).exists_run ⟨.initial, fun _ => none⟩ rfl
      (printing ++ [.perform true])
      (fun _ σ => (σ.upcoming false).any (Op.prints 0) = true ∧ (σ.shared.heap 0).isNone = true)
      (by decide +kernel)
  obtain ⟨job, l₀, o, k, l, ho, ht⟩ := Pool.of_upcoming hprint
  obtain rfl := Op.prints_iff.1 ho
  refine ⟨tr, σ, job, l₀, k, l, hrun, ht, ?_⟩
  change withFile (l, σ.shared) 0 _ = _
  rw [withFile, Option.isNone_iff_eq_none.1 hgone]

end Runs

/-! ## The server that takes one request at a time -/

section Server

variable {cfg : ServerConfig} {turns : List JobTurn} {turn : JobTurn} {job : Job} {l l' l₁ : Local}
  {s s' : Store} {tr : List Event} {req : Request}

/-- A worker that has read a request has read it as its handler does. -/
theorem readRequest_of_prelude
    (h : Prog.run exec job.prelude (l, s) = .ok (.request req, (l₁, s'))) :
    ∃ h inp, Prog.run exec (readRequest h) ({ l with inp := inp }, s) =
      .ok (.ok req, (l₁, s')) := by
  cases job with
  | closeClient fdClient =>
    obtain ⟨r, -, he⟩ := Res.bind_eq_ok.1 h
    cases he
  | worker fdClient =>
    rw [Job.prelude, Prog.run_bind] at h
    obtain ⟨⟨r, w⟩, hread, hrest⟩ := Res.bind_eq_ok.1 h
    rw [readOperation, Prog.run_bind] at hread
    obtain ⟨⟨⟨n, opCode⟩, l₂, s₂⟩, hop, hhandler⟩ := Res.bind_eq_ok.1 hread
    obtain ⟨inp, he⟩ : ∃ inp, (l₂, s₂) = ({ l with inp := inp }, s) :=
      post_of_safe (Q := fun _ w => ∃ inp, w = ({ l with inp := inp }, s))
        (safe_readnInt fun _ _ inp => ⟨inp, rfl⟩) hop
    cases he
    dsimp only at hhandler
    split_ifs at hhandler
    · cases hhandler
      cases hrest
    · cases hhandler
      cases hrest
    cases hh : Handler.ofOpCode opCode with
    | none =>
      rw [hh] at hhandler
      cases hhandler
      cases hrest
    | some h =>
      rw [hh] at hhandler
      obtain ⟨⟨r, w'⟩, hreq, he⟩ := Res.bind_eq_ok.1 ((Prog.run_bind ..).symm.trans hhandler)
      cases he
      cases r with
      | error code => cases hrest
      | ok req =>
        cases hrest
        exact ⟨h, inp, hreq⟩

/-- Sending the result leaves the store alone. -/
theorem private_sendResult (res : Sa) : (sendResult res).Only Op.Private :=
  ⟨trivial, fun _ => .ite trivial trivial⟩

/-- What a turn is for the server that takes one request at a time. -/
inductive Store.Turned (cfg : ServerConfig) (s : Store) (l : Local) : Store → Prop
  | nothing : Turned cfg s l s
  | served {h : Handler} {fdClient : ℕ} {inp : Stream} {req : Request} {code : Sa} {s' : Store}
      (hh : s.Handles cfg h fdClient { l with inp := inp } (some req) code s') : Turned cfg s l s'
  | disconnect {fdClient : ℕ} {s' : Store}
      (hstep : Server.Step cfg ⟨s, none⟩ (.disconnect fdClient) ⟨s', none⟩) : Turned cfg s l s'

/-- A turn of the serial server is a request and its reply, the disconnection of a client, or
nothing. -/
theorem turned_of_turn {xs : List (FilePtr × File)} (hs : s.Idle cfg xs)
    (h : (serialServer cfg).step s turn s') : s.Turned cfg turn.start s' := by
  obtain ⟨job, l₀, result, last⟩ := turn
  obtain ⟨hadmitted, hturn⟩ := h
  rw [Job.program_eq, Prog.run_bind] at hturn
  obtain ⟨⟨asked, l₁, s₁⟩, hprelude, hrest⟩ := Res.bind_eq_ok.1 hturn
  obtain ⟨rfl, -⟩ := run_of_private (private_prelude job) hprelude
  cases hlocks : asked.locks with
  | false =>
    rw [Asked.body_eq cfg _ hlocks, Prog.ret_bind] at hrest
    obtain ⟨leak, unlocks, a, l', hperm, -, hgiving⟩ := gives_noReply (l := l₁) hlocks
    obtain ⟨rfl, rfl⟩ := List.append_eq_nil_iff.1 (List.perm_nil.1 hperm)
    have hbacks : s₁.Backs ([] ++ []) [] := ⟨nofun, List.nodup_nil, nofun⟩
    have hsame := hrest.symm.trans (hgiving.run hbacks (s₁.prints_nil []))
    rw [countAt_nil, Store.settled_zero] at hsame
    obtain rfl : s' = s₁ := congrArg (fun r => r.2.2) (Res.ok.inj hsame)
    exact .nothing
  | true =>
    rw [Prog.run_bind] at hrest
    obtain ⟨⟨r, l₂, s₂⟩, hbody, htail⟩ := Res.bind_eq_ok.1 hrest
    cases asked with
    | nothing code => cases hlocks
    | unread res => cases hlocks
    | close =>
      cases htail
      have hmalloc : l₁.malloc (.safe sizeofHashIter) = true := (of_prelude hprelude).malloc rfl
      have hclose : Prog.run exec (closeClient job.fdClient) (l₁, s₁) = .ok ((), (last, s')) := by
        have hbody' : Asked.body cfg job.fdClient .close =
            (do
              mutexLock .files
              closeClientLoop job.fdClient (← filesIter)
              mutexUnlock .files) >>= fun _ => pure (.ok .done) := by
          simp only [bind_assoc]
          rfl
        rw [hbody', Prog.run_bind] at hbody
        obtain ⟨⟨u, w⟩, hloop, he⟩ := Res.bind_eq_ok.1 hbody
        cases he
        have hgranted : Prog.run exec (safeMalloc sizeofHashIter) (l₁, s₁) = .ok ((), (l₁, s₁)) :=
          (Prog.run_perform ..).trans (if_pos hmalloc)
        rw [closeClient, Prog.run_bind, hgranted]
        exact hloop
      exact .disconnect (.disconnect hclose)
    | request req =>
      obtain ⟨h, inp, hread⟩ := readRequest_of_prelude hprelude
      have hwf := (of_prelude hprelude).wf req rfl
      have hfit := hadmitted req _ hprelude hlocks
      obtain ⟨xs', readings, out, hserved⟩ := of_storeSection hs hwf hfit hbody
      rw [Asked.tail, Prog.run_bind] at htail
      obtain ⟨⟨code, l₄, s₄⟩, hfinish, hsend⟩ := Res.bind_eq_ok.1 htail
      rw [Prog.run_bind] at hsend
      obtain ⟨⟨code', l₅, s₅⟩, hsend, he⟩ := Res.bind_eq_ok.1 hsend
      obtain ⟨rfl, -⟩ := run_of_private (private_sendResult code) hsend
      obtain rfl : s₅ = s' := congrArg (fun r => r.2.2) (Res.ok.inj he)
      exact .served (.served (.request hread hbody hserved.clock hfit) (.reply hfinish))

/-- The store of the serial server is one that the server leaves which takes one request at a
time. -/
theorem server_of_serial (h : Run (serialServer cfg) turns s) :
    ∃ tr, Run (serverSystem cfg) tr ⟨s, none⟩ := by
  refine h.induction (I := fun _ s => ∃ tr, Run (serverSystem cfg) tr ⟨s, none⟩) ?_ ?_
  · rintro s rfl
    exact ⟨[], .start rfl⟩
  · rintro turns s turn s' - ⟨tr, hrun⟩ hstep
    obtain ⟨xs, hs⟩ := idle_of_run hrun
    cases turned_of_turn hs hstep with
    | nothing => exact ⟨tr, hrun⟩
    | disconnect hstep => exact ⟨_, .step hrun hstep⟩
    | served hh =>
      cases hh with
      | served hrequest hreply => exact ⟨_, .step (.step hrun hrequest) hreply⟩

/-! ### What is still to be given back -/

/-- What a thread has still to do to the store when it has unlocked `files_mtx` : the files that it
will unlock, and those that it will delete. Before it comes to the store it has nothing. -/
inductive Store.Owes (cfg : ServerConfig) (s : Store) :
    Option (Thread Op Ans Job Local (Option WorkerCode)) → List FilePtr → List FilePtr → Prop
  | idle : Owes cfg s none [] []
  | before {job : Job} {l₀ l : Local} {p : M Asked} (hp : p.Only Op.Private) :
      Owes cfg s (some ⟨job, l₀, p >>= fun asked => asked.body cfg job.fdClient >>= asked.tail, l⟩)
        [] []
  | after {job : Job} {l₀ l l' : Local} {q : M (Option WorkerCode)} {a : Option WorkerCode}
      {leak us ds : List (FilePtr × File)} {shown : List (FilePtr × CString)}
      (hbacks : s.Backs (leak ++ us) ds) (hshown : s.Created job l₀ shown)
      (hgiving : Giving leak shown a l' us ds q l) :
      Owes cfg s (some ⟨job, l₀, q, l⟩) (us.map Prod.fst) (ds.map Prod.fst)

/-- What is left of a job that has come to the store, alone, unlocks and deletes these files, if no
file is gone whose path it prints. -/
theorem Store.Owes.run_or {q : M (Option WorkerCode)} {l₀ : Local} {us ds : List FilePtr}
    (h : s.Owes cfg (some ⟨job, l₀, q, l⟩) us ds) :
    (∃ p : M Asked, p.Only Op.Private ∧
      q = p >>= fun asked => asked.body cfg job.fdClient >>= asked.tail) ∨
    (∃ a l', Prog.run exec q (l, s) =
      .ok (a, (l', s.settled (fun p => us.count p) fun p => ds.count p))) ∨
    ∃ p path, job.Creates l₀ path ∧ (s.heap p = none ∨ p ∈ ds) := by
  cases h with
  | before hp => exact .inl ⟨_, hp, rfl⟩
  | after hbacks hshown hgiving =>
    refine .inr
      ((hgiving.run_or hbacks fun x hx => (hshown x hx).1.name).imp (fun h => ⟨_, _, h⟩) ?_)
    rintro ⟨-, x, hx, hgone⟩
    exact ⟨x.1, x.2, (hshown x hx).2, hgone⟩

/-- A thread that does not work under `files_mtx`. -/
theorem Phase.Of.owes {s₀ z : Store} {c : Phase}
    {th : Option (Thread Op Ans Job Local (Option WorkerCode))} (h : Phase.Of cfg s₀ z s c th)
    (houtside : c.isInside = false) : s.Owes cfg th c.unlocks c.deletes := by
  cases h with
  | idle => exact .idle
  | outside hprivate hrun hlocks => exact .before hprivate
  | inside => cases houtside
  | leaving hbacks hshown hgiving hreplying => exact .after hbacks hshown hgiving

/-- Whenever `files_mtx` is free, the store is one that the server leaves which takes one request at
a time, once each thread has unlocked and deleted what it has still to unlock and to delete. -/
theorem server_of_pool {T : Type} [Fintype T] [DecidableEq T] {tr : List (ServerEvent T)}
    {σ : ServerPool T} (h : Run (serverPool cfg T) tr σ) (hmtx : σ.shared.filesMtx = false) :
    ∃ (us ds : T → List FilePtr) (tr' : List Event),
      (∀ t, σ.shared.Owes cfg (σ.threads t) (us t) (ds t)) ∧
        Run (serverSystem cfg) tr' ⟨σ.shared.settled (total id us) (total id ds), none⟩ := by
  obtain ⟨turns, s, ph, mtx, h⟩ := serialized_of_run h
  have hnone : mtx = none := by
    rw [h.locked] at hmtx
    cases mtx with
    | none => rfl
    | some t => cases hmtx
  obtain ⟨tr', hserver⟩ := server_of_serial h.run
  rw [← h.free hnone] at hserver
  refine ⟨fun t => (ph t).unlocks, fun t => (ph t).deletes, tr',
    fun t => (h.threads t).owes ?_, hserver⟩
  by_contra hinside
  cases hnone.symm.trans ((h.owned t).1 (Bool.eq_true_of_not_eq_false hinside))

/-- An example of `server_of_pool` : one thread is about to delete a file, and the other has locked
one for reading. -/
theorem server_of_pool_pending : ∃ (tr : List (ServerEvent Bool)) (σ : ServerPool Bool),
    Run (serverPool .small Bool) tr σ ∧ (σ.upcoming true).any (Op.deletes 0) = true ∧
    σ.shared.reading 1 = true ∧ σ.shared.files.entries = [([99], 2), ([98], 1)] ∧
    ∃ (us ds : Bool → List FilePtr) (tr' : List Event),
      (∀ t, σ.shared.Owes .small (σ.threads t) (us t) (ds t)) ∧
        Run (serverSystem .small) tr' ⟨σ.shared.settled (total id us) (total id ds), none⟩ := by
  obtain ⟨tr, σ, hrun, hmtx, hdelete, hreading, hentries⟩ :=
    (computes_serverPool .small Bool).exists_run ⟨.initial, fun _ => none⟩ rfl pending
      (fun _ σ => σ.shared.filesMtx = false ∧ (σ.upcoming true).any (Op.deletes 0) = true ∧
        σ.shared.reading 1 = true ∧ σ.shared.files.entries = [([99], 2), ([98], 1)])
      (by decide +kernel)
  exact ⟨tr, σ, hrun, hdelete, hreading, hentries, server_of_pool hrun hmtx⟩

end Server

end StorageServer
