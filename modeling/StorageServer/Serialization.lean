import Mathlib.Algebra.Order.Group.Multiset
import StorageServer.Codec
import StorageServer.Lib.Threads
import StorageServer.Sharing

/-!
# The handlers between each other

In `serverPool` the operations of any number of jobs are performed in any order that the locks
allow, and a job goes no further that comes to an undefined one, or ends the process. It does what
`serialServer` does, in which a job is done at once : in the order in which the jobs unlock
`files_mtx`, each of them sends the same bytes and returns the same code, and when all are done the
store is the same (`serializes_of_run`). Between, the store of the serial server is the settled
store of the pool (`Serialized`).
-/

open Programs Transitions Threads Function

namespace StorageServer

/-! ## The two systems -/

/-- A job done. -/
abbrev JobTurn := Turn Job Local (Option WorkerCode)

/-- The threads of the server. -/
abbrev ServerPool (T : Type) := Pool T Op Ans Job Local Store (Option WorkerCode)

abbrev ServerEvent (T : Type) := PoolEvent T Job Local (Option WorkerCode) Op

/-- The memory suffices for the request of a job that comes to the store. -/
def Job.Admitted (job : Job) (l : Local) (s : Store) : Prop :=
  ∀ req w, Prog.run exec job.prelude (l, s) = .ok (.request req, w) →
    (Asked.request req).locks = true → s.fileSystem.Fits req

/-- The server as its threads run. No job comes to the store for which the memory does not
suffice. -/
def serverPool (cfg : ServerConfig) (T : Type) [DecidableEq T] :
    System (ServerPool T) (ServerEvent T) :=
  poolSystem exec (Job.program cfg) (fun job l o s => o = .mutexLock .files → job.Admitted l s) T
    Store.initial

/-- The server with one job after the other. -/
def serialServer (cfg : ServerConfig) : System Store JobTurn :=
  serialSystem exec (Job.program cfg) Job.Admitted Store.initial

/-- The operation that unlocks `files_mtx`. -/
def Op.unlocksFiles : Op → Bool
  | .mutexUnlock .files => true
  | _ => false

/-- The request of the job is to create a file with this path. -/
def Job.Creates (job : Job) (l : Local) (path : CString) : Prop :=
  ∃ flags w, Prog.run exec job.prelude (l, Store.initial) =
    .ok (.request (.openFile path flags), w) ∧
    isFlagSet flags oCreate = true

/-- The job has come to the store. -/
def locksFiles (turn : JobTurn) : Bool :=
  match Prog.run exec turn.job.prelude (turn.start, Store.initial) with
  | .ok (asked, _) => asked.locks
  | _ => false

/-! ## Before the store -/

section Prelude

variable {cfg : ServerConfig} {job : Job} {l l' : Local} {s s' : Store} {xs : List (FilePtr × File)}
  {asked : Asked}

/-- A program that does not concern the store does the same whatever the store is. -/
theorem run_of_private {α : Type} {p : M α} (hp : p.Only Op.Private) {a : α}
    (h : Prog.run exec p (l, s) = .ok (a, (l', s'))) :
    s' = s ∧ ∀ v, Prog.run exec p (l, v) = .ok (a, (l', v)) := by
  induction p generalizing l s with
  | ret b =>
    cases h
    exact ⟨rfl, fun v => rfl⟩
  | op o k ih =>
    obtain ⟨⟨r, l₁, s₁⟩, hexec, hrest⟩ := Res.bind_eq_ok.1 h
    obtain ⟨rfl, hany⟩ := exec_of_private hp.1 hexec
    obtain ⟨rfl, hrest'⟩ := ih r (hp.2 r) hrest
    refine ⟨rfl, fun v => ?_⟩
    rw [Prog.run_op, hany v]
    exact hrest' v

/-- The first operation of a program that keeps to the discipline of the locks. -/
theorem safe_op {α : Type} {o : Op} {k : Ans o → M α} {Q : α → World → Prop} {w : World}
    (h : Prog.wp safeExec (.op o k) Q w) : guard o w = true ∧ exec o w ≠ .fault ∧
      ∀ a w', exec o w = .ok (a, w') → Prog.wp safeExec (k a) Q w' := by
  rw [Prog.wp, Prog.run_op, Res.sat_bind] at h
  obtain ⟨hguard, hsat⟩ := Prog.checked_sat.1 h
  refine ⟨hguard, hsat.ne_fault, fun a w' hexec => ?_⟩
  rw [hexec] at hsat
  exact hsat

/-- A request that is read is in order, and `close_client` has its iterator. -/
structure Asked.Read (asked : Asked) (l l' : Local) : Prop where
  wf : ∀ req, asked = .request req → req.WF
  malloc : asked = .close → l'.malloc (.safe sizeofHashIter) = true
  frame : ∃ inp, l' = { l with inp := inp }

theorem safe_prelude : Prog.wp safeExec job.prelude (fun asked w => asked.Read l w.1) (l, s) := by
  cases job with
  | closeClient fdClient =>
    rw [Job.prelude, Prog.wp_bind, safe_safeMalloc]
    exact fun hmalloc => ⟨fun req he => (by cases he), fun _ => hmalloc, l.inp, rfl⟩
  | worker fdClient =>
    have hnothing : ∀ (code : WorkerCode) (inp : Stream),
        (Asked.nothing code).Read l { l with inp := inp } :=
      fun code inp => ⟨fun req he => (by cases he), fun he => (by cases he), inp, rfl⟩
    have hunread : ∀ (res : Sa) (inp : Stream), (Asked.unread res).Read l { l with inp := inp } :=
      fun res inp => ⟨fun req he => (by cases he), fun he => (by cases he), inp, rfl⟩
    rw [Job.prelude, Prog.wp_bind, readOperation, Prog.wp_bind]
    refine safe_readnInt fun r n inp => ?_
    simp only [Prog.wp_ite, Prog.wp_pure]
    refine ⟨fun _ => hnothing _ inp,
      fun _ => ⟨fun _ => hnothing _ inp, fun _ => ?_⟩⟩
    cases Handler.ofOpCode n with
    | none => exact hnothing _ inp
    | some h =>
      rw [Prog.wp_bind]
      refine safe_readRequest h fun r inp' _ hwf => ?_
      cases r with
      | error code => exact hunread _ inp'
      | ok req =>
        refine ⟨fun req' he => ?_, fun he => (by cases he), inp', rfl⟩
        cases he
        exact hwf req rfl

theorem of_prelude (h : Prog.run exec job.prelude (l, s) = .ok (asked, (l', s'))) :
    asked.Read l l' :=
  post_of_safe safe_prelude h

/-- What the part under `files_mtx` leaves : an idle store and what the result shows. -/
structure Shown (cfg : ServerConfig) (asked : Asked) (r : Except Sa Reply) (w : World) : Prop where
  shows : ∃ xs out, w.2.Idle cfg xs ∧ w.2.Shows xs r out
  close : asked = .close → r = .ok .done
  created : ∀ p y, r = .ok (.created p y) → ∃ path flags, asked = .request (.openFile path flags) ∧
    isFlagSet flags oCreate = true ∧ ∀ f, w.2.heap p = some f → f.pathName = path

/-- Only an `open_file` that creates the file gives a created file. -/
theorem created_of_served {fdClient : ℕ} {req : Request} {p : FilePtr} {y : Option FilePtr}
    {readings : List Timespec} {out : Except Sa FileSystem.Outcome}
    (h : Served cfg fdClient req l s (.ok (.created p y)) l' s' xs readings out) :
    ∃ path flags, req = .openFile path flags ∧ isFlagSet flags oCreate = true ∧
      ∀ f, s'.heap p = some f → f.pathName = path := by
  obtain ⟨heffect, -, hshown, -, -, -⟩ := h
  generalize hr : (Except.ok (.created p y) : Except Sa Reply) = r at hshown
  cases hshown with
  | @created p f g y howns hp hname hne =>
    cases hr
    generalize hout : (Except.ok (.created f (y.map Prod.snd)) : Except Sa FileSystem.Outcome) = out
      at heffect
    generalize s'.fileSystem = fs' at heffect
    cases heffect with
    | created hc hf h =>
      simp only [Except.ok.injEq, FileSystem.Outcome.created.injEq] at hout
      obtain ⟨rfl, -⟩ := hout
      refine ⟨_, _, rfl, hc, fun f' hf' => ?_⟩
      cases hp.symm.trans hf'
      exact hname
    | _ => cases hout
  | _ => cases hr

/-- The part of `close_client` under `files_mtx`. -/
theorem safe_closeBody (hs : s.Idle cfg xs) {fdClient : ℕ} {Q : Except Sa Reply → World → Prop}
    (hmalloc : l.malloc (.safe sizeofHashIter) = true)
    (hQ : Q (.ok .done) (l, s.putAll (File.closed fdClient) xs)) :
    Prog.wp safeExec (Asked.body cfg fdClient .close) Q (l, s) := by
  have hbody : Asked.body cfg fdClient .close =
      (do mutexLock .files; closeClientLoop fdClient (← filesIter); mutexUnlock .files) >>=
        fun _ => pure (.ok .done) := by
    simp only [bind_assoc]
    rfl
  have hclose : Prog.wp safeExec (closeClient fdClient)
      (fun _ w => w = (l, s.putAll (File.closed fdClient) xs)) (l, s) := safe_closeClient hs rfl
  rw [closeClient, Prog.wp_bind, safe_safeMalloc] at hclose
  rw [hbody, Prog.wp_bind]
  refine Prog.wp_mono (hclose hmalloc) ?_
  rintro - w rfl
  exact hQ

/-- The part under `files_mtx`, from an idle store. -/
theorem safe_body (hs : s.Idle cfg xs)
    (hprelude : Prog.run exec job.prelude (l, s) = .ok (asked, (l', s')))
    (hlocks : asked.locks = true) (hadmitted : job.Admitted l s) :
    Prog.wp safeExec (asked.body cfg job.fdClient) (Shown cfg asked) (l', s) := by
  obtain ⟨hwf, hmalloc, -⟩ := of_prelude hprelude
  cases asked with
  | nothing code => cases hlocks
  | unread res => cases hlocks
  | request req =>
    have hfit := hadmitted req _ hprelude hlocks
    refine Prog.wp_mono (safe_storeSection hs (hwf req rfl) hfit) ?_
    rintro r w ⟨xs', readings, out, hserved⟩
    refine ⟨⟨xs', out, hserved.idle, hserved.shown⟩, fun he => (by cases he), ?_⟩
    rintro p y rfl
    obtain ⟨path, flags, rfl, hcreated⟩ := created_of_served hserved
    exact ⟨path, flags, rfl, hcreated⟩
  | close =>
    obtain ⟨xs', hidle, -⟩ := @Store.Idle.closeAll cfg job.fdClient s xs hs
    exact safe_closeBody hs (hmalloc rfl)
      ⟨⟨xs', _, hidle, .done⟩, fun _ => rfl, fun p y he => (by cases he)⟩

/-- The last part of a job is a reply. -/
theorem replying_tail (asked : Asked) (r : Except Sa Reply) :
    (asked.tail r).Only Op.Replying := by
  have hsend : ∀ res : Sa, (sendResult res).Only Op.Replying := fun res =>
    ⟨trivial, fun _ => .ite trivial trivial⟩
  cases asked with
  | nothing code => trivial
  | unread res => exact (hsend res).bind fun _ => trivial
  | request req => exact (replying_finish r).bind fun res => (hsend res).bind fun _ => trivial
  | close => trivial

/-- After the last part the store is idle again. -/
theorem idle_of_tail {r : Except Sa Reply} {out : Except Sa FileSystem.Outcome} (hs : s.Idle cfg xs)
    (hshown : s.Shows xs r out) {a : Option WorkerCode}
    (h : Prog.run exec (asked.tail r) (l, s) = .ok (a, (l', s'))) : ∃ xs', s'.Idle cfg xs' := by
  have hsend : ∀ (res : Sa) (l : Local) (s' : Store), (∃ xs', s'.Idle cfg xs') →
      Prog.wp safeExec (sendResult res >>= fun code => pure (some code))
        (fun _ w => ∃ xs', w.2.Idle cfg xs') (l, s') := fun res l s' hs' => by
    rw [sendResult, Prog.wp_bind, Prog.wp_bind, safe_writen]
    simp only [Prog.wp_ite, Prog.wp_pure]
    exact ⟨fun _ => hs', fun _ => hs'⟩
  refine post_of_safe (Q := fun _ w => ∃ xs', w.2.Idle cfg xs') ?_ h
  cases asked with
  | nothing code => exact ⟨xs, hs⟩
  | close => exact ⟨xs, hs⟩
  | unread res => exact hsend res l s ⟨xs, hs⟩
  | request req =>
    rw [Asked.tail, Prog.wp_bind]
    exact Prog.wp_mono (safe_finish hs hshown) fun code w hw => hsend code w.1 w.2 hw.2.1

end Prelude

/-! ## Phases -/

/-- How far a thread is with its job, and what it has. -/
inductive Phase
  /-- It has not come to the store, or has no job. -/
  | outside
  /-- It has locked `files_mtx`, and the files `own` for reading. -/
  | inside (own : List FilePtr)
  /-- It has unlocked `files_mtx`. -/
  | leaving (leak unlocks deletes : List (FilePtr × File)) (turn : JobTurn)

/-- The files that the thread has locked for reading. -/
def Phase.reads : Phase → List FilePtr
  | inside own => own
  | leaving leak unlocks _ _ => (leak ++ unlocks).map Prod.fst
  | _ => []

/-- Those that it will unlock after it has unlocked `files_mtx`. -/
def Phase.unlocks : Phase → List FilePtr
  | leaving _ unlocks _ _ => unlocks.map Prod.fst
  | _ => []

/-- The files that it will delete. -/
def Phase.deletes : Phase → List FilePtr
  | leaving _ _ deletes _ => deletes.map Prod.fst
  | _ => []

/-- The job that it has done but for what is left to send and to give back. -/
def Phase.turns : Phase → List JobTurn
  | leaving _ _ _ turn => [turn]
  | _ => []

def Phase.isInside : Phase → Bool
  | inside _ => true
  | _ => false

/-- The job has created files at these addresses, with these paths. They may be gone. -/
def Store.Created (s : Store) (job : Job) (l₀ : Local) (shown : List (FilePtr × CString)) : Prop :=
  ∀ x ∈ shown, s.Named x.1 x.2 ∧ job.Creates l₀ x.2

theorem Store.created_nil (s : Store) (job : Job) (l₀ : Local) : s.Created job l₀ [] := nofun

/-- A thread is in its phase, when the serial server has the store `s₀`, the settled store is `z`,
and the store is `s`. -/
inductive Phase.Of (cfg : ServerConfig) (s₀ z s : Store) :
    Phase → Option (Thread Op Ans Job Local (Option WorkerCode)) → Prop
  | idle : Of cfg s₀ z s .outside none
  | outside {job : Job} {l₀ l : Local} {p : M Asked} (hprivate : p.Only Op.Private)
      (hrun : ∀ v, Prog.run exec job.prelude (l₀, v) = Prog.run exec p (l, v))
      (hlocks : ∀ asked, p = .ret asked → asked.locks = true) :
      Of cfg s₀ z s .outside
        (some ⟨job, l₀, p >>= fun asked => asked.body cfg job.fdClient >>= asked.tail, l⟩)
  | inside {job : Job} {l₀ l₁ l : Local} {own : List FilePtr} {asked : Asked}
      {q : M (Except Sa Reply)}
      (hprelude : ∀ v, Prog.run exec job.prelude (l₀, v) = .ok (asked, (l₁, v)))
      (hlocks : asked.locks = true) (hadmitted : job.Admitted l₀ s₀)
      (hrun : Prog.run exec (asked.body cfg job.fdClient) (l₁, s₀) = Prog.run exec q (l, z))
      (hsafe : Prog.wp safeExec q (Shown cfg asked) (l, z))
        (hcritical : Critical cfg.policy Reply.readers own q) :
      Of cfg s₀ z s (.inside own) (some ⟨job, l₀, q >>= asked.tail, l⟩)
  | leaving {leak unlocks deletes : List (FilePtr × File)} {shown : List (FilePtr × CString)}
      {turn : JobTurn} {q : M (Option WorkerCode)} {l : Local}
      (hbacks : s.Backs (leak ++ unlocks) deletes) (hshown : s.Created turn.job turn.start shown)
      (hgiving : Giving leak shown turn.result turn.last unlocks deletes q l)
      (hreplying : q.Only Op.Replying) :
      Of cfg s₀ z s (.leaving leak unlocks deletes turn) (some ⟨turn.job, turn.start, q, l⟩)

section Phases

variable {cfg : ServerConfig} {s₀ s₀' z z' s s' : Store} {c : Phase} {reads deletes : FilePtr → ℕ}
  {th : Option (Thread Op Ans Job Local (Option WorkerCode))}

/-- A step of another thread. -/
theorem Phase.Of.keep (h : Phase.Of cfg s₀ z s c th)
    (hinside : c.isInside = true → s₀' = s₀ ∧ z' = z) (hkeeps : s.Keeps s' reads deletes)
    (hpos : ∀ p ∈ c.reads ++ c.deletes, 0 < reads p + deletes p) : Phase.Of cfg s₀' z' s' c th := by
  cases h with
  | idle => exact .idle
  | outside hprivate hrun hlocks => exact .outside hprivate hrun hlocks
  | inside hprelude hlocks hadmitted hrun hsafe hcritical =>
    obtain ⟨rfl, rfl⟩ := hinside rfl
    exact .inside hprelude hlocks hadmitted hrun hsafe hcritical
  | leaving hbacks hshown hgiving hreplying =>
    refine .leaving (hbacks.of_keeps hkeeps fun x hx => hpos x.1 ?_)
      (fun x hx => (hshown x hx).imp_left fun h => h.of_keeps hkeeps) hgiving hreplying
    rw [Phase.reads, Phase.deletes, ← List.map_append]
    exact List.mem_map_of_mem hx

theorem Phase.count_unlocks_le (c : Phase) (p : FilePtr) : c.unlocks.count p ≤ c.reads.count p := by
  cases c with
  | leaving leak unlocks deletes turn =>
    rw [Phase.unlocks, Phase.reads, List.map_append, List.count_append]
    exact Nat.le_add_left _ _
  | _ => exact Nat.zero_le _

end Phases

/-! ## The invariant -/

section Serialized

variable {T : Type} [Fintype T] [DecidableEq T]

/-- The store that is left when every thread has given back what it has. -/
def settledStore (s : Store) (ph : T → Phase) : Store :=
  s.settled (total Phase.unlocks ph) (total Phase.deletes ph)

/-- A pool does what a serial server does. The turns are the jobs that have been done and those of
the threads that only have to send and to give back. -/
structure Serialized (cfg : ServerConfig) (tr : List (ServerEvent T)) (σ : ServerPool T)
    (turns : List JobTurn) (s₀ : Store) (ph : T → Phase) (mtx : Option T) : Prop where
  run : Run (serialServer cfg) turns s₀
  idle : ∃ xs, s₀.Idle cfg xs
  threads : ∀ t, Phase.Of cfg s₀ (settledStore σ.shared ph) σ.shared (ph t) (σ.threads t)
  shared : σ.shared.Shared (total Phase.reads ph) (total Phase.deletes ph)
  owned : Owned Phase.isInside ph mtx
  locked : σ.shared.filesMtx = mtx.isSome
  free : mtx = none → settledStore σ.shared ph = s₀
  done : (turns : Multiset JobTurn) = finished tr + ∑ t, ((ph t).turns : Multiset JobTurn)
  order : performed Op.unlocksFiles tr = (turns.filter locksFiles).map fun turn =>
    (turn.job, turn.start)

variable {cfg : ServerConfig} {tr : List (ServerEvent T)} {σ : ServerPool T} {turns : List JobTurn}
  {s₀ s₀' z z' s s' : Store} {ph : T → Phase} {mtx : Option T} {t : T} {c : Phase}

omit [DecidableEq T] in
theorem unlocks_le_reads (ph : T → Phase) (p : FilePtr) :
    total Phase.unlocks ph p ≤ total Phase.reads ph p :=
  Finset.sum_le_sum fun t _ => (ph t).count_unlocks_le p

omit [Fintype T] in
/-- One thread takes a step. -/
theorem threads_update {threads : T → Option (Thread Op Ans Job Local (Option WorkerCode))}
    {th : Option (Thread Op Ans Job Local (Option WorkerCode))} {reads deletes : FilePtr → ℕ}
    (h : ∀ u, Phase.Of cfg s₀ z s (ph u) (threads u)) (ht : Phase.Of cfg s₀' z' s' c th)
    (hinside : ∀ u, u ≠ t → (ph u).isInside = true → s₀' = s₀ ∧ z' = z)
    (hkeeps : s.Keeps s' reads deletes)
    (hpos : ∀ u, u ≠ t → ∀ p ∈ (ph u).reads ++ (ph u).deletes, 0 < reads p + deletes p) (u : T) :
    Phase.Of cfg s₀' z' s' (update ph t c u) (update threads t th u) := by
  by_cases hu : u = t
  · subst hu
    rwa [update_self, update_self]
  · rw [update_of_ne hu, update_of_ne hu]
    exact (h u).keep (hinside u hu) hkeeps (hpos u hu)

omit [DecidableEq T] in
/-- What a thread has is among what all threads have. -/
theorem total_pos_of_has (ph : T → Phase) (u : T) (p : FilePtr)
    (hp : p ∈ (ph u).reads ++ (ph u).deletes) :
    0 < total Phase.reads ph p + total Phase.deletes ph p := by
  rcases List.mem_append.1 hp with hp | hp
  · exact Nat.add_pos_left (total_pos_of_mem hp) _
  · exact Nat.add_pos_right _ (total_pos_of_mem hp)

/-- A thread has done its job but for what is left. -/
theorem done_turn {fin : Multiset JobTurn} {turn : JobTurn}
    (h : (turns : Multiset JobTurn) = fin + ∑ u, ((ph u).turns : Multiset JobTurn))
    (ht : (ph t).turns = []) (hc : c.turns = [turn]) :
    ((turn :: turns : List JobTurn) : Multiset JobTurn) =
      fin + ∑ u, ((update ph t c u).turns : Multiset JobTurn) := by
  have hsum := sum_update (fun c => (c.turns : Multiset JobTurn)) ph t c
  rw [ht, hc, Multiset.coe_nil, add_zero] at hsum
  rw [hsum, ← add_assoc, ← h, Multiset.coe_add]
  exact Multiset.coe_eq_coe.2 (List.perm_append_singleton turn turns).symm

/-! ## Steps outside -/

variable {e : ServerEvent T} {th : Option (Thread Op Ans Job Local (Option WorkerCode))} {job : Job}
  {l₀ l l' : Local}

/-- A step that does not concern the store. -/
theorem Serialized.quiet (h : Serialized cfg tr σ turns s₀ ph mtx)
    (ht : Phase.Of cfg s₀ (settledStore σ.shared ph) σ.shared (ph t) th)
    (hfinished : finished (e :: tr) = finished tr)
    (hperformed : performed Op.unlocksFiles (e :: tr) = performed Op.unlocksFiles tr) :
    Serialized cfg (e :: tr) ⟨σ.shared, update σ.threads t th⟩ turns s₀ ph mtx where
  run := h.run
  idle := h.idle
  threads u := by
    have hu := threads_update (t := t) h.threads ht (fun _ _ _ => ⟨rfl, rfl⟩) (.refl σ.shared)
      (fun u _ => total_pos_of_has ph u) u
    rwa [update_eq_self] at hu
  shared := h.shared
  owned := h.owned
  locked := h.locked
  free := h.free
  done := by
    rw [hfinished]
    exact h.done
  order := by
    rw [hperformed]
    exact h.order

theorem prelude_ne_ret (job : Job) (asked : Asked) : job.prelude ≠ .ret asked := by
  cases job <;> exact fun h => by cases h

/-- A thread starts a job. -/
theorem Serialized.start (h : Serialized cfg tr σ turns s₀ ph mtx) (job : Job) (l : Local)
    (ht : σ.threads t = none) : Serialized cfg (.start t job l :: tr)
      ⟨σ.shared, update σ.threads t (some ⟨job, l, job.program cfg, l⟩)⟩ turns s₀ ph mtx := by
  refine h.quiet ?_ rfl rfl
  have hphase := h.threads t
  rw [ht] at hphase
  generalize ph t = c at hphase
  cases hphase
  rw [Job.program_eq]
  exact .outside (private_prelude job) (fun _ => rfl) fun asked he =>
    absurd he (prelude_ne_ret job asked)

/-- A job that does not come to the store is done. -/
theorem run_noReply {asked : Asked}
    (hprelude : ∀ v, Prog.run exec job.prelude (l₀, v) = .ok (asked, (l, v)))
    (hlocks : asked.locks = false) {a : Option WorkerCode}
    (hgiving : Giving [] [] a l' [] [] (asked.tail asked.noReply) l) :
    (serialServer cfg).step s₀ ⟨job, l₀, a, l'⟩ s₀ ∧ locksFiles ⟨job, l₀, a, l'⟩ = false := by
  refine ⟨⟨fun req w hreq hreqLocks => ?_, ?_⟩, ?_⟩
  · obtain ⟨rfl, -⟩ := Prod.mk.inj (Res.ok.inj ((hprelude s₀).symm.trans hreq))
    cases hlocks.symm.trans hreqLocks
  · have hbacks : s₀.Backs ([] ++ []) [] := ⟨nofun, List.nodup_nil, nofun⟩
    rw [Job.program_eq, Prog.run_bind, hprelude, Res.bind_ok, Asked.body_eq cfg _ hlocks]
    refine (hgiving.run hbacks (s₀.prints_nil [])).trans ?_
    rw [countAt_nil, Store.settled_zero]
  · rw [locksFiles, hprelude]
    exact hlocks

/-- A thread goes on with its prelude. If the job does not come to the store, it is done but for
what is left to send. -/
theorem Serialized.outside (h : Serialized cfg tr σ turns s₀ ph mtx) (hphase : ph t = .outside)
    {o : Op} {p : M Asked} (hp : p.Only Op.Private)
    (hrun : ∀ v, Prog.run exec job.prelude (l₀, v) = Prog.run exec p (l, v))
    (ho : o.unlocksFiles = false) :
    ∃ turns' ph', Serialized cfg (.perform t job l₀ o :: tr) ⟨σ.shared, update σ.threads t
      (some ⟨job, l₀, p >>= fun asked => asked.body cfg job.fdClient >>= asked.tail, l⟩)⟩ turns' s₀
        ph' mtx := by
  have hperformed : performed Op.unlocksFiles (.perform t job l₀ o :: tr) =
      performed Op.unlocksFiles tr := by
    simp only [performed, List.filterMap_cons, ho]
    rfl
  by_cases hdone : ∃ asked, p = .ret asked ∧ asked.locks = false
  · obtain ⟨asked, rfl, hlocks⟩ := hdone
    obtain ⟨leak, unlocks, a, l', hperm, -, hgiving⟩ := gives_noReply (l := l) hlocks
    obtain ⟨rfl, rfl⟩ := List.append_eq_nil_iff.1 (List.perm_nil.1 hperm)
    have hprelude : ∀ v, Prog.run exec job.prelude (l₀, v) = .ok (asked, (l, v)) := fun v => hrun v
    obtain ⟨hturn, horder⟩ := @run_noReply cfg s₀ job l₀ l l' asked hprelude hlocks a hgiving
    refine ⟨⟨job, l₀, a, l'⟩ :: turns, update ph t (.leaving [] [] [] ⟨job, l₀, a, l'⟩), ?_⟩
    have hreads : total Phase.reads (update ph t (.leaving [] [] [] ⟨job, l₀, a, l'⟩)) =
        total Phase.reads ph := total_keep (by rw [hphase]; rfl)
    have hunlocks : total Phase.unlocks (update ph t (.leaving [] [] [] ⟨job, l₀, a, l'⟩)) =
        total Phase.unlocks ph := total_keep (by rw [hphase]; rfl)
    have hdeletes : total Phase.deletes (update ph t (.leaving [] [] [] ⟨job, l₀, a, l'⟩)) =
        total Phase.deletes ph := total_keep (by rw [hphase]; rfl)
    have hsettled : settledStore σ.shared (update ph t (.leaving [] [] [] ⟨job, l₀, a, l'⟩)) =
        settledStore σ.shared ph := by rw [settledStore, settledStore, hunlocks, hdeletes]
    refine ⟨.step h.run hturn, h.idle, ?_, ?_, ?_, h.locked, ?_, ?_, ?_⟩
    · refine threads_update h.threads ?_ (fun _ _ _ => ⟨rfl, hsettled⟩) (.refl σ.shared)
        fun u _ => total_pos_of_has ph u
      rw [Prog.ret_bind, Asked.body_eq cfg _ hlocks, Prog.ret_bind]
      exact @Phase.Of.leaving _ _ _ _ _ _ _ _ ⟨job, l₀, a, l'⟩ _ _ ⟨nofun, List.nodup_nil, nofun⟩
        (Store.created_nil _ _ _) hgiving (replying_tail _ _)
    · rw [hreads, hdeletes]
      exact h.shared
    · refine h.owned.keep ?_
      rw [hphase]
      rfl
    · rw [hsettled]
      exact h.free
    · exact done_turn h.done (by rw [hphase]; rfl) rfl
    · rw [hperformed, List.filter_cons_of_neg (by rw [horder]; exact Bool.false_ne_true)]
      exact h.order
  · refine ⟨turns, ph, h.quiet ?_ rfl hperformed⟩
    rw [hphase]
    exact .outside hp hrun fun asked he => by
      by_contra hlocks
      exact hdone ⟨asked, he, Bool.eq_false_of_not_eq_true hlocks⟩

/-! ## Steps under `files_mtx` -/

/-- The size of the files does not depend on what the threads have to give back. -/
theorem contentBytes_settled {xs : List (FilePtr × File)} {unlocks deletes : FilePtr → ℕ}
    (hs : (s.settled unlocks deletes).Idle cfg xs) :
    s.fileSystem.contentBytes = (s.settled unlocks deletes).fileSystem.contentBytes := by
  have hheap : ∀ x ∈ xs, (s.heap x.1).map (fun f => f.contents.length) = some x.2.contents.length :=
    fun x hx => by
      obtain ⟨-, f, hf, he⟩ := Store.heap_settled_eq_some (hs.heap x hx)
      rw [hf, he]
      rfl
  have hentries : s.files.entries = xs.map fun x => (x.2.pathName, x.1) := hs.entries
  rw [hs.fileSystem_eq, FileSystem.contentBytes, FileSystem.contentBytes, Store.fileSystem,
    List.map_filterMap, hentries, List.filterMap_map]
  refine congrArg List.sum ?_
  rw [List.map_map, ← List.filterMap_eq_map]
  exact List.filterMap_congr fun x hx => hheap x hx

theorem admitted_settled {xs : List (FilePtr × File)} {unlocks deletes : FilePtr → ℕ}
    (hs : (s.settled unlocks deletes).Idle cfg xs) (h : job.Admitted l₀ s) :
    job.Admitted l₀ (s.settled unlocks deletes) := by
  intro req w hrun hlocks
  obtain ⟨l, s'⟩ := w
  have hfit := h req _ ((run_of_private (private_prelude job) hrun).2 s) hlocks
  rw [FileSystem.Fits, ← contentBytes_settled hs]
  exact hfit

/-- A thread locks `files_mtx`. -/
theorem Serialized.enter (h : Serialized cfg tr σ turns s₀ ph mtx) (hphase : ph t = .outside)
    {asked : Asked} (hprelude : ∀ v, Prog.run exec job.prelude (l₀, v) = .ok (asked, (l, v)))
    (hlocks : asked.locks = true) {q : M (Except Sa Reply)}
    (hbody : asked.body cfg job.fdClient = .op (.mutexLock .files) fun _ => q)
    (hcritical : Critical cfg.policy Reply.readers [] q) (hadmitted : job.Admitted l₀ σ.shared)
    (hexec : exec (.mutexLock .files) (l, σ.shared) = .ok ((), (l', s'))) :
    Serialized cfg (.perform t job l₀ (.mutexLock .files) :: tr)
      ⟨s', update σ.threads t (some ⟨job, l₀, q >>= asked.tail, l'⟩)⟩ turns s₀
      (update ph t (.inside [])) (some t) := by
  change (if σ.shared.filesMtx = true then _ else _) = _ at hexec
  split_ifs at hexec with hfree
  cases hexec
  obtain rfl : mtx = none := by
    rw [h.locked] at hfree
    exact Option.not_isSome_iff_eq_none.1 hfree
  obtain ⟨xs, hs⟩ := h.idle
  have hreads : total Phase.reads (update ph t (.inside [])) = total Phase.reads ph :=
    total_keep (by rw [hphase]; rfl)
  have hunlocks : total Phase.unlocks (update ph t (.inside [])) = total Phase.unlocks ph :=
    total_keep (by rw [hphase]; rfl)
  have hdeletes : total Phase.deletes (update ph t (.inside [])) = total Phase.deletes ph :=
    total_keep (by rw [hphase]; rfl)
  have hsettled : settledStore (σ.shared.setLocked true .files) (update ph t (.inside [])) =
      s₀.setLocked true .files := by
    rw [settledStore, hunlocks, hdeletes, Store.settled_setLocked, ← h.free rfl]
    rfl
  have hlock : exec (.mutexLock .files) (l, s₀) = .ok ((), (l, s₀.setLocked true .files)) :=
    if_neg (by rw [hs.filesMtx]; exact Bool.false_ne_true)
  have hfree₀ := h.free rfl
  have hadmitted₀ : job.Admitted l₀ s₀ := by
    rw [← hfree₀] at hs ⊢
    exact admitted_settled hs hadmitted
  refine ⟨h.run, ⟨xs, hs⟩, ?_, ?_, ?_, ?_, nofun, ?_, h.order⟩
  · refine threads_update h.threads ?_ (fun u hu hinside => ?_)
      (Store.keeps_of_heap (Store.heap_setLocked ..) (Store.fresh_setLocked ..))
        fun u _ => total_pos_of_has ph u
    · rw [hsettled]
      have hrun : Prog.run exec (asked.body cfg job.fdClient) (l, s₀) =
          Prog.run exec q (l, s₀.setLocked true .files) := by
        rw [hbody, Prog.run_op, hlock, Res.bind_ok]
      have hsafe := safe_body hs (hprelude s₀) hlocks hadmitted₀
      rw [hbody] at hsafe
      exact .inside hprelude hlocks hadmitted₀ hrun ((safe_op hsafe).2.2 _ _ hlock) hcritical
    · cases (h.owned u).1 hinside
  · rw [hreads, hdeletes]
    exact h.shared.of_heap (Store.heap_setLocked ..) (Store.fresh_setLocked ..)
  · exact h.owned.acquire rfl
  · exact rfl
  · rw [h.done]
    refine congrArg _ (sum_update_eq (fun c => (c.turns : Multiset JobTurn)) ph t ?_).symm
    rw [hphase]
    rfl

/-- Only the operations on `files_mtx` change it. -/
theorem filesMtx_of_exec {o : Op} {a : Ans o} (hlock : o ≠ .mutexLock .files)
    (hunlock : o ≠ .mutexUnlock .files) (hexec : exec o (l, s) = .ok (a, (l', s'))) :
    s'.filesMtx = s.filesMtx := by
  cases o
  case readn | writen | clockGettime | safeMalloc | malloc | exit | uninit | logger =>
    obtain ⟨rfl, -⟩ := exec_of_private (by exact trivial) hexec
    rfl
  case mutexLock m =>
    change (if s.locked m = true then _ else _) = _ at hexec
    split_ifs at hexec
    cases m with
    | files => exact absurd rfl hlock
    | currState =>
      cases hexec
      rfl
  case mutexUnlock m =>
    cases m with
    | files => exact absurd rfl hunlock
    | currState =>
      cases hexec
      rfl
  case undefined => cases hexec
  case get | set | fileDelete | fileReaderUnlock | fileWriterUnlock =>
    obtain ⟨f, -, he⟩ := withFile_eq_ok hexec
    cases he
    rfl
  case fileReaderLock | fileWriterLock =>
    obtain ⟨f, -, he⟩ := withFile_eq_ok hexec
    split_ifs at he
    cases he
    rfl
  all_goals
    cases hexec
    rfl

/-- A thread that has locked `files_mtx` does an operation that it does on the settled store as
well. -/
theorem Serialized.within (h : Serialized cfg tr σ turns s₀ ph mtx) {own own' : List FilePtr}
    (hphase : ph t = .inside own) {l₁ : Local} {asked : Asked} {o : Op}
    {k : Ans o → M (Except Sa Reply)}
    {a : Ans o} (hprelude : ∀ v, Prog.run exec job.prelude (l₀, v) = .ok (asked, (l₁, v)))
    (hlocks : asked.locks = true) (hadmitted : job.Admitted l₀ s₀)
    (hrun : Prog.run exec (asked.body cfg job.fdClient) (l₁, s₀) =
      Prog.run exec (.op o k) (l, settledStore σ.shared ph))
    (hsafe : Prog.wp safeExec (.op o k) (Shown cfg asked) (l, settledStore σ.shared ph))
    (hcritical : Critical cfg.policy Reply.readers own' (k a)) (hlock : o ≠ .mutexLock .files)
    (hunlock : o ≠ .mutexUnlock .files) (hexec : exec o (l, σ.shared) = .ok (a, (l', s')))
    (hstep : exec o (l, settledStore σ.shared ph) = .ok (a, (l', settledStore s' ph)) ∧
      s'.Shared (total Phase.reads (update ph t (.inside own'))) (total Phase.deletes ph) ∧
        σ.shared.Keeps s' (total Phase.reads ph) (total Phase.deletes ph)) :
    Serialized cfg (.perform t job l₀ o :: tr) ⟨s', update σ.threads t
      (some ⟨job, l₀, k a >>= asked.tail, l'⟩)⟩ turns s₀ (update ph t (.inside own')) mtx := by
  obtain ⟨hsettledExec, hshared, hkeeps⟩ := hstep
  have hmtx : mtx = some t := (h.owned t).1 (by rw [hphase]; rfl)
  have hunlocks : total Phase.unlocks (update ph t (.inside own')) = total Phase.unlocks ph :=
    total_keep (by rw [hphase]; rfl)
  have hdeletes : total Phase.deletes (update ph t (.inside own')) = total Phase.deletes ph :=
    total_keep (by rw [hphase]; rfl)
  have hsettled : settledStore s' (update ph t (.inside own')) = settledStore s' ph := by
    rw [settledStore, settledStore, hunlocks, hdeletes]
  have hperformed : performed Op.unlocksFiles (.perform t job l₀ o :: tr) =
      performed Op.unlocksFiles tr := by
    have ho : o.unlocksFiles = false := by
      unfold Op.unlocksFiles
      split
      · exact absurd rfl hunlock
      · rfl
    simp only [performed, List.filterMap_cons, ho]
    rfl
  refine ⟨h.run, h.idle, ?_, ?_, ?_, ?_, ?_, ?_, ?_⟩
  · refine threads_update h.threads ?_ (fun u hu hinside => ?_) hkeeps fun u _ =>
      total_pos_of_has ph u
    · rw [hsettled]
      have hrun' : Prog.run exec (asked.body cfg job.fdClient) (l₁, s₀) =
          Prog.run exec (k a) (l', settledStore s' ph) := by
        rw [hrun, Prog.run_op, hsettledExec, Res.bind_ok]
      exact .inside hprelude hlocks hadmitted hrun' ((safe_op hsafe).2.2 _ _ hsettledExec) hcritical
    · exact absurd (h.owned.unique hinside (by rw [hphase]; rfl)) hu
  · rw [hdeletes]
    exact hshared
  · refine h.owned.keep ?_
    rw [hphase]
    rfl
  · exact (filesMtx_of_exec hlock hunlock hexec).trans h.locked
  · intro hnone
    cases hmtx.symm.trans hnone
  · rw [show finished (.perform t job l₀ o :: tr) = finished tr from rfl, h.done]
    refine congrArg _ (sum_update_eq (fun c => (c.turns : Multiset JobTurn)) ph t ?_).symm
    rw [hphase]
    rfl
  · rw [hperformed]
    exact h.order

/-- What a thread reads is counted. -/
theorem total_reads_inside {own : List FilePtr} (hphase : ph t = .inside own) (own' : List FilePtr)
    (p : FilePtr) :
    total Phase.reads (update ph t (.inside own')) p + own.count p =
      total Phase.reads ph p + own'.count p := by
  have hsum := total_update Phase.reads ph t (.inside own') p
  rwa [hphase] at hsum

/-- A thread works under `files_mtx`. -/
theorem Serialized.inside (h : Serialized cfg tr σ turns s₀ ph mtx) {own : List FilePtr}
    (hphase : ph t = .inside own) {l₁ : Local} {asked : Asked} {o : Op}
    {k : Ans o → M (Except Sa Reply)}
    {a : Ans o} (hprelude : ∀ v, Prog.run exec job.prelude (l₀, v) = .ok (asked, (l₁, v)))
    (hlocks : asked.locks = true) (hadmitted : job.Admitted l₀ s₀)
    (hrun : Prog.run exec (asked.body cfg job.fdClient) (l₁, s₀) =
      Prog.run exec (.op o k) (l, settledStore σ.shared ph))
    (hsafe : Prog.wp safeExec (.op o k) (Shown cfg asked) (l, settledStore σ.shared ph))
    (hcritical : Critical cfg.policy Reply.readers own (.op o k))
    (hunlock : o ≠ .mutexUnlock .files)
    (hexec : exec o (l, σ.shared) = .ok (a, (l', s'))) :
    ∃ ph', Serialized cfg (.perform t job l₀ o :: tr) ⟨s', update σ.threads t
      (some ⟨job, l₀, k a >>= asked.tail, l'⟩)⟩ turns s₀ ph' mtx := by
  obtain ⟨hguard, hfault, -⟩ := safe_op hsafe
  have hle := unlocks_le_reads ph
  cases hcritical with
  | unlock hk => exact absurd rfl hunlock
  | @readerLock own p k hk =>
    refine ⟨_, h.within hphase hprelude hlocks hadmitted hrun hsafe hk (fun he => by cases he)
      (fun he => by cases he) hexec (h.shared.readerLock hle hfault hexec ?_ fun q hq => ?_)⟩
    · have hsum := total_reads_inside hphase (own ++ [p]) p
      rw [List.count_append, List.count_singleton_self] at hsum
      omega
    · have hsum := total_reads_inside hphase (own ++ [p]) q
      rw [List.count_append, List.count_singleton, if_neg (by simpa using Ne.symm hq)] at hsum
      omega
  | @readerUnlock own rest p k hp hk =>
    refine ⟨_, h.within hphase hprelude hlocks hadmitted hrun hsafe hk (fun he => by cases he)
      (fun he => by cases he) hexec (h.shared.readerUnlock hfault hexec ?_ fun q hq => ?_)⟩
    · have hsum := total_reads_inside hphase rest p
      rw [hp.count_eq, List.count_cons_self] at hsum
      omega
    · have hsum := total_reads_inside hphase rest q
      rw [hp.count_eq, List.count_cons_of_ne (Ne.symm hq)] at hsum
      omega
  | plain ho hk =>
    refine ⟨_, h.within hphase hprelude hlocks hadmitted hrun hsafe (hk a) ?_ hunlock hexec ?_⟩
    · rintro rfl
      exact ho
    · have hstep := h.shared.plain hle ho hguard hfault hexec
      rwa [← hphase, update_eq_self]

/-- A thread has unlocked `files_mtx`. -/
theorem total_unlocks_leaving (hphase : (ph t).unlocks = [])
    (leak unlocks deletes : List (FilePtr × File))
    (turn : JobTurn) : total Phase.unlocks (update ph t (.leaving leak unlocks deletes turn)) =
      total Phase.unlocks ph + countAt unlocks := funext fun p => by
  have hsum := total_update Phase.unlocks ph t (.leaving leak unlocks deletes turn) p
  rwa [hphase, List.count_nil, Nat.add_zero] at hsum

theorem total_deletes_leaving (hphase : (ph t).deletes = [])
    (leak unlocks deletes : List (FilePtr × File))
    (turn : JobTurn) : total Phase.deletes (update ph t (.leaving leak unlocks deletes turn)) =
      total Phase.deletes ph + countAt deletes := funext fun p => by
  have hsum := total_update Phase.deletes ph t (.leaving leak unlocks deletes turn) p
  rwa [hphase, List.count_nil, Nat.add_zero] at hsum

/-- A thread unlocks `files_mtx`. What it still has to send and to give back is now settled. -/
theorem Serialized.leave (h : Serialized cfg tr σ turns s₀ ph mtx) {own : List FilePtr}
    (hphase : ph t = .inside own) {l₁ : Local} {asked : Asked} {k : Unit → M (Except Sa Reply)}
    {r : Except Sa Reply} (hprelude : ∀ v, Prog.run exec job.prelude (l₀, v) = .ok (asked, (l₁, v)))
    (hlocks : asked.locks = true) (hadmitted : job.Admitted l₀ s₀)
    (hrun : Prog.run exec (asked.body cfg job.fdClient) (l₁, s₀) =
      Prog.run exec (.op (.mutexUnlock .files) k) (l, settledStore σ.shared ph))
    (hsafe : Prog.wp safeExec (.op (.mutexUnlock .files) k) (Shown cfg asked)
      (l, settledStore σ.shared ph))
    (hk : k () = .ret r) (hown : own = Reply.readers r) :
    ∃ turns' s₀' ph', Serialized cfg (.perform t job l₀ (.mutexUnlock .files) :: tr)
      ⟨σ.shared.setLocked false .files, update σ.threads t (some ⟨job, l₀, asked.tail r, l⟩)⟩
      turns' s₀' ph' none := by
  have hbody : Prog.run exec (asked.body cfg job.fdClient) (l₁, s₀) =
      .ok (r, (l, (settledStore σ.shared ph).setLocked false .files)) := by
    rw [hrun, Prog.run_op]
    exact congrArg (Prog.run exec · _) hk
  have hshown := (safe_op hsafe).2.2 () _ rfl
  rw [hk] at hshown
  obtain ⟨⟨xs, out, hidle, hshows⟩, hclose, hcreated⟩ := hshown
  obtain ⟨shown, reads, deletes, hleaves, hgives⟩ := gives_tail hidle hshows hclose hlocks
  obtain ⟨leak, unlocks, a, l', hperm, -, hgiving⟩ := hgives l
  have hinside : (ph t).isInside = true := by
    rw [hphase]
    rfl
  have hfst : ((leak ++ unlocks).map Prod.fst).Perm own := by
    rw [hown, ← hleaves.readers]
    exact hperm.map _
  simp only [settledStore, ← Store.settled_setLocked] at hbody hidle hshows hleaves hcreated
  -- what the thread has now
  have hreads : total Phase.reads (update ph t (.leaving leak unlocks deletes ⟨job, l₀, a, l'⟩)) =
      total Phase.reads ph := total_keep (by rw [hphase]; exact hfst)
  have hnone : (ph t).unlocks = [] ∧ (ph t).deletes = [] := by
    rw [hphase]
    exact ⟨rfl, rfl⟩
  have hunlocks := total_unlocks_leaving hnone.1 leak unlocks deletes ⟨job, l₀, a, l'⟩
  have hdeletes := total_deletes_leaving hnone.2 leak unlocks deletes ⟨job, l₀, a, l'⟩
  have hshared := (h.shared.of_heap (Store.heap_setLocked σ.shared .files false)
    (Store.fresh_setLocked ..)).add_deletes hleaves.nodup hleaves.deleting
  have hbacks : ((σ.shared.setLocked false .files).settled (total Phase.unlocks ph)
      (total Phase.deletes ph)).Backs (leak ++ unlocks) deletes := by
    refine ⟨fun x hx => ?_, hleaves.nodup, fun x hx => ?_⟩
    · rcases List.mem_append.1 hx with hx | hx
      · exact ⟨x.2, hleaves.reading x (hperm.mem_iff.1 hx), .refl x.2⟩
      · exact ⟨_, hleaves.deleting x hx, ⟨rfl, rfl, rfl⟩⟩
    · have hpos : 0 < total Phase.reads ph x.1 := by
        refine total_pos_of_mem (t := t) ?_
        rw [hphase]
        exact hfst.mem_iff.1 (List.mem_map_of_mem hx)
      have hzero := (Nat.add_eq_zero_iff.1 (hshared.not_deleting hpos)).2
      exact List.count_eq_zero.1 hzero
  -- the file that it has created
  have hprinted : (σ.shared.setLocked false .files).Created job l₀ shown := fun x hx => by
    obtain ⟨y, rfl⟩ := hleaves.created x hx
    obtain ⟨path, flags, rfl, hflag, hpath⟩ := hcreated _ _ rfl
    obtain ⟨g, hg, hname⟩ := hleaves.prints.heap x hx
    obtain rfl : path = x.2 := (hpath g hg).symm.trans hname
    obtain ⟨-, f, hf, rfl⟩ := Store.heap_settled_eq_some hg
    rw [Store.heap_setLocked] at hf
    refine ⟨⟨?_, fun f' hf' => ?_⟩, flags, _, hprelude _, hflag⟩
    · rw [Store.fresh_setLocked]
      exact h.shared.lt_fresh hf
    · rw [Store.heap_setLocked] at hf'
      cases hf.symm.trans hf'
      exact hname
  -- the turn of the serial server
  have hserial := hgiving.run hbacks hleaves.prints
  rw [Store.settled_settled, ← hunlocks, ← hdeletes] at hserial
  obtain ⟨xs', hidle'⟩ := idle_of_tail hidle hshows hserial
  have hturn : (serialServer cfg).step s₀ ⟨job, l₀, a, l'⟩
      (settledStore (σ.shared.setLocked false .files)
      (update ph t (.leaving leak unlocks deletes ⟨job, l₀, a, l'⟩))) := by
    refine ⟨hadmitted, ?_⟩
    rw [Job.program_eq, Prog.run_bind, hprelude, Res.bind_ok, Prog.run_bind, hbody, Res.bind_ok]
    exact hserial
  have horder : locksFiles ⟨job, l₀, a, l'⟩ = true := by
    rw [locksFiles, hprelude]
    exact hlocks
  refine ⟨⟨job, l₀, a, l'⟩ :: turns, _,
    update ph t (.leaving leak unlocks deletes ⟨job, l₀, a, l'⟩),
    .step h.run hturn, ⟨xs', hidle'⟩, ?_, ?_, ?_, rfl, fun _ => rfl, ?_, ?_⟩
  · refine threads_update h.threads ?_ (fun u hu hinside' => ?_)
      (Store.keeps_of_heap (Store.heap_setLocked ..) (Store.fresh_setLocked ..))
        fun u _ => total_pos_of_has ph u
    · exact @Phase.Of.leaving _ _ _ _ _ _ _ _ ⟨job, l₀, a, l'⟩ _ _ hbacks.of_settled
        hprinted hgiving (replying_tail _ _)
    · exact absurd (h.owned.unique hinside' hinside) hu
  · rw [hreads, hdeletes]
    exact hshared
  · exact h.owned.release hinside rfl
  · exact done_turn h.done (by rw [hphase]; rfl) rfl
  · rw [List.filter_cons_of_pos horder, List.map_cons, ← h.order]
    rfl

/-! ## Steps after `files_mtx` -/

/-- A thread that has unlocked `files_mtx` does a step that leaves the settled store. -/
theorem Serialized.give (h : Serialized cfg tr σ turns s₀ ph mtx)
    {leak unlocks unlocks' deletes deletes' : List (FilePtr × File)}
    {shown : List (FilePtr × CString)}
    {turn : JobTurn} {o : Op} {q : M (Option WorkerCode)}
    (hphase : ph t = .leaving leak unlocks deletes turn)
    (hbacks : s'.Backs (leak ++ unlocks') deletes')
    (hshown : σ.shared.Created turn.job turn.start shown)
    (hgiving : Giving leak shown turn.result turn.last unlocks' deletes' q l')
    (hreplying : q.Only Op.Replying)
    (hsettled : settledStore s' (update ph t (.leaving leak unlocks' deletes' turn)) =
      settledStore σ.shared ph)
    (hshared : s'.Shared (total Phase.reads (update ph t (.leaving leak unlocks' deletes' turn)))
      (total Phase.deletes (update ph t (.leaving leak unlocks' deletes' turn))))
    (hkeeps : σ.shared.Keeps s' (total Phase.reads ph)
      (total Phase.deletes (update ph t (.leaving leak unlocks' deletes' turn))))
    (hmtx : s'.filesMtx = σ.shared.filesMtx) (ho : o.unlocksFiles = false) :
    Serialized cfg (.perform t turn.job turn.start o :: tr)
      ⟨s', update σ.threads t (some ⟨turn.job, turn.start, q, l'⟩)⟩ turns s₀
      (update ph t (.leaving leak unlocks' deletes' turn)) mtx := by
  have hperformed : performed Op.unlocksFiles (.perform t turn.job turn.start o :: tr) =
      performed Op.unlocksFiles tr := by
    simp only [performed, List.filterMap_cons, ho]
    rfl
  refine ⟨h.run, h.idle, ?_, hshared, ?_, hmtx.trans h.locked, ?_, ?_, ?_⟩
  · have hshown' : s'.Created turn.job turn.start shown := fun x hx =>
      (hshown x hx).imp_left fun h => h.of_keeps hkeeps
    refine threads_update h.threads (.leaving hbacks hshown' hgiving hreplying)
      (fun _ _ _ => ⟨rfl, hsettled⟩) hkeeps fun u hu p hp => ?_
    rcases List.mem_append.1 hp with hp | hp
    · exact Nat.add_pos_left (total_pos_of_mem hp) _
    · refine Nat.add_pos_right _ (total_pos_of_mem (t := u) ?_)
      rwa [update_of_ne hu]
  · refine h.owned.keep ?_
    rw [hphase]
    rfl
  · rw [hsettled]
    exact h.free
  · rw [show finished (.perform t turn.job turn.start o :: tr) = finished tr from rfl, h.done]
    refine congrArg _ (sum_update_eq (fun c => (c.turns : Multiset JobTurn)) ph t ?_).symm
    rw [hphase]
    rfl
  · rw [hperformed]
    exact h.order

/-- A thread that has unlocked `files_mtx` goes on. -/
theorem Serialized.leaving (h : Serialized cfg tr σ turns s₀ ph mtx)
    {leak unlocks deletes : List (FilePtr × File)} {shown : List (FilePtr × CString)}
    {turn : JobTurn}
    {o : Op} {k : Ans o → M (Option WorkerCode)} {a : Ans o}
    (hphase : ph t = .leaving leak unlocks deletes turn)
    (hbacks : σ.shared.Backs (leak ++ unlocks) deletes)
    (hshown : σ.shared.Created turn.job turn.start shown)
    (hgiving : Giving leak shown turn.result turn.last unlocks deletes (.op o k) l)
    (hreplying : (k a).Only Op.Replying)
    (hexec : exec o (l, σ.shared) = .ok (a, (l', s'))) :
    ∃ ph', Serialized cfg (.perform t turn.job turn.start o :: tr)
      ⟨s', update σ.threads t (some ⟨turn.job, turn.start, k a, l'⟩)⟩ turns s₀ ph' mtx := by
  cases hgiving with
  | writen hk | logger hk =>
    cases hexec
    refine ⟨ph, h.quiet ?_ rfl rfl⟩
    rw [hphase]
    exact .leaving hbacks hshown hk hreplying
  | @print deletes x k l hx hk =>
    -- if the file is still there, it has its path
    obtain ⟨f, hf, he⟩ := withFile_eq_ok hexec
    cases he
    refine ⟨ph, h.quiet ?_ rfl rfl⟩
    have hname : f.get .pathName = x.2 := (hshown x hx).1.name f hf
    rw [hname] at hreplying
    rw [hphase, hname]
    exact .leaving hbacks hshown hk hreplying
  | @get unlocks deletes x fld k l hx hfld hk =>
    obtain ⟨f, hf, hsame⟩ := hbacks.heap x hx
    obtain ⟨f', hf', he⟩ := withFile_eq_ok hexec
    cases hf.symm.trans hf'
    cases he
    refine ⟨ph, h.quiet ?_ rfl rfl⟩
    rw [hsame.get hfld] at hreplying
    rw [hphase, hsame.get hfld]
    exact .leaving hbacks hshown hk hreplying
  | @unlock unlocks deletes x k l hk =>
    obtain ⟨f, hf, he⟩ := withFile_eq_ok hexec
    cases he
    have hreads : ∀ p, total Phase.reads (update ph t (.leaving leak unlocks deletes turn)) p +
        (countAt leak p + countAt (x :: unlocks) p) =
          total Phase.reads ph p + (countAt leak p + countAt unlocks p) := fun p => by
      have hsum := total_update Phase.reads ph t (.leaving leak unlocks deletes turn) p
      simp only [hphase, Phase.reads, List.map_append, List.count_append] at hsum
      exact hsum
    have hunlocks : ∀ p, total Phase.unlocks (update ph t (.leaving leak unlocks deletes turn)) p +
        countAt (x :: unlocks) p = total Phase.unlocks ph p + countAt unlocks p := fun p => by
      have hsum := total_update Phase.unlocks ph t (.leaving leak unlocks deletes turn) p
      rwa [hphase] at hsum
    have hdeletes : total Phase.deletes (update ph t (.leaving leak unlocks deletes turn)) =
        total Phase.deletes ph := total_keep (by rw [hphase]; rfl)
    have hself := countAt_cons_self x unlocks
    have hread : total Phase.reads ph x.1 =
        total Phase.reads (update ph t (.leaving leak unlocks deletes turn)) x.1 + 1 := by
      have hsum := hreads x.1
      omega
    obtain ⟨hshared, hkeeps⟩ := h.shared.readUnlocked hf hread fun q hq => by
      have hsum := hreads q
      rw [countAt_cons_of_ne hq, Nat.add_right_cancel_iff] at hsum
      exact hsum.symm
    have hsettled : settledStore (σ.shared.put x.1 f.readUnlocked)
        (update ph t (.leaving leak unlocks deletes turn)) = settledStore σ.shared ph := by
      rw [settledStore, hdeletes]
      refine Store.settled_unlock hf (by have hsum := hunlocks x.1; omega) fun q hq => ?_
      have hsum := hunlocks q
      rw [countAt_cons_of_ne hq] at hsum
      omega
    refine ⟨_, h.give hphase ?_ hshown hk hreplying hsettled (by rwa [hdeletes])
      (by rwa [hdeletes]) rfl rfl⟩
    refine (hbacks.put hf (g := f.readUnlocked) ⟨rfl, rfl, rfl⟩).mono fun y hy => ?_
    rcases List.mem_append.1 hy with hy | hy
    · exact List.mem_append_left _ hy
    · exact List.mem_append_right _ (List.mem_cons_of_mem _ hy)
  | @delete unlocks deletes x k l hk =>
    obtain ⟨f, hf, he⟩ := withFile_eq_ok hexec
    cases he
    have hdeletes : ∀ p, total Phase.deletes (update ph t (.leaving leak unlocks deletes turn)) p +
        countAt (x :: deletes) p = total Phase.deletes ph p + countAt deletes p := fun p => by
      have hsum := total_update Phase.deletes ph t (.leaving leak unlocks deletes turn) p
      rwa [hphase] at hsum
    have hreads : total Phase.reads (update ph t (.leaving leak unlocks deletes turn)) =
        total Phase.reads ph := total_keep (by rw [hphase]; rfl)
    have hunlocks : total Phase.unlocks (update ph t (.leaving leak unlocks deletes turn)) =
        total Phase.unlocks ph := total_keep (by rw [hphase]; rfl)
    have hself : total Phase.deletes ph x.1 =
        total Phase.deletes (update ph t (.leaving leak unlocks deletes turn)) x.1 + 1 := by
      have hsum := hdeletes x.1
      rw [countAt_cons_self] at hsum
      omega
    have hother : ∀ q, q ≠ x.1 → total Phase.deletes ph q =
        total Phase.deletes (update ph t (.leaving leak unlocks deletes turn)) q := fun q hq => by
      have hsum := hdeletes q
      rw [countAt_cons_of_ne hq] at hsum
      omega
    obtain ⟨hshared, hkeeps⟩ := h.shared.deleted hself hother
    have hsettled : settledStore (σ.shared.delete x.1)
        (update ph t (.leaving leak unlocks deletes turn)) =
        settledStore σ.shared ph := by
      rw [settledStore, hunlocks]
      exact Store.settled_deleted (by omega) hother
    exact ⟨_, h.give hphase hbacks.delete hshown hk hreplying hsettled (by rwa [hreads]) hkeeps
      rfl rfl⟩

/-- A thread is done with its job. -/
theorem Serialized.finish (h : Serialized cfg tr σ turns s₀ ph mtx)
    {leak unlocks deletes : List (FilePtr × File)} {shown : List (FilePtr × CString)}
    {turn : JobTurn}
    {a : Option WorkerCode} (hphase : ph t = .leaving leak unlocks deletes turn)
    (hgiving : Giving leak shown turn.result turn.last unlocks deletes (.ret a) l) :
    a = turn.result ∧ l = turn.last ∧ Serialized cfg (.finish t turn :: tr)
      ⟨σ.shared, update σ.threads t none⟩ turns s₀ (update ph t .outside) mtx := by
  cases hgiving with
  | ret =>
    have hunlocks : total Phase.unlocks (update ph t .outside) = total Phase.unlocks ph :=
      total_keep (by rw [hphase]; rfl)
    have hdeletes : total Phase.deletes (update ph t .outside) = total Phase.deletes ph :=
      total_keep (by rw [hphase]; rfl)
    have hsettled : settledStore σ.shared (update ph t .outside) = settledStore σ.shared ph := by
      rw [settledStore, settledStore, hunlocks, hdeletes]
    refine ⟨rfl, rfl, h.run, h.idle, ?_, ?_, ?_, h.locked, ?_, ?_, h.order⟩
    · exact threads_update h.threads .idle (fun _ _ _ => ⟨rfl, hsettled⟩) (.refl σ.shared)
        fun u _ => total_pos_of_has ph u
    · rw [hdeletes]
      refine h.shared.fewer fun p => ?_
      have hsum := total_update Phase.reads ph t .outside p
      rw [show Phase.reads .outside = [] from rfl, List.count_nil] at hsum
      omega
    · refine h.owned.keep ?_
      rw [hphase]
      rfl
    · rw [hsettled]
      exact h.free
    · have hsum := sum_update (fun c => (c.turns : Multiset JobTurn)) ph t .outside
      rw [hphase, show Phase.turns .outside = [] from rfl, Multiset.coe_nil, add_zero] at hsum
      rw [h.done, ← hsum, ← add_assoc, add_right_comm, Multiset.coe_add]
      refine congrArg (· + _) (Multiset.coe_eq_coe.2 ?_)
      exact List.perm_append_singleton turn (finished tr)

/-! ## Runs -/

theorem Op.Private.unlocksFiles {o : Op} (h : o.Private) : o.unlocksFiles = false := by
  cases o
  case mutexUnlock => exact h.elim
  all_goals rfl

/-- The next operation of a thread, by its phase. -/
theorem Serialized.perform (h : Serialized cfg tr σ turns s₀ ph mtx) {o : Op}
    {k : Ans o → M (Option WorkerCode)} {a : Ans o} (ht : σ.threads t = some ⟨job, l₀, .op o k, l⟩)
    (hadmits : o = .mutexLock .files → job.Admitted l₀ σ.shared)
    (hexec : exec o (l, σ.shared) = .ok (a, (l', s'))) :
    ∃ turns' s₀' ph' mtx', Serialized cfg (.perform t job l₀ o :: tr)
      ⟨s', update σ.threads t (some ⟨job, l₀, k a, l'⟩)⟩ turns' s₀' ph' mtx' := by
  have hphase := h.threads t
  rw [ht] at hphase
  generalize hc : ph t = c at hphase
  generalize hth : some (Thread.mk job l₀ (.op o k) l) = th at hphase
  cases hphase with
  | idle => cases hth
  | @outside job l₀ l p hprivate hrun hlocks =>
    cases p with
    | ret asked =>
      obtain ⟨q, hbody, hcritical⟩ := Asked.locking_body cfg job.fdClient (hlocks asked rfl)
      rw [Prog.ret_bind, hbody, Prog.op_bind] at hth
      cases hth
      exact ⟨_, _, _, _, h.enter hc hrun (hlocks asked rfl) hbody hcritical (hadmits rfl) hexec⟩
    | op o p =>
      cases hth
      obtain ⟨rfl, hany⟩ := exec_of_private hprivate.1 hexec
      have hrun' : ∀ v, Prog.run exec job.prelude (l₀, v) = Prog.run exec (p a) (l', v) :=
        fun v => by
        rw [hrun v, Prog.run_op, hany v, Res.bind_ok]
      obtain ⟨turns', ph', h'⟩ := h.outside hc (hprivate.2 a) hrun' hprivate.1.unlocksFiles
      exact ⟨turns', _, ph', _, h'⟩
  | @inside job l₀ l₁ l own asked q hprelude hlocks hadmitted hrun hsafe hcritical =>
    cases q with
    | ret r => cases hcritical
    | op o q =>
      cases hth
      by_cases hunlock : o = .mutexUnlock .files
      · subst hunlock
        cases hcritical with
        | unlock hk =>
          cases hexec
          obtain ⟨turns', s₀', ph', h'⟩ := h.leave hc hprelude hlocks hadmitted hrun hsafe hk rfl
          have htail : q () >>= asked.tail = asked.tail _ := congrArg (· >>= asked.tail) hk
          rw [← htail] at h'
          exact ⟨turns', s₀', ph', _, h'⟩
        | plain ho => exact ho.elim
      · obtain ⟨ph', h'⟩ := h.inside hc hprelude hlocks hadmitted hrun hsafe hcritical hunlock hexec
        exact ⟨_, _, ph', _, h'⟩
  | leaving hbacks hshown hgiving hreplying =>
    cases hth
    obtain ⟨ph', h'⟩ := h.leaving hc hbacks hshown hgiving (hreplying.2 a) hexec
    exact ⟨_, _, ph', _, h'⟩

/-- The next operation of a thread, by its phase. -/
inductive Phase.Next (s z : Store) (job : Job) (l₀ l : Local) : Phase → Op → Prop
  | prelude {o : Op} (ho : o.Private) : Next s z job l₀ l .outside o
  | enter : Next s z job l₀ l .outside (.mutexLock .files)
  | inside {own : List FilePtr} {o : Op} (hguard : guard o (l, z) = true)
      (hfault : exec o (l, z) ≠ .fault) :
      Next s z job l₀ l (.inside own) o
  | leaving {leak unlocks deletes : List (FilePtr × File)} {shown : List (FilePtr × CString)}
      {turn : JobTurn} {o : Op} {k : Ans o → M (Option WorkerCode)}
      (hbacks : s.Backs (leak ++ unlocks) deletes) (hshown : s.Created job l₀ shown)
      (hgiving : Giving leak shown turn.result turn.last unlocks deletes (.op o k) l) :
      Next s z job l₀ l (.leaving leak unlocks deletes turn) o

omit [DecidableEq T] in
theorem Serialized.next (h : Serialized cfg tr σ turns s₀ ph mtx) {o : Op}
    {k : Ans o → M (Option WorkerCode)} (ht : σ.threads t = some ⟨job, l₀, .op o k, l⟩) :
    (ph t).Next σ.shared (settledStore σ.shared ph) job l₀ l o := by
  have hphase := h.threads t
  rw [ht] at hphase
  generalize ph t = c at hphase
  generalize hth : some (Thread.mk job l₀ (.op o k) l) = th at hphase
  cases hphase with
  | idle => cases hth
  | @outside job l₀ l p hprivate hrun hlocks =>
    cases p with
    | ret asked =>
      obtain ⟨q, hbody, -⟩ := Asked.locking_body cfg job.fdClient (hlocks asked rfl)
      rw [Prog.ret_bind, hbody, Prog.op_bind] at hth
      cases hth
      exact .enter
    | op o p =>
      cases hth
      exact .prelude hprivate.1
  | @inside job l₀ l₁ l own asked q hprelude hlocks hadmitted hrun hsafe hcritical =>
    cases q with
    | ret r => cases hcritical
    | op o q =>
      cases hth
      obtain ⟨hguard, hfault, -⟩ := safe_op hsafe
      exact .inside hguard hfault
  | leaving hbacks hshown hgiving hreplying =>
    cases hth
    exact .leaving hbacks hshown hgiving

/-- The end of a job, by the phase of its thread. -/
theorem Serialized.finishes (h : Serialized cfg tr σ turns s₀ ph mtx) {a : Option WorkerCode}
    (ht : σ.threads t = some ⟨job, l₀, .ret a, l⟩) :
    ∃ turns' s₀' ph' mtx', Serialized cfg (.finish t ⟨job, l₀, a, l⟩ :: tr)
      ⟨σ.shared, update σ.threads t none⟩ turns' s₀' ph' mtx' := by
  have hphase := h.threads t
  rw [ht] at hphase
  generalize hc : ph t = c at hphase
  generalize hth : some (Thread.mk job l₀ (.ret a) l) = th at hphase
  cases hphase with
  | idle => cases hth
  | @outside job l₀ l p hprivate hrun hlocks =>
    cases p with
    | ret asked =>
      obtain ⟨q, hbody, -⟩ := Asked.locking_body cfg job.fdClient (hlocks asked rfl)
      rw [Prog.ret_bind, hbody, Prog.op_bind] at hth
      cases hth
    | op o p => cases hth
  | @inside job l₀ l₁ l own asked q hprelude hlocks hadmitted hrun hsafe hcritical =>
    cases hcritical <;> cases hth
  | leaving hbacks hshown hgiving hreplying =>
    cases hth
    obtain ⟨rfl, rfl, h'⟩ := h.finish hc hgiving
    exact ⟨_, _, _, _, h'⟩

/-- Every step of the pool is none, or one turn, of the serial server. -/
theorem Serialized.step (h : Serialized cfg tr σ turns s₀ ph mtx) {σ' : ServerPool T}
    (hstep : (serverPool cfg T).step σ e σ') :
    ∃ turns' s₀' ph' mtx', Serialized cfg (e :: tr) σ' turns' s₀' ph' mtx' := by
  cases hstep with
  | start job l ht => exact ⟨_, _, _, _, h.start job l ht⟩
  | perform ht hadmits hexec => exact h.perform ht hadmits hexec
  | finish ht => exact h.finishes ht

omit [DecidableEq T] in
theorem serialized_initial :
    Serialized cfg [] (⟨.initial, fun _ => none⟩ : ServerPool T) [] .initial (fun _ => .outside)
      none where
  run := .start rfl
  idle := ⟨[], idle_initial⟩
  threads _ := .idle
  shared :=
    ⟨fun _ _ => rfl, fun p hp => absurd hp (by rw [total_eq_zero fun _ => rfl]; exact lt_irrefl 0),
    fun p hp => absurd hp (by rw [total_eq_zero fun _ => rfl]; exact lt_irrefl 0),
    fun p => by rw [total_eq_zero fun _ => rfl]; exact Nat.zero_le 1⟩
  owned t := ⟨nofun, nofun⟩
  locked := rfl
  free _ := by
    rw [settledStore, total_eq_zero fun _ => rfl, total_eq_zero fun _ => rfl, Store.settled_zero]
  done := by
    simp only [Phase.turns, Multiset.coe_nil, Finset.sum_const_zero]
    rfl
  order := rfl

/-- In every run of the pool, the threads are serialized. -/
theorem serialized_of_run (h : Run (serverPool cfg T) tr σ) :
    ∃ turns s₀ ph mtx, Serialized cfg tr σ turns s₀ ph mtx := by
  refine h.induction (I := fun tr σ => ∃ turns s₀ ph mtx, Serialized cfg tr σ turns s₀ ph mtx) ?_ ?_
  · rintro σ rfl
    exact ⟨_, _, _, _, serialized_initial⟩
  · rintro tr σ e σ' - ⟨turns, s₀, ph, mtx, h⟩ hstep
    exact h.step hstep

omit [DecidableEq T] in
/-- A thread without a job. -/
theorem Serialized.outside_of_none (h : Serialized cfg tr σ turns s₀ ph mtx)
    (ht : σ.threads t = none) :
    ph t = .outside := by
  have hphase := h.threads t
  rw [ht] at hphase
  generalize ph t = c at hphase
  cases hphase
  rfl

/-- The threads do what the serial server does. Each job that has been done is a turn of the serial
server, with the same bytes sent and the same result, in the order in which the jobs have unlocked
`files_mtx`; when no thread has a job, there are no other turns, and the store is the same. -/
theorem serializes_of_run (h : Run (serverPool cfg T) tr σ) :
    ∃ turns s, Run (serialServer cfg) turns s ∧ (finished tr).Subperm turns ∧
      performed Op.unlocksFiles tr =
        ((turns.filter locksFiles).map fun turn => (turn.job, turn.start)) ∧
      ((∀ t, σ.threads t = none) → (finished tr).Perm turns ∧ σ.shared = s) := by
  obtain ⟨turns, s, ph, mtx, h⟩ := serialized_of_run h
  refine ⟨turns, s, h.run, ?_, h.order, fun hnone => ?_⟩
  · rw [← Multiset.coe_le, h.done]
    exact Multiset.le_add_right _ _
  · have houtside : ∀ t, ph t = .outside := fun t => h.outside_of_none (hnone t)
    have hmtx : mtx = none := by
      cases mtx with
      | none => rfl
      | some t =>
        have hinside := (h.owned t).2 rfl
        rw [houtside t] at hinside
        cases hinside
    have hfree := h.free hmtx
    have hdone := h.done
    rw [settledStore, total_eq_zero fun t => by rw [houtside t]; rfl,
      total_eq_zero fun t => by rw [houtside t]; rfl, Store.settled_zero] at hfree
    refine ⟨?_, hfree⟩
    simp only [houtside, Phase.turns, Multiset.coe_nil, Finset.sum_const_zero, add_zero] at hdone
    exact (Multiset.coe_eq_coe.1 hdone).symm

end Serialized

/-! ### Threads, computed -/

section Replays

/-- The request of a job, if it has read one. -/
def Job.asks (job : Job) (l : Local) (s : Store) : Option Request :=
  match Prog.run exec job.prelude (l, s) with
  | .ok (.request req, _) => some req
  | _ => none

theorem Job.asks_eq_some {job : Job} {l : Local} {s : Store} {req : Request} :
    job.asks l s = some req ↔ ∃ w, Prog.run exec job.prelude (l, s) = .ok (.request req, w) := by
  constructor
  · intro h
    rw [Job.asks] at h
    split at h
    · cases h
      exact ⟨_, ‹_›⟩
    · cases h
  · rintro ⟨w, hw⟩
    rw [Job.asks, hw]

instance Job.decidableAdmitted (job : Job) (l : Local) (s : Store) : Decidable (job.Admitted l s) :=
  decidable_of_iff (∀ req ∈ job.asks l s, (Asked.request req).locks = true → s.fileSystem.Fits req)
    ⟨fun h req w hrun => h req (Job.asks_eq_some.2 ⟨w, hrun⟩), fun h req hreq =>
      (Job.asks_eq_some.1 hreq).elim fun w hrun => h req w hrun⟩

/-- The operation that locks `files_mtx`. -/
def Op.locksFiles : Op → Bool
  | .mutexLock .files => true
  | _ => false

theorem Op.locksFiles_iff {o : Op} : o.locksFiles = true ↔ o = .mutexLock .files := by
  constructor
  · intro h
    unfold Op.locksFiles at h
    split at h
    · rfl
    · cases h
  · rintro rfl
    rfl

instance Op.decidableLocksFiles (o : Op) : Decidable (o = .mutexLock .files) :=
  decidable_of_iff _ o.locksFiles_iff

/-- The deletion of this file. -/
def Op.deletes (p : FilePtr) : Op → Bool
  | .fileDelete q => q = p
  | _ => false

theorem Op.deletes_iff {o : Op} {p : FilePtr} : o.deletes p = true ↔ o = .fileDelete p := by
  cases o
  case fileDelete q => simp [Op.deletes]
  all_goals exact ⟨fun h => (by cases h), fun h => (by cases h)⟩

/-- The reading of the path of this file. -/
def Op.prints (p : FilePtr) : Op → Bool
  | .get q .pathName => q = p
  | _ => false

theorem Op.prints_iff {o : Op} {p : FilePtr} : o.prints p = true ↔ o = .get p .pathName := by
  cases o
  case get q fld =>
    cases fld
    case pathName => simp [Op.prints]
    all_goals exact ⟨fun h => (by cases h), fun h => (by cases h)⟩
  all_goals exact ⟨fun h => (by cases h), fun h => (by cases h)⟩

/-- The step of the pool, computed. -/
def ServerPool.next (cfg : ServerConfig) {T : Type} [DecidableEq T] :
    ServerPool T → PoolAction T Job Local → Option (ServerEvent T × ServerPool T) :=
  Pool.next exec (Job.program cfg) fun job l o s => o = .mutexLock .files → job.Admitted l s

theorem computes_serverPool (cfg : ServerConfig) (T : Type) [DecidableEq T] :
    Computes (serverPool cfg T) (ServerPool.next cfg) :=
  computes_pool Store.initial

/-- A thread serves a request, up to its `n`-th operation. -/
def serve {T : Type} (t : T) (fdClient : ℕ) (call : Api.Call) (l : Local) (n : ℕ) :
    List (PoolAction T Job Local) :=
  .start t (.worker fdClient) (l.left call.pieces.flatten) :: List.replicate n (.perform t)

/-- A thread serves a request that has so many operations. -/
def served {T : Type} (t : T) (fdClient : ℕ) (call : Api.Call) (l : Local) (n : ℕ) :
    List (PoolAction T Job Local) :=
  serve t fdClient call l n ++ [.finish t]

theorem of_start_mem_serve {T : Type} {t u : T} {fdClient : ℕ} {call : Api.Call}
    {l l' : Local} {n : ℕ}
    {job : Job} (h : .start u job l' ∈ serve t fdClient call l n) :
    job = .worker fdClient ∧ l' = l.left call.pieces.flatten := by
  rcases List.mem_cons.1 h with he | hmem
  · cases he
    exact ⟨rfl, rfl⟩
  · cases List.eq_of_mem_replicate hmem

theorem of_start_mem_served {T : Type} {t u : T} {fdClient : ℕ} {call : Api.Call}
    {l l' : Local} {n : ℕ}
    {job : Job} (h : .start u job l' ∈ served t fdClient call l n) :
    job = .worker fdClient ∧ l' = l.left call.pieces.flatten := by
  rcases List.mem_append.1 h with hmem | hmem
  · exact of_start_mem_serve hmem
  · cases List.mem_singleton.1 hmem

/-- The client 8 fills a file, and the client 9 another one. Then one thread has expelled the first,
for a third file of the client 8, and is about to delete it, while the other is about to send the
second to the client 9. -/
def pending : List (PoolAction Bool Job Local) :=
  served true 8 (.openFile [97] (oCreate + oLock)) (.at 0) 37 ++
    served true 8 (.writeFile [97] (some [1, 2]) fun _ => 0) (.at 1) 34 ++
    served false 9 (.openFile [98] (oCreate + oLock)) (.at 2) 37 ++
    served false 9 (.writeFile [98] (some [3]) fun _ => 0) (.at 3) 34 ++
    serve true 8 (.openFile [99] (oCreate + oLock)) (.at 4) 55 ++
    serve false 9 (.readFile [98]) (.at 5) 11

/-- The second has sent its file, and then the first deletes its own. -/
def settling : List (PoolAction Bool Job Local) :=
  pending ++ List.replicate 9 (.perform false) ++ .finish false ::
    List.replicate 4 (.perform true) ++ [.finish true]

/-- An example of `serializes_of_run` : the job that ends last has come to the store before the one
that ends before it, and the second and the third file are left. -/
theorem serializes_of_run_settling : ∃ tr σ turns s, Run (serverPool .small Bool) tr σ ∧
    (finished tr).map Turn.job =
      [.worker 8, .worker 9, .worker 9, .worker 9, .worker 8, .worker 8] ∧
    (performed Op.unlocksFiles tr).map Prod.fst =
      [.worker 9, .worker 8, .worker 9, .worker 9, .worker 8, .worker 8] ∧
    s.fileSystem.files.map (fun f => (f.pathName, f.contents)) = [([99], []), ([98], [3])] ∧
    Run (serialServer .small) turns s ∧ (finished tr).Perm turns ∧ σ.shared = s := by
  obtain ⟨tr, σ, hrun, hfalse, htrue, hfinished, hperformed, hfiles⟩ :=
    (computes_serverPool .small Bool).exists_run ⟨.initial, fun _ => none⟩ rfl settling
      (fun tr σ => (σ.threads false).isNone = true ∧ (σ.threads true).isNone = true ∧
        (finished tr).map Turn.job =
          [.worker 8, .worker 9, .worker 9, .worker 9, .worker 8, .worker 8] ∧
        (performed Op.unlocksFiles tr).map Prod.fst =
          [.worker 9, .worker 8, .worker 9, .worker 9, .worker 8, .worker 8] ∧
        σ.shared.fileSystem.files.map (fun f => (f.pathName, f.contents)) =
          [([99], []), ([98], [3])])
      (by decide +kernel)
  have hnone : ∀ t, σ.threads t = none := fun t => by
    cases t
    · exact Option.isNone_iff_eq_none.1 hfalse
    · exact Option.isNone_iff_eq_none.1 htrue
  obtain ⟨turns, s, hserial, -, -, hdone⟩ := serializes_of_run hrun
  obtain ⟨hperm, rfl⟩ := hdone hnone
  exact ⟨tr, σ, turns, _, hrun, hfinished, hperformed, hfiles, hserial, hperm, rfl⟩

end Replays

end StorageServer
