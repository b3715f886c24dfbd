import StorageServer.MainLoop

/-!
# The request queue

`request_queue` is changed with `request_queue_mtx` held, so a worker that does not wait pops what
it has seen. A worker that has waited does not test the queue again. As long as it finds a client
there whenever it has waited, the clients are served in the order in which they are inserted, each
once (`served_of_run`). It need not find one, as another worker may lock the mutex before it
(`not_served_of_run`).
-/

open Function Transitions Threads

namespace StorageServer

/-- Whether the worker has locked `request_queue_mtx`. -/
def WorkerPc.owns : WorkerPc → Bool
  | .test | .wait | .check _ | .leave | .pop | .unlock _ => true
  | _ => false

/-- Whether the main thread has locked `request_queue_mtx`. -/
def MainPc.owns : MainPc → Bool
  | .push _ | .signal _ | .unlock _ => true
  | _ => false

namespace ServerThreads

variable {n : ℕ}

/-- The threads that have locked `request_queue_mtx`, the main thread as `none`. -/
def owns (s : ServerThreads n) : Option (Fin n) → Bool
  | none => s.main.owns
  | some w => (s.worker w).owns

/-- The mutex is locked by its owner, and it stays closed once the server is to be closed. -/
structure Locked (s : ServerThreads n) : Prop where
  mtx : Owned id s.owns s.mtx
  sig : s.mode ≠ .acceptConn → s.sig ≠ .wait

section Locked

variable {d : Descriptors n} {s s' : ServerThreads n} {a : Action n} {tr : List (Action n)}
  {w : Fin n} {t : Option (Fin n)} {c : WorkerPc} {m : MainPc} {b : Bool}

theorem owns_goto (hmain : s'.main = m) (hworker : s'.worker = s.worker) :
    s'.owns = update s.owns none m.owns := by
  funext t
  cases t with
  | none => rw [update_self, owns, hmain]
  | some w => rw [update_of_ne (Option.some_ne_none w), owns, owns, hworker]

theorem owns_move (hmain : s'.main = s.main) (hworker : s'.worker = update s.worker w c) :
    s'.owns = update s.owns (some w) c.owns := by
  funext t
  cases t with
  | none => rw [update_of_ne (Option.some_ne_none w).symm, owns, owns, hmain]
  | some u =>
    rw [owns, hworker]
    by_cases hu : u = w
    · rw [hu, update_self, update_self]
    · rw [update_of_ne hu, update_of_ne fun h => hu (Option.some.inj h), owns]

theorem owns_goto_eq (hmain : s'.main = m) (hworker : s'.worker = s.worker)
    (howns : m.owns = s.main.owns) : s'.owns = s.owns := by
  rw [owns_goto hmain hworker, howns]
  exact update_eq_self none s.owns

theorem owns_move_eq (hmain : s'.main = s.main) (hworker : s'.worker = update s.worker w c)
    (howns : c.owns = (s.worker w).owns) : s'.owns = s.owns := by
  rw [owns_move hmain hworker, howns]
  exact update_eq_self (some w) s.owns

theorem owns_wakeWorkers (s : ServerThreads n) : s.wakeWorkers.owns = s.owns := by
  funext t
  cases t with
  | none => rfl
  | some w =>
    change WorkerPc.owns (if s.worker w = .asleep then .woken else s.worker w) = _
    split_ifs with hw
    · exact (congrArg WorkerPc.owns hw).symm
    · rfl

/-- A step that does not concern the mutex. -/
theorem Locked.congr (h : s.Locked) (howns : s'.owns = s.owns) (hmtx : s'.mtx = s.mtx)
    (hsig : s'.mode ≠ .acceptConn → s'.sig ≠ .wait) : s'.Locked where
  mtx := by
    rw [howns, hmtx]
    exact h.mtx
  sig := hsig

/-- A thread locks the mutex. -/
theorem Locked.acquire (h : s.Locked) (hfree : s.mtx = none) (howns : s'.owns = update s.owns t b)
    (hb : b = true) (hmtx : s'.mtx = some t) (hsig : s'.mode ≠ .acceptConn → s'.sig ≠ .wait) :
    s'.Locked where
  mtx := by
    rw [howns, hmtx]
    exact (hfree ▸ h.mtx).acquire hb
  sig := hsig

/-- A thread unlocks the mutex. -/
theorem Locked.release (h : s.Locked) (hown : s.owns t = true)
    (howns : s'.owns = update s.owns t b) (hb : b = false) (hmtx : s'.mtx = none)
    (hsig : s'.mode ≠ .acceptConn → s'.sig ≠ .wait) : s'.Locked where
  mtx := by
    rw [howns, hmtx]
    exact h.mtx.release hown hb
  sig := hsig

/-- What a step leaves of the mutex. -/
theorem Locked.step (h : s.Locked) (hs : Step d s a s') : s'.Locked := by
  cases hs with
  | loop hmain | join hmain | select _ hmain | passed hmain | skip hmain | again hmain | push hmain
  | quiet hmain => exact h.congr (owns_goto_eq rfl rfl (by rw [hmain]; rfl)) rfl h.sig
  | accept _ _ _ hat | refuse hat | stop hat | restore _ _ _ _ hat | request hat =>
    exact h.congr (owns_goto_eq rfl rfl (by rw [hat.main]; rfl)) rfl h.sig
  | remove w res rest r table hat =>
    obtain ⟨hworker, hmtx, hmode, hsig, -⟩ := closeClient_eq s res.fdClient
    exact h.congr (owns_goto_eq rfl hworker (by rw [hat.main]; rfl)) hmtx fun hne =>
      hsig ▸ h.sig (hmode ▸ hne)
  | @wake p hmain =>
    have howns : (s.wakeWorkers.goto (.passed p)).owns = s.wakeWorkers.owns :=
      owns_goto_eq rfl rfl (congrArg MainPc.owns hmain).symm
    exact h.congr (howns.trans (owns_wakeWorkers s)) rfl h.sig
  | finish hmain =>
    have howns : (s.wakeWorkers.goto .test).owns = s.wakeWorkers.owns :=
      owns_goto_eq rfl rfl (congrArg MainPc.owns hmain).symm
    exact h.congr (howns.trans (owns_wakeWorkers s)) rfl h.sig
  | lock hmain hfree => exact h.acquire hfree (owns_goto rfl rfl) rfl rfl h.sig
  | @signal p w hmain hw =>
    have hmove : (s.move w .woken).owns = s.owns := owns_move_eq rfl rfl (by rw [hw]; rfl)
    have hgoto : ((s.move w .woken).goto (.unlock p)).owns = (s.move w .woken).owns :=
      owns_goto_eq rfl rfl (congrArg MainPc.owns hmain).symm
    exact h.congr (hgoto.trans hmove) rfl h.sig
  | unlock hmain =>
    have hown : s.owns none = true := by
      rw [owns, hmain]
      rfl
    exact h.release hown (owns_goto rfl rfl) rfl rfl h.sig
  | last hmain hmode =>
    exact h.congr (owns_goto_eq rfl rfl (by rw [hmain]; rfl)) rfl fun _ =>
      h.sig (by rw [hmode]; decide)
  | workerLoop hw | workerTest hw | workerCheck hw =>
    exact h.congr (owns_move_eq rfl rfl (by rw [hw]; split_ifs <;> rfl)) rfl h.sig
  | workerWake hw | workerPop hw | workerFail _ hw | workerServe _ hw | workerClose hw =>
    exact h.congr (owns_move_eq rfl rfl (by rw [hw]; rfl)) rfl h.sig
  | workerLock hw hfree | workerRelock hw hfree =>
    exact h.acquire hfree (owns_move rfl rfl) rfl rfl h.sig
  | @workerWait w hw | @workerLeave w hw | @workerUnlock w fd hw =>
    have hown : s.owns (some w) = true := by
      rw [owns, hw]
      rfl
    exact h.release hown (owns_move rfl rfl) rfl rfl h.sig
  | terminate | sigClose => exact ⟨h.mtx, fun _ => (by exact nofun)⟩

theorem mutex_of_run (hrun : Run (system d) tr s) : s.Locked := by
  refine hrun.induction (I := fun _ s => s.Locked) ?_ ?_
  · rintro s ⟨hmode, -, hmain, -, -, -, -, -, -, hmtx, hworker, -⟩
    refine ⟨fun t => ?_, fun hne => absurd hmode hne⟩
    rw [hmtx]
    cases t with
    | none => simp [owns, hmain, MainPc.owns]
    | some w => simp [owns, hworker, WorkerPc.owns]
  · exact fun _ _ _ _ _ h hs => h.step hs

end Locked

/-! ## The order of the requests -/

/-- The clients that have been inserted into the queue, the first one first. -/
def pushed : List (Action n) → List ℕ
  | [] => []
  | .push fd :: tr => pushed tr ++ [fd]
  | _ :: tr => pushed tr

/-- The descriptors that the workers have gone on to serve, with the worker, the first one first. -/
def served : List (Action n) → List (Fin n × ℤ)
  | [] => []
  | .serve w fd :: tr => served tr ++ [(w, fd)]
  | _ :: tr => served tr

/-- The clients in the queue are those that have been inserted and not served, each client has been
served once and in its turn, and what a worker is serving is the last that it has gone on to
serve. -/
structure Serves (tr : List (Action n)) (s : ServerThreads n) : Prop where
  fifo : (pushed tr).map (Nat.cast : ℕ → ℤ) = (served tr).map Prod.snd ++
    s.requestQueue.map Nat.cast
  last : ∀ w fd, s.worker w = .unlock fd ∨ s.worker w = .serve fd →
    ∃ front back, served tr = front ++ (w, fd) :: back ∧ ∀ x ∈ back, x.1 ≠ w

/-- A worker that has waited finds a client in the queue, or the server is to be closed. -/
def Refilled (s : ServerThreads n) (a : Action n) : Prop :=
  ∀ w, a = .worker w → s.worker w = .check true → s.mode ≠ .closeServer → s.requestQueue ≠ []

/-- The queue is not empty where a worker counts on it. -/
structure Fills (s : ServerThreads n) : Prop where
  check : ∀ w, s.worker w = .check false → s.mode = .closeServer ∨ s.requestQueue ≠ []
  pop : ∀ w, s.worker w = .pop → s.requestQueue ≠ []

section Served

variable {d : Descriptors n} {s s' : ServerThreads n} {a : Action n} {tr : List (Action n)}
  {w : Fin n} {c : WorkerPc} {m : MainPc}

/-- A step after which no other worker counts on the queue. -/
theorem Fills.keep (h : s.Fills) (hmode : s.mode = .closeServer → s'.mode = .closeServer)
    (hqueue : s.requestQueue ≠ [] → s'.requestQueue ≠ [])
    (hworker : ∀ w, s'.worker w = .check false ∨ s'.worker w = .pop → s'.worker w = s.worker w) :
    s'.Fills where
  check w hw := (h.check w ((hworker w (.inl hw)).symm.trans hw)).imp hmode hqueue
  pop w hw := hqueue (h.pop w ((hworker w (.inr hw)).symm.trans hw))

/-- A step of a worker to a point where it does not count on the queue. -/
theorem Fills.move (h : s.Fills) (hmode : s'.mode = s.mode)
    (hqueue : s'.requestQueue = s.requestQueue)
    (hworker : s'.worker = update s.worker w c) (hcheck : c ≠ .check false) (hpop : c ≠ .pop) :
    s'.Fills := by
  refine h.keep (fun hclose => hmode.trans hclose) (fun hne => hqueue ▸ hne) fun u hu => ?_
  rw [hworker] at hu ⊢
  by_cases huw : u = w
  · rw [huw, update_self] at hu
    exact absurd hu (not_or.2 ⟨hcheck, hpop⟩)
  · exact update_of_ne huw c s.worker

/-- The mutex is locked from the test of the queue to `list_pop_front`. -/
theorem Fills.step (h : s.Fills) (hlocked : s.Locked) (hrefilled : s.Refilled a)
    (hs : Step d s a s') :
    s'.Fills := by
  cases hs with
  | loop | join | select | passed | skip | accept | refuse | stop | restore | request | lock | quiet
  | unlock | again => exact h.keep id id fun _ _ => rfl
  | remove w res rest r table hat =>
    obtain ⟨hworker, -, hmode, -, -, -, hqueue⟩ := closeClient_eq s res.fdClient
    exact h.keep (fun hclose => hmode.trans hclose) (fun hne => hqueue.symm ▸ hne) fun u _ =>
      congrFun hworker u
  | wake hmain | finish hmain =>
    refine h.keep id id fun u hu => ?_
    change (if s.worker u = .asleep then WorkerPc.woken else s.worker u) = _ ∨
      (if s.worker u = .asleep then WorkerPc.woken else s.worker u) = _ at hu
    change (if s.worker u = .asleep then WorkerPc.woken else s.worker u) = s.worker u
    split_ifs at hu ⊢
    · exact absurd hu (by decide)
    · rfl
  | push hmain =>
    exact h.keep id (fun _ => List.append_ne_nil_of_right_ne_nil _ (by exact nofun)) fun _ _ => rfl
  | signal w hmain hw => exact h.move rfl rfl rfl (by exact nofun) (by exact nofun)
  | last hmain hmode => exact h.keep (fun _ => rfl) id fun _ _ => rfl
  | workerLoop hw =>
    refine h.move rfl rfl rfl ?_ ?_ <;> split_ifs <;> exact nofun
  | @workerTest w hw =>
    split_ifs with htest
    · exact h.move rfl rfl rfl (by exact nofun) (by exact nofun)
    · have hfull : s.mode = .closeServer ∨ s.requestQueue ≠ [] := by
        by_cases hmode : s.mode = .closeServer
        · exact .inl hmode
        · exact .inr fun hnil => htest ⟨hmode, hnil⟩
      refine ⟨fun u hu => hfull, fun u hu => ?_⟩
      change update s.worker w (.check false) u = .pop at hu
      by_cases huw : u = w
      · rw [huw, update_self] at hu
        cases hu
      · rw [update_of_ne huw] at hu
        exact h.pop u hu
  | @workerCheck w waited hw =>
    split_ifs with hmode
    · exact h.move rfl rfl rfl (by exact nofun) (by exact nofun)
    · have hfull : s.requestQueue ≠ [] := by
        cases waited with
        | false => exact (h.check w hw).resolve_left hmode
        | true => exact hrefilled w rfl hw hmode
      refine ⟨fun u hu => .inr hfull, fun u hu => hfull⟩
  | @workerPop w fd rest hw hqueue =>
    -- no other worker has locked the mutex
    have hothers : ∀ u c, c.owns = true → update s.worker w (.unlock fd) u = c →
        c = .unlock fd := by
      intro u c hc hu
      by_cases huw : u = w
      · rw [huw, update_self] at hu
        exact hu.symm
      · rw [update_of_ne huw] at hu
        have hown : s.owns (some w) = true := by rw [owns, hw]; rfl
        have hown' : s.owns (some u) = true := by rw [owns, hu]; exact hc
        exact absurd (Option.some.inj (hlocked.mtx.unique hown' hown)) huw
    exact ⟨fun u hu => (by cases hothers u _ rfl hu), fun u hu => (by cases hothers u _ rfl hu)⟩
  | workerLock | workerWait | workerWake | workerRelock | workerLeave | workerFail | workerUnlock
  | workerServe | workerClose => exact h.move rfl rfl rfl (by exact nofun) (by exact nofun)
  | terminate mode hsig =>
    exact h.keep (fun hclose => absurd hsig (hlocked.sig (by rw [hclose]; decide))) id fun _ _ =>
      rfl
  | sigClose => exact h.keep id id fun _ _ => rfl

/-- A step of a worker to a point where it does not serve, or of another thread. -/
theorem Serves.keep (h : Serves tr s) (hpushed : pushed (a :: tr) = pushed tr)
    (hserved : served (a :: tr) = served tr) (hqueue : s'.requestQueue = s.requestQueue)
    (hworker : ∀ w fd, s'.worker w = .unlock fd ∨ s'.worker w = .serve fd →
      s.worker w = .unlock fd ∨ s.worker w = .serve fd) : Serves (a :: tr) s' where
  fifo := by
    rw [hpushed, hserved, hqueue]
    exact h.fifo
  last w fd hw := hserved ▸ h.last w fd (hworker w fd hw)

/-- A step of a worker that does not go on to serve. -/
theorem Serves.move (h : Serves tr s) (hqueue : s'.requestQueue = s.requestQueue)
    (hworker : s'.worker = update s.worker w c) (hunlock : ∀ fd, c ≠ .unlock fd)
    (hserve : ∀ fd, c ≠ .serve fd) : Serves (.worker w :: tr) s' := by
  refine h.keep rfl rfl hqueue fun u fd hu => ?_
  rw [hworker] at hu
  by_cases huw : u = w
  · rw [huw, update_self] at hu
    exact absurd hu (not_or.2 ⟨hunlock fd, hserve fd⟩)
  · rwa [update_of_ne huw] at hu

/-- What a step leaves of the order, if no worker counts on the queue in vain. -/
theorem Serves.step (h : Serves tr s) (hfills : s.Fills) (hs : Step d s a s') :
    Serves (a :: tr) s' := by
  cases hs with
  | loop | join | select | passed | skip | accept | refuse | stop | restore | request | lock | quiet
  | unlock | again | last | terminate | sigClose => exact h.keep rfl rfl rfl fun _ _ => id
  | remove w res rest r table hat =>
    obtain ⟨hworker, -, -, -, -, -, hqueue⟩ := closeClient_eq s res.fdClient
    exact h.keep rfl rfl hqueue fun u fd hu => hworker ▸ hu
  | wake hmain | finish hmain =>
    refine h.keep rfl rfl rfl fun u fd hu => ?_
    change (if s.worker u = .asleep then WorkerPc.woken else s.worker u) = _ ∨
      (if s.worker u = .asleep then WorkerPc.woken else s.worker u) = _ at hu
    split_ifs at hu with hasleep
    · exact absurd hu (not_or.2 ⟨(by exact nofun), (by exact nofun)⟩)
    · exact hu
  | @push p hmain =>
    refine ⟨?_, h.last⟩
    change (pushed tr ++ [p.i]).map _ = _ ++ (s.requestQueue ++ [p.i]).map _
    rw [List.map_append, List.map_append, h.fifo, List.append_assoc]
    rfl
  | @signal p w hmain hw =>
    refine h.keep rfl rfl rfl fun u fd hu => ?_
    change update s.worker w .woken u = _ ∨ update s.worker w .woken u = _ at hu
    by_cases huw : u = w
    · rw [huw, update_self] at hu
      exact absurd hu (not_or.2 ⟨(by exact nofun), (by exact nofun)⟩)
    · rwa [update_of_ne huw] at hu
  | @workerPop w fd rest hw hqueue =>
    refine ⟨?_, fun u fd' hu => ?_⟩
    · change (pushed tr).map _ = (served tr ++ [(w, (fd : ℤ))]).map Prod.snd ++ rest.map _
      rw [h.fifo, hqueue, List.map_append, List.append_assoc]
      rfl
    · change update s.worker w (.unlock fd) u = _ ∨ update s.worker w (.unlock fd) u = _ at hu
      by_cases huw : u = w
      · rw [huw, update_self] at hu
        have hfd : (fd : ℤ) = fd' := by
          rcases hu with hu | hu <;> cases hu
          rfl
        exact ⟨served tr, [], by rw [huw, ← hfd]; rfl, fun x hx => by cases hx⟩
      · rw [update_of_ne huw] at hu
        obtain ⟨front, back, hserved, hback⟩ := h.last u fd' hu
        refine ⟨front, back ++ [(w, (fd : ℤ))], ?_, fun x hx => ?_⟩
        · change served tr ++ [(w, (fd : ℤ))] = _
          rw [hserved, List.append_assoc]
          rfl
        · rcases List.mem_append.1 hx with hx | hx
          · exact hback x hx
          · rw [List.mem_singleton.1 hx]
            exact Ne.symm huw
  | workerFail fd hw hqueue => exact absurd hqueue (hfills.pop _ hw)
  | @workerUnlock w fd hw =>
    refine h.keep rfl rfl rfl fun u fd' hu => ?_
    change update s.worker w (.serve fd) u = _ ∨ update s.worker w (.serve fd) u = _ at hu
    by_cases huw : u = w
    · rw [huw, update_self] at hu
      rcases hu with hu | hu <;> cases hu
      exact .inl (huw ▸ hw)
    · rwa [update_of_ne huw] at hu
  | workerLoop hw | workerTest hw | workerCheck hw =>
    refine h.move rfl rfl (fun fd => ?_) fun fd => ?_ <;> split_ifs <;> exact nofun
  | workerLock | workerWait | workerWake | workerRelock | workerLeave | workerServe | workerClose =>
    exact h.move rfl rfl (by exact nofun) (by exact nofun)

/-- If no worker that has waited finds the queue empty, none counts on it in vain. -/
theorem fills_of_run (hrun : Run ((system d).restrict Refilled) tr s) : s.Fills := by
  refine hrun.induction (I := fun _ s => s.Fills) ?_ ?_
  · rintro s ⟨-, -, -, -, -, -, -, -, -, -, hworker, -⟩
    refine ⟨fun w hw => ?_, fun w hw => ?_⟩ <;>
      exact absurd ((hworker w).symm.trans hw) (by exact nofun)
  · rintro tr s a s' hrun h ⟨hrefilled, hs⟩
    exact h.step (mutex_of_run hrun.of_restrict) hrefilled hs

/-- If no worker that has waited finds the queue empty, every request is served once and in its
turn, and no worker serves a descriptor that it has not taken from the queue. -/
theorem served_of_run (hrun : Run ((system d).restrict Refilled) tr s) : Serves tr s := by
  refine hrun.induction (I := fun tr s => Serves tr s) ?_ ?_
  · rintro s ⟨-, -, -, -, -, -, -, -, hqueue, -, hworker, -⟩
    refine ⟨?_, fun w fd hw => ?_⟩
    · rw [hqueue]
      rfl
    · rw [hworker w] at hw
      exact absurd hw (not_or.2 ⟨(by exact nofun), (by exact nofun)⟩)
  · rintro tr s a s' hrun h ⟨-, hs⟩
    exact h.step (fills_of_run hrun) hs

end Served

/-! ## Two workers -/

section TwoWorkers

variable {s : ServerThreads n} {a : Action n} {w : Fin n}

theorem refilled_of_ne (h : s.worker w ≠ .check true) : s.Refilled (.worker w) := by
  intro u hu
  cases hu
  exact fun hw => absurd hw h

theorem refilled_of_queue (h : s.requestQueue ≠ []) : s.Refilled a :=
  fun _ _ _ _ => h

theorem refilled_of_action (h : ∀ w, a ≠ .worker w) : s.Refilled a :=
  fun w ha => absurd ha (h w)

/-- Descriptors for two workers. -/
def twoWorkers : Descriptors 2 where
  listen := 0
  sigPipe := 1
  workerPipe w := w + 2
  injective u w h := Fin.ext (Nat.add_right_cancel h)
  listen_ne_sig := by decide
  worker_ne_listen := by decide
  worker_ne_sig := by decide
  lt := by decide

/-- Before the loop. -/
def twoWorkersInit : ServerThreads 2 :=
  ⟨.acceptConn, .wait, .test, twoWorkers.set, twoWorkers.fdMax,
    ⟨8, 0, List.replicate 8 [], defaultHashtblHash⟩, 0, {0, 1, 2, 3}, [], none, fun _ => .loop,
    fun _ => []⟩

theorem init_twoWorkersInit : (system twoWorkers).init twoWorkersInit :=
  ⟨rfl, rfl, rfl, rfl, rfl, rfl, rfl, by decide, rfl, rfl, fun _ => rfl, fun _ => rfl⟩

/-- The first worker has slept until the main thread has inserted a client. -/
def twoWorkersWoken : ServerThreads 2 :=
  ⟨.acceptConn, .wait, .pass ⟨5, {4}, [4]⟩, twoWorkers.set, 3,
    hashtblInsertNode ⟨8, 0, List.replicate 8 [], defaultHashtblHash⟩ (4 : ℕ), 1, {0, 1, 2, 3, 4},
    [4], none, fun w => if w = 0 then .woken else .loop, fun _ => []⟩

theorem run_twoWorkersWoken : ∃ tr, Run ((system twoWorkers).restrict Refilled) tr twoWorkersWoken ∧
    pushed tr = [4] ∧ served tr = [] := by
  have hmain : ∀ {s : ServerThreads 2}, s.Refilled .main := refilled_of_action (by exact nofun)
  have hstart : Run ((system twoWorkers).restrict Refilled) [] twoWorkersInit :=
    .start init_twoWorkersInit
  -- the first worker goes to sleep
  have hasleep := (((hstart.step ⟨refilled_of_ne (by decide), .workerLoop (w := 0) rfl⟩).step
    ⟨refilled_of_ne (by decide), .workerLock (w := 0) rfl rfl⟩).step
    ⟨refilled_of_ne (by decide), .workerTest (w := 0) rfl⟩).step
    ⟨refilled_of_ne (by decide), .workerWait (w := 0) rfl⟩
  -- a client connects
  have haccept := ((hasleep.step ⟨hmain, .loop rfl (by decide)⟩).step
    ⟨hmain, .select {0} rfl (by decide) fun i hi => by
      obtain rfl := Finset.mem_singleton.1 hi
      exact ⟨by decide, by decide⟩⟩).step
    ⟨hmain, .accept 4 .all _ ⟨rfl, by decide, by decide⟩ rfl rfl (by decide) (by decide)
      (hashtblInsert_of_not_full (by decide) _)⟩
  have hagain := (((((haccept.step ⟨hmain, .skip rfl (by decide) (by decide)⟩).step
    ⟨hmain, .skip rfl (by decide) (by decide)⟩).step
      ⟨hmain, .skip rfl (by decide) (by decide)⟩).step
    ⟨hmain, .skip rfl (by decide) (by decide)⟩).step ⟨hmain, .passed rfl (by decide)⟩).step
    ⟨hmain, .again rfl (by decide)⟩
  -- it sends a request
  have hselect := (hagain.step ⟨hmain, .loop rfl (by decide)⟩).step
    ⟨hmain, .select {4} rfl (by decide) fun i hi => by
      obtain rfl := Finset.mem_singleton.1 hi
      exact ⟨by decide, by decide⟩⟩
  have hrequest := (((((hselect.step ⟨hmain, .skip rfl (by decide) (by decide)⟩).step
    ⟨hmain, .skip rfl (by decide) (by decide)⟩).step
      ⟨hmain, .skip rfl (by decide) (by decide)⟩).step
    ⟨hmain, .skip rfl (by decide) (by decide)⟩).step
    ⟨hmain, .request ⟨rfl, by decide, by decide⟩ (by decide) (by decide) (by decide)⟩)
  have hpush := (hrequest.step ⟨hmain, .lock rfl rfl⟩).step
    ⟨refilled_of_action (by exact nofun), .push rfl⟩
  have hunlock := (hpush.step ⟨hmain, .signal 0 rfl rfl⟩).step ⟨hmain, .unlock rfl (by decide)⟩
  obtain ⟨tr, s, hrun, hs, hpushed, hserved⟩ : ∃ tr s,
      Run ((system twoWorkers).restrict Refilled) tr s ∧ s = twoWorkersWoken ∧ pushed tr = [4] ∧
        served tr = [] := by
    have hconn : toUInt ((0 : ℕ) + 1) = 1 := @toUInt_of_range 1 (by decide)
    refine ⟨_, _, hunlock, ServerThreads.ext rfl rfl rfl (by decide) (by decide) rfl hconn
      (by decide) rfl rfl ?_ rfl, rfl, rfl⟩
    funext w
    revert w
    decide
  exact ⟨tr, hs ▸ hrun, hpushed, hserved⟩

/-- An example of `served_of_run` : the worker that has been woken takes the client. -/
theorem served_of_run_two : ∃ tr s, Run ((system twoWorkers).restrict Refilled) tr s ∧
    pushed tr = [4] ∧ served tr = [(0, 4)] ∧ s.worker 0 = .serve 4 ∧ Serves tr s := by
  obtain ⟨tr, hrun, hpushed, hserved⟩ := run_twoWorkersWoken
  have hcheck := (hrun.step ⟨refilled_of_ne (by decide), .workerRelock (w := 0) rfl rfl⟩).step
    ⟨refilled_of_queue (by decide), .workerCheck (w := 0) rfl⟩
  have hserve := (hcheck.step ⟨refilled_of_queue (by decide), .workerPop (w := 0) rfl rfl⟩).step
    ⟨refilled_of_ne (by decide), .workerUnlock (w := 0) rfl⟩
  refine ⟨_, _, hserve, hpushed, ?_, rfl, ?_⟩
  · exact congrArg (· ++ [(0, 4)]) hserved
  · exact served_of_run hserve

/-- A worker need not find a client after it has waited : the other one has taken it before. -/
theorem not_served_of_run : ¬∀ (n : ℕ) (d : Descriptors n) (tr : List (Action n))
    (s : ServerThreads n), Run (system d) tr s → Serves tr s := by
  intro hall
  obtain ⟨tr, hrun, hpushed, hserved⟩ := run_twoWorkersWoken
  have hother := ((((((hrun.of_restrict.step (.workerLoop (w := 1) rfl)).step
    (.workerLock (w := 1) rfl rfl)).step (.workerTest (w := 1) rfl)).step
    (.workerCheck (w := 1) rfl)).step (.workerPop (w := 1) rfl rfl)).step
    (.workerUnlock (w := 1) rfl))
  have hfail := ((hother.step (.workerRelock (w := 0) rfl rfl)).step
    (.workerCheck (w := 0) rfl)).step (.workerFail (w := 0) 7 rfl rfl)
  have hfifo := congrArg List.length (hall 2 twoWorkers _ _ hfail).fifo
  simp [pushed, served, hpushed, hserved] at hfifo

end TwoWorkers

end ServerThreads

end StorageServer
