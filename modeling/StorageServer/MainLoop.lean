import Mathlib.Data.Finset.Image
import Mathlib.Data.Fintype.Basic
import StorageServer.Lib.Threads
import StorageServer.Lib.Transition
import StorageServer.Worker

/-!
# The threads of the server

The main loop of `server.c`, the loop of `worker_thread` (`workers.c`) and the thread of
`sig_handler.c`, step by step : each step reads or sets the mode, locks or unlocks
`request_queue_mtx`, waits for `request_queue_nonempty` or signals it, changes the queue, or takes
the case of one descriptor. A request is served in one step, up to the result in the pipe of the
worker. Where the code leaves `main` on an error, or writes outside an `fd_set`, there is no step.

In a pass over the descriptors `fd_max` is always the largest one in `set`, and the descriptors
that are still to be examined are in it. So a pass that is not left for a signal examines every
descriptor that `select` has reported (`examined_of_run`). The set never gets empty
(`fdMax_of_run`).
-/

open Function Transitions

namespace StorageServer

/-- `server_mode_t`. -/
inductive ServerMode
  | acceptConn
  | refuseConn
  | closeServer
  deriving DecidableEq, Repr

/-- `worker_res_t`. -/
structure WorkerRes where
  code : WorkerCode
  fdClient : ℤ
  deriving DecidableEq, Repr

/-- Where a worker is. -/
inductive WorkerPc
  /-- At the condition of the loop. -/
  | loop
  /-- To lock `request_queue_mtx`. -/
  | lock
  /-- At the test of the mode and of the queue. -/
  | test
  /-- At `cond_wait`. -/
  | wait
  /-- Waits on `request_queue_nonempty` without a signal. -/
  | asleep
  /-- Has been woken, and is to lock `request_queue_mtx` again. -/
  | woken
  /-- At the second test of the mode, after a wait or without one. -/
  | check (waited : Bool)
  /-- To unlock `request_queue_mtx` and to leave the loop. -/
  | leave
  /-- At `list_pop_front`. -/
  | pop
  /-- To unlock `request_queue_mtx`. -/
  | unlock (fd : ℤ)
  /-- Serves a client. -/
  | serve (fd : ℤ)
  /-- To close its end of the pipe. -/
  | close
  | done
  deriving DecidableEq, Repr

/-- A pass over the descriptors. -/
structure Pass where
  i : ℕ
  tmpset : Finset ℕ
  /-- The descriptors that have been examined. -/
  seen : List ℕ
  deriving DecidableEq

namespace Pass

/-- The next descriptor. -/
def next (p : Pass) : Pass :=
  { p with i := p.i + 1 }

/-- The next descriptor, after one that has been examined. -/
def examined (p : Pass) : Pass :=
  { p with i := p.i + 1, seen := p.i :: p.seen }

end Pass

/-- Where the main thread is. -/
inductive MainPc
  /-- At the condition of the loop. -/
  | test
  /-- At `select`. -/
  | select
  | pass (p : Pass)
  /-- To lock `request_queue_mtx`, for the request of a client. -/
  | lock (p : Pass)
  /-- To insert the client into the queue. -/
  | push (p : Pass)
  /-- To signal `request_queue_nonempty`. -/
  | signal (p : Pass)
  /-- To unlock the mutex, and to remove the client from the set. -/
  | unlock (p : Pass)
  /-- To wake the workers, and to break the pass. -/
  | wake (p : Pass)
  /-- Behind the pass. -/
  | passed (p : Pass)
  /-- To wake the workers, as there are no more connections. -/
  | finish
  /-- Behind the loop. -/
  | join
  deriving DecidableEq

/-- The pass that the main thread is in. -/
def MainPc.pass? : MainPc → Option Pass
  | .pass p | .lock p | .push p | .signal p | .unlock p => some p
  | _ => none

/-- The pass in which the main thread serves the request of a client. -/
def MainPc.request? : MainPc → Option Pass
  | .lock p | .push p | .signal p | .unlock p => some p
  | _ => none

/-- Where the thread of the signals is. -/
inductive SigPc
  | wait
  /-- To close its end of the pipe. -/
  | close
  | done
  deriving DecidableEq, Repr

/-- The descriptors that are opened before the loop. -/
structure Descriptors (n : ℕ) where
  listen : ℕ
  sigPipe : ℕ
  workerPipe : Fin n → ℕ
  injective : Injective workerPipe
  listen_ne_sig : listen ≠ sigPipe
  worker_ne_listen : ∀ w, workerPipe w ≠ listen
  worker_ne_sig : ∀ w, workerPipe w ≠ sigPipe
  lt : listen < fdSetSize ∧ sigPipe < fdSetSize ∧ ∀ w, workerPipe w < fdSetSize

namespace Descriptors

variable {n : ℕ} (d : Descriptors n)

/-- The master set before the loop. -/
def set : Finset ℕ :=
  insert d.listen (insert d.sigPipe (Finset.univ.image d.workerPipe))

/-- `fd_max` before the loop. -/
def fdMax : ℤ :=
  let fdMax := (List.ofFn d.workerPipe).foldl
    (fun (m : ℤ) (p : ℕ) => if m < p then (p : ℤ) else m) (d.sigPipe : ℤ)
  if fdMax < (d.listen : ℤ) then (d.listen : ℤ) else fdMax

end Descriptors

/-- `update_max`, from `i` downwards. -/
def updateMax (set : Finset ℕ) : ℕ → ℤ
  | 0 => if 0 ∈ set then 0 else -1
  | i + 1 => if i + 1 ∈ set then i + 1 else updateMax set i

/-- The threads with what they share. -/
@[ext] structure ServerThreads (n : ℕ) where
  mode : ServerMode
  sig : SigPc
  main : MainPc
  set : Finset ℕ
  fdMax : ℤ
  connClientTable : HashTbl
  /-- `curr_state.conn`. -/
  conn : ℕ
  /-- The descriptors that are open in the process. -/
  opened : Finset ℤ
  requestQueue : List ℕ
  /-- The owner of `request_queue_mtx`, a worker or the main thread. -/
  mtx : Option (Option (Fin n))
  worker : Fin n → WorkerPc
  /-- The results in the pipes. -/
  pipe : Fin n → List WorkerRes

/-- What a step does. -/
inductive Action (n : ℕ)
  | main
  /-- A client is inserted into the queue. -/
  | push (fd : ℕ)
  | worker (w : Fin n)
  /-- A worker goes on to serve a descriptor. -/
  | serve (w : Fin n) (fd : ℤ)
  /-- A signal sets the mode. -/
  | terminate (mode : ServerMode)
  | sig
  deriving DecidableEq

namespace ServerThreads

variable {n : ℕ}

/-- The main thread goes on. -/
def goto (s : ServerThreads n) (c : MainPc) : ServerThreads n :=
  { s with main := c }

/-- A worker goes on. -/
def move (s : ServerThreads n) (w : Fin n) (c : WorkerPc) : ServerThreads n :=
  { s with worker := update s.worker w c }

/-- `FD_SET`, and `fd_max` with it. -/
def fdSet (s : ServerThreads n) (fd : ℕ) : ServerThreads n :=
  { s with set := insert fd s.set, fdMax := if s.fdMax < fd then fd else s.fdMax }

/-- `FD_CLR`, and `fd_max` with it. -/
def fdClr (s : ServerThreads n) (i : ℕ) : ServerThreads n :=
  { s with
    set := s.set.erase i
    fdMax := if i = s.fdMax then updateMax (s.set.erase i) i else s.fdMax }

/-- What `close_client` does besides the files. -/
def closeClient (s : ServerThreads n) (fdClient : ℤ) : ServerThreads n :=
  if fdClient = -1 then s
  else { s with opened := s.opened.erase fdClient, conn := toUInt (s.conn - 1) }

/-- `pthread_cond_broadcast`. -/
def wakeWorkers (s : ServerThreads n) : ServerThreads n :=
  { s with worker := fun w => if s.worker w = .asleep then .woken else s.worker w }

/-- The main thread is to examine a descriptor. -/
structure At (s : ServerThreads n) (p : Pass) : Prop where
  main : s.main = .pass p
  le : p.i ≤ s.fdMax
  mem : p.i ∈ p.tmpset

/-- A descriptor that `select` may report : a pipe has to hold something or to be closed. -/
def Ready (d : Descriptors n) (s : ServerThreads n) (i : ℕ) : Prop :=
  (i = d.sigPipe → s.sig = .done) ∧ ∀ w, i = d.workerPipe w → s.pipe w ≠ [] ∨ s.worker w = .done

/-- What the main thread reads from a pipe : the next result, or, if the worker has closed its end,
whatever the variable holds. -/
def Reads (s : ServerThreads n) (w : Fin n) (res : WorkerRes) (rest : List WorkerRes) : Prop :=
  s.pipe w = res :: rest ∨ s.pipe w = [] ∧ s.worker w = .done ∧ rest = []

/-- The steps of the threads. -/
inductive Step (d : Descriptors n) : ServerThreads n → Action n → ServerThreads n → Prop
  | loop {s} (h : s.main = .test) (hmode : s.mode ≠ .closeServer) : Step d s .main (s.goto .select)
  | join {s} (h : s.main = .test) (hmode : s.mode = .closeServer) : Step d s .main (s.goto .join)
  | select {s} (tmpset) (h : s.main = .select) (hsub : tmpset ⊆ s.set)
      (hready : ∀ i ∈ tmpset, Ready d s i) : Step d s .main (s.goto (.pass ⟨0, tmpset, []⟩))
  | passed {s p} (h : s.main = .pass p) (hi : s.fdMax < (p.i : ℤ)) :
      Step d s .main (s.goto (.passed p))
  /-- The descriptor is not set. -/
  | skip {s p} (h : s.main = .pass p) (hi : (p.i : ℤ) ≤ s.fdMax) (hset : p.i ∉ p.tmpset) :
      Step d s .main (s.goto (.pass p.next))
  /-- A new connection. -/
  | accept {s p} (fd : ℕ) (granted : Granted) (table) (h : s.At p) (hlisten : p.i = d.listen)
      (hmode : s.mode = .acceptConn) (hfd : (fd : ℤ) ∉ s.opened) (hlt : fd < fdSetSize)
      (hinsert : hashtblInsert granted s.connClientTable fd = (0, table)) :
      Step d s .main { (s.fdSet fd).goto (.pass p.examined) with
        conn := toUInt (s.conn + 1), connClientTable := table, opened := insert ↑fd s.opened }
  /-- The pipe of the signals, if no more connections are accepted. -/
  | refuse {s p} (h : s.At p) (hsig : p.i = d.sigPipe) (hmode : s.mode ≠ .closeServer) :
      Step d s .main (s.goto (.pass p.examined))
  /-- The pipe of the signals, if the server is to be closed. -/
  | stop {s p} (h : s.At p) (hsig : p.i = d.sigPipe) (hmode : s.mode = .closeServer) :
      Step d s .main (s.goto (.wake p.examined))
  | wake {s p} (h : s.main = .wake p) : Step d s .main (s.wakeWorkers.goto (.passed p))
  /-- `MW_SUCCESS` and `MW_NON_FATAL_ERROR`. -/
  | restore {s p} (w) (res : WorkerRes) (rest) (fd : ℕ) (h : s.At p) (hpipe : p.i = d.workerPipe w)
      (hread : s.Reads w res rest) (hcode : res.code = .success ∨ res.code = .nonFatalError)
      (hfd : res.fdClient = fd) (hlt : fd < fdSetSize) :
      Step d s .main { (s.fdSet fd).goto (.pass p.examined) with pipe := update s.pipe w rest }
  /-- `MW_CLOSE` and `MW_FATAL_ERROR`. -/
  | remove {s p} (w) (res : WorkerRes) (rest) (r table) (h : s.At p) (hpipe : p.i = d.workerPipe w)
      (hread : s.Reads w res rest) (hcode : res.code = .close ∨ res.code = .fatalError)
      (hremove : hashtblRemove s.connClientTable res.fdClient = some (r, table)) :
      Step d s .main { (s.closeClient res.fdClient).goto (.pass p.examined) with
        pipe := update s.pipe w rest, connClientTable := table }
  /-- The request of a client. -/
  | request {s p} (h : s.At p) (hlisten : p.i = d.listen → s.mode ≠ .acceptConn)
      (hsig : p.i ≠ d.sigPipe) (hpipe : ∀ w, p.i ≠ d.workerPipe w) :
      Step d s .main (s.goto (.lock p))
  | lock {s p} (h : s.main = .lock p) (hmtx : s.mtx = none) :
      Step d s .main { s.goto (.push p) with mtx := some none }
  | push {s p} (h : s.main = .push p) :
      Step d s (.push p.i) { s.goto (.signal p) with requestQueue := s.requestQueue ++ [p.i] }
  | signal {s p} (w) (h : s.main = .signal p) (hw : s.worker w = .asleep) :
      Step d s .main ((s.move w .woken).goto (.unlock p))
  /-- A signal that no worker waits for. -/
  | quiet {s p} (h : s.main = .signal p) (hw : ∀ w, s.worker w ≠ .asleep) :
      Step d s .main (s.goto (.unlock p))
  | unlock {s p} (h : s.main = .unlock p) (hmax : (s.fdClr p.i).fdMax ≠ -1) :
      Step d s .main { (s.fdClr p.i).goto (.pass p.examined) with mtx := none }
  | again {s p} (h : s.main = .passed p)
      (hmode : ¬(s.mode = .refuseConn ∧ s.connClientTable.nelem = 0)) :
      Step d s .main (s.goto .test)
  /-- No more connections. -/
  | last {s p} (h : s.main = .passed p) (hmode : s.mode = .refuseConn)
      (hnelem : s.connClientTable.nelem = 0) :
      Step d s .main { s.goto .finish with mode := .closeServer }
  | finish {s} (h : s.main = .finish) : Step d s .main (s.wakeWorkers.goto .test)
  | workerLoop {s w} (h : s.worker w = .loop) :
      Step d s (.worker w) (s.move w (if s.mode = .closeServer then .close else .lock))
  | workerLock {s w} (h : s.worker w = .lock) (hmtx : s.mtx = none) :
      Step d s (.worker w) { s.move w .test with mtx := some (some w) }
  | workerTest {s w} (h : s.worker w = .test) :
      Step d s (.worker w) (s.move w
        (if s.mode ≠ .closeServer ∧ s.requestQueue = [] then .wait else .check false))
  | workerWait {s w} (h : s.worker w = .wait) :
      Step d s (.worker w) { s.move w .asleep with mtx := none }
  /-- `cond_wait` may end without a signal. -/
  | workerWake {s w} (h : s.worker w = .asleep) : Step d s (.worker w) (s.move w .woken)
  | workerRelock {s w} (h : s.worker w = .woken) (hmtx : s.mtx = none) :
      Step d s (.worker w) { s.move w (.check true) with mtx := some (some w) }
  | workerCheck {s w waited} (h : s.worker w = .check waited) :
      Step d s (.worker w) (s.move w (if s.mode = .closeServer then .leave else .pop))
  | workerLeave {s w} (h : s.worker w = .leave) :
      Step d s (.worker w) { s.move w .close with mtx := none }
  | workerPop {s w} {fd : ℕ} {rest} (h : s.worker w = .pop) (hqueue : s.requestQueue = fd :: rest) :
      Step d s (.serve w fd) { s.move w (.unlock fd) with requestQueue := rest }
  /-- `list_pop_front` fails, and `fd_client` keeps whatever it holds. -/
  | workerFail {s w} (fd : ℤ) (h : s.worker w = .pop) (hqueue : s.requestQueue = []) :
      Step d s (.serve w fd) (s.move w (.unlock fd))
  | workerUnlock {s w fd} (h : s.worker w = .unlock fd) :
      Step d s (.worker w) { s.move w (.serve fd) with mtx := none }
  | workerServe {s w fd} (code) (h : s.worker w = .serve fd) :
      Step d s (.worker w)
        { s.move w .loop with pipe := update s.pipe w (s.pipe w ++ [⟨code, fd⟩]) }
  | workerClose {s w} (h : s.worker w = .close) : Step d s (.worker w) (s.move w .done)
  /-- `SIGINT` and `SIGQUIT`, or `SIGHUP`. -/
  | terminate {s} (mode) (h : s.sig = .wait) (hmode : mode ≠ .acceptConn) :
      Step d s (.terminate mode) { s with mode := mode, sig := .close }
  | sigClose {s} (h : s.sig = .close) : Step d s .sig { s with sig := .done }

/-- The server from the start of the main loop on. -/
def system (d : Descriptors n) : System (ServerThreads n) (Action n) where
  init s := s.mode = .acceptConn ∧ s.sig = .wait ∧ s.main = .test ∧ s.set = d.set ∧
    s.fdMax = d.fdMax ∧ s.connClientTable = ⟨8, 0, List.replicate 8 [], defaultHashtblHash⟩ ∧
    s.conn = 0 ∧ (∀ i ∈ d.set, (i : ℤ) ∈ s.opened) ∧ s.requestQueue = [] ∧ s.mtx = none ∧
    (∀ w, s.worker w = .loop) ∧ ∀ w, s.pipe w = []
  step := Step d

/-! ## The set and its largest descriptor -/

/-- `m` is the largest descriptor in the set. -/
structure Largest (set : Finset ℕ) (m : ℤ) : Prop where
  mem : ∃ i ∈ set, m = (i : ℕ)
  le : ∀ i ∈ set, (i : ℤ) ≤ m

/-- `fd_max` is the largest descriptor in the set, and the descriptors of a pass that are still to
be examined are in it. -/
structure Scans (s : ServerThreads n) : Prop where
  largest : Largest s.set s.fdMax
  ahead : ∀ p, s.main.pass? = some p → ∀ j ∈ p.tmpset, j ∈ p.seen ∨ p.i ≤ j ∧ j ∈ s.set

section Scans

variable {d : Descriptors n} {s s' : ServerThreads n} {a : Action n} {tr : List (Action n)}
  {p : Pass}
  {set : Finset ℕ} {i : ℕ} {m : ℤ}

/-- `update_max` finds the largest descriptor that is not larger than `i`. -/
theorem updateMax_cases (set : Finset ℕ) (i : ℕ) :
    (updateMax set i = -1 ∧ ∀ j ∈ set, i < j) ∨
      ∃ m ∈ set, updateMax set i = (m : ℕ) ∧ ∀ j ∈ set, j ≤ i → j ≤ m := by
  induction i with
  | zero =>
    rw [updateMax]
    split_ifs with h
    · exact .inr ⟨0, h, rfl, fun j _ hj => hj⟩
    · exact .inl ⟨rfl, fun j hj => Nat.pos_of_ne_zero fun h0 => h (h0 ▸ hj)⟩
  | succ i ih =>
    rw [updateMax]
    split_ifs with h
    · exact .inr ⟨i + 1, h, rfl, fun j _ hj => hj⟩
    · have hne : ∀ j ∈ set, j ≠ i + 1 := fun j hj hji => h (hji ▸ hj)
      rcases ih with ⟨hnone, hlt⟩ | ⟨m, hm, hmax, hle⟩
      · exact .inl ⟨hnone, fun j hj => by have := hlt j hj; have := hne j hj; omega⟩
      · exact .inr ⟨m, hm, hmax, fun j hj hji => hle j hj (by have := hne j hj; omega)⟩

theorem Largest.insert (h : Largest set m) (i : ℕ) :
    Largest (insert i set) (if m < i then i else m) := by
  obtain ⟨⟨k, hk, rfl⟩, hle⟩ := h
  split_ifs with hlt
  · refine ⟨⟨i, Finset.mem_insert_self i set, rfl⟩, fun j hj => ?_⟩
    rcases Finset.mem_insert.1 hj with rfl | hj
    · exact Int.le_refl _
    · have := hle j hj
      omega
  · refine ⟨⟨k, Finset.mem_insert_of_mem hk, rfl⟩, fun j hj => ?_⟩
    rcases Finset.mem_insert.1 hj with rfl | hj
    · omega
    · exact hle j hj

/-- `fd_max` is brought up to date if the largest descriptor is removed. -/
theorem Largest.erase (h : Largest set m) (i : ℕ)
    (hne : (if (i : ℤ) = m then updateMax (set.erase i) i else m) ≠ -1) :
    Largest (set.erase i) (if (i : ℤ) = m then updateMax (set.erase i) i else m) := by
  obtain ⟨⟨k, hk, rfl⟩, hle⟩ := h
  have hsub : ∀ j ∈ set.erase i, (j : ℤ) ≤ k := fun j hj => hle j (Finset.mem_of_mem_erase hj)
  split_ifs at hne ⊢ with hik
  · rcases updateMax_cases (set.erase i) i with ⟨hnone, -⟩ | ⟨m, hm, hmax, hle'⟩
    · exact absurd hnone hne
    · refine ⟨⟨m, hm, hmax⟩, fun j hj => ?_⟩
      have hjk := hsub j hj
      have hjm := hle' j hj (by omega)
      omega
  · exact ⟨⟨k, Finset.mem_erase.2 ⟨fun hki => hik (by omega), hk⟩, rfl⟩, hsub⟩

theorem Largest.foldl (h : Largest set m) (ps : List ℕ) : Largest (set ∪ ps.toFinset)
    (ps.foldl (fun (m : ℤ) (p : ℕ) => if m < p then (p : ℤ) else m) m) := by
  induction ps generalizing set m with
  | nil => rwa [List.toFinset_nil, Finset.union_empty]
  | cons p ps ih =>
    rw [List.foldl_cons, List.toFinset_cons, Finset.union_insert, ← Finset.insert_union]
    exact ih (h.insert p)

/-- `fd_max` before the loop. -/
theorem largest_fdMax (d : Descriptors n) : Largest d.set d.fdMax := by
  have hsig : Largest {d.sigPipe} d.sigPipe :=
    ⟨⟨d.sigPipe, Finset.mem_singleton_self _, rfl⟩, fun i hi => by rw [Finset.mem_singleton.1 hi]⟩
  have hset : d.set = insert d.listen ({d.sigPipe} ∪ (List.ofFn d.workerPipe).toFinset) := by
    ext i
    simp [Descriptors.set, List.mem_ofFn]
  rw [hset]
  exact (hsig.foldl (List.ofFn d.workerPipe)).insert d.listen

/-- A step that keeps the set, and in which no pass goes on. -/
theorem Scans.keep (h : s.Scans) (hset : s'.set = s.set) (hmax : s'.fdMax = s.fdMax)
    (hpass : ∀ p, s'.main.pass? = some p → s.main.pass? = some p) : s'.Scans where
  largest := by rw [hset, hmax]; exact h.largest
  ahead p hp := by rw [hset]; exact h.ahead p (hpass p hp)

/-- The next descriptor, after one that has been examined. -/
theorem Scans.examined (h : s.Scans) (hp : s.main.pass? = some p)
    (hset : ∀ j ∈ s.set, j ≠ p.i → j ∈ s'.set)
    (hlargest : Largest s'.set s'.fdMax) (hmain : s'.main = .pass p.examined) : s'.Scans where
  largest := hlargest
  ahead q hq := by
    rw [hmain] at hq
    obtain rfl : p.examined = q := Option.some.inj hq
    intro j hj
    rcases h.ahead p hp j hj with hseen | ⟨hle, hmem⟩
    · exact .inl (List.mem_cons_of_mem _ hseen)
    · rcases Nat.eq_or_lt_of_le hle with rfl | hlt
      · exact .inl List.mem_cons_self
      · exact .inr ⟨hlt, hset j hmem (Nat.ne_of_gt hlt)⟩

theorem At.pass? (h : s.At p) : s.main.pass? = some p := by
  rw [h.main]
  rfl

/-- What `close_client` leaves as it is. -/
theorem closeClient_eq (s : ServerThreads n) (fd : ℤ) :
    (s.closeClient fd).worker = s.worker ∧ (s.closeClient fd).mtx = s.mtx ∧
      (s.closeClient fd).mode = s.mode ∧ (s.closeClient fd).sig = s.sig ∧
      (s.closeClient fd).set = s.set ∧ (s.closeClient fd).fdMax = s.fdMax ∧
      (s.closeClient fd).requestQueue = s.requestQueue := by
  unfold closeClient
  split_ifs <;> exact ⟨rfl, rfl, rfl, rfl, rfl, rfl, rfl⟩

/-- What a step leaves of the descriptors. -/
theorem Scans.step (h : s.Scans) (hs : Step d s a s') : s'.Scans := by
  cases hs with
  | loop | join | passed | stop | wake | again | last | finish =>
      exact h.keep rfl rfl (by exact nofun)
  | request hat => exact h.keep rfl rfl fun q hq => hat.pass?.trans hq
  | lock hmain | push hmain | quiet hmain =>
    exact h.keep rfl rfl fun q hq => (congrArg MainPc.pass? hmain).trans hq
  | signal w hmain => exact h.keep rfl rfl fun q hq => (congrArg MainPc.pass? hmain).trans hq
  | select tmpset hmain hsub hready =>
    refine ⟨h.largest, fun q hq => ?_⟩
    cases hq
    exact fun j hj => .inr ⟨Nat.zero_le j, hsub hj⟩
  | @skip p hmain hi hset =>
    refine ⟨h.largest, fun q hq => ?_⟩
    cases hq
    intro j hj
    refine (h.ahead p (by rw [hmain]; rfl) j hj).imp_right fun hle => ⟨?_, hle.2⟩
    exact Nat.lt_of_le_of_ne hle.1 fun hij => hset (hij ▸ hj)
  | refuse hat => exact h.examined hat.pass? (fun _ hj _ => hj) h.largest rfl
  | accept fd granted table hat =>
    exact h.examined hat.pass? (fun _ hj _ => Finset.mem_insert_of_mem hj) (h.largest.insert fd) rfl
  | restore w res rest fd hat =>
    exact h.examined hat.pass? (fun _ hj _ => Finset.mem_insert_of_mem hj) (h.largest.insert fd) rfl
  | remove w res rest r table hat =>
    obtain ⟨-, -, -, -, hset, hmax, -⟩ := closeClient_eq s res.fdClient
    refine h.examined hat.pass? (fun j hj _ => ?_) ?_ rfl
    · exact hset ▸ hj
    · change Largest (s.closeClient res.fdClient).set (s.closeClient res.fdClient).fdMax
      rw [hset, hmax]
      exact h.largest
  | @unlock p hmain hmax =>
    exact h.examined (p := p) (congrArg MainPc.pass? hmain)
      (fun j hj hne => Finset.mem_erase.2 ⟨hne, hj⟩) (h.largest.erase p.i hmax) rfl
  | workerLoop | workerLock | workerTest | workerWait | workerWake | workerRelock | workerCheck
  | workerLeave | workerPop | workerFail | workerUnlock | workerServe | workerClose | terminate
  | sigClose => exact ⟨h.largest, h.ahead⟩

/-- What holds of the descriptors in every run. -/
theorem scans_of_run (hrun : Run (system d) tr s) : s.Scans := by
  refine hrun.induction (I := fun _ s => s.Scans) ?_ ?_
  · rintro s ⟨-, -, hmain, hset, hmax, -⟩
    refine ⟨?_, fun p hp => ?_⟩
    · rw [hset, hmax]
      exact largest_fdMax d
    · rw [hmain] at hp
      cases hp
  · exact fun _ _ _ _ _ h hs => h.step hs

/-- No signal has set the mode. -/
def Quiet (tr : List (Action n)) : Prop :=
  ∀ mode, .terminate mode ∉ tr

/-- No pass is left before its end. -/
structure Complete (s : ServerThreads n) : Prop where
  mode : s.mode = .acceptConn
  wake : ∀ p, s.main ≠ .wake p
  passed : ∀ p, s.main = .passed p → ∀ j ∈ p.tmpset, j ∈ p.seen

theorem Complete.step (h : s.Complete) (hscans : s.Scans) (hs : Step d s a s')
    (hquiet : ∀ mode, a ≠ .terminate mode) : s'.Complete := by
  cases hs with
  | loop | join | select | skip | accept | refuse | restore | request | lock | push | signal
  | quiet | unlock | again | finish => exact ⟨h.mode, (by exact nofun), (by exact nofun)⟩
  | @passed p hmain hi =>
    refine ⟨h.mode, (by exact nofun), fun q hq => ?_⟩
    cases hq
    intro j hj
    rcases hscans.ahead p (by rw [hmain]; rfl) j hj with hseen | ⟨hle, hmem⟩
    · exact hseen
    · have := hscans.largest.le j hmem
      omega
  | remove w res rest r table hat =>
    refine ⟨?_, (by exact nofun), (by exact nofun)⟩
    exact (closeClient_eq s res.fdClient).2.2.1.trans h.mode
  | stop hat hsig hmode => exact absurd (h.mode.symm.trans hmode) (by decide)
  | wake hmain => exact absurd hmain (h.wake _)
  | last hmain hmode => exact absurd (h.mode.symm.trans hmode) (by decide)
  | terminate mode => exact absurd rfl (hquiet mode)
  | workerLoop | workerLock | workerTest | workerWait | workerWake | workerRelock | workerCheck
  | workerLeave | workerPop | workerFail | workerUnlock | workerServe | workerClose | sigClose =>
    exact ⟨h.mode, h.wake, h.passed⟩

theorem complete_of_run (hrun : Run (system d) tr s) (hquiet : Quiet tr) : s.Complete := by
  refine hrun.induction (I := fun tr s => Quiet tr → s.Complete) ?_ ?_ hquiet
  · rintro s ⟨hmode, -, hmain, -⟩ -
    exact ⟨hmode, fun p hp => (by rw [hmain] at hp; cases hp),
      fun p hp => (by rw [hmain] at hp; cases hp)⟩
  · intro tr s a s' hrun h hs hquiet
    refine (h fun mode hm => hquiet mode (List.mem_cons_of_mem _ hm)).step (scans_of_run hrun) hs
      fun mode ha => hquiet mode ?_
    rw [ha]
    exact List.mem_cons_self

/-- Without a signal `fd_max` is the largest descriptor at every `select`, and every descriptor that
it has reported has been examined at the end of the pass. -/
theorem examined_of_run (hrun : Run (system d) tr s) (hquiet : Quiet tr) :
    (s.main = .select → Largest s.set s.fdMax) ∧
      ∀ p, s.main = .passed p → ∀ j ∈ p.tmpset, j ∈ p.seen :=
  ⟨fun _ => (scans_of_run hrun).largest, (complete_of_run hrun hquiet).passed⟩

/-- An example of `examined_of_run` : a client connects, and in the next pass a second one does
while the first one makes a request. -/
theorem examined_of_run_request : ∃ (d : Descriptors 0) (tr : List (Action 0)) (s : ServerThreads 0)
    (p : Pass), Run (system d) tr s ∧ s.main = .passed p ∧ p.tmpset = {1, 2} ∧ s.set = {0, 1, 3} ∧
      s.requestQueue = [2] ∧ ∀ j ∈ p.tmpset, j ∈ p.seen := by
  let d : Descriptors 0 := ⟨1, 0, nofun, nofun, by decide, nofun, nofun, by decide⟩
  let s₀ : ServerThreads 0 := ⟨.acceptConn, .wait, .test, d.set, d.fdMax,
    ⟨8, 0, List.replicate 8 [], defaultHashtblHash⟩, 0, {0, 1}, [], none, nofun, nofun⟩
  have hstart : Run (system d) [] s₀ :=
    .start ⟨rfl, rfl, rfl, rfl, rfl, rfl, rfl, by decide, rfl, rfl, nofun, nofun⟩
  have hselect := (hstart.step (.loop rfl (by decide))).step (.select {1} rfl (by decide)
    fun i hi => ⟨fun h0 => absurd (h0 ▸ hi) (by decide), nofun⟩)
  have haccept := (hselect.step (.skip rfl (by decide) (by decide))).step
    (.accept 2 .all _ ⟨rfl, by decide, by decide⟩ rfl rfl (by decide) (by decide)
      (hashtblInsert_of_not_full (by decide) _))
  have hpassed := (haccept.step (.skip rfl (by decide) (by decide))).step (.passed rfl (by decide))
  have hselect := ((hpassed.step (.again rfl (by decide))).step (.loop rfl (by decide))).step
    (.select {1, 2} rfl (by decide) fun i hi => ⟨fun h0 => absurd (h0 ▸ hi) (by decide), nofun⟩)
  have haccept := (hselect.step (.skip rfl (by decide) (by decide))).step
    (.accept 3 .all _ ⟨rfl, by decide, by decide⟩ rfl rfl (by decide) (by decide)
      (hashtblInsert_of_not_full (by decide) _))
  have hpush := ((haccept.step (.request ⟨rfl, by decide, by decide⟩ (by decide) (by decide)
    nofun)).step (.lock rfl rfl)).step (.push rfl)
  have hunlock := (hpush.step (.quiet rfl nofun)).step (.unlock rfl (by decide))
  have hpassed := (hunlock.step (.skip rfl (by decide) (by decide))).step (.passed rfl (by decide))
  refine ⟨d, _, _, _, hpassed, rfl, rfl, by decide, rfl, ?_⟩
  exact (examined_of_run hpassed (by exact fun mode hm => by simp at hm)).2 _ rfl

end Scans

/-! ## The test of `fd_max` -/

/-- The pipe of the signals stays in the set : it is not the descriptor of a client. -/
structure Watches (d : Descriptors n) (s : ServerThreads n) : Prop where
  mem : d.sigPipe ∈ s.set
  ne : ∀ p, s.main.request? = some p → p.i ≠ d.sigPipe

section Watches

variable {d : Descriptors n} {s s' : ServerThreads n} {a : Action n} {tr : List (Action n)}
  {p : Pass}

/-- A step that does not serve a request, or goes on to. -/
theorem Watches.keep (h : s.Watches d) (hset : d.sigPipe ∈ s'.set)
    (hrequest : ∀ p, s'.main.request? = some p → s.main.request? = some p) : s'.Watches d :=
  ⟨hset, fun p hp => h.ne p (hrequest p hp)⟩

theorem Watches.step (h : s.Watches d) (hs : Step d s a s') : s'.Watches d := by
  cases hs with
  | loop | join | passed | stop | wake | again | last | finish | select | skip | refuse =>
    exact h.keep h.mem (by exact nofun)
  | accept | restore => exact h.keep (Finset.mem_insert_of_mem h.mem) (by exact nofun)
  | remove w res =>
    obtain ⟨-, -, -, -, hset, -, -⟩ := closeClient_eq s res.fdClient
    exact h.keep (hset.symm ▸ h.mem) (by exact nofun)
  | request hat hlisten hsig =>
    refine ⟨h.mem, fun q hq => ?_⟩
    cases hq
    exact hsig
  | lock hmain | push hmain | quiet hmain =>
    exact h.keep h.mem fun q hq => (congrArg MainPc.request? hmain).trans hq
  | signal w hmain => exact h.keep h.mem fun q hq => (congrArg MainPc.request? hmain).trans hq
  | @unlock p hmain =>
    refine h.keep (Finset.mem_erase.2 ⟨?_, h.mem⟩) (by exact nofun)
    exact (h.ne p (congrArg MainPc.request? hmain)).symm
  | workerLoop | workerLock | workerTest | workerWait | workerWake | workerRelock | workerCheck
  | workerLeave | workerPop | workerFail | workerUnlock | workerServe | workerClose | terminate
  | sigClose => exact ⟨h.mem, h.ne⟩

theorem watches_of_run (hrun : Run (system d) tr s) : s.Watches d := by
  refine hrun.induction (I := fun _ s => s.Watches d) ?_ fun _ _ _ _ _ h hs => h.step hs
  rintro s ⟨-, -, hmain, hset, -⟩
  refine ⟨?_, fun p hp => ?_⟩
  · rw [hset]
    exact Finset.mem_insert_of_mem (Finset.mem_insert_self _ _)
  · rw [hmain] at hp
    cases hp

/-- The test of `fd_max` behind `FD_CLR` never finds the set empty : the main thread always goes on
to the next descriptor. -/
theorem fdMax_of_run (hrun : Run (system d) tr s) (hmain : s.main = .unlock p) :
    (s.fdClr p.i).fdMax ≠ -1 := by
  have hwatches := watches_of_run hrun
  have hmem : d.sigPipe ∈ s.set.erase p.i :=
    Finset.mem_erase.2 ⟨(hwatches.ne p (congrArg MainPc.request? hmain)).symm, hwatches.mem⟩
  obtain ⟨⟨k, -, hk⟩, hle⟩ := (scans_of_run hrun).largest
  have hsig := hle d.sigPipe hwatches.mem
  rw [fdClr]
  dsimp only
  split_ifs with hmax
  · rcases updateMax_cases (s.set.erase p.i) p.i with ⟨-, hlt⟩ | ⟨m, -, hm, -⟩
    · have := hlt d.sigPipe hmem
      omega
    · omega
  · omega

end Watches

end ServerThreads

end StorageServer
