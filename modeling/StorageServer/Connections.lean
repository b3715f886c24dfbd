import Mathlib.Algebra.BigOperators.Group.Finset.Basic
import Mathlib.Algebra.Order.Group.Multiset
import StorageServer.HashTable
import StorageServer.RequestQueue

/-!
# The connections

Every client is at one place : in the set that `select` listens to, in the queue, in the hands of a
worker or in a pipe (`places`). A step moves a client from one place to another, brings in a
descriptor that is not open, or takes out the one that it closes. So all of them are in
`conn_client_table`, whose number of elements is `curr_state.conn` (`accounts_of_run`), as long as
only what has been inserted is taken from the queue, the listener is not examined after connections
are refused, and no pipe is read that its worker has closed.
-/

open Function Transitions

namespace StorageServer

/-- The client that a worker has in its hands. -/
def WorkerPc.hand : WorkerPc → Multiset ℤ
  | .unlock fd | .serve fd => {fd}
  | _ => 0

/-- The client that the main thread has inserted into the queue and not yet removed from the set. -/
def MainPc.moved : MainPc → Option ℕ
  | .signal p | .unlock p => some p.i
  | _ => none

namespace ServerThreads

variable {n : ℕ}

/-- The clients that `select` listens to. -/
def listening (d : Descriptors n) (s : ServerThreads n) : Multiset ℤ :=
  (s.set.filter fun i => i ∉ d.set ∧ s.main.moved ≠ some i).val.map Nat.cast

/-- The clients in the hands of a worker and in its pipe. -/
def held (s : ServerThreads n) (w : Fin n) : Multiset ℤ :=
  (s.worker w).hand + ((s.pipe w).map WorkerRes.fdClient : List ℤ)

/-- The clients, each at its place. -/
def places (d : Descriptors n) (s : ServerThreads n) : Multiset ℤ :=
  listening d s + (s.requestQueue.map Nat.cast : List ℤ) + ∑ w, s.held w

/-- The clients that are known to the queue, the workers and the pipes are those of the table, and
`curr_state.conn` is their number. -/
structure Accounts (s : ServerThreads n) : Prop where
  queue : ∀ fd ∈ s.requestQueue, (fd : ℤ) ∈ s.connClientTable.items
  worker : ∀ w fd, s.worker w = .unlock fd ∨ s.worker w = .serve fd → fd ∈ s.connClientTable.items
  pipe : ∀ w, ∀ res ∈ s.pipe w, res.fdClient ∈ s.connClientTable.items
  conn : s.conn = s.connClientTable.nelem
  nelem : s.connClientTable.nelem = s.connClientTable.items.length
  nodup : s.connClientTable.items.Nodup

/-- What the server relies on : a worker finds a client in the queue, and the descriptor that is
examined is neither the listener, if connections are refused, nor a pipe that has been closed. -/
structure Orderly (d : Descriptors n) (s : ServerThreads n) (a : Action n) : Prop where
  refilled : s.Refilled a
  listen : ∀ p, a = .main → s.At p → p.i = d.listen → s.mode = .acceptConn
  pipe : ∀ p w, a = .main → s.At p → p.i = d.workerPipe w → s.pipe w ≠ []

/-! ## The places -/

section Places

variable {d : Descriptors n} {s s' : ServerThreads n} {w : Fin n} {c : WorkerPc} {fd i : ℕ} {x : ℤ}
  {res : WorkerRes} {rest : List WorkerRes}

theorem places_congr (hmoved : s'.main.moved = s.main.moved) (hset : s'.set = s.set)
    (hqueue : s'.requestQueue = s.requestQueue) (hheld : ∀ w, s'.held w = s.held w) :
    places d s' = places d s := by
  simp only [places, listening, hmoved, hset, hqueue, hheld]

/-- A step changes what one worker holds. -/
theorem sum_held_add (hheld : ∀ u, u ≠ w → s'.held u = s.held u) :
    ∑ u, s'.held u + s.held w = ∑ u, s.held u + s'.held w := by
  have hrest : ∑ u ∈ Finset.univ.erase w, s'.held u = ∑ u ∈ Finset.univ.erase w, s.held u :=
    Finset.sum_congr rfl fun u hu => hheld u (Finset.ne_of_mem_erase hu)
  rw [← Finset.add_sum_erase _ _ (Finset.mem_univ w),
    ← Finset.add_sum_erase _ s.held (Finset.mem_univ w),
    hrest]
  ac_rfl

theorem held_of_ne (hworker : s'.worker = update s.worker w c)
    (hpipe : ∀ u, u ≠ w → s'.pipe u = s.pipe u)
    {u : Fin n} (hu : u ≠ w) : s'.held u = s.held u := by
  rw [held, held, hworker, update_of_ne hu, hpipe u hu]

/-- A worker goes on with the same client in its hands. -/
theorem held_eq (hworker : s'.worker = update s.worker w c) (hpipe : s'.pipe = s.pipe)
    (hhand : c.hand = (s.worker w).hand) (u : Fin n) : s'.held u = s.held u := by
  by_cases hu : u = w
  · rw [hu, held, held, hworker, update_self, hpipe, hhand]
  · exact held_of_ne hworker (fun v _ => congrFun hpipe v) hu

/-- A worker writes its result. -/
theorem held_served {code : WorkerCode} (hw : s.worker w = .serve x)
    (hworker : s'.worker = update s.worker w .loop)
    (hpipe : s'.pipe = update s.pipe w (s.pipe w ++ [⟨code, x⟩])) (u : Fin n) :
    s'.held u = s.held u := by
  by_cases hu : u = w
  · rw [hu, held, held, hworker, hpipe, update_self, update_self, hw, List.map_append,
      ← Multiset.coe_add, add_comm, add_comm (WorkerPc.hand _), add_assoc]
    rfl
  · exact held_of_ne hworker (fun v hv => hpipe ▸ update_of_ne hv _ _) hu

theorem mem_places_of_pipe (hres : res ∈ s.pipe w) : res.fdClient ∈ places d s := by
  refine Multiset.mem_add.2 (.inr (Multiset.mem_sum.2 ⟨w, Finset.mem_univ w, ?_⟩))
  exact Multiset.mem_add.2 (.inr (List.mem_map_of_mem hres))

theorem mem_places_of_worker {fd : ℤ} (hw : s.worker w = .unlock fd ∨ s.worker w = .serve fd) :
    fd ∈ places d s := by
  refine Multiset.mem_add.2 (.inr (Multiset.mem_sum.2 ⟨w, Finset.mem_univ w, ?_⟩))
  refine Multiset.mem_add.2 (.inl ?_)
  rcases hw with hw | hw <;> exact hw ▸ Multiset.mem_singleton_self fd

theorem mem_places_of_queue (hfd : fd ∈ s.requestQueue) : (fd : ℤ) ∈ places d s :=
  Multiset.mem_add.2 (.inl (Multiset.mem_add.2 (.inr (List.mem_map_of_mem hfd))))

/-- A descriptor that is set besides those of the clients at a place is a new one. -/
theorem listening_insert (hmoved : s.main.moved = none) (hmoved' : s'.main.moved = none)
    (hset : s'.set = insert fd s.set) (hspecial : fd ∉ d.set) (hnew : (fd : ℤ) ∉ listening d s) :
    listening d s' = (fd : ℤ) ::ₘ listening d s := by
  have hnot : fd ∉ s.set.filter fun i => i ∉ d.set ∧ s.main.moved ≠ some i := fun hmem =>
    hnew (Multiset.mem_map_of_mem _ hmem)
  have hfilter : s'.set.filter (fun i => i ∉ d.set ∧ s'.main.moved ≠ some i) =
      insert fd (s.set.filter fun i => i ∉ d.set ∧ s.main.moved ≠ some i) := by
    rw [hset, hmoved, hmoved', Finset.filter_insert, if_pos ⟨hspecial, by exact nofun⟩]
  rw [listening, listening, hfilter, Finset.insert_val_of_notMem hnot, Multiset.map_cons]

/-- The client that is inserted into the queue is no longer one that `select` listens to. -/
theorem listening_push (hmoved : s.main.moved = none) (hmoved' : s'.main.moved = some i)
    (hset : s'.set = s.set) (hspecial : i ∉ d.set) (hi : i ∈ s.set) :
    listening d s = (i : ℤ) ::ₘ listening d s' := by
  have hnot : i ∉ s'.set.filter fun j => j ∉ d.set ∧ s'.main.moved ≠ some j := fun hmem =>
    (Finset.mem_filter.1 hmem).2.2 hmoved'
  have hfilter : s.set.filter (fun j => j ∉ d.set ∧ s.main.moved ≠ some j) =
      insert i (s'.set.filter fun j => j ∉ d.set ∧ s'.main.moved ≠ some j) := by
    ext j
    rw [hset, hmoved, hmoved', Finset.mem_insert, Finset.mem_filter, Finset.mem_filter]
    by_cases hj : j = i
    · subst hj
      simp [hi, hspecial]
    · simp [hj, Ne.symm hj]
  rw [listening, listening, hfilter, Finset.insert_val_of_notMem hnot, Multiset.map_cons]

/-- It is removed from the set then. -/
theorem listening_erase (hmoved : s.main.moved = some i) (hmoved' : s'.main.moved = none)
    (hset : s'.set = s.set.erase i) : listening d s' = listening d s := by
  have hfilter : s'.set.filter (fun j => j ∉ d.set ∧ s'.main.moved ≠ some j) =
      s.set.filter fun j => j ∉ d.set ∧ s.main.moved ≠ some j := by
    ext j
    rw [hset, hmoved, hmoved', Finset.mem_filter, Finset.mem_filter, Finset.mem_erase]
    by_cases hj : j = i
    · simp [hj]
    · simp [hj, Ne.symm hj]
  rw [listening, listening, hfilter]

theorem sum_held_cons (hheld : ∀ u, u ≠ w → s'.held u = s.held u)
    (hcons : s.held w = x ::ₘ s'.held w) : ∑ u, s.held u = x ::ₘ ∑ u, s'.held u := by
  have hsum := sum_held_add hheld
  rw [hcons, Multiset.add_cons, ← Multiset.cons_add] at hsum
  exact (add_right_cancel hsum).symm

/-- The main thread reads a result from a pipe. -/
theorem sum_held_read (hres : s.pipe w = res :: rest)
    (hworker : s'.worker = s.worker) (hpipe : s'.pipe = update s.pipe w rest) :
    ∑ u, s.held u = res.fdClient ::ₘ ∑ u, s'.held u := by
  refine sum_held_cons (w := w) (fun u hu => ?_) ?_
  · rw [held, held, hworker, hpipe, update_of_ne hu]
  · rw [held, held, hworker, hpipe, update_self, hres, List.map_cons, ← Multiset.cons_coe,
      Multiset.add_cons]

/-- A result is read for a client that is not set again. -/
theorem places_remove (hres : s.pipe w = res :: rest) (hmoved : s'.main.moved = s.main.moved)
    (hset : s'.set = s.set) (hqueue : s'.requestQueue = s.requestQueue)
    (hworker : s'.worker = s.worker) (hpipe : s'.pipe = update s.pipe w rest) :
    places d s = res.fdClient ::ₘ places d s' := by
  rw [places, places, sum_held_read hres hworker hpipe, Multiset.add_cons, listening,
    listening, hmoved,
    hset, hqueue]

/-- A result is read for a client that is set again. -/
theorem places_restore (hres : s.pipe w = res :: rest) (hfd : res.fdClient = fd)
    (hmoved : s.main.moved = none) (hmoved' : s'.main.moved = none)
    (hset : s'.set = insert fd s.set)
    (hqueue : s'.requestQueue = s.requestQueue) (hworker : s'.worker = s.worker)
    (hpipe : s'.pipe = update s.pipe w rest) (hspecial : fd ∉ d.set)
    (hplaced : (places d s).Nodup) :
    places d s' = places d s := by
  have hsum := sum_held_read hres hworker hpipe
  rw [hfd] at hsum
  rw [places, hsum, Multiset.add_cons] at hplaced
  have hnew : (fd : ℤ) ∉ listening d s := fun hl => (Multiset.nodup_cons.1 hplaced).1
    (Multiset.mem_add.2 (.inl (Multiset.mem_add.2 (.inl hl))))
  rw [places, places, listening_insert hmoved hmoved' hset hspecial hnew, hqueue, hsum,
    Multiset.cons_add, Multiset.cons_add, Multiset.add_cons]

/-- A client is inserted into the queue. -/
theorem places_push (hmoved : s.main.moved = none) (hmoved' : s'.main.moved = some i)
    (hset : s'.set = s.set) (hspecial : i ∉ d.set) (hi : i ∈ s.set)
    (hqueue : s'.requestQueue = s.requestQueue ++ [i]) (hheld : ∀ w, s'.held w = s.held w) :
    places d s' = places d s := by
  have hlist : (((s.requestQueue ++ [i]).map Nat.cast : List ℤ) : Multiset ℤ) =
      (i : ℤ) ::ₘ (s.requestQueue.map Nat.cast : List ℤ) := by
    rw [List.map_append, Multiset.cons_coe, Multiset.coe_eq_coe]
    exact List.perm_append_comm
  rw [places, places, listening_push hmoved hmoved' hset hspecial hi, hqueue, hlist]
  simp only [hheld, Multiset.cons_add, Multiset.add_cons]

/-- A client is taken from the queue. -/
theorem places_pop (hmoved : s'.main.moved = s.main.moved) (hset : s'.set = s.set)
    (hqueue : s.requestQueue = fd :: s'.requestQueue) (hw : (s.worker w).hand = 0)
    (hworker : s'.worker = update s.worker w (.unlock fd)) (hpipe : s'.pipe = s.pipe) :
    places d s' = places d s := by
  have hsum : ∑ u, s'.held u = (fd : ℤ) ::ₘ ∑ u, s.held u := by
    refine sum_held_cons (w := w) (fun u hu => ?_) ?_
    · exact (held_of_ne hworker (fun v _ => congrFun hpipe v) hu).symm
    · rw [held, held, hworker, update_self, hpipe, hw, zero_add]
      exact Multiset.singleton_add _ _
  rw [places, places, hsum, listening, listening, hmoved, hset, hqueue, List.map_cons,
    ← Multiset.cons_coe, Multiset.add_cons, Multiset.add_cons, Multiset.cons_add]

end Places

/-! ## The descriptors of a pass -/

/-- What is still to be examined in a pass is set, and a request comes from no descriptor of the
server itself. -/
structure Examines (d : Descriptors n) (s : ServerThreads n) : Prop where
  ahead : ∀ p, s.main.pass? = some p → ∀ j ∈ p.tmpset, p.i ≤ j → j ∈ s.set
  request : ∀ p, s.main = .lock p ∨ s.main = .push p → p.i ∈ p.tmpset ∧ p.i ∉ d.set

section Examines

variable {d : Descriptors n} {s s' : ServerThreads n} {a : Action n} {p q : Pass}

theorem mem_set_iff {i : ℕ} : i ∈ d.set ↔ i = d.listen ∨ i = d.sigPipe ∨ ∃ w,
    i = d.workerPipe w := by
  simp [Descriptors.set, eq_comm]

/-- The next descriptor, after one that has been examined or is not set. -/
theorem Examines.next (h : Examines d s) (hp : s.main.pass? = some p) (hmain : s'.main = .pass q)
    (hi : q.i = p.i + 1) (htmp : q.tmpset = p.tmpset)
    (hset : ∀ j ∈ s.set, j ≠ p.i → j ∈ s'.set) : Examines d s' where
  ahead r hr := by
    rw [hmain] at hr
    obtain rfl : q = r := Option.some.inj hr
    intro j hj hle
    rw [htmp] at hj
    exact hset j (h.ahead p hp j hj (by omega)) (by omega)
  request r hr := by
    rw [hmain] at hr
    exact absurd hr (not_or.2 ⟨(by exact nofun), (by exact nofun)⟩)

/-- A step that keeps the set, and in which no pass goes on. -/
theorem Examines.keep (h : Examines d s) (hset : s'.set = s.set)
    (hpass : ∀ p, s'.main.pass? = some p → s.main.pass? = some p)
    (hrequest : ∀ p, s'.main = .lock p ∨ s'.main = .push p → s.main = .lock p ∨ s.main = .push p) :
    Examines d s' where
  ahead p hp := by
    rw [hset]
    exact h.ahead p (hpass p hp)
  request p hp := h.request p (hrequest p hp)

theorem Examines.step (h : Examines d s) (hlisten : ∀ p, a = .main → s.At p → p.i = d.listen →
    s.mode = .acceptConn) (hs : Step d s a s') : Examines d s' := by
  cases hs with
  | loop | join | passed | stop | wake | again | last | finish =>
    exact h.keep rfl (by exact nofun) fun p hp => by rcases hp with hp | hp <;> cases hp
  | select tmpset hmain hsub =>
    refine ⟨fun p hp => ?_, fun p hp => by rcases hp with hp | hp <;> cases hp⟩
    cases hp
    exact fun j hj _ => hsub hj
  | @skip p hmain => exact h.next (congrArg MainPc.pass? hmain) rfl rfl rfl fun _ hj _ => hj
  | refuse hat => exact h.next hat.pass? rfl rfl rfl fun _ hj _ => hj
  | accept fd granted table hat =>
    exact h.next hat.pass? rfl rfl rfl fun _ hj _ => Finset.mem_insert_of_mem hj
  | restore w res rest fd hat =>
    exact h.next hat.pass? rfl rfl rfl fun _ hj _ => Finset.mem_insert_of_mem hj
  | remove w res rest r table hat =>
    refine h.next hat.pass? rfl rfl rfl fun j hj _ => ?_
    exact (closeClient_eq s res.fdClient).2.2.2.2.1 ▸ hj
  | @request p hat hmode hsig hpipe =>
    refine ⟨fun q hq => h.ahead q (hat.pass?.trans hq), fun q hq => ?_⟩
    obtain rfl : p = q := by
      rcases hq with hq | hq <;> cases hq
      rfl
    refine ⟨hat.mem, fun hmem => ?_⟩
    rcases mem_set_iff.1 hmem with hi | hi | ⟨w, hi⟩
    · exact hmode hi (hlisten p rfl hat hi)
    · exact hsig hi
    · exact hpipe w hi
  | @lock p hmain =>
    refine ⟨fun q hq => h.ahead q ((congrArg MainPc.pass? hmain).trans hq), fun q hq => ?_⟩
    obtain rfl : p = q := by
      rcases hq with hq | hq <;> cases hq
      rfl
    exact h.request p (.inl hmain)
  | push hmain | signal _ hmain | quiet hmain =>
    exact h.keep rfl (fun q hq => (congrArg MainPc.pass? hmain).trans hq) fun q hq => by
      rcases hq with hq | hq <;> cases hq
  | @unlock p hmain =>
    exact h.next (congrArg MainPc.pass? hmain) rfl rfl rfl fun j hj hne =>
      Finset.mem_erase.2 ⟨hne, hj⟩
  | workerLoop | workerLock | workerTest | workerWait | workerWake | workerRelock | workerCheck
  | workerLeave | workerPop | workerFail | workerUnlock | workerServe | workerClose | terminate
  | sigClose => exact ⟨h.ahead, h.request⟩

end Examines

/-! ## The table -/

/-- Every client that is at a place is in the table, and at no other place. -/
structure Connected (d : Descriptors n) (s : ServerThreads n) : Prop where
  table : s.connClientTable.WF
  nodup : s.connClientTable.items.Nodup
  range : ∀ fd ∈ s.connClientTable.items, ∃ i < fdSetSize, (i : ℤ) = fd
  opened : ∀ fd ∈ s.connClientTable.items, fd ∈ s.opened
  special : ∀ i ∈ d.set, (i : ℤ) ∈ s.opened ∧ (i : ℤ) ∉ s.connClientTable.items
  conn : s.conn = s.connClientTable.nelem
  placed : (places d s).Nodup
  client : ∀ fd ∈ places d s, fd ∈ s.connClientTable.items

section Connected

variable {d : Descriptors n} {s s' : ServerThreads n} {a : Action n} {tr : List (Action n)}
  {w : Fin n}
  {x : ℤ}

/-- An `fd_set` has no room for more clients. -/
theorem Connected.nelem_le (h : Connected d s) : s.connClientTable.nelem ≤ fdSetSize := by
  have hsub : s.connClientTable.items ⊆ (List.range fdSetSize).map (Nat.cast : ℕ → ℤ) := by
    intro fd hfd
    obtain ⟨i, hi, rfl⟩ := h.range fd hfd
    exact List.mem_map_of_mem (List.mem_range.2 hi)
  have hle := (List.subperm_of_subset h.nodup hsub).length_le
  rwa [List.length_map, List.length_range, ← h.table.nelem] at hle

/-- A step in which no client moves but from one place to another. -/
theorem Connected.keep (h : Connected d s) (htable : s'.connClientTable = s.connClientTable)
    (hopened : s'.opened = s.opened) (hconn : s'.conn = s.conn)
    (hplaces : places d s' = places d s) :
    Connected d s' where
  table := htable ▸ h.table
  nodup := htable ▸ h.nodup
  range := htable ▸ h.range
  opened := htable ▸ hopened ▸ h.opened
  special := htable ▸ hopened ▸ h.special
  conn := htable ▸ hconn ▸ h.conn
  placed := hplaces ▸ h.placed
  client := htable ▸ hplaces ▸ h.client

/-- A client connects. -/
theorem Connected.insert {fd : ℕ} (h : Connected d s) (hwf : s'.connClientTable.WF)
    (hitems : s'.connClientTable.items.Perm (s.connClientTable.items ++ [(fd : ℤ)]))
    (hfd : (fd : ℤ) ∉ s.opened) (hlt : fd < fdSetSize) (hopened : s'.opened = insert ↑fd s.opened)
    (hconn : s'.conn = toUInt (s.conn + 1)) (hplaces : places d s' = (fd : ℤ) ::ₘ places d s) :
    Connected d s' := by
  have hnew : (fd : ℤ) ∉ s.connClientTable.items := fun hmem => hfd (h.opened _ hmem)
  have hmem : ∀ x, x ∈ s'.connClientTable.items ↔ x ∈ s.connClientTable.items ∨ x = fd :=
    fun x => by
    rw [hitems.mem_iff, List.mem_append, List.mem_singleton]
  refine ⟨hwf, ?_, fun x hx => ?_, fun x hx => ?_, fun i hi => ⟨?_, fun hx => ?_⟩, ?_, ?_,
    fun x hx => ?_⟩
  · rw [hitems.nodup_iff, List.nodup_append]
    refine ⟨h.nodup, List.nodup_singleton _, fun x hx y hy => ?_⟩
    rw [List.mem_singleton.1 hy]
    exact fun hxy => hnew (hxy ▸ hx)
  · rcases (hmem x).1 hx with hx | rfl
    · exact h.range x hx
    · exact ⟨fd, hlt, rfl⟩
  · rw [hopened]
    rcases (hmem x).1 hx with hx | rfl
    · exact Finset.mem_insert_of_mem (h.opened x hx)
    · exact Finset.mem_insert_self _ _
  · rw [hopened]
    exact Finset.mem_insert_of_mem (h.special i hi).1
  · rcases (hmem _).1 hx with hx | hx
    · exact (h.special i hi).2 hx
    · exact hfd (hx ▸ (h.special i hi).1)
  · have hle := h.nelem_le
    have hlen := hitems.length_eq
    rw [List.length_append, List.length_singleton, ← h.table.nelem, ← hwf.nelem] at hlen
    have hmax : fdSetSize = 1024 := rfl
    have hadd : (s.connClientTable.nelem : ℤ) + 1 =
        ((s.connClientTable.nelem + 1 : ℕ) : ℤ) := by omega
    rw [hconn, h.conn, hlen, hadd]
    exact toUInt_of_range (by omega)
  · rw [hplaces, Multiset.nodup_cons]
    exact ⟨fun hx => hnew (h.client _ hx), h.placed⟩
  · rw [hplaces, Multiset.mem_cons] at hx
    rcases hx with rfl | hx
    · exact (hmem _).2 (.inr rfl)
    · exact (hmem x).2 (.inl (h.client x hx))

/-- A client is closed. -/
theorem Connected.erase (h : Connected d s) (hwf : s'.connClientTable.WF)
    (hitems : s'.connClientTable.items = s.connClientTable.items.erase x)
    (hopened : s'.opened = s.opened.erase x) (hconn : s'.conn = toUInt ((s.conn : ℤ) - 1))
    (hplaces : places d s = x ::ₘ places d s') : Connected d s' := by
  have hx : x ∈ s.connClientTable.items := h.client x (hplaces ▸ Multiset.mem_cons_self _ _)
  have hmem : ∀ y, y ∈ s'.connClientTable.items ↔ y ≠ x ∧ y ∈ s.connClientTable.items := fun y => by
    rw [hitems, h.nodup.mem_erase_iff]
  have hplaced := h.placed
  rw [hplaces, Multiset.nodup_cons] at hplaced
  refine ⟨hwf, ?_, fun y hy => ?_, fun y hy => ?_, fun i hi => ⟨?_, fun hy => ?_⟩, ?_, hplaced.2,
    fun y hy => ?_⟩
  · rw [hitems]
    exact h.nodup.erase x
  · exact h.range y ((hmem y).1 hy).2
  · rw [hopened]
    exact Finset.mem_erase.2 ⟨((hmem y).1 hy).1, h.opened y ((hmem y).1 hy).2⟩
  · rw [hopened]
    exact Finset.mem_erase.2 ⟨fun hi' => (h.special i hi).2 (hi' ▸ hx), (h.special i hi).1⟩
  · exact (h.special i hi).2 ((hmem _).1 hy).2
  · have hle := h.nelem_le
    have hlen := List.length_erase_of_mem hx
    have hpos := List.length_pos_of_mem hx
    rw [← hitems, ← hwf.nelem, ← h.table.nelem] at hlen
    rw [← h.table.nelem] at hpos
    have hmax : fdSetSize = 1024 := rfl
    have hsub : (s.connClientTable.nelem : ℤ) - 1 =
        ((s.connClientTable.nelem - 1 : ℕ) : ℤ) := by omega
    rw [hconn, h.conn, hlen, hsub]
    exact toUInt_of_range (by omega)
  · refine (hmem y).2 ⟨fun hyx => hplaced.1 (hyx ▸ hy), h.client y ?_⟩
    rw [hplaces]
    exact Multiset.mem_cons_of_mem hy

/-- A step of the main thread or of a worker that moves no client. -/
theorem Connected.still (h : Connected d s) (htable : s'.connClientTable = s.connClientTable)
    (hopened : s'.opened = s.opened) (hconn : s'.conn = s.conn)
    (hmoved : s'.main.moved = s.main.moved) (hset : s'.set = s.set)
    (hqueue : s'.requestQueue = s.requestQueue) (hheld : ∀ w, s'.held w = s.held w) :
    Connected d s' :=
  h.keep htable hopened hconn (places_congr hmoved hset hqueue hheld)

theorem held_wakeWorkers (s : ServerThreads n) (w : Fin n) : s.wakeWorkers.held w = s.held w := by
  change WorkerPc.hand (if s.worker w = .asleep then .woken else s.worker w) + _ = _
  split_ifs with hw
  · rw [held, hw]
    rfl
  · rfl

/-- What a step leaves of the clients. -/
theorem Connected.step (h : Connected d s) (hexamines : Examines d s) (hfills : s.Fills)
    (horderly : Orderly d s a) (hs : Step d s a s') : Connected d s' := by
  cases hs with
  | loop hmain | join hmain | select _ hmain | passed hmain | skip hmain | again hmain | lock hmain
  | last hmain =>
    exact h.still rfl rfl rfl (congrArg MainPc.moved hmain).symm rfl rfl fun _ => rfl
  | refuse hat | stop hat | request hat =>
    exact h.still rfl rfl rfl (congrArg MainPc.moved hat.main).symm rfl rfl fun _ => rfl
  | wake hmain | finish hmain =>
    exact h.still rfl rfl rfl (congrArg MainPc.moved hmain).symm rfl rfl (held_wakeWorkers s)
  | accept fd granted table hat hlisten hmode hfd hlt hinsert =>
    have hmoved : s.main.moved = none := congrArg MainPc.moved hat.main
    have hinsert := hashtblInsert_all_of_eq_zero hinsert
    rcases h.table.hashtblInsert_cases fd with ⟨hfail, -⟩ | ⟨table', hinsert', hwf, hitems⟩
    · rw [hfail] at hinsert
      cases hinsert
    · rw [hinsert'] at hinsert
      cases hinsert
      refine h.insert hwf hitems hfd hlt rfl rfl ?_
      rw [places,
        listening_insert hmoved rfl rfl (fun hset => hfd (h.special fd hset).1) fun hmem => ?_]
      · rw [Multiset.cons_add, Multiset.cons_add]
        rfl
      · exact hfd
          (h.opened _ (h.client _ (Multiset.mem_add.2 (.inl (Multiset.mem_add.2 (.inl hmem))))))
  | @restore p w res rest fd hat hpipe hread hcode hfd hlt =>
    have hmoved : s.main.moved = none := congrArg MainPc.moved hat.main
    have hres : s.pipe w = res :: rest :=
      hread.resolve_right fun hclosed => horderly.pipe p w rfl hat hpipe hclosed.1
    have hmem := h.client _ (mem_places_of_pipe (hres ▸ List.mem_cons_self))
    exact h.keep rfl rfl rfl (places_restore hres hfd hmoved rfl rfl rfl rfl rfl
      (fun hset => (h.special fd hset).2 (hfd ▸ hmem)) h.placed)
  | @remove p w res rest r table hat hpipe hread hcode hremove =>
    have hmoved : s.main.moved = none := congrArg MainPc.moved hat.main
    have hres : s.pipe w = res :: rest :=
      hread.resolve_right fun hclosed => horderly.pipe p w rfl hat hpipe hclosed.1
    have hmem := h.client _ (mem_places_of_pipe (hres ▸ List.mem_cons_self))
    obtain ⟨i, -, hi⟩ := h.range _ hmem
    obtain ⟨r', table', hremove', hwf, hitems⟩ := h.table.hashtblRemove_eq i
    rw [hi] at hremove' hitems
    rw [hremove'] at hremove
    cases hremove
    rw [closeClient, if_neg (show res.fdClient ≠ -1 by omega)]
    exact h.erase hwf hitems rfl rfl (places_remove hres hmoved.symm rfl rfl rfl rfl)
  | @push p hmain =>
    obtain ⟨htmp, hspecial⟩ := hexamines.request p (.inr hmain)
    have hset := hexamines.ahead p (congrArg MainPc.pass? hmain) p.i htmp (Nat.le_refl _)
    exact h.keep rfl rfl rfl
      (places_push (congrArg MainPc.moved hmain) rfl rfl hspecial hset rfl fun _ => rfl)
  | signal w hmain hw =>
    refine h.still rfl rfl rfl (congrArg MainPc.moved hmain).symm rfl rfl ?_
    exact held_eq rfl rfl (by rw [hw]; rfl)
  | quiet hmain =>
    exact h.still rfl rfl rfl (congrArg MainPc.moved hmain).symm rfl rfl fun _ => rfl
  | unlock hmain =>
    refine h.keep rfl rfl rfl ?_
    rw [places, listening_erase (congrArg MainPc.moved hmain) rfl rfl]
    rfl
  | @workerPop w fd rest hw hqueue =>
    exact h.keep rfl rfl rfl (places_pop rfl rfl hqueue (by rw [hw]; rfl) rfl rfl)
  | workerFail fd hw hqueue => exact absurd hqueue (hfills.pop _ hw)
  | workerServe code hw => exact h.still rfl rfl rfl rfl rfl rfl (held_served hw rfl rfl)
  | workerLoop hw | workerTest hw | workerCheck hw =>
    exact h.still rfl rfl rfl rfl rfl rfl (held_eq rfl rfl (by rw [hw]; split_ifs <;> rfl))
  | workerLock hw | workerWait hw | workerWake hw | workerRelock hw | workerLeave hw
  | workerUnlock hw | workerClose hw =>
    exact h.still rfl rfl rfl rfl rfl rfl (held_eq rfl rfl (by rw [hw]; rfl))
  | terminate | sigClose => exact h.still rfl rfl rfl rfl rfl rfl fun _ => rfl

theorem connected_of_init (h : (system d).init s) : Connected d s ∧ Examines d s := by
  obtain ⟨-, -, hmain, hset, -, htable, hconn, hopened, hqueue, -, hworker, hpipe⟩ := h
  have hlistening : listening d s = 0 := by
    rw [listening, hset, Finset.filter_false_of_mem fun i hi hn => hn.1 hi]
    rfl
  have hplaces : places d s = 0 := by
    rw [places, hlistening, hqueue, Finset.sum_eq_zero fun w _ =>
      by rw [held, hworker w, hpipe w]; rfl]
    rfl
  have hitems : s.connClientTable.items = [] := by
    rw [htable]
    rfl
  refine ⟨⟨?_, ?_, ?_, ?_, fun i hi => ⟨hopened i hi, ?_⟩, ?_, ?_, ?_⟩, fun p hp =>
    ?_, fun p hp => ?_⟩
  · rw [htable]
    exact HashTbl.WF.init 8 (by decide) (by decide)
  · rw [hitems]
    exact List.nodup_nil
  · rw [hitems]
    exact fun fd hfd => absurd hfd List.not_mem_nil
  · rw [hitems]
    exact fun fd hfd => absurd hfd List.not_mem_nil
  · rw [hitems]
    exact List.not_mem_nil
  · rw [hconn, htable]
  · rw [hplaces]
    exact Multiset.nodup_zero
  · rw [hplaces]
    exact fun fd hfd => absurd hfd (Multiset.notMem_zero fd)
  · rw [hmain] at hp
    cases hp
  · rw [hmain] at hp
    rcases hp with hp | hp <;> cases hp

theorem connected_of_run (hrun : Run ((system d).restrict (Orderly d)) tr s) :
    Connected d s ∧ Examines d s := by
  refine hrun.induction (I := fun _ s => Connected d s ∧ Examines d s) ?_ ?_
  · exact fun s h => connected_of_init h
  · rintro tr s a s' hrun ⟨h, hexamines⟩ ⟨horderly, hs⟩
    have hfills := fills_of_run (hrun.restrict_mono fun _ _ hc => hc.refilled)
    exact ⟨h.step hexamines hfills horderly hs, hexamines.step horderly.listen hs⟩

/-- In every run in which the server gets what it relies on, the clients that it works for are those
of the table, and `curr_state.conn` is their number. -/
theorem accounts_of_run (hrun : Run ((system d).restrict (Orderly d)) tr s) : s.Accounts := by
  have h := (connected_of_run hrun).1
  exact ⟨fun fd hfd => h.client _ (mem_places_of_queue hfd),
    fun w fd hw => h.client _ (mem_places_of_worker hw),
    fun w res hres => h.client _ (mem_places_of_pipe hres), h.conn, h.table.nelem, h.nodup⟩

/-- An example of `accounts_of_run` : a client connects, and in the next pass a second one does
while the first one makes a request, which a worker takes. -/
theorem accounts_of_run_request :
    ∃ tr s, Run ((system twoWorkers).restrict (Orderly twoWorkers)) tr s ∧
    s.connClientTable.items.Perm [4, 5] ∧ s.conn = 2 ∧ s.worker 0 = .unlock 4 ∧ s.Accounts := by
  have hstart : Run ((system twoWorkers).restrict (Orderly twoWorkers)) [] twoWorkersInit :=
    .start init_twoWorkersInit
  -- a step of the main thread, in a pass in which no pipe is set
  have hgo : ∀ {tr} {s s' : ServerThreads 2} (tmpset : Finset ℕ),
      Run ((system twoWorkers).restrict (Orderly twoWorkers)) tr s → Step twoWorkers s .main s' →
      s.mode = .acceptConn → (∀ p, s.main = .pass p → p.tmpset = tmpset) →
      (∀ w, twoWorkers.workerPipe w ∉ tmpset) →
      Run ((system twoWorkers).restrict (Orderly twoWorkers)) (.main :: tr) s' :=
    fun tmpset hrun hs hmode hset hpipe => hrun.step ⟨⟨refilled_of_action (by exact nofun),
      fun _ _ _ _ => hmode, fun p w _ hat hi =>
        absurd (hset p hat.main ▸ hi ▸ hat.mem) (hpipe w)⟩, hs⟩
  have hworker : ∀ {s : ServerThreads 2} {a : Action 2}, s.Refilled a → a ≠ .main →
      Orderly twoWorkers s a := fun hfills ha =>
    ⟨hfills, fun _ he => absurd he ha, fun _ _ he => absurd he ha⟩
  have hselect :=
    hgo ∅ (hgo ∅ hstart (.loop rfl (by decide)) rfl (fun _ hp => by cases hp) (by decide))
    (.select {0} rfl (by decide) fun i hi => by
      obtain rfl := Finset.mem_singleton.1 hi
      exact ⟨by decide, by decide⟩) rfl (fun _ hp => by cases hp) (by decide)
  have haccept := hgo {0} hselect (.accept 4 .all _ ⟨rfl, by decide, by decide⟩ rfl rfl (by decide)
    (by decide) (hashtblInsert_of_not_full (by decide) _)) rfl (fun _ hp => by cases hp; rfl)
      (by decide)
  have hskip := hgo {0} (hgo {0} haccept (.skip rfl (by decide) (by decide)) rfl
    (fun _ hp => by cases hp; rfl) (by decide)) (.skip rfl (by decide) (by decide)) rfl
    (fun _ hp => by cases hp; rfl) (by decide)
  have hskip := hgo {0} (hgo {0} hskip (.skip rfl (by decide) (by decide)) rfl
    (fun _ hp => by cases hp; rfl) (by decide)) (.skip rfl (by decide) (by decide)) rfl
    (fun _ hp => by cases hp; rfl) (by decide)
  have hagain := hgo ∅ (hgo {0} hskip (.passed rfl (by decide)) rfl
    (fun _ hp => by cases hp; rfl) (by decide)) (.again rfl (by decide)) rfl
    (fun _ hp => by cases hp) (by decide)
  have hselect :=
    hgo ∅ (hgo ∅ hagain (.loop rfl (by decide)) rfl (fun _ hp => by cases hp) (by decide))
    (.select {0, 4} rfl (by decide) fun i hi => by
      rcases Finset.mem_insert.1 hi with rfl | hi
      · exact ⟨by decide, by decide⟩
      · obtain rfl := Finset.mem_singleton.1 hi
        exact ⟨by decide, by decide⟩) rfl (fun _ hp => by cases hp) (by decide)
  have haccept :=
    hgo {0, 4} hselect (.accept 5 .all _ ⟨rfl, by decide, by decide⟩ rfl rfl (by decide)
    (by decide) (hashtblInsert_of_not_full (by decide) _)) rfl (fun _ hp => by cases hp; rfl)
      (by decide)
  have hskip := hgo {0, 4} (hgo {0, 4} haccept (.skip rfl (by decide) (by decide)) rfl
    (fun _ hp => by cases hp; rfl) (by decide)) (.skip rfl (by decide) (by decide)) rfl
    (fun _ hp => by cases hp; rfl) (by decide)
  have hrequest := hgo {0, 4} (hgo {0, 4} hskip (.skip rfl (by decide) (by decide)) rfl
    (fun _ hp => by cases hp; rfl) (by decide))
    (.request ⟨rfl, by decide, by decide⟩ (by decide) (by decide) (by decide)) rfl
    (fun _ hp => by cases hp; rfl) (by decide)
  have hlock := hgo ∅ hrequest (.lock rfl rfl) rfl (fun _ hp => by cases hp) (by decide)
  have hpush := hlock.step ⟨hworker (refilled_of_action (by exact nofun)) (by decide), .push rfl⟩
  have hunlock :=
    hgo ∅ (hgo ∅ hpush (.quiet rfl (by decide)) rfl (fun _ hp => by cases hp) (by decide))
    (.unlock rfl (by decide)) rfl (fun _ hp => by cases hp) (by decide)
  -- the first worker takes the request
  have htest := ((hunlock.step
    ⟨hworker (refilled_of_queue (by decide)) (by decide), .workerLoop (w := 0) rfl⟩).step
    ⟨hworker (refilled_of_queue (by decide)) (by decide), .workerLock (w := 0) rfl rfl⟩).step
    ⟨hworker (refilled_of_queue (by decide)) (by decide), .workerTest (w := 0) rfl⟩
  have hpop := (htest.step
    ⟨hworker (refilled_of_queue (by decide)) (by decide), .workerCheck (w := 0) rfl⟩).step
    ⟨hworker (refilled_of_queue (by decide)) (by decide), .workerPop (w := 0) rfl rfl⟩
  refine ⟨_, _, hpop, ?_, ?_, rfl, accounts_of_run hpop⟩
  · have hwf : twoWorkersInit.connClientTable.WF := HashTbl.WF.init 8 (by decide) (by decide)
    have hfirst := hwf.wellFormed.insertNode_perm 4
    exact ((hwf.wellFormed.insertNode 4).insertNode_perm 5).trans (hfirst.append_right [5])
  · have hone : toUInt ((0 : ℕ) + 1) = 1 := @toUInt_of_range 1 (by decide)
    change toUInt ((toUInt ((0 : ℕ) + 1) : ℕ) + 1) = 2
    rw [hone]
    exact @toUInt_of_range 2 (by decide)

/-- Once connections are refused, one that is attempted is taken for a request of the listener. -/
theorem not_accounts_of_run : ¬∀ (n : ℕ) (d : Descriptors n) (tr : List (Action n))
    (s : ServerThreads n), Run (system d) tr s → s.Accounts := by
  intro hall
  have hstart : Run (system twoWorkers) [] twoWorkersInit := .start init_twoWorkersInit
  have hselect := ((hstart.step (.terminate .refuseConn rfl (by decide))).step
    (.loop rfl (by decide))).step (.select {0} rfl (by decide) fun i hi => by
      obtain rfl := Finset.mem_singleton.1 hi
      exact ⟨by decide, by decide⟩)
  have hpush := ((hselect.step (.request ⟨rfl, by decide, by decide⟩ (by decide) (by decide)
    (by decide))).step (.lock rfl rfl)).step (.push rfl)
  exact absurd ((hall 2 twoWorkers _ _ hpush).queue 0 (by decide)) (by decide)

end Connected

end ServerThreads

end StorageServer
