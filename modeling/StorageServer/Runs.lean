import StorageServer.Lib.Transition
import StorageServer.Exchange

/-!
# Runs of the server

A run takes requests one at a time, in the order in which their handlers hold
`files_mtx`. A request has two steps, so that the state in which its handler has released
`files_mtx` and still has to reply is seen : the first reads it and works on the store,
the second replies. Between two requests clients may leave (`close_client`).

`serverSystem` is the server of the source. `fileSystemSystem` is what it is for : the
same events, on a file system. Every run of the first is a run of the second
(`run_refines`), so that what holds of the file system in every run of the second holds
of the server.
-/

open Programs Transitions

namespace StorageServer

/-! ## Events -/

/-- The events of a run. -/
inductive Event
  /-- The handler `h` is called for a client. It reads `req`, takes the readings of the
  clock, and goes on to reply, or is done with the code of an error. -/
  | request (h : Handler) (fdClient : ℕ) (l : Local) (req : Request) (readings : List Timespec)
      (refused : Option Sa)
  /-- A handler returns because it could not read the request. -/
  | unread (h : Handler) (fdClient : ℕ) (code : Sa)
  /-- The handler that was called last replies and returns. -/
  | reply (code : Sa)
  /-- A client leaves. -/
  | disconnect (fdClient : ℕ)

/-- The request that is served, if it is not refused. -/
def Event.accepted : Event → Option Request
  | .request _ _ _ req _ none => some req
  | _ => none

theorem Event.eq_of_accepted {e : Event} {req : Request} (h : e.accepted = some req) :
    ∃ h fdClient l readings, e = .request h fdClient l req readings none := by
  cases e with
  | request h' fdClient l req' readings refused =>
    cases refused with
    | none =>
      cases h
      exact ⟨h', fdClient, l, readings, rfl⟩
    | some code => cases h
  | unread | reply | disconnect => cases h

/-- The code of an error. -/
def errorOf {α : Type} : Except Sa α → Option Sa
  | .error code => some code
  | .ok _ => none

/-! ## The server -/

/-- The store, and the request that is being replied to. -/
structure Server where
  store : Store
  replying : Option (Local × Except Sa Reply)

/-- `HASH_N_LIST`. -/
def hashNList : ℕ :=
  8

/-- The store when the server starts. -/
def Store.initial : Store where
  files := ⟨hashNList, 0, List.replicate hashNList [], defaultHashmapHash⟩
  heap _ := none
  fresh := 0
  currState := ⟨0, 0, 0, 0, 0⟩
  filesMtx := false
  currStateMtx := false

/-- The steps of the server. No request is served for which the memory does not suffice. -/
inductive Server.Step (cfg : ServerConfig) : Server → Event → Server → Prop
  | request {s s₁ s₂ : Store} {h : Handler} {fdClient : ℕ} {l l₁ l₂ : Local} {req : Request}
      {r : Except Sa Reply} {readings : List Timespec}
      (hread : Prog.run exec (readRequest h) (l, s) = .ok (.ok req, (l₁, s₁)))
      (hserve : Prog.run exec (storeSection cfg fdClient req) (l₁, s₁) = .ok (r, (l₂, s₂)))
      (hclock : l₁.clock = readings ++ l₂.clock) (hfit : s.fileSystem.Fits req) :
      Step cfg ⟨s, none⟩ (.request h fdClient l req readings (errorOf r)) ⟨s₂, some (l₂, r)⟩
  | unread {s s₁ : Store} {h : Handler} {fdClient : ℕ} {l l₁ : Local} {code : Sa}
      (hread : Prog.run exec (readRequest h) (l, s) = .ok (.error code, (l₁, s₁))) :
      Step cfg ⟨s, none⟩ (.unread h fdClient code) ⟨s₁, none⟩
  | reply {s s' : Store} {l l' : Local} {r : Except Sa Reply} {code : Sa}
      (hrun : Prog.run exec (finish r) (l, s) = .ok (code, (l', s'))) :
      Step cfg ⟨s, some (l, r)⟩ (.reply code) ⟨s', none⟩
  | disconnect {s s' : Store} {l l' : Local} {fdClient : ℕ}
      (hrun : Prog.run exec (closeClient fdClient) (l, s) = .ok ((), (l', s'))) :
      Step cfg ⟨s, none⟩ (.disconnect fdClient) ⟨s', none⟩

/-- The server of the source. -/
def serverSystem (cfg : ServerConfig) : System Server Event where
  init σ := σ = ⟨.initial, none⟩
  step := Server.Step cfg

/-! ## The file system -/

/-- A file system, and the outcome that is being replied. -/
structure FileServer where
  fs : FileSystem
  replying : Option (Except Sa FileSystem.Outcome)

/-- A client leaves : no file is open for it or locked by it any more. -/
def FileSystem.disconnect (fs : FileSystem) (fdClient : ℕ) : FileSystem :=
  { fs with files := fs.files.map (File.closed fdClient) }

/-- The file system when the server starts. -/
def FileSystem.empty : FileSystem :=
  ⟨[], ⟨0, 0, 0, 0, 0⟩, hashNList⟩

/-- The steps of a file system. -/
inductive FileServer.Step (cfg : ServerConfig) : FileServer → Event → FileServer → Prop
  | request {fs fs' : FileSystem} {h : Handler} {fdClient : ℕ} {l : Local} {req : Request}
      {readings : List Timespec} {out : Except Sa FileSystem.Outcome}
      (he : fs.Effect cfg fdClient l.malloc req readings out fs') (hreq : req.WF)
        (hfit : fs.Fits req) :
      Step cfg ⟨fs, none⟩ (.request h fdClient l req readings (errorOf out)) ⟨fs', some out⟩
  | unread {fs : FileSystem} {h : Handler} {fdClient : ℕ} {code : Sa} :
      Step cfg ⟨fs, none⟩ (.unread h fdClient code) ⟨fs, none⟩
  | reply {fs : FileSystem} {out : Except Sa FileSystem.Outcome} {code : Sa} :
      Step cfg ⟨fs, some out⟩ (.reply code) ⟨fs.release out code, none⟩
  | disconnect {fs : FileSystem} {fdClient : ℕ} :
      Step cfg ⟨fs, none⟩ (.disconnect fdClient) ⟨fs.disconnect fdClient, none⟩

/-- What the server is for. -/
def fileSystemSystem (cfg : ServerConfig) : System FileServer Event where
  init φ := φ = ⟨.empty, none⟩
  step := FileServer.Step cfg

/-! ## Refinement -/

section Refinement

variable {cfg : ServerConfig} {fdClient : ℕ} {req : Request} {σ σ' : Server} {φ : FileServer}
  {e : Event} {tr : List Event} {l : Local} {s s' : Store} {xs : List (FilePtr × File)}

/-- The file system of a server. -/
structure Server.Refines (cfg : ServerConfig) (σ : Server) (φ : FileServer) : Prop where
  idle : ∃ xs, σ.store.Idle cfg xs ∧ ∀ l r out, σ.replying = some (l, r) → φ.replying = some out →
    σ.store.Shows xs r out
  fs : σ.store.fileSystem = φ.fs
  replying : σ.replying.isSome = φ.replying.isSome

/-- There is nothing to show while nothing is replied. -/
theorem not_replying {P : Local → Except Sa Reply → Except Sa FileSystem.Outcome → Prop}
    {o : Option (Except Sa FileSystem.Outcome)} :
    ∀ l r out, (none : Option (Local × Except Sa Reply)) = some (l, r) → o = some out → P l r out :=
  fun _ _ _ h => absurd h (by simp)

theorem errorOf_of_shows {r : Except Sa Reply} {out : Except Sa FileSystem.Outcome}
    (h : s.Shows xs r out) : errorOf r = errorOf out := by
  cases h <;> rfl

/-- The store in which the server starts is idle and empty. -/
theorem idle_initial : Store.initial.Idle cfg [] where
  map := HashMap.WF.init hashNList (by decide) (by decide) _
  entries := rfl
  heap := nofun
  wf := nofun
  names := List.nodup_nil
  ptrs := List.nodup_nil
  fresh _ _ := rfl
  filesMtx := rfl
  currStateMtx := rfl
  sound := ⟨List.nodup_nil, nofun, rfl, Nat.zero_le _⟩

theorem fileSystem_initial : Store.initial.fileSystem = .empty :=
  (@idle_initial ⟨0, 0, .LRU, by decide, by decide⟩).fileSystem_eq

theorem Server.Refines.init : Server.Refines cfg ⟨.initial, none⟩ ⟨.empty, none⟩ :=
  ⟨⟨[], idle_initial, not_replying⟩, fileSystem_initial, rfl⟩

/-- `close_client` closes every file for the client. -/
theorem Store.Idle.closeAll (hs : s.Idle cfg xs) :
    ∃ xs', (s.putAll (File.closed fdClient) xs).Idle cfg xs' ∧
      (s.putAll (File.closed fdClient) xs).fileSystem = s.fileSystem.disconnect fdClient := by
  have hholds := hs.toHolds.putAll (g := File.closed fdClient) (List.Sublist.refl xs)
    (fun _ => rfl) fun f hf => hf.closed
  have hfs : (s.putAll (File.closed fdClient) xs).fileSystem =
      s.fileSystem.disconnect fdClient := by
    rw [hholds.fileSystem_eq, hs.fileSystem_eq, FileSystem.disconnect, Store.currState_putAll,
      Store.files_putAll, List.map_map, List.map_map]
    refine congrArg (FileSystem.mk · _ _) (List.map_congr_left fun x hx => ?_)
    exact if_pos (List.mem_map_of_mem hx)
  refine ⟨_, ⟨hholds, ?_, ?_, ?_⟩, hfs⟩
  · rw [Store.locked_putAll, hs.filesMtx]
  · rw [Store.locked_putAll, hs.currStateMtx]
  · rw [hfs]
    refine hs.sound.congr ?_ rfl
    rw [FileSystem.disconnect, List.map_map]
    rfl

/-- A request that has been read has not touched the store. -/
theorem of_readRequest {h : Handler} {l₁ : Local} {s₁ : Store} {r : Except Sa Request}
    (hread : Prog.run exec (readRequest h) (l, s) = .ok (r, (l₁, s₁))) :
    s₁ = s ∧ (∃ inp, l₁ = { l with inp := inp }) ∧ Unread r ∧ ∀ req, r = .ok req → req.WF :=
  post_of_safe (Q := fun r w => w.2 = s ∧ (∃ inp, w.1 = { l with inp := inp }) ∧ Unread r ∧
      ∀ req, r = .ok req → req.WF)
    (safe_readRequest h fun _ inp hr hreq => ⟨rfl, ⟨inp, rfl⟩, hr, hreq⟩) hread

/-- What a section that returns has done. -/
theorem of_storeSection (hs : s.Idle cfg xs) (hreq : req.WF) (hfit : s.fileSystem.Fits req)
    {l' : Local} {r : Except Sa Reply}
    (hserve : Prog.run exec (storeSection cfg fdClient req) (l, s) = .ok (r, (l', s'))) :
    ∃ xs' readings out, Served cfg fdClient req l s r l' s' xs' readings out :=
  post_of_safe (safe_storeSection hs hreq hfit) hserve

/-- What a reply that returns has done. -/
theorem of_finish (hs : s.Idle cfg xs) {r : Except Sa Reply} {out : Except Sa FileSystem.Outcome}
    (hshown : s.Shows xs r out) {l' : Local} {code : Sa}
    (hrun : Prog.run exec (finish r) (l, s) = .ok (code, (l', s'))) :
    code = FileSystem.Outcome.code l out ∧ (∃ xs', s'.Idle cfg xs') ∧
      s'.fileSystem = s.fileSystem.release out code :=
  have h := post_of_safe (safe_finish hs hshown) hrun
  ⟨h.1, h.2.1, h.2.2.1⟩

/-- What a `close_client` that returns has done. -/
theorem of_closeClient (hs : s.Idle cfg xs) {l' : Local}
    (hrun : Prog.run exec (closeClient fdClient) (l, s) = .ok ((), (l', s'))) :
    (∃ xs', s'.Idle cfg xs') ∧ s'.fileSystem = s.fileSystem.disconnect fdClient := by
  have hpost : s' = s.putAll (File.closed fdClient) xs :=
    post_of_safe (Q := fun _ w => w.2 = s.putAll (File.closed fdClient) xs)
      (safe_closeClient hs rfl) hrun
  obtain ⟨xs', hs', hfs'⟩ := @Store.Idle.closeAll cfg fdClient s xs hs
  exact hpost ▸ ⟨⟨xs', hs'⟩, hfs'⟩

/-- Every step of the server is a step of its file system. -/
theorem Server.Step.refines (h : Server.Step cfg σ e σ') (hr : σ.Refines cfg φ) :
    ∃ φ', FileServer.Step cfg φ e φ' ∧ σ'.Refines cfg φ' := by
  obtain ⟨⟨xs, hs, hshown⟩, hfs, hreplying⟩ := hr
  obtain ⟨fs, replying⟩ := φ
  cases h with
  | @request s s₁ s₂ h fdClient l l₁ l₂ req r readings hread hserve hclock hfit =>
    obtain rfl : replying = none := by simpa using hreplying
    obtain rfl : s.fileSystem = fs := hfs
    obtain ⟨rfl, ⟨inp, rfl⟩, -, hreq⟩ := of_readRequest hread
    obtain ⟨xs', readings', out, hserved⟩ := of_storeSection hs (hreq req rfl) hfit hserve
    obtain rfl : readings = readings' :=
      List.append_cancel_right (hclock.symm.trans hserved.clock)
    rw [errorOf_of_shows hserved.shown]
    refine ⟨_, .request hserved.effect (hreq req rfl) hfit, ⟨xs', hserved.idle, ?_⟩, rfl, rfl⟩
    rintro l r' out' hl ho
    cases hl
    cases ho
    exact hserved.shown
  | @unread s s₁ h fdClient l l₁ code hread =>
    obtain rfl : replying = none := by simpa using hreplying
    obtain ⟨rfl, -⟩ := of_readRequest hread
    exact ⟨_, .unread, ⟨xs, hs, not_replying⟩, hfs, rfl⟩
  | @reply s s' l l' r code hrun =>
    cases replying with
    | none => cases hreplying
    | some out =>
      obtain rfl : s.fileSystem = fs := hfs
      obtain ⟨-, ⟨xs', hs'⟩, hfs'⟩ := of_finish hs (hshown l r out rfl rfl) hrun
      exact ⟨_, .reply, ⟨xs', hs', not_replying⟩, hfs', rfl⟩
  | @disconnect s s' l l' fdClient hrun =>
    obtain rfl : replying = none := by simpa using hreplying
    obtain rfl : s.fileSystem = fs := hfs
    obtain ⟨⟨xs', hs'⟩, hfs'⟩ := of_closeClient hs hrun
    exact ⟨_, .disconnect, ⟨xs', hs', not_replying⟩, hfs', rfl⟩

/-- Every run of the server is a run of its file system. -/
theorem run_refines (h : Run (serverSystem cfg) tr σ) :
    ∃ φ, Run (fileSystemSystem cfg) tr φ ∧ σ.Refines cfg φ := by
  refine h.simulate (fun σ hσ => ?_) fun _ _ _ _ hr hs => hs.refines hr
  obtain rfl : σ = ⟨.initial, none⟩ := hσ
  exact ⟨_, rfl, ⟨[], idle_initial, not_replying⟩, fileSystem_initial, rfl⟩

/-- A store that a run leaves between two requests is idle. -/
theorem idle_of_run (hrun : Run (serverSystem cfg) tr σ) : ∃ xs, σ.store.Idle cfg xs := by
  obtain ⟨φ, -, hr⟩ := run_refines hrun
  obtain ⟨xs, hs, -⟩ := hr.idle
  exact ⟨xs, hs⟩

/-- The invariant of the file system that a server refines. -/
theorem Server.Refines.sound (h : σ.Refines cfg φ) : φ.fs.Sound cfg := by
  obtain ⟨xs, hs, -⟩ := h.idle
  exact h.fs ▸ hs.sound

/-- The files of a file system that a server refines are in order. -/
theorem Server.Refines.wf_files (h : σ.Refines cfg φ) : ∀ f ∈ φ.fs.files, f.WF := by
  obtain ⟨xs, hs, -⟩ := h.idle
  intro f hf
  rw [← h.fs, hs.fileSystem_eq] at hf
  obtain ⟨x, hx, rfl⟩ := List.mem_map.1 hf
  exact hs.wf x hx

end Refinement

/-! ## Runs that are computed -/

/-- What happens next. -/
inductive ServerAction
  /-- The handler `h` is called for a client. -/
  | call (h : Handler) (fdClient : ℕ) (l : Local)
  /-- The handler that was called last replies. -/
  | reply
  /-- A client leaves. -/
  | leave (fdClient : ℕ) (l : Local)

/-- The readings of the clock that have been taken when these are left. -/
def Local.readings (l : Local) (left : List Timespec) : List Timespec :=
  l.clock.take (l.clock.length - left.length)

instance FileSystem.decidableFits (fs : FileSystem) (req : Request) : Decidable (fs.Fits req) :=
  inferInstanceAs (Decidable (_ < _))

/-- The step of the server, if there is one. -/
def Server.next (cfg : ServerConfig) (σ : Server) : ServerAction → Option (Event × Server)
  | .call h fdClient l =>
    match σ.replying, Prog.run exec (readRequest h) (l, σ.store) with
    | none, .ok (.ok req, (l₁, s₁)) =>
      match Prog.run exec (storeSection cfg fdClient req) (l₁, s₁) with
      | .ok (r, (l₂, s₂)) =>
        let readings := l₁.readings l₂.clock
        if l₁.clock = readings ++ l₂.clock ∧ σ.store.fileSystem.Fits req then
          some (.request h fdClient l req readings (errorOf r), ⟨s₂, some (l₂, r)⟩)
        else none
      | _ => none
    | none, .ok (.error code, (_, s₁)) => some (.unread h fdClient code, ⟨s₁, none⟩)
    | _, _ => none
  | .reply =>
    match σ.replying with
    | none => none
    | some (l, r) =>
      match Prog.run exec (finish r) (l, σ.store) with
      | .ok (code, (_, s')) => some (.reply code, ⟨s', none⟩)
      | _ => none
  | .leave fdClient l =>
    match σ.replying, Prog.run exec (closeClient fdClient) (l, σ.store) with
    | none, .ok (_, (_, s')) => some (.disconnect fdClient, ⟨s', none⟩)
    | _, _ => none

/-- What is computed are steps of the server. -/
theorem computes_next (cfg : ServerConfig) : Computes (serverSystem cfg) (Server.next cfg) := by
  rintro ⟨s, replying⟩ a e σ' hnext
  cases a with
  | call h fdClient l =>
    simp only [Server.next] at hnext
    split at hnext
    · rename_i req l₁ s₁ hread
      split at hnext
      · rename_i r l₂ s₂ hserve
        split_ifs at hnext with hcond
        cases hnext
        exact .request hread hserve hcond.1 hcond.2
      · cases hnext
    · rename_i code l₁ s₁ hread
      cases hnext
      exact .unread hread
    · cases hnext
  | reply =>
    cases replying with
    | none => cases hnext
    | some lr =>
      obtain ⟨l, r⟩ := lr
      simp only [Server.next] at hnext
      split at hnext
      · rename_i code l' s' hrun
        cases hnext
        exact .reply hrun
      · cases hnext
  | leave fdClient l =>
    simp only [Server.next] at hnext
    split at hnext
    · rename_i l' s' hrun
      cases hnext
      exact .disconnect hrun
    · cases hnext

end StorageServer
