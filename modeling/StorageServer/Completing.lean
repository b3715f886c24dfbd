import StorageServer.Waiting

/-!
# All jobs are done

If the clients have sent their requests, no send fails, memory suffices and the clock goes on, then
in whatever order the threads go on, after finitely many steps each job has been done once, but for
those that read the path of a file which another thread has freed (`completes_of_run`). A thread
does not go on for ever, and while there is another job a thread has a step : either nobody has
locked `files_mtx`, or the thread that has locked it has a step or waits for one that has
(`Serialized.hasStep_of_inside`).
-/

open Programs Transitions Threads Function

namespace StorageServer

/-- What a job needs. The request is there, and memory suffices for it even if the storage is
full. -/
structure Job.Ready (cfg : ServerConfig) (job : Job) (l : Local) : Prop where
  reliable : l.Reliable
  supplied : l.Supplied
  sent : ∃ r, Prog.run exec job.prelude (l, Store.initial) = .ok r
  fits : ∀ req w, Prog.run exec job.prelude (l, Store.initial) = .ok (.request req, w) →
    cfg.maxSpace + req.buffer.length < 2 ^ 63

section Completing

variable {T : Type} [Fintype T] [DecidableEq T] {cfg : ServerConfig} {tr : List (ServerEvent T)}
  {σ : ServerPool T} {turns : List JobTurn} {s s₀ : Store} {ph : T → Phase} {mtx : Option T} {t : T}
  {job : Job} {l : Local} {xs : List (FilePtr × File)}

/-- A step of the pool that starts no job. -/
abbrev GoesOn (cfg : ServerConfig) (σ σ' : ServerPool T) : Prop :=
  Pool.GoesOn exec (Job.program cfg)
    (fun job l o s => o = .mutexLock .files → job.Admitted l s) σ σ'

omit [Fintype T] in
theorem HasStep.goesOn (h : HasStep cfg σ) : ∃ σ', GoesOn cfg σ σ' := by
  obtain ⟨u, job, l, o, σ', hstep⟩ := h
  exact ⟨σ', _, hstep, rfl⟩

/-- Memory suffices for a job that comes to the store while nobody has locked `files_mtx`. -/
theorem Job.Ready.admitted (hready : job.Ready cfg l) {unlocks deletes : FilePtr → ℕ}
    (hs : (s.settled unlocks deletes).Idle cfg xs) : job.Admitted l s := by
  rintro req ⟨l', s'⟩ hrun -
  have hbytes : s.fileSystem.contentBytes = s.currState.space := by
    rw [contentBytes_settled hs]
    exact FileSystem.contentBytes_eq hs.sound fun f hf => hs.wf_files hf
  have hfits := hready.fits req _ ((run_of_private (private_prelude job) hrun).2 Store.initial)
  have hspace : s.currState.space ≤ cfg.maxSpace := hs.space_le
  rw [FileSystem.Fits, hbytes]
  omega

/-- The thread has created a file, and is about to print its path, but the file is gone. -/
def PrintsFreed (σ : ServerPool T) (t : T) : Prop :=
  ∃ job l₀ p path k l, σ.threads t = some ⟨job, l₀, .op (.get p .pathName) k, l⟩ ∧
    job.Creates l₀ path ∧ σ.shared.heap p = none

/-- While there is a job that does not print the path of a file which is gone, a thread has a
step. -/
theorem Serialized.goesOn (h : Serialized cfg tr σ turns s₀ ph mtx)
    (hready : ∀ t th, σ.threads t = some th → th.job.Ready cfg th.start)
    (hreliable : ∀ turn ∈ turns, turn.start.Reliable) :
    (∀ t, σ.threads t = none ∨ PrintsFreed σ t) ∨ ∃ σ', GoesOn cfg σ σ' := by
  by_cases hdone : ∀ t, σ.threads t = none ∨ PrintsFreed σ t
  · exact .inl hdone
  right
  obtain ⟨t, ht⟩ := not_forall.1 hdone
  obtain ⟨ht, hfreed⟩ := not_or.1 ht
  obtain ⟨th, ht⟩ := Option.ne_none_iff_exists'.1 ht
  have hphase := h.threads t
  have hjob := hready t th ht
  rw [ht] at hphase
  generalize hc : ph t = c at hphase
  generalize hth : some th = th' at hphase
  have hinside : ∀ u, (ph u).isInside = true → ∃ σ', GoesOn cfg σ σ' := fun u hu =>
    (h.hasStep_of_inside hreliable (fun t th hth => (hready t th hth).supplied) hu).goesOn
  cases hphase with
  | idle => cases hth
  | @outside job l₀ l p hprivate hrun hlocks =>
    cases hth
    cases p with
    | op o p =>
      obtain ⟨r, hsent⟩ := hjob.sent
      rw [hrun, Prog.run_op] at hsent
      obtain ⟨⟨a, l', s'⟩, hexec, -⟩ := Res.bind_eq_ok.1 hsent
      refine (hasStep_of_ok ht ?_ ⟨_, (exec_of_private hprivate.1 hexec).2 σ.shared⟩).goesOn
      rintro rfl
      exact hprivate.1
    | ret asked =>
      obtain ⟨q, hbody, -⟩ := Asked.locking_body cfg job.fdClient (hlocks asked rfl)
      rw [Prog.ret_bind, hbody, Prog.op_bind] at ht
      cases mtx with
      | some u => exact hinside u ((h.owned u).2 rfl)
      | none =>
        obtain ⟨xs, hs⟩ := h.idle
        rw [← h.free rfl] at hs
        have hfree : ¬σ.shared.filesMtx = true := by
          rw [h.locked]
          exact Bool.false_ne_true
        exact ⟨_, _, .perform ht (fun _ => hjob.admitted hs) (if_neg hfree), rfl⟩
  | inside => exact hinside t (by rw [hc]; rfl)
  | @leaving leak us ds shown turn q l hbacks hshown hgiving hreplying =>
    cases hth
    cases q with
    | ret a => exact ⟨_, _, .finish ht, rfl⟩
    | op o k =>
      obtain ⟨ho, hok | ⟨-, x, hx, rfl, hgone⟩⟩ := ok_of_giving hbacks hgiving
      · exact (hasStep_of_ok ht ho hok).goesOn
      · exact absurd ⟨_, _, x.1, x.2, k, l, ht, (hshown x hx).2, hgone⟩ hfreed

/-- If the clients have sent their requests, no send fails, memory suffices and the clock goes on,
then in whatever order the threads go on, they come to be without a job, but for those that print
the path of a file which is gone, and each other job has been done once. -/
theorem completes_of_run (h : Run (serverPool cfg T) tr σ)
    (hready : ∀ u job l, .start u job l ∈ tr → job.Ready cfg l) :
    Inevitably (GoesOn cfg) (fun σ' => (∀ t, σ'.threads t = none ∨ PrintsFreed σ' t) ∧ ∃ tr',
      Run (serverPool cfg T) (tr' ++ tr) σ' ∧
        (started tr : Multiset (Job × Local)) =
          ((finished (tr' ++ tr)).map Turn.begun : List (Job × Local)) +
            ∑ t, begun (σ'.threads t)) σ := by
  refine inevitably_of_acc (I := fun σ' => ∃ tr', Run (serverPool cfg T) (tr' ++ tr) σ' ∧
    started tr' = []) (goesOn_wf.apply σ) ⟨[], h, rfl⟩ ?_ ?_
  · rintro σ σ' ⟨tr', hrun, hstarted⟩ ⟨e, hstep, he⟩
    refine ⟨e :: tr', .step hrun hstep, ?_⟩
    rw [show started (e :: tr') = started [e] ++ started tr'
      from List.filterMap_append (l := [e]) .., he, hstarted]
    rfl
  · rintro σ ⟨tr', hrun, hstarted⟩
    have hjobs : ∀ u job l, .start u job l ∈ tr' ++ tr → job.Ready cfg l := fun u job l hmem => by
      rcases List.mem_append.1 hmem with hmem | hmem
      · have hnil := mem_started.2 ⟨u, hmem⟩
        rw [hstarted] at hnil
        cases hnil
      · exact hready u job l hmem
    obtain ⟨turns, s₀, ph, mtx, hser⟩ := serialized_of_run hrun
    have hthreads : ∀ t th, σ.threads t = some th → th.job.Ready cfg th.start := fun t th hth => by
      obtain ⟨u, hu⟩ := (started_of_run hrun).1 t th hth
      exact hjobs u _ _ hu
    rcases hser.goesOn hthreads fun turn hturn => by
      obtain ⟨u, hu⟩ := hser.started hrun turn hturn
      exact (hjobs u _ _ hu).reliable with hnone | hgoes
    · refine .inl ⟨hnone, tr', hrun, ?_⟩
      have heq := started_eq hrun
      rw [show started (tr' ++ tr) = started tr' ++ started tr
        from List.filterMap_append .., hstarted,
        List.nil_append] at heq
      exact heq
    · exact .inr hgoes

/-! ### The example of a thread that waits -/

theorem ready_of_asks (req : Request) (hgood : l.Reliable ∧ l.Supplied)
    (hasks : job.asks l .initial = some req) (hfits : cfg.maxSpace + req.buffer.length < 2 ^ 63) :
    job.Ready cfg l := by
  obtain ⟨w, hrun⟩ := Job.asks_eq_some.1 hasks
  refine ⟨hgood.1, hgood.2, ⟨_, hrun⟩, fun req' w' hrun' => ?_⟩
  cases hrun.symm.trans hrun'
  exact hfits

theorem ready_of_mem_waiting {u : Bool} (h : .start u job l ∈ waiting) : job.Ready .small l := by
  have hgood := good_of_mem_waiting h
  simp only [waiting, List.mem_append] at h
  rcases h with (((h | h) | h) | h) | h
  · obtain ⟨rfl, rfl⟩ := of_start_mem_served h
    exact ready_of_asks (.openFile [98] oCreate) hgood (by decide +kernel) (by decide)
  · obtain ⟨rfl, rfl⟩ := of_start_mem_served h
    exact ready_of_asks (.appendToFile [98] 1 [3]) hgood (by decide +kernel) (by decide)
  · obtain ⟨rfl, rfl⟩ := of_start_mem_served h
    exact ready_of_asks (.openFile [97] oCreate) hgood (by decide +kernel) (by decide)
  · obtain ⟨rfl, rfl⟩ := of_start_mem_serve h
    exact ready_of_asks (.readFile [98]) hgood (by decide +kernel) (by decide)
  · obtain ⟨rfl, rfl⟩ := of_start_mem_serve h
    exact ready_of_asks (.openFile [98] 0) hgood (by decide +kernel) (by decide)

/-- An example of `completes_of_run` : one thread waits for the other. -/
theorem completes_of_run_waiting : ∃ tr σ, Run (serverPool .small Bool) tr σ ∧
    (σ.upcoming true).any (Op.locksWriting 0) = true ∧ σ.shared.reading 0 = true ∧
    Inevitably (GoesOn .small) (fun σ' => (∀ t, σ'.threads t = none ∨ PrintsFreed σ' t) ∧ ∃ tr',
      Run (serverPool .small Bool) (tr' ++ tr) σ' ∧
        (started tr : Multiset (Job × Local)) =
          ((finished (tr' ++ tr)).map Turn.begun : List (Job × Local)) +
            ∑ t, begun (σ'.threads t)) σ := by
  obtain ⟨tr, σ, hrun, hstarts, hlock, hreading⟩ :=
    (computes_serverPool .small Bool).exists_run_forall ⟨.initial, fun _ => none⟩ rfl waiting
      (Q := fun e => ∀ u job l, e = .start u job l → job.Ready .small l)
      (fun x hx s e s' hnext u job l he =>
        ready_of_mem_waiting (Pool.start_of_next (he ▸ hnext) ▸ hx))
      (fun _ σ => (σ.upcoming true).any (Op.locksWriting 0) = true ∧ σ.shared.reading 0 = true)
      (by decide +kernel)
  exact ⟨tr, σ, hrun, hlock, hreading,
    completes_of_run hrun fun u job l hmem => hstarts _ hmem u job l rfl⟩

end Completing

end StorageServer
