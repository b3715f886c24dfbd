import StorageServer.RequestQueue

/-!
# The end of the workers

Once the server is to be closed, no worker goes to sleep that has not tested the mode before. So a
broadcast that is made then, and that finds no worker between its test of the mode and its
`cond_wait`, wakes all workers that sleep, and no other goes to sleep after it (`awake_of_roused`).
If the main thread leaves its loop only after such a broadcast, no worker sleeps while it joins them
(`not_asleep_of_run`). It may leave the loop without a broadcast, at the condition of the loop, and
a worker may go to sleep after the broadcast, as it is made without the mutex; then a worker sleeps
for ever (`exists_asleep`, `exists_asleep_of_leave`).
-/

open Function Transitions

namespace StorageServer

namespace ServerThreads

variable {n : ℕ}

/-- No worker sleeps, or is to wait. -/
def Awake (s : ServerThreads n) : Prop :=
  ∀ w, s.worker w ≠ .wait ∧ s.worker w ≠ .asleep

/-- The main thread wakes the workers, when the server is to be closed and no worker that has tested
the mode is still to wait. -/
structure Rouses (s : ServerThreads n) (a : Action n) : Prop where
  main : a = .main
  broadcast : (∃ p, s.main = .wake p) ∨ s.main = .finish
  mode : s.mode = .closeServer
  wait : ∀ w, s.worker w ≠ .wait

/-- The threads, with a record of whether the main thread has done so. -/
def recordingSystem (d : Descriptors n) : System (ServerThreads n × Prop) (Action n) :=
  (system d).ghost False fun roused s a => roused ∨ s.Rouses a

/-- The main thread leaves its loop only after it has done so. -/
def LeavesRoused (x : ServerThreads n × Prop) (a : Action n) : Prop :=
  a = .main → x.1.main = .test → x.1.mode = .closeServer → x.2

section Awake

variable {d : Descriptors n} {s s' : ServerThreads n} {a : Action n} {tr : List (Action n)}
  {w : Fin n} {c : WorkerPc} {x : ServerThreads n × Prop}

/-- The mode stays as it is once the server is to be closed. -/
theorem Locked.closed (h : s.Locked) (hs : Step d s a s') (hmode : s.mode = .closeServer) :
    s'.mode = .closeServer := by
  cases hs with
  | remove w res => exact (closeClient_eq s res.fdClient).2.2.1.trans hmode
  | last => rfl
  | terminate mode hsig => exact absurd hsig (h.sig (by rw [hmode]; decide))
  | _ => exact hmode

theorem Awake.update (h : s.Awake) (hworker : s'.worker = update s.worker w c) (hwait : c ≠ .wait)
    (hasleep : c ≠ .asleep) : s'.Awake := by
  intro u
  rw [hworker]
  by_cases huw : u = w
  · rw [huw, update_self]
    exact ⟨hwait, hasleep⟩
  · rw [update_of_ne huw]
    exact h u

/-- No worker goes to sleep once the server is to be closed, if none is about to. -/
theorem Awake.step (h : s.Awake) (hmode : s.mode = .closeServer) (hs : Step d s a s') :
    s'.Awake := by
  cases hs with
  | loop | join | select | passed | skip | accept | refuse | stop | restore | request | lock | push
  | quiet | unlock | again | last | terminate | sigClose => exact h
  | remove w res rest r table hat =>
    intro u
    change (s.closeClient res.fdClient).worker u ≠ _ ∧ (s.closeClient res.fdClient).worker u ≠ _
    rw [(closeClient_eq s res.fdClient).1]
    exact h u
  | wake hmain | finish hmain =>
    intro u
    change (if s.worker u = .asleep then WorkerPc.woken else s.worker u) ≠ _ ∧
      (if s.worker u = .asleep then WorkerPc.woken else s.worker u) ≠ _
    rw [if_neg (h u).2]
    exact h u
  | @workerTest w hw =>
    rw [if_neg fun htest => htest.1 hmode]
    exact h.update rfl (by exact nofun) (by exact nofun)
  | @workerWait w hw => exact absurd hw (h w).1
  | workerLoop hw | workerCheck hw =>
    refine h.update rfl ?_ ?_ <;> split_ifs <;> exact nofun
  | signal | workerLock | workerWake | workerRelock | workerLeave | workerPop | workerFail
  | workerUnlock | workerServe | workerClose =>
    exact h.update rfl (by exact nofun) (by exact nofun)

/-- A broadcast wakes the workers that sleep. -/
theorem awake_wakeWorkers (hwait : ∀ w, s.worker w ≠ .wait) : s.wakeWorkers.Awake := by
  intro w
  change (if s.worker w = .asleep then WorkerPc.woken else s.worker w) ≠ _ ∧
    (if s.worker w = .asleep then WorkerPc.woken else s.worker w) ≠ _
  split_ifs with hasleep
  · exact ⟨by decide, by decide⟩
  · exact ⟨hwait w, hasleep⟩

/-- The step of such a broadcast. -/
theorem Rouses.awake (h : s.Rouses a) (hs : Step d s a s') : s'.mode = .closeServer ∧ s'.Awake := by
  obtain ⟨rfl, hmain, hmode, hwait⟩ := h
  cases hs with
  | wake | finish => exact ⟨hmode, awake_wakeWorkers hwait⟩
  | accept _ _ _ hat | refuse hat | stop hat | restore _ _ _ _ hat | remove _ _ _ _ _ hat
  | request hat =>
    rw [hat.main] at hmain
    exact absurd hmain (by simp)
  | loop h | join h | select _ h | passed h | skip h | lock h | signal _ h | quiet h | unlock h
  | again h | last h =>
    rw [h] at hmain
    exact absurd hmain (by simp)

/-- After such a broadcast every worker is awake, whatever steps are taken. -/
theorem awake_of_roused (hrun : Run (recordingSystem d) tr x) (hroused : x.2) :
    x.1.mode = .closeServer ∧ x.1.Awake := by
  refine hrun.induction (I := fun _ x => x.2 → x.1.mode = .closeServer ∧ x.1.Awake) ?_ ?_ hroused
  · rintro ⟨s, roused⟩ ⟨-, rfl⟩ hfalse
    exact False.elim hfalse
  · rintro tr ⟨s, roused⟩ a ⟨s', roused'⟩ hrun ih ⟨hs, rfl⟩ hroused
    rcases hroused with hroused | hroused
    · obtain ⟨hmode, hawake⟩ := ih hroused
      exact ⟨(mutex_of_run hrun.of_ghost).closed hs hmode, hawake.step hmode hs⟩
    · exact hroused.awake hs

/-- Behind the loop such a broadcast has been made. -/
theorem roused_of_join (hrun : Run ((recordingSystem d).restrict LeavesRoused) tr x)
    (hmain : x.1.main = .join) : x.2 := by
  refine hrun.induction (I := fun _ x => x.1.main = .join → x.2) ?_ ?_ hmain
  · rintro ⟨s, roused⟩ ⟨⟨-, -, hmain, -⟩, -⟩ hjoin
    rw [hmain] at hjoin
    cases hjoin
  · rintro tr ⟨s, roused⟩ a ⟨s', roused'⟩ - ih ⟨hleaves, hs, rfl⟩ hjoin
    refine .inl ?_
    dsimp only at hs hjoin
    cases hs with
    | join htest hmode => exact hleaves rfl htest hmode
    | loop | select | passed | skip | accept | refuse | stop | wake | restore | remove | request
    | lock | push | signal | quiet | unlock | again | last | finish => cases hjoin
    | _ => exact ih hjoin

/-- If the main thread leaves its loop only after a broadcast that is made when the server is to be
closed and no worker that has tested the mode is still to wait, no worker sleeps while it joins
them. -/
theorem not_asleep_of_run (hrun : Run ((recordingSystem d).restrict LeavesRoused) tr x)
    (hmain : x.1.main = .join) (w : Fin n) : x.1.worker w ≠ .asleep :=
  ((awake_of_roused hrun.of_restrict (roused_of_join hrun hmain)).2 w).2

/-- An example of `not_asleep_of_run` : the broadcast wakes the two workers that sleep. -/
theorem not_asleep_of_run_two : ∃ tr x,
    Run ((recordingSystem twoWorkers).restrict LeavesRoused) tr x ∧ x.1.main = .join ∧
      x.1.worker 0 = .woken ∧ x.1.worker 1 = .woken ∧
    ∀ w, x.1.worker w ≠ .asleep := by
  -- a step, which is not the last one of the loop or comes after a broadcast
  have hgo : ∀ {tr} {s s' : ServerThreads 2} {roused : Prop} {a},
      Run ((recordingSystem twoWorkers).restrict LeavesRoused) tr (s, roused) →
      Step twoWorkers s a s' → LeavesRoused (s, roused) a →
      Run ((recordingSystem twoWorkers).restrict LeavesRoused) (a :: tr)
        (s', roused ∨ s.Rouses a) := fun h hs hleaves => h.step ⟨hleaves, hs, rfl⟩
  have hother : ∀ {s : ServerThreads 2} {roused : Prop} {a : Action 2}, a ≠ .main ∨
      s.main ≠ .test ∨ s.mode ≠ .closeServer → LeavesRoused (s, roused) a := fun h ha hmain hmode =>
    absurd h (not_or.2 ⟨not_not.2 ha, not_or.2 ⟨not_not.2 hmain, not_not.2 hmode⟩⟩)
  have hstart : Run ((recordingSystem twoWorkers).restrict LeavesRoused) []
      (twoWorkersInit, False) :=
    .start ⟨init_twoWorkersInit, rfl⟩
  have hlock := hgo (hgo hstart (.workerLoop (w := 0) rfl) (hother (by decide)))
    (.workerLock (w := 0) rfl rfl) (hother (by decide))
  have hfirst := hgo (hgo hlock (.workerTest (w := 0) rfl) (hother (by decide)))
    (.workerWait (w := 0) rfl) (hother (by decide))
  have hlock := hgo (hgo hfirst (.workerLoop (w := 1) rfl) (hother (by decide)))
    (.workerLock (w := 1) rfl rfl) (hother (by decide))
  have hsecond := hgo (hgo hlock (.workerTest (w := 1) rfl) (hother (by decide)))
    (.workerWait (w := 1) rfl) (hother (by decide))
  -- a signal
  have hsignal := hgo (hgo (hgo hsecond (.loop rfl (by decide)) (hother (by decide)))
    (.terminate .closeServer rfl (by decide)) (hother (by decide))) (.sigClose rfl)
    (hother (by decide))
  have hselect := hgo (hgo hsignal (.select {1} rfl (by decide) fun i hi => by
      obtain rfl := Finset.mem_singleton.1 hi
      exact ⟨fun _ => rfl, by decide⟩) (hother (by decide)))
    (.skip rfl (by decide) (by decide)) (hother (by decide))
  have hwake := hgo (hgo hselect (.stop ⟨rfl, by decide, by decide⟩ (by decide) (by decide))
    (hother (by decide))) (.wake rfl) (hother (by decide))
  have hjoin := hgo (hgo hwake (.again rfl (by decide)) (hother (by decide)))
    (.join rfl (by decide)) fun _ _ _ => .inl (.inr ⟨rfl, .inl ⟨_, rfl⟩, by decide, by decide⟩)
  exact ⟨_, _, hjoin, rfl, rfl, rfl, not_asleep_of_run hjoin rfl⟩

/-- The main thread leaves the loop at its condition, without a broadcast. -/
theorem exists_asleep : ¬∀ (n : ℕ) (d : Descriptors n) (tr : List (Action n)) (s : ServerThreads n),
    Run (system d) tr s → s.main = .join → ∀ w, s.worker w ≠ .asleep := by
  intro hall
  have hstart : Run (system twoWorkers) [] twoWorkersInit := .start init_twoWorkersInit
  have hasleep := (((hstart.step (.workerLoop (w := 0) rfl)).step
    (.workerLock (w := 0) rfl rfl)).step (.workerTest (w := 0) rfl)).step (.workerWait (w := 0) rfl)
  have hjoin :=
    (hasleep.step (.terminate .closeServer rfl (by decide))).step (.join rfl (by decide))
  exact hall 2 twoWorkers _ _ hjoin rfl 0 rfl

/-- If the main thread leaves the loop while a worker waits or is to wait, one can sleep for
ever. -/
theorem exists_asleep_of_leave (hrun : Run (system d) tr s) (hmain : s.main = .test)
    (hmode : s.mode = .closeServer) (hawake : ¬s.Awake) :
    ∃ tr s' w, Run (system d) tr s' ∧ s'.main = .join ∧ s'.worker w = .asleep := by
  have hjoin := hrun.step (.join hmain hmode)
  obtain ⟨w, hw⟩ := not_forall.1 hawake
  by_cases hwait : s.worker w = .wait
  · exact ⟨_, _, w, hjoin.step (.workerWait hwait), rfl, update_self w _ _⟩
  · have hasleep : s.worker w = .asleep := by
      by_contra hne
      exact hw ⟨hwait, hne⟩
    exact ⟨_, _, w, hjoin, rfl, hasleep⟩

end Awake

end ServerThreads

end StorageServer
