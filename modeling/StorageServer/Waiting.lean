import StorageServer.Answers
import StorageServer.Concurrency
import StorageServer.Returning

/-!
# Threads that wait

If no send fails, allocations that an object can have are granted and the clock goes on, the threads
do not wait for each other : when a thread waits for a lock, another has a step (`progress_of_run`).
In the serial server every section returns, so that what a thread has locked it need not wait for;
and if a thread that has locked `files_mtx` waits for a reader of a file, that reader has unlocked
`files_mtx` and goes on.
-/

open Programs Transitions Threads Function

namespace StorageServer

/-! ## The serial server -/

section Serial

variable {cfg : ServerConfig} {turns : List JobTurn} {job : Job} {asked : Asked} {l l' : Local}
  {s s' : Store} {xs : List (FilePtr × File)}

/-- Where every send succeeds, no reader is left behind. -/
theorem not_losesReader (hl : l.Reliable) (inp : Stream) (o : Option Request) (fs : FileSystem)
    (fdClient : ℕ) : ¬fs.LosesReader fdClient { l with inp := inp } o := by
  rintro h
  cases o with
  | none => exact h
  | some req =>
    cases req with
    | readFile path =>
      obtain ⟨f, -, -, r, hr, hcode⟩ := h
      rw [hl r (List.mem_of_mem_take hr)] at hcode
      cases hcode
    | _ => exact h

/-- Between two turns of the serial server nobody has locked a file, if no send has failed. -/
theorem counts_of_serial (h : Run (serialServer cfg) turns s)
    (hreliable : ∀ turn ∈ turns, turn.start.Reliable) :
    ∀ f ∈ s.fileSystem.files, f.counts = (0, 0) := by
  revert hreliable
  refine h.induction (I := fun turns s => (∀ turn ∈ turns, turn.start.Reliable) →
    ∀ f ∈ s.fileSystem.files, f.counts = (0, 0)) ?_ ?_
  · rintro s rfl - f hf
    rw [fileSystem_initial] at hf
    cases hf
  rintro turns s turn s' hrun ih hstep hreliable
  have hcounts := ih fun turn hturn => hreliable turn (List.mem_cons_of_mem _ hturn)
  obtain ⟨tr, hserver⟩ := server_of_serial hrun
  obtain ⟨xs, hs⟩ := idle_of_run hserver
  cases turned_of_turn hs hstep with
  | nothing => exact hcounts
  | disconnect hstep =>
    cases hstep with
    | disconnect hclose =>
      intro f' hf'
      rw [(of_closeClient hs hclose).2] at hf'
      obtain ⟨f, hf, rfl⟩ := List.mem_map.1 hf'
      exact hcounts f hf
  | served hh =>
    intro f' hf'
    have hkeeps := (hh.keepsCounts_iff hs).2
      (not_losesReader (hreliable turn List.mem_cons_self) _ _ _ _)
    rcases hkeeps f' hf' with ⟨f, hf, -, he⟩ | ⟨-, he⟩
    · rw [← he]
      exact hcounts f hf
    · exact he

theorem Store.Idle.allFree (hs : s.Idle cfg xs)
    (hfree : ∀ f ∈ s.fileSystem.files, f.counts = (0, 0)) :
    AllFree xs := by
  intro x hx
  have hcounts : x.2.counts = (0, 0) := by
    refine hfree x.2 ?_
    rw [hs.fileSystem_eq]
    exact List.mem_map_of_mem hx
  exact ⟨congrArg Prod.fst hcounts, congrArg Prod.snd hcounts⟩

/-- The part under `files_mtx` returns. -/
theorem ends_body (hs : s.Idle cfg xs) (hfree : AllFree xs) (hl : l.Supplied)
    (hprelude : Prog.run exec job.prelude (l, s) = .ok (asked, (l', s')))
    (hlocks : asked.locks = true)
    (hadmitted : job.Admitted l s) :
    Prog.twp exec (asked.body cfg job.fdClient) (fun _ _ => True) (l', s) := by
  obtain ⟨hwf, -, inp, rfl⟩ := of_prelude hprelude
  have hsupplied : Local.Supplied { l with inp := inp } := ⟨hl.malloc, hl.clock⟩
  cases asked with
  | nothing code => cases hlocks
  | unread res => cases hlocks
  | request req =>
      exact ends_storeSection hs hfree hsupplied (hwf req rfl) (hadmitted req _ hprelude hlocks)
  | close =>
    have hloop : Prog.twp exec (closeClientLoop job.fdClient (xs.map Prod.fst)) (fun _ _ => True)
        ({ l with inp := inp }, s.setLocked true .files) := by
      refine ends_closeClientLoop (fun y hy => ?_) hs.ptrs hs.wf hfree
      rw [Store.heap_setLocked]
      exact hs.heap y hy
    rw [Asked.body, Prog.twp_bind, ends_mutexLock]
    refine ⟨hs.filesMtx, ?_⟩
    rw [Prog.twp_bind, ends_filesIter, Store.files_setLocked, hs.iter, Prog.twp_bind]
    refine Prog.twp_mono hloop fun _ w _ => ?_
    obtain ⟨l'', s''⟩ := w
    rw [Prog.twp_bind, ends_mutexUnlock, Prog.twp_pure]
    trivial

end Serial

/-! ## Operations that do not wait -/

section Operations

variable {l l' : Local} {s : Store} {o : Op} {unlocks deletes : FilePtr → ℕ}

theorem exec_private_ne_blocked (ho : o.Private) (hread : ∀ size, o ≠ .readn size) (w : World) :
    exec o w ≠ .blocked := by
  obtain ⟨l, s⟩ := w
  cases o
  case readn size => exact absurd rfl (hread size)
  case clockGettime =>
    obtain ⟨inp, sends, clock, malloc, uninit, out, log⟩ := l
    cases clock <;> nofun
  case safeMalloc size =>
    change (if l.malloc (.safe size) then _ else _) ≠ _
    split <;> nofun
  case writen | malloc | exit | uninit | logger => nofun
  all_goals exact ho.elim

/-- What returns in the settled store returns in the store, or waits for readers that have unlocked
`files_mtx`. -/
theorem ok_of_settled {r : Ans o × World} (h : exec o (l, s.settled unlocks deletes) = .ok r) :
    (∃ r', exec o (l, s) = .ok r') ∨ ∃ p, 0 < unlocks p := by
  cases o
  case readn | writen | clockGettime | safeMalloc | malloc | exit | uninit | logger =>
    obtain ⟨a, l', s'⟩ := r
    exact .inl ⟨_, (exec_of_private (by exact trivial) h).2 s⟩
  case mutexLock m =>
    change (if (s.settled unlocks deletes).locked m = true then _ else _) = _ at h
    rw [Store.locked_settled] at h
    split_ifs at h with hlocked
    exact .inl ⟨_, if_neg hlocked⟩
  case undefined => cases h
  case get | set | fileDelete | fileReaderUnlock | fileWriterUnlock =>
    obtain ⟨g, hg, -⟩ := withFile_eq_ok h
    obtain ⟨-, f, hf, -⟩ := Store.heap_settled_eq_some hg
    exact .inl ⟨_, withFile_of_some hf⟩
  case fileReaderLock p =>
    obtain ⟨g, hg, he⟩ := withFile_eq_ok h
    obtain ⟨-, f, hf, rfl⟩ := Store.heap_settled_eq_some hg
    split_ifs at he with hwriters
    have hfree : ¬f.nWriters > 0 := hwriters
    exact .inl ⟨_, (withFile_of_some hf).trans (if_neg hfree)⟩
  case fileWriterLock p =>
    obtain ⟨g, hg, he⟩ := withFile_eq_ok h
    obtain ⟨-, f, hf, rfl⟩ := Store.heap_settled_eq_some hg
    split_ifs at he with hfree
    simp only [File.without, not_or] at hfree
    by_cases hreaders : 0 < f.nReaders
    · exact .inr ⟨p, by omega⟩
    · exact .inl ⟨_, (withFile_of_some hf).trans (if_neg (by omega))⟩
  all_goals exact .inl ⟨_, rfl⟩

/-- The path that is printed is that of a file that is gone. -/
def PrintsGone (shown : List (FilePtr × CString)) (o : Op) (s : Store) : Prop :=
  ∃ x ∈ shown, o = .get x.1 .pathName ∧ s.heap x.1 = none

theorem PrintsGone.fault {shown : List (FilePtr × CString)} (h : PrintsGone shown o s) :
    exec o (l, s) = .fault := by
  obtain ⟨x, -, rfl, hgone⟩ := h
  change withFile (l, s) x.1 _ = _
  rw [withFile, hgone]

/-- A program that gives files back does not wait, and before it has unlocked its files it prints no
path. -/
theorem ok_of_giving {leak us ds : List (FilePtr × File)} {shown : List (FilePtr × CString)}
    {a : Option WorkerCode} {k : Ans o → M (Option WorkerCode)} (hbacks : s.Backs (leak ++ us) ds)
    (hgiving : Giving leak shown a l' us ds (.op o k) l) :
    o ≠ .mutexLock .files ∧ ((∃ r, exec o (l, s) = .ok r) ∨ us = [] ∧ PrintsGone shown o s) := by
  cases hgiving with
  | writen | logger => exact ⟨nofun, .inl ⟨_, rfl⟩⟩
  | @get us ds x fld k l hx hfld hk =>
    obtain ⟨f, hf, -⟩ := hbacks.heap x hx
    exact ⟨nofun, .inl ⟨_, withFile_of_some hf⟩⟩
  | @print ds x k l hx hk =>
    refine ⟨nofun, ?_⟩
    cases hf : s.heap x.1 with
    | none => exact .inr ⟨rfl, x, hx, rfl, hf⟩
    | some f => exact .inl ⟨_, withFile_of_some hf⟩
  | @unlock us ds x k l hk =>
    obtain ⟨f, hf, -⟩ := hbacks.heap x (by simp)
    exact ⟨nofun, .inl ⟨_, withFile_of_some hf⟩⟩
  | @delete us ds x k l hk =>
    obtain ⟨f, hf, -⟩ := hbacks.heap x (by simp)
    exact ⟨nofun, .inl ⟨_, withFile_of_some hf⟩⟩

end Operations

/-! ## Progress -/

section Progress

variable {T : Type} [Fintype T] [DecidableEq T] {cfg : ServerConfig} {tr : List (ServerEvent T)}
  {σ : ServerPool T} {turns : List JobTurn} {s₀ : Store} {ph : T → Phase} {mtx : Option T} {t : T}
  {job : Job} {l₀ l : Local} {o : Op} {k : Ans o → M (Option WorkerCode)}

/-- A thread has a step. -/
def HasStep (cfg : ServerConfig) (σ : ServerPool T) : Prop :=
  ∃ u job l o σ', (serverPool cfg T).step σ (.perform u job l o) σ'

omit [Fintype T] in
theorem hasStep_of_ok (ht : σ.threads t = some ⟨job, l₀, .op o k, l⟩) (ho : o ≠ .mutexLock .files)
    (h : ∃ r, exec o (l, σ.shared) = .ok r) : HasStep cfg σ := by
  obtain ⟨⟨a, l', s'⟩, hexec⟩ := h
  exact ⟨t, job, l₀, o, _, .perform ht (fun he => absurd he ho) hexec⟩

/-- A thread that will unlock a file has a step. -/
theorem Serialized.hasStep_of_unlocks (h : Serialized cfg tr σ turns s₀ ph mtx) {p : FilePtr}
    (hp : 0 < total Phase.unlocks ph p) : HasStep cfg σ := by
  obtain ⟨u, hu⟩ := total_pos_iff.1 hp
  have hphase := h.threads u
  generalize hc : ph u = c at hphase
  generalize hth : σ.threads u = th at hphase
  rw [hc] at hu
  cases hphase with
  | idle | outside | inside => exact absurd hu List.not_mem_nil
  | @leaving leak us ds shown turn q l hbacks hshown hgiving hreplying =>
    cases q with
    | ret a =>
      cases hgiving
      exact absurd hu List.not_mem_nil
    | op o k =>
      obtain ⟨ho, hok | ⟨rfl, -⟩⟩ := ok_of_giving hbacks hgiving
      · exact hasStep_of_ok hth ho hok
      · exact absurd hu List.not_mem_nil

/-- A thread that has locked `files_mtx` has a step, or waits for a thread that has one. -/
theorem Serialized.hasStep_of_inside (h : Serialized cfg tr σ turns s₀ ph mtx)
    (hreliable : ∀ turn ∈ turns, turn.start.Reliable)
    (hsupplied : ∀ t th, σ.threads t = some th → th.start.Supplied)
    (hinside : (ph t).isInside = true) :
    HasStep cfg σ := by
  obtain ⟨xs, hs⟩ := h.idle
  have hphase := h.threads t
  generalize hc : ph t = c at hphase
  generalize hth : σ.threads t = th at hphase
  rw [hc] at hinside
  cases hphase with
  | idle | outside | leaving => cases hinside
  | @inside job l₀ l₁ l own asked q hprelude hlocks hadmitted hrun hsafe hcritical =>
    obtain ⟨r, w, hbody, -⟩ := ends_body hs (hs.allFree (counts_of_serial h.run hreliable))
      (hsupplied t _ hth)
      (hprelude s₀) hlocks hadmitted
    rw [hrun] at hbody
    cases q with
    | ret r => cases hcritical
    | op o q =>
      obtain ⟨⟨a, w'⟩, hexec, -⟩ := Res.bind_eq_ok.1 hbody
      rcases ok_of_settled hexec with hok | ⟨p, hp⟩
      · refine hasStep_of_ok hth ?_ hok
        rintro rfl
        cases hcritical with
        | plain ho => exact ho
      · exact h.hasStep_of_unlocks hp

/-- The turns of the serial server are jobs that have been started. -/
theorem Serialized.started (h : Serialized cfg tr σ turns s₀ ph mtx)
    (hrun : Run (serverPool cfg T) tr σ) :
    ∀ turn ∈ turns, ∃ u, .start u turn.job turn.start ∈ tr := by
  intro turn hturn
  have hmem : turn ∈ (turns : Multiset JobTurn) := hturn
  rw [h.done, Multiset.mem_add] at hmem
  rcases hmem with hmem | hmem
  · exact (started_of_run hrun).2 turn hmem
  · obtain ⟨u, -, hu⟩ := Multiset.mem_sum.1 hmem
    have hphase := h.threads u
    generalize ph u = c at hphase hu
    generalize hth : σ.threads u = th at hphase
    cases hphase with
    | idle | outside | inside => exact absurd hu List.not_mem_nil
    | leaving hbacks hshown hgiving hreplying =>
      obtain rfl := List.mem_singleton.1 hu
      exact (started_of_run hrun).1 u _ hth

/-- If no send fails, allocations that an object can have are granted and the clock goes on, then
whenever a thread waits for a lock a thread has a step, whatever the threads have done between each
other. -/
theorem progress_of_run (h : Run (serverPool cfg T) tr σ)
    (hgood : ∀ u job l, .start u job l ∈ tr → l.Reliable ∧ l.Supplied)
    (ht : σ.threads t = some ⟨job, l₀, .op o k, l⟩) (hread : ∀ size, o ≠ .readn size)
    (hblocked : exec o (l, σ.shared) = .blocked) : HasStep cfg σ := by
  have hrun := h
  obtain ⟨turns, s₀, ph, mtx, h⟩ := serialized_of_run h
  have hsupplied : ∀ t th, σ.threads t = some th → th.start.Supplied := fun t th hth => by
    obtain ⟨u, hu⟩ := (started_of_run hrun).1 t th hth
    exact (hgood u _ _ hu).2
  have hreliable : ∀ turn ∈ turns, turn.start.Reliable := fun turn hturn => by
    obtain ⟨u, hu⟩ := h.started hrun turn hturn
    exact (hgood u _ _ hu).1
  have hnext := h.next ht
  generalize hc : ph t = c at hnext
  cases hnext with
  | prelude ho => exact absurd hblocked (exec_private_ne_blocked ho hread _)
  | enter =>
    change (if σ.shared.filesMtx = true then _ else _) = _ at hblocked
    split_ifs at hblocked with hlocked
    rw [h.locked] at hlocked
    obtain ⟨u, hu⟩ := Option.isSome_iff_exists.1 hlocked
    exact h.hasStep_of_inside hreliable hsupplied ((h.owned u).2 hu)
  | inside => exact h.hasStep_of_inside hreliable hsupplied (by rw [hc]; rfl)
  | leaving hbacks hshown hgiving =>
    obtain ⟨-, ⟨r, hok⟩ | ⟨-, hgone⟩⟩ := ok_of_giving hbacks hgiving
    · cases hok.symm.trans hblocked
    · cases hgone.fault.symm.trans hblocked

/-! ### A thread that waits -/

theorem good_at (t : ℤ) (bytes : List UInt8) :
    ((Local.at t).left bytes).Reliable ∧ ((Local.at t).left bytes).Supplied :=
  ⟨fun _ hr => absurd hr List.not_mem_nil, fun _ _ => rfl, _, _, _, rfl⟩

/-- The operation that locks this file for writing. -/
def Op.locksWriting (p : FilePtr) : Op → Bool
  | .fileWriterLock q => q = p
  | _ => false

theorem Op.locksWriting_iff {o : Op} {p : FilePtr} :
    o.locksWriting p = true ↔ o = .fileWriterLock p := by
  cases o
  case fileWriterLock q => simp [Op.locksWriting]
  all_goals exact ⟨fun h => (by cases h), fun h => (by cases h)⟩

theorem blocked_of_reading {s : Store} {p : FilePtr} (h : s.reading p = true) (l : Local) :
    exec (.fileWriterLock p) (l, s) = .blocked := by
  obtain ⟨f, hf, hreaders⟩ := (Option.any_eq_true _ _).1 h
  exact (withFile_of_some hf).trans (if_pos (.inr (of_decide_eq_true hreaders)))

/-- The client 9 fills a file, and the client 8 creates another one. Then one thread has locked the
first for reading, and the other, which has locked `files_mtx`, waits to open it. -/
def waiting : List (PoolAction Bool Job Local) :=
  served false 9 (.openFile [98] oCreate) (.at 0) 37 ++
    served false 9 (.appendToFile [98] [3] fun _ => 0) (.at 1) 36 ++
    served true 8 (.openFile [97] oCreate) (.at 2) 37 ++
    serve false 9 (.readFile [98]) (.at 3) 11 ++
    serve true 8 (.openFile [98] 0) (.at 4) 7

theorem good_of_mem_waiting {u : Bool} {job : Job} {l : Local} (h : .start u job l ∈ waiting) :
    l.Reliable ∧ l.Supplied := by
  simp only [waiting, List.mem_append] at h
  rcases h with (((h | h) | h) | h) | h
  · exact (of_start_mem_served h).2 ▸ good_at 0 _
  · exact (of_start_mem_served h).2 ▸ good_at 1 _
  · exact (of_start_mem_served h).2 ▸ good_at 2 _
  · exact (of_start_mem_serve h).2 ▸ good_at 3 _
  · exact (of_start_mem_serve h).2 ▸ good_at 4 _

/-- An example of `progress_of_run` : one thread waits for the other. -/
theorem progress_of_run_waiting : ∃ tr σ job l₀ k l, Run (serverPool .small Bool) tr σ ∧
    σ.threads true = some ⟨job, l₀, .op (.fileWriterLock 0) k, l⟩ ∧ σ.shared.filesMtx = true ∧
    σ.shared.reading 0 = true ∧ exec (.fileWriterLock 0) (l, σ.shared) = .blocked ∧
    HasStep .small σ := by
  obtain ⟨tr, σ, hrun, hstarts, hlock, hmtx, hreading⟩ :=
    (computes_serverPool .small Bool).exists_run_forall ⟨.initial, fun _ => none⟩ rfl waiting
      (Q := fun e => ∀ u job l, e = .start u job l → l.Reliable ∧ l.Supplied)
      (fun x hx s e s' hnext u job l he =>
        good_of_mem_waiting (Pool.start_of_next (he ▸ hnext) ▸ hx))
      (fun _ σ => (σ.upcoming true).any (Op.locksWriting 0) = true ∧ σ.shared.filesMtx = true ∧
        σ.shared.reading 0 = true)
      (by decide +kernel)
  obtain ⟨job, l₀, o, k, l, ho, ht⟩ := Pool.of_upcoming hlock
  obtain rfl := Op.locksWriting_iff.1 ho
  have hblocked := blocked_of_reading hreading l
  exact ⟨tr, σ, job, l₀, k, l, hrun, ht, hmtx, hreading, hblocked,
    progress_of_run hrun (fun u job l hmem => hstarts _ hmem u job l rfl) ht
      (fun _ he => by cases he)
      hblocked⟩

end Progress

end StorageServer
