import StorageServer.Fifo

/-!
# Reads that are inserted

A run under the policy FIFO with more reads than another one takes its readings of the clock at
other times. Only one reading of a job is put anywhere but into `last_use` : the first of an
`open_file` that creates a file, which is put into `creation_time` (`Stamping`). So if these are
the same, the requests that the two runs share get the same replies, the same files are expelled,
and the stores are the same but for `last_use` (`same_with_inserted_reads`).
-/

open Programs Transitions

namespace StorageServer

/-! ## Readings that only go to `last_use` -/

/-- An operation that neither reads the clock nor looks at `last_use`. -/
def Op.Timeless : Op → Prop
  | .clockGettime | .get _ .lastUse => False
  | _ => True

theorem Op.Timeless.blind {o : Op} (h : o.Timeless) : o.Blind := by
  cases o
  case get p fld =>
    cases fld
    case lastUse => exact h
    all_goals trivial
  all_goals trivial

theorem Op.Asking.timeless {o : Op} (h : o.Asking) : o.Timeless := by
  cases o <;> first | exact trivial | exact h.elim

theorem Op.Replying.timeless {o : Op} (h : o.Replying) : o.Timeless := by
  cases o
  case get p fld => cases fld <;> first | exact trivial | exact h.elim
  all_goals first | exact trivial | exact h.elim

theorem Op.Steady.timeless {o : Op} (h : o.Steady .FIFO) : o.Timeless := by
  cases o
  case get p fld => cases fld <;> first | exact trivial | cases h
  all_goals first | exact trivial | exact h.elim

/-- What the program reads of the clock goes to `last_use`, but for the first reading if it
creates a file. -/
inductive Stamping {α : Type} : Bool → M α → Prop
  | ret {creates : Bool} (a : α) : Stamping creates (.ret a)
  | op {creates : Bool} {o : Op} {k : Ans o → M α} (ho : o.Timeless)
      (h : ∀ a, Stamping creates (k a)) : Stamping creates (.op o k)
  | use {creates : Bool} {p : FilePtr} {k : Unit → M α} (h : Stamping false (k ())) :
      Stamping creates (.op .clockGettime fun t => .op (.set p .lastUse t) k)
  | creation {k : Timespec → M α} (h : ∀ t, Stamping false (k t)) :
      Stamping true (.op .clockGettime k)

/-- The job creates a file, or finds it there. -/
def Asked.creates : Asked → Bool
  | request (.openFile _ flags) => isFlagSet flags oCreate
  | _ => false

/-- The job asks to create a file. -/
def Job.asksToCreate (job : Job) (l : Local) : Bool :=
  match Prog.run exec job.prelude (l, Store.initial) with
  | .ok (asked, _) => asked.creates
  | _ => false

section Stamping

variable {α β : Type} {creates : Bool} {p : M β} {k : β → M α}

theorem Stamping.mono {p : M α} (h : Stamping false p) : Stamping creates p := by
  cases creates with
  | false => exact h
  | true =>
    generalize hc : false = c at h
    induction h with
    | ret a => exact .ret a
    | op ho h ih => exact .op ho fun a => ih a hc
    | use h ih => exact .use h
    | creation h ih => cases hc

theorem Stamping.of_only {p : M α} (h : p.Only Op.Timeless) : Stamping creates p := by
  induction p with
  | ret a => exact .ret a
  | op o k ih => exact .op h.1 fun a => ih a (h.2 a)

theorem Stamping.bind (h : Stamping creates p) (hk : ∀ b, Stamping false (k b)) :
    Stamping creates (p >>= k) := by
  induction h with
  | ret b => exact (hk b).mono
  | op ho h ih => exact .op ho ih
  | @use creates p q h ih => exact @Stamping.use _ creates p (fun u => q u >>= k) ih
  | creation h ih => exact .creation ih

theorem Stamping.after (hp : p.Only Op.Timeless) (hk : ∀ b, Stamping creates (k b)) :
    Stamping creates (p >>= k) := by
  induction p with
  | ret b => exact hk b
  | op o q ih => exact .op hp.1 fun r => ih r (hp.2 r)

theorem Stamping.perform (o : Op) (ho : o.Timeless) {k : Ans o → M α}
    (hk : ∀ a, Stamping creates (k a)) : Stamping creates (StorageServer.perform o >>= k) :=
  .op ho hk

theorem Stamping.ite {c : Prop} [Decidable c] {p q : M α} (hp : Stamping creates p)
    (hq : Stamping creates q) : Stamping creates (if c then p else q) := by
  split
  · exact hp
  · exact hq

/-- A file is used. -/
theorem Stamping.stamp (p : FilePtr) {q : M α} (h : Stamping false q) :
    Stamping creates (clockGettime >>= fun t => set p .lastUse t >>= fun _ => q) :=
  @Stamping.use _ creates p (fun _ => q) h

/-- A refusal, which unlocks the file first. -/
theorem Stamping.refuse (p : FilePtr) (a : α) :
    Stamping creates (fileWriterUnlock p >>= fun _ => mutexUnlock .files >>= fun _ => pure a) :=
  .perform (.fileWriterUnlock p) trivial fun _ =>
    .perform (.mutexUnlock .files) trivial fun _ => .ret a

/-- The end of a section. -/
theorem Stamping.done (a : α) : Stamping creates (mutexUnlock .files >>= fun _ => pure a) :=
  .perform (.mutexUnlock .files) trivial fun _ => .ret a

end Stamping

section Sections

variable {cfg : ServerConfig} {fdClient : ℕ} {path : CString} {creates : Bool}

theorem timeless_of_steady {α : Type} {p : M α} (h : p.Only (Op.Steady .FIFO)) :
    p.Only Op.Timeless :=
  h.mono fun _ => Op.Steady.timeless

theorem timeless_makeRoom (hpolicy : cfg.policy = .FIFO) (p : FilePtr) (size : ℕ) :
    (makeRoom cfg p size).Only Op.Timeless := by
  have h := steady_makeRoom cfg p size
  rw [hpolicy] at h
  exact timeless_of_steady h

theorem stamping_createFile (flags : ℤ) :
    Stamping true (createFile path flags fdClient) := by
  refine .perform (.safeMalloc _) trivial fun _ =>
    .after (timeless_of_steady (steady_initOpeners fdClient)) fun _ => ?_
  refine .perform (.fileNew _) trivial fun file =>
    .perform (.fileWriterLock file) trivial fun _ => .creation fun t => ?_
  exact .perform (.set file .creationTime t) trivial fun _ => .stamp file (.ret file)

theorem stamping_openFileCreate (hpolicy : cfg.policy = .FIFO) (flags : ℤ) :
    Stamping true (openFileCreate cfg fdClient path flags) := by
  refine Stamping.bind ?_ fun r => ?_
  · refine .perform (.mutexLock .files) trivial fun _ =>
      .perform (.hashmapContains path) trivial fun b => .ite (.done _) ?_
    refine (stamping_createFile flags).bind fun file => ?_
    exact .perform (.mutexLock .currState) trivial fun _ => .ret _
  cases r with
  | error code => exact .ret _
  | ok file =>
    have hend : ∀ expelled : Option FilePtr,
        Stamping false (openFileCreateEnd path file expelled) := fun expelled => by
      refine .perform (.mutexUnlock .currState) trivial fun _ => ?_
      refine .perform (.set file .canBeExpelled true) trivial fun _ => ?_
      refine .perform (.hashmapInsert path file) trivial fun _ => ?_
      refine .perform (.mutexLock .currState) trivial fun _ =>
        .perform .getState trivial fun _ => ?_
      refine .perform (.setState _) trivial fun _ => .perform .getState trivial fun _ => ?_
      refine .perform (.setState _) trivial fun _ => .perform .getState trivial fun _ => ?_
      refine .perform (.logger _) trivial fun _ => .perform (.logger _) trivial fun _ => ?_
      exact .perform (.mutexUnlock .currState) trivial fun _ => .refuse file _
    have hexpell := steady_expellSingleFile cfg
    rw [hpolicy] at hexpell
    exact .perform .getState trivial fun st =>
      .ite (.after (timeless_of_steady hexpell) hend) (hend none)

theorem stamping_openFileExisting (flags : ℤ) :
    Stamping creates (openFileExisting fdClient path flags) := by
  refine .perform (.mutexLock .files) trivial fun _ =>
    .perform (.hashmapGetByKey path) trivial fun found => ?_
  cases found with
  | none => exact .done _
  | some p =>
    have hend : Stamping creates (clockGettime >>= fun t => set p .lastUse t >>= fun _ =>
        fileWriterUnlock p >>= fun _ => mutexUnlock .files >>= fun _ => pure Sa.success) :=
      .stamp p (.refuse p _)
    have hopen : Stamping creates (getFdOpen p >>= fun table =>
        if !table.contains fdClient then
          addOpener p fdClient >>= fun _ => clockGettime >>= fun t => set p .lastUse t >>= fun _ =>
            fileWriterUnlock p >>= fun _ => mutexUnlock .files >>= fun _ => pure Sa.success
        else clockGettime >>= fun t => set p .lastUse t >>= fun _ =>
          fileWriterUnlock p >>= fun _ => mutexUnlock .files >>= fun _ => pure Sa.success) :=
      .perform (.get p .fdOpen) trivial fun _ =>
        .ite (.after (timeless_of_steady (steady_addOpener p fdClient)) fun _ => hend) hend
    refine .perform (.fileWriterLock p) trivial fun _ => .ite ?_ hopen
    refine .perform (.get p .fdLock) trivial fun fdLock => .ite (.refuse p _) ?_
    exact .perform (.set p .fdLock _) trivial fun _ => hopen

theorem stamping_closeFileStore : Stamping creates (closeFileStore fdClient path) := by
  refine .perform (.mutexLock .files) trivial fun _ =>
    .perform (.hashmapGetByKey path) trivial fun found => ?_
  cases found with
  | none => exact .done _
  | some p =>
    refine .perform (.fileWriterLock p) trivial fun _ =>
      .after (timeless_of_steady (steady_removeOpener p fdClient)) fun _ => ?_
    refine .perform (.get p .fdLock) trivial fun fdLock => .ite ?_ (.refuse p _)
    exact .perform (.set p .fdLock (-1)) trivial fun _ => .refuse p _

theorem stamping_writeFileStore (hpolicy : cfg.policy = .FIFO) (size : ℤ) (buf : List UInt8) :
    Stamping creates (writeFileStore cfg fdClient path size buf) := by
  refine Stamping.bind ?_ fun r => ?_
  · refine .perform (.mutexLock .files) trivial fun _ =>
      .perform (.hashmapGetByKey path) trivial fun found => ?_
    cases found with
    | none => exact .done _
    | some p =>
      refine .perform (.fileWriterLock p) trivial fun _ => ?_
      refine .perform (.get p .fdOpen) trivial fun _ => .ite (.refuse p _) ?_
      refine .perform (.get p .fdLock) trivial fun _ => .ite (.refuse p _) ?_
      refine .perform (.get p .size) trivial fun _ => .ite (.refuse p _) (.ite (.refuse p _) ?_)
      refine .perform (.malloc .list) trivial fun _ => .ite (.refuse p _) ?_
      refine .perform (.set p .size _) trivial fun _ =>
        .perform (.set p .contents _) trivial fun _ => .stamp p ?_
      exact .perform (.mutexLock .currState) trivial fun _ =>
        .perform (.get p .size) trivial fun n => .ret _
  cases r with
  | error code => exact .ret _
  | ok r =>
    refine .after (timeless_makeRoom hpolicy r.1 r.2) fun toExpell => ?_
    refine .perform .getState trivial fun _ => .perform (.logger _) trivial fun _ => ?_
    refine .perform (.logger _) trivial fun _ =>
      .perform (.mutexUnlock .currState) trivial fun _ => ?_
    exact .refuse r.1 _

theorem stamping_appendToFileStore (hpolicy : cfg.policy = .FIFO) (size : ℕ) (buf : List UInt8) :
    Stamping creates (appendToFileStore cfg fdClient path size buf) := by
  refine Stamping.bind ?_ fun r => ?_
  · refine .perform (.mutexLock .files) trivial fun _ =>
      .perform (.hashmapGetByKey path) trivial fun found => ?_
    cases found with
    | none => exact .done _
    | some p =>
      refine .perform (.fileWriterLock p) trivial fun _ => ?_
      refine .perform (.get p .fdOpen) trivial fun _ => .ite (.refuse p _) ?_
      refine .perform (.get p .size) trivial fun _ => .ite (.refuse p _) ?_
      refine .perform (.get p .size) trivial fun _ => .perform (.safeMalloc _) trivial fun _ => ?_
      refine .perform (.get p .contents) trivial fun _ =>
        .perform (.set p .contents _) trivial fun _ => ?_
      refine .perform (.get p .size) trivial fun _ =>
        .perform (.set p .size _) trivial fun _ => .stamp p ?_
      exact .perform (.mutexLock .currState) trivial fun _ => .ret _
  cases r with
  | error code => exact .ret _
  | ok r =>
    refine .after (timeless_makeRoom hpolicy r.1 r.2) fun toExpell =>
      .perform .getState trivial fun _ => ?_
    refine .perform (.mutexUnlock .currState) trivial fun _ =>
      .perform (.logger _) trivial fun _ => ?_
    exact .perform (.logger _) trivial fun _ => .refuse r.1 _

theorem stamping_readFileStore : Stamping creates (readFileStore fdClient path) := by
  refine .perform (.mutexLock .files) trivial fun _ =>
    .perform (.hashmapGetByKey path) trivial fun found => ?_
  cases found with
  | none => exact .done _
  | some p =>
    refine .perform (.fileReaderLock p) trivial fun _ =>
      .perform (.get p .fdOpen) trivial fun _ => .ite ?_ (.stamp p (.done _))
    exact .perform (.fileReaderUnlock p) trivial fun _ => .done _

theorem timeless_readNLoop (ps : List FilePtr) (N err : ℤ) (fileList : List FilePtr) :
    (readNLoop ps N err fileList).Only Op.Timeless := by
  induction ps generalizing N err fileList with
  | nil => trivial
  | cons p ps ih =>
    refine .ite ⟨trivial, fun _ => ⟨trivial, fun granted => ?_⟩⟩ trivial
    cases granted with
    | false => exact ⟨trivial, fun _ => trivial⟩
    | true => exact ih _ _ _

theorem stamping_readNFilesStore (N : ℤ) : Stamping creates (readNFilesStore N) := by
  refine .perform (.mutexLock .files) trivial fun _ =>
    .perform (.mutexLock .currState) trivial fun _ => .perform .getState trivial fun st => ?_
  refine .perform (.mutexUnlock .currState) trivial fun _ => .perform .uninit trivial fun err => ?_
  refine .perform .hashmapIter trivial fun ps => .after (timeless_readNLoop ps _ _ _) fun r =>
    .ite (.after ?_ fun _ => .done _) (.done _)
  exact (replying_readerUnlockAll r.1).mono fun _ => Op.Replying.timeless

theorem stamping_removeFileStore : Stamping creates (removeFileStore fdClient path) := by
  refine .perform (.mutexLock .files) trivial fun _ =>
    .perform (.hashmapGetByKey path) trivial fun found => ?_
  cases found with
  | none => exact .done _
  | some p =>
    refine .perform (.fileWriterLock p) trivial fun _ => ?_
    refine .perform (.get p .fdOpen) trivial fun _ => .ite (.refuse p _) ?_
    refine .perform (.get p .fdLock) trivial fun _ => .ite (.refuse p _) ?_
    refine .perform (.mutexLock .currState) trivial fun _ => .perform .getState trivial fun _ => ?_
    refine .perform (.setState _) trivial fun _ => .perform .getState trivial fun _ => ?_
    refine .perform (.get p .size) trivial fun _ => .perform (.setState _) trivial fun _ => ?_
    refine .perform .getState trivial fun _ => .perform (.logger _) trivial fun _ => ?_
    refine .perform (.logger _) trivial fun _ =>
      .perform (.mutexUnlock .currState) trivial fun _ => ?_
    refine .perform (.hashmapRemove path) trivial fun removed => ?_
    exact .perform (.fileDelete _) trivial fun _ => .done _

/-- Under FIFO, what a job reads of the clock under `files_mtx` goes to `last_use`, but for the
creation time. -/
theorem Asked.stamping_body (hpolicy : cfg.policy = .FIFO) (asked : Asked) (fdClient : ℕ) :
    Stamping asked.creates (asked.body cfg fdClient) := by
  cases asked with
  | nothing code => exact .ret _
  | unread res => exact .ret _
  | close =>
    refine .perform (.mutexLock .files) trivial fun _ => .perform .hashmapIter trivial fun ps => ?_
    exact .after (timeless_of_steady (steady_closeClientLoop ps)) fun _ => .done _
  | request req =>
    cases req with
    | openFile path flags =>
      rw [Asked.body, storeSection, Asked.creates]
      split
      · rename_i hflag
        rw [hflag]
        exact (stamping_openFileCreate hpolicy flags).bind fun _ => .ret _
      · exact (stamping_openFileExisting flags).bind fun _ => .ret _
    | closeFile path => exact stamping_closeFileStore.bind fun _ => .ret _
    | writeFile path size buf =>
      exact (stamping_writeFileStore hpolicy size buf).bind fun _ => .ret _
    | appendToFile path size buf =>
      rw [Asked.body, storeSection]
      exact .ite ((stamping_appendToFileStore hpolicy size buf).bind fun _ => .ret _) (.ret _)
    | readFile path => exact stamping_readFileStore.bind fun _ => .ret _
    | readNFiles N => exact (stamping_readNFilesStore N).bind fun _ => .ret _
    | removeFile path => exact stamping_removeFileStore.bind fun _ => .ret _

theorem Asked.timeless_tail (asked : Asked) (r : Except Sa Reply) :
    (asked.tail r).Only Op.Timeless :=
  (replying_tail asked r).mono fun _ => Op.Replying.timeless

end Sections

/-! ## Two requests at different times -/

/-- What they have of their own differs in the readings of the clock, where those of a creation
time are the same, and the stores differ in `last_use`. -/
structure World.AgreesButClock (creates : Bool) (w w' : World) : Prop where
  own : w'.1 = { w.1 with clock := w'.1.clock }
  creation : creates = true → w'.1.clock.head? = w.1.clock.head?
  store : w.2.SameButUse w'.2

section Agreeing

variable {α : Type} {creates : Bool} {o : Op} {l l' : Local} {s s' : Store} {w w' w₁ w₁' : World}

theorem writen_clock (l : Local) (bytes : List UInt8) (clock : List Timespec) :
    Local.writen { l with clock := clock } bytes =
      ((l.writen bytes).1, { (l.writen bytes).2 with clock := clock }) ∧
      (l.writen bytes).2.clock = l.clock := by
  obtain ⟨inp, sends, readings, malloc, uninit, out, log⟩ := l
  unfold Local.writen
  split
  · exact ⟨rfl, rfl⟩
  · cases sends <;> exact ⟨rfl, rfl⟩

/-- An operation that does not read the clock does the same at any time. -/
theorem exec_clock (ho : o.Timeless) {a : Ans o} (clock : List Timespec)
    (h : exec o (l, s) = .ok (a, (l', s'))) :
    exec o ({ l with clock := clock }, s) = .ok (a, ({ l' with clock := clock }, s')) ∧
      l'.clock = l.clock := by
  cases o
  case readn size =>
    obtain ⟨r, hr, he⟩ := Res.bind_eq_ok.1 h
    cases he
    exact ⟨Res.bind_eq_ok.2 ⟨r, hr, rfl⟩, rfl⟩
  case writen bytes =>
    obtain ⟨heq, hclock⟩ := writen_clock l bytes clock
    cases h
    refine ⟨?_, hclock⟩
    change Res.ok (_, (_, s)) = _
    rw [heq]
  case clockGettime => exact ho.elim
  case safeMalloc size =>
    change (if l.malloc (.safe size) then _ else _) = _ at h
    split_ifs at h with hmalloc
    cases h
    exact ⟨if_pos hmalloc, rfl⟩
  case mutexLock m =>
    change (if s.locked m = true then _ else _) = _ at h
    split_ifs at h with hlocked
    cases h
    exact ⟨if_neg hlocked, rfl⟩
  case exit | undefined => cases h
  case fileDelete | get | set | fileReaderUnlock | fileWriterUnlock =>
    obtain ⟨f, hf, he⟩ := withFile_eq_ok h
    cases he
    exact ⟨withFile_of_some hf, rfl⟩
  case fileReaderLock | fileWriterLock =>
    obtain ⟨f, hf, he⟩ := withFile_eq_ok h
    split_ifs at he with hlocked
    cases he
    exact ⟨(withFile_of_some hf).trans (if_neg hlocked), rfl⟩
  all_goals
    cases h
    exact ⟨rfl, rfl⟩

theorem agrees_of_exec (ho : o.Timeless) {a a' : Ans o} (hw : World.AgreesButClock creates w w')
    (h : exec o w = .ok (a, w₁)) (h' : exec o w' = .ok (a', w₁')) :
    a' = a ∧ World.AgreesButClock creates w₁ w₁' := by
  obtain ⟨l, s⟩ := w
  obtain ⟨l', s'⟩ := w'
  obtain ⟨l₁, s₁⟩ := w₁
  have hown : l' = { l with clock := l'.clock } := hw.own
  have hagrees : World.Agrees (l, s) (l, s') := ⟨rfl, hw.store⟩
  obtain ⟨⟨l₂, s₂⟩, hexec, hl, hst⟩ := (agree_of_blind o _ _ ho.blind hagrees).eq_ok h
  obtain rfl : l₂ = l₁ := hl
  obtain ⟨hexec', hclock⟩ := exec_clock ho l'.clock hexec
  rw [← hown] at hexec'
  cases hexec'.symm.trans h'
  refine ⟨rfl, rfl, fun hc => ?_, hst⟩
  change l'.clock.head? = l₂.clock.head?
  rw [hclock]
  exact hw.creation hc

/-- A program that does not read the clock does the same in both. -/
theorem agrees_of_only {p : M α} (hp : p.Only Op.Timeless) {a a' : α}
    (hw : World.AgreesButClock creates w w') (h : Prog.run exec p w = .ok (a, w₁))
    (h' : Prog.run exec p w' = .ok (a', w₁')) :
    a' = a ∧ World.AgreesButClock creates w₁ w₁' := by
  induction p generalizing w w' with
  | ret b =>
    cases h
    cases h'
    exact ⟨rfl, hw⟩
  | op o k ih =>
    obtain ⟨⟨b, w₂⟩, he, hrest⟩ := Res.bind_eq_ok.1 h
    obtain ⟨⟨b', w₂'⟩, he', hrest'⟩ := Res.bind_eq_ok.1 h'
    obtain ⟨rfl, hw₂⟩ := agrees_of_exec hp.1 hw he he'
    exact ih _ (hp.2 _) hw₂ hrest hrest'

theorem clockGettime_eq_ok {t : Timespec} (h : exec .clockGettime w = .ok (t, w₁)) :
    ∃ rest, w.1.clock = t :: rest ∧ w₁ = ({ w.1 with clock := rest }, w.2) := by
  obtain ⟨⟨inp, sends, clock, malloc, uninit, out, log⟩, s⟩ := w
  cases clock with
  | nil => cases h
  | cons t rest =>
    cases h
    exact ⟨rest, rfl, rfl⟩

/-- So does one whose readings go to `last_use`. The induction is on the program. -/
theorem Stamping.agrees {p : M α} (hp : Stamping creates p) {a a' : α}
    (hw : World.AgreesButClock creates w w') (h : Prog.run exec p w = .ok (a, w₁))
    (h' : Prog.run exec p w' = .ok (a', w₁')) :
    a' = a ∧ World.AgreesButClock false w₁ w₁' := by
  induction hp generalizing w w' with
  | ret b =>
    cases h
    cases h'
    exact ⟨rfl, hw.own, nofun, hw.store⟩
  | op ho hk ih =>
    obtain ⟨⟨b, w₂⟩, he, hrest⟩ := Res.bind_eq_ok.1 h
    obtain ⟨⟨b', w₂'⟩, he', hrest'⟩ := Res.bind_eq_ok.1 h'
    obtain ⟨rfl, hw₂⟩ := agrees_of_exec ho hw he he'
    exact ih _ hw₂ hrest hrest'
  | @use creates p k hk ih =>
    obtain ⟨⟨t, w₂⟩, he, hrest⟩ := Res.bind_eq_ok.1 h
    obtain ⟨⟨t', w₂'⟩, he', hrest'⟩ := Res.bind_eq_ok.1 h'
    obtain ⟨rest, -, rfl⟩ := clockGettime_eq_ok he
    obtain ⟨rest', -, rfl⟩ := clockGettime_eq_ok he'
    obtain ⟨⟨u, w₃⟩, hset, hrest⟩ := Res.bind_eq_ok.1 hrest
    obtain ⟨⟨u', w₃'⟩, hset', hrest'⟩ := Res.bind_eq_ok.1 hrest'
    obtain ⟨f, hf, he⟩ := withFile_eq_ok hset
    obtain ⟨f', hf', he'⟩ := withFile_eq_ok hset'
    cases he
    cases he'
    obtain ⟨v, hv⟩ := hw.store.heap_eq_some hf
    cases hf'.symm.trans hv
    have hput : (w.2.put p (f.used t)).SameFiles (w'.2.put p ((f.used t).used t')) :=
      hw.store.toSameFiles.put
    have hown : ({ w'.1 with clock := rest' } : Local) = { w.1 with clock := rest' } := by
      rw [hw.own]
    have hagrees : World.AgreesButClock false ({ w.1 with clock := rest }, w.2.put p (f.used t))
        ({ w'.1 with clock := rest' }, w'.2.put p ((f.used t).used t')) :=
      ⟨hown, nofun, hput, hw.store.locked⟩
    exact ih hagrees hrest hrest'
  | @creation k hk ih =>
    obtain ⟨⟨t, w₂⟩, he, hrest⟩ := Res.bind_eq_ok.1 h
    obtain ⟨⟨t', w₂'⟩, he', hrest'⟩ := Res.bind_eq_ok.1 h'
    obtain ⟨rest, hclock, rfl⟩ := clockGettime_eq_ok he
    obtain ⟨rest', hclock', rfl⟩ := clockGettime_eq_ok he'
    have hhead := hw.creation rfl
    rw [hclock, hclock'] at hhead
    cases hhead
    have hown : ({ w'.1 with clock := rest' } : Local) = { w.1 with clock := rest' } := by
      rw [hw.own]
    have hagrees : World.AgreesButClock false ({ w.1 with clock := rest }, w.2)
        ({ w'.1 with clock := rest' }, w'.2) := ⟨hown, nofun, hw.store⟩
    exact ih t hagrees hrest hrest'

end Agreeing

/-! ## Two runs -/

/-- The same request, with the same reading of the clock for the time of a creation. -/
structure SameRequest (turn turn' : JobTurn) : Prop where
  job : turn'.job = turn.job
  start : turn'.start = { turn.start with clock := turn'.start.clock }
  creation : turn.job.asksToCreate turn.start = true →
    turn'.start.clock.head? = turn.start.clock.head?

/-- The same result, the same bytes sent, and the same lines logged. -/
structure SameReply (turn turn' : JobTurn) : Prop where
  result : turn'.result = turn.result
  last : turn'.last = { turn.last with clock := turn'.last.clock }

/-- The paths and the contents of the files that a job expels, in this order. -/
def expelledIn (cfg : ServerConfig) (turn : JobTurn) (s : Store) : List (CString × List UInt8) :=
  match Prog.run exec (turn.job.prelude >>= fun asked => asked.body cfg turn.job.fdClient)
    (turn.start, s) with
  | .ok (r, (_, s')) =>
    (Reply.deleted r).filterMap fun p => (s'.heap p).map fun f => (f.pathName, f.contents)
  | _ => []

/-- What the jobs leave, and the files that they have expelled. -/
def serveAll (cfg : ServerConfig) : List JobTurn → Store × List (CString × List UInt8)
  | [] => (.initial, [])
  | turn :: turns =>
    let r := serveAll cfg turns
    match Prog.run exec (turn.job.program cfg) (turn.start, r.1) with
    | .ok (_, (_, s)) => (s, r.2 ++ expelledIn cfg turn r.1)
    | _ => r

section Runs

variable {cfg : ServerConfig} {turn turn' : JobTurn} {turns : List JobTurn} {s s' t t' : Store}

theorem serveAll_cons {expelled : List (CString × List UInt8)}
    (hturns : serveAll cfg turns = (s, expelled)) (h : (serialServer cfg).step s turn s') :
    serveAll cfg (turn :: turns) = (s', expelled ++ expelledIn cfg turn s) := by
  have hrun : Prog.run exec (turn.job.program cfg) (turn.start, s) =
      .ok (turn.result, (turn.last, s')) := h.2
  simp only [serveAll, hturns, hrun]

/-- What a run of the serial server leaves. -/
theorem serveAll_of_run (h : Run (serialServer cfg) turns s) :
    ∃ expelled, serveAll cfg turns = (s, expelled) := by
  induction h with
  | start h => exact ⟨[], congrArg (fun s => (s, [])) (Eq.symm h)⟩
  | step h hstep ih =>
    obtain ⟨expelled, hturns⟩ := ih
    exact ⟨_, serveAll_cons hturns hstep⟩

/-- A read expels nothing. -/
theorem expelledIn_of_reads (hreads : readsFiles turn = true) : expelledIn cfg turn s = [] := by
  rw [expelledIn, Prog.run_bind]
  cases hprelude : Prog.run exec turn.job.prelude (turn.start, s) with
  | ok r =>
    obtain ⟨asked, l₁, s₁⟩ := r
    obtain ⟨-, hany⟩ := run_of_private (private_prelude _) hprelude
    have hasked : asked.reads = true := by
      rw [readsFiles, hany] at hreads
      exact hreads
    rw [Res.bind_ok]
    dsimp only
    cases hbody : Prog.run exec (asked.body cfg turn.job.fdClient) (l₁, s₁) with
    | ok r =>
      obtain ⟨r, l₂, s₂⟩ := r
      dsimp only
      rw [deleted_of_body hasked hbody]
      rfl
    | _ => rfl
  | _ => rfl

/-- The same request gets the same reply, and expels the same files, at another time. -/
theorem agrees_of_turn (hpolicy : cfg.policy = .FIFO) (hsame : SameRequest turn turn')
    (hst : s.SameButUse t) (h : (serialServer cfg).step s turn s')
    (h' : (serialServer cfg).step t turn' t') :
    SameReply turn turn' ∧ expelledIn cfg turn' t = expelledIn cfg turn s ∧ s'.SameButUse t' := by
  have hrun : Prog.run exec (turn.job.program cfg) (turn.start, s) =
      .ok (turn.result, (turn.last, s')) := h.2
  have hrun' : Prog.run exec (turn'.job.program cfg) (turn'.start, t) =
      .ok (turn'.result, (turn'.last, t')) := h'.2
  rw [hsame.job] at hrun'
  rw [Job.program_eq, Prog.run_bind] at hrun hrun'
  obtain ⟨⟨asked, l₁, s₁⟩, hprelude, hrest⟩ := Res.bind_eq_ok.1 hrun
  obtain ⟨⟨asked', l₁', t₁⟩, hprelude', hrest'⟩ := Res.bind_eq_ok.1 hrun'
  obtain ⟨-, hany⟩ := run_of_private (private_prelude _) hprelude
  have hcreates : turn.job.asksToCreate turn.start = asked.creates := by
    rw [Job.asksToCreate, hany]
  have hw : World.AgreesButClock asked.creates (turn.start, s) (turn'.start, t) :=
    ⟨hsame.start, fun hc => hsame.creation (hcreates.trans hc), hst⟩
  have htimeless : turn.job.prelude.Only Op.Timeless :=
    (asking_prelude turn.job).mono fun _ => Op.Asking.timeless
  obtain ⟨rfl, hw₁⟩ := agrees_of_only htimeless hw hprelude hprelude'
  rw [Prog.run_bind] at hrest hrest'
  obtain ⟨⟨r, l₂, s₂⟩, hbody, htail⟩ := Res.bind_eq_ok.1 hrest
  obtain ⟨⟨r', l₂', t₂⟩, hbody', htail'⟩ := Res.bind_eq_ok.1 hrest'
  obtain ⟨rfl, hw₂⟩ := (Asked.stamping_body hpolicy _ _).agrees hw₁ hbody hbody'
  obtain ⟨hresult, hw₃⟩ := agrees_of_only (Asked.timeless_tail _ _) hw₂ htail htail'
  refine ⟨⟨hresult, hw₃.own⟩, ?_, hw₃.store⟩
  have hheap : ∀ p, ((t₂.heap p).map fun f => (f.pathName, f.contents)) =
      (s₂.heap p).map fun f => (f.pathName, f.contents) := fun p => by
    have hmap := congrArg (Option.map fun f => (f.pathName, f.contents)) (hw₂.store.heap p)
    rwa [Option.map_map, Option.map_map] at hmap
  have hexpelled : expelledIn cfg turn s =
      (Reply.deleted r').filterMap fun p => (s₂.heap p).map fun f => (f.pathName, f.contents) := by
    rw [expelledIn, Prog.run_bind, hprelude, Res.bind_ok, hbody]
  rw [hexpelled, expelledIn, hsame.job, Prog.run_bind, hprelude', Res.bind_ok, hbody']
  simp only [hheap]

/-- Under FIFO, a run with more reads, none of which ends with `MW_FATAL_ERROR`, gives the requests
that it shares with another run the same replies, expels the same files in the same order, and
leaves the same store but for `last_use`, if files are created at the same times. The induction is
on the requests. -/
theorem same_with_inserted_reads (hpolicy : cfg.policy = .FIFO)
    {both : List (JobTurn × Option JobTurn)}
    (h : Run (serialServer cfg) (both.map Prod.fst) s)
    (h' : Run (serialServer cfg) (both.filterMap Prod.snd) s')
    (hsame : ∀ turn turn', (turn, some turn') ∈ both → SameRequest turn turn')
    (hinserted : ∀ turn, (turn, none) ∈ both →
      readsFiles turn = true ∧ turn.result ≠ some .fatalError) :
    (∀ turn turn', (turn, some turn') ∈ both → SameReply turn turn') ∧
      (serveAll cfg (both.filterMap Prod.snd)).2 = (serveAll cfg (both.map Prod.fst)).2 ∧
      s.SameButUse s' := by
  induction both generalizing s s' with
  | nil =>
    cases h with
    | start h =>
      cases h' with
      | start h' =>
        have hinit : s = .initial := h
        have hinit' : s' = .initial := h'
        rw [hinit, hinit']
        exact ⟨fun _ _ hmem => absurd hmem List.not_mem_nil, rfl, .refl _, fun _ => rfl⟩
  | cons x both ih =>
    obtain ⟨turn, turn'⟩ := x
    cases h with
    | @step _ s₁ _ _ hrun hstep =>
      have hsame₁ : ∀ turn turn', (turn, some turn') ∈ both → SameRequest turn turn' :=
        fun _ _ hmem => hsame _ _ (List.mem_cons_of_mem _ hmem)
      have hinserted₁ : ∀ turn, (turn, none) ∈ both →
          readsFiles turn = true ∧ turn.result ≠ some .fatalError :=
        fun _ hmem => hinserted _ (List.mem_cons_of_mem _ hmem)
      obtain ⟨expelled, hserve⟩ := serveAll_of_run hrun
      cases turn' with
      | none =>
        obtain ⟨hreads, hfatal⟩ := hinserted turn List.mem_cons_self
        obtain ⟨hreplies, hexpelled, hst⟩ := ih hrun h' hsame₁ hinserted₁
        have huse := sameButUse_of_read hrun hstep hreads hfatal
        refine ⟨fun u u' hmem => ?_, ?_, huse.symm.trans hst⟩
        · rcases List.mem_cons.1 hmem with he | hmem
          · cases he
          · exact hreplies u u' hmem
        · rw [hserve] at hexpelled
          rw [List.map_cons, serveAll_cons hserve hstep, expelledIn_of_reads hreads,
            List.append_nil]
          exact hexpelled
      | some turn' =>
        cases h' with
        | @step _ s₁' _ _ hrun' hstep' =>
          obtain ⟨expelled', hserve'⟩ := serveAll_of_run hrun'
          obtain ⟨hreplies, hexpelled, hst⟩ := ih hrun hrun' hsame₁ hinserted₁
          obtain ⟨hreply, hexpels, hst'⟩ :=
            agrees_of_turn hpolicy (hsame _ _ List.mem_cons_self) hst hstep hstep'
          refine ⟨fun u u' hmem => ?_, ?_, hst'⟩
          · rcases List.mem_cons.1 hmem with he | hmem
            · cases he
              exact hreply
            · exact hreplies u u' hmem
          · rw [hserve, hserve'] at hexpelled
            change (serveAll cfg (turn' :: both.filterMap Prod.snd)).2 =
              (serveAll cfg (turn :: both.map Prod.fst)).2
            rw [serveAll_cons hserve hstep, serveAll_cons hserve' hstep', hexpels]
            exact congrArg (· ++ expelledIn cfg turn s₁) hexpelled

/-! ### Two such runs -/

/-- What a job is asked. -/
def requestOf (turn : JobTurn) : Job × Local :=
  (turn.job, turn.start)

/-- Two runs of these requests. -/
theorem exists_both {asked : List ((Job × Local) × Option (Job × Local))} {turns' : List JobTurn}
    (h : turns.map requestOf = asked.map Prod.fst)
    (h' : turns'.map requestOf = asked.filterMap Prod.snd) :
    ∃ both : List (JobTurn × Option JobTurn), both.map Prod.fst = turns ∧
      both.filterMap Prod.snd = turns' ∧
      ∀ x ∈ both, (requestOf x.1, x.2.map requestOf) ∈ asked := by
  induction asked generalizing turns turns' with
  | nil =>
    obtain rfl := List.map_eq_nil_iff.1 h
    obtain rfl := List.map_eq_nil_iff.1 h'
    exact ⟨[], rfl, rfl, fun _ hx => absurd hx List.not_mem_nil⟩
  | cons x asked ih =>
    obtain ⟨x, y⟩ := x
    obtain ⟨turn, turns, rfl, hturn, hturns⟩ := List.map_eq_cons_iff.1 h
    have hx : requestOf turn = x := hturn
    cases y with
    | none =>
      obtain ⟨both, rfl, rfl, hboth⟩ := ih hturns h'
      have hmem : (requestOf turn, none) ∈ (x, none) :: asked := by
        rw [hx]
        exact List.mem_cons_self
      exact ⟨(turn, none) :: both, rfl, rfl, List.forall_mem_cons.2
        ⟨hmem, fun z hz => List.mem_cons_of_mem _ (hboth z hz)⟩⟩
    | some y =>
      change turns'.map requestOf = y :: asked.filterMap Prod.snd at h'
      obtain ⟨turn', turns', rfl, hturn', hturns'⟩ := List.map_eq_cons_iff.1 h'
      obtain ⟨both, rfl, rfl, hboth⟩ := ih hturns hturns'
      have hmem : (requestOf turn, some (requestOf turn')) ∈ (x, some y) :: asked := by
        rw [hx, hturn']
        exact List.mem_cons_self
      exact ⟨(turn, some turn') :: both, rfl, rfl, List.forall_mem_cons.2
        ⟨hmem, fun z hz => List.mem_cons_of_mem _ (hboth z hz)⟩⟩

/-- What a handler needs that creates a file at the time `t`, and uses it at the time `t'`. -/
def Local.creating (t t' : ℤ) : Local :=
  .ofBytes [] [⟨t, 0⟩, ⟨t', 0⟩] []

/-- The requests of `reading`, and those of a run without `readNFiles`, in which files are used at
other times. -/
def rereading : List ((Job × Local) × Option (Job × Local)) :=
  [(Job.calls 9 (.openFile [98] oCreate) (.at 0),
      some (Job.calls 9 (.openFile [98] oCreate) (.creating 0 10))),
    (Job.calls 9 (.appendToFile [98] [3] fun _ => 0) (.at 1),
      some (Job.calls 9 (.appendToFile [98] [3] fun _ => 0) (.at 11))),
    (Job.calls 8 (.openFile [97] oCreate) (.at 2),
      some (Job.calls 8 (.openFile [97] oCreate) (.creating 2 12))),
    (Job.calls 8 (.appendToFile [97] [1, 2] fun _ => 0) (.at 3),
      some (Job.calls 8 (.appendToFile [97] [1, 2] fun _ => 0) (.at 13))),
    (Job.calls 8 (.readNFiles 0 fun _ => 0) (.at 4), none),
    (Job.calls 9 (.readFile [98]) (.at 5), some (Job.calls 9 (.readFile [98]) (.at 15))),
    (Job.calls 8 (.openFile [99] oCreate) (.at 6),
      some (Job.calls 8 (.openFile [99] oCreate) (.creating 6 16)))]

/-- They are the same requests. -/
theorem sameRequest_of_rereading (h : (requestOf turn, some (requestOf turn')) ∈ rereading) :
    SameRequest turn turn' := by
  obtain ⟨job, l, a, l'⟩ := turn
  obtain ⟨job', l₁, a', l₁'⟩ := turn'
  simp only [rereading, requestOf, List.mem_cons, List.not_mem_nil, or_false, Prod.mk.injEq,
    Option.some.injEq, reduceCtorEq, and_false, false_or] at h
  rcases h with h | h | h | h | h | h <;> obtain ⟨⟨rfl, rfl⟩, rfl, rfl⟩ := h
  all_goals exact ⟨rfl, rfl, by dsimp only; decide +kernel⟩

theorem readsFiles_of_rereading (h : (requestOf turn, none) ∈ rereading) :
    readsFiles turn = true := by
  obtain ⟨job, l, a, l'⟩ := turn
  -- what the job returns and leaves does not matter
  have hstart : readsFiles ⟨job, l, a, l'⟩ = readsFiles ⟨job, l, none, l⟩ := rfl
  rw [hstart]
  simp only [rereading, requestOf, List.mem_cons, List.not_mem_nil, or_false, Prod.mk.injEq,
    reduceCtorEq, and_false, false_or, and_true] at h
  obtain ⟨rfl, rfl⟩ := h
  decide +kernel

/-- An example of `same_with_inserted_reads` : in both runs the first file is expelled, in one of
them after the files have been read once more, and at other times. -/
theorem same_with_inserted_reads_expulsion : ∃ (both : List (JobTurn × Option JobTurn))
    (s s' : Store), Run (serialServer fifo) (both.map Prod.fst) s ∧
    Run (serialServer fifo) (both.filterMap Prod.snd) s' ∧
    (both.filterMap Prod.snd).length < both.length ∧
    s.fileSystem.files.map (fun f => (f.pathName, f.lastUse.tvSec)) = [([99], 6), ([97], 3)] ∧
    s'.fileSystem.files.map (fun f => (f.pathName, f.lastUse.tvSec)) = [([99], 16), ([97], 13)] ∧
    (serveAll fifo (both.map Prod.fst)).2 = [([98], [3])] ∧
    (serveAll fifo (both.filterMap Prod.snd)).2 = [([98], [3])] ∧ s.SameButUse s' := by
  have hnext : ∀ x s turn s', Serial.next exec (Job.program fifo) Job.Admitted s x =
      some (turn, s') → requestOf turn = id x := fun _ _ _ _ => Serial.of_next
  obtain ⟨turns, s, hrun, hturns, hfiles, hexpelled, hfatal⟩ :=
    (computes_serialServer fifo).exists_run_map .initial rfl (rereading.map Prod.fst) hnext
      (fun turns s =>
        s.fileSystem.files.map (fun f => (f.pathName, f.lastUse.tvSec)) = [([99], 6), ([97], 3)] ∧
        (serveAll fifo turns).2 = [([98], [3])] ∧
        ∀ turn ∈ turns, turn.result ≠ some .fatalError)
      (by decide +kernel)
  obtain ⟨turns', s', hrun', hturns', hfiles'⟩ :=
    (computes_serialServer fifo).exists_run_map .initial rfl (rereading.filterMap Prod.snd) hnext
      (fun _ s => s.fileSystem.files.map (fun f => (f.pathName, f.lastUse.tvSec)) =
        [([99], 16), ([97], 13)])
      (by decide +kernel)
  rw [List.map_id, ← List.map_reverse] at hturns
  rw [List.map_id, ← List.filterMap_reverse] at hturns'
  obtain ⟨both, rfl, rfl, hboth⟩ := exists_both hturns hturns'
  have hmem : ∀ x ∈ both, (requestOf x.1, x.2.map requestOf) ∈ rereading :=
    fun x hx => List.mem_reverse.1 (hboth x hx)
  obtain ⟨-, hsame, hst⟩ := same_with_inserted_reads rfl hrun hrun'
    (fun turn turn' hx => sameRequest_of_rereading (hmem _ hx))
    (fun turn hx => ⟨readsFiles_of_rereading (hmem _ hx),
      hfatal turn (List.mem_map_of_mem (f := Prod.fst) hx)⟩)
  refine ⟨both, s, s', hrun, hrun', ?_, hfiles, hfiles', hexpelled, hsame.trans hexpelled, hst⟩
  have hlength := congrArg List.length hturns
  have hlength' := congrArg List.length hturns'
  rw [List.length_map, List.length_map] at hlength
  rw [List.length_map] at hlength'
  rw [hlength, hlength']
  decide

end Runs

end StorageServer
