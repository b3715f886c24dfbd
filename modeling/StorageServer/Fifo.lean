import StorageServer.Answers
import StorageServer.Concurrency

/-!
# Reads under FIFO

A read changes nothing but `last_use` (`sameButUse_of_read`), and under the policy FIFO no handler
looks at that (`Critical.blind`). So the server does the same with the reads as without them : the
other jobs send the same bytes, expel the same files, and leave the same store but for `last_use`
(`independent_of_reads`).
-/

open Programs Transitions Function

namespace StorageServer

/-! ## Stores that differ in `last_use` -/

/-- The file without `last_use`. -/
def File.unused (f : File) : File :=
  f.used ⟨0, 0⟩

/-- The files and the counters are the same but for `last_use`. -/
structure Store.SameFiles (s s' : Store) : Prop where
  files : s'.files = s.files
  heap : ∀ p, (s'.heap p).map File.unused = (s.heap p).map File.unused
  fresh : s'.fresh = s.fresh
  currState : s'.currState = s.currState

/-- So are the stores. -/
structure Store.SameButUse (s s' : Store) : Prop extends s.SameFiles s' where
  locked : ∀ m, s'.locked m = s.locked m

theorem File.used_of_unused {f g : File} (h : g.unused = f.unused) : g = f.used g.lastUse := by
  obtain ⟨⟩ := f
  obtain ⟨⟩ := g
  cases h
  rfl

namespace Store.SameFiles

variable {s s' s'' : Store} {p : FilePtr} {f : File} {l : Local} {β : Type}

theorem refl (s : Store) : s.SameFiles s :=
  ⟨rfl, fun _ => rfl, rfl, rfl⟩

theorem symm (h : s.SameFiles s') : s'.SameFiles s :=
  ⟨h.files.symm, fun p => (h.heap p).symm, h.fresh.symm, h.currState.symm⟩

theorem trans (h : s.SameFiles s') (h' : s'.SameFiles s'') : s.SameFiles s'' :=
  ⟨h'.files.trans h.files, fun p => (h'.heap p).trans (h.heap p), h'.fresh.trans h.fresh,
    h'.currState.trans h.currState⟩

theorem heap_eq_some (h : s.SameFiles s') (hf : s.heap p = some f) :
    ∃ t, s'.heap p = some (f.used t) := by
  have heq := h.heap p
  rw [hf] at heq
  obtain ⟨g, hg, hunused⟩ := Option.map_eq_some_iff.1 heq
  exact ⟨g.lastUse, hg.trans (congrArg some (File.used_of_unused hunused))⟩

theorem heap_eq_none (h : s.SameFiles s') (hp : s.heap p = none) : s'.heap p = none := by
  have heq := h.heap p
  rw [hp] at heq
  exact Option.map_eq_none_iff.1 heq

theorem put (h : s.SameFiles s') {t : Timespec} : (s.put p f).SameFiles (s'.put p (f.used t)) := by
  refine ⟨h.files, fun q => ?_, h.fresh, h.currState⟩
  by_cases hq : q = p
  · rw [hq, heap_put_self, heap_put_self]
    rfl
  · rw [heap_put_of_ne _ _ _ hq, heap_put_of_ne _ _ _ hq]
    exact h.heap q

/-- A file is used. -/
theorem of_used (hf : s.heap p = some f) (t : Timespec) : s.SameFiles (s.put p (f.used t)) := by
  refine ⟨rfl, fun q => ?_, rfl, rfl⟩
  by_cases hq : q = p
  · rw [hq, heap_put_self, hf]
    rfl
  · rw [heap_put_of_ne _ _ _ hq]

theorem delete (h : s.SameFiles s') : (s.delete p).SameFiles (s'.delete p) := by
  refine ⟨h.files, fun q => ?_, h.fresh, h.currState⟩
  rw [heap_delete, heap_delete]
  split_ifs
  · rfl
  · exact h.heap q

theorem alloc (h : s.SameFiles s') : (s.alloc f).SameFiles (s'.alloc f) := by
  refine ⟨h.files, fun q => ?_, congrArg (· + 1) h.fresh, h.currState⟩
  by_cases hq : q = s.fresh
  · rw [heap_alloc_self _ _ hq, heap_alloc_self _ _ (hq.trans h.fresh.symm)]
  · rw [heap_alloc_of_ne _ _ hq, heap_alloc_of_ne _ _ fun he => hq (he.trans h.fresh)]
    exact h.heap q

theorem setLocked (s : Store) (b : Bool) (m : Mutex) : s.SameFiles (s.setLocked b m) := by
  refine ⟨files_setLocked .., fun q => ?_, fresh_setLocked .., currState_setLocked ..⟩
  rw [heap_setLocked]

theorem settled (h : s.SameFiles s') (unlocks deletes : FilePtr → ℕ) :
    (s.settled unlocks deletes).SameFiles (s'.settled unlocks deletes) := by
  refine ⟨h.files, fun q => ?_, h.fresh, h.currState⟩
  change (if 0 < deletes q then none else _ : Option File).map _ =
    (if 0 < deletes q then none else _ : Option File).map _
  by_cases hd : 0 < deletes q
  · rw [if_pos hd, if_pos hd]
  rw [if_neg hd, if_neg hd]
  cases hq : s.heap q with
  | none => rw [h.heap_eq_none hq]
  | some f =>
    obtain ⟨t, ht⟩ := h.heap_eq_some hq
    rw [ht]
    rfl

/-- An access to a file that does not tell its `last_use`. -/
theorem withFile (h : s.SameFiles s') {R : World → World → Prop} {g g' : File → Res (β × World)}
    (hg : ∀ f t, s.heap p = some f → Res.Agree R (g f) (g' (f.used t))) :
    Res.Agree R (StorageServer.withFile (l, s) p g) (StorageServer.withFile (l, s') p g') := by
  cases hf : s.heap p with
  | none =>
    simp only [StorageServer.withFile, hf, h.heap_eq_none hf]
    exact .fault
  | some f =>
    obtain ⟨t, ht⟩ := h.heap_eq_some hf
    rw [withFile_of_some hf, withFile_of_some ht]
    exact hg f t hf

end Store.SameFiles

theorem Store.SameButUse.symm {s s' : Store} (h : s.SameButUse s') : s'.SameButUse s :=
  ⟨h.toSameFiles.symm, fun m => (h.locked m).symm⟩

theorem Store.SameButUse.trans {s s' s'' : Store} (h : s.SameButUse s') (h' : s'.SameButUse s'') :
    s.SameButUse s'' :=
  ⟨h.toSameFiles.trans h'.toSameFiles, fun m => (h'.locked m).trans (h.locked m)⟩

theorem Store.SameButUse.setLocked {s s' : Store} (h : s.SameButUse s') (b : Bool) (m : Mutex) :
    (s.setLocked b m).SameButUse (s'.setLocked b m) where
  toSameFiles :=
    ((Store.SameFiles.setLocked s b m).symm.trans h.toSameFiles).trans (.setLocked s' b m)
  locked m' := by
    have hlocked := h.locked m'
    cases m <;> cases m' <;> first | rfl | exact hlocked

/-! ## Programs that do not look at it -/

/-- The operation does not look at `last_use`. -/
def Op.Blind : Op → Prop
  | .get _ .lastUse => False
  | _ => True

/-- A request with the same of its own in two such stores. -/
def World.Agrees (w w' : World) : Prop :=
  w'.1 = w.1 ∧ w.2.SameButUse w'.2

theorem agree_of_blind (o : Op) (w w' : World) (ho : o.Blind) (h : w.Agrees w') :
    Res.Agree World.Agrees (exec o w) (exec o w') := by
  obtain ⟨l, s⟩ := w
  obtain ⟨l', s'⟩ := w'
  obtain ⟨rfl, hs⟩ := h
  cases o
  case readn size =>
    change Res.Agree _ ((l'.inp.readn size).bind _) ((l'.inp.readn size).bind _)
    cases l'.inp.readn size with
    | ok r => exact .ok ⟨rfl, hs⟩
    | blocked => exact .blocked
    | halt => exact .halt
    | fault => exact .fault
  case clockGettime =>
    obtain ⟨inp, sends, clock, malloc, uninit, out, log⟩ := l'
    cases clock with
    | nil => exact .halt
    | cons t rest => exact .ok ⟨rfl, hs⟩
  case safeMalloc size =>
    change Res.Agree
      _ (if l'.malloc (.safe size) then _ else _) (if l'.malloc (.safe size) then _ else _)
    split
    · exact .ok ⟨rfl, hs⟩
    · exact .halt
  case writen | malloc | uninit | logger => exact .ok ⟨rfl, hs⟩
  case exit => exact .halt
  case mutexLock m =>
    change Res.Agree _ (if s.locked m = true then _ else _) (if s'.locked m = true then _ else _)
    rw [hs.locked m]
    split
    · exact .blocked
    · exact .ok ⟨rfl, hs.setLocked true m⟩
  case mutexUnlock m => exact .ok ⟨rfl, hs.setLocked false m⟩
  case getState =>
    change Res.Agree _ (.ok (s.currState, _)) (.ok (s'.currState, _))
    rw [hs.currState]
    exact .ok ⟨rfl, hs⟩
  case setState st => exact .ok ⟨rfl, ⟨hs.files, hs.heap, hs.fresh, rfl⟩, hs.locked⟩
  case hashmapContains key =>
    change Res.Agree _ (.ok (hashmapContains s.files key, _))
      (.ok (hashmapContains s'.files key, _))
    rw [hs.files]
    exact .ok ⟨rfl, hs⟩
  case hashmapGetByKey key =>
    change Res.Agree _ (.ok (hashmapGetByKey s.files key, _))
      (.ok (hashmapGetByKey s'.files key, _))
    rw [hs.files]
    exact .ok ⟨rfl, hs⟩
  case hashmapInsert key file =>
    change Res.Agree _ (.ok ((hashmapInsert (filesGranted l'.malloc) s.files key file).1, _))
      (.ok ((hashmapInsert (filesGranted l'.malloc) s'.files key file).1, _))
    rw [hs.files]
    exact .ok ⟨rfl, ⟨rfl, hs.heap, hs.fresh, hs.currState⟩, hs.locked⟩
  case hashmapRemove key =>
    change Res.Agree _ (.ok ((hashmapRemove s.files key).1, _))
      (.ok ((hashmapRemove s'.files key).1, _))
    rw [hs.files]
    exact .ok ⟨rfl, ⟨rfl, hs.heap, hs.fresh, hs.currState⟩, hs.locked⟩
  case hashmapIter =>
    change Res.Agree _ (.ok (s.files.entries.map Prod.snd, _))
      (.ok (s'.files.entries.map Prod.snd, _))
    rw [hs.files]
    exact .ok ⟨rfl, hs⟩
  case hashmapNelem =>
    change Res.Agree _ (.ok (s.files.nelem, _)) (.ok (s'.files.nelem, _))
    rw [hs.files]
    exact .ok ⟨rfl, hs⟩
  case fileNew file =>
    change Res.Agree _ (.ok (s.fresh, _)) (.ok (s'.fresh, _))
    rw [hs.fresh]
    exact .ok ⟨rfl, hs.alloc, hs.locked⟩
  case fileDelete p => exact hs.withFile fun f t _ => .ok ⟨rfl, hs.delete, hs.locked⟩
  case get p fld =>
    refine hs.withFile fun f t _ => ?_
    have hget : (f.used t).get fld = f.get fld := by
      cases fld
      case lastUse => exact ho.elim
      all_goals rfl
    rw [hget]
    exact .ok ⟨rfl, hs⟩
  case set p fld v =>
    refine hs.withFile fun f t _ => ?_
    obtain ⟨t', ht'⟩ : ∃ t', (f.used t).set fld v = (f.set fld v).used t' := by
      cases fld
      case lastUse => exact ⟨v, rfl⟩
      all_goals exact ⟨t, rfl⟩
    rw [ht']
    exact .ok ⟨rfl, hs.put, hs.locked⟩
  case fileReaderLock p =>
    refine hs.withFile fun f t _ => ?_
    change Res.Agree _ (if f.nWriters > 0 then _ else _) (if f.nWriters > 0 then _ else _)
    split
    · exact .blocked
    · exact .ok ⟨rfl, hs.put (f := f.readLocked), hs.locked⟩
  case fileReaderUnlock p =>
    exact hs.withFile fun f t _ => .ok ⟨rfl, hs.put (f := f.readUnlocked), hs.locked⟩
  case fileWriterLock p =>
    refine hs.withFile fun f t _ => ?_
    change Res.Agree _ (if f.nWriters > 0 ∨ f.nReaders > 0 then _ else _)
      (if f.nWriters > 0 ∨ f.nReaders > 0 then _ else _)
    split
    · exact .blocked
    · exact .ok ⟨rfl, hs.put (f := f.writeLocked), hs.locked⟩
  case fileWriterUnlock p =>
    exact hs.withFile fun f t _ => .ok ⟨rfl, hs.put (f := f.writeUnlocked), hs.locked⟩
  case undefined => exact .fault

/-- Under FIFO no section looks at `last_use`. -/
theorem Critical.blind {α : Type} {kept : α → List FilePtr} {own : List FilePtr} {p : M α}
    (h : Critical .FIFO kept own p) : p.Only Op.Blind := by
  induction h with
  | unlock hk =>
    refine ⟨trivial, fun u => ?_⟩
    rw [show u = () from rfl, hk]
    trivial
  | readerLock h ih => exact ⟨trivial, fun _ => ih⟩
  | readerUnlock hp h ih => exact ⟨trivial, fun _ => ih⟩
  | @plain own o k ho h ih =>
    refine ⟨?_, ih⟩
    cases o
    case get p fld =>
      cases fld
      case lastUse => cases ho
      all_goals trivial
    all_goals trivial

/-! ## A turn of the serial server -/

/-- What a job that has asked for `asked` makes of the store. -/
inductive Store.Turns (cfg : ServerConfig) (s : Store) (turn : JobTurn) (asked : Asked)
    (l₁ : Local) :
    Store → Prop
  | quiet (hlocks : asked.locks = false)
      (hgiving : Giving [] [] turn.result turn.last [] [] (asked.tail asked.noReply) l₁) :
      Turns cfg s turn asked l₁ s
  | served {r : Except Sa Reply} {l₂ : Local} {s₂ : Store}
      {leak unlocks deletes : List (FilePtr × File)}
      {shown : List (FilePtr × CString)}
      (hlocks : asked.locks = true)
      (hbody : Prog.run exec (asked.body cfg turn.job.fdClient) (l₁, s) = .ok (r, (l₂, s₂)))
      (hbacks : s₂.Backs (leak ++ unlocks) deletes) (hprints : s₂.Prints shown deletes)
      (hgiving : Giving leak shown turn.result turn.last unlocks deletes (asked.tail r) l₂)
      (hleak : leak = [] ∨ turn.result = some .fatalError)
      (hreads : ((leak ++ unlocks).map Prod.fst).Perm (Reply.readers r))
      (hdeletes : deletes.map Prod.fst = Reply.deleted r) :
      Turns cfg s turn asked l₁ (s₂.settled (countAt unlocks) (countAt deletes))

section Turns

variable {cfg : ServerConfig} {turn : JobTurn} {s s' t t' : Store} {xs : List (FilePtr × File)}
  {asked : Asked} {l₁ : Local}

/-- A turn by its parts. -/
theorem turns_of_turn (hs : s.Idle cfg xs) (h : (serialServer cfg).step s turn s') :
    ∃ asked l₁, (∀ v, Prog.run exec turn.job.prelude (turn.start, v) = .ok (asked, (l₁, v))) ∧
      s.Turns cfg turn asked l₁ s' := by
  obtain ⟨job, l, a, l'⟩ := turn
  obtain ⟨hadmitted, hturn⟩ := h
  dsimp only at hadmitted hturn
  rw [Job.program_eq, Prog.run_bind] at hturn
  obtain ⟨⟨asked, l₁, s₁⟩, hprelude, hrest⟩ := Res.bind_eq_ok.1 hturn
  obtain ⟨rfl, hany⟩ := run_of_private (private_prelude job) hprelude
  refine ⟨asked, l₁, hany, ?_⟩
  cases hlocks : asked.locks with
  | false =>
    rw [Asked.body_eq cfg _ hlocks, Prog.ret_bind] at hrest
    obtain ⟨leak, unlocks, a', l'', hperm, -, hgiving⟩ := gives_noReply (l := l₁) hlocks
    obtain ⟨rfl, rfl⟩ := List.append_eq_nil_iff.1 (List.perm_nil.1 hperm)
    have hbacks : s₁.Backs ([] ++ []) [] := ⟨nofun, List.nodup_nil, nofun⟩
    have hsame := hrest.symm.trans (hgiving.run hbacks (s₁.prints_nil []))
    rw [countAt_nil, Store.settled_zero] at hsame
    cases hsame
    exact .quiet hlocks hgiving
  | true =>
    rw [Prog.run_bind] at hrest
    obtain ⟨⟨r, l₂, s₂⟩, hbody, htail⟩ := Res.bind_eq_ok.1 hrest
    obtain ⟨⟨xs', out, hidle, hshows⟩, hclose⟩ :=
      post_of_safe (safe_body hs hprelude hlocks hadmitted) hbody
    obtain ⟨shown, reads, deletes, hleaves, hgives⟩ := gives_tail hidle hshows hclose hlocks
    obtain ⟨leak, unlocks, a', l'', hperm, hleak, hgiving⟩ := hgives l₂
    have hreads : ((leak ++ unlocks).map Prod.fst).Perm (Reply.readers r) := by
      rw [← hleaves.readers]
      exact hperm.map _
    have hbacks := hleaves.backs hperm
    cases htail.symm.trans (hgiving.run hbacks hleaves.prints)
    exact .served hlocks hbody hbacks hleaves.prints hgiving hleak hreads hleaves.deleted

/-- The parts make a turn. -/
theorem turn_of_turns (hadmitted : turn.job.Admitted turn.start s)
    (hprelude : ∀ v, Prog.run exec turn.job.prelude (turn.start, v) = .ok (asked, (l₁, v)))
    (h : s.Turns cfg turn asked l₁ s') : (serialServer cfg).step s turn s' := by
  cases h with
  | quiet hlocks hgiving => exact (run_noReply hprelude hlocks hgiving).1
  | served hlocks hbody hbacks hprints hgiving hleak hreads hdeletes =>
    refine ⟨hadmitted, ?_⟩
    rw [Job.program_eq, Prog.run_bind, hprelude, Res.bind_ok, Prog.run_bind, hbody, Res.bind_ok]
    exact hgiving.run hbacks hprints

theorem Store.Backs.sameButUse {reads deletes : List (FilePtr × File)} (h : s.Backs reads deletes)
    (hs : s.SameButUse t) : t.Backs reads deletes := by
  refine ⟨fun x hx => ?_, h.nodup, h.disjoint⟩
  obtain ⟨f, hf, hsame⟩ := h.heap x hx
  obtain ⟨u, hu⟩ := hs.heap_eq_some hf
  exact ⟨_, hu, ⟨hsame.pathName, hsame.contents, hsame.size⟩⟩

theorem Store.Prints.sameButUse {shown : List (FilePtr × CString)} {deletes : List (FilePtr × File)}
    (h : s.Prints shown deletes) (hs : s.SameButUse t) : t.Prints shown deletes := by
  refine ⟨fun x hx => ?_, h.stays⟩
  obtain ⟨f, hf, hname⟩ := h.heap x hx
  obtain ⟨u, hu⟩ := hs.heap_eq_some hf
  exact ⟨_, hu, hname⟩

theorem Job.Admitted.sameButUse {job : Job} {l : Local} (h : job.Admitted l s)
    (hs : s.SameButUse t) :
    job.Admitted l t := by
  intro req w hrun hlocks
  obtain ⟨l₁, s₁⟩ := w
  obtain ⟨-, hany⟩ := run_of_private (private_prelude job) hrun
  have hlength : ∀ e : CString × FilePtr, ((t.heap e.2).map fun f => f.contents.length) =
      (s.heap e.2).map fun f => f.contents.length := fun e => by
    have hmap := congrArg (Option.map fun f => f.contents.length) (hs.heap e.2)
    rwa [Option.map_map, Option.map_map] at hmap
  have hbytes : t.fileSystem.contentBytes = s.fileSystem.contentBytes := by
    simp only [FileSystem.contentBytes, Store.fileSystem, List.map_filterMap, hs.files, hlength]
  rw [FileSystem.Fits, hbytes]
  exact h req _ (hany s) hlocks

/-- Under FIFO a turn is the same in two stores that differ in `last_use`. -/
theorem turn_of_sameButUse (hpolicy : cfg.policy = .FIFO) (hs : s.Idle cfg xs)
    (hst : s.SameButUse t)
    (h : (serialServer cfg).step s turn s') :
    ∃ t', (serialServer cfg).step t turn t' ∧ s'.SameButUse t' := by
  obtain ⟨asked, l₁, hprelude, hturns⟩ := turns_of_turn hs h
  have hadmitted := h.1.sameButUse hst
  cases hturns with
  | quiet hlocks hgiving =>
    exact ⟨t, turn_of_turns hadmitted hprelude (.quiet hlocks hgiving), hst⟩
  | @served r l₂ s₂ leak unlocks deletes shown hlocks hbody hbacks hprints hgiving hleak hreads
      hdeletes =>
    obtain ⟨q, hq, hcritical⟩ := Asked.locking_body cfg turn.job.fdClient hlocks
    rw [hpolicy] at hcritical
    have hblind : (asked.body cfg turn.job.fdClient).Only Op.Blind := by
      rw [hq]
      exact ⟨trivial, fun _ => hcritical.blind⟩
    have hagrees : World.Agrees (l₁, s) (l₁, t) := ⟨rfl, hst⟩
    obtain ⟨⟨l₂', t₂⟩, hbody', hl, hst₂⟩ := (hblind.agree agree_of_blind hagrees).eq_ok hbody
    obtain rfl : l₂' = l₂ := hl
    exact ⟨_, turn_of_turns hadmitted hprelude (.served hlocks hbody' (hbacks.sameButUse hst₂)
      (hprints.sameButUse hst₂) hgiving hleak hreads hdeletes), hst₂.toSameFiles.settled _ _,
      hst₂.locked⟩

end Turns

/-! ## Reads -/

/-- The job asks to read files. -/
def Asked.reads : Asked → Bool
  | request (.readFile _) => true
  | request (.readNFiles _) => true
  | _ => false

/-- The job has asked to read files. -/
def readsFiles (turn : JobTurn) : Bool :=
  match Prog.run exec turn.job.prelude (turn.start, Store.initial) with
  | .ok (asked, _) => asked.reads
  | _ => false

/-- An operation that changes nothing but locks and `last_use`. -/
def Op.Reading : Op → Prop
  | .clockGettime | .malloc _ | .uninit | .mutexLock _ | .mutexUnlock _ | .getState |
      .hashmapGetByKey _
  | .hashmapIter | .get _ _ | .set _ .lastUse _ | .fileReaderLock _ | .fileReaderUnlock _ => True
  | _ => False

section Reads

variable {cfg : ServerConfig} {policy : Policy} {α : Type} {kept : α → List FilePtr}
  {own : List FilePtr}
  {l l' : Local} {s s' : Store} {p : FilePtr}

theorem reading_bind (o : Op) (ho : o.Reading) {k : Ans o → M α} (hk : ∀ r, (k r).Only Op.Reading) :
    (perform o >>= k).Only Op.Reading :=
  ((Prog.only_perform o).2 ho).bind hk

theorem reading_readFileStore (fdClient : ℕ) (path : CString) :
    (readFileStore fdClient path).Only Op.Reading := by
  refine reading_bind (.mutexLock .files) trivial fun _ => ?_
  refine reading_bind (.hashmapGetByKey path) trivial fun found => ?_
  cases found with
  | none => exact reading_bind (.mutexUnlock .files) trivial fun _ => trivial
  | some p =>
    refine reading_bind (.fileReaderLock p) trivial fun _ =>
      reading_bind (.get p .fdOpen) trivial fun _ => ?_
    refine .ite ?_ ?_
    · refine reading_bind (.fileReaderUnlock p) trivial fun _ => ?_
      exact reading_bind (.mutexUnlock .files) trivial fun _ => trivial
    · refine reading_bind .clockGettime trivial fun t =>
        reading_bind (.set p .lastUse t) trivial fun _ => ?_
      exact reading_bind (.mutexUnlock .files) trivial fun _ => trivial

theorem reading_readNLoop (ps : List FilePtr) (N err : ℤ) (fileList : List FilePtr) :
    (readNLoop ps N err fileList).Only Op.Reading := by
  induction ps generalizing N err fileList with
  | nil => trivial
  | cons p ps ih =>
    refine .ite (reading_bind (.fileReaderLock p) trivial fun _ => ?_) trivial
    refine reading_bind (.malloc _) trivial fun _ => .ite ?_ (ih _ _ _)
    exact reading_bind (.fileReaderUnlock p) trivial fun _ => trivial

theorem reading_readerUnlockAll (ps : List FilePtr) : (readerUnlockAll ps).Only Op.Reading := by
  induction ps with
  | nil => trivial
  | cons p ps ih => exact reading_bind (.fileReaderUnlock p) trivial fun _ => ih

theorem reading_readNFilesStore (N : ℤ) : (readNFilesStore N).Only Op.Reading := by
  refine reading_bind (.mutexLock .files) trivial fun _ => ?_
  refine reading_bind (.mutexLock .currState) trivial fun _ =>
    reading_bind .getState trivial fun st => ?_
  refine reading_bind (.mutexUnlock .currState) trivial fun _ =>
    reading_bind .uninit trivial fun err => ?_
  refine reading_bind .hashmapIter trivial fun ps => (reading_readNLoop ps _ _ _).bind fun r =>
    .ite ?_ ?_
  · refine (reading_readerUnlockAll _).bind fun _ => ?_
    exact reading_bind (.mutexUnlock .files) trivial fun _ => trivial
  · exact reading_bind (.mutexUnlock .files) trivial fun _ => trivial

/-- A reader locks a file. -/
theorem Store.settled_readLocked {f : File} (hf : s.heap p = some f) :
    (s.put p f.readLocked).settled (fun q => (own ++ [p]).count q) 0 =
      s.settled (fun q => own.count q) 0 := by
  have hput : (s.put p f.readLocked).put p f.readLocked.readUnlocked = s := by
    have hheap : update (update s.heap p (some f.readLocked)) p (some f) = s.heap := by
      rw [update_idem, ← hf, update_eq_self]
    simp only [Store.put, File.readUnlocked_readLocked, hheap]
  have hself : (own ++ [p]).count p = own.count p + 1 := by simp
  have hother : ∀ q, q ≠ p → (own ++ [p]).count q = own.count q := fun q hq => by simp [Ne.symm hq]
  have hunlock := @Store.settled_unlock (s.put p f.readLocked) (fun q => (own ++ [p]).count q)
    (fun q => own.count q) 0 p f.readLocked (Store.heap_put_self ..) hself hother
  rw [hput] at hunlock
  exact hunlock.symm

/-- What one operation of a read leaves, once the files have been unlocked. -/
theorem sameFiles_of_plain {o : Op} (ho : o.Plain policy) (hreading : o.Reading) {a : Ans o}
    (n : FilePtr → ℕ)
    (h : exec o (l, s) = .ok (a, (l', s'))) : (s.settled n 0).SameFiles (s'.settled n 0) := by
  cases o
  case clockGettime | malloc | uninit =>
    obtain ⟨rfl, -⟩ := exec_of_private (by exact trivial) h
    exact .refl _
  case mutexLock m =>
    change (if s.locked m = true then _ else _) = _ at h
    split_ifs at h
    cases h
    exact (Store.SameFiles.setLocked s true m).settled n 0
  case mutexUnlock m =>
    cases h
    exact (Store.SameFiles.setLocked s false m).settled n 0
  case getState | hashmapGetByKey | hashmapIter =>
    cases h
    exact .refl _
  case get p fld =>
    obtain ⟨f, -, he⟩ := withFile_eq_ok h
    cases he
    exact .refl _
  case set p fld t =>
    obtain ⟨f, hf, he⟩ := withFile_eq_ok h
    cases he
    cases fld
    case lastUse => exact (Store.SameFiles.of_used hf t).settled n 0
    all_goals exact hreading.elim
  case fileReaderLock | fileReaderUnlock => exact ho.elim
  all_goals exact hreading.elim

/-- A section that only reads leaves the files as they were, once those it keeps have been unlocked.
The induction is on the section. -/
theorem sameFiles_of_critical {q : M α} (h : Critical policy kept own q)
    (hq : q.Only Op.Reading) {r : α}
    (hrun : Prog.run exec q (l, s) = .ok (r, (l', s'))) :
    (s.settled (fun p => own.count p) 0).SameFiles (s'.settled (fun p => (kept r).count p) 0) := by
  induction h generalizing l s with
  | @unlock a k hk =>
    rw [Prog.run_op] at hrun
    obtain ⟨⟨u, w⟩, hexec, hrest⟩ := Res.bind_eq_ok.1 hrun
    cases hexec
    change Prog.run exec (k ()) _ = _ at hrest
    rw [hk] at hrest
    cases hrest
    exact (Store.SameFiles.setLocked s false .files).settled _ 0
  | @readerLock own p k h ih =>
    obtain ⟨⟨u, w⟩, hexec, hrest⟩ := Res.bind_eq_ok.1 hrun
    obtain ⟨f, hf, he⟩ := withFile_eq_ok hexec
    split_ifs at he
    cases he
    rw [← Store.settled_readLocked hf]
    exact ih (hq.2 _) hrest
  | @readerUnlock own rest p k hp h ih =>
    obtain ⟨⟨u, w⟩, hexec, hrest⟩ := Res.bind_eq_ok.1 hrun
    obtain ⟨f, hf, he⟩ := withFile_eq_ok hexec
    cases he
    have hcount : (fun q => own.count q) = fun q => (p :: rest).count q :=
      funext fun q => hp.count_eq q
    rw [hcount, ← Store.settled_unlock hf (by simp : (p :: rest).count p = rest.count p + 1)
      fun q hq => List.count_cons_of_ne (Ne.symm hq)]
    exact ih (hq.2 _) hrest
  | @plain own o k ho h ih =>
    obtain ⟨⟨a, w⟩, hexec, hrest⟩ := Res.bind_eq_ok.1 hrun
    obtain ⟨l₁, s₁⟩ := w
    exact (sameFiles_of_plain ho hq.1 _ hexec).trans (ih a (hq.2 a) hrest)

end Reads

/-! ## With and without the reads -/

section Independence

variable {cfg : ServerConfig} {turns turns' : List JobTurn} {turn : JobTurn} {s s' : Store}
  {xs : List (FilePtr × File)} {asked : Asked}

/-- The section of a read only reads, and takes no file out of the map. -/
theorem reading_body (cfg : ServerConfig) (hreads : asked.reads = true) (fdClient : ℕ) :
    (asked.body cfg fdClient).Only Op.Reading := by
  cases asked with
  | request req =>
    cases req with
    | readFile path => exact (reading_readFileStore fdClient path).bind fun _ => trivial
    | readNFiles N => exact (reading_readNFilesStore N).bind fun _ => trivial
    | _ => cases hreads
  | _ => cases hreads

theorem deleted_of_body {fdClient : ℕ} {r : Except Sa Reply} {w w' : World}
    (hreads : asked.reads = true)
    (h : Prog.run exec (asked.body cfg fdClient) w = .ok (r, w')) : Reply.deleted r = [] := by
  cases asked with
  | request req =>
    cases req with
    | readFile path =>
      rw [Asked.body, storeSection, Prog.run_bind] at h
      obtain ⟨⟨r', w₁⟩, -, he⟩ := Res.bind_eq_ok.1 h
      cases he
      cases r' <;> rfl
    | readNFiles N =>
      rw [Asked.body, storeSection, Prog.run_bind] at h
      obtain ⟨⟨r', w₁⟩, -, he⟩ := Res.bind_eq_ok.1 h
      cases he
      cases r' <;> rfl
    | _ => cases hreads
  | _ => cases hreads

theorem idle_of_serial (h : Run (serialServer cfg) turns s) : ∃ xs, s.Idle cfg xs := by
  obtain ⟨tr, hserver⟩ := server_of_serial h
  exact idle_of_run hserver

/-- A read that does not end with `MW_FATAL_ERROR` changes nothing but `last_use`. -/
theorem sameButUse_of_read (h : Run (serialServer cfg) turns s)
    (hstep : (serialServer cfg).step s turn s')
    (hreads : readsFiles turn = true) (hfatal : turn.result ≠ some .fatalError) :
    s.SameButUse s' := by
  obtain ⟨xs, hs⟩ := idle_of_serial h
  obtain ⟨xs', hs'⟩ := idle_of_serial (h.step hstep)
  obtain ⟨asked, l₁, hprelude, hturns⟩ := turns_of_turn hs hstep
  have hasked : asked.reads = true := by
    rw [readsFiles, hprelude] at hreads
    exact hreads
  refine ⟨?_, fun m => ?_⟩
  · cases hturns with
    | quiet hlocks hgiving => exact .refl s
    | @served r l₂ s₂ leak unlocks deletes shown hlocks hbody hbacks hprints hgiving hleak hreaders
        hdeletes =>
      obtain ⟨q, hq, hcritical⟩ := Asked.locking_body cfg turn.job.fdClient hlocks
      have hreading := reading_body cfg hasked turn.job.fdClient
      have hdeleted := deleted_of_body hasked hbody
      obtain rfl := hleak.resolve_right hfatal
      rw [hq] at hbody hreading
      obtain ⟨⟨u, l₂', s₂'⟩, hexec, hrest⟩ := Res.bind_eq_ok.1 hbody
      have hsame := sameFiles_of_critical hcritical (hreading.2 _) hrest
      have hlock : s.SameFiles s₂' := by
        change (if s.locked .files = true then _ else _) = _ at hexec
        split_ifs at hexec
        cases hexec
        exact .setLocked s true .files
      have hunlocks : countAt unlocks = fun p => (Reply.readers r).count p :=
        funext fun p => hreaders.count_eq p
      have hnone : countAt deletes = 0 := funext fun p => by
        rw [countAt, hdeletes, hdeleted]
        rfl
      rw [hunlocks, hnone]
      refine hlock.trans ?_
      have hzero : (fun p : FilePtr => ([] : List FilePtr).count p) = 0 := rfl
      rwa [hzero, Store.settled_zero] at hsame
  · cases m with
    | files => rw [hs.filesMtx, hs'.filesMtx]
    | currState => rw [hs.currStateMtx, hs'.currStateMtx]

/-- With the policy FIFO, a run of the server is also one without the reads, if none of these ends
with `MW_FATAL_ERROR`. The other jobs send the same and return the same, and the stores are the same
but for `last_use`. Any run with the same other jobs is this one. -/
theorem independent_of_reads (hpolicy : cfg.policy = .FIFO) (h : Run (serialServer cfg) turns s)
    (hfatal : ∀ turn ∈ turns, readsFiles turn = true → turn.result ≠ some .fatalError) :
    ∃ s', Run (serialServer cfg) (turns.filter fun turn => !readsFiles turn) s' ∧ s.SameButUse s' ∧
      ∀ turns' s'', Run (serialServer cfg) turns' s'' →
        ((turns'.map fun turn => (turn.job, turn.start)) =
          (turns.filter fun turn => !readsFiles turn).map fun turn => (turn.job, turn.start)) →
        turns' = (turns.filter fun turn => !readsFiles turn) ∧ s'' = s' := by
  have hrun : ∃ s', Run (serialServer cfg) (turns.filter fun turn => !readsFiles turn) s' ∧
      s.SameButUse s' := by
    revert hfatal
    refine h.induction (I := fun turns s => (∀ turn ∈ turns, readsFiles turn = true →
      turn.result ≠ some .fatalError) → ∃ s', Run (serialServer cfg)
        (turns.filter fun turn => !readsFiles turn) s' ∧ s.SameButUse s') ?_ ?_
    · rintro s rfl -
      exact ⟨_, .start rfl, .refl _, fun _ => rfl⟩
    rintro turns s turn s' hrun ih hstep hfatal
    obtain ⟨t, ht, hst⟩ := ih fun turn hturn => hfatal turn (List.mem_cons_of_mem _ hturn)
    cases hreads : readsFiles turn with
    | true =>
      have hread := sameButUse_of_read hrun hstep hreads (hfatal turn List.mem_cons_self hreads)
      rw [List.filter_cons_of_neg (by rw [hreads]; exact Bool.false_ne_true)]
      exact ⟨t, ht, hread.symm.trans hst⟩
    | false =>
      obtain ⟨xs, hs⟩ := idle_of_serial hrun
      obtain ⟨t', hstep', hst'⟩ := turn_of_sameButUse hpolicy hs hst hstep
      rw [List.filter_cons_of_pos (by rw [hreads]; rfl)]
      exact ⟨t', .step ht hstep', hst'⟩
  obtain ⟨s', hrun, hsame⟩ := hrun
  exact ⟨s', hrun, hsame, fun turns' s'' h' hmap => serial_unique hrun h' hmap⟩

/-- The server that expels by creation time. -/
def fifo : ServerConfig :=
  { ServerConfig.small with policy := .FIFO }

theorem computes_serialServer (cfg : ServerConfig) :
    Computes (serialServer cfg) (Serial.next exec (Job.program cfg) Job.Admitted) :=
  computes_serial Store.initial

/-- A job of a client that makes a call. -/
def Job.calls (fdClient : ℕ) (call : Api.Call) (l : Local) : Job × Local :=
  (.worker fdClient, l.left call.pieces.flatten)

/-- The client 9 fills a file, and the client 8 another one. The first file is read, and so are
both. Then the client 8 creates a third, for which the first is expelled although it has been used
last. -/
def reading : List (Job × Local) :=
  [Job.calls 9 (.openFile [98] oCreate) (.at 0),
    Job.calls 9 (.appendToFile [98] [3] fun _ => 0) (.at 1),
    Job.calls 8 (.openFile [97] oCreate) (.at 2),
    Job.calls 8 (.appendToFile [97] [1, 2] fun _ => 0) (.at 3),
    Job.calls 8 (.readNFiles 0 fun _ => 0) (.at 4), Job.calls 9 (.readFile [98]) (.at 5),
    Job.calls 8 (.openFile [99] oCreate) (.at 6)]

/-- An example of `independent_of_reads` : with the reads and without them the first file is
expelled. -/
theorem independent_of_reads_expulsion : ∃ turns s s', Run (serialServer fifo) turns s ∧
    turns.map readsFiles = [false, true, true, false, false, false, false] ∧
    s.fileSystem.files.map (fun f => (f.pathName, f.contents)) = [([99], []), ([97], [1, 2])] ∧
    Run (serialServer fifo) (turns.filter fun turn => !readsFiles turn) s' ∧ s.SameButUse s' := by
  obtain ⟨turns, s, hrun, hreads, hfiles, hfatal⟩ :=
    (computes_serialServer fifo).exists_run .initial rfl reading
      (fun turns s => turns.map readsFiles = [false, true, true, false, false, false, false] ∧
        s.fileSystem.files.map (fun f => (f.pathName, f.contents)) = [([99], []), ([97], [1, 2])] ∧
        ∀ turn ∈ turns, readsFiles turn = true → turn.result ≠ some .fatalError)
      (by decide +kernel)
  obtain ⟨s', hrun', hsame, -⟩ := independent_of_reads rfl hrun hfatal
  exact ⟨turns, s, s', hrun, hreads, hfiles, hrun', hsame⟩

end Independence

end StorageServer
