import StorageServer.Serialization

/-!
# What a job has in hand

The notes of a thread on its job (`Held`) say whether it has `files_mtx`, and which files it has
found in the map, created, locked for reading and removed from the map. Whatever the answers to its
operations are, a job accesses the files that it has found or created while it has `files_mtx`, and
those that it has locked for reading or removed at any time, and no others but one : `open_file`
prints the path of the file that it has created after it has unlocked `files_mtx` (`Held.Allows`,
`careful_program`).
-/

open Programs

namespace StorageServer

/-! ## Notes -/

/-- What a thread has done in its job. -/
structure Held where
  /-- It has locked `files_mtx`, and not unlocked it. -/
  filesMtx : Bool
  /-- What the map has given it for a key, and has not been changed since. -/
  keys : List (CString × FilePtr)
  /-- The files that it has got from the map. -/
  found : List FilePtr
  created : List FilePtr
  /-- The files that it has created, and that have not been put into the map. -/
  pending : List FilePtr
  /-- The files that it has locked for reading, and not unlocked. -/
  reads : List FilePtr
  /-- The files that it has removed from the map, and not deleted. -/
  removed : List FilePtr
  deriving DecidableEq, Repr

namespace Held

/-- A job that has not come to `files_mtx`. -/
def nothing : Held :=
  ⟨false, [], [], [], [], [], []⟩

/-- The job has unlocked `files_mtx`. -/
def release (h : Held) : Held :=
  { h with filesMtx := false }

/-- What an operation and its answer add. -/
def note (h : Held) : (o : Op) → Ans o → Held
  | .mutexLock .files, _ => { h with filesMtx := true }
  | .mutexUnlock .files, _ => h.release
  | .hashmapGetByKey key, (file : Option FilePtr) =>
    { h with keys := file.toList.map (key, ·), found := file.toList ++ h.found }
  | .hashmapIter, (files : List FilePtr) => { h with found := files ++ h.found }
  | .hashmapInsert _ file, (r : ℤ) =>
    { h with keys := [], pending := if r = 0 then h.pending.erase file else h.pending }
  | .hashmapRemove _, (file : Option FilePtr) =>
    { h with keys := [], removed := file.toList ++ h.removed }
  | .fileNew _, (file : FilePtr) =>
    { h with created := file :: h.created, pending := file :: h.pending }
  | .fileDelete file, _ =>
    { h with found := h.found.filter (· ≠ file), removed := h.removed.erase file }
  | .fileReaderLock file, _ => { h with reads := h.reads ++ [file] }
  | .fileReaderUnlock file, _ => { h with reads := h.reads.erase file }
  | _, _ => h

/-- The answers that an operation can get : what the map has given for a key it gives up when the
key is removed. -/
def Can (h : Held) : (o : Op) → Ans o → Prop
  | .hashmapRemove key, (file : Option FilePtr) => ∀ p, (key, p) ∈ h.keys → file = some p
  | _, _ => True

/-- No other thread can delete the file. -/
def Has (h : Held) (p : FilePtr) : Prop :=
  h.filesMtx = true ∧ (p ∈ h.found ∨ p ∈ h.created) ∨ p ∈ h.reads ∨ p ∈ h.removed

/-- What a job may do next. -/
def Allows (h : Held) : Op → Prop
  | .get p fld => h.Has p ∨ fld = .pathName ∧ p ∈ h.created
  | .set p _ _ | .fileWriterLock p | .fileWriterUnlock p => h.Has p
  | .fileReaderLock p => h.filesMtx = true ∧ p ∈ h.found ∧ h.removed = []
  | .fileReaderUnlock p => p ∈ h.reads
  | .fileDelete p => p ∈ h.removed ∧ (h.filesMtx = true → h.created = [])
  | .hashmapInsert _ p => h.filesMtx = true ∧ p ∈ h.pending
  | .hashmapRemove _ => h.filesMtx = true ∧ h.reads = []
  | .hashmapContains _ | .hashmapGetByKey _ | .hashmapIter | .hashmapNelem | .fileNew _
  | .mutexUnlock .files => h.filesMtx = true
  | .mutexLock .files => h = nothing
  | _ => True

/-- Files have been expelled. -/
structure Grows (h h' : Held) : Prop where
  filesMtx : h'.filesMtx = h.filesMtx
  created : h'.created = h.created
  pending : h'.pending = h.pending
  reads : h'.reads = h.reads
  found : h.found ⊆ h'.found
  removed : h.removed ⊆ h'.removed

variable {h h' h'' : Held} {p : FilePtr}

theorem Grows.refl (h : Held) : h.Grows h :=
  ⟨rfl, rfl, rfl, rfl, List.Subset.refl _, List.Subset.refl _⟩

theorem Grows.trans (h₁ : h.Grows h') (h₂ : h'.Grows h'') : h.Grows h'' :=
  ⟨h₂.filesMtx.trans h₁.filesMtx, h₂.created.trans h₁.created, h₂.pending.trans h₁.pending,
    h₂.reads.trans h₁.reads, List.Subset.trans h₁.found h₂.found,
    List.Subset.trans h₁.removed h₂.removed⟩

theorem Grows.has (hgrows : h.Grows h') (hp : h.Has p) : h'.Has p := by
  rcases hp with ⟨hmtx, hp | hp⟩ | hp | hp
  · exact .inl ⟨hgrows.filesMtx.trans hmtx, .inl (hgrows.found hp)⟩
  · exact .inl ⟨hgrows.filesMtx.trans hmtx, .inr (hgrows.created ▸ hp)⟩
  · exact .inr (.inl (hgrows.reads ▸ hp))
  · exact .inr (.inr (hgrows.removed hp))

end Held

/-- Whatever the answers are, each operation of the program is allowed by what has been done
before. -/
abbrev Careful {α : Type} (p : M α) (Q : α → Held → Prop) (h : Held) : Prop :=
  Prog.Along Held.note Held.Can Held.Allows p Q h

/-- An operation that is not noted, and accesses none but these files. -/
def Op.Touches (files : FilePtr → Prop) : Op → Prop
  | .get p _ | .set p _ _ | .fileWriterLock p | .fileWriterUnlock p => files p
  | .readn _ | .writen _ | .clockGettime | .safeMalloc _ | .malloc _ | .exit | .uninit | .logger _
  | .mutexLock .currState | .mutexUnlock .currState | .getState | .setState _ | .undefined => True
  | _ => False

section Touches

variable {α : Type} {files : FilePtr → Prop} {p : FilePtr} {ps : List FilePtr} {fdClient : ℕ}

theorem touches_bind (o : Op) (ho : o.Touches files) {k : Ans o → M α}
    (hk : ∀ r, (k r).Only (Op.Touches files)) : (perform o >>= k).Only (Op.Touches files) :=
  ((Prog.only_perform o).2 ho).bind hk

theorem Op.Private.touches {o : Op} (h : o.Private) : o.Touches files := by
  cases o
  case readn | writen | clockGettime | safeMalloc | malloc | exit | uninit | logger => trivial
  all_goals exact h.elim

theorem touches_removeOpener (hp : files p) :
    (removeOpener p fdClient).Only (Op.Touches files) := by
  refine touches_bind (.get p .fdOpen) hp fun (table : HashTblPtr) => ?_
  cases table.remove fdClient with
  | none => exact (Prog.only_perform Op.undefined).2 trivial
  | some r => exact (Prog.only_perform (Op.set p .fdOpen r.2)).2 hp

theorem touches_addOpener (hp : files p) : (addOpener p fdClient).Only (Op.Touches files) := by
  refine touches_bind (.malloc _) trivial fun _ => touches_bind (.malloc _) trivial fun _ => ?_
  refine touches_bind (.get p .fdOpen) hp fun table => ?_
  exact (Prog.only_perform (Op.set p .fdOpen _)).2 hp

theorem touches_initOpeners : (initOpeners fdClient).Only (Op.Touches files) := by
  have hinsert : ∀ u : Unit, (openersMemory >>= fun granted => pure (HashTblPtr.insert granted
      (some ⟨4, 0, List.replicate 4 [], defaultHashtblHash⟩) fdClient).2).Only
        (Op.Touches files) := fun _ =>
    touches_bind (.malloc _) trivial fun _ => touches_bind (.malloc _) trivial fun _ => trivial
  refine touches_bind (.malloc _) trivial fun b => .ite trivial ?_
  refine touches_bind (.malloc _) trivial fun b => .ite ?_ (hinsert ())
  exact touches_bind .exit trivial hinsert

theorem touches_policyCmp (policy : Policy) {q : FilePtr} (hp : files p) (hq : files q) :
    (policyCmp policy p q).Only (Op.Touches files) := by
  cases policy with
  | LRU =>
    exact touches_bind (.get p .lastUse) hp fun _ =>
      touches_bind (.get q .lastUse) hq fun _ => trivial
  | FIFO =>
    exact touches_bind (.get p .creationTime) hp fun _ =>
      touches_bind (.get q .creationTime) hq fun _ => trivial

theorem touches_closeClientLoop (hps : ∀ p ∈ ps, files p) :
    (closeClientLoop fdClient ps).Only (Op.Touches files) := by
  induction ps with
  | nil => trivial
  | cons p ps ih =>
    have hp : files p := hps p List.mem_cons_self
    have hrest : (removeOpener p fdClient >>= fun _ => fileWriterUnlock p >>= fun _ =>
        closeClientLoop fdClient ps).Only (Op.Touches files) :=
      (touches_removeOpener hp).bind fun _ => touches_bind (.fileWriterUnlock p) hp fun _ =>
        ih fun q hq => hps q (List.mem_cons_of_mem p hq)
    refine touches_bind (.fileWriterLock p) hp fun _ => ?_
    refine touches_bind (.get p .fdLock) hp fun fdLock => .ite ?_ hrest
    exact touches_bind (.set p .fdLock (-1)) hp fun _ => hrest

theorem touches_sendSingleFile (hp : files p) (sendPath : Bool) :
    (sendSingleFile p sendPath).Only (Op.Touches files) := by
  have hfalse : (sendSingleFile p false).Only (Op.Touches files) := by
    refine touches_bind (.get p .size) hp fun size => ?_
    refine touches_bind (.writen _) trivial fun r => .ite trivial ?_
    refine touches_bind (.get p .size) hp fun size => .ite ?_ trivial
    refine touches_bind (.get p .contents) hp fun contents => ?_
    refine touches_bind (.get p .size) hp fun size => ?_
    exact touches_bind (.writen _) trivial fun r => .ite trivial trivial
  cases sendPath with
  | false => exact hfalse
  | true =>
    rw [sendSingleFile_true]
    refine touches_bind (.get p .pathName) hp fun path => ?_
    refine touches_bind (.writen _) trivial fun r => .ite trivial ?_
    exact touches_bind (.writen _) trivial fun r => .ite trivial hfalse

theorem touches_sendListOfFiles (hps : ∀ p ∈ ps, files p) :
    (sendListOfFiles ps).Only (Op.Touches files) := by
  induction ps with
  | nil => exact touches_bind (.writen _) trivial fun r => .ite trivial trivial
  | cons p ps ih =>
    refine Prog.Only.bind (touches_sendSingleFile (hps p List.mem_cons_self) true) fun r => ?_
    exact .ite trivial (ih fun q hq => hps q (List.mem_cons_of_mem p hq))

end Touches

section Careful

variable {α β : Type} {cfg : ServerConfig} {h h' : Held} {p : FilePtr} {ps : List FilePtr}
  {fdClient : ℕ} {path : CString} {Q : α → Held → Prop}

theorem careful_perform (o : Op) (ho : h.Allows o) {k : Ans o → M α}
    (hk : ∀ r, Careful (k r) Q (h.note o r)) : Careful (perform o >>= k) Q h :=
  ⟨ho, fun r _ => hk r⟩

theorem careful_bind {q : M β} {k : β → M α} (hq : Careful q (fun b h => Careful (k b) Q h) h) :
    Careful (q >>= k) Q h :=
  (Prog.along_bind q k Q).2 hq

theorem careful_of_touches {q : M α} (hq : q.Only (Op.Touches h.Has)) (hQ : ∀ a, Q a h) :
    Careful q Q h := by
  refine hq.along (fun o ho => ?_) hQ
  cases o
  case get => exact ⟨.inl ho, fun _ => rfl⟩
  case set | fileWriterLock | fileWriterUnlock => exact ⟨ho, fun _ => rfl⟩
  case mutexLock m => cases m <;> first | exact ho.elim | exact ⟨trivial, fun _ => rfl⟩
  case mutexUnlock m => cases m <;> first | exact ho.elim | exact ⟨trivial, fun _ => rfl⟩
  all_goals first | exact ho.elim | exact ⟨trivial, fun _ => rfl⟩

/-- A program that touches only these files, and what follows it. -/
theorem careful_touches_bind {q : M β} {k : β → M α} (hq : q.Only (Op.Touches h.Has))
    (hk : ∀ b, Careful (k b) Q h) : Careful (q >>= k) Q h :=
  careful_bind (careful_of_touches hq hk)

/-- The end of a section. -/
theorem careful_done {a : α} (hmtx : h.filesMtx = true) (hQ : Q a h.release) :
    Careful (mutexUnlock .files >>= fun _ => pure a) Q h :=
  careful_perform (.mutexUnlock .files) hmtx fun _ => hQ

/-- A refusal, which unlocks the file first. -/
theorem careful_refuse {a : α} (hp : h.Has p) (hmtx : h.filesMtx = true) (hQ : Q a h.release) :
    Careful (fileWriterUnlock p >>= fun _ => mutexUnlock .files >>= fun _ => pure a) Q h :=
  careful_perform (.fileWriterUnlock p) hp fun _ => careful_done hmtx hQ

/-! ## Expulsions -/

theorem careful_createFile {flags : ℤ} {Q : FilePtr → Held → Prop} (hmtx : h.filesMtx = true)
    (hQ : ∀ p, Q p { h with created := p :: h.created, pending := p :: h.pending }) :
    Careful (createFile path flags fdClient) Q h := by
  refine careful_perform (.safeMalloc _) trivial fun _ =>
    careful_touches_bind touches_initOpeners fun fdOpen => ?_
  refine careful_perform (.fileNew _) hmtx fun (p : FilePtr) => ?_
  have hp : Held.Has { h with created := p :: h.created, pending := p :: h.pending } p :=
    .inl ⟨hmtx, .inr List.mem_cons_self⟩
  refine careful_perform (.fileWriterLock p) hp fun _ => ?_
  refine careful_perform .clockGettime trivial fun t =>
    careful_perform (.set p .creationTime t) hp fun _ => ?_
  exact careful_perform .clockGettime trivial fun t =>
    careful_perform (.set p .lastUse t) hp fun _ => hQ p

/-- The scan gives one of the files. -/
theorem careful_expellScan {policy : Policy} {least : Option FilePtr}
    {Q : Option FilePtr → Held → Prop} (hps : ∀ p ∈ ps, h.Has p) (hleast : ∀ m ∈ least, h.Has m)
    (hQ : ∀ r, (∀ m ∈ r, h.Has m) → Q r h) : Careful (expellScan policy ps least) Q h := by
  induction ps generalizing least with
  | nil => exact hQ least hleast
  | cons p ps ih =>
    have hp := hps p List.mem_cons_self
    have hrest : ∀ {least : Option FilePtr}, (∀ m ∈ least, h.Has m) →
        Careful (expellScan policy ps least) Q h := fun hleast =>
      ih (fun q hq => hps q (List.mem_cons_of_mem p hq)) hleast
    have hself : ∀ m ∈ some p, h.Has m := fun m hm => Option.some.inj hm ▸ hp
    refine careful_perform (.get p .canBeExpelled) (.inl hp) fun b => .ite (hrest hleast) ?_
    refine careful_perform (.fileWriterLock p) hp fun _ => ?_
    cases least with
    | none => exact hrest hself
    | some m =>
      have hm := hleast m rfl
      refine careful_touches_bind (touches_policyCmp policy hp hm) fun r => .ite ?_ ?_
      · exact careful_perform (.fileWriterUnlock m) hm fun _ => hrest hself
      · exact careful_perform (.fileWriterUnlock p) hp fun _ => hrest hleast

theorem careful_expellSingleFile {Q : Option FilePtr → Held → Prop} (hmtx : h.filesMtx = true)
    (hreads : h.reads = [])
    (hQ : ∀ r h', h.Grows h' → h'.removed = r.toList ++ h.removed → Q r h') :
    Careful (expellSingleFile cfg) Q h := by
  refine careful_perform .hashmapNelem hmtx fun n => .ite (hQ none h (.refl h) rfl) ?_
  refine careful_perform (.safeMalloc _) trivial fun _ =>
    careful_perform .hashmapIter hmtx fun (ps : List FilePtr) => ?_
  have hgrows : h.Grows { h with found := ps ++ h.found } :=
    ⟨rfl, rfl, rfl, rfl, List.subset_append_right .., List.Subset.refl _⟩
  refine careful_bind (careful_expellScan (fun p hp => ?_) nofun fun least hleast => ?_)
  · exact .inl ⟨hmtx, .inl (List.mem_append_left _ hp)⟩
  cases least with
  | none =>
    exact careful_perform .undefined trivial fun _ => hQ none _ hgrows rfl
  | some m =>
    refine careful_perform (.get m .pathName) (.inl (hleast m rfl)) fun path => ?_
    refine careful_perform (.hashmapRemove path) (by exact ⟨hmtx, hreads⟩)
      fun (r : Option FilePtr) => ?_
    have hgrows' : h.Grows
        { h with keys := [], found := ps ++ h.found, removed := r.toList ++ h.removed } :=
      hgrows.trans ⟨rfl, rfl, rfl, rfl, List.Subset.refl _, List.subset_append_right ..⟩
    cases r with
    | none => exact careful_perform .undefined trivial fun _ => hQ none _ hgrows' rfl
    | some x =>
      refine careful_perform .getState trivial fun _ =>
        careful_perform (.setState _) trivial fun _ => ?_
      refine careful_perform (.get x .size) (.inl (.inr (.inr List.mem_cons_self))) fun _ => ?_
      refine careful_perform .getState trivial fun _ =>
        careful_perform (.setState _) trivial fun _ => ?_
      refine careful_perform .getState trivial fun _ =>
        careful_perform (.setState _) trivial fun _ => hQ (some x) _ hgrows' rfl

/-- The induction is on the rounds : what has been expelled stays removed. -/
theorem careful_expellLoop {need fuel freed : ℕ} {acc : List FilePtr}
    {Q : List FilePtr → Held → Prop} (hmtx : h.filesMtx = true) (hreads : h.reads = [])
    (hacc : h.removed.Perm acc) (hQ : ∀ r h', h.Grows h' → h'.removed.Perm r → Q r h') :
    Careful (expellLoop cfg need fuel freed acc) Q h := by
  induction fuel generalizing freed acc h with
  | zero => exact careful_perform .undefined trivial fun _ => hQ acc h (.refl h) hacc
  | succ fuel ih =>
    refine .ite (careful_bind (careful_expellSingleFile hmtx hreads fun r h' hgrows hr => ?_))
      (hQ acc h (.refl h) hacc)
    cases r with
    | none => exact hQ acc h' hgrows (hr ▸ hacc)
    | some x =>
      have hx : x ∈ h'.removed := hr ▸ List.mem_cons_self
      have hrest : ∀ u : Unit, Careful (getSize x >>= fun size => expellLoop cfg need fuel
          (toSize (freed + size)) (acc ++ [x])) Q h' := fun _ => by
        refine careful_perform (.get x .size) (.inl (.inr (.inr hx))) fun size => ?_
        refine ih (hgrows.filesMtx.trans hmtx) (hgrows.reads.trans hreads) ?_
          fun r h'' hgrows' => hQ r h'' (hgrows.trans hgrows')
        have hperm : h'.removed.Perm (x :: acc) := hr ▸ hacc.cons x
        exact hperm.trans (List.perm_append_singleton ..).symm
      refine careful_perform (.malloc _) trivial fun b => .ite ?_ (hrest ())
      exact careful_perform .exit trivial hrest

theorem careful_makeRoom {size : ℕ} {Q : List FilePtr → Held → Prop} (hmtx : h.filesMtx = true)
    (hreads : h.reads = []) (hremoved : h.removed = []) (hp : h.Has p)
    (hQ : ∀ r h', h.Grows h' → h'.removed.Perm r → Q r h') :
    Careful (makeRoom cfg p size) Q h := by
  have hnil : h.removed.Perm [] := hremoved ▸ .refl _
  have hend : ∀ r h', h.Grows h' → h'.removed.Perm r → Careful (makeRoomEnd r) Q h' :=
    fun r h' hgrows hr => careful_perform .getState trivial fun _ =>
      careful_perform (.setState _) trivial fun _ => hQ r h' hgrows hr
  have hstart : (makeRoomStart cfg p size).Only (Op.Touches h.Has) := by
    refine touches_bind .getState trivial fun _ => touches_bind (.setState _) trivial fun _ => ?_
    refine touches_bind .getState trivial fun _ => .ite ?_ trivial
    exact touches_bind (.set p .canBeExpelled false) (by exact hp) fun _ => trivial
  refine careful_touches_bind hstart fun sizeToRemove => .ite ?_ (hend [] h (.refl h) hnil)
  have hset : ∀ r h', h.Grows h' → h'.removed.Perm r →
      Careful (set p .canBeExpelled true >>= fun _ => makeRoomEnd r) Q h' :=
    fun r h' hgrows hr => careful_perform (.set p .canBeExpelled true) (hgrows.has hp) fun _ =>
      hend r h' hgrows hr
  refine careful_bind (careful_perform .getState trivial fun st => .ite ?_ ?_)
  · exact hset [] h (.refl h) hnil
  · exact careful_perform .hashmapNelem hmtx fun n =>
      careful_expellLoop hmtx hreads hnil fun r h' hgrows hr => hset r h' hgrows hr

/-! ## The sections -/

/-- The file that the last part of a handler is given because it has been created. -/
def Reply.madeFiles : Except Sa Reply → List FilePtr
  | .ok (.created file _) => [file]
  | _ => []

/-- Those that it is given because they have been removed from the map. -/
def Reply.takenFiles : Except Sa Reply → List FilePtr
  | .ok (.created _ victim) => victim.toList
  | .ok (.expelled toExpell) => toExpell
  | _ => []

/-- A job has unlocked `files_mtx`, and has what its last part is given. -/
structure Held.Left (h : Held) (r : Except Sa Reply) : Prop where
  filesMtx : h.filesMtx = false
  reads : h.reads.Perm (Reply.readers r)
  made : ∀ p ∈ Reply.madeFiles r, p ∈ h.created
  taken : h.removed.Perm (Reply.takenFiles r)

/-- A section that gives a code leaves nothing. -/
theorem Held.left_error (hreads : h.reads = []) (hremoved : h.removed = []) (code : Sa) :
    h.release.Left (.error code) :=
  ⟨rfl, hreads ▸ .refl _, nofun, hremoved ▸ .refl _⟩

theorem Held.left_toReply (hreads : h.reads = []) (hremoved : h.removed = []) (code : Sa) :
    h.release.Left code.toReply := by
  have hnil : h.reads.Perm [] ∧ h.removed.Perm [] := ⟨hreads ▸ .refl _, hremoved ▸ .refl _⟩
  cases code <;> exact ⟨rfl, hnil.1, nofun, hnil.2⟩

/-- The job has found a file. -/
def Held.one (path : CString) (p : FilePtr) : Held :=
  ⟨true, [(path, p)], [p], [], [], [], []⟩

theorem Held.one_has (path : CString) (p : FilePtr) : (Held.one path p).Has p :=
  .inl ⟨rfl, .inl List.mem_cons_self⟩

/-- The beginning of a section that looks for a file. -/
theorem careful_lookup {k : Option FilePtr → M α}
    (hnone : Careful (k none) Q { Held.nothing with filesMtx := true })
    (hsome : ∀ p, Careful (k (some p)) Q (.one path p)) :
    Careful (mutexLock .files >>= fun _ => filesGetByKey path >>= k) Q .nothing :=
  careful_perform (.mutexLock .files) rfl fun _ =>
    careful_perform (.hashmapGetByKey path) (by exact rfl) fun (found : Option FilePtr) => by
      cases found with
      | none => exact hnone
      | some p => exact hsome p

theorem careful_openFileCreate (flags : ℤ) : Careful (openFileCreate cfg fdClient path flags)
    (fun r h => h.Left (r.map fun r => .created r.1 r.2)) .nothing := by
  refine careful_bind (careful_perform (.mutexLock .files) rfl fun _ => ?_)
  refine careful_perform (.hashmapContains path) (by exact rfl) fun b =>
    .ite (careful_done rfl (Held.left_error rfl rfl _)) ?_
  refine careful_bind (careful_createFile rfl fun p =>
    careful_perform (.mutexLock .currState) trivial fun _ => ?_)
  -- what follows the expulsion
  have hend : ∀ (r : Option FilePtr) (h' : Held), Held.Grows ⟨true, [], [], [p], [p], [], []⟩ h' →
      h'.removed = r.toList ++ [] → Careful (openFileCreateEnd path p r)
        (fun r h => h.Left (r.map fun r => .created r.1 r.2)) h' := fun r h' hgrows hr => by
    have hmtx : h'.filesMtx = true := hgrows.filesMtx
    have hp : h'.Has p := hgrows.has (.inl ⟨rfl, .inr List.mem_cons_self⟩)
    refine careful_perform (.mutexUnlock .currState) trivial fun _ => ?_
    refine careful_perform (.set p .canBeExpelled true) hp fun _ => ?_
    have hpending : p ∈ h'.pending := hgrows.pending ▸ List.mem_cons_self
    refine careful_perform (.hashmapInsert path p) ⟨hmtx, hpending⟩ fun _ => ?_
    refine careful_perform (.mutexLock .currState) trivial fun _ => ?_
    refine careful_perform .getState trivial fun _ =>
      careful_perform (.setState _) trivial fun _ => ?_
    refine careful_perform .getState trivial fun _ =>
      careful_perform (.setState _) trivial fun _ => ?_
    refine careful_perform .getState trivial fun _ =>
      careful_perform (.logger _) trivial fun _ => careful_perform (.logger _) trivial fun _ => ?_
    refine careful_perform (.mutexUnlock .currState) trivial fun _ => careful_refuse hp hmtx ?_
    have htaken : h'.removed.Perm r.toList := by rw [hr, List.append_nil]
    exact ⟨rfl, hgrows.reads ▸ .refl _, fun q hq => hgrows.created ▸ hq, htaken⟩
  refine careful_perform .getState trivial fun st => .ite ?_ (hend none _ (.refl _) rfl)
  exact careful_bind (careful_expellSingleFile rfl rfl hend)

theorem careful_openFileExisting (flags : ℤ) :
    Careful (openFileExisting fdClient path flags) (fun code h => h.Left code.toReply)
      .nothing := by
  refine careful_lookup (careful_done rfl (Held.left_toReply rfl rfl _)) fun p => ?_
  have hp := Held.one_has path p
  have hrefuse : ∀ code : Sa, Careful (fileWriterUnlock p >>= fun _ => mutexUnlock .files >>=
      fun _ => pure code) (fun code h => h.Left code.toReply) (.one path p) :=
    fun code => careful_refuse hp rfl (Held.left_toReply rfl rfl _)
  have huse : ∀ u : Unit, Careful (clockGettime >>= fun t => set p .lastUse t >>= fun _ =>
      fileWriterUnlock p >>= fun _ => mutexUnlock .files >>= fun _ => pure Sa.success)
        (fun code h => h.Left code.toReply) (.one path p) := fun _ =>
    careful_perform .clockGettime trivial fun t =>
      careful_perform (.set p .lastUse t) hp fun _ => hrefuse _
  have hopen : Careful (getFdOpen p >>= fun table =>
      if !table.contains fdClient then
        addOpener p fdClient >>= fun _ => clockGettime >>= fun t => set p .lastUse t >>= fun _ =>
          fileWriterUnlock p >>= fun _ => mutexUnlock .files >>= fun _ => pure Sa.success
      else clockGettime >>= fun t => set p .lastUse t >>= fun _ =>
        fileWriterUnlock p >>= fun _ => mutexUnlock .files >>= fun _ => pure Sa.success)
      (fun code h => h.Left code.toReply) (.one path p) :=
    careful_perform (.get p .fdOpen) (.inl hp) fun _ =>
      .ite (careful_touches_bind (touches_addOpener hp) huse) (huse ())
  refine careful_perform (.fileWriterLock p) hp fun _ => .ite ?_ hopen
  refine careful_perform (.get p .fdLock) (.inl hp) fun fdLock => .ite (hrefuse _) ?_
  exact careful_perform (.set p .fdLock _) hp fun _ => hopen

theorem careful_closeFileStore :
    Careful (closeFileStore fdClient path) (fun code h => h.Left code.toReply) .nothing := by
  refine careful_lookup (careful_done rfl (Held.left_toReply rfl rfl _)) fun p => ?_
  have hp := Held.one_has path p
  have hrefuse : Careful (fileWriterUnlock p >>= fun _ => mutexUnlock .files >>=
      fun _ => pure Sa.success) (fun code h => h.Left code.toReply)
        (.one path p) := careful_refuse hp rfl (Held.left_toReply rfl rfl _)
  refine careful_perform (.fileWriterLock p) hp fun _ =>
    careful_touches_bind (touches_removeOpener hp) fun _ => ?_
  refine careful_perform (.get p .fdLock) (.inl hp) fun fdLock => .ite ?_ hrefuse
  exact careful_perform (.set p .fdLock (-1)) hp fun _ => hrefuse

theorem careful_writeFileStore (size : ℤ) (buf : List UInt8) :
    Careful (writeFileStore cfg fdClient path size buf) (fun r h => h.Left (r.map .expelled))
      .nothing := by
  refine careful_bind (careful_lookup (careful_done rfl (Held.left_error rfl rfl _)) fun p => ?_)
  have hp := Held.one_has path p
  refine careful_perform (.fileWriterLock p) hp fun _ => ?_
  refine careful_perform (.get p .fdOpen) (.inl hp) fun _ =>
    .ite (careful_refuse hp rfl (Held.left_error rfl rfl _)) ?_
  refine careful_perform (.get p .fdLock) (.inl hp) fun _ =>
    .ite (careful_refuse hp rfl (Held.left_error rfl rfl _)) ?_
  refine careful_perform (.get p .size) (.inl hp) fun _ =>
    .ite (careful_refuse hp rfl (Held.left_error rfl rfl _)) ?_
  refine .ite (careful_refuse hp rfl (Held.left_error rfl rfl _)) ?_
  refine careful_perform (.malloc .list) trivial fun _ =>
    .ite (careful_refuse hp rfl (Held.left_error rfl rfl _)) ?_
  refine careful_perform (.set p .size _) hp fun _ =>
    careful_perform (.set p .contents _) hp fun _ => ?_
  refine careful_perform .clockGettime trivial fun t =>
    careful_perform (.set p .lastUse t) hp fun _ => ?_
  refine careful_perform (.mutexLock .currState) trivial fun _ =>
    careful_perform (.get p .size) (.inl hp) fun n => ?_
  refine careful_bind (careful_makeRoom rfl rfl rfl hp fun toExpell h' hgrows hr => ?_)
  refine careful_perform .getState trivial fun _ =>
    careful_perform (.logger _) trivial fun _ => careful_perform (.logger _) trivial fun _ => ?_
  refine careful_perform (.mutexUnlock .currState) trivial fun _ =>
    careful_refuse (hgrows.has hp) hgrows.filesMtx ⟨rfl, hgrows.reads ▸ .refl _, nofun, hr⟩

theorem careful_appendToFileStore (size : ℕ) (buf : List UInt8) :
    Careful (appendToFileStore cfg fdClient path size buf) (fun r h => h.Left (r.map .expelled))
      .nothing := by
  refine careful_bind (careful_lookup (careful_done rfl (Held.left_error rfl rfl _)) fun p => ?_)
  have hp := Held.one_has path p
  refine careful_perform (.fileWriterLock p) hp fun _ => ?_
  refine careful_perform (.get p .fdOpen) (.inl hp) fun _ =>
    .ite (careful_refuse hp rfl (Held.left_error rfl rfl _)) ?_
  refine careful_perform (.get p .size) (.inl hp) fun _ =>
    .ite (careful_refuse hp rfl (Held.left_error rfl rfl _)) ?_
  refine careful_perform (.get p .size) (.inl hp) fun _ =>
    careful_perform (.safeMalloc _) trivial fun _ => ?_
  refine careful_perform (.get p .contents) (.inl hp) fun _ =>
    careful_perform (.set p .contents _) hp fun _ => ?_
  refine careful_perform (.get p .size) (.inl hp) fun _ =>
    careful_perform (.set p .size _) hp fun _ => ?_
  refine careful_perform .clockGettime trivial fun t =>
    careful_perform (.set p .lastUse t) hp fun _ => ?_
  refine careful_perform (.mutexLock .currState) trivial fun _ => ?_
  refine careful_bind (careful_makeRoom rfl rfl rfl hp fun toExpell h' hgrows hr => ?_)
  refine careful_perform .getState trivial fun _ =>
    careful_perform (.mutexUnlock .currState) trivial fun _ => ?_
  refine careful_perform (.logger _) trivial fun _ => careful_perform (.logger _) trivial fun _ =>
    careful_refuse (hgrows.has hp) hgrows.filesMtx ⟨rfl, hgrows.reads ▸ .refl _, nofun, hr⟩

theorem careful_removeFileStore :
    Careful (removeFileStore fdClient path) (fun code h => h.Left code.toReply) .nothing := by
  refine careful_lookup (careful_done rfl (Held.left_toReply rfl rfl _)) fun p => ?_
  have hp := Held.one_has path p
  refine careful_perform (.fileWriterLock p) hp fun _ => ?_
  refine careful_perform (.get p .fdOpen) (.inl hp) fun _ =>
    .ite (careful_refuse hp rfl (Held.left_toReply rfl rfl _)) ?_
  refine careful_perform (.get p .fdLock) (.inl hp) fun _ =>
    .ite (careful_refuse hp rfl (Held.left_toReply rfl rfl _)) ?_
  refine careful_perform (.mutexLock .currState) trivial fun _ => ?_
  refine careful_perform .getState trivial fun _ =>
    careful_perform (.setState _) trivial fun _ => ?_
  refine careful_perform .getState trivial fun _ =>
    careful_perform (.get p .size) (.inl hp) fun _ => ?_
  refine careful_perform (.setState _) trivial fun _ => ?_
  refine careful_perform .getState trivial fun _ =>
    careful_perform (.logger _) trivial fun _ => careful_perform (.logger _) trivial fun _ => ?_
  refine careful_perform (.mutexUnlock .currState) trivial fun _ => ?_
  refine ⟨⟨rfl, rfl⟩, fun (removed : Option FilePtr) hremoved => ?_⟩
  obtain rfl : removed = some p := hremoved p List.mem_cons_self
  refine careful_perform (.fileDelete p) ⟨List.mem_cons_self, fun _ => rfl⟩ fun _ =>
    careful_done rfl (Held.left_toReply rfl (List.erase_cons_head p []) _)

/-- The file that `read_file` leaves locked. -/
theorem careful_readFileStore :
    Careful (readFileStore fdClient path) (fun r h => h.Left (r.map .reading)) .nothing := by
  refine careful_lookup (careful_done rfl (Held.left_error rfl rfl _)) fun p => ?_
  have hp : Held.Has { Held.one path p with reads := [p] } p := .inr (.inl List.mem_cons_self)
  refine careful_perform (.fileReaderLock p) (by exact ⟨rfl, List.mem_cons_self, rfl⟩)
    fun _ => ?_
  refine careful_perform (.get p .fdOpen) (.inl hp) fun _ => .ite ?_ ?_
  · refine careful_perform (.fileReaderUnlock p) (by exact List.mem_cons_self) fun _ =>
      careful_done rfl (Held.left_error (List.erase_cons_head p []) rfl _)
  · refine careful_perform .clockGettime trivial fun t =>
      careful_perform (.set p .lastUse t) hp fun _ => ?_
    exact careful_done rfl ⟨rfl, .refl _, nofun, .refl _⟩

/-- The loop of `read_n_files` locks the files of its list. -/
theorem careful_readNLoop {N err : ℤ} {fileList : List FilePtr} {Q : List FilePtr × ℤ → Held → Prop}
    (hmtx : h.filesMtx = true) (hremoved : h.removed = []) (hreads : h.reads.Perm fileList)
    (hps : ∀ p ∈ ps, p ∈ h.found)
    (hQ : ∀ fileList err reads, reads.Perm fileList → Q (fileList, err) { h with reads := reads }) :
    Careful (readNLoop ps N err fileList) Q h := by
  induction ps generalizing N err fileList h with
  | nil => exact hQ fileList _ h.reads hreads
  | cons p ps ih =>
    refine .ite ?_ (hQ fileList _ h.reads hreads)
    refine careful_perform (.fileReaderLock p)
      (by exact ⟨hmtx, hps p List.mem_cons_self, hremoved⟩) fun _ => ?_
    have hlocked : (h.reads ++ [p]).Perm (fileList ++ [p]) := hreads.append_right _
    refine careful_perform (.malloc _) trivial fun (granted : Bool) => ?_
    cases granted with
    | false =>
      refine careful_perform (.fileReaderUnlock p)
        (by exact List.mem_append_right _ List.mem_cons_self) fun _ => ?_
      refine hQ fileList _ _ ((hlocked.trans (List.perm_append_singleton ..)).erase p |>.trans ?_)
      rw [List.erase_cons_head]
    | true =>
      exact ih hmtx hremoved hlocked (fun q hq => hps q (List.mem_cons_of_mem p hq))
        fun fileList err reads => hQ fileList err reads

theorem careful_readerUnlockAll {Q : Unit → Held → Prop} (hreads : h.reads.Perm ps)
    (hQ : ∀ reads, reads.Perm [] → Q () { h with reads := reads }) :
    Careful (readerUnlockAll ps) Q h := by
  induction ps generalizing h with
  | nil => exact hQ h.reads hreads
  | cons p ps ih =>
    refine careful_perform (.fileReaderUnlock p)
      (by exact hreads.mem_iff.2 List.mem_cons_self) fun _ => ?_
    have herase := hreads.erase p
    rw [List.erase_cons_head] at herase
    exact ih herase hQ

/-- The files that `read_n_files` leaves locked. -/
theorem careful_readNFilesStore (N : ℤ) :
    Careful (readNFilesStore N) (fun r h => h.Left (r.map .readingN)) .nothing := by
  refine careful_perform (.mutexLock .files) rfl fun _ =>
    careful_perform (.mutexLock .currState) trivial fun _ =>
    careful_perform .getState trivial fun st => ?_
  refine careful_perform (.mutexUnlock .currState) trivial fun _ =>
    careful_perform .uninit trivial fun err => ?_
  refine careful_perform .hashmapIter (by exact rfl) fun (ps : List FilePtr) => ?_
  refine careful_bind (careful_readNLoop rfl rfl (.refl _) (fun p hp => List.mem_append_left _ hp)
    fun fileList err reads hreads => .ite ?_ ?_)
  · refine careful_bind (careful_readerUnlockAll hreads fun reads hnil => ?_)
    exact careful_done rfl (Held.left_error hnil.eq_nil rfl _)
  · exact careful_done rfl ⟨rfl, hreads, nofun, .refl _⟩

/-! ## The job -/

theorem careful_deleteList {Q : Unit → Held → Prop} (hmtx : h.filesMtx = false)
    (hremoved : h.removed.Perm ps)
    (hQ : ∀ found removed, Q () { h with found := found, removed := removed }) :
    Careful (deleteList ps) Q h := by
  induction ps generalizing h with
  | nil => exact hQ h.found h.removed
  | cons p ps ih =>
    have hp : p ∈ h.removed := hremoved.mem_iff.2 List.mem_cons_self
    have herase := hremoved.erase p
    rw [List.erase_cons_head] at herase
    refine careful_perform (.fileDelete p) ⟨hp, fun he => ?_⟩ fun _ => ih hmtx herase hQ
    cases hmtx.symm.trans he

/-- A success, the pieces, and what is given back on either way out. -/
theorem careful_reply {send : M ℤ} {onError onSuccess : M Sa} {Q : Sa → Held → Prop}
    (hsend : send.Only (Op.Touches h.Has)) (herror : Careful onError Q h)
    (hsuccess : Careful onSuccess Q h) :
    Careful (writen (intBytes Sa.success.code) >>= fun r =>
      if r = -1 then onError
      else send >>= fun r => if r = -1 then onError else onSuccess) Q h :=
  careful_perform (.writen _) trivial fun _ =>
    .ite herror (careful_touches_bind hsend fun _ => .ite herror hsuccess)

theorem careful_finish {r : Except Sa Reply} (hleft : h.Left r) :
    Careful (finish r) (fun _ h => h.filesMtx = false) h := by
  obtain ⟨hmtx, hreads, hmade, htaken⟩ := hleft
  rcases r with code | ⟨_ | ⟨file, expelled⟩ | toExpell | toSend | fileList⟩
  · exact hmtx
  · exact hmtx
  · have hfile := hmade file List.mem_cons_self
    have hlog : ∀ found removed, Careful (getPathName file >>= fun path =>
        logger (.path path) >>= fun _ => pure Sa.success) (fun _ h => h.filesMtx = false)
          { h with found := found, removed := removed } := fun _ _ => by
      refine careful_perform (.get file .pathName) (by exact .inr ⟨rfl, hfile⟩) fun _ => ?_
      exact careful_perform (.logger _) trivial fun _ => hmtx
    cases expelled with
    | none => exact hlog h.found h.removed
    | some expelled =>
      have hexpelled : expelled ∈ h.removed := htaken.mem_iff.2 List.mem_cons_self
      refine careful_perform (.get expelled .pathName) (.inl (.inr (.inr hexpelled))) fun _ => ?_
      refine careful_perform (.logger _) trivial fun _ => ?_
      refine careful_perform (.fileDelete expelled) ⟨hexpelled, fun he => ?_⟩ fun _ => hlog _ _
      cases hmtx.symm.trans he
  · refine careful_reply
      (touches_sendListOfFiles fun p hp => .inr (.inr (htaken.mem_iff.2 hp))) ?_ ?_
    · exact careful_bind (careful_deleteList hmtx htaken fun _ _ => hmtx)
    · exact careful_bind (careful_deleteList hmtx htaken fun _ _ => hmtx)
  · have htoSend : toSend ∈ h.reads := hreads.mem_iff.2 List.mem_cons_self
    refine careful_reply (touches_sendSingleFile (.inr (.inl htoSend)) false) hmtx ?_
    exact careful_perform (.fileReaderUnlock toSend) htoSend fun _ => hmtx
  · refine careful_reply (touches_sendListOfFiles fun p hp => .inr (.inl (hreads.mem_iff.2 hp)))
      ?_ ?_
    · exact careful_bind (careful_readerUnlockAll hreads fun _ _ => hmtx)
    · exact careful_bind (careful_readerUnlockAll hreads fun _ _ => hmtx)

theorem careful_storeSection (req : Request) (hlocks : (Asked.request req).locks = true) :
    Careful (storeSection cfg fdClient req) (fun r h => h.Left r) .nothing := by
  cases req with
  | openFile path flags =>
    exact .ite (careful_bind (careful_openFileCreate flags))
      (careful_bind (careful_openFileExisting flags))
  | closeFile path => exact careful_bind careful_closeFileStore
  | writeFile path size buf => exact careful_bind (careful_writeFileStore size buf)
  | appendToFile path size buf =>
    rw [storeSection, if_pos (of_decide_eq_true hlocks)]
    exact careful_bind (careful_appendToFileStore size buf)
  | readFile path => exact careful_bind careful_readFileStore
  | readNFiles N => exact careful_bind (careful_readNFilesStore N)
  | removeFile path => exact careful_bind careful_removeFileStore

/-- A job accesses only what it may, and does not end before it has unlocked `files_mtx`. -/
theorem careful_program (job : Job) :
    Careful (job.program cfg) (fun _ h => h.filesMtx = false) .nothing := by
  have hsend : ∀ (h : Held) (res : Sa), h.filesMtx = false →
      Careful (sendResult res >>= fun code => pure (some code)) (fun _ h => h.filesMtx = false) h :=
    fun h res hmtx => careful_touches_bind ⟨trivial, fun _ => .ite trivial trivial⟩ fun _ => hmtx
  have htail : ∀ (h : Held) (req : Request) (r : Except Sa Reply), h.Left r →
      Careful ((Asked.request req).tail r) (fun _ h => h.filesMtx = false) h :=
    fun h req r hleft => careful_bind ((careful_finish hleft).mono fun res h' => hsend h' res)
  rw [Job.program_eq]
  refine careful_touches_bind ((private_prelude job).mono fun _ ho => ho.touches) fun asked => ?_
  cases asked with
  | nothing code => exact rfl
  | unread res => exact hsend .nothing res rfl
  | close =>
    refine careful_bind (careful_perform (.mutexLock .files) rfl fun _ =>
      careful_perform .hashmapIter (by exact rfl) fun (ps : List FilePtr) => ?_)
    have hps : ∀ p ∈ ps, Held.Has { Held.nothing with filesMtx := true, found := ps ++ [] } p :=
      fun p hp => .inl ⟨rfl, .inl (List.mem_append_left _ hp)⟩
    exact careful_touches_bind (touches_closeClientLoop hps) fun _ => careful_done rfl rfl
  | request req =>
    cases hlocks : (Asked.request req).locks with
    | true => exact careful_bind ((careful_storeSection req hlocks).mono fun r h => htail h req r)
    | false =>
      rw [Asked.body_eq cfg _ hlocks]
      exact htail .nothing req _ ⟨rfl, .refl _, nofun, .refl _⟩

end Careful

end StorageServer
