import StorageServer.Concurrency

/-!
# Data races

A worker sends a file after it has unlocked `files_mtx`, while other threads work on the store. A
thread is about to write what another is about to read or to write in one case only, whatever they
have done between each other (`raceFree_of_run`) : it is about to delete a file whose path the
`open_file` that has created it is about to print, which happens (`exists_race`). What a thread may
read and write depends on its phase (`Phase.MayRead`, `Phase.MayWrite`), and no two phases of
different threads have a write in common.
-/

open Programs Transitions Threads Function

namespace StorageServer

/-! ## Accesses -/

/-- What the threads share. The counters of a file lock are only changed under its own mutex; they,
and all that is in a file, are gone when the object is deleted. -/
inductive Location
  | files
  | currState
  | object (file : FilePtr)
  | field (file : FilePtr) (fld : Field)
  deriving DecidableEq, Repr

/-- What an operation reads. -/
def Op.reads : Op → List Location
  | .getState => [.currState]
  | .hashmapContains _ | .hashmapGetByKey _ | .hashmapIter | .hashmapNelem => [.files]
  | .get p fld => [.object p, .field p fld]
  | .set p _ _ => [.object p]
  | .fileReaderLock p | .fileReaderUnlock p | .fileWriterLock p | .fileWriterUnlock p => [.object p]
  | _ => []

/-- What it writes. -/
def Op.writes : Op → List Location
  | .setState _ => [.currState]
  | .hashmapInsert _ _ | .hashmapRemove _ => [.files]
  | .set p fld _ => [.field p fld]
  | .fileDelete p => [.object p]
  | _ => []

section Phases

variable {s z : Store} {job : Job} {l₀ l : Local} {o : Op} {c d : Phase}
  {reads unlocks deletes : FilePtr → ℕ}
  {loc : Location} {p : FilePtr}

/-- What a thread may read. One that has unlocked `files_mtx` keeps to the files that it has, and to
what writers change. -/
def Phase.MayRead (deletes : FilePtr → ℕ) (c : Phase) : Location → Prop
  | .object p => (c.isInside = true ∧ deletes p = 0) ∨ p ∈ c.reads ++ c.deletes
  | .field p fld => (c.isInside = true ∧ deletes p = 0) ∨ fld.Lasting ∧ p ∈ c.reads ++ c.deletes
  | _ => c.isInside = true

/-- What it may write. Under `files_mtx`, it changes the contents of no file that is being read, and
the path of none. -/
def Phase.MayWrite (reads deletes : FilePtr → ℕ) (c : Phase) : Location → Prop
  | .object p => (c.isInside = true ∧ reads p = 0 ∧ deletes p = 0) ∨ p ∈ c.deletes
  | .field p fld => c.isInside = true ∧ fld ≠ .pathName ∧ deletes p = 0 ∧
      (fld.Lasting → reads p = 0)
  | _ => c.isInside = true

theorem private_accesses (ho : o.Private) : o.reads = [] ∧ o.writes = [] := by
  cases o
  case readn | writen | clockGettime | safeMalloc | malloc | exit | uninit | logger =>
    exact ⟨rfl, rfl⟩
  all_goals exact ho.elim

/-- A file of the settled store is not about to be deleted. -/
theorem not_deleting_of_withFile {β : Type} {g : File → Res (β × World)}
    (h : withFile (l, s.settled unlocks deletes) p g ≠ .fault) : deletes p = 0 := by
  obtain ⟨f, hf⟩ := exists_of_withFile h
  exact (Store.heap_settled_eq_some hf).1

/-- The operation prints the path of a file that the job has created. -/
def Op.PrintsOf (job : Job) (l₀ : Local) (p : FilePtr) (o : Op) : Prop :=
  o = .get p .pathName ∧ ∃ path, job.Creates l₀ path

/-- The next operation of a thread reads what the thread may read, or the path of the file that it
has created. -/
theorem Phase.Next.mayRead (h : c.Next s (s.settled unlocks deletes) job l₀ l o)
    (hloc : loc ∈ o.reads) :
    c.MayRead deletes loc ∨
      ∃ p, o.PrintsOf job l₀ p ∧ (loc = .object p ∨ loc = .field p .pathName) := by
  cases h with
  | prelude ho =>
    rw [(private_accesses ho).1] at hloc
    cases hloc
  | enter => cases hloc
  | inside hguard hfault =>
    cases o
    case getState | hashmapContains | hashmapGetByKey | hashmapIter | hashmapNelem =>
      obtain rfl := List.mem_singleton.1 hloc
      exact .inl rfl
    case get p fld =>
      have hd := not_deleting_of_withFile hfault
      rcases List.mem_cons.1 hloc with rfl | hloc
      · exact .inl (.inl ⟨rfl, hd⟩)
      · obtain rfl := List.mem_singleton.1 hloc
        exact .inl (.inl ⟨rfl, hd⟩)
    case set | fileReaderLock | fileReaderUnlock | fileWriterLock | fileWriterUnlock =>
      obtain rfl := List.mem_singleton.1 hloc
      exact .inl (.inl ⟨rfl, not_deleting_of_withFile hfault⟩)
    all_goals cases hloc
  | @leaving leak unlocks deletes shown turn o k hbacks hshown hgiving =>
    cases hgiving with
    | @print ds x k l hx =>
      refine .inr ⟨x.1, ⟨rfl, x.2, (hshown x hx).2⟩, ?_⟩
      simpa [Op.reads] using hloc
    | writen | logger | delete => cases hloc
    | @get us ds x fld k l hx hfld =>
      have hp : x.1 ∈ Phase.reads (.leaving leak unlocks deletes turn) ++
          Phase.deletes (.leaving leak unlocks deletes turn) := by
        rw [Phase.reads, Phase.deletes, ← List.map_append]
        exact List.mem_map_of_mem hx
      rcases List.mem_cons.1 hloc with rfl | hloc
      · exact .inl (.inr hp)
      · obtain rfl := List.mem_singleton.1 hloc
        exact .inl (.inr ⟨hfld, hp⟩)
    | @unlock us ds x =>
      obtain rfl := List.mem_singleton.1 hloc
      exact .inl (.inr (List.mem_append_left _ (by simp [Phase.reads])))

/-- It writes what the thread may write. -/
theorem Phase.Next.mayWrite (h : c.Next s (s.settled unlocks deletes) job l₀ l o)
    (hs : s.Shared reads deletes)
    (hloc : loc ∈ o.writes) : c.MayWrite reads deletes loc := by
  cases h with
  | prelude ho =>
    rw [(private_accesses ho).2] at hloc
    cases hloc
  | enter => cases hloc
  | inside hguard hfault =>
    cases o
    case setState | hashmapInsert | hashmapRemove =>
      obtain rfl := List.mem_singleton.1 hloc
      rfl
    case set p fld v =>
      obtain rfl := List.mem_singleton.1 hloc
      refine ⟨rfl, ?_, not_deleting_of_withFile hfault, fun hfld => ?_⟩
      · rintro rfl
        cases hguard
      cases fld
      case pathName => cases hguard
      case contents | size => exact hs.of_writing hguard
      all_goals exact hfld.elim
    case fileDelete p =>
      obtain rfl := List.mem_singleton.1 hloc
      exact .inl ⟨rfl, hs.of_writing hguard, not_deleting_of_withFile hfault⟩
    all_goals cases hloc
  | leaving hbacks hshown hgiving =>
    cases hgiving with
    | writen | logger | get | print | unlock => cases hloc
    | @delete us ds x =>
      obtain rfl := List.mem_singleton.1 hloc
      exact .inr (by simp [Phase.deletes])

end Phases

/-! ## Two threads -/

section Races

variable {T : Type} [Fintype T] [DecidableEq T] {cfg : ServerConfig} {tr : List (ServerEvent T)}
  {σ : ServerPool T} {turns : List JobTurn} {s₀ : Store} {ph : T → Phase} {mtx : Option T} {t u : T}
  {loc : Location} {p : FilePtr}

/-- A file that one thread will delete no other has. -/
theorem not_mem_deletes (hs : σ.shared.Shared (total Phase.reads ph) (total Phase.deletes ph))
    (htu : t ≠ u)
    (ht : p ∈ (ph t).deletes) : p ∉ (ph u).reads ++ (ph u).deletes := by
  intro hu
  have hpos : 0 < total Phase.deletes ph p := total_pos_of_mem ht
  rcases List.mem_append.1 hu with hu | hu
  · exact Nat.pos_iff_ne_zero.1 hpos (hs.not_deleting (total_pos_of_mem hu))
  · -- without the first thread, the second one still deletes it
    have hsum := total_update Phase.deletes ph t .outside p
    have hle := count_le_total Phase.deletes (update ph t .outside) u p
    rw [update_of_ne (Ne.symm htu)] at hle
    have ht : 0 < (ph t).deletes.count p := List.count_pos_iff.2 ht
    have hu : 0 < (ph u).deletes.count p := List.count_pos_iff.2 hu
    have hone := hs.one p
    rw [show Phase.deletes .outside = [] from rfl, List.count_nil] at hsum
    omega

/-- What one thread may write, no other may read. -/
theorem Serialized.not_mayRead (h : Serialized cfg tr σ turns s₀ ph mtx) (htu : t ≠ u)
    (ht : (ph t).MayWrite (total Phase.reads ph) (total Phase.deletes ph) loc) :
    ¬(ph u).MayRead (total Phase.deletes ph) loc := by
  intro hu
  have hinside : ¬((ph t).isInside = true ∧ (ph u).isInside = true) := fun hboth =>
    htu (h.owned.unique hboth.1 hboth.2)
  have hhas : ∀ {p}, p ∈ (ph u).reads ++ (ph u).deletes → ¬(total Phase.reads ph p = 0 ∧
      total Phase.deletes ph p = 0) := fun hp hzero => by
    have hpos := total_pos_of_has ph u _ hp
    omega
  cases loc with
  | files | currState => exact hinside ⟨ht, hu⟩
  | object p =>
    rcases ht with ⟨ht, hzero⟩ | ht
    · rcases hu with ⟨hu, -⟩ | hu
      · exact hinside ⟨ht, hu⟩
      · exact hhas hu hzero
    · rcases hu with ⟨-, hzero⟩ | hu
      · exact Nat.pos_iff_ne_zero.1 (total_pos_of_mem ht) hzero
      · exact not_mem_deletes h.shared htu ht hu
  | field p fld =>
    obtain ⟨ht, -, hdeletes, hreads⟩ := ht
    rcases hu with ⟨hu, -⟩ | ⟨hfld, hu⟩
    · exact hinside ⟨ht, hu⟩
    · exact hhas hu ⟨hreads hfld, hdeletes⟩

/-- Nor write. -/
theorem Serialized.not_mayWrite (h : Serialized cfg tr σ turns s₀ ph mtx) (htu : t ≠ u)
    (ht : (ph t).MayWrite (total Phase.reads ph) (total Phase.deletes ph) loc) :
    ¬(ph u).MayWrite (total Phase.reads ph) (total Phase.deletes ph) loc := by
  intro hu
  cases loc with
  | files | currState => exact h.not_mayRead htu ht hu
  | object p =>
    refine h.not_mayRead htu ht ?_
    rcases hu with ⟨hu, -, hzero⟩ | hu
    · exact .inl ⟨hu, hzero⟩
    · exact .inr (List.mem_append_right _ hu)
  | field p fld => exact h.not_mayRead htu ht (.inl ⟨hu.1, hu.2.2.1⟩)

/-- Two threads access one location, and at least one of them writes it. -/
def Op.Races (o o' : Op) : Prop :=
  ∃ loc ∈ o.writes, loc ∈ o'.reads ++ o'.writes

/-- Whatever the threads do between each other, no thread is about to write what another is about to
read or to write, but for the deletion of a file whose path the `open_file` that has created it is
about to print. -/
theorem raceFree_of_run (h : Run (serverPool cfg T) tr σ) (htu : t ≠ u) {job job' : Job}
    {l₀ l l₀' l' : Local} {o o' : Op} {k : Ans o → M (Option WorkerCode)}
    {k' : Ans o' → M (Option WorkerCode)} (ht : σ.threads t = some ⟨job, l₀, .op o k, l⟩)
    (hu : σ.threads u = some ⟨job', l₀', .op o' k', l'⟩) :
    ¬o.Races o' ∨ ∃ p, o = .fileDelete p ∧ o'.PrintsOf job' l₀' p := by
  obtain ⟨turns, s₀, ph, mtx, h⟩ := serialized_of_run h
  refine or_iff_not_imp_left.2 fun hrace => ?_
  obtain ⟨loc, hwrite, haccess⟩ := not_not.1 hrace
  have hmay := (h.next ht).mayWrite h.shared hwrite
  rcases List.mem_append.1 haccess with hread | hwrite'
  · rcases (h.next hu).mayRead hread with hread | ⟨p, hprints, rfl | rfl⟩
    · exact absurd hread (h.not_mayRead htu hmay)
    · -- only a deletion writes the object
      refine ⟨p, ?_, hprints⟩
      cases o
      case fileDelete q =>
        obtain rfl := Location.object.inj (List.mem_singleton.1 hwrite)
        rfl
      all_goals simp [Op.writes] at hwrite
    · exact absurd rfl hmay.2.1
  · exact absurd ((h.next hu).mayWrite h.shared hwrite') (h.not_mayWrite htu hmay)

/-- An example of `raceFree_of_run` : the deletion of a file, and another that is sent. -/
theorem raceFree_of_run_pending :
    ∃ tr σ job job' l₀ l l₀' l' k o' k', Run (serverPool .small Bool) tr σ ∧
    σ.threads true = some ⟨job, l₀, .op (.fileDelete 0) k, l⟩ ∧
    σ.threads false = some ⟨job', l₀', .op o' k', l'⟩ ∧ o'.prints 0 = false ∧
    ¬Op.Races (.fileDelete 0) o' := by
  obtain ⟨tr, σ, hrun, hdelete, hother⟩ :=
    (computes_serverPool .small Bool).exists_run ⟨.initial, fun _ => none⟩ rfl pending
      (fun _ σ => (σ.upcoming true).any (Op.deletes 0) = true ∧
        (σ.upcoming false).any (fun o => !o.prints 0) = true) (by decide +kernel)
  obtain ⟨job, l₀, o, k, l, ho, ht⟩ := Pool.of_upcoming hdelete
  obtain ⟨job', l₀', o', k', l', ho', hu⟩ := Pool.of_upcoming hother
  obtain rfl := Op.deletes_iff.1 ho
  have hprints : o'.prints 0 = false := by simpa using ho'
  refine ⟨tr, σ, job, job', l₀, l, l₀', l', k, o', k', hrun, ht, hu, hprints,
    (raceFree_of_run hrun Bool.false_ne_true.symm ht hu).resolve_right ?_⟩
  rintro ⟨p, he, rfl, -⟩
  cases he
  exact absurd (Op.prints_iff.2 rfl) (by rw [hprints]; exact Bool.false_ne_true)

/-- There is a race : a file is about to be deleted, and its path to be printed. -/
theorem exists_race : ∃ tr σ job job' l₀ l l₀' l' k k', Run (serverPool .small Bool) tr σ ∧
    σ.threads true = some ⟨job, l₀, .op (.fileDelete 0) k, l⟩ ∧
    σ.threads false = some ⟨job', l₀', .op (.get 0 .pathName) k', l'⟩ ∧
    Op.Races (.fileDelete 0) (.get 0 .pathName) := by
  obtain ⟨tr, σ, hrun, hdelete, hprint⟩ :=
    (computes_serverPool .small Bool).exists_run ⟨.initial, fun _ => none⟩ rfl printing
      (fun _ σ => (σ.upcoming true).any (Op.deletes 0) = true ∧
        (σ.upcoming false).any (Op.prints 0) = true) (by decide +kernel)
  obtain ⟨job, l₀, o, k, l, ho, ht⟩ := Pool.of_upcoming hdelete
  obtain ⟨job', l₀', o', k', l', ho', hu⟩ := Pool.of_upcoming hprint
  obtain rfl := Op.deletes_iff.1 ho
  obtain rfl := Op.prints_iff.1 ho'
  exact ⟨tr, σ, job, job', l₀, l, l₀', l', k, k', hrun, ht, hu, .object 0, by decide, by decide⟩

end Races

end StorageServer
