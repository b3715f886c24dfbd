import StorageServer.Progress

/-!
# What becomes of a file

Every file that is stored after a step was created by it, or is a file that was stored
before as the event has changed it (`FileServer.Step.origin`); and every file that was
stored before is still stored, as the event has changed it, or was expelled or removed
(`FileServer.Step.fate`). What a field of the files holds in every run follows from what
`Event.change` does to it.
-/

open Programs Transitions Selection

namespace StorageServer

/-! ## Changes -/

/-- A file without its readers and writers. -/
def File.data (f : File) : File :=
  { f with nReaders := 0, nWriters := 0 }

/-- The path that a request names. -/
def Request.path? : Request → Option CString
  | .openFile path _ => some path
  | .closeFile path => some path
  | .writeFile path _ _ => some path
  | .appendToFile path _ _ => some path
  | .readFile path => some path
  | .readNFiles _ => none
  | .removeFile path => some path

/-- What a request makes of the file at its path, with the memory that it is granted and the
readings of the clock that it takes. A request that is refused takes none. -/
def Request.apply (malloc : Allocation → Bool) (fdClient : ℕ) :
    Request → List Timespec → File → File
  | .openFile _ flags, [t], f => f.opened malloc fdClient flags t
  | .closeFile _, _, f => f.closed fdClient
  | .writeFile _ size buf, [t], f => f.written (toSize size) buf t
  | .appendToFile _ _ buf, [t], f => f.appended buf t
  | .readFile _, [t], f => f.used t
  | _, _, f => f

/-- What a request makes of a file. -/
def Request.change (malloc : Allocation → Bool) (fdClient : ℕ) (req : Request)
    (readings : List Timespec) (f : File) : File :=
  if req.path? = some f.pathName then req.apply malloc fdClient readings f else f

namespace Event

/-- What an event makes of a file. -/
def change : Event → File → File
  | .request _ fdClient l req readings _, f => req.change l.malloc fdClient readings f
  | .disconnect fdClient, f => f.closed fdClient
  | _, f => f

/-- The file that an event creates. A creation takes two readings of the clock. -/
def created : Event → Option File
  | .request _ fdClient l (.openFile path flags) [t₁, t₂] _ =>
    some (File.new l.malloc path flags fdClient t₁ t₂)
  | _ => none

/-- The event removes the file at a path on request. -/
def Removes (cfg : ServerConfig) (fs : FileSystem) (path : CString) : Event → Prop
  | .request _ fdClient _ (.removeFile path') _ _ =>
    path' = path ∧ fs.refusal cfg fdClient (.removeFile path) = none
  | _ => False

end Event

/-- The files that are given up. -/
def FileSystem.Outcome.gone : Except Sa FileSystem.Outcome → List File
  | .ok (.created _ y) => y.toList
  | .ok (.expelled fs) => fs
  | _ => []

/-- The objects that are given up in a reply. -/
def Reply.gone : Except Sa Reply → List FilePtr
  | .ok (.created _ y) => y.toList
  | .ok (.expelled toExpell) => toExpell
  | _ => []

section Changes

variable {cfg : ServerConfig} {malloc : Allocation → Bool} {fdClient : ℕ} {req : Request}
  {readings : List Timespec}
  {fs fs' : FileSystem} {f f' : File} {path : CString} {size : ℕ}

theorem Request.change_of_eq (h : req.path? = some f.pathName) :
    req.change malloc fdClient readings f = req.apply malloc fdClient readings f :=
  if_pos h

theorem Request.change_of_ne (h : req.path? ≠ some f.pathName) :
    req.change malloc fdClient readings f = f :=
  if_neg h

/-- A request that makes a list changes nothing without a reading. -/
theorem Request.MakesList.apply_nil (h : req.MakesList) (malloc : Allocation → Bool) (f : File) :
    req.apply malloc fdClient [] f = f := by
  cases req with
  | writeFile | readNFiles => rfl
  | _ => exact absurd h id

/-- A change to the file at a path. -/
theorem Request.change_some (h : req.path? = some path) : req.change malloc fdClient readings f =
    if f.pathName = path then req.apply malloc fdClient readings f else f := by
  rw [Request.change, h]
  simp only [Option.some.injEq, eq_comm]

@[simp] theorem Request.pathName_change (malloc : Allocation → Bool) (fdClient : ℕ) (req : Request)
    (readings : List Timespec)
    (f : File) : (req.change malloc fdClient readings f).pathName = f.pathName := by
  rw [Request.change]
  split_ifs
  · unfold Request.apply
    split <;> rfl
  · rfl

@[simp] theorem Event.pathName_change (e : Event) (f : File) :
    (e.change f).pathName = f.pathName := by
  cases e with
  | request => exact Request.pathName_change ..
  | _ => rfl

/-- Files with the same data agree on all but their readers and writers. -/
theorem File.congr_data {α : Type} (g : File → α) (hg : ∀ f : File, g f.data = g f)
    (h : f.data = f'.data) : g f = g f' := by
  rw [← hg f, h, hg f']

@[simp] theorem File.data_readLocked (f : File) : f.readLocked.data = f.data := rfl

@[simp] theorem File.data_readUnlocked (f : File) : f.readUnlocked.data = f.data := rfl

namespace FileSystem

/-- The files after a change at a path. -/
theorem mem_update_iff {g : File → File} :
    f' ∈ (fs.update path g).files ↔ ∃ f ∈ fs.files, f' = if f.pathName = path then g f else f := by
  simp only [FileSystem.update, List.mem_map, eq_comm]

/-- What is stored after room has been made was stored before. -/
theorem mem_makeRoom_snd (hf : f ∈ (fs.makeRoom cfg path size).2.files) : f ∈ fs.files := by
  rw [files_makeRoom] at hf
  exact List.mem_of_mem_filter hf

/-- What is sent to be read has one more reader. -/
theorem mem_readN_iff {k : ℕ} :
    f' ∈ (fs.files.take k).map File.readLocked ++ fs.files.drop k ↔
      (∃ f ∈ fs.files.take k, f' = f.readLocked) ∨ f' ∈ fs.files.drop k := by
  simp only [List.mem_append, List.mem_map, eq_comm]

/-- A request that is refused changes no file. -/
theorem change_of_refusal {code : Sa} (h : fs.refusal cfg fdClient req = some code)
    (hf : f ∈ fs.files) : req.change malloc fdClient [] f = f := by
  by_cases hp : req.path? = some f.pathName
  · rw [Request.change_of_eq hp]
    cases req with
    | closeFile path =>
      obtain rfl : path = f.pathName := Option.some.inj hp
      have hnone : fs.find? f.pathName = none ∧ Sa.noFile = code := by
        simpa [refusal] using h
      exact absurd rfl (find?_eq_none hnone.1 hf)
    | _ => rfl
  · rw [Request.change_of_ne hp]

/-- A file that is stored after a request was created by it, or was stored before. -/
theorem Effect.origin {h : Handler} {l : Local} {out : Except Sa Outcome}
    (he : fs.Effect cfg fdClient l.malloc req readings out fs') (hf' : f' ∈ fs'.files) :
    ((Event.request h fdClient l req readings (errorOf out)).created = some f' ∧
        fs.find? f'.pathName = none) ∨
      ∃ f ∈ fs.files, f'.data = (req.change l.malloc fdClient readings f).data := by
  have hsame : ∀ {g : File}, g ∈ fs.files →
      g.data = (req.change l.malloc fdClient readings g).data →
      ∃ f ∈ fs.files, g.data = (req.change l.malloc fdClient readings f).data :=
        fun hg h => ⟨_, hg, h⟩
  have hid : (∀ g, req.apply l.malloc fdClient readings g = g) → ∀ g,
      req.change l.malloc fdClient readings g = g := fun h g => by
    rw [Request.change, h g, ite_self]
  cases he with
  | refused href => exact Or.inr (hsame hf' (by rw [change_of_refusal href hf']))
  | noMemory hreq => exact Or.inr (hsame hf' (by rw [hid (hreq.apply_nil l.malloc)]))
  | unset | removedNothing => exact Or.inr (hsame hf' (by rw [hid fun _ => rfl]))
  | appendedNothing => exact Or.inr (hsame hf' (by rw [hid fun _ => rfl]))
  | @created path flags t₁ t₂ files' nlist' hc hf hp =>
    have hmem : f' ∈ (fs.makePlace cfg).2.files ∨
        f' = File.new l.malloc path flags fdClient t₁ t₂ := by
      rcases hp with hp | ⟨-, hp⟩
      · simpa using hp.subset hf'
      · exact Or.inl (hp.subset hf')
    rcases hmem with hmem | rfl
    · exact Or.inr (hsame (mem_makePlace hmem) (by rw [hid fun _ => rfl]))
    · exact Or.inl ⟨rfl, hf⟩
  | opened hc hf | closed hf | read hf =>
    obtain ⟨f, hmem, rfl⟩ := mem_update_iff.1 hf'
    refine Or.inr ⟨f, hmem, ?_⟩
    rw [Request.change_some rfl]
    split_ifs <;> rfl
  | written hf | appended _ hf =>
    obtain ⟨f, hmem, rfl⟩ := mem_update_iff.1 (mem_makeRoom_snd hf')
    refine Or.inr ⟨f, hmem, ?_⟩
    rw [Request.change_some rfl]
    split_ifs <;> rfl
  | readN =>
    rcases mem_readN_iff.1 hf' with ⟨f, hf, rfl⟩ | hf
    · exact Or.inr ⟨f, List.mem_of_mem_take hf, by rw [hid fun _ => rfl, File.data_readLocked]⟩
    · exact Or.inr (hsame (List.mem_of_mem_drop hf) (by rw [hid fun _ => rfl]))
  | removed hf =>
    exact Or.inr (hsame (List.mem_of_mem_filter hf') (by rw [hid fun _ => rfl]))

/-- The file that a request has changed, or one that it has not. -/
theorem mem_update_of_mem (g : File → File) (hf : f ∈ fs.files) :
    (if f.pathName = path then g f else f) ∈ (fs.update path g).files :=
  List.mem_map_of_mem hf

/-- A file grows and room is made for it : every file is still stored, or is one of the others
and is expelled. -/
theorem mem_grown {g : File → File} (hn : (fs.files.map File.pathName).Nodup)
    (hname : ∀ f, (g f).pathName = f.pathName) (hf : f ∈ fs.files) :
    (if f.pathName = path then g f else f) ∈ ((fs.update path g).makeRoom cfg path size).2.files ∨
      f ∈ ((fs.update path g).makeRoom cfg path size).1 := by
  have hnames : ((fs.update path g).files.map File.pathName).Nodup := by
    rwa [map_name_update hname]
  have hmem := (@perm_makeRoom cfg _ path size hnames).subset (mem_update_of_mem g hf)
  rcases List.mem_append.1 hmem with hgone | hstays
  · have hne := (mem_makeRoom_fst hgone).2
    split_ifs at hgone hne with hpath
    · exact absurd ((hname f).trans hpath) hne
    · exact Or.inr hgone
  · exact Or.inl hstays

/-- A file that was stored before a request is still stored, was given up, or was removed. -/
theorem Effect.fate {h : Handler} {l : Local} {out : Except Sa Outcome}
    (he : fs.Effect cfg fdClient l.malloc req readings out fs')
    (hn : (fs.files.map File.pathName).Nodup)
    (hf : f ∈ fs.files) :
    (∃ f' ∈ fs'.files, f'.data = (req.change l.malloc fdClient readings f).data) ∨
      f ∈ Outcome.gone out ∨
      (Event.request h fdClient l req readings (errorOf out)).Removes cfg fs f.pathName := by
  have hid : (∀ g, req.apply l.malloc fdClient readings g = g) → ∀ g,
      req.change l.malloc fdClient readings g = g := fun h g => by
    rw [Request.change, h g, ite_self]
  cases he with
  | @refused req code href =>
    refine Or.inl ⟨f, hf, ?_⟩
    rw [change_of_refusal href hf]
  | noMemory hreq => exact Or.inl ⟨f, hf, by rw [hid (hreq.apply_nil l.malloc)]⟩
  | unset | removedNothing | appendedNothing =>
    exact Or.inl ⟨f, hf, by rw [hid fun _ => rfl]⟩
  | @created path flags t₁ t₂ files' nlist' hc hnone hp =>
    have hkept : ∀ g ∈ (fs.makePlace cfg).2.files, g ∈ files' := fun g hg => by
      rcases hp with hp | ⟨-, hp⟩
      · exact hp.symm.subset (List.mem_append_left _ hg)
      · exact hp.symm.subset hg
    rcases makePlace_cases cfg fs with ⟨-, he, -⟩ | ⟨g, hmem, -, hg, he⟩
    · rw [he] at hkept
      exact Or.inl ⟨f, hkept f hf, by rw [hid fun _ => rfl]⟩
    · rw [he] at hkept
      by_cases hname : f.pathName = g.pathName
      · obtain rfl := List.inj_on_of_nodup_map hn hf hmem hname
        rw [hg]
        exact Or.inr (Or.inl List.mem_cons_self)
      · refine Or.inl ⟨f, hkept f (List.mem_filter.2 ⟨hf, decide_eq_true hname⟩), ?_⟩
        rw [hid fun _ => rfl]
  | @opened path flags t g hc hg | @closed path g hg | @read path t g hg =>
    refine Or.inl ⟨_, mem_update_of_mem _ hf, ?_⟩
    rw [Request.change_some rfl]
    split_ifs <;> rfl
  | @written path size buf t =>
    rcases mem_grown (g := File.written (toSize size) buf t) hn (fun _ => rfl) hf with
      hstays | hgone
    · refine Or.inl ⟨_, hstays, ?_⟩
      rw [Request.change_some rfl]
      split_ifs <;> rfl
    · exact Or.inr (Or.inl hgone)
  | @appended path size buf t =>
    rcases mem_grown (g := File.appended buf t) hn (fun _ => rfl) hf with hstays | hgone
    · refine Or.inl ⟨_, hstays, ?_⟩
      rw [Request.change_some rfl]
      split_ifs <;> rfl
    · exact Or.inr (Or.inl hgone)
  | @readN N =>
    have hsplit := hf
    rw [← List.take_append_drop (fs.countRead N) fs.files] at hsplit
    rcases List.mem_append.1 hsplit with hf' | hf'
    · refine Or.inl ⟨f.readLocked, List.mem_append_left _ (List.mem_map_of_mem hf'), ?_⟩
      rw [hid fun _ => rfl, File.data_readLocked]
    · exact Or.inl ⟨f, List.mem_append_right _ hf', by rw [hid fun _ => rfl]⟩
  | @removed path g hg href =>
    obtain ⟨-, rfl⟩ := find?_eq_some hg
    by_cases hname : f.pathName = g.pathName
    · exact Or.inr (Or.inr ⟨hname.symm, by rwa [hname]⟩)
    · refine Or.inl ⟨f, List.mem_filter.2 ⟨hf, decide_eq_true hname⟩, ?_⟩
      rw [hid fun _ => rfl]

@[simp] theorem state_release (fs : FileSystem) (out : Except Sa Outcome) (code : Sa) :
    (fs.release out code).state = fs.state := by
  unfold FileSystem.release
  split <;> rfl

/-- A reply changes the readers and writers of the files only. -/
theorem exists_release {out : Except Sa Outcome} {code : Sa} :
    ∃ g : File → File, (∀ f, (g f).data = f.data) ∧
      (fs.release out code).files = fs.files.map g := by
  unfold FileSystem.release
  split
  · refine ⟨_, fun f => ?_, rfl⟩
    split_ifs <;> rfl
  · refine ⟨_, fun f => ?_, rfl⟩
    split_ifs <;> rfl
  · exact ⟨id, fun _ => rfl, (List.map_id _).symm⟩

end FileSystem

variable {φ φ' : FileServer} {e : Event}

/-- A file that is stored after a step was created by it, or is one that was stored before
as the event has changed it. -/
theorem FileServer.Step.origin (h : FileServer.Step cfg φ e φ') (hf' : f' ∈ φ'.fs.files) :
    (e.created = some f' ∧ φ.fs.find? f'.pathName = none) ∨
      ∃ f ∈ φ.fs.files, f'.data = (e.change f).data := by
  cases h with
  | request he => exact he.origin hf'
  | unread => exact Or.inr ⟨f', hf', rfl⟩
  | @reply fs out code =>
    obtain ⟨g, hg, he⟩ := @FileSystem.exists_release fs out code
    rw [he] at hf'
    obtain ⟨f, hf, rfl⟩ := List.mem_map.1 hf'
    exact Or.inr ⟨f, hf, hg f⟩
  | disconnect =>
    obtain ⟨f, hf, rfl⟩ := List.mem_map.1 hf'
    exact Or.inr ⟨f, hf, rfl⟩

/-- A request has its effect. -/
theorem FileServer.Step.of_request {h : Handler} {l : Local} {refused : Option Sa}
    (hstep : FileServer.Step cfg φ (.request h fdClient l req readings refused) φ') :
    ∃ out, φ.fs.Effect cfg fdClient l.malloc req readings out φ'.fs ∧ φ'.replying = some out ∧
      errorOf out = refused := by
  cases hstep with
  | request he => exact ⟨_, he, rfl, rfl⟩

/-- A file is created by a request to open it with `O_CREATE`. -/
theorem FileServer.Step.of_created (h : FileServer.Step cfg φ e φ') (hf : e.created = some f) :
    ∃ h fdClient l path flags t₁ t₂,
      e = .request h fdClient l (.openFile path flags) [t₁, t₂] none ∧
        f = File.new l.malloc path flags fdClient t₁ t₂ ∧ isFlagSet flags oCreate := by
  cases h with
  | @request fs fs' h fdClient l req readings out he =>
    cases he with
    | created hc =>
      cases hf
      exact ⟨_, _, _, _, _, _, _, rfl, rfl, hc⟩
    | refused | noMemory => cases req <;> cases hf
    | _ => cases hf
  | _ => cases hf

/-- A file that was stored before a step is still stored, as the event has changed it, was
given up, or was removed on request. -/
theorem FileServer.Step.fate (h : FileServer.Step cfg φ e φ')
    (hn : (φ.fs.files.map File.pathName).Nodup) (hf : f ∈ φ.fs.files) :
    (∃ f' ∈ φ'.fs.files, f'.data = (e.change f).data) ∨
      (∃ out, φ'.replying = some out ∧ f ∈ FileSystem.Outcome.gone out) ∨
      e.Removes cfg φ.fs f.pathName := by
  cases h with
  | request he =>
    rcases he.fate hn hf with hstays | hgone | hremoved
    · exact Or.inl hstays
    · exact Or.inr (Or.inl ⟨_, rfl, hgone⟩)
    · exact Or.inr (Or.inr hremoved)
  | unread => exact Or.inl ⟨f, hf, rfl⟩
  | @reply fs out code =>
    obtain ⟨g, hg, he⟩ := @FileSystem.exists_release fs out code
    refine Or.inl ⟨g f, ?_, hg f⟩
    rw [he]
    exact List.mem_map_of_mem hf
  | disconnect => exact Or.inl ⟨_, List.mem_map_of_mem hf, rfl⟩

/-- The objects that are given up in a reply are those of the files of the outcome. -/
theorem Store.Shows.gone {s : Store} {xs : List (FilePtr × File)} {r : Except Sa Reply}
    {out : Except Sa FileSystem.Outcome} (h : s.Shows xs r out) :
    (Reply.gone r).map s.heap = (FileSystem.Outcome.gone out).map (some ∘ File.writeLocked) := by
  have howned : ∀ {ys : List (FilePtr × File)}, s.Owns xs ys →
      (ys.map Prod.fst).map s.heap = (ys.map Prod.snd).map (some ∘ File.writeLocked) :=
        fun hys => by
    rw [List.map_map, List.map_map]
    exact List.map_congr_left fun y hy => hys.heap y hy
  cases h with
  | @created p f g y hy =>
    have := howned hy
    cases y <;> exact this
  | expelled hys => exact howned hys
  | _ => rfl

end Changes

end StorageServer
