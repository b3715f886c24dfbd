import Mathlib.Order.Bounds.Basic
import StorageServer.History

/-!
# The peaks of the counters

`curr_state.max_files` is brought up to date by `open_file` and `curr_state.max_space` by
`write_file` and `append_to_file`, after the files that have to go are gone. In every run
they are the largest numbers of files and of bytes counted so far at a point where
`files_mtx` is free (`greatest_of_run`), also in runs in which files have been lost and a counter
has wrapped : it has been at its largest value then. They are within the limits as long as the map
takes in every created file (`peaks_of_run`), and not where one is lost (`not_peaks`).
-/

open Programs Transitions

namespace StorageServer

/-- The server with the counters of all points before, the last one first. -/
def observedSystem (cfg : ServerConfig) : System (Server × List ServerState) Event :=
  (serverSystem cfg).ghost [] fun seen σ _ => σ.store.currState :: seen

/-- The counters of this point and of those before. -/
def observed (x : Server × List ServerState) : Set ServerState :=
  insert x.1.store.currState { st | st ∈ x.2 }

/-- The peaks are the largest counters that have been seen. -/
structure ServerState.Peaks (seen : Set ServerState) (st : ServerState) : Prop where
  files : IsGreatest (Set.image ServerState.files seen) st.maxFiles
  space : IsGreatest (Set.image ServerState.space seen) st.maxSpace

namespace ServerState

variable {st st' : ServerState} {f : File}

/-- The counters `st'` follow `st`, and the peaks have been brought up to date. -/
structure Notes (st st' : ServerState) : Prop where
  files : st'.maxFiles = max st'.files st.maxFiles
  space : st'.maxSpace = max st'.space st.maxSpace

/-- What is not larger does not change the peaks. -/
theorem Notes.of_le (hfiles : st'.files ≤ st.maxFiles) (hspace : st'.space ≤ st.maxSpace)
    (hmaxFiles : st'.maxFiles = st.maxFiles) (hmaxSpace : st'.maxSpace = st.maxSpace) :
    st.Notes st' :=
  ⟨by rw [hmaxFiles, max_eq_right hfiles], by rw [hmaxSpace, max_eq_right hspace]⟩

theorem ite_gt_eq_max (a b : ℕ) : (if a > b then a else b) = max a b := by
  split_ifs with h
  · exact (max_eq_left (Nat.le_of_lt h)).symm
  · exact (max_eq_right (Nat.le_of_not_gt h)).symm

theorem maxFiles_addFile : st.addFile.maxFiles = max st.addFile.files st.maxFiles :=
  ite_gt_eq_max _ _

theorem maxSpace_noteSpace : st.noteSpace.maxSpace = max st.space st.maxSpace :=
  ite_gt_eq_max _ _

/-- The peaks stay as they are while files are expelled. -/
theorem peaks_foldl_expell (ys : List File) : (ys.foldl expell st).maxFiles = st.maxFiles ∧
    (ys.foldl expell st).maxSpace = st.maxSpace := by
  induction ys generalizing st with
  | nil => exact ⟨rfl, rfl⟩
  | cons y ys ih => exact ih

theorem files_foldl_expell_lt (ys : List File) (h : st.files < 2 ^ 32) :
    (ys.foldl expell st).files < 2 ^ 32 := by
  induction ys generalizing st with
  | nil => exact h
  | cons y ys ih =>
    refine ih ?_
    dsimp only [expell]
    unfold toUInt
    omega

end ServerState

namespace FileSystem

variable {cfg : ServerConfig} {fdClient : ℕ} {fs fs' : FileSystem} {path : CString} {f : File}
  {malloc : Allocation → Bool} {req : Request} {readings : List Timespec}
  {out : Except Sa Outcome}

/-- The peaks are at least the counters, and the files are at least as many as there are,
unless they have been as many as can be counted. -/
structure Tallied (fs : FileSystem) : Prop where
  files_le : fs.state.files ≤ fs.state.maxFiles
  space_le : fs.state.space ≤ fs.state.maxSpace
  maxFiles_lt : fs.state.maxFiles < 2 ^ 32
  length_le : fs.files.length ≤ fs.state.files ∨ fs.state.maxFiles = 2 ^ 32 - 1

/-- What is to be shown of a step : it brings the peaks up to date, and they stay at least
the counters. -/
def Notes (fs fs' : FileSystem) : Prop :=
  fs.state.Notes fs'.state ∧ fs'.Tallied

theorem Tallied.refl (h : fs.Tallied) : fs.Notes fs :=
  ⟨.of_le h.files_le h.space_le rfl rfl, h⟩

/-- Neither the counters nor the number of files change. -/
theorem Tallied.congr (h : fs.Tallied) (hlen : fs'.files.length = fs.files.length)
    (hstate : fs'.state = fs.state) : fs.Notes fs' := by
  rw [Notes, hstate]
  refine ⟨h.refl.1, ⟨?_, ?_, ?_, ?_⟩⟩
  · rw [hstate]
    exact h.files_le
  · rw [hstate]
    exact h.space_le
  · rw [hstate]
    exact h.maxFiles_lt
  · rw [hlen, hstate]
    exact h.length_le

theorem Tallied.files_lt (h : fs.Tallied) : fs.state.files < 2 ^ 32 :=
  Nat.lt_of_le_of_lt h.files_le h.maxFiles_lt

/-- `n` files leave. -/
theorem Tallied.leave (h : fs.Tallied) {n : ℕ} (hlen : fs'.files.length + n = fs.files.length)
    (hfiles : n ≤ fs.state.files → fs'.state.files + n = fs.state.files)
    (hfilesLt : fs'.state.files < 2 ^ 32) (hmaxFiles : fs'.state.maxFiles = fs.state.maxFiles) :
    fs'.state.files ≤ fs.state.maxFiles ∧
      (fs'.files.length ≤ fs'.state.files ∨ fs'.state.maxFiles = 2 ^ 32 - 1) := by
  have hle := h.files_le
  rcases h.length_le with hlength | hmax
  · have := hfiles (by omega)
    exact ⟨by omega, Or.inl (by omega)⟩
  · exact ⟨by omega, Or.inr (by omega)⟩

/-- One file is expelled or removed. -/
theorem Tallied.others (h : fs.Tallied) (hs : fs.Sound cfg) (hf : f ∈ fs.files)
    (hfiles : fs'.files = fs.others f.pathName)
    (hstate : fs'.state.files = (fs.state.expell f).files)
    (hspace : fs'.state.space = (fs.state.expell f).space)
    (hmaxFiles : fs'.state.maxFiles = fs.state.maxFiles)
    (hmaxSpace : fs'.state.maxSpace = fs.state.maxSpace) : fs.Notes fs' := by
  have hlen : fs'.files.length + 1 = fs.files.length := by
    rw [hfiles, (perm_others hs.names hf).length_eq, List.length_cons]
  have hlt : fs'.state.files < 2 ^ 32 := by
    rw [hstate]
    exact ServerState.files_foldl_expell_lt [f] h.files_lt
  obtain ⟨hle, hlength⟩ := h.leave hlen
    (fun hpos => by rw [hstate]; exact ServerState.files_expell hpos h.files_lt) hlt hmaxFiles
  have hbytes := ServerState.space_expell (hs.size_le hf) hs.space_lt
  have hspaceLe := h.space_le
  have hmaxLt := h.maxFiles_lt
  exact ⟨.of_le hle (by omega) hmaxFiles hmaxSpace, ⟨by omega, by omega, by omega, hlength⟩⟩

/-- Room is made. -/
theorem Tallied.makeRoom (h : fs.Tallied) (hn : (fs.files.map File.pathName).Nodup) (size : ℕ) :
    fs.Notes (fs.makeRoom cfg path size).2 := by
  have hlen := (@perm_makeRoom cfg fs path size hn).length_eq
  rw [List.length_append, Nat.add_comm] at hlen
  have hpeaks := @ServerState.peaks_foldl_expell (fs.state.addSpace size)
    (fs.makeRoom cfg path size).1
  have hstate := @state_makeRoom cfg fs path size
  have hfilesLt : (fs.makeRoom cfg path size).2.state.files < 2 ^ 32 := by
    rw [hstate]
    exact ServerState.files_foldl_expell_lt _ h.files_lt
  have hmaxFiles : (fs.makeRoom cfg path size).2.state.maxFiles = fs.state.maxFiles := by
    rw [hstate]
    exact hpeaks.1
  have hmaxSpace : (fs.makeRoom cfg path size).2.state.maxSpace =
      max (fs.makeRoom cfg path size).2.state.space fs.state.maxSpace := by
    rw [hstate, ServerState.maxSpace_noteSpace, hpeaks.2]
    rfl
  obtain ⟨hle, hlength⟩ := h.leave hlen.symm (fun hpos => by
    rw [hstate]
    exact @ServerState.files_foldl_expell (fs.state.addSpace size) _ hpos h.files_lt)
    hfilesLt hmaxFiles
  have hmaxLt := h.maxFiles_lt
  refine ⟨⟨by rw [hmaxFiles, max_eq_right hle], hmaxSpace⟩, ⟨by omega, ?_, by omega, hlength⟩⟩
  rw [hmaxSpace]
  exact le_max_left _ _

/-- A file is created, whether the map takes it in or not. -/
theorem Tallied.create (h : fs.Tallied) (hs : fs.Sound cfg) {files' : List File}
    {nlist : ℕ} (hp : files'.Perm ((fs.makePlace cfg).2.files ++ [f]) ∨
      files'.Perm (fs.makePlace cfg).2.files) :
    fs.Notes ⟨files', (fs.makePlace cfg).2.state.addFile, nlist⟩ := by
  have hplace : fs.Notes (fs.makePlace cfg).2 ∧
      (fs.makePlace cfg).2.state.maxFiles = fs.state.maxFiles := by
    rcases makePlace_cases cfg fs with ⟨-, he, -⟩ | ⟨g, hg, -, -, he⟩
    · rw [he]
      exact ⟨h.refl, rfl⟩
    · rw [he]
      exact ⟨h.others hs hg rfl rfl rfl rfl rfl, rfl⟩
  obtain ⟨⟨hnotes, htallied⟩, hmaxFiles⟩ := hplace
  have hlen : files'.length ≤ (fs.makePlace cfg).2.files.length + 1 := by
    rcases hp with hp | hp
    · rw [hp.length_eq, List.length_append, List.length_singleton]
    · rw [hp.length_eq]
      exact Nat.le_succ _
  have hadd : (fs.makePlace cfg).2.state.addFile.files =
      ((fs.makePlace cfg).2.state.files + 1) % 2 ^ 32 := by
    dsimp only [ServerState.addFile]
    unfold toUInt
    omega
  have hmax := @ServerState.maxFiles_addFile (fs.makePlace cfg).2.state
  have hlt := htallied.maxFiles_lt
  have hle := htallied.files_le
  refine ⟨⟨by rw [hmax, hmaxFiles], hnotes.space⟩, ⟨?_, htallied.space_le, ?_, ?_⟩⟩
  · dsimp only
    omega
  · dsimp only
    omega
  · have hlength := htallied.length_le
    dsimp only
    omega

/-- Every request brings the peaks up to date. -/
theorem Effect.notes (he : fs.Effect cfg fdClient malloc req readings out fs') (h : fs.Tallied)
    (hs : fs.Sound cfg) : fs.Notes fs' := by
  have hupdate : ∀ {path : CString} {g : File → File}, fs.Notes (fs.update path g) :=
    h.congr (List.length_map _) rfl
  cases he with
  | refused | noMemory | unset | appendedNothing | removedNothing => exact h.refl
  | created hc hnone hp => exact h.create hs (hp.imp_right And.right)
  | opened | closed | read => exact hupdate
  | @written path size buf t =>
    have htallied : (fs.update path (File.written (toSize size) buf t)).Tallied := hupdate.2
    refine htallied.makeRoom ?_ _
    rw [map_name_update (g := File.written (toSize size) buf t) fun _ => rfl]
    exact hs.names
  | @appended path size buf t =>
    have htallied : (fs.update path (File.appended buf t)).Tallied := hupdate.2
    refine htallied.makeRoom ?_ _
    rw [map_name_update (g := File.appended buf t) fun _ => rfl]
    exact hs.names
  | readN =>
    refine h.congr ?_ rfl
    rw [List.length_append, List.length_map, ← List.length_append, List.take_append_drop]
  | removed hf =>
    obtain ⟨hmem, rfl⟩ := find?_eq_some hf
    exact h.others hs hmem rfl rfl rfl rfl rfl

end FileSystem

/-- Every step brings the peaks up to date. -/
theorem FileServer.Step.notes {cfg : ServerConfig} {φ φ' : FileServer} {e : Event}
    (h : FileServer.Step cfg φ e φ') (ht : φ.fs.Tallied) (hs : φ.fs.Sound cfg) :
    φ.fs.Notes φ'.fs := by
  cases h with
  | request he => exact he.notes ht hs
  | unread => exact ht.refl
  | @reply fs out code =>
    obtain ⟨g, -, hfiles⟩ := @FileSystem.exists_release fs out code
    exact ht.congr (by rw [hfiles, List.length_map]) (FileSystem.state_release ..)
  | disconnect => exact ht.congr (List.length_map _) rfl

section Peaks

variable {cfg : ServerConfig} {tr : List Event} {x : Server × List ServerState}
  {st st' : ServerState} {seen : Set ServerState}

/-- One more point is seen. -/
theorem ServerState.Peaks.insert (h : st.Peaks seen) (hn : st.Notes st') :
    st'.Peaks (Insert.insert st' seen) where
  files := by
    rw [Set.image_insert_eq, hn.files]
    exact h.files.insert _
  space := by
    rw [Set.image_insert_eq, hn.space]
    exact h.space.insert _

/-- The counters that a step has seen. -/
theorem observed_step (σ' : Server) : observed (σ', x.1.store.currState :: x.2) =
    insert σ'.store.currState (observed x) := by
  ext st
  simp [observed]

theorem observed_initial : observed (⟨.initial, none⟩, []) = {FileSystem.empty.state} := by
  ext st
  simp [observed, Store.initial, FileSystem.empty]

/-- In every run the peaks are the largest counters seen where `files_mtx` was free. -/
theorem greatest_of_run (h : Run (observedSystem cfg) tr x) :
    x.1.store.currState.Peaks (observed x) := by
  have hinv : ∃ φ, x.1.Refines cfg φ ∧ φ.fs.Tallied ∧ φ.fs.state.Peaks (observed x) := by
    refine h.induction (I := fun _ x => ∃ φ, x.1.Refines cfg φ ∧ φ.fs.Tallied ∧
      φ.fs.state.Peaks (observed x)) ?_ ?_
    · rintro ⟨σ, seen⟩ ⟨hσ, hseen⟩
      obtain rfl : σ = ⟨.initial, none⟩ := hσ
      obtain rfl : seen = [] := hseen
      refine ⟨⟨.empty, none⟩, .init, ⟨le_rfl, le_rfl, Nat.two_pow_pos 32, Or.inl le_rfl⟩, ?_⟩
      rw [observed_initial]
      refine ⟨?_, ?_⟩
      · rw [Set.image_singleton]
        exact isGreatest_singleton
      · rw [Set.image_singleton]
        exact isGreatest_singleton
    · rintro - ⟨σ, seen⟩ e ⟨σ', seen'⟩ - ⟨φ, hr, ht, hp⟩ ⟨hstep, hnext⟩
      obtain rfl : seen' = σ.store.currState :: seen := hnext
      obtain ⟨φ', hstep', hr'⟩ := Server.Step.refines hstep hr
      obtain ⟨hnotes, ht'⟩ := hstep'.notes ht hr.sound
      have hstate : σ'.store.currState = φ'.fs.state := congrArg FileSystem.state hr'.fs
      refine ⟨φ', hr', ht', ?_⟩
      rw [@observed_step (σ, seen) σ', hstate]
      exact hp.insert hnotes
  obtain ⟨φ, hr, -, hp⟩ := hinv
  have hstate : x.1.store.currState = φ.fs.state := congrArg FileSystem.state hr.fs
  rwa [hstate]

/-- In every run no more bytes are counted where `files_mtx` is free than there may be. -/
theorem space_le_of_run (h : Run (observedSystem cfg) tr x) (hst : st ∈ observed x) :
    st.space ≤ cfg.maxSpace := by
  revert st
  refine h.induction (I := fun _ x => ∀ {st}, st ∈ observed x → st.space ≤ cfg.maxSpace) ?_ ?_
  · rintro ⟨σ, seen⟩ ⟨hσ, hseen⟩ st hst
    obtain rfl : σ = ⟨.initial, none⟩ := hσ
    obtain rfl : seen = [] := hseen
    rw [observed_initial] at hst
    rw [Set.mem_singleton_iff.1 hst]
    exact Nat.zero_le _
  · rintro tr ⟨σ, seen⟩ e ⟨σ', seen'⟩ hrun ih ⟨hstep, hnext⟩ st hst
    obtain rfl : seen' = σ.store.currState :: seen := hnext
    rw [@observed_step (σ, seen) σ', Set.mem_insert_iff] at hst
    rcases hst with rfl | hst
    · have hserver : Run (serverSystem cfg) (e :: tr) σ' := (Run.of_ghost hrun).step hstep
      obtain ⟨xs, hs⟩ := idle_of_run hserver
      exact hs.sound.space_le
    · exact ih hst

/-- In every run in which the map takes in every created file, no more files are counted where
`files_mtx` is free than there may be. -/
theorem files_le_of_run (hmax : 1 ≤ cfg.maxFiles)
    (h : Run ((observedSystem cfg).restrict fun x e => x.1.store.fileSystem.Takes cfg e) tr x)
    (hst : st ∈ observed x) : st.files ≤ cfg.maxFiles := by
  revert st
  refine h.induction (I := fun _ x => ∀ {st}, st ∈ observed x → st.files ≤ cfg.maxFiles) ?_ ?_
  · rintro ⟨σ, seen⟩ ⟨hσ, hseen⟩ st hst
    obtain rfl : σ = ⟨.initial, none⟩ := hσ
    obtain rfl : seen = [] := hseen
    rw [observed_initial] at hst
    rw [Set.mem_singleton_iff.1 hst]
    exact Nat.zero_le _
  · rintro tr ⟨σ, seen⟩ e ⟨σ', seen'⟩ hrun ih ⟨htakes, hstep, hnext⟩ st hst
    obtain rfl : seen' = σ.store.currState :: seen := hnext
    rw [@observed_step (σ, seen) σ', Set.mem_insert_iff] at hst
    rcases hst with rfl | hst
    · have hbefore := Run.of_ghost_restrict (S := serverSystem cfg)
        (c := fun σ e => σ.store.fileSystem.Takes cfg e) hrun
      obtain ⟨φ, c, hr, hc⟩ := exists_counted hmax (hbefore.step ⟨htakes, hstep⟩)
      rw [← hr.fs] at hc
      exact hc.files_le
    · exact ih hst

/-- In every run the peaks are the largest counters seen where `files_mtx` was free, and if the map
takes in every created file they do not exceed the limits. -/
theorem peaks_of_run
    (h : Run ((observedSystem cfg).restrict fun x e => x.1.store.fileSystem.Takes cfg e) tr x) :
    x.1.store.currState.Peaks (observed x) ∧
      (1 ≤ cfg.maxFiles → x.1.store.currState.maxFiles ≤ cfg.maxFiles) ∧
      x.1.store.currState.maxSpace ≤ cfg.maxSpace := by
  have hpeaks := greatest_of_run h.of_restrict
  refine ⟨hpeaks, fun hmax => ?_, ?_⟩
  · obtain ⟨st, hst, he⟩ := hpeaks.files.1
    rw [← he]
    exact files_le_of_run hmax h hst
  · obtain ⟨st, hst, he⟩ := hpeaks.space.1
    rw [← he]
    exact space_le_of_run h.of_restrict hst

/-- Two files have been expelled, and the peaks are above the counters. -/
theorem peaks_of_run_expulsions : ∃ x : Server × List ServerState,
    x.1.store.currState = ⟨1, 2, 2, 2, 2⟩ ∧ x.1.store.currState.Peaks (observed x) ∧
      (1 ≤ 2 → x.1.store.currState.maxFiles ≤ 2) ∧ x.1.store.currState.maxSpace ≤ 3 := by
  have hcomputes : Computes (observedSystem .small) _ := (computes_next .small).recorded _ _
  obtain ⟨tr, x, hrun, hstate⟩ := (hcomputes.checked
      fun x e => x.1.store.fileSystem.Takes .small e).exists_run (⟨.initial, none⟩, []) ⟨rfl, rfl⟩
    expulsions (fun _ x => x.1.store.currState = ⟨1, 2, 2, 2, 2⟩) (by decide +kernel)
  exact ⟨x, hstate, peaks_of_run hrun⟩

/-- Where there may be one file, one is created and lost, and then there is none to expel for the
second. -/
theorem not_peaks : ¬∀ (cfg : ServerConfig) (tr : List Event) (x : Server × List ServerState),
    Run (observedSystem cfg) tr x →
      1 ≤ cfg.maxFiles → x.1.store.currState.maxFiles ≤ cfg.maxFiles := by
  intro hall
  let cfg : ServerConfig := ⟨0, 1, .LRU, by decide, by decide⟩
  have hcomputes : Computes (observedSystem cfg) _ := (computes_next cfg).recorded _ _
  obtain ⟨tr, x, hrun, hfiles⟩ := hcomputes.exists_run (⟨.initial, none⟩, []) ⟨rfl, rfl⟩
    (creationWithout .hashmapNode ++ Api.Call.actions (.openFile [98] oCreate) 7 (.at 1))
    (fun _ x => x.1.store.currState.maxFiles = 2) (by decide +kernel)
  have hle := hall cfg tr x hrun (by decide)
  rw [hfiles] at hle
  exact absurd hle (by decide)

end Peaks

end StorageServer
