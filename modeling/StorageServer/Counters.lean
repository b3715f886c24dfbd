import StorageServer.Progress

/-!
# The counters in every run

`curr_state.files` and `curr_state.space` are kept by hand in five functions. In every run
they are the number and the total size of the stored files, within the limits, and the
files that were created are those that are stored, that were removed and that were
expelled (`counted_of_run`), as long as the map takes in every created file. It does not where
there is no memory for the node or for the larger table, nor beyond `2 ^ 29` files :
`hashmap_insert` then fails and `open_file` does not look at its result, so that the counter
goes past the files of the map.
-/

open Programs Transitions

namespace StorageServer

/-- How many files have been created, and removed on request. -/
structure Counts where
  created : ℕ
  removed : ℕ
  deriving DecidableEq

/-- The counts after a request : a file is created if `open_file` with `O_CREATE` succeeds,
and removed if `remove_file` succeeds on a path that is stored. -/
def Counts.after (c : Counts) (fs : FileSystem) : Event → Counts
  | .request _ _ _ (.openFile _ flags) _ none =>
    if isFlagSet flags oCreate then { c with created := c.created + 1 } else c
  | .request _ _ _ (.removeFile path) _ none =>
    if (fs.find? path).isSome then { c with removed := c.removed + 1 } else c
  | _ => c

@[simp] theorem Counts.after_refused (c : Counts) (fs : FileSystem) (h : Handler) (fdClient : ℕ)
    (l : Local) (req : Request) (readings : List Timespec) (code : Sa) :
    c.after fs (.request h fdClient l req readings (some code)) = c := by
  cases req <;> rfl

/-- The server with the counts of created and removed files. -/
def countedSystem (cfg : ServerConfig) : System (Server × Counts) Event :=
  (serverSystem cfg).ghost ⟨0, 0⟩ fun c σ e => c.after σ.store.fileSystem e

/-- The counters agree with the files and with the counts. -/
structure FileSystem.Counted (cfg : ServerConfig) (fs : FileSystem) (c : Counts) : Prop where
  files : fs.state.files = fs.files.length
  files_le : fs.state.files ≤ cfg.maxFiles
  created : c.created ≡ fs.state.files + c.removed + fs.state.noLRU [MOD 2 ^ 32]

/-- The map takes the file that a request creates, if it creates one, once a file has been
expelled at the limit. -/
def FileSystem.Takes (cfg : ServerConfig) (fs : FileSystem) : Event → Prop
  | .request _ _ l (.openFile path flags) _ _ =>
    isFlagSet flags oCreate → fs.find? path = none → (fs.makePlace cfg).2.HasMemory l.malloc
  | _ => True

instance (cfg : ServerConfig) (fs : FileSystem) : (e : Event) → Decidable (fs.Takes cfg e)
  | .request _ _ _ (.openFile _ _) _ _ => inferInstanceAs (Decidable (_ → _ → _))
  | .request _ _ _ (.closeFile _) _ _ | .request _ _ _ (.writeFile _ _ _) _ _
  | .request _ _ _ (.appendToFile _ _ _) _ _ | .request _ _ _ (.readFile _) _ _
  | .request _ _ _ (.readNFiles _) _ _ | .request _ _ _ (.removeFile _) _ _
  | .unread _ _ _ | .reply _ | .disconnect _ => instDecidableTrue

namespace FileSystem

variable {cfg : ServerConfig} {fdClient : ℕ} {fs fs' : FileSystem} {c : Counts}
  {path : CString} {f : File}

theorem Counted.files_lt (h : fs.Counted cfg c) : fs.state.files < 2 ^ 32 :=
  Nat.lt_of_le_of_lt h.files_le cfg.maxFiles_lt

theorem Counted.init : FileSystem.empty.Counted cfg ⟨0, 0⟩ :=
  ⟨rfl, Nat.zero_le _, Nat.ModEq.refl 0⟩

/-- There is a file to expel when the counter is at its limit. -/
theorem Counted.ne_nil (h : fs.Counted cfg c) (hmax : 1 ≤ cfg.maxFiles)
    (hfull : fs.state.files = cfg.maxFiles) : fs.files ≠ [] := fun hnil => by
  have hfiles := h.files
  rw [hnil, List.length_nil] at hfiles
  omega

theorem length_others (hn : (fs.files.map File.pathName).Nodup) (hf : f ∈ fs.files) :
    (fs.others f.pathName).length + 1 = fs.files.length := by
  rw [(perm_others hn hf).length_eq, List.length_cons]

/-- A file is expelled. -/
theorem Counted.expell (h : fs.Counted cfg c) (hs : fs.Sound cfg) (hf : f ∈ fs.files) :
    (fs.expell f).Counted cfg c := by
  have hlen := length_others hs.names hf
  have hpos : 1 ≤ fs.state.files := by
    rw [h.files]
    omega
  have hfiles := ServerState.files_expell (f := f) hpos h.files_lt
  refine ⟨?_, ?_, ?_⟩
  · have := h.files
    dsimp only [FileSystem.expell]
    omega
  · have := h.files_le
    dsimp only [FileSystem.expell]
    omega
  · have hno := @ServerState.noLRU_expell fs.state f
    have hsum : (fs.state.expell f).files + c.removed + (fs.state.noLRU + 1) =
        fs.state.files + c.removed + fs.state.noLRU := by omega
    refine h.created.trans ?_
    rw [← hsum]
    exact (Nat.ModEq.add_left _ hno.symm)

/-- Several files are expelled. -/
theorem Counted.foldl_expell {ys : List File} (h : fs.Counted cfg c)
    (hn : (fs.files.map File.pathName).Nodup) (hys : ys ⊆ fs.files)
    (hnodup : (ys.map File.pathName).Nodup) : (ys.foldl FileSystem.expell fs).Counted cfg c := by
  have hlen := (perm_foldl_expell fs hn hys hnodup).length_eq
  rw [List.length_append] at hlen
  have hfiles : (ys.foldl FileSystem.expell fs).state.files + ys.length = fs.state.files := by
    rw [state_foldl_expell]
    exact ServerState.files_foldl_expell (by rw [h.files]; omega) h.files_lt
  have hno : (ys.foldl FileSystem.expell fs).state.noLRU ≡ fs.state.noLRU +
      ys.length [MOD 2 ^ 32] := by
    rw [state_foldl_expell]
    exact ServerState.noLRU_foldl_expell
  refine ⟨?_, ?_, ?_⟩
  · have := h.files
    omega
  · have := h.files_le
    omega
  · have hsum : (ys.foldl FileSystem.expell fs).state.files + c.removed +
        (fs.state.noLRU + ys.length) =
        fs.state.files + c.removed + fs.state.noLRU := by omega
    refine h.created.trans ?_
    rw [← hsum]
    exact Nat.ModEq.add_left _ hno.symm

/-- Nothing that is counted changes. -/
theorem Counted.congr (h : fs.Counted cfg c) (hlen : fs'.files.length = fs.files.length)
    (hfiles : fs'.state.files = fs.state.files) (hno : fs'.state.noLRU = fs.state.noLRU) :
    fs'.Counted cfg c := by
  refine ⟨?_, ?_, ?_⟩
  · rw [hlen, hfiles, h.files]
  · rw [hfiles]
    exact h.files_le
  · rw [hfiles, hno]
    exact h.created

theorem Counted.update (h : fs.Counted cfg c) (g : File → File) :
    (fs.update path g).Counted cfg c :=
  h.congr (List.length_map _) rfl rfl

/-- Room is made. -/
theorem Counted.makeRoom (h : fs.Counted cfg c) (hn : (fs.files.map File.pathName).Nodup)
    (size : ℕ) : (fs.makeRoom cfg path size).2.Counted cfg c := by
  have hadd : ({ fs with state := fs.state.addSpace size } : FileSystem).Counted cfg c :=
    h.congr rfl rfl rfl
  refine (hadd.foldl_expell hn (fun f hf => ?_) (nodup_makeRoom_fst hn)).congr rfl rfl rfl
  exact (mem_makeRoom_fst hf).1

/-- A file is removed on request. -/
theorem Counted.remove (h : fs.Counted cfg c) (hs : fs.Sound cfg) (hf : f ∈ fs.files) :
    (fs.remove f).Counted cfg { c with removed := c.removed + 1 } := by
  have hexp := h.expell hs hf
  refine ⟨hexp.files, hexp.files_le, ?_⟩
  have hlen := length_others hs.names hf
  have hfiles := ServerState.files_expell (f := f) (by rw [h.files]; omega) h.files_lt
  have hsum : (fs.state.expell f).files + (c.removed + 1) + fs.state.noLRU =
      fs.state.files + c.removed + fs.state.noLRU := by omega
  refine h.created.trans ?_
  rw [← hsum]
  exact Nat.ModEq.refl _

/-- A file is created, and the map takes it in. -/
theorem Counted.create (h : fs.Counted cfg c) (hs : fs.Sound cfg) (hmax : 1 ≤ cfg.maxFiles)
    {files' : List File} {nlist : ℕ} (hp : files'.Perm ((fs.makePlace cfg).2.files ++ [f])) :
    (⟨files', (fs.makePlace cfg).2.state.addFile, nlist⟩ : FileSystem).Counted cfg
      { c with created := c.created + 1 } := by
  have hplace : (fs.makePlace cfg).2.Counted cfg c ∧
      (fs.makePlace cfg).2.state.files < cfg.maxFiles := by
    have hle := h.files_le
    have hfiles := h.files
    rcases makePlace_cases cfg fs with ⟨-, he, hnone⟩ | ⟨g, hg, hfull, -, he⟩
    · rw [he]
      have hne : fs.state.files ≠ cfg.maxFiles := fun hfull => h.ne_nil hmax hfull (hnone hfull)
      exact ⟨h, by omega⟩
    · rw [he]
      have hcounted := h.expell hs hg
      have hothers := length_others hs.names hg
      have := hcounted.files
      dsimp only [FileSystem.expell] at this ⊢
      exact ⟨hcounted, by omega⟩
  obtain ⟨hcounted, hfiles⟩ := hplace
  have hmaxlt := cfg.maxFiles_lt
  have hlength := hp.length_eq
  rw [List.length_append, List.length_singleton] at hlength
  have hadd : (fs.makePlace cfg).2.state.addFile.files = (fs.makePlace cfg).2.state.files + 1 := by
    have := @toUInt_of_range ((fs.makePlace cfg).2.state.files + 1) (by omega)
    rwa [Int.natCast_succ] at this
  refine ⟨?_, ?_, ?_⟩
  · have := hcounted.files
    dsimp only
    omega
  · dsimp only
    omega
  · have hsum : (fs.makePlace cfg).2.state.addFile.files + c.removed +
        (fs.makePlace cfg).2.state.noLRU =
        (fs.makePlace cfg).2.state.files + c.removed + (fs.makePlace cfg).2.state.noLRU + 1 := by
      omega
    dsimp only
    rw [show (fs.makePlace cfg).2.state.addFile.noLRU = (fs.makePlace cfg).2.state.noLRU from rfl,
      hsum]
    exact hcounted.created.add_right 1

/-- Every request keeps the counters right if the map takes in the file it creates. -/
theorem Effect.counted {h : Handler} {l : Local} {req : Request} {readings : List Timespec}
    {out : Except Sa Outcome} (he : fs.Effect cfg fdClient l.malloc req readings out fs')
    (hc : fs.Counted cfg c) (hs : fs.Sound cfg) (hmax : 1 ≤ cfg.maxFiles)
    (htakes : fs.Takes cfg (.request h fdClient l req readings (errorOf out))) :
    fs'.Counted cfg (c.after fs (.request h fdClient l req readings (errorOf out))) := by
  cases he with
  | @refused req code href =>
    rw [errorOf, Counts.after_refused]
    exact hc
  | noMemory hreq href ha =>
    rw [errorOf, Counts.after_refused]
    exact hc
  | created hcreate hf hp =>
    rw [errorOf, Counts.after, if_pos hcreate]
    exact hc.create hs hmax (hp.resolve_right fun hlost => hlost.1 (htakes hcreate hf))
  | opened hcreate hf href =>
    rw [errorOf, Counts.after, if_neg hcreate]
    exact hc.update _
  | closed hf => exact hc.update _
  | @written path size buf t f hf href =>
    refine (hc.update _).makeRoom ?_ _
    rw [map_name_update (g := File.written (toSize size) buf t) fun _ => rfl]
    exact hs.names
  | @appended path size buf t f hn hf href =>
    refine (hc.update _).makeRoom ?_ _
    rw [map_name_update (g := File.appended buf t) fun _ => rfl]
    exact hs.names
  | appendedNothing => exact hc
  | read hf href => exact hc.update _
  | readN =>
    refine hc.congr ?_ rfl rfl
    rw [List.length_append, List.length_map, ← List.length_append, List.take_append_drop]
  | unset => exact hc
  | removed hf href =>
    rw [errorOf, Counts.after, if_pos (by rw [hf]; rfl)]
    exact hc.remove hs (find?_eq_some hf).1
  | removedNothing hf =>
    rw [errorOf, Counts.after, if_neg (by rw [hf]; exact Bool.false_ne_true)]
    exact hc

theorem Counted.release (h : fs.Counted cfg c) (out : Except Sa Outcome) (code : Sa) :
    (fs.release out code).Counted cfg c := by
  unfold FileSystem.release
  split
  · exact h.update _
  · exact h.congr (List.length_map _) rfl rfl
  · exact h

end FileSystem

/-- Every step of a file system keeps its counters right. -/
theorem FileServer.Step.counted {cfg : ServerConfig} {φ φ' : FileServer} {e : Event} {c : Counts}
    (h : FileServer.Step cfg φ e φ') (hc : φ.fs.Counted cfg c) (hs : φ.fs.Sound cfg)
    (hmax : 1 ≤ cfg.maxFiles) (htakes : φ.fs.Takes cfg e) :
    φ'.fs.Counted cfg (c.after φ.fs e) := by
  cases h with
  | request he hreq hfit => exact he.counted hc hs hmax htakes
  | unread => exact hc
  | reply => exact hc.release _ _
  | disconnect => exact hc.congr (List.length_map _) rfl rfl

/-- What the counters of the server are to say. -/
structure Store.CountersAgree (cfg : ServerConfig) (s : Store) (c : Counts) : Prop where
  files : s.currState.files = s.files.entries.length
  files_le : s.currState.files ≤ cfg.maxFiles
  space : s.currState.space = (s.fileSystem.files.map File.size).sum
  space_le : s.currState.space ≤ cfg.maxSpace
  created : c.created ≡ s.currState.files + c.removed + s.currState.noLRU [MOD 2 ^ 32]

theorem Store.Idle.countersAgree {cfg : ServerConfig} {s : Store} {xs : List (FilePtr × File)}
    {c : Counts} (hs : s.Idle cfg xs) (hc : s.fileSystem.Counted cfg c) :
    s.CountersAgree cfg c where
  files := by
    have := hc.files
    rw [hs.fileSystem_eq] at this
    rw [hs.entries, List.length_map]
    simpa using this
  files_le := hc.files_le
  space := hs.sound.space
  space_le := hs.sound.space_le
  created := hc.created

/-- In every run that creates a file only when the map can take it in, the counter of the files
is their number. -/
theorem exists_counted {cfg : ServerConfig} {tr : List Event} {σ : Server} (hmax : 1 ≤ cfg.maxFiles)
    (h : Run ((serverSystem cfg).restrict fun σ e => σ.store.fileSystem.Takes cfg e) tr σ) :
    ∃ φ c, σ.Refines cfg φ ∧ φ.fs.Counted cfg c := by
  refine h.induction (I := fun _ σ => ∃ φ c, σ.Refines cfg φ ∧ φ.fs.Counted cfg c) ?_ ?_
  · rintro σ rfl
    exact ⟨⟨.empty, none⟩, ⟨0, 0⟩, .init, .init⟩
  · rintro - σ e σ' - ⟨φ, c, hr, hc⟩ ⟨htakes, hstep⟩
    obtain ⟨φ', hstep', hr'⟩ := Server.Step.refines hstep hr
    rw [hr.fs] at htakes
    exact ⟨φ', _, hr', hstep'.counted hc hr.sound hmax htakes⟩

/-- In every run that creates a file only when the map can take it in, the counters agree
with the files. -/
theorem counted_of_run {cfg : ServerConfig} {tr : List Event} {x : Server × Counts}
    (hmax : 1 ≤ cfg.maxFiles)
    (h : Run ((countedSystem cfg).restrict fun x e => x.1.store.fileSystem.Takes cfg e) tr x) :
    x.1.store.CountersAgree cfg x.2 := by
  have hrefines : ∃ φ, x.1.Refines cfg φ ∧ φ.fs.Counted cfg x.2 := by
    refine h.induction (I := fun _ x => ∃ φ, x.1.Refines cfg φ ∧ φ.fs.Counted cfg x.2) ?_ ?_
    · rintro ⟨σ, c⟩ ⟨hσ, hc⟩
      obtain rfl : σ = ⟨.initial, none⟩ := hσ
      obtain rfl : c = ⟨0, 0⟩ := hc
      exact ⟨⟨.empty, none⟩, .init, .init⟩
    · rintro tr ⟨σ, c⟩ e ⟨σ', c'⟩ - ⟨φ, hr, hc⟩ ⟨htakes, hstep, hcount⟩
      obtain rfl : c' = c.after σ.store.fileSystem e := hcount
      obtain ⟨φ', hstep', hr'⟩ := Server.Step.refines hstep hr
      obtain ⟨xs, hs, -⟩ := hr.idle
      rw [hr.fs] at htakes ⊢
      exact ⟨φ', hr', hstep'.counted hc (hr.fs ▸ hs.sound) hmax htakes⟩
  obtain ⟨φ, hr, hc⟩ := hrefines
  obtain ⟨xs, hs, -⟩ := hr.idle
  exact hs.countersAgree (hr.fs ▸ hc)

/-- Two files are expelled, and a fourth is created and removed on request. -/
theorem counted_of_run_expulsions : ∃ x : Server × Counts, x.2 = ⟨4, 1⟩ ∧
    x.1.store.currState = ⟨1, 2, 2, 2, 2⟩ ∧ x.1.store.CountersAgree .small x.2 := by
  have hcomputes : Computes (countedSystem .small) _ := (computes_next .small).recorded _ _
  obtain ⟨tr, x, hrun, hcounts, hstate⟩ := (hcomputes.checked
      fun x e =>
        x.1.store.fileSystem.Takes .small e).exists_run (⟨.initial, none⟩, ⟨0, 0⟩) ⟨rfl, rfl⟩
    (expulsions ++ Api.Call.actions (.openFile [100] (oCreate + oLock)) 8 (.at 6) ++
      Api.Call.actions (.removeFile [100]) 8 (.at 7))
    (fun _ x => x.2 = ⟨4, 1⟩ ∧ x.1.store.currState = ⟨1, 2, 2, 2, 2⟩) (by decide +kernel)
  exact ⟨x, hcounts, hstate, counted_of_run (by decide) hrun⟩

/-! ## The full map -/

section FullMap

variable {cfg : ServerConfig} {s : Store} {xs : List (FilePtr × File)} {path : CString}

/-- A path of `n + 1` bytes. -/
def longPath (n : ℕ) : CString :=
  List.replicate (n + 1) 97

theorem longPath_inj {m n : ℕ} (h : longPath m = longPath n) : m = n := by
  have := congrArg List.length h
  simpa [longPath] using this

theorem validPath_longPath {n : ℕ} (h : n ≤ 2 ^ 29) : Api.Call.ValidPath (longPath n) := by
  refine ⟨fun hm => ?_, ?_⟩
  · have := List.eq_of_mem_replicate hm
    cases this
  · rw [longPath, List.length_replicate, intMax]
    omega

/-- `n` files have been created, under different paths, and the map was able to take them in. -/
structure Filled (cfg : ServerConfig) (n : ℕ) (s : Store) : Prop where
  run : ∃ tr, Run (serverSystem cfg) tr ⟨s, none⟩
  files : s.currState.files = n
  space : s.currState.space = 0
  keys : (s.files.entries.map Prod.fst).Perm ((List.range n).map longPath)
  nlist : ∃ k, s.files.nlist = 2 ^ k
  half : 2 * s.files.entries.length ≤ s.files.nlist
  two : 2 ≤ s.files.nlist

theorem Filled.length {n : ℕ} (h : Filled cfg n s) : s.files.entries.length = n := by
  have := h.keys.length_eq
  simpa using this

theorem Filled.idle {n : ℕ} (h : Filled cfg n s) : ∃ xs, s.Idle cfg xs := by
  obtain ⟨tr, hrun⟩ := h.run
  obtain ⟨φ, -, hr⟩ := run_refines hrun
  obtain ⟨xs, hs, -⟩ := hr.idle
  exact ⟨xs, hs⟩

/-- One more file is created, and goes into the map or not. -/
theorem Filled.create {n : ℕ} (h : Filled cfg n s) (hn : n ≤ 2 ^ 29) (hmax : n < cfg.maxFiles) :
    ∃ tr, Run (serverSystem cfg) tr
      ⟨s.created .all (longPath n) (File.new allGranted (longPath n) oCreate 0 ⟨0, 0⟩ ⟨0, 0⟩),
        none⟩ := by
  obtain ⟨tr, hrun⟩ := h.run
  obtain ⟨xs, hs⟩ := h.idle
  have hfind : s.fileSystem.find? (longPath n) = none := by
    rw [hs.find?_eq_none]
    intro x hx hn
    have hmem : longPath n ∈ s.files.entries.map Prod.fst := by
      rw [hs.entries, List.map_map, ← hn]
      exact List.mem_map_of_mem hx
    obtain ⟨m, hm, he⟩ := List.mem_map.1 (h.keys.subset hmem)
    rw [longPath_inj he, List.mem_range] at hm
    omega
  have hbytes : s.fileSystem.contentBytes = 0 :=
    (FileSystem.contentBytes_eq hs.sound fun f hf => hs.wf_files hf).trans h.space
  have hfit : s.fileSystem.Fits (.openFile (longPath n) oCreate) := by
    rw [FileSystem.Fits, hbytes]
    change 0 + 0 < 2 ^ 63
    decide
  obtain ⟨σ, hrequest, hreply⟩ :=
    hs.create (longPath n) oCreate 0 (validPath_longPath hn) ⟨by decide, by decide⟩ rfl
      hfind (by rw [h.files]; omega) hfit
  exact ⟨_, .step (.step hrun hrequest) hreply⟩

/-- Up to `2 ^ 29` files can be created. -/
theorem exists_filled (hmax : 2 ^ 29 < cfg.maxFiles) {n : ℕ} (hn : n ≤ 2 ^ 29) :
    ∃ s, Filled cfg n s := by
  induction n with
  | zero =>
    exact ⟨.initial, ⟨[], .start rfl⟩, rfl, rfl, List.Perm.refl _, ⟨3, rfl⟩, by decide, by decide⟩
  | succ n ih =>
    obtain ⟨s, h⟩ := ih (by omega)
    obtain ⟨xs, hs⟩ := h.idle
    have hlen := h.length
    have hhalf := h.half
    have htwo := h.two
    have hfiles : s.currState.addFile.files = n + 1 := by
      have := @toUInt_of_range (s.currState.files + 1) (by rw [h.files]; omega)
      rw [Int.natCast_succ] at this
      exact this.trans (by rw [h.files])
    have htakes : s.files.Takes .all := hs.map.takes_of_lt (by omega) ⟨rfl, rfl⟩
    obtain ⟨map', hins, -, hperm, hnlist⟩ :=
      ((hs.map.hashmapInsert_cases .all (longPath n) s.fresh).resolve_left
        fun hn => hn.1 htakes).2
    have hmap : (s.created .all (longPath n)
        (File.new allGranted (longPath n) oCreate 0 ⟨0, 0⟩ ⟨0, 0⟩)).files =
        map' := congrArg Prod.snd hins
    have hlen' := hperm.length_eq
    rw [List.length_append, List.length_singleton] at hlen'
    refine ⟨_, ⟨h.create (by omega) (by omega), hfiles, h.space, ?_, ?_, ?_, ?_⟩⟩
    · rw [hmap, List.range_succ, List.map_append]
      refine (hperm.map Prod.fst).trans ?_
      rw [List.map_append]
      exact h.keys.append_right _
    · obtain ⟨k, hk⟩ := h.nlist
      rw [hmap, hnlist]
      split_ifs
      · exact ⟨k + 1, by rw [hk, pow_succ, mul_comm]⟩
      · exact ⟨k, hk⟩
    · rw [hmap, hlen', hnlist]
      split_ifs <;> omega
    · rw [hmap, hnlist]
      split_ifs <;> omega

/-- The file after the `2 ^ 29`-th is counted, but it is not in the map. -/
theorem Filled.overflow (h : Filled cfg (2 ^ 29) s) :
    (s.created .all (longPath (2 ^ 29)) (File.new allGranted (longPath (2 ^ 29)) oCreate 0 ⟨0, 0⟩
      ⟨0, 0⟩)).files.entries.length = 2 ^ 29 := by
  obtain ⟨xs, hs⟩ := h.idle
  have hlen := h.length
  have hhalf := h.half
  rcases hs.map.hashmapInsert_cases .all (longPath (2 ^ 29)) s.fresh with
    ⟨-, map', hins, -, hperm⟩ | ⟨-, map', hins, hmap, -, hnlist⟩
  · have hfiles :
        (s.created .all (longPath (2 ^ 29)) (File.new allGranted (longPath (2 ^ 29)) oCreate
        0 ⟨0, 0⟩ ⟨0, 0⟩)).files = map' := congrArg Prod.snd hins
    rw [hfiles, hperm.length_eq, hlen]
  · obtain ⟨k, hk⟩ := h.nlist
    have hlt := hs.map.lt
    have hk30 : k ≤ 30 := by
      have : 2 ^ k < 2 ^ 31 := hk ▸ hlt
      have := (Nat.pow_lt_pow_iff_right (by decide : 1 < 2)).1 this
      omega
    have hle : s.files.nlist ≤ 2 ^ 30 := hk ▸ Nat.pow_le_pow_right (by decide) hk30
    have hmaplt := hmap.lt
    rw [if_pos (by omega)] at hnlist
    omega

/-- With a limit above `2 ^ 29` files, a run can create so many that the counter goes past
the files of the map. -/
theorem not_counted : ¬∀ (cfg : ServerConfig) (tr : List Event) (x : Server × Counts),
    1 ≤ cfg.maxFiles → Run (countedSystem cfg) tr x → x.1.store.CountersAgree cfg x.2 := by
  intro hall
  let cfg : ServerConfig := ⟨0, 2 ^ 29 + 1, .LRU, by decide, by decide⟩
  obtain ⟨s, h⟩ := @exists_filled cfg (Nat.lt_succ_self _) _ (le_refl _)
  obtain ⟨tr, hrun⟩ := h.create (le_refl _) (Nat.lt_succ_self _)
  obtain ⟨c, hc⟩ := hrun.ghost (⟨0, 0⟩ : Counts) fun c σ e => c.after σ.store.fileSystem e
  have hagree := (hall cfg tr _ (by decide) hc).files
  have hcount : (s.currState.addFile).files = 2 ^ 29 + 1 := by
    have := @toUInt_of_range (s.currState.files + 1) (by rw [h.files]; decide)
    rw [Int.natCast_succ] at this
    exact this.trans (by rw [h.files])
  dsimp only at hagree
  rw [h.overflow] at hagree
  rw [show
    (s.created .all (longPath (2 ^ 29)) (File.new allGranted (longPath (2 ^ 29)) oCreate 0 ⟨0, 0⟩
    ⟨0, 0⟩)).currState = s.currState.addFile from rfl, hcount] at hagree
  omega

end FullMap

end StorageServer
