import Mathlib.Logic.Function.Basic
import StorageServer.Counters
import StorageServer.Lineage

/-!
# The order of expulsion and the times of the files

A write expels the shortest prefix of the other files, in the order of the policy, that
makes room, and a creation at the limit of the number of files expels the first of all
files. The order compares times that are kept by each handler : a request takes the readings of
the clock that it is to take, the time of creation of a file is the first reading of its
creation, and the time of its last use is the last reading of the last request that used it.
This holds as long as the map takes in every created file (`history_of_run`). A creation at the
limit expels nothing if the files before it have been lost (`not_history`).
-/

open Programs Transitions Selection

namespace StorageServer

/-- The path of the file that a request uses. -/
def Request.uses : Request → Option CString
  | .openFile path _ => some path
  | .writeFile path _ _ => some path
  | .appendToFile path size _ => if size = 0 then none else some path
  | .readFile path => some path
  | _ => none

/-- How many readings of the clock a request takes that is not refused. -/
def Request.nReadings : Request → ℕ
  | .openFile _ flags => if isFlagSet flags oCreate then 2 else 1
  | .writeFile _ _ _ => 1
  | .appendToFile _ size _ => if size = 0 then 0 else 1
  | .readFile _ => 1
  | _ => 0

/-- The file that a request makes grow, and by how much. -/
def Request.growth : Request → Option (CString × ℕ)
  | .writeFile path size _ => some (path, toSize size)
  | .appendToFile path size _ => some (path, size)
  | _ => none

/-- The readings of the clock that an event takes. -/
def Event.readings : Event → List Timespec
  | .request _ _ _ _ readings _ => readings
  | _ => []

/-- The clock does not go back. -/
def NonDecreasing (tr : List Event) : Prop :=
  (tr.reverse.flatMap Event.readings).Pairwise fun t t' => timespecCmp t t' ≤ 0

instance (tr : List Event) : Decidable (NonDecreasing tr) :=
  inferInstanceAs (Decidable (List.Pairwise _ _))

/-- When a file was created, and used last. -/
structure Times where
  created : Timespec
  used : Timespec
  deriving DecidableEq

/-- The times of the files after an event. A request that is not refused and uses a file
takes two readings of the clock if it creates the file, and else one. -/
def Event.times (h : CString → Times) : Event → CString → Times
  | .request _ _ _ req readings none =>
    match req.uses, readings with
    | some path, [t₁, t₂] => Function.update h path ⟨t₁, t₂⟩
    | some path, [t] => Function.update h path ⟨(h path).created, t⟩
    | _, _ => h
  | _ => h

/-- The server with the times of its files. -/
def timedSystem (cfg : ServerConfig) : System (Server × (CString → Times)) Event :=
  (serverSystem cfg).ghost (fun _ => ⟨⟨0, 0⟩, ⟨0, 0⟩⟩) fun h _ e => e.times h

namespace FileSystem

variable {cfg : ServerConfig} {fdClient : ℕ} {fs fs' : FileSystem} {path : CString} {f : File}
  {malloc : Allocation → Bool} {req : Request} {readings : List Timespec}

/-! ## The order of expulsion -/

/-- What a request that is not refused gives up : on growth of a file the shortest prefix of
the other files in the order of the policy that makes room, on a creation the first of all
files if their number is at its limit. The other files stay. -/
structure ExpelsInOrder (cfg : ServerConfig) (fs fs' : FileSystem) (req : Request)
    (gone : List File) : Prop where
  growth : ∀ path n, req.growth = some (path, n) →
    Shortest File.size (fs.state.space + n - cfg.maxSpace)
        (sorted cfg.policy.key (fs.others path)) gone ∧
      (fs.others path).Perm (gone ++ fs'.others path)
  creation : ∀ path flags, req = .openFile path flags → isFlagSet flags oCreate →
    (fs.state.files = cfg.maxFiles →
      ∃ g, (sorted cfg.policy.key fs.files).head? = some g ∧ gone = [g]) ∧
    (fs.state.files ≠ cfg.maxFiles → gone = []) ∧
    fs.files.Perm (gone ++ fs'.others path)

/-- A file has room in the space of the others. -/
theorem le_sum_others (hs : fs.Sound cfg) (hf : f ∈ fs.files) {n : ℕ}
    (hle : f.size + n ≤ cfg.maxSpace) : fs.state.space + n - cfg.maxSpace ≤
      ((sorted cfg.policy.key (fs.others f.pathName)).map File.size).sum := by
  have hsum := sum_size_others hs.names hf
  have hspace := hs.space
  rw [((sorted_perm (fs.others f.pathName)).map File.size).sum_eq]
  omega

/-- A file grows and room is made for it. -/
theorem Sound.expelsInOrder (hs : fs.Sound cfg) {g : File → File}
    (hname : ∀ f, (g f).pathName = f.pathName) (hf : f ∈ fs.files) {n : ℕ}
    (hle : f.size + n ≤ cfg.maxSpace) (hgrowth : req.growth = some (f.pathName, n)) :
    fs.ExpelsInOrder cfg ((fs.update f.pathName g).makeRoom cfg f.pathName n).2 req
      ((fs.update f.pathName g).makeRoom cfg f.pathName n).1 where
  growth path n' hpath := by
    cases hgrowth.symm.trans hpath
    have hnames : ((fs.update f.pathName g).files.map File.pathName).Nodup := by
      rw [map_name_update hname]
      exact hs.names
    have hothers := @others_makeRoom cfg _ f.pathName n hnames
    rw [others_update hname] at hothers
    refine ⟨?_, hothers⟩
    rw [makeRoom_fst, others_update hname]
    exact shortest_takeWeight (le_sum_others hs hf hle)
  creation path flags hreq := by
    rw [hreq] at hgrowth
    cases hgrowth

/-- The file that a creation expels. -/
theorem makePlace_fst : (fs.makePlace cfg).1 =
    if fs.state.files = cfg.maxFiles then (sorted cfg.policy.key fs.files).head? else none := by
  rw [makePlace]
  split_ifs
  · cases (sorted cfg.policy.key fs.files).head? <;> rfl
  · rfl

/-- The files other than a created one. -/
theorem others_created {st : ServerState} {files' : List File} {nlist : ℕ}
    (hnone : fs.find? f.pathName = none)
    (hp : files'.Perm ((fs.makePlace cfg).2.files ++ [f]) ∨
      files'.Perm (fs.makePlace cfg).2.files) :
    (FileSystem.others ⟨files', st, nlist⟩ f.pathName).Perm (fs.makePlace cfg).2.files := by
  have hself : (fs.makePlace cfg).2.files.filter (fun g => g.pathName ≠ f.pathName) =
      (fs.makePlace cfg).2.files :=
    List.filter_eq_self.2 fun g hg => decide_eq_true (find?_eq_none hnone (mem_makePlace hg))
  rcases hp with hp | hp
  · have hperm := hp.filter fun g => g.pathName ≠ f.pathName
    have hnew : [f].filter (fun g => g.pathName ≠ f.pathName) = [] :=
      List.filter_eq_nil_iff.2 fun g hg => by
        rw [List.mem_singleton.1 hg]
        simp
    rwa [List.filter_append, hnew, hself, List.append_nil] at hperm
  · have hperm := hp.filter fun g => g.pathName ≠ f.pathName
    rwa [hself] at hperm

/-- A request that is not refused takes its readings of the clock. -/
theorem Effect.length_readings {o : Outcome}
    (he : fs.Effect cfg fdClient malloc req readings (.ok o) fs') :
    readings.length = req.nReadings := by
  cases he with
  | created hc => exact (if_pos hc).symm
  | opened hc => exact (if_neg hc).symm
  | appended hn => exact (if_neg hn).symm
  | _ => rfl

/-- A request that is not refused expels files in the order of the policy, if there is a file to
expel at the limit. -/
theorem Effect.expelsInOrder {o : Outcome}
    (he : fs.Effect cfg fdClient malloc req readings (.ok o) fs') (hs : fs.Sound cfg)
    (hne : fs.state.files = cfg.maxFiles → fs.files ≠ []) :
    fs.ExpelsInOrder cfg fs' req (Outcome.gone (.ok o)) := by
  cases he with
  | @created path flags t₁ t₂ files' nlist' hc hnone hp =>
    refine ⟨fun _ _ hgrowth => (by cases hgrowth), fun path' flags' hreq _ => ?_⟩
    cases hreq
    have hothers :
        (FileSystem.others ⟨files', (fs.makePlace cfg).2.state.addFile, nlist'⟩ path).Perm
        (fs.makePlace cfg).2.files :=
      others_created (f := File.new malloc path flags fdClient t₁ t₂) hnone (hp.imp_right And.right)
    rw [Outcome.gone, makePlace_fst]
    rcases makePlace_cases cfg fs with ⟨-, he, hnil⟩ | ⟨g, hg, hfull, hsome, he⟩
    · have hne : fs.state.files ≠ cfg.maxFiles := fun hfull => hne hfull (hnil hfull)
      rw [he] at hothers
      rw [if_neg hne]
      exact ⟨fun hfull => absurd hfull hne, fun _ => rfl, hothers.symm⟩
    · rw [makePlace_fst, if_pos hfull] at hsome
      rw [he] at hothers
      rw [if_pos hfull, hsome]
      refine ⟨fun _ => ⟨g, rfl, rfl⟩, fun hne => absurd hfull hne, ?_⟩
      exact (perm_others hs.names hg).trans (List.Perm.cons g hothers.symm)
  | @written path size buf t f hf hpass =>
    obtain ⟨hmem, rfl⟩ := find?_eq_some hf
    obtain ⟨-, -, hzero, hle⟩ := (refusal_writeFile_eq_none hf).1 hpass
    exact hs.expelsInOrder (g := File.written (toSize size) buf t) (fun _ => rfl) hmem
      (by rw [hzero, Nat.zero_add]; exact hle) rfl
  | @appended path size buf t f hn hf hpass =>
    obtain ⟨hmem, rfl⟩ := find?_eq_some hf
    obtain ⟨-, hle⟩ := (refusal_appendToFile_eq_none hn hf).1 hpass
    exact hs.expelsInOrder (g := File.appended buf t) (fun _ => rfl) hmem hle rfl
  | @appendedNothing path buf =>
    refine ⟨fun path' n hgrowth => ?_, fun _ _ hreq => (by cases hreq)⟩
    cases hgrowth
    have hneed : fs.state.space + 0 - cfg.maxSpace = 0 := Nat.sub_eq_zero_of_le hs.space_le
    rw [hneed]
    exact ⟨shortest_nil, List.Perm.refl _⟩
  | opened hc =>
    refine ⟨fun _ _ hgrowth => (by cases hgrowth), fun path' flags' hreq hc' => ?_⟩
    cases hreq
    exact absurd hc' hc
  | closed | read | readN | removed | removedNothing =>
    exact ⟨fun _ _ hgrowth => (by cases hgrowth), fun _ _ hreq => (by cases hreq)⟩

end FileSystem

/-! ## The times of the files -/

/-- The times of a file. -/
def File.times (f : File) : Times :=
  ⟨f.creationTime, f.lastUse⟩

/-- The request that is being replied to gives up these files. -/
def Server.Gives (σ : Server) (gone : List File) : Prop :=
  ∃ l r, σ.replying = some (l, r) ∧
    (Reply.gone r).map σ.store.heap = gone.map (some ∘ File.writeLocked)

section Times

variable {cfg : ServerConfig} {f f' : File} {e : Event} {φ φ' : FileServer} {σ σ' : Server}
  {ts : CString → Times} {path : CString} {malloc : Allocation → Bool} {fdClient : ℕ}
  {req : Request} {readings : List Timespec}

/-- A request that uses a file once. -/
theorem Request.times_change {h : Handler} {l : Local} {t : Timespec} {refused : Option Sa}
    (hrefused : refused = none) (huses : req.uses = some path) (hpath : req.path? = some path)
    (happly : (req.apply l.malloc fdClient [t] f).times = ⟨f.creationTime, t⟩)
    (hf : f.times = ts f.pathName) : (req.change l.malloc fdClient [t] f).times =
      (Event.request h fdClient l req [t] refused).times ts f.pathName := by
  have htimes : (Event.request h fdClient l req [t] refused).times ts =
      Function.update ts path ⟨(ts path).created, t⟩ := by
    simp only [Event.times, hrefused, huses]
  rw [htimes, Request.change_some hpath, Function.update_apply]
  split_ifs with hname
  · rw [happly, ← hname, ← hf]
    rfl
  · exact hf

/-- A step keeps the times of the files that stay. -/
theorem FileServer.Step.times_change (h : FileServer.Step cfg φ e φ') (hmem : f ∈ φ.fs.files)
    (hf : f.times = ts f.pathName) : (e.change f).times = e.times ts f.pathName := by
  have hid : ∀ {malloc : Allocation → Bool} {fdClient : ℕ} {req : Request}
      {readings : List Timespec},
      (∀ g : File, (req.apply malloc fdClient readings g).times = g.times) →
      (req.change malloc fdClient readings f).times = f.times := fun h => by
    rw [Request.change]
    split_ifs
    · exact h f
    · rfl
  cases h with
  | @request fs fs' h fdClient l req readings out he =>
    cases he with
    | refused href =>
      change (req.change l.malloc fdClient [] f).times = ts f.pathName
      rw [FileSystem.change_of_refusal href hmem, hf]
    | noMemory hreq => exact (hid fun g => by rw [hreq.apply_nil]).trans hf
    | @created path flags t₁ t₂ files' nlist' hc hnone =>
      have hne : f.pathName ≠ path := FileSystem.find?_eq_none hnone hmem
      exact (hid fun _ => rfl).trans (hf.trans (Function.update_of_ne hne _ _).symm)
    | opened => exact Request.times_change rfl rfl rfl rfl hf
    | written => exact Request.times_change rfl rfl rfl rfl hf
    | appended hn => exact Request.times_change rfl (if_neg hn) rfl rfl hf
    | read => exact Request.times_change rfl rfl rfl rfl hf
    | _ => exact (hid fun _ => rfl).trans hf
  | _ => exact hf

/-- A step keeps the times. -/
theorem FileServer.Step.times (h : FileServer.Step cfg φ e φ')
    (ht : ∀ f ∈ φ.fs.files, f.times = ts f.pathName) (hf' : f' ∈ φ'.fs.files) :
    f'.times = e.times ts f'.pathName := by
  rcases h.origin hf' with ⟨hcreated, -⟩ | ⟨f, hf, hdata⟩
  · obtain ⟨h', fdClient, l, path, flags, t₁, t₂, rfl, rfl, hc⟩ := h.of_created hcreated
    exact (Function.update_self path (⟨t₁, t₂⟩ : Times) ts).symm
  · have hname : f'.pathName = f.pathName := by
      rw [← Event.pathName_change e f]
      exact File.congr_data File.pathName (fun _ => rfl) hdata
    rw [hname, ← h.times_change hf (ht f hf)]
    exact File.congr_data File.times (fun _ => rfl) hdata

/-- In every run the times of a stored file are those of its creation and of its last use. -/
theorem times_of_run {tr : List Event} {x : Server × (CString → Times)}
    (h : Run (timedSystem cfg) tr x) :
    ∃ φ, x.1.Refines cfg φ ∧ ∀ f ∈ φ.fs.files, f.times = x.2 f.pathName := by
  refine h.induction (I := fun _ x => ∃ φ, x.1.Refines cfg φ ∧
    ∀ f ∈ φ.fs.files, f.times = x.2 f.pathName) ?_ ?_
  · rintro ⟨σ, ts⟩ ⟨hσ, -⟩
    obtain rfl : σ = ⟨.initial, none⟩ := hσ
    exact ⟨⟨.empty, none⟩, .init, fun _ hf => absurd hf List.not_mem_nil⟩
  · rintro - ⟨σ, ts⟩ e ⟨σ', ts'⟩ - ⟨φ, hr, ht⟩ ⟨hstep, hnext⟩
    obtain rfl : ts' = e.times ts := hnext
    obtain ⟨φ', hstep', hr'⟩ := Server.Step.refines hstep hr
    exact ⟨φ', hr', fun f' hf' => hstep'.times ht hf'⟩

/-- In every run in which the map takes in every created file, the times of a stored file are
those of its creation and of its last use, and every request that is not refused takes its
readings of the clock and gives up files in the order of the policy. -/
theorem history_of_run {tr : List Event} {x : Server × (CString → Times)} (hmax : 1 ≤ cfg.maxFiles)
    (h : Run ((timedSystem cfg).restrict fun x e => x.1.store.fileSystem.Takes cfg e) tr x) :
    (∀ f ∈ x.1.store.fileSystem.files, f.times = x.2 f.pathName) ∧
      ∀ h fdClient l req readings σ',
        Server.Step cfg x.1 (.request h fdClient l req readings none) σ' →
          readings.length = req.nReadings ∧ ∃ gone, σ'.Gives gone ∧
            x.1.store.fileSystem.ExpelsInOrder cfg σ'.store.fileSystem req gone := by
  obtain ⟨φ, hr, ht⟩ := times_of_run h.of_restrict
  have htaken : Run ((serverSystem cfg).restrict fun σ e =>
      σ.store.fileSystem.Takes cfg e) tr x.1 :=
    Run.of_ghost_restrict (S := serverSystem cfg)
      (c := fun σ e => σ.store.fileSystem.Takes cfg e) h
  obtain ⟨φ', c, hr₁, hcounted⟩ := exists_counted hmax htaken
  rw [← hr₁.fs, hr.fs] at hcounted
  rw [hr.fs]
  refine ⟨ht, fun h fdClient l req readings σ' hstep => ?_⟩
  obtain ⟨φ', hstep', hr'⟩ := hstep.refines hr
  obtain ⟨out, heffect, hout, hpass⟩ := hstep'.of_request
  obtain ⟨⟨xs, -, hshown⟩, hfs, hreplying⟩ := hr'
  obtain ⟨⟨l', r⟩, hl⟩ := Option.isSome_iff_exists.1 (hreplying.trans (by rw [hout]; rfl))
  obtain ⟨o, rfl⟩ : ∃ o, out = .ok o := by
    cases out with
    | error code => cases hpass
    | ok o => exact ⟨o, rfl⟩
  refine ⟨heffect.length_readings, _, ⟨l', r, hl, (hshown l' r _ hl hout).gone⟩, ?_⟩
  rw [hfs]
  exact heffect.expelsInOrder hr.sound (hcounted.ne_nil hmax)

/-- The first of three files has been expelled, and the second has been written to. -/
theorem history_of_run_expulsion : ∃ x : Server × (CString → Times),
    x.1.store.fileSystem.files.map (fun f => (f.pathName, f.times)) =
      [([99], ⟨⟨3, 0⟩, ⟨3, 1⟩⟩), ([98], ⟨⟨2, 0⟩, ⟨4, 0⟩⟩)] ∧
    (∀ f ∈ x.1.store.fileSystem.files, f.times = x.2 f.pathName) ∧
    ∀ h fdClient l req readings σ',
      Server.Step .small x.1 (.request h fdClient l req readings none) σ' →
        readings.length = req.nReadings ∧ ∃ gone, σ'.Gives gone ∧
          x.1.store.fileSystem.ExpelsInOrder .small σ'.store.fileSystem req gone := by
  have hcomputes : Computes (timedSystem .small) _ := (computes_next .small).recorded _ _
  obtain ⟨tr, x, hrun, hfiles⟩ := (hcomputes.checked
      fun x e => x.1.store.fileSystem.Takes .small e).exists_run
    (⟨.initial, none⟩, fun _ => ⟨⟨0, 0⟩, ⟨0, 0⟩⟩) ⟨rfl, rfl⟩ (expulsions.take 10)
    (fun _ x => x.1.store.fileSystem.files.map (fun f => (f.pathName, f.times)) =
      [([99], ⟨⟨3, 0⟩, ⟨3, 1⟩⟩), ([98], ⟨⟨2, 0⟩, ⟨4, 0⟩⟩)]) (by decide +kernel)
  exact ⟨x, hfiles, history_of_run (by decide) hrun⟩

/-- Without memory for the node of its entry a created file is lost, and then there is none to
expel at the limit. -/
theorem not_history : ¬∀ (cfg : ServerConfig) (tr : List Event) (x : Server × (CString → Times)),
    1 ≤ cfg.maxFiles → Run (timedSystem cfg) tr x →
      ∀ h fdClient l req readings σ',
        Server.Step cfg x.1 (.request h fdClient l req readings none) σ' →
          NonDecreasing (.request h fdClient l req readings none :: tr) →
          ∃ gone, σ'.Gives gone ∧
            x.1.store.fileSystem.ExpelsInOrder cfg σ'.store.fileSystem req gone := by
  intro hall
  let cfg : ServerConfig := ⟨0, 1, .LRU, by decide, by decide⟩
  have hcomputes : Computes (timedSystem cfg) _ := (computes_next cfg).recorded _ _
  obtain ⟨tr, x, hrun, hnil, hfull, hnext⟩ := hcomputes.exists_run
    (⟨.initial, none⟩, fun _ => ⟨⟨0, 0⟩, ⟨0, 0⟩⟩) ⟨rfl, rfl⟩ (creationWithout .hashmapNode)
    (fun tr x => x.1.store.fileSystem.files.length = 0 ∧ x.1.store.currState.files = 1 ∧
      ((x.1.next cfg (.call .openFile 7 ((Local.at 1).left
        (Api.Call.openFile [98] oCreate).arguments))).any fun r =>
          r.1.accepted = some (.openFile [98] oCreate) ∧ NonDecreasing (r.1 :: tr)) = true)
    (by decide +kernel)
  obtain ⟨⟨e, σ'⟩, hnext, he⟩ := (Option.any_eq_true _ _).1 hnext
  obtain ⟨haccepted, hclock⟩ := of_decide_eq_true he
  obtain ⟨h, fdClient, l, readings, rfl⟩ := Event.eq_of_accepted haccepted
  obtain ⟨gone, -, hexpels⟩ := hall cfg tr x (by decide) hrun h fdClient l _ readings σ'
    (computes_next cfg _ _ _ _ hnext) hclock
  obtain ⟨g, hhead, -⟩ := (hexpels.creation [98] oCreate rfl rfl).1 hfull
  have hmem := mem_sorted.1 (List.mem_of_mem_head? hhead)
  rw [List.length_eq_zero_iff.1 hnil] at hmem
  cases hmem

end Times

end StorageServer
