import StorageServer.Codec

/-!
# Requests that succeed, as steps of the server

The section of a call that returns makes a step (`Store.Idle.request`), and what it has done
is known from `of_storeSection`. The steps of the calls that create, write and read a file.
-/

open Programs Transitions Selection

namespace StorageServer

section Progress

variable {cfg : ServerConfig} {fdClient : ℕ} {l : Local} {s : Store} {xs : List (FilePtr × File)}
  {path : CString} {flags : ℤ}

/-- A call whose section returns makes a step of the server. -/
theorem Store.Idle.request (hs : s.Idle cfg xs) (call : Api.Call) (hv : call.Valid)
    (hmalloc : ∀ n, l.malloc n = true) (hfit : s.fileSystem.Fits call.request)
    (hends : Prog.twp exec (storeSection cfg fdClient call.request) (fun _ _ => True)
      (l.left [], s)) :
    ∃ r l' s' xs' readings out,
      Served cfg fdClient call.request (l.left []) s r l' s' xs' readings out ∧
      Server.Step cfg ⟨s, none⟩ (.request call.handler fdClient (l.left call.arguments) call.request
        readings (errorOf out)) ⟨s', some (l', r)⟩ := by
  have hread := readRequest_left call hv l hmalloc s
  obtain ⟨-, -, -, hreq⟩ := of_readRequest hread
  obtain ⟨r, ⟨l', s'⟩, hserve, -⟩ := hends
  obtain ⟨xs', readings, out, hserved⟩ := of_storeSection hs (hreq _ rfl) hfit hserve
  refine ⟨r, l', s', xs', readings, out, hserved, ?_⟩
  rw [← errorOf_of_shows hserved.shown]
  exact .request hread hserve hserved.clock hfit

/-- The request to create a file, with the allocations that are granted to it. -/
def Event.creating (malloc : Allocation → Bool) (path : CString) (flags : ℤ) (fdClient : ℕ) :
    Event :=
  .request .openFile fdClient
    { Local.ofBytes (Api.Call.openFile path flags).arguments [⟨0, 0⟩, ⟨0, 0⟩] [] with
      malloc := malloc }
    (.openFile path flags) [⟨0, 0⟩, ⟨0, 0⟩] none

/-- The request to create a file, with every allocation granted. -/
abbrev Event.creation (path : CString) (flags : ℤ) (fdClient : ℕ) : Event :=
  .creating allGranted path flags fdClient

/-- What a creation cannot do without, and the process goes on. -/
structure CreationGranted (malloc : Allocation → Bool) : Prop where
  safe : ∀ n, malloc (.safe n) = true
  lists : malloc .hashtbl = true → malloc .hashtblLists = true

theorem creationGranted_all : CreationGranted allGranted :=
  ⟨fun _ => rfl, fun _ => rfl⟩

/-- A creation while the number of files is below its limit. -/
theorem Store.Idle.creating (hs : s.Idle cfg xs) {malloc : Allocation → Bool}
    (hmalloc : CreationGranted malloc) (path : CString) (flags : ℤ) (fdClient : ℕ)
    (hpath : Api.Call.ValidPath path)
    (hflags : Api.Call.ValidInt flags) (hcreate : isFlagSet flags oCreate = true)
    (hfind : s.fileSystem.find? path = none) (hfiles : s.currState.files ≠ cfg.maxFiles)
    (hfit : s.fileSystem.Fits (.openFile path flags)) :
    ∃ σ, Server.Step cfg ⟨s, none⟩ (.creating malloc path flags fdClient) σ ∧
      Server.Step cfg σ (.reply .success)
        ⟨s.created (filesGranted malloc) path (File.new malloc path flags fdClient ⟨0, 0⟩ ⟨0, 0⟩),
          none⟩ := by
  let call : Api.Call := .openFile path flags
  let l₀ : Local := { Local.ofBytes [] [⟨0, 0⟩, ⟨0, 0⟩] [] with malloc := malloc }
  let f := File.new malloc path flags fdClient ⟨0, 0⟩ ⟨0, 0⟩
  have hread : Prog.run exec (readRequest call.handler) (l₀.left call.arguments, s) =
      .ok (.ok call.request, (l₀.left [], s)) :=
    readOpen_left ⟨hpath, hflags⟩ l₀ hmalloc.safe s
  have hvictim : victim cfg s xs = none := if_neg hfiles
  obtain ⟨r, ⟨l, s'⟩, hserve, ⟨rfl, rfl⟩, log, rfl⟩ := ends_of_safe
    (w := (l₀, s)) (Q := fun r w => (r = .ok (s.fresh, none) ∧
      w.2 = s.created (filesGranted malloc) path f) ∧
      ∃ log, w.1 = { l₀ with clock := [], log := log })
    (safe_openFileCreate hs (fun h => by simp [hfind] at h)
      fun _ t₁ t₂ rest hclock s' hs' => by
        rw [hvictim] at hs' ⊢
        have hclock : [⟨0, 0⟩, ⟨0, 0⟩] = t₁ :: t₂ :: rest := hclock
        cases hclock
        exact ⟨⟨rfl, hs'⟩, _, rfl⟩)
    (ends_openFileCreate hs hfind hfiles (hmalloc.safe _) hmalloc.lists rfl)
  let s' := s.created (filesGranted malloc) path f
  let l' : Local := { l₀ with clock := [], log := log }
  have hrequest : Server.Step cfg ⟨s, none⟩ (.creating malloc path flags fdClient)
      ⟨s', some (l', .ok (.created s.fresh none))⟩ := by
    refine .request hread (r := .ok (.created s.fresh none)) ?_ rfl hfit
    rw [storeSection, if_pos hcreate, Prog.run_bind]
    exact congrArg (Res.bind · _) hserve
  have hreply : Server.Step cfg ⟨s', some (l', .ok (.created s.fresh none))⟩ (.reply .success)
      ⟨s', none⟩ := by
    have hheap : s'.heap s.fresh = some f := Store.heap_alloc_self s f rfl
    obtain ⟨code, ⟨l'', s''⟩, hrun, rfl, rfl⟩ : Prog.twp exec (finish (.ok (.created s.fresh none)))
        (fun code w => code = .success ∧ w.2 = s') (l', s') := by
      simp [finish, replyCreated, hheap]
    exact .reply hrun
  exact ⟨_, hrequest, hreply⟩

/-- A creation that is granted every allocation. -/
theorem Store.Idle.create (hs : s.Idle cfg xs) (path : CString) (flags : ℤ) (fdClient : ℕ)
    (hpath : Api.Call.ValidPath path)
    (hflags : Api.Call.ValidInt flags) (hcreate : isFlagSet flags oCreate = true)
    (hfind : s.fileSystem.find? path = none) (hfiles : s.currState.files ≠ cfg.maxFiles)
    (hfit : s.fileSystem.Fits (.openFile path flags)) :
    ∃ σ, Server.Step cfg ⟨s, none⟩ (.creation path flags fdClient) σ ∧
      Server.Step cfg σ (.reply .success)
        ⟨s.created .all path (File.new allGranted path flags fdClient ⟨0, 0⟩ ⟨0, 0⟩), none⟩ :=
  hs.creating creationGranted_all path flags fdClient hpath hflags hcreate hfind hfiles hfit

/-- What the map holds after a creation. -/
theorem Store.Idle.holds_created (hs : s.Idle cfg xs) {f : File} (hwf : f.WF)
    (hfind : s.fileSystem.find? f.pathName = none) (granted : Granted) :
    ∃ xs', (s.created granted f.pathName f).Holds xs' ∧
      (s.files.Takes granted ∧ xs'.Perm (xs ++ [(s.fresh, f)]) ∨
        ¬s.files.Takes granted ∧ xs'.Perm xs) := by
  have hout : s.fresh ∉ xs.map Prod.fst := fun hm => by
    obtain ⟨x, hx, he⟩ := List.mem_map.1 hm
    exact absurd (hs.lt_fresh hx) (by rw [he]; exact lt_irrefl _)
  obtain ⟨xs', hholds, hperm⟩ := (hs.toHolds.alloc f).insert (p := s.fresh)
    (Store.heap_alloc_self s f rfl) hwf (hs.find?_eq_none.1 hfind) hout granted
  exact ⟨xs', hholds.setState _, hperm⟩

/-- A created file is found, if the map takes it in. -/
theorem Store.Idle.find?_created_of_takes (hs : s.Idle cfg xs) {f : File} (hwf : f.WF)
    (hfind : s.fileSystem.find? f.pathName = none) (htakes : s.files.Takes .all) :
    (s.created .all f.pathName f).fileSystem.find? f.pathName = some f := by
  obtain ⟨xs', hholds, hperm⟩ := hs.holds_created hwf hfind .all
  have hperm := (hperm.resolve_right fun h => absurd htakes h.1).2
  have hmem : (s.fresh, f) ∈ xs' := hperm.symm.subset (by simp)
  exact hholds.find?_eq_some hmem

/-- Otherwise there is still no file at its path. -/
theorem Store.Idle.find?_created_of_not_takes (hs : s.Idle cfg xs) {f : File} (hwf : f.WF)
    (hfind : s.fileSystem.find? f.pathName = none) {granted : Granted}
    (htakes : ¬s.files.Takes granted) :
    (s.created granted f.pathName f).fileSystem.find? f.pathName = none := by
  obtain ⟨xs', hholds, hperm⟩ := hs.holds_created hwf hfind granted
  have hperm := (hperm.resolve_left fun h => htakes h.1).2
  refine hholds.find?_eq_none.2 fun y hy => ?_
  exact hs.find?_eq_none.1 hfind y (hperm.subset hy)

/-- A creation adds no other path. -/
theorem Store.Idle.find?_created_of_ne (hs : s.Idle cfg xs) {f : File} (hwf : f.WF)
    (hfind : s.fileSystem.find? f.pathName = none) {path : CString} (hne : path ≠ f.pathName)
    (hnone : s.fileSystem.find? path = none) (granted : Granted) :
    (s.created granted f.pathName f).fileSystem.find? path = none := by
  obtain ⟨xs', hholds, hperm⟩ := hs.holds_created hwf hfind granted
  refine hholds.find?_eq_none.2 fun y hy => ?_
  rcases hperm with ⟨-, hperm⟩ | ⟨-, hperm⟩
  · rcases List.mem_append.1 (hperm.subset hy) with hy | hy
    · exact hs.find?_eq_none.1 hnone y hy
    · rw [List.mem_singleton.1 hy]
      exact hne.symm
  · exact hs.find?_eq_none.1 hnone y (hperm.subset hy)

theorem Store.Idle.find?_created (hs : s.Idle cfg xs) {f : File} (hwf : f.WF)
    (hfind : s.fileSystem.find? f.pathName = none) (hlen : xs.length < 2 ^ 29) :
    (s.created .all f.pathName f).fileSystem.find? f.pathName = some f :=
  hs.find?_created_of_takes hwf hfind (hs.map.takes_of_lt (by simpa [hs.entries]) ⟨rfl, rfl⟩)

/-- A run that creates one file. -/
theorem exists_created (cfg : ServerConfig) (path : CString) (flags : ℤ) (fdClient : ℕ)
    (hpath : Api.Call.ValidPath path) (hflags : Api.Call.ValidInt flags)
    (hcreate : isFlagSet flags oCreate = true) (hmax : 0 ≠ cfg.maxFiles) :
    ∃ tr s xs, Run (serverSystem cfg) tr ⟨s, none⟩ ∧ s.Idle cfg xs ∧ s.currState.space = 0 ∧
      s.fileSystem.contentBytes = 0 ∧
      s.fileSystem.find? path = some (File.new allGranted path flags fdClient ⟨0, 0⟩ ⟨0, 0⟩) := by
  have hfit : Store.initial.fileSystem.Fits (.openFile path flags) := by
    change 0 + 0 < 2 ^ 63
    decide
  let f := File.new allGranted path flags fdClient ⟨0, 0⟩ ⟨0, 0⟩
  let s := Store.initial.created .all path f
  obtain ⟨σ, hrequest, hreply⟩ := (@idle_initial cfg).create path flags fdClient hpath hflags
    hcreate rfl hmax hfit
  have hstart : Run (serverSystem cfg) [] ⟨.initial, none⟩ := .start rfl
  have hrun : Run (serverSystem cfg) _ ⟨s, none⟩ := .step (.step hstart hrequest) hreply
  have hfind : s.fileSystem.find? path = some f :=
    (@idle_initial cfg).find?_created (f := f) (File.WF.new ..) rfl (by decide)
  obtain ⟨xs, hs⟩ := idle_of_run hrun
  exact ⟨_, s, xs, hrun, hs, rfl, FileSystem.contentBytes_eq hs.sound fun f hf => hs.wf_files hf,
    hfind⟩

/-- The request to open a file that exists. -/
def Event.opening (path : CString) (flags : ℤ) (fdClient : ℕ) : Event :=
  .request .openFile fdClient (.ofBytes (Api.Call.openFile path flags).arguments [⟨0, 0⟩] [])
    (.openFile path flags) [⟨0, 0⟩] none

/-- A client opens a file that exists, without locking it. -/
theorem Store.Idle.open (hs : s.Idle cfg xs) (flags : ℤ) (fdClient : ℕ)
    (hpath : Api.Call.ValidPath path) (hflags : Api.Call.ValidInt flags) {f : File}
    (hcreate : isFlagSet flags oCreate = false) (hlock : isFlagSet flags oLock = false)
    (hfind : s.fileSystem.find? path = some f) (hfree : f.nReaders = 0 ∧ f.nWriters = 0)
    (hfit : s.fileSystem.Fits (.openFile path flags)) :
    ∃ l' s',
      s'.fileSystem = s.fileSystem.update path (File.opened allGranted fdClient flags ⟨0, 0⟩) ∧
      Server.Step cfg ⟨s, none⟩ (.opening path flags fdClient) ⟨s', some (l', .ok .done)⟩ ∧
      Server.Step cfg ⟨s', some (l', .ok .done)⟩ (.reply .success) ⟨s', none⟩ := by
  obtain ⟨rfl, p, hx⟩ := hs.exists_of_find? hfind
  let call : Api.Call := .openFile f.pathName flags
  have hstore : Prog.twp exec (openFileExisting fdClient f.pathName flags) (fun _ _ => True)
      (.ofBytes [] [⟨0, 0⟩] [], s) :=
    ends_openFileExisting hs hx hfree hlock rfl
  have hends : Prog.twp exec (storeSection cfg fdClient call.request) (fun _ _ => True)
      (.ofBytes [] [⟨0, 0⟩] [], s) := by
    rw [Api.Call.request, storeSection, if_neg (by simp [hcreate])]
    exact (Prog.twp_bind ..).2 (Prog.twp_mono hstore fun _ _ _ => (Prog.twp_pure _).2 trivial)
  obtain ⟨r, l', s', xs', readings, out, hserved, hstep⟩ :=
    hs.request (l := .ofBytes [] [⟨0, 0⟩] []) call ⟨hpath, hflags⟩ (fun _ => rfl) hfit hends
  have hrefusal : s.fileSystem.refusal cfg fdClient (.openFile f.pathName flags) = none := by
    rw [FileSystem.refusal, if_neg (by simp [hcreate]), hfind]
    simp [hlock]
  have hclock : [⟨0, 0⟩] = readings ++ l'.clock := hserved.clock
  have hshown := hserved.shown
  have heffect : s.fileSystem.Effect cfg fdClient allGranted (.openFile f.pathName flags)
      readings out s'.fileSystem := hserved.effect
  generalize hfs : s'.fileSystem = fs' at heffect
  cases heffect with
  | refused h =>
    rw [hrefusal] at h
    cases h
  | noMemory hreq h ha => cases ha
  | created hc => simp [hcreate] at hc
  | opened =>
    obtain ⟨rfl, -⟩ := List.cons.inj hclock
    cases hshown
    exact ⟨l', s', hfs, hstep, .reply rfl⟩

/-- The request to append to a file. -/
def Event.appending (path : CString) (buf : List UInt8) (fdClient : ℕ) : Event :=
  .request .appendToFile fdClient
    (.ofBytes (Api.Call.appendToFile path buf fun _ => 0).arguments [⟨0, 0⟩] [])
    (.appendToFile path buf.length buf) [⟨0, 0⟩] none

/-- A client appends to a file that it has opened, while there is room. -/
theorem Store.Idle.append (hs : s.Idle cfg xs) (buf : List UInt8) (fdClient : ℕ)
    (hpath : Api.Call.ValidPath path) {f : File} (hpos : 1 ≤ buf.length)
    (hlen : buf.length ≤ intMax) (hfind : s.fileSystem.find? path = some f)
    (hfree : f.nReaders = 0 ∧ f.nWriters = 0)
    (hopen : f.fdOpen.contains fdClient = true)
    (hroom : s.currState.space + buf.length ≤ cfg.maxSpace)
    (hfile : f.size + buf.length ≤ cfg.maxSpace)
    (hfit : s.fileSystem.Fits (.appendToFile path buf.length buf)) :
    ∃ l' s' f', s'.fileSystem.find? path = some f' ∧ f'.contents = f.contents ++ buf ∧
      Server.Step cfg ⟨s, none⟩ (.appending path buf fdClient)
        ⟨s', some (l', .ok (.expelled []))⟩ := by
  obtain ⟨rfl, p, hx⟩ := hs.exists_of_find? hfind
  let call : Api.Call := .appendToFile f.pathName buf fun _ => 0
  have hstore : Prog.twp exec (appendToFileStore cfg fdClient f.pathName buf.length buf)
      (fun _ _ => True) (.ofBytes [] [⟨0, 0⟩] [], s) :=
    ends_appendToFileStore hs hx hfree hopen hroom rfl rfl
  have hends : Prog.twp exec (storeSection cfg fdClient call.request) (fun _ _ => True)
      (.ofBytes [] [⟨0, 0⟩] [], s) := by
    rw [Api.Call.request, storeSection, if_pos (Nat.lt_of_succ_le hpos)]
    exact (Prog.twp_bind ..).2 (Prog.twp_mono hstore fun _ _ _ => (Prog.twp_pure _).2 trivial)
  obtain ⟨r, l', s', xs', readings, out, hserved, hstep⟩ :=
    hs.request (l := .ofBytes [] [⟨0, 0⟩] []) call ⟨hpath, hlen⟩ (fun _ => rfl) hfit hends
  have hne : buf.length ≠ 0 := Nat.ne_of_gt hpos
  have hrefusal : s.fileSystem.refusal cfg fdClient
      (.appendToFile f.pathName buf.length buf) = none :=
    (FileSystem.refusal_appendToFile_eq_none hne hfind).2 ⟨hopen, hfile⟩
  have hclock : [⟨0, 0⟩] = readings ++ l'.clock := hserved.clock
  have heffect : s.fileSystem.Effect cfg fdClient allGranted
      (.appendToFile f.pathName buf.length buf)
      readings out s'.fileSystem := hserved.effect
  generalize hfs : s'.fileSystem = fs' at heffect
  generalize buf.length = n at heffect hne hrefusal hroom
  cases heffect with
  | refused h =>
    rw [hrefusal] at h
    cases h
  | noMemory hreq h ha => cases ha
  | @appended path size buf t =>
    obtain ⟨rfl, -⟩ := List.cons.inj hclock
    have hnames : ((s.fileSystem.update f.pathName (File.appended buf ⟨0, 0⟩)).files.map
        File.pathName).Nodup := by
      rw [FileSystem.map_name_update (g := File.appended buf ⟨0, 0⟩) fun _ => rfl]
      exact hs.sound.names
    have hmem := FileSystem.mem_update (g := File.appended buf ⟨0, 0⟩)
      (FileSystem.find?_eq_some hfind).1
    have hnone : ((s.fileSystem.update f.pathName (File.appended buf ⟨0, 0⟩)).makeRoom cfg
        f.pathName n).1 = [] := by
      have hneed : s.currState.space + n - cfg.maxSpace = 0 := Nat.sub_eq_zero_of_le hroom
      rw [FileSystem.makeRoom_fst]
      exact (congrArg (takeWeight File.size · _) hneed).trans (takeWeight_zero _)
    have hr : r = .ok (.expelled []) := by
      have hshown := hserved.shown
      rw [hnone] at hshown
      generalize ho : FileSystem.Outcome.expelled [] = o at hshown
      cases hshown with
      | @expelled ys =>
        obtain rfl : ys = [] := List.map_eq_nil_iff.1 (by injection ho with h; exact h.symm)
        rfl
      | _ => cases ho
    refine ⟨l', s', f.appended buf ⟨0, 0⟩, ?_, rfl, hr ▸ hstep⟩
    rw [hfs]
    exact FileSystem.find?_makeRoom hnames hmem
  | appendedNothing => exact absurd rfl hne

/-- A read of a file without a writer by a client that has opened it, whatever comes of its
sends. -/
theorem Store.Idle.read (hs : s.Idle cfg xs) (fdClient : ℕ) (hpath : Api.Call.ValidPath path)
    (hmalloc : ∀ n, l.malloc n = true) {f : File} {t : Timespec} {rest : List Timespec}
    (hclock : l.clock = t :: rest) (hfind : s.fileSystem.find? path = some f)
    (hfree : f.nWriters = 0) (hopen : f.fdOpen.contains fdClient = true)
    (hfit : s.fileSystem.Fits (.readFile path)) :
    ∃ l' p s', l'.sends = l.sends ∧ s'.heap p = some (f.used t).readLocked ∧
      Server.Step cfg ⟨s, none⟩ (.request .readFile fdClient
        (l.left (Api.Call.readFile path).arguments) (.readFile path) [t] none)
        ⟨s', some (l', .ok (.reading p))⟩ := by
  obtain ⟨rfl, p, hx⟩ := hs.exists_of_find? hfind
  let call : Api.Call := .readFile f.pathName
  have hstore : Prog.twp exec (readFileStore fdClient f.pathName) (fun _ _ => True)
      (l.left [], s) :=
    ends_readFileStore hs hx hfree hclock
  have hends : Prog.twp exec (storeSection cfg fdClient call.request) (fun _ _ => True)
      (l.left [], s) :=
    (Prog.twp_bind ..).2 (Prog.twp_mono hstore fun _ _ _ => (Prog.twp_pure _).2 trivial)
  obtain ⟨r, l', s', xs', readings, out, hserved, hstep⟩ := hs.request call hpath hmalloc
    hfit hends
  have hcons : t :: rest = readings ++ l'.clock := hclock.symm.trans hserved.clock
  have hsends : l'.sends = l.sends := by
    rw [hserved.frame]
    rfl
  have hshown := hserved.shown
  have heffect : s.fileSystem.Effect cfg fdClient l.malloc (.readFile f.pathName) readings out
      s'.fileSystem :=
    hserved.effect
  generalize s'.fileSystem = fs' at heffect
  cases heffect with
  | refused h =>
    rw [(FileSystem.refusal_readFile_eq_none hfind).2 hopen] at h
    cases h
  | noMemory hreq h ha => exact absurd ha (by simp [hmalloc])
  | @read _ t' f' hf' =>
    obtain ⟨rfl, -⟩ := List.cons.inj hcons
    obtain rfl := Option.some.inj (hfind.symm.trans hf')
    generalize hg : (f.used t).readLocked = g at hshown
    cases hshown with
    | reading hx' => exact ⟨l', _, s', hsends, hserved.idle.heap _ hx', hstep⟩

/-- A `read_file` whose first send fails returns `SA_ERROR`. -/
theorem reply_reading_failed {p : FilePtr} {r : SendRes} {rest : List SendRes}
    (hsends : l.sends = r :: rest) (hr : r.code = -1) :
    Server.Step cfg ⟨s, some (l, .ok (.reading p))⟩ (.reply .error) ⟨s, none⟩ := by
  have hne : intBytes Sa.success.code ≠ [] := List.ne_nil_of_length_pos (by simp)
  obtain ⟨_, ⟨l', s'⟩, hrun, rfl, rfl⟩ : Prog.twp exec (finish (.ok (.reading p)))
      (fun code w => code = .error ∧ w.2 = s) (l, s) := by
    simp [finish, replyReading, Local.writen, hne, hsends, hr]
  exact .reply hrun

end Progress

end StorageServer
