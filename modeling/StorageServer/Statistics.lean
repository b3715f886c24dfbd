import StorageServer.Lib.Decimal
import StorageServer.Peaks

/-!
# The statistics of the log

`statistiche.sh` takes the largest number that the log has after `[CURRENT_FILES]`, and
after `[STATS][CURRENT_SPACE]`. They are the peaks that the server keeps in every run in which
nothing is appended to a file and no request names a path with such a number
(`statistics_of_run`) : `open_file`, `write_file` and `remove_file` print the counters after they
have changed them, but `append_to_file` prints each of them in the place of the other
(`not_statistics`).
-/

open Programs Transitions

namespace StorageServer

/-! ## The script -/

/-- The bytes of a text. -/
def textBytes (text : String) : List UInt8 :=
  text.toList.map fun c => UInt8.ofNat c.toNat

/-- `[CURRENT_FILES]` and the blank after it. -/
def filesTag : List UInt8 :=
  textBytes "[CURRENT_FILES] "

/-- `[STATS][CURRENT_SPACE]` and the blank after it. -/
def spaceTag : List UInt8 :=
  textBytes "[STATS][CURRENT_SPACE] "

/-- The numbers that stand in a text right after a tag. -/
def numbersAfter (tag : List UInt8) : List UInt8 → List ℕ
  | [] => []
  | b :: text =>
    let digits := ((b :: text).drop tag.length).takeWhile Decimal.isDigit
    if tag.isPrefixOf (b :: text) ∧ digits ≠ [] then
      Decimal.ofDigits digits :: numbersAfter tag text
    else numbersAfter tag text

/-- The numbers after `[CURRENT_FILES]`. -/
def currentFiles (log : List LogLine) : List ℕ :=
  log.flatMap fun
    | .currentFiles n => [n]
    | .currentSpace _ => []
    | .path pathName => numbersAfter filesTag pathName

/-- The numbers after `[STATS][CURRENT_SPACE]`. -/
def currentSpace (log : List LogLine) : List ℕ :=
  log.flatMap fun
    | .currentFiles _ => []
    | .currentSpace n => [n]
    | .path pathName => numbersAfter spaceTag pathName

/-- A path has no number after a tag. -/
def Untagged (path : CString) : Prop :=
  numbersAfter filesTag path = [] ∧ numbersAfter spaceTag path = []

instance (path : CString) : Decidable (Untagged path) :=
  inferInstanceAs (Decidable (_ ∧ _))

/-- The loop of the script over the numbers. -/
def largest (nums : List ℕ) : ℕ :=
  nums.foldl (fun max num => if max < num then num else max) 0

/-- `max_files` of the script. -/
def statMaxFiles (log : List LogLine) : ℕ :=
  largest (currentFiles log)

/-- `max_size` of the script. -/
def statMaxSize (log : List LogLine) : ℕ :=
  largest (currentSpace log)

/-- The statistics of the log are the peaks. -/
structure StatisticsAgree (log : List LogLine) (st : ServerState) : Prop where
  files : statMaxFiles log = st.maxFiles
  space : statMaxSize log = st.maxSpace

theorem largest_append_singleton (nums : List ℕ) (n : ℕ) :
    largest (nums ++ [n]) = max n (largest nums) := by
  rw [largest, List.foldl_append, List.foldl_cons, List.foldl_nil]
  exact ServerState.ite_gt_eq_max n (largest nums)

section Script

variable {log : List LogLine} {st : ServerState}

/-- Paths without such a number change nothing. -/
theorem StatisticsAgree.append_paths (h : StatisticsAgree log st) {ps : List CString}
    (hps : ∀ p ∈ ps, Untagged p) : StatisticsAgree (log ++ ps.map .path) st := by
  have hfiles : currentFiles (ps.map .path) = [] := by
    rw [currentFiles, List.flatMap_map]
    exact List.flatMap_eq_nil_iff.2 fun p hp => (hps p hp).1
  have hspace : currentSpace (ps.map .path) = [] := by
    rw [currentSpace, List.flatMap_map]
    exact List.flatMap_eq_nil_iff.2 fun p hp => (hps p hp).2
  constructor
  · rw [statMaxFiles, currentFiles, List.flatMap_append]
    change largest (currentFiles log ++ currentFiles (ps.map .path)) = _
    rw [hfiles, List.append_nil]
    exact h.files
  · rw [statMaxSize, currentSpace, List.flatMap_append]
    change largest (currentSpace log ++ currentSpace (ps.map .path)) = _
    rw [hspace, List.append_nil]
    exact h.space

theorem statMaxFiles_append (log : List LogLine) (n m : ℕ) :
    statMaxFiles (log ++ [.currentFiles n, .currentSpace m]) = max n (statMaxFiles log) := by
  rw [statMaxFiles, currentFiles, List.flatMap_append]
  exact largest_append_singleton _ _

theorem statMaxSize_append (log : List LogLine) (n m : ℕ) :
    statMaxSize (log ++ [.currentFiles n, .currentSpace m]) = max m (statMaxSize log) := by
  rw [statMaxSize, currentSpace, List.flatMap_append]
  exact largest_append_singleton _ _

/-- The counters are printed after they have changed. -/
theorem StatisticsAgree.append_counters (h : StatisticsAgree log st) {st' : ServerState}
    (hn : st.Notes st') {m : ℕ} (hm : m = st'.space ∨ m ≤ st'.space ∧ st'.maxSpace = st.maxSpace) :
    StatisticsAgree (log ++ [.currentFiles st'.files, .currentSpace m]) st' := by
  have hspace := hn.space
  constructor
  · rw [statMaxFiles_append, h.files, hn.files]
  · rw [statMaxSize_append, h.space]
    omega

end Script

/-! ## The lines of a request -/

/-- The lines with counters that the section of a request writes, if it is not refused, from the
files before it and the counters after it. -/
def Request.lines (fs : FileSystem) (st : ServerState) : Request → Option Sa → List LogLine
  | .openFile _ flags, none =>
    if isFlagSet flags oCreate then [.currentFiles st.files, .currentSpace (toUInt st.space)]
      else []
  | .writeFile _ _ _, none => [.currentFiles st.files, .currentSpace st.space]
  | .appendToFile _ size _, none =>
    if size = 0 then [] else [.currentFiles (toUInt st.space), .currentSpace (toUInt st.files)]
  | .removeFile path, none =>
    if (fs.find? path).isSome then [.currentFiles st.files, .currentSpace st.space] else []
  | _, _ => []

@[simp] theorem Request.lines_some (fs : FileSystem) (st : ServerState) (req : Request)
    (code : Sa) :
    req.lines fs st (some code) = [] := by
  cases req <;> rfl

section Lines

variable {cfg : ServerConfig} {fdClient : ℕ} {l : Local} {s : Store} {xs : List (FilePtr × File)}
  {req : Request}

/-- A section without such lines has returned. -/
theorem safe_pure_lines {r : Except Sa Reply} {l' : Local} {s' : Store} (hl : l'.log = l.log)
    (hlines : req.lines s.fileSystem s'.currState (errorOf r) = []) :
    Prog.wp safeExec (pure r) (fun r w =>
      w.1.log = l.log ++ req.lines s.fileSystem w.2.currState (errorOf r)) (l', s') := by
  rw [Prog.wp_pure, hlines, List.append_nil]
  exact hl

/-- A section that is refused has returned. -/
theorem safe_refused_lines {code : Sa} {l' : Local} {s' : Store} (hl : l'.log = l.log) :
    Prog.wp safeExec (pure (.error code : Except Sa Reply)) (fun r w =>
      w.1.log = l.log ++ req.lines s.fileSystem w.2.currState (errorOf r)) (l', s') :=
  safe_pure_lines hl (Request.lines_some ..)

/-- What the section of a request writes to the log. -/
theorem safe_storeSection_lines (hs : s.Idle cfg xs) (hreq : req.WF)
    (hfit : s.fileSystem.Fits req) :
    Prog.wp safeExec (storeSection cfg fdClient req) (fun r w =>
      w.1.log = l.log ++ req.lines s.fileSystem w.2.currState (errorOf r)) (l, s) := by
  cases req with
  | openFile path flags =>
    rw [storeSection]
    refine (Prog.wp_ite _ _ _).2 ⟨fun hc => ?_, fun hc => ?_⟩
    · rw [Prog.wp_bind]
      refine safe_openFileCreate hs (fun _ => safe_refused_lines rfl) ?_
      rintro - t₁ t₂ rest - s' rfl
      simp [Request.lines, hc, errorOf, Except.map]
    · rw [Prog.wp_bind]
      have hlines : ∀ st refused,
          Request.lines s.fileSystem st (.openFile path flags) refused = [] := fun st refused => by
        cases refused with
        | none => exact if_neg hc
        | some code => exact Request.lines_some ..
      exact safe_openFileExisting hs (fun _ => safe_pure_lines rfl (hlines _ _))
        (fun _ _ _ _ => safe_pure_lines rfl (hlines _ _))
        fun _ _ _ _ _ _ _ _ => safe_pure_lines rfl (hlines _ _)
  | closeFile path =>
    have hlines : ∀ st refused, Request.lines s.fileSystem st (.closeFile path) refused = [] :=
      fun st refused => by cases refused <;> rfl
    rw [storeSection, Prog.wp_bind]
    exact safe_closeFileStore hs (fun _ => safe_pure_lines rfl (hlines _ _))
      fun _ _ _ _ => safe_pure_lines rfl (hlines _ _)
  | writeFile path size buf =>
    have hbuf : buf.length = toSize size := hreq
    have hlt : s.currState.space + buf.length < 2 ^ 63 := hs.space_lt hfit
    rw [storeSection, Prog.wp_bind]
    refine safe_writeFileStore hs hbuf (hbuf ▸ hlt) (fun _ _ => safe_refused_lines rfl)
      (fun _ _ => safe_refused_lines rfl) ?_
    rintro x - - - - - - t rest - s' rfl
    simp [Request.lines, errorOf, Except.map]
  | appendToFile path size buf =>
    have hbuf : buf.length = size := hreq
    have hlt : s.currState.space + buf.length < 2 ^ 63 := hs.space_lt hfit
    rw [storeSection]
    refine (Prog.wp_ite _ _ _).2 ⟨fun hpos => ?_, fun hpos => ?_⟩
    · rw [Prog.wp_bind]
      refine safe_appendToFileStore hs (Nat.ne_of_gt hpos) hbuf (hbuf ▸ hlt)
        (fun _ _ => safe_refused_lines rfl) ?_
      rintro x - - - - - t rest - s' rfl
      simp [Request.lines, errorOf, Except.map, Nat.ne_of_gt hpos]
    · obtain rfl : size = 0 := Nat.eq_zero_of_not_pos hpos
      exact safe_pure_lines rfl rfl
  | readFile path =>
    have hlines : ∀ st refused, Request.lines s.fileSystem st (.readFile path) refused = [] :=
      fun st refused => by cases refused <;> rfl
    rw [storeSection, Prog.wp_bind]
    exact safe_readFileStore hs (fun _ => safe_pure_lines rfl (hlines _ _))
      (fun _ _ _ _ => safe_pure_lines rfl (hlines _ _))
      fun _ _ _ _ _ _ _ _ => safe_pure_lines rfl (hlines _ _)
  | readNFiles N =>
    have hlines : ∀ st refused, Request.lines s.fileSystem st (.readNFiles N) refused = [] :=
      fun st refused => by cases refused <;> rfl
    rw [storeSection, Prog.wp_bind]
    exact safe_readNFilesStore hs (fun _ => safe_pure_lines rfl (hlines _ _))
      (fun _ _ => safe_pure_lines rfl (hlines _ _)) (safe_pure_lines rfl (hlines _ _))
  | removeFile path =>
    rw [storeSection, Prog.wp_bind]
    refine safe_removeFileStore hs (fun hfind => ?_) (fun _ _ _ _ => safe_refused_lines rfl)
      (fun _ _ _ _ _ => safe_refused_lines rfl) fun x hx hpath hfind hc hl => ?_
    · refine safe_pure_lines rfl ?_
      rw [Sa.toReply, errorOf, Request.lines, if_neg (by rw [hfind]; exact Bool.false_ne_true)]
    · have hstate : (s.removed x).currState = s.currState.remove x.2 := rfl
      simp [Request.lines, hfind, Sa.toReply, errorOf, hstate]

end Lines

/-! ## The log of a run -/

/-- A step of the server, with the lines that it adds to the log it is given. -/
inductive Server.Writes (cfg : ServerConfig) : Server → Event → List LogLine → Server → Prop
  | request {s s₁ s₂ : Store} {h : Handler} {fdClient : ℕ} {l l₁ l₂ : Local} {req : Request}
      {r : Except Sa Reply} {readings : List Timespec}
      (hread : Prog.run exec (readRequest h) (l, s) = .ok (.ok req, (l₁, s₁)))
      (hserve : Prog.run exec (storeSection cfg fdClient req) (l₁, s₁) = .ok (r, (l₂, s₂)))
      (hclock : l₁.clock = readings ++ l₂.clock) (hfit : s.fileSystem.Fits req) :
      Writes cfg ⟨s, none⟩ (.request h fdClient l req readings (errorOf r))
        (l₂.log.drop l.log.length) ⟨s₂, some (l₂, r)⟩
  | unread {s s₁ : Store} {h : Handler} {fdClient : ℕ} {l l₁ : Local} {code : Sa}
      (hread : Prog.run exec (readRequest h) (l, s) = .ok (.error code, (l₁, s₁))) :
      Writes cfg ⟨s, none⟩ (.unread h fdClient code) (l₁.log.drop l.log.length) ⟨s₁, none⟩
  | reply {s s' : Store} {l l' : Local} {r : Except Sa Reply} {code : Sa}
      (hrun : Prog.run exec (finish r) (l, s) = .ok (code, (l', s'))) :
      Writes cfg ⟨s, some (l, r)⟩ (.reply code) (l'.log.drop l.log.length) ⟨s', none⟩
  | disconnect {s s' : Store} {l l' : Local} {fdClient : ℕ}
      (hrun : Prog.run exec (closeClient fdClient) (l, s) = .ok ((), (l', s'))) :
      Writes cfg ⟨s, none⟩ (.disconnect fdClient) (l'.log.drop l.log.length) ⟨s', none⟩

/-- The server with its log. -/
def loggedSystem (cfg : ServerConfig) : System (Server × List LogLine) Event where
  init x := x.1 = ⟨.initial, none⟩ ∧ x.2 = []
  step x e x' := ∃ lines, Server.Writes cfg x.1 e lines x'.1 ∧ x'.2 = x.2 ++ lines

/-- Nothing is appended : an `append_to_file` has no bytes to append, or is refused. -/
def FileSystem.AppendsNothing (cfg : ServerConfig) (fs : FileSystem) : Event → Prop
  | .request _ fdClient _ (.appendToFile path size buf) _ _ =>
    size = 0 ∨ fs.refusal cfg fdClient (.appendToFile path size buf) ≠ none
  | _ => True

section Runs

variable {cfg : ServerConfig} {fdClient : ℕ} {tr : List Event} {σ σ' : Server} {e : Event}
  {log lines : List LogLine} {φ φ' : FileServer} {x : Server × List LogLine}

theorem Server.Writes.step (h : Server.Writes cfg σ e lines σ') : Server.Step cfg σ e σ' := by
  cases h with
  | request hread hserve hclock hfit => exact .request hread hserve hclock hfit
  | unread hread => exact .unread hread
  | reply hrun => exact .reply hrun
  | disconnect hrun => exact .disconnect hrun

/-- Every step writes some lines, maybe none. -/
theorem exists_writes (h : Server.Step cfg σ e σ') : ∃ lines, Server.Writes cfg σ e lines σ' := by
  cases h with
  | request hread hserve hclock hfit => exact ⟨_, .request hread hserve hclock hfit⟩
  | unread hread => exact ⟨_, .unread hread⟩
  | reply hrun => exact ⟨_, .reply hrun⟩
  | disconnect hrun => exact ⟨_, .disconnect hrun⟩

/-- Every run of the server has a log. -/
theorem exists_logged {c : Server → Event → Prop} (h : Run ((serverSystem cfg).restrict c) tr σ) :
    ∃ log, Run ((loggedSystem cfg).restrict fun x e => c x.1 e) tr (σ, log) := by
  induction h with
  | start h => exact ⟨[], .start ⟨h, rfl⟩⟩
  | step _ hs ih =>
    obtain ⟨log, hlog⟩ := ih
    obtain ⟨lines, hw⟩ := exists_writes hs.2
    exact ⟨_, .step hlog ⟨hs.1, lines, hw, rfl⟩⟩

theorem drop_log {l l' : Local} {ls : List LogLine} (h : l'.log = l.log ++ ls) :
    l'.log.drop l.log.length = ls := by
  rw [h, List.drop_left]

/-- The lines of a step : those of the request, or paths. -/
theorem Server.Writes.lines_eq (h : Server.Writes cfg σ e lines σ') (hr : σ.Refines cfg φ) :
    (∃ h fdClient l req readings refused, e = .request h fdClient l req readings refused ∧
      lines = req.lines σ.store.fileSystem σ'.store.currState refused) ∨
    (∃ ps : List CString, lines = ps.map .path ∧
      ∀ p ∈ ps, ∃ out, φ.replying = some out ∧ p ∈ FileSystem.Outcome.logged out) ∧
      ∀ h fdClient l req readings refused, e ≠ .request h fdClient l req readings refused := by
  obtain ⟨⟨xs, hs, hshown⟩, hfs, hreplying⟩ := hr
  cases h with
  | @request s s₁ s₂ h fdClient l l₁ l₂ req r readings hread hserve hclock hfit =>
    obtain ⟨rfl, ⟨inp, rfl⟩, -, hreq⟩ := of_readRequest hread
    have hlog := post_of_safe (safe_storeSection_lines hs (hreq req rfl) hfit) hserve
    exact Or.inl ⟨_, _, _, _, _, _, rfl, drop_log hlog⟩
  | unread hread =>
    obtain ⟨-, ⟨inp, rfl⟩, -⟩ := of_readRequest hread
    exact Or.inr ⟨⟨[], drop_log (List.append_nil _).symm, fun _ hp => absurd hp List.not_mem_nil⟩,
      fun _ _ _ _ _ _ heq => (by cases heq)⟩
  | @reply s s' l l' r code hrun =>
    obtain ⟨fs, replying⟩ := φ
    cases replying with
    | none => cases hreplying
    | some out =>
      obtain ⟨-, -, -, hl⟩ := post_of_safe (safe_finish hs (hshown l r out rfl rfl)) hrun
      exact Or.inr ⟨⟨_, drop_log (congrArg Local.log hl), fun p hp => ⟨out, rfl, hp⟩⟩,
        fun _ _ _ _ _ _ heq => (by cases heq)⟩
  | @disconnect s s' l l' fdClient hrun =>
    have hlog : l'.log = l.log :=
      post_of_safe (Q := fun _ w => w.1.log = l.log) (safe_closeClient hs rfl) hrun
    exact Or.inr ⟨⟨[], drop_log (hlog.trans (List.append_nil _).symm),
      fun _ hp => absurd hp List.not_mem_nil⟩, fun _ _ _ _ _ _ heq => (by cases heq)⟩

/-- A request that does not append keeps the statistics. -/
theorem FileSystem.Effect.agrees {fs fs' : FileSystem} {h : Handler} {l : Local} {req : Request}
    {readings : List Timespec} {out : Except Sa FileSystem.Outcome}
    (he : fs.Effect cfg fdClient l.malloc req readings out fs') (ht : fs.Tallied)
    (hs : fs.Sound cfg)
    (hagree : StatisticsAgree log fs.state)
    (hclean : fs.AppendsNothing cfg (.request h fdClient l req readings (errorOf out))) :
    StatisticsAgree (log ++ req.lines fs fs'.state (errorOf out)) fs'.state := by
  have hnotes := (he.notes ht hs).1
  have hnil : StatisticsAgree (log ++ []) fs.state := by
    rw [List.append_nil]
    exact hagree
  cases he with
  | refused | noMemory =>
    rw [errorOf, Request.lines_some]
    exact hnil
  | created hc hf hp =>
    rw [errorOf, Request.lines, if_pos hc]
    refine hagree.append_counters hnotes (Or.inr ⟨?_, ?_⟩)
    · unfold toUInt
      omega
    · rcases makePlace_cases cfg fs with ⟨-, he, -⟩ | ⟨g, -, -, -, he⟩
      · rw [he]
        rfl
      · rw [he]
        rfl
  | opened hc =>
    rw [errorOf, Request.lines, if_neg hc]
    exact hnil
  | written => exact hagree.append_counters hnotes (Or.inl rfl)
  | appended hne hf hpass => exact absurd hpass (hclean.resolve_left hne)
  | removed hf =>
    rw [errorOf, Request.lines, if_pos (by rw [hf]; rfl)]
    exact hagree.append_counters hnotes (Or.inl rfl)
  | removedNothing hf =>
    rw [errorOf, Request.lines, if_neg (by rw [hf]; exact Bool.false_ne_true)]
    exact hnil
  | appendedNothing | closed | read | readN | unset => exact hnil

/-- The paths that are printed in a reply are those of stored files and of the request. -/
theorem FileSystem.Effect.logged {fs fs' : FileSystem} {malloc : Allocation → Bool} {req : Request}
    {readings : List Timespec} {out : Except Sa FileSystem.Outcome} {p : CString}
    (he : fs.Effect cfg fdClient malloc req readings out fs')
    (hp : p ∈ FileSystem.Outcome.logged out) :
    (∃ f ∈ fs.files, f.pathName = p) ∨ req.path? = some p := by
  cases he with
  | created =>
    rcases List.mem_append.1 hp with hp | hp
    · rcases makePlace_cases cfg fs with ⟨he, -, -⟩ | ⟨g, hg, -, he, -⟩
      · rw [he] at hp
        cases hp
      · rw [he] at hp
        exact .inl ⟨g, hg, (List.mem_singleton.1 hp).symm⟩
    · exact .inr (congrArg some (List.mem_singleton.1 hp).symm)
  | _ => cases hp

/-- The paths of the stored files, and of those that are printed in the coming reply, have no
number after a tag. -/
structure FileServer.Untagged (φ : FileServer) : Prop where
  files : ∀ f ∈ φ.fs.files, StorageServer.Untagged f.pathName
  reply : ∀ out, φ.replying = some out →
    ∀ p ∈ FileSystem.Outcome.logged out, StorageServer.Untagged p

/-- The path that an event names has no number after a tag. -/
def Event.Untagged : Event → Prop
  | .request _ _ _ req _ _ => ∀ path ∈ req.path?, StorageServer.Untagged path
  | _ => True

theorem FileServer.Step.untagged (h : FileServer.Step cfg φ e φ') (ht : φ.Untagged)
    (he : e.Untagged) : φ'.Untagged where
  files f' hf' := by
    rcases h.origin hf' with ⟨hcreated, -⟩ | ⟨f, hf, hdata⟩
    · obtain ⟨h', fdClient, l, path, flags, t₁, t₂, rfl, rfl, -⟩ := h.of_created hcreated
      exact he path rfl
    · have hname : f'.pathName = f.pathName := by
        rw [← Event.pathName_change e f]
        exact File.congr_data File.pathName (fun _ => rfl) hdata
      rw [hname]
      exact ht.files f hf
  reply out hout p hp := by
    cases h with
    | request heffect =>
      cases hout
      rcases heffect.logged hp with ⟨f, hf, rfl⟩ | hpath
      · exact ht.files f hf
      · exact he p hpath
    | _ => cases hout

/-- The condition on a step : nothing is appended, and the path that is named has no number after a
tag. -/
def FileSystem.LogsCounters (cfg : ServerConfig) (fs : FileSystem) (e : Event) : Prop :=
  fs.AppendsNothing cfg e ∧ e.Untagged

/-- In every run in which nothing is appended and no request names a path with a number after a
tag, the statistics of the log are the peaks that the server keeps. -/
theorem statistics_of_run
    (h : Run ((loggedSystem cfg).restrict fun x e =>
      x.1.store.fileSystem.LogsCounters cfg e) tr x) :
    StatisticsAgree x.2 x.1.store.currState := by
  have hinv : ∃ φ, x.1.Refines cfg φ ∧ φ.fs.Tallied ∧ φ.Untagged ∧
      StatisticsAgree x.2 φ.fs.state := by
    refine h.induction (I := fun _ x => ∃ φ, x.1.Refines cfg φ ∧ φ.fs.Tallied ∧ φ.Untagged ∧
      StatisticsAgree x.2 φ.fs.state) ?_ ?_
    · rintro ⟨σ, log⟩ ⟨hσ, hlog⟩
      obtain rfl : σ = ⟨.initial, none⟩ := hσ
      obtain rfl : log = [] := hlog
      exact ⟨⟨.empty, none⟩, .init, ⟨le_rfl, le_rfl, Nat.two_pow_pos 32, Or.inl le_rfl⟩,
        ⟨fun _ hf => absurd hf List.not_mem_nil, fun _ hout => by cases hout⟩, ⟨rfl, rfl⟩⟩
    · rintro - ⟨σ, log⟩ e ⟨σ', log'⟩ - ⟨φ, hr, ht, htag, hagree⟩
        ⟨⟨hclean, htagged⟩, lines, hwrites, hlog⟩
      obtain rfl : log' = log ++ lines := hlog
      obtain ⟨φ', hstep', hr'⟩ := Server.Step.refines hwrites.step hr
      have hstate : σ'.store.currState = φ'.fs.state := congrArg FileSystem.state hr'.fs
      refine ⟨φ', hr', (hstep'.notes ht hr.sound).2, hstep'.untagged htag htagged, ?_⟩
      have hlines := hwrites.lines_eq hr
      dsimp only at hclean
      rw [hstate, hr.fs] at hlines
      rw [hr.fs] at hclean
      have hother : φ'.fs.state = φ.fs.state →
          (∀ h fdClient l req readings refused, e ≠ .request h fdClient l req readings refused) →
          StatisticsAgree (log ++ lines) φ'.fs.state := fun hsame hne => by
        rcases hlines with ⟨_, _, _, _, _, _, heq, -⟩ | ⟨⟨ps, rfl, hps⟩, -⟩
        · exact absurd heq (hne _ _ _ _ _ _)
        · rw [hsame]
          refine hagree.append_paths fun p hp => ?_
          obtain ⟨out, hout, hlogged⟩ := hps p hp
          exact htag.reply out hout p hlogged
      cases hstep' with
      | request he hreq hfit =>
        rcases hlines with ⟨_, _, _, _, _, _, heq, rfl⟩ | ⟨-, hne⟩
        · cases heq
          exact he.agrees ht hr.sound hagree hclean
        · exact absurd rfl (hne _ _ _ _ _ _)
      | unread | disconnect => exact hother rfl fun _ _ _ _ _ _ heq => (by cases heq)
      | reply =>
        exact hother (FileSystem.state_release ..) fun _ _ _ _ _ _ heq => (by cases heq)
  obtain ⟨φ, hr, -, -, hagree⟩ := hinv
  have hstate : x.1.store.currState = φ.fs.state := congrArg FileSystem.state hr.fs
  rwa [hstate]

instance (cfg : ServerConfig) (fs : FileSystem) :
    (e : Event) → Decidable (fs.LogsCounters cfg e)
  | .request _ _ _ (.appendToFile _ _ _) _ _ =>
    inferInstanceAs (Decidable ((_ ∨ _) ∧ ∀ _ ∈ _, _))
  | .request _ _ _ (.openFile _ _) _ _ | .request _ _ _ (.closeFile _) _ _
  | .request _ _ _ (.writeFile _ _ _) _ _ | .request _ _ _ (.readFile _) _ _
  | .request _ _ _ (.readNFiles _) _ _ | .request _ _ _ (.removeFile _) _ _ =>
    inferInstanceAs (Decidable (True ∧ ∀ _ ∈ _, _))
  | .unread _ _ _ | .reply _ | .disconnect _ => inferInstanceAs (Decidable (True ∧ True))

/-- Two files are expelled, a third is appended nothing to and removed, and the log says how many
there were. -/
theorem statistics_of_run_expulsions : ∃ x : Server × List LogLine,
    x.1.store.currState = ⟨0, 0, 2, 2, 2⟩ ∧ statMaxFiles x.2 = 2 ∧ statMaxSize x.2 = 2 := by
  obtain ⟨tr, σ, hrun, hstate⟩ := ((computes_next .small).checked
      fun σ e => σ.store.fileSystem.LogsCounters .small e).exists_run ⟨.initial, none⟩ rfl
    (expulsions ++ Api.Call.actions (.appendToFile [99] [] fun _ => 0) 7 (.at 6) ++
      Api.Call.actions (.removeFile [99]) 7 (.at 7))
    (fun _ σ => σ.store.currState = ⟨0, 0, 2, 2, 2⟩) (by decide +kernel)
  obtain ⟨log, hlogged⟩ := exists_logged hrun
  have hagree : StatisticsAgree log σ.store.currState := statistics_of_run hlogged
  rw [hstate] at hagree
  exact ⟨(σ, log), hstate, hagree.files, hagree.space⟩

/-- A client creates a file and appends two bytes to it. -/
theorem not_statistics : ¬∀ (cfg : ServerConfig) (tr : List Event) (x : Server × List LogLine),
    Run (loggedSystem cfg) tr x → StatisticsAgree x.2 x.1.store.currState := by
  intro hall
  obtain ⟨tr, σ, hrun, hnext⟩ := ((computes_next .small).checked fun _ _ => True).exists_run
    ⟨.initial, none⟩ rfl (Api.Call.actions (.openFile [97] oCreate) 7 (.at 0))
    (fun _ σ => ((σ.next .small (.call .appendToFile 7 ((Local.at 1).left
      (Api.Call.appendToFile [97] [1, 2] fun _ => 0).arguments))).any fun r =>
        r.1.accepted = some (.appendToFile [97] 2 [1, 2]) ∧
          r.2.store.currState = ⟨1, 2, 0, 1, 2⟩) = true) (by decide +kernel)
  obtain ⟨⟨e, σ'⟩, hnext, he⟩ := (Option.any_eq_true _ _).1 hnext
  obtain ⟨haccepted, hstate⟩ := of_decide_eq_true he
  obtain ⟨h, fdClient, l, readings, rfl⟩ := Event.eq_of_accepted haccepted
  obtain ⟨log, hlogged⟩ := exists_logged hrun
  obtain ⟨lines, hwrites⟩ := exists_writes (computes_next _ _ _ _ _ hnext)
  have hagree := hall .small _ (σ', log ++ lines) (.step hlogged.of_restrict ⟨lines, hwrites, rfl⟩)
  obtain ⟨φ, -, hr⟩ := run_refines hrun.of_restrict
  rcases hwrites.lines_eq hr with ⟨_, _, _, _, _, _, heq, rfl⟩ | ⟨-, hne⟩
  · cases heq
    have hfiles : statMaxFiles (log ++ [.currentFiles (toUInt σ'.store.currState.space),
        .currentSpace (toUInt σ'.store.currState.files)]) = σ'.store.currState.maxFiles :=
      hagree.files
    dsimp only at hstate
    rw [statMaxFiles_append, hstate, toUInt_of_range (by decide)] at hfiles
    dsimp only at hfiles
    omega
  · exact absurd rfl (hne _ _ _ _ _ _)

end Runs

end StorageServer
