import StorageServer.Lineage

/-!
# The owner of a file

`fd_lock` is a field that each handler has to compare with the descriptor of its client.
`write_file` and `remove_file` do, and `open_file` does if it is to lock the file; so while
a client holds the lock of a file, no other client changes the owner or removes the file,
and what another client does to the contents is to append to them, after it has opened the
file : `append_to_file` looks at `fd_open` only (`locked_of_run`).
-/

open Programs Transitions

namespace StorageServer

/-- The event is an action of a client. -/
def Event.By (fdClient : ℕ) : Event → Prop
  | .request _ fdClient' _ _ _ _ => fdClient' = fdClient
  | .unread _ fdClient' _ => fdClient' = fdClient
  | .reply _ => False
  | .disconnect fdClient' => fdClient' = fdClient

/-- The client closes or removes the file, or leaves. -/
def Event.GivesUp (fdClient : ℕ) (path : CString) : Event → Prop
  | .request _ fdClient' _ (.closeFile path') _ _ => fdClient' = fdClient ∧ path' = path
  | .request _ fdClient' _ (.removeFile path') _ _ => fdClient' = fdClient ∧ path' = path
  | .disconnect fdClient' => fdClient' = fdClient
  | _ => False

/-- The event appends `buf` to the file for a client that has opened it. -/
def Event.Appends (f : File) (buf : List UInt8) : Event → Prop
  | .request _ fdClient _ (.appendToFile path size buf') _ none =>
    path = f.pathName ∧ size ≠ 0 ∧ buf' = buf ∧ f.fdOpen.contains fdClient = true
  | _ => False

/-- The request that is being replied to has expelled the file at a path. -/
def Server.Expels (σ : Server) (path : CString) : Prop :=
  ∃ l r, σ.replying = some (l, r) ∧
    ∃ p ∈ Reply.gone r, ∃ f, σ.store.heap p = some f ∧ f.pathName = path

/-- The server from a state on, while a client does not give up the file at a path and the
file is not expelled. -/
def heldSystem (cfg : ServerConfig) (σ₀ : Server) (fdClient : ℕ) (path : CString) :
    System Server Event where
  init σ := σ = σ₀
  step σ e σ' := Server.Step cfg σ e σ' ∧ ¬e.GivesUp fdClient path ∧ ¬σ'.Expels path

section Locked

variable {cfg : ServerConfig} {malloc : Allocation → Bool} {fdClient fdOther : ℕ} {req : Request}
  {readings : List Timespec}
  {fs fs' : FileSystem} {f : File} {path : CString} {e : Event} {σ σ' σ₀ : Server}
  {φ φ' : FileServer} {s : Store} {xs : List (FilePtr × File)} {tr tr₀ : List Event}

/-- What another client makes of a locked file. -/
theorem FileSystem.Effect.change_locked {out : Except Sa FileSystem.Outcome}
    (he : fs.Effect cfg fdOther malloc req readings out fs') (hf : fs.find? f.pathName = some f)
    (hlock : f.fdLock = fdClient) (hne : fdOther ≠ fdClient) (h : Handler) (l : Local) :
    (req.change malloc fdOther readings f).fdLock = fdClient ∧
      ((req.change malloc fdOther readings f).contents = f.contents ∨
        ∃ buf, (Event.request h fdOther l req readings (errorOf out)).Appends f buf ∧
          (req.change malloc fdOther readings f).contents = f.contents ++ buf) := by
  have hmem := (FileSystem.find?_eq_some hf).1
  have hother : f.fdLock ≠ fdOther := by
    rw [hlock]
    exact fun he => hne (Int.ofNat_inj.1 he).symm
  by_cases hp : req.path? = some f.pathName
  case neg =>
    rw [Request.change_of_ne hp]
    exact ⟨hlock, Or.inl rfl⟩
  cases he with
  | refused href =>
    rw [FileSystem.change_of_refusal href hmem]
    exact ⟨hlock, Or.inl rfl⟩
  | noMemory hreq =>
    rw [Request.change_of_eq hp, hreq.apply_nil]
    exact ⟨hlock, Or.inl rfl⟩
  | @opened path flags t g hc hg href =>
    obtain rfl : path = f.pathName := Option.some.inj hp
    obtain rfl : g = f := Option.some.inj (hg.symm.trans hf)
    have hflag : ¬isFlagSet flags oLock := fun hl => by
      rcases (FileSystem.refusal_openFile_eq_none hc hg).1 href hl with h | h
      · rw [hlock] at h
        omega
      · exact hother h
    rw [Request.change_of_eq hp]
    exact ⟨(if_neg hflag).trans hlock, Or.inl rfl⟩
  | closed =>
    rw [Request.change_of_eq hp]
    exact ⟨(if_neg hother).trans hlock, Or.inl rfl⟩
  | @written path size buf t g hg href =>
    obtain rfl : path = f.pathName := Option.some.inj hp
    obtain rfl : g = f := Option.some.inj (hg.symm.trans hf)
    exact absurd ((FileSystem.refusal_writeFile_eq_none hg).1 href).2.1 hother
  | @appended path size buf t g hs hg href =>
    obtain rfl : path = f.pathName := Option.some.inj hp
    obtain rfl : g = f := Option.some.inj (hg.symm.trans hf)
    have hopen := ((FileSystem.refusal_appendToFile_eq_none hs hg).1 href).1
    rw [Request.change_of_eq hp]
    exact ⟨hlock, Or.inr ⟨buf, ⟨rfl, hs, rfl, hopen⟩, rfl⟩⟩
  | _ =>
    rw [Request.change_of_eq hp]
    exact ⟨hlock, Or.inl rfl⟩

/-- What the owner makes of a locked file that it does not give up. -/
theorem Request.fdLock_change (hlock : f.fdLock = fdClient)
    (hclose : ∀ path, req = .closeFile path → path ≠ f.pathName) :
    (req.change malloc fdClient readings f).fdLock = fdClient := by
  by_cases hp : req.path? = some f.pathName
  case neg => rwa [Request.change_of_ne hp]
  rw [Request.change_of_eq hp]
  unfold Request.apply
  split
  · rw [File.opened]
    dsimp only
    split_ifs
    · rfl
    · exact hlock
  · exact absurd (Option.some.inj hp) (hclose _ rfl)
  all_goals exact hlock

/-- A step while a client holds the lock of a file. -/
theorem FileServer.Step.locked (h : FileServer.Step cfg φ e φ')
    (hn : (φ.fs.files.map File.pathName).Nodup) (hn' : (φ'.fs.files.map File.pathName).Nodup)
    (hf : φ.fs.find? f.pathName = some f) (hlock : f.fdLock = fdClient)
    (hgives : ¬e.GivesUp fdClient f.pathName)
    (hgone : ∀ out, φ'.replying = some out → f ∉ FileSystem.Outcome.gone out) :
    ∃ f', φ'.fs.find? f.pathName = some f' ∧ f'.fdLock = fdClient ∧
      (¬e.By fdClient → f'.contents = f.contents ∨
        ∃ buf, e.Appends f buf ∧ f'.contents = f.contents ++ buf) := by
  have hmem := (FileSystem.find?_eq_some hf).1
  have hchange : (e.change f).fdLock = fdClient ∧ (¬e.By fdClient →
      (e.change f).contents = f.contents ∨
        ∃ buf, e.Appends f buf ∧ (e.change f).contents = f.contents ++ buf) := by
    cases h with
    | @request fs fs' h fdClient' l req readings out he =>
      by_cases hby : fdClient' = fdClient
      · subst hby
        refine ⟨Request.fdLock_change hlock fun path hreq hpath => hgives ?_, fun hne =>
          absurd rfl hne⟩
        subst hreq hpath
        exact ⟨rfl, rfl⟩
      · obtain ⟨hlock', hcontents⟩ := he.change_locked hf hlock hby h l
        exact ⟨hlock', fun _ => hcontents⟩
    | @disconnect fs fdClient' =>
      have hne : f.fdLock ≠ fdClient' := by
        rw [hlock]
        exact fun he => hgives (Int.ofNat_inj.1 he).symm
      exact ⟨(if_neg hne).trans hlock, fun _ => Or.inl rfl⟩
    | unread | reply => exact ⟨hlock, fun _ => Or.inl rfl⟩
  rcases h.fate hn hmem with ⟨f', hf', hdata⟩ | ⟨out, hout, hf'⟩ | hremoved
  · have hname : f'.pathName = f.pathName := by
      rw [← Event.pathName_change e f]
      exact File.congr_data File.pathName (fun _ => rfl) hdata
    have hfdLock : f'.fdLock = (e.change f).fdLock :=
      File.congr_data File.fdLock (fun _ => rfl) hdata
    have hcontents : f'.contents = (e.change f).contents :=
      File.congr_data File.contents (fun _ => rfl) hdata
    refine ⟨f', hname ▸ FileSystem.find?_of_mem hn' hf', hfdLock.trans hchange.1, ?_⟩
    rw [hcontents]
    exact hchange.2
  · exact absurd hf' (hgone out hout)
  · cases h with
    | @request fs fs' h fdClient' l req readings out he =>
      cases req with
      | removeFile path =>
        obtain ⟨rfl, href⟩ := hremoved
        have howner := ((FileSystem.refusal_removeFile_eq_none hf).1 href).2
        rw [hlock] at howner
        exact absurd ⟨(Int.ofNat_inj.1 howner).symm, rfl⟩ hgives
      | _ => exact absurd hremoved id
    | _ => exact absurd hremoved id

/-- A file that is given up is expelled. -/
theorem Server.Refines.expels {σ : Server} {φ : FileServer} (h : σ.Refines cfg φ)
    {out : Except Sa FileSystem.Outcome} (hout : φ.replying = some out)
    (hf : f ∈ FileSystem.Outcome.gone out) : σ.Expels f.pathName := by
  obtain ⟨⟨xs, -, hshown⟩, -, hreplying⟩ := h
  obtain ⟨⟨l, r⟩, hr⟩ := Option.isSome_iff_exists.1 (hreplying.trans (by rw [hout]; rfl))
  refine ⟨l, r, hr, ?_⟩
  have hshows := hshown l r out hr hout
  cases hshows with
  | @created p g g' y howns =>
    cases y with
    | none => cases hf
    | some y =>
      obtain rfl : f = y.2 := by simpa [FileSystem.Outcome.gone] using hf
      exact ⟨y.1, by simp [Reply.gone], _, howns.heap y List.mem_cons_self, rfl⟩
  | expelled howns =>
    obtain ⟨y, hy, rfl⟩ := List.mem_map.1 hf
    exact ⟨y.1, List.mem_map_of_mem hy, _, howns.heap y hy, rfl⟩
  | _ => cases hf

/-- A step of the server while a client holds the lock of a file. -/
theorem Server.Refines.locked (hr : σ.Refines cfg φ)
    (hstep : (heldSystem cfg σ₀ fdClient path).step σ e σ')
    (hf : σ.store.fileSystem.find? path = some f) (hlock : f.fdLock = fdClient) :
    (∃ φ', σ'.Refines cfg φ') ∧ ∃ f', σ'.store.fileSystem.find? path = some f' ∧
      f'.fdLock = fdClient ∧ (¬e.By fdClient → f'.contents = f.contents ∨
        ∃ buf, e.Appends f buf ∧ f'.contents = f.contents ++ buf) := by
  obtain ⟨hstep, hgives, hexpels⟩ := hstep
  obtain ⟨φ', hstep', hr'⟩ := hstep.refines hr
  obtain ⟨-, rfl⟩ := FileSystem.find?_eq_some hf
  have hgone : ∀ out, φ'.replying = some out → f ∉ FileSystem.Outcome.gone out :=
    fun out hout hf => hexpels (hr'.expels hout hf)
  rw [hr.fs] at hf
  rw [hr'.fs]
  exact ⟨⟨φ', hr'⟩, hstep'.locked hr.sound.names hr'.sound.names hf hlock hgives hgone⟩

/-- From a state of a run in which a client holds the lock of a file on, until the client
gives the file up or the file is expelled, the client is the owner of the file, and no step
of another client changes the contents, but one that appends to a file that it has
opened. -/
theorem locked_of_run (h₀ : Run (serverSystem cfg) tr₀ σ₀) {f₀ : File}
    (hf₀ : σ₀.store.fileSystem.find? path = some f₀) (hlock₀ : f₀.fdLock = fdClient)
    (h : Run (heldSystem cfg σ₀ fdClient path) tr σ) :
    ∃ f, σ.store.fileSystem.find? path = some f ∧ f.fdLock = fdClient ∧
      ∀ e σ', (heldSystem cfg σ₀ fdClient path).step σ e σ' → ¬e.By fdClient →
        ∃ f', σ'.store.fileSystem.find? path = some f' ∧ f'.fdLock = fdClient ∧
          (f'.contents = f.contents ∨
            ∃ buf, e.Appends f buf ∧ f'.contents = f.contents ++ buf) := by
  have hheld : (∃ φ, σ.Refines cfg φ) ∧
      ∃ f, σ.store.fileSystem.find? path = some f ∧ f.fdLock = fdClient := by
    refine h.induction (I := fun _ σ => (∃ φ, σ.Refines cfg φ) ∧
      ∃ f, σ.store.fileSystem.find? path = some f ∧ f.fdLock = (fdClient : ℤ)) ?_ ?_
    · intro σ hσ
      obtain rfl : σ = σ₀ := hσ
      obtain ⟨φ, -, hr⟩ := run_refines h₀
      exact ⟨⟨φ, hr⟩, f₀, hf₀, hlock₀⟩
    · rintro - σ e σ' - ⟨⟨φ, hr⟩, f, hf, hlock⟩ hstep
      obtain ⟨hr', f', hf', hlock', -⟩ := hr.locked hstep hf hlock
      exact ⟨hr', f', hf', hlock'⟩
  obtain ⟨⟨φ, hr⟩, f, hf, hlock⟩ := hheld
  refine ⟨f, hf, hlock, fun e σ' hstep hby => ?_⟩
  obtain ⟨-, f', hf', hlock', hcontents⟩ := hr.locked hstep hf hlock
  exact ⟨f', hf', hlock', hcontents hby⟩

/-- A client has locked a file, and another one opens it and appends to it. -/
theorem exists_appended : ∃ (cfg : ServerConfig) (tr₀ tr : List Event) (σ₀ σ σ' : Server)
    (f₀ f f' : File) (e : Event), Run (serverSystem cfg) tr₀ σ₀ ∧
    σ₀.store.fileSystem.find? [97] = some f₀ ∧ f₀.fdLock = (0 : ℕ) ∧
    Run (heldSystem cfg σ₀ 0 [97]) tr σ ∧ (heldSystem cfg σ₀ 0 [97]).step σ e σ' ∧ ¬e.By 0 ∧
    σ.store.fileSystem.find? [97] = some f ∧ σ'.store.fileSystem.find? [97] = some f' ∧
    f'.contents = f.contents ++ [1] := by
  let cfg : ServerConfig := ⟨8, 2, .LRU, by decide, by decide⟩
  obtain ⟨tr₀, s, xs, hrun, hs, hspace, hbytes, hfind⟩ := exists_created cfg [97] 3 0
    ⟨by decide, by decide⟩ ⟨by decide, by decide⟩ (by decide) (by decide)
  have hfit : s.fileSystem.Fits (.openFile [97] 0) := by
    rw [FileSystem.Fits, hbytes]
    change 0 + 0 < 2 ^ 63
    decide
  obtain ⟨l₁, s₁, hfs, hopen, hreply⟩ := hs.open 0 1 ⟨by decide, by decide⟩
    ⟨by decide, by decide⟩ (by decide) (by decide) hfind ⟨rfl, rfl⟩ hfit
  have hheld : Run (heldSystem cfg ⟨s, none⟩ 0 [97]) [.reply .success, .opening [97] 0 1]
      ⟨s₁, none⟩ := by
    have hstart : Run (heldSystem cfg ⟨s, none⟩ 0 [97]) [] ⟨s, none⟩ := .start rfl
    have hopened : Run (heldSystem cfg ⟨s, none⟩ 0 [97]) [.opening [97] 0 1]
        ⟨s₁, some (l₁, .ok .done)⟩ := by
      refine .step hstart ⟨hopen, id, ?_⟩
      rintro ⟨l, r, hr, p, hp, -⟩
      cases hr
      cases hp
    refine .step hopened ⟨hreply, id, ?_⟩
    rintro ⟨l, r, hr, -⟩
    cases hr
  let f := File.new allGranted [97] 3 0 ⟨0, 0⟩ ⟨0, 0⟩
  have hcontains : (f.opened allGranted 1 0 ⟨0, 0⟩).fdOpen.contains (1 : ℕ) = true := by
    decide +kernel
  have hfind₁ : s₁.fileSystem.find? [97] = some (f.opened allGranted 1 0 ⟨0, 0⟩) := by
    rw [hfs]
    exact FileSystem.find?_update hs.sound.names (fun _ => rfl) hfind
  have hrun₁ : Run (serverSystem cfg) _ ⟨s₁, none⟩ := .step (.step hrun hopen) hreply
  obtain ⟨xs₁, hs₁⟩ := idle_of_run hrun₁
  have hspace₁ : s₁.currState.space = 0 := (congrArg (fun fs => fs.state.space) hfs).trans hspace
  have hfit₁ : s₁.fileSystem.Fits (.appendToFile [97] 1 [1]) := by
    rw [FileSystem.Fits, FileSystem.contentBytes_eq hs₁.sound fun f hf => hs₁.wf_files hf]
    change s₁.currState.space + 1 < 2 ^ 63
    rw [hspace₁]
    decide
  have hroom : s₁.currState.space + 1 ≤ 8 := by omega
  obtain ⟨l₂, s₂, f₂, hfind₂, hcontents, happend⟩ := hs₁.append [1] 1 ⟨by decide, by decide⟩
    (by decide) (by decide) hfind₁ ⟨rfl, rfl⟩ hcontains hroom (by decide) hfit₁
  refine ⟨cfg, tr₀, _, ⟨s, none⟩, ⟨s₁, none⟩, ⟨s₂, some (l₂, .ok (.expelled []))⟩, f, _, f₂, _,
    hrun, hfind, rfl, hheld, ⟨happend, id, ?_⟩, Nat.one_ne_zero, hfind₁, hfind₂, hcontents⟩
  rintro ⟨l, r, hr, p, hp, -⟩
  cases hr
  cases hp

theorem locked_of_run_appended : ∃ (σ σ' : Server) (f f' : File),
    σ.store.fileSystem.find? [97] = some f ∧ f.fdLock = (0 : ℕ) ∧
      σ'.store.fileSystem.find? [97] = some f' ∧ f'.fdLock = (0 : ℕ) ∧
      f'.contents = f.contents ++ [1] := by
  obtain ⟨cfg, tr₀, tr, σ₀, σ, σ', f₀, f, f', e, h₀, hf₀, hlock₀, h, hstep, hby, hf, hf',
    happend⟩ :=
    exists_appended
  obtain ⟨g, hg, hlock, hnext⟩ := locked_of_run h₀ hf₀ hlock₀ h
  obtain ⟨g', hg', hlock', -⟩ := hnext e σ' hstep hby
  obtain rfl : g = f := Option.some.inj (hg.symm.trans hf)
  obtain rfl : g' = f' := Option.some.inj (hg'.symm.trans hf')
  exact ⟨σ, σ', g, g', hg, hlock, hg', hlock', happend⟩

/-- Another client can change the contents of a locked file. -/
theorem not_contents_locked : ¬∀ (cfg : ServerConfig) (tr₀ tr : List Event) (σ₀ σ σ' : Server)
    (fdClient : ℕ) (path : CString) (f₀ f f' : File) (e : Event),
    Run (serverSystem cfg) tr₀ σ₀ → σ₀.store.fileSystem.find? path = some f₀ →
    f₀.fdLock = fdClient → Run (heldSystem cfg σ₀ fdClient path) tr σ →
    (heldSystem cfg σ₀ fdClient path).step σ e σ' → ¬e.By fdClient →
    σ.store.fileSystem.find? path = some f → σ'.store.fileSystem.find? path = some f' →
    f'.contents = f.contents := by
  intro hall
  obtain ⟨cfg, tr₀, tr, σ₀, σ, σ', f₀, f, f', e, h₀, hf₀, hlock, h, hstep, hby, hf, hf', happend⟩ :=
    exists_appended
  have hsame := hall cfg tr₀ tr σ₀ σ σ' 0 [97] f₀ f f' e h₀ hf₀ hlock h hstep hby hf hf'
  rw [hsame] at happend
  simpa using congrArg List.length happend

end Locked

end StorageServer
