import Mathlib.Data.Finset.Basic
import StorageServer.Lineage

/-!
# Connections and ownership

The server with the clients that are connected. The kernel gives an accepted client a
descriptor that no connected client has, and may give it one that an earlier client had.
In every run the openers of a file and its owner are connected, and the openers are different
(`attended_of_run`), so a client starts with no file open and no file locked. A locked file is
open for its owner only if there has been memory for the owner among the openers : `create_file`
and `open_file` do not look at what `hashtbl_init` and `hashtbl_insert` return (`owned_of_run`,
`not_owned`).
-/

open Programs Transitions

namespace StorageServer

/-- The server and the descriptors of the connected clients. -/
structure Sessions where
  server : Server
  connected : Finset ℕ

/-- The events with connections. -/
inductive SessionEvent
  /-- A client is accepted. -/
  | accept (fdClient : ℕ)
  /-- An event of the server. -/
  | server (e : Event)

/-- An event is caused by a connected client. -/
def Event.OnBehalf (connected : Finset ℕ) : Event → Prop
  | .request _ fdClient _ _ _ _ => fdClient ∈ connected
  | .unread _ fdClient _ => fdClient ∈ connected
  | .reply _ => True
  | .disconnect fdClient => fdClient ∈ connected

/-- The clients that are connected after an event. -/
def Event.connectedAfter (connected : Finset ℕ) : Event → Finset ℕ
  | .disconnect fdClient => connected.erase fdClient
  | _ => connected

/-- The steps of the server with connections. -/
inductive Sessions.Step (cfg : ServerConfig) : Sessions → SessionEvent → Sessions → Prop
  | accept {σ : Server} {connected : Finset ℕ} {fdClient : ℕ} (hnew : fdClient ∉ connected)
      (hlt : fdClient < fdSetSize) :
      Step cfg ⟨σ, connected⟩ (.accept fdClient) ⟨σ, insert fdClient connected⟩
  | server {σ σ' : Server} {connected : Finset ℕ} {e : Event} (hstep : Server.Step cfg σ e σ')
      (hclient : e.OnBehalf connected) :
      Step cfg ⟨σ, connected⟩ (.server e) ⟨σ', e.connectedAfter connected⟩

/-- The server with connections. -/
def sessionSystem (cfg : ServerConfig) : System Sessions SessionEvent where
  init x := x = ⟨⟨.initial, none⟩, ∅⟩
  step := Sessions.Step cfg

/-- The openers of a file are connected and different, and its owner is connected. -/
structure File.Attended (connected : Finset ℕ) (f : File) : Prop where
  nodup : f.fdOpen.items.Nodup
  owner : f.fdLock = -1 ∨ ∃ fdClient ∈ connected, f.fdLock = (fdClient : ℤ)
  connected : ∀ item ∈ f.fdOpen.items, ∃ fdClient ∈ connected, item = (fdClient : ℤ)

/-- The openers of a file are connected and different, and its owner is one of them. -/
structure File.Owned (connected : Finset ℕ) (f : File) : Prop where
  nodup : f.fdOpen.items.Nodup
  lock : f.fdLock = -1 ∨ f.fdLock ∈ f.fdOpen.items
  connected : ∀ item ∈ f.fdOpen.items, ∃ fdClient ∈ connected, item = (fdClient : ℤ)

/-- There is memory for a client among the openers of a file, or the client is among them. -/
def File.TakesOpener (malloc : Allocation → Bool) (fdClient : ℕ) : Option File → Prop
  | none => OpenersGranted malloc
  | some f => (fdClient : ℤ) ∈ f.fdOpen.items ∨ f.fdOpen.Takes (openersGranted malloc)

instance (malloc : Allocation → Bool) (fdClient : ℕ) :
    (o : Option File) → Decidable (File.TakesOpener malloc fdClient o)
  | none => inferInstanceAs (Decidable (OpenersGranted malloc))
  | some _ => inferInstanceAs (Decidable (_ ∨ _))

/-- A request that locks a file, and passes its checks, finds memory for the client among the
openers, or the client among them. -/
def FileSystem.TakesOwner (cfg : ServerConfig) (fs : FileSystem) : Event → Prop
  | .request _ fdClient l (.openFile path flags) _ _ =>
    isFlagSet flags oLock = true → fs.refusal cfg fdClient (.openFile path flags) = none →
      File.TakesOpener l.malloc fdClient (fs.find? path)
  | _ => True

instance (cfg : ServerConfig) (fs : FileSystem) : (e : Event) → Decidable (fs.TakesOwner cfg e)
  | .request _ _ _ (.openFile _ _) _ _ => inferInstanceAs (Decidable (_ → _ → _))
  | .request _ _ _ (.closeFile _) _ _ | .request _ _ _ (.writeFile _ _ _) _ _
  | .request _ _ _ (.appendToFile _ _ _) _ _ | .request _ _ _ (.readFile _) _ _
  | .request _ _ _ (.readNFiles _) _ _ | .request _ _ _ (.removeFile _) _ _
  | .unread _ _ _ | .reply _ | .disconnect _ => instDecidableTrue

section Owned

variable {cfg : ServerConfig} {connected : Finset ℕ} {fdClient : ℕ} {req : Request}
  {readings : List Timespec} {malloc : Allocation → Bool} {f f' : File} {path : CString} {e : Event}
  {φ φ' : FileServer}

/-! ### The openers and the owner are connected -/

theorem File.Attended.congr (h : f.Attended connected) (hdata : f'.data = f.data) :
    f'.Attended connected := by
  have hopen : f'.fdOpen = f.fdOpen := File.congr_data File.fdOpen (fun _ => rfl) hdata
  have hlock : f'.fdLock = f.fdLock := File.congr_data File.fdLock (fun _ => rfl) hdata
  exact ⟨hopen ▸ h.nodup, hlock ▸ h.owner, hopen ▸ h.connected⟩

theorem File.Attended.mono {connected' : Finset ℕ} (h : f.Attended connected)
    (hsub : connected ⊆ connected') : f.Attended connected' where
  nodup := h.nodup
  connected item hitem := by
    obtain ⟨fdClient, hc, he⟩ := h.connected item hitem
    exact ⟨fdClient, hsub hc, he⟩
  owner := by
    rcases h.owner with hnone | ⟨fdClient, hc, he⟩
    · exact .inl hnone
    · exact .inr ⟨fdClient, hsub hc, he⟩

theorem File.Attended.new (flags : ℤ) (t₁ t₂ : Timespec) (hc : fdClient ∈ connected) :
    (File.new malloc path flags fdClient t₁ t₂).Attended connected := by
  have hitems : ∀ item ∈ (File.new malloc path flags fdClient t₁ t₂).fdOpen.items,
      item = (fdClient : ℤ) := fun item hitem => by
    rcases (File.newOpeners_spec malloc fdClient).2 with ⟨-, hi⟩ | ⟨-, hi⟩
    · rw [File.new, hi] at hitem
      cases hitem
    · rw [File.new, hi] at hitem
      exact List.mem_singleton.1 hitem
  refine ⟨?_, ?_, fun item hitem => ⟨fdClient, hc, hitems item hitem⟩⟩
  · rcases (File.newOpeners_spec malloc fdClient).2 with ⟨-, hi⟩ | ⟨-, hi⟩
    · rw [File.new, hi]
      exact List.nodup_nil
    · rw [File.new, hi]
      exact List.nodup_singleton _
  · rw [File.new]
    dsimp only
    split_ifs
    · exact .inr ⟨fdClient, hc, rfl⟩
    · exact .inl rfl

/-- The owner after a file has been opened. -/
theorem File.fdLock_opened (malloc : Allocation → Bool) (fdClient : ℕ) (flags : ℤ) (t : Timespec)
    (f : File) : (f.opened malloc fdClient flags t).fdLock =
      if isFlagSet flags oLock then (fdClient : ℤ) else f.fdLock :=
  rfl

theorem File.Attended.opened (h : f.Attended connected) (hwf : f.WF) (flags : ℤ) (t : Timespec)
    (hc : fdClient ∈ connected) : (f.opened malloc fdClient flags t).Attended connected := by
  have howner : (f.opened malloc fdClient flags t).fdLock = -1 ∨
      ∃ fd ∈ connected, (f.opened malloc fdClient flags t).fdLock = (fd : ℤ) := by
    rw [File.fdLock_opened]
    split_ifs
    · exact .inr ⟨fdClient, hc, rfl⟩
    · exact h.owner
  rcases @File.WF.items_opened fdClient f hwf malloc flags t with ⟨hperm, -⟩ | ⟨hnew, -, hperm⟩
  · exact ⟨hperm.nodup_iff.2 h.nodup, howner, fun item hitem =>
      h.connected item (hperm.subset hitem)⟩
  · refine ⟨hperm.nodup_iff.2 ?_, howner, fun item hitem => ?_⟩
    · exact List.nodup_append.2 ⟨h.nodup, List.nodup_singleton _, fun a ha b hb => by
        rw [List.mem_singleton] at hb
        exact fun he => hnew (hb ▸ he ▸ ha)⟩
    · rcases List.mem_append.1 (hperm.subset hitem) with hi | hi
      · exact h.connected item hi
      · exact ⟨fdClient, hc, List.mem_singleton.1 hi⟩

theorem File.Attended.closed (h : f.Attended connected) (hwf : f.WF) :
    (f.closed fdClient).Attended (connected.erase fdClient) := by
  have hitems := @File.WF.items_closed fdClient f hwf
  refine ⟨hitems ▸ h.nodup.erase _, ?_, fun item hitem => ?_⟩
  · rw [File.closed]
    dsimp only
    split_ifs with hl
    · exact .inl rfl
    · rcases h.owner with hnone | ⟨fd, hfd, he⟩
      · exact .inl hnone
      · exact .inr ⟨fd, Finset.mem_erase.2 ⟨fun hfd' => hl (by rw [he, hfd']), hfd⟩, he⟩
  · rw [hitems, h.nodup.mem_erase_iff] at hitem
    obtain ⟨fd, hfd, rfl⟩ := h.connected item hitem.2
    exact ⟨fd, Finset.mem_erase.2 ⟨fun he => hitem.1 (by rw [he]), hfd⟩, rfl⟩

/-- What an event makes of a file. -/
theorem Event.attended_change (h : f.Attended connected) (hwf : f.WF) (hc : e.OnBehalf connected) :
    (e.change f).Attended (e.connectedAfter connected) := by
  cases e with
  | request _ fdClient l req readings =>
    change (req.change l.malloc fdClient readings f).Attended connected
    rw [Request.change]
    split_ifs
    case neg => exact h
    unfold Request.apply
    split
    · exact h.opened hwf _ _ hc
    · exact (h.closed hwf).mono (Finset.erase_subset _ _)
    all_goals exact ⟨h.nodup, h.owner, h.connected⟩
  | disconnect => exact h.closed hwf
  | unread | reply => exact h

/-- A step leaves the openers connected and different, and the owners connected. -/
theorem FileServer.Step.attended (h : FileServer.Step cfg φ e φ')
    (hattended : ∀ f ∈ φ.fs.files, f.Attended connected) (hwf : ∀ f ∈ φ.fs.files, f.WF)
    (hc : e.OnBehalf connected) (hf' : f' ∈ φ'.fs.files) :
    f'.Attended (e.connectedAfter connected) := by
  rcases h.origin hf' with ⟨hcreated, -⟩ | ⟨f, hf, hdata⟩
  · unfold Event.created at hcreated
    split at hcreated
    · cases hcreated
      exact File.Attended.new _ _ _ hc
    · cases hcreated
  · exact (Event.attended_change (hattended f hf) (hwf f hf) hc).congr hdata

/-! ### The owner has opened the file -/

/-- A file is not locked, or its owner has opened it. -/
def File.OpenForOwner (f : File) : Prop :=
  f.fdLock = -1 ∨ f.fdLock ∈ f.fdOpen.items

theorem File.OpenForOwner.congr (h : f.OpenForOwner) (hdata : f'.data = f.data) :
    f'.OpenForOwner := by
  have hopen : f'.fdOpen = f.fdOpen := File.congr_data File.fdOpen (fun _ => rfl) hdata
  have hlock : f'.fdLock = f.fdLock := File.congr_data File.fdLock (fun _ => rfl) hdata
  rw [File.OpenForOwner, hopen, hlock]
  exact h

theorem File.OpenForOwner.new (flags : ℤ) (t₁ t₂ : Timespec)
    (hmalloc : isFlagSet flags oLock = true → OpenersGranted malloc) :
    (File.new malloc path flags fdClient t₁ t₂).OpenForOwner := by
  by_cases hlock : isFlagSet flags oLock = true
  · have hfd : (File.new malloc path flags fdClient t₁ t₂).fdLock = fdClient := if_pos hlock
    rw [File.OpenForOwner, hfd, File.items_new (hmalloc hlock)]
    exact .inr List.mem_cons_self
  · exact .inl (if_neg hlock)

theorem File.OpenForOwner.opened (h : f.OpenForOwner) (hwf : f.WF) (flags : ℤ) (t : Timespec)
    (htakes : isFlagSet flags oLock = true →
      (fdClient : ℤ) ∈ f.fdOpen.items ∨ f.fdOpen.Takes (openersGranted malloc)) :
    (f.opened malloc fdClient flags t).OpenForOwner := by
  have hitems := @File.WF.items_opened fdClient f hwf malloc flags t
  have hsub : f.fdOpen.items ⊆ (f.opened malloc fdClient flags t).fdOpen.items :=
    fun item hitem => by
    rcases hitems with ⟨hperm, -⟩ | ⟨-, -, hperm⟩
    · exact hperm.symm.subset hitem
    · exact hperm.symm.subset (List.mem_append_left _ hitem)
  rw [File.OpenForOwner, File.fdLock_opened]
  split_ifs with hlock
  · refine .inr ?_
    rcases hitems with ⟨hperm, hmem⟩ | ⟨-, -, hperm⟩
    · exact hsub ((htakes hlock).elim id hmem)
    · exact hperm.symm.subset (List.mem_append_right _ List.mem_cons_self)
  · exact h.imp_right fun hi => hsub hi

theorem File.OpenForOwner.closed (h : f.OpenForOwner) (hwf : f.WF) (hnodup : f.fdOpen.items.Nodup) :
    (f.closed fdClient).OpenForOwner := by
  rw [File.OpenForOwner, @File.WF.items_closed fdClient f hwf, hnodup.mem_erase_iff, File.closed]
  dsimp only
  split_ifs with hl
  · exact .inl rfl
  · exact h.imp_right fun hi => ⟨hl, hi⟩

/-- A request that locks files only where there is memory for its client. -/
theorem FileSystem.Effect.openForOwner_change {fs fs' : FileSystem} {h : Handler} {l : Local}
    {out : Except Sa FileSystem.Outcome} (he : fs.Effect cfg fdClient l.malloc req readings out fs')
    (hn : (fs.files.map File.pathName).Nodup) (hf : f ∈ fs.files) (hwf : f.WF)
    (hnodup : f.fdOpen.items.Nodup) (hopen : f.OpenForOwner)
    (htakes : fs.TakesOwner cfg (.request h fdClient l req readings (errorOf out))) :
    (req.change l.malloc fdClient readings f).OpenForOwner := by
  by_cases hp : req.path? = some f.pathName
  case neg => rwa [Request.change_of_ne hp]
  rw [Request.change_of_eq hp]
  cases he with
  | @refused req code href =>
    rw [← Request.change_of_eq hp, FileSystem.change_of_refusal href hf]
    exact hopen
  | @opened path flags t g hc hg href =>
    obtain rfl : path = f.pathName := Option.some.inj hp
    obtain rfl : g = f := Option.some.inj (hg.symm.trans (FileSystem.find?_of_mem hn hf))
    refine hopen.opened hwf flags t fun hlock => ?_
    have := htakes hlock href
    rwa [hg] at this
  | closed => exact hopen.closed hwf hnodup
  | @noMemory req a hreq =>
    rw [hreq.apply_nil]
    exact hopen
  | _ => exact hopen

/-- A step that locks files only where there is memory leaves every owner among the openers. -/
theorem FileServer.Step.openForOwner (h : FileServer.Step cfg φ e φ')
    (hn : (φ.fs.files.map File.pathName).Nodup) (hwf : ∀ f ∈ φ.fs.files, f.WF)
    (hnodup : ∀ f ∈ φ.fs.files, f.fdOpen.items.Nodup) (hopen : ∀ f ∈ φ.fs.files, f.OpenForOwner)
    (htakes : φ.fs.TakesOwner cfg e) (hf' : f' ∈ φ'.fs.files) : f'.OpenForOwner := by
  rcases h.origin hf' with ⟨hcreated, hnone⟩ | ⟨f, hf, hdata⟩
  · obtain ⟨h, fdClient, l, path, flags, t₁, t₂, rfl, rfl, hc⟩ := h.of_created hcreated
    refine File.OpenForOwner.new flags t₁ t₂ fun hlock => ?_
    have hrefusal : φ.fs.refusal cfg fdClient (.openFile path flags) = none := by
      rw [FileSystem.refusal, if_pos hc, show φ.fs.find? path = none from hnone]
      rfl
    have hgranted := htakes hlock hrefusal
    rwa [show φ.fs.find? path = none from hnone] at hgranted
  · refine File.OpenForOwner.congr ?_ hdata
    cases h with
    | request he => exact he.openForOwner_change hn hf (hwf f hf) (hnodup f hf) (hopen f hf) htakes
    | disconnect => exact (hopen f hf).closed (hwf f hf) (hnodup f hf)
    | unread | reply => exact hopen f hf

/-! ### Runs -/

/-- The server and its files, with the openers and the owners connected. -/
structure Sessions.Attended (cfg : ServerConfig) (x : Sessions) : Prop where
  refines : ∃ φ, x.server.Refines cfg φ
  files : ∀ f ∈ x.server.store.fileSystem.files, f.Attended x.connected

theorem Sessions.Step.attended {x x' : Sessions} {e : SessionEvent} (h : Sessions.Step cfg x e x')
    (hx : x.Attended cfg) : x'.Attended cfg := by
  obtain ⟨⟨φ, hr⟩, hfiles⟩ := hx
  cases h with
  | accept => exact ⟨⟨φ, hr⟩, fun f hf => (hfiles f hf).mono (Finset.subset_insert _ _)⟩
  | server hstep hclient =>
    obtain ⟨φ', hstep', hr'⟩ := hstep.refines hr
    refine ⟨⟨φ', hr'⟩, fun f hf => ?_⟩
    rw [hr'.fs] at hf
    rw [hr.fs] at hfiles
    exact hstep'.attended hfiles hr.wf_files hclient hf

theorem Sessions.attended_init : (⟨⟨.initial, none⟩, ∅⟩ : Sessions).Attended cfg := by
  refine ⟨⟨⟨.empty, none⟩, ⟨[], idle_initial, not_replying⟩, fileSystem_initial, rfl⟩, ?_⟩
  rw [fileSystem_initial]
  exact nofun

/-- In every run, with any memory, the openers of a stored file are connected and different and
its owner is connected. -/
theorem attended_of_run {tr : List SessionEvent} {x : Sessions} (h : Run (sessionSystem cfg) tr x) :
    x.Attended cfg := by
  refine h.induction (I := fun _ x => x.Attended cfg) ?_ fun _ _ _ _ _ hx hstep => hstep.attended hx
  intro x hx
  obtain rfl : x = ⟨⟨.initial, none⟩, ∅⟩ := hx
  exact Sessions.attended_init

/-- A client that is accepted has no file open and no file locked. -/
theorem Sessions.Attended.accepted {x x' : Sessions} (hx : x.Attended cfg)
    (h : (sessionSystem cfg).step x (.accept fdClient) x')
    (hf : f ∈ x'.server.store.fileSystem.files) :
    (fdClient : ℤ) ∉ f.fdOpen.items ∧ f.fdLock ≠ fdClient := by
  cases h with
  | accept hnew =>
    refine ⟨fun hitem => ?_, fun hlock => ?_⟩
    · obtain ⟨fd, hfd, he⟩ := (hx.files f hf).connected _ hitem
      exact hnew (Int.ofNat_inj.1 he ▸ hfd)
    · rcases (hx.files f hf).owner with hl | ⟨fd, hfd, he⟩
      · omega
      · exact hnew (Int.ofNat_inj.1 (hlock.symm.trans he) ▸ hfd)

/-- The condition on a step. -/
def SessionEvent.TakesOwner (cfg : ServerConfig) (x : Sessions) : SessionEvent → Prop
  | .accept _ => True
  | .server e => x.server.store.fileSystem.TakesOwner cfg e

instance (cfg : ServerConfig) (x : Sessions) : (e : SessionEvent) → Decidable (e.TakesOwner cfg x)
  | .accept _ => instDecidableTrue
  | .server e => inferInstanceAs (Decidable (x.server.store.fileSystem.TakesOwner cfg e))

/-- In every run in which every request that locks a file finds memory for its client among the
openers, the openers of a stored file are connected and different, and its owner is one of them;
and a client that is accepted has no file open and no file locked. -/
theorem owned_of_run {tr : List SessionEvent} {x : Sessions}
    (h : Run ((sessionSystem cfg).restrict fun x e => e.TakesOwner cfg x) tr x) :
    (∀ f ∈ x.server.store.fileSystem.files, f.Owned x.connected) ∧
      ∀ fdClient x', (sessionSystem cfg).step x (.accept fdClient) x' →
        ∀ f ∈ x'.server.store.fileSystem.files,
          (fdClient : ℤ) ∉ f.fdOpen.items ∧ f.fdLock ≠ fdClient := by
  have hattended := attended_of_run h.of_restrict
  have hopen : x.Attended cfg ∧ ∀ f ∈ x.server.store.fileSystem.files, f.OpenForOwner := by
    refine h.induction (I := fun _ x => x.Attended cfg ∧
      ∀ f ∈ x.server.store.fileSystem.files, f.OpenForOwner) ?_ ?_
    · intro x hx
      obtain rfl : x = ⟨⟨.initial, none⟩, ∅⟩ := hx
      refine ⟨Sessions.attended_init, ?_⟩
      rw [fileSystem_initial]
      exact nofun
    · rintro - x e x' - ⟨hx, hopen⟩ ⟨htakes, hstep⟩
      refine ⟨hstep.attended hx, ?_⟩
      obtain ⟨⟨φ, hr⟩, hfiles⟩ := hx
      cases hstep with
      | accept => exact hopen
      | @server σ σ' connected e hstep =>
        obtain ⟨φ', hstep', hr'⟩ := hstep.refines hr
        change σ.store.fileSystem.TakesOwner cfg e at htakes
        rw [hr.fs] at hopen hfiles htakes
        rw [hr'.fs]
        exact fun f hf => hstep'.openForOwner hr.sound.names hr.wf_files
          (fun f hf => (hfiles f hf).nodup) hopen htakes hf
  refine ⟨fun f hf => ?_, fun fdClient x' hstep f hf => hattended.accepted hstep hf⟩
  exact ⟨(hattended.files f hf).nodup, hopen.2 f hf, (hattended.files f hf).connected⟩

/-! ### Computed runs -/

instance (connected : Finset ℕ) : (e : Event) → Decidable (e.OnBehalf connected)
  | .request _ _ _ _ _ _ | .unread _ _ _ | .disconnect _ => inferInstanceAs (Decidable (_ ∈ _))
  | .reply _ => instDecidableTrue

/-- What happens next. -/
inductive SessionAction
  /-- A client is accepted. -/
  | accept (fdClient : ℕ)
  /-- Something happens in the server. -/
  | server (a : ServerAction)

/-- The step, if there is one. -/
def Sessions.next (cfg : ServerConfig) (x : Sessions) :
    SessionAction → Option (SessionEvent × Sessions)
  | .accept fdClient =>
    if fdClient ∉ x.connected ∧ fdClient < fdSetSize then
      some (.accept fdClient, ⟨x.server, insert fdClient x.connected⟩)
    else none
  | .server a =>
    match x.server.next cfg a with
    | some (e, σ') =>
      if e.OnBehalf x.connected then some (.server e, ⟨σ', e.connectedAfter x.connected⟩) else none
    | none => none

theorem computes_sessions (cfg : ServerConfig) :
    Computes (sessionSystem cfg) (Sessions.next cfg) := by
  rintro ⟨σ, connected⟩ a e x' hnext
  cases a with
  | accept fdClient =>
    simp only [Sessions.next] at hnext
    split_ifs at hnext with hnew
    cases hnext
    exact .accept hnew.1 hnew.2
  | server a =>
    simp only [Sessions.next] at hnext
    split at hnext
    · rename_i e σ' hstep
      split_ifs at hnext with hclient
      cases hnext
      exact .server (computes_next cfg _ _ _ _ hstep) hclient
    · cases hnext

/-- A configuration with room for two files. -/
def twoFiles : ServerConfig :=
  { ServerConfig.small with maxSpace := 8, maxSpace_lt := Nat.le_of_ble_eq_true rfl }

/-- What a client does in a computed run. -/
def SessionAction.calls (fdClient : ℕ) (l : Local) (call : Api.Call) : List SessionAction :=
  (call.actions fdClient l).map .server

/-- Three clients come; two of them create and lock a file, the third opens the first file.
Then one client leaves, and its file is expelled when another is created. -/
theorem owned_of_run_three : ∃ x : Sessions, x.connected = {7, 8} ∧
    x.server.store.fileSystem.files.map (fun f => (f.pathName, f.fdLock, f.fdOpen.items)) =
      [([99], 8, [8]), ([97], 7, [8, 7])] ∧
    (∀ f ∈ x.server.store.fileSystem.files, f.Owned x.connected) ∧
    ∀ x', (sessionSystem twoFiles).step x (.accept 9) x' →
      ∀ f ∈ x'.server.store.fileSystem.files, (9 : ℤ) ∉ f.fdOpen.items ∧ f.fdLock ≠ 9 := by
  obtain ⟨tr, x, hrun, hconn, hfiles⟩ := ((computes_sessions twoFiles).checked
      fun x e => e.TakesOwner twoFiles x).exists_run ⟨⟨.initial, none⟩, ∅⟩ rfl
    ([.accept 7, .accept 8, .accept 9] ++
      SessionAction.calls 7 (.at 0) (.openFile [97] (oCreate + oLock)) ++
      SessionAction.calls 9 (.at 1) (.openFile [98] (oCreate + oLock)) ++
      SessionAction.calls 8 (.at 2) (.openFile [97] 0) ++ [.server (.leave 9 (.at 3))] ++
      SessionAction.calls 8 (.at 4) (.openFile [99] (oCreate + oLock)))
    (fun _ x => x.connected = {7, 8} ∧ x.server.store.fileSystem.files.map
      (fun f => (f.pathName, f.fdLock, f.fdOpen.items)) = [([99], 8, [8]), ([97], 7, [8, 7])])
    (by decide +kernel)
  have howned := owned_of_run hrun
  exact ⟨x, hconn, hfiles, howned.1, howned.2 9⟩

/-- Without memory for the node of its creator a file is locked and not open. -/
theorem not_owned : ¬∀ (cfg : ServerConfig) (tr : List SessionEvent) (x : Sessions),
    Run (sessionSystem cfg) tr x →
      ∀ f ∈ x.server.store.fileSystem.files, f.Owned x.connected := by
  intro hall
  obtain ⟨tr, x, hrun, f, hf, hlock, hitems⟩ := (computes_sessions twoFiles).exists_run
    ⟨⟨.initial, none⟩, ∅⟩ rfl
    (.accept 7 :: (creationWithout .hashtblNode).map .server)
    (fun _ x => ∃ f ∈ x.server.store.fileSystem.files, f.fdLock = 7 ∧ f.fdOpen.items = [])
    (by decide +kernel)
  rcases (hall twoFiles tr x hrun f hf).lock with hnone | hopen
  · rw [hlock] at hnone
    cases hnone
  · rw [hitems] at hopen
    cases hopen

end Owned

end StorageServer
