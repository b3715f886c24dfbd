import StorageServer.Progress

/-!
# One request

What one call of a handler does, from the reading of its request to the end of its reply :
if it returns the code of an error other than `SA_ERROR`, nothing has changed
(`unchanged_of_error`); a write leaves every other file as it is or gives it up, and never
both (`wrote_of_request`); and the readers and writers of every file are as many as
before, unless a `read_file` could not send its reply (`counts_of_handler`).
-/

open Programs Transitions

namespace StorageServer

/-- The handler `h`, called for a client in the store `s`, reads the request, if it can, and
returns `code` with the store `s'`. -/
inductive Store.Handles (cfg : ServerConfig) (s : Store) (h : Handler) (fdClient : ℕ) (l : Local) :
    Option Request → Sa → Store → Prop
  | unread {code s'} (hstep : Server.Step cfg ⟨s, none⟩ (.unread h fdClient code) ⟨s', none⟩) :
      Handles cfg s h fdClient l none code s'
  | served {req readings refused σ code s'}
      (hrequest : Server.Step cfg ⟨s, none⟩ (.request h fdClient l req readings refused) σ)
      (hreply : Server.Step cfg σ (.reply code) ⟨s', none⟩) :
      Handles cfg s h fdClient l (some req) code s'

section Handles

variable {cfg : ServerConfig} {fdClient : ℕ} {h : Handler} {l : Local} {req : Request} {code : Sa}
  {s s' : Store} {xs : List (FilePtr × File)} {tr : List Event}

/-- What has happened when a handler has served a request. -/
theorem Store.Handles.served_cases {o : Option Request} (hh : s.Handles cfg h fdClient l o code s')
    (hs : s.Idle cfg xs) :
    (o = none ∧ s' = s ∧ (code = .error ∨ code = .close)) ∨
      ∃ req l₁ l₂ s₂ r xs' readings out, o = some req ∧
        Served cfg fdClient req l₁ s r l₂ s₂ xs' readings out ∧ l₁.sends = l.sends ∧
        code = FileSystem.Outcome.code l₂ out ∧
        s'.fileSystem = s₂.fileSystem.release out code ∧
        ((∃ c, r = .error c) → s' = s) := by
  cases hh with
  | unread hstep =>
    cases hstep with
    | unread hread =>
      obtain ⟨rfl, -, hunread, -⟩ := of_readRequest hread
      exact Or.inl ⟨rfl, rfl, hunread _ rfl⟩
  | served hrequest hreply =>
    cases hrequest with
    | request hread hserve hclock hfit =>
      obtain ⟨rfl, ⟨inp, rfl⟩, -, hreq⟩ := of_readRequest hread
      obtain ⟨xs', readings, out, hserved⟩ := of_storeSection hs (hreq _ rfl) hfit hserve
      cases hreply with
      | reply hrun =>
        obtain ⟨hcode, -, hfs⟩ := of_finish hserved.idle hserved.shown hrun
        refine Or.inr ⟨_, _, _, _, _, _, _, _, rfl, hserved, rfl, hcode, hfs, ?_⟩
        rintro ⟨c, rfl⟩
        obtain rfl := hserved.unchanged c rfl
        have hrun : Res.ok (c, _) = Res.ok (code, _) := hrun
        cases hrun
        rfl

/-- A reply to a request that has passed is a success or an `SA_ERROR`. -/
theorem FileSystem.Outcome.code_ok (l : Local) (o : Outcome) :
    Outcome.code l (.ok o) = .error ∨ Outcome.code l (.ok o) = .success := by
  unfold Outcome.code
  dsimp only
  split_ifs
  · exact Or.inl rfl
  · exact Or.inr rfl

/-- A request that fails on the client or on a check leaves the store as it was. -/
theorem unchanged_of_error {o : Option Request} (hrun : Run (serverSystem cfg) tr ⟨s, none⟩)
    (hh : s.Handles cfg h fdClient l o code s') (hsuccess : code ≠ .success)
    (herror : code ≠ .error) : s' = s := by
  obtain ⟨xs, hs⟩ := idle_of_run hrun
  rcases hh.served_cases hs with ⟨-, hs', -⟩ |
    ⟨req, l₁, l₂, s₂, r, xs', readings, out, -, hserved, -, hcode, -, hsame⟩
  · exact hs'
  · cases hr : r with
    | error c => exact hsame ⟨c, hr⟩
    | ok reply =>
      obtain ⟨o, rfl⟩ : ∃ o, out = .ok o := by
        have := hserved.shown
        rw [hr] at this
        cases this <;> exact ⟨_, rfl⟩
      rcases FileSystem.Outcome.code_ok l₂ o with ho | ho
      · exact absurd (hcode.trans ho) herror
      · exact absurd (hcode.trans ho) hsuccess

/-- What a handler does, computed. -/
def Store.handle (cfg : ServerConfig) (s : Store) (h : Handler) (fdClient : ℕ) (l : Local) :
    Option (Option Request × Sa × Store) :=
  match Server.next cfg ⟨s, none⟩ (.call h fdClient l) with
  | some (.unread _ _ code, ⟨s', none⟩) => some (none, code, s')
  | some (.request _ _ _ req _ _, σ) =>
    match Server.next cfg σ .reply with
    | some (.reply code, ⟨s', none⟩) => some (some req, code, s')
    | _ => none
  | _ => none

theorem Store.handles_of_handle {o : Option Request}
    (hh : s.handle cfg h fdClient l = some (o, code, s')) :
    s.Handles cfg h fdClient l o code s' := by
  -- what is called is what the event names
  have hcall : ∀ {e : Event} {σ : Server},
      Server.next cfg ⟨s, none⟩ (.call h fdClient l) = some (e, σ) →
      (∀ h' fdClient' code', e = .unread h' fdClient' code' → h' = h ∧ fdClient' = fdClient) ∧
      ∀ h' fdClient' l' req readings refused, e = .request h' fdClient' l' req readings refused →
        h' = h ∧ fdClient' = fdClient ∧ l' = l := by
    intro e σ hnext
    simp only [Server.next] at hnext
    split at hnext
    · split at hnext
      · split_ifs at hnext
        cases hnext
        exact ⟨fun _ _ _ he => (by cases he), fun _ _ _ _ _ _ he =>
          (by cases he; exact ⟨rfl, rfl, rfl⟩)⟩
      · cases hnext
    · cases hnext
      exact ⟨fun _ _ _ he => (by cases he; exact ⟨rfl, rfl⟩), fun _ _ _ _ _ _ he => (by cases he)⟩
    · cases hnext
  unfold Store.handle at hh
  split at hh
  · rename_i h' fdClient' code' s₁ hnext
    cases hh
    obtain ⟨rfl, rfl⟩ := (hcall hnext).1 _ _ _ rfl
    exact .unread (computes_next cfg _ _ _ _ hnext)
  · rename_i h' fdClient' l' req readings refused σ hnext
    obtain ⟨rfl, rfl, rfl⟩ := (hcall hnext).2 _ _ _ _ _ _ rfl
    split at hh
    · rename_i code' s₁ hreply
      cases hh
      exact .served (computes_next cfg _ _ _ _ hnext) (computes_next cfg _ _ _ _ hreply)
    · cases hh
  · cases hh

/-- An example of `unchanged_of_error` : there are two files, and a client that has not opened the
second appends to it. -/
theorem unchanged_of_error_noOpen : ∃ s s' : Store,
    s.fileSystem.files.map (fun f => (f.pathName, f.contents)) = [([99], []), ([98], [3, 4])] ∧
    s.Handles .small .appendToFile 8 ((Local.at 5).left
      (Api.Call.appendToFile [98] [5] fun _ => 0).arguments)
      (some (.appendToFile [98] 1 [5])) .noOpen
        s' ∧ s' = s := by
  obtain ⟨tr, ⟨s, replying⟩, hrun, hnone, hfiles, hhandle⟩ := (computes_next .small).exists_run
    ⟨.initial, none⟩ rfl (expulsions.take 10)
    (fun _ σ => σ.replying.isNone = true ∧
      σ.store.fileSystem.files.map (fun f => (f.pathName, f.contents)) =
        [([99], []), ([98], [3, 4])] ∧
      ((σ.store.handle .small .appendToFile 8 ((Local.at 5).left
        (Api.Call.appendToFile [98] [5] fun _ => 0).arguments)).any fun r =>
          r.1 = some (.appendToFile [98] 1 [5]) ∧ r.2.1 = .noOpen) = true) (by decide +kernel)
  obtain rfl : replying = none := Option.isNone_iff_eq_none.1 hnone
  obtain ⟨⟨o, code, s'⟩, hhandle, hr⟩ := (Option.any_eq_true _ _).1 hhandle
  obtain ⟨rfl, rfl⟩ := of_decide_eq_true hr
  have hh := Store.handles_of_handle hhandle
  exact ⟨s, s', hfiles, hh, unchanged_of_error hrun hh (by decide) (by decide)⟩

end Handles

/-! ## Writes -/

/-- The path to which a request writes, and what it writes. -/
def Request.target : Request → Option (CString × List UInt8)
  | .writeFile path _ buf => some (path, buf)
  | .appendToFile path _ buf => some (path, buf)
  | _ => none

/-- What the contents of the file have to be before. -/
def Request.writesInto : Request → List UInt8 → Prop
  | .writeFile _ _ _, contents => contents = []
  | _, _ => True

/-- A write of `buf` at `path` leaves the store `s'`, and the files `toExpell` are to be sent :
the contents of the file at the path have grown by `buf`, and every other file is stored as
it was, or is one of those to be sent. -/
structure Store.Wrote (s : Store) (path : CString) (buf : List UInt8) (s' : Store)
    (toExpell : List FilePtr) : Prop where
  target : ∃ f f', s.fileSystem.find? path = some f ∧ s'.fileSystem.find? path = some f' ∧
    f'.contents = f.contents ++ buf ∧ f'.size = f'.contents.length
  others : ∃ expelled : List File, toExpell.map s'.heap = expelled.map (some ∘ File.writeLocked) ∧
    (s.fileSystem.others path).Perm (expelled ++ s'.fileSystem.others path)
  names : ((s.fileSystem.others path).map File.pathName).Nodup

section Writes

variable {cfg : ServerConfig} {fdClient : ℕ} {h : Handler} {l l' : Local} {req : Request}
  {s s' : Store} {xs xs' : List (FilePtr × File)} {tr : List Event} {path : CString}
  {buf : List UInt8} {readings : List Timespec} {r : Except Sa Reply}

/-- A file that grows with room made for it, and the objects that are to be sent. -/
theorem Store.Idle.wrote (hs : s.Idle cfg xs) {f : File} (hf : s.fileSystem.find? path = some f)
    {g : File → File} (hname : ∀ f, (g f).pathName = f.pathName)
    (hcontents : (g f).contents = f.contents ++ buf) (hsize : (g f).size = (g f).contents.length)
    {size : ℕ} (hfs : s'.fileSystem = ((s.fileSystem.update path g).makeRoom cfg path size).2)
    {ys : List (FilePtr × File)}
    (hys : ys.map Prod.snd = ((s.fileSystem.update path g).makeRoom cfg path size).1)
    (howns : s'.Owns xs' ys) : s.Wrote path buf s' (ys.map Prod.fst) := by
  obtain ⟨hmem, rfl⟩ := FileSystem.find?_eq_some hf
  have hnames : ((s.fileSystem.update f.pathName g).files.map File.pathName).Nodup := by
    rw [FileSystem.map_name_update hname]
    exact hs.sound.names
  refine ⟨⟨f, g f, hf, ?_, hcontents, hsize⟩, ⟨ys.map Prod.snd, ?_, ?_⟩, ?_⟩
  · have hfind := @FileSystem.find?_makeRoom cfg _ _ size hnames (FileSystem.mem_update hmem)
    rwa [hname, ← hfs] at hfind
  · rw [List.map_map, List.map_map]
    exact List.map_congr_left fun y hy => howns.heap y hy
  · rw [hys, hfs, ← FileSystem.others_update hname]
    exact FileSystem.others_makeRoom hnames
  · exact hs.sound.names.sublist (List.filter_sublist.map _)

/-- A write of at least one byte that goes on to reply has written it, and neither lost nor
changed a file. -/
theorem wrote_of_request (hrun : Run (serverSystem cfg) tr ⟨s, none⟩)
    (hstep : Server.Step cfg ⟨s, none⟩ (.request h fdClient l req readings none)
      ⟨s', some (l', r)⟩)
    (htarget : req.target = some (path, buf)) (hbuf : buf ≠ []) :
    (∃ toExpell, r = .ok (.expelled toExpell) ∧ s.Wrote path buf s' toExpell) ∧
      ∃ f, s.fileSystem.find? path = some f ∧ req.writesInto f.contents := by
  obtain ⟨xs, hs⟩ := idle_of_run hrun
  generalize he : Event.request h fdClient l req readings none = e at hstep
  generalize hσ : (⟨s', some (l', r)⟩ : Server) = σ at hstep
  cases hstep with
  | @request _ s₁ _ _ _ _ l₁ _ _ _ _ hread hserve hclock hfit =>
    cases hσ
    obtain ⟨rfl, rfl, rfl, rfl, rfl, hpass⟩ := Event.request.inj he
    obtain ⟨rfl, -, -, hreq⟩ := of_readRequest hread
    obtain ⟨xs', readings', out, hserved⟩ := of_storeSection hs (hreq _ rfl) hfit hserve
    have hwf : req.WF := hreq _ rfl
    have hout : errorOf out = none := by
      rw [← errorOf_of_shows hserved.shown]
      exact hpass.symm
    have heffect := hserved.effect
    generalize hfs : s'.fileSystem = fs' at heffect
    cases heffect with
    | refused => cases hout
    | noMemory => cases hout
    | unset => cases hout
    | @written path size buf t f hf hrefusal =>
      cases htarget
      obtain ⟨-, -, hzero, -⟩ := (FileSystem.refusal_writeFile_eq_none hf).1 hrefusal
      have hnil : f.contents = [] :=
        List.eq_nil_of_length_eq_zero ((hs.wf_files (FileSystem.find?_eq_some hf).1).trans hzero)
      have hshown := hserved.shown
      generalize hys : FileSystem.Outcome.expelled _ = o at hshown
      cases hshown with
      | expelled howns =>
        refine ⟨⟨_, rfl,
          hs.wrote (g := File.written (toSize size) buf t) hf (fun _ => rfl) ?_ ?_ hfs
          (by injection hys with h; exact h.symm) howns⟩, f, hf, hnil⟩
        · rw [hnil]
          rfl
        · exact hwf.symm
      | _ => cases hys
    | @appended path size buf t f hn hf hrefusal =>
      cases htarget
      have hshown := hserved.shown
      generalize hys : FileSystem.Outcome.expelled _ = o at hshown
      cases hshown with
      | expelled howns =>
        refine ⟨⟨_, rfl, hs.wrote (g := File.appended buf t) hf (fun _ => rfl) rfl ?_ hfs
          (by injection hys with h; exact h.symm) howns⟩, f, hf, trivial⟩
        have := hs.wf_files (FileSystem.find?_eq_some hf).1
        simp [File.appended, this]
      | _ => cases hys
    | appendedNothing =>
      cases htarget
      exact absurd (List.eq_nil_of_length_eq_zero hwf) hbuf
    | created | opened | closed | read | readN | removed | removedNothing => cases htarget
  | unread | disconnect => cases he

/-- An example of `wrote_of_request` : a write of two bytes to the one file, for which the other is
expelled. -/
theorem wrote_of_request_expulsion : ∃ (s s' : Store) (toExpell : List FilePtr),
    s.fileSystem.files.map (fun f => (f.pathName, f.contents)) = [([99], []), ([98], [3, 4])] ∧
    s'.fileSystem.files.map (fun f => (f.pathName, f.contents)) = [([99], [5, 6])] ∧
    s.Wrote [99] [5, 6] s' toExpell := by
  obtain ⟨tr, ⟨s, replying⟩, hrun, hnone, hfiles, hnext⟩ := (computes_next .small).exists_run
    ⟨.initial, none⟩ rfl (expulsions.take 10)
    (fun _ σ => σ.replying.isNone = true ∧
      σ.store.fileSystem.files.map (fun f => (f.pathName, f.contents)) =
        [([99], []), ([98], [3, 4])] ∧
      ((Server.next .small ⟨σ.store, none⟩ (.call .writeFile 7 ((Local.at 5).left
        (Api.Call.writeFile [99] (some [5, 6]) fun _ => 0).arguments))).any fun r =>
          r.1.accepted = some (.writeFile [99] 2 [5, 6]) ∧ r.2.replying.isSome = true ∧
          r.2.store.fileSystem.files.map (fun f => (f.pathName, f.contents)) =
            [([99], [5, 6])]) = true) (by decide +kernel)
  obtain rfl : replying = none := Option.isNone_iff_eq_none.1 hnone
  obtain ⟨⟨e, ⟨s', replying⟩⟩, hnext, he⟩ := (Option.any_eq_true _ _).1 hnext
  obtain ⟨haccepted, hsome, hfiles'⟩ := of_decide_eq_true he
  obtain ⟨h, fdClient, l, readings, rfl⟩ := Event.eq_of_accepted haccepted
  obtain ⟨⟨l', r⟩, rfl⟩ := Option.isSome_iff_exists.1 hsome
  obtain ⟨⟨toExpell, -, hwrote⟩, -⟩ :=
    wrote_of_request hrun (computes_next .small _ _ _ _ hnext) rfl (by decide)
  exact ⟨s, s', toExpell, hfiles, hfiles', hwrote⟩

end Writes

/-! ## Readers and writers -/

/-- How many readers and writers a file has. -/
def File.counts (f : File) : ℕ × ℕ :=
  (f.nReaders, f.nWriters)

/-- Every file of `fs'` has as many readers and writers as it had in `fs`, or is a new one that
has none. -/
def FileSystem.KeepsCounts (fs fs' : FileSystem) : Prop :=
  ∀ f' ∈ fs'.files, (∃ f ∈ fs.files, f.pathName = f'.pathName ∧ f.counts = f'.counts) ∨
    (fs.find? f'.pathName = none ∧ f'.counts = (0, 0))

/-- A `read_file` passes its checks, and then one of its sends fails : that of the code, that
of the size, or that of the contents, if there are any. -/
def FileSystem.LosesReader (fs : FileSystem) (fdClient : ℕ) (l : Local) : Option Request → Prop
  | some (.readFile path) => ∃ f, fs.find? path = some f ∧
      f.fdOpen.contains fdClient = true ∧
      ∃ r ∈ l.sends.take (if f.size = 0 then 2 else 3), r.code = -1
  | _ => False

instance (fs : FileSystem) (fdClient : ℕ) (l : Local) :
    (o : Option Request) → Decidable (fs.LosesReader fdClient l o)
  | some (.readFile path) => inferInstanceAs (Decidable (∃ f ∈ fs.find? path, _ ∧ ∃ r ∈ _, _))
  | none | some (.openFile _ _) | some (.closeFile _) | some (.writeFile _ _ _)
  | some (.appendToFile _ _ _) | some (.readNFiles _) | some (.removeFile _) => instDecidableFalse

/-- Pieces that are not empty take one send each. -/
theorem sendAll_eq_neg_one_iff {pieces : List (List UInt8)} (hne : ∀ p ∈ pieces, p ≠ [])
    (l : Local) :
    (l.sendAll pieces).1 = -1 ↔ ∃ r ∈ l.sends.take pieces.length, r.code = -1 := by
  induction pieces generalizing l with
  | nil => simp [Local.sendAll]
  | cons bytes rest ih =>
    have hbytes : bytes ≠ [] := hne bytes List.mem_cons_self
    have ih := ih fun p hp => hne p (List.mem_cons_of_mem _ hp)
    rw [Local.sendAll]
    unfold Local.writen
    simp only [hbytes, if_false]
    cases hl : l.sends with
    | nil =>
      have hne : ¬(1 : ℤ) = -1 := by decide
      dsimp only
      rw [if_neg hne, ih]
      simp
    | cons r sends =>
      simp only [List.length_cons, List.take_succ_cons, List.mem_cons, exists_eq_or_imp]
      split_ifs with hr
      · simp [hr]
      · rw [ih]
        simp [hr]

namespace FileSystem

variable {cfg : ServerConfig} {fdClient : ℕ} {fs fs' fs'' : FileSystem} {path : CString} {f : File}

theorem KeepsCounts.of_subset (h : fs'.files ⊆ fs.files) : fs.KeepsCounts fs' :=
  fun f hf => Or.inl ⟨f, h hf, rfl, rfl⟩

theorem KeepsCounts.update {g : File → File} (hname : ∀ f, (g f).pathName = f.pathName)
    (hcounts : ∀ f, (g f).counts = f.counts) : fs.KeepsCounts (fs.update path g) := by
  intro f' hf'
  obtain ⟨f, hf, rfl⟩ := List.mem_map.1 hf'
  refine Or.inl ⟨f, hf, ?_⟩
  split_ifs
  · exact ⟨(hname f).symm, (hcounts f).symm⟩
  · exact ⟨rfl, rfl⟩

theorem KeepsCounts.makeRoom (h : fs.KeepsCounts fs') (size : ℕ) :
    fs.KeepsCounts (fs'.makeRoom cfg path size).2 := by
  intro f hf
  rw [files_makeRoom] at hf
  exact h f (List.mem_of_mem_filter hf)

/-- The files of a `read_n_files` have one more reader until it has replied. -/
theorem keepsCounts_readN (hn : (fs.files.map File.pathName).Nodup) (k : ℕ) (code : Sa) :
    fs.KeepsCounts (({ fs with files := (fs.files.take k).map File.readLocked ++ fs.files.drop k } :
      FileSystem).release (.ok (.readingN ((fs.files.take k).map File.readLocked))) code) := by
  have hnames : ((fs.files.take k).map File.readLocked).map File.pathName =
      (fs.files.take k).map File.pathName := by
    rw [List.map_map]
    rfl
  have hdisjoint : ((fs.files.take k).map File.pathName).Disjoint
      ((fs.files.drop k).map File.pathName) := by
    have := hn
    rw [← List.take_append_drop k fs.files, List.map_append] at this
    exact List.disjoint_of_nodup_append this
  intro f' hf'
  simp only [release, hnames] at hf'
  obtain ⟨g, hg, rfl⟩ := List.mem_map.1 hf'
  rcases List.mem_append.1 hg with hg | hg
  · obtain ⟨f, hf, rfl⟩ := List.mem_map.1 hg
    have hmem : f.readLocked.pathName ∈ (fs.files.take k).map File.pathName :=
      List.mem_map.2 ⟨f, hf, rfl⟩
    rw [if_pos hmem]
    exact Or.inl ⟨f, List.mem_of_mem_take hf, rfl, rfl⟩
  · have hnot : g.pathName ∉ (fs.files.take k).map File.pathName :=
      fun hm => hdisjoint hm (List.mem_map_of_mem hg)
    rw [if_neg hnot]
    exact Or.inl ⟨g, List.mem_of_mem_drop hg, rfl, rfl⟩

/-- Every request but a `read_file` keeps the counts, up to the end of its reply. -/
theorem Effect.keepsCounts {malloc : Allocation → Bool} {req : Request}
    {readings : List Timespec} {out : Except Sa Outcome}
    (he : fs.Effect cfg fdClient malloc req readings out fs') (hs : fs.Sound cfg) (code : Sa)
    (hread : ∀ f, out ≠ .ok (.reading f)) : fs.KeepsCounts (fs'.release out code) := by
  cases he with
  | refused | noMemory | closed | appendedNothing | removedNothing | unset =>
    first
    | exact KeepsCounts.of_subset (List.Subset.refl _)
    | exact KeepsCounts.update (fun _ => rfl) fun _ => rfl
  | @created path flags t₁ t₂ files' nlist' hc hf hp =>
    intro f' hf'
    have hmem : f' ∈ (fs.makePlace cfg).2.files ∨
        f' = File.new malloc path flags fdClient t₁ t₂ := by
      rcases hp with hp | ⟨-, hp⟩
      · simpa using hp.subset hf'
      · exact Or.inl (hp.subset hf')
    rcases hmem with hmem | rfl
    · exact Or.inl ⟨f', mem_makePlace hmem, rfl, rfl⟩
    · exact Or.inr ⟨hf, rfl⟩
  | opened => exact KeepsCounts.update (fun _ => rfl) fun _ => rfl
  | @written path size buf t =>
    exact (KeepsCounts.update (g := File.written (toSize size) buf t) (fun _ => rfl)
      fun _ => rfl).makeRoom _
  | @appended path size buf t =>
    exact (KeepsCounts.update (g := File.appended buf t) (fun _ => rfl) fun _ => rfl).makeRoom _
  | read => exact absurd rfl (hread _)
  | readN => exact keepsCounts_readN hs.names _ _
  | removed => exact KeepsCounts.of_subset List.filter_sublist.subset

end FileSystem

section Counts

variable {cfg : ServerConfig} {fdClient : ℕ} {h : Handler} {l l' : Local} {o : Option Request}
  {code : Sa} {s s' : Store} {xs : List (FilePtr × File)}

/-- The reply of `read_file` fails if one of its sends does. -/
theorem code_reading_iff {f : File} (hwf : f.contents.length = f.size)
    (hsends : l.sends = l'.sends) :
    FileSystem.Outcome.code l' (.ok (.reading f)) = .error ↔
      ∃ r ∈ l.sends.take (if f.size = 0 then 2 else 3), r.code = -1 := by
  have hlen : (FileSystem.Outcome.pieces (.ok (.reading f))).length =
      if f.size = 0 then 2 else 3 := by
    by_cases h0 : f.size = 0 <;> simp [FileSystem.Outcome.pieces, File.pieces, h0]
  have hne : ∀ p ∈ FileSystem.Outcome.pieces (.ok (.reading f)), p ≠ [] := by
    have hint : intBytes Sa.success.code ≠ [] := List.ne_nil_of_length_pos (by simp)
    have hsize : sizeBytes f.size ≠ [] := List.ne_nil_of_length_pos (by simp)
    by_cases h0 : f.size = 0
    · simp [FileSystem.Outcome.pieces, File.pieces, h0, hint, h0 ▸ hsize]
    · have htake : f.contents.take f.size ≠ [] :=
        List.ne_nil_of_length_pos (by rw [List.length_take]; omega)
      simp only [FileSystem.Outcome.pieces, File.pieces, h0, Bool.false_eq_true, if_false,
        List.nil_append, not_false_eq_true, ne_eq, if_true, List.singleton_append, List.mem_cons,
        List.not_mem_nil, or_false]
      rintro p (rfl | rfl | rfl)
      · exact hint
      · exact hsize
      · exact htake
  rw [← hlen, hsends, ← sendAll_eq_neg_one_iff hne]
  unfold FileSystem.Outcome.code
  dsimp only
  split_ifs with h <;> simp [h]

theorem Store.Handles.keepsCounts_iff (hs : s.Idle cfg xs)
    (hh : s.Handles cfg h fdClient l o code s') :
    s.fileSystem.KeepsCounts s'.fileSystem ↔ ¬s.fileSystem.LosesReader fdClient l o := by
  rcases hh.served_cases hs with ⟨rfl, rfl, -⟩ |
    ⟨req, l₁, l₂, s₂, r, xs', readings, out, rfl, hserved, hsends, hcode, hfs, -⟩
  · exact iff_of_true (FileSystem.KeepsCounts.of_subset (List.Subset.refl _)) id
  have heffect := hserved.effect
  have hsends' : l.sends = l₂.sends := by
    rw [← hsends, hserved.frame]
  rw [hfs]
  generalize s₂.fileSystem = fs' at heffect
  by_cases hread : ∀ f, out ≠ .ok (.reading f)
  · refine iff_of_true (heffect.keepsCounts hs.sound code hread) fun hloses => ?_
    cases heffect with
    | @refused req code hrefusal =>
      cases req with
      | readFile path =>
        obtain ⟨f, hf, hopen, -⟩ := hloses
        rw [(FileSystem.refusal_readFile_eq_none hf).2 hopen] at hrefusal
        cases hrefusal
      | _ => exact hloses
    | @noMemory req a hreq =>
      cases req with
      | writeFile | readNFiles => exact hloses
      | _ => exact hreq
    | read => exact hread _ rfl
    | _ => exact hloses
  · push Not at hread
    obtain ⟨g, rfl⟩ := hread
    cases heffect with
    | @read path t f hf hrefusal =>
      have hopen := (FileSystem.refusal_readFile_eq_none hf).1 hrefusal
      obtain ⟨hmem, rfl⟩ := FileSystem.find?_eq_some hf
      have hwf : f.contents.length = f.size := hs.wf_files hmem
      have hiff := code_reading_iff (f := (f.used t).readLocked) hwf hsends'
      have hloses : s.fileSystem.LosesReader fdClient l (some (.readFile f.pathName)) ↔
          code = .error := by
        rw [hcode, hiff]
        refine ⟨fun ⟨f', hf', _, hr⟩ => ?_, fun hr => ⟨f, hf, hopen, hr⟩⟩
        obtain rfl : f' = f := Option.some.inj (hf'.symm.trans hf)
        exact hr
      rw [hloses]
      rcases FileSystem.Outcome.code_ok l₂ (.reading (f.used t).readLocked) with he | he
      · obtain rfl : code = .error := hcode.trans he
        refine iff_of_false (fun hkeep => ?_) (not_not.2 rfl)
        have hlocked : (f.used t).readLocked ∈
            (s.fileSystem.update f.pathName fun f => (f.used t).readLocked).files :=
          FileSystem.mem_update (g := fun f => (f.used t).readLocked) hmem
        rcases hkeep _ hlocked with ⟨f', hf', hname, hcounts⟩ | ⟨hnone, -⟩
        · obtain rfl := hs.sound.ext hf' hmem hname
          have := congrArg Prod.fst hcounts
          simp [File.counts, File.used] at this
        · exact FileSystem.find?_eq_none hnone hmem rfl
      · obtain rfl : code = .success := hcode.trans he
        refine iff_of_true ?_ (by decide)
        intro f' hf'
        simp only [FileSystem.release, FileSystem.update, List.map_map, List.mem_map] at hf'
        obtain ⟨g, hg, rfl⟩ := hf'
        refine Or.inl ⟨g, hg, ?_⟩
        by_cases hname : g.pathName = f.pathName <;> simp [hname, File.counts, File.used]

/-- A step that is not a `read_file` that is going to lose a reader. -/
def FileSystem.KeepsReaders (fs : FileSystem) : Event → Prop
  | .request _ fdClient l req _ _ => ¬fs.LosesReader fdClient l (some req)
  | _ => True

instance (fs : FileSystem) : (e : Event) → Decidable (fs.KeepsReaders e)
  | .request _ _ _ _ _ _ => inferInstanceAs (Decidable (¬_))
  | .unread _ _ _ | .reply _ | .disconnect _ => instDecidableTrue

/-- No file has readers or writers. -/
def FileSystem.Free (fs : FileSystem) : Prop :=
  ∀ f ∈ fs.files, f.counts = (0, 0)

theorem FileSystem.Free.of_keepsCounts {fs fs' : FileSystem} (h : fs.Free)
    (hkeeps : fs.KeepsCounts fs') : fs'.Free := fun f' hf' => by
  rcases hkeeps f' hf' with ⟨f, hf, -, hcounts⟩ | ⟨-, hcounts⟩
  · rw [← hcounts, h f hf]
  · exact hcounts

/-- Nobody has a lock while nothing is replied, and what is being replied to is a request that keeps
the readers. -/
def Server.Frees (cfg : ServerConfig) (σ : Server) : Prop :=
  (σ.replying = none → σ.store.fileSystem.Free) ∧
    (σ.replying.isSome → ∃ s xs h fdClient l req readings refused, s.Idle cfg xs ∧
      s.fileSystem.Free ∧ ¬s.fileSystem.LosesReader fdClient l (some req) ∧
      Server.Step cfg ⟨s, none⟩ (.request h fdClient l req readings refused) σ)

/-- A step that keeps the readers. -/
theorem Server.Step.frees {σ σ' : Server} {e : Event} (hstep : Server.Step cfg σ e σ')
    (hidle : ∃ xs, σ.store.Idle cfg xs) (h : σ.Frees cfg)
    (hkeeps : σ.store.fileSystem.KeepsReaders e) : σ'.Frees cfg := by
  obtain ⟨xs, hs⟩ := hidle
  cases hstep with
  | request hread hserve hclock hfit =>
    refine ⟨fun hnone => (by cases hnone), fun _ => ?_⟩
    exact ⟨_, xs, _, _, _, _, _, _, hs, h.1 rfl, hkeeps, .request hread hserve hclock hfit⟩
  | unread hread =>
    obtain ⟨rfl, -⟩ := of_readRequest hread
    exact ⟨fun _ => h.1 rfl, fun hsome => (by cases hsome)⟩
  | reply hrun =>
    obtain ⟨s, ys, h', fdClient, l, req, readings, refused, hs', hfree, hkeeps', hrequest⟩ :=
      h.2 rfl
    have hh : s.Handles cfg h' fdClient l (some req) _ _ := .served hrequest (.reply hrun)
    exact ⟨fun _ => hfree.of_keepsCounts ((hh.keepsCounts_iff hs').2 hkeeps'),
      fun hsome => (by cases hsome)⟩
  | disconnect hrun =>
    obtain ⟨-, hfs⟩ := of_closeClient hs hrun
    refine ⟨fun _ f' hf' => ?_, fun hsome => (by cases hsome)⟩
    rw [hfs] at hf'
    obtain ⟨f, hf, rfl⟩ := List.mem_map.1 hf'
    exact h.1 rfl f hf

/-- In every run in which every `read_file` can send its reply, nobody has a lock between two
requests. -/
theorem free_of_run {s : Store} {tr : List Event}
    (h : Run ((serverSystem cfg).restrict fun σ e => σ.store.fileSystem.KeepsReaders e) tr
      ⟨s, none⟩) :
    s.fileSystem.Free := by
  have hinv : Server.Frees cfg ⟨s, none⟩ := by
    refine h.induction (I := fun _ σ => σ.Frees cfg) ?_ ?_
    · rintro σ rfl
      refine ⟨fun _ f hf => ?_, fun hsome => (by cases hsome)⟩
      rw [fileSystem_initial] at hf
      cases hf
    · rintro tr σ e σ' hrun ih ⟨hkeeps, hstep⟩
      exact hstep.frees (idle_of_run hrun.of_restrict) ih hkeeps
  exact hinv.1 rfl

/-- A handler that has returned has left the readers and writers of every file as they were,
unless it is a `read_file` that could not send its reply. -/
theorem counts_of_handler (hs : s.Idle cfg xs) (hh : s.Handles cfg h fdClient l o code s') :
    s.fileSystem.KeepsCounts s'.fileSystem ↔ ¬s.fileSystem.LosesReader fdClient l o :=
  hh.keepsCounts_iff hs

/-- An example of `counts_of_handler` : there are two files, and the second is read, once by a
client that is there and once by one that is gone. -/
theorem counts_of_handler_readFile : ∃ s s' s'' : Store,
    s.fileSystem.files.map (fun f => (f.pathName, f.contents)) = [([99], []), ([98], [3, 4])] ∧
    s.Handles .small .readFile 7 ((Local.at 5).left (Api.Call.readFile [98]).arguments)
      (some (.readFile [98])) .success s' ∧ s.fileSystem.KeepsCounts s'.fileSystem ∧
    s.Handles .small .readFile 7
      ({ Local.at 5 with sends := [.failed 0] }.left (Api.Call.readFile [98]).arguments)
      (some (.readFile [98])) .error s'' ∧ ¬s.fileSystem.KeepsCounts s''.fileSystem := by
  obtain ⟨tr, ⟨s, replying⟩, hrun, hnone, hfiles, hsent, hkeeps, hlost, hloses⟩ :=
    (computes_next .small).exists_run ⟨.initial, none⟩ rfl (expulsions.take 10)
    (fun _ σ => σ.replying.isNone = true ∧
      σ.store.fileSystem.files.map (fun f => (f.pathName, f.contents)) =
        [([99], []), ([98], [3, 4])] ∧
      ((σ.store.handle .small .readFile 7
        ((Local.at 5).left (Api.Call.readFile [98]).arguments)).any fun r =>
          r.1 = some (.readFile [98]) ∧ r.2.1 = .success) = true ∧
      ¬σ.store.fileSystem.LosesReader 7 ((Local.at 5).left (Api.Call.readFile [98]).arguments)
        (some (.readFile [98])) ∧
      ((σ.store.handle .small .readFile 7
        ({ Local.at 5 with sends := [.failed 0] }.left (Api.Call.readFile [98]).arguments)).any
          fun r => r.1 = some (.readFile [98]) ∧ r.2.1 = .error) = true ∧
      σ.store.fileSystem.LosesReader 7
        ({ Local.at 5 with sends := [.failed 0] }.left (Api.Call.readFile [98]).arguments)
        (some (.readFile [98]))) (by decide +kernel)
  obtain rfl : replying = none := Option.isNone_iff_eq_none.1 hnone
  obtain ⟨⟨o, code, s'⟩, hsent, hr⟩ := (Option.any_eq_true _ _).1 hsent
  obtain ⟨rfl, rfl⟩ := of_decide_eq_true hr
  obtain ⟨⟨o, code, s''⟩, hlost, hr⟩ := (Option.any_eq_true _ _).1 hlost
  obtain ⟨rfl, rfl⟩ := of_decide_eq_true hr
  obtain ⟨xs, hs⟩ := idle_of_run hrun
  have hsent := Store.handles_of_handle hsent
  have hlost := Store.handles_of_handle hlost
  exact ⟨s, s', s'', hfiles, hsent, (counts_of_handler hs hsent).2 hkeeps, hlost,
    fun hcounts => (counts_of_handler hs hlost).1 hcounts hloses⟩

/-- The client that has created a file reads it, and its connection breaks. -/
theorem exists_losesReader : ∃ (cfg : ServerConfig) (s : Store) (xs : List (FilePtr × File))
    (l : Local) (code : Sa) (s' : Store), s.Idle cfg xs ∧
    s.Handles cfg .readFile 0 l (some (.readFile [97])) code s' ∧
    s.fileSystem.LosesReader 0 l (some (.readFile [97])) := by
  obtain ⟨tr, s, xs, -, hs, -, hbytes, hfind⟩ :=
    exists_created ⟨8, 2, .LRU, by decide, by decide⟩ [97] 1 0
      ⟨by decide, by decide⟩ ⟨by decide, by decide⟩ (by decide) (by decide)
  have hfit : s.fileSystem.Fits (.readFile [97]) := by
    rw [FileSystem.Fits, hbytes]
    change 0 + 0 < 2 ^ 63
    decide
  let l : Local := .ofBytes [] [⟨0, 0⟩] [.failed 0]
  obtain ⟨l', p, s', hsends, -, hread⟩ := hs.read (l := l) 0 ⟨by decide, by decide⟩
    (fun _ => rfl) rfl hfind rfl (File.contains_new ⟨rfl, rfl⟩ ..) hfit
  exact ⟨_, s, xs, _, .error, s', hs, .served hread (reply_reading_failed hsends rfl), _, hfind,
    File.contains_new ⟨rfl, rfl⟩ .., .failed 0, List.mem_cons_self, rfl⟩

/-- Not every handler leaves the readers and writers of every file as they were. -/
theorem not_counts_of_handler : ¬∀ (cfg : ServerConfig) (s : Store) (xs : List (FilePtr × File))
    (h : Handler) (fdClient : ℕ) (l : Local) (o : Option Request) (code : Sa) (s' : Store),
    s.Idle cfg xs → s.Handles cfg h fdClient l o code s' →
      s.fileSystem.KeepsCounts s'.fileSystem := by
  intro hall
  obtain ⟨cfg, s, xs, l, code, s', hs, hh, hloses⟩ := exists_losesReader
  exact (hh.keepsCounts_iff hs).1 (hall cfg s xs _ _ _ _ _ _ hs hh) hloses

end Counts

end StorageServer
