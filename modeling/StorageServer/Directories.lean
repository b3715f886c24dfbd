import StorageServer.Execution
import StorageServer.Lib.Fuel

/-!
# The directories of the requests

A request with a `-d` or a `-D` behind it writes the files that it brings into that directory, and
`write_list_of_files_into_dir` tries a file again for ever that it cannot write. So the walk of
`execute_requests` comes to the end of the list, whatever the server answers, if in each of these
directories that is there or can be made every file that may be brought is written at some attempt,
and only then (`executeRequests_iff`).
-/

open Programs

namespace StorageServer.App

open Api (Errno Received)

/-! ## What a client may come upon -/

/-- How the file system of a client may behave, what a file that it reads may hold, and the lists of
files that it may be sent, each with the length of its path as an `int`. -/
structure Surroundings where
  disk : Disk → Prop
  reads : ℕ → List UInt8 → Prop
  sends : List Received → Prop
  pathLen : ∀ files, sends files → ∀ f ∈ files, f.path.length < 2 ^ 31

/-- The environment does nothing else. -/
structure Env.Within {S : Type} (env : Env S) (σ : Surroundings) : Prop where
  disk : ∀ s, σ.disk (env.disk s)
  readFile : ∀ {file s size buf s'}, env.readFile file s = some (.ok (size, buf), s') →
    σ.reads size buf
  writeFile : ∀ {file s files s'}, env.writeFile file s = some (.ok files, s') → σ.sends files
  readNFiles : ∀ {n s files s'}, env.readNFiles n s = some (.ok files, s') → σ.sends files

/-- Whether a `-w` with this number uploads a file. -/
def Uploads (nFiles : ℤ) : Prop :=
  toInt (if nFiles = 0 then -1 else nFiles) = -1 ∨ 0 < toInt (if nFiles = 0 then -1 else nFiles)

namespace Surroundings

variable (σ : Surroundings)

/-- The files that a request may bring for the directory behind it. -/
def Brings : ReqNode → List Received → Prop
  | .r names, files => ∃ size buf, σ.reads size buf ∧
    files = names.map fun name => ⟨name, size, buf⟩
  | .R _, files => σ.sends files
  | .W names, files => names ≠ [] ∧ σ.sends files
  | .w _ nFiles, files => Uploads nFiles ∧ σ.sends files
  | _, _ => False

end Surroundings

/-- A directory takes the files : none is refused at every attempt, and an `int` holds their number
and the lengths of their paths. -/
structure TakesFiles (disk : Disk) (dir : CString) (files : List Received) : Prop where
  fits : ∀ f ∈ files, Fits dir f
  length : files.length ≤ intMax
  passes : ∀ x ∈ files.zipIdx, ∃ j, (disk.attempts x.2 j).passes x.1 = true

/-- Where the directory is there, or can be made, it takes the files that the request may bring. -/
def Surroundings.Writes (σ : Surroundings) (node : ReqNode) (dir : CString) : Prop :=
  ∀ disk files, σ.disk disk → σ.Brings node files → mkdirP disk dir = 0 → TakesFiles disk dir files

/-- The names that are given to a `-r` are shorter than the longest `int`, as arguments of a program
are. -/
def Named (q : List ReqNode) : Prop :=
  ∀ names, .r names ∈ q → ∀ name ∈ names, name.length < 2 ^ 31

/-- In every environment the requests are handled in order, and the walk comes to the end of the
list unless an error ends the process. -/
def Surroundings.Walked (σ : Surroundings) (q : List ReqNode) : Prop :=
  ∀ (S : Type) (env : Env S) (s : S), env.Within σ →
    (∀ fuel, ((executeRequests env fuel q s).1.map Handled.request).IsPrefix (requests q 0)) ∧
      ∃ fuel, (executeRequests env fuel q s).2 = .halt ∨ ToEnd q (executeRequests env fuel q s)

/-! ## More rounds -/

section Rounds

variable {S : Type} {env : Env S} {disk : Disk} {dirname : CString} {expDir : Option CString}
  {fuel fuel' : ℕ}

theorem loop_le (hle : fuel ≤ fuel') (w : Writing) :
    (Writing.loop disk dirname fuel w).Le (Writing.loop disk dirname fuel' w) := by
  induction fuel generalizing fuel' w with
  | zero =>
    by_cases hcurr : w.curr = []
    · rw [Writing.loop_of_nil hcurr, Writing.loop_of_nil hcurr]
      exact .refl _
    · exact .inl (if_neg hcurr)
  | succ fuel ih =>
    obtain ⟨m, rfl⟩ : ∃ m, fuel' = m + 1 := ⟨fuel' - 1, by omega⟩
    cases hcurr : w.curr with
    | nil =>
      rw [Writing.loop_of_nil hcurr, Writing.loop_of_nil hcurr]
      exact .refl _
    | cons file rest =>
      rw [Writing.loop_of_cons hcurr, Writing.loop_of_cons hcurr]
      exact Res.Le.bind (.refl _) fun w' => ih (Nat.le_of_succ_le_succ hle) w'

theorem writeList_le (hle : fuel ≤ fuel') (files : List Received) (s : S) :
    (writeList env fuel expDir files s).Le (writeList env fuel' expDir files s) := by
  refine Res.Le.bind ?_ fun _ => .refl _
  cases expDir with
  | none => exact .refl _
  | some dirname =>
    unfold writeListOfFilesIntoDir
    dsimp only
    split_ifs
    · exact .refl _
    · exact Res.Le.bind (loop_le hle _) fun _ => .refl _

/-- More rounds change nothing in a write that has ended. -/
theorem writeAnswer_le (hle : fuel ≤ fuel') (reply : Except Errno (List Received)) (s : S) :
    (writeAnswer env fuel expDir reply s).Le (writeAnswer env fuel' expDir reply s) := by
  cases reply with
  | error e => exact .refl _
  | ok files => exact Res.Le.bind (writeList_le hle files s) fun _ => .refl _

end Rounds

/-! ## Handlers that end -/

section Ending

variable {S : Type} {env : Env S} {σ : Surroundings} {expDir : Option CString} {node : ReqNode}
  {files : List Received} {names : List CString} {s s' : S}

/-- A directory takes these files, if there is one and it is there or can be made. -/
def Surroundings.Accepts (σ : Surroundings) (expDir : Option CString)
    (files : List Received) : Prop :=
  ∀ disk dir, σ.disk disk → expDir = some dir → mkdirP disk dir = 0 → TakesFiles disk dir files

theorem terminates_ask {α : Type} (call : StateT S Option α) : Terminates fun _ => ask call :=
  .const fun s => by
    unfold ask
    cases call s with
    | none => exact .inl rfl
    | some r => exact Res.ended_ok r

theorem ask_eq_ok {α : Type} {call : StateT S Option α} {a : α} (h : ask call s = .ok (a, s')) :
    call s = some (a, s') := by
  unfold ask at h
  cases hcall : call s with
  | none =>
    rw [hcall] at h
    cases h
  | some r =>
    rw [hcall] at h
    cases h
    rfl

theorem ended_checkErr (e : Option Errno) (s : S) : (checkErr e s).Ended := by
  cases e with
  | none => exact Res.ended_ok _
  | some e =>
    unfold checkErr
    dsimp only
    split_ifs
    · exact .inl rfl
    · exact Res.ended_ok _

theorem terminates_callOk (call : StateT S Option (Option Errno)) :
    Terminates fun _ => callOk call :=
  (terminates_ask call).bind_of_forall fun e => .const (ended_checkErr e)

/-- The files are written, if the directory takes them. -/
theorem ended_writeList (hdisk : σ.disk (env.disk s)) (haccepts : σ.Accepts expDir files) :
    ∃ fuel, (writeList env fuel expDir files s).Ended := by
  have hwrite : ∃ fuel r, writeListOfFilesIntoDir fuel (env.disk s) expDir files = .ok r := by
    cases expDir with
    | none => exact ⟨0, _, rfl⟩
    | some dir =>
      rcases mkdirP_cases (env.disk s) dir with hmkdir | hmkdir
      · exact ⟨0, _, if_pos hmkdir⟩
      · obtain ⟨hfits, hlen, hpass⟩ := haccepts _ dir hdisk rfl hmkdir
        obtain ⟨fuel, w, hret⟩ := exists_writeListOfFilesIntoDir hmkdir hfits hlen hpass
        exact ⟨fuel, _, hret⟩
  obtain ⟨fuel, r, hret⟩ := hwrite
  refine ⟨fuel, .inr ⟨(r.1, env.wrote r.2 s), ?_⟩⟩
  rw [writeList, hret]
  rfl

section Within

variable (hwithin : env.Within σ)
include hwithin

theorem terminates_receives {call : StateT S Option (Except Errno (List Received))}
    (hcall : ∀ {s files s'}, call s = some (.ok files, s') → σ.sends files)
    (haccepts : ∀ files, σ.sends files → σ.Accepts expDir files) :
    Terminates fun fuel => receives env fuel expDir call := by
  refine (terminates_ask call).bind (fun reply s hle => ?_) fun {_ s reply s'} hreply => ?_
  · exact Res.Le.bind (writeAnswer_le hle reply s) fun _ => .refl _
  · cases reply with
    | error e => exact ⟨0, ended_checkErr (some e) s'⟩
    | ok files =>
      obtain ⟨fuel, hended⟩ := ended_writeList (hwithin.disk s')
        (haccepts files (hcall (ask_eq_ok hreply)))
      refine ⟨fuel, (hended.bind fun r => ?_).bind fun r => ended_checkErr r.1 r.2⟩
      dsimp only
      split_ifs <;> exact Res.ended_ok _

theorem terminates_sendFile (haccepts : ∀ files, σ.sends files → σ.Accepts expDir files)
    (file : CString) : Terminates fun fuel => sendFile env fuel expDir file :=
  (terminates_callOk _).bind_of_forall fun _ => .ite
    ((terminates_receives hwithin hwithin.writeFile haccepts).bind_of_forall fun _ =>
      .ite (terminates_callOk _) (.pure _)) (.pure _)

theorem terminates_sendFiles (haccepts : names ≠ [] → ∀ files, σ.sends files →
    σ.Accepts expDir files) :
    Terminates fun fuel => sendFiles env fuel expDir names := by
  induction names with
  | nil => exact .pure ()
  | cons file rest ih =>
    have haccepts := haccepts (List.cons_ne_nil file rest)
    exact (terminates_sendFile hwithin haccepts file).bind_of_forall fun _ => ih fun _ => haccepts

theorem terminates_scanListing (haccepts : ∀ files, σ.sends files → σ.Accepts expDir files)
    (listing : Listing) (dirname : CString) (N nReads : ℤ) :
    Terminates fun fuel => scanListing env fuel expDir listing dirname N nReads := by
  induction listing generalizing dirname N nReads with
  | done fails => exact .ite (.pure _) (.pure _)
  | dot rest ih => exact .ite (ih dirname N nReads) (.pure _)
  | unreadable name rest => exact .ite (.pure _) (.pure _)
  | file name rest ih =>
    refine .ite ((terminates_sendFile hwithin haccepts _).bind_of_forall fun _ => ?_) (.pure _)
    exact .ite (ih dirname N _) (ih dirname N _)
  | dir name opens sub rest ihsub ih =>
    refine .ite (.bind_of_forall (.ite (ihsub _ _ _) (.pure _)) fun res => ?_) (.pure _)
    exact ih dirname N _

end Within

/-- Without an upload nothing is written. -/
theorem scanListing_of_not_uploads {N : ℤ} (h : ¬(N = -1 ∨ 0 < N)) (fuel : ℕ) (listing : Listing)
    (dirname : CString) : scanListing env fuel expDir listing dirname N 0 = pure 0 := by
  cases listing <;> exact if_neg h

theorem terminates_readFiles (names : List CString) : Terminates fun _ => readFiles env names := by
  induction names with
  | nil => exact .pure []
  | cons file rest ih =>
    refine (terminates_callOk _).bind_of_forall fun _ => .ite ?_ ih
    refine (terminates_ask _).bind_of_forall fun read => ?_
    cases read with
    | error e => exact .ite (.const fun _ => .inl rfl) ih
    | ok r => exact (terminates_callOk _).bind_of_forall fun _ => ih.bind_of_forall fun _ => .pure _

theorem terminates_removeFiles (names : List CString) :
    Terminates fun _ => removeFiles env names := by
  induction names with
  | nil => exact .pure ()
  | cons file rest ih =>
    exact (terminates_callOk _).bind_of_forall fun _ =>
      .ite ((terminates_callOk _).bind_of_forall fun _ => ih) ih

/-- The files that are read are named in the request, in this order, and hold what may be read. -/
theorem of_readFiles (hwithin : env.Within σ) (h : readFiles env names s = .ok (files, s')) :
    (files.map Received.path).Sublist names ∧ ∀ f ∈ files, σ.reads f.size f.buf := by
  induction names generalizing s files with
  | nil =>
    cases h
    exact ⟨List.Sublist.refl _, List.forall_mem_nil _⟩
  | cons file rest ih =>
    obtain ⟨⟨opened, s₁⟩, -, h⟩ := Res.bind_eq_ok.1 h
    cases opened with
    | false =>
      obtain ⟨hsub, hreads⟩ := ih h
      exact ⟨hsub.cons file, hreads⟩
    | true =>
      obtain ⟨⟨read, s₂⟩, hask, h⟩ := Res.bind_eq_ok.1 h
      cases read with
      | error e =>
        dsimp only at h
        split_ifs at h
        obtain ⟨hsub, hreads⟩ := ih h
        exact ⟨hsub.cons file, hreads⟩
      | ok r =>
        obtain ⟨⟨closed, s₃⟩, -, h⟩ := Res.bind_eq_ok.1 h
        obtain ⟨⟨files', s₄⟩, hrest, h⟩ := Res.bind_eq_ok.1 h
        cases h
        obtain ⟨hsub, hreads⟩ := ih hrest
        refine ⟨hsub.cons_cons file, List.forall_mem_cons.2 ⟨?_, hreads⟩⟩
        exact hwithin.readFile (ask_eq_ok hask)

/-- Whether a file passes depends on its size. -/
theorem passes_congr (a : Attempt) {f g : Received} (h : f.size = g.size) :
    a.passes f = a.passes g := by
  cases a with
  | refused => rfl
  | opened room => rw [Attempt.passes, Attempt.passes, h]

/-- A directory that takes all files of a `-r`, whatever they hold, takes those of them that are
read. -/
theorem accepts_of_readFiles (hsub : (files.map Received.path).Sublist names)
    (hreads : ∀ f ∈ files, σ.reads f.size f.buf)
    (haccepts : ∀ files, σ.Brings (.r names) files → σ.Accepts expDir files) :
    σ.Accepts expDir files := by
  intro disk dir hdisk hdir hmkdir
  have hall : ∀ f ∈ files, TakesFiles disk dir (names.map fun name => ⟨name, f.size, f.buf⟩) :=
    fun f hf =>
    haccepts _ ⟨f.size, f.buf, hreads f hf, rfl⟩ disk dir hdisk hdir hmkdir
  have hlen : files.length ≤ names.length := by
    have := hsub.length_le
    rwa [List.length_map] at this
  refine ⟨fun f hf => ?_, ?_, ?_⟩
  · exact (hall f hf).fits ⟨f.path, f.size, f.buf⟩
      (List.mem_map.2 ⟨f.path, hsub.subset (List.mem_map_of_mem hf), rfl⟩)
  · cases files with
    | nil => exact Nat.zero_le _
    | cons f files =>
      have hmax := (hall f List.mem_cons_self).length
      rw [List.length_map] at hmax
      exact Nat.le_trans hlen hmax
  · rintro ⟨f, pos⟩ hx
    obtain ⟨-, hpos, hf⟩ := List.mem_zipIdx hx
    rw [Nat.zero_add] at hpos
    have hpass := (hall f (hf ▸ List.getElem_mem _)).passes
    obtain ⟨name, hname⟩ : ∃ name, names[pos]? = some name :=
      ⟨_, List.getElem?_eq_getElem (Nat.lt_of_lt_of_le hpos hlen)⟩
    obtain ⟨j, hj⟩ := hpass (⟨name, f.size, f.buf⟩, pos)
      (List.mem_zipIdx_iff_getElem?.2 (by rw [List.getElem?_map, hname]; rfl))
    exact ⟨j, (passes_congr (f := f) (g := ⟨name, f.size, f.buf⟩) _ rfl).trans hj⟩

/-- A request comes to its end, or ends the process, if its directory takes the files that it may
bring. -/
theorem terminates_handle (hwithin : env.Within σ)
    (haccepts : ∀ files, σ.Brings node files → σ.Accepts expDir files) :
    Terminates fun fuel => handle env fuel node expDir := by
  cases node with
  | w dir nFiles =>
    by_cases huploads : Uploads nFiles
    · have haccepts : ∀ files, σ.sends files → σ.Accepts expDir files := fun files hsends =>
        haccepts files ⟨huploads, hsends⟩
      refine .bind_of_forall ((terminates_ask _).bind_of_forall fun r => ?_) fun _ => .pure ()
      exact .ite (terminates_scanListing hwithin haccepts r.2 dir _ 0) (.pure _)
    · refine .bind_of_forall ((terminates_ask _).bind_of_forall fun r => .ite ?_ (.pure _))
        fun _ => .pure ()
      simp only [scanListing_of_not_uploads huploads]
      exact .pure 0
  | W names =>
      exact terminates_sendFiles hwithin fun hne files hsends => haccepts files ⟨hne, hsends⟩
  | r names =>
    refine (terminates_readFiles names).bind (fun files s hle => ?_) fun {_ s files s'} hread => ?_
    · exact Res.Le.bind (writeList_le hle files s) fun _ => .refl _
    · obtain ⟨hsub, hreads⟩ := of_readFiles hwithin hread
      obtain ⟨fuel, hended⟩ := ended_writeList (hwithin.disk s')
        (accepts_of_readFiles hsub hreads haccepts)
      exact ⟨fuel, hended.bind fun _ => Res.ended_ok _⟩
  | R n => exact (terminates_receives hwithin hwithin.readNFiles haccepts).bind_of_forall fun _ =>
      .pure ()
  | c names => exact terminates_removeFiles names
  | t | D | d | l | u => exact .pure ()

end Ending

/-! ## Walks that come to the end -/

section Walks

variable {S : Type} {env : Env S} {σ : Surroundings} {q : List ReqNode} {fOption : Bool}

/-- With more fuel the handlers that have returned still do. -/
theorem allReturn_mono {fuel fuel' : ℕ} (hle : fuel ≤ fuel')
    {l : List (ℕ × ReqNode × Option CString)} {s : S} (hends : ∀ x ∈ l, x.2.1.time = none →
      Terminates fun fuel => handle env fuel x.2.1 x.2.2)
    (h : AllReturn (handle env fuel) l s) : AllReturn (handle env fuel') l s := by
  induction l generalizing s with
  | nil => trivial
  | cons x l ih =>
    obtain ⟨pos, node, expDir⟩ := x
    have hrest := fun y hy => hends y (List.mem_cons_of_mem _ hy)
    rw [AllReturn] at h ⊢
    cases htime : node.time with
    | some msec =>
      rw [htime] at h
      exact ih hrest h
    | none =>
      rw [htime] at h
      have hmono := (hends _ List.mem_cons_self htime).mono s hle
      dsimp only at h hmono ⊢
      cases hhandle : handle env fuel node expDir s with
      | ok r =>
        rw [hhandle] at h
        rw [hmono.of_ok hhandle]
        exact ih hrest h
      | halt =>
        rw [hmono.of_halt hhandle]
        trivial
      | blocked | fault =>
        rw [hhandle] at h
        exact h.elim

/-- Some fuel is enough for all handlers. -/
theorem exists_allReturn {l : List (ℕ × ReqNode × Option CString)} {s : S}
    (hends : ∀ x ∈ l, x.2.1.time = none → Terminates fun fuel => handle env fuel x.2.1 x.2.2) :
    ∃ fuel, AllReturn (handle env fuel) l s := by
  induction l generalizing s with
  | nil => exact ⟨0, trivial⟩
  | cons x l ih =>
    obtain ⟨pos, node, expDir⟩ := x
    have hrest := fun y hy => hends y (List.mem_cons_of_mem _ hy)
    cases htime : node.time with
    | some msec =>
      obtain ⟨fuel, hall⟩ := ih (s := s) hrest
      exact ⟨fuel, by rw [AllReturn, htime]; exact hall⟩
    | none =>
      have hhead := hends _ List.mem_cons_self htime
      dsimp only at hhead
      obtain ⟨fuel, hhalt | ⟨⟨⟨⟩, s'⟩, hok⟩⟩ := hhead.ends s
      · refine ⟨fuel, ?_⟩
        rw [AllReturn, htime]
        dsimp only
        rw [hhalt]
        trivial
      · obtain ⟨fuel', hall⟩ := ih (s := s') hrest
        refine ⟨max fuel fuel', ?_⟩
        rw [AllReturn, htime]
        dsimp only
        rw [(hhead.mono s (Nat.le_max_left fuel fuel')).of_ok hok]
        exact allReturn_mono (Nat.le_max_right fuel fuel') hrest hall

/-- Each walk comes to the end, if the directories take the files that are brought. -/
theorem walked_of_writes (hvalid : validateOptions fOption q = true)
    (hwrites : ∀ i node dir, q[i]? = some node → q[i + 1]?.bind ReqNode.modifier = some dir →
      σ.Writes node dir) : σ.Walked q := by
  intro S env s hwithin
  rw [validateOptions, Bool.and_eq_true] at hvalid
  have hwalks : ∀ fuel, Walks (handle env fuel) (requests q 0) s (executeRequests env fuel q s) :=
    fun fuel => executeLoop_walks hvalid.2 (free_of_validateLoop hvalid.2 rfl rfl) _ _ _
  obtain ⟨fuel, hreturn⟩ : ∃ fuel, AllReturn (handle env fuel) (requests q 0) s := by
    refine exists_allReturn fun x hx _ => terminates_handle hwithin ?_
    obtain ⟨i, -, hnode, -, hdir⟩ := mem_requests.1 (show (x.1, x.2.1, x.2.2) ∈ _ from hx)
    intro files hbrings disk dir hdisk hexp hmkdir
    exact hwrites i x.2.1 dir hnode (hdir.symm.trans hexp) disk files hdisk hbrings hmkdir
  refine ⟨fun fuel => (hwalks fuel).in_order, fuel, ?_⟩
  exact ((hwalks fuel).returns hreturn).imp_right fun h => toEnd_of_handled hvalid.2 h.1 h.2

end Walks

/-! ## One way of answering -/

/-- The computation does not end the process. -/
def GoesOn {S α : Type} (p : StateT S Res α) : Prop :=
  ∀ s, p s ≠ .halt

section GoesOn

variable {S α β : Type} {p p' : StateT S Res α} {k : α → StateT S Res β}

theorem GoesOn.pure (a : α) : GoesOn (Pure.pure a : StateT S Res α) := fun _ h => by cases h

theorem GoesOn.bind (hp : GoesOn p) (hk : ∀ a, GoesOn (k a)) : GoesOn (p >>= k) := by
  intro s h
  change (p s).bind (fun r => k r.1 r.2) = .halt at h
  cases hr : p s with
  | ok r =>
    rw [hr] at h
    exact hk r.1 r.2 h
  | halt => exact hp s hr
  | blocked | fault =>
    rw [hr] at h
    cases h

theorem GoesOn.ite {c : Prop} [Decidable c] (hp : GoesOn p) (hp' : GoesOn p') :
    GoesOn (if c then p else p') := by
  split_ifs
  · exact hp
  · exact hp'

end GoesOn

section Steady

variable {read : Except Errno (ℕ × List UInt8)} {reply : Except Errno (List Received)} {disk : Disk}
  {files : List Received} {fuel : ℕ} {dir : CString} {node : ReqNode} {expDir : Option CString}

theorem goesOn_ask {α : Type} (a : α) : GoesOn (ask (return a) : StateT Unit Res α) :=
  fun _ h => by cases h

theorem goesOn_callOk : GoesOn (callOk (return none) : StateT Unit Res Bool) :=
  fun _ h => by cases h

theorem goesOn_writeList {S : Type} (env : Env S) : GoesOn (writeList env fuel expDir files) := by
  intro s h
  rw [writeList] at h
  cases hwrite : writeListOfFilesIntoDir fuel (env.disk s) expDir files with
  | halt => exact absurd hwrite (writeListOfFilesIntoDir_ne_halt _ _ _ _)
  | ok | blocked | fault =>
    rw [hwrite] at h
    cases h

/-- The errors of a write do not end the process. -/
theorem goesOn_receives (hreply : ∀ e, reply = .error e → Errno.fatal e = false) (env : Env Unit) :
    GoesOn (receives env fuel expDir (return reply)) := by
  have hcheck : ∀ e : Errno, Errno.fatal e = false →
      GoesOn (checkErr (some e) : StateT Unit Res Bool) := fun e he _ h => by
    rw [checkErr, he] at h
    cases h
  cases reply with
  | error e => exact hcheck e (hreply e rfl)
  | ok files =>
    intro s h
    change ((writeList env fuel expDir files s).bind _).bind _ = .halt at h
    cases hwrite : writeList env fuel expDir files s with
    | ok r =>
      obtain ⟨n, s'⟩ := r
      rw [hwrite, Res.bind_ok] at h
      dsimp only at h
      split_ifs at h
      · exact hcheck .enotempty rfl s' h
      · exact hcheck .ecanceled rfl s' h
      · exact hcheck .other rfl s' h
      · cases h
    | halt => exact goesOn_writeList env s hwrite
    | blocked | fault =>
      rw [hwrite] at h
      cases h

theorem goesOn_sendFile (hreply : ∀ e, reply = .error e → Errno.fatal e = false) (file : CString) :
    GoesOn (sendFile (.steady none read reply disk) fuel expDir file) :=
  goesOn_callOk.bind fun _ => .ite ((goesOn_receives hreply _).bind fun _ =>
    .ite goesOn_callOk (.pure _)) (.pure _)

theorem goesOn_scanListing (hreply : ∀ e, reply = .error e → Errno.fatal e = false)
    (listing : Listing) (dirname : CString) (N nReads : ℤ) :
    GoesOn (scanListing (.steady none read reply disk) fuel expDir listing dirname N nReads) := by
  induction listing generalizing dirname N nReads with
  | done fails => exact .ite (.pure _) (.pure _)
  | dot rest ih => exact .ite (ih dirname N nReads) (.pure _)
  | unreadable name rest => exact .ite (.pure _) (.pure _)
  | file name rest ih =>
    refine .ite ((goesOn_sendFile hreply _).bind fun _ => ?_) (.pure _)
    exact .ite (ih dirname N _) (ih dirname N _)
  | dir name opens sub rest ihsub ih =>
    exact .ite (.bind (.ite (ihsub _ _ _) (.pure _)) fun res => ih dirname N _) (.pure _)

/-- No handler ends the process. -/
theorem goesOn_handle (hread : ∀ e, read = .error e → Errno.fatal e = false)
    (hreply : ∀ e, reply = .error e → Errno.fatal e = false) :
    GoesOn (handle (.steady none read reply disk) fuel node expDir) := by
  cases node with
  | w dir nFiles =>
    refine .bind ((goesOn_ask _).bind fun r => .ite ?_ (.pure _)) fun _ => .pure ()
    exact goesOn_scanListing hreply r.2 dir _ 0
  | W names =>
    induction names with
    | nil => exact .pure ()
    | cons file rest ih => exact (goesOn_sendFile hreply file).bind fun _ => ih
  | r names =>
    have hreads : GoesOn (readFiles (.steady none read reply disk) names) := by
      induction names with
      | nil => exact .pure []
      | cons file rest ih =>
        refine goesOn_callOk.bind fun _ => .ite ?_ ih
        cases read with
        | error e =>
          intro s h
          change (if Errno.fatal e = true then fun _ => .halt else
            readFiles (.steady none (.error e) reply disk) rest) s = .halt at h
          rw [hread e rfl] at h
          exact ih s h
        | ok r =>
          have hrest := goesOn_callOk.bind fun _ => ih.bind fun files =>
            GoesOn.pure (⟨file, r.1, r.2⟩ :: files)
          exact fun s h => hrest s h
    exact hreads.bind fun files => (goesOn_writeList _).bind fun _ => .pure ()
  | R n => exact (goesOn_receives hreply _).bind fun _ => .pure ()
  | c names =>
    induction names with
    | nil => exact .pure ()
    | cons file rest ih =>
      exact goesOn_callOk.bind fun _ => .ite (goesOn_callOk.bind fun _ => ih) ih
  | t | D | d | l | u => exact .pure ()

/-! What has been written if a handler returns. -/

/-- A path that is made is written to a buffer that is large enough, or it is longer than any. -/
theorem fits_of_makePath {file : Received} {w : Writing} {r : CString × Writing} (hw : w.Roomy)
    (hlen : (pathToWrite dir file).length + 1 < 2 ^ 32) (h : Writing.makePath dir file w = .ok r) :
    Fits dir file := by
  obtain ⟨n, hn⟩ : ∃ n, (pathToWrite dir file).length + 1 = n := ⟨_, rfl⟩
  rw [Writing.makePath_eq dir file w hn] at h
  dsimp only at h
  generalize hcapacity : (if w.pathToWriteLen < toInt n then toSize (toInt n) else w.capacity) =
    capacity at h
  split at h
  · cases h
  next hfault =>
  rw [not_or, ← hcapacity] at hfault
  obtain ⟨-, -, -, hfit⟩ := Writing.roomy_capacity hw.lower hw.upper hw.capacity (by omega) hfault.2
  rw [Fits, ← length_pathToWrite, hn]
  refine hfit ?_
  unfold toInt toSize
  omega

/-- A loop that ends has made the paths of all files. -/
theorem fits_of_loop {w w' : Writing} (hw : w.Roomy)
    (hlen : ∀ f ∈ w.curr, (pathToWrite dir f).length + 1 < 2 ^ 32)
    (h : Writing.loop disk dir fuel w = .ok w') : ∀ f ∈ w.curr, Fits dir f := by
  induction fuel generalizing w with
  | zero =>
    rw [Writing.loop] at h
    split_ifs at h with hcurr
    rw [hcurr]
    exact List.forall_mem_nil _
  | succ fuel ih =>
    cases hcurr : w.curr with
    | nil => exact List.forall_mem_nil _
    | cons file rest =>
      rw [Writing.loop_of_cons hcurr] at h
      rw [hcurr] at hlen
      obtain ⟨w₁, hround, hloop⟩ := Res.bind_eq_ok.1 h
      obtain ⟨r, hpath, -⟩ := Res.bind_eq_ok.1 hround
      have hfile := fits_of_makePath hw (hlen file List.mem_cons_self) hpath
      obtain ⟨path, hr, -⟩ := Writing.of_round hw hround
      cases hpass : (disk.attempts w.pos w.tries).passes file with
      | false =>
        have hcurr₁ := (hr.stays hpass).1.trans hcurr
        rw [← hcurr₁]
        exact ih hr.roomy (hcurr₁ ▸ hlen) hloop
      | true =>
        have hcurr₁ := (hr.moves hpass).1
        refine List.forall_mem_cons.2 ⟨hfile, ?_⟩
        rw [← hcurr₁]
        exact ih hr.roomy (hcurr₁ ▸ fun f hf => hlen f (List.mem_cons_of_mem _ hf)) hloop

/-- The path of `mkdir_p` is shorter than `PATH_MAX`. -/
theorem length_of_mkdirP (h : mkdirP disk dir = 0) : dir.length < pathMax := by
  unfold mkdirP at h
  split_ifs at h with hlen
  unfold pathMax at hlen ⊢
  omega

theorem takesFiles_of_writeList {S : Type} (env : Env S) {s : S} {r : ℤ × S}
    (hmkdir : mkdirP (env.disk s) dir = 0) (hshort : ∀ f ∈ files, f.path.length < 2 ^ 31)
    (h : writeList env fuel (some dir) files s = .ok r) : TakesFiles (env.disk s) dir files := by
  obtain ⟨⟨n, w⟩, hwrite, -⟩ := Res.bind_eq_ok.1 h
  rcases of_writeListOfFilesIntoDir hwrite with ⟨hfail, -⟩ | ⟨-, hloop, -, -, hlen, hpass⟩
  · rw [hmkdir] at hfail
    cases hfail
  · refine ⟨fits_of_loop (Writing.roomy_start _ files) (fun f hf => ?_) hloop, hlen, hpass⟩
    have hdir := length_of_mkdirP hmkdir
    have hname := length_removePathFromName_le f.path
    have hpath := hshort f hf
    rw [length_pathToWrite]
    unfold pathMax at hdir
    omega

theorem takesFiles_of_receives (env : Env Unit) {r : Bool × Unit}
    (hmkdir : mkdirP (env.disk ()) dir = 0)
    (hshort : ∀ f ∈ files, f.path.length < 2 ^ 31)
    (h : receives env fuel (some dir) (return .ok files) () = .ok r) :
    TakesFiles (env.disk ()) dir files := by
  obtain ⟨⟨e, s⟩, hanswer, -⟩ := Res.bind_eq_ok.1
    (show (writeAnswer env fuel (some dir) (.ok files) ()).bind _ = .ok r from h)
  obtain ⟨⟨n, s'⟩, hwrite, -⟩ := Res.bind_eq_ok.1 hanswer
  exact takesFiles_of_writeList env hmkdir hshort hwrite

theorem takesFiles_of_sendFile {file : CString} {r : Bool × Unit} (hmkdir : mkdirP disk dir = 0)
    (hshort : ∀ f ∈ files, f.path.length < 2 ^ 31)
    (h : sendFile (.steady none read (.ok files) disk) fuel (some dir) file () = .ok r) :
    TakesFiles disk dir files := by
  obtain ⟨⟨sent, s⟩, hreceives, -⟩ := Res.bind_eq_ok.1
    (show (receives (.steady none read (.ok files) disk) fuel (some dir) (return .ok files) ()).bind
      _ =
      .ok r from h)
  exact takesFiles_of_receives (.steady none read (.ok files) disk) hmkdir hshort hreceives

theorem readFiles_steady (size : ℕ) (buf : List UInt8) (names : List CString) :
    readFiles (.steady none (.ok (size, buf)) reply disk) names () =
      .ok (names.map fun name => ⟨name, size, buf⟩, ()) := by
  induction names with
  | nil => rfl
  | cons file rest ih =>
    change (readFiles _ rest ()).bind _ = _
    rw [ih]
    rfl

end Steady

section Needed

variable {σ : Surroundings} {q : List ReqNode} {fOption : Bool}

/-- Where the state cannot change and no handler ends the process, each of them returns. -/
theorem returns_of_allReturn {handle : ReqNode → Option CString → StateT Unit Res Unit}
    (hgoes : ∀ node expDir, GoesOn (handle node expDir)) {l : List (ℕ × ReqNode × Option CString)}
    (h : AllReturn handle l ()) :
    ∀ x ∈ l, x.2.1.time = none → ∃ r, handle x.2.1 x.2.2 () = .ok r := by
  induction l with
  | nil => exact List.forall_mem_nil _
  | cons x l ih =>
    obtain ⟨pos, node, expDir⟩ := x
    rw [AllReturn] at h
    cases htime : node.time with
    | some msec =>
      rw [htime] at h
      refine List.forall_mem_cons.2 ⟨fun hnone => ?_, ih h⟩
      cases htime.symm.trans hnone
    | none =>
      rw [htime] at h
      dsimp only at h
      cases hhandle : handle node expDir () with
      | ok r =>
        rw [hhandle] at h
        exact List.forall_mem_cons.2 ⟨fun _ => ⟨r, hhandle⟩, ih h⟩
      | halt => exact absurd hhandle (hgoes node expDir ())
      | blocked | fault =>
        rw [hhandle] at h
        exact h.elim

theorem within_steady {opens : Option Errno} {read : Except Errno (ℕ × List UInt8)}
    {reply : Except Errno (List Received)} {disk : Disk} (hdisk : σ.disk disk)
    (hread : ∀ size buf, read = .ok (size, buf) → σ.reads size buf)
    (hreply : ∀ files, reply = .ok files → σ.sends files) :
    (Env.steady opens read reply disk).Within σ where
  disk _ := hdisk
  readFile h := hread _ _ (congrArg Prod.fst (Option.some.inj h))
  writeFile h := hreply _ (congrArg Prod.fst (Option.some.inj h))
  readNFiles h := hreply _ (congrArg Prod.fst (Option.some.inj h))

/-- If a walk comes to the end where each call is answered in one way, each handler returns
there. -/
theorem returns_of_end (hvalid : validateOptions fOption q = true)
    {read : Except Errno (ℕ × List UInt8)} {reply : Except Errno (List Received)} {disk : Disk}
    (hread : ∀ e, read = .error e → Errno.fatal e = false)
    (hreply : ∀ e, reply = .error e → Errno.fatal e = false) {fuel : ℕ}
    (hend : (executeRequests (.steady none read reply disk) fuel q ()).2 = .halt ∨
      ToEnd q (executeRequests (.steady none read reply disk) fuel q ()))
    {i : ℕ} {node : ReqNode} {dir : CString} (hnode : q[i]? = some node)
    (hmod : node.modifier = none) (htime : node.time = none)
    (hdir : q[i + 1]?.bind ReqNode.modifier = some dir) :
    ∃ r, handle (.steady none read reply disk) fuel node (some dir) () = .ok r := by
  rw [validateOptions, Bool.and_eq_true] at hvalid
  have hwalks : Walks (handle (.steady none read reply disk) fuel) (requests q 0) ()
      (executeRequests (.steady none read reply disk) fuel q ()) :=
    executeLoop_walks hvalid.2 (free_of_validateLoop hvalid.2 rfl rfl) _ _ _
  have hreturn : AllReturn (handle (.steady none read reply disk) fuel) (requests q 0) () := by
    by_contra hstuck
    have hstop := hwalks.stops hstuck
    rcases hend with hhalt | ⟨⟨s', hok⟩, -, -, -⟩
    · rw [hhalt] at hstop
      rcases hstop with h | h <;> cases h
    · rw [hok] at hstop
      rcases hstop with h | h <;> cases h
  exact returns_of_allReturn (fun _ _ => goesOn_handle hread hreply) hreturn (i, node, some dir)
    (mem_requests.2 ⟨i, (Nat.zero_add i).symm, hnode, hmod, hdir.symm⟩) htime

/-- If each walk comes to the end, the directories take the files. -/
theorem writes_of_walked (hvalid : validateOptions fOption q = true) (hnamed : Named q)
    (hwalked : σ.Walked q) {i : ℕ} {node : ReqNode} {dir : CString} (hnode : q[i]? = some node)
    (hdir : q[i + 1]?.bind ReqNode.modifier = some dir) : σ.Writes node dir := by
  intro disk files hdisk hbrings hmkdir
  have hsent : σ.sends files → node.modifier = none → node.time = none →
      ∃ fuel r, handle (.steady none (.error .enoent) (.ok files) disk) fuel node (some dir) () =
        .ok r := by
    intro hsends hmod htime
    obtain ⟨-, fuel, hend⟩ := hwalked Unit (.steady none (.error .enoent) (.ok files) disk) ()
      (within_steady hdisk (fun _ _ h => by cases h) fun _ h => by cases h; exact hsends)
    refine ⟨fuel, returns_of_end hvalid ?_ (fun _ h => by cases h) hend hnode hmod htime hdir⟩
    exact fun _ h => by cases h; rfl
  cases node with
  | r names =>
    obtain ⟨size, buf, hreads, rfl⟩ := hbrings
    obtain ⟨-, fuel, hend⟩ := hwalked Unit (.steady none (.ok (size, buf)) (.error .enoent) disk) ()
      (within_steady hdisk (fun _ _ h => by cases h; exact hreads) fun _ h => by cases h)
    have hfatal : ∀ e, (.error .enoent : Except Errno (List Received)) = .error e →
        Errno.fatal e = false := fun _ h => by cases h; rfl
    obtain ⟨r, hret⟩ := returns_of_end hvalid (fun _ h => by cases h) hfatal hend hnode rfl rfl hdir
    obtain ⟨⟨files, s⟩, hread, hret⟩ := Res.bind_eq_ok.1 hret
    rw [readFiles_steady] at hread
    cases hread
    obtain ⟨⟨n, s'⟩, hwrite, -⟩ := Res.bind_eq_ok.1 hret
    refine takesFiles_of_writeList (.steady none (.ok (size, buf)) (.error .enoent) disk) hmkdir
      (fun f hf => ?_) hwrite
    obtain ⟨name, hname, rfl⟩ := List.mem_map.1 hf
    exact hnamed names (List.mem_of_getElem? hnode) name hname
  | R n =>
    obtain ⟨fuel, r, hret⟩ := hsent hbrings rfl rfl
    obtain ⟨⟨ok, s⟩, hreceives, -⟩ := Res.bind_eq_ok.1 hret
    exact takesFiles_of_receives (.steady none (.error .enoent) (.ok files) disk) hmkdir
      (σ.pathLen files hbrings) hreceives
  | W names =>
    obtain ⟨fuel, r, hret⟩ := hsent hbrings.2 rfl rfl
    cases names with
    | nil => exact absurd rfl hbrings.1
    | cons file rest =>
      obtain ⟨⟨sent, s⟩, hsend, -⟩ := Res.bind_eq_ok.1 hret
      exact takesFiles_of_sendFile hmkdir (σ.pathLen files hbrings.2) hsend
  | w path nFiles =>
    obtain ⟨fuel, r, hret⟩ := hsent hbrings.2 rfl rfl
    obtain ⟨⟨n, s⟩, hscan, -⟩ := Res.bind_eq_ok.1 hret
    have hfirst : scanListing (.steady none (.error .enoent) (.ok files) disk) fuel (some dir)
        (.file [97] (.done false)) path (toInt (if nFiles = 0 then -1 else nFiles)) 0 () =
          .ok (n, s) := hscan
    have huploads : toInt (if nFiles = 0 then -1 else nFiles) = -1 ∨
        0 < toInt (if nFiles = 0 then -1 else nFiles) := hbrings.1
    rw [scanListing, whenReads, if_pos huploads] at hfirst
    obtain ⟨⟨sent, s'⟩, hsend, -⟩ := Res.bind_eq_ok.1 hfirst
    exact takesFiles_of_sendFile hmkdir (σ.pathLen files hbrings.2) hsend
  | c | t | D | d | l | u => exact hbrings.elim

/-- On a list that `validate_options` accepts, `execute_requests` handles the requests in order and
comes to the end of the list in every environment, unless an error ends the process, if each
directory of a `-d` or `-D` that is there or can be made takes the files that may be brought. It
does so only then, if the names in the list are as short as arguments of a program are. -/
theorem executeRequests_iff (hvalid : validateOptions fOption q = true) :
    ((∀ i node dir, q[i]? = some node → q[i + 1]?.bind ReqNode.modifier = some dir →
        σ.Writes node dir) → σ.Walked q) ∧
    (Named q → σ.Walked q →
      ∀ i node dir, q[i]? = some node → q[i + 1]?.bind ReqNode.modifier = some dir →
        σ.Writes node dir) :=
  ⟨walked_of_writes hvalid, fun hnamed hwalked _ _ _ hnode hdir =>
    writes_of_walked hvalid hnamed hwalked hnode hdir⟩

/-- An example of `executeRequests_iff` : the files that are read, and those that are expelled, are
written into the directories behind the requests, in each of which every file can be opened. -/
theorem executeRequests_iff_four :
    let σ : Surroundings := ⟨fun disk => disk.attempts = fun _ _ => .opened 8,
      fun size _ => size ≤ 8, fun files =>
        files.length ≤ 2 ∧ ∀ f ∈ files, f.path.length ≤ 9 ∧ f.size ≤ 8,
      fun _ h f hf => by have := (h.2 f hf).1; omega⟩
    σ.Walked [.t 200, .r [[97], [98]], .d [100], .W [[99]], .D [101], .R 0, .d [100]] := by
  intro σ
  have hvalid : validateOptions true
      [.t 200, .r [[97], [98]], .d [100], .W [[99]], .D [101], .R 0, .d [100]] = true := by decide
  -- a short list of short names with short files
  have htakes : ∀ {disk : Disk} {dir : CString} {files : List Received}, σ.disk disk →
      dir.length ≤ 1 → files.length ≤ 2 → (∀ f ∈ files, f.path.length ≤ 9 ∧ f.size ≤ 8) →
      TakesFiles disk dir files := by
    intro disk dir files hdisk hdir hlen hall
    refine ⟨fun f hf => ?_, Nat.le_trans hlen (by decide), fun x hx => ⟨0, ?_⟩⟩
    · have hname := length_removePathFromName_le f.path
      have hpath := (hall f hf).1
      unfold Fits intMax
      omega
    · have hsize := (hall x.1 (List.fst_mem_of_mem_zipIdx hx)).2
      rw [show disk.attempts = _ from hdisk]
      exact Attempt.passes_of_completes (Nat.le_trans hsize (by decide)) (decide_eq_true hsize)
  have hread : ∀ {names files}, names.length ≤ 2 → (∀ name ∈ names, name.length ≤ 9) →
      σ.Brings (.r names) files →
      files.length ≤ 2 ∧ ∀ f ∈ files, f.path.length ≤ 9 ∧ f.size ≤ 8 := by
    rintro names files hlen hnames ⟨size, buf, hsize, rfl⟩
    refine ⟨by rwa [List.length_map], fun f hf => ?_⟩
    obtain ⟨name, hname, rfl⟩ := List.mem_map.1 hf
    exact ⟨hnames name hname, hsize⟩
  refine (executeRequests_iff hvalid).1 fun i node dir hnode hdir disk files hdisk hbrings _ => ?_
  rcases i with _ | _ | _ | _ | _ | _ | _ | i
  · cases hdir
  · cases hnode
    cases hdir
    obtain ⟨hlen, hall⟩ := hread (by decide) (by decide) hbrings
    exact htakes hdisk (by decide) hlen hall
  · cases hdir
  · cases hnode
    cases hdir
    exact htakes hdisk (by decide) hbrings.2.1 hbrings.2.2
  · cases hdir
  · cases hnode
    cases hdir
    exact htakes hdisk (by decide) hbrings.1 hbrings.2
  · cases hdir
  · cases hnode

/-- A `-r` with a `-d`, whose file can never be opened in the directory : neither does the walk come
to the end, nor is there an error that ends the process. -/
theorem executeRequests_refused :
    let disk : Disk := ⟨fun _ => .made, fun _ _ => .refused, fun _ => none⟩
    let env : Env Unit := .steady none (.ok (0, [])) (.error .enoent) disk
    validateOptions true [.r [[97]], .d [100]] = true ∧
      ¬∃ fuel, (executeRequests env fuel [.r [[97]], .d [100]] ()).2 = .halt ∨
        ToEnd [.r [[97]], .d [100]] (executeRequests env fuel [.r [[97]], .d [100]] ()) := by
  intro disk env
  have hvalid : validateOptions true [.r [[97]], .d [100]] = true := by decide
  refine ⟨hvalid, ?_⟩
  rintro ⟨fuel, hend⟩
  have hfatal : ∀ e, (.error .enoent : Except Errno (List Received)) = .error e →
      Errno.fatal e = false := fun _ h => by cases h; rfl
  obtain ⟨r, hret⟩ := returns_of_end hvalid (fun _ h => by cases h) hfatal hend
    (show _ = some (ReqNode.r [[97]]) from List.getElem?_cons_zero) rfl rfl rfl
  obtain ⟨⟨n, s⟩, hwrite, -⟩ := Res.bind_eq_ok.1 hret
  have htakes : TakesFiles disk [100] [⟨[97], 0, []⟩] := takesFiles_of_writeList env rfl
    (List.forall_mem_singleton.2 (by decide)) hwrite
  obtain ⟨j, hj⟩ := htakes.passes _ List.mem_cons_self
  cases hj

end Needed

end StorageServer.App
