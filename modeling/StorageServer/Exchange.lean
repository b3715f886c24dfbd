import StorageServer.Effects

/-!
# The two ends of a handler

Reading a request takes bytes from the client and touches nothing else
(`safe_readRequest`). A reply sends its pieces one after the other until a send fails
(`Local.sendAll`), and then gives back the files it was given (`safe_finish`) : the
expelled files are deleted, and the files that were read are unlocked, except by a
`read_file` whose reply fails.
-/

open Programs

namespace StorageServer

/-! ## Reading -/

section Reading

variable {l : Local} {s : Store}

theorem length_of_readn {st st' : Stream} {size : ℕ} {r : ℤ} {bytes : List UInt8}
    (h : st.readn size = .ok ((r, bytes), st')) (h0 : r ≠ 0) (h1 : r ≠ -1) :
    bytes.length = size := by
  unfold Stream.readn at h
  split_ifs at h with hle
  · obtain ⟨⟨-, rfl⟩, -⟩ := by simpa using h
    exact List.length_take_of_le hle
  · split at h <;> simp_all

/-- A `readn` changes what is left of the stream, and fills the buffer if it returns neither
`0` nor `-1`. -/
theorem safe_readn_of {size : ℕ} {Q : ℤ × List UInt8 → World → Prop}
    (hQ : ∀ r bytes inp, (r ≠ -1 → r ≠ 0 → bytes.length = size) →
      Q (r, bytes) ({ l with inp := inp }, s)) :
    Prog.wp safeExec (readn size) Q (l, s) := by
  rw [safe_readn]
  cases h : l.inp.readn size with
  | ok r =>
    obtain ⟨⟨r, bytes⟩, inp⟩ := r
    exact hQ r bytes inp fun h1 h0 => length_of_readn h h0 h1
  | blocked | halt => trivial
  | fault =>
    unfold Stream.readn at h
    split_ifs at h
    split at h <;> cases h

/-- The codes with which a request can end before it reaches the store. -/
def Unread {α : Type} (r : Except Sa α) : Prop :=
  ∀ code, r = .error code → code = .error ∨ code = .close

theorem unread_error {α : Type} : Unread (.error .error : Except Sa α) :=
  fun _ h => by cases h; exact Or.inl rfl

theorem unread_close {α : Type} : Unread (.error .close : Except Sa α) :=
  fun _ h => by cases h; exact Or.inr rfl

theorem unread_ok {α : Type} {a : α} : Unread (.ok a : Except Sa α) :=
  fun _ h => by cases h

theorem of_error_eq_ok {α : Type} {code : Sa} {a : α} {p : Prop}
    (h : (.error code : Except Sa α) = .ok a) : p := by
  cases h

theorem Unread.of_error {α β : Type} {code : Sa} (h : Unread (.error code : Except Sa α)) :
    Unread (.error code : Except Sa β) :=
  fun _ he => h _ (by cases he; rfl)

theorem Unread.map {α β : Type} {r : Except Sa α} (h : Unread r) (f : α → β) :
    Unread (r.map f) := by
  cases r with
  | error code => exact h.of_error
  | ok a => exact unread_ok

theorem safe_readnInt {Q : ℤ × ℤ → World → Prop}
    (hQ : ∀ r n inp, Q (r, n) ({ l with inp := inp }, s)) :
    Prog.wp safeExec readnInt Q (l, s) := by
  rw [readnInt, Prog.wp_bind]
  exact safe_readn_of fun r bytes inp _ => hQ r _ inp

theorem safe_readPathname {Q : Except Sa CString → World → Prop}
    (hQ : ∀ r inp, Unread r → Q r ({ l with inp := inp }, s)) :
    Prog.wp safeExec readPathname Q (l, s) := by
  have herror : ∀ inp, Q (.error .error) ({ l with inp := inp }, s) := fun inp =>
    hQ _ inp unread_error
  have hclose : ∀ inp, Q (.error .close) ({ l with inp := inp }, s) := fun inp =>
    hQ _ inp unread_close
  rw [readPathname, Prog.wp_bind]
  refine safe_readnInt fun r n inp => ?_
  simp only [Prog.wp_ite, Prog.wp_bind, Prog.wp_pure, safe_safeMalloc]
  refine ⟨fun _ => herror inp, fun _ => ⟨fun _ => hclose inp, fun _ _ => ?_⟩⟩
  refine safe_readn_of fun r bytes inp' _ => ?_
  simp only [Prog.wp_ite, Prog.wp_pure]
  exact ⟨fun _ => herror inp', fun _ => ⟨fun _ => hclose inp', fun _ => hQ _ inp' unread_ok⟩⟩

theorem safe_readOpenRequest {Q : Except Sa (CString × ℤ) → World → Prop}
    (hQ : ∀ r inp, Unread r → Q r ({ l with inp := inp }, s)) :
    Prog.wp safeExec readOpenRequest Q (l, s) := by
  rw [readOpenRequest, Prog.wp_bind]
  refine safe_readPathname fun r inp hr => ?_
  cases r with
  | error code => exact hQ _ inp hr.of_error
  | ok pathname =>
    simp only [Prog.wp_bind]
    refine safe_readnInt fun r n inp' => ?_
    simp only [Prog.wp_ite, Prog.wp_pure]
    exact ⟨fun _ => hQ _ inp' unread_error,
      fun _ => ⟨fun _ => hQ _ inp' unread_close, fun _ => hQ _ inp' unread_ok⟩⟩

theorem safe_readWriteRequest {Q : Except Sa (CString × ℤ × List UInt8) → World → Prop}
    (hQ : ∀ r inp, Unread r → (∀ path size buf, r = .ok (path, size, buf) →
      buf.length = toSize size) → Q r ({ l with inp := inp }, s)) :
    Prog.wp safeExec readWriteRequest Q (l, s) := by
  rw [readWriteRequest, Prog.wp_bind]
  refine safe_readPathname fun r inp hr => ?_
  cases r with
  | error code => exact hQ _ inp hr.of_error fun _ _ _ => of_error_eq_ok
  | ok pathname =>
    simp only [Prog.wp_bind]
    refine safe_readn_of fun r bytes inp' _ => ?_
    simp only [Prog.wp_ite, Prog.wp_bind, Prog.wp_pure, safe_safeMalloc]
    refine ⟨fun _ => hQ _ inp' unread_error fun _ _ _ => of_error_eq_ok,
      fun _ => ⟨fun _ => hQ _ inp' unread_close fun _ _ _ => of_error_eq_ok, fun _ _ => ?_⟩⟩
    refine safe_readn_of fun r buf inp'' hbuf => ?_
    simp only [Prog.wp_ite, Prog.wp_pure]
    refine ⟨fun _ => hQ _ inp'' unread_error fun _ _ _ => of_error_eq_ok,
      fun h1 => ⟨fun _ => hQ _ inp'' unread_close fun _ _ _ => of_error_eq_ok,
      fun h0 => hQ _ inp'' unread_ok fun path size buf' he => ?_⟩⟩
    simp only [Except.ok.injEq, Prod.mk.injEq] at he
    obtain ⟨-, rfl, rfl⟩ := he
    exact hbuf h1 h0

theorem safe_readAppendRequest {Q : Except Sa (CString × ℕ × List UInt8) → World → Prop}
    (hQ : ∀ r inp, Unread r → (∀ path size buf, r = .ok (path, size, buf) →
      buf.length = size) → Q r ({ l with inp := inp }, s)) :
    Prog.wp safeExec readAppendRequest Q (l, s) := by
  rw [readAppendRequest, Prog.wp_bind]
  refine safe_readPathname fun r inp hr => ?_
  cases r with
  | error code => exact hQ _ inp hr.of_error fun _ _ _ => of_error_eq_ok
  | ok pathname =>
    simp only [Prog.wp_bind]
    refine safe_readn_of fun r bytes inp' _ => ?_
    simp only [Prog.wp_ite, Prog.wp_bind, Prog.wp_pure, safe_safeMalloc]
    refine ⟨fun _ => hQ _ inp' unread_error fun _ _ _ => of_error_eq_ok,
      fun _ => ⟨fun _ => hQ _ inp' unread_close fun _ _ _ => of_error_eq_ok,
        fun _ => ⟨fun _ _ => ?_, fun hsize => ?_⟩⟩⟩
    · refine safe_readn_of fun r buf inp'' hbuf => ?_
      simp only [Prog.wp_ite, Prog.wp_bind, Prog.wp_pure, safe_malloc]
      refine ⟨fun _ => hQ _ inp'' unread_error fun _ _ _ => of_error_eq_ok,
        fun h1 => ⟨fun _ => hQ _ inp'' unread_close fun _ _ _ => of_error_eq_ok,
          fun h0 => ⟨fun _ => hQ _ inp'' unread_error fun _ _ _ => of_error_eq_ok,
            fun _ => hQ _ inp'' unread_ok fun path size buf' he => ?_⟩⟩⟩
      simp only [Except.ok.injEq, Prod.mk.injEq] at he
      obtain ⟨-, rfl, rfl⟩ := he
      exact hbuf h1 h0
    · simp only [Prog.wp_ite, Prog.wp_pure, safe_malloc]
      refine ⟨fun _ => hQ _ inp' unread_error fun _ _ _ => of_error_eq_ok,
        fun _ => hQ _ inp' unread_ok fun path size buf he => ?_⟩
      simp only [Except.ok.injEq, Prod.mk.injEq] at he
      obtain ⟨-, rfl, rfl⟩ := he
      exact (Nat.eq_zero_of_not_pos hsize).symm

theorem safe_readNRequest {Q : Except Sa ℤ → World → Prop}
    (hQ : ∀ r inp, Unread r → Q r ({ l with inp := inp }, s)) :
    Prog.wp safeExec readNRequest Q (l, s) := by
  rw [readNRequest, Prog.wp_bind]
  refine safe_readnInt fun r n inp => ?_
  simp only [Prog.wp_ite, Prog.wp_bind, Prog.wp_pure, safe_malloc, safe_safeMalloc]
  exact ⟨fun _ => hQ _ inp unread_error, fun _ => ⟨fun _ => hQ _ inp unread_close,
    fun _ => ⟨fun _ => hQ _ inp unread_error, fun _ _ => hQ _ inp unread_ok⟩⟩⟩

/-- Reading a request changes only what is left of the stream. A request that is read
carries as many bytes as it says. -/
theorem safe_readRequest (h : Handler) {Q : Except Sa Request → World → Prop}
    (hQ : ∀ r inp, Unread r → (∀ req, r = .ok req → req.WF) → Q r ({ l with inp := inp }, s)) :
    Prog.wp safeExec (readRequest h) Q (l, s) := by
  have hwf : ∀ {α : Type} {r : Except Sa α} {f : α → Request}, (∀ a, r = .ok a → (f a).WF) →
      ∀ req, r.map f = .ok req → req.WF := fun {α r f} hr req he => by
    cases r with
    | error code => cases he
    | ok a =>
      cases he
      exact hr a rfl
  cases h
  case openFile =>
    rw [readRequest, Prog.wp_bind]
    exact safe_readOpenRequest fun r inp hr => hQ _ inp (hr.map _) (hwf fun _ _ => trivial)
  case writeFile =>
    rw [readRequest, Prog.wp_bind]
    exact safe_readWriteRequest fun r inp hr hbuf => hQ _ inp (hr.map _)
      (hwf fun a ha => hbuf a.1 a.2.1 a.2.2 ha)
  case appendToFile =>
    rw [readRequest, Prog.wp_bind]
    exact safe_readAppendRequest fun r inp hr hbuf => hQ _ inp (hr.map _)
      (hwf fun a ha => hbuf a.1 a.2.1 a.2.2 ha)
  case readNFiles =>
    rw [readRequest, Prog.wp_bind]
    exact safe_readNRequest fun r inp hr => hQ _ inp (hr.map _) (hwf fun _ _ => trivial)
  all_goals
    rw [readRequest, Prog.wp_bind]
    exact safe_readPathname fun r inp hr => hQ _ inp (hr.map _) (hwf fun _ _ => trivial)

end Reading

/-! ## Sending -/

/-- Send pieces one after the other until a send fails. -/
def Local.sendAll (l : Local) : List (List UInt8) → ℤ × Local
  | [] => (0, l)
  | bytes :: rest =>
    if (l.writen bytes).1 = -1 then (-1, (l.writen bytes).2) else (l.writen bytes).2.sendAll rest

/-- The pieces in which a file is sent, with its path or without. -/
def File.pieces (f : File) (sendPath : Bool) : List (List UInt8) :=
  (if sendPath then
    [intBytes (toInt f.pathName.length),
      (f.pathName ++ [0]).take (toSize (toInt (toInt f.pathName.length + 1)))]
  else []) ++ [sizeBytes f.size] ++ if f.size ≠ 0 then [f.contents.take f.size] else []

/-- The pieces in which a list of files is sent. -/
def listPieces (fs : List File) : List (List UInt8) :=
  fs.flatMap (fun f => f.pieces true) ++ [intBytes 0]

section Sending

variable {l : Local} {s : Store} {p : FilePtr} {f : File}

theorem sendAll_append (l : Local) (as bs : List (List UInt8)) :
    l.sendAll (as ++ bs) =
      if (l.sendAll as).1 = -1 then l.sendAll as else (l.sendAll as).2.sendAll bs := by
  induction as generalizing l with
  | nil => rfl
  | cons bytes rest ih =>
    rw [List.cons_append, Local.sendAll, Local.sendAll]
    split_ifs with h h' h'
    · rfl
    · exact absurd rfl h'
    · rw [ih, if_pos h']
    · rw [ih, if_neg h']

theorem sendAll_singleton (l : Local) (bytes : List UInt8) :
    l.sendAll [bytes] = (if (l.writen bytes).1 = -1 then -1 else 0, (l.writen bytes).2) := by
  rw [Local.sendAll]
  split_ifs <;> rfl

/-- What a handler sends changes only how the coming sends end and what has been sent. -/
theorem frame_sendAll (l : Local) (pieces : List (List UInt8)) :
    (l.sendAll pieces).2 =
      { l with sends := (l.sendAll pieces).2.sends, out := (l.sendAll pieces).2.out } := by
  have hwriten : ∀ (l : Local) (bytes : List UInt8), (l.writen bytes).2 =
      { l with sends := (l.writen bytes).2.sends, out := (l.writen bytes).2.out } := by
    intro l bytes
    unfold Local.writen
    split_ifs
    · rfl
    · split <;> rfl
  induction pieces generalizing l with
  | nil => rfl
  | cons bytes rest ih =>
    rw [Local.sendAll]
    split_ifs
    · exact hwriten l bytes
    · rw [ih, hwriten l bytes]

/-- One piece is sent, and then the others if it has not failed. -/
theorem safe_piece {bytes : List UInt8} (rest : List (List UInt8)) {k : M ℤ}
    {Q : ℤ → World → Prop}
    (hk : ∀ l : Local, Q (l.sendAll rest).1 ((l.sendAll rest).2, s) → Prog.wp safeExec k Q (l, s))
    (hQ : Q (l.sendAll (bytes :: rest)).1 ((l.sendAll (bytes :: rest)).2, s)) :
    Prog.wp safeExec (writen bytes >>= fun r => if r = -1 then pure (-1) else k) Q (l, s) := by
  rw [Prog.wp_bind, safe_writen, Prog.wp_ite, Prog.wp_pure]
  rw [Local.sendAll] at hQ
  refine ⟨fun hw => ?_, fun hw => hk _ ?_⟩
  · simpa only [if_pos hw] using hQ
  · simpa only [if_neg hw] using hQ

theorem safe_lastPiece {bytes : List UInt8} {Q : ℤ → World → Prop}
    (hQ : Q (l.sendAll [bytes]).1 ((l.sendAll [bytes]).2, s)) :
    Prog.wp safeExec (writen bytes >>= fun r => if r = -1 then pure (-1) else pure 0) Q (l, s) :=
  safe_piece [] (fun _ h => h) hQ

theorem pieces_true (f : File) : f.pieces true = intBytes (toInt f.pathName.length) ::
    (f.pathName ++ [0]).take (toSize (toInt (toInt f.pathName.length + 1))) ::
      f.pieces false := by
  simp only [File.pieces, if_true, Bool.false_eq_true, if_false, List.cons_append,
    List.nil_append]

theorem sendSingleFile_true (p : FilePtr) : sendSingleFile p true =
    getPathName p >>= fun pathName =>
      writen (intBytes (toInt pathName.length)) >>= fun r =>
        if r = -1 then pure (-1)
        else writen ((pathName ++ [0]).take (toSize (toInt (toInt pathName.length + 1)))) >>=
          fun r => if r = -1 then pure (-1) else sendSingleFile p false := by
  simp only [sendSingleFile, if_true, Bool.false_eq_true, if_false]

theorem safe_sendSingleFile_false {Q : ℤ → World → Prop} (h : s.heap p = some f)
    (hQ : Q (l.sendAll (f.pieces false)).1 ((l.sendAll (f.pieces false)).2, s)) :
    Prog.wp safeExec (sendSingleFile p false) Q (l, s) := by
  simp only [File.pieces, Bool.false_eq_true, if_false, List.nil_append,
    List.singleton_append] at hQ
  simp only [sendSingleFile, Bool.false_eq_true, if_false]
  rw [Prog.wp_bind, safe_getSize]
  refine ⟨f, h, safe_piece _ (fun l hQ => ?_) hQ⟩
  rw [Prog.wp_bind, safe_getSize]
  refine ⟨f, h, ?_⟩
  by_cases hsize : f.size = 0
  · rw [if_neg (not_not.2 hsize)] at hQ ⊢
    exact hQ
  · rw [if_pos hsize] at hQ ⊢
    rw [Prog.wp_bind, safe_getContents]
    refine ⟨f, h, ?_⟩
    rw [Prog.wp_bind, safe_getSize]
    exact ⟨f, h, safe_lastPiece hQ⟩

/-- A file is sent in its pieces. -/
theorem safe_sendSingleFile {sendPath : Bool} {Q : ℤ → World → Prop} (h : s.heap p = some f)
    (hQ : Q (l.sendAll (f.pieces sendPath)).1 ((l.sendAll (f.pieces sendPath)).2, s)) :
    Prog.wp safeExec (sendSingleFile p sendPath) Q (l, s) := by
  cases sendPath with
  | false => exact safe_sendSingleFile_false h hQ
  | true =>
    rw [pieces_true] at hQ
    rw [sendSingleFile_true, Prog.wp_bind, safe_getPathName]
    exact ⟨f, h,
      safe_piece _ (fun l hQ => safe_piece _ (fun l hQ => safe_sendSingleFile_false h hQ) hQ)
      hQ⟩

/-- A list of files is sent in its pieces. -/
theorem safe_sendListOfFiles {ps : List (FilePtr × File)} {Q : ℤ → World → Prop}
    (h : ∀ x ∈ ps, ∃ f, s.heap x.1 = some f ∧ f.pieces true = x.2.pieces true)
    (hQ : Q (l.sendAll (listPieces (ps.map Prod.snd))).1
      ((l.sendAll (listPieces (ps.map Prod.snd))).2, s)) :
    Prog.wp safeExec (sendListOfFiles (ps.map Prod.fst)) Q (l, s) := by
  induction ps generalizing l with
  | nil =>
    simp only [List.map_nil, listPieces, List.flatMap_nil, List.nil_append] at hQ
    exact safe_lastPiece hQ
  | cons x ps ih =>
    obtain ⟨f, hheap, hpieces⟩ := h x List.mem_cons_self
    have hlist : listPieces ((x :: ps).map Prod.snd) =
      x.2.pieces true ++ listPieces (ps.map Prod.snd) := by
      simp only [listPieces, List.map_cons, List.flatMap_cons, List.append_assoc]
    rw [hlist, sendAll_append, ← hpieces] at hQ
    simp only [List.map_cons, sendListOfFiles, Prog.wp_bind]
    refine safe_sendSingleFile hheap ?_
    rw [Prog.wp_ite, Prog.wp_pure]
    refine ⟨fun hs => ?_, fun hs => ih (fun y hy => h y (List.mem_cons_of_mem _ hy)) ?_⟩
    · rw [if_pos hs, hs] at hQ
      exact hQ
    · rwa [if_neg hs] at hQ

end Sending

/-! ## Giving back -/

/-- Delete several objects. -/
def Store.deleteAll (s : Store) (ps : List FilePtr) : Store :=
  ps.foldl Store.delete s

namespace FileSystem

/-- What a reply sends. -/
def Outcome.pieces : Except Sa Outcome → List (List UInt8)
  | .ok (.expelled fs) => intBytes Sa.success.code :: listPieces fs
  | .ok (.reading f) => intBytes Sa.success.code :: f.pieces false
  | .ok (.readingN fs) => intBytes Sa.success.code :: listPieces fs
  | _ => []

/-- The paths that are read through a file object and printed, in a reply. -/
def Outcome.logged : Except Sa Outcome → List CString
  | .ok (.created f y) => (y.map File.pathName).toList ++ [f.pathName]
  | _ => []

/-- The code that a handler returns. -/
def Outcome.code (l : Local) (out : Except Sa Outcome) : Sa :=
  match out with
  | .error code => code
  | .ok _ => if (l.sendAll (Outcome.pieces out)).1 = -1 then .error else .success

/-- The file system after the reply : files that were sent lose their reader, but not if
`read_file` could not send one. -/
def release (fs : FileSystem) : Except Sa Outcome → Sa → FileSystem
  | .ok (.reading f), .success => fs.update f.pathName File.readUnlocked
  | .ok (.readingN gs), _ =>
    { fs with files := fs.files.map fun f =>
        if f.pathName ∈ gs.map File.pathName then f.readUnlocked else f }
  | _, _ => fs

end FileSystem

section Finish

open FileSystem

variable {cfg : ServerConfig} {l : Local} {s : Store} {xs ys zs : List (FilePtr × File)}

theorem safe_deleteList {Q : Unit → World → Prop}
    (hheap : ∀ y ∈ ys, s.heap y.1 = some y.2.writeLocked) (hnodup : (ys.map Prod.fst).Nodup)
    (hQ : Q () (l, s.deleteAll (ys.map Prod.fst))) :
    Prog.wp safeExec (deleteList (ys.map Prod.fst)) Q (l, s) := by
  induction ys generalizing s with
  | nil => exact hQ
  | cons y ys ih =>
    rw [List.map_cons, List.nodup_cons] at hnodup
    rw [List.map_cons, deleteList, Prog.wp_bind]
    refine safe_fileDelete_of (hheap y List.mem_cons_self) (Nat.succ_pos _) ?_
    refine ih (fun z hz => ?_) hnodup.2 hQ
    have hne : z.1 ≠ y.1 := fun he => hnodup.1 (he ▸ List.mem_map_of_mem hz)
    rw [Store.heap_delete, if_neg hne]
    exact hheap z (List.mem_cons_of_mem _ hz)

theorem Store.Idle.delete (hs : s.Idle cfg xs) {p : FilePtr} (hp : p ∉ xs.map Prod.fst) :
    (s.delete p).Idle cfg xs ∧ (s.delete p).fileSystem = s.fileSystem := by
  have hholds := hs.toHolds.delete hp
  have hfs : (s.delete p).fileSystem = s.fileSystem := by
    rw [hholds.fileSystem_eq, hs.fileSystem_eq, Store.currState_delete, Store.files_delete]
  exact ⟨⟨hholds, (Store.locked_delete ..).trans hs.filesMtx,
    (Store.locked_delete ..).trans hs.currStateMtx, hfs ▸ hs.sound⟩, hfs⟩

/-- Deleting objects outside the map leaves the file system as it is. -/
theorem Store.Idle.deleteAll (hs : s.Idle cfg xs) (hys : ∀ y ∈ ys, y.1 ∉ xs.map Prod.fst) :
    (s.deleteAll (ys.map Prod.fst)).Idle cfg xs ∧
      (s.deleteAll (ys.map Prod.fst)).fileSystem = s.fileSystem := by
  induction ys generalizing s with
  | nil => exact ⟨hs, rfl⟩
  | cons y ys ih =>
    obtain ⟨hidle, hfs⟩ := hs.delete (hys y List.mem_cons_self)
    obtain ⟨hidle', hfs'⟩ := ih hidle fun z hz => hys z (List.mem_cons_of_mem _ hz)
    exact ⟨hidle', hfs'.trans hfs⟩

/-- Several files of the map lose a reader. -/
theorem Store.Idle.readUnlockAll (hs : s.Idle cfg xs) (hzs : zs.Sublist xs) :
    ∃ xs', (s.putAll File.readUnlocked zs).Idle cfg xs' ∧
      (s.putAll File.readUnlocked zs).fileSystem =
        s.fileSystem.release (.ok (.readingN (zs.map Prod.snd))) .success := by
  have hholds := hs.toHolds.putAll (g := File.readUnlocked) hzs (fun _ => rfl)
    fun f hf => ⟨hf.fdOpen, hf.size⟩
  have hiff : ∀ x ∈ xs, x.2.pathName ∈ (zs.map Prod.snd).map File.pathName ↔
      x.1 ∈ zs.map Prod.fst := by
    intro x hx
    rw [List.map_map, List.mem_map, List.mem_map]
    refine ⟨fun ⟨z, hz, he⟩ => ⟨z, hz, ?_⟩, fun ⟨z, hz, he⟩ => ⟨z, hz, ?_⟩⟩
    · rw [hs.ext (hzs.subset hz) hx he]
    · rw [hs.ext_ptr (hzs.subset hz) hx he]
      rfl
  have hfs : (s.putAll File.readUnlocked zs).fileSystem =
      s.fileSystem.release (.ok (.readingN (zs.map Prod.snd))) .success := by
    rw [hholds.fileSystem_eq, hs.fileSystem_eq, release, Store.currState_putAll,
      Store.files_putAll, List.map_map, List.map_map]
    refine congrArg (FileSystem.mk · _ _) (List.map_congr_left fun x hx => ?_)
    simp only [Function.comp_apply, hiff x hx]
  refine ⟨_, ⟨hholds, ?_, ?_, ?_⟩, hfs⟩
  · rw [Store.locked_putAll, hs.filesMtx]
  · rw [Store.locked_putAll, hs.currStateMtx]
  · rw [hfs]
    refine hs.sound.congr ?_ rfl
    rw [release, List.map_map]
    refine List.map_congr_left fun f _ => ?_
    rw [Function.comp_apply]
    split_ifs <;> rfl

/-- A reply of several pieces goes one way if a send fails and another way if none does. -/
theorem safe_reply {bytes : List UInt8} (rest : List (List UInt8)) {send : M ℤ}
    {onError onSuccess : M Sa} {Q : Sa → World → Prop}
    (hsend : ∀ (l : Local) (Q : ℤ → World → Prop),
      Q (l.sendAll rest).1 ((l.sendAll rest).2, s) → Prog.wp safeExec send Q (l, s))
    (hfail : (l.sendAll (bytes :: rest)).1 = -1 →
      Prog.wp safeExec onError Q ((l.sendAll (bytes :: rest)).2, s))
    (hok : (l.sendAll (bytes :: rest)).1 ≠ -1 →
      Prog.wp safeExec onSuccess Q ((l.sendAll (bytes :: rest)).2, s)) :
    Prog.wp safeExec (writen bytes >>= fun r =>
      if r = -1 then onError
      else send >>= fun r => if r = -1 then onError else onSuccess) Q (l, s) := by
  rw [Local.sendAll] at hfail hok
  rw [Prog.wp_bind, safe_writen, Prog.wp_ite]
  refine ⟨fun hw => ?_, fun hw => ?_⟩
  · rw [if_pos hw] at hfail
    exact hfail rfl
  · rw [if_neg hw] at hfail hok
    rw [Prog.wp_bind]
    refine hsend _ _ ?_
    rw [Prog.wp_ite]
    exact ⟨hfail, hok⟩

theorem Outcome.code_of_failed {o : Outcome} (h : (l.sendAll (Outcome.pieces (.ok o))).1 = -1) :
    Outcome.code l (.ok o) = .error :=
  if_pos h

theorem Outcome.code_of_sent {o : Outcome} (h : (l.sendAll (Outcome.pieces (.ok o))).1 ≠ -1) :
    Outcome.code l (.ok o) = .success :=
  if_neg h

theorem safe_replyExpelled {Q : Sa → World → Prop} (hys : s.Owns xs ys)
    (hQ : Q (Outcome.code l (.ok (.expelled (ys.map Prod.snd))))
      ((l.sendAll (Outcome.pieces (.ok (.expelled (ys.map Prod.snd))))).2,
        s.deleteAll (ys.map Prod.fst))) :
    Prog.wp safeExec (replyExpelled (ys.map Prod.fst)) Q (l, s) := by
  rw [replyExpelled]
  refine safe_reply (listPieces (ys.map Prod.snd)) (fun l Q hQ => ?_) (fun hs => ?_) fun hs => ?_
  · exact safe_sendListOfFiles (fun y hy => ⟨_, hys.heap y hy, rfl⟩) hQ
  · rw [Outcome.code_of_failed hs] at hQ
    rw [Prog.wp_bind]
    exact safe_deleteList hys.heap hys.nodup hQ
  · rw [Outcome.code_of_sent hs] at hQ
    rw [Prog.wp_bind]
    exact safe_deleteList hys.heap hys.nodup hQ

theorem safe_replyReadingN {Q : Sa → World → Prop} (hheap : ∀ z ∈ zs, s.heap z.1 = some z.2)
    (hread : ∀ z ∈ zs, 0 < z.2.nReaders) (hnodup : (zs.map Prod.fst).Nodup)
    (hQ : Q (Outcome.code l (.ok (.readingN (zs.map Prod.snd))))
      ((l.sendAll (Outcome.pieces (.ok (.readingN (zs.map Prod.snd))))).2,
        s.putAll File.readUnlocked zs)) :
    Prog.wp safeExec (replyReadingN (zs.map Prod.fst)) Q (l, s) := by
  rw [replyReadingN]
  refine safe_reply (listPieces (zs.map Prod.snd)) (fun l Q hQ => ?_) (fun hs => ?_) fun hs => ?_
  · exact safe_sendListOfFiles (fun z hz => ⟨_, hheap z hz, rfl⟩) hQ
  · rw [Outcome.code_of_failed hs] at hQ
    rw [Prog.wp_bind]
    exact safe_readerUnlockAll hheap hread hnodup hQ
  · rw [Outcome.code_of_sent hs] at hQ
    rw [Prog.wp_bind]
    exact safe_readerUnlockAll hheap hread hnodup hQ

/-- The reply of `read_file` unlocks the file if no send fails. -/
theorem safe_replyReading {Q : Sa → World → Prop} {x : FilePtr × File}
    (hheap : s.heap x.1 = some x.2) (hread : 0 < x.2.nReaders)
    (hfail : (l.sendAll (Outcome.pieces (.ok (.reading x.2)))).1 = -1 →
      Q .error ((l.sendAll (Outcome.pieces (.ok (.reading x.2)))).2, s))
    (hok : (l.sendAll (Outcome.pieces (.ok (.reading x.2)))).1 ≠ -1 →
      Q .success ((l.sendAll (Outcome.pieces (.ok (.reading x.2)))).2,
        s.put x.1 x.2.readUnlocked)) :
    Prog.wp safeExec (replyReading x.1) Q (l, s) := by
  rw [replyReading]
  refine safe_reply (x.2.pieces false) (fun l Q hQ => ?_) hfail fun hs => ?_
  · exact safe_sendSingleFile hheap hQ
  · rw [Prog.wp_bind]
    exact safe_fileReaderUnlock_of hheap hread (hok hs)

/-- A file of the map loses a reader. -/
theorem Store.Idle.readUnlock (hs : s.Idle cfg xs) {x : FilePtr × File} (hx : x ∈ xs) :
    ∃ xs', (s.put x.1 x.2.readUnlocked).Idle cfg xs' ∧
      (s.put x.1 x.2.readUnlocked).fileSystem =
        s.fileSystem.release (.ok (.reading x.2)) .success := by
  have hwf : x.2.readUnlocked.WF := ⟨(hs.wf x hx).fdOpen, (hs.wf x hx).size⟩
  have hfs := hs.fileSystem_put hx (g := File.readUnlocked) rfl hwf
  refine ⟨_, ⟨hs.toHolds.put hx rfl hwf, ?_, ?_, ?_⟩, hfs⟩
  · rw [Store.locked_put, hs.filesMtx]
  · rw [Store.locked_put, hs.currStateMtx]
  · rw [hfs]
    exact hs.sound.update fun _ => rfl

/-- What a handler sends does not write to the log. -/
theorem log_sendAll (l : Local) (pieces : List (List UInt8)) : (l.sendAll pieces).2 =
    { (l.sendAll pieces).2 with log := l.log ++ ([] : List CString).map .path } := by
  have hlog : (l.sendAll pieces).2.log = l.log := by
    rw [frame_sendAll]
  rw [List.map_nil, List.append_nil, ← hlog]

/-- What the last part of a handler does : it returns the code of its sends, and the file
system loses the readers of the files that were sent. It only logs the paths of a created and
an expelled file. -/
theorem safe_finish (hs : s.Idle cfg xs) {r : Except Sa Reply} {out : Except Sa Outcome}
    (h : s.Shows xs r out) :
    Prog.wp safeExec (finish r) (fun code w => code = Outcome.code l out ∧
      (∃ xs', w.2.Idle cfg xs') ∧ w.2.fileSystem = s.fileSystem.release out code ∧
      w.1 = { (l.sendAll (Outcome.pieces out)).2 with
        log := l.log ++ (Outcome.logged out).map .path }) (l, s) := by
  cases h with
  | error code => exact ⟨rfl, ⟨xs, hs⟩, rfl, log_sendAll l []⟩
  | done =>
    exact ⟨(Outcome.code_of_sent (by simp [Outcome.pieces, Local.sendAll])).symm, ⟨xs, hs⟩, rfl,
      log_sendAll l []⟩
  | @created p f g y howns hp hname hne =>
    have hcode : Sa.success = Outcome.code l (.ok (.created f (y.map Prod.snd))) :=
      (Outcome.code_of_sent (by simp [Outcome.pieces, Local.sendAll])).symm
    cases y with
    | none =>
      simp only [finish, replyCreated, Option.map_none, Prog.wp_bind, Prog.wp_pure, safe_logger,
        safe_getPathName]
      refine ⟨g, hp, hcode, ⟨xs, hs⟩, rfl, ?_⟩
      rw [hname]
      rfl
    | some y =>
      obtain ⟨hidle, hfs⟩ := hs.delete (howns.outside y (by simp))
      have hheap := howns.heap y (by simp)
      simp only [finish, replyCreated, Option.map_some, Prog.wp_bind, safe_logger,
        safe_getPathName]
      refine ⟨_, hheap, safe_fileDelete_of hheap (Nat.succ_pos _) ?_⟩
      simp only [Prog.wp_bind, Prog.wp_pure, safe_logger, safe_getPathName]
      refine ⟨g, ?_, hcode, ⟨xs, hidle⟩, hfs, ?_⟩
      · rw [Store.heap_delete, if_neg (hne y rfl).symm]
        exact hp
      · rw [hname, List.append_assoc]
        rfl
  | expelled howns =>
    obtain ⟨hidle, hfs⟩ := hs.deleteAll howns.outside
    exact safe_replyExpelled howns ⟨rfl, ⟨xs, hidle⟩, hfs, log_sendAll l _⟩
  | @reading x hx hr =>
    refine safe_replyReading (hs.heap x hx) hr (fun hf => ?_) fun hf => ?_
    · rw [Outcome.code_of_failed hf]
      exact ⟨rfl, ⟨xs, hs⟩, rfl, log_sendAll l _⟩
    · rw [Outcome.code_of_sent hf]
      obtain ⟨xs', hidle, hfs⟩ := hs.readUnlock hx
      exact ⟨rfl, ⟨xs', hidle⟩, hfs, log_sendAll l _⟩
  | readingN hz hr =>
    obtain ⟨xs', hidle, hfs⟩ := hs.readUnlockAll hz
    exact safe_replyReadingN (fun z hzs => hs.heap z (hz.subset hzs)) hr
      (hs.ptrs.sublist (hz.map _)) ⟨rfl, ⟨xs', hidle⟩, hfs, log_sendAll l _⟩

end Finish

end StorageServer
