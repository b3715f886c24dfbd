import Mathlib.Algebra.Order.BigOperators.Group.List
import Mathlib.Algebra.Order.Group.Nat
import StorageServer.ReadNFiles
import StorageServer.Victims

/-!
# Sections that return

From an idle store in which no file is locked, the section of every request returns, whether it is
refused or not, and whatever it has to expel (`ends_storeSection`). Allocations that an object can
have are granted, and there are two readings of the clock. So does the loop of `close_client`
(`ends_closeClientLoop`).
-/

open Programs Selection

namespace StorageServer

/-- Allocations of less than `2 ^ 63` bytes are granted, and there are two readings of the clock. -/
structure Local.Supplied (l : Local) : Prop where
  malloc : ∀ a, (∀ n, a = .safe n → n < 2 ^ 63) → l.malloc a = true
  clock : ∃ t₁ t₂ rest, l.clock = t₁ :: t₂ :: rest

namespace Local.Supplied

variable {l : Local} (hl : l.Supplied)

include hl

/-- An allocation of this size is granted. -/
theorem safe {n : ℕ} (hn : n < 2 ^ 63) : l.malloc (.safe n) = true :=
  hl.malloc _ fun _ he => Allocation.safe.inj he ▸ hn

theorem granted : ExpulsionGranted l.malloc :=
  ⟨hl.safe (by decide), fun _ => hl.malloc _ fun _ he => by cases he⟩

theorem list : l.malloc .list = true :=
  hl.malloc _ fun _ he => by cases he

end Local.Supplied

section Sections

variable {cfg : ServerConfig} {fdClient : ℕ} {l : Local} {s : Store} {xs : List (FilePtr × File)}
  {path : CString} {req : Request}

/-- What a program that returns has done is what every run of it does. -/
theorem ends_bind_of_safe {α β : Type} {p : M α} {k : α → M β} {R : α → World → Prop} {w : World}
    (hsafe : Prog.wp safeExec p R w) (hp : Prog.twp exec p (fun _ _ => True) w)
    (hk : ∀ a w', R a w' → Prog.twp exec (k a) (fun _ _ => True) w') :
    Prog.twp exec (p >>= k) (fun _ _ => True) w := by
  rw [Prog.twp_bind]
  exact Prog.twp_mono (ends_of_safe hsafe hp) hk

@[simp] theorem ends_set_fdLock {p : FilePtr} (v : ℤ) (Q : Unit → World → Prop) :
    Prog.twp exec (set p .fdLock v) Q (l, s) ↔
      ∃ file, s.heap p = some file ∧ Q () (l, s.put p { file with fdLock := v }) :=
  ends_set .fdLock v Q

@[simp] theorem ends_filesRemove (key : CString) (Q : Option FilePtr → World → Prop) :
    Prog.twp exec (filesRemove key) Q (l, s) ↔
      Q (hashmapRemove s.files key).1 (l, s.setFiles (hashmapRemove s.files key).2) :=
  ends_of_ok _ rfl _

@[simp] theorem ends_fileDelete {p : FilePtr} (Q : Unit → World → Prop) :
    Prog.twp exec (fileDelete p) Q (l, s) ↔ ∃ file, s.heap p = some file ∧ Q ()
    (l, s.delete p) := by
  rw [fileDelete, ends_of_withFile (.fileDelete p) rfl]
  exact exists_congr fun file => and_congr_right fun _ => Res.exists_ok_eq

/-! ## Sections that expel nothing -/

theorem ends_closeFileStore (hs : s.Idle cfg xs) (hfree : AllFree xs) :
    Prog.twp exec (closeFileStore fdClient path) (fun _ _ => True) (l, s) := by
  rcases hs.lookup path with ⟨hget, -⟩ | ⟨x, hx, -, hget, hheap, -⟩
  · simp [closeFileStore, hget, hs.filesMtx]
  · obtain ⟨r, fdOpen, hrem, -, -⟩ := (hs.wf x hx).fdOpen.remove_eq fdClient
    have hx := hfree x hx
    simp [closeFileStore, removeOpener, hget, hheap, hs.filesMtx, hx, hrem]

theorem ends_removeFileStore (hs : s.Idle cfg xs) (hfree : AllFree xs) :
    Prog.twp exec (removeFileStore fdClient path) (fun _ _ => True) (l, s) := by
  rcases hs.lookup path with ⟨hget, -⟩ | ⟨x, hx, hpath, hget, hheap, -⟩
  · simp [removeFileStore, hget, hs.filesMtx]
  · have hremoved := (hs.remove hx).1
    rw [hpath] at hremoved
    have hx := hfree x hx
    simp [removeFileStore, hget, hheap, hs.filesMtx, hs.currStateMtx, hx, hremoved]

theorem ends_openFile (hs : s.Idle cfg xs) (hfree : AllFree xs) (hl : l.Supplied) {flags : ℤ} :
    Prog.twp exec (openFileExisting fdClient path flags) (fun _ _ => True) (l, s) := by
  obtain ⟨t₁, t₂, rest, hclock⟩ := hl.clock
  rcases hs.lookup path with ⟨hget, -⟩ | ⟨x, hx, -, hget, hheap, -⟩
  · simp [openFileExisting, hget, hs.filesMtx]
  · have hx := hfree x hx
    simp [openFileExisting, addOpener, hget, hheap, hs.filesMtx, hx, hclock]

theorem ends_readFile (hs : s.Idle cfg xs) (hfree : AllFree xs) (hl : l.Supplied) :
    Prog.twp exec (readFileStore fdClient path) (fun _ _ => True) (l, s) := by
  obtain ⟨t₁, t₂, rest, hclock⟩ := hl.clock
  rcases hs.lookup path with ⟨hget, -⟩ | ⟨x, hx, -, hget, hheap, -⟩
  · simp [readFileStore, hget, hs.filesMtx]
  · have hx := hfree x hx
    simp [readFileStore, hget, hheap, hs.filesMtx, hx, hclock]

/-! ## Sections that expel -/

/-- Room is made for a file that has grown, and the file is still there. -/
theorem ends_makeRoom_grown (hs : s.Idle cfg xs) {x : FilePtr × File} {f : File} {size : ℕ}
    (hf : Grows cfg xs x f size) (hlt : s.currState.space + size < 2 ^ 63) (hfree : AllFree xs)
    (hmalloc : ExpulsionGranted l.malloc) :
    Prog.twp exec (makeRoom cfg x.1 size) (fun _ w => ∃ g, w.2.heap x.1 = some g)
      (l, s.growing x.1 f) := by
  have hsafe : Prog.wp safeExec (makeRoom cfg x.1 size) (fun _ w => ∃ g, w.2.heap x.1 = some g)
      (l, s.growing x.1 f) := by
    refine safe_makeRoom_grown hs hf hlt ⟨f, ?_⟩
    rw [Store.heap_setLocked, Store.heap_setLocked]
    exact Store.heap_grown
  refine ends_of_safe hsafe ?_
  obtain ⟨hholds, hmem, hexp, hspace⟩ := holds_growing hs hf
  have hstate : (s.growing x.1 f).currState = s.currState := by
    simp only [Store.growing, Store.currState_put, Store.currState_setLocked]
  have hheap : (s.growing x.1 f).heap x.1 = some f := hholds.heap _ hmem
  have hend : ∀ (ys : List FilePtr) (w : World),
      Prog.twp exec (makeRoomEnd ys) (fun _ _ => True) w := fun ys w => by
    obtain ⟨l', s'⟩ := w
    simp [makeRoomEnd]
  have hset : ∀ (ys : List FilePtr) (w : World), (∃ g, w.2.heap x.1 = some g) →
      Prog.twp exec (set x.1 .canBeExpelled true >>= fun _ => makeRoomEnd ys) (fun _ _ => True) w :=
    fun ys w hw => by
      rw [Prog.twp_bind, ends_set_canBeExpelled]
      obtain ⟨g, hg⟩ := hw
      exact ⟨g, hg, hend ys _⟩
  have hstart : Prog.twp exec (makeRoomStart cfg x.1 size) (fun _ _ => True)
      (l, s.growing x.1 f) := by
    simp only [makeRoomStart, Prog.twp_bind, ends_getState, ends_setState]
    refine (Prog.twp_ite _ _ _).2 ⟨fun _ => ?_, fun _ => (Prog.twp_pure _).2 trivial⟩
    simp [hheap]
  rw [makeRoom]
  refine ends_bind_of_safe (R :=
    fun n w => n > 0 → Prog.twp exec (expellMultipleFiles cfg (toSize n))
    (fun _ w => ∃ g, w.2.heap x.1 = some g) w) ?_ hstart fun n w hn => ?_
  · refine safe_makeRoomStart (x := (x.1, f)) hholds hmem hexp hspace hf.size_le (by rwa [hstate])
      (fun n hn _ hpos => absurd hpos hn) fun n s' _ hs' hholds' hcases _ => ?_
    have hheap' : s'.heap x.1 = some { f with canBeExpelled := false } := by
      rw [hs']
      exact Store.heap_put_self ..
    rcases hcases with ⟨hgt, -⟩ | ⟨hle, -, hcan⟩
    · have hgt : toSize n > s'.currState.space := hgt
      simp [expellMultipleFiles, hgt, hheap']
    · have hunlocked : s'.Unlocked := hholds'.unlocked_growing hfree
      refine ends_of_safe (safe_expellMultipleFiles hholds' (fun _ => ?_) ?_ ?_ fun ys hys _ => ?_)
        (Prog.twp_mono (hcan.ends hle hunlocked hmalloc) fun _ _ _ => trivial)
      · simpa using hcan.enough
      · simpa using hcan.lt
      · exact fun _ => ⟨_, hheap'⟩
      · refine ⟨_, (Store.heap_expellAll_of_not_mem fun hm => ?_).trans hheap'⟩
        obtain ⟨y, hy, he⟩ := List.mem_map.1 hm
        have hmem' := mem_sorted.1 ((hys ▸ takeWeight_isPrefix _ _).subset hy)
        obtain ⟨hy', hexpy⟩ := List.mem_filter.1 hmem'
        obtain ⟨z, -, rfl⟩ := List.mem_map.1 hy'
        dsimp only [expellable] at hexpy he
        rw [if_pos he] at hexpy
        cases hexpy
  · split_ifs with hpos
    · rw [Prog.twp_bind]
      exact Prog.twp_mono (hn hpos) fun ys w hw => hset ys w hw
    · exact hend [] w

/-- A write that passes its checks makes room. -/
theorem ends_grow {start : M (Except Sa (FilePtr × ℕ))}
    {rest : FilePtr → List FilePtr → M (Except Sa (List FilePtr))}
    (hsafe : Prog.wp safeExec start (fun r w => ∀ p n, r = .ok (p, n) →
      Prog.twp exec (makeRoom cfg p n) (fun _ w => ∃ g, w.2.heap p = some g) w) (l, s))
    (hstart : Prog.twp exec start (fun _ _ => True) (l, s))
    (hrest : ∀ p ys l s, (∃ g, s.heap p = some g) →
      Prog.twp exec (rest p ys) (fun _ _ => True) (l, s)) :
    Prog.twp exec (do
      match ← start with
      | .error code => return .error code
      | .ok (file, size) => rest file (← makeRoom cfg file size)) (fun _ _ => True) (l, s) := by
  refine ends_bind_of_safe hsafe hstart fun r w hr => ?_
  rcases r with code | ⟨p, n⟩
  · exact (Prog.twp_pure _).2 trivial
  · rw [Prog.twp_bind]
    exact Prog.twp_mono (hr p n rfl) fun ys w' hw' => hrest p ys w'.1 w'.2 hw'

theorem ends_writeFile (hs : s.Idle cfg xs) (hfree : AllFree xs) (hl : l.Supplied) {size : ℤ}
    {buf : List UInt8} (hbuf : buf.length = toSize size)
    (hlt : s.currState.space + toSize size < 2 ^ 63) :
    Prog.twp exec (writeFileStore cfg fdClient path size buf) (fun _ _ => True) (l, s) := by
  rw [writeFileStore]
  refine ends_grow ?_ ?_ fun p ys l s hg => ?_
  · refine safe_writeFileStart hs (fun code _ p n he => by cases he) (fun _ _ p n he => by cases he)
      fun x hx _ _ _ he hle t rest hclock p n hok => ?_
    cases hok
    have hgrows := Grows.written hs hx hbuf he hle t
    exact ends_makeRoom_grown hs hgrows hlt hfree hl.granted
  · obtain ⟨t₁, t₂, rest, hclock⟩ := hl.clock
    rcases hs.lookup path with ⟨hget, -⟩ | ⟨x, hx, -, hget, hheap, -⟩
    · simp [writeFileStart, hget, hs.filesMtx]
    · have hx := hfree x hx
      simp [writeFileStart, hget, hheap, hs.filesMtx, hs.currStateMtx, hx, hclock, hl.list]
  · simpa [writeFileEnd] using hg

theorem ends_appendToFile (hs : s.Idle cfg xs) (hfree : AllFree xs) (hl : l.Supplied) {size : ℕ}
    {buf : List UInt8} (hpos : size ≠ 0) (hbuf : buf.length = size)
    (hlt : s.currState.space + size < 2 ^ 63) :
    Prog.twp exec (appendToFileStore cfg fdClient path size buf) (fun _ _ => True) (l, s) := by
  rw [appendToFileStore]
  refine ends_grow ?_ ?_ fun p ys l s hg => ?_
  · refine safe_appendToFileStart hs hpos hbuf hlt (fun code _ p n he => by cases he)
      fun x hx _ _ _ hle t rest hclock p n hok => ?_
    cases hok
    subst hbuf
    exact ends_makeRoom_grown hs (Grows.appended hs hx hle t) hlt hfree hl.granted
  · obtain ⟨t₁, t₂, rest, hclock⟩ := hl.clock
    rcases hs.lookup path with ⟨hget, -⟩ | ⟨x, hx, -, hget, hheap, -⟩
    · simp [appendToFileStart, hget, hs.filesMtx]
    · have hx' := hx
      have hx := hfree x hx
      have hgrant : l.malloc (.safe (toSize ((x.2.size : ℤ) + size))) = true := by
        have hle : x.2.size ≤ s.currState.space := by
          rw [hs.space]
          exact List.le_sum_of_mem (List.mem_map_of_mem hx')
        refine hl.safe ?_
        rw [← Nat.cast_add, toSize_of_range (by omega)]
        exact lt_of_le_of_lt (Nat.add_le_add_right hle _) hlt
      simp [appendToFileStart, hget, hheap, hs.filesMtx, hs.currStateMtx, hx, hclock, hgrant]
  · simpa [appendToFileEnd] using hg

/-- A file is expelled if there is one, and the file at an address stays there. -/
theorem ends_expellSingleFile_keeps (h : s.Holds xs) (hexp : ∀ x ∈ xs, expellable x)
    (hfree : AllFree xs) (hmalloc : ExpulsionGranted l.malloc) {p : FilePtr} {f : File}
    (hheap : s.heap p = some f) :
    Prog.twp exec (expellSingleFile cfg) (fun _ w => ∃ g, w.2.heap p = some g) (l, s) := by
  cases xs with
  | nil =>
    have hnelem : s.files.nelem = 0 := h.nelem
    simp [expellSingleFile, hnelem, hheap]
  | cons x ys =>
    have hx : x ∈ x :: ys := List.mem_cons_self
    refine ends_expellSingleFile h ⟨x, hx, hexp x hx⟩ (h.unlocked fun y hy _ => hfree y hy)
      hmalloc ?_
    refine safe_expellSingleFile h (fun _ => ⟨x, hx, hexp x hx⟩) (fun hnil => by cases hnil)
      fun y hy _ => ?_
    · rw [Store.heap_expellOne]
      split_ifs
      · exact ⟨_, rfl⟩
      · exact ⟨f, hheap⟩

theorem ends_create (hs : s.Idle cfg xs) (hfree : AllFree xs) (hl : l.Supplied) {flags : ℤ} :
    Prog.twp exec (openFileCreate cfg fdClient path flags) (fun _ _ => True) (l, s) := by
  obtain ⟨t₁, t₂, rest, hclock⟩ := hl.clock
  have hstart : Prog.twp exec (openFileCreateStart fdClient path flags) (fun _ _ => True)
      (l, s) := by
    rcases hs.lookup path with ⟨hget, hfind⟩ | ⟨x, hx, -, hget, hheap, -⟩
    · exact Prog.twp_mono (ends_openFileCreateStart hs hfind (hl.safe (by decide))
        (fun _ => hl.malloc _ fun _ he => by cases he) hclock) fun _ _ _ => trivial
    · simp [openFileCreateStart, HashMap.hashmapContains_eq, hget, hs.filesMtx]
  have hend : ∀ (p : FilePtr) (expelled : Option FilePtr) (l : Local) (s : Store),
      (∃ g, s.heap p = some g) →
        Prog.twp exec (openFileCreateEnd path p expelled) (fun _ _ => True) (l, s) :=
    fun p expelled l s hg => by
      obtain ⟨g, hg⟩ := hg
      simp [openFileCreateEnd, hg]
  rw [openFileCreate]
  refine ends_bind_of_safe (R := fun r w => ∀ p, r = .ok p → (∃ g, w.2.heap p = some g) ∧
    Prog.twp exec (expellSingleFile cfg) (fun _ w => ∃ g, w.2.heap p = some g) w) ?_ hstart
      fun r w hr => ?_
  · refine safe_openFileCreateStart hs (fun _ p hp => by cases hp)
      fun hfind t₁ t₂ rest hclock p hp => ?_
    cases hp
    let f₀ : File := (File.new l.malloc path flags fdClient t₁ t₂).unborn
    have hholds := ((hs.toHolds.setLocked true .files).alloc f₀).setLocked true .currState
    have hheap : (((s.setLocked true .files).alloc f₀).setLocked true .currState).heap s.fresh =
        some f₀ := by
      rw [Store.heap_setLocked]
      exact Store.heap_alloc_self _ _ (Store.fresh_setLocked ..).symm
    exact ⟨⟨_, hheap⟩, ends_expellSingleFile_keeps (l := { l with clock := rest }) hholds
      (fun x hx => hs.expellable hx) hfree hl.granted hheap⟩
  · rcases r with code | p
    · exact (Prog.twp_pure _).2 trivial
    · obtain ⟨l', s'⟩ := w
      obtain ⟨hheap, hexpell⟩ := hr p rfl
      rw [Prog.twp_bind, ends_getState]
      refine (Prog.twp_ite _ _ _).2 ⟨fun _ => ?_, fun _ => hend p none l' s' hheap⟩
      rw [Prog.twp_bind]
      exact Prog.twp_mono hexpell fun r w hw => hend p r w.1 w.2 hw

/-! ## Every section -/

/-- The section of every request returns. -/
theorem ends_storeSection (hs : s.Idle cfg xs) (hfree : AllFree xs) (hl : l.Supplied)
    (hreq : req.WF)
    (hfit : s.fileSystem.Fits req) :
    Prog.twp exec (storeSection cfg fdClient req) (fun _ _ => True) (l, s) := by
  have hreply : ∀ {α β : Type} {p : M α} {g : α → β}, Prog.twp exec p (fun _ _ => True) (l, s) →
      Prog.twp exec (p >>= fun a => pure (g a)) (fun _ _ => True) (l, s) := fun hp => by
    rw [Prog.twp_bind]
    exact Prog.twp_mono hp fun _ _ _ => (Prog.twp_pure _).2 trivial
  cases req with
  | openFile path flags =>
    rw [storeSection]
    split
    · exact hreply (ends_create hs hfree hl)
    · exact hreply (ends_openFile hs hfree hl)
  | closeFile path => exact hreply (ends_closeFileStore hs hfree)
  | writeFile path size buf =>
    have hbuf : buf.length = toSize size := hreq
    have hlt : s.currState.space + buf.length < 2 ^ 63 := hs.space_lt hfit
    rw [hbuf] at hlt
    exact hreply (ends_writeFile hs hfree hl hbuf hlt)
  | appendToFile path size buf =>
    have hbuf : buf.length = size := hreq
    have hlt : s.currState.space + buf.length < 2 ^ 63 := hs.space_lt hfit
    rw [hbuf] at hlt
    rw [storeSection]
    split_ifs with hsize
    · exact hreply (ends_appendToFile hs hfree hl (Nat.ne_of_gt hsize) hbuf hlt)
    · exact (Prog.twp_pure _).2 trivial
  | readFile path => exact hreply (ends_readFile hs hfree hl)
  | readNFiles N =>
    refine hreply (ends_readNFilesStore hs (fun f hf => ?_) (fun _ => trivial) (fun _ _ => trivial)
      fun _ _ => trivial)
    rw [hs.fileSystem_eq] at hf
    obtain ⟨x, hx, rfl⟩ := List.mem_map.1 hf
    exact (hfree x hx).2
  | removeFile path => exact hreply (ends_removeFileStore hs hfree)

/-- The loop of `close_client` returns. -/
theorem ends_closeClientLoop {ys : List (FilePtr × File)} (hheap : ∀ y ∈ ys, s.heap y.1 = some y.2)
    (hnodup : (ys.map Prod.fst).Nodup) (hwf : ∀ y ∈ ys, y.2.WF) (hfree : AllFree ys) :
    Prog.twp exec (closeClientLoop fdClient (ys.map Prod.fst)) (fun _ _ => True) (l, s) := by
  induction ys generalizing s with
  | nil => exact (Prog.twp_pure _).2 trivial
  | cons y ys ih =>
    obtain ⟨r, fdOpen, hrem, -, -⟩ :=
      (hwf y List.mem_cons_self).fdOpen.remove_eq fdClient
    rw [List.map_cons, List.nodup_cons] at hnodup
    have hy := hfree y List.mem_cons_self
    have hrest : ∀ g : File, Prog.twp exec (closeClientLoop fdClient (ys.map Prod.fst))
        (fun _ _ => True) (l, s.put y.1 g) := fun g => by
      refine ih (fun z hz => ?_) hnodup.2 (fun z hz => hwf z (List.mem_cons_of_mem _ hz))
        fun z hz => hfree z (List.mem_cons_of_mem _ hz)
      have hne : z.1 ≠ y.1 := fun h => hnodup.1 (List.mem_map.2 ⟨z, hz, h⟩)
      rw [Store.heap_put_of_ne _ _ _ hne]
      exact hheap z (List.mem_cons_of_mem _ hz)
    -- the client is no longer among those that have opened the file
    have hclose : ∀ g : File, g.fdOpen = y.2.fdOpen →
        Prog.twp exec (removeOpener y.1 fdClient >>= fun _ =>
        fileWriterUnlock y.1 >>= fun _ => closeClientLoop fdClient (ys.map Prod.fst))
          (fun _ _ => True) (l, s.put y.1 g) := fun g hg => by
      rw [Prog.twp_bind, removeOpener, Prog.twp_bind, ends_getFdOpen]
      refine ⟨g, Store.heap_put_self .., ?_⟩
      rw [hg, hrem]
      refine (ends_set_fdOpen _ _).2 ⟨g, Store.heap_put_self .., ?_⟩
      rw [Prog.twp_bind, ends_fileWriterUnlock, Store.put_put]
      refine ⟨_, Store.heap_put_self .., ?_⟩
      rw [Store.put_put]
      exact hrest _
    rw [List.map_cons, closeClientLoop, Prog.twp_bind, ends_fileWriterLock]
    refine ⟨y.2, hheap y List.mem_cons_self, hy.2, hy.1, ?_⟩
    rw [Prog.twp_bind, ends_getFdLock]
    refine ⟨_, Store.heap_put_self .., (Prog.twp_ite _ _ _).2 ⟨fun _ => ?_, fun _ => hclose _ rfl⟩⟩
    rw [Prog.twp_bind, ends_set_fdLock]
    refine ⟨_, Store.heap_put_self .., ?_⟩
    rw [Store.put_put]
    exact hclose _ rfl

end Sections

end StorageServer
