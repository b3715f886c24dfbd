import StorageServer.Decoding
import StorageServer.Handling
import StorageServer.Lineage

/-!
# What `read_n_files` sends

Between two requests no file has a writer (`noWriters_of_run`), so `read_n_files` always
returns, and it leaves the store as it was (`ends_readNFiles`). It sends as many files as it is
asked for, or all of them, if there is memory for the list of them, unless it takes their number
from `curr_state` : its loop does not run if that number is `0`, and then the result depends on
a variable that has not been assigned (`readNFiles_of_run`).
-/

open Programs Transitions

namespace StorageServer

/-! ## Writers -/

/-- No file is locked for writing. -/
def FileSystem.NoWriters (fs : FileSystem) : Prop :=
  ∀ f ∈ fs.files, f.nWriters = 0

namespace FileSystem

variable {cfg : ServerConfig} {fdClient : ℕ} {fs fs' : FileSystem} {path : CString}
  {req : Request} {malloc : Allocation → Bool} {readings : List Timespec}
  {out : Except Sa Outcome}

theorem NoWriters.update (h : fs.NoWriters) {g : File → File}
    (hg : ∀ f, (g f).nWriters = f.nWriters) : (fs.update path g).NoWriters := by
  intro f' hf'
  obtain ⟨f, hf, rfl⟩ := mem_update_iff.1 hf'
  split_ifs
  · rw [hg, h f hf]
  · exact h f hf

theorem NoWriters.makeRoom (h : fs.NoWriters) (size : ℕ) :
    (fs.makeRoom cfg path size).2.NoWriters :=
  fun f hf => h f (mem_makeRoom_snd hf)

/-- No request leaves a writer. -/
theorem Effect.noWriters (he : fs.Effect cfg fdClient malloc req readings out fs')
    (h : fs.NoWriters) : fs'.NoWriters := by
  cases he with
  | refused | noMemory | unset | appendedNothing | removedNothing => exact h
  | created hc hf hp =>
    intro f hf
    rcases hp with hp | ⟨-, hp⟩
    · rcases List.mem_append.1 (hp.subset hf) with hf | hf
      · exact h f (mem_makePlace hf)
      · rw [List.mem_singleton.1 hf]
        rfl
    · exact h f (mem_makePlace (hp.subset hf))
  | opened | closed | read => exact h.update fun _ => rfl
  | @written path size buf t =>
    exact NoWriters.makeRoom (h.update (g := File.written (toSize size) buf t) fun _ => rfl) _
  | @appended path size buf t =>
    exact NoWriters.makeRoom (h.update (g := File.appended buf t) fun _ => rfl) _
  | readN =>
    intro f' hf'
    rcases mem_readN_iff.1 hf' with ⟨f, hf, rfl⟩ | hf
    · exact h f (List.mem_of_mem_take hf)
    · exact h f' (List.mem_of_mem_drop hf)
  | removed => exact fun f hf => h f (List.mem_of_mem_filter hf)

theorem NoWriters.release (h : fs.NoWriters) (code : Sa) : (fs.release out code).NoWriters := by
  unfold FileSystem.release
  split
  · exact h.update fun _ => rfl
  · intro f' hf'
    obtain ⟨f, hf, rfl⟩ := List.mem_map.1 hf'
    split_ifs
    · exact h f hf
    · exact h f hf
  · exact h

end FileSystem

/-- Between two requests no file is locked for writing. -/
theorem noWriters_of_run {cfg : ServerConfig} {tr : List Event} {σ : Server}
    (h : Run (serverSystem cfg) tr σ) : σ.store.fileSystem.NoWriters := by
  obtain ⟨φ, hrun, hr⟩ := run_refines h
  rw [hr.fs]
  refine hrun.induction (I := fun _ φ => φ.fs.NoWriters) ?_ ?_
  · rintro φ rfl
    exact nofun
  · rintro tr φ e φ' - hφ hs
    cases hs with
    | request he => exact he.noWriters hφ
    | unread => exact hφ
    | reply => exact hφ.release _
    | disconnect =>
      intro f' hf'
      obtain ⟨f, hf, rfl⟩ := List.mem_map.1 hf'
      exact hφ f hf

/-! ## The handler -/

section Handler

variable {cfg : ServerConfig} {l : Local} {s : Store} {xs ys : List (FilePtr × File)} {N err : ℤ}

/-- The loop locks the first `N` files, if there is memory for the nodes of the list. It does not
assign to `err` if it does not run. -/
theorem ends_readNLoop {acc : List FilePtr} (hheap : ∀ y ∈ ys, s.heap y.1 = some y.2)
    (hnodup : (ys.map Prod.fst).Nodup) (hfree : ∀ y ∈ ys, y.2.nWriters = 0)
    {Q : List FilePtr × ℤ → World → Prop}
    (hrefused : ∀ i zs, i < (ys.take N.toNat).length →
      l.malloc (.listNode (acc.length + i)) = false → zs.Sublist ys →
      Q (acc ++ zs.map Prod.fst, -1) (l, s.putAll File.readLocked zs))
    (hQ : (∀ i < (ys.take N.toNat).length, l.malloc (.listNode (acc.length + i)) = true) →
      Q (acc ++ (ys.take N.toNat).map Prod.fst,
          if N ≤ 0 then err else if N ≤ ys.length then 0 else 1)
        (l, s.putAll File.readLocked (ys.take N.toNat))) :
    Prog.twp exec (readNLoop (ys.map Prod.fst) N err acc) Q (l, s) := by
  induction ys generalizing s N err acc with
  | nil =>
    rw [List.map_nil, readNLoop, Prog.twp_pure]
    have hQ := hQ (by simp)
    by_cases hN : N ≤ 0
    · rw [if_neg (not_lt.2 hN)]
      rw [if_pos hN] at hQ
      simpa using hQ
    · rw [if_pos (not_le.1 hN)]
      rw [if_neg hN, if_neg (by simpa using hN)] at hQ
      simpa using hQ
  | cons y ys ih =>
    rw [List.map_cons, readNLoop, Prog.twp_ite]
    refine ⟨fun hN => ?_, fun hN => ?_⟩
    · obtain ⟨n, rfl⟩ : ∃ n : ℕ, N = n + 1 := ⟨(N - 1).toNat, by omega⟩
      have hn : ((n : ℤ) + 1).toNat = n + 1 := by omega
      have hn' : ((n : ℤ) + 1 - 1).toNat = n := by omega
      rw [List.map_cons, List.nodup_cons] at hnodup
      rw [hn, List.take_succ_cons, List.length_cons] at hrefused hQ
      have hy := hheap y List.mem_cons_self
      simp only [Prog.twp_bind, ends_fileReaderLock, Prog.twp_ite, ends_malloc]
      refine ⟨y.2, hy, hfree y List.mem_cons_self, fun hnode => ?_, fun hnode => ?_⟩
      · -- the file is given up again
        have hlost := hrefused 0 [] (Nat.succ_pos _) (by simpa using hnode) (List.nil_sublist _)
        rw [List.map_nil, List.append_nil, Store.putAll_nil] at hlost
        refine ends_of_prompt ((Prog.only_perform (Op.fileReaderUnlock y.1)).2 trivial) ?_
        refine safe_fileReaderUnlock_of (Store.heap_put_self ..) (Nat.succ_pos _) ?_
        simpa [Store.put_self hy] using hlost
      · have hnode : l.malloc (.listNode acc.length) = true := by simpa using hnode
        refine ih (fun z hz => ?_) hnodup.2 (fun z hz => hfree z (List.mem_cons_of_mem _ hz))
          (fun i zs hi hi' hzs => ?_) fun hall => ?_
        · have hne : z.1 ≠ y.1 := fun h => hnodup.1 (List.mem_map.2 ⟨z, hz, h⟩)
          rw [Store.heap_put_of_ne _ _ _ hne]
          exact hheap z (List.mem_cons_of_mem _ hz)
        · rw [hn'] at hi
          rw [List.length_append, List.length_singleton, Nat.add_assoc, Nat.add_comm 1 i] at hi'
          have hlost := hrefused (i + 1) (y :: zs) (Nat.succ_lt_succ hi) hi' (hzs.cons_cons y)
          rwa [List.map_cons, Store.putAll_cons, ← List.singleton_append, ← List.append_assoc]
            at hlost
        · have herr : (if (n : ℤ) + 1 - 1 ≤ 0 then (0 : ℤ)
              else if (n : ℤ) + 1 - 1 ≤ ys.length then 0 else 1) =
              if (n : ℤ) + 1 ≤ 0 then err else if (n : ℤ) + 1 ≤ (y :: ys).length then 0 else 1 := by
            rw [List.length_cons]
            split_ifs <;> first | rfl | omega
          rw [hn'] at hall ⊢
          rw [herr]
          have hQ := hQ fun i hi => by
            cases i with
            | zero => exact hnode
            | succ i =>
              have := hall i (Nat.lt_of_succ_lt_succ hi)
              rwa [List.length_append, List.length_singleton, Nat.add_assoc, Nat.add_comm 1 i]
                at this
          rw [List.map_cons, Store.putAll_cons] at hQ
          rwa [List.append_assoc]
    · have hle : N ≤ 0 := not_lt.1 hN
      have hzero : N.toNat = 0 := by omega
      rw [hzero, List.take_zero] at hQ
      have hQ := hQ (by simp)
      rw [Prog.twp_pure]
      rw [if_pos hle] at hQ
      simpa using hQ

/-- There is memory for the nodes of a list of so many files. -/
def Local.GrantsNodes (l : Local) (n : ℕ) : Prop :=
  ∀ i < n, l.malloc (.listNode i) = true

/-- The section of `read_n_files` : it is refused if there is no memory for the list of the files,
or if no file is to be sent and the variable that is not assigned holds `-1`. -/
theorem ends_readNFilesStore (hs : s.Idle cfg xs) (hfree : s.fileSystem.NoWriters)
    {Q : Except Sa (List FilePtr) → World → Prop}
    (hrefused : ¬l.GrantsNodes (xs.take (s.fileSystem.countRead N)).length →
      Q (.error .error) (l, s))
    (hunset : s.fileSystem.countRead N = 0 → l.uninit = -1 → Q (.error .error) (l, s))
    (hset : (s.fileSystem.countRead N = 0 → l.uninit ≠ -1) →
      l.GrantsNodes (xs.take (s.fileSystem.countRead N)).length →
      Q (.ok ((xs.take (s.fileSystem.countRead N)).map Prod.fst))
        (l, s.putAll File.readLocked (xs.take (s.fileSystem.countRead N)))) :
    Prog.twp exec (readNFilesStore N) Q (l, s) := by
  have hfiles : ∀ x ∈ xs, x.2.nWriters = 0 := fun x hx => by
    refine hfree x.2 ?_
    rw [hs.fileSystem_eq]
    exact List.mem_map_of_mem hx
  have hcount : (if N ≤ 0 then toInt s.currState.files else N).toNat =
    s.fileSystem.countRead N := rfl
  simp only [readNFilesStore, Prog.twp_bind, ends_mutexLock, ends_getState, ends_mutexUnlock,
    ends_uninit, ends_filesIter, Store.files_setLocked, Store.currState_setLocked, hs.iter]
  refine ⟨hs.filesMtx, ?_, ?_⟩
  · simp [hs.currStateMtx]
  have hheap : ∀ y ∈ xs, (((s.setLocked true .files).setLocked true .currState).setLocked false
      .currState).heap y.1 = some y.2 := fun y hy => by
    rw [Store.heap_setLocked, Store.heap_setLocked, Store.heap_setLocked]
    exact hs.heap y hy
  generalize hcountN : (if N ≤ 0 then toInt s.currState.files else N) = c at hcount ⊢
  refine ends_readNLoop hheap hs.ptrs hfiles (fun i zs hi hi' hzs => ?_) fun hall => ?_
  · rw [hcount] at hi
    rw [List.length_nil, Nat.zero_add] at hi'
    have hlost := hrefused fun hall => by rw [hall i hi] at hi'; cases hi'
    rw [List.nil_append, if_pos rfl, Prog.twp_bind]
    refine ends_of_prompt (prompt_of_replying (replying_readerUnlockAll _)) (safe_readerUnlockAll_locked
      (fun z hz => hheap z (hzs.subset hz)) (hs.ptrs.sublist (hzs.map _)) ?_)
    simpa [hs.filesMtx, hs.currStateMtx] using hlost
  rw [hcount] at hall
  simp only [List.length_nil, Nat.zero_add] at hall
  rw [hcount, Prog.twp_ite]
  have hzero : c ≤ 0 ↔ s.fileSystem.countRead N = 0 := by omega
  refine ⟨fun herr => ?_, fun herr => ?_⟩
  · have hc : c ≤ 0 := by
      by_contra hc
      rw [if_neg hc] at herr
      split_ifs at herr
    rw [if_pos hc] at herr
    have hnone := hzero.1 hc
    simpa [hnone, readerUnlockAll, hs.filesMtx, hs.currStateMtx] using hunset hnone herr
  · have hfilled := hset (fun hnone => by rwa [if_pos (hzero.2 hnone)] at herr) hall
    simpa [hs.filesMtx, hs.currStateMtx] using hfilled

/-- The request of `read_n_files`, which ends the process if there is no memory for its
iterator. -/
theorem ends_readNRequest_iff (hN : Api.Call.ValidInt N) {rest : List UInt8}
    {Q : Except Sa ℤ → World → Prop} :
    Prog.twp exec readNRequest Q (l.left (intBytes N ++ rest), s) ↔
      if l.malloc .list = true then l.malloc (.safe sizeofHashIter) = true ∧
        Q (.ok N) (l.left rest, s)
      else Q (.error .error) (l.left rest, s) := by
  obtain ⟨r, w, hread, rfl, rfl⟩ : Prog.twp exec readnInt
      (fun r w => r = (4, N) ∧ w = (l.left rest, s)) (l.left (intBytes N ++ rest), s) :=
    ends_readnInt hN.1 hN.2 ⟨rfl, rfl⟩
  have hiff : Prog.twp exec readNRequest Q (l.left (intBytes N ++ rest), s) ↔
      Prog.twp exec (do
        if !(← malloc .list) then
          return .error .error
        safeMalloc sizeofHashIter
        return .ok N) Q (l.left rest, s) := by
    rw [readNRequest, Prog.twp, Prog.twp, Prog.run_bind, hread]
    rfl
  rw [hiff, Prog.twp_bind, ends_malloc, Prog.twp_ite, Local.malloc_left]
  cases l.malloc .list <;> simp

/-- `read_n_files` : it is refused if there is no memory for the list of the files, or if no file
is to be sent and the variable that is not assigned holds `-1`, and else it sends the first files.
The store is as it was. -/
theorem ends_readNFiles (hs : s.Idle cfg xs) (hfree : s.fileSystem.NoWriters)
    (hN : Api.Call.ValidInt N) (hsends : l.Reliable)
    (hiter : l.malloc (.safe sizeofHashIter) = true)
    {rest : List UInt8} {Q : Sa → World → Prop}
    (hrefused : ¬(l.malloc .list = true ∧
      l.GrantsNodes (xs.take (s.fileSystem.countRead N)).length) → Q .error (l.left rest, s))
    (hunset : s.fileSystem.countRead N = 0 → l.uninit = -1 → Q .error (l.left rest, s))
    (hset : l.malloc .list = true ∧ l.GrantsNodes (xs.take (s.fileSystem.countRead N)).length →
      (s.fileSystem.countRead N = 0 → l.uninit ≠ -1) → ∀ l',
        l'.out = l.out ++ (intBytes Sa.success.code ++
        (listPieces ((xs.take (s.fileSystem.countRead N)).map Prod.snd)).flatten) →
      Q .success (l', s)) :
    Prog.twp exec readNFiles Q (l.left (intBytes N ++ rest), s) := by
  rw [readNFiles, Prog.twp_bind, ends_readNRequest_iff hN]
  split_ifs with hlist
  swap
  · exact (Prog.twp_pure _).2 (hrefused fun h => hlist h.1)
  refine ⟨hiter, ?_⟩
  rw [Prog.twp_bind]
  refine ends_readNFilesStore hs hfree
    (fun hnodes => (Prog.twp_pure _).2 (hrefused fun h => hnodes h.2))
    (fun hnone herr => (Prog.twp_pure _).2 (hunset hnone herr)) fun herr hnodes => ?_
  let ys := xs.take (s.fileSystem.countRead N)
  let zs := ys.map fun y => (y.1, y.2.readLocked)
  have hys : ∀ y ∈ ys, s.heap y.1 = some y.2 := fun y hy => hs.heap y (List.mem_of_mem_take hy)
  have hnodup : (ys.map Prod.fst).Nodup := hs.ptrs.sublist ((List.take_sublist _ _).map _)
  have hfst : zs.map Prod.fst = ys.map Prod.fst := by
    rw [List.map_map]
    rfl
  have hheap : ∀ z ∈ zs, (s.putAll File.readLocked ys).heap z.1 = some z.2 := by
    intro z hz
    obtain ⟨y, hy, rfl⟩ := List.mem_map.1 hz
    exact Store.heap_putAll_of_mem hnodup hy
  have hread : ∀ z ∈ zs, 0 < z.2.nReaders := by
    intro z hz
    obtain ⟨y, -, rfl⟩ := List.mem_map.1 hz
    exact Nat.succ_pos _
  have hl : (l.left rest).Reliable := hsends
  let pieces := intBytes Sa.success.code :: listPieces (zs.map Prod.snd)
  have hsent : ((l.left rest).sendAll pieces).1 ≠ -1 := by
    rw [(sendAll_reliable hl pieces).2]
    decide
  have hsame : listPieces (zs.map Prod.snd) = listPieces (ys.map Prod.snd) := by
    rw [listPieces, listPieces, List.map_map, List.flatMap_map, List.flatMap_map]
    rfl
  have hout := (sendAll_steady hl.steady pieces).2 hsent
  have hreply : Prog.twp exec (replyReadingN (zs.map Prod.fst)) Q
      (l.left rest, s.putAll File.readLocked ys) := by
    refine ends_of_prompt (prompt_of_replying (replying_finish (.ok (.readingN _))))
      (safe_replyReadingN hheap hread (hfst ▸ hnodup) ?_)
    rw [Outcome.code_of_sent hsent, Store.putAll_readUnlocked hys hnodup]
    refine hset ⟨hlist, hnodes⟩ herr _ (hout.trans ?_)
    rw [List.flatten_cons, hsame]
    rfl
  rwa [hfst] at hreply

end Handler

/-! ## The files that are asked for -/

/-- How many files are asked for : `N`, or all of them if there are no more or `N` is not
positive. -/
def FileSystem.asked (fs : FileSystem) (N : ℤ) : ℕ :=
  if 0 < N then min N.toNat fs.files.length else fs.files.length

/-- These are as many of the stored files as are asked for, with all their contents. -/
structure FileSystem.Asked (fs : FileSystem) (N : ℤ) (files : List File) : Prop where
  subset : files ⊆ fs.files
  nodup : (files.map File.pathName).Nodup
  length : files.length = fs.asked N
  full : ∀ f ∈ files, f.contents.length = f.size

section Asked

variable {cfg : ServerConfig} {tr : List Event} {l : Local} {s : Store} {N : ℤ} {rest : List UInt8}
  {files : List File}

/-- The bytes of a list of files. -/
theorem length_listPieces (files : List File) : (listPieces files).flatten.length =
    (files.map fun f => (f.pieces true).flatten.length).sum + 4 := by
  induction files with
  | nil => rfl
  | cons f files ih =>
    have hcons : listPieces (f :: files) = f.pieces true ++ listPieces files := by
      rw [listPieces, List.flatMap_cons, List.append_assoc]
      rfl
    rw [hcons, List.flatten_append, List.length_append, ih, List.map_cons, List.sum_cons,
      Nat.add_assoc]

/-- Not all files are fewer bytes than all files. -/
theorem length_listPieces_take_lt {k : ℕ} (hk : k < files.length) :
    (listPieces (files.take k)).flatten.length < (listPieces files).flatten.length := by
  obtain ⟨f, rest, hdrop⟩ : ∃ f rest, files.drop k = f :: rest :=
    List.exists_cons_of_ne_nil (List.ne_nil_of_length_pos (by rw [List.length_drop]; omega))
  have hpos : 0 < (f.pieces true).flatten.length := by
    simp only [File.pieces, if_true, List.flatten_append, List.length_append, List.flatten_cons,
      length_intBytes]
    omega
  rw [length_listPieces, length_listPieces]
  conv_rhs => rw [← List.take_append_drop k files, hdrop]
  rw [List.map_append, List.sum_append, List.map_cons, List.sum_cons]
  omega

/-- As many files as are asked for, if that is all of them, are as many bytes as all of them. -/
theorem FileSystem.Asked.length_listPieces {fs : FileSystem} (h : fs.Asked N files)
    (hall : files.length = fs.files.length) :
    (listPieces files).flatten.length = (listPieces fs.files).flatten.length := by
  have hperm : files.Perm fs.files :=
    (List.subperm_of_subset (List.Nodup.of_map _ h.nodup) h.subset).perm_of_length_le hall.ge
  rw [StorageServer.length_listPieces, StorageServer.length_listPieces, (hperm.map _).sum_eq]

/-- The loop takes as many files as are asked for, if it takes a number of them from the request
or `curr_state` counts no fewer than are stored. -/
theorem length_take_countRead
    (hcond : 0 < N ∨ if 0 < toInt s.currState.files then
        (s.fileSystem.files.length : ℤ) ≤ toInt s.currState.files
      else s.fileSystem.files = [] ∧ l.uninit ≠ -1) :
    (s.fileSystem.files.take (s.fileSystem.countRead N)).length = s.fileSystem.asked N := by
  have hk : s.fileSystem.countRead N = (if N ≤ 0 then toInt s.currState.files else N).toNat := rfl
  rw [List.length_take, hk, FileSystem.asked]
  by_cases hN0 : 0 < N
  · rw [if_pos hN0, if_neg (not_le.2 hN0)]
  · have hcond := hcond.resolve_left hN0
    rw [if_neg hN0, if_pos (not_lt.1 hN0)]
    split_ifs at hcond with hpos
    · omega
    · rw [hcond.1]
      exact Nat.min_zero _

/-- A `read_n_files` that returns a success has had memory for its iterator. -/
theorem iterator_of_readNFiles {w : World} (hN : Api.Call.ValidInt N)
    (h : Prog.run exec readNFiles (l.left (intBytes N ++ rest), s) = .ok (.success, w)) :
    l.malloc (.safe sizeofHashIter) = true := by
  have hends : Prog.twp exec readNFiles (fun code _ => code = .success)
      (l.left (intBytes N ++ rest), s) := ⟨_, _, h, rfl⟩
  rw [readNFiles, Prog.twp_bind, ends_readNRequest_iff hN] at hends
  split_ifs at hends
  · exact hends.1
  · rw [Prog.twp_pure] at hends
    cases hends

/-- In every reachable store, `read_n_files` sends what is asked for and leaves the store as it
was, if there is memory for its iterator and for the list of the files, and it is asked for a
number of files, or the counted files are a positive `int` that is not less than the stored ones,
or no file is stored and the variable that is not assigned does not hold `-1`. -/
theorem readNFiles_of_run (hrun : Run (serverSystem cfg) tr ⟨s, none⟩) (hN : Api.Call.ValidInt N)
    (hsends : l.Reliable) :
    (∃ l' files, Prog.run exec readNFiles (l.left (intBytes N ++ rest), s) =
        .ok (.success, (l', s)) ∧ s.fileSystem.Asked N files ∧
      l'.out = l.out ++ (intBytes Sa.success.code ++ (listPieces files).flatten)) ↔
    (l.malloc .list = true ∧ l.malloc (.safe sizeofHashIter) = true ∧
      l.GrantsNodes (s.fileSystem.asked N)) ∧
    (0 < N ∨ if 0 < toInt s.currState.files then
        (s.fileSystem.files.length : ℤ) ≤ toInt s.currState.files
      else s.fileSystem.files = [] ∧ l.uninit ≠ -1) := by
  obtain ⟨xs, hs⟩ := idle_of_run hrun
  have hfiles : s.fileSystem.files = xs.map Prod.snd := congrArg FileSystem.files hs.fileSystem_eq
  let k := s.fileSystem.countRead N
  have hk : k = (if N ≤ 0 then toInt s.currState.files else N).toNat := rfl
  have htake : (xs.take k).map Prod.snd = s.fileSystem.files.take k := by
    rw [hfiles, List.map_take]
  have hlen : (xs.take k).length = (s.fileSystem.files.take k).length := by
    rw [← htake, List.length_map]
  let granted := l.malloc .list = true ∧ l.GrantsNodes (s.fileSystem.files.take k).length
  let set := k = 0 → l.uninit ≠ -1
  have hends : l.malloc (.safe sizeofHashIter) = true → Prog.twp exec readNFiles
      (fun code w => w.2 = s ∧ (granted → set → code = .success) ∧
        (code = .success → granted ∧ set ∧ w.1.out = l.out ++
          (intBytes Sa.success.code ++ (listPieces (s.fileSystem.files.take k)).flatten)))
      (l.left (intBytes N ++ rest), s) := by
    intro hiter
    refine ends_readNFiles hs (noWriters_of_run hrun) hN hsends hiter (fun hmemory => ?_)
      (fun hnone herr => ?_) fun hmemory hset l' hout => ?_
    · rw [hlen] at hmemory
      exact ⟨rfl, fun h => absurd h hmemory, fun h => by cases h⟩
    · exact ⟨rfl, fun _ hset => absurd herr (hset hnone), fun h => by cases h⟩
    · rw [hlen] at hmemory
      rw [htake] at hout
      exact ⟨rfl, fun _ _ => rfl, fun _ => ⟨hmemory, hset, hout⟩⟩
  constructor
  · rintro ⟨l₁, files, hrun₁, hasked, hout₁⟩
    have hiter : l.malloc (.safe sizeofHashIter) = true := iterator_of_readNFiles hN hrun₁
    obtain ⟨code, ⟨l', s'⟩, hrun', hstore, -, hsuccess⟩ := hends hiter
    obtain rfl : s = s' := hstore.symm
    rw [hrun'] at hrun₁
    cases hrun₁
    obtain ⟨⟨hlist, hnodes⟩, hset, hout⟩ := hsuccess rfl
    -- the bytes are those of the first files, and those of all files
    rw [hout₁] at hout
    have hbytes : (listPieces files).flatten = (listPieces (s.fileSystem.files.take k)).flatten :=
      List.append_cancel_left (List.append_cancel_left hout)
    have hcond : 0 < N ∨ if 0 < toInt s.currState.files then
        (s.fileSystem.files.length : ℤ) ≤ toInt s.currState.files
        else s.fileSystem.files = [] ∧ l.uninit ≠ -1 := by
      by_contra hcond
      rw [not_or] at hcond
      obtain ⟨hN0, hcond⟩ := hcond
      have hkN : k = (toInt s.currState.files).toNat := by rw [hk, if_pos (not_lt.1 hN0)]
      have hall : files.length = s.fileSystem.files.length := by
        rw [hasked.length, FileSystem.asked, if_neg hN0]
      have hge : s.fileSystem.files.length ≤ k := by
        by_contra hlt
        have hless := length_listPieces_take_lt (not_le.1 hlt)
        rw [← hbytes, hasked.length_listPieces hall] at hless
        exact lt_irrefl _ hless
      split_ifs at hcond with hpos
      · omega
      · have hzero : k = 0 := by omega
        exact hcond ⟨List.eq_nil_of_length_eq_zero (by omega), hset hzero⟩
    refine ⟨⟨hlist, hiter, ?_⟩, hcond⟩
    change l.GrantsNodes (s.fileSystem.files.take (s.fileSystem.countRead N)).length at hnodes
    rwa [length_take_countRead hcond] at hnodes
  · rintro ⟨⟨hlist, hiter, hnodes⟩, hcond⟩
    have hset : set := by
      intro hnone
      rcases hcond with hN0 | hcond
      · rw [hk, if_neg (not_le.2 hN0)] at hnone
        omega
      · split_ifs at hcond with hpos
        · rw [hk] at hnone
          split_ifs at hnone <;> omega
        · exact hcond.2
    have hsent := length_take_countRead hcond
    obtain ⟨code, ⟨l', s'⟩, hrun', hstore, hcode, hsuccess⟩ := hends hiter
    obtain rfl : s = s' := hstore.symm
    obtain rfl := hcode ⟨hlist, hsent ▸ hnodes⟩ hset
    obtain ⟨-, -, hout⟩ := hsuccess rfl
    exact ⟨l', _, hrun',
      ⟨List.take_subset .., hs.sound.names.sublist ((List.take_sublist ..).map _),
      hsent, fun f hf => hs.wf_files (List.mem_of_mem_take hf)⟩, hout⟩

/-- An example of `readNFiles_of_run` : a client asks for all files of a server with two files,
one of them written. -/
theorem readNFiles_of_run_all : ∃ (s : Store) (l' : Local) (files : List File),
    s.fileSystem.files.map File.contents = [[], [3, 4]] ∧
    Prog.run exec readNFiles ((Local.at 6).left (intBytes 0 ++ []), s) =
      .ok (.success, (l', s)) ∧ s.fileSystem.Asked 0 files ∧
    l'.out = [] ++ (intBytes Sa.success.code ++ (listPieces files).flatten) := by
  obtain ⟨tr, ⟨s, replying⟩, hrun, rfl, hfiles, hcount⟩ := (computes_next .small).exists_run
    ⟨.initial, none⟩ rfl (expulsions.take 10)
    (fun _ σ => σ.replying = none ∧
      σ.store.fileSystem.files.map File.contents = [[], [3, 4]] ∧
      0 < toInt σ.store.currState.files ∧
      (σ.store.fileSystem.files.length : ℤ) ≤ toInt σ.store.currState.files) (by decide +kernel)
  obtain ⟨l', files, hends, hasked, hout⟩ : ∃ l' files,
      Prog.run exec readNFiles ((Local.at 6).left (intBytes 0 ++ []), s) =
        .ok (.success, (l', s)) ∧ s.fileSystem.Asked 0 files ∧
      l'.out = [] ++ (intBytes Sa.success.code ++ (listPieces files).flatten) :=
    (readNFiles_of_run hrun ⟨by decide, by decide⟩ (fun _ h => by cases h)).2
      ⟨⟨rfl, rfl, fun _ _ => rfl⟩, .inr (by rw [if_pos hcount.1]; exact hcount.2)⟩
  exact ⟨s, l', files, hfiles, hends, hasked, hout⟩

/-- A client asks for all files of a server without files, and the variable that is not assigned
holds `-1` : the request is an error. -/
theorem not_readNFiles_of_run_initial : ¬ ∃ (l' : Local) (files : List File),
    Prog.run exec readNFiles
      ({ Local.ofBytes [] [] [] with uninit := -1 }.left (intBytes 0 ++ []), Store.initial) =
        .ok (.success, (l', Store.initial)) ∧ Store.initial.fileSystem.Asked 0 files ∧
      l'.out = [] ++ (intBytes Sa.success.code ++ (listPieces files).flatten) := by
  let l : Local := { Local.ofBytes [] [] [] with uninit := -1 }
  have hnone : Store.initial.fileSystem.countRead 0 = 0 := by
    change (toInt (0 : ℤ)).toNat = 0
    rw [toInt_of_range (by decide) (by decide)]
    rfl
  have hsends : l.Reliable := List.forall_mem_nil _
  have hends : Prog.twp exec readNFiles (fun code _ => code = .error)
      (l.left (intBytes 0 ++ []), Store.initial) :=
    ends_readNFiles (@idle_initial ⟨0, 1, .LRU, by decide, by decide⟩) (List.forall_mem_nil _)
      ⟨by decide, by decide⟩ hsends rfl (fun _ => rfl) (fun _ _ => rfl)
      fun _ hset => absurd rfl (hset hnone)
  rintro ⟨l', files, hsent, -, -⟩
  obtain ⟨code, w, hrun, rfl⟩ := hends
  rw [hrun] at hsent
  cases hsent

end Asked

end StorageServer
