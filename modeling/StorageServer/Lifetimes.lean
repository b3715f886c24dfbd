import StorageServer.Concurrency
import StorageServer.Holding

/-!
# The lifetimes of the file objects

Each file is in the map, or a thread has it : one that has created it and not put it into the map,
or one that has removed it from the map and not deleted it. It is never in two of these places
(`Guarded.one`), so it is there (`Guarded.there`), and whatever the threads do between each other,
none of them accesses a file that another one can delete, but for `open_file`, which prints the path
of the file that it has created.
-/

open Programs Transitions Threads Function

namespace StorageServer

/-! ## Operations on the map -/

/-- The files in the map. -/
def Store.stored (s : Store) : List FilePtr :=
  s.files.entries.map Prod.snd

/-- The files that a thread has to put into the map or to delete. -/
def Held.owns (h : Held) : List FilePtr :=
  h.pending ++ h.removed

/-- The files that an operation deletes. -/
def Op.deleted : Op → List FilePtr
  | .fileDelete p => [p]
  | _ => []

/-- The files that it makes. -/
def Op.made (s : Store) : Op → List FilePtr
  | .fileNew _ => [s.fresh]
  | _ => []

/-- An operation that changes the map. -/
def Op.changesMap : Op → Bool
  | .hashmapInsert _ _ | .hashmapRemove _ => true
  | _ => false

section Operations

variable {l l' : Local} {s s' : Store} {o : Op} {a : Ans o} {h : Held} {p : FilePtr}

theorem stored_of_getByKey (hwf : s.files.WF) {key : CString}
    (hget : hashmapGetByKey s.files key = some p) : p ∈ s.stored := by
  rw [hwf.hashmapGetByKey_eq] at hget
  obtain ⟨curr, hfind, rfl⟩ := Option.map_eq_some_iff.1 hget
  exact List.mem_map_of_mem (List.mem_of_find?_eq_some hfind)

/-- An insertion puts the file into the map, or fails. -/
theorem stored_insert (hwf : s.files.WF) (granted : Granted) (key : CString) (p : FilePtr) :
    (hashmapInsert granted s.files key p).2.WF ∧
      ((hashmapInsert granted s.files key p).2.entries.map Prod.snd).Perm
        (s.stored ++ if (hashmapInsert granted s.files key p).1 = 0 then [p] else []) := by
  rcases hwf.hashmapInsert_cases granted key p with ⟨-, map', he, hwf', hperm⟩ |
    ⟨-, map', he, hwf', hperm, -⟩
  · rw [he, if_neg (show ¬(-1 : ℤ) = 0 by decide), List.append_nil]
    exact ⟨hwf', hperm.map Prod.snd⟩
  · rw [he, if_pos rfl]
    exact ⟨hwf', (hperm.map Prod.snd).trans (List.map_append.symm ▸ .refl _)⟩

theorem perm_eraseP_of_find? {α : Type*} {xs : List α} {c : α → Bool} {x : α}
    (h : xs.find? c = some x) : xs.Perm (x :: xs.eraseP c) := by
  obtain ⟨hx, as, bs, rfl, has⟩ := List.find?_eq_some_iff_append.1 h
  rw [List.eraseP_append_right _ fun b hb => by simpa using has b hb, List.eraseP_cons_of_pos hx]
  exact List.perm_middle

/-- A removal takes a file out of the map, that which it gives. -/
theorem stored_remove (hwf : s.files.WF) (key : CString) :
    (hashmapRemove s.files key).2.WF ∧
      s.stored.Perm ((hashmapRemove s.files key).1.toList ++
        (hashmapRemove s.files key).2.entries.map Prod.snd) := by
  cases hget : hashmapGetByKey s.files key with
  | none =>
    rw [HashMap.hashmapRemove_eq_none hget]
    exact ⟨hwf, .refl _⟩
  | some p =>
    obtain ⟨map', he, hwf', hentries, -⟩ := hwf.hashmapRemove_eq_some hget
    rw [hwf.hashmapGetByKey_eq] at hget
    obtain ⟨curr, hfind, rfl⟩ := Option.map_eq_some_iff.1 hget
    rw [he]
    refine ⟨hwf', ?_⟩
    rw [hentries]
    exact (perm_eraseP_of_find? hfind).map Prod.snd

theorem remove_eq_getByKey (map : HashMap FilePtr) (key : CString) :
    (hashmapRemove map key).1 = hashmapGetByKey map key := by
  rw [hashmapRemove, hashmapGetByKey]
  cases (Buckets.bucket map.list (map.hash key)).find? fun curr => curr.1 = key <;> rfl

/-- Only an insertion and a removal change the map. -/
theorem files_of_exec (ho : o.changesMap = false) (hexec : exec o (l, s) = .ok (a, (l', s'))) :
    s'.files = s.files := by
  cases o
  case readn | writen | clockGettime | safeMalloc | malloc | exit | uninit | logger =>
    obtain ⟨rfl, -⟩ := exec_of_private (by exact trivial) hexec
    rfl
  case mutexLock m =>
    change (if s.locked m = true then _ else _) = _ at hexec
    split_ifs at hexec
    cases hexec
    exact Store.files_setLocked ..
  case mutexUnlock m =>
    cases hexec
    exact Store.files_setLocked ..
  case undefined => cases hexec
  case get | set | fileDelete | fileReaderUnlock | fileWriterUnlock =>
    obtain ⟨f, -, he⟩ := withFile_eq_ok hexec
    cases he
    rfl
  case fileReaderLock | fileWriterLock =>
    obtain ⟨f, -, he⟩ := withFile_eq_ok hexec
    split_ifs at he
    cases he
    rfl
  case hashmapInsert | hashmapRemove => cases ho
  all_goals
    cases hexec
    rfl

/-- No file is lost, and none is in two places. -/
theorem count_of_exec (hwf : s.files.WF) (hallow : h.Allows o)
    (hexec : exec o (l, s) = .ok (a, (l', s'))) :
    s'.files.WF ∧ ∀ q, s'.stored.count q + (h.note o a).owns.count q + o.deleted.count q =
      s.stored.count q + h.owns.count q + (o.made s).count q := by
  cases o
  case hashmapInsert key p =>
    cases hexec
    obtain ⟨hwf', hperm⟩ := stored_insert hwf (filesGranted l.malloc) key p
    refine ⟨hwf', fun q => ?_⟩
    have hcount := hperm.count_eq q
    have hpending := (List.perm_cons_erase hallow.2).count_eq q
    by_cases hr : (hashmapInsert (filesGranted l.malloc) s.files key p).1 = 0
    · simp only [Held.note, Held.owns, Op.deleted, Op.made, Store.stored, Store.files_setFiles,
        List.count_append, List.count_nil, List.count_cons, if_pos hr] at hcount hpending ⊢
      omega
    · simp only [Held.note, Held.owns, Op.deleted, Op.made, Store.stored, Store.files_setFiles,
        List.count_append, List.count_nil, if_neg hr] at hcount ⊢
      omega
  case hashmapRemove key =>
    cases hexec
    obtain ⟨hwf', hperm⟩ := stored_remove hwf key
    refine ⟨hwf', fun q => ?_⟩
    have hcount := hperm.count_eq q
    simp only [Held.note, Held.owns, Op.deleted, Op.made, Store.stored, Store.files_setFiles,
      List.count_append, List.count_nil] at hcount ⊢
    omega
  all_goals
    have hfiles := files_of_exec rfl hexec
    refine ⟨hfiles ▸ hwf, fun q => ?_⟩
    rw [Store.stored, Store.stored, hfiles]
  case fileNew file =>
    cases hexec
    simp only [Held.note, Held.owns, Op.deleted, Op.made, List.count_append, List.count_nil,
      List.count_cons]
    omega
  case fileDelete p =>
    have hremoved := (List.perm_cons_erase hallow.1).count_eq q
    simp only [Held.note, Held.owns, Op.deleted, Op.made, List.count_append, List.count_nil,
      List.count_cons] at hremoved ⊢
    omega
  case mutexLock m => cases m <;> rfl
  case mutexUnlock m => cases m <;> rfl
  all_goals rfl

/-- What a thread that has `files_mtx` knows of the map and of the files that it has created. -/
structure Held.Knows (h : Held) (s : Store) : Prop where
  found : ∀ p ∈ h.found, p ∈ s.stored ∨ p ∈ h.removed
  keys : ∀ y ∈ h.keys, hashmapGetByKey s.files y.1 = some y.2
  created : ∀ p ∈ h.created, p ∈ s.stored ∨ p ∈ h.pending ∨ p ∈ h.removed

theorem Held.Knows.of_files (hknows : h.Knows s) (hfiles : s'.files = s.files) : h.Knows s' where
  found := by
    rw [Store.stored, hfiles]
    exact hknows.found
  keys := by
    rw [hfiles]
    exact hknows.keys
  created := by
    rw [Store.stored, hfiles]
    exact hknows.created

/-- It knows it after an operation of its own. -/
theorem Held.Knows.note (hwf : s.files.WF) (hallow : h.Allows o)
    (hexec : exec o (l, s) = .ok (a, (l', s'))) (hknows : h.filesMtx = true → h.Knows s)
    (hmtx : (h.note o a).filesMtx = true) : (h.note o a).Knows s' := by
  cases o
  case mutexLock m =>
    cases m with
    | files =>
      obtain rfl : h = .nothing := hallow
      exact ⟨nofun, nofun, nofun⟩
    | currState => exact (hknows hmtx).of_files (files_of_exec rfl hexec)
  case mutexUnlock m =>
    cases m with
    | files => cases hmtx
    | currState => exact (hknows hmtx).of_files (files_of_exec rfl hexec)
  case hashmapGetByKey key =>
    obtain ⟨hfound, hkeys, hcreated⟩ := hknows hmtx
    cases hexec
    refine ⟨fun p hp => ?_, fun y hy => ?_, hcreated⟩
    · rcases List.mem_append.1 hp with hp | hp
      · exact .inl (stored_of_getByKey hwf (Option.mem_toList.1 hp))
      · exact hfound p hp
    · obtain ⟨p, hp, rfl⟩ := List.mem_map.1 hy
      exact Option.mem_toList.1 hp
  case hashmapIter =>
    obtain ⟨hfound, hkeys, hcreated⟩ := hknows hmtx
    cases hexec
    refine ⟨fun p hp => ?_, hkeys, hcreated⟩
    rcases List.mem_append.1 hp with hp | hp
    · exact .inl hp
    · exact hfound p hp
  case hashmapInsert key p =>
    obtain ⟨hfound, hkeys, hcreated⟩ := hknows hmtx
    cases hexec
    have hperm := (stored_insert hwf (filesGranted l.malloc) key p).2
    have hstored : ∀ q ∈ s.stored,
        q ∈ (s.setFiles (hashmapInsert (filesGranted l.malloc) s.files key p).2).stored :=
      fun q hq => hperm.mem_iff.2 (List.mem_append_left _ hq)
    refine ⟨fun q hq => (hfound q hq).imp_left (hstored q), nofun, fun q hq => ?_⟩
    rcases hcreated q hq with hq | hq | hq
    · exact .inl (hstored q hq)
    · by_cases hr : (hashmapInsert (filesGranted l.malloc) s.files key p).1 = 0
      · by_cases he : q = p
        · refine .inl (hperm.mem_iff.2 (List.mem_append_right _ ?_))
          rw [if_pos hr, he]
          exact List.mem_singleton_self p
        · refine .inr (.inl ?_)
          simp only [Held.note, if_pos hr]
          exact (List.mem_erase_of_ne he).2 hq
      · refine .inr (.inl ?_)
        simp only [Held.note, if_neg hr]
        exact hq
    · exact .inr (.inr hq)
  case hashmapRemove key =>
    obtain ⟨hfound, hkeys, hcreated⟩ := hknows hmtx
    cases hexec
    have hstored : ∀ q ∈ s.stored, q ∈ (s.setFiles (hashmapRemove s.files key).2).stored ∨
        q ∈ (hashmapRemove s.files key).1.toList ++ h.removed := fun q hq => by
      rcases List.mem_append.1 ((stored_remove hwf key).2.mem_iff.1 hq) with hq | hq
      · exact .inr (List.mem_append_left _ hq)
      · exact .inl hq
    refine ⟨fun q hq => ?_, nofun, fun q hq => ?_⟩
    · exact (hfound q hq).elim (hstored q) fun hq => .inr (List.mem_append_right _ hq)
    · rcases hcreated q hq with hq | hq | hq
      · exact (hstored q hq).imp_right .inr
      · exact .inr (.inl hq)
      · exact .inr (.inr (List.mem_append_right _ hq))
  case fileNew file =>
    obtain ⟨hfound, hkeys, hcreated⟩ := hknows hmtx
    cases hexec
    refine ⟨hfound, hkeys, fun q hq => ?_⟩
    rcases List.mem_cons.1 hq with rfl | hq
    · exact .inr (.inl List.mem_cons_self)
    · exact (hcreated q hq).imp_right fun hq => hq.imp_left (List.mem_cons_of_mem _)
  case fileDelete p =>
    obtain ⟨hfound, hkeys, -⟩ := hknows hmtx
    have hfiles := files_of_exec rfl hexec
    have hstored : s'.stored = s.stored := by rw [Store.stored, Store.stored, hfiles]
    refine ⟨fun q hq => ?_, fun y hy => hfiles ▸ hkeys y hy, fun q hq => ?_⟩
    · obtain ⟨hq, hne⟩ := List.mem_filter.1 hq
      rw [hstored]
      exact (hfound q hq).imp_right fun hq => (List.mem_erase_of_ne (by simpa using hne)).2 hq
    · have hnil : h.created = [] := hallow.2 hmtx
      exact absurd (hnil ▸ hq : q ∈ []) List.not_mem_nil
  all_goals
    obtain ⟨hfound, hkeys, hcreated⟩ := (hknows hmtx).of_files (files_of_exec rfl hexec)
    exact ⟨hfound, hkeys, hcreated⟩

/-- Only `files_mtx` itself concerns whether the thread has it. -/
theorem filesMtx_note (hlock : o ≠ .mutexLock .files) (hunlock : o ≠ .mutexUnlock .files) :
    (h.note o a).filesMtx = h.filesMtx := by
  cases o
  case mutexLock m =>
    cases m with
    | files => exact absurd rfl hlock
    | currState => rfl
  case mutexUnlock m =>
    cases m with
    | files => exact absurd rfl hunlock
    | currState => rfl
  all_goals rfl

/-- A file stays in the map that is not removed from it. -/
theorem stored_of_exec (hwf : s.files.WF) (hexec : exec o (l, s) = .ok (a, (l', s')))
    (hremove : ∀ key, o = .hashmapRemove key → hashmapGetByKey s.files key ≠ some p)
    (hp : p ∈ s.stored) : p ∈ s'.stored := by
  cases o
  case hashmapInsert key q =>
    cases hexec
    exact (stored_insert hwf (filesGranted l.malloc) key q).2.mem_iff.2 (List.mem_append_left _ hp)
  case hashmapRemove key =>
    cases hexec
    rcases List.mem_append.1 ((stored_remove hwf key).2.mem_iff.1 hp) with hp | hp
    · rw [remove_eq_getByKey] at hp
      exact absurd (Option.mem_toList.1 hp) (hremove key rfl)
    · exact hp
  all_goals
    rw [Store.stored, files_of_exec rfl hexec]
    exact hp

end Operations

/-! ## The invariant -/

section Guarded

variable {T : Type} [Fintype T] [DecidableEq T] {cfg : ServerConfig} {tr : List (ServerEvent T)}
  {σ σ' : ServerPool T} {held : T → Held} {mtx : Option T} {t : T} {job : Job} {l₀ l l' : Local}
  {s' : Store} {o : Op} {k : Ans o → M (Option WorkerCode)} {a : Ans o}

/-- Each file is in one place, and what the threads have noted is so. -/
structure Guarded (σ : ServerPool T) (held : T → Held) (mtx : Option T) : Prop where
  careful : AlongAll Held.note Held.Can Held.Allows (fun _ h => h.filesMtx = false) .nothing σ held
  owned : Owned Held.filesMtx held mtx
  locked : σ.shared.filesMtx = mtx.isSome
  wf : σ.shared.files.WF
  knows : ∀ t, (held t).filesMtx = true → (held t).Knows σ.shared
  shared : σ.shared.Shared (total Held.reads held) 0
  reads : ∀ t, ∀ p ∈ (held t).reads, p ∈ σ.shared.stored
  one : ∀ p, σ.shared.stored.count p + total Held.owns held p ≤ 1
  there : ∀ p, 0 < σ.shared.stored.count p + total Held.owns held p →
    ∃ f, σ.shared.heap p = some f

omit [DecidableEq T] in
/-- What a thread does next is allowed by what it has done. -/
theorem Guarded.allows (h : Guarded σ held mtx) (ht : σ.threads t = some ⟨job, l₀, .op o k, l⟩) :
    (held t).Allows o :=
  ((h.careful t).2 _ ht).1

omit [DecidableEq T] in
/-- What the map has given for a key it gives up when the key is removed. -/
theorem Guarded.can (h : Guarded σ held mtx) (ht : σ.threads t = some ⟨job, l₀, .op o k, l⟩)
    (hexec : exec o (l, σ.shared) = .ok (a, (l', s'))) : (held t).Can o a := by
  have hallow := h.allows ht
  cases o
  case hashmapRemove key =>
    cases hexec
    intro p hp
    rw [remove_eq_getByKey]
    exact (h.knows t hallow.1).keys _ hp
  all_goals exact trivial

theorem Guarded.mutex (h : Guarded σ held mtx) (hallow : (held t).Allows o)
    (hexec : exec o (l, σ.shared) = .ok (a, (l', s'))) :
    ∃ mtx', Owned Held.filesMtx (update held t ((held t).note o a)) mtx' ∧
      s'.filesMtx = mtx'.isSome := by
  by_cases hlock : o = .mutexLock .files
  · subst hlock
    change (if σ.shared.filesMtx = true then _ else _) = _ at hexec
    split_ifs at hexec with hfree
    cases hexec
    obtain rfl : mtx = none := by
      rw [h.locked] at hfree
      exact Option.not_isSome_iff_eq_none.1 hfree
    exact ⟨some t, h.owned.acquire rfl, rfl⟩
  by_cases hunlock : o = .mutexUnlock .files
  · subst hunlock
    cases hexec
    exact ⟨none, h.owned.release hallow rfl, rfl⟩
  exact ⟨mtx, h.owned.keep (filesMtx_note hlock hunlock),
    (filesMtx_of_exec hlock hunlock hexec).trans h.locked⟩

theorem Guarded.knows_perform (h : Guarded σ held mtx) (hallow : (held t).Allows o)
    (hexec : exec o (l, σ.shared) = .ok (a, (l', s'))) (u : T)
    (hu : (update held t ((held t).note o a) u).filesMtx = true) :
    (update held t ((held t).note o a) u).Knows s' := by
  by_cases he : u = t
  · subst he
    rw [update_self] at hu ⊢
    exact Held.Knows.note h.wf hallow hexec (h.knows u) hu
  · rw [update_of_ne he] at hu ⊢
    cases ho : o.changesMap with
    | false => exact (h.knows u hu).of_files (files_of_exec ho hexec)
    | true =>
      -- the map is only changed by the thread that has `files_mtx`
      refine absurd (h.owned.unique hu ?_) he
      cases o
      case hashmapInsert | hashmapRemove => exact hallow.1
      all_goals cases ho

theorem Guarded.shared_perform (h : Guarded σ held mtx) (hallow : (held t).Allows o)
    (hguard : guard o (l, σ.shared) = true) (hexec : exec o (l, σ.shared) = .ok (a, (l', s'))) :
    s'.Shared (total Held.reads (update held t ((held t).note o a))) 0 := by
  have hfault : exec o (l, σ.shared.settled 0 0) ≠ .fault := by
    rw [Store.settled_zero, hexec]
    nofun
  have hsame : o.Plain .LRU → ((held t).note o a).reads = (held t).reads →
      s'.Shared (total Held.reads (update held t ((held t).note o a))) 0 := fun ho hreads => by
    rw [total_keep (hreads ▸ .refl _)]
    refine (h.shared.plain (show ∀ q, (0 : FilePtr → ℕ) q ≤ _ from fun q => Nat.zero_le _) ho ?_
      hfault hexec).2.1
    rw [Store.settled_zero]
    exact hguard
  cases o
  case fileReaderLock p =>
    refine (h.shared.readerLock (fun q => Nat.zero_le _) hfault hexec ?_ fun q hq => ?_).2.1
    · have hsum := total_update Held.reads held t ((held t).note (.fileReaderLock p) a) p
      simp only [Held.note, List.count_append, List.count_singleton_self] at hsum ⊢
      omega
    · have hsum := total_update Held.reads held t ((held t).note (.fileReaderLock p) a) q
      simp only [Held.note, List.count_append, List.count_singleton] at hsum ⊢
      rw [if_neg (by simpa using Ne.symm hq)] at hsum
      omega
  case fileReaderUnlock p =>
    have hperm := List.perm_cons_erase (show p ∈ (held t).reads from hallow)
    refine (h.shared.readerUnlock hfault hexec ?_ fun q hq => ?_).2.1
    · have hsum := total_update Held.reads held t ((held t).note (.fileReaderUnlock p) a) p
      rw [hperm.count_eq, List.count_cons_self] at hsum
      simp only [Held.note] at hsum ⊢
      omega
    · have hsum := total_update Held.reads held t ((held t).note (.fileReaderUnlock p) a) q
      rw [hperm.count_eq, List.count_cons_of_ne (Ne.symm hq)] at hsum
      simp only [Held.note] at hsum ⊢
      omega
  case mutexLock m =>
    cases m with
    | files =>
      change (if σ.shared.filesMtx = true then _ else _) = _ at hexec
      split_ifs at hexec
      cases hexec
      have hkeep : total Held.reads (update held t ((held t).note (.mutexLock .files) ())) =
          total Held.reads held := total_keep (.refl _)
      rw [hkeep]
      exact h.shared.of_heap (Store.heap_setLocked ..) (Store.fresh_setLocked ..)
    | currState => exact hsame trivial rfl
  case mutexUnlock m =>
    cases m with
    | files =>
      cases hexec
      have hkeep : total Held.reads (update held t ((held t).note (.mutexUnlock .files) ())) =
          total Held.reads held := total_keep (.refl _)
      rw [hkeep]
      exact h.shared.of_heap (Store.heap_setLocked ..) (Store.fresh_setLocked ..)
    | currState => exact hsame trivial rfl
  case get p fld => cases fld <;> exact hsame (by first | exact trivial | rfl) rfl
  all_goals exact hsame trivial rfl

/-- A file that is being read is not removed from the map. -/
theorem Guarded.reads_perform (h : Guarded σ held mtx) (hallow : (held t).Allows o)
    (hguard : guard o (l, σ.shared) = true) (hexec : exec o (l, σ.shared) = .ok (a, (l', s')))
    (u : T) {p : FilePtr} (hp : p ∈ (update held t ((held t).note o a) u).reads) :
    p ∈ s'.stored := by
  have hkeep : ∀ u, p ∈ (held u).reads → p ∈ s'.stored := fun u hread => by
    refine stored_of_exec h.wf hexec ?_ (h.reads u p hread)
    rintro key rfl hget
    have hwriting : σ.shared.writing p = true := (Option.all_eq_true _ _).1 hguard p hget
    rw [← Store.settled_zero (s := σ.shared)] at hwriting
    have hpos : 0 < total Held.reads held p := total_pos_of_mem hread
    exact hpos.ne' (h.shared.of_writing hwriting)
  by_cases he : u = t
  · subst he
    rw [update_self] at hp
    cases o
    case fileReaderLock q =>
      rcases List.mem_append.1 hp with hp | hp
      · exact hkeep u hp
      · obtain ⟨hmtx, hfound, hremoved⟩ := hallow
        obtain rfl := List.mem_singleton.1 hp
        refine stored_of_exec h.wf hexec (fun key he => by cases he) ?_
        refine ((h.knows u hmtx).found p hfound).resolve_right fun hq => ?_
        rw [hremoved] at hq
        exact List.not_mem_nil hq
    case fileReaderUnlock q => exact hkeep u (List.mem_of_mem_erase hp)
    case mutexLock m => cases m <;> exact hkeep u hp
    case mutexUnlock m => cases m <;> exact hkeep u hp
    all_goals exact hkeep u hp
  · rw [update_of_ne he] at hp
    exact hkeep u hp

/-- Each file is still in one place, and is there. -/
theorem Guarded.one_perform (h : Guarded σ held mtx) (hallow : (held t).Allows o)
    (hexec : exec o (l, σ.shared) = .ok (a, (l', s'))) :
    s'.files.WF ∧ ∀ p, s'.stored.count p +
        total Held.owns (update held t ((held t).note o a)) p ≤ 1 ∧
      (0 < s'.stored.count p + total Held.owns (update held t ((held t).note o a)) p →
        ∃ f, s'.heap p = some f) := by
  obtain ⟨hwf', hcount⟩ := count_of_exec h.wf hallow hexec
  refine ⟨hwf', fun p => ?_⟩
  have hsum := total_update Held.owns held t ((held t).note o a) p
  have hp := hcount p
  have hone := h.one p
  by_cases hnew : ∃ file, o = .fileNew file ∧ p = σ.shared.fresh
  · obtain ⟨file, rfl, rfl⟩ := hnew
    have hzero : ¬0 < σ.shared.stored.count σ.shared.fresh + total Held.owns held σ.shared.fresh := by
      intro hpos
      obtain ⟨f, hf⟩ := h.there _ hpos
      cases (h.shared.fresh _ le_rfl).symm.trans hf
    simp only [Op.made, Op.deleted, List.count_nil, List.count_singleton_self] at hp
    refine ⟨by omega, fun _ => ?_⟩
    cases hexec
    exact ⟨file, Store.heap_alloc_self _ _ rfl⟩
  have hmade : (o.made σ.shared).count p = 0 := by
    cases o
    case fileNew file =>
      refine List.count_eq_zero.2 fun hmem => hnew ⟨file, rfl, ?_⟩
      exact List.mem_singleton.1 hmem
    all_goals rfl
  refine ⟨by omega, fun hpos => ?_⟩
  have hdelete : o ≠ .fileDelete p := by
    rintro rfl
    simp only [Op.deleted, List.count_singleton_self] at hp
    omega
  exact exists_of_exec hdelete hexec (h.there p (by omega))

theorem Guarded.perform (h : Guarded σ held mtx) {held' : T → Held}
    (hcareful : AlongAll Held.note Held.Can Held.Allows (fun _ h => h.filesMtx = false) .nothing σ'
      held')
    (ht : σ.threads t = some ⟨job, l₀, .op o k, l⟩) (hguard : guard o (l, σ.shared) = true)
    (hexec : exec o (l, σ.shared) = .ok (a, (l', σ'.shared)))
    (hheld : held' = update held t ((held t).note o a)) : ∃ mtx', Guarded σ' held' mtx' := by
  subst hheld
  have hallow := h.allows ht
  obtain ⟨mtx', howned, hlocked⟩ := h.mutex hallow hexec
  obtain ⟨hwf, hone⟩ := h.one_perform hallow hexec
  exact ⟨mtx', hcareful, howned, hlocked, hwf, h.knows_perform hallow hexec,
    h.shared_perform hallow hguard hexec, fun u p hp => h.reads_perform hallow hguard hexec u hp,
    fun p => (hone p).1, fun p => (hone p).2⟩

/-- A thread that is done has nothing. -/
theorem Guarded.finish (h : Guarded σ held mtx) (hshared : σ'.shared = σ.shared)
    (hcareful : AlongAll Held.note Held.Can Held.Allows (fun _ h => h.filesMtx = false) .nothing σ'
      (update held t .nothing)) (hmtx : (held t).filesMtx = false) :
    Guarded σ' (update held t .nothing) mtx := by
  have hle : ∀ {f : Held → List FilePtr}, f .nothing = [] → ∀ p,
      total f (update held t .nothing) p ≤ total f held p := fun {f} hf p => by
    have hsum := total_update f held t .nothing p
    rw [hf, List.count_nil] at hsum
    omega
  have howns : ∀ p, total Held.owns (update held t .nothing) p ≤ total Held.owns held p := hle rfl
  refine ⟨hcareful, h.owned.keep hmtx.symm, ?_, ?_, fun u hu => ?_, ?_, fun u p hp => ?_,
    fun p => ?_, fun p hpos => ?_⟩ <;> rw [hshared]
  · exact h.locked
  · exact h.wf
  · by_cases he : u = t
    · rw [he, update_self] at hu
      cases hu
    · rw [update_of_ne he] at hu ⊢
      exact h.knows u hu
  · exact h.shared.fewer (hle rfl)
  · by_cases he : u = t
    · rw [he, update_self] at hp
      exact absurd hp List.not_mem_nil
    · rw [update_of_ne he] at hp
      exact h.reads u p hp
  · exact (Nat.add_le_add_left (howns p) _).trans (h.one p)
  · rw [hshared] at hpos
    exact h.there p (lt_of_lt_of_le hpos (Nat.add_le_add_left (howns p) _))

/-- What one step preserves. -/
theorem Guarded.step (h : Guarded σ held mtx)
    (hguard : ∀ {t job l₀ o k l}, σ.threads t = some ⟨job, l₀, .op o k, l⟩ →
      guard o (l, σ.shared) = true) {e : ServerEvent T} (hstep : (serverPool cfg T).step σ e σ') :
    ∃ mtx', Guarded σ' (noting exec Held.note .nothing held σ e) mtx' := by
  have hcareful := h.careful.step careful_program hstep h.can
  cases hstep with
  | @start t job l ht =>
    have hheld : held t = .nothing := (h.careful t).1 ht
    exact ⟨mtx, h.finish rfl hcareful (hheld ▸ rfl)⟩
  | perform ht hadmits hexec =>
    exact h.perform hcareful ht (hguard ht) hexec (noting_perform ht hexec)
  | @finish t job l₀ l a ht =>
    exact ⟨mtx, h.finish rfl hcareful ((h.careful t).2 _ ht)⟩

end Guarded

/-! ## Runs -/

section Runs

variable {T : Type} [Fintype T] [DecidableEq T] {cfg : ServerConfig} {tr : List (ServerEvent T)}
  {σ : ServerPool T} {x : ServerPool T × (T → Held)} {t : T} {job : Job} {l₀ l : Local} {o : Op}
  {k : Ans o → M (Option WorkerCode)} {p : FilePtr}

end Runs

end StorageServer
