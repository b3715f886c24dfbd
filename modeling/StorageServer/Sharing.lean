import StorageServer.Settled

/-!
# The store between the threads

The threads have files locked for reading and files to delete (`Store.Shared`). What a section does
to the store it does to the settled store as well, whatever the other threads still have to give
back (`Store.Shared.plain`), and none of this changes what they read (`Store.Keeps`).
-/

open Programs

namespace StorageServer

/-- How often the threads have locked each file for reading, and whether one of them will delete
it. -/
structure Store.Shared (s : Store) (reads deletes : FilePtr → ℕ) : Prop where
  fresh : ∀ p, s.fresh ≤ p → s.heap p = none
  reading : ∀ p, 0 < reads p → ∃ f, s.heap p = some f ∧ f.nWriters = 0 ∧ reads p ≤ f.nReaders
  deleting : ∀ p, 0 < deletes p → ∃ f, s.heap p = some f ∧ 0 < f.nWriters
  one : ∀ p, deletes p ≤ 1

/-- The files that the threads have are left alone, and no file is given another path, nor the
address of one that has been there. -/
structure Store.Keeps (s s' : Store) (reads deletes : FilePtr → ℕ) : Prop where
  has : ∀ p, 0 < reads p + deletes p → ∀ f, s.heap p = some f → ∃ f',
  s'.heap p = some f' ∧ f'.Same f
  fresh : s.fresh ≤ s'.fresh
  names : ∀ p < s.fresh, ∀ f', s'.heap p = some f' → ∃ f, s.heap p = some f ∧
    f.pathName = f'.pathName

/-- The address is one that has been given to a file of this path, which may be gone. -/
structure Store.Named (s : Store) (p : FilePtr) (name : CString) : Prop where
  lt : p < s.fresh
  name : ∀ f, s.heap p = some f → f.pathName = name

section Accesses

variable {β : Type} {w : World} {p : FilePtr} {g : File → Res (β × World)} {r : β × World}

theorem withFile_eq_ok (h : withFile w p g = .ok r) : ∃ f, w.2.heap p = some f ∧ g f = .ok r := by
  unfold withFile at h
  cases hf : w.2.heap p with
  | none =>
    rw [hf] at h
    cases h
  | some f =>
    rw [hf] at h
    exact ⟨f, rfl, h⟩

theorem withFile_of_some {f : File} (h : w.2.heap p = some f) : withFile w p g = g f := by
  rw [withFile, h]

theorem exists_of_withFile (h : withFile w p g ≠ .fault) : ∃ f, w.2.heap p = some f := by
  unfold withFile at h
  cases hf : w.2.heap p with
  | none =>
    rw [hf] at h
    exact absurd rfl h
  | some f => exact ⟨f, rfl⟩

end Accesses

section Shared

variable {s s' : Store} {reads unlocks deletes : FilePtr → ℕ} {p : FilePtr} {f g : File}
  {l l' : Local}

theorem Store.Keeps.refl (s : Store) : s.Keeps s reads deletes :=
  ⟨fun _ _ f hf => ⟨f, hf, .refl f⟩, le_rfl, fun _ _ f hf => ⟨f, hf, rfl⟩⟩

theorem Store.keeps_of_heap (h : s'.heap = s.heap) (hfresh : s'.fresh = s.fresh) :
    s.Keeps s' reads deletes :=
  ⟨fun _ _ f hf => ⟨f, h ▸ hf, .refl f⟩, hfresh.ge, fun _ _ f hf => ⟨f, h ▸ hf, rfl⟩⟩

/-- A file is changed, but for its path. -/
theorem Store.keeps_put (hf : s.heap p = some f) (hname : g.pathName = f.pathName)
    (hg : 0 < reads p + deletes p → g.Same f) : s.Keeps (s.put p g) reads deletes := by
  refine ⟨fun q hq f' hf' => ?_, le_rfl, fun q _ f' hf' => ?_⟩
  · by_cases he : q = p
    · subst he
      cases hf.symm.trans hf'
      exact ⟨g, Store.heap_put_self .., hg hq⟩
    · exact ⟨f', (Store.heap_put_of_ne _ _ _ he).trans hf', .refl f'⟩
  · by_cases he : q = p
    · subst he
      cases (Store.heap_put_self ..).symm.trans hf'
      exact ⟨f, hf, hname.symm⟩
    · exact ⟨f', (Store.heap_put_of_ne _ _ _ he).symm.trans hf', rfl⟩

/-- A file is deleted that no thread has. -/
theorem Store.keeps_delete (hp : reads p + deletes p = 0) : s.Keeps (s.delete p) reads deletes := by
  refine ⟨fun q hq f' hf' => ?_, le_rfl, fun q _ f' hf' => ?_⟩
  · have he : q ≠ p := by
      rintro rfl
      omega
    exact ⟨f', (Store.heap_delete ..).trans ((if_neg he).trans hf'), .refl f'⟩
  · rw [Store.heap_delete] at hf'
    split_ifs at hf' with he
    exact ⟨f', hf', rfl⟩

theorem Store.Named.of_keeps {name : CString} (h : s.Named p name)
    (hkeeps : s.Keeps s' reads deletes) :
    s'.Named p name := by
  refine ⟨h.lt.trans_le hkeeps.fresh, fun f' hf' => ?_⟩
  obtain ⟨f, hf, hname⟩ := hkeeps.names p h.lt f' hf'
  exact hname.symm.trans (h.name f hf)

/-- The files of a thread are still there. -/
theorem Store.Backs.of_keeps {zs ds : List (FilePtr × File)} (h : s.Backs zs ds)
    (hkeeps : s.Keeps s' reads deletes) (hzs : ∀ x ∈ zs ++ ds, 0 < reads x.1 + deletes x.1) :
    s'.Backs zs ds where
  heap x hx := by
    obtain ⟨f, hf, hsame⟩ := h.heap x hx
    obtain ⟨f', hf', hsame'⟩ := hkeeps.has x.1 (hzs x hx) f hf
    exact ⟨f', hf', hsame'.trans hsame⟩
  nodup := h.nodup
  disjoint := h.disjoint

namespace Store.Shared

variable (h : s.Shared reads deletes)

include h

/-- A file that is being read is not locked for writing. -/
theorem not_reading (hf : s.heap p = some f) (hw : 0 < f.nWriters ∨ f.nReaders = 0) :
    reads p = 0 := by
  by_contra hpos
  obtain ⟨f', hf', hwriters, hreaders⟩ := h.reading p (Nat.pos_of_ne_zero hpos)
  cases hf.symm.trans hf'
  omega

theorem not_deleting (hpos : 0 < reads p) : deletes p = 0 := by
  by_contra hd
  obtain ⟨f, hf, hw⟩ := h.deleting p (Nat.pos_of_ne_zero hd)
  exact absurd (h.not_reading hf (.inl hw)) (Nat.pos_iff_ne_zero.1 hpos)

theorem fresh_eq_zero : reads s.fresh = 0 ∧ deletes s.fresh = 0 := by
  have hnone := h.fresh s.fresh le_rfl
  constructor
  · by_contra hpos
    obtain ⟨f, hf, -⟩ := h.reading _ (Nat.pos_of_ne_zero hpos)
    cases hnone.symm.trans hf
  · by_contra hpos
    obtain ⟨f, hf, -⟩ := h.deleting _ (Nat.pos_of_ne_zero hpos)
    cases hnone.symm.trans hf

theorem lt_fresh (hf : s.heap p = some f) : p < s.fresh := by
  by_contra hle
  cases (h.fresh p (Nat.le_of_not_lt hle)).symm.trans hf

/-- A thread no longer counts files that it has locked for reading. -/
theorem fewer {reads' : FilePtr → ℕ} (hle : ∀ p, reads' p ≤ reads p) : s.Shared reads' deletes where
  fresh := h.fresh
  reading p hp := by
    obtain ⟨f, hf, hwriters, hreaders⟩ := h.reading p (lt_of_lt_of_le hp (hle p))
    exact ⟨f, hf, hwriters, (hle p).trans hreaders⟩
  deleting := h.deleting
  one := h.one

/-- The same memory. -/
theorem of_heap (hheap : s'.heap = s.heap) (hfresh : s'.fresh = s.fresh) :
    s'.Shared reads deletes where
  fresh := by
    rw [hheap, hfresh]
    exact h.fresh
  reading := by
    rw [hheap]
    exact h.reading
  deleting := by
    rw [hheap]
    exact h.deleting
  one := h.one

/-- A file is changed, but for its path. If it is being read, its contents stay. -/
theorem put (hf : s.heap p = some f) (hname : g.pathName = f.pathName) (hd : deletes p = 0)
    (hg : 0 < reads p → g.Same f ∧ g.nWriters = 0 ∧ f.nReaders ≤ g.nReaders) :
    (s.put p g).Shared reads deletes ∧ s.Keeps (s.put p g) reads deletes := by
  have hother : ∀ {q : FilePtr}, q ≠ p → (s.put p g).heap q = s.heap q := fun hq =>
    Store.heap_put_of_ne _ _ _ hq
  refine ⟨⟨fun q hq => ?_, fun q hq => ?_, fun q hq => ?_, h.one⟩,
    Store.keeps_put hf hname fun hpos => (hg (by omega)).1⟩
  · rw [hother (Nat.ne_of_gt (lt_of_lt_of_le (h.lt_fresh hf) hq))]
    exact h.fresh q hq
  · obtain ⟨f', hf', hwriters, hreaders⟩ := h.reading q hq
    by_cases he : q = p
    · subst he
      cases hf.symm.trans hf'
      obtain ⟨-, hwriters', hreaders'⟩ := hg hq
      exact ⟨g, Store.heap_put_self .., hwriters', hreaders.trans hreaders'⟩
    · exact ⟨f', (hother he).trans hf', hwriters, hreaders⟩
  · have he : q ≠ p := fun he => absurd hd (Nat.pos_iff_ne_zero.1 (he ▸ hq))
    rw [hother he]
    exact h.deleting q hq

theorem alloc (g : File) :
    (s.alloc g).Shared reads deletes ∧ s.Keeps (s.alloc g) reads deletes := by
  obtain ⟨hreads, hdeletes⟩ := h.fresh_eq_zero
  have hother : ∀ {q : FilePtr}, q ≠ s.fresh → (s.alloc g).heap q = s.heap q := fun hq =>
    Store.heap_alloc_of_ne _ _ hq
  refine ⟨⟨fun q hq => ?_, fun q hq => ?_, fun q hq => ?_, h.one⟩,
    fun q hq f' hf' => ?_, Nat.le_succ _, fun q hq f' hf' => ?_⟩
  · have hlt : s.fresh < q := hq
    rw [hother (Nat.ne_of_gt hlt)]
    exact h.fresh q (Nat.le_of_lt hlt)
  · have he : q ≠ s.fresh := fun he => absurd hreads (Nat.pos_iff_ne_zero.1 (he ▸ hq))
    rw [hother he]
    exact h.reading q hq
  · have he : q ≠ s.fresh := fun he => absurd hdeletes (Nat.pos_iff_ne_zero.1 (he ▸ hq))
    rw [hother he]
    exact h.deleting q hq
  · have he : q ≠ s.fresh := Nat.ne_of_lt (h.lt_fresh hf')
    exact ⟨f', (hother he).trans hf', .refl f'⟩
  · exact ⟨f', (hother (Nat.ne_of_lt hq)).symm.trans hf', rfl⟩

/-- A file that nobody reads is deleted. -/
theorem delete (hreads : reads p = 0) (hdeletes : deletes p = 0) :
    (s.delete p).Shared reads deletes ∧ s.Keeps (s.delete p) reads deletes := by
  have hother : ∀ {q : FilePtr}, q ≠ p → (s.delete p).heap q = s.heap q := fun hq =>
    (Store.heap_delete ..).trans (if_neg hq)
  refine ⟨⟨fun q hq => ?_, fun q hq => ?_, fun q hq => ?_, h.one⟩, Store.keeps_delete (by omega)⟩
  · rw [Store.heap_delete]
    split
    · rfl
    · exact h.fresh q hq
  · have he : q ≠ p := fun he => absurd hreads (Nat.pos_iff_ne_zero.1 (he ▸ hq))
    rw [hother he]
    exact h.reading q hq
  · have he : q ≠ p := fun he => absurd hdeletes (Nat.pos_iff_ne_zero.1 (he ▸ hq))
    rw [hother he]
    exact h.deleting q hq

/-- A thread will delete files that are locked for writing in the settled store. -/
theorem add_deletes {ds : List (FilePtr × File)} (hnodup : (ds.map Prod.fst).Nodup)
    (hds : ∀ y ∈ ds, (s.settled unlocks deletes).heap y.1 = some y.2.writeLocked) :
    s.Shared reads (deletes + countAt ds) := by
  have hin : ∀ {p : FilePtr}, 0 < countAt ds p → deletes p = 0 ∧ ∃ f, s.heap p = some f ∧
      0 < f.nWriters := by
    intro p hp
    obtain ⟨y, hy, rfl⟩ := List.mem_map.1 (List.count_pos_iff.1 hp)
    obtain ⟨hd, f, hf, he⟩ := Store.heap_settled_eq_some (hds y hy)
    have hwriters : y.2.nWriters + 1 = f.nWriters := congrArg File.nWriters he
    exact ⟨hd, f, hf, by omega⟩
  refine ⟨h.fresh, h.reading, fun p hp => ?_, fun p => ?_⟩
  · rcases Nat.eq_zero_or_pos (deletes p) with hd | hd
    · rw [Pi.add_apply, hd, Nat.zero_add] at hp
      exact (hin hp).2
    · exact h.deleting p hd
  · rcases Nat.eq_zero_or_pos (countAt ds p) with hzero | hpos
    · rw [Pi.add_apply, hzero]
      exact h.one p
    · rw [Pi.add_apply, (hin hpos).1, Nat.zero_add]
      exact List.nodup_iff_count_le_one.1 hnodup p

/-- A file that is locked for writing in the settled store is not being read. -/
theorem of_writing (hw : (s.settled unlocks deletes).writing p = true) : reads p = 0 := by
  unfold Store.writing at hw
  cases hg : (s.settled unlocks deletes).heap p with
  | none =>
    rw [hg] at hw
    cases hw
  | some g =>
    rw [hg] at hw
    obtain ⟨-, f, hf, rfl⟩ := Store.heap_settled_eq_some hg
    exact h.not_reading hf (.inl (of_decide_eq_true hw))

/-- An assignment to a file that is being read leaves its contents alone. -/
theorem of_set {fld : Field} {v : fld.Ty} (hf : s.heap p = some f)
    (hguard : guard (.set p fld v) (l, s.settled unlocks deletes) = true) (hpos : 0 < reads p) :
    (f.set fld v).Same f ∧ (f.set fld v).nWriters = 0 ∧ f.nReaders ≤ (f.set fld v).nReaders := by
  obtain ⟨f', hf', hwriters, -⟩ := h.reading p hpos
  cases hf.symm.trans hf'
  cases fld
  case pathName => cases hguard
  case contents | size => exact absurd (h.of_writing hguard) (Nat.pos_iff_ne_zero.1 hpos)
  all_goals exact ⟨⟨rfl, rfl, rfl⟩, hwriters, le_rfl⟩

omit h in
/-- The path of a file is never assigned to. -/
theorem pathName_of_set {fld : Field} {v : fld.Ty} {w : World}
    (hguard : guard (.set p fld v) w = true) :
    (f.set fld v).pathName = f.pathName := by
  cases fld
  case pathName => cases hguard
  all_goals rfl

/-- A plain operation of a section. -/
theorem plain (hle : ∀ q, unlocks q ≤ reads q) {o : Op} {a : Ans o} {policy : Policy}
    (ho : o.Plain policy)
    (hguard : guard o (l, s.settled unlocks deletes) = true)
    (hfault : exec o (l, s.settled unlocks deletes) ≠ .fault)
    (hexec : exec o (l, s) = .ok (a, (l', s'))) :
    exec o (l, s.settled unlocks deletes) = .ok (a, (l', s'.settled unlocks deletes)) ∧
      s'.Shared reads deletes ∧ s.Keeps s' reads deletes := by
  cases o
  case readn | writen | clockGettime | safeMalloc | malloc | exit | uninit | logger =>
    obtain ⟨rfl, hany⟩ := exec_of_private (by exact trivial) hexec
    exact ⟨hany _, h, .refl s'⟩
  case mutexLock m =>
    change (if s.locked m = true then _ else _) = _ at hexec
    split_ifs at hexec with hlocked
    cases hexec
    refine ⟨?_, h.of_heap (Store.heap_setLocked ..) (Store.fresh_setLocked ..),
      Store.keeps_of_heap (Store.heap_setLocked ..) (Store.fresh_setLocked ..)⟩
    rw [Store.settled_setLocked]
    exact if_neg (by rwa [Store.locked_settled])
  case mutexUnlock m =>
    cases hexec
    refine ⟨?_, h.of_heap (Store.heap_setLocked ..) (Store.fresh_setLocked ..),
      Store.keeps_of_heap (Store.heap_setLocked ..) (Store.fresh_setLocked ..)⟩
    rw [Store.settled_setLocked]
    rfl
  case getState | hashmapContains | hashmapGetByKey | hashmapIter | hashmapNelem =>
    cases hexec
    exact ⟨rfl, h, .refl s⟩
  case setState | hashmapInsert | hashmapRemove =>
    cases hexec
    exact ⟨rfl, h.of_heap rfl rfl, Store.keeps_of_heap rfl rfl⟩
  case fileNew file =>
    cases hexec
    obtain ⟨hreads, hdeletes⟩ := h.fresh_eq_zero
    refine ⟨?_, h.alloc file⟩
    rw [Store.settled_alloc hdeletes (Nat.le_zero.1 (hreads ▸ hle _))]
    rfl
  case undefined => exact absurd rfl hfault
  case fileReaderLock | fileReaderUnlock => exact ho.elim
  case get p fld =>
    obtain ⟨g, hg⟩ := exists_of_withFile hfault
    obtain ⟨-, f, hf, rfl⟩ := Store.heap_settled_eq_some hg
    obtain ⟨f', hf', he⟩ := withFile_eq_ok hexec
    cases hf.symm.trans hf'
    cases he
    refine ⟨(withFile_of_some hg).trans ?_, h, .refl s⟩
    cases fld <;> rfl
  case set p fld v =>
    obtain ⟨g, hg⟩ := exists_of_withFile hfault
    obtain ⟨hd, f, hf, rfl⟩ := Store.heap_settled_eq_some hg
    obtain ⟨f', hf', he⟩ := withFile_eq_ok hexec
    cases hf.symm.trans hf'
    cases he
    have hcomm : (f.set fld v).without (unlocks p) = (f.without (unlocks p)).set fld v := by
      cases fld <;> rfl
    refine ⟨?_, h.put hf (pathName_of_set hguard) hd (h.of_set hf hguard)⟩
    rw [Store.settled_put hd hcomm]
    exact withFile_of_some hg
  case fileDelete p =>
    obtain ⟨g, hg⟩ := exists_of_withFile hfault
    obtain ⟨hd, f, hf, rfl⟩ := Store.heap_settled_eq_some hg
    obtain ⟨f', hf', he⟩ := withFile_eq_ok hexec
    cases he
    have hreads : reads p = 0 := h.of_writing hguard
    refine ⟨?_, h.delete hreads hd⟩
    rw [Store.settled_delete hd]
    exact withFile_of_some hg
  case fileWriterLock p =>
    obtain ⟨g, hg⟩ := exists_of_withFile hfault
    obtain ⟨hd, f, hf, rfl⟩ := Store.heap_settled_eq_some hg
    obtain ⟨f', hf', he⟩ := withFile_eq_ok hexec
    cases hf.symm.trans hf'
    split_ifs at he with hfree
    cases he
    have hreads : reads p = 0 := h.not_reading hf (.inr (by omega))
    refine ⟨?_, h.put hf rfl hd fun hpos => absurd hreads (Nat.pos_iff_ne_zero.1 hpos)⟩
    rw [Store.settled_put hd rfl]
    refine (withFile_of_some hg).trans (if_neg ?_)
    simp only [File.without]
    omega
  case fileWriterUnlock p =>
    obtain ⟨g, hg⟩ := exists_of_withFile hfault
    obtain ⟨hd, f, hf, rfl⟩ := Store.heap_settled_eq_some hg
    obtain ⟨f', hf', he⟩ := withFile_eq_ok hexec
    cases hf.symm.trans hf'
    cases he
    have hreads : reads p = 0 := h.of_writing hguard
    refine ⟨?_, h.put hf rfl hd fun hpos => absurd hreads (Nat.pos_iff_ne_zero.1 hpos)⟩
    rw [Store.settled_put hd rfl]
    exact withFile_of_some hg

/-- A section locks a file for reading. -/
theorem readerLock (hle : ∀ q, unlocks q ≤ reads q) {reads' : FilePtr → ℕ}
    (hfault : exec (.fileReaderLock p) (l, s.settled unlocks deletes) ≠ .fault)
    (hexec : exec (.fileReaderLock p) (l, s) = .ok ((), (l', s')))
    (hself : reads' p = reads p + 1) (hother : ∀ q, q ≠ p → reads' q = reads q) :
    exec (.fileReaderLock p) (l, s.settled unlocks deletes) =
        .ok ((), (l', s'.settled unlocks deletes)) ∧
      s'.Shared reads' deletes ∧ s.Keeps s' reads deletes := by
  obtain ⟨g, hg⟩ := exists_of_withFile hfault
  obtain ⟨hd, f, hf, rfl⟩ := Store.heap_settled_eq_some hg
  obtain ⟨f', hf', he⟩ := withFile_eq_ok hexec
  cases hf.symm.trans hf'
  split_ifs at he with hfree
  cases he
  have hcount : reads p ≤ f.nReaders := by
    rcases Nat.eq_zero_or_pos (reads p) with hzero | hpos
    · omega
    · obtain ⟨f', hf', -, hreaders⟩ := h.reading p hpos
      cases hf.symm.trans hf'
      exact hreaders
  have hcomm : f.readLocked.without (unlocks p) = (f.without (unlocks p)).readLocked := by
    have hunlocks := hle p
    have hsub : f.nReaders + 1 - unlocks p = f.nReaders - unlocks p + 1 := by omega
    simp only [File.without, File.readLocked, hsub]
  obtain ⟨hshared, hkeeps⟩ := h.put (g := f.readLocked) hf rfl hd fun _ =>
    ⟨⟨rfl, rfl, rfl⟩, Nat.eq_zero_of_not_pos hfree, Nat.le_succ _⟩
  refine ⟨?_, ⟨hshared.fresh, fun q hq => ?_, hshared.deleting, h.one⟩, hkeeps⟩
  · rw [Store.settled_put hd hcomm]
    exact (withFile_of_some hg).trans (if_neg hfree)
  · by_cases hqp : q = p
    · subst hqp
      exact ⟨_, Store.heap_put_self .., Nat.eq_zero_of_not_pos hfree,
        hself ▸ Nat.succ_le_succ hcount⟩
    · rw [hother q hqp] at hq ⊢
      exact hshared.reading q hq

/-- A file loses a reader. -/
theorem readUnlocked {reads' : FilePtr → ℕ} (hf : s.heap p = some f)
    (hself : reads p = reads' p + 1)
    (hother : ∀ q, q ≠ p → reads q = reads' q) :
    (s.put p f.readUnlocked).Shared reads' deletes ∧
      s.Keeps (s.put p f.readUnlocked) reads deletes := by
  have hd := h.not_deleting (by omega : 0 < reads p)
  obtain ⟨f', hf', hwriters, hreaders⟩ := h.reading p (by omega)
  cases hf.symm.trans hf'
  have hput : ∀ {q : FilePtr}, q ≠ p → (s.put p f.readUnlocked).heap q = s.heap q := fun hq =>
    Store.heap_put_of_ne _ _ _ hq
  refine ⟨⟨fun q hq => ?_, fun q hq => ?_, fun q hq => ?_, h.one⟩,
    Store.keeps_put hf rfl fun _ => ⟨rfl, rfl, rfl⟩⟩
  · rw [hput (Nat.ne_of_gt (lt_of_lt_of_le (h.lt_fresh hf) hq))]
    exact h.fresh q hq
  · by_cases hqp : q = p
    · subst hqp
      refine ⟨_, Store.heap_put_self .., hwriters, ?_⟩
      rw [File.readUnlocked_nReaders]
      omega
    · rw [hput hqp]
      rw [← hother q hqp] at hq ⊢
      exact h.reading q hq
  · have hqp : q ≠ p := by
      rintro rfl
      omega
    rw [hput hqp]
    exact h.deleting q hq

/-- A section unlocks a file that it has locked for reading. -/
theorem readerUnlock {reads' : FilePtr → ℕ}
    (hfault : exec (.fileReaderUnlock p) (l, s.settled unlocks deletes) ≠ .fault)
    (hexec : exec (.fileReaderUnlock p) (l, s) = .ok ((), (l', s')))
    (hself : reads p = reads' p + 1) (hother : ∀ q, q ≠ p → reads q = reads' q) :
    exec (.fileReaderUnlock p) (l, s.settled unlocks deletes) =
        .ok ((), (l', s'.settled unlocks deletes)) ∧
      s'.Shared reads' deletes ∧ s.Keeps s' reads deletes := by
  obtain ⟨g, hg⟩ := exists_of_withFile hfault
  obtain ⟨hd, f, hf, rfl⟩ := Store.heap_settled_eq_some hg
  obtain ⟨f', hf', he⟩ := withFile_eq_ok hexec
  cases hf.symm.trans hf'
  cases he
  have hcomm : f.readUnlocked.without (unlocks p) = (f.without (unlocks p)).readUnlocked := by
    have hsub : f.nReaders - 1 - unlocks p = f.nReaders - unlocks p - 1 := by omega
    simp only [File.without, File.readUnlocked, hsub]
  refine ⟨?_, h.readUnlocked hf hself hother⟩
  rw [Store.settled_put hd hcomm]
  exact withFile_of_some hg

/-- A file that is no longer in the map is deleted. -/
theorem deleted {deletes' : FilePtr → ℕ} (hself : deletes p = deletes' p + 1)
    (hother : ∀ q, q ≠ p → deletes q = deletes' q) :
    (s.delete p).Shared reads deletes' ∧ s.Keeps (s.delete p) reads deletes' := by
  obtain ⟨f, hf, hw⟩ := h.deleting p (by omega)
  have hreads := h.not_reading hf (.inl hw)
  have hone := h.one p
  have hdelete : ∀ {q : FilePtr}, q ≠ p → (s.delete p).heap q = s.heap q := fun hq =>
    (Store.heap_delete ..).trans (if_neg hq)
  refine ⟨⟨fun q hq => ?_, fun q hq => ?_, fun q hq => ?_, fun q => ?_⟩,
    Store.keeps_delete (by omega)⟩
  · rw [Store.heap_delete]
    split
    · rfl
    · exact h.fresh q hq
  · have hqp : q ≠ p := fun he => absurd hreads (Nat.pos_iff_ne_zero.1 (he ▸ hq))
    rw [hdelete hqp]
    exact h.reading q hq
  · have hqp : q ≠ p := by
      rintro rfl
      omega
    rw [hdelete hqp]
    rw [← hother q hqp] at hq
    exact h.deleting q hq
  · by_cases hqp : q = p
    · subst hqp
      omega
    · rw [← hother q hqp]
      exact h.one q

end Store.Shared

end Shared

end StorageServer
