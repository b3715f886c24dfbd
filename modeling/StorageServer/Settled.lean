import StorageServer.Jobs

/-!
# After `files_mtx`

A handler that has released `files_mtx` still sends the files that it has locked for reading or
taken out of the map, and then unlocks or deletes them; `open_file` prints the path of the file that
it has created, which may be gone by then. `Giving` is such a program together with what it will
unlock and delete and what it will return : as long as the file that is printed is there, nothing of
this depends on what other threads do to the store. `Store.settled` is the store in which the
pending unlocks and deletions have been done. A program that gives back what it has leaves the
settled store (`Giving.run_or`), and every part of a job that follows its section is such a program
(`gives_tail`).
-/

open Programs

namespace StorageServer

/-! ## Settled stores -/

/-- The same path and contents. -/
structure File.Same (f g : File) : Prop where
  pathName : f.pathName = g.pathName
  contents : f.contents = g.contents
  size : f.size = g.size

theorem File.Same.refl (f : File) : f.Same f :=
  ⟨rfl, rfl, rfl⟩

theorem File.Same.trans {f g h : File} (hfg : f.Same g) (hgh : g.Same h) : f.Same h :=
  ⟨hfg.pathName.trans hgh.pathName, hfg.contents.trans hgh.contents, hfg.size.trans hgh.size⟩

/-- A field that is only assigned to under the lock of a writer. -/
def Field.Lasting : Field → Prop
  | .pathName | .contents | .size => True
  | _ => False

theorem File.Same.get {f g : File} (h : f.Same g) {fld : Field} (hfld : fld.Lasting) :
    f.get fld = g.get fld := by
  cases fld
  case pathName => exact h.pathName
  case contents => exact h.contents
  case size => exact h.size
  all_goals exact hfld.elim

/-- The file after so many unlocks of readers. -/
def File.without (n : ℕ) (f : File) : File :=
  { f with nReaders := f.nReaders - n }

@[simp] theorem File.without_zero (f : File) : f.without 0 = f := rfl

theorem File.without_without (m n : ℕ) (f : File) :
    (f.without m).without n = f.without (m + n) := by
  simp only [File.without, Nat.sub_sub]

theorem File.without_readUnlocked (n : ℕ) (f : File) :
    f.readUnlocked.without n = f.without (n + 1) := by
  simp only [File.without, File.readUnlocked, Nat.sub_sub, Nat.add_comm]

/-- The store after the pending unlocks of readers and the pending deletions. -/
def Store.settled (s : Store) (unlocks deletes : FilePtr → ℕ) : Store :=
  { s with heap := fun p => if 0 < deletes p then none
    else (s.heap p).map (File.without (unlocks p)) }

namespace Store

variable {s s' : Store} {unlocks unlocks' deletes deletes' : FilePtr → ℕ} {p q : FilePtr}
  {f g : File}

/-- Two stores that are the same up to the memory, and in the memory. -/
theorem settled_congr (hfiles : s'.files = s.files) (hfresh : s'.fresh = s.fresh)
    (hstate : s'.currState = s.currState) (hlocked : s'.locked = s.locked)
    (hheap : ∀ q, (s'.settled unlocks' deletes').heap q = (s.settled unlocks deletes).heap q) :
    s'.settled unlocks' deletes' = s.settled unlocks deletes := by
  have hmtx : s'.filesMtx = s.filesMtx := congrFun hlocked .files
  have hmtx' : s'.currStateMtx = s.currStateMtx := congrFun hlocked .currState
  have hheap' : (s'.settled unlocks' deletes').heap = (s.settled unlocks deletes).heap :=
    funext hheap
  simp only [settled] at hheap' ⊢
  rw [hfiles, hfresh, hstate, hmtx, hmtx', hheap']

@[simp] theorem settled_zero : s.settled 0 0 = s := by
  have hheap : (s.settled 0 0).heap = s.heap := funext fun p => by
    simp only [settled, Pi.zero_apply, lt_self_iff_false, if_false]
    cases s.heap p <;> rfl
  simp only [settled] at hheap ⊢
  rw [hheap]

theorem settled_settled :
    (s.settled unlocks deletes).settled unlocks' deletes' =
      s.settled (unlocks + unlocks') (deletes + deletes') := by
  refine settled_congr rfl rfl rfl rfl fun q => ?_
  simp only [settled, Pi.add_apply]
  by_cases hd : 0 < deletes q
  · rw [if_pos hd, Option.map_none, ite_self, if_pos (by omega)]
  by_cases hd' : 0 < deletes' q
  · rw [if_pos hd', if_pos (by omega)]
  · rw [if_neg hd, if_neg hd', if_neg (by omega)]
    cases s.heap q with
    | none => rfl
    | some f => exact congrArg some (f.without_without _ _)

theorem heap_settled (hp : deletes p = 0) :
    (s.settled unlocks deletes).heap p = (s.heap p).map (File.without (unlocks p)) :=
  if_neg (by omega)

theorem heap_settled_of_some (h : s.heap p = some f) (hp : deletes p = 0) :
    (s.settled unlocks deletes).heap p = some (f.without (unlocks p)) := by
  rw [heap_settled hp, h]
  rfl

/-- What is in the settled store. -/
theorem heap_settled_eq_some (h : (s.settled unlocks deletes).heap p = some g) :
    deletes p = 0 ∧ ∃ f, s.heap p = some f ∧ g = f.without (unlocks p) := by
  simp only [settled] at h
  split_ifs at h with hp
  obtain ⟨f, hf, rfl⟩ := Option.map_eq_some_iff.1 h
  exact ⟨by omega, f, hf, rfl⟩

@[simp] theorem files_settled : (s.settled unlocks deletes).files = s.files := rfl
@[simp] theorem fresh_settled : (s.settled unlocks deletes).fresh = s.fresh := rfl
@[simp] theorem currState_settled : (s.settled unlocks deletes).currState = s.currState := rfl
@[simp] theorem locked_settled (m : Mutex) :
    (s.settled unlocks deletes).locked m = s.locked m := by cases m <;> rfl
@[simp] theorem settled_setLocked (b : Bool) (m : Mutex) :
    (s.setLocked b m).settled unlocks deletes = (s.settled unlocks deletes).setLocked b m := by
  cases m <;> rfl
@[simp] theorem settled_setState (st : ServerState) :
    (s.setState st).settled unlocks deletes = (s.settled unlocks deletes).setState st := rfl
@[simp] theorem settled_setFiles (files : HashMap FilePtr) :
    (s.setFiles files).settled unlocks deletes = (s.settled unlocks deletes).setFiles files := rfl

/-- A change of a file that is not deleted. -/
theorem settled_put (hp : deletes p = 0) (hg : f.without (unlocks p) = g) :
    (s.put p f).settled unlocks deletes = (s.settled unlocks deletes).put p g := by
  have hheap : ((s.put p f).settled unlocks deletes).heap =
      ((s.settled unlocks deletes).put p g).heap := funext fun q => by
    by_cases hq : q = p
    · rw [hq, heap_put_self, heap_settled_of_some (heap_put_self ..) hp, hg]
    · rw [heap_put_of_ne _ _ _ hq]
      simp only [settled, heap_put_of_ne _ _ _ hq]
  simp only [settled, put] at hheap ⊢
  rw [hheap]

theorem settled_alloc (hd : deletes s.fresh = 0) (hu : unlocks s.fresh = 0) :
    (s.alloc f).settled unlocks deletes = (s.settled unlocks deletes).alloc f := by
  have hheap : ((s.alloc f).settled unlocks deletes).heap =
      ((s.settled unlocks deletes).alloc f).heap := funext fun q => by
    by_cases hq : q = s.fresh
    · rw [heap_alloc_self _ _ (by exact hq), hq,
        heap_settled_of_some (heap_alloc_self _ _ rfl) hd, hu, File.without_zero]
    · rw [heap_alloc_of_ne _ _ (by exact hq)]
      simp only [settled, heap_alloc_of_ne _ _ hq]
  simp only [settled, alloc] at hheap ⊢
  rw [hheap]

/-- The deletion of a file that no other thread is about to delete. -/
theorem settled_delete (hp : deletes p = 0) :
    (s.delete p).settled unlocks deletes = (s.settled unlocks deletes).delete p := by
  have hheap : ((s.delete p).settled unlocks deletes).heap =
      ((s.settled unlocks deletes).delete p).heap := funext fun q => by
    rw [heap_delete]
    by_cases hq : q = p
    · rw [if_pos hq, hq, heap_settled hp, heap_delete, if_pos rfl]
      rfl
    · rw [if_neg hq]
      simp only [settled, heap_delete, if_neg hq]
  simp only [settled, delete] at hheap ⊢
  rw [hheap]

/-- A pending unlock is done. -/
theorem settled_unlock (hf : s.heap p = some f) (hself : unlocks p = unlocks' p + 1)
    (hother : ∀ q, q ≠ p → unlocks q = unlocks' q) :
    (s.put p f.readUnlocked).settled unlocks' deletes = s.settled unlocks deletes := by
  refine settled_congr rfl rfl rfl (funext fun m => locked_put ..) fun q => ?_
  by_cases hq : q = p
  · rw [hq]
    simp only [settled, heap_put_self, hf, Option.map_some, File.without_readUnlocked, hself]
  · simp only [settled, heap_put_of_ne _ _ _ hq, hother q hq]

/-- A pending deletion is done. -/
theorem settled_deleted (hself : 0 < deletes p) (hother : ∀ q, q ≠ p → deletes q = deletes' q) :
    (s.delete p).settled unlocks deletes' = s.settled unlocks deletes := by
  refine settled_congr rfl rfl rfl (funext fun m => locked_delete ..) fun q => ?_
  by_cases hq : q = p
  · rw [hq]
    simp only [settled, heap_delete, if_true, Option.map_none, ite_self, hself]
  · simp only [settled, heap_delete, if_neg hq, hother q hq]

end Store

/-! ## Giving back -/

/-- The program sends, reads the files of `leak`, `unlocks` and `deletes` and the paths of `shown`,
unlocks the files of `unlocks` and deletes those of `deletes`, in this order and no others, and
returns `a` with `l'`. -/
inductive Giving {α : Type} (leak : List (FilePtr × File))
    (shown : List (FilePtr × CString)) (a : α)
    (l' : Local) : List (FilePtr × File) → List (FilePtr × File) → M α → Local → Prop
  | ret : Giving leak shown a l' [] [] (.ret a) l'
  | writen {unlocks deletes : List (FilePtr × File)} {bytes : List UInt8} {k : ℤ → M α} {l : Local}
      (h : Giving leak shown a l' unlocks deletes (k (l.writen bytes).1) (l.writen bytes).2) :
      Giving leak shown a l' unlocks deletes (.op (.writen bytes) k) l
  | logger {unlocks deletes : List (FilePtr × File)} {line : LogLine} {k : Unit → M α} {l : Local}
      (h : Giving leak shown a l' unlocks deletes (k ()) { l with log := l.log ++ [line] }) :
      Giving leak shown a l' unlocks deletes (.op (.logger line) k) l
  | get {unlocks deletes : List (FilePtr × File)} {x : FilePtr × File} {fld : Field}
      {k : fld.Ty → M α} {l : Local} (hx : x ∈ leak ++ unlocks ++ deletes) (hfld : fld.Lasting)
      (h : Giving leak shown a l' unlocks deletes (k (x.2.get fld)) l) :
      Giving leak shown a l' unlocks deletes (.op (.get x.1 fld) k) l
  /-- Nothing keeps the file there. -/
  | print {deletes : List (FilePtr × File)} {x : FilePtr × CString} {k : CString → M α} {l : Local}
      (hx : x ∈ shown) (h : Giving leak shown a l' [] deletes (k x.2) l) :
      Giving leak shown a l' [] deletes (.op (.get x.1 .pathName) k) l
  | unlock {unlocks deletes : List (FilePtr × File)} {x : FilePtr × File} {k : Unit → M α}
      {l : Local}
      (h : Giving leak shown a l' unlocks deletes (k ()) l) :
      Giving leak shown a l' (x :: unlocks) deletes (.op (.fileReaderUnlock x.1) k) l
  | delete {unlocks deletes : List (FilePtr × File)} {x : FilePtr × File} {k : Unit → M α}
      {l : Local}
      (h : Giving leak shown a l' unlocks deletes (k ()) l) :
      Giving leak shown a l' unlocks (x :: deletes) (.op (.fileDelete x.1) k) l

/-- How often an address is among these. -/
def countAt (zs : List (FilePtr × File)) (p : FilePtr) : ℕ :=
  (zs.map Prod.fst).count p

@[simp] theorem countAt_nil : countAt [] = 0 := rfl

theorem countAt_cons_self (x : FilePtr × File) (zs : List (FilePtr × File)) :
    countAt (x :: zs) x.1 = countAt zs x.1 + 1 := by
  rw [countAt, List.map_cons, List.count_cons_self, countAt]

theorem countAt_cons_of_ne {x : FilePtr × File} {zs : List (FilePtr × File)} {q : FilePtr}
    (hq : q ≠ x.1) : countAt (x :: zs) q = countAt zs q := by
  rw [countAt, List.map_cons, List.count_cons_of_ne (Ne.symm hq), countAt]

/-- The files of a program that gives them back are there. -/
structure Store.Backs (s : Store) (reads deletes : List (FilePtr × File)) : Prop where
  heap : ∀ x ∈ reads ++ deletes, ∃ f, s.heap x.1 = some f ∧ f.Same x.2
  nodup : (deletes.map Prod.fst).Nodup
  disjoint : ∀ x ∈ reads, x.1 ∉ deletes.map Prod.fst

/-- The files whose paths are printed are there, and stay. -/
structure Store.Prints (s : Store) (shown : List (FilePtr × CString))
    (deletes : List (FilePtr × File)) :
    Prop where
  heap : ∀ x ∈ shown, ∃ f, s.heap x.1 = some f ∧ f.pathName = x.2
  stays : ∀ x ∈ shown, x.1 ∉ deletes.map Prod.fst

section Giving

variable {α : Type} {leak unlocks deletes reads : List (FilePtr × File)}
  {shown : List (FilePtr × CString)} {a : α} {l l' : Local} {q : M α} {s : Store}
  {x : FilePtr × File}
  {f : File}

theorem Store.Backs.put (h : s.Backs reads deletes) {p : FilePtr} {g : File}
    (hf : s.heap p = some f)
    (hg : g.Same f) : (s.put p g).Backs reads deletes := by
  refine ⟨fun x hx => ?_, h.nodup, h.disjoint⟩
  obtain ⟨f', hf', hsame⟩ := h.heap x hx
  by_cases hp : x.1 = p
  · rw [hp] at hf' ⊢
    cases hf.symm.trans hf'
    exact ⟨g, Store.heap_put_self .., hg.trans hsame⟩
  · exact ⟨f', (Store.heap_put_of_ne _ _ _ hp).trans hf', hsame⟩

theorem Store.Backs.mono (h : s.Backs reads deletes) {reads' : List (FilePtr × File)}
    (hsub : ∀ x ∈ reads', x ∈ reads) : s.Backs reads' deletes where
  heap x hx := by
    rcases List.mem_append.1 hx with hx | hx
    · exact h.heap x (List.mem_append_left _ (hsub x hx))
    · exact h.heap x (List.mem_append_right _ hx)
  nodup := h.nodup
  disjoint x hx := h.disjoint x (hsub x hx)

theorem Store.Backs.delete (h : s.Backs reads (x :: deletes)) :
    (s.delete x.1).Backs reads deletes := by
  have hnodup := List.nodup_cons.1 h.nodup
  refine ⟨fun y hy => ?_, hnodup.2, fun y hy hm => h.disjoint y hy (List.mem_cons_of_mem _ hm)⟩
  have hne : y.1 ≠ x.1 := by
    rcases List.mem_append.1 hy with hy | hy
    · exact fun he => h.disjoint y hy (he ▸ List.mem_cons_self)
    · exact fun he => hnodup.1 (he ▸ List.mem_map_of_mem hy)
  rw [Store.heap_delete, if_neg hne]
  refine h.heap y ?_
  rcases List.mem_append.1 hy with hy | hy
  · exact List.mem_append_left _ hy
  · exact List.mem_append_right _ (List.mem_cons_of_mem _ hy)

theorem Store.Backs.of_settled {n d : FilePtr → ℕ} (h : (s.settled n d).Backs reads deletes) :
    s.Backs reads deletes := by
  refine ⟨fun x hx => ?_, h.nodup, h.disjoint⟩
  obtain ⟨g, hg, hsame⟩ := h.heap x hx
  obtain ⟨-, f, hf, rfl⟩ := Store.heap_settled_eq_some hg
  exact ⟨f, hf, ⟨hsame.pathName, hsame.contents, hsame.size⟩⟩

/-- A program that gives files back leaves the settled store, if no file is gone whose path it
prints. -/
theorem Giving.run_or (h : Giving leak shown a l' unlocks deletes q l)
    (hs : s.Backs (leak ++ unlocks) deletes)
    (hnames : ∀ x ∈ shown, ∀ f, s.heap x.1 = some f → f.pathName = x.2) :
    Prog.run exec q (l, s) = .ok (a, (l', s.settled (countAt unlocks) (countAt deletes))) ∨
      Prog.run exec q (l, s) = .fault ∧
        ∃ x ∈ shown, s.heap x.1 = none ∨ x.1 ∈ deletes.map Prod.fst := by
  induction h generalizing s with
  | ret => exact .inl (congrArg (fun s => Res.ok (a, (l', s))) Store.settled_zero.symm)
  | writen h ih => exact ih hs hnames
  | logger h ih => exact ih hs hnames
  | @get unlocks deletes x fld k l hx hfld h ih =>
    obtain ⟨f, hf, hsame⟩ := hs.heap x hx
    have hexec : exec (.get x.1 fld) (l, s) = .ok (x.2.get fld, (l, s)) := by
      change withFile (l, s) x.1 _ = _
      rw [withFile, hf, ← hsame.get hfld]
    rw [Prog.run_op, hexec]
    exact ih hs hnames
  | @print deletes x k l hx h ih =>
    cases hf : s.heap x.1 with
    | none =>
      have hexec : exec (.get x.1 .pathName) (l, s) = .fault := by
        change withFile (l, s) x.1 _ = _
        rw [withFile, hf]
      rw [Prog.run_op, hexec]
      exact .inr ⟨rfl, x, hx, .inl hf⟩
    | some f =>
      have hexec : exec (.get x.1 .pathName) (l, s) = .ok (x.2, (l, s)) := by
        change withFile (l, s) x.1 _ = _
        rw [withFile, hf, ← hnames x hx f hf]
        rfl
      rw [Prog.run_op, hexec]
      exact ih hs hnames
  | @unlock unlocks deletes x k l h ih =>
    obtain ⟨f, hf, hsame⟩ := hs.heap x (by simp)
    have hexec : exec (.fileReaderUnlock x.1) (l, s) = .ok ((), (l, s.put x.1 f.readUnlocked)) := by
      change withFile (l, s) x.1 _ = _
      rw [withFile, hf]
    have hunlocked : f.readUnlocked.Same f := ⟨rfl, rfl, rfl⟩
    have hbacks : (s.put x.1 f.readUnlocked).Backs (leak ++ unlocks) deletes :=
      (hs.put hf hunlocked).mono fun y hy => by
        simp only [List.mem_append, List.mem_cons] at hy ⊢
        tauto
    have hput : ∀ {q : FilePtr} {g : File}, (s.put x.1 f.readUnlocked).heap q = some g →
        ∃ f', s.heap q = some f' ∧ g.pathName = f'.pathName := fun {q g} hg => by
      by_cases hq : q = x.1
      · rw [hq, Store.heap_put_self] at hg
        cases hg
        exact ⟨f, hq ▸ hf, rfl⟩
      · exact ⟨g, (Store.heap_put_of_ne _ _ _ hq).symm.trans hg, rfl⟩
    rw [Prog.run_op, hexec, Res.bind_ok,
      ← Store.settled_unlock hf (countAt_cons_self x unlocks) fun q hq => countAt_cons_of_ne hq]
    refine (ih hbacks fun y hy g hg => ?_).imp_right ?_
    · obtain ⟨f', hf', hname⟩ := hput hg
      exact hname.trans (hnames y hy f' hf')
    · rintro ⟨hfault, y, hy, hgone⟩
      refine ⟨hfault, y, hy, hgone.imp_left fun hnone => ?_⟩
      by_cases hq : y.1 = x.1
      · rw [hq, Store.heap_put_self] at hnone
        cases hnone
      · exact (Store.heap_put_of_ne _ _ _ hq).symm.trans hnone
  | @delete unlocks deletes x k l h ih =>
    obtain ⟨f, hf, hsame⟩ := hs.heap x (by simp)
    have hexec : exec (.fileDelete x.1) (l, s) = .ok ((), (l, s.delete x.1)) := by
      change withFile (l, s) x.1 _ = _
      rw [withFile, hf]
    have hpos : 0 < countAt (x :: deletes) x.1 := by
      rw [countAt_cons_self]
      exact Nat.succ_pos _
    rw [Prog.run_op, hexec, Res.bind_ok,
      ← Store.settled_deleted hpos fun q hq => countAt_cons_of_ne hq]
    refine (ih hs.delete fun y hy g hg => ?_).imp_right ?_
    · rw [Store.heap_delete] at hg
      split_ifs at hg
      exact hnames y hy g hg
    · rintro ⟨hfault, y, hy, hgone⟩
      refine ⟨hfault, y, hy, ?_⟩
      rw [Store.heap_delete] at hgone
      by_cases hq : y.1 = x.1
      · exact .inr (hq ▸ List.mem_cons_self)
      · rw [if_neg hq] at hgone
        exact hgone.imp_right (List.mem_cons_of_mem _)

theorem Giving.run (h : Giving leak shown a l' unlocks deletes q l)
    (hs : s.Backs (leak ++ unlocks) deletes) (hp : s.Prints shown deletes) :
    Prog.run exec q (l, s) = .ok (a, (l', s.settled (countAt unlocks) (countAt deletes))) := by
  refine (h.run_or hs fun x hx f hf => ?_).resolve_right ?_
  · obtain ⟨f', hf', hname⟩ := hp.heap x hx
    cases hf.symm.trans hf'
    exact hname
  · rintro ⟨-, x, hx, hnone | hmem⟩
    · obtain ⟨f', hf', -⟩ := hp.heap x hx
      cases hnone.symm.trans hf'
    · exact hp.stays x hx hmem

end Giving

/-! ## The last part of a job -/

/-- The program gives back what it has : the files of `deletes`, and those of `reads`, but for a
`leak` if the result is one of `lost`. It prints the paths of `shown` only. -/
def Gives {α : Type} (lost : α → Prop) (shown : List (FilePtr × CString))
    (reads deletes : List (FilePtr × File)) (q : M α) (l : Local) : Prop :=
  ∃ leak unlocks a l', (leak ++ unlocks).Perm reads ∧ (leak = [] ∨ lost a) ∧
    Giving leak shown a l' unlocks deletes q l

section Gives

variable {α : Type} {lost : α → Prop} {shown : List (FilePtr × CString)}
  {reads deletes zs : List (FilePtr × File)} {l : Local} {x : FilePtr × File}

theorem gives_pure {a : α} (h : reads = [] ∨ lost a) : Gives lost shown reads [] (pure a) l :=
  ⟨reads, [], a, l, by rw [List.append_nil], h, .ret⟩

theorem gives_logger {line : LogLine} {k : Unit → M α}
    (h : Gives lost shown reads deletes (k ()) { l with log := l.log ++ [line] }) :
    Gives lost shown reads deletes (logger line >>= k) l := by
  obtain ⟨leak, unlocks, a, l', hperm, hlost, hk⟩ := h
  exact ⟨leak, unlocks, a, l', hperm, hlost, .logger hk⟩

theorem gives_writen {bytes : List UInt8} {k : ℤ → M α}
    (h : Gives lost shown reads deletes (k (l.writen bytes).1) (l.writen bytes).2) :
    Gives lost shown reads deletes (writen bytes >>= k) l := by
  obtain ⟨leak, unlocks, a, l', hperm, hlost, hk⟩ := h
  exact ⟨leak, unlocks, a, l', hperm, hlost, .writen hk⟩

theorem gives_get {fld : Field} {k : fld.Ty → M α} (hx : x ∈ reads ++ deletes) (hfld : fld.Lasting)
    (h : Gives lost shown reads deletes (k (x.2.get fld)) l) :
    Gives lost shown reads deletes (perform (.get x.1 fld) >>= k) l := by
  obtain ⟨leak, unlocks, a, l', hperm, hlost, hk⟩ := h
  exact ⟨leak, unlocks, a, l', hperm, hlost,
    .get ((hperm.append_right deletes).mem_iff.2 hx) hfld hk⟩

theorem gives_print {y : FilePtr × CString} {k : CString → M α} (hy : y ∈ shown)
    (h : Gives lost shown [] deletes (k y.2) l) :
    Gives lost shown [] deletes (getPathName y.1 >>= k) l := by
  obtain ⟨leak, unlocks, a, l', hperm, hlost, hk⟩ := h
  obtain ⟨rfl, rfl⟩ := List.append_eq_nil_iff.1 (List.perm_nil.1 hperm)
  exact ⟨[], [], a, l', hperm, hlost, .print hy hk⟩

theorem gives_fileReaderUnlock {k : Unit → M α} (h : Gives lost shown reads deletes (k ()) l) :
    Gives lost shown (x :: reads) deletes (fileReaderUnlock x.1 >>= k) l := by
  obtain ⟨leak, unlocks, a, l', hperm, hlost, hk⟩ := h
  exact ⟨leak, x :: unlocks, a, l', List.perm_middle.trans (hperm.cons x), hlost, .unlock hk⟩

theorem gives_fileDelete {k : Unit → M α} (h : Gives lost shown reads deletes (k ()) l) :
    Gives lost shown reads (x :: deletes) (fileDelete x.1 >>= k) l := by
  obtain ⟨leak, unlocks, a, l', hperm, hlost, hk⟩ := h
  exact ⟨leak, unlocks, a, l', hperm, hlost, .delete hk⟩

/-- A piece is sent, and then the others if it has not failed. -/
theorem gives_piece {bytes : List UInt8} {p : M ℤ} {k : ℤ → M α}
    (hk : ∀ n l, Gives lost shown reads deletes (k n) l)
    (hp : ∀ l, Gives lost shown reads deletes (p >>= k) l) :
    Gives lost shown reads deletes
      ((writen bytes >>= fun r => if r = -1 then pure (-1) else p) >>= k) l := by
  rw [bind_assoc]
  refine gives_writen ?_
  split_ifs
  · exact hk _ _
  · exact hp _

theorem gives_sendSingleFile {k : ℤ → M α} (hx : x ∈ reads ++ deletes)
    (hk : ∀ n l, Gives lost shown reads deletes (k n) l) (sendPath : Bool) :
    Gives lost shown reads deletes (sendSingleFile x.1 sendPath >>= k) l := by
  have hfalse : ∀ l, Gives lost shown reads deletes (sendSingleFile x.1 false >>= k) l :=
    fun l => by
    refine gives_get hx trivial (gives_piece hk fun l => gives_get hx trivial ?_)
    change Gives lost shown reads deletes ((if x.2.size ≠ 0 then _ else _) >>= k) l
    split
    · exact gives_get hx trivial (gives_get hx trivial (gives_piece hk fun l => hk _ l))
    · exact hk _ l
  cases sendPath with
  | false => exact hfalse l
  | true =>
    rw [sendSingleFile_true]
    exact gives_get hx trivial (gives_piece hk fun l => gives_piece hk hfalse)

theorem gives_sendListOfFiles {k : ℤ → M α} (hzs : ∀ x ∈ zs, x ∈ reads ++ deletes)
    (hk : ∀ n l, Gives lost shown reads deletes (k n) l) :
    Gives lost shown reads deletes (sendListOfFiles (zs.map Prod.fst) >>= k) l := by
  induction zs generalizing l with
  | nil => exact gives_piece hk fun l => hk _ l
  | cons x zs ih =>
    rw [List.map_cons, sendListOfFiles, bind_assoc]
    refine gives_sendSingleFile (hzs x List.mem_cons_self) (fun n l => ?_) true
    split_ifs
    · exact hk _ l
    · exact ih fun y hy => hzs y (List.mem_cons_of_mem _ hy)

theorem gives_readerUnlockAll {k : Unit → M α} (hk : ∀ u, Gives lost shown [] deletes (k u) l) :
    Gives lost shown zs deletes (readerUnlockAll (zs.map Prod.fst) >>= k) l := by
  induction zs with
  | nil => exact hk ()
  | cons x zs ih => exact gives_fileReaderUnlock ih

theorem gives_deleteList {k : Unit → M α} (hk : ∀ u, Gives lost shown reads [] (k u) l) :
    Gives lost shown reads zs (deleteList (zs.map Prod.fst) >>= k) l := by
  induction zs with
  | nil => exact hk ()
  | cons x zs ih => exact gives_fileDelete ih

/-- The two ways out of a reply. -/
theorem gives_reply {bytes : List UInt8} {send : M ℤ} {onError onSuccess : M Sa} {k : Sa → M α}
    (hsend : ∀ (l : Local) (k : ℤ → M α), (∀ n l, Gives lost shown reads deletes (k n) l) →
      Gives lost shown reads deletes (send >>= k) l)
    (herror : ∀ l, Gives lost shown reads deletes (onError >>= k) l)
    (hsuccess : ∀ l, Gives lost shown reads deletes (onSuccess >>= k) l) :
    Gives lost shown reads deletes ((writen bytes >>= fun r =>
      if r = -1 then onError
      else send >>= fun r => if r = -1 then onError else onSuccess) >>= k) l := by
  rw [bind_assoc]
  refine gives_writen ?_
  split_ifs
  · exact herror _
  · rw [bind_assoc]
    refine hsend _ _ fun n l => ?_
    split_ifs
    · exact herror l
    · exact hsuccess l

/-- The files that the last part of a handler has been given to delete. -/
def Reply.deleted : Except Sa Reply → List FilePtr
  | .ok (.created _ file) => file.toList
  | .ok (.expelled toExpell) => toExpell
  | _ => []

/-- What a job has when it has unlocked `files_mtx` : files of the map that it has locked for
reading, and files that it has taken out of the map and locked for writing. The file that it has
created is there. -/
structure Store.Leaves (s : Store) (r : Except Sa Reply) (shown : List (FilePtr × CString))
    (reads deletes : List (FilePtr × File)) : Prop where
  prints : s.Prints shown deletes
  created : ∀ x ∈ shown, ∃ y, r = .ok (.created x.1 y)
  readers : reads.map Prod.fst = Reply.readers r
  deleted : deletes.map Prod.fst = Reply.deleted r
  reading : ∀ x ∈ reads, s.heap x.1 = some x.2
  deleting : ∀ y ∈ deletes, s.heap y.1 = some y.2.writeLocked
  nodup : (deletes.map Prod.fst).Nodup

/-- The files that a job has are there. -/
theorem Store.Leaves.backs {s : Store} {r : Except Sa Reply} {leak unlocks : List (FilePtr × File)}
    (h : s.Leaves r shown reads deletes) (hperm : (leak ++ unlocks).Perm reads) :
    s.Backs (leak ++ unlocks) deletes := by
  refine ⟨fun x hx => ?_, h.nodup, fun x hx hdeleted => ?_⟩
  · rcases List.mem_append.1 hx with hx | hx
    · exact ⟨x.2, h.reading x (hperm.mem_iff.1 hx), .refl x.2⟩
    · exact ⟨_, h.deleting x hx, ⟨rfl, rfl, rfl⟩⟩
  · have hread : x.1 ∈ Reply.readers r := by
      rw [← h.readers]
      exact List.mem_map_of_mem (hperm.mem_iff.1 hx)
    rw [h.deleted] at hdeleted
    rcases r with code | ⟨_ | _ | _ | _ | _⟩ <;>
      first | exact absurd hread List.not_mem_nil | exact absurd hdeleted List.not_mem_nil

/-- A worker that does not give back all files ends with `MW_FATAL_ERROR`. -/
theorem gives_sendResult {res : Sa} (h : reads = [] ∨ res = .error) :
    Gives (· = some .fatalError) shown reads []
    (sendResult res >>= fun code => pure (some code)) l := by
  rw [sendResult, bind_assoc]
  refine gives_writen ?_
  split
  · exact gives_pure (.inr rfl)
  · refine gives_pure (h.imp_right fun h => ?_)
    rw [h]
    rfl

theorem Store.prints_nil (s : Store) (deletes : List (FilePtr × File)) : s.Prints [] deletes :=
  ⟨nofun, nofun⟩

/-- A job that leaves nothing. -/
theorem Store.Leaves.nothing {s : Store} {r : Except Sa Reply} (hreaders : Reply.readers r = [])
    (hdeleted : Reply.deleted r = []) : s.Leaves r [] [] [] :=
  ⟨s.prints_nil [], nofun, hreaders.symm, hdeleted.symm, nofun, nofun, List.nodup_nil⟩

/-- The end of `open_file` prints the path of the expelled file, which it deletes, and that of the
created one. -/
theorem gives_replyCreated {p : FilePtr} {y : Option (FilePtr × File)} {name : CString}
    {k : Sa → M α}
    (hk : ∀ l, Gives lost [(p, name)] [] [] (k .success) l) :
    Gives lost [(p, name)] [] y.toList (replyCreated p (y.map Prod.fst) >>= k) l := by
  have hprint : ∀ l, Gives lost [(p, name)] [] []
      ((getPathName p >>= fun path => logger (.path path) >>= fun _ => pure .success) >>= k) l :=
    fun l => gives_print (y := (p, name)) (List.mem_singleton_self _) (gives_logger (hk _))
  cases y with
  | none => exact hprint l
  | some y =>
    exact gives_get (x := y) (List.mem_singleton_self _) trivial
      (gives_logger (gives_fileDelete (hprint _)))

/-- The last part of a handler gives back what it has been given. -/
theorem gives_finish {cfg : ServerConfig} {s : Store} {xs : List (FilePtr × File)}
    {r : Except Sa Reply} {out : Except Sa FileSystem.Outcome} (hs : s.Idle cfg xs)
    (h : s.Shows xs r out) {k : Sa → M α}
    (hk : ∀ shown reads code l, (reads = [] ∨ code = .error) →
      Gives lost shown reads [] (k code) l) :
    ∃ shown reads deletes, s.Leaves r shown reads deletes ∧
      ∀ l, Gives lost shown reads deletes (finish r >>= k) l := by
  cases h with
  | error code => exact ⟨[], [], [], .nothing rfl rfl, fun l => hk _ _ _ l (.inl rfl)⟩
  | done => exact ⟨[], [], [], .nothing rfl rfl, fun l => hk _ _ _ l (.inl rfl)⟩
  | @created p f g y howns hp hname hne =>
    refine ⟨[(p, g.pathName)], [], y.toList,
      ⟨⟨?_, ?_⟩, ?_, rfl, ?_, nofun, howns.heap, howns.nodup⟩,
      fun l => gives_replyCreated fun l => hk _ _ _ l (.inl rfl)⟩
    · exact List.forall_mem_singleton.2 ⟨g, hp, rfl⟩
    · refine List.forall_mem_singleton.2 fun hmem => ?_
      obtain ⟨z, hz, rfl⟩ := List.mem_map.1 hmem
      exact hne z (Option.mem_toList.1 hz) rfl
    · exact List.forall_mem_singleton.2 ⟨_, rfl⟩
    · cases y <;> rfl
  | @expelled ys howns =>
    have hdelete : ∀ (code : Sa) (l : Local), Gives lost [] [] ys
        ((deleteList (ys.map Prod.fst) >>= fun _ => pure code) >>= k) l := fun code l => by
      rw [bind_assoc]
      exact gives_deleteList fun _ => hk _ _ _ l (.inl rfl)
    refine ⟨[], [], ys, ⟨s.prints_nil ys, nofun, rfl, rfl, nofun, howns.heap, howns.nodup⟩,
      fun l => ?_⟩
    refine gives_reply (fun l k hk => ?_) (fun l => hdelete _ l) fun l => hdelete _ l
    exact gives_sendListOfFiles (fun x hx => hx) hk
  | @reading x hx hr =>
    refine ⟨[], [x], [], ⟨s.prints_nil [], nofun, rfl, rfl, fun y hy => ?_, nofun, List.nodup_nil⟩,
      fun l => ?_⟩
    · obtain rfl := List.mem_singleton.1 hy
      exact hs.heap y hx
    · refine gives_reply (fun l k hk => ?_) (fun l => hk _ _ _ l (.inr rfl)) fun l =>
        gives_fileReaderUnlock (hk _ _ _ l (.inl rfl))
      exact gives_sendSingleFile (List.mem_singleton_self x) hk false
  | @readingN zs hz hr =>
    have hunlock : ∀ (code : Sa) (l : Local), Gives lost [] zs []
        ((readerUnlockAll (zs.map Prod.fst) >>= fun _ => pure code) >>= k) l := fun code l => by
      rw [bind_assoc]
      exact gives_readerUnlockAll fun _ => hk _ _ _ l (.inl rfl)
    refine ⟨[], zs, [],
      ⟨s.prints_nil [], nofun, rfl, rfl, fun x hx => hs.heap x (hz.subset hx), nofun,
      List.nodup_nil⟩, fun l => ?_⟩
    refine gives_reply (fun l k hk => ?_) (fun l => hunlock _ l) fun l => hunlock _ l
    exact gives_sendListOfFiles (fun x hx => List.mem_append_left _ hx) hk

/-- The part of a job that follows its section gives back what the section has left. -/
theorem gives_tail {cfg : ServerConfig} {s : Store} {xs : List (FilePtr × File)}
    {r : Except Sa Reply} {out : Except Sa FileSystem.Outcome} (hs : s.Idle cfg xs)
    (h : s.Shows xs r out) {asked : Asked} (hasked : asked = .close → r = .ok .done)
    (hlocks : asked.locks = true) :
    ∃ shown reads deletes, s.Leaves r shown reads deletes ∧
      ∀ l, Gives (· = some .fatalError) shown reads deletes (asked.tail r) l := by
  cases asked with
  | nothing code => cases hlocks
  | unread res => cases hlocks
  | close =>
    obtain rfl := hasked rfl
    exact ⟨[], [], [], .nothing rfl rfl, fun l => gives_pure (.inl rfl)⟩
  | request req => exact gives_finish hs h fun shown reads code l => gives_sendResult

/-- So does that of a job that does not come to the store. -/
theorem gives_noReply {asked : Asked} (hlocks : asked.locks = false) :
    Gives (· = some .fatalError) [] [] [] (asked.tail asked.noReply) l := by
  cases asked with
  | nothing code => exact gives_pure (.inl rfl)
  | unread res => exact gives_sendResult (.inl rfl)
  | close => cases hlocks
  | request req =>
    have hk : ∀ (code : Sa) (l : Local), Gives (· = some .fatalError) [] [] []
        ((deleteList [] >>= fun _ => pure code) >>= fun res =>
          sendResult res >>= fun code => pure (some code)) l := fun code l => by
      rw [bind_assoc]
      exact gives_sendResult (.inl rfl)
    have hnil : ∀ x ∈ ([] : List (FilePtr × File)), x ∈ ([] ++ [] : List (FilePtr × File)) :=
      fun x hx => absurd hx List.not_mem_nil
    refine gives_reply (fun l k hk => ?_) (fun l => hk _ l) fun l => hk _ l
    exact gives_sendListOfFiles hnil hk

end Gives

end StorageServer
