import StorageServer.Abstraction

/-!
# What the replacement algorithm does

A scan ends with the first file in the order of the policy among those that can be
expelled, and holds the lock of no other (`safe_expellScan`). An expulsion takes that
file out of the map and leaves it locked for writing (`safe_expellSingleFile`). The loop
takes out the shortest prefix of the order that frees enough (`safe_expellLoop`).
-/

open Programs Selection

namespace StorageServer

/-- The place of the file behind an address. -/
def Policy.keyAt (policy : Policy) (x : FilePtr × File) : ℤ ×ₗ ℤ :=
  policy.key x.2

/-- The file can be expelled. -/
def expellable (x : FilePtr × File) : Bool :=
  x.2.canBeExpelled

namespace Store

/-- The store with the file locked for writing, if there is one. -/
def writeLock (s : Store) (x : Option (FilePtr × File)) : Store :=
  x.elim s fun x => s.put x.1 x.2.writeLocked

/-- The store after a file has been expelled. -/
def expellOne (s : Store) (x : FilePtr × File) : Store :=
  ((s.setFiles (hashmapRemove s.files x.2.pathName).2).setState (s.currState.expell x.2)).put x.1
    x.2.writeLocked

end Store

section Scan

variable {policy : Policy} {l : Local} {s : Store}

theorem safe_policyCmp {x y : FilePtr × File} (hx : s.heap x.1 = some x.2)
    (hy : s.heap y.1 = some y.2) {Q : ℤ → World → Prop}
    (hQ : Q (timespecCmp (policy.stamp x.2) (policy.stamp y.2)) (l, s)) :
    Prog.wp safeExec (policyCmp policy x.1 y.1) Q (l, s) := by
  cases policy <;> simpa [policyCmp, hx, hy, Policy.stamp] using hQ

theorem keyAt_lt_iff {x y : FilePtr × File} :
    policy.keyAt x < policy.keyAt y ↔
      timespecCmp (policy.stamp x.2) (policy.stamp y.2) < 0 :=
  (timespecCmp_neg_iff _ _).symm

theorem heap_writeLock {y : FilePtr × File} {least : Option (FilePtr × File)}
    (h : ∀ m ∈ least, y.1 ≠ m.1) : (s.writeLock least).heap y.1 = s.heap y.1 := by
  cases least with
  | none => rfl
  | some m => exact Store.heap_put_of_ne _ _ _ (h m rfl)

/-- A scan over `ys` ends with the first file in the order of the policy, and has locked it
and no other. The induction is on the files still to come. -/
theorem safe_expellScan {ys : List (FilePtr × File)} (least : Option (FilePtr × File))
    (hheap : ∀ y ∈ least.toList ++ ys, s.heap y.1 = some y.2)
    (hnodup : ((least.toList ++ ys).map Prod.fst).Nodup) {Q : Option FilePtr → World → Prop}
    (hQ : Q ((scan policy.keyAt least (ys.filter expellable)).map Prod.fst)
      (l, s.writeLock (scan policy.keyAt least (ys.filter expellable)))) :
    Prog.wp safeExec (expellScan policy (ys.map Prod.fst) (least.map Prod.fst)) Q
      (l, s.writeLock least) := by
  induction ys generalizing least with
  | nil => simpa [expellScan, scan] using hQ
  | cons y ys ih =>
    have hy : s.heap y.1 = some y.2 := hheap y (by simp)
    have hne : ∀ m ∈ least, y.1 ≠ m.1 := by
      rintro m rfl he
      simp [he] at hnodup
    have hheapy : (s.writeLock least).heap y.1 = some y.2 := (heap_writeLock hne).trans hy
    have ih_skip := ih least
      (fun x hx => hheap x ((List.sublist_cons_self y ys).append_left _ |>.subset hx))
      (hnodup.sublist (((List.sublist_cons_self y ys).append_left _).map _))
    have ih_take := ih (some y) (fun x hx => hheap x (List.mem_append_right _ hx))
      (hnodup.sublist ((List.sublist_append_right least.toList (y :: ys)).map _))
    simp only [List.map_cons, expellScan, Prog.wp_bind, safe_getCanBeExpelled]
    refine ⟨y.2, hheapy, ?_⟩
    by_cases he : expellable y = true
    · rw [List.filter_cons_of_pos he] at hQ
      rw [if_neg (by simpa [expellable] using he), Prog.wp_bind, safe_fileWriterLock]
      refine ⟨y.2, hheapy, fun _ _ => ?_⟩
      cases least with
      | none => exact ih_take hQ
      | some m =>
        have hym : y.1 ≠ m.1 := hne m rfl
        have hm : s.heap m.1 = some m.2 := hheap m (by simp)
        have hy' : ((s.put m.1 m.2.writeLocked).put y.1 y.2.writeLocked).heap y.1 =
          some y.2.writeLocked := Store.heap_put_self ..
        have hm' : ((s.put m.1 m.2.writeLocked).put y.1 y.2.writeLocked).heap m.1 =
          some m.2.writeLocked := by simp [hym.symm]
        simp only [Option.map_some, Prog.wp_bind]
        refine safe_policyCmp (x := (y.1, y.2.writeLocked)) (y := (m.1, m.2.writeLocked)) hy' hm' ?_
        have hstamp : ∀ z : FilePtr × File, policy.stamp z.2.writeLocked = policy.stamp z.2 :=
          fun z => by cases policy <;> rfl
        rw [hstamp y, hstamp m]
        by_cases hlt : policy.keyAt y < policy.keyAt m
        · rw [if_pos (keyAt_lt_iff.1 hlt), Prog.wp_bind]
          refine safe_fileWriterUnlock_of hm' (Nat.succ_pos _) ?_
          rw [scan, if_pos hlt] at hQ
          have hput : ((s.put m.1 m.2.writeLocked).put y.1 y.2.writeLocked).put m.1 m.2 =
              s.put y.1 y.2.writeLocked := by
            rw [Store.put_comm _ _ _ _ hym, Store.put_put, Store.put_self hm]
          rw [File.writeUnlocked_writeLocked, hput]
          exact ih_take hQ
        · rw [if_neg fun h => hlt (keyAt_lt_iff.2 h), Prog.wp_bind]
          refine safe_fileWriterUnlock_of hy' (Nat.succ_pos _) ?_
          rw [scan, if_neg hlt] at hQ
          have hput : ((s.put m.1 m.2.writeLocked).put y.1 y.2.writeLocked).put y.1 y.2 =
              s.put m.1 m.2.writeLocked := by
            rw [Store.put_put, Store.put_self (by simp [hym, hy])]
          rw [File.writeUnlocked_writeLocked, hput]
          exact ih_skip hQ
    · rw [List.filter_cons_of_neg he] at hQ
      rw [if_pos (by simpa [expellable] using he)]
      exact ih_skip hQ

end Scan

/-! ## One expulsion -/

section Expulsion

variable {cfg : ServerConfig} {l : Local} {s : Store} {xs : List (FilePtr × File)}

/-- An expulsion removes a file from the map and from the counters. -/
theorem Store.Holds.expellOne (h : s.Holds xs) {x : FilePtr × File} (hx : x ∈ xs) :
    (s.expellOne x).Holds (xs.filter fun y => y.1 ≠ x.1) := by
  have hrem := (h.remove hx).2
  refine (hrem.setState (s.currState.expell x.2)).put_outside ?_ (h.lt_fresh hx)
  simp

/-- The objects that an expulsion does not touch. -/
theorem Store.heap_expellOne (x : FilePtr × File) (p : FilePtr) :
    (s.expellOne x).heap p = if p = x.1 then some x.2.writeLocked else s.heap p := by
  rw [Store.expellOne, Store.heap_put]
  rfl

/-- The first file in the order of the policy is expelled, if there is a file. -/
theorem safe_expellSingleFile (h : s.Holds xs) (hexp : xs ≠ [] → ∃ x ∈ xs, expellable x)
    {Q : Option FilePtr → World → Prop}
    (hnone : xs = [] → Q none (l, s))
    (hsome : ∀ x ∈ xs, scan cfg.policy.keyAt none (xs.filter expellable) = some x →
      Q (some x.1) (l, s.expellOne x)) :
    Prog.wp safeExec (expellSingleFile cfg) Q (l, s) := by
  simp only [expellSingleFile, Prog.wp_bind, safe_filesNelem, h.nelem, List.length_eq_zero_iff]
  by_cases hxs : xs = []
  · rw [if_pos hxs]
    exact hnone hxs
  · rw [if_neg hxs, Prog.wp_bind, safe_safeMalloc]
    intro _
    simp only [Prog.wp_bind, safe_filesIter, h.iter]
    refine safe_expellScan none h.heap h.ptrs ?_
    cases hscan : scan cfg.policy.keyAt none (xs.filter expellable) with
    | none =>
      obtain ⟨x, hx, he⟩ := hexp hxs
      exact absurd (scan_eq_none.1 hscan) (List.ne_nil_of_mem (List.mem_filter.2 ⟨hx, he⟩))
    | some x =>
      obtain ⟨l₁, l₂, hl, -⟩ := first_of_scan hscan
      have hx : x ∈ xs := List.mem_of_mem_filter (hl ▸ List.mem_append_right _ List.mem_cons_self)
      have hget := h.stored_at hx
      have hrem := (h.remove hx).1
      have hpath : x.2.writeLocked.pathName = x.2.pathName := rfl
      have hsize : x.2.writeLocked.size = x.2.size := rfl
      have hwriters : 0 < x.2.writeLocked.nWriters := Nat.succ_pos _
      simpa [Store.writeLock, hget, hrem, hpath, hsize, hwriters, Store.expellOne,
        ServerState.expell] using hsome x hx hscan

/-! ## The loop -/

/-- The store after files have been expelled, in this order. -/
def Store.expellAll (s : Store) (ys : List (FilePtr × File)) : Store :=
  ys.foldl Store.expellOne s

@[simp] theorem Store.expellAll_cons (x : FilePtr × File) (ys : List (FilePtr × File)) :
    s.expellAll (x :: ys) = (s.expellOne x).expellAll ys :=
  rfl

@[simp] theorem Store.expellAll_nil : s.expellAll [] = s :=
  rfl

namespace Store

theorem expellOne_put {x : FilePtr × File} {p : FilePtr} {f : File} (hp : p ≠ x.1) :
    (s.put p f).expellOne x = (s.expellOne x).put p f := by
  rw [expellOne, expellOne, put_comm _ _ _ _ hp.symm]
  rfl

theorem expellAll_put {ys : List (FilePtr × File)} {p : FilePtr} {f : File}
    (hp : p ∉ ys.map Prod.fst) : (s.put p f).expellAll ys = (s.expellAll ys).put p f := by
  induction ys generalizing s with
  | nil => rfl
  | cons y ys ih =>
    rw [List.map_cons, List.mem_cons, not_or] at hp
    rw [expellAll_cons, expellOne_put hp.1, ih hp.2, expellAll_cons]

@[simp] theorem setLocked_expellAll (b : Bool) (m : Mutex) (ys : List (FilePtr × File)) :
    (s.expellAll ys).setLocked b m = (s.setLocked b m).expellAll ys := by
  induction ys generalizing s with
  | nil => rfl
  | cons y ys ih =>
    have hone : (s.expellOne y).setLocked b m = (s.setLocked b m).expellOne y := by
      cases m <;> rfl
    rw [expellAll_cons, ih, hone, expellAll_cons]

@[simp] theorem locked_expellAll (m : Mutex) (ys : List (FilePtr × File)) :
    (s.expellAll ys).locked m = s.locked m := by
  induction ys generalizing s with
  | nil => rfl
  | cons y ys ih => rw [expellAll_cons, ih, expellOne, locked_put, locked_setState, locked_setFiles]

@[simp] theorem currState_expellAll (ys : List (FilePtr × File)) :
    (s.expellAll ys).currState = (ys.map Prod.snd).foldl ServerState.expell s.currState := by
  induction ys generalizing s with
  | nil => rfl
  | cons y ys ih => rw [expellAll_cons, ih, List.map_cons, List.foldl_cons, expellOne,
      currState_put, currState_setState]

theorem heap_expellAll_of_not_mem {ys : List (FilePtr × File)} {p : FilePtr}
    (hp : p ∉ ys.map Prod.fst) : (s.expellAll ys).heap p = s.heap p := by
  induction ys generalizing s with
  | nil => rfl
  | cons y ys ih =>
    rw [List.map_cons, List.mem_cons, not_or] at hp
    rw [expellAll_cons, ih hp.2, heap_expellOne, if_neg hp.1]

theorem heap_expellAll_of_mem {ys : List (FilePtr × File)} (hnodup : (ys.map Prod.fst).Nodup)
    {y : FilePtr × File} (hy : y ∈ ys) : (s.expellAll ys).heap y.1 = some y.2.writeLocked := by
  induction ys generalizing s with
  | nil => cases hy
  | cons z ys ih =>
    rw [List.map_cons, List.nodup_cons] at hnodup
    rw [expellAll_cons]
    rcases List.mem_cons.1 hy with rfl | hy
    · rw [heap_expellAll_of_not_mem hnodup.1, heap_expellOne, if_pos rfl]
    · exact ih hnodup.2 hy

theorem Holds.fileSystem_expellOne (h : s.Holds xs) {x : FilePtr × File} (hx : x ∈ xs) :
    (s.expellOne x).fileSystem = s.fileSystem.expell x.2 := by
  have hnlist : (s.expellOne x).files.nlist = s.files.nlist := HashMap.nlist_hashmapRemove ..
  rw [(h.expellOne hx).fileSystem_eq, h.map_filter_ne hx, hnlist]
  rfl

/-- The expelled files leave the map, and the file system expels them one by one. -/
theorem Holds.expellAll (h : s.Holds xs) {ys : List (FilePtr × File)} (hys : ys ⊆ xs)
    (hnodup : (ys.map Prod.fst).Nodup) :
    (s.expellAll ys).Holds (xs.filter fun x => x.1 ∉ ys.map Prod.fst) ∧
      (s.expellAll ys).fileSystem = (ys.map Prod.snd).foldl FileSystem.expell s.fileSystem := by
  induction ys generalizing s xs with
  | nil => simpa using h
  | cons y ys ih =>
    rw [List.map_cons, List.nodup_cons] at hnodup
    have hy : y ∈ xs := hys List.mem_cons_self
    have hys' : ys ⊆ xs.filter fun x => x.1 ≠ y.1 := by
      intro z hz
      refine List.mem_filter.2 ⟨hys (List.mem_cons_of_mem _ hz), ?_⟩
      have : z.1 ≠ y.1 := fun he => hnodup.1 (he ▸ List.mem_map_of_mem hz)
      simpa using this
    obtain ⟨hholds, hfs⟩ := ih (h.expellOne hy) hys' hnodup.2
    refine ⟨?_, ?_⟩
    · rw [List.filter_filter] at hholds
      have hfilter : ∀ x : FilePtr × File, (decide (x.1 ∉ ys.map Prod.fst) && decide (x.1 ≠ y.1)) =
          decide (x.1 ∉ (y :: ys).map Prod.fst) := fun x => by
        rw [← Bool.decide_and]
        exact decide_eq_decide.2 (by simp [and_comm])
      simp only [hfilter] at hholds
      exact hholds
    · rw [expellAll_cons, hfs, h.fileSystem_expellOne hy, List.map_cons, List.foldl_cons]

end Store

/-- The size of the file behind an address. -/
def sizeAt (x : FilePtr × File) : ℕ :=
  x.2.size

/-- Taking an element out of a list without repeated addresses. -/
theorem filter_ne_of_split {ys l₁ l₂ : List (FilePtr × File)} {x : FilePtr × File}
    (hl : ys = l₁ ++ x :: l₂) (hnodup : (ys.map Prod.fst).Nodup) :
    ys.filter (fun y => y.1 ≠ x.1) = l₁ ++ l₂ := by
  subst hl
  rw [List.map_append, List.map_cons, List.nodup_middle, List.nodup_cons] at hnodup
  have hne : ∀ y ∈ l₁ ++ l₂, y.1 ≠ x.1 := fun y hy he => hnodup.1 (by
    rw [← List.map_append, ← he]
    exact List.mem_map_of_mem hy)
  rw [List.filter_append, List.filter_cons_of_neg (by simp), ← List.filter_append,
    List.filter_eq_self]
  exact fun y hy => by simpa using hne y hy

/-- With `freed` bytes freed so far, the files that can be expelled hold what is still needed. -/
structure Store.CanFree (s : Store) (xs : List (FilePtr × File)) (need freed : ℕ) : Prop
    extends s.Holds xs where
  enough : need ≤ freed + ((xs.filter expellable).map sizeAt).sum
  lt : freed + ((xs.filter expellable).map sizeAt).sum < 2 ^ 64

namespace Store.CanFree

variable {need freed : ℕ} {x : FilePtr × File}

/-- While not enough has been freed there is a file to expel. -/
theorem exists_expellable (h : s.CanFree xs need freed) (hfreed : freed < need) :
    ∃ x ∈ xs, expellable x := by
  by_contra hn
  have hnil : xs.filter expellable = [] := List.filter_eq_nil_iff.2 fun x hx he => hn ⟨x, hx, he⟩
  have henough := h.enough
  rw [hnil, List.map_nil, List.sum_nil] at henough
  omega

/-- What is left when the file that the scan has found is expelled. -/
theorem filter_expellOne (h : s.CanFree xs need freed) {l₁ l₂ : List (FilePtr × File)}
    (hl : xs.filter expellable = l₁ ++ x :: l₂) :
    (xs.filter fun y => y.1 ≠ x.1).filter expellable = l₁ ++ l₂ := by
  rw [List.filter_comm]
  exact filter_ne_of_split hl (h.ptrs.sublist (List.filter_sublist.map _))

theorem expellOne (h : s.CanFree xs need freed) (hx : x ∈ xs.filter expellable) :
    (s.expellOne x).CanFree (xs.filter fun y => y.1 ≠ x.1) need (freed + sizeAt x) ∧
      toSize (freed + sizeAt x) = freed + sizeAt x ∧
      ((xs.filter fun y => y.1 ≠ x.1).filter expellable).length <
        (xs.filter expellable).length := by
  obtain ⟨l₁, l₂, hl⟩ := List.append_of_mem hx
  have hrest := h.filter_expellOne hl
  have hsum : ((xs.filter expellable).map sizeAt).sum =
      sizeAt x + ((l₁ ++ l₂).map sizeAt).sum := by
    rw [hl]
    simp only [List.map_append, List.map_cons, List.sum_append, List.sum_cons]
    omega
  have henough := h.enough
  have hlt := h.lt
  refine ⟨⟨h.toHolds.expellOne (List.mem_of_mem_filter hx), ?_, ?_⟩, ?_, ?_⟩
  · rw [hrest]
    omega
  · rw [hrest]
    omega
  · exact toSize_of_range (n := freed + sizeAt x) (by omega)
  · rw [hrest, hl, List.length_append, List.length_append, List.length_cons]
    omega

end Store.CanFree

/-- The loop expels the shortest prefix of the order of the policy that frees enough. The
induction is on the fuel, which bounds the files that can be expelled. -/
theorem safe_expellLoop {need fuel freed : ℕ} {acc : List FilePtr} (h : s.CanFree xs need freed)
    (hfuel : (xs.filter expellable).length < fuel) {Q : List FilePtr → World → Prop}
    (hQ : ∀ ys, ys = takeWeight sizeAt (need - freed)
        (sorted cfg.policy.keyAt (xs.filter expellable)) →
      Q (acc ++ ys.map Prod.fst) (l, s.expellAll ys)) :
    Prog.wp safeExec (expellLoop cfg need fuel freed acc) Q (l, s) := by
  induction fuel generalizing s xs freed acc with
  | zero => exact absurd hfuel (Nat.not_lt_zero _)
  | succ fuel ih =>
    rw [expellLoop]
    by_cases hfreed : freed < need
    · rw [if_pos hfreed, Prog.wp_bind]
      have hexp := h.exists_expellable hfreed
      refine safe_expellSingleFile h.toHolds (fun _ => hexp) ?_ fun x hx hscan => ?_
      · rintro rfl
        obtain ⟨x, hx, -⟩ := hexp
        cases hx
      · obtain ⟨l₁, l₂, hl, hf⟩ := first_of_scan hscan
        obtain ⟨hnext, hsize, hlen⟩ := h.expellOne (x := x)
          (hl ▸ List.mem_append_right _ List.mem_cons_self)
        have hheap : (s.expellOne x).heap x.1 = some x.2.writeLocked := by
          simp [Store.heap_expellOne]
        have hsize : toSize (freed + x.2.writeLocked.size) = freed + sizeAt x := hsize
        simp only [Prog.wp_bind, Prog.wp_ite, safe_malloc, safe_exit, safe_getSize, implies_true,
          true_and]
        refine fun _ => ⟨_, hheap, ?_⟩
        rw [hsize]
        refine ih hnext (by omega) fun ys hys => ?_
        have := hQ (x :: ys) ?_
        · rw [List.append_assoc]
          exact this
        · rw [hl, sorted_of_first hf, takeWeight, if_neg (by omega), hys, h.filter_expellOne hl,
            Nat.sub_sub]
    · rw [if_neg hfreed, Prog.wp_pure]
      have := hQ [] (by rw [Nat.sub_eq_zero_of_le (Nat.le_of_not_lt hfreed), takeWeight_zero])
      rwa [List.map_nil, List.append_nil] at this

/-- `expell_multiple_files` gives back the files that the loop has expelled, none if more is
to be freed than there is. -/
theorem safe_expellMultipleFiles {need : ℕ} (h : s.Holds xs)
    (hneed : need ≤ s.currState.space → need ≤ ((xs.filter expellable).map sizeAt).sum)
    (hlt : ((xs.filter expellable).map sizeAt).sum < 2 ^ 64)
    {Q : List FilePtr → World → Prop}
    (hnone : s.currState.space < need → Q [] (l, s))
    (hsome : ∀ ys, ys = takeWeight sizeAt need (sorted cfg.policy.keyAt (xs.filter expellable)) →
      need ≤ s.currState.space → Q (ys.map Prod.fst) (l, s.expellAll ys)) :
    Prog.wp safeExec (expellMultipleFiles cfg need) Q (l, s) := by
  simp only [expellMultipleFiles, Prog.wp_bind, safe_getState]
  by_cases hle : need > s.currState.space
  · rw [if_pos hle]
    exact hnone hle
  · rw [if_neg hle]
    have hle := Nat.le_of_not_lt hle
    simp only [Prog.wp_bind, safe_filesNelem, h.nelem]
    have hfree : s.CanFree xs need 0 := ⟨h, by simpa using hneed hle, by simpa using hlt⟩
    exact safe_expellLoop hfree (Nat.lt_succ_of_le (List.length_filter_le _ _))
      fun ys hys => hsome ys hys hle

end Expulsion

end StorageServer
