import StorageServer.Handling
import StorageServer.History

/-!
# The files that can be expelled

`expell_single_file` reads the path of the file that it has found without looking whether
it has found one, and waits for the lock of each file that it looks at. It finds one and returns
(`finds_of_run`) : in the loop of `expell_multiple_files`, because the files other than the one that
grows hold the bytes that are to be freed, so that the loop ends when enough has been freed and
not before; in `open_file`, because the counter is not at its limit without a file in the map. This
rests on the map having taken in every created file, and on no `read_file` having left its lock
behind (`not_finds`).
-/

open Programs Transitions Selection

namespace StorageServer

/-! ## The loop -/

/-- An address of the map whose file can be expelled. -/
def Store.Victim (s : Store) (p : FilePtr) : Prop :=
  ∃ path f, (path, p) ∈ s.files.entries ∧ s.heap p = some f ∧ f.canBeExpelled = true

/-- No other handler holds the lock of a file that can be expelled. -/
def Store.Unlocked (s : Store) : Prop :=
  ∀ p f, s.Victim p → s.heap p = some f → f.nReaders = 0 ∧ f.nWriters = 0

/-- What `expell_single_file` and `expell_multiple_files` allocate is granted. -/
structure ExpulsionGranted (malloc : Allocation → Bool) : Prop where
  iter : malloc (.safe sizeofHashIter) = true
  node : ∀ i, malloc (.listNode i) = true

/-- A call of `expell_single_file` has a file to find, and returns with such a file. -/
structure Finds (cfg : ServerConfig) (w : World) : Prop where
  exists_victim : ∃ p, w.2.Victim p
  found : Prog.twp exec (expellSingleFile cfg) (fun r _ => ∃ p, r = some p ∧ w.2.Victim p) w

/-- The loop of `expell_multiple_files`, called in the world `w`, comes to its condition in
another with `freed` bytes freed, after it has expelled these files. -/
inductive Rounds (cfg : ServerConfig) (sizeToFree : ℕ) (w : World) :
    ℕ → List FilePtr → World → Prop
  | start : Rounds cfg sizeToFree w 0 [] w
  | next {freed size : ℕ} {expelledList : List FilePtr} {expelled : FilePtr} {w₁ w₂ w₃ : World}
      (h : Rounds cfg sizeToFree w freed expelledList w₁) (hfreed : freed < sizeToFree)
      (hcall : Prog.run exec (expellSingleFile cfg) w₁ = .ok (some expelled, w₂))
      (hsize : Prog.run exec (getSize expelled) w₂ = .ok (size, w₃)) :
      Rounds cfg sizeToFree w (toSize (freed + size)) (expelledList ++ [expelled]) w₃

/-- Where a loop that returns has left : at its condition, or at its `break`. -/
theorem rounds_of_expellLoop {cfg : ServerConfig} {need fuel freed : ℕ} {w w₁ w₂ : World}
    {acc expelledList : List FilePtr} (h : Rounds cfg need w freed acc w₁)
    (hrun : Prog.run exec (expellLoop cfg need fuel freed acc) w₁ = .ok (expelledList, w₂)) :
    ∃ freed' w₃, Rounds cfg need w freed' expelledList w₃ ∧
      (need ≤ freed' ∧ w₃ = w₂ ∨
        freed' < need ∧ Prog.run exec (expellSingleFile cfg) w₃ = .ok (none, w₂)) := by
  induction fuel generalizing freed acc w₁ with
  | zero => cases hrun
  | succ fuel ih =>
    rw [expellLoop, Prog.run_ite] at hrun
    split_ifs at hrun with hfreed
    · rw [Prog.run_bind] at hrun
      obtain ⟨⟨r, w'⟩, hcall, hrun⟩ := Res.bind_eq_ok.1 hrun
      cases r with
      | none =>
        cases hrun
        exact ⟨freed, w₁, h, Or.inr ⟨hfreed, hcall⟩⟩
      | some expelled =>
        dsimp only at hrun
        have hmalloc : Prog.run exec (malloc (.listNode acc.length)) w' =
          .ok (w'.1.malloc (.listNode acc.length), w') := rfl
        rw [Prog.run_bind, hmalloc, Res.bind_ok] at hrun
        cases hnode : w'.1.malloc (.listNode acc.length) with
        | false =>
          rw [hnode] at hrun
          cases hrun
        | true =>
          rw [hnode, Bool.not_true, if_neg Bool.false_ne_true, Prog.run_bind] at hrun
          obtain ⟨⟨size, w''⟩, hsize, hrun⟩ := Res.bind_eq_ok.1 hrun
          exact ih (h.next hfreed hcall hsize) hrun
    · cases hrun
      exact ⟨freed, w₂, h, Or.inl ⟨Nat.le_of_not_lt hfreed, rfl⟩⟩

section Loop

variable {cfg : ServerConfig} {l l' : Local} {s s' : Store} {xs : List (FilePtr × File)}
  {need freed : ℕ} {w : World} {expelledList : List FilePtr}

theorem Store.Holds.victim (h : s.Holds xs) {x : FilePtr × File} (hx : x ∈ xs)
    (hexp : expellable x) : s.Victim x.1 := by
  refine ⟨x.2.pathName, x.2, ?_, h.heap x hx, hexp⟩
  rw [h.entries]
  exact List.mem_map.2 ⟨x, hx, rfl⟩

/-- A call expels one of the files that can be expelled. -/
theorem safe_expellSingleFile_of (h : s.Holds xs) (hexp : ∃ x ∈ xs, expellable x)
    {Q : Option FilePtr → World → Prop}
    (hQ : ∀ x ∈ xs.filter expellable, Q (some x.1) (l, s.expellOne x)) :
    Prog.wp safeExec (expellSingleFile cfg) Q (l, s) := by
  refine safe_expellSingleFile h (fun _ => hexp) (fun hnil => ?_) fun x hx hscan => ?_
  · obtain ⟨x, hx, -⟩ := hexp
    rw [hnil] at hx
    cases hx
  · obtain ⟨l₁, l₂, hl, -⟩ := first_of_scan hscan
    exact hQ x (hl ▸ List.mem_append_right _ List.mem_cons_self)

/-- What a call in the loop has done. -/
theorem Store.CanFree.of_expellSingleFile (h : s.CanFree xs need freed) (hfreed : freed < need)
    {p : FilePtr} {w₂ w₃ : World} {size : ℕ}
    (hcall : Prog.run exec (expellSingleFile cfg) (l, s) = .ok (some p, w₂))
    (hsize : Prog.run exec (getSize p) w₂ = .ok (size, w₃)) :
    ∃ x ∈ xs, w₃ = (l, s.expellOne x) ∧
      (s.expellOne x).CanFree (xs.filter fun y => y.1 ≠ x.1) need (toSize (freed + size)) := by
  have hexp := h.exists_expellable hfreed
  obtain ⟨x, hmem, hpx, rfl⟩ : ∃ x ∈ xs.filter expellable, some p = some x.1 ∧
      w₂ = (l, s.expellOne x) :=
    post_of_safe (Q := fun r w => ∃ x ∈ xs.filter expellable, r = some x.1 ∧ w = (l, s.expellOne x))
      (safe_expellSingleFile_of h.toHolds hexp fun x hx => ⟨x, hx, rfl, rfl⟩) hcall
  have hx : x ∈ xs := List.mem_of_mem_filter hmem
  cases hpx
  obtain ⟨rfl, rfl⟩ : size = sizeAt x ∧ w₃ = (l, s.expellOne x) := by
    refine post_of_safe (Q := fun r w => r = sizeAt x ∧ w = (l, s.expellOne x)) ?_ hsize
    refine (safe_getSize _).2 ⟨x.2.writeLocked, ?_, rfl, rfl⟩
    rw [Store.heap_expellOne, if_pos rfl]
  obtain ⟨hnext, hsum, -⟩ := h.expellOne hmem
  rw [hsum]
  exact ⟨x, hx, rfl, hnext⟩

/-- What `expell_multiple_files` does when it goes on to its loop. -/
theorem run_expellMultipleFiles (hle : need ≤ s.currState.space) :
    Prog.run exec (expellMultipleFiles cfg need) (l, s) =
      Prog.run exec (expellLoop cfg need (s.files.nelem + 1) 0 []) (l, s) := by
  have hgt : ¬need > s.currState.space := Nat.not_lt.2 hle
  have hstate : Prog.run exec getState (l, s) = .ok (s.currState, (l, s)) := rfl
  have hnelem : Prog.run exec filesNelem (l, s) = .ok (s.files.nelem, (l, s)) := rfl
  rw [expellMultipleFiles, Prog.run_bind, hstate, Res.bind_ok, if_neg hgt, Prog.run_bind, hnelem,
    Res.bind_ok]

/-! ## The loop returns -/

theorem Store.Unlocked.expellable (hu : s.Unlocked) (h : s.Holds xs) {x : FilePtr × File}
    (hx : x ∈ xs) (hexp : expellable x) : x.2.nReaders = 0 ∧ x.2.nWriters = 0 :=
  hu x.1 x.2 (h.victim hx hexp) (h.heap x hx)

/-- The files that are left are not locked either. -/
theorem Store.Unlocked.expellOne (hu : s.Unlocked) (h : s.Holds xs) {x : FilePtr × File}
    (hx : x ∈ xs) : (s.expellOne x).Unlocked := by
  rintro p f ⟨path, g, hmem, hg, hexp⟩ hf
  have hholds := h.expellOne hx
  rw [hholds.entries] at hmem
  obtain ⟨y, hy, he⟩ := List.mem_map.1 hmem
  obtain ⟨hyxs, hne⟩ := List.mem_filter.1 hy
  cases he
  cases (hholds.heap y hy).symm.trans hg
  cases (hholds.heap y hy).symm.trans hf
  exact hu.expellable h hyxs hexp

theorem ends_policyCmp {policy : Policy} {p q : FilePtr} {f g : File} (hp : s.heap p = some f)
    (hq : s.heap q = some g) :
    Prog.twp exec (policyCmp policy p q) (fun _ w => w = (l, s)) (l, s) := by
  cases policy <;> simp [policyCmp, hp, hq]

/-- A scan over unlocked files returns. The induction is on the files still to come. -/
theorem ends_expellScan {policy : Policy} {ps : List FilePtr} {least : Option FilePtr}
    (hheap : ∀ p ∈ ps, ∃ f, s.heap p = some f ∧
      (f.canBeExpelled = true → f.nReaders = 0 ∧ f.nWriters = 0))
    (hleast : ∀ m ∈ least, ∃ f, s.heap m = some f) (hnodup : (least.toList ++ ps).Nodup) :
    Prog.twp exec (expellScan policy ps least) (fun _ _ => True) (l, s) := by
  induction ps generalizing s least with
  | nil => simp [expellScan]
  | cons p ps ih =>
    obtain ⟨f, hf, hfree⟩ := hheap p List.mem_cons_self
    have hcons : (p :: ps).Nodup := hnodup.sublist (List.sublist_append_right ..)
    have hp : p ∉ ps := (List.nodup_cons.1 hcons).1
    have hrest : ∀ {s' : Store}, (∀ r ∈ ps, s'.heap r = s.heap r) → ∀ r ∈ ps, ∃ f,
        s'.heap r = some f ∧ (f.canBeExpelled = true → f.nReaders = 0 ∧ f.nWriters = 0) :=
      fun hsame r hr => by
        rw [hsame r hr]
        exact hheap r (List.mem_cons_of_mem _ hr)
    have hput : ∀ (s' : Store) (q : FilePtr) (g : File), q ∉ ps → (∀ r ∈ ps, s'.heap r = s.heap r) →
        ∀ r ∈ ps, (s'.put q g).heap r = s.heap r := fun s' q g hq hsame r hr => by
      have hne : r ≠ q := fun he => hq (he ▸ hr)
      rw [Store.heap_put_of_ne _ _ _ hne]
      exact hsame r hr
    have hskip := hnodup.sublist ((List.sublist_cons_self p ps).append_left least.toList)
    simp only [expellScan, Prog.twp_bind, ends_getCanBeExpelled, hf, Option.some.injEq,
      exists_eq_left']
    by_cases hexp : f.canBeExpelled = true
    swap
    · simp only [hexp, Bool.not_false, if_true]
      exact ih (hrest fun _ _ => rfl) hleast hskip
    obtain ⟨hreaders, hwriters⟩ := hfree hexp
    simp only [hexp, Bool.not_true, Bool.false_eq_true, if_false, Prog.twp_bind,
      ends_fileWriterLock, hf, Option.some.injEq, exists_eq_left', hreaders, hwriters, true_and]
    have hlocked := hput s p f.writeLocked hp fun _ _ => rfl
    have hself : (s.put p f.writeLocked).heap p = some f.writeLocked := Store.heap_put_self ..
    cases least with
    | none =>
      refine ih (hrest hlocked) ?_ hcons
      rintro m ⟨⟩
      exact ⟨_, hself⟩
    | some m =>
      obtain ⟨g, hg⟩ := hleast m rfl
      have hm : m ∉ p :: ps := (List.nodup_cons.1 hnodup).1
      rw [List.mem_cons, not_or] at hm
      have hm' : (s.put p f.writeLocked).heap m = some g := by
        rw [Store.heap_put_of_ne _ _ _ hm.1]
        exact hg
      simp only [Prog.twp_bind]
      refine Prog.twp_mono (ends_policyCmp hself hm') ?_
      rintro r w rfl
      refine (Prog.twp_ite _ _ _).2 ⟨fun _ => ?_, fun _ => ?_⟩
      · simp only [Prog.twp_bind, ends_fileWriterUnlock, hm', Option.some.injEq, exists_eq_left']
        refine ih (hrest (hput _ m g.writeUnlocked hm.2 hlocked)) ?_ hcons
        rintro q ⟨⟩
        exact ⟨_, (Store.heap_put_of_ne _ _ _ (Ne.symm hm.1)).trans hself⟩
      · simp only [Prog.twp_bind, ends_fileWriterUnlock, hself, Option.some.injEq, exists_eq_left']
        refine ih (hrest (hput _ p f.writeLocked.writeUnlocked hp hlocked)) ?_ hskip
        rintro q ⟨⟩
        exact ⟨_, (Store.heap_put_of_ne _ _ _ hm.1).trans hm'⟩

/-- What has been found is taken out promptly, if that is not undefined. -/
theorem ends_expellSingleFile (h : s.Holds xs) (hexp : ∃ x ∈ xs, expellable x) (hu : s.Unlocked)
    (hmalloc : ExpulsionGranted l.malloc) {Q : Option FilePtr → World → Prop}
    (hQ : Prog.wp safeExec (expellSingleFile cfg) Q (l, s)) :
    Prog.twp exec (expellSingleFile cfg) Q (l, s) := by
  have hne : s.files.nelem ≠ 0 := fun hnil => by
    rw [h.nelem, List.length_eq_zero_iff] at hnil
    obtain ⟨x, hx, -⟩ := hexp
    rw [hnil] at hx
    cases hx
  simp only [expellSingleFile, Prog.wp_bind, safe_filesNelem, if_neg hne, safe_safeMalloc,
    safe_filesIter] at hQ
  simp only [expellSingleFile, Prog.twp_bind, ends_filesNelem, if_neg hne, ends_safeMalloc,
    ends_filesIter]
  have hscan : Prog.twp exec (expellScan cfg.policy (s.files.entries.map Prod.snd) none)
      (fun _ _ => True) (l, s) := by
    rw [h.iter]
    refine ends_expellScan (fun p hp => ?_) (fun m hm => by cases hm) h.ptrs
    obtain ⟨x, hx, rfl⟩ := List.mem_map.1 hp
    exact ⟨x.2, h.heap x hx, fun he => hu.expellable h hx he⟩
  obtain ⟨r, w, hrun, hrest⟩ := ends_of_safe (hQ hmalloc.iter) hscan
  refine ⟨hmalloc.iter, r, w, hrun, ends_of_prompt ?_ hrest⟩
  cases r with
  | none => exact prompt_bind .undefined trivial fun _ => trivial
  | some p =>
    refine prompt_bind (.get p .pathName) trivial fun path => ?_
    refine prompt_bind (.hashmapRemove path) trivial fun r => ?_
    cases r with
    | none => exact prompt_bind .undefined trivial fun _ => trivial
    | some expelled =>
      refine prompt_bind .getState trivial fun st => ?_
      refine prompt_bind (.setState _) trivial fun _ => ?_
      refine prompt_bind (.get expelled .size) trivial fun size => ?_
      refine prompt_bind .getState trivial fun st => ?_
      refine prompt_bind (.setState _) trivial fun _ => ?_
      refine prompt_bind .getState trivial fun st => ?_
      exact prompt_bind (.setState _) trivial fun _ => trivial

/-- The loop returns. The induction is on the fuel. -/
theorem Store.CanFree.ends_expellLoop {fuel : ℕ} {acc : List FilePtr} (h : s.CanFree xs need freed)
    (hu : s.Unlocked) (hmalloc : ExpulsionGranted l.malloc)
    (hfuel : (xs.filter expellable).length < fuel) :
    Prog.twp exec (expellLoop cfg need fuel freed acc) (fun _ _ => True) (l, s) := by
  induction fuel generalizing s xs freed acc with
  | zero => exact absurd hfuel (Nat.not_lt_zero _)
  | succ fuel ih =>
    rw [expellLoop]
    refine (Prog.twp_ite _ _ _).2 ⟨fun hfreed => ?_, fun _ => (Prog.twp_pure _).2 trivial⟩
    have hexp := h.exists_expellable hfreed
    rw [Prog.twp_bind]
    refine ends_expellSingleFile h.toHolds hexp hu hmalloc
      (safe_expellSingleFile_of h.toHolds hexp fun x hx => ?_)
    obtain ⟨hnext, hsize, hlen⟩ := h.expellOne hx
    have hheap : (s.expellOne x).heap x.1 = some x.2.writeLocked := by
      rw [Store.heap_expellOne, if_pos rfl]
    have hsize : toSize (freed + x.2.writeLocked.size) = freed + sizeAt x := hsize
    simp only [Prog.twp_bind, ends_malloc, hmalloc.node, Bool.not_true,
      Bool.false_eq_true, if_false,
      ends_getSize]
    refine ⟨_, hheap, ?_⟩
    rw [hsize]
    exact ih hnext (hu.expellOne h.toHolds (List.mem_of_mem_filter hx)) (by omega)

theorem Store.Holds.finds (h : s.Holds xs) (hexp : ∃ x ∈ xs, expellable x) (hu : s.Unlocked)
    (hmalloc : ExpulsionGranted l.malloc) : Finds cfg (l, s) where
  exists_victim := by
    obtain ⟨x, hx, he⟩ := hexp
    exact ⟨x.1, h.victim hx he⟩
  found := by
    refine ends_expellSingleFile h hexp hu hmalloc (safe_expellSingleFile_of h hexp fun x hx => ?_)
    obtain ⟨hx, he⟩ := List.mem_filter.1 hx
    exact ⟨x.1, rfl, h.victim hx he⟩

/-- Whenever the loop comes to its condition, the files in the map hold what is still
needed, and are not locked. -/
theorem Store.CanFree.rounds (h : s.CanFree xs need 0) (hu : s.Unlocked)
    (hr : Rounds cfg need (l, s) freed expelledList w) :
    ∃ s' xs', w = (l, s') ∧ s'.CanFree xs' need freed ∧ s'.Unlocked := by
  generalize hw : (l, s) = w₀ at hr
  induction hr with
  | start => exact ⟨s, xs, hw.symm, h, hu⟩
  | next hr hfreed hcall hsize ih =>
    obtain ⟨s', xs', rfl, h', hu'⟩ := ih
    obtain ⟨x, hx, rfl, hnext⟩ := h'.of_expellSingleFile hfreed hcall hsize
    exact ⟨_, _, rfl, hnext, hu'.expellOne h'.toHolds hx⟩

/-- The loop returns when enough has been freed. -/
theorem Store.CanFree.ends (h : s.CanFree xs need 0) (hle : need ≤ s.currState.space)
    (hu : s.Unlocked) (hmalloc : ExpulsionGranted l.malloc) :
    Prog.twp exec (expellMultipleFiles cfg need) (fun expelledList w' =>
      ∃ freed, Rounds cfg need (l, s) freed expelledList w' ∧ need ≤ freed) (l, s) := by
  obtain ⟨expelledList, w', hrun, -⟩ := h.ends_expellLoop hu hmalloc
    (Nat.lt_succ_of_le (List.length_filter_le _ _))
  rw [← h.nelem] at hrun
  refine ⟨expelledList, w', (run_expellMultipleFiles hle).trans hrun, ?_⟩
  obtain ⟨freed, w₃, hr, ⟨hfreed, rfl⟩ | ⟨hfreed, hcall⟩⟩ := rounds_of_expellLoop .start hrun
  · exact ⟨freed, hr, hfreed⟩
  · obtain ⟨s', xs', rfl, h', hu'⟩ := h.rounds hu hr
    have hfinds : Finds cfg (l, s') := h'.toHolds.finds (h'.exists_expellable hfreed) hu' hmalloc
    obtain ⟨r, w'', hcall', p, rfl, -⟩ := hfinds.found
    cases hcall.symm.trans hcall'

end Loop

/-! ## The calls -/

/-- `write_file` or `append_to_file`, serving `req`, passes its checks and comes to the loop of
`expell_multiple_files`. -/
inductive EntersLoop (cfg : ServerConfig) (fdClient : ℕ) : Request → World → ℕ → World → Prop
  | writeFile {path : CString} {size : ℤ} {buf : List UInt8} {file : FilePtr} {n : ℕ}
      {sizeToRemove : ℤ} {w w₁ w₂ : World}
      (hstart : Prog.run exec (writeFileStart cfg fdClient path size buf) w =
        .ok (.ok (file, n), w₁))
      (hroom : Prog.run exec (makeRoomStart cfg file n) w₁ = .ok (sizeToRemove, w₂))
      (hpos : sizeToRemove > 0) (hle : ¬toSize sizeToRemove > w₂.2.currState.space) :
      EntersLoop cfg fdClient (.writeFile path size buf) w (toSize sizeToRemove) w₂
  | appendToFile {path : CString} {size : ℕ} {buf : List UInt8} {file : FilePtr} {n : ℕ}
      {sizeToRemove : ℤ} {w w₁ w₂ : World} (hsize : size > 0)
      (hstart : Prog.run exec (appendToFileStart cfg fdClient path size buf) w =
        .ok (.ok (file, n), w₁))
      (hroom : Prog.run exec (makeRoomStart cfg file n) w₁ = .ok (sizeToRemove, w₂))
      (hpos : sizeToRemove > 0) (hle : ¬toSize sizeToRemove > w₂.2.currState.space) :
      EntersLoop cfg fdClient (.appendToFile path size buf) w (toSize sizeToRemove) w₂

/-- `open_file`, serving `req`, is to create a file, and the number of files is at its limit. -/
inductive EntersLimit (cfg : ServerConfig) (fdClient : ℕ) : Request → World → World → Prop
  | openFile {path : CString} {flags : ℤ} {file : FilePtr} {w w₁ : World}
      (hcreate : isFlagSet flags oCreate)
      (hstart : Prog.run exec (openFileCreateStart fdClient path flags) w = .ok (.ok file, w₁))
      (hfull : w₁.2.currState.files = cfg.maxFiles) :
      EntersLimit cfg fdClient (.openFile path flags) w w₁

/-- A loop finds a file in every round, and returns when enough has been freed, and not at its
`break`. -/
structure Frees (cfg : ServerConfig) (need : ℕ) (w : World) : Prop where
  finds : ∀ freed expelledList w', Rounds cfg need w freed expelledList w' → freed < need →
    Finds cfg w'
  ends : Prog.twp exec (expellMultipleFiles cfg need) (fun expelledList w' =>
    ∃ freed, Rounds cfg need w freed expelledList w' ∧ need ≤ freed) w

/-- Nobody has locked a file. -/
def AllFree (xs : List (FilePtr × File)) : Prop :=
  ∀ x ∈ xs, x.2.nReaders = 0 ∧ x.2.nWriters = 0

section Calls

variable {cfg : ServerConfig} {fdClient : ℕ} {l : Local} {s : Store} {xs : List (FilePtr × File)}
  {req : Request} {need : ℕ} {w w' : World}

/-- The files that can be expelled are not locked. -/
theorem Store.Holds.unlocked (h : s.Holds xs)
    (hfree : ∀ x ∈ xs, expellable x → x.2.nReaders = 0 ∧ x.2.nWriters = 0) : s.Unlocked := by
  rintro p f ⟨path, g, hmem, hg, hexp⟩ hf
  rw [h.entries] at hmem
  obtain ⟨x, hx, he⟩ := List.mem_map.1 hmem
  cases he
  cases (h.heap x hx).symm.trans hg
  cases (h.heap x hx).symm.trans hf
  exact hfree x hx hexp

/-- While one file grows the others are not locked. -/
theorem Store.Holds.unlocked_growing {x : FilePtr × File} {f : File}
    (h : s.Holds (exceptFor (x.1, f) (changed x f xs))) (hfree : AllFree xs) : s.Unlocked := by
  refine h.unlocked fun y hy he => ?_
  obtain ⟨z, hz, rfl⟩ := List.mem_map.1 hy
  dsimp only [expellable] at he
  split_ifs at he with hzx
  obtain ⟨z', hz', rfl⟩ := List.mem_map.1 hz
  dsimp only at hzx ⊢
  rw [if_neg hzx, if_neg hzx]
  exact hfree z' hz'

theorem Store.CanFree.loop (h : s.CanFree xs need 0) (hle : need ≤ s.currState.space)
    (hu : s.Unlocked) (hmalloc : ExpulsionGranted l.malloc) : Frees cfg need (l, s) where
  finds freed expelledList w' hr hfreed := by
    obtain ⟨s', xs', rfl, h', hu'⟩ := h.rounds hu hr
    exact h'.toHolds.finds (h'.exists_expellable hfreed) hu' hmalloc
  ends := h.ends hle hu hmalloc

/-- Room for a file that has grown. -/
theorem Frees.of_growing (hs : s.Idle cfg xs) (hfree : AllFree xs)
    (hmalloc : ExpulsionGranted l.malloc) {x : FilePtr × File} {f : File} {n : ℕ}
    (hf : Grows cfg xs x f n) (hlt : s.currState.space + n < 2 ^ 63) {sizeToRemove : ℤ}
    (hroom : Prog.run exec (makeRoomStart cfg x.1 n) (l, s.growing x.1 f) = .ok (sizeToRemove, w))
    (hpos : sizeToRemove > 0) (hle : ¬toSize sizeToRemove > w.2.currState.space) :
    Frees cfg (toSize sizeToRemove) w := by
  obtain ⟨hholds, hmem, hexp, hspace⟩ := holds_growing hs hf
  have hstate : (s.growing x.1 f).currState = s.currState := by
    simp only [Store.growing, Store.currState_put, Store.currState_setLocked]
  refine post_of_safe (Q := fun n w => n > 0 → ¬toSize n > w.2.currState.space →
    Frees cfg (toSize n) w) ?_ hroom hpos hle
  refine safe_makeRoomStart (x := (x.1, f)) hholds hmem hexp hspace hf.size_le (by rwa [hstate])
    (fun n hn _ hpos => absurd hpos hn) fun n s' _ _ hholds' hcases _ hle => ?_
  rcases hcases with ⟨hgt, -⟩ | ⟨hle', -, hcan⟩
  · exact absurd hgt hle
  · exact hcan.loop hle' (hholds'.unlocked_growing hfree) hmalloc

theorem EntersLoop.frees (hs : s.Idle cfg xs) (hfree : AllFree xs)
    (hmalloc : ExpulsionGranted l.malloc) (hreq : req.WF) (hfit : s.fileSystem.Fits req)
    (h : EntersLoop cfg fdClient req (l, s) need w) : Frees cfg need w := by
  generalize hw : (l, s) = w₀ at h
  cases h with
  | @writeFile path size buf file n sizeToRemove _ w₁ w₂ hstart hroom hpos hle =>
    subst hw
    have hbuf : buf.length = toSize size := hreq
    have hlt : s.currState.space + buf.length < 2 ^ 63 := hs.space_lt hfit
    refine post_of_safe (Q := fun r w => ∀ file n, r = .ok (file, n) → ∀ w₂,
      Prog.run exec (makeRoomStart cfg file n) w = .ok (sizeToRemove, w₂) →
      ¬toSize sizeToRemove > w₂.2.currState.space → Frees cfg (toSize sizeToRemove) w₂)
      ?_ hstart file n rfl w hroom hle
    refine safe_writeFileStart hs (fun _ _ _ _ he => (by cases he))
      (fun _ _ _ _ he => (by cases he))
      fun x hx _ _ _ he hmax t rest _ => ?_
    rintro _ _ ⟨⟩ w₂ hroom hle
    exact .of_growing (l := { l with clock := rest }) hs hfree hmalloc
      (.written hs hx hbuf he hmax t) (hbuf ▸ hlt) hroom hpos hle
  | @appendToFile path size buf file n sizeToRemove _ w₁ w₂ hsize hstart hroom hpos hle =>
    subst hw
    have hbuf : buf.length = size := hreq
    have hlt : s.currState.space + buf.length < 2 ^ 63 := hs.space_lt hfit
    refine post_of_safe (Q := fun r w => ∀ file n, r = .ok (file, n) → ∀ w₂,
      Prog.run exec (makeRoomStart cfg file n) w = .ok (sizeToRemove, w₂) →
      ¬toSize sizeToRemove > w₂.2.currState.space → Frees cfg (toSize sizeToRemove) w₂)
      ?_ hstart file n rfl w hroom hle
    refine safe_appendToFileStart hs (Nat.ne_of_gt hsize) hbuf (hbuf ▸ hlt)
      (fun _ _ _ _ he => (by cases he)) fun x hx _ _ _ hmax t rest _ => ?_
    rintro _ _ ⟨⟩ w₂ hroom hle
    subst hbuf
    exact .of_growing (l := { l with clock := rest }) hs hfree hmalloc (.appended hs hx hmax t) hlt
      hroom hpos hle

theorem EntersLimit.finds (hs : s.Idle cfg xs) (hfree : AllFree xs)
    (hmalloc : ExpulsionGranted l.malloc) (hne : s.currState.files = cfg.maxFiles → xs ≠ [])
    (h : EntersLimit cfg fdClient req (l, s) w) : Finds cfg w := by
  generalize hw : (l, s) = w₀ at h
  cases h with
  | @openFile path flags file _ w₁ hcreate hstart hfull =>
    subst hw
    refine post_of_safe (Q := fun r w => ∀ file, r = .ok file →
      w.2.currState.files = cfg.maxFiles → Finds cfg w) ?_ hstart file rfl hfull
    refine safe_openFileCreateStart hs (fun _ _ he => (by cases he)) fun _ t₁ t₂ rest _ => ?_
    intro _ _ hfull
    have hholds := ((hs.toHolds.setLocked true .files).alloc
      (File.new l.malloc path flags fdClient t₁ t₂).unborn).setLocked true .currState
    rw [Store.currState_setLocked, Store.currState_alloc, Store.currState_setLocked] at hfull
    obtain ⟨x, hx⟩ := List.exists_mem_of_ne_nil xs (hne hfull)
    exact hholds.finds ⟨x, hx, hs.expellable hx⟩ (hholds.unlocked fun y hy _ => hfree y hy) hmalloc

/-- The condition on a step : the map takes in the file that is created, and a file that is read can
be sent. -/
def FileSystem.KeepsVictims (cfg : ServerConfig) (fs : FileSystem) (e : Event) : Prop :=
  fs.Takes cfg e ∧ fs.KeepsReaders e

instance (cfg : ServerConfig) (fs : FileSystem) (e : Event) : Decidable (fs.KeepsVictims cfg e) :=
  inferInstanceAs (Decidable (_ ∧ _))

/-- In every run in which the map takes in every created file and every file that is read can be
sent, a request that comes to expel files, and is granted the memory for it, finds files to expel,
frees enough, and leaves only files that can be expelled. -/
theorem finds_of_run {tr : List Event} {h : Handler} (hmax : 1 ≤ cfg.maxFiles)
    (hrun : Run ((serverSystem cfg).restrict fun σ e => σ.store.fileSystem.KeepsVictims cfg e) tr
      ⟨s, none⟩)
    (hread : Prog.run exec (readRequest h) (l, s) = .ok (.ok req, w))
    (hfit : s.fileSystem.Fits req) (hmalloc : ExpulsionGranted l.malloc) :
    (∀ need w', EntersLoop cfg fdClient req w need w' → Frees cfg need w') ∧
      (∀ w', EntersLimit cfg fdClient req w w' → Finds cfg w') ∧
      ∀ r w', Prog.run exec (storeSection cfg fdClient req) w = .ok (.ok r, w') →
        ∀ e ∈ w'.2.files.entries, w'.2.Victim e.2 := by
  obtain ⟨l₁, s₁⟩ := w
  obtain ⟨rfl, ⟨inp, rfl⟩, -, hwf⟩ := of_readRequest hread
  have hreq := hwf req rfl
  obtain ⟨φ, c, hr, hcounted⟩ := exists_counted hmax (hrun.restrict_mono fun _ _ h => h.1)
  obtain ⟨xs, hs, -⟩ := hr.idle
  have hallFree : AllFree xs := fun x hx => by
    have hfree := free_of_run (hrun.restrict_mono fun _ _ h => h.2)
    rw [hs.fileSystem_eq] at hfree
    exact Prod.mk.inj (hfree x.2 (List.mem_map_of_mem hx))
  refine ⟨fun need w' he => he.frees (l := { l with inp := inp }) hs hallFree hmalloc hreq hfit,
    fun w' he => he.finds (l := { l with inp := inp }) hs hallFree hmalloc fun hfull hnil => ?_,
    fun r w' hserve e hmem => ?_⟩
  · rw [← hr.fs] at hcounted
    refine hcounted.ne_nil hmax hfull ?_
    rw [hs.fileSystem_eq, hnil]
    rfl
  · obtain ⟨l', s'⟩ := w'
    obtain ⟨xs', readings, out, hserved⟩ := of_storeSection hs hreq hfit hserve
    rw [hserved.idle.entries] at hmem
    obtain ⟨x, hx, rfl⟩ := List.mem_map.1 hmem
    exact hserved.idle.toHolds.victim hx (hserved.idle.expellable hx)

/-- Where `write_file` comes to the loop, if it does. -/
def writeFileLoop (cfg : ServerConfig) (fdClient : ℕ) (path : CString) (size : ℤ) (buf : List UInt8)
    (w : World) : Option (ℕ × World) :=
  match Prog.run exec (writeFileStart cfg fdClient path size buf) w with
  | .ok (.ok (file, n), w₁) =>
    match Prog.run exec (makeRoomStart cfg file n) w₁ with
    | .ok (sizeToRemove, w₂) =>
      if sizeToRemove > 0 ∧ ¬toSize sizeToRemove > w₂.2.currState.space then
        some (toSize sizeToRemove, w₂)
      else none
    | _ => none
  | _ => none

theorem EntersLoop.of_writeFileLoop {path : CString} {size : ℤ} {buf : List UInt8}
    (h : writeFileLoop cfg fdClient path size buf w = some (need, w')) :
    EntersLoop cfg fdClient (.writeFile path size buf) w need w' := by
  unfold writeFileLoop at h
  split at h
  · rename_i file n w₁ hstart
    split at h
    · rename_i sizeToRemove w₂ hroom
      split_ifs at h with hcond
      cases h
      exact .writeFile hstart hroom hcond.1 hcond.2
    · cases h
  · cases h

/-- Where `open_file` comes to the limit, if it does. -/
def openFileLimit (cfg : ServerConfig) (fdClient : ℕ) (path : CString) (flags : ℤ) (w : World) :
    Option World :=
  match Prog.run exec (openFileCreateStart fdClient path flags) w with
  | .ok (.ok _, w₁) =>
    if isFlagSet flags oCreate = true ∧ w₁.2.currState.files = cfg.maxFiles then some w₁ else none
  | _ => none

theorem EntersLimit.of_openFileLimit {path : CString} {flags : ℤ}
    (h : openFileLimit cfg fdClient path flags w = some w') :
    EntersLimit cfg fdClient (.openFile path flags) w w' := by
  unfold openFileLimit at h
  split at h
  · rename_i file w₁ hstart
    split_ifs at h with hcond
    cases h
    exact .openFile hcond.1 hstart hcond.2
  · cases h

/-- A file of two bytes and an empty file are stored where there may be two files and three bytes. A
write to the second comes to the loop, and a creation to the limit. -/
theorem finds_of_run_expulsion : ∃ s w' w'',
    EntersLoop .small 7 (.writeFile [99] 2 [5, 6]) ((Local.at 5).left [], s) 1 w' ∧
      Frees .small 1 w' ∧
      EntersLimit .small 7 (.openFile [100] oCreate) ((Local.at 5).left [], s) w'' ∧
      Finds .small w'' := by
  obtain ⟨tr, ⟨s, replying⟩, hrun, hnone, hloop, hlimit, hfit⟩ := ((computes_next .small).checked
      fun σ e => σ.store.fileSystem.KeepsVictims .small e).exists_run ⟨.initial, none⟩ rfl
    (expulsions.take 10)
    (fun _ σ => σ.replying.isNone = true ∧
      ((writeFileLoop .small 7 [99] 2 [5, 6] ((Local.at 5).left [], σ.store)).any
        fun r => r.1 = 1) = true ∧
      (openFileLimit .small 7 [100] oCreate ((Local.at 5).left [], σ.store)).isSome = true ∧
      σ.store.fileSystem.Fits (.writeFile [99] 2 [5, 6]) ∧
        σ.store.fileSystem.Fits (.openFile [100] oCreate))
    (by decide +kernel)
  obtain rfl : replying = none := Option.isNone_iff_eq_none.1 hnone
  obtain ⟨⟨need, w'⟩, hloop, hneed⟩ := (Option.any_eq_true _ _).1 hloop
  obtain rfl : need = 1 := of_decide_eq_true hneed
  obtain ⟨w'', hlimit⟩ := Option.isSome_iff_exists.1 hlimit
  have hread := readRequest_left (.writeFile [99] (some [5, 6]) fun _ => 0)
    ⟨⟨by decide, by decide⟩, by decide, by decide⟩ (.at 5) (fun _ => rfl) s
  have hread' := readRequest_left (.openFile [100] oCreate)
    ⟨⟨by decide, by decide⟩, by decide, by decide⟩ (.at 5) (fun _ => rfl) s
  have henters := EntersLoop.of_writeFileLoop hloop
  have henters' := EntersLimit.of_openFileLimit hlimit
  have hfrees : Frees .small 1 w' :=
    (finds_of_run (by decide) hrun hread hfit.1 ⟨rfl, fun _ => rfl⟩).1 1 w' henters
  have hfinds : Finds .small w'' :=
    (finds_of_run (by decide) hrun hread' hfit.2 ⟨rfl, fun _ => rfl⟩).2.1 w'' henters'
  exact ⟨s, w', w'', henters, hfrees, henters', hfinds⟩

/-- The loop waits for ever for a file that a `read_file` has left locked; and at the limit there is
no file to find after a created file has been lost. -/
theorem not_finds :
    (¬∀ (cfg : ServerConfig) (tr : List Event) (s : Store) (l : Local) (h : Handler) (req : Request)
      (w : World) (fdClient need : ℕ) (w' : World), 1 ≤ cfg.maxFiles →
      Run (serverSystem cfg) tr ⟨s, none⟩ → Prog.run exec (readRequest h)
      (l, s) = .ok (.ok req, w) →
      s.fileSystem.Fits req → ExpulsionGranted l.malloc → EntersLoop cfg fdClient req w need w' →
      Frees cfg need w') ∧
    ¬∀ (cfg : ServerConfig) (tr : List Event) (s : Store) (l : Local) (h : Handler) (req : Request)
      (w : World) (fdClient : ℕ) (w' : World), 1 ≤ cfg.maxFiles →
      Run (serverSystem cfg) tr ⟨s, none⟩ → Prog.run exec (readRequest h)
      (l, s) = .ok (.ok req, w) →
      s.fileSystem.Fits req → ExpulsionGranted l.malloc → EntersLimit cfg fdClient req w w' →
      Finds cfg w' := by
  refine ⟨fun hall => ?_, fun hall => ?_⟩
  · obtain ⟨tr, ⟨s, replying⟩, hrun, hnone, hloop, hfit⟩ := (computes_next .small).exists_run
      ⟨.initial, none⟩ rfl
      (expulsions.take 4 ++
        Api.Call.actions (.readFile [97]) 7 { Local.at 2 with sends := [.failed 0] } ++
        Api.Call.actions (.openFile [98] (oCreate + oLock)) 7 (.at 3))
      (fun _ σ => σ.replying.isNone = true ∧
        ((writeFileLoop .small 7 [98] 2 [3, 4] ((Local.at 4).left [], σ.store)).any fun r =>
          (Prog.run exec (expellMultipleFiles .small r.1) r.2).isBlocked) = true ∧
        σ.store.fileSystem.Fits (.writeFile [98] 2 [3, 4])) (by decide +kernel)
    obtain rfl : replying = none := Option.isNone_iff_eq_none.1 hnone
    obtain ⟨⟨need, w'⟩, hloop, hblocked⟩ := (Option.any_eq_true _ _).1 hloop
    have hread := readRequest_left (.writeFile [98] (some [3, 4]) fun _ => 0)
      ⟨⟨by decide, by decide⟩, by decide, by decide⟩ (.at 4) (fun _ => rfl) s
    have hfrees := hall .small tr s _ _ _ _ 7 need w' (by decide) hrun hread hfit
      ⟨rfl, fun _ => rfl⟩ (.of_writeFileLoop hloop)
    obtain ⟨expelledList, w'', hends, -⟩ := hfrees.ends
    rw [Res.eq_blocked_of_isBlocked hblocked] at hends
    cases hends
  · let cfg : ServerConfig := ⟨0, 1, .LRU, by decide, by decide⟩
    obtain ⟨tr, ⟨s, replying⟩, hrun, hnone, hlimit, hfit⟩ := (computes_next cfg).exists_run
      ⟨.initial, none⟩ rfl (creationWithout .hashmapNode)
      (fun _ σ => σ.replying.isNone = true ∧
        ((openFileLimit cfg 7 [98] oCreate ((Local.at 1).left [], σ.store)).any fun w =>
          w.2.files.entries.length = 0) = true ∧
        σ.store.fileSystem.Fits (.openFile [98] oCreate)) (by decide +kernel)
    obtain rfl : replying = none := Option.isNone_iff_eq_none.1 hnone
    obtain ⟨w', hlimit, hnil⟩ := (Option.any_eq_true _ _).1 hlimit
    have hread := readRequest_left (.openFile [98] oCreate)
      ⟨⟨by decide, by decide⟩, by decide, by decide⟩ (.at 1) (fun _ => rfl) s
    have hfinds := hall cfg tr s _ _ _ _ 7 w' (by decide) hrun hread hfit ⟨rfl, fun _ => rfl⟩
      (.of_openFileLimit hlimit)
    obtain ⟨p, path, f, hmem, -⟩ := hfinds.exists_victim
    rw [List.length_eq_zero_iff.1 (of_decide_eq_true hnil)] at hmem
    cases hmem

end Calls

end StorageServer
