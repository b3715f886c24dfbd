import StorageServer.Lib.Threads
import StorageServer.Lib.Transition
import StorageServer.Util

/-!
# The locks of a file

The threads that lock and unlock one file, step by step : each step locks or unlocks a mutex, tests
the condition of a loop, starts to wait or changes a counter. The counters are only changed with
`file_mtx` held, and `n_readers--` with the test behind it, or `n_writers--`, is one step with the
signal.

The counters are those of the threads that hold the lock, and a thread that waits without a signal
waits for one of them (`locks_of_run`). This is so for less than `2 ^ 32` threads, as the counters
are of type `unsigned int` (`not_locks_of_run`).
-/

open Function Transitions Threads

namespace StorageServer

/-- What a file is locked for. -/
inductive LockKind
  | reader
  | writer
  deriving DecidableEq, Repr

/-- Where a thread is. -/
inductive LockPc
  | idle
  /-- To lock `order_mtx`. -/
  | order (kind : LockKind)
  /-- To lock `file_mtx`. -/
  | file (kind : LockKind)
  /-- At the condition of the loop. -/
  | test (kind : LockKind)
  /-- At `cond_wait`. -/
  | wait (kind : LockKind)
  /-- Waits on `access_cond` without a signal. -/
  | asleep (kind : LockKind)
  /-- Has been woken, and is to lock `file_mtx` again. -/
  | woken (kind : LockKind)
  /-- Behind the loop. -/
  | enter (kind : LockKind)
  /-- To unlock `order_mtx`. -/
  | entered (kind : LockKind)
  /-- To unlock `file_mtx`. -/
  | leave (kind : LockKind)
  | holds (kind : LockKind)
  /-- To lock `file_mtx`, so as to give the lock up. -/
  | back (kind : LockKind)
  /-- To change the counter. -/
  | drop (kind : LockKind)
  /-- To unlock `file_mtx` for the last time. -/
  | dropped
  deriving DecidableEq, Repr

namespace LockPc

/-- Whether the thread has locked `order_mtx`. -/
def ownsOrder : LockPc → Bool
  | .file _ | .test _ | .wait _ | .asleep _ | .woken _ | .enter _ | .entered _ => true
  | _ => false

/-- Whether the thread has locked `file_mtx`. -/
def ownsFile : LockPc → Bool
  | .test _ | .wait _ | .enter _ | .entered _ | .leave _ | .drop _ | .dropped => true
  | _ => false

/-- Whether the thread holds the lock of the file. -/
def has (kind : LockKind) : LockPc → Bool
  | .entered k | .leave k | .holds k | .back k | .drop k => k = kind
  | _ => false

/-- Whether the thread is in `cond_wait`. -/
def waits : LockPc → Bool
  | .asleep _ | .woken _ => true
  | _ => false

end LockPc

/-- The mutexes and counters of a file, with the threads. -/
structure FileLock (T : Type) where
  orderMtx : Option T
  fileMtx : Option T
  nReaders : ℕ
  nWriters : ℕ
  pc : T → LockPc

namespace FileLock

variable {T : Type} [DecidableEq T]

/-- The counter of the threads that hold the lock. -/
def counter (l : FileLock T) : LockKind → ℕ
  | .reader => l.nReaders
  | .writer => l.nWriters

/-- The condition of the loop. -/
def busy (l : FileLock T) : LockKind → Bool
  | .reader => 0 < l.nWriters
  | .writer => 0 < l.nWriters ∨ 0 < l.nReaders

/-- Whether the thread that has changed the counter signals `access_cond`. -/
def signals (l : FileLock T) : LockKind → Bool
  | .reader => l.nReaders = 0
  | .writer => true

/-- Change one counter. -/
def add (l : FileLock T) (x : ℤ) : LockKind → FileLock T
  | .reader => { l with nReaders := toUInt (l.nReaders + x) }
  | .writer => { l with nWriters := toUInt (l.nWriters + x) }

/-- A thread goes on. -/
def goto (l : FileLock T) (t : T) (c : LockPc) : FileLock T :=
  { l with pc := update l.pc t c }

/-- The steps of a thread. -/
inductive Step : FileLock T → T → FileLock T → Prop
  /-- `file_reader_lock` or `file_writer_lock` is called. -/
  | call {l t} (kind) (h : l.pc t = .idle) : Step l t (l.goto t (.order kind))
  | lockOrder {l t kind} (h : l.pc t = .order kind) (hmtx : l.orderMtx = none) :
      Step l t { l.goto t (.file kind) with orderMtx := some t }
  | lockFile {l t kind} (h : l.pc t = .file kind) (hmtx : l.fileMtx = none) :
      Step l t { l.goto t (.test kind) with fileMtx := some t }
  | busy {l t kind} (h : l.pc t = .test kind) (hbusy : l.busy kind = true) :
      Step l t (l.goto t (.wait kind))
  | free {l t kind} (h : l.pc t = .test kind) (hbusy : l.busy kind = false) :
      Step l t (l.goto t (.enter kind))
  | sleep {l t kind} (h : l.pc t = .wait kind) :
      Step l t { l.goto t (.asleep kind) with fileMtx := none }
  /-- `cond_wait` may end without a signal. -/
  | wake {l t kind} (h : l.pc t = .asleep kind) : Step l t (l.goto t (.woken kind))
  | relock {l t kind} (h : l.pc t = .woken kind) (hmtx : l.fileMtx = none) :
      Step l t { l.goto t (.test kind) with fileMtx := some t }
  | enter {l t kind} (h : l.pc t = .enter kind) : Step l t ((l.goto t (.entered kind)).add 1 kind)
  | unlockOrder {l t kind} (h : l.pc t = .entered kind) :
      Step l t { l.goto t (.leave kind) with orderMtx := none }
  | unlockFile {l t kind} (h : l.pc t = .leave kind) :
      Step l t { l.goto t (.holds kind) with fileMtx := none }
  /-- `file_reader_unlock` or `file_writer_unlock` is called. -/
  | back {l t kind} (h : l.pc t = .holds kind) : Step l t (l.goto t (.back kind))
  | lockBack {l t kind} (h : l.pc t = .back kind) (hmtx : l.fileMtx = none) :
      Step l t { l.goto t (.drop kind) with fileMtx := some t }
  /-- Without a signal, or with one that no thread waits for. -/
  | drop {l t kind} (h : l.pc t = .drop kind)
      (hquiet : (l.add (-1) kind).signals kind = true → ∀ u k, l.pc u ≠ .asleep k) :
      Step l t ((l.goto t .dropped).add (-1) kind)
  /-- With a signal, that wakes the thread `u`. -/
  | signal {l t u kind k} (h : l.pc t = .drop kind)
      (hsignals : (l.add (-1) kind).signals kind = true)
      (hu : l.pc u = .asleep k) : Step l t (((l.goto t .dropped).goto u (.woken k)).add (-1) kind)
  | done {l t} (h : l.pc t = .dropped) : Step l t { l.goto t .idle with fileMtx := none }

/-- The threads that use the lock, all of them idle at first. -/
def system (T : Type) [DecidableEq T] : System (FileLock T) T where
  init l := l.orderMtx = none ∧ l.fileMtx = none ∧ l.nReaders = 0 ∧ l.nWriters = 0 ∧
    ∀ t, l.pc t = .idle
  step := Step

/-! ## The invariant -/

section Invariant

variable [Fintype T]

/-- What holds between the counters, the mutexes and the threads, but for those that are asleep. -/
structure Base (l : FileLock T) : Prop where
  order : Owned LockPc.ownsOrder l.pc l.orderMtx
  file : Owned LockPc.ownsFile l.pc l.fileMtx
  counters : ∀ kind, l.counter kind = count (LockPc.has kind) l.pc
  exclusive : 0 < l.nWriters → l.nWriters = 1 ∧ l.nReaders = 0
  entering : ∀ t kind, l.pc t = .enter kind → l.busy kind = false
  waiting : ∀ t kind, l.pc t = .wait kind → l.busy kind = true

/-- The invariant. -/
structure Inv (l : FileLock T) : Prop extends Base l where
  sleeping : ∀ t kind, l.pc t = .asleep kind → l.busy kind = true

variable {l l' : FileLock T} {t u : T} {c : LockPc} {kind k : LockKind}

omit [Fintype T] in
theorem goto_pc_self (l : FileLock T) (t : T) (c : LockPc) : (l.goto t c).pc t = c :=
  update_self _ _ _

omit [Fintype T] in
theorem goto_pc_of_ne (l : FileLock T) (c : LockPc) (h : u ≠ t) : (l.goto t c).pc u = l.pc u :=
  update_of_ne h _ _

/-- A step that leaves the counters as they are. -/
theorem Base.move (h : Base l) {o f : Option T}
    (horder : Owned LockPc.ownsOrder (update l.pc t c) o)
    (hfile : Owned LockPc.ownsFile (update l.pc t c) f) (hhas : ∀ k, c.has k = (l.pc t).has k)
    (henter : ∀ k, c = .enter k → l.busy k = false) (hwait : ∀ k, c = .wait k → l.busy k = true) :
    Base { l.goto t c with orderMtx := o, fileMtx := f } where
  order := horder
  file := hfile
  counters k := (h.counters k).trans (count_keep (hhas k)).symm
  exclusive := h.exclusive
  entering u k hu := by
    change (l.goto t c).pc u = _ at hu
    by_cases hut : u = t
    · rw [hut, goto_pc_self] at hu
      exact henter k hu
    · rw [goto_pc_of_ne l c hut] at hu
      exact h.entering u k hu
  waiting u k hu := by
    change (l.goto t c).pc u = _ at hu
    by_cases hut : u = t
    · rw [hut, goto_pc_self] at hu
      exact hwait k hu
    · rw [goto_pc_of_ne l c hut] at hu
      exact h.waiting u k hu

theorem Inv.move (h : Inv l) {o f : Option T} (horder : Owned LockPc.ownsOrder (update l.pc t c) o)
    (hfile : Owned LockPc.ownsFile (update l.pc t c) f) (hhas : ∀ k, c.has k = (l.pc t).has k)
    (henter : ∀ k, c = .enter k → l.busy k = false)
    (hwait : ∀ k, c = .wait k ∨ c = .asleep k → l.busy k = true) :
    Inv { l.goto t c with orderMtx := o, fileMtx := f } where
  toBase := h.toBase.move horder hfile hhas henter fun k hk => hwait k (.inl hk)
  sleeping u k hu := by
    change (l.goto t c).pc u = _ at hu
    by_cases hut : u = t
    · rw [hut, goto_pc_self] at hu
      exact hwait k (.inr hu)
    · rw [goto_pc_of_ne l c hut] at hu
      exact h.sleeping u k hu

omit [DecidableEq T] [Fintype T] in
theorem busy_mono (h : ∀ k, l.counter k ≤ l'.counter k) (hbusy : l.busy kind = true) :
    l'.busy kind = true := by
  have hreaders : l.nReaders ≤ l'.nReaders := h .reader
  have hwriters : l.nWriters ≤ l'.nWriters := h .writer
  cases kind <;> simp only [busy, decide_eq_true_eq] at hbusy ⊢ <;> omega

omit [DecidableEq T] [Fintype T] in
theorem counter_add_self (l : FileLock T) (x : ℤ) (kind : LockKind) :
    (l.add x kind).counter kind = toUInt (l.counter kind + x) := by
  cases kind <;> rfl

omit [DecidableEq T] [Fintype T] in
theorem counter_add_of_ne (l : FileLock T) (x : ℤ) (h : k ≠ kind) :
    (l.add x kind).counter k = l.counter k := by
  cases kind <;> cases k <;> first | rfl | exact absurd rfl h

/-- A counter changes with the threads that hold the lock, and does not wrap around. -/
theorem Base.counters_add (h : Base l) {x : ℤ} {n : ℕ} (hn : (l.counter kind : ℤ) + x = n)
    (hfit : n < 2 ^ 32)
    (hcount : count (LockPc.has kind) (update l.pc t c) = n)
    (hhas : ∀ k ≠ kind, c.has k = (l.pc t).has k) (k : LockKind) :
    ((l.goto t c).add x kind).counter k = count (LockPc.has k) (update l.pc t c) := by
  by_cases hk : k = kind
  · rw [hk, counter_add_self, hcount]
    change toUInt ((l.counter kind : ℤ) + x) = n
    rw [hn, toUInt_of_range hfit]
  · rw [counter_add_of_ne _ x hk, count_keep (hhas k hk)]
    exact h.counters k

omit [DecidableEq T] [Fintype T] in
theorem add_pc (l : FileLock T) (x : ℤ) (kind : LockKind) : (l.add x kind).pc = l.pc := by
  cases kind <;> rfl

omit [DecidableEq T] [Fintype T] in
theorem add_orderMtx (l : FileLock T) (x : ℤ) (kind : LockKind) :
    (l.add x kind).orderMtx = l.orderMtx := by
  cases kind <;> rfl

omit [DecidableEq T] [Fintype T] in
theorem add_fileMtx (l : FileLock T) (x : ℤ) (kind : LockKind) :
    (l.add x kind).fileMtx = l.fileMtx := by
  cases kind <;> rfl

omit [DecidableEq T] in
/-- While a thread has `file_mtx`, no other thread is behind the test of its loop. -/
theorem Base.only (h : Base l) (ht : (l.pc t).ownsFile = true) (hut : u ≠ t) :
    l.pc u ≠ .enter k ∧ l.pc u ≠ .wait k := by
  refine ⟨fun hu => ?_, fun hu => ?_⟩ <;>
  exact hut (h.file.unique (by rw [hu]; rfl) ht)

/-- A step with `file_mtx` that changes a counter. -/
theorem Base.count_move (h : Base l) {x : ℤ} {n : ℕ} (hn : (l.counter kind : ℤ) + x = n)
    (hfit : n < 2 ^ 32)
    (hcount : count (LockPc.has kind) (update l.pc t c) = n)
    (hhas : ∀ k ≠ kind, c.has k = (l.pc t).has k) (ht : (l.pc t).ownsFile = true)
    (hfile : c.ownsFile = true) (horder : c.ownsOrder = (l.pc t).ownsOrder)
    (hc : ∀ k, c ≠ .enter k ∧ c ≠ .wait k)
    (hexclusive : 0 < ((l.goto t c).add x kind).nWriters →
      ((l.goto t c).add x kind).nWriters = 1 ∧ ((l.goto t c).add x kind).nReaders = 0) :
    Base ((l.goto t c).add x kind) where
  order := by
    rw [add_pc, add_orderMtx]
    exact h.order.keep horder
  file := by
    rw [add_pc, add_fileMtx]
    exact h.file.keep (hfile.trans ht.symm)
  counters := by
    rw [add_pc]
    exact h.counters_add hn hfit hcount hhas
  exclusive := hexclusive
  entering u k hu := by
    rw [add_pc] at hu
    by_cases hut : u = t
    · rw [hut, goto_pc_self] at hu
      exact absurd hu (hc k).1
    · rw [goto_pc_of_ne l c hut] at hu
      exact absurd hu (h.only ht hut).1
  waiting u k hu := by
    rw [add_pc] at hu
    by_cases hut : u = t
    · rw [hut, goto_pc_self] at hu
      exact absurd hu (hc k).2
    · rw [goto_pc_of_ne l c hut] at hu
      exact absurd hu (h.only ht hut).2

/-- A thread gets the lock. -/
theorem Inv.enter (h : Inv l) (hcard : Fintype.card T < 2 ^ 32) (ht : l.pc t = .enter kind) :
    Inv ((l.goto t (.entered kind)).add 1 kind) := by
  have hfree := h.entering t kind ht
  have hcount : count (LockPc.has kind) (update l.pc t (.entered kind)) = l.counter kind + 1 := by
    rw [h.counters kind]
    exact count_gain (by rw [ht]; rfl) (decide_eq_true rfl)
  have hfit : l.counter kind + 1 < 2 ^ 32 := by
    rw [← hcount]
    exact Nat.lt_of_le_of_lt (count_le_card _ _) hcard
  have hhas : ∀ k ≠ kind, (LockPc.entered kind).has k = (l.pc t).has k := by
    intro k hk
    rw [ht]
    exact decide_eq_false fun h => hk h.symm
  have hadd : toUInt ((l.counter kind : ℤ) + 1) = l.counter kind + 1 := toUInt_of_range hfit
  have hbase : Base ((l.goto t (.entered kind)).add 1 kind) := by
    refine h.count_move rfl hfit hcount hhas (by rw [ht]; rfl) rfl (by rw [ht]; rfl)
      (fun k => ⟨nofun, nofun⟩) ?_
    cases kind with
    | reader =>
      have hwriters : l.nWriters = 0 := by
        simpa [busy] using hfree
      intro hpos
      change 0 < l.nWriters at hpos
      omega
    | writer =>
      have hzero : l.nWriters = 0 ∧ l.nReaders = 0 := by
        simpa [busy] using hfree
      intro _
      refine ⟨?_, hzero.2⟩
      change toUInt (l.nWriters + 1) = 1
      rw [hzero.1]
      exact toUInt_of_range (by decide)
  refine ⟨hbase, fun u k hu => ?_⟩
  rw [add_pc] at hu
  have hut : u ≠ t := by
    rintro rfl
    rw [goto_pc_self] at hu
    cases hu
  rw [goto_pc_of_ne l _ hut] at hu
  refine busy_mono (fun k' => ?_) (h.sleeping u k hu)
  by_cases hk : k' = kind
  · rw [hk, counter_add_self]
    change l.counter kind ≤ toUInt ((l.counter kind : ℤ) + 1)
    omega
  · rw [counter_add_of_ne _ _ hk]
    exact Nat.le_refl _

omit [DecidableEq T] in
/-- A thread that gives the lock up has been counted. -/
theorem Base.counter_pos (h : Base l) (ht : (l.pc t).has kind = true) : 0 < l.counter kind := by
  rw [h.counters]
  exact count_pos_iff.2 ⟨t, ht⟩

/-- A thread gives the lock up. -/
theorem Base.drop (h : Base l) (hcard : Fintype.card T < 2 ^ 32) (ht : l.pc t = .drop kind) :
    Base ((l.goto t .dropped).add (-1) kind) := by
  have hlose : count (LockPc.has kind) (update l.pc t .dropped) + 1 = l.counter kind := by
    rw [h.counters kind]
    exact count_lose (by rw [ht]; exact decide_eq_true rfl) rfl
  have hhas : ∀ k ≠ kind, LockPc.dropped.has k = (l.pc t).has k := by
    intro k hk
    rw [ht]
    exact (decide_eq_false fun h => hk h.symm).symm
  have hn : (l.counter kind : ℤ) + -1 = count (LockPc.has kind) (update l.pc t .dropped) := by
    omega
  have hfit : count (LockPc.has kind) (update l.pc t .dropped) < 2 ^ 32 :=
    Nat.lt_of_le_of_lt (count_le_card _ _) hcard
  refine h.count_move hn hfit rfl hhas (by rw [ht]; rfl) rfl (by rw [ht]; rfl)
    (fun k => ⟨nofun, nofun⟩) ?_
  have hpos : 0 < l.counter kind := by omega
  cases kind with
  | reader =>
    intro hwriters
    have hzero : l.nReaders = 0 := (h.exclusive hwriters).2
    change 0 < l.nReaders at hpos
    omega
  | writer =>
    have hone : l.nWriters = 1 := (h.exclusive hpos).1
    intro hwriters
    change 0 < toUInt (l.nWriters + -1) at hwriters
    rw [hone] at hwriters
    exact absurd hwriters
      (by rw [show ((1 : ℕ) : ℤ) + -1 = (0 : ℕ) from rfl, toUInt_of_range] <;> decide)

/-- If no thread is to be woken, those that sleep wait for another thread that holds the lock. -/
theorem Inv.drop (h : Inv l) (hcard : Fintype.card T < 2 ^ 32) (ht : l.pc t = .drop kind)
    (hquiet : (l.add (-1) kind).signals kind = true → ∀ u k, l.pc u ≠ .asleep k) :
    Inv ((l.goto t .dropped).add (-1) kind) where
  toBase := h.toBase.drop hcard ht
  sleeping u k hu := by
    rw [add_pc] at hu
    have hut : u ≠ t := by
      rintro rfl
      rw [goto_pc_self] at hu
      cases hu
    rw [goto_pc_of_ne l _ hut] at hu
    cases kind with
    | writer => exact absurd hu (hquiet rfl u k)
    | reader =>
      have hreaders : toUInt (l.nReaders + -1) ≠ 0 :=
        fun hzero => hquiet (decide_eq_true hzero) u k hu
      have hpos : 0 < l.counter .reader := h.counter_pos (t := t) (by rw [ht]; rfl)
      cases k with
      | reader =>
        -- a reader only waits for a writer, and there is none
        have hbusy := h.sleeping u .reader hu
        have hwriters : 0 < l.nWriters := of_decide_eq_true hbusy
        have hzero : l.counter .reader = 0 := (h.exclusive hwriters).2
        omega
      | writer => exact decide_eq_true (.inr (Nat.pos_of_ne_zero hreaders))

/-- The thread that is woken is the only one that sleeps. -/
theorem Inv.signal (h : Inv l) (hcard : Fintype.card T < 2 ^ 32) (ht : l.pc t = .drop kind)
    (hu : l.pc u = .asleep k) : Inv (((l.goto t .dropped).goto u (.woken k)).add (-1) kind) := by
  have hbase := h.toBase.drop hcard ht
  have hut : u ≠ t := by
    rintro rfl
    cases hu.symm.trans ht
  have hpc : ((l.goto t .dropped).add (-1) kind).pc u = .asleep k := by
    rw [add_pc, goto_pc_of_ne l _ hut, hu]
  have heq : ((l.goto t .dropped).goto u (.woken k)).add (-1) kind =
      ((l.goto t .dropped).add (-1) kind).goto u (.woken k) := by
    cases kind <;> rfl
  rw [heq]
  refine ⟨hbase.move (hbase.order.keep (by rw [hpc]; rfl)) (hbase.file.keep (by rw [hpc]; rfl))
    (fun k' => by rw [hpc]; rfl) (fun _ => nofun) (fun _ => nofun), fun v k' hv => ?_⟩
  by_cases hvu : v = u
  · rw [hvu, goto_pc_self] at hv
    cases hv
  · rw [goto_pc_of_ne _ _ hvu] at hv
    exact absurd (hbase.order.unique (by rw [hv]; rfl) (by rw [hpc]; rfl)) hvu

theorem Inv.step (h : Inv l) (hcard : Fintype.card T < 2 ^ 32) (hs : Step l t l') : Inv l' := by
  -- what a step says of the mutexes, from where the thread was
  have horder : ∀ {c c'}, l.pc t = c → c'.ownsOrder = c.ownsOrder →
      Owned LockPc.ownsOrder (update l.pc t c') l.orderMtx :=
    fun ht hc => h.order.keep (by rw [ht, hc])
  have hfile : ∀ {c c'}, l.pc t = c → c'.ownsFile = c.ownsFile →
      Owned LockPc.ownsFile (update l.pc t c') l.fileMtx :=
    fun ht hc => h.file.keep (by rw [ht, hc])
  have hacquire : ∀ {c'}, l.fileMtx = none → c'.ownsFile = true →
      Owned LockPc.ownsFile (update l.pc t c') (some t) :=
    fun hmtx hc => (hmtx ▸ h.file).acquire hc
  have hrelease : ∀ {c c'}, l.pc t = c → c.ownsFile = true → c'.ownsFile = false →
      Owned LockPc.ownsFile (update l.pc t c') none :=
    fun ht hc hc' => h.file.release (by rw [ht, hc]) hc'
  have hhas : ∀ {c c' : LockPc}, l.pc t = c → (∀ k, c'.has k = c.has k) → ∀ k,
      c'.has k = (l.pc t).has k :=
    fun ht hc k => by rw [ht, hc]
  cases hs with
  | call kind ht =>
    exact h.move (horder ht rfl) (hfile ht rfl) (hhas ht fun _ => rfl) (fun _ => nofun)
      (fun _ => nofun)
  | lockOrder ht hmtx =>
    exact h.move ((hmtx ▸ h.order).acquire rfl) (hfile ht rfl) (hhas ht fun _ => rfl)
      (fun _ => nofun)
      (fun _ => nofun)
  | lockFile ht hmtx =>
    exact h.move (horder ht rfl) (hacquire hmtx rfl) (hhas ht fun _ => rfl) (fun _ => nofun)
      (fun _ => nofun)
  | busy ht hbusy =>
    refine h.move (horder ht rfl) (hfile ht rfl) (hhas ht fun _ => rfl) (fun _ => nofun) fun k hk =>
      ?_
    rcases hk with hk | hk <;> cases hk
    exact hbusy
  | free ht hfree =>
    refine h.move (horder ht rfl) (hfile ht rfl) (hhas ht fun _ => rfl) (fun k hk => ?_)
      (fun _ => nofun)
    cases hk
    exact hfree
  | sleep ht =>
    refine h.move (horder ht rfl) (hrelease ht rfl rfl) (hhas ht fun _ => rfl) (fun _ => nofun)
      fun k hk => ?_
    rcases hk with hk | hk <;> cases hk
    exact h.waiting _ _ ht
  | wake ht =>
    exact h.move (horder ht rfl) (hfile ht rfl) (hhas ht fun _ => rfl) (fun _ => nofun)
      (fun _ => nofun)
  | relock ht hmtx =>
    exact h.move (horder ht rfl) (hacquire hmtx rfl) (hhas ht fun _ => rfl) (fun _ => nofun)
      (fun _ => nofun)
  | enter ht => exact h.enter hcard ht
  | unlockOrder ht =>
    exact h.move (h.order.release (by rw [ht]; rfl) rfl) (hfile ht rfl) (hhas ht fun _ => rfl)
      (fun _ => nofun) (fun _ => nofun)
  | unlockFile ht =>
    exact h.move (horder ht rfl) (hrelease ht rfl rfl) (hhas ht fun _ => rfl) (fun _ => nofun)
      (fun _ => nofun)
  | back ht =>
    exact h.move (horder ht rfl) (hfile ht rfl) (hhas ht fun _ => rfl) (fun _ => nofun)
      (fun _ => nofun)
  | lockBack ht hmtx =>
    exact h.move (horder ht rfl) (hacquire hmtx rfl) (hhas ht fun _ => rfl) (fun _ => nofun)
      (fun _ => nofun)
  | drop ht hquiet => exact h.drop hcard ht hquiet
  | signal ht _ hu => exact h.signal hcard ht hu
  | done ht =>
    exact h.move (horder ht rfl) (hrelease ht rfl rfl) (hhas ht fun _ => rfl) (fun _ => nofun)
      (fun _ => nofun)

theorem inv_of_run (hcard : Fintype.card T < 2 ^ 32) {tr : List T} (hrun : Run (system T) tr l) :
    Inv l := by
  refine hrun.induction (I := fun _ l => Inv l) (fun l hinit => ?_) fun _ _ _ _ _ h hs =>
    h.step hcard hs
  obtain ⟨horder, hfile, hreaders, hwriters, hidle⟩ := hinit
  have hcount : ∀ k, count (LockPc.has k) l.pc = 0 :=
    fun k => count_eq_zero fun t => by rw [hidle t]; rfl
  refine ⟨⟨fun t => ?_, fun t => ?_, fun k => ?_, fun hpos => ?_, fun t k ht =>
    ?_, fun t k ht => ?_⟩,
    fun t k ht => ?_⟩
  · rw [hidle t, horder]
    exact ⟨nofun, nofun⟩
  · rw [hidle t, hfile]
    exact ⟨nofun, nofun⟩
  · rw [hcount]
    cases k
    · exact hreaders
    · exact hwriters
  · omega
  all_goals
    rw [hidle t] at ht
    cases ht

/-! ## The lock -/

/-- What the lock is for. -/
structure Locks (l : FileLock T) : Prop where
  readers : l.nReaders = count (LockPc.has .reader) l.pc
  writers : l.nWriters = count (LockPc.has .writer) l.pc
  /-- A counter that is to be decremented is not 0. -/
  pos : ∀ t kind, l.pc t = .drop kind → 0 < l.counter kind
  one_writer : l.nWriters ≤ 1
  no_readers : l.nWriters = 1 → l.nReaders = 0
  one_waits : ∀ t u, (l.pc t).waits = true → (l.pc u).waits = true → t = u
  /-- A thread sleeps only while another holds the lock, for writing or against a writer. -/
  not_lost : ∀ t kind, l.pc t = .asleep kind →
    ∃ u k, (l.pc u).has k = true ∧ (kind = .writer ∨ k = .writer)

/-- With less than `2 ^ 32` threads, each run of the threads keeps the lock. -/
theorem locks_of_run (hcard : Fintype.card T < 2 ^ 32) {tr : List T} (hrun : Run (system T) tr l) :
    Locks l := by
  have h := inv_of_run hcard hrun
  have hexclusive := h.exclusive
  refine ⟨h.counters .reader, h.counters .writer, fun t kind ht => ?_, by omega, by omega,
    fun t u ht hu => ?_, fun t kind ht => ?_⟩
  · exact h.counter_pos (by rw [ht]; exact decide_eq_true rfl)
  · have howns : ∀ {c : LockPc}, c.waits = true → c.ownsOrder = true := by
      intro c hc
      cases c <;> first | rfl | cases hc
    exact h.order.unique (howns ht) (howns hu)
  · have hholder : ∀ k, 0 < l.counter k → ∃ u, (l.pc u).has k = true := by
      intro k hk
      rw [h.counters k] at hk
      exact count_pos_iff.1 hk
    have hbusy := h.sleeping t kind ht
    cases kind with
    | reader =>
      have hwriters : 0 < l.nWriters := of_decide_eq_true hbusy
      obtain ⟨u, hu⟩ := hholder .writer hwriters
      exact ⟨u, .writer, hu, .inr rfl⟩
    | writer =>
      have hany : 0 < l.nWriters ∨ 0 < l.nReaders := of_decide_eq_true hbusy
      rcases hany with hwriters | hreaders
      · obtain ⟨u, hu⟩ := hholder .writer hwriters
        exact ⟨u, .writer, hu, .inl rfl⟩
      · obtain ⟨u, hu⟩ := hholder .reader hreaders
        exact ⟨u, .reader, hu, .inl rfl⟩

omit [Fintype T] in
/-- A thread that is idle gets the lock as a reader while no writer has it. -/
theorem exists_reader {tr : List T} (hrun : Run (system T) tr l) (horder : l.orderMtx = none)
    (hfile : l.fileMtx = none) (hwriters : l.nWriters = 0) (ht : l.pc t = .idle) :
    ∃ tr' l', Run (system T) tr' l' ∧ l'.orderMtx = none ∧ l'.fileMtx = none ∧ l'.nWriters = 0 ∧
      l'.nReaders = toUInt (l.nReaders + 1) ∧ l'.pc = update l.pc t (.holds .reader) := by
  have hfree : ¬0 < l.nWriters := by omega
  have h₁ := hrun.step (Step.call .reader ht)
  have h₂ := h₁.step (Step.lockOrder (goto_pc_self _ _ _) horder)
  have h₃ := h₂.step (Step.lockFile (goto_pc_self _ _ _) hfile)
  have h₄ := h₃.step (Step.free (goto_pc_self _ _ _) (decide_eq_false hfree))
  have h₅ := h₄.step (Step.enter (goto_pc_self _ _ _))
  have h₆ := h₅.step (Step.unlockOrder (goto_pc_self _ _ _))
  have h₇ := h₆.step (Step.unlockFile (goto_pc_self _ _ _))
  refine ⟨_, _, h₇, rfl, rfl, hwriters, rfl, ?_⟩
  simp only [goto, add, update_idem]

omit [Fintype T] in
/-- Any threads hold the lock together as readers. -/
theorem exists_readers (ts : List T) (hnodup : ts.Nodup) : ∃ tr l, Run (system T) tr l ∧
    l.orderMtx = none ∧ l.fileMtx = none ∧ l.nWriters = 0 ∧ l.nReaders = toUInt ts.length ∧
    ∀ t, l.pc t = if t ∈ ts then .holds .reader else .idle := by
  induction ts with
  | nil =>
    have hzero : toUInt (0 : ℕ) = 0 := toUInt_of_range (by decide)
    exact ⟨[], ⟨none, none, 0, 0, fun _ => .idle⟩, .start ⟨rfl, rfl, rfl, rfl, fun _ => rfl⟩,
      rfl, rfl, rfl,
      hzero.symm, fun _ => rfl⟩
  | cons t ts ih =>
    obtain ⟨htail, hnodup⟩ := List.nodup_cons.1 hnodup
    obtain ⟨tr, l, hrun, horder, hfile, hwriters, hreaders, hpc⟩ := ih hnodup
    obtain ⟨tr', l', hrun', horder', hfile', hwriters', hreaders', hpc'⟩ :=
      exists_reader hrun horder hfile hwriters (by rw [hpc t, if_neg htail])
    refine ⟨tr', l', hrun', horder', hfile', hwriters', ?_, fun u => ?_⟩
    · rw [hreaders', hreaders, List.length_cons]
      unfold toUInt
      omega
    · rw [hpc']
      by_cases hu : u = t
      · rw [hu, update_self, if_pos List.mem_cons_self]
      · rw [update_of_ne hu, hpc u]
        simp only [List.mem_cons, hu, false_or]

/-- An example of `locks_of_run` : two threads hold the lock as readers, and a third sleeps, that
wants it as a writer. -/
theorem locks_of_run_asleep : ∃ (tr : List (Fin 3)) (l : FileLock (Fin 3)),
    Run (system (Fin 3)) tr l ∧
    l.pc 0 = .holds .reader ∧ l.pc 1 = .holds .reader ∧ l.pc 2 = .asleep .writer ∧ Locks l := by
  obtain ⟨tr, l, hrun, horder, hfile, -, hreaders, hpc⟩ :=
    exists_readers ([0, 1] : List (Fin 3)) (by decide)
  have htwo : l.nReaders = 2 := hreaders.trans (toUInt_of_range (by decide))
  have hbusy : 0 < l.nWriters ∨ 0 < l.nReaders := .inr (by omega)
  have h₁ := hrun.step (Step.call .writer ((hpc 2).trans (by decide)))
  have h₂ := h₁.step (Step.lockOrder (goto_pc_self _ _ _) horder)
  have h₃ := h₂.step (Step.lockFile (goto_pc_self _ _ _) hfile)
  have h₄ := h₃.step (Step.busy (goto_pc_self _ _ _) (decide_eq_true hbusy))
  have h₅ := h₄.step (Step.sleep (goto_pc_self _ _ _))
  have hother : ∀ {t : Fin 3} (c : LockPc), t ≠ 2 → update l.pc 2 c t = l.pc t :=
    fun c ht => update_of_ne ht _ _
  refine ⟨_, _, h₅, ?_, ?_, ?_, locks_of_run (by decide) h₅⟩ <;> simp only [goto, update_idem]
  · exact (hother _ (by decide)).trans (hpc 0)
  · exact (hother _ (by decide)).trans (hpc 1)
  · exact update_self _ _ _

/-- When `2 ^ 32` threads hold the lock as readers, the counter is 0. -/
theorem not_locks_of_run : ¬∀ (T : Type) [DecidableEq T] [Fintype T] (tr : List T) (l : FileLock T),
    Run (system T) tr l → Locks l := by
  intro hall
  obtain ⟨tr, l, hrun, -, -, -, hreaders, hpc⟩ :=
    exists_readers (List.finRange (2 ^ 32)) (List.nodup_finRange _)
  have hcount := (hall _ tr l hrun).readers
  have hall : ∀ t, (l.pc t).has .reader = true := by
    intro t
    rw [hpc t, if_pos (List.mem_finRange t)]
    rfl
  have hcard : count (LockPc.has .reader) l.pc = 2 ^ 32 := by
    rw [count, Finset.filter_true_of_mem fun t _ => hall t, Finset.card_univ, Fintype.card_fin]
  rw [hreaders, List.length_finRange, hcard] at hcount
  unfold toUInt at hcount
  omega

end Invariant

end FileLock

end StorageServer
