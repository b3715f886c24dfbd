import Mathlib.Algebra.Order.BigOperators.Group.Finset
import Mathlib.Algebra.Order.Group.Nat
import Mathlib.Algebra.Ring.Int.Defs
import Mathlib.Algebra.Ring.Nat
import Mathlib.Logic.Hydra
import StorageServer.Lib.Prog
import StorageServer.Lib.Transition

/-!
# Threads that share a state

Each thread of a `Pool` does jobs, one after the other. A job is a program over a state of the
thread's own and a state that all threads share, and its operations are performed one at a time,
between those of other threads (`poolSystem`). In `serialSystem` a job is done at once. No job is
lost or done twice (`started_eq`), and if no job is started the threads come to an end
(`goesOn_wf`).

What the threads have between them is a sum over the threads (`sum_update`, `total`), so that a step
of one thread changes one summand. What each thread has done in its job can be recorded (`noting`);
then what is left of a job satisfies what its program satisfies along its paths (`AlongAll.step`).
-/

namespace Programs

open Function Transitions

universe u v w

variable {T J L S : Type*} {α : Type w} {Op : Type u} {Ans : Op → Type v}

/-! ## Sums over the threads -/

section Sum

variable {C M : Type*} [Fintype T] [DecidableEq T] [AddCommMonoid M]

/-- One thread changes its summand. -/
theorem sum_update (f : C → M) (pc : T → C) (t : T) (c : C) :
    ∑ u, f (update pc t c u) + f (pc t) = ∑ u, f (pc u) + f c := by
  have hrest : ∑ u ∈ Finset.univ.erase t, f (update pc t c u) =
      ∑ u ∈ Finset.univ.erase t, f (pc u) :=
    Finset.sum_congr rfl fun u hu => by rw [update_of_ne (Finset.ne_of_mem_erase hu)]
  rw [← Finset.add_sum_erase _ _ (Finset.mem_univ t),
    ← Finset.add_sum_erase _ (fun u => f (pc u)) (Finset.mem_univ t), hrest, update_self]
  ac_rfl

theorem sum_update_eq (f : C → M) (pc : T → C) (t : T) {c : C} (hc : f c = f (pc t)) :
    ∑ u, f (update pc t c u) = ∑ u, f (pc u) :=
  Finset.sum_congr rfl fun u _ => by
    by_cases hu : u = t
    · rw [hu, update_self, hc]
    · rw [update_of_ne hu]

end Sum

section Total

variable {C B : Type*} [Fintype T] [DecidableEq B] {f : C → List B} {pc : T → C} {t : T}
  {c : C} {b : B}

/-- How often the threads have `b` between them. -/
def total (f : C → List B) (pc : T → C) (b : B) : ℕ :=
  ∑ t, (f (pc t)).count b

theorem total_update [DecidableEq T] (f : C → List B) (pc : T → C) (t : T) (c : C) (b : B) :
    total f (update pc t c) b + (f (pc t)).count b = total f pc b + (f c).count b :=
  sum_update (fun c => (f c).count b) pc t c

theorem total_keep [DecidableEq T] (hc : (f c).Perm (f (pc t))) :
    total f (update pc t c) = total f pc :=
  funext fun b => sum_update_eq (fun c => (f c).count b) pc t (hc.count_eq b)

theorem count_le_total (f : C → List B) (pc : T → C) (t : T) (b : B) :
    (f (pc t)).count b ≤ total f pc b :=
  Finset.single_le_sum (f := fun t => (f (pc t)).count b) (fun _ _ => Nat.zero_le _)
    (Finset.mem_univ t)

theorem total_pos_iff : 0 < total f pc b ↔ ∃ t, b ∈ f (pc t) := by
  simp only [Nat.pos_iff_ne_zero, total, Ne, Finset.sum_eq_zero_iff, Finset.mem_univ, true_imp_iff,
    not_forall, List.count_eq_zero, not_not]

theorem total_pos_of_mem (h : b ∈ f (pc t)) : 0 < total f pc b :=
  total_pos_iff.2 ⟨t, h⟩

theorem total_eq_zero (h : ∀ t, f (pc t) = []) : total f pc = 0 :=
  funext fun b => Finset.sum_eq_zero fun t _ => by rw [h t, List.count_nil]

end Total

/-! ## Pools -/

/-- A thread that does a job. -/
structure Thread (Op : Type u) (Ans : Op → Type v) (J L : Type*) (α : Type w) where
  job : J
  /-- What it had of its own when it started. -/
  start : L
  /-- What is left to do. -/
  prog : Prog Op Ans α
  own : L

/-- The threads and what they share. -/
structure Pool (T : Type*) (Op : Type u) (Ans : Op → Type v) (J L S : Type*) (α : Type w) where
  shared : S
  threads : T → Option (Thread Op Ans J L α)

/-- A job done : what its thread had of its own at the start and at the end, and the result. -/
structure Turn (J L : Type*) (α : Type w) where
  job : J
  start : L
  result : α
  last : L

/-- The events of a pool. -/
inductive PoolEvent (T J L : Type*) (α : Type w) (Op : Type u)
  | start (t : T) (job : J) (l : L)
  | perform (t : T) (job : J) (l : L) (o : Op)
  | finish (t : T) (turn : Turn J L α)

section Systems

variable [DecidableEq T] (exec : Sem Op Ans (L × S)) (program : J → Prog Op Ans α)
  (admits : J → L → Op → S → Prop)

/-- A thread starts a job, performs its next operation, or is done with it. -/
inductive Pool.Step : Pool T Op Ans J L S α → PoolEvent T J L α Op → Pool T Op Ans J L S α → Prop
  | start {σ : Pool T Op Ans J L S α} {t : T} (job : J) (l : L) (h : σ.threads t = none) :
      Step σ (.start t job l)
        { σ with threads := update σ.threads t (some ⟨job, l, program job, l⟩) }
  | perform {σ : Pool T Op Ans J L S α} {t : T} {job : J} {l₀ l l' : L} {o : Op}
      {k : Ans o → Prog Op Ans α} {a : Ans o} {s' : S}
      (h : σ.threads t = some ⟨job, l₀, .op o k, l⟩) (ha : admits job l₀ o σ.shared)
      (hexec : exec o (l, σ.shared) = .ok (a, (l', s'))) :
      Step σ (.perform t job l₀ o) ⟨s', update σ.threads t (some ⟨job, l₀, k a, l'⟩)⟩
  | finish {σ : Pool T Op Ans J L S α} {t : T} {job : J} {l₀ l : L} {a : α}
      (h : σ.threads t = some ⟨job, l₀, .ret a, l⟩) :
      Step σ (.finish t ⟨job, l₀, a, l⟩) { σ with threads := update σ.threads t none }

/-- The operation that a thread performs next. -/
def Pool.upcoming (σ : Pool T Op Ans J L S α) (t : T) : Option Op :=
  (σ.threads t).bind fun th =>
    match th.prog with
    | .ret _ => none
    | .op o _ => some o

omit [DecidableEq T] in
theorem Pool.of_upcoming {σ : Pool T Op Ans J L S α} {t : T} {c : Op → Bool}
    (h : (σ.upcoming t).any c = true) :
    ∃ job l₀ o k l, c o = true ∧ σ.threads t = some ⟨job, l₀, .op o k, l⟩ := by
  obtain ⟨o, ho, hc⟩ := (Option.any_eq_true _ _).1 h
  obtain ⟨⟨job, l₀, p, l⟩, ht, hp⟩ := Option.bind_eq_some_iff.1 ho
  cases p with
  | ret a => cases hp
  | op o' k =>
    cases hp
    exact ⟨job, l₀, o, k, l, hc, ht⟩

/-- Threads that do jobs between each other's operations. -/
def poolSystem (T : Type*) [DecidableEq T] (s₀ : S) :
    System (Pool T Op Ans J L S α) (PoolEvent T J L α Op) where
  init σ := σ = ⟨s₀, fun _ => none⟩
  step := Pool.Step exec program admits

/-- One job after the other. -/
def serialSystem (admitted : J → L → S → Prop) (s₀ : S) : System S (Turn J L α) where
  init s := s = s₀
  step s turn s' := admitted turn.job turn.start s ∧
    Prog.run exec (program turn.job) (turn.start, s) = .ok (turn.result, (turn.last, s'))

end Systems

/-- Two runs of the serial system with the same jobs are the same. -/
theorem serial_unique {exec : Sem Op Ans (L × S)} {program : J → Prog Op Ans α}
    {admitted : J → L → S → Prop} {s₀ s s' : S} {turns turns' : List (Turn J L α)}
    (h : Run (serialSystem exec program admitted s₀) turns s)
    (h' : Run (serialSystem exec program admitted s₀) turns' s')
    (hsame : (turns'.map fun turn => (turn.job, turn.start)) =
      turns.map fun turn => (turn.job, turn.start)) : turns' = turns ∧ s' = s := by
  induction h generalizing turns' s' with
  | @start s h =>
    obtain rfl := List.map_eq_nil_iff.1 hsame
    cases h' with
    | start h' => exact ⟨rfl, Eq.trans h' (Eq.symm h)⟩
  | @step turns s turn s₁ h hs ih =>
    cases h' with
    | start h' => cases hsame
    | @step turns' s' turn' s₁' h' hs' =>
      obtain ⟨hturn, hturns⟩ := List.cons_eq_cons.1 hsame
      obtain ⟨rfl, rfl⟩ := ih h' hturns
      obtain ⟨job, l, a, l'⟩ := turn
      obtain ⟨job', l₁, a', l₁'⟩ := turn'
      cases hturn
      cases hs.2.symm.trans hs'.2
      exact ⟨rfl, rfl⟩

/-- The jobs that have been done, the last one first. -/
def finished : List (PoolEvent T J L α Op) → List (Turn J L α) :=
  List.filterMap fun e =>
    match e with
    | .finish _ turn => some turn
    | _ => none

/-- The jobs that have performed an operation of a kind, the last one first. -/
def performed (p : Op → Bool) : List (PoolEvent T J L α Op) → List (J × L) :=
  List.filterMap fun e =>
    match e with
    | .perform _ job l o => if p o then some (job, l) else none
    | _ => none

/-- The jobs that have been started, the last one first. -/
def started : List (PoolEvent T J L α Op) → List (J × L) :=
  List.filterMap fun e =>
    match e with
    | .start _ job l => some (job, l)
    | _ => none

theorem mem_started {tr : List (PoolEvent T J L α Op)} {job : J} {l : L} :
    (job, l) ∈ started tr ↔ ∃ t, PoolEvent.start t job l ∈ tr := by
  constructor
  · intro h
    obtain ⟨e, he, hstart⟩ := List.mem_filterMap.1 h
    cases e with
    | start t job' l' =>
      cases hstart
      exact ⟨t, he⟩
    | _ => cases hstart
  · rintro ⟨t, ht⟩
    exact List.mem_filterMap.2 ⟨_, ht, rfl⟩

/-- The job of a turn, with what its thread had of its own when it started. -/
def Turn.begun (turn : Turn J L α) : J × L :=
  (turn.job, turn.start)

/-- The job that a thread does. -/
def begun : Option (Thread Op Ans J L α) → Multiset (J × L)
  | none => 0
  | some th => {(th.job, th.start)}

/-- The programs that are left to do. -/
def left : Option (Thread Op Ans J L α) → Multiset (Prog Op Ans α)
  | none => 0
  | some th => {th.prog}

section Jobs

variable [Fintype T] [DecidableEq T] {exec : Sem Op Ans (L × S)} {program : J → Prog Op Ans α}
  {admits : J → L → Op → S → Prop} {s₀ : S} {tr : List (PoolEvent T J L α Op)}
  {σ : Pool T Op Ans J L S α}

/-- No job is lost, and none is done twice. -/
theorem started_eq (h : Run (poolSystem exec program admits T s₀) tr σ) :
    (started tr : Multiset (J × L)) =
      (((finished tr).map Turn.begun : List (J × L)) : Multiset (J × L)) + ∑ t,
        begun (σ.threads t) := by
  refine h.induction (I := fun tr σ => (started tr : Multiset (J × L)) =
    (((finished tr).map Turn.begun : List (J × L)) : Multiset (J × L)) + ∑ t,
    begun (σ.threads t)) ?_ ?_
  · rintro σ rfl
    simp [started, finished, begun]
  rintro tr σ e σ' - ih hstep
  cases hstep with
  | @start t job l ht =>
    have hsum :=
      sum_update begun σ.threads t (some (⟨job, l, program job, l⟩ : Thread Op Ans J L α))
    rw [ht, begun, add_zero] at hsum
    rw [hsum, show finished (.start t job l :: tr) = finished tr from rfl, ← add_assoc, ← ih]
    exact (Multiset.coe_eq_coe.2 (List.perm_append_singleton (job, l) (started tr))).symm
  | perform ht _ _ =>
    rw [show started (.perform _ _ _ _ :: tr) = started tr from rfl, ih]
    refine congrArg _ (sum_update_eq begun σ.threads _ ?_).symm
    rw [ht]
    rfl
  | @finish t job l₀ l a ht =>
    have hsum := sum_update begun σ.threads t none
    rw [ht, begun, add_zero] at hsum
    rw [show started (.finish t ⟨job, l₀, a, l⟩ :: tr) = started tr from rfl, ih, ← hsum,
      ← add_assoc,
      add_right_comm]
    exact congrArg (· + _) (Multiset.coe_eq_coe.2 (List.perm_append_singleton (job, l₀) _))

/-- Every job that a thread does, or has done, has been started. -/
theorem started_of_run (h : Run (poolSystem exec program admits T s₀) tr σ) :
    (∀ t th, σ.threads t = some th → ∃ u, PoolEvent.start u th.job th.start ∈ tr) ∧
      ∀ turn ∈ finished tr, ∃ u, PoolEvent.start u turn.job turn.start ∈ tr := by
  have hmem : ∀ x, x ∈ started tr ↔ x ∈ (finished tr).map Turn.begun ∨ ∃ t,
      x ∈ begun (σ.threads t) := by
    intro x
    rw [← Multiset.mem_coe, started_eq h, Multiset.mem_add, Multiset.mem_coe, Multiset.mem_sum]
    simp only [Finset.mem_univ, true_and]
  constructor
  · intro t th ht
    refine mem_started.1 ((hmem _).2 (.inr ⟨t, ?_⟩))
    rw [ht]
    exact Multiset.mem_singleton_self _
  · intro turn hturn
    exact mem_started.1 ((hmem _).2 (.inl (List.mem_map_of_mem hturn)))

/-! ## Going on -/

/-- What is left of a program after an operation. -/
def Prog.After (q p : Prog Op Ans α) : Prop :=
  ∃ o k a, p = .op o k ∧ q = k a

theorem Prog.after_wf : WellFounded (Prog.After : Prog Op Ans α → Prog Op Ans α → Prop) := by
  refine ⟨fun p => ?_⟩
  induction p with
  | ret a =>
    refine ⟨_, ?_⟩
    rintro q ⟨o, k, b, he, -⟩
    cases he
  | op o k ih =>
    refine ⟨_, ?_⟩
    rintro q ⟨o', k', a, he, rfl⟩
    cases he
    exact ih a

/-- A step that starts no job. -/
def Pool.GoesOn (exec : Sem Op Ans (L × S)) (program : J → Prog Op Ans α)
    (admits : J → L → Op → S → Prop)
    (σ σ' : Pool T Op Ans J L S α) : Prop :=
  ∃ e, Pool.Step exec program admits σ e σ' ∧ started [e] = []

/-- The threads do not go on for ever, if no job is started : each step leaves less of one
program. -/
theorem goesOn_wf : WellFounded fun σ' σ : Pool T Op Ans J L S α =>
    σ.GoesOn exec program admits σ' := by
  refine Subrelation.wf (r := InvImage (Relation.CutExpand Prog.After) fun σ =>
    ∑ t, left (σ.threads t)) ?_
    (InvImage.wf _ Prog.after_wf.cutExpand)
  rintro σ' σ ⟨e, hstep, hstarted⟩
  cases hstep with
  | start job l ht => cases hstarted
  | @perform t job l₀ l l' o k a s' ht _ _ =>
    have hsum := sum_update left σ.threads t (some ⟨job, l₀, k a, l'⟩)
    rw [ht] at hsum
    refine ⟨{k a}, .op o k, fun q hq => ?_, hsum⟩
    rw [Multiset.mem_singleton.1 hq]
    exact ⟨o, k, a, rfl, rfl⟩
  | @finish t job l₀ l a ht =>
    have hsum := sum_update left σ.threads t none
    rw [ht] at hsum
    exact ⟨0, .ret a, fun q hq => absurd hq (Multiset.notMem_zero q), hsum⟩

end Jobs

/-! ## Notes -/

section Notes

variable [DecidableEq T] {exec : Sem Op Ans (L × S)} {program : J → Prog Op Ans α}
  {admits : J → L → Op → S → Prop} {ν : Type*} {n₀ : ν} {note : ν → (o : Op) → Ans o → ν}
  {σ : Pool T Op Ans J L S α} {notes : T → ν}

/-- The notes of each thread on its job. -/
def noting (exec : Sem Op Ans (L × S)) (note : ν → (o : Op) → Ans o → ν) (n₀ : ν) (notes : T → ν)
    (σ : Pool T Op Ans J L S α) : PoolEvent T J L α Op → T → ν
  | .start t _ _ => update notes t n₀
  | .finish t _ => update notes t n₀
  | .perform t _ _ o =>
    match σ.threads t with
    | some th =>
      match exec o (th.own, σ.shared) with
      | .ok (a, _) => update notes t (note (notes t) o a)
      | _ => notes
    | none => notes

theorem noting_perform {t : T} {job : J} {l₀ l l' : L} {p : Prog Op Ans α} {o : Op} {a : Ans o}
    {s' : S} (ht : σ.threads t = some ⟨job, l₀, p, l⟩)
    (hexec : exec o (l, σ.shared) = .ok (a, (l', s'))) :
    noting exec note n₀ notes σ (.perform t job l₀ o) = update notes t (note (notes t) o a) := by
  simp only [noting, ht, hexec]

/-- What is left of each job satisfies `P` along its paths. -/
def AlongAll (note : ν → (o : Op) → Ans o → ν) (can : ν → (o : Op) → Ans o → Prop)
    (P : ν → Op → Prop) (Q : α → ν → Prop) (n₀ : ν) (σ : Pool T Op Ans J L S α) (notes : T → ν) :
    Prop :=
  ∀ t, (σ.threads t = none → notes t = n₀) ∧
    ∀ th, σ.threads t = some th → Prog.Along note can P th.prog Q (notes t)

/-- If the programs satisfy it, and the answers are those that the operations can get. -/
theorem AlongAll.step {can : ν → (o : Op) → Ans o → Prop} {P : ν → Op → Prop} {Q : α → ν → Prop}
    (h : AlongAll note can P Q n₀ σ notes)
    (hprogram : ∀ job, Prog.Along note can P (program job) Q n₀) {e : PoolEvent T J L α Op}
    {σ' : Pool T Op Ans J L S α} (hstep : Pool.Step exec program admits σ e σ')
    (hcan : ∀ {t job l₀ o k l a l' s'}, σ.threads t = some ⟨job, l₀, .op o k, l⟩ →
      exec o (l, σ.shared) = .ok (a, (l', s')) → can (notes t) o a) :
    AlongAll note can P Q n₀ σ' (noting exec note n₀ notes σ e) := by
  have hupdate : ∀ {t : T} {th : Option (Thread Op Ans J L α)} {n : ν}, (th = none → n = n₀) →
      (∀ th', th = some th' → Prog.Along note can P th'.prog Q n) → ∀ u,
      (update σ.threads t th u = none → update notes t n u = n₀) ∧
        ∀ th', update σ.threads t th u = some th' →
          Prog.Along note can P th'.prog Q (update notes t n u) := by
    intro t th n hnone hsome u
    by_cases hu : u = t
    · subst hu
      rw [update_self, update_self]
      exact ⟨hnone, hsome⟩
    · rw [update_of_ne hu, update_of_ne hu]
      exact h u
  cases hstep with
  | start job l ht =>
    refine hupdate nofun fun th hth => ?_
    cases hth
    exact hprogram job
  | @perform t job l₀ l l' o k a s' ht ha hexec =>
    rw [noting_perform ht hexec]
    refine hupdate nofun fun th hth => ?_
    cases hth
    exact ((h t).2 _ ht).2 a (hcan ht hexec)
  | finish ht => exact hupdate (fun _ => rfl) nofun

end Notes

/-! ## Replays -/

/-- What is to be done next. -/
inductive PoolAction (T J L : Type*)
  | start (t : T) (job : J) (l : L)
  | perform (t : T)
  | finish (t : T)

section Replays

variable [DecidableEq T] {exec : Sem Op Ans (L × S)} {program : J → Prog Op Ans α}
  {admits : J → L → Op → S → Prop} [∀ job l o s, Decidable (admits job l o s)]

/-- The step of a pool, computed. -/
def Pool.next (exec : Sem Op Ans (L × S)) (program : J → Prog Op Ans α)
    (admits : J → L → Op → S → Prop)
    [∀ job l o s, Decidable (admits job l o s)] (σ : Pool T Op Ans J L S α) :
    PoolAction T J L → Option (PoolEvent T J L α Op × Pool T Op Ans J L S α)
  | .start t job l =>
    match σ.threads t with
    | none => some (.start t job l,
        { σ with threads := update σ.threads t (some ⟨job, l, program job, l⟩) })
    | some _ => none
  | .perform t =>
    match σ.threads t with
    | some ⟨job, l₀, .op o k, l⟩ =>
      if admits job l₀ o σ.shared then
        match exec o (l, σ.shared) with
        | .ok (a, (l', s')) =>
          some (.perform t job l₀ o, ⟨s', update σ.threads t (some ⟨job, l₀, k a, l'⟩)⟩)
        | _ => none
      else none
    | _ => none
  | .finish t =>
    match σ.threads t with
    | some ⟨job, l₀, .ret a, l⟩ =>
      some (.finish t ⟨job, l₀, a, l⟩, { σ with threads := update σ.threads t none })
    | _ => none

theorem computes_pool (s₀ : S) :
    Computes (poolSystem exec program admits T s₀) (Pool.next exec program admits) := by
  intro σ x e σ' hnext
  cases x with
  | start t job l =>
    rw [Pool.next] at hnext
    split at hnext
    · cases hnext
      exact .start job l ‹_›
    · cases hnext
  | perform t =>
    rw [Pool.next] at hnext
    split at hnext
    · split_ifs at hnext with ha
      split at hnext
      · cases hnext
        exact .perform ‹_› ha ‹_›
      · cases hnext
    · cases hnext
  | finish t =>
    rw [Pool.next] at hnext
    split at hnext
    · cases hnext
      exact .finish ‹_›
    · cases hnext

/-- The step of the serial system, computed. -/
def Serial.next (exec : Sem Op Ans (L × S)) (program : J → Prog Op Ans α)
    (admitted : J → L → S → Prop)
    [∀ job l s, Decidable (admitted job l s)] (s : S) (x : J × L) : Option (Turn J L α × S) :=
  if admitted x.1 x.2 s then
    match Prog.run exec (program x.1) (x.2, s) with
    | .ok (a, (l', s')) => some (⟨x.1, x.2, a, l'⟩, s')
    | _ => none
  else none

theorem computes_serial {admitted : J → L → S → Prop} [∀ job l s, Decidable (admitted job l s)]
    (s₀ : S) :
    Computes (serialSystem exec program admitted s₀) (Serial.next exec program admitted) := by
  intro s x turn s' hnext
  rw [Serial.next] at hnext
  split_ifs at hnext with ha
  split at hnext
  · cases hnext
    exact ⟨ha, ‹_›⟩
  · cases hnext

/-- A computed turn is one of the job that is asked for. -/
theorem Serial.of_next {admitted : J → L → S → Prop} [∀ job l s, Decidable (admitted job l s)]
    {s s' : S} {x : J × L} {turn : Turn J L α}
    (h : Serial.next exec program admitted s x = some (turn, s')) : (turn.job, turn.start) = x := by
  rw [Serial.next] at h
  split_ifs at h
  split at h
  · cases h
    rfl
  · cases h

/-- A job is started by what says so. -/
theorem Pool.start_of_next {σ σ' : Pool T Op Ans J L S α} {x : PoolAction T J L} {t : T}
    {job : J} {l : L}
    (h : Pool.next exec program admits σ x = some (.start t job l, σ')) : x = .start t job l := by
  cases x with
  | start t' job' l' =>
    rw [Pool.next] at h
    split at h
    · cases h
      rfl
    · cases h
  | perform t' =>
    rw [Pool.next] at h
    split at h
    · split_ifs at h
      split at h <;> cases h
    · cases h
  | finish t' =>
    rw [Pool.next] at h
    split at h <;> cases h

end Replays

end Programs
