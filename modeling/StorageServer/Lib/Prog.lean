import Mathlib.Algebra.BigOperators.Group.List.Basic
import Mathlib.Algebra.Ring.Int.Defs
import Mathlib.Algebra.Ring.Nat
import Mathlib.Logic.Function.Basic
import Mathlib.Tactic.Common

/-!
# Programs over operations

A program is a tree : a leaf holds its result, an inner node performs one operation and
has one subtree for each answer the operation can get. The same tree is run alone
(`Prog.run`) or one operation at a time between the operations of other programs, so
that both readings are about one text.

The meaning of the operations is a parameter. Performing one gives an answer and a new
state, waits, ends the process, or is undefined (`Res`). `run_bind` composes runs.

`wp` is the weakest precondition for a run that is never undefined, and gives the
postcondition if it returns; `twp` is that for a run that returns, as every run of a program
does that comes only to operations that neither wait nor end the process (`Only.twp`).
`checked` adds a condition on the states an operation may be performed in; what holds of the
checked runs holds of the runs (`wp_of_checked`).

A program whose operations do not tell related states apart has the same result from both
(`Only.agree`).

Whether an operation is allowed may depend on the operations before it and their answers. `Along` is
the weakest precondition for this, over notes of them, whatever the answers are.
-/

namespace Programs

universe u v w s

/-- What performing an operation, or running a program, comes to. -/
inductive Res (α : Type u) : Type u
  /-- It returns. -/
  | ok (a : α)
  /-- It waits for another thread. -/
  | blocked
  /-- It ends the process. -/
  | halt
  /-- It is undefined. -/
  | fault

namespace Res

variable {α β : Type*}

/-- Continue with the value, if there is one. -/
def bind (r : Res α) (f : α → Res β) : Res β :=
  match r with
  | ok a => f a
  | blocked => blocked
  | halt => halt
  | fault => fault

/-- Whether it waits. -/
def isBlocked : Res α → Bool
  | blocked => true
  | _ => false

theorem eq_blocked_of_isBlocked {r : Res α} (h : r.isBlocked = true) : r = blocked := by
  cases r with
  | blocked => rfl
  | _ => cases h

@[simp] theorem bind_ok (a : α) (f : α → Res β) : (ok a).bind f = f a :=
  rfl

@[simp] theorem bind_blocked (f : α → Res β) : (blocked : Res α).bind f = blocked :=
  rfl

@[simp] theorem bind_halt (f : α → Res β) : (halt : Res α).bind f = halt :=
  rfl

@[simp] theorem bind_fault (f : α → Res β) : (fault : Res α).bind f = fault :=
  rfl

theorem bind_eq_ok {r : Res α} {f : α → Res β} {b : β} :
    r.bind f = ok b ↔ ∃ a, r = ok a ∧ f a = ok b := by
  cases r <;> simp [bind]

theorem exists_ok_eq {σ : Type*} {a : α} {s : σ} {Q : α → σ → Prop} :
    (∃ b s', ok (a, s) = ok (b, s') ∧ Q b s') ↔ Q a s := by
  constructor
  · rintro ⟨b, s', h, hQ⟩
    cases h
    exact hQ
  · exact fun hQ => ⟨a, s, rfl, hQ⟩

theorem bind_assoc {γ : Type*} (r : Res α) (f : α → Res β) (g : β → Res γ) :
    (r.bind f).bind g = r.bind fun a => (f a).bind g := by
  cases r <;> rfl

@[simp] theorem ite_bind (c : Prop) [Decidable c] (r r' : Res α) (f : α → Res β) :
    (if c then r else r').bind f = if c then r.bind f else r'.bind f := by
  split <;> rfl

instance : Monad Res where
  pure := ok
  bind := bind

/-- The outcome is not undefined, and satisfies `Q` if there is a value. -/
def Sat (r : Res α) (Q : α → Prop) : Prop :=
  match r with
  | ok a => Q a
  | blocked => True
  | halt => True
  | fault => False

section Sat

variable {Q : α → Prop}

@[simp] theorem sat_ok (a : α) : (ok a).Sat Q ↔ Q a :=
  Iff.rfl

@[simp] theorem sat_blocked : (blocked : Res α).Sat Q :=
  trivial

@[simp] theorem sat_halt : (halt : Res α).Sat Q :=
  trivial

@[simp] theorem not_sat_fault : ¬(fault : Res α).Sat Q :=
  id

theorem sat_bind {r : Res α} {f : α → Res β} {Q : β → Prop} :
    (r.bind f).Sat Q ↔ r.Sat fun a => (f a).Sat Q := by
  cases r <;> rfl

theorem Sat.mono {r : Res α} {Q' : α → Prop} (h : r.Sat Q) (hQ : ∀ a, Q a → Q' a) : r.Sat Q' := by
  cases r with
  | ok a => exact hQ a h
  | blocked | halt => trivial
  | fault => exact h

theorem Sat.ne_fault {r : Res α} (h : r.Sat Q) : r ≠ fault := by
  rintro rfl
  exact h

theorem Sat.of_ok {r : Res α} {a : α} (h : r.Sat Q) (hr : r = ok a) : Q a := by
  subst hr
  exact h

end Sat

end Res

/-- Programs over the operations `Op`, where `Ans o` are the answers `o` can get. -/
inductive Prog (Op : Type u) (Ans : Op → Type v) (α : Type w) : Type (max u v w)
  | ret (a : α)
  | op (o : Op) (k : Ans o → Prog Op Ans α)

/-- The meaning of the operations on states `σ`. -/
abbrev Sem (Op : Type u) (Ans : Op → Type v) (σ : Type s) :=
  (o : Op) → σ → Res (Ans o × σ)

namespace Prog

variable {Op : Type u} {Ans : Op → Type v} {α β : Type w} {σ : Type s}

/-- Run `p`, then `f` on its result. -/
protected def bind : Prog Op Ans α → (α → Prog Op Ans β) → Prog Op Ans β
  | ret a, f => f a
  | op o k, f => op o fun r => (k r).bind f

instance : Monad (Prog Op Ans) where
  pure := ret
  bind := Prog.bind

/-- Perform one operation and return its answer. -/
def perform (o : Op) : Prog Op Ans (Ans o) :=
  op o ret

@[simp] theorem ret_bind (a : α) (f : α → Prog Op Ans β) : ret a >>= f = f a :=
  rfl

@[simp] theorem op_bind (o : Op) (k : Ans o → Prog Op Ans α) (f : α → Prog Op Ans β) :
    op o k >>= f = op o fun r => k r >>= f :=
  rfl

@[simp] theorem pure_eq_ret (a : α) : (pure a : Prog Op Ans α) = ret a :=
  rfl

protected theorem bind_assoc {γ : Type w} (p : Prog Op Ans α) (f : α → Prog Op Ans β)
    (g : β → Prog Op Ans γ) : p >>= f >>= g = p >>= fun a => f a >>= g := by
  induction p with
  | ret a => rfl
  | op o k ih => simp only [op_bind, ih]

protected theorem bind_ret (p : Prog Op Ans α) : p >>= ret = p := by
  induction p with
  | ret a => rfl
  | op o k ih => simp only [op_bind, ih]

instance : LawfulMonad (Prog Op Ans) :=
  LawfulMonad.mk' _ (fun p => Prog.bind_ret p) (fun _ _ => rfl) Prog.bind_assoc

/-- A choice between two programs, continued. -/
theorem ite_bind (c : Prop) [Decidable c] (p q : Prog Op Ans α) (f : α → Prog Op Ans β) :
    (if c then p else q) >>= f = if c then p >>= f else q >>= f := by
  split <;> rfl

/-! ## Runs of one program -/

/-- Run a program alone, from a state. -/
def run (exec : Sem Op Ans σ) : Prog Op Ans α → σ → Res (α × σ)
  | ret a, s => .ok (a, s)
  | op o k, s => (exec o s).bind fun r => run exec (k r.1) r.2

variable (exec : Sem Op Ans σ)

@[simp] theorem run_ret (a : α) (s : σ) : run exec (ret a) s = .ok (a, s) :=
  rfl

@[simp] theorem run_pure (a : α) (s : σ) : run exec (pure a) s = .ok (a, s) :=
  rfl

@[simp] theorem run_op (o : Op) (k : Ans o → Prog Op Ans α) (s : σ) :
    run exec (op o k) s = (exec o s).bind fun r => run exec (k r.1) r.2 :=
  rfl

/-- A run of a composition is a run of its first part, then of its second. -/
@[simp] theorem run_bind (p : Prog Op Ans α) (f : α → Prog Op Ans β) (s : σ) :
    run exec (p >>= f) s = (run exec p s).bind fun r => run exec (f r.1) r.2 := by
  induction p generalizing s with
  | ret a => rfl
  | op o k ih => simp only [op_bind, run_op, ih, Res.bind_assoc]

@[simp] theorem run_perform (o : Op) (s : σ) :
    run exec (perform o : Prog Op Ans _) s = exec o s := by
  simp only [perform, run_op, run_ret]
  cases exec o s <;> rfl

@[simp] theorem run_ite (c : Prop) [Decidable c] (p q : Prog Op Ans α) (s : σ) :
    run exec (if c then p else q) s = if c then run exec p s else run exec q s := by
  split <;> rfl

/-! ## Weakest preconditions -/

/-- The run of `p` from `s` is never undefined, and satisfies `Q` if it returns. -/
def wp (p : Prog Op Ans α) (Q : α → σ → Prop) (s : σ) : Prop :=
  (run exec p s).Sat fun r => Q r.1 r.2

variable {exec} {Q : α → σ → Prop} {s : σ}

@[simp] theorem wp_ret (a : α) : wp exec (ret a : Prog Op Ans α) Q s ↔ Q a s :=
  Iff.rfl

@[simp] theorem wp_pure (a : α) : wp exec (pure a : Prog Op Ans α) Q s ↔ Q a s :=
  Iff.rfl

@[simp] theorem wp_bind (p : Prog Op Ans α) (f : α → Prog Op Ans β) (Q : β → σ → Prop) :
    wp exec (p >>= f) Q s ↔ wp exec p (fun a => wp exec (f a) Q) s := by
  rw [wp, run_bind, Res.sat_bind]
  rfl

@[simp] theorem wp_perform (o : Op) (Q : Ans o → σ → Prop) :
    wp exec (perform o : Prog Op Ans _) Q s ↔ (exec o s).Sat fun r => Q r.1 r.2 := by
  rw [wp, run_perform]

@[simp] theorem wp_ite (c : Prop) [Decidable c] (p q : Prog Op Ans α) :
    wp exec (if c then p else q) Q s ↔ (c → wp exec p Q s) ∧ (¬c → wp exec q Q s) := by
  split <;> simp_all

theorem wp_mono {p : Prog Op Ans α} {Q' : α → σ → Prop} (h : wp exec p Q s)
    (hQ : ∀ a s', Q a s' → Q' a s') : wp exec p Q' s :=
  h.mono fun r => hQ r.1 r.2

theorem post_of_run {p : Prog Op Ans α} {a : α} {s' : σ} (h : wp exec p Q s)
    (hr : run exec p s = .ok (a, s')) : Q a s' :=
  h.of_ok hr

/-! ## Runs that return -/

/-- The run of `p` from `s` returns, and satisfies `Q`. -/
def twp (exec : Sem Op Ans σ) (p : Prog Op Ans α) (Q : α → σ → Prop) (s : σ) : Prop :=
  ∃ a s', run exec p s = .ok (a, s') ∧ Q a s'

@[simp] theorem twp_ret (a : α) : twp exec (ret a : Prog Op Ans α) Q s ↔ Q a s := by
  simp [twp]

@[simp] theorem twp_pure (a : α) : twp exec (pure a : Prog Op Ans α) Q s ↔ Q a s :=
  twp_ret a

@[simp] theorem twp_bind (p : Prog Op Ans α) (f : α → Prog Op Ans β) (Q : β → σ → Prop) :
    twp exec (p >>= f) Q s ↔ twp exec p (fun a => twp exec (f a) Q) s := by
  simp only [twp, run_bind, Res.bind_eq_ok]
  constructor
  · rintro ⟨b, s'', ⟨⟨a, s'⟩, hp, hf⟩, hQ⟩
    exact ⟨a, s', hp, b, s'', hf, hQ⟩
  · rintro ⟨a, s', hp, b, s'', hf, hQ⟩
    exact ⟨b, s'', ⟨(a, s'), hp, hf⟩, hQ⟩

theorem twp_perform (o : Op) (Q : Ans o → σ → Prop) :
    twp exec (perform o : Prog Op Ans _) Q s ↔ ∃ a s', exec o s = .ok (a, s') ∧ Q a s' := by
  rw [twp, run_perform]

@[simp] theorem twp_ite (c : Prop) [Decidable c] (p q : Prog Op Ans α) :
    twp exec (if c then p else q) Q s ↔ (c → twp exec p Q s) ∧ (¬c → twp exec q Q s) := by
  split <;> simp_all

theorem twp_mono {p : Prog Op Ans α} {Q' : α → σ → Prop} (h : twp exec p Q s)
    (hQ : ∀ a s', Q a s' → Q' a s') : twp exec p Q' s := by
  obtain ⟨a, s', hr, hq⟩ := h
  exact ⟨a, s', hr, hQ a s' hq⟩

/-! ## The operations of a program -/

/-- Every operation that the program can come to satisfies `P`. -/
def Only (P : Op → Prop) : Prog Op Ans α → Prop
  | ret _ => True
  | op o k => P o ∧ ∀ r, Only P (k r)

section Only

variable {P : Op → Prop}

@[simp] theorem only_pure (a : α) : Only P (pure a : Prog Op Ans α) :=
  trivial

@[simp] theorem only_perform (o : Op) : Only P (perform o : Prog Op Ans _) ↔ P o :=
  and_iff_left fun _ => trivial

theorem Only.mono {P' : Op → Prop} {p : Prog Op Ans α} (h : Only P p) (hP : ∀ o, P o → P' o) :
    Only P' p := by
  induction p with
  | ret a => trivial
  | op o k ih => exact ⟨hP o h.1, fun r => ih r (h.2 r)⟩

theorem Only.bind {p : Prog Op Ans α} {f : α → Prog Op Ans β} (h : Only P p)
    (hf : ∀ a, Only P (f a)) : Only P (p >>= f) := by
  induction p with
  | ret a => exact hf a
  | op o k ih => exact ⟨h.1, fun r => ih r (h.2 r)⟩

theorem Only.ite {c : Prop} [Decidable c] {p q : Prog Op Ans α} (hp : Only P p) (hq : Only P q) :
    Only P (if c then p else q) := by
  split
  · exact hp
  · exact hq

/-- A program of operations that neither wait nor end the process returns, if its run is
never undefined. -/
theorem Only.twp {p : Prog Op Ans α} (h : Only P p)
    (hP : ∀ o s, P o → exec o s ≠ .blocked ∧ exec o s ≠ .halt) (hs : wp exec p Q s) :
    twp exec p Q s := by
  induction p generalizing s with
  | ret a => exact (twp_ret a).2 hs
  | op o k ih =>
    obtain ⟨hblocked, hhalt⟩ := hP o s h.1
    rw [wp, run_op] at hs
    rw [Prog.twp, run_op]
    cases he : exec o s with
    | ok r =>
      rw [he] at hs
      exact ih r.1 (h.2 r.1) hs
    | blocked => exact absurd he hblocked
    | halt => exact absurd he hhalt
    | fault =>
      rw [he] at hs
      exact hs.elim

end Only

/-! ## Notes of what has been done -/

section Along

variable {ν : Type*} {note : ν → (o : Op) → Ans o → ν} {can : ν → (o : Op) → Ans o → Prop}
  {P : ν → Op → Prop} {n : ν}

/-- Whatever the answers are that it can get, each operation that the program comes to satisfies `P`
of the notes of those before it, and its result satisfies `Q` of all of them. -/
def Along (note : ν → (o : Op) → Ans o → ν) (can : ν → (o : Op) → Ans o → Prop)
    (P : ν → Op → Prop) : Prog Op Ans α → (α → ν → Prop) → ν → Prop
  | ret a, Q, n => Q a n
  | op o k, Q, n => P n o ∧ ∀ r, can n o r → Along note can P (k r) Q (note n o r)

@[simp] theorem along_pure (a : α) (Q : α → ν → Prop) :
    Along note can P (pure a : Prog Op Ans α) Q n ↔ Q a n :=
  Iff.rfl

@[simp] theorem along_bind (p : Prog Op Ans α) (f : α → Prog Op Ans β) (Q : β → ν → Prop) :
    Along note can P (p >>= f) Q n ↔ Along note can P p (fun a => Along note can P (f a) Q) n := by
  induction p generalizing n with
  | ret a => rfl
  | op o k ih => exact and_congr_right fun _ => forall₂_congr fun r _ => ih r

theorem Along.ite {c : Prop} [Decidable c] {p q : Prog Op Ans α} {Q : α → ν → Prop}
    (hp : Along note can P p Q n) (hq : Along note can P q Q n) :
    Along note can P (if c then p else q) Q n := by
  split
  · exact hp
  · exact hq

theorem Along.mono {p : Prog Op Ans α} {Q Q' : α → ν → Prop} (h : Along note can P p Q n)
    (hQ : ∀ a n, Q a n → Q' a n) : Along note can P p Q' n := by
  induction p generalizing n with
  | ret a => exact hQ a n h
  | op o k ih => exact ⟨h.1, fun r hr => ih r (h.2 r hr)⟩

/-- Operations that leave the notes as they are. -/
theorem Only.along {P' : Op → Prop} {p : Prog Op Ans α} {Q : α → ν → Prop} (hp : Only P' p)
    (hP : ∀ o, P' o → P n o ∧ ∀ r, note n o r = n) (hQ : ∀ a, Q a n) :
    Along note can P p Q n := by
  induction p with
  | ret a => exact hQ a
  | op o k ih =>
    obtain ⟨ho, hnote⟩ := hP o hp.1
    refine ⟨ho, fun r _ => ?_⟩
    rw [hnote r]
    exact ih r (hp.2 r)

end Along

/-! ## Two runs -/

end Prog

/-- Two outcomes with the same answer and related states, or both without. -/
inductive Res.Agree {α : Type u} {σ : Type s} (R : σ → σ → Prop) : Res (α × σ) → Res (α × σ) → Prop
  | ok {a : α} {s t : σ} (h : R s t) : Agree R (.ok (a, s)) (.ok (a, t))
  | blocked : Agree R .blocked .blocked
  | halt : Agree R .halt .halt
  | fault : Agree R .fault .fault

theorem Res.Agree.eq_ok {α : Type u} {σ : Type s} {R : σ → σ → Prop} {r r' : Res (α × σ)}
    {a : α} {s : σ}
    (h : Res.Agree R r r') (hr : r = .ok (a, s)) : ∃ t, r' = .ok (a, t) ∧ R s t := by
  cases h with
  | ok h =>
    cases hr
    exact ⟨_, rfl, h⟩
  | blocked | halt | fault => cases hr

namespace Prog

variable {Op : Type u} {Ans : Op → Type v} {α β : Type w} {σ : Type s} {exec : Sem Op Ans σ}
  {Q : α → σ → Prop} {s t : σ}

/-- If no operation of a program tells related states apart, the program does not. -/
theorem Only.agree {P : Op → Prop} {R : σ → σ → Prop} {p : Prog Op Ans α} (h : Only P p)
    (hP : ∀ o s t, P o → R s t → Res.Agree R (exec o s) (exec o t)) (hst : R s t) :
    Res.Agree R (run exec p s) (run exec p t) := by
  induction p generalizing s t with
  | ret a => exact .ok hst
  | op o k ih =>
    have hagree := hP o s t h.1 hst
    rw [run_op, run_op]
    generalize exec o s = r at hagree
    generalize exec o t = r' at hagree
    cases hagree with
    | ok hst => exact ih _ (h.2 _) hst
    | blocked => exact .blocked
    | halt => exact .halt
    | fault => exact .fault

/-! ## Checked runs -/

/-- `exec`, undefined where `guard` does not hold. -/
def checked (guard : Op → σ → Prop) [∀ o s, Decidable (guard o s)] (exec : Sem Op Ans σ) :
    Sem Op Ans σ :=
  fun o s => if guard o s then exec o s else .fault

variable {guard : Op → σ → Prop} [∀ o s, Decidable (guard o s)]

theorem checked_sat {o : Op} {Q : Ans o × σ → Prop} :
    (checked guard exec o s).Sat Q ↔ guard o s ∧ (exec o s).Sat Q := by
  unfold checked
  split <;> simp_all

/-- A checked run that is not undefined is the run. -/
theorem run_checked (p : Prog Op Ans α) (s : σ) (h : run (checked guard exec) p s ≠ .fault) :
    run (checked guard exec) p s = run exec p s := by
  induction p generalizing s with
  | ret a => rfl
  | op o k ih =>
    simp only [run_op] at h ⊢
    by_cases hg : guard o s
    · simp only [checked, if_pos hg] at h ⊢
      cases he : exec o s with
      | ok r =>
        rw [he] at h
        exact ih _ _ h
      | blocked | halt | fault => rfl
    · simp [checked, hg] at h

theorem wp_of_checked {p : Prog Op Ans α} (h : wp (checked guard exec) p Q s) :
    wp exec p Q s := by
  unfold wp at h ⊢
  rwa [← run_checked p s h.ne_fault]

end Prog

end Programs
