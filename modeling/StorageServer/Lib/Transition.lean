import Mathlib.Algebra.Ring.Int.Defs
import Mathlib.Algebra.Ring.Nat
import Mathlib.Tactic.Common

/-!
# Transition systems

A `System` has states, labels for its steps, initial states and a step relation. A `Run`
is a list of labels, the last step first, with the state it leads to. What holds of the
initial states and is preserved by every step holds in every run (`Run.induction`); what
is only preserved by some steps holds in the runs of the system restricted to them
(`System.restrict`). A simulation carries runs of one system over to another
(`Run.simulate`). If no sequence of steps goes on for ever and the steps end in no other states, a
condition is met whichever steps are taken (`inevitably_of_acc`). A run can be computed where each
step can (`Computes.exists_run`).
-/

namespace Transitions

universe u v w

/-- A labelled transition system. -/
structure System (σ : Type u) (ι : Type v) where
  init : σ → Prop
  step : σ → ι → σ → Prop

variable {σ : Type u} {τ : Type w} {ι : Type v}

/-- The runs of a system. -/
inductive Run (S : System σ ι) : List ι → σ → Prop
  | start {s} (h : S.init s) : Run S [] s
  | step {tr s a s'} (h : Run S tr s) (hs : S.step s a s') : Run S (a :: tr) s'

/-- The system with those steps only that satisfy a condition on the state before them. -/
def System.restrict (S : System σ ι) (c : σ → ι → Prop) : System σ ι where
  init := S.init
  step s a s' := c s a ∧ S.step s a s'

/-- The system with a record of its steps, which no step depends on. -/
def System.ghost {γ : Type*} (S : System σ ι) (g₀ : γ) (next : γ → σ → ι → γ) :
    System (σ × γ) ι where
  init x := S.init x.1 ∧ x.2 = g₀
  step x a x' := S.step x.1 a x'.1 ∧ x'.2 = next x.2 x.1 a

variable {S : System σ ι} {T : System τ ι} {tr : List ι} {s : σ}

/-- What every step preserves holds in every run. -/
theorem Run.induction {I : List ι → σ → Prop} (h : Run S tr s) (hinit : ∀ s, S.init s → I [] s)
    (hstep : ∀ tr s a s', Run S tr s → I tr s → S.step s a s' → I (a :: tr) s') : I tr s := by
  induction h with
  | start h => exact hinit _ h
  | step h hs ih => exact hstep _ _ _ _ h ih hs

/-- A run of the restricted system is a run. -/
theorem Run.of_restrict {c : σ → ι → Prop} (h : Run (S.restrict c) tr s) : Run S tr s := by
  induction h with
  | start h => exact .start h
  | step _ hs ih => exact .step ih hs.2

theorem Run.restrict_mono {c c' : σ → ι → Prop} (h : Run (S.restrict c) tr s)
    (hc : ∀ s a, c s a → c' s a) : Run (S.restrict c') tr s := by
  induction h with
  | start h => exact .start h
  | step _ hs ih => exact .step ih ⟨hc _ _ hs.1, hs.2⟩

/-- A relation that every step preserves carries runs over, with the same labels. -/
theorem Run.simulate {R : σ → τ → Prop} (h : Run S tr s)
    (hinit : ∀ s, S.init s → ∃ t, T.init t ∧ R s t)
    (hstep : ∀ s a s' t, R s t → S.step s a s' → ∃ t', T.step t a t' ∧ R s' t') :
    ∃ t, Run T tr t ∧ R s t := by
  induction h with
  | start h =>
    obtain ⟨t, ht, hr⟩ := hinit _ h
    exact ⟨t, .start ht, hr⟩
  | step _ hs ih =>
    obtain ⟨t, ht, hr⟩ := ih
    obtain ⟨t', ht', hr'⟩ := hstep _ _ _ _ hr hs
    exact ⟨t', .step ht ht', hr'⟩

/-- Whichever steps are taken, after finitely many of them the state satisfies `P`. -/
inductive Inevitably (R : σ → σ → Prop) (P : σ → Prop) : σ → Prop
  | now {s : σ} (h : P s) : Inevitably R P s
  | later {s : σ} (h : ∃ s', R s s') (hall : ∀ s', R s s' → Inevitably R P s') : Inevitably R P s

/-- The induction is on the steps that are left. -/
theorem inevitably_of_acc {R : σ → σ → Prop} {I P : σ → Prop}
    (hacc : Acc (fun s' s => R s s') s) (h : I s) (hkeeps : ∀ s s', I s → R s s' → I s')
    (hstep : ∀ s, I s → P s ∨ ∃ s', R s s') : Inevitably R P s := by
  induction hacc with
  | intro s _ ih =>
    rcases hstep s h with hs | hs
    · exact .now hs
    · exact .later hs fun s' hs' => ih s' hs' (hkeeps s s' h hs')

/-- A run with a record is a run. -/
theorem Run.of_ghost {γ : Type*} {g₀ : γ} {next : γ → σ → ι → γ} {x : σ × γ}
    (h : Run (S.ghost g₀ next) tr x) : Run S tr x.1 := by
  induction h with
  | start h => exact .start h.1
  | step _ hs ih => exact .step ih hs.1

/-- A run with a record, whose steps satisfy a condition that does not look at it, is a run whose
steps satisfy the condition. -/
theorem Run.of_ghost_restrict {γ : Type*} {g₀ : γ} {next : γ → σ → ι → γ} {c : σ → ι → Prop}
    {x : σ × γ} (h : Run ((S.ghost g₀ next).restrict fun x a => c x.1 a) tr x) :
    Run (S.restrict c) tr x.1 := by
  induction h with
  | start h => exact .start h.1
  | step _ hs ih => exact .step ih ⟨hs.1, hs.2.1⟩

/-- Every run has a record. -/
theorem Run.ghost {γ : Type*} (h : Run S tr s) (g₀ : γ) (next : γ → σ → ι → γ) :
    ∃ c, Run (S.ghost g₀ next) tr (s, c) := by
  induction h with
  | start h => exact ⟨g₀, .start ⟨h, rfl⟩⟩
  | step _ hs ih =>
    obtain ⟨c, hc⟩ := ih
    exact ⟨_, .step hc ⟨hs, rfl⟩⟩

/-! ## Replays -/

section Replay

variable {α : Type*} {next : σ → α → Option (ι × σ)}

/-- The computed step of the system with those steps only that satisfy a condition. -/
def checked (next : σ → α → Option (ι × σ)) (c : σ → ι → Prop) [∀ s a, Decidable (c s a)] (s : σ)
    (x : α) : Option (ι × σ) :=
  (next s x).filter fun r => c s r.1

/-- The computed step of the system with a record of its steps. -/
def recorded {γ : Type*} (next : σ → α → Option (ι × σ)) (g : γ → σ → ι → γ) (y : σ × γ) (x : α) :
    Option (ι × σ × γ) :=
  (next y.1 x).map fun r => (r.1, r.2, g y.2 y.1 r.1)

/-- Take one computed step after the other : the labels of the steps, the last first, and the
state they lead to. -/
def replay (next : σ → α → Option (ι × σ)) : List α → List ι × σ → Option (List ι × σ)
  | [], y => some y
  | x :: xs, y => (next y.2 x).bind fun r => replay next xs (r.1 :: y.1, r.2)

/-- What is computed are steps of the system. -/
def Computes (S : System σ ι) (next : σ → α → Option (ι × σ)) : Prop :=
  ∀ s x a s', next s x = some (a, s') → S.step s a s'

theorem Computes.checked (h : Computes S next) (c : σ → ι → Prop) [∀ s a, Decidable (c s a)] :
    Computes (S.restrict c) (checked next c) := by
  intro s x a s' hnext
  obtain ⟨hnext, hc⟩ := Option.filter_eq_some_iff.1 hnext
  exact ⟨of_decide_eq_true hc, h s x a s' hnext⟩

theorem Computes.recorded {γ : Type*} (h : Computes S next) (g₀ : γ) (g : γ → σ → ι → γ) :
    Computes (S.ghost g₀ g) (recorded next g) := by
  intro y x a y' hnext
  obtain ⟨⟨a, s'⟩, hcomputed, he⟩ := Option.map_eq_some_iff.1 hnext
  cases he
  exact ⟨h y.1 x a s' hcomputed, rfl⟩

/-- A replay goes on with a run. -/
theorem Computes.run (h : Computes S next) {xs : List α} {y : List ι × σ} (hrun : Run S tr s)
    (hreplay : replay next xs (tr, s) = some y) : Run S y.1 y.2 := by
  induction xs generalizing tr s with
  | nil =>
    cases hreplay
    exact hrun
  | cons x xs ih =>
    obtain ⟨⟨a, s'⟩, hnext, hreplay⟩ := Option.bind_eq_some_iff.1 hreplay
    exact ih (hrun.step (h s x a s' hnext)) hreplay

/-- There is a run with what a replay from an initial state has been computed to have. -/
theorem Computes.exists_run (h : Computes S next) (s : σ) (hinit : S.init s) (xs : List α)
    (P : List ι → σ → Prop) [∀ tr s, Decidable (P tr s)]
    (hP : ((replay next xs ([], s)).any fun y => P y.1 y.2) = true) :
    ∃ tr s', Run S tr s' ∧ P tr s' := by
  obtain ⟨y, hreplay, hy⟩ := (Option.any_eq_true _ _).1 hP
  exact ⟨y.1, y.2, h.run (.start hinit) hreplay, of_decide_eq_true hy⟩

/-- The labels of a replay have what each of its steps gives its label. -/
theorem replay_forall {Q : ι → Prop} {xs : List α}
    (hQ : ∀ x ∈ xs, ∀ s a s', next s x = some (a, s') → Q a) {y y' : List ι × σ}
    (h : replay next xs y = some y') (hy : ∀ a ∈ y.1, Q a) : ∀ a ∈ y'.1, Q a := by
  induction xs generalizing y with
  | nil =>
    cases h
    exact hy
  | cons x xs ih =>
    obtain ⟨⟨a, s'⟩, hnext, h⟩ := Option.bind_eq_some_iff.1 h
    refine ih (fun x' hx' => hQ x' (List.mem_cons_of_mem x hx')) h fun b hb => ?_
    rcases List.mem_cons.1 hb with rfl | hb
    · exact hQ x List.mem_cons_self y.2 b s' hnext
    · exact hy b hb

/-- There is a run with what a replay has been computed to have, and with what each step gives its
label. -/
theorem Computes.exists_run_forall (h : Computes S next) (s : σ) (hinit : S.init s) (xs : List α)
    {Q : ι → Prop} (hQ : ∀ x ∈ xs, ∀ s a s', next s x = some (a, s') → Q a)
    (P : List ι → σ → Prop) [∀ tr s, Decidable (P tr s)]
    (hP : ((replay next xs ([], s)).any fun y => P y.1 y.2) = true) :
    ∃ tr s', Run S tr s' ∧ (∀ a ∈ tr, Q a) ∧ P tr s' := by
  obtain ⟨y, hreplay, hy⟩ := (Option.any_eq_true _ _).1 hP
  exact ⟨y.1, y.2, h.run (.start hinit) hreplay,
    replay_forall hQ hreplay fun a ha => absurd ha List.not_mem_nil, of_decide_eq_true hy⟩

/-- The labels of a replay, if each step gives its own. -/
theorem replay_map {γ : Type*} {f : α → γ} {g : ι → γ}
    (hfg : ∀ x s a s', next s x = some (a, s') → g a = f x) {xs : List α} {y y' : List ι × σ}
    (h : replay next xs y = some y') : y'.1.map g = (xs.map f).reverse ++ y.1.map g := by
  induction xs generalizing y with
  | nil =>
    cases h
    rfl
  | cons x xs ih =>
    obtain ⟨⟨a, s'⟩, hnext, h⟩ := Option.bind_eq_some_iff.1 h
    rw [ih h, List.map_cons, List.map_cons, hfg x y.2 a s' hnext, List.reverse_cons,
      List.append_assoc, List.singleton_append]

/-- There is a run with these labels and with what a replay has been computed to have. -/
theorem Computes.exists_run_map (h : Computes S next) (s : σ) (hinit : S.init s) (xs : List α)
    {γ : Type*} {f : α → γ} {g : ι → γ} (hfg : ∀ x s a s', next s x = some (a, s') → g a = f x)
    (P : List ι → σ → Prop) [∀ tr s, Decidable (P tr s)]
    (hP : ((replay next xs ([], s)).any fun y => P y.1 y.2) = true) :
    ∃ tr s', Run S tr s' ∧ tr.map g = (xs.map f).reverse ∧ P tr s' := by
  obtain ⟨y, hreplay, hy⟩ := (Option.any_eq_true _ _).1 hP
  exact ⟨y.1, y.2, h.run (.start hinit) hreplay,
    (replay_map hfg hreplay).trans (List.append_nil _), of_decide_eq_true hy⟩

end Replay

end Transitions
