import Mathlib.Algebra.Ring.Int.Defs
import Mathlib.Algebra.Ring.Nat
import Mathlib.Data.Fintype.Card
import Mathlib.Tactic.Common

/-!
# Threads and mutexes

Each thread is at a point of its control. A mutex is owned by the thread whose control says so
(`Owned`), so a step of one thread keeps, acquires or releases it, and the threads at the points of
a kind are counted (`count`), so a step of one thread leaves their number or changes it by one.
-/

open Function

namespace Threads

variable {T C : Type*} [DecidableEq T]

/-! ## Mutexes -/

/-- The owner of a mutex is the thread whose control says that it owns it. -/
def Owned (owns : C → Bool) (pc : T → C) (mtx : Option T) : Prop :=
  ∀ t, owns (pc t) = true ↔ mtx = some t

section Owned

variable {owns : C → Bool} {pc : T → C} {mtx : Option T} {t u : T} {c : C}

omit [DecidableEq T] in
theorem Owned.unique (h : Owned owns pc mtx) (ht : owns (pc t) = true)
    (hu : owns (pc u) = true) : t = u :=
  Option.some.inj (((h t).1 ht).symm.trans ((h u).1 hu))

/-- A step that does not concern the mutex. -/
theorem Owned.keep (h : Owned owns pc mtx) (hc : owns c = owns (pc t)) :
    Owned owns (update pc t c) mtx := by
  intro u
  by_cases hu : u = t
  · rw [hu, update_self, hc]
    exact h t
  · rw [update_of_ne hu]
    exact h u

/-- A step that locks the mutex. -/
theorem Owned.acquire (h : Owned owns pc none) (hc : owns c = true) :
    Owned owns (update pc t c) (some t) := by
  intro u
  by_cases hu : u = t
  · rw [hu, update_self]
    exact ⟨fun _ => rfl, fun _ => hc⟩
  · rw [update_of_ne hu, h u]
    exact ⟨nofun, fun heq => absurd (Option.some.inj heq).symm hu⟩

/-- A step that unlocks it. -/
theorem Owned.release (h : Owned owns pc mtx) (ht : owns (pc t) = true) (hc : owns c = false) :
    Owned owns (update pc t c) none := by
  intro u
  by_cases hu : u = t
  · rw [hu, update_self, hc]
    exact ⟨nofun, nofun⟩
  · rw [update_of_ne hu]
    exact ⟨fun hown => absurd (h.unique hown ht) hu, nofun⟩

end Owned

/-! ## Counts -/

section Count

variable [Fintype T] {p : C → Bool} {pc : T → C} {t u : T} {c : C}

/-- The number of threads at the points of a kind. -/
def count (p : C → Bool) (pc : T → C) : ℕ :=
  (Finset.univ.filter fun t => p (pc t) = true).card

omit [DecidableEq T] in
theorem count_le_card (p : C → Bool) (pc : T → C) : count p pc ≤ Fintype.card T :=
  Finset.card_le_univ _

omit [DecidableEq T] in
theorem count_pos_iff : 0 < count p pc ↔ ∃ t, p (pc t) = true := by
  simp [count, Finset.card_pos, Finset.Nonempty]

omit [DecidableEq T] in
theorem count_eq_zero (h : ∀ t, p (pc t) = false) : count p pc = 0 := by
  simp [count, h]

theorem count_keep (hc : p c = p (pc t)) : count p (update pc t c) = count p pc := by
  unfold count
  congr 1
  ext u
  by_cases hu : u = t
  · simp [hu, hc]
  · simp [update_of_ne hu]

theorem count_gain (ht : p (pc t) = false) (hc : p c = true) :
    count p (update pc t c) = count p pc + 1 := by
  have hset : (Finset.univ.filter fun u => p (update pc t c u) = true) =
      insert t (Finset.univ.filter fun u => p (pc u) = true) := by
    ext u
    by_cases hu : u = t
    · simp [hu, hc]
    · simp [hu]
  unfold count
  rw [hset, Finset.card_insert_of_notMem (by simp [ht])]

theorem count_lose (ht : p (pc t) = true) (hc : p c = false) :
    count p (update pc t c) + 1 = count p pc := by
  have hback : update (update pc t c) t (pc t) = pc := by rw [update_idem, update_eq_self]
  have hself : p (update pc t c t) = false := by rw [update_self, hc]
  rw [← hback, count_gain hself ht, hback]

end Count

end Threads
