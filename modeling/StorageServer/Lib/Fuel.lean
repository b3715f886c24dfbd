import StorageServer.Lib.Prog

/-!
# Computations with fuel

A loop that need not come to an end is computed for as many rounds as its fuel allows, and is
`blocked` if it has not ended by then. More fuel changes nothing in a computation that has ended
(`Res.Le`). A computation with fuel that ends from every state, whatever fuel it takes
(`Terminates`), is composed of such computations (`Terminates.bind`), also where the second one is
only known to end on the results of the first.
-/

namespace Programs

variable {σ α β : Type}

/-! ## More fuel -/

/-- The first computation has not ended, or it is the second one. -/
def Res.Le (x y : Res α) : Prop :=
  x = .blocked ∨ x = y

namespace Res

variable {x y : Res α} {k k' : α → Res β} {a : α}

theorem Le.refl (x : Res α) : x.Le x :=
  .inr rfl

theorem Le.bind (h : x.Le y) (hk : ∀ a, (k a).Le (k' a)) : (x.bind k).Le (y.bind k') := by
  rcases h with rfl | rfl
  · exact .inl rfl
  · cases x with
    | ok a => exact hk a
    | blocked => exact .inl rfl
    | halt => exact .inr rfl
    | fault => exact .inr rfl

theorem Le.of_ok (h : x.Le y) (hx : x = .ok a) : y = .ok a := by
  rcases h with hblocked | rfl
  · rw [hx] at hblocked
    cases hblocked
  · exact hx

theorem Le.of_halt (h : x.Le y) (hx : x = .halt) : y = .halt := by
  rcases h with hblocked | rfl
  · rw [hx] at hblocked
    cases hblocked
  · exact hx

/-- The computation has returned, or has ended the process. -/
def Ended (x : Res α) : Prop :=
  x = .halt ∨ ∃ a, x = .ok a

theorem ended_ok (a : α) : (ok a).Ended :=
  .inr ⟨a, rfl⟩

theorem Ended.bind (h : x.Ended) (hk : ∀ a, (k a).Ended) : (x.bind k).Ended := by
  rcases h with rfl | ⟨a, rfl⟩
  · exact .inl rfl
  · exact hk a

theorem Ended.of_le (h : x.Ended) (hle : x.Le y) : y.Ended := by
  rcases h with hx | ⟨a, hx⟩
  · exact .inl (hle.of_halt hx)
  · exact .inr ⟨a, hle.of_ok hx⟩

end Res

/-! ## Computations that end -/

/-- From every state the computation ends if it has enough fuel, and more fuel changes nothing. -/
structure Terminates (p : ℕ → StateT σ Res α) : Prop where
  mono : ∀ {fuel fuel'} s, fuel ≤ fuel' → (p fuel s).Le (p fuel' s)
  ends : ∀ s, ∃ fuel, (p fuel s).Ended

namespace Terminates

variable {p q : ℕ → StateT σ Res α} {k : ℕ → α → StateT σ Res β}

/-- A computation without fuel. -/
theorem const {p : StateT σ Res α} (h : ∀ s, (p s).Ended) : Terminates fun _ => p where
  mono s _ := .refl (p s)
  ends s := ⟨0, h s⟩

theorem pure (a : α) : Terminates fun _ => (Pure.pure a : StateT σ Res α) :=
  const fun s => Res.ended_ok (a, s)

/-- A state that has enough fuel for both computations is one that has enough for each. -/
theorem bind (hp : Terminates p)
    (hmono : ∀ {fuel fuel'} a s, fuel ≤ fuel' → (k fuel a s).Le (k fuel' a s))
    (hk : ∀ {fuel s a s'}, p fuel s = .ok (a, s') → ∃ fuel', (k fuel' a s').Ended) :
    Terminates fun fuel => p fuel >>= k fuel where
  mono s hle := (hp.mono s hle).bind fun r => hmono r.1 r.2 hle
  ends s := by
    obtain ⟨fuel, hend⟩ := hp.ends s
    rcases hend with hhalt | ⟨⟨a, s'⟩, hok⟩
    · refine ⟨fuel, .inl ?_⟩
      change (p fuel s).bind _ = _
      rw [hhalt]
      rfl
    · obtain ⟨fuel', hend'⟩ := hk hok
      refine ⟨max fuel fuel', ?_⟩
      change ((p (max fuel fuel') s).bind fun r => k (max fuel fuel') r.1 r.2).Ended
      rw [(hp.mono s (Nat.le_max_left fuel fuel')).of_ok hok]
      exact hend'.of_le (hmono a s' (Nat.le_max_right fuel fuel'))

/-- The second computation ends on every result. -/
theorem bind_of_forall (hp : Terminates p) (hk : ∀ a, Terminates fun fuel => k fuel a) :
    Terminates fun fuel => p fuel >>= k fuel :=
  hp.bind (fun a s hle => (hk a).mono s hle) fun {_ _ a s'} _ => (hk a).ends s'

theorem ite {c : Prop} [Decidable c] (hp : Terminates p) (hq : Terminates q) :
    Terminates fun fuel => if c then p fuel else q fuel := by
  split_ifs
  · exact hp
  · exact hq

end Terminates

end Programs
