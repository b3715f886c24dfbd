import Mathlib.Algebra.BigOperators.Group.List.Basic
import Mathlib.Algebra.Ring.Int.Defs
import Mathlib.Algebra.Ring.Nat
import Mathlib.Data.List.Sort

/-!
# Selection by a running minimum

`scan` runs through a list with the least element so far and replaces it only by a
strictly smaller one, so that it ends with the first of the least elements. Taking that
element out and scanning again goes through the list in the order of the stable sort
(`insertionSort_of_scan`).

`takeWeight` is the shortest prefix of a list with at least a given total weight
(`takeWeight_shortest`).
-/

namespace Selection

variable {α κ : Type*} [LinearOrder κ] (key : α → κ)

/-! ## The running minimum -/

/-- The least element so far, after the elements still to come. -/
def scan : Option α → List α → Option α
  | least, [] => least
  | none, a :: as => scan (some a) as
  | some m, a :: as => if key a < key m then scan (some a) as else scan (some m) as

/-- `m` is the first of the least elements of `l`, between `l₁` and `l₂`. -/
structure First (l₁ : List α) (m : α) (l₂ : List α) : Prop where
  before : ∀ a ∈ l₁, key m < key a
  after : ∀ a ∈ l₂, key m ≤ key a

variable {key}

theorem first_of_scan_some {m m' : α} {as : List α} (h : scan key (some m) as = some m') :
    ∃ l₁ l₂, m :: as = l₁ ++ m' :: l₂ ∧ First key l₁ m' l₂ := by
  induction as generalizing m with
  | nil =>
    obtain rfl : m = m' := by simpa [scan] using h
    exact ⟨[], [], rfl, by simp, by simp⟩
  | cons a as ih =>
    rw [scan] at h
    split_ifs at h with hlt
    · obtain ⟨l₁, l₂, hl, hf⟩ := ih h
      refine ⟨m :: l₁, l₂, by rw [hl]; rfl, ?_, hf.after⟩
      intro b hb
      rcases List.mem_cons.1 hb with rfl | hb
      · have ha : a ∈ l₁ ++ m' :: l₂ := hl ▸ List.mem_cons_self
        rcases List.mem_append.1 ha with ha | ha
        · exact (hf.before a ha).trans hlt
        · rcases List.mem_cons.1 ha with rfl | ha
          · exact hlt
          · exact (hf.after a ha).trans_lt hlt
      · exact hf.before b hb
    · obtain ⟨l₁, l₂, hl, hf⟩ := ih h
      cases l₁ with
      | nil =>
        obtain ⟨rfl, rfl⟩ : m = m' ∧ as = l₂ := by simpa using hl
        refine ⟨[], a :: as, rfl, by simp, ?_⟩
        intro b hb
        rcases List.mem_cons.1 hb with rfl | hb
        · exact not_lt.1 hlt
        · exact hf.after b hb
      | cons b l₁ =>
        obtain ⟨rfl, rfl⟩ : m = b ∧ as = l₁ ++ m' :: l₂ := by simpa using hl
        refine ⟨m :: a :: l₁, l₂, rfl, ?_, hf.after⟩
        have hm := hf.before m List.mem_cons_self
        intro b hb
        rcases List.mem_cons.1 hb with rfl | hb
        · exact hm
        · rcases List.mem_cons.1 hb with rfl | hb
          · exact hm.trans_le (not_lt.1 hlt)
          · exact hf.before b (List.mem_cons_of_mem _ hb)

/-- A scan ends with the first of the least elements. -/
theorem first_of_scan {m : α} {l : List α} (h : scan key none l = some m) :
    ∃ l₁ l₂, l = l₁ ++ m :: l₂ ∧ First key l₁ m l₂ := by
  cases l with
  | nil => simp [scan] at h
  | cons a as => exact first_of_scan_some h

theorem scan_some_isSome (m : α) (as : List α) : (scan key (some m) as).isSome := by
  induction as generalizing m with
  | nil => rfl
  | cons a as ih =>
    rw [scan]
    split_ifs
    · exact ih a
    · exact ih m

/-- A scan finds an element unless there is none. -/
theorem scan_eq_none {l : List α} : scan key none l = none ↔ l = [] := by
  cases l with
  | nil => simp [scan]
  | cons a as =>
    have := Option.isSome_iff_ne_none.1 (@scan_some_isSome _ _ _ key a as)
    simp [scan, this]

/-! ## The order of repeated selection -/

/-- Elements by key, those with the same key in their order in the list. -/
def sorted (key : α → κ) (l : List α) : List α :=
  l.insertionSort fun a b => key a ≤ key b

theorem sorted_of_first {l₁ l₂ : List α} {m : α} (h : First key l₁ m l₂) :
    sorted key (l₁ ++ m :: l₂) = m :: sorted key (l₁ ++ l₂) := by
  induction l₁ with
  | nil => exact List.insertionSort_cons_of_forall_rel _ h.after
  | cons a l₁ ih =>
    have ih := ih ⟨fun b hb => h.before b (List.mem_cons_of_mem _ hb), h.after⟩
    have ha : ¬key a ≤ key m := not_le.2 (h.before a List.mem_cons_self)
    simp only [sorted] at ih ⊢
    rw [List.cons_append, List.insertionSort_cons, ih, List.orderedInsert_cons, if_neg ha]
    rfl

theorem mem_sorted {l : List α} {a : α} : a ∈ sorted key l ↔ a ∈ l :=
  List.mem_insertionSort _

theorem sorted_perm (l : List α) : (sorted key l).Perm l :=
  List.perm_insertionSort _ l

/-- The first element of the order is the one a scan finds. -/
theorem sorted_head? (l : List α) : (sorted key l).head? = scan key none l := by
  cases h : scan key none l with
  | none =>
    rw [scan_eq_none] at h
    simp [h, sorted]
  | some m =>
    obtain ⟨l₁, l₂, rfl, hf⟩ := first_of_scan h
    rw [sorted_of_first hf]
    rfl

theorem sorted_map {β : Type*} (f : β → α) (l : List β) :
    (sorted (key ∘ f) l).map f = sorted key (l.map f) :=
  List.map_insertionSort _ _ f l fun _ _ _ _ => Iff.rfl

/-! ## Shortest prefixes -/

/-- The shortest prefix with a total weight of at least `need`, or the whole list. -/
def takeWeight (w : α → ℕ) : ℕ → List α → List α
  | _, [] => []
  | need, a :: as => if need = 0 then [] else a :: takeWeight w (need - w a) as

variable {w : α → ℕ}

@[simp] theorem takeWeight_zero (l : List α) : takeWeight w 0 l = [] := by
  cases l <;> rfl

theorem takeWeight_isPrefix (need : ℕ) (l : List α) : takeWeight w need l <+: l := by
  induction l generalizing need with
  | nil => exact List.prefix_refl _
  | cons a as ih =>
    rw [takeWeight]
    split_ifs
    · exact List.nil_prefix
    · exact List.cons_prefix_cons.2 ⟨rfl, ih _⟩

theorem takeWeight_map {β : Type*} (f : β → α) (need : ℕ) (l : List β) :
    (takeWeight (w ∘ f) need l).map f = takeWeight w need (l.map f) := by
  induction l generalizing need with
  | nil => rfl
  | cons a as ih =>
    rw [List.map_cons, takeWeight, takeWeight]
    split_ifs
    · rfl
    · rw [List.map_cons, ih, Function.comp_apply]

theorem le_weight_takeWeight {need : ℕ} {l : List α} (h : need ≤ (l.map w).sum) :
    need ≤ ((takeWeight w need l).map w).sum := by
  induction l generalizing need with
  | nil => exact h
  | cons a as ih =>
    rw [takeWeight]
    split_ifs with h0
    · simp [h0]
    · have := @ih (need - w a) (by simp at h; omega)
      simp only [List.map_cons, List.sum_cons]
      omega

/-- A prefix with a total weight of at least `need` is no shorter. -/
theorem takeWeight_shortest {need : ℕ} {l p : List α} (hp : p <+: l)
    (h : need ≤ (p.map w).sum) : takeWeight w need l <+: p := by
  induction l generalizing need p with
  | nil => exact List.nil_prefix
  | cons a as ih =>
    rw [takeWeight]
    split_ifs with h0
    · exact List.nil_prefix
    · cases p with
      | nil => simp at h; omega
      | cons b p =>
        obtain ⟨rfl, hpas⟩ := List.cons_prefix_cons.1 hp
        simp only [List.map_cons, List.sum_cons] at h
        exact List.cons_prefix_cons.2 ⟨rfl, ih hpas (by omega)⟩

/-- `p` is the shortest prefix of `l` with a total weight of at least `need`. -/
structure Shortest (w : α → ℕ) (need : ℕ) (l p : List α) : Prop where
  isPrefix : p <+: l
  enough : need ≤ (p.map w).sum
  shortest : ∀ q, q <+: l → need ≤ (q.map w).sum → p <+: q

theorem shortest_takeWeight {need : ℕ} {l : List α} (h : need ≤ (l.map w).sum) :
    Shortest w need l (takeWeight w need l) where
  isPrefix := takeWeight_isPrefix need l
  enough := le_weight_takeWeight h
  shortest _ hq hneed := takeWeight_shortest hq hneed

theorem shortest_nil {l : List α} : Shortest w 0 l [] where
  isPrefix := List.nil_prefix
  enough := Nat.zero_le _
  shortest _ _ _ := List.nil_prefix

end Selection
