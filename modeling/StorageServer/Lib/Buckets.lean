import Mathlib.Algebra.Ring.Int.Defs
import Mathlib.Algebra.Ring.Nat
import Mathlib.Data.List.Nodup
import Mathlib.Data.List.Perm.Basic
import Mathlib.Tactic.Common

/-!
# Buckets

A table of buckets is a list of lists in which every element lies in the bucket of its
index (`Placed`). An operation on such a table works on one bucket. The lemmas here say
what it does to the elements of all buckets read in order (`List.flatten`) : appending
to a bucket adds one element, and a search or a removal whose hits all have the index of
the bucket is the search or the removal over the whole table.
-/

namespace Buckets

variable {α : Type*} {idx : α → ℕ} {p : α → Bool} {bs : List (List α)} {i : ℕ}

/-- Every element lies in the bucket of its index. -/
def Placed (idx : α → ℕ) (bs : List (List α)) : Prop :=
  ∀ i, ∀ b, bs[i]? = some b → ∀ x ∈ b, idx x = i

/-- The bucket of index `i`, empty past the end. -/
def bucket (bs : List (List α)) (i : ℕ) : List α :=
  bs[i]?.getD []

/-- Append an element to the bucket of its index. -/
def push (idx : α → ℕ) (bs : List (List α)) (x : α) : List (List α) :=
  bs.modify (idx x) (· ++ [x])

@[simp]
theorem length_push (x : α) : (push idx bs x).length = bs.length :=
  List.length_modify ..

theorem split_at (hi : i < bs.length) :
    bs.flatten = (bs.take i).flatten ++ bucket bs i ++ (bs.drop (i + 1)).flatten := by
  have h : bs.take i ++ bs[i] :: bs.drop (i + 1) = bs := by
    rw [List.getElem_cons_drop, List.take_append_drop]
  conv_lhs => rw [← h]
  simp only [List.flatten_append, List.flatten_cons, bucket, List.getElem?_eq_getElem hi,
    Option.getD_some, List.append_assoc]

theorem flatten_modify (f : List α → List α) (hi : i < bs.length) :
    (bs.modify i f).flatten =
      (bs.take i).flatten ++ f (bucket bs i) ++ (bs.drop (i + 1)).flatten := by
  rw [List.modify_eq_take_cons_drop hi]
  simp [bucket, hi]

/-- Appending an element to a bucket adds it to the table. -/
theorem flatten_push_perm (hi : i < bs.length) (x : α) :
    (bs.modify i (· ++ [x])).flatten.Perm (bs.flatten ++ [x]) := by
  rw [flatten_modify _ hi, split_at hi]
  simp only [List.append_assoc]
  exact ((List.perm_append_comm).append_left _).append_left _

@[simp]
theorem length_foldl_push (xs : List α) : (xs.foldl (push idx) bs).length = bs.length := by
  induction xs generalizing bs with
  | nil => rfl
  | cons x xs ih => rw [List.foldl_cons, ih, length_push]

/-- Appending elements to the buckets of their indices adds them to the table. -/
theorem flatten_foldl_push_perm (h : ∀ x, idx x < bs.length) (xs : List α) :
    (xs.foldl (push idx) bs).flatten.Perm (bs.flatten ++ xs) := by
  induction xs generalizing bs with
  | nil => rw [List.foldl_nil, List.append_nil]
  | cons x xs ih =>
    have hpushed : ∀ y, idx y < (push idx bs x).length := fun y => by rw [length_push]; exact h y
    have hperm := (ih hpushed).trans ((flatten_push_perm (h x) x).append_right xs)
    rwa [List.append_assoc] at hperm

theorem Placed.mem_bucket (h : Placed idx bs) {x : α} (hx : x ∈ bs.flatten) :
    x ∈ bucket bs (idx x) := by
  obtain ⟨b, hb, hxb⟩ := List.mem_flatten.1 hx
  obtain ⟨i, hi, rfl⟩ := List.getElem_of_mem hb
  rw [h i bs[i] (List.getElem?_eq_getElem hi) x hxb]
  simpa [bucket, hi] using hxb

theorem mem_flatten_of_mem_bucket {x : α} (hx : x ∈ bucket bs i) : x ∈ bs.flatten := by
  unfold bucket at hx
  cases hb : bs[i]? with
  | none => simp [hb] at hx
  | some b =>
    rw [hb] at hx
    exact List.mem_flatten_of_mem (List.mem_of_getElem? hb) hx

/-- An element is hit outside the bucket of index `i` only if some hit has another index. -/
theorem Placed.not_hit_of_ne (h : Placed idx bs) (hp : ∀ x ∈ bs.flatten, p x = true → idx x = i)
    {j : ℕ} (hj : j < bs.length) (hne : j ≠ i) {x : α} (hx : x ∈ bs[j]) : p x = false := by
  by_contra hpx
  have hpx : p x = true := by simpa using hpx
  have hxf : x ∈ bs.flatten := List.mem_flatten_of_mem (List.getElem_mem hj) hx
  have := h j bs[j] (List.getElem?_eq_getElem hj) x hx
  exact hne (this.symm.trans (hp x hxf hpx))

theorem Placed.not_hit_take (h : Placed idx bs) (hp : ∀ x ∈ bs.flatten, p x = true → idx x = i)
    {x : α} (hx : x ∈ (bs.take i).flatten) : p x = false := by
  obtain ⟨b, hb, hxb⟩ := List.mem_flatten.1 hx
  obtain ⟨j, hj, rfl⟩ := List.getElem_of_mem hb
  simp only [List.length_take] at hj
  rw [List.getElem_take] at hxb
  exact h.not_hit_of_ne hp (by omega) (by omega) hxb

theorem Placed.not_hit_drop (h : Placed idx bs) (hp : ∀ x ∈ bs.flatten, p x = true → idx x = i)
    {x : α} (hx : x ∈ (bs.drop (i + 1)).flatten) : p x = false := by
  obtain ⟨b, hb, hxb⟩ := List.mem_flatten.1 hx
  obtain ⟨j, hj, rfl⟩ := List.getElem_of_mem hb
  simp only [List.length_drop] at hj
  rw [List.getElem_drop] at hxb
  exact h.not_hit_of_ne hp (by omega) (by omega) hxb

/-- A search in the bucket that holds all hits is the search in the table. -/
theorem Placed.find?_bucket (h : Placed idx bs)
    (hp : ∀ x ∈ bs.flatten, p x = true → idx x = i) :
    (bucket bs i).find? p = bs.flatten.find? p := by
  rcases Nat.lt_or_ge i bs.length with hi | hi
  · have htake : (bs.take i).flatten.find? p = none :=
      List.find?_eq_none.2 fun x hx => by simp [h.not_hit_take hp hx]
    have hdrop : (bs.drop (i + 1)).flatten.find? p = none :=
      List.find?_eq_none.2 fun x hx => by simp [h.not_hit_drop hp hx]
    rw [split_at hi, List.find?_append, List.find?_append, htake, hdrop]
    simp
  · have hb : bucket bs i = [] := by simp [bucket, hi]
    rw [hb, List.find?_nil, eq_comm, List.find?_eq_none]
    intro x hx hpx
    have hxb := h.mem_bucket hx
    rw [hp x hx hpx, hb] at hxb
    simp at hxb

/-- The hits of a table are those of the bucket that holds all of them. -/
theorem Placed.filter_bucket (h : Placed idx bs) (hp : ∀ x, p x = true → idx x = i) :
    bs.flatten.filter p = (bucket bs i).filter p := by
  rcases Nat.lt_or_ge i bs.length with hi | hi
  · have htake : (bs.take i).flatten.filter p = [] :=
      List.filter_eq_nil_iff.2 fun x hx => by simp [h.not_hit_take (fun y _ => hp y) hx]
    have hdrop : (bs.drop (i + 1)).flatten.filter p = [] :=
      List.filter_eq_nil_iff.2 fun x hx => by simp [h.not_hit_drop (fun y _ => hp y) hx]
    rw [split_at hi, List.filter_append, List.filter_append, htake, hdrop, List.nil_append,
      List.append_nil]
  · have hb : bucket bs i = [] := by simp [bucket, hi]
    rw [hb, List.filter_nil, List.filter_eq_nil_iff]
    intro x hx hpx
    have hxb := h.mem_bucket hx
    rw [hp x hpx, hb] at hxb
    exact List.not_mem_nil hxb

theorem bucket_push (hi : i < bs.length) (x : α) :
    bucket (push idx bs x) i = bucket bs i ++ if idx x = i then [x] else [] := by
  rw [bucket, push, bucket, List.getElem?_eq_getElem hi]
  split_ifs with hx
  · rw [hx, List.getElem?_modify_eq, List.getElem?_eq_getElem hi]
    rfl
  · rw [List.getElem?_modify_ne _ _ hx, List.getElem?_eq_getElem hi, List.append_nil]

/-- A removal in the bucket that holds all hits is the removal in the table. -/
theorem Placed.flatten_eraseP (h : Placed idx bs)
    (hp : ∀ x ∈ bs.flatten, p x = true → idx x = i) (hi : i < bs.length) :
    (bs.modify i (·.eraseP p)).flatten = bs.flatten.eraseP p := by
  have htake : ∀ x ∈ (bs.take i).flatten, ¬p x = true := fun x hx => by
    simp [h.not_hit_take hp hx]
  have hdrop : ∀ x ∈ (bs.drop (i + 1)).flatten, ¬p x = true := fun x hx => by
    simp [h.not_hit_drop hp hx]
  rw [flatten_modify _ hi, split_at hi, List.append_assoc, List.append_assoc,
    List.eraseP_append_right _ htake]
  by_cases hb : ∃ x ∈ bucket bs i, p x = true
  · obtain ⟨x, hx, hpx⟩ := hb
    rw [List.eraseP_append_left hpx _ hx]
  · have hb : ∀ x ∈ bucket bs i, ¬p x = true := fun x hx hpx => hb ⟨x, hx, hpx⟩
    rw [List.eraseP_append_right _ hb, List.eraseP_of_forall_not hb,
      List.eraseP_of_forall_not hdrop]

theorem placed_replicate_nil (idx : α → ℕ) (n : ℕ) : Placed idx (List.replicate n []) := by
  intro i b hb x hx
  rw [List.eq_of_mem_replicate (List.mem_of_getElem? hb)] at hx
  simp at hx

/-- Appending an element to the bucket of its index keeps all elements placed. -/
theorem Placed.push (h : Placed idx bs) (x : α) : Placed idx (Buckets.push idx bs x) := by
  intro i b hb y hy
  rw [Buckets.push] at hb
  by_cases hi : idx x = i
  · subst hi
    rw [List.getElem?_modify_eq] at hb
    obtain ⟨b', hb', rfl⟩ := Option.map_eq_some_iff.1 hb
    rcases List.mem_append.1 hy with hy | hy
    · exact h _ _ hb' y hy
    · rw [List.mem_singleton.1 hy]
  · rw [List.getElem?_modify_ne _ _ hi] at hb
    exact h i b hb y hy

/-- Elements that are appended to a table come behind its own among the hits of a bucket. -/
theorem Placed.filter_push (h : Placed idx bs) (hp : ∀ x, p x = true → idx x = i)
    (hi : i < bs.length) (x : α) :
    (Buckets.push idx bs x).flatten.filter p = bs.flatten.filter p ++ [x].filter p := by
  rw [h.filter_bucket hp, (h.push x).filter_bucket hp, bucket_push hi, List.filter_append]
  split_ifs with hx
  · rfl
  · rw [List.filter_cons_of_neg fun hpx => hx (hp x hpx)]

theorem Placed.filter_foldl_push (h : Placed idx bs) (hp : ∀ x, p x = true → idx x = i)
    (hi : i < bs.length) (xs : List α) :
    (xs.foldl (Buckets.push idx) bs).flatten.filter p = bs.flatten.filter p ++ xs.filter p := by
  induction xs generalizing bs with
  | nil => rw [List.foldl_nil, List.filter_nil, List.append_nil]
  | cons x xs ih =>
    rw [List.foldl_cons, ih (h.push x) (by rwa [length_push]), h.filter_push hp hi,
      List.append_assoc, ← List.filter_append]
    rfl

theorem Placed.eraseP (h : Placed idx bs) (i : ℕ) (p : α → Bool) :
    Placed idx (bs.modify i (·.eraseP p)) := by
  intro j b hb y hy
  by_cases hij : i = j
  · subst hij
    rw [List.getElem?_modify_eq] at hb
    obtain ⟨b', hb', rfl⟩ := Option.map_eq_some_iff.1 hb
    exact h _ _ hb' y (List.mem_of_mem_eraseP hy)
  · rw [List.getElem?_modify_ne _ _ hij] at hb
    exact h j b hb y hy

end Buckets
