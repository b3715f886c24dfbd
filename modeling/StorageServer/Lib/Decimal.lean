import Mathlib.Algebra.BigOperators.Group.List.Basic
import Mathlib.Algebra.Ring.Int.Defs
import Mathlib.Algebra.Ring.Nat
import Mathlib.Data.List.TakeWhile
import Mathlib.Tactic.Common

/-!
# Decimal numbers in a text

A number at the start of a text stands behind white space and a sign, and before whatever else
there is (`lex`). A numeral is a text of digits only, and the number in it is all of it
(`lex_of_numeral`). The digits end where the text does not go on with one (`lex_append_rest`).
-/

namespace Decimal

/-- White space. -/
def isSpace (b : UInt8) : Bool :=
  b = 32 ∨ 9 ≤ b ∧ b ≤ 13

/-- A decimal digit. -/
def isDigit (b : UInt8) : Bool :=
  48 ≤ b ∧ b ≤ 57

/-- A plus or a minus. -/
def isSign (b : UInt8) : Bool :=
  b = 43 ∨ b = 45

/-- The number with these digits. -/
def ofDigits (digits : List UInt8) : ℕ :=
  digits.foldl (fun n b => 10 * n + (b.toNat - 48)) 0

/-- A text of one digit or more. -/
structure Numeral (s : List UInt8) : Prop where
  ne_nil : s ≠ []
  digits : ∀ b ∈ s, isDigit b = true

/-- The parts of a text that may start with a number. -/
structure Lexeme where
  space : List UInt8
  sign : Option UInt8
  digits : List UInt8
  rest : List UInt8
  deriving DecidableEq, Repr

/-- The number in the text. -/
def Lexeme.value (x : Lexeme) : ℤ :=
  if x.sign = some 45 then -(ofDigits x.digits : ℤ) else ofDigits x.digits

/-- Whether there is nothing but white space. -/
def Lexeme.Blank (x : Lexeme) : Prop :=
  x.sign = none ∧ x.digits = [] ∧ x.rest = []

instance (x : Lexeme) : Decidable x.Blank :=
  inferInstanceAs (Decidable (_ ∧ _ ∧ _))

/-- The sign of a text, if it starts with one. -/
def signOf (s : List UInt8) : Option UInt8 :=
  s.head?.filter isSign

/-- Split a text. -/
def lex (s : List UInt8) : Lexeme :=
  let t := s.dropWhile isSpace
  let u := t.drop (signOf t).toList.length
  ⟨s.takeWhile isSpace, signOf t, u.takeWhile isDigit, u.dropWhile isDigit⟩

/-- A text that does not go on with such a byte. -/
def Stops (p : UInt8 → Bool) (s : List UInt8) : Prop :=
  ∀ b ∈ s.head?, p b = false

theorem stops_dropWhile (p : UInt8 → Bool) (s : List UInt8) : Stops p (s.dropWhile p) := by
  intro b hb
  have hnot := List.head?_dropWhile_not p s
  rw [Option.mem_def.1 hb] at hnot
  simpa using hnot

/-- The part of a text up to where it stops. -/
theorem span_append {p : UInt8 → Bool} {s rest : List UInt8} (hs : ∀ b ∈ s, p b = true)
    (hrest : Stops p rest) : (s ++ rest).takeWhile p = s ∧ (s ++ rest).dropWhile p = rest := by
  rw [List.takeWhile_append_of_pos hs, List.dropWhile_append_of_pos hs]
  cases rest with
  | nil => simp
  | cons b rest =>
    have hb : p b = false := hrest b rfl
    simp [hb]

theorem isSpace_of_isDigit {b : UInt8} (h : isDigit b = true) : isSpace b = false := by
  simp only [isDigit, decide_eq_true_eq, UInt8.le_iff_toNat_le] at h
  simp only [isSpace, decide_eq_false_iff_not, UInt8.le_iff_toNat_le, ← UInt8.toNat_inj]
  simp only [UInt8.reduceToNat] at h ⊢
  omega

theorem isSign_of_isDigit {b : UInt8} (h : isDigit b = true) : isSign b = false := by
  simp only [isDigit, decide_eq_true_eq, UInt8.le_iff_toNat_le] at h
  simp only [isSign, decide_eq_false_iff_not, ← UInt8.toNat_inj]
  simp only [UInt8.reduceToNat] at h ⊢
  omega

/-- The parts make up the text. -/
theorem lex_append (s : List UInt8) :
    (lex s).space ++ (lex s).sign.toList ++ (lex s).digits ++ (lex s).rest = s := by
  have hsign : ∀ t : List UInt8, (signOf t).toList ++ t.drop (signOf t).toList.length = t := by
    intro t
    cases t with
    | nil => rfl
    | cons b t =>
      rw [signOf, List.head?_cons, Option.filter_some]
      split_ifs <;> rfl
  simp only [lex]
  rw [List.append_assoc, List.takeWhile_append_dropWhile, List.append_assoc, hsign,
    List.takeWhile_append_dropWhile]

/-- There is no white space in front of a text that does not start with any. -/
theorem lex_space {s : List UInt8} (hs : Stops isSpace s) : (lex s).space = [] := by
  cases s with
  | nil => rfl
  | cons b s =>
    have hb : isSpace b = false := hs b rfl
    rw [lex, List.takeWhile_cons, hb]
    rfl

/-- A numeral in front of a text that does not go on with a digit is the number in it. -/
theorem lex_append_rest {s rest : List UInt8} (h : Numeral s) (hrest : Stops isDigit rest) :
    lex (s ++ rest) = ⟨[], none, s, rest⟩ := by
  obtain ⟨hne, hdigits⟩ := h
  obtain ⟨htake, hdrop⟩ := span_append hdigits hrest
  cases s with
  | nil => exact absurd rfl hne
  | cons b s =>
    have hb := hdigits b List.mem_cons_self
    have hsign : signOf (b :: s ++ rest) = none := by
      rw [signOf, List.cons_append, List.head?_cons, Option.filter_some, isSign_of_isDigit hb]
      rfl
    obtain ⟨hspace, hbare⟩ := @span_append isSpace [] (b :: s ++ rest) (fun _ hc => by cases hc)
      fun c hc => by
        obtain rfl : b = c := Option.some.inj hc
        exact isSpace_of_isDigit hb
    rw [List.nil_append] at hspace hbare
    rw [lex, hbare, hspace, hsign]
    dsimp only [Option.toList_none, List.length_nil]
    rw [List.drop_zero, htake, hdrop]

/-- A numeral is its own digits. -/
theorem lex_of_numeral {s : List UInt8} (h : Numeral s) : lex s = ⟨[], none, s, []⟩ := by
  have hlex := @lex_append_rest s [] h fun b hb => by cases hb
  rwa [List.append_nil] at hlex

theorem value_of_numeral {s : List UInt8} (h : Numeral s) : (lex s).value = ofDigits s := by
  rw [lex_of_numeral h]
  rfl

end Decimal
