import Mathlib.Algebra.BigOperators.Group.List.Basic
import Mathlib.Algebra.Ring.Int.Defs
import Mathlib.Algebra.Ring.Nat
import Mathlib.Data.List.Basic
import Mathlib.Tactic.Common

/-!
# Little-endian naturals

`ofNat w n` are the `w` low bytes of `n`, lowest first, and `toNat` reads them back.
-/

namespace LittleEndian

/-- The `w` low bytes of `n`, lowest first. -/
def ofNat : ℕ → ℕ → List UInt8
  | 0, _ => []
  | w + 1, n => UInt8.ofNat n :: ofNat w (n / 256)

/-- The number whose bytes are `bs`, lowest first. -/
def toNat : List UInt8 → ℕ
  | [] => 0
  | b :: bs => b.toNat + 256 * toNat bs

@[simp] theorem length_ofNat (w n : ℕ) : (ofNat w n).length = w := by
  induction w generalizing n with
  | zero => rfl
  | succ w ih => simp [ofNat, ih]

theorem toNat_lt (bs : List UInt8) : toNat bs < 256 ^ bs.length := by
  induction bs with
  | nil => simp [toNat]
  | cons b bs ih =>
    have hb := b.toNat_lt
    simp only [toNat, List.length_cons, Nat.pow_succ]
    omega

/-- Reading the low bytes back gives the number modulo their range. -/
theorem toNat_ofNat (w n : ℕ) : toNat (ofNat w n) = n % 256 ^ w := by
  induction w generalizing n with
  | zero => simp [ofNat, toNat, Nat.mod_one]
  | succ w ih =>
    have hb : (UInt8.ofNat n).toNat = n % 256 := by simp
    rw [ofNat, toNat, ih, hb, Nat.pow_succ, Nat.mul_comm (256 ^ w), Nat.mod_mul]

end LittleEndian
