import Mathlib.Data.List.TakeWhile
import StorageServer.Lib.LittleEndian
import StorageServer.Lib.Prog

/-!
# Integers, strings and streams of the C code

The integer types of the code are `Int` and `Nat` with the conversions written out : an
`int` has 32 bits, a `long` and a `size_t` have 64. Integers cross a socket as their
bytes, lowest first.

`readn` and `writen` (`util.c`) are given by what they return and what they leave of the
stream, whatever the pieces in which the kernel transfers the bytes (`ReadLoop.readn`).
`readn` returns its `size_t` argument as an `int`, so a complete transfer can return `0` or
`-1`.
-/

open Programs

namespace StorageServer

/-! ## Integers -/

/-- The value an `int` holds when `x` is stored in it. -/
@[irreducible] def toInt (x : ℤ) : ℤ :=
  (x + 2 ^ 31) % 2 ^ 32 - 2 ^ 31

/-- The value a `long` holds when `x` is stored in it. -/
@[irreducible] def toLong (x : ℤ) : ℤ :=
  (x + 2 ^ 63) % 2 ^ 64 - 2 ^ 63

/-- The value an `unsigned int` holds when `x` is stored in it. -/
@[irreducible] def toUInt (x : ℤ) : ℕ :=
  (x % 2 ^ 32).toNat

/-- The value a `size_t` or an `unsigned long` holds when `x` is stored in it. -/
@[irreducible] def toSize (x : ℤ) : ℕ :=
  (x % 2 ^ 64).toNat

theorem toInt_of_range {x : ℤ} (h : -2 ^ 31 ≤ x) (h' : x < 2 ^ 31) : toInt x = x := by
  unfold toInt
  omega

theorem toInt_range (x : ℤ) : -2 ^ 31 ≤ toInt x ∧ toInt x < 2 ^ 31 := by
  unfold toInt
  omega

theorem toLong_of_range {x : ℤ} (h : -2 ^ 63 ≤ x) (h' : x < 2 ^ 63) : toLong x = x := by
  unfold toLong
  omega

theorem toUInt_of_range {n : ℕ} (h : n < 2 ^ 32) : toUInt n = n := by
  unfold toUInt
  omega

theorem toSize_of_range {n : ℕ} (h : n < 2 ^ 64) : toSize n = n := by
  unfold toSize
  omega

/-- `INT_MAX`. -/
def intMax : ℕ :=
  2 ^ 31 - 1

/-- `FD_SETSIZE` : a descriptor that `select` can watch is below. -/
def fdSetSize : ℕ :=
  1024

/-- The bytes of an `int`. -/
def intBytes (x : ℤ) : List UInt8 :=
  LittleEndian.ofNat 4 (toUInt x)

/-- The `int` with the bytes `bs`. -/
def bytesInt (bs : List UInt8) : ℤ :=
  toInt (LittleEndian.toNat bs)

/-- The bytes of a `size_t`; those of a `long` are the bytes of its `size_t`. -/
def sizeBytes (n : ℕ) : List UInt8 :=
  LittleEndian.ofNat 8 n

/-- The `size_t` with the bytes `bs`. -/
def bytesSize (bs : List UInt8) : ℕ :=
  LittleEndian.toNat bs

/-- The `long` with the bytes `bs`. -/
def bytesLong (bs : List UInt8) : ℤ :=
  toLong (LittleEndian.toNat bs)

@[simp] theorem length_intBytes (x : ℤ) : (intBytes x).length = 4 :=
  LittleEndian.length_ofNat _ _

@[simp] theorem length_sizeBytes (n : ℕ) : (sizeBytes n).length = 8 :=
  LittleEndian.length_ofNat _ _

theorem bytesInt_intBytes {x : ℤ} (h : -2 ^ 31 ≤ x) (h' : x < 2 ^ 31) :
    bytesInt (intBytes x) = x := by
  unfold bytesInt intBytes
  rw [LittleEndian.toNat_ofNat]
  unfold toInt toUInt
  omega

theorem bytesSize_sizeBytes {n : ℕ} (h : n < 2 ^ 64) : bytesSize (sizeBytes n) = n := by
  unfold bytesSize sizeBytes
  rw [LittleEndian.toNat_ofNat]
  omega

theorem bytesLong_sizeBytes {n : ℕ} (h : n < 2 ^ 63) : bytesLong (sizeBytes n) = n := by
  unfold bytesLong sizeBytes
  rw [LittleEndian.toNat_ofNat]
  unfold toLong
  omega

/-! ## Strings -/

/-- A C string : its bytes before the terminating `NUL`. -/
abbrev CString := List UInt8

/-- The C string at the start of a buffer. -/
def cstring (buf : List UInt8) : CString :=
  buf.takeWhile (· ≠ 0)

/-- A C string has no `NUL`. -/
theorem cstring_append_nul {p : CString} (hp : (0 : UInt8) ∉ p) : cstring (p ++ [0]) = p := by
  unfold cstring
  rw [List.takeWhile_append_of_pos]
  · simp
  · intro b hb
    simp only [ne_eq, decide_not, Bool.not_eq_eq_eq_not, Bool.not_true, decide_eq_false_iff_not]
    rintro rfl
    exact hp hb

/-! ## Streams -/

/-- What a reader finds after the last byte. -/
inductive Ending
  /-- End of file. -/
  | eof
  /-- A failing `read`. -/
  | error
  /-- The peer is silent and the connection open, so that `read` waits. -/
  | waiting
  deriving DecidableEq, Repr

/-- The bytes still to be read from a descriptor. -/
structure Stream where
  bytes : List UInt8
  ending : Ending
  deriving DecidableEq, Repr

/-- `readn(fd, buf, size)` : the value returned, the bytes stored in `buf` if all of
them arrived, and the rest of the stream. -/
def Stream.readn (st : Stream) (size : ℕ) : Res ((ℤ × List UInt8) × Stream) :=
  if size ≤ st.bytes.length then
    .ok ((toInt size, st.bytes.take size), { st with bytes := st.bytes.drop size })
  else
    match st.ending with
    | .eof => .ok ((0, []), { st with bytes := [] })
    | .error => .ok ((-1, []), { st with bytes := [] })
    | .waiting => .blocked

/-- The runs of the loop of `readn` when `left` bytes are still to be read and `buf` are in
the buffer : each `read` gives some of the bytes that have arrived. -/
inductive Stream.ReadLoop (size : ℕ) : Stream → ℕ → List UInt8 → (ℤ × List UInt8) × Stream → Prop
  | done {st : Stream} {buf : List UInt8} : ReadLoop size st 0 buf ((toInt size, buf), st)
  | piece {st : Stream} {left k : ℕ} {buf : List UInt8} {res : (ℤ × List UInt8) × Stream}
      (hpos : 0 < k) (hleft : k ≤ left) (hlen : k ≤ st.bytes.length)
      (h : ReadLoop size { st with bytes := st.bytes.drop k } (left - k)
        (buf ++ st.bytes.take k) res) : ReadLoop size st left buf res
  /-- `EINTR`. -/
  | interrupted {st : Stream} {left : ℕ} {buf : List UInt8} {res : (ℤ × List UInt8) × Stream}
      (h : ReadLoop size st left buf res) : ReadLoop size st left buf res
  | eof {left : ℕ} {buf : List UInt8} (hpos : 0 < left) :
      ReadLoop size ⟨[], .eof⟩ left buf ((0, buf), ⟨[], .eof⟩)
  | error {left : ℕ} {buf : List UInt8} (hpos : 0 < left) :
      ReadLoop size ⟨[], .error⟩ left buf ((-1, buf), ⟨[], .error⟩)

namespace Stream

variable {size left : ℕ} {buf : List UInt8} {r : ℤ} {st st' : Stream}

/-- However the bytes arrive, the loop comes to what `readn` gives. -/
theorem ReadLoop.readn {res : (ℤ × List UInt8) × Stream} (h : ReadLoop size st left buf res)
    (hsize : left + buf.length = size) : Stream.readn ⟨buf ++ st.bytes, st.ending⟩ size =
      .ok ((res.1.1, if res.1.2.length = size then res.1.2 else []), res.2) := by
  induction h with
  | @done st buf =>
    obtain rfl : buf.length = size := by omega
    simp [Stream.readn]
  | @piece st left k buf res hpos hleft hlen h ih =>
    have hih := ih (by rw [List.length_append, List.length_take_of_le hlen]; omega)
    rwa [List.append_assoc, List.take_append_drop] at hih
  | interrupted h ih => exact ih hsize
  | @eof left buf hpos | @error left buf hpos =>
    have hlt : ¬size ≤ buf.length := by omega
    have hne : ¬buf.length = size := by omega
    simp [Stream.readn, hlt, hne]

end Stream

/-- How one `writen` ends. -/
inductive SendRes
  /-- All bytes are sent. -/
  | sent
  /-- `write` returns `0` after `k` bytes. -/
  | closed (k : ℕ)
  /-- `write` fails after `k` bytes. -/
  | failed (k : ℕ)
  deriving DecidableEq, Repr

/-- The value `writen` returns. -/
def SendRes.code : SendRes → ℤ
  | sent => 1
  | closed _ => 0
  | failed _ => -1

/-- The bytes that have reached the peer. -/
def SendRes.bytes (r : SendRes) (bs : List UInt8) : List UInt8 :=
  match r with
  | sent => bs
  | closed k => bs.take k
  | failed k => bs.take k

end StorageServer
