import StorageServer.Util

/-!
# Short reads and writes

The loops of `readn` and `writen` (`util.c`) over a kernel that transfers the bytes in pieces of
any sizes, and interrupts the calls. The pieces do not matter as long as each of them can be
counted by an `int` : `readn` stores the next bytes of the stream (`readnLoop_eq`), and `writen`
sends those of the buffer (`writenLoop_eq`).

The `int` that `readn` returns is the `size_t` that was asked for. It is neither `0` nor `-1` for a
complete transfer if and only if the size is neither of them modulo `2 ^ 32` (`readn_sound_iff`).
For every size the loop refines `Stream.readn` (`readnChunks_refines`), the `readn` of the handlers.
-/

open Programs

namespace StorageServer

/-! ## Buffers -/

/-- A buffer with these bytes written at a position. -/
def overlay (buf : List UInt8) (pos : ℕ) (data : List UInt8) : List UInt8 :=
  buf.take pos ++ data ++ buf.drop (pos + data.length)

/-- Write to a buffer through a pointer into it. -/
def store (buf : List UInt8) (ptr : ℤ) (data : List UInt8) : Res (List UInt8) :=
  if 0 ≤ ptr ∧ ptr + data.length ≤ buf.length then .ok (overlay buf ptr.toNat data) else .fault

/-- Read from a buffer through a pointer into it. -/
def load (buf : List UInt8) (ptr : ℤ) (count : ℕ) : Res (List UInt8) :=
  if 0 ≤ ptr ∧ ptr + count ≤ buf.length then .ok ((buf.drop ptr.toNat).take count) else .fault

section Buffers

variable {buf a b : List UInt8} {pos : ℕ}

theorem length_overlay (h : pos + a.length ≤ buf.length) :
    (overlay buf pos a).length = buf.length := by
  rw [overlay, List.length_append, List.length_append, List.length_take, List.length_drop]
  omega

theorem overlay_nil (buf : List UInt8) (pos : ℕ) : overlay buf pos [] = buf := by
  rw [overlay, List.append_nil, List.length_nil, Nat.add_zero, List.take_append_drop]

/-- Bytes that are written one behind the other. -/
theorem overlay_overlay (h : pos + a.length ≤ buf.length) :
    overlay (overlay buf pos a) (pos + a.length) b = overlay buf pos (a ++ b) := by
  have hlen : (buf.take pos ++ a).length = pos + a.length := by
    rw [List.length_append, List.length_take_of_le (by omega)]
  have htake : (overlay buf pos a).take (pos + a.length) = buf.take pos ++ a := by
    rw [overlay, ← hlen, List.take_left]
  have hdrop : (overlay buf pos a).drop (pos + a.length + b.length) =
      buf.drop (pos + a.length + b.length) := by
    rw [← List.drop_drop, overlay, ← hlen, List.drop_left, hlen, List.drop_drop]
  rw [overlay, htake, hdrop, overlay, List.length_append, ← Nat.add_assoc, List.append_assoc,
    List.append_assoc, List.append_assoc, List.append_assoc]

theorem store_natCast (h : pos + a.length ≤ buf.length) :
    store buf pos a = .ok (overlay buf pos a) :=
  if_pos ⟨Int.natCast_nonneg pos, by omega⟩

theorem load_natCast {count : ℕ} (h : pos + count ≤ buf.length) :
    load buf pos count = .ok ((buf.drop pos).take count) :=
  if_pos ⟨Int.natCast_nonneg pos, by omega⟩

end Buffers

/-! ## `readn` -/

/-- What a call of `read` comes to. -/
structure ReadCall where
  /-- The `ssize_t` that it returns. -/
  ret : ℤ
  /-- `errno` is `EINTR`. -/
  eintr : Bool
  data : List UInt8
  rest : Stream

/-- `read`, which is interrupted or gives no more bytes than `chunk`, and at least one if there is
one. -/
def read (chunk : Option ℕ) (st : Stream) (count : ℕ) : Res ReadCall :=
  match chunk with
  | none => .ok ⟨-1, true, [], st⟩
  | some n =>
    match st.bytes, st.ending with
    | [], .eof => .ok ⟨0, false, [], st⟩
    | [], .error => .ok ⟨-1, false, [], st⟩
    | [], .waiting => .blocked
    | _ :: _, _ =>
      let k := max 1 (min n (min count st.bytes.length))
      .ok ⟨k, false, st.bytes.take k, { st with bytes := st.bytes.drop k }⟩

/-- The variables of `readn`, with the number of calls before. -/
structure ReadState where
  calls : ℕ
  left : ℕ
  /-- `bufptr - buf`. -/
  bufptr : ℤ
  buf : List UInt8
  st : Stream

/-- The loop of `readn`, for as many calls as `fuel` at most : the value returned, the buffer, and
the rest of the stream. It is still running if the fuel is used up. -/
def readnLoop (chunks : ℕ → Option ℕ) (size : ℕ) : ℕ → ReadState → Res (ℤ × List UInt8 × Stream)
  | 0, s => if 0 < s.left then .blocked else .ok (toInt size, s.buf, s.st)
  | fuel + 1, s =>
    if 0 < s.left then
      (read (chunks s.calls) s.st s.left).bind fun call =>
        (store s.buf s.bufptr call.data).bind fun buf =>
          let r := toInt call.ret
          if r = -1 then
            if call.eintr then readnLoop chunks size fuel { s with calls := s.calls + 1 }
            else .ok (-1, buf, call.rest)
          else if r = 0 then .ok (0, buf, call.rest)
          else readnLoop chunks size fuel
            ⟨s.calls + 1, toSize (s.left - r), s.bufptr + r, buf, call.rest⟩
    else .ok (toInt size, s.buf, s.st)

/-- `readn`. -/
def readnChunks (chunks : ℕ → Option ℕ) (fuel : ℕ) (st : Stream) (buf : List UInt8) (size : ℕ) :
    Res (ℤ × List UInt8 × Stream) :=
  readnLoop chunks size fuel ⟨0, size, 0, buf, st⟩

/-- What a `readn` comes to that has still to store `left` bytes from a position on. -/
def readEnd (size pos left : ℕ) (buf : List UInt8) (st : Stream) : Res (ℤ × List UInt8 × Stream) :=
  if left ≤ st.bytes.length then
    .ok (toInt size, overlay buf pos (st.bytes.take left),
      { st with bytes := st.bytes.drop left })
  else
    match st.ending with
    | .eof => .ok (0, overlay buf pos st.bytes, ⟨[], .eof⟩)
    | .error => .ok (-1, overlay buf pos st.bytes, ⟨[], .error⟩)
    | .waiting => .blocked

section Read

variable {chunks : ℕ → Option ℕ} {size pos left n k fuel : ℕ} {buf : List UInt8} {st : Stream}

/-- A piece of the bytes does not change what `readn` comes to. -/
theorem readEnd_piece (hbuf : pos + left ≤ buf.length) (hleft : k ≤ left)
    (hlen : k ≤ st.bytes.length) :
    readEnd size (pos + k) (left - k) (overlay buf pos (st.bytes.take k))
      { st with bytes := st.bytes.drop k } = readEnd size pos left buf st := by
  have hpiece : (st.bytes.take k).length = k := List.length_take_of_le hlen
  have hover : ∀ b, overlay (overlay buf pos (st.bytes.take k)) (pos + k) b =
      overlay buf pos (st.bytes.take k ++ b) := fun b => by
    have h := overlay_overlay (b := b) (show pos + (st.bytes.take k).length ≤ buf.length by omega)
    rwa [hpiece] at h
  unfold readEnd
  dsimp only
  rw [List.length_drop, hover, hover, List.take_append_drop, List.drop_drop]
  by_cases hle : left ≤ st.bytes.length
  · have htake : st.bytes.take k ++ (st.bytes.drop k).take (left - k) = st.bytes.take left := by
      rw [← List.take_add, Nat.add_sub_cancel' hleft]
    rw [if_pos (by omega), if_pos hle, htake, Nat.add_sub_cancel' hleft]
  · rw [if_neg (by omega), if_neg hle]

theorem readEnd_zero (size pos : ℕ) (buf : List UInt8) (st : Stream) :
    readEnd size pos 0 buf st = .ok (toInt size, buf, st) := by
  rw [readEnd, if_pos (Nat.zero_le _), List.take_zero, overlay_nil, List.drop_zero]

/-- A call of `read` that is not interrupted, where there are bytes. -/
theorem read_some {m : ℕ} (hlen : 0 < st.bytes.length) (hleft : 0 < left) :
    ∃ k, 0 < k ∧ k ≤ left ∧ k ≤ st.bytes.length ∧ (k ≤ m ∨ k = 1) ∧
      read (some m) st left =
        .ok ⟨k, false, st.bytes.take k, { st with bytes := st.bytes.drop k }⟩ := by
  obtain ⟨bytes, ending⟩ := st
  cases bytes with
  | nil => cases hlen
  | cons b bs =>
    change 0 < (b :: bs).length at hlen
    change ∃ k, 0 < k ∧ k ≤ left ∧ k ≤ (b :: bs).length ∧ _
    refine ⟨max 1 (min m (min left (b :: bs).length)), ?_, ?_, ?_, ?_, rfl⟩ <;> omega

/-- A call that is interrupted is made once more. -/
theorem readnLoop_interrupted {calls : ℕ} (hbuf : pos + left ≤ buf.length) (hleft : 0 < left)
    (hchunk : chunks calls = none) (size fuel : ℕ) :
    readnLoop chunks size (fuel + 1) ⟨calls, left, pos, buf, st⟩ =
      readnLoop chunks size fuel ⟨calls + 1, left, pos, buf, st⟩ := by
  have hret : toInt (-1) = -1 := toInt_of_range (by omega) (by omega)
  rw [readnLoop, if_pos hleft]
  dsimp only
  rw [hchunk, read, Res.bind_ok, store_natCast (by rw [List.length_nil]; omega), Res.bind_ok]
  dsimp only
  rw [if_pos hret, if_pos rfl]

/-- Behind the last byte the loop ends. -/
theorem readnLoop_end {calls m : ℕ} (hbuf : pos + left ≤ buf.length) (hleft : 0 < left)
    (hchunk : chunks calls = some m) (size fuel : ℕ) (ending : Ending) :
    readnLoop chunks size (fuel + 1) ⟨calls, left, pos, buf, ⟨[], ending⟩⟩ =
      readEnd size pos left buf ⟨[], ending⟩ := by
  have hstore : store buf pos [] = .ok buf := by
    rw [store_natCast (by rw [List.length_nil]; omega), overlay_nil]
  have hend : ¬ left ≤ ([] : List UInt8).length := Nat.not_le.2 hleft
  rw [readnLoop, if_pos hleft, readEnd]
  dsimp only
  rw [if_neg hend, hchunk, overlay_nil]
  cases ending with
  | eof =>
    have hret : toInt 0 = 0 := toInt_of_range (by omega) (by omega)
    rw [read, Res.bind_ok, hstore, Res.bind_ok]
    dsimp only
    rw [if_neg (by omega), if_pos hret]
  | error =>
    have hret : toInt (-1) = -1 := toInt_of_range (by omega) (by omega)
    rw [read, Res.bind_ok, hstore, Res.bind_ok]
    dsimp only
    rw [if_pos hret, if_neg Bool.false_ne_true]
  | waiting => rfl

/-- A piece is stored behind those before. -/
theorem readnLoop_piece {calls m : ℕ} (hbuf : pos + left ≤ buf.length) (hleft : 0 < left)
    (hsize : left < 2 ^ 64) (hint : left ≤ intMax ∨ m ≤ intMax) (hlen : 0 < st.bytes.length)
    (hchunk : chunks calls = some m) (size fuel : ℕ) :
    ∃ k, 0 < k ∧ k ≤ left ∧ k ≤ st.bytes.length ∧
      readnLoop chunks size (fuel + 1) ⟨calls, left, pos, buf, st⟩ =
        readnLoop chunks size fuel ⟨calls + 1, left - k, (pos + k : ℕ),
          overlay buf pos (st.bytes.take k), { st with bytes := st.bytes.drop k }⟩ := by
  obtain ⟨k, hpos, hk, hklen, hm, hread⟩ := read_some (m := m) hlen hleft
  have hmax : (intMax : ℤ) = 2 ^ 31 - 1 := rfl
  have hret : toInt k = k := toInt_of_range (by omega) (by omega)
  have hleft' : toSize (left - k : ℤ) = left - k := by
    rw [← Int.ofNat_sub hk]
    exact toSize_of_range (by omega)
  have hpiece : (st.bytes.take k).length = k := List.length_take_of_le hklen
  have hstore : store buf pos (st.bytes.take k) = .ok (overlay buf pos (st.bytes.take k)) :=
    store_natCast (by omega)
  refine ⟨k, hpos, hk, hklen, ?_⟩
  rw [readnLoop, if_pos hleft]
  dsimp only
  rw [hchunk, hread, Res.bind_ok]
  dsimp only
  rw [hstore, Res.bind_ok]
  rw [hret, if_neg (by omega), if_neg (by omega), hleft', Int.natCast_add]

/-- The loop stores the next bytes of the stream, in whatever pieces they come, if it is not
interrupted for ever and each piece can be counted by an `int`. -/
theorem readnLoop_eq (hfin : ∀ i, n ≤ i → chunks i ≠ none)
    (hint : left ≤ intMax ∨ ∀ i m, chunks i = some m → m ≤ intMax) (hsize : left < 2 ^ 64)
    {calls : ℕ} (hbuf : pos + left ≤ buf.length) (hfuel : left + (n - calls) ≤ fuel) :
    readnLoop chunks size fuel ⟨calls, left, pos, buf, st⟩ = readEnd size pos left buf st := by
  induction fuel generalizing left pos calls buf st with
  | zero =>
    obtain rfl : left = 0 := by omega
    rw [readnLoop, if_neg (Nat.lt_irrefl 0), readEnd_zero]
  | succ fuel ih =>
    rcases Nat.eq_zero_or_pos left with rfl | hleft
    · rw [readnLoop, if_neg (Nat.lt_irrefl 0), readEnd_zero]
    cases hchunk : chunks calls with
    | none =>
      -- an interrupted call uses up one of the finitely many
      have hcalls : calls < n := by
        by_contra hge
        exact hfin calls (by omega) hchunk
      rw [readnLoop_interrupted hbuf hleft hchunk]
      exact ih hint hsize hbuf (by omega)
    | some m =>
      rcases Nat.eq_zero_or_pos st.bytes.length with hnil | hlen
      · obtain ⟨bytes, ending⟩ := st
        obtain rfl := List.eq_nil_of_length_eq_zero hnil
        exact readnLoop_end hbuf hleft hchunk size fuel ending
      · obtain ⟨k, hpos, hk, hklen, hloop⟩ := readnLoop_piece hbuf hleft hsize
          (hint.imp_right fun h => h calls m hchunk) hlen hchunk size fuel
        have hpiece : (st.bytes.take k).length = k := List.length_take_of_le hklen
        have hover : (overlay buf pos (st.bytes.take k)).length = buf.length :=
          length_overlay (by omega)
        rw [hloop, ih (hint.imp_left fun h => by omega) (by omega) (by omega) (by omega),
          readEnd_piece hbuf hk hklen]

/-- What `readn` comes to, whatever the pieces. -/
theorem readnChunks_eq (hfin : ∀ i, n ≤ i → chunks i ≠ none)
    (hint : size ≤ intMax ∨ ∀ i m, chunks i = some m → m ≤ intMax) (hsize : size < 2 ^ 64)
    (hbuf : size ≤ buf.length) (hfuel : size + n ≤ fuel) (st : Stream) :
    readnChunks chunks fuel st buf size = readEnd size 0 size buf st :=
  readnLoop_eq hfin hint hsize ((Nat.zero_add size).le.trans hbuf) hfuel

/-- What it returns and leaves of the stream is what `Stream.readn` gives. -/
theorem readEnd_eq (size : ℕ) (buf : List UInt8) (st : Stream) :
    ∃ buf', readEnd size 0 size buf st = (st.readn size).bind fun r => .ok (r.1.1, buf', r.2) := by
  unfold readEnd Stream.readn
  split_ifs
  · exact ⟨_, rfl⟩
  · cases st.ending with
    | eof | error => exact ⟨_, rfl⟩
    | waiting => exact ⟨[], rfl⟩

end Read

/-! ## `writen` -/

/-- What the kernel does at a call of `write`. -/
inductive Chunk
  /-- `EINTR`. -/
  | interrupted
  | failed
  /-- No more bytes than these are transferred. -/
  | upTo (n : ℕ)
  deriving DecidableEq, Repr

/-- What a call of `write` comes to. -/
structure WriteCall where
  /-- The `ssize_t` that it returns. -/
  ret : ℤ
  /-- `errno` is `EINTR`. -/
  eintr : Bool
  /-- The bytes that are transferred. -/
  sent : List UInt8

/-- `write` of some bytes. -/
def write (chunk : Chunk) (data : List UInt8) : WriteCall :=
  match chunk with
  | .interrupted => ⟨-1, true, []⟩
  | .failed => ⟨-1, false, []⟩
  | .upTo n => ⟨(min n data.length : ℕ), false, data.take n⟩

/-- The variables of `writen`, with the number of calls before and the bytes that are
transferred. -/
structure WriteState where
  calls : ℕ
  left : ℕ
  /-- `bufptr - buf`. -/
  bufptr : ℤ
  out : List UInt8

/-- The loop of `writen`, for as many calls as `fuel` at most : the value returned and the bytes
that are transferred. It is still running if the fuel is used up. -/
def writenLoop (chunks : ℕ → Chunk) (buf : List UInt8) : ℕ → WriteState → Res (ℤ × List UInt8)
  | 0, s => if 0 < s.left then .blocked else .ok (1, s.out)
  | fuel + 1, s =>
    if 0 < s.left then
      (load buf s.bufptr s.left).bind fun data =>
        let call := write (chunks s.calls) data
        let r := toInt call.ret
        let out := s.out ++ call.sent
        if r = -1 then
          if call.eintr then writenLoop chunks buf fuel { s with calls := s.calls + 1 }
          else .ok (-1, out)
        else if r = 0 then .ok (0, out)
        else writenLoop chunks buf fuel ⟨s.calls + 1, toSize (s.left - r), s.bufptr + r, out⟩
    else .ok (1, s.out)

/-- `writen`. -/
def writenChunks (chunks : ℕ → Chunk) (fuel : ℕ) (buf : List UInt8) (size : ℕ) :
    Res (ℤ × List UInt8) :=
  writenLoop chunks buf fuel ⟨0, size, 0, []⟩

section Write

variable {chunks : ℕ → Chunk} {buf out : List UInt8} {pos left n calls fuel : ℕ}

/-- The bytes of the buffer that have still to be sent. -/
def unsent (buf : List UInt8) (pos left : ℕ) : List UInt8 :=
  (buf.drop pos).take left

theorem writenLoop_interrupted (hbuf : pos + left ≤ buf.length) (hleft : 0 < left)
    (hchunk : chunks calls = .interrupted) (fuel : ℕ) :
    writenLoop chunks buf (fuel + 1) ⟨calls, left, pos, out⟩ =
      writenLoop chunks buf fuel ⟨calls + 1, left, pos, out⟩ := by
  have hret : toInt (-1) = -1 := toInt_of_range (by omega) (by omega)
  rw [writenLoop, if_pos hleft]
  dsimp only
  rw [hchunk, load_natCast hbuf, Res.bind_ok, write]
  dsimp only
  rw [if_pos hret, if_pos rfl]

theorem writenLoop_failed (hbuf : pos + left ≤ buf.length) (hleft : 0 < left)
    (hchunk : chunks calls = .failed) (fuel : ℕ) :
    writenLoop chunks buf (fuel + 1) ⟨calls, left, pos, out⟩ = .ok (-1, out) := by
  have hret : toInt (-1) = -1 := toInt_of_range (by omega) (by omega)
  rw [writenLoop, if_pos hleft]
  dsimp only
  rw [hchunk, load_natCast hbuf, Res.bind_ok, write]
  dsimp only
  rw [if_pos hret, if_neg Bool.false_ne_true, List.append_nil]

/-- A piece is sent behind those before, or nothing is. -/
theorem writenLoop_piece {m : ℕ} (hbuf : pos + left ≤ buf.length) (hleft : 0 < left)
    (hint : left ≤ intMax) (hchunk : chunks calls = .upTo m) (fuel : ℕ) :
    writenLoop chunks buf (fuel + 1) ⟨calls, left, pos, out⟩ =
      if m = 0 then .ok (0, out)
      else writenLoop chunks buf fuel ⟨calls + 1, left - min m left, (pos + min m left : ℕ),
        out ++ unsent buf pos (min m left)⟩ := by
  have hmax : (intMax : ℤ) = 2 ^ 31 - 1 := rfl
  have hlen : (unsent buf pos left).length = left := by
    rw [unsent, List.length_take, List.length_drop]
    omega
  have hcall : write (.upTo m) ((buf.drop pos).take left) =
      ⟨(min m left : ℕ), false, unsent buf pos (min m left)⟩ := by
    change write (.upTo m) (unsent buf pos left) = _
    rw [write, hlen, unsent, unsent, List.take_take]
  rw [writenLoop, if_pos hleft]
  dsimp only
  rw [hchunk, load_natCast hbuf, Res.bind_ok, hcall]
  dsimp only
  generalize hk : min m left = k
  have hret : toInt (k : ℤ) = k := toInt_of_range (by omega) (by omega)
  have hleft' : toSize (left - k : ℤ) = left - k := by
    rw [← Int.ofNat_sub (by omega)]
    exact toSize_of_range (by omega)
  rw [hret, if_neg (by omega), hleft', Int.natCast_add]
  rcases Nat.eq_zero_or_pos m with rfl | hm
  · rw [if_pos (by omega), if_pos rfl, ← hk, Nat.zero_min, unsent, List.take_zero, List.append_nil]
  · rw [if_neg (by omega), if_neg (by omega)]

theorem unsent_append {k : ℕ} (hk : k ≤ left) :
    unsent buf pos left = unsent buf pos k ++ unsent buf (pos + k) (left - k) := by
  rw [unsent, unsent, unsent, ← List.drop_drop, ← List.take_add, Nat.add_sub_cancel' hk]

theorem unsent_zero (buf : List UInt8) (pos : ℕ) : unsent buf pos 0 = [] :=
  List.take_zero

/-- An end behind some bytes that are sent before. -/
def SendRes.shift (k : ℕ) : SendRes → SendRes
  | .sent => .sent
  | .closed j => .closed (k + j)
  | .failed j => .failed (k + j)

theorem SendRes.code_shift (k : ℕ) (res : SendRes) : (res.shift k).code = res.code := by
  cases res <;> rfl

theorem SendRes.bytes_shift (res : SendRes) (a b : List UInt8) :
    (res.shift a.length).bytes (a ++ b) = a ++ res.bytes b := by
  cases res with
  | sent => rfl
  | closed j | failed j => exact List.take_length_add_append j

theorem writenLoop_zero (chunks : ℕ → Chunk) (buf out : List UInt8) (fuel calls pos : ℕ) :
    writenLoop chunks buf fuel ⟨calls, 0, pos, out⟩ = .ok (1, out) := by
  cases fuel with
  | zero => rw [writenLoop, if_neg (Nat.lt_irrefl 0)]
  | succ fuel => rw [writenLoop, if_neg (Nat.lt_irrefl 0)]

/-- The loop ends as a `SendRes` says, if it is not interrupted for ever. All bytes are sent if
every call transfers some or is interrupted. -/
theorem writenLoop_eq (hfin : ∀ i, n ≤ i → chunks i ≠ .interrupted) (hint : left ≤ intMax)
    (hbuf : pos + left ≤ buf.length) (hfuel : left + (n - calls) ≤ fuel) :
    ∃ res : SendRes, writenLoop chunks buf fuel ⟨calls, left, pos, out⟩ =
        .ok (res.code, out ++ res.bytes (unsent buf pos left)) ∧
      ((∀ i, chunks i ≠ .failed ∧ chunks i ≠ .upTo 0) → res = .sent) := by
  induction fuel generalizing left pos calls out with
  | zero =>
    obtain rfl : left = 0 := by omega
    refine ⟨.sent, ?_, fun _ => rfl⟩
    rw [writenLoop_zero, SendRes.bytes, unsent_zero, List.append_nil]
    rfl
  | succ fuel ih =>
    rcases Nat.eq_zero_or_pos left with rfl | hleft
    · refine ⟨.sent, ?_, fun _ => rfl⟩
      rw [writenLoop_zero, SendRes.bytes, unsent_zero, List.append_nil]
      rfl
    cases hchunk : chunks calls with
    | interrupted =>
      have hcalls : calls < n := by
        by_contra hge
        exact hfin calls (by omega) hchunk
      rw [writenLoop_interrupted hbuf hleft hchunk]
      exact ih hint hbuf (by omega)
    | failed =>
      refine ⟨.failed 0, ?_, fun hall => absurd hchunk (hall calls).1⟩
      rw [writenLoop_failed hbuf hleft hchunk, SendRes.bytes, List.take_zero, List.append_nil]
      rfl
    | upTo m =>
      rw [writenLoop_piece hbuf hleft hint hchunk]
      rcases Nat.eq_zero_or_pos m with rfl | hm
      · refine ⟨.closed 0, ?_, fun hall => absurd hchunk (hall calls).2⟩
        rw [if_pos rfl, SendRes.bytes, List.take_zero, List.append_nil]
        rfl
      · obtain ⟨k, hk⟩ : ∃ k, min m left = k := ⟨_, rfl⟩
        have hlen : (unsent buf pos k).length = k := by
          rw [unsent, List.length_take, List.length_drop]
          omega
        rw [if_neg (Nat.ne_of_gt hm), hk]
        obtain ⟨res, hloop, hsent⟩ := @ih (out ++ unsent buf pos k) (pos + k) (left - k)
          (calls + 1) (by omega) (by omega) (by omega)
        refine ⟨res.shift k, ?_, fun hall => by rw [hsent hall]; rfl⟩
        have hbytes := SendRes.bytes_shift res (unsent buf pos k) (unsent buf (pos + k) (left - k))
        rw [hlen, ← unsent_append (by omega)] at hbytes
        rw [hloop, SendRes.code_shift, hbytes, List.append_assoc]

end Write

/-! ## Whole transfers -/

/-- A `readn` of at most `INT_MAX` bytes stores the next bytes of the stream and leaves the rest,
or says how the stream ends before them, and a `writen` that returns `1` has sent the bytes of its
buffer, whatever the pieces and the interruptions. -/
theorem readn_and_writen {size : ℕ} (hmax : size ≤ intMax) :
    (∀ (chunks : ℕ → Option ℕ) (n : ℕ), (∀ i, n ≤ i → chunks i ≠ none) →
      ∀ (st : Stream) (buf : List UInt8), size ≤ buf.length → ∀ fuel, size + n ≤ fuel →
      readnChunks chunks fuel st buf size =
        if size ≤ st.bytes.length then
          .ok ((size : ℤ), st.bytes.take size ++ buf.drop size,
            { st with bytes := st.bytes.drop size })
        else
          match st.ending with
          | .eof => .ok (0, st.bytes ++ buf.drop st.bytes.length, ⟨[], .eof⟩)
          | .error => .ok (-1, st.bytes ++ buf.drop st.bytes.length, ⟨[], .error⟩)
          | .waiting => .blocked) ∧
    ∀ (chunks : ℕ → Chunk) (n : ℕ), (∀ i, n ≤ i → chunks i ≠ .interrupted) →
      ∀ buf : List UInt8, size ≤ buf.length → ∀ fuel, size + n ≤ fuel →
      ∃ r out, writenChunks chunks fuel buf size = .ok (r, out) ∧ (r = 1 → out = buf.take size) ∧
        ((∀ i, chunks i ≠ .failed ∧ chunks i ≠ .upTo 0) → r = 1) := by
  constructor
  · intro chunks n hfin st buf hbuf fuel hfuel
    have hret : toInt (size : ℤ) = size := by
      unfold intMax at hmax
      exact toInt_of_range (by omega) (by omega)
    rw [readnChunks_eq hfin (.inl hmax) (by unfold intMax at hmax; omega) hbuf hfuel, readEnd, hret]
    have hover : ∀ data, overlay buf 0 data = data ++ buf.drop data.length := fun data => by
      rw [overlay, List.take_zero, List.nil_append, Nat.zero_add]
    split_ifs with hle
    · rw [hover, List.length_take_of_le hle]
    · rw [hover]
  · intro chunks n hfin buf hbuf fuel hfuel
    obtain ⟨res, hloop, hsent⟩ := @writenLoop_eq chunks buf [] 0 size n 0 fuel hfin hmax
      (by omega) (by omega)
    refine ⟨res.code, res.bytes (buf.take size), hloop, fun hcode => ?_, fun hall => ?_⟩
    · cases res with
      | sent => rfl
      | closed k | failed k => cases hcode
    · rw [hsent hall]
      rfl

/-- An example of `readn_and_writen` : two bytes that come one by one, with an interruption. -/
theorem readn_and_writen_two :
    readnChunks (fun i => if i = 1 then none else some 1) 4 ⟨[7, 8, 9], .eof⟩ [0, 0] 2 =
      .ok (2, [7, 8], ⟨[9], .eof⟩) := by
  refine (readn_and_writen (by decide)).1 _ 2 (fun i hi => ?_) _ _ (by decide) _ (by decide)
  rw [if_neg (by omega)]
  exact nofun

/-- The most bytes that a call of `read` transfers. -/
def rwMax : ℕ :=
  0x7ffff000

theorem readnChunks_of_rwMax {size : ℕ} (hsize : size < 2 ^ 64) (chunks : ℕ → Option ℕ) (n : ℕ)
    (hfin : ∀ i, n ≤ i → chunks i ≠ none) (hmax : ∀ i m, chunks i = some m → m ≤ rwMax)
    (st : Stream)
    (buf : List UInt8) (hbuf : size ≤ buf.length) (fuel : ℕ) (hfuel : size + n ≤ fuel) :
    readnChunks chunks fuel st buf size = readEnd size 0 size buf st :=
  readnChunks_eq hfin (.inr fun i m hm => (hmax i m hm).trans (by decide)) hsize hbuf hfuel st

/-- The loop refines the `readn` of a stream. -/
theorem readnChunks_refines {size : ℕ} (hsize : size < 2 ^ 64) (chunks : ℕ → Option ℕ) (n : ℕ)
    (hfin : ∀ i, n ≤ i → chunks i ≠ none) (hmax : ∀ i m, chunks i = some m → m ≤ rwMax)
    (st : Stream)
    (buf : List UInt8) (hbuf : size ≤ buf.length) (fuel : ℕ) (hfuel : size + n ≤ fuel) :
    ∃ buf', readnChunks chunks fuel st buf size =
      (st.readn size).bind fun r => .ok (r.1.1, buf', r.2) := by
  rw [readnChunks_of_rwMax hsize chunks n hfin hmax st buf hbuf fuel hfuel]
  exact readEnd_eq size buf st

/-- What `readn` returns is `0` only if the file ends before the bytes that are asked for, and `-1`
only if a `read` fails before, if and only if their number is neither of them modulo `2 ^ 32`. -/
theorem readn_sound_iff {size : ℕ} (hsize : size < 2 ^ 64) :
    (∀ (chunks : ℕ → Option ℕ) (n : ℕ), (∀ i, n ≤ i → chunks i ≠ none) →
      (∀ i m, chunks i = some m → m ≤ rwMax) →
      ∀ (st : Stream) (buf : List UInt8), size ≤ buf.length → ∀ fuel, size + n ≤ fuel →
      ∀ r buf' st', readnChunks chunks fuel st buf size = .ok (r, buf', st') →
        (r = 0 → st.bytes.length < size ∧ st.ending = .eof) ∧
        (r = -1 → st.bytes.length < size ∧ st.ending = .error)) ↔
    size % 2 ^ 32 ≠ 0 ∧ size % 2 ^ 32 ≠ 2 ^ 32 - 1 := by
  have hresidue : (toInt size ≠ 0 ∧ toInt size ≠ -1) ↔
      size % 2 ^ 32 ≠ 0 ∧ size % 2 ^ 32 ≠ 2 ^ 32 - 1 := by
    unfold toInt
    omega
  rw [← hresidue]
  constructor
  · intro hsound
    -- all bytes are there, and come one by one
    have hnone : ∀ i, 0 ≤ i → (fun _ => some 1 : ℕ → Option ℕ) i ≠ none :=
      fun _ _ => Option.some_ne_none 1
    have hmax : ∀ i m, (fun _ => some 1 : ℕ → Option ℕ) i = some m → m ≤ rwMax := by
      rintro i m hm
      cases hm
      decide
    have hlen : size ≤ (List.replicate size (0 : UInt8)).length := List.length_replicate.ge
    have hall :=
      readnChunks_of_rwMax hsize _ 0 hnone hmax ⟨List.replicate size 0, .waiting⟩ _ hlen _
      (Nat.le_refl (size + 0))
    rw [readEnd, if_pos hlen] at hall
    have hwhole := hsound _ 0 hnone hmax _ _ hlen _ (Nat.le_refl _) _ _ _ hall
    exact ⟨fun h0 => (by cases (hwhole.1 h0).2), fun h1 => (by cases (hwhole.2 h1).2)⟩
  · intro hne chunks n hfin hmax st buf hbuf fuel hfuel r buf' st' hread
    rw [readnChunks_of_rwMax hsize chunks n hfin hmax st buf hbuf fuel hfuel, readEnd] at hread
    split_ifs at hread with hle
    · cases hread
      exact ⟨fun h0 => absurd h0 hne.1, fun h1 => absurd h1 hne.2⟩
    · rw [Nat.not_le] at hle
      cases hending : st.ending with
      | eof =>
        rw [hending] at hread
        cases hread
        exact ⟨fun _ => ⟨hle, rfl⟩, nofun⟩
      | error =>
        rw [hending] at hread
        cases hread
        exact ⟨nofun, fun _ => ⟨hle, rfl⟩⟩
      | waiting =>
        rw [hending] at hread
        cases hread

/-- An example of `readn_sound_iff` : the file ends before the four bytes that are asked for. -/
theorem readn_sound_iff_four : ∃ buf st,
    readnChunks (fun _ => some 3) 4 ⟨[1, 2], .eof⟩ [0, 0, 0, 0] 4 = .ok (0, buf, st) ∧
      [1, 2].length < 4 := by
  have hnone : ∀ i, 0 ≤ i → (fun _ => some 3 : ℕ → Option ℕ) i ≠ none :=
    fun _ _ => Option.some_ne_none 3
  have hmax : ∀ i m, (fun _ => some 3 : ℕ → Option ℕ) i = some m → m ≤ rwMax := by
    rintro i m hm
    cases hm
    decide
  have hread : readnChunks (fun _ => some 3) 4 ⟨[1, 2], .eof⟩ [0, 0, 0, 0] 4 =
      .ok (0, [1, 2, 0, 0], ⟨[], .eof⟩) :=
    readnChunks_of_rwMax (by decide) _ 0 hnone hmax _ _ (by decide) _ (by decide)
  exact ⟨_, _, hread, ((readn_sound_iff (by decide)).2 (by decide) _ 0 hnone hmax _ _ (by decide) _
    (by decide) _ _ _ hread).1 rfl |>.1⟩

/-- A `readn` of no bytes returns `0` though the file has not ended. -/
theorem readnChunks_zero :
    readnChunks (fun _ => some 1) 1 ⟨[7], .waiting⟩ [] 0 = .ok (0, [], ⟨[7], .waiting⟩) := by
  have hret : toInt (0 : ℕ) = 0 := toInt_of_range (by decide) (by decide)
  rw [readnChunks, readnLoop, if_neg (Nat.lt_irrefl 0), hret]

end StorageServer
