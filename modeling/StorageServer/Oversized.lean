import StorageServer.Waiting

/-!
# Requests that end the process

`safe_malloc` ends the process if an allocation fails, and the sizes that the handlers allocate are
those that the client gives. `Oversized` are the bytes that ask for more than an object can have :
the length of a path that is negative once it has been counted with its `NUL` as an `int`, or the
size of a buffer that is negative as a `long`. After these bytes the worker ends the process, and
after no others (`worker_halts_iff`); unless it still waits for the client, it returns a code
(`worker_returns_iff`).
-/

open Programs Transitions

namespace StorageServer

/-! ## The bytes of such a request -/

/-- A request for an object of `2 ^ 63` bytes or more. -/
inductive Oversized : List UInt8 → Prop
  /-- `pathname_len` is less than `-1`, or `pathname_len + 1` is. -/
  | path {op len rest : List UInt8} {h : Handler} (hop : op.length = 4) (hlen : len.length = 4)
      (hh : Handler.ofOpCode (bytesInt op) = some h) (hpath : h ≠ .readNFiles)
      (hneg : bytesInt len < -1 ∨ bytesInt len = 2 ^ 31 - 1) : Oversized (op ++ (len ++ rest))
  /-- The size of the buffer is that of no object. -/
  | buffer {op len path size rest : List UInt8} {h : Handler} (hop : op.length = 4)
      (hlen : len.length = 4)
      (hh : Handler.ofOpCode (bytesInt op) = some h) (hbuffer : h = .writeFile ∨ h = .appendToFile)
      (hpath : (path.length : ℤ) = bytesInt len + 1) (hne : path ≠ []) (hsize : size.length = 8)
      (hbig : 2 ^ 63 ≤ bytesSize size) : Oversized (op ++ (len ++ (path ++ (size ++ rest))))

/-- Only an object of `2 ^ 63` bytes or more is refused. -/
def Local.GrantsObjects (l : Local) : Prop :=
  ∀ a, l.malloc a = true ↔ ∀ n, a = .safe n → n < 2 ^ 63

theorem Local.GrantsObjects.safe {l : Local} (h : l.GrantsObjects) (n : ℕ) :
    l.malloc (.safe n) = true ↔ n < 2 ^ 63 :=
  (h (.safe n)).trans ⟨fun h => h n rfl, fun h _ he => Allocation.safe.inj he ▸ h⟩

/-! ## Reading -/

section Reading

variable {α : Type} {l : Local} {s : Store} {n : ℕ}

theorem halt_bind {p : M α} {β : Type} {k : α → M β} {w : World} :
    Prog.run exec (p >>= k) w = .halt ↔
      Prog.run exec p w = .halt ∨ ∃ a w', Prog.run exec p w = .ok (a, w') ∧
        Prog.run exec (k a) w' = .halt := by
  rw [Prog.run_bind]
  cases hp : Prog.run exec p w with
  | ok r =>
    refine ⟨fun h => .inr ⟨r.1, r.2, rfl, h⟩, ?_⟩
    rintro (h | ⟨a, w', h, hk⟩)
    · cases h
    · cases h
      exact hk
  | halt => exact ⟨fun _ => .inl rfl, fun _ => rfl⟩
  | blocked | fault =>
    refine ⟨fun h => (by cases h), ?_⟩
    rintro (h | ⟨a, w', h, -⟩) <;> cases h

theorem halt_safeMalloc {k : Unit → M α} :
    Prog.run exec (safeMalloc n >>= k) (l, s) = .halt ↔
      l.malloc (.safe n) = false ∨ Prog.run exec (k ()) (l, s) = .halt := by
  change (if l.malloc (.safe n) then _ else _ : Res _).bind _ = _ ↔ _
  cases l.malloc (.safe n) with
  | true => exact ⟨.inr, fun h => h.resolve_left (by decide)⟩
  | false => exact ⟨fun _ => .inl rfl, fun _ => rfl⟩

theorem ne_halt_malloc {a : Allocation} {k : Bool → M α} {w : World}
    (hk : ∀ b, Prog.run exec (k b) w ≠ .halt) : Prog.run exec (malloc a >>= k) w ≠ .halt :=
  hk (w.1.malloc a)

/-- A `readn` after which the process ends has read what it was to read. -/
theorem halt_readn {k : ℤ × List UInt8 → M α}
    (hfail : ∀ r w, r = 0 ∨ r = -1 → Prog.run exec (k (r, [])) w ≠ .halt) :
    Prog.run exec (readn n >>= k) (l, s) = .halt ↔ ∃ bytes rest, l.inp.bytes = bytes ++ rest ∧
      bytes.length = n ∧ Prog.run exec (k (toInt n, bytes)) (l.left rest, s) = .halt := by
  change ((l.inp.readn n).bind _).bind _ = _ ↔ _
  constructor
  · intro h
    unfold Stream.readn at h
    split_ifs at h with hle
    · exact ⟨_, _, (List.take_append_drop n _).symm, List.length_take_of_le hle, h⟩
    · cases hend : l.inp.ending with
      | eof =>
        rw [hend] at h
        exact absurd h (hfail 0 _ (.inl rfl))
      | error =>
        rw [hend] at h
        exact absurd h (hfail (-1) _ (.inr rfl))
      | waiting =>
        rw [hend] at h
        cases h
  · rintro ⟨bytes, rest, hbytes, rfl, h⟩
    have hle : bytes.length ≤ l.inp.bytes.length := by simp [hbytes]
    rw [Stream.readn, if_pos hle, hbytes, List.take_left, List.drop_left]
    exact h

/-- What follows a `readn` that has read its bytes. -/
theorem run_failed {r : ℤ} (hr : 0 < r) {p q k : M α} {w : World} :
    Prog.run exec (if r = -1 then p else if r = 0 then q else k) w = Prog.run exec k w := by
  rw [if_neg (by omega), if_neg (by omega)]

theorem halt_readnInt {k : ℤ × ℤ → M α}
    (hfail : ∀ r n w, r = 0 ∨ r = -1 → Prog.run exec (k (r, n)) w ≠ .halt) :
    Prog.run exec (readnInt >>= k) (l, s) = .halt ↔ ∃ bytes rest, l.inp.bytes = bytes ++ rest ∧
      bytes.length = 4 ∧ Prog.run exec (k (4, bytesInt bytes)) (l.left rest, s) = .halt := by
  have h4 : toInt (4 : ℕ) = 4 := toInt_of_range (by omega) (by omega)
  have hread : readnInt >>= k = readn 4 >>= fun r => k (r.1, bytesInt r.2) := by
    rw [readnInt, bind_assoc]
    rfl
  rw [hread, halt_readn fun r w hr => hfail r _ w hr, h4]

/-- The size that is allocated for a path. -/
theorem toSize_pathLen {n : ℤ} (hn : -2 ^ 31 ≤ n ∧ n < 2 ^ 31) :
    (toSize (toInt (n + 1)) < 2 ^ 63 ↔ ¬(n < -1 ∨ n = 2 ^ 31 - 1)) ∧
      (¬(n < -1 ∨ n = 2 ^ 31 - 1) → (toSize (toInt (n + 1)) : ℤ) = n + 1) := by
  unfold toSize toInt
  omega

/-- The process ends while a path is read, or after it. -/
theorem halt_readPathname (hmalloc : l.GrantsObjects) {k : Except Sa CString → M α}
    (hfail : ∀ code w, Prog.run exec (k (.error code)) w ≠ .halt) :
    Prog.run exec (readPathname >>= k) (l, s) = .halt ↔
      ∃ len rest, l.inp.bytes = len ++ rest ∧ len.length = 4 ∧
        ((bytesInt len < -1 ∨ bytesInt len = 2 ^ 31 - 1) ∨
          ∃ path rest', rest = path ++ rest' ∧ (path.length : ℤ) = bytesInt len + 1 ∧ path ≠ [] ∧
            Prog.run exec (k (.ok (cstring path))) (l.left rest', s) = .halt) := by
  have hprog : readPathname >>= k = readnInt >>= fun r =>
      if r.1 = -1 then k (.error .error) else if r.1 = 0 then k (.error .close) else
        safeMalloc (toSize (toInt (r.2 + 1))) >>= fun _ =>
          readn (toSize (toInt (r.2 + 1))) >>= fun r =>
          if r.1 = -1 then k (.error .error) else if r.1 = 0 then k (.error .close) else
            k (.ok (cstring r.2)) := by
    simp only [readPathname, bind_assoc, pure_bind, Prog.ite_bind]
  have hfailed : ∀ (r : ℤ) (p : M α) (w : World), r = 0 ∨ r = -1 → Prog.run exec
      (if r = -1 then k (.error .error) else if r = 0 then k (.error .close) else p) w ≠ .halt :=
    fun r p w hr => by
      rcases hr with rfl | rfl
      · exact hfail .close w
      · exact hfail .error w
  rw [hprog, halt_readnInt fun r n w hr => hfailed r _ w hr]
  refine exists_congr fun len => exists_congr fun rest => and_congr_right fun _ =>
    and_congr_right fun _ => ?_
  have hrange : -2 ^ 31 ≤ bytesInt len ∧ bytesInt len < 2 ^ 31 := toInt_range _
  dsimp only
  generalize bytesInt len = n at hrange ⊢
  obtain ⟨hgranted, hsize⟩ := toSize_pathLen hrange
  rw [run_failed (by omega), halt_safeMalloc, Local.malloc_left, ← Bool.not_eq_true, hmalloc.safe,
    hgranted, not_not]
  refine or_congr_right' fun hpos => ?_
  have hsize := hsize hpos
  have hint : toInt (toSize (toInt (n + 1)) : ℤ) = n + 1 := by
    rw [hsize]
    exact toInt_of_range (by omega) (by omega)
  rw [halt_readn fun r w hr => hfailed r _ w hr, hint]
  refine exists_congr fun path => exists_congr fun rest' => and_congr_right fun _ => ?_
  constructor
  · rintro ⟨hlen, h⟩
    have hne : path ≠ [] := by
      rintro rfl
      exact hfailed (n + 1) _ _ (.inl (by rw [← hsize, ← hlen]; rfl)) h
    have hpath := List.length_pos_of_ne_nil hne
    rw [run_failed (by omega)] at h
    exact ⟨by rw [hlen, hsize], hne, h⟩
  · rintro ⟨hlen, hne, h⟩
    have hpath := List.length_pos_of_ne_nil hne
    refine ⟨by omega, ?_⟩
    rw [run_failed (by omega)]
    exact h

/-- Nothing that ends the process follows the last `readn` of a request. -/
theorem halt_map {β : Type} {p : M α} (f : α → β) {w : World} :
    Prog.run exec (p >>= fun a => pure (f a)) w = .halt ↔ Prog.run exec p w = .halt := by
  rw [halt_bind, or_iff_left]
  rintro ⟨a, w', -, h⟩
  cases h

/-- A piece that is read last. -/
theorem not_halt_failed {r : ℤ} {a b c : α} {w : World} :
    Prog.run exec (if r = -1 then pure a else if r = 0 then pure b else pure c : M α) w ≠
      .halt := by
  split_ifs <;> exact nofun

theorem toSize_bytesLong {bytes : List UInt8} (h : bytes.length = 8) :
    toSize (bytesLong bytes) = bytesSize bytes := by
  have hlt := LittleEndian.toNat_lt bytes
  rw [h] at hlt
  simp only [bytesLong, bytesSize]
  unfold toSize toLong
  omega

/-- The size of a buffer, and the buffer. -/
theorem halt_readBuffer {g : List UInt8 → M (Except Sa α)}
    (hg : ∀ size, size.length = 8 →
      (Prog.run exec (g size) (l.left (l.inp.bytes.drop 8), s) = .halt ↔
      2 ^ 63 ≤ bytesSize size)) :
    Prog.run exec (readn 8 >>= fun r => if r.1 = -1 then pure (.error .error) else
        if r.1 = 0 then pure (.error .close) else g r.2) (l, s) = .halt ↔
      ∃ size rest, l.inp.bytes = size ++ rest ∧ size.length = 8 ∧ 2 ^ 63 ≤ bytesSize size := by
  have hfailed : ∀ (r : ℤ) (p : M (Except Sa α)) (w : World), r = 0 ∨ r = -1 → Prog.run exec
      (if r = -1 then pure (.error .error) else if r = 0 then pure (.error .close) else p)
        w ≠ .halt :=
    fun r p w hr => by rcases hr with rfl | rfl <;> exact nofun
  rw [halt_readn fun r w hr => hfailed r _ w hr]
  refine exists_congr fun size => exists_congr fun rest => and_congr_right fun hbytes =>
    and_congr_right fun hsize => ?_
  have h8 : toInt (8 : ℕ) = 8 := toInt_of_range (by omega) (by omega)
  have hrest : l.inp.bytes.drop 8 = rest := by rw [hbytes, ← hsize, List.drop_left]
  have hpos : (0 : ℤ) < 8 := by decide
  rw [h8, run_failed hpos, ← hg size hsize, hrest]

/-- What is left of a request after its operation asks for an object of `2 ^ 63` bytes or more. -/
def OversizedArguments (h : Handler) (bytes : List UInt8) : Prop :=
  h ≠ .readNFiles ∧ ∃ len rest, bytes = len ++ rest ∧ len.length = 4 ∧
    ((bytesInt len < -1 ∨ bytesInt len = 2 ^ 31 - 1) ∨
      ∃ path rest', rest = path ++ rest' ∧ (path.length : ℤ) = bytesInt len + 1 ∧ path ≠ [] ∧
        (h = .writeFile ∨ h = .appendToFile) ∧
        ∃ size rest'', rest' = size ++ rest'' ∧ size.length = 8 ∧ 2 ^ 63 ≤ bytesSize size)

theorem oversized_iff {bytes : List UInt8} : Oversized bytes ↔ ∃ op rest, bytes = op ++ rest ∧
    op.length = 4 ∧ ∃ h, Handler.ofOpCode (bytesInt op) = some h ∧ OversizedArguments h rest := by
  constructor
  · rintro (⟨hop, hlen, hh, hpath, hneg⟩ | ⟨hop, hlen, hh, hbuffer, hpath, hne, hsize, hbig⟩)
    · exact ⟨_, _, rfl, hop, _, hh, hpath, _, _, rfl, hlen, .inl hneg⟩
    · refine ⟨_, _, rfl, hop, _, hh, ?_, _, _, rfl, hlen,
        .inr ⟨_, _, rfl, hpath, hne, hbuffer, _, _, rfl, hsize, hbig⟩⟩
      rintro rfl
      rcases hbuffer with h | h <;> cases h
  · rintro ⟨op, rest, rfl, hop, h, hh, hpath, len, rest, rfl, hlen, hneg | hbuffer⟩
    · exact .path hop hlen hh hpath hneg
    · obtain ⟨path, rest, rfl, hpath, hne, hbuffer, size, rest, rfl, hsize, hbig⟩ := hbuffer
      exact .buffer hop hlen hh hbuffer hpath hne hsize hbig

/-- The process ends while a request is read if it is oversized. -/
theorem halt_readRequest (hmalloc : l.GrantsObjects) (h : Handler) :
    Prog.run exec (readRequest h) (l, s) = .halt ↔ OversizedArguments h l.inp.bytes := by
  -- a path, and what follows it
  have hpath : ∀ {α : Type} (k : Except Sa CString → M α), h ≠ .readNFiles →
      (∀ code w, Prog.run exec (k (.error code)) w ≠ .halt) →
      (∀ path rest, (Prog.run exec (k (.ok path)) (l.left rest, s) = .halt ↔
        (h = .writeFile ∨ h = .appendToFile) ∧
          ∃ size rest', rest = size ++ rest' ∧ size.length = 8 ∧ 2 ^ 63 ≤ bytesSize size)) →
      (Prog.run exec (readPathname >>= k) (l, s) = .halt ↔ OversizedArguments h l.inp.bytes) :=
    fun k hne hfail hk => by
      rw [halt_readPathname hmalloc hfail]
      simp only [hk, OversizedArguments, hne, ne_eq, not_false_eq_true, true_and]
  have hnone : ∀ {α : Type} {q : M α} {w : World} {rest : List UInt8}, h ≠ .writeFile →
      h ≠ .appendToFile →
      Prog.run exec q w ≠ .halt →
        (Prog.run exec q w = .halt ↔ (h = .writeFile ∨ h = .appendToFile) ∧
        ∃ size rest', rest = size ++ rest' ∧ size.length = 8 ∧ 2 ^ 63 ≤ bytesSize size) :=
    fun hw ha hq => iff_of_false hq fun h => h.1.elim hw ha
  -- nothing that ends the process follows the last `readn`
  have hlast' : ∀ {β : Type} (n : ℕ) (f : List UInt8 → M (Except Sa β)) (w : World),
      (∀ buf w, Prog.run exec (f buf) w ≠ .halt) → Prog.run exec
        (readn n >>= fun r => if r.1 = -1 then pure (.error .error) else
          if r.1 = 0 then pure (.error .close) else f r.2) w ≠ .halt := fun n f w hf h => by
    have hfailed : ∀ (r : ℤ) (buf : List UInt8) (w : World), Prog.run exec
        (if r = -1 then pure (.error .error) else if r = 0 then pure (.error .close) else f buf) w ≠
          .halt := fun r buf w => by
      split_ifs
      · exact fun he => (by cases he)
      · exact fun he => (by cases he)
      · exact hf buf w
    obtain ⟨bytes, rest, -, -, h⟩ := (halt_readn fun r w _ => hfailed r [] w).1 h
    exact hfailed _ _ _ h
  have hlist : ∀ {β : Type} (a : Except Sa β) (w : World), Prog.run exec (malloc .list >>= fun b =>
      if (!b) = true then pure (.error .error) else pure a) w ≠ .halt := fun a w =>
    ne_halt_malloc fun b => by
      cases b
      · exact fun he => (by cases he)
      · exact fun he => (by cases he)
  have hlast : ∀ (f : CString → Request), h ≠ .readNFiles → h ≠ .writeFile → h ≠ .appendToFile →
      (Prog.run exec (readPathname >>= fun r => pure (r.map f)) (l, s) = .halt ↔
        OversizedArguments h l.inp.bytes) := fun f hn hw ha =>
    hpath _ hn (fun code w he => by cases he) fun path rest => hnone hw ha fun he => by cases he
  cases h with
  | openFile =>
    refine (halt_map _).trans (hpath _ (by decide) (fun code w he => by cases he) fun path rest =>
      hnone (by decide) (by decide) ?_)
    rw [Ne, halt_readnInt fun r n w hr => ?_]
    · rintro ⟨flags, rest', -, -, hhalt⟩
      exact not_halt_failed hhalt
    · exact not_halt_failed
  | closeFile => exact hlast _ (by decide) (by decide) (by decide)
  | readFile => exact hlast _ (by decide) (by decide) (by decide)
  | removeFile => exact hlast _ (by decide) (by decide) (by decide)
  | readNFiles =>
    have hread : Prog.run exec readNRequest (l, s) ≠ .halt := by
      rw [readNRequest, Ne, halt_readnInt fun r n w hr => ?_]
      · rintro ⟨bytes, rest, -, -, h⟩
        have hpos : (0 : ℤ) < 4 := by decide
        have hgranted : (l.left rest).malloc (.safe sizeofHashIter) = true :=
          (hmalloc.safe _).2 (by decide)
        refine ne_halt_malloc (fun b => ?_) ((run_failed hpos).symm.trans h)
        cases b
        · exact fun he => (by cases he)
        · intro he
          rcases halt_safeMalloc.1 he with he | he
          · rw [hgranted] at he
            cases he
          · cases he
      · rcases hr with rfl | rfl <;> exact fun he => (by cases he)
    exact iff_of_false (fun h => hread ((halt_map _).1 h)) fun h => h.1 rfl
  | writeFile =>
    refine (halt_map _).trans
      (hpath _ (by decide) (fun code w he => by cases he) fun path rest => ?_)
    refine Iff.trans
      (halt_readBuffer (g := fun size => safeMalloc (toSize (bytesLong size)) >>= fun _ =>
      readn (toSize (bytesLong size)) >>= fun r => if r.1 = -1 then pure (.error .error) else
        if r.1 = 0 then pure (.error .close) else pure (.ok (path, bytesLong size, r.2)))
      fun size hsize => ?_) (and_iff_right (.inl rfl)).symm
    rw [toSize_bytesLong hsize, halt_safeMalloc, ← Bool.not_eq_true, Local.malloc_left,
      Local.malloc_left, hmalloc.safe, not_lt, or_iff_left]
    exact hlast' _ (fun buf => pure (.ok (path, bytesLong size, buf))) _ fun buf w he => by cases he
  | appendToFile =>
    refine (halt_map _).trans
      (hpath _ (by decide) (fun code w he => by cases he) fun path rest => ?_)
    refine Iff.trans (halt_readBuffer (g := fun size => if bytesSize size > 0 then
      safeMalloc (bytesSize size) >>= fun _ =>
        readn (bytesSize size) >>= fun r => if r.1 = -1 then pure (.error .error) else
          if r.1 = 0 then pure (.error .close) else malloc .list >>= fun b =>
            if (!b) = true then pure (.error .error) else pure (.ok (path, bytesSize size, r.2))
      else malloc .list >>= fun b =>
        if (!b) = true then pure (.error .error) else pure (.ok (path, bytesSize size, [])))
      fun size hsize => ?_) (and_iff_right (.inr rfl)).symm
    split_ifs with hpos
    · rw [halt_safeMalloc, ← Bool.not_eq_true, Local.malloc_left, Local.malloc_left, hmalloc.safe,
        not_lt, or_iff_left]
      exact hlast' _ (fun buf => malloc .list >>= fun b =>
        if (!b) = true then pure (.error .error) else pure (.ok (path, bytesSize size, buf))) _
          fun buf w => hlist _ w
    · exact iff_of_false (hlist _ _) (by omega)

/-- The process ends while a worker reads if the request is oversized. -/
theorem halt_readOperation (hmalloc : l.GrantsObjects) :
    Prog.run exec readOperation (l, s) = .halt ↔ Oversized l.inp.bytes := by
  rw [readOperation, halt_readnInt fun r n w hr => ?_, oversized_iff]
  · refine exists_congr fun op => exists_congr fun rest => and_congr_right fun _ =>
      and_congr_right fun _ => ?_
    have hpos : (0 : ℤ) < 4 := by decide
    dsimp only
    rw [run_failed hpos]
    cases Handler.ofOpCode (bytesInt op) with
    | none =>
      refine iff_of_false (fun he => by cases he) ?_
      rintro ⟨h, he, -⟩
      cases he
    | some h =>
      rw [halt_map, halt_readRequest (l := l.left rest) hmalloc]
      constructor
      · exact fun harg => ⟨h, rfl, harg⟩
      · rintro ⟨h', he, harg⟩
        cases he
        exact harg
  · rcases hr with rfl | rfl <;> exact fun he => (by cases he)

end Reading

/-! ## A whole worker -/

section Worker

variable {cfg : ServerConfig} {fdClient : ℕ} {l : Local} {s : Store} {xs : List (FilePtr × File)}

/-- A program that does not concern the store waits only for the client. -/
theorem ne_blocked_of_private {α : Type} {p : M α} (hp : p.Only Op.Private)
    (h : l.inp.ending ≠ .waiting) :
    Prog.run exec p (l, s) ≠ .blocked := by
  induction p generalizing l s with
  | ret a => exact fun he => (by cases he)
  | op o k ih =>
    have hstep : exec o (l, s) ≠ .blocked ∧
        ∀ a l₁ s₁, exec o (l, s) = .ok (a, (l₁, s₁)) → l₁.inp.ending ≠ .waiting := by
      by_cases hread : ∃ size, o = .readn size
      · obtain ⟨size, rfl⟩ := hread
        simp only [exec, Stream.readn]
        split_ifs
        · refine ⟨fun he => (by cases he), fun a l₁ s₁ he => ?_⟩
          cases he
          exact h
        · cases hend : l.inp.ending with
          | waiting => exact absurd hend h
          | eof | error =>
            refine ⟨fun he => (by cases he), fun a l₁ s₁ he => ?_⟩
            cases he
            exact fun he => (by cases he)
      · refine ⟨exec_private_ne_blocked hp.1 (fun size he => hread ⟨size, he⟩) _,
          fun a l₁ s₁ he => ?_⟩
        cases o
        case readn size => exact absurd ⟨size, rfl⟩ hread
        case clockGettime =>
          obtain ⟨inp, sends, clock, malloc, uninit, out, log⟩ := l
          cases clock with
          | nil => cases he
          | cons t rest =>
            cases he
            exact h
        case safeMalloc size =>
          change (if l.malloc (.safe size) then _ else _) = _ at he
          split_ifs at he
          cases he
          exact h
        case writen bytes =>
          cases he
          unfold Local.writen
          split_ifs
          · exact h
          · split <;> exact h
        case malloc | uninit | logger =>
          cases he
          exact h
        case exit => cases he
        all_goals exact hp.1.elim
    intro hblocked
    rw [Prog.run_op] at hblocked
    cases hexec : exec o (l, s) with
    | ok r =>
      rw [hexec] at hblocked
      exact ih r.1 (hp.2 r.1) (hstep.2 _ _ _ hexec) hblocked
    | blocked => exact hstep.1 hexec
    | halt | fault =>
      rw [hexec] at hblocked
      cases hblocked

/-- What a job does after its prelude returns. -/
theorem ends_job {job : Job} {asked : Asked} {l₁ : Local} {s₁ : Store} (hs : s.Idle cfg xs)
    (hfree : AllFree xs) (hl : l.Supplied) (hadmitted : job.Admitted l s)
    (hprelude : Prog.run exec job.prelude (l, s) = .ok (asked, (l₁, s₁))) :
    Prog.twp exec (asked.body cfg job.fdClient >>= asked.tail) (fun _ _ => True) (l₁, s₁) := by
  obtain ⟨rfl, -⟩ := run_of_private (private_prelude job) hprelude
  cases hlocks : asked.locks with
  | false =>
    obtain ⟨leak, unlocks, a, l', hperm, -, hgiving⟩ := gives_noReply (l := l₁) hlocks
    obtain ⟨rfl, rfl⟩ := List.append_eq_nil_iff.1 (List.perm_nil.1 hperm)
    have hbacks : s₁.Backs ([] ++ []) [] := ⟨fun x hx => absurd hx List.not_mem_nil, List.nodup_nil,
      fun x hx => absurd hx List.not_mem_nil⟩
    rw [Asked.body_eq cfg _ hlocks, Prog.ret_bind]
    exact ⟨_, _, hgiving.run hbacks (s₁.prints_nil []), trivial⟩
  | true =>
    rw [Prog.twp_bind]
    refine Prog.twp_mono (ends_of_safe (safe_body hs hprelude hlocks hadmitted)
      (ends_body hs hfree hl hprelude hlocks hadmitted)) fun r w hshown => ?_
    obtain ⟨⟨xs', out, hidle, hshows⟩, hclose⟩ := hshown
    obtain ⟨l₂, s₂⟩ := w
    obtain ⟨shown, reads, deletes, hleaves, hgives⟩ := gives_tail hidle hshows hclose hlocks
    obtain ⟨leak, unlocks, a, l', hperm, -, hgiving⟩ := hgives l₂
    exact ⟨_, _, hgiving.run (hleaves.backs hperm) hleaves.prints, trivial⟩

/-- A worker ends the process if its client sends an oversized request. Otherwise it returns, or
waits for what the client is still to send. -/
theorem worker_cases (hs : s.Idle cfg xs) (hfree : AllFree xs) (hmalloc : l.GrantsObjects)
    (hclock : 2 ≤ l.clock.length) (hadmitted : (Job.worker fdClient).Admitted l s) :
    Oversized l.inp.bytes ∧ Prog.run exec (worker cfg fdClient) (l, s) = .halt ∨
      ¬Oversized l.inp.bytes ∧
        ((∃ code l' s', Prog.run exec (worker cfg fdClient) (l, s) = .ok (code, (l', s'))) ∨
          l.inp.ending = .waiting ∧ Prog.run exec (worker cfg fdClient) (l, s) = .blocked) := by
  have hsupplied : l.Supplied := by
    refine ⟨fun a => (hmalloc a).2, ?_⟩
    obtain ⟨t₁, ts, hts⟩ := List.exists_cons_of_length_pos (by omega : 0 < l.clock.length)
    obtain ⟨t₂, rest, rfl⟩ := List.exists_cons_of_length_pos
      (by rw [hts, List.length_cons] at hclock; omega : 0 < ts.length)
    exact ⟨t₁, t₂, rest, hts⟩
  -- the job is the worker, with its result
  have hjob : Prog.run exec ((Job.worker fdClient).program cfg) (l, s) =
      (Prog.run exec (worker cfg fdClient) (l, s)).bind fun r => .ok (some r.1, r.2) :=
    Prog.run_bind ..
  rw [Job.program_eq, Prog.run_bind] at hjob
  have hhalt : Prog.run exec (Job.worker fdClient).prelude (l, s) = .halt ↔
      Oversized l.inp.bytes := by
    rw [← halt_readOperation hmalloc, Job.prelude, halt_bind, or_iff_left]
    rintro ⟨r, w, -, hr⟩
    rcases r with code | res | req <;> cases hr
  cases hprelude : Prog.run exec (Job.worker fdClient).prelude (l, s) with
  | ok r =>
    obtain ⟨asked, l₁, s₁⟩ := r
    obtain ⟨a, w, hrun, -⟩ := ends_job hs hfree hsupplied hadmitted hprelude
    rw [hprelude] at hjob hhalt
    rw [Res.bind_ok, hrun] at hjob
    refine .inr ⟨fun h => (by cases hhalt.2 h), .inl ?_⟩
    obtain ⟨⟨code, l', s'⟩, hworker, -⟩ := Res.bind_eq_ok.1 hjob.symm
    exact ⟨code, l', s', hworker⟩
  | halt =>
    rw [hprelude] at hjob
    refine .inl ⟨hhalt.1 hprelude, ?_⟩
    cases hworker : Prog.run exec (worker cfg fdClient) (l, s) with
    | halt => rfl
    | ok | blocked | fault =>
      rw [hworker] at hjob
      cases hjob
  | blocked =>
    have hwaiting : l.inp.ending = .waiting := by
      by_contra hne
      exact ne_blocked_of_private (private_prelude _) hne hprelude
    rw [hprelude] at hjob hhalt
    refine .inr ⟨fun h => (by cases hhalt.2 h), .inr ⟨hwaiting, ?_⟩⟩
    cases hworker : Prog.run exec (worker cfg fdClient) (l, s) with
    | blocked => rfl
    | ok | halt | fault =>
      rw [hworker] at hjob
      cases hjob
  | fault => exact absurd hprelude (Prog.wp_of_checked safe_prelude).ne_fault

/-- Between two requests and with no file locked, a worker ends the process if and only if its
client sends an oversized request. Otherwise it returns, unless the client is still to send
something. -/
theorem worker_halts_iff {tr : List Event} (hrun : Run (serverSystem cfg) tr ⟨s, none⟩)
    (hfree : ∀ f ∈ s.fileSystem.files, f.counts = (0, 0)) (hmalloc : l.GrantsObjects)
    (hclock : 2 ≤ l.clock.length)
    (hadmitted : (Job.worker fdClient).Admitted l s) :
    (Prog.run exec (worker cfg fdClient) (l, s) = .halt ↔ Oversized l.inp.bytes) ∧
      (l.inp.ending ≠ .waiting → ¬Oversized l.inp.bytes →
        ∃ code l' s', Prog.run exec (worker cfg fdClient) (l, s) = .ok (code, (l', s'))) := by
  obtain ⟨xs, hs⟩ := idle_of_run hrun
  rcases worker_cases hs (hs.allFree hfree) hmalloc hclock hadmitted with
    ⟨hbig, hhalt⟩ | ⟨hsmall, ⟨code, l', s', hok⟩ | ⟨hwaiting, hblocked⟩⟩
  · exact ⟨iff_of_true hhalt hbig, fun _ hsmall => absurd hbig hsmall⟩
  · refine ⟨iff_of_false (fun he => ?_) hsmall, fun _ _ => ⟨code, l', s', hok⟩⟩
    cases hok.symm.trans he
  · refine ⟨iff_of_false (fun he => ?_) hsmall, fun hne => absurd hwaiting hne⟩
    cases hblocked.symm.trans he

/-- What a handler needs when the client has sent these bytes and closed its connection. -/
def Local.sent (bytes : List UInt8) : Local :=
  { Local.at 6 with
    inp := ⟨bytes, .eof⟩
    malloc := fun
      | .safe n => n < 2 ^ 63
      | _ => true }

theorem grantsObjects_sent (bytes : List UInt8) : (Local.sent bytes).GrantsObjects := by
  intro a
  cases a
  case safe n =>
    exact decide_eq_true_iff.trans ⟨fun h _ he => Allocation.safe.inj he ▸ h, fun h => h n rfl⟩
  all_goals exact ⟨fun _ _ he => (by cases he), fun _ => rfl⟩

/-- To append `2 ^ 63` bytes to the second file. -/
def appending : List UInt8 :=
  [4, 0, 0, 0] ++ ([1, 0, 0, 0] ++ ([98, 0] ++ ([0, 0, 0, 0, 0, 0, 0, 128] ++ [])))

theorem oversized_appending : Oversized appending := by
  have hop : bytesInt [4, 0, 0, 0] = 4 := by
    unfold bytesInt toInt
    decide
  have hlen : bytesInt [1, 0, 0, 0] = 1 := by
    unfold bytesInt toInt
    decide
  refine .buffer (h := .appendToFile) rfl rfl ?_ (.inr rfl) ?_ (by decide) rfl (by decide)
  · rw [hop]
    rfl
  · rw [hlen]
    rfl

/-- An example of `worker_halts_iff` : the server has two files. The process ends if the client asks
for too much, and if it sends the first three bytes of that request, the worker returns. -/
theorem worker_halts_iff_appending : ∃ s : Store,
    s.fileSystem.files.map (fun f => (f.pathName, f.contents)) = [([99], []), ([98], [3, 4])] ∧
    Prog.run exec (worker .small 7) (.sent appending, s) = .halt ∧
    ∃ code l' s', Prog.run exec (worker .small 7)
    (.sent (appending.take 3), s) = .ok (code, (l', s')) := by
  obtain ⟨tr, ⟨s, replying⟩, hrun, rfl, hfiles, hfree, hadmitted, hadmitted'⟩ :=
    (computes_next .small).exists_run ⟨.initial, none⟩ rfl (expulsions.take 10)
      (fun _ σ => σ.replying = none ∧
        σ.store.fileSystem.files.map (fun f => (f.pathName, f.contents)) =
          [([99], []), ([98], [3, 4])] ∧
        (∀ f ∈ σ.store.fileSystem.files, f.counts = (0, 0)) ∧
        (Job.worker 7).Admitted (.sent appending) σ.store ∧
        (Job.worker 7).Admitted (.sent (appending.take 3)) σ.store)
      (by decide +kernel)
  refine ⟨s, hfiles, ?_, ?_⟩
  · exact (worker_halts_iff hrun hfree (grantsObjects_sent _) le_rfl hadmitted).1.2
      oversized_appending
  · refine (worker_halts_iff hrun hfree (grantsObjects_sent _) le_rfl hadmitted').2
      (fun he => by cases he) fun h => ?_
    obtain ⟨op, rest, hbytes, hop, -⟩ := oversized_iff.1 h
    have hlength := congrArg List.length hbytes
    rw [List.length_append, hop] at hlength
    change 3 = 4 + rest.length at hlength
    omega

/-! ## The requests for which a worker has a result -/

end Worker

end StorageServer
