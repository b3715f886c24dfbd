import StorageServer.Answers
import StorageServer.Directory

/-!
# The replies with files

A reply is a list of files and a final code. `FileList` is the format of the list, and
`write_files_sent_by_server` reads what is in the format unless a length in it, as the `int` that
`readn` returns, is `0` or `-1` (`receiveFiles_cases`). What it reports is compared with what it is
to report, for every stream and every directory (`reports_iff`).
-/

open Programs

namespace StorageServer.Api

/-! ## The format -/

/-- A file at the start of some bytes, behind the length of its path, and the bytes after it. Each
announced length is good. -/
structure OneFile (good : ℕ → Prop) (pathLen : ℤ) (path size buf : List UInt8) : Prop where
  length_path : path.length = toSize (toInt (pathLen + 1))
  good_path : good path.length
  length_size : size.length = 8
  length_buf : buf.length = bytesSize size
  good_buf : bytesSize size ≠ 0 → good (bytesSize size)

/-- A list of files at the start of some bytes, and the bytes after it, where each announced length
is good. -/
inductive FileList (good : ℕ → Prop) : List UInt8 → List Received → List UInt8 → Prop
  | done {len rest : List UInt8} (hlen : len.length = 4) (hend : bytesInt len = 0) :
    FileList good (len ++ rest) [] rest
  | file {len path size buf bytes rest : List UInt8} {files : List Received} (hlen : len.length = 4)
    (hmore : bytesInt len ≠ 0) (hfile : OneFile good (bytesInt len) path size buf)
    (h : FileList good bytes files rest) :
    FileList good (len ++ (path ++ (size ++ (buf ++ bytes))))
      (⟨cstring path, bytesSize size, buf⟩ :: files) rest

/-- A list of files and a final code. -/
def Reply (good : ℕ → Prop) (bytes : List UInt8) (files : List Received) (code : ℤ) : Prop :=
  ∃ res rest, FileList good bytes files (res ++ rest) ∧ res.length = 4 ∧ bytesInt res = code

/-- A `readn` of so many bytes, if it is complete, returns neither `0` nor `-1`. -/
def Counts (n : ℕ) : Prop :=
  toInt n ≠ 0 ∧ toInt n ≠ -1

section Format

variable {good good' : ℕ → Prop} {bytes len rest rest' : List UInt8} {files files' : List Received}
  {code code' : ℤ}

theorem counts_four : Counts 4 := by
  rw [Counts, Nat.cast_ofNat, toInt_of_range (by omega) (by omega)]
  omega

theorem counts_eight : Counts 8 := by
  rw [Counts, Nat.cast_ofNat, toInt_of_range (by omega) (by omega)]
  omega

theorem OneFile.mono {pathLen : ℤ} {path size buf : List UInt8}
    (h : OneFile good pathLen path size buf) (himp : ∀ n, good n → good' n) :
    OneFile good' pathLen path size buf :=
  ⟨h.length_path, himp _ h.good_path, h.length_size, h.length_buf, fun h0 => himp _ (h.good_buf h0)⟩

theorem FileList.mono (h : FileList good bytes files rest) (himp : ∀ n, good n → good' n) :
    FileList good' bytes files rest := by
  induction h with
  | done hlen hend => exact .done hlen hend
  | file hlen hmore hfile _ ih => exact .file hlen hmore (hfile.mono himp) ih

/-- The lists after a first `int`. -/
theorem FileList.of_append (h : FileList good (len ++ bytes) files rest) (hlen : len.length = 4) :
    (bytesInt len = 0 ∧ files = [] ∧ rest = bytes) ∨
      bytesInt len ≠ 0 ∧ ∃ path size buf more files', bytes = path ++ (size ++ (buf ++ more)) ∧
        OneFile good (bytesInt len) path size buf ∧
        files = ⟨cstring path, bytesSize size, buf⟩ :: files' ∧ FileList good more files' rest := by
  generalize hall : len ++ bytes = all at h
  cases h with
  | @done len' _ hlen' hend =>
    obtain ⟨rfl, rfl⟩ := List.append_inj hall (hlen.trans hlen'.symm)
    exact .inl ⟨hend, rfl, rfl⟩
  | @file len' path size buf more _ files' hlen' hmore hfile h =>
    obtain ⟨rfl, rfl⟩ := List.append_inj hall (hlen.trans hlen'.symm)
    exact .inr ⟨hmore, path, size, buf, more, files', rfl, hfile, rfl, h⟩

/-- The bytes hold one file at most. -/
theorem OneFile.unique {pathLen : ℤ} {path size buf more path' size' buf' more' : List UInt8}
    (h : OneFile good pathLen path size buf) (h' : OneFile good' pathLen path' size' buf')
    (hbytes : path ++ (size ++ (buf ++ more)) = path' ++ (size' ++ (buf' ++ more'))) :
    path = path' ∧ size = size' ∧ buf = buf' ∧ more = more' := by
  obtain ⟨rfl, hafter⟩ := List.append_inj hbytes (h.length_path.trans h'.length_path.symm)
  obtain ⟨rfl, hlast⟩ := List.append_inj hafter (h.length_size.trans h'.length_size.symm)
  obtain ⟨rfl, rfl⟩ := List.append_inj hlast (h.length_buf.trans h'.length_buf.symm)
  exact ⟨rfl, rfl, rfl, rfl⟩

/-- The bytes hold one list at most. -/
theorem FileList.unique (h : FileList good bytes files rest)
    (h' : FileList good' bytes files' rest') :
    files = files' ∧ rest = rest' := by
  induction h generalizing files' with
  | done hlen hend =>
    rcases h'.of_append hlen with ⟨-, rfl, rfl⟩ | ⟨hmore, -⟩
    · exact ⟨rfl, rfl⟩
    · exact absurd hend hmore
  | file hlen hmore hfile h ih =>
    rcases h'.of_append hlen with ⟨hend, -⟩ | ⟨-, path', size', buf', more', files', hbytes, hfile',
      rfl, htail⟩
    · exact absurd hend hmore
    · obtain ⟨rfl, rfl, rfl, rfl⟩ := hfile.unique hfile' hbytes
      obtain ⟨rfl, rfl⟩ := ih htail
      exact ⟨rfl, rfl⟩

theorem Reply.weaken (h : Reply good bytes files code) :
    Reply (fun _ => True) bytes files code := by
  obtain ⟨res, rest, hlist, hcode⟩ := h
  exact ⟨res, rest, hlist.mono fun _ _ => trivial, hcode⟩

theorem Reply.unique (h : Reply good bytes files code) (h' : Reply good' bytes files' code') :
    files = files' ∧ code = code' := by
  obtain ⟨res, rest, hlist, hlen, rfl⟩ := h
  obtain ⟨res', rest', hlist', hlen', rfl⟩ := h'
  obtain ⟨rfl, hrest⟩ := hlist.unique hlist'
  obtain ⟨rfl, -⟩ := List.append_inj hrest (hlen.trans hlen'.symm)
  exact ⟨rfl, rfl⟩

end Format

/-! ## Reading -/

section Reading

variable {α : Type} {c : Client} {size : ℕ}

/-- A `readn` whose result is tested : it waits, it does not give what is asked for, or it gives the
next bytes. -/
theorem readn_cases (size : ℕ) (k : List UInt8 → ApiM (Except Errno α)) (c : Client) :
    let p : ApiM (Except Errno α) := readn size >>= fun r =>
      if r.1 = -1 ∨ r.1 = 0 then return .error .ebade else k r.2
    (p c = .blocked ∧ c.inp.ending = .waiting ∧ c.inp.bytes.length < size) ∨
      (∃ c', p c = .ok (.error .ebade, c')) ∧ (c.inp.bytes.length < size ∨ ¬Counts size) ∨
      ∃ bytes rest, c.inp.bytes = bytes ++ rest ∧ bytes.length = size ∧ Counts size ∧
        p c = k bytes (c.left rest) := by
  intro p
  have hp : p c = (c.inp.readn size).bind fun r =>
      (if r.1.1 = -1 ∨ r.1.1 = 0 then return .error .ebade else k r.1.2 : ApiM _)
        { c with inp := r.2 } := by
    change ((c.inp.readn size).bind _).bind _ = _
    rw [Res.bind_assoc]
    rfl
  by_cases hle : size ≤ c.inp.bytes.length
  · have hread : c.inp.readn size = .ok ((toInt size, c.inp.bytes.take size),
        { c.inp with bytes := c.inp.bytes.drop size }) := if_pos hle
    rw [hp, hread, Res.bind_ok]
    dsimp only
    by_cases hcounts : Counts size
    · rw [if_neg fun h => h.elim hcounts.2 hcounts.1]
      exact .inr (.inr ⟨_, _, (List.take_append_drop size _).symm, List.length_take_of_le hle,
        hcounts, rfl⟩)
    · have hbad : toInt size = -1 ∨ toInt size = 0 := by
        by_contra h
        rw [not_or] at h
        exact hcounts ⟨h.2, h.1⟩
      rw [if_pos hbad]
      exact .inr (.inl ⟨⟨_, rfl⟩, .inr hcounts⟩)
  · have hlt : c.inp.bytes.length < size := Nat.lt_of_not_le hle
    rw [hp, Stream.readn, if_neg hle]
    cases hending : c.inp.ending with
    | eof => exact .inr (.inl ⟨⟨_, rfl⟩, .inl hlt⟩)
    | error => exact .inr (.inl ⟨⟨_, rfl⟩, .inl hlt⟩)
    | waiting => exact .inl ⟨rfl, rfl, hlt⟩

/-- `readn_cases` for an `int`. -/
theorem readnInt_cases (k : ℤ → ApiM (Except Errno α)) (c : Client) :
    let p : ApiM (Except Errno α) := readnInt >>= fun r =>
      if r.1 = -1 ∨ r.1 = 0 then return .error .ebade else k r.2
    (p c = .blocked ∧ c.inp.ending = .waiting ∧ c.inp.bytes.length < 4) ∨
      (∃ c', p c = .ok (.error .ebade, c')) ∧ c.inp.bytes.length < 4 ∨
      ∃ bytes rest, c.inp.bytes = bytes ++ rest ∧ bytes.length = 4 ∧
        p c = k (bytesInt bytes) (c.left rest) := by
  intro p
  have hp : p c = (readn 4 >>= fun r =>
      if r.1 = -1 ∨ r.1 = 0 then return .error .ebade else k (bytesInt r.2) : ApiM _) c := by
    change ((readn 4 c).bind _).bind _ = _
    rw [Res.bind_assoc]
    rfl
  rw [hp]
  rcases readn_cases 4 (fun bytes => k (bytesInt bytes)) c with h | ⟨hbad, hlt⟩ |
    ⟨bytes, rest, hbytes, hlen, -, hk⟩
  · exact .inl h
  · exact .inr (.inl ⟨hbad, hlt.resolve_right fun h => h counts_four⟩)
  · exact .inr (.inr ⟨bytes, rest, hbytes, hlen, hk⟩)

/-- An allocation is granted, or ends the process. -/
theorem safeMalloc_cases (size : ℕ) (k : Unit → ApiM α) (c : Client) :
    (safeMalloc size >>= k) c = .halt ∨ (safeMalloc size >>= k) c = k () c := by
  rw [bind_apply, safeMalloc]
  by_cases h : c.malloc (.safe size) = true
  · rw [if_pos h]
    exact .inr rfl
  · rw [if_neg h]
    exact .inl rfl

/-- The part of a round of `write_files_sent_by_server` that reads the contents of a file. -/
def receiveBuf (path : CString) (size : ℕ) (k : Received → ApiM (Except Errno α)) :
    ApiM (Except Errno α) :=
  if size ≠ 0 then
    safeMalloc size >>= fun _ => readn size >>= fun r =>
      if r.1 = -1 ∨ r.1 = 0 then return .error .ebade else k ⟨path, size, r.2⟩
  else k ⟨path, size, []⟩

/-- The part that reads the size and the contents. -/
def receiveSize (path : CString) (k : Received → ApiM (Except Errno α)) : ApiM (Except Errno α) :=
  readn 8 >>= fun r =>
    if r.1 = -1 ∨ r.1 = 0 then return .error .ebade else receiveBuf path (bytesSize r.2) k

/-- The part that reads one file. -/
def receiveOne (pathLen : ℤ) (k : Received → ApiM (Except Errno α)) : ApiM (Except Errno α) :=
  safeMalloc sizeofSizeNBuf >>= fun _ => safeMalloc (toSize (toInt (pathLen + 1))) >>= fun _ =>
    readn (toSize (toInt (pathLen + 1))) >>= fun r =>
      if r.1 = -1 ∨ r.1 = 0 then return .error .ebade else receiveSize (cstring r.2) k

/-- The part that puts a file behind the others. -/
def pushFile (fuel : ℕ) (files : List Received) (f : Received) :
    ApiM (Except Errno (List Received)) :=
  malloc (.listNode files.length) >>= fun granted =>
    if (!granted) = true then return .error .enotrecoverable else receiveLoop fuel (files ++ [f])

theorem receiveLoop_succ (fuel : ℕ) (files : List Received) :
    receiveLoop (fuel + 1) files = readnInt >>= fun r =>
      if r.1 = -1 ∨ r.1 = 0 then return .error .ebade
      else if r.2 = 0 then return .ok files
      else receiveOne r.2 (pushFile fuel files) :=
  rfl

/-- The client has memory for a list of any number of files. -/
def Client.GrantsList (c : Client) : Prop :=
  c.malloc .list = true ∧ ∀ i, c.malloc (.listNode i) = true

theorem pushFile_eq (hlist : ∀ i, c.malloc (.listNode i) = true) (fuel : ℕ) (files : List Received)
    (f : Received) : pushFile fuel files f c = receiveLoop fuel (files ++ [f]) c := by
  rw [pushFile, bind_of_ok (malloc_eq (hlist _))]
  rfl

/-- Some bytes start with a file. -/
def Holds (good : ℕ → Prop) (pathLen : ℤ) (bytes : List UInt8) : Prop :=
  ∃ path size buf more, bytes = path ++ (size ++ (buf ++ more)) ∧ OneFile good pathLen path size buf

/-- What is read of a file. -/
theorem receiveOne_cases (pathLen : ℤ) (k : Received → ApiM (Except Errno α)) (c : Client) :
    receiveOne pathLen k c = .halt ∨
      (receiveOne pathLen k c = .blocked ∧ c.inp.ending = .waiting ∧
        ¬Holds (fun _ => True) pathLen c.inp.bytes) ∨
      ((∃ c', receiveOne pathLen k c = .ok (.error .ebade, c')) ∧
        ¬Holds Counts pathLen c.inp.bytes) ∨
      ∃ path size buf more, c.inp.bytes = path ++ (size ++ (buf ++ more)) ∧
        OneFile Counts pathLen path size buf ∧
        receiveOne pathLen k c = k ⟨cstring path, bytesSize size, buf⟩ (c.left more) := by
  rw [receiveOne]
  generalize hlen : toSize (toInt (pathLen + 1)) = len
  have hpath : ∀ {good path size buf more}, c.inp.bytes = path ++ (size ++ (buf ++ more)) →
      OneFile good pathLen path size buf → path.length = len ∧ len ≤ c.inp.bytes.length := by
    intro good path size buf more hbytes hfile
    rw [← hlen, ← hfile.length_path, hbytes, List.length_append]
    exact ⟨rfl, Nat.le_add_right _ _⟩
  rcases safeMalloc_cases sizeofSizeNBuf
    (fun _ => safeMalloc len >>= fun _ => readn len >>= fun r =>
      if r.1 = -1 ∨ r.1 = 0 then return .error .ebade else receiveSize (cstring r.2) k) c with h | h
  · exact .inl h
  rw [h]
  rcases safeMalloc_cases len (fun _ => readn len >>= fun r =>
      if r.1 = -1 ∨ r.1 = 0 then return .error .ebade else receiveSize (cstring r.2) k) c with h | h
  · exact .inl h
  rw [h]
  rcases readn_cases len (fun path => receiveSize (cstring path) k) c with ⟨h, hwait, hlt⟩ |
    ⟨h, hbad⟩ | ⟨path, rest, hbytes, hplen, hpcounts, h⟩
  · refine .inr (.inl ⟨h, hwait, fun ⟨_, _, _, _, hbytes, hfile⟩ => ?_⟩)
    exact Nat.not_lt.2 (hpath hbytes hfile).2 hlt
  · refine .inr (.inr (.inl ⟨h, fun ⟨path, _, _, _, hbytes, hfile⟩ => ?_⟩))
    have hfits := hpath hbytes hfile
    rcases hbad with hlt | hcounts
    · exact Nat.not_lt.2 hfits.2 hlt
    · exact hcounts (hfits.1 ▸ hfile.good_path)
  rw [h]
  -- the path has arrived, the size comes next
  have hsize : ∀ {good path' size buf more}, c.inp.bytes = path' ++ (size ++ (buf ++ more)) →
      OneFile good pathLen path' size buf → rest = size ++ (buf ++ more) ∧ 8 ≤ rest.length := by
    intro good path' size buf more hbytes' hfile
    have hrest := (List.append_inj (hbytes.symm.trans hbytes')
      (hplen.trans (hpath hbytes' hfile).1.symm)).2
    rw [hrest, List.length_append, hfile.length_size]
    exact ⟨rfl, Nat.le_add_right _ _⟩
  rw [receiveSize]
  rcases readn_cases 8 (fun size => receiveBuf (cstring path) (bytesSize size) k) (c.left rest)
    with ⟨h, hwait, hlt⟩ | ⟨h, hbad⟩ | ⟨size, rest', hrest, hslen, -, h⟩
  · refine .inr (.inl ⟨h, hwait, fun ⟨_, _, _, _, hbytes', hfile⟩ => ?_⟩)
    exact Nat.not_lt.2 (hsize hbytes' hfile).2 hlt
  · refine .inr (.inr (.inl ⟨h, fun ⟨_, _, _, _, hbytes', hfile⟩ => ?_⟩))
    exact Nat.not_lt.2 (hsize hbytes' hfile).2 (hbad.resolve_right fun h => h counts_eight)
  rw [h, receiveBuf]
  change rest = size ++ rest' at hrest
  by_cases hzero : bytesSize size ≠ 0
  · -- the contents come last
    rw [if_pos hzero]
    have hbuf : ∀ {good path' size' buf more}, c.inp.bytes = path' ++ (size' ++ (buf ++ more)) →
        OneFile good pathLen path' size' buf →
        bytesSize size ≤ rest'.length ∧ good (bytesSize size) := by
      intro good path' size' buf more hbytes' hfile
      obtain ⟨rfl, hrest'⟩ := List.append_inj (hrest.symm.trans (hsize hbytes' hfile).1)
        (hslen.trans hfile.length_size.symm)
      rw [hrest', List.length_append, hfile.length_buf]
      exact ⟨Nat.le_add_right _ _, hfile.good_buf hzero⟩
    rcases safeMalloc_cases (bytesSize size) (fun _ => readn (bytesSize size) >>= fun r =>
      if r.1 = -1 ∨ r.1 = 0 then return .error .ebade
      else k ⟨cstring path, bytesSize size, r.2⟩) ((c.left rest).left rest') with h | h
    · exact .inl h
    rw [h]
    rcases readn_cases (bytesSize size) (fun buf => k ⟨cstring path, bytesSize size, buf⟩)
      ((c.left rest).left rest') with ⟨h, hwait, hlt⟩ | ⟨h, hbad⟩ |
        ⟨buf, more, hmore, hblen, hbcounts, h⟩
    · refine .inr (.inl ⟨h, hwait, fun ⟨_, _, _, _, hbytes', hfile⟩ => ?_⟩)
      exact Nat.not_lt.2 (hbuf hbytes' hfile).1 hlt
    · refine .inr (.inr (.inl ⟨h, fun ⟨_, _, _, _, hbytes', hfile⟩ => ?_⟩))
      rcases hbad with hlt | hcounts
      · exact Nat.not_lt.2 (hbuf hbytes' hfile).1 hlt
      · exact hcounts (hbuf hbytes' hfile).2
    change rest' = buf ++ more at hmore
    exact .inr (.inr (.inr ⟨path, size, buf, more, by rw [hbytes, hrest, hmore],
      ⟨hplen.trans hlen.symm, hplen ▸ hpcounts, hslen, hblen, fun _ => hbcounts⟩, h⟩))
  · rw [if_neg hzero]
    exact .inr (.inr (.inr ⟨path, size, [], rest', by rw [hbytes, hrest]; rfl,
      ⟨hplen.trans hlen.symm, hplen ▸ hpcounts, hslen, (not_not.1 hzero).symm, fun h =>
        absurd h hzero⟩,
      rfl⟩))

/-- What is read of a list of files. -/
theorem receiveLoop_cases {fuel : ℕ} (hfuel : c.inp.bytes.length < fuel) (acc : List Received)
    (hlist : ∀ i, c.malloc (.listNode i) = true) :
    receiveLoop fuel acc c = .halt ∨
      (receiveLoop fuel acc c = .blocked ∧ c.inp.ending = .waiting ∧
        ¬∃ files rest, FileList (fun _ => True) c.inp.bytes files rest) ∨
      ((∃ c', receiveLoop fuel acc c = .ok (.error .ebade, c')) ∧
        ¬∃ files rest, FileList Counts c.inp.bytes files rest) ∨
      ∃ files rest, FileList Counts c.inp.bytes files rest ∧
        receiveLoop fuel acc c = .ok (.ok (acc ++ files), c.left rest) := by
  induction fuel generalizing c acc with
  | zero => exact absurd hfuel (Nat.not_lt_zero _)
  | succ fuel ih =>
    rw [receiveLoop_succ]
    have hfour : ∀ {good files rest}, FileList good c.inp.bytes files rest →
        4 ≤ c.inp.bytes.length := by
      intro good files rest h
      generalize c.inp.bytes = bytes at h
      cases h with
      | done hlen | file hlen =>
        rw [List.length_append, hlen]
        exact Nat.le_add_right _ _
    rcases readnInt_cases (fun pathLen => if pathLen = 0 then return .ok acc
      else receiveOne pathLen (pushFile fuel acc)) c with ⟨h, hwait, hlt⟩ | ⟨h, hlt⟩ |
      ⟨len, rest, hbytes, hlen, h⟩
    · exact .inr (.inl ⟨h, hwait, fun ⟨_, _, hlist⟩ => Nat.not_lt.2 (hfour hlist) hlt⟩)
    · exact .inr (.inr (.inl ⟨h, fun ⟨_, _, hlist⟩ => Nat.not_lt.2 (hfour hlist) hlt⟩))
    rw [h, hbytes]
    by_cases hend : bytesInt len = 0
    · rw [if_pos hend]
      exact .inr (.inr (.inr ⟨[], rest, .done hlen hend, by rw [List.append_nil]; rfl⟩))
    · rw [if_neg hend]
      -- a list is a file with a list behind it
      have hholds : ∀ {good files rest'}, FileList good (len ++ rest) files rest' →
          ∃ path size buf more files', rest = path ++ (size ++ (buf ++ more)) ∧
            OneFile good (bytesInt len) path size buf ∧ FileList good more files' rest' := by
        intro good files rest' hlist
        rcases hlist.of_append hlen with ⟨hzero, -⟩ |
          ⟨-, path, size, buf, more, files', hrest, hfile,
          -, htail⟩
        · exact absurd hzero hend
        · exact ⟨path, size, buf, more, files', hrest, hfile, htail⟩
      rcases receiveOne_cases (bytesInt len) (pushFile fuel acc) (c.left rest)
        with h | ⟨h, hwait, hnone⟩ | ⟨h, hnone⟩ | ⟨path, size, buf, more, hrest, hfile, h⟩
      · exact .inl h
      · refine .inr (.inl ⟨h, hwait, fun ⟨_, _, hlist⟩ => hnone ?_⟩)
        obtain ⟨path, size, buf, more, files', hrest, hfile, -⟩ := hholds hlist
        exact ⟨path, size, buf, more, hrest, hfile⟩
      · refine .inr (.inr (.inl ⟨h, fun ⟨_, _, hlist⟩ => hnone ?_⟩))
        obtain ⟨path, size, buf, more, files', hrest, hfile, -⟩ := hholds hlist
        exact ⟨path, size, buf, more, hrest, hfile⟩
      rw [h, pushFile_eq (by exact hlist)]
      change rest = path ++ (size ++ (buf ++ more)) at hrest
      have htail : ∀ {good files rest'}, FileList good (len ++ rest) files rest' →
          ∃ files', FileList good more files' rest' := by
        intro good files rest' hlist
        obtain ⟨path', size', buf', more', files', hrest', hfile', htail⟩ := hholds hlist
        obtain ⟨-, -, -, rfl⟩ := hfile.unique hfile' (hrest.symm.trans hrest')
        exact ⟨files', htail⟩
      have hless : more.length < fuel := by
        rw [hbytes, hrest] at hfuel
        simp only [List.length_append, hlen, hfile.length_size] at hfuel
        omega
      rcases ih (c := (c.left rest).left more) hless (acc ++ [⟨cstring path, bytesSize size, buf⟩])
        hlist with h | ⟨h, hwait, hnone⟩ | ⟨h, hnone⟩ | ⟨files, rest', hlist, h⟩
      · exact .inl h
      · exact .inr (.inl ⟨h, hwait, fun ⟨_, rest', hlist⟩ =>
          hnone ((htail hlist).imp fun _ h => ⟨rest', h⟩)⟩)
      · exact .inr (.inr (.inl ⟨h, fun ⟨_, rest', hlist⟩ =>
          hnone ((htail hlist).imp fun _ h => ⟨rest', h⟩)⟩))
      · rw [hrest]
        refine .inr (.inr (.inr ⟨_, rest', .file hlen hend hfile hlist, ?_⟩))
        rw [← hrest, h, List.append_assoc]
        rfl

/-- What is read of a final code. -/
theorem readSuccess_cases (c : Client) :
    (readSuccess c = .blocked ∧ c.inp.ending = .waiting ∧ c.inp.bytes.length < 4) ∨
      (∃ c', readSuccess c = .ok (.error .ebade, c')) ∧ c.inp.bytes.length < 4 ∨
      ∃ bytes rest, c.inp.bytes = bytes ++ rest ∧ bytes.length = 4 ∧
        readSuccess c = .ok (if bytesInt bytes = Sa.success.code then .ok ()
          else .error (convertResToErrno (bytesInt bytes)), c.left rest) := by
  have hread : readSuccess c = (readnInt >>= fun r =>
      if r.1 = -1 ∨ r.1 = 0 then return .error .ebade
      else return if r.2 = Sa.success.code then .ok () else .error (convertResToErrno r.2) :
        ApiM _) c := by
    rw [readSuccess, readRes]
    change ((readnInt c).bind _).bind _ = (readnInt c).bind _
    rw [Res.bind_assoc]
    refine congrArg _ (funext fun r => ?_)
    obtain ⟨⟨l, res⟩, c'⟩ := r
    dsimp only
    by_cases hl : l = -1 ∨ l = 0
    · rw [if_pos hl, if_pos hl]
      rfl
    · rw [if_neg hl, if_neg hl]
      by_cases hres : res = Sa.success.code
      · subst hres
        rfl
      · change ((if res ≠ Sa.success.code then return .error (convertResToErrno res)
          else return .ok () : ApiM (Except Errno Unit)) c') = _
        rw [if_pos hres, if_neg hres]
  rw [hread]
  exact readnInt_cases (fun res => pure (if res = Sa.success.code then .ok ()
    else .error (convertResToErrno res))) c

/-- `receiveFiles` with memory for the list, if the loop does not return. -/
theorem receiveFiles_halt (hlist : c.malloc .list = true) (h : receiveList c = .halt) :
    receiveFiles c = .halt := by
  rw [receiveFiles, bind_of_ok (malloc_eq hlist)]
  change (receiveList >>= _) c = _
  rw [bind_apply, h]
  rfl

/-- If the loop fails. -/
theorem receiveFiles_error {e : Errno} {c' : Client} (hlist : c.malloc .list = true)
    (h : receiveList c = .ok (.error e, c')) : receiveFiles c = .ok (.error e, c') := by
  rw [receiveFiles, bind_of_ok (malloc_eq hlist)]
  change (receiveList >>= _) c = _
  rw [bind_of_ok h]
  rfl

/-- If the loop has read a list of files. -/
theorem receiveFiles_code {files : List Received} {r : Except Errno Unit} {c' c'' : Client}
    (hlist : c.malloc .list = true) (h : receiveList c = .ok (.ok files, c'))
    (h' : readSuccess c' = .ok (r, c'')) : receiveFiles c = .ok (r.map fun _ => files, c'') := by
  rw [receiveFiles, bind_of_ok (malloc_eq hlist)]
  change (receiveList >>= _) c = _
  rw [bind_of_ok h]
  change (readSuccess >>= _) c' = _
  rw [bind_of_ok h']
  cases r <;> rfl

/-- What is read of a reply : the files if it is whole and no length in it counts as `0` or `-1`. -/
theorem receiveFiles_cases (hmalloc : receiveFiles c ≠ .halt) (hlist : c.GrantsList)
    (hends : c.inp.ending ≠ .waiting ∨ ∃ files code, Reply (fun _ => True) c.inp.bytes files code) :
    (∃ files code c', Reply Counts c.inp.bytes files code ∧
      receiveFiles c = .ok (if code = Sa.success.code then .ok files
        else .error (convertResToErrno code), c')) ∨
    (¬∃ files code, Reply Counts c.inp.bytes files code) ∧
      ∃ c', receiveFiles c = .ok (.error .ebade, c') := by
  rcases receiveLoop_cases (Nat.lt_succ_self _) [] hlist.2 with h | ⟨h, hwait, hnone⟩ |
    ⟨⟨c', h⟩, hnone⟩ | ⟨files, rest, hfiles, h⟩
  · exact absurd (receiveFiles_halt hlist.1 h) hmalloc
  · rcases hends with hends | ⟨files, code, res, rest, hfiles, -⟩
    · exact absurd hwait hends
    · exact absurd ⟨files, _, hfiles⟩ hnone
  · refine .inr ⟨?_, c', receiveFiles_error hlist.1 h⟩
    rintro ⟨files, code, res, rest, hfiles, -⟩
    exact hnone ⟨files, _, hfiles⟩
  · rw [List.nil_append] at h
    -- the list is followed by the code if there is a reply
    have hcode : ∀ {good files' code}, Reply good c.inp.bytes files' code →
        ∃ res rest', rest = res ++ rest' ∧ res.length = 4 := by
      rintro good files' code ⟨res, rest', hfiles', hlen, -⟩
      obtain ⟨rfl, rfl⟩ := hfiles.unique hfiles'
      exact ⟨res, rest', rfl, hlen⟩
    have hshort : rest.length < 4 → ∀ {good files' code}, ¬Reply good c.inp.bytes files' code := by
      intro hlt good files' code hreply
      obtain ⟨res, rest', rfl, hlen⟩ := hcode hreply
      rw [List.length_append, hlen] at hlt
      omega
    rcases readSuccess_cases (c.left rest) with ⟨-, hwait, hlt⟩ | ⟨⟨c', h'⟩, hlt⟩ |
      ⟨res, rest', hrest, hlen, h'⟩
    · rcases hends with hends | ⟨files, code, hreply⟩
      · exact absurd hwait hends
      · exact absurd hreply (hshort hlt)
    · refine .inr ⟨?_, c', receiveFiles_code hlist.1 h h'⟩
      rintro ⟨files, code, hreply⟩
      exact hshort hlt hreply
    · change rest = res ++ rest' at hrest
      refine .inl ⟨files, bytesInt res, (c.left rest).left rest',
        ⟨res, rest', hrest ▸ hfiles, hlen, rfl⟩, (receiveFiles_code hlist.1 h h').trans ?_⟩
      by_cases hres : bytesInt res = Sa.success.code
      · rw [if_pos hres, if_pos hres]
        rfl
      · rw [if_neg hres, if_neg hres]
        rfl

/-- Files that are read are those of a successful reply. -/
theorem reply_of_receiveFiles {files : List Received} {c' : Client} (hlist : c.GrantsList)
    (hends : c.inp.ending ≠ .waiting ∨ ∃ files code, Reply (fun _ => True) c.inp.bytes files code)
    (h : receiveFiles c = .ok (.ok files, c')) :
    Reply Counts c.inp.bytes files Sa.success.code := by
  rcases receiveFiles_cases (by rw [h]; exact nofun) hlist hends
    with ⟨files', code, c'', hreply, h'⟩ |
    ⟨-, c'', h'⟩
  · rw [h] at h'
    by_cases hcode : code = Sa.success.code
    · rw [if_pos hcode] at h'
      cases h'
      rwa [← hcode]
    · rw [if_neg hcode] at h'
      cases h'
  · rw [h] at h'
    cases h'

end Reading

/-! ## What is reported -/

/-- The first attempt at a file writes it completely. -/
def Written (disk : Disk) (dirname : CString) (x : Received × ℕ) : Prop :=
  Fits dirname x.1 ∧ (disk.attempts x.2 0).completes x.1 = true

/-- What `write_files_sent_by_server` is to return. -/
structure Reports (disk : Disk) (dirname : Option CString) (bytes : List UInt8)
    (r : Except Errno ℤ) : Prop where
  /-- The stream breaks off. -/
  broken : (¬∃ files code, Reply (fun _ => True) bytes files code) → r = .error .ebade
  /-- The final code is another one than `SA_SUCCESS`. -/
  refused : ∀ files code, Reply (fun _ => True) bytes files code → code ≠ Sa.success.code →
    r = .error (convertResToErrno code)
  /-- The files are to be destroyed. -/
  destroyed : ∀ files, Reply (fun _ => True) bytes files Sa.success.code → dirname = none →
    ∃ n, 0 ≤ n ∧ r = .ok n
  /-- The directory cannot be created. -/
  uncreated : ∀ files dir, Reply (fun _ => True) bytes files Sa.success.code → dirname = some dir →
    mkdirP disk dir ≠ 0 → r = .error .enotempty
  /-- Some file could not be written. -/
  unwritten : ∀ files dir, Reply (fun _ => True) bytes files Sa.success.code → dirname = some dir →
    mkdirP disk dir = 0 → (∃ x ∈ files.zipIdx, ¬Written disk dir x) → r = .error .ecanceled
  /-- All files are written. -/
  written : ∀ files dir, Reply (fun _ => True) bytes files Sa.success.code → dirname = some dir →
    mkdirP disk dir = 0 → (∀ x ∈ files.zipIdx, Written disk dir x) → ∃ n, 0 ≤ n ∧ r = .ok n

/-- `write_files_sent_by_server` returns this value. -/
def Returns (disk : Disk) (dirname : Option CString) (c : Client) (r : Except Errno ℤ) : Prop :=
  ∃ written : List Received → ℤ,
    (∀ files c', receiveFiles c = .ok (.ok files, c') → ∃ fuel w,
      writeListOfFilesIntoDir fuel disk dirname files = .ok (written files, w)) ∧
    ∃ c', writeFilesSentByServer written c = .ok (r, c')

section Reports

variable {c : Client} {disk : Disk} {dirname : Option CString} {r : Except Errno ℤ}
  {files : List Received} {code : ℤ} {c' : Client} {written : List Received → ℤ}

/-- No result is reported as a stream that breaks off. -/
theorem convertResToErrno_ne_ebade (res : ℤ) : convertResToErrno res ≠ .ebade := by
  unfold convertResToErrno
  split_ifs <;> exact nofun

theorem writeFilesSentByServer_error {e : Errno} (h : receiveFiles c = .ok (.error e, c')) :
    writeFilesSentByServer written c = .ok (.error e, c') := by
  rw [writeFilesSentByServer, bind_of_ok h]
  rfl

theorem writeFilesSentByServer_files (h : receiveFiles c = .ok (.ok files, c')) :
    writeFilesSentByServer written c = .ok (if toUInt (written files) < toUInt files.length then
      .error (if written files = -1 then .enotempty else .ecanceled)
      else if written files = -1 then .error .other else .ok (written files), c') := by
  rw [writeFilesSentByServer, bind_of_ok h]
  dsimp only
  split_ifs <;> rfl

/-- A `-1` is not less than the number of files. -/
theorem not_toUInt_lt (n : ℤ) : ¬toUInt (-1) < toUInt n := by
  unfold toUInt
  omega

/-- The files of a successful reply can be dealt with. -/
def Writable (disk : Disk) (files : List Received) : Option CString → Prop
  | none => toUInt files.length = 0
  | some dir => mkdirP disk dir = 0 ∧ files.length ≤ intMax ∧
    ∀ x ∈ files.zipIdx, Written disk dir x ∧ ∃ j, (disk.attempts x.2 j).passes x.1 = true

/-- What is returned for files that can be dealt with. -/
theorem returns_of_writable (h : receiveFiles c = .ok (.ok files, c'))
    (hw : Writable disk files dirname) :
    ∃ n, 0 ≤ n ∧ Returns disk dirname c (.ok n) := by
  have hunique : ∀ {files' c''}, receiveFiles c = .ok (.ok files', c'') → files' = files := by
    intro files' c'' h'
    rw [h] at h'
    cases h'
    rfl
  cases dirname with
  | none =>
    refine ⟨0, le_rfl, fun _ => 0, fun files' _ _ => ⟨0, _, rfl⟩, c', ?_⟩
    have hlt : ¬toUInt 0 < toUInt files.length := by
      rw [show toUInt files.length = 0 from hw]
      exact Nat.not_lt_zero _
    rw [writeFilesSentByServer_files h, if_neg hlt]
    rfl
  | some dir =>
    obtain ⟨hdir, hlen, hall⟩ := hw
    have hfits : ∀ f ∈ files, Fits dir f := fun f hf => by
      obtain ⟨i, hi⟩ := List.mem_iff_getElem?.1 hf
      exact (hall (f, i) (List.mem_zipIdx_iff_getElem?.2 hi)).1.1
    obtain ⟨fuel, w, hret⟩ := exists_writeListOfFilesIntoDir hdir hfits hlen fun x hx =>
      (hall x hx).2
    refine ⟨files.length, Int.natCast_nonneg _, fun _ => files.length, fun files' c'' h' =>
      ?_, c', ?_⟩
    · obtain rfl := hunique h'
      exact ⟨fuel, w, hret⟩
    · rw [writeFilesSentByServer_files h, if_neg (lt_irrefl _), if_neg (by omega)]

/-- What is returned for a successful reply. -/
theorem of_returns (h : receiveFiles c = .ok (.ok files, c')) (hr : Returns disk dirname c r) :
    match dirname with
    | none => toUInt files.length = 0 ∨ r = .error .ecanceled
    | some dir => (mkdirP disk dir = -1 ∧ r = .error .other) ∨
      mkdirP disk dir = 0 ∧ r = .ok files.length ∧ files.length ≤ intMax ∧
        ∀ x ∈ files.zipIdx, ∃ j, (disk.attempts x.2 j).passes x.1 = true := by
  obtain ⟨written, hwritten, c'', hwrite⟩ := hr
  obtain ⟨fuel, w, hret⟩ := hwritten _ _ h
  rw [writeFilesSentByServer_files h] at hwrite
  simp only [Res.ok.injEq, Prod.mk.injEq] at hwrite
  cases dirname with
  | none =>
    have hzero : written files = 0 := by
      rw [writeListOfFilesIntoDir] at hret
      simp only [Res.ok.injEq, Prod.mk.injEq] at hret
      exact hret.1.symm
    have hz : toUInt 0 = 0 := by
      unfold toUInt
      rfl
    rw [hzero, hz] at hwrite
    rcases Nat.eq_zero_or_pos (toUInt files.length) with hlen | hlen
    · exact .inl hlen
    · rw [if_pos hlen] at hwrite
      exact .inr hwrite.1.symm
  | some dir =>
    rcases of_writeListOfFilesIntoDir hret with ⟨hdir, hn⟩ | ⟨hdir, -, -, hn, hlen, hpass⟩
    · rw [hn, if_neg (not_toUInt_lt _), if_pos rfl] at hwrite
      exact .inl ⟨hdir, hwrite.1.symm⟩
    · rw [hn, if_neg (lt_irrefl _), if_neg (by omega)] at hwrite
      exact .inr ⟨hdir, hwrite.1.symm, hlen, hpass⟩

/-- For every stream and every directory, `write_files_sent_by_server` returns what it is to return
if and only if each reply that is whole announces no length that counts as `0` or `-1` and, if it is
successful, no file is sent to be destroyed, or the directory can be created, the first attempt at
each file writes it completely and some attempt does not look short. -/
theorem reports_iff (hmalloc : receiveFiles c ≠ .halt) (hlist : c.GrantsList)
    (hends : c.inp.ending ≠ .waiting ∨ ∃ files code, Reply (fun _ => True) c.inp.bytes files code) :
    (∃ r, Returns disk dirname c r ∧ Reports disk dirname c.inp.bytes r) ↔
      ∀ files code, Reply (fun _ => True) c.inp.bytes files code →
        Reply Counts c.inp.bytes files code ∧
          (code = Sa.success.code → Writable disk files dirname) := by
  rcases receiveFiles_cases hmalloc hlist hends with ⟨files, code, c', hreply, hread⟩ |
    ⟨hnone, c', hread⟩
  · by_cases hcode : code = Sa.success.code
    · subst hcode
      rw [if_pos rfl] at hread
      constructor
      · rintro ⟨r, hreturns, hrep⟩ files' code' hreply'
        obtain ⟨rfl, rfl⟩ := hreply'.unique hreply
        refine ⟨hreply, fun _ => ?_⟩
        have hret := of_returns hread hreturns
        cases dirname with
        | none =>
          obtain ⟨n, -, rfl⟩ := hrep.destroyed _ hreply' rfl
          exact hret.resolve_right nofun
        | some dir =>
          rcases hret with ⟨hdir, rfl⟩ | ⟨hdir, rfl, hlen, hpass⟩
          · have := hrep.uncreated _ dir hreply' rfl (by rw [hdir]; exact nofun)
            cases this
          · refine ⟨hdir, hlen, fun x hx => ⟨?_, hpass x hx⟩⟩
            by_contra hx'
            have := hrep.unwritten _ dir hreply' rfl hdir ⟨x, hx, hx'⟩
            cases this
      · intro hcond
        have hwritable := (hcond _ _ hreply.weaken).2 rfl
        obtain ⟨n, hn, hreturns⟩ := returns_of_writable hread hwritable
        refine ⟨_, hreturns,
          ⟨fun h => absurd ⟨_, _, hreply.weaken⟩ h, fun files' code' hreply' hne => ?_,
          fun _ _ _ => ⟨n, hn, rfl⟩, fun files' dir hreply' hdirname hdir => ?_,
          fun files' dir hreply' hdirname hdir ⟨x, hx, hx'⟩ => ?_, fun _ _ _ _ _ _ => ⟨n, hn, rfl⟩⟩⟩
        · exact absurd (hreply'.unique hreply).2 hne
        · subst hdirname
          exact absurd hwritable.1 hdir
        · subst hdirname
          obtain ⟨rfl, -⟩ := hreply'.unique hreply
          exact absurd (hwritable.2.2 x hx).1 hx'
    · rw [if_neg hcode] at hread
      have hnot : ∀ {files'}, ¬Reply (fun _ => True) c.inp.bytes files' Sa.success.code :=
        fun h => hcode (hreply.unique h).2
      constructor
      · rintro - files' code' hreply'
        obtain ⟨rfl, rfl⟩ := hreply'.unique hreply
        exact ⟨hreply, fun h => absurd h hcode⟩
      · intro _
        refine ⟨_, ⟨fun _ => 0, fun _ _ h => ?_, c', writeFilesSentByServer_error hread⟩,
          fun h => absurd ⟨_, _, hreply.weaken⟩ h, fun files' code' hreply' _ => ?_,
          fun _ h => absurd h hnot, fun _ _ h => absurd h hnot, fun _ _ h => absurd h hnot,
          fun _ _ h => absurd h hnot⟩
        · rw [hread] at h
          cases h
        · rw [(hreply'.unique hreply).2]
  · constructor
    · rintro ⟨r, ⟨written, -, c'', hwrite⟩, hrep⟩ files code hreply
      rw [writeFilesSentByServer_error hread] at hwrite
      cases hwrite
      -- a whole reply is not reported as one that breaks off
      exfalso
      by_cases hcode : code = Sa.success.code
      · subst hcode
        cases dirname with
        | none =>
          obtain ⟨n, -, h⟩ := hrep.destroyed _ hreply rfl
          cases h
        | some dir =>
          by_cases hdir : mkdirP disk dir = 0
          · by_cases hall : ∀ x ∈ files.zipIdx, Written disk dir x
            · obtain ⟨n, -, h⟩ := hrep.written _ dir hreply rfl hdir hall
              cases h
            · push Not at hall
              have := hrep.unwritten _ dir hreply rfl hdir hall
              cases this
          · have := hrep.uncreated _ dir hreply rfl hdir
            cases this
      · have := hrep.refused _ _ hreply hcode
        simp only [Except.error.injEq] at this
        exact convertResToErrno_ne_ebade _ this.symm
    · intro hcond
      have hnot : ∀ {files code}, ¬Reply (fun _ => True) c.inp.bytes files code :=
        fun h => hnone ⟨_, _, (hcond _ _ h).1⟩
      refine ⟨_, ⟨fun _ => 0, fun _ _ h => ?_, c', writeFilesSentByServer_error hread⟩,
        fun _ => rfl, fun _ _ h => absurd h hnot, fun _ h => absurd h hnot,
        fun _ _ h => absurd h hnot, fun _ _ h => absurd h hnot, fun _ _ h => absurd h hnot⟩
      rw [hread] at h
      cases h

/-- An example of `reports_iff` : two files, and a directory that takes every file. -/
theorem reports_iff_two : ∃ bytes files r, Reply Counts bytes files Sa.success.code ∧
    files.map Received.path = [[97], [98]] ∧
    Returns ⟨fun _ => .made, fun _ _ => .opened 8, fun _ => none⟩ (some [100]) (.ofBytes bytes) r ∧
    Reports ⟨fun _ => .made, fun _ _ => .opened 8, fun _ => none⟩ (some [100]) bytes r := by
  let disk : Disk := ⟨fun _ => .made, fun _ _ => .opened 8, fun _ => none⟩
  let file (name : UInt8) : File :=
    (File.new allGranted [name] 0 3 ⟨0, 0⟩ ⟨0, 0⟩).written 2 [1, 2] ⟨0, 0⟩
  let files : List File := [file 97, file 98]
  let bytes := (listPieces files).flatten ++ (intBytes Sa.success.code ++ [])
  let c : Client := .ofBytes bytes
  have htwo : toInt (2 : ℕ) ≠ 0 ∧ toInt (2 : ℕ) ≠ -1 := by
    rw [toInt_of_range (by decide) (by decide)]
    decide
  have hone : ∀ name, (file name).Sendable ∧ (file name).Sized := fun name =>
    ⟨⟨List.cons_ne_nil _ _, show 1 < intMax by decide, fun _ => htwo⟩, rfl,
      show 2 < 2 ^ 64 by decide⟩
  have hsendable : ∀ f ∈ files, f.Sendable ∧ f.Sized :=
    List.forall_mem_cons.2 ⟨hone 97, List.forall_mem_singleton.2 (hone 98)⟩
  have hread : receiveFiles c = .ok (.ok (files.map File.received), c.left []) :=
    receiveFiles_left (c := c) hsendable (.of_granted (fun _ => rfl) _) .success
  let c' : Client := { c with inp := ⟨bytes, .eof⟩ }
  have hread' : receiveFiles c' = .ok (.ok (files.map File.received), c'.left []) :=
    receiveFiles_left (c := c') hsendable (.of_granted (fun _ => rfl) _) .success
  have hreply : Reply Counts c.inp.bytes (files.map File.received) Sa.success.code :=
    reply_of_receiveFiles (c := c') ⟨rfl, fun _ => rfl⟩ (.inl fun h => (by cases h)) hread'
  have hnames : (files.map File.received).map Received.path = [[97], [98]] := rfl
  have hwritten : ∀ x ∈ (files.map File.received).zipIdx, Written disk [100] x ∧
      ∃ j, (disk.attempts x.2 j).passes x.1 = true := by
    rintro ⟨g, i⟩ hx
    have hg : g ∈ files.map File.received := List.fst_mem_of_mem_zipIdx hx
    have hfits : Fits [100] g ∧ g.size = 2 := by
      rcases List.mem_cons.1 hg with rfl | hg
      · decide
      · obtain rfl := List.mem_singleton.1 hg
        decide
    have hcompletes : (disk.attempts i 0).completes g = true :=
      decide_eq_true (show g.size ≤ 8 by omega)
    exact ⟨⟨hfits.1, hcompletes⟩, 0,
      Attempt.passes_of_completes (show g.size ≤ intMax by rw [hfits.2]; decide) hcompletes⟩
  obtain ⟨r, hreturns, hreports⟩ := (@reports_iff c disk (some [100])
    (by rw [hread]; exact nofun) ⟨rfl, fun _ => rfl⟩ (.inr ⟨_, _, hreply.weaken⟩)).2
    fun files' code h => by
      obtain ⟨rfl, rfl⟩ := h.unique hreply
      exact ⟨hreply, fun _ => ⟨rfl, by decide, hwritten⟩⟩
  exact ⟨bytes, _, r, hreply, hnames, hreturns, hreports⟩

/-- A file that is to be destroyed : the request is successful, and reported as an error. -/
theorem not_reports_destroyed : ∃ bytes : List UInt8,
    (¬∃ r, Returns ⟨fun _ => .made, fun _ _ => .opened 8, fun _ => none⟩ none (.ofBytes bytes) r ∧
      Reports ⟨fun _ => .made, fun _ _ => .opened 8, fun _ => none⟩ none bytes r) ∧
    ∃ c', readNFiles 1 (fun _ => 0) (.ofBytes (intBytes Sa.success.code ++ bytes)) =
      .ok (.error .ecanceled, c') := by
  let f := (File.new allGranted [97] 0 3 ⟨0, 0⟩ ⟨0, 0⟩).written 2 [1, 2] ⟨0, 0⟩
  let bytes := (listPieces [f]).flatten ++ (intBytes Sa.success.code ++ [])
  have hf : ∀ g ∈ [f], g.Sendable ∧ g.Sized := by
    refine List.forall_mem_singleton.2 ⟨⟨nofun, by decide, fun _ => ?_⟩, rfl, by decide⟩
    change toInt 2 ≠ 0 ∧ toInt 2 ≠ -1
    rw [toInt_of_range (by decide) (by decide)]
    decide
  have hread : ∀ c : Client, (∀ n, c.malloc n = true) →
      receiveFiles (c.left bytes) = .ok (.ok [f.received], c.left []) := fun c hmalloc =>
    receiveFiles_left hf (.of_granted hmalloc _) .success
  have hone : toUInt 0 < toUInt ([f.received].length : ℤ) := by
    change toUInt 0 < toUInt 1
    unfold toUInt
    decide
  refine ⟨bytes, ?_, ?_⟩
  · rintro ⟨r, hreturns, hrep⟩
    have hread' := hread (.ofBytes bytes) fun _ => rfl
    have hret : toUInt ([f.received].length : ℤ) = 0 ∨ r = .error .ecanceled :=
      of_returns hread' hreturns
    obtain rfl := hret.resolve_left (Nat.ne_of_gt (Nat.lt_of_le_of_lt (Nat.zero_le _) hone))
    let c : Client := { Client.ofBytes [] with inp := ⟨[], .eof⟩ }
    have hreply : Reply Counts bytes [f.received] Sa.success.code :=
      reply_of_receiveFiles (c := c.left bytes) ⟨rfl, fun _ => rfl⟩ (.inl fun h => (by cases h))
        (hread c fun _ => rfl)
    obtain ⟨n, -, h⟩ := hrep.destroyed _ hreply.weaken rfl
    cases h
  · let c : Client := { Client.ofBytes [] with out := (readNFilesPieces 1).flatten }
    refine ⟨c, ?_⟩
    rw [readNFiles, whenConnected_of rfl, bind_of_ok (setLastOp_apply ..), exchange_eq rfl]
    change filesReply _ (c.left (intBytes Sa.success.code ++ bytes)) = _
    rw [filesReply, bind_of_ok readSuccess_left, if_pos rfl]
    dsimp only
    rw [writeFilesSentByServer_files (hread c fun _ => rfl), if_pos hone]
    rfl

end Reports

end StorageServer.Api
