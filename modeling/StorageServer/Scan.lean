import StorageServer.Directory

/-!
# The files of a directory tree

`rec_scan_dirs` on a finite directory tree, with the outcome of the upload of each file. What is
left of `N` is passed down to the subdirectories, and the number of uploads is passed up as the
value that is returned, unless it is an error code. So the files uploaded from a subdirectory
that fails are not counted, and not taken from `N` (`recScanDirs_counts`).
-/

open Programs

namespace StorageServer

open Api (Errno)

/-! ## Trees -/

/-- How the calls that upload a file end : with an `errno`, or not. -/
structure Upload where
  openFile : Option Errno
  writeFile : Option Errno
  closeFile : Option Errno
  deriving DecidableEq, Repr

/-- `CHECK_IF_FATAL_ERR` ends the process. -/
def Errno.fatal (e : Errno) : Bool :=
  e = .enotrecoverable ∨ e = .ebade

/-- The result of one call : whether the file goes on. -/
def checkCall (call : Option Errno) (next : Res Bool) : Res Bool :=
  match call with
  | some e => if Errno.fatal e then .halt else .ok false
  | none => next

/-- Whether a file is sent to the server. -/
def Upload.send (up : Upload) : Res Bool :=
  checkCall up.openFile (checkCall up.writeFile (checkCall up.closeFile (.ok true)))

/-- What `readdir` gives for a directory, entry by entry. -/
inductive Tree
  /-- `readdir` returns `NULL`, at the end or for an error. -/
  | done (fails : Bool)
  /-- `.` or `..`. -/
  | dot (rest : Tree)
  /-- An entry whose `stat` fails. -/
  | unreadable (name : CString) (rest : Tree)
  | file (name : CString) (up : Upload) (rest : Tree)
  /-- A subdirectory, that `opendir` may fail to open. -/
  | dir (name : CString) (opens : Bool) (sub rest : Tree)
  deriving DecidableEq, Repr

/-- "old_dir_path/new_file". -/
def newPath (dirname name : CString) : CString :=
  dirname ++ slash :: name

/-- The condition of the loop, before `readdir` is called. -/
def whileReads (N nReads : ℤ) (body : Res (ℤ × List CString)) : Res (ℤ × List CString) :=
  if N = -1 ∨ nReads < N then body else .ok (nReads, [])

/-- The loop of `rec_scan_dirs` : what is returned, and the files that have been uploaded. -/
def Tree.scan : Tree → CString → ℤ → ℤ → Res (ℤ × List CString)
  | .done fails, _, N, nReads =>
    whileReads N nReads (.ok (if fails then -1 else nReads, []))
  | .dot rest, dirname, N, nReads => whileReads N nReads (rest.scan dirname N nReads)
  | .unreadable _ _, _, N, nReads => whileReads N nReads (.ok (-3, []))
  | .file name up rest, dirname, N, nReads =>
    whileReads N nReads <| up.send.bind fun sent =>
      if sent then
        (rest.scan dirname N (nReads + 1)).bind fun r => .ok (r.1, newPath dirname name :: r.2)
      else rest.scan dirname N nReads
  | .dir name opens sub rest, dirname, N, nReads =>
    whileReads N nReads <|
      (if opens then sub.scan (newPath dirname name) (if N = -1 then -1 else N - nReads) 0
        else .ok (-1, [])).bind fun r =>
      -- an error of the subdirectory leaves the count as it was
      (rest.scan dirname N (if r.1 ≥ 0 then nReads + r.1 else nReads)).bind fun r' =>
        .ok (r'.1, r.2 ++ r'.2)

/-- `rec_scan_dirs`. -/
def recScanDirs (dirname : CString) (N : ℤ) (opens : Bool) (t : Tree) : Res (ℤ × List CString) :=
  if opens then t.scan dirname N 0 else .ok (-1, [])

/-! ## What is to be uploaded -/

/-- No call ends the process. -/
def Upload.NonFatal (up : Upload) : Prop :=
  up.send ≠ .halt

theorem Upload.send_cases (up : Upload) (h : up.NonFatal) : ∃ sent, up.send = .ok sent := by
  have hcheck : ∀ {call next}, checkCall call next ≠ .halt →
      (next ≠ .halt → ∃ sent, next = .ok sent) →
      ∃ sent, checkCall call next = .ok sent := by
    intro call next hne hnext
    unfold checkCall at hne ⊢
    cases call with
    | none => exact hnext hne
    | some e =>
      dsimp only at hne ⊢
      split_ifs at hne ⊢
      · exact absurd rfl hne
      · exact ⟨_, rfl⟩
  exact hcheck h fun h => hcheck h fun h => hcheck h fun _ => ⟨_, rfl⟩

/-- No upload in a tree ends the process. -/
def Tree.NonFatal : Tree → Prop
  | .done _ => True
  | .dot rest => rest.NonFatal
  | .unreadable _ rest => rest.NonFatal
  | .file _ up rest => up.NonFatal ∧ rest.NonFatal
  | .dir _ _ sub rest => sub.NonFatal ∧ rest.NonFatal

/-- How many files a scan is to upload that may upload `budget` files, and whether it comes to an
error of the directory itself. Every file that is uploaded is taken from the budget. -/
def Tree.uploads : Tree → ℕ → ℕ × Bool
  | _, 0 => (0, false)
  | .done fails, _ + 1 => (0, fails)
  | .dot rest, b + 1 => rest.uploads (b + 1)
  | .unreadable _ _, _ + 1 => (0, true)
  | .file _ up rest, b + 1 =>
    match up.send with
    | .ok true => ((rest.uploads b).1 + 1, (rest.uploads b).2)
    | _ => rest.uploads (b + 1)
  | .dir _ opens sub rest, b + 1 =>
    let k := if opens then (sub.uploads (b + 1)).1 else 0
    (k + (rest.uploads (b + 1 - k)).1, (rest.uploads (b + 1 - k)).2)

/-- No subdirectory that is scanned comes to an error after an upload. -/
def Tree.Counted : Tree → ℕ → Prop
  | _, 0 => True
  | .done _, _ + 1 => True
  | .dot rest, b + 1 => rest.Counted (b + 1)
  | .unreadable _ _, _ + 1 => True
  | .file _ up rest, b + 1 =>
    match up.send with
    | .ok true => rest.Counted b
    | _ => rest.Counted (b + 1)
  | .dir _ opens sub rest, b + 1 =>
    (opens = true → ((sub.uploads (b + 1)).2 = true → (sub.uploads (b + 1)).1 = 0) ∧
      sub.Counted (b + 1)) ∧
    rest.Counted (b + 1 - if opens then (sub.uploads (b + 1)).1 else 0)

/-- The directory itself has no error. -/
def Tree.Sound : Tree → Prop
  | .done fails => fails = false
  | .dot rest => rest.Sound
  | .unreadable _ _ => False
  | .file _ _ rest => rest.Sound
  | .dir _ _ _ rest => rest.Sound

namespace Tree

variable {t sub rest : Tree} {b : ℕ} {dirname : CString}

@[simp] theorem uploads_zero (t : Tree) : t.uploads 0 = (0, false) := by
  cases t <;> rfl

@[simp] theorem counted_zero (t : Tree) : t.Counted 0 := by
  cases t <;> exact trivial

/-- No more files are to be uploaded than the budget allows. -/
theorem uploads_le (t : Tree) (b : ℕ) : (t.uploads b).1 ≤ b := by
  induction t generalizing b with
  | done fails => cases b <;> exact Nat.zero_le _
  | dot rest ih =>
    cases b with
    | zero => exact Nat.le_refl 0
    | succ b => exact ih (b + 1)
  | unreadable name rest => cases b <;> exact Nat.zero_le _
  | file name up rest ih =>
    cases b with
    | zero => exact Nat.le_refl 0
    | succ b =>
      rw [uploads]
      split
      · exact Nat.succ_le_succ (ih b)
      · exact ih (b + 1)
  | dir name opens sub rest ihsub ih =>
    cases b with
    | zero => exact Nat.le_refl 0
    | succ b =>
      have hsub := ihsub (b + 1)
      rw [uploads]
      dsimp only
      split_ifs
      · have := ih (b + 1 - (sub.uploads (b + 1)).1)
        omega
      · have := ih (b + 1 - 0)
        omega

/-- Where nothing is to be uploaded, nothing is lost. -/
theorem counted_of_uploads (h : (t.uploads b).1 = 0) : t.Counted b := by
  induction t generalizing b with
  | done | unreadable => cases b <;> exact trivial
  | dot rest ih =>
    cases b with
    | zero => exact trivial
    | succ b => exact ih h
  | file name up rest ih =>
    cases b with
    | zero => exact trivial
    | succ b =>
      rw [uploads] at h
      rw [Counted]
      split at h
      · cases h
      · exact ih h
  | dir name opens sub rest ihsub ih =>
    cases b with
    | zero => exact trivial
    | succ b =>
      rw [uploads] at h
      rw [Counted]
      dsimp only at h
      obtain ⟨hsub, hrest⟩ := Nat.add_eq_zero_iff.1 h
      refine ⟨fun hopens => ?_, ih hrest⟩
      rw [if_pos hopens] at hsub
      exact ⟨fun _ => hsub, ihsub hsub⟩

/-- What a scan comes to that begins with `nReads` and may upload `b` files more. -/
structure Scanned (t : Tree) (b : ℕ) (nReads r : ℤ) (log : List CString) : Prop where
  range : 0 ≤ r → nReads ≤ r ∧ r ≤ nReads + b ∧ r ≤ nReads + log.length
  counted : t.Counted b → log.length = (t.uploads b).1 ∧ (r < 0 ↔ (t.uploads b).2 = true) ∧
    (0 ≤ r → r = nReads + log.length)
  nothing : log = [] → t.uploads b = (0, decide (r < 0))
  exact : 0 ≤ r → r = nReads + log.length → t.Counted b
  sound : t.Sound → 0 ≤ r

theorem whileReads_full {N nReads : ℤ} {body : Res (ℤ × List CString)} (h : 0 ≤ nReads)
    (hN : nReads = N) : whileReads N nReads body = .ok (nReads, []) :=
  if_neg (by omega)

theorem whileReads_left {N nReads : ℤ} {body : Res (ℤ × List CString)} (hN : nReads < N) :
    whileReads N nReads body = body :=
  if_pos (.inr hN)

/-- At the end of the budget the scan stops before the next entry. -/
theorem scan_full (t : Tree) (dirname : CString) {N nReads : ℤ} (h0 : 0 ≤ nReads)
    (hN : nReads = N) :
    t.scan dirname N nReads = .ok (nReads, []) ∧ Scanned t 0 nReads nReads [] := by
  refine ⟨?_, fun _ => by simp, fun _ => by simp [h0], fun _ => by simp [h0],
    fun _ _ => counted_zero t, fun _ => h0⟩
  cases t <;> exact whileReads_full h0 hN

section Entries

variable {nReads r : ℤ} {log : List CString} {name : CString} {up : Upload} {opens : Bool}

/-- An entry that is passed over. -/
theorem Scanned.of_eq (h : Scanned rest (b + 1) nReads r log)
    (huploads : t.uploads (b + 1) = rest.uploads (b + 1))
    (hcounted : t.Counted (b + 1) ↔ rest.Counted (b + 1)) (hsound : t.Sound → rest.Sound) :
    Scanned t (b + 1) nReads r log where
  range := h.range
  counted hc := by
    rw [huploads]
    exact h.counted (hcounted.1 hc)
  nothing hlog := huploads.trans (h.nothing hlog)
  exact hr he := hcounted.2 (h.exact hr he)
  sound ht := h.sound (hsound ht)

/-- A file that is uploaded. -/
theorem Scanned.file (hsend : up.send = .ok true) (h : Scanned rest b (nReads + 1) r log)
    (path : CString) : Scanned (.file name up rest) (b + 1) nReads r (path :: log) := by
  have huploads : (Tree.file name up rest).uploads (b + 1) =
      ((rest.uploads b).1 + 1, (rest.uploads b).2) := by
    rw [uploads, hsend]
  have hcounted : (Tree.file name up rest).Counted (b + 1) ↔ rest.Counted b := by
    rw [Counted, hsend]
  refine ⟨fun hr => ?_, fun hc => ?_, fun hlog => (nomatch hlog), fun hr he => ?_,
    h.sound⟩
  · obtain ⟨hlow, hhigh, hlen⟩ := h.range hr
    rw [List.length_cons]
    omega
  · obtain ⟨hlen, hneg, heq⟩ := h.counted (hcounted.1 hc)
    rw [huploads, List.length_cons, hlen]
    refine ⟨rfl, hneg, fun hr => ?_⟩
    have := heq hr
    omega
  · rw [List.length_cons] at he
    exact hcounted.2 (h.exact hr (by omega))

/-- A subdirectory that is scanned. -/
theorem Scanned.dir {res : ℤ} {sublog : List CString} (hsub : Scanned sub (b + 1) 0 res sublog)
    (h : Scanned rest (b + 1 - (if 0 ≤ res then res.toNat else 0))
      (if 0 ≤ res then nReads + res else nReads) r log) :
    Scanned (.dir name true sub rest) (b + 1) nReads r (sublog ++ log) := by
  have huploads : (Tree.dir name true sub rest).uploads (b + 1) =
      ((sub.uploads (b + 1)).1 + (rest.uploads (b + 1 - (sub.uploads (b + 1)).1)).1,
        (rest.uploads (b + 1 - (sub.uploads (b + 1)).1)).2) := rfl
  have hcounted : (Tree.dir name true sub rest).Counted (b + 1) ↔
      (((sub.uploads (b + 1)).2 = true → (sub.uploads (b + 1)).1 = 0) ∧ sub.Counted (b + 1)) ∧
        rest.Counted (b + 1 - (sub.uploads (b + 1)).1) := by
    rw [Counted]
    simp
  have hle := uploads_le sub (b + 1)
  -- what the subdirectory has uploaded is known where nothing is lost
  have hk : sub.Counted (b + 1) → ((sub.uploads (b + 1)).2 = true → (sub.uploads (b + 1)).1 = 0) →
      (if 0 ≤ res then res.toNat else 0) = (sub.uploads (b + 1)).1 ∧
        (if 0 ≤ res then nReads + res else nReads) = nReads + sublog.length ∧
        sublog.length = (sub.uploads (b + 1)).1 := by
    intro hc hlost
    obtain ⟨hlen, hneg, heq⟩ := hsub.counted hc
    by_cases hres : 0 ≤ res
    · have := heq hres
      rw [if_pos hres, if_pos hres]
      omega
    · have := hlost (hneg.1 (Int.not_le.1 hres))
      rw [if_neg hres, if_neg hres]
      omega
  refine ⟨fun hr => ?_, fun hc => ?_, fun hlog => ?_, fun hr he => ?_, h.sound⟩
  · obtain ⟨hlow, hhigh, hlen⟩ := h.range hr
    rw [List.length_append]
    by_cases hres : 0 ≤ res
    · have := hsub.range hres
      rw [if_pos hres, if_pos hres] at hhigh
      rw [if_pos hres] at hlow hlen
      omega
    · rw [if_neg hres, if_neg hres] at hhigh
      rw [if_neg hres] at hlow hlen
      omega
  · obtain ⟨⟨hlost, hcsub⟩, hcrest⟩ := hcounted.1 hc
    obtain ⟨hbudget, hcount, hlensub⟩ := hk hcsub hlost
    rw [hbudget, hcount] at h
    obtain ⟨hlen, hneg, heq⟩ := h.counted hcrest
    rw [huploads, List.length_append, hlen, hlensub]
    refine ⟨rfl, hneg, fun hr => ?_⟩
    have := heq hr
    omega
  · obtain ⟨rfl, rfl⟩ := List.append_eq_nil_iff.1 hlog
    have hzero := hsub.nothing rfl
    have hc : sub.Counted (b + 1) := counted_of_uploads (by rw [hzero])
    obtain ⟨hbudget, -, -⟩ := hk hc fun _ => by rw [hzero]
    rw [hbudget, hzero] at h
    have hrest := h.nothing rfl
    rw [huploads, hzero]
    dsimp only at hrest ⊢
    rw [hrest, Nat.zero_add]
  · rw [List.length_append] at he
    obtain ⟨-, -, hlen⟩ := h.range hr
    have hcsub : sub.Counted (b + 1) ∧
        ((sub.uploads (b + 1)).2 = true → (sub.uploads (b + 1)).1 = 0) := by
      by_cases hres : 0 ≤ res
      · have hrange := hsub.range hres
        rw [if_pos hres] at hlen
        have hc := hsub.exact hres (by omega)
        exact ⟨hc, fun hfail => absurd ((hsub.counted hc).2.1.2 hfail) (Int.not_lt.2 hres)⟩
      · rw [if_neg hres] at hlen
        have hzero := hsub.nothing (List.eq_nil_of_length_eq_zero (by omega))
        exact ⟨counted_of_uploads (by rw [hzero]), fun _ => by rw [hzero]⟩
    obtain ⟨hbudget, hcount, -⟩ := hk hcsub.1 hcsub.2
    rw [hbudget, hcount] at h
    exact hcounted.2 ⟨⟨hcsub.2, hcsub.1⟩, h.exact hr (by omega)⟩

/-- A subdirectory that is not opened. -/
theorem Scanned.unopened (h : Scanned rest (b + 1) nReads r log) :
    Scanned (.dir name false sub rest) (b + 1) nReads r log := by
  refine h.of_eq ?_ ?_ id
  · rw [uploads]
    simp
  · rw [Counted]
    simp

end Entries

/-- What a scan comes to. -/
theorem scan_spec (t : Tree) (hfatal : t.NonFatal) (dirname : CString) {N nReads : ℤ}
    (h0 : 0 ≤ nReads)
    (hN : N = nReads + b) :
    ∃ r log, t.scan dirname N nReads = .ok (r, log) ∧ Scanned t b nReads r log := by
  induction t generalizing b dirname N nReads with
  | done fails =>
    cases b with
    | zero => exact ⟨_, _, scan_full _ dirname h0 (by omega)⟩
    | succ b =>
      refine ⟨_, _, whileReads_left (by omega), ?_⟩
      cases fails with
      | false =>
        exact ⟨fun _ => by simp; omega, fun _ => ⟨rfl, by simp [uploads, h0], fun _ => by simp⟩,
          fun _ => by simp [uploads, h0], fun _ _ => trivial, fun _ => h0⟩
      | true => exact ⟨nofun, fun _ => ⟨rfl, by simp [uploads], nofun⟩, fun _ => rfl, nofun, nofun⟩
  | dot rest ih =>
    cases b with
    | zero => exact ⟨_, _, scan_full _ dirname h0 (by omega)⟩
    | succ b =>
      obtain ⟨r, log, hscan, h⟩ := ih hfatal dirname h0 hN
      exact ⟨r, log, (whileReads_left (by omega)).trans hscan, h.of_eq rfl Iff.rfl id⟩
  | unreadable name rest =>
    cases b with
    | zero => exact ⟨_, _, scan_full _ dirname h0 (by omega)⟩
    | succ b =>
      exact ⟨_, _, whileReads_left (by omega), nofun, fun _ => ⟨rfl, by simp [uploads], nofun⟩,
        fun _ => rfl, nofun, fun ht => ht.elim⟩
  | file name up rest ih =>
    cases b with
    | zero => exact ⟨_, _, scan_full _ dirname h0 (by omega)⟩
    | succ b =>
      have hbody : (file name up rest).scan dirname N nReads = up.send.bind fun sent =>
          if sent then (rest.scan dirname N (nReads + 1)).bind fun r =>
            .ok (r.1, newPath dirname name :: r.2) else rest.scan dirname N nReads :=
        whileReads_left (by omega)
      obtain ⟨sent, hsend⟩ := up.send_cases hfatal.1
      rw [hsend, Res.bind_ok] at hbody
      cases sent with
      | true =>
        obtain ⟨r, log, hscan, h⟩ : ∃ r log, rest.scan dirname N (nReads + 1) = .ok (r, log) ∧
            Scanned rest b (nReads + 1) r log := ih hfatal.2 dirname (by omega) (by omega)
        rw [if_pos rfl, hscan, Res.bind_ok] at hbody
        exact ⟨_, _, hbody, h.file hsend _⟩
      | false =>
        obtain ⟨r, log, hscan, h⟩ := ih hfatal.2 dirname h0 hN
        rw [if_neg (by decide), hscan] at hbody
        refine ⟨_, _, hbody, h.of_eq ?_ ?_ id⟩
        · rw [uploads, hsend]
        · rw [Counted, hsend]
  | dir name opens sub rest ihsub ih =>
    cases b with
    | zero => exact ⟨_, _, scan_full _ dirname h0 (by omega)⟩
    | succ b =>
      have hbody : (dir name opens sub rest).scan dirname N nReads =
          (if opens then sub.scan (newPath dirname name) (if N = -1 then -1 else N - nReads) 0
            else .ok (-1, [])).bind fun r =>
              (rest.scan dirname N (if r.1 ≥ 0 then nReads + r.1 else nReads)).bind fun r' =>
                .ok (r'.1, r.2 ++ r'.2) :=
        whileReads_left (by omega)
      have hN1 : ¬N = -1 := by omega
      cases opens with
      | true =>
        obtain ⟨res, sublog, hsubscan, hsub⟩ : ∃ res sublog,
            sub.scan (newPath dirname name) (N - nReads) 0 = .ok (res, sublog) ∧
              Scanned sub (b + 1) 0 res sublog :=
          ihsub hfatal.1 (newPath dirname name) (Int.le_refl 0) (by omega)
        rw [if_pos rfl, if_neg hN1, hsubscan, Res.bind_ok] at hbody
        have hrange : 0 ≤ res → res ≤ b + 1 := fun hres => by
          have := (hsub.range hres).2.1
          omega
        obtain ⟨r, log, hscan, h⟩ : ∃ r log,
            rest.scan dirname N (if 0 ≤ res then nReads + res else nReads) = .ok (r, log) ∧
              Scanned rest (b + 1 - (if 0 ≤ res then res.toNat else 0))
                (if 0 ≤ res then nReads + res else nReads) r log :=
          ih hfatal.2 dirname (by split_ifs <;> omega)
            (by split_ifs with hres <;> [have := hrange hres; skip] <;> omega)
        change _ = (rest.scan dirname N (if 0 ≤ res then nReads + res else nReads)).bind _ at hbody
        rw [hscan, Res.bind_ok] at hbody
        exact ⟨_, _, hbody, hsub.dir h⟩
      | false =>
        obtain ⟨r, log, hscan, h⟩ := ih hfatal.2 dirname h0 hN
        rw [if_neg (by decide), Res.bind_ok] at hbody
        change _ = (rest.scan dirname N nReads).bind _ at hbody
        rw [hscan, Res.bind_ok] at hbody
        exact ⟨_, _, hbody, h.unopened⟩

end Tree

/-- At most `N` files are uploaded from a directory tree, and if a number is returned that is not
negative it is the number of these files, where no subdirectory that is scanned comes to an error
after an upload. If the directory itself has no error, that is the only case. -/
theorem recScanDirs_counts {t : Tree} (hfatal : t.NonFatal) (dirname : CString)
    (opens : Bool) (N : ℕ) :
    ∃ r log, recScanDirs dirname N opens t = .ok (r, log) ∧
      ((opens = true → t.Counted N) → log.length ≤ N ∧ (0 ≤ r → r = log.length)) ∧
      (opens = true → t.Sound → log.length ≤ N ∧ (0 ≤ r → r = log.length) → t.Counted N) := by
  cases opens with
  | false => exact ⟨-1, [], rfl, fun _ => ⟨Nat.zero_le _, nofun⟩, nofun⟩
  | true =>
    obtain ⟨r, log, hscan, h⟩ : ∃ r log, t.scan dirname N 0 = .ok (r, log) ∧
        Tree.Scanned t N 0 r log :=
      t.scan_spec hfatal dirname (Int.le_refl 0) (by omega)
    refine ⟨r, log, hscan, fun hc => ?_, fun _ hsound ⟨_, heq⟩ => ?_⟩
    · obtain ⟨hlen, -, heq⟩ := h.counted (hc rfl)
      have hle := t.uploads_le N
      refine ⟨by omega, fun hr => ?_⟩
      have := heq hr
      omega
    · have hr := h.sound hsound
      have := heq hr
      exact h.exact hr (by omega)

/-- A subdirectory with a file and an entry that can not be opened, and two files beside it. -/
def scanned : Tree :=
  .dir [101] true (.file [97] ⟨none, none, none⟩ (.dir [102] false (.done false) (.done false)))
    (.dot (.file [99] ⟨none, none, none⟩ (.file [98] ⟨none, none, none⟩ (.done false))))

/-- An example of `recScanDirs_counts` : two of three files are uploaded, one of them in the
subdirectory. -/
theorem recScanDirs_counts_subdirectory : ∃ (r : ℤ) (log : List CString),
    recScanDirs [100] (2 : ℕ) true scanned = .ok (r, log) ∧ log.length ≤ 2 ∧
      (0 ≤ r → r = log.length) ∧ log = [[100, 47, 101, 47, 97], [100, 47, 99]] := by
  have hsend : (⟨none, none, none⟩ : Upload).NonFatal := nofun
  have hcounted : scanned.Counted 2 := ⟨fun _ => ⟨fun he => (by cases he), ⟨fun he => (by cases he),
    trivial⟩⟩, trivial⟩
  obtain ⟨r, log, hscan, hcounts, -⟩ := recScanDirs_counts (t := scanned)
    ⟨⟨hsend, trivial, trivial⟩, hsend, hsend, trivial⟩ [100] true 2
  obtain ⟨hlen, hr⟩ := hcounts fun _ => hcounted
  refine ⟨r, log, hscan, hlen, hr, ?_⟩
  have hlog : recScanDirs [100] (2 : ℕ) true scanned =
      .ok (2, [[100, 47, 101, 47, 97], [100, 47, 99]]) := rfl
  cases hscan.symm.trans hlog
  rfl

/-- A subdirectory with a file and an entry whose `stat` fails, and two files beside it : three
files are uploaded where two may be, and two are counted. -/
theorem recScanDirs_uncounted : ∃ (r : ℤ) (log : List CString),
    recScanDirs [100] 2 true (.dir [101] true (.file [97] ⟨none, none, none⟩
      (.unreadable [98] (.done false))) (.file [99] ⟨none, none, none⟩ (.file [102]
        ⟨none, none, none⟩ (.done false)))) = .ok (r, log) ∧
    0 ≤ r ∧ ¬log.length ≤ 2 ∧ r ≠ log.length :=
  ⟨2, [[100, 47, 101, 47, 97], [100, 47, 99], [100, 47, 102]], rfl, by decide⟩

end StorageServer
