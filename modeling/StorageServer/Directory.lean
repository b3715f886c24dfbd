import Mathlib.Data.List.Enum
import StorageServer.Api
import StorageServer.Lib.Transition

/-!
# The files that are written into a directory

`write_list_of_files_into_dir` on a file system that answers each `mkdir`, `fopen` and `fwrite` as
it likes.

A round of the loop in which the file is not opened, or its `fwrite` looks short, goes on with the
same file. So each file is tried once only if every first attempt succeeds
(`writeListOfFilesIntoDir_iff`). The name of a file in the directory is what follows the last
slash of its path, and files with the same name are written over each other
(`found_and_kept_iff`).
-/

open Programs

namespace StorageServer

open Api (Received)

/-! ## Names -/

/-- `strrchr` : the end of the string from the last `c` on. -/
def strrchr : CString → UInt8 → Option CString
  | [], _ => none
  | b :: s, c =>
    match strrchr s c with
    | some t => some t
    | none => if b = c then some (b :: s) else none

/-- The code of the slash. -/
def slash : UInt8 :=
  47

/-- `remove_path_from_name`. -/
def removePathFromName (path : CString) : CString :=
  -- if there are no / in path, the whole path is the name
  (strrchr path slash).getD path

/-- The name of the directory entry that a path with this end denotes. -/
def entryName (path : CString) : CString :=
  match strrchr path slash with
  | some t => t.tail
  | none => path

/-- The path that a file is written to. -/
def pathToWrite (dirname : CString) (file : Received) : CString :=
  dirname ++ slash :: removePathFromName file.path

theorem strrchr_append (s t : CString) (c : UInt8) :
    strrchr (s ++ t) c = ((strrchr t c).or ((strrchr s c).map (· ++ t))) := by
  induction s with
  | nil => simp [strrchr]
  | cons b s ih =>
    rw [List.cons_append, strrchr, ih, strrchr]
    cases strrchr t c <;> cases strrchr s c <;> simp

theorem head?_of_strrchr {s t : CString} {c : UInt8} (h : strrchr s c = some t) :
    t = c :: t.tail ∧ strrchr t.tail c = none := by
  induction s with
  | nil => cases h
  | cons b s ih =>
    rw [strrchr] at h
    split at h
    · next t' hs =>
      cases h
      exact ih hs
    · next hs =>
      split_ifs at h with hb
      cases h
      exact ⟨by rw [hb, List.tail_cons], hs⟩

/-- What is written for a file is the entry with the name of the file. -/
theorem entryName_pathToWrite (dirname : CString) (file : Received) :
    entryName (pathToWrite dirname file) = entryName file.path := by
  have hslash : ∀ s : CString, strrchr s slash = none →
      strrchr (dirname ++ slash :: s) slash = some (slash :: s) := by
    intro s hs
    rw [strrchr_append, strrchr, hs]
    rfl
  rw [pathToWrite, entryName, entryName, removePathFromName]
  cases h : strrchr file.path slash with
  | none => rw [Option.getD_none, hslash _ h]; rfl
  | some t =>
    obtain ⟨ht, htail⟩ := head?_of_strrchr h
    have hlast : strrchr t slash = some t := by
      rw [ht, strrchr, htail]
      rfl
    rw [Option.getD_some, strrchr_append, strrchr, hlast]
    rfl

/-! ## The file system -/

/-- How a `mkdir` ends. -/
inductive Mkdir
  | made
  /-- `EEXIST`. -/
  | present
  | failed
  deriving DecidableEq, Repr

/-- What comes of opening a file for writing and of writing to it. -/
inductive Attempt
  /-- `fopen` fails. -/
  | refused
  /-- The file is opened, and no more bytes than these are written to it. -/
  | opened (room : ℕ)
  deriving DecidableEq, Repr

/-- The names in a directory, with what the files hold. -/
abbrev Dir := CString → Option (List UInt8)

/-- The file system of a client. -/
structure Disk where
  mkdir : CString → Mkdir
  /-- What comes of each attempt at each file of a list. -/
  attempts : ℕ → ℕ → Attempt
  /-- The directory before anything is written. -/
  dir : Dir

/-- `PATH_MAX`. -/
def pathMax : ℕ :=
  4096

/-- The loop of `mkdir_p` and the call after it, where `done` is the part of the path before
`p`. -/
def mkdirLoop (disk : Disk) : CString → CString → ℤ
  | done, [] => if disk.mkdir done = .failed then -1 else 0
  | done, b :: rest =>
    if b = slash ∧ disk.mkdir done = .failed then -1 else mkdirLoop disk (done ++ [b]) rest

/-- `mkdir_p`. The loop starts behind the first byte. For an empty path that is behind the end,
and whatever is there, each `mkdir` is of the empty path, which does not exist. -/
def mkdirP (disk : Disk) (path : CString) : ℤ :=
  if pathMax - 1 < path.length then -1
  else
    match path with
    | [] => -1
    | b :: rest => mkdirLoop disk [b] rest

/-! ## The loop -/

/-- The state of the loop of `write_list_of_files_into_dir`. -/
structure Writing where
  /-- The files from `curr` on. -/
  curr : List Received
  noWritten : ℤ
  pathToWriteLen : ℤ
  /-- The number of bytes allocated for `path_to_write`. -/
  capacity : ℕ
  dir : Dir
  /-- The number of files before `curr`. -/
  pos : ℕ
  /-- The number of attempts at the file of `curr`. -/
  tries : ℕ
  /-- The paths that have been opened, or tried to, with the positions of their files. -/
  tried : List (ℕ × CString)

namespace Writing

variable {disk : Disk} {dirname : CString} {file : Received} {rest files : List Received}
  {w w' : Writing} {path : CString}

/-- The state before the loop. -/
def start (disk : Disk) (files : List Received) : Writing :=
  ⟨files, 0, -1, 0, disk.dir, 0, 0, []⟩

/-- Make the path of a file. -/
def makePath (dirname : CString) (file : Received) (w : Writing) : Res (CString × Writing) :=
  let baseName := removePathFromName file.path
  let len := toInt (baseName.length + dirname.length + 2)
  -- reallocate memory
  let capacity := if w.pathToWriteLen < len then toSize len else w.capacity
  let text := dirname ++ slash :: baseName
  -- `snprintf` writes what fits of the text, and a `NUL`
  if toSize len = 0 ∨ capacity < min (toSize len) (text.length + 1) then .fault
  else .ok (text.take (toSize len - 1), { w with pathToWriteLen := len, capacity := capacity })

/-- Open the path, and write the file. -/
def attempt (disk : Disk) (file : Received) (rest : List Received) (path : CString) (w : Writing) :
    Res Writing :=
  let w' := { w with tried := w.tried ++ [(w.pos, path)], tries := w.tries + 1 }
  match disk.attempts w.pos w.tries with
  | .refused => .ok w'
  | .opened room =>
    let n := min room file.size
    let w' := { w' with dir := Function.update w.dir (entryName path) (some (file.buf.take n)) }
    if 0 < file.size ∧ toSize (toInt n) < file.size then .ok w'
    else if w.noWritten < intMax then
      .ok { w' with noWritten := w.noWritten + 1, curr := rest, pos := w.pos + 1, tries := 0 }
    else .fault

/-- One round. -/
def round (disk : Disk) (dirname : CString) (file : Received) (rest : List Received) (w : Writing) :
    Res Writing :=
  (makePath dirname file w).bind fun (path, w) => attempt disk file rest path w

/-- The loop, for as many rounds as `fuel` at most; it is still running if it has not come to the
end of the list. -/
def loop (disk : Disk) (dirname : CString) : ℕ → Writing → Res Writing
  | 0, w => if w.curr = [] then .ok w else .blocked
  | fuel + 1, w =>
    match w.curr with
    | [] => .ok w
    | file :: rest => (round disk dirname file rest w).bind (loop disk dirname fuel)

end Writing

/-- `write_list_of_files_into_dir` : the value returned, and the state in which the loop ends. -/
def writeListOfFilesIntoDir (fuel : ℕ) (disk : Disk) (dirname : Option CString)
    (files : List Received) : Res (ℤ × Writing) :=
  match dirname with
  | none => .ok (0, .start disk files)
  | some dirname =>
    if mkdirP disk dirname = -1 then .ok (-1, .start disk files)
    else (Writing.loop disk dirname fuel (.start disk files)).bind fun w => .ok (w.noWritten, w)

/-! ## One round -/

/-- Whether all of a file is written. -/
def Attempt.completes : Attempt → Received → Bool
  | .refused, _ => false
  | .opened room, file => file.size ≤ room

/-- Whether the loop goes on to the next file. -/
def Attempt.passes : Attempt → Received → Bool
  | .refused, _ => false
  | .opened room, file =>
    let n := min room file.size
    !(0 < file.size ∧ toSize (toInt n) < file.size)

/-- The count of a file that an `int` can count does not look short if it is not. -/
theorem Attempt.passes_of_completes {a : Attempt} {file : Received} (hsize : file.size ≤ intMax)
    (h : a.completes file = true) : a.passes file = true := by
  cases a with
  | refused => cases h
  | opened room =>
    have hroom : file.size ≤ room := of_decide_eq_true h
    have hint : toInt file.size = file.size := by
      unfold intMax at hsize
      exact toInt_of_range (by omega) (by omega)
    have hcount : toSize (file.size : ℤ) = file.size := by
      unfold intMax at hsize
      exact toSize_of_range (by omega)
    rw [Attempt.passes, Nat.min_eq_right hroom, hint, hcount]
    simp

/-- What an attempt makes of the directory. -/
def Attempt.leaves (a : Attempt) (file : Received) (path : CString) (dir : Dir) : Dir :=
  match a with
  | .refused => dir
  | .opened room =>
    Function.update dir (entryName path) (some (file.buf.take (min room file.size)))

/-- The length of the path of a file, with its `NUL`, is an `int`. -/
def Fits (dirname : CString) (file : Received) : Prop :=
  (removePathFromName file.path).length + dirname.length + 2 ≤ intMax

instance (dirname : CString) (file : Received) : Decidable (Fits dirname file) :=
  inferInstanceAs (Decidable (_ ≤ intMax))

theorem length_pathToWrite (dirname : CString) (file : Received) :
    (pathToWrite dirname file).length + 1 =
      (removePathFromName file.path).length + dirname.length + 2 := by
  rw [pathToWrite, List.length_append, List.length_cons]
  omega

namespace Writing

variable {disk : Disk} {dirname : CString} {file : Received} {rest files : List Received}
  {w w' : Writing} {path : CString} {fuel : ℕ}

/-- The buffer has at least `path_to_write_len` bytes. -/
structure Roomy (w : Writing) : Prop where
  lower : -1 ≤ w.pathToWriteLen
  upper : w.pathToWriteLen ≤ w.capacity
  capacity : w.capacity ≤ intMax

theorem roomy_start (disk : Disk) (files : List Received) : (start disk files).Roomy where
  lower := Int.le_refl (-1)
  upper := show (-1 : ℤ) ≤ (0 : ℕ) by decide
  capacity := Nat.zero_le _

/-- The allocation of a buffer for `n` bytes, where `old` was asked for before. -/
theorem roomy_capacity {old : ℤ} {n cap : ℕ} (hlower : -1 ≤ old) (hupper : old ≤ cap)
    (hcap : cap ≤ intMax) (hn : 0 < n)
    (hroom : ¬(if old < toInt n then toSize (toInt n) else cap) < min (toSize (toInt n)) n) :
    -1 ≤ toInt n ∧ toInt n ≤ (if old < toInt n then toSize (toInt n) else cap : ℕ) ∧
      (if old < toInt n then toSize (toInt n) else cap) ≤ intMax ∧
      (n ≤ toSize (toInt n) → n ≤ intMax) := by
  obtain ⟨hlow, hhigh⟩ := toInt_range n
  have hmax : (intMax : ℤ) = 2 ^ 31 - 1 := rfl
  rcases Int.lt_or_le (toInt n) 0 with hneg | hpos
  · -- a negative length is not more than the last one, and a larger buffer is written to
    have hbig : (intMax : ℤ) < n := by
      by_contra h
      rw [toInt_of_range (by omega) (by omega)] at hneg
      omega
    have hsize : intMax < toSize (toInt n) := by
      unfold toSize
      omega
    rw [if_neg (by omega)] at hroom
    omega
  · have hsize : (toSize (toInt n) : ℤ) = toInt n := by
      unfold toSize
      omega
    refine ⟨by omega, ?_, ?_, fun h => ?_⟩
    · split_ifs <;> omega
    · split_ifs <;> omega
    · omega

/-- The path that is made, by the number of bytes that it needs. -/
theorem makePath_eq (dirname : CString) (file : Received) (w : Writing) {n : ℕ}
    (hn : (pathToWrite dirname file).length + 1 = n) : makePath dirname file w =
      let capacity := if w.pathToWriteLen < toInt n then toSize (toInt n) else w.capacity
      if toSize (toInt n) = 0 ∨ capacity < min (toSize (toInt n)) n then .fault
      else .ok ((pathToWrite dirname file).take (toSize (toInt n) - 1),
        { w with pathToWriteLen := toInt n, capacity := capacity }) := by
  have hcast : ((removePathFromName file.path).length + dirname.length + 2 : ℤ) = n := by
    rw [← hn, length_pathToWrite]
    rfl
  have hlen : (dirname ++ slash :: removePathFromName file.path).length + 1 = n := hn
  simp only [makePath, hcast, hlen]
  rfl

/-- The buffer that a path is written to, if that is defined. -/
theorem of_makePath (hw : w.Roomy) (h : makePath dirname file w = .ok (path, w')) :
    ∃ len cap, w' = { w with pathToWriteLen := len, capacity := cap } ∧ w'.Roomy ∧
      (path = pathToWrite dirname file → Fits dirname file) := by
  obtain ⟨hlower, hupper, hcap⟩ := hw
  obtain ⟨n, hn⟩ : ∃ n, (pathToWrite dirname file).length + 1 = n := ⟨_, rfl⟩
  rw [makePath_eq dirname file w hn] at h
  dsimp only at h
  generalize hcapacity : (if w.pathToWriteLen < toInt n then toSize (toInt n) else w.capacity) =
    capacity at h
  split at h
  · cases h
  · next hfault =>
    rw [not_or, ← hcapacity] at hfault
    obtain ⟨hlow, hup, hmax, hfit⟩ := roomy_capacity hlower hupper hcap (by omega) hfault.2
    rw [hcapacity] at hup hmax
    simp only [Res.ok.injEq, Prod.mk.injEq] at h
    obtain ⟨rfl, rfl⟩ := h
    refine ⟨_, _, rfl, ⟨hlow, hup, hmax⟩, fun hfull => ?_⟩
    have htake : (pathToWrite dirname file).length ≤ toSize (toInt n) - 1 := by
      rw [← hfull, List.length_take]
      exact Nat.min_le_left _ _
    have hpos : 0 < toSize (toInt n) := Nat.pos_of_ne_zero hfault.1
    have hle : n ≤ toSize (toInt n) :=
      Nat.le_trans (Nat.le_of_eq hn.symm) (Nat.add_le_of_le_sub hpos htake)
    exact Nat.le_trans (Nat.le_of_eq ((length_pathToWrite dirname file).symm.trans hn)) (hfit hle)

/-- The path of a file is written to a buffer that is large enough. -/
theorem makePath_of_fits (hw : w.Roomy) (hfits : Fits dirname file) :
    ∃ len cap, makePath dirname file w =
      .ok (pathToWrite dirname file, { w with pathToWriteLen := len, capacity := cap }) ∧
      Roomy { w with pathToWriteLen := len, capacity := cap } ∧
      len = (pathToWrite dirname file).length + 1 := by
  obtain ⟨hlower, hupper, hcap⟩ := hw
  obtain ⟨n, hn⟩ : ∃ n, (pathToWrite dirname file).length + 1 = n := ⟨_, rfl⟩
  rw [Fits, ← length_pathToWrite, hn] at hfits
  have hint : toInt n = n := toInt_of_range (by omega) (by unfold intMax at hfits; omega)
  have hsize : toSize (n : ℤ) = n := toSize_of_range (by unfold intMax at hfits; omega)
  rw [makePath_eq dirname file w hn]
  dsimp only
  rw [hint, hsize, List.take_of_length_le (by omega), if_neg]
  · refine ⟨_, _, rfl, ⟨?_, ?_, ?_⟩, by omega⟩
    · exact (by omega : (-1 : ℤ) ≤ n)
    · dsimp only
      split_ifs <;> omega
    · dsimp only
      split_ifs <;> omega
  · split_ifs <;> omega

/-- What a round comes to, with the path that it makes. -/
structure Rounded (disk : Disk) (file : Received) (rest : List Received) (path : CString)
    (w w' : Writing) : Prop where
  roomy : w'.Roomy
  tried : w'.tried = w.tried ++ [(w.pos, path)]
  dir : w'.dir = (disk.attempts w.pos w.tries).leaves file path w.dir
  stays : (disk.attempts w.pos w.tries).passes file = false →
    w'.curr = w.curr ∧ w'.pos = w.pos ∧ w'.tries = w.tries + 1 ∧ w'.noWritten = w.noWritten
  moves : (disk.attempts w.pos w.tries).passes file = true →
    w'.curr = rest ∧ w'.pos = w.pos + 1 ∧ w'.tries = 0 ∧ w'.noWritten = w.noWritten + 1 ∧
      w'.noWritten ≤ intMax

theorem of_attempt (hw : w.Roomy) (h : attempt disk file rest path w = .ok w') :
    Rounded disk file rest path w w' := by
  unfold attempt at h
  dsimp only at h
  cases ha : disk.attempts w.pos w.tries with
  | refused =>
    rw [ha] at h
    cases h
    exact ⟨⟨hw.lower, hw.upper, hw.capacity⟩, rfl, by rw [ha]; rfl,
      fun _ => ⟨rfl, rfl, rfl, rfl⟩, fun hpass => by rw [ha] at hpass; cases hpass⟩
  | opened room =>
    rw [ha] at h
    dsimp only at h
    have hpasses : (disk.attempts w.pos w.tries).passes file =
        !decide (0 < file.size ∧ toSize (toInt ↑(min room file.size)) < file.size) := by
      rw [ha]
      rfl
    by_cases hshort : 0 < file.size ∧ toSize (toInt ↑(min room file.size)) < file.size
    · rw [if_pos hshort] at h
      cases h
      exact ⟨⟨hw.lower, hw.upper, hw.capacity⟩, rfl, by rw [ha]; rfl,
        fun _ => ⟨rfl, rfl, rfl, rfl⟩,
        fun hpass => by rw [hpasses, decide_eq_true hshort] at hpass; cases hpass⟩
    · rw [if_neg hshort] at h
      split at h
      · next hcount =>
        cases h
        exact ⟨⟨hw.lower, hw.upper, hw.capacity⟩, rfl, by rw [ha]; rfl,
          fun hpass => (by rw [hpasses, decide_eq_false hshort] at hpass; cases hpass),
          fun _ => ⟨rfl, rfl, rfl, rfl, hcount⟩⟩
      · cases h

/-- What a round does that is defined. -/
theorem of_round (hw : w.Roomy) (h : round disk dirname file rest w = .ok w') :
    ∃ path, Rounded disk file rest path w w' ∧
      (path = pathToWrite dirname file ↔ Fits dirname file) := by
  obtain ⟨⟨path, w₁⟩, hpath, hattempt⟩ := Res.bind_eq_ok.1 h
  obtain ⟨len, cap, rfl, hroomy, hfits⟩ := of_makePath hw hpath
  obtain ⟨hroomy', htried, hdir, hstays, hmoves⟩ := of_attempt hroomy hattempt
  refine ⟨path, ⟨hroomy', htried, hdir, hstays, hmoves⟩, hfits, fun hfits => ?_⟩
  obtain ⟨len', cap', hpath', -, -⟩ := makePath_of_fits hw hfits
  rw [hpath'] at hpath
  cases hpath
  rfl

/-- A round is defined if the path fits and the count does not overflow. -/
theorem round_of_fits (disk : Disk) (rest : List Received) (hw : w.Roomy)
    (hfits : Fits dirname file) (hcount : w.noWritten < intMax) :
    ∃ w', round disk dirname file rest w = .ok w' ∧
      Rounded disk file rest (pathToWrite dirname file) w w' := by
  obtain ⟨len, cap, hpath, hroomy, -⟩ := makePath_of_fits hw hfits
  obtain ⟨w', hw'⟩ : ∃ w', attempt disk file rest (pathToWrite dirname file)
      { w with pathToWriteLen := len, capacity := cap } = .ok w' := by
    unfold attempt
    dsimp only
    split
    · exact ⟨_, rfl⟩
    · split_ifs
      · exact ⟨_, rfl⟩
      · exact ⟨_, rfl⟩
  obtain ⟨hroomy', htried, hdir, hstays, hmoves⟩ := of_attempt hroomy hw'
  exact ⟨w', by rw [round, hpath]; exact hw', hroomy', htried, hdir, hstays, hmoves⟩

/-! ## The loop -/

theorem loop_of_nil (hcurr : w.curr = []) (fuel : ℕ) : loop disk dirname fuel w = .ok w := by
  cases fuel with
  | zero => exact if_pos hcurr
  | succ fuel => rw [loop, hcurr]

theorem loop_of_cons (hcurr : w.curr = file :: rest) (fuel : ℕ) :
    loop disk dirname (fuel + 1) w =
      (round disk dirname file rest w).bind (loop disk dirname fuel) := by
  rw [loop, hcurr]

/-- A loop that ends has tried every file. -/
theorem of_loop (hw : w.Roomy) (h : loop disk dirname fuel w = .ok w') :
    ∃ more, w'.tried = w.tried ++ more ∧ w.curr.length ≤ more.length := by
  induction fuel generalizing w with
  | zero =>
    rw [loop] at h
    split_ifs at h with hcurr
    cases h
    exact ⟨[], (List.append_nil _).symm, Nat.le_of_eq (congrArg List.length hcurr)⟩
  | succ fuel ih =>
    cases hcurr : w.curr with
    | nil =>
      rw [loop_of_nil hcurr] at h
      cases h
      exact ⟨[], (List.append_nil _).symm, Nat.le_refl _⟩
    | cons file rest =>
      rw [loop_of_cons hcurr] at h
      obtain ⟨w₁, hround, hloop⟩ := Res.bind_eq_ok.1 h
      obtain ⟨path, hr, -⟩ := of_round hw hround
      obtain ⟨more, htried, hlen⟩ := ih hr.roomy hloop
      refine ⟨(w.pos, path) :: more, ?_, ?_⟩
      · rw [htried, hr.tried, List.append_assoc]
        rfl
      · rw [List.length_cons, List.length_cons]
        cases hpass : (disk.attempts w.pos w.tries).passes file with
        | false =>
          rw [(hr.stays hpass).1, hcurr, List.length_cons] at hlen
          omega
        | true =>
          rw [(hr.moves hpass).1] at hlen
          omega

/-- The files with their positions, and the paths that they are written to. -/
def paths (dirname : CString) (files : List Received) (pos : ℕ) : List (ℕ × CString) :=
  (files.zipIdx pos).map fun x => (x.2, pathToWrite dirname x.1)

/-- The first attempt at a file succeeds. -/
def First (disk : Disk) (dirname : CString) (x : Received × ℕ) : Prop :=
  Fits dirname x.1 ∧ (disk.attempts x.2 0).passes x.1 = true

/-- A loop that ends has come past every file, and counted it. -/
theorem passes_of_loop (hw : w.Roomy) (h : loop disk dirname fuel w = .ok w') :
    (∀ x ∈ w.curr.zipIdx w.pos, ∃ j, (disk.attempts x.2 j).passes x.1 = true) ∧
      w'.noWritten = w.noWritten + w.curr.length ∧
      (w.noWritten ≤ intMax → w'.noWritten ≤ intMax) := by
  induction fuel generalizing w with
  | zero =>
    rw [loop] at h
    split_ifs at h with hcurr
    cases h
    rw [hcurr]
    exact ⟨nofun, (Int.add_zero _).symm, id⟩
  | succ fuel ih =>
    cases hcurr : w.curr with
    | nil =>
      rw [loop_of_nil hcurr] at h
      cases h
      exact ⟨nofun, (Int.add_zero _).symm, id⟩
    | cons file rest =>
      rw [loop_of_cons hcurr] at h
      obtain ⟨w₁, hround, hloop⟩ := Res.bind_eq_ok.1 h
      obtain ⟨path, hr, -⟩ := of_round hw hround
      obtain ⟨hpasses, hcount, hmax⟩ := ih hr.roomy hloop
      cases hpass : (disk.attempts w.pos w.tries).passes file with
      | false =>
        obtain ⟨hcurr₁, hpos₁, -, hcount₁⟩ := hr.stays hpass
        rw [hcurr₁, hpos₁, hcurr] at hpasses
        rw [hcurr₁, hcount₁, hcurr] at hcount
        exact ⟨hpasses, hcount, hcount₁ ▸ hmax⟩
      | true =>
        obtain ⟨hcurr₁, hpos₁, -, hcount₁, hmax₁⟩ := hr.moves hpass
        rw [hcurr₁, hpos₁] at hpasses
        refine ⟨fun x hx => ?_, ?_, fun _ => hmax hmax₁⟩
        · rw [List.zipIdx_cons, List.mem_cons] at hx
          rcases hx with rfl | hx
          · exact ⟨_, hpass⟩
          · exact hpasses x hx
        · rw [hcount, hcount₁, hcurr₁, List.length_cons]
          omega

/-- If each file is tried once, each first attempt has succeeded. -/
theorem first_of_loop (hw : w.Roomy) (htries : w.tries = 0)
    (h : loop disk dirname fuel w = .ok w')
    (htried : w'.tried = w.tried ++ paths dirname w.curr w.pos) :
    ∀ x ∈ w.curr.zipIdx w.pos, First disk dirname x := by
  induction fuel generalizing w with
  | zero =>
    rw [loop] at h
    split_ifs at h with hcurr
    rw [hcurr]
    exact nofun
  | succ fuel ih =>
    cases hcurr : w.curr with
    | nil => exact nofun
    | cons file rest =>
      rw [loop_of_cons hcurr] at h
      obtain ⟨w₁, hround, hloop⟩ := Res.bind_eq_ok.1 h
      obtain ⟨path, hr, hfits⟩ := of_round hw hround
      obtain ⟨more, hmore, hlen⟩ := of_loop hr.roomy hloop
      rw [hcurr, paths, List.zipIdx_cons, List.map_cons, ← paths] at htried
      have hsplit : (w.pos, path) :: more =
          (w.pos, pathToWrite dirname file) :: paths dirname rest (w.pos + 1) := by
        rw [hr.tried, List.append_assoc, htried] at hmore
        exact (List.append_cancel_left hmore).symm
      have hpath : path = pathToWrite dirname file := congrArg Prod.snd (List.cons.inj hsplit).1
      have hrest : more = paths dirname rest (w.pos + 1) := (List.cons.inj hsplit).2
      -- a second attempt at this file would be one too many
      have hpass : (disk.attempts w.pos w.tries).passes file = true := by
        by_contra hpass
        rw [(hr.stays (Bool.not_eq_true _ ▸ hpass)).1, hcurr, hrest, paths, List.length_map,
          List.length_zipIdx, List.length_cons] at hlen
        omega
      obtain ⟨hcurr₁, hpos₁, htries₁, -⟩ := hr.moves hpass
      have hfirst := ih hr.roomy htries₁ hloop (by rw [hmore, hrest, hcurr₁, hpos₁])
      rw [hcurr₁, hpos₁] at hfirst
      intro x hx
      rw [List.zipIdx_cons, List.mem_cons] at hx
      rcases hx with rfl | hx
      · exact ⟨hfits.1 hpath, htries ▸ hpass⟩
      · exact hfirst x hx

/-- If each first attempt succeeds, each file is tried once. -/
theorem loop_of_first (hw : w.Roomy) (htries : w.tries = 0)
    (hfirst : ∀ x ∈ w.curr.zipIdx w.pos, First disk dirname x)
    (hcount : w.noWritten + w.curr.length ≤ intMax) :
    ∃ w', loop disk dirname w.curr.length w = .ok w' ∧
      w'.tried = w.tried ++ paths dirname w.curr w.pos ∧
      w'.noWritten = w.noWritten + w.curr.length := by
  generalize hfiles : w.curr = files at *
  induction files generalizing w with
  | nil =>
    exact ⟨w, loop_of_nil hfiles _, (List.append_nil _).symm, (Int.add_zero _).symm⟩
  | cons file rest ih =>
    obtain ⟨hfits, hpass⟩ := hfirst (file, w.pos) List.mem_cons_self
    rw [List.length_cons] at hcount ⊢
    obtain ⟨w₁, hround, hr⟩ := round_of_fits disk rest hw hfits (by omega)
    obtain ⟨hcurr₁, hpos₁, htries₁, hcount₁, -⟩ := hr.moves (htries ▸ hpass)
    rw [List.zipIdx_cons, ← hpos₁] at hfirst
    obtain ⟨w', hloop, htried, hcount'⟩ := ih hr.roomy htries₁ hcurr₁
      (fun x hx => hfirst x (List.mem_cons_of_mem _ hx)) (by omega)
    refine ⟨w', ?_, ?_, ?_⟩
    · rw [loop_of_cons hfiles, hround]
      exact hloop
    · rw [htried, hr.tried, hpos₁, List.append_assoc]
      rfl
    · rw [hcount', hcount₁]
      omega

/-- A file that passes at some attempt is left behind. -/
theorem moves_of_passes (hw : w.Roomy) (hcurr : w.curr = file :: rest) (hfits : Fits dirname file)
    (hcount : w.noWritten < intMax) {j : ℕ}
    (hj : (disk.attempts w.pos (w.tries + j)).passes file = true) :
    ∃ k w₁, w₁.Roomy ∧ w₁.curr = rest ∧ w₁.pos = w.pos + 1 ∧ w₁.tries = 0 ∧
      w₁.noWritten = w.noWritten + 1 ∧
      ∀ fuel, loop disk dirname (fuel + k) w = loop disk dirname fuel w₁ := by
  induction j generalizing w with
  | zero =>
    obtain ⟨w₁, hround, hr⟩ := round_of_fits disk rest hw hfits hcount
    obtain ⟨hcurr₁, hpos₁, htries₁, hcount₁, -⟩ := hr.moves hj
    exact ⟨1, w₁, hr.roomy, hcurr₁, hpos₁, htries₁, hcount₁,
      fun fuel => by rw [loop_of_cons hcurr, hround]; rfl⟩
  | succ j ih =>
    obtain ⟨w₁, hround, hr⟩ := round_of_fits disk rest hw hfits hcount
    cases hpass : (disk.attempts w.pos w.tries).passes file with
    | true =>
      obtain ⟨hcurr₁, hpos₁, htries₁, hcount₁, -⟩ := hr.moves hpass
      exact ⟨1, w₁, hr.roomy, hcurr₁, hpos₁, htries₁, hcount₁,
        fun fuel => by rw [loop_of_cons hcurr, hround]; rfl⟩
    | false =>
      obtain ⟨hcurr₁, hpos₁, htries₁, hcount₁⟩ := hr.stays hpass
      have hnext : w₁.tries + j = w.tries + (j + 1) := by omega
      obtain ⟨k, w₂, hroomy, hcurr₂, hpos₂, htries₂, hcount₂, hloop⟩ := ih hr.roomy
        (hcurr₁.trans hcurr) (by rwa [hcount₁]) (by rwa [hpos₁, hnext])
      refine ⟨k + 1, w₂, hroomy, hcurr₂, by rw [hpos₂, hpos₁], htries₂, by rw [hcount₂, hcount₁],
        fun fuel => ?_⟩
      rw [← Nat.add_assoc, loop_of_cons hcurr, hround]
      exact hloop fuel

/-- The loop ends if each file passes at some attempt. -/
theorem loop_of_passes (hw : w.Roomy) (htries : w.tries = 0)
    (hfits : ∀ file ∈ w.curr, Fits dirname file)
    (hpass : ∀ x ∈ w.curr.zipIdx w.pos, ∃ j, (disk.attempts x.2 j).passes x.1 = true)
    (hcount : w.noWritten + w.curr.length ≤ intMax) :
    ∃ fuel w', loop disk dirname fuel w = .ok w' := by
  generalize hfiles : w.curr = files at *
  induction files generalizing w with
  | nil => exact ⟨0, w, loop_of_nil hfiles 0⟩
  | cons file rest ih =>
    rw [List.length_cons] at hcount
    rw [List.zipIdx_cons] at hpass
    obtain ⟨j, hj⟩ := hpass _ List.mem_cons_self
    obtain ⟨k, w₁, hroomy, hcurr₁, hpos₁, htries₁, hcount₁, hloop⟩ := moves_of_passes (j := j) hw
      hfiles (hfits file List.mem_cons_self) (by omega) (by rwa [htries, Nat.zero_add])
    obtain ⟨fuel, w', hends⟩ := ih hroomy htries₁ hcurr₁
      (fun f hf => hfits f (List.mem_cons_of_mem _ hf))
      (fun x hx => hpass x (List.mem_cons_of_mem _ (hpos₁ ▸ hx))) (by omega)
    exact ⟨fuel + k, w', (hloop fuel).trans hends⟩

end Writing

/-! ## All files -/

section Files

variable {disk : Disk} {dirname : CString} {files : List Received} {fuel : ℕ} {n : ℤ} {w : Writing}

open Writing

/-- The number of files that the first attempt writes completely. -/
def Disk.completed (disk : Disk) (files : List Received) : ℕ :=
  files.zipIdx.countP fun x => (disk.attempts x.2 0).completes x.1

theorem completed_eq_length_iff : disk.completed files = files.length ↔
    ∀ x ∈ files.zipIdx, (disk.attempts x.2 0).completes x.1 = true := by
  rw [Disk.completed, ← List.countP_eq_length, List.length_zipIdx]

theorem mkdirLoop_cases (disk : Disk) (done rest : CString) :
    mkdirLoop disk done rest = -1 ∨ mkdirLoop disk done rest = 0 := by
  induction rest generalizing done with
  | nil =>
    rw [mkdirLoop]
    split_ifs
    · exact .inl rfl
    · exact .inr rfl
  | cons b rest ih =>
    rw [mkdirLoop]
    split_ifs
    · exact .inl rfl
    · exact ih _

theorem mkdirP_cases (disk : Disk) (dirname : CString) :
    mkdirP disk dirname = -1 ∨ mkdirP disk dirname = 0 := by
  unfold mkdirP
  split_ifs
  · exact .inl rfl
  · cases dirname with
    | nil => exact .inl rfl
    | cons b rest => exact mkdirLoop_cases ..

/-- What is returned if the directory can be created. -/
theorem writeListOfFilesIntoDir_some (hdir : mkdirP disk dirname = 0) :
    writeListOfFilesIntoDir fuel disk (some dirname) files =
      (loop disk dirname fuel (.start disk files)).bind fun w => .ok (w.noWritten, w) := by
  rw [writeListOfFilesIntoDir, hdir, if_neg (by decide)]

theorem loop_ne_halt (fuel : ℕ) (w : Writing) : loop disk dirname fuel w ≠ .halt := by
  induction fuel generalizing w with
  | zero =>
    rw [loop]
    split_ifs <;> exact nofun
  | succ fuel ih =>
    cases hcurr : w.curr with
    | nil =>
      rw [loop_of_nil hcurr]
      exact nofun
    | cons file rest =>
      have hpath : ∀ (p : Prop) [Decidable p] (r : CString × Writing),
          ((if p then .fault else .ok r : Res (CString × Writing)).bind fun r =>
            attempt disk file rest r.1 r.2) ≠ .halt := by
        intro p _ r
        split_ifs
        · exact nofun
        · rw [Res.bind_ok, attempt]
          dsimp only
          split
          · exact nofun
          · split_ifs <;> exact nofun
      have hround : round disk dirname file rest w ≠ .halt := hpath _ _
      rw [loop_of_cons hcurr]
      cases h : round disk dirname file rest w with
      | ok w' => exact ih w'
      | blocked => exact nofun
      | halt => exact absurd h hround
      | fault => exact nofun

/-- Nothing in it ends the process. -/
theorem writeListOfFilesIntoDir_ne_halt (fuel : ℕ) (disk : Disk) (dirname : Option CString)
    (files : List Received) : writeListOfFilesIntoDir fuel disk dirname files ≠ .halt := by
  cases dirname with
  | none => exact nofun
  | some dirname =>
    rw [writeListOfFilesIntoDir]
    split_ifs
    · exact nofun
    · cases h : loop disk dirname fuel (.start disk files) with
      | halt => exact absurd h (loop_ne_halt _ _)
      | ok | blocked | fault => exact nofun

/-- What a call that returns has come to. -/
theorem of_writeListOfFilesIntoDir
    (h : writeListOfFilesIntoDir fuel disk (some dirname) files = .ok (n, w)) :
    (mkdirP disk dirname = -1 ∧ n = -1) ∨
      mkdirP disk dirname = 0 ∧ loop disk dirname fuel (.start disk files) = .ok w ∧
        n = w.noWritten ∧ n = files.length ∧ files.length ≤ intMax ∧
        ∀ x ∈ files.zipIdx, ∃ j, (disk.attempts x.2 j).passes x.1 = true := by
  rcases mkdirP_cases disk dirname with hdir | hdir
  · rw [writeListOfFilesIntoDir, hdir, if_pos rfl] at h
    simp only [Res.ok.injEq, Prod.mk.injEq] at h
    exact .inl ⟨hdir, h.1.symm⟩
  · rw [writeListOfFilesIntoDir_some hdir] at h
    obtain ⟨w', hloop, hw⟩ := Res.bind_eq_ok.1 h
    simp only [Res.ok.injEq, Prod.mk.injEq] at hw
    obtain ⟨rfl, rfl⟩ := hw
    obtain ⟨hpass, hlen, hmax⟩ := passes_of_loop (roomy_start disk files) hloop
    change w'.noWritten = 0 + (files.length : ℤ) at hlen
    have hle : w'.noWritten ≤ intMax := hmax (Int.natCast_nonneg _)
    exact .inr ⟨hdir, hloop, rfl, by omega, by omega, hpass⟩

/-- A call returns if each file passes at some attempt. -/
theorem exists_writeListOfFilesIntoDir (hdir : mkdirP disk dirname = 0)
    (hfits : ∀ f ∈ files, Fits dirname f) (hlen : files.length ≤ intMax)
    (hpass : ∀ x ∈ files.zipIdx, ∃ j, (disk.attempts x.2 j).passes x.1 = true) :
    ∃ fuel w, writeListOfFilesIntoDir fuel disk (some dirname) files =
      .ok ((files.length : ℤ), w) := by
  obtain ⟨fuel, w, hloop⟩ := loop_of_passes (w := .start disk files) (roomy_start disk files) rfl
    hfits hpass (by change (0 : ℤ) + files.length ≤ intMax; omega)
  have hcount : w.noWritten = 0 + (files.length : ℤ) :=
    (passes_of_loop (roomy_start disk files) hloop).2.1
  refine ⟨fuel, w, ?_⟩
  rw [writeListOfFilesIntoDir_some hdir, hloop, Res.bind_ok, hcount]
  exact congrArg (fun m => Res.ok (m, w)) (Int.zero_add _)

/-- The loop that writes the files comes to an end with each file tried exactly once and in order,
and the number of files that are completely written is returned, if and only if the first attempt
at each file succeeds and its count does not look short when it is cut to an `int`. The paths and
the number of files are to fit into an `int`. -/
theorem writeListOfFilesIntoDir_iff (hdir : mkdirP disk dirname = 0) :
    (∃ fuel w, writeListOfFilesIntoDir fuel disk (some dirname) files =
      .ok ((disk.completed files : ℤ), w) ∧ w.tried = paths dirname files 0) ↔
    files.length ≤ intMax ∧ ∀ x ∈ files.zipIdx, Fits dirname x.1 ∧
      (disk.attempts x.2 0).completes x.1 = true ∧ (disk.attempts x.2 0).passes x.1 = true := by
  constructor
  · rintro ⟨fuel, w, hret, htried⟩
    rcases of_writeListOfFilesIntoDir hret with ⟨-, hn⟩ | ⟨-, hloop, -, hn, hlen, -⟩
    · omega
    have hfirst := first_of_loop (roomy_start disk files) rfl hloop htried
    have hall := completed_eq_length_iff.1 (show disk.completed files = files.length by omega)
    exact ⟨hlen, fun x hx => ⟨(hfirst x hx).1, hall x hx, (hfirst x hx).2⟩⟩
  · rintro ⟨hlen, hall⟩
    obtain ⟨w, hloop, htried, hcount⟩ := loop_of_first (w := .start disk files)
      (roomy_start disk files) rfl (fun x hx => ⟨(hall x hx).1, (hall x hx).2.2⟩)
      (by change (0 : ℤ) + files.length ≤ intMax; omega)
    refine ⟨files.length, w, ?_, htried⟩
    rw [writeListOfFilesIntoDir_some hdir, completed_eq_length_iff.2 fun x hx => (hall x hx).2.1]
    change loop disk dirname files.length _ = _ at hloop
    rw [hloop, Res.bind_ok, hcount]
    exact congrArg (fun m => Res.ok (m, w)) (Int.zero_add _)

/-- An example of `writeListOfFilesIntoDir_iff` : a directory that takes every file. -/
theorem writeListOfFilesIntoDir_iff_two : ∃ fuel w,
    writeListOfFilesIntoDir fuel ⟨fun _ => .made, fun _ _ => .opened 8, fun _ => none⟩ (some [100])
      [⟨[47, 97], 1, [7]⟩, ⟨[98], 2, [8, 9]⟩] = .ok (2, w) ∧
    w.tried = [(0, [100, 47, 47, 97]), (1, [100, 47, 98])] := by
  refine (writeListOfFilesIntoDir_iff rfl).2 ⟨by decide, fun x hx => ?_⟩
  rcases List.mem_cons.1 hx with rfl | hx
  · exact ⟨by decide, by decide, Attempt.passes_of_completes (by decide) (by decide)⟩
  · obtain rfl := List.mem_singleton.1 hx
    exact ⟨by decide, by decide, Attempt.passes_of_completes (by decide) (by decide)⟩

/-- A file that can never be opened : the loop does not end. -/
theorem writeListOfFilesIntoDir_refused :
    mkdirP ⟨fun _ => .made, fun _ _ => .refused, fun _ => none⟩ [100] = 0 ∧
    ¬ ∃ fuel n w, writeListOfFilesIntoDir fuel ⟨fun _ => .made, fun _ _ => .refused, fun _ => none⟩
      (some [100]) [⟨[47, 97], 1, [7]⟩] = .ok (n, w) := by
  refine ⟨rfl, ?_⟩
  rintro ⟨fuel, n, w, hret⟩
  rcases of_writeListOfFilesIntoDir hret with ⟨hdir, -⟩ | ⟨-, -, -, -, -, hpass⟩
  · cases hdir
  · obtain ⟨j, hj⟩ := hpass _ List.mem_cons_self
    cases hj

/-- Files written one after the other. -/
def writeAll (dir : Dir) (files : List Received) : Dir :=
  files.foldl (fun dir file => Function.update dir (entryName file.path) (some file.buf)) dir

theorem writeAll_of_ne {dir : Dir} {name : CString} (h : ∀ f ∈ files, entryName f.path ≠ name) :
    writeAll dir files name = dir name := by
  induction files generalizing dir with
  | nil => rfl
  | cons f files ih =>
    rw [writeAll, List.foldl_cons, ← writeAll, ih fun g hg => h g (List.mem_cons_of_mem _ hg)]
    exact Function.update_of_ne (Ne.symm (h f List.mem_cons_self)) _ _

/-- A name holds one of the files with this name. -/
theorem exists_writeAll {dir : Dir} {name : CString} (h : ∃ f ∈ files, entryName f.path = name) :
    ∃ f ∈ files, entryName f.path = name ∧ writeAll dir files name = some f.buf := by
  induction files generalizing dir with
  | nil => exact absurd h nofun
  | cons f files ih =>
    rw [writeAll, List.foldl_cons, ← writeAll]
    by_cases hrest : ∃ g ∈ files, entryName g.path = name
    · obtain ⟨g, hg, hname, hwrite⟩ := ih hrest
      exact ⟨g, List.mem_cons_of_mem _ hg, hname, hwrite⟩
    · obtain ⟨g, hg, hname⟩ := h
      rcases List.mem_cons.1 hg with rfl | hg
      · refine ⟨g, List.mem_cons_self, hname, ?_⟩
        rw [writeAll_of_ne fun f hf hf' => hrest ⟨f, hf, hf'⟩, hname]
        exact Function.update_self _ _ _
      · exact absurd ⟨g, hg, hname⟩ hrest

/-- No attempt fails. -/
def Disk.Accepts (disk : Disk) (files : List Received) : Prop :=
  ∀ i j, ∃ room, disk.attempts i j = .opened room ∧ ∀ f ∈ files, f.size ≤ room

/-- If no attempt fails, each attempt writes the whole file. -/
theorem leaves_of_accepts {disk : Disk} (hfull : disk.Accepts files) {f : Received} (hf : f ∈ files)
    (hwf : f.buf.length = f.size) (i j : ℕ) (path : CString) (dir : Dir) :
    (disk.attempts i j).leaves f path dir = Function.update dir (entryName path) (some f.buf) := by
  obtain ⟨room, hroom, hsize⟩ := hfull i j
  rw [hroom, Attempt.leaves, Nat.min_eq_right (hsize f hf), List.take_of_length_le hwf.le]

/-- If no attempt fails, a loop that ends leaves the files written one after the other. -/
theorem dir_of_loop {w' : Writing} (hw : w.Roomy) (hfull : disk.Accepts w.curr)
    (hwf : ∀ f ∈ w.curr, f.buf.length = f.size) (hfits : ∀ f ∈ w.curr, Fits dirname f)
    (h : loop disk dirname fuel w = .ok w') : w'.dir = writeAll w.dir w.curr ∧
      ∀ x, x ∈ w'.tried ↔ x ∈ w.tried ∨ x ∈ paths dirname w.curr w.pos := by
  induction fuel generalizing w with
  | zero =>
    rw [loop] at h
    split_ifs at h with hcurr
    cases h
    rw [hcurr]
    exact ⟨rfl, fun x => (or_iff_left nofun).symm⟩
  | succ fuel ih =>
    cases hcurr : w.curr with
    | nil =>
      rw [loop_of_nil hcurr] at h
      cases h
      exact ⟨rfl, fun x => (or_iff_left nofun).symm⟩
    | cons f rest =>
      rw [loop_of_cons hcurr] at h
      obtain ⟨w₁, hround, hloop⟩ := Res.bind_eq_ok.1 h
      obtain ⟨path, hr, hpath⟩ := of_round hw hround
      have hf : f ∈ w.curr := by rw [hcurr]; exact List.mem_cons_self
      obtain rfl := hpath.2 (hfits f hf)
      have hdir := hr.dir
      rw [leaves_of_accepts hfull hf (hwf f hf), entryName_pathToWrite] at hdir
      rw [writeAll, List.foldl_cons, ← writeAll, ← hdir]
      have hcons : ∀ x, x ∈ paths dirname (f :: rest) w.pos ↔
          x = (w.pos, pathToWrite dirname f) ∨ x ∈ paths dirname rest (w.pos + 1) := fun x => by
        rw [paths, List.zipIdx_cons, List.map_cons, List.mem_cons, paths]
      cases hpass : (disk.attempts w.pos w.tries).passes f with
      | false =>
        obtain ⟨hcurr₁, hpos₁, -, -⟩ := hr.stays hpass
        obtain ⟨hdir', htried⟩ := ih hr.roomy (hcurr₁ ▸ hfull) (hcurr₁ ▸ hwf) (hcurr₁ ▸ hfits) hloop
        refine ⟨?_, fun x => ?_⟩
        · -- it is written once more
          rw [hdir', hcurr₁, hcurr, writeAll, List.foldl_cons, ← writeAll, hdir,
            Function.update_idem]
        · rw [htried, hr.tried, List.mem_append, List.mem_singleton, hcurr₁, hpos₁, hcurr, hcons]
          tauto
      | true =>
        obtain ⟨hcurr₁, hpos₁, -, -, -⟩ := hr.moves hpass
        have hsub : ∀ g ∈ w₁.curr, g ∈ w.curr := fun g hg => by
          rw [hcurr]
          exact List.mem_cons_of_mem _ (hcurr₁ ▸ hg)
        obtain ⟨hdir', htried⟩ := ih hr.roomy
          (fun i j => (hfull i j).imp fun room h => ⟨h.1, fun g hg => h.2 g (hsub g hg)⟩)
          (fun g hg => hwf g (hsub g hg)) (fun g hg => hfits g (hsub g hg)) hloop
        refine ⟨by rw [hdir', hcurr₁], fun x => ?_⟩
        rw [htried, hr.tried, List.mem_append, List.mem_singleton, hcurr₁, hpos₁, hcons]
        tauto

theorem mem_paths {x : ℕ × CString} : x ∈ paths dirname files 0 ↔
    ∃ f, files[x.1]? = some f ∧ x.2 = pathToWrite dirname f := by
  rw [paths, List.mem_map]
  constructor
  · rintro ⟨⟨f, i⟩, hmem, rfl⟩
    exact ⟨f, List.mem_zipIdx_iff_getElem?.1 hmem, rfl⟩
  · rintro ⟨f, hget, hpath⟩
    exact ⟨(f, x.1), List.mem_zipIdx_iff_getElem?.2 hget, by rw [← hpath]⟩

/-- The names of the paths are as different as those of the files. -/
theorem nodup_iff_paths (dirname : CString) (files : List Received) :
    (files.map fun f => entryName f.path).Nodup ↔
    ∀ x ∈ paths dirname files 0, ∀ y ∈ paths dirname files 0, x.1 ≠ y.1 →
      entryName x.2 ≠ entryName y.2 := by
  rw [List.nodup_iff_getElem?_ne_getElem?]
  constructor
  · have hlt : (∀ i j, i < j → j < (files.map fun f => entryName f.path).length →
          (files.map fun f => entryName f.path)[i]? ≠ (files.map fun f => entryName f.path)[j]?) →
        ∀ x ∈ paths dirname files 0, ∀ y ∈ paths dirname files 0, x.1 < y.1 →
          entryName x.2 ≠ entryName y.2 := by
      intro h x hx y hy hxy heq
      obtain ⟨f, hf, hpathf⟩ := mem_paths.1 hx
      obtain ⟨g, hg, hpathg⟩ := mem_paths.1 hy
      rw [hpathf, hpathg, entryName_pathToWrite, entryName_pathToWrite] at heq
      refine h x.1 y.1 hxy ?_ ?_
      · rw [List.length_map]
        exact (List.getElem?_eq_some_iff.1 hg).1
      · rw [List.getElem?_map, List.getElem?_map, hf, hg, Option.map_some, Option.map_some, heq]
    intro h x hx y hy hne
    rcases Nat.lt_or_gt_of_ne hne with hxy | hxy
    · exact hlt h x hx y hy hxy
    · exact (hlt h y hy x hx hxy).symm
  · intro h i j hij hj heq
    rw [List.length_map] at hj
    have hi : i < files.length := by omega
    rw [List.getElem?_map, List.getElem?_map, List.getElem?_eq_getElem hi,
      List.getElem?_eq_getElem hj, Option.map_some, Option.map_some, Option.some.injEq] at heq
    refine h (i, pathToWrite dirname files[i])
      (mem_paths.2 ⟨_, List.getElem?_eq_getElem hi, rfl⟩) (j, pathToWrite dirname files[j])
      (mem_paths.2 ⟨_, List.getElem?_eq_getElem hj, rfl⟩) (Nat.ne_of_lt hij) ?_
    rw [entryName_pathToWrite, entryName_pathToWrite, heq]

/-- If no attempt fails and the number of files is returned, each file is found under its name if
and only if the files with the same name hold the same, and no file is written over another if and
only if their names differ. -/
theorem found_and_kept_iff (hfull : disk.Accepts files) (hwf : ∀ f ∈ files, f.buf.length = f.size)
    (hfits : ∀ f ∈ files, Fits dirname f)
    (hret : writeListOfFilesIntoDir fuel disk (some dirname) files = .ok ((files.length : ℤ), w)) :
    ((∀ f ∈ files, w.dir (entryName f.path) = some f.buf) ↔
      ∀ f ∈ files, ∀ g ∈ files, entryName f.path = entryName g.path → f.buf = g.buf) ∧
    ((∀ x ∈ w.tried, ∀ y ∈ w.tried, x.1 ≠ y.1 → entryName x.2 ≠ entryName y.2) ↔
      (files.map fun f => entryName f.path).Nodup) := by
  rcases of_writeListOfFilesIntoDir hret with ⟨-, hn⟩ | ⟨-, hloop, -⟩
  · omega
  obtain ⟨hdir, htried⟩ := dir_of_loop (w := .start disk files) (roomy_start disk files) hfull hwf
    hfits hloop
  have htried' : ∀ x, x ∈ w.tried ↔ x ∈ paths dirname files 0 := fun x =>
    (htried x).trans (or_iff_right nofun)
  change w.dir = writeAll disk.dir files at hdir
  rw [hdir]
  constructor
  · constructor
    · intro hfound f hf g hg hname
      have hsame := hfound f hf
      rw [hname, hfound g hg] at hsame
      exact (Option.some.inj hsame).symm
    · intro hsame f hf
      obtain ⟨g, hg, hname, hwrite⟩ := @exists_writeAll files disk.dir _ ⟨f, hf, rfl⟩
      rw [hwrite, hsame f hf g hg hname.symm]
  · simp only [htried', nodup_iff_paths dirname]

/-- If no attempt fails, the number of files is returned for files that an `int` can count. -/
theorem writeListOfFilesIntoDir_of_accepts (hdir : mkdirP disk dirname = 0)
    (hfull : disk.Accepts files) (hsize : ∀ f ∈ files, f.size ≤ intMax)
    (hfits : ∀ f ∈ files, Fits dirname f) (hlen : files.length ≤ intMax) :
    ∃ fuel w, writeListOfFilesIntoDir fuel disk (some dirname) files =
      .ok ((files.length : ℤ), w) := by
  refine exists_writeListOfFilesIntoDir hdir hfits hlen fun x hx => ⟨0, ?_⟩
  have hmem : x.1 ∈ files := List.fst_mem_of_mem_zipIdx hx
  obtain ⟨room, hroom, hle⟩ := hfull x.2 0
  refine Attempt.passes_of_completes (hsize _ hmem) ?_
  rw [hroom]
  exact decide_eq_true (hle _ hmem)

/-- An example of `found_and_kept_iff` : two files with names of their own. -/
theorem found_and_kept_iff_two : ∃ (fuel : ℕ) (w : Writing),
    writeListOfFilesIntoDir fuel ⟨fun _ => .made, fun _ _ => .opened 8, fun _ => none⟩ (some [100])
      [⟨[47, 97, 47, 120], 1, [1]⟩, ⟨[47, 97, 47, 121], 2, [2, 3]⟩] = .ok (2, w) ∧
    w.dir [120] = some [1] ∧ w.dir [121] = some [2, 3] := by
  let disk : Disk := ⟨fun _ => .made, fun _ _ => .opened 8, fun _ => none⟩
  let files : List Received := [⟨[47, 97, 47, 120], 1, [1]⟩, ⟨[47, 97, 47, 121], 2, [2, 3]⟩]
  have hfull : disk.Accepts files := fun _ _ => ⟨8, rfl, by decide⟩
  have hdir : mkdirP disk [100] = 0 := rfl
  obtain ⟨fuel, w, hret⟩ := writeListOfFilesIntoDir_of_accepts hdir hfull (by decide) (by decide)
    (by decide)
  have hfound := (found_and_kept_iff hfull (by decide) (by decide) hret).1.2 (by decide)
  exact ⟨fuel, w, hret, hfound _ List.mem_cons_self,
    hfound _ (List.mem_cons_of_mem _ List.mem_cons_self)⟩

/-- Two files with the same name and other contents : the first is lost. -/
theorem not_found_of_same_name : ∃ (fuel : ℕ) (w : Writing),
    writeListOfFilesIntoDir fuel ⟨fun _ => .made, fun _ _ => .opened 8, fun _ => none⟩ (some [100])
      [⟨[47, 97, 47, 120], 1, [1]⟩, ⟨[47, 98, 47, 120], 1, [2]⟩] = .ok (2, w) ∧
    ¬ ∀ f ∈ [(⟨[47, 97, 47, 120], 1, [1]⟩ : Received), ⟨[47, 98, 47, 120], 1, [2]⟩],
      w.dir (entryName f.path) = some f.buf := by
  let disk : Disk := ⟨fun _ => .made, fun _ _ => .opened 8, fun _ => none⟩
  let files : List Received := [⟨[47, 97, 47, 120], 1, [1]⟩, ⟨[47, 98, 47, 120], 1, [2]⟩]
  have hfull : disk.Accepts files := fun _ _ => ⟨8, rfl, by decide⟩
  have hdir : mkdirP disk [100] = 0 := rfl
  obtain ⟨fuel, w, hret⟩ := writeListOfFilesIntoDir_of_accepts hdir hfull (by decide) (by decide)
    (by decide)
  rcases of_writeListOfFilesIntoDir hret with ⟨hfails, -⟩ | ⟨-, hloop, -⟩
  · cases hfails
  obtain ⟨hdir, -⟩ :=
    dir_of_loop (w := .start disk files) (roomy_start disk files) hfull (by decide)
    (by decide) hloop
  refine ⟨fuel, w, hret, fun hfound => ?_⟩
  have hfirst : writeAll disk.dir files [120] = some [1] := hdir ▸ hfound _ List.mem_cons_self
  exact absurd hfirst (by decide)

end Files

/-! ## The buffer of the path -/

theorem length_le_of_strrchr {s t : CString} {c : UInt8} (h : strrchr s c = some t) :
    t.length ≤ s.length := by
  induction s with
  | nil => cases h
  | cons b s ih =>
    rw [strrchr] at h
    split at h
    · next t' hs =>
      cases h
      exact Nat.le_succ_of_le (ih hs)
    · split_ifs at h
      cases h
      exact Nat.le_refl _

theorem length_removePathFromName_le (path : CString) :
    (removePathFromName path).length ≤ path.length := by
  rw [removePathFromName]
  cases h : strrchr path slash with
  | none => exact Nat.le_refl _
  | some t => exact length_le_of_strrchr h

namespace Writing

open Transitions

variable {disk : Disk} {dirname : CString} {file : Received} {rest files tr : List Received}
  {w w' : Writing} {path : CString}

/-- The loop, with a step for each round and the file of the round as its label. -/
def system (disk : Disk) (dirname : CString) (files : List Received) : System Writing Received where
  init w := w = start disk files
  step w file w' := ∃ rest, w.curr = file :: rest ∧ round disk dirname file rest w = .ok w'

/-- The files of the loop are those of the list, and its buffer has the bytes that were asked
for. -/
theorem roomy_of_run (hrun : Run (system disk dirname files) tr w) :
    w.Roomy ∧ ∀ f ∈ w.curr, f ∈ files := by
  refine hrun.induction (I := fun _ w => w.Roomy ∧ ∀ f ∈ w.curr, f ∈ files) ?_ ?_
  · rintro w rfl
    exact ⟨roomy_start disk files, fun f hf => hf⟩
  · rintro tr w file w' - ⟨hroomy, hmem⟩ ⟨rest, hcurr, hround⟩
    obtain ⟨path, hr, -⟩ := of_round hroomy hround
    refine ⟨hr.roomy, fun f hf => hmem f ?_⟩
    cases hpass : (disk.attempts w.pos w.tries).passes file with
    | false => rwa [← (hr.stays hpass).1]
    | true =>
      rw [(hr.moves hpass).1] at hf
      rw [hcurr]
      exact List.mem_cons_of_mem _ hf

/-- In every round the buffer has `path_to_write_len` bytes and the path is not cut, as long as
each path with the name of the directory and two more bytes can be counted by an `int`. -/
theorem makePath_of_run (hshort : ∀ f ∈ files, f.path.length + dirname.length + 1 < intMax)
    (hrun : Run (system disk dirname files) tr w) (hcurr : w.curr = file :: rest) :
    ∃ w', makePath dirname file w = .ok (pathToWrite dirname file, w') ∧
      w'.pathToWriteLen = (pathToWrite dirname file).length + 1 ∧
      w'.pathToWriteLen ≤ w'.capacity := by
  obtain ⟨hroomy, hmem⟩ := roomy_of_run hrun
  have hfile : file ∈ w.curr := hcurr ▸ List.mem_cons_self
  have hfits : Fits dirname file := by
    have hlen := hshort file (hmem file hfile)
    have hname := length_removePathFromName_le file.path
    unfold Fits
    omega
  obtain ⟨len, cap, hpath, hroomy', hlen⟩ := makePath_of_fits hroomy hfits
  exact ⟨_, hpath, hlen, hroomy'.upper⟩

/-- An example of `makePath_of_run` : a long path, and a shorter one behind it. -/
theorem makePath_of_run_two : ∃ w w',
    w.curr = [⟨[47, 98], 1, [8]⟩] ∧
      makePath [100] ⟨[47, 98], 1, [8]⟩ w = .ok ([100, 47, 47, 98], w') ∧
      w'.pathToWriteLen = 5 ∧ w'.pathToWriteLen ≤ w'.capacity := by
  let disk : Disk := ⟨fun _ => .made, fun _ _ => .opened 8, fun _ => none⟩
  let long : Received := ⟨[47, 97, 97, 97], 1, [7]⟩
  let short : Received := ⟨[47, 98], 1, [8]⟩
  have hshort : ∀ f ∈ [long, short], f.path.length + [100].length + 1 < intMax := by decide
  have hfits : Fits [100] long := by decide
  obtain ⟨w, hround, hr⟩ := round_of_fits disk [short] (roomy_start disk [long, short]) hfits
    (by decide)
  have hcurr : w.curr = [short] :=
    (hr.moves (Attempt.passes_of_completes (by decide) (by decide))).1
  obtain ⟨w', hpath⟩ := makePath_of_run hshort (.step (.start rfl) ⟨_, rfl, hround⟩) hcurr
  exact ⟨w, w', hcurr, hpath⟩

theorem removePathFromName_replicate (n : ℕ) :
    removePathFromName (List.replicate n 97) = List.replicate n 97 := by
  have hnone : strrchr (List.replicate n 97) slash = none := by
    induction n with
    | zero => rfl
    | succ n ih =>
      rw [List.replicate_succ, strrchr, ih]
      rfl
  rw [removePathFromName, hnone]
  rfl

/-- Nothing has been allocated for a first path whose length overflows. -/
theorem makePath_start_of_overflow
    (hlen : (pathToWrite dirname file).length + 1 = 2 ^ 31) :
    makePath dirname file (start disk files) = .fault := by
  have hint : toInt ((2 ^ 31 : ℕ) : ℤ) = -2 ^ 31 := by
    unfold toInt
    omega
  have hsize : toSize (-2 ^ 31) = 2 ^ 64 - 2 ^ 31 := by
    unfold toSize
    omega
  rw [makePath_eq _ _ _ hlen, hint, hsize]
  change (if _ ∨ (if (-1 : ℤ) < -2 ^ 31 then _ else 0) < _ then _ else _) = _
  exact if_pos (.inr (by decide))

/-- A path for which the length overflows, though it is shorter than `INT_MAX` with the name of
the directory. -/
theorem makePath_overflow : ∃ f : Received, f.path.length + [100].length < intMax ∧
    mkdirP ⟨fun _ => .made, fun _ _ => .opened 8, fun _ => none⟩ [100] = 0 ∧
    makePath [100] f (start ⟨fun _ => .made, fun _ _ => .opened 8, fun _ => none⟩ [f]) =
      .fault := by
  obtain ⟨n, hn⟩ : ∃ n, n + 3 = 2 ^ 31 := ⟨2 ^ 31 - 3, by decide⟩
  refine ⟨⟨List.replicate n 97, 1, [7]⟩, ?_, rfl, makePath_start_of_overflow ?_⟩
  · rw [List.length_replicate, List.length_singleton, intMax]
    omega
  · rw [length_pathToWrite, removePathFromName_replicate, List.length_replicate,
      List.length_singleton]
    exact hn

end Writing

end StorageServer
