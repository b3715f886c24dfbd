import StorageServer.Access

/-!
# The replacement algorithm

`expellSingleFile` and `expellMultipleFiles` are those of `replacement.c`, run by a
handler that holds both global mutexes.
-/

open Programs

namespace StorageServer

/-- `timespec_cmp`. -/
def timespecCmp (a b : Timespec) : ℤ :=
  if a.tvSec > b.tvSec then 1
  else if a.tvSec < b.tvSec then -1
  else if a.tvNsec > b.tvNsec then 1
  else if a.tvNsec < b.tvNsec then -1
  else 0

/-- `LRU_policy` and `FIFO_policy`. -/
def policyCmp : Policy → FilePtr → FilePtr → M ℤ
  | .LRU, a, b => return timespecCmp (← getLastUse a) (← getLastUse b)
  | .FIFO, a, b => return timespecCmp (← getCreationTime a) (← getCreationTime b)

/-- The loop of `expell_single_file` over the files still to come. `leastFile` is locked. -/
def expellScan (policy : Policy) : List FilePtr → Option FilePtr → M (Option FilePtr)
  | [], leastFile => return leastFile
  | currFile :: rest, leastFile => do
    -- if current file is the file that called LRU continue
    if !(← getCanBeExpelled currFile) then
      expellScan policy rest leastFile
    else
      fileWriterLock currFile
      match leastFile with
      | none => expellScan policy rest (some currFile)
      | some least =>
        if (← policyCmp policy currFile least) < 0 then
          fileWriterUnlock least
          expellScan policy rest (some currFile)
        else
          fileWriterUnlock currFile
          expellScan policy rest (some least)

/-- `sizeof(hash_iter_t)`. -/
def sizeofHashIter : ℕ :=
  16

/-- `expell_single_file`, `none` where it returns `-1`. Without a file that can be
expelled it reads the path of a null pointer. -/
def expellSingleFile (cfg : ServerConfig) : M (Option FilePtr) := do
  if (← filesNelem) = 0 then
    return none
  safeMalloc sizeofHashIter
  match ← expellScan cfg.policy (← filesIter) none with
  | none =>
    undefined
    return none
  | some leastFile =>
    let path ← getPathName leastFile
    match ← filesRemove path with
    | none =>
      undefined
      return none
    | some expelled =>
      let st ← getState
      setState { st with files := toUInt (st.files - 1) }
      let size ← getSize expelled
      let st ← getState
      setState { st with space := toSize (st.space - size) }
      let st ← getState
      setState { st with noLRU := toUInt (st.noLRU + 1) }
      return some expelled

/-- The loop of `expell_multiple_files`, with the expelled files so far. Each round
removes a file, so that `fuel` past the number of files is never used up. A
`list_push_back` that fails ends the process. -/
def expellLoop (cfg : ServerConfig) (sizeToFree : ℕ) :
    ℕ → ℕ → List FilePtr → M (List FilePtr)
  | 0, _, expelledList => do
    undefined
    return expelledList
  | fuel + 1, freed, expelledList => do
    if freed < sizeToFree then
      match ← expellSingleFile cfg with
      | none => return expelledList
      | some expelled =>
        if !(← malloc (.listNode expelledList.length)) then
          exit
        let size ← getSize expelled
        expellLoop cfg sizeToFree fuel (toSize (freed + size)) (expelledList ++ [expelled])
    else
      return expelledList

/-- `expell_multiple_files` : the files it appends to the list. Its callers do not look
at the value it returns. -/
def expellMultipleFiles (cfg : ServerConfig) (sizeToFree : ℕ) : M (List FilePtr) := do
  let st ← getState
  -- can't free more space than I currently have
  if sizeToFree > st.space then
    return []
  expellLoop cfg sizeToFree ((← filesNelem) + 1) 0 []

end StorageServer
