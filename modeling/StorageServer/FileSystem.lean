import Mathlib.Data.Prod.Lex
import StorageServer.Lib.Selection
import StorageServer.Requests

/-!
# The file system

What the server keeps, without the addresses, the buckets and the locks of its memory :
a list of files, in the order in which an iteration meets them, with the counters. A
request has one effect on it (`Effect`). It is refused (`refusal`), or it changes the
files at one path, with the clock readings it takes, and may expel other files : on a
creation the first in the order of the policy, on a write the shortest prefix of that
order that makes room (`makeRoom`).
-/

open Selection

namespace StorageServer

/-! ## Files -/

/-- A reading of the clock as an element of a linear order. -/
def Timespec.key (t : Timespec) : ℤ ×ₗ ℤ :=
  toLex (t.tvSec, t.tvNsec)

theorem timespecCmp_neg_iff (a b : Timespec) : timespecCmp a b < 0 ↔ a.key < b.key := by
  simp only [timespecCmp, Timespec.key, Prod.Lex.toLex_lt_toLex]
  split_ifs <;> simp <;> omega

/-- What the policy compares. -/
def Policy.stamp (policy : Policy) (f : File) : Timespec :=
  match policy with
  | .LRU => f.lastUse
  | .FIFO => f.creationTime

/-- The place of a file in the order of the policy. -/
def Policy.key (policy : Policy) (f : File) : ℤ ×ₗ ℤ :=
  (policy.stamp f).key

namespace File

/-- The table with its creator in it, as far as there is memory. -/
def newOpeners (malloc : Allocation → Bool) (fdClient : ℕ) : HashTblPtr :=
  if malloc .hashtbl then
    (HashTblPtr.insert (openersGranted malloc)
      (some ⟨4, 0, List.replicate 4 [], defaultHashtblHash⟩) fdClient).2
  else none

/-- A new file, opened by its creator. -/
def new (malloc : Allocation → Bool) (pathname : CString) (flags : ℤ) (fdClient : ℕ)
    (t₁ t₂ : Timespec) : File where
  pathName := pathname
  contents := []
  size := 0
  fdLock := if isFlagSet flags oLock then fdClient else -1
  fdOpen := newOpeners malloc fdClient
  nReaders := 0
  nWriters := 0
  creationTime := t₁
  lastUse := t₂
  canBeExpelled := true

/-- The file after a client has opened it. -/
def opened (malloc : Allocation → Bool) (fdClient : ℕ) (flags : ℤ) (t : Timespec)
    (f : File) : File :=
  { f with
    fdLock := if isFlagSet flags oLock then fdClient else f.fdLock
    fdOpen := if f.fdOpen.contains fdClient then f.fdOpen
      else (f.fdOpen.insert (openersGranted malloc) fdClient).2
    lastUse := t }

/-- The file after a client has closed it. -/
def closed (fdClient : ℕ) (f : File) : File :=
  { f with
    fdLock := if f.fdLock = fdClient then -1 else f.fdLock
    fdOpen := ((f.fdOpen.remove fdClient).map Prod.snd).getD f.fdOpen }

/-- The file after a write. -/
def written (size : ℕ) (buf : List UInt8) (t : Timespec) (f : File) : File :=
  { f with size := size, contents := buf, lastUse := t }

/-- The file after bytes have been appended to it. -/
def appended (buf : List UInt8) (t : Timespec) (f : File) : File :=
  { f with size := f.size + buf.length, contents := f.contents ++ buf, lastUse := t }

/-- The file after a read. -/
def used (t : Timespec) (f : File) : File :=
  { f with lastUse := t }

end File

/-! ## The file system -/

/-- The files and the counters, and how many lists the map of the files has. -/
structure FileSystem where
  files : List File
  state : ServerState
  nlist : ℕ

/-- The counters after a file has been expelled. -/
def ServerState.expell (st : ServerState) (f : File) : ServerState :=
  { st with
    files := toUInt (st.files - 1)
    space := toSize (st.space - f.size)
    noLRU := toUInt (st.noLRU + 1) }

/-- The counters after a file has been removed on the request of a client. -/
def ServerState.remove (st : ServerState) (f : File) : ServerState :=
  { st with
    files := toUInt (st.files - 1)
    space := toSize (st.space - f.size) }

/-- The counters after a file has been added. -/
def ServerState.addFile (st : ServerState) : ServerState :=
  { st with
    files := toUInt (st.files + 1)
    maxFiles := if toUInt (st.files + 1) > st.maxFiles then toUInt (st.files + 1)
      else st.maxFiles }

/-- The counters with `size` more bytes. -/
def ServerState.addSpace (st : ServerState) (size : ℕ) : ServerState :=
  { st with space := st.space + size }

/-- The counters with the largest space so far brought up to date. -/
def ServerState.noteSpace (st : ServerState) : ServerState :=
  { st with maxSpace := if st.space > st.maxSpace then st.space else st.maxSpace }

namespace FileSystem

/-- The file at a path. -/
def find? (fs : FileSystem) (path : CString) : Option File :=
  fs.files.find? fun f => f.pathName = path

/-- Change the file at a path. -/
def update (fs : FileSystem) (path : CString) (g : File → File) : FileSystem :=
  { fs with files := fs.files.map fun f => if f.pathName = path then g f else f }

/-- The files without the one at a path. -/
def others (fs : FileSystem) (path : CString) : List File :=
  fs.files.filter fun f => f.pathName ≠ path

/-- Expel a file. -/
def expell (fs : FileSystem) (f : File) : FileSystem where
  files := fs.others f.pathName
  state := fs.state.expell f
  nlist := fs.nlist

/-- Remove a file on the request of a client. -/
def remove (fs : FileSystem) (f : File) : FileSystem where
  files := fs.others f.pathName
  state := fs.state.remove f
  nlist := fs.nlist

/-- Expel the first file in the order of the policy if the number of files is at its
limit. -/
def makePlace (cfg : ServerConfig) (fs : FileSystem) : Option File × FileSystem :=
  if fs.state.files = cfg.maxFiles then
    match (sorted cfg.policy.key fs.files).head? with
    | none => (none, fs)
    | some f => (some f, fs.expell f)
  else (none, fs)

/-- Count `size` more bytes, and expel files other than the one at `path`, in the order
of the policy, until there is room for them. -/
def makeRoom (cfg : ServerConfig) (fs : FileSystem) (path : CString) (size : ℕ) :
    List File × FileSystem :=
  let toExpell := takeWeight File.size (fs.state.space + size - cfg.maxSpace)
    (sorted cfg.policy.key (fs.others path))
  let fs := toExpell.foldl expell { fs with state := fs.state.addSpace size }
  (toExpell, { fs with state := fs.state.noteSpace })

/-- The invariant of the file system : no path is stored twice, every file can be expelled,
and the counted space is that of the files and within its limit. -/
structure Sound (cfg : ServerConfig) (fs : FileSystem) : Prop where
  names : (fs.files.map File.pathName).Nodup
  expellable : ∀ f ∈ fs.files, f.canBeExpelled = true
  space : fs.state.space = (fs.files.map File.size).sum
  space_le : fs.state.space ≤ cfg.maxSpace

/-- The bytes of the contents of the files. -/
def contentBytes (fs : FileSystem) : ℕ :=
  (fs.files.map fun f => f.contents.length).sum

end FileSystem

/-! ## Requests -/

namespace Request

/-- The bytes a request carries for the contents of a file. -/
def buffer : Request → List UInt8
  | .writeFile _ _ buf => buf
  | .appendToFile _ _ buf => buf
  | _ => []

/-- The handler makes a list of files while it holds `files_mtx`. -/
def MakesList : Request → Prop
  | .writeFile _ _ _ => True
  | .readNFiles _ => True
  | _ => False

/-- A buffer has the size that is given with it. -/
def WF : Request → Prop
  | .writeFile _ size buf => buf.length = toSize size
  | .appendToFile _ size buf => buf.length = size
  | _ => True

end Request

namespace FileSystem

/-- The files and the buffer of the request are together less than `2 ^ 63` bytes, as all
objects in memory are. -/
def Fits (fs : FileSystem) (req : Request) : Prop :=
  fs.contentBytes + req.buffer.length < 2 ^ 63

/-- The code with which a request is refused after the checks of its handler, if it is. -/
def refusal (cfg : ServerConfig) (fdClient : ℕ) (fs : FileSystem) : Request → Option Sa
  | .openFile path flags =>
    if isFlagSet flags oCreate then
      if (fs.find? path).isSome then some .exists else none
    else
      match fs.find? path with
      | none => some .noFile
      | some f =>
        if isFlagSet flags oLock ∧ f.fdLock ≠ -1 ∧ f.fdLock ≠ fdClient then some .alreadyLocked
        else none
  | .closeFile path => if (fs.find? path).isNone then some .noFile else none
  | .writeFile path size _ =>
    match fs.find? path with
    | none => some .noFile
    | some f =>
      if !f.fdOpen.contains fdClient then some .noOpen
      else if f.fdLock ≠ fdClient then some .notLocked
      else if f.size ≠ 0 then some .notEmpty
      else if toSize size > cfg.maxSpace then some .tooBig
      else none
  | .appendToFile path size _ =>
    if size = 0 then none
    else
      match fs.find? path with
      | none => some .noFile
      | some f =>
        if !f.fdOpen.contains fdClient then some .noOpen
        else if f.size + size > cfg.maxSpace then some .tooBig
        else none
  | .readFile path =>
    match fs.find? path with
    | none => some .noFile
    | some f => if !f.fdOpen.contains fdClient then some .noOpen else none
  | .readNFiles _ => none
  | .removeFile path =>
    match fs.find? path with
    | none => none
    | some f =>
      if !f.fdOpen.contains fdClient then some .noOpen
      else if f.fdLock ≠ fdClient then some .notLocked
      else none

/-- How many files `read_n_files` sends. -/
def countRead (fs : FileSystem) (N : ℤ) : ℕ :=
  (if N ≤ 0 then toInt fs.state.files else N).toNat

/-- What the reply to a request is made of. -/
inductive Outcome
  | done
  | created (file : File) (expelled : Option File)
  | expelled (files : List File)
  | reading (file : File)
  | readingN (files : List File)

/-- The map of the files takes one more : it has a place or can be expanded, and there is
memory. -/
def HasMemory (malloc : Allocation → Bool) (fs : FileSystem) : Prop :=
  malloc .hashmapNode = true ∧ (fs.files.length + 1 > fs.nlist / 2 →
    malloc .hashmapExpand = true ∧ fs.nlist < 2 ^ 30)

instance (malloc : Allocation → Bool) (fs : FileSystem) : Decidable (fs.HasMemory malloc) :=
  inferInstanceAs (Decidable (_ ∧ _))

/-- The effect of a request on the file system while its handler holds `files_mtx`, with
the memory that it is granted and the clock readings it takes. A file that is sent keeps a
reader, and a created file is lost if there is no memory for its entry. -/
inductive Effect (cfg : ServerConfig) (fdClient : ℕ) (malloc : Allocation → Bool)
    (fs : FileSystem) : Request → List Timespec → Except Sa Outcome → FileSystem → Prop
  | refused {req code} (h : fs.refusal cfg fdClient req = some code) :
      Effect cfg fdClient malloc fs req [] (.error code) fs
  | noMemory {req a} (hreq : req.MakesList) (h : fs.refusal cfg fdClient req = none)
      (ha : malloc a = false) :
      Effect cfg fdClient malloc fs req [] (.error .error) fs
  | created {path flags t₁ t₂ files' nlist'}
      (hc : isFlagSet flags oCreate) (hf : fs.find? path = none)
      (h : files'.Perm
          ((fs.makePlace cfg).2.files ++ [File.new malloc path flags fdClient t₁ t₂]) ∨
        ¬(fs.makePlace cfg).2.HasMemory malloc ∧ files'.Perm (fs.makePlace cfg).2.files) :
      Effect cfg fdClient malloc fs (.openFile path flags) [t₁, t₂]
        (.ok (.created (File.new malloc path flags fdClient t₁ t₂) (fs.makePlace cfg).1))
        ⟨files', (fs.makePlace cfg).2.state.addFile, nlist'⟩
  | opened {path flags t f} (hc : ¬isFlagSet flags oCreate) (hf : fs.find? path = some f)
      (h : fs.refusal cfg fdClient (.openFile path flags) = none) :
      Effect cfg fdClient malloc fs (.openFile path flags) [t] (.ok .done)
        (fs.update path (File.opened malloc fdClient flags t))
  | closed {path f} (hf : fs.find? path = some f) :
      Effect cfg fdClient malloc fs (.closeFile path) [] (.ok .done)
        (fs.update path (File.closed fdClient))
  | written {path size buf t f} (hf : fs.find? path = some f)
      (h : fs.refusal cfg fdClient (.writeFile path size buf) = none) :
      Effect cfg fdClient malloc fs (.writeFile path size buf) [t]
        (.ok (.expelled (((fs.update path (File.written (toSize size) buf t)).makeRoom cfg path
          (toSize size)).1)))
        ((fs.update path (File.written (toSize size) buf t)).makeRoom cfg path (toSize size)).2
  | appended {path size buf t f} (hs : size ≠ 0) (hf : fs.find? path = some f)
      (h : fs.refusal cfg fdClient (.appendToFile path size buf) = none) :
      Effect cfg fdClient malloc fs (.appendToFile path size buf) [t]
        (.ok (.expelled ((fs.update path (File.appended buf t)).makeRoom cfg path size).1))
        ((fs.update path (File.appended buf t)).makeRoom cfg path size).2
  | appendedNothing {path buf} :
      Effect cfg fdClient malloc fs (.appendToFile path 0 buf) [] (.ok (.expelled [])) fs
  | read {path t f} (hf : fs.find? path = some f)
      (h : fs.refusal cfg fdClient (.readFile path) = none) :
      Effect cfg fdClient malloc fs (.readFile path) [t] (.ok (.reading (f.used t).readLocked))
        (fs.update path fun f => (f.used t).readLocked)
  | readN {N} :
      Effect cfg fdClient malloc fs (.readNFiles N) []
        (.ok (.readingN ((fs.files.take (fs.countRead N)).map File.readLocked)))
        { fs with files := (fs.files.take (fs.countRead N)).map File.readLocked ++
            fs.files.drop (fs.countRead N) }
  | unset {N} (h : fs.files.take (fs.countRead N) = []) :
      Effect cfg fdClient malloc fs (.readNFiles N) [] (.error .error) fs
  | removed {path f} (hf : fs.find? path = some f)
      (h : fs.refusal cfg fdClient (.removeFile path) = none) :
      Effect cfg fdClient malloc fs (.removeFile path) [] (.ok .done) (fs.remove f)
  | removedNothing {path} (hf : fs.find? path = none) :
      Effect cfg fdClient malloc fs (.removeFile path) [] (.ok .done) fs

end FileSystem

end StorageServer
