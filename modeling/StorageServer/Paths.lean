import Mathlib.Logic.Function.Basic
import StorageServer.Lineage

/-!
# The paths of the stored files

`open_file` reads `pathname_len + 1` bytes and takes what is in front of the first `NUL` for
the path, without looking for one and without a check that anything stands in front of it.
In every run whose creations are given a buffer that starts with another byte and has a
`NUL`, the stored paths are strings inside their buffers and none is empty
(`pathsEnd_of_run`). An empty path can be created, and its length ends the list of the
files that are sent.
-/

open Programs Transitions

namespace StorageServer

/-- The buffer into which a handler has read the path : `pathname_len + 1` bytes. -/
def Local.pathBuffer (l : Local) : List UInt8 :=
  (l.inp.bytes.drop 4).take (toSize (toInt (bytesInt (l.inp.bytes.take 4) + 1)))

/-- The buffers after an event, by the paths of the files that were created from them. -/
def Event.buffers (b : CString → List UInt8) : Event → CString → List UInt8
  | .request _ _ l (.openFile path _) [_, _] _ => Function.update b path l.pathBuffer
  | _ => b

/-- The buffer of a creation starts with a byte other than `NUL` and has a `NUL`. -/
def Event.PathEnds : Event → Prop
  | .request _ _ l (.openFile _ flags) _ _ =>
    isFlagSet flags oCreate → l.pathBuffer.head? ≠ some 0 ∧ (0 : UInt8) ∈ l.pathBuffer
  | _ => True

/-- The server with the buffers of the paths of its files. -/
def pathSystem (cfg : ServerConfig) : System (Server × (CString → List UInt8)) Event :=
  (serverSystem cfg).ghost (fun _ => []) fun b _ e => e.buffers b

/-- A path is a string that is not empty and ends inside its buffer. -/
structure PathIn (path : CString) (buf : List UInt8) : Prop where
  eq : path = cstring buf
  ends : path.length < buf.length
  nonempty : path ≠ []

/-- The keys of `files` are the paths of their files, and end inside their buffers. -/
def Store.PathsEnd (s : Store) (b : CString → List UInt8) : Prop :=
  ∀ path p, (path, p) ∈ s.files.entries →
    PathIn path (b path) ∧ ∃ f, s.heap p = some f ∧ f.pathName = path

section Paths

variable {cfg : ServerConfig} {l : Local} {s : Store} {path : CString} {buf : List UInt8}
  {b : CString → List UInt8} {f f' : File} {e : Event} {φ φ' : FileServer}
  {σ σ' : Server} {tr : List Event}

/-! ## Buffers -/

theorem length_cstring_lt (h : (0 : UInt8) ∈ buf) : (cstring buf).length < buf.length := by
  have hsub : (cstring buf) <+: buf := List.takeWhile_prefix _
  refine lt_of_le_of_ne hsub.length_le fun he => ?_
  have hmem : (0 : UInt8) ∈ cstring buf := by rwa [hsub.eq_of_length he]
  simpa using List.mem_takeWhile_imp hmem

theorem cstring_ne_nil (h : (0 : UInt8) ∈ buf) (hhead : buf.head? ≠ some 0) : cstring buf ≠ [] := by
  cases buf with
  | nil => cases h
  | cons a buf =>
    have ha : a ≠ 0 := fun he => hhead (by rw [he]; rfl)
    rw [cstring, List.takeWhile_cons_of_pos (by simpa using ha)]
    exact List.cons_ne_nil _ _

theorem PathIn.of_buffer (h : (0 : UInt8) ∈ buf) (hhead : buf.head? ≠ some 0) :
    PathIn (cstring buf) buf :=
  ⟨rfl, length_cstring_lt h, cstring_ne_nil h hhead⟩

/-! ## Reading a path -/

theorem of_readn {st st' : Stream} {size : ℕ} {r : ℤ} {bytes : List UInt8}
    (h : st.readn size = .ok ((r, bytes), st')) (h0 : r ≠ 0) (h1 : r ≠ -1) :
    bytes = st.bytes.take size ∧ st'.bytes = st.bytes.drop size := by
  unfold Stream.readn at h
  split_ifs at h
  · obtain ⟨⟨-, rfl⟩, rfl⟩ := by simpa using h
    exact ⟨rfl, rfl⟩
  · split at h <;> simp_all

/-- A `readn` fills the buffer with the first bytes if it returns neither `0` nor `-1`. -/
theorem safe_readn_bytes {size : ℕ} {Q : ℤ × List UInt8 → World → Prop}
    (hQ : ∀ r bytes inp, (r ≠ 0 → r ≠ -1 → bytes = l.inp.bytes.take size ∧
      inp.bytes = l.inp.bytes.drop size) → Q (r, bytes) ({ l with inp := inp }, s)) :
    Prog.wp safeExec (readn size) Q (l, s) := by
  rw [safe_readn]
  cases h : l.inp.readn size with
  | ok r =>
    obtain ⟨⟨r, bytes⟩, inp⟩ := r
    exact hQ r bytes inp fun h0 h1 => of_readn h h0 h1
  | blocked | halt => trivial
  | fault =>
    unfold Stream.readn at h
    split_ifs at h
    split at h <;> cases h

/-- The path that is read is the string in the buffer. -/
theorem safe_readPathname_buffer {Q : Except Sa CString → World → Prop}
    (hQ : ∀ r inp, (∀ path, r = .ok path → path = cstring l.pathBuffer) →
      Q r ({ l with inp := inp }, s)) : Prog.wp safeExec readPathname Q (l, s) := by
  have herror : ∀ code inp, Q (.error code) ({ l with inp := inp }, s) := fun code inp =>
    hQ _ inp nofun
  rw [readPathname, Prog.wp_bind, readnInt, Prog.wp_bind]
  refine safe_readn_bytes fun r bytes inp hread => ?_
  simp only [Prog.wp_ite, Prog.wp_bind, Prog.wp_pure, safe_safeMalloc]
  refine ⟨fun _ => herror _ inp, fun h1 => ⟨fun _ => herror _ inp, fun h0 _ => ?_⟩⟩
  obtain ⟨rfl, hrest⟩ := hread h0 h1
  refine safe_readn_bytes fun r' bytes' inp' hread' => ?_
  simp only [Prog.wp_ite, Prog.wp_pure]
  refine ⟨fun _ => herror _ inp', fun h1' => ⟨fun _ => herror _ inp', fun h0' => ?_⟩⟩
  obtain ⟨rfl, -⟩ := hread' h0' h1'
  refine hQ _ inp' fun path he => ?_
  cases he
  rw [hrest]
  rfl

/-- The path of a request to open a file is the string in the buffer. -/
theorem safe_readRequest_buffer (h : Handler) : Prog.wp safeExec (readRequest h)
    (fun r _ => ∀ path flags, r = .ok (.openFile path flags) → path = cstring l.pathBuffer)
    (l, s) := by
  cases h with
  | openFile =>
    rw [readRequest, Prog.wp_bind, readOpenRequest, Prog.wp_bind]
    refine safe_readPathname_buffer fun r inp hr => ?_
    cases r with
    | error code => exact fun _ _ => of_error_eq_ok
    | ok pathname =>
      simp only [Prog.wp_bind]
      refine safe_readnInt fun r n inp' => ?_
      simp only [Prog.wp_ite, Prog.wp_pure]
      refine ⟨fun _ _ _ => of_error_eq_ok, fun _ => ⟨fun _ _ _ => of_error_eq_ok,
        fun _ path flags he => ?_⟩⟩
      cases he
      exact hr _ rfl
  | writeFile =>
    rw [readRequest, Prog.wp_bind]
    refine safe_readWriteRequest fun r inp _ _ path flags he => ?_
    cases r <;> cases he
  | appendToFile =>
    rw [readRequest, Prog.wp_bind]
    refine safe_readAppendRequest fun r inp _ _ path flags he => ?_
    cases r <;> cases he
  | readNFiles =>
    rw [readRequest, Prog.wp_bind]
    refine safe_readNRequest fun r inp _ path flags he => ?_
    cases r <;> cases he
  | closeFile | readFile | removeFile =>
    rw [readRequest, Prog.wp_bind]
    refine safe_readPathname fun r inp _ path flags he => ?_
    cases r <;> cases he

/-! ## Runs -/

/-- The path of a request to open a file is the string in its buffer. -/
def Event.ReadsPath : Event → Prop
  | .request _ _ l (.openFile path _) _ _ => path = cstring l.pathBuffer
  | _ => True

theorem Server.Step.readsPath (h : Server.Step cfg σ e σ') : e.ReadsPath := by
  cases h with
  | @request s s₁ s₂ h fdClient l l₁ l₂ req r readings hread =>
    have hpath := post_of_safe (safe_readRequest_buffer h) hread
    cases req with
    | openFile path flags => exact hpath path flags rfl
    | _ => trivial
  | _ => trivial

/-- A step leaves the buffers of the files that were stored before as they are. -/
theorem FileServer.Step.buffers (h : FileServer.Step cfg φ e φ') (hf : f ∈ φ.fs.files) :
    e.buffers b f.pathName = b f.pathName := by
  cases h with
  | @request fs fs' h fdClient l req readings out he =>
    cases he with
    | created hc hnone =>
      exact Function.update_of_ne (FileSystem.find?_eq_none hnone hf) _ _
    | refused | noMemory => cases req <;> rfl
    | _ => rfl
  | _ => rfl

/-- A step that creates no file from a bad buffer leaves the paths inside their buffers. -/
theorem FileServer.Step.pathIn (h : FileServer.Step cfg φ e φ') (hread : e.ReadsPath)
    (hends : e.PathEnds) (hb : ∀ f ∈ φ.fs.files, PathIn f.pathName (b f.pathName))
    (hf' : f' ∈ φ'.fs.files) : PathIn f'.pathName (e.buffers b f'.pathName) := by
  rcases h.origin hf' with ⟨hcreated, -⟩ | ⟨f, hf, hdata⟩
  · obtain ⟨h', fdClient, l, path, flags, t₁, t₂, rfl, rfl, hc⟩ := h.of_created hcreated
    have hbuffers : (Event.request h' fdClient l (.openFile path flags) [t₁, t₂] none).buffers b
        path = l.pathBuffer := Function.update_self _ _ _
    obtain ⟨hhead, hmem⟩ := hends hc
    have hpath : path = cstring l.pathBuffer := hread
    change PathIn path ((Event.request h' fdClient l (.openFile path flags) [t₁, t₂] none).buffers
      b path)
    rw [hbuffers, hpath]
    exact .of_buffer hmem hhead
  · have hname : f'.pathName = f.pathName := by
      rw [← Event.pathName_change e f]
      exact File.congr_data File.pathName (fun _ => rfl) hdata
    rw [hname, h.buffers hf]
    exact hb f hf

theorem Store.Idle.pathsEnd {xs : List (FilePtr × File)} (hs : s.Idle cfg xs)
    (hb : ∀ f ∈ s.fileSystem.files, PathIn f.pathName (b f.pathName)) : s.PathsEnd b := by
  intro path p hmem
  rw [hs.entries] at hmem
  obtain ⟨x, hx, he⟩ := List.mem_map.1 hmem
  cases he
  refine ⟨hb x.2 ?_, x.2, hs.heap x hx, rfl⟩
  rw [hs.fileSystem_eq]
  exact List.mem_map_of_mem hx

/-- In every run that creates no file from a buffer without a `NUL` or with a `NUL` at its
start, the keys of `files` are not empty and end inside their buffers. -/
theorem pathsEnd_of_run {x : Server × (CString → List UInt8)}
    (h : Run ((pathSystem cfg).restrict fun _ e => e.PathEnds) tr x) : x.1.store.PathsEnd x.2 := by
  have hinv : ∃ φ, x.1.Refines cfg φ ∧ ∀ f ∈ φ.fs.files, PathIn f.pathName (x.2 f.pathName) := by
    refine h.induction (I := fun _ x => ∃ φ, x.1.Refines cfg φ ∧
      ∀ f ∈ φ.fs.files, PathIn f.pathName (x.2 f.pathName)) ?_ ?_
    · rintro ⟨σ, b⟩ ⟨hσ, -⟩
      obtain rfl : σ = ⟨.initial, none⟩ := hσ
      exact ⟨⟨.empty, none⟩, .init, fun _ hf => absurd hf List.not_mem_nil⟩
    · rintro - ⟨σ, b⟩ e ⟨σ', b'⟩ - ⟨φ, hr, hb⟩ ⟨hends, hstep, hnext⟩
      obtain rfl : b' = e.buffers b := hnext
      have hread := Server.Step.readsPath hstep
      obtain ⟨φ', hstep', hr'⟩ := Server.Step.refines hstep hr
      exact ⟨φ', hr', fun f' hf' => hstep'.pathIn hread hends hb hf'⟩
  obtain ⟨φ, hr, hb⟩ := hinv
  obtain ⟨xs, hs, -⟩ := hr.idle
  exact hs.pathsEnd (hr.fs ▸ hb)

instance : (e : Event) → Decidable e.PathEnds
  | .request _ _ _ (.openFile _ _) _ _ => inferInstanceAs (Decidable (_ → _ ∧ _))
  | .request _ _ _ (.closeFile _) _ _ | .request _ _ _ (.writeFile _ _ _) _ _
  | .request _ _ _ (.appendToFile _ _ _) _ _ | .request _ _ _ (.readFile _) _ _
  | .request _ _ _ (.readNFiles _) _ _ | .request _ _ _ (.removeFile _) _ _
  | .unread _ _ _ | .reply _ | .disconnect _ => instDecidableTrue

/-- Two files are stored, one of which has been written to, and a third has been expelled. -/
theorem pathsEnd_of_run_expulsion : ∃ x : Server × (CString → List UInt8),
    x.1.store.files.entries.map Prod.fst = [[99], [98]] ∧ x.2 [98] = [98, 0] ∧
      x.1.store.PathsEnd x.2 := by
  have hcomputes : Computes (pathSystem .small) _ := (computes_next .small).recorded _ _
  obtain ⟨tr, x, hrun, hkeys, hbuffer⟩ := (hcomputes.checked fun _ e => e.PathEnds).exists_run
    (⟨.initial, none⟩, fun _ => []) ⟨rfl, rfl⟩ (expulsions.take 10)
    (fun _ x => x.1.store.files.entries.map Prod.fst = [[99], [98]] ∧ x.2 [98] = [98, 0])
    (by decide +kernel)
  exact ⟨x, hkeys, hbuffer, pathsEnd_of_run hrun⟩

/-- A client can create a file whose path is empty. -/
theorem not_pathsEnd : ¬∀ (cfg : ServerConfig) (tr : List Event)
    (x : Server × (CString → List UInt8)), Run (pathSystem cfg) tr x → x.1.store.PathsEnd x.2 := by
  intro hall
  have hcomputes : Computes (pathSystem .small) _ := (computes_next .small).recorded _ _
  obtain ⟨tr, x, hrun, hkeys⟩ := hcomputes.exists_run (⟨.initial, none⟩, fun _ => []) ⟨rfl, rfl⟩
    (Api.Call.actions (.openFile [] oCreate) 7 (.at 0))
    (fun _ x => x.1.store.files.entries = [([], 0)]) (by decide +kernel)
  have hmem : ([], 0) ∈ x.1.store.files.entries := by
    rw [hkeys]
    exact List.mem_cons_self
  exact (hall .small tr x hrun [] 0 hmem).1.nonempty rfl

end Paths

end StorageServer
