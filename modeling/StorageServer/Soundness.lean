import Mathlib.Data.Nat.ModEq
import Mathlib.Algebra.BigOperators.Group.List.Basic
import StorageServer.FileSystem

/-!
# The invariant of the file system

Every effect keeps the file system sound (`Effect.sound`). The counters are unsigned and
wrap; the lemmas on `ServerState` say when they do not. After a write the files that are
expelled and the files that stay are all the files there were, each once
(`perm_makeRoom`), and what stays fits into the limit.
-/

open Selection

namespace StorageServer

/-! ## Counters -/

namespace ServerState

variable {st : ServerState} {f : File}

@[simp] theorem space_addSpace (size : ℕ) : (st.addSpace size).space = st.space + size := rfl
@[simp] theorem files_addSpace (size : ℕ) : (st.addSpace size).files = st.files := rfl
@[simp] theorem noLRU_addSpace (size : ℕ) : (st.addSpace size).noLRU = st.noLRU := rfl
@[simp] theorem space_noteSpace : st.noteSpace.space = st.space := rfl
@[simp] theorem files_noteSpace : st.noteSpace.files = st.files := rfl
@[simp] theorem noLRU_noteSpace : st.noteSpace.noLRU = st.noLRU := rfl
@[simp] theorem space_addFile : st.addFile.space = st.space := rfl
@[simp] theorem noLRU_addFile : st.addFile.noLRU = st.noLRU := rfl

theorem space_expell (h : f.size ≤ st.space) (hlt : st.space < 2 ^ 64) :
    (st.expell f).space + f.size = st.space := by
  simp only [expell]
  unfold toSize
  omega

theorem files_expell (h : 1 ≤ st.files) (hlt : st.files < 2 ^ 32) :
    (st.expell f).files + 1 = st.files := by
  simp only [expell]
  unfold toUInt
  omega

theorem noLRU_expell : (st.expell f).noLRU ≡ st.noLRU + 1 [MOD 2 ^ 32] := by
  simp only [expell, Nat.ModEq]
  unfold toUInt
  omega

/-- The sizes of expelled files are taken off the space. -/
theorem space_foldl_expell {ys : List File} (h : (ys.map File.size).sum ≤ st.space)
    (hlt : st.space < 2 ^ 64) :
    (ys.foldl expell st).space + (ys.map File.size).sum = st.space := by
  induction ys generalizing st with
  | nil => rfl
  | cons y ys ih =>
    rw [List.map_cons, List.sum_cons] at h ⊢
    have hy := space_expell (f := y) (by omega) hlt
    rw [List.foldl_cons]
    have := @ih (st.expell y) (by omega) (by omega)
    omega

/-- Expelled files are taken off the number of files. -/
theorem files_foldl_expell {ys : List File} (h : ys.length ≤ st.files) (hlt : st.files < 2 ^ 32) :
    (ys.foldl expell st).files + ys.length = st.files := by
  induction ys generalizing st with
  | nil => rfl
  | cons y ys ih =>
    rw [List.length_cons] at h ⊢
    rw [List.foldl_cons]
    have hy := @files_expell st y (by omega) hlt
    have := @ih (st.expell y) (by omega) (by omega)
    omega

/-- Expelled files are counted. -/
theorem noLRU_foldl_expell {ys : List File} :
    (ys.foldl expell st).noLRU ≡ st.noLRU + ys.length [MOD 2 ^ 32] := by
  induction ys generalizing st with
  | nil => exact Nat.ModEq.refl _
  | cons y ys ih =>
    have hy := (@noLRU_expell st y).add_right ys.length
    rw [List.foldl_cons, List.length_cons, Nat.add_comm ys.length 1, ← Nat.add_assoc]
    exact ih.trans hy

end ServerState

/-- What the invariant looks at in a file. -/
def File.mark (f : File) : CString × ℕ × Bool :=
  (f.pathName, f.size, f.canBeExpelled)

namespace FileSystem

variable {cfg : ServerConfig} {fdClient : ℕ} {fs fs' : FileSystem} {path : CString} {f : File}

/-! ## Files at paths -/

theorem find?_eq_some (h : fs.find? path = some f) : f ∈ fs.files ∧ f.pathName = path :=
  ⟨List.mem_of_find?_eq_some h, by simpa using List.find?_some h⟩

theorem find?_eq_none (h : fs.find? path = none) {f : File} (hf : f ∈ fs.files) :
    f.pathName ≠ path := by
  simpa using List.find?_eq_none.1 h f hf

/-- The file at its path. -/
theorem find?_of_mem (hn : (fs.files.map File.pathName).Nodup) (hf : f ∈ fs.files) :
    fs.find? f.pathName = some f := by
  cases hfind : fs.find? f.pathName with
  | none => exact absurd rfl (find?_eq_none hfind hf)
  | some g =>
    obtain ⟨hg, hname⟩ := find?_eq_some hfind
    rw [List.inj_on_of_nodup_map hn hg hf hname]

theorem Sound.ext (h : fs.Sound cfg) {f g : File} (hf : f ∈ fs.files) (hg : g ∈ fs.files)
    (hn : f.pathName = g.pathName) : f = g :=
  List.inj_on_of_nodup_map h.names hf hg hn

/-- The other files are those without the one at the path. -/
theorem perm_others (hn : (fs.files.map File.pathName).Nodup) (hf : f ∈ fs.files) :
    fs.files.Perm (f :: fs.others f.pathName) := by
  obtain ⟨l₁, l₂, hl⟩ := List.append_of_mem hf
  have hne : ∀ g ∈ l₁ ++ l₂, g.pathName ≠ f.pathName := fun g hg he => by
    rw [hl, List.map_append, List.map_cons, List.nodup_middle, List.nodup_cons] at hn
    rw [← List.map_append, ← he] at hn
    exact hn.1 (List.mem_map_of_mem hg)
  have hothers : fs.others f.pathName = l₁ ++ l₂ := by
    rw [others, hl, List.filter_append, List.filter_cons_of_neg (by simp), ← List.filter_append,
      List.filter_eq_self]
    exact fun g hg => by simpa using hne g hg
  rw [hothers, hl]
  exact List.perm_middle

/-- The files without several of them. -/
theorem files_foldl_expell (fs : FileSystem) (ys : List File) :
    (ys.foldl expell fs).files = fs.files.filter fun f => f.pathName ∉ ys.map File.pathName := by
  induction ys generalizing fs with
  | nil => simp
  | cons y ys ih =>
    rw [List.foldl_cons, ih, expell, others, List.filter_filter]
    refine List.filter_congr fun f _ => ?_
    rw [← Bool.decide_and]
    exact decide_eq_decide.2 (by simp [and_comm])

theorem state_foldl_expell (fs : FileSystem) (ys : List File) :
    (ys.foldl expell fs).state = ys.foldl ServerState.expell fs.state := by
  induction ys generalizing fs with
  | nil => rfl
  | cons y ys ih => rw [List.foldl_cons, ih, List.foldl_cons, expell]

/-- Several files, and the files without them, are all files. -/
theorem perm_foldl_expell (fs : FileSystem) (hn : (fs.files.map File.pathName).Nodup)
    {ys : List File}
    (hys : ys ⊆ fs.files) (hnodup : (ys.map File.pathName).Nodup) :
    fs.files.Perm (ys ++ (ys.foldl expell fs).files) := by
  induction ys generalizing fs with
  | nil => exact List.Perm.refl _
  | cons y ys ih =>
    rw [List.map_cons, List.nodup_cons] at hnodup
    have hy : y ∈ fs.files := hys List.mem_cons_self
    have hys' : ys ⊆ (fs.expell y).files := fun z hz => by
      refine List.mem_filter.2 ⟨hys (List.mem_cons_of_mem _ hz), ?_⟩
      have : z.pathName ≠ y.pathName := fun he => hnodup.1 (he ▸ List.mem_map_of_mem hz)
      simpa using this
    refine (perm_others hn hy).trans (List.Perm.cons y ?_)
    exact @ih (fs.expell y) (hn.sublist (List.filter_sublist.map _)) hys' hnodup.2

/-! ## The invariant -/

/-- The invariant looks at the marks of the files and at the space. -/
theorem Sound.congr (h : fs.Sound cfg) (hm : fs'.files.map File.mark = fs.files.map File.mark)
    (hst : fs'.state.space = fs.state.space) : fs'.Sound cfg := by
  have hproj : ∀ {β : Type} (g : CString × ℕ × Bool → β),
      fs'.files.map (g ∘ File.mark) = fs.files.map (g ∘ File.mark) := fun g => by
    rw [← List.map_map, hm, List.map_map]
  refine ⟨?_, ?_, ?_, ?_⟩
  · exact hproj Prod.fst ▸ h.names
  · intro f hf
    have hmem : f.canBeExpelled ∈ fs.files.map File.canBeExpelled :=
      hproj (fun m => m.2.2) ▸ List.mem_map_of_mem hf
    obtain ⟨g, hg, he⟩ := List.mem_map.1 hmem
    rw [← he, h.expellable g hg]
  · rw [hst, h.space]
    exact congrArg List.sum (hproj fun m => m.2.1).symm
  · rw [hst]
    exact h.space_le

theorem map_mark_update {g : File → File} (hg : ∀ f, (g f).mark = f.mark) :
    (fs.update path g).files.map File.mark = fs.files.map File.mark := by
  rw [update, List.map_map]
  refine List.map_congr_left fun f _ => ?_
  rw [Function.comp_apply]
  split_ifs
  · exact hg f
  · rfl

theorem Sound.update (h : fs.Sound cfg) {g : File → File} (hg : ∀ f, (g f).mark = f.mark) :
    (fs.update path g).Sound cfg :=
  h.congr (map_mark_update hg) rfl

theorem sum_size_others (hn : (fs.files.map File.pathName).Nodup) (hf : f ∈ fs.files) :
    (fs.files.map File.size).sum = f.size + ((fs.others f.pathName).map File.size).sum := by
  rw [((perm_others hn hf).map File.size).sum_eq, List.map_cons, List.sum_cons]

/-- A file is taken out. -/
theorem Sound.others (h : fs.Sound cfg) (hf : f ∈ fs.files) {st : ServerState} {nlist : ℕ}
    (hst : st.space + f.size = fs.state.space) :
    (⟨fs.others f.pathName, st, nlist⟩ : FileSystem).Sound cfg where
  names := h.names.sublist (List.filter_sublist.map _)
  expellable g hg := h.expellable g (List.mem_of_mem_filter hg)
  space := by
    have := h.space
    have := sum_size_others h.names hf
    dsimp only
    omega
  space_le := by
    have := h.space_le
    dsimp only
    omega

theorem Sound.size_le (h : fs.Sound cfg) (hf : f ∈ fs.files) : f.size ≤ fs.state.space := by
  have := h.space
  have := sum_size_others h.names hf
  omega

theorem Sound.space_lt (h : fs.Sound cfg) : fs.state.space < 2 ^ 64 :=
  Nat.lt_of_le_of_lt h.space_le cfg.maxSpace_lt

theorem Sound.expell (h : fs.Sound cfg) (hf : f ∈ fs.files) : (fs.expell f).Sound cfg :=
  h.others hf (ServerState.space_expell (h.size_le hf) h.space_lt)

theorem Sound.remove (h : fs.Sound cfg) (hf : f ∈ fs.files) : (fs.remove f).Sound cfg :=
  h.others hf (ServerState.space_expell (f := f) (h.size_le hf) h.space_lt)

/-! ## Making room -/

/-- A creation expels no file, or one. -/
theorem makePlace_cases (cfg : ServerConfig) (fs : FileSystem) :
    (fs.makePlace cfg).1 = none ∧ (fs.makePlace cfg).2 = fs ∧
        (fs.state.files = cfg.maxFiles → fs.files = []) ∨
      ∃ f ∈ fs.files, fs.state.files = cfg.maxFiles ∧ (fs.makePlace cfg).1 = some f ∧
        (fs.makePlace cfg).2 = fs.expell f := by
  rw [makePlace]
  split_ifs with hfiles
  · cases hh : (sorted cfg.policy.key fs.files).head? with
    | none =>
      refine Or.inl ⟨rfl, rfl, fun _ => ?_⟩
      rw [List.head?_eq_none_iff] at hh
      exact List.Perm.eq_nil (hh ▸ (sorted_perm fs.files).symm)
    | some f =>
      exact Or.inr ⟨f, mem_sorted.1 (List.mem_of_head? hh), hfiles, rfl, rfl⟩
  · exact Or.inl ⟨rfl, rfl, fun h => absurd h hfiles⟩

theorem Sound.makePlace (h : fs.Sound cfg) : (fs.makePlace cfg).2.Sound cfg := by
  rcases makePlace_cases cfg fs with ⟨-, he, -⟩ | ⟨f, hf, -, -, he⟩
  · rwa [he]
  · rw [he]
    exact h.expell hf

section MakeRoom

variable {size : ℕ}

/-- The files that a write expels. -/
theorem makeRoom_fst : (fs.makeRoom cfg path size).1 =
    takeWeight File.size (fs.state.space + size - cfg.maxSpace)
      (sorted cfg.policy.key (fs.others path)) :=
  rfl

theorem mem_makeRoom_fst (hf : f ∈ (fs.makeRoom cfg path size).1) :
    f ∈ fs.files ∧ f.pathName ≠ path := by
  have := mem_sorted.1 ((takeWeight_isPrefix _ _).subset hf)
  simpa [FileSystem.others] using this

theorem nodup_makeRoom_fst (hn : (fs.files.map File.pathName).Nodup) :
    ((fs.makeRoom cfg path size).1.map File.pathName).Nodup := by
  have hothers : ((fs.others path).map File.pathName).Nodup :=
    hn.sublist (List.filter_sublist.map _)
  have hsorted : ((sorted cfg.policy.key (fs.others path)).map File.pathName).Nodup :=
    (((sorted_perm _).map _).nodup_iff).2 hothers
  exact hsorted.sublist ((takeWeight_isPrefix _ _).sublist.map _)

theorem files_makeRoom :
    (fs.makeRoom cfg path size).2.files =
      fs.files.filter fun f => f.pathName ∉ (fs.makeRoom cfg path size).1.map File.pathName :=
  files_foldl_expell { fs with state := fs.state.addSpace size } _

theorem state_makeRoom :
    (fs.makeRoom cfg path size).2.state =
      ((fs.makeRoom cfg path size).1.foldl ServerState.expell (fs.state.addSpace size)).noteSpace :=
  congrArg ServerState.noteSpace
    (state_foldl_expell { fs with state := fs.state.addSpace size } _)

/-- Every file is expelled or stays. -/
theorem perm_makeRoom (hn : (fs.files.map File.pathName).Nodup) :
    fs.files.Perm ((fs.makeRoom cfg path size).1 ++ (fs.makeRoom cfg path size).2.files) :=
  perm_foldl_expell { fs with state := fs.state.addSpace size } hn
    (fun _ hf => (mem_makeRoom_fst hf).1) (nodup_makeRoom_fst hn)

/-- Every file at another path is expelled or stays. -/
theorem others_makeRoom (hn : (fs.files.map File.pathName).Nodup) :
    (fs.others path).Perm
      ((fs.makeRoom cfg path size).1 ++ (fs.makeRoom cfg path size).2.others path) := by
  have hperm := (@perm_makeRoom cfg fs path size hn).filter fun f => f.pathName ≠ path
  have hexpelled : (fs.makeRoom cfg path size).1.filter (fun f => f.pathName ≠ path) =
      (fs.makeRoom cfg path size).1 :=
    List.filter_eq_self.2 fun f hf => decide_eq_true (mem_makeRoom_fst hf).2
  rwa [List.filter_append, hexpelled] at hperm

/-- The file at the path stays. -/
theorem find?_makeRoom (hn : (fs.files.map File.pathName).Nodup) (hf : f ∈ fs.files) :
    (fs.makeRoom cfg f.pathName size).2.find? f.pathName = some f := by
  have hsub : (fs.makeRoom cfg f.pathName size).2.files.Sublist fs.files := by
    rw [files_makeRoom]
    exact List.filter_sublist
  refine find?_of_mem (hn.sublist (hsub.map _)) ?_
  rw [files_makeRoom, List.mem_filter]
  refine ⟨hf, decide_eq_true fun hm => ?_⟩
  obtain ⟨g, hg, hname⟩ := List.mem_map.1 hm
  exact (mem_makeRoom_fst hg).2 hname

/-- The space that is left to the files that stay fits into the limit. -/
theorem sound_makeRoom (size : ℕ) (hn : (fs.files.map File.pathName).Nodup)
    (hexp : ∀ f ∈ fs.files, f.canBeExpelled = true) (hf : f ∈ fs.files)
    (hsize : f.size ≤ cfg.maxSpace)
    (hspace : fs.state.space + size = (fs.files.map File.size).sum)
    (hlt : fs.state.space + size < 2 ^ 63) :
    (fs.makeRoom cfg f.pathName size).2.Sound cfg := by
  have hothers := sum_size_others hn hf
  have hsum : (fs.files.map File.size).sum =
      ((fs.makeRoom cfg f.pathName size).1.map File.size).sum +
        ((fs.makeRoom cfg f.pathName size).2.files.map File.size).sum := by
    rw [((perm_makeRoom hn).map File.size).sum_eq, List.map_append, List.sum_append]
  have hneed : fs.state.space + size - cfg.maxSpace ≤
      ((fs.makeRoom cfg f.pathName size).1.map File.size).sum := by
    refine le_weight_takeWeight ?_
    rw [((sorted_perm _).map File.size).sum_eq]
    omega
  have hst : ((fs.makeRoom cfg f.pathName size).1.foldl ServerState.expell
      (fs.state.addSpace size)).space +
        ((fs.makeRoom cfg f.pathName size).1.map File.size).sum = fs.state.space + size :=
    ServerState.space_foldl_expell (by rw [ServerState.space_addSpace]; omega)
      (by rw [ServerState.space_addSpace]; omega)
  refine ⟨?_, ?_, ?_, ?_⟩
  · rw [files_makeRoom]
    exact hn.sublist (List.filter_sublist.map _)
  · rw [files_makeRoom]
    exact fun g hg => hexp g (List.mem_of_mem_filter hg)
  · rw [state_makeRoom, ServerState.space_noteSpace]
    omega
  · rw [state_makeRoom, ServerState.space_noteSpace]
    omega

end MakeRoom

/-! ## Changes of one file -/

section Update

variable {g : File → File}

theorem map_name_update (hg : ∀ f, (g f).pathName = f.pathName) :
    (fs.update path g).files.map File.pathName = fs.files.map File.pathName := by
  rw [update, List.map_map]
  refine List.map_congr_left fun f _ => ?_
  rw [Function.comp_apply]
  split_ifs
  · exact hg f
  · rfl

theorem mem_update (hf : f ∈ fs.files) : g f ∈ (fs.update f.pathName g).files :=
  List.mem_map.2 ⟨f, hf, if_pos rfl⟩

/-- The changed file is found at its path. -/
theorem find?_update (hn : (fs.files.map File.pathName).Nodup)
    (hg : ∀ f, (g f).pathName = f.pathName) (hf : fs.find? path = some f) :
    (fs.update path g).find? path = some (g f) := by
  obtain ⟨hmem, rfl⟩ := find?_eq_some hf
  have hn' : ((fs.update f.pathName g).files.map File.pathName).Nodup :=
    (map_name_update hg).symm ▸ hn
  have hfind := find?_of_mem hn' (mem_update hmem)
  rwa [hg f] at hfind

theorem others_update (hg : ∀ f, (g f).pathName = f.pathName) :
    (fs.update path g).others path = fs.others path := by
  have hname : ∀ f : File, (if f.pathName = path then g f else f).pathName = f.pathName := by
    intro f
    split_ifs
    · exact hg f
    · rfl
  rw [others, update, List.filter_map, others]
  simp only [Function.comp_def, hname]
  refine (List.map_congr_left fun f hf => ?_).trans (List.map_id _)
  rw [List.mem_filter, decide_eq_true_iff] at hf
  exact if_neg hf.2

/-- The space counts what the changed file has more. -/
theorem sum_size_update (hn : (fs.files.map File.pathName).Nodup) (hf : f ∈ fs.files)
    (hg : ∀ f, (g f).pathName = f.pathName) {size : ℕ} (hsize : (g f).size = f.size + size) :
    ((fs.update f.pathName g).files.map File.size).sum = (fs.files.map File.size).sum + size := by
  have hn' : ((fs.update f.pathName g).files.map File.pathName).Nodup :=
    (map_name_update hg).symm ▸ hn
  have h := sum_size_others hn hf
  have h' := sum_size_others hn' (mem_update hf)
  rw [hg f, others_update hg] at h'
  omega

/-- A file that grows within the limit, with room made for it, leaves the file system
sound. -/
theorem Sound.grow (h : fs.Sound cfg) (hf : f ∈ fs.files) {size : ℕ}
    (hg : ∀ f, (g f).pathName = f.pathName) (hexp : ∀ f, (g f).canBeExpelled = f.canBeExpelled)
    (hsize : (g f).size = f.size + size) (hle : (g f).size ≤ cfg.maxSpace)
    (hlt : fs.state.space + size < 2 ^ 63) :
    ((fs.update f.pathName g).makeRoom cfg f.pathName size).2.Sound cfg := by
  have hroom := @sound_makeRoom cfg (fs.update f.pathName g) (g f) size
  rw [hg f] at hroom
  refine hroom ((map_name_update hg).symm ▸ h.names) ?_ (mem_update hf) hle ?_ hlt
  · intro f' hf'
    obtain ⟨e, he, rfl⟩ := List.mem_map.1 hf'
    split_ifs
    · rw [hexp]
      exact h.expellable e he
    · exact h.expellable e he
  · rw [sum_size_update h.names hf hg hsize, ← h.space]
    rfl

end Update

/-! ## Requests that pass -/

section Refusal

variable {flags size : ℤ} {n : ℕ} {buf : List UInt8}

theorem refusal_writeFile_eq_none (hf : fs.find? path = some f) :
    fs.refusal cfg fdClient (.writeFile path size buf) = none ↔
      f.fdOpen.contains fdClient = true ∧ f.fdLock = fdClient ∧ f.size = 0 ∧
        toSize size ≤ cfg.maxSpace := by
  simp only [refusal, hf]
  split_ifs <;> simp_all

theorem refusal_appendToFile_eq_none (hn : n ≠ 0) (hf : fs.find? path = some f) :
    fs.refusal cfg fdClient (.appendToFile path n buf) = none ↔
      f.fdOpen.contains fdClient = true ∧ f.size + n ≤ cfg.maxSpace := by
  simp only [refusal, hf, hn]
  split_ifs <;> simp_all

theorem refusal_readFile_eq_none (hf : fs.find? path = some f) :
    fs.refusal cfg fdClient (.readFile path) = none ↔
      f.fdOpen.contains fdClient = true := by
  simp only [refusal, hf]
  split_ifs <;> simp_all

theorem refusal_removeFile_eq_none (hf : fs.find? path = some f) :
    fs.refusal cfg fdClient (.removeFile path) = none ↔
      f.fdOpen.contains fdClient = true ∧ f.fdLock = fdClient := by
  simp only [refusal, hf]
  split_ifs <;> simp_all

theorem refusal_openFile_eq_none (hc : ¬isFlagSet flags oCreate) (hf : fs.find? path = some f) :
    fs.refusal cfg fdClient (.openFile path flags) = none ↔
      (isFlagSet flags oLock → f.fdLock = -1 ∨ f.fdLock = fdClient) := by
  rw [refusal, if_neg hc, hf]
  by_cases h : isFlagSet flags oLock ∧ f.fdLock ≠ -1 ∧ f.fdLock ≠ fdClient
  · simp [h]
  · simp only [if_neg h, true_iff]
    intro hl
    by_contra hn
    exact h ⟨hl, not_or.1 hn⟩

end Refusal

/-! ## Effects -/

theorem contentBytes_eq (h : fs.Sound cfg) (hwf : ∀ f ∈ fs.files, f.contents.length = f.size) :
    fs.contentBytes = fs.state.space := by
  rw [h.space, contentBytes]
  exact congrArg List.sum (List.map_congr_left hwf)

/-- A new file is added. -/
theorem Sound.addFile (h : fs.Sound cfg) {files' : List File} {nlist : ℕ}
    (hp : files'.Perm (fs.files ++ [f])) (hn : ∀ g ∈ fs.files, g.pathName ≠ f.pathName)
    (hexp : f.canBeExpelled = true) (hsize : f.size = 0) :
    (⟨files', fs.state.addFile, nlist⟩ : FileSystem).Sound cfg where
  names := by
    refine ((hp.map _).nodup_iff).2 ?_
    rw [List.map_append]
    refine h.names.append (List.nodup_singleton _) (List.disjoint_singleton.2 fun hm => ?_)
    obtain ⟨g, hg, he⟩ := List.mem_map.1 hm
    exact hn g hg he
  expellable g hg := by
    rcases List.mem_append.1 (hp.subset hg) with hg | hg
    · exact h.expellable g hg
    · rwa [List.mem_singleton.1 hg]
  space := by
    rw [(hp.map _).sum_eq, List.map_append, List.sum_append, ← h.space]
    simp [hsize]
  space_le := h.space_le

/-- A new file is counted, but is not in the map. -/
theorem Sound.loseFile (h : fs.Sound cfg) {files' : List File} {nlist : ℕ}
    (hp : files'.Perm fs.files) :
    (⟨files', fs.state.addFile, nlist⟩ : FileSystem).Sound cfg where
  names := ((hp.map _).nodup_iff).2 h.names
  expellable g hg := h.expellable g (hp.subset hg)
  space := by
    rw [(hp.map _).sum_eq, ← h.space]
    rfl
  space_le := h.space_le

theorem mem_makePlace {g : File} (hg : g ∈ (fs.makePlace cfg).2.files) : g ∈ fs.files := by
  rcases makePlace_cases cfg fs with ⟨-, he, -⟩ | ⟨f, -, -, -, he⟩
  · rwa [he] at hg
  · rw [he] at hg
    exact List.mem_of_mem_filter hg

/-- Every request keeps the file system sound. -/
theorem Effect.sound {malloc : Allocation → Bool} {req : Request} {readings : List Timespec}
    {out : Except Sa Outcome} (he : Effect cfg fdClient malloc fs req readings out fs')
    (h : fs.Sound cfg) (hreq : req.WF)
    (hlt : fs.state.space + req.buffer.length < 2 ^ 63) : fs'.Sound cfg := by
  cases he with
  | refused | noMemory | unset | appendedNothing | removedNothing => exact h
  | @created path flags t₁ t₂ files' nlist' hc hf hfiles =>
    have hplace := h.makePlace
    rcases hfiles with hp | ⟨-, hp⟩
    · refine hplace.addFile hp (fun g hg => ?_) rfl rfl
      exact find?_eq_none hf (mem_makePlace hg)
    · exact hplace.loseFile hp
  | opened | closed | read => exact h.update fun _ => rfl
  | @written path size buf t f hf hpass =>
    obtain ⟨hmem, rfl⟩ := find?_eq_some hf
    obtain ⟨-, -, hzero, hle⟩ := (refusal_writeFile_eq_none hf).1 hpass
    have hbuf : buf.length = toSize size := hreq
    have hsize : (f.written (toSize size) buf t).size = f.size + toSize size := by
      rw [hzero, Nat.zero_add]
      rfl
    refine h.grow hmem (fun _ => rfl) (fun _ => rfl) hsize hle ?_
    rw [← hbuf]
    exact hlt
  | @appended path size buf t f hs hf hpass =>
    obtain ⟨hmem, rfl⟩ := find?_eq_some hf
    obtain ⟨-, hle⟩ := (refusal_appendToFile_eq_none hs hf).1 hpass
    have hbuf : buf.length = size := hreq
    subst hbuf
    exact h.grow hmem (fun _ => rfl) (fun _ => rfl) rfl hle hlt
  | @readN N =>
    refine h.congr ?_ rfl
    have hmark : File.mark ∘ File.readLocked = File.mark := rfl
    rw [List.map_append, List.map_map, hmark, ← List.map_append, List.take_append_drop]
  | @removed path f hf hpass =>
    exact h.remove (find?_eq_some hf).1

end FileSystem

end StorageServer
