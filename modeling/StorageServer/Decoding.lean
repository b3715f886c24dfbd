import StorageServer.Codec

/-!
# The codec of the files

What `send_list_of_files` writes is read by `write_files_sent_by_server` as the list of files
it was given : the paths, the sizes and the contents in the same order, and nothing of what
follows the final code (`files_roundtrip`).
-/

open Programs

namespace StorageServer

/-! ## Reading a reply -/

namespace Api

/-- The state of a client with these bytes left to be read. -/
def Client.left (c : Client) (bytes : List UInt8) : Client :=
  { c with inp := { c.inp with bytes := bytes } }

variable {c : Client} {bytes rest : List UInt8} {α β : Type}

@[simp] theorem Client.left_left (c : Client) (bs bs' : List UInt8) :
    (c.left bs).left bs' = c.left bs' :=
  rfl

@[simp] theorem Client.malloc_left (c : Client) (bytes : List UInt8) :
    (c.left bytes).malloc = c.malloc :=
  rfl

@[simp] theorem Client.bytes_left (c : Client) (bytes : List UInt8) :
    (c.left bytes).inp.bytes = bytes :=
  rfl

theorem Client.left_self (c : Client) (h : c.inp.bytes = bytes) : c.left bytes = c := by
  rw [Client.left, ← h]

theorem bind_apply (p : ApiM α) (k : α → ApiM β) (c : Client) :
    (p >>= k) c = (p c).bind fun r => k r.1 r.2 :=
  rfl

@[simp] theorem pure_apply (a : α) (c : Client) : (pure a : ApiM α) c = .ok (a, c) :=
  rfl

/-- A first part that returns goes on. -/
theorem bind_of_ok {p : ApiM α} {k : α → ApiM β} {a : α} {c' : Client} (h : p c = .ok (a, c')) :
    (p >>= k) c = k a c' := by
  rw [bind_apply, h]
  rfl

/-- Bytes that are there are read. -/
theorem readn_left {size : ℕ} (hsize : bytes.length = size) :
    readn size (c.left (bytes ++ rest)) = .ok ((toInt size, bytes), c.left rest) := by
  subst hsize
  simp [readn, Stream.readn, Client.left]

theorem readnInt_left {n : ℤ} (h : -2 ^ 31 ≤ n) (h' : n < 2 ^ 31) :
    readnInt (c.left (intBytes n ++ rest)) = .ok ((4, n), c.left rest) := by
  have h4 : toInt (4 : ℕ) = 4 := toInt_of_range (by omega) (by omega)
  rw [readnInt, bind_of_ok (readn_left (length_intBytes n)), h4]
  dsimp only
  rw [pure_apply, bytesInt_intBytes h h']

/-- A result that arrives is read. -/
theorem readRes_left {n : ℤ} (h : -2 ^ 31 ≤ n) (h' : n < 2 ^ 31) :
    readRes (c.left (intBytes n ++ rest)) = .ok (.ok n, c.left rest) := by
  have hl : ¬((4 : ℤ) = -1 ∨ (4 : ℤ) = 0) := by omega
  rw [readRes, bind_of_ok (readnInt_left h h')]
  dsimp only
  rw [if_neg hl]
  rfl

theorem safeMalloc_left (hmalloc : ∀ n, c.malloc (.safe n) = true) (size : ℕ) :
    safeMalloc size (c.left bytes) = .ok ((), c.left bytes) := by
  rw [safeMalloc, Client.malloc_left, if_pos (hmalloc size)]

theorem malloc_eq {a : Allocation} (h : c.malloc a = true) : malloc a c = .ok (true, c) := by
  rw [malloc, h]

/-- The codes are values of type `int`. -/
theorem code_range (code : Sa) : -2 ^ 31 ≤ code.code ∧ code.code < 2 ^ 31 := by
  cases code <;> decide

theorem readSuccess_left {code : Sa} : readSuccess (c.left (intBytes code.code ++ rest)) =
    .ok (if code = .success then .ok () else .error (convertResToErrno code.code),
      c.left rest) := by
  obtain ⟨h, h'⟩ := code_range code
  rw [readSuccess, bind_of_ok (readRes_left h h')]
  cases code <;> rfl

end Api

/-! ## Files -/

/-- A file that the client can rebuild : its path is not empty and an `int` can count it with
its `NUL`, and a `readn` of its size does not return `0` or `-1` unless it is empty. -/
structure File.Sendable (f : File) : Prop where
  nonempty : f.pathName ≠ []
  path : f.pathName.length < intMax
  size : f.size ≠ 0 → toInt f.size ≠ 0 ∧ toInt f.size ≠ -1

/-- The contents of a file are as long as it says, and a `size_t` counts them. -/
structure File.Sized (f : File) : Prop where
  contents : f.contents.length = f.size
  size_lt : f.size < 2 ^ 64

/-- The file as the client rebuilds it. -/
def File.received (f : File) : Api.Received :=
  ⟨cstring (f.pathName ++ [0]), f.size, f.contents⟩

theorem File.Sized.eq_nil {f : File} (h : f.Sized) (h0 : f.size = 0) : f.contents = [] :=
  List.eq_nil_of_length_eq_zero (h.contents.trans h0)

/-- The bytes of a file that is sent without its path. -/
theorem File.Sized.flatten_pieces {f : File} (h : f.Sized) :
    (f.pieces false).flatten = sizeBytes f.size ++ f.contents := by
  by_cases h0 : f.size = 0
  · simp [File.pieces, h0, h.eq_nil h0]
  · simp [File.pieces, h0, List.take_of_length_le h.contents.le]

section Receive

variable {f : File} {fs : List File} {c : Api.Client} {rest : List UInt8} {l : Local} {s : Store}

/-- The bytes of a file that is sent with its path. -/
theorem File.Sendable.flatten_pieces (h : f.Sendable) (hf : f.Sized) : (f.pieces true).flatten =
    intBytes f.pathName.length ++ (f.pathName ++ [0] ++ (sizeBytes f.size ++ f.contents)) := by
  have hpieces : f.pieces true = Api.pathPieces f.pathName ++ f.pieces false := by
    rw [pieces_true]
    rfl
  rw [hpieces, pathPieces_eq h.path, List.flatten_append, hf.flatten_pieces]
  simp

/-- The client can make a list of `n` files, if it has the memory that `safe_malloc` asks for. -/
structure Api.Client.MakesList (c : Api.Client) (n : ℕ) : Prop where
  safe : ∀ size, c.malloc (.safe size) = true
  list : c.malloc .list = true
  node : ∀ i < n, c.malloc (.listNode i) = true

theorem Api.Client.MakesList.of_granted (hmalloc : ∀ a, c.malloc a = true) (n : ℕ) :
    c.MakesList n :=
  ⟨fun _ => hmalloc _, hmalloc _, fun _ _ => hmalloc _⟩

/-- One round of the loop reads a file. -/
theorem receiveLoop_file (h : f.Sendable) (hf : f.Sized) (fuel : ℕ)
    {files : List Api.Received} {n : ℕ}
    (hmalloc : c.MakesList n) (hn : files.length < n) :
    Api.receiveLoop (fuel + 1) files (c.left ((f.pieces true).flatten ++ rest)) =
      Api.receiveLoop fuel (files ++ [f.received]) (c.left rest) := by
  have hlen : f.pathName.length < 2 ^ 31 - 1 := h.path
  have hpos : 0 < f.pathName.length := List.length_pos_of_ne_nil h.nonempty
  have hpath := @toInt_of_range (f.pathName.length + 1) (by omega) (by omega)
  have hbuf := @toSize_of_range (f.pathName.length + 1) (by omega)
  have h8 : toInt (8 : ℕ) = 8 := toInt_of_range (by omega) (by omega)
  have hbytes : (f.pieces true).flatten ++ rest = intBytes f.pathName.length ++
      (f.pathName ++ [0] ++ (sizeBytes f.size ++ (f.contents ++ rest))) := by
    rw [h.flatten_pieces hf]
    simp only [List.append_assoc]
  have hr : toInt ((f.pathName.length + 1 : ℕ) : ℤ) = f.pathName.length + 1 := by
    rw [Int.natCast_succ, hpath]
  have h4' : ¬((4 : ℤ) = -1 ∨ (4 : ℤ) = 0) := by omega
  have h8' : ¬((8 : ℤ) = -1 ∨ (8 : ℤ) = 0) := by omega
  have hlen' : ¬(f.pathName.length : ℤ) = 0 := by omega
  have hr' : ¬((f.pathName.length + 1 : ℤ) = -1 ∨ (f.pathName.length + 1 : ℤ) = 0) := by omega
  -- the length and the path
  rw [hbytes, Api.receiveLoop, Api.bind_of_ok (Api.readnInt_left (by omega) (by omega))]
  dsimp only
  rw [if_neg h4', if_neg hlen', Api.bind_of_ok (Api.safeMalloc_left hmalloc.safe _),
    Api.bind_of_ok (Api.safeMalloc_left hmalloc.safe _), hpath, ← Int.natCast_succ, hbuf,
    Api.bind_of_ok (Api.readn_left (by simp)), hr]
  dsimp only
  -- the size
  rw [if_neg hr', Api.bind_of_ok (Api.readn_left (length_sizeBytes _)), h8]
  dsimp only
  rw [if_neg h8', bytesSize_sizeBytes hf.size_lt]
  have hnode : Api.malloc (.listNode files.length) (c.left rest) = .ok (true, c.left rest) :=
    Api.malloc_eq (hmalloc.node _ hn)
  -- the contents, if there are any
  by_cases h0 : f.size = 0
  · rw [if_neg (not_not.2 h0), hf.eq_nil h0, List.nil_append, Api.bind_of_ok hnode, File.received,
      hf.eq_nil h0]
    rfl
  · obtain ⟨hzero, hneg⟩ := h.size h0
    rw [if_pos h0, Api.bind_of_ok (Api.safeMalloc_left hmalloc.safe _),
      Api.bind_of_ok (Api.readn_left hf.contents)]
    dsimp only
    rw [if_neg (not_or.2 ⟨hneg, hzero⟩), Api.bind_of_ok hnode, File.received]
    rfl

/-- A zero ends the loop. -/
theorem receiveLoop_end (fuel : ℕ) (files : List Api.Received) :
    Api.receiveLoop (fuel + 1) files (c.left (intBytes 0 ++ rest)) =
      .ok (.ok files, c.left rest) := by
  rw [Api.receiveLoop, Api.bind_of_ok (Api.readnInt_left (by omega) (by omega))]
  rfl

/-- The loop reads a list of files. -/
theorem receiveLoop_files (h : ∀ f ∈ fs, f.Sendable ∧ f.Sized) {fuel : ℕ}
    (hfuel : fs.length < fuel) (files : List Api.Received)
    (hmalloc : c.MakesList (files.length + fs.length)) :
    Api.receiveLoop fuel files (c.left ((listPieces fs).flatten ++ rest)) =
      .ok (.ok (files ++ fs.map File.received), c.left rest) := by
  induction fs generalizing fuel files with
  | nil =>
    obtain ⟨fuel, rfl⟩ := Nat.exists_eq_succ_of_ne_zero (Nat.ne_of_gt hfuel)
    have hbytes : (listPieces []).flatten ++ rest = intBytes 0 ++ rest := by
      simp [listPieces]
    rw [hbytes, receiveLoop_end, List.map_nil, List.append_nil]
  | cons f fs ih =>
    obtain ⟨fuel, rfl⟩ := Nat.exists_eq_succ_of_ne_zero (Nat.ne_of_gt (Nat.zero_lt_of_lt hfuel))
    have hbytes : (listPieces (f :: fs)).flatten ++ rest =
        (f.pieces true).flatten ++ ((listPieces fs).flatten ++ rest) := by
      simp [listPieces]
    have hlen : (files ++ [f.received]).length + fs.length = files.length + (f :: fs).length := by
      simp only [List.length_append, List.length_cons, List.length_nil]
      omega
    rw [hbytes, receiveLoop_file (h f List.mem_cons_self).1 (h f List.mem_cons_self).2 fuel hmalloc
        (by simp), ih (fun g hg => h g (List.mem_cons_of_mem _ hg)) (Nat.lt_of_succ_lt_succ hfuel) _
        (hlen ▸ hmalloc), List.map_cons, List.append_assoc, List.singleton_append]

/-- Every file that is sent is at least a byte. -/
theorem length_le_flatten (fs : List File) : fs.length < (listPieces fs).flatten.length := by
  induction fs with
  | nil => simp [listPieces]
  | cons f fs ih =>
    have hpos : 4 ≤ (f.pieces true).flatten.length := by
      rw [pieces_true]
      simp
    have hbytes : (listPieces (f :: fs)).flatten =
        (f.pieces true).flatten ++ (listPieces fs).flatten := by
      simp [listPieces]
    rw [hbytes, List.length_append, List.length_cons]
    omega

/-- `write_files_sent_by_server` reads a list of files and the final code. -/
theorem receiveFiles_left (h : ∀ f ∈ fs, f.Sendable ∧ f.Sized) (hmalloc : c.MakesList fs.length)
    (code : Sa) :
    Api.receiveFiles (c.left ((listPieces fs).flatten ++ (intBytes code.code ++ rest))) =
      .ok (if code = .success then .ok (fs.map File.received)
        else .error (Api.convertResToErrno code.code), c.left rest) := by
  have hfuel : fs.length <
      ((listPieces fs).flatten ++ (intBytes code.code ++ rest)).length + 1 := by
    have := length_le_flatten fs
    rw [List.length_append]
    omega
  have hlist : ∀ bs, Api.malloc .list (c.left bs) = .ok (true, c.left bs) := fun _ =>
    Api.malloc_eq hmalloc.list
  have hloop : Api.receiveList (c.left ((listPieces fs).flatten ++ (intBytes code.code ++ rest))) =
      .ok (.ok (fs.map File.received), c.left (intBytes code.code ++ rest)) :=
    receiveLoop_files h hfuel [] (by rwa [List.length_nil, Nat.zero_add])
  rw [Api.receiveFiles, Api.bind_of_ok (hlist _)]
  change (Api.receiveList >>= _) _ = _
  rw [Api.bind_of_ok hloop]
  dsimp only
  rw [Api.bind_of_ok Api.readSuccess_left]
  split_ifs <;> rfl

end Receive

/-! ## The round trip -/

/-- No `write` of the coming sends returns `0`, as none does for a buffer that is not empty. -/
def Local.Steady (l : Local) : Prop :=
  ∀ r ∈ l.sends, ∀ k, r ≠ .closed k

/-- The coming sends succeed. -/
def Local.Reliable (l : Local) : Prop :=
  ∀ r ∈ l.sends, r = .sent

theorem Local.Reliable.steady {l : Local} (h : l.Reliable) : l.Steady := fun r hr k he => by
  have := (h r hr).symm.trans he
  cases this

/-- One `writen` sends all its bytes unless it fails. -/
theorem writen_steady {l : Local} (h : l.Steady) (bytes : List UInt8) :
    (l.writen bytes).2.Steady ∧
      ((l.writen bytes).1 ≠ -1 → (l.writen bytes).2.out = l.out ++ bytes) := by
  unfold Local.writen
  split_ifs with hnil
  · exact ⟨h, fun _ => by rw [hnil, List.append_nil]⟩
  cases hs : l.sends with
  | nil => exact ⟨nofun, fun _ => rfl⟩
  | cons r rs =>
    refine ⟨fun r hr => h r (hs ▸ List.mem_cons_of_mem _ hr), fun hr => ?_⟩
    cases r with
    | sent => rfl
    | closed k => exact absurd rfl (h _ (hs ▸ List.mem_cons_self) k)
    | failed k => exact absurd rfl hr

theorem writen_reliable {l : Local} (h : l.Reliable) (bytes : List UInt8) :
    (l.writen bytes).2.Reliable ∧ (l.writen bytes).1 = 1 := by
  unfold Local.writen
  split_ifs with hnil
  · exact ⟨h, rfl⟩
  cases hs : l.sends with
  | nil => exact ⟨nofun, rfl⟩
  | cons r rs =>
    obtain rfl : r = .sent := h r (hs ▸ List.mem_cons_self)
    exact ⟨fun r hr => h r (hs ▸ List.mem_cons_of_mem _ hr), rfl⟩

/-- Sends that do not fail send every piece. -/
theorem sendAll_steady {l : Local} (h : l.Steady) (pieces : List (List UInt8)) :
    (l.sendAll pieces).2.Steady ∧
      ((l.sendAll pieces).1 ≠ -1 → (l.sendAll pieces).2.out = l.out ++ pieces.flatten) := by
  induction pieces generalizing l with
  | nil => exact ⟨h, fun _ => (List.append_nil _).symm⟩
  | cons bytes rest ih =>
    obtain ⟨hsteady, hout⟩ := writen_steady h bytes
    obtain ⟨hsteady', hout'⟩ := ih hsteady
    rw [Local.sendAll]
    split_ifs with hw
    · exact ⟨hsteady, fun hne => absurd rfl hne⟩
    · refine ⟨hsteady', fun hne => ?_⟩
      rw [hout' hne, hout hw, List.flatten_cons, List.append_assoc]

theorem sendAll_reliable {l : Local} (h : l.Reliable) (pieces : List (List UInt8)) :
    (l.sendAll pieces).2.Reliable ∧ (l.sendAll pieces).1 = 0 := by
  induction pieces generalizing l with
  | nil => exact ⟨h, rfl⟩
  | cons bytes rest ih =>
    obtain ⟨hreliable, hcode⟩ := writen_reliable h bytes
    have hne : ¬(1 : ℤ) = -1 := by omega
    rw [Local.sendAll, hcode, if_neg hne]
    exact ih hreliable

/-- The list of files that `send_list_of_files` is given is what `write_files_sent_by_server`
rebuilds from the bytes it writes, followed by the final code, and whatever comes after that
is left. -/
theorem files_roundtrip (ps : List (FilePtr × File))
    (hps : ∀ x ∈ ps, x.2.pathName ≠ [] ∧ Api.Call.ValidPath x.2.pathName ∧
      x.2.contents.length = x.2.size ∧ x.2.size ≤ intMax)
    (l : Local) (s : Store) (hsends : l.Reliable)
    (hheap : ∀ x ∈ ps, s.heap x.1 = some x.2) :
    ∃ l' sent, Prog.run exec (sendListOfFiles (ps.map Prod.fst)) (l, s) = .ok (0, (l', s)) ∧
      l'.out = l.out ++ sent ∧
      ∀ (c : Api.Client) (r : List UInt8), (∀ n, c.malloc n = true) →
        c.inp.bytes = sent ++ (intBytes Sa.success.code ++ r) →
        Api.receiveFiles c = .ok (.ok (ps.map fun x => ⟨x.2.pathName, x.2.size, x.2.contents⟩),
          { c with inp := { c.inp with bytes := r } }) ∧
        ∀ written, ∃ ret, Api.writeFilesSentByServer written c =
          .ok (ret, { c with inp := { c.inp with bytes := r } }) := by
  have hint : intMax = 2 ^ 31 - 1 := rfl
  have hsendable : ∀ f ∈ ps.map Prod.snd, f.Sendable ∧ f.Sized := by
    intro f hf
    obtain ⟨x, hx, rfl⟩ := List.mem_map.1 hf
    obtain ⟨hnonempty, hpath, hcontents, hsize⟩ := hps x hx
    refine ⟨⟨hnonempty, hpath.2, fun h0 => ?_⟩, ⟨hcontents, by omega⟩⟩
    rw [toInt_of_range (by omega) (by omega)]
    omega
  have hreceived : ∀ x ∈ ps, (File.received ∘ Prod.snd) x =
      ⟨x.2.pathName, x.2.size, x.2.contents⟩ := fun x hx => by
    rw [Function.comp_apply, File.received, cstring_append_nul (hps x hx).2.1.1]
  have hzero := (sendAll_reliable hsends (listPieces (ps.map Prod.snd))).2
  have hout := (sendAll_steady hsends.steady (listPieces (ps.map Prod.snd))).2
    (by rw [hzero]; omega)
  have hends : Prog.twp exec (sendListOfFiles (ps.map Prod.fst))
      (fun code w => code = 0 ∧ w = ((l.sendAll (listPieces (ps.map Prod.snd))).2, s)) (l, s) :=
    ends_of_prompt (prompt_of_replying (replying_sendListOfFiles _))
      (safe_sendListOfFiles (fun x hx => ⟨_, hheap x hx, rfl⟩) ⟨hzero, rfl⟩)
  obtain ⟨_, _, hrun, rfl, rfl⟩ := hends
  refine ⟨_, _, hrun, hout, fun c r hmalloc hbytes => ?_⟩
  have hreceive := @receiveFiles_left _ c r hsendable (.of_granted hmalloc _) .success
  rw [Api.Client.left_self c hbytes, if_pos rfl, List.map_map,
    List.map_congr_left hreceived] at hreceive
  refine ⟨hreceive, fun written => ?_⟩
  rw [Api.writeFilesSentByServer, Api.bind_of_ok hreceive]
  dsimp only
  split_ifs <;> exact ⟨_, rfl⟩

/-- A client to which the server sends these bytes, and is then silent. -/
def Api.Client.ofBytes (bytes : List UInt8) : Api.Client where
  connected := true
  lastOp := .reset
  inp := ⟨bytes, .waiting⟩
  sends := []
  malloc := allGranted
  out := []

/-- An example of `files_roundtrip` : a file of two bytes and an empty one, with the bytes of
another answer behind them. -/
theorem files_roundtrip_two : ∃ s l' sent,
    Prog.run exec (sendListOfFiles [0, 1]) (Local.ofBytes [] [] [], s) = .ok (0, (l', s)) ∧
      Api.receiveFiles (.ofBytes (sent ++ (intBytes Sa.success.code ++ [7, 0]))) =
        .ok (.ok [⟨[97], 2, [1, 2]⟩, ⟨[98, 47], 0, []⟩], .ofBytes [7, 0]) := by
  let f := (File.new allGranted [97] 0 3 ⟨0, 0⟩ ⟨0, 0⟩).written 2 [1, 2] ⟨0, 0⟩
  let g := File.new allGranted [98, 47] 0 3 ⟨0, 0⟩ ⟨0, 0⟩
  have hps : ∀ x ∈ [(0, f), (1, g)], x.2.pathName ≠ [] ∧ Api.Call.ValidPath x.2.pathName ∧
      x.2.contents.length = x.2.size ∧ x.2.size ≤ intMax :=
    List.forall_mem_cons.2 ⟨⟨nofun, ⟨by decide, by decide⟩, rfl, by decide⟩,
      List.forall_mem_singleton.2 ⟨nofun, ⟨by decide, by decide⟩, rfl, by decide⟩⟩
  let s : Store := (Store.initial.put 0 f).put 1 g
  have hf : s.heap 0 = some f :=
    (Store.heap_put_of_ne _ _ _ (by decide)).trans (Store.heap_put_self ..)
  have hheap : ∀ x ∈ [(0, f), (1, g)], s.heap x.1 = some x.2 :=
    List.forall_mem_cons.2 ⟨hf, List.forall_mem_singleton.2 (Store.heap_put_self ..)⟩
  obtain ⟨l', sent, hrun, -, h⟩ :=
    files_roundtrip [(0, f), (1, g)] hps (Local.ofBytes [] [] []) s nofun hheap
  exact ⟨s, l', sent, hrun, (h (.ofBytes _) [7, 0] (fun _ => rfl) rfl).1⟩

end StorageServer
