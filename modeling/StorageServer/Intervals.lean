import StorageServer.Execution

/-!
# The intervals between the requests

`execute_requests` waits before each request for the time of the `-t` that comes last before it.
`set_timespec_from_msec` takes a millisecond for a thousand nanoseconds, so the interval is right
for the whole seconds only (`exact_iff`), and the intervals of a list are right if and only if each
request comes behind such a time (`intervals_iff`).
-/

open Programs

namespace StorageServer.App

open Api (Errno)

/-- The time of the last `-t`. -/
def lastTime (q : List ReqNode) : ℤ :=
  (q.filterMap ReqNode.time).getLast?.getD 0

/-- What `nanosleep` is to be called with for a number of milliseconds. -/
structure Exact (ts : Timespec) (msec : ℤ) : Prop where
  sum : ts.tvSec * 10 ^ 9 + ts.tvNsec = msec * 10 ^ 6
  nonneg : 0 ≤ ts.tvNsec
  lt : ts.tvNsec < 10 ^ 9

/-- The times of the list are not negative. -/
def Timed (q : List ReqNode) : Prop :=
  ∀ node ∈ q, ∀ msec, node.time = some msec → 0 ≤ msec

/-! ## One conversion -/

theorem setTimespecFromMsec_eq {msec : ℤ} (hmsec : 0 ≤ msec) (req : Timespec) :
    setTimespecFromMsec msec req = ⟨msec / 1000, msec % 1000 * 1000⟩ := by
  rw [setTimespecFromMsec, if_neg (by omega), Int.tdiv_eq_ediv_of_nonneg hmsec,
    Int.tmod_eq_emod_of_nonneg hmsec]

/-- The interval is right for whole seconds only. -/
theorem exact_iff {msec : ℤ} (hmsec : 0 ≤ msec) (req : Timespec) :
    Exact (setTimespecFromMsec msec req) msec ↔ msec % 1000 = 0 := by
  rw [setTimespecFromMsec_eq hmsec]
  constructor
  · rintro ⟨hsum, -, -⟩
    dsimp only at hsum
    omega
  · intro hzero
    refine ⟨?_, ?_, ?_⟩ <;> dsimp only <;> omega

/-! ## The times of a list -/

section Loop

variable {S : Type} {handle : ReqNode → Option CString → StateT S Res Unit} {prev : Option ReqNode}
  {node : ReqNode} {rest q l : List ReqNode} {pos : ℕ} {waitTime : Timespec} {s : S}

theorem lastTime_append (h : ∀ n ∈ l, n.time = none) : lastTime (q ++ l) = lastTime q := by
  rw [lastTime, List.filterMap_append, List.filterMap_eq_nil_iff.2 h, List.append_nil, lastTime]

theorem lastTime_concat {msec : ℤ} (h : node.time = some msec) : lastTime (q ++ [node]) = msec := by
  rw [lastTime, List.filterMap_append, List.filterMap_cons_some h, List.filterMap_nil,
    List.getLast?_append]
  rfl

theorem lastTime_nonneg (h : Timed q) : 0 ≤ lastTime q := by
  rw [lastTime]
  cases hlast : (q.filterMap ReqNode.time).getLast? with
  | none => exact Int.le_refl 0
  | some msec =>
    obtain ⟨node, hnode, htime⟩ := List.mem_filterMap.1 (List.mem_of_getLast? hlast)
    exact h node hnode msec htime

/-- The interval before a request is the one of the last time before it. -/
theorem executeLoop_intervals (hvalid : validateLoop prev q = true) (hfree : Free q)
    (pre : List ReqNode) (htimed : Timed (pre ++ q)) :
    ∀ h ∈ (executeLoop handle q pre.length (setTimespecFromMsec (lastTime pre) ⟨0, 0⟩) s).1,
      h.interval = if h.node.time.isSome then none
        else some (setTimespecFromMsec (lastTime ((pre ++ q).take h.pos)) ⟨0, 0⟩) := by
  refine @executeLoop_induction S handle prev q (fun q pos waitTime s => ∀ pre : List ReqNode,
    Timed (pre ++ q) → pos = pre.length → waitTime = setTimespecFromMsec (lastTime pre) ⟨0, 0⟩ →
      ∀ h ∈ (executeLoop handle q pos waitTime s).1,
        h.interval = if h.node.time.isSome then none
          else some (setTimespecFromMsec (lastTime ((pre ++ q).take h.pos)) ⟨0, 0⟩))
    ?_ ?_ ?_ hvalid hfree _ _ s pre htimed rfl rfl
  · intro _ _ _ _ _ _ _ h hh
    cases hh
  · intro node rest pos waitTime s h skipped q' waitTime' s' _ hg ih pre htimed hpos hwait
    have hlist : pre ++ node :: rest = (pre ++ node :: skipped) ++ q' := by
      rw [hg.rest_eq, List.append_assoc, List.cons_append]
    have hrequest := hg.request
    simp only [Handled.request, Prod.mk.injEq] at hrequest
    obtain ⟨hhpos, hhnode, -⟩ := hrequest
    rw [hg.run]
    refine List.forall_mem_cons.2 ⟨?_, ?_⟩
    · rw [hhpos, hhnode, hpos, List.take_left', ← hwait]
      · rcases hg.times with ⟨htime, hint, -⟩ | ⟨msec, htime, hint, -⟩
        · rw [htime, hint]
          rfl
        · rw [htime, hint]
          rfl
      · rfl
    · rw [hlist] at htimed ⊢
      refine ih _ htimed ?_ ?_
      · rw [hpos, List.length_append, List.length_cons]
        omega
      · have hskip : lastTime (pre ++ node :: skipped) = lastTime (pre ++ [node]) := by
          rw [List.append_cons, lastTime_append hg.modifiers]
        rw [hskip]
        rcases hg.times with ⟨htime, -, hwait'⟩ | ⟨msec, htime, -, hwait'⟩
        · rw [lastTime_append (List.forall_mem_singleton.2 htime), hwait', hwait]
        · have hmsec : 0 ≤ msec := htimed node (by simp) msec htime
          rw [lastTime_concat htime, hwait', setTimespecFromMsec_eq hmsec,
            setTimespecFromMsec_eq hmsec]
  · intro node rest pos waitTime s h e _ hs pre htimed hpos hwait
    have hrequest := hs.request
    simp only [Handled.request, Prod.mk.injEq] at hrequest
    obtain ⟨hhpos, hhnode, -⟩ := hrequest
    rw [hs.run]
    refine List.forall_mem_singleton.2 ?_
    rw [hhpos, hhnode, hpos, List.take_left', ← hwait, hs.interval, hs.time]
    · rfl
    · rfl

/-! ## The requests that are reached -/

theorem requests_pairwise (q : List ReqNode) (pos : ℕ) :
    (requests q pos).Pairwise fun x y => x.1 < y.1 := by
  induction q generalizing pos with
  | nil => exact List.Pairwise.nil
  | cons node rest ih =>
    rw [requests]
    split_ifs
    · exact ih _
    · refine List.pairwise_cons.2 ⟨fun x hx => ?_, ih _⟩
      obtain ⟨i, hi, -⟩ := mem_requests.1 (show (x.1, x.2.1, x.2.2) ∈ _ from hx)
      dsimp only
      omega

/-- A request is handled if the handlers of the requests before it return in every state. -/
theorem mem_executeLoop (hvalid : validateLoop prev q = true) (hfree : Free q)
    {l l' : List (ℕ × ReqNode × Option CString)} {x : ℕ × ReqNode × Option CString}
    (hsplit : requests q pos = l ++ x :: l')
    (hreturn : ∀ y ∈ l, y.2.1.time = none → ∀ s, ∃ s', handle y.2.1 y.2.2 s = .ok ((), s')) :
    x ∈ (executeLoop handle q pos waitTime s).1.map Handled.request := by
  refine @executeLoop_induction S handle prev q (fun q pos waitTime s =>
    ∀ l : List (ℕ × ReqNode × Option CString), requests q pos = l ++ x :: l' →
      (∀ y ∈ l, y.2.1.time = none → ∀ s, ∃ s', handle y.2.1 y.2.2 s = .ok ((), s')) →
      x ∈ (executeLoop handle q pos waitTime s).1.map Handled.request)
    ?_ ?_ ?_ hvalid hfree pos waitTime s l hsplit hreturn
  · intro _ _ _ l hsplit _
    exact absurd hsplit.symm (List.append_ne_nil_of_right_ne_nil l (List.cons_ne_nil x l'))
  · intro node rest pos waitTime s h skipped q' waitTime' s' hfree hg ih l hsplit hreturn
    rw [requests_of_free hfree, ← hg.request, hg.requests_eq] at hsplit
    rw [hg.run, List.map_cons, List.mem_cons]
    cases l with
    | nil => exact .inl (List.cons.inj hsplit).1.symm
    | cons y l =>
        exact .inr (ih l (List.cons.inj hsplit).2 fun z hz => hreturn z (List.mem_cons_of_mem _ hz))
  · intro node rest pos waitTime s h e hfree hs l hsplit hreturn
    rw [requests_of_free hfree, ← hs.request] at hsplit
    rw [hs.run, List.map_singleton, List.mem_singleton]
    cases l with
    | nil => exact (List.cons.inj hsplit).1.symm
    | cons y l =>
      -- the first request is before `x`, and its handler does not return
      obtain rfl := (List.cons.inj hsplit).1
      have hret := hreturn _ List.mem_cons_self
      rw [hs.request] at hret
      obtain ⟨s', hok⟩ := hret hs.time s
      exact absurd hok (hs.stuck _)

end Loop

/-! ## Where no file can be opened -/

section Steady

variable {disk : Disk} {fuel : ℕ} {expDir dirname : Option CString} {names : List CString}

/-- A list without files is written into every directory. -/
theorem writeListOfFilesIntoDir_nil :
    ∃ r, writeListOfFilesIntoDir fuel disk dirname [] = .ok r := by
  cases dirname with
  | none => exact ⟨_, rfl⟩
  | some dirname =>
    rw [writeListOfFilesIntoDir]
    split_ifs
    · exact ⟨_, rfl⟩
    · rw [Writing.loop_of_nil rfl]
      exact ⟨_, rfl⟩

theorem sendFiles_steady :
    sendFiles (.steady (some .enoent) (.error .enoent) (.error .enoent) disk) fuel expDir names () =
      .ok ((), ()) := by
  induction names with
  | nil => rfl
  | cons file rest ih => exact ih

theorem readFiles_steady_refused :
    readFiles (.steady (some .enoent) (.error .enoent) (.error .enoent) disk) names () =
      .ok ([], ()) := by
  induction names with
  | nil => rfl
  | cons file rest ih => exact ih

theorem removeFiles_steady :
    removeFiles (.steady (some .enoent) (.error .enoent) (.error .enoent) disk) names () =
      .ok ((), ()) := by
  induction names with
  | nil => rfl
  | cons file rest ih => exact ih

/-- The scan finds one file, which is not uploaded. -/
theorem recScan_steady (dir : CString) (N : ℤ) :
    recScan (.steady (some .enoent) (.error .enoent) (.error .enoent) disk) fuel expDir dir N () =
      .ok (0, ()) := by
  change whenReads N 0 (whenReads N 0 (return 0)) () = _
  rw [whenReads, whenReads]
  split_ifs <;> rfl

/-- Where no file can be opened, each handler returns. -/
theorem handle_steady {node : ReqNode} (htime : node.time = none) :
    handle (.steady (some .enoent) (.error .enoent) (.error .enoent) disk) fuel node expDir () =
      .ok ((), ()) := by
  cases node with
  | t msec => cases htime
  | w dir nFiles =>
    rw [handle]
    change Res.bind (recScan _ fuel expDir dir _ ()) _ = _
    rw [recScan_steady]
    rfl
  | W names => exact sendFiles_steady
  | r names =>
    obtain ⟨r, hr⟩ := @writeListOfFilesIntoDir_nil disk fuel expDir
    rw [handle]
    change Res.bind (readFiles _ names ()) _ = _
    rw [readFiles_steady_refused]
    change Res.bind (Res.bind (writeListOfFilesIntoDir fuel disk expDir []) _) _ = _
    rw [hr]
    rfl
  | c names => exact removeFiles_steady
  | R n | D dir | d dir | l names | u names => rfl

end Steady

/-! ## The intervals of a list -/

/-- Before each request that is not a `-t`, `nanosleep` is called with the time of the last `-t`
before it, if and only if that is a whole number of seconds for each request. -/
theorem intervals_iff {fOption : Bool} {q : List ReqNode}
    (hvalid : validateOptions fOption q = true)
    (htimed : Timed q) :
    (∀ (S : Type) (env : Env S) fuel s, ∀ h ∈ (executeRequests env fuel q s).1, h.node.time = none →
      ∃ ts, h.interval = some ts ∧ Exact ts (lastTime (q.take h.pos))) ↔
    ∀ i node, q[i]? = some node → node.time = none → node.modifier = none →
      lastTime (q.take i) % 1000 = 0 := by
  rw [validateOptions, Bool.and_eq_true] at hvalid
  have hfree : Free q := free_of_validateLoop hvalid.2 rfl rfl
  have hnonneg : ∀ i, 0 ≤ lastTime (q.take i) := fun i =>
    lastTime_nonneg fun node hnode => htimed node (List.mem_of_mem_take hnode)
  have hinterval : ∀ {S : Type} (env : Env S) fuel s, ∀ h ∈ (executeRequests env fuel q s).1,
      h.node.time = none → h.interval =
        some (setTimespecFromMsec (lastTime (q.take h.pos)) ⟨0, 0⟩) := by
    intro S env fuel s h hh htime
    rw [executeLoop_intervals hvalid.2 hfree [] htimed h hh, htime]
    rfl
  constructor
  · intro hall i node hnode htime hmod
    let env : Env Unit := .steady (some .enoent) (.error .enoent) (.error .enoent)
      ⟨fun _ => .made, fun _ _ => .refused, fun _ => none⟩
    have hmem : (i, node, q[i + 1]?.bind ReqNode.modifier) ∈ requests q 0 :=
      mem_requests.2 ⟨i, (Nat.zero_add i).symm, hnode, hmod, rfl⟩
    obtain ⟨l, l', hsplit⟩ := List.append_of_mem hmem
    have hmem' : (i, node, q[i + 1]?.bind ReqNode.modifier) ∈
        (executeRequests env 0 q ()).1.map Handled.request :=
      mem_executeLoop hvalid.2 hfree hsplit fun y _ hytime s => ⟨(), handle_steady hytime⟩
    obtain ⟨h, hh, hrequest⟩ := List.mem_map.1 hmem'
    simp only [Handled.request, Prod.mk.injEq] at hrequest
    obtain ⟨rfl, rfl, -⟩ := hrequest
    obtain ⟨ts, hts, hexact⟩ := hall Unit env 0 () h hh htime
    rw [hinterval env 0 () h hh htime, Option.some.injEq] at hts
    exact (exact_iff (hnonneg _) _).1 (hts ▸ hexact)
  · intro hall S env fuel s h hh htime
    refine ⟨_, hinterval env fuel s h hh htime, (exact_iff (hnonneg _) _).2 ?_⟩
    have hwalks : Walks (App.handle env fuel) (requests q 0) s (executeRequests env fuel q s) :=
      executeLoop_walks hvalid.2 hfree _ _ _
    have hmem : (h.pos, h.node, h.expDir) ∈ requests q 0 :=
      hwalks.in_order.subset (List.mem_map_of_mem hh)
    obtain ⟨i, hi, hnode, hmod, -⟩ := mem_requests.1 hmem
    rw [Nat.zero_add] at hi
    rw [hi]
    exact hall i h.node hnode htime hmod

/-- An example of `intervals_iff` : a read into a directory without a name one second on, and a `-R`
two seconds behind it. -/
theorem intervals_iff_seconds :
    validateOptions true [.t 1000, .r [[97]], .d [], .t 2000, .R 0] = true ∧
    ∀ (S : Type) (env : Env S) fuel s,
      ∀ h ∈ (executeRequests env fuel [.t 1000, .r [[97]], .d [], .t 2000, .R 0] s).1,
        h.node.time = none → ∃ ts, h.interval = some ts ∧
          Exact ts (lastTime ([ReqNode.t 1000, .r [[97]], .d [], .t 2000, .R 0].take h.pos)) := by
  have hvalid : validateOptions true [.t 1000, .r [[97]], .d [], .t 2000, .R 0] = true := by decide
  have htimed : Timed [.t 1000, .r [[97]], .d [], .t 2000, .R 0] := by
    intro node hnode msec htime
    simp only [List.mem_cons, List.not_mem_nil, or_false] at hnode
    rcases hnode with rfl | rfl | rfl | rfl | rfl <;> cases htime <;> decide
  refine ⟨hvalid, (intervals_iff hvalid htimed).2 fun i node hnode htime hmod => ?_⟩
  -- each of the list is a time, a modifier or a request behind whole seconds
  rcases i with _ | _ | _ | _ | _ | i <;> cases hnode <;>
    first | cases htime; done | cases hmod; done | decide

/-- 200 milliseconds before a `-R` : `nanosleep` is called with 200000 nanoseconds. -/
theorem intervals_msec : validateOptions true [.t 200, .R 0] = true ∧ Timed [.t 200, .R 0] ∧
    ¬ ∀ (S : Type) (env : Env S) fuel s, ∀ h ∈ (executeRequests env fuel [.t 200, .R 0] s).1,
      h.node.time = none →
        ∃ ts, h.interval = some ts ∧ Exact ts (lastTime ([ReqNode.t 200, .R 0].take h.pos)) := by
  refine ⟨by decide, ?_, fun hall => ?_⟩
  · intro node hnode msec htime
    simp only [List.mem_cons, List.not_mem_nil, or_false] at hnode
    rcases hnode with rfl | rfl <;> cases htime
    decide
  · let env : Env Unit := .steady none (.error .enoent) (.error .enoent)
      ⟨fun _ => .made, fun _ _ => .refused, fun _ => none⟩
    have hrun : (executeRequests env 0 [.t 200, .R 0] ()).1 =
        [⟨0, .t 200, none, none⟩, ⟨1, .R 0, none, some ⟨0, 200000⟩⟩] := by
      rw [executeRequests, executeLoop]
      dsimp only [ReqNode.time]
      rw [executeLoop]
      rfl
    obtain ⟨ts, hts, hexact⟩ := hall Unit env 0 () ⟨1, .R 0, none, some ⟨0, 200000⟩⟩
      (by rw [hrun]; exact List.mem_cons_of_mem _ List.mem_cons_self) rfl
    cases hts
    exact absurd hexact.sum (by decide)

end StorageServer.App
