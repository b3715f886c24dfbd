import StorageServer.Directory
import StorageServer.Lib.Decimal
import StorageServer.Store

/-!
# The configuration file

`get_server_config` reads six options, each by a keyword of nine characters and then a number with
`fscanf` or a line with `fgets`. Of what `fscanf` returns it only looks at `EOF`. So it accepts the
texts that are six entries with different keywords (`getServerConfig_ne_none`), where the equals
sign may be missing, and a number may be missing, signed or too large. It is right about the texts
of which none of this holds, and whose policy and rest are in order (`wellFormed_of_accepted_iff`).
A file as it is described in `README.md` is among them (`getServerConfig_lines`).
-/

open Decimal

namespace StorageServer

/-- `server_config_t`. -/
structure Config where
  nWorkers : ℕ
  maxSpace : ℕ
  maxFiles : ℕ
  socketPath : CString
  logDirPath : CString
  policy : Policy
  deriving DecidableEq, Repr

/-- The options of the file. -/
inductive Keyword
  | maxFiles
  | maxSpace
  | noWorker
  | sockPath
  | pathDlog
  | cachePol
  deriving DecidableEq, Repr

namespace Keyword

/-- The keywords, in the order in which they are compared. -/
def all : List Keyword :=
  [maxFiles, maxSpace, noWorker, sockPath, pathDlog, cachePol]

/-- `max_files`, `max_space`, `no_worker`, `sock_path`, `path_dlog` and `cache_pol`. -/
def text : Keyword → CString
  | maxFiles => [109, 97, 120, 95, 102, 105, 108, 101, 115]
  | maxSpace => [109, 97, 120, 95, 115, 112, 97, 99, 101]
  | noWorker => [110, 111, 95, 119, 111, 114, 107, 101, 114]
  | sockPath => [115, 111, 99, 107, 95, 112, 97, 116, 104]
  | pathDlog => [112, 97, 116, 104, 95, 100, 108, 111, 103]
  | cachePol => [99, 97, 99, 104, 101, 95, 112, 111, 108]

end Keyword

/-- `LRU`. -/
def lruCode : CString :=
  [76, 82, 85]

/-- `FIFO`. -/
def fifoCode : CString :=
  [70, 73, 70, 79]

/-- The code of the newline. -/
def newline : UInt8 :=
  10

/-- The code of the equals sign. -/
def equals : UInt8 :=
  61

/-! ## Reading -/

/-- `fgets` with a buffer of `n` bytes, `none` at the end of the file. -/
def fgets (n : ℕ) (s : List UInt8) : Option (List UInt8 × List UInt8) :=
  if s = [] then none
  else
    let k := min (n - 1) ((s.takeWhile (· ≠ newline)).length + 1)
    some (s.take k, s.drop k)

/-- `strtoul` of a number that `fscanf` has found. -/
def strtoul (x : Lexeme) : ℕ :=
  if 2 ^ 64 ≤ ofDigits x.digits then 2 ^ 64 - 1 else toSize x.value

/-- `fscanf` with `" %9c = "`, which writes into `currentOpt` what is there of nine characters. -/
def fscanfOpt (s currentOpt : List UInt8) : Option (List UInt8 × List UInt8) :=
  let t := s.dropWhile isSpace
  if t = [] then none
  else
    let opt := t.take 9
    let u := (t.drop 9).dropWhile isSpace
    some (opt ++ currentOpt.drop opt.length,
      if u.head? = some equals then u.tail.dropWhile isSpace else u)

/-- `fscanf` with `"%u"` or `"%lu"`, with no number if there is none. -/
def fscanfUnsigned (s : List UInt8) : Option (Option ℕ × List UInt8) :=
  let x := lex s
  if x.Blank then none
  else some (if x.digits = [] then none else some (strtoul x), x.rest)

/-- What the loop keeps. -/
structure Reader where
  stream : List UInt8
  currentOpt : List UInt8
  /-- The options whose flags are set. -/
  read : List Keyword
  config : Config

/-- The path of a line that `fgets` has read. -/
def pathOf (line : List UInt8) : CString :=
  (cstring line).takeWhile (· ≠ newline)

/-- The value of an option. -/
def readValue (c : Config) (s : List UInt8) : Keyword → Option (Config × List UInt8)
  | .maxFiles => (fscanfUnsigned s).map fun (v, s) =>
    ({ c with maxFiles := (v.map fun (n : ℕ) => toUInt n).getD c.maxFiles }, s)
  | .maxSpace => (fscanfUnsigned s).map fun (v, s) =>
    ({ c with maxSpace := toSize (v.getD c.maxSpace * 1000000 : ℕ) }, s)
  | .noWorker => (fscanfUnsigned s).map fun (v, s) =>
    ({ c with nWorkers := (v.map fun (n : ℕ) => toUInt n).getD c.nWorkers }, s)
  | .sockPath => (fgets pathMax s).map fun (line, s) => ({ c with socketPath := pathOf line }, s)
  | .pathDlog => (fgets pathMax s).map fun (line, s) => ({ c with logDirPath := pathOf line }, s)
  | .cachePol => (fgets 5 s).bind fun (policyCode, s) =>
    if policyCode.take 3 = lruCode then some ({ c with policy := .LRU }, s)
    else if policyCode.take 4 = fifoCode then some ({ c with policy := .FIFO }, s)
    else none

/-- An iteration of the loop. -/
def getOption (r : Reader) : Option Reader :=
  (fscanfOpt r.stream r.currentOpt).bind fun (currentOpt, s) =>
    (Keyword.all.find? fun k => currentOpt.take 9 = k.text ∧ k ∉ r.read).bind fun k =>
      (readValue r.config s k).map fun (config, s) => ⟨s, currentOpt, k :: r.read, config⟩

/-- The loop. -/
def getOptions : ℕ → Reader → Option Reader
  | 0, r => some r
  | k + 1, r => (getOption r).bind (getOptions k)

/-- `get_server_config`, on the text of the file : what `server_config` holds then, if it returns
`0`. Nothing is known of what `server_config` and `current_opt` hold before. -/
def getServerConfig (config : Config) (currentOpt text : List UInt8) : Option Config :=
  (getOptions 6 ⟨text, currentOpt, [], config⟩).bind fun r =>
    if ∀ k ∈ Keyword.all, k ∈ r.read then some r.config else none

/-! ## Entries -/

/-- An option as it stands in the text. -/
structure Entry where
  gap : List UInt8
  key : Keyword
  before : List UInt8
  /-- Whether there is an equals sign. -/
  eq : Bool
  after : List UInt8
  value : List UInt8
  deriving DecidableEq

/-- The text of an entry. -/
def Entry.text (e : Entry) : List UInt8 :=
  e.gap ++ (e.key.text ++ (e.before ++ ((if e.eq then equals :: e.after else []) ++ e.value)))

/-- What of a text is taken for the value of an option, the rest being left. -/
def Keyword.Takes (value rest : List UInt8) : Keyword → Prop
  | .maxFiles | .maxSpace | .noWorker =>
    ¬(lex (value ++ rest)).Blank ∧ (lex (value ++ rest)).rest = rest
  | .sockPath | .pathDlog => fgets pathMax (value ++ rest) = some (value, rest)
  | .cachePol => fgets 5 (value ++ rest) = some (value, rest) ∧
    (value.take 3 = lruCode ∨ value.take 4 = fifoCode)

/-- An entry as the code reads it, in front of the rest of the text. The equals sign may be
missing. -/
structure Entry.Reads (e : Entry) (rest : List UInt8) : Prop where
  gap : ∀ b ∈ e.gap, isSpace b = true
  before : ∀ b ∈ e.before, isSpace b = true
  after : ∀ b ∈ e.after, isSpace b = true
  bare : Stops isSpace (e.value ++ rest)
  eq : e.eq = false → e.after = [] ∧ (e.value ++ rest).head? ≠ some equals
  takes : e.key.Takes e.value rest

section Entry

variable {e e' : Entry} {k : Keyword} {c c' : Config} {s rest rest' value value' : List UInt8}
  {r r' : Reader}

theorem length_text (k : Keyword) : k.text.length = 9 := by
  cases k <;> rfl

theorem text_injective {k k' : Keyword} (h : k.text = k'.text) : k = k' := by
  cases k <;> cases k' <;> first | rfl | exact absurd h (by decide)

theorem stops_text (k : Keyword) (s : List UInt8) : Stops isSpace (k.text ++ s) := by
  intro b hb
  cases k <;> cases hb <;> rfl

theorem fgets_append {n : ℕ} (h : fgets n s = some (value, rest)) : value ++ rest = s := by
  unfold fgets at h
  split_ifs at h
  cases h
  exact List.take_append_drop _ s

/-- A value is read if it is taken. -/
theorem readValue_iff : (∃ c', readValue c (value ++ rest) k = some (c', rest)) ↔
    k.Takes value rest := by
  cases k with
  | maxFiles | maxSpace | noWorker =>
    simp only [readValue, fscanfUnsigned, Keyword.Takes]
    by_cases hblank : (lex (value ++ rest)).Blank
    · simp [hblank]
    · simp [hblank]
  | sockPath | pathDlog =>
    simp only [readValue, Keyword.Takes, Option.map_eq_some_iff]
    constructor
    · rintro ⟨c', ⟨line, s⟩, hline, hc⟩
      cases hc
      have happ := fgets_append hline
      rwa [List.append_cancel_right happ] at hline
    · intro h
      exact ⟨_, (value, rest), h, rfl⟩
  | cachePol =>
    simp only [readValue, Keyword.Takes, Option.bind_eq_some_iff]
    constructor
    · rintro ⟨c', ⟨line, s⟩, hline, hc⟩
      have happ := fgets_append hline
      split_ifs at hc with hlru hfifo
      · cases hc
        obtain rfl := List.append_cancel_right happ
        exact ⟨hline, .inl hlru⟩
      · cases hc
        obtain rfl := List.append_cancel_right happ
        exact ⟨hline, .inr hfifo⟩
    · rintro ⟨hline, hcode⟩
      by_cases hlru : value.take 3 = lruCode
      · exact ⟨{ c with policy := .LRU }, (value, rest), hline, if_pos hlru⟩
      · refine ⟨{ c with policy := .FIFO }, (value, rest), hline, ?_⟩
        dsimp only
        rw [if_neg hlru, if_pos (hcode.resolve_left hlru)]

/-- Reading a value leaves an end of the text. -/
theorem readValue_append (hs : Stops isSpace s) (h : readValue c s k = some (c', rest)) :
    ∃ value, s = value ++ rest := by
  have hlex : (lex s).sign.toList ++ (lex s).digits ++ (lex s).rest = s := by
    have happ := lex_append s
    rwa [lex_space hs, List.nil_append] at happ
  cases k with
  | maxFiles | maxSpace | noWorker =>
    simp only [readValue, fscanfUnsigned, Option.map_eq_some_iff] at h
    obtain ⟨⟨v, s'⟩, hscan, hc⟩ := h
    rw [Option.ite_none_left_eq_some] at hscan
    cases hscan.2
    cases hc
    exact ⟨_, hlex.symm⟩
  | sockPath | pathDlog =>
    simp only [readValue, Option.map_eq_some_iff] at h
    obtain ⟨⟨line, s'⟩, hline, hc⟩ := h
    cases hc
    exact ⟨line, (fgets_append hline).symm⟩
  | cachePol =>
    simp only [readValue, Option.bind_eq_some_iff] at h
    obtain ⟨⟨line, s'⟩, hline, hc⟩ := h
    have happ := fgets_append hline
    split_ifs at hc <;> cases hc <;> exact ⟨line, happ.symm⟩

/-- There is no value at the end of the text. -/
theorem readValue_nil : readValue c [] k = none := by
  cases k <;> rfl

theorem stops_before (he : e.Reads rest) :
    Stops isSpace ((if e.eq then equals :: e.after else []) ++ (e.value ++ rest)) := by
  cases heq : e.eq with
  | false => exact he.bare
  | true =>
    intro b hb
    cases hb
    rfl

/-- What `fscanf` reads of an entry. -/
theorem fscanfOpt_text (he : e.Reads rest) (currentOpt : List UInt8) :
    fscanfOpt (e.text ++ rest) currentOpt =
      some (e.key.text ++ currentOpt.drop 9, e.value ++ rest) := by
  have hlen := length_text e.key
  have hstream : e.text ++ rest = e.gap ++ (e.key.text ++ (e.before ++
      ((if e.eq then equals :: e.after else []) ++ (e.value ++ rest)))) := by
    simp only [Entry.text, List.append_assoc]
  have hkey := (span_append he.gap (stops_text e.key (e.before ++
      ((if e.eq then equals :: e.after else []) ++ (e.value ++ rest))))).2
  have hbefore := (span_append he.before (stops_before he)).2
  have htext : e.key.text ++ (e.before ++
      ((if e.eq then equals :: e.after else []) ++ (e.value ++ rest))) ≠ [] := fun hnil => by
    have := congrArg List.length hnil
    rw [List.length_append, hlen, List.length_nil] at this
    omega
  rw [fscanfOpt, hstream]
  dsimp only
  rw [hkey, if_neg htext, List.take_left' hlen, List.drop_left' hlen, hbefore, hlen]
  cases heq : e.eq with
  | false =>
    obtain ⟨hafter, hhead⟩ := he.eq heq
    rw [if_neg Bool.false_ne_true, List.nil_append, if_neg hhead]
  | true =>
    rw [if_pos rfl, List.cons_append, List.head?_cons, if_pos rfl, List.tail_cons,
      (span_append he.after he.bare).2]

theorem takeWhile_all {p : UInt8 → Bool} (s : List UInt8) : ∀ b ∈ s.takeWhile p, p b = true :=
  fun _ hb => List.mem_takeWhile_imp hb

/-- What is read in front of a value is the rest of an entry. -/
theorem exists_entry {currentOpt opt : List UInt8} (h : fscanfOpt s currentOpt = some (opt, rest'))
    (hopt : opt.take 9 = k.text) (hvalue : readValue c rest' k = some (c', rest)) :
    ∃ e : Entry, s = e.text ++ rest ∧ e.Reads rest ∧ e.key = k ∧ rest' = e.value ++ rest := by
  have hgap := List.takeWhile_append_dropWhile (p := isSpace) (l := s)
  rw [fscanfOpt] at h
  dsimp only at h
  rw [Option.ite_none_left_eq_some] at h
  obtain ⟨-, h⟩ := h
  generalize s.dropWhile isSpace = t at h hgap
  generalize hu : (t.drop 9).dropWhile isSpace = u at h
  have hbefore : (t.drop 9).takeWhile isSpace ++ u = t.drop 9 :=
    hu ▸ List.takeWhile_append_dropWhile
  have hustops : Stops isSpace u := hu ▸ stops_dropWhile isSpace _
  obtain ⟨rfl, hrest'⟩ := Prod.mk.inj (Option.some.inj h)
  have hlen : 9 ≤ t.length := by
    by_contra hlt
    have hnil : t.drop 9 = [] := List.drop_eq_nil_of_le (by omega)
    rw [hnil, List.dropWhile_nil] at hu
    rw [← hu, if_neg (by exact nofun)] at hrest'
    rw [← hrest', readValue_nil] at hvalue
    cases hvalue
  have htake : (t.take 9).length = 9 := by rw [List.length_take, Nat.min_eq_left hlen]
  rw [List.take_left' htake] at hopt
  have ht : s = s.takeWhile isSpace ++ (k.text ++ ((t.drop 9).takeWhile isSpace ++ u)) := by
    rw [hbefore, ← hopt, List.take_append_drop, hgap]
  by_cases heq : u.head? = some equals
  · rw [if_pos heq] at hrest'
    have hstops : Stops isSpace rest' := hrest' ▸ stops_dropWhile isSpace _
    obtain ⟨value, rfl⟩ := readValue_append hstops hvalue
    have hutail : u = equals :: (u.tail.takeWhile isSpace ++ (value ++ rest)) := by
      rw [← hrest', List.takeWhile_append_dropWhile]
      exact (List.cons_head?_tail heq).symm
    refine ⟨⟨s.takeWhile isSpace, k, (t.drop 9).takeWhile isSpace, true,
      u.tail.takeWhile isSpace, value⟩,
      ?_, ⟨takeWhile_all s, takeWhile_all _, takeWhile_all _, hstops, nofun,
        readValue_iff.1 ⟨c', hvalue⟩⟩,
      rfl, rfl⟩
    simp only [Entry.text, if_true, List.append_assoc, List.cons_append]
    rw [← hutail]
    exact ht
  · rw [if_neg heq] at hrest'
    subst hrest'
    obtain ⟨value, rfl⟩ := readValue_append hustops hvalue
    refine ⟨⟨s.takeWhile isSpace, k, (t.drop 9).takeWhile isSpace, false, [], value⟩, ?_,
      ⟨takeWhile_all s, takeWhile_all _, nofun, hustops, fun _ => ⟨rfl, heq⟩,
        readValue_iff.1 ⟨c', hvalue⟩⟩, rfl, rfl⟩
    simp only [Entry.text, Bool.false_eq_true, if_false, List.append_assoc, List.nil_append]
    exact ht

/-- An iteration of the loop reads an entry whose keyword has not been met. -/
theorem getOption_entry (he : e.Reads rest) (hr : r.stream = e.text ++ rest) (hkey : e.key ∉ r.read)
    (hvalue : readValue r.config (e.value ++ rest) e.key = some (c', rest)) :
    getOption r = some ⟨rest, e.key.text ++ r.currentOpt.drop 9, e.key :: r.read, c'⟩ := by
  have hopt : (e.key.text ++ r.currentOpt.drop 9).take 9 = e.key.text :=
    List.take_left' (length_text e.key)
  have hfind : (Keyword.all.find? fun k =>
      (e.key.text ++ r.currentOpt.drop 9).take 9 = k.text ∧ k ∉ r.read) = some e.key := by
    have hpred : (fun k : Keyword => decide ((e.key.text ++ r.currentOpt.drop 9).take 9 = k.text ∧
        k ∉ r.read)) = fun k => decide (k = e.key) := by
      funext k
      refine decide_eq_decide.2 ⟨fun hk => ?_, fun hk => ?_⟩
      · rw [hopt] at hk
        exact (text_injective hk.1).symm
      · subst hk
        exact ⟨hopt, hkey⟩
    rw [hpred]
    cases e.key <;> rfl
  rw [getOption, hr, fscanfOpt_text he]
  dsimp only [Option.bind_some]
  rw [hfind]
  dsimp only [Option.bind_some]
  rw [hvalue]
  rfl

theorem getOption_eq_some (h : getOption r = some r') :
    ∃ e : Entry, r.stream = e.text ++ r'.stream ∧
    e.Reads r'.stream ∧ e.key ∉ r.read ∧ r'.read = e.key :: r.read := by
  rw [getOption, Option.bind_eq_some_iff] at h
  obtain ⟨⟨opt, s⟩, hscan, h⟩ := h
  rw [Option.bind_eq_some_iff] at h
  obtain ⟨k, hfind, h⟩ := h
  rw [Option.map_eq_some_iff] at h
  obtain ⟨⟨c', rest⟩, hvalue, h⟩ := h
  have hk : opt.take 9 = k.text ∧ k ∉ r.read := by
    have hfound := List.find?_some hfind
    exact of_decide_eq_true hfound
  obtain ⟨e, hs, he, rfl, -⟩ := exists_entry hscan hk.1 hvalue
  subst h
  exact ⟨e, hs, he, hk.2, rfl⟩

theorem Keyword.Takes.unique (h : k.Takes value rest) (h' : k.Takes value' rest')
    (heq : value ++ rest = value' ++ rest') : value = value' ∧ rest = rest' := by
  have hrest : rest = rest' := by
    cases k with
    | maxFiles | maxSpace | noWorker =>
      have hlex := h.2
      rw [heq, h'.2] at hlex
      exact hlex.symm
    | sockPath | pathDlog =>
      have hline : some (value, rest) = some (value', rest') :=
        h.symm.trans ((congrArg _ heq).trans h')
      cases hline
      rfl
    | cachePol =>
      have hline : some (value, rest) = some (value', rest') :=
        h.1.symm.trans ((congrArg _ heq).trans h'.1)
      cases hline
      rfl
  subst hrest
  exact ⟨List.append_cancel_right heq, rfl⟩

/-- A text is read in one way. -/
theorem Entry.Reads.unique (he : e.Reads rest) (he' : e'.Reads rest')
    (h : e.text ++ rest = e'.text ++ rest') : e = e' ∧ rest = rest' := by
  have hparts : ∀ {e : Entry} {rest : List UInt8},
      e.text ++ rest = e.gap ++ (e.key.text ++ (e.before ++
      ((if e.eq then equals :: e.after else []) ++ (e.value ++ rest)))) := by
    intro e rest
    simp only [Entry.text, List.append_assoc]
  rw [hparts, hparts] at h
  have hgap := congrArg (List.takeWhile isSpace) h
  rw [(span_append he.gap (stops_text _ _)).1, (span_append he'.gap (stops_text _ _)).1] at hgap
  rw [hgap] at h
  obtain ⟨hkey, h⟩ := List.append_inj (List.append_cancel_left h)
    ((length_text e.key).trans (length_text e'.key).symm)
  have hbefore := congrArg (List.takeWhile isSpace) h
  rw [(span_append he.before (stops_before he)).1, (span_append he'.before (stops_before he')).1]
    at hbefore
  rw [hbefore] at h
  have hrest := List.append_cancel_left h
  obtain ⟨heq, hafter, hvalue⟩ : e.eq = e'.eq ∧ e.after = e'.after ∧
      e.value ++ rest = e'.value ++ rest' := by
    cases heq : e.eq <;> cases heq' : e'.eq
    · rw [heq, heq'] at hrest
      exact ⟨rfl, (he.eq heq).1.trans (he'.eq heq').1.symm, hrest⟩
    · rw [heq, heq'] at hrest
      exact absurd (congrArg List.head? hrest) (he.eq heq).2
    · rw [heq, heq'] at hrest
      exact absurd (congrArg List.head? hrest).symm (he'.eq heq').2
    · rw [heq, heq'] at hrest
      have htail : e.after ++ (e.value ++ rest) = e'.after ++ (e'.value ++ rest') :=
        List.tail_eq_of_cons_eq hrest
      have hafter := congrArg (List.takeWhile isSpace) htail
      rw [(span_append he.after he.bare).1, (span_append he'.after he'.bare).1] at hafter
      rw [hafter] at htail
      exact ⟨rfl, hafter, List.append_cancel_left htail⟩
  have hkey := text_injective hkey
  obtain ⟨hval, hrest⟩ := he.takes.unique (hkey ▸ he'.takes) hvalue
  refine ⟨?_, hrest⟩
  cases e
  cases e'
  simp only at hgap hkey hbefore heq hafter hval
  rw [hgap, hkey, hbefore, heq, hafter, hval]

end Entry

/-! ## Texts -/

/-- A text as a list of entries, each of them related to the rest behind it, with a tail. -/
inductive Splits (p : Entry → List UInt8 → Prop) : List UInt8 → List Entry → List UInt8 → Prop
  | nil (s) : Splits p s [] s
  | cons {e rest es tail} (he : p e rest) (hes : Splits p rest es tail) :
    Splits p (e.text ++ rest) (e :: es) tail

/-- A text as the code reads it : six entries with different keywords, and a tail. -/
def Accepts (text : List UInt8) (es : List Entry) (tail : List UInt8) : Prop :=
  Splits Entry.Reads text es tail ∧ (es.map Entry.key).Perm Keyword.all

/-- White space, or the end of the text. -/
def Ends (s : List UInt8) : Prop :=
  ∀ b ∈ s.head?, isSpace b = true

/-- A word at the start of a text, up to white space or to the end. -/
def Word (w s : List UInt8) : Prop :=
  ∃ rest, s = w ++ rest ∧ Ends rest

/-- A well-formed value at the start of a text : an unsigned decimal, `LRU` or `FIFO`. -/
def Keyword.Valid (s : List UInt8) : Keyword → Prop
  | .maxFiles | .noWorker => ∃ w, Numeral w ∧ Word w s
  | .maxSpace => ∃ w, Numeral w ∧ ofDigits w * 1000000 < 2 ^ 64 ∧ Word w s
  | .sockPath | .pathDlog => True
  | .cachePol => Word lruCode s ∨ Word fifoCode s

/-- An entry `keyword = value` with a well-formed value. -/
structure Entry.Right (e : Entry) (rest : List UInt8) : Prop where
  reads : e.Reads rest
  eq : e.eq = true
  valid : e.key.Valid (e.value ++ rest)

/-- Each of the six keywords occurs in the text once and only once, as an entry with a well-formed
value. -/
def WellFormedText (text : List UInt8) : Prop :=
  ∃ es tail, Splits Entry.Right text es tail ∧ (es.map Entry.key).Perm Keyword.all ∧
    ∀ k : Keyword, ¬k.text <:+: tail

/-- What the code overlooks in a value : the sign of a number, that it has no digits or is too
large, and what is glued to the end of a number or of a policy. -/
def Keyword.Overlooks (s : List UInt8) : Keyword → Prop
  | .maxFiles | .noWorker => (lex s).sign ≠ none ∨ (lex s).digits = [] ∨ ¬Ends (lex s).rest
  | .maxSpace => (lex s).sign ≠ none ∨ (lex s).digits = [] ∨
    2 ^ 64 ≤ ofDigits (lex s).digits * 1000000 ∨ ¬Ends (lex s).rest
  | .sockPath | .pathDlog => False
  | .cachePol => if s.take 3 = lruCode then ¬Ends (s.drop 3) else ¬Ends (s.drop 4)

/-- An entry with its equals sign, in which the code overlooks nothing. -/
structure Entry.Plain (e : Entry) (rest : List UInt8) : Prop where
  reads : e.Reads rest
  eq : e.eq = true
  value : ¬e.key.Overlooks (e.value ++ rest)

/-- If the text is six entries as the code reads them, the code overlooks nothing in them, and there
is no keyword behind them. -/
def InOrder (text : List UInt8) : Prop :=
  ∀ es tail, Accepts text es tail → Splits Entry.Plain text es tail ∧ ∀ k : Keyword,
  ¬k.text <:+: tail

section Text

variable {es es' : List Entry} {text s tail tail' : List UInt8} {r r' : Reader} {n : ℕ}
  {config : Config}
  {currentOpt : List UInt8} {p q : Entry → List UInt8 → Prop}

theorem stops_of_ends (h : Ends s) : Stops isDigit s := by
  intro b hb
  cases hdigit : isDigit b with
  | false => rfl
  | true =>
    have hspace := h b hb
    rw [isSpace_of_isDigit hdigit] at hspace
    cases hspace

/-- A text starts with an unsigned decimal if there is nothing to overlook in its number. -/
theorem exists_numeral_iff {q : List UInt8 → Prop} (hs : Stops isSpace s) :
    (∃ w, Numeral w ∧ q w ∧ Word w s) ↔
      (lex s).sign = none ∧ (lex s).digits ≠ [] ∧ q (lex s).digits ∧ Ends (lex s).rest := by
  constructor
  · rintro ⟨w, hw, hq, rest, rfl, hrest⟩
    rw [lex_append_rest hw (stops_of_ends hrest)]
    exact ⟨rfl, hw.ne_nil, hq, hrest⟩
  · rintro ⟨hsign, hdigits, hq, hrest⟩
    have happ := lex_append s
    rw [lex_space hs, hsign] at happ
    exact ⟨(lex s).digits, ⟨hdigits, takeWhile_all _⟩, hq, (lex s).rest, happ.symm, hrest⟩

theorem word_iff {w : List UInt8} : Word w s ↔ s.take w.length = w ∧ Ends (s.drop w.length) := by
  constructor
  · rintro ⟨rest, rfl, hrest⟩
    rw [List.take_left, List.drop_left]
    exact ⟨rfl, hrest⟩
  · rintro ⟨htake, hdrop⟩
    refine ⟨s.drop w.length, ?_, hdrop⟩
    calc s = s.take w.length ++ s.drop w.length := (List.take_append_drop _ s).symm
      _ = w ++ s.drop w.length := by rw [htake]

/-- The start of a value is the start of the text. -/
theorem take_append_of_take_eq {w value rest : List UInt8} (h : value.take w.length = w) :
    (value ++ rest).take w.length = w := by
  have hlen : w.length ≤ value.length := by
    have := congrArg List.length h
    rw [List.length_take] at this
    omega
  rw [List.take_append_of_le_length hlen, h]

/-- A value that is read is well formed if there is nothing to overlook in it. -/
theorem valid_iff {k : Keyword} {value rest : List UInt8} (hbare : Stops isSpace (value ++ rest))
    (h : k.Takes value rest) : k.Valid (value ++ rest) ↔ ¬k.Overlooks (value ++ rest) := by
  cases k with
  | maxFiles | noWorker =>
    have hiff := exists_numeral_iff (q := fun _ => True) hbare
    simp only [Keyword.Valid, Keyword.Overlooks, not_or, not_not, ← ne_eq]
    simpa only [true_and] using hiff
  | maxSpace =>
    simp only [Keyword.Valid, Keyword.Overlooks, not_or, not_not, not_le, ← ne_eq]
    exact exists_numeral_iff hbare
  | sockPath | pathDlog => simp only [Keyword.Valid, Keyword.Overlooks, not_false_eq_true]
  | cachePol =>
    simp only [Keyword.Valid, Keyword.Overlooks, word_iff]
    by_cases hlru : (value ++ rest).take 3 = lruCode
    · have hfifo : (value ++ rest).take 4 ≠ fifoCode := fun hfifo => by
        have htake : (value ++ rest).take 3 = fifoCode.take 3 := by
          rw [← hfifo, List.take_take]; rfl
        exact absurd (hlru.symm.trans htake) (by decide)
      rw [if_pos hlru, not_not]
      exact ⟨fun h => h.elim And.right fun h => absurd h.1 hfifo, fun h => .inl ⟨hlru, h⟩⟩
    · have hfifo : (value ++ rest).take 4 = fifoCode := h.2.elim
        (fun h => absurd (take_append_of_take_eq (w := lruCode) h) hlru)
        fun h => take_append_of_take_eq (w := fifoCode) h
      rw [if_neg hlru, not_not]
      exact ⟨fun h => h.elim (fun h => absurd h.1 hlru) And.right, fun h => .inr ⟨hfifo, h⟩⟩

theorem Entry.Right.plain {e : Entry} {rest : List UInt8} (h : e.Right rest) : e.Plain rest :=
  ⟨h.reads, h.eq, (valid_iff h.reads.bare h.reads.takes).1 h.valid⟩

theorem Entry.Plain.right {e : Entry} {rest : List UInt8} (h : e.Plain rest) : e.Right rest :=
  ⟨h.reads, h.eq, (valid_iff h.reads.bare h.reads.takes).2 h.value⟩

theorem Splits.mono (hpq : ∀ e rest, p e rest → q e rest) (h : Splits p s es tail) :
    Splits q s es tail := by
  induction h with
  | nil s => exact .nil s
  | cons he _ ih => exact .cons (hpq _ _ he) ih

/-- A text is read as many entries in one way. -/
theorem Splits.unique (h : Splits Entry.Reads s es tail) (h' : Splits Entry.Reads s es' tail')
    (hlen : es.length = es'.length) : es = es' ∧ tail = tail' := by
  induction h generalizing es' with
  | nil s =>
    obtain rfl := List.length_eq_zero_iff.1 hlen.symm
    cases h'
    exact ⟨rfl, rfl⟩
  | @cons e rest es tail he hes ih =>
    generalize htext : e.text ++ rest = text at h'
    cases h' with
    | nil => cases hlen
    | @cons e' rest' es' tail' he' hes' =>
      obtain ⟨rfl, rfl⟩ := he.unique he' htext
      obtain ⟨rfl, rfl⟩ := ih hes' (Nat.succ.inj hlen)
      exact ⟨rfl, rfl⟩

/-- The loop reads entries. -/
theorem getOptions_eq_some (h : getOptions n r = some r') : ∃ es : List Entry, es.length = n ∧
    Splits Entry.Reads r.stream es r'.stream ∧ r'.read = (es.map Entry.key).reverse ++ r.read ∧
    (r.read.Nodup → r'.read.Nodup) := by
  induction n generalizing r with
  | zero =>
    cases h
    exact ⟨[], rfl, .nil _, rfl, id⟩
  | succ n ih =>
    rw [getOptions, Option.bind_eq_some_iff] at h
    obtain ⟨r₁, hr₁, h⟩ := h
    obtain ⟨e, hs, he, hkey, hread⟩ := getOption_eq_some hr₁
    obtain ⟨es, hlen, hes, hreads, hnodup⟩ := ih h
    refine ⟨e :: es, congrArg (· + 1) hlen, hs ▸ .cons he hes, ?_, fun hr => hnodup ?_⟩
    · rw [hreads, hread, List.map_cons, List.reverse_cons, List.append_assoc]
      rfl
    · rw [hread]
      exact List.nodup_cons.2 ⟨hkey, hr⟩

/-- Entries are read by the loop. -/
theorem exists_getOptions (h : Splits Entry.Reads s es tail) (hr : r.stream = s)
    (hnodup : (es.map Entry.key).Nodup) (hnew : ∀ e ∈ es, e.key ∉ r.read) :
    ∃ r', getOptions es.length r = some r' ∧ r'.read = (es.map Entry.key).reverse ++ r.read := by
  induction h generalizing r with
  | nil s => exact ⟨r, rfl, rfl⟩
  | @cons e rest es tail he hes ih =>
    rw [List.map_cons, List.nodup_cons] at hnodup
    obtain ⟨c', hvalue⟩ := (readValue_iff (c := r.config)).2 he.takes
    have hstep := getOption_entry he hr (hnew e List.mem_cons_self) hvalue
    obtain ⟨r', hr', hread⟩ :=
      @ih ⟨rest, e.key.text ++ r.currentOpt.drop 9, e.key :: r.read, c'⟩ rfl
      hnodup.2 fun e' he' hmem => by
        rcases List.mem_cons.1 hmem with heq | hmem
        · exact hnodup.1 (heq ▸ List.mem_map_of_mem he')
        · exact hnew e' (List.mem_cons_of_mem _ he') hmem
    refine ⟨r', ?_, ?_⟩
    · rw [List.length_cons, getOptions, hstep]
      exact hr'
    · rw [hread, List.map_cons, List.reverse_cons, List.append_assoc]
      rfl

/-- The code accepts the texts that it reads as six entries with different keywords. -/
theorem getServerConfig_ne_none :
    getServerConfig config currentOpt text ≠ none ↔ ∃ es tail, Accepts text es tail := by
  rw [Option.ne_none_iff_exists']
  constructor
  · rintro ⟨c, h⟩
    rw [getServerConfig, Option.bind_eq_some_iff] at h
    obtain ⟨r, hr, h⟩ := h
    rw [Option.ite_none_right_eq_some] at h
    obtain ⟨es, hlen, hes, hread, hnodup⟩ := getOptions_eq_some hr
    rw [List.append_nil] at hread
    refine ⟨es, r.stream, hes, ?_⟩
    have hsub : List.Subperm Keyword.all (es.map Entry.key).reverse :=
      List.subperm_of_subset (by decide) fun k hk => hread ▸ h.1 k hk
    refine ((hsub.perm_of_length_le ?_).trans (List.reverse_perm _)).symm
    rw [List.length_reverse, List.length_map, hlen]
    exact Nat.le_refl _
  · rintro ⟨es, tail, hes, hperm⟩
    have hlen : es.length = 6 := by
      rw [← List.length_map Entry.key, hperm.length_eq]
      rfl
    obtain ⟨r, hr, hread⟩ := @exists_getOptions es text tail ⟨text, currentOpt, [], config⟩ hes rfl
      (hperm.nodup_iff.2 (by decide)) fun _ _ => List.not_mem_nil
    refine ⟨r.config, ?_⟩
    rw [hlen] at hr
    rw [getServerConfig, hr]
    dsimp only [Option.bind_some]
    refine if_pos fun k hk => ?_
    rw [hread, List.append_nil, List.mem_reverse]
    exact hperm.symm.subset hk

/-- A text that is accepted is well formed if and only if it is in order. -/
theorem wellFormed_of_accepted_iff (config : Config) (currentOpt text : List UInt8) :
    (getServerConfig config currentOpt text ≠ none → WellFormedText text) ↔ InOrder text := by
  rw [getServerConfig_ne_none]
  constructor
  · intro h es tail haccepts
    obtain ⟨es', tail', hes', hperm', htail'⟩ := h ⟨es, tail, haccepts⟩
    have hlen : es.length = es'.length := by
      rw [← List.length_map Entry.key, haccepts.2.length_eq, ← hperm'.length_eq, List.length_map]
    obtain ⟨rfl, rfl⟩ := haccepts.1.unique (hes'.mono fun e rest he => he.reads) hlen
    exact ⟨hes'.mono fun e rest he => he.plain, htail'⟩
  · rintro h ⟨es, tail, haccepts⟩
    obtain ⟨hes, htail⟩ := h es tail haccepts
    exact ⟨es, tail, hes.mono fun e rest he => he.right, haccepts.2, htail⟩

/-- There are as many equals signs as entries. -/
theorem Splits.length_le_count (h : Splits Entry.Right s es tail) : es.length ≤ s.count equals := by
  induction h with
  | nil s => exact Nat.zero_le _
  | @cons e rest es tail he hes ih =>
    have hmem : equals ∈ e.text := by
      have hmid : (if e.eq then equals :: e.after else []) = equals :: e.after := if_pos he.eq
      rw [Entry.text, hmid]
      simp
    have hone := List.count_pos_iff.2 hmem
    rw [List.count_append, List.length_cons]
    omega

/-- `no_worker=1`, `max_files 9` without an equals sign, and the other options. -/
def textWithoutEquals : List UInt8 :=
  Keyword.noWorker.text ++ [equals, 49, newline] ++ Keyword.maxFiles.text ++ [32, 57, newline] ++
    Keyword.maxSpace.text ++ [equals, 49, newline] ++ Keyword.cachePol.text ++ equals :: fifoCode ++
    newline :: Keyword.sockPath.text ++ [equals, 115, newline] ++ Keyword.pathDlog.text ++
      [equals, 108]

/-- A text in which an equals sign is missing is accepted. -/
theorem not_wellFormed_of_accepted : ¬∀ (config : Config) (currentOpt text : List UInt8),
    getServerConfig config currentOpt text ≠ none → WellFormedText text := by
  intro h
  obtain ⟨es, tail, hes, hperm, -⟩ :=
    h ⟨0, 0, 0, [], [], .FIFO⟩ [] textWithoutEquals (by decide +kernel)
  have hlen : es.length = 6 := by
    rw [← List.length_map Entry.key, hperm.length_eq]
    rfl
  have hcount : textWithoutEquals.count equals = 5 := by decide
  have hle := hes.length_le_count
  omega

end Text

/-! ## Files as they are described -/

/-- A line `key = value`, with the blank lines and the white space in front of it. -/
structure Line where
  gap : List UInt8
  key : Keyword
  before : List UInt8
  after : List UInt8
  value : List UInt8
  deriving DecidableEq

/-- The text of a line. -/
def Line.text (l : Line) : List UInt8 :=
  l.gap ++ (l.key.text ++ (l.before ++ (equals :: l.after ++ l.value)))

/-- A file of these lines. -/
def fileText (ls : List Line) (tail : List UInt8) : List UInt8 :=
  [newline].intercalate (ls.map Line.text) ++ tail

/-- A value in range. -/
def Keyword.InRange (value : List UInt8) : Keyword → Prop
  | .maxFiles | .noWorker => Numeral value ∧ ofDigits value < 2 ^ 32
  | .maxSpace => Numeral value ∧ ofDigits value * 1000000 < 2 ^ 64
  | .sockPath | .pathDlog => value ≠ [] ∧ value.length ≤ pathMax - 1 ∧ newline ∉ value ∧
    (0 : UInt8) ∉ value ∧ Stops isSpace value
  | .cachePol => value = lruCode ∨ value = fifoCode

/-- A line as it is described. -/
structure Line.WF (l : Line) : Prop where
  gap : ∀ b ∈ l.gap, isSpace b = true
  before : ∀ b ∈ l.before, isSpace b = true
  after : ∀ b ∈ l.after, isSpace b = true
  value : l.key.InRange l.value

/-- The configuration with the value of an option. -/
def Config.store (c : Config) (value : List UInt8) : Keyword → Config
  | .maxFiles => { c with maxFiles := ofDigits value }
  | .maxSpace => { c with maxSpace := ofDigits value * 1000000 }
  | .noWorker => { c with nWorkers := ofDigits value }
  | .sockPath => { c with socketPath := value }
  | .pathDlog => { c with logDirPath := value }
  | .cachePol => { c with policy := if value = lruCode then .LRU else .FIFO }

/-- What the configuration holds of an option. -/
def Config.Holds (c : Config) (value : List UInt8) : Keyword → Prop
  | .maxFiles => c.maxFiles = ofDigits value
  | .maxSpace => c.maxSpace = ofDigits value * 1000000
  | .noWorker => c.nWorkers = ofDigits value
  | .sockPath => c.socketPath = value
  | .pathDlog => c.logDirPath = value
  | .cachePol => c.policy = if value = lruCode then .LRU else .FIFO

section Line

variable {c c' : Config} {k k' : Keyword} {l : Line} {ls : List Line}
  {value s rest tail : List UInt8}
  {r : Reader}

theorem stops_of_end {p : UInt8 → Bool} (hs : s = [] ∨ s.head? = some newline)
    (hp : p newline = false) : Stops p s := by
  intro b hb
  rcases hs with rfl | hs
  · cases hb
  · rw [hs] at hb
    cases hb
    exact hp

/-- A number is read in front of a newline. -/
theorem fscanfUnsigned_numeral (h : Numeral value) (hs : s = [] ∨ s.head? = some newline)
    (hlt : ofDigits value < 2 ^ 64) :
    fscanfUnsigned (value ++ s) = some (some (ofDigits value), s) := by
  have hlex := lex_append_rest h (stops_of_end hs rfl)
  have hval : strtoul ⟨[], none, value, s⟩ = ofDigits value := by
    rw [strtoul, if_neg (Nat.not_le.2 hlt), Lexeme.value, if_neg (by exact nofun)]
    exact toSize_of_range hlt
  rw [fscanfUnsigned, hlex]
  dsimp only
  rw [if_neg fun hblank => h.ne_nil hblank.2.1, if_neg h.ne_nil, hval]

/-- A line without a newline is read, with the newline if there is room for it. -/
theorem fgets_line {n : ℕ} (hne : value ≠ []) (hnl : newline ∉ value) (hlen : value.length ≤ n - 1)
    (hs : s = [] ∨ s.head? = some newline) : ∃ line rest, fgets n (value ++ s) = some (line, rest) ∧
      (line = value ∧ rest = s ∨ line = value ++ [newline] ∧ s = newline :: rest) := by
  have htake : (value ++ s).takeWhile (· ≠ newline) = value :=
    (span_append (fun b hb => decide_eq_true (show b ≠ newline from fun heq => hnl (heq ▸ hb)))
      (stops_of_end hs rfl)).1
  have hcons : value ++ s ≠ [] := fun hnil => hne (List.append_eq_nil_iff.1 hnil).1
  rw [fgets, if_neg hcons, htake]
  refine ⟨_, _, rfl, ?_⟩
  rcases Nat.lt_or_ge value.length (n - 1) with hlt | hge
  · rw [Nat.min_eq_right hlt]
    rcases hs with rfl | hs
    · left
      rw [List.append_nil]
      exact ⟨List.take_of_length_le (Nat.le_succ _), List.drop_eq_nil_of_le (Nat.le_succ _)⟩
    · right
      obtain ⟨rest, rfl⟩ : ∃ rest, s = newline :: rest := ⟨s.tail, (List.cons_head?_tail hs).symm⟩
      have hone : value.length + 1 - value.length = 1 := Nat.add_sub_cancel_left _ _
      rw [List.take_append, List.drop_append, List.take_of_length_le (Nat.le_succ _),
        List.drop_eq_nil_of_le (Nat.le_succ _), hone]
      exact ⟨rfl, rfl⟩
  · left
    rw [Nat.min_eq_left (by omega), show n - 1 = value.length by omega]
    exact ⟨List.take_left, List.drop_left⟩

theorem pathOf_line (hnl : newline ∉ value) (hnul : (0 : UInt8) ∉ value) :
    pathOf value = value ∧ pathOf (value ++ [newline]) = value := by
  have hnotnl : ∀ b ∈ value, decide (b ≠ newline) = true := fun b hb =>
    decide_eq_true fun heq => hnl (heq ▸ hb)
  have hnotnul : ∀ b ∈ value ++ [newline], decide (b ≠ 0) = true := by
    intro b hb
    rcases List.mem_append.1 hb with hb | hb
    · exact decide_eq_true fun heq => hnul (heq ▸ hb)
    · rw [List.mem_singleton.1 hb]
      rfl
  constructor
  · rw [pathOf, cstring, List.takeWhile_eq_self_iff.2 fun b hb =>
      hnotnul b (List.mem_append_left _ hb),
      List.takeWhile_eq_self_iff.2 hnotnl]
  · rw [pathOf, cstring, List.takeWhile_eq_self_iff.2 hnotnul]
    exact (span_append hnotnl fun b hb => by cases hb; rfl).1

theorem holds_store (c : Config) (value : List UInt8) (k : Keyword) :
    (c.store value k).Holds value k := by
  cases k <;> rfl

theorem holds_store_of_ne {v : List UInt8} (hk : k' ≠ k) (h : c.Holds v k') :
    (c.store value k).Holds v k' := by
  cases k <;> cases k' <;> first | exact h | exact absurd rfl hk

/-- The value of a line is read, and its option set. -/
theorem readValue_line (c : Config) (hv : k.InRange value) (hs : s = [] ∨ s.head? = some newline) :
    ∃ rest, readValue c (value ++ s) k = some (c.store value k, rest) ∧
      (rest = s ∨ s = newline :: rest) := by
  cases k with
  | maxFiles | noWorker =>
    refine ⟨s, ?_, .inl rfl⟩
    rw [readValue, fscanfUnsigned_numeral hv.1 hs (hv.2.trans (by decide))]
    dsimp only [Option.map_some, Option.getD_some]
    rw [toUInt_of_range hv.2]
    rfl
  | maxSpace =>
    refine ⟨s, ?_, .inl rfl⟩
    rw [readValue, fscanfUnsigned_numeral hv.1 hs (by have := hv.2; omega)]
    dsimp only [Option.map_some, Option.getD_some]
    rw [toSize_of_range hv.2]
    rfl
  | sockPath | pathDlog =>
    obtain ⟨hne, hlen, hnl, hnul, -⟩ := hv
    obtain ⟨line, rest, hline, hcases⟩ := fgets_line hne hnl hlen hs
    obtain ⟨hpath, hpath'⟩ := pathOf_line hnl hnul
    refine ⟨rest, ?_, ?_⟩
    · rw [readValue, hline]
      rcases hcases with ⟨rfl, -⟩ | ⟨rfl, -⟩
      · dsimp only [Option.map_some]
        rw [hpath]
        rfl
      · dsimp only [Option.map_some]
        rw [hpath']
        rfl
    · exact hcases.imp And.right And.right
  | cachePol =>
    have hne : value ≠ [] ∧ newline ∉ value ∧ value.length ≤ 5 - 1 := by
      rcases hv with rfl | rfl <;> decide
    obtain ⟨line, rest, hline, hcases⟩ := fgets_line hne.1 hne.2.1 hne.2.2 hs
    refine ⟨rest, ?_, hcases.imp And.right And.right⟩
    rw [readValue, hline]
    rcases hv with rfl | rfl <;> rcases hcases with ⟨rfl, -⟩ | ⟨rfl, -⟩ <;> rfl

/-- A value in range does not start with white space. -/
theorem Keyword.InRange.bare (hv : k.InRange value) (s : List UInt8) :
    Stops isSpace (value ++ s) := by
  have hcons : ∃ b v, value = b :: v ∧ isSpace b = false := by
    cases k with
    | maxFiles | maxSpace | noWorker =>
      obtain ⟨b, v, rfl⟩ := List.exists_cons_of_ne_nil hv.1.ne_nil
      exact ⟨b, v, rfl, isSpace_of_isDigit (hv.1.digits b List.mem_cons_self)⟩
    | sockPath | pathDlog =>
      obtain ⟨b, v, rfl⟩ := List.exists_cons_of_ne_nil hv.1
      exact ⟨b, v, rfl, hv.2.2.2.2 b rfl⟩
    | cachePol =>
      rcases hv with rfl | rfl
      · exact ⟨_, _, rfl, rfl⟩
      · exact ⟨_, _, rfl, rfl⟩
  obtain ⟨b, v, rfl, hb⟩ := hcons
  intro b' hb'
  cases hb'
  exact hb

/-- A line is read, behind white space that the line before has left. -/
theorem getOption_line {pre : List UInt8} (hl : l.WF) (hs : s = [] ∨ s.head? = some newline)
    (hpre : ∀ b ∈ pre, isSpace b = true) (hr : r.stream = pre ++ (l.text ++ s))
    (hkey : l.key ∉ r.read) :
    ∃ rest, getOption r = some ⟨rest, l.key.text ++ r.currentOpt.drop 9, l.key :: r.read,
      r.config.store l.value l.key⟩ ∧ (rest = s ∨ s = newline :: rest) := by
  obtain ⟨rest, hvalue, hrest⟩ := readValue_line r.config hl.value hs
  obtain ⟨value, happ⟩ := readValue_append (hl.value.bare s) hvalue
  rw [happ] at hvalue
  let e : Entry := ⟨pre ++ l.gap, l.key, l.before, true, l.after, value⟩
  have hreads : e.Reads rest :=
    ⟨fun b hb => (List.mem_append.1 hb).elim (hpre b) (hl.gap b), hl.before, hl.after,
      happ ▸ hl.value.bare s, nofun, readValue_iff.1 ⟨_, hvalue⟩⟩
  have htext : r.stream = e.text ++ rest := by
    simp only [hr, Line.text, Entry.text, e, if_true, List.append_assoc, List.cons_append, happ]
  exact ⟨rest, getOption_entry hreads htext hkey hvalue, hrest⟩

theorem fileText_singleton (l : Line) (tail : List UInt8) : fileText [l] tail = l.text ++ tail := by
  simp [fileText, List.intercalate]

theorem fileText_cons (l l' : Line) (ls : List Line) (tail : List UInt8) :
    fileText (l :: l' :: ls) tail = l.text ++ newline :: fileText (l' :: ls) tail := by
  simp [fileText, List.intercalate]

/-- The lines are read one after the other, and keep what has been read before. -/
theorem exists_getOptions_lines {pre : List UInt8} (htail : tail = [] ∨ tail.head? = some newline)
    (hwf : ∀ l ∈ ls, l.WF) (hnodup : (ls.map Line.key).Nodup) (hpre : ∀ b ∈ pre, isSpace b = true)
    (hr : r.stream = pre ++ fileText ls tail) (hnew : ∀ l ∈ ls, l.key ∉ r.read) :
    ∃ r', getOptions ls.length r = some r' ∧ r'.read = (ls.map Line.key).reverse ++ r.read ∧
      (∀ l ∈ ls, r'.config.Holds l.value l.key) ∧
      ∀ k v, k ∉ ls.map Line.key → r.config.Holds v k → r'.config.Holds v k := by
  induction ls generalizing r pre with
  | nil => exact ⟨r, rfl, rfl, (fun l hl => by cases hl), fun _ _ _ h => h⟩
  | cons l ls ih =>
    rw [List.map_cons, List.nodup_cons] at hnodup
    -- behind the last line the text ends, behind the others there is a newline
    obtain ⟨s, hr, hs, hnext⟩ : ∃ s, r.stream = pre ++ (l.text ++ s) ∧
        (s = [] ∨ s.head? = some newline) ∧
        ∀ rest, rest = s ∨ s = newline :: rest → ls = [] ∨ ∃ pre' : List UInt8,
          (∀ b ∈ pre', isSpace b = true) ∧ rest = pre' ++ fileText ls tail := by
      cases ls with
      | nil => exact ⟨tail, by rw [hr, fileText_singleton], htail, fun _ _ => .inl rfl⟩
      | cons l' ls =>
        refine ⟨newline :: fileText (l' :: ls) tail, by rw [hr, fileText_cons], .inr rfl, ?_⟩
        rintro rest (rfl | hrest)
        · exact .inr ⟨[newline], fun b hb => List.mem_singleton.1 hb ▸ rfl, rfl⟩
        · exact .inr ⟨[], (fun b hb => by cases hb), (List.cons.inj hrest).2.symm⟩
    obtain ⟨rest, hstep, hrest⟩ :=
      getOption_line (hwf l List.mem_cons_self) hs hpre hr (hnew l List.mem_cons_self)
    have hl := holds_store r.config l.value l.key
    have hkeep : ∀ k v, k ∉ (l :: ls).map Line.key → r.config.Holds v k →
        k ∉ ls.map Line.key ∧ (r.config.store l.value l.key).Holds v k := by
      intro k v hk hv
      rw [List.map_cons, List.mem_cons, not_or] at hk
      exact ⟨hk.2, holds_store_of_ne hk.1 hv⟩
    rcases hnext rest hrest with rfl | ⟨pre', hpre', hstream⟩
    · refine ⟨_, by rw [List.length_singleton, getOptions, hstep]; rfl, rfl, fun l' hl' => ?_,
        fun k v hk hv => (hkeep k v hk hv).2⟩
      obtain rfl := List.mem_singleton.1 hl'
      exact hl
    · obtain ⟨r', hr', hread, hvalues, hothers⟩ := @ih ⟨rest, l.key.text ++ r.currentOpt.drop 9,
        l.key :: r.read, r.config.store l.value l.key⟩ pre'
        (fun l' hl' => hwf l' (List.mem_cons_of_mem _ hl')) hnodup.2 hpre' hstream
          fun l' hl' hmem => by
          rcases List.mem_cons.1 hmem with heq | hmem
          · exact hnodup.1 (heq ▸ List.mem_map_of_mem hl')
          · exact hnew l' (List.mem_cons_of_mem _ hl') hmem
      refine ⟨r', ?_, ?_, ?_, fun k v hk hv => ?_⟩
      · rw [List.length_cons, getOptions, hstep]
        exact hr'
      · rw [hread, List.map_cons, List.reverse_cons, List.append_assoc]
        rfl
      · intro l' hl'
        rcases List.mem_cons.1 hl' with rfl | hl'
        · exact hothers _ _ hnodup.1 hl
        · exact hvalues l' hl'
      · obtain ⟨hk, hv⟩ := hkeep k v hk hv
        exact hothers k v hk hv

/-- A file as it is described is accepted, and the configuration holds its values. -/
theorem getServerConfig_lines (config : Config) (currentOpt : List UInt8) (hwf : ∀ l ∈ ls, l.WF)
    (hkeys : (ls.map Line.key).Perm Keyword.all) (htail : tail = [] ∨ tail.head? = some newline) :
    ∃ c, getServerConfig config currentOpt (fileText ls tail) = some c ∧
      ∀ l ∈ ls, c.Holds l.value l.key := by
  have hlen : ls.length = 6 := by
    rw [← List.length_map Line.key, hkeys.length_eq]
    rfl
  obtain ⟨r, hr, hread, hholds, -⟩ := @exists_getOptions_lines ls tail
    ⟨fileText ls tail, currentOpt, [], config⟩ [] htail hwf (hkeys.nodup_iff.2 (by decide))
    (fun b hb => by cases hb) rfl fun _ _ => List.not_mem_nil
  refine ⟨r.config, ?_, hholds⟩
  rw [hlen] at hr
  rw [getServerConfig, hr]
  dsimp only [Option.bind_some]
  refine if_pos fun k hk => ?_
  rw [hread, List.append_nil, List.mem_reverse]
  exact hkeys.symm.subset hk

/-- The lines of `config.txt`. -/
def configLines : List Line :=
  [⟨[], .noWorker, [32], [32], [49]⟩, ⟨[], .maxSpace, [], [32], [49, 50, 56]⟩,
    ⟨[newline], .maxFiles, [32], [32, 32, 32], [49, 48, 48, 48, 48]⟩,
    ⟨[newline], .cachePol, [], [], lruCode⟩,
    ⟨[], .sockPath, [32, 32, 32, 32, 32], [32, 32, 32, 32, 32],
      [47, 116, 109, 112, 47, 76, 83, 79, 95, 115, 111, 99, 107, 101, 116, 46, 115, 107]⟩,
    ⟨[newline, newline, newline], .pathDlog, [32], [32], [108, 111, 103, 115, 47]⟩]

theorem wf_configLines : ∀ l ∈ configLines, l.WF := by
  have hspace : ∀ {s : List UInt8}, s.all isSpace = true → ∀ b ∈ s, isSpace b = true :=
    List.all_eq_true.1
  have hdigit : ∀ {s : List UInt8}, s.all isDigit = true → ∀ b ∈ s, isDigit b = true :=
    List.all_eq_true.1
  have hpath : ∀ {b : UInt8} {s : List UInt8}, isSpace b = false → Stops isSpace (b :: s) :=
    fun hb c hc => by cases hc; exact hb
  simp only [configLines, List.forall_mem_cons]
  refine ⟨⟨hspace rfl, hspace rfl, hspace rfl, ⟨by decide, hdigit rfl⟩, by decide⟩,
    ⟨hspace rfl, hspace rfl, hspace rfl, ⟨by decide, hdigit rfl⟩, by decide⟩,
    ⟨hspace rfl, hspace rfl, hspace rfl, ⟨by decide, hdigit rfl⟩, by decide⟩,
    ⟨hspace rfl, hspace rfl, hspace rfl, .inl rfl⟩,
    ⟨hspace rfl, hspace rfl, hspace rfl, by decide, by decide, by decide, by decide, hpath rfl⟩,
    ⟨hspace rfl, hspace rfl, hspace rfl, by decide, by decide, by decide, by decide, hpath rfl⟩, ?_⟩
  exact fun l hl => by cases hl

theorem getServerConfig_configLines : ∃ c,
    getServerConfig ⟨0, 0, 0, [], [], .FIFO⟩ [] (fileText configLines []) = some c ∧
      ∀ l ∈ configLines, c.Holds l.value l.key :=
  getServerConfig_lines _ _ wf_configLines (by decide) (.inl rfl)

end Line

end StorageServer
