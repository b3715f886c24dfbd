import StorageServer.Lib.Decimal
import StorageServer.Execution

/-!
# The options of the client

`parse_options` reads its numbers in three ways : `-t` by `str_to_long` with each failure checked,
`-a` by `str_to_long` with one of three failures checked, `-R` and `-w` by `sscanf`, of which only
the end of the text is a failure. So the numbers are checked and stored as they are given if and
only if each of them is a numeral within the range, or one of the texts that its option refuses
(`numbers_iff`).

`realpath` is that of an arbitrary file system.
-/

open Programs Decimal

namespace StorageServer.App

/-! ## Numbers -/

/-- `LONG_MAX`. -/
def longMax : ℤ :=
  2 ^ 63 - 1

/-- `LONG_MIN`. -/
def longMin : ℤ :=
  -2 ^ 63

/-- The `long` next to a number. -/
def clampLong (x : ℤ) : ℤ :=
  max longMin (min longMax x)

/-- `strtol` in base ten : the value, whether `errno` is `ERANGE`, and what `*e` points to. -/
def strtol (s : CString) : ℤ × Bool × CString :=
  let x := lex s
  if x.digits = [] then (0, false, s)
  else (clampLong x.value, x.value < longMin ∨ longMax < x.value, x.rest)

/-- `str_to_long` : the value returned, and what is stored. -/
def strToLong (str : CString) : ℤ × Option ℤ :=
  if str.length = 0 then (-1, none)
  else
    let (val, range, e) := strtol str
    if range then (-2, none)
    else if e = [] then (0, some val)
    -- not a number
    else (-3, none)

/-- `sscanf` with `%ld`, which leaves `n` as it is if there is no number : `none` is `EOF`. -/
def sscanfLong (s : CString) (n : ℤ) : Option ℤ :=
  let x := lex s
  if x.Blank then none
  else if x.digits = [] then some n
  else some (clampLong x.value)

/-! ## Words -/

/-- The code of the comma. -/
def comma : UInt8 :=
  44

/-- What the calls of `strtok_r` with `","` give one after the other. -/
def tokens (s : CString) : List CString :=
  (s.splitOn comma).filter (· ≠ [])

/-- What `getopt` finds, with its `optarg`. -/
inductive Opt
  | h
  | f (optarg : CString)
  | t (optarg : CString)
  | p
  | a (optarg : CString)
  | w (optarg : CString)
  | W (optarg : CString)
  | D (optarg : CString)
  | r (optarg : CString)
  | R (optarg : Option CString)
  | d (optarg : CString)
  | l (optarg : CString)
  | u (optarg : CString)
  | c (optarg : CString)
  /-- `':'`. -/
  | missing (optopt : UInt8)
  /-- `'?'`. -/
  | unknown (optopt : UInt8)
  deriving DecidableEq, Repr

/-- What an option takes. -/
inductive Takes
  | nothing (opt : Opt)
  | required (opt : CString → Opt)
  | optional (opt : Option CString → Opt)

/-- The string `":hf:t:pa:w:W:D:r:R::d:l:u:c:"`. -/
def optstring (opt : UInt8) : Option Takes :=
  match Char.ofNat opt.toNat with
  | 'h' => some (.nothing .h)
  | 'f' => some (.required .f)
  | 't' => some (.required .t)
  | 'p' => some (.nothing .p)
  | 'a' => some (.required .a)
  | 'w' => some (.required .w)
  | 'W' => some (.required .W)
  | 'D' => some (.required .D)
  | 'r' => some (.required .r)
  | 'R' => some (.optional .R)
  | 'd' => some (.required .d)
  | 'l' => some (.required .l)
  | 'u' => some (.required .u)
  | 'c' => some (.required .c)
  | _ => none

/-- The options in one word, behind its `-`, and the one that takes the next word as its
argument. -/
def cluster : CString → List Opt × Option (UInt8 × (CString → Opt))
  | [] => ([], none)
  | b :: rest =>
    match optstring b with
    | none =>
      let (opts, next) := cluster rest
      (.unknown b :: opts, next)
    | some (.nothing opt) =>
      let (opts, next) := cluster rest
      (opt :: opts, next)
    | some (.required opt) => if rest = [] then ([], some (b, opt)) else ([opt rest], none)
    | some (.optional opt) => ([opt (if rest = [] then none else some rest)], none)

/-- What the calls of `getopt` find one after the other, in the words behind the name of the
program. Words that are no options are left for the end. -/
def getopt : List CString → List Opt
  | [] => []
  | word :: words =>
    match word with
    | [] => getopt words
    | b :: rest =>
      -- a word that does not start with `-`, and `-` itself
      if b ≠ 45 ∨ rest = [] then getopt words
      -- `--`
      else if rest = [45] then []
      else
        match cluster rest with
        | (opts, none) => opts ++ getopt words
        | (opts, some (optopt, opt)) =>
          opts ++ match words with
            | [] => [.missing optopt]
            | optarg :: words => opt optarg :: getopt words

/-! ## The options -/

/-- `client_conf_t`. -/
structure ClientConf where
  socket : Option CString
  printToStdout : Bool
  waitingSec : ℤ
  printHelper : Bool
  deriving DecidableEq, Repr

/-- The variables that `parse_options` sets, and the request list. -/
structure Options where
  hOption : Bool
  fOption : Bool
  pOption : Bool
  aOption : Bool
  config : ClientConf
  requestList : List ReqNode
  deriving DecidableEq, Repr

/-- What `main` has set before the options are parsed. -/
def Options.init : Options :=
  ⟨false, false, false, false, ⟨none, false, 5, false⟩, []⟩

/-- `list_push_back` on the request list. -/
def Options.push (o : Options) (node : ReqNode) : Options :=
  { o with requestList := o.requestList ++ [node] }

/-- How the handling of an option ends. -/
inductive Parsed
  /-- `break`. -/
  | next (o : Options)
  /-- `return`. -/
  | ret (code : ℤ) (o : Options)
  /-- `exit(EXIT_FAILURE)`. -/
  | exit
  deriving DecidableEq, Repr

section Parse

variable (realpath : CString → Option CString)

/-- `comma_sep` with absolute paths. -/
def commaSep (arg : CString) : Option (List CString) :=
  (tokens arg).mapM realpath

/-- The options that take a list of files. -/
def parseFiles (node : List CString → ReqNode) (optarg : CString) (o : Options) : Parsed :=
  match commaSep realpath optarg with
  | none => .exit
  | some files => .next (o.push (node files))

/-- The number of a `-R` or `-w`, from 0 if there is none. -/
def parseLong (node : ℤ → ReqNode) (number : Option CString) (o : Options) : Parsed :=
  match number with
  | none => .next (o.push (node 0))
  | some s =>
    match sscanfLong s 0 with
    | none => .ret (-1) o
    | some n => if n < 0 then .ret (-1) o else .next (o.push (node n))

/-- The cases of `parse_options`. -/
def parseOption (opt : Opt) (o : Options) : Parsed :=
  match opt with
  | .h => .ret 0 { o with hOption := true, config := { o.config with printHelper := true } }
  | .f optarg =>
    if o.fOption then .ret (-1) o
    else .next { o with config := { o.config with socket := some optarg }, fOption := true }
  | .w optarg =>
    match tokens optarg with
    | [] => .ret (-1) o
    | directory :: more =>
      match realpath directory with
      | none => .ret (-1) o
      | some absDirectory => parseLong (.w absDirectory) more.head? o
  | .W optarg => parseFiles realpath .W optarg o
  | .t optarg =>
    match strToLong optarg with
    | (0, some time) => if time < 0 then .ret (-1) o else .next (o.push (.t time))
    | _ => .ret (-1) o
  | .p =>
    if o.pOption then .ret (-1) o
    else .next { o with config := { o.config with printToStdout := true }, pOption := true }
  | .D optarg => .next (o.push (.D optarg))
  | .r optarg => parseFiles realpath .r optarg o
  | .R optarg => parseLong .R optarg o
  | .d optarg => .next (o.push (.d optarg))
  | .l optarg => parseFiles realpath .l optarg o
  | .u optarg => parseFiles realpath .u optarg o
  | .c optarg => parseFiles realpath .c optarg o
  | .a optarg =>
    if o.aOption then .ret (-1) o
    else
      let (code, stored) := strToLong optarg
      let o := { o with config := { o.config with waitingSec := stored.getD o.config.waitingSec } }
      -- the other two failures are not checked
      if code = -1 then .ret (-1) o
      else if o.config.waitingSec < 0 then .ret (-1) o
      else .next { o with aOption := true }
  | .missing _ => .ret (-1) o
  | .unknown _ => .ret (-1) o

/-- The loop of `parse_options`. -/
def parseLoop : List Opt → Options → Parsed
  | [], o => .ret 0 o
  | opt :: opts, o =>
    match parseOption realpath opt o with
    | .next o => parseLoop opts o
    | .ret code o => .ret code o
    | .exit => .exit

/-- `parse_options`. -/
def parseOptions (argv : List CString) : Parsed :=
  parseLoop realpath (getopt argv.tail) .init

end Parse

/-! ## The numbers of the options -/

/-- The number that a node holds. -/
def ReqNode.number : ReqNode → Option ℤ
  | .t n => some n
  | .R n => some n
  | .w _ n => some n
  | _ => none

namespace Opt

/-- The argument of an option that is to be a number, if it is given. -/
def number : Opt → Option CString
  | .t optarg => some optarg
  | .a optarg => some optarg
  | .R optarg => optarg
  | .w optarg => (tokens optarg).tail.head?
  | _ => none

/-- Whether the option is one of `-a`. -/
def waits : Opt → Bool
  | .a _ => true
  | _ => false

/-- Whether the option is put into the request list. -/
def isRequest : Opt → Bool
  | .h | .f _ | .p | .a _ | .missing _ | .unknown _ => false
  | _ => true

/-- What is stored for the number of an option, behind the options `pre`. -/
def stored (pre : List Opt) (o : Options) (opt : Opt) : Option ℤ :=
  if opt.waits then some o.config.waitingSec
  else o.requestList[(pre.filter isRequest).length]?.bind ReqNode.number

end Opt

/-- A decimal numeral from 0 to `LONG_MAX`. -/
structure InRange (s : CString) : Prop where
  numeral : Numeral s
  le : ofDigits s ≤ longMax

section Numbers

variable (realpath : CString → Option CString)

/-- These options are parsed one after the other, and the loop goes on. -/
def Passes : List Opt → Options → Options → Prop
  | [], o, o' => o = o'
  | opt :: opts, o, o' => ∃ o₁, parseOption realpath opt o = .next o₁ ∧ Passes opts o₁ o'

/-- The numbers are checked, and stored as they are given. -/
structure Checked (argv : List CString) : Prop where
  stored : ∀ o, parseOptions realpath argv = .ret 0 o → o.hOption = false →
    ∀ pre opt post arg, getopt argv.tail = pre ++ opt :: post → opt.number = some arg →
      InRange arg ∧ opt.stored pre o = some (ofDigits arg : ℤ)
  /-- An option with a number of any other form is the last that is parsed. -/
  refused : ∀ pre opt post arg o, getopt argv.tail = pre ++ opt :: post →
    Passes realpath pre .init o →
    opt.number = some arg → ¬InRange arg →
      ∃ o', parseOption realpath opt o = .ret (-1) o' ∧ parseOptions realpath argv = .ret (-1) o'

/-- The number of a `-t` is refused. -/
def RefusedTime (s : CString) : Prop :=
  (lex s).digits = [] ∨ (lex s).rest ≠ [] ∨ (lex s).value < 0 ∨ longMax < (lex s).value

/-- The number of a `-a` is refused. -/
def RefusedWait (s : CString) : Prop :=
  s = [] ∨ (lex s).digits ≠ [] ∧ (lex s).rest = [] ∧ longMin ≤ (lex s).value ∧ (lex s).value < 0

/-- The number of a `-R` or `-w` is refused. -/
def RefusedCount (s : CString) : Prop :=
  (lex s).Blank ∨ (lex s).digits ≠ [] ∧ (lex s).value < 0

/-- An option with a number is refused behind the options `pre` : for its number, because there has
been a `-a` before, or because there is no such directory. -/
def Refused (pre : List Opt) : Opt → Prop
  | .t optarg => RefusedTime optarg
  | .a optarg => pre.any Opt.waits = true ∨ RefusedWait optarg
  | .R optarg => ∃ s ∈ optarg, RefusedCount s
  | .w optarg => (tokens optarg).head?.bind realpath = none ∨ ∃ s ∈ (tokens optarg).tail.head?,
      RefusedCount s
  | _ => False

/-! ## One number -/

variable {realpath} {opt : Opt} {opts pre post : List Opt} {o o' o₁ : Options} {s arg : CString}

/-- A text that is a `long` as a whole. -/
def IsLong (s : CString) : Prop :=
  (lex s).digits ≠ [] ∧ (lex s).rest = [] ∧ longMin ≤ (lex s).value ∧ (lex s).value ≤ longMax

theorem clampLong_of_range {x : ℤ} (hmin : longMin ≤ x) (hmax : x ≤ longMax) : clampLong x = x := by
  unfold clampLong
  omega

theorem clampLong_lt_zero_iff {x : ℤ} : clampLong x < 0 ↔ x < 0 := by
  unfold clampLong longMin longMax
  omega

theorem strToLong_of_isLong (h : IsLong s) : strToLong s = (0, some (lex s).value) := by
  obtain ⟨hdigits, hrest, hmin, hmax⟩ := h
  have hlen : s.length ≠ 0 := by
    intro hlen
    rw [List.length_eq_zero_iff.1 hlen] at hdigits
    exact hdigits rfl
  have hrange : decide ((lex s).value < longMin ∨ longMax < (lex s).value) = false :=
    decide_eq_false (by omega)
  rw [strToLong, if_neg hlen, strtol]
  dsimp only
  rw [if_neg hdigits, hrange, hrest, clampLong_of_range hmin hmax]
  rfl

/-- The failures of `str_to_long`, of which only that of an empty text is -1. -/
theorem strToLong_of_not_isLong (h : ¬IsLong s) :
    ∃ code, strToLong s = (code, none) ∧ code ≠ 0 ∧ (code = -1 ↔ s = []) := by
  rw [strToLong]
  split_ifs with hlen
  · exact ⟨-1, rfl, by decide, by simpa using hlen⟩
  · have hs : s ≠ [] := fun hs => hlen (by rw [hs]; rfl)
    rw [strtol]
    dsimp only
    by_cases hdigits : (lex s).digits = []
    · rw [if_pos hdigits]
      dsimp only
      rw [if_neg (by decide), if_neg hs]
      exact ⟨-3, rfl, by decide, by simpa using hs⟩
    · rw [if_neg hdigits]
      dsimp only
      split_ifs with hrange hrest
      · exact ⟨-2, rfl, by decide, by simpa using hs⟩
      · rw [decide_eq_true_eq] at hrange
        exact absurd ⟨hdigits, hrest, by omega, by omega⟩ h
      · exact ⟨-3, rfl, by decide, by simpa using hs⟩

theorem InRange.isLong (h : InRange s) : IsLong s := by
  have hvalue := value_of_numeral h.numeral
  have hle := h.le
  rw [IsLong, hvalue, lex_of_numeral h.numeral]
  refine ⟨h.numeral.ne_nil, rfl, ?_, hle⟩
  unfold longMin
  omega

/-! ## One option -/

theorem parseTime_of_refused (h : RefusedTime s) : parseOption realpath (.t s) o = .ret (-1) o := by
  rw [parseOption]
  by_cases hlong : IsLong s
  · obtain ⟨hdigits, hrest, -, hmax⟩ := id hlong
    have hneg : (lex s).value < 0 := by
      rcases h with h | h | h | h
      · exact absurd h hdigits
      · exact absurd hrest h
      · exact h
      · omega
    rw [strToLong_of_isLong hlong]
    exact if_pos hneg
  · obtain ⟨code, hcode, hne, -⟩ := strToLong_of_not_isLong hlong
    rw [hcode]
    split
    · next hstored => cases hstored
    · rfl

theorem parseTime_of_not_refused (h : ¬RefusedTime s) :
    parseOption realpath (.t s) o = .next (o.push (.t (lex s).value)) := by
  simp only [RefusedTime, not_or, ne_eq, not_not] at h
  obtain ⟨hdigits, hrest, hneg, hmax⟩ := h
  have hlong : IsLong s := by
    refine ⟨hdigits, hrest, ?_, by omega⟩
    unfold longMin
    omega
  rw [parseOption, strToLong_of_isLong hlong]
  exact if_neg hneg

theorem parseWait_of_refused (h : RefusedWait s) :
    ∃ o', parseOption realpath (.a s) o = .ret (-1) o' := by
  rw [parseOption]
  split_ifs with ha
  · exact ⟨o, rfl⟩
  · rcases h with rfl | ⟨hdigits, hrest, hmin, hneg⟩
    · exact ⟨_, rfl⟩
    · have hlong : IsLong s := by
        refine ⟨hdigits, hrest, hmin, ?_⟩
        unfold longMax
        omega
      rw [strToLong_of_isLong hlong]
      dsimp only [Option.getD_some]
      rw [if_neg (by decide), if_pos hneg]
      exact ⟨_, rfl⟩

/-- The number of a first `-a` that is not refused : if it is not a `long`, the time stays as it
is. -/
theorem parseWait_of_not_refused (h : ¬RefusedWait s) (ha : o.aOption = false)
    (hwait : 0 ≤ o.config.waitingSec) : ∃ n : ℤ, 0 ≤ n ∧ (InRange s → n = ofDigits s) ∧
      parseOption realpath (.a s) o =
        .next { o with config := { o.config with waitingSec := n }, aOption := true } := by
  obtain ⟨hne, hneg⟩ := not_or.1 h
  rw [parseOption, ha, if_neg (by decide)]
  by_cases hlong : IsLong s
  · obtain ⟨hdigits, hrest, hmin, -⟩ := id hlong
    have hnonneg : 0 ≤ (lex s).value := Int.not_lt.1 fun hlt => hneg ⟨hdigits, hrest, hmin, hlt⟩
    refine ⟨(lex s).value, hnonneg, fun hrange => value_of_numeral hrange.numeral, ?_⟩
    rw [strToLong_of_isLong hlong]
    dsimp only [Option.getD_some]
    rw [if_neg (by decide), if_neg (by omega)]
  · obtain ⟨code, hcode, -, hone⟩ := strToLong_of_not_isLong hlong
    refine ⟨o.config.waitingSec, hwait, fun hrange => absurd hrange.isLong hlong, ?_⟩
    rw [hcode]
    dsimp only [Option.getD_none]
    rw [if_neg (fun h => hne (hone.1 h)), if_neg (by omega)]

theorem parseLong_of_refused {node : ℤ → ReqNode} (h : RefusedCount s) :
    parseLong node (some s) o = .ret (-1) o := by
  rw [parseLong]
  rcases h with h | ⟨hdigits, hneg⟩
  · rw [sscanfLong, if_pos h]
  · have hblank : ¬(lex s).Blank := fun h => hdigits h.2.1
    rw [sscanfLong, if_neg hblank, if_neg hdigits]
    dsimp only
    rw [if_pos (clampLong_lt_zero_iff.2 hneg)]

/-- The number of a `-R` or `-w` that is not refused. -/
theorem parseLong_of_not_refused (node : ℤ → ReqNode) (h : ¬RefusedCount s) :
    ∃ n : ℤ, (InRange s → n = ofDigits s) ∧
      parseLong node (some s) o = .next (o.push (node n)) := by
  obtain ⟨hblank, hneg⟩ := not_or.1 h
  rw [parseLong, sscanfLong, if_neg hblank]
  by_cases hdigits : (lex s).digits = []
  · rw [if_pos hdigits]
    exact ⟨0, fun hrange => absurd hdigits hrange.isLong.1, rfl⟩
  · have hnonneg : 0 ≤ (lex s).value := Int.not_lt.1 fun hlt => hneg ⟨hdigits, hlt⟩
    refine ⟨clampLong (lex s).value, fun hrange => ?_, ?_⟩
    · obtain ⟨-, -, hmin, hmax⟩ := hrange.isLong
      rw [clampLong_of_range hmin hmax, value_of_numeral hrange.numeral]
    · rw [if_neg hdigits]
      dsimp only
      rw [if_neg (fun h => absurd (clampLong_lt_zero_iff.1 h) (by omega))]

/-! ## One option -/

/-- What an option does behind which the loop goes on. -/
structure Took (opt : Opt) (o o' : Options) : Prop where
  requests : ∃ nodes, o'.requestList = o.requestList ++ nodes ∧
    nodes.length = ([opt].filter Opt.isRequest).length
  aOption : o'.aOption = (o.aOption || opt.waits)
  waitingSec : o.aOption = true → o'.config.waitingSec = o.config.waitingSec
  nonneg : 0 ≤ o.config.waitingSec → 0 ≤ o'.config.waitingSec

theorem took_push {node : ReqNode} (hrequest : opt.isRequest = true) (hwaits : opt.waits = false) :
    Took opt o (o.push node) where
  requests := ⟨[node], rfl, by rw [List.filter_cons, hrequest]; rfl⟩
  aOption := by rw [hwaits, Bool.or_false]; rfl
  waitingSec _ := rfl
  nonneg h := h

theorem push_of_parseFiles {node : List CString → ReqNode}
    (h : parseFiles realpath node arg o = .next o') : ∃ files, o' = o.push (node files) := by
  unfold parseFiles at h
  split at h
  · cases h
  · cases h
    exact ⟨_, rfl⟩

theorem push_of_parseLong {node : ℤ → ReqNode} {number : Option CString}
    (h : parseLong node number o = .next o') : ∃ n, o' = o.push (node n) := by
  unfold parseLong at h
  split at h
  · cases h
    exact ⟨_, rfl⟩
  · split at h
    · cases h
    · split_ifs at h
      cases h
      exact ⟨_, rfl⟩

theorem took_of_parseOption (h : parseOption realpath opt o = .next o') : Took opt o o' := by
  cases opt with
  | h | missing | unknown => cases h
  | D | d =>
    cases h
    exact took_push rfl rfl
  | W | r | l | u | c =>
    obtain ⟨files, rfl⟩ := push_of_parseFiles h
    exact took_push rfl rfl
  | R =>
    obtain ⟨n, rfl⟩ := push_of_parseLong h
    exact took_push rfl rfl
  | w =>
    rw [parseOption] at h
    split at h
    · cases h
    · split at h
      · cases h
      · obtain ⟨n, rfl⟩ := push_of_parseLong h
        exact took_push rfl rfl
  | t =>
    rw [parseOption] at h
    split at h
    · split_ifs at h
      cases h
      exact took_push rfl rfl
    · cases h
  | f | p =>
    rw [parseOption] at h
    split_ifs at h
    cases h
    exact ⟨⟨[], (List.append_nil _).symm, rfl⟩, (Bool.or_false _).symm, fun _ => rfl, id⟩
  | a optarg =>
    rw [parseOption] at h
    obtain ⟨code, stored⟩ := strToLong optarg
    dsimp only at h
    split_ifs at h with ha hcode hneg
    cases h
    exact ⟨⟨[], (List.append_nil _).symm, rfl⟩, (Bool.or_true _).symm, fun h => absurd h ha,
      fun _ => Int.not_lt.1 hneg⟩

/-- Only `-h` makes `parse_options` return 0 before the end. -/
theorem ret_of_parseOption {code : ℤ} (h : parseOption realpath opt o = .ret code o') :
    code = -1 ∨ o'.hOption = true := by
  have hfiles : ∀ {node arg}, parseFiles realpath node arg o = .ret code o' → code = -1 := by
    intro node arg h
    unfold parseFiles at h
    split at h <;> cases h
  have hlong : ∀ {node number}, parseLong node number o = .ret code o' → code = -1 := by
    intro node number h
    unfold parseLong at h
    split at h
    · cases h
    · split at h
      · cases h
        rfl
      · split_ifs at h
        cases h
        rfl
  cases opt with
  | h =>
    cases h
    exact .inr rfl
  | missing | unknown =>
    cases h
    exact .inl rfl
  | D | d => cases h
  | W | r | l | u | c => exact .inl (hfiles h)
  | R => exact .inl (hlong h)
  | w =>
    rw [parseOption] at h
    split at h
    · cases h
      exact .inl rfl
    · split at h
      · cases h
        exact .inl rfl
      · exact .inl (hlong h)
  | t =>
    rw [parseOption] at h
    split at h
    · split_ifs at h
      cases h
      exact .inl rfl
    · cases h
      exact .inl rfl
  | f | p =>
    rw [parseOption] at h
    split_ifs at h
    cases h
    exact .inl rfl
  | a optarg =>
    rw [parseOption] at h
    obtain ⟨ret, stored⟩ := strToLong optarg
    dsimp only at h
    split_ifs at h <;> cases h <;> exact .inl rfl

/-- The number of an option is stored right behind it. -/
def Holds (opt : Opt) (o o' : Options) (n : ℤ) : Prop :=
  if opt.waits then o'.config.waitingSec = n else ∃ node, o' = o.push node ∧ node.number = some n

/-- An option with a number that is refused ends the loop. -/
theorem parseOption_of_refused (hnumber : opt.number = some arg)
    (ha : o.aOption = pre.any Opt.waits)
    (h : Refused realpath pre opt) : ∃ o', parseOption realpath opt o = .ret (-1) o' := by
  cases opt with
  | t => exact ⟨o, parseTime_of_refused h⟩
  | a =>
    rcases h with h | h
    · rw [parseOption, if_pos (ha.trans h)]
      exact ⟨o, rfl⟩
    · exact parseWait_of_refused h
  | R =>
    obtain ⟨s, rfl, hs⟩ := h
    exact ⟨o, parseLong_of_refused hs⟩
  | w optarg =>
    rw [parseOption]
    cases htokens : tokens optarg with
    | nil => exact ⟨o, rfl⟩
    | cons directory more =>
      dsimp only
      rw [Refused, htokens, List.head?_cons, Option.bind_some] at h
      cases hdir : realpath directory with
      | none => exact ⟨o, rfl⟩
      | some absDirectory =>
        rcases h with h | ⟨s, hs, hrefused⟩
        · cases h.symm.trans hdir
        · dsimp only
          rw [List.tail_cons, Option.mem_def] at hs
          rw [hs]
          exact ⟨o, parseLong_of_refused hrefused⟩
  | _ => cases hnumber

/-- An option with a number that is not refused is parsed, and the number is stored if it is within
the range. -/
theorem parseOption_of_not_refused (hnumber : opt.number = some arg)
    (ha : o.aOption = pre.any Opt.waits) (hwait : 0 ≤ o.config.waitingSec)
    (h : ¬Refused realpath pre opt) :
    ∃ o', parseOption realpath opt o = .next o' ∧
      (InRange arg → Holds opt o o' (ofDigits arg)) := by
  cases opt with
  | t =>
    cases hnumber
    exact ⟨_, parseTime_of_not_refused h, fun hrange =>
      ⟨_, rfl, congrArg some (value_of_numeral hrange.numeral)⟩⟩
  | a =>
    cases hnumber
    rw [Refused, not_or] at h
    obtain ⟨n, -, hn, hparse⟩ := parseWait_of_not_refused h.2
      (ha.trans (Bool.eq_false_iff.2 h.1)) hwait
    exact ⟨_, hparse, hn⟩
  | R =>
    cases hnumber
    obtain ⟨n, hn, hparse⟩ := parseLong_of_not_refused .R fun hs => h ⟨arg, rfl, hs⟩
    exact ⟨_, hparse, fun hrange => ⟨_, rfl, congrArg some (hn hrange)⟩⟩
  | w optarg =>
    rw [Refused, not_or] at h
    change (tokens optarg).tail.head? = some arg at hnumber
    obtain ⟨absDirectory, hdir⟩ := Option.ne_none_iff_exists'.1 h.1
    obtain ⟨directory, hhead, hpath⟩ := Option.bind_eq_some_iff.1 hdir
    obtain ⟨n, hn, hparse⟩ := parseLong_of_not_refused (.w absDirectory)
      fun hs => h.2 ⟨arg, hnumber, hs⟩
    refine ⟨_, ?_, fun hrange => ⟨.w absDirectory n, rfl, congrArg some (hn hrange)⟩⟩
    rw [parseOption]
    cases htokens : tokens optarg with
    | nil =>
      rw [htokens] at hhead
      cases hhead
    | cons first more =>
      rw [htokens] at hhead hnumber
      cases hhead
      dsimp only
      rw [hpath]
      dsimp only
      rw [List.tail_cons] at hnumber
      rw [hnumber]
      exact hparse
  | _ => cases hnumber

/-! ## The options one after the other -/

/-- What holds behind options that are parsed one after the other. -/
structure Passed (opts : List Opt) (o o' : Options) : Prop where
  requests : ∃ nodes, o'.requestList = o.requestList ++ nodes ∧
    nodes.length = (opts.filter Opt.isRequest).length
  aOption : o'.aOption = (o.aOption || opts.any Opt.waits)
  waitingSec : o.aOption = true → o'.config.waitingSec = o.config.waitingSec
  nonneg : 0 ≤ o.config.waitingSec → 0 ≤ o'.config.waitingSec

theorem Passes.passed (h : Passes realpath opts o o') : Passed opts o o' := by
  induction opts generalizing o with
  | nil =>
    cases h
    exact ⟨⟨[], (List.append_nil _).symm, rfl⟩, (Bool.or_false _).symm, fun _ => rfl, id⟩
  | cons opt opts ih =>
    obtain ⟨o₁, hparse, hrest⟩ := h
    have htook := took_of_parseOption hparse
    have hpassed := ih hrest
    obtain ⟨nodes, hnodes, hlen⟩ := htook.requests
    obtain ⟨nodes', hnodes', hlen'⟩ := hpassed.requests
    refine ⟨⟨nodes ++ nodes', ?_, ?_⟩, ?_, fun ha => ?_, fun h => hpassed.nonneg (htook.nonneg h)⟩
    · rw [hnodes', hnodes, List.append_assoc]
    · rw [← List.singleton_append, List.filter_append, List.length_append, List.length_append,
        hlen, hlen']
    · rw [hpassed.aOption, htook.aOption, List.any_cons, Bool.or_assoc]
    · have ha₁ : o₁.aOption = true := by rw [htook.aOption, ha, Bool.true_or]
      rw [hpassed.waitingSec ha₁, htook.waitingSec ha]

/-- The loop goes on behind options that are parsed. -/
theorem Passes.parseLoop_append (h : Passes realpath pre o o₁) :
    parseLoop realpath (pre ++ post) o = parseLoop realpath post o₁ := by
  induction pre generalizing o with
  | nil =>
    cases h
    rfl
  | cons opt pre ih =>
    obtain ⟨o₂, hparse, hrest⟩ := h
    rw [List.cons_append, parseLoop, hparse]
    exact ih hrest

/-- If 0 is returned without `-h`, all options are parsed. -/
theorem passes_of_parseLoop (h : parseLoop realpath opts o = .ret 0 o')
    (hoption : o'.hOption = false) :
    Passes realpath opts o o' := by
  induction opts generalizing o with
  | nil =>
    cases h
    rfl
  | cons opt opts ih =>
    rw [parseLoop] at h
    split at h
    · next o₁ hparse => exact ⟨o₁, hparse, ih h⟩
    · next code o₁ hparse =>
      cases h
      rcases ret_of_parseOption hparse with hcode | hh
      · cases hcode
      · rw [hoption] at hh
        cases hh
    · cases h

theorem passes_split (h : Passes realpath (pre ++ opt :: post) o o') :
    ∃ o₁ o₂, Passes realpath pre o o₁ ∧ parseOption realpath opt o₁ = .next o₂ ∧
      Passes realpath post o₂ o' := by
  induction pre generalizing o with
  | nil =>
    obtain ⟨o₂, hparse, hrest⟩ := h
    exact ⟨o, o₂, rfl, hparse, hrest⟩
  | cons first pre ih =>
    obtain ⟨o₃, hparse, hrest⟩ := h
    obtain ⟨o₁, o₂, hpre, hopt, hpost⟩ := ih hrest
    exact ⟨o₁, o₂, ⟨o₃, hparse, hpre⟩, hopt, hpost⟩

/-- What has been stored for a number stays. -/
theorem Holds.stored {n : ℤ} (h : Holds opt o₁ o n) (hpre : Passed pre .init o₁)
    (htook : Took opt o₁ o)
    (hpost : Passed post o o') : opt.stored pre o' = some n := by
  rw [Opt.stored]
  rw [Holds] at h
  split_ifs at h ⊢ with hwaits
  · have ha : o.aOption = true := by rw [htook.aOption, hwaits, Bool.or_true]
    rw [hpost.waitingSec ha, h]
  · obtain ⟨node, rfl, hnumber⟩ := h
    obtain ⟨nodes, hnodes, hlen⟩ := hpre.requests
    obtain ⟨nodes', hnodes', -⟩ := hpost.requests
    have hlist : o'.requestList = nodes ++ node :: nodes' := by
      rw [hnodes', Options.push, hnodes]
      exact List.append_assoc nodes [node] nodes'
    rw [hlist, ← hlen, List.getElem?_append_right (Nat.le_refl _), Nat.sub_self]
    exact hnumber

/-- The numbers are checked and stored if and only if each number that is reached is a numeral from
0 to `LONG_MAX`, or its option is refused. -/
theorem numbers_iff (realpath : CString → Option CString) (argv : List CString) :
    Checked realpath argv ↔ ∀ pre opt post arg o, getopt argv.tail = pre ++ opt :: post →
      Passes realpath pre .init o → opt.number = some arg → InRange arg ∨
        Refused realpath pre opt := by
  have hinit : (0 : ℤ) ≤ Options.init.config.waitingSec := by decide
  constructor
  · intro hchecked pre opt post arg o hsplit hpre hnumber
    by_contra hnot
    rw [not_or] at hnot
    obtain ⟨hrange, hrefused⟩ := hnot
    have hpassed := hpre.passed
    obtain ⟨o', hret, -⟩ := hchecked.refused pre opt post arg o hsplit hpre hnumber hrange
    obtain ⟨o₁, hnext, -⟩ :=
      parseOption_of_not_refused hnumber hpassed.aOption (hpassed.nonneg hinit)
      hrefused
    cases hret.symm.trans hnext
  · intro hall
    refine ⟨fun o hrun hoption pre opt post arg hsplit hnumber => ?_,
      fun pre opt post arg o hsplit hpre hnumber hrange => ?_⟩
    · have hpasses := passes_of_parseLoop hrun hoption
      rw [hsplit] at hpasses
      obtain ⟨o₁, o₂, hpre, hparse, hpost⟩ := passes_split hpasses
      have hpassed := hpre.passed
      have hnotrefused : ¬Refused realpath pre opt := by
        intro hrefused
        obtain ⟨o₃, hret⟩ := parseOption_of_refused hnumber hpassed.aOption hrefused
        cases hret.symm.trans hparse
      have hrange := (hall pre opt post arg o₁ hsplit hpre hnumber).resolve_right hnotrefused
      obtain ⟨o₃, hnext, hholds⟩ := parseOption_of_not_refused hnumber hpassed.aOption
        (hpassed.nonneg hinit) hnotrefused
      cases hnext.symm.trans hparse
      exact ⟨hrange, (hholds hrange).stored hpassed (took_of_parseOption hparse) hpost.passed⟩
    · have hrefused := (hall pre opt post arg o hsplit hpre hnumber).resolve_left hrange
      obtain ⟨o', hret⟩ := parseOption_of_refused hnumber hpre.passed.aOption hrefused
      refine ⟨o', hret, ?_⟩
      rw [parseOptions, hsplit, hpre.parseLoop_append, parseLoop, hret]

/-- `-R x` : the text is no number, and all files are read. -/
theorem numbers_letter : ¬Checked (fun s => some s) [[99], [45, 82, 120]] := by
  intro hchecked
  obtain ⟨o', -, hret⟩ := hchecked.refused [] (.R (some [120])) [] [120] .init rfl rfl rfl
    fun hrange => absurd (hrange.numeral.digits 120 List.mem_cons_self) Bool.false_ne_true
  have hrun : parseOptions (fun s => some s) [[99], [45, 82, 120]] =
      .ret 0 (Options.init.push (.R 0)) := rfl
  cases hret.symm.trans hrun

end Numbers

end StorageServer.App
