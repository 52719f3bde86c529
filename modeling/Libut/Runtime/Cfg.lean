import Libut.Base.Sysfs
import Libut.Machine.Checked
import Libut.Machine.Text

/-!
The configuration file of the runtime (`runtime/cfg.c`). `fgets` cuts the file
into lines, `strtok` cuts a line at blanks, and the handler of the option that
the first token names stores the value of the second one. Only blanks end a
token, so the newline of a line belongs to its last token.

`errno` is that before the call: a conversion that sets it ends the loading.
`cpuCount` is `cpu_count`. The loop is given as many rounds as the file has
characters; each round takes at least one of them.
-/

namespace Libut.Runtime

open Machine Base

/-- Why `cfg_load` goes no further: it returns a value that is not 0, or a
handler reads the text of a value that is `NULL`. -/
inductive CfgStop where
  | returns (ret : Int)
  | fault
  deriving DecidableEq, Repr

structure Settings where
  maxks : BitVec 32
  spinks : BitVec 32
  guaranteedks : BitVec 32
  maxLoglevel : BitVec 32
  disableWatchdog : Bool
  deriving DecidableEq, Repr

/-- `*endptr` is the null character or a newline. -/
def endsNumber : List Char → Bool
  | [] => true
  | c :: _ => c == '\x00' || c == '\n'

def strToLong (errno : Int) (str : List Char) : Option Int :=
  let converted := strtol str errno
  if converted.stop = str ∨ endsNumber converted.stop = false ∨
      (converted.val = longMin ∨ converted.val = longMax) ∧
        converted.errno = erange then
    none
  else some converted.val

/-- A handler of an option with a number: the value must be in the range that
`accepts` says, and is then stored in 32 bits. -/
def parseNumber (errno : Int) (accepts : Int → Bool)
    (store : BitVec 32 → Settings → Settings) (val : Option (List Char))
    (s : Settings) : Except CfgStop Settings :=
  match val with
  | none => .error .fault
  | some str =>
    match strToLong errno str with
    | none => .error (.returns (-einval))
    | some tmp =>
      if accepts tmp then .ok (store (BitVec.ofInt 32 tmp) s)
      else .error (.returns (-einval))

def parseRuntimeKthreads (errno cpuCount : Int) :=
  parseNumber errno (fun tmp => 1 ≤ tmp && tmp ≤ cpuCount - 1)
    fun n s => { s with maxks := n }

def parseRuntimeSpinningKthreads (errno : Int) :=
  parseNumber errno (fun tmp => 0 ≤ tmp) fun n s => { s with spinks := n }

/-- Less than one kthread is warned of, and accepted. -/
def parseRuntimeGuaranteedKthreads (errno cpuCount : Int) :=
  parseNumber errno (fun tmp => tmp ≤ cpuCount - 1)
    fun n s => { s with guaranteedks := n }

def logEmerg : Int := 0

def logDebug : Int := 6

def parseLogLevel (errno : Int) :=
  parseNumber errno (fun tmp => logEmerg ≤ tmp && tmp ≤ logDebug)
    fun n s => { s with maxLoglevel := n }

def parseWatchdogFlag (_ : Option (List Char)) (s : Settings) :
    Except CfgStop Settings :=
  .ok { s with disableWatchdog := true }

/-- The entries of `cfg_handlers`. -/
inductive CfgOption where
  | runtimeKthreads
  | runtimeSpinningKthreads
  | runtimeGuaranteedKthreads
  | logLevel
  | disableWatchdog
  deriving DecidableEq, Repr

namespace CfgOption

def name : CfgOption → List Char
  | runtimeKthreads => "runtime_kthreads".toList
  | runtimeSpinningKthreads => "runtime_spinning_kthreads".toList
  | runtimeGuaranteedKthreads => "runtime_guaranteed_kthreads".toList
  | logLevel => "log_level".toList
  | disableWatchdog => "disable_watchdog".toList

def fn (errno cpuCount : Int) :
    CfgOption → Option (List Char) → Settings → Except CfgStop Settings
  | runtimeKthreads => parseRuntimeKthreads errno cpuCount
  | runtimeSpinningKthreads => parseRuntimeSpinningKthreads errno
  | runtimeGuaranteedKthreads => parseRuntimeGuaranteedKthreads errno cpuCount
  | logLevel => parseLogLevel errno
  | disableWatchdog => parseWatchdogFlag

def required : CfgOption → Bool
  | runtimeKthreads => true
  | _ => false

end CfgOption

def cfgHandlers : List CfgOption :=
  [.runtimeKthreads, .runtimeSpinningKthreads, .runtimeGuaranteedKthreads,
    .logLevel, .disableWatchdog]

/-- `strncmp` finds no difference in the first `n` characters. -/
def strncmpEq (a b : List Char) (n : Nat) : Bool := a.take n == b.take n

def findHandler (name : List Char) : Option CfgOption :=
  cfgHandlers.find? fun h => strncmpEq name h.name bufsiz

structure CfgState where
  settings : Settings
  parsed : List CfgOption
  deriving DecidableEq, Repr

def applyHandler (errno cpuCount : Int) (name : List Char)
    (val : Option (List Char)) (s : CfgState) : Except CfgStop CfgState :=
  match findHandler name with
  | none => .ok s
  | some h =>
    (h.fn errno cpuCount val s.settings).map fun settings =>
      ⟨settings, h :: s.parsed⟩

def cString (buf : List Char) : List Char := buf.takeWhile (· != '\x00')

/-- `while (fgets(buf, sizeof(buf), f))` -/
def cfgLoop (errno cpuCount : Int) :
    Nat → List Char → CfgState → Except CfgStop CfgState
  | 0, _, s => .ok s
  | rounds + 1, input, s =>
    match fgets bufsiz input with
    | none => .ok s
    | some (buf, rest) =>
      if buf.head? = some '#' ∨ buf.head? = some '\n' then
        cfgLoop errno cpuCount rounds rest s
      else
        match strtok ' ' (cString buf) with
        | none => .ok s
        | some (name, more) =>
          applyHandler errno cpuCount name
            ((strtok ' ' more).map Prod.fst) s >>=
              cfgLoop errno cpuCount rounds rest

def cfgFinish (s : CfgState) : Except CfgStop Settings :=
  if cfgHandlers.any fun h => h.required && !s.parsed.contains h then
    .error (.returns (-einval))
  else if s.settings.guaranteedks > s.settings.maxks then
    .error (.returns (-einval))
  else .ok s.settings

/-- `cfg_load` on the contents of the file, or the `errno` with which it cannot
be opened. -/
def cfgLoad (errno cpuCount : Int) (file : Except Int (List Char))
    (start : Settings) : Except CfgStop Settings :=
  match file with
  | .error e => .error (.returns (-e))
  | .ok input =>
    cfgLoop errno cpuCount input.length input ⟨start, []⟩ >>= cfgFinish

/-! What a file says. -/

structure Word where
  text : List Char
  nonempty : text ≠ []
  noBlank : ' ' ∉ text
  noNewline : '\n' ∉ text
  noNull : '\x00' ∉ text

/-- A line without its newline. An option may have a value with one blank, and
any number of further ones, before it. -/
inductive CfgLine where
  | comment (text : { t : List Char // '\n' ∉ t })
  | blank (width : Nat)
  | option (name : Word) (val : Option (Nat × Word))

def blanks (k : Nat) : List Char := List.replicate k ' '

namespace CfgLine

def valueText : Option (Nat × Word) → List Char
  | some (gap, v) => blanks (gap + 1) ++ v.text
  | none => []

def text : CfgLine → List Char
  | comment t => '#' :: t
  | blank width => blanks width
  | option name val => name.text ++ valueText val

def firstWord : CfgLine → Option (List Char)
  | option name _ => some name.text
  | _ => none

def value : CfgLine → Option (List Char)
  | option _ (some (_, v)) => some v.text
  | _ => none

end CfgLine

def numberGiven (v : List Char) : Option Int :=
  match readNumeral (readDigits 10) v with
  | some ⟨negative, magnitude, []⟩ =>
    some (Numeral.value ⟨negative, magnitude, []⟩)
  | _ => none

namespace CfgLine

def names (l : CfgLine) (o : CfgOption) : Bool := l.firstWord == some o.name

def given (l : CfgLine) (o : CfgOption) : Option Int :=
  if l.names o then l.value.bind numberGiven else none

def LacksValue (l : CfgLine) : Prop :=
  ∃ o, o ≠ .disableWatchdog ∧ l.names o ∧ l.value = none

end CfgLine

structure CfgMeaning where
  maxks : Int
  spinks : Int
  guaranteedks : Int
  maxLoglevel : Int
  disableWatchdog : Bool
  deriving DecidableEq, Repr

/-- `unsigned int` variables are read as natural numbers, the log level is an
`int`. -/
def Settings.meaning (s : Settings) : CfgMeaning where
  maxks := s.maxks.toNat
  spinks := s.spinks.toNat
  guaranteedks := s.guaranteedks.toNat
  maxLoglevel := s.maxLoglevel.toInt
  disableWatchdog := s.disableWatchdog

def CfgLine.update (m : CfgMeaning) (l : CfgLine) : CfgMeaning where
  maxks := (l.given .runtimeKthreads).getD m.maxks
  spinks := (l.given .runtimeSpinningKthreads).getD m.spinks
  guaranteedks := (l.given .runtimeGuaranteedKthreads).getD m.guaranteedks
  maxLoglevel := (l.given .logLevel).getD m.maxLoglevel
  disableWatchdog := m.disableWatchdog || l.names .disableWatchdog

/-- A file is a list of lines with a newline after each, and perhaps a last one
without. -/
structure CfgFile where
  lines : List CfgLine
  last : Option CfgLine

namespace CfgFile

def text (file : CfgFile) : List Char :=
  file.lines.flatMap (fun l => l.text ++ ['\n']) ++
    (file.last.elim [] CfgLine.text)

def all (file : CfgFile) : List CfgLine := file.lines ++ file.last.toList

/-- Every line, with the newline it may have, is shorter than the buffer. -/
def Short (file : CfgFile) : Prop :=
  (∀ l ∈ file.lines, l.text.length + 1 < bufsiz) ∧
    ∀ l ∈ file.last, l.text.length < bufsiz

/-- What the file means: the last line of an option counts, and the watchdog is
off once a line names its option. -/
def meaning (file : CfgFile) (start : Settings) : CfgMeaning :=
  file.all.foldl CfgLine.update start.meaning

end CfgFile

/-- What loading a file should do: fail, or leave the settings as the file
says, within their bounds, with no value missing in the file. -/
def CfgLaw (cpuCount : Int) (start : Settings) (file : CfgFile)
    (r : Except CfgStop Settings) : Prop :=
  Meets (· ≠ .fault) r fun s =>
    s.meaning = file.meaning start ∧
      (1 ≤ s.meaning.maxks ∧ s.meaning.maxks ≤ cpuCount - 1) ∧
      (0 ≤ s.meaning.guaranteedks ∧ s.meaning.guaranteedks ≤ s.meaning.maxks) ∧
      ∀ l ∈ file.all, ¬ l.LacksValue

def CfgOption.accepts (cpuCount : Int) : CfgOption → Int → Bool
  | runtimeKthreads, n => 1 ≤ n && n ≤ cpuCount - 1
  | runtimeSpinningKthreads, n => 0 ≤ n
  | runtimeGuaranteedKthreads, n => n ≤ cpuCount - 1
  | logLevel, n => logEmerg ≤ n && n ≤ logDebug
  | disableWatchdog, _ => true

namespace CfgLine

def Refused (errno cpuCount : Int) (l : CfgLine) : Prop :=
  ∃ o v, o ≠ .disableWatchdog ∧ l.names o ∧ l.value = some v ∧
    ∀ n, strToLong errno v = some n → o.accepts cpuCount n = false

/-- The line turns the watchdog off: its first token ends before a newline. -/
def flags (l : CfgLine) (ended : Bool) : Bool :=
  l.names .disableWatchdog && (l.value.isSome || !ended)

end CfgLine

namespace CfgFile

def Refused (errno cpuCount : Int) (file : CfgFile) : Prop :=
  ∃ l ∈ file.all, l.Refused errno cpuCount

/-- The file ends in the name of an option whose value is missing. -/
def BreaksOff (file : CfgFile) : Prop := ∃ l ∈ file.last, l.LacksValue

def flags (file : CfgFile) : Bool :=
  file.lines.any (·.flags true) || file.last.any (·.flags false)

def Inconsistent (file : CfgFile) (start : Settings) : Prop :=
  (∀ l ∈ file.all, l.given .runtimeKthreads = none) ∨
    (file.meaning start).maxks < (file.meaning start).guaranteedks % 2 ^ 32

/-- Every option of the file comes through: no value is missing, the numbers
fit their variables, and a line that turns the watchdog off is understood. -/
def Understood (file : CfgFile) (start : Settings) : Prop :=
  (∀ l ∈ file.all, ¬ l.LacksValue) ∧
    (file.meaning start).spinks < 2 ^ 32 ∧
    0 ≤ (file.meaning start).guaranteedks ∧
    ((∃ l ∈ file.all, l.names .disableWatchdog) → file.flags)

end CfgFile

section Numbers

variable {errno n : Int} {str : List Char}

theorem strtol_newline :
    strtol (str ++ ['\n']) errno =
      { strtol str errno with stop := (strtol str errno).stop ++ ['\n'] } := by
  rw [strtol, strtol, readNumeral_newline]
  cases readNumeral (readDigits 10) str with
  | none => rfl
  | some m =>
    have hvalue : Numeral.value { m with stop := m.stop ++ ['\n'] } =
        m.value := rfl
    simp only [Option.map_some, hvalue]
    split_ifs <;> rfl

theorem endsNumber_newline {stop : List Char} :
    endsNumber (stop ++ ['\n']) = endsNumber stop := by
  cases stop <;> rfl

theorem strToLong_newline :
    strToLong errno (str ++ ['\n']) = strToLong errno str := by
  simp only [strToLong, strtol_newline, endsNumber_newline,
    List.append_left_inj]

theorem strToLong_given (hnewline : '\n' ∉ str) (hnull : '\x00' ∉ str)
    (h : strToLong errno str = some n) : numberGiven str = some n := by
  simp only [strToLong] at h
  split_ifs at h with hcheck
  simp only [not_or, not_and, Bool.not_eq_false] at hcheck
  obtain ⟨hstart, hends, hrange⟩ := hcheck
  cases hread : readNumeral (readDigits 10) str with
  | none =>
    simp [strtol, hread] at hstart
  | some m =>
    by_cases hmin : m.value < longMin
    · simp [strtol, hread, hmin] at hrange
    by_cases hmax : longMax < m.value
    · simp [strtol, hread, hmin, hmax] at hrange
    have hstrtol : strtol str errno = ⟨m.value, m.stop, errno⟩ := by
      simp only [strtol, hread]
      rw [if_neg hmin, if_neg hmax]
    rw [hstrtol] at hends h
    have hsuffix := (readNumeral_suffix hread).subset
    obtain ⟨negative, magnitude, stop⟩ := m
    cases stop with
    | nil => rw [numberGiven, hread, ← h]
    | cons c stop =>
      have hc := hsuffix List.mem_cons_self
      simp only [endsNumber, Bool.or_eq_true, beq_iff_eq] at hends
      rcases hends with rfl | rfl
      · exact absurd hc hnull
      · exact absurd hc hnewline

end Numbers

section Handlers

variable {errno cpuCount : Int} {o o' : CfgOption} {name : List Char}

theorem strncmpEq_iff {b : List Char} {n : Nat} (hb : b.length < n) :
    strncmpEq name b n = true ↔ name = b := by
  rw [strncmpEq, beq_iff_eq, List.take_of_length_le hb.le]
  constructor
  · intro h
    have hlen := congrArg List.length h
    rw [List.length_take] at hlen
    rwa [List.take_of_length_le (by omega)] at h
  · rintro rfl
    exact List.take_of_length_le hb.le

theorem CfgOption.name_length : o.name.length < bufsiz := by
  cases o <;> decide

theorem CfgOption.mem_name {c : Char} (hc : c = '\n' ∨ c = '#') :
    c ∉ o.name := by
  rcases hc with rfl | rfl <;> cases o <;> decide

theorem findHandler_name : findHandler o.name = some o := by
  cases o <;> decide

theorem findHandler_eq_some : findHandler name = some o ↔ name = o.name := by
  constructor
  · intro h
    rw [findHandler] at h
    have hsame := List.find?_some h
    exact (strncmpEq_iff CfgOption.name_length).mp hsame
  · rintro rfl
    exact findHandler_name

theorem findHandler_eq_none {c : Char} (hc : c = '\n' ∨ c = '#')
    (hmem : c ∈ name) : findHandler name = none := by
  cases h : findHandler name with
  | none => rfl
  | some o =>
    rw [findHandler_eq_some.mp h] at hmem
    exact absurd hmem (CfgOption.mem_name hc)

theorem CfgOption.name_injective (h : o.name = o'.name) : o = o' := by
  have hfind : findHandler o.name = some o := findHandler_name
  rw [h, findHandler_name] at hfind
  exact (Option.some.inj hfind).symm

def CfgOption.store : CfgOption → BitVec 32 → Settings → Settings
  | runtimeKthreads, n, s => { s with maxks := n }
  | runtimeSpinningKthreads, n, s => { s with spinks := n }
  | runtimeGuaranteedKthreads, n, s => { s with guaranteedks := n }
  | logLevel, n, s => { s with maxLoglevel := n }
  | disableWatchdog, _, s => s

theorem CfgOption.fn_number (ho : o ≠ .disableWatchdog) :
    o.fn errno cpuCount = parseNumber errno (o.accepts cpuCount) o.store := by
  cases o with
  | disableWatchdog => exact absurd rfl ho
  | _ => rfl

end Handlers

section Tokens

variable {errno cpuCount : Int} {rounds : Nat} {ended : Bool} {s : CfgState}
  {input rest : List Char}

def newline (ended : Bool) : List Char := if ended then ['\n'] else []

def CfgLine.step (errno cpuCount : Int) (ended : Bool) :
    CfgLine → CfgState → Except CfgStop CfgState
  | .option name (some (_, v)) =>
    applyHandler errno cpuCount name.text (some (v.text ++ newline ended))
  | .option name none =>
    applyHandler errno cpuCount (name.text ++ newline ended) none
  | _ => .ok

theorem strtok_word (w : Word) :
    strtok ' ' (w.text ++ newline ended) =
      some (w.text ++ newline ended, []) := by
  have hblank := w.noBlank
  apply strtok_last
  · exact List.append_ne_nil_of_left_ne_nil w.nonempty _
  · cases ended <;> simp [newline, hblank]

theorem strtok_value (gap : Nat) (name v : Word) :
    ∃ more,
      strtok ' ' ((CfgLine.option name (some (gap, v))).text ++
        newline ended) = some (name.text, more) ∧
      (strtok ' ' more).map Prod.fst = some (v.text ++ newline ended) := by
  refine ⟨blanks gap ++ (v.text ++ newline ended), ?_, ?_⟩
  · rw [← strtok_token name.nonempty name.noBlank]
    simp [CfgLine.text, CfgLine.valueText, blanks, List.replicate_succ]
  · rw [blanks, strtok_skip, strtok_word]
    rfl

theorem cString_eq {buf : List Char} (hnull : '\x00' ∉ buf) :
    cString buf = buf := by
  rw [cString, List.takeWhile_eq_self_iff]
  intro c hc
  exact bne_iff_ne.mpr fun h => hnull (h ▸ hc)

theorem cfgLoop_nil : cfgLoop errno cpuCount rounds [] s = .ok s := by
  cases rounds <;> rfl

theorem cfgLoop_skip {buf : List Char}
    (hfgets : fgets bufsiz input = some (buf, rest))
    (hhead : buf.head? = some '#' ∨ buf.head? = some '\n') :
    cfgLoop errno cpuCount (rounds + 1) input s =
      cfgLoop errno cpuCount rounds rest s := by
  rw [cfgLoop, hfgets]
  exact if_pos hhead

theorem cfgLoop_tokens {buf name more : List Char}
    (hfgets : fgets bufsiz input = some (buf, rest))
    (hhead : ¬ (buf.head? = some '#' ∨ buf.head? = some '\n'))
    (hnull : '\x00' ∉ buf) (hname : strtok ' ' buf = some (name, more)) :
    cfgLoop errno cpuCount (rounds + 1) input s =
      applyHandler errno cpuCount name ((strtok ' ' more).map Prod.fst) s >>=
        cfgLoop errno cpuCount rounds rest := by
  rw [cfgLoop, hfgets]
  simp only [if_neg hhead, cString_eq hnull, hname]

variable {val : Option (Nat × Word)}

theorem CfgLine.not_mem_option {c : Char} {name : Word} (hblank : c ≠ ' ')
    (hword : ∀ w : Word, c ∉ w.text) : c ∉ (CfgLine.option name val).text := by
  cases val with
  | none => simp [CfgLine.text, CfgLine.valueText, hword]
  | some p => simp [CfgLine.text, CfgLine.valueText, blanks, hword, hblank]

theorem CfgLine.step_head {name : Word} {tail : List Char}
    (hname : name.text = '#' :: tail) :
    (CfgLine.option name val).step errno cpuCount ended s = .ok s := by
  have hhash : '#' ∈ name.text := hname ▸ List.mem_cons_self
  cases val with
  | none =>
    rw [CfgLine.step, applyHandler,
      findHandler_eq_none (.inr rfl) (List.mem_append_left _ hhash)]
  | some p =>
    rw [CfgLine.step, applyHandler, findHandler_eq_none (.inr rfl) hhash]

theorem cfgLoop_option {name : Word} (hfgets : fgets bufsiz input =
      some ((CfgLine.option name val).text ++ newline ended, rest)) :
    cfgLoop errno cpuCount (rounds + 1) input s =
      (CfgLine.option name val).step errno cpuCount ended s >>=
        cfgLoop errno cpuCount rounds rest := by
  obtain ⟨c, tail, hname⟩ := List.exists_cons_of_ne_nil name.nonempty
  have hhead : ((CfgLine.option name val).text ++ newline ended).head? =
      some c := by
    simp [CfgLine.text, hname]
  by_cases hc : c = '#'
  · subst hc
    rw [cfgLoop_skip hfgets (.inl hhead), CfgLine.step_head hname]
    rfl
  have hnewline : c ≠ '\n' := by
    rintro rfl
    exact name.noNewline (hname ▸ List.mem_cons_self)
  have hskip : ¬ (some c = some '#' ∨ some c = some '\n') := by
    simp [hc, hnewline]
  have hnull : '\x00' ∉ (CfgLine.option name val).text ++ newline ended := by
    have htext : '\x00' ∉ (CfgLine.option name val).text :=
      CfgLine.not_mem_option (by decide) Word.noNull
    cases ended <;> simp [newline, htext]
  rw [← hhead] at hskip
  cases val with
  | none =>
    have htoken : strtok ' ' ((CfgLine.option name none).text ++
        newline ended) = some (name.text ++ newline ended, []) := by
      rw [CfgLine.text, CfgLine.valueText, List.append_nil, strtok_word]
    rw [cfgLoop_tokens hfgets hskip hnull htoken]
    rfl
  | some p =>
    obtain ⟨more, htoken, hval⟩ := strtok_value p.1 name p.2
    rw [cfgLoop_tokens hfgets hskip hnull htoken, hval]
    rfl

theorem cfgLoop_blank {width : Nat}
    (hfgets : fgets bufsiz input = some (blanks width ++ newline ended, rest))
    (hrest : ended = false → rest = []) :
    cfgLoop errno cpuCount (rounds + 1) input s =
      cfgLoop errno cpuCount rounds rest s := by
  have hnull : '\x00' ∉ blanks width ++ newline ended := by
    cases ended <;> simp [blanks, newline]
  cases width with
  | zero =>
    cases ended with
    | true => exact cfgLoop_skip hfgets (.inr rfl)
    | false =>
      rw [hrest rfl, cfgLoop_nil, cfgLoop, hfgets]
      rfl
  | succ k =>
    have hhead : ¬ ((blanks (k + 1) ++ newline ended).head? = some '#' ∨
        (blanks (k + 1) ++ newline ended).head? = some '\n') := by
      simp [blanks, List.replicate_succ]
    cases ended with
    | true =>
      -- the newline is a token, and no option
      have htoken : strtok ' ' (blanks (k + 1) ++ newline true) =
        some (['\n'], []) := strtok_skip _
      rw [cfgLoop_tokens hfgets hhead hnull htoken, applyHandler,
        findHandler_eq_none (.inl rfl) List.mem_cons_self]
      rfl
    | false =>
      have hnone : strtok ' ' (blanks (k + 1) ++ newline false) = none :=
        strtok_skip _
      rw [hrest rfl, cfgLoop_nil, cfgLoop, hfgets]
      simp only [if_neg hhead, cString_eq hnull, hnone]

theorem cfgLoop_line {l : CfgLine}
    (hfgets : fgets bufsiz input = some (l.text ++ newline ended, rest))
    (hrest : ended = false → rest = []) :
    cfgLoop errno cpuCount (rounds + 1) input s =
      l.step errno cpuCount ended s >>= cfgLoop errno cpuCount rounds rest := by
  cases l with
  | comment t => exact cfgLoop_skip hfgets (.inl rfl)
  | blank width => exact cfgLoop_blank hfgets hrest
  | option name val => exact cfgLoop_option hfgets

theorem CfgLine.text_noNewline (l : CfgLine) : '\n' ∉ l.text := by
  cases l with
  | comment t => simp [CfgLine.text, t.2]
  | blank width => simp [CfgLine.text, blanks]
  | option name val => exact not_mem_option (by decide) Word.noNewline

theorem CfgLine.fgets_line {l : CfgLine} (hshort : l.text.length + 1 < bufsiz) :
    fgets bufsiz (l.text ++ '\n' :: rest) =
      some (l.text ++ newline true, rest) := by
  rw [fgets, if_neg (by simp), takeLine_line l.text_noNewline (by omega)]
  rfl

theorem CfgLine.fgets_last {l : CfgLine} (hne : l.text ≠ [])
    (hshort : l.text.length < bufsiz) :
    fgets bufsiz l.text = some (l.text ++ newline false, []) := by
  rw [fgets, if_neg hne, takeLine_last l.text_noNewline (by omega), newline,
    if_neg Bool.false_ne_true, List.append_nil]

theorem cfgLoop_last {l : CfgLine} (hshort : l.text.length < bufsiz)
    (hrounds : l.text.length ≤ rounds) :
    cfgLoop errno cpuCount rounds l.text s =
      l.step errno cpuCount false s := by
  by_cases hne : l.text = []
  · rw [hne, cfgLoop_nil]
    cases l with
    | comment t => cases hne
    | blank width => rfl
    | option name val => exact absurd (List.append_eq_nil_iff.mp hne).1 name.nonempty
  · have hpos := List.length_pos_iff.mpr hne
    obtain ⟨rounds, rfl⟩ := Nat.exists_eq_succ_of_ne_zero
      (by omega : rounds ≠ 0)
    rw [cfgLoop_line (CfgLine.fgets_last hne hshort) fun _ => rfl]
    cases l.step errno cpuCount false s with
    | error e => rfl
    | ok s => exact cfgLoop_nil

def CfgFile.run (errno cpuCount : Int) (file : CfgFile) (s : CfgState) :
    Except CfgStop CfgState :=
  file.lines.foldlM (fun s l => l.step errno cpuCount true s) s >>=
    fun s => match file.last with
      | none => .ok s
      | some l => l.step errno cpuCount false s

theorem cfgLoop_text {file : CfgFile} (hshort : file.Short)
    (hrounds : file.text.length ≤ rounds) :
    cfgLoop errno cpuCount rounds file.text s =
      file.run errno cpuCount s := by
  obtain ⟨lines, last⟩ := file
  induction lines generalizing s rounds with
  | nil =>
    cases last with
    | none => exact cfgLoop_nil
    | some l => exact cfgLoop_last (hshort.2 l rfl) hrounds
  | cons l lines ih =>
    have htext : CfgFile.text ⟨l :: lines, last⟩ =
        l.text ++ '\n' :: CfgFile.text ⟨lines, last⟩ := by
      simp [CfgFile.text]
    rw [htext] at hrounds ⊢
    rw [List.length_append, List.length_cons] at hrounds
    obtain ⟨rounds, rfl⟩ := Nat.exists_eq_succ_of_ne_zero
      (by omega : rounds ≠ 0)
    have hline := hshort.1 l List.mem_cons_self
    have hlines : CfgFile.Short ⟨lines, last⟩ :=
      ⟨fun l hl => hshort.1 l (List.mem_cons_of_mem _ hl), hshort.2⟩
    rw [cfgLoop_line (CfgLine.fgets_line hline) fun h => by cases h]
    simp only [CfgFile.run, List.foldlM_cons, bind_assoc]
    congr 1
    funext s
    exact ih hlines (by omega)

end Tokens

section Steps

variable {errno cpuCount : Int} {ended flag : Bool} {o : CfgOption}
  {l : CfgLine} {m : CfgMeaning} {s : CfgState} {v : List Char}

def CfgMeaning.stored (m : CfgMeaning) (flag : Bool) : Settings where
  maxks := BitVec.ofInt 32 m.maxks
  spinks := BitVec.ofInt 32 m.spinks
  guaranteedks := BitVec.ofInt 32 m.guaranteedks
  maxLoglevel := BitVec.ofInt 32 m.maxLoglevel
  disableWatchdog := flag

theorem Settings.stored_meaning (s : Settings) :
    s.meaning.stored s.disableWatchdog = s := by
  simp [Settings.meaning, CfgMeaning.stored]

def CfgOption.applied (errno cpuCount : Int) (o : CfgOption)
    (val : Option (List Char)) (s : CfgState) : Except CfgStop CfgState :=
  (o.fn errno cpuCount val s.settings).map fun settings =>
    ⟨settings, o :: s.parsed⟩

theorem applyHandler_name {val : Option (List Char)} :
    applyHandler errno cpuCount o.name val s =
      o.applied errno cpuCount val s := by
  rw [applyHandler, findHandler_name]
  rfl

theorem strToLong_ended :
    strToLong errno (v ++ newline ended) = strToLong errno v := by
  cases ended with
  | false => rw [newline, if_neg Bool.false_ne_true, List.append_nil]
  | true => exact strToLong_newline

namespace CfgLine

theorem names_cases (l : CfgLine) :
    (∃ o, ∀ o', l.names o' = decide (o' = o)) ∨ ∀ o, l.names o = false := by
  cases l with
  | comment t => exact .inr fun o => rfl
  | blank width => exact .inr fun o => rfl
  | option name val =>
    by_cases hname : ∃ o : CfgOption, name.text = o.name
    · obtain ⟨o, ho⟩ := hname
      refine .inl ⟨o, fun o' => ?_⟩
      rw [names, firstWord, ho, Bool.eq_iff_iff]
      simp only [beq_iff_eq, Option.some.injEq, decide_eq_true_eq]
      exact ⟨fun h => (CfgOption.name_injective h).symm, fun h => h ▸ rfl⟩
    · refine .inr fun o => ?_
      rw [not_exists] at hname
      simp [names, firstWord, hname o]

theorem names_option (hname : l.names o) :
    ∃ name val, l = option name val ∧ name.text = o.name := by
  cases l with
  | comment t => cases hname
  | blank width => cases hname
  | option name val =>
    refine ⟨name, val, rfl, ?_⟩
    simpa [names, firstWord] using hname

theorem step_value (hname : l.names o) (hvalue : l.value = some v) :
    l.step errno cpuCount ended s =
      o.applied errno cpuCount (some (v ++ newline ended)) s := by
  obtain ⟨name, val, rfl, htext⟩ := names_option hname
  cases val with
  | none => cases hvalue
  | some p =>
    cases hvalue
    rw [step, htext, applyHandler_name]

theorem step_newline (hvalue : l.value = none) :
    l.step errno cpuCount true s = .ok s := by
  cases l with
  | comment t => rfl
  | blank width => rfl
  | option name val =>
    cases val with
    | some p => cases hvalue
    | none =>
      have hnone : findHandler (name.text ++ newline true) = none :=
        findHandler_eq_none (.inl rfl)
          (List.mem_append_right _ List.mem_cons_self)
      rw [step, applyHandler, hnone]

theorem step_alone (hname : l.names o) (hvalue : l.value = none) :
    l.step errno cpuCount false s = o.applied errno cpuCount none s := by
  obtain ⟨name, val, rfl, htext⟩ := names_option hname
  cases val with
  | some p => cases hvalue
  | none =>
    rw [step, newline, if_neg Bool.false_ne_true, List.append_nil, htext,
      applyHandler_name]

theorem step_unknown (hunknown : ∀ o, l.names o = false) :
    l.step errno cpuCount ended s = .ok s := by
  by_cases hnewline : l.value = none ∧ ended = true
  · obtain ⟨hvalue, rfl⟩ := hnewline
    exact step_newline hvalue
  cases l with
  | comment t => rfl
  | blank width => rfl
  | option name val =>
    have hnone : findHandler name.text = none := by
      cases hfind : findHandler name.text with
      | none => rfl
      | some o =>
        have hname := hunknown o
        simp [names, firstWord, findHandler_eq_some.mp hfind] at hname
    cases val with
    | some p => rw [step, applyHandler, hnone]
    | none =>
      have hended : ended = false := by
        simpa [value] using hnewline
      rw [step, hended, newline, if_neg Bool.false_ne_true,
        List.append_nil, applyHandler, hnone]

theorem step_refused (h : l.Refused errno cpuCount) :
    l.step errno cpuCount ended s = .error (.returns (-einval)) := by
  obtain ⟨o, v, ho, hname, hvalue, hrefused⟩ := h
  rw [step_value hname hvalue, CfgOption.applied, CfgOption.fn_number ho]
  simp only [parseNumber, strToLong_ended]
  cases hnumber : strToLong errno v with
  | none => rfl
  | some n =>
    simp only [hrefused n hnumber]
    rfl

theorem step_fault (h : l.LacksValue) :
    l.step errno cpuCount false s = .error .fault := by
  obtain ⟨o, ho, hname, hvalue⟩ := h
  rw [step_alone hname hvalue, CfgOption.applied, CfgOption.fn_number ho]
  rfl

theorem given_eq (hnames : ∀ o', l.names o' = decide (o' = o))
    (o' : CfgOption) :
    l.given o' = if o' = o then l.value.bind numberGiven else none := by
  simp [given, hnames]

theorem given_eq_none (hvalue : l.value = none) : l.given o = none := by
  simp [given, hvalue]

theorem update_same (h : ∀ o, o ≠ .disableWatchdog → l.given o = none) :
    (l.update m).stored flag = m.stored flag := by
  simp [update, CfgMeaning.stored, h]

theorem update_store {n : Int} (ho : o ≠ .disableWatchdog)
    (hgiven : ∀ o', l.given o' = if o' = o then some n else none) :
    (l.update m).stored flag =
      o.store (BitVec.ofInt 32 n) (m.stored flag) := by
  cases o with
  | disableWatchdog => exact absurd rfl ho
  | _ => simp [update, hgiven, CfgOption.store, CfgMeaning.stored]

theorem value_word (hvalue : l.value = some v) : '\n' ∉ v ∧ '\x00' ∉ v := by
  unfold value at hvalue
  split at hvalue <;> cases hvalue
  exact ⟨Word.noNewline _, Word.noNull _⟩

end CfgLine

/-- The loop goes on with some settings, and a number of kthreads has been
parsed if `given`. -/
def GoesOn (r : Except CfgStop CfgState) (settings : Settings)
    (given : Prop) : Prop :=
  ∃ parsed, r = .ok ⟨settings, parsed⟩ ∧
    (.runtimeKthreads ∈ parsed ↔ given)

namespace CfgLine

def Taken (errno cpuCount : Int) (l : CfgLine) (ended : Bool) : Prop :=
  ∀ m flag parsed,
    GoesOn (l.step errno cpuCount ended ⟨CfgMeaning.stored m flag, parsed⟩)
      ((l.update m).stored (flag || l.flags ended))
      (.runtimeKthreads ∈ parsed ∨ l.given .runtimeKthreads ≠ none)

theorem taken_passed (hstep : ∀ s, l.step errno cpuCount ended s = .ok s)
    (hgiven : ∀ o, l.given o = none) (hflags : l.flags ended = false) :
    l.Taken errno cpuCount ended := by
  intro m flag parsed
  refine ⟨parsed, ?_, by simp [hgiven]⟩
  rw [hstep, update_same fun o _ => hgiven o, hflags, Bool.or_false]

theorem taken_number {n : Int} (hnames : ∀ o', l.names o' = decide (o' = o))
    (ho : o ≠ .disableWatchdog) (hvalue : l.value = some v)
    (hnumber : strToLong errno v = some n)
    (haccepts : o.accepts cpuCount n = true) :
    l.Taken errno cpuCount ended := by
  intro m flag parsed
  have hname : l.names o := by
    simp [hnames]
  have hgiven := given_eq hnames
  obtain ⟨hnewline, hnull⟩ := value_word hvalue
  simp only [hvalue, Option.bind_some,
    strToLong_given hnewline hnull hnumber] at hgiven
  have hflags : l.flags ended = false := by
    simp [flags, hnames, Ne.symm ho]
  refine ⟨o :: parsed, ?_, ?_⟩
  · rw [step_value hname hvalue, CfgOption.applied, CfgOption.fn_number ho,
      update_store ho hgiven, hflags]
    simp only [parseNumber, strToLong_ended, hnumber, haccepts, Bool.or_false]
    rfl
  · rw [hgiven, List.mem_cons]
    split_ifs with hk <;> simp [hk]

theorem taken_flag {val : Option (List Char)}
    (hnames : ∀ o', l.names o' = decide (o' = .disableWatchdog))
    (hflags : l.flags ended = true)
    (hstep : ∀ s, l.step errno cpuCount ended s =
      CfgOption.disableWatchdog.applied errno cpuCount val s) :
    l.Taken errno cpuCount ended := by
  intro m flag parsed
  have hgiven : ∀ o, o ≠ .disableWatchdog → l.given o = none := by
    intro o ho
    rw [given_eq hnames, if_neg ho]
  refine ⟨.disableWatchdog :: parsed, ?_, by simp [hgiven]⟩
  rw [update_same hgiven, hflags, Bool.or_true, hstep]
  rfl

theorem exists_accepted (hname : l.names o) (ho : o ≠ .disableWatchdog)
    (hvalue : l.value = some v) (hrefused : ¬ l.Refused errno cpuCount) :
    ∃ n, strToLong errno v = some n ∧ o.accepts cpuCount n = true := by
  by_contra hnone
  refine hrefused ⟨o, v, ho, hname, hvalue, fun n hnumber => ?_⟩
  by_contra haccepts
  exact hnone ⟨n, hnumber, Bool.eq_true_of_not_eq_false haccepts⟩

theorem taken_of_not_refused (hrefused : ¬ l.Refused errno cpuCount)
    (hlacks : ended = false → ¬ l.LacksValue) :
    l.Taken errno cpuCount ended := by
  rcases l.names_cases with ⟨o, hnames⟩ | hunknown
  · have hname : l.names o := by
      simp [hnames]
    cases hvalue : l.value with
    | some v =>
      by_cases ho : o = .disableWatchdog
      · subst ho
        exact taken_flag hnames (by simp [flags, hname, hvalue])
          fun s => step_value hname hvalue
      · obtain ⟨n, hnumber, haccepts⟩ :=
          exists_accepted hname ho hvalue hrefused
        exact taken_number hnames ho hvalue hnumber haccepts
    | none =>
      cases ended with
      | true =>
        exact taken_passed (fun s => step_newline hvalue)
          (fun o => given_eq_none hvalue) (by simp [flags, hvalue])
      | false =>
        by_cases ho : o = .disableWatchdog
        · subst ho
          exact taken_flag hnames (by simp [flags, hname])
            fun s => step_alone hname hvalue
        · exact absurd ⟨o, ho, hname, hvalue⟩ (hlacks rfl)
  · exact taken_passed (fun s => step_unknown hunknown)
      (fun o => by simp [given, hunknown]) (by simp [flags, hunknown])

end CfgLine

end Steps

section Runs

variable {errno cpuCount : Int} {s : CfgState} {lines : List CfgLine}
  {file : CfgFile}

theorem CfgState.stored_meaning (s : CfgState) :
    s = ⟨s.settings.meaning.stored s.settings.disableWatchdog, s.parsed⟩ := by
  rw [s.settings.stored_meaning]

theorem lines_refused (h : ∃ l ∈ lines, l.Refused errno cpuCount) :
    lines.foldlM (fun s l => l.step errno cpuCount true s) s =
      .error (.returns (-einval)) := by
  induction lines generalizing s with
  | nil => simp at h
  | cons l lines ih =>
    rw [List.foldlM_cons]
    by_cases hl : l.Refused errno cpuCount
    · rw [CfgLine.step_refused hl]
      rfl
    · have hlines : ∃ l ∈ lines, l.Refused errno cpuCount := by
        simpa [hl] using h
      have htaken : l.Taken errno cpuCount true :=
        CfgLine.taken_of_not_refused hl nofun
      obtain ⟨parsed, hstep, -⟩ :=
        htaken s.settings.meaning s.settings.disableWatchdog s.parsed
      rw [← s.stored_meaning] at hstep
      rw [hstep]
      exact ih hlines

theorem lines_taken (h : ∀ l ∈ lines, ¬ l.Refused errno cpuCount)
    (m : CfgMeaning) (flag : Bool) (parsed : List CfgOption) :
    GoesOn
      (lines.foldlM (fun s l => l.step errno cpuCount true s)
        ⟨m.stored flag, parsed⟩)
      ((lines.foldl CfgLine.update m).stored (flag || lines.any (·.flags true)))
      (.runtimeKthreads ∈ parsed ∨
        ∃ l ∈ lines, l.given .runtimeKthreads ≠ none) := by
  induction lines generalizing m flag parsed with
  | nil => exact ⟨parsed, by simp; rfl, by simp⟩
  | cons l lines ih =>
    have htaken : l.Taken errno cpuCount true :=
      CfgLine.taken_of_not_refused (h l List.mem_cons_self) nofun
    obtain ⟨parsed', hstep, hk⟩ := htaken m flag parsed
    obtain ⟨parsed'', hlines, hk'⟩ :=
      ih (fun l hl => h l (List.mem_cons_of_mem _ hl)) (l.update m)
        (flag || l.flags true) parsed'
    refine ⟨parsed'', ?_, ?_⟩
    · rw [List.foldlM_cons, hstep, List.foldl_cons, List.any_cons,
        ← Bool.or_assoc]
      exact hlines
    · rw [hk', hk]
      simp [or_assoc]

theorem run_last (h : ∀ l ∈ file.lines, ¬ l.Refused errno cpuCount)
    {l : CfgLine} (hl : l ∈ file.last) (s : CfgState) :
    ∃ s', file.run errno cpuCount s = l.step errno cpuCount false s' := by
  obtain ⟨parsed, hrun, -⟩ := lines_taken h s.settings.meaning
    s.settings.disableWatchdog s.parsed
  rw [← s.stored_meaning] at hrun
  rw [CfgFile.run, hrun, Option.mem_def.mp hl]
  exact ⟨_, rfl⟩

theorem file_refused (h : file.Refused errno cpuCount) :
    file.run errno cpuCount s = .error (.returns (-einval)) := by
  by_cases hlines : ∃ l ∈ file.lines, l.Refused errno cpuCount
  · rw [CfgFile.run, lines_refused hlines]
    rfl
  · obtain ⟨l, hl, hrefused⟩ := h
    simp only [not_exists, not_and] at hlines
    have hlast : l ∈ file.last := by
      rcases List.mem_append.mp hl with hl | hl
      · exact absurd hrefused (hlines l hl)
      · simpa using hl
    obtain ⟨s', hrun⟩ := run_last hlines hlast s
    rw [hrun, CfgLine.step_refused hrefused]

theorem CfgFile.not_refused (h : ¬ file.Refused errno cpuCount) :
    ∀ l ∈ file.all, ¬ l.Refused errno cpuCount :=
  fun l hl hr => h ⟨l, hl, hr⟩

theorem file_breaksOff (h : ¬ file.Refused errno cpuCount)
    (hbreaks : file.BreaksOff) : file.run errno cpuCount s = .error .fault := by
  obtain ⟨l, hl, hlacks⟩ := hbreaks
  obtain ⟨s', hrun⟩ := run_last
    (fun l hl => file.not_refused h l (List.mem_append_left _ hl)) hl s
  rw [hrun, CfgLine.step_fault hlacks]

theorem file_taken (h : ¬ file.Refused errno cpuCount)
    (hbreaks : ¬ file.BreaksOff) (start : Settings) :
    GoesOn (file.run errno cpuCount ⟨start, []⟩)
      ((file.meaning start).stored (start.disableWatchdog || file.flags))
      (∃ l ∈ file.all, l.given .runtimeKthreads ≠ none) := by
  have hall := CfgFile.not_refused h
  obtain ⟨parsed, hrun, hk⟩ := lines_taken
    (fun l hl => hall l (List.mem_append_left _ hl)) start.meaning
    start.disableWatchdog []
  rw [start.stored_meaning] at hrun
  rw [CfgFile.run, hrun]
  obtain ⟨lines, last⟩ := file
  cases last with
  | none =>
    refine ⟨parsed, ?_, ?_⟩
    · simp [CfgFile.meaning, CfgFile.all, CfgFile.flags]
      rfl
    · simpa [CfgFile.all] using hk
  | some l =>
    have hlast := hall l (List.mem_append_right _ List.mem_cons_self)
    have hlacks : ¬ l.LacksValue := fun hl => hbreaks ⟨l, rfl, hl⟩
    have htaken : l.Taken errno cpuCount false :=
      CfgLine.taken_of_not_refused hlast fun _ => hlacks
    obtain ⟨parsed', hstep, hk'⟩ := htaken
      (lines.foldl CfgLine.update start.meaning)
      (start.disableWatchdog || lines.any (·.flags true)) parsed
    refine ⟨parsed', hstep.trans ?_, ?_⟩
    · simp [CfgFile.meaning, CfgFile.all, CfgFile.flags, Bool.or_assoc]
    · rw [hk', hk]
      simp [CfgFile.all, or_and_right, exists_or]

end Runs

section Meanings

variable {errno cpuCount : Int} {o : CfgOption} {l : CfgLine} {n : Int}
  {lines : List CfgLine} {file : CfgFile} {start : Settings} {P : Int → Prop}

def CfgMeaning.get (m : CfgMeaning) : CfgOption → Int
  | .runtimeKthreads => m.maxks
  | .runtimeSpinningKthreads => m.spinks
  | .runtimeGuaranteedKthreads => m.guaranteedks
  | .logLevel => m.maxLoglevel
  | .disableWatchdog => 0

theorem CfgLine.get_update {m : CfgMeaning} (ho : o ≠ .disableWatchdog) :
    (l.update m).get o = (l.given o).getD (m.get o) := by
  cases o with
  | disableWatchdog => exact absurd rfl ho
  | _ => rfl

theorem get_foldl (ho : o ≠ .disableWatchdog)
    (hgiven : ∀ l ∈ lines, ∀ n, l.given o = some n → P n) (m : CfgMeaning)
    (hm : (∀ l ∈ lines, l.given o = none) → P (m.get o)) :
    P ((lines.foldl CfgLine.update m).get o) := by
  induction lines generalizing m with
  | nil => exact hm (by simp)
  | cons l lines ih =>
    apply ih fun l hl => hgiven l (List.mem_cons_of_mem _ hl)
    intro hnone
    rw [CfgLine.get_update ho]
    cases hl : l.given o with
    | none => exact hm (by simpa [hl] using hnone)
    | some n => exact hgiven l List.mem_cons_self n hl

theorem disableWatchdog_foldl (m : CfgMeaning) :
    (lines.foldl CfgLine.update m).disableWatchdog =
      (m.disableWatchdog || lines.any (·.names .disableWatchdog)) := by
  induction lines generalizing m with
  | nil => simp
  | cons l lines ih =>
    rw [List.foldl_cons, ih, List.any_cons, ← Bool.or_assoc]
    rfl

theorem CfgLine.given_accepted (ho : o ≠ .disableWatchdog)
    (hrefused : ¬ l.Refused errno cpuCount) (h : l.given o = some n) :
    o.accepts cpuCount n = true := by
  rw [given] at h
  split_ifs at h with hname
  obtain ⟨v, hvalue, hn⟩ := Option.bind_eq_some_iff.mp h
  obtain ⟨n', hnumber, haccepts⟩ := exists_accepted hname ho hvalue hrefused
  obtain ⟨hnewline, hnull⟩ := value_word hvalue
  rw [strToLong_given hnewline hnull hnumber] at hn
  rwa [← Option.some.inj hn]

theorem CfgFile.get_meaning (h : ¬ file.Refused errno cpuCount) (o : CfgOption)
    (ho : o ≠ .disableWatchdog) (P : Int → Prop)
    (haccepts : ∀ n, o.accepts cpuCount n = true → P n)
    (hstart : (∀ l ∈ file.all, l.given o = none) → P (start.meaning.get o)) :
    P ((file.meaning start).get o) := by
  refine get_foldl ho (fun l hl n hn => ?_) _ hstart
  exact haccepts n (CfgLine.given_accepted ho (not_refused h l hl) hn)

structure InRange (cpuCount : Int) (m : CfgMeaning) : Prop where
  maxks : 1 ≤ m.maxks ∧ m.maxks ≤ cpuCount - 1
  spinks : 0 ≤ m.spinks
  guaranteedks : m.guaranteedks < 2 ^ 32
  maxLoglevel : -2 ^ 31 ≤ m.maxLoglevel ∧ m.maxLoglevel < 2 ^ 31

theorem CfgFile.inRange (start : Settings) (hcpu : cpuCount < 2 ^ 31)
    (h : ¬ file.Refused errno cpuCount)
    (hk : ∃ l ∈ file.all, l.given .runtimeKthreads ≠ none) :
    InRange cpuCount (file.meaning start) where
  maxks := by
    apply get_meaning h .runtimeKthreads (by decide)
      (fun n => 1 ≤ n ∧ n ≤ cpuCount - 1)
    · intro n hn
      simpa [CfgOption.accepts] using hn
    · intro hnone
      obtain ⟨l, hl, hgiven⟩ := hk
      exact absurd (hnone l hl) hgiven
  spinks := by
    apply get_meaning h .runtimeSpinningKthreads (by decide) (fun n => 0 ≤ n)
    · intro n hn
      simpa [CfgOption.accepts] using hn
    · intro _
      exact Int.natCast_nonneg _
  guaranteedks := by
    apply get_meaning h .runtimeGuaranteedKthreads (by decide)
      (fun n => n < 2 ^ 32)
    · intro n hn
      simp only [CfgOption.accepts, decide_eq_true_eq] at hn
      omega
    · intro _
      have hlt := start.guaranteedks.isLt
      simp only [CfgMeaning.get, Settings.meaning]
      omega
  maxLoglevel := by
    apply get_meaning h .logLevel (by decide)
      (fun n => -2 ^ 31 ≤ n ∧ n < 2 ^ 31)
    · intro n hn
      simp only [CfgOption.accepts, Bool.and_eq_true, decide_eq_true_eq] at hn
      unfold logEmerg logDebug at hn
      omega
    · intro _
      exact ⟨BitVec.le_toInt start.maxLoglevel, BitVec.toInt_lt⟩

theorem toNat_ofInt (n : Int) :
    ((BitVec.ofInt 32 n).toNat : Int) = n % 2 ^ 32 := by
  rw [BitVec.toNat_ofInt]
  omega

theorem InRange.stored_iff {m : CfgMeaning} (h : InRange cpuCount m)
    (hcpu : cpuCount < 2 ^ 31) (flag : Bool) :
    (m.stored flag).meaning = m ↔
      m.spinks < 2 ^ 32 ∧ 0 ≤ m.guaranteedks ∧ flag = m.disableWatchdog := by
  obtain ⟨maxks, spinks, guaranteedks, maxLoglevel, watchdog⟩ := m
  have hmaxks : maxks % 2 ^ 32 = maxks := by
    have hrange := h.maxks
    simp only at hrange
    omega
  have hlevel : (BitVec.ofInt 32 maxLoglevel).toInt = maxLoglevel := by
    have hrange := h.maxLoglevel
    simp only at hrange
    rw [BitVec.toInt_ofInt]
    exact Int.bmod_eq_of_le (by omega) (by omega)
  have hspinks := h.spinks
  have hguaranteed := h.guaranteedks
  simp only [CfgMeaning.stored, Settings.meaning, toNat_ofInt, hmaxks, hlevel,
    CfgMeaning.mk.injEq, true_and] at hspinks hguaranteed ⊢
  constructor
  · rintro ⟨h1, h2, h3⟩
    refine ⟨by omega, by omega, h3⟩
  · rintro ⟨h1, h2, h3⟩
    refine ⟨by omega, by omega, h3⟩

end Meanings

section Loading

variable {errno cpuCount : Int} {file : CfgFile} {start : Settings}

theorem cfgLoad_text (hshort : file.Short) :
    cfgLoad errno cpuCount (.ok file.text) start =
      file.run errno cpuCount ⟨start, []⟩ >>= cfgFinish := by
  rw [cfgLoad, cfgLoop_text hshort le_rfl]

variable {parsed : List CfgOption}

theorem required_missing :
    (cfgHandlers.any fun h => h.required && !parsed.contains h) = true ↔
      .runtimeKthreads ∉ parsed := by
  simp [cfgHandlers, CfgOption.required]

theorem cfgFinish_missing {settings : Settings}
    (h : .runtimeKthreads ∉ parsed) :
    cfgFinish ⟨settings, parsed⟩ = .error (.returns (-einval)) := by
  rw [cfgFinish, if_pos (required_missing.mpr h)]

theorem cfgFinish_stored {m : CfgMeaning} {flag : Bool}
    (hcpu : cpuCount < 2 ^ 31) (hrange : InRange cpuCount m)
    (h : .runtimeKthreads ∈ parsed) :
    cfgFinish ⟨m.stored flag, parsed⟩ =
      if m.maxks < m.guaranteedks % 2 ^ 32 then .error (.returns (-einval))
      else .ok (m.stored flag) := by
  have hpresent : ¬ (cfgHandlers.any fun h =>
      h.required && !parsed.contains h) = true := by
    rw [required_missing, not_not]
    exact h
  have hmaxks : m.maxks % 2 ^ 32 = m.maxks := by
    have := hrange.maxks
    omega
  have hlt : (m.stored flag).guaranteedks > (m.stored flag).maxks ↔
      m.maxks < m.guaranteedks % 2 ^ 32 := by
    rw [gt_iff_lt, BitVec.lt_def, ← Int.ofNat_lt]
    simp only [CfgMeaning.stored, toNat_ofInt, hmaxks]
  rw [cfgFinish, if_neg hpresent]
  simp only [hlt]

theorem CfgFile.names_of_flags (h : file.flags = true) :
    ∃ l ∈ file.all, l.names .disableWatchdog := by
  rw [flags, Bool.or_eq_true, List.any_eq_true, Option.any_eq_true] at h
  rcases h with ⟨l, hl, hflags⟩ | ⟨l, hl, hflags⟩
  · rw [CfgLine.flags, Bool.and_eq_true] at hflags
    exact ⟨l, List.mem_append_left _ hl, hflags.1⟩
  · rw [CfgLine.flags, Bool.and_eq_true] at hflags
    exact ⟨l, List.mem_append_right _ (by simp [hl]), hflags.1⟩

theorem CfgFile.flags_eq_iff (hstart : start.disableWatchdog = false) :
    (start.disableWatchdog || file.flags) =
        (file.meaning start).disableWatchdog ↔
      ((∃ l ∈ file.all, l.names .disableWatchdog) → file.flags) := by
  have hmeaning : (file.meaning start).disableWatchdog = true ↔
      ∃ l ∈ file.all, l.names .disableWatchdog := by
    rw [meaning, disableWatchdog_foldl, Settings.meaning, hstart,
      Bool.false_or, List.any_eq_true]
  rw [hstart, Bool.false_or, Bool.eq_iff_iff, hmeaning]
  exact ⟨fun h => h.mpr, fun h => ⟨names_of_flags, h⟩⟩

theorem law_finish (hcpu : cpuCount < 2 ^ 31)
    (hstart : start.disableWatchdog = false)
    (hrange : InRange cpuCount (file.meaning start))
    (hparsed : .runtimeKthreads ∈ parsed)
    (hgiven : ∃ l ∈ file.all, l.given .runtimeKthreads ≠ none) :
    CfgLaw cpuCount start file
        (cfgFinish ⟨(file.meaning start).stored
          (start.disableWatchdog || file.flags), parsed⟩) ↔
      file.Inconsistent start ∨ file.Understood start := by
  rw [cfgFinish_stored hcpu hrange hparsed]
  split_ifs with hless
  · have hinconsistent : file.Inconsistent start := .inr hless
    simp only [hinconsistent, true_or, iff_true]
    exact fun h => by cases h
  · have hconsistent : ¬ file.Inconsistent start := by
      rintro (hnone | hlt)
      · obtain ⟨l, hl, hsome⟩ := hgiven
        exact hsome (hnone l hl)
      · exact hless hlt
    simp only [hconsistent, false_or]
    rw [CfgLaw, meets_ok, CfgFile.Understood, ← CfgFile.flags_eq_iff hstart]
    have hstored := hrange.stored_iff hcpu
      (start.disableWatchdog || file.flags)
    constructor
    · rintro ⟨hmeaning, -, -, hlacks⟩
      exact ⟨hlacks, hstored.mp hmeaning⟩
    · rintro ⟨hlacks, hfits⟩
      have hmeaning := hstored.mpr hfits
      have hguaranteed := hrange.guaranteedks
      have hnonneg := hfits.2.1
      rw [hmeaning]
      refine ⟨rfl, hrange.maxks, ⟨hnonneg, ?_⟩, hlacks⟩
      rw [Int.emod_eq_of_lt hnonneg hguaranteed] at hless
      exact not_lt.mp hless

def CfgOption.word (o : CfgOption) : Word where
  text := o.name
  nonempty := by cases o <;> decide
  noBlank := by cases o <;> decide
  noNewline := mem_name (.inl rfl)
  noNull := by cases o <;> decide

theorem not_mem_toDigits {c : Char} (hc : c.isDigit = false) (n : Nat) :
    c ∉ Nat.toDigits 10 n := by
  intro hmem
  have hdigit := Nat.isDigit_of_mem_toDigits (by decide) (Nat.le_refl 10) hmem
  rw [hc] at hdigit
  cases hdigit

def numeralWord (n : Nat) : Word where
  text := Nat.toDigits 10 n
  nonempty := Nat.toDigits_ne_nil
  noBlank := not_mem_toDigits (by decide) n
  noNewline := not_mem_toDigits (by decide) n
  noNull := not_mem_toDigits (by decide) n

def CfgLine.number (o : CfgOption) (n : Nat) : CfgLine :=
  .option o.word (some (0, numeralWord n))

def CfgLine.alone (o : CfgOption) : CfgLine := .option o.word none

def initialSettings : Settings := ⟨0, 0, 1, 0, false⟩

/-- Loading a file does as the file says exactly if a value is refused, or the
file does not break off and its numbers of kthreads are inconsistent, or every
option comes through. -/
theorem cfg_load_iff (hcpu : cpuCount < 2 ^ 31) (hshort : file.Short)
    (hstart : start.disableWatchdog = false) :
    CfgLaw cpuCount start file (cfgLoad errno cpuCount (.ok file.text) start) ↔
      file.Refused errno cpuCount ∨
        (¬ file.BreaksOff ∧ file.Inconsistent start) ∨
        file.Understood start := by
  rw [cfgLoad_text hshort]
  by_cases hrefused : file.Refused errno cpuCount
  · rw [file_refused hrefused]
    simp only [hrefused, true_or, iff_true]
    exact fun h => by cases h
  by_cases hbreaks : file.BreaksOff
  · rw [file_breaksOff hrefused hbreaks]
    have hlacks : ¬ file.Understood start := by
      obtain ⟨l, hl, hlacks⟩ := hbreaks
      intro h
      exact h.1 l (List.mem_append_right _ (by simpa using hl)) hlacks
    simp only [hrefused, hbreaks, hlacks, not_true_eq_false, false_and,
      or_self, iff_false]
    exact fun h => h rfl
  obtain ⟨parsed, hrun, hk⟩ := file_taken hrefused hbreaks start
  rw [hrun]
  simp only [hrefused, hbreaks, not_false_eq_true, true_and, false_or]
  by_cases hgiven : ∃ l ∈ file.all, l.given .runtimeKthreads ≠ none
  · have hrange := CfgFile.inRange start hcpu hrefused hgiven
    exact law_finish hcpu hstart hrange (hk.mpr hgiven) hgiven
  · have hmissing : .runtimeKthreads ∉ parsed := fun h => hgiven (hk.mp h)
    have hinconsistent : file.Inconsistent start := by
      refine .inl fun l hl => ?_
      by_contra h
      exact hgiven ⟨l, hl, h⟩
    simp only [hinconsistent, true_or, iff_true]
    show CfgLaw cpuCount start file (cfgFinish _)
    rw [cfgFinish_missing hmissing]
    exact fun h => by cases h

/-- Eight processors, and the numbers of the test's configuration file. -/
theorem cfg_load_iff_four :
    CfgLaw 8 initialSettings
      ⟨[.number .runtimeKthreads 4, .number .runtimeSpinningKthreads 4], none⟩
      (cfgLoad 0 8 (.ok (CfgFile.text
        ⟨[.number .runtimeKthreads 4, .number .runtimeSpinningKthreads 4],
          none⟩)) initialSettings) := by
  refine (cfg_load_iff (by decide) ⟨by decide, by simp⟩ rfl).mpr
    (.inr (.inr ⟨?_, by decide, by decide, ?_⟩))
  · intro l hl
    have hmem : l = .number .runtimeKthreads 4 ∨
        l = .number .runtimeSpinningKthreads 4 := by
      simpa [CfgFile.all] using hl
    rcases hmem with rfl | rfl
    · rintro ⟨o, -, -, hvalue⟩
      cases hvalue
    · rintro ⟨o, -, -, hvalue⟩
      cases hvalue
  · intro hnames
    have hnone : ¬ ∃ l ∈ (CfgFile.mk [.number .runtimeKthreads 4,
        .number .runtimeSpinningKthreads 4] none).all,
        l.names .disableWatchdog = true := by
      decide
    exact absurd hnames hnone

theorem not_cfgLaw_of_ne {r : Except CfgStop Settings} {s : Settings}
    (hr : r = .ok s) (hne : s.meaning ≠ file.meaning start) :
    ¬ CfgLaw cpuCount start file r := by
  rw [hr]
  exact fun h => hne h.1

/-- The flag with its newline, a missing value before a newline and one at the
end of the file, and a number that does not fit. -/
theorem four_files_misread :
    [CfgFile.mk [.number .runtimeKthreads 4, .alone .disableWatchdog] none,
      CfgFile.mk [.number .runtimeKthreads 4,
        .alone .runtimeSpinningKthreads] none,
      CfgFile.mk [.number .runtimeKthreads 4]
        (some (.alone .runtimeSpinningKthreads)),
      CfgFile.mk [.number .runtimeKthreads 4,
        .number .runtimeSpinningKthreads (2 ^ 32)] none].Forall fun file =>
      file.Short ∧ ¬ CfgLaw 8 initialSettings file
        (cfgLoad 0 8 (.ok file.text) initialSettings) := by
  refine ⟨⟨⟨by decide, by simp⟩, ?_⟩, ⟨⟨by decide, by simp⟩, ?_⟩,
    ⟨⟨by decide, ?_⟩, ?_⟩, ⟨by decide, by simp⟩, ?_⟩
  · have hload : cfgLoad 0 8
        (.ok "runtime_kthreads 4\ndisable_watchdog\n".toList)
        initialSettings = .ok ⟨4, 0, 1, 0, false⟩ := by
      decide
    exact not_cfgLaw_of_ne hload (by decide)
  · have hload : cfgLoad 0 8
        (.ok "runtime_kthreads 4\nruntime_spinning_kthreads\n".toList)
        initialSettings = .ok ⟨4, 0, 1, 0, false⟩ := by
      decide
    intro h
    have hlaw := hload ▸ h
    refine hlaw.2.2.2 (.alone .runtimeSpinningKthreads) ?_
      ⟨.runtimeSpinningKthreads, by decide, by decide, rfl⟩
    exact List.mem_cons_of_mem _ List.mem_cons_self
  · intro l hl
    cases hl
    decide
  · have hload : cfgLoad 0 8
        (.ok "runtime_kthreads 4\nruntime_spinning_kthreads".toList)
        initialSettings = .error .fault := by
      decide
    intro h
    exact (hload ▸ h : CfgLaw 8 initialSettings _ (.error .fault)) rfl
  · have hload : cfgLoad 0 8
        (.ok "runtime_kthreads 4\nruntime_spinning_kthreads 4294967296\n".toList)
        initialSettings = .ok ⟨4, 0, 1, 0, false⟩ := by
      decide
    exact not_cfgLaw_of_ne hload (by decide)

end Loading

end Libut.Runtime
