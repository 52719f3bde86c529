import Mathlib.Data.List.TakeWhile
import Mathlib.Tactic

/-!
Text as the C library reads it: characters in a list, whose end stands for the
terminating null character. The conversions of numerals skip white space, take
a sign and then as many digits as there are, and say where they stop; a pointer
into a text is what is left of it.
-/

namespace Libut.Machine

/-- `isspace` in the C locale -/
def isSpace (c : Char) : Bool := c == ' ' || '\t' ≤ c && c ≤ '\r'

def digitValue (c : Char) : Option Nat :=
  if '0' ≤ c ∧ c ≤ '9' then some (c.toNat - '0'.toNat)
  else if 'a' ≤ c ∧ c ≤ 'z' then some (c.toNat - 'a'.toNat + 10)
  else if 'A' ≤ c ∧ c ≤ 'Z' then some (c.toNat - 'A'.toNat + 10)
  else none

def isDigit (base : Nat) (c : Char) : Bool :=
  match digitValue c with
  | some d => d < base
  | none => false

/-- Takes digits from a text, after others with the value `acc`. -/
def takeDigits (base : Nat) : Nat → List Char → Nat × List Char
  | acc, [] => (acc, [])
  | acc, c :: text =>
    if isDigit base c then
      takeDigits base (acc * base + (digitValue c).getD 0) text
    else (acc, c :: text)

def readDigits (base : Nat) : List Char → Option (Nat × List Char)
  | [] => none
  | c :: text =>
    if isDigit base c then some (takeDigits base 0 (c :: text)) else none

/-- The digits of a constant, in a base that their first characters tell. An
`x` without a digit after it does not belong to the constant. -/
def readConstant : List Char → Option (Nat × List Char)
  | '0' :: x :: text =>
    if x = 'x' ∨ x = 'X' then some ((readDigits 16 text).getD (0, x :: text))
    else readDigits 8 ('0' :: x :: text)
  | text => readDigits 10 text

structure Numeral where
  negative : Bool
  magnitude : Nat
  stop : List Char
  deriving DecidableEq, Repr

def readNumeral (digits : List Char → Option (Nat × List Char))
    (text : List Char) : Option Numeral :=
  match text.dropWhile isSpace with
  | '-' :: rest => (digits rest).map fun r => ⟨true, r.1, r.2⟩
  | '+' :: rest => (digits rest).map fun r => ⟨false, r.1, r.2⟩
  | rest => (digits rest).map fun r => ⟨false, r.1, r.2⟩

structure Converted (α : Type) where
  val : α
  stop : List Char
  errno : Int
  deriving DecidableEq, Repr

def erange : Int := 34

def ullongMax : Nat := 2 ^ 64 - 1

/-- `strtoull` with base 0 -/
def strtoull (text : List Char) (errno : Int) : Converted Nat :=
  match readNumeral readConstant text with
  | none => ⟨0, text, errno⟩
  | some n =>
    if ullongMax < n.magnitude then ⟨ullongMax, n.stop, erange⟩
    else if n.negative then ⟨(2 ^ 64 - n.magnitude) % 2 ^ 64, n.stop, errno⟩
    else ⟨n.magnitude, n.stop, errno⟩

def longMin : Int := -2 ^ 63

def longMax : Int := 2 ^ 63 - 1

def Numeral.value (n : Numeral) : Int :=
  if n.negative then -n.magnitude else n.magnitude

/-- `strtol` with base 10 -/
def strtol (text : List Char) (errno : Int) : Converted Int :=
  match readNumeral (readDigits 10) text with
  | none => ⟨0, text, errno⟩
  | some n =>
    if n.value < longMin then ⟨longMin, n.stop, erange⟩
    else if longMax < n.value then ⟨longMax, n.stop, erange⟩
    else ⟨n.value, n.stop, errno⟩

/-- `strtok` with one delimiter: the next token and what is left after it -/
def strtok (delim : Char) (text : List Char) :
    Option (List Char × List Char) :=
  match text.dropWhile (· == delim) with
  | [] => none
  | c :: rest =>
    some ((c :: rest).takeWhile (· != delim),
      ((c :: rest).dropWhile (· != delim)).drop 1)

/-- Takes a line with its newline, or the first `n` characters of it. -/
def takeLine : Nat → List Char → List Char × List Char
  | 0, input => ([], input)
  | _ + 1, [] => ([], [])
  | n + 1, c :: input =>
    if c = '\n' then ([c], input)
    else (c :: (takeLine n input).1, (takeLine n input).2)

/-- `fgets` for a buffer of some size, with what is left of the input -/
def fgets (size : Nat) (input : List Char) : Option (List Char × List Char) :=
  if input = [] then none else some (takeLine (size - 1) input)

section Progress

variable {base acc n : Nat} {text rest : List Char}

theorem takeDigits_suffix : (takeDigits base acc text).2 <:+ text := by
  fun_induction takeDigits base acc text with
  | case1 acc => exact List.suffix_rfl
  | case2 acc c text hdigit ih => exact ih.trans (List.suffix_cons c text)
  | case3 acc c text hdigit => exact List.suffix_rfl

theorem readDigits_suffix (h : readDigits base text = some (n, rest)) :
    rest <:+ text := by
  cases text with
  | nil => cases h
  | cons c text =>
    rw [readDigits] at h
    split_ifs at h with hdigit
    have hrest : (takeDigits base 0 (c :: text)).2 = rest :=
      congrArg Prod.snd (Option.some.inj h)
    rw [← hrest]
    exact takeDigits_suffix

theorem readDigits_length (h : readDigits base text = some (n, rest)) :
    rest.length < text.length := by
  cases text with
  | nil => cases h
  | cons c text =>
    rw [readDigits] at h
    split_ifs at h with hdigit
    rw [takeDigits, if_pos hdigit] at h
    have hrest : (takeDigits base _ text).2 = rest :=
      congrArg Prod.snd (Option.some.inj h)
    rw [← hrest]
    exact Nat.lt_succ_of_le takeDigits_suffix.length_le

theorem readConstant_length (h : readConstant text = some (n, rest)) :
    rest.length < text.length := by
  unfold readConstant at h
  split at h
  · rename_i x text
    split_ifs at h with hx
    · cases hdigits : readDigits 16 text with
      | none =>
        rw [hdigits] at h
        cases h
        exact Nat.lt_succ_self _
      | some r =>
        rw [hdigits] at h
        cases h
        have hshort := readDigits_length hdigits
        exact hshort.trans_le (Nat.le_add_right _ 2)
    · exact readDigits_length h
  · exact readDigits_length h

theorem readNumeral_length {digits : List Char → Option (Nat × List Char)}
    {m : Numeral} (hdigits : ∀ text n rest, digits text = some (n, rest) →
      rest.length < text.length) (h : readNumeral digits text = some m) :
    m.stop.length < text.length := by
  have hdrop := (List.dropWhile_sublist (l := text) isSpace).length_le
  rw [readNumeral] at h
  split at h
  all_goals
    obtain ⟨⟨n, rest⟩, hread, rfl⟩ := Option.map_eq_some_iff.mp h
    have hshort := hdigits _ _ _ hread
  · rename_i rest' heq
    rw [heq, List.length_cons] at hdrop
    exact hshort.trans (Nat.lt_of_succ_le hdrop)
  · rename_i rest' heq
    rw [heq, List.length_cons] at hdrop
    exact hshort.trans (Nat.lt_of_succ_le hdrop)
  · exact hshort.trans_le hdrop

theorem readNumeral_suffix {m : Numeral}
    (h : readNumeral (readDigits base) text = some m) : m.stop <:+ text := by
  have hdrop := List.dropWhile_suffix (l := text) isSpace
  rw [readNumeral] at h
  split at h
  all_goals
    obtain ⟨⟨n, rest⟩, hread, rfl⟩ := Option.map_eq_some_iff.mp h
    have hstop := readDigits_suffix hread
  · rename_i rest' heq
    rw [heq] at hdrop
    exact (hstop.trans (List.suffix_cons _ _)).trans hdrop
  · rename_i rest' heq
    rw [heq] at hdrop
    exact (hstop.trans (List.suffix_cons _ _)).trans hdrop
  · exact hstop.trans hdrop

theorem strtoull_length {errno : Int} (hstop : (strtoull text errno).stop ≠ text) :
    (strtoull text errno).stop.length < text.length := by
  unfold strtoull at hstop ⊢
  split
  · rename_i hnone
    rw [hnone] at hstop
    exact absurd rfl hstop
  · rename_i m hsome
    have hshort := readNumeral_length
      (fun _ _ _ => readConstant_length) hsome
    split_ifs <;> exact hshort

end Progress

section Lines

variable {text more : List Char} {n : Nat}

theorem takeLine_line (hline : '\n' ∉ text) (hlen : text.length < n) :
    takeLine n (text ++ '\n' :: more) = (text ++ ['\n'], more) := by
  induction text generalizing n with
  | nil =>
    obtain ⟨n, rfl⟩ := Nat.exists_eq_succ_of_ne_zero (by omega : n ≠ 0)
    simp [takeLine]
  | cons c text ih =>
    obtain ⟨n, rfl⟩ := Nat.exists_eq_succ_of_ne_zero (by omega : n ≠ 0)
    rw [List.mem_cons, not_or] at hline
    rw [List.cons_append, takeLine, if_neg (Ne.symm hline.1),
      ih hline.2 (by simpa using hlen)]
    rfl

theorem takeLine_last (hline : '\n' ∉ text) (hlen : text.length ≤ n) :
    takeLine n text = (text, []) := by
  induction text generalizing n with
  | nil => cases n <;> rfl
  | cons c text ih =>
    rw [List.length_cons] at hlen
    obtain ⟨n, rfl⟩ := Nat.exists_eq_succ_of_ne_zero (by omega : n ≠ 0)
    rw [List.mem_cons, not_or] at hline
    rw [takeLine, if_neg (Ne.symm hline.1), ih hline.2 (by omega)]

end Lines

section Tokens

variable {delim : Char} {token rest : List Char}

theorem strtok_token (hne : token ≠ []) (htoken : delim ∉ token) :
    strtok delim (token ++ delim :: rest) = some (token, rest) := by
  obtain ⟨c, tail, rfl⟩ := List.exists_cons_of_ne_nil hne
  have hc : c ≠ delim := fun h => htoken (h ▸ List.mem_cons_self)
  have hall : ∀ x ∈ c :: tail, (x != delim) = true := by
    intro x hx
    exact bne_iff_ne.mpr fun h => htoken (h ▸ hx)
  have hskip : (c :: tail ++ delim :: rest).dropWhile (· == delim) =
      c :: (tail ++ delim :: rest) := by
    rw [List.cons_append, List.dropWhile_cons_of_neg (by simpa using hc)]
  rw [strtok, hskip]
  simp only [← List.cons_append, List.takeWhile_append_of_pos hall,
    List.dropWhile_append_of_pos hall]
  simp

theorem strtok_last (hne : token ≠ []) (htoken : delim ∉ token) :
    strtok delim token = some (token, []) := by
  obtain ⟨c, tail, rfl⟩ := List.exists_cons_of_ne_nil hne
  have hc : c ≠ delim := fun h => htoken (h ▸ List.mem_cons_self)
  have hall : ∀ x ∈ c :: tail, (x != delim) = true := by
    intro x hx
    exact bne_iff_ne.mpr fun h => htoken (h ▸ hx)
  rw [strtok, List.dropWhile_cons_of_neg (by simpa using hc)]
  simp only [List.takeWhile_eq_self_iff.mpr hall,
    List.dropWhile_eq_nil_iff.mpr hall, List.drop_nil]

theorem strtok_skip (k : Nat) :
    strtok delim (List.replicate k delim ++ rest) = strtok delim rest := by
  induction k with
  | zero => rfl
  | succ k ih =>
    rw [← ih, List.replicate_succ, List.cons_append, strtok,
      List.dropWhile_cons_of_pos (by simp), ← strtok]

end Tokens

section Newlines

variable {base acc : Nat} {text : List Char}

def withNewline (r : Nat × List Char) : Nat × List Char := (r.1, r.2 ++ ['\n'])

theorem takeDigits_newline (hbase : isDigit base '\n' = false) :
    takeDigits base acc (text ++ ['\n']) =
      withNewline (takeDigits base acc text) := by
  fun_induction takeDigits base acc text with
  | case1 acc => simp [takeDigits, hbase, withNewline]
  | case2 acc c text hdigit ih =>
    rw [List.cons_append, takeDigits, if_pos hdigit, ih]
  | case3 acc c text hdigit =>
    rw [List.cons_append, takeDigits, if_neg hdigit]
    rfl

theorem readDigits_newline :
    readDigits 10 (text ++ ['\n']) = (readDigits 10 text).map withNewline := by
  cases text with
  | nil => rfl
  | cons c text =>
    rw [List.cons_append, readDigits, readDigits]
    split_ifs with hdigit
    · rw [← List.cons_append, takeDigits_newline (by decide)]
      rfl
    · rfl

theorem readNumeral_newline :
    readNumeral (readDigits 10) (text ++ ['\n']) =
      (readNumeral (readDigits 10) text).map fun n =>
        { n with stop := n.stop ++ ['\n'] } := by
  rw [readNumeral, readNumeral, List.dropWhile_append]
  generalize text.dropWhile isSpace = rest
  cases rest with
  | nil => rfl
  | cons c rest =>
    rw [if_neg (by simp), List.cons_append]
    by_cases hminus : c = '-'
    · subst hminus
      simp only [readDigits_newline, Option.map_map]
      rfl
    by_cases hplus : c = '+'
    · subst hplus
      simp only [readDigits_newline, Option.map_map]
      rfl
    have hread : readDigits 10 (c :: rest ++ ['\n']) = _ := readDigits_newline
    rw [List.cons_append] at hread
    simp [hminus, hplus, hread, Function.comp_def, withNewline]

end Newlines

section Decimals

variable {n acc : Nat} {rest : List Char}

def NoDigit (text : List Char) : Prop := ∀ c ∈ text.head?, digitValue c = none

theorem digitValue_digitChar {d : Nat} (hd : d < 10) :
    digitValue d.digitChar = some d := by
  interval_cases d <;> decide

theorem takeDigits_noDigit {base : Nat} (hrest : NoDigit rest) :
    takeDigits base acc rest = (acc, rest) := by
  cases rest with
  | nil => rfl
  | cons c rest =>
    have hnone : digitValue c = none := hrest c rfl
    rw [takeDigits, if_neg]
    simp [isDigit, hnone]

theorem takeDigits_digitChar {d : Nat} (hd : d < 10) :
    takeDigits 10 acc (d.digitChar :: rest) =
      takeDigits 10 (acc * 10 + d) rest := by
  have hvalue := digitValue_digitChar hd
  rw [takeDigits, if_pos (by simp [isDigit, hvalue, hd]), hvalue]
  rfl

theorem takeDigits_toDigits :
    takeDigits 10 acc (Nat.toDigits 10 n ++ rest) =
      takeDigits 10 (acc * 10 ^ (Nat.toDigits 10 n).length + n) rest := by
  induction n using Nat.strong_induction_on generalizing rest with
  | _ n ih =>
    rw [Nat.toDigits_eq_if (by decide)]
    split_ifs with hn
    · exact takeDigits_digitChar hn
    · rw [List.append_assoc, ih (n / 10) (by omega), List.singleton_append,
        takeDigits_digitChar (Nat.mod_lt n (by decide)), List.length_append,
        List.length_singleton, Nat.pow_succ]
      congr 1
      have hsplit := Nat.div_add_mod n 10
      rw [Nat.add_mul, Nat.mul_assoc]
      omega

theorem toDigits_eq_cons (n : Nat) :
    ∃ d tail, Nat.toDigits 10 n = d.digitChar :: tail ∧ d < 10 ∧
      (d = 0 → n = 0 ∧ tail = []) := by
  induction n using Nat.strong_induction_on with
  | _ n ih =>
    rw [Nat.toDigits_eq_if (by decide)]
    split_ifs with hn
    · exact ⟨n, [], rfl, hn, fun hd => ⟨hd, rfl⟩⟩
    · obtain ⟨d, tail, hcons, hd, hzero⟩ := ih (n / 10) (by omega)
      refine ⟨d, tail ++ [(n % 10).digitChar], ?_, hd, fun hd => ?_⟩
      · rw [hcons, List.cons_append]
      · have hdiv := (hzero hd).1
        omega

theorem readDigits_toDigits (hrest : NoDigit rest) :
    readDigits 10 (Nat.toDigits 10 n ++ rest) = some (n, rest) := by
  obtain ⟨d, tail, hcons, hd, -⟩ := toDigits_eq_cons n
  have hread : takeDigits 10 0 (Nat.toDigits 10 n ++ rest) = (n, rest) := by
    rw [takeDigits_toDigits, Nat.zero_mul, Nat.zero_add,
      takeDigits_noDigit hrest]
  rw [hcons, List.cons_append] at hread ⊢
  rw [readDigits, hread, if_pos]
  simp [isDigit, digitValue_digitChar hd, hd]

theorem readConstant_toDigits (hrest : NoDigit rest) :
    readConstant (Nat.toDigits 10 n ++ rest) = some (n, rest) := by
  obtain ⟨d, tail, hcons, hd, hzero⟩ := toDigits_eq_cons n
  by_cases hd0 : d = 0
  · -- a single 0 is an octal constant
    obtain ⟨rfl, -⟩ := hzero hd0
    change readConstant ('0' :: rest) = _
    cases rest with
    | nil => rfl
    | cons x rest =>
      have hnone : digitValue x = none := hrest x rfl
      have hx : ¬ (x = 'x' ∨ x = 'X') := by
        rintro (rfl | rfl)
        · exact absurd hnone (by decide)
        · exact absurd hnone (by decide)
      rw [readConstant, if_neg hx, readDigits, if_pos (by decide),
        takeDigits, if_pos (by decide), takeDigits_noDigit hrest]
      rfl
  · have hread := readDigits_toDigits (n := n) hrest
    rw [hcons, List.cons_append] at hread ⊢
    rw [readConstant]
    · exact hread
    · intro x text heq
      have hchar : d.digitChar = '0' := (List.cons.inj heq).1
      revert hchar
      interval_cases d <;> first | decide | exact absurd rfl hd0

theorem readNumeral_toDigits {digits : List Char → Option (Nat × List Char)}
    (hdigits : digits (Nat.toDigits 10 n ++ rest) = some (n, rest)) :
    readNumeral digits (Nat.toDigits 10 n ++ rest) =
      some ⟨false, n, rest⟩ := by
  obtain ⟨d, tail, hcons, hd, -⟩ := toDigits_eq_cons n
  rw [hcons, List.cons_append] at hdigits ⊢
  have hspace : isSpace d.digitChar = false := by
    interval_cases d <;> decide
  have hminus : d.digitChar ≠ '-' := by
    interval_cases d <;> decide
  have hplus : d.digitChar ≠ '+' := by
    interval_cases d <;> decide
  rw [readNumeral, List.dropWhile_cons_of_neg (by simp [hspace])]
  split
  · rename_i heq
    exact absurd (List.cons.inj heq).1 hminus
  · rename_i heq
    exact absurd (List.cons.inj heq).1 hplus
  · rw [hdigits]
    rfl

theorem strtoull_toDigits {errno : Int} (hn : n ≤ ullongMax)
    (hrest : NoDigit rest) :
    strtoull (Nat.toDigits 10 n ++ rest) errno = ⟨n, rest, errno⟩ := by
  rw [strtoull, readNumeral_toDigits (readConstant_toDigits hrest)]
  simp only
  rw [if_neg (Nat.not_lt.mpr hn), if_neg Bool.false_ne_true]

end Decimals

end Libut.Machine
