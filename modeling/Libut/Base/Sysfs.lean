import Libut.Base.Bitmap
import Libut.Machine.Checked
import Libut.Machine.Text

/-!
Lists of bits in files of the kernel (`base/sysfs.c`). A list is the first line
of a file, such as `0-3,5`; the scanner takes numbers with `strtoull` and goes
on where it stops. The loop is given as many rounds as the line has characters
and one more, and has no result if it needs more of them. `errno` is that
before the call: a conversion that sets it is not followed by another one.
-/

namespace Libut.Base

open Machine

def eio : Int := 5

def einval : Int := 22

def bufsiz : Nat := 8192

/-- `for (; bit_start <= bit_end; bit_start++) bitmap_set(bits, bit_start);` -/
def setRange (bits : Bitmap) (bitStart bitEnd : Nat) : Bitmap :=
  (List.range' bitStart (bitEnd + 1 - bitStart)).foldl bitmapSet bits

/-- A number of a list with the checks after its conversion, or the value that
`sysfs_parse_bitlist` returns. -/
def bitlistNumber (errno : Int) (pos : List Char) :
    Except Int (Nat × List Char) :=
  let converted := strtoull pos errno
  if converted.val = ullongMax then .error (-converted.errno)
  else if converted.stop = pos then .error (-einval)
  else if intLimit ≤ converted.val then .error (-erange)
  else .ok (converted.val, converted.stop)

def bitlistRange (errno : Int) (pos : List Char) :
    Except Int (Nat × Nat × List Char) :=
  match bitlistNumber errno pos with
  | .error ret => .error ret
  | .ok (bitStart, '-' :: pos) =>
    match bitlistNumber errno pos with
    | .error ret => .error ret
    | .ok (bitEnd, pos) => .ok (bitStart, bitEnd, pos)
  | .ok (bitStart, pos) => .ok (bitStart, bitStart, pos)

/-- The loop of `sysfs_parse_bitlist`, with its return value and the
bitmap. -/
def bitlistLoop (nbits : Nat) (errno : Int) :
    Nat → List Char → Bitmap → Option (Int × Bitmap)
  | 0, _, _ => none
  | _ + 1, [], bits => some (0, bits)
  | rounds + 1, c :: rest, bits =>
    if c = '\x00' ∨ c = '\n' then some (0, bits)
    else if c = ',' then bitlistLoop nbits errno rounds rest bits
    else
      match bitlistRange errno (c :: rest) with
      | .error ret => some (ret, bits)
      | .ok (bitStart, bitEnd, pos) =>
        if bitEnd < bitStart then some (einval, bits)
        else if nbits ≤ bitEnd then some (-erange, bits)
        else
          bitlistLoop nbits errno rounds pos
            (setRange bits bitStart bitEnd)

/-- `sysfs_parse_bitlist` for a file with this text, or one that cannot be
opened -/
def sysfsParseBitlist (file : Option (List Char)) (errno : Int) (bits : Bitmap)
    (nbits : Nat) : Option (Int × Bitmap) :=
  match file.bind (fgets bufsiz) with
  | none => some (-eio, bits)
  | some (buf, _) =>
    bitlistLoop nbits errno (buf.length + 1) buf (bitmapInit bits nbits false)

section Scanning

variable {nbits bitStart bitEnd n : Nat} {errno ret : Int} {bits : Bitmap}
  {pos rest : List Char}

theorem bitmapTest_foldl_set (positions : List Nat) (bits : Bitmap) (x : Nat) :
    bitmapTest (positions.foldl bitmapSet bits) x =
      (decide (x ∈ positions) || bitmapTest bits x) := by
  induction positions generalizing bits with
  | nil => simp
  | cons pos positions ih =>
    rw [List.foldl_cons, ih, bitmapTest_set]
    rcases eq_or_ne pos x with rfl | hne
    · simp
    · simp [beq_eq_false_iff_ne.mpr hne, hne.symm]

theorem bitmapTest_setRange (x : Nat) :
    bitmapTest (setRange bits bitStart bitEnd) x = true ↔
      bitStart ≤ x ∧ x ≤ bitEnd ∨ bitmapTest bits x = true := by
  rw [setRange, bitmapTest_foldl_set, Bool.or_eq_true, decide_eq_true_eq,
    List.mem_range'_1]
  constructor
  · rintro (hx | hx)
    · exact .inl (by omega)
    · exact .inr hx
  · rintro (hx | hx)
    · exact .inl (by omega)
    · exact .inr hx

theorem bitlistNumber_length (h : bitlistNumber errno pos = .ok (n, rest)) :
    rest.length < pos.length := by
  simp only [bitlistNumber] at h
  split_ifs at h with hmax hstop hbig
  cases h
  exact strtoull_length hstop

theorem bitlistRange_length
    (h : bitlistRange errno pos = .ok (bitStart, bitEnd, rest)) :
    rest.length < pos.length := by
  rw [bitlistRange] at h
  split at h
  · cases h
  · rename_i n pos' hfirst
    have hshort := bitlistNumber_length hfirst
    split at h
    · cases h
    · rename_i hlast
      have hshort' := bitlistNumber_length hlast
      cases h
      rw [List.length_cons] at hshort
      omega
  · rename_i hfirst
    cases h
    exact bitlistNumber_length hfirst

theorem bitlistLoop_ends (nbits : Nat) (errno : Int) (rounds : Nat)
    (pos : List Char) (bits : Bitmap) (hrounds : pos.length < rounds) :
    ∃ ret bits', bitlistLoop nbits errno rounds pos bits = some (ret, bits') ∧
      ∀ x, nbits ≤ x → bitmapTest bits' x = bitmapTest bits x := by
  induction rounds generalizing pos bits with
  | zero => omega
  | succ rounds ih =>
    cases pos with
    | nil => exact ⟨0, bits, rfl, fun _ _ => rfl⟩
    | cons c rest =>
      rw [List.length_cons] at hrounds
      rw [bitlistLoop]
      split_ifs with hend hcomma
      · exact ⟨0, bits, rfl, fun _ _ => rfl⟩
      · exact ih rest bits (by omega)
      · cases hrange : bitlistRange errno (c :: rest) with
        | error ret => exact ⟨ret, bits, rfl, fun _ _ => rfl⟩
        | ok r =>
          obtain ⟨bitStart, bitEnd, pos⟩ := r
          have hshort := bitlistRange_length hrange
          rw [List.length_cons] at hshort
          simp only
          split_ifs with hless hbig
          · exact ⟨einval, bits, rfl, fun _ _ => rfl⟩
          · exact ⟨-erange, bits, rfl, fun _ _ => rfl⟩
          · obtain ⟨ret, bits', hloop, hkeep⟩ :=
              ih pos (setRange bits bitStart bitEnd) (by omega)
            refine ⟨ret, bits', hloop, fun x hx => ?_⟩
            rw [hkeep x hx, Bool.eq_iff_iff, bitmapTest_setRange]
            constructor
            · rintro (hin | hset)
              · omega
              · exact hset
            · exact .inr

end Scanning

/-- An element of a list as the kernel prints it: a bit, or the first and the
last of some. -/
inductive CpuRange
  | one (a : Nat)
  | span (a b : Nat)
  deriving DecidableEq, Repr

namespace CpuRange

def first : CpuRange → Nat
  | one a => a
  | span a _ => a

def last : CpuRange → Nat
  | one a => a
  | span _ b => b

def text : CpuRange → List Char
  | one a => Nat.toDigits 10 a
  | span a b => Nat.toDigits 10 a ++ '-' :: Nat.toDigits 10 b

end CpuRange

def cpuList (ranges : List CpuRange) : List Char :=
  [','].intercalate (ranges.map CpuRange.text) ++ ['\n']

def rangeCheck (nbits : Nat) (r : CpuRange) : Int :=
  if intLimit ≤ r.first ∨ intLimit ≤ r.last then -erange
  else if r.last < r.first then einval
  else if nbits ≤ r.last then -erange
  else 0

def rangesRun (nbits : Nat) : List CpuRange → Bitmap → Int × Bitmap
  | [], bits => (0, bits)
  | r :: ranges, bits =>
    if rangeCheck nbits r = 0 then
      rangesRun nbits ranges (setRange bits r.first r.last)
    else (rangeCheck nbits r, bits)

section Lists

variable {nbits n rounds : Nat} {errno : Int} {bits : Bitmap}
  {rest more : List Char} {r : CpuRange} {ranges : List CpuRange}

theorem bitlistNumber_toDigits (hn : n < ullongMax) (hrest : NoDigit rest) :
    bitlistNumber errno (Nat.toDigits 10 n ++ rest) =
      if intLimit ≤ n then .error (-erange) else .ok (n, rest) := by
  obtain ⟨d, tail, hcons, -⟩ := toDigits_eq_cons n
  have hmoved : rest ≠ Nat.toDigits 10 n ++ rest := by
    intro heq
    have hlen := congrArg List.length heq
    rw [hcons, List.length_append, List.length_cons] at hlen
    omega
  simp only [bitlistNumber, strtoull_toDigits hn.le hrest]
  rw [if_neg hn.ne, if_neg hmoved]

def Separated (rest : List Char) : Prop :=
  ∃ c tail, rest = c :: tail ∧ (c = ',' ∨ c = '\n')

theorem Separated.noDigit (h : Separated rest) : NoDigit rest := by
  obtain ⟨c, tail, rfl, rfl | rfl⟩ := h
  · rintro c ⟨⟩
    decide
  · rintro c ⟨⟩
    decide

theorem bitlistRange_text (errno : Int) (hfirst : r.first < ullongMax)
    (hlast : r.last < ullongMax) (hrest : Separated rest) :
    bitlistRange errno (r.text ++ rest) =
      if intLimit ≤ r.first ∨ intLimit ≤ r.last then .error (-erange)
      else .ok (r.first, r.last, rest) := by
  cases r with
  | one a =>
    have ha : a < ullongMax := hfirst
    rw [bitlistRange, CpuRange.text, bitlistNumber_toDigits ha hrest.noDigit]
    by_cases hbig : intLimit ≤ a
    · rw [if_pos hbig]
      exact (if_pos (.inl hbig)).symm
    · rw [if_neg hbig]
      obtain ⟨c, tail, rfl, rfl | rfl⟩ := hrest
      · exact (if_neg (not_or.mpr ⟨hbig, hbig⟩)).symm
      · exact (if_neg (not_or.mpr ⟨hbig, hbig⟩)).symm
  | span a b =>
    have ha : a < ullongMax := hfirst
    have hb : b < ullongMax := hlast
    have hdash : NoDigit ('-' :: (Nat.toDigits 10 b ++ rest)) := by
      rintro c ⟨⟩
      decide
    rw [bitlistRange, CpuRange.text, List.append_assoc, List.cons_append,
      bitlistNumber_toDigits ha hdash]
    by_cases hbig : intLimit ≤ a
    · rw [if_pos hbig]
      exact (if_pos (.inl hbig)).symm
    · rw [if_neg hbig]
      simp only [bitlistNumber_toDigits hb hrest.noDigit]
      by_cases hbig' : intLimit ≤ b
      · rw [if_pos hbig']
        exact (if_pos (.inr hbig')).symm
      · rw [if_neg hbig']
        exact (if_neg (not_or.mpr ⟨hbig, hbig'⟩)).symm

theorem text_eq_cons (r : CpuRange) :
    ∃ d tail, r.text = d.digitChar :: tail ∧ d < 10 := by
  cases r with
  | one a =>
    obtain ⟨d, tail, hcons, hd, -⟩ := toDigits_eq_cons a
    exact ⟨d, tail, hcons, hd⟩
  | span a b =>
    obtain ⟨d, tail, hcons, hd, -⟩ := toDigits_eq_cons a
    refine ⟨d, tail ++ '-' :: Nat.toDigits 10 b, ?_, hd⟩
    rw [CpuRange.text, hcons, List.cons_append]

theorem bitlistLoop_text (hfirst : r.first < ullongMax)
    (hlast : r.last < ullongMax) (hrest : Separated rest) :
    bitlistLoop nbits errno (rounds + 1) (r.text ++ rest) bits =
      if rangeCheck nbits r = 0 then
        bitlistLoop nbits errno rounds rest (setRange bits r.first r.last)
      else some (rangeCheck nbits r, bits) := by
  have hrange := bitlistRange_text errno hfirst hlast hrest
  obtain ⟨d, tail, hcons, hd⟩ := text_eq_cons r
  have hend : ¬ (d.digitChar = '\x00' ∨ d.digitChar = '\n') := by
    interval_cases d <;> decide
  have hcomma : d.digitChar ≠ ',' := by
    interval_cases d <;> decide
  rw [hcons, List.cons_append] at hrange ⊢
  rw [bitlistLoop, if_neg hend, if_neg hcomma, hrange, rangeCheck]
  have herange : -erange ≠ 0 := by decide
  have heinval : einval ≠ 0 := by decide
  by_cases hbig : intLimit ≤ r.first ∨ intLimit ≤ r.last
  · simp only [if_pos hbig, if_neg herange]
  · simp only [if_neg hbig]
    by_cases hless : r.last < r.first
    · simp only [if_pos hless, if_neg heinval]
    · simp only [if_neg hless]
      by_cases hmany : nbits ≤ r.last
      · simp only [if_pos hmany, if_neg herange]
      · simp only [if_neg hmany, if_true]

theorem cpuList_cons (r r' : CpuRange) (ranges : List CpuRange) :
    cpuList (r :: r' :: ranges) = r.text ++ ',' :: cpuList (r' :: ranges) := by
  simp only [cpuList, List.map_cons, List.intercalate_cons_cons]
  simp

/-- The scanner makes of a line what its ranges say. -/
theorem bitlistLoop_cpuList (rounds : Nat) (bits : Bitmap)
    (hsmall : ∀ r ∈ ranges, r.first < ullongMax ∧ r.last < ullongMax)
    (hrounds : (cpuList ranges).length < rounds) :
    bitlistLoop nbits errno rounds (cpuList ranges) bits =
      some (rangesRun nbits ranges bits) := by
  have hnewline : Separated ['\n'] := ⟨'\n', [], rfl, .inr rfl⟩
  have hstop : ∀ rounds bits,
      bitlistLoop nbits errno (rounds + 1) ['\n'] bits = some (0, bits) :=
    fun _ _ => rfl
  induction ranges generalizing rounds bits with
  | nil =>
    obtain ⟨rounds, rfl⟩ := Nat.exists_eq_add_of_lt hrounds
    exact hstop _ bits
  | cons r ranges ih =>
    obtain ⟨hfirst, hlast⟩ := hsmall r List.mem_cons_self
    have hrest : ∀ r' ∈ ranges,
        r'.first < ullongMax ∧ r'.last < ullongMax :=
      fun r' hr' => hsmall r' (List.mem_cons_of_mem _ hr')
    obtain ⟨d, tail, hcons, -⟩ := text_eq_cons r
    rw [rangesRun]
    cases ranges with
    | nil =>
      have htext : cpuList [r] = r.text ++ ['\n'] := by
        rw [cpuList, List.map_singleton, List.intercalate_singleton]
      rw [htext, List.length_append, hcons] at hrounds
      obtain ⟨rounds, rfl⟩ : ∃ k, rounds = k + 1 + 1 :=
        ⟨rounds - 2, by simp at hrounds; omega⟩
      rw [htext, bitlistLoop_text hfirst hlast hnewline]
      split_ifs
      · exact hstop _ _
      · rfl
    | cons r' ranges =>
      have hcomma : Separated (',' :: cpuList (r' :: ranges)) :=
        ⟨',', _, rfl, .inl rfl⟩
      rw [cpuList_cons, List.length_append, hcons] at hrounds
      simp only [List.length_cons] at hrounds
      obtain ⟨rounds, rfl⟩ : ∃ k, rounds = k + 1 + 1 :=
        ⟨rounds - 2, by omega⟩
      rw [cpuList_cons, bitlistLoop_text hfirst hlast hcomma]
      split_ifs
      · -- the comma takes a round of its own
        have hskip : bitlistLoop nbits errno (rounds + 1)
            (',' :: cpuList (r' :: ranges))
            (setRange bits r.first r.last) =
            bitlistLoop nbits errno rounds (cpuList (r' :: ranges))
              (setRange bits r.first r.last) := rfl
        rw [hskip]
        exact ih rounds _ hrest (by omega)
      · rfl

theorem rangeCheck_eq_zero (hnbits : nbits < intLimit) :
    rangeCheck nbits r = 0 ↔ r.first ≤ r.last ∧ r.last < nbits := by
  have herange : -erange ≠ 0 := by decide
  have heinval : einval ≠ 0 := by decide
  rw [rangeCheck]
  split_ifs with hbig hless hmany
  · exact iff_of_false herange (by omega)
  · exact iff_of_false heinval (by omega)
  · exact iff_of_false herange (by omega)
  · exact iff_of_true rfl (by omega)

theorem rangesRun_good (bits : Bitmap)
    (hgood : ∀ r ∈ ranges, rangeCheck nbits r = 0) :
    (rangesRun nbits ranges bits).1 = 0 ∧
      ∀ x, bitmapTest (rangesRun nbits ranges bits).2 x = true ↔
        (∃ r ∈ ranges, r.first ≤ x ∧ x ≤ r.last) ∨ bitmapTest bits x = true := by
  induction ranges generalizing bits with
  | nil => simp [rangesRun]
  | cons r ranges ih =>
    rw [rangesRun, if_pos (hgood r List.mem_cons_self)]
    obtain ⟨hret, hbits⟩ := ih (setRange bits r.first r.last)
      fun r' hr' => hgood r' (List.mem_cons_of_mem _ hr')
    refine ⟨hret, fun x => ?_⟩
    rw [hbits, bitmapTest_setRange, List.exists_mem_cons_iff, or_left_comm,
      or_assoc]

theorem rangesRun_bad (hbad : ∃ r ∈ ranges, rangeCheck nbits r ≠ 0) :
    (rangesRun nbits ranges bits).1 ≠ 0 := by
  induction ranges generalizing bits with
  | nil =>
    obtain ⟨r, hr, -⟩ := hbad
    cases hr
  | cons r ranges ih =>
    rw [rangesRun]
    split_ifs with hzero
    · apply ih
      obtain ⟨r', hr', hne⟩ := hbad
      rcases List.mem_cons.mp hr' with rfl | hr'
      · exact absurd hzero hne
      · exact ⟨r', hr', hne⟩
    · exact hzero

theorem newline_not_mem_text (r : CpuRange) : '\n' ∉ r.text := by
  have hdigits : ∀ n, '\n' ∉ Nat.toDigits 10 n := by
    intro n hmem
    have hdigit :=
      Nat.isDigit_of_mem_toDigits (by decide) (Nat.le_refl 10) hmem
    exact absurd hdigit (by decide)
  cases r with
  | one a => exact hdigits a
  | span a b =>
    rw [CpuRange.text, List.mem_append, List.mem_cons]
    rintro (hmem | hdash | hmem)
    · exact hdigits a hmem
    · exact absurd hdash (by decide)
    · exact hdigits b hmem

theorem newline_not_mem_intercalate (ranges : List CpuRange) :
    '\n' ∉ [','].intercalate (ranges.map CpuRange.text) := by
  induction ranges with
  | nil => simp
  | cons r ranges ih =>
    cases ranges with
    | nil =>
      rw [List.map_singleton, List.intercalate_singleton]
      exact newline_not_mem_text r
    | cons r' ranges =>
      rw [List.map_cons, List.map_cons, List.intercalate_cons_cons,
        List.append_assoc, List.mem_append, List.mem_append]
      rintro (hmem | hcomma | hmem)
      · exact newline_not_mem_text r hmem
      · exact absurd hcomma (by decide)
      · exact ih hmem

theorem fgets_cpuList (hlen : (cpuList ranges).length < bufsiz) :
    fgets bufsiz (cpuList ranges ++ more) = some (cpuList ranges, more) := by
  have htext : cpuList ranges ++ more =
      [','].intercalate (ranges.map CpuRange.text) ++ '\n' :: more := by
    rw [cpuList, List.append_assoc, List.singleton_append]
  rw [cpuList, List.length_append, List.length_singleton] at hlen
  rw [htext, fgets, if_neg (by simp), takeLine_line
    (newline_not_mem_intercalate ranges) (by omega)]
  rfl

theorem sysfsParseBitlist_cpuList
    (hsmall : ∀ r ∈ ranges, r.first < ullongMax ∧ r.last < ullongMax)
    (hlen : (cpuList ranges).length < bufsiz) :
    sysfsParseBitlist (some (cpuList ranges ++ more)) errno bits nbits =
      some (rangesRun nbits ranges (bitmapInit bits nbits false)) := by
  simp only [sysfsParseBitlist, Option.bind_some, fgets_cpuList hlen]
  exact bitlistLoop_cpuList _ _ hsmall (Nat.lt_succ_self _)

end Lists

/-- A list of bits below `nbits` is read back; every file is read to an end
without a bit at `nbits` or beyond being set; and a list with a range that is
not in order or not below `nbits` is refused. -/
theorem bitlist_parse (nbits : Fin intLimit) (errno : Int) (bits : Bitmap) :
    (∀ ranges more, (cpuList ranges).length < bufsiz →
      (∀ r ∈ ranges, r.first ≤ r.last ∧ r.last < nbits) →
      ∃ bits', sysfsParseBitlist (some (cpuList ranges ++ more)) errno bits
          nbits = some (0, bits') ∧ ∀ x < nbits.val, bitmapTest bits' x = true ↔
          ∃ r ∈ ranges, r.first ≤ x ∧ x ≤ r.last) ∧
    (∀ file, ∃ ret bits',
      sysfsParseBitlist file errno bits nbits = some (ret, bits') ∧
        ∀ x, nbits ≤ x → bitmapTest bits' x = true → bitmapTest bits x = true) ∧
    ∀ ranges more, (cpuList ranges).length < bufsiz →
      (∀ r ∈ ranges, r.first < 2 ^ 63 ∧ r.last < 2 ^ 63) →
      (∃ r ∈ ranges, r.last < r.first ∨ nbits ≤ r.first ∨ nbits ≤ r.last) →
      ∃ ret bits', sysfsParseBitlist (some (cpuList ranges ++ more)) errno bits
          nbits = some (ret, bits') ∧ ret ≠ 0 := by
  have hnbits := nbits.isLt
  have hmax : intLimit < ullongMax := by decide
  refine ⟨?_, ?_, ?_⟩
  · intro ranges more hlen hgood
    have hsmall : ∀ r ∈ ranges, r.first < ullongMax ∧ r.last < ullongMax := by
      intro r hr
      have := hgood r hr
      omega
    obtain ⟨hret, hbits⟩ := rangesRun_good (bitmapInit bits nbits false)
      fun r hr => (rangeCheck_eq_zero hnbits).mpr (hgood r hr)
    refine ⟨_, (sysfsParseBitlist_cpuList hsmall hlen).trans
      (congrArg some (Prod.ext hret rfl)), fun x hx => ?_⟩
    rw [hbits]
    apply or_iff_left
    intro hset
    exact absurd (bitmapTest_init bits nbits x hset).1 (by omega)
  · intro file
    cases hread : file.bind (fgets bufsiz) with
    | none =>
      refine ⟨-eio, bits, ?_, fun _ _ => id⟩
      rw [sysfsParseBitlist, hread]
    | some line =>
      obtain ⟨ret, bits', hloop, hkeep⟩ := bitlistLoop_ends nbits errno
        (line.1.length + 1) line.1 (bitmapInit bits nbits false)
        (Nat.lt_succ_self _)
      refine ⟨ret, bits', ?_, fun x hx hset => ?_⟩
      · rw [sysfsParseBitlist, hread]
        exact hloop
      · rw [hkeep x hx] at hset
        exact (bitmapTest_init bits nbits x hset).2
  · intro ranges more hlen hsize hbad
    have hsmall : ∀ r ∈ ranges, r.first < ullongMax ∧ r.last < ullongMax := by
      intro r hr
      have := hsize r hr
      have : (2 : Nat) ^ 63 < ullongMax := by decide
      omega
    refine ⟨_, _, sysfsParseBitlist_cpuList hsmall hlen, rangesRun_bad ?_⟩
    obtain ⟨r, hr, hcase⟩ := hbad
    refine ⟨r, hr, fun hzero => ?_⟩
    have := (rangeCheck_eq_zero hnbits).mp hzero
    omega

/-- `0-3,5`, and `0-3,9` and `3-0` for a bitmap of eight bits. -/
theorem bitlist_parse_eight :
    (∃ bits', sysfsParseBitlist (some (cpuList [.span 0 3, .one 5] ++ [])) 0
        (fun _ => 0) 8 = some (0, bits') ∧ ∀ x < 8, bitmapTest bits' x = true ↔
        ∃ r ∈ [CpuRange.span 0 3, .one 5], r.first ≤ x ∧ x ≤ r.last) ∧
    (∃ ret bits', sysfsParseBitlist (some (cpuList [.span 0 3, .one 9] ++ []))
        0 (fun _ => 0) 8 = some (ret, bits') ∧ ret ≠ 0) ∧
    ∃ ret bits', sysfsParseBitlist (some (cpuList [.span 3 0] ++ []))
        0 (fun _ => 0) 8 = some (ret, bits') ∧ ret ≠ 0 := by
  obtain ⟨hgood, -, hbad⟩ := bitlist_parse ⟨8, by decide⟩ 0 fun _ => 0
  exact ⟨hgood [.span 0 3, .one 5] [] (by decide) (by decide),
    hbad [.span 0 3, .one 9] [] (by decide) (by decide) (by decide),
    hbad [.span 3 0] [] (by decide) (by decide) (by decide)⟩

end Libut.Base
