import Mathlib.Data.Nat.Digits.Defs
import Mathlib.Tactic.IntervalCases
import MethodGraft.Proofs.Source.ParserRuns
import MethodGraft.Proofs.Source.Tokens

/-!
# Proofs.Source.Numerals — integer literals and their values

A number can be spelled in decimal, with a minus if it is negative, or its two's complement in
hexadecimal or octal.  Each spelling of a number of 32 or 64 bits is read as the literal of that
number.  There is one exception: the bits of the least `long` are refused, because their token is
also the one of the decimal 9223372036854775808L, which only a minus may precede.
-/

namespace MethodGraft.Source

/-! ## 1. Spellings -/

structure Grouped (digits s : List Char) : Prop where
  digits : s.filter (· != '_') = digits
  head : s.head? ≠ some '_'
  last : s.getLast? ≠ some '_'

inductive SpellsDecimal (n : Int) : List Char → Prop
  | nonneg {s : List Char} : 0 ≤ n → Grouped (Nat.toDigits 10 n.natAbs) s → SpellsDecimal n s
  | neg {s : List Char} : n < 0 → Grouped (Nat.toDigits 10 n.natAbs) s → SpellsDecimal n ('-' :: s)

inductive SpellsBits (bits : Nat) : List Char → Prop
  | hex {x : Char} {zeros : Nat} {digits : List Char} : x = 'x' ∨ x = 'X' →
    digits.map Char.toLower = Nat.toDigits 16 bits →
    SpellsBits bits ('0' :: x :: (List.replicate zeros '0' ++ digits))
  | octal {zeros : Nat} : SpellsBits bits ('0' :: (List.replicate zeros '0' ++ Nat.toDigits 8 bits))

inductive WidthMark : (long : Bool) → List Char → Prop
  | int : WidthMark false []
  | lower : WidthMark true ['l']
  | upper : WidthMark true ['L']

/-- The decimal spellings of an integer literal. -/
inductive DecimalSpelling : Literal → List Char → Prop
  | int {v : Int32} {s : List Char} : SpellsDecimal v.toInt s → DecimalSpelling (.int v) s
  | long {w : Int64} {s mark : List Char} : SpellsDecimal w.toInt s → WidthMark true mark →
    DecimalSpelling (.long w) (s ++ mark)

/-- The spellings of an integer literal by its bits. -/
inductive BitSpelling : Literal → List Char → Prop
  | int {v : Int32} {s : List Char} : SpellsBits v.toUInt32.toNat s → BitSpelling (.int v) s
  | long {w : Int64} {s mark : List Char} : SpellsBits w.toUInt64.toNat s → WidthMark true mark →
    BitSpelling (.long w) (s ++ mark)

/-! ## 2. Digits and values -/

variable {base d n bits value : Nat} {c : Char} {s digits mark : List Char} {long : Bool}

theorem digitValue?_digitChar (hd : d < base) (hbase : base ≤ 16) :
    digitValue? base d.digitChar = some d := by
  have hd16 : d < 16 := Nat.lt_of_lt_of_le hd hbase
  -- sixteen digits are few enough to try them
  interval_cases d <;> simp [digitValue?, Nat.digitChar, hd]

theorem digitValue?_underscore : digitValue? base '_' = none := by
  simp [digitValue?]

/-- The case of a hexadecimal digit is nothing to its value. -/
theorem digitValue?_toLower (c : Char) : digitValue? 16 c.toLower = digitValue? 16 c := by
  by_cases hupper : c.val ≥ 'A'.val ∧ c.val ≤ 'Z'.val
  -- there are few enough capital letters to try them all
  · have hletters : ∀ k ∈ List.range' 65 26,
        digitValue? 16 (Char.ofNat k).toLower = digitValue? 16 (Char.ofNat k) := by decide
    have hlow : 65 ≤ c.toNat := hupper.1
    have hhigh : c.toNat ≤ 90 := hupper.2
    have h := hletters c.toNat (List.mem_range'.mpr ⟨c.toNat - 65, by omega, by omega⟩)
    rwa [Char.ofNat_toNat] at h
  · have hlower : c.toLower = c := dif_neg hupper
    rw [hlower]

theorem exists_digitChar_of_mem (hbase : 1 < base) (hc : c ∈ Nat.toDigits base n) :
    ∃ d < base, c = d.digitChar := by
  induction n using Nat.strong_induction_on with
  | _ n ih =>
    rw [Nat.toDigits_eq_if hbase] at hc
    split at hc
    next hlt => exact ⟨n, hlt, List.mem_singleton.mp hc⟩
    next hge =>
      obtain hc | hc := List.mem_append.mp hc
      · exact ih (n / base) (Nat.div_lt_self (by omega) hbase) hc
      · exact ⟨n % base, Nat.mod_lt n (by omega), List.mem_singleton.mp hc⟩

/-- The digits of a number are digits of its base. -/
theorem isDigitOf_of_mem_toDigits (hbase : 1 < base) (hle : base ≤ 16)
    (hc : c ∈ Nat.toDigits base n) : isDigitOf base c = true := by
  obtain ⟨d, hd, rfl⟩ := exists_digitChar_of_mem hbase hc
  rw [isDigitOf, digitValue?_digitChar hd hle]
  rfl

theorem valueOnto_cons (hc : digitValue? base c = some d) (value : Nat) (s : List Char) :
    valueOnto base value (c :: s) = valueOnto base (value * base + d) s := by
  rw [valueOnto, hc]
  rintro rfl
  rw [digitValue?_underscore] at hc
  cases hc

theorem valueOnto_append (s t : List Char) :
    valueOnto base value (s ++ t) = (valueOnto base value s).bind
    fun value => valueOnto base value t := by
  fun_induction valueOnto base value s with
  | case1 => rfl
  | case2 value s ih => exact ih
  | case3 value c s hunderscore d hd ih =>
    rw [List.cons_append, valueOnto_cons hd]
    exact ih
  | case4 value c s hunderscore hnone =>
    rw [List.cons_append, valueOnto, hnone]
    · rfl
    · exact hunderscore

/-- Underscores count for nothing. -/
theorem valueOnto_filter (value : Nat) (s : List Char) :
    valueOnto base value (s.filter (· != '_')) = valueOnto base value s := by
  fun_induction valueOnto base value s with
  | case1 => rfl
  | case2 value s ih => simpa using ih
  | case3 value c s hunderscore d hd ih =>
    rw [List.filter_cons_of_pos (by simpa using hunderscore), valueOnto_cons hd]
    exact ih
  | case4 value c s hunderscore hnone =>
    rw [List.filter_cons_of_pos (by simpa using hunderscore), valueOnto, hnone]
    exact hunderscore

/-- The digits of a number have its value. -/
theorem valueOnto_toDigits (hbase : 1 < base) (hle : base ≤ 16) (n : Nat) :
    valueOnto base 0 (Nat.toDigits base n) = some n := by
  -- the digits before the last one are those of a smaller number
  induction n using Nat.strong_induction_on with
  | _ n ih =>
    rw [Nat.toDigits_eq_if hbase]
    split
    next hlt =>
      rw [valueOnto_cons (digitValue?_digitChar hlt hle), Nat.zero_mul, Nat.zero_add, valueOnto]
    next hge =>
      have hmod : n % base < base := Nat.mod_lt n (by omega)
      rw [valueOnto_append, ih (n / base) (Nat.div_lt_self (by omega) hbase), Option.bind_some,
        valueOnto_cons (digitValue?_digitChar hmod hle), valueOnto, Nat.div_add_mod']

/-- Leading zeros count for nothing. -/
theorem valueOnto_zeros (hbase : 1 < base) (hle : base ≤ 16) (zeros : Nat) (s : List Char) :
    valueOnto base 0 (List.replicate zeros '0' ++ s) = valueOnto base 0 s := by
  have hzero : digitValue? base '0' = some 0 := digitValue?_digitChar (d := 0) (by omega) hle
  induction zeros with
  | zero => rfl
  | succ zeros ih =>
    rw [List.replicate_succ, List.cons_append, valueOnto_cons hzero, Nat.zero_mul, ih]

theorem valueOnto_toLower (hs : ∀ c ∈ s, isDigitOf 16 c = true) (value : Nat) :
    valueOnto 16 value (s.map Char.toLower) = valueOnto 16 value s := by
  induction s generalizing value with
  | nil => rfl
  | cons c s ih =>
    obtain ⟨d, hd⟩ := Option.isSome_iff_exists.mp (hs c List.mem_cons_self)
    have hlower := (digitValue?_toLower c).trans hd
    rw [List.map_cons, valueOnto_cons hlower, valueOnto_cons hd]
    exact ih (fun a ha => hs a (List.mem_cons_of_mem c ha)) _

/-- Only zero has a zero in front. -/
theorem eq_nil_of_toDigits (h : Nat.toDigits 10 n = '0' :: s) : s = [] := by
  induction n using Nat.strong_induction_on generalizing s with
  | _ n ih =>
    rw [Nat.toDigits_eq_if (by decide)] at h
    split at h
    next => exact (List.cons.inj h).2.symm
    next hge =>
      -- those before the last one are the digits of a smaller number, which is not zero
      obtain ⟨front, hfront⟩ : ∃ front, Nat.toDigits 10 (n / 10) = '0' :: front := by
        cases hdigits : Nat.toDigits 10 (n / 10) with
        | nil => exact absurd hdigits Nat.toDigits_ne_nil
        | cons a front =>
          rw [hdigits, List.cons_append] at h
          exact ⟨front, by rw [(List.cons.inj h).1]⟩
      cases ih (n / 10) (by omega) hfront
      have hvalue := valueOnto_toDigits (by decide) (by decide : 10 ≤ 16) (n / 10)
      rw [hfront] at hvalue
      have hzero : 0 = n / 10 := Option.some.inj hvalue
      omega

/-! ## 3. Numbers -/

variable {p : Char → Bool} {tail : List Char} {t : Token}

theorem takeWhile_append_eq (hs : ∀ a ∈ s, p a = true) (htail : tail.takeWhile p = []) :
    (s ++ tail).takeWhile p = s := by
  rw [List.takeWhile_append_of_pos hs, htail, List.append_nil]

theorem dropWhile_append_eq (hs : ∀ a ∈ s, p a = true) (htail : tail.takeWhile p = []) :
    (s ++ tail).dropWhile p = tail := by
  have hsplit := List.takeWhile_append_dropWhile (p := p) (l := tail)
  rw [htail, List.nil_append] at hsplit
  rw [List.dropWhile_append_of_pos hs, hsplit]

theorem WidthMark.takeWhile (h : WidthMark long mark) (hlower : p 'l' = false)
    (hupper : p 'L' = false) : mark.takeWhile p = [] := by
  cases h <;> simp [hlower, hupper]

theorem WidthMark.dropLongSuffix (h : WidthMark long mark) : dropLongSuffix mark = (long, []) := by
  cases h <;> rfl

theorem WidthMark.dropFloatTail? (h : WidthMark long mark) : dropFloatTail? mark = none := by
  cases h <;> decide

theorem isDecimal_continuesDigits (h : isDecimal c = true) : continuesDigits c = true := by
  rw [continuesDigits, h, Bool.true_or]

theorem readDigits_append (hc : isDecimal c = true) (hs : ∀ a ∈ s, continuesDigits a = true)
    (htail : tail.takeWhile continuesDigits = []) :
    readDigits (c :: (s ++ tail)) = some (c :: s, tail) := by
  rw [readDigits, if_pos hc, takeWhile_append_eq hs htail, dropWhile_append_eq hs htail]

/-- Digits are no floating point literal if nothing after them makes them one. -/
theorem readFloat_eq_none (hc : isDecimal c = true) (hs : ∀ a ∈ s, continuesDigits a = true)
    (htail : tail.takeWhile continuesDigits = []) (hfloat : dropFloatTail? tail = none) :
    readFloat (c :: (s ++ tail)) = none := by
  simp [readFloat, readDigits_append hc hs htail, hfloat]

theorem readHex_append {x : Char} (hx : x = 'x' ∨ x = 'X')
    (hdigits : ∀ a ∈ digits, isDigitOf 16 a = true)
    (hne : digits ≠ []) (hvalue : valueOnto 16 0 digits = some bits) (hmark : WidthMark long mark) :
    readHex ('0' :: x :: (digits ++ mark)) = (ofBits? bits long).map fun t => (t, []) := by
  have hstop := hmark.takeWhile (p := isDigitOf 16) (by decide) (by decide)
  simp only [readHex, if_pos hx, takeWhile_append_eq hdigits hstop,
    dropWhile_append_eq hdigits hstop, hvalue, hmark.dropLongSuffix]
  rw [if_neg (by simpa using hne)]
  simp only [Option.bind_eq_bind, Option.bind_some]
  cases ofBits? bits long <;> rfl

theorem readOctal_append (hdigits : ∀ a ∈ digits, continuesDigits a = true) (hne : digits ≠ [])
    (hvalue : valueOnto 8 0 digits = some bits) (hmark : WidthMark long mark) :
    readOctal ('0' :: (digits ++ mark)) = (ofBits? bits long).map fun t => (t, []) := by
  have hstop := hmark.takeWhile (p := continuesDigits) (by decide) (by decide)
  simp only [readOctal, takeWhile_append_eq hdigits hstop, dropWhile_append_eq hdigits hstop,
    hvalue, hmark.dropLongSuffix]
  rw [if_neg (by simpa using hne)]
  simp only [Option.bind_eq_bind, Option.bind_some]
  cases ofBits? bits long <;> rfl

theorem readDecimal_append (hc : isDecimal c = true) (hs : ∀ a ∈ s, continuesDigits a = true)
    (hzero : c = '0' → s = []) (hvalue : valueOnto 10 0 (c :: s) = some n)
    (hmark : WidthMark long mark) :
    readDecimal (c :: (s ++ mark)) = (ofDecimal? n long).map fun t => (t, []) := by
  have hstop := hmark.takeWhile (p := continuesDigits) (by decide) (by decide)
  simp only [readDecimal, readDigits_append hc hs hstop, Option.bind_eq_bind, Option.bind_some]
  split
  next heq =>
    obtain ⟨rfl, rfl⟩ := List.cons.inj heq
    cases hzero rfl
  next =>
    simp only [hvalue, hmark.dropLongSuffix, Option.bind_some]
    cases ofDecimal? n long <;> rfl

/-- Zeros are digits too. -/
theorem isDigitOf_of_mem_zeros {zeros : Nat} (hbase : 1 < base) (hle : base ≤ 16)
    (hdigits : ∀ a ∈ digits, isDigitOf base a = true) :
    ∀ a ∈ List.replicate zeros '0' ++ digits, isDigitOf base a = true := by
  intro a ha
  obtain ha | ha := List.mem_append.mp ha
  · have hzero : digitValue? base '0' = some 0 := digitValue?_digitChar (d := 0) (by omega) hle
    rw [List.eq_of_mem_replicate ha, isDigitOf, hzero]
    rfl
  · exact hdigits a ha

theorem readNumber_hex {x : Char} (hx : x = 'x' ∨ x = 'X')
    (hdigits : ∀ a ∈ digits, isDigitOf 16 a = true)
    (hne : digits ≠ []) (hvalue : valueOnto 16 0 digits = some bits) (hmark : WidthMark long mark)
    (ht : ofBits? bits long = some t) :
    readNumber ('0' :: x :: (digits ++ mark)) = some (t, []) := by
  -- the zero alone is no floating point literal, as no such literal goes on with an `x`
  have hfloat : readFloat ('0' :: ([] ++ x :: (digits ++ mark))) = none := by
    have hstop : continuesDigits x = false := by
      obtain rfl | rfl := hx <;> decide
    refine readFloat_eq_none (by decide) nofun (List.takeWhile_cons_of_neg (by simp [hstop])) ?_
    obtain rfl | rfl := hx <;> rfl
  rw [List.nil_append] at hfloat
  rw [readNumber, hfloat, readHex_append hx hdigits hne hvalue hmark, ht]
  rfl

theorem readNumber_octal (hdigits : ∀ a ∈ digits, isDecimal a = true) (hne : digits ≠ [])
    (hvalue : valueOnto 8 0 digits = some bits) (hmark : WidthMark long mark)
    (ht : ofBits? bits long = some t) : readNumber ('0' :: (digits ++ mark)) = some (t, []) := by
  have hcontinues := fun a ha => isDecimal_continuesDigits (hdigits a ha)
  have hfloat :=
    readFloat_eq_none (c := '0') (by decide) hcontinues (hmark.takeWhile (by decide) (by decide))
    hmark.dropFloatTail?
  -- a digit behind the zero is no `x`
  have hhex : readHex ('0' :: (digits ++ mark)) = none := by
    obtain ⟨a, digits, rfl⟩ := List.exists_cons_of_ne_nil hne
    have ha := hdigits a List.mem_cons_self
    rw [List.cons_append, readHex, if_neg]
    rintro (rfl | rfl) <;> revert ha <;> decide
  rw [readNumber, hfloat, hhex, readOctal_append hcontinues hne hvalue hmark, ht]
  rfl

/-- A bit pattern is read in whatever base it is spelled. -/
theorem SpellsBits.readNumber (h : SpellsBits bits s) (hmark : WidthMark long mark)
    (ht : ofBits? bits long = some t) : readNumber (s ++ mark) = some (t, []) := by
  cases h with
  | @hex x zeros digits hx hdigits =>
    have hdigit : ∀ a ∈ digits, isDigitOf 16 a = true := by
      intro a ha
      have hlower := isDigitOf_of_mem_toDigits (by decide : 1 < 16) (by decide)
        (hdigits ▸ List.mem_map_of_mem (f := Char.toLower) ha)
      rwa [isDigitOf, digitValue?_toLower] at hlower
    have hne : digits ≠ [] := by
      rintro rfl
      exact Nat.toDigits_ne_nil hdigits.symm
    -- neither zeros at the front nor the case of the digits make a difference
    have hvalue : valueOnto 16 0 (List.replicate zeros '0' ++ digits) = some bits := by
      rw [valueOnto_zeros (by decide) (by decide), ← valueOnto_toLower hdigit, hdigits]
      exact valueOnto_toDigits (by decide) (by decide) bits
    exact readNumber_hex hx (isDigitOf_of_mem_zeros (by decide) (by decide) hdigit) (by simp [hne])
      hvalue hmark ht
  | @octal zeros =>
    have hdigit : ∀ a ∈ Nat.toDigits 8 bits, isDecimal a = true := by
      intro a ha
      obtain ⟨d, hd, rfl⟩ := exists_digitChar_of_mem (by decide) ha
      rw [isDecimal, isDigitOf, digitValue?_digitChar (by omega) (by decide)]
      rfl
    have hvalue : valueOnto 8 0 (List.replicate zeros '0' ++ Nat.toDigits 8 bits) = some bits := by
      rw [valueOnto_zeros (by decide) (by decide)]
      exact valueOnto_toDigits (by decide) (by decide) bits
    exact readNumber_octal (isDigitOf_of_mem_zeros (by decide) (by decide) hdigit)
      (by simp [Nat.toDigits_ne_nil]) hvalue hmark ht

/-- A decimal number is read if its width has room for it. -/
theorem Grouped.readNumber (h : Grouped (Nat.toDigits 10 n) s) (hmark : WidthMark long mark)
    (ht : ofDecimal? n long = some t) : readNumber (s ++ mark) = some (t, []) := by
  obtain ⟨hdigits, hhead, hlast⟩ := h
  cases s with
  | nil => exact absurd hdigits.symm Nat.toDigits_ne_nil
  | cons c s =>
    have hc : c ≠ '_' := fun hc => hhead (congrArg some hc)
    have hfilter := hdigits
    rw [List.filter_cons_of_pos (by simpa using hc)] at hfilter
    have hdigit (a : Char) (ha : a ∈ Nat.toDigits 10 n) : isDecimal a = true :=
      isDigitOf_of_mem_toDigits (by decide) (by decide) ha
    have hdecimal : isDecimal c = true := hdigit c (hfilter ▸ List.mem_cons_self)
    have hcontinues : ∀ a ∈ s, continuesDigits a = true := by
      intro a ha
      by_cases hunderscore : a = '_'
      · simp [continuesDigits, hunderscore]
      · refine isDecimal_continuesDigits (hdigit a (hfilter ▸ List.mem_cons_of_mem c ?_))
        exact List.mem_filter.mpr ⟨ha, by simpa using hunderscore⟩
    -- behind a leading zero there could only be underscores, and a number does not end in one
    have hzero : c = '0' → s = [] := by
      rintro rfl
      by_contra hne
      have hnone := List.filter_eq_nil_iff.mp (eq_nil_of_toDigits hfilter.symm)
      refine hlast ?_
      rw [List.getLast?_cons, List.getLast?_eq_some_getLast hne]
      simpa using hnone (s.getLast hne) (List.getLast_mem hne)
    have hvalue : valueOnto 10 0 (c :: s) = some n := by
      rw [← valueOnto_filter, hdigits]
      exact valueOnto_toDigits (by decide) (by decide) n
    have hdecimalRead := readDecimal_append hdecimal hcontinues hzero hvalue hmark
    rw [ht] at hdecimalRead
    have hfloat := readFloat_eq_none hdecimal hcontinues (hmark.takeWhile (by decide) (by decide))
      hmark.dropFloatTail?
    have hothers : readHex (c :: (s ++ mark)) = none ∧ readOctal (c :: (s ++ mark)) = none := by
      by_cases hc0 : c = '0'
      · cases hzero hc0
        subst hc0
        cases hmark <;> exact ⟨rfl, rfl⟩
      · exact ⟨readHex_eq_none hc0, readOctal_eq_none hc0⟩
    rw [List.cons_append, MethodGraft.Source.readNumber, hfloat, hothers.1, hothers.2, hdecimalRead]
    rfl

/-! ## 4. Tokens -/

variable {line : Nat}

theorem exists_decimal_of_readNumber {rest : List Char} (h : readNumber s = some (t, rest)) :
    ∃ c s', s = c :: s' ∧ isDecimal c = true := by
  cases s with
  | nil => cases h
  | cons c s =>
    refine ⟨c, s, rfl, ?_⟩
    by_contra hc
    rw [readNumber_eq_none (Bool.eq_false_of_not_eq_true hc)] at h
    cases h

/-- A number in front is the first token. -/
theorem tokensFrom_number {rest : List Char} (h : readNumber s = some (t, rest)) :
    tokensFrom line s = (tokensFrom line rest).map (⟨t, line⟩ :: ·) := by
  obtain ⟨c, s, rfl, hc⟩ := exists_decimal_of_readNumber h
  have hblank : isBlank c = false := by
    by_contra hblank
    simp only [isBlank, Bool.not_eq_false, Bool.or_eq_true, beq_iff_eq] at hblank
    obtain ((rfl | rfl) | rfl) | rfl := hblank <;> revert hc <;> decide
  have hslash : c ≠ '/' := by
    rintro rfl
    revert hc
    decide
  have hgap : readGap (c :: s) = none := by
    rw [readGap_of_ne hslash, hblank]
    rfl
  refine tokensFrom_token hgap ?_ (by rw [readToken, h]; rfl)
  exact fun hopen => hslash (List.cons_prefix_cons.mp hopen).1.symm

theorem Symbol.isDecimal_of_mem (x : Symbol) {a : Char} (ha : a ∈ x.text.toList) :
    isDecimal a = false := by
  have hall : x.text.toList.all (fun a => !isDecimal a) = true := by
    cases x <;> decide
  simpa using List.all_eq_true.mp hall a ha

/-- A minus in front of a digit is a token of its own. -/
theorem tokensFrom_minus (hc : isDecimal c = true) (s : List Char) :
    tokensFrom line ('-' :: c :: s) = (tokensFrom line (c :: s)).map
    (⟨.symbol .minus, line⟩ :: ·) := by
  have hnoSymbol (x : Symbol) : c ∉ x.text.toList := by
    intro hmem
    rw [x.isDecimal_of_mem hmem] at hc
    cases hc
  have hword : readWord ('-' :: c :: s) = none := by
    rw [readWord, if_neg (by decide +kernel)]
  -- the longest symbol is taken, and there is none that goes on with a digit
  have hsymbol : readSymbol ('-' :: c :: s) = some (.symbol .minus, c :: s) :=
    readSymbol_append hnoSymbol ['-'] s
  refine tokensFrom_token (readGap_of_ne (by decide)) ?_ ?_
  · exact fun hopen => absurd (List.cons_prefix_cons.mp hopen).1 (by decide)
  · rw [readToken_plain (by decide), hword, hsymbol]
    rfl

/-! ## 5. Expressions -/

def exprOf (source : String) : Except Error (Expr × List Lexeme) := do
  let lexemes ← tokenize source
  Parser.runOn (Parser.expr lexemes.length) ((lexemes.getLast?.map Lexeme.line).getD 1) lexemes

/-! ### Runs on the tokens of one number -/

namespace Parser

variable {last fuel : Nat} {level : Level} {expr next : Parser Expr} {lexemes : List Lexeme}

theorem runOn_operands_nil (e : Expr) :
    runOn (operands level next fuel e) last [] = .ok (e, []) := by
  cases fuel <;> rfl

/-- Where nothing is left behind an operand, a level of operators adds nothing. -/
theorem runOn_binary {x : Except Error Expr}
    (h : runOn next last lexemes = x.map fun e => (e, [])) :
    runOn (binary level fuel next) last lexemes = x.map fun e => (e, []) := by
  rw [binary, runOn_bind, h]
  cases x with
  | error e => rfl
  | ok e => exact runOn_operands_nil e

/-- Where nothing is left behind an expression without binary operators, it is the whole
expression. -/
theorem runOn_expr {x : Except Error Expr}
    (h : runOn (unary (Parser.expr fuel) (fuel + 1)) last lexemes = x.map fun e => (e, [])) :
    runOn (Parser.expr (fuel + 1)) last lexemes = x.map fun e => (e, []) := by
  rw [Parser.expr, runOn_bind,
    runOn_binary (runOn_binary (runOn_binary (runOn_binary (runOn_binary h))))]
  cases x <;> rfl

/-- Nothing is accessed where nothing is left. -/
theorem runOn_postfixExpr {x : Except Error Expr}
    (h : runOn (primary expr fuel) last lexemes = x.map fun e => (e, [])) :
    runOn (postfixExpr expr fuel) last lexemes = x.map fun e => (e, []) := by
  rw [postfixExpr, runOn_bind, h]
  cases x with
  | error e => rfl
  | ok e => cases fuel <;> rfl

def literalUnless (tooLarge : Prop) [Decidable tooLarge] (line : Nat) (v : Literal) :
    Except Error Expr :=
  if tooLarge then .error (.syntaxFault line .numberTooLarge) else .ok (.literal v line)

theorem runOn_literalUnless {tooLarge : Prop} [Decidable tooLarge] {v : Literal} :
    runOn (do
      if tooLarge then failAt line .numberTooLarge
      return Expr.literal v line) last [] = (literalUnless tooLarge line v).map fun e =>
      (e, []) := by
  unfold literalUnless
  split <;> rfl

theorem runOn_expr_int (v : Int) : runOn (Parser.expr (fuel + 1)) last [⟨.int v, line⟩] =
    (literalUnless (v > 2147483647) line (.int (Int32.ofInt v))).map fun e => (e, []) :=
  runOn_expr (runOn_postfixExpr runOn_literalUnless)

theorem runOn_expr_long (v : Int64) : runOn (Parser.expr (fuel + 1)) last [⟨.long v, line⟩] =
    (literalUnless (v = Int64.minValue) line (.long v)).map fun e => (e, []) :=
  runOn_expr (runOn_postfixExpr runOn_literalUnless)

theorem runOn_expr_minus_int (v : Int) (n : Nat) :
    runOn (Parser.expr (fuel + 1)) last [⟨.symbol .minus, line⟩, ⟨.int v, n⟩] =
      .ok (.literal (.int (Int32.ofInt (-v))) line, []) :=
  runOn_expr (x := .ok _) rfl

theorem runOn_expr_minus_long (v : Int64) (n : Nat) :
    runOn (Parser.expr (fuel + 1)) last [⟨.symbol .minus, line⟩, ⟨.long v, n⟩] =
      .ok (.literal (.long (-v)) line, []) :=
  runOn_expr (x := .ok _) rfl

end Parser

/-! ### Values -/

theorem exprOf_number (h : readNumber s = some (t, [])) :
    exprOf (String.ofList s) = Parser.runOn (Parser.expr 1) 1 [⟨t, 1⟩] := by
  rw [exprOf, tokenize_eq, String.toList_ofList, tokensFrom_number h]
  rfl

theorem exprOf_minus (h : readNumber s = some (t, [])) :
    exprOf (String.ofList ('-' :: s)) = Parser.runOn (Parser.expr 2) 1
    [⟨.symbol .minus, 1⟩, ⟨t, 1⟩] := by
  obtain ⟨c, s, rfl, hc⟩ := exists_decimal_of_readNumber h
  rw [exprOf, tokenize_eq, String.toList_ofList, tokensFrom_minus hc, tokensFrom_number h]
  rfl

theorem ofBits?_int (v : Int32) : ofBits? v.toUInt32.toNat false = some (.int v.toInt) := by
  have hlt : v.toUInt32.toNat < UInt32.size := v.toUInt32.toNat_lt
  rw [ofBits?, if_neg (by decide), if_pos hlt, UInt32.ofNat_toNat, Int32.toInt32_toUInt32]

theorem ofBits?_long (w : Int64) : ofBits? w.toUInt64.toNat true = some (.long w) := by
  have hlt : w.toUInt64.toNat < UInt64.size := w.toUInt64.toNat_lt
  rw [ofBits?, if_pos rfl, if_pos hlt, UInt64.ofNat_toNat, Int64.toInt64_toUInt64]

theorem ofDecimal?_int (v : Int32) :
    ofDecimal? v.toInt.natAbs false = some (.int v.toInt.natAbs) := by
  have hlow := v.le_toInt
  have hhigh := v.toInt_lt
  rw [ofDecimal?, if_neg (by decide), if_pos]
  simp only [UInt32.size]
  omega

theorem ofDecimal?_long (w : Int64) :
    ofDecimal? w.toInt.natAbs true = some (.long (Int64.ofInt w.toInt.natAbs)) := by
  have hlow := w.le_toInt
  have hhigh := w.toInt_lt
  rw [ofDecimal?, if_pos rfl, if_pos]
  · rfl
  · simp only [UInt64.size]
    omega

/-- The decimal spellings of an `int` are read as it. -/
theorem exprOf_decimal_int {v : Int32} (h : SpellsDecimal v.toInt s) :
    exprOf (String.ofList s) = .ok (.literal (.int v) 1, []) := by
  have hread (s : List Char) (hs : Grouped (Nat.toDigits 10 v.toInt.natAbs) s) := by
    have h := hs.readNumber .int (ofDecimal?_int v)
    rwa [List.append_nil] at h
  cases h with
  | nonneg hpos hs =>
    have habs : (v.toInt.natAbs : Int) = v.toInt := Int.natAbs_of_nonneg hpos
    -- without a minus the parser looks whether the magnitude is an `int`
    have hhigh := v.toInt_lt
    rw [exprOf_number (hread _ hs), Parser.runOn_expr_int, habs, Int32.ofInt_toInt,
      Parser.literalUnless, if_neg (by omega)]
    rfl
  | neg hneg hs =>
    have habs : -(v.toInt.natAbs : Int) = v.toInt := by omega
    rw [exprOf_minus (hread _ hs), Parser.runOn_expr_minus_int, habs, Int32.ofInt_toInt]

/-- The decimal spellings of a `long` are read as it. -/
theorem exprOf_decimal_long {w : Int64} (h : SpellsDecimal w.toInt s)
    (hmark : WidthMark true mark) :
    exprOf (String.ofList (s ++ mark)) = .ok (.literal (.long w) 1, []) := by
  have hread (s : List Char) (hs : Grouped (Nat.toDigits 10 w.toInt.natAbs) s) :=
    hs.readNumber hmark (ofDecimal?_long w)
  cases h with
  | nonneg hpos hs =>
    have habs : (w.toInt.natAbs : Int) = w.toInt := Int.natAbs_of_nonneg hpos
    have hne : w ≠ Int64.minValue := by
      rintro rfl
      exact absurd hpos (by decide)
    rw [exprOf_number (hread _ hs), Parser.runOn_expr_long, habs, Int64.ofInt_toInt,
      Parser.literalUnless, if_neg hne]
    rfl
  | neg hneg hs =>
    have habs : -(w.toInt.natAbs : Int) = w.toInt := by omega
    -- the least `long` is its own negation, so it does not matter that its magnitude is no `long`
    rw [List.cons_append, exprOf_minus (hread _ hs), Parser.runOn_expr_minus_long,
      ← Int64.ofInt_neg, habs, Int64.ofInt_toInt]

/-- The bits of an `int` are read as it. -/
theorem exprOf_bits_int {v : Int32} (h : SpellsBits v.toUInt32.toNat s) :
    exprOf (String.ofList s) = .ok (.literal (.int v) 1, []) := by
  have hread := h.readNumber .int (ofBits?_int v)
  rw [List.append_nil] at hread
  have hhigh := v.toInt_lt
  rw [exprOf_number hread, Parser.runOn_expr_int, Int32.ofInt_toInt, Parser.literalUnless,
    if_neg (by omega)]
  rfl

/-- The bits of a `long` are read as it, save those of the least one, which are refused. -/
theorem exprOf_bits_long {w : Int64} (h : SpellsBits w.toUInt64.toNat s)
    (hmark : WidthMark true mark) :
    exprOf (String.ofList (s ++ mark)) = if w = Int64.minValue then
    .error (.syntaxFault 1 .numberTooLarge) else .ok (.literal (.long w) 1, []) := by
  rw [exprOf_number (h.readNumber hmark (ofBits?_long w)), Parser.runOn_expr_long,
    Parser.literalUnless]
  split <;> rfl

/-- Integer literals have their values.  The decimal spellings of a number of 32 bits and the
hexadecimal and octal ones of its bits are read as this number, and so are those of a number of 64
bits with the mark of a `long`.  Only the bits of the least `long` are refused as too large in
whatever base they are spelled. -/
theorem exprOf_integerLiteral (v : Literal) (s : List Char) :
    (DecimalSpelling v s → exprOf (String.ofList s) = .ok (.literal v 1, [])) ∧
    (BitSpelling v s → exprOf (String.ofList s) =
      if v = .long Int64.minValue then .error (.syntaxFault 1 .numberTooLarge)
      else .ok (.literal v 1, [])) := by
  constructor
  · rintro (h | ⟨h, hmark⟩)
    · exact exprOf_decimal_int h
    · exact exprOf_decimal_long h hmark
  · rintro (h | ⟨h, hmark⟩)
    · rw [if_neg (by simp)]
      exact exprOf_bits_int h
    · simp only [Literal.long.injEq]
      exact exprOf_bits_long h hmark

/-- The least `int` in decimal, the least `long` in decimal, and all bits of a `long` in octal. -/
theorem exprOf_integerLiteral_extreme :
    exprOf "-2_147_483_648" = .ok (.literal (.int Int32.minValue) 1, []) ∧
    exprOf "-9223372036854775808l" = .ok (.literal (.long Int64.minValue) 1, []) ∧
    exprOf "001777777777777777777777L" = .ok (.literal (.long (-1)) 1, []) := by
  have hint := (exprOf_integerLiteral (.int Int32.minValue) ('-' :: "2_147_483_648".toList)).1
    (.int (.neg (by decide) ⟨by decide +kernel, by decide, by decide⟩))
  have hlong :=
    (exprOf_integerLiteral (.long Int64.minValue)
      (('-' :: "9223372036854775808".toList) ++ ['l'])).1
    (.long (.neg (by decide) ⟨by decide +kernel, by decide, by decide⟩) .lower)
  have hdigits : Nat.toDigits 8 (-1 : Int64).toUInt64.toNat = "1777777777777777777777".toList := by
    decide +kernel
  have hbits := (exprOf_integerLiteral (.long (-1)) _).2 (.long (@SpellsBits.octal _ 1) .upper)
  rw [hdigits, if_neg (by decide)] at hbits
  exact ⟨hint, hlong, hbits⟩

/-- The bits of the least `long` are refused, while those of the least `int` are read as it. -/
theorem exprOf_least_long :
    BitSpelling (.long Int64.minValue) "0x8000000000000000L".toList ∧
    exprOf "0x8000000000000000L" = .error (.syntaxFault 1 .numberTooLarge) ∧
    exprOf "0x80000000" = .ok (.literal (.int Int32.minValue) 1, []) := by
  have hlong : Nat.toDigits 16 Int64.minValue.toUInt64.toNat = "8000000000000000".toList := by
    decide +kernel
  have hint : Nat.toDigits 16 Int32.minValue.toUInt32.toNat = "80000000".toList := by decide +kernel
  have hlongBits : SpellsBits Int64.minValue.toUInt64.toNat
      ('0' :: 'x' :: (List.replicate 0 '0' ++ "8000000000000000".toList)) :=
        .hex (.inl rfl) (by rw [hlong]; decide)
  have hintBits : SpellsBits Int32.minValue.toUInt32.toNat
      ('0' :: 'x' :: (List.replicate 0 '0' ++ "80000000".toList)) :=
        .hex (.inl rfl) (by rw [hint]; decide)
  exact ⟨.long hlongBits .upper, (exprOf_bits_long hlongBits .upper).trans (if_pos rfl),
    exprOf_bits_int hintBits⟩

end MethodGraft.Source
