import Mathlib.Data.Option.Basic
import MethodGraft.Source.Lexer

/-!
# Proofs.Source.Readers — what the readers of single tokens consume

Whatever a reader leaves is an end of the text, shorter than it, and the number that bounds its
steps does not matter where it is large enough.
-/

namespace MethodGraft.Source

variable {α : Type} {s rest : List Char}

/-! ## 1. Numbers -/

def LeavesLess (rest s : List Char) : Prop := rest <:+ s ∧ rest.length < s.length

theorem LeavesLess.of_suffix {c : Char} (h : rest <:+ s) : LeavesLess rest (c :: s) :=
  ⟨h.trans (List.suffix_cons c s), Nat.lt_succ_of_le h.length_le⟩

theorem LeavesLess.trans_suffix {t : List Char} (h : rest <:+ t) (ht : LeavesLess t s) :
    LeavesLess rest s :=
  ⟨h.trans ht.1, Nat.lt_of_le_of_lt h.length_le ht.2⟩

theorem leavesLess_of_readDigits {digits : List Char} (h : readDigits s = some (digits, rest)) :
    LeavesLess rest s := by
  cases s with
  | nil => cases h
  | cons c s =>
    simp only [readDigits] at h
    split at h
    · cases h
      exact .of_suffix (List.dropWhile_suffix continuesDigits)
    · cases h

theorem dropLongSuffix_suffix (s : List Char) : (dropLongSuffix s).2 <:+ s := by
  unfold dropLongSuffix
  split
  · exact List.suffix_cons _ _
  · exact List.suffix_cons _ _
  · exact List.suffix_refl _

theorem dropFloatSuffix_suffix (s : List Char) : dropFloatSuffix s <:+ s := by
  cases s with
  | nil => exact List.suffix_refl _
  | cons c s =>
    simp only [dropFloatSuffix]
    split
    · exact List.suffix_cons c s
    · exact List.suffix_refl _

theorem dropDigits_suffix (s : List Char) : dropDigits s <:+ s := by
  unfold dropDigits
  split
  next h => exact (leavesLess_of_readDigits h).1
  next => exact List.suffix_refl _

theorem suffix_of_dropExponent? (h : dropExponent? s = some rest) : rest <:+ s := by
  cases s with
  | nil => cases h
  | cons c s =>
    simp only [dropExponent?] at h
    split at h
    · obtain ⟨⟨digits, rest'⟩, hdigits, rfl⟩ := Option.map_eq_some_iff.mp h
      exact (leavesLess_of_readDigits hdigits).1.trans (List.suffix_cons c s)
    · cases h

theorem suffix_of_dropFloatTail? (h : dropFloatTail? s = some rest) : rest <:+ s := by
  unfold dropFloatTail? at h
  split at h
  next s =>
    cases h
    apply (dropFloatSuffix_suffix _).trans
    apply List.IsSuffix.trans _ (List.suffix_cons '.' s)
    cases hexp : dropExponent? (dropDigits s) with
    | none => exact dropDigits_suffix s
    | some t => exact (suffix_of_dropExponent? hexp).trans (dropDigits_suffix s)
  next =>
    split at h
    next t hexp =>
      cases h
      exact (dropFloatSuffix_suffix t).trans (suffix_of_dropExponent? hexp)
    next =>
      split at h
      next c s _ _ =>
        split at h
        · cases h
          exact List.suffix_cons c rest
        · cases h
      next => cases h

theorem leavesLess_of_readFloat {t : Token} (h : readFloat s = some (t, rest)) :
    LeavesLess rest s := by
  simp only [readFloat, Option.bind_eq_bind, Option.bind_eq_some_iff, Option.pure_def,
    Option.some.injEq, Prod.mk.injEq] at h
  obtain ⟨⟨digits, after⟩, hdigits, tail, htail, -, rfl⟩ := h
  exact .trans_suffix (suffix_of_dropFloatTail? htail) (leavesLess_of_readDigits hdigits)

theorem leavesLess_of_readHex {t : Token} (h : readHex s = some (t, rest)) : LeavesLess rest s := by
  unfold readHex at h
  split at h
  next x s =>
    split at h
    · simp only [Option.bind_eq_bind, Option.pure_def] at h
      split at h
      · cases h
      · obtain ⟨bits, -, h⟩ := Option.bind_eq_some_iff.mp h
        obtain ⟨u, -, h⟩ := Option.bind_eq_some_iff.mp h
        cases h
        apply LeavesLess.of_suffix
        apply List.IsSuffix.trans _ (List.suffix_cons x s)
        exact (dropLongSuffix_suffix _).trans (List.dropWhile_suffix _)
    · cases h
  next => cases h

theorem leavesLess_of_readOctal {t : Token} (h : readOctal s = some (t, rest)) :
    LeavesLess rest s := by
  unfold readOctal at h
  split at h
  next s =>
    simp only [Option.bind_eq_bind, Option.pure_def] at h
    split at h
    · cases h
    · obtain ⟨bits, -, h⟩ := Option.bind_eq_some_iff.mp h
      obtain ⟨u, -, h⟩ := Option.bind_eq_some_iff.mp h
      cases h
      exact .of_suffix ((dropLongSuffix_suffix _).trans (List.dropWhile_suffix _))
  next => cases h

theorem leavesLess_of_readDecimal {t : Token} (h : readDecimal s = some (t, rest)) :
    LeavesLess rest s := by
  simp only [readDecimal, Option.bind_eq_bind, Option.bind_eq_some_iff] at h
  obtain ⟨⟨digits, after⟩, hdigits, h⟩ := h
  split at h
  · cases h
  · simp only [Option.bind_eq_some_iff, Option.pure_def, Option.some.injEq, Prod.mk.injEq] at h
    obtain ⟨value, -, u, -, -, rfl⟩ := h
    exact .trans_suffix (dropLongSuffix_suffix after) (leavesLess_of_readDigits hdigits)

theorem leavesLess_of_readNumber {t : Token} (h : readNumber s = some (t, rest)) :
    LeavesLess rest s := by
  simp only [readNumber, Option.orElse_eq_some] at h
  obtain h | ⟨-, h | ⟨-, h | ⟨-, h⟩⟩⟩ := h
  · exact leavesLess_of_readFloat h
  · exact leavesLess_of_readHex h
  · exact leavesLess_of_readOctal h
  · exact leavesLess_of_readDecimal h

/-- Hexadecimal and octal literals start with a zero. -/
theorem readHex_eq_none {c : Char} (h : c ≠ '0') : readHex (c :: s) = none := by
  unfold readHex
  split
  next heq => exact absurd (List.cons.inj heq).1 h
  next => rfl

theorem readOctal_eq_none {c : Char} (h : c ≠ '0') : readOctal (c :: s) = none := by
  unfold readOctal
  split
  next heq => exact absurd (List.cons.inj heq).1 h
  next => rfl

/-- Numbers start with a digit. -/
theorem readNumber_eq_none {c : Char} (h : isDecimal c = false) : readNumber (c :: s) = none := by
  have hzero : c ≠ '0' := by
    rintro rfl
    revert h
    decide
  have hdigits : readDigits (c :: s) = none := by simp [readDigits, h]
  simp [readNumber, readFloat, readDecimal, hdigits, readHex_eq_none hzero, readOctal_eq_none hzero]

/-! ## 2. Strings and characters -/

theorem suffix_of_readUnitEscape {e : Char} (h : readUnitEscape s = some (e, rest)) :
    rest <:+ s := by
  induction s with
  | nil => simp [readUnitEscape] at h
  | cons c s ih =>
    unfold readUnitEscape at h
    split at h
    next heq =>
      cases heq
      exact (ih h).trans (List.suffix_cons _ _)
    next a b c d s _ heq =>
      split at h
      · simp only [Option.bind_eq_bind, Option.pure_def] at h
        obtain ⟨n, -, h⟩ := Option.bind_eq_some_iff.mp h
        obtain ⟨u, -, h⟩ := Option.bind_eq_some_iff.mp h
        cases h
        rw [heq]
        exact ⟨[a, b, c, d], rfl⟩
      · cases h
    next => cases h

theorem suffix_of_readOctalEscape {e : Char} (h : readOctalEscape s = some (e, rest)) :
    rest <:+ s := by
  simp only [readOctalEscape, Option.bind_eq_bind, Option.pure_def] at h
  rw [ite_eq_iff] at h
  obtain ⟨-, h⟩ | ⟨-, h⟩ := h
  · cases h
  · obtain ⟨n, -, h⟩ := Option.bind_eq_some_iff.mp h
    obtain ⟨u, -, h⟩ := Option.bind_eq_some_iff.mp h
    cases h
    exact List.drop_suffix _ s

theorem suffix_of_readEscape {e : Char} (h : readEscape s = some (e, rest)) : rest <:+ s := by
  cases s with
  | nil => cases h
  | cons c s =>
    simp only [readEscape] at h
    split at h
    case h_9 => exact (suffix_of_readUnitEscape h).trans (List.suffix_cons _ s)
    case h_10 => exact suffix_of_readOctalEscape h
    all_goals
      cases h
      exact List.suffix_cons _ rest

theorem leavesLess_of_readStringRest {fuel : Nat} {read text : List Char}
    (h : readStringRest fuel read s = some (text, rest)) : LeavesLess rest s := by
  induction fuel generalizing read s with
  | zero => cases h
  | succ fuel ih =>
    cases s with
    | nil => cases h
    | cons c s =>
      simp only [readStringRest] at h
      split at h
      · cases h
        exact .of_suffix (List.suffix_refl rest)
      · split at h
        · cases h
        · split at h
          · split at h
            next e s' he => exact .of_suffix ((ih h).1.trans (suffix_of_readEscape he))
            next => cases h
          · exact .of_suffix (ih h).1

theorem leavesLess_of_readString {fuel : Nat} {t : Token} (h : readString fuel s = some (t, rest)) :
    LeavesLess rest s := by
  unfold readString at h
  split at h
  next s' =>
    obtain ⟨⟨text, s''⟩, htext, heq⟩ := Option.map_eq_some_iff.mp h
    cases heq
    exact .of_suffix (leavesLess_of_readStringRest htext).1
  next => cases h

theorem suffix_of_readCharBody {c : Char} (h : readCharBody s = some (c, rest)) : rest <:+ s := by
  cases s with
  | nil => cases h
  | cons a s =>
    simp only [readCharBody] at h
    split at h
    · exact (suffix_of_readEscape h).trans (List.suffix_cons a s)
    · split at h
      · cases h
      · cases h
        exact List.suffix_cons c rest

theorem leavesLess_of_readChar {t : Token} (h : readChar s = some (t, rest)) :
    LeavesLess rest s := by
  unfold readChar at h
  split at h
  next s =>
    split at h
    next c s' hbody =>
      split at h
      · cases h
        exact .of_suffix ((List.suffix_cons _ rest).trans (suffix_of_readCharBody hbody))
      · cases h
    next => cases h
  next => cases h

/-! ## 3. Words and symbols -/

theorem leavesLess_of_readWord {t : Token} (h : readWord s = some (t, rest)) :
    LeavesLess rest s := by
  cases s with
  | nil => cases h
  | cons c s =>
    simp only [readWord] at h
    split at h
    · cases h
      exact .of_suffix (List.dropWhile_suffix continuesName)
    · cases h

/-- Dropping a spelling takes its characters off the front. -/
theorem dropWord?_eq_some_iff {word : List Char} :
    Symbol.dropWord? word s = some rest ↔ s = word ++ rest := by
  induction word generalizing s with
  | nil => simp [Symbol.dropWord?]
  | cons a word ih =>
    cases s with
    | nil => simp [Symbol.dropWord?]
    | cons c s =>
      by_cases hac : a = c
      · subst hac
        simp [Symbol.dropWord?, ih]
      · simp [Symbol.dropWord?, hac, Ne.symm hac]

theorem Symbol.text_ne_nil (x : Symbol) : x.text.toList ≠ [] := by
  cases x <;> decide

theorem leavesLess_of_readSymbol {t : Token} (h : readSymbol s = some (t, rest)) :
    LeavesLess rest s := by
  obtain ⟨⟨x, rest'⟩, hread, heq⟩ := Option.map_eq_some_iff.mp h
  cases heq
  obtain ⟨x', -, hx⟩ := List.exists_of_findSome?_eq_some hread
  obtain ⟨rest', hdrop, heq⟩ := Option.map_eq_some_iff.mp hx
  cases heq
  rw [dropWord?_eq_some_iff.mp hdrop]
  cases htext : x.text.toList with
  | nil => exact absurd htext x.text_ne_nil
  | cons a word => exact .of_suffix (List.suffix_append word rest)

/-! ## 4. Tokens and gaps -/

/-- A token takes at least one character. -/
theorem leavesLess_of_readToken {fuel : Nat} {t : Token} (h : readToken fuel s = some (t, rest)) :
    LeavesLess rest s := by
  simp only [readToken, Option.orElse_eq_some] at h
  obtain h | ⟨-, h | ⟨-, h | ⟨-, h | ⟨-, h⟩⟩⟩⟩ := h
  · exact leavesLess_of_readNumber h
  · exact leavesLess_of_readString h
  · exact leavesLess_of_readChar h
  · exact leavesLess_of_readWord h
  · exact leavesLess_of_readSymbol h

theorem suffix_of_closeComment {lineFeeds n : Nat} (h : closeComment lineFeeds s = some (n, rest)) :
    rest <:+ s := by
  fun_induction closeComment lineFeeds s with
  | case1 => cases h
  | case2 lineFeeds s =>
    cases h
    exact ⟨['*', '/'], rfl⟩
  | case3 lineFeeds c s _ ih => exact (ih h).trans (List.suffix_cons c s)

theorem suffix_of_closeLine (h : closeLine s = some rest) : rest <:+ s := by
  have hend := List.dropWhile_suffix (fun c => !endsLine c) (l := s)
  unfold closeLine at h
  split at h
  next heq =>
    cases h
    rwa [heq] at hend
  next => cases h
  next =>
    cases h
    exact hend

/-- A gap takes at least one character. -/
theorem leavesLess_of_readGap {n : Nat} (h : readGap s = some (n, rest)) : LeavesLess rest s := by
  cases s with
  | nil => cases h
  | cons c s =>
    simp only [readGap] at h
    split at h
    · cases h
      exact .of_suffix (List.suffix_refl rest)
    · split at h
      next s' =>
        obtain ⟨s', hclose, heq⟩ := Option.map_eq_some_iff.mp h
        cases heq
        exact .of_suffix ((suffix_of_closeLine hclose).trans (List.suffix_cons _ _))
      next s' => exact .of_suffix ((suffix_of_closeComment h).trans (List.suffix_cons _ _))
      next => cases h

theorem skipGaps_suffix (fuel line : Nat) (s : List Char) : (skipGaps fuel line s).2 <:+ s := by
  induction fuel generalizing line s with
  | zero => exact List.suffix_refl s
  | succ fuel ih =>
    simp only [skipGaps]
    split
    next lineFeeds s' hgap => exact (ih _ s').trans (leavesLess_of_readGap hgap).1
    next => exact List.suffix_refl s

/-! ## 5. Fuel -/

/-- Fuel beyond the length of a string literal does not change what is read. -/
theorem readStringRest_fuel {m n : Nat} (read : List Char) (hm : s.length ≤ m) (hn : s.length ≤ n) :
    readStringRest (m + 1) read s = readStringRest (n + 1) read s := by
  induction m generalizing n read s with
  | zero =>
    cases List.length_eq_zero_iff.mp (Nat.le_zero.mp hm)
    rfl
  | succ m ih =>
    cases s with
    | nil => rfl
    | cons c s =>
      cases n with
      | zero => simp at hn
      | succ n =>
        simp only [List.length_cons] at hm hn
        simp only [readStringRest]
        split
        · rfl
        · split
          · rfl
          · split
            · split
              next e s' he =>
                have hlength := (suffix_of_readEscape he).length_le
                exact ih (e :: read) (by omega) (by omega)
              next => rfl
            · exact ih (c :: read) (by omega) (by omega)

/-- Fuel beyond the length of the text does not change the token read. -/
theorem readToken_fuel {m n : Nat} (hm : s.length ≤ m) (hn : s.length ≤ n) :
    readToken m s = readToken n s := by
  have hstring : readString m s = readString n s := by
    unfold readString
    split
    next s' =>
      obtain ⟨m, rfl⟩ := Nat.exists_eq_add_of_lt hm
      obtain ⟨n, rfl⟩ := Nat.exists_eq_add_of_lt hn
      rw [readStringRest_fuel (m := s'.length + m) (n := s'.length + n) [] (by omega) (by omega)]
    next => rfl
  simp only [readToken, hstring]

/-- Fuel beyond the length of the text does not change where its gaps end. -/
theorem skipGaps_fuel {m n : Nat} (line : Nat) (hm : s.length ≤ m) (hn : s.length ≤ n) :
    skipGaps m line s = skipGaps n line s := by
  induction m generalizing n line s with
  | zero =>
    cases List.length_eq_zero_iff.mp (Nat.le_zero.mp hm)
    cases n <;> rfl
  | succ m ih =>
    cases n with
    | zero =>
      cases List.length_eq_zero_iff.mp (Nat.le_zero.mp hn)
      rfl
    | succ n =>
      simp only [skipGaps]
      split
      next lineFeeds s' hgap =>
        have hlength := (leavesLess_of_readGap hgap).2
        exact ih (line + lineFeeds) (by omega) (by omega)
      next => rfl

end MethodGraft.Source
