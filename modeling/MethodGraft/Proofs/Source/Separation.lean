import MethodGraft.Proofs.Source.Tokens

/-!
# Proofs.Source.Separation — tokens in front of a space

A space separates tokens.  What a reader reads at the front of a text it also reads if the text is
followed by a space and anything else, and no number, word or symbol that was not there before comes
about.  Only a string or a character may get the closing quote that it lacks.
-/

namespace MethodGraft.Source

variable {s q rest : List Char} {t : Token} {line lineFeeds : Nat} {ts : List Lexeme}

/-! ## 1. Numbers -/

theorem readDigits_space (s q : List Char) :
    readDigits (s ++ ' ' :: q) = (readDigits s).map fun (digits, rest) =>
    (digits, rest ++ ' ' :: q) := by
  cases s with
  | nil => rfl
  | cons c s =>
    simp only [List.cons_append, readDigits,
      takeWhile_append_stop (p := continuesDigits) (b := ' ') (by decide),
      dropWhile_append_stop (p := continuesDigits) (b := ' ') (by decide)]
    split <;> rfl

theorem dropLongSuffix_space (s q : List Char) :
    dropLongSuffix (s ++ ' ' :: q) = ((dropLongSuffix s).1, (dropLongSuffix s).2 ++ ' ' :: q) := by
  cases s with
  | nil => rfl
  | cons c s =>
    rw [List.cons_append]
    unfold dropLongSuffix
    split
    next heq =>
      cases heq
      rfl
    next heq =>
      cases heq
      rfl
    next hlower hupper =>
      split
      next heq => exact absurd (congrArg (· ++ ' ' :: q) heq) (hlower _)
      next heq => exact absurd (congrArg (· ++ ' ' :: q) heq) (hupper _)
      next => rfl

theorem dropFloatSuffix_space (s q : List Char) :
    dropFloatSuffix (s ++ ' ' :: q) = dropFloatSuffix s ++ ' ' :: q := by
  cases s with
  | nil => rfl
  | cons c s =>
    simp only [List.cons_append, dropFloatSuffix]
    split <;> rfl

theorem dropExponent?_space (s q : List Char) :
    dropExponent? (s ++ ' ' :: q) = (dropExponent? s).map (· ++ ' ' :: q) := by
  cases s with
  | nil => rfl
  | cons c s =>
    simp only [List.cons_append, dropExponent?, readDigits_space]
    split
    · cases readDigits s <;> rfl
    · rfl

theorem dropDigits_space (s q : List Char) :
    dropDigits (s ++ ' ' :: q) = dropDigits s ++ ' ' :: q := by
  unfold dropDigits
  rw [readDigits_space]
  cases readDigits s <;> rfl

/-- Without a point it is the exponent or the suffix that counts. -/
theorem dropFloatTail?_of_ne {c : Char} (hc : c ≠ '.') (s : List Char) : dropFloatTail? (c :: s) =
    match dropExponent? (c :: s) with
    | some rest => some (dropFloatSuffix rest)
    | none => if isFloatSuffix c then some s else none := by
  unfold dropFloatTail?
  split
  next heq => exact absurd (List.cons.inj heq).1 hc
  next => rfl

theorem dropFloatTail?_space (s q : List Char) :
    dropFloatTail? (s ++ ' ' :: q) = (dropFloatTail? s).map (· ++ ' ' :: q) := by
  cases s with
  | nil => rfl
  | cons c s =>
    by_cases hc : c = '.'
    · subst hc
      simp only [List.cons_append, dropFloatTail?, dropDigits_space, dropExponent?_space,
        Option.map_some]
      cases dropExponent? (dropDigits s) <;> simp [dropFloatSuffix_space]
    · have hexponent := dropExponent?_space (c :: s) q
      rw [List.cons_append] at hexponent ⊢
      rw [dropFloatTail?_of_ne hc, dropFloatTail?_of_ne hc, hexponent]
      cases dropExponent? (c :: s) with
      | some rest => simp [dropFloatSuffix_space]
      | none =>
        simp only [Option.map_none]
        split <;> rfl

theorem spanBefore_append (s rest q : List Char) :
    spanBefore (s ++ q) (rest ++ q) = spanBefore s rest := by
  rw [spanBefore, spanBefore, List.length_append, List.length_append, Nat.add_sub_add_right,
    List.take_append_of_le_length (Nat.sub_le _ _)]

theorem readFloat_space (s q : List Char) :
    readFloat (s ++ ' ' :: q) = (readFloat s).map fun (t, rest) => (t, rest ++ ' ' :: q) := by
  simp only [readFloat, readDigits_space]
  cases readDigits s with
  | none => rfl
  | some p =>
    obtain ⟨digits, after⟩ := p
    simp only [Option.map_some, Option.bind_eq_bind, Option.bind_some, dropFloatTail?_space]
    cases dropFloatTail? after with
    | none => rfl
    | some rest => simp [spanBefore_append]

theorem readHex_space (s q : List Char) :
    readHex (s ++ ' ' :: q) = (readHex s).map fun (t, rest) => (t, rest ++ ' ' :: q) := by
  obtain _ | ⟨c, _ | ⟨x, s⟩⟩ := s
  · rfl
  · by_cases hc : c = '0'
    -- the `x` is missing, and a space is none
    · subst hc
      rfl
    · rw [List.cons_append, readHex_eq_none hc, readHex_eq_none hc]
      rfl
  · by_cases hc : c = '0'
    · subst hc
      simp only [List.cons_append, readHex,
        takeWhile_append_stop (p := isDigitOf 16) (b := ' ') (by decide),
        dropWhile_append_stop (p := isDigitOf 16) (b := ' ') (by decide), dropLongSuffix_space]
      split
      · split
        · rfl
        · cases valueOnto 16 0 (s.takeWhile (isDigitOf 16)) with
          | none => rfl
          | some bits =>
            cases h : ofBits? bits (dropLongSuffix (s.dropWhile (isDigitOf 16))).1 <;> simp [h]
      · rfl
    · rw [List.cons_append, readHex_eq_none hc, readHex_eq_none hc]
      rfl

theorem readOctal_space (s q : List Char) :
    readOctal (s ++ ' ' :: q) = (readOctal s).map fun (t, rest) => (t, rest ++ ' ' :: q) := by
  cases s with
  | nil => rfl
  | cons c s =>
    by_cases hc : c = '0'
    · subst hc
      simp only [List.cons_append, readOctal,
        takeWhile_append_stop (p := continuesDigits) (b := ' ') (by decide),
        dropWhile_append_stop (p := continuesDigits) (b := ' ') (by decide), dropLongSuffix_space]
      split
      · rfl
      · cases valueOnto 8 0 (s.takeWhile continuesDigits) with
        | none => rfl
        | some bits =>
          cases h : ofBits? bits (dropLongSuffix (s.dropWhile continuesDigits)).1 <;> simp [h]
    · rw [List.cons_append, readOctal_eq_none hc, readOctal_eq_none hc]
      rfl

theorem readDecimal_space (s q : List Char) :
    readDecimal (s ++ ' ' :: q) = (readDecimal s).map fun (t, rest) => (t, rest ++ ' ' :: q) := by
  simp only [readDecimal, readDigits_space]
  cases readDigits s with
  | none => rfl
  | some p =>
    obtain ⟨digits, after⟩ := p
    simp only [Option.map_some, Option.bind_eq_bind, Option.bind_some, dropLongSuffix_space]
    split
    · rfl
    · cases valueOnto 10 0 digits with
      | none => rfl
      | some value => cases h : ofDecimal? value (dropLongSuffix after).1 <;> simp [h]

theorem readNumber_space (s q : List Char) :
    readNumber (s ++ ' ' :: q) = (readNumber s).map fun (t, rest) => (t, rest ++ ' ' :: q) := by
  simp only [readNumber, readFloat_space, readHex_space, readOctal_space, readDecimal_space]
  cases readFloat s <;> cases readHex s <;> cases readOctal s <;> rfl

/-! ## 2. Strings and characters -/

theorem readUnitEscape_append {e : Char} (h : readUnitEscape s = some (e, rest)) (q : List Char) :
    readUnitEscape (s ++ q) = some (e, rest ++ q) := by
  fun_induction readUnitEscape s with
  | case1 s ih => exact ih h
  | case2 a b c d s hu hdigits =>
    simp only [List.cons_append]
    rw [readUnitEscape, if_pos hdigits]
    · simp only [Option.bind_eq_bind, Option.pure_def] at h ⊢
      obtain ⟨n, hn, h⟩ := Option.bind_eq_some_iff.mp h
      obtain ⟨u, hu, h⟩ := Option.bind_eq_some_iff.mp h
      cases h
      rw [hn, Option.bind_some, hu]
      rfl
    · exact hu
  | case3 => cases h
  | case4 => cases h

/-- A space is no octal digit, so an escape of one or two digits ends in front of it. -/
theorem readOctalEscape_space (s q : List Char) :
    readOctalEscape (s ++ ' ' :: q) = (readOctalEscape s).map
    fun (e, rest) => (e, rest ++ ' ' :: q) := by
  have hlength := (List.takeWhile_prefix (isDigitOf 8) (l := s)).length_le
  -- what is taken are some of the octal digits in front, and those are in `s`
  have htaken (n : Nat) (hn : n ≤ (s.takeWhile (isDigitOf 8)).length) (value : Option Nat) :
      (do return (← charOf? (← value), (s ++ ' ' :: q).drop n)) =
        (do return (← charOf? (← value), s.drop n) : Option (Char × List Char)).map
          fun (e, rest) => (e, rest ++ ' ' :: q) := by
    rw [List.drop_append_of_le_length (hn.trans hlength)]
    cases value with
    | none => rfl
    | some value => cases h : charOf? value <;> simp [h]
  simp only [readOctalEscape, takeWhile_append_stop (p := isDigitOf 8) (b := ' ') (by decide)]
  generalize s.takeWhile (isDigitOf 8) = digits at htaken
  obtain _ | ⟨a, _ | ⟨b, _ | ⟨c, digits⟩⟩⟩ := digits
  · rfl
  · exact htaken 1 (by simp) _
  · exact htaken 2 (by simp) _
  · by_cases ha : a ≤ '3'
    · simp only [ha, if_true]
      exact htaken 3 (by simp) _
    · simp only [ha, if_false]
      exact htaken 2 (by simp) _

theorem readEscape_space {e : Char} (h : readEscape s = some (e, rest)) (q : List Char) :
    readEscape (s ++ ' ' :: q) = some (e, rest ++ ' ' :: q) := by
  fun_cases readEscape s
  case case1 => cases h
  case case10 s => exact readUnitEscape_append h _
  case case11 c s _ _ _ _ _ _ _ _ _ =>
    rw [readEscape] at h
    · rw [List.cons_append, readEscape, ← List.cons_append, readOctalEscape_space, h]
      · rfl
      all_goals assumption
    all_goals assumption
  -- the other escapes are one letter
  all_goals
    cases h
    rfl

/-- A string literal that is closed stays as it is. -/
theorem readStringRest_space {m n : Nat} {read text : List Char}
    (h : readStringRest m read s = some (text, rest))
    (hmn : m ≤ n) (q : List Char) :
    readStringRest n read (s ++ ' ' :: q) = some (text, rest ++ ' ' :: q) := by
  -- the fuel is the length of the text, so there is more of it when something follows
  induction m generalizing n read s with
  | zero => cases h
  | succ m ih =>
    cases s with
    | nil => cases h
    | cons c s =>
      obtain ⟨n, rfl⟩ := Nat.exists_eq_add_of_le' hmn
      rw [← Nat.add_assoc, List.cons_append]
      simp only [readStringRest] at h ⊢
      split at h
      next hclosing =>
        cases h
        rw [if_pos hclosing]
      next hclosing =>
        rw [if_neg hclosing]
        split at h
        next => cases h
        next hline =>
          rw [if_neg hline]
          split at h
          next hescape =>
            rw [if_pos hescape]
            split at h
            next e s' he =>
              rw [readEscape_space he]
              exact ih h (Nat.le_add_left m n)
            next => cases h
          next hescape =>
            rw [if_neg hescape]
            exact ih h (Nat.le_add_left m n)

theorem readString_space {m n : Nat} (h : readString m s = some (t, rest)) (hmn : m ≤ n)
    (q : List Char) : readString n (s ++ ' ' :: q) = some (t, rest ++ ' ' :: q) := by
  unfold readString at h
  split at h
  next s =>
    obtain ⟨⟨text, s'⟩, htext, heq⟩ := Option.map_eq_some_iff.mp h
    cases heq
    rw [List.cons_append, readString, readStringRest_space htext hmn]
    rfl
  next => cases h

theorem readCharBody_space {c : Char} (h : readCharBody s = some (c, rest)) (q : List Char) :
    readCharBody (s ++ ' ' :: q) = some (c, rest ++ ' ' :: q) := by
  cases s with
  | nil => cases h
  | cons a s =>
    simp only [List.cons_append, readCharBody] at h ⊢
    split at h
    next hescape =>
      rw [if_pos hescape]
      exact readEscape_space h q
    next hescape =>
      rw [if_neg hescape]
      split at h
      next => cases h
      next hclosing =>
        cases h
        rw [if_neg hclosing]

theorem readChar_space (h : readChar s = some (t, rest)) (q : List Char) :
    readChar (s ++ ' ' :: q) = some (t, rest ++ ' ' :: q) := by
  unfold readChar at h
  split at h
  next s =>
    split at h
    next c s' hbody =>
      split at h
      next hunit =>
        cases h
        rw [List.cons_append, readChar, readCharBody_space hbody]
        exact if_pos hunit
      next => cases h
    next => cases h
  next => cases h

/-! ## 3. Tokens -/

/-- A space is in no word and in no symbol. -/
theorem isBarrier_space : IsBarrier ' ' where
  continuesName := by decide +kernel
  symbol := by
    intro x
    cases x <;> decide

/-- A character that is in no symbol starts none. -/
theorem readSymbol_eq_none {c : Char} (hc : ∀ x : Symbol, c ∉ x.text.toList) (s : List Char) :
    readSymbol (c :: s) = none :=
  readSymbol_append hc [] s

/-- Behind a double quote there can only be a string. -/
theorem readToken_doubleQuote (fuel : Nat) (s : List Char) :
    readToken fuel ('"' :: s) = readString fuel ('"' :: s) := by
  have hchar : readChar ('"' :: s) = none := rfl
  have hword : readWord ('"' :: s) = none := by
    rw [readWord, if_neg (by decide +kernel)]
  have hsymbol : readSymbol ('"' :: s) = none :=
    readSymbol_eq_none (fun x => by cases x <;> decide) s
  rw [readToken, readNumber_eq_none (by decide), hchar, hword, hsymbol]
  cases readString fuel ('"' :: s) <;> rfl

/-- Behind a single quote there can only be a character. -/
theorem readToken_singleQuote (fuel : Nat) (s : List Char) :
    readToken fuel ('\'' :: s) = readChar ('\'' :: s) := by
  have hstring : readString fuel ('\'' :: s) = none := rfl
  have hword : readWord ('\'' :: s) = none := by
    rw [readWord, if_neg (by decide +kernel)]
  have hsymbol : readSymbol ('\'' :: s) = none :=
    readSymbol_eq_none (fun x => by cases x <;> decide) s
  rw [readToken, readNumber_eq_none (by decide), hstring, hword, hsymbol]
  cases readChar ('\'' :: s) <;> rfl

/-- Behind anything else there is a number, a word or a symbol. -/
theorem readToken_of_ne {c : Char} (hdouble : c ≠ '"') (hsingle : c ≠ '\'') (fuel : Nat)
    (s : List Char) :
    readToken fuel (c :: s) =
    (readNumber (c :: s) <|> readWord (c :: s) <|> readSymbol (c :: s)) := by
  have hstring : readString fuel (c :: s) = none := by
    unfold readString
    split
    next heq => exact absurd (List.cons.inj heq).1 hdouble
    next => rfl
  have hchar : readChar (c :: s) = none := by
    unfold readChar
    split
    next heq => exact absurd (List.cons.inj heq).1 hsingle
    next => rfl
  rw [readToken, hstring, hchar]
  rfl

/-- The token in front stays the same if a space and anything else follow the text. -/
theorem readToken_space {m n : Nat} (h : readToken m s = some (t, rest)) (hmn : m ≤ n)
    (q : List Char) : readToken n (s ++ ' ' :: q) = some (t, rest ++ ' ' :: q) := by
  cases s with
  | nil => cases h
  | cons c s =>
    -- a string or a character that fails here may be read there, so the quotes are taken apart from
    -- all the others
    by_cases hdouble : c = '"'
    · subst hdouble
      rw [readToken_doubleQuote] at h
      rw [List.cons_append, readToken_doubleQuote]
      exact readString_space h hmn q
    by_cases hsingle : c = '\''
    · subst hsingle
      rw [readToken_singleQuote] at h
      rw [List.cons_append, readToken_singleQuote]
      exact readChar_space h q
    have hword := readWord_append (c := c) isBarrier_space s q
    rw [readToken_of_ne hdouble hsingle] at h
    rw [List.cons_append, readToken_of_ne hdouble hsingle, ← List.cons_append, readNumber_space,
      hword, readSymbol_append isBarrier_space.symbol]
    revert h
    cases readNumber (c :: s) <;> cases readWord (c :: s) <;> intro h <;> simp_all

/-! ## 4. Gaps -/

def WithinLine (s : List Char) : Prop := ∀ c ∈ s, endsLine c = false

/-- A line is looked through up to its first line feed or carriage return. -/
theorem dropWhile_line {x : List Char} (hx : WithinLine x) (s : List Char) :
    (x ++ s).dropWhile (fun c => !endsLine c) = s.dropWhile fun c => !endsLine c :=
  List.dropWhile_append_of_pos fun c hc => by simp [hx c hc]

/-- A text has no line end, or a first one. -/
theorem line_cases (s : List Char) : ∃ x, WithinLine x ∧
    (s = x ∨ (∃ rest, s = x ++ '\n' :: rest) ∨ ∃ rest, s = x ++ '\r' :: rest) := by
  refine ⟨s.takeWhile fun c => !endsLine c, fun c hc => by simpa using List.mem_takeWhile_imp hc,
    ?_⟩
  have hsplit := List.takeWhile_append_dropWhile (p := fun c => !endsLine c) (l := s)
  cases hrest : s.dropWhile fun c => !endsLine c with
  | nil =>
    rw [hrest, List.append_nil] at hsplit
    exact .inl hsplit.symm
  | cons c rest =>
    rw [hrest] at hsplit
    have hc : endsLine c = true := by
      have hhead := List.head?_dropWhile_not (fun c => !endsLine c) s
      rw [hrest] at hhead
      simpa using hhead
    simp only [endsLine, Bool.or_eq_true, beq_iff_eq] at hc
    obtain rfl | rfl := hc
    · exact .inr (.inr ⟨rest, hsplit.symm⟩)
    · exact .inr (.inl ⟨rest, hsplit.symm⟩)

theorem closeLine_end {x : List Char} (hx : WithinLine x) : closeLine x = some [] := by
  have h := dropWhile_line hx []
  rw [List.append_nil] at h
  rw [closeLine, h]
  rfl

theorem closeLine_lineFeed {x : List Char} (hx : WithinLine x) (s : List Char) :
    closeLine (x ++ '\n' :: s) = some ('\n' :: s) := by
  rw [closeLine, dropWhile_line hx]
  rfl

theorem closeLine_return {x : List Char} (hx : WithinLine x) (s : List Char) :
    closeLine (x ++ '\r' :: s) = if s.head? = some '\n' then some ('\r' :: s) else none := by
  rw [closeLine, dropWhile_line hx]
  cases s with
  | nil => rfl
  | cons c s =>
    by_cases hc : c = '\n'
    · subst hc
      rfl
    · have hdrop : ('\r' :: c :: s).dropWhile (fun c => !endsLine c) = '\r' :: c :: s := rfl
      rw [hdrop, if_neg (by simpa using hc)]
      split
      next heq => exact absurd (List.cons.inj (List.cons.inj heq).2).1 hc
      next => rfl
      next hreturn => exact absurd rfl (hreturn _)

theorem closeLine_space_none (h : closeLine s = none) (q : List Char) :
    closeLine (s ++ ' ' :: q) = none := by
  obtain ⟨x, hx, rfl | ⟨rest, rfl⟩ | ⟨rest, rfl⟩⟩ := line_cases s
  · rw [closeLine_end hx] at h
    cases h
  · rw [closeLine_lineFeed hx] at h
    cases h
  · rw [closeLine_return hx] at h
    rw [List.append_assoc, List.cons_append, closeLine_return hx]
    cases rest with
    | nil => rfl
    | cons c rest =>
      rw [List.head?_cons] at h
      rw [List.cons_append, List.head?_cons]
      split at h
      · cases h
      next hc => exact if_neg hc

/-- A line comment that ends before its text ends is the same in front of a space. -/
theorem closeLine_space (h : closeLine s = some rest) (q : List Char) :
    closeLine (s ++ ' ' :: q) = some (rest ++ ' ' :: q) ∨ rest = [] ∧ WithinLine s := by
  obtain ⟨x, hx, rfl | ⟨after, rfl⟩ | ⟨after, rfl⟩⟩ := line_cases s
  -- the comment is not over, and goes on in what follows
  · rw [closeLine_end hx] at h
    cases h
    exact .inr ⟨rfl, hx⟩
  · rw [closeLine_lineFeed hx] at h
    cases h
    rw [List.append_assoc, List.cons_append, closeLine_lineFeed hx]
    exact .inl rfl
  · rw [closeLine_return hx] at h
    rw [List.append_assoc, List.cons_append, closeLine_return hx]
    cases after with
    | nil => cases h
    | cons c after =>
      rw [List.head?_cons] at h
      rw [List.cons_append, List.head?_cons]
      split at h
      next hc =>
        cases h
        rw [if_pos hc]
        exact .inl rfl
      next => cases h

theorem closeComment_append {n : Nat} (h : closeComment lineFeeds s = some (n, rest))
    (q : List Char) : closeComment lineFeeds (s ++ q) = some (n, rest ++ q) := by
  fun_induction closeComment lineFeeds s with
  | case1 => cases h
  | case2 lineFeeds s =>
    cases h
    rfl
  | case3 lineFeeds c s hclose ih =>
    cases s with
    | nil => cases h
    | cons a s =>
      rw [List.cons_append, closeComment]
      · exact ih h
      · rintro rest rfl heq
        cases heq
        exact hclose s rfl rfl

/-- Text that starts with no gap and no block comment starts with none in front of a space. -/
theorem readGap_space_none (hgap : readGap s = none) (hopen : ¬ ['/', '*'] <+: s) (hne : s ≠ [])
    (q : List Char) : readGap (s ++ ' ' :: q) = none ∧ ¬ ['/', '*'] <+: s ++ ' ' :: q := by
  obtain _ | ⟨c, s⟩ := s
  · exact absurd rfl hne
  by_cases hc : c = '/'
  · subst hc
    obtain _ | ⟨a, s⟩ := s
    -- a slash alone, and a space does not make a comment of it
    · exact ⟨rfl, by simp⟩
    have ha : a ≠ '*' := by
      rintro rfl
      exact hopen ⟨s, rfl⟩
    refine ⟨?_,
      fun hprefix => ha (List.cons_prefix_cons.mp (List.cons_prefix_cons.mp hprefix).2).1.symm⟩
    by_cases hslash : a = '/'
    · subst hslash
      have hclose : closeLine s = none := Option.map_eq_none_iff.mp hgap
      show (closeLine (s ++ ' ' :: q)).map _ = none
      rw [closeLine_space_none hclose]
      rfl
    · show readGap ('/' :: a :: (s ++ ' ' :: q)) = none
      simp only [readGap]
      split
      next hblank => exact absurd hblank (by decide)
      next =>
        split
        next heq => exact absurd (List.cons.inj heq).1 hslash
        next heq => exact absurd (List.cons.inj heq).1 ha
        next => rfl
  · refine ⟨?_, fun hprefix => hc (List.cons_prefix_cons.mp hprefix).1.symm⟩
    rw [readGap_of_ne hc] at hgap
    rw [List.cons_append, readGap_of_ne hc]
    split at hgap
    · cases hgap
    next hblank => exact if_neg hblank

/-- A gap in front stays the same if a space and anything else follow the text, save for a line
comment that the text ends in. -/
theorem readGap_space (h : readGap s = some (lineFeeds, rest)) (q : List Char) :
    readGap (s ++ ' ' :: q) = some (lineFeeds, rest ++ ' ' :: q) ∨
      rest = [] ∧ ∃ x, s = '/' :: '/' :: x ∧ WithinLine x := by
  obtain _ | ⟨c, s⟩ := s
  · cases h
  by_cases hc : c = '/'
  · subst hc
    simp only [readGap] at h
    split at h
    next hblank => exact absurd hblank (by decide)
    next =>
      split at h
      next s _ =>
        obtain ⟨rest, hclose, heq⟩ := Option.map_eq_some_iff.mp h
        cases heq
        -- a line comment that goes up to the end would take in the space
        obtain hclose' | ⟨rfl, hx⟩ := closeLine_space hclose q
        · refine .inl ?_
          show (closeLine (s ++ ' ' :: q)).map _ = _
          rw [hclose']
          rfl
        · exact .inr ⟨rfl, s, rfl, hx⟩
      next => exact .inl (closeComment_append h _)
      next => cases h
  · rw [readGap_of_ne hc] at h
    rw [List.cons_append, readGap_of_ne hc]
    split at h
    next hblank =>
      cases h
      exact .inl (if_pos hblank)
    next => cases h

/-! ## 5. Texts that have tokens -/

/-- The text has these tokens if it starts on the given line: it is gone through by gaps and
tokens. -/
inductive Lexes : (line : Nat) → List Char → List Lexeme → Prop
  | done {line : Nat} : Lexes line [] []
  | gap {line lineFeeds : Nat} {s rest : List Char} {ts : List Lexeme} :
    readGap s = some (lineFeeds, rest) → Lexes (line + lineFeeds) rest ts → Lexes line s ts
  | token {line : Nat} {s rest : List Char} {t : Token} {ts : List Lexeme} :
    readGap s = none → ¬ ['/', '*'] <+: s → readToken s.length s = some (t, rest) →
      Lexes line rest ts →
    Lexes line s (⟨t, line⟩ :: ts)

theorem exists_of_map_eq_ok {f : List Lexeme → List Lexeme} {x : Except Error (List Lexeme)}
    (h : x.map f = .ok ts) : ∃ us, x = .ok us ∧ f us = ts := by
  cases x with
  | error e => cases h
  | ok us => exact ⟨us, rfl, Except.ok.inj h⟩

/-- A block comment that is not closed is an error. -/
theorem tokensFrom_unclosed (hgap : readGap s = none) (hopen : ['/', '*'] <+: s) :
    tokensFrom line s = .error (.syntaxFault line .unclosedComment) := by
  obtain ⟨s, rfl⟩ := hopen
  change readGap ('/' :: '*' :: s) = none at hgap
  have hskip : skipGaps (s.length + 2) line ('/' :: '*' :: s) = (line, '/' :: '*' :: s) := by
    rw [skipGaps, hgap]
  show tokenizeFrom (s.length + 2) line [] ('/' :: '*' :: s) = _
  simp only [tokenizeFrom, hskip]

theorem lexes_of_tokensFrom (h : tokensFrom line s = .ok ts) : Lexes line s ts := by
  -- a gap and a token both leave less text than there was
  induction hn : s.length using Nat.strong_induction_on generalizing s line ts with
  | _ n ih =>
    subst hn
    cases s with
    | nil =>
      cases h
      exact .done
    | cons c s =>
      cases hgap : readGap (c :: s) with
      | some found =>
        obtain ⟨lineFeeds, rest⟩ := found
        rw [tokensFrom_gap hgap] at h
        exact .gap hgap (ih rest.length (leavesLess_of_readGap hgap).2 h rfl)
      | none =>
        by_cases hopen : ['/', '*'] <+: c :: s
        · rw [tokensFrom_unclosed hgap hopen] at h
          cases h
        · cases hread : readToken (c :: s).length (c :: s) with
          | none =>
            rw [tokensFrom_illegal hgap hopen hread] at h
            cases h
          | some found =>
            obtain ⟨t, rest⟩ := found
            rw [tokensFrom_token hgap hopen hread] at h
            obtain ⟨us, hus, rfl⟩ := exists_of_map_eq_ok h
            exact .token hgap hopen hread (ih rest.length (leavesLess_of_readToken hread).2 hus rfl)

/-- Tokens stand on the line that the text starts on, or below. -/
theorem Lexes.le_line (h : Lexes line s ts) : ∀ l ∈ ts, line ≤ l.line := by
  induction h with
  | done => exact nofun
  | gap _ _ ih => exact fun l hl => (Nat.le_add_right _ _).trans (ih l hl)
  | token _ _ _ _ ih => exact List.forall_mem_cons.mpr ⟨Nat.le_refl _, ih⟩

theorem Lexes.nil (h : Lexes line [] ts) : ts = [] := by
  cases h with
  | done => rfl
  | gap hgap => cases hgap
  | token _ _ hread => cases hread

inductive Unfinished : List Char → Prop
  | nothing : Unfinished []
  | comment {x : List Char} : WithinLine x → Unfinished ('/' :: '/' :: x)

theorem map_append_nil (x : Except Error (List Lexeme)) : x.map ([] ++ ·) = x := by
  cases x <;> rfl

/-- In front of a space a text has the tokens that it has by itself.  What follows is read as if
only the line comment stood before it, if any, that the text ends in. -/
theorem Lexes.space (h : Lexes line s ts) : ∃ last o, Unfinished o ∧
    ∀ q, tokensFrom line (s ++ ' ' :: q) = (tokensFrom last (o ++ ' ' :: q)).map (ts ++ ·) := by
  induction h with
  | @done line => exact ⟨line, [], .nothing, fun q => (map_append_nil _).symm⟩
  | @gap line lineFeeds s rest ts hgap hrest ih =>
    by_cases hcomment : rest = [] ∧ ∃ x, s = '/' :: '/' :: x ∧ WithinLine x
    -- the comment that the text ends in is left to what follows
    · obtain ⟨rfl, x, rfl, hx⟩ := hcomment
      cases hrest.nil
      exact ⟨line, _, .comment hx, fun q => (map_append_nil _).symm⟩
    · obtain ⟨last, o, ho, hspace⟩ := ih
      refine ⟨last, o, ho, fun q => ?_⟩
      rw [tokensFrom_gap ((readGap_space hgap q).resolve_right hcomment), hspace]
  | @token line s rest t ts hgap hopen hread hrest ih =>
    obtain ⟨last, o, ho, hspace⟩ := ih
    refine ⟨last, o, ho, fun q => ?_⟩
    have hne : s ≠ [] := by
      rintro rfl
      cases hread
    obtain ⟨hgap', hopen'⟩ := readGap_space_none hgap hopen hne q
    rw [tokensFrom_token hgap' hopen' (readToken_space hread (by simp) q), hspace]
    cases tokensFrom last (o ++ ' ' :: q) <;> rfl

end MethodGraft.Source
