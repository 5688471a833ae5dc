import Mathlib.Data.List.TakeWhile
import MethodGraft.Proofs.Source.Readers

/-!
# Proofs.Source.Tokens — the tokens of a text, read from its front

`tokensFrom` reads a text with just the fuel that it needs.  It obeys one equation for a gap at the
front and one for a token, and a text made of words, symbols and blanks reads the same in front of a
character that continues none of them.
-/

namespace MethodGraft.Source

variable {s rest : List Char} {t : Token} {line lineFeeds : Nat}

/-! ## 1. Equations -/

def tokensFrom (line : Nat) (s : List Char) : Except Error (List Lexeme) :=
  tokenizeFrom s.length line [] s

/-- Fuel beyond the length of the text does not change its tokens. -/
theorem tokenizeFrom_fuel {m n : Nat} (line : Nat) (found : List Lexeme) (hm : s.length ≤ m)
    (hn : s.length ≤ n) : tokenizeFrom m line found s = tokenizeFrom n line found s := by
  induction m generalizing n line found s with
  | zero =>
    cases List.length_eq_zero_iff.mp (Nat.le_zero.mp hm)
    cases n <;> rfl
  | succ m ih =>
    cases n with
    | zero =>
      cases List.length_eq_zero_iff.mp (Nat.le_zero.mp hn)
      rfl
    | succ n =>
      simp only [tokenizeFrom, skipGaps_fuel line hm hn]
      have hskip : (skipGaps (n + 1) line s).2 <:+ s := skipGaps_suffix (n + 1) line s
      revert hskip
      generalize skipGaps (n + 1) line s = reached
      intro hskip
      -- what is left is no longer than the text, and shorter behind a token
      have hlength := hskip.length_le
      split
      · rfl
      · rfl
      next line' s' _ _ =>
        simp only at hlength
        rw [readToken_fuel (m := m + 1) (n := n + 1) (by omega) (by omega)]
        split
        next t rest hread =>
          have hless := (leavesLess_of_readToken hread).2
          exact ih line' _ (by omega) (by omega)
        next => rfl

/-- The tokens found before only stand in front of the others. -/
theorem tokenizeFrom_found (fuel line : Nat) (found : List Lexeme) (s : List Char) :
    tokenizeFrom fuel line found s = (tokenizeFrom fuel line [] s).map (found.reverse ++ ·) := by
  induction fuel generalizing line found s with
  | zero => simp [tokenizeFrom, Except.map]
  | succ fuel ih =>
    simp only [tokenizeFrom]
    generalize skipGaps (fuel + 1) line s = reached
    split
    · simp [Except.map]
    · rfl
    next line' s' _ _ =>
      split
      next t rest _ =>
        rw [ih line' (⟨t, line'⟩ :: found), ih line' [⟨t, line'⟩]]
        cases tokenizeFrom fuel line' [] rest <;> simp [Except.map]
      next => rfl

@[simp] theorem tokensFrom_nil (line : Nat) : tokensFrom line [] = .ok [] := rfl

theorem tokenize_eq (source : String) : tokenize source = tokensFrom 1 source.toList := rfl

/-- A gap in front adds its line feeds to the line. -/
theorem tokensFrom_gap (hgap : readGap s = some (lineFeeds, rest)) :
    tokensFrom line s = tokensFrom (line + lineFeeds) rest := by
  have hless := (leavesLess_of_readGap hgap).2
  obtain ⟨n, hn⟩ := Nat.exists_eq_add_of_lt hless
  unfold tokensFrom
  rw [tokenizeFrom_fuel (m := rest.length) (n := s.length) _ [] (Nat.le_refl _)
    (Nat.le_of_lt hless), hn]
  -- the two sides differ in the fuel of their gaps alone
  have hskip : skipGaps (rest.length + n + 1) line s =
      skipGaps (rest.length + n + 1) (line + lineFeeds) rest := by
    rw [skipGaps, hgap]
    exact skipGaps_fuel _ (by omega) (by omega)
  simp only [tokenizeFrom, hskip]

/-- A token in front is the first one found. -/
theorem tokensFrom_token (hgap : readGap s = none) (hopen : ¬ ['/', '*'] <+: s)
    (hread : readToken s.length s = some (t, rest)) :
    tokensFrom line s = (tokensFrom line rest).map (⟨t, line⟩ :: ·) := by
  have hless := (leavesLess_of_readToken hread).2
  obtain ⟨n, hn⟩ := Nat.exists_eq_add_of_lt hless
  have hskip : skipGaps (rest.length + n + 1) line s = (line, s) := by
    rw [skipGaps, hgap]
  unfold tokensFrom
  rw [hn] at hread ⊢
  simp only [tokenizeFrom, hskip]
  split
  next heq => simp [(Prod.mk.inj heq).2] at hless
  next heq => exact absurd ⟨_, (Prod.mk.inj heq).2.symm⟩ hopen
  next line' s' _ _ heq =>
    cases heq
    rw [hread]
    show tokenizeFrom (rest.length + n) line [⟨t, line⟩] rest = _
    rw [tokenizeFrom_found,
      tokenizeFrom_fuel (m := rest.length + n) (n := rest.length) _ [] (Nat.le_add_right _ n)
      (Nat.le_refl _)]
    rfl

/-- Text that starts no token is an error. -/
theorem tokensFrom_illegal {c : Char} (hgap : readGap (c :: s) = none)
    (hopen : ¬ ['/', '*'] <+: c :: s) (hread : readToken (c :: s).length (c :: s) = none) :
    tokensFrom line (c :: s) = .error (.syntaxFault line (tokenFault (c :: s))) := by
  have hskip : skipGaps (s.length + 1) line (c :: s) = (line, c :: s) := by
    rw [skipGaps, hgap]
  show tokenizeFrom (s.length + 1) line [] (c :: s) = _
  simp only [tokenizeFrom, hskip]
  split
  next heq => cases heq
  next heq => exact absurd ⟨_, (Prod.mk.inj heq).2.symm⟩ hopen
  next line' s' _ _ heq =>
    cases heq
    rw [List.length_cons] at hread
    rw [hread]

/-! ## 2. Texts of words, symbols and blanks -/

def isPlain (c : Char) : Bool := !(isDecimal c || c == '"' || c == '\'' || c == '/')

structure IsBarrier (b : Char) : Prop where
  continuesName : continuesName b = false
  symbol : ∀ x : Symbol, b ∉ x.text.toList

/-- A gap that does not start with a slash is a blank. -/
theorem readGap_of_ne {c : Char} (hc : c ≠ '/') :
    readGap (c :: s) = if isBlank c then some (if c = '\n' then 1 else 0, s) else none := by
  simp only [readGap]
  split
  · rfl
  · split
    next => exact absurd rfl hc
    next => exact absurd rfl hc
    next => rfl

/-- A gap in front of plain text is a blank. -/
theorem readGap_plain {c : Char} (hc : isPlain c = true) :
    readGap (c :: s) = if isBlank c then some (if c = '\n' then 1 else 0, s) else none := by
  apply readGap_of_ne
  rintro rfl
  revert hc
  decide

/-- A token in front of plain text is a word or a symbol. -/
theorem readToken_plain {c : Char} (hc : isPlain c = true) (fuel : Nat) :
    readToken fuel (c :: s) = (readWord (c :: s) <|> readSymbol (c :: s)) := by
  simp only [isPlain, Bool.not_eq_true', Bool.or_eq_false_iff, beq_eq_false_iff_ne] at hc
  obtain ⟨⟨⟨hdigit, hquote⟩, hchar⟩, -⟩ := hc
  have hstring : readString fuel (c :: s) = none := by
    unfold readString
    split
    next heq => exact absurd (List.cons.inj heq).1 hquote
    next => rfl
  have hreadChar : readChar (c :: s) = none := by
    unfold readChar
    split
    next heq => exact absurd (List.cons.inj heq).1 hchar
    next => rfl
  simp [readToken, readNumber_eq_none hdigit, hstring, hreadChar]

theorem takeWhile_append_stop {p : Char → Bool} {b : Char} (hb : p b = false) (s q : List Char) :
    (s ++ b :: q).takeWhile p = s.takeWhile p := by
  induction s with
  | nil => simp [hb]
  | cons c s ih => simp only [List.cons_append, List.takeWhile_cons, ih]

theorem dropWhile_append_stop {p : Char → Bool} {b : Char} (hb : p b = false) (s q : List Char) :
    (s ++ b :: q).dropWhile p = s.dropWhile p ++ b :: q := by
  induction s with
  | nil => simp [hb]
  | cons c s ih =>
    simp only [List.cons_append, List.dropWhile_cons, ih]
    split <;> rfl

/-- A word ends where a barrier stands. -/
theorem readWord_append {b c : Char} (hb : IsBarrier b) (s q : List Char) :
    readWord (c :: s ++ b :: q) = (readWord (c :: s)).map fun (t, rest) => (t, rest ++ b :: q) := by
  simp only [List.cons_append, readWord, takeWhile_append_stop hb.continuesName,
    dropWhile_append_stop hb.continuesName]
  split <;> rfl

theorem dropWord?_append {b : Char} {word : List Char} (hb : b ∉ word) (s q : List Char) :
    Symbol.dropWord? word (s ++ b :: q) = (Symbol.dropWord? word s).map (· ++ b :: q) := by
  induction word generalizing s with
  | nil => rfl
  | cons a word ih =>
    rw [List.mem_cons, not_or] at hb
    cases s with
    | nil => simp [Symbol.dropWord?, Ne.symm hb.1]
    | cons c s =>
      simp only [List.cons_append, Symbol.dropWord?]
      split
      · exact ih hb.2 s
      · rfl

/-- A symbol ends where a character stands that is in no symbol. -/
theorem readSymbol_append {b : Char} (hb : ∀ x : Symbol, b ∉ x.text.toList) (s q : List Char) :
    readSymbol (s ++ b :: q) = (readSymbol s).map fun (t, rest) => (t, rest ++ b :: q) := by
  have hfind (symbols : List Symbol) :
      symbols.findSome?
        (fun x => (Symbol.dropWord? x.text.toList (s ++ b :: q)).map fun rest => (x, rest)) =
        (symbols.findSome? fun x =>
          (Symbol.dropWord? x.text.toList s).map fun rest => (x, rest)).map
          fun r => (r.1, r.2 ++ b :: q) := by
    induction symbols with
    | nil => rfl
    | cons x symbols ih =>
      simp only [List.findSome?_cons, dropWord?_append (hb x), ih]
      cases Symbol.dropWord? x.text.toList s <;> rfl
  simp only [readSymbol, Symbol.read, hfind, Option.map_map]
  rfl

/-- The token in front of plain text ends where a barrier stands. -/
theorem readToken_append {b c : Char} (hb : IsBarrier b) (hc : isPlain c = true) (m n : Nat)
    (s q : List Char) :
    readToken m (c :: s ++ b :: q) = (readToken n (c :: s)).map
    fun (t, rest) => (t, rest ++ b :: q) := by
  have hword := readWord_append (c := c) hb s q
  have hsymbol := readSymbol_append hb.symbol (c :: s) q
  rw [readToken_plain hc, List.cons_append, readToken_plain hc, ← List.cons_append, hword, hsymbol]
  cases readWord (c :: s) <;> rfl

/-- The characters of a word or of a symbol are no line feeds. -/
theorem lineFeeds_of_readToken {c : Char} {fuel : Nat} (hc : isPlain c = true)
    (h : readToken fuel (c :: s) = some (t, rest)) : (c :: s).count '\n' = rest.count '\n' := by
  rw [readToken_plain hc, Option.orElse_eq_some] at h
  obtain h | ⟨-, h⟩ := h
  · simp only [readWord] at h
    split at h
    next hstarts =>
      cases h
      have hhead : c ≠ '\n' := by
        rintro rfl
        revert hstarts
        decide +kernel
      have hword : (s.takeWhile continuesName).count '\n' = 0 := by
        apply List.count_eq_zero.mpr
        intro hmem
        have hcontinues := List.mem_takeWhile_imp hmem
        revert hcontinues
        decide +kernel
      have hsplit := List.takeWhile_append_dropWhile (p := continuesName) (l := s)
      rw [List.count_cons_of_ne hhead, ← congrArg (List.count '\n') hsplit, List.count_append,
        hword, Nat.zero_add]
    next => cases h
  · obtain ⟨⟨x, rest'⟩, hread, heq⟩ := Option.map_eq_some_iff.mp h
    cases heq
    obtain ⟨x, -, hx⟩ := List.exists_of_findSome?_eq_some hread
    obtain ⟨rest', hdrop, heq⟩ := Option.map_eq_some_iff.mp hx
    cases heq
    -- no symbol is spelled with a line feed
    have htext : x.text.toList.count '\n' = 0 := by
      cases x <;> decide
    rw [dropWord?_eq_some_iff.mp hdrop, List.count_append, htext, Nat.zero_add]

/-- Plain text reads the same in front of a barrier, and its line feeds add to the line. -/
theorem tokensFrom_append {b : Char} {q : List Char} {ts : List Lexeme} (hb : IsBarrier b)
    (hs : ∀ c ∈ s, isPlain c = true) (h : tokensFrom line s = .ok ts) :
    tokensFrom line (s ++ b :: q) = (tokensFrom (line + s.count '\n') (b :: q)).map (ts ++ ·) := by
  -- by the length of the text, which a blank or a token in front makes smaller
  induction hn : s.length using Nat.strong_induction_on generalizing s line ts with
  | _ n ih =>
    subst hn
    cases s with
    | nil =>
      cases h
      show tokensFrom line (b :: q) = (tokensFrom line (b :: q)).map ([] ++ ·)
      cases tokensFrom line (b :: q) <;> rfl
    | cons c s =>
      have hc := hs c List.mem_cons_self
      have htail : ∀ a ∈ s, isPlain a = true := fun a ha => hs a (List.mem_cons_of_mem c ha)
      by_cases hblank : isBlank c = true
      · have hgap (r : List Char) : readGap (c :: r) = some (if c = '\n' then 1 else 0, r) := by
          rw [readGap_plain hc, if_pos hblank]
        rw [tokensFrom_gap (hgap s)] at h
        rw [List.cons_append, tokensFrom_gap (hgap _), ih s.length (Nat.lt_succ_self _) htail h rfl,
          List.count_cons, Nat.add_assoc, Nat.add_comm (List.count '\n' s)]
        simp only [beq_iff_eq]
      · have hgap (r : List Char) : readGap (c :: r) = none := by
          rw [readGap_plain hc, if_neg hblank]
        have hopen (r : List Char) : ¬ ['/', '*'] <+: c :: r := by
          intro hprefix
          cases (List.cons_prefix_cons.mp hprefix).1
          revert hc
          decide
        cases hread : readToken (c :: s).length (c :: s) with
        | none => rw [tokensFrom_illegal (hgap s) (hopen s) hread] at h; cases h
        | some found =>
          obtain ⟨t, rest⟩ := found
          have hless := leavesLess_of_readToken hread
          have hread' :=
            (readToken_append hb hc (c :: s ++ b :: q).length _ s q).trans (congrArg _ hread)
          have hrest : ∀ a ∈ rest, isPlain a = true := fun a ha => hs a (hless.1.subset ha)
          rw [tokensFrom_token (hgap s) (hopen s) hread] at h
          cases hts : tokensFrom line rest with
          | error e =>
            rw [hts] at h
            cases h
          | ok ts' =>
            rw [hts] at h
            cases h
            rw [List.cons_append] at hread' ⊢
            rw [tokensFrom_token (hgap _) (hopen _) hread', ih rest.length hless.2 hrest hts rfl,
              lineFeeds_of_readToken hc hread]
            cases tokensFrom (line + rest.count '\n') (b :: q) <;> rfl

end MethodGraft.Source
