import Mathlib.Data.List.Basic
import Mathlib.Tactic.IntervalCases
import MethodGraft.Patch.Spec
import MethodGraft.Proofs.Source.Tokens

/-!
# Proofs.Patch.Template — configured text stays inside its string literal

A quoted text reads back as itself, whatever follows its closing quote, so the source of the
accessibility patch has the same tokens on the same lines for every manufacturer, but for the one
literal.
-/

namespace MethodGraft.Source

/-! ## 1. Quoted text -/

def stringLiteral (text : String) : List Char := '"' :: (quote text).toList ++ ['"']

/-- The escape of a control character stands for it. -/
theorem readEscape_hex {n : Nat} (hn : n < 0x20) (s : List Char) :
    readEscape ('u' :: Digits.hexDigits 4 n ++ s) = some (Char.ofNat n, s) := by
  interval_cases n <;> rfl

/-- A quoted character takes one step of the literal and gives itself. -/
theorem readStringRest_quoteChar (fuel : Nat) (read : List Char) (c : Char) (s : List Char) :
    readStringRest (fuel + 1) read (quoteChar c ++ s) = readStringRest fuel (c :: read) s := by
  unfold quoteChar
  split
  next h => subst h; rfl
  next hquote =>
    split
    next h => subst h; rfl
    next hslash =>
      split
      next h => subst h; rfl
      next hfeed =>
        split
        next h => subst h; rfl
        next =>
          split
          next h => subst h; rfl
          next =>
            split
            next hcontrol =>
              have hescape := readEscape_hex hcontrol s
              rw [Char.ofNat_toNat] at hescape
              simp only [List.cons_append] at hescape
              simp [readStringRest, Digits.hex, hescape]
            next => simp [readStringRest, hquote, hslash, hfeed]

/-- The inside of a literal reads back as the text that was quoted. -/
theorem readStringRest_quote (text read rest : List Char) {fuel : Nat}
    (hfuel : text.length < fuel) :
    readStringRest fuel read (text.flatMap quoteChar ++ '"' :: rest) =
    some (read.reverse ++ text, rest) := by
  induction text generalizing read fuel with
  | nil =>
    obtain ⟨fuel, rfl⟩ := Nat.exists_eq_add_of_lt hfuel
    simp [readStringRest]
  | cons c text ih =>
    cases fuel with
    | zero => simp at hfuel
    | succ fuel =>
      rw [List.flatMap_cons, List.append_assoc, readStringRest_quoteChar,
        ih (c :: read) (Nat.lt_of_succ_lt_succ hfuel), List.reverse_cons, List.append_assoc]
      rfl

theorem length_le_quote (text : List Char) : text.length ≤ (text.flatMap quoteChar).length := by
  induction text with
  | nil => exact Nat.le_refl 0
  | cons c text ih =>
    have hchar : 1 ≤ (quoteChar c).length := by
      unfold quoteChar
      grind
    rw [List.flatMap_cons, List.length_append, List.length_cons]
    omega

/-- The literal of a text reads back as that text, with any text after it. -/
theorem readString_stringLiteral (text : String) (rest : List Char) {fuel : Nat}
    (hfuel : (stringLiteral text ++ rest).length ≤ fuel) :
    readString fuel (stringLiteral text ++ rest) = some (.str text, rest) := by
  have hlength := length_le_quote text.toList
  simp only [stringLiteral, quote, String.toList_ofList, List.cons_append, List.append_assoc,
    List.nil_append, List.length_cons, List.length_append] at hfuel ⊢
  simp only [readString]
  rw [readStringRest_quote text.toList [] rest (by omega)]
  simp

/-- A string literal in front is the first token. -/
theorem tokensFrom_stringLiteral (line : Nat) (text : String) (rest : List Char) :
    tokensFrom line (stringLiteral text ++ rest) =
    (tokensFrom line rest).map (⟨.str text, line⟩ :: ·) := by
  have hstring := readString_stringLiteral text rest (Nat.le_refl _)
  apply tokensFrom_token
  · rfl
  · intro hopen
    cases (List.cons_prefix_cons.mp hopen).1
  · have hnumber : readNumber (stringLiteral text ++ rest) = none := readNumber_eq_none (by decide)
    simp only [readToken, hnumber, hstring]
    rfl

end MethodGraft.Source

namespace MethodGraft.Patch

open Source

/-! ## 2. The accessibility patch -/

def accessibilityHead : List Char := Spec.accessibilityBefore.toList.dropLast

def accessibilityTail : List Char := Spec.accessibilityAfter.toList.tail

theorem accessibility_source (manufacturer : String) :
    (Spec.accessibility manufacturer).source.toList =
      accessibilityHead ++ (stringLiteral manufacturer ++ accessibilityTail) := by
  have hbefore : Spec.accessibilityBefore.toList = accessibilityHead ++ ['"'] := by
    have hlast : Spec.accessibilityBefore.toList.getLast? = some '"' := by
      unfold Spec.accessibilityBefore
      repeat rw [String.toList_append]
      repeat rw [String.toList_ofList]
      decide +kernel
    exact (List.dropLast_append_getLast? _ hlast).symm
  have hafter : Spec.accessibilityAfter.toList = '"' :: accessibilityTail := by
    have hhead : Spec.accessibilityAfter.toList.head? = some '"' := by
      unfold Spec.accessibilityAfter
      repeat rw [String.toList_append]
      repeat rw [String.toList_ofList]
      decide +kernel
    exact (List.cons_head?_tail hhead).symm
  simp [Spec.accessibility, hbefore, hafter, stringLiteral]

theorem isBarrier_quote : IsBarrier '"' where
  continuesName := by decide +kernel
  symbol := by
    intro x
    cases x <;> decide

/-- A check of the tokens of a text, where reading them may fail. -/
theorem exists_tokens_of_check {line : Nat} {s : List Char} {p : List Lexeme → Bool}
    (h : (tokensFrom line s).toOption.map p = some true) :
    ∃ ts, tokensFrom line s = .ok ts ∧ p ts = true := by
  cases hts : tokensFrom line s with
  | error e => simp [hts, Except.toOption] at h
  | ok ts =>
    refine ⟨ts, rfl, ?_⟩
    simpa [hts, Except.toOption] using h

/-- The text in front of the literal is plain and has four lines.  Its tokens end in a call of
`contains`, the only one. -/
theorem tokensFrom_accessibilityHead :
    (∀ c ∈ accessibilityHead, isPlain c = true) ∧ accessibilityHead.count '\n' = 3 ∧
      ∃ ts, tokensFrom 1 accessibilityHead = .ok ts ∧
        ∃ opening, ts.map Lexeme.token = opening ++ [.ident "contains", .symbol .parenOpen] ∧
          .ident "contains" ∉ opening := by
  have hchecks : accessibilityHead.all isPlain = true ∧ accessibilityHead.count '\n' = 3 ∧
      (tokensFrom 1 accessibilityHead).toOption.map (fun ts =>
        let tokens := ts.map Lexeme.token
        tokens = tokens.dropLast.dropLast ++ [.ident "contains", .symbol .parenOpen] &&
          !tokens.dropLast.dropLast.contains (.ident "contains")) = some true := by
    unfold accessibilityHead Spec.accessibilityBefore
    -- the characters of the lines are written out first, since to take a text apart is slow
    repeat rw [String.toList_append]
    repeat rw [String.toList_ofList]
    decide +kernel
  obtain ⟨hplain, hlines, htokens⟩ := hchecks
  obtain ⟨ts, hts, hcheck⟩ := exists_tokens_of_check htokens
  simp only [Bool.and_eq_true, decide_eq_true_eq, Bool.not_eq_true', List.contains_eq_mem,
    decide_eq_false_iff_not] at hcheck
  exact ⟨List.all_eq_true.mp hplain, hlines, ts, hts, _, hcheck.1, hcheck.2⟩

/-- The tokens after the literal, on the lines that follow, do not mention `contains`. -/
theorem tokensFrom_accessibilityTail :
    ∃ ts, tokensFrom 4 accessibilityTail = .ok ts ∧ .ident "contains" ∉ ts.map Lexeme.token := by
  have htokens : (tokensFrom 4 accessibilityTail).toOption.map (fun ts =>
      !(ts.map Lexeme.token).contains (.ident "contains")) = some true := by
    unfold accessibilityTail Spec.accessibilityAfter
    repeat rw [String.toList_append]
    repeat rw [String.toList_ofList]
    decide +kernel
  obtain ⟨ts, hts, hcheck⟩ := exists_tokens_of_check htokens
  simp only [Bool.not_eq_true', List.contains_eq_mem, decide_eq_false_iff_not] at hcheck
  exact ⟨ts, hts, hcheck⟩

/-- Whatever the manufacturer is called, the source of the accessibility patch has the same tokens
on the same lines, but for the one string literal that `contains` is given, which is the
manufacturer's name.  The literal of any text reads back as that text. -/
theorem tokenize_accessibility :
    (∃ (opening closing : List Lexeme) (line : Nat) (tokens : List Token),
      opening.map Lexeme.token = tokens ++ [.ident "contains", .symbol .parenOpen] ∧
      .ident "contains" ∉ tokens ∧ .ident "contains" ∉ closing.map Lexeme.token ∧
      ∀ manufacturer : String, tokenize (Spec.accessibility manufacturer).source =
        .ok (opening ++ ⟨.str manufacturer, line⟩ :: closing)) ∧
    ∀ (text : String) (rest : List Char),
      readString (stringLiteral text ++ rest).length (stringLiteral text ++ rest) =
        some (.str text, rest) := by
  constructor
  · obtain ⟨hplain, hlines, opening, hopening, tokens, htokens, hbefore⟩ :=
      tokensFrom_accessibilityHead
    obtain ⟨closing, hclosing, hafter⟩ := tokensFrom_accessibilityTail
    refine ⟨opening, closing, 4, tokens, htokens, hbefore, hafter, ?_⟩
    intro manufacturer
    calc tokenize (Spec.accessibility manufacturer).source
        =
          tokensFrom 1
          (accessibilityHead ++ (stringLiteral manufacturer ++ accessibilityTail)) := by
          rw [tokenize_eq, accessibility_source]
      _ = (tokensFrom 4 (stringLiteral manufacturer ++ accessibilityTail)).map (opening ++ ·) := by
          have happend :=
            tokensFrom_append (q := (quote manufacturer).toList ++ ['"'] ++ accessibilityTail)
            isBarrier_quote hplain hopening
          rw [hlines] at happend
          exact happend
      _ = .ok (opening ++ ⟨.str manufacturer, 4⟩ :: closing) := by
          rw [tokensFrom_stringLiteral, hclosing]
          rfl
  · intro text rest
    exact readString_stringLiteral text rest (Nat.le_refl _)

end MethodGraft.Patch
