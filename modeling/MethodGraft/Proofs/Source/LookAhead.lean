import MethodGraft.Proofs.Source.Printer
import MethodGraft.Proofs.Source.ParserRuns

/-!
# Proofs.Source.LookAhead — what the parser sees in front of it

The parser tells casts from parentheses, and declarations from calls, by the names, dots and
brackets that come next.  On the tokens of an expression it decides right: a chain of names stands
in no parentheses, and what ends the names at the front of any other expression is an operator or an
opening parenthesis.
-/

namespace MethodGraft.Source

variable {s : List Lexeme} {t : Token} {ts rest : List Token}

/-! ## 1. Names and brackets -/

theorem map_token_eq_cons (h : s.map Lexeme.token = t :: ts) :
    ∃ n s', s = ⟨t, n⟩ :: s' ∧ s'.map Lexeme.token = ts := by
  cases s with
  | nil => cases h
  | cons l s =>
    cases h
    exact ⟨l.line, s, rfl, rfl⟩

/-- Names after dots are taken as far as they go. -/
theorem takeDotted_tokens {names : List String}
    (hs : s.map Lexeme.token = dottedTokens names ++ rest)
    (hrest : rest.head? ≠ some (Token.symbol .dot)) :
    (Parser.takeDotted s).1 = names ∧ (Parser.takeDotted s).2.map Lexeme.token = rest := by
  induction names generalizing s with
  | nil =>
    unfold Parser.takeDotted
    split
    next => exact absurd (congrArg List.head? hs.symm) hrest
    next => exact ⟨rfl, hs⟩
  | cons n names ih =>
    obtain ⟨_, _, rfl, hs'⟩ := map_token_eq_cons hs
    obtain ⟨_, s, rfl, hafter⟩ := map_token_eq_cons hs'
    obtain ⟨hnames, hafter⟩ := ih hafter
    exact ⟨congrArg (n :: ·) hnames, hafter⟩

/-- Pairs of brackets are taken as far as they go. -/
theorem takeBrackets_tokens {n : Nat} (hs : s.map Lexeme.token = bracketTokens n ++ rest)
    (hrest : rest.head? ≠ some (Token.symbol .bracketOpen)) :
    (Parser.takeBrackets s).1 = n ∧ (Parser.takeBrackets s).2.map Lexeme.token = rest := by
  induction n generalizing s with
  | zero =>
    unfold Parser.takeBrackets
    split
    next => exact absurd (congrArg List.head? hs.symm) hrest
    next => exact ⟨rfl, hs⟩
  | succ n ih =>
    obtain ⟨_, _, rfl, hs'⟩ := map_token_eq_cons hs
    obtain ⟨_, s, rfl, hafter⟩ := map_token_eq_cons hs'
    obtain ⟨hcount, hafter⟩ := ih hafter
    exact ⟨congrArg (· + 1) hcount, hafter⟩

theorem startsWithIdent_tokens (hs : s.map Lexeme.token = t :: ts) :
    Parser.startsWithIdent s = true ↔ ∃ n, t = Token.ident n := by
  obtain ⟨_, s, rfl, -⟩ := map_token_eq_cons hs
  cases t <;> simp [Parser.startsWithIdent]

/-! ## 2. The front of an expression -/

def startsExpr : Token → Bool
  | .ident _ | .int _ | .long _ | .char _ | .str _ => true
  | .keyword .kwThis | .keyword .kwTrue | .keyword .kwFalse | .keyword .kwNull => true
  | .symbol .parenOpen | .symbol .bang | .symbol .minus => true
  | _ => false

/-- A negative number is looser than a primary expression. -/
theorem Expr.looseness_of_isNegative {e : Expr} (h : e.isNegative = true) : e.looseness = 1 := by
  cases e with
  | literal v => simp [Expr.looseness, show v.isNegative = true from h]
  | _ => cases h

/-- Every operator is looser than `!`. -/
theorem BinaryOp.two_le_looseness (op : BinaryOp) : 2 ≤ op.looseness := by
  cases op <;> decide

theorem BinaryOp.looseness_le (op : BinaryOp) : op.looseness ≤ 6 := by
  cases op <;> decide

theorem Expr.looseness_le (e : Expr) : e.looseness ≤ 6 := by
  cases e with
  | literal v =>
    simp only [Expr.looseness]
    split <;> decide
  | binary op => exact op.looseness_le
  | not | cast => exact Nat.le_add_left 1 5
  | _ => exact Nat.zero_le 6

/-- What may be known of the token that an expression starts with: a minus starts negative numbers
and what is looser, and `!` starts no primary expression. -/
structure Expr.MayStart (e : Expr) (t : Token) : Prop where
  starts : startsExpr t = true
  minus : t = Token.symbol .minus → e.isNegative = true ∨ 1 < e.looseness
  bang : t = Token.symbol .bang → 0 < e.looseness

theorem Literal.tokens_head (v : Literal) (n : Nat) :
    ∃ t ts, v.tokens = t :: ts ∧ (Expr.literal v n).MayStart t := by
  cases v with
  | int v =>
    by_cases hv : v < 0
    · refine ⟨Token.symbol .minus, [.int (-v.toInt)], by simp [Literal.tokens, hv], rfl,
        ?_, by simp⟩
      simp [Expr.isNegative, Literal.isNegative, hv]
    · exact ⟨.int v.toInt, [], by simp [Literal.tokens, hv], rfl, by simp, by simp⟩
  | long v =>
    by_cases hv : v < 0
    · refine ⟨Token.symbol .minus, [.long (-v)], by simp [Literal.tokens, hv], rfl, ?_, by simp⟩
      simp [Expr.isNegative, Literal.isNegative, hv]
    · exact ⟨.long v, [], by simp [Literal.tokens, hv], rfl, by simp, by simp⟩
  | bool b => cases b <;> exact ⟨_, _, rfl, rfl, by simp, by simp⟩
  | _ => exact ⟨_, _, rfl, rfl, by simp, by simp⟩

/-- What is wrapped where it is too loose starts with a parenthesis, or as it starts itself. -/
theorem wrapIf_head {e : Expr} (h : ∃ t ts, e.tokens = t :: ts ∧ e.MayStart t) (loose : Bool)
    (after : List Token) : ∃ t ts, wrapIf loose e.tokens ++ after = t :: ts ∧
      (t = Token.symbol .parenOpen ∨ loose = false ∧ e.MayStart t) := by
  obtain ⟨t, ts, htokens, ht⟩ := h
  cases loose with
  | true =>
    exact ⟨Token.symbol .parenOpen, e.tokens ++ Token.symbol .parenClose :: after, by simp [wrapIf],
      .inl rfl⟩
  | false => exact ⟨t, ts ++ after, by simp [wrapIf, htokens], .inr ⟨rfl, ht⟩⟩

theorem mayStart_parenOpen (e : Expr) : e.MayStart (Token.symbol .parenOpen) :=
  ⟨rfl, by simp, by simp⟩

/-- What a primary expression starts with may start any other. -/
theorem Expr.MayStart.of_primary {target e : Expr} (h : target.MayStart t)
    (htarget : target.looseness = 0) : e.MayStart t where
  starts := h.starts
  minus := by
    intro ht
    obtain hneg | hloose := h.minus ht
    · rw [target.looseness_of_isNegative hneg] at htarget
      cases htarget
    · omega
  bang := by
    intro ht
    have hloose := h.bang ht
    omega

/-- An expression starts with one of its tokens. -/
theorem Expr.tokens_head : (e : Expr) → ∃ t ts, e.tokens = t :: ts ∧ e.MayStart t
  | .literal v n => v.tokens_head n
  | .this _ | .name .. | .call .. => ⟨_, _, rfl, rfl, by simp, by simp⟩
  | .not e _ => ⟨_, _, rfl, rfl, by simp, by simp [Expr.looseness]⟩
  | .cast .. => ⟨_, _, rfl, mayStart_parenOpen _⟩
  | .field target n line | .callOn target n args line => by
    obtain ⟨t, ts, htokens, ht⟩ := wrapIf_head target.tokens_head (0 < target.looseness) _
    refine ⟨t, ts, htokens, ?_⟩
    obtain rfl | ⟨hprimary, ht⟩ := ht
    · exact mayStart_parenOpen _
    · exact ht.of_primary (by simpa using hprimary)
  | .binary op l r line => by
    obtain ⟨t, ts, htokens, ht⟩ := wrapIf_head l.tokens_head (op.looseness < l.looseness) _
    refine ⟨t, ts, htokens, ?_⟩
    have hop := op.two_le_looseness
    obtain rfl | ⟨-, ht⟩ := ht
    · exact mayStart_parenOpen _
    · exact ⟨ht.starts, fun _ => .inr hop, fun _ => Nat.lt_of_lt_of_le Nat.two_pos hop⟩

/-! ## 3. Names at the front -/

theorem dottedTokens_append (names : List String) (n : String) :
    dottedTokens (names ++ [n]) = dottedTokens names ++ [Token.symbol .dot, Token.ident n] := by
  induction names with
  | nil => rfl
  | cons m names ih => simp [dottedTokens, ih]

/-- How the names at the front of an expression end, where `ts` are the tokens after the first
name. -/
inductive NamesEnd (e : Expr) (ts : List Token) : Prop where
  /-- The expression is a chain of names. -/
  | chain (more : List String) (tokens : ts = dottedTokens more) (looseness : e.looseness = 0)
      (isCall : e.isCall = false)
  | call (more : List String) (after : List Token)
      (tokens : ts = dottedTokens more ++ Token.symbol .parenOpen :: after)
  | operator (more : List String) (op : BinaryOp) (after : List Token)
      (tokens : ts = dottedTokens more ++ Token.symbol op.symbol :: after)
      (looseness : 0 < e.looseness)

/-- An expression that stands in front and starts with a name is not wrapped. -/
theorem Expr.eq_ident_of_wrapIf {e : Expr} {loose : Bool} {first : String} {after : List Token}
    (h : wrapIf loose e.tokens ++ after = Token.ident first :: ts) :
    loose = false ∧ ∃ us, e.tokens = Token.ident first :: us ∧ ts = us ++ after := by
  cases loose with
  | true => cases h
  | false =>
    obtain ⟨t, us, htokens, -⟩ := e.tokens_head
    rw [htokens] at h ⊢
    cases h
    exact ⟨rfl, us, rfl, rfl⟩

/-- No literal starts as a name or with a parenthesis. -/
theorem Literal.tokens_ne {v : Literal} {t : Token} {ts : List Token} (h : v.tokens = t :: ts) :
    (∀ name, t ≠ Token.ident name) ∧ t ≠ Token.symbol .parenOpen := by
  cases v with
  | int v | long v =>
    simp only [tokens] at h
    split at h <;> cases h <;> exact ⟨nofun, nofun⟩
  | _ =>
    cases h
    exact ⟨nofun, nofun⟩

/-- The names at the front of an expression end in a call or an operator, if the expression does not
end first. -/
theorem Expr.namesEnd : (e : Expr) →
    ∀ {first : String} {ts : List Token}, e.tokens = Token.ident first :: ts → NamesEnd e ts
  | .literal v n, first, ts, h => by
    rw [tokens] at h
    exact absurd rfl ((v.tokens_ne h).1 first)
  | .name n _, first, ts, h => by
    cases h
    exact .chain [] rfl rfl rfl
  | .field target n _, first, ts, h => by
    -- a target that starts with a name is not wrapped
    obtain ⟨hloose, us, htarget, rfl⟩ := eq_ident_of_wrapIf h
    cases target.namesEnd htarget with
    | chain more tokens => exact .chain (more ++ [n]) (by rw [tokens, dottedTokens_append]) rfl rfl
    | call more after tokens =>
      exact .call more (after ++ [Token.symbol .dot, Token.ident n]) (by simp [tokens])
    | operator more op after tokens looseness => simp [looseness] at hloose
  | .call n args _, first, ts, h => by
    cases h
    exact .call [] (argTokens [] args) rfl
  | .callOn target n args _, first, ts, h => by
    obtain ⟨hloose, us, htarget, rfl⟩ := eq_ident_of_wrapIf h
    cases target.namesEnd htarget with
    | chain more tokens =>
      exact .call (more ++ [n]) (argTokens [] args) (by simp [tokens, dottedTokens_append])
    | call more after tokens =>
      exact .call more _ (by rw [tokens, List.append_assoc, List.cons_append])
    | operator more op after tokens looseness => simp [looseness] at hloose
  | .binary op l r _, first, ts, h => by
    obtain ⟨-, us, hl, rfl⟩ := eq_ident_of_wrapIf h
    have hop : 0 < op.looseness := Nat.lt_of_lt_of_le Nat.two_pos op.two_le_looseness
    cases l.namesEnd hl with
    | chain more tokens => exact .operator more op _ (by rw [tokens]) hop
    | call more after tokens =>
      exact .call more _ (by rw [tokens, List.append_assoc, List.cons_append])
    | operator more op' after tokens =>
      exact .operator more op' _ (by rw [tokens, List.append_assoc, List.cons_append]) hop
  | .this _, _, _, h => by cases h
  | .not _ _, _, _, h => by cases h
  | .cast .., _, _, h => by cases h

/-! ## 4. Casts and declarations -/

/-- The names at the front are over where another symbol follows. -/
theorem takeDotted_symbol {names : List String} {x : Symbol} {after : List Token}
    (hs : s.map Lexeme.token = dottedTokens names ++ Token.symbol x :: after) (hdot : x ≠ .dot) :
    ∃ n s', (Parser.takeDotted s).2 = ⟨Token.symbol x, n⟩ :: s' := by
  obtain ⟨-, hafter⟩ := takeDotted_tokens hs (by simpa using hdot)
  obtain ⟨n, s', hs', -⟩ := map_token_eq_cons hafter
  exact ⟨n, s', hs'⟩

/-- No brackets are in front of another symbol. -/
theorem takeBrackets_symbol {x : Symbol} {n : Nat} (hx : x ≠ .bracketOpen) :
    Parser.takeBrackets (⟨Token.symbol x, n⟩ :: s) = (0, ⟨Token.symbol x, n⟩ :: s) := by
  unfold Parser.takeBrackets
  split
  next heq => exact absurd (Token.symbol.inj (congrArg Lexeme.token (List.cons.inj heq).1)) hx
  next => rfl

theorem BinaryOp.symbol_ne (op : BinaryOp) :
    op.symbol ≠ .dot ∧ op.symbol ≠ .bracketOpen ∧ op.symbol ≠ .parenClose := by
  cases op <;> decide

/-- What stands in parentheses is not taken for the type of a cast. -/
theorem Expr.looksLikeCast_eq_false {e : Expr} (hloose : 0 < e.looseness)
    (hs : s.map Lexeme.token = e.tokens ++ rest) : Parser.looksLikeCast s = false := by
  obtain ⟨t, ts, htokens, ht⟩ := e.tokens_head
  rw [htokens] at hs
  obtain ⟨n, s, rfl, hs'⟩ := map_token_eq_cons hs
  -- after the names comes a symbol that does not close the parenthesis
  have hsymbol {more : List String} {x : Symbol} {after : List Token}
      (hts : ts = dottedTokens more ++ Token.symbol x :: after) (hdot : x ≠ .dot)
        (hbracket : x ≠ .bracketOpen)
      (hclose : x ≠ .parenClose) (first : String) :
      Parser.looksLikeCast (⟨Token.ident first, n⟩ :: s) = false := by
    rw [hts, List.append_eq, List.append_assoc] at hs'
    obtain ⟨m, s', hdotted⟩ := takeDotted_symbol hs' hdot
    simp only [Parser.looksLikeCast, hdotted, takeBrackets_symbol hbracket]
    split
    next heq => exact absurd (Token.symbol.inj (congrArg Lexeme.token (List.cons.inj heq).1)) hclose
    next => rfl
  have hstarts := ht.starts
  cases t with
  | ident first =>
    cases e.namesEnd htokens with
    | chain more tokens looseness => exact absurd looseness (Nat.ne_of_gt hloose)
    | call more after tokens => exact hsymbol tokens (by decide) (by decide) (by decide) first
    | operator more op after tokens =>
      obtain ⟨hdot, hbracket, hclose⟩ := op.symbol_ne
      exact hsymbol tokens hdot hbracket hclose first
  | keyword k => cases k <;> first | rfl | cases hstarts
  | _ => rfl

/-- A primary expression that starts with a parenthesis starts with what is wrapped, which is not
taken for the type of a cast. -/
theorem Expr.looksLikeCast_primary : (e : Expr) →
    ∀ {s : List Lexeme} {ts rest : List Token}, e.looseness = 0 →
    e.tokens = Token.symbol .parenOpen :: ts → s.map Lexeme.token = ts ++ rest →
    Parser.looksLikeCast s = false
  | .literal v n, s, ts, rest, _, h, _ => by
    rw [tokens] at h
    exact absurd rfl (v.tokens_ne h).2
  | .field target n _, s, ts, rest, _, h, hs | .callOn target n args _, s, ts, rest, _, h, hs => by
    simp only [Expr.tokens] at h
    by_cases hloose : 0 < target.looseness
    · simp only [wrapIf, hloose, decide_true, if_true, List.cons_append, List.cons.injEq, true_and]
        at h
      rw [← h, List.append_assoc, List.append_assoc] at hs
      exact looksLikeCast_eq_false hloose hs
    · simp only [wrapIf, hloose, decide_false, Bool.false_eq_true, if_false] at h
      obtain ⟨t, us, htokens, -⟩ := target.tokens_head
      rw [htokens] at h
      cases h
      rw [List.append_eq, List.append_assoc] at hs
      exact target.looksLikeCast_primary (Nat.eq_zero_of_not_pos hloose) htokens hs
  | .this _, _, _, _, _, h, _ => by cases h
  | .name .., _, _, _, _, h, _ => by cases h
  | .call .., _, _, _, _, h, _ => by cases h
  | .not _ _, _, _, _, _, h, _ => by cases h
  | .binary op .., _, _, _, h, _, _ =>
    absurd h (Nat.ne_of_gt (Nat.lt_of_lt_of_le Nat.two_pos op.two_le_looseness))
  | .cast .., _, _, _, h, _, _ => by cases h

/-- A call is not taken for a declaration. -/
theorem Expr.looksLikeDeclaration_eq_false {e : Expr} (hcall : e.isCall = true)
    (hs : s.map Lexeme.token = e.tokens ++ rest) : Parser.looksLikeDeclaration s = false := by
  have hprimary : e.looseness = 0 := by
    cases e <;> first | rfl | cases hcall
  obtain ⟨t, ts, htokens, ht⟩ := e.tokens_head
  rw [htokens] at hs
  obtain ⟨n, s, rfl, hs'⟩ := map_token_eq_cons hs
  have hstarts := ht.starts
  cases t with
  | ident first =>
    cases e.namesEnd htokens with
    | chain more tokens looseness isCall =>
      rw [isCall] at hcall
      cases hcall
    | call more after tokens =>
      rw [tokens, List.append_eq, List.append_assoc] at hs'
      obtain ⟨m, s', hdotted⟩ := takeDotted_symbol hs' (by decide)
      simp only [Parser.looksLikeDeclaration, hdotted]
      rfl
    | operator more op after tokens looseness => exact absurd hprimary (Nat.ne_of_gt looseness)
  | keyword k => cases k <;> first | rfl | cases hstarts
  | _ => rfl

theorem bracketTokens_head {n : Nat} (h : rest.head? ≠ some (Token.symbol .dot)) :
    (bracketTokens n ++ rest).head? ≠ some (Token.symbol .dot) := by
  cases n with
  | zero => exact h
  | succ n => simp [bracketTokens]

theorem Primitive.word_primitive? (p : Primitive) : p.word.primitive? = some p := by
  cases p <;> rfl

/-- A type in parentheses is taken for the type of a cast, if an operand follows. -/
theorem TypeName.looksLikeCast_eq_true {type : TypeName} (htype : type.head.Grammatical)
    (ht : type.isClass = true → Parser.startsCastOperand t = true)
    (hs : s.map Lexeme.token = type.tokens ++ Token.symbol .parenClose :: t :: rest) :
    Parser.looksLikeCast s = true := by
  obtain ⟨head, dims, line⟩ := type
  cases head with
  | void => exact htype.elim
  | primitive p =>
    obtain ⟨n, s, rfl, -⟩ := map_token_eq_cons hs
    simp [Parser.looksLikeCast, Primitive.word_primitive?]
  | named first more =>
    rw [TypeName.tokens, List.append_assoc] at hs
    obtain ⟨n, s, rfl, hs'⟩ := map_token_eq_cons hs
    obtain ⟨-, hdotted⟩ := takeDotted_tokens hs' (bracketTokens_head (by simp))
    obtain ⟨-, hbrackets⟩ := takeBrackets_tokens hdotted (by simp)
    obtain ⟨_, _, hclose, hoperand⟩ := map_token_eq_cons hbrackets
    obtain ⟨_, _, rfl, -⟩ := map_token_eq_cons hoperand
    simp only [Parser.looksLikeCast, hclose]
    exact ht rfl

/-- A type and a name are taken for a declaration. -/
theorem TypeName.looksLikeDeclaration_eq_true {type : TypeName} {name : String}
    (htype : type.head.Grammatical)
    (hs : s.map Lexeme.token = type.tokens ++ Token.ident name :: rest) :
    Parser.looksLikeDeclaration s = true := by
  obtain ⟨head, dims, line⟩ := type
  cases head with
  | void => exact htype.elim
  | primitive p =>
    obtain ⟨n, s, rfl, hs'⟩ := map_token_eq_cons hs
    obtain ⟨-, hbrackets⟩ := takeBrackets_tokens hs' (by simp)
    simp only [Parser.looksLikeDeclaration, Primitive.word_primitive?, Option.isSome_some,
      Bool.true_and]
    exact (startsWithIdent_tokens hbrackets).mpr ⟨name, rfl⟩
  | named first more =>
    rw [TypeName.tokens, List.append_assoc] at hs
    obtain ⟨n, s, rfl, hs'⟩ := map_token_eq_cons hs
    obtain ⟨-, hdotted⟩ := takeDotted_tokens hs' (bracketTokens_head (by simp))
    obtain ⟨-, hbrackets⟩ := takeBrackets_tokens hdotted (by simp)
    simp only [Parser.looksLikeDeclaration]
    split
    next => rfl
    next => exact (startsWithIdent_tokens hbrackets).mpr ⟨name, rfl⟩

/-! ## 5. Types -/

namespace Parser

theorem takes_typeDims (head : TypeHead) (n dims : Nat) (hvoid : head = .void → dims = 0)
    (hrest : rest.head? ≠ some (Token.symbol .bracketOpen)) :
    Takes (typeDims head n) (bracketTokens dims) rest fun t => t.unlined = ⟨head, dims, 0⟩ := by
  refine takes_tokens.look ?_
  intro s hs
  obtain ⟨hdims, hafter⟩ := takeBrackets_tokens hs hrest
  rw [← List.append_nil (bracketTokens dims)]
  refine (takes_set hafter).bind ?_
  intro _ _
  rw [hdims, if_neg (by grind)]
  exact .ofPure rfl

/-- A type is read where neither a dot nor a bracket follows it. -/
theorem takes_typeName {allowVoid : Bool} {type : TypeName}
    (htype : type.head.Grammatical ∨ allowVoid = true ∧ type.isVoid = true)
    (hdot : rest.head? ≠ some (Token.symbol .dot))
    (hbracket : rest.head? ≠ some (Token.symbol .bracketOpen))
    (hless : rest.head? ≠ some (Token.symbol .less)) :
    Takes (typeName allowVoid) type.tokens rest fun t => t.unlined = type.unlined := by
  obtain ⟨head, dims, line⟩ := type
  refine takes_line.look ?_
  intro n _
  refine takes_peek.look ?_
  rintro _ rfl
  cases head with
  | void =>
    obtain hvoid | ⟨hallow, hvoid⟩ := htype
    · exact hvoid.elim
    · have hdims : dims = 0 := by simpa [TypeName.isVoid] using hvoid
      subst hdims
      simp only [TypeName.tokens, TypeHead.tokens, List.cons_append, List.head?_cons,
        Keyword.primitive?, hallow, and_self, if_true]
      exact takes_advance.next fun _ _ => takes_typeDims .void n 0 (fun _ => rfl) hbracket
  | primitive p =>
    simp only [TypeName.tokens, TypeHead.tokens, List.cons_append, List.head?_cons,
      Primitive.word_primitive?]
    exact takes_advance.next fun _ _ => takes_typeDims (.primitive p) n dims (by simp) hbracket
  | named first more =>
    simp only [TypeName.tokens, TypeHead.tokens, List.cons_append, List.head?_cons]
    refine takes_advance.next fun _ _ => takes_tokens.look ?_
    intro s hs
    rw [List.append_assoc] at hs
    obtain ⟨hmore, hafter⟩ := takeDotted_tokens hs (bracketTokens_head hdot)
    refine (takes_set hafter).bind fun _ _ => ?_
    refine takes_atSymbol.look ?_
    rintro _ rfl
    -- type arguments are refused, so no `<` may follow the name
    have hgeneric : (bracketTokens dims ++ rest).head? ≠ some (Token.symbol .less) := by
      cases dims with
      | zero => exact hless
      | succ dims => simp [bracketTokens]
    rw [beq_eq_false_iff_ne.mpr hgeneric, hmore]
    exact takes_typeDims (.named first more) n dims (by simp) hbracket

end Parser

end MethodGraft.Source
