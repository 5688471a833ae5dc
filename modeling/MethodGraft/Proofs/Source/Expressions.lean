import Mathlib.Tactic.IntervalCases
import MethodGraft.Proofs.Source.LookAhead

/-!
# Proofs.Source.Expressions — expressions are read as they are written

Each operand of an expression stands where the parser for its looseness reads it: the parser for a
looser operand reads it too, up to the parser for all expressions, which reads it in parentheses for
every tighter one.  Where the parser loops, over operators of one looseness and over what follows
dots, an expression is read in front of the rounds that are still to come.
-/

namespace MethodGraft.Source

variable {rest us : List Token}

/-! ## 1. Parsers by looseness -/

def levelAt : Nat → Parser.Level
  | 0 => .sum
  | 1 => .relation
  | 2 => .equality
  | 3 => .and
  | _ => .or

/-- The parser for expressions of looseness `d` at most, with the fuel `n` for itself and `f` for
expressions in parentheses. -/
def parserFor (f n : Nat) : Nat → Parser Expr
  | 0 => Parser.postfixExpr (Parser.expr f) (n - 1)
  | 1 => Parser.unary (Parser.expr f) n
  | d + 2 => Parser.binary (levelAt d) n (parserFor f n (d + 1))

/-- How loose an operand may be in front of the symbol; no operand ends in front of any other
symbol. -/
def Symbol.looseness : Symbol → Nat
  | .parenClose | .comma | .semicolon => 7
  | .orOr => 6
  | .andAnd => 5
  | .eqEq | .notEq => 4
  | .less | .lessEq | .greater | .greaterEq => 3
  | .plus => 2
  | _ => 0

def EndsBefore (d : Nat) (rest : List Token) : Prop :=
  ∃ x after, rest = Token.symbol x :: after ∧ d < x.looseness

theorem BinaryOp.symbol_looseness (op : BinaryOp) : op.symbol.looseness = op.looseness := by
  cases op <;> rfl

theorem operator?_symbol {op : BinaryOp} {d : Nat} (hop : op.looseness = d + 2) :
    (levelAt d).operator? op.symbol = some op := by
  cases op <;> cases hop <;> rfl

theorem operator?_eq_none {d : Nat} {x : Symbol} (hd : d ≤ 4) (hx : d + 2 < x.looseness) :
    (levelAt d).operator? x = none := by
  interval_cases d <;> cases x <;> first | rfl | exact absurd hx (by decide)

def Expr.tokensAt (d : Nat) (e : Expr) : List Token := wrapIf (d < e.looseness) e.tokens

def Expr.Same (e e' : Expr) : Prop := e'.unlined = e.unlined

theorem Expr.tokensAt_of_le {d : Nat} {e : Expr} (h : e.looseness ≤ d) :
    e.tokensAt d = e.tokens := by
  simp [Expr.tokensAt, wrapIf, h]

theorem Expr.tokensAt_of_lt {d : Nat} {e : Expr} (h : d < e.looseness) :
    e.tokensAt d = Token.symbol .parenOpen :: e.tokens ++ [Token.symbol .parenClose] := by
  simp [Expr.tokensAt, wrapIf, h]

theorem Expr.tokensAt_succ {d : Nat} {e : Expr} (h : e.looseness ≠ d + 1) :
    e.tokensAt (d + 1) = e.tokensAt d := by
  have hiff : d + 1 < e.looseness ↔ d < e.looseness := by omega
  simp [Expr.tokensAt, hiff]

theorem Expr.length_tokens_pos (e : Expr) : 0 < e.tokens.length := by
  obtain ⟨t, ts, htokens, -⟩ := e.tokens_head
  simp [htokens]

theorem Expr.length_tokensAt_pos (d : Nat) (e : Expr) : 0 < (e.tokensAt d).length := by
  by_cases h : d < e.looseness
  · simp [tokensAt_of_lt h]
  · rw [tokensAt_of_le (Nat.le_of_not_lt h)]
    exact e.length_tokens_pos

/-! ## 2. What it is to be read -/

def ReadsAt (d : Nat) (e : Expr) : Prop :=
  ∀ ⦃f n : Nat⦄ ⦃rest : List Token⦄, (e.tokensAt d).length ≤ f + 1 → (e.tokensAt d).length ≤ n →
    EndsBefore d rest → Parser.Takes (parserFor f n d) (e.tokensAt d) rest e.Same

/-- The parser for operands of looseness `d + 2` reads the expression in front of `us`, if its loop
reads `us`. -/
def ReadsOperand (d : Nat) (e : Expr) : Prop :=
  ∀ ⦃f n : Nat⦄ ⦃us rest : List Token⦄ ⦃Q : Expr → Prop⦄, (e.tokensAt (d + 2)).length ≤ f + 1 →
    (e.tokensAt (d + 2) ++ us).length ≤ n → EndsBefore (d + 1) (us ++ rest) →
    (∀ m e', us.length ≤ m → e.Same e' →
      Parser.Takes (Parser.operands (levelAt d) (parserFor f n (d + 1)) m e') us rest Q) →
    Parser.Takes (parserFor f n (d + 2)) (e.tokensAt (d + 2) ++ us) rest Q

/-- The parser for calls and field accesses reads the expression in front of `us`, if its loop reads
`us`. -/
def ReadsTarget (e : Expr) : Prop :=
  ∀ ⦃f n : Nat⦄ ⦃us rest : List Token⦄ ⦃Q : Expr → Prop⦄, (e.tokensAt 0).length ≤ f + 1 →
    (e.tokensAt 0 ++ us).length ≤ n + 1 → (us ++ rest).head? ≠ some (Token.symbol .parenOpen) →
    (∀ m e', us.length ≤ m → e.Same e' →
      Parser.Takes (Parser.accesses (Parser.expr f) m e') us rest Q) →
    Parser.Takes (Parser.postfixExpr (Parser.expr f) n) (e.tokensAt 0 ++ us) rest Q

def ReadsWhole (e : Expr) : Prop :=
  ∀ ⦃f : Nat⦄ ⦃rest : List Token⦄, e.tokens.length ≤ f → EndsBefore 6 rest →
    Parser.Takes (Parser.expr f) e.tokens rest e.Same

structure Readable (e : Expr) : Prop where
  at' : ∀ d ≤ 6, ReadsAt d e
  operand : ∀ d ≤ 4, ReadsOperand d e
  target : ReadsTarget e
  whole : ReadsWhole e

/-! ## 3. From one looseness to the next -/

open MethodGraft.Source.Parser

/-- Without an operator of the level there is no further operand. -/
theorem takes_operands_nil {d m : Nat} {next : Parser Expr} {e e' : Expr} (hd : d ≤ 4)
    (hrest : EndsBefore (d + 2) rest)
    (hsame : e.Same e') : Takes (operands (levelAt d) next m e') [] rest e.Same := by
  cases m with
  | zero => exact .ofPure hsame
  | succ m =>
    obtain ⟨x, after, rfl, hx⟩ := hrest
    refine takes_line.look fun _ _ => ?_
    have hoperator : Takes (nextOperator (levelAt d)) [] (Token.symbol x :: after) (· = none) := by
      refine takes_peek.look ?_
      rintro _ rfl
      simp only [List.nil_append, List.head?_cons, operator?_eq_none hd hx]
      exact .ofPure rfl
    refine hoperator.look ?_
    rintro _ rfl
    exact .ofPure hsame

/-- An operator of the level is followed by an operand and further rounds. -/
theorem takes_operands_cons {d m : Nat} {next : Parser Expr} {op : BinaryOp} {l : Expr}
    {ts : List Token} {P Q : Expr → Prop} (hop : op.looseness = d + 2)
    (hnext : Takes next ts (us ++ rest) P)
    (hmore : ∀ r n, P r → Takes (operands (levelAt d) next m (.binary op l r n)) us rest Q) :
    Takes (operands (levelAt d) next (m + 1) l) (Token.symbol op.symbol :: ts ++ us) rest Q := by
  refine takes_line.look fun n _ => ?_
  have hoperator : Takes (nextOperator (levelAt d)) [] (Token.symbol op.symbol :: ts ++ us ++ rest)
      (· = some op) := by
    refine takes_peek.look ?_
    rintro _ rfl
    simp only [List.nil_append, List.cons_append, List.head?_cons, operator?_symbol hop]
    exact .ofPure rfl
  refine hoperator.look ?_
  rintro _ rfl
  refine takes_advance.next fun _ _ => ?_
  exact hnext.bind fun r hr => hmore r n hr

/-- An expression that is no operation of the level is an operand of the level. -/
theorem ReadsAt.operand {d : Nat} {e : Expr} (h : ReadsAt (d + 1) e) (hne : e.looseness ≠ d + 2) :
    ReadsOperand d e := by
  intro f n us rest Q hf hn hrest hmore
  rw [Expr.tokensAt_succ hne] at hf hn ⊢
  rw [List.length_append] at hn
  refine (h hf (by omega) hrest).bind fun e' he' => ?_
  exact hmore n e' (by omega) he'

theorem ReadsOperand.at' {d : Nat} {e : Expr} (hd : d ≤ 4) (h : ReadsOperand d e) :
    ReadsAt (d + 2) e := by
  intro f n rest hf hn hrest
  obtain ⟨x, after, rfl, hx⟩ := hrest
  have hnil := @h f n [] _ _ hf (by simpa using hn) ⟨x, after, rfl, Nat.lt_of_succ_lt hx⟩
    fun m e' _ he' => takes_operands_nil hd ⟨x, after, rfl, hx⟩ he'
  rwa [List.append_nil] at hnil

/-- Without a dot there is no further access. -/
theorem takes_accesses_nil {m : Nat} {inner : Parser Expr} {e e' : Expr}
    (hrest : rest.head? ≠ some (Token.symbol .dot)) (hsame : e.Same e') :
    Takes (accesses inner m e') [] rest e.Same := by
  cases m with
  | zero => exact .ofPure hsame
  | succ m =>
    refine takes_line.look fun _ _ => ?_
    refine (takes_eatSymbol_not hrest).look ?_
    rintro _ rfl
    exact .ofPure hsame

theorem EndsBefore.head_ne {d : Nat} {x : Symbol} (h : EndsBefore d rest) (hx : x.looseness = 0) :
    rest.head? ≠ some (Token.symbol x) := by
  obtain ⟨y, after, rfl, hy⟩ := h
  intro heq
  cases heq
  omega

theorem ReadsTarget.at' {e : Expr} (h : ReadsTarget e) : ReadsAt 0 e := by
  intro f n rest hf hn hrest
  have hpos := e.length_tokensAt_pos 0
  have hnil := @h f (n - 1) [] _ _ hf (by simp only [List.append_nil]; omega) (hrest.head_ne rfl)
    fun m e' _ he' => takes_accesses_nil (hrest.head_ne rfl) he'
  rwa [List.append_nil] at hnil

/-- What may stand in front of a dot is not taken for a unary form. -/
theorem takes_unary_target {inner : Parser Expr} {n : Nat} {e : Expr} {Q : Expr → Prop}
    (h : Takes (postfixExpr inner n) (e.tokensAt 0) rest Q) :
    Takes (unary inner (n + 1)) (e.tokensAt 0) rest Q := by
  refine takes_line.look fun _ _ => takes_tokens.look fun s hs => ?_
  -- a wrapped expression starts with a parenthesis, which must not be taken for that of a cast
  by_cases hloose : 0 < e.looseness
  · rw [Expr.tokensAt_of_lt hloose] at hs h ⊢
    obtain ⟨m, s, rfl, hs'⟩ := map_token_eq_cons hs
    have hs' : s.map Lexeme.token = e.tokens ++ (Token.symbol .parenClose :: rest) := by
      rw [hs', List.append_eq, List.append_eq, List.append_assoc]
      rfl
    simp only [Expr.looksLikeCast_eq_false hloose hs', Bool.false_eq_true, if_false]
    exact h
  · have hprimary := Nat.eq_zero_of_not_pos hloose
    rw [Expr.tokensAt_of_le (Nat.le_of_not_lt hloose)] at hs h ⊢
    obtain ⟨t, ts, htokens, hstarts, hminus, hbang⟩ := e.tokens_head
    rw [htokens] at hs
    obtain ⟨m, s, rfl, hs'⟩ := map_token_eq_cons hs
    cases t with
    | symbol x =>
      cases x
      case parenOpen =>
        simp only [e.looksLikeCast_primary hprimary htokens hs', Bool.false_eq_true, if_false]
        exact h
      -- a `!` or a `-` at the front would make the expression itself a unary form
      case bang => exact absurd (hbang rfl) hloose
      case minus =>
        obtain hneg | hloose' := hminus rfl
        · rw [e.looseness_of_isNegative hneg] at hprimary
          cases hprimary
        · omega
      all_goals cases hstarts
    | _ => exact h

/-- The parser for a looser operand reads the expression too. -/
theorem ReadsAt.succ {d : Nat} {e : Expr} (h : ReadsAt d e) (hd : d ≤ 5)
    (hne : e.looseness ≠ d + 1) : ReadsAt (d + 1) e := by
  cases d with
  | zero =>
    intro f n rest hf hn hrest
    have hpos := e.length_tokensAt_pos 0
    rw [Expr.tokensAt_succ hne] at hf hn ⊢
    obtain ⟨n, rfl⟩ := Nat.exists_eq_add_of_lt (Nat.lt_of_lt_of_le hpos hn)
    obtain ⟨x, after, rfl, hx⟩ := hrest
    have htarget := h hf hn ⟨x, after, rfl, Nat.lt_of_succ_lt hx⟩
    exact takes_unary_target htarget
  | succ d => exact (h.operand hne).at' (by omega)

theorem ReadsAt.climb {c d : Nat} {e : Expr} (h : ReadsAt c e) (hcd : c ≤ d) (hd : d ≤ 6)
    (hne : ∀ k, c < k → k ≤ d → e.looseness ≠ k) : ReadsAt d e := by
  induction d, hcd using Nat.le_induction with
  | base => exact h
  | succ d hcd ih =>
    have hd' := ih (by omega) fun k hck hkd => hne k hck (by omega)
    exact hd'.succ (by omega) (hne (d + 1) (by omega) (by omega))

theorem EndsBefore.refuses_nothing (h : EndsBefore 6 rest) :
    Takes refuseOperators [] rest fun _ => True := by
  obtain ⟨x, after, rfl, hx⟩ := h
  refine takes_peek.look ?_
  rintro _ rfl
  have hrefused : refusedOperator? x = none := by
    cases x <;> first | rfl | exact absurd hx (by decide)
  simp only [List.nil_append, List.head?_cons, hrefused]
  exact .ofPure trivial

/-- The parser for expressions reads all that its loosest operands may be. -/
theorem ReadsAt.whole {e : Expr} (h : ReadsAt 6 e) : ReadsWhole e := by
  intro f rest hf hrest
  have hpos := e.length_tokens_pos
  obtain ⟨f, rfl⟩ := Nat.exists_eq_add_of_lt (Nat.lt_of_lt_of_le hpos hf)
  have htokens := e.tokensAt_of_le e.looseness_le
  have hread := @h f (f + 1) rest (by rw [htokens]; omega) (by rw [htokens]; omega) hrest
  rw [htokens] at hread
  rw [Nat.zero_add, ← List.append_nil e.tokens]
  refine hread.bind fun e' he' => ?_
  exact hrest.refuses_nothing.look fun _ _ => .ofPure he'

/-- Calls and field accesses may follow what one token or pair of parentheses starts. -/
theorem ReadsTarget.of_primary {e : Expr}
    (h : ∀ ⦃f n : Nat⦄ ⦃rest : List Token⦄,
      (e.tokensAt 0).length ≤ f + 1 → (e.tokensAt 0).length ≤ n + 1 →
      rest.head? ≠ some (Token.symbol .parenOpen) →
      Takes (primary (Parser.expr f) n) (e.tokensAt 0) rest e.Same) :
    ReadsTarget e := by
  intro f n us rest Q hf hn hopen hmore
  have hpos := e.length_tokensAt_pos 0
  rw [List.length_append] at hn
  refine (h hf (by omega) hopen).bind fun e' he' => ?_
  exact hmore n e' (by omega) he'

/-- Parentheses make a target of any expression. -/
theorem ReadsWhole.target {e : Expr} (h : ReadsWhole e) (hloose : 0 < e.looseness) :
    ReadsTarget e := by
  apply ReadsTarget.of_primary
  intro f n rest hf hn hopen
  rw [Expr.tokensAt_of_lt hloose] at hf ⊢
  simp only [List.length_cons, List.length_append, List.length_nil, List.cons_append] at hf
  refine takes_line.look fun _ _ => takes_peek.look ?_
  rintro _ rfl
  simp only [List.cons_append, List.head?_cons]
  refine takes_advance.next fun _ _ => ?_
  refine (h (by omega) ⟨.parenClose, rest, rfl, by decide⟩).bind fun e' he' => ?_
  exact takes_expectSymbol.next fun _ _ => .ofPure he'

/-- An expression that is read in its own place is read wherever it may stand. -/
theorem Readable.of_own {e : Expr} (htarget : e.looseness = 0 → ReadsTarget e)
    (hunary : e.looseness = 1 → ReadsAt 1 e)
    (hoperand : ∀ d, e.looseness = d + 2 → ReadsOperand d e) : Readable e := by
  have hown : ReadsAt e.looseness e := by
    match hloose : e.looseness with
    | 0 => exact (htarget hloose).at'
    | 1 => exact hunary hloose
    | d + 2 =>
      have hle := e.looseness_le
      exact (hoperand d hloose).at' (by omega)
  -- in its own place and in every looser one it stands without parentheses
  have hup : ∀ d, e.looseness ≤ d → d ≤ 6 → ReadsAt d e := fun d hle hd =>
    hown.climb hle hd fun k hk _ => Nat.ne_of_lt hk
  have hwhole : ReadsWhole e := (hup 6 e.looseness_le (Nat.le_refl 6)).whole
  have htarget' : ReadsTarget e := by
    by_cases hloose : 0 < e.looseness
    · exact hwhole.target hloose
    · exact htarget (Nat.eq_zero_of_not_pos hloose)
  -- in a tighter place it is wrapped, and read as a target
  have hat : ∀ d ≤ 6, ReadsAt d e := by
    intro d hd
    by_cases hle : e.looseness ≤ d
    · exact hup d hle hd
    · exact htarget'.at'.climb (Nat.zero_le d) hd fun k _ hk => by omega
  refine ⟨hat, ?_, htarget', hwhole⟩
  intro d hd
  by_cases hloose : e.looseness = d + 2
  · exact hoperand d hloose
  · exact (hat (d + 1) (by omega)).operand hloose

/-! ## 4. Primary expressions -/

theorem Literal.isNegative_of_looseness {v : Literal} {n : Nat}
    (h : (Expr.literal v n).looseness = 0) : v.isNegative = false := by
  cases hneg : v.isNegative with
  | false => rfl
  | true => simp [Expr.looseness, hneg] at h

theorem takes_takeLiteral {t : Token} {v : Literal} (n : Nat) :
    Takes (takeLiteral v n) [t] rest (Expr.literal v n).Same :=
  takes_advance.next fun _ _ => .ofPure rfl

theorem readsTarget_literal {v : Literal} {n : Nat} (hloose : (Expr.literal v n).looseness = 0) :
    ReadsTarget (.literal v n) := by
  apply ReadsTarget.of_primary
  intro f fuel rest _ _ _
  have hneg := v.isNegative_of_looseness hloose
  rw [Expr.tokensAt_of_le (Nat.le_of_eq hloose)]
  refine takes_line.look fun m _ => takes_peek.look ?_
  rintro _ rfl
  cases v with
  | int v =>
    have hv : ¬ v < 0 := by simpa [Literal.isNegative] using hneg
    have hbound : ¬ v.toInt > 2147483647 := by
      have hle : v.toInt ≤ 2147483647 := v.toInt_le
      omega
    simp only [Expr.tokens, Literal.tokens, if_neg hv, List.cons_append, List.head?_cons,
      if_neg hbound]
    refine takes_advance.next fun _ _ => .ofPure ?_
    simp [Expr.Same, Expr.unlined]
  | long v =>
    have hv : ¬ v < 0 := by simpa [Literal.isNegative] using hneg
    have hbound : ¬ v = Int64.minValue := by
      rintro rfl
      exact hv (by decide)
    simp only [Expr.tokens, Literal.tokens, if_neg hv, List.cons_append, List.head?_cons,
      if_neg hbound]
    exact takes_advance.next fun _ _ => .ofPure rfl
  | bool b => cases b <;> exact takes_takeLiteral m
  | _ => exact takes_takeLiteral m

theorem readsTarget_this (n : Nat) : ReadsTarget (.this n) := by
  apply ReadsTarget.of_primary
  intro f fuel rest _ _ hopen
  refine takes_line.look fun m _ => takes_peek.look ?_
  rintro _ rfl
  refine takes_advance.next fun _ _ => takes_atSymbol.look ?_
  rintro _ rfl
  rw [List.nil_append, beq_eq_false_iff_ne.mpr hopen]
  exact .ofPure rfl

theorem readsTarget_name (name : String) (n : Nat) : ReadsTarget (.name name n) := by
  apply ReadsTarget.of_primary
  intro f fuel rest _ _ hopen
  refine takes_line.look fun m _ => takes_peek.look ?_
  rintro _ rfl
  refine takes_advance.next fun _ _ => takes_atSymbol.look ?_
  rintro _ rfl
  rw [List.nil_append, beq_eq_false_iff_ne.mpr hopen]
  exact .ofPure rfl

theorem unlinedArgs_eq_map (es : List Expr) : unlinedArgs es = es.map Expr.unlined := by
  induction es with
  | nil => rfl
  | cons e es ih => simp [unlinedArgs, ih]

/-- Arguments are read up to the parenthesis that closes them. -/
theorem takes_argsFrom {f n : Nat} {e : Expr} {es : List Expr} (read : List Expr)
    (hread : ∀ a ∈ e :: es, ReadsWhole a) (hf : (argTokens [] (e :: es)).length ≤ f)
    (hn : (argTokens [] (e :: es)).length ≤ n) :
    Takes (argsFrom (Parser.expr f) n read) (argTokens [] (e :: es)) rest
      fun as => unlinedArgs as = unlinedArgs (read.reverse ++ e :: es) := by
  induction es generalizing n e read with
  | nil =>
    simp only [argTokens, List.nil_append, List.length_append, List.length_singleton] at hf hn ⊢
    obtain ⟨n, rfl⟩ := Nat.exists_eq_add_of_lt (Nat.lt_of_lt_of_le (Nat.succ_pos _) hn)
    have hwhole := hread e List.mem_cons_self
    have he := @hwhole f (Token.symbol .parenClose :: rest) (by omega)
      ⟨.parenClose, rest, rfl, by decide⟩
    refine he.bind fun e' he' => takes_eatSymbol.next ?_
    rintro _ rfl
    refine .ofPure ?_
    simp [unlinedArgs_eq_map, show e'.unlined = e.unlined from he']
  | cons a es ih =>
    have htokens : argTokens [] (e :: a :: es) = e.tokens ++ Token.symbol .comma ::
        argTokens [] (a :: es) := by
      simp [argTokens]
    rw [htokens] at hf hn ⊢
    simp only [List.length_append, List.length_cons] at hf hn
    obtain ⟨n, rfl⟩ :=
      Nat.exists_eq_add_of_lt (Nat.lt_of_lt_of_le (Nat.lt_add_left _ (Nat.succ_pos _)) hn)
    have hwhole := hread e List.mem_cons_self
    have he := @hwhole f (Token.symbol .comma :: argTokens [] (a :: es) ++ rest) (by omega)
      ⟨.comma, _, rfl, by decide⟩
    refine he.bind fun e' he' => (takes_eatSymbol_not (by simp)).look ?_
    rintro _ rfl
    refine takes_expectSymbol.next fun _ _ => ?_
    -- the arguments that were read are kept the other way round
    have hmore := ih (n := 0 + n) (e := a) (e' :: read)
      (fun b hb => hread b (List.mem_cons_of_mem e hb)) (by omega) (by omega)
    refine hmore.mono fun as has => ?_
    rw [has]
    simp [unlinedArgs_eq_map, show e'.unlined = e.unlined from he']

/-- Arguments are read with their parentheses. -/
theorem takes_args {f n : Nat} {es : List Expr} (rest : List Token) (hread : ∀ a ∈ es, ReadsWhole a)
    (hf : (argTokens [] es).length ≤ f) (hn : (argTokens [] es).length ≤ n) :
    Takes (args (Parser.expr f) n) (Token.symbol .parenOpen :: argTokens [] es) rest
      fun as => unlinedArgs as = unlinedArgs es := by
  refine takes_expectSymbol.next fun _ _ => ?_
  cases es with
  | nil =>
    refine takes_eatSymbol.next ?_
    rintro _ rfl
    exact .ofPure rfl
  | cons e es =>
    have hclose : (argTokens [] (e :: es) ++ rest).head? ≠ some (Token.symbol .parenClose) := by
      obtain ⟨t, ts, htokens, ht⟩ := e.tokens_head
      simp only [argTokens, htokens, List.nil_append, List.cons_append, List.head?_cons]
      intro heq
      cases heq
      cases ht.starts
    refine (takes_eatSymbol_not hclose).look ?_
    rintro _ rfl
    exact takes_argsFrom [] hread hf hn

theorem readsTarget_call {name : String} {es : List Expr} (n : Nat)
    (hread : ∀ a ∈ es, ReadsWhole a) : ReadsTarget (.call name es n) := by
  apply ReadsTarget.of_primary
  intro f fuel rest hf hfuel _
  have htokens : (Expr.call name es n).tokensAt 0 =
      Token.ident name :: Token.symbol .parenOpen :: argTokens [] es := rfl
  rw [htokens] at hf hfuel ⊢
  simp only [List.length_cons] at hf hfuel
  refine takes_line.look fun m _ => takes_peek.look ?_
  rintro _ rfl
  refine takes_advance.next fun _ _ => takes_atSymbol.look ?_
  rintro _ rfl
  have hargs := takes_args (f := f) (n := fuel) rest hread (by omega) (by omega)
  rw [← List.append_nil (argTokens [] es)]
  refine hargs.bind fun as has => .ofPure ?_
  simp [Expr.Same, Expr.unlined, has]

/-- The name after a dot. -/
theorem takes_memberName {name : String} : Takes memberName [Token.ident name] rest (· = name) := by
  refine takes_peek.look ?_
  rintro _ rfl
  exact takes_expectIdent

theorem readsTarget_field {target : Expr} {name : String} (n : Nat) (h : ReadsTarget target) :
    ReadsTarget (.field target name n) := by
  intro f fuel us rest Q hf hfuel hopen hmore
  have htokens : (Expr.field target name n).tokensAt 0 =
      target.tokensAt 0 ++ [Token.symbol .dot, Token.ident name] := rfl
  rw [htokens, List.append_assoc] at hfuel ⊢
  rw [htokens, List.length_append] at hf
  refine h (by omega) hfuel (by simp) fun m e' hm he' => ?_
  obtain ⟨m, rfl⟩ := Nat.exists_eq_add_of_lt (Nat.lt_of_lt_of_le (Nat.succ_pos _) hm)
  simp only [List.cons_append, List.nil_append, List.length_cons] at hm ⊢
  refine takes_line.look fun k _ => takes_eatSymbol.next ?_
  rintro _ rfl
  refine takes_memberName.next ?_
  rintro _ rfl
  refine takes_atSymbol.look ?_
  rintro _ rfl
  rw [beq_eq_false_iff_ne.mpr hopen]
  refine hmore _ _ (by omega) ?_
  simp [Expr.Same, Expr.unlined, show e'.unlined = target.unlined from he']

theorem readsTarget_callOn {target : Expr} {name : String} {es : List Expr} (n : Nat)
    (h : ReadsTarget target) (hread : ∀ a ∈ es, ReadsWhole a) :
    ReadsTarget (.callOn target name es n) := by
  intro f fuel us rest Q hf hfuel _ hmore
  have htokens : (Expr.callOn target name es n).tokensAt 0 =
      target.tokensAt 0 ++ Token.symbol .dot :: Token.ident name :: Token.symbol .parenOpen ::
        argTokens [] es := rfl
  rw [htokens, List.append_assoc] at hfuel ⊢
  rw [htokens, List.length_append] at hf
  simp only [List.length_cons] at hf
  refine h (by omega) hfuel (by simp) fun m e' hm he' => ?_
  obtain ⟨m, rfl⟩ := Nat.exists_eq_add_of_lt (Nat.lt_of_lt_of_le (Nat.succ_pos _) hm)
  simp only [List.cons_append, List.length_cons, List.length_append] at hm ⊢
  refine takes_line.look fun k _ => takes_eatSymbol.next ?_
  rintro _ rfl
  refine takes_memberName.next ?_
  rintro _ rfl
  refine takes_atSymbol.look ?_
  rintro _ rfl
  have hargs := takes_args (f := f) (n := 0 + m) (us ++ rest) hread (by omega) (by omega)
  refine hargs.bind fun as has => hmore _ _ (by omega) ?_
  simp [Expr.Same, Expr.unlined, has, show e'.unlined = target.unlined from he']

/-! ## 5. Unary forms and operators -/

theorem readsAt_negative {v : Literal} {n : Nat} (hloose : (Expr.literal v n).looseness = 1) :
    ReadsAt 1 (.literal v n) := by
  intro f fuel rest hf hfuel _
  have hneg : v.isNegative = true := by
    cases hv : v.isNegative with
    | true => rfl
    | false => simp [Expr.looseness, hv] at hloose
  have hpos := (Expr.literal v n).length_tokensAt_pos 1
  obtain ⟨fuel, rfl⟩ := Nat.exists_eq_add_of_lt (Nat.lt_of_lt_of_le hpos hfuel)
  rw [Expr.tokensAt_of_le (Nat.le_of_eq hloose)]
  refine takes_line.look fun m _ => takes_tokens.look fun s hs => ?_
  -- minus and number are taken together, so that the smallest number can be read
  cases v with
  | int v | long v =>
    have hv : v < 0 := by simpa [Literal.isNegative] using hneg
    simp only [Expr.tokens, Literal.tokens, if_pos hv, List.cons_append, List.nil_append] at hs ⊢
    obtain ⟨_, _, rfl, -⟩ := map_token_eq_cons hs
    refine takes_tokens.look fun s' hs' => ?_
    obtain ⟨_, _, rfl, hs''⟩ := map_token_eq_cons hs'
    obtain ⟨_, _, rfl, hrest⟩ := map_token_eq_cons hs''
    exact takes_set_pure hrest (by simp [Expr.Same, Expr.unlined])
  | _ => cases hneg

theorem readsAt_not {e : Expr} (n : Nat) (h : ReadsAt 1 e) : ReadsAt 1 (.not e n) := by
  intro f fuel rest hf hfuel hrest
  have htokens : (Expr.not e n).tokensAt 1 = Token.symbol .bang :: e.tokensAt 1 := rfl
  rw [htokens, List.length_cons] at hf hfuel
  rw [htokens]
  obtain ⟨fuel, rfl⟩ := Nat.exists_eq_add_of_lt (Nat.lt_of_lt_of_le (Nat.succ_pos _) hfuel)
  refine takes_line.look fun m _ => takes_tokens.look fun s hs => ?_
  obtain ⟨_, _, rfl, -⟩ := map_token_eq_cons hs
  refine takes_advance.next fun _ _ => ?_
  have hread := h (f := f) (n := 0 + fuel) (by omega) (by omega) hrest
  rw [← List.append_nil (e.tokensAt 1)]
  refine hread.bind fun e' he' => .ofPure ?_
  simp [Expr.Same, Expr.unlined, show e'.unlined = e.unlined from he']

theorem startsCastOperand_of_startsExpr {t : Token} (h : startsExpr t = true)
    (hminus : t ≠ Token.symbol .minus) : startsCastOperand t = true := by
  cases t with
  | keyword k => cases k <;> first | rfl | cases h
  | symbol x => cases x <;> first | rfl | exact absurd rfl hminus | cases h
  | float => cases h
  | _ => rfl

/-- The operand of a cast is read, and after a class it starts as one. -/
theorem readsAt_cast {type : TypeName} {e : Expr} (n : Nat) (htype : type.head.Grammatical)
    (h : ReadsAt 1 e) (htarget : ReadsTarget e) : ReadsAt 1 (.cast type e n) := by
  intro f fuel rest hf hfuel hrest
  -- what stands after the parenthesis
  obtain ⟨operand, hoperand, hstarts, hread⟩ : ∃ operand,
      wrapIf (1 < e.looseness || type.isClass && e.isNegative) e.tokens = operand ∧
      (∃ t ts, operand = t :: ts ∧ (type.isClass = true → startsCastOperand t = true)) ∧
      ∀ m, operand.length ≤ f + 1 → operand.length ≤ m →
        Takes (Parser.unary (Parser.expr f) m) operand rest e.Same := by
    by_cases hneg : type.isClass = true ∧ e.isNegative = true
    · refine ⟨e.tokensAt 0, ?_, ?_, ?_⟩
      · simp [Expr.tokensAt, e.looseness_of_isNegative hneg.2, hneg]
      · rw [Expr.tokensAt_of_lt (by rw [e.looseness_of_isNegative hneg.2]; decide)]
        exact ⟨_, _, rfl, fun _ => rfl⟩
      · intro m hm hm'
        have hpos := e.length_tokensAt_pos 0
        obtain ⟨m, rfl⟩ := Nat.exists_eq_add_of_lt (Nat.lt_of_lt_of_le hpos hm')
        obtain ⟨x, after, rfl, hx⟩ := hrest
        have hat := htarget.at' hm hm' ⟨x, after, rfl, Nat.lt_of_succ_lt hx⟩
        exact takes_unary_target hat
    · refine ⟨e.tokensAt 1, ?_, ?_, fun m hm hm' => h hm hm' hrest⟩
      · have hfalse : (type.isClass && e.isNegative) = false := by
          rw [← Bool.not_eq_true, Bool.and_eq_true]
          exact hneg
        rw [hfalse, Bool.or_false]
        rfl
      · by_cases hloose : 1 < e.looseness
        · rw [Expr.tokensAt_of_lt hloose]
          exact ⟨_, _, rfl, fun _ => rfl⟩
        · rw [Expr.tokensAt_of_le (Nat.le_of_not_lt hloose)]
          obtain ⟨t, ts, htokens, ht⟩ := e.tokens_head
          refine ⟨t, ts, htokens,
            fun hclass => startsCastOperand_of_startsExpr ht.starts fun hminus => ?_⟩
          obtain hneg' | hloose' := ht.minus hminus
          · exact hneg ⟨hclass, hneg'⟩
          · exact hloose hloose'
  have htokens : (Expr.cast type e n).tokensAt 1 =
      Token.symbol .parenOpen :: (type.tokens ++ Token.symbol .parenClose :: operand) := by
    rw [← hoperand]
    rfl
  rw [htokens] at hf hfuel ⊢
  simp only [List.length_cons, List.length_append] at hf hfuel
  obtain ⟨fuel, rfl⟩ := Nat.exists_eq_add_of_lt (Nat.lt_of_lt_of_le (Nat.succ_pos _) hfuel)
  refine takes_line.look fun m _ => takes_tokens.look fun s hs => ?_
  obtain ⟨_, s, rfl, hs'⟩ := map_token_eq_cons hs
  have hcast : looksLikeCast s = true := by
    obtain ⟨t, ts, rfl, ht⟩ := hstarts
    have hs'' : s.map Lexeme.token = type.tokens ++ Token.symbol .parenClose :: t ::
        (ts ++ rest) := by
      rw [hs', List.append_eq, List.append_assoc]
      rfl
    exact type.looksLikeCast_eq_true htype ht hs''
  simp only [hcast, if_true]
  refine takes_advance.next fun _ _ => ?_
  refine (takes_typeName (.inl htype) (by simp) (by simp) (by simp)).bind fun type' htype' => ?_
  refine takes_expectSymbol.next fun _ _ => ?_
  rw [← List.append_nil operand]
  refine (hread (0 + fuel) (by omega) (by omega)).bind fun e' he' => .ofPure ?_
  simp [Expr.Same, Expr.unlined, htype', show e'.unlined = e.unlined from he']

/-- An operation is read after its first operand, which is read the same way. -/
theorem readsOperand_binary {op : BinaryOp} {l r : Expr} {d : Nat} (n : Nat)
    (hop : op.looseness = d + 2) (hl : ReadsOperand d l) (hr : ReadsAt (d + 1) r) :
    ReadsOperand d (.binary op l r n) := by
  intro f fuel us rest Q hf hfuel hrest hmore
  have hloose : (Expr.binary op l r n).looseness ≤ d + 2 := Nat.le_of_eq hop
  have htokens : (Expr.binary op l r n).tokens =
      l.tokensAt (d + 2) ++ Token.symbol op.symbol :: r.tokensAt (d + 1) := by
    simp only [Expr.tokens, Expr.tokensAt, hop]
    rfl
  rw [Expr.tokensAt_of_le hloose, htokens] at hf hfuel ⊢
  rw [List.append_assoc] at hfuel ⊢
  simp only [List.length_append, List.length_cons] at hf hfuel
  refine hl (by omega)
    (by simp only [List.length_append, List.length_cons, List.cons_append]; omega)
    ⟨op.symbol, _, rfl, ?_⟩ fun m l' hm hl' => ?_
  · rw [op.symbol_looseness, hop]
    exact Nat.lt_succ_self _
  · obtain ⟨m, rfl⟩ := Nat.exists_eq_add_of_lt (Nat.lt_of_lt_of_le (Nat.succ_pos _) hm)
    simp only [List.length_append, List.length_cons, List.cons_append] at hm
    refine takes_operands_cons hop (hr (by omega) (by omega) hrest) fun r' k hr' => ?_
    refine hmore _ _ (by omega) ?_
    simp [Expr.Same, Expr.unlined, show l'.unlined = l.unlined from hl',
      show r'.unlined = r.unlined from hr']

/-! ## 6. All expressions -/

/-- A primary expression is read wherever it may stand. -/
theorem ReadsTarget.readable {e : Expr} (h : ReadsTarget e) (hprimary : e.looseness = 0) :
    Readable e := by
  apply Readable.of_own
  · exact fun _ => h
  · intro hloose
    rw [hprimary] at hloose
    cases hloose
  · intro d hloose
    rw [hprimary] at hloose
    cases hloose

/-- A unary form is read wherever it may stand. -/
theorem ReadsAt.readable {e : Expr} (h : ReadsAt 1 e) (hunary : e.looseness = 1) : Readable e := by
  apply Readable.of_own
  · intro hloose
    rw [hunary] at hloose
    cases hloose
  · exact fun _ => h
  · intro d hloose
    rw [hunary] at hloose
    cases hloose

mutual

/-- Every expression of the grammar is read wherever it may stand. -/
theorem Expr.readable : (e : Expr) → e.Grammatical → Readable e
  | .literal v n, _ => by
    apply Readable.of_own
    · exact readsTarget_literal
    · exact readsAt_negative
    · intro d hloose
      cases hneg : v.isNegative <;> simp [Expr.looseness, hneg] at hloose
  | .this n, _ => (readsTarget_this n).readable rfl
  | .name name n, _ => (readsTarget_name name n).readable rfl
  | .field target _ n, h => (readsTarget_field n (target.readable h.1).target).readable rfl
  | .call _ es n, h => (readsTarget_call n (readsWhole_args es h.2)).readable rfl
  | .callOn target _ es n, h =>
    (readsTarget_callOn n (target.readable h.1).target (readsWhole_args es h.2.2)).readable rfl
  | .not e n, h => (readsAt_not n ((e.readable h).at' 1 (by decide))).readable rfl
  | .cast _ e n, h =>
    (readsAt_cast n h.1 ((e.readable h.2).at' 1 (by decide)) (e.readable h.2).target).readable rfl
  | .binary op l r n, h => by
    have hop := op.two_le_looseness
    have hop' := op.looseness_le
    apply Readable.of_own
    · intro hloose
      exact absurd (show op.looseness = 0 from hloose) (by omega)
    · intro hloose
      exact absurd (show op.looseness = 1 from hloose) (by omega)
    · intro d hloose
      have hd : op.looseness = d + 2 := hloose
      exact readsOperand_binary n hd ((l.readable h.1).operand d (by omega))
        ((r.readable h.2).at' (d + 1) (by omega))

/-- Every argument is read as a whole. -/
theorem readsWhole_args : (es : List Expr) → AllGrammatical es → ∀ a ∈ es, ReadsWhole a
  | [], _ => by simp
  | e :: es, h => List.forall_mem_cons.mpr ⟨(e.readable h.1).whole, readsWhole_args es h.2⟩

end

end MethodGraft.Source
