import MethodGraft.Proofs.Runs
import MethodGraft.Proofs.Source.Tokens
import MethodGraft.Proofs.Source.Statements

/-!
# Proofs.Source.Grammar — what is read is of the grammar

Names in the tokens of a text are identifiers, so those of a declaration read from them are; the
parser makes no other trees than those of the grammar.
-/

namespace MethodGraft.Source

/-! ## 1. Names in tokens -/

/-- All names among the tokens are identifiers. -/
def Named (s : List Lexeme) : Prop := ∀ l ∈ s, ∀ n, l.token = Token.ident n → isIdentifier n = true

theorem Named.of_suffix {s t : List Lexeme} (h : Named s) (hsuffix : t <:+ s) : Named t :=
  fun l hl => h l (hsuffix.subset hl)

theorem ofBits?_ne_ident {bits : Nat} {long : Bool} {n : String} :
    ofBits? bits long ≠ some (Token.ident n) := by
  unfold ofBits?
  split <;> split <;> simp

theorem ofDecimal?_ne_ident {value : Nat} {long : Bool} {n : String} :
    ofDecimal? value long ≠ some (Token.ident n) := by
  unfold ofDecimal?
  split <;> split <;> simp

theorem readNumber_ne_ident {s rest : List Char} {n : String} :
    readNumber s ≠ some (Token.ident n, rest) := by
  intro h
  simp only [readNumber, Option.orElse_eq_some] at h
  -- whatever kind of number is read, its token is made by one of the functions above
  obtain hfloat | ⟨-, hhex | ⟨-, hoctal | ⟨-, hdecimal⟩⟩⟩ := h
  · simp [readFloat, Option.bind_eq_some_iff] at hfloat
  · unfold readHex at hhex
    split at hhex
    · split at hhex
      · simp only [Option.bind_eq_bind, Option.pure_def] at hhex
        split at hhex
        · cases hhex
        · obtain ⟨bits, -, hhex⟩ := Option.bind_eq_some_iff.mp hhex
          obtain ⟨t, ht, hhex⟩ := Option.bind_eq_some_iff.mp hhex
          cases hhex
          exact ofBits?_ne_ident ht
      · cases hhex
    · cases hhex
  · unfold readOctal at hoctal
    split at hoctal
    · simp only [Option.bind_eq_bind, Option.pure_def] at hoctal
      split at hoctal
      · cases hoctal
      · obtain ⟨bits, -, hoctal⟩ := Option.bind_eq_some_iff.mp hoctal
        obtain ⟨t, ht, hoctal⟩ := Option.bind_eq_some_iff.mp hoctal
        cases hoctal
        exact ofBits?_ne_ident ht
    · cases hoctal
  · simp only [readDecimal, Option.bind_eq_bind, Option.bind_eq_some_iff] at hdecimal
    obtain ⟨⟨digits, after⟩, -, hdecimal⟩ := hdecimal
    split at hdecimal
    · cases hdecimal
    · simp only [Option.bind_eq_some_iff, Option.pure_def, Option.some.injEq, Prod.mk.injEq]
        at hdecimal
      obtain ⟨value, -, t, ht, rfl, -⟩ := hdecimal
      exact ofDecimal?_ne_ident ht

theorem isIdentifier_of_readWord {s rest : List Char} {n : String}
    (h : readWord s = some (Token.ident n, rest)) : isIdentifier n = true := by
  cases s with
  | nil => cases h
  | cons c s =>
    simp only [readWord] at h
    split at h
    next hstarts =>
      split at h
      next => cases h
      next hkeyword =>
        cases h
        have hcontinues : (s.takeWhile continuesName).all continuesName = true := List.all_takeWhile
        simp only [isIdentifier, String.toList_ofList, hstarts, hcontinues, hkeyword,
          Option.isNone_none, Bool.and_self]
    next => cases h

/-- A token that is a name is an identifier. -/
theorem isIdentifier_of_readToken {fuel : Nat} {s rest : List Char} {n : String}
    (h : readToken fuel s = some (Token.ident n, rest)) : isIdentifier n = true := by
  simp only [readToken, Option.orElse_eq_some] at h
  obtain h | ⟨-, h | ⟨-, h | ⟨-, h | ⟨-, h⟩⟩⟩⟩ := h
  · exact absurd h readNumber_ne_ident
  · unfold readString at h
    split at h
    · obtain ⟨text, -, heq⟩ := Option.map_eq_some_iff.mp h
      cases heq
    · cases h
  · unfold readChar at h
    split at h
    · split at h
      · split at h <;> cases h
      · cases h
    · cases h
  · exact isIdentifier_of_readWord h
  · obtain ⟨x, -, heq⟩ := Option.map_eq_some_iff.mp h
    cases heq

/-- The names in the tokens of a text are identifiers. -/
theorem named_of_tokenizeFrom {fuel line : Nat} {found ts : List Lexeme} {s : List Char}
    (hfound : Named found) (h : tokenizeFrom fuel line found s = .ok ts) : Named ts := by
  induction fuel generalizing line found s with
  | zero =>
    cases h
    exact fun l hl => hfound l (List.mem_reverse.mp hl)
  | succ fuel ih =>
    simp only [tokenizeFrom] at h
    split at h
    next =>
      cases h
      exact fun l hl => hfound l (List.mem_reverse.mp hl)
    next => cases h
    next =>
      split at h
      next t rest hread =>
        refine ih ?_ h
        refine List.forall_mem_cons.mpr ⟨?_, hfound⟩
        rintro n rfl
        exact isIdentifier_of_readToken hread
      next => cases h

theorem named_of_tokenize {source : String} {ts : List Lexeme} (h : tokenize source = .ok ts) :
    Named ts :=
  named_of_tokenizeFrom (by simp [Named]) h

namespace Parser

variable {α β : Type}

/-! ## 2. Results of runs -/

/-- A run on tokens whose names are identifiers leaves such tokens, and its result has the property
`Q`. -/
def Gives (p : Parser α) (Q : α → Prop) : Prop :=
  ∀ last s a s', Named s → runOn p last s = .ok (a, s') → Named s' ∧ Q a

namespace Gives

variable {p : Parser α} {f : α → Parser β} {P Q : α → Prop} {R : β → Prop}

theorem ofPure {a : α} (h : Q a) : Gives (pure a) Q := by
  intro last s b s' hs hrun
  cases hrun
  exact ⟨hs, h⟩

theorem mono (h : Gives p P) (hPQ : ∀ a, P a → Q a) : Gives p Q := by
  intro last s a s' hs hrun
  obtain ⟨hs', ha⟩ := h last s a s' hs hrun
  exact ⟨hs', hPQ a ha⟩

theorem bind (h : Gives p P) (hf : ∀ a, P a → Gives (f a) R) : Gives (p >>= f) R := by
  intro last s b s' hs hrun
  obtain ⟨a, t, hp, hfa⟩ := runOn_bind_eq_ok.mp hrun
  obtain ⟨ht, ha⟩ := h last s a t hs hp
  exact hf a ha last t b s' ht hfa

theorem ite {c : Prop} [Decidable c] {p q : Parser α} (hp : c → Gives p Q) (hq : ¬ c → Gives q Q) :
    Gives (if c then p else q) Q := by
  split
  next hc => exact hp hc
  next hc => exact hq hc

/-- A construct that is refused if `c` holds. -/
theorem refusing {c : Prop} [Decidable c] {q : Parser β} (hp : Gives p fun _ => False)
    (hq : ¬ c → Gives q R) : Gives (if c then p >>= f else q) R :=
  .ite (fun _ => hp.bind fun _ hfalse => hfalse.elim) hq

end Gives

section

variable {Q : α → Prop}

theorem gives_line : Gives line fun _ => True := by
  intro last s n s' hs hrun
  obtain ⟨m, hline⟩ := runOn_line last s
  rw [hline] at hrun
  cases hrun
  exact ⟨hs, trivial⟩

theorem gives_failAt {n : Nat} {fault : SyntaxFault} : Gives (failAt n fault : Parser α) Q := by
  intro last s a s' hs hrun
  cases hrun

theorem gives_failHere {fault : SyntaxFault} : Gives (failHere fault : Parser α) Q :=
  gives_line.bind fun _ _ => gives_failAt

theorem gives_unsupported {construct : Construct} : Gives (unsupported construct : Parser α) Q := by
  refine gives_line.bind fun n _ => ?_
  intro last s a s' hs hrun
  cases hrun

theorem gives_tokens : Gives tokens Named := by
  intro last s a s' hs hrun
  cases hrun
  exact ⟨hs, hs⟩

theorem gives_peek : Gives peek fun t => ∀ n, t = some (Token.ident n) → isIdentifier n = true := by
  intro last s t s' hs hrun
  rw [runOn_peek] at hrun
  cases hrun
  refine ⟨hs, fun n hn => ?_⟩
  cases s with
  | nil => cases hn
  | cons l s => exact hs l List.mem_cons_self n (Option.some.inj hn)

theorem gives_advance {n : Nat} : Gives (advance n) fun _ => True := by
  intro last s a s' hs hrun
  cases hrun
  exact ⟨hs.of_suffix (List.drop_suffix n s), trivial⟩

theorem gives_set {s' : List Lexeme} (h : Named s') : Gives (set s') fun _ => True := by
  intro last s a t hs hrun
  cases hrun
  exact ⟨h, trivial⟩

theorem gives_atSymbol {x : Symbol} : Gives (atSymbol x) fun _ => True :=
  gives_peek.bind fun _ _ => .ofPure trivial

theorem gives_atKeyword {k : Keyword} : Gives (atKeyword k) fun _ => True :=
  gives_peek.bind fun _ _ => .ofPure trivial

theorem gives_eatSymbol {x : Symbol} : Gives (eatSymbol x) fun _ => True :=
  gives_atSymbol.bind fun _ _ =>
    .ite (fun _ => gives_advance.bind fun _ _ => .ofPure trivial) fun _ => .ofPure trivial

theorem gives_eatKeyword {k : Keyword} : Gives (eatKeyword k) fun _ => True :=
  gives_atKeyword.bind fun _ _ =>
    .ite (fun _ => gives_advance.bind fun _ _ => .ofPure trivial) fun _ => .ofPure trivial

theorem gives_expectSymbol {x : Symbol} : Gives (expectSymbol x) fun _ => True :=
  gives_eatSymbol.bind fun _ _ =>
    .ite (fun _ => gives_peek.bind fun _ _ => gives_failHere) fun _ => .ofPure trivial

theorem gives_expectIdent : Gives expectIdent fun n => isIdentifier n = true := by
  refine gives_peek.bind fun t ht => ?_
  split
  next n => exact gives_advance.bind fun _ _ => .ofPure (ht n rfl)
  next => exact gives_failHere

end

/-! ## 3. Types -/

theorem takeDotted_suffix (s : List Lexeme) : (takeDotted s).2 <:+ s := by
  fun_induction takeDotted s with
  | case1 _ name _ rest names after heq ih =>
    rw [heq] at ih
    exact ih.trans ⟨[_, _], rfl⟩
  | case2 => exact List.suffix_refl _

theorem takeDotted_named {s : List Lexeme} (hs : Named s) :
    ∀ n ∈ (takeDotted s).1, isIdentifier n = true := by
  fun_induction takeDotted s with
  | case1 _ name _ rest names after heq ih =>
    rw [heq] at ih
    have hname : isIdentifier name = true :=
      hs _ (List.mem_cons_of_mem _ List.mem_cons_self) name rfl
    exact List.forall_mem_cons.mpr ⟨hname, ih (hs.of_suffix ⟨[_, _], rfl⟩)⟩
  | case2 => simp

theorem takeBrackets_suffix (s : List Lexeme) : (takeBrackets s).2 <:+ s := by
  fun_induction takeBrackets s with
  | case1 _ _ rest n after heq ih =>
    rw [heq] at ih
    exact ih.trans ⟨[_, _], rfl⟩
  | case2 => exact List.suffix_refl _

theorem gives_typeDims {head : TypeHead} {n : Nat} :
    Gives (typeDims head n) fun t => t.head = head ∧ (head = .void → t.dims = 0) := by
  refine gives_tokens.bind fun s hs => ?_
  refine (gives_set (hs.of_suffix (takeBrackets_suffix s))).bind fun _ _ => ?_
  refine .refusing gives_failAt fun hdims => .ofPure ⟨rfl, fun hvoid => ?_⟩
  by_contra hne
  exact hdims ⟨Nat.pos_of_ne_zero hne, hvoid⟩

/-- A type that is read names identifiers, and is `void` only where that is allowed. -/
theorem gives_typeName {allowVoid : Bool} :
    Gives (typeName allowVoid) fun t => t.head.Grammatical ∨
    allowVoid = true ∧ t.isVoid = true := by
  refine gives_line.bind fun n _ => gives_peek.bind fun found hfound => ?_
  split
  next first =>
    refine gives_advance.bind fun _ _ => gives_tokens.bind fun s hs => ?_
    have hmore := takeDotted_named hs
    refine (gives_set (hs.of_suffix (takeDotted_suffix s))).bind
      fun _ _ => gives_atSymbol.bind fun _ _ => ?_
    have htype : Gives (typeDims (.named first (takeDotted s).1) n)
        fun t => t.head.Grammatical ∨ allowVoid = true ∧ t.isVoid = true := by
      refine gives_typeDims.mono fun t ht => .inl ?_
      rw [ht.1]
      exact List.forall_mem_cons.mpr ⟨hfound first rfl, hmore⟩
    exact .refusing gives_unsupported fun _ => htype
  next k =>
    split
    next p =>
      refine gives_advance.bind fun _ _ => gives_typeDims.mono fun t ht => .inl ?_
      rw [ht.1]
      trivial
    next =>
      refine .ite
        (fun hallow => gives_advance.bind fun _ _ =>
          gives_typeDims.mono fun t ht => .inr ⟨hallow.2, ?_⟩)
        fun _ => gives_failAt
      simp [TypeName.isVoid, ht.1, ht.2 rfl]
  next => exact gives_failAt

/-! ## 4. Expressions -/

theorem gives_refuseOperators : Gives refuseOperators fun _ => True := by
  refine gives_peek.bind fun t _ => ?_
  split
  · split
    · exact gives_unsupported
    · exact .ofPure trivial
  · exact gives_unsupported
  · exact .ofPure trivial

theorem allGrammatical_iff {es : List Expr} : AllGrammatical es ↔ ∀ e ∈ es, e.Grammatical := by
  induction es with
  | nil => simp [AllGrammatical]
  | cons e es ih => simp [AllGrammatical, ih]

section

variable {inner : Parser Expr} (hinner : Gives inner Expr.Grammatical)

include hinner

theorem gives_argsFrom {n : Nat} {read : List Expr} (hread : AllGrammatical read) :
    Gives (argsFrom inner n read) AllGrammatical := by
  induction n generalizing read with
  | zero => exact gives_failHere
  | succ n ih =>
    refine hinner.bind fun e he => gives_eatSymbol.bind fun _ _ => ?_
    have hread' : AllGrammatical (e :: read) := ⟨he, hread⟩
    refine .ite (fun _ => .ofPure ?_) fun _ => gives_expectSymbol.bind fun _ _ => ih hread'
    rw [allGrammatical_iff] at hread' ⊢
    exact fun a ha => hread' a (List.mem_reverse.mp ha)

theorem gives_args {n : Nat} : Gives (args inner n) AllGrammatical :=
  gives_expectSymbol.bind fun _ _ => gives_eatSymbol.bind fun _ _ =>
    .ite (fun _ => .ofPure trivial) fun _ => gives_argsFrom hinner trivial

omit hinner in
theorem gives_takeLiteral {v : Literal} {n : Nat} : Gives (takeLiteral v n) Expr.Grammatical :=
  gives_advance.bind fun _ _ => .ofPure trivial

omit hinner in
theorem gives_keywordPrimary {k : Keyword} {n : Nat} :
    Gives (keywordPrimary k n) Expr.Grammatical := by
  unfold keywordPrimary
  split
  · exact gives_takeLiteral
  · exact gives_takeLiteral
  · exact gives_takeLiteral
  · exact gives_advance.bind fun _ _ => gives_atSymbol.bind fun _ _ =>
      .refusing gives_unsupported fun _ => .ofPure trivial
  · exact gives_unsupported
  · exact gives_unsupported
  · exact gives_unsupported
  · exact .ite (fun _ => gives_unsupported) fun _ => gives_failAt

theorem gives_primary {n : Nat} : Gives (primary inner n) Expr.Grammatical := by
  refine gives_line.bind fun m _ => gives_peek.bind fun t ht => ?_
  split
  next => exact gives_failAt
  next => exact gives_advance.bind fun _ _ => .refusing gives_failAt fun _ => .ofPure trivial
  next => exact gives_advance.bind fun _ _ => .refusing gives_failAt fun _ => .ofPure trivial
  next => exact gives_takeLiteral
  next => exact gives_takeLiteral
  next => exact gives_unsupported
  next => exact gives_keywordPrimary
  next name =>
    refine gives_advance.bind fun _ _ => gives_atSymbol.bind fun _ _ => ?_
    refine .ite (fun _ => ?_) fun _ => .ofPure (ht name rfl)
    exact (gives_args hinner).bind fun as has => .ofPure ⟨ht name rfl, has⟩
  next =>
    exact gives_advance.bind fun _ _ =>
      hinner.bind fun e he => gives_expectSymbol.bind fun _ _ => .ofPure he
  next => exact gives_unsupported
  next => exact gives_failAt

omit hinner in
theorem gives_memberName : Gives memberName fun n => isIdentifier n = true := by
  refine gives_peek.bind fun t _ => ?_
  split <;> first | exact gives_unsupported | exact gives_expectIdent

theorem gives_accesses {n : Nat} {target : Expr} (htarget : target.Grammatical) :
    Gives (accesses inner n target) Expr.Grammatical := by
  induction n generalizing target with
  | zero => exact .ofPure htarget
  | succ n ih =>
    refine gives_line.bind fun m _ => gives_eatSymbol.bind fun _ _ => ?_
    refine .ite (fun _ => ?_) fun _ => .ofPure htarget
    refine gives_memberName.bind fun name hname => gives_atSymbol.bind fun _ _ => ?_
    refine .ite (fun _ => ?_) fun _ => ih ⟨htarget, hname⟩
    exact (gives_args hinner).bind fun as has => ih ⟨htarget, hname, has⟩

theorem gives_postfixExpr {n : Nat} : Gives (postfixExpr inner n) Expr.Grammatical :=
  (gives_primary hinner).bind fun _ he => gives_accesses hinner he

omit hinner in
theorem gives_negative {n : Nat} : Gives (negative n) Expr.Grammatical := by
  refine gives_tokens.bind fun s hs => ?_
  split
  · exact (gives_set (hs.of_suffix ⟨[_, _], rfl⟩)).bind fun _ _ => .ofPure trivial
  · exact (gives_set (hs.of_suffix ⟨[_, _], rfl⟩)).bind fun _ _ => .ofPure trivial
  · exact gives_unsupported

theorem gives_unary {n : Nat} : Gives (unary inner n) Expr.Grammatical := by
  induction n with
  | zero => exact gives_failHere
  | succ n ih =>
    refine gives_line.bind fun m _ => gives_tokens.bind fun s _ => ?_
    split
    next => exact gives_advance.bind fun _ _ => ih.bind fun e he => .ofPure he
    next => exact gives_negative
    next => exact gives_unsupported
    next => exact gives_unsupported
    next => exact gives_unsupported
    next => exact gives_unsupported
    next =>
      refine .ite (fun _ => ?_) fun _ => gives_postfixExpr hinner
      refine gives_advance.bind fun _ _ => gives_typeName.bind fun type htype => ?_
      refine gives_expectSymbol.bind fun _ _ => ih.bind fun e he => .ofPure ⟨?_, he⟩
      simpa using htype
    next => exact gives_postfixExpr hinner

theorem gives_operands (level : Level) {n : Nat} {l : Expr} (hl : l.Grammatical) :
    Gives (operands level inner n l) Expr.Grammatical := by
  induction n generalizing l with
  | zero => exact .ofPure hl
  | succ n ih =>
    have hoperator : Gives (nextOperator level) fun _ => True := by
      refine gives_peek.bind fun t _ => ?_
      split <;> exact .ofPure trivial
    refine gives_line.bind fun m _ => hoperator.bind fun op _ => ?_
    split
    next => exact gives_advance.bind fun _ _ => hinner.bind fun r hr => ih ⟨hl, hr⟩
    next => exact .ofPure hl

theorem gives_binary (level : Level) (n : Nat) : Gives (binary level n inner) Expr.Grammatical :=
  hinner.bind fun _ hl => gives_operands hinner level hl

end

/-- An expression that is read is of the grammar. -/
theorem gives_expr {n : Nat} : Gives (Parser.expr n) Expr.Grammatical := by
  induction n with
  | zero => exact gives_failHere
  | succ n ih =>
    have hsum := gives_binary (gives_unary (n := n + 1) ih) .sum (n + 1)
    have hequality := gives_binary (gives_binary hsum .relation (n + 1)) .equality (n + 1)
    have hor := gives_binary (gives_binary hequality .and (n + 1)) .or (n + 1)
    exact hor.bind fun e he => gives_refuseOperators.bind fun _ _ => .ofPure he

/-! ## 5. Statements -/

/-- A statement that is read is of the grammar, and where an `else` follows it, it would not have
taken it. -/
def GivesStmt (p : Parser Stmt) : Prop :=
  ∀ last s a s', Named s → runOn p last s = .ok (a, s') →
    Named s' ∧ a.Grammatical ∧
      (a.endsOpen = true → (s'.map Lexeme.token).head? ≠ some (Token.keyword .kwElse))

theorem GivesStmt.gives {p : Parser Stmt} (h : GivesStmt p) : Gives p Stmt.Grammatical := by
  intro last s a s' hs hrun
  obtain ⟨hs', ha, -⟩ := h last s a s' hs hrun
  exact ⟨hs', ha⟩

/-- A statement that ends in no `if`. -/
theorem Gives.stmt {p : Parser Stmt} (h : Gives p fun s => s.Grammatical ∧ s.endsOpen = false) :
    GivesStmt p := by
  intro last s a s' hs hrun
  obtain ⟨hs', ha, hclosed⟩ := h last s a s' hs hrun
  refine ⟨hs', ha, fun hopen => ?_⟩
  rw [hclosed] at hopen
  cases hopen

theorem GivesStmt.bind {α : Type} {p : Parser α} {f : α → Parser Stmt} {P : α → Prop}
    (h : Gives p P) (hf : ∀ a, P a → GivesStmt (f a)) : GivesStmt (p >>= f) := by
  intro last s b s' hs hrun
  obtain ⟨a, t, hp, hfa⟩ := runOn_bind_eq_ok.mp hrun
  obtain ⟨ht, ha⟩ := h last s a t hs hp
  exact hf a ha last t b s' ht hfa

theorem gives_localVariable {f n : Nat} :
    Gives (localVariable f n) fun s => s.Grammatical ∧ s.endsOpen = false := by
  refine gives_typeName.bind fun type htype => gives_expectIdent.bind fun name hname => ?_
  refine gives_peek.bind fun t _ => ?_
  split
  · exact gives_unsupported
  · exact gives_unsupported
  · exact gives_unsupported
  · refine gives_expectSymbol.bind fun _ _ =>
      gives_expr.bind fun init hinit => gives_atSymbol.bind fun _ _ => ?_
    refine .refusing gives_unsupported fun _ => gives_expectSymbol.bind fun _ _ => ?_
    refine .ofPure ⟨⟨?_, hname, hinit⟩, rfl⟩
    simpa using htype

theorem bodyGrammatical_iff {stmts : List Stmt} :
    BodyGrammatical stmts ↔ ∀ s ∈ stmts, s.Grammatical := by
  induction stmts with
  | nil => simp [BodyGrammatical]
  | cons s stmts ih => simp [BodyGrammatical, ih]

theorem gives_stmtsFrom {p : Parser Stmt} (hp : GivesStmt p) {n : Nat} {read : List Stmt}
    (hread : BodyGrammatical read) :
    Gives (stmtsFrom p n read) fun body => BodyGrammatical body.1 := by
  induction n generalizing read with
  | zero => exact gives_failHere
  | succ n ih =>
    refine gives_peek.bind fun t _ => ?_
    split
    next =>
      refine gives_line.bind fun m _ => gives_advance.bind fun _ _ => .ofPure ?_
      rw [bodyGrammatical_iff] at hread ⊢
      exact fun a ha => hread a (List.mem_reverse.mp ha)
    next => exact gives_failHere
    next => exact hp.gives.bind fun s hs => ih ⟨hs, hread⟩

theorem gives_block {p : Parser Stmt} (hp : GivesStmt p) {n : Nat} :
    Gives (block p n) fun body => BodyGrammatical body.1 :=
  gives_expectSymbol.bind fun _ _ => gives_stmtsFrom hp trivial

/-- An `else` belongs to the `if` that is read last. -/
theorem givesStmt_ifRest {p : Parser Stmt} (hp : GivesStmt p) {f n : Nat} :
    GivesStmt (ifRest p f n) := by
  refine .bind gives_expectSymbol
    fun _ _ => .bind gives_expr fun c hc => .bind gives_expectSymbol fun _ _ => ?_
  intro last s a s' hs hrun
  obtain ⟨yes, t, hreadYes, hrun⟩ := runOn_bind_eq_ok.mp hrun
  obtain ⟨ht, hyes, hopen⟩ := hp last s yes t hs hreadYes
  obtain ⟨b, u, heat, hrun⟩ := runOn_bind_eq_ok.mp hrun
  rw [eatKeyword, runOn_bind, runOn_atKeyword] at heat
  by_cases helse : (t.map Lexeme.token).head? = some (Token.keyword .kwElse)
  · simp only [helse, BEq.rfl, if_true] at heat
    cases heat
    have hclosed : yes.endsOpen = false := by
      rw [← Bool.not_eq_true]
      exact fun hyes' => hopen hyes' helse
    obtain ⟨no, v, hreadNo, hrun⟩ := runOn_bind_eq_ok.mp hrun
    obtain ⟨hv, hno, hopen'⟩ := hp last _ no v (ht.of_suffix (List.drop_suffix 1 t)) hreadNo
    cases hrun
    exact ⟨hv, ⟨hc, hyes, hclosed, hno⟩, hopen'⟩
  · simp only [beq_eq_false_iff_ne.mpr helse, Bool.false_eq_true, if_false] at heat
    cases heat
    cases hrun
    exact ⟨ht, ⟨hc, hyes⟩, fun _ => helse⟩

theorem gives_returnRest {f n : Nat} :
    Gives (returnRest f n) fun s => s.Grammatical ∧ s.endsOpen = false := by
  refine gives_eatSymbol.bind fun _ _ => ?_
  refine .ite (fun _ => .ofPure ⟨trivial, rfl⟩) fun _ => ?_
  exact gives_expr.bind fun e he => gives_expectSymbol.bind fun _ _ => .ofPure ⟨he, rfl⟩

theorem gives_plainStmt {f n : Nat} :
    Gives (plainStmt f n) fun s => s.Grammatical ∧ s.endsOpen = false := by
  refine gives_tokens.bind fun s _ => ?_
  refine .ite (fun _ => gives_localVariable) fun _ => ?_
  refine gives_expr.bind fun e he => gives_expectSymbol.bind fun _ _ => ?_
  exact .ite (fun hcall => .ofPure ⟨⟨he, hcall⟩, rfl⟩) fun _ => gives_failAt

/-- A statement that is read is of the grammar. -/
theorem givesStmt_stmt {f : Nat} : GivesStmt (stmt f) := by
  induction f with
  | zero => exact Gives.stmt gives_failHere
  | succ f ih =>
    refine .bind gives_line fun n _ => .bind gives_peek fun t _ => ?_
    split
    next => exact Gives.stmt ((gives_block ih).bind fun body hbody => .ofPure ⟨hbody, rfl⟩)
    next => exact Gives.stmt gives_unsupported
    next => exact Gives.stmt gives_unsupported
    next => exact .bind gives_advance fun _ _ => givesStmt_ifRest ih
    next => exact Gives.stmt (gives_advance.bind fun _ _ => gives_returnRest)
    next => exact Gives.stmt (gives_advance.bind fun _ _ => gives_localVariable)
    next => exact Gives.stmt gives_failAt
    next => exact Gives.stmt (.ite (fun _ => gives_unsupported) fun _ => gives_plainStmt)
    next => exact Gives.stmt gives_plainStmt

/-! ## 6. Methods -/

theorem gives_modifiersFrom {n : Nat} {words : List Keyword}
    (hwords : ∀ k ∈ words, k.isModifier = true) :
    Gives (modifiersFrom n words) fun ms => ∀ k ∈ ms, k.isModifier = true := by
  have hdone : ∀ k ∈ words.reverse, k.isModifier = true :=
    fun k hk => hwords k (List.mem_reverse.mp hk)
  induction n generalizing words with
  | zero => exact .ofPure hdone
  | succ n ih =>
    refine gives_peek.bind fun t _ => ?_
    split
    next k _ =>
      refine .ite (fun hk => gives_advance.bind fun _ _ => ?_) fun _ => ?_
      · have hwords' : ∀ a ∈ k :: words, a.isModifier = true :=
          List.forall_mem_cons.mpr ⟨hk, hwords⟩
        exact ih hwords' fun a ha => hwords' a (List.mem_reverse.mp ha)
      · exact .ite (fun _ => gives_unsupported) fun _ => .ofPure hdone
    next => exact gives_unsupported
    next => exact .ofPure hdone

def Param.Fits (p : Param) : Prop := p.type.head.Grammatical ∧ isIdentifier p.name = true

theorem gives_param : Gives param Param.Fits := by
  refine gives_atSymbol.bind fun _ _ => .refusing gives_unsupported fun _ => ?_
  refine gives_eatKeyword.bind
    fun _ _ => gives_line.bind fun n _ => gives_typeName.bind fun type htype => ?_
  refine gives_atSymbol.bind fun _ _ => .refusing gives_unsupported fun _ => ?_
  refine gives_expectIdent.bind fun name hname => .ofPure ⟨?_, hname⟩
  simpa using htype

theorem gives_paramsFrom {n : Nat} {read : List Param} (hread : ∀ p ∈ read, Param.Fits p) :
    Gives (paramsFrom n read) fun ps => ∀ p ∈ ps, Param.Fits p := by
  induction n generalizing read with
  | zero => exact gives_failHere
  | succ n ih =>
    refine gives_param.bind fun p hp => gives_eatSymbol.bind fun _ _ => ?_
    have hread' : ∀ q ∈ p :: read, Param.Fits q := List.forall_mem_cons.mpr ⟨hp, hread⟩
    refine .ite (fun _ => .ofPure fun q hq => hread' q (List.mem_reverse.mp hq)) fun _ => ?_
    exact gives_expectSymbol.bind fun _ _ => ih hread'

theorem gives_params {n : Nat} : Gives (params n) fun ps => ∀ p ∈ ps, Param.Fits p :=
  gives_expectSymbol.bind fun _ _ => gives_eatSymbol.bind fun _ _ =>
    .ite (fun _ => .ofPure (by simp)) fun _ => gives_paramsFrom (by simp)

/-- A method that is read is of the grammar. -/
theorem gives_method {n : Nat} : Gives (Parser.method n) MethodDecl.Grammatical := by
  refine gives_line.bind fun m _ =>
    (gives_modifiersFrom (by simp)).bind fun modifiers hmodifiers => ?_
  refine gives_atSymbol.bind fun _ _ => .refusing gives_unsupported fun _ => ?_
  refine gives_typeName.bind fun type htype => gives_expectIdent.bind fun name hname => ?_
  refine gives_params.bind fun ps hps => gives_atKeyword.bind fun _ _ => ?_
  refine .refusing gives_unsupported fun _ => (gives_block givesStmt_stmt).bind fun body hbody => ?_
  refine gives_peek.bind fun _ _ =>
    .refusing gives_failHere fun _ => .ofPure ⟨hmodifiers, ?_, hname, hps, hbody⟩
  exact htype.symm.imp (fun h => h.2) id

end Parser

/-! ## 7. The round trip -/

/-- A declaration that is read from tokens of a text is of the grammar. -/
theorem grammatical_of_parseMethod {s : List Lexeme} {m : MethodDecl} (hs : Named s)
    (h : parseMethod s = .ok m) : m.Grammatical := by
  unfold parseMethod at h
  obtain ⟨⟨m', s'⟩, hrun, heq⟩ := bind_eq_ok_iff.mp h
  cases heq
  exact (Parser.gives_method _ s m s' hs hrun).2

/-- The parser reads every declaration of the grammar from its tokens, up to lines, and it reads no
others. -/
theorem parseMethod_roundTrip :
    (∀ m : MethodDecl, m.Grammatical → ∀ s : List Lexeme, s.map Lexeme.token = m.tokens →
      (parseMethod s).map MethodDecl.unlined = .ok m.unlined) ∧
    ∀ (source : String) (s : List Lexeme) (m : MethodDecl), tokenize source = .ok s →
    parseMethod s = .ok m → m.Grammatical :=
  ⟨fun _ hm _ hs => parseMethod_tokens hm hs,
    fun _ _ _ htokens hparse => grammatical_of_parseMethod (named_of_tokenize htokens) hparse⟩

def negativeCast : MethodDecl where
  modifiers := [.kwPublic]
  returnType := ⟨.void, 0, 1⟩
  name := "f"
  params := []
  body := [.call (.call "g" [.cast ⟨.named "T" [], 0, 1⟩ (.literal (.int (-1)) 1) 1] 1) 1]
  endLine := 1
  line := 1

theorem negativeCast_grammatical : negativeCast.Grammatical where
  modifiers := by decide
  returnType := .inl rfl
  name := by decide +kernel
  params := by simp [negativeCast]
  body := by
    have hg : isIdentifier "g" = true := by decide +kernel
    have ht : isIdentifier "T" = true := by decide +kernel
    simp [negativeCast, BodyGrammatical, Stmt.Grammatical, Expr.Grammatical, AllGrammatical,
      TypeHead.Grammatical, Expr.isCall, hg, ht]

theorem parseMethod_roundTrip_negativeCast :
    negativeCast.Grammatical ∧
      (parseMethod (negativeCast.tokens.map (⟨·, 7⟩))).map MethodDecl.unlined =
        .ok negativeCast.unlined ∧
      tokenize "public void f() \x7b g((T) (-1)); \x7d" = .ok (negativeCast.tokens.map (⟨·, 1⟩)) ∧
      parseMethod (negativeCast.tokens.map (⟨·, 1⟩)) = .ok negativeCast ∧
        negativeCast.Grammatical := by
  have htokens : tokenize "public void f() \x7b g((T) (-1)); \x7d" =
      .ok (negativeCast.tokens.map (⟨·, 1⟩)) := by
    decide +kernel
  have hparse : parseMethod (negativeCast.tokens.map (⟨·, 1⟩)) = .ok negativeCast := rfl
  have hread := parseMethod_roundTrip.1 negativeCast negativeCast_grammatical
    (negativeCast.tokens.map (⟨·, 7⟩)) rfl
  exact ⟨negativeCast_grammatical, hread, htokens, hparse,
    parseMethod_roundTrip.2 _ _ _ htokens hparse⟩

end MethodGraft.Source
