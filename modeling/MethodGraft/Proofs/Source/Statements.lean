import MethodGraft.Proofs.Source.Expressions

/-!
# Proofs.Source.Statements — methods are read as they are written

A statement is read up to its end, where no `else` follows one that would take it; a method is read
from its modifiers to the brace that closes its body.
-/

namespace MethodGraft.Source

open MethodGraft.Source.Parser

variable {rest : List Token}

/-! ## 1. Plain statements -/

def Stmt.Same (s s' : Stmt) : Prop := s'.unlined = s.unlined

def startsPlain (t : Token) : Bool :=
  startsExpr t || match t with
    | .keyword k => k.primitive?.isSome
    | _ => false

theorem TypeName.tokens_head {type : TypeName} (htype : type.head.Grammatical) :
    ∃ t ts, type.tokens = t :: ts ∧ startsPlain t = true := by
  obtain ⟨head, dims, line⟩ := type
  cases head with
  | void => exact htype.elim
  | primitive p => exact ⟨Token.keyword p.word, bracketTokens dims, rfl, by cases p <;> rfl⟩
  | named first more => exact ⟨Token.ident first, dottedTokens more ++ bracketTokens dims, rfl, rfl⟩

/-- What starts like a declaration or a call is read as one. -/
theorem takes_plainStmt {f : Nat} {t : Token} {ts : List Token} {Q : Stmt → Prop}
    (ht : startsPlain t = true) (h : ∀ n, Takes (plainStmt (f + 1) n) (t :: ts) rest Q) :
    Takes (stmt (f + 1)) (t :: ts) rest Q := by
  refine takes_line.look fun n _ => takes_peek.look ?_
  rintro _ rfl
  cases t with
  | symbol x => cases x <;> first | exact h n | cases ht
  | keyword k => cases k <;> first | exact h n | cases ht
  | float => cases ht
  | _ => exact h n

theorem takes_declare {f : Nat} {type : TypeName} {name : String} {init : Expr} (n : Nat)
    (htype : type.head.Grammatical) (hinit : ReadsWhole init)
    (hf : (Stmt.declare type name init n).tokens.length ≤ f) :
    Takes (stmt f) (Stmt.declare type name init n).tokens rest
    (Stmt.declare type name init n).Same := by
  have htokens : (Stmt.declare type name init n).tokens =
      type.tokens ++
        (Token.ident name :: Token.symbol .assign ::
          (init.tokens ++ [Token.symbol .semicolon])) := by
    simp [Stmt.tokens]
  rw [htokens] at hf ⊢
  simp only [List.length_append, List.length_cons, List.length_nil] at hf
  obtain ⟨t, ts, hhead, ht⟩ := type.tokens_head htype
  obtain ⟨f, rfl⟩ :=
    Nat.exists_eq_add_of_lt (Nat.lt_of_lt_of_le (Nat.lt_add_left _ (Nat.succ_pos _)) hf)
  -- what comes first is a type, so the statement is taken for a declaration
  have hlocal (m : Nat) : Takes (plainStmt (0 + f + 1) m)
      (type.tokens ++
        (Token.ident name :: Token.symbol .assign :: (init.tokens ++ [Token.symbol .semicolon])))
        rest
      (Stmt.declare type name init n).Same := by
    refine takes_tokens.look fun s hs => ?_
    rw [List.append_assoc] at hs
    rw [if_pos (type.looksLikeDeclaration_eq_true htype hs)]
    refine (takes_typeName (.inl htype) (by simp) (by simp) (by simp)).bind fun type' htype' => ?_
    refine takes_expectIdent.next ?_
    rintro _ rfl
    refine takes_peek.look ?_
    rintro _ rfl
    refine takes_expectSymbol.next fun _ _ => ?_
    refine (hinit (by omega) ⟨.semicolon, rest, rfl, by decide⟩).bind fun init' hinit' => ?_
    refine takes_atSymbol.look ?_
    rintro _ rfl
    refine takes_expectSymbol.next fun _ _ => .ofPure ?_
    simp [Stmt.Same, Stmt.unlined, htype', show init'.unlined = init.unlined from hinit']
  rw [hhead] at hlocal ⊢
  exact takes_plainStmt ht hlocal

theorem Expr.isCall_unlined (e : Expr) : e.unlined.isCall = e.isCall := by
  cases e <;> rfl

theorem takes_call {f : Nat} {e : Expr} (n : Nat) (he : ReadsWhole e) (hcall : e.isCall = true)
    (hf : (Stmt.call e n).tokens.length ≤ f) :
    Takes (stmt f) (Stmt.call e n).tokens rest (Stmt.call e n).Same := by
  have htokens : (Stmt.call e n).tokens = e.tokens ++ [Token.symbol .semicolon] := by
    simp only [Stmt.tokens]
  rw [htokens] at hf ⊢
  simp only [List.length_append, List.length_cons, List.length_nil] at hf
  obtain ⟨t, ts, hhead, ht⟩ := e.tokens_head
  obtain ⟨f, rfl⟩ :=
    Nat.exists_eq_add_of_lt (Nat.lt_of_lt_of_le (Nat.lt_add_left _ (Nat.succ_pos _)) hf)
  have hplain (m : Nat) : Takes (plainStmt (0 + f + 1) m) (e.tokens ++ [Token.symbol .semicolon])
      rest (Stmt.call e n).Same := by
    refine takes_tokens.look fun s hs => ?_
    rw [List.append_assoc] at hs
    rw [if_neg (by rw [e.looksLikeDeclaration_eq_false hcall hs]; decide)]
    refine (he (by omega) ⟨.semicolon, rest, rfl, by decide⟩).bind fun e' he' => ?_
    refine takes_expectSymbol.next fun _ _ => ?_
    have hcall' : e'.isCall = true := by
      rw [← e'.isCall_unlined, show e'.unlined = e.unlined from he', e.isCall_unlined]
      exact hcall
    rw [if_pos hcall']
    refine .ofPure ?_
    simp [Stmt.Same, Stmt.unlined, show e'.unlined = e.unlined from he']
  rw [hhead] at hplain ⊢
  refine takes_plainStmt ?_ hplain
  simp [startsPlain, ht.starts]

/-! ## 2. All statements -/

/-- The token that a statement starts with goes on with no other statement and closes no block. -/
theorem Stmt.tokens_head (s : Stmt) (hs : s.Grammatical) :
    ∃ t ts, s.tokens = t :: ts ∧ t ≠ Token.keyword .kwElse ∧ t ≠ Token.symbol .braceClose := by
  have hplain {t : Token} (ht : startsPlain t = true) :
      t ≠ Token.keyword .kwElse ∧ t ≠ Token.symbol .braceClose := by
    constructor <;> rintro rfl <;> cases ht
  cases s with
  | declare type name init n =>
    obtain ⟨t, ts, hhead, ht⟩ := type.tokens_head hs.1
    refine ⟨t, ts ++ Token.ident name :: Token.symbol .assign :: init.tokens ++
      [Token.symbol .semicolon], ?_, hplain ht⟩
    simp only [Stmt.tokens, hhead, List.cons_append]
  | call e n =>
    obtain ⟨t, ts, hhead, ht⟩ := e.tokens_head
    refine ⟨t, ts ++ [Token.symbol .semicolon], ?_, hplain (by simp [startsPlain, ht.starts])⟩
    simp only [Stmt.tokens, hhead, List.cons_append]
  | ifThen | ifElse | ret | retValue | block => exact ⟨_, _, rfl, by decide, by decide⟩

/-- The tokens after a statement in braces start with no `else`. -/
theorem bodyTokens_head {stmts : List Stmt} (hstmts : BodyGrammatical stmts) :
    (bodyTokens stmts ++ rest).head? ≠ some (Token.keyword .kwElse) := by
  cases stmts with
  | nil => simp [bodyTokens]
  | cons s stmts =>
    obtain ⟨t, ts, hhead, helse, -⟩ := s.tokens_head hstmts.1
    simpa [bodyTokens, hhead] using helse

theorem unlinedBody_eq_map (stmts : List Stmt) : unlinedBody stmts = stmts.map Stmt.unlined := by
  induction stmts with
  | nil => rfl
  | cons s stmts ih => simp [unlinedBody, ih]

def ReadsStmt (s : Stmt) : Prop :=
  ∀ ⦃f : Nat⦄ ⦃rest : List Token⦄, s.tokens.length ≤ f →
    (s.endsOpen = true → rest.head? ≠ some (Token.keyword .kwElse)) →
      Takes (stmt f) s.tokens rest s.Same

/-- Statements are read up to the brace that closes them. -/
theorem takes_stmtsFrom {f n : Nat} {stmts : List Stmt} (read : List Stmt)
    (hstmts : BodyGrammatical stmts) (hreads : ∀ s ∈ stmts, ReadsStmt s)
    (hf : (bodyTokens stmts).length ≤ f) (hn : (bodyTokens stmts).length ≤ n) :
    Takes (stmtsFrom (stmt f) n read) (bodyTokens stmts) rest
      fun body => unlinedBody body.1 = unlinedBody (read.reverse ++ stmts) := by
  induction stmts generalizing n read with
  | nil =>
    obtain ⟨n, rfl⟩ := Nat.exists_eq_add_of_lt (Nat.lt_of_lt_of_le (Nat.succ_pos _) hn)
    refine takes_peek.look ?_
    rintro _ rfl
    refine takes_line.look fun m _ => takes_advance.next fun _ _ => .ofPure ?_
    simp
  | cons s stmts ih =>
    simp only [bodyTokens, List.length_append] at hf hn
    obtain ⟨t, ts, hhead, -, hclose⟩ := s.tokens_head hstmts.1
    have hpos : 0 < s.tokens.length := by simp [hhead]
    obtain ⟨n, rfl⟩ := Nat.exists_eq_add_of_lt (Nat.lt_of_lt_of_le (Nat.lt_add_right _ hpos) hn)
    -- whatever the statement starts with, it is no closing brace
    have hstmt : Takes (do
          let s ← stmt f
          stmtsFrom (stmt f) (0 + n) (s :: read)) (bodyTokens (s :: stmts)) rest
        fun body => unlinedBody body.1 = unlinedBody (read.reverse ++ s :: stmts) := by
      refine (hreads s List.mem_cons_self (by omega) fun _ => bodyTokens_head hstmts.2).bind
        fun s' hs' => ?_
      have hmore := ih (n := 0 + n) (s' :: read) hstmts.2
        (fun a ha => hreads a (List.mem_cons_of_mem s ha)) (by omega) (by omega)
      refine hmore.mono fun body hbody => ?_
      rw [hbody]
      simp [unlinedBody_eq_map, show s'.unlined = s.unlined from hs']
    refine takes_peek.look ?_
    rintro _ rfl
    simp only [bodyTokens, hhead, List.cons_append, List.head?_cons]
    simp only [bodyTokens, hhead, List.cons_append] at hstmt
    cases t with
    | symbol x => cases x <;> first | exact hstmt | exact absurd rfl hclose
    | _ => exact hstmt

theorem takes_block {f n : Nat} {stmts : List Stmt} (hstmts : BodyGrammatical stmts)
    (hreads : ∀ s ∈ stmts, ReadsStmt s) (hf : (bodyTokens stmts).length ≤ f)
    (hn : (bodyTokens stmts).length ≤ n) :
    Takes (block (stmt f) n) (Token.symbol .braceOpen :: bodyTokens stmts) rest
      fun body => unlinedBody body.1 = unlinedBody stmts :=
  takes_expectSymbol.next fun _ _ => takes_stmtsFrom [] hstmts hreads hf hn

theorem readsStmt_block {stmts : List Stmt} (n : Nat) (hstmts : BodyGrammatical stmts)
    (hreads : ∀ s ∈ stmts, ReadsStmt s) : ReadsStmt (.block stmts n) := by
  intro f rest hf _
  simp only [Stmt.tokens, List.length_cons] at hf ⊢
  obtain ⟨f, rfl⟩ := Nat.exists_eq_add_of_lt (Nat.lt_of_lt_of_le (Nat.succ_pos _) hf)
  refine takes_line.look fun m _ => takes_peek.look ?_
  rintro _ rfl
  rw [← List.append_nil (Token.symbol .braceOpen :: bodyTokens stmts)]
  refine (takes_block hstmts hreads (by omega) (by omega)).bind fun body hbody => .ofPure ?_
  simp [Stmt.Same, Stmt.unlined, hbody]

theorem readsStmt_ifThen {c : Expr} {yes : Stmt} (n : Nat) (hc : ReadsWhole c)
    (hyes : ReadsStmt yes) : ReadsStmt (.ifThen c yes n) := by
  intro f rest hf hrest
  have htokens : (Stmt.ifThen c yes n).tokens =
      Token.keyword .kwIf :: Token.symbol .parenOpen ::
        (c.tokens ++ Token.symbol .parenClose :: yes.tokens) := by
    simp [Stmt.tokens]
  rw [htokens] at hf ⊢
  simp only [List.length_cons, List.length_append] at hf
  obtain ⟨f, rfl⟩ := Nat.exists_eq_add_of_lt (Nat.lt_of_lt_of_le (Nat.succ_pos _) hf)
  have helse := hrest rfl
  refine takes_line.look fun m _ => takes_peek.look ?_
  rintro _ rfl
  refine takes_advance.next fun _ _ => takes_expectSymbol.next fun _ _ => ?_
  refine (hc (by omega) ⟨.parenClose, _, rfl, by decide⟩).bind fun c' hc' => ?_
  refine takes_expectSymbol.next fun _ _ => ?_
  rw [← List.append_nil yes.tokens]
  refine (hyes (by omega) fun _ => helse).bind fun yes' hyes' => ?_
  refine (takes_eatKeyword_not helse).look ?_
  rintro _ rfl
  refine .ofPure ?_
  simp [Stmt.Same, Stmt.unlined, show c'.unlined = c.unlined from
    hc', show yes'.unlined = yes.unlined from hyes']

theorem readsStmt_ifElse {c : Expr} {yes no : Stmt} (n : Nat) (hc : ReadsWhole c)
    (hyes : ReadsStmt yes) (hclosed : yes.endsOpen = false) (hno : ReadsStmt no) :
    ReadsStmt (.ifElse c yes no n) := by
  intro f rest hf hrest
  have htokens : (Stmt.ifElse c yes no n).tokens = Token.keyword .kwIf :: Token.symbol .parenOpen ::
      (c.tokens ++ Token.symbol .parenClose ::
        (yes.tokens ++ Token.keyword .kwElse :: no.tokens)) := by
    simp [Stmt.tokens]
  rw [htokens] at hf ⊢
  simp only [List.length_cons, List.length_append] at hf
  obtain ⟨f, rfl⟩ := Nat.exists_eq_add_of_lt (Nat.lt_of_lt_of_le (Nat.succ_pos _) hf)
  refine takes_line.look fun m _ => takes_peek.look ?_
  rintro _ rfl
  refine takes_advance.next fun _ _ => takes_expectSymbol.next fun _ _ => ?_
  refine (hc (by omega) ⟨.parenClose, _, rfl, by decide⟩).bind fun c' hc' => ?_
  refine takes_expectSymbol.next fun _ _ => ?_
  refine (hyes (by omega) fun hopen => ?_).bind fun yes' hyes' => ?_
  · rw [hclosed] at hopen
    cases hopen
  · refine takes_eatKeyword.next ?_
    rintro _ rfl
    rw [← List.append_nil no.tokens]
    refine (hno (by omega) hrest).bind fun no' hno' => .ofPure ?_
    simp [Stmt.Same, Stmt.unlined, show c'.unlined = c.unlined from
      hc', show yes'.unlined = yes.unlined from hyes', show no'.unlined = no.unlined from hno']

theorem readsStmt_ret (n : Nat) : ReadsStmt (.ret n) := by
  intro f rest hf _
  obtain ⟨f, rfl⟩ := Nat.exists_eq_add_of_lt (Nat.lt_of_lt_of_le (Nat.succ_pos _) hf)
  refine takes_line.look fun m _ => takes_peek.look ?_
  rintro _ rfl
  refine takes_advance.next fun _ _ => takes_eatSymbol.next ?_
  rintro _ rfl
  exact .ofPure rfl

theorem readsStmt_retValue {e : Expr} (n : Nat) (he : ReadsWhole e) :
    ReadsStmt (.retValue e n) := by
  intro f rest hf _
  have htokens : (Stmt.retValue e n).tokens = Token.keyword .kwReturn ::
      (e.tokens ++ [Token.symbol .semicolon]) := by
    simp [Stmt.tokens]
  rw [htokens] at hf ⊢
  simp only [List.length_cons, List.length_append, List.length_nil] at hf
  obtain ⟨f, rfl⟩ := Nat.exists_eq_add_of_lt (Nat.lt_of_lt_of_le (Nat.succ_pos _) hf)
  have hvalue : (e.tokens ++ [Token.symbol .semicolon] ++ rest).head? ≠
      some (Token.symbol .semicolon) := by
    obtain ⟨t, ts, hhead, ht⟩ := e.tokens_head
    simp only [hhead, List.cons_append, List.head?_cons]
    intro heq
    cases heq
    cases ht.starts
  refine takes_line.look fun m _ => takes_peek.look ?_
  rintro _ rfl
  refine takes_advance.next fun _ _ => (takes_eatSymbol_not hvalue).look ?_
  rintro _ rfl
  refine (he (by omega) ⟨.semicolon, rest, rfl, by decide⟩).bind fun e' he' => ?_
  refine takes_expectSymbol.next fun _ _ => .ofPure ?_
  simp [Stmt.Same, Stmt.unlined, show e'.unlined = e.unlined from he']

mutual

/-- Every statement of the grammar is read. -/
theorem Stmt.reads : (s : Stmt) → s.Grammatical → ReadsStmt s
  | .declare _ _ init n, h => fun _ _ hf _ => takes_declare n h.1 (init.readable h.2.2).whole hf
  | .ifThen c yes n, h => readsStmt_ifThen n (c.readable h.1).whole (yes.reads h.2)
  | .ifElse c yes no n, h =>
    readsStmt_ifElse n (c.readable h.1).whole (yes.reads h.2.1) h.2.2.1 (no.reads h.2.2.2)
  | .ret n, _ => readsStmt_ret n
  | .retValue e n, h => readsStmt_retValue n (e.readable h).whole
  | .call e n, h => fun _ _ hf _ => takes_call n (e.readable h.1).whole h.2 hf
  | .block stmts n, h => readsStmt_block n h (readsStmt_body stmts h)

/-- Every statement in braces is read. -/
theorem readsStmt_body : (stmts : List Stmt) → BodyGrammatical stmts → ∀ s ∈ stmts, ReadsStmt s
  | [], _ => by simp
  | s :: stmts, h => List.forall_mem_cons.mpr ⟨s.reads h.1, readsStmt_body stmts h.2⟩

end

/-! ## 3. Methods -/

theorem TypeName.returnType_head {type : TypeName}
    (htype : type.isVoid = true ∨ type.head.Grammatical) :
    ∃ t ts, type.tokens = t :: ts ∧ (startsPlain t = true ∨ t = Token.keyword .kwVoid) := by
  obtain ⟨head, dims, line⟩ := type
  cases head with
  | void => exact ⟨Token.keyword .kwVoid, bracketTokens dims, rfl, .inr rfl⟩
  | _ =>
    obtain hvoid | hhead := htype
    · simp [TypeName.isVoid] at hvoid
    · obtain ⟨t, ts, htokens, ht⟩ := TypeName.tokens_head hhead
      exact ⟨t, ts, htokens, .inl ht⟩

/-- Modifiers are read up to the type of the result. -/
theorem takes_modifiersFrom {t : Token} {n : Nat} {ms : List Keyword} (words : List Keyword)
    (hms : ∀ k ∈ ms, k.isModifier = true)
    (ht : startsPlain t = true ∨ t = Token.keyword .kwVoid) (hn : ms.length ≤ n) :
    Takes (modifiersFrom n words) (ms.map Token.keyword) (t :: rest) (· = words.reverse ++ ms) := by
  induction ms generalizing n words with
  | nil =>
    cases n with
    | zero => exact .ofPure (by simp)
    | succ n =>
      refine takes_peek.look ?_
      rintro _ rfl
      simp only [List.map_nil, List.nil_append, List.head?_cons]
      cases t with
      | keyword k =>
        -- neither a type nor `void` is a modifier
        have hk : k.isModifier = false ∧ k.isForeignModifier = false := by
          obtain ht | ht := ht
          · cases k <;> first | exact ⟨rfl, rfl⟩ | cases ht
          · cases ht
            exact ⟨rfl, rfl⟩
        simp only [hk.1, hk.2, Bool.false_eq_true, if_false]
        exact .ofPure (by simp)
      | symbol x =>
        have hx : x ≠ .at := by
          rintro rfl
          obtain ht | ht := ht <;> cases ht
        cases x <;> first | exact absurd rfl hx | exact .ofPure (by simp)
      | _ => exact .ofPure (by simp)
  | cons k ms ih =>
    obtain ⟨n, rfl⟩ := Nat.exists_eq_add_of_lt (Nat.lt_of_lt_of_le (Nat.succ_pos _) hn)
    simp only [List.length_cons] at hn
    refine takes_peek.look ?_
    rintro _ rfl
    simp only [List.map_cons, List.cons_append, List.head?_cons, hms k List.mem_cons_self, if_true]
    refine takes_advance.next fun _ _ => ?_
    have hmore :=
      ih (n := 0 + n) (k :: words) (fun a ha => hms a (List.mem_cons_of_mem k ha)) (by omega)
    refine hmore.mono fun read hread => ?_
    rw [hread]
    simp

/-- A parameter is read. -/
theorem takes_param {p : Param} (hp : p.type.head.Grammatical) :
    Takes param p.tokens rest fun p' => p'.unlined = p.unlined := by
  obtain ⟨t, ts, hhead, ht⟩ := p.type.tokens_head hp
  have hne (t' : Token) (ht' : startsPlain t' = false) : (p.tokens ++ rest).head? ≠ some t' := by
    simp only [Param.tokens, hhead, List.cons_append, List.head?_cons]
    intro heq
    cases heq
    rw [ht] at ht'
    cases ht'
  refine takes_atSymbol.look ?_
  rintro _ rfl
  rw [beq_eq_false_iff_ne.mpr (hne _ rfl)]
  refine (takes_eatKeyword_not (hne _ rfl)).look fun _ _ => takes_line.look fun n _ => ?_
  refine (takes_typeName (.inl hp) (by simp) (by simp) (by simp)).bind fun type htype => ?_
  refine takes_atSymbol.look ?_
  rintro _ rfl
  refine takes_expectIdent.next ?_
  rintro _ rfl
  exact .ofPure (by simp [Param.unlined, htype])

/-- Parameters are read up to the parenthesis that closes them. -/
theorem takes_paramsFrom {n : Nat} {p : Param} {ps : List Param} (read : List Param)
    (hps : ∀ q ∈ p :: ps, q.type.head.Grammatical) (hn : (paramTokens [] (p :: ps)).length ≤ n) :
    Takes (paramsFrom n read) (paramTokens [] (p :: ps)) rest
      fun qs => qs.map Param.unlined = (read.reverse ++ p :: ps).map Param.unlined := by
  induction ps generalizing n p read with
  | nil =>
    simp only [paramTokens, List.nil_append, List.length_append, List.length_singleton] at hn ⊢
    obtain ⟨n, rfl⟩ := Nat.exists_eq_add_of_lt (Nat.lt_of_lt_of_le (Nat.succ_pos _) hn)
    refine (takes_param (hps p List.mem_cons_self)).bind fun p' hp' => takes_eatSymbol.next ?_
    rintro _ rfl
    exact .ofPure (by simp [hp'])
  | cons q ps ih =>
    have htokens : paramTokens [] (p :: q :: ps) = p.tokens ++ Token.symbol .comma ::
        paramTokens [] (q :: ps) := by
      simp [paramTokens]
    rw [htokens] at hn ⊢
    simp only [List.length_append, List.length_cons] at hn
    obtain ⟨n, rfl⟩ :=
      Nat.exists_eq_add_of_lt (Nat.lt_of_lt_of_le (Nat.lt_add_left _ (Nat.succ_pos _)) hn)
    refine (takes_param (hps p List.mem_cons_self)).bind fun p' hp' =>
      (takes_eatSymbol_not (by simp)).look ?_
    rintro _ rfl
    refine takes_expectSymbol.next fun _ _ => ?_
    have hmore := ih (n := 0 + n) (p := q) (p' :: read)
      (fun a ha => hps a (List.mem_cons_of_mem p ha)) (by omega)
    refine hmore.mono fun qs hqs => ?_
    rw [hqs]
    simp [hp']

theorem takes_params {n : Nat} {ps : List Param} (hps : ∀ p ∈ ps, p.type.head.Grammatical)
    (hn : (paramTokens [] ps).length ≤ n) :
    Takes (params n) (Token.symbol .parenOpen :: paramTokens [] ps) rest
      fun qs => qs.map Param.unlined = ps.map Param.unlined := by
  refine takes_expectSymbol.next fun _ _ => ?_
  cases ps with
  | nil =>
    refine takes_eatSymbol.next ?_
    rintro _ rfl
    exact .ofPure rfl
  | cons p ps =>
    have hclose : (paramTokens [] (p :: ps) ++ rest).head? ≠ some (Token.symbol .parenClose) := by
      obtain ⟨t, ts, hhead, ht⟩ := p.type.tokens_head (hps p List.mem_cons_self)
      simp only [paramTokens, Param.tokens, hhead, List.nil_append, List.cons_append,
        List.head?_cons]
      intro heq
      cases heq
      cases ht
    refine (takes_eatSymbol_not hclose).look ?_
    rintro _ rfl
    exact takes_paramsFrom [] hps hn

/-- A method of the grammar is read from its tokens, whatever lines they are on. -/
theorem takes_method {n : Nat} {m : MethodDecl} (hm : m.Grammatical) (hn : m.tokens.length ≤ n) :
    Takes (Parser.method n) m.tokens [] fun m' => m'.unlined = m.unlined := by
  have htokens : m.tokens = m.modifiers.map Token.keyword ++
      (m.returnType.tokens ++ (Token.ident m.name ::
      (Token.symbol .parenOpen :: paramTokens [] m.params ++
        (Token.symbol .braceOpen :: bodyTokens m.body ++ [])))) := by
    simp [MethodDecl.tokens]
  rw [htokens] at hn ⊢
  simp only [List.length_append, List.length_map, List.length_cons, List.length_nil,
    List.cons_append] at hn
  obtain ⟨t, ts, hhead, ht⟩ := m.returnType.returnType_head hm.returnType
  refine takes_line.look fun k _ => ?_
  -- the modifiers are over where the result type begins
  have hmodifiers (after : List Token) : Takes (modifiersFrom n []) (m.modifiers.map Token.keyword)
      (m.returnType.tokens ++ after) (· = m.modifiers) := by
    rw [hhead]
    exact (takes_modifiersFrom [] hm.modifiers ht (by omega)).mono fun words hwords => hwords
  refine Takes.bind (by rw [List.append_assoc]; exact hmodifiers _) ?_
  rintro _ rfl
  refine takes_atSymbol.look ?_
  rintro _ rfl
  -- no type starts with a `<`, so no type parameters are found
  have hless (after : List Token) :
      (m.returnType.tokens ++ after).head? ≠ some (Token.symbol .less) := by
    rw [hhead]
    intro heq
    cases heq
    obtain ht | ht := ht <;> cases ht
  rw [List.append_assoc, beq_eq_false_iff_ne.mpr (hless _)]
  have htype : m.returnType.head.Grammatical ∨ true = true ∧ m.returnType.isVoid = true :=
    hm.returnType.symm.imp id fun h => ⟨rfl, h⟩
  refine (takes_typeName htype (by simp) (by simp) (by simp)).bind fun type htype' => ?_
  refine takes_expectIdent.next ?_
  rintro _ rfl
  refine (takes_params (fun p hp => (hm.params p hp).1) (by omega)).bind fun ps hps => ?_
  refine takes_atKeyword.look ?_
  rintro _ rfl
  refine (takes_block hm.body (readsStmt_body m.body hm.body) (by omega) (by omega)).bind
    fun body hbody => ?_
  refine takes_peek.look ?_
  rintro _ rfl
  refine .ofPure ?_
  simp [MethodDecl.unlined, htype', hps, hbody]

/-- What is written is read again, up to lines. -/
theorem parseMethod_tokens {m : MethodDecl} (hm : m.Grammatical) {s : List Lexeme}
    (hs : s.map Lexeme.token = m.tokens) :
    (parseMethod s).map MethodDecl.unlined = .ok m.unlined := by
  have hlength : s.length = m.tokens.length := by rw [← hs, List.length_map]
  obtain ⟨m', s', hrun, -, hm'⟩ := takes_method hm (Nat.le_of_eq hlength.symm)
    ((s.getLast?.map Lexeme.line).getD 1) s (by rw [hs, List.append_nil])
  have hparse : parseMethod s = .ok m' := by
    show (runOn (Parser.method s.length) ((s.getLast?.map Lexeme.line).getD 1) s >>= fun result =>
      Except.ok result.1) = _
    rw [hlength] at hrun ⊢
    rw [hrun]
    rfl
  rw [hparse]
  exact congrArg Except.ok hm'

end MethodGraft.Source
