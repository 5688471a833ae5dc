import MethodGraft.Source.Parser

/-!
# Proofs.Source.ParserRuns — runs of the parser

`Takes p ts rest Q` says that in front of the tokens `rest` the parser `p` takes the tokens `ts`,
whatever lines they are on, and that its result has the property `Q`.
-/

namespace MethodGraft.Source.Parser

variable {α β : Type}

/-! ## 1. Runs -/

def runOn (p : Parser α) (last : Nat) (s : List Lexeme) : Except Error (α × List Lexeme) :=
  (p.run last).run s

theorem runOn_bind (p : Parser α) (f : α → Parser β) (last : Nat) (s : List Lexeme) :
    runOn (p >>= f) last s =
      match runOn p last s with
      | .ok (a, s') => runOn (f a) last s'
      | .error e => .error e := by
  show ((p.run last).run s >>= fun x => ((f x.1).run last).run x.2) = _
  unfold runOn
  cases (p.run last).run s <;> rfl

theorem runOn_bind_eq_ok {p : Parser α} {f : α → Parser β} {last : Nat} {s s' : List Lexeme}
    {b : β} : runOn (p >>= f) last s = .ok (b, s') ↔
      ∃ a t, runOn p last s = .ok (a, t) ∧ runOn (f a) last t = .ok (b, s') := by
  rw [runOn_bind]
  cases runOn p last s with
  | error e => simp
  | ok result =>
    constructor
    · intro h
      exact ⟨result.1, result.2, rfl, h⟩
    · rintro ⟨a, t, heq, h⟩
      cases heq
      exact h

theorem runOn_peek (last : Nat) (s : List Lexeme) :
    runOn peek last s = .ok ((s.map Lexeme.token).head?, s) := by
  cases s <;> rfl

theorem runOn_tokens (last : Nat) (s : List Lexeme) : runOn tokens last s = .ok (s, s) := rfl

theorem runOn_line (last : Nat) (s : List Lexeme) : ∃ n, runOn line last s = .ok (n, s) := by
  cases s with
  | nil => exact ⟨last, rfl⟩
  | cons l s => exact ⟨l.line, rfl⟩

theorem runOn_set (s' : List Lexeme) (last : Nat) (s : List Lexeme) :
    runOn (set s') last s = .ok (PUnit.unit, s') := rfl

theorem runOn_atSymbol (x : Symbol) (last : Nat) (s : List Lexeme) :
    runOn (atSymbol x) last s = .ok ((s.map Lexeme.token).head? == some (Token.symbol x), s) := by
  rw [atSymbol, runOn_bind, runOn_peek]
  rfl

theorem runOn_atKeyword (k : Keyword) (last : Nat) (s : List Lexeme) :
    runOn (atKeyword k) last s = .ok ((s.map Lexeme.token).head? == some (Token.keyword k), s) := by
  rw [atKeyword, runOn_bind, runOn_peek]
  rfl

/-! ## 2. What a parser takes -/

def Takes (p : Parser α) (ts rest : List Token) (Q : α → Prop) : Prop :=
  ∀ last s, s.map Lexeme.token = ts ++ rest →
    ∃ a s', runOn p last s = .ok (a, s') ∧ s'.map Lexeme.token = rest ∧ Q a

namespace Takes

variable {p : Parser α} {f : α → Parser β} {ts us rest : List Token} {P : α → Prop} {Q : β → Prop}

theorem ofPure {a : α} {Q : α → Prop} (h : Q a) : Takes (pure a) [] rest Q :=
  fun _ s hs => ⟨a, s, rfl, hs, h⟩

theorem mono {Q : α → Prop} (h : Takes p ts rest P) (hPQ : ∀ a, P a → Q a) : Takes p ts rest Q := by
  intro last s hs
  obtain ⟨a, s', hrun, hrest, ha⟩ := h last s hs
  exact ⟨a, s', hrun, hrest, hPQ a ha⟩

/-- A first step takes the front, in front of what the second one takes. -/
theorem bind (h : Takes p ts (us ++ rest) P) (hf : ∀ a, P a → Takes (f a) us rest Q) :
    Takes (p >>= f) (ts ++ us) rest Q := by
  intro last s hs
  rw [List.append_assoc] at hs
  obtain ⟨a, t, hp, ht, ha⟩ := h last s hs
  obtain ⟨b, s', hfa, hrest, hb⟩ := hf a ha last t ht
  exact ⟨b, s', runOn_bind_eq_ok.mpr ⟨a, t, hp, hfa⟩, hrest, hb⟩

/-- A first step that takes nothing. -/
theorem look (h : Takes p [] (ts ++ rest) P) (hf : ∀ a, P a → Takes (f a) ts rest Q) :
    Takes (p >>= f) ts rest Q := h.bind hf

/-- A first step that takes one token. -/
theorem next {t : Token} (h : Takes p [t] (us ++ rest) P) (hf : ∀ a, P a → Takes (f a) us rest Q) :
    Takes (p >>= f) (t :: us) rest Q := h.bind hf

end Takes

variable {t : Token} {ts rest : List Token} {x : Symbol} {k : Keyword} {name : String}

theorem takes_peek : Takes peek [] rest (· = rest.head?) := by
  intro last s hs
  refine ⟨_, s, runOn_peek last s, hs, ?_⟩
  rw [hs, List.nil_append]

theorem takes_tokens : Takes tokens [] rest fun s => s.map Lexeme.token = rest :=
  fun last s hs => ⟨s, s, runOn_tokens last s, hs, hs⟩

theorem takes_line : Takes line [] rest fun _ => True := by
  intro last s hs
  obtain ⟨n, hrun⟩ := runOn_line last s
  exact ⟨n, s, hrun, hs, trivial⟩

theorem takes_advance : Takes (advance 1) [t] rest fun _ => True := by
  intro last s hs
  refine ⟨(), s.drop 1, rfl, ?_, trivial⟩
  rw [List.map_drop, hs]
  rfl

/-- Setting what is left takes all that stands before it. -/
theorem takes_set {s' : List Lexeme} (h : s'.map Lexeme.token = rest) :
    Takes (set s') ts rest fun _ => True :=
  fun last s _ => ⟨PUnit.unit, s', runOn_set s' last s, h, trivial⟩

/-- What is left is set, and a result given. -/
theorem takes_set_pure {s' : List Lexeme} {a : α} {Q : α → Prop} (h : s'.map Lexeme.token = rest)
    (ha : Q a) : Takes (do set s'; return a) ts rest Q :=
  fun _ _ _ => ⟨a, s', rfl, h, ha⟩

theorem takes_atSymbol :
    Takes (atSymbol x) [] rest (· = (rest.head? == some (Token.symbol x))) := by
  intro last s hs
  refine ⟨_, s, runOn_atSymbol x last s, hs, ?_⟩
  rw [hs, List.nil_append]

theorem takes_atKeyword :
    Takes (atKeyword k) [] rest (· = (rest.head? == some (Token.keyword k))) := by
  intro last s hs
  refine ⟨_, s, runOn_atKeyword k last s, hs, ?_⟩
  rw [hs, List.nil_append]

theorem takes_eatSymbol : Takes (eatSymbol x) [Token.symbol x] rest (· = true) := by
  refine takes_atSymbol.look ?_
  rintro _ rfl
  simp only [List.cons_append, List.head?_cons, BEq.rfl, if_true]
  exact takes_advance.next fun _ _ => .ofPure rfl

theorem takes_eatSymbol_not (h : rest.head? ≠ some (Token.symbol x)) :
    Takes (eatSymbol x) [] rest (· = false) := by
  refine takes_atSymbol.look ?_
  rintro _ rfl
  rw [List.nil_append, beq_eq_false_iff_ne.mpr h]
  exact .ofPure rfl

theorem takes_eatKeyword : Takes (eatKeyword k) [Token.keyword k] rest (· = true) := by
  refine takes_atKeyword.look ?_
  rintro _ rfl
  simp only [List.cons_append, List.head?_cons, BEq.rfl, if_true]
  exact takes_advance.next fun _ _ => .ofPure rfl

theorem takes_eatKeyword_not (h : rest.head? ≠ some (Token.keyword k)) :
    Takes (eatKeyword k) [] rest (· = false) := by
  refine takes_atKeyword.look ?_
  rintro _ rfl
  rw [List.nil_append, beq_eq_false_iff_ne.mpr h]
  exact .ofPure rfl

theorem takes_expectSymbol : Takes (expectSymbol x) [Token.symbol x] rest fun _ => True := by
  refine takes_eatSymbol.next ?_
  rintro _ rfl
  exact .ofPure trivial

theorem takes_expectIdent : Takes expectIdent [Token.ident name] rest (· = name) := by
  refine takes_peek.look ?_
  rintro _ rfl
  simp only [List.cons_append, List.head?_cons]
  exact takes_advance.next fun _ _ => .ofPure rfl

end MethodGraft.Source.Parser
