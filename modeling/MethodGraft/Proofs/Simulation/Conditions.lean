import MethodGraft.Proofs.Simulation.Expressions

/-!
# Proofs.Simulation.Conditions — conditions as jumps

Code for a condition jumps away if it comes out in one way and goes on behind itself otherwise.
Which of the two can happen at all is part of what is said of the code: what follows a jump that is
always taken is left out.
-/

namespace MethodGraft.Direct

open ClassFile Code Typed Machine

variable {env : Environment} {P : Program} {layout : Layout} {p q r n : Nat}

/-- Control has gone to `target` if the condition came out as `when`, which `away` allows, and else
to `next`, which `onward` allows. -/
structure Jumped (when : Bool) (target next : Nat) (away onward : Prop) (m : Memory)
    (stack : List Machine.Value) (locals : Slots Machine.Value) (b : Bool) (m' : Memory)
    (d : Config) : Prop where
  locals_eq : m'.locals = m.locals
  config : (b = when ∧ away ∧ d = .running target stack locals m'.past) ∨
    (b ≠ when ∧ onward ∧ d = .running next stack locals m'.past)

def Jumps (env : Environment) (P : Program) (layout : Layout) (p q : Nat) (c : Cond) (when : Bool)
    (target : Nat) (away onward : Prop) : Prop :=
  ∀ (m : Memory) (μ : Slots Machine.Value) (stack : List Machine.Value), Agree layout m.locals μ →
    Follows env P (cond env c) m (.running p stack μ m.past) Ends
      (Jumped when target q away onward m stack μ)

/-! ## 1. Comparisons -/

/-- The jump that ends a condition. -/
theorem follows_branch {m m₀ : Memory} {μ : Slots Machine.Value} {test : Test} {l : Label}
    {operands stack : List Machine.Value} {when taken b : Bool}
    (hfetch : P.fetch p = some (.branch test l, n)) (hlocals : m.locals = m₀.locals)
    (htest : Test.holds? test operands = some (taken, stack)) (htaken : taken = (b == when)) :
    Follows env P (pure b : Evaluation Bool) m (.running p operands μ m.past) Ends
      (Jumped when l.index (p + n) True True m₀ stack μ) := by
  have hrun : Reaches env P (.running p operands μ m.past)
      (.running (if taken then l.index else p + n) stack μ m.past) :=
    reaches_execute hfetch (by simp [execute, htest])
  refine .after hrun (.ofPure ⟨hlocals, ?_⟩)
  by_cases hb : b = when
  · exact .inl ⟨hb, trivial, by simp [htaken, hb]⟩
  · exact .inr ⟨hb, trivial, by simp [htaken, hb]⟩

theorem compare_outcome (c : Comparison) (when : Bool) (a b : Int) :
    compare (outcome c when) a b = (compare c a b == when) := by
  cases when
  · simp [outcome, compare_negate]
  · simp [outcome]

theorem Jumps.value {e : Expr} {when : Bool} {l : Label} (he : Computes env P layout p q e)
    (hk : e.kind = some .int)
    (hfetch : P.fetch q = some (.branch (.zero (if when then .ne else .eq)) l, n)) :
    Jumps env P layout p (q + n) (.value e) when l.index True True := by
  intro m μ stack hagree
  refine (he m μ stack hagree).bind fun v m₁ d hv => ?_
  have hint := hv.kind_eq _ hk
  rw [hv.config, hk]
  cases v <;> cases hint
  rename_i a
  refine follows_branch hfetch hv.locals_eq rfl ?_
  have hzero : decide (a.toInt = 0) = decide (a = 0) := by
    rw [decide_eq_decide]
    exact ⟨fun h => Int32.toInt_inj.mp h, fun h => by rw [h]; rfl⟩
  cases when <;> simp [Machine.compare, hzero]

/-- Two operands and a test. -/
theorem Jumps.ofOperands {lhs rhs : Expr} {c : Cond} {k : ValueKind} {q' : Nat} {when : Bool}
    {l : Label} {f : Machine.Value → Machine.Value → Evaluation Bool}
    (hc : cond env c = do
      let a ← expr env lhs
      let b ← expr env rhs
      f a b)
    (hl : Computes env P layout p q lhs) (hlk : lhs.kind = some k)
    (hr : Computes env P layout q q' rhs) (hrk : rhs.kind = some k)
    (htest : ∀ (m m₀ : Memory) (μ : Slots Machine.Value) (a b : Machine.Value)
      (stack : List Machine.Value), a.kind = k → b.kind = k → m.locals = m₀.locals →
        Follows env P (f a b) m (.running q' (b :: a :: stack) μ m.past) Ends
          (Jumped when l.index r True True m₀ stack μ)) :
    Jumps env P layout p r c when l.index True True := by
  intro m μ stack hagree
  rw [hc]
  refine (hl m μ stack hagree).bind fun a m₁ d ha => ?_
  rw [ha.config, hlk]
  refine (hr m₁ μ (a :: stack) (ha.locals_eq ▸ hagree)).bind fun b m₂ d hb => ?_
  rw [hb.config, hrk]
  exact htest m₂ m μ a b stack (ha.kind_eq k hlk) (hb.kind_eq k hrk)
    (hb.locals_eq.trans ha.locals_eq)

theorem Jumps.ints {lhs rhs : Expr} {c : Comparison} {q' : Nat} {when : Bool} {l : Label}
    (hl : Computes env P layout p q lhs) (hlk : lhs.kind = some .int)
    (hr : Computes env P layout q q' rhs) (hrk : rhs.kind = some .int)
    (hfetch : P.fetch q' = some (.branch (.ints (outcome c when)) l, n)) :
    Jumps env P layout p (q' + n) (.ints c lhs rhs) when l.index True True := by
  refine .ofOperands (f := compareInts c) rfl hl hlk hr hrk ?_
  intro m m₀ μ a b stack ha hb hlocals
  cases a <;> cases ha
  cases b <;> cases hb
  exact follows_branch hfetch hlocals rfl (compare_outcome c when _ _)

/-- A comparison to the constant zero does without the constant. -/
theorem Jumps.intsZero {lhs : Expr} {c : Comparison} {when : Bool} {l : Label}
    (hl : Computes env P layout p q lhs) (hlk : lhs.kind = some .int)
    (hfetch : P.fetch q = some (.branch (.zero (outcome c when)) l, n)) :
    Jumps env P layout p (q + n) (.ints c lhs (.int 0)) when l.index True True := by
  intro m μ stack hagree
  refine (hl m μ stack hagree).bind fun a m₁ d ha => ?_
  rw [ha.config, hlk]
  have hint := ha.kind_eq _ hlk
  cases a <;> cases hint
  exact follows_branch hfetch ha.locals_eq rfl (compare_outcome c when _ _)

theorem Jumps.longs {lhs rhs : Expr} {c : Comparison} {q' n' : Nat} {when : Bool} {l : Label}
    (hl : Computes env P layout p q lhs) (hlk : lhs.kind = some .long)
    (hr : Computes env P layout q q' rhs) (hrk : rhs.kind = some .long)
    (hcmp : P.fetch q' = some (.lcmp, n'))
    (hfetch : P.fetch (q' + n') = some (.branch (.zero (outcome c when)) l, n)) :
    Jumps env P layout p (q' + n' + n) (.longs c lhs rhs) when l.index True True := by
  refine .ofOperands (f := compareLongs c) rfl hl hlk hr hrk ?_
  intro m m₀ μ a b stack ha hb hlocals
  cases a <;> cases ha
  cases b <;> cases hb
  rename_i x y
  have hd : Does P q' (q' + n') (.long y :: .long x :: stack) (.int (sign x y) :: stack) :=
    does_of_compute hcmp fun _ => rfl
  refine .after (hd env μ m.past) (follows_branch hfetch hlocals rfl ?_)
  show compare (outcome c when) (sign x y).toInt 0 = _
  rw [compare_sign, compare_outcome]

theorem Jumps.refs {lhs rhs : Expr} {equal when : Bool} {q' : Nat} {l : Label}
    (hl : Computes env P layout p q lhs) (hlk : lhs.kind = some .reference)
    (hr : Computes env P layout q q' rhs) (hrk : rhs.kind = some .reference)
    (hfetch : P.fetch q' = some (.branch (.refs (equal == when)) l, n)) :
    Jumps env P layout p (q' + n) (.refs equal lhs rhs) when l.index True True := by
  refine .ofOperands (f := compareReferences equal) rfl hl hlk hr hrk ?_
  intro m m₀ μ a b stack ha hb hlocals
  cases a <;> cases ha
  cases b <;> cases hb
  rename_i x y
  refine follows_branch hfetch hlocals rfl ?_
  cases equal <;> cases when <;> cases (x == y) <;> rfl

theorem Jumps.nullity {e : Expr} {isNull when : Bool} {l : Label}
    (he : Computes env P layout p q e) (hk : e.kind = some .reference)
    (hfetch : P.fetch q = some (.branch (.null (isNull == when)) l, n)) :
    Jumps env P layout p (q + n) (.nullity isNull e) when l.index True True := by
  intro m μ stack hagree
  refine (he m μ stack hagree).bind fun v m₁ d hv => ?_
  rw [hv.config, hk]
  have href := hv.kind_eq _ hk
  cases v <;> cases href
  rename_i x
  refine follows_branch hfetch hv.locals_eq rfl ?_
  cases isNull <;> cases when <;> cases (x == Reference.null) <;> rfl

/-! ## 2. Constants, and conditions in conditions -/

variable {a b c : Cond} {when : Bool} {target : Nat} {away onward : Prop}

theorem Jumps.always {l : Label} (hfetch : P.fetch p = some (.goto l, n)) :
    Jumps env P layout p (p + n) (.const when) when l.index True False := by
  intro m μ stack _
  exact .after (reaches_execute hfetch rfl) (.ofPure ⟨rfl, .inl ⟨rfl, trivial, rfl⟩⟩)

theorem Jumps.never {value : Bool} (hne : value ≠ when) :
    Jumps env P layout p p (.const value) when target away True := by
  intro m μ stack _
  exact .ofPure ⟨rfl, .inr ⟨hne, trivial, rfl⟩⟩

/-- More may be allowed than happens. -/
theorem Jumps.mono {away' onward' : Prop} (h : Jumps env P layout p q c when target away onward)
    (ha : away → away') (ho : onward → onward') :
    Jumps env P layout p q c when target away' onward' := by
  intro m μ stack hagree
  refine (h m μ stack hagree).mono fun b m' d hd => ⟨hd.locals_eq, ?_⟩
  rcases hd.config with ⟨hb, haway, hcfg⟩ | ⟨hb, honward, hcfg⟩
  · exact .inl ⟨hb, ha haway, hcfg⟩
  · exact .inr ⟨hb, ho honward, hcfg⟩

theorem Jumps.not (h : Jumps env P layout p q c (!when) target away onward) :
    Jumps env P layout p q (.not c) when target away onward := by
  intro m μ stack hagree
  refine (h m μ stack hagree).bind fun b m' d hd => .ofPure ⟨hd.locals_eq, ?_⟩
  rcases hd.config with ⟨hb, haway, hcfg⟩ | ⟨hb, honward, hcfg⟩
  · exact .inl ⟨by simp [hb], haway, hcfg⟩
  · exact .inr ⟨by cases b <;> cases when <;> simp_all, honward, hcfg⟩

/-- Two conditions of which the first one decides if it comes out as `first`.  The code for the
first jumps over that for the second. -/
theorem Jumps.skipping {first : Bool} {onwardA skipped : Prop}
    (hc : cond env c = do
      let x ← cond env a
      if x = first then return first else cond env b)
    (hwhen : when = !first)
    (ha : Jumps env P layout p q a first r skipped onwardA)
    (hb : onwardA → Jumps env P layout q r b when target away onward) :
    Jumps env P layout p r c when target away (onward ∨ skipped) := by
  intro m μ stack hagree
  rw [hc]
  refine (ha m μ stack hagree).bind fun x m₁ d hx => ?_
  rcases hx.config with ⟨hfirst, hskip, hcfg⟩ | ⟨hother, hon, hcfg⟩
  · rw [if_pos hfirst, hcfg]
    refine .ofPure ⟨hx.locals_eq, .inr ⟨?_, .inr hskip, rfl⟩⟩
    rw [hwhen]
    cases first <;> simp
  · rw [if_neg hother, hcfg]
    refine (hb hon m₁ μ stack (hx.locals_eq ▸ hagree)).mono fun y m₂ d hy => ?_
    refine ⟨hy.locals_eq.trans hx.locals_eq, ?_⟩
    rcases hy.config with h | ⟨hne, hon', hcfg'⟩
    · exact .inl h
    · exact .inr ⟨hne, .inl hon', hcfg'⟩

/-- Two conditions of which the first one decides if it comes out as `when`.  Both jump to the same
place. -/
theorem Jumps.both {onwardA awayA : Prop}
    (hc : cond env c = do
      let x ← cond env a
      if x = when then return when else cond env b)
    (ha : Jumps env P layout p q a when target awayA onwardA)
    (hb : onwardA → Jumps env P layout q r b when target away onward) (haway : awayA → away) :
    Jumps env P layout p r c when target away onward := by
  intro m μ stack hagree
  rw [hc]
  refine (ha m μ stack hagree).bind fun x m₁ d hx => ?_
  rcases hx.config with ⟨hwhen, hfirst, hcfg⟩ | ⟨hother, hon, hcfg⟩
  · rw [if_pos hwhen, hcfg]
    exact .ofPure ⟨hx.locals_eq, .inl ⟨rfl, haway hfirst, rfl⟩⟩
  · rw [if_neg hother, hcfg]
    refine (hb hon m₁ μ stack (hx.locals_eq ▸ hagree)).mono fun y m₂ d hy => ?_
    exact ⟨hy.locals_eq.trans hx.locals_eq, hy.config⟩

/-- `and` is decided by an operand that is false. -/
theorem cond_and (a b : Cond) : cond env (.and a b) = (do
    let x ← cond env a
    if x = false then return false else cond env b) := by
  show (do if ← cond env a then cond env b else return false) = _
  congr 1
  funext x
  cases x <;> rfl

/-- `or` is decided by an operand that is true. -/
theorem cond_or (a b : Cond) : cond env (.or a b) = (do
    let x ← cond env a
    if x = true then return true else cond env b) := rfl

/-! ## 3. Conditions as values -/

/-- A condition is turned into 1 or 0: behind its jump stands the 1 with a jump over the 0. -/
theorem Computes.condition (hc : Jumps env P layout p q c false target away onward)
    (hone : onward → ∃ q' n, (∀ stack, Does P q q' stack (.int 1 :: stack)) ∧
      P.fetch q' = some (.goto ⟨r⟩, n))
    (hzero : away → ∀ stack, Does P target r stack (.int 0 :: stack)) :
    Computes env P layout p r (.condition c) := by
  intro m μ stack hagree
  refine (hc m μ stack hagree).bind fun b m₁ d hb => ?_
  have hint : ∀ k, some ValueKind.int = some k → ∀ v, (Machine.Value.int v).kind = k := by
    rintro k ⟨⟩ v
    rfl
  rcases hb.config with ⟨hfalse, haway, hcfg⟩ | ⟨htrue, honward, hcfg⟩
  · rw [hcfg, hfalse]
    refine .after (hzero haway stack env μ m₁.past) ?_
    exact .ofPure ⟨hb.locals_eq, fun k hk => hint k hk 0, rfl⟩
  · obtain ⟨q', n, hdoes, hgoto⟩ := hone honward
    have hb' : b = true := by simpa using htrue
    rw [hcfg, hb']
    refine .after ((hdoes stack env μ m₁.past).trans (reaches_execute hgoto rfl)) ?_
    exact .ofPure ⟨hb.locals_eq, fun k hk => hint k hk 1, rfl⟩

end MethodGraft.Direct
