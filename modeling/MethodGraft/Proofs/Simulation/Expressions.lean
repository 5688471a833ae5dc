import MethodGraft.Proofs.Simulation.Basic
import MethodGraft.Typed.Emit

/-!
# Proofs.Simulation.Expressions — code for expressions and conditions

What it means that a stretch of code evaluates an expression, or jumps as a condition says, and how
such stretches are made of smaller ones.
-/

namespace MethodGraft.Direct

open ClassFile Code Typed Machine

variable {env : Environment} {P : Program} {layout : Layout} {p q r n : Nat}

/-! ## 1. Expressions -/

/-- Evaluation and machine have the same values in the slots of the layout, of the kinds it says. -/
def Agree (layout : Layout) (σ μ : Slots Machine.Value) : Prop :=
  ∀ i k, layout[i]? = some (some k) → ∃ v, σ i = some v ∧ μ i = some v ∧ v.kind = k

def Computes (env : Environment) (P : Program) (layout : Layout) (p q : Nat) (e : Expr) : Prop :=
  ∀ (m : Memory) (μ : Slots Machine.Value) (stack : List Machine.Value), Agree layout m.locals μ →
    Follows env P (expr env e) m (.running p stack μ m.past) Ends (Pushed e.kind m q stack μ)

structure PushedAll (kinds : List ValueKind) (m : Memory) (next : Nat) (rest : List Machine.Value)
    (locals : Slots Machine.Value) (vs : List Machine.Value) (m' : Memory) (d : Config) : Prop where
  locals_eq : m'.locals = m.locals
  kind_eq : vs.map Machine.Value.kind = kinds
  config : d = .running next (vs.reverse ++ rest) locals m'.past

def ComputesAll (env : Environment) (P : Program) (layout : Layout) (p q : Nat)
    (es : List Expr) : Prop :=
  ∀ (m : Memory) (μ : Slots Machine.Value) (stack : List Machine.Value), Agree layout m.locals μ →
    ∀ kinds, es.map Expr.kind = kinds.map some →
      Follows env P (exprs env es) m (.running p stack μ m.past) Ends (PushedAll kinds m q stack μ)

/-- The code from `p` to `q` appends the parts of a text to the object on top of the stack. -/
def Appends (env : Environment) (P : Program) (layout : Layout) (p q : Nat)
    (ps : List (Expr × FieldType)) : Prop :=
  ∀ (m : Memory) (μ : Slots Machine.Value) (stack : List Machine.Value) (builder : Machine.Value),
    Agree layout m.locals μ → builder.kind = .reference →
      Follows env P (parts env builder ps) m (.running p (builder :: stack) μ m.past) Ends
        (Pushed (some .reference) m q stack μ)

def Does (P : Program) (p q : Nat) (stack stack' : List Machine.Value) : Prop :=
  ∀ env μ past, Reaches env P (.running p stack μ past) (.running q stack' μ past)

theorem does_of_compute {op : Operation} {stack stack' : List Machine.Value}
    (hfetch : P.fetch p = some (op, n))
    (h : ∀ μ, compute? P.pool op stack μ = some (stack', μ)) : Does P p (p + n) stack stack' :=
  fun _ μ _ => reaches_execute hfetch (execute_of_compute (h μ))

theorem Computes.ofConstant {e : Expr} {v : Machine.Value} (he : expr env e = pure v)
    (hkind : e.kind = some v.kind) (hdoes : ∀ stack, Does P p q stack (v :: stack)) :
    Computes env P layout p q e := by
  intro m μ stack _
  rw [he]
  refine .after (hdoes stack env μ m.past) (.ofPure ⟨rfl, ?_, ?_⟩)
  · intro k hk
    rw [hkind] at hk
    exact Option.some.inj hk
  · rw [hkind]
    rfl

theorem Computes.local {slot : UInt16} {t : FieldType}
    (hfetch : P.fetch p = some (.load (.ofType t) slot, n))
    (hslot : layout[slot.toNat]? = some (some (.ofType t))) :
    Computes env P layout p (p + n) (.local slot t) := by
  intro m μ stack hagree
  obtain ⟨v, hσ, hμ, hkind⟩ := hagree _ _ hslot
  have hrun : (readLocal slot).run.run m = (.ok v, m) := by
    unfold readLocal
    rw [run_get_bind, hσ]
    rfl
  rw [← hkind] at hfetch
  refine .ofRun hrun (reaches_execute hfetch (execute_of_compute (compute?_load hμ)))
    ⟨rfl, ?_, rfl⟩
  intro k hk
  cases hk
  exact hkind

/-- An instruction that takes the value of an expression, asks the environment and pushes the
answer. -/
theorem Computes.perform {e : Expr} {op : Operation} {a : Machine.Value → Action}
    {kind : Option ValueKind} (he : Computes env P layout p q e) (hkind : e.kind = some .reference)
    (hfetch : P.fetch q = some (op, n)) (hn : 0 < n) (hun : Uncovered P q (q + n))
    (ha : ∀ r stack, action? P.pool op (.reference r :: stack) = some (a (.reference r), stack))
    (hak : ∀ v, (a v).kind = kind) (m : Memory) (μ : Slots Machine.Value)
    (stack : List Machine.Value) (hagree : Agree layout m.locals μ) :
    Follows env P (do let v ← expr env e; perform env (a v)) m (.running p stack μ m.past) Ends
      (Pushed kind m (q + n) stack μ) := by
  refine (he m μ stack hagree).bind fun v m' d hv => ?_
  have href := hv.kind_eq .reference hkind
  cases v with
  | reference r =>
    rw [hv.config, hkind]
    refine ((follows_perform hfetch hn (ha r stack)).exits hun.ends).mono fun w m'' d hw => ?_
    rw [hak] at hw
    exact ⟨hw.locals_eq.trans hv.locals_eq, hw.kind_eq, hw.config⟩
  | _ => cases href

theorem Computes.getField {receiver : Expr} {owner name : String} {t : FieldType} {i : UInt16}
    (he : Computes env P layout p q receiver) (hkind : receiver.kind = some .reference)
    (hfetch : P.fetch q = some (.getField i, n)) (hn : 0 < n) (hun : Uncovered P q (q + n))
    (hi : P.pool.field? i = some ⟨owner, name, t⟩) :
    Computes env P layout p (q + n) (.getField receiver owner name t) :=
  he.perform (a := .getField ⟨owner, name, t⟩) hkind hfetch hn hun
    (fun r stack => by simp [action?, hi]) fun _ => rfl

theorem Computes.checkcast {e : Expr} {name : String} {i : UInt16}
    (he : Computes env P layout p q e) (hkind : e.kind = some .reference)
    (hfetch : P.fetch q = some (.checkcast i, n)) (hn : 0 < n) (hun : Uncovered P q (q + n))
    (hi : P.pool.class? i = some name) :
    Computes env P layout p (q + n) (.checkcast name e) :=
  he.perform (a := .checkcast name) hkind hfetch hn hun
    (fun r stack => by simp [action?, hi]) fun _ => rfl

theorem Computes.getStatic {owner name : String} {t : FieldType} {i : UInt16}
    (hfetch : P.fetch p = some (.getStatic i, n)) (hn : 0 < n) (hun : Uncovered P p (p + n))
    (hi : P.pool.field? i = some ⟨owner, name, t⟩) :
    Computes env P layout p (p + n) (.getStatic owner name t) := by
  intro m μ stack _
  exact (follows_perform hfetch hn (by simp [action?, hi])).exits hun.ends

theorem ofType_eq_of_alike {source target : FieldType}
    (h : source = target ∨ (source.isIntLike ∧ target.isIntLike)) :
    ValueKind.ofType source = .ofType target := by
  rcases h with rfl | ⟨hs, ht⟩
  · rfl
  · cases source <;> simp [FieldType.isIntLike] at hs <;>
      cases target <;> simp [FieldType.isIntLike] at ht <;> rfl

/-- Widening to a type that is held alike takes no instruction. -/
theorem Computes.widenAlike {e : Expr} {source target : FieldType}
    (he : Computes env P layout p q e) (hkind : e.kind = some (.ofType source))
    (halike : source = target ∨ (source.isIntLike ∧ target.isIntLike)) :
    Computes env P layout p q (.widen source target e) := by
  intro m μ stack hagree
  have hsame := ofType_eq_of_alike halike
  refine (he m μ stack hagree).bind fun v m' d hv => ?_
  unfold widened
  rw [if_pos halike]
  rw [hkind, hsame] at hv
  exact .ofPure hv

theorem Computes.widen {e : Expr} {source target : FieldType} {c : Conversion}
    (he : Computes env P layout p q e) (hkind : e.kind = some (.ofType source))
    (hother : ¬(source = target ∨ (source.isIntLike ∧ target.isIntLike)))
    (hc : Conversion.ofKinds? (.ofType source) (.ofType target) = some c)
    (hfetch : P.fetch q = some (.convert c, n)) :
    Computes env P layout p (q + n) (.widen source target e) := by
  intro m μ stack hagree
  have hkinds : c.kinds = (.ofType source, .ofType target) := by
    cases hs : ValueKind.ofType source <;> cases ht : ValueKind.ofType target <;>
      simp [hs, ht, Conversion.ofKinds?] at hc <;> subst hc <;> rfl
  refine (he m μ stack hagree).bind fun v m' d hv => ?_
  obtain ⟨w, hw⟩ := Option.isSome_iff_exists.mp
    (convert_isSome (c := c) (v := v) (by rw [hkinds]; exact hv.kind_eq _ hkind))
  unfold widened
  rw [if_neg hother, hc, Option.bind_some, hw, hv.config, hkind]
  have hd : Does P q (q + n) (v :: stack) (w :: stack) :=
    does_of_compute hfetch fun _ => compute?_convert hw
  refine .after (hd env μ m'.past) (.ofPure ⟨hv.locals_eq, ?_, rfl⟩)
  intro k hk
  cases hk
  rw [kind_of_convert hw, hkinds]

/-- An addition of two values of one kind. -/
theorem Computes.add {l r : Expr} {t : FieldType} {op : Operation} {q' : Nat}
    (hl : Computes env P layout p q l) (hlk : l.kind = some (.ofType t))
    (hr : Computes env P layout q q' r) (hrk : r.kind = some (.ofType t))
    (hop : (ValueKind.ofType t = .int ∧ op = .iadd) ∨ (ValueKind.ofType t = .long ∧ op = .ladd))
    (hfetch : P.fetch q' = some (op, n)) : Computes env P layout p (q' + n) (.add t l r) := by
  intro m μ stack hagree
  refine (hl m μ stack hagree).bind fun a m₁ d ha => ?_
  rw [ha.config, hlk]
  refine (hr m₁ μ (a :: stack) (ha.locals_eq ▸ hagree)).bind fun b m₂ d hb => ?_
  rw [hb.config, hrk]
  -- the kinds leave one form of value for each operand, so the addition cannot fail
  have hak := ha.kind_eq _ hlk
  have hbk := hb.kind_eq _ hrk
  have hlocals := hb.locals_eq.trans ha.locals_eq
  rcases hop with ⟨ht, rfl⟩ | ⟨ht, rfl⟩
  · rw [ht] at hak hbk
    cases a <;> cases hak
    cases b <;> cases hbk
    rename_i x y
    have hd : Does P q' (q' + n) (.int y :: .int x :: stack) (.int (x + y) :: stack) :=
      does_of_compute hfetch fun _ => rfl
    refine .after (hd env μ m₂.past) (.ofPure ⟨hlocals, ?_, rfl⟩)
    intro k hk
    cases hk
    exact ht.symm
  · rw [ht] at hak hbk
    cases a <;> cases hak
    cases b <;> cases hbk
    rename_i x y
    have hd : Does P q' (q' + n) (.long y :: .long x :: stack) (.long (x + y) :: stack) :=
      does_of_compute hfetch fun _ => rfl
    refine .after (hd env μ m₂.past) (.ofPure ⟨hlocals, ?_, rfl⟩)
    intro k hk
    cases hk
    exact ht.symm

/-! ## 2. Calls -/

theorem ComputesAll.nil : ComputesAll env P layout p p [] := by
  intro m μ stack _ kinds hkinds
  refine .ofPure ⟨rfl, ?_, rfl⟩
  cases kinds with
  | nil => rfl
  | cons => cases hkinds

theorem ComputesAll.cons {e : Expr} {es : List Expr} (he : Computes env P layout p q e)
    (hes : ComputesAll env P layout q r es) : ComputesAll env P layout p r (e :: es) := by
  intro m μ stack hagree kinds hkinds
  cases kinds with
  | nil => cases hkinds
  | cons k kinds =>
    obtain ⟨hk, hks⟩ := List.cons_eq_cons.mp hkinds
    refine (he m μ stack hagree).bind fun v m₁ d hv => ?_
    rw [hv.config, hk]
    refine (hes m₁ μ (v :: stack) (hv.locals_eq ▸ hagree) kinds hks).bind fun vs m₂ d hvs => ?_
    refine .ofPure ⟨hvs.locals_eq.trans hv.locals_eq, ?_, ?_⟩
    · rw [List.map_cons, hv.kind_eq k hk, hvs.kind_eq]
    · rw [hvs.config, List.reverse_cons, List.append_assoc, List.singleton_append]

/-- The operands of a call as they stand on the stack are taken together. -/
theorem action?_invoke {pool : ConstantPool} {c : Callee} {i : UInt16} {slots : UInt8}
    (hi : pool.callee? c.kind i = some c) {receiver vs : List Machine.Value}
    (hreceiver : receiver.map Machine.Value.kind = if c.kind = .static then [] else [.reference])
    (hvs : vs.map Machine.Value.kind = c.type.params.map ValueKind.ofType)
    (stack : List Machine.Value) :
    action? pool (.invoke c.kind i slots) (vs.reverse ++ (receiver ++ stack)) =
      some (.invoke c (receiver.reverse ++ vs), stack) := by
  have hkinds : operandKinds c = (vs.reverse ++ receiver).map Machine.Value.kind := by
    rw [operandKinds, List.map_append, List.map_reverse, hvs, hreceiver]
  show (pool.callee? c.kind i).bind _ = _
  rw [hi, Option.bind_some]
  show (takeValues (operandKinds c) (vs.reverse ++ (receiver ++ stack))).bind _ = _
  rw [hkinds, ← List.append_assoc, takeValues_append]
  simp

def Calls (P : Program) (p q : Nat) (c : Callee) : Prop :=
  ∃ i slots n, 0 < n ∧ q = p + n ∧ P.fetch p = some (.invoke c.kind i slots, n) ∧
    P.pool.callee? c.kind i = some c

theorem follows_call {c : Callee} (hcall : Calls P p q c) {m : Memory} {μ : Slots Machine.Value}
    (receiver vs : List Machine.Value)
    (hreceiver : receiver.map Machine.Value.kind = if c.kind = .static then [] else [.reference])
    (hvs : vs.map Machine.Value.kind = c.type.params.map ValueKind.ofType)
    (stack : List Machine.Value) :
    Follows env P (perform env (.invoke c (receiver.reverse ++ vs))) m
      (.running p (vs.reverse ++ (receiver ++ stack)) μ m.past) (Raises p q μ m.locals)
      (Pushed (c.type.ret.map .ofType) m q stack μ) := by
  obtain ⟨i, slots, n, hn, rfl, hfetch, hi⟩ := hcall
  exact follows_perform hfetch hn (action?_invoke hi hreceiver hvs stack)

theorem Computes.call {c : Callee} {args : List Expr} (hargs : ComputesAll env P layout p q args)
    (hkinds : args.map Expr.kind = c.params) (hstatic : c.kind = .static) (hcall : Calls P q r c)
    (hun : Uncovered P q r) : Computes env P layout p r (.call c args) := by
  intro m μ stack hagree
  have hkinds' : args.map Expr.kind = (c.type.params.map ValueKind.ofType).map some := by
    rw [hkinds, Callee.params, List.map_map]
    rfl
  refine (hargs m μ stack hagree _ hkinds').bind fun vs m₁ d hvs => ?_
  rw [hvs.config]
  refine ((follows_call hcall [] vs (by simp [hstatic]) hvs.kind_eq stack).exits
    hun.ends).mono fun w m₂ d hw => ?_
  exact ⟨hw.locals_eq.trans hvs.locals_eq, hw.kind_eq, hw.config⟩

/-- A call on a receiver; where the method is static the receiver is dropped again. -/
theorem Computes.callOn {receiver : Expr} {c : Callee} {args : List Expr} {p' q' : Nat}
    (hrec : Computes env P layout p q receiver) (hrk : receiver.kind = some .reference)
    (hpop : ∀ v stack, v.kind = .reference →
      Does P q p' (v :: stack) (if c.kind = .static then stack else v :: stack))
    (hargs : ComputesAll env P layout p' q' args) (hkinds : args.map Expr.kind = c.params)
    (hcall : Calls P q' r c) (hun : Uncovered P q' r) :
    Computes env P layout p r (.callOn receiver c args) := by
  intro m μ stack hagree
  have hkinds' : args.map Expr.kind = (c.type.params.map ValueKind.ofType).map some := by
    rw [hkinds, Callee.params, List.map_map]
    rfl
  refine (hrec m μ stack hagree).bind fun v m₁ d hv => ?_
  have href := hv.kind_eq _ hrk
  rw [hv.config, hrk]
  refine .after (hpop v stack href env μ m₁.past) ?_
  -- a static method takes no receiver, so none is left for it
  have hstack : (if c.kind = .static then stack else v :: stack) =
      (if c.kind = .static then [] else [v]) ++ stack := by
    split <;> rfl
  rw [hstack]
  refine (hargs m₁ μ _ (hv.locals_eq ▸ hagree) _ hkinds').bind fun vs m₂ d hvs => ?_
  rw [hvs.config]
  have hoperands : (if c.kind = .static then vs else v :: vs) =
      (if c.kind = .static then [] else [v]).reverse ++ vs := by
    split <;> rfl
  rw [hoperands]
  have hreceiver : (if c.kind = .static then [] else [v]).map Machine.Value.kind =
      if c.kind = .static then [] else [.reference] := by
    split <;> simp [href]
  refine ((follows_call hcall _ vs hreceiver hvs.kind_eq stack).exits hun.ends).mono
    fun w m₃ d hw => ?_
  exact ⟨(hw.locals_eq.trans hvs.locals_eq).trans hv.locals_eq, hw.kind_eq, hw.config⟩

/-- A call of a method on one object with one argument or none. -/
theorem follows_callOf (env : Environment) {kind : InvokeKind} {owner name : String}
    {params : List FieldType} {ret : Option FieldType}
    (hcall : Calls P p q ⟨kind, owner, false, name, ⟨params, ret⟩⟩) (hkind : kind ≠ .static)
    {m : Memory} {μ : Slots Machine.Value} {v : Machine.Value}
    (vs : List Machine.Value) (hv : v.kind = .reference)
    (hvs : vs.map Machine.Value.kind = params.map ValueKind.ofType) (stack : List Machine.Value) :
    Follows env P (callOf env kind owner name params ret (v :: vs)) m
      (.running p (vs.reverse ++ v :: stack) μ m.past) (Raises p q μ m.locals)
      (Pushed (ret.map .ofType) m q stack μ) :=
  follows_call hcall [v] vs (by simp [hkind, hv]) hvs stack

/-! ## 3. Texts -/

theorem Appends.nil : Appends env P layout p p [] := by
  intro m μ stack builder _ hb
  refine .ofPure ⟨rfl, ?_, rfl⟩
  rintro k ⟨⟩
  exact hb

theorem Appends.cons {e : Expr} {t : FieldType} {ps : List (Expr × FieldType)} {q' : Nat}
    (he : Computes env P layout p q e) (hk : e.kind = some (.ofType t))
    (hcall : Calls P q q' (appendCallee t)) (hun : Uncovered P q q')
    (hps : Appends env P layout q' r ps) : Appends env P layout p r ((e, t) :: ps) := by
  intro m μ stack builder hagree hb
  refine (he m μ (builder :: stack) hagree).bind fun v m₁ d hv => ?_
  rw [hv.config, hk]
  refine ((follows_callOf env hcall (by simp) [v] hb (by simp [hv.kind_eq _ hk]) stack).exits
    hun.ends).bind fun b m₂ d hw => ?_
  rw [hw.config]
  have hlocals := hw.locals_eq.trans hv.locals_eq
  refine (hps m₂ μ stack b (hlocals ▸ hagree) (hw.kind_eq _ rfl)).mono fun w m₃ d hrest => ?_
  exact ⟨hrest.locals_eq.trans hlocals, hrest.kind_eq, hrest.config⟩

def Doubles (P : Program) (p q : Nat) : Prop :=
  ∀ v stack, v.kind = .reference → Does P p q (v :: stack) (v :: v :: stack)

def builderCallee (kind : InvokeKind) (name : String) (ret : Option FieldType) : Callee :=
  ⟨kind, textBuilder, false, name, ⟨[], ret⟩⟩

theorem Computes.concat {ps : List (Expr × FieldType)} {i : UInt16} {p₁ p₂ : Nat}
    (hnew : P.fetch p = some (.new i, n)) (hn : 0 < n)
    (hi : P.pool.class? i = some textBuilder) (hdup : Doubles P (p + n) p₁)
    (hinit : Calls P p₁ p₂ (builderCallee .special "<init>" none))
    (hps : Appends env P layout p₂ q ps)
    (hbuilt : Calls P q r (builderCallee .virtual "toString" (some .string)))
    (hun : Uncovered P p (p + n)) (hun₁ : Uncovered P p₁ p₂) (hun₂ : Uncovered P q r) :
    Computes env P layout p r (.concat ps) := by
  intro m μ stack hagree
  have hbuilder : Follows env P (newBuilder env) m (.running p stack μ m.past) Ends
      (Pushed (some .reference) m p₂ stack μ) := by
    have hnew' : action? P.pool (.new i) stack = some (.new textBuilder, stack) := by
      simp [action?, hi]
    refine ((follows_perform hnew hn hnew').exits hun.ends).bind fun b m₁ d hb => ?_
    have href := hb.kind_eq _ rfl
    rw [hb.config]
    refine .after (hdup b stack href env μ m₁.past) ?_
    refine ((follows_callOf env hinit (by simp) [] href rfl (b :: stack)).exits
      hun₁.ends).bind fun w m₂ d hw => ?_
    exact .ofPure ⟨hw.locals_eq.trans hb.locals_eq, hb.kind_eq, hw.config⟩
  refine hbuilder.bind fun b m₁ d hb => ?_
  rw [hb.config]
  refine (hps m₁ μ stack b (hb.locals_eq ▸ hagree) (hb.kind_eq _ rfl)).bind fun joined m₂ d hj => ?_
  rw [hj.config]
  refine ((follows_callOf env hbuilt (by simp) [] (hj.kind_eq _ rfl) rfl stack).exits
    hun₂.ends).mono fun w m₃ d hw => ?_
  exact ⟨(hw.locals_eq.trans hj.locals_eq).trans hb.locals_eq, hw.kind_eq, hw.config⟩

end MethodGraft.Direct
