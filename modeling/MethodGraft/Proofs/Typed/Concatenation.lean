import MethodGraft.Proofs.Machine.Texts
import MethodGraft.Proofs.Typed.Choice
import MethodGraft.Proofs.Typed.Rules

/-!
# Proofs.Typed.Concatenation — a sum with a string in it is the text of its tree

The binder flattens nested sums of texts into one list of parts.  The tree that the source shows is
kept here, with casts as nodes of their own, and read node by node: a node with a string on one side
joins the texts of its sides, any other is a sum of numbers.
-/

namespace MethodGraft.Typed

open ClassFile Classpath Direct

/-! ## 1. Trees of sums and casts -/

inductive Tree where
  | operand (v : Value)
  | plus (l r : Tree)
  /-- A cast that cannot fail: of `null`, or to a type that the operand can be assigned to. -/
  | cast (target : FieldType) (t : Tree)
  /-- A cast that is checked when the program runs. -/
  | checked (target : FieldType) (t : Tree)

def promoted (a b : FieldType) : FieldType := if a = .long ∨ b = .long then .long else .int

/-- The number as one of the type `target`; a reference stays as it is. -/
def converted (source : ValueType) (target : FieldType) (d : Datum) : Evaluation Datum :=
  match source with
  | .of source => if target.isReference then return d else d.widened source target
  | _ => return d

namespace Tree

/-- The type of a tree.  A sum with a string on one side is a string. -/
def type : Tree → ValueType
  | .operand v => v.type
  | .cast target _ | .checked target _ => .of target
  | .plus l r =>
    if l.type.isString || r.type.isString then .of .string
    else
      match l.type, r.type with
      | .of a, .of b => .of (promoted a b)
      | _, _ => .void

variable (env : Machine.Environment) (w : Texts)

def datum : Tree → Evaluation Datum
  | .operand v => .value <$> expr env v.expr
  | .cast target t => do converted t.type target (← t.datum)
  | .checked target t => do
    match ← t.datum with
    | .value v => .value <$> perform env (.checkcast (target.className?.getD "") v)
    | .text text =>
      w.check (target.className?.getD "")
      return .text text
  | .plus l r =>
    if l.type.isString || r.type.isString then do
      let before ← textOf w l.type (← l.datum)
      return .text (before ++ (← textOf w r.type (← r.datum)))
    else
      match l.type, r.type with
      | .of a, .of b => do
        let x ← (← l.datum).widened a (promoted a b)
        let y ← (← r.datum).widened b (promoted a b)
        x.sum y
      | _, _ => throw .stuck

def text (t : Tree) : Evaluation Units := do textOf w t.type (← t.datum env w)

end Tree

/-! ## 2. Trees of source expressions -/

def isOperand : Source.Expr → Bool
  | .binary .add .. | .cast .. => false
  | _ => true

/-- The expression is read as the tree where names mean `m`: operands with the values that they are
bound to, sums and casts as they are written.  A cast to what the operand can be assigned to leaves
nothing to check. -/
inductive Reads (m : Dictionary) (s : Scope) : Source.Expr → Tree → Prop
  | operand {e : Source.Expr} {v : Value} (he : isOperand e = true)
      (hv : Yields m (bindValue s e) (.ok v)) : Reads m s e (.operand v)
  | plus {l r : Source.Expr} {a b : Tree} {line : Nat} (hl : Reads m s l a) (hr : Reads m s r b) :
      Reads m s (.binary .add l r line) (.plus a b)
  | null {type : Source.TypeName} {e : Source.Expr} {line : Nat} {target : FieldType} {t : Tree}
      (htarget : Yields m (s.resolveType type) (.ok target)) (ht : Reads m s e t)
      (hnull : t.type = .null) (href : target.isReference = true) :
      Reads m s (.cast type e line) (.cast target t)
  | fitting {type : Source.TypeName} {e : Source.Expr} {line : Nat} {source target : FieldType}
      {t : Tree} (htarget : Yields m (s.resolveType type) (.ok target)) (ht : Reads m s e t)
      (hsource : t.type = .of source) (hfits : Yields m (isAssignable source target) (.ok true)) :
      Reads m s (.cast type e line) (.cast target t)
  | checked {type : Source.TypeName} {e : Source.Expr} {line : Nat} {source target : FieldType}
      {t : Tree} (htarget : Yields m (s.resolveType type) (.ok target)) (ht : Reads m s e t)
      (hsource : t.type = .of source)
      (hrefs : source.isReference = true ∧ target.isReference = true)
      (hfits : Yields m (isAssignable source target) (.ok false)) :
      Reads m s (.cast type e line) (.checked target t)

/-- The value is what the tree stands for.  Only the constant `null` has its type, and texts that
are joined are references. -/
structure Tree.Gives (t : Tree) (v : Value) : Prop where
  type : t.type = v.type
  datum : ∀ env w, evaluate env w v.expr = t.datum env w
  null : v.NullOnly
  concat : ∀ parts, v.expr = .concat parts → v.type.isReference = true

variable {m : Dictionary} {s : Scope}

/-- An operand is neither a sum nor a cast nor a text that is joined. -/
theorem isPlain_of_isValue {e : Source.Expr} {v : Value} (he : isOperand e = true)
    (h : IsValue m s e v) : isPlain v.expr = true := by
  obtain ⟨k, hk, hv⟩ := h
  cases hk with
  | literal l line => cases l <;> cases hv <;> rfl
  | name _ _ hk | qualified _ _ _ _ hk =>
    rw [hk] at hv
    cases hv
  | call _ _ hmakes | callOn _ _ _ _ hmakes =>
    cases hv
    cases hmakes <;> rfl
  | sum | concat | cast => cases he
  | _ =>
    cases hv
    rfl

/-! ## 3. Sums and casts -/

theorem bindValue_add (l r : Source.Expr) (line : Nat) :
    bindValue s (.binary .add l r line) = (do
      let a ← bindValue s l
      let b ← bindValue s r
      addValues a b line) := by
  simp only [bindValue, meaning, comparison?, bind_assoc, pure_bind, Meaning.toValue, bind_pure]

theorem bindValue_cast (type : Source.TypeName) (e : Source.Expr) (line : Nat) :
    bindValue s (.cast type e line) = (do
      if (fieldReadCall? e).isSome then unsupported line .misplacedFieldRead
      let target ← s.resolveType type
      let v ← bindValue s e
      castTo v target line) := by
  by_cases hread : (fieldReadCall? e).isSome
  · simp only [bindValue, meaning, hread, if_true]
    rfl
  · simp only [bindValue, meaning, hread, if_false, bind_assoc, pure_bind, Meaning.toValue,
      bind_pure, Bool.false_eq_true]

/-- A sum of what two trees give is what their sum gives. -/
theorem under_addValues_gives {a b : Tree} {l r : Value} (hl : a.Gives l) (hr : b.Gives r)
    (line : Nat) : Under m (addValues l r line) (Tree.plus a b).Gives := by
  have hstrings : (a.type.isString || b.type.isString) = (l.type.isString || r.type.isString) := by
    rw [hl.type, hr.type]
  unfold addValues
  refine .refusing fun hvoid => ?_
  obtain ⟨hlvoid, hrvoid⟩ := not_or.mp hvoid
  split
  next hstring =>
    rw [← hstrings] at hstring
    refine (under_look yields_resolve.under).bind fun _ _ => .ofPure ?_
    refine ⟨if_pos hstring, fun env w => ?_, fun hnull => (by cases hnull), fun _ _ => rfl⟩
    -- the parts of a sum are those of its sides, one after the other
    show (do return Datum.text (← joined env w (partsOf l ++ partsOf r))) = _
    rw [Tree.datum, if_pos hstring, joined_append, joined_partsOf env w hlvoid hl.concat,
      joined_partsOf env w hrvoid hr.concat, ← hl.datum, ← hr.datum, hl.type, hr.type]
    simp only [bind_assoc, pure_bind]
  next hstring =>
    rw [← hstrings] at hstring
    split
    next x y hx hy =>
      refine .refusing fun _ => ?_
      split
      next t ht =>
        -- neither side is a string, so the sum has a primitive type, and widening to it changes the
        -- data only
        have hpromoted : t = promoted x y ∧ t.isReference = false := by
          unfold promotion? at ht
          unfold promoted
          split at ht
          next => cases ht
          next => split at ht <;> cases ht <;> simp_all [FieldType.isReference]
        obtain ⟨rfl, href⟩ := hpromoted
        refine .ofPure
          ⟨?_, fun env w => ?_, fun hnull => (by cases hnull),
            fun parts hparts => (by cases hparts)⟩
        · rw [Tree.type, if_neg hstring, hl.type, hr.type, hx, hy]
          rfl
        · show (do
            let d ← evaluate env w (widen l.expr x (promoted x y))
            let d' ← evaluate env w (widen r.expr y (promoted x y))
            d.sum d') = _
          rw [Tree.datum, if_neg hstring, evaluate_widen env w _ href, evaluate_widen env w _ href,
            hl.datum, hr.datum, hl.type, hr.type, hx, hy]
          simp only [bind_assoc]
      next => exact .ofThrow
    next => exact .ofThrow

/-- Casting what a tree gives is what the cast of the tree gives. -/
theorem under_castTo_reads (hm : m.Keyed) (hbounded : m.Bounded) {type : Source.TypeName}
    {e : Source.Expr} {target : FieldType} {t : Tree} {v : Value}
    (htarget : Yields m (s.resolveType type) (.ok target))
    (ht : Reads m s e t) (hv : t.Gives v) (line : Nat) :
    Under m (castTo v target line)
    fun v' => ∃ t', Reads m s (.cast type e line) t' ∧ t'.Gives v' := by
  have htest (source : FieldType) : Under m (look (isAssignable source target)) fun fits =>
      Yields m (isAssignable source target) (.ok fits) :=
    under_look (Determined.isAssignable hm hbounded).under
  unfold castTo
  split
  next => exact .ofThrow
  next hnull =>
    split
    next href =>
      refine .ofPure
        ⟨_, .null htarget ht (hv.type.trans hnull) href, rfl, fun env w => ?_, nofun, nofun⟩
      rw [Tree.datum, hv.type, hnull, ← hv.datum, hv.null hnull]
      exact (bind_pure _).symm
    next => exact .ofThrow
  next source hsource =>
    have htype := hv.type.trans hsource
    split
    next hs href =>
      refine (htest source).bind fun fits hfits => ?_
      cases fits with
      | true =>
        refine .ofPure
          ⟨_, .fitting htarget ht htype hfits, rfl, fun env w => ?_, nofun, fun _ _ => href⟩
        rw [Tree.datum, htype, ← hv.datum]
        simp only [converted, href, if_true, bind_pure]
        rfl
      | false =>
        refine .ofPure
          ⟨_, .checked htarget ht htype ⟨hs, href⟩ hfits, rfl, fun env w => ?_, nofun, nofun⟩
        rw [Tree.datum, ← hv.datum]
        rfl
    next hs href =>
      refine (htest source).bind fun fits hfits => ?_
      cases fits with
      | true =>
        refine .ofPure ⟨_, .fitting htarget ht htype hfits, rfl, fun env w => ?_, nofun, ?_⟩
        · show evaluate env w (widen v.expr source target) = _
          rw [Tree.datum, htype, ← hv.datum, evaluate_widen env w _ href]
          simp only [converted, href, Bool.false_eq_true, if_false]
        · intro parts hparts
          -- a concatenation that is widened stays one only if nothing is done, and then its type is
          -- no primitive one
          have hconcat : v.expr = .concat parts := by
            unfold Value.of widen at hparts
            split at hparts
            next => exact hparts
            next => cases hparts
          have hv := hv.concat parts hconcat
          rw [hsource] at hv
          exact absurd hv (ne_true_of_eq_false hs)
      | false => exact .refusing fun _ => .ofThrow
    next => exact .ofThrow
    next => exact .ofThrow

theorem under_reads_operand (hm : m.Keyed) (hbounded : m.Bounded) {e : Source.Expr}
    (he : isOperand e = true) :
    Under m (bindValue s e) fun v => ∃ t, Reads m s e t ∧ t.Gives v := by
  refine ((determined_bindValue hm hbounded e).under.and (under_bindValue_isValue hm e)).mono
    fun v ⟨hv, hrules⟩ => ?_
  have hplain := isPlain_of_isValue he hrules
  refine ⟨_, .operand he hv, rfl, fun env w => evaluate_of_isPlain env w hplain, hrules.nullOnly,
    ?_⟩
  intro parts hparts
  rw [hparts] at hplain
  cases hplain

/-- Every expression is read as a tree that its value is what the tree stands for. -/
theorem under_reads (hm : m.Keyed) (hbounded : m.Bounded) :
    (e : Source.Expr) → Under m (bindValue s e) fun v => ∃ t, Reads m s e t ∧ t.Gives v
  | .binary op l r line => by
    cases op with
    | add =>
      rw [bindValue_add]
      refine (under_reads hm hbounded l).bind fun vl ⟨a, hl, hvl⟩ => ?_
      refine (under_reads hm hbounded r).bind fun vr ⟨b, hr, hvr⟩ => ?_
      exact (under_addValues_gives hvl hvr line).mono fun v hv => ⟨_, .plus hl hr, hv⟩
    | _ => exact under_reads_operand hm hbounded rfl
  | .cast type e line => by
    rw [bindValue_cast]
    refine .refusing fun _ => ?_
    refine (determined_resolveType type).under.bind fun target htarget => ?_
    refine (under_reads hm hbounded e).bind fun v ⟨t, ht, hv⟩ => ?_
    exact under_castTo_reads hm hbounded htarget ht hv line
  | .literal .. | .this _ | .name .. | .field .. | .call .. | .callOn .. | .not .. =>
    under_reads_operand hm hbounded rfl

/-! ## 4. Texts -/

/-- Two results of one step are the same. -/
theorem eq_of_yields {α ε : Type} {x : ExceptT ε (StateM Resolver) α} {a b : α} {r : Resolver}
    (hr : r.meaning = m) (ha : Yields m x (.ok a)) (hb : Yields m x (.ok b)) : a = b :=
  Except.ok.inj ((ha.result hr).symm.trans (hb.result hr))

/-- An expression is read as one tree only. -/
theorem Reads.unique {r : Resolver} (hr : r.meaning = m) {e : Source.Expr} {t t' : Tree}
    (h : Reads m s e t) (h' : Reads m s e t') : t' = t := by
  induction h generalizing t' with
  | operand he hv =>
    cases h' with
    | operand _ hv' => rw [eq_of_yields hr hv hv']
    | _ => cases he
  | plus _ _ ihl ihr =>
    cases h' with
    | operand he' => cases he'
    | plus hl' hr' => rw [ihl hl', ihr hr']
  | null htarget _ hnull _ ih =>
    cases h' with
    | operand he' => cases he'
    | null htarget' ht' => rw [eq_of_yields hr htarget htarget', ih ht']
    | fitting _ ht' hsource' | checked _ ht' hsource' =>
      -- `null` has no type of its own, so neither other rule for casts applies
      rw [ih ht', hnull] at hsource'
      cases hsource'
  | fitting htarget _ hsource hfits ih =>
    cases h' with
    | operand he' => cases he'
    | null _ ht' hnull' =>
      rw [ih ht', hsource] at hnull'
      cases hnull'
    | fitting htarget' ht' => rw [eq_of_yields hr htarget htarget', ih ht']
    | checked htarget' ht' hsource' _ hfits' =>
      rw [ih ht', hsource] at hsource'
      cases hsource'
      cases eq_of_yields hr htarget htarget'
      -- the same test cannot both succeed and fail
      cases eq_of_yields hr hfits hfits'
  | checked htarget _ hsource _ hfits ih =>
    cases h' with
    | operand he' => cases he'
    | null _ ht' hnull' =>
      rw [ih ht', hsource] at hnull'
      cases hnull'
    | checked htarget' ht' => rw [eq_of_yields hr htarget htarget', ih ht']
    | fitting htarget' ht' hsource' hfits' =>
      rw [ih ht', hsource] at hsource'
      cases hsource'
      cases eq_of_yields hr htarget htarget'
      cases eq_of_yields hr hfits hfits'

/-- Only texts that are joined are strings among sums. -/
theorem ensures_addValues_concat (l r : Value) (line : Nat) :
    Ensures (addValues l r line) fun v => v.type = .of .string →
    ∃ parts, v.expr = .concat parts := by
  unfold addValues
  refine .refusing fun _ => ?_
  split
  next => exact .after fun _ => .ofPure fun _ => ⟨_, rfl⟩
  next =>
    split
    next =>
      refine .refusing fun _ => ?_
      split
      next t ht =>
        refine .ofPure fun hstring => ?_
        unfold promotion? at ht
        split at ht
        next => cases ht
        next => split at ht <;> cases ht <;> cases hstring
      next => exact .ofThrow
    next => exact .ofThrow

/-- **A sum that is a string is the text of its tree.**  The source is read as one tree of sums and
casts, whose operands are bound as they stand; its parts, evaluated from left to right and each
appended as its type, join to the text that the tree has node by node, with the same effects in the
same order. -/
theorem concat_text {r r' : Resolver} {a b : Source.Expr} {line : Nat} {v : Value} (hr : r.Reached)
    (h : (bindValue s (.binary .add a b line)).run.run r = (.ok v, r'))
    (hv : v.type = .of .string) :
    ∃ t parts, (∀ t', Reads r.meaning s (.binary .add a b line) t' ↔ t' = t) ∧
    v.expr = .concat parts ∧ ∀ env w, joined env w parts = t.text env w := by
  obtain ⟨-, t, ht, hgives⟩ := under_reads hr.keyed r.bounded _ r v r' rfl h
  obtain ⟨parts, hparts⟩ : ∃ parts, v.expr = .concat parts := by
    rw [bindValue_add] at h
    obtain ⟨vl, r₁, -, h⟩ := run_bind_eq_ok.mp h
    obtain ⟨vr, r₂, -, h⟩ := run_bind_eq_ok.mp h
    exact ensures_addValues_concat vl vr line r₂ v r' h hv
  refine ⟨t, parts, fun t' => ⟨ht.unique rfl, fun h => h ▸ ht⟩, hparts, fun env w => ?_⟩
  have hvoid : v.type ≠ .void := by rw [hv]; exact nofun
  calc joined env w parts
    _ = joined env w (partsOf v) := by rw [partsOf, hparts]
    _ = (do textOf w v.type (← evaluate env w v.expr)) := joined_partsOf env w hvoid hgives.concat
    _ = t.text env w := by rw [Tree.text, hgives.type, hgives.datum]

def textScope : Scope where
  imports := []
  self := classOf "H" none [] []
  isStatic := true
  returnType := none
  locals := [⟨"b", 1, .byte⟩, ⟨"c", 0, .char⟩]
  nextSlot := 2

def textSum : Source.Expr :=
  .binary .add
    (.binary .add (.binary .add (.name "c" 1) (.literal (.int 1) 1) 1)
      (.binary .add (.binary .add (.literal (.str "x") 1) (.name "c" 1) 1)
        (.cast ⟨.primitive .long, 0, 1⟩ (.name "b" 1) 1) 1) 1)
    (.literal .null 1) 1

theorem concat_text_mixed :
    ∃ v r', (bindValue textScope textSum).run.run (defining [classOf textBuilder none [] []]) =
      (.ok v, r') ∧ v.type = .of .string ∧
    ∃ t parts,
    (∀ t', Reads (defining [classOf textBuilder none [] []]).meaning textScope textSum t' ↔
      t' = t) ∧
      v.expr = .concat parts ∧ parts.map Prod.snd =
        [.int, .string, .char, .long, .object FieldType.rootClass] ∧
      ∀ env w, joined env w parts = t.text env w := by
  obtain ⟨v, r', hrun, hcheck⟩ := exists_run (x := bindValue textScope textSum)
    (r := defining [classOf textBuilder none [] []])
    (fun v _ => decide (v.type = .of .string ∧
      (partsOf v).map Prod.snd = [.int, .string, .char, .long, .object FieldType.rootClass]))
      (by decide +kernel)
  obtain ⟨htype, hparams⟩ := of_decide_eq_true hcheck
  obtain ⟨t, parts, hreads, hparts, htext⟩ := concat_text (reached_defining _) hrun htype
  rw [partsOf, hparts] at hparams
  exact ⟨v, r', hrun, htype, t, parts, hreads, hparts, hparams, htext⟩

end MethodGraft.Typed
