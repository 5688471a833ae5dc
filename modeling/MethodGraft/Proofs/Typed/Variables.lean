import MethodGraft.Proofs.Typed.Listings

/-!
# Proofs.Typed.Variables — the variables that an expression uses

A name stands for the latest variable of that name in scope.  A tree reads the variables that the
names of its source stand for, in the same order, and the receiver where its source says so or names
a member of the enclosing class.
-/

namespace MethodGraft.Typed

open ClassFile Classpath

/-! ## 1. Variables -/

/-- A variable of a method.  Two variables that were declared at different times are different, even
if they agree in all else. -/
structure Variable where
  /-- The receiver goes without a name. -/
  name? : Option String
  slot : UInt16
  type : FieldType
  /-- How many variables were declared before it. -/
  since : Nat
  deriving DecidableEq

/-- The node that reads the variable: its slot and its type. -/
def Variable.node (v : Variable) : UInt16 × FieldType := (v.slot, v.type)

/-- The variable that a name stands for; the latest one comes first. -/
def denoted? (scope : List Variable) (name : String) : Option Variable :=
  scope.find? fun v => decide (v.name? = some name)

/-- The receiver is in scope. -/
def IsReceiver (scope : List Variable) (r : Variable) : Prop := r ∈ scope ∧ r.name? = none

mutual

/-- The variables that an expression uses, in the order in which a tree reads them.  What a bare
name or call means besides variables is left open: it may be a member of the enclosing class, which
uses the receiver, or not. -/
inductive Uses (scope : List Variable) : Source.Expr → List Variable → Prop
  | literal (v : Source.Literal) (line : Nat) : Uses scope (.literal v line) []
  | this {r : Variable} (hr : IsReceiver scope r) (line : Nat) : Uses scope (.this line) [r]
  | variable {name : String} {v : Variable} (hv : denoted? scope name = some v) (line : Nat) :
      Uses scope (.name name line) [v]
  | member {name : String} (hfree : denoted? scope name = none) (line : Nat) :
      Uses scope (.name name line) []
  | ownField {name : String} {r : Variable} (hfree : denoted? scope name = none)
      (hr : IsReceiver scope r) (line : Nat) : Uses scope (.name name line) [r]
  | field {target : Source.Expr} {vs : List Variable} (h : Uses scope target vs) (name : String)
      (line : Nat) : Uses scope (.field target name line) vs
  | call {args : List Source.Expr} {vs : List Variable} (hargs : AllUse scope args vs)
      (name : String) (line : Nat) : Uses scope (.call name args line) vs
  | ownCall {args : List Source.Expr} {r : Variable} {vs : List Variable} (hr : IsReceiver scope r)
      (hargs : AllUse scope args vs) (name : String) (line : Nat) :
      Uses scope (.call name args line) (r :: vs)
  | callOn {target : Source.Expr} {args : List Source.Expr} {vs ws : List Variable}
      (h : Uses scope target vs) (hargs : AllUse scope args ws) (name : String) (line : Nat) :
      Uses scope (.callOn target name args line) (vs ++ ws)
  | not {e : Source.Expr} {vs : List Variable} (h : Uses scope e vs) (line : Nat) :
      Uses scope (.not e line) vs
  | binary {l r : Source.Expr} {vs ws : List Variable} (hl : Uses scope l vs) (hr : Uses scope r ws)
      (op : Source.BinaryOp) (line : Nat) : Uses scope (.binary op l r line) (vs ++ ws)
  | cast {e : Source.Expr} {vs : List Variable} (h : Uses scope e vs) (type : Source.TypeName)
      (line : Nat) : Uses scope (.cast type e line) vs

inductive AllUse (scope : List Variable) : List Source.Expr → List Variable → Prop
  | nil : AllUse scope [] []
  | cons {e : Source.Expr} {es : List Source.Expr} {vs ws : List Variable} (h : Uses scope e vs)
      (hes : AllUse scope es ws) : AllUse scope (e :: es) (vs ++ ws)

end

mutual

def Expr.locals : Expr → List (UInt16 × FieldType)
  | .local slot t => [(slot, t)]
  | .int _ | .long _ | .str _ | .null | .getStatic .. => []
  | .getField e _ _ _ | .checkcast _ e | .widen _ _ e => e.locals
  | .call _ args => Expr.allLocals args
  | .callOn receiver _ args => receiver.locals ++ Expr.allLocals args
  | .add _ l r => l.locals ++ r.locals
  | .concat parts => Expr.partLocals parts
  | .condition c => c.locals

def Expr.allLocals : List Expr → List (UInt16 × FieldType)
  | [] => []
  | e :: es => e.locals ++ Expr.allLocals es

def Expr.partLocals : List (Expr × FieldType) → List (UInt16 × FieldType)
  | [] => []
  | (e, _) :: parts => e.locals ++ Expr.partLocals parts

def Cond.locals : Cond → List (UInt16 × FieldType)
  | .const _ => []
  | .value e | .nullity _ e => e.locals
  | .not c => c.locals
  | .and a b | .or a b => a.locals ++ b.locals
  | .ints _ l r | .longs _ l r | .refs _ l r => l.locals ++ r.locals

end

def Spells (scope : List Variable) (e : Source.Expr) (locals : List (UInt16 × FieldType)) : Prop :=
  ∃ vs, Uses scope e vs ∧ locals = vs.map Variable.node

/-! ## 2. Scopes of the binder -/

def Variable.local? (v : Variable) : Option Local := v.name?.map fun name => ⟨name, v.slot, v.type⟩

def receiverOf (self : String) : Variable := ⟨none, 0, .object self, 0⟩

structure Scope.Shows (s : Scope) (scope : List Variable) : Prop where
  locals : s.locals = scope.filterMap Variable.local?
  receiver : s.isStatic = false → receiverOf s.self.name ∈ scope
  nameless : ∀ v ∈ scope, v.name? = none → s.isStatic = false ∧ v = receiverOf s.self.name

variable {m : Dictionary} {s : Scope} {scope : List Variable}

/-- A name stands for the same variable on both sides. -/
theorem Scope.Shows.find? (h : s.Shows scope) (name : String) :
    s.find? name = (denoted? scope name).bind Variable.local? := by
  unfold Scope.find? denoted?
  rw [h.locals]
  clear h
  induction scope with
  | nil => rfl
  | cons v scope ih =>
    cases hname : v.name? with
    | none =>
      have hlocal : v.local? = none := by rw [Variable.local?, hname]; rfl
      rw [List.filterMap_cons_none hlocal, List.find?_cons_of_neg (by simp [hname]), ih]
    | some n =>
      have hlocal : v.local? = some ⟨n, v.slot, v.type⟩ := by rw [Variable.local?, hname]; rfl
      rw [List.filterMap_cons_some hlocal]
      by_cases hn : n = name
      · rw [List.find?_cons_of_pos (by simp [hn]), List.find?_cons_of_pos (by simp [hname, hn])]
        exact hlocal.symm
      · rw [List.find?_cons_of_neg (by simp [hn]), List.find?_cons_of_neg (by simp [hname, hn]), ih]

theorem name?_of_denoted? {name : String} {v : Variable} (h : denoted? scope name = some v) :
    v.name? = some name := by
  have hmatches := List.find?_some h
  simpa using hmatches

theorem Scope.Shows.denoted?_eq_none (h : s.Shows scope) {name : String}
    (hfree : s.find? name = none) : denoted? scope name = none := by
  rw [h.find?] at hfree
  cases hv : denoted? scope name with
  | none => rfl
  | some v =>
    rw [hv, Option.bind_some, Variable.local?, name?_of_denoted? hv] at hfree
    cases hfree

theorem Scope.Shows.exists_denoted (h : s.Shows scope) {name : String} {v : Local}
    (hv : s.find? name = some v) :
    ∃ w, denoted? scope name = some w ∧ w.node = (v.slot, v.type) := by
  rw [h.find?] at hv
  obtain ⟨w, hw, hlocal⟩ := Option.bind_eq_some_iff.mp hv
  obtain ⟨_, -, rfl⟩ := Option.map_eq_some_iff.mp hlocal
  exact ⟨w, hw, rfl⟩

theorem Scope.Shows.isReceiver (h : s.Shows scope) (hinstance : s.isStatic = false) :
    IsReceiver scope (receiverOf s.self.name) := ⟨h.receiver hinstance, rfl⟩

/-! ## 3. What the rules make of the locals -/

theorem allLocals_eq (es : List Expr) : Expr.allLocals es = es.flatMap Expr.locals := by
  induction es with
  | nil => rfl
  | cons e es ih => rw [Expr.allLocals, ih, List.flatMap_cons]

def localsListing : Listing (UInt16 × FieldType) where
  expr := Expr.locals
  cond := Cond.locals
  int _ := rfl
  null := rfl
  widen _ _ _ := rfl
  checkcast _ _ := rfl
  call _ args := allLocals_eq args
  callOn receiver _ args := congrArg (receiver.locals ++ ·) (allLocals_eq args)
  condition _ := rfl
  const _ := rfl
  value _ := rfl
  ints _ _ _ := rfl
  longs _ _ _ := rfl
  refs _ _ _ := rfl
  nullity _ _ := rfl

theorem Recast.locals {x y : Expr} (h : Recast x y) : y.locals = x.locals := localsListing.recast h

theorem partLocals_append (ps qs : List (Expr × FieldType)) :
    Expr.partLocals (ps ++ qs) = Expr.partLocals ps ++ Expr.partLocals qs := by
  induction ps with
  | nil => rfl
  | cons p ps ih =>
    obtain ⟨e, t⟩ := p
    rw [List.cons_append, Expr.partLocals, Expr.partLocals, ih, List.append_assoc]

theorem partLocals_partsOf (v : Value) : Expr.partLocals (partsOf v) = v.expr.locals := by
  unfold partsOf
  split
  next parts hparts => rw [hparts, Expr.locals]
  next => rw [Expr.partLocals, Expr.partLocals, List.append_nil]

theorem locals_joined (v w : Value) :
    (Expr.concat (partsOf v ++ partsOf w)).locals = v.expr.locals ++ w.expr.locals := by
  rw [Expr.locals, partLocals_append, partLocals_partsOf, partLocals_partsOf]

theorem Meaning.callTarget?_ne_self (k : Meaning) : k.callTarget? ≠ some .self := by
  cases k with
  | ofClass | ofPackage => intro h; cases h
  | value | flag | condition => intro h; cases h

namespace Spells

variable {e l r : Source.Expr} {xs ys zs : List (UInt16 × FieldType)}

theorem field (h : Spells scope e xs) (name : String) (line : Nat) :
    Spells scope (.field e name line) xs := by
  obtain ⟨vs, hvs, rfl⟩ := h
  exact ⟨vs, .field hvs name line, rfl⟩

theorem not (h : Spells scope e xs) (line : Nat) : Spells scope (.not e line) xs := by
  obtain ⟨vs, hvs, rfl⟩ := h
  exact ⟨vs, .not hvs line, rfl⟩

theorem cast (h : Spells scope e xs) (type : Source.TypeName) (line : Nat) :
    Spells scope (.cast type e line) xs := by
  obtain ⟨vs, hvs, rfl⟩ := h
  exact ⟨vs, .cast hvs type line, rfl⟩

theorem binary (hl : Spells scope l xs) (hr : Spells scope r ys) (op : Source.BinaryOp) (line : Nat)
    (h : zs = xs ++ ys) : Spells scope (.binary op l r line) zs := by
  obtain ⟨vs, hvs, rfl⟩ := hl
  obtain ⟨ws, hws, rfl⟩ := hr
  exact ⟨vs ++ ws, .binary hvs hws op line, h.trans List.map_append.symm⟩

end Spells

mutual

/-- The locals in what an expression means are those of the variables that it uses. -/
theorem Means.spells (hscope : s.Shows scope) {e : Source.Expr} {k : Meaning} :
    Means m s e k → Spells scope e (localsListing.meaning k)
  | .literal v line => ⟨[], .literal v line, by cases v <;> rfl⟩
  | .this line hinstance => ⟨_, .this (hscope.isReceiver hinstance) line, rfl⟩
  | .ofLocal line hv => by
    obtain ⟨w, hw, hnode⟩ := hscope.exists_denoted hv
    refine ⟨[w], .variable hw line, ?_⟩
    rw [List.map_singleton, hnode]
    rfl
  | .ownStatic line hfree _ _ => ⟨[], .member (hscope.denoted?_eq_none hfree) line, rfl⟩
  | .ownField line hfree hinstance _ _ =>
    ⟨_, .ownField (hscope.denoted?_eq_none hfree) (hscope.isReceiver hinstance) line, rfl⟩
  | .name line hfree hk =>
    ⟨[], .member (hscope.denoted?_eq_none hfree) line, localsListing.meaning_of_none hk⟩
  | .staticField h hk n line _ _ => by
    have hlocals := h.spells hscope
    rw [localsListing.meaning_of_none hk] at hlocals
    exact hlocals.field n line
  | .qualified h hk n line hk' => by
    have hlocals := h.spells hscope
    rw [localsListing.meaning_of_none hk, ← localsListing.meaning_of_none hk'] at hlocals
    exact hlocals.field n line
  | .field h hv n line _ _ => by
    have hlocals := h.spells hscope
    rw [localsListing.meaning_of_value hv] at hlocals
    exact hlocals.field n line
  | .call hargs hpassed hv n line => by
    obtain ⟨vs, hvs, hlocals⟩ := hargs.spells hscope
    rw [← localsListing.passed hpassed] at hlocals
    cases hv with
    | static => exact ⟨vs, .call hvs n line, (localsListing.call ..).trans hlocals⟩
    | onSelf hinstance =>
      refine ⟨_, .ownCall (hscope.isReceiver hinstance) hvs n line, ?_⟩
      rw [Listing.meaning, localsListing.callOn, hlocals]
      rfl
  | .callOn hargs h hon hpassed hv n line => by
    obtain ⟨vs, hvs, hlocals⟩ := h.spells hscope
    obtain ⟨ws, hws, hpassedLocals⟩ := hargs.spells hscope
    rw [localsListing.meaning_of_callTarget hon] at hlocals
    rw [← localsListing.passed hpassed] at hpassedLocals
    refine ⟨vs ++ ws, .callOn hvs hws n line, ?_⟩
    rw [List.map_append, ← hlocals, ← hpassedLocals, Listing.meaning]
    -- something is written before the dot, so the receiver of the method is not put there
    obtain hmakes | ⟨rfl, -, -⟩ := localsListing.makes hv
    · exact hmakes
    · exact absurd hon (Meaning.callTarget?_ne_self _)
  | .not h hc line => by
    have hlocals := h.spells hscope
    rw [localsListing.meaning_of_cond hc] at hlocals
    exact hlocals.not line
  | .and hl hc hr hd line | .or hl hc hr hd line => by
    have hleft := hl.spells hscope
    have hright := hr.spells hscope
    rw [localsListing.meaning_of_cond hc] at hleft
    rw [localsListing.meaning_of_cond hd] at hright
    exact hleft.binary hright _ line rfl
  | .compare hl hv hr hw hc line => by
    have hleft := hl.spells hscope
    have hright := hr.spells hscope
    rw [localsListing.meaning_of_value hv] at hleft
    rw [localsListing.meaning_of_value hw] at hright
    exact hleft.binary hright _ line (localsListing.compares hc (hl.nullOnly hv) (hr.nullOnly hw))
  | .sum hl hv hr hw hx hy _ line => by
    have hleft := hl.spells hscope
    have hright := hr.spells hscope
    rw [localsListing.meaning_of_value hv, ← localsListing.recast hx] at hleft
    rw [localsListing.meaning_of_value hw, ← localsListing.recast hy] at hright
    exact hleft.binary hright _ line rfl
  | .concat hl hv hr hw _ line => by
    have hleft := hl.spells hscope
    have hright := hr.spells hscope
    rw [localsListing.meaning_of_value hv] at hleft
    rw [localsListing.meaning_of_value hw] at hright
    exact hleft.binary hright _ line (locals_joined _ _)
  | .cast _ h hv hx line => by
    have hlocals := h.spells hscope
    rw [localsListing.meaning_of_value hv, ← localsListing.recast hx] at hlocals
    exact hlocals.cast _ line

theorem AllMean.spells (hscope : s.Shows scope) {es : List Source.Expr} {values : List Value} :
    AllMean m s es values →
      ∃ vs, AllUse scope es vs ∧ (values.flatMap fun v => localsListing.expr v.expr) =
        vs.map Variable.node
  | .nil => ⟨[], .nil, rfl⟩
  | .cons h hv hes => by
    obtain ⟨vs, hvs, hlocals⟩ := h.spells hscope
    obtain ⟨ws, hws, hrest⟩ := hes.spells hscope
    rw [localsListing.meaning_of_value hv] at hlocals
    refine ⟨vs ++ ws, .cons hvs hws, ?_⟩
    rw [List.map_append, List.flatMap_cons, hlocals, hrest]

end

theorem IsValue.spells (hscope : s.Shows scope) {e : Source.Expr} {v : Value}
    (h : IsValue m s e v) : Spells scope e v.expr.locals := by
  obtain ⟨k, hk, hv⟩ := h
  have hlocals := hk.spells hscope
  rwa [localsListing.meaning_of_value hv] at hlocals

theorem IsCond.spells (hscope : s.Shows scope) {e : Source.Expr} {c : Cond} (h : IsCond m s e c) :
    Spells scope e c.locals := by
  obtain ⟨k, hk, hc⟩ := h
  have hlocals := hk.spells hscope
  rwa [localsListing.meaning_of_cond hc] at hlocals

end MethodGraft.Typed
