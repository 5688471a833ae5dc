import MethodGraft.Proofs.Typed.Rules

/-!
# Proofs.Typed.Listings — what is listed for a tree, in what the rules make of its parts

A listing gives for every tree the list of something that occurs in it.  What something means lists
what its tree lists; conversions and the choice between a value and a condition change nothing.
-/

namespace MethodGraft.Typed

open Code

/-- What is listed for trees, from left to right.  Nodes that convert or compare list what their
operands list, and calls what the receiver and the arguments do. -/
structure Listing (α : Type) where
  expr : Expr → List α
  cond : Cond → List α
  int : ∀ v, expr (.int v) = []
  null : expr .null = []
  widen : ∀ source target e, expr (.widen source target e) = expr e
  checkcast : ∀ name e, expr (.checkcast name e) = expr e
  call : ∀ c args, expr (.call c args) = args.flatMap expr
  callOn : ∀ receiver c args, expr (.callOn receiver c args) = expr receiver ++ args.flatMap expr
  condition : ∀ c, expr (.condition c) = cond c
  const : ∀ b, cond (.const b) = []
  value : ∀ e, cond (.value e) = expr e
  ints : ∀ c l r, cond (.ints c l r) = expr l ++ expr r
  longs : ∀ c l r, cond (.longs c l r) = expr l ++ expr r
  refs : ∀ equal l r, cond (.refs equal l r) = expr l ++ expr r
  nullity : ∀ isNull e, cond (.nullity isNull e) = expr e

namespace Listing

variable {α : Type} (listing : Listing α)

def meaning : Meaning → List α
  | .value v => listing.expr v.expr
  | .condition c => listing.cond c
  | .flag _ | .ofClass _ | .ofPackage _ => []

def target : CallTarget → List α
  | .value v => listing.expr v.expr
  | .self | .ofClass _ => []

variable {k : Meaning}

theorem meaning_of_value {v : Value} (h : k.value? = some v) :
    listing.meaning k = listing.expr v.expr := by
  cases k <;> cases h
  · rfl
  · exact (listing.int _).symm
  · exact (listing.condition _).symm

theorem meaning_of_cond {c : Cond} (h : k.cond? = some c) : listing.meaning k = listing.cond c := by
  cases k <;> cases h
  · exact (listing.value _).symm
  · exact (listing.const _).symm
  · rfl

theorem meaning_of_none (h : k.value? = none) : listing.meaning k = [] := by
  cases k <;> first | rfl | cases h

theorem meaning_of_callTarget {on : CallTarget} (h : k.callTarget? = some on) :
    listing.meaning k = listing.target on := by
  cases k <;> cases h
  · rfl
  · exact (listing.int _).symm
  · exact (listing.condition _).symm
  · rfl

/-- What holds of all that is listed for a meaning holds of what is listed for it as a value. -/
theorem forall_of_value {P : α → Prop} {v : Value} (h : k.value? = some v)
    (hall : ∀ a ∈ listing.meaning k, P a) : ∀ a ∈ listing.expr v.expr, P a := by
  rwa [← listing.meaning_of_value h]

theorem forall_of_cond {P : α → Prop} {c : Cond} (h : k.cond? = some c)
    (hall : ∀ a ∈ listing.meaning k, P a) : ∀ a ∈ listing.cond c, P a := by
  rwa [← listing.meaning_of_cond h]

theorem recast {x y : Expr} (h : Recast x y) : listing.expr y = listing.expr x := by
  cases h with
  | same => rfl
  | widen => exact listing.widen ..
  | checkcast => exact listing.checkcast ..

theorem passed {vs : List Value} {args : List Expr}
    (h : List.Forall₂ Recast (vs.map Value.expr) args) :
    args.flatMap listing.expr = vs.flatMap fun v => listing.expr v.expr := by
  induction vs generalizing args with
  | nil =>
    cases h
    rfl
  | cons v vs ih =>
    cases h with
    | cons hv hvs => rw [List.flatMap_cons, List.flatMap_cons, listing.recast hv, ih hvs]

/-- A comparison to `null` leaves out an operand that lists nothing. -/
theorem compares {l r : Value} {c : Cond} (h : Compares l r c) (hl : l.NullOnly) (hr : r.NullOnly) :
    listing.cond c = listing.expr l.expr ++ listing.expr r.expr := by
  cases h with
  | ints => exact listing.ints ..
  | refs => exact listing.refs ..
  | longs _ hx hy => rw [listing.longs, listing.recast hx, listing.recast hy]
  | toNull _ hnull => rw [listing.nullity, hr hnull, listing.null, List.append_nil]
  | ofNull _ hnull => rw [listing.nullity, hl hnull, listing.null, List.nil_append]
  | nulls _ hnull hnull' =>
    rw [listing.const, hl hnull, hr hnull', listing.null]
    rfl

/-- A call lists what it is made on, or else the receiver. -/
theorem makes {s : Scope} {callee : Callee} {args : List Expr} {on : CallTarget} {v : Value}
    (h : on.Makes s callee args v) :
    listing.expr v.expr = listing.target on ++ args.flatMap listing.expr ∨
      on = .self ∧ s.isStatic = false ∧
        listing.expr v.expr = listing.expr s.this.expr ++ args.flatMap listing.expr := by
  cases h with
  | static htarget =>
    left
    rw [listing.call]
    cases on with
    | value v => exact absurd rfl (htarget v)
    | self | ofClass => rfl
  | onValue v =>
    left
    rw [listing.callOn]
    rfl
  | onSelf hinstance => exact .inr ⟨rfl, hinstance, listing.callOn ..⟩

end Listing

end MethodGraft.Typed
