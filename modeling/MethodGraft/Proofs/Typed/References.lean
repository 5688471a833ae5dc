import MethodGraft.Proofs.Classpath.Lookup
import MethodGraft.Proofs.Typed.Values
import MethodGraft.Typed.Bind

/-!
# Proofs.Typed.References — the members that a tree names

A tree names methods where it calls them and fields where it reads them.  Such a reference is linked
if the member is there and is used as it must be.  Looking names up, converting values and operators
on them add no references, and names mean afterwards what they meant before.
-/

namespace MethodGraft.Typed

open ClassFile Classpath

/-! ## 1. References -/

inductive Reference where
  /-- A method, with the number of arguments that it is called with. -/
  | method (callee : Callee) (arguments : Nat)
  | field (isStatic : Bool) (owner name : String) (type : FieldType)
  deriving DecidableEq

mutual

def Expr.references : Expr → List Reference
  | .int _ | .long _ | .str _ | .null | .local .. => []
  | .getField receiver owner name t => .field false owner name t :: receiver.references
  | .getStatic owner name t => [.field true owner name t]
  | .call c args => .method c args.length :: Expr.allReferences args
  | .callOn receiver c args =>
    .method c args.length :: (receiver.references ++ Expr.allReferences args)
  | .checkcast _ e | .widen _ _ e => e.references
  | .add _ l r => l.references ++ r.references
  | .concat parts => Expr.partReferences parts
  | .condition c => c.references

def Expr.allReferences : List Expr → List Reference
  | [] => []
  | e :: es => e.references ++ Expr.allReferences es

def Expr.partReferences : List (Expr × FieldType) → List Reference
  | [] => []
  | (e, _) :: parts => e.references ++ Expr.partReferences parts

def Cond.references : Cond → List Reference
  | .const _ => []
  | .value e | .nullity _ e => e.references
  | .not c => c.references
  | .and a b | .or a b => a.references ++ b.references
  | .ints _ l r | .longs _ l r | .refs _ l r => l.references ++ r.references

end

mutual

def Stmt.references : Stmt → List Reference
  | .store _ _ e | .retValue e _ | .discard e _ => e.references
  | .readField _ _ target _ _ => target.references
  | .ifThen c yes => c.references ++ Stmt.allReferences yes
  | .ifElse c yes no => c.references ++ (Stmt.allReferences yes ++ Stmt.allReferences no)
  | .ret => []
  | .block stmts => Stmt.allReferences stmts

def Stmt.allReferences : List Stmt → List Reference
  | [] => []
  | s :: stmts => s.references ++ Stmt.allReferences stmts

end

def Method.references (m : Method) : List Reference := Stmt.allReferences m.body

/-- The method that a call names is found, and is called as such a method must be in the class
`self`. -/
structure Callee.Linked (self : String) (r : Resolver) (c : Callee) (arguments : Nat) : Prop where
  method : ∃ found, ((findMethods c.owner c.name).run.run r).1 = .ok found ∧ ∃ d ∈ found,
    d.member.descriptor = c.type.descriptor ∧ (d.member.flags.isStatic = true ↔ c.kind = .static) ∧
      (c.kind = .special → d.member.flags.isPrivate = true ∧ d.owner.name = self)
  arguments : arguments = c.type.params.length
  owner : ∃ s, ((resolve c.owner).run.run r).1 = .ok s ∧ c.onInterface = s.isInterface
  ofInterface : c.kind = .interface → c.onInterface = true
  ofClass : c.kind = .virtual → c.onInterface = false

/-- The member is found as it is named: a method for the kind of call, a field of exactly the type
that is static or not. -/
def Reference.Linked (self : String) (r : Resolver) : Reference → Prop
  | .method c arguments => c.Linked self r arguments
  | .field isStatic owner name type => ∃ d, ((findField? owner name).run.run r).1 = .ok (some d) ∧
      d.member.descriptor = type.descriptor ∧
        FieldType.ofDescriptor d.member.descriptor = .ok type ∧ d.member.flags.isStatic = isStatic

theorem descriptor_of_fieldType {text : String} {t : FieldType}
    (h : FieldType.ofDescriptor text = .ok t) : t.descriptor = text := by
  unfold FieldType.ofDescriptor at h
  split at h
  next u hu =>
    cases h
    exact FieldType.descriptor_of_ofDescriptor? hu
  next => cases h

theorem descriptor_of_methodType {text : String} {t : MethodDescriptor}
    (h : MethodDescriptor.ofDescriptor text = .ok t) : t.descriptor = text := by
  unfold MethodDescriptor.ofDescriptor at h
  split at h
  next u hu =>
    cases h
    exact MethodDescriptor.descriptor_of_ofDescriptor? hu
  next => cases h

/-! ## 2. Names -/

variable {m : Dictionary} {s : Scope}

theorem under_look {α : Type} {x : Resolve α} {Q : α → Prop} (h : Under m x Q) :
    Under m (look x) Q :=
  fun r a r' hr hrun => h r a r' hr (run_look_eq_ok hrun)

theorem under_ofDescriptor {α : Type} {x : Except ClassFile.Error α} :
    Under m (ofDescriptor x) fun a => x = .ok a :=
  .ofMk fun _ h => mapError_eq_ok_iff.mp h

abbrev Steady {α : Type} (m : Dictionary) (x : Binding α) : Prop := Under m x fun _ => True

theorem steady_exists? (name : String) : Steady m (exists? name) := by
  unfold exists?
  exact (under_look yields_resolve?.under).bind fun _ _ => .ofPure trivial

theorem steady_resolveNested? (slashes : Nat) (name : List Char) :
    Steady m (resolveNested? slashes name) := by
  induction slashes generalizing name with
  | zero =>
    unfold resolveNested?
    exact (steady_exists? _).bind fun _ _ => .ofPure trivial
  | succ slashes ih =>
    unfold resolveNested?
    refine (steady_exists? _).bind fun found _ => ?_
    split
    next => exact .ofPure trivial
    next => exact ih _

theorem steady_resolveDotted? (name : String) : Steady m (resolveDotted? name) := by
  unfold resolveDotted?
  exact steady_resolveNested? _ _

theorem steady_resolveImported? (name : String) (imports : List String) :
    Steady m (resolveImported? name imports) := by
  induction imports with
  | nil => exact .ofPure trivial
  | cons i imports ih =>
    unfold resolveImported?
    refine (steady_resolveDotted? _).bind fun found _ => ?_
    split
    next => exact .ofPure trivial
    next => exact ih

theorem steady_lookupClass? (name : String) : Steady m (s.lookupClass? name) := by
  unfold Scope.lookupClass?
  dsimp only
  split
  next => exact .ofPure trivial
  next =>
    refine (steady_exists? _).bind fun isMember _ => ?_
    split
    next => exact .ofPure trivial
    next =>
      split
      next i _ =>
        refine (steady_resolveDotted? i).bind fun found _ => ?_
        split
        next => exact .ofPure trivial
        next => exact .ofThrow
      next =>
        refine (steady_exists? _).bind fun isNear _ => ?_
        split
        next => exact .ofPure trivial
        next =>
          refine (steady_resolveImported? name _).bind fun found _ => ?_
          split
          next => exact .ofPure trivial
          next => exact (steady_exists? _).bind fun _ _ => .ofPure trivial

theorem steady_resolveMembers? (owner : String) (names : List String) :
    Steady m (resolveMembers? owner names) := by
  induction names generalizing owner with
  | nil => exact .ofPure trivial
  | cons name names ih =>
    unfold resolveMembers?
    refine (steady_exists? _).bind fun isMember _ => ?_
    split
    next => exact ih _
    next => exact .ofPure trivial

theorem steady_typeClass (first : String) (more : List String) (line : Nat) :
    Steady m (s.typeClass first more line) := by
  unfold Scope.typeClass
  extract_lets name finish
  refine (steady_lookupClass? first).bind fun found _ => ?_
  have hfinish (found : Option String) : Steady m (finish found) := by
    cases found with
    | some c => exact .ofPure trivial
    | none => exact .ofThrow
  split
  next c => exact (steady_resolveMembers? c more).bind fun found _ => hfinish found
  next =>
    split
    next => exact hfinish none
    next => exact (steady_resolveDotted? _).bind fun found _ => hfinish found

theorem steady_resolveType (t : Source.TypeName) : Steady m (s.resolveType t) := by
  unfold Scope.resolveType
  split
  next => exact .ofThrow
  next => exact .ofPure trivial
  next => exact (steady_typeClass _ _ _).bind fun _ _ => .ofPure trivial

/-! ## 3. Conversions -/

theorem references_widen (e : Expr) (source target : FieldType) :
    (widen e source target).references = e.references := by
  unfold widen
  split <;> rfl

theorem references_passArgument (arg : Value) (param : FieldType) :
    (passArgument arg param).references = arg.expr.references := by
  unfold passArgument
  split
  next t _ =>
    split
    next => rfl
    next => exact references_widen _ _ _
  next => rfl

theorem steady_isSubclass (hm : m.Keyed) (sub super : String) :
    Under m (isSubclass sub super) fun _ => True := by
  unfold isSubclass
  split
  next => exact .ofPure trivial
  next => exact (under_hierarchy hm).bind fun _ _ => .ofPure trivial

theorem under_isAssignable (hm : m.Keyed) (source target : FieldType) :
    Under m (isAssignable source target) fun _ => True := by
  induction source generalizing target with
  | array component ih =>
    unfold isAssignable
    split
    next => exact .ofPure trivial
    next =>
      cases target with
      | array other =>
        dsimp only
        split
        next => exact ih other
        next => exact .ofPure trivial
      | _ => exact .ofPure trivial
  | object name =>
    unfold isAssignable
    split
    next => exact .ofPure trivial
    next =>
      cases target with
      | object other => exact steady_isSubclass hm name other
      | _ => exact .ofPure trivial
  | _ =>
    unfold isAssignable
    split
    next => exact .ofPure trivial
    next => cases target <;> exact .ofPure trivial

theorem steady_isAssignable (hm : m.Keyed) (source target : FieldType) :
    Steady m (look (isAssignable source target)) := under_look (under_isAssignable hm source target)

/-- A value that is assigned names what it named before. -/
theorem under_assign (hm : m.Keyed) (v : Value) (target : FieldType) (line : Nat) :
    Under m (assign v target line) fun e => e.references ⊆ v.expr.references := by
  unfold assign
  split
  next => exact .ofThrow
  next =>
    split
    next => exact .ofPure (List.nil_subset _)
    next => exact .ofThrow
  next source _ =>
    split
    next => exact .ofPure (List.Subset.refl _)
    next =>
      refine (steady_isAssignable hm source target).bind fun fits _ => ?_
      split
      next =>
        refine .ofPure ?_
        rw [references_widen]
        exact List.Subset.refl _
      next => exact .refusing fun _ => .ofThrow

theorem steady_accepts (hm : m.Keyed) (arg : ValueType) (param : FieldType) :
    Steady m (accepts arg param) := by
  unfold accepts
  split
  next => exact .ofPure trivial
  next => exact .ofPure trivial
  next => exact steady_isAssignable hm _ _

theorem under_castTo (hm : m.Keyed) (v : Value) (target : FieldType) (line : Nat) :
    Under m (castTo v target line) fun w => w.expr.references ⊆ v.expr.references := by
  unfold castTo
  split
  next => exact .ofThrow
  next =>
    split
    next => exact .ofPure (List.nil_subset _)
    next => exact .ofThrow
  next source _ =>
    split
    next =>
      refine (steady_isAssignable hm source target).bind fun fits _ => ?_
      split <;> exact .ofPure (List.Subset.refl _)
    next =>
      refine (steady_isAssignable hm source target).bind fun fits _ => ?_
      split
      next =>
        refine .ofPure ?_
        show (widen v.expr source target).references ⊆ _
        rw [references_widen]
        exact List.Subset.refl _
      next => exact .refusing fun _ => .ofThrow
    next => exact .ofThrow
    next => exact .ofThrow

/-! ## 4. Operators -/

theorem partReferences_append (as bs : List (Expr × FieldType)) :
    Expr.partReferences (as ++ bs) = Expr.partReferences as ++ Expr.partReferences bs := by
  induction as with
  | nil => rfl
  | cons a as ih =>
    show a.1.references ++ Expr.partReferences (as ++ bs) = _
    rw [ih, ← List.append_assoc]
    rfl

theorem partReferences_partsOf (v : Value) :
    Expr.partReferences (partsOf v) = v.expr.references := by
  unfold partsOf
  split
  next parts he =>
    rw [he]
    rfl
  next => exact List.append_nil _

/-- A sum names what its operands name. -/
theorem under_addValues (l r : Value) (line : Nat) :
    Under m (addValues l r line) fun v => v.expr.references ⊆
    l.expr.references ++ r.expr.references := by
  unfold addValues
  refine .refusing fun _ => ?_
  split
  next =>
    refine (under_look yields_resolve.under).bind fun _ _ => .ofPure ?_
    show Expr.partReferences (partsOf l ++ partsOf r) ⊆ _
    rw [partReferences_append, partReferences_partsOf, partReferences_partsOf]
    exact List.Subset.refl _
  next =>
    split
    next a b _ _ =>
      refine .refusing fun _ => ?_
      split
      next t _ =>
        refine .ofPure ?_
        show (widen l.expr a t).references ++ (widen r.expr b t).references ⊆ _
        rw [references_widen, references_widen]
        exact List.Subset.refl _
      next => exact .ofThrow
    next => exact .ofThrow

theorem steady_isInterfaceType (t : FieldType) : Steady m (isInterfaceType t) := by
  unfold isInterfaceType
  split
  next => exact (under_look yields_resolve.under).bind fun _ _ => .ofPure trivial
  next => exact .ofPure trivial

theorem steady_areComparable (hm : m.Keyed) (a b : FieldType) : Steady m (areComparable a b) := by
  unfold areComparable
  refine (steady_isAssignable hm a b).bind fun _ _ => ?_
  split
  next => exact .ofPure trivial
  next =>
    refine (steady_isAssignable hm b a).bind fun _ _ => ?_
    split
    next => exact .ofPure trivial
    next =>
      refine (steady_isInterfaceType a).bind fun _ _ => ?_
      split
      next => exact .ofPure trivial
      next => exact steady_isInterfaceType b

theorem under_compareReferences (hm : m.Keyed) (equal : Bool) (l r : Value) (line : Nat) :
    Under m (compareReferences equal l r line)
    fun c => c.references ⊆ l.expr.references ++ r.expr.references := by
  unfold compareReferences
  split
  next a b _ _ =>
    refine (steady_areComparable hm a b).bind fun _ _ => ?_
    split
    next => exact .ofPure (List.Subset.refl _)
    next => exact .ofThrow
  next => exact .ofPure (List.subset_append_left _ _)
  next => exact .ofPure (List.subset_append_right _ _)
  next => exact .ofPure (List.nil_subset _)

/-- A comparison names what its operands name. -/
theorem under_compareValues (hm : m.Keyed) (op : Source.BinaryOp) (c : Code.Comparison)
    (l r : Value) (line : Nat) : Under m (compareValues op c l r line) fun c =>
      c.references ⊆ l.expr.references ++ r.expr.references := by
  unfold compareValues
  dsimp only
  split
  next =>
    split
    next => exact .ofPure (List.Subset.refl _)
    next => exact .ofThrow
  next =>
    split
    next =>
      split
      next =>
        refine .ofPure ?_
        -- widening calls nothing
        show (widen l.expr _ _).references ++ (widen r.expr _ _).references ⊆ _
        rw [references_widen, references_widen]
        exact List.Subset.refl _
      next => exact .ofPure (List.Subset.refl _)
      next => exact .ofThrow
    next =>
      split
      next =>
        split
        next => exact under_compareReferences hm _ l r line
        next => exact .ofThrow
      next => split <;> exact .ofThrow

end MethodGraft.Typed
