import MethodGraft.Proofs.Descriptor
import MethodGraft.Typed.Tree

/-!
# Proofs.Typed.WellFormed — trees in which kinds fit

The machine tells five kinds of value apart.  A tree is well formed over a layout of the local slots
if every operand is of the kind that its operator takes, every local is read as what its slot holds,
and every declaration takes the next free slot.  Code generation never fails on such a tree, and the
code it makes never meets a value of another kind.
-/

namespace MethodGraft

namespace Code

open ClassFile

def ValueKind.isWide : ValueKind → Bool
  | .long | .double => true
  | _ => false

/-- What the local slots hold; `none` for the second slot of a wide value. -/
abbrev Layout := List (Option ValueKind)

def ValueKind.layout (k : ValueKind) : Layout := if k.isWide then [some k, none] else [some k]

end Code

namespace Typed

open ClassFile Code

def layoutOf (t : FieldType) : Layout := (ValueKind.ofType t).layout

/-! ## 1. Expressions -/

/-- How the value of an expression is held; a call of a `void` method has none. -/
def Expr.kind : Expr → Option ValueKind
  | .int _ | .condition _ => some .int
  | .long _ => some .long
  | .str _ | .null | .checkcast .. | .concat _ => some .reference
  | .local _ t | .getField _ _ _ t | .getStatic _ _ t | .widen _ t _ | .add t _ _ =>
    some (.ofType t)
  | .call c _ | .callOn _ c _ => c.type.ret.map .ofType

def Callee.params (c : Callee) : List (Option ValueKind) :=
  c.type.params.map fun t => some (.ofType t)

/-- The descriptor can be read back, and the constant that refers to the method is of the kind that
the call needs. -/
structure Callee.WellFormed (c : Callee) : Prop where
  readable : c.type.Readable
  ofInterface : c.kind = .interface → c.onInterface = true
  ofClass : c.kind = .virtual → c.onInterface = false

def appendCallee (t : FieldType) : Callee :=
  ⟨.virtual, textBuilder, false, "append", ⟨[t], some (.object textBuilder)⟩⟩

/-- Values of the two types are held alike, or some instruction converts the first to the second. -/
def Converts (source target : FieldType) : Prop :=
  (source = target ∨ (source.isIntLike ∧ target.isIntLike)) ∨
    (Conversion.ofKinds? (.ofType source) (.ofType target)).isSome

mutual

def Expr.WellFormed (layout : Layout) : Expr → Prop
  | .int _ | .long _ | .str _ | .null => True
  | .local slot t => layout[slot.toNat]? = some (some (.ofType t))
  | .getField receiver _ _ t =>
    receiver.WellFormed layout ∧ receiver.kind = some .reference ∧ t.Readable
  | .getStatic _ _ t => t.Readable
  | .call c args =>
    c.WellFormed ∧ c.kind = .static ∧ Expr.AllWellFormed layout args ∧
      args.map Expr.kind = c.params
  | .callOn receiver c args =>
    c.WellFormed ∧ receiver.WellFormed layout ∧ receiver.kind = some .reference ∧
      Expr.AllWellFormed layout args ∧ args.map Expr.kind = c.params
  | .checkcast _ e => e.WellFormed layout ∧ e.kind = some .reference
  | .widen source target e =>
    e.WellFormed layout ∧ e.kind = some (.ofType source) ∧ Converts source target
  | .add t l r =>
    l.WellFormed layout ∧ l.kind = some (.ofType t) ∧
      r.WellFormed layout ∧ r.kind = some (.ofType t) ∧
      (ValueKind.ofType t = .int ∨ ValueKind.ofType t = .long)
  | .concat parts => Expr.PartsWellFormed layout parts
  | .condition c => c.WellFormed layout

def Expr.AllWellFormed (layout : Layout) : List Expr → Prop
  | [] => True
  | e :: es => e.WellFormed layout ∧ Expr.AllWellFormed layout es

def Expr.PartsWellFormed (layout : Layout) : List (Expr × FieldType) → Prop
  | [] => True
  | (e, t) :: parts =>
    (e.WellFormed layout ∧ e.kind = some (.ofType t) ∧ (appendCallee t).WellFormed) ∧
      Expr.PartsWellFormed layout parts

def Cond.WellFormed (layout : Layout) : Cond → Prop
  | .const _ => True
  | .value e => e.WellFormed layout ∧ e.kind = some .int
  | .not c => c.WellFormed layout
  | .and a b | .or a b => a.WellFormed layout ∧ b.WellFormed layout
  | .ints _ l r =>
    l.WellFormed layout ∧ l.kind = some .int ∧ r.WellFormed layout ∧ r.kind = some .int
  | .longs _ l r =>
    l.WellFormed layout ∧ l.kind = some .long ∧ r.WellFormed layout ∧ r.kind = some .long
  | .refs _ l r =>
    l.WellFormed layout ∧ l.kind = some .reference ∧ r.WellFormed layout ∧
      r.kind = some .reference
  | .nullity _ e => e.WellFormed layout ∧ e.kind = some .reference

end

/-! ## 2. Statements -/

/-- The layout after a statement: a declaration takes the next slots. -/
def Stmt.after (layout : Layout) : Stmt → Layout
  | .store _ t _ | .readField _ t .. => layout ++ layoutOf t
  | _ => layout

def Declares (layout : Layout) (slot : UInt16) (t : FieldType) : Prop :=
  slot.toNat = layout.length ∧ layout.length + (layoutOf t).length ≤ 65535

mutual

/-- The statement fits a layout and a result type. -/
def Stmt.WellFormed (ret : Option FieldType) (layout : Layout) : Stmt → Prop
  | .store slot t e => Declares layout slot t ∧ e.WellFormed layout ∧ e.kind = some (.ofType t)
  | .readField slot t target _ _ =>
    Declares layout slot t ∧ ValueKind.ofType t = .reference ∧
      target.WellFormed layout ∧ target.kind = some .reference
  | .ifThen c yes => c.WellFormed layout ∧ Stmt.AllWellFormed ret layout yes
  | .ifElse c yes no =>
    c.WellFormed layout ∧ Stmt.AllWellFormed ret layout yes ∧ Stmt.AllWellFormed ret layout no
  | .ret => ret = none
  | .retValue e t => ret = some t ∧ e.WellFormed layout ∧ e.kind = some (.ofType t)
  | .discard e hasValue => e.WellFormed layout ∧ hasValue = e.kind.isSome
  | .block stmts => Stmt.AllWellFormed ret layout stmts

def Stmt.AllWellFormed (ret : Option FieldType) (layout : Layout) : List Stmt → Prop
  | [] => True
  | s :: stmts => s.WellFormed ret layout ∧ Stmt.AllWellFormed ret (s.after layout) stmts

end

mutual

def Stmt.completes : Stmt → Bool
  | .ifElse _ yes no => Stmt.allComplete yes || Stmt.allComplete no
  | .ret | .retValue .. => false
  | .block stmts => Stmt.allComplete stmts
  | _ => true

def Stmt.allComplete : List Stmt → Bool
  | [] => true
  | s :: stmts => s.completes && Stmt.allComplete stmts

end

/-! ## 3. Methods -/

def Method.layout (m : Method) : Layout :=
  (if m.flags.isStatic then [] else [some .reference]) ++ m.type.params.flatMap layoutOf

structure Method.WellFormed (m : Method) : Prop where
  layout_le : m.layout.length ≤ 65535
  body : Stmt.AllWellFormed m.type.ret m.layout m.body
  fallsThrough : m.fallsThrough = Stmt.allComplete m.body
  missingNoReturn : m.fallsThrough = true → m.type.ret = none

end Typed

end MethodGraft
