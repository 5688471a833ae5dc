import MethodGraft.Source.Lexer
import MethodGraft.Source.Decl

/-!
# Proofs.Source.Printer — declarations written as tokens

The tokens of a declaration with as few parentheses as the grammar allows, the declarations of the
grammar, and declarations up to their lines.  An expression is the looser the more loosely its
outermost operator binds; where an operand may only be of some looseness, a looser one stands in
parentheses.
-/

namespace MethodGraft.Source

/-! ## 1. Looseness -/

/-- How loosely an operator binds: `||` the most, then `&&`, equality, relation and `+`. -/
def BinaryOp.looseness : BinaryOp → Nat
  | .or => 6
  | .and => 5
  | .eq | .ne => 4
  | .lt | .le | .gt | .ge => 3
  | .add => 2

def Literal.isNegative : Literal → Bool
  | .int v => v < 0
  | .long v => v < 0
  | _ => false

/-- How loosely the outermost operator of an expression binds: 0 if it has none, 1 for a minus, `!`
or a cast. -/
def Expr.looseness : Expr → Nat
  | .literal v _ => if v.isNegative then 1 else 0
  | .this _ | .name .. | .field .. | .call .. | .callOn .. => 0
  | .not .. | .cast .. => 1
  | .binary op .. => op.looseness

def Expr.isNegative : Expr → Bool
  | .literal v _ => v.isNegative
  | _ => false

/-! ## 2. Tokens -/

def wrapIf (loose : Bool) (ts : List Token) : List Token :=
  if loose then Token.symbol .parenOpen :: ts ++ [Token.symbol .parenClose] else ts

def Literal.tokens : Literal → List Token
  | .int v => if v < 0 then [Token.symbol .minus, .int (-v.toInt)] else [.int v.toInt]
  | .long v => if v < 0 then [Token.symbol .minus, .long (-v)] else [.long v]
  | .bool b => [Token.keyword (if b then .kwTrue else .kwFalse)]
  | .char u => [.char u]
  | .str s => [.str s]
  | .null => [Token.keyword .kwNull]

@[simp] def dottedTokens : List String → List Token
  | [] => []
  | n :: names => Token.symbol .dot :: Token.ident n :: dottedTokens names

@[simp] def bracketTokens : Nat → List Token
  | 0 => []
  | n + 1 => Token.symbol .bracketOpen :: Token.symbol .bracketClose :: bracketTokens n

def TypeHead.tokens : TypeHead → List Token
  | .void => [Token.keyword .kwVoid]
  | .primitive p => [Token.keyword p.word]
  | .named first more => Token.ident first :: dottedTokens more

def TypeName.tokens (t : TypeName) : List Token := t.head.tokens ++ bracketTokens t.dims

def TypeName.isClass (t : TypeName) : Bool :=
  match t.head with
  | .named .. => true
  | _ => false

mutual

/-- An expression.  A cast to a class cannot be told from a sum in front of a minus, so a negative
number stands in parentheses there. -/
@[simp] def Expr.tokens : Expr → List Token
  | .literal v _ => v.tokens
  | .this _ => [Token.keyword .kwThis]
  | .name n _ => [Token.ident n]
  | .field target n _ =>
    wrapIf (0 < target.looseness) target.tokens ++ [Token.symbol .dot, Token.ident n]
  | .call n args _ => Token.ident n :: Token.symbol .parenOpen :: argTokens [] args
  | .callOn target n args _ =>
    wrapIf (0 < target.looseness) target.tokens ++
      Token.symbol .dot :: Token.ident n :: Token.symbol .parenOpen :: argTokens [] args
  | .not e _ => Token.symbol .bang :: wrapIf (1 < e.looseness) e.tokens
  | .binary op l r _ =>
    wrapIf (op.looseness < l.looseness) l.tokens ++
      Token.symbol op.symbol :: wrapIf (op.looseness ≤ r.looseness) r.tokens
  | .cast type e _ =>
    Token.symbol .parenOpen :: type.tokens ++
      Token.symbol .parenClose :: wrapIf (1 < e.looseness || type.isClass && e.isNegative) e.tokens

/-- Arguments and the parenthesis that closes them.  `sep` stands before the next argument. -/
@[simp] def argTokens (sep : List Token) : List Expr → List Token
  | [] => [Token.symbol .parenClose]
  | e :: es => sep ++ e.tokens ++ argTokens [Token.symbol .comma] es

end

mutual

@[simp] def Stmt.tokens : Stmt → List Token
  | .declare type n init _ =>
    type.tokens ++ Token.ident n :: Token.symbol .assign :: init.tokens ++ [Token.symbol .semicolon]
  | .ifThen c yes _ =>
    Token.keyword .kwIf :: Token.symbol .parenOpen :: c.tokens ++ Token.symbol .parenClose ::
      yes.tokens
  | .ifElse c yes no _ =>
    Token.keyword .kwIf :: Token.symbol .parenOpen :: c.tokens ++
      Token.symbol .parenClose :: yes.tokens ++ Token.keyword .kwElse :: no.tokens
  | .ret _ => [Token.keyword .kwReturn, Token.symbol .semicolon]
  | .retValue e _ => Token.keyword .kwReturn :: e.tokens ++ [Token.symbol .semicolon]
  | .call e _ => e.tokens ++ [Token.symbol .semicolon]
  | .block stmts _ => Token.symbol .braceOpen :: bodyTokens stmts

@[simp] def bodyTokens : List Stmt → List Token
  | [] => [Token.symbol .braceClose]
  | s :: stmts => s.tokens ++ bodyTokens stmts

end

def Param.tokens (p : Param) : List Token := p.type.tokens ++ [Token.ident p.name]

/-- Parameters and the parenthesis that closes them.  `sep` stands before the next parameter. -/
@[simp] def paramTokens (sep : List Token) : List Param → List Token
  | [] => [Token.symbol .parenClose]
  | p :: ps => sep ++ p.tokens ++ paramTokens [Token.symbol .comma] ps

def MethodDecl.tokens (m : MethodDecl) : List Token :=
  m.modifiers.map Token.keyword ++ m.returnType.tokens ++ Token.ident m.name ::
    Token.symbol .parenOpen ::
    paramTokens [] m.params ++ Token.symbol .braceOpen :: bodyTokens m.body

/-! ## 3. The grammar -/

/-- True for the names that can be written: letters first, and no reserved word. -/
def isIdentifier (name : String) : Bool :=
  match name.toList with
  | [] => false
  | c :: rest => startsName c && rest.all continuesName && (Keyword.ofText? name).isNone

/-- A type other than `void`. -/
def TypeHead.Grammatical : TypeHead → Prop
  | .void => False
  | .primitive _ => True
  | .named first more => ∀ n ∈ first :: more, isIdentifier n = true

mutual

/-- Names are identifiers, and no cast is to `void`. -/
@[simp] def Expr.Grammatical : Expr → Prop
  | .literal .. | .this _ => True
  | .name n _ => isIdentifier n = true
  | .field target n _ => target.Grammatical ∧ isIdentifier n = true
  | .call n args _ => isIdentifier n = true ∧ AllGrammatical args
  | .callOn target n args _ => target.Grammatical ∧ isIdentifier n = true ∧ AllGrammatical args
  | .not e _ => e.Grammatical
  | .binary _ l r _ => l.Grammatical ∧ r.Grammatical
  | .cast type e _ => type.head.Grammatical ∧ e.Grammatical

@[simp] def AllGrammatical : List Expr → Prop
  | [] => True
  | e :: es => e.Grammatical ∧ AllGrammatical es

end

/-- True for a statement that ends in an `if` without `else`, which would take an `else` that
follows. -/
def Stmt.endsOpen : Stmt → Bool
  | .ifThen .. => true
  | .ifElse _ _ no _ => no.endsOpen
  | _ => false

mutual

/-- Only calls stand as statements, and the `else` of an `if` belongs to no `if` inside it. -/
@[simp] def Stmt.Grammatical : Stmt → Prop
  | .declare type n init _ => type.head.Grammatical ∧ isIdentifier n = true ∧ init.Grammatical
  | .ifThen c yes _ => c.Grammatical ∧ yes.Grammatical
  | .ifElse c yes no _ => c.Grammatical ∧ yes.Grammatical ∧ yes.endsOpen = false ∧ no.Grammatical
  | .ret _ => True
  | .retValue e _ => e.Grammatical
  | .call e _ => e.Grammatical ∧ e.isCall = true
  | .block stmts _ => BodyGrammatical stmts

@[simp] def BodyGrammatical : List Stmt → Prop
  | [] => True
  | s :: stmts => s.Grammatical ∧ BodyGrammatical stmts

end

/-- A declaration of the grammar. -/
structure MethodDecl.Grammatical (m : MethodDecl) : Prop where
  modifiers : ∀ k ∈ m.modifiers, k.isModifier = true
  /-- Only a method may be `void`, and no array is. -/
  returnType : m.returnType.isVoid = true ∨ m.returnType.head.Grammatical
  name : isIdentifier m.name = true
  params : ∀ p ∈ m.params, p.type.head.Grammatical ∧ isIdentifier p.name = true
  body : BodyGrammatical m.body

/-! ## 4. Lines -/

def TypeName.unlined (t : TypeName) : TypeName := { t with line := 0 }

mutual

@[simp] def Expr.unlined : Expr → Expr
  | .literal v _ => .literal v 0
  | .this _ => .this 0
  | .name n _ => .name n 0
  | .field target n _ => .field target.unlined n 0
  | .call n args _ => .call n (unlinedArgs args) 0
  | .callOn target n args _ => .callOn target.unlined n (unlinedArgs args) 0
  | .not e _ => .not e.unlined 0
  | .binary op l r _ => .binary op l.unlined r.unlined 0
  | .cast type e _ => .cast type.unlined e.unlined 0

@[simp] def unlinedArgs : List Expr → List Expr
  | [] => []
  | e :: es => e.unlined :: unlinedArgs es

end

mutual

@[simp] def Stmt.unlined : Stmt → Stmt
  | .declare type n init _ => .declare type.unlined n init.unlined 0
  | .ifThen c yes _ => .ifThen c.unlined yes.unlined 0
  | .ifElse c yes no _ => .ifElse c.unlined yes.unlined no.unlined 0
  | .ret _ => .ret 0
  | .retValue e _ => .retValue e.unlined 0
  | .call e _ => .call e.unlined 0
  | .block stmts _ => .block (unlinedBody stmts) 0

@[simp] def unlinedBody : List Stmt → List Stmt
  | [] => []
  | s :: stmts => s.unlined :: unlinedBody stmts

end

def Param.unlined (p : Param) : Param := { p with type := p.type.unlined, line := 0 }

def MethodDecl.unlined (m : MethodDecl) : MethodDecl where
  modifiers := m.modifiers
  returnType := m.returnType.unlined
  name := m.name
  params := m.params.map Param.unlined
  body := unlinedBody m.body
  endLine := 0
  line := 0

end MethodGraft.Source
