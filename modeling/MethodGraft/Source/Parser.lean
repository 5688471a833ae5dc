import MethodGraft.Source.Decl
import MethodGraft.Source.Error

/-!
# Source.Parser — tokens as a method declaration

A recursive descent parser.  Operators bind in the order `||`, `&&`, equality, relation, `+`, from
the loosest to the tightest, and associate to the left; then come the unary forms, and then calls
and field accesses.  What follows a complete expression but lies outside the language is refused by
name.

The parsers that recurse take a number that is at least the number of tokens left.  Each step down
consumes a token, so where the number is 0 no token is left, and the answer given there is the one
for the end of the input.
-/

namespace MethodGraft.Source

/-- A parser reads tokens from the front.  It knows the line of the last token of the whole text, on
which the end of the input is reported. -/
abbrev Parser := ReaderT Nat (StateT (List Lexeme) (Except Error))

namespace Parser

/-! ## 1. Looking and taking -/

def tokens : Parser (List Lexeme) := getThe (List Lexeme)

def peek : Parser (Option Token) := return (← tokens).head?.map Lexeme.token

def line : Parser Nat := do
  match ← tokens with
  | l :: _ => return l.line
  | [] => read

def advance (n : Nat) : Parser Unit := modifyThe (List Lexeme) (·.drop n)

def failAt {α : Type} (line : Nat) (fault : SyntaxFault) : Parser α :=
  throw (.syntaxFault line fault)

def failHere {α : Type} (fault : SyntaxFault) : Parser α := do failAt (← line) fault

def unsupported {α : Type} (construct : Construct) : Parser α := do
  throw (.unsupported (← line) construct)

def atSymbol (s : Symbol) : Parser Bool := return (← peek) == some (.symbol s)

def atKeyword (k : Keyword) : Parser Bool := return (← peek) == some (.keyword k)

def eatSymbol (s : Symbol) : Parser Bool := do
  if ← atSymbol s then
    advance 1
    return true
  else return false

def eatKeyword (k : Keyword) : Parser Bool := do
  if ← atKeyword k then
    advance 1
    return true
  else return false

def expectSymbol (s : Symbol) : Parser Unit := do
  if !(← eatSymbol s) then failHere (.expected (.symbol s) (← peek))

def expectIdent : Parser String := do
  match ← peek with
  | some (.ident name) =>
    advance 1
    return name
  | found => failHere (.expected .identifier found)

/-! ## 2. Looking ahead -/

def takeDotted : List Lexeme → List String × List Lexeme
  | ⟨.symbol .dot, _⟩ :: ⟨.ident name, _⟩ :: rest =>
    let (names, rest) := takeDotted rest
    (name :: names, rest)
  | rest => ([], rest)

def takeBrackets : List Lexeme → Nat × List Lexeme
  | ⟨.symbol .bracketOpen, _⟩ :: ⟨.symbol .bracketClose, _⟩ :: rest =>
    let (n, rest) := takeBrackets rest
    (n + 1, rest)
  | rest => (0, rest)

def startsWithIdent : List Lexeme → Bool
  | ⟨.ident _, _⟩ :: _ => true
  | _ => false

/-- True if the tokens read as a type and a name, which starts a declaration.  `List<String> x` and
`a < b` look alike here; both are refused later. -/
def looksLikeDeclaration : List Lexeme → Bool
  | ⟨.keyword k, _⟩ :: rest => k.primitive?.isSome && startsWithIdent (takeBrackets rest).2
  | ⟨.ident _, _⟩ :: rest =>
    match (takeDotted rest).2 with
    -- a type argument: what follows cannot be told from a comparison yet
    | ⟨.symbol .less, _⟩ :: _ => true
    | rest => startsWithIdent (takeBrackets rest).2
  | _ => false

def startsCastOperand : Token → Bool
  | .ident _ | .int _ | .long _ | .char _ | .str _ | .float _ => true
  | .keyword .kwThis | .keyword .kwTrue | .keyword .kwFalse | .keyword .kwNull
  | .keyword .kwNew | .keyword .kwSuper => true
  | .symbol .parenOpen | .symbol .bang => true
  | _ => false

/-- After an opening parenthesis: true if what follows is the type of a cast. -/
def looksLikeCast : List Lexeme → Bool
  -- no expression in parentheses starts with the name of a primitive type
  | ⟨.keyword k, _⟩ :: _ => k.primitive?.isSome
  | ⟨.ident _, _⟩ :: rest =>
    match (takeBrackets (takeDotted rest).2).2 with
    -- `(a) - b` is a difference: no cast to a class has an operand that starts with a sign
    | ⟨.symbol .parenClose, _⟩ :: ⟨next, _⟩ :: _ => startsCastOperand next
    | _ => false
  | _ => false

/-! ## 3. Types -/

def typeDims (head : TypeHead) (line : Nat) : Parser TypeName := do
  let (dims, rest) := takeBrackets (← tokens)
  set rest
  if dims > 0 ∧ head = .void then failAt line .voidType
  return ⟨head, dims, line⟩

/-- Reads a type; `void` is one only where it is allowed. -/
def typeName (allowVoid : Bool) : Parser TypeName := do
  let line ← line
  let found ← peek
  match found with
  | some (.ident first) =>
    advance 1
    let (more, rest) := takeDotted (← tokens)
    set rest
    if ← atSymbol .less then unsupported .genericType
    typeDims (.named first more) line
  | some (.keyword k) =>
    match k.primitive? with
    | some p =>
      advance 1
      typeDims (.primitive p) line
    | none =>
      if k = .kwVoid ∧ allowVoid then
        advance 1
        typeDims .void line
      else failAt line (.expected .type found)
  | _ => failAt line (.expected .type found)

/-! ## 4. Expressions -/

def refusedOperator? : Symbol → Option Construct
  | .assign => some .assignment
  | .plusAssign | .minusAssign | .timesAssign | .divAssign | .modAssign | .andAssign | .orAssign
  | .xorAssign | .shlAssign | .shrAssign | .ushrAssign => some .compoundAssignment
  | .increment => some .increment
  | .decrement => some .decrement
  | .minus => some (.arithmetic .minus)
  | .star => some (.arithmetic .star)
  | .slash => some (.arithmetic .slash)
  | .percent => some (.arithmetic .percent)
  | .amp => some (.bitwise .amp)
  | .bar => some (.bitwise .bar)
  | .caret => some (.bitwise .caret)
  | .shl | .shr | .ushr => some .shift
  | .question => some .conditional
  | .bracketOpen => some .arrayAccess
  | .arrow => some .lambda
  | .doubleColon => some .methodReference
  | _ => none

def refuseOperators : Parser Unit := do
  match ← peek with
  | some (.symbol s) =>
    match refusedOperator? s with
    | some construct => unsupported construct
    | none => return
  | some (.keyword .kwInstanceof) => unsupported .instanceOf
  | _ => return

/-- Reads the arguments of a call up to the closing parenthesis; one must come first.  `args` holds
those already read, the last one first. -/
def argsFrom (expr : Parser Expr) : (fuel : Nat) → (args : List Expr) → Parser (List Expr)
  | 0, _ => failHere .endOfInput
  | fuel + 1, args => do
    let arg ← expr
    if ← eatSymbol .parenClose then return (arg :: args).reverse
    expectSymbol .comma
    argsFrom expr fuel (arg :: args)

def args (expr : Parser Expr) (fuel : Nat) : Parser (List Expr) := do
  expectSymbol .parenOpen
  if ← eatSymbol .parenClose then return []
  argsFrom expr fuel []

def takeLiteral (value : Literal) (line : Nat) : Parser Expr := do
  advance 1
  return .literal value line

def keywordPrimary (k : Keyword) (line : Nat) : Parser Expr := do
  match k with
  | .kwTrue => takeLiteral (.bool true) line
  | .kwFalse => takeLiteral (.bool false) line
  | .kwNull => takeLiteral .null line
  | .kwThis =>
    advance 1
    if ← atSymbol .parenOpen then unsupported .constructorInvocation
    return .this line
  | .kwSuper => unsupported .superReference
  | .kwNew => unsupported .objectCreation
  | .kwSwitch => unsupported .switchExpression
  | k =>
    if k.primitive?.isSome then unsupported .classLiteral
    else failAt line (.noExpression (some (.keyword k)))

def primary (expr : Parser Expr) (fuel : Nat) : Parser Expr := do
  let line ← line
  match ← peek with
  | none => failAt line .endOfInput
  | some (.int v) =>
    advance 1
    -- the magnitude 2147483648 is for `negative` alone
    if v > 2147483647 then failAt line .numberTooLarge
    return .literal (.int (Int32.ofInt v)) line
  | some (.long v) =>
    advance 1
    -- the token of 9223372036854775808L, and of the same bits in hexadecimal or octal
    if v = Int64.minValue then failAt line .numberTooLarge
    return .literal (.long v) line
  | some (.char u) => takeLiteral (.char u) line
  | some (.str s) => takeLiteral (.str s) line
  | some (.float _) => unsupported .floatLiteral
  | some (.keyword k) => keywordPrimary k line
  | some (.ident name) =>
    advance 1
    if ← atSymbol .parenOpen then return .call name (← args expr fuel) line
    else return .name name line
  | some (.symbol .parenOpen) =>
    advance 1
    let e ← expr
    expectSymbol .parenClose
    return e
  | some (.symbol .braceOpen) => unsupported .arrayInitializer
  | some (.symbol s) => failAt line (.noExpression (some (.symbol s)))

def memberName : Parser String := do
  match ← peek with
  | some (.keyword .kwNew) => unsupported .innerClassCreation
  | some (.keyword .kwClass) => unsupported .classLiteral
  | some (.keyword .kwThis) => unsupported .qualifiedThis
  | some (.keyword .kwSuper) => unsupported .qualifiedSuper
  | some (.symbol .less) => unsupported .typeArguments
  | _ => expectIdent

def accesses (expr : Parser Expr) : (fuel : Nat) → (target : Expr) → Parser Expr
  | 0, target => return target
  | fuel + 1, target => do
    let line ← line
    if ← eatSymbol .dot then
      let name ← memberName
      if ← atSymbol .parenOpen then
        -- the line of a call is that of its dot
        let args ← args expr fuel
        accesses expr fuel (.callOn target name args line)
      else accesses expr fuel (.field target name line)
    else return target

def postfixExpr (expr : Parser Expr) (fuel : Nat) : Parser Expr := do
  let e ← primary expr fuel
  accesses expr fuel e

/-- Reads a number after a minus.  A literal keeps the width of its token. -/
def negative (line : Nat) : Parser Expr := do
  match ← tokens with
  | _ :: ⟨.int v, _⟩ :: rest =>
    set rest
    return .literal (.int (Int32.ofInt (-v))) line
  | _ :: ⟨.long v, _⟩ :: rest =>
    set rest
    return .literal (.long (-v)) line
  -- only literals have a sign
  | _ => unsupported .negation

def unary (expr : Parser Expr) : (fuel : Nat) → Parser Expr
  | 0 => failHere .endOfInput
  | fuel + 1 => do
    let line ← line
    match ← tokens with
    | ⟨.symbol .bang, _⟩ :: _ =>
      advance 1
      return .not (← unary expr fuel) line
    | ⟨.symbol .minus, _⟩ :: _ => negative line
    | ⟨.symbol .plus, _⟩ :: _ => unsupported .unaryPlus
    | ⟨.symbol .tilde, _⟩ :: _ => unsupported .complement
    | ⟨.symbol .increment, _⟩ :: _ => unsupported .increment
    | ⟨.symbol .decrement, _⟩ :: _ => unsupported .decrement
    | ⟨.symbol .parenOpen, _⟩ :: rest =>
      if looksLikeCast rest then
        advance 1
        let type ← typeName false
        expectSymbol .parenClose
        return .cast type (← unary expr fuel) line
      else postfixExpr expr fuel
    | _ => postfixExpr expr fuel

inductive Level where
  | or
  | and
  | equality
  | relation
  | sum
  deriving DecidableEq, Repr

def Level.operator? : Level → Symbol → Option BinaryOp
  | .or, .orOr => some .or
  | .and, .andAnd => some .and
  | .equality, .eqEq => some .eq
  | .equality, .notEq => some .ne
  | .relation, .less => some .lt
  | .relation, .lessEq => some .le
  | .relation, .greater => some .gt
  | .relation, .greaterEq => some .ge
  | .sum, .plus => some .add
  | _, _ => none

def nextOperator (level : Level) : Parser (Option BinaryOp) := do
  match ← peek with
  | some (.symbol s) => return level.operator? s
  | _ => return none

/-- Reads further operands at a level; `lhs` holds the expression so far. -/
def operands (level : Level) (next : Parser Expr) : (fuel : Nat) → (lhs : Expr) → Parser Expr
  | 0, lhs => return lhs
  | fuel + 1, lhs => do
    let line ← line
    match ← nextOperator level with
    | some op =>
      advance 1
      let rhs ← next
      operands level next fuel (.binary op lhs rhs line)
    | none => return lhs

def binary (level : Level) (fuel : Nat) (next : Parser Expr) : Parser Expr := do
  operands level next fuel (← next)

def expr : (fuel : Nat) → Parser Expr
  | 0 => failHere .endOfInput
  | fuel + 1 => do
    let n := fuel + 1
    let e ← binary .or n <| binary .and n <| binary .equality n <| binary .relation n <|
      binary .sum n <| unary (expr fuel) n
    -- an operator left over here belongs to no level
    refuseOperators
    return e

/-! ## 5. Statements -/

/-- Reads a local variable with its initial value, after `final` if that was written. -/
def localVariable (fuel line : Nat) : Parser Stmt := do
  let type ← typeName false
  let name ← expectIdent
  match ← peek with
  | some (.symbol .semicolon) | some (.symbol .comma) => unsupported .localWithoutInitializer
  | some (.symbol .bracketOpen) => unsupported .arrayDeclarator
  | _ =>
    expectSymbol .assign
    let init ← expr fuel
    if ← atSymbol .comma then unsupported .multipleDeclarators
    expectSymbol .semicolon
    return .declare type name init line

/-- Reads statements up to the closing brace, and its line.  `stmts` holds those already read, the
last one first. -/
def stmtsFrom (stmt : Parser Stmt) : (fuel : Nat) → (stmts : List Stmt) →
    Parser (List Stmt × Nat)
  | 0, _ => failHere .endOfInput
  | fuel + 1, stmts => do
    match ← peek with
    | some (.symbol .braceClose) =>
      let line ← line
      advance 1
      return (stmts.reverse, line)
    | none => failHere .endOfInput
    | _ =>
      let s ← stmt
      stmtsFrom stmt fuel (s :: stmts)

def block (stmt : Parser Stmt) (fuel : Nat) : Parser (List Stmt × Nat) := do
  expectSymbol .braceOpen
  stmtsFrom stmt fuel []

def ifRest (stmt : Parser Stmt) (fuel line : Nat) : Parser Stmt := do
  expectSymbol .parenOpen
  let condition ← expr fuel
  expectSymbol .parenClose
  let yes ← stmt
  if ← eatKeyword .kwElse then return .ifElse condition yes (← stmt) line
  else return .ifThen condition yes line

def returnRest (fuel line : Nat) : Parser Stmt := do
  if ← eatSymbol .semicolon then return .ret line
  let value ← expr fuel
  expectSymbol .semicolon
  return .retValue value line

def plainStmt (fuel line : Nat) : Parser Stmt := do
  if looksLikeDeclaration (← tokens) then localVariable fuel line
  else
    let e ← expr fuel
    expectSymbol .semicolon
    -- the semicolon is read first, so that what is missing is reported before what is wrong
    if e.isCall then return .call e line else failAt line .notAStatement

def stmt : (fuel : Nat) → Parser Stmt
  | 0 => failHere .endOfInput
  | fuel + 1 => do
    let line ← line
    match ← peek with
    | some (.symbol .braceOpen) =>
      let (stmts, endLine) ← block (stmt fuel) fuel
      return .block stmts endLine
    | some (.symbol .semicolon) => unsupported .emptyStatement
    | some (.symbol .at) => unsupported .annotationUse
    | some (.keyword .kwIf) =>
      advance 1
      ifRest (stmt fuel) fuel line
    | some (.keyword .kwReturn) =>
      advance 1
      returnRest fuel line
    | some (.keyword .kwFinal) =>
      advance 1
      localVariable fuel line
    | some (.keyword .kwElse) => failAt line .strayElse
    | some (.keyword k) =>
      if k.startsForeignStatement then unsupported (.statement k) else plainStmt (fuel + 1) line
    | _ => plainStmt (fuel + 1) line

/-! ## 6. Methods -/

/-- Reads the modifiers before a method; `words` holds those already read, the last one first. -/
def modifiersFrom : (fuel : Nat) → (words : List Keyword) → Parser (List Keyword)
  | 0, words => return words.reverse
  | fuel + 1, words => do
    match ← peek with
    | some (.keyword k) =>
      if k.isModifier then
        advance 1
        modifiersFrom fuel (k :: words)
      else if k.isForeignModifier then unsupported (.modifier k)
      else return words.reverse
    | some (.symbol .at) => unsupported .annotationUse
    | _ => return words.reverse

def param : Parser Param := do
  if ← atSymbol .at then unsupported .annotationUse
  let _ ← eatKeyword .kwFinal
  let line ← line
  let type ← typeName false
  if ← atSymbol .ellipsis then unsupported .variableArity
  let name ← expectIdent
  return ⟨type, name, line⟩

/-- Reads parameters up to the closing parenthesis; one must come first.  `params` holds those
already read, the last one first. -/
def paramsFrom : (fuel : Nat) → (params : List Param) → Parser (List Param)
  | 0, _ => failHere (.expected .type none)
  | fuel + 1, params => do
    let p ← param
    if ← eatSymbol .parenClose then return (p :: params).reverse
    expectSymbol .comma
    paramsFrom fuel (p :: params)

def params (fuel : Nat) : Parser (List Param) := do
  expectSymbol .parenOpen
  if ← eatSymbol .parenClose then return []
  paramsFrom fuel []

def method (fuel : Nat) : Parser MethodDecl := do
  let line ← line
  let modifiers ← modifiersFrom fuel []
  if ← atSymbol .less then unsupported .genericMethod
  let returnType ← typeName true
  let name ← expectIdent
  let params ← params fuel
  if ← atKeyword .kwThrows then unsupported .throwsClause
  let (body, endLine) ← block (stmt fuel) fuel
  -- a second method, or a brace too many
  if (← peek).isSome then failHere .inputAfterBody
  return { modifiers, returnType, name, params, body, endLine, line }

end Parser

def parseMethod (tokens : List Lexeme) : Except Error MethodDecl := do
  let lastLine := (tokens.getLast?.map Lexeme.line).getD 1
  let (decl, _) ← ((Parser.method tokens.length).run lastLine).run tokens
  return decl

end MethodGraft.Source
