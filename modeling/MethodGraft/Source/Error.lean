import MethodGraft.Source.Token

/-!
# Source.Error — why source text is refused

Text outside the grammar, or grammatical text that no method can have, is a syntax error; text that
is good Java but outside the accepted part of it is an unsupported construct.  Both carry the line
they were met on.
-/

namespace MethodGraft.Source

def foundText : Option Token → String
  | none => ", reached end of input"
  | some (.ident name) => ", found " ++ name
  | some (.keyword word) => ", found " ++ word.text
  | some (.symbol s) => ", found '" ++ s.text ++ "'"
  | some _ => ", found a literal"

inductive Wanted where
  | symbol (s : Symbol)
  | identifier
  | type
  deriving DecidableEq, Repr

def Wanted.text : Wanted → String
  | .symbol s => "'" ++ s.text ++ "'"
  | .identifier => "<identifier>"
  | .type => "<type>"

inductive SyntaxFault where
  | unclosedComment
  | unclosedString
  | malformedChar
  | numberTooLarge
  | illegalCharacter (c : Char)
  | expected (wanted : Wanted) (found : Option Token)
  | inputAfterBody
  | voidType
  | endOfInput
  | strayElse
  | notAStatement
  | noExpression (found : Option Token)
  -- grammatical, but no method
  | repeatedModifier (word : Keyword)
  | modifierCombination
  | missingReturn
  | unreachable
  | declarationAsBranch
  deriving DecidableEq, Repr

def SyntaxFault.text : SyntaxFault → String
  | .unclosedComment => "unclosed comment"
  | .unclosedString => "unclosed string literal"
  | .malformedChar => "malformed character literal"
  | .numberTooLarge => "integer number too large"
  | .illegalCharacter c => "illegal character '" ++ c.toString ++ "'"
  | .expected wanted found => wanted.text ++ " expected" ++ foundText found
  | .inputAfterBody => "unexpected input after the method body"
  | .voidType => "'void' type not allowed here"
  | .endOfInput => "reached end of input while parsing"
  | .strayElse => "'else' without 'if'"
  | .notAStatement => "not a statement"
  | .noExpression found => "illegal start of expression" ++ foundText found
  | .repeatedModifier word => "repeated modifier " ++ word.text
  | .modifierCombination => "illegal combination of modifiers"
  | .missingReturn => "missing return statement"
  | .unreachable => "unreachable statement"
  | .declarationAsBranch => "variable declaration not allowed here"

inductive Construct where
  | modifier (word : Keyword)
  | annotationUse
  | genericMethod
  | throwsClause
  | variableArity
  | genericType
  | emptyStatement
  | statement (word : Keyword)
  | localWithoutInitializer
  | arrayDeclarator
  | multipleDeclarators
  | assignment
  | compoundAssignment
  | increment
  | decrement
  /-- A binary operator on numbers. -/
  | arithmetic (s : Symbol)
  | bitwise (s : Symbol)
  | shift
  | conditional
  | arrayAccess
  | lambda
  | methodReference
  | instanceOf
  | negation
  | unaryPlus
  | complement
  | innerClassCreation
  | classLiteral
  | qualifiedThis
  | qualifiedSuper
  | typeArguments
  | floatLiteral
  | constructorInvocation
  | superReference
  | objectCreation
  | switchExpression
  | arrayInitializer
  -- told by types
  | misplacedFieldRead
  | unboxing
  | boxing
  | narrowing
  | arrayLength
  | staticThroughInstance
  | floatArithmetic
  | floatComparison
  deriving DecidableEq, Repr

def Construct.text : Construct → String
  | .modifier word => "modifier " ++ word.text
  | .annotationUse => "annotation"
  | .genericMethod => "generic method"
  | .throwsClause => "throws clause"
  | .variableArity => "variable arity parameter"
  | .genericType => "generic type"
  | .emptyStatement => "empty statement"
  | .statement word => word.text ++ " statement"
  | .localWithoutInitializer => "local variable without initializer"
  | .arrayDeclarator => "array declarator after variable name"
  | .multipleDeclarators => "multiple variable declarators"
  | .assignment => "assignment"
  | .compoundAssignment => "compound assignment"
  | .increment => "increment operator"
  | .decrement => "decrement operator"
  | .arithmetic s => "arithmetic operator '" ++ s.text ++ "'"
  | .bitwise s => "bitwise operator '" ++ s.text ++ "'"
  | .shift => "shift operator"
  | .conditional => "conditional expression"
  | .arrayAccess => "array access"
  | .lambda => "lambda expression"
  | .methodReference => "method reference"
  | .instanceOf => "instanceof operator"
  | .negation => "arithmetic negation"
  | .unaryPlus => "unary plus"
  | .complement => "bitwise complement"
  | .innerClassCreation => "inner class creation"
  | .classLiteral => "class literal"
  | .qualifiedThis => "qualified this"
  | .qualifiedSuper => "qualified super"
  | .typeArguments => "explicit type arguments"
  | .floatLiteral => "floating point literal"
  | .constructorInvocation => "constructor invocation"
  | .superReference => "super reference"
  | .objectCreation => "object creation"
  | .switchExpression => "switch expression"
  | .arrayInitializer => "array initializer"
  | .misplacedFieldRead => "readField outside a local variable initializer"
  | .unboxing => "unboxing conversion"
  | .boxing => "boxing conversion"
  | .narrowing => "narrowing primitive conversion"
  | .arrayLength => "array length"
  | .staticThroughInstance => "static field accessed through an instance"
  | .floatArithmetic => "floating point arithmetic"
  | .floatComparison => "floating point comparison"

inductive Error where
  | syntaxFault (line : Nat) (fault : SyntaxFault)
  | unsupported (line : Nat) (construct : Construct)
  deriving DecidableEq, Repr

def Error.line : Error → Nat
  | .syntaxFault line _ => line
  | .unsupported line _ => line

def Error.message : Error → String
  | .syntaxFault line fault => "line " ++ toString line ++ ": syntax error: " ++ fault.text
  | .unsupported line construct =>
    "line " ++ toString line ++ ": unsupported construct: " ++ construct.text

end MethodGraft.Source
