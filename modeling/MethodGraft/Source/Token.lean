import MethodGraft.ClassFile.Descriptor

/-!
# Source.Token — the words of the method language

The language is a small part of Java: every word and every symbol of it is known here, also those
that no accepted method uses, so that they can be refused by name.
-/

namespace MethodGraft.Source

/-! ## 1. Keywords -/

inductive Keyword where
  | kwAbstract
  | kwAssert
  | kwBoolean
  | kwBreak
  | kwByte
  | kwCase
  | kwCatch
  | kwChar
  | kwClass
  | kwConst
  | kwContinue
  | kwDefault
  | kwDo
  | kwDouble
  | kwElse
  | kwEnum
  | kwExtends
  | kwFalse
  | kwFinal
  | kwFinally
  | kwFloat
  | kwFor
  | kwGoto
  | kwIf
  | kwImplements
  | kwImport
  | kwInstanceof
  | kwInt
  | kwInterface
  | kwLong
  | kwNative
  | kwNew
  | kwNull
  | kwPackage
  | kwPrivate
  | kwProtected
  | kwPublic
  | kwReturn
  | kwShort
  | kwStatic
  | kwStrictfp
  | kwSuper
  | kwSwitch
  | kwSynchronized
  | kwThis
  | kwThrow
  | kwThrows
  | kwTransient
  | kwTrue
  | kwTry
  | kwVoid
  | kwVolatile
  | kwWhile
  deriving DecidableEq, Repr

namespace Keyword

def all : List Keyword := [
  .kwAbstract, .kwAssert, .kwBoolean, .kwBreak, .kwByte, .kwCase, .kwCatch, .kwChar, .kwClass,
  .kwConst, .kwContinue, .kwDefault, .kwDo, .kwDouble, .kwElse, .kwEnum, .kwExtends, .kwFalse,
  .kwFinal, .kwFinally, .kwFloat, .kwFor, .kwGoto, .kwIf, .kwImplements, .kwImport,
  .kwInstanceof, .kwInt, .kwInterface, .kwLong, .kwNative, .kwNew, .kwNull, .kwPackage,
  .kwPrivate, .kwProtected, .kwPublic, .kwReturn, .kwShort, .kwStatic, .kwStrictfp, .kwSuper,
  .kwSwitch, .kwSynchronized, .kwThis, .kwThrow, .kwThrows, .kwTransient, .kwTrue, .kwTry,
  .kwVoid, .kwVolatile, .kwWhile]

def text : Keyword → String
  | .kwAbstract => "abstract"
  | .kwAssert => "assert"
  | .kwBoolean => "boolean"
  | .kwBreak => "break"
  | .kwByte => "byte"
  | .kwCase => "case"
  | .kwCatch => "catch"
  | .kwChar => "char"
  | .kwClass => "class"
  | .kwConst => "const"
  | .kwContinue => "continue"
  | .kwDefault => "default"
  | .kwDo => "do"
  | .kwDouble => "double"
  | .kwElse => "else"
  | .kwEnum => "enum"
  | .kwExtends => "extends"
  | .kwFalse => "false"
  | .kwFinal => "final"
  | .kwFinally => "finally"
  | .kwFloat => "float"
  | .kwFor => "for"
  | .kwGoto => "goto"
  | .kwIf => "if"
  | .kwImplements => "implements"
  | .kwImport => "import"
  | .kwInstanceof => "instanceof"
  | .kwInt => "int"
  | .kwInterface => "interface"
  | .kwLong => "long"
  | .kwNative => "native"
  | .kwNew => "new"
  | .kwNull => "null"
  | .kwPackage => "package"
  | .kwPrivate => "private"
  | .kwProtected => "protected"
  | .kwPublic => "public"
  | .kwReturn => "return"
  | .kwShort => "short"
  | .kwStatic => "static"
  | .kwStrictfp => "strictfp"
  | .kwSuper => "super"
  | .kwSwitch => "switch"
  | .kwSynchronized => "synchronized"
  | .kwThis => "this"
  | .kwThrow => "throw"
  | .kwThrows => "throws"
  | .kwTransient => "transient"
  | .kwTrue => "true"
  | .kwTry => "try"
  | .kwVoid => "void"
  | .kwVolatile => "volatile"
  | .kwWhile => "while"

def ofText? (s : String) : Option Keyword := all.find? fun k => k.text == s

end Keyword

/-! ## 2. Symbols -/

inductive Symbol where
  | ushrAssign
  | shlAssign
  | shrAssign
  | ushr
  | ellipsis
  | arrow
  | doubleColon
  | increment
  | decrement
  | andAnd
  | orOr
  | eqEq
  | notEq
  | lessEq
  | greaterEq
  | plusAssign
  | minusAssign
  | timesAssign
  | divAssign
  | modAssign
  | andAssign
  | orAssign
  | xorAssign
  | shl
  | shr
  | parenOpen
  | parenClose
  | braceOpen
  | braceClose
  | bracketOpen
  | bracketClose
  | semicolon
  | comma
  | dot
  | at
  | assign
  | greater
  | less
  | bang
  | tilde
  | question
  | colon
  | plus
  | minus
  | star
  | slash
  | amp
  | bar
  | caret
  | percent
  deriving DecidableEq, Repr

namespace Symbol

def all : List Symbol := [
  .ushrAssign, .shlAssign, .shrAssign, .ushr, .ellipsis, .arrow, .doubleColon, .increment,
  .decrement, .andAnd, .orOr, .eqEq, .notEq, .lessEq, .greaterEq, .plusAssign, .minusAssign,
  .timesAssign, .divAssign, .modAssign, .andAssign, .orAssign, .xorAssign, .shl, .shr,
  .parenOpen, .parenClose, .braceOpen, .braceClose, .bracketOpen, .bracketClose, .semicolon,
  .comma, .dot, .at, .assign, .greater, .less, .bang, .tilde, .question, .colon, .plus, .minus,
  .star, .slash, .amp, .bar, .caret, .percent]

def text : Symbol → String
  | .ushrAssign => ">>>="
  | .shlAssign => "<<="
  | .shrAssign => ">>="
  | .ushr => ">>>"
  | .ellipsis => "..."
  | .arrow => "->"
  | .doubleColon => "::"
  | .increment => "++"
  | .decrement => "--"
  | .andAnd => "&&"
  | .orOr => "||"
  | .eqEq => "=="
  | .notEq => "!="
  | .lessEq => "<="
  | .greaterEq => ">="
  | .plusAssign => "+="
  | .minusAssign => "-="
  | .timesAssign => "*="
  | .divAssign => "/="
  | .modAssign => "%="
  | .andAssign => "&="
  | .orAssign => "|="
  | .xorAssign => "^="
  | .shl => "<<"
  | .shr => ">>"
  | .parenOpen => "("
  | .parenClose => ")"
  | .braceOpen => "\x7b"
  | .braceClose => "\x7d"
  | .bracketOpen => "["
  | .bracketClose => "]"
  | .semicolon => ";"
  | .comma => ","
  | .dot => "."
  | .at => "@"
  | .assign => "="
  | .greater => ">"
  | .less => "<"
  | .bang => "!"
  | .tilde => "~"
  | .question => "?"
  | .colon => ":"
  | .plus => "+"
  | .minus => "-"
  | .star => "*"
  | .slash => "/"
  | .amp => "&"
  | .bar => "|"
  | .caret => "^"
  | .percent => "%"

def dropWord? : (word s : List Char) → Option (List Char)
  | [], s => some s
  | _ :: _, [] => none
  | a :: word, c :: s => if a = c then dropWord? word s else none

def read (s : List Char) : Option (Symbol × List Char) :=
  all.findSome? fun x => (dropWord? x.text.toList s).map fun rest => (x, rest)

end Symbol

/-! ## 3. Tokens -/

inductive Token where
  | ident (name : String)
  | keyword (word : Keyword)
  /-- An `int` literal.  It is at most 2^31, which fits once a minus precedes it. -/
  | int (value : Int)
  | long (value : Int64)
  /-- A character literal, one UTF-16 unit. -/
  | char (unit : UInt16)
  | str (text : String)
  /-- A floating point literal, which is read only to be refused. -/
  | float (text : String)
  | symbol (s : Symbol)
  deriving DecidableEq, Repr

structure Lexeme where
  token : Token
  line : Nat
  deriving DecidableEq, Repr

/-! ## 4. Primitive types -/

inductive Primitive where
  | boolean
  | byte
  | char
  | short
  | int
  | long
  | float
  | double
  deriving DecidableEq, Repr

namespace Primitive

open ClassFile

def type : Primitive → FieldType
  | .boolean => .boolean
  | .byte => .byte
  | .char => .char
  | .short => .short
  | .int => .int
  | .long => .long
  | .float => .float
  | .double => .double

def word : Primitive → Keyword
  | .boolean => .kwBoolean
  | .byte => .kwByte
  | .char => .kwChar
  | .short => .kwShort
  | .int => .kwInt
  | .long => .kwLong
  | .float => .kwFloat
  | .double => .kwDouble

end Primitive

namespace Keyword

def primitive? : Keyword → Option Primitive
  | .kwBoolean => some .boolean
  | .kwByte => some .byte
  | .kwChar => some .char
  | .kwShort => some .short
  | .kwInt => some .int
  | .kwLong => some .long
  | .kwFloat => some .float
  | .kwDouble => some .double
  | _ => none

def isModifier : Keyword → Bool
  | .kwPublic | .kwProtected | .kwPrivate | .kwStatic | .kwFinal | .kwSynchronized => true
  | _ => false

def isForeignModifier : Keyword → Bool
  | .kwAbstract | .kwNative | .kwStrictfp | .kwDefault | .kwTransient | .kwVolatile => true
  | _ => false

def startsForeignStatement : Keyword → Bool
  | .kwWhile | .kwFor | .kwDo | .kwTry | .kwThrow | .kwSwitch | .kwBreak | .kwContinue
  | .kwSynchronized | .kwAssert | .kwClass | .kwInterface | .kwEnum | .kwGoto | .kwConst
  | .kwCatch | .kwFinally | .kwCase | .kwDefault => true
  | _ => false

end Keyword

end MethodGraft.Source
