import MethodGraft.Classpath.Error
import MethodGraft.Source.Decl
import MethodGraft.Source.Error
import MethodGraft.Typed.Tree

/-!
# Typed.Error — why names and types do not fit
-/

namespace MethodGraft.Typed

open ClassFile

inductive Fault where
  | noClass (name : String)
  | noVariable (name : String)
  | noField (name owner : String)
  | noMethod (name owner : String)
  /-- A helper method that reading a field by name needs. -/
  | noHelper (name descriptor owner : String)
  /-- A chain of names that is neither a variable nor a class. -/
  | noSymbol (package : String)
  | alreadyDefined (name : String)
  | tooManyLocals
  | nonStaticVariable (name : String)
  | nonStaticMethod (name : String) (type : MethodDescriptor)
  | voidValue
  | unexpectedReturnValue
  | missingReturnValue
  | incompatible (source : String) (target : FieldType)
  | lossy (source target : FieldType)
  | notBoolean (found : ValueType)
  | notDereferenceable (found : ValueType)
  | badOperands (op : Source.BinaryOp) (lhs rhs : ValueType)
  | incomparable (lhs rhs : FieldType)
  | noSuitableMethod (name : String) (args : List ValueType)
  | ambiguous (name : String)
  | fieldReadArguments
  | fieldReadTarget (found : ValueType)
  | fieldReadName
  deriving DecidableEq, Repr

def Fault.text : Fault → String
  | .noClass name => "cannot find symbol: class " ++ name
  | .noVariable name => "cannot find symbol: variable " ++ name
  | .noField name owner => "cannot find symbol: variable " ++ name ++ " in " ++ dotted owner
  | .noMethod name owner => "cannot find symbol: method " ++ name ++ " in " ++ dotted owner
  | .noHelper name descriptor owner =>
    "cannot find symbol: method " ++ name ++ descriptor ++ " in " ++ dotted owner
  | .noSymbol package => "cannot find symbol: " ++ dotted package
  | .alreadyDefined name => "variable " ++ name ++ " is already defined in method"
  | .tooManyLocals => "too many local variables"
  | .nonStaticVariable name =>
    "non-static variable " ++ name ++ " cannot be referenced from a static context"
  | .nonStaticMethod name type =>
    "non-static method " ++ name ++ type.descriptor ++
      " cannot be referenced from a static context"
  | .voidValue => "'void' type not allowed here"
  | .unexpectedReturnValue => "incompatible types: unexpected return value"
  | .missingReturnValue => "missing return value"
  | .incompatible source target =>
    "incompatible types: " ++ source ++ " cannot be converted to " ++ target.sourceName
  | .lossy source target =>
    "incompatible types: possible lossy conversion from " ++ source.sourceName ++ " to " ++
      target.sourceName
  | .notBoolean found => "incompatible types: " ++ found.text ++ " cannot be converted to boolean"
  | .notDereferenceable found => found.text ++ " cannot be dereferenced"
  | .badOperands op lhs rhs =>
    "bad operand types for binary operator '" ++ op.symbol.text ++ "': " ++ lhs.text ++ " and " ++
      rhs.text
  | .incomparable lhs rhs =>
    "incomparable types: " ++ lhs.sourceName ++ " and " ++ rhs.sourceName
  | .noSuitableMethod name args =>
    "no suitable method found for " ++ name ++ "(" ++ ",".intercalate (args.map ValueType.text) ++
      ")"
  | .ambiguous name => "reference to " ++ name ++ " is ambiguous"
  | .fieldReadArguments => "readField takes an object and a field name"
  | .fieldReadTarget found => "readField cannot read from a value of type " ++ found.text
  | .fieldReadName => "readField expects a string literal field name"

inductive Error where
  | source (error : Source.Error)
  | fault (line : Nat) (fault : Fault)
  | resolve (error : Classpath.Error)
  | classFile (error : ClassFile.Error)
  deriving DecidableEq, Repr

def Error.message : Error → String
  | .source error => error.message
  | .fault line f => "line " ++ toString line ++ ": " ++ f.text
  | .resolve error => error.message
  | .classFile error => error.message

end MethodGraft.Typed
