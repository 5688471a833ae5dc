import MethodGraft.ClassFile.Descriptor
import MethodGraft.Text.Digits

/-!
# ClassFile.Error — why a class file or a method body is refused

A `Cause` says what is wrong, and an `Error` adds the places it was met in, the innermost first.
The text of both is fixed by `Cause.message` and `Error.message`.
-/

namespace MethodGraft.ClassFile

open Digits

inductive Expected where
  | utf8
  | classRef
  | nameAndType
  | member
  | tagged (tag : UInt8)
  deriving DecidableEq, Repr

def Expected.text : Expected → String
  | .utf8 => "Utf8"
  | .classRef => "Class"
  | .nameAndType => "NameAndType"
  | .member => "a member reference"
  | .tagged tag => "tag " ++ toString tag.toNat

inductive Table where
  | attributes
  | exceptionHandlers
  | interfaces
  | fields
  | methods
  | stackMapFrames
  | frameEntries
  deriving DecidableEq, Repr

def Table.text : Table → String
  | .attributes => "attributes"
  | .exceptionHandlers => "exception handlers"
  | .interfaces => "interfaces"
  | .fields => "fields"
  | .methods => "methods"
  | .stackMapFrames => "stack map frames"
  | .frameEntries => "frame entries"

/-- What is wrong with a class file, a constant pool, a descriptor or a method body. -/
inductive Cause where
  /-- The input ended inside a structure that starts at `offset`. -/
  | truncated (offset : Nat)
  | badMagic (magic : UInt32)
  /-- A constant pool index outside the pool, or at a slot that holds nothing. -/
  | badIndex (index : UInt16)
  | badTag (tag : UInt8)
  | fieldDescriptor (text : String)
  | methodDescriptor (text : String)
  | emptyPool
  | wideOverrun (index : Nat)
  /-- A Utf8 constant whose bytes are no text. -/
  | noText (index : UInt16)
  | wrongConstant (index : UInt16) (found : UInt8) (expected : Expected)
  /-- A pool of so many entries has no room for a constant, which takes two if it is wide. -/
  | poolFull (entries : Nat) (isWide : Bool)
  | utf8TooLong (bytes : Nat)
  | tooMany (table : Table) (count : Nat)
  | attributeTooLong (bytes : Nat)
  | trailing (count : Nat)
  | trailingAfterClass (count : Nat)
  | noMethodAt (index : Nat)
  | methodExists (name descriptor : String)
  -- code arrays
  | unknownOpcode (opcode : UInt8) (offset : Nat)
  | switchBounds (offset : Nat) (high low : Int)
  | negativePairs (offset : Nat)
  | codeOverrun (offset : Nat)
  | operandConstant (mnemonic : String) (offset : Nat) (index : UInt16) (found : UInt8)
  -- assembling
  | unreachable (offset : Nat)
  | stackUnderflow (offset : Nat)
  | stackMismatch (label : Nat)
  | placedTwice (label : Nat)
  | neverPlaced (label : Nat)
  | unassignedLocal (slot : UInt16)
  | tooManyLocals
  /-- The arguments of an interface call take too many slots. -/
  | tooManyArguments (method : String) (type : MethodDescriptor)
  | wideDup
  | wideSwap
  | cannotAdd (type : FieldType)
  | cannotWiden (source target : FieldType)
  | notConditional (opcode : UInt8)
  | endReached
  | missingReturn (method : String)
  | codeLength (bytes : Nat)
  | branchTooFar (origin target : Nat)
  | emptyRange
  | targetPastEnd (offset : Nat)
  deriving DecidableEq, Repr

def Cause.message : Cause → String
  | .truncated offset => "unexpected end of class data at offset " ++ toString offset
  | .badMagic magic => "invalid magic 0x" ++ hex 8 magic.toNat
  | .badIndex index => "invalid constant pool index " ++ toString index.toNat
  | .badTag tag => "invalid constant pool tag " ++ toString tag.toNat
  | .fieldDescriptor text => "invalid field descriptor " ++ text
  | .methodDescriptor text => "invalid method descriptor " ++ text
  | .emptyPool => "constant pool count must be at least 1"
  | .wideOverrun index =>
    "wide constant #" ++ toString index ++ " overruns the constant pool"
  | .noText index =>
    "constant #" ++ toString index.toNat ++ " is modified UTF-8 with no string form"
  | .wrongConstant index found expected =>
    "constant #" ++ toString index.toNat ++ " is tag " ++ toString found.toNat ++
      ", expected " ++ expected.text
  | .poolFull .. => "constant pool overflow"
  | .utf8TooLong bytes =>
    "Utf8 constant of " ++ toString bytes ++ " bytes exceeds the 65535 byte limit"
  | .tooMany table count => "too many " ++ table.text ++ ": " ++ toString count
  | .attributeTooLong bytes => "attribute too long: " ++ toString bytes
  | .trailing count => toString count ++ " trailing bytes"
  | .trailingAfterClass count => toString count ++ " trailing bytes after class file"
  | .noMethodAt index => "method index " ++ toString index ++ " out of range"
  | .methodExists name descriptor => "method " ++ name ++ descriptor ++ " already exists"
  | .unknownOpcode opcode offset =>
    "unknown opcode 0x" ++ hex 2 opcode.toNat ++ " at " ++ toString offset
  | .switchBounds offset high low =>
    "tableswitch at " ++ toString offset ++ " has high " ++ toString high ++
      " below low " ++ toString low
  | .negativePairs offset =>
    "lookupswitch at " ++ toString offset ++ " has negative pair count"
  | .codeOverrun offset =>
    "instruction at " ++ toString offset ++ " overruns the code array"
  | .operandConstant mnemonic offset index found =>
    mnemonic ++ " at " ++ toString offset ++ " references constant #" ++
      toString index.toNat ++ " of tag " ++ toString found.toNat
  | .unreachable offset => "unreachable code at offset " ++ toString offset
  | .stackUnderflow offset => "operand stack underflow at offset " ++ toString offset
  | .stackMismatch label => "inconsistent stack depth at label " ++ toString label
  | .placedTwice label => "label " ++ toString label ++ " placed twice"
  | .neverPlaced label => "label " ++ toString label ++ " was never placed"
  | .unassignedLocal slot => "load of unassigned local " ++ toString slot.toNat
  | .tooManyLocals => "too many local variables"
  | .tooManyArguments method _ => "too many arguments for " ++ method
  | .wideDup => "dup of a two-slot value"
  | .wideSwap => "swap of a two-slot value"
  | .cannotAdd type => "cannot add values of type " ++ type.sourceName
  | .cannotWiden source target =>
    "no widening conversion from " ++ source.sourceName ++ " to " ++ target.sourceName
  | .notConditional opcode =>
    "opcode 0x" ++ hex 2 opcode.toNat ++ " is not a conditional branch"
  | .endReached => "control reaches the end of the method"
  | .missingReturn method => "method " ++ method ++ " can complete without returning a value"
  | .codeLength bytes => "invalid code length " ++ toString bytes
  | .branchTooFar .. => "branch offset out of range"
  | .emptyRange => "empty exception handler range"
  | .targetPastEnd offset =>
    "jump target " ++ toString offset ++ " is past the end of the code"

inductive Place where
  | constant (index : Nat)
  | attributeName
  | codeAttribute
  | method (name : String)
  | thisClass
  | superClass
  | interfaces
  | field (index : Nat)
  | instruction (offset : Nat)
  deriving DecidableEq, Repr

def Place.text : Place → String
  | .constant index => "constant #" ++ toString index
  | .attributeName => "attribute name"
  | .codeAttribute => "Code attribute"
  | .method name => "method " ++ name
  | .thisClass => "this_class"
  | .superClass => "super_class"
  | .interfaces => "interfaces"
  | .field index => "field " ++ toString index
  | .instruction offset => "instruction at " ++ toString offset

structure Error where
  cause : Cause
  places : List Place := []
  deriving DecidableEq, Repr

namespace Error

def outerText (places : List Place) : String :=
  String.join (places.map fun p => " of " ++ p.text)

/-- The text of an error: its cause, then "for" the innermost place "of" the ones around it. -/
def message (e : Error) : String :=
  match e.places with
  | [] => e.cause.message
  | p :: outer => e.cause.message ++ " for " ++ p.text ++ outerText outer

end Error

instance : Coe Cause Error := ⟨fun cause => ⟨cause, []⟩⟩

def fail {α : Type} (cause : Cause) : Except Error α := .error ⟨cause, []⟩

def within {α : Type} (p : Place) (x : Except Error α) : Except Error α :=
  x.mapError fun e => ⟨e.cause, e.places ++ [p]⟩

def FieldType.ofDescriptor (s : String) : Except Error FieldType :=
  match ofDescriptor? s with
  | some t => .ok t
  | none => fail (.fieldDescriptor s)

def FieldType.ofClassName (name : String) : Except Error FieldType :=
  match ofClassName? name with
  | some t => .ok t
  | none => fail (.fieldDescriptor name)

def MethodDescriptor.ofDescriptor (s : String) : Except Error MethodDescriptor :=
  match ofDescriptor? s with
  | some m => .ok m
  | none => fail (.methodDescriptor s)

end MethodGraft.ClassFile
