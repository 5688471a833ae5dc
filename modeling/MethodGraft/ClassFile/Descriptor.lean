/-!
# ClassFile.Descriptor — types as descriptors write them

A field type is a primitive, a class by its internal name (`java/lang/String`) or an array.  A
method descriptor lists parameter types and a result.  `descriptor` writes them (`I`,
`[Ljava/lang/String;`, `(IZ)V`) and `ofDescriptor?` reads exactly such a text and nothing around it.
-/

namespace MethodGraft.ClassFile

def dotted (name : String) : String := name.map fun c => if c = '/' then '.' else c

inductive FieldType where
  | byte
  | char
  | double
  | float
  | int
  | long
  | short
  | boolean
  /-- A class or interface by internal name. -/
  | object (name : String)
  | array (component : FieldType)
  deriving DecidableEq, Repr, Inhabited

namespace FieldType

def rootClass : String := "java/lang/Object"

def string : FieldType := .object "java/lang/String"

/-! ## 1. Writing -/

def descriptor : FieldType → String
  | .byte => "B"
  | .char => "C"
  | .double => "D"
  | .float => "F"
  | .int => "I"
  | .long => "J"
  | .short => "S"
  | .boolean => "Z"
  | .object name => "L" ++ name ++ ";"
  | .array component => "[" ++ component.descriptor

def className? : FieldType → Option String
  | .object name => some name
  | .array component => some (FieldType.array component).descriptor
  | _ => none

def sourceName : FieldType → String
  | .byte => "byte"
  | .char => "char"
  | .double => "double"
  | .float => "float"
  | .int => "int"
  | .long => "long"
  | .short => "short"
  | .boolean => "boolean"
  | .object name => dotted name
  | .array component => component.sourceName ++ "[]"

/-! ## 2. Classes of types -/

def slots : FieldType → Nat
  | .long | .double => 2
  | _ => 1

def isReference : FieldType → Bool
  | .object _ | .array _ => true
  | _ => false

def isIntLike : FieldType → Bool
  | .boolean | .byte | .char | .short | .int => true
  | _ => false

def isString (t : FieldType) : Bool := t == string

/-! ## 3. Reading -/

def isNameChar (c : Char) : Bool := c != ';' && c != '.' && c != '['

def read : List Char → Option (FieldType × List Char)
  | [] => none
  | c :: rest =>
    match c with
    | 'B' => some (.byte, rest)
    | 'C' => some (.char, rest)
    | 'D' => some (.double, rest)
    | 'F' => some (.float, rest)
    | 'I' => some (.int, rest)
    | 'J' => some (.long, rest)
    | 'S' => some (.short, rest)
    | 'Z' => some (.boolean, rest)
    | 'L' =>
      match rest.takeWhile isNameChar, rest.dropWhile isNameChar with
      | n :: name, ';' :: rest => some (.object (String.ofList (n :: name)), rest)
      | _, _ => none
    | '[' => (read rest).map fun (t, rest) => (.array t, rest)
    | _ => none

/-- Dropping characters makes no list longer. -/
theorem length_dropWhile_le (p : Char → Bool) (l : List Char) :
    (l.dropWhile p).length ≤ l.length := (List.dropWhile_sublist p).length_le

/-- Reading a type consumes at least one character. -/
theorem length_lt_of_read {s : List Char} {t : FieldType} {rest : List Char}
    (h : read s = some (t, rest)) : rest.length < s.length := by
  induction s generalizing t rest with
  | nil => simp [read] at h
  | cons c s ih =>
    unfold read at h
    split at h
    case h_9 =>
      split at h
      · rename_i n name rest' _ hd
        have hl := length_dropWhile_le isNameChar s
        simp only [Option.some.injEq, Prod.mk.injEq] at h
        rw [hd, h.2] at hl
        simp only [List.length_cons] at hl ⊢
        omega
      · simp at h
    case h_10 =>
      obtain ⟨⟨u, r⟩, hr, he⟩ := Option.map_eq_some_iff.1 h
      have hlt := ih hr
      simp only [Prod.mk.injEq] at he
      rw [he.2] at hlt
      simp only [List.length_cons]
      omega
    all_goals simp_all

def ofDescriptor? (s : String) : Option FieldType :=
  match read s.toList with
  | some (t, []) => some t
  | _ => none

/-- The type that a class constant names: an internal name, or the descriptor of an array. -/
def ofClassName? (name : String) : Option FieldType :=
  if name.toList.head? = some '[' then ofDescriptor? name else some (.object name)

end FieldType

structure MethodDescriptor where
  params : List FieldType
  ret : Option FieldType
  deriving DecidableEq, Repr, Inhabited

namespace MethodDescriptor

def retDescriptor : Option FieldType → String
  | some t => t.descriptor
  | none => "V"

def descriptor (m : MethodDescriptor) : String :=
  "(" ++ String.join (m.params.map FieldType.descriptor) ++ ")" ++ retDescriptor m.ret

def paramSlots (m : MethodDescriptor) : UInt16 :=
  UInt16.ofNat (m.params.foldr (fun t n => t.slots + n) 0)

def readParams (s : List Char) : Option (List FieldType × List Char) :=
  match s with
  | ')' :: rest => some ([], rest)
  | s =>
    match _h : FieldType.read s with
    | none => none
    | some (t, rest) => (readParams rest).map fun (ts, rest) => (t :: ts, rest)
  termination_by s.length
  decreasing_by exact FieldType.length_lt_of_read _h

def readRet : List Char → Option (Option FieldType)
  | ['V'] => some none
  | s =>
    match FieldType.read s with
    | some (t, []) => some (some t)
    | _ => none

def ofDescriptor? (s : String) : Option MethodDescriptor :=
  match s.toList with
  | '(' :: rest =>
    match readParams rest with
    | some (params, rest) => (readRet rest).map fun ret => ⟨params, ret⟩
    | none => none
  | _ => none

end MethodDescriptor

end MethodGraft.ClassFile
