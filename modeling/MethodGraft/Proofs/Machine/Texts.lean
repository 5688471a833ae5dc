import MethodGraft.Proofs.Machine.Direct

/-!
# Proofs.Machine.Texts — the text that joined parts make

The machine holds booleans, characters and narrow integers as `int`s, so what is appended to a text
depends on the type that a value is appended as.  Parts are evaluated from left to right, each once,
and each adds its text as soon as it is evaluated.
-/

namespace MethodGraft.Direct

open ClassFile Typed Machine

/-! ## 1. Texts of values -/

abbrev Units := List UInt16

/-- The units of a text; a character above `U+FFFF` has two. -/
def units (text : String) : Units :=
  text.toList.flatMap fun c =>
    if c.toNat < 0x10000 then [UInt16.ofNat c.toNat]
    else
      let n := c.toNat - 0x10000
      [UInt16.ofNat (0xD800 + n / 1024), UInt16.ofNat (0xDC00 + n % 1024)]

/-- What an expression stands for: a value, or a text that was joined. -/
inductive Datum where
  | value (v : Machine.Value)
  | text (units : Units)

namespace Datum

def int : Datum → Evaluation Int32
  | .value (.int v) => return v
  | _ => throw .stuck

def long : Datum → Evaluation Int64
  | .value (.long v) => return v
  | _ => throw .stuck

def float : Datum → Evaluation Float32
  | .value (.float v) => return v
  | _ => throw .stuck

def double : Datum → Evaluation Float
  | .value (.double v) => return v
  | _ => throw .stuck

def sum : Datum → Datum → Evaluation Datum
  | .value a, .value b => .value <$> Direct.sum a b
  | _, _ => throw .stuck

/-- The number widened.  Types that are held alike need nothing. -/
def widened (source target : FieldType) (d : Datum) : Evaluation Datum :=
  if source = target ∨ (source.isIntLike ∧ target.isIntLike) then return d
  else
    match d with
    | .value v => .value <$> Direct.widened source target v
    | .text _ => throw .stuck

end Datum

/-- How objects and floating point numbers are written, which the machine leaves to their
classes. -/
structure Texts where
  float : Float32 → Units
  double : Float → Units
  /-- The text of an object.  Asking for it may run a method of the object. -/
  object : Nat → Evaluation Units
  /-- Makes sure that a joined text is of the class of this name. -/
  check : String → Evaluation Unit

variable (env : Environment) (w : Texts)

def booleanUnits (v : Int32) : Units := units (if v = 0 then "false" else "true")

def charUnits (v : Int32) : Units := [v.toUInt32.toUInt16]

def decimalUnits (v : Int) : Units := units (toString v)

def referenceUnits : Datum → Evaluation Units
  | .value (.reference .null) => return units "null"
  | .value (.reference (.text text)) => return units text
  | .value (.reference (.object id)) => w.object id
  | .text text => return text
  | .value _ => throw .stuck

/-- What the method `append` with a parameter of this type adds for its argument.  Of those that
take objects, only the ones for strings and for any object are meant. -/
def appended (param : FieldType) (d : Datum) : Evaluation Units :=
  match param with
  | .boolean => return booleanUnits (← d.int)
  | .char => return charUnits (← d.int)
  | .int => return decimalUnits (← d.int).toInt
  | .long => return decimalUnits (← d.long).toInt
  | .float => return w.float (← d.float)
  | .double => return w.double (← d.double)
  | param =>
    if param = .string ∨ param = .object FieldType.rootClass then referenceUnits w d
      else throw .stuck

/-- The text of an operand of this type: a boolean as a word, a character as itself, a number of any
width in the decimal system, and `null` as a word. -/
def textOf (t : ValueType) (d : Datum) : Evaluation Units :=
  match t with
  | .of .boolean => return booleanUnits (← d.int)
  | .of .char => return charUnits (← d.int)
  | .of .byte | .of .short | .of .int => return decimalUnits (← d.int).toInt
  | .of .long => return decimalUnits (← d.long).toInt
  | .of .float => return w.float (← d.float)
  | .of .double => return w.double (← d.double)
  | .of (.object _) | .of (.array _) | .null => referenceUnits w d
  | .void => throw .stuck

/-- A value is appended as a type that leaves its text as it is. -/
theorem appended_appendType {t : ValueType} (ht : t ≠ .void) (d : Datum) :
    appended w (appendType t) d = textOf w t d := by
  cases t with
  | void => exact absurd rfl ht
  | null => rfl
  | of t =>
    cases t with
    | object name =>
      by_cases hstring : FieldType.object name = .string
      · rw [hstring]
        rfl
      · have hroot : appendType (.of (.object name)) = .object FieldType.rootClass := by
          simp [appendType, FieldType.isString, hstring, isFloating, FieldType.isIntLike]
        rw [hroot]
        rfl
    | _ => rfl

theorem textOf_reference {t : ValueType} (ht : t.isReference = true) (d : Datum) :
    textOf w t d = referenceUnits w d := by
  cases t with
  | void => cases ht
  | null => rfl
  | of t => cases t <;> first | rfl | cases ht

/-! ## 2. Parts -/

mutual

/-- What an expression stands for, where texts are joined without any object that they are appended
to. -/
def evaluate : Expr → Evaluation Datum
  | .checkcast name e => do
    match ← evaluate e with
    | .value v => .value <$> perform env (.checkcast name v)
    | .text text =>
      w.check name
      return .text text
  | .widen source target e => do Datum.widened source target (← evaluate e)
  | .add _ l r => do
    let a ← evaluate l
    let b ← evaluate r
    a.sum b
  | .concat parts => return .text (← joined parts)
  | e => .value <$> expr env e

/-- The texts of parts joined: each part is evaluated once, after those before it, and appended as
its type. -/
def joined : List (Expr × FieldType) → Evaluation Units
  | [] => return []
  | (e, t) :: parts => do
    let text ← appended w t (← evaluate e)
    return text ++ (← joined parts)

end

theorem joined_append (ps qs : List (Expr × FieldType)) :
    joined env w (ps ++ qs) = do
      let before ← joined env w ps
      return before ++ (← joined env w qs) := by
  induction ps with
  | nil => simp [joined]
  | cons p ps ih =>
    simp only [List.cons_append, joined, ih, bind_assoc, pure_bind, List.append_assoc]

def isPlain : Expr → Bool
  | .checkcast .. | .widen .. | .add .. | .concat _ => false
  | _ => true

theorem evaluate_of_isPlain {e : Expr} (h : isPlain e = true) :
    evaluate env w e = .value <$> expr env e := by
  cases e <;> first | rfl | cases h

/-- The texts of the parts that a value contributes are its own text. -/
theorem joined_partsOf {v : Typed.Value} (htype : v.type ≠ .void)
    (hconcat : ∀ parts, v.expr = .concat parts → v.type.isReference = true) :
    joined env w (partsOf v) = (do textOf w v.type (← evaluate env w v.expr)) := by
  unfold partsOf
  split
  next parts he =>
    rw [he]
    simp [evaluate, textOf_reference w (hconcat parts he), referenceUnits]
  next => simp [joined, appended_appendType w htype]

/-- A widened expression is the number widened. -/
theorem evaluate_widen (e : Expr) {source target : FieldType}
    (htarget : target.isReference = false) :
    evaluate env w (widen e source target) =
    (do Datum.widened source target (← evaluate env w e)) := by
  unfold widen
  split
  next h =>
    have hsame : source = target ∨ (source.isIntLike ∧ target.isIntLike) := by
      simpa [htarget] using h
    simp [Datum.widened, hsame]
  next => rfl

end MethodGraft.Direct
