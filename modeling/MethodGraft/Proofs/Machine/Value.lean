import MethodGraft.Proofs.Pool.Interning
import MethodGraft.Proofs.Typed.WellFormed

/-!
# Proofs.Machine.Value — values, and what constants stand for

What the virtual machine computes with: numbers of four kinds and references.  An operand of an
instruction that is an index into the constant pool stands for a value, a field, a method or a
class; a look-up that succeeds gives the same in every larger pool.
-/

namespace MethodGraft

namespace Machine

open ClassFile Code Typed

/-- A reference.  Which objects there are is not modelled, only whether two are the same. -/
inductive Reference where
  | null
  /-- The object of a string constant. -/
  | text (value : String)
  | object (id : Nat)
  deriving DecidableEq, Repr

/-- A value of one of the kinds that the machine tells apart. -/
inductive Value where
  | int (value : Int32)
  | long (value : Int64)
  | float (value : Float32)
  | double (value : Float)
  | reference (value : Reference)

def Value.kind : Value → ValueKind
  | .int _ => .int
  | .long _ => .long
  | .float _ => .float
  | .double _ => .double
  | .reference _ => .reference

structure Field where
  owner : String
  name : String
  type : FieldType
  deriving DecidableEq, Repr

end Machine

namespace ClassFile.ConstantPool

open Code Typed Machine

variable {p q : ConstantPool} {i : UInt16}

/-! ## 1. Values -/

def value? (p : ConstantPool) (i : UInt16) : Option Value :=
  match p.get i with
  | .ok (.integer v) => some (.int v)
  | .ok (.float bits) => some (.float (.ofBits bits))
  | .ok (.long v) => some (.long v)
  | .ok (.double bits) => some (.double (.ofBits bits))
  | .ok (.string n) => (p.utf8 n).toOption.map fun text => .reference (.text text)
  | _ => none

theorem value?_integer {v : Int32} (h : p.get i = .ok (.integer v)) :
    p.value? i = some (.int v) := by
  rw [value?, h]

theorem value?_long {v : Int64} (h : p.get i = .ok (.long v)) : p.value? i = some (.long v) := by
  rw [value?, h]

theorem value?_string {n : UInt16} {text : String} (h : p.get i = .ok (.string n))
    (htext : p.utf8 n = .ok text) : p.value? i = some (.reference (.text text)) := by
  rw [value?, h]
  show (p.utf8 n).toOption.map _ = _
  rw [htext]
  rfl

theorem value?_mono (hle : p ≤ q) {v : Value} (h : p.value? i = some v) : q.value? i = some v := by
  unfold value? at h
  split at h
  next hget => rw [← h, value?, get_mono hle hget]
  next hget => rw [← h, value?, get_mono hle hget]
  next hget => rw [← h, value?, get_mono hle hget]
  next hget => rw [← h, value?, get_mono hle hget]
  next n hget =>
    cases htext : p.utf8 n with
    | error e => simp [htext, Except.toOption] at h
    | ok text =>
      rw [htext] at h
      rw [← h]
      exact value?_string (get_mono hle hget) (utf8_mono hle htext)
  next => cases h

/-! ## 2. Classes, fields and methods -/

def class? (p : ConstantPool) (i : UInt16) : Option String := (p.className i).toOption

theorem toOption_eq_some_iff {α : Type} {x : Except Error α} {a : α} :
    x.toOption = some a ↔ x = .ok a := by
  cases x <;> simp [Except.toOption]

theorem class?_eq_some_iff {name : String} : p.class? i = some name ↔ p.className i = .ok name :=
  toOption_eq_some_iff

theorem class?_mono (hle : p ≤ q) {name : String} (h : p.class? i = some name) :
    q.class? i = some name := by
  rw [class?_eq_some_iff] at h ⊢
  exact className_mono hle h

def field? (p : ConstantPool) (i : UInt16) : Option Field :=
  match p.get i, p.memberRef i with
  | .ok (.fieldRef ..), .ok m =>
    (FieldType.ofDescriptor? m.descriptor).map fun type => ⟨m.owner, m.name, type⟩
  | _, _ => none

theorem field?_eq_some_iff {f : Field} : p.field? i = some f ↔
    (∃ c n, p.get i = .ok (.fieldRef c n)) ∧
      ∃ m, p.memberRef i = .ok m ∧ m.owner = f.owner ∧ m.name = f.name ∧
        FieldType.ofDescriptor? m.descriptor = some f.type := by
  obtain ⟨owner, name, type⟩ := f
  unfold field?
  split
  next c n m hget href =>
    simp only [Option.map_eq_some_iff, Field.mk.injEq]
    constructor
    · rintro ⟨t, ht, rfl, rfl, rfl⟩
      exact ⟨⟨c, n, hget⟩, m, href, rfl, rfl, ht⟩
    · rintro ⟨-, m', hm', rfl, rfl, ht⟩
      rw [href] at hm'
      cases hm'
      exact ⟨type, ht, rfl, rfl, rfl⟩
  next hno =>
    simp only [reduceCtorEq, false_iff]
    rintro ⟨⟨c, n, hget⟩, m, href, -⟩
    exact hno c n m hget href

theorem field?_mono (hle : p ≤ q) {f : Field} (h : p.field? i = some f) : q.field? i = some f := by
  rw [field?_eq_some_iff] at h ⊢
  obtain ⟨⟨c, n, hget⟩, m, href, hm⟩ := h
  exact ⟨⟨c, n, get_mono hle hget⟩, m, memberRef_mono hle href, hm⟩

/-- For a reference to a method: true if it is one of an interface. -/
def methodForm? : Constant → Option Bool
  | .methodRef .. => some false
  | .interfaceMethodRef .. => some true
  | _ => none

theorem methodForm?_eq_some_iff {c : Constant} {onInterface : Bool} :
    methodForm? c = some onInterface ↔ ∃ k n, c = Interning.methodConstant onInterface k n := by
  cases onInterface <;> cases c <;> simp [methodForm?, Interning.methodConstant]

/-- The method that a constant refers to, where `kind` is the way it is called: virtual calls are
for classes and interface calls for interfaces. -/
def callee? (p : ConstantPool) (kind : InvokeKind) (i : UInt16) : Option Callee := do
  let onInterface ← methodForm? (← (p.get i).toOption)
  let m ← (p.memberRef i).toOption
  let type ← MethodDescriptor.ofDescriptor? m.descriptor
  if (kind = .interface → onInterface = true) ∧ (kind = .virtual → onInterface = false) then
    some ⟨kind, m.owner, onInterface, m.name, type⟩
  else none

theorem callee?_eq_some_iff {kind : InvokeKind} {c : Callee} : p.callee? kind i = some c ↔
    c.kind = kind ∧ (∃ k n, p.get i = .ok (Interning.methodConstant c.onInterface k n)) ∧
      ((kind = .interface → c.onInterface = true) ∧ (kind = .virtual → c.onInterface = false)) ∧
      ∃ m, p.memberRef i = .ok m ∧ m.owner = c.owner ∧ m.name = c.name ∧
        MethodDescriptor.ofDescriptor? m.descriptor = some c.type := by
  obtain ⟨ckind, owner, onInterface, name, type⟩ := c
  simp only [callee?, Option.bind_eq_bind, Option.bind_eq_some_iff, toOption_eq_some_iff,
    methodForm?_eq_some_iff, Option.ite_none_right_eq_some, Option.some.injEq, Callee.mk.injEq]
  constructor
  · rintro ⟨_, hget, b, ⟨k, n, rfl⟩, m, href, t, ht, hforms, rfl, rfl, rfl, rfl, rfl⟩
    exact ⟨rfl, ⟨k, n, hget⟩, hforms, m, href, rfl, rfl, ht⟩
  · rintro ⟨rfl, ⟨k, n, hget⟩, hforms, m, href, rfl, rfl, ht⟩
    exact ⟨_, hget, onInterface, ⟨k, n, rfl⟩, m, href, type, ht, hforms, rfl, rfl, rfl, rfl, rfl⟩

theorem callee?_mono (hle : p ≤ q) {kind : InvokeKind} {c : Callee}
    (h : p.callee? kind i = some c) : q.callee? kind i = some c := by
  rw [callee?_eq_some_iff] at h ⊢
  obtain ⟨hkind, ⟨k, n, hget⟩, hforms, m, href, hm⟩ := h
  exact ⟨hkind, ⟨k, n, get_mono hle hget⟩, hforms, m, memberRef_mono hle href, hm⟩

end ClassFile.ConstantPool

end MethodGraft
