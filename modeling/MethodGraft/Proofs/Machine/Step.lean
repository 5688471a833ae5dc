import Mathlib.Logic.Relation
import MethodGraft.ClassFile.Basic
import MethodGraft.Proofs.Machine.Decode

/-!
# Proofs.Machine.Step — running code

The machine runs one method body.  What leaves the method — reads of fields, calls, new objects,
casts — is answered by an environment, with a value or with an exception; everything else the
machine does itself.
-/

namespace MethodGraft.Machine

open ClassFile Code Typed

/-! ## 1. The environment -/

/-- What code asks of its environment, with the operands: a call has its receiver before its
arguments. -/
inductive Action where
  | getField (field : Field) (receiver : Value)
  | getStatic (field : Field)
  | invoke (callee : Callee) (operands : List Value)
  | new (name : String)
  | checkcast (name : String) (operand : Value)

/-- The kind of the answer to an action; a call of a `void` method leaves none. -/
def Action.kind : Action → Option ValueKind
  | .getField f _ | .getStatic f => some (.ofType f.type)
  | .invoke c _ => c.type.ret.map .ofType
  | .new _ | .checkcast .. => some .reference

/-- Answers to all actions. -/
structure Environment where
  /-- The answer to an action after others, the latest first: a value, or an exception. -/
  answer : (past : List Action) → Action → Except Reference Value
  /-- A value is of the kind that the action asks for. -/
  answer_kind : ∀ past a v, answer past a = .ok v → ∀ k, a.kind = some k → v.kind = k
  /-- True if the exception is of the class or a subclass of it. -/
  isInstance : Reference → String → Bool

/-! ## 2. Computation -/

def convert : Conversion → Value → Option Value
  | .i2l, .int v => some (.long v.toInt64)
  | .i2f, .int v => some (.float v.toFloat32)
  | .i2d, .int v => some (.double v.toFloat)
  | .l2f, .long v => some (.float v.toFloat32)
  | .l2d, .long v => some (.double v.toFloat)
  | .f2d, .float v => some (.double v.toFloat)
  | _, _ => none

theorem kind_of_convert {c : Conversion} {v w : Value} (h : convert c v = some w) :
    w.kind = c.kinds.2 := by
  cases c <;> cases v <;> cases h <;> rfl

theorem convert_isSome {c : Conversion} {v : Value} (h : v.kind = c.kinds.1) :
    (convert c v).isSome := by
  cases c <;> cases v <;> first | rfl | cases h

def compare (c : Comparison) (a b : Int) : Bool :=
  match c with
  | .eq => a = b
  | .ne => a ≠ b
  | .lt => a < b
  | .le => a ≤ b
  | .gt => a > b
  | .ge => a ≥ b

theorem compare_negate (c : Comparison) (a b : Int) : compare c.negate a b = !compare c a b := by
  rw [Bool.eq_not]
  cases c <;> simp [compare, Comparison.negate] <;> omega

/-- What `lcmp` leaves: the sign of the difference. -/
def sign (a b : Int64) : Int32 :=
  if a.toInt < b.toInt then -1 else if a.toInt = b.toInt then 0 else 1

theorem compare_sign (c : Comparison) (a b : Int64) :
    compare c (sign a b).toInt 0 = compare c a.toInt b.toInt := by
  unfold sign
  have h1 : (-1 : Int32).toInt = -1 := rfl
  have h0 : (0 : Int32).toInt = 0 := rfl
  have h1' : (1 : Int32).toInt = 1 := rfl
  split
  next hlt => cases c <;> simp [compare, h1] <;> omega
  next hge =>
    split
    next heq => cases c <;> simp [compare, h0] <;> omega
    next hne => cases c <;> simp [compare, h1'] <;> omega

def Test.holds? : Test → List Value → Option (Bool × List Value)
  | .zero c, .int a :: stack => some (compare c a.toInt 0, stack)
  | .ints c, .int b :: .int a :: stack => some (compare c a.toInt b.toInt, stack)
  | .refs equal, .reference b :: .reference a :: stack => some (equal == (a == b), stack)
  | .null isNull, .reference a :: stack => some (isNull == (a == .null), stack)
  | _, _ => none

/-- What an instruction computes by itself from the stack, its top first, and the local slots. -/
def compute? (p : ConstantPool) (op : Operation) (stack : List Value) (locals : Slots Value) :
    Option (List Value × Slots Value) :=
  match op, stack with
  | .aconstNull, _ => some (.reference .null :: stack, locals)
  | .iconst v, _ | .bipush v, _ => some (.int v.toInt32 :: stack, locals)
  | .sipush v, _ => some (.int v.toInt32 :: stack, locals)
  | .lconst0, _ => some (.long 0 :: stack, locals)
  | .lconst1, _ => some (.long 1 :: stack, locals)
  | .ldc i, _ => (p.value? i.toUInt16).map fun v => (v :: stack, locals)
  | .ldcW i, _ | .ldc2W i, _ => (p.value? i).map fun v => (v :: stack, locals)
  | .load k slot, _ =>
    (locals slot.toNat).bind fun v => if v.kind = k then some (v :: stack, locals) else none
  | .store k slot, v :: rest =>
    if v.kind = k then some (rest, locals.store (fun v => v.kind.isWide) slot.toNat v) else none
  | .dup, v :: rest => if v.kind.isWide then none else some (v :: v :: rest, locals)
  | .pop, v :: rest => if v.kind.isWide then none else some (rest, locals)
  | .pop2, v :: rest => if v.kind.isWide then some (rest, locals) else none
  | .swap, v :: w :: rest =>
    if v.kind.isWide ∨ w.kind.isWide then none else some (w :: v :: rest, locals)
  | .iadd, .int b :: .int a :: rest => some (.int (a + b) :: rest, locals)
  | .ladd, .long b :: .long a :: rest => some (.long (a + b) :: rest, locals)
  | .lcmp, .long b :: .long a :: rest => some (.int (sign a b) :: rest, locals)
  | .convert c, v :: rest => (convert c v).map fun w => (w :: rest, locals)
  | _, _ => none

section Computed

variable {p : ConstantPool} {slot : UInt16} {v w : Value} {rest : List Value} {locals : Slots Value}

theorem compute?_load (h : locals slot.toNat = some v) :
    compute? p (.load v.kind slot) rest locals = some (v :: rest, locals) := by
  show (locals slot.toNat).bind _ = _
  rw [h]
  exact if_pos rfl

theorem compute?_store : compute? p (.store v.kind slot) (v :: rest) locals =
    some (rest, locals.store (fun v => v.kind.isWide) slot.toNat v) :=
  if_pos rfl

theorem compute?_dup (hv : v.kind.isWide = false) :
    compute? p .dup (v :: rest) locals = some (v :: v :: rest, locals) :=
  if_neg (by simp [hv])

theorem compute?_pop (hv : v.kind.isWide = false) :
    compute? p .pop (v :: rest) locals = some (rest, locals) :=
  if_neg (by simp [hv])

theorem compute?_pop2 (hv : v.kind.isWide = true) :
    compute? p .pop2 (v :: rest) locals = some (rest, locals) :=
  if_pos hv

theorem compute?_swap (hv : v.kind.isWide = false) (hw : w.kind.isWide = false) :
    compute? p .swap (v :: w :: rest) locals = some (w :: v :: rest, locals) :=
  if_neg (by simp [hv, hw])

theorem compute?_convert {c : Conversion} (h : convert c v = some w) :
    compute? p (.convert c) (v :: rest) locals = some (w :: rest, locals) := by
  show (convert c v).map _ = _
  rw [h]
  rfl

end Computed

def takeValues : (kinds : List ValueKind) → List Value → Option (List Value × List Value)
  | [], stack => some ([], stack)
  | k :: kinds, v :: stack =>
    if v.kind = k then (takeValues kinds stack).map fun (taken, rest) => (v :: taken, rest)
      else none
  | _ :: _, [] => none

theorem takeValues_append (taken stack : List Value) :
    takeValues (taken.map Value.kind) (taken ++ stack) = some (taken, stack) := by
  induction taken with
  | nil => rfl
  | cons v taken ih => simp [takeValues, ih]

def action? (p : ConstantPool) (op : Operation) (stack : List Value) :
    Option (Action × List Value) :=
  match op, stack with
  | .getField i, .reference r :: rest =>
    (p.field? i).map fun f => (.getField f (.reference r), rest)
  | .getStatic i, _ => (p.field? i).map fun f => (.getStatic f, stack)
  | .invoke kind i _, _ => do
    let c ← p.callee? kind i
    let (taken, rest) ← takeValues (operandKinds c) stack
    some (.invoke c taken.reverse, rest)
  | .new i, _ => (p.class? i).map fun name => (.new name, stack)
  | .checkcast i, .reference r :: rest =>
    (p.class? i).map fun name => (.checkcast name (.reference r), rest)
  | _, _ => none

/-! ## 3. Steps -/

inductive Outcome where
  | returned (value : Option Value)
  | thrown (exception : Reference)

inductive Config where
  | running (pc : Nat) (stack : List Value) (locals : Slots Value) (past : List Action)
  /-- An exception was raised by the instruction at `pc`. -/
  | raising (pc : Nat) (exception : Reference) (locals : Slots Value) (past : List Action)
  | ended (outcome : Outcome) (past : List Action)

structure Program where
  pool : ConstantPool
  /-- The instruction at a position, with its length; jumps have positions in place of labels. -/
  fetch : Nat → Option (Operation × Nat)
  handlers : List ExceptionHandler

def Program.ofCode (pool : ConstantPool) (c : CodeAttribute) : Program :=
  ⟨pool, decodeAt c.code, c.handlers⟩

def handles (env : Environment) (p : ConstantPool) (pc : Nat) (e : Reference)
    (h : ExceptionHandler) : Bool :=
  h.startPc.toNat ≤ pc && pc < h.endPc.toNat &&
    (h.catchType == 0 || (p.class? h.catchType).any (env.isInstance e))

def Action.push (a : Action) (v : Value) (stack : List Value) : List Value :=
  if a.kind.isSome then v :: stack else stack

def respond (env : Environment) (a : Action) (pc next : Nat) (rest : List Value)
    (locals : Slots Value) (past : List Action) : Config :=
  match env.answer past a with
  | .ok v => .running next (a.push v rest) locals (a :: past)
  | .error e => .raising pc e locals (a :: past)

/-- Executes the instruction at `pc`, which ends at `next`.  Nothing follows where the code is not
fit to run: where it does not find the operands that it takes. -/
def execute (env : Environment) (p : ConstantPool) (op : Operation) (pc next : Nat)
    (stack : List Value) (locals : Slots Value) (past : List Action) : Option Config :=
  match op with
  | .branch test target =>
    (Test.holds? test stack).map fun (b, rest) =>
      .running (if b then target.index else next) rest locals past
  | .goto target => some (.running target.index stack locals past)
  | .ret none => some (.ended (.returned none) past)
  | .ret (some k) =>
    match stack with
    | v :: _ => if v.kind = k then some (.ended (.returned (some v)) past) else none
    | [] => none
  | op =>
    match action? p op stack with
    | some (a, rest) => some (respond env a pc next rest locals past)
    | none =>
      (compute? p op stack locals).map fun (stack, locals) => .running next stack locals past

/-- What an instruction computes is all that it does. -/
theorem execute_of_compute {env : Environment} {p : ConstantPool} {op : Operation} {pc next : Nat}
    {stack stack' : List Value} {locals locals' : Slots Value} {past : List Action}
    (h : compute? p op stack locals = some (stack', locals')) :
    execute env p op pc next stack locals past = some (.running next stack' locals' past) := by
  have hrun : (compute? p op stack locals).map (fun (stack, locals) =>
      Config.running next stack locals past) = some (.running next stack' locals' past) := by
    rw [h]
    rfl
  cases op <;> first | exact hrun | cases h

/-- One step; none follows the end, and none where the code is not fit to run. -/
def step (env : Environment) (P : Program) : Config → Option Config
  | .running pc stack locals past => do
    let (op, length) ← P.fetch pc
    execute env P.pool op pc (pc + length) stack locals past
  | .raising pc e locals past =>
    match P.handlers.find? (handles env P.pool pc e) with
    | some h => some (.running h.handlerPc.toNat [.reference e] locals past)
    | none => some (.ended (.thrown e) past)
  | .ended .. => none

/-- The second configuration follows the first after some steps. -/
def Reaches (env : Environment) (P : Program) : Config → Config → Prop :=
  Relation.ReflTransGen fun c d => step env P c = some d

namespace Reaches

variable {env : Environment} {P : Program} {c d e : Config}

theorem refl (c : Config) : Reaches env P c c := Relation.ReflTransGen.refl

theorem trans (h : Reaches env P c d) (h' : Reaches env P d e) : Reaches env P c e :=
  Relation.ReflTransGen.trans h h'

theorem single (h : step env P c = some d) : Reaches env P c d := Relation.ReflTransGen.single h

/-- A run has one end. -/
theorem ended_unique {o o' : Outcome} {past past' : List Action}
    (h : Reaches env P c (.ended o past)) (h' : Reaches env P c (.ended o' past')) :
    o = o' ∧ past = past' := by
  induction h using Relation.ReflTransGen.head_induction_on with
  | refl =>
    cases h'.cases_head with
    | inl heq =>
      cases heq
      exact ⟨rfl, rfl⟩
    | inr hstep =>
      obtain ⟨_, hstep, -⟩ := hstep
      cases hstep
  | head hstep hrest ih =>
    cases h'.cases_head with
    | inl heq =>
      subst heq
      cases hstep
    | inr hstep' =>
      obtain ⟨f, hf, hrest'⟩ := hstep'
      rw [hstep] at hf
      cases hf
      exact ih hrest'

end Reaches

end MethodGraft.Machine
