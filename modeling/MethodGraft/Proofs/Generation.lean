import MethodGraft.Proofs.Finish.Method
import MethodGraft.Proofs.Typed.Binding

/-!
# Proofs.Generation — what is generated for a method that has been bound

Binding and code generation agree: for a method that binding accepts, code is generated unless a
capacity of the class format is exceeded, and the code does what the method says.
-/

namespace MethodGraft

open ClassFile Code Typed Classpath Machine

variable {imports : List String} {self : Summary} {d : Source.MethodDecl} {s s' : Resolver}
  {m : Method} {owner : String} {majorVersion : UInt16} {p q : ConstantPool} {c : CodeAttribute}

def sampleClass : Summary := ⟨"A", some "java/lang/Object", [], ⟨0⟩, [], []⟩

def sampleMethod : Source.MethodDecl where
  modifiers := []
  returnType := ⟨.primitive .int, 0, 1⟩
  name := "next"
  params := [⟨⟨.primitive .int, 0, 1⟩, "x", 1⟩]
  body := [.ifThen (.binary .eq (.name "x" 2) (.literal (.int 7) 2) 2)
      (.retValue (.literal (.int 0) 2) 2) 2,
    .retValue (.binary .add (.name "x" 3) (.literal (.int 1) 3) 3) 3]
  endLine := 4
  line := 1

def hostile : Environment where
  answer _ _ := .error .null
  answer_kind := nofun
  isInstance _ _ := false

def sampleArguments : List Machine.Value := [.reference (.object 0), .int 41]

def returns42 (result : Option (Outcome × List Action)) : Bool :=
  match result with
  | some (.returned (some (.int v)), []) => v == 42
  | _ => false

/-- The method is accepted, code is generated for it, and it returns 42 if it is evaluated
directly. -/
theorem sampleMethod_code :
    ∃ m s', (bindMethod [] sampleClass sampleMethod).run.run {} = (.ok m, s') ∧
    m.kinds = [.reference, .int] ∧ returns42 (Direct.method hostile m sampleArguments) = true ∧
      ∃ c q, (m.code "A" 52).run.run .empty = (.ok c, q) := by
  have h : (match (bindMethod [] sampleClass sampleMethod).run.run {} with
      | (.ok m, _) => decide (m.kinds = [.reference, .int]) &&
          (returns42 (Direct.method hostile m sampleArguments) &&
            ((m.code "A" 52).run.run .empty).1.isOk)
      | (.error _, _) => false) = true := by decide +kernel
  generalize (bindMethod [] sampleClass sampleMethod).run.run {} = out at h ⊢
  obtain ⟨r, s'⟩ := out
  cases r with
  | error e => cases h
  | ok m =>
    simp only [Bool.and_eq_true, decide_eq_true_eq] at h
    obtain ⟨hkinds, hreturns, hok⟩ := h
    refine ⟨m, s', rfl, hkinds, hreturns, ?_⟩
    generalize (m.code "A" 52).run.run .empty = out at hok ⊢
    obtain ⟨r, q⟩ := out
    cases r with
    | error e => cases hok
    | ok c => exact ⟨c, q, rfl⟩

theorem wellFormed_of_bind (hbind : (bindMethod imports self d).run.run s = (.ok m, s')) :
    m.WellFormed := ensures_bindMethod imports self d s m s' hbind

/-- The code that is generated, and the body that it comes from. -/
theorem compiled_of_run (hm : m.WellFormed) (hp : p.WellFormed)
    (hcode : (m.code owner majorVersion).run.run p = (.ok c, q)) :
    ∃ F, Compiled m owner majorVersion p F c q :=
  (meets_code hm owner majorVersion hp).of_ok hcode

/-! ## 1. Failure -/

/-- The code splits into the operations of the body, each of which has an effect. -/
theorem Typed.Compiled.splits {F : Assembler} (h : Compiled m owner majorVersion p F c q)
    {r : ConstantPool} (hr : q ≤ r) :
    ∃ is, walk c.code = .ok is ∧ F.Split 0 F.operations.toList is ∧
      ∀ op ∈ F.operations.toList, ∃ taken left, op.effect r taken = some left := by
  obtain ⟨is, hwalk, hsplit⟩ :=
    h.finished.code.walk fun op hop => (h.valid.operations op hop).inRange
  refine ⟨is, hwalk, hsplit, fun op hop => ?_⟩
  obtain ⟨taken, left, heffect⟩ := (h.valid.operations op hop).effect
  exact ⟨taken, left, Operation.effect_mono (h.finished.pool.trans hr) heffect⟩

theorem Typed.invokedMethods_of_walk {code : List UInt8} {is : List Instruction}
    {ms : List (Option MemberRef)} {r : ConstantPool} (hwalk : walk code = .ok is)
    (hms : is.mapM (invokedMethod? r) = .ok ms) :
    invokedMethods code r = .ok (ms.filterMap id) := by
  unfold invokedMethods
  rw [hwalk]
  show (do
    let found ← is.mapM (invokedMethod? r)
    return found.filterMap id : Except ClassFile.Error (List MemberRef)) = _
  rw [hms]
  rfl

/-- Every constant that the code refers to can be used, and every method that it calls resolved. -/
theorem Typed.Compiled.checks {F : Assembler} (h : Compiled m owner majorVersion p F c q)
    {r : ConstantPool} (hr : q ≤ r) :
    checkConstantOperands c.code r = .ok () ∧ ∃ ms, invokedMethods c.code r = .ok ms := by
  obtain ⟨is, hwalk, hsplit, heffect⟩ := h.splits hr
  obtain ⟨ms, hms⟩ := hsplit.invokedMethods heffect
  refine ⟨?_, ms.filterMap id, invokedMethods_of_walk hwalk hms⟩
  unfold checkConstantOperands
  rw [hwalk]
  exact hsplit.checkConstantOperands heffect

/-- Code generation for a method that binding accepts fails only where a capacity of the class
format is exceeded.  What it generates passes the checks of constants, with the pool that it leaves
and with every larger one. -/
theorem code_succeeds_within_capacity (hbind : (bindMethod imports self d).run.run s = (.ok m, s'))
    (owner : String) (majorVersion : UInt16) (hp : p.WellFormed) :
    match (m.code owner majorVersion).run.run p with
    | (.error e, _) => e.cause.ExceedsCapacity
    | (.ok c, q) => ∀ r, q ≤ r →
      checkConstantOperands c.code r = .ok () ∧ ∃ ms, invokedMethods c.code r = .ok ms := by
  have h := (meets_code (wellFormed_of_bind hbind) owner majorVersion hp).fits
  generalize (m.code owner majorVersion).run.run p = out at h ⊢
  obtain ⟨r, q⟩ := out
  cases r with
  | error e => exact h
  | ok c =>
    obtain ⟨F, hF⟩ := h
    exact fun r hr => hF.checks hr

theorem code_succeeds_within_capacity_sample : ∃ m s' c q,
    (bindMethod [] sampleClass sampleMethod).run.run {} = (.ok m, s') ∧
      (m.code "A" 52).run.run .empty = (.ok c, q) ∧ checkConstantOperands c.code q = .ok () := by
  obtain ⟨m, s', hbind, -, -, c, q, hcode⟩ := sampleMethod_code
  have h := code_succeeds_within_capacity hbind "A" 52 ConstantPool.wellFormed_empty
  rw [hcode] at h
  exact ⟨m, s', c, q, hbind, hcode, (h q le_rfl).1⟩

/-! ## 2. Behaviour -/

/-- The generated code ends as the method does when it is evaluated directly, with the same actions
in the same order before that, and it does not end in any other way. -/
theorem code_ends_as_method (hbind : (bindMethod imports self d).run.run s = (.ok m, s'))
    (hp : p.WellFormed) (hcode : (m.code owner majorVersion).run.run p = (.ok c, q))
    {r : ConstantPool} (hr : q ≤ r) (env : Environment) {args : List Machine.Value}
    (hargs : args.map Machine.Value.kind = m.kinds) :
    ∃ outcome past, Direct.method env m args = some (outcome, past) ∧
      Reaches env (.ofCode r c) (.running 0 [] (Direct.passed args) []) (.ended outcome past) ∧
      ∀ outcome' past', Reaches env (.ofCode r c) (.running 0 [] (Direct.passed args) [])
        (.ended outcome' past') → outcome' = outcome ∧ past' = past := by
  obtain ⟨F, hF⟩ := compiled_of_run (wellFormed_of_bind hbind) hp hcode
  obtain ⟨outcome, past, hmethod, hreach⟩ :=
    hF.emits.runs (.refl F) (hF.finished.laid hF.valid hr) env args hargs
  exact ⟨outcome, past, hmethod, hreach, fun _ _ h => h.ended_unique hreach⟩

/-- With 41 the code of the sample returns 42. -/
theorem code_ends_as_method_sample : ∃ m s' c q,
    (bindMethod [] sampleClass sampleMethod).run.run {} = (.ok m, s') ∧
      (m.code "A" 52).run.run .empty = (.ok c, q) ∧ ∃ outcome past,
        returns42 (some (outcome, past)) = true ∧ Reaches hostile (.ofCode q c)
          (.running 0 [] (Direct.passed sampleArguments) []) (.ended outcome past) := by
  obtain ⟨m, s', hbind, hkinds, hreturns, c, q, hcode⟩ := sampleMethod_code
  have hargs : sampleArguments.map Machine.Value.kind = m.kinds := hkinds.symm
  obtain ⟨outcome, past, hmethod, hreach, -⟩ := code_ends_as_method hbind
    ConstantPool.wellFormed_empty hcode le_rfl hostile hargs
  rw [hmethod] at hreturns
  exact ⟨m, s', c, q, hbind, hcode, outcome, past, hreturns, hreach⟩

end MethodGraft
