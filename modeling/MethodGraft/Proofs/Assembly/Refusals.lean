import MethodGraft.Proofs.Assembly.Widths

/-!
# Proofs.Assembly.Refusals — stacks that do not meet

A label keeps the first frame that is recorded for it.  A call that brings another number of values
to it fails, whether it jumps, places the label or names it as a handler.
-/

namespace MethodGraft.Code

open ClassFile Assembly Verify

namespace Assembler

variable {α β : Type} {a b : Assembler} {e : Error} {l : Label} {f g : Frame} {op : Operation}

/-- The action fails with the error. -/
def Fails (x : Assembly α) (e : Error) (a : Assembler) : Prop := (x.run.run a).1 = .error e

theorem Fails.bind {x : Assembly α} {y : α → Assembly β} (h : Fails x e a) :
    Fails (x >>= y) e a := by
  unfold Fails at h ⊢
  rw [run_bind]
  generalize x.run.run a = out at h
  obtain ⟨result, b⟩ := out
  cases h
  rfl

theorem Fails.after {x : Assembly α} {y : α → Assembly β} {r : α} (hx : x.run.run a = (.ok r, b))
    (h : Fails (y r) e b) : Fails (x >>= y) e a := by
  unfold Fails at h ⊢
  rwa [run_bind, hx]

/-- What fails does not succeed. -/
theorem Fails.not_ok {x : Assembly α} {r : α} (h : Fails x e a) (hx : x.run.run a = (.ok r, b)) :
    False := by
  unfold Fails at h
  rw [hx] at h
  cases h

/-! ## 1. Recording a frame -/

theorem fails_recordFrame (hl : l.index < a.labels.size) (hg : (a.labelState l).frame = some g)
    (hne : g.stack.length ≠ f.stack.length) :
    Fails (recordFrame l f) ⟨.stackMismatch l.index, []⟩ a := by
  unfold Fails
  rw [run_recordFrame_aimed hl, hg]
  dsimp only
  rw [if_pos hne]
  rfl

theorem fails_jump (hreach : a.reachable = true) (hl : l.index < a.labels.size)
    (hg : (a.labelState l).frame = some g)
    (hne : g.stack.length ≠ a.stack.length) : Fails (jump op l) ⟨.stackMismatch l.index, []⟩ a := by
  unfold jump
  refine .after (run_emit hreach) ?_
  exact .after (r := a.frameUpTo (a.labelState l).localsLength) rfl (fails_recordFrame hl hg hne)

theorem fails_branch {opcode : UInt8} {test : Test} (ha : a.Counted)
    (htest : Test.ofOpcode? opcode = some test)
    (hreach : a.reachable = true) (hoperands : test.operands ≤ a.stack.length)
    (hl : l.index < a.labels.size) (hg : (a.labelState l).frame = some g)
    (hne : g.stack.length ≠ (a.stack.drop test.operands).length) :
    Fails (branchBy opcode l) ⟨.stackMismatch l.index, []⟩ a := by
  have hpops : (popMany test.operands).run.run a =
      (.ok ⟨⟩, a.withStack (a.stack.drop test.operands) a.maxStack) := by
    have hrun := run_popMany (a := a) (List.take_append_drop test.operands a.stack).symm
      (ha.trans (stackWidth_eq a.stack).symm)
    rwa [List.length_take, Nat.min_eq_left hoperands] at hrun
  unfold branchBy
  rw [htest]
  dsimp only
  unfold branch Fails
  rw [run_get_bind]
  dsimp only
  rw [if_neg (by simp [hreach])]
  exact Fails.after hpops (fails_jump hreach hl hg hne)

theorem fails_place (hreach : a.reachable = true) (hunplaced : (a.labelState l).position = none)
    (hg : (a.labelState l).frame = some g) (hne : g.stack.length ≠ a.stack.length) :
    Fails (place l) ⟨.stackMismatch l.index, []⟩ a := by
  unfold Fails
  rw [run_place hunplaced, hg]
  dsimp only
  rw [if_pos ⟨hreach, hne⟩]

theorem fails_addHandler {start stop handler : Label} {catchType : Option String}
    (hname : catchType.all (fun name => ((Interning.classRef name).run.run a.pool).1.isOk) = true)
    (hl : handler.index < a.labels.size) (hg : (a.labelState handler).frame = some g)
    (hne : g.stack.length ≠ 1) :
    Fails (addHandler start stop handler catchType) ⟨.stackMismatch handler.index, []⟩ a := by
  have hrest {i : UInt16} {pool : ConstantPool} {name : String} : Fails (do
      let frame ← frameFor handler
      recordFrame handler { frame with stack := [.object name] }
      modify fun a => { a with handlers := a.handlers.push ⟨start, stop, handler, i⟩ })
      ⟨.stackMismatch handler.index, []⟩ { a with pool } := by
    refine .after (r := { a with pool }.frameUpTo (a.labelState handler).localsLength) rfl ?_
    exact (fails_recordFrame (a := { a with pool }) (f := ⟨_, [.object name]⟩) hl hg hne).bind
  unfold addHandler
  cases catchType with
  | none => exact Fails.after (r := (0 : UInt16)) rfl hrest
  | some name =>
    obtain ⟨i, hi⟩ := exists_of_isOk hname
    have hintern : (intern (Interning.classRef name)).run.run a =
        (.ok i, { a with pool := ((Interning.classRef name).run.run a.pool).2 }) := Prod.ext hi rfl
    exact Fails.after hintern hrest

end Assembler

/-! ## 2. Calls -/

namespace Assembly

open Assembler

variable {a b : Assembler} {c : Call} {l : Label} {stack : List VerificationType} {f : Frame}

/-- A call that brings other than as many values as are known at the label is refused. -/
theorem Call.fails (ha : a.Counted) (hl : l.index < a.labels.size)
    (hedge : c.edge? a = some (l, stack))
    (hf : (a.labelState l).frame = some f) (hne : f.stack.length ≠ stack.length) :
    Fails c.run ⟨.stackMismatch l.index, []⟩ a := by
  cases c with
  | place l' =>
    obtain ⟨⟨hreach, hunplaced⟩, hedge⟩ := Option.ite_none_right_eq_some.mp hedge
    cases hedge
    exact fails_place hreach hunplaced hf hne
  | branch opcode l' =>
    obtain ⟨test, htest, hedge⟩ := Option.bind_eq_some_iff.mp hedge
    obtain ⟨⟨hreach, hoperands⟩, hedge⟩ := Option.ite_none_right_eq_some.mp hedge
    cases hedge
    exact fails_branch ha htest hreach hoperands hl hf hne
  | goto l' =>
    obtain ⟨hreach, hedge⟩ := Option.ite_none_right_eq_some.mp hedge
    cases hedge
    exact (fails_jump hreach hl hf hne).bind
  | addHandler start stop handler catchType =>
    obtain ⟨hname, hedge⟩ := Option.ite_none_right_eq_some.mp hedge
    cases hedge
    exact fails_addHandler hname hl hf hne
  | _ => cases hedge

/-- A call that succeeds brings as many values as are known. -/
theorem Call.length_of_edge (ha : a.Counted) (hl : ∀ l ∈ c.labels, l.index < a.labels.size)
    (h : c.run.run.run a = (.ok ⟨⟩, b)) (hedge : c.edge? a = some (l, stack))
    (hf : (a.labelState l).frame = some f) : f.stack.length = stack.length := by
  by_contra hne
  exact (Call.fails ha (hl l (Call.mem_labels_of_edge hedge)) hedge hf hne).not_ok h

end Assembly

end MethodGraft.Code
