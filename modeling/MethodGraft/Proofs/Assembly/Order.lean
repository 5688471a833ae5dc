import MethodGraft.Proofs.Assembly.Step

/-!
# Proofs.Assembly.Order — what a body keeps while it grows

Operations, constants and handlers are added at the end, a label that has been placed stays as it
is, and one that is placed later has a later position.
-/

namespace MethodGraft.Code.Assembler

open ClassFile

structure Extends (a b : Assembler) : Prop where
  pool : a.pool ≤ b.pool
  operations : a.operations.toList <+: b.operations.toList
  offset : a.offset ≤ b.offset
  labels : a.labels.size ≤ b.labels.size
  placed : ∀ l p, (a.labelState l).position = some p → b.labelState l = a.labelState l
  later : ∀ l p, (a.labelState l).position = none → (b.labelState l).position = some p →
    a.offset ≤ p
  targeted : ∀ l, (a.labelState l).targeted = true → (b.labelState l).targeted = true
  frame : ∀ l f, (a.labelState l).frame = some f → (b.labelState l).frame = some f
  localsLength : ∀ l : Label, l.index < a.labels.size →
    (b.labelState l).localsLength = (a.labelState l).localsLength
  handlers : ∃ more, b.handlers.toList = a.handlers.toList ++ more ∧
    ∀ h ∈ more, ∃ p, (b.labelState h.start).position = some p ∧ a.offset ≤ p
  maxStack : a.maxStack ≤ b.maxStack
  maxLocals : a.maxLocals ≤ b.maxLocals

theorem Extends.refl (a : Assembler) : a.Extends a where
  pool := le_rfl
  operations := List.prefix_refl _
  offset := Nat.le_refl _
  labels := Nat.le_refl _
  placed _ _ _ := rfl
  later l p hnone hsome := by
    rw [hnone] at hsome
    cases hsome
  targeted _ h := h
  frame _ _ h := h
  localsLength _ _ := rfl
  handlers := ⟨[], by simp, by simp⟩
  maxStack := UInt16.le_refl _
  maxLocals := UInt16.le_refl _

theorem Extends.trans {a b c : Assembler} (hab : a.Extends b) (hbc : b.Extends c) :
    a.Extends c where
  pool := hab.pool.trans hbc.pool
  operations := hab.operations.trans hbc.operations
  offset := Nat.le_trans hab.offset hbc.offset
  labels := Nat.le_trans hab.labels hbc.labels
  placed l p h := by
    have hb := hab.placed l p h
    rw [hbc.placed l p (by rw [hb, h]), hb]
  later l p hnone hsome := by
    -- the label is placed in the second part, or in the first and then stays
    cases hb : (b.labelState l).position with
    | none => exact Nat.le_trans hab.offset (hbc.later l p hb hsome)
    | some p' =>
      rw [hbc.placed l p' hb, hb] at hsome
      cases hsome
      exact hab.later l p hnone hb
  targeted l h := hbc.targeted l (hab.targeted l h)
  frame l f h := hbc.frame l f (hab.frame l f h)
  localsLength l hl := by
    rw [hbc.localsLength l (Nat.lt_of_lt_of_le hl hab.labels), hab.localsLength l hl]
  handlers := by
    obtain ⟨more, hmore, hstart⟩ := hab.handlers
    obtain ⟨more', hmore', hstart'⟩ := hbc.handlers
    refine ⟨more ++ more', by rw [hmore', hmore, List.append_assoc], ?_⟩
    intro h hh
    rcases List.mem_append.mp hh with hh | hh
    · obtain ⟨p, hp, hle⟩ := hstart h hh
      exact ⟨p, by rw [hbc.placed _ _ hp, hp], hle⟩
    · obtain ⟨p, hp, hle⟩ := hstart' h hh
      exact ⟨p, hp, Nat.le_trans hab.offset hle⟩
  maxStack := UInt16.le_trans hab.maxStack hbc.maxStack
  maxLocals := UInt16.le_trans hab.maxLocals hbc.maxLocals

/-! ## 1. Labels -/

variable {a b : Assembler} {l : Label}

theorem LabelStep.placed_eq (h : LabelStep a b l) {p : Nat}
    (hp : (a.labelState l).position = some p) : b.labelState l = a.labelState l := by
  cases h with
  | kept state => exact state
  | made unmade =>
    rw [labelState_unmade unmade] at hp
    cases hp
  | aimed unplaced | passed unplaced =>
    rw [unplaced] at hp
    cases hp
  | placed _ arrives =>
    rw [arrives.unplaced] at hp
    cases hp

/-- A label that gets a position is placed where the code ends. -/
theorem LabelStep.position_cases (h : LabelStep a b l) {p : Nat}
    (hp : (b.labelState l).position = some p) :
    (a.labelState l).position = some p ∨ p = a.offset ∧ b.offset = a.offset := by
  cases h with
  | kept state => exact .inl (state ▸ hp)
  | made _ state =>
    rw [state] at hp
    cases hp
  | aimed _ state =>
    rw [state] at hp
    exact .inl hp
  | placed state arrives =>
    rw [state] at hp
    exact .inr ⟨(Option.some.inj hp).symm, arrives.offset⟩
  | passed _ _ _ offset state =>
    rw [state] at hp
    exact .inr ⟨(Option.some.inj hp).symm, offset⟩

theorem LabelStep.targeted (h : LabelStep a b l) (ht : (a.labelState l).targeted = true) :
    (b.labelState l).targeted = true := by
  cases h with
  | kept state => rw [state, ht]
  | made unmade =>
    rw [labelState_unmade unmade] at ht
    cases ht
  | aimed _ state => rw [state, LabelState.target]
  | placed state | passed _ _ _ _ state => rw [state, LabelState.settle, ht]

/-- The first frame stays. -/
theorem LabelStep.frame (h : LabelStep a b l) {f : Frame} (hf : (a.labelState l).frame = some f) :
    (b.labelState l).frame = some f := by
  cases h with
  | kept state => rw [state, hf]
  | made unmade =>
    rw [labelState_unmade unmade] at hf
    cases hf
  | aimed _ state => rw [state, LabelState.target, hf, Option.getD_some]
  | placed state arrives => rw [state, LabelState.settle, arrives.known f hf]
  | passed _ unknown =>
    rw [unknown] at hf
    cases hf

theorem LabelStep.localsLength (h : LabelStep a b l) (hl : l.index < a.labels.size) :
    (b.labelState l).localsLength = (a.labelState l).localsLength := by
  cases h with
  | kept state => rw [state]
  | made unmade => exact absurd hl (Nat.not_lt_of_le unmade)
  | aimed _ state => rw [state, LabelState.target]
  | placed state | passed _ _ _ _ state => rw [state, LabelState.settle]

/-! ## 2. Every step -/

theorem Step.handlers (h : Step a b) : ∃ more, b.handlers.toList = a.handlers.toList ++ more ∧
    ∀ h ∈ more, (a.labelState h.start).position = some a.offset := by
  cases h with
  | pass h => exact ⟨[], by rw [h.handlers, List.append_nil], nofun⟩
  | @guard h _ _ _ start => exact ⟨[h], by simp [guarding], by simpa using start⟩
  | jump | ret | newLabel | place | passBy | truncate => exact ⟨[], (List.append_nil _).symm, nofun⟩

theorem Step.extends (h : Step a b) : a.Extends b where
  pool := by
    cases h with
    | pass h => exact h.pool
    | guard _ _ _ _ _ _ pool_le => exact pool_le
    | jump | ret | newLabel | place | passBy | truncate => exact le_rfl
  operations := by
    have hpush (op : Operation) (hb : b.operations = a.operations.push op) :
        a.operations.toList <+: b.operations.toList := by
      rw [hb, Array.toList_push]
      exact List.prefix_append _ _
    cases h with
    | pass h => exact hpush _ h.operations
    | jump | ret => exact hpush _ rfl
    | newLabel | place | passBy | guard | truncate => exact List.prefix_refl _
  offset := by
    cases h with
    | pass h =>
      rw [h.offset]
      exact Nat.le_add_right _ _
    | jump | ret => exact Nat.le_add_right _ _
    | newLabel | place | passBy | guard | truncate => exact Nat.le_refl _
  labels := by
    cases h with
    | pass h => exact Nat.le_of_eq (congrArg Array.size h.labels.symm)
    | ret | truncate => exact Nat.le_refl _
    | newLabel =>
      show a.labels.size ≤ (a.labels.push _).size
      rw [Array.size_push]
      exact Nat.le_succ _
    | jump | place | passBy | guard => exact Nat.le_of_eq Array.size_modify.symm
  placed l _ hp := (h.label l).placed_eq hp
  -- a step places a label at the present offset only
  later l p hnone hsome := by
    -- the position is the old one, or the label is placed by this step
    rcases (h.label l).position_cases hsome with hold | ⟨rfl, -⟩
    · rw [hnone] at hold
      cases hold
    · exact Nat.le_refl _
  targeted l := (h.label l).targeted
  frame l _ := (h.label l).frame
  localsLength l := (h.label l).localsLength
  handlers := by
    obtain ⟨more, hmore, hstart⟩ := h.handlers
    refine ⟨more, hmore, fun r hr => ⟨a.offset, ?_, Nat.le_refl _⟩⟩
    rw [(h.label r.start).placed_eq (hstart r hr), hstart r hr]
  maxStack := by
    cases h with
    | pass h => exact h.maxStack.1
    | jump | ret | newLabel | place | passBy | guard | truncate => exact UInt16.le_refl _
  maxLocals := by
    cases h with
    | pass h => exact h.locals_le.1
    | jump | ret | newLabel | place | passBy | guard | truncate => exact UInt16.le_refl _

theorem Builds.extends (h : Builds a b) : a.Extends b := by
  induction h with
  | refl => exact .refl a
  | tail _ hstep ih => exact ih.trans hstep.extends

end MethodGraft.Code.Assembler
