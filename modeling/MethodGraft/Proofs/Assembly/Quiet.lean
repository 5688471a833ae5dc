import MethodGraft.Proofs.Assembly.Control

/-!
# Proofs.Assembly.Quiet — which labels a stretch of code touches

Code for a part of a tree jumps to labels that it makes and places itself, and to few others.
`Quiet free a b` says that the code between `a` and `b` touches no older label outside of `free` and
has placed every label that it has made and jumps to, those in `free` excepted.
-/

namespace MethodGraft.Code.Assembler

open ClassFile Typed Assembly

variable {a b c : Assembler} {layout : Layout} {stack : List ValueKind} {op : Operation} {l : Label}
  {free free' : List Label}

/-- The code between `a` and `b` leaves all labels alone but those in `free` and its own. -/
structure Quiet (free : List Label) (a b : Assembler) : Prop where
  builds : Builds a b
  kept : ∀ l : Label, l.index < a.labels.size → l ∉ free → b.labelState l = a.labelState l
  settled : ∀ l : Label, a.labels.size ≤ l.index → l ∉ free → (b.labelState l).targeted = true →
    (b.labelState l).position.isSome

namespace Quiet

theorem refl (a : Assembler) : Quiet [] a a where
  builds := .refl
  kept _ _ _ := rfl
  settled l hle _ ht := by
    rw [labelState_unmade hle] at ht
    cases ht

theorem trans (hab : Quiet free a b) (hbc : Quiet free' b c) : Quiet (free ++ free') a c where
  builds := hab.builds.trans hbc.builds
  kept l hl hfree := by
    rw [List.mem_append, not_or] at hfree
    rw [hbc.kept l (Nat.lt_of_lt_of_le hl hab.builds.extends.labels) hfree.2, hab.kept l hl hfree.1]
  settled l hle hfree ht := by
    rw [List.mem_append, not_or] at hfree
    by_cases hb : l.index < b.labels.size
    · rw [hbc.kept l hb hfree.2] at ht ⊢
      exact hab.settled l hle hfree.1 ht
    · exact hbc.settled l (Nat.le_of_not_lt hb) hfree.2 ht

/-- Labels of the code itself need not be mentioned once they are placed. -/
theorem close (h : Quiet free a b) (hfree : ∀ l ∈ free, l ∈ free' ∨
    (a.labels.size ≤ l.index ∧ (b.labelState l).position.isSome)) : Quiet free' a b where
  builds := h.builds
  kept l hl hnot := by
    refine h.kept l hl fun hmem => ?_
    rcases hfree l hmem with hin | hnew
    · exact hnot hin
    · omega
  settled l hle hnot ht := by
    by_cases hmem : l ∈ free
    · rcases hfree l hmem with hin | hnew
      · exact absurd hin hnot
      · exact hnew.2
    · exact h.settled l hle hmem ht

/-- No older label is placed. -/
theorem position (h : Quiet free a b) (hfree : ∀ l ∈ free, a.labels.size ≤ l.index) (l : Label)
    (hl : l.index < a.labels.size) : (b.labelState l).position = (a.labelState l).position := by
  rw [h.kept l hl fun hmem => Nat.not_lt.mpr (hfree l hmem) hl]

/-- A step that makes no label. -/
theorem ofStep (h : Step a b)
    (hkept : ∀ l, l ∉ free → b.labelState l = a.labelState l) : Quiet free a b where
  builds := .single h
  kept l _ hfree := hkept l hfree
  settled l hle hfree ht := by
    rw [hkept l hfree, labelState_unmade hle] at ht
    cases ht

end Quiet

theorem quiet_newLabel : Quiet [] a a.labelled where
  builds := .single .newLabel
  kept l hl _ := by rw [labelState_labelled, if_neg (Nat.ne_of_lt hl)]
  settled l hle _ ht := by
    rw [labelState_labelled] at ht
    split at ht
    next => cases ht
    next =>
      rw [labelState_unmade hle] at ht
      cases ht

theorem Emits.quiet (h : Emits a b op layout stack) : Quiet [] a b :=
  .ofStep (.pass h.passes) fun l _ => by
    rw [labelState, h.passes.labels]
    rfl

theorem JumpsTo.quiet {onward : Bool} (h : a.JumpsTo op l stack onward b)
    (hl : l.index < a.labels.size) : Quiet [l] a b := by
  obtain ⟨hstep, types, -, rfl⟩ := h
  refine .ofStep hstep fun l' hne => ?_
  rw [labelState_jumped hl, if_neg (by simpa using hne)]

/-- A label can be reached where it is placed if control was there or the label has been jumped
to. -/
theorem Places.reachable_iff (h : Places a b l layout stack) :
    b.reachable = true ↔ a.reachable = true ∨ (a.labelState l).targeted = true := by
  refine ⟨fun hb => Decidable.byContradiction fun hnot => ?_, fun hor => (h.ready hor).reachable⟩
  rw [not_or] at hnot
  have hdead := h.dead (by simpa using hnot.1) (by simpa using hnot.2)
  rw [hb] at hdead
  cases hdead

theorem Places.ready_of (h : Places a b l layout stack) (hb : b.reachable = true) :
    b.Ready layout stack := h.ready (h.reachable_iff.mp hb)

theorem Places.position (h : Places a b l layout stack) :
    (b.labelState l).position = some a.offset := by
  rw [h.labels, if_pos rfl]
  rfl

theorem Places.quiet (h : Places a b l layout stack) : Quiet [l] a b := by
  refine .ofStep h.step fun l' hne => ?_
  rw [h.labels, if_neg (by simpa using hne)]

theorem quiet_returned {k : Option ValueKind} (h : Step a (a.returned (.ret k))) :
    Quiet [] a (a.returned (.ret k)) := .ofStep h fun _ _ => rfl

theorem quiet_truncated (h : a.Closed) (length : Nat) : Quiet [] a (a.truncated length) :=
  .ofStep (.truncate h) fun _ _ => rfl

/-! ## 1. Labels that wait -/

structure Aims (a b : Assembler) (l : Label) (layout : Layout) (stack : List ValueKind) : Prop where
  position : (b.labelState l).position = (a.labelState l).position
  expects : b.Expects l layout stack
  grown : (b.labelState l).targeted = true → (a.labelState l).targeted = true ∨ a.offset < b.offset

theorem Aims.ofKept (h : a.Expects l layout stack) (hsame : b.labelState l = a.labelState l) :
    Aims a b l layout stack where
  position := by rw [hsame]
  expects f hf := h f (by rwa [hsame] at hf)
  grown ht := .inl (by rwa [hsame] at ht)

theorem Aims.trans (hab : Aims a b l layout stack) (hbc : Aims b c l layout stack)
    (hoffset : a.offset ≤ b.offset ∧ b.offset ≤ c.offset) : Aims a c l layout stack where
  position := hbc.position.trans hab.position
  expects := hbc.expects
  grown ht := by
    rcases hbc.grown ht with hb | hlt
    · rcases hab.grown hb with ha | hlt
      · exact .inl ha
      · exact .inr (Nat.lt_of_lt_of_le hlt hoffset.2)
    · exact .inr (Nat.lt_of_le_of_lt hoffset.1 hlt)

/-- Code that does not touch the label. -/
theorem Aims.quiet (h : Aims a b l layout stack) (hbc : Quiet free b c)
    (hl : l.index < b.labels.size) (hfree : l ∉ free) (hoffset : a.offset ≤ b.offset) :
    Aims a c l layout stack :=
  h.trans (.ofKept h.expects (hbc.kept l hl hfree)) ⟨hoffset, hbc.builds.extends.offset⟩

theorem JumpsTo.aims {onward : Bool} (h : a.JumpsTo op l stack onward b)
    (hl : l.index < a.labels.size) (hexpects : a.Expects l layout stack)
    (hlocals : kindsOf a.locals.toList = layout) : Aims a b l layout stack := by
  obtain ⟨-, types, htypes, rfl⟩ := h
  have hstate : (a.jumped op l types onward).labelState l = _ :=
    (labelState_jumped hl l).trans (if_pos rfl)
  refine ⟨by rw [hstate]; rfl, fun f hf => ?_, fun _ => .inr (Nat.lt_add_of_pos_right op.size_pos)⟩
  rw [hstate] at hf
  rcases LabelState.frame_target hf with hknown | ⟨-, rfl⟩
  · exact hexpects f hknown
  · exact ⟨hlocals, htypes⟩

/-- The label is still to be placed, where the kinds are these. -/
structure Waits (a : Assembler) (l : Label) (layout : Layout) (stack : List ValueKind) : Prop where
  made : l.index < a.labels.size
  unplaced : (a.labelState l).position = none
  length : (a.labelState l).localsLength = layout.length
  expects : a.Expects l layout stack

theorem Waits.awaits (h : a.Waits l layout stack) (hlocals : kindsOf a.locals.toList = layout) :
    a.Awaits l where
  made := h.made
  unplaced := h.unplaced
  length := by rw [h.length, ← hlocals, length_kindsOf, Array.length_toList]

theorem Waits.later (h : a.Waits l layout stack) (hab : a.Extends b)
    (haims : Aims a b l layout stack) : b.Waits l layout stack where
  made := Nat.lt_of_lt_of_le h.made hab.labels
  unplaced := haims.position.trans h.unplaced
  length := (hab.localsLength l h.made).trans h.length
  expects := haims.expects

/-- Code that does not touch the label. -/
theorem Waits.quiet (h : a.Waits l layout stack) (hab : Quiet free a b) (hfree : l ∉ free) :
    b.Waits l layout stack :=
  h.later hab.builds.extends (.ofKept h.expects (hab.kept l h.made hfree))

theorem labelState_next (a : Assembler) :
    a.labelled.labelState ⟨a.labels.size⟩ = { localsLength := a.locals.size } := by
  rw [labelState_labelled, if_pos rfl]

theorem size_labelled (a : Assembler) : a.labelled.labels.size = a.labels.size + 1 :=
  Array.size_push _

theorem waits_labelled (hlocals : a.locals.size = layout.length) :
    a.labelled.Waits ⟨a.labels.size⟩ layout stack where
  made := by
    rw [size_labelled]
    exact Nat.lt_succ_self _
  unplaced := by rw [labelState_next]
  length := by rw [labelState_next, hlocals]
  expects f hf := by
    rw [labelState_next] at hf
    cases hf

/-- A label that is still as it was made. -/
theorem aims_fresh {n : Nat} (h : b.labelState l = { localsLength := n })
    (hl : a.labels.size ≤ l.index) : Aims a b l layout stack where
  position := by rw [h, labelState_unmade hl]
  expects f hf := by
    rw [h] at hf
    cases hf
  grown ht := by
    rw [h] at ht
    cases ht

/-- The label was made after `a`, waits in `b`, and was jumped to between the two if at all. -/
structure Pending (a b : Assembler) (l : Label) (layout : Layout) (stack : List ValueKind) :
    Prop where
  waits : b.Waits l layout stack
  aims : Aims a b l layout stack
  later : a.labels.size ≤ l.index
  built : a.Extends b

namespace Pending

theorem labelled (hab : a.Extends b) (hlocals : b.locals.size = layout.length) :
    Pending a b.labelled ⟨b.labels.size⟩ layout stack where
  waits := waits_labelled hlocals
  aims := aims_fresh (labelState_next b) hab.labels
  later := hab.labels
  built := hab.trans Step.newLabel.extends

theorem aim (h : Pending a b l layout stack) (hbc : b.Extends c) (haims : Aims b c l layout stack) :
    Pending a c l layout stack where
  waits := h.waits.later hbc haims
  aims := h.aims.trans haims ⟨h.built.offset, hbc.offset⟩
  later := h.later
  built := h.built.trans hbc

theorem quiet (h : Pending a b l layout stack) (hbc : Quiet free b c) (hfree : l ∉ free) :
    Pending a c l layout stack :=
  h.aim hbc.builds.extends (.ofKept h.waits.expects (hbc.kept l h.waits.made hfree))

/-- The label can be placed where no older label has been placed since it was made. -/
theorem placeable (h : Pending a b l layout stack) (ha : a.Valid) (hclosed : b.Closed)
    (hposition : ∀ l' : Label, l'.index < a.labels.size →
      (b.labelState l').position = (a.labelState l').position)
    (hgroup : ∀ l' : Label, a.labels.size ≤ l'.index → l'.index < l.index →
      (b.labelState l').localsLength = layout.length) :
    b.Placeable l layout stack where
  made := h.waits.made
  unplaced := h.waits.unplaced
  length := h.waits.length
  expects := h.waits.expects
  -- of the labels before this one, those from before the block stand further back, and those made
  -- in it have as many locals
  first ht l' hlt hp := by
    by_cases hold : l'.index < a.labels.size
    · -- an older label was placed before the jump to this one
      have hgrown : a.offset < b.offset := by
        rcases h.aims.grown ht with h' | h'
        · rw [labelState_unmade h.later] at h'
          cases h'
        · exact h'
      rw [hposition l' hold] at hp
      have := (ha.labels l').position_le _ hp
      omega
    · have hlength := hgroup l' (Nat.le_of_not_lt hold) hlt
      have := h.waits.length
      omega
  closes r hr := .inr (hclosed r hr)
  nonempty r hr hstop := by
    have hsome := hclosed r hr
    rw [hstop, h.waits.unplaced] at hsome
    cases hsome

end Pending

end MethodGraft.Code.Assembler
