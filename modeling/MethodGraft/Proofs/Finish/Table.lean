import MethodGraft.Proofs.Assembly.Meeting
import MethodGraft.Proofs.Finish.Layout
import MethodGraft.Proofs.Verify.Body

/-!
# Proofs.Finish.Table — what the stack map of a complete body says

Wherever a jump or a handler leads, the stack map has a frame.  It lists the stack that arrives, and
locals that arrive as well.
-/

namespace MethodGraft

open ClassFile Code Verify

/-! ## 1. Frames that control brings -/

namespace Verify

variable {k : KindFrame} {f g : Frame} {n : Nat}

/-- Control that comes with the kinds finds the stack of the frame, and the values that its locals
hold. -/
structure KindFrame.Gives (k : KindFrame) (f : Frame) : Prop where
  stack : kindsOf f.stack = k.stack.map some
  locals : ∀ i x, Layout.slots (kindsOf f.locals.toList) i = some x → k.locals.slots i = some x

theorem KindFrame.Gives.narrows (h : k.Gives g) (hfg : f.Narrows g) : k.Gives f where
  stack := hfg.stack.trans h.stack
  locals i x hi := h.locals i x (Layout.slots_mono hfg.locals hi)

theorem KindFrame.Gives.depth (h : k.Gives f) : f.kinds.depth = k.depth := by
  unfold KindFrame.depth Frame.kinds
  rw [h.stack, List.filterMap_map]
  simp

/-- A frame as it is read. -/
theorem gives_kinds (hf : f.Sound n) : f.kinds.Gives f where
  stack := hf.map_some_kinds.symm
  locals i x hi := by rw [hf.slots_kinds, hi]

/-- What is brought agrees with a frame as it is read. -/
theorem KindFrame.Gives.agrees (h : k.Gives f) (hf : f.Sound n) :
    f.kinds.stack = k.stack ∧ k.locals.Covers f.kinds.locals := by
  refine ⟨?_, Layout.covers_iff.mpr fun i x hi => ?_⟩
  · exact (List.map_inj_right fun _ _ => Option.some.inj).mp (hf.map_some_kinds.trans h.stack)
  · rw [hf.slots_kinds] at hi
    exact h.locals i x hi

end Verify

namespace Code.Assembler

variable {a F : Assembler} {l : Label} {p : Nat} {f : Frame} {fs : List (Nat × Frame)}

/-! ## 2. The first label of a position -/

theorem settles_iff : a.Settles l p f ↔ (a.labelState l).mapped? = some (p, f) := by
  rw [LabelState.mapped?_eq_some_iff]
  exact ⟨fun h => ⟨h.targeted, h.position, h.frame⟩, fun h => ⟨h.1, h.2.1, h.2.2⟩⟩

theorem entryAt_filterMap : ∀ (states : List LabelState) {i : Nat} {s : LabelState},
    states[i]? = some s → s.mapped? = some (p, f) → ∃ j t g, j ≤ i ∧ states[j]? = some t ∧
      t.mapped? = some (p, g) ∧ entryAt (states.filterMap LabelState.mapped?) p = some (p, g)
  | [], _, _, hi, _ => by cases hi
  | t :: states, i, s, hi, hs => by
    by_cases hhead : ∃ g, t.mapped? = some (p, g)
    · obtain ⟨g, hg⟩ := hhead
      refine ⟨0, t, g, Nat.zero_le i, rfl, hg, ?_⟩
      unfold entryAt
      rw [List.filterMap_cons_some hg, List.find?_cons_of_pos (by simp)]
    · -- the first state is not for this position
      cases i with
      | zero =>
        cases hi
        exact absurd ⟨f, hs⟩ hhead
      | succ i =>
        obtain ⟨j, u, g, hj, hu, hg, hentry⟩ := entryAt_filterMap states hi hs
        refine ⟨j + 1, u, g, Nat.succ_le_succ hj, hu, hg, ?_⟩
        rw [← hentry]
        unfold entryAt
        cases ht : t.mapped? with
        | none => rw [List.filterMap_cons_none ht]
        | some e =>
          have hne : e.1 ≠ p := by
            rintro rfl
            exact hhead ⟨e.2, ht⟩
          rw [List.filterMap_cons_some ht, List.find?_cons_of_neg (by simpa using hne)]

/-- The label that was made first gives the position its frame. -/
theorem Settles.entryAt (h : a.Settles l p f) : ∃ l' g, l'.index ≤ l.index ∧ a.Settles l' p g ∧
    entryAt a.entries p = some (p, g) := by
  have hmade : l.index < a.labels.size := by
    apply Nat.lt_of_not_le
    intro hge
    have hposition := h.position
    rw [labelState_unmade hge] at hposition
    cases hposition
  have hstate : a.labels.toList[l.index]? = some (a.labelState l) := by
    rw [labelState, Array.getElem?_toList, Array.getElem?_eq_getElem hmade]
    rfl
  obtain ⟨j, t, g, hj, ht, hg, hentry⟩ := entryAt_filterMap _ hstate (settles_iff.mp h)
  have hlabel : a.labelState ⟨j⟩ = t := by
    rw [labelState, ← Array.getElem?_toList, ht]
    rfl
  exact ⟨⟨j⟩, g, hj, settles_iff.mpr (hlabel ▸ hg), hentry⟩

/-! ## 3. The stack map -/

theorem at?_tableOf (fs : List (Nat × Frame)) (p : Nat) :
    (tableOf fs).at? p = (Assembler.entryAt fs p).map fun e => e.2.kinds := by
  unfold Table.at? tableOf
  rw [List.find?_map, Option.map_map]
  rfl

/-- The stack map has a frame wherever control may go to. -/
theorem FramesOf.at?_of_settles (hfs : F.FramesOf fs) (haligned : F.Aligned) (h : F.Settles l p f) :
    ∃ l' g, F.Settles l' p g ∧ g.Narrows f ∧ (tableOf fs).at? p = some g.kinds := by
  obtain ⟨l', g, hle, hg, hentry⟩ := h.entryAt
  refine ⟨l', g, hg, haligned.order l' l p g f hg h hle, ?_⟩
  rw [at?_tableOf, hfs.entryAt, hentry]
  rfl

theorem FramesOf.settles_of_at? (hfs : F.FramesOf fs) {k : KindFrame}
    (h : (tableOf fs).at? p = some k) : ∃ l f, F.Settles l p f ∧ k = f.kinds := by
  rw [at?_tableOf, hfs.entryAt] at h
  obtain ⟨⟨q, f⟩, hentry, rfl⟩ := Option.map_eq_some_iff.mp h
  have hq : decide (q = p) = true := List.find?_some (p := fun e : Nat × Frame => e.1 = p) hentry
  obtain rfl : q = p := of_decide_eq_true hq
  obtain ⟨l, htargeted, hposition, hframe⟩ := mem_entries (List.mem_of_find?_eq_some hentry)
  exact ⟨l, f, ⟨htargeted, hposition, hframe⟩, rfl⟩

end Code.Assembler

end MethodGraft
