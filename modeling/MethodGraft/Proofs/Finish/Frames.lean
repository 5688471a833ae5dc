import Mathlib.Data.List.Perm.Subperm
import MethodGraft.Proofs.Finish.Code

/-!
# Proofs.Finish.Frames — the frames of a complete body

Every label that a jump or a handler leads to has a frame at its position, and of several labels at
one position the one made first gives it.  Sorting by position is stable, so this is what remains.
-/

namespace MethodGraft.Code

open ClassFile

/-! ## 1. One frame for each position -/

def LabelState.mapped? (s : LabelState) : Option (Nat × Frame) :=
  match s.targeted, s.position, s.frame with
  | true, some p, some f => some (p, f)
  | _, _, _ => none

theorem LabelState.mapped?_eq_some_iff {s : LabelState} {p : Nat} {f : Frame} :
    s.mapped? = some (p, f) ↔ s.targeted = true ∧ s.position = some p ∧ s.frame = some f := by
  obtain ⟨position, length, frame, targeted⟩ := s
  cases targeted <;> cases position <;> cases frame <;> simp [mapped?]

namespace Assembler

/-- The frames that the labels give their positions, in the order in which the labels were made. -/
def entries (a : Assembler) : List (Nat × Frame) := a.labels.toList.filterMap LabelState.mapped?

abbrev entryAt (fs : List (Nat × Frame)) (p : Nat) : Option (Nat × Frame) :=
  fs.find? fun e => e.1 = p

theorem entryAt_firstAtPosition (p : Nat) :
    ∀ fs : List (Nat × Frame), entryAt (firstAtPosition fs) p = entryAt fs p
  | [] => rfl
  | f :: rest => by
    have ih := entryAt_firstAtPosition p rest
    unfold firstAtPosition
    unfold entryAt at ih ⊢
    rw [List.find?_cons, ← ih]
    cases hrest : firstAtPosition rest with
    | nil => rw [List.find?_cons]
    | cons g later =>
      dsimp only
      by_cases hfg : f.1 = g.1
      · rw [if_pos hfg, List.find?_cons, List.find?_cons, ← hfg]
        split <;> rfl
      · rw [if_neg hfg, List.find?_cons]

theorem firstAtPosition_sublist : ∀ fs : List (Nat × Frame), List.Sublist (firstAtPosition fs) fs
  | [] => .slnil
  | f :: rest => by
    have ih := firstAtPosition_sublist rest
    unfold firstAtPosition
    cases hrest : firstAtPosition rest with
    | nil => exact .cons_cons f (List.nil_sublist rest)
    | cons g later =>
      rw [hrest] at ih
      dsimp only
      split
      · exact .cons_cons f ((List.sublist_cons_self g later).trans ih)
      · exact .cons_cons f ih

/-- Positions that do not fall grow once there is one frame for each. -/
theorem pairwise_firstAtPosition {fs : List (Nat × Frame)} (h : fs.Pairwise fun f g => f.1 ≤ g.1) :
    (firstAtPosition fs).Pairwise fun f g => f.1 < g.1 := by
  induction fs with
  | nil => exact .nil
  | cons f rest ih =>
    obtain ⟨hf, hrest⟩ := List.pairwise_cons.mp h
    have hlater := ih hrest
    have hsub := firstAtPosition_sublist rest
    unfold firstAtPosition
    cases hfirst : firstAtPosition rest with
    | nil => exact List.pairwise_singleton _ _
    | cons g later =>
      rw [hfirst] at hlater hsub
      obtain ⟨hg, hlater'⟩ := List.pairwise_cons.mp hlater
      have hle := hf g (hsub.subset List.mem_cons_self)
      dsimp only
      split
      next heq => exact List.pairwise_cons.mpr ⟨fun x hx => by rw [heq]; exact hg x hx, hlater'⟩
      next hne =>
        refine List.pairwise_cons.mpr ⟨fun x hx => ?_, hlater⟩
        rcases List.mem_cons.mp hx with rfl | hx
        · omega
        · have := hg x hx
          omega

abbrev earlier (f g : Nat × Frame) : Bool := f.1 ≤ g.1

theorem entryAt_mergeSort (p : Nat) (fs : List (Nat × Frame)) :
    entryAt (fs.mergeSort earlier) p = entryAt fs p := by
  have htrans (f g h : Nat × Frame) (hfg : earlier f g) (hgh : earlier g h) : earlier f h := by
    simp only [earlier, decide_eq_true_eq] at *
    omega
  have htotal (f g : Nat × Frame) : earlier f g || earlier g f := by
    simp only [earlier, Bool.or_eq_true, decide_eq_true_eq]
    omega
  -- the entries for one position keep their order, and all of them are still there
  have hpairwise : (fs.filter fun e => e.1 = p).Pairwise fun f g => earlier f g := by
    refine List.pairwise_iff_forall_sublist.mpr fun {f g} hfg => ?_
    have hf := hfg.subset (List.mem_cons_self)
    have hg := hfg.subset (List.mem_cons_of_mem f (List.mem_singleton.mpr rfl))
    simp only [List.mem_filter, decide_eq_true_eq] at hf hg
    simp [earlier, hf.2, hg.2]
  have hsub := List.sublist_mergeSort htrans htotal hpairwise List.filter_sublist
  have hsub' := hsub.filter fun e => e.1 = p
  rw [List.filter_filter] at hsub'
  have hsame : fs.filter (fun e => e.1 = p) = (fs.mergeSort earlier).filter fun e => e.1 = p := by
    refine List.Sublist.eq_of_length (by simpa using hsub') ?_
    exact ((List.mergeSort_perm fs earlier).filter _).length_eq.symm
  unfold entryAt
  rw [← List.head?_filter, ← List.head?_filter, hsame]

/-! ## 2. The frames of a body -/

variable {a : Assembler}

structure FramesOf (a : Assembler) (fs : List (Nat × Frame)) : Prop where
  sorted : fs.Pairwise fun f g => f.1 < g.1
  entryAt : ∀ p, entryAt fs p = entryAt a.entries p
  mem : ∀ e ∈ fs, e ∈ a.entries
  inside : ∀ e ∈ fs, e.1 < a.offset

theorem mem_entries {p : Nat} {f : Frame} (h : (p, f) ∈ a.entries) : ∃ l,
    (a.labelState l).targeted = true ∧ (a.labelState l).position = some p ∧
      (a.labelState l).frame = some f := by
  obtain ⟨s, hs, hentry⟩ := List.mem_filterMap.mp h
  obtain ⟨i, hi⟩ := List.mem_iff_getElem?.mp hs
  refine ⟨⟨i⟩, ?_⟩
  have hstate : a.labelState ⟨i⟩ = s := by
    rw [labelState, ← Array.getElem?_toList, hi]
    rfl
  rw [hstate]
  exact LabelState.mapped?_eq_some_iff.mp hentry

/-- A label that a jump leads to stands before the end of the code, where control does not get. -/
theorem Valid.position_lt (ha : a.Valid) (hdead : a.reachable = false) {l : Label} {p : Nat}
    (hp : (a.labelState l).position = some p) (hframe : (a.labelState l).frame.isSome) :
    p < a.offset := by
  have hle := (ha.labels l).position_le p hp
  have hne : p ≠ a.offset := by
    rintro rfl
    rw [(ha.dead hdead).2 l hp] at hframe
    cases hframe
  omega

theorem labelFrame?_eq_ok {s : LabelState} {e : Option (Nat × Frame)}
    (h : a.labelFrame? s = .ok e) :
    e = s.mapped? ∧ ∀ p f, s.mapped? = some (p, f) → p < a.offset := by
  obtain ⟨position, _, frame, targeted⟩ := s
  unfold labelFrame? at h
  split at h
  next p f htargeted hposition hframe =>
    obtain rfl : targeted = true := htargeted
    obtain rfl : position = some p := hposition
    obtain rfl : frame = some f := hframe
    split at h
    next hinside =>
      cases h
      refine ⟨rfl, ?_⟩
      rintro _ _ ⟨⟩
      exact hinside
    next => cases h
  next hnone =>
    cases h
    cases hmapped : LabelState.mapped? ⟨position, _, frame, targeted⟩ with
    | none => exact ⟨rfl, nofun⟩
    | some e =>
      obtain ⟨htargeted, hposition, hframe⟩ := LabelState.mapped?_eq_some_iff.mp hmapped
      exact absurd hframe (hnone e.1 e.2 htargeted hposition)

/-- The frames that are found are those of the labels, each of which stands before the end of the
code. -/
theorem framesOf_frames {fs : List (Nat × Frame)} (h : a.frames = .ok fs) : a.FramesOf fs := by
  obtain ⟨found, hfound, h⟩ := bind_eq_ok_iff.mp h
  cases h
  have hall := mapM_eq_ok_iff.mp hfound
  have hmapped : List.Forall₂ (fun s e => s.mapped? = e) a.labels.toList found :=
    hall.imp fun _ _ he => (labelFrame?_eq_ok he).1.symm
  rw [← List.forall₂_map_left_iff, List.forall₂_eq_eq_eq] at hmapped
  have hentries : found.filterMap id = a.entries := by
    rw [← hmapped, List.filterMap_map]
    rfl
  have hinside : ∀ e ∈ a.entries, e.1 < a.offset := by
    rintro ⟨p, f⟩ he
    obtain ⟨s, hs, hs'⟩ := List.mem_filterMap.mp he
    obtain ⟨_, -, hok⟩ := forall₂_mem_left hall s hs
    exact (labelFrame?_eq_ok hok).2 p f hs'
  rw [hentries]
  refine ⟨?_, fun p => ?_, fun e he => ?_, fun e he => hinside e ?_⟩
  · refine pairwise_firstAtPosition (List.Pairwise.imp ?_ (List.pairwise_mergeSort ?_ ?_ a.entries))
    · simp
    · simp only [decide_eq_true_eq]
      omega
    · simp only [Bool.or_eq_true, decide_eq_true_eq]
      omega
  · rw [entryAt_firstAtPosition, entryAt_mergeSort]
  · exact List.mem_mergeSort.mp ((firstAtPosition_sublist _).subset he)
  · exact List.mem_mergeSort.mp ((firstAtPosition_sublist _).subset he)

/-- The frames of a body that control does not run off are found. -/
theorem frames_eq_ok (ha : a.Valid) (hdead : a.reachable = false) :
    ∃ fs, a.frames = .ok fs ∧ a.FramesOf fs := by
  have hlabel : ∀ s ∈ a.labels.toList, a.labelFrame? s = .ok s.mapped? := by
    intro s hs
    obtain ⟨i, hi⟩ := List.mem_iff_getElem?.mp hs
    have hstate : a.labelState ⟨i⟩ = s := by
      rw [labelState, ← Array.getElem?_toList, hi]
      rfl
    obtain ⟨position, _, frame, targeted⟩ := s
    cases targeted with
    | false => rfl
    | true =>
      cases position with
      | none => rfl
      | some p =>
        cases frame with
        | none => rfl
        | some f =>
          exact if_pos (ha.position_lt hdead (l := ⟨i⟩) (by rw [hstate]) (by rw [hstate]; rfl))
  have hfound : a.labels.toList.mapM a.labelFrame? = .ok (a.labels.toList.map LabelState.mapped?) :=
    mapM_eq_ok_iff.mpr (List.forall₂_map_right_iff.mpr (List.forall₂_same.mpr hlabel))
  obtain ⟨fs, hframes⟩ : ∃ fs, a.frames = .ok fs := by
    unfold frames
    rw [hfound]
    exact ⟨_, rfl⟩
  exact ⟨fs, hframes, framesOf_frames hframes⟩

/-- There are no more frames than bytes of code. -/
theorem FramesOf.length_le {fs : List (Nat × Frame)} (h : a.FramesOf fs) :
    fs.length ≤ a.offset := by
  have hnodup : (fs.map Prod.fst).Nodup :=
    List.pairwise_map.mpr (h.sorted.imp fun hlt => Nat.ne_of_lt hlt)
  have hsubset : fs.map Prod.fst ⊆ List.range a.offset := by
    intro p hp
    obtain ⟨e, he, rfl⟩ := List.mem_map.mp hp
    exact List.mem_range.mpr (h.inside e he)
  have hle := (hnodup.subperm hsubset).length_le
  rwa [List.length_map, List.length_range] at hle

end Assembler

end MethodGraft.Code
