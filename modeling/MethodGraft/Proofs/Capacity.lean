import Mathlib.Algebra.GroupWithZero.Nat
import MethodGraft.ClassFile.Error
import MethodGraft.Proofs.Runs

/-!
# Proofs.Capacity — steps that fail only when the class format is too small

A class file counts constants, bytes of code, lengths of texts and distances of jumps in sixteen
bits, and the arguments of an interface call in eight.  `Cause.ExceedsCapacity` holds of the
failures that come from these limits, where what the cause tells of is beyond its limit.  `Meets x s
Q` says that `x`, run from `s`, ends in `Q` or fails in such a way; it is what every step of code
generation is shown to do.
-/

namespace MethodGraft.ClassFile

/-- The cause is a limit of the class format, and what was to be held is beyond it. -/
def Cause.ExceedsCapacity : Cause → Prop
  | .poolFull entries isWide => 65535 < entries + if isWide then 2 else 1
  | .branchTooFar origin target =>
    (target : Int) - origin < -32768 ∨ 32767 < (target : Int) - origin
  -- the object of the call has a slot, too
  | .tooManyArguments _ type => 255 < (type.params.map FieldType.slots).sum + 1
  | .utf8TooLong bytes => 65535 < bytes
  | .codeLength bytes => 65535 < bytes
  | _ => False

/-- Run from `s`, the step ends in `Q` unless a capacity is exceeded. -/
def Meets {σ α : Type} (x : ExceptT Error (StateM σ) α) (s : σ) (Q : α → σ → Prop) : Prop :=
  match x.run.run s with
  | (.ok a, s') => Q a s'
  | (.error e, _) => e.cause.ExceedsCapacity

namespace Meets

variable {σ α β : Type} {x : ExceptT Error (StateM σ) α} {s : σ}

/-! ## 1. Composition -/

theorem ofRun {Q : α → σ → Prop} {a : α} {s' : σ} (hrun : x.run.run s = (.ok a, s'))
    (hQ : Q a s') : Meets x s Q := by
  unfold Meets
  rw [hrun]
  exact hQ

theorem ofPure {Q : α → σ → Prop} {a : α} (h : Q a s) :
    Meets (pure a : ExceptT Error (StateM σ) α) s Q := h

theorem ofGet {Q : σ → σ → Prop} (h : Q s s) :
    Meets (get : ExceptT Error (StateM σ) σ) s Q := h

theorem ofSet {Q : PUnit → σ → Prop} {s' : σ} (h : Q ⟨⟩ s') :
    Meets (set s' : ExceptT Error (StateM σ) PUnit) s Q := h

theorem ofModify {Q : PUnit → σ → Prop} {f : σ → σ} (h : Q ⟨⟩ (f s)) :
    Meets (modify f : ExceptT Error (StateM σ) PUnit) s Q := h

theorem ofThrow {Q : α → σ → Prop} {e : Error} (h : e.cause.ExceedsCapacity) :
    Meets (throw e : ExceptT Error (StateM σ) α) s Q := h

theorem bind {Q : β → σ → Prop} {f : α → ExceptT Error (StateM σ) β}
    (h : Meets x s fun a s' => Meets (f a) s' Q) : Meets (x >>= f) s Q := by
  unfold Meets at h ⊢
  rw [run_bind]
  generalize x.run.run s = out at h ⊢
  obtain ⟨r, s'⟩ := out
  cases r <;> exact h

/-- A step that is made only if `c` holds. -/
theorem bindIf {c : Prop} [Decidable c] {Q : β → σ → Prop} {x : ExceptT Error (StateM σ) PUnit}
    {f : PUnit → ExceptT Error (StateM σ) β}
    (h : Meets (if c then x else pure ⟨⟩) s fun a s' => Meets (f a) s' Q) :
    Meets (if c then x >>= f else f ⟨⟩) s Q := by
  split
  next hc =>
    rw [if_pos hc] at h
    exact .bind h
  next hc =>
    rw [if_neg hc] at h
    exact h

theorem mono {Q R : α → σ → Prop} (h : Meets x s Q) (hQR : ∀ a s', Q a s' → R a s') :
    Meets x s R := by
  unfold Meets at h ⊢
  generalize x.run.run s = out at h ⊢
  obtain ⟨r, s'⟩ := out
  cases r with
  | ok a => exact hQR a s' h
  | error e => exact h

/-! ## 2. What a run shows -/

theorem of_ok {Q : α → σ → Prop} (h : Meets x s Q) {a : α} {s' : σ}
    (hrun : x.run.run s = (.ok a, s')) : Q a s' := by
  unfold Meets at h
  rwa [hrun] at h

/-- What follows may use that the run ends so. -/
theorem withOk {Q R : α → σ → Prop} (h : Meets x s Q)
    (hQR : ∀ a s', x.run.run s = (.ok a, s') → Q a s' → R a s') : Meets x s R := by
  unfold Meets at h ⊢
  generalize x.run.run s = out at h hQR ⊢
  obtain ⟨r, s'⟩ := out
  cases r with
  | ok a => exact hQR a s' rfl h
  | error e => exact h

end Meets

/-! ## 3. Outcomes -/

def Fits {α : Type} (x : Except Error α) (Q : α → Prop) : Prop :=
  match x with
  | .ok a => Q a
  | .error e => e.cause.ExceedsCapacity

namespace Fits

variable {α β : Type} {x : Except Error α}

theorem bind {Q : β → Prop} {f : α → Except Error β} (h : Fits x fun a => Fits (f a) Q) :
    Fits (x >>= f) Q := by
  cases x with
  | ok a => exact h
  | error e => exact h

theorem mono {Q R : α → Prop} (h : Fits x Q) (hQR : ∀ a, Q a → R a) : Fits x R := by
  cases x with
  | ok a => exact hQR a h
  | error e => exact h

theorem of_ok {Q : α → Prop} (h : Fits x Q) {a : α} (hx : x = .ok a) : Q a := by
  subst hx
  exact h

/-- What is known of every result is known of the outcome. -/
theorem withOk {Q : α → Prop} (h : Fits x fun _ => True) (hQ : ∀ a, x = .ok a → Q a) :
    Fits x Q := by
  cases x with
  | ok a => exact hQ a rfl
  | error e => exact h

theorem mapM {f : α → Except Error β} {Q : α → β → Prop} :
    ∀ as : List α, (∀ a ∈ as, Fits (f a) (Q a)) → Fits (as.mapM f) fun bs => List.Forall₂ Q as bs
  | [], _ => by
    rw [List.mapM_nil]
    exact .nil
  | a :: as, h => by
    rw [List.mapM_cons]
    refine .bind ((h a List.mem_cons_self).mono fun b hb => .bind ?_)
    exact (mapM as fun a' ha' => h a' (List.mem_cons_of_mem a ha')).mono fun bs hbs => .cons hb hbs

end Fits

theorem Meets.ofExcept {σ α : Type} {x : Except Error α} {s : σ} {Q : α → σ → Prop}
    (h : Fits x fun a => Q a s) :
    Meets (ExceptT.mk (pure x) : ExceptT Error (StateM σ) α) s Q := by
  cases x with
  | ok a => exact h
  | error e => exact h

/-- The outcome of a run. -/
theorem Meets.fits {σ α : Type} {x : ExceptT Error (StateM σ) α} {s : σ} {Q : α → σ → Prop}
    (h : Meets x s Q) : Fits (x.run.run s).1 fun a => Q a (x.run.run s).2 := by
  unfold Meets at h
  generalize x.run.run s = out at h ⊢
  obtain ⟨r, s'⟩ := out
  cases r with
  | ok a => exact h
  | error e => exact h

-- from here on only what is shown above is used, and programs are not unfolded to compare
-- propositions
attribute [irreducible] Meets

end MethodGraft.ClassFile
