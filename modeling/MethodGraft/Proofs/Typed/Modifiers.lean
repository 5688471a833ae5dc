import Mathlib.Data.Nat.Bitwise
import MethodGraft.Proofs.Runs
import MethodGraft.Typed.Bind

/-!
# Proofs.Typed.Modifiers — methods have the flags of their modifiers

The flags of a method come from the modifiers in front of its declaration, and from nothing else.
-/

namespace MethodGraft

/-! ## 1. Flags -/

namespace ClassFile.AccessFlags

/-- The fourth bit tells whether a method is static. -/
theorem isStatic_eq_testBit (flags : AccessFlags) :
    flags.isStatic = flags.bits.toNat.testBit 3 := by
  have hand : (flags.bits &&& 8).toNat = (flags.bits.toNat.testBit 3).toNat * 8 := by
    rw [UInt16.toNat_and]
    exact Nat.and_two_pow flags.bits.toNat 3
  show (flags.bits &&& 8 == 8) = _
  rw [Bool.eq_iff_iff, beq_iff_eq, ← UInt16.toNat_inj, hand]
  cases flags.bits.toNat.testBit 3 <;> simp

theorem isStatic_union (a b : AccessFlags) : (a.union b).isStatic = (a.isStatic || b.isStatic) := by
  simp only [isStatic_eq_testBit, union, UInt16.toNat_or, Nat.testBit_or]

def withModifiers (flags : AccessFlags) (words : List Source.Keyword) : AccessFlags :=
  words.foldl (fun flags word => flags.union ((ofModifier? word.text).getD ⟨0⟩)) flags

/-- Of all words only one makes a method static. -/
theorem isStatic_ofModifier? (word : Source.Keyword) :
    ((ofModifier? word.text).getD ⟨0⟩).isStatic = (word == .kwStatic) := by
  cases word <;> rfl

theorem isStatic_withModifiers (flags : AccessFlags) (words : List Source.Keyword) :
    (flags.withModifiers words).isStatic = (flags.isStatic || words.contains .kwStatic) := by
  induction words generalizing flags with
  | nil => simp [withModifiers]
  | cons word words ih =>
    show (withModifiers (flags.union _) words).isStatic = _
    rw [ih, isStatic_union, isStatic_ofModifier?, List.contains_cons, Bool.or_assoc, BEq.comm]

end ClassFile.AccessFlags

/-! ## 2. Methods -/

namespace Typed

open ClassFile Classpath

theorem ensures_addModifiers (line : Nat) (flags : AccessFlags) (words : List Source.Keyword) :
    Ensures (addModifiers line flags words) fun found => found = flags.withModifiers words := by
  induction words generalizing flags with
  | nil => exact .ofPure rfl
  | cons word words ih =>
    unfold addModifiers
    split
    next => exact .ofThrow
    next flag hflag =>
      refine .refusing fun _ => (ih _).mono fun found hfound => ?_
      rw [hfound, AccessFlags.withModifiers, AccessFlags.withModifiers, List.foldl_cons, hflag]
      rfl

/-- The flags of a method are those of its modifiers. -/
theorem ensures_bindMethod_flags (imports : List String) (self : Summary) (d : Source.MethodDecl) :
    Ensures (bindMethod imports self d) fun m =>
    m.flags = AccessFlags.withModifiers ⟨0⟩ d.modifiers := by
  unfold bindMethod
  refine (ensures_addModifiers d.line ⟨0⟩ d.modifiers).bind fun flags hflags =>
    .refusing fun _ => ?_
  extract_lets isStatic scope bindBody
  have hbody (ret : Option FieldType) : Ensures (bindBody ret) fun m => m.flags = flags := by
    refine .after fun _ => .after fun _ => .refusing fun _ => .ofPure rfl
  rw [← hflags]
  split
  next => exact hbody none
  next => exact .after hbody

end Typed

end MethodGraft
