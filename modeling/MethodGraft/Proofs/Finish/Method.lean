import MethodGraft.Proofs.Emission.Method
import MethodGraft.Proofs.Finish.Layout

/-!
# Proofs.Finish.Method — the Code attribute of a method

A well-formed method becomes a Code attribute unless a capacity is exceeded.
-/

namespace MethodGraft.Typed

open ClassFile Code Assembly Assembler Machine Direct

variable {m : Method} {p : ConstantPool} {owner : String} {majorVersion : UInt16}

structure Compiled (m : Method) (owner : String) (majorVersion : UInt16) (p : ConstantPool)
    (F : Assembler) (c : CodeAttribute) (q : ConstantPool) : Prop where
  emits : EmitsMethod m (m.start owner p) F
  finished : F.Finished majorVersion c q
  valid : F.Valid

theorem settled_of_quiet {a b : Assembler} (h : Quiet [] a b) (ha : a.labels.size = 0) :
    b.Settled :=
  fun l ht => h.settled l (by omega) (by simp) ht

theorem meets_code (hm : m.WellFormed) (owner : String) (majorVersion : UInt16)
    (hp : p.WellFormed) :
    Meets (m.code owner majorVersion) p fun c q => ∃ F, Compiled m owner majorVersion p F c q := by
  have hready := m.ready_start hm owner hp
  have hassembly : Meets (do m.emit; finish majorVersion : Assembly CodeAttribute) (m.start owner p)
      fun c b => ∃ F, Compiled m owner majorVersion p F c b.pool := by
    refine .bind ((meets_emit hm hready nofun).mono fun _ F hF => ?_)
    have hvalid := hready.valid.builds hF.quiet.builds
    have hlayout :=
      meets_layout hvalid hF.closed hF.dead (settled_of_quiet hF.quiet rfl) majorVersion
    refine .bind (.ofGet ((meets_intern hlayout).mono fun c b hb => ⟨F, hF, hb.1, hvalid⟩))
  unfold Method.code
  extract_lets receiver assembly
  refine .bind (.ofGet ?_)
  have hfits := hassembly.fits
  split
  next r a hrun =>
    change assembly.run.run (m.start owner p) = (r, a) at hrun
    change Fits (assembly.run.run (m.start owner p)).1 _ at hfits
    rw [hrun] at hfits
    exact .bind (.ofSet (.ofExcept hfits))

end MethodGraft.Typed
