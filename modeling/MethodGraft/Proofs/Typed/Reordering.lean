import MethodGraft.Proofs.Classpath.Reordering
import MethodGraft.Proofs.Typed.Choice

/-!
# Proofs.Typed.Reordering — calls do not depend on the order of declaration

In whatever order classes declare their methods and list their interfaces, the methods that are
found have the same descriptors, and the same comes of the choice between them.
-/

namespace MethodGraft.Typed

open ClassFile Classpath

variable {m m' : Dictionary} {l l' : List Summary} {found found' : List Declared}
    {args : List Value}
  {className name : String}

/-! ## 1. Methods in another order -/

theorem offers_of_reorders (h : m.Reorders m') {d : MemberSummary}
    (hd : Offers m className name d) : Offers m' className name d := by
  obtain ⟨t, s, hreaches, hs, hmem, hname⟩ := hd
  obtain ⟨s', hs', hreorders⟩ := h.classes t s hs
  exact ⟨t, s', h.reaches hreaches, hs', hreorders.methods.mem_iff.mp hmem, hname⟩

theorem SoundCall.reordered (h : m.Reorders m') (hsound : SoundCall m className name args) :
    SoundCall m' className name args where
  owner := h.sound hsound.owner
  arguments := fun arg harg t ht => h.soundType (hsound.arguments arg harg t ht)
  parameters := fun d hd type htype param hparam =>
    h.soundType (hsound.parameters d (offers_of_reorders h.symm hd) type htype param hparam)

/-- The methods that are found are the same but for their order and, where several types declare
one, its owner. -/
theorem sameMethods_of_reorders (h : m.Reorders m') (hl : m.Supertypes className l)
    (hfound : Inherits l name found) (hl' : m'.Supertypes className l')
    (hfound' : Inherits l' name found') : SameMethods m found m' found' := by
  refine ⟨hfound'.nodup, fun descriptor hmem => ?_, ⟨h.assigns, h.symm.assigns⟩⟩
  obtain ⟨d, hd, hdescriptor⟩ := (mem_descriptors_iff hl hfound).mp hmem
  exact (mem_descriptors_iff hl' hfound').mpr ⟨d, offers_of_reorders h hd, hdescriptor⟩

/-! ## 2. Outcomes -/

/-- **The outcome of a call does not depend on the order of declaration.**  Where the classes that a
call looks at are sound, it comes to the same in whatever order each class declares its methods and
lists its interfaces: a method with the same descriptor is chosen, the call is ambiguous, or no
method is suitable, or in both orders some method of the name has a descriptor that cannot be
read. -/
theorem overload_reordered {r r' : Resolver} (hr : r.Reached) (hr' : r'.Reached)
    (h : r.meaning.Reorders r'.meaning)
    (line : Nat) (hsound : SoundCall r.meaning className name args) :
    SameChoice ((overload className name args line).run.run r).1
    ((overload className name args line).run.run r').1 := by
  obtain ⟨l, found, out, hl, hfound, -, hyields, hselects⟩ :=
    yields_overload line hr.keyed r.bounded hsound
  obtain ⟨l', found', out', hl', hfound', -, hyields', hselects'⟩ :=
    yields_overload line hr'.keyed r'.bounded (hsound.reordered h)
  rw [hyields.result rfl, hyields'.result rfl]
  exact hselects.agree (sameMethods_of_reorders h hl hfound hl' hfound')
    (sameMethods_of_reorders h.symm hl' hfound' hl hfound) hselects'

/-- Classes `P` and `Q`, where `Q` is a subclass of `P`, and two interfaces with a method for values
of `Q`. -/
def parameterClasses : List Summary :=
  [classOf "P" none [] [], classOf "Q" (some "P") [] [], classOf "I" none [] [("f", "(LQ;)V")],
    classOf "J" none [] [("f", "(LQ;)V")]]

/-- A class with a method of that name for values of `P`, which has the interfaces in this order. -/
def implementing (interfaces : List String) : Summary :=
  classOf "H" none interfaces [("f", "(LP;)V")]

/-- If the interfaces change places, the method that is chosen has another owner and the same
descriptor. -/
theorem overload_reordered_interfaces :
    let r := (defining parameterClasses).remember "H" (some (implementing ["I", "J"]))
    let r' := (defining parameterClasses).remember "H" (some (implementing ["J", "I"]))
    ∃ c c' : Candidate, ((overload "H" "f" [.of .null (.object "Q")] 1).run.run r).1 = .ok c ∧
      ((overload "H" "f" [.of .null (.object "Q")] 1).run.run r').1 = .ok c' ∧
        c.method.owner.name = "I" ∧
      c'.method.owner.name = "J" ∧ c'.method.member.descriptor = c.method.member.descriptor := by
  intro r r'
  have hbase := reached_defining parameterClasses
  have hr : r.Reached := reached_remember hbase (s := implementing ["I", "J"]) (by decide +kernel)
  have hr' : r'.Reached := reached_remember hbase (s := implementing ["J", "I"]) (by decide +kernel)
  have hreorders : r.meaning.Reorders r'.meaning :=
    Resolver.reorders_remember _ ⟨List.Perm.swap _ _ _, .refl _, rfl⟩
  have hsound : SoundCall r.meaning "H" "f" [.of .null (.object "Q")] :=
    soundCall_of_test hr (by decide +kernel)
  have hagree := overload_reordered hr hr' hreorders 1 hsound
  have hrun : ((overload "H" "f" [.of .null (.object "Q")] 1).run.run r).1.toOption.map
      (·.method.owner.name) = some "I" := by decide +kernel
  have hrun' : ((overload "H" "f" [.of .null (.object "Q")] 1).run.run r').1.toOption.map
      (·.method.owner.name) = some "J" := by decide +kernel
  obtain ⟨c, hc, howner⟩ := Option.map_eq_some_iff.mp hrun
  obtain ⟨c', hc', howner'⟩ := Option.map_eq_some_iff.mp hrun'
  have hout := toOption_eq_some hc
  have hout' := toOption_eq_some hc'
  rw [hout, hout'] at hagree
  cases hagree with
  | chosen hdescriptor => exact ⟨c, c', hout, hout', howner, howner', hdescriptor⟩

/-- The class `B`, a class `Q` with the superclass `P`, the class `U`, and a chain of superclasses
from `A` to `A`. -/
def cyclicClasses : List Summary :=
  [classOf "P" none [] [], classOf "Q" (some "P") [] [], classOf "U" none [] [],
    classOf "B" none [] [], classOf "A" (some "C") [] [], classOf "C" (some "A") [] []]

def declaring (descriptors : List String) : Summary :=
  classOf "H" none [] (descriptors.map fun d => ("f", d))

/-- The order decides which comparison of two methods is made first, and so whether one is made that
lists the supertypes of a class that is its own superclass.  Of two descriptors that cannot be read
the first one is reported. -/
theorem overload_needs_sound :
    (let r :=
      (defining cyclicClasses).remember "H"
      (some (declaring ["(LQ;LA;)V", "(LU;LA;)V", "(LP;LB;)V"]))
      let r' := (defining cyclicClasses).remember "H" (some
        (declaring ["(LQ;LA;)V", "(LP;LB;)V", "(LU;LA;)V"]))
      let call := overload "H" "f" [⟨.null, .null⟩, ⟨.null, .null⟩] 1
      r.Reached ∧ r'.Reached ∧ r.meaning.Reorders r'.meaning ∧
        (∀ name ∈ ["H", "P", "Q", "U", "A", "B", "C"], ∃ s, ((resolve name).run.run r).1 = .ok s) ∧
        (call.run.run r).1 = .error (.fault 1 (.ambiguous "f")) ∧
        (call.run.run r').1 = .error (.resolve (.malformed "A" (.cyclic "A")))) ∧
    (let r := (defining []).remember "H" (some (declaring ["(P)V", "(Q)V"]))
      let r' := (defining []).remember "H" (some (declaring ["(Q)V", "(P)V"]))
      let call := overload "H" "f" [⟨.null, .null⟩] 1
      r.Reached ∧ r'.Reached ∧ r.meaning.Reorders r'.meaning ∧
      (∃ s, ((resolve "H").run.run r).1 = .ok s) ∧
        ∃ e e', (call.run.run r).1 = .error (.classFile e) ∧
        (call.run.run r').1 = .error (.classFile e') ∧ e ≠ e') := by
  have hcyclic := reached_defining cyclicClasses
  have hempty := reached_defining []
  refine ⟨?_, ?_⟩
  · intro r r' call
    refine ⟨reached_remember hcyclic (s := declaring _) (by decide +kernel),
      reached_remember hcyclic (s := declaring _) (by decide +kernel),
      Resolver.reorders_remember _ ⟨.refl _, .cons _ (.swap _ _ _), rfl⟩,
      fun name hname => exists_of_isOk ?_,
      eq_error_of_map (f := Candidate.method) (by decide +kernel),
      eq_error_of_map (f := Candidate.method) (by decide +kernel)⟩
    have hall :
        ∀ name ∈ ["H", "P", "Q", "U", "A", "B", "C"], ((resolve name).run.run r).1.isOk = true := by
      decide +kernel
    exact hall name hname
  · intro r r' call
    refine ⟨reached_remember hempty (s := declaring _) (by decide +kernel),
      reached_remember hempty (s := declaring _) (by decide +kernel),
      Resolver.reorders_remember _ ⟨.refl _, .swap _ _ _, rfl⟩, exists_of_isOk (by decide +kernel),
      ⟨.methodDescriptor "(P)V", []⟩, ⟨.methodDescriptor "(Q)V", []⟩,
      eq_error_of_map (f := Candidate.method) (by decide +kernel),
      eq_error_of_map (f := Candidate.method) (by decide +kernel), by decide⟩

end MethodGraft.Typed
