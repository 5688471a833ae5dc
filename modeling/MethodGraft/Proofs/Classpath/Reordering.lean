import MethodGraft.Proofs.Classpath.Assignment

/-!
# Proofs.Classpath.Reordering — the order in which classes declare their members and interfaces

Links between classes do not depend on the order of declaration.  So neither do the supertypes of a
class, whether they can be listed, and which values can be passed where.
-/

namespace MethodGraft.Classpath

open ClassFile

open Relation (ReflTransGen TransGen)

variable {m m' : Dictionary} {t u name : String} {a b : FieldType}

/-! ## 1. Classes in another order -/

/-- The classes are the same but for the order of their interfaces and their methods. -/
structure Summary.Reorders (s s' : Summary) : Prop where
  interfaces : s.interfaces.Perm s'.interfaces
  methods : s.methods.Perm s'.methods
  others : s' = { s with interfaces := s'.interfaces, methods := s'.methods }

theorem Summary.Reorders.refl (s : Summary) : s.Reorders s := ⟨.refl _, .refl _, rfl⟩

theorem Summary.Reorders.symm {s s' : Summary} (h : s.Reorders s') : s'.Reorders s := by
  refine ⟨h.interfaces.symm, h.methods.symm, ?_⟩
  rw [h.others]

theorem Summary.Reorders.superName? {s s' : Summary} (h : s.Reorders s') :
    s'.superName? = s.superName? := by
  rw [h.others]

/-- Each class has another order, and whatever else names mean is the same. -/
structure Dictionary.Reorders (m m' : Dictionary) : Prop where
  classes : ∀ t s, m t = .ok (some s) → ∃ s', m' t = .ok (some s') ∧ s.Reorders s'
  others : ∀ t, (∀ s, m t ≠ .ok (some s)) → m' t = m t

theorem Dictionary.Reorders.symm (h : m.Reorders m') : m'.Reorders m := by
  have hback (t : String) (s' : Summary) (hs' : m' t = .ok (some s')) :
      ∃ s, m t = .ok (some s) := by
    by_contra hnone
    exact hnone ⟨s', (h.others t (not_exists.mp hnone)) ▸ hs'⟩
  constructor
  · intro t s' hs'
    obtain ⟨s, hs⟩ := hback t s' hs'
    obtain ⟨s'', hs'', hreorders⟩ := h.classes t s hs
    obtain rfl := Option.some.inj (Except.ok.inj (hs'.symm.trans hs''))
    exact ⟨s, hs, hreorders.symm⟩
  · intro t hnone
    refine (h.others t fun s hs => ?_).symm
    obtain ⟨s', hs', -⟩ := h.classes t s hs
    exact hnone s' hs'

/-- Defining a class in two orders gives all names the same meaning but for the order. -/
theorem Resolver.reorders_remember (r : Resolver) {s s' : Summary} (h : s.Reorders s') :
    (r.remember name (some s)).meaning.Reorders (r.remember name (some s')).meaning := by
  constructor
  · intro t u ht
    rw [meaning_remember_apply] at ht ⊢
    split at ht
    next hname =>
      cases ht
      exact ⟨s', if_pos hname, h⟩
    next hname => exact ⟨u, (if_neg hname).trans ht, .refl u⟩
  · intro t hnone
    rw [meaning_remember_apply, meaning_remember_apply] at *
    split
    next hname => exact absurd (if_pos hname) (hnone s)
    next => rfl

/-! ## 2. Links -/

variable (h : m.Reorders m')
include h

theorem Dictionary.Reorders.extends (hlink : m.Extends t u) : m'.Extends t u := by
  obtain ⟨s, hs, hsuper⟩ := hlink
  obtain ⟨s', hs', hreorders⟩ := h.classes t s hs
  exact ⟨s', hs', hreorders.superName?.trans hsuper⟩

theorem Dictionary.Reorders.implements (hlink : m.Implements t u) : m'.Implements t u := by
  obtain ⟨s, hs, hmem⟩ := hlink
  obtain ⟨s', hs', hreorders⟩ := h.classes t s hs
  exact ⟨s', hs', hreorders.interfaces.mem_iff.mp hmem⟩

theorem Dictionary.Reorders.reaches (hreaches : m.Reaches t u) : m'.Reaches t u := by
  obtain ⟨c, hchain, hlinks⟩ := hreaches
  exact ⟨c, ReflTransGen.mono (fun _ _ => h.extends) _ _ hchain,
    ReflTransGen.mono (fun _ _ => h.implements) _ _ hlinks⟩

/-! ## 3. Assignment -/

theorem Dictionary.Reorders.sound (hsound : m.Sound name) : m'.Sound name := by
  constructor
  · intro t hreaches
    obtain ⟨s, hs⟩ := hsound.means t (h.symm.reaches hreaches)
    obtain ⟨s', hs', -⟩ := h.classes t s hs
    exact ⟨s', hs'⟩
  · intro t hchain hback
    exact hsound.acyclic t (ReflTransGen.mono (fun _ _ => h.symm.extends) _ _ hchain)
      (TransGen.mono (fun _ _ => h.symm.extends) _ _ hback)

theorem Dictionary.Reorders.soundType (hsound : m.SoundType a) : m'.SoundType a :=
  fun name hname => h.sound (hsound name hname)

theorem Dictionary.Reorders.assigns (hassigns : m.Assigns a b) : m'.Assigns a b := by
  induction hassigns with
  | same t => exact .same t
  | wider hwider => exact .wider hwider
  | root a => exact .root a
  | supertype hreaches => exact .supertype (h.reaches hreaches)
  | arrayRoot t => exact .arrayRoot t
  | arrayInterface t hb => exact .arrayInterface t hb
  | components ha hb _ ih => exact .components ha hb ih

end MethodGraft.Classpath
