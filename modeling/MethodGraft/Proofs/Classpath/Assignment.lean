import MethodGraft.Proofs.Classpath.Supertypes

/-!
# Proofs.Classpath.Assignment — which values can be passed where

A class is sound if its supertypes can be listed.  For values of sound classes the test whether they
can be passed decides a relation between types that is told by links between classes alone.
-/

namespace MethodGraft.Classpath

open ClassFile

open Relation (ReflTransGen TransGen)

variable {α ε : Type} {m : Dictionary} {listed l : List Summary} {name : String}
    {a b source target : FieldType}

/-! ## 1. Classes whose supertypes can be listed -/

/-- All supertypes of the class can be looked up, and the chain of its superclasses does not come
back to one of them. -/
structure Dictionary.Sound (m : Dictionary) (name : String) : Prop where
  means : ∀ t, m.Reaches name t → ∃ s, m t = .ok (some s)
  acyclic : ∀ t, ReflTransGen m.Extends name t → ¬TransGen m.Extends t t

theorem Dictionary.Sound.exists_supertypes (h : m.Sound name) (hm : m.Keyed)
    (hbounded : m.Bounded) :
    ∃ l, Yields m (Classpath.hierarchy name) (.ok l) ∧ m.Supertypes name l := by
  obtain ⟨bound, hbound⟩ := hbounded name
  have hyields := yields_hierarchy hm hbound
  have hclimbs := climbs_hierarchy hm hbound
  generalize m.hierarchy bound name = out at hyields hclimbs
  cases out with
  | ok l => exact ⟨l, hyields, (hclimbs.ascends rfl).supertypes hm⟩
  | error e =>
    rcases hclimbs.fault rfl fun c hc => ⟨Option.some.inj hc ▸ .refl, fun d hd => by cases hd⟩ with
      ⟨t, hreached, ht⟩ | ⟨t, hchain, hback, -⟩
    · obtain ⟨s, hs⟩ := h.means t hreached
      cases ht.symm.trans (Dictionary.required_eq_ok_iff.mpr hs)
    · exact absurd hback (h.acyclic t hchain)

/-- A chain that ends does not come back to one of its classes. -/
theorem Dictionary.Ascends.acyclic {next : Option String} (h : m.Ascends listed next l) :
    ∀ start ∈ next, ∀ t, ReflTransGen m.Extends start t → ¬TransGen m.Extends t t := by
  induction h with
  | top => simp
  | @next listed k l name s hs _ _ ih =>
    rintro start hstart t hlinks hback
    obtain rfl := Option.some.inj hstart
    -- Whatever comes after the first class is reached from its superclass, for which this is known.
    have habove (u : String) (hu : TransGen m.Extends name u) :
        ∃ c ∈ s.superName?, ReflTransGen m.Extends c u := by
      obtain ⟨c, ⟨s', hs', hsuper⟩, hrest⟩ := TransGen.head'_iff.mp hu
      obtain rfl := Option.some.inj (Except.ok.inj (hs.symm.trans hs'))
      exact ⟨c, hsuper, hrest⟩
    rcases ReflTransGen.cases_head_iff.mp hlinks with rfl | ⟨c, hlink, hrest⟩
    · obtain ⟨c, hc, hrest⟩ := habove _ hback
      exact ih c hc _ hrest hback
    · obtain ⟨c', hc', hrest'⟩ := habove t (.head' hlink hrest)
      exact ih c' hc' t hrest' hback

theorem Dictionary.Supertypes.sound (h : m.Supertypes name l) : m.Sound name := by
  refine ⟨fun t hreaches => ?_, h.order.acyclic name rfl⟩
  obtain ⟨s, hs, rfl⟩ := List.mem_map.mp ((h.mem_iff t).mpr hreaches)
  exact ⟨s, h.means s hs⟩

/-- Where the walk succeeds, it lists the supertypes, and so the class is sound. -/
theorem supertypes_of_hierarchy {r : Resolver} (hr : r.Reached)
    (h : ((hierarchy name).run.run r).1 = .ok l) : r.meaning.Supertypes name l := by
  have hsuffices := r.suffices_nameBound name
  have hl := ((yields_hierarchy hr.keyed hsuffices).result rfl).symm.trans h
  exact ((climbs_hierarchy hr.keyed hsuffices).ascends hl).supertypes hr.keyed

/-! ## 2. Tests -/

def Decides (m : Dictionary) (x : ExceptT ε (StateM Resolver) Bool) (p : Prop) : Prop :=
  ∃ b, Yields m x (.ok b) ∧ (b = true ↔ p)

namespace Decides

variable {x : ExceptT ε (StateM Resolver) Bool} {p q : Prop}

theorem ofBool {b : Bool} : Decides m (pure b : ExceptT ε (StateM Resolver) Bool) (b = true) :=
  ⟨b, .pure, .rfl⟩

theorem congr (h : Decides m x p) (hpq : p ↔ q) : Decides m x q := by
  obtain ⟨b, hb, hp⟩ := h
  exact ⟨b, hb, hp.trans hpq⟩

/-- Tests in sequence, up to the first that fails. -/
theorem allM {f : α → ExceptT ε (StateM Resolver) Bool} {P : α → Prop} {as : List α}
    (h : ∀ a ∈ as, Decides m (f a) (P a)) : Decides m (as.allM f) (∀ a ∈ as, P a) := by
  induction as with
  | nil => exact ofBool.congr (by simp)
  | cons a as ih =>
    obtain ⟨b, hb, hfirst⟩ := h a List.mem_cons_self
    obtain ⟨c, hc, hrest⟩ := ih fun d hd => h d (List.mem_cons_of_mem a hd)
    refine ⟨b && c, hb.bind_ok ?_, ?_⟩
    · cases b with
      | true => exact hc
      | false => exact .pure
    · rw [Bool.and_eq_true, hfirst, hrest, List.forall_mem_cons]

end Decides

/-! ## 3. Assignment -/

/-- Values of the type `a` can be passed where `b` is expected: the types are the same, or `b` is a
larger primitive type or a supertype. -/
inductive Dictionary.Assigns (m : Dictionary) : FieldType → FieldType → Prop
  | same (t : FieldType) : Assigns m t t
  | wider {a b : FieldType} (h : widens a b = true) : Assigns m a b
  | root (a : String) : Assigns m (.object a) (.object FieldType.rootClass)
  | supertype {a b : String} (h : m.Reaches a b) : Assigns m (.object a) (.object b)
  | arrayRoot (t : FieldType) : Assigns m (.array t) (.object FieldType.rootClass)
  | arrayInterface (t : FieldType) {b : String} (h : b ∈ Summary.arrayInterfaces) :
      Assigns m (.array t) (.object b)
  | components {a b : FieldType} (ha : a.isReference = true) (hb : b.isReference = true)
      (h : Assigns m a b) : Assigns m (.array a) (.array b)

def classOf? : FieldType → Option String
  | .object name => some name
  | .array t => classOf? t
  | _ => none

/-- The class of the values is sound. -/
def Dictionary.SoundType (m : Dictionary) (t : FieldType) : Prop :=
  ∀ name ∈ classOf? t, m.Sound name

theorem decides_isSubclass (hm : m.Keyed) (hbounded : m.Bounded) {sub super : String}
    (h : m.Sound sub) (hne : sub ≠ super) :
    Decides m (isSubclass sub super) (m.Assigns (.object sub) (.object super)) := by
  unfold isSubclass
  split
  next htop =>
    obtain rfl : super = FieldType.rootClass := htop.resolve_left hne
    exact ⟨true, .pure, iff_of_true rfl (.root sub)⟩
  next htop =>
    -- a sound class has all of its supertypes, so its list holds each class that can be reached
    obtain ⟨l, hl, hsupertypes⟩ := h.exists_supertypes hm hbounded
    refine ⟨l.any (·.name == super), hl.bind_ok .pure, ?_⟩
    rw [any_name_iff, hsupertypes.mem_iff]
    refine ⟨.supertype, fun h => ?_⟩
    cases h with
    | same => exact absurd rfl hne
    | wider h => cases h
    | root => exact absurd (.inr rfl) htop
    | supertype h => exact h

/-- For values of a sound class the test tells whether they can be passed. -/
theorem decides_isAssignable (hm : m.Keyed) (hbounded : m.Bounded) (h : m.SoundType source) :
    Decides m (isAssignable source target) (m.Assigns source target) := by
  induction source generalizing target with
  -- only arrays of references go down to their components, and there `ih` decides
  | array a ih =>
    unfold isAssignable
    split
    next heq => exact ⟨true, .pure, iff_of_true rfl (heq ▸ .same _)⟩
    next hne =>
      cases target with
      | object b =>
        refine Decides.ofBool.congr ?_
        rw [Bool.or_eq_true, beq_iff_eq, List.contains_iff_mem]
        constructor
        · rintro (rfl | hb)
          · exact .arrayRoot a
          · exact .arrayInterface a hb
        · intro h
          cases h with
          | wider h => cases h
          | arrayRoot => exact .inl rfl
          | arrayInterface _ hb => exact .inr hb
      | array b =>
        have hiff : m.Assigns (.array a) (.array b) ↔
            (a.isReference && b.isReference) = true ∧ m.Assigns a b := by
          rw [Bool.and_eq_true]
          constructor
          · intro h
            cases h with
            | same => exact absurd rfl hne
            | wider h => cases h
            | components ha hb h => exact ⟨⟨ha, hb⟩, h⟩
          · rintro ⟨⟨ha, hb⟩, h⟩
            exact .components ha hb h
        dsimp only
        split
        next href => exact (ih h).congr (hiff.trans (and_iff_right href)).symm
        next href =>
          exact ⟨false, .pure, iff_of_false Bool.false_ne_true fun h => href (hiff.mp h).1⟩
      | _ =>
        refine ⟨false, .pure, iff_of_false Bool.false_ne_true fun h => ?_⟩
        cases h with
        | wider h => cases h
  | object a =>
    unfold isAssignable
    split
    next heq => exact ⟨true, .pure, iff_of_true rfl (heq ▸ .same _)⟩
    next hne =>
      cases target with
      | object b =>
        exact decides_isSubclass hm hbounded (h a rfl) fun heq =>
          hne (congrArg FieldType.object heq)
      | _ =>
        refine ⟨false, .pure, iff_of_false Bool.false_ne_true fun h => ?_⟩
        cases h with
        | wider h => cases h
  | _ =>
    unfold isAssignable
    split
    next heq => exact ⟨true, .pure, iff_of_true rfl (heq ▸ .same _)⟩
    next hne =>
      refine Decides.ofBool.congr ⟨fun hwider => ?_, fun hassigns => ?_⟩
      · exact .wider (Bool.and_eq_true_iff.mp hwider).2
      · cases hassigns with
        | same => exact absurd rfl hne
        | wider hwider =>
          cases target <;> simp_all [FieldType.isReference, widens]

end MethodGraft.Classpath
