import MethodGraft.Proofs.Typed.Choice

/-!
# Proofs.Typed.Assignability — assignability is a preorder

Every type can be assigned to itself, and what can be assigned to a type can be assigned wherever
that type can.  For classes this rests on the class format: an interface has no superclass but the
root class, so whatever is above one supertype of a class is above the class.
-/

namespace MethodGraft.Classpath

open ClassFile

open Relation (ReflTransGen)

variable {m : Dictionary} {r : Resolver} {name t u sub super : String} {a b c : FieldType}

/-! ## 1. Supertypes of supertypes -/

/-- What the class format demands of the supertypes of a class: its interfaces have no superclass
but the root class. -/
def Dictionary.Formatted (m : Dictionary) (name : String) : Prop :=
  ∀ t i super, m.Reaches name t → m.Implements t i → m.Extends i super → super = FieldType.rootClass

def arraySupertypes : List String := FieldType.rootClass :: Summary.arrayInterfaces

/-- What the class format demands of the supertypes of arrays: they have no supertypes but
themselves and the root class. -/
def Dictionary.Topped (m : Dictionary) : Prop :=
  ∀ t ∈ arraySupertypes, ∀ u, m.Reaches t u → u = t ∨ u = FieldType.rootClass

/-- What is above a supertype of a class is above the class, or it is the root class. -/
theorem Dictionary.Reaches.trans (htop : m.Topped) (hformat : m.Formatted name)
    (h : m.Reaches name t) (h' : m.Reaches t u) : m.Reaches name u ∨ u = FieldType.rootClass := by
  obtain ⟨p, hchain, hlinks⟩ := h
  obtain ⟨q, hchain', hlinks'⟩ := h'
  rcases ReflTransGen.cases_tail hlinks with rfl | ⟨s, hlinks₀, hlast⟩
  · -- the supertype is a superclass, so its chain continues that of the class
    exact .inl ⟨q, hchain.trans hchain', hlinks'⟩
  · rcases ReflTransGen.cases_head hchain' with rfl | ⟨d, hsuper, hrest⟩
    · exact .inl ⟨p, hchain, hlinks.trans hlinks'⟩
    · -- an interface leaves to its superclass, which is the root class and has nothing above it
      obtain rfl := hformat s t d ⟨p, hchain, hlinks₀⟩ hlast hsuper
      have hroot := htop FieldType.rootClass List.mem_cons_self u ⟨q, hrest, hlinks'⟩
      exact .inr (hroot.elim id id)

/-! ## 2. What passes -/

/-- A value of the type `a` passes where `b` is expected. -/
def Resolver.Passes (r : Resolver) (a b : FieldType) : Prop :=
  ((isAssignable a b).run.run r).1 = .ok true

theorem Resolver.passes_refl (r : Resolver) (a : FieldType) : r.Passes a a := by
  unfold Passes isAssignable
  rw [if_pos rfl]
  rfl

/-- A class is a subclass if it is the same class, or if its supertypes can be listed and the other
one is among them.  Below the root class every class is. -/
theorem isSubclass_eq_true_iff (hr : r.Reached) : ((isSubclass sub super).run.run r).1 = .ok true ↔
    (sub = super ∨ super = FieldType.rootClass) ∨ r.meaning.Sound sub ∧
    r.meaning.Reaches sub super := by
  unfold isSubclass
  split
  next htop => exact iff_of_true rfl (.inl htop)
  next htop =>
    rw [or_iff_right htop]
    constructor
    · intro h
      cases hrun : (hierarchy sub).run.run r with
      | mk walk r' =>
        rw [run_bind, hrun] at h
        cases walk with
        | error e => cases h
        | ok l =>
          have hl := supertypes_of_hierarchy hr (congrArg Prod.fst hrun)
          exact ⟨hl.sound, (hl.mem_iff super).mp (any_name_iff.mp (Except.ok.inj h))⟩
    · rintro ⟨hsound, hreaches⟩
      -- the walk may have been made before, so its result is taken from what it yields
      obtain ⟨l, hl, hsupertypes⟩ := hsound.exists_supertypes hr.keyed r.bounded
      have hlisted : l.any (·.name == super) = true :=
        any_name_iff.mpr ((hsupertypes.mem_iff super).mpr hreaches)
      have hyields : Yields r.meaning (do return (← hierarchy sub).any (·.name == super))
          (.ok true) :=
        hlisted ▸ hl.bind_ok .pure
      exact hyields.result rfl

/-- A class passes for classes only: for those that it is a subclass of. -/
theorem Resolver.passes_object_iff (hr : r.Reached) :
    r.Passes (.object name) b ↔ ∃ super, b = .object super ∧
    ((name = super ∨ super = FieldType.rootClass) ∨ r.meaning.Sound name ∧
      r.meaning.Reaches name super) := by
  unfold Passes isAssignable
  split
  next heq =>
    subst heq
    exact iff_of_true rfl ⟨name, rfl, .inl (.inl rfl)⟩
  next =>
    cases b with
    | object super =>
      rw [isSubclass_eq_true_iff hr]
      constructor
      · intro h
        exact ⟨super, rfl, h⟩
      · rintro ⟨_, heq, h⟩
        cases heq
        exact h
    | _ =>
      refine iff_of_false (fun h => ?_) ?_
      · cases h
      · rintro ⟨_, heq, -⟩
        cases heq

/-- An array passes for the supertypes of arrays, and for arrays of what its components pass for. -/
theorem Resolver.passes_array_iff : r.Passes (.array a) b ↔
    (∃ super ∈ arraySupertypes, b = .object super) ∨
    ∃ d, b = .array d ∧ (a = d ∨ (a.isReference && d.isReference) = true ∧ r.Passes a d) := by
  show ((isAssignable (.array a) b).run.run r).1 = _ ↔ _
  unfold isAssignable
  split
  next heq =>
    subst heq
    exact iff_of_true rfl (.inr ⟨a, rfl, .inl rfl⟩)
  next hne =>
    cases b with
    | object super =>
      show Except.ok _ = Except.ok true ↔ _
      rw [Except.ok.injEq, Bool.or_eq_true, beq_iff_eq, List.contains_iff_mem, ← List.mem_cons]
      constructor
      · intro h
        exact .inl ⟨super, h, rfl⟩
      · rintro (⟨_, h, heq⟩ | ⟨_, heq, -⟩)
        · cases heq
          exact h
        · cases heq
    | array d =>
      -- the types differ, so the components do
      have hne' : a ≠ d := fun heq => hne (congrArg FieldType.array heq)
      dsimp only
      split
      next href =>
        constructor
        · intro h
          exact .inr ⟨d, rfl, .inr ⟨href, h⟩⟩
        · rintro (⟨_, _, heq⟩ | ⟨_, heq, h⟩)
          · cases heq
          · cases heq
            exact (h.resolve_left hne').2
      next href =>
        refine iff_of_false (fun h => ?_) ?_
        · cases h
        · rintro (⟨_, _, heq⟩ | ⟨_, heq, h⟩)
          · cases heq
          · cases heq
            exact href (h.resolve_left hne').1
    | _ =>
      refine iff_of_false (fun h => ?_) ?_
      · cases h
      · rintro (⟨_, _, heq⟩ | ⟨_, heq, -⟩) <;> cases heq

/-- A primitive type passes for itself and for larger ones. -/
theorem Resolver.passes_primitive_iff (h : a.isReference = false) :
    r.Passes a b ↔ a = b ∨ widens a b = true := by
  unfold Passes
  cases a with
  | object => cases h
  | array => cases h
  | _ =>
    unfold isAssignable
    split
    next heq => exact iff_of_true rfl (.inl heq)
    next hne =>
      rw [or_iff_right hne]
      show Except.ok _ = Except.ok true ↔ _
      rw [Except.ok.injEq]
      cases b <;> simp [FieldType.isReference, widens]

/-- Only primitive types widen, and to primitive types only. -/
theorem isReference_of_widens (h : widens a b = true) :
    a.isReference = false ∧ b.isReference = false := by
  unfold widens at h
  split at h <;> first | exact ⟨rfl, rfl⟩ | cases h

theorem widens_trans (h : widens a b = true) (h' : widens b c = true) : widens a c = true := by
  -- by the pairs that widen; the last case is that of all other pairs
  unfold widens at h
  split at h
  case h_20 => cases h
  all_goals cases c <;> first | rfl | exact absurd h' Bool.false_ne_true

/-! ## 3. The preorder -/

/-- The class format is kept by the supertypes of the class of the values, or of what arrays hold in
the end. -/
def Dictionary.FormattedType (m : Dictionary) (a : FieldType) : Prop :=
  ∀ name ∈ classOf? a, m.Formatted name

/-- What passes for a supertype of arrays is a supertype of arrays again. -/
theorem Resolver.Passes.arraySupertype (hr : r.Reached) (htop : r.meaning.Topped)
    (ht : t ∈ arraySupertypes) (h : r.Passes (.object t) c) :
    ∃ super ∈ arraySupertypes, c = .object super := by
  obtain ⟨super, rfl, (rfl | rfl) | ⟨-, hreaches⟩⟩ := (passes_object_iff hr).mp h
  · exact ⟨t, ht, rfl⟩
  · exact ⟨FieldType.rootClass, List.mem_cons_self, rfl⟩
  · rcases htop t ht super hreaches with rfl | rfl
    · exact ⟨super, ht, rfl⟩
    · exact ⟨FieldType.rootClass, List.mem_cons_self, rfl⟩

theorem Resolver.Passes.trans (hr : r.Reached) (htop : r.meaning.Topped)
    (hformat : r.meaning.FormattedType a)
    (h : r.Passes a b) (h' : r.Passes b c) : r.Passes a c := by
  induction a generalizing b c with
  | array a ih =>
    -- once a supertype of arrays is reached, there is nothing else above
    rcases passes_array_iff.mp h with ⟨t, ht, rfl⟩ | ⟨d, rfl, hd⟩
    · exact passes_array_iff.mpr (.inl (h'.arraySupertype hr htop ht))
    · rcases passes_array_iff.mp h' with htop' | ⟨e, rfl, he⟩
      · exact passes_array_iff.mpr (.inl htop')
      · refine passes_array_iff.mpr (.inr ⟨e, rfl, ?_⟩)
        rcases hd with rfl | ⟨href, hd⟩
        · exact he
        · rcases he with rfl | ⟨href', he⟩
          · exact .inr ⟨href, hd⟩
          · rw [Bool.and_eq_true] at href href'
            exact .inr ⟨Bool.and_eq_true_iff.mpr ⟨href.1, href'.2⟩, ih hformat hd he⟩
  | object name =>
    obtain ⟨t, rfl, ht⟩ := (passes_object_iff hr).mp h
    obtain ⟨u, rfl, hu⟩ := (passes_object_iff hr).mp h'
    refine (passes_object_iff hr).mpr ⟨u, rfl, ?_⟩
    rcases ht with (rfl | rfl) | ⟨hsound, hreaches⟩
    · exact hu
    · -- above the root class there is the root class only
      rcases hu with (rfl | rfl) | ⟨-, hreaches⟩
      · exact .inl (.inr rfl)
      · exact .inl (.inr rfl)
      · exact .inl (.inr ((htop _ List.mem_cons_self u hreaches).elim id id))
    · rcases hu with (rfl | rfl) | ⟨-, hreaches'⟩
      · exact .inr ⟨hsound, hreaches⟩
      · exact .inl (.inr rfl)
      · rcases hreaches.trans htop (hformat name rfl) hreaches' with habove | rfl
        · exact .inr ⟨hsound, habove⟩
        · exact .inl (.inr rfl)
  | _ =>
    rcases (passes_primitive_iff rfl).mp h with rfl | hwider
    · exact h'
    · rcases (passes_primitive_iff (isReference_of_widens hwider).2).mp h' with rfl | hwider'
      · exact h
      · exact (passes_primitive_iff rfl).mpr (.inr (widens_trans hwider hwider'))

/-- **Assignability is a preorder.**  On a classpath that keeps the class format every type can be
assigned to itself, and where a type can be assigned to a second one and that to a third one, the
first can be assigned to the third.  The test answers wherever the supertypes of the class of the
values can be listed; no class has to be found for a type to be assigned to itself or to the root
class. -/
theorem isAssignable_preorder (hr : r.Reached) (htop : r.meaning.Topped) :
    (∀ a, r.Passes a a) ∧
    (∀ a b c, r.meaning.FormattedType a → r.Passes a b → r.Passes b c → r.Passes a c) ∧
    ∀ a b, r.meaning.SoundType a → ∃ answer, ((isAssignable a b).run.run r).1 = .ok answer := by
  refine ⟨r.passes_refl, fun a b c hformat h h' => h.trans hr htop hformat h', fun a b hsound => ?_⟩
  obtain ⟨answer, hanswer, -⟩ := decides_isAssignable hr.keyed r.bounded hsound
  exact ⟨answer, hanswer.result rfl⟩

/-! ## 4. Classes for an example -/

/-- The supertypes that were listed have no superclass but the root class where they stand among
interfaces. -/
theorem formatted_of_walk (hr : r.Reached)
    (h : ((hierarchy name).run.run r).1.toOption.map (fun l =>
      l.all fun s => s.interfaces.all fun i =>
        l.all fun d => d.name != i || d.superName?.all (· == FieldType.rootClass)) = some true) :
    r.meaning.Formatted name := by
  obtain ⟨l, hl, hall⟩ := Option.map_eq_some_iff.mp h
  have hsupertypes := supertypes_of_hierarchy hr (toOption_eq_some hl)
  rintro t i super ⟨p, hchain, hlinks⟩ ⟨s, hs, hi⟩ ⟨d, hd, hsuper⟩
  -- both ends of the link are listed
  have hmem {u : String} {e : Summary} (hu : r.meaning.Reaches name u)
      (he : r.meaning u = .ok (some e)) : e ∈ l := by
    obtain ⟨e', he', rfl⟩ := List.mem_map.mp ((hsupertypes.mem_iff u).mpr hu)
    obtain rfl := Option.some.inj (Except.ok.inj (he.symm.trans (hsupertypes.means e' he')))
    exact he'
  have hsl := hmem ⟨p, hchain, hlinks⟩ hs
  have hdl := hmem ⟨p, hchain, hlinks.tail ⟨s, hs, hi⟩⟩ hd
  have htest :=
    List.all_eq_true.mp (List.all_eq_true.mp (List.all_eq_true.mp hall s hsl) i hi) d hdl
  rw [hr.keyed i d hd, hsuper] at htest
  simpa using htest

/-- The supertypes of arrays were listed with none but themselves and the root class. -/
theorem topped_of_walks (hr : r.Reached)
    (h : ∀ t ∈ arraySupertypes, ((hierarchy t).run.run r).1.toOption.map (fun l =>
      l.all fun s => s.name == t || s.name == FieldType.rootClass) = some true) :
    r.meaning.Topped := by
  intro t ht u hu
  obtain ⟨l, hl, hall⟩ := Option.map_eq_some_iff.mp (h t ht)
  have hsupertypes := supertypes_of_hierarchy hr (toOption_eq_some hl)
  obtain ⟨s, hs, rfl⟩ := List.mem_map.mp ((hsupertypes.mem_iff u).mpr hu)
  simpa using List.all_eq_true.mp hall s hs

/-- The interface `J` of the interface `I` of the class `A` with the subclass `B`, and the
supertypes of arrays. -/
def diamondClasses : List Summary :=
  let root := some FieldType.rootClass
  [Typed.classOf FieldType.rootClass none [] [], Typed.classOf "java/lang/Cloneable" root [] [],
    Typed.classOf "java/io/Serializable" root [] [], Typed.classOf "J" root [] [],
    Typed.classOf "I" root ["J"] [], Typed.classOf "A" root ["I", "J"] [],
    Typed.classOf "B" (some "A") ["J"] []]

theorem isAssignable_preorder_diamond : let r := Typed.defining diamondClasses
    r.Reached ∧ r.meaning.Topped ∧ r.meaning.FormattedType (.array (.object "B")) ∧
      r.meaning.SoundType (.array (.object "B")) ∧
        r.Passes (.array (.object "B")) (.array (.object "A")) ∧
      r.Passes (.array (.object "A")) (.array (.object "J")) ∧
        r.Passes (.array (.object "B")) (.array (.object "J")) ∧
      ∃ answer, ((isAssignable (.array (.object "B")) (.array (.object "I"))).run.run r).1 =
        .ok answer := by
  intro r
  have hr : r.Reached := Typed.reached_defining _
  have htop : r.meaning.Topped := topped_of_walks hr (by decide +kernel)
  have hformat : r.meaning.FormattedType (.array (.object "B")) := by
    intro name hname
    cases hname
    exact formatted_of_walk hr (by decide +kernel)
  have hsound : r.meaning.SoundType (.array (.object "B")) := by
    intro name hname
    cases hname
    have hl : ∃ l, ((hierarchy "B").run.run r).1 = .ok l := exists_of_isOk (by decide +kernel)
    exact (supertypes_of_hierarchy hr hl.choose_spec).sound
  have h : r.Passes (.array (.object "B")) (.array (.object "A")) := by
    unfold Resolver.Passes
    decide +kernel
  have h' : r.Passes (.array (.object "A")) (.array (.object "J")) := by
    unfold Resolver.Passes
    decide +kernel
  obtain ⟨-, htrans, hanswers⟩ := isAssignable_preorder hr htop
  exact ⟨hr, htop, hformat, hsound, h, h', htrans _ _ _ hformat h h', hanswers _ _ hsound⟩

end MethodGraft.Classpath
