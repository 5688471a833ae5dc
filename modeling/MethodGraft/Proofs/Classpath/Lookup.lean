import MethodGraft.Proofs.Classpath.Walk

/-!
# Proofs.Classpath.Lookup — what a look-up found is found again

The supertypes of a class, its fields and its methods are found again with the same result wherever
names mean the same.  A method that some class was found to have from the class at the top is also
found in that class.
-/

namespace MethodGraft.Classpath

variable {m : Dictionary} {pending : List String} {listed l : List Summary} {s : Summary}
  {name className : String} {bound : Nat} {out : Except Error (List Summary)}

/-! ## 1. Supertypes -/

/-- Where names mean the same, the walk lists the same types, and with each the interfaces above
it. -/
theorem under_hierarchy (hm : m.Keyed) : Under m (hierarchy className) fun l =>
    Yields m (hierarchy className) (.ok l) ∧ Lineage m l := by
  rintro r l r' rfl hrun
  have hsuffices := r.suffices_nameBound className
  obtain ⟨hr', hl, hyields⟩ := (yields_hierarchy hm hsuffices).under r l r' rfl hrun
  exact ⟨hr', hyields, ((climbs_hierarchy hm hsuffices).ascends hl).lineage hm lists_nil
    lineage_nil⟩

/-- The answers for all types that a walk over interfaces lists are remembered after it. -/
theorem remembers_visit {n : Nat} {r r' : Resolver} (hm : r.meaning.Keyed)
    (hrun : (visitInterfaces n listed pending).run.run r = (.ok l, r'))
    (hlisted : ∀ s ∈ listed, r.Remembers s.name) : ∀ s ∈ l, r'.Remembers s.name := by
  induction n generalizing listed pending r with
  | zero =>
    cases hrun
    exact hlisted
  | succ n ih =>
    unfold visitInterfaces at hrun
    split at hrun
    next =>
      cases hrun
      exact hlisted
    next i pending _ =>
      obtain ⟨s, t, hresolve, hrun⟩ := run_bind_eq_ok.mp hrun
      obtain ⟨ht, hs⟩ := yields_resolve.under r s t rfl hresolve
      have hname := hm i s (Dictionary.required_eq_ok_iff.mp hs.1)
      refine ih (ht.meaning ▸ hm) hrun fun u hu => ?_
      rcases List.mem_append.mp hu with hu | hu
      · exact ht.kept u.name (hlisted u hu)
      · rw [List.mem_singleton.mp hu, hname]
        exact remembers_of_resolve hresolve

/-- The answers for all types that a walk over classes lists are remembered after it. -/
theorem remembers_climb {start : String} {n c : Nat} {chain : List String} {next : Option String}
    {r r' : Resolver} (hm : r.meaning.Keyed)
    (hrun : (climb start n c chain listed next).run.run r = (.ok l, r'))
    (hlisted : ∀ s ∈ listed, r.Remembers s.name) : ∀ s ∈ l, r'.Remembers s.name := by
  induction c generalizing chain listed next r with
  | zero =>
    cases next with
    | none =>
      cases hrun
      exact hlisted
    | some name =>
      -- with no class left to list the walk fails, whether the chain is cyclic or not
      unfold climb at hrun
      dsimp only at hrun
      split at hrun <;> cases hrun
  | succ c ih =>
    cases next with
    | none =>
      cases hrun
      exact hlisted
    | some name =>
      unfold climb at hrun
      dsimp only at hrun
      split at hrun
      next => cases hrun
      next =>
        obtain ⟨s, t, hresolve, hrun⟩ := run_bind_eq_ok.mp hrun
        obtain ⟨ht, hs⟩ := yields_resolve.under r s t rfl hresolve
        have hname := hm name s (Dictionary.required_eq_ok_iff.mp hs.1)
        obtain ⟨k, u, hvisit, hrun⟩ := run_bind_eq_ok.mp hrun
        have hu := (yields_visit.under t k u rfl hvisit).1
        have hclass : ∀ v ∈ withClass listed s, t.Remembers v.name := by
          intro v hv
          rcases mem_withClass hv with hv | rfl
          · exact ht.kept v.name (hlisted v hv)
          · rw [hname]
            exact remembers_of_resolve hresolve
        have hmt : t.meaning.Keyed := ht.meaning ▸ hm
        exact ih (hu.meaning ▸ hmt) hrun (remembers_visit hmt hvisit hclass)

/-- A walk that has ended well lists the same wherever the names mean the same whose answers are
remembered after it. -/
theorem yields_hierarchy_of_remembered {m' : Dictionary} {r r' : Resolver} (hm : r.meaning.Keyed)
    (hrun : (hierarchy className).run.run r = (.ok l, r')) (hm' : m'.Keyed)
    (hbound : m'.Suffices bound className)
    (hsame : ∀ name, r'.Remembers name → m' name = r.meaning name) :
    Yields m' (hierarchy className) (.ok l) := by
  have hsuffices := r.suffices_nameBound className
  have hl := ((yields_hierarchy hm hsuffices).under r l r' rfl hrun).2.1
  have hclimbs := climbs_hierarchy hm hsuffices
  have hlisted : ∀ s ∈ l, r'.Remembers s.name := remembers_climb hm hrun (by simp)
  have hother := hclimbs.congr hm hl fun i hi => by
    obtain ⟨s, hs, rfl⟩ := List.mem_map.mp hi
    exact hsame s.name (hlisted s hs)
  rw [← hl, hother.unique (climbs_hierarchy hm' hbound)]
  exact yields_hierarchy hm' hbound

/-- Interfaces above a type that was listed can be listed again. -/
theorem Lineage.visits (hl : Lineage m l) (h : m.Visits listed pending out)
    (hpending : pending ⊆ l.map (·.name)) : ∃ l', out = .ok l' := by
  induction h with
  | done => exact ⟨_, rfl⟩
  | skip _ _ ih => exact ih (List.cons_subset.mp hpending).2
  -- what is listed means something, so nothing can be missing among it
  | fail _ he =>
    obtain ⟨s, hs, rfl⟩ := List.mem_map.mp (List.cons_subset.mp hpending).1
    cases he.symm.trans (Dictionary.required_eq_ok_iff.mpr (hl.means s hs))
  | visit _ ht _ ih =>
    obtain ⟨hi, hrest⟩ := List.cons_subset.mp hpending
    obtain ⟨s, hs, rfl⟩ := List.mem_map.mp hi
    obtain rfl := Except.ok.inj (ht.symm.trans (Dictionary.required_eq_ok_iff.mpr (hl.means s hs)))
    exact ih (List.append_subset.mpr ⟨hl.closed _ hs, hrest⟩)

/-- A class without a superclass that was listed once is the first of its own supertypes. -/
theorem yields_hierarchy_root (hm : m.Keyed) (hl : Lineage m l) (hs : s ∈ l)
    (hsuper : s.superName? = none) (hbound : m.Suffices bound s.name) :
    ∃ rest, Yields m (hierarchy s.name) (.ok (s :: rest)) := by
  have hyields := yields_hierarchy hm hbound
  have hclimbs := climbs_hierarchy hm hbound
  have hrequired := Dictionary.required_eq_ok_iff.mpr (hl.means s hs)
  generalize m.hierarchy bound s.name = out at hyields hclimbs
  cases hclimbs with
  | cyclic hagain => cases hagain
  | fail _ he => cases he.symm.trans hrequired
  | failAbove _ hs' hvisits =>
    obtain rfl := Except.ok.inj (hs'.symm.trans hrequired)
    obtain ⟨l', hl'⟩ := hl.visits hvisits (hl.closed _ hs)
    cases hl'
  | climb _ hs' hvisits hrest =>
    obtain rfl := Except.ok.inj (hs'.symm.trans hrequired)
    -- there is no superclass, so the walk ends behind the interfaces
    rw [hsuper] at hrest
    cases hrest
    obtain ⟨rest, rfl⟩ := (hvisits.depthFirst rfl).isPrefix
    exact ⟨rest, hyields⟩

/-! ## 2. Members -/

def declaredBy (name : String) (owner : Summary) : List Declared :=
  (owner.methods.filter fun m => m.name == name).map fun m => ⟨owner, m⟩

theorem owner_of_declaredBy {owner : Summary} {d : Declared} (h : d ∈ declaredBy name owner) :
    d.owner = owner := by
  obtain ⟨_, -, rfl⟩ := List.mem_map.mp h
  rfl

/-- Of the methods that share a descriptor the first one is taken, unless one was there before. -/
theorem mem_foldl_addUnhidden {all found : List Declared} {d : Declared} :
    d ∈ all.foldl addUnhidden found ↔ d ∈ found ∨
      ((∀ f ∈ found, f.member.descriptor ≠ d.member.descriptor) ∧
        all.find? (·.member.descriptor == d.member.descriptor) = some d) := by
  induction all generalizing found with
  | nil => simp
  | cons e all ih =>
    rw [List.foldl_cons, ih]
    unfold addUnhidden
    -- `e` is skipped if one with its descriptor was found before, and added otherwise
    by_cases hhidden : found.any (fun f => f.member.descriptor == e.member.descriptor) = true
    · rw [if_pos hhidden]
      obtain ⟨f, hf, hsame⟩ := List.any_eq_true.mp hhidden
      by_cases he : e.member.descriptor = d.member.descriptor
      -- `d` would be hidden by the same method as `e`
      · have hnot : ¬∀ f ∈ found, f.member.descriptor ≠ d.member.descriptor :=
          fun hall => hall f hf ((beq_iff_eq.mp hsame).trans he)
        simp only [hnot, false_and]
      · rw [List.find?_cons_of_neg (by simpa using he)]
    · rw [if_neg hhidden]
      have hnew : ∀ f ∈ found, f.member.descriptor ≠ e.member.descriptor := by simpa using hhidden
      by_cases he : e.member.descriptor = d.member.descriptor
      · rw [List.find?_cons_of_pos (by simpa using he)]
        rw [he] at hnew
        simp only [List.mem_append, List.mem_singleton, Option.some.injEq]
        constructor
        · rintro ((hd | rfl) | ⟨hall, -⟩)
          · exact .inl hd
          · exact .inr ⟨hnew, rfl⟩
          · exact absurd he (hall e (.inr rfl))
        · rintro (hd | ⟨-, rfl⟩)
          · exact .inl (.inl hd)
          · exact .inl (.inr rfl)
      · rw [List.find?_cons_of_neg (by simpa using he)]
        simp only [List.mem_append, List.mem_singleton]
        constructor
        · rintro ((hd | rfl) | ⟨hall, hd⟩)
          · exact .inl hd
          · exact absurd rfl he
          · exact .inr ⟨fun f hf => hall f (.inl hf), hd⟩
        · rintro (hd | ⟨hall, hd⟩)
          · exact .inl (.inl hd)
          · refine .inr ⟨?_, hd⟩
            rintro f (hf | rfl)
            · exact hall f hf
            · exact he

/-- A method is found if it is the first with its descriptor in the order of the owners. -/
theorem mem_methodsIn {owners : List Summary} {d : Declared} : d ∈ methodsIn name owners ↔
    owners.findSome? (fun owner =>
      (declaredBy name owner).find? (·.member.descriptor == d.member.descriptor)) = some d := by
  unfold methodsIn
  rw [mem_foldl_addUnhidden]
  simp only [List.not_mem_nil, false_or, false_imp_iff, implies_true, true_and]
  rw [List.find?_flatMap]
  rfl

theorem owner_of_mem_methodsIn {owners : List Summary} {d : Declared}
    (h : d ∈ methodsIn name owners) : d.owner ∈ owners := by
  obtain ⟨owner, howner, hfind⟩ := List.exists_of_findSome?_eq_some (mem_methodsIn.mp h)
  rw [owner_of_declaredBy (List.mem_of_find?_eq_some hfind)]
  exact howner

/-- A method that is found anywhere is found from the class on that declares it. -/
theorem mem_methodsIn_owner {owners rest : List Summary} {d : Declared}
    (h : d ∈ methodsIn name owners) : d ∈ methodsIn name (d.owner :: rest) := by
  obtain ⟨owner, howner, hfind⟩ := List.exists_of_findSome?_eq_some (mem_methodsIn.mp h)
  rw [mem_methodsIn, owner_of_declaredBy (List.mem_of_find?_eq_some hfind), List.findSome?_cons,
    hfind]

theorem yields_findMethods (h : Yields m (hierarchy className) (.ok l)) :
    Yields m (findMethods className name) (.ok (methodsIn name l)) := by
  unfold findMethods
  refine h.bind (g := fun l => .ok (methodsIn name l)) fun a ha => ?_
  cases ha
  exact .pure

/-- The methods of a name are found again, in a lineage. -/
theorem under_findMethods (hm : m.Keyed) : Under m (findMethods className name) fun found =>
    Yields m (findMethods className name) (.ok found) ∧
    ∃ l, Lineage m l ∧ found = methodsIn name l := by
  unfold findMethods
  refine (under_hierarchy hm).bind fun l hl => .ofPure ?_
  exact ⟨yields_findMethods hl.1, l, hl.2, rfl⟩

/-- The field of a name is found again. -/
theorem under_findField? (hm : m.Keyed) : Under m (findField? className name) fun found =>
    Yields m (findField? className name) (.ok found) := by
  unfold findField?
  refine (under_hierarchy hm).bind fun l hl => .ofPure ?_
  refine hl.1.bind (g := fun l => .ok (fieldIn? name l)) fun a ha => ?_
  cases ha
  exact .pure

end MethodGraft.Classpath
