import MethodGraft.Archive.Amend
import MethodGraft.Proofs.Classpath.Calls

/-!
# Proofs.Classpath.Supertypes — supertypes, inherited members and faults

Whatever the classes are that a resolver knows, the walk over the supertypes of a name ends, and
says what the name and those above it mean.  Fields and methods are inherited in the order of the
walk.
-/

namespace MethodGraft.Classpath

open Relation (ReflTransGen TransGen)

variable {m : Dictionary} {listed l : List Summary} {start name : String} {e : Error}
    {roots : List Root}

/-! ## 1. Faults -/

inductive Unusable (name : String) : Error → Prop
  | undecodable (error : ClassFile.Error) : Unusable name (.malformed name (.file error))
  | misnamed (declared : String) : Unusable name (.malformed name (.misnamed name declared))
  | unreadable (fault : Archive.Error) : Unusable name (.unreadable fault)

theorem unusable_of_summarize {bytes : List UInt8} (h : summarize name bytes = .error e) :
    Unusable name e := by
  unfold summarize at h
  rcases bind_eq_error h with hc | ⟨c, -, h⟩
  · obtain ⟨error, rfl⟩ := mapError_eq_error hc
    exact .undecodable error
  · rcases bind_eq_error h with hs | ⟨s, -, h⟩
    · obtain ⟨error, rfl⟩ := mapError_eq_error hs
      exact .undecodable error
    · split at h
      next => cases h
      next =>
        cases h
        exact .misnamed s.name

theorem unusable_of_classBytes {root : Root} (h : root.classBytes name = .error e) :
    Unusable name e := by
  cases root with
  | classes served => cases h
  | archive a =>
    obtain ⟨fault, rfl⟩ := mapError_eq_error h
    exact .unreadable fault
  | directory tree path => cases h

theorem unusable_of_served (h : served name roots = .error e) : Unusable name e := by
  induction roots with
  | nil => cases h
  | cons root roots ih =>
    unfold served at h
    rcases bind_eq_error h with hroot | ⟨found, -, h⟩
    · exact unusable_of_classBytes hroot
    · cases found with
      | none => exact ih h
      | some bytes =>
        rcases bind_eq_error h with hbytes | ⟨s, -, h⟩
        · exact unusable_of_summarize hbytes
        · cases h

theorem unusable_of_dictionary {calls : List Call} (h : dictionary roots calls name = .error e) :
    Unusable name e := by
  unfold dictionary at h
  split at h
  next => cases h
  next =>
    split at h
    next => cases h
    next => exact unusable_of_served h

/-- Why the supertypes of a class cannot be listed: links lead from it to a type that does not exist
or cannot be used, or the chain of its superclasses comes back to one of them. -/
inductive Dictionary.Fault (m : Dictionary) (start : String) : Error → Prop
  | missing {t : String} (hreached : m.Reaches start t) (hnone : m t = .ok none) :
      Fault m start (.notFound t)
  | unusable {t : String} {e : Error} (hreached : m.Reaches start t) (hbroken : m t = .error e)
      (he : Unusable t e) : Fault m start e
  | cyclic {t : String} (hchain : ReflTransGen m.Extends start t) (hback : TransGen m.Extends t t) :
      Fault m start (.malformed start (.cyclic t))

theorem Dictionary.Fault.of_required {t : String} (hm : ∀ t e, m t = .error e → Unusable t e)
    (hreached : m.Reaches start t) (ht : m.required t = .error e) : m.Fault start e := by
  unfold Dictionary.required at ht
  split at ht
  next => cases ht
  next hnone =>
    cases ht
    exact .missing hreached hnone
  next e' hbroken =>
    cases ht
    exact .unusable hreached hbroken (hm t e hbroken)

theorem Dictionary.Climbs.fault_of_error (h : m.Climbs start [] [] (some start) (.error e))
    (hm : ∀ t e, m t = .error e → Unusable t e) : m.Fault start e := by
  have hfault := h.fault rfl fun c hc => ⟨Option.some.inj hc ▸ .refl, fun d hd => by cases hd⟩
  rcases hfault with ⟨t, hreached, ht⟩ | ⟨t, hchain, hback, rfl⟩
  · exact .of_required hm hreached ht
  · exact .cyclic hchain hback

/-! ## 2. Supertypes -/

/-- The supertypes of a class: it stands first, each stands once and under its own name, exactly
those stand there that links lead to, and each class of the chain is followed depth first by the
interfaces above it. -/
structure Dictionary.Supertypes (m : Dictionary) (start : String) (l : List Summary) : Prop where
  head : ∃ s rest, l = s :: rest ∧ s.name = start
  nodup : (l.map (·.name)).Nodup
  means : ∀ s ∈ l, m s.name = .ok (some s)
  mem_iff : ∀ t, t ∈ l.map (·.name) ↔ m.Reaches start t
  order : m.Ascends [] (some start) l

theorem Dictionary.Ascends.supertypes (hm : m.Keyed) (h : m.Ascends [] (some start) l) :
    m.Supertypes start l := by
  have hlists := h.lists hm lists_nil
  refine ⟨?_, hlists.nodup, hlists.means, fun t => h.mem_iff hm, h⟩
  cases h with
  | @next _ k _ _ s hs habove hrest =>
    have hfirst : [s] <+: l := habove.isPrefix.trans hrest.isPrefix
    obtain ⟨rest, rfl⟩ := hfirst
    exact ⟨s, rest, rfl, hm start s hs⟩

/-! ## 3. Members -/

def fieldsOf (l : List Summary) : List Declared :=
  l.flatMap fun owner => owner.fields.map fun f => ⟨owner, f⟩

def methodsOf (l : List Summary) : List Declared :=
  l.flatMap fun owner => owner.methods.map fun f => ⟨owner, f⟩

/-- The methods of a name that types have: each descriptor that occurs once, with the first method
that has it. -/
structure Inherits (l : List Summary) (name : String) (found : List Declared) : Prop where
  nodup : (found.map (·.member.descriptor)).Nodup
  descriptors : ∀ descriptor, descriptor ∈ found.map (·.member.descriptor) ↔
    ∃ d ∈ methodsOf l, d.member.name = name ∧ d.member.descriptor = descriptor
  first : ∀ d ∈ found, (methodsOf l).find? (fun f =>
    f.member.name == name && f.member.descriptor == d.member.descriptor) = some d

theorem fieldIn?_eq (name : String) (l : List Summary) :
    fieldIn? name l = (fieldsOf l).find? fun f => f.member.name == name := by
  unfold fieldIn? fieldsOf
  rw [List.find?_flatMap]
  congr 1
  funext owner
  rw [List.find?_map]
  rfl

theorem find?_declaredBy (name descriptor : String) (l : List Summary) :
    l.findSome? (fun owner => (declaredBy name owner).find? (·.member.descriptor == descriptor)) =
      (methodsOf l).find? fun f => f.member.name == name && f.member.descriptor == descriptor := by
  unfold methodsOf declaredBy
  rw [List.find?_flatMap]
  congr 1
  funext owner
  rw [List.find?_map, List.find?_map, List.find?_filter]
  congr 2
  funext f
  rw [Bool.decide_and, Bool.decide_eq_true, Bool.decide_eq_true]
  rfl

theorem nodup_foldl_addUnhidden {all found : List Declared}
    (h : (found.map (·.member.descriptor)).Nodup) :
    ((all.foldl addUnhidden found).map (·.member.descriptor)).Nodup := by
  induction all generalizing found with
  | nil => exact h
  | cons d all ih =>
    refine ih ?_
    unfold addUnhidden
    split
    next => exact h
    next hnew =>
      rw [List.map_append, List.map_singleton, ← List.concat_eq_append]
      refine List.Nodup.concat ?_ h
      simpa using hnew

theorem mem_methodsIn_iff {d : Declared} : d ∈ methodsIn name l ↔
    (methodsOf l).find?
    (fun f => f.member.name == name && f.member.descriptor == d.member.descriptor) = some d := by
  rw [mem_methodsIn, find?_declaredBy]

theorem inherits_methodsIn (name : String) (l : List Summary) :
    Inherits l name (methodsIn name l) := by
  refine ⟨nodup_foldl_addUnhidden List.nodup_nil, fun descriptor => ⟨?_, ?_⟩,
    fun d hd => mem_methodsIn_iff.mp hd⟩
  · intro hdescriptor
    obtain ⟨d, hd, rfl⟩ := List.mem_map.mp hdescriptor
    -- a method that is found is the first with its name and descriptor
    have hfind := mem_methodsIn_iff.mp hd
    have hname := List.find?_some hfind
    rw [Bool.and_eq_true, beq_iff_eq] at hname
    exact ⟨d, List.mem_of_find?_eq_some hfind, hname.1, rfl⟩
  · rintro ⟨d, hd, hname, hdescriptor⟩
    have hsome :
        ((methodsOf l).find? fun f => f.member.name == name &&
          f.member.descriptor == descriptor).isSome :=
      List.find?_isSome.mpr ⟨d, hd, by simp [hname, hdescriptor]⟩
    obtain ⟨f, hf⟩ := Option.isSome_iff_exists.mp hsome
    have hsame := List.find?_some hf
    rw [Bool.and_eq_true, beq_iff_eq, beq_iff_eq] at hsame
    rw [← hsame.2] at hf ⊢
    exact List.mem_map_of_mem (mem_methodsIn_iff.mpr hf)

/-! ## 4. The walk of a resolver -/

/-- Whatever classes the roots serve and whatever was defined and looked up before, the walk over
the supertypes of a name ends as its loops do without any bound.  Either it lists the supertypes,
and fields and methods are found in their order, or it fails for a fault of a type that links lead
to or of the chain, and so do look-ups of members. -/
theorem hierarchy_supertypes (roots : List Root) (calls : List Call) (start : String) :
    let r := ({ roots } : Resolver).after calls
    let m := dictionary roots calls
    let walk := ((hierarchy start).run.run r).1
    m.Climbs start [] [] (some start) walk ∧
      match walk with
      | .ok l => m.Supertypes start l ∧ ∀ name,
        ((findField? start name).run.run r).1 =
          .ok ((fieldsOf l).find? fun f => f.member.name == name) ∧
          ∃ found, ((findMethods start name).run.run r).1 = .ok found ∧ Inherits l name found
      | .error e => m.Fault start e ∧ ∀ name,
        ((findField? start name).run.run r).1 = .error e ∧
          ((findMethods start name).run.run r).1 = .error e := by
  intro r m walk
  have hmeaning : r.meaning = m := meaning_after roots calls
  have hm : m.Keyed := hmeaning ▸ (reached_after (.fresh roots) calls).keyed
  have hsuffices : m.Suffices r.nameBound start := hmeaning ▸ r.suffices_nameBound start
  have hyields := yields_hierarchy hm hsuffices
  have hwalk : walk = m.hierarchy r.nameBound start := hyields.result hmeaning
  -- the bound is never reached, so the walk is one that knows of none
  have hclimbs : m.Climbs start [] [] (some start) walk := hwalk ▸ climbs_hierarchy hm hsuffices
  have hfield (name : String) :
      ((findField? start name).run.run r).1 = walk >>= fun l => .ok (fieldIn? name l) :=
    hwalk ▸ (hyields.bind fun _ _ => .pure).result hmeaning
  have hmethods (name : String) :
      ((findMethods start name).run.run r).1 = walk >>= fun l => .ok (methodsIn name l) :=
    hwalk ▸ (hyields.bind fun _ _ => .pure).result hmeaning
  refine ⟨hclimbs, ?_⟩
  clear_value walk
  cases walk with
  | ok l =>
    refine ⟨(hclimbs.ascends rfl).supertypes hm,
      fun name => ⟨?_, methodsIn name l, hmethods name, ?_⟩⟩
    · rw [hfield, ← fieldIn?_eq]
      rfl
    · exact inherits_methodsIn name l
  | error e =>
    exact ⟨hclimbs.fault_of_error fun t e => unusable_of_dictionary,
      fun name => ⟨hfield name, hmethods name⟩⟩

/-- An archive with one entry, for the class `A`, which does not agree with its check value. -/
def damagedArchive : Archive :=
  let entry : Archive.Entry := {
    name := "A.class", madeBy := 20, encrypted := false, method := .stored, time := 0, date := 33
    crc := 1, compressedSize := 1, size := 1, internalAttributes := 0, externalAttributes := 0
    comment := [], headerStart := 0, centralStart := 38 }
  ⟨Archive.assemble [⟨entry, [0]⟩] [], [entry], []⟩

set_option maxRecDepth 8000 in
/-- The walk fails for more than missing and malformed classes: also for a damaged entry of an
archive. -/
theorem hierarchy_of_damaged : Archive.ofBytes damagedArchive.bytes = .ok damagedArchive ∧
    ∃ e, ((hierarchy "A").run.run { roots := [.archive damagedArchive] }).1 = .error e ∧
      (∀ t, e ≠ .notFound t) ∧ ∀ t what, e ≠ .malformed t what :=
  ⟨rfl, .unreadable (.io .other), by rfl, nofun, nofun⟩

end MethodGraft.Classpath
