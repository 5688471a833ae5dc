import Mathlib.Data.List.Nodup
import Mathlib.Logic.Relation
import MethodGraft.Proofs.Classpath.Meaning

/-!
# Proofs.Classpath.Order — which supertypes are listed, and in which order

A walk over the supertypes is told here without any bound on its length, as its loops go: interfaces
wait in one list, classes follow each other in a chain.  Such a walk lists a class of the chain,
then depth first the interfaces above it, then the next class.  It lists what links lead to, each
type once.
-/

namespace MethodGraft.Classpath

open Relation (ReflTransGen TransGen)

variable {m : Dictionary} {listed l k : List Summary} {is js pending chain : List String}
    {s t : Summary}
  {start name i : String} {next : Option String} {out out' : Except Error (List Summary)}
    {e : Error}

def Summary.supertypes (s : Summary) : List String := s.superName?.toList ++ s.interfaces

def withClass (listed : List Summary) (s : Summary) : List Summary :=
  if listed.any (·.name == s.name) then listed else listed ++ [s]

/-! ## 1. Walks -/

/-- The interfaces in `pending`, and those above them, are listed one at a time after the types
already listed, until none is left or one cannot be looked up. -/
inductive Dictionary.Visits (m : Dictionary) :
    List Summary → List String → Except Error (List Summary) → Prop
  | done {listed : List Summary} : Visits m listed [] (.ok listed)
  | skip {listed : List Summary} {i : String} {pending : List String}
      {out : Except Error (List Summary)}
      (hlisted : i ∈ listed.map (·.name)) (hrest : Visits m listed pending out) :
      Visits m listed (i :: pending) out
  | fail {listed : List Summary} {i : String} {pending : List String} {e : Error}
      (hnew : i ∉ listed.map (·.name)) (he : m.required i = .error e) :
      Visits m listed (i :: pending) (.error e)
  | visit {listed : List Summary} {i : String} {pending : List String} {s : Summary}
      {out : Except Error (List Summary)} (hnew : i ∉ listed.map (·.name))
      (hs : m.required i = .ok s) (hrest : Visits m (listed ++ [s]) (s.interfaces ++ pending) out) :
      Visits m listed (i :: pending) out

/-- The class `next`, its interfaces and its superclasses are listed after the types already listed,
until there is no superclass, one is in the chain already, or a type cannot be looked up. -/
inductive Dictionary.Climbs (m : Dictionary) (start : String) :
    List String → List Summary → Option String → Except Error (List Summary) → Prop
  | top {chain : List String} {listed : List Summary} :
      Climbs m start chain listed none (.ok listed)
  | cyclic {chain : List String} {listed : List Summary} {name : String} (hagain : name ∈ chain) :
      Climbs m start chain listed (some name) (.error (.malformed start (.cyclic name)))
  | fail {chain : List String} {listed : List Summary} {name : String} {e : Error}
      (hnew : name ∉ chain) (he : m.required name = .error e) :
      Climbs m start chain listed (some name) (.error e)
  | failAbove {chain : List String} {listed : List Summary} {name : String} {s : Summary}
      {e : Error} (hnew : name ∉ chain) (hs : m.required name = .ok s)
      (hvisits : m.Visits (withClass listed s) s.interfaces (.error e)) :
      Climbs m start chain listed (some name) (.error e)
  | climb {chain : List String} {listed l : List Summary} {name : String} {s : Summary}
      {out : Except Error (List Summary)} (hnew : name ∉ chain) (hs : m.required name = .ok s)
      (hvisits : m.Visits (withClass listed s) s.interfaces (.ok l))
      (hrest : Climbs m start (name :: chain) l s.superName? out) :
      Climbs m start chain listed (some name) out

/-- A walk over interfaces can go one way only. -/
theorem Dictionary.Visits.unique (h : m.Visits listed pending out)
    (h' : m.Visits listed pending out') : out = out' := by
  induction h with
  | done =>
    cases h'
    rfl
  | skip hlisted _ ih =>
    cases h' with
    | skip _ hrest => exact ih hrest
    | fail hnew => exact absurd hlisted hnew
    | visit hnew => exact absurd hlisted hnew
  | fail hnew he =>
    cases h' with
    | skip hlisted => exact absurd hlisted hnew
    | fail _ he' => rw [Except.error.inj (he.symm.trans he')]
    | visit _ hs => cases he.symm.trans hs
  | visit hnew hs _ ih =>
    cases h' with
    | skip hlisted => exact absurd hlisted hnew
    | fail _ he => cases hs.symm.trans he
    | visit _ hs' hrest =>
      obtain rfl := Except.ok.inj (hs.symm.trans hs')
      exact ih hrest

/-- A walk over classes can go one way only. -/
theorem Dictionary.Climbs.unique (h : m.Climbs start chain listed next out)
    (h' : m.Climbs start chain listed next out') : out = out' := by
  -- each rule has a condition that excludes the others: the name is on the chain or new, it means
  -- something or not, and what is above it can be listed or not
  induction h with
  | top =>
    cases h'
    rfl
  | cyclic hagain =>
    cases h' with
    | cyclic => rfl
    | fail hnew => exact absurd hagain hnew
    | failAbove hnew => exact absurd hagain hnew
    | climb hnew => exact absurd hagain hnew
  | fail hnew he =>
    cases h' with
    | cyclic hagain => exact absurd hagain hnew
    | fail _ he' => rw [Except.error.inj (he.symm.trans he')]
    | failAbove _ hs => cases he.symm.trans hs
    | climb _ hs => cases he.symm.trans hs
  | failAbove hnew hs hvisits =>
    cases h' with
    | cyclic hagain => exact absurd hagain hnew
    | fail _ he => cases hs.symm.trans he
    | failAbove _ hs' hvisits' =>
      obtain rfl := Except.ok.inj (hs.symm.trans hs')
      rw [Except.error.inj (hvisits.unique hvisits')]
    | climb _ hs' hvisits' =>
      obtain rfl := Except.ok.inj (hs.symm.trans hs')
      cases hvisits.unique hvisits'
  | climb hnew hs hvisits _ ih =>
    cases h' with
    | cyclic hagain => exact absurd hagain hnew
    | fail _ he => cases hs.symm.trans he
    | failAbove _ hs' hvisits' =>
      obtain rfl := Except.ok.inj (hs.symm.trans hs')
      cases hvisits.unique hvisits'
    | climb _ hs' hvisits' hrest =>
      obtain rfl := Except.ok.inj (hs.symm.trans hs')
      obtain rfl := Except.ok.inj (hvisits.unique hvisits')
      exact ih hrest

/-! ## 2. The order -/

/-- The interfaces `is` are listed in order, each followed by those above it before the next one; a
type that is listed already is passed over. -/
inductive Dictionary.DepthFirst (m : Dictionary) : List Summary → List String → List Summary → Prop
  | nil {listed : List Summary} : DepthFirst m listed [] listed
  | old {listed l : List Summary} {i : String} {is : List String}
      (hlisted : i ∈ listed.map (·.name))
      (hrest : DepthFirst m listed is l) : DepthFirst m listed (i :: is) l
  | new {listed k l : List Summary} {i : String} {is : List String} {s : Summary}
      (hnew : i ∉ listed.map (·.name)) (hs : m i = .ok (some s))
      (habove : DepthFirst m (listed ++ [s]) s.interfaces k)
      (hrest : DepthFirst m k is l) : DepthFirst m listed (i :: is) l

/-- The class `next` is listed, then depth first its interfaces, then likewise its superclasses. -/
inductive Dictionary.Ascends (m : Dictionary) : List Summary → Option String → List Summary → Prop
  | top {listed : List Summary} : Ascends m listed none listed
  | next {listed k l : List Summary} {name : String} {s : Summary} (hs : m name = .ok (some s))
      (habove : m.DepthFirst (withClass listed s) s.interfaces k)
      (hrest : Ascends m k s.superName? l) : Ascends m listed (some name) l

/-- Interfaces that are listed in one go can be listed in two. -/
theorem Dictionary.DepthFirst.split (h : m.DepthFirst listed (is ++ js) l) :
    ∃ k, m.DepthFirst listed is k ∧ m.DepthFirst k js l := by
  induction is generalizing listed with
  | nil => exact ⟨listed, .nil, h⟩
  | cons i is ih =>
    cases h with
    | old hlisted hrest =>
      obtain ⟨k, his, hjs⟩ := ih hrest
      exact ⟨k, .old hlisted his, hjs⟩
    | new hnew hs habove hrest =>
      obtain ⟨k, his, hjs⟩ := ih hrest
      exact ⟨k, .new hnew hs habove his, hjs⟩

theorem Dictionary.Visits.depthFirst (h : m.Visits listed pending out) (hout : out = .ok l) :
    m.DepthFirst listed pending l := by
  induction h with
  | done =>
    cases hout
    exact .nil
  | skip hlisted _ ih => exact .old hlisted (ih hout)
  | fail => cases hout
  | visit hnew hs _ ih =>
    obtain ⟨k, habove, hrest⟩ := (ih hout).split
    exact .new hnew (Dictionary.required_eq_ok_iff.mp hs) habove hrest

theorem Dictionary.Climbs.ascends (h : m.Climbs start chain listed next out) (hout : out = .ok l) :
    m.Ascends listed next l := by
  induction h with
  | top =>
    cases hout
    exact .top
  | cyclic => cases hout
  | fail => cases hout
  | failAbove => cases hout
  | climb _ hs hvisits _ ih =>
    exact .next (Dictionary.required_eq_ok_iff.mp hs) (hvisits.depthFirst rfl) (ih hout)

/-! ## 3. What is listed is distinct -/

structure Lists (m : Dictionary) (listed : List Summary) : Prop where
  nodup : (listed.map (·.name)).Nodup
  means : ∀ s ∈ listed, m s.name = .ok (some s)

theorem lists_nil : Lists m [] := ⟨List.nodup_nil, by simp⟩

theorem any_name_iff : listed.any (·.name == name) = true ↔ name ∈ listed.map (·.name) := by
  simp only [List.any_eq_true, beq_iff_eq, List.mem_map]

theorem map_name_concat : (listed ++ [s]).map (·.name) = listed.map (·.name) ++ [s.name] := by
  rw [List.map_append, List.map_singleton]

theorem Lists.add (h : Lists m listed) (hm : m.Keyed) (hnew : name ∉ listed.map (·.name))
    (hs : m name = .ok (some s)) : Lists m (listed ++ [s]) := by
  obtain rfl := hm name s hs
  refine ⟨?_, ?_⟩
  · rw [map_name_concat, ← List.concat_eq_append]
    exact List.Nodup.concat hnew h.nodup
  · intro t ht
    rcases List.mem_append.mp ht with ht | ht
    · exact h.means t ht
    · rw [List.mem_singleton.mp ht]
      exact hs

theorem Lists.withClass (h : Lists m listed) (hm : m.Keyed) (hs : m name = .ok (some s)) :
    Lists m (withClass listed s) := by
  obtain rfl := hm name s hs
  unfold Classpath.withClass
  split
  next => exact h
  next hnew => exact h.add hm (any_name_iff.not.mp hnew) hs

theorem Dictionary.DepthFirst.lists (hm : m.Keyed) (h : m.DepthFirst listed is l)
    (hl : Lists m listed) : Lists m l := by
  induction h with
  | nil => exact hl
  | old _ _ ih => exact ih hl
  | new hnew hs _ _ ihabove ihrest => exact ihrest (ihabove (hl.add hm hnew hs))

theorem Dictionary.Ascends.lists (hm : m.Keyed) (h : m.Ascends listed next l)
    (hl : Lists m listed) : Lists m l := by
  induction h with
  | top => exact hl
  | next hs habove _ ih => exact ih (habove.lists hm (hl.withClass hm hs))

/-! ## 4. What is listed is what links lead to -/

def Dictionary.Extends (m : Dictionary) (t u : String) : Prop :=
  ∃ s, m t = .ok (some s) ∧ s.superName? = some u

def Dictionary.Implements (m : Dictionary) (t u : String) : Prop :=
  ∃ s, m t = .ok (some s) ∧ u ∈ s.interfaces

/-- From `start` the chain of superclasses leads to a class, and interfaces lead from there to
`t`. -/
def Dictionary.Reaches (m : Dictionary) (start t : String) : Prop :=
  ∃ c, ReflTransGen m.Extends start c ∧ ReflTransGen m.Implements c t

theorem prefix_of_withClass : listed <+: withClass listed s := by
  unfold withClass
  split
  next => exact List.prefix_refl _
  next => exact List.prefix_append _ _

theorem mem_withClass (h : t ∈ withClass listed s) : t ∈ listed ∨ t = s := by
  unfold withClass at h
  split at h
  next => exact .inl h
  next => simpa using h

theorem name_mem_withClass : s.name ∈ (withClass listed s).map (·.name) := by
  unfold withClass
  split
  next hlisted => exact any_name_iff.mp hlisted
  next => simp

/-- What is listed stays listed. -/
theorem Dictionary.DepthFirst.isPrefix (h : m.DepthFirst listed is l) : listed <+: l := by
  induction h with
  | nil => exact List.prefix_refl _
  | old _ _ ih => exact ih
  | new _ _ _ _ ihabove ihrest => exact (List.prefix_append _ _).trans (ihabove.trans ihrest)

theorem Dictionary.Ascends.isPrefix (h : m.Ascends listed next l) : listed <+: l := by
  induction h with
  | top => exact List.prefix_refl _
  | next _ habove _ ih => exact prefix_of_withClass.trans (habove.isPrefix.trans ih)

/-- What is listed was listed before, or links lead to it from the interfaces asked for. -/
theorem Dictionary.DepthFirst.reached (hm : m.Keyed) (h : m.DepthFirst listed is l) (ht : t ∈ l) :
    t ∈ listed ∨ ∃ i ∈ is, ReflTransGen m.Implements i t.name := by
  induction h with
  | nil => exact .inl ht
  | old _ _ ih =>
    rcases ih ht with hold | ⟨i, hi, hlinks⟩
    · exact .inl hold
    · exact .inr ⟨i, List.mem_cons_of_mem _ hi, hlinks⟩
  | @new listed k l i is s hnew hs _ _ ihabove ihrest =>
    -- `t` was listed behind `i`, above `i`, or is `i` itself
    rcases ihrest ht with hk | ⟨j, hj, hlinks⟩
    · rcases ihabove hk with hold | ⟨j, hj, hlinks⟩
      · rcases List.mem_append.mp hold with hold | hself
        · exact .inl hold
        · rw [List.mem_singleton.mp hself, hm i s hs]
          exact .inr ⟨i, List.mem_cons_self, .refl⟩
      · exact .inr ⟨i, List.mem_cons_self, .head ⟨s, hs, hj⟩ hlinks⟩
    · exact .inr ⟨j, List.mem_cons_of_mem _ hj, hlinks⟩

/-- The interfaces asked for are listed. -/
theorem Dictionary.DepthFirst.subset (hm : m.Keyed) (h : m.DepthFirst listed is l) :
    is ⊆ l.map (·.name) := by
  induction h with
  | nil => exact List.nil_subset _
  | old hlisted hrest ih =>
    exact List.cons_subset.mpr ⟨(hrest.isPrefix.map (·.name)).subset hlisted, ih⟩
  | @new listed k l i is s hnew hs habove hrest _ ihrest =>
    have hself : s ∈ l := (habove.isPrefix.trans hrest.isPrefix).subset (by simp)
    refine List.cons_subset.mpr ⟨?_, ihrest⟩
    rw [← hm i s hs]
    exact List.mem_map_of_mem hself

/-- With each new type the interfaces above it are listed. -/
theorem Dictionary.DepthFirst.closed (hm : m.Keyed) (h : m.DepthFirst listed is l) (ht : t ∈ l) :
    t ∈ listed ∨ t.interfaces ⊆ l.map (·.name) := by
  induction h with
  | nil => exact .inl ht
  | old _ _ ih => exact ih ht
  | new hnew hs habove hrest ihabove ihrest =>
    have hgrows := (hrest.isPrefix.map (·.name)).subset
    rcases ihrest ht with hk | hclosed
    · rcases ihabove hk with hold | hclosed
      · rcases List.mem_append.mp hold with hold | hself
        · exact .inl hold
        · rw [List.mem_singleton.mp hself]
          exact .inr fun j hj => hgrows (habove.subset hm hj)
      · exact .inr fun j hj => hgrows (hclosed hj)
    · exact .inr hclosed

structure Lineage (m : Dictionary) (l : List Summary) : Prop where
  means : ∀ s ∈ l, m s.name = .ok (some s)
  closed : ∀ s ∈ l, s.interfaces ⊆ l.map (·.name)

theorem lineage_nil : Lineage m [] := ⟨by simp, by simp⟩

theorem Dictionary.Ascends.lineage (hm : m.Keyed) (h : m.Ascends listed next l)
    (hl : Lists m listed) (hlisted : Lineage m listed) : Lineage m l := by
  induction h with
  | top => exact hlisted
  | next hs habove _ ih =>
    have hk := habove.lists hm (hl.withClass hm hs)
    refine ih hk ⟨hk.means, fun t ht => ?_⟩
    -- the new class has its interfaces listed right behind it
    rcases habove.closed hm ht with hold | hclosed
    · rcases mem_withClass hold with hold | rfl
      · have hgrows := (prefix_of_withClass.trans habove.isPrefix).map (·.name)
        exact fun i hi => hgrows.subset (hlisted.closed t hold hi)
      · exact habove.subset hm
    · exact hclosed

/-- Links between interfaces lead from what is listed to what is listed. -/
theorem Lineage.links (h : Lineage m l) (hi : i ∈ l.map (·.name))
    (hlinks : ReflTransGen m.Implements i name) : name ∈ l.map (·.name) := by
  induction hlinks with
  | refl => exact hi
  | tail _ hlink ih =>
    obtain ⟨s, hs, hmem⟩ := hlink
    obtain ⟨t, ht, rfl⟩ := List.mem_map.mp ih
    obtain rfl := Option.some.inj (Except.ok.inj (hs.symm.trans (h.means t ht)))
    exact h.closed s ht hmem

/-- The chain of superclasses is listed. -/
theorem Dictionary.Ascends.mem_of_extends (hm : m.Keyed) (h : m.Ascends listed next l)
    (hnext : start ∈ next) (hlinks : ReflTransGen m.Extends start name) :
    name ∈ l.map (·.name) := by
  induction h generalizing start with
  | top => cases hnext
  | @next listed k l start' s hs habove hrest ih =>
    obtain rfl := Option.some.inj hnext
    -- the chain ends at this class, or goes on to the superclass, where the walk goes next
    rcases ReflTransGen.cases_head hlinks with rfl | ⟨super, ⟨s', hs', hsuper⟩, hlinks⟩
    · rw [← hm start' s hs]
      exact ((habove.isPrefix.trans hrest.isPrefix).map (·.name)).subset name_mem_withClass
    · obtain rfl := Option.some.inj (Except.ok.inj (hs.symm.trans hs'))
      exact ih hsuper hlinks

/-- What is listed was listed before, or links lead to it from the class asked for. -/
theorem Dictionary.Ascends.reached (hm : m.Keyed) (h : m.Ascends listed next l) (ht : t ∈ l) :
    t ∈ listed ∨ ∃ c ∈ next, m.Reaches c t.name := by
  induction h with
  | top => exact .inl ht
  | @next listed k l name s hs habove _ ih =>
    rcases ih ht with hk | ⟨super, hsuper, c, hchain, hlinks⟩
    · rcases habove.reached hm hk with hold | ⟨i, hi, hlinks⟩
      · rcases mem_withClass hold with hold | rfl
        · exact .inl hold
        · rw [hm name t hs]
          exact .inr ⟨name, rfl, name, .refl, .refl⟩
      · exact .inr ⟨name, rfl, name, .refl, .head ⟨s, hs, hi⟩ hlinks⟩
    · exact .inr ⟨name, rfl, c, .head ⟨s, hs, hsuper⟩ hchain, hlinks⟩

/-- A type is listed if and only if links lead to it. -/
theorem Dictionary.Ascends.mem_iff (hm : m.Keyed) (h : m.Ascends [] (some start) l) :
    name ∈ l.map (·.name) ↔ m.Reaches start name := by
  constructor
  · intro hname
    obtain ⟨t, ht, rfl⟩ := List.mem_map.mp hname
    rcases h.reached hm ht with hnil | ⟨c, hc, hreaches⟩
    · cases hnil
    · rwa [Option.some.inj hc]
  · rintro ⟨c, hchain, hlinks⟩
    exact (h.lineage hm lists_nil lineage_nil).links (h.mem_of_extends hm rfl hchain) hlinks

/-! ## 5. Faults -/

/-- A walk over interfaces fails at one that links lead to. -/
theorem Dictionary.Visits.fault (h : m.Visits listed pending out) (hout : out = .error e) :
    ∃ i ∈ pending, ∃ t, ReflTransGen m.Implements i t ∧ m.required t = .error e := by
  induction h with
  | done => cases hout
  | skip _ _ ih =>
    obtain ⟨i, hi, hfault⟩ := ih hout
    exact ⟨i, List.mem_cons_of_mem _ hi, hfault⟩
  | fail _ he =>
    cases hout
    exact ⟨_, List.mem_cons_self, _, .refl, he⟩
  | @visit listed i pending s out _ hs _ ih =>
    obtain ⟨j, hj, t, hlinks, ht⟩ := ih hout
    rcases List.mem_append.mp hj with habove | hpending
    · exact ⟨i, List.mem_cons_self, t,
        .head ⟨s, Dictionary.required_eq_ok_iff.mp hs, habove⟩ hlinks, ht⟩
    · exact ⟨j, List.mem_cons_of_mem _ hpending, t, hlinks, ht⟩

/-- A walk over classes fails at a type that links lead to, or where the chain comes back to one of
its classes. -/
theorem Dictionary.Climbs.fault (h : m.Climbs start chain listed next out) (hout : out = .error e)
    (hchain : ∀ c ∈ next, ReflTransGen m.Extends start c ∧ ∀ d ∈ chain, TransGen m.Extends d c) :
    (∃ t, m.Reaches start t ∧ m.required t = .error e) ∨
      ∃ t, ReflTransGen m.Extends start t ∧ TransGen m.Extends t t ∧
        e = .malformed start (.cyclic t) := by
  induction h with
  | top => cases hout
  | @cyclic chain listed name hagain =>
    cases hout
    obtain ⟨hstart, hback⟩ := hchain name rfl
    exact .inr ⟨name, hstart, hback name hagain, rfl⟩
  | @fail chain listed name e' _ he =>
    cases hout
    exact .inl ⟨name, ⟨name, (hchain name rfl).1, .refl⟩, he⟩
  | @failAbove chain listed name s e' _ hs hvisits =>
    cases hout
    obtain ⟨i, hi, t, hlinks, ht⟩ := hvisits.fault rfl
    have hlink : m.Implements name i := ⟨s, Dictionary.required_eq_ok_iff.mp hs, hi⟩
    exact .inl ⟨t, ⟨name, (hchain name rfl).1, .head hlink hlinks⟩, ht⟩
  | @climb chain listed l name s out _ hs _ _ ih =>
    obtain ⟨hstart, hback⟩ := hchain name rfl
    refine ih hout fun super hsuper => ?_
    -- one more link leads from each class of the chain to the next class
    have hlink : m.Extends name super := ⟨s, Dictionary.required_eq_ok_iff.mp hs, hsuper⟩
    refine ⟨hstart.tail hlink, fun d hd => ?_⟩
    rcases List.mem_cons.mp hd with rfl | hd
    · exact .single hlink
    · exact (hback d hd).tail hlink

/-! ## 6. Walks where names mean something else -/

variable {m' : Dictionary}

theorem Dictionary.required_congr (h : m' name = m name) : m'.required name = m.required name := by
  unfold Dictionary.required
  rw [h]

/-- A walk over interfaces that has ended well is the same wherever what it lists means the same. -/
theorem Dictionary.Visits.congr (hm : m.Keyed) (h : m.Visits listed pending out)
    (hout : out = .ok l) (hsame : ∀ i ∈ l.map (·.name), m' i = m i) :
    m'.Visits listed pending out := by
  induction h with
  | done => exact .done
  | skip hlisted _ ih => exact .skip hlisted (ih hout)
  | fail => cases hout
  | @visit listed i pending s out hnew hs hrest ih =>
    have hname := hm i s (Dictionary.required_eq_ok_iff.mp hs)
    have hself : i ∈ l.map (·.name) := by
      refine ((hrest.depthFirst hout).isPrefix.map (·.name)).subset ?_
      simp [hname]
    exact .visit hnew ((Dictionary.required_congr (hsame i hself)).trans hs) (ih hout)

/-- A walk over classes that has ended well is the same wherever what it lists means the same. -/
theorem Dictionary.Climbs.congr (hm : m.Keyed) (h : m.Climbs start chain listed next out)
    (hout : out = .ok l) (hsame : ∀ i ∈ l.map (·.name), m' i = m i) :
    m'.Climbs start chain listed next out := by
  induction h with
  | top => exact .top
  | cyclic => cases hout
  | fail => cases hout
  | failAbove => cases hout
  | @climb chain listed k name s out hnew hs hvisits hrest ih =>
    have hname := hm name s (Dictionary.required_eq_ok_iff.mp hs)
    have habove := (hrest.ascends hout).isPrefix.map (·.name)
    have hself : name ∈ l.map (·.name) := by
      rw [← hname]
      exact (((hvisits.depthFirst rfl).isPrefix.map (·.name)).trans habove).subset
        name_mem_withClass
    refine .climb hnew ((Dictionary.required_congr (hsame name hself)).trans hs) ?_ (ih hout)
    exact hvisits.congr hm rfl fun i hi => hsame i (habove.subset hi)

end MethodGraft.Classpath
