import MethodGraft.Proofs.Typed.Overloads

/-!
# Proofs.Typed.Choice — the method of a class that a call means

A call looks for methods of a name in a class and chooses one of them.  Where the classes that it
looks at are sound, the outcome says which methods apply and whether exactly one of them is the most
specific.
-/

namespace MethodGraft.Typed

open ClassFile Classpath

variable {m : Dictionary} {l : List Summary} {found : List Declared} {args : List Value}
    {className name : String}
  {line : Nat}

/-! ## 1. Calls of sound classes -/

def overload (className name : String) (args : List Value) (line : Nat) : Binding Candidate := do
  selectOverload (← look (findMethods className name)) args name line

/-- The class, or one of its supertypes, declares the method, which has the name. -/
def Offers (m : Dictionary) (className name : String) (d : MemberSummary) : Prop :=
  ∃ t s, m.Reaches className t ∧ m t = .ok (some s) ∧ d ∈ s.methods ∧ d.name = name

/-- All classes that the call looks at are sound: the one that the method is looked for in, those of
the arguments and those of the parameters of all methods of the name. -/
structure SoundCall (m : Dictionary) (className name : String) (args : List Value) : Prop where
  owner : m.Sound className
  arguments : SoundArguments m args
  parameters :
    ∀ d, Offers m className name d → ∀ type, MethodDescriptor.ofDescriptor d.descriptor = .ok type →
    ∀ param ∈ type.params, m.SoundType param

theorem offers_iff (hl : m.Supertypes className l) {d : MemberSummary} :
    Offers m className name d ↔ ∃ s ∈ l, d ∈ s.methods ∧ d.name = name := by
  constructor
  · rintro ⟨t, s, hreaches, hs, hd, hname⟩
    obtain ⟨s', hs', rfl⟩ := List.mem_map.mp ((hl.mem_iff t).mpr hreaches)
    obtain rfl := Option.some.inj (Except.ok.inj (hs.symm.trans (hl.means s' hs')))
    exact ⟨s, hs', hd, hname⟩
  · rintro ⟨s, hs, hd, hname⟩
    exact ⟨s.name, s, (hl.mem_iff s.name).mp (List.mem_map_of_mem hs), hl.means s hs, hd, hname⟩

theorem offers_of_mem (hl : m.Supertypes className l) (hfound : Inherits l name found)
    {d : Declared} (hd : d ∈ found) : Offers m className name d.member := by
  have hfirst := hfound.first d hd
  have hname := List.find?_some hfirst
  rw [Bool.and_eq_true, beq_iff_eq] at hname
  obtain ⟨s, hs, hmem⟩ := List.mem_flatMap.mp (List.mem_of_find?_eq_some hfirst)
  obtain ⟨f, hf, rfl⟩ := List.mem_map.mp hmem
  exact (offers_iff hl).mpr ⟨s, hs, hf, hname.1⟩

/-- Each descriptor of a method of the name is found. -/
theorem mem_descriptors_iff (hl : m.Supertypes className l) (hfound : Inherits l name found)
    {descriptor : String} :
    descriptor ∈ found.map (·.member.descriptor) ↔
    ∃ d, Offers m className name d ∧ d.descriptor = descriptor := by
  constructor
  · intro hmem
    obtain ⟨d, hd, rfl⟩ := List.mem_map.mp hmem
    exact ⟨d.member, offers_of_mem hl hfound hd, rfl⟩
  · rintro ⟨d, hd, rfl⟩
    obtain ⟨s, hs, hmem, hname⟩ := (offers_iff hl).mp hd
    refine (hfound.descriptors d.descriptor).mpr ⟨⟨s, d⟩, ?_, hname, rfl⟩
    exact List.mem_flatMap.mpr ⟨s, hs, List.mem_map_of_mem hmem⟩

/-- A call of sound classes looks the methods up and chooses between them. -/
theorem yields_overload (line : Nat) (hm : m.Keyed) (hbounded : m.Bounded)
    (h : SoundCall m className name args) :
    ∃ l found out, m.Supertypes className l ∧ Inherits l name found ∧
      Yields m (findMethods className name) (.ok found) ∧
        Yields m (overload className name args line) out ∧
      Selects m found args name line out := by
  obtain ⟨l, hyields, hl⟩ := h.owner.exists_supertypes hm hbounded
  have hfound := inherits_methodsIn name l
  have hmethods : Yields m (findMethods className name) (.ok (methodsIn name l)) :=
    yields_findMethods hyields
  have hparams : SoundParameters m (methodsIn name l) :=
    fun d hd => h.parameters d.member (offers_of_mem hl hfound hd)
  have hchoice : ∃ out, Yields m (selectOverload (methodsIn name l) args name line) out ∧
      Selects m (methodsIn name l) args name line out :=
    selects_selectOverload hm hbounded hfound.nodup h.arguments hparams
  obtain ⟨out, hout, hselects⟩ := hchoice
  exact ⟨l, _, out, hl, hfound, hmethods, (yields_look hmethods).bind_ok hout, hselects⟩

/-! ## 2. Testing for sound classes -/

def walks (r : Resolver) (t : FieldType) : Bool :=
  (classOf? t).all fun name => ((hierarchy name).run.run r).1.isOk

theorem soundType_of_walks {r : Resolver} (hr : r.Reached) {t : FieldType} (h : walks r t = true) :
    r.meaning.SoundType t := by
  intro name hname
  have hok := (Option.all_eq_true _ _).mp h name hname
  obtain ⟨l, hl⟩ := exists_of_isOk hok
  exact (supertypes_of_hierarchy hr hl).sound

def isSoundCall (r : Resolver) (className name : String) (args : List Value) : Bool :=
  match ((hierarchy className).run.run r).1 with
  | .ok l =>
    (args.all fun arg =>
      match arg.type with
      | .of t => walks r t
      | _ => true) &&
    l.all fun s => s.methods.all fun d => d.name != name ||
      match MethodDescriptor.ofDescriptor d.descriptor with
      | .ok type => type.params.all (walks r)
      | .error _ => true
  | .error _ => false

theorem soundCall_of_test {r : Resolver} (hr : r.Reached)
    (h : isSoundCall r className name args = true) : SoundCall r.meaning className name args := by
  unfold isSoundCall at h
  split at h
  next l hl =>
    obtain ⟨hargs, hmethods⟩ := Bool.and_eq_true_iff.mp h
    rw [List.all_eq_true] at hargs hmethods
    have hsupertypes := supertypes_of_hierarchy hr hl
    refine ⟨hsupertypes.sound, fun arg harg t ht => ?_, fun d hd type htype param hparam => ?_⟩
    · have htest := hargs arg harg
      rw [ht] at htest
      exact soundType_of_walks hr htest
    · obtain ⟨s, hs, hmem, hname⟩ := (offers_iff hsupertypes).mp hd
      have htest := List.all_eq_true.mp (hmethods s hs) d hmem
      rw [htype] at htest
      simp only [hname, bne_self_eq_false, Bool.false_or] at htest
      exact soundType_of_walks hr (List.all_eq_true.mp htest param hparam)
  next => cases h

/-! ## 3. Classes for examples -/

def classNames (s : Summary) : List String := s.name :: (s.superName?.toList ++ s.interfaces)

/-- A class file that others see as `s`, for a class without fields.  Its pool holds the names of
classes and then those of methods. -/
def fileOf (s : Summary) : ClassFile where
  minorVersion := 0
  majorVersion := defaultMajorVersion
  pool := ⟨(Constant.unusable ::
    (((classNames s).mapIdx fun i n => [Constant.utf8 n, .classRef (.ofNat (2 * i + 1))]).flatten ++
      s.methods.flatMap fun d => [.utf8 d.name, .utf8 d.descriptor])).toArray⟩
  flags := s.flags
  thisClass := 2
  superClass := if s.superName?.isSome then 4 else 0
  interfaces := s.interfaces.mapIdx fun i _ => .ofNat (2 * (s.superName?.toList.length + i) + 4)
  fields := []
  methods := s.methods.mapIdx fun i d =>
    ⟨d.flags, .ofNat (2 * ((classNames s).length + i) + 1),
      .ofNat (2 * ((classNames s).length + i) + 2), []⟩
  attributes := []

def defining (classes : List Summary) : Resolver :=
  ({} : Resolver).after (classes.map (.define <| fileOf ·))

theorem reached_defining (classes : List Summary) : (defining classes).Reached :=
  reached_after (.fresh []) _

/-- A resolver where one class more is defined. -/
theorem reached_remember {r : Resolver} {s : Summary} (hr : r.Reached)
    (h : Summary.ofClass (fileOf s) = .ok s) : (r.remember s.name (some s)).Reached := by
  have hdefined := hr.define (fileOf s)
  rwa [run_define_ok h] at hdefined

def classOf (name : String) (superName? : Option String) (interfaces : List String)
    (methods : List (String × String)) : Summary :=
  ⟨name, superName?, interfaces, ⟨0x0021⟩, [],
    methods.map fun (name, descriptor) => ⟨⟨1⟩, name, descriptor⟩⟩

/-- A class with a method for values of its own type, one for those of a subclass, and one without
parameters. -/
def base : Summary := classOf "A" none [] [("f", "(LA;)V"), ("f", "(LB;)V"), ("f", "()LA;")]

/-- The subclass, which has the second method of its own, and a third one that returns a value of
its own type. -/
def derived : Summary := classOf "B" (some "A") [] [("f", "(LB;)V"), ("f", "()LB;")]

/-! ## 4. Outcomes -/

/-- **The outcome of a call.**  The supertypes of the class are listed, and of the methods of the
name those are found that no method before them hides.  One of them is called if and only if it is
the only most specific one of those that apply; the call is ambiguous if and only if some method
applies but none is the only most specific one; and there is no suitable method if and only if none
applies.  So of two methods with the same parameters neither hides the other if what they return
differs, and where both are the most specific the call is ambiguous. -/
theorem overload_outcome {r : Resolver} (hr : r.Reached) (line : Nat)
    (h : SoundCall r.meaning className name args)
    (hreadable : ∀ d, Offers r.meaning className name d →
      ∃ type, MethodDescriptor.ofDescriptor d.descriptor = .ok type) :
    let outcome := ((overload className name args line).run.run r).1
    ∃ l found, r.meaning.Supertypes className l ∧
      ((findMethods className name).run.run r).1 = .ok found ∧ Inherits l name found ∧
      (∀ c, outcome = .ok c ↔ c.MostSpecific r.meaning found args ∧
        ∀ d : Candidate, d.MostSpecific r.meaning found args → d = c) ∧
      (outcome = .error (.fault line (.ambiguous name)) ↔
        (∃ c : Candidate, c.Applies r.meaning found args) ∧
          ¬∃! c : Candidate, c.MostSpecific r.meaning found args) ∧
      (outcome = .error (.fault line (.noSuitableMethod name (args.map (·.type)))) ↔
        ∀ c : Candidate, ¬c.Applies r.meaning found args) := by
  intro outcome
  obtain ⟨l, found, out, hl, hfound, hmethods, hyields, hselects⟩ :=
    yields_overload line hr.keyed r.bounded h
  have hout : outcome = out := hyields.result rfl
  have hread : Readable found := fun d hd => hreadable d.member (offers_of_mem hl hfound hd)
  rw [hout]
  exact ⟨l, found, hl, hmethods.result rfl, hfound, fun c => hselects.eq_ok_iff hfound.nodup hread,
    hselects.eq_ambiguous_iff hfound.nodup hread, hselects.eq_noSuitable_iff hfound.nodup hread⟩

/-- The method of `B` is called, which overrides the one of `A` with the same descriptor. -/
theorem overload_outcome_override : let r := defining [base, derived]
    ∃ found, ∃ c : Candidate, ((findMethods "B" "f").run.run r).1 = .ok found ∧
      ((overload "B" "f" [.of .null (.object "B")] 1).run.run r).1 = .ok c ∧
        c.method.owner = derived ∧
      c.type = ⟨[.object "B"], none⟩ ∧ c.MostSpecific r.meaning found
        [.of .null (.object "B")] := by
  intro r
  have hr : r.Reached := reached_defining _
  have hsound : SoundCall r.meaning "B" "f" [.of .null (.object "B")] :=
    soundCall_of_test hr (by decide +kernel)
  have hl : ((hierarchy "B").run.run r).1 = .ok [derived, base] := by decide +kernel
  have hreadable : ∀ d, Offers r.meaning "B" "f" d →
      ∃ type, MethodDescriptor.ofDescriptor d.descriptor = .ok type := by
    intro d hd
    obtain ⟨s, hs, hmem, -⟩ := (offers_iff (supertypes_of_hierarchy hr hl)).mp hd
    have hall : ∀ s ∈ [derived, base], ∀ d ∈ s.methods,
        (MethodDescriptor.ofDescriptor d.descriptor).isOk = true := by decide +kernel
    exact exists_of_isOk (hall s hs d hmem)
  obtain ⟨l, found, -, hfound, -, hchosen, -, -⟩ := overload_outcome hr 1 hsound hreadable
  have hrun : ((overload "B" "f" [.of .null (.object "B")] 1).run.run r).1.toOption.map (fun c =>
      (c.method.owner, c.type)) = some (derived, ⟨[.object "B"], none⟩) := by decide +kernel
  obtain ⟨c, hc, hcheck⟩ := Option.map_eq_some_iff.mp hrun
  have hout := toOption_eq_some hc
  obtain ⟨howner, htype⟩ := Prod.mk.inj hcheck
  exact ⟨found, c, hfound, hout, howner, htype, ((hchosen c).mp hout).1⟩

/-- For no arguments two methods apply, with the same parameters, and so both are the most specific.
The one of `B` comes first and does not hide the other, which returns something else, and the call
is ambiguous. -/
theorem overload_covariant_ambiguous : let r := defining [base, derived]
    ∃ found, ∃ c : Candidate, ((findMethods "B" "f").run.run r).1 = .ok found ∧
      c.method.owner = derived ∧ c.MostSpecific r.meaning found [] ∧
      (∀ d : Candidate, d.Applies r.meaning found [] → d.type.params = c.type.params) ∧
      ((overload "B" "f" [] 1).run.run r).1 = .error (.fault 1 (.ambiguous "f")) := by
  intro r
  let c : Candidate := ⟨⟨derived, ⟨⟨1⟩, "f", "()LB;"⟩⟩, ⟨[], some (.object "B")⟩⟩
  have hfound : ((findMethods "B" "f").run.run r).1.toOption.map
      (fun found => decide (c.method ∈ found)) = some true := by decide +kernel
  obtain ⟨found, hfound, hmem⟩ := Option.map_eq_some_iff.mp hfound
  have hparams (d : Candidate) (hd : d.Applies r.meaning found []) : d.type.params = [] :=
    List.forall₂_nil_left_iff.mp hd.takes
  have htype : MethodDescriptor.ofDescriptor c.method.member.descriptor = .ok c.type := by
    decide +kernel
  have houtcome : ((overload "B" "f" [] 1).run.run r).1.map Candidate.method =
      .error (.fault 1 (.ambiguous "f")) := by decide +kernel
  refine ⟨found, c, toOption_eq_some hfound, rfl,
    ⟨⟨of_decide_eq_true hmem, htype, .nil⟩, fun d hd => ?_⟩, hparams, eq_error_of_map houtcome⟩
  rw [hparams d hd]
  exact .nil

end MethodGraft.Typed
