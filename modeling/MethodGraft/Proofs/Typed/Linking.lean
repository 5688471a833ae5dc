import MethodGraft.Proofs.Typed.References

/-!
# Proofs.Typed.Linking — fields and calls name members that are found

The binder names a field or a method only after it found it, and the kind of a call follows from the
method.
-/

namespace MethodGraft.Typed

open ClassFile Classpath

variable {m : Dictionary} {self : String} {s : Scope}

def Links (m : Dictionary) (self : String) (refs : List Reference) : Prop :=
  ∀ ref ∈ refs, ∀ r, r.meaning = m → ref.Linked self r

theorem links_nil : Links m self [] := by
  intro ref href
  cases href

theorem links_append {as bs : List Reference} :
    Links m self (as ++ bs) ↔ Links m self as ∧ Links m self bs :=
  List.forall_mem_append

theorem Links.mono {as bs : List Reference} (h : Links m self bs) (hsubset : as ⊆ bs) :
    Links m self as :=
  fun ref href => h ref (hsubset href)

/-! ## 1. Overloads -/

structure Candidate.Among (methods : List Declared) (args : List Value) (c : Candidate) : Prop where
  mem : c.method ∈ methods
  type : MethodDescriptor.ofDescriptor c.method.member.descriptor = .ok c.type
  length_eq : c.type.params.length = args.length

theorem under_applicable (hm : m.Keyed) (args : List Value) (methods : List Declared) :
    Under m (applicable args methods) fun cs => ∀ c ∈ cs, c.Among methods args := by
  induction methods with
  | nil => exact .ofPure (by simp)
  | cons d methods ih =>
    unfold applicable
    refine under_ofDescriptor.bind fun type htype => ?_
    extract_lets keep
    have hkeep : ∀ fits : Bool, (fits = true → type.params.length = args.length) →
        Under m (keep fits) fun cs => ∀ c ∈ cs, c.Among (d :: methods) args := by
      intro fits hfits
      refine ih.bind fun rest hrest => .ofPure ?_
      have hold : ∀ c ∈ rest, c.Among (d :: methods) args := fun c hc =>
        ⟨List.mem_cons_of_mem d (hrest c hc).mem, (hrest c hc).type, (hrest c hc).length_eq⟩
      split
      next hb => exact List.forall_mem_cons.mpr ⟨⟨List.mem_cons_self, htype, hfits hb⟩, hold⟩
      next => exact hold
    split
    next hlength =>
      have htest (p : Value × FieldType) : Steady m (accepts p.1.type p.2) :=
        steady_accepts hm p.1.type p.2
      exact (Under.allM htest).bind fun b _ => hkeep b fun _ => hlength
    next => exact hkeep false (by simp)

theorem under_mostSpecific (hm : m.Keyed) (all : List Candidate) (i : Nat)
    (candidates : List Candidate) :
    Under m (mostSpecific all i candidates) fun cs => cs ⊆ candidates := by
  induction candidates generalizing i with
  | nil => exact .ofPure (List.Subset.refl _)
  | cons c candidates ih =>
    unfold mostSpecific
    have htest (other : Candidate) : Steady m (isMoreSpecific c.type other.type) := by
      unfold isMoreSpecific
      exact Under.allM fun p => steady_isAssignable hm p.1 p.2
    refine (Under.allM htest).bind fun isMost _ => (ih (i + 1)).bind fun rest hrest => .ofPure ?_
    split
    next => exact List.cons_subset_cons c hrest
    next => exact List.subset_cons_of_subset c hrest

theorem under_selectOverload (hm : m.Keyed) (methods : List Declared) (args : List Value)
    (name : String) (line : Nat) :
    Under m (selectOverload methods args name line) (Candidate.Among methods args) := by
  unfold selectOverload
  refine (under_applicable hm args methods).bind fun all hall => ?_
  refine (under_mostSpecific hm all 0 all).bind fun most hmost => ?_
  split
  next c => exact .ofPure (hall c (hmost List.mem_cons_self))
  next => exact .refusing fun _ => .ofThrow
  next => exact .ofThrow

/-! ## 2. Fields -/

def Meaning.references : Meaning → List Reference
  | .value v => v.expr.references
  | .condition c => c.references
  | .flag _ | .ofClass _ | .ofPackage _ => []

theorem under_toValue (n : Meaning) (e : Source.Expr) :
    Under m (n.toValue e) fun v => v.expr.references ⊆ n.references := by
  cases n with
  | value v => exact .ofPure (List.Subset.refl _)
  | flag b => exact .ofPure (List.nil_subset _)
  | condition c => exact .ofPure (List.Subset.refl _)
  | ofClass | ofPackage => exact .ofThrow

theorem under_toCond (n : Meaning) (e : Source.Expr) :
    Under m (n.toCond e) fun c => c.references ⊆ n.references := by
  have hvalue : Under m (do
      let v ← n.toValue e
      if v.type.isBoolean then return .value v.expr
      wrong e.line (.notBoolean v.type)) fun c : Cond => c.references ⊆ n.references := by
    refine (under_toValue n e).bind fun v hv => ?_
    split
    next => exact .ofPure hv
    next => exact .ofThrow
  cases n with
  | flag b => exact .ofPure (List.nil_subset _)
  | condition c => exact .ofPure (List.Subset.refl _)
  | value | ofClass | ofPackage => exact hvalue

/-- A field that was found under this name. -/
theorem links_field (self : String) {owner name : String} {d : Declared} {t : FieldType}
    (hfind : Yields m (findField? owner name) (.ok (some d)))
    (ht : FieldType.ofDescriptor d.member.descriptor = .ok t) :
    Links m self [.field d.member.flags.isStatic owner name t] := by
  intro ref href r hr
  rw [List.mem_singleton.mp href]
  exact ⟨d, hfind.result hr, (descriptor_of_fieldType ht).symm, ht, rfl⟩

theorem under_receiver (line : Nat) : Under m (s.receiver line) fun p => p.1.references = [] := by
  unfold Scope.receiver
  exact .refusing fun _ => .ofPure rfl

theorem under_nameMeaning (hm : m.Keyed) (name : String) (line : Nat) :
    Under m (s.nameMeaning name line) fun n => Links m self n.references := by
  unfold Scope.nameMeaning
  split
  next => exact .ofPure links_nil
  next =>
    refine (under_look (under_findField? hm)).bind fun found hfound => ?_
    split
    next d =>
      refine under_ofDescriptor.bind fun type htype => ?_
      have hlinks := links_field self hfound htype
      split
      next hstatic =>
        rw [hstatic] at hlinks
        exact .ofPure hlinks
      next hstatic =>
        rw [Bool.not_eq_true] at hstatic
        rw [hstatic] at hlinks
        refine .refusing fun _ => (under_receiver line).bind fun p hp => .ofPure ?_
        show Links m self (_ :: p.1.references)
        rw [hp]
        exact hlinks
    next =>
      refine (steady_lookupClass? name).bind fun c _ => ?_
      split <;> exact .ofPure links_nil

theorem under_instanceField (hm : m.Keyed) {v : Value} (hv : Links m self v.expr.references)
    (name : String) (line : Nat) :
    Under m (instanceField v name line) fun w => Links m self w.expr.references := by
  unfold instanceField
  split
  next owner _ =>
    refine (under_look (under_findField? hm)).bind fun found hfound => ?_
    split
    next d =>
      refine .refusing fun hstatic => under_ofDescriptor.bind fun type htype => .ofPure ?_
      have hlinks := links_field self hfound htype
      rw [Bool.not_eq_true] at hstatic
      rw [hstatic] at hlinks
      exact links_append.mpr ⟨hlinks, hv⟩
    next => exact .ofThrow
  next => exact .refusing fun _ => .ofThrow
  next => exact .ofThrow

theorem under_staticMember (hm : m.Keyed) (owner name : String) (line : Nat) :
    Under m (staticMember owner name line) fun n => Links m self n.references := by
  unfold staticMember
  refine (under_look (under_findField? hm)).bind fun found hfound => ?_
  split
  next d =>
    refine .refusing fun hstatic => under_ofDescriptor.bind fun type htype => .ofPure ?_
    have hlinks := links_field self hfound htype
    rw [show d.member.flags.isStatic = true by simpa using hstatic] at hlinks
    exact hlinks
  next =>
    refine (steady_exists? _).bind fun known _ => ?_
    split
    next => exact .ofPure links_nil
    next => exact .ofThrow

theorem under_memberMeaning (hm : m.Keyed) {n : Meaning} (hn : Links m self n.references)
    (e : Source.Expr) (name : String) (line : Nat) :
    Under m (memberMeaning n e name line) fun n => Links m self n.references := by
  have hvalue : Under m (do return .value (← instanceField (← n.toValue e) name line))
      fun n : Meaning => Links m self n.references :=
    (under_toValue n e).bind fun v hv =>
      (under_instanceField hm (hn.mono hv) name line).bind fun w hw => .ofPure hw
  cases n with
  | ofClass owner => exact under_staticMember hm owner name line
  | ofPackage package =>
    refine (steady_exists? _).bind fun known _ => .ofPure ?_
    split <;> exact links_nil
  | value | flag | condition => exact hvalue

/-! ## 3. Calls -/

/-- The class at the top is no interface and has no superclass, as the class format has it. -/
def RootOfAll (m : Dictionary) : Prop :=
  ∀ o, m FieldType.rootClass = .ok (some o) → o.isInterface = false ∧ o.superName? = none

def CallTarget.references : CallTarget → List Reference
  | .value v => v.expr.references
  | .self | .ofClass _ => []

theorem under_callTarget (n : Meaning) (e : Source.Expr) (line : Nat) :
    Under m (callTarget n e line) fun t => t.references ⊆ n.references := by
  have hvalue : Under m (do return .value (← n.toValue e)) fun t : CallTarget =>
      t.references ⊆ n.references :=
    (under_toValue n e).bind fun v hv => .ofPure hv
  cases n with
  | ofClass name => exact .ofPure (List.nil_subset _)
  | ofPackage name => exact .ofThrow
  | value | flag | condition => exact hvalue

theorem under_callReceiver (target : CallTarget) (chosen : Candidate) (name : String) (line : Nat) :
    Under m (s.callReceiver target chosen name line) fun e => e.references ⊆ target.references := by
  unfold Scope.callReceiver
  cases target with
  | value v => exact .ofPure (List.Subset.refl _)
  | ofClass c => exact .ofThrow
  | self =>
    refine .refusing fun _ => (under_receiver line).bind fun p hp => .ofPure ?_
    rw [hp]
    exact List.nil_subset _

/-- Passing arguments names what the arguments name. -/
theorem links_passed {args : List Value} (params : List FieldType)
    (hargs : ∀ a ∈ args, Links m self a.expr.references) :
    Links m self
    (Expr.allReferences ((args.zip params).map fun (arg, param) => passArgument arg param)) := by
  induction args generalizing params with
  | nil => exact links_nil
  | cons arg args ih =>
    cases params with
    | nil => exact links_nil
    | cons param params =>
      have hall := List.forall_mem_cons.mp hargs
      refine links_append.mpr ⟨?_, ih params hall.2⟩
      rw [references_passArgument]
      exact hall.1

/-- What is known of a method that a call means: the methods of its name that the class has, and the
class. -/
structure Found (m : Dictionary) (className name : String) (args : List Value) (chosen : Candidate)
    (owner : Summary) : Prop where
  methods : ∃ l, Lineage m l ∧ Yields m (findMethods className name) (.ok (methodsIn name l)) ∧
    chosen.Among (methodsIn name l) args
  owner : m className = .ok (some owner)

def Callee.Matches (self : String) (c : Callee) (d : Declared) : Prop :=
  match c.kind with
  | .static => d.member.flags.isStatic = true
  | .special =>
    d.member.flags.isStatic = false ∧ d.member.flags.isPrivate = true ∧ d.owner.name = self
  | .interface => d.member.flags.isStatic = false ∧ c.onInterface = true
  | .virtual => d.member.flags.isStatic = false ∧ c.onInterface = false

theorem Candidate.Among.linked {methods : List Declared} {args : List Value} {chosen : Candidate}
    {c : Callee} {r : Resolver} (h : chosen.Among methods args) (htype : c.type = chosen.type)
    (hfind : ∃ found, ((findMethods c.owner c.name).run.run r).1 = .ok found ∧
      chosen.method ∈ found)
    (howner : ∃ s, ((resolve c.owner).run.run r).1 = .ok s ∧ c.onInterface = s.isInterface)
    (hkind : c.Matches self chosen.method) : c.Linked self r args.length := by
  obtain ⟨found, hrun, hmem⟩ := hfind
  -- the chosen method is the one that the callee's name and descriptor find
  have hdescriptor : chosen.method.member.descriptor = c.type.descriptor := by
    rw [htype, descriptor_of_methodType h.type]
  have harguments : args.length = c.type.params.length := by
    rw [htype, h.length_eq]
  unfold Callee.Matches at hkind
  -- each kind of call asks its own of the method's flags and of its owner
  cases hk : c.kind with
  | «static» =>
    rw [hk] at hkind
    exact ⟨⟨found, hrun, chosen.method, hmem, hdescriptor, by simp [hk, hkind], by simp [hk]⟩,
      harguments, howner, by simp [hk], by simp [hk]⟩
  | special =>
    rw [hk] at hkind
    exact ⟨⟨found, hrun, chosen.method, hmem, hdescriptor, by simp [hk, hkind.1], fun _ => hkind.2⟩,
      harguments, howner, by simp [hk], by simp [hk]⟩
  | «interface» =>
    rw [hk] at hkind
    exact ⟨⟨found, hrun, chosen.method, hmem, hdescriptor, by simp [hk, hkind.1], by simp [hk]⟩,
      harguments, howner, fun _ => hkind.2, by simp [hk]⟩
  | virtual =>
    rw [hk] at hkind
    exact ⟨⟨found, hrun, chosen.method, hmem, hdescriptor, by simp [hk, hkind.1], by simp [hk]⟩,
      harguments, howner, by simp [hk], fun _ => hkind.2⟩

theorem Found.resolve {className name : String} {args : List Value} {chosen : Candidate}
    {owner : Summary} (h : Found m className name args chosen owner) {r : Resolver}
    (hr : r.meaning = m) : ((resolve className).run.run r).1 = .ok owner :=
  (yields_resolve.result hr).trans (Dictionary.required_eq_ok_iff.mpr h.owner)

/-- Calls of static methods name the class that they were found from. -/
theorem linked_static {className name : String} {args : List Value} {chosen : Candidate}
    {owner : Summary} (h : Found m className name args chosen owner)
    (hstatic : chosen.method.member.flags.isStatic = true) {r : Resolver} (hr : r.meaning = m) :
    Callee.Linked self r ⟨.static, className, owner.isInterface, name, chosen.type⟩
    args.length := by
  obtain ⟨l, -, hfind, hchosen⟩ := h.methods
  exact hchosen.linked rfl ⟨_, hfind.result hr, hchosen.mem⟩ ⟨owner, h.resolve hr, rfl⟩ hstatic

/-- Calls of instance methods name the class that they were found from, or the class at the top for
what every object has. -/
theorem linked_instanceCallee (hm : m.Keyed) (hroot : RootOfAll m) {className name : String}
    {args : List Value} {chosen : Candidate} {owner : Summary}
    (h : Found m className name args chosen owner)
    (hstatic : chosen.method.member.flags.isStatic = false) {r : Resolver} (hr : r.meaning = m) :
    (instanceCallee self owner chosen name).Linked self r args.length := by
  obtain ⟨l, hl, hfind, hchosen⟩ := h.methods
  obtain rfl := hm className owner h.owner
  have hfound :
      ∃ found, ((findMethods owner.name name).run.run r).1 = .ok found ∧ chosen.method ∈ found :=
    ⟨_, hfind.result hr, hchosen.mem⟩
  unfold instanceCallee
  dsimp only
  split
  next hprivate =>
    simp only [Bool.and_eq_true, beq_iff_eq] at hprivate
    exact hchosen.linked rfl hfound ⟨owner, h.resolve hr, rfl⟩ ⟨hstatic, hprivate.1⟩
  next =>
    split
    next hinherited =>
      simp only [Bool.and_eq_true, beq_iff_eq] at hinherited
      -- the method was listed with the class at the top, so it is found from there as well
      have hmem := owner_of_mem_methodsIn hchosen.mem
      have htop : m FieldType.rootClass = .ok (some chosen.method.owner) :=
        hinherited.2 ▸ hl.means _ hmem
      obtain ⟨hclass, hsuper⟩ := hroot _ htop
      have hsuffices := r.suffices_nameBound chosen.method.owner.name
      rw [hr] at hsuffices
      obtain ⟨rest, hrest⟩ := yields_hierarchy_root hm hl hmem hsuper hsuffices
      rw [hinherited.2] at hrest
      refine hchosen.linked rfl
        ⟨_, (yields_findMethods hrest).result hr, mem_methodsIn_owner hchosen.mem⟩ ?_ ⟨hstatic, rfl⟩
      exact ⟨_, (yields_resolve.result hr).trans (Dictionary.required_eq_ok_iff.mpr htop),
        hclass.symm⟩
    next =>
      split
      next hinterface =>
        exact hchosen.linked rfl hfound ⟨owner, h.resolve hr, hinterface.symm⟩ ⟨hstatic, rfl⟩
      next hclass =>
        exact hchosen.linked rfl hfound ⟨owner, h.resolve hr, by simpa using hclass⟩ ⟨hstatic, rfl⟩

theorem under_bindCall (hm : m.Keyed) (hroot : RootOfAll m) (hself : s.self.name = self)
    {target : CallTarget} (htarget : Links m self target.references) (name : String)
    {args : List Value} (hargs : ∀ a ∈ args, Links m self a.expr.references) (line : Nat) :
    Under m (s.bindCall target name args line) fun v => Links m self v.expr.references := by
  unfold Scope.bindCall
  extract_lets callIn
  have hcallIn :
      ∀ className, Under m (callIn className) fun v => Links m self v.expr.references := by
    intro className
    refine (under_look (under_findMethods hm)).bind fun found hfound => .refusing fun _ => ?_
    obtain ⟨hfind, l, hl, rfl⟩ := hfound
    refine (under_selectOverload hm _ args name line).bind fun chosen hchosen => ?_
    refine (under_look yields_resolve.under).bind fun owner howner => ?_
    have hcall : Found m className name args chosen owner :=
      ⟨⟨l, hl, hfind, hchosen⟩, Dictionary.required_eq_ok_iff.mp howner.1⟩
    have hpassed := links_passed chosen.type.params hargs
    -- every parameter has its argument: the chosen method takes as many
    have hlength :
        ((args.zip chosen.type.params).map fun (arg, param) => passArgument arg param).length =
        args.length := by
      rw [List.length_map, List.length_zip, hchosen.length_eq, Nat.min_self]
    dsimp only
    -- how the method is called depends on whether it is static, whatever the target is
    split
    next hstatic =>
      have hcallee : Links m self
          [.method ⟨.static, className, owner.isInterface, name, chosen.type⟩ args.length] := by
        intro ref href r hr
        rw [List.mem_singleton.mp href]
        exact linked_static hcall hstatic hr
      rw [← hlength] at hcallee
      split
      next v => exact .ofPure (links_append.mpr ⟨hcallee, links_append.mpr ⟨htarget, hpassed⟩⟩)
      next => exact .ofPure (links_append.mpr ⟨hcallee, hpassed⟩)
    next hstatic =>
      have hcallee :
          Links m self [.method (instanceCallee s.self.name owner chosen name) args.length] := by
        intro ref href r hr
        rw [List.mem_singleton.mp href, hself]
        exact linked_instanceCallee hm hroot hcall (by simpa using hstatic) hr
      rw [← hlength] at hcallee
      refine (under_callReceiver target chosen name line).bind fun receiver hreceiver => .ofPure ?_
      exact links_append.mpr ⟨hcallee, links_append.mpr ⟨htarget.mono hreceiver, hpassed⟩⟩
  cases target with
  | self => exact hcallIn _
  | ofClass c => exact hcallIn c
  | value v =>
    -- only the receiver's class is of interest, not how it was found
    have hclass : Under m (methodClass v line) fun _ => True := by
      unfold methodClass
      split
      next => exact .ofPure trivial
      next => exact .ofPure trivial
      next => exact .ofThrow
    exact hclass.bind fun c _ => hcallIn c

end MethodGraft.Typed
