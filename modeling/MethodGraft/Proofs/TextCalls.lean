import MethodGraft.Proofs.Emission.Invocations
import MethodGraft.Proofs.Typed.Choice
import MethodGraft.Proofs.Typed.Listings
import MethodGraft.Proofs.Verification

/-!
# Proofs.TextCalls — the methods that texts are joined with

To join texts, the code of a method makes an object of one class and calls its methods.  The binder
asks only whether that class is there.  Which of its methods are called is told by the types of the
operands, and there are ten of them; a call finds its method if and only if the class has it.
-/

namespace MethodGraft.Typed

open ClassFile Classpath Code Assembler

/-! ## 1. Calls in a tree -/

def appendedTypes : List FieldType :=
  [.boolean, .char, .int, .long, .float, .double, .string, .object FieldType.rootClass]

def textMethods : List Callee := newTextCallee :: builtTextCallee :: appendedTypes.map appendCallee

theorem appendType_mem (t : ValueType) : appendType t ∈ appendedTypes := by
  cases t with
  | void | null => decide
  | of t =>
    cases t with
    | object name =>
      unfold appendType
      dsimp only
      split
      next h =>
        have hstring : FieldType.object name = .string := by
          simpa [FieldType.isString, isFloating] using h
        rw [hstring]
        decide
      next => exact (by decide : FieldType.object FieldType.rootClass ∈ appendedTypes)
    | array t => exact (by decide : FieldType.object FieldType.rootClass ∈ appendedTypes)
    | _ => decide

variable {m : Dictionary} {s : Scope}

structure Joins (m : Dictionary) (c : Callee) : Prop where
  mem : c ∈ textMethods
  builder : ∃ builder, m textBuilder = .ok (some builder)

theorem allTextCalls_eq (es : List Expr) : Expr.allTextCalls es = es.flatMap Expr.textCalls := by
  induction es with
  | nil => rfl
  | cons e es ih => rw [Expr.allTextCalls, ih, List.flatMap_cons]

def textCallsListing : Listing Callee where
  expr := Expr.textCalls
  cond := Cond.textCalls
  int _ := rfl
  null := rfl
  widen _ _ _ := rfl
  checkcast _ _ := rfl
  call _ args := allTextCalls_eq args
  callOn receiver _ args := congrArg (receiver.textCalls ++ ·) (allTextCalls_eq args)
  condition _ := rfl
  const _ := rfl
  value _ := rfl
  ints _ _ _ := rfl
  longs _ _ _ := rfl
  refs _ _ _ := rfl
  nullity _ _ := rfl

theorem partTextCalls_append (ps qs : List (Expr × FieldType)) :
    Expr.partTextCalls (ps ++ qs) = Expr.partTextCalls ps ++ Expr.partTextCalls qs := by
  induction ps with
  | nil => rfl
  | cons p ps ih =>
    obtain ⟨e, t⟩ := p
    rw [List.cons_append, Expr.partTextCalls, Expr.partTextCalls, ih]
    simp only [List.cons_append, List.append_assoc]

/-- A value contributes the calls in it, and one that appends it as its type. -/
theorem joins_partsOf (hbuilder : ∃ builder, m textBuilder = .ok (some builder)) {v : Value}
    (h : ∀ c ∈ v.expr.textCalls, Joins m c) : ∀ c ∈ Expr.partTextCalls (partsOf v), Joins m c := by
  unfold partsOf
  split
  next parts hparts =>
    rw [hparts] at h
    exact fun c hc => h c (List.mem_cons_of_mem _ (List.mem_cons_of_mem _ hc))
  next =>
    intro c hc
    rw [Expr.partTextCalls, Expr.partTextCalls, List.append_nil] at hc
    rcases List.mem_cons.mp hc with rfl | hc
    · refine ⟨List.mem_cons_of_mem _ (List.mem_cons_of_mem _ ?_), hbuilder⟩
      exact List.mem_map_of_mem (appendType_mem v.type)
    · exact h c hc

mutual

/-- All calls that join texts in what an expression means are made on a class that is there. -/
theorem Means.joins {e : Source.Expr} {k : Meaning} :
    Means m s e k → ∀ c ∈ textCallsListing.meaning k, Joins m c
  | .literal v _ => by cases v <;> exact List.forall_mem_nil _
  | .this .. | .ofLocal .. | .ownStatic .. | .ownField .. | .staticField .. => List.forall_mem_nil _
  | .name _ _ hk | .qualified _ _ _ _ hk => by
    rw [textCallsListing.meaning_of_none hk]
    exact List.forall_mem_nil _
  | .field h hv .. => by
    have hvalue := textCallsListing.forall_of_value hv h.joins
    exact hvalue
  | .call hargs hpassed hv .. => by
    have hcalls : ∀ c ∈ _, Joins m c := hargs.joins
    rw [← textCallsListing.passed hpassed] at hcalls
    obtain hmakes | ⟨-, -, hmakes⟩ := textCallsListing.makes hv
    all_goals exact fun c hc => hcalls c (by rw [Listing.meaning, hmakes] at hc; exact hc)
  -- whether the target's value or its class is called, what it calls is in the meaning of the
  -- target
  | .callOn hargs h hon hpassed hv .. => by
    have hcalls : ∀ c ∈ _, Joins m c := hargs.joins
    rw [← textCallsListing.passed hpassed] at hcalls
    have hon' := h.joins
    rw [textCallsListing.meaning_of_callTarget hon] at hon'
    obtain hmakes | ⟨-, -, hmakes⟩ := textCallsListing.makes hv
    · exact fun c hc => List.forall_mem_append.mpr ⟨hon', hcalls⟩ c
        (by rw [Listing.meaning, hmakes] at hc; exact hc)
    · exact fun c hc => hcalls c (by rw [Listing.meaning, hmakes] at hc; exact hc)
  | .not h hc _ => by
    have hcond := textCallsListing.forall_of_cond hc h.joins
    exact hcond
  | .and hl hc hr hd _ | .or hl hc hr hd _ => by
    have hleft := textCallsListing.forall_of_cond hc hl.joins
    have hright := textCallsListing.forall_of_cond hd hr.joins
    exact List.forall_mem_append.mpr ⟨hleft, hright⟩
  | .compare hl hv hr hw hc _ => by
    have hleft := textCallsListing.forall_of_value hv hl.joins
    have hright := textCallsListing.forall_of_value hw hr.joins
    rw [Listing.meaning, textCallsListing.compares hc (hl.nullOnly hv) (hr.nullOnly hw)]
    exact List.forall_mem_append.mpr ⟨hleft, hright⟩
  | .sum hl hv hr hw hx hy _ _ => by
    have hleft := textCallsListing.forall_of_value hv hl.joins
    have hright := textCallsListing.forall_of_value hw hr.joins
    rw [← textCallsListing.recast hx] at hleft
    rw [← textCallsListing.recast hy] at hright
    exact List.forall_mem_append.mpr ⟨hleft, hright⟩
  | .concat hl hv hr hw hbuilder _ => by
    -- the builder is there, and with it all that is made on it
    have hmade : ∀ c ∈ [newTextCallee, builtTextCallee], Joins m c := by
      intro c hc
      exact ⟨List.mem_append_left (appendedTypes.map appendCallee) hc, _, hbuilder⟩
    have hleft := joins_partsOf ⟨_, hbuilder⟩ (textCallsListing.forall_of_value hv hl.joins)
    have hright := joins_partsOf ⟨_, hbuilder⟩ (textCallsListing.forall_of_value hw hr.joins)
    refine List.forall_mem_append.mpr ⟨hmade, ?_⟩
    rw [partTextCalls_append]
    exact List.forall_mem_append.mpr ⟨hleft, hright⟩
  | .cast _ h hv hx _ => by
    have hvalue := textCallsListing.forall_of_value hv h.joins
    rw [← textCallsListing.recast hx] at hvalue
    exact hvalue

theorem AllMean.joins {es : List Source.Expr} {vs : List Value} :
    AllMean m s es vs → ∀ c ∈ vs.flatMap (fun v => textCallsListing.expr v.expr), Joins m c
  | .nil => List.forall_mem_nil _
  | .cons h hv hes => by
    rw [List.flatMap_cons]
    exact List.forall_mem_append.mpr ⟨textCallsListing.forall_of_value hv h.joins, hes.joins⟩

end

theorem IsValue.joins {e : Source.Expr} {v : Value} (h : IsValue m s e v) :
    ∀ c ∈ v.expr.textCalls, Joins m c := by
  obtain ⟨k, hk, hv⟩ := h
  exact textCallsListing.forall_of_value hv hk.joins

theorem IsCond.joins {e : Source.Expr} {c : Cond} (h : IsCond m s e c) :
    ∀ call ∈ c.textCalls, Joins m call := by
  obtain ⟨k, hk, hc⟩ := h
  exact textCallsListing.forall_of_cond hc hk.joins

theorem textCalls_branchOf (stmt : Stmt) : Stmt.allTextCalls (branchOf stmt) = stmt.textCalls := by
  unfold branchOf
  split
  next => rfl
  next => exact List.append_nil _

mutual

/-- So are those in what a statement is bound to. -/
theorem Binds.joins {s : Scope} {stmt : Source.Stmt} {b : Bound} :
    Binds m s stmt b → ∀ c ∈ b.stmt.textCalls, Joins m c
  | .store _ _ hv hx _ _ | .retValue hv hx _ _ => by
    have hjoins : ∀ c ∈ textCallsListing.expr _, Joins m c := hv.joins
    rw [← textCallsListing.recast hx] at hjoins
    exact hjoins
  | .readField _ _ hv _ _ _ | .call hv _ => hv.joins
  | .ifThen hc _ hyes _ => by
    have hbranch := hyes.joins
    rw [← textCalls_branchOf] at hbranch
    exact List.forall_mem_append.mpr ⟨hc.joins, hbranch⟩
  | .ifElse hc _ hyes _ hno _ => by
    have hbranch := hyes.joins
    have hother := hno.joins
    rw [← textCalls_branchOf] at hbranch hother
    exact List.forall_mem_append.mpr ⟨hc.joins, List.forall_mem_append.mpr ⟨hbranch, hother⟩⟩
  | .ret _ => List.forall_mem_nil _
  | .block h _ => h.joins

theorem BindsAll.joins {s : Scope} {stmts : List Source.Stmt} {bs : List Stmt} {completes : Bool} :
    BindsAll m s stmts bs completes → ∀ c ∈ Stmt.allTextCalls bs, Joins m c
  | .nil _ => List.forall_mem_nil _
  | .cons h _ hrest => List.forall_mem_append.mpr ⟨h.joins, hrest.joins⟩
  | .last h _ => List.forall_mem_append.mpr ⟨h.joins, List.forall_mem_nil _⟩

end

/-! ## 2. Calls of finished code -/

def Reference.callee? : Reference → Option Callee
  | .method c _ => some c
  | .field .. => none

/-- All that code for a method may call: the methods that its tree names, those that join texts, and
those that read fields by name. -/
def Method.calls (m : Method) : List Callee :=
  m.references.filterMap Reference.callee? ++ (m.textCalls ++ reflectionCalls)

theorem Method.within_calls (m : Method) : Within m.calls m.references m.textCalls where
  named _ _ hc := List.mem_append_left _ (List.mem_filterMap.mpr ⟨_, hc, rfl⟩)
  texts := List.subset_append_of_subset_right _ (List.subset_append_left _ _)

theorem Method.reflectionCalls_subset (m : Method) : reflectionCalls ⊆ m.calls :=
  List.subset_append_of_subset_right _ (List.subset_append_right _ _)

section

variable {method : Method} {owner : String} {majorVersion : UInt16} {p q r : ConstantPool}
    {code : CodeAttribute}

/-- The body that the code is made from. -/
theorem emitted_of_run (hm : method.WellFormed) (hp : p.WellFormed)
    (hcode : (method.code owner majorVersion).run.run p = (.ok code, q)) : ∃ F,
      method.emit.run.run (method.start owner p) = (.ok ⟨⟩, F) ∧
        Compiled method owner majorVersion p F code q := by
  have hready := method.ready_start hm owner hp
  unfold Method.code at hcode
  extract_lets receiver assembly at hcode
  obtain ⟨_, _, hget, hcode⟩ := run_bind_eq_ok.mp hcode
  cases hget
  split at hcode
  next result a hrun =>
    change assembly.run.run (method.start owner p) = (result, a) at hrun
    obtain ⟨_, _, hset, hresult⟩ := run_bind_eq_ok.mp hcode
    cases hset
    cases result with
    -- a body that fails is no code
    | error e => cases hresult
    | ok c =>
      cases hresult
      obtain ⟨_, F, hemit, hfinish⟩ := run_bind_eq_ok.mp hrun
      have hemits := (meets_emit hm hready nofun).of_ok hemit
      have hvalid := hready.valid.builds hemits.quiet.builds
      obtain ⟨_, _, hget, hfinish⟩ := run_bind_eq_ok.mp hfinish
      cases hget
      obtain ⟨pool, hlayout, rfl⟩ := run_intern_eq_ok hfinish
      -- every label that is left open by the body has been placed in it
      have hfinished :=
        (meets_layout hvalid hemits.closed hemits.dead (settled_of_quiet hemits.quiet rfl)
        majorVersion).of_ok hlayout
      exact ⟨F, hemit, hemits, hfinished, hvalid⟩

/-- Code calls nothing else. -/
theorem invoked_mem_calls (hm : method.WellFormed) (hp : p.WellFormed)
    (hcode : (method.code owner majorVersion).run.run p = (.ok code, q)) (hr : q ≤ r) :
    ∃ refs, invokedMethods code.code r = .ok refs ∧
    ∀ ref ∈ refs, ∃ c ∈ method.calls, ref = c.ref := by
  obtain ⟨F, hemit, hF⟩ := emitted_of_run hm hp hcode
  have hstart : InvokesOnly method.calls (method.start owner p) := ⟨hp, fun op hop => by cases hop⟩
  have hinvokes :=
    keeps_emitMethod method.reflectionCalls_subset method method.within_calls _ _ F hstart hemit
  obtain ⟨is, hwalk, hsplit, heffect⟩ := hF.splits hr
  obtain ⟨ms, hms⟩ := hsplit.invokedMethods heffect
  refine ⟨ms.filterMap id, invokedMethods_of_walk hwalk hms, fun ref href => ?_⟩
  obtain ⟨found, hfound, hsome⟩ := List.mem_filterMap.mp href
  obtain rfl : found = some ref := hsome
  obtain ⟨kind, i, slots, hop, hi⟩ := hsplit.invoke_mem heffect hms hfound
  obtain ⟨c, hc, -, hi'⟩ :=
    (hinvokes.operations _ hop).mono (hF.finished.pool.trans hr) kind i slots rfl
  exact ⟨c, hc, Except.ok.inj (hi.symm.trans hi')⟩

end

/-! ## 3. Compiling -/

/-- The method is found in its class, with exactly its descriptor. -/
def Callee.IsFound (r : Resolver) (c : Callee) : Prop :=
  ∃ found, ((findMethods c.owner c.name).run.run r).1 = .ok found ∧
    c.type.descriptor ∈ found.map (·.member.descriptor)

/-- Where the supertypes of its class can be listed, a method is found if and only if one of them
declares it. -/
theorem isFound_iff {r : Resolver} (hr : r.Reached) {c : Callee}
    (hsound : r.meaning.Sound c.owner) :
    c.IsFound r ↔ ∃ d, Offers r.meaning c.owner c.name d ∧ d.descriptor = c.type.descriptor := by
  obtain ⟨l, hyields, hl⟩ := hsound.exists_supertypes hr.keyed r.bounded
  have hmethods : ((findMethods c.owner c.name).run.run r).1 = .ok (methodsIn c.name l) :=
    (yields_findMethods hyields).result rfl
  rw [← mem_descriptors_iff hl (inherits_methodsIn c.name l)]
  refine ⟨fun ⟨found, hfound, hmem⟩ => ?_, fun hmem => ⟨_, hmethods, hmem⟩⟩
  rwa [Except.ok.inj (hfound.symm.trans hmethods)] at hmem

theorem owner_of_mem_textMethods {c : Callee} (h : c ∈ textMethods) : c.owner = textBuilder := by
  rcases List.mem_cons.mp h with rfl | h
  · rfl
  rcases List.mem_cons.mp h with rfl | h
  · rfl
  obtain ⟨t, -, rfl⟩ := List.mem_map.mp h
  rfl

/-- The calls that join the texts in a bound method. -/
theorem joins_of_bind {r r' : Resolver} {imports : List String} {self : Summary}
    {d : Source.MethodDecl} {method : Method} (hr : r.Reached)
    (h : (bindMethod imports self d).run.run r = (.ok method, r')) :
    r'.Reached ∧ ∀ c ∈ method.textCalls, Joins r'.meaning c := by
  obtain ⟨hlearns, scope, hbinds⟩ :=
    under_bindMethod_binds hr.keyed imports self d r method r' rfl h
  rw [hlearns.meaning]
  exact ⟨hlearns.reached hr, hbinds.body.joins⟩

variable {imports : List String} {source : String} {s s' : Session} {new : Member}

/-- **The calls that join texts.**  Code calls the methods that the tree names, those that read
fields by name, and to join texts no other methods than ten of one class, by the types of the
operands.  When a source text compiles, that class is there; each of the calls finds its method,
with exactly its descriptor, if and only if the class or one of its supertypes declares it. -/
theorem textCalls_found (hr : s.resolver.Reached) (hfile : s.file.WellFormed)
    (h : (compile imports source).run.run s = (.ok new, s')) :
    ∃ method code, Declared imports source s method s' ∧
      Generates s method code new s' ∧ s'.resolver.Reached ∧
      (∃ refs, invokedMethods code.code s'.file.pool = .ok refs ∧
        ∀ ref ∈ refs, ∃ c ∈ method.calls, ref = c.ref) ∧
      ∀ c ∈ method.textCalls, c ∈ textMethods ∧
        (∃ builder, ((resolve? textBuilder).run.run s'.resolver).1 = .ok (some builder)) ∧
        (s'.resolver.meaning.Sound textBuilder → (c.IsFound s'.resolver ↔
          ∃ d, Offers s'.resolver.meaning textBuilder c.name d ∧
          d.descriptor = c.type.descriptor)) := by
  obtain ⟨method, code, hmethod, hcode⟩ := generates_of_run hfile h
  obtain ⟨owner, q, hrun, hq⟩ := hcode.run
  have hinvoked := invoked_mem_calls hmethod.wellFormed hfile.pool hrun hq
  obtain ⟨d, self, r, hd, hself, hbind⟩ := hmethod
  have hreached : r.Reached := by
    have hdefined := hr.define s.file
    have hsame : ((look (define s.file)).run.run s.resolver).2 =
      ((define s.file).run.run s.resolver).2 := rfl
    rw [← hsame, hself] at hdefined
    exact hdefined
  obtain ⟨hreached', hjoins⟩ := joins_of_bind hreached hbind
  refine ⟨method, code, ⟨d, self, r, hd, hself, hbind⟩, hcode, hreached', hinvoked, fun c hc => ?_⟩
  obtain ⟨hmem, builder, hbuilder⟩ := hjoins c hc
  refine ⟨hmem, ⟨builder, (yields_resolve?.result rfl).trans hbuilder⟩, fun hsound => ?_⟩
  have howner := owner_of_mem_textMethods hmem
  rw [← howner] at hsound ⊢
  exact isFound_iff hreached' hsound

def joining : String := "String join(float f) \x7b return \"x\" + f; \x7d"

def joiningCalls : List Callee :=
  [newTextCallee, appendCallee .string, appendCallee .float, builtTextCallee]

def builderWith (appended : List FieldType) : Summary :=
  classOf textBuilder (some FieldType.rootClass) []
    ((newTextCallee :: builtTextCallee :: appended.map appendCallee).map
      fun c => (c.name, c.type.descriptor))

def withBuilder (appended : List FieldType) : Resolver :=
  defining
    [classOf FieldType.rootClass none [] [],
      classOf "java/lang/String" (some FieldType.rootClass) [] [],
    builderWith appended]

def callsOf (new : Member) (s : Session) : List MemberRef :=
  match new.attributes with
  | [.code code] => (invokedMethods code.code s.file.pool).toOption.getD []
  | _ => []

theorem Generates.callsOf {method : Method} {code : CodeAttribute} {refs : List MemberRef}
    (h : Generates s method code new s')
    (hrefs : invokedMethods code.code s'.file.pool = .ok refs) : callsOf new s' = refs := by
  unfold Typed.callsOf
  rw [h.attributes]
  show (invokedMethods code.code s'.file.pool).toOption.getD [] = refs
  rw [hrefs]
  rfl

def emptyClass : ClassFile := (decode emptyBytes).toOption.getD (fileOf (classOf "A" none [] []))

theorem wellFormed_emptyClass : emptyClass.WellFormed := by
  have hok : (decode emptyBytes).isOk = true := by decide +kernel
  obtain ⟨c, hc⟩ := exists_of_isOk hok
  unfold emptyClass
  rw [hc]
  exact (decode_eq_ok_iff.mp hc).1

/-- Where the class has all the methods, all calls are found. -/
theorem textCalls_found_all : ∃ new s' method code,
    (compile [] joining).run.run ⟨emptyClass, withBuilder appendedTypes⟩ = (.ok new, s') ∧
    Generates ⟨emptyClass, withBuilder appendedTypes⟩ method code new s' ∧
    invokedMethods code.code s'.file.pool = .ok (joiningCalls.map Callee.ref) ∧
    ∀ c ∈ method.textCalls, c.IsFound s'.resolver := by
  obtain ⟨new, s', hrun, hcheck⟩ :=
    exists_run (x := compile [] joining) (r := ⟨emptyClass, withBuilder appendedTypes⟩)
      (fun new s' => decide (callsOf new s' = joiningCalls.map Callee.ref ∧
        ((hierarchy textBuilder).run.run s'.resolver).1 = .ok [builderWith appendedTypes,
          classOf FieldType.rootClass none [] []])) (by decide +kernel)
  obtain ⟨hcalls, hl⟩ := of_decide_eq_true hcheck
  obtain ⟨method, code, -, hcode, hr, ⟨refs, hrefs, -⟩, htexts⟩ :=
    textCalls_found (reached_defining _) wellFormed_emptyClass hrun
  rw [← hcode.callsOf hrefs, hcalls] at hrefs
  refine ⟨new, s', method, code, hrun, hcode, hrefs, fun c hc => ?_⟩
  obtain ⟨hmem, -, hfound⟩ := htexts c hc
  have hsupertypes := supertypes_of_hierarchy hr hl
  have hdeclared : ∀ c ∈ textMethods, ∃ d ∈ (builderWith appendedTypes).methods,
      d.name = c.name ∧ d.descriptor = c.type.descriptor := by decide +kernel
  obtain ⟨d, hd, hname, hdescriptor⟩ := hdeclared c hmem
  refine (hfound hsupertypes.sound).mpr ⟨d, ?_, hdescriptor⟩
  exact (offers_iff hsupertypes).mpr ⟨_, List.mem_cons_self, hd, hname⟩

/-- Where the class does not append values of a type, a text that needs it compiles all the same,
and its code calls a method that is not there. -/
theorem textCalls_unfound : ∃ new s' c,
    (compile [] joining).run.run ⟨emptyClass, withBuilder [.string]⟩ = (.ok new, s') ∧
    c = appendCallee .float ∧ c.ref ∈ callsOf new s' ∧ ¬c.IsFound s'.resolver := by
  obtain ⟨new, s', hrun, hcheck⟩ :=
    exists_run (x := compile [] joining) (r := ⟨emptyClass, withBuilder [.string]⟩)
      (fun new s' => decide ((appendCallee .float).ref ∈ callsOf new s' ∧
        ((findMethods textBuilder "append").run.run s'.resolver).1.toOption.map
        (·.map (·.member.descriptor)) =
          some [(appendCallee .string).type.descriptor])) (by decide +kernel)
  obtain ⟨hcall, hfound⟩ := of_decide_eq_true hcheck
  refine ⟨new, s', _, hrun, rfl, hcall, fun ⟨found, hrun', hmem⟩ => ?_⟩
  have hdescriptors : found.map (·.member.descriptor) =
      [(appendCallee .string).type.descriptor] := by
    rw [show ((findMethods textBuilder "append").run.run s'.resolver).1 = .ok found from hrun']
      at hfound
    exact Option.some.inj hfound
  rw [hdescriptors] at hmem
  exact absurd hmem (by decide +kernel)

end MethodGraft.Typed
