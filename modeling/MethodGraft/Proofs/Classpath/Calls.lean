import Mathlib.Data.List.Induction
import MethodGraft.Proofs.Classpath.Lookup

/-!
# Proofs.Classpath.Calls — what was looked up before makes no difference

A resolver answers every call as one would that has the same roots and the same classes defined, and
has looked up nothing yet.  Calls that fail halfway make no difference either.
-/

namespace MethodGraft.Classpath

open ClassFile

variable {α β : Type} {m : Dictionary} {x : Resolve α} {f : α → Resolve β} {name className : String}

/-! ## 1. Calls -/

/-- A call on a resolver. -/
inductive Call where
  | define (c : ClassFile)
  | resolve? (name : String)
  | resolve (name : String)
  | findField? (className name : String)
  | findMethods (className name : String)
  | isSubclass (sub super : String)
  | isAssignable (source target : FieldType)

inductive Answer where
  | summary (s : Summary)
  | known (found : Option Summary)
  | field (found : Option Declared)
  | methods (found : List Declared)
  | holds (b : Bool)
  deriving DecidableEq

namespace Call

def run : Call → Resolve Answer
  | .define c => return .summary (← Classpath.define c)
  | .resolve? name => return .known (← Classpath.resolve? name)
  | .resolve name => return .summary (← Classpath.resolve name)
  | .findField? className name => return .field (← Classpath.findField? className name)
  | .findMethods className name => return .methods (← Classpath.findMethods className name)
  | .isSubclass sub super => return .holds (← Classpath.isSubclass sub super)
  | .isAssignable source target => return .holds (← Classpath.isAssignable source target)

def isDefine : Call → Bool
  | .define _ => true
  | _ => false

def defined? : Call → Option Summary
  | .define c => (Summary.ofClass c).toOption
  | _ => none

end Call

def Resolver.answer (r : Resolver) (c : Call) : Except Error Answer := (c.run.run.run r).1

def Resolver.after (r : Resolver) (calls : List Call) : Resolver :=
  calls.foldl (fun r c => (c.run.run.run r).2) r

def lastDefined? (calls : List Call) (name : String) : Option Summary :=
  (calls.filterMap Call.defined?).reverse.find? (·.name = name)

/-- A name means the class last defined under it, else the array class of that name, else the class
in the first root that has one. -/
def dictionary (roots : List Root) (calls : List Call) : Dictionary := fun name =>
  match lastDefined? calls name with
  | some s => .ok (some s)
  | none =>
    if name.toList.head? = some '[' then .ok (some (Summary.ofArray name)) else served name roots

/-! ## 2. Calls that look names up -/

/-- The supertypes of every class can be listed in a number of steps. -/
def Dictionary.Bounded (m : Dictionary) : Prop := ∀ name, ∃ bound, m.Suffices bound name

theorem Resolver.bounded (r : Resolver) : r.meaning.Bounded :=
  fun name => ⟨r.nameBound, r.suffices_nameBound name⟩

/-- The result depends on what names mean only, and names keep their meaning.  A step that succeeds
does so with the same result wherever the names mean the same whose answers are remembered after
it. -/
structure Determined {ε : Type} (m : Dictionary) (x : ExceptT ε (StateM Resolver) α) : Prop where
  result : ∃ result, Yields m x result
  elsewhere : ∀ r a r', r.meaning = m → x.run.run r = (.ok a, r') →
    ∀ m' : Dictionary, m'.Keyed → m'.Bounded →
    (∀ name, r'.Remembers name → m' name = m name) → Yields m' x (.ok a)

namespace Determined

section

variable {ε : Type} {x : ExceptT ε (StateM Resolver) α} {f : α → ExceptT ε (StateM Resolver) β}

/-- An outcome that looks nothing up. -/
theorem ofMk {result : Except ε α} :
    Determined m (ExceptT.mk (pure result) : ExceptT ε (StateM Resolver) α) := by
  have hyields (m : Dictionary) : Yields m (ExceptT.mk (Pure.pure result)) result :=
    fun r _ => ⟨r, rfl, .refl r⟩
  refine ⟨⟨result, hyields m⟩, fun r a r' _ hrun m' _ _ _ => ?_⟩
  cases hrun
  exact hyields m'

theorem pure {a : α} : Determined m (pure a : ExceptT ε (StateM Resolver) α) := @ofMk _ _ _ (.ok a)

theorem throw {e : ε} : Determined m (throw e : ExceptT ε (StateM Resolver) α) :=
  @ofMk _ _ _ (.error e)

theorem bind (hx : Determined m x) (hf : ∀ a, Determined m (f a)) : Determined m (x >>= f) := by
  constructor
  · obtain ⟨result, hresult⟩ := hx.result
    choose g hg using fun a => (hf a).result
    exact ⟨result >>= g, hresult.bind fun a _ => hg a⟩
  · intro r b r' hr hrun m' hkeyed hbounded hsame
    obtain ⟨a, t, hrunx, hrunf⟩ := run_bind_eq_ok.mp hrun
    obtain ⟨resultx, hresultx⟩ := hx.result
    obtain ⟨resultf, hresultf⟩ := (hf a).result
    have ht : t.meaning = m := (hresultx.under r a t hr hrunx).1.meaning.trans hr
    have hlearns := (hresultf.under t b r' ht hrunf).1
    -- what the first step has remembered is remembered after the second one as well
    have hfirst : Yields m' x (.ok a) :=
      hx.elsewhere r a t hr hrunx m' hkeyed hbounded fun name hname =>
        hsame name (hlearns.kept name hname)
    exact hfirst.bind_ok ((hf a).elsewhere t b r' ht hrunf m' hkeyed hbounded hsame)

/-- A fault that is reported if `c` holds. -/
theorem refusing {c : Prop} [Decidable c] {e : ε} {y : ExceptT ε (StateM Resolver) β}
    (h : Determined m y) : Determined m (if c then MonadExcept.throw e >>= f else y) := by
  split
  next => exact ⟨⟨.error e, Yields.throw.bind_error⟩, fun r a r' _ hrun => by cases hrun⟩
  next => exact h

/-- Tests in sequence. -/
theorem allM {test : α → ExceptT ε (StateM Resolver) Bool} (h : ∀ a, Determined m (test a))
    (as : List α) : Determined m (as.allM test) := by
  induction as with
  | nil => exact pure
  | cons a as ih =>
    refine (h a).bind fun b => ?_
    cases b with
    | false => exact pure
    | true => exact ih

/-- What one run gives, every run gives. -/
theorem under (hx : Determined m x) : Under m x fun a => Yields m x (.ok a) := by
  obtain ⟨result, hresult⟩ := hx.result
  exact hresult.under.mono fun a ha => ha.2

/-- A run leaves all names their meaning, and what is remembered stays so. -/
theorem learns {r : Resolver} (hx : Determined r.meaning x) : r.Learns (x.run.run r).2 := by
  obtain ⟨result, hresult⟩ := hx.result
  obtain ⟨r', hrun, hlearns⟩ := hresult r rfl
  rw [hrun]
  exact hlearns

end

theorem resolve? : Determined m (resolve? name) := by
  refine ⟨⟨m name, yields_resolve?⟩, fun r found r' hr hrun m' _ _ hsame => ?_⟩
  have hfound := (yields_resolve?.under r found r' hr hrun).2.1
  rw [← hfound, ← hsame name (remembers_of_resolve? hrun)]
  exact yields_resolve?

theorem resolve : Determined m (resolve name) := by
  refine ⟨⟨m.required name, yields_resolve⟩, fun r s r' hr hrun m' _ _ hsame => ?_⟩
  have hs := (yields_resolve.under r s r' hr hrun).2.1
  rw [← hs, ← Dictionary.required_congr (hsame name (remembers_of_resolve hrun))]
  exact yields_resolve

variable (hm : m.Keyed) (hbounded : m.Bounded)
include hm hbounded

theorem hierarchy : Determined m (hierarchy name) := by
  obtain ⟨bound, hbound⟩ := hbounded name
  refine ⟨⟨m.hierarchy bound name, yields_hierarchy hm hbound⟩, ?_⟩
  rintro r l r' rfl hrun m' hm' hbounded' hsame
  obtain ⟨bound', hbound'⟩ := hbounded' name
  exact yields_hierarchy_of_remembered hm hrun hm' hbound' hsame

theorem isSubclass {sub super : String} : Determined m (isSubclass sub super) := by
  unfold Classpath.isSubclass
  split
  · exact .pure
  · exact (Determined.hierarchy hm hbounded).bind fun _ => .pure

theorem isAssignable {source target : FieldType} : Determined m (isAssignable source target) := by
  induction source generalizing target with
  -- nothing is looked up for an array, but for what its components are
  | array a ih =>
    unfold Classpath.isAssignable
    split
    · exact .pure
    · cases target with
      | array b =>
        dsimp only
        split
        · exact ih
        · exact .pure
      | _ => exact .pure
  | object a =>
    unfold Classpath.isAssignable
    split
    · exact .pure
    · cases target with
      | object b => exact .isSubclass hm hbounded
      | _ => exact .pure
  | _ =>
    unfold Classpath.isAssignable
    split
    · exact .pure
    · exact .pure

end Determined

/-- All calls but definitions depend on what names mean only. -/
theorem Call.determined (hm : m.Keyed) (hbounded : m.Bounded) {c : Call} (hc : c.isDefine = false) :
    Determined m c.run := by
  cases c with
  | define c => cases hc
  | resolve? name => exact Determined.resolve?.bind fun _ => .pure
  | resolve name => exact Determined.resolve.bind fun _ => .pure
  | findField? className name =>
    exact ((Determined.hierarchy hm hbounded).bind fun _ => .pure).bind fun _ => .pure
  | findMethods className name =>
    exact ((Determined.hierarchy hm hbounded).bind fun _ => .pure).bind fun _ => .pure
  | isSubclass sub super => exact (Determined.isSubclass hm hbounded).bind fun _ => .pure
  | isAssignable source target => exact (Determined.isAssignable hm hbounded).bind fun _ => .pure

/-! ## 3. Runs -/

variable {r : Resolver} {c : Call} {roots : List Root} {calls : List Call}

theorem Resolver.after_concat (r : Resolver) (calls : List Call) (c : Call) :
    r.after (calls ++ [c]) = (c.run.run.run (r.after calls)).2 := by
  unfold Resolver.after
  rw [List.foldl_append]
  rfl

/-- A call that defines nothing leaves all names their meaning. -/
theorem learns_of_call (hr : r.Reached) (hc : c.isDefine = false) : r.Learns (c.run.run.run r).2 :=
  (c.determined hr.keyed r.bounded hc).learns

/-- A definition fails and changes nothing, or the class is remembered. -/
theorem run_define_ok {c : ClassFile} {s : Summary} (h : Summary.ofClass c = .ok s) (r : Resolver) :
    (define c).run.run r = (.ok s, r.remember s.name (some s)) := by
  unfold define
  rw [h]
  rfl

theorem run_define_error {c : ClassFile} {e : ClassFile.Error} (h : Summary.ofClass c = .error e)
    (r : Resolver) :
    (define c).run.run r = (.error (.malformed (c.name.toOption.getD "?") (.file e)), r) := by
  unfold define
  rw [h]
  rfl

theorem run_call_define (c : ClassFile) (r : Resolver) : (Call.define c).run.run.run r =
    (((define c).run.run r).1.map Answer.summary, ((define c).run.run r).2) := by
  show (define c >>= fun s => pure (Answer.summary s)).run.run r = _
  rw [run_bind]
  generalize (define c).run.run r = out
  obtain ⟨result, r'⟩ := out
  cases result <;> rfl

theorem reached_call (hr : r.Reached) (c : Call) : (c.run.run.run r).2.Reached := by
  cases c with
  | define c =>
    rw [run_call_define]
    exact hr.define c
  | _ => exact (learns_of_call hr rfl).reached hr

theorem reached_after (hr : r.Reached) (calls : List Call) : (r.after calls).Reached := by
  induction calls generalizing r with
  | nil => exact hr
  | cons c calls ih => exact ih (reached_call hr c)

/-! ## 4. What names mean after calls -/

/-- A class that is defined is what its name means from then on; nothing else changes what names
mean. -/
theorem meaning_call (hr : r.Reached) (c : Call) (name : String) :
    (c.run.run.run r).2.meaning name = match c.defined? with
    | some s => if name = s.name then .ok (some s) else r.meaning name
    | none => r.meaning name := by
  cases c with
  | define c =>
    rw [run_call_define]
    cases hc : Summary.ofClass c with
    | error e =>
      have hnone : (Call.define c).defined? = none := congrArg Except.toOption hc
      rw [run_define_error hc, hnone]
    | ok s =>
      have hsome : (Call.define c).defined? = some s := congrArg Except.toOption hc
      rw [run_define_ok hc, hsome]
      exact meaning_remember_apply r s.name (some s) name
  | _ => exact congrFun (learns_of_call hr rfl).meaning name

theorem lastDefined?_concat (calls : List Call) (c : Call) (name : String) :
    lastDefined? (calls ++ [c]) name =
      match c.defined? with
      | some s => if name = s.name then some s else lastDefined? calls name
      | none => lastDefined? calls name := by
  unfold lastDefined?
  rw [List.filterMap_append, List.reverse_append]
  cases hc : c.defined? with
  | none =>
    rw [List.filterMap_cons_none hc]
    rfl
  | some s =>
    rw [List.filterMap_cons_some hc]
    -- the calls are gone through from the last one, so the new one comes first
    show (s :: (calls.filterMap Call.defined?).reverse).find? _ = if name = s.name then some s
      else _
    by_cases hname : name = s.name
    · rw [List.find?_cons_of_pos (by simpa using hname.symm), if_pos hname]
    · rw [List.find?_cons_of_neg (by simpa using Ne.symm hname), if_neg hname]

theorem dictionary_concat (roots : List Root) (calls : List Call) (c : Call) (name : String) :
    dictionary roots (calls ++ [c]) name =
      match c.defined? with
      | some s => if name = s.name then .ok (some s) else dictionary roots calls name
      | none => dictionary roots calls name := by
  unfold dictionary
  rw [lastDefined?_concat]
  cases c.defined? with
  | none => rfl
  | some s =>
    dsimp only
    by_cases hname : name = s.name
    · rw [if_pos hname, if_pos hname]
    · rw [if_neg hname, if_neg hname]

/-- After any calls names mean what was defined, and else what the roots have. -/
theorem meaning_after (roots : List Root) (calls : List Call) :
    (({ roots } : Resolver).after calls).meaning = dictionary roots calls := by
  induction calls using List.reverseRecOn with
  | nil => rfl
  | append_singleton calls c ih =>
    funext name
    rw [Resolver.after_concat, meaning_call (reached_after (.fresh roots) calls), dictionary_concat,
      ih]

/-- Only definitions say what names mean. -/
theorem dictionary_filter (roots : List Root) (calls : List Call) :
    dictionary roots (calls.filter Call.isDefine) = dictionary roots calls := by
  have hdefined : (calls.filter Call.isDefine).filterMap Call.defined? =
      calls.filterMap Call.defined? := by
    rw [List.filterMap_filter]
    refine List.filterMap_congr fun c _ => ?_
    cases c <;> rfl
  unfold dictionary lastDefined?
  rw [hdefined]

/-- The answer to a call depends on what names mean only. -/
theorem answer_congr {r r' : Resolver} (hr : r.Reached) (h : r'.meaning = r.meaning) (c : Call) :
    r'.answer c = r.answer c := by
  unfold Resolver.answer
  cases hc : c.isDefine with
  | false =>
    obtain ⟨result, hyields⟩ := (c.determined hr.keyed r.bounded hc).result
    rw [hyields.result rfl, hyields.result h]
  -- a definition does not ask what names mean
  | true =>
    cases c with
    | define c =>
      rw [run_call_define, run_call_define]
      cases hc : Summary.ofClass c with
      | error e => rw [run_define_error hc, run_define_error hc]
      | ok s => rw [run_define_ok hc, run_define_ok hc]
    | _ => cases hc

/-- Whatever was looked up before, successful or not, a call is answered as by a resolver that has
the same roots and on which only the definitions were made.  A name means the class last defined
under it, else what the roots have. -/
theorem answer_after (roots : List Root) (calls : List Call) (next : Call) :
    (({ roots } : Resolver).after calls).answer next =
        (({ roots } : Resolver).after (calls.filter Call.isDefine)).answer next ∧
      ∀ name, (({ roots } : Resolver).after calls).answer (.resolve? name) =
        (dictionary roots calls name).map Answer.known := by
  constructor
  · refine answer_congr (reached_after (.fresh roots) _) ?_ next
    rw [meaning_after, meaning_after, dictionary_filter]
  · intro name
    have hyields : Yields (dictionary roots calls) (resolve? name) (dictionary roots calls name) :=
      yields_resolve?
    have hrun := (hyields.bind (g := fun found => .ok (Answer.known found)) fun _ _ => .pure).result
      (meaning_after roots calls)
    refine hrun.trans ?_
    cases dictionary roots calls name <;> rfl

end MethodGraft.Classpath
