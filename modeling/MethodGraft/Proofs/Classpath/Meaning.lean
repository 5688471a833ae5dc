import MethodGraft.Classpath.Hierarchy
import MethodGraft.Proofs.Runs

/-!
# Proofs.Classpath.Meaning — what names mean does not change by looking them up

A resolver gives every name a meaning: what it remembers, else what its roots serve.  A look-up
answers with that meaning and remembers it, so all names mean afterwards what they meant before.
-/

namespace MethodGraft.Classpath

open ClassFile

/-! ## 1. Meanings -/

/-- What each name means: a class, no class, or a fault of what is served under it. -/
abbrev Dictionary := String → Except Error (Option Summary)

def served (name : String) : List Root → Except Error (Option Summary)
  | [] => .ok none
  | root :: roots => do
    match ← root.classBytes name with
    | some bytes => return some (← summarize name bytes)
    | none => served name roots

def Resolver.meaning (r : Resolver) : Dictionary := fun name =>
  match r.cache.lookup name with
  | some known => .ok known
  | none =>
    if name.toList.head? = some '[' then .ok (some (Summary.ofArray name)) else served name r.roots

theorem Resolver.meaning_known {r : Resolver} {name : String} {known : Option Summary}
    (h : r.cache.lookup name = some known) : r.meaning name = .ok known := by
  unfold Resolver.meaning
  rw [h]

theorem Resolver.meaning_unknown {r : Resolver} {name : String} (h : r.cache.lookup name = none) :
    r.meaning name =
      if name.toList.head? = some '[' then .ok (some (Summary.ofArray name))
        else served name r.roots := by
  unfold Resolver.meaning
  rw [h]

def Dictionary.required (m : Dictionary) (name : String) : Except Error Summary :=
  match m name with
  | .ok (some s) => .ok s
  | .ok none => .error (.notFound name)
  | .error e => .error e

theorem Dictionary.required_eq_ok_iff {m : Dictionary} {name : String} {s : Summary} :
    m.required name = .ok s ↔ m name = .ok (some s) := by
  unfold Dictionary.required
  split <;> simp_all

/-- What is remembered of other names stays. -/
theorem lookup_remember (r : Resolver) (name : String) (found : Option Summary) (other : String) :
    (r.remember name found).cache.lookup other =
      if other = name then some found else r.cache.lookup other := by
  -- entries of other names come through the filter in their order
  have hfilter (cache : List (String × Option Summary)) (hne : other ≠ name) :
      (cache.filter fun entry => entry.1 != name).lookup other = cache.lookup other := by
    induction cache with
    | nil => rfl
    | cons entry cache ih =>
      by_cases hkey : entry.1 = name
      · have hother : (other == entry.1) = false := by
          rw [hkey]
          simpa using hne
        rw [List.filter_cons_of_neg (by simpa using hkey), ih, List.lookup_cons, hother]
      · rw [List.filter_cons_of_pos (by simpa using hkey), List.lookup_cons, List.lookup_cons, ih]
  unfold Resolver.remember
  rw [List.lookup_cons]
  by_cases hother : other = name
  · rw [if_pos hother, hother, beq_self_eq_true]
  · rw [if_neg hother, beq_false_of_ne hother]
    exact hfilter _ hother

/-- Asking roots counts, and changes nothing else. -/
theorem run_load (name : String) (roots : List Root) (r : Resolver) :
    ∃ n, (load name roots).run.run r = (served name roots, { r with lookups := n }) := by
  induction roots generalizing r with
  | nil => exact ⟨r.lookups, rfl⟩
  | cons root roots ih =>
    unfold load served
    cases root.classBytes name with
    | error e => exact ⟨r.lookups + 1, rfl⟩
    | ok found =>
      cases found with
      -- a root that has nothing only counts; the next one is asked
      | none => exact ih { r with lookups := r.lookups + 1 }
      | some bytes =>
        refine ⟨r.lookups + 1, ?_⟩
        show (ofExcept (summarize name bytes) >>= _).run.run { r with lookups := r.lookups + 1 } =
          (summarize name bytes >>= _, _)
        cases summarize name bytes <;> rfl

/-- One name means something else once it is remembered. -/
theorem meaning_remember_apply (r : Resolver) (name : String) (found : Option Summary)
    (other : String) :
    (r.remember name found).meaning other = if other = name then .ok found
    else r.meaning other := by
  unfold Resolver.meaning
  rw [lookup_remember]
  by_cases hother : other = name
  · rw [if_pos hother, if_pos hother]
  · rw [if_neg hother, if_neg hother]
    rfl

/-- Remembering what a name means anyway changes no meaning. -/
theorem meaning_remember {r : Resolver} {name : String} {found : Option Summary}
    (h : r.meaning name = .ok found) : (r.remember name found).meaning = r.meaning := by
  funext other
  rw [meaning_remember_apply]
  split
  next hother => rw [hother, h]
  next => rfl

def Resolver.Remembers (r : Resolver) (name : String) : Prop := (r.cache.lookup name).isSome = true

theorem Resolver.Remembers.remember {r : Resolver} {other : String} (h : r.Remembers other)
    (name : String) (found : Option Summary) : (r.remember name found).Remembers other := by
  unfold Remembers
  rw [lookup_remember]
  split
  next => rfl
  next => exact h

theorem Resolver.remembers_remember (r : Resolver) (name : String) (found : Option Summary) :
    (r.remember name found).Remembers name := by
  unfold Remembers
  rw [lookup_remember, if_pos rfl]
  rfl

/-- What a look-up leaves: all names mean what they meant, nothing is forgotten, and an answer is
remembered. -/
structure Resolver.LookedUp (r : Resolver) (name : String) (r' : Resolver) : Prop where
  meaning : r'.meaning = r.meaning
  kept : ∀ other, r.Remembers other → r'.Remembers other
  answered : ∀ found, r.meaning name = .ok found → r'.Remembers name

/-- A look-up answers with the meaning of the name. -/
theorem run_resolve? (name : String) (r : Resolver) :
    ∃ r', (resolve? name).run.run r = (r.meaning name, r') ∧ r.LookedUp name r' := by
  have hremember (r : Resolver) {found : Option Summary} (h : r.meaning name = .ok found) :
      r.LookedUp name (r.remember name found) :=
    ⟨meaning_remember h, fun _ hother => hother.remember name found,
      fun _ _ => r.remembers_remember name found⟩
  unfold resolve?
  rw [run_get_bind]
  cases hknown : r.cache.lookup name with
  | some known =>
    rw [Resolver.meaning_known hknown]
    exact ⟨r, rfl, rfl, fun _ => id, fun _ _ => Option.isSome_iff_exists.mpr ⟨known, hknown⟩⟩
  | none =>
    have hm := Resolver.meaning_unknown hknown
    dsimp only
    by_cases harray : name.toList.head? = some '['
    · rw [if_pos harray] at hm ⊢
      rw [hm]
      -- what is remembered is what the name means anyway, so that no meaning changes
      exact ⟨r.remember name (some (Summary.ofArray name)), rfl, hremember r hm⟩
    · rw [if_neg harray] at hm ⊢
      obtain ⟨n, hload⟩ := run_load name r.roots r
      rw [run_bind, hload, hm]
      cases hserved : served name r.roots with
      -- a failure is not remembered
      | error e =>
        refine ⟨{ r with lookups := n }, rfl, rfl, fun _ => id, fun found hfound => ?_⟩
        cases (hm.trans hserved).symm.trans hfound
      | ok found =>
        have hlooked := hremember { r with lookups := n } (hm.trans hserved)
        exact ⟨Resolver.remember { r with lookups := n } name found, rfl, hlooked.meaning,
          hlooked.kept, fun _ _ => hlooked.answered found (hm.trans hserved)⟩

/-! ## 2. Resolvers in use -/

/-- A resolver as a program can have it: it starts with some roots, more are added, classes are
defined and names looked up.  All other operations are sequences of look-ups. -/
inductive Resolver.Reached : Resolver → Prop
  | fresh (roots : List Root) : Reached { roots }
  | pushRoot {r : Resolver} (h : Reached r) (root : Root) :
      Reached ((Classpath.pushRoot root).run.run r).2
  | define {r : Resolver} (h : Reached r) (c : ClassFile) :
      Reached ((Classpath.define c).run.run r).2
  | lookUp {r : Resolver} (h : Reached r) (name : String) : Reached ((resolve? name).run.run r).2

/-- Every class goes by its own name. -/
def Dictionary.Keyed (m : Dictionary) : Prop := ∀ name s, m name = .ok (some s) → s.name = name

/-- The bytes that a class is made from were served by some root. -/
theorem root_of_served {name : String} {s : Summary} {roots : List Root}
    (h : served name roots = .ok (some s)) :
    ∃ root ∈ roots, ∃ bytes, root.classBytes name = .ok (some bytes) ∧
    summarize name bytes = .ok s := by
  induction roots with
  | nil => cases h
  | cons root roots ih =>
    unfold served at h
    obtain ⟨found, hfound, h⟩ := bind_eq_ok_iff.mp h
    cases found with
    | none =>
      obtain ⟨root', hmem, hserves⟩ := ih h
      exact ⟨root', List.mem_cons_of_mem root hmem, hserves⟩
    | some bytes =>
      obtain ⟨s', hs', h⟩ := bind_eq_ok_iff.mp h
      cases h
      exact ⟨root, List.mem_cons_self, bytes, hfound, hs'⟩

/-- A class is served under its own name. -/
theorem class_of_summarize {name : String} {bytes : List UInt8} {s : Summary}
    (h : summarize name bytes = .ok s) :
    s.name = name ∧ ∃ c, decode bytes = .ok c ∧ Summary.ofClass c = .ok s := by
  unfold summarize at h
  obtain ⟨c, hc, h⟩ := bind_eq_ok_iff.mp h
  obtain ⟨t, ht, h⟩ := bind_eq_ok_iff.mp h
  split at h
  next hname =>
    cases h
    exact ⟨hname, c, mapError_eq_ok_iff.mp hc, mapError_eq_ok_iff.mp ht⟩
  next => cases h

/-- Only what is remembered could go by another name. -/
theorem keyed_iff {r : Resolver} :
    r.meaning.Keyed ↔ ∀ name s, r.cache.lookup name = some (some s) → s.name = name := by
  constructor
  · intro hkeyed name s hknown
    exact hkeyed name s (Resolver.meaning_known hknown)
  · intro hcache name s hname
    cases hknown : r.cache.lookup name with
    | some known =>
      rw [Resolver.meaning_known hknown] at hname
      cases hname
      exact hcache name s hknown
    | none =>
      rw [Resolver.meaning_unknown hknown] at hname
      split at hname
      next =>
        cases hname
        rfl
      next =>
        obtain ⟨root, -, bytes, -, hs⟩ := root_of_served hname
        -- what a root serves under another name is refused
        exact (class_of_summarize hs).1

/-- In a resolver that a program can have, every class goes by its own name. -/
theorem Resolver.Reached.keyed {r : Resolver} (h : r.Reached) : r.meaning.Keyed := by
  induction h with
  | fresh roots => exact keyed_iff.mpr fun name s hknown => by cases hknown
  | pushRoot _ root ih => exact keyed_iff.mpr fun name s hknown => keyed_iff.mp ih name s hknown
  -- a class is defined under its own name; the others were there before
  | @define r _ c ih =>
    unfold Classpath.define
    cases hc : Summary.ofClass c with
    | error e => exact ih
    | ok s =>
      apply keyed_iff.mpr
      intro name t hknown
      have hlookup : (r.remember s.name (some s)).cache.lookup name = some (some t) := hknown
      rw [lookup_remember] at hlookup
      split at hlookup
      next hname =>
        cases hlookup
        exact hname.symm
      next => exact keyed_iff.mp ih name t hlookup
  | @lookUp r _ name ih =>
    obtain ⟨r', hrun, hlooked⟩ := run_resolve? name r
    rw [hrun, hlooked.meaning]
    exact ih

/-! ## 3. Look-ups whose result depends on meanings only -/

/-- From `r` to `r'` something may have been remembered, and names mean what they meant. -/
structure Resolver.Learns (r r' : Resolver) : Prop where
  meaning : r'.meaning = r.meaning
  reached : r.Reached → r'.Reached
  kept : ∀ name, r.Remembers name → r'.Remembers name

theorem Resolver.Learns.refl (r : Resolver) : r.Learns r := ⟨rfl, id, fun _ => id⟩

theorem Resolver.Learns.trans {r r' r'' : Resolver} (h : r.Learns r') (h' : r'.Learns r'') :
    r.Learns r'' :=
  ⟨h'.meaning.trans h.meaning, fun hr => h'.reached (h.reached hr),
    fun name hname => h'.kept name (h.kept name hname)⟩

variable {α β ε : Type} {m : Dictionary} {x : ExceptT ε (StateM Resolver) α} {name : String}

/-- Wherever names mean `m`, the look-up has this result, and names mean the same afterwards. -/
def Yields (m : Dictionary) (x : ExceptT ε (StateM Resolver) α) (result : Except ε α) : Prop :=
  ∀ r, r.meaning = m → ∃ r', x.run.run r = (result, r') ∧ r.Learns r'

theorem Yields.result {result : Except ε α} (h : Yields m x result) {r : Resolver}
    (hr : r.meaning = m) : (x.run.run r).1 = result := by
  obtain ⟨r', hrun, -⟩ := h r hr
  rw [hrun]

theorem Yields.pure {a : α} : Yields m (pure a : ExceptT ε (StateM Resolver) α) (.ok a) :=
  fun r _ => ⟨r, rfl, .refl r⟩

theorem Yields.throw {e : ε} : Yields m (throw e : ExceptT ε (StateM Resolver) α) (.error e) :=
  fun r _ => ⟨r, rfl, .refl r⟩

theorem Yields.bind {result : Except ε α} {f : α → ExceptT ε (StateM Resolver) β}
    {g : α → Except ε β} (hx : Yields m x result)
    (hf : ∀ a, result = .ok a → Yields m (f a) (g a)) : Yields m (x >>= f) (result >>= g) := by
  intro r hr
  obtain ⟨t, hrun, ht⟩ := hx r hr
  rw [run_bind, hrun]
  cases result with
  | error e => exact ⟨t, rfl, ht⟩
  | ok a =>
    obtain ⟨r', hrun', hr'⟩ := hf a rfl t (ht.meaning.trans hr)
    exact ⟨r', hrun', ht.trans hr'⟩

theorem Yields.bind_ok {a : α} {f : α → ExceptT ε (StateM Resolver) β} {result : Except ε β}
    (hx : Yields m x (.ok a)) (hf : Yields m (f a) result) : Yields m (x >>= f) result :=
  hx.bind (g := fun _ => result) fun _ ha => Except.ok.inj ha ▸ hf

theorem Yields.bind_error {e : ε} {f : α → ExceptT ε (StateM Resolver) β}
    (hx : Yields m x (.error e)) : Yields m (x >>= f) (.error e) :=
  hx.bind (g := fun _ => .error e) nofun

theorem yields_resolve? : Yields m (resolve? name) (m name) := by
  rintro r rfl
  obtain ⟨r', hrun, hlooked⟩ := run_resolve? name r
  refine ⟨r', hrun, hlooked.meaning, fun hr => ?_, hlooked.kept⟩
  have hnext := hr.lookUp name
  rwa [hrun] at hnext

/-- An answer is remembered. -/
theorem remembers_of_resolve? {r r' : Resolver} {found : Option Summary}
    (h : (resolve? name).run.run r = (.ok found, r')) : r'.Remembers name := by
  obtain ⟨t, hrun, hlooked⟩ := run_resolve? name r
  obtain ⟨hfound, rfl⟩ := Prod.mk.inj (hrun.symm.trans h)
  exact hlooked.answered found hfound

theorem remembers_of_resolve {r r' : Resolver} {s : Summary}
    (h : (resolve name).run.run r = (.ok s, r')) : r'.Remembers name := by
  obtain ⟨found, t, hlook, h⟩ := run_bind_eq_ok.mp h
  cases found with
  | none => cases h
  | some s' =>
    cases h
    exact remembers_of_resolve? hlook

theorem yields_resolve : Yields m (resolve name) (m.required name) := by
  intro r hr
  obtain ⟨r', hrun, hr'⟩ := yields_resolve? r hr
  refine ⟨r', ?_, hr'⟩
  unfold resolve Dictionary.required
  rw [run_bind, hrun]
  cases m name with
  | error e => rfl
  | ok found => cases found <;> rfl

/-! ## 4. Steps that look names up -/

/-- Where names mean `m`, every result of the step has the property `Q`, and names mean the same
afterwards. -/
def Under (m : Dictionary) (x : ExceptT ε (StateM Resolver) α) (Q : α → Prop) : Prop :=
  ∀ r a r', r.meaning = m → x.run.run r = (.ok a, r') → r.Learns r' ∧ Q a

namespace Under

variable {P Q : α → Prop}

theorem ofPure {a : α} (h : Q a) : Under m (pure a : ExceptT ε (StateM Resolver) α) Q := by
  intro r b r' _ hrun
  cases hrun
  exact ⟨.refl r, h⟩

theorem ofThrow {e : ε} : Under m (throw e : ExceptT ε (StateM Resolver) α) Q := by
  intro r b r' _ hrun
  cases hrun

/-- An outcome that looks nothing up. -/
theorem ofMk {result : Except ε α} (h : ∀ a, result = .ok a → Q a) :
    Under m (ExceptT.mk (pure result) : ExceptT ε (StateM Resolver) α) Q := by
  intro r b r' _ hrun
  cases hrun
  exact ⟨.refl r, h b rfl⟩

theorem mono (h : Under m x P) (hPQ : ∀ a, P a → Q a) : Under m x Q := by
  intro r a r' hr hrun
  obtain ⟨hlearns, ha⟩ := h r a r' hr hrun
  exact ⟨hlearns, hPQ a ha⟩

theorem bind {f : α → ExceptT ε (StateM Resolver) β} {R : β → Prop} (h : Under m x P)
    (hf : ∀ a, P a → Under m (f a) R) : Under m (x >>= f) R := by
  intro r b r' hr hrun
  obtain ⟨a, t, hx, hfa⟩ := run_bind_eq_ok.mp hrun
  obtain ⟨ht, ha⟩ := h r a t hr hx
  obtain ⟨hr', hb⟩ := hf a ha t b r' (ht.meaning.trans hr) hfa
  exact ⟨ht.trans hr', hb⟩

/-- A fault that is reported if `c` holds. -/
theorem refusing {c : Prop} [Decidable c] {e : ε} {f : α → ExceptT ε (StateM Resolver) β}
    {y : ExceptT ε (StateM Resolver) β} {R : β → Prop} (h : ¬c → Under m y R) :
    Under m (if c then throw e >>= f else y) R := by
  split
  next =>
    have hfail : Under m (throw e : ExceptT ε (StateM Resolver) α) fun _ => False := ofThrow
    exact hfail.bind fun _ => False.elim
  next hc => exact h hc

theorem and (h : Under m x P) (h' : Under m x Q) : Under m x fun a => P a ∧ Q a := by
  intro r a r' hr hrun
  obtain ⟨hlearns, ha⟩ := h r a r' hr hrun
  exact ⟨hlearns, ha, (h' r a r' hr hrun).2⟩

/-- Tests in sequence. -/
theorem allM {test : α → ExceptT ε (StateM Resolver) Bool} {as : List α}
    (h : ∀ a, Under m (test a) fun _ => True) : Under m (as.allM test) fun _ => True := by
  induction as with
  | nil => exact .ofPure trivial
  | cons a as ih =>
    refine (h a).bind fun b _ => ?_
    cases b with
    | false => exact .ofPure trivial
    | true => exact ih

end Under

theorem Yields.under {result : Except ε α} (h : Yields m x result) :
    Under m x fun a => result = .ok a ∧ Yields m x (.ok a) := by
  intro r a r' hr hrun
  obtain ⟨t, hrun', ht⟩ := h r hr
  rw [hrun] at hrun'
  cases hrun'
  exact ⟨ht, rfl, h⟩

end MethodGraft.Classpath
