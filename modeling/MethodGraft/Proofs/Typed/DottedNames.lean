import MethodGraft.Proofs.Typed.Choice
import MethodGraft.Proofs.Typed.Determinacy

/-!
# Proofs.Typed.DottedNames — a dotted name as a type and before a member

A dotted name is read in two ways.  Where it stands for a type, the longest package is tried first,
and a class is taken as it is found.  Before a member, the name is read from the left: the first
class on the way ends the package, and what follows must be its member classes.  The two meet
wherever a class is found for the type with the classes around it, in a package that has a name, and
no part of that package is a class.
-/

namespace MethodGraft.Classpath

def Dictionary.has (m : Dictionary) (name : String) : Bool :=
  match m name with
  | .ok (some _) => true
  | _ => false

def Dictionary.Tells (m : Dictionary) (name : String) : Prop := ∃ found, m name = .ok found

/-- No look-up fails. -/
def Dictionary.Total (m : Dictionary) : Prop := ∀ name, m.Tells name

end MethodGraft.Classpath

namespace MethodGraft.Typed

open ClassFile Classpath

variable {m : Dictionary} {s : Scope} {names : List String} {k : Nat}

/-! ## 1. Spelling -/

/-- The internal name of the class that a dotted name is if its first `k` names are those of the
package. -/
def spelled (names : List String) (k : Nat) : String :=
  "/".intercalate (names.take k ++ ["$".intercalate (names.drop k)])

/-- No dot or slash is within a name. -/
def Undotted (names : List String) : Prop := ∀ n ∈ names, '.' ∉ n.toList ∧ '/' ∉ n.toList

theorem spelled_last (names : List String) (n : String) :
    spelled (names ++ [n]) names.length = "/".intercalate (names ++ [n]) := by
  rw [spelled, List.take_left, List.drop_left, String.intercalate_singleton]

theorem spelled_take (h : k < names.length) :
    spelled (names.take (k + 1)) k = "/".intercalate (names.take (k + 1)) := by
  have hlength : (names.take k).length = k := List.length_take_of_le (Nat.le_of_lt h)
  rw [List.take_succ_eq_append_getElem h]
  have hlast := spelled_last (names.take k) names[k]
  rwa [hlength] at hlast

/-- The package grows by one name. -/
theorem intercalate_snoc (hne : names ≠ []) (n : String) :
    "/".intercalate names ++ "/" ++ n = "/".intercalate (names ++ [n]) := by
  rw [String.intercalate_append_of_ne_nil hne (List.cons_ne_nil _ _), String.intercalate_singleton]

/-- What is added to the last name is added to the whole. -/
theorem intercalate_last (sep : String) (names : List String) (n rest : String) :
    sep.intercalate (names ++ [n ++ rest]) = sep.intercalate (names ++ [n]) ++ rest := by
  by_cases hne : names = []
  · rw [hne, List.nil_append, List.nil_append, String.intercalate_singleton,
      String.intercalate_singleton]
  · rw [String.intercalate_append_of_ne_nil hne (List.cons_ne_nil _ _),
      String.intercalate_singleton, String.intercalate_append_of_ne_nil hne (List.cons_ne_nil _ _),
      String.intercalate_singleton, String.append_assoc, String.append_assoc, String.append_assoc]

/-- A member class is spelled with one name more. -/
theorem memberClass_spelled (h : k < names.length) (n : String) :
    memberClass (spelled names k) n = spelled (names ++ [n]) k := by
  have hdrop : names.drop k ≠ [] := by simpa [List.drop_eq_nil_iff] using h
  unfold memberClass spelled
  rw [List.take_append_of_le_length (Nat.le_of_lt h),
    List.drop_append_of_le_length (Nat.le_of_lt h),
    String.intercalate_append_of_ne_nil hdrop (List.cons_ne_nil _ _), String.intercalate_singleton,
    intercalate_last, intercalate_last]

theorem not_mem_intercalate {c : Char} {sep : String} (hsep : c ∉ sep.toList)
    (h : ∀ n ∈ names, c ∉ n.toList) : c ∉ (sep.intercalate names).toList := by
  induction names with
  | nil => simp
  | cons n names ih =>
    by_cases hne : names = []
    · simpa [hne] using h n List.mem_cons_self
    · rw [String.intercalate_cons_of_ne_nil hne, String.toList_append, String.toList_append]
      have hrest := ih fun n hn => h n (List.mem_cons_of_mem _ hn)
      exact fun hc => (List.mem_append.mp hc).elim
        (fun hc => (List.mem_append.mp hc).elim (h n List.mem_cons_self) hsep) hrest

theorem count_intercalate (h : ∀ n ∈ names, '/' ∉ n.toList) :
    ("/".intercalate names).toList.count '/' = names.length - 1 := by
  induction names with
  | nil => rfl
  | cons n names ih =>
    have hn : n.toList.count '/' = 0 := List.count_eq_zero.mpr (h n List.mem_cons_self)
    by_cases hne : names = []
    · simp [hne, hn]
    · have hrest := ih fun n hn => h n (List.mem_cons_of_mem _ hn)
      have hlength : 0 < names.length := List.length_pos_iff.mpr hne
      rw [String.intercalate_cons_of_ne_nil hne, String.toList_append, String.toList_append,
        List.count_append, List.count_append, hn, hrest]
      simp
      omega

/-- As many slashes are in the spelling as names are in the package. -/
theorem count_spelled (h : Undotted names) (hk : k ≤ names.length) :
    (spelled names k).toList.count '/' = k := by
  unfold spelled
  -- the names after the package are one part: dollar signs stand between them
  rw [count_intercalate]
  · simp [hk]
  · intro n hn
    rcases List.mem_append.mp hn with hn | hn
    · exact (h n (List.mem_of_mem_take hn)).2
    · rw [List.mem_singleton.mp hn]
      exact not_mem_intercalate (by decide) fun n hn => (h n (List.mem_of_mem_drop hn)).2

/-- A dotted name is spelled in one way for each package. -/
theorem spelled_inj (h : Undotted names) {j : Nat} (hj : j ≤ names.length) (hk : k ≤ names.length)
    (heq : spelled names j = spelled names k) : j = k := by
  rw [← count_spelled h hj, heq, count_spelled h hk]

theorem nestLast_append (before : List Char) {after : List Char} (h : '/' ∉ after) :
    nestLast (before ++ '/' :: after) = before ++ '$' :: after := by
  have hafter : ∀ c ∈ after.reverse, (c != '/') = true := by
    intro c hc
    simpa using fun heq : c = '/' => h (heq ▸ List.mem_reverse.mp hc)
  unfold nestLast
  rw [List.reverse_append, List.reverse_cons, List.append_assoc,
    List.takeWhile_append_of_pos hafter, List.dropWhile_append_of_pos hafter]
  simp

/-- The last name of the package becomes that of a class around. -/
theorem nestLast_spelled (h : Undotted names) (hk : k + 1 < names.length) :
    nestLast (spelled names (k + 1)).toList = (spelled names k).toList := by
  have hlt := Nat.lt_of_succ_lt hk
  have hdrop : names.drop (k + 1) ≠ [] := by simpa [List.drop_eq_nil_iff] using hk
  have hslash : '/' ∉ ("$".intercalate (names.drop (k + 1))).toList :=
    not_mem_intercalate (by decide) fun n hn => (h n (List.mem_of_mem_drop hn)).2
  have houter : spelled names (k + 1) =
      "/".intercalate (names.take k ++ [names[k]]) ++ "/" ++
        "$".intercalate (names.drop (k + 1)) := by
    rw [spelled, List.take_succ_eq_append_getElem hlt,
      intercalate_snoc (List.append_ne_nil_of_right_ne_nil _ (List.cons_ne_nil _ _))]
  have hinner : spelled names k =
      "/".intercalate (names.take k ++ [names[k]]) ++ "$" ++
        "$".intercalate (names.drop (k + 1)) := by
    rw [spelled, List.drop_eq_getElem_cons hlt, String.intercalate_cons_of_ne_nil hdrop,
      intercalate_last, intercalate_last]
  -- the two spellings differ in the last slash alone, and behind that there is none
  rw [houter, hinner, String.toList_append, String.toList_append, String.toList_append,
    String.toList_append, List.append_assoc, List.append_assoc]
  exact nestLast_append _ hslash

theorem slashed_append (a b : String) : slashed (a ++ b) = slashed a ++ slashed b := by
  unfold slashed
  rw [← String.toList_inj, String.toList_map, String.toList_append, String.toList_append,
    List.map_append, String.toList_map, String.toList_map]

theorem slashed_eq_self {n : String} (h : '.' ∉ n.toList) : slashed n = n := by
  unfold slashed
  rw [← String.toList_inj, String.toList_map]
  refine (List.map_congr_left fun c hc => ?_).trans (List.map_id _)
  exact if_neg fun heq : c = '.' => h (heq ▸ hc)

/-- A dotted name with slashes for its dots. -/
theorem slashed_intercalate (h : ∀ n ∈ names, '.' ∉ n.toList) :
    slashed (".".intercalate names) = "/".intercalate names := by
  induction names with
  | nil => decide +kernel
  | cons n names ih =>
    have hn := slashed_eq_self (h n List.mem_cons_self)
    by_cases hne : names = []
    · rw [hne, String.intercalate_singleton, String.intercalate_singleton, hn]
    · have hdot : slashed "." = "/" := by decide +kernel
      rw [String.intercalate_cons_of_ne_nil hne, String.intercalate_cons_of_ne_nil hne,
        slashed_append, slashed_append, hn, hdot, ih fun n hn => h n (List.mem_cons_of_mem _ hn)]

/-! ## 2. Answers -/

/-- Wherever names mean `m`, the look-up results in what has the property, and fails if nothing
has. -/
def Answers {α : Type} (m : Dictionary) (x : Binding α) (P : α → Prop) : Prop :=
  ∃ result, Yields m x result ∧ ∀ a, result = .ok a ↔ P a

namespace Answers

variable {α β : Type} {x : Binding α} {f : α → Binding β} {P Q : α → Prop} {R : β → Prop} {a : α}

theorem ofYields (h : Yields m x (.ok a)) : Answers m x (· = a) :=
  ⟨.ok a, h, fun _ => ⟨fun h => (Except.ok.inj h).symm, fun h => h ▸ rfl⟩⟩

theorem throw {e : Error} : Answers m (throw e : Binding α) fun _ => False :=
  ⟨.error e, .throw, fun _ => ⟨fun h => (by cases h), False.elim⟩⟩

theorem congr (h : Answers m x P) (hPQ : ∀ a, P a ↔ Q a) : Answers m x Q := by
  obtain ⟨result, hyields, hresult⟩ := h
  exact ⟨result, hyields, fun a => (hresult a).trans (hPQ a)⟩

theorem ofSome : Answers m (pure a : Binding α) fun b => some a = some b :=
  (ofYields .pure).congr fun _ => ⟨fun h => h ▸ rfl, fun h => (Option.some.inj h).symm⟩

theorem ofNone {e : Error} : Answers m (MonadExcept.throw e : Binding α) fun b => none = some b :=
  throw.congr fun _ => ⟨False.elim, fun h => (by cases h)⟩

/-- What follows on any result answers; without a result there is nothing to answer. -/
theorem bind (hx : Answers m x P) (hf : ∀ a, P a → Answers m (f a) R)
    (hsome : ∀ b, R b → ∃ a, P a) : Answers m (x >>= f) R := by
  obtain ⟨result, hyields, hresult⟩ := hx
  cases result with
  | error e =>
    refine ⟨.error e, hyields.bind_error, fun b => ⟨fun h => (by cases h), fun hb => ?_⟩⟩
    obtain ⟨a, ha⟩ := hsome b hb
    cases (hresult a).mpr ha
  | ok a =>
    obtain ⟨next, hnext, hR⟩ := hf a ((hresult a).mp rfl)
    exact ⟨next, hyields.bind_ok hnext, hR⟩

theorem bindYields (hx : Yields m x (.ok a)) (hf : Answers m (f a) R) : Answers m (x >>= f) R := by
  obtain ⟨next, hnext, hR⟩ := hf
  exact ⟨next, hx.bind_ok hnext, hR⟩

theorem unique (h : Answers m x P) {b : α} (ha : P a) (hb : P b) : a = b := by
  obtain ⟨result, -, hresult⟩ := h
  exact Except.ok.inj (((hresult a).mpr ha).symm.trans ((hresult b).mpr hb))

theorem iff_run (h : Answers m x P) {r : Resolver} (hr : r.meaning = m) :
    (x.run.run r).1 = .ok a ↔ P a := by
  obtain ⟨result, hyields, hresult⟩ := h
  rw [hyields.result hr]
  exact hresult a

end Answers

theorem yields_exists? {name : String} (htells : m.Tells name) :
    Yields m (exists? name) (.ok (m.has name)) := by
  obtain ⟨found, hfound⟩ := htells
  have hlook : Yields m (resolve? name) (.ok found) := hfound ▸ yields_resolve?
  have hhas : m.has name = found.isSome := by
    unfold Dictionary.has
    rw [hfound]
    cases found <;> rfl
  unfold exists?
  rw [hhas]
  exact (yields_look hlook).bind_ok .pure

/-! ## 3. The name of a type -/

/-- Of the spellings with at most `k` names in the package, a class has the one with `j`, and none
with more. -/
structure Longest (m : Dictionary) (names : List String) (k j : Nat) : Prop where
  le : j ≤ k
  has : m.has (spelled names j) = true
  longest : ∀ i ≤ k, j < i → m.has (spelled names i) = false

theorem Longest.succ {j : Nat} (h : Longest m names k j)
    (hfree : m.has (spelled names (k + 1)) = false) : Longest m names (k + 1) j := by
  refine ⟨Nat.le_succ_of_le h.le, h.has, fun i hi hlt => ?_⟩
  rcases Nat.le_succ_iff.mp hi with hi | rfl
  · exact h.longest i hi hlt
  · exact hfree

/-- If there is a class for some package, there is one for the longest. -/
theorem exists_longest {i : Nat} (hi : i ≤ k) (hhas : m.has (spelled names i) = true) :
    ∃ j, Longest m names k j := by
  induction k with
  | zero =>
    -- with no name in the package there is one spelling only
    obtain rfl := Nat.le_zero.mp hi
    exact ⟨0, Nat.le_refl 0, hhas, fun i hi hpos => by omega⟩
  | succ k ih =>
    -- the longest package so far, unless one name more has a class too
    cases hlast : m.has (spelled names (k + 1)) with
    | true => exact ⟨k + 1, Nat.le_refl _, hlast, fun i hi hlt => by omega⟩
    | false =>
      rcases Nat.le_succ_iff.mp hi with hi | rfl
      · obtain ⟨j, hj⟩ := ih hi
        exact ⟨j, hj.succ hlast⟩
      · rw [hlast] at hhas
        cases hhas

/-- The look-ups for a type with at most `k` names in the package do not fail.  A shorter package is
tried only if no class has a longer one. -/
def TellsSpellings (m : Dictionary) (names : List String) (k : Nat) : Prop :=
  ∀ j ≤ k, (∀ i ≤ k, j < i → m.has (spelled names i) = false) → m.Tells (spelled names j)

theorem TellsSpellings.last (h : TellsSpellings m names k) : m.Tells (spelled names k) :=
  h k (Nat.le_refl k) fun _ hi hlt => absurd hi (Nat.not_le.mpr hlt)

theorem TellsSpellings.pred (h : TellsSpellings m names (k + 1))
    (hfree : m.has (spelled names (k + 1)) = false) : TellsSpellings m names k := by
  intro j hj hlonger
  refine h j (Nat.le_succ_of_le hj) fun i hi hlt => ?_
  rcases Nat.le_succ_iff.mp hi with hi | rfl
  · exact hlonger i hi hlt
  · exact hfree

theorem yields_resolveNested? (htells : TellsSpellings m names k) (hnames : Undotted names)
    (hk : k < names.length) :
    ∃ found, Yields m (resolveNested? k (spelled names k).toList) (.ok found) ∧
      ∀ c, found = some c ↔ ∃ j, Longest m names k j ∧ c = spelled names j := by
  induction k with
  | zero =>
    refine ⟨if m.has (spelled names 0) then some (spelled names 0) else none, ?_, fun c => ?_⟩
    · unfold resolveNested?
      rw [String.ofList_toList]
      exact (yields_exists? htells.last).bind_ok .pure
    · constructor
      · intro h
        obtain ⟨hhas, hc⟩ := Option.ite_none_right_eq_some.mp h
        exact ⟨0, ⟨Nat.le_refl 0, hhas, fun i hi hpos => by omega⟩, (Option.some.inj hc).symm⟩
      · rintro ⟨j, hj, rfl⟩
        obtain rfl := Nat.le_zero.mp hj.le
        exact if_pos hj.has
  | succ k ih =>
    -- induction on the names in the package, which is also the recursion of the search
    unfold resolveNested?
    rw [String.ofList_toList, nestLast_spelled hnames hk]
    -- either this spelling is taken, or the last slash gives way and the answer is that for one
    -- name less
    cases hhas : m.has (spelled names (k + 1)) with
    | true =>
      refine ⟨some (spelled names (k + 1)), (yields_exists? htells.last).bind_ok ?_,
        fun c => ⟨fun h => ?_, ?_⟩⟩
      · rw [hhas]
        exact .pure
      · cases h
        exact ⟨k + 1, ⟨Nat.le_refl _, hhas, fun i hi hlt => by omega⟩, rfl⟩
      · rintro ⟨j, hj, rfl⟩
        rcases Nat.lt_or_ge j (k + 1) with hlt | hge
        · rw [hj.longest _ (Nat.le_refl _) hlt] at hhas
          cases hhas
        · rw [Nat.le_antisymm hj.le hge]
    | false =>
      obtain ⟨found, hfound, hlongest⟩ := ih (htells.pred hhas) (Nat.lt_of_succ_lt hk)
      refine ⟨found, (yields_exists? htells.last).bind_ok ?_, fun c => (hlongest c).trans ?_⟩
      · rw [hhas]
        exact hfound
      · refine exists_congr fun j => and_congr_left fun _ => ⟨fun h => h.succ hhas, fun h => ?_⟩
        · refine ⟨?_, h.has, fun i hi hlt => h.longest i (Nat.le_succ_of_le hi) hlt⟩
          rcases Nat.le_succ_iff.mp h.le with hle | rfl
          · exact hle
          · exact absurd h.has (by rw [hhas]; decide)

def member? (m : Dictionary) (owner n : String) : Option String :=
  if m.has (memberClass owner n) then some (memberClass owner n) else none

theorem members_snoc (owner n : String) (names : List String) :
    (names ++ [n]).foldlM (member? m) owner =
    (names.foldlM (member? m) owner).bind fun c => member? m c n := by
  rw [List.foldlM_append]
  refine congrArg _ (funext fun c => ?_)
  rw [List.foldlM_cons, funext fun _ => List.foldlM_nil, bind_pure]

theorem member?_eq_some_iff {owner n c : String} :
    member? m owner n = some c ↔ m.has (memberClass owner n) = true ∧ c = memberClass owner n := by
  unfold member?
  rw [Option.ite_none_right_eq_some, Option.some.injEq, eq_comm (b := c)]

def TellsMembers (m : Dictionary) (owner : String) (names : List String) : Prop :=
  ∀ before n after, names = before ++ n :: after →
    ∀ c, before.foldlM (member? m) owner = some c → m.Tells (memberClass c n)

theorem yields_resolveMembers? {owner : String} (htells : TellsMembers m owner names) :
    Yields m (resolveMembers? owner names) (.ok (names.foldlM (member? m) owner)) := by
  -- the class that is searched changes with every name
  induction names generalizing owner with
  | nil => exact .pure
  | cons n names ih =>
    unfold resolveMembers?
    refine (yields_exists? (htells [] n names rfl owner rfl)).bind_ok ?_
    rw [List.foldlM_cons, member?]
    split
    next hhas =>
      refine ih fun before n' after hnames c hc => ?_
      refine htells (n :: before) n' after (congrArg (n :: ·) hnames) c ?_
      rw [List.foldlM_cons, member?, if_pos hhas]
      exact hc
    next => exact .pure

section

variable {first : String} {more : List String} {known : Option String}

/-- After a class, a type name goes on with its member classes. -/
theorem answers_typeClass_member {c : String} (htells : TellsMembers m c more)
    (hfirst : Yields m (s.lookupClass? first) (.ok (some c))) (line : Nat) :
    Answers m (s.typeClass first more line) fun d => more.foldlM (member? m) c = some d := by
  unfold Scope.typeClass
  extract_lets name finish
  refine .bindYields hfirst (.bindYields (yields_resolveMembers? htells) ?_)
  cases more.foldlM (member? m) c with
  | none => exact .ofNone
  | some d => exact .ofSome

/-- Otherwise the longest package counts. -/
theorem answers_typeClass_package (htells : TellsSpellings m (first :: more) more.length)
    (hnames : Undotted (first :: more))
    (hfirst : Yields m (s.lookupClass? first) (.ok none)) (line : Nat) :
    Answers m (s.typeClass first more line) fun c =>
      more ≠ [] ∧ ∃ j, Longest m (first :: more) more.length j ∧ c = spelled (first :: more) j := by
  obtain ⟨found, hfound, hlongest⟩ :=
    yields_resolveNested? htells hnames (Nat.lt_succ_self more.length)
  have hdotted : Yields m (resolveDotted? (".".intercalate (first :: more))) (.ok found) := by
    have hall : spelled ((first :: more).take (more.length + 1)) more.length = _ :=
      spelled_take (Nat.lt_succ_self more.length)
    rw [show (first :: more).take (more.length + 1) = first :: more from
      List.take_of_length_le (Nat.le_refl _)] at hall
    have hcount := count_spelled hnames (Nat.le_succ more.length)
    unfold resolveDotted?
    dsimp only
    rw [slashed_intercalate fun n hn => (hnames n hn).1, ← hall, hcount]
    exact hfound
  unfold Scope.typeClass
  extract_lets name finish
  refine .bindYields hfirst ?_
  cases more with
  | nil => exact Answers.throw.congr fun c => ⟨False.elim, fun h => h.1 rfl⟩
  | cons n more =>
    refine (Answers.bindYields (R := fun c => found = some c) hdotted ?_).congr fun c => ?_
    · cases found with
      | none => exact .ofNone
      | some d => exact .ofSome
    · exact (hlongest c).trans ⟨fun h => ⟨List.cons_ne_nil _ _, h⟩, And.right⟩

/-- A type name stands for the class that it names. -/
theorem answers_resolveType {P : String → Prop} {line : Nat}
    (h : Answers m (s.typeClass first more line) P) :
    Answers m (s.resolveType ⟨.named first more, 0, line⟩) fun t => ∃ c, P c ∧ t = .object c := by
  unfold Scope.resolveType
  refine h.bind (fun c hc => (Answers.ofYields .pure).congr fun t => ?_) fun t ⟨c, hc, _⟩ => ⟨c, hc⟩
  constructor
  · rintro rfl
    exact ⟨c, hc, rfl⟩
  · rintro ⟨d, hd, rfl⟩
    rw [h.unique hd hc]
    rfl

end

/-! ## 4. The name before a member -/

/-- The names with a dot between each other, none of which is that of a local, or of a field of the
class that comes before it. -/
inductive Bare (r : Resolver) (s : Scope) : Source.Expr → List String → Prop
  | name {n : String} (hlocal : s.find? n = none)
      (hfield : ((findField? s.self.name n).run.run r).1 = .ok none)
      (line : Nat) : Bare r s (.name n line) [n]
  | field {target : Source.Expr} {names : List String} (h : Bare r s target names) {n : String}
      (hfield : ∀ c, ((meaning s target).run.run r).1 = .ok (.ofClass c) →
        ((findField? c n).run.run r).1 = .ok none) (line : Nat) :
        Bare r s (.field target n line) (names ++ [n])

def PackageOnly (m : Dictionary) (names : List String) : Prop :=
  ∀ i, 2 ≤ i → i ≤ names.length → m.has ("/".intercalate (names.take i)) = false

/-- The first `k` names are those of a package, no part of it is a class, and from there on there is
a class for each name. -/
structure Stepwise (m : Dictionary) (names : List String) (k : Nat) : Prop where
  pos : 1 ≤ k
  lt : k < names.length
  free : ∀ i, 2 ≤ i → i ≤ k → m.has ("/".intercalate (names.take i)) = false
  around : ∀ i, k < i → i ≤ names.length → m.has (spelled (names.take i) k) = true

/-- The class itself is there. -/
theorem Stepwise.has (h : Stepwise m names k) : m.has (spelled names k) = true := by
  have hlast := h.around names.length h.lt (Nat.le_refl _)
  rwa [List.take_length] at hlast

/-- So is the outermost class. -/
theorem Stepwise.has_outermost (h : Stepwise m names k) :
    m.has ("/".intercalate (names.take (k + 1))) = true := by
  rw [← spelled_take h.lt]
  exact h.around (k + 1) (Nat.lt_succ_self k) h.lt

theorem Stepwise.not_packageOnly (h : Stepwise m names k) : ¬PackageOnly m names := by
  intro hpackage
  have hfree := hpackage (k + 1) (Nat.succ_le_succ h.pos) h.lt
  rw [h.has_outermost] at hfree
  cases hfree

/-- The outermost class is the first on the way. -/
theorem Stepwise.unique {j : Nat} (hj : Stepwise m names j) (hk : Stepwise m names k) : j = k := by
  have hle {j k : Nat} (hj : Stepwise m names j) (hk : Stepwise m names k) : k ≤ j := by
    by_contra hlt
    -- the outermost class after the shorter package would be a part of the longer one
    have hfree := hk.free (j + 1) (Nat.succ_le_succ hj.pos) (Nat.lt_of_not_le hlt)
    rw [hj.has_outermost] at hfree
    cases hfree
  exact Nat.le_antisymm (hle hk hj) (hle hj hk)

theorem take_snoc {n : String} {i : Nat} (h : i ≤ names.length) :
    (names ++ [n]).take i = names.take i :=
  List.take_append_of_le_length h

theorem take_snoc_all (n : String) : (names ++ [n]).take (names.length + 1) = names ++ [n] :=
  List.take_of_length_le (by simp)

theorem packageOnly_snoc (hne : names ≠ []) (n : String) : PackageOnly m (names ++ [n]) ↔
    PackageOnly m names ∧ m.has ("/".intercalate (names ++ [n])) = false := by
  have hpos : 1 ≤ names.length := List.length_pos_iff.mpr hne
  have hlength : (names ++ [n]).length = names.length + 1 := List.length_append
  constructor
  · intro h
    refine ⟨fun i htwo hi => ?_, ?_⟩
    · have hfree := h i htwo (by omega)
      rwa [take_snoc hi] at hfree
    · have hfree := h (names.length + 1) (by omega) (by omega)
      rwa [take_snoc_all] at hfree
  · rintro ⟨h, hlast⟩ i htwo hi
    rcases Nat.le_succ_iff.mp (hlength ▸ hi) with hi | rfl
    · rw [take_snoc hi]
      exact h i htwo hi
    · rw [take_snoc_all]
      exact hlast

theorem stepwise_snoc (h : k < names.length) (n : String) :
    Stepwise m (names ++ [n]) k ↔ Stepwise m names k ∧ m.has (spelled (names ++ [n]) k) = true := by
  have hlength : (names ++ [n]).length = names.length + 1 := List.length_append
  have hfree {i : Nat} (hi : i ≤ k) : (names ++ [n]).take i = names.take i := take_snoc (by omega)
  constructor
  · intro hstep
    refine ⟨⟨hstep.pos, h, fun i htwo hi => hfree hi ▸ hstep.free i htwo hi, fun i hlt hi => ?_⟩,
      hstep.has⟩
    have haround := hstep.around i hlt (by omega)
    rwa [take_snoc hi] at haround
  · rintro ⟨hstep, hlast⟩
    refine ⟨hstep.pos, by omega, fun i htwo hi => (hfree hi).symm ▸ hstep.free i htwo hi,
      fun i hlt hi => ?_⟩
    rcases Nat.le_succ_iff.mp (hlength ▸ hi) with hi | rfl
    · rw [take_snoc hi]
      exact hstep.around i hlt hi
    · rw [take_snoc_all]
      exact hlast

theorem stepwise_length (hne : names ≠ []) (n : String) : Stepwise m (names ++ [n]) names.length ↔
    PackageOnly m names ∧ m.has ("/".intercalate (names ++ [n])) = true := by
  have hlength : (names ++ [n]).length = names.length + 1 := List.length_append
  constructor
  · intro hstep
    refine ⟨fun i htwo hi => ?_, ?_⟩
    · have hfree := hstep.free i htwo hi
      rwa [take_snoc hi] at hfree
    · rw [← spelled_last]
      exact hstep.has
  · rintro ⟨hpackage, hlast⟩
    refine ⟨List.length_pos_iff.mpr hne, by omega, fun i htwo hi => ?_, fun i hlt hi => ?_⟩
    · rw [take_snoc hi]
      exact hpackage i htwo hi
    · obtain rfl : i = names.length + 1 := by omega
      rw [take_snoc_all, spelled_last]
      exact hlast

/-- What the names mean when they are read from the left, if the first one is no class. -/
def ReadsAs (m : Dictionary) (names : List String) (k : Meaning) : Prop :=
  PackageOnly m names ∧ k = .ofPackage ("/".intercalate names) ∨
    ∃ j, Stepwise m names j ∧ k = .ofClass (spelled names j)

/-- A name more is a class after a package, or the package goes on, or it is a member class. -/
theorem readsAs_snoc (hne : names ≠ []) (n : String) (k : Meaning) : ReadsAs m (names ++ [n]) k ↔
    PackageOnly m names ∧ k = (if m.has ("/".intercalate (names ++ [n])) then
        Meaning.ofClass ("/".intercalate (names ++ [n]))
        else .ofPackage ("/".intercalate (names ++ [n]))) ∨
      ∃ j, Stepwise m names j ∧ m.has (spelled (names ++ [n]) j) = true ∧
        k = .ofClass (spelled (names ++ [n]) j) := by
  unfold ReadsAs
  rw [packageOnly_snoc hne]
  constructor
  · rintro (⟨⟨hpackage, hfree⟩, rfl⟩ | ⟨j, hj, rfl⟩)
    · rw [hfree]
      exact .inl ⟨hpackage, rfl⟩
    -- the class was found before the last name, or is found with it
    · rcases Nat.lt_or_ge j names.length with hlt | hge
      · obtain ⟨hstep, hhas⟩ := (stepwise_snoc hlt n).mp hj
        exact .inr ⟨j, hstep, hhas, rfl⟩
      · have hlast := hj.lt
        rw [List.length_append, List.length_singleton] at hlast
        obtain rfl : j = names.length := by omega
        obtain ⟨hpackage, hhas⟩ := (stepwise_length hne n).mp hj
        refine .inl ⟨hpackage, ?_⟩
        rw [if_pos hhas, spelled_last]
  -- the last name may be the first class on the way, which ends the package
  · rintro (⟨hpackage, rfl⟩ | ⟨j, hstep, hhas, rfl⟩)
    · split
      next hhas =>
        refine .inr ⟨names.length, (stepwise_length hne n).mpr ⟨hpackage, hhas⟩, ?_⟩
        rw [spelled_last]
      next hfree => exact .inl ⟨⟨hpackage, by simpa using hfree⟩, rfl⟩
    · exact .inr ⟨j, (stepwise_snoc hstep.lt n).mpr ⟨hstep, hhas⟩, rfl⟩

section

variable {r : Resolver} {e : Source.Expr}

theorem Bare.names_ne_nil (h : Bare r s e names) : names ≠ [] := by
  cases h with
  | name => exact List.cons_ne_nil _ _
  | field => exact List.append_ne_nil_of_right_ne_nil _ (List.cons_ne_nil _ _)

theorem yields_noField (hr : r.Reached) {owner n : String}
    (h : ((findField? owner n).run.run r).1 = .ok none) :
    Yields r.meaning (look (findField? owner n)) (.ok none) := by
  have hdetermined : Determined r.meaning (findField? owner n) :=
    (Determined.hierarchy hr.keyed r.bounded).bind fun _ => .pure
  obtain ⟨result, hresult⟩ := hdetermined.result
  rw [hresult.result rfl] at h
  exact yields_look (h ▸ hresult)

/-- A first name that is neither a local nor a field is a class, or else starts a package. -/
theorem yields_nameMeaning (hr : r.Reached) {n : String} {line : Nat} {known : Option String}
    (hlocal : s.find? n = none)
    (hfield : ((findField? s.self.name n).run.run r).1 = .ok none)
    (hfirst : Yields r.meaning (s.lookupClass? n) (.ok known)) :
    Yields r.meaning (s.nameMeaning n line) (.ok (known.elim (.ofPackage n) .ofClass)) := by
  unfold Scope.nameMeaning
  rw [hlocal]
  refine (yields_noField hr hfield).bind_ok (hfirst.bind_ok ?_)
  cases known with
  | none => exact .pure
  | some c => exact .pure

/-- After a class, a name that is no field is a member class. -/
theorem answers_staticMember (hr : r.Reached) {owner n : String}
    (htells : r.meaning.Tells (memberClass owner n))
    {line : Nat} (hfield : ((findField? owner n).run.run r).1 = .ok none) :
    Answers r.meaning (staticMember owner n line) fun k =>
      r.meaning.has (memberClass owner n) = true ∧ k = .ofClass (memberClass owner n) := by
  unfold staticMember
  refine .bindYields (yields_noField hr hfield) (.bindYields (yields_exists? htells) ?_)
  split
  next hhas => exact (Answers.ofYields .pure).congr fun k => ⟨fun h => ⟨hhas, h⟩, And.right⟩
  next hhas => exact Answers.throw.congr fun k => ⟨False.elim, fun h => hhas h.1⟩

/-- The look-up of one name more does not fail: of a class in the package that the names before it
are, or of a member class of the class that they are. -/
structure TellsNext (m : Dictionary) (names : List String) (n : String) : Prop where
  package : PackageOnly m names → m.Tells ("/".intercalate (names ++ [n]))
  member : ∀ k, Stepwise m names k → m.Tells (spelled (names ++ [n]) k)

/-- A name after what is a package, or a class that has no such field. -/
theorem answers_memberMeaning (hr : r.Reached) {target : Source.Expr} {n : String}
    (htells : TellsNext r.meaning names n) {line : Nat} {k : Meaning} (hne : names ≠ [])
    (hk : ReadsAs r.meaning names k)
    (hfield : ∀ c, k = .ofClass c → ((findField? c n).run.run r).1 = .ok none) :
    Answers r.meaning (memberMeaning k target n line) (ReadsAs r.meaning (names ++ [n])) := by
  have hsnoc := readsAs_snoc (m := r.meaning) hne n
  rcases hk with ⟨hpackage, rfl⟩ | ⟨j, hstep, rfl⟩
  · unfold memberMeaning
    dsimp only
    rw [intercalate_snoc hne]
    refine .bindYields (yields_exists? (htells.package hpackage))
      ((Answers.ofYields .pure).congr fun b => Iff.trans ?_ (hsnoc b).symm)
    constructor
    · exact fun h => .inl ⟨hpackage, h⟩
    · rintro (⟨-, h⟩ | ⟨j, hstep, -⟩)
      · exact h
      · exact absurd hpackage hstep.not_packageOnly
  · have hmember := memberClass_spelled hstep.lt n
    refine (answers_staticMember hr (hmember ▸ htells.member j hstep) (hfield _ rfl)).congr fun b =>
      Iff.trans ?_ (hsnoc b).symm
    rw [hmember]
    constructor
    · rintro ⟨hhas, rfl⟩
      exact .inr ⟨j, hstep, hhas, rfl⟩
    · rintro (⟨hpackage, -⟩ | ⟨i, hi, hhas, rfl⟩)
      · exact absurd hpackage hstep.not_packageOnly
      · obtain rfl := hi.unique hstep
        exact ⟨hhas, rfl⟩

def TellsParts (m : Dictionary) (names : List String) : Prop :=
  ∀ before n after, names = before ++ n :: after → before ≠ [] → TellsNext m before n

/-- If its first name is no class, a dotted name is read from the left. -/
theorem Bare.answers_package (h : Bare r s e names) (hr : r.Reached)
    (htells : TellsParts r.meaning names)
    (hfirst : ∀ first ∈ names.head?, Yields r.meaning (s.lookupClass? first) (.ok none)) :
    Answers r.meaning (meaning s e) (ReadsAs r.meaning names) := by
  -- on the names from the left, as the expression is nested
  induction h with
  | @name n hlocal hfield line =>
    unfold meaning
    refine (Answers.ofYields (yields_nameMeaning hr hlocal hfield (hfirst n rfl))).congr fun k => ?_
    constructor
    · rintro rfl
      refine .inl ⟨fun i htwo hi => ?_, by rw [String.intercalate_singleton]; rfl⟩
      rw [List.length_singleton] at hi
      omega
    -- a class in a package takes two names
    · rintro (⟨-, rfl⟩ | ⟨j, hj, -⟩)
      · rw [String.intercalate_singleton]
        rfl
      · have hpos := hj.pos
        have hlt := hj.lt
        rw [List.length_singleton] at hlt
        omega
  | @field target names h n hfield line ih =>
    have hne := h.names_ne_nil
    have hearlier : TellsParts r.meaning names := fun before n' after hnames =>
      htells before n' (after ++ [n]) (by rw [hnames, List.append_assoc, List.cons_append])
    have htarget :=
      ih hearlier fun first hmem => hfirst first (by rwa [List.head?_append_of_ne_nil _ hne])
    have hlast := htells names n [] rfl hne
    unfold meaning
    refine htarget.bind (fun k hk => answers_memberMeaning hr hlast hne hk fun c hc => ?_)
      fun b hb => ?_
    · exact hfield c ((htarget.iff_run rfl).mpr (hc ▸ hk))
    · rcases (readsAs_snoc hne n b).mp hb with ⟨hpackage, -⟩ | ⟨j, hstep, -⟩
      · exact ⟨_, .inl ⟨hpackage, rfl⟩⟩
      · exact ⟨_, .inr ⟨j, hstep, rfl⟩⟩

/-- If its first name is a class, the others are member classes. -/
theorem Bare.answers_class (h : Bare r s e names) (hr : r.Reached) {first c : String}
    {more : List String} (htells : TellsMembers r.meaning c more) (hnames : names = first :: more)
    (hfirst : Yields r.meaning (s.lookupClass? first) (.ok (some c))) :
    Answers r.meaning (meaning s e) fun k =>
      ∃ d, more.foldlM (member? r.meaning) c = some d ∧ k = .ofClass d := by
  induction h generalizing more with
  | @name n hlocal hfield line =>
    cases hnames
    unfold meaning
    refine (Answers.ofYields (yields_nameMeaning hr hlocal hfield hfirst)).congr fun k => ?_
    exact ⟨fun h => ⟨c, rfl, h⟩, fun ⟨d, hd, hk⟩ => by cases hd; exact hk⟩
  | @field target names h n hfield line ih =>
    -- the first name stays the same while the expression grows at its other end
    obtain ⟨first', more', rfl⟩ := List.exists_cons_of_ne_nil h.names_ne_nil
    rw [List.cons_append] at hnames
    obtain ⟨rfl, rfl⟩ := List.cons.inj hnames
    have hearlier : TellsMembers r.meaning c more' := fun before n' after hmore =>
      htells before n' (after ++ [n]) (by rw [hmore, List.append_assoc, List.cons_append])
    have htarget := ih hearlier rfl
    unfold meaning
    refine htarget.bind (fun k hk => ?_) fun b hb => ?_
    · obtain ⟨d, hd, rfl⟩ := hk
      have hlast := htells more' n [] rfl d hd
      refine (answers_staticMember hr hlast
        (hfield d ((htarget.iff_run rfl).mpr ⟨d, hd, rfl⟩))).congr fun b => ?_
      rw [members_snoc, hd, Option.bind_some]
      exact ⟨fun ⟨hhas, hb⟩ => ⟨_, member?_eq_some_iff.mpr ⟨hhas, rfl⟩, hb⟩, fun ⟨d', hd', hb⟩ => by
        obtain ⟨hhas, rfl⟩ := member?_eq_some_iff.mp hd'
        exact ⟨hhas, hb⟩⟩
    · obtain ⟨d, hd, rfl⟩ := hb
      rw [members_snoc] at hd
      obtain ⟨d', hd', -⟩ := Option.bind_eq_some_iff.mp hd
      exact ⟨_, d', hd', rfl⟩

/-- If its first name cannot be looked up, a dotted name has no meaning. -/
theorem Bare.yields_error (h : Bare r s e names) (hr : r.Reached) {first : String}
    {more : List String} (hnames : names = first :: more) {err : Error}
    (hfirst : Yields r.meaning (s.lookupClass? first) (.error err)) :
    Yields r.meaning (meaning s e) (.error err) := by
  induction h generalizing more with
  | name hlocal hfield line =>
    cases hnames
    unfold meaning Scope.nameMeaning
    rw [hlocal]
    exact (yields_noField hr hfield).bind_ok hfirst.bind_error
  | field h hfield line ih =>
    obtain ⟨first', more', rfl⟩ := List.exists_cons_of_ne_nil h.names_ne_nil
    rw [List.cons_append] at hnames
    obtain ⟨rfl, -⟩ := List.cons.inj hnames
    unfold meaning
    exact (ih rfl).bind_error

end

/-! ## 5. The two readings -/

/-- The type name stands for the class. -/
def NamesType (r : Resolver) (s : Scope) (t : Source.TypeName) (c : String) : Prop :=
  ((s.resolveType t).run.run r).1 = .ok (.object c)

/-- Written before a member, the expression stands for the class. -/
def NamesClass (r : Resolver) (s : Scope) (e : Source.Expr) (c : String) : Prop :=
  ((meaning s e).run.run r).1 = .ok (.ofClass c)

section

variable {r : Resolver} {e : Source.Expr} {first : String} {more : List String}

theorem namesType_iff {P : String → Prop} {line : Nat}
    (h : Answers r.meaning (s.typeClass first more line) P)
    (c : String) : NamesType r s ⟨.named first more, 0, line⟩ c ↔ P c := by
  refine ((answers_resolveType h).iff_run rfl).trans
    ⟨fun ⟨d, hd, heq⟩ => ?_, fun hc => ⟨c, hc, rfl⟩⟩
  cases heq
  exact hd

/-- No look-up fails that one of the two readings of a dotted name makes after the one of its first
name. -/
structure TellsReadings (r : Resolver) (s : Scope) (first : String) (more : List String) :
    Prop where
  spellings : ((s.lookupClass? first).run.run r).1 = .ok none →
    TellsSpellings r.meaning (first :: more) more.length
  parts : ((s.lookupClass? first).run.run r).1 = .ok none → TellsParts r.meaning (first :: more)
  members : ∀ c, ((s.lookupClass? first).run.run r).1 = .ok (some c) → TellsMembers r.meaning c more

theorem tellsReadings_of_total {r : Resolver} (h : r.meaning.Total) (s : Scope) (first : String)
    (more : List String) : TellsReadings r s first more where
  spellings _ _ _ _ := h _
  parts _ _ _ _ _ _ := ⟨fun _ => h _, fun _ _ => h _⟩
  members _ _ _ _ _ _ _ _ := h _

theorem namesClass_iff (h : Bare r s e names) (hr : r.Reached) (htells : TellsParts r.meaning names)
    (hfirst : ∀ first ∈ names.head?, Yields r.meaning (s.lookupClass? first) (.ok none))
    (c : String) : NamesClass r s e c ↔ ∃ j, Stepwise r.meaning names j ∧ c = spelled names j := by
  refine ((h.answers_package hr htells hfirst).iff_run rfl).trans
    ⟨fun hc => ?_, fun ⟨j, hj, hc⟩ => ?_⟩
  · rcases hc with ⟨-, hc⟩ | ⟨j, hj, hc⟩
    · cases hc
    · cases hc
      exact ⟨j, hj, rfl⟩
  · exact .inr ⟨j, hj, hc ▸ rfl⟩

/-- After a class, both readings go on with member classes. -/
theorem agrees_member (h : Bare r s e (first :: more)) (hr : r.Reached) {c : String}
    (htells : TellsMembers r.meaning c more)
    (hfirst : Yields r.meaning (s.lookupClass? first) (.ok (some c))) (line : Nat) (d : String) :
    NamesType r s ⟨.named first more, 0, line⟩ d ↔ NamesClass r s e d := by
  refine (namesType_iff (answers_typeClass_member htells hfirst line) d).trans ?_
  refine Iff.trans ?_ ((h.answers_class hr htells rfl hfirst).iff_run rfl).symm
  constructor
  · exact fun hd => ⟨d, hd, rfl⟩
  · rintro ⟨d', hd, heq⟩
    cases heq
    exact hd

/-- Without a look-up of the first name there is no class for either reading. -/
theorem agrees_error (h : Bare r s e (first :: more)) (hr : r.Reached) {err : Error}
    (hfirst : Yields r.meaning (s.lookupClass? first) (.error err)) (line : Nat) (c : String) :
    NamesType r s ⟨.named first more, 0, line⟩ c ↔ NamesClass r s e c := by
  have htype : Answers r.meaning (s.typeClass first more line) fun _ => False :=
    ⟨.error err, hfirst.bind_error, fun c => ⟨fun h => (by cases h), False.elim⟩⟩
  refine (namesType_iff htype c).trans (iff_of_false id ?_)
  unfold NamesClass
  rw [(h.yields_error hr rfl hfirst).result rfl]
  exact fun h => (by cases h)

/-- If the first name is no class, the readings agree where the class of the type is found step by
step. -/
theorem agrees_iff_stepwise (h : Bare r s e (first :: more)) (hr : r.Reached)
    (hspellings : TellsSpellings r.meaning (first :: more) more.length)
    (hparts : TellsParts r.meaning (first :: more))
    (hnames : Undotted (first :: more))
    (hfirst : Yields r.meaning (s.lookupClass? first) (.ok none)) (line : Nat) :
    (∀ c, NamesType r s ⟨.named first more, 0, line⟩ c ↔ NamesClass r s e c) ↔ ∀ k ≤ more.length,
      NamesType r s ⟨.named first more, 0, line⟩ (spelled (first :: more) k) →
        Stepwise r.meaning (first :: more) k := by
  have htype := namesType_iff (answers_typeClass_package hspellings hnames hfirst line)
  have hclass := namesClass_iff h hr hparts fun n hn => Option.some.inj hn ▸ hfirst
  constructor
  · intro hagree k hk hnamed
    obtain ⟨j, hj, heq⟩ := (hclass _).mp ((hagree _).mp hnamed)
    -- the class before a member is spelled with another package unless the numbers agree
    rwa [spelled_inj hnames (Nat.le_succ_of_le hk) (Nat.le_of_lt hj.lt) heq]
  · refine fun hplaced c => ⟨fun hc => ?_, fun hc => ?_⟩
    · obtain ⟨-, j, hj, rfl⟩ := (htype c).mp hc
      exact (hclass _).mpr ⟨j, hplaced j hj.le hc, rfl⟩
    · obtain ⟨j, hj, rfl⟩ := (hclass c).mp hc
      have hmore : more ≠ [] := by
        rintro rfl
        exact absurd hj.lt (Nat.not_lt.mpr hj.pos)
      -- the longest package that has a class is the one found step by step
      obtain ⟨k, hk⟩ := exists_longest (Nat.le_of_lt_succ hj.lt) hj.has
      have hnamed := (htype _).mpr ⟨hmore, k, hk, rfl⟩
      rwa [(hplaced k hk.le hnamed).unique hj] at hnamed

/-- **The two readings of a dotted name.**  Where no look-up fails that one of them makes, a dotted
name that leads to no local and no field stands for the same class as a type and before a member, or
for none in both places, if and only if its first name is a class, or cannot be looked up, or the
class that the type is has a package with a name, no part of that package with two names or more is
a class, and all classes around it are there. -/
theorem dottedName_agrees_iff (hr : r.Reached) (htells : TellsReadings r s first more)
    (hnames : Undotted (first :: more))
    (h : Bare r s e (first :: more)) (line : Nat) :
    (∀ c, NamesType r s ⟨.named first more, 0, line⟩ c ↔ NamesClass r s e c) ↔
      (((s.lookupClass? first).run.run r).1 = .ok none → ∀ k ≤ more.length,
        NamesType r s ⟨.named first more, 0, line⟩ (spelled (first :: more) k) →
          Stepwise r.meaning (first :: more) k) := by
  obtain ⟨result, hfirst⟩ := (determined_lookupClass? (m := r.meaning) (s := s) first).result
  have hrun := hfirst.result (r := r) rfl
  rw [hrun]
  -- the first name fails, is no class, or is one; only the second case asks for more
  rcases result with err | _ | c
  · exact ⟨fun _ h => (by cases h), fun _ => agrees_error h hr hfirst line⟩
  · exact (agrees_iff_stepwise h hr (htells.spellings hrun) (htells.parts hrun) hnames hfirst
      line).trans ⟨fun hplaced _ => hplaced, fun h => h rfl⟩
  · exact ⟨fun _ h => (by cases h), fun _ => agrees_member h hr (htells.members c hrun) hfirst line⟩

end

def hostScope : Scope :=
  { imports := [], self := classOf "p/H" none [] [], isStatic := true, returnType := none,
    locals := [], nextSlot := 0 }

def dottedType : Source.TypeName := ⟨.named "a" ["b", "C"], 0, 1⟩

def dottedExpr : Source.Expr := .field (.field (.name "a" 1) "b" 1) "C" 1

theorem undotted_example : Undotted ["a", "b", "C"] := by
  unfold Undotted
  decide +kernel

def packaged : Resolver := defining [classOf "p/H" none [] [], classOf "a/b/C" none [] []]

theorem total_of_rootless {r : Resolver} (h : r.roots = []) : r.meaning.Total := by
  intro name
  unfold Dictionary.Tells Resolver.meaning
  rw [h]
  split
  next known _ => exact ⟨known, rfl⟩
  next =>
    split
    next => exact ⟨_, rfl⟩
    next => exact ⟨none, rfl⟩

theorem bare_dottedExpr {r : Resolver} (hself : ((findField? "p/H" "a").run.run r).1 = .ok none)
    (ha : ((meaning hostScope (.name "a" 1)).run.run r).1 = .ok (.ofPackage "a"))
    (hmember : ∀ c, NamesClass r hostScope (.field (.name "a" 1) "b" 1) c →
      ((findField? c "C").run.run r).1 = .ok none) :
      Bare r hostScope dottedExpr ["a", "b", "C"] := by
  -- `a` is a package, so no field can be meant after it
  have hb : Bare r hostScope (.field (.name "a" 1) "b" 1) ["a", "b"] := by
    refine .field (.name rfl hself 1) (fun c hc => ?_) 1
    rw [ha] at hc
    cases hc
  exact .field hb hmember 1

theorem bare_packaged : Bare packaged hostScope dottedExpr ["a", "b", "C"] := by
  refine bare_dottedExpr (by decide +kernel) rfl fun c hc => ?_
  have hpackage : ((meaning hostScope (.field (.name "a" 1) "b" 1)).run.run packaged).1 =
      .ok (.ofPackage "a/b") := by
    rfl
  cases hpackage.symm.trans hc

/-- Where the class stands in a package of its own, both readings find it. -/
theorem dottedName_agrees_packaged : NamesClass packaged hostScope dottedExpr "a/b/C" ∧
    ∀ c, NamesType packaged hostScope dottedType c ↔
    NamesClass packaged hostScope dottedExpr c := by
  have hagrees :=
    dottedName_agrees_iff (reached_defining _)
    (tellsReadings_of_total (total_of_rootless rfl) _ _ _) undotted_example bare_packaged 1
  refine ⟨by rfl, hagrees.mpr fun _ k hk hnamed => ?_⟩
  have htype : ((hostScope.resolveType dottedType).run.run packaged).1 = .ok (.object "a/b/C") := by
    decide +kernel
  -- two names are in the package, as the spelling shows
  have hsame : spelled ["a", "b", "C"] k = spelled ["a", "b", "C"] 2 := by
    have hspelled : spelled ["a", "b", "C"] 2 = "a/b/C" := by decide +kernel
    rw [hspelled]
    exact FieldType.object.inj (Except.ok.inj (hnamed.symm.trans htype))
  obtain rfl := spelled_inj undotted_example (Nat.le_succ_of_le hk) (by decide) hsame
  refine ⟨by decide, by decide, fun i htwo hi => ?_, fun i hlt hi => ?_⟩
  · obtain rfl := Nat.le_antisymm hi htwo
    decide +kernel
  · obtain rfl := Nat.le_antisymm hi hlt
    decide +kernel

def layered : Resolver :=
  defining [classOf "p/H" none [] [], classOf "a/b" none [] [], classOf "a/b/C" none [] []]

theorem bare_layered : Bare layered hostScope dottedExpr ["a", "b", "C"] := by
  refine bare_dottedExpr (by decide +kernel) rfl fun c hc => ?_
  have hclass : ((meaning hostScope (.field (.name "a" 1) "b" 1)).run.run layered).1 =
    .ok (.ofClass "a/b") := by rfl
  cases hclass.symm.trans hc
  decide +kernel

/-- Where a part of the package is a class itself, the type is found and the class before a member
is not. -/
theorem dottedName_disagrees_layered : layered.Reached ∧ layered.meaning.Total ∧
    Undotted ["a", "b", "C"] ∧
    Bare layered hostScope dottedExpr ["a", "b", "C"] ∧
    NamesType layered hostScope dottedType "a/b/C" ∧
    ∀ c, ¬NamesClass layered hostScope dottedExpr c := by
  refine ⟨reached_defining _, total_of_rootless rfl, undotted_example, bare_layered, ?_,
    fun c hc => ?_⟩
  · have htype : ((hostScope.resolveType dottedType).run.run layered).1 =
      .ok (.object "a/b/C") := by decide +kernel
    exact htype
  · have hfails : ((meaning hostScope dottedExpr).run.run layered).1 =
        .error (.fault 1 (.noField "C" "a/b")) := by rfl
    exact absurd (hfails.symm.trans hc) (fun h => (by cases h))

end MethodGraft.Typed
