import MethodGraft.Proofs.Typed.Choice
import MethodGraft.Proofs.Typed.Variables

/-!
# Proofs.Typed.Scopes — the slots of variables

Control runs through the statements of a source and through what they are bound to side by side.  On
its way, a declaration brings a variable into scope and writes the slots of its local; leaving a
block takes the variables of the block out of scope and leaves the slots as they are.  Wherever
control comes, every variable in scope has slots of its own, and they hold what was written for it.
-/

namespace MethodGraft.Typed

open ClassFile Classpath

/-! ## 1. Moments of a run -/

/-- The slot is one of those that the variable takes. -/
def Variable.Covers (v : Variable) (i : Nat) : Prop :=
  v.slot.toNat ≤ i ∧ i < v.slot.toNat + v.type.slots

instance (v : Variable) (i : Nat) : Decidable (v.Covers i) := inferInstanceAs (Decidable (_ ∧ _))

structure Moment where
  /-- The variables in scope, the latest first. -/
  scope : List Variable
  /-- The variable that a slot was written for last. -/
  held : Nat → Option Variable
  /-- How many variables were declared on the way. -/
  declared : Nat

namespace Moment

def empty : Moment := ⟨[], fun _ => none, 0⟩

def declare (μ : Moment) (name? : Option String) (slot : UInt16) (t : FieldType) : Moment :=
  let v : Variable := ⟨name?, slot, t, μ.declared⟩
  { scope := v :: μ.scope, held := fun i => if v.Covers i then some v else μ.held i,
    declared := μ.declared + 1 }

def leave (μ : Moment) (scope : List Variable) : Moment := { μ with scope }

def pass (μ : Moment) (slot : Nat) : List (Source.Param × FieldType) → Moment
  | [] => μ
  | (p, t) :: params => (μ.declare (some p.name) (UInt16.ofNat slot) t).pass (slot + t.slots) params

/-- The start of a method.  An instance method is passed its receiver in the first slot. -/
def start (self : String) (isStatic : Bool) (params : List (Source.Param × FieldType)) : Moment :=
  if isStatic then empty.pass 0 params else (empty.declare none 0 (.object self)).pass 1 params

/-- Every variable in scope has slots of its own, and all of them hold it. -/
structure Sound (μ : Moment) : Prop where
  disjoint : μ.scope.Pairwise fun v w => ∀ i, v.Covers i → ¬w.Covers i
  held : ∀ v ∈ μ.scope, ∀ i, v.Covers i → μ.held i = some v

def KeepsBelow (n : Nat) (μ μ' : Moment) : Prop := ∀ i < n, μ'.held i = μ.held i

end Moment

/-! ## 2. Runs of control -/

def bodyOf : Source.Stmt → List Source.Stmt
  | .block stmts _ => stmts
  | stmt => [stmt]

mutual

/-- Control goes through a statement and what it is bound to, from one moment to another.  Any
branch may be taken. -/
inductive Crosses : Moment → Source.Stmt → Stmt → Moment → Prop
  | store (μ : Moment) (type : Source.TypeName) (name : String) (init : Source.Expr) (line : Nat)
      (slot : UInt16) (t : FieldType) (x : Expr) :
      Crosses μ (.declare type name init line) (.store slot t x) (μ.declare (some name) slot t)
  | readField (μ : Moment) (type : Source.TypeName) (name : String) (init : Source.Expr)
      (line : Nat) (slot : UInt16) (t : FieldType) (object : Expr) (field : String)
      (check : Option String) :
      Crosses μ (.declare type name init line) (.readField slot t object field check)
      (μ.declare (some name) slot t)
  | call (μ : Moment) (e : Source.Expr) (line : Nat) (x : Expr) (hasValue : Bool) :
      Crosses μ (.call e line) (.discard x hasValue) μ
  | skip (μ : Moment) (e : Source.Expr) (yes : Source.Stmt) (line : Nat) (c : Cond)
      (bs : List Stmt) : Crosses μ (.ifThen e yes line) (.ifThen c bs) μ
  | ifThen {μ μ' : Moment} {yes : Source.Stmt} {bs : List Stmt}
      (h : CrossesAll μ (bodyOf yes) bs μ')
      (e : Source.Expr) (line : Nat) (c : Cond) :
      Crosses μ (.ifThen e yes line) (.ifThen c bs) (μ'.leave μ.scope)
  | yes {μ μ' : Moment} {yes : Source.Stmt} {bs : List Stmt} (h : CrossesAll μ (bodyOf yes) bs μ')
      (e : Source.Expr) (no : Source.Stmt) (line : Nat) (c : Cond) (cs : List Stmt) :
      Crosses μ (.ifElse e yes no line) (.ifElse c bs cs) (μ'.leave μ.scope)
  | no {μ μ' : Moment} {no : Source.Stmt} {cs : List Stmt} (h : CrossesAll μ (bodyOf no) cs μ')
      (e : Source.Expr) (yes : Source.Stmt) (line : Nat) (c : Cond) (bs : List Stmt) :
      Crosses μ (.ifElse e yes no line) (.ifElse c bs cs) (μ'.leave μ.scope)
  | block {μ μ' : Moment} {stmts : List Source.Stmt} {bs : List Stmt} (h : CrossesAll μ stmts bs μ')
      (endLine : Nat) : Crosses μ (.block stmts endLine) (.block bs) (μ'.leave μ.scope)

inductive CrossesAll : Moment → List Source.Stmt → List Stmt → Moment → Prop
  | nil (μ : Moment) : CrossesAll μ [] [] μ
  | cons {μ μ₁ μ' : Moment} {stmt : Source.Stmt} {b : Stmt} {rest : List Source.Stmt}
      {bs : List Stmt} (h : Crosses μ stmt b μ₁) (hrest : CrossesAll μ₁ rest bs μ') :
      CrossesAll μ (stmt :: rest) (b :: bs) μ'

end

/-- Control that starts with these statements and what they are bound to gets to a point inside,
with the last of them or of a block left over. -/
inductive Arrives : Moment → List Source.Stmt → List Stmt → Moment → List Source.Stmt → List Stmt →
    Prop
  | here (μ : Moment) (stmts : List Source.Stmt) (bs : List Stmt) : Arrives μ stmts bs μ stmts bs
  | after {μ μ₁ μ' : Moment} {stmt : Source.Stmt} {b : Stmt} {rest left : List Source.Stmt}
      {bs leftBound : List Stmt} (h : Crosses μ stmt b μ₁)
      (hrest : Arrives μ₁ rest bs μ' left leftBound) :
      Arrives μ (stmt :: rest) (b :: bs) μ' left leftBound
  | ifThen {μ μ' : Moment} {yes : Source.Stmt} {bs leftBound : List Stmt} {left : List Source.Stmt}
      (h : Arrives μ (bodyOf yes) bs μ' left leftBound) (e : Source.Expr) (line : Nat) (c : Cond)
      (rest : List Source.Stmt) (more : List Stmt) :
      Arrives μ (.ifThen e yes line :: rest) (.ifThen c bs :: more) μ' left leftBound
  | yes {μ μ' : Moment} {yes : Source.Stmt} {bs leftBound : List Stmt} {left : List Source.Stmt}
      (h : Arrives μ (bodyOf yes) bs μ' left leftBound) (e : Source.Expr) (no : Source.Stmt)
      (line : Nat) (c : Cond) (cs : List Stmt) (rest : List Source.Stmt) (more : List Stmt) :
      Arrives μ (.ifElse e yes no line :: rest) (.ifElse c bs cs :: more) μ' left leftBound
  | no {μ μ' : Moment} {no : Source.Stmt} {cs leftBound : List Stmt} {left : List Source.Stmt}
      (h : Arrives μ (bodyOf no) cs μ' left leftBound) (e : Source.Expr) (yes : Source.Stmt)
      (line : Nat) (c : Cond) (bs : List Stmt) (rest : List Source.Stmt) (more : List Stmt) :
      Arrives μ (.ifElse e yes no line :: rest) (.ifElse c bs cs :: more) μ' left leftBound
  | block {μ μ' : Moment} {stmts left : List Source.Stmt} {bs leftBound : List Stmt}
      (h : Arrives μ stmts bs μ' left leftBound) (endLine : Nat) (rest : List Source.Stmt)
      (more : List Stmt) :
      Arrives μ (.block stmts endLine :: rest) (.block bs :: more) μ' left leftBound

/-! ## 3. What is found at a point -/

/-- The locals are those of the variables that the expression uses, and each of these is in scope
and held by all of its slots. -/
def Moment.Loads (μ : Moment) (e : Source.Expr) (locals : List (UInt16 × FieldType)) : Prop :=
  ∃ vs, Uses μ.scope e vs ∧ locals = vs.map Variable.node ∧
    ∀ v ∈ vs, v ∈ μ.scope ∧ ∀ i, v.Covers i → μ.held i = some v

/-- A statement is bound to one of its form.  That one loads the variables that the source uses, and
where it declares a local, it is of the declared type. -/
inductive Moment.Conforms (named : Source.TypeName → FieldType → Prop) (μ : Moment) :
    Source.Stmt → Stmt → Prop
  | store {type : Source.TypeName} {init : Source.Expr} {t : FieldType} {x : Expr}
      (ht : named type t) (hx : μ.Loads init x.locals) (name : String) (line : Nat)
      (slot : UInt16) : Conforms named μ (.declare type name init line) (.store slot t x)
  | readField {type : Source.TypeName} {init : Source.Expr} {t : FieldType} {object : Expr}
      (ht : named type t) (hobject : μ.Loads init object.locals) (name : String) (line : Nat)
      (slot : UInt16) (field : String) (check : Option String) :
      Conforms named μ (.declare type name init line) (.readField slot t object field check)
  | ifThen {e : Source.Expr} {c : Cond} (hc : μ.Loads e c.locals) (yes : Source.Stmt) (line : Nat)
      (bs : List Stmt) : Conforms named μ (.ifThen e yes line) (.ifThen c bs)
  | ifElse {e : Source.Expr} {c : Cond} (hc : μ.Loads e c.locals) (yes no : Source.Stmt)
      (line : Nat) (bs cs : List Stmt) : Conforms named μ (.ifElse e yes no line) (.ifElse c bs cs)
  | ret (line : Nat) : Conforms named μ (.ret line) .ret
  | retValue {e : Source.Expr} {x : Expr} (hx : μ.Loads e x.locals) (line : Nat) (t : FieldType) :
      Conforms named μ (.retValue e line) (.retValue x t)
  | call {e : Source.Expr} {x : Expr} (hx : μ.Loads e x.locals) (line : Nat) (hasValue : Bool) :
      Conforms named μ (.call e line) (.discard x hasValue)
  | block (stmts : List Source.Stmt) (endLine : Nat) (bs : List Stmt) :
      Conforms named μ (.block stmts endLine) (.block bs)

/-- Either nothing is left, or a statement comes next, and control can go through it if it is not
the last one. -/
inductive Moment.Faces (named : Source.TypeName → FieldType → Prop) (μ : Moment) :
    List Source.Stmt → List Stmt → Prop
  | done : Faces named μ [] []
  | last {stmt : Source.Stmt} {b : Stmt} (h : μ.Conforms named stmt b) : Faces named μ [stmt] [b]
  | next {stmt : Source.Stmt} {b : Stmt} (h : μ.Conforms named stmt b)
      (hcrosses : ∃ μ', Crosses μ stmt b μ')
      (rest : List Source.Stmt) (bs : List Stmt) : Faces named μ (stmt :: rest) (b :: bs)

variable {m : Dictionary} {s s₀ : Scope} {scope : List Variable} {μ μ' : Moment}

mutual

/-- What an expression uses is in scope. -/
theorem Uses.mem {e : Source.Expr} {vs : List Variable} : Uses scope e vs → ∀ v ∈ vs, v ∈ scope
  | .literal .. | .member .. => List.forall_mem_nil _
  | .this hr _ | .ownField _ hr _ => List.forall_mem_singleton.mpr hr.1
  | .variable hv _ => List.forall_mem_singleton.mpr (List.mem_of_find?_eq_some hv)
  | .field h _ _ | .not h _ | .cast h _ _ => h.mem
  | .call hargs _ _ => hargs.mem
  | .ownCall hr hargs _ _ => List.forall_mem_cons.mpr ⟨hr.1, hargs.mem⟩
  | .callOn h hargs _ _ => List.forall_mem_append.mpr ⟨h.mem, hargs.mem⟩
  | .binary hl hr _ _ => List.forall_mem_append.mpr ⟨hl.mem, hr.mem⟩

theorem AllUse.mem {es : List Source.Expr} {vs : List Variable} :
    AllUse scope es vs → ∀ v ∈ vs, v ∈ scope
  | .nil => List.forall_mem_nil _
  | .cons h hes => List.forall_mem_append.mpr ⟨h.mem, hes.mem⟩

end

/-- In a sound moment, an expression loads what it spells. -/
theorem Moment.Sound.loads (h : μ.Sound) {e : Source.Expr} {locals : List (UInt16 × FieldType)}
    (hspells : Spells μ.scope e locals) : μ.Loads e locals := by
  obtain ⟨vs, hvs, hlocals⟩ := hspells
  exact ⟨vs, hvs, hlocals, fun v hv => ⟨hvs.mem v hv, h.held v (hvs.mem v hv)⟩⟩

theorem spells_fieldReadCall {e object : Source.Expr} {text : String} {fieldLine callLine : Nat}
    {locals : List (UInt16 × FieldType)}
    (hread : fieldReadCall? e = some ([object, .literal (.str text) fieldLine], callLine))
    (h : Spells scope object locals) : Spells scope e locals := by
  obtain ⟨vs, hvs, hlocals⟩ := h
  unfold fieldReadCall? at hread
  split at hread
  next name args line =>
    split at hread
    next =>
      cases hread
      -- the name of the field is a constant, which uses nothing
      refine ⟨vs ++ ([] ++ []), .call (.cons hvs (.cons (.literal _ _) .nil)) name _, ?_⟩
      rw [List.append_nil, List.append_nil, hlocals]
    next => cases hread
  next => cases hread

/-- An initializer that reads a field uses what the object of the field uses. -/
theorem spells_fieldRead {init object : Source.Expr} {cast : Option Source.TypeName} {text : String}
    {fieldLine callLine : Nat} {locals : List (UInt16 × FieldType)}
    (hread : fieldReadOf? init = some (cast, [object, .literal (.str text) fieldLine], callLine))
    (h : Spells scope object locals) : Spells scope init locals := by
  unfold fieldReadOf? at hread
  split at hread
  next type e line =>
    obtain ⟨⟨args, line⟩, hcall, heq⟩ := Option.map_eq_some_iff.mp hread
    cases heq
    obtain ⟨vs, hvs, hlocals⟩ := spells_fieldReadCall hcall h
    exact ⟨vs, .cast hvs type line, hlocals⟩
  next =>
    obtain ⟨⟨args, line⟩, hcall, heq⟩ := Option.map_eq_some_iff.mp hread
    cases heq
    exact spells_fieldReadCall hcall h

/-! ## 4. The scopes of the binder -/

structure Scope.OfMethod (s₀ s : Scope) : Prop where
  imports : s.imports = s₀.imports
  self : s.self = s₀.self
  isStatic : s.isStatic = s₀.isStatic

/-- A type name means the same all over a method. -/
theorem Scope.OfMethod.resolveType (h : s₀.OfMethod s) (type : Source.TypeName) :
    s.resolveType type = s₀.resolveType type := by
  unfold Scope.resolveType Scope.typeClass Scope.lookupClass?
  rw [h.imports, h.self]

/-- The binder has the variables of the moment in scope, and its free slots are above all of
theirs. -/
structure Scope.Follows (s₀ s : Scope) (μ : Moment) : Prop where
  ofMethod : s₀.OfMethod s
  shows : s.Shows μ.scope
  below : ∀ v ∈ μ.scope, v.slot.toNat + v.type.slots ≤ s.nextSlot
  room : s.nextSlot ≤ 65535
  sound : μ.Sound

namespace Scope.Follows

theorem toNat_next (h : s₀.Follows s μ) (name : String) (t : FieldType) :
    (s.next name t).slot.toNat = s.nextSlot := by
  have hroom := h.room
  exact Nat.mod_eq_of_lt (by omega)

theorem lt_of_covers (h : s₀.Follows s μ) {v : Variable} (hv : v ∈ μ.scope) {i : Nat}
    (hi : v.Covers i) : i < s.nextSlot := Nat.lt_of_lt_of_le hi.2 (h.below v hv)

/-- A declaration writes no slot that was taken. -/
theorem keepsBelow_declare (h : s₀.Follows s μ) (name : String) (t : FieldType) :
    Moment.KeepsBelow s.nextSlot μ (μ.declare (some name) (s.next name t).slot t) := by
  refine fun i hi => if_neg fun hnew => ?_
  have hlower : s.nextSlot ≤ i := h.toNat_next name t ▸ hnew.1
  exact Nat.not_lt.mpr hlower hi

/-- The next local takes the first free slots. -/
theorem declare (h : s₀.Follows s μ) {name : String} {t : FieldType} (hname : s.Admits name t) :
    s₀.Follows (s.declaring name t) (μ.declare (some name) (s.next name t).slot t) := by
  have hslot := h.toNat_next name t
  refine ⟨⟨h.ofMethod.imports, h.ofMethod.self, h.ofMethod.isStatic⟩, ⟨?_, ?_, ?_⟩, ?_, hname.room,
    ⟨?_, ?_⟩⟩
  · exact congrArg (s.next name t :: ·) h.shows.locals
  · exact fun hinstance => List.mem_cons_of_mem _ (h.shows.receiver hinstance)
  · refine List.forall_mem_cons.mpr ⟨fun hnone => ?_, h.shows.nameless⟩
    cases hnone
  · refine List.forall_mem_cons.mpr ⟨?_, fun v hv => Nat.le_add_right_of_le (h.below v hv)⟩
    exact Nat.le_of_eq (congrArg (· + t.slots) hslot)
  -- all slots of the others are below the first free one, and those of the new one are not
  · refine List.pairwise_cons.mpr ⟨fun v hv i hnew hi => ?_, h.sound.disjoint⟩
    have hlower : s.nextSlot ≤ i := hslot ▸ hnew.1
    exact Nat.not_lt.mpr hlower (h.lt_of_covers hv hi)
  · refine List.forall_mem_cons.mpr ⟨fun i hi => if_pos hi, fun v hv i hi => ?_⟩
    exact (h.keepsBelow_declare name t i (h.lt_of_covers hv hi)).trans (h.sound.held v hv i hi)

/-- After a block that wrote no slot taken before, the scope is the one before the block. -/
theorem leave (h : s₀.Follows s μ) (hkeeps : Moment.KeepsBelow s.nextSlot μ μ') :
    s₀.Follows s (μ'.leave μ.scope) := by
  refine ⟨h.ofMethod, h.shows, h.below, h.room, ⟨h.sound.disjoint, fun v hv i hi => ?_⟩⟩
  exact (hkeeps i (h.lt_of_covers hv hi)).trans (h.sound.held v hv i hi)

/-- The receiver is in scope in instance methods only. -/
theorem exists_receiver_iff (h : s₀.Follows s μ) :
    (∃ r, IsReceiver μ.scope r) ↔ s₀.isStatic = false := by
  rw [← h.ofMethod.isStatic]
  refine ⟨fun ⟨r, hr, hnone⟩ => (h.shows.nameless r hr hnone).1, fun hinstance => ?_⟩
  exact ⟨_, h.shows.isReceiver hinstance⟩

end Scope.Follows

/-! ## 5. Statements and what they are bound to -/

/-- Branches are bound like blocks. -/
theorem Binds.branch {yes : Source.Stmt} {a : Bound} (h : Binds m s yes a) :
    BindsAll m s (bodyOf yes) (branchOf a.stmt) a.completes := by
  have hsingle : BindsAll m s [yes] [a.stmt] a.completes := by
    cases hcompletes : a.completes with
    | true => exact .cons h hcompletes (.nil _)
    | false => exact .last h hcompletes
  cases h with
  | block hstmts => exact hstmts
  | _ => exact hsingle

/-- Control goes through a branch as through a block. -/
theorem Crosses.branch {yes : Source.Stmt} {b : Stmt} (h : Crosses μ yes b μ') :
    ∃ μ'', CrossesAll μ (bodyOf yes) (branchOf b) μ'' := by
  cases h with
  | block hstmts => exact ⟨_, hstmts⟩
  | store | readField | call | skip => exact ⟨_, .cons (by constructor) (.nil _)⟩
  | ifThen h => exact ⟨_, .cons (.ifThen h _ _ _) (.nil _)⟩
  | yes h => exact ⟨_, .cons (.yes h _ _ _ _ _) (.nil _)⟩
  | no h => exact ⟨_, .cons (.no h _ _ _ _ _) (.nil _)⟩

mutual

/-- If the binder lets statements follow, control can go through. -/
theorem Binds.crosses {s : Scope} {stmt : Source.Stmt} {b : Bound} :
    Binds m s stmt b → b.completes = true → ∀ μ, ∃ μ', Crosses μ stmt b.stmt μ'
  | .store .., _, μ => ⟨_, .store μ _ _ _ _ _ _ _⟩
  | .readField .., _, μ => ⟨_, .readField μ _ _ _ _ _ _ _ _ _⟩
  | .ifThen .., _, μ => ⟨_, .skip μ _ _ _ _ _⟩
  | .ifElse _ _ hyes _ hno line, hcompletes, μ => by
    -- one branch that control can go through is enough
    rcases Bool.or_eq_true_iff.mp hcompletes with hcompletes | hcompletes
    · obtain ⟨_, h⟩ := hyes.crosses hcompletes μ
      obtain ⟨_, h⟩ := h.branch
      exact ⟨_, .yes h _ _ line _ _⟩
    · obtain ⟨_, h⟩ := hno.crosses hcompletes μ
      obtain ⟨_, h⟩ := h.branch
      exact ⟨_, .no h _ _ line _ _⟩
  | .ret _, hcompletes, _ => by cases hcompletes
  | .retValue .., hcompletes, _ => by cases hcompletes
  | .call .., _, μ => ⟨_, .call μ _ _ _ _⟩
  | .block h endLine, hcompletes, μ => by
    obtain ⟨_, h⟩ := h.crosses hcompletes μ
    exact ⟨_, .block h endLine⟩

theorem BindsAll.crosses {s : Scope} {stmts : List Source.Stmt} {bs : List Stmt}
    {completes : Bool} :
    BindsAll m s stmts bs completes → completes = true → ∀ μ, ∃ μ', CrossesAll μ stmts bs μ'
  | .nil _, _, μ => ⟨μ, .nil μ⟩
  | .cons h hcompletes hrest, hlast, μ => by
    obtain ⟨μ₁, hfirst⟩ := h.crosses hcompletes μ
    obtain ⟨μ', hthen⟩ := hrest.crosses hlast μ₁
    exact ⟨μ', .cons hfirst hthen⟩
  | .last _ _, hlast, _ => by cases hlast

end

/-- Control went through a statement; the binder's scope after it follows. -/
structure Crossed (s₀ s : Scope) (μ : Moment) (b : Bound) (μ' : Moment) : Prop where
  completes : b.completes = true
  follows : s₀.Follows b.after μ'
  grows : s.nextSlot ≤ b.after.nextSlot
  keeps : Moment.KeepsBelow s.nextSlot μ μ'

/-- After a declaration there is one variable more. -/
theorem Scope.Follows.crossed_declare (h : s₀.Follows s μ) {name : String} {t : FieldType}
    (hname : s.Admits name t) (stmt : Stmt) :
    Crossed s₀ s μ ⟨stmt, true, s.declaring name t⟩
    (μ.declare (some name) (s.next name t).slot t) :=
  ⟨rfl, h.declare hname, Nat.le_add_right _ _, h.keepsBelow_declare name t⟩

/-- After a block or a branch all is as before. -/
theorem Scope.Follows.crossed_leave (h : s₀.Follows s μ)
    (hkeeps : Moment.KeepsBelow s.nextSlot μ μ') (stmt : Stmt)
    {completes : Bool} (hcompletes : completes = true) :
    Crossed s₀ s μ ⟨stmt, completes, s⟩ (μ'.leave μ.scope) :=
  ⟨hcompletes, h.leave hkeeps, Nat.le_refl _, hkeeps⟩

mutual

/-- What control comes across in a statement is what the binder had in mind. -/
theorem Crosses.crossed {μ μ' : Moment} {stmt : Source.Stmt} {x : Stmt} :
    Crosses μ stmt x μ' → ∀ {s : Scope} {b : Bound}, Binds m s stmt b → b.stmt = x →
    s₀.Follows s μ → Crossed s₀ s μ b μ'
  | .store .., _, _, .store _ _ _ _ hname _, hx, hs => by
    cases hx
    exact hs.crossed_declare hname _
  | .store .., _, _, .readField .., hx, _ => by cases hx
  | .readField .., _, _, .readField _ _ _ hname _ _, hx, hs => by
    cases hx
    exact hs.crossed_declare hname _
  | .readField .., _, _, .store .., hx, _ => by cases hx
  | .call .., _, _, .call _ _, _, hs => ⟨rfl, hs, Nat.le_refl _, fun _ _ => rfl⟩
  | .skip .., _, _, .ifThen .., _, hs => ⟨rfl, hs, Nat.le_refl _, fun _ _ => rfl⟩
  | .ifThen h _ _ _, _, _, .ifThen _ _ hyes _, hx, hs => by
    cases hx
    exact hs.crossed_leave (h.crossed hyes.branch hs).2 _ rfl
  | .yes h _ _ _ _ _, _, _, .ifElse _ _ hyes _ _ _, hx, hs => by
    cases hx
    obtain ⟨hcompletes, hkeeps⟩ := h.crossed hyes.branch hs
    exact hs.crossed_leave hkeeps _ (Bool.or_eq_true_iff.mpr (.inl hcompletes))
  | .no h _ _ _ _ _, _, _, .ifElse _ _ _ _ hno _, hx, hs => by
    cases hx
    obtain ⟨hcompletes, hkeeps⟩ := h.crossed hno.branch hs
    exact hs.crossed_leave hkeeps _ (Bool.or_eq_true_iff.mpr (.inr hcompletes))
  | .block h _, _, _, .block hstmts _, hx, hs => by
    cases hx
    obtain ⟨hcompletes, hkeeps⟩ := h.crossed hstmts hs
    exact hs.crossed_leave hkeeps _ hcompletes

theorem CrossesAll.crossed {μ μ' : Moment} {stmts : List Source.Stmt} {xs : List Stmt} :
    CrossesAll μ stmts xs μ' → ∀ {s : Scope} {completes : Bool}, BindsAll m s stmts xs completes →
      s₀.Follows s μ → completes = true ∧ Moment.KeepsBelow s.nextSlot μ μ'
  | .nil _, _, _, .nil _, _ => ⟨rfl, fun _ _ => rfl⟩
  | .cons h hrest, _, _, .cons hstmt _ hstmts, hs => by
    have hfirst := h.crossed hstmt rfl hs
    obtain ⟨hcompletes, hkeeps⟩ := hrest.crossed hstmts hfirst.follows
    refine ⟨hcompletes, fun i hi => ?_⟩
    -- the first statement only makes more slots taken, so the others keep what was taken before it
    exact (hkeeps i (Nat.lt_of_lt_of_le hi hfirst.grows)).trans (hfirst.keeps i hi)
  | .cons h _, _, _, .last hstmt hends, hs => by
    -- control does not go through what the binder takes for an end
    have hcompletes := (h.crossed hstmt rfl hs).completes
    rw [hends] at hcompletes
    cases hcompletes

end

theorem BindsAll.head {stmt : Source.Stmt} {x : Stmt} {rest : List Source.Stmt} {bs : List Stmt}
    {completes : Bool} (h : BindsAll m s (stmt :: rest) (x :: bs) completes) :
    ∃ b, Binds m s stmt b ∧ b.stmt = x := by
  cases h with
  | cons h => exact ⟨_, h, rfl⟩
  | last h => exact ⟨_, h, rfl⟩

/-- Wherever control arrives, the binder went on with what is left, in a scope that follows. -/
theorem Arrives.exists_follows {stmts left : List Source.Stmt} {bs leftBound : List Stmt}
    (h : Arrives μ stmts bs μ' left leftBound) {completes : Bool}
    (hbinds : BindsAll m s stmts bs completes)
    (hs : s₀.Follows s μ) :
    ∃ s' completes', BindsAll m s' left leftBound completes' ∧ s₀.Follows s' μ' := by
  induction h generalizing s completes with
  | here => exact ⟨s, completes, hbinds, hs⟩
  | after h _ ih =>
    cases hbinds with
    | cons hstmt _ hstmts => exact ih hstmts (h.crossed hstmt rfl hs).follows
    -- control does not come behind a statement that the binder takes for an end
    | last hstmt hends =>
      have hcompletes := (h.crossed hstmt rfl hs).completes
      rw [hends] at hcompletes
      cases hcompletes
  | ifThen _ _ _ _ _ _ ih =>
    obtain ⟨b, hstmt, hx⟩ := hbinds.head
    cases hstmt with
    | ifThen _ _ hyes =>
      cases hx
      exact ih hyes.branch hs
  | yes _ _ _ _ _ _ _ _ ih =>
    obtain ⟨b, hstmt, hx⟩ := hbinds.head
    cases hstmt with
    | ifElse _ _ hyes =>
      cases hx
      exact ih hyes.branch hs
  | no _ _ _ _ _ _ _ _ ih =>
    obtain ⟨b, hstmt, hx⟩ := hbinds.head
    cases hstmt with
    | ifElse _ _ _ _ hno =>
      cases hx
      exact ih hno.branch hs
  | block _ _ _ _ ih =>
    obtain ⟨b, hstmt, hx⟩ := hbinds.head
    cases hstmt with
    | block hstmts =>
      cases hx
      exact ih hstmts hs

section

variable {named : Source.TypeName → FieldType → Prop}

/-- What a statement is bound to conforms to it. -/
theorem Binds.conforms {stmt : Source.Stmt} {b : Bound} (h : Binds m s stmt b) (hs : s₀.Follows s μ)
    (hnamed : ∀ type t, Yields m (s₀.resolveType type) (.ok t) → named type t) :
    μ.Conforms named stmt b.stmt := by
  have hloads {e : Source.Expr} {locals : List (UInt16 × FieldType)} (h : Spells μ.scope e locals) :
      μ.Loads e locals := hs.sound.loads h
  cases h with
  | store _ ht hv hx _ line =>
    rw [hs.ofMethod.resolveType] at ht
    exact .store (hnamed _ _ ht) (hloads (hx.locals ▸ hv.spells hs.shows)) _ line _
  | readField hread ht hv _ check line =>
    rw [hs.ofMethod.resolveType] at ht
    exact .readField (hnamed _ _ ht) (hloads (spells_fieldRead hread (hv.spells hs.shows))) _ line _
      _ check
  | ifThen hc _ _ line => exact .ifThen (hloads (hc.spells hs.shows)) _ line _
  | ifElse hc _ _ _ _ line => exact .ifElse (hloads (hc.spells hs.shows)) _ _ line _ _
  | ret line => exact .ret line
  | retValue hv hx t line =>
    exact .retValue (hloads (hx.locals ▸ hv.spells hs.shows)) line t
  | call hv line => exact .call (hloads (hv.spells hs.shows)) line _
  | block _ endLine => exact .block _ endLine _

theorem BindsAll.faces {stmts : List Source.Stmt} {bs : List Stmt} {completes : Bool}
    (h : BindsAll m s stmts bs completes) (hs : s₀.Follows s μ)
    (hnamed : ∀ type t, Yields m (s₀.resolveType type) (.ok t) → named type t) :
    μ.Faces named stmts bs := by
  cases h with
  | nil => exact .done
  | cons h hcompletes _ => exact .next (h.conforms hs hnamed) (h.crosses hcompletes μ) _ _
  | last h _ => exact .last (h.conforms hs hnamed)

end

/-! ## 6. Methods -/

/-- Parameters are passed where the binder expects them. -/
theorem Opens.follows {s s' : Scope} {params : List Source.Param} {types : List FieldType}
    (h : Opens m s params types s') : ∀ {μ : Moment}, s₀.Follows s μ →
      s₀.Follows s' (μ.pass s.nextSlot (params.zip types)) ∧
        List.Forall₂ (fun p t => Yields m (s₀.resolveType p.type) (.ok t)) params types := by
  induction h with
  | nil => exact fun hs => ⟨hs, .nil⟩
  | cons ht hname _ ih =>
    intro μ hs
    rw [hs.ofMethod.resolveType] at ht
    obtain ⟨hfollows, htypes⟩ := ih (hs.declare hname)
    exact ⟨hfollows, .cons ht htypes⟩

theorem sound_empty : Moment.empty.Sound := ⟨.nil, List.forall_mem_nil _⟩

/-- The receiver is there at the start of an instance method. -/
theorem follows_receiver (imports : List String) (self : Summary) (ret : Option FieldType) :
    (startScope imports self false ret).Follows (startScope imports self false ret)
      (Moment.empty.declare none 0 (.object self.name)) := by
  refine ⟨⟨rfl, rfl, rfl⟩, ⟨rfl, fun _ => List.mem_singleton_self _, ?_⟩, ?_, ?_, ⟨?_, ?_⟩⟩
  · exact List.forall_mem_singleton.mpr fun _ => ⟨rfl, rfl⟩
  · exact List.forall_mem_singleton.mpr (Nat.le_refl 1)
  · exact (by decide : 1 ≤ 65535)
  · exact List.pairwise_singleton _ _
  · exact List.forall_mem_singleton.mpr fun i hi => if_pos hi

theorem follows_nothing (imports : List String) (self : Summary) (ret : Option FieldType) :
    (startScope imports self true ret).Follows (startScope imports self true ret) Moment.empty := by
  refine ⟨⟨rfl, rfl, rfl⟩, ⟨rfl, fun h => (by cases h), ?_⟩, ?_, Nat.zero_le _, sound_empty⟩
  · exact List.forall_mem_nil _
  · exact List.forall_mem_nil _

/-- The binder starts the body in a scope that follows the start of the method. -/
theorem Opens.follows_start {imports : List String} {self : Summary} {isStatic : Bool}
    {ret : Option FieldType} {params : List Source.Param} {types : List FieldType}
    (h : Opens m (startScope imports self isStatic ret) params types s) :
    (startScope imports self isStatic ret).Follows s
    (Moment.start self.name isStatic (params.zip types)) ∧
      List.Forall₂
        (fun p t => Yields m ((startScope imports self isStatic ret).resolveType p.type) (.ok t))
        params types := by
  cases isStatic with
  | true => exact h.follows (follows_nothing imports self ret)
  | false => exact h.follows (follows_receiver imports self ret)

/-- The type that a type name stands for in methods of the class `self`. -/
def Named (r : Resolver) (imports : List String) (self : Summary) (type : Source.TypeName)
    (t : FieldType) : Prop :=
  (((startScope imports self true none).resolveType type).run.run r).1 = .ok t

theorem named_of_yields {r : Resolver} {imports : List String} {self : Summary} {isStatic : Bool}
    {ret : Option FieldType} {type : Source.TypeName} {t : FieldType}
    (h : Yields r.meaning ((startScope imports self isStatic ret).resolveType type) (.ok t)) :
    Named r imports self type t := h.result rfl

/-- **The slots of variables.**  At every point of a bound method, on every way there, each variable
in scope has slots of its own, all of which were written for it last.  What the next statement is
bound to loads those variables, by their slots and their types, that the source uses there; a local
that it declares is of the declared type.  There is a receiver to use in instance methods only.
Control can go through every statement that others follow, so there is a way to every statement. -/
theorem variables_held {r r' : Resolver} {imports : List String} {self : Summary}
    {d : Source.MethodDecl} {method : Method} (hr : r.Reached)
    (h : (bindMethod imports self d).run.run r = (.ok method, r')) :
    List.Forall₂ (fun p t => Named r imports self p.type t) d.params method.type.params ∧
    ∀ μ stmts bs,
      Arrives (.start self.name method.flags.isStatic (d.params.zip method.type.params)) d.body
        method.body μ stmts bs →
      μ.Sound ∧ μ.Faces (Named r imports self) stmts bs ∧
      ((∃ v, IsReceiver μ.scope v) ↔ method.flags.isStatic = false) := by
  obtain ⟨-, scope, hbinds⟩ := under_bindMethod_binds hr.keyed imports self d r method r' rfl h
  obtain ⟨hstart, htypes⟩ := hbinds.params.follows_start
  refine ⟨htypes.imp fun _ _ => named_of_yields, fun μ stmts bs harrives => ?_⟩
  obtain ⟨s, _, hleft, hs⟩ := harrives.exists_follows hbinds.body hstart
  exact ⟨hs.sound, hleft.faces hs fun _ _ => named_of_yields, hs.exists_receiver_iff⟩

/-- A method whose locals share slots, with the body
`if (b == 1) { int c = b; } else { long c = a; } int d = b;`. -/
def sharing : Source.MethodDecl :=
  let int : Source.TypeName := ⟨.primitive .int, 0, 1⟩
  let long : Source.TypeName := ⟨.primitive .long, 0, 1⟩
  { modifiers := [], returnType := ⟨.void, 0, 1⟩, name := "t",
    params := [⟨long, "a", 1⟩, ⟨int, "b", 1⟩],
    body := [.ifElse (.binary .eq (.name "b" 1) (.literal (.int 1) 1) 1)
        (.block [.declare int "c" (.name "b" 1) 1] 1) (.block [.declare long "c" (.name "a" 1) 1] 1)
        1,
      .declare int "d" (.name "b" 1) 1],
    endLine := 1, line := 1 }

def sharingBound : Method :=
  ⟨⟨0⟩, "t", ⟨[.long, .int], none⟩,
    [.ifElse (.ints .eq (.local 3 .int) (.int 1)) [.store 4 .int (.local 3 .int)]
      [.store 4 .long (.local 1 .long)], .store 4 .int (.local 3 .int)], true⟩

/-- After the second branch and the last declaration, four variables are in scope. -/
theorem variables_held_sharing :
    (bindMethod [] (classOf "A" none [] []) sharing).run.run {} = (.ok sharingBound, {}) ∧
    ∃ μ, Arrives
    (.start "A" false (sharing.params.zip [.long, .int])) sharing.body sharingBound.body μ [] [] ∧
      μ.scope.map Variable.node = [(4, .int), (3, .int), (1, .long), (0, .object "A")] ∧
        μ.Sound := by
  have hrun : (bindMethod [] (classOf "A" none [] []) sharing).run.run {} =
    (.ok sharingBound, {}) := by rfl
  refine ⟨hrun, ?_⟩
  have hbranch (μ : Moment) : Crosses μ sharing.body[0] sharingBound.body[0] _ :=
    .no (.cons (.store ..) (.nil _)) ..
  have hlast (μ : Moment) : Crosses μ sharing.body[1] sharingBound.body[1] _ := .store ..
  have harrives :
      Arrives (.start "A" false (sharing.params.zip [.long, .int])) sharing.body sharingBound.body _
        [] [] :=
    .after (hbranch _) (.after (hlast _) (.here ..))
  exact ⟨_, harrives, rfl, ((variables_held (.fresh []) hrun).2 _ _ _ harrives).1⟩

end MethodGraft.Typed
