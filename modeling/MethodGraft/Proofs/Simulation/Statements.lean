import MethodGraft.Proofs.Simulation.Conditions
import MethodGraft.Proofs.Typed.Layout

/-!
# Proofs.Simulation.Statements — code for statements

Between statements the operand stack is empty.  Code for a statement goes on behind itself with
locals that agree with those of the evaluation, or ends the method as the evaluation does.
-/

namespace MethodGraft.Direct

open ClassFile Code Typed Machine

variable {env : Environment} {P : Program} {layout layout' : Layout} {p q r n : Nat}

def Continues (layout : Layout) (q : Nat) (onward : Prop) (_ : Unit) (m : Memory) (d : Config) :
    Prop :=
  onward ∧ ∃ μ, Agree layout m.locals μ ∧ d = .running q [] μ m.past

/-- The code from `p` to `q` executes the statement, which leads to the layout `layout'`. -/
def Executes (env : Environment) (P : Program) (layout layout' : Layout) (p q : Nat) (s : Stmt)
    (onward : Prop) : Prop :=
  ∀ (m : Memory) (μ : Slots Machine.Value), Agree layout m.locals μ →
    Follows env P (stmt env s) m (.running p [] μ m.past) Ends (Continues layout' q onward)

def ExecutesAll (env : Environment) (P : Program) (layout : Layout) (p q : Nat) (ss : List Stmt)
    (onward : Prop) : Prop :=
  ∀ (m : Memory) (μ : Slots Machine.Value), Agree layout m.locals μ →
    Follows env P (stmts env ss) m (.running p [] μ m.past) Ends (Continues layout q onward)

/-! ## 1. Locals -/

theorem Agree.of_prefix {σ μ : Slots Machine.Value} (h : Agree layout' σ μ)
    (hle : layout <+: layout') : Agree layout σ μ := by
  exact fun i k hi => h i k (getElem?_mono hle hi)

/-- A declaration extends the layout on both sides alike. -/
theorem Agree.declare {σ μ : Slots Machine.Value} (h : Agree layout σ μ) (hpacked : Packed layout)
    {v : Machine.Value} {t : FieldType} (hv : v.kind = .ofType t) :
    Agree (layout ++ layoutOf t) (fun i => if i = layout.length then some v else σ i)
      (μ.store (fun v => v.kind.isWide) layout.length v) := by
  intro i k hi
  by_cases hlt : i < layout.length
  · rw [List.getElem?_append_left hlt] at hi
    obtain ⟨w, hσ, hμ, hk⟩ := h i k hi
    have hne : i ≠ layout.length := Nat.ne_of_lt hlt
    refine ⟨w, (if_neg hne).trans hσ, ?_, hk⟩
    rw [Slots.store_eq_some hne]
    refine ⟨hμ, fun hnext => by omega, fun hlast => ?_⟩
    have hnext := hpacked i k hi (hk ▸ hlast.2)
    rw [hlast.1, List.getElem?_eq_none (Nat.le_refl _)] at hnext
    cases hnext
  · rw [List.getElem?_append_right (by omega)] at hi
    have hi' : i = layout.length ∧ k = .ofType t := by
      cases hd : i - layout.length with
      | zero =>
        rw [hd] at hi
        have hhead : (layoutOf t)[0]? = some (some (.ofType t)) := by cases t <;> rfl
        rw [hhead] at hi
        cases hi
        exact ⟨by omega, rfl⟩
      | succ j =>
        -- the second slot of a wide value holds nothing
        rw [hd] at hi
        cases t <;> cases j <;> cases hi
    obtain ⟨rfl, rfl⟩ := hi'
    exact ⟨v, if_pos rfl, Slots.store_self _ _ _ _, hv⟩

/-- A slot of the layout gets another reference. -/
theorem Agree.replace {σ μ : Slots Machine.Value} (h : Agree layout σ μ) (hpacked : Packed layout)
    {slot : Nat} (hslot : layout[slot]? = some (some .reference)) {v : Machine.Value}
    (hv : v.kind = .reference) :
    Agree layout (fun i => if i = slot then some v else σ i)
      (μ.store (fun v => v.kind.isWide) slot v) := by
  intro i k hi
  by_cases heq : i = slot
  · subst heq
    rw [hslot] at hi
    cases hi
    exact ⟨v, if_pos rfl, Slots.store_self _ _ _ _, hv⟩
  · obtain ⟨w, hσ, hμ, hk⟩ := h i k hi
    refine ⟨w, (if_neg heq).trans hσ, ?_, hk⟩
    rw [Slots.store_eq_some heq]
    refine ⟨hμ, ?_, ?_⟩
    · rw [hv]
      simp [ValueKind.isWide]
    · rintro ⟨hlast, hwide⟩
      have hnext := hpacked i k hi (hk ▸ hwide)
      rw [hlast, hslot] at hnext
      cases hnext

theorem Executes.store {e : Expr} {t : FieldType} {slot : UInt16}
    (he : Computes env P layout p q e) (hk : e.kind = some (.ofType t))
    (hslot : slot.toNat = layout.length) (hpacked : Packed layout)
    (hfetch : P.fetch q = some (.store (.ofType t) slot, n)) :
    Executes env P layout (layout ++ layoutOf t) p (q + n) (.store slot t e) True := by
  intro m μ hagree
  refine (he m μ [] hagree).bind fun v m₁ d hv => ?_
  have hvk := hv.kind_eq _ hk
  rw [hv.config, hk]
  rw [← hvk] at hfetch
  have hrun : Reaches env P (.running q [v] μ m₁.past)
      (.running (q + n) [] (μ.store (fun v => v.kind.isWide) slot.toNat v) m₁.past) :=
    reaches_execute hfetch (execute_of_compute compute?_store)
  refine .ofRun rfl hrun ⟨trivial, _, ?_, rfl⟩
  rw [hslot]
  have hagree' : Agree layout m₁.locals μ := hv.locals_eq ▸ hagree
  exact hagree'.declare hpacked hvk

/-! ## 2. Reading fields by name -/

/-- The code from `p` to `q` replaces an object by the value of its field of this name. -/
def Reflects (P : Program) (p q : Nat) (field : String) : Prop :=
  ∃ p₁ p₂ p₃ p₄ p₅ p₆ p₇ p₈,
    Doubles P p p₁ ∧
    Calls P p₁ p₂ ⟨.virtual, "java/lang/Object", false, "getClass",
      ⟨[], some (.object "java/lang/Class")⟩⟩ ∧
    (∀ stack, Does P p₂ p₃ stack (.reference (.text field) :: stack)) ∧
    Calls P p₃ p₄ ⟨.virtual, "java/lang/Class", false, "getDeclaredField",
      ⟨[.string], some (.object "java/lang/reflect/Field")⟩⟩ ∧
    Doubles P p₄ p₅ ∧
    (∀ stack, Does P p₅ p₆ stack (.int 1 :: stack)) ∧
    Calls P p₆ p₇ ⟨.virtual, "java/lang/reflect/Field", false, "setAccessible",
      ⟨[.boolean], none⟩⟩ ∧
    (∀ v w stack, v.kind = .reference → w.kind = .reference →
      Does P p₇ p₈ (v :: w :: stack) (w :: v :: stack)) ∧
    Calls P p₈ q ⟨.virtual, "java/lang/reflect/Field", false, "get",
      ⟨[.object "java/lang/Object"], some (.object "java/lang/Object")⟩⟩ ∧
    p ≤ p₁ ∧ p₂ ≤ p₃ ∧ p₄ ≤ p₆ ∧ p₇ ≤ p₈

theorem Raises.sub {p' q' : Nat} {locals before : Slots Machine.Value} (hp : p ≤ p') (hq : q' ≤ q)
    (e : Exit) (m : Memory) (d : Config) (h : Raises p' q' locals before e m d) :
    ∃ d', Reaches env P d d' ∧ Raises p q locals before e m d' := by
  refine ⟨d, .refl d, ?_⟩
  cases e with
  | thrown e =>
    obtain ⟨hlocals, pc, hle, hlt, hd⟩ := h
    exact ⟨hlocals, pc, Nat.le_trans hp hle, Nat.lt_of_lt_of_le hlt hq, hd⟩
  | returned | stuck => cases h

theorem Calls.le {c : Callee} (h : Calls P p q c) : p ≤ q := by
  obtain ⟨i, slots, n, -, rfl, -⟩ := h
  omega

theorem Reflects.le {field : String} (h : Reflects P p q field) : p ≤ q := by
  obtain ⟨p₁, p₂, p₃, p₄, p₅, p₆, p₇, p₈, -, hclass, -, hfind, -, -, haccess, -, hget, h₁, h₃, h₆,
    h₈⟩ := h
  have := hclass.le
  have := hfind.le
  have := haccess.le
  have := hget.le
  omega

theorem follows_reflected {field : String} (hcode : Reflects P p q field) {m : Memory}
    {μ : Slots Machine.Value} {object : Machine.Value} (hobject : object.kind = .reference)
    (stack : List Machine.Value) :
    Follows env P (reflected env field object) m (.running p (object :: stack) μ m.past)
      (Raises p q μ m.locals) (Pushed (some .reference) m q stack μ) := by
  obtain ⟨p₁, p₂, p₃, p₄, p₅, p₆, p₇, p₈, hdup, hclass, htext, hfind, hdup', hone, haccess, hswap,
    hget, h₁, h₃, h₆, h₈⟩ := hcode
  have := hclass.le
  have := hfind.le
  have := haccess.le
  have := hget.le
  -- the object is asked for its class, and the class for the field; between the calls the locals
  -- stay as they are
  refine .after (hdup object stack hobject env μ m.past) ?_
  refine ((follows_callOf env hclass (by simp) [] hobject rfl (object :: stack)).exits
    (Raises.sub h₁ (by omega))).bind fun type m₁ d htype => ?_
  rw [htype.config]
  refine .after (htext _ env μ m₁.past) ?_
  have hcall := follows_callOf env (m := m₁) (μ := μ) hfind (by simp)
    [.reference (.text field)] (htype.kind_eq _ rfl) rfl (object :: stack)
  rw [htype.locals_eq] at hcall
  refine (hcall.exits (Raises.sub (by omega) (by omega))).bind fun found m₂ d hfound => ?_
  have hfk := hfound.kind_eq _ rfl
  have hlocals₂ := hfound.locals_eq.trans htype.locals_eq
  rw [hfound.config]
  refine .after ((hdup' found (object :: stack) hfk env μ m₂.past).trans (hone _ env μ m₂.past)) ?_
  have hcall := follows_callOf env (m := m₂) (μ := μ) haccess (by simp) [.int 1] hfk rfl
    (found :: object :: stack)
  rw [hlocals₂] at hcall
  refine (hcall.exits (Raises.sub (by omega) (by omega))).bind fun w m₃ d hw => ?_
  have hlocals₃ := hw.locals_eq.trans hlocals₂
  rw [hw.config]
  -- the field is opened, and stands below the object again when it is read
  refine .after (hswap found object stack hfk hobject env μ m₃.past) ?_
  have hcall := follows_callOf env (m := m₃) (μ := μ) hget (by simp) [object] hfk
    (by rw [List.map_singleton, hobject]; rfl) stack
  rw [hlocals₃] at hcall
  refine (hcall.exits (Raises.sub (by omega) (Nat.le_refl q))).mono fun v m₄ d hv => ?_
  exact ⟨hv.locals_eq.trans hlocals₃, hv.kind_eq, hv.config⟩

/-- The code from `p` to `q` checks the class of the top of the stack, if there is one to check. -/
def Casts (P : Program) (p q : Nat) (cast : Option String) : Prop :=
  match cast with
  | none => p = q
  | some name => ∃ i n, 0 < n ∧ q = p + n ∧ P.fetch p = some (.checkcast i, n) ∧
      P.pool.class? i = some name

theorem Casts.le {cast : Option String} (h : Casts P p q cast) : p ≤ q := by
  cases cast with
  | none => exact Nat.le_of_eq h
  | some name =>
    obtain ⟨i, n, -, rfl, -⟩ := h
    omega

theorem follows_casted {cast : Option String} (hcode : Casts P p q cast) {m : Memory}
    {μ : Slots Machine.Value} {v : Machine.Value} (hv : v.kind = .reference)
    (stack : List Machine.Value) :
    Follows env P (casted env cast v) m (.running p (v :: stack) μ m.past)
      (Raises p q μ m.locals) (Pushed (some .reference) m q stack μ) := by
  cases cast with
  | none =>
    cases hcode
    refine .ofPure ⟨rfl, ?_, rfl⟩
    rintro k ⟨⟩
    exact hv
  | some name =>
    obtain ⟨i, n, hn, rfl, hfetch, hi⟩ := hcode
    cases v <;> cases hv
    rename_i r
    exact follows_perform hfetch hn (a := .checkcast name (.reference r)) (by simp [action?, hi])

/-- The one handler that covers the code from `p` to `q` is for exceptions of the class
`java/lang/Exception`. -/
structure Guards (P : Program) (p q : Nat) (h : ExceptionHandler) : Prop where
  mem : h ∈ P.handlers
  start_le : h.startPc.toNat ≤ p
  le_end : q ≤ h.endPc.toNat
  caught : h.catchType ≠ 0 ∧ P.pool.class? h.catchType = some "java/lang/Exception"
  others : ∀ h' ∈ P.handlers, h' = h ∨ h'.endPc.toNat ≤ p ∨ q ≤ h'.startPc.toNat

theorem Guards.find (env : Environment) {h : ExceptionHandler} (hg : Guards P p q h) {pc : Nat}
    (hle : p ≤ pc) (hlt : pc < q) (e : Reference) :
    P.handlers.find? (handles env P.pool pc e) =
      if env.isInstance e "java/lang/Exception" then some h else none := by
  have hstart := hg.start_le
  have hend := hg.le_end
  have hself : handles env P.pool pc e h = env.isInstance e "java/lang/Exception" := by
    have h0 : (h.catchType == 0) = false := by simpa using hg.caught.1
    simp only [handles, h0, hg.caught.2, Option.any_some, Bool.false_or]
    simp
    omega
  -- no other handler reaches between `p` and `q`
  have hother : ∀ h' ∈ P.handlers, handles env P.pool pc e h' = true → h' = h := by
    intro h' hh' hcover
    rcases hg.others h' hh' with heq | hbefore | hafter
    · exact heq
    · simp [handles] at hcover
      omega
    · simp [handles] at hcover
      omega
  split
  next hcatch =>
    obtain ⟨h', hfind⟩ := Option.isSome_iff_exists.mp
      (List.find?_isSome.mpr ⟨h, hg.mem, hself.trans hcatch⟩)
    have hh' := List.find?_some hfind
    rw [hfind, hother h' (List.mem_of_find?_eq_some hfind) hh']
  next hcatch =>
    rw [List.find?_eq_none]
    intro h' hh' hcover
    rw [hother h' hh' hcover, hself] at hcover
    exact hcatch hcover

/-- Evaluation goes on after an exception that the handler takes. -/
theorem follows_recover {x : Evaluation Unit} {m : Memory} {c : Config}
    {μ : Slots Machine.Value} {h : ExceptionHandler} {Q : Unit → Memory → Config → Prop}
    (hg : Guards P p q h) (hx : Follows env P x m c (Raises p q μ m.locals) Q)
    (hcaught : ∀ e m', m'.locals = m.locals →
      ∃ d, Reaches env P (.running h.handlerPc.toNat [.reference e] μ m'.past) d ∧ Q () m' d) :
    Follows env P (recover env x) m c Ends Q := by
  unfold Follows at hx ⊢
  unfold recover
  rw [run_tryCatch]
  generalize x.run.run m = out at hx ⊢
  obtain ⟨o, m'⟩ := out
  -- in the range there are exceptions only: no return, and nothing that does not end
  rcases o with (e | v | _) | ⟨⟩
  · obtain ⟨d, hd, hlocals, pc, hle, hlt, rfl⟩ := hx
    have hfind := hg.find env hle hlt e
    dsimp only
    split at hfind
    next hcatch =>
      rw [if_pos hcatch]
      obtain ⟨d', hd', hQ⟩ := hcaught e m' hlocals
      refine ⟨d', (hd.trans (.single ?_)).trans hd', hQ⟩
      simp only [step, hfind]
    next hcatch =>
      rw [if_neg hcatch]
      refine ⟨.ended (.thrown e) m'.past, hd.trans (.single ?_), rfl⟩
      simp only [step, hfind]
  · obtain ⟨d, -, hfalse⟩ := hx
    cases hfalse
  · obtain ⟨d, -, hfalse⟩ := hx
    cases hfalse
  · exact hx

/-- A reference goes from the stack to a slot on both sides. -/
theorem follows_storeReference {slot : UInt16} {m : Memory} {μ : Slots Machine.Value}
    {v : Machine.Value} (hfetch : P.fetch p = some (.store .reference slot, n))
    (hv : v.kind = .reference) {E : Exit → Memory → Config → Prop} :
    Follows env P (writeLocal slot v) m (.running p [v] μ m.past) E fun _ m' d =>
      m'.locals = (fun i => if i = slot.toNat then some v else m.locals i) ∧
        d = .running (p + n) [] (μ.store (fun v => v.kind.isWide) slot.toNat v) m'.past :=
  .ofRun rfl (reaches_execute hfetch (execute_of_compute (hv ▸ compute?_store))) ⟨rfl, rfl⟩

/-- The slot holds null before the field is read, and still does if that throws. -/
theorem Executes.readField {slot : UInt16} {t : FieldType} {target : Expr} {field : String}
    {cast : Option String} {l : Label} {h : ExceptionHandler} {p₁ p₂ p₃ p₄ n₁ n₂ n₃ n₄ : Nat}
    (ht : ValueKind.ofType t = .reference) (hslot : slot.toNat = layout.length)
    (hpacked : Packed layout) (hpacked' : Packed (layout ++ layoutOf t))
    (hnull : ∀ stack, Does P p p₁ stack (.reference .null :: stack))
    (hstore : P.fetch p₁ = some (.store .reference slot, n₁))
    (htarget : Computes env P (layout ++ layoutOf t) (p₁ + n₁) p₂ target)
    (hk : target.kind = some .reference)
    (hreflect : Reflects P p₂ p₃ field) (hcast : Casts P p₃ p₄ cast)
    (hstore' : P.fetch p₄ = some (.store .reference slot, n₂))
    (hgoto : P.fetch (p₄ + n₂) = some (.goto l, n₃)) (hl : l.index = q)
    (hg : Guards P p₂ p₄ h) (hpop : P.fetch h.handlerPc.toNat = some (.pop, n₄))
    (hq : h.handlerPc.toNat + n₄ = q) :
    Executes env P layout (layout ++ layoutOf t) p q (.readField slot t target field cast)
    True := by
  intro m μ hagree
  have hlast : (layout ++ layoutOf t)[slot.toNat]? = some (some .reference) := by
    rw [hslot, List.getElem?_append_right (Nat.le_refl _), Nat.sub_self, ← ht]
    cases t <;> rfl
  refine .after (hnull [] env μ m.past) ((follows_storeReference hstore rfl).bind ?_)
  rintro - m₁ d ⟨hm₁, rfl⟩
  -- from here on the slot holds a reference on both sides, null to begin with
  generalize hμ₁ : μ.store (fun v => v.kind.isWide) slot.toNat (.reference .null) = μ₁
  have hagree₁ : Agree (layout ++ layoutOf t) m₁.locals μ₁ := by
    rw [hm₁, ← hμ₁, hslot]
    exact hagree.declare hpacked ht.symm
  refine (htarget m₁ μ₁ [] hagree₁).bind fun object m₂ d hobject => ?_
  rw [hobject.config, hk]
  have hagree₂ : Agree (layout ++ layoutOf t) m₂.locals μ₁ := hobject.locals_eq ▸ hagree₁
  refine follows_recover hg (?_ : Follows _ _ _ _ _ (Raises p₂ p₄ μ₁ m₂.locals) _) ?_
  · -- the field is read and stored, or an exception is raised on the way
    refine ((follows_reflected hreflect (hobject.kind_eq _ hk) []).exits
      (Raises.sub (Nat.le_refl _) hcast.le)).bind fun v m₃ d hv => ?_
    rw [hv.config, ← hv.locals_eq]
    refine ((follows_casted hcast (hv.kind_eq _ rfl) []).exits
      (Raises.sub hreflect.le (Nat.le_refl _))).bind fun w m₄ d hw => ?_
    rw [hw.config]
    refine (follows_storeReference hstore' (hw.kind_eq _ rfl)).andThen ?_
    rintro - m₅ d ⟨hm₅, rfl⟩
    refine ⟨_, reaches_execute hgoto rfl, trivial, _, ?_, by rw [hl]⟩
    rw [hm₅, hw.locals_eq, hv.locals_eq]
    exact hagree₂.replace hpacked' hlast (hw.kind_eq _ rfl)
  -- the handler drops the exception; the slot still holds null
  · intro e m₃ hlocals
    refine ⟨.running q [] μ₁ m₃.past, ?_, trivial, μ₁, hlocals ▸ hagree₂, rfl⟩
    rw [← hq]
    exact reaches_execute hpop (execute_of_compute (compute?_pop rfl))

/-! ## 3. Other statements -/

variable {onward onward' : Prop}

/-- More may be allowed than happens. -/
theorem Executes.mono {s : Stmt} (h : Executes env P layout layout' p q s onward)
    (ho : onward → onward') : Executes env P layout layout' p q s onward' :=
  fun m μ hagree => (h m μ hagree).mono fun _ _ _ hd => ⟨ho hd.1, hd.2⟩

theorem ExecutesAll.mono {ss : List Stmt} (h : ExecutesAll env P layout p q ss onward)
    (ho : onward → onward') : ExecutesAll env P layout p q ss onward' :=
  fun m μ hagree => (h m μ hagree).mono fun _ _ _ hd => ⟨ho hd.1, hd.2⟩

theorem Executes.ret (hfetch : P.fetch p = some (.ret none, n)) :
    Executes env P layout layout p (p + n) .ret False := by
  intro m μ _
  exact .after (reaches_execute hfetch rfl) (.ofThrow rfl)

theorem Executes.retValue {e : Expr} {t : FieldType} (he : Computes env P layout p q e)
    (hk : e.kind = some (.ofType t)) (hfetch : P.fetch q = some (.ret (some (.ofType t)), n)) :
    Executes env P layout layout p (q + n) (.retValue e t) False := by
  intro m μ hagree
  refine (he m μ [] hagree).bind fun v m₁ d hv => ?_
  have hvk := hv.kind_eq _ hk
  rw [hv.config, hk]
  have hrun : Reaches env P (.running q [v] μ m₁.past) (.ended (.returned (some v)) m₁.past) :=
    reaches_execute hfetch (by simp [execute, hvk])
  exact .after hrun (.ofThrow rfl)

/-- The value of an expression statement is dropped, if it has one. -/
theorem Executes.discard {e : Expr} {hasValue : Bool} (he : Computes env P layout p q e)
    (hdrop : ∀ v, e.kind = some v.kind → Does P q r [v] []) (hnone : e.kind = none → q = r) :
    Executes env P layout layout p r (.discard e hasValue) True := by
  intro m μ hagree
  refine (he m μ [] hagree).bind fun v m₁ d hv => ?_
  rw [hv.config]
  have hagree₁ : Agree layout m₁.locals μ := hv.locals_eq ▸ hagree
  cases hk : e.kind with
  | none =>
    rw [hnone hk]
    exact .ofPure ⟨trivial, μ, hagree₁, rfl⟩
  | some k =>
    have hvk := hv.kind_eq k hk
    refine .after (hdrop v (hvk ▸ hk) env μ m₁.past) (.ofPure ⟨trivial, μ, hagree₁, rfl⟩)

theorem Executes.ifThen {c : Cond} {yes : List Stmt} {away onwardC : Prop}
    (hc : Jumps env P layout p q c false r away onwardC)
    (hyes : onwardC → ExecutesAll env P layout q r yes onward) :
    Executes env P layout layout p r (.ifThen c yes) (onward ∨ away) := by
  intro m μ hagree
  refine (hc m μ [] hagree).bind fun b m₁ d hb => ?_
  have hagree₁ : Agree layout m₁.locals μ := hb.locals_eq ▸ hagree
  rcases hb.config with ⟨hfalse, haway, hcfg⟩ | ⟨htrue, hon, hcfg⟩
  · rw [hfalse, hcfg]
    exact .ofPure ⟨.inr haway, μ, hagree₁, rfl⟩
  · have hb' : b = true := by simpa using htrue
    rw [hb', hcfg]
    refine (hyes hon m₁ μ hagree₁).mono ?_
    rintro - m₂ d ⟨honward, hrest⟩
    exact ⟨.inl honward, hrest⟩

theorem Executes.ifElse {c : Cond} {yes no : List Stmt} {away onwardC onwardY onwardN : Prop}
    {l : Label} {q' target : Nat} (hc : Jumps env P layout p q c false target away onwardC)
    (hyes : onwardC → ExecutesAll env P layout q q' yes onwardY)
    (hgoto : onwardC → onwardY → P.fetch q' = some (.goto l, n) ∧ l.index = r)
    (hno : away → ExecutesAll env P layout target r no onwardN) :
    Executes env P layout layout p r (.ifElse c yes no)
      ((onwardC ∧ onwardY) ∨ (away ∧ onwardN)) := by
  intro m μ hagree
  refine (hc m μ [] hagree).bind fun b m₁ d hb => ?_
  have hagree₁ : Agree layout m₁.locals μ := hb.locals_eq ▸ hagree
  rcases hb.config with ⟨hfalse, haway, hcfg⟩ | ⟨htrue, hon, hcfg⟩
  · rw [hfalse, hcfg]
    refine (hno haway m₁ μ hagree₁).mono ?_
    rintro - m₂ d ⟨honward, hrest⟩
    exact ⟨.inr ⟨haway, honward⟩, hrest⟩
  · have hb' : b = true := by simpa using htrue
    rw [hb', hcfg]
    refine (hyes hon m₁ μ hagree₁).andThen ?_
    rintro - m₂ d ⟨honward, μ', hagree', rfl⟩
    obtain ⟨hfetch, hl⟩ := hgoto hon honward
    exact ⟨_, reaches_execute hfetch rfl, .inl ⟨hon, honward⟩, μ', hagree', by rw [hl]⟩

theorem Executes.block {body : List Stmt} (hbody : ExecutesAll env P layout p q body onward) :
    Executes env P layout layout p q (.block body) onward := hbody

theorem ExecutesAll.nil : ExecutesAll env P layout p p [] True :=
  fun _ μ hagree => .ofPure ⟨trivial, μ, hagree, rfl⟩

/-- Nothing need stand behind a statement after which control does not go on. -/
theorem ExecutesAll.cons {s : Stmt} {ss : List Stmt} {onwardS : Prop}
    (hs : Executes env P layout layout' p q s onwardS) (hle : layout <+: layout')
    (hss : onwardS → ExecutesAll env P layout' q r ss onward) :
    ExecutesAll env P layout p r (s :: ss) (onwardS ∧ onward) := by
  intro m μ hagree
  refine (hs m μ hagree).bind ?_
  rintro - m₁ d ⟨hon, μ₁, hagree₁, rfl⟩
  refine (hss hon m₁ μ₁ hagree₁).mono ?_
  rintro - m₂ d ⟨honward, μ₂, hagree₂, rfl⟩
  exact ⟨⟨hon, honward⟩, μ₂, hagree₂.of_prefix hle, rfl⟩

end MethodGraft.Direct
