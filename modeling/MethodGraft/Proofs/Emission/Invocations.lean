import MethodGraft.Proofs.Assembly.Calls
import MethodGraft.Proofs.Emission.FieldReads
import MethodGraft.Proofs.Typed.References

/-!
# Proofs.Emission.Invocations — what the code of a tree invokes

Code for a tree invokes the methods that the tree names, those that join texts, and those that read
fields by name.  Nothing else that code generation adds is a call.
-/

namespace MethodGraft.Typed

open ClassFile Code Assembly Interning

/-! ## 1. Calls that join texts -/

def newTextCallee : Callee := ⟨.special, textBuilder, false, "<init>", ⟨[], none⟩⟩

def builtTextCallee : Callee := ⟨.virtual, textBuilder, false, "toString", ⟨[], some .string⟩⟩

mutual

def Expr.textCalls : Expr → List Callee
  | .int _ | .long _ | .str _ | .null | .local .. | .getStatic .. => []
  | .getField e _ _ _ | .checkcast _ e | .widen _ _ e => e.textCalls
  | .call _ args => Expr.allTextCalls args
  | .callOn receiver _ args => receiver.textCalls ++ Expr.allTextCalls args
  | .add _ l r => l.textCalls ++ r.textCalls
  | .concat parts => newTextCallee :: builtTextCallee :: Expr.partTextCalls parts
  | .condition c => c.textCalls

def Expr.allTextCalls : List Expr → List Callee
  | [] => []
  | e :: es => e.textCalls ++ Expr.allTextCalls es

def Expr.partTextCalls : List (Expr × FieldType) → List Callee
  | [] => []
  | (e, t) :: parts => appendCallee t :: (e.textCalls ++ Expr.partTextCalls parts)

def Cond.textCalls : Cond → List Callee
  | .const _ => []
  | .value e | .nullity _ e => e.textCalls
  | .not c => c.textCalls
  | .and a b | .or a b => a.textCalls ++ b.textCalls
  | .ints _ l r | .longs _ l r | .refs _ l r => l.textCalls ++ r.textCalls

end

mutual

def Stmt.textCalls : Stmt → List Callee
  | .store _ _ e | .retValue e _ | .discard e _ => e.textCalls
  | .readField _ _ target _ _ => target.textCalls
  | .ifThen c yes => c.textCalls ++ Stmt.allTextCalls yes
  | .ifElse c yes no => c.textCalls ++ (Stmt.allTextCalls yes ++ Stmt.allTextCalls no)
  | .ret => []
  | .block stmts => Stmt.allTextCalls stmts

def Stmt.allTextCalls : List Stmt → List Callee
  | [] => []
  | s :: stmts => s.textCalls ++ Stmt.allTextCalls stmts

end

def Method.textCalls (m : Method) : List Callee := Stmt.allTextCalls m.body

def reflectionCalls : List Callee :=
  let object := FieldType.object FieldType.rootClass
  let reflected := "java/lang/reflect/Field"
  [⟨.virtual, FieldType.rootClass, false, "getClass", ⟨[], some (.object "java/lang/Class")⟩⟩,
    ⟨.virtual, "java/lang/Class", false, "getDeclaredField", ⟨[.string], some (.object reflected)⟩⟩,
    ⟨.virtual, reflected, false, "setAccessible", ⟨[.boolean], none⟩⟩,
    ⟨.virtual, reflected, false, "get", ⟨[object], some object⟩⟩]

/-! ## 2. Bodies that invoke only some methods -/

def Callee.ref (c : Callee) : MemberRef :=
  ⟨c.owner, c.name, c.type.descriptor, c.onInterface || c.kind = .interface⟩

def Names (calls : List Callee) (pool : ConstantPool) (op : Operation) : Prop :=
  ∀ kind i slots, op = .invoke kind i slots →
    ∃ c ∈ calls, c.kind = kind ∧ pool.memberRef i = .ok c.ref

structure InvokesOnly (calls : List Callee) (a : Assembler) : Prop where
  pool : a.pool.WellFormed
  operations : ∀ op ∈ a.operations.toList, Names calls a.pool op

def Keeps {α : Type} (calls : List Callee) (x : Assembly α) : Prop :=
  ∀ a r b, InvokesOnly calls a → x.run.run a = (.ok r, b) → InvokesOnly calls b

variable {calls : List Callee} {α β : Type}

namespace Keeps

theorem ofPure (r : α) : Keeps calls (pure r) := by
  intro a r' b ha hrun
  cases hrun
  exact ha

theorem ofThrow (e : ClassFile.Error) : Keeps calls (throw e : Assembly α) := by
  intro a r b _ hrun
  cases hrun

theorem ofGet : Keeps calls (get : Assembly Assembler) := by
  intro a r b ha hrun
  cases hrun
  exact ha

theorem ofModify {f : Assembler → Assembler}
    (h : ∀ a, (f a).operations = a.operations ∧ (f a).pool = a.pool) :
    Keeps calls (modify f : Assembly PUnit) := by
  intro a r b ha hrun
  cases hrun
  refine ⟨(h a).2 ▸ ha.pool, fun op hop => ?_⟩
  show Names calls (f a).pool op
  rw [(h a).2]
  exact ha.operations op ((h a).1 ▸ hop)

theorem bind {x : Assembly α} {f : α → Assembly β} (hx : Keeps calls x)
    (hf : ∀ r, Keeps calls (f r)) : Keeps calls (x >>= f) := by
  intro a r b ha hrun
  obtain ⟨r', t, hxrun, hfrun⟩ := run_bind_eq_ok.mp hrun
  exact hf r' t r b (hx a r' t ha hxrun) hfrun

theorem ofIf {c : Prop} [Decidable c] {x y : Assembly α} (hx : Keeps calls x) (hy : Keeps calls y) :
    Keeps calls (if c then x else y) := by
  split
  · exact hx
  · exact hy

/-- A fault that is reported if `c` holds. -/
theorem refusing {c : Prop} [Decidable c] {e : ClassFile.Error} {f : β → Assembly α}
    {x : Assembly α} (hx : Keeps calls x) : Keeps calls (if c then throw e >>= f else x) := by
  intro a r b ha hrun
  exact hx a r b ha (run_refusing_eq_ok hrun).2

end Keeps

theorem Names.mono {p q : ConstantPool} (hle : p ≤ q) {op : Operation} (h : Names calls p op) :
    Names calls q op := by
  intro kind i slots hop
  obtain ⟨c, hc, hkind, href⟩ := h kind i slots hop
  exact ⟨c, hc, hkind, ConstantPool.memberRef_mono hle href⟩

def isInvoke : Operation → Bool
  | .invoke .. => true
  | _ => false

theorem keeps_intern {x : Interning α} (hx : Asks id x) : Keeps calls (intern x) := by
  intro a r b ha hrun
  have hle := hx.le a.pool
  have hwf := hx.wellFormed ha.pool
  obtain ⟨pool, hpool, rfl⟩ := Assembler.run_intern_eq_ok hrun
  rw [hpool] at hle hwf
  exact ⟨hwf, fun op hop => (ha.operations op hop).mono hle⟩

/-- An operation that is added is one of the body. -/
theorem keeps_emit_of {a b : Assembler} {op : Operation} (ha : InvokesOnly calls a)
    (hop : Names calls a.pool op) (hrun : (emit op).run.run a = (.ok ⟨⟩, b)) :
    InvokesOnly calls b := by
  obtain ⟨-, rfl⟩ := Assembler.run_emit_eq_ok hrun
  refine ⟨ha.pool, fun op' hop' => ?_⟩
  have hmem : op' ∈ a.operations.toList ++ [op] := by simpa using hop'
  rcases List.mem_append.mp hmem with hold | hnew
  · exact ha.operations op' hold
  · rw [List.mem_singleton.mp hnew]
    exact hop

theorem keeps_emit {op : Operation} (h : isInvoke op = false) : Keeps calls (emit op) := by
  intro a r b ha hrun
  refine keeps_emit_of ha (fun kind i slots hop => ?_) hrun
  rw [hop] at h
  cases h

/-! ## 3. Steps of the assembler -/

theorem keeps_push (t : VerificationType) : Keeps calls (push t) := .ofModify fun _ => ⟨rfl, rfl⟩

theorem keeps_pop : Keeps calls pop := by
  refine .bind .ofGet fun a => ?_
  split
  · exact .bind (.ofModify fun _ => ⟨rfl, rfl⟩) fun _ => .ofPure _
  · exact .bind .ofGet fun _ => .ofThrow _

theorem keeps_popMany (n : Nat) : Keeps calls (popMany n) := by
  induction n with
  | zero => exact .ofPure _
  | succ n ih => exact keeps_pop.bind fun _ => ih

theorem keeps_recordFrame (l : Label) (frame : Frame) : Keeps calls (recordFrame l frame) := by
  have hmodify (f : LabelState → LabelState) : Keeps calls (modifyLabel l f) :=
    .ofModify fun _ => ⟨rfl, rfl⟩
  refine (hmodify _).bind fun _ => .bind .ofGet fun a => ?_
  split
  · exact .ofIf (.ofThrow _) (.ofPure _)
  · exact hmodify _

theorem keeps_frameFor (l : Label) : Keeps calls (frameFor l) := .bind .ofGet fun _ => .ofPure _

theorem keeps_jump {op : Operation} (h : isInvoke op = false) (target : Label) :
    Keeps calls (jump op target) :=
  (keeps_emit h).bind fun _ =>
    (keeps_frameFor target).bind fun frame => keeps_recordFrame target frame

theorem keeps_newLabel : Keeps calls newLabel :=
  .bind .ofGet fun _ => .bind (.ofModify fun _ => ⟨rfl, rfl⟩) fun _ => .ofPure _

theorem keeps_place (l : Label) : Keeps calls (place l) := by
  have hmodify (f : LabelState → LabelState) : Keeps calls (modifyLabel l f) :=
    .ofModify fun _ => ⟨rfl, rfl⟩
  unfold place
  refine .bind .ofGet fun a => .refusing (.bind .ofGet fun b => (hmodify _).bind fun _ => ?_)
  refine .bind .ofGet fun c => .ofIf ?_ ?_
  · refine (keeps_frameFor l).bind fun frame => .bind (.ofModify fun _ => ⟨rfl, rfl⟩) fun _ => ?_
    split
    · exact .refusing (.ofModify fun _ => ⟨rfl, rfl⟩)
    · exact hmodify _
  · split
    · exact .bind (.ofModify fun _ => ⟨rfl, rfl⟩) fun _ => .ofModify fun _ => ⟨rfl, rfl⟩
    · exact .ofPure _

/-- An instruction that pushes a value. -/
theorem keeps_pushing {op : Operation} (h : isInvoke op = false) (t : VerificationType) :
    Keeps calls (do emit op; push t) := (keeps_emit h).bind fun _ => keeps_push t

/-- An instruction that takes a value and pushes another. -/
theorem keeps_replacing {op : Operation} (h : isInvoke op = false) (t : VerificationType) :
    Keeps calls (do emit op; let _ ← pop; push t) :=
  (keeps_emit h).bind fun _ => keeps_pop.bind fun _ => keeps_push t

/-- An instruction that takes two values and pushes another. -/
theorem keeps_joining {op : Operation} (h : isInvoke op = false) (t : VerificationType) :
    Keeps calls (do emit op; popMany 2; push t) :=
  (keeps_emit h).bind fun _ => (keeps_popMany 2).bind fun _ => keeps_push t

theorem keeps_loadConstant (index : UInt16) : Keeps calls (loadConstant index) := by
  unfold loadConstant
  split <;> exact keeps_emit rfl

theorem keeps_iconst (value : Int32) : Keeps calls (iconst value) := by
  unfold iconst
  dsimp only
  refine .ofIf (keeps_pushing rfl _) (.ofIf (keeps_pushing rfl _) (.ofIf (keeps_pushing rfl _) ?_))
  exact (keeps_intern (asks_request (.integer value))).bind fun _ =>
    (keeps_loadConstant _).bind fun _ => keeps_push _

theorem keeps_lconst (value : Int64) : Keeps calls (lconst value) := by
  unfold lconst
  dsimp only
  refine .ofIf (keeps_pushing rfl _) (.ofIf (keeps_pushing rfl _) ?_)
  exact (keeps_intern (asks_request (.long value))).bind fun _ => keeps_pushing rfl _

theorem keeps_ldcString (text : String) : Keeps calls (ldcString text) :=
  (keeps_intern (asks_request (.string text))).bind fun _ =>
    (keeps_loadConstant _).bind fun _ => keeps_push _

theorem keeps_load (slot : UInt16) (t : FieldType) : Keeps calls (load slot t) := by
  refine (keeps_emit rfl).bind fun _ => .bind .ofGet fun a => ?_
  split
  · exact .ofThrow _
  · exact .ofThrow _
  · exact keeps_push _

theorem keeps_store (slot : UInt16) (t : FieldType) : Keeps calls (store slot t) :=
  (keeps_emit rfl).bind fun _ => keeps_pop.bind fun _ => .ofModify fun _ => ⟨rfl, rfl⟩

theorem keeps_newObject (name : String) : Keeps calls (newObject name) :=
  (keeps_intern (asks_classRef name)).bind fun _ => .bind .ofGet fun _ => keeps_pushing rfl _

theorem keeps_checkcast (name : String) : Keeps calls (checkcast name) :=
  (keeps_intern (asks_classRef name)).bind fun _ => keeps_replacing rfl _

theorem keeps_dup : Keeps calls dup :=
  (keeps_emit rfl).bind fun _ =>
    keeps_pop.bind fun t => .refusing ((keeps_push t).bind fun _ => keeps_push t)

theorem keeps_popValue : Keeps calls popValue := by
  refine .bind .ofGet fun a => ?_
  split
  · exact .bind .ofGet fun _ => .ofThrow _
  next t _ _ =>
    have hemit : Keeps calls (emit (if t.isWide then .pop2 else .pop)) := by
      split <;> exact keeps_emit rfl
    exact hemit.bind fun _ => keeps_pop.bind fun _ => .ofPure _

theorem keeps_swap : Keeps calls swap :=
  (keeps_emit rfl).bind fun _ => keeps_pop.bind fun t => keeps_pop.bind fun u =>
    .refusing ((keeps_push t).bind fun _ => keeps_push u)

theorem keeps_add (t : FieldType) : Keeps calls (add t) := by
  unfold add
  split
  · exact keeps_joining rfl _
  · exact keeps_joining rfl _
  · exact .ofThrow _

theorem keeps_widen (source target : FieldType) : Keeps calls (Assembly.widen source target) := by
  unfold Assembly.widen
  refine .ofIf (.ofPure _) ?_
  split
  · exact keeps_replacing rfl _
  · exact .ofThrow _

theorem keeps_branch (test : Test) (target : Label) : Keeps calls (branch test target) := by
  have hrest : Keeps calls (do popMany test.operands; jump (.branch test target) target) :=
    (keeps_popMany _).bind fun _ => keeps_jump rfl target
  exact .bind .ofGet fun _ => .ofIf (.bind .ofGet fun _ => .bind (.ofThrow _) fun _ => hrest) hrest

theorem keeps_goto (target : Label) : Keeps calls (goto target) :=
  (keeps_jump rfl target).bind fun _ => .ofModify fun _ => ⟨rfl, rfl⟩

theorem keeps_returnValue (t : Option FieldType) : Keeps calls (returnValue t) := by
  refine (keeps_emit rfl).bind fun _ => .ofIf (keeps_pop.bind fun _ => ?_) ?_
  all_goals exact .ofModify fun _ => ⟨rfl, rfl⟩

theorem keeps_addHandler (start stop handler : Label) (catchType : Option String) :
    Keeps calls (addHandler start stop handler catchType) := by
  have hrest (index : UInt16) : Keeps calls (do
      let frame ← frameFor handler
      recordFrame handler { frame with stack := [.object (catchType.getD "java/lang/Throwable")] }
      modify fun a => { a with handlers := a.handlers.push ⟨start, stop, handler, index⟩ }) :=
    (keeps_frameFor handler).bind
      fun _ => (keeps_recordFrame handler _).bind fun _ => .ofModify fun _ => ⟨rfl, rfl⟩
  unfold addHandler
  split
  · exact (keeps_intern (asks_classRef _)).bind hrest
  · exact .bind (.ofPure _) hrest

/-- A call adds itself. -/
theorem keeps_invokeCallee {c : Callee} (hc : c ∈ calls) : Keeps calls (invokeCallee c) := by
  intro a r b ha hrun
  unfold invokeCallee invoke at hrun
  obtain ⟨index, d, hintern, hrun⟩ := run_bind_eq_ok.mp hrun
  have hd := keeps_intern (asks_request (.methodRef ..)) a index d ha hintern
  obtain ⟨pool, hpool, rfl⟩ := Assembler.run_intern_eq_ok hintern
  have hmeans :=
    (((Request.methodRef c.owner c.name c.type.descriptor _).meets ha.pool).of_ok hpool).2.2
  obtain ⟨-, hrun⟩ := run_refusing_eq_ok hrun
  obtain ⟨_, e, hemit, hrun⟩ := run_bind_eq_ok.mp hrun
  have he := keeps_emit_of hd (fun kind i slots hop => by
    cases hop
    exact ⟨c, hc, rfl, hmeans.2⟩) hemit
  -- what follows only moves values
  refine Keeps.bind (keeps_popMany _) (fun _ => ?_) e r b he hrun
  refine .ofIf
    (keeps_pop.bind fun receiver => .ofIf (.bind (.ofModify fun _ => ⟨rfl, rfl⟩) fun _ => ?_) ?_) ?_
  all_goals
    split
    · exact keeps_push _
    · exact .ofPure _

theorem keeps_getField (owner name : String) (t : FieldType) :
    Keeps calls (getField owner name t) :=
  (keeps_intern (asks_request (.fieldRef ..))).bind fun _ => keeps_replacing rfl _

theorem keeps_getStatic (owner name : String) (t : FieldType) :
    Keeps calls (getStatic owner name t) :=
  (keeps_intern (asks_request (.fieldRef ..))).bind fun _ => keeps_pushing rfl _

/-! ## 4. Code for expressions -/

/-- The methods among the references and the calls that join texts are all among the calls. -/
structure Within (calls : List Callee) (refs : List Reference) (texts : List Callee) : Prop where
  named : ∀ c n, .method c n ∈ refs → c ∈ calls
  texts : texts ⊆ calls

namespace Within

variable {refs refs' : List Reference} {texts texts' : List Callee} {c : Callee} {n : Nat}

theorem append : Within calls (refs ++ refs') (texts ++ texts') ↔
    Within calls refs texts ∧ Within calls refs' texts' := by
  refine ⟨fun h => ?_, fun h => ⟨fun c n hc => ?_, List.append_subset.mpr ⟨h.1.texts, h.2.texts⟩⟩⟩
  · obtain ⟨htexts, htexts'⟩ := List.append_subset.mp h.texts
    exact ⟨⟨fun c n hc => h.named c n (List.mem_append_left _ hc), htexts⟩,
      ⟨fun c n hc => h.named c n (List.mem_append_right _ hc), htexts'⟩⟩
  · rcases List.mem_append.mp hc with hc | hc
    · exact h.1.named c n hc
    · exact h.2.named c n hc

theorem tail {ref : Reference} (h : Within calls (ref :: refs) texts) : Within calls refs texts :=
  ⟨fun c n hc => h.named c n (List.mem_cons_of_mem _ hc), h.texts⟩

theorem method (h : Within calls (.method c n :: refs) texts) : c ∈ calls :=
  h.named c n List.mem_cons_self

theorem text (h : Within calls refs (c :: texts)) : c ∈ calls ∧ Within calls refs texts :=
  ⟨h.texts List.mem_cons_self, h.named, fun _ hc => h.texts (List.mem_cons_of_mem _ hc)⟩

end Within

theorem keeps_whenReachable {x : Assembly Unit} (h : Keeps calls x) :
    Keeps calls (whenReachable x) :=
  .bind .ofGet fun _ => .ofIf h (.ofPure _)

theorem keeps_inBlock {x : Assembly Unit} (h : Keeps calls x) : Keeps calls (inBlock x) :=
  .bind .ofGet fun _ => h.bind fun _ => .ofModify fun _ => ⟨rfl, rfl⟩

theorem keeps_callMethod {kind : InvokeKind} {owner name : String} {params : List FieldType}
    {ret : Option FieldType} (h : ⟨kind, owner, false, name, ⟨params, ret⟩⟩ ∈ calls) :
    Keeps calls (callMethod kind owner name params ret) := by
  rw [callMethod_eq]
  exact keeps_invokeCallee h

theorem keeps_newTextBuilder (h : newTextCallee ∈ calls) : Keeps calls newTextBuilder :=
  (keeps_newObject _).bind fun _ => keeps_dup.bind fun _ => keeps_callMethod h

theorem keeps_emitFlag {jumpUnless : Label → Assembly Unit} (h : ∀ l, Keeps calls (jumpUnless l)) :
    Keeps calls (emitFlag jumpUnless) := by
  refine keeps_newLabel.bind fun no => keeps_newLabel.bind fun done => (h no).bind fun _ => ?_
  refine (keeps_whenReachable ((keeps_iconst 1).bind fun _ => keeps_goto done)).bind fun _ => ?_
  exact (keeps_place no).bind fun _ =>
    (keeps_whenReachable (keeps_iconst 0)).bind fun _ => keeps_place done

mutual

theorem keeps_emitExpr : (e : Expr) → Within calls e.references e.textCalls →
    Keeps calls (emitExpr e)
  | .int value, _ => by
    unfold emitExpr
    exact keeps_iconst value
  | .long value, _ => by
    unfold emitExpr
    exact keeps_lconst value
  | .str text, _ => by
    unfold emitExpr
    exact keeps_ldcString text
  | .null, _ => by
    unfold emitExpr
    exact keeps_pushing rfl _
  | .local slot t, _ => by
    unfold emitExpr
    exact keeps_load slot t
  | .getField receiver owner name t, h => by
    unfold emitExpr
    exact (keeps_emitExpr receiver h.tail).bind fun _ => keeps_getField owner name t
  | .getStatic owner name t, _ => by
    unfold emitExpr
    exact keeps_getStatic owner name t
  | .call callee args, h => by
    unfold emitExpr
    exact (keeps_emitExprs args h.tail).bind fun _ => keeps_invokeCallee h.method
  | .callOn receiver callee args, h => by
    unfold emitExpr
    obtain ⟨hreceiver, hargs⟩ := Within.append.mp h.tail
    -- a method that needs no receiver drops the value that it is called on
    have hrest : Keeps calls (do emitExprs args; invokeCallee callee) :=
      (keeps_emitExprs args hargs).bind fun _ => keeps_invokeCallee h.method
    exact (keeps_emitExpr receiver hreceiver).bind
      fun _ => .ofIf (keeps_popValue.bind fun _ => hrest) hrest
  | .checkcast name e, h => by
    unfold emitExpr
    exact (keeps_emitExpr e h).bind fun _ => keeps_checkcast name
  | .widen source target e, h => by
    unfold emitExpr
    exact (keeps_emitExpr e h).bind fun _ => keeps_widen source target
  | .add t l r, h => by
    unfold emitExpr
    obtain ⟨hl, hr⟩ := Within.append.mp h
    exact (keeps_emitExpr l hl).bind fun _ => (keeps_emitExpr r hr).bind fun _ => keeps_add t
  | .concat parts, h => by
    unfold emitExpr
    obtain ⟨hnew, h⟩ := Within.text h
    obtain ⟨hbuilt, h⟩ := Within.text h
    exact (keeps_newTextBuilder hnew).bind fun _ =>
      (keeps_emitParts parts h).bind fun _ => keeps_callMethod hbuilt
  | .condition c, h => by
    unfold emitExpr
    exact keeps_emitFlag fun no => keeps_emitJump c h false no

theorem keeps_emitExprs : (es : List Expr) →
    Within calls (Expr.allReferences es) (Expr.allTextCalls es) → Keeps calls (emitExprs es)
  | [], _ => by
    unfold emitExprs
    exact .ofPure _
  | e :: es, h => by
    unfold emitExprs
    obtain ⟨he, hes⟩ := Within.append.mp h
    exact (keeps_emitExpr e he).bind fun _ => keeps_emitExprs es hes

theorem keeps_emitParts : (parts : List (Expr × FieldType)) →
    Within calls (Expr.partReferences parts) (Expr.partTextCalls parts) → Keeps calls
    (emitParts parts)
  | [], _ => by
    unfold emitParts
    exact .ofPure _
  | (e, t) :: parts, h => by
    unfold emitParts
    obtain ⟨happend, h⟩ := Within.text h
    obtain ⟨he, hparts⟩ := Within.append.mp h
    refine (keeps_emitExpr e he).bind fun _ => ?_
    exact (keeps_callMethod happend).bind fun _ => keeps_emitParts parts hparts

theorem keeps_emitJump : (c : Cond) → Within calls c.references c.textCalls →
    ∀ (when : Bool) (target : Label), Keeps calls (emitJump c when target)
  | .const value, _, when, target => by
    unfold emitJump
    exact .bind .ofGet fun _ => .ofIf (.ofPure _) (.ofIf (keeps_goto target) (.ofPure _))
  | .value e, h, when, target => by
    unfold emitJump
    exact .bind .ofGet fun _ =>
      .ofIf (.ofPure _) ((keeps_emitExpr e h).bind fun _ => keeps_branch _ target)
  | .not c, h, when, target => by
    unfold emitJump
    exact .bind .ofGet fun _ => .ofIf (.ofPure _) (keeps_emitJump c h _ target)
  | .and a b, h, when, target => by
    unfold emitJump
    obtain ⟨ha, hb⟩ := Within.append.mp h
    refine .bind .ofGet fun _ => .ofIf (.ofPure _) (.ofIf (keeps_newLabel.bind fun skip => ?_) ?_)
    · refine (keeps_emitJump a ha false skip).bind fun _ => ?_
      exact (keeps_emitJump b hb true target).bind fun _ => keeps_place skip
    · exact (keeps_emitJump a ha false target).bind fun _ => keeps_emitJump b hb false target
  | .or a b, h, when, target => by
    unfold emitJump
    obtain ⟨ha, hb⟩ := Within.append.mp h
    refine .bind .ofGet fun _ => .ofIf (.ofPure _) (.ofIf ?_ (keeps_newLabel.bind fun skip => ?_))
    · exact (keeps_emitJump a ha true target).bind fun _ => keeps_emitJump b hb true target
    · refine (keeps_emitJump a ha true skip).bind fun _ => ?_
      exact (keeps_emitJump b hb false target).bind fun _ => keeps_place skip
  | .ints c l r, h, when, target => by
    unfold emitJump
    obtain ⟨hl, hr⟩ := Within.append.mp h
    -- a comparison with zero does not push the constant
    have hrest : Keeps calls (branch (intTest (outcome c when) (isZero r)) target) :=
      keeps_branch _ target
    refine .bind .ofGet fun _ => .ofIf (.ofPure _) ((keeps_emitExpr l hl).bind fun _ => ?_)
    exact .ofIf ((keeps_emitExpr r hr).bind fun _ => hrest) hrest
  | .longs c l r, h, when, target => by
    unfold emitJump
    obtain ⟨hl, hr⟩ := Within.append.mp h
    refine .bind .ofGet fun _ => .ofIf (.ofPure _) ((keeps_emitExpr l hl).bind fun _ => ?_)
    refine (keeps_emitExpr r hr).bind fun _ => ?_
    exact (keeps_joining rfl _).bind fun _ => keeps_branch _ target
  | .refs equal l r, h, when, target => by
    unfold emitJump
    obtain ⟨hl, hr⟩ := Within.append.mp h
    refine .bind .ofGet fun _ => .ofIf (.ofPure _) ((keeps_emitExpr l hl).bind fun _ => ?_)
    exact (keeps_emitExpr r hr).bind fun _ => keeps_branch _ target
  | .nullity isNull e, h, when, target => by
    unfold emitJump
    exact .bind .ofGet fun _ =>
      .ofIf (.ofPure _) ((keeps_emitExpr e h).bind fun _ => keeps_branch _ target)

end

/-! ## 5. Code for statements and methods -/

theorem keeps_readReflected (field : String) (h : reflectionCalls ⊆ calls) :
    Keeps calls (readReflected field) := by
  refine keeps_dup.bind fun _ => (keeps_callMethod (h (by decide))).bind fun _ => ?_
  refine (keeps_ldcString field).bind fun _ => (keeps_callMethod (h (by decide))).bind fun _ => ?_
  refine keeps_dup.bind fun _ =>
    (keeps_iconst 1).bind fun _ => (keeps_callMethod (h (by decide))).bind fun _ => ?_
  exact keeps_swap.bind fun _ => keeps_callMethod (h (by decide))

theorem keeps_emitFieldRead (slot : UInt16) (t : FieldType) {target : Expr} (field : String)
    (cast : Option String) (hreflection : reflectionCalls ⊆ calls)
    (h : Within calls target.references target.textCalls) :
    Keeps calls (emitFieldRead slot t target field cast) := by
  refine (keeps_pushing rfl _).bind fun _ => (keeps_store slot t).bind fun _ => ?_
  refine (keeps_emitExpr target h).bind fun _ => ?_
  refine keeps_newLabel.bind fun start => keeps_newLabel.bind fun stop => ?_
  refine keeps_newLabel.bind fun handler =>
    keeps_newLabel.bind fun after => (keeps_place start).bind fun _ => ?_
  refine (keeps_addHandler start stop handler _).bind fun _ =>
    (keeps_readReflected field hreflection).bind fun _ => ?_
  -- the cast stands between the reading and the rest, if there is one
  have hrest : Keeps calls (do
      store slot t
      place stop
      goto after
      place handler
      popValue
      place after) := by
    refine (keeps_store slot t).bind fun _ =>
      (keeps_place stop).bind fun _ => (keeps_goto after).bind fun _ => ?_
    exact (keeps_place handler).bind fun _ => keeps_popValue.bind fun _ => keeps_place after
  cases cast with
  | none => exact hrest
  | some name => exact (keeps_checkcast name).bind fun _ => hrest

mutual

theorem keeps_emitStmt (hreflection : reflectionCalls ⊆ calls) :
    (stmt : Stmt) → Within calls stmt.references stmt.textCalls → Keeps calls (emitStmt stmt)
  | .store slot t e, h => by
    unfold emitStmt
    exact (keeps_emitExpr e h).bind fun _ => keeps_store slot t
  | .readField slot t target field cast, h => by
    unfold emitStmt
    -- only a read of a field calls what the statement does not name itself
    exact keeps_emitFieldRead slot t field cast hreflection h
  | .ifThen c yes, h => by
    unfold emitStmt
    obtain ⟨hc, hyes⟩ := Within.append.mp h
    refine keeps_newLabel.bind
      fun no => keeps_newLabel.bind fun _ => (keeps_emitJump c hc false no).bind fun _ => ?_
    exact (keeps_whenReachable (keeps_inBlock (keeps_emitStmts hreflection yes hyes))).bind
      fun _ => keeps_place no
  | .ifElse c yes no, h => by
    unfold emitStmt
    obtain ⟨hc, h⟩ := Within.append.mp h
    obtain ⟨hyes, hno⟩ := Within.append.mp h
    refine keeps_newLabel.bind fun otherwise => keeps_newLabel.bind fun done => ?_
    refine (keeps_emitJump c hc false otherwise).bind fun _ => ?_
    refine (keeps_whenReachable (keeps_inBlock (keeps_emitStmts hreflection yes hyes))).bind
      fun _ => ?_
    refine (keeps_whenReachable (keeps_goto done)).bind fun _ =>
      (keeps_place otherwise).bind fun _ => ?_
    exact (keeps_whenReachable (keeps_inBlock (keeps_emitStmts hreflection no hno))).bind
      fun _ => keeps_place done
  | .ret, _ => by
    unfold emitStmt
    exact keeps_returnValue none
  | .retValue e t, h => by
    unfold emitStmt
    exact (keeps_emitExpr e h).bind fun _ => keeps_returnValue _
  | .discard e hasValue, h => by
    unfold emitStmt
    exact (keeps_emitExpr e h).bind fun _ => .ofIf keeps_popValue (.ofPure _)
  | .block stmts, h => by
    unfold emitStmt
    exact keeps_inBlock (keeps_emitStmts hreflection stmts h)

theorem keeps_emitStmts (hreflection : reflectionCalls ⊆ calls) :
    (stmts : List Stmt) → Within calls (Stmt.allReferences stmts) (Stmt.allTextCalls stmts) →
      Keeps calls (emitStmts stmts)
  | [], _ => by
    unfold emitStmts
    exact .ofPure _
  | stmt :: stmts, h => by
    unfold emitStmts
    obtain ⟨hstmt, hstmts⟩ := Within.append.mp h
    refine .bind .ofGet fun _ =>
      .ofIf (.ofPure _) ((keeps_emitStmt hreflection stmt hstmt).bind fun _ => ?_)
    exact keeps_emitStmts hreflection stmts hstmts

end

theorem keeps_emitMethod (hreflection : reflectionCalls ⊆ calls) (m : Method)
    (h : Within calls m.references m.textCalls) : Keeps calls m.emit := by
  refine (keeps_inBlock (keeps_emitStmts hreflection m.body h)).bind fun _ => keeps_whenReachable ?_
  exact .refusing (keeps_returnValue none)

end MethodGraft.Typed
