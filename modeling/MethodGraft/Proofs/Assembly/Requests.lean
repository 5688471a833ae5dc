import MethodGraft.Code.Layout
import MethodGraft.Proofs.Pool.Requests

/-!
# Proofs.Assembly.Requests — what building a method body asks of the pool

All that the functions which build a method body do to the pool, and all that completing the body
does to it, is to make requests.  So what holds of the pool through requests holds of it while
bodies are built, in any order and also where this fails.
-/

namespace MethodGraft.Code

open ClassFile Interning

variable {σ α β : Type}

/-! ## 1. Steps that make requests -/

def Asks (pool : σ → ConstantPool) (x : ExceptT Error (StateM σ) α) : Prop :=
  ∀ s, ∃ rs, pool (x.run.run s).2 = Request.afterAll rs (pool s)

namespace Asks

variable {pool : σ → ConstantPool} {x : ExceptT Error (StateM σ) α}

theorem le (h : Asks pool x) (s : σ) : pool s ≤ pool (x.run.run s).2 := by
  obtain ⟨rs, hrs⟩ := h s
  rw [hrs]
  exact Request.le_afterAll rs (pool s)

theorem wellFormed (h : Asks pool x) {s : σ} (hs : (pool s).WellFormed) :
    (pool (x.run.run s).2).WellFormed := by
  obtain ⟨rs, hrs⟩ := h s
  rw [hrs]
  exact Request.wellFormed_afterAll rs hs

/-- A step that leaves the pool as it is. -/
theorem ofSame (h : ∀ s, pool (x.run.run s).2 = pool s) : Asks pool x := fun s => ⟨[], h s⟩

theorem ofPure (a : α) : Asks pool (pure a) := .ofSame fun _ => rfl

theorem ofThrow (e : Error) : Asks pool (throw e : ExceptT Error (StateM σ) α) :=
  .ofSame fun _ => rfl

theorem ofExcept (r : Except Error α) : Asks pool (ExceptT.mk (pure r)) := .ofSame fun _ => rfl

theorem ofGet : Asks pool (get : ExceptT Error (StateM σ) σ) := .ofSame fun _ => rfl

theorem ofModify {f : σ → σ} (h : ∀ s, pool (f s) = pool s) :
    Asks pool (modify f : ExceptT Error (StateM σ) PUnit) := .ofSame h

theorem bind {f : α → ExceptT Error (StateM σ) β} (hx : Asks pool x) (hf : ∀ a, Asks pool (f a)) :
    Asks pool (x >>= f) := by
  intro s
  obtain ⟨rs, hrs⟩ := hx s
  rw [run_bind]
  generalize x.run.run s = out at hrs ⊢
  obtain ⟨r, t⟩ := out
  cases r with
  | error e => exact ⟨rs, hrs⟩
  | ok a =>
    obtain ⟨rs', hrs'⟩ := hf a t
    refine ⟨rs ++ rs', hrs'.trans ?_⟩
    rw [hrs]
    exact (List.foldl_append ..).symm

theorem ofIf {c : Prop} [Decidable c] {y : ExceptT Error (StateM σ) α} (hx : Asks pool x)
    (hy : Asks pool y) : Asks pool (if c then x else y) := by
  split
  · exact hx
  · exact hy

/-- A fault that is reported if `c` holds. -/
theorem refusing {c : Prop} [Decidable c] {e : Error} {f : β → ExceptT Error (StateM σ) α}
    (hx : Asks pool x) : Asks pool (if c then throw e >>= f else x) := by
  split
  · exact .ofSame fun _ => rfl
  · exact hx

theorem mapM {f : α → ExceptT Error (StateM σ) β} (hf : ∀ a, Asks pool (f a)) (as : List α) :
    Asks pool (as.mapM f) := by
  induction as with
  | nil =>
    rw [List.mapM_nil]
    exact .ofPure _
  | cons a as ih =>
    rw [List.mapM_cons]
    exact (hf a).bind fun _ => ih.bind fun _ => .ofPure _

end Asks

theorem asks_request (r : Request) : Asks id r.intern := fun _ => ⟨[r], rfl⟩

theorem asks_utf8 (text : String) : Asks id (utf8 text) := asks_request (.utf8 text)

theorem asks_classRef (name : String) : Asks id (classRef name) := asks_request (.classRef name)

/-! ## 2. Completing a body -/

theorem asks_encode (t : VerificationType) : Asks id t.encode := by
  cases t
  case object name => exact (asks_classRef name).bind fun _ => .ofPure _
  all_goals exact .ofPure _

theorem asks_encodeTypes (types : List VerificationType) : Asks id (encodeTypes types) :=
  .bind (.ofExcept _) fun _ => .bind (.mapM asks_encode types) fun _ => .ofPure _

theorem asks_encodeFrame (previous : Option Nat) (position : Nat) (frame : Frame) :
    Asks id (encodeFrame previous position frame) :=
  .bind (asks_encodeTypes _) fun _ => .bind (asks_encodeTypes _) fun _ => .ofPure _

theorem asks_encodeFrames (previous : Option Nat) (frames : List (Nat × Frame)) :
    Asks id (encodeFrames previous frames) := by
  induction frames generalizing previous with
  | nil => exact .ofPure _
  | cons e frames ih =>
    exact .bind (asks_encodeFrame previous e.1 e.2) fun _ =>
      .bind (ih (some e.1)) fun _ => .ofPure _

theorem asks_stackMap (frames : List (Nat × Frame)) : Asks id (stackMap frames) := by
  unfold stackMap
  refine .ofIf (.ofPure _) (.bind (.ofExcept _) fun _ => ?_)
  exact .bind (asks_encodeFrames none frames) fun _ => .bind (asks_utf8 _) fun _ => .ofPure _

theorem asks_layout (a : Assembler) (majorVersion : UInt16) : Asks id (a.layout majorVersion) := by
  unfold Assembler.layout
  refine .refusing (.refusing ?_)
  refine .bind (.ofExcept _) fun _ =>
    .bind (.ofExcept _) fun _ => .bind (.ofExcept _) fun frames => ?_
  refine .ofIf ?_ ?_
  · exact (asks_stackMap frames).bind fun _ => .bind (asks_utf8 _) fun _ => .ofPure _
  · exact .bind (.ofPure _) fun _ => .bind (asks_utf8 _) fun _ => .ofPure _

/-! ## 3. Building a body -/

namespace Assembly

/-- A call of one of the functions that build a method body. -/
inductive Call where
  | allocateLocal (t : FieldType)
  | truncateLocals (length : Nat)
  | newLabel
  | place (l : Label)
  | aconstNull
  | iconst (value : Int32)
  | lconst (value : Int64)
  | ldcString (text : String)
  | ldcClass (name : String)
  | load (slot : UInt16) (t : FieldType)
  | store (slot : UInt16) (t : FieldType)
  | getField (owner name : String) (t : FieldType)
  | getStatic (owner name : String) (t : FieldType)
  | invoke (kind : InvokeKind) (owner name : String) (type : MethodDescriptor) (onInterface : Bool)
  | newObject (name : String)
  | checkcast (name : String)
  | instanceOf (name : String)
  | dup
  | popValue
  | swap
  | lcmp
  | add (t : FieldType)
  | widen (source target : FieldType)
  | branch (opcode : UInt8) (target : Label)
  | goto (target : Label)
  | returnValue (t : Option FieldType)
  | addHandler (start stop handler : Label) (catchType : Option String)

def Call.run : Call → Assembly Unit
  | .allocateLocal t => do let _ ← Assembly.allocateLocal t
  | .truncateLocals length => Assembly.truncateLocals length
  | .newLabel => do let _ ← Assembly.newLabel
  | .place l => Assembly.place l
  | .aconstNull => Assembly.aconstNull
  | .iconst value => Assembly.iconst value
  | .lconst value => Assembly.lconst value
  | .ldcString text => Assembly.ldcString text
  | .ldcClass name => Assembly.ldcClass name
  | .load slot t => Assembly.load slot t
  | .store slot t => Assembly.store slot t
  | .getField owner name t => Assembly.getField owner name t
  | .getStatic owner name t => Assembly.getStatic owner name t
  | .invoke kind owner name type onInterface => Assembly.invoke kind owner name type onInterface
  | .newObject name => Assembly.newObject name
  | .checkcast name => Assembly.checkcast name
  | .instanceOf name => Assembly.instanceOf name
  | .dup => Assembly.dup
  | .popValue => Assembly.popValue
  | .swap => Assembly.swap
  | .lcmp => Assembly.lcmp
  | .add t => Assembly.add t
  | .widen source target => Assembly.widen source target
  | .branch opcode target => Assembly.branchBy opcode target
  | .goto target => Assembly.goto target
  | .returnValue t => Assembly.returnValue t
  | .addHandler start stop handler catchType => Assembly.addHandler start stop handler catchType

abbrev Requests (x : Assembly α) : Prop := Asks Assembler.pool x

theorem requests_intern {x : Interning α} (h : Asks id x) : Requests (intern x) := fun a => h a.pool

theorem requests_class (name : String) : Requests (intern (classRef name)) :=
  requests_intern (asks_classRef name)

/-! ### Pieces -/

theorem requests_modifyLabel (l : Label) (f : LabelState → LabelState) :
    Requests (modifyLabel l f) :=
  .ofModify fun _ => rfl

theorem requests_emit (op : Operation) : Requests (emit op) := by
  unfold emit
  refine .bind .ofGet fun a => ?_
  dsimp only
  exact .ofIf (.bind .ofGet fun _ => .bind (.ofThrow _) fun _ => .ofModify fun _ => rfl)
    (.ofModify fun _ => rfl)

theorem requests_push (t : VerificationType) : Requests (push t) := .ofModify fun _ => rfl

theorem requests_pop : Requests pop := by
  refine .bind .ofGet fun a => ?_
  split
  · exact .bind (.ofModify fun _ => rfl) fun _ => .ofPure _
  · exact .bind .ofGet fun _ => .ofThrow _

theorem requests_popMany (n : Nat) : Requests (popMany n) := by
  induction n with
  | zero => exact .ofPure _
  | succ n ih => exact requests_pop.bind fun _ => ih

theorem requests_recordFrame (l : Label) (frame : Frame) : Requests (recordFrame l frame) := by
  refine .bind (requests_modifyLabel l _) fun _ => .bind .ofGet fun a => ?_
  split
  · exact .ofIf (.ofThrow _) (.ofPure _)
  · exact requests_modifyLabel l _

theorem requests_frameFor (l : Label) : Requests (frameFor l) := .bind .ofGet fun _ => .ofPure _

theorem requests_jump (op : Operation) (target : Label) : Requests (jump op target) :=
  (requests_emit op).bind fun _ =>
    (requests_frameFor target).bind fun frame => requests_recordFrame target frame

theorem requests_loadConstant (index : UInt16) : Requests (loadConstant index) := requests_emit _

/-- An instruction that takes a value and pushes another. -/
theorem requests_replace (op : Operation) (t : VerificationType) :
    Requests (do emit op; let _ ← pop; push t) :=
  (requests_emit op).bind fun _ => requests_pop.bind fun _ => requests_push t

/-! ### Calls -/

theorem requests_allocateLocal (t : FieldType) : Requests (allocateLocal t) := by
  unfold allocateLocal
  refine .bind .ofGet fun a => .bind (.ofModify fun _ => rfl) fun _ => .bind .ofGet fun b => ?_
  dsimp only
  exact .ofIf (.bind (.ofThrow _) fun _ => .bind (.ofModify fun _ => rfl) fun _ => .ofPure _)
    (.bind (.ofModify fun _ => rfl) fun _ => .ofPure _)

theorem requests_place (l : Label) : Requests (place l) := by
  unfold place
  refine .bind .ofGet fun a =>
    .refusing (.bind .ofGet fun b => .bind (requests_modifyLabel l _) fun _ => ?_)
  refine .bind .ofGet fun c => .ofIf ?_ ?_
  · refine .bind (requests_frameFor l) fun frame => .bind (.ofModify fun _ => rfl) fun _ => ?_
    split
    · exact .refusing (.ofModify fun _ => rfl)
    · exact requests_modifyLabel l _
  · split
    · exact .bind (.ofModify fun _ => rfl) fun _ => .ofModify fun _ => rfl
    · exact .ofPure _

theorem requests_iconst (value : Int32) : Requests (iconst value) := by
  unfold iconst
  dsimp only
  refine .ofIf ?_ (.ofIf ?_ (.ofIf ?_ ?_))
  · exact (requests_emit _).bind fun _ => requests_push _
  · exact (requests_emit _).bind fun _ => requests_push _
  · exact (requests_emit _).bind fun _ => requests_push _
  · exact .bind (requests_intern (asks_request (.integer value))) fun _ =>
      (requests_loadConstant _).bind fun _ => requests_push _

theorem requests_lconst (value : Int64) : Requests (lconst value) := by
  unfold lconst
  dsimp only
  refine .ofIf ?_ (.ofIf ?_ ?_)
  · exact (requests_emit _).bind fun _ => requests_push _
  · exact (requests_emit _).bind fun _ => requests_push _
  · exact .bind (requests_intern (asks_request (.long value))) fun _ =>
      (requests_emit _).bind fun _ => requests_push _

theorem requests_load (slot : UInt16) (t : FieldType) : Requests (load slot t) := by
  refine (requests_emit _).bind fun _ => .bind .ofGet fun a => ?_
  split
  · exact .ofThrow _
  · exact .ofThrow _
  · exact requests_push _

theorem requests_store (slot : UInt16) (t : FieldType) : Requests (store slot t) :=
  (requests_emit _).bind fun _ => requests_pop.bind fun _ => .ofModify fun _ => rfl

theorem requests_invoke (kind : InvokeKind) (owner name : String) (type : MethodDescriptor)
    (onInterface : Bool) : Requests (invoke kind owner name type onInterface) := by
  unfold invoke
  refine .bind (requests_intern (asks_request (.methodRef ..))) fun index => .refusing ?_
  refine (requests_emit _).bind fun _ => (requests_popMany _).bind fun _ => .ofIf ?_ ?_
  · refine requests_pop.bind fun receiver => .ofIf (.bind (.ofModify fun _ => rfl) fun _ => ?_) ?_
    all_goals
      split
      · exact requests_push _
      · exact .ofPure _
  · split
    · exact requests_push _
    · exact .ofPure _

theorem requests_dup : Requests dup :=
  (requests_emit _).bind fun _ => requests_pop.bind fun t =>
    .refusing ((requests_push t).bind fun _ => requests_push t)

theorem requests_popValue : Requests popValue := by
  refine .bind .ofGet fun a => ?_
  split
  · exact .bind .ofGet fun _ => .ofThrow _
  · exact (requests_emit _).bind fun _ => requests_pop.bind fun _ => .ofPure _

theorem requests_swap : Requests swap :=
  (requests_emit _).bind fun _ => requests_pop.bind fun t => requests_pop.bind fun u =>
    .refusing ((requests_push t).bind fun _ => requests_push u)

theorem requests_add (t : FieldType) : Requests (add t) := by
  unfold add
  split
  · exact (requests_emit _).bind fun _ => (requests_popMany 2).bind fun _ => requests_push _
  · exact (requests_emit _).bind fun _ => (requests_popMany 2).bind fun _ => requests_push _
  · exact .ofThrow _

theorem requests_widen (source target : FieldType) : Requests (widen source target) := by
  unfold widen
  refine .ofIf (.ofPure _) ?_
  split
  · exact requests_replace _ _
  · exact .ofThrow _

theorem requests_branchBy (opcode : UInt8) (target : Label) :
    Requests (branchBy opcode target) := by
  unfold branchBy
  split
  next test _ =>
    refine .bind .ofGet fun a => .ofIf (.bind .ofGet fun _ => .bind (.ofThrow _) fun _ => ?_) ?_
    all_goals exact (requests_popMany _).bind fun _ => requests_jump _ target
  next => exact .ofThrow _

theorem requests_returnValue (t : Option FieldType) : Requests (returnValue t) := by
  refine (requests_emit _).bind fun _ => .ofIf (requests_pop.bind fun _ => ?_) ?_
  all_goals exact .ofModify fun _ => rfl

theorem requests_addHandler (start stop handler : Label) (catchType : Option String) :
    Requests (addHandler start stop handler catchType) := by
  have hrest (index : UInt16) : Requests (do
      let frame ← frameFor handler
      recordFrame handler { frame with stack := [.object (catchType.getD "java/lang/Throwable")] }
      modify fun a => { a with handlers := a.handlers.push ⟨start, stop, handler, index⟩ }) :=
    (requests_frameFor handler).bind fun _ =>
      (requests_recordFrame handler _).bind fun _ => .ofModify fun _ => rfl
  unfold addHandler
  split
  · exact (requests_class _).bind hrest
  · exact .bind (.ofPure _) hrest

/-- Whatever a call does, and also if it fails, all that it does to the pool is to make requests. -/
theorem Call.requests (c : Call) : Requests c.run := by
  cases c
  case allocateLocal t => exact (requests_allocateLocal t).bind fun _ => .ofPure _
  case truncateLocals length => exact .ofModify fun _ => rfl
  case newLabel =>
    refine .bind (.bind .ofGet fun _ => ?_) fun _ => .ofPure _
    exact .bind (.ofModify fun _ => rfl) fun _ => .ofPure _
  case place l => exact requests_place l
  case aconstNull => exact (requests_emit _).bind fun _ => requests_push _
  case iconst value => exact requests_iconst value
  case lconst value => exact requests_lconst value
  case ldcString text =>
    exact .bind (requests_intern (asks_request (.string text))) fun _ =>
      (requests_loadConstant _).bind fun _ => requests_push _
  case ldcClass name =>
    exact (requests_class name).bind fun _ =>
      (requests_loadConstant _).bind fun _ => requests_push _
  case load slot t => exact requests_load slot t
  case store slot t => exact requests_store slot t
  case getField owner name t =>
    exact .bind (requests_intern (asks_request (.fieldRef ..))) fun _ => requests_replace _ _
  case getStatic owner name t =>
    exact .bind (requests_intern (asks_request (.fieldRef ..))) fun _ =>
      (requests_emit _).bind fun _ => requests_push _
  case invoke kind owner name type onInterface =>
    exact requests_invoke kind owner name type onInterface
  case newObject name =>
    exact (requests_class name).bind fun _ =>
      .bind .ofGet fun _ => (requests_emit _).bind fun _ => requests_push _
  case checkcast name => exact (requests_class name).bind fun _ => requests_replace _ _
  case instanceOf name => exact (requests_class name).bind fun _ => requests_replace _ _
  case dup => exact requests_dup
  case popValue => exact requests_popValue
  case swap => exact requests_swap
  case lcmp =>
    exact (requests_emit _).bind fun _ => (requests_popMany 2).bind fun _ => requests_push _
  case add t => exact requests_add t
  case widen source target => exact requests_widen source target
  case branch opcode target => exact requests_branchBy opcode target
  case goto target => exact (requests_jump _ target).bind fun _ => .ofModify fun _ => rfl
  case returnValue t => exact requests_returnValue t
  case addHandler start stop handler catchType =>
    exact requests_addHandler start stop handler catchType

/-- So is all that completing the body does to it. -/
theorem requests_finish (majorVersion : UInt16) : Requests (finish majorVersion) :=
  .bind .ofGet fun a => requests_intern (asks_layout a majorVersion)

end Assembly

end MethodGraft.Code
