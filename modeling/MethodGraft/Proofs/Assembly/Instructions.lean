import MethodGraft.Proofs.Assembly.Primitives
import MethodGraft.Proofs.Machine.Step

/-!
# Proofs.Assembly.Instructions — what each instruction is

For every operation of the assembler that control passes through: the instruction that it adds, with
what its constant stands for.
-/

namespace MethodGraft.Code.Assembler

open ClassFile Typed Assembly Machine

variable {a b c : Assembler} {layout layout' : Layout} {before after : List ValueKind}
  {op : Operation} {k k' : ValueKind} {t : VerificationType} {type : FieldType}
    {pool : ConstantPool}

/-! ## 1. Constants -/

def Pushes (pool : ConstantPool) (op : Operation) (v : Value) : Prop :=
  ∀ q, pool ≤ q → ∀ env target pc next stack locals past,
    execute env q (op.resolve target) pc next stack locals past =
      some (.running next (v :: stack) locals past)

def Loads (a : Assembler) (layout : Layout) (before : List ValueKind) (v : Value) (b : Assembler) :
    Prop :=
  ∃ op, Emits a b op layout (v.kind :: before) ∧ Pushes b.pool op v

theorem Ready.meets_loads (ha : a.Ready layout before) {v : Value} (hop : op.Straight)
    (hpool : a.pool ≤ pool ∧ pool.WellFormed) (ht : t.kind? = some v.kind)
    (heffect : op.effect pool before = some (v.kind :: before))
    (hlocals : op.LocalsFit layout layout) (hpushes : Pushes pool op v) :
    Meets (do emit op; push t) { a with pool } fun _ b => Loads a layout before v b := by
  refine (ha.meets_push hop hpool ht heffect hlocals).mono ?_
  rintro - b ⟨hemits, rfl⟩
  exact ⟨op, hemits, hpushes⟩

theorem meets_aconstNull (ha : a.Ready layout before) :
    Meets aconstNull a fun _ b => Loads a layout before (.reference .null) b :=
  ha.meets_loads ⟨rfl, fun _ h => by cases h⟩ ⟨le_rfl, ha.valid.pool⟩ rfl rfl rfl
    fun _ _ _ _ _ _ _ _ _ => rfl

/-- A constant from the pool, by either of the two instructions. -/
theorem Ready.meets_loadConstant (ha : a.Ready layout before) {v : Value} {i : UInt16}
    (hpool : a.pool ≤ pool ∧ pool.WellFormed) (ht : t.kind? = some v.kind)
    (hv : pool.value? i = some v) (hwide : v.kind.isWide = false) :
    Meets (do loadConstant i; push t) { a with pool } fun _ b => Loads a layout before v b := by
  have hkind : constantKind pool i false = some v.kind := by
    unfold constantKind
    rw [hv]
    show (if v.kind.isWide = false then some v.kind else none) = _
    rw [if_pos hwide]
  unfold loadConstant
  -- an index of one byte has a shorter instruction
  by_cases hi : i ≤ 0xff
  · rw [if_pos hi]
    have hsame : i.toUInt8.toUInt16 = i := by
      apply UInt16.toNat_inj.mp
      rw [UInt8.toNat_toUInt16, UInt16.toNat_toUInt8]
      exact Nat.mod_eq_of_lt (Nat.lt_succ_of_le (UInt16.le_iff_toNat_le.mp hi))
    refine ha.meets_loads ⟨rfl, fun _ h => by cases h⟩ hpool ht ?_ rfl ?_
    · show (constantKind pool i.toUInt8.toUInt16 false).map (· :: before) = _
      rw [hsame, hkind]
      rfl
    · intro q hle env target pc next stack locals past
      show ((q.value? i.toUInt8.toUInt16).map fun v => (v :: stack, locals)).map _ = _
      rw [hsame, ConstantPool.value?_mono hle hv]
      rfl
  · rw [if_neg hi]
    refine ha.meets_loads ⟨rfl, fun _ h => by cases h⟩ hpool ht ?_ rfl ?_
    · show (constantKind pool i false).map (· :: before) = _
      rw [hkind]
      rfl
    · intro q hle env target pc next stack locals past
      show ((q.value? i).map fun v => (v :: stack, locals)).map _ = _
      rw [ConstantPool.value?_mono hle hv]
      rfl

theorem toInt32_toInt16 {v : Int32} (h : -32768 ≤ v ∧ v ≤ 32767) : v.toInt16.toInt32 = v := by
  have hlow : -32768 ≤ v.toInt := Int32.le_iff_toInt_le.mp h.1
  have hhigh : v.toInt ≤ 32767 := Int32.le_iff_toInt_le.mp h.2
  apply Int32.toInt_inj.mp
  rw [Int16.toInt_toInt32, Int32.toInt_toInt16]
  exact Int.bmod_eq_of_le (by omega) (by omega)

/-- All four encodings of an `int` push the same value. -/
theorem meets_iconst (ha : a.Ready layout before) (v : Int32) :
    Meets (iconst v) a fun _ b => Loads a layout before (.int v) b := by
  have hpool : a.pool ≤ a.pool ∧ a.pool.WellFormed := ⟨le_rfl, ha.valid.pool⟩
  unfold iconst
  -- the smallest encoding that has room for the value is taken
  by_cases hsmall : -1 ≤ v ∧ v ≤ 5
  · have hbyte : v.toInt8.toInt32 = v := toInt32_toInt8 ⟨Int32.le_trans (by decide) hsmall.1,
      Int32.le_trans hsmall.2 (by decide)⟩
    rw [if_pos hsmall]
    refine ha.meets_loads (v := .int v) ⟨rfl, fun _ h => by cases h⟩ hpool rfl
      (if_pos (toInt8_inRange hsmall)) rfl ?_
    intro q _ env target pc next stack locals past
    show some (Config.running next (.int v.toInt8.toInt32 :: stack) locals past) = _
    rw [hbyte]
  · rw [if_neg hsmall]
    by_cases hbyte : -128 ≤ v ∧ v ≤ 127
    · rw [if_pos hbyte]
      refine ha.meets_loads (v := .int v) ⟨rfl, fun _ h => by cases h⟩ hpool rfl rfl rfl ?_
      intro q _ env target pc next stack locals past
      show some (Config.running next (.int v.toInt8.toInt32 :: stack) locals past) = _
      rw [toInt32_toInt8 hbyte]
    · rw [if_neg hbyte]
      by_cases hshort : -32768 ≤ v ∧ v ≤ 32767
      · rw [if_pos hshort]
        refine ha.meets_loads (v := .int v) ⟨rfl, fun _ h => by cases h⟩ hpool rfl rfl rfl ?_
        intro q _ env target pc next stack locals past
        show some (Config.running next (.int v.toInt16.toInt32 :: stack) locals past) = _
        rw [toInt32_toInt16 hshort]
      · rw [if_neg hshort]
        refine .bind ((meets_intern (Interning.meets_integer v ha.valid.pool)).mono ?_)
        rintro i b ⟨⟨hle, hq, hget⟩, hb⟩
        rw [hb]
        exact ha.meets_loadConstant (v := .int v) ⟨hle, hq⟩ rfl (ConstantPool.value?_integer hget)
          rfl

theorem meets_lconst (ha : a.Ready layout before) (v : Int64) :
    Meets (lconst v) a fun _ b => Loads a layout before (.long v) b := by
  have hpool : a.pool ≤ a.pool ∧ a.pool.WellFormed := ⟨le_rfl, ha.valid.pool⟩
  unfold lconst
  by_cases h0 : v = 0
  · rw [if_pos h0, h0]
    exact ha.meets_loads (v := .long 0) ⟨rfl, fun _ h => by cases h⟩ hpool rfl rfl rfl
      fun _ _ _ _ _ _ _ _ _ => rfl
  · rw [if_neg h0]
    by_cases h1 : v = 1
    · rw [if_pos h1, h1]
      exact ha.meets_loads (v := .long 1) ⟨rfl, fun _ h => by cases h⟩ hpool rfl rfl rfl
        fun _ _ _ _ _ _ _ _ _ => rfl
    · rw [if_neg h1]
      refine .bind ((meets_intern (Interning.meets_long v ha.valid.pool)).mono ?_)
      rintro i b ⟨⟨hle, hq, hget⟩, hb⟩
      have hv := ConstantPool.value?_long hget
      have hkind : constantKind b.pool i true = some .long := by
        unfold constantKind
        rw [hv]
        rfl
      rw [hb]
      refine ha.meets_loads (v := .long v) ⟨rfl, fun _ h => by cases h⟩ ⟨hle, hq⟩ rfl ?_ rfl ?_
      · show (constantKind b.pool i true).map (· :: before) = _
        rw [hkind]
        rfl
      · intro q hle env target pc next stack locals past
        show ((q.value? i).map fun v => (v :: stack, locals)).map _ = _
        rw [ConstantPool.value?_mono hle hv]
        rfl

theorem meets_ldcString (ha : a.Ready layout before) (text : String) :
    Meets (ldcString text) a fun _ b => Loads a layout before (.reference (.text text)) b := by
  refine .bind ((meets_intern (Interning.meets_string text ha.valid.pool)).mono ?_)
  rintro i b ⟨⟨hle, hq, n, hget, htext⟩, hb⟩
  rw [hb]
  exact ha.meets_loadConstant (v := .reference (.text text)) ⟨hle, hq⟩ rfl
    (ConstantPool.value?_string hget htext) rfl

/-! ## 2. Locals -/

theorem meets_load (ha : a.Ready layout before) {slot : UInt16} {type : FieldType}
    (hpacked : Packed layout) (hslot : layout[slot.toNat]? = some (some (.ofType type))) :
    Meets (load slot type) a fun _ b =>
      Emits a b (.load (.ofType type) slot) layout (.ofType type :: before) := by
  have hheld : ∃ held, a.locals[slot.toNat]? = some held ∧ held.kind? = some (.ofType type) := by
    rw [← ha.locals, kindsOf, List.getElem?_map, Array.getElem?_toList] at hslot
    exact Option.map_eq_some_iff.mp hslot
  obtain ⟨held, hget, hkind⟩ := hheld
  have htop : held ≠ .top := by
    rintro rfl
    cases hkind
  have hfit : Operation.LocalsFit (.load (.ofType type) slot) layout layout :=
    ⟨hslot, hpacked.width_le hslot, rfl⟩
  have hop : Operation.Straight (.load (.ofType type) slot) := ⟨rfl, fun _ h => by cases h⟩
  have hpush := (ha.meets_push hop ⟨le_rfl, ha.valid.pool⟩ hkind rfl hfit).mono fun _ _ h => h.1
  have hrun : (load slot type).run.run a =
      (do emit (.load (.ofType type) slot); push held : Assembly Unit).run.run a := by
    unfold load
    rw [run_bind, run_bind, run_emit ha.reachable]
    dsimp only
    rw [run_get_bind, hget]
    cases held <;> first | rfl | exact absurd rfl htop
  unfold Meets at hpush ⊢
  rw [hrun]
  exact hpush

theorem toList_localsAfterStore (locals : Array VerificationType) (slot : Nat) (type : FieldType) :
    (localsAfterStore locals slot type).toList =
      let stored := (locals.toList ++
        List.replicate (slot + type.slots - locals.size) VerificationType.top).set slot
        (.ofType type)
      if type.slots = 2 then stored.set (slot + 1) .top else stored := by
  unfold localsAfterStore
  dsimp only
  split <;> simp only [Array.toList_setIfInBounds, Array.toList_append, Array.toList_replicate]

/-- The locals once a value is in the next free slots. -/
theorem kindsOf_localsAfterStore (locals : Array VerificationType) (type : FieldType) :
    kindsOf (localsAfterStore locals locals.size type).toList =
      kindsOf locals.toList ++ layoutOf type := by
  have hset (ts : List VerificationType) (i : Nat) (t : VerificationType) :
      (locals.toList ++ ts).set (locals.size + i) t = locals.toList ++ ts.set i t := by
    rw [List.set_append_right _ _ (by simp)]
    simp
  rw [toList_localsAfterStore]
  dsimp only
  rw [Nat.add_sub_cancel_left, show locals.size = locals.size + 0 from
    rfl, hset, Nat.add_assoc, hset]
  have hmap (ts : List VerificationType) :
      kindsOf (locals.toList ++ ts) = kindsOf locals.toList ++ kindsOf ts := List.map_append
  cases type <;> exact hmap _

/-- The locals once another reference is in a slot. -/
theorem kindsOf_localsAfterStore_same {locals : Array VerificationType} {slot : Nat}
    {type : FieldType} (htype : ValueKind.ofType type = .reference)
    (hslot : (kindsOf locals.toList)[slot]? = some (some .reference)) :
    kindsOf (localsAfterStore locals slot type).toList = kindsOf locals.toList := by
  have hone : type.slots = 1 := by cases type <;> first | rfl | cases htype
  have hlt : slot < locals.size := by
    have := (List.getElem?_eq_some_iff.mp hslot).1
    rwa [length_kindsOf, Array.length_toList] at this
  rw [toList_localsAfterStore, hone, if_neg (by decide),
    show slot + 1 - locals.size = 0 by omega, List.replicate_zero, List.append_nil, kindsOf,
    List.map_set, VerificationType.kind?_ofType, htype]
  obtain ⟨hlt', hget⟩ := List.getElem?_eq_some_iff.mp hslot
  rw [← hget]
  exact List.set_getElem_self hlt'

theorem meets_store (ha : a.Ready layout (.ofType type :: before)) {slot : UInt16}
    (hkinds : kindsOf (localsAfterStore a.locals slot.toNat type).toList = layout')
    (hfit : Operation.LocalsFit (.store (.ofType type) slot) layout layout')
    (hguard : a.Closed ∨ layout' = layout) (hle : layout'.length ≤ 65535) :
    Meets (store slot type) a fun _ b =>
      Emits a b (.store (.ofType type) slot) layout' before := by
  obtain ⟨t, rest, hrest, ht, hbefore⟩ := kindsOf_eq_cons ha.stack
  refine .bind (.ofRun (run_emit ha.reachable) (.bind (.ofRun (run_pop hrest ha.valid.slots)
    (.ofModify ?_))))
  have hsize : (localsAfterStore a.locals slot.toNat type).size ≤ 65535 := by
    rwa [← hkinds, length_kindsOf, Array.length_toList] at hle
  have hnat : (UInt16.ofNat (localsAfterStore a.locals slot.toNat type).size).toNat =
      (localsAfterStore a.locals slot.toNat type).size := UInt16.toNat_ofNat_of_lt (by
    show _ < 65536
    omega)
  have heffect : Operation.effect a.pool (.store (.ofType type) slot) (.ofType type :: before) =
      some before := takeKinds_eq_some_iff.mpr rfl
  refine ha.adding (c := { a.withStack rest a.maxStack with
    locals := localsAfterStore a.locals slot.toNat type
    maxLocals := max a.maxLocals (UInt16.ofNat (localsAfterStore a.locals slot.toNat type).size) })
    ⟨rfl, fun _ h => by cases h⟩ heffect hfit hkinds hbefore hguard ⟨old_le_max _ _, ?_⟩
    ⟨UInt16.le_refl _, .inr ?_⟩ ⟨le_rfl, ha.valid.pool⟩
  · have hmax := UInt16.le_iff_toNat_le.mp (new_le_max a.maxLocals
      (UInt16.ofNat (localsAfterStore a.locals slot.toNat type).size))
    rwa [hnat] at hmax
  · rw [hrest]
    exact List.suffix_cons _ _

/-- A declaration. -/
theorem meets_store_next (ha : a.Ready layout (.ofType type :: before)) (hclosed : a.Closed)
    (hpacked : Packed layout) {slot : UInt16} (hslot : Declares layout slot type) :
    Meets (store slot type) a fun _ b =>
      Emits a b (.store (.ofType type) slot) (layout ++ layoutOf type) before := by
  have hsize : slot.toNat = a.locals.size := by
    rw [hslot.1, ← ha.locals, length_kindsOf, Array.length_toList]
  have hlength : (layout ++ layoutOf type).length = slot.toNat + (ValueKind.ofType type).width := by
    rw [List.length_append, hslot.1]
    exact congrArg _ (ValueKind.length_layout _)
  refine meets_store ha ?_ ⟨Nat.le_of_eq hlength.symm, ?_⟩ (.inl hclosed) ?_
  · rw [hsize, kindsOf_localsAfterStore, ha.locals]
  · rw [hslot.1]
    exact hpacked.slots_append _
  · rw [List.length_append]
    exact hslot.2

/-- Another reference in a slot that holds one. -/
theorem meets_store_again (ha : a.Ready layout (.ofType type :: before)) (hpacked : Packed layout)
    (htype : ValueKind.ofType type = .reference) {slot : UInt16}
    (hslot : layout[slot.toNat]? = some (some .reference)) (hle : layout.length ≤ 65535) :
    Meets (store slot type) a fun _ b =>
      Emits a b (.store (.ofType type) slot) layout before := by
  refine meets_store ha ?_ ⟨?_, ?_⟩ (.inr rfl) hle
  · rw [← ha.locals]
    exact kindsOf_localsAfterStore_same htype (by rw [ha.locals, hslot])
  · rw [htype]
    exact hpacked.width_le hslot
  · rw [htype]
    exact hpacked.slots_replace hslot

/-! ## 3. Members -/

variable {owner name : String}

theorem meets_fieldIndex {type : FieldType} (ha : a.Valid) (hreadable : type.Readable) :
    Meets (intern (Interning.fieldRef owner name type.descriptor)) a fun i b =>
      (a.pool ≤ b.pool ∧ b.pool.WellFormed) ∧ b.pool.field? i = some ⟨owner, name, type⟩ ∧
        b = { a with pool := b.pool } := by
  refine (meets_intern (Interning.meets_fieldRef owner name type.descriptor ha.pool)).mono ?_
  rintro i b ⟨⟨hle, hq, hget, href⟩, hb⟩
  exact ⟨⟨hle, hq⟩, ConstantPool.field?_eq_some_iff.mpr ⟨hget, _, href, rfl, rfl, hreadable⟩, hb⟩

theorem meets_classIndex (ha : a.Valid) : Meets (intern (Interning.classRef name)) a fun i b =>
    (a.pool ≤ b.pool ∧ b.pool.WellFormed) ∧ b.pool.class? i = some name ∧
      b = { a with pool := b.pool } := by
  refine (meets_intern (Interning.meets_classRef name ha.pool)).mono ?_
  rintro i b ⟨⟨hle, hq, hget⟩, hb⟩
  exact ⟨⟨hle, hq⟩, ConstantPool.class?_eq_some_iff.mpr hget, hb⟩

theorem meets_getField (ha : a.Ready layout (.reference :: before)) (hreadable : type.Readable) :
    Meets (getField owner name type) a fun _ b => ∃ i,
      Emits a b (.getField i) layout (.ofType type :: before) ∧
        b.pool.field? i = some ⟨owner, name, type⟩ := by
  refine .bind ((meets_fieldIndex ha.valid hreadable).mono ?_)
  rintro i b ⟨hpool, hi, hb⟩
  rw [hb]
  have hop : Operation.Straight (.getField i) := ⟨rfl, fun _ h => by cases h⟩
  have heffect : Operation.effect b.pool (.getField i) (.reference :: before) =
      some (.ofType type :: before) := by
    show (b.pool.field? i).bind _ = _
    rw [hi]
    rfl
  refine (ha.meets_replace hop hpool (VerificationType.kind?_ofType type) heffect rfl).mono ?_
  rintro - d ⟨hemits, hd⟩
  exact ⟨i, hemits, hd ▸ hi⟩

theorem meets_getStatic (ha : a.Ready layout before) (hreadable : type.Readable) :
    Meets (getStatic owner name type) a fun _ b => ∃ i,
      Emits a b (.getStatic i) layout (.ofType type :: before) ∧
        b.pool.field? i = some ⟨owner, name, type⟩ := by
  refine .bind ((meets_fieldIndex ha.valid hreadable).mono ?_)
  rintro i b ⟨hpool, hi, hb⟩
  rw [hb]
  have hop : Operation.Straight (.getStatic i) := ⟨rfl, fun _ h => by cases h⟩
  have heffect : Operation.effect b.pool (.getStatic i) before = some (.ofType type :: before) := by
    show (b.pool.field? i).map _ = _
    rw [hi]
    rfl
  refine (ha.meets_push hop hpool (VerificationType.kind?_ofType type) heffect rfl).mono ?_
  rintro - d ⟨hemits, hd⟩
  exact ⟨i, hemits, hd ▸ hi⟩

theorem meets_newObject (ha : a.Ready layout before) :
    Meets (newObject name) a fun _ b => ∃ i,
      Emits a b (.new i) layout (.reference :: before) ∧ b.pool.class? i = some name := by
  refine .bind ((meets_classIndex ha.valid).mono ?_)
  rintro i b ⟨hpool, hi, hb⟩
  rw [hb]
  have hop : Operation.Straight (.new i) := ⟨rfl, fun _ h => by cases h⟩
  have heffect : Operation.effect b.pool (.new i) before = some (.reference :: before) := by
    show (b.pool.class? i).map _ = _
    rw [hi]
    rfl
  refine .bind (.ofGet ?_)
  refine (ha.meets_push (t := .uninitialized (UInt16.ofNat a.offset)) hop hpool rfl heffect
    rfl).mono ?_
  rintro - d ⟨hemits, hd⟩
  exact ⟨i, hemits, hd ▸ hi⟩

theorem meets_checkcast (ha : a.Ready layout (.reference :: before)) :
    Meets (checkcast name) a fun _ b => ∃ i,
      Emits a b (.checkcast i) layout (.reference :: before) ∧ b.pool.class? i = some name := by
  refine .bind ((meets_classIndex ha.valid).mono ?_)
  rintro i b ⟨hpool, hi, hb⟩
  rw [hb]
  have hop : Operation.Straight (.checkcast i) := ⟨rfl, fun _ h => by cases h⟩
  have heffect : Operation.effect b.pool (.checkcast i) (.reference :: before) =
      some (.reference :: before) := by
    show (b.pool.class? i).bind _ = _
    rw [hi]
    rfl
  refine (ha.meets_replace (t := .object name) hop hpool rfl heffect rfl).mono ?_
  rintro - d ⟨hemits, hd⟩
  exact ⟨i, hemits, hd ▸ hi⟩

/-! ## 4. Stack and arithmetic -/

theorem meets_dup (ha : a.Ready layout (k :: before)) (hk : k.isWide = false) :
    Meets dup a fun _ b => Emits a b .dup layout (k :: k :: before) := by
  obtain ⟨t, rest, hrest, ht, hbefore⟩ := kindsOf_eq_cons ha.stack
  have hwide : t.isWide = false := by rw [VerificationType.isWide_of_kind? ht, hk]
  have heffect : Operation.effect a.pool .dup (k :: before) = some (k :: k :: before) := by
    rw [Operation.effect, if_neg (by simp [hk])]
  have hstack : kindsOf (t :: t :: rest) = (k :: k :: before).map some := by
    show t.kind? :: t.kind? :: kindsOf rest = _
    rw [ht, hbefore]
    rfl
  unfold dup
  refine .bind (.ofRun (run_emit ha.reachable) (.bind (.ofRun (run_pop hrest ha.valid.slots) ?_)))
  rw [if_neg (by simp [hwide])]
  refine .bind (.ofRun (run_push rfl) (.ofRun (run_push rfl) ?_))
  refine ha.onStack
    (c := a.withStack (t :: t :: rest) (max (max a.maxStack (stackWidth (t :: rest)))
    (stackWidth (t :: t :: rest)))) ⟨rfl, fun _ h => by cases h⟩ heffect rfl ⟨rfl, rfl⟩ hstack
    ⟨UInt16.le_trans (old_le_max _ _) (old_le_max _ _), .inl (new_le_max _ _)⟩
    ⟨le_rfl, ha.valid.pool⟩

theorem meets_popValue (ha : a.Ready layout (k :: before)) :
    Meets popValue a fun _ b => Emits a b (if k.isWide then .pop2 else .pop) layout before := by
  obtain ⟨t, rest, hrest, ht, hbefore⟩ := kindsOf_eq_cons ha.stack
  have heffect : Operation.effect a.pool (if k.isWide then .pop2 else .pop) (k :: before) =
      some before := by
    by_cases hk : k.isWide = true <;> simp [Operation.effect, hk]
  have hop : Operation.Straight (if k.isWide then .pop2 else .pop) := by
    split <;> exact ⟨rfl, fun _ h => by cases h⟩
  have hfit : Operation.LocalsFit (if k.isWide then .pop2 else .pop) layout layout := by
    split <;> rfl
  unfold popValue
  refine .bind (.ofGet ?_)
  rw [hrest]
  dsimp only
  rw [VerificationType.isWide_of_kind? ht]
  refine .bind (.ofRun (run_emit ha.reachable) (.bind (.ofRun (run_pop hrest ha.valid.slots)
    (.ofPure ?_))))
  refine ha.onStack (c := a.withStack rest a.maxStack) hop heffect hfit ⟨rfl, rfl⟩ hbefore
    ⟨UInt16.le_refl _, .inr ?_⟩ ⟨le_rfl, ha.valid.pool⟩
  rw [hrest]
  exact List.suffix_cons _ _

theorem meets_swap (ha : a.Ready layout (k :: k' :: before)) (hk : k.isWide = false)
    (hk' : k'.isWide = false) :
    Meets swap a fun _ b => Emits a b .swap layout (k' :: k :: before) := by
  obtain ⟨t, rest, hrest, ht, hbefore⟩ := kindsOf_eq_cons ha.stack
  obtain ⟨t', rest, rfl, ht', hbefore⟩ := kindsOf_eq_cons hbefore
  have hwide : ¬(t.isWide || t'.isWide) = true := by
    rw [VerificationType.isWide_of_kind? ht, VerificationType.isWide_of_kind? ht', hk, hk']
    decide
  have heffect : Operation.effect a.pool .swap (k :: k' :: before) = some (k' :: k :: before) := by
    rw [Operation.effect, if_neg (by simp [hk, hk'])]
  have hstack : kindsOf (t' :: t :: rest) = (k' :: k :: before).map some := by
    show t'.kind? :: t.kind? :: kindsOf rest = _
    rw [ht, ht', hbefore]
    rfl
  unfold swap
  refine .bind (.ofRun (run_emit ha.reachable) (.bind (.ofRun (run_pop hrest ha.valid.slots)
    (.bind (.ofRun (run_pop rfl rfl) ?_)))))
  rw [if_neg hwide]
  refine .bind (.ofRun (run_push rfl) (.ofRun (run_push rfl) ?_))
  refine ha.onStack
    (c := a.withStack (t' :: t :: rest) (max (max a.maxStack (stackWidth (t :: rest)))
    (stackWidth (t' :: t :: rest)))) ⟨rfl, fun _ h => by cases h⟩ heffect rfl ⟨rfl, rfl⟩ hstack
    ⟨UInt16.le_trans (old_le_max _ _) (old_le_max _ _), .inl (new_le_max _ _)⟩
    ⟨le_rfl, ha.valid.pool⟩

/-- An instruction that takes two values and pushes one. -/
theorem Ready.meets_combine {k₁ k₂ : ValueKind} (ha : a.Ready layout (k₁ :: k₂ :: before))
    (hop : op.Straight) (ht : t.kind? = some k)
    (heffect : op.effect a.pool (k₁ :: k₂ :: before) = some (k :: before))
    (hlocals : op.LocalsFit layout layout) :
    Meets (do emit op; popMany 2; push t) a fun _ b => Emits a b op layout (k :: before) := by
  obtain ⟨taken, rest, hrest, hlength, hbefore⟩ := kindsOf_eq_append [k₁, k₂] ha.stack
  have hstack : kindsOf (t :: rest) = (k :: before).map some := by
    show t.kind? :: kindsOf rest = _
    rw [ht, hbefore]
    rfl
  refine .bind (.ofRun (run_emit ha.reachable) ?_)
  rw [show 2 = taken.length from hlength.symm]
  refine .bind (.ofRun (run_popMany hrest ha.valid.slots) (.ofRun (run_push rfl) ?_))
  exact ha.onStack (c := a.withStack (t :: rest) (max a.maxStack (stackWidth (t :: rest)))) hop
    heffect hlocals ⟨rfl, rfl⟩ hstack ⟨old_le_max _ _, .inl (new_le_max _ _)⟩
    ⟨le_rfl, ha.valid.pool⟩

theorem meets_lcmp (ha : a.Ready layout (.long :: .long :: before)) :
    Meets lcmp a fun _ b => Emits a b .lcmp layout (.int :: before) :=
  ha.meets_combine ⟨rfl, fun _ h => by cases h⟩ rfl rfl rfl

theorem meets_add (ha : a.Ready layout (.ofType type :: .ofType type :: before))
    (htype : ValueKind.ofType type = .int ∨ ValueKind.ofType type = .long) :
    Meets (add type) a fun _ b => ∃ op,
      ((ValueKind.ofType type = .int ∧ op = .iadd) ∨ (ValueKind.ofType type = .long ∧ op = .ladd)) ∧
        Emits a b op layout (.ofType type :: before) := by
  unfold add
  rcases htype with h | h
  · have hop : Operation.Straight .iadd := ⟨rfl, fun _ h => by cases h⟩
    rw [h] at ha ⊢
    refine (ha.meets_combine hop (t := .integer) rfl rfl rfl).mono fun _ _ hb => ?_
    exact ⟨.iadd, .inl ⟨rfl, rfl⟩, hb⟩
  · have hop : Operation.Straight .ladd := ⟨rfl, fun _ h => by cases h⟩
    rw [h] at ha ⊢
    refine (ha.meets_combine hop (t := .long) rfl rfl rfl).mono fun _ _ hb => ?_
    exact ⟨.ladd, .inr ⟨rfl, rfl⟩, hb⟩

theorem Conversion.kinds_of_ofKinds? {source target : ValueKind} {c : Conversion}
    (h : Conversion.ofKinds? source target = some c) : c.kinds = (source, target) := by
  cases source <;> cases target <;> cases h <;> rfl

/-- A conversion that changes how a number is held is an instruction. -/
theorem meets_convert {source target : FieldType} {c : Conversion}
    (ha : a.Ready layout (.ofType source :: before))
    (hother : ¬(source = target ∨ (source.isIntLike ∧ target.isIntLike)))
    (hc : Conversion.ofKinds? (.ofType source) (.ofType target) = some c) :
    Meets (widen source target) a fun _ b =>
      Emits a b (.convert c) layout (.ofType target :: before) := by
  have hkinds := Conversion.kinds_of_ofKinds? hc
  have heffect : Operation.effect a.pool (.convert c) (.ofType source :: before) =
      some (.ofType target :: before) := by
    show (takeKinds [c.kinds.1] (.ofType source :: before)).map (c.kinds.2 :: ·) = _
    rw [hkinds]
    exact Option.map_eq_some_iff.mpr ⟨before, takeKinds_eq_some_iff.mpr rfl, rfl⟩
  have hop : Operation.Straight (.convert c) := ⟨rfl, fun _ h => by cases h⟩
  unfold widen
  rw [if_neg hother, hc]
  exact (ha.meets_replace hop ⟨le_rfl, ha.valid.pool⟩ (VerificationType.kind?_ofType target) heffect
    rfl).mono fun _ _ hb => hb.1

/-! ## 5. Calls -/

/-- Marking an object as initialized changes no kind. -/
theorem kind?_become {t receiver : VerificationType} (h : receiver.isUninitialized = true) :
    (if t = receiver then VerificationType.object owner else t).kind? = t.kind? := by
  split
  next heq =>
    subst heq
    cases t <;> first | rfl | cases h
  next => rfl

theorem kindsOf_become (owner : String) (types : List VerificationType)
    {receiver : VerificationType} (h : receiver.isUninitialized = true) :
    kindsOf (types.map fun t => if t = receiver then .object owner else t) = kindsOf types := by
  unfold kindsOf
  rw [List.map_map]
  exact List.map_congr_left fun t _ => kind?_become h

theorem stackWidth_become {types : List VerificationType} {receiver : VerificationType}
    (h : receiver.isUninitialized = true) :
    stackWidth (types.map fun t => if t = receiver then .object owner else t) =
    stackWidth types := by
  induction types with
  | nil => rfl
  | cons t types ih =>
    have hwidth : (if t = receiver then VerificationType.object owner else t).width = t.width := by
      split
      next heq =>
        subst heq
        cases t <;> first | rfl | cases h
      next => rfl
    exact congrArg₂ (· + ·) hwidth ih

/-- What a call leaves, once its operands have been taken. -/
theorem Ready.meets_result (ha : a.Ready layout after) {ret : Option FieldType}
    {locals : Array VerificationType} {stack : List VerificationType} {x : Assembly Unit}
    (hx : x = match ret with | some t => push (.ofType t) | none => pure ()) (hop : op.Straight)
    (hpool : a.pool ≤ pool ∧ pool.WellFormed)
    (heffect : op.effect pool after = some ((ret.map ValueKind.ofType).toList ++ before))
    (hfit : op.LocalsFit layout layout) (hlocals : kindsOf locals.toList = layout)
    (hstack : kindsOf stack = before.map some) (hsuffix : kindsOf stack <:+ kindsOf a.stack) :
    Meets x
      { a with
        pool
        operations := a.operations.push op
        offset := a.offset + op.size
        locals
        stack
        stackSlots := stackWidth stack } fun _ b =>
      Emits a b op layout ((ret.map ValueKind.ofType).toList ++ before) ∧ b.pool = pool := by
  -- the types of the locals may have been replaced, but their kinds, and so their number, are the
  -- same
  have hsize : locals.size ≤ a.maxLocals.toNat := by
    have hlength := congrArg List.length (hlocals.trans ha.locals.symm)
    rw [length_kindsOf, length_kindsOf, Array.length_toList, Array.length_toList] at hlength
    rw [hlength]
    exact ha.valid.locals_le
  rw [hx]
  cases ret with
  | some t =>
    refine .ofRun (run_push rfl) ⟨ha.adding (c := { a.withStack (.ofType t :: stack)
      (max a.maxStack (stackWidth (.ofType t :: stack))) with pool, locals }) hop heffect hfit
      hlocals ?_ (.inr rfl) ⟨UInt16.le_refl _, hsize⟩ ⟨old_le_max _ _, .inl (new_le_max _ _)⟩ hpool,
      rfl⟩
    show (VerificationType.ofType t).kind? :: kindsOf stack = _
    rw [VerificationType.kind?_ofType, hstack]
    rfl
  | none =>
    exact .ofPure ⟨ha.adding (c := { a.withStack stack a.maxStack with pool, locals }) hop heffect
      hfit hlocals hstack (.inr rfl) ⟨UInt16.le_refl _, hsize⟩ ⟨UInt16.le_refl _, .inr hsuffix⟩
      hpool, rfl⟩

/-- The operands of an interface call take the slots of the arguments, and one for the object. -/
theorem kindSlots_operandKinds {c : Callee} (h : c.kind = .interface) :
    kindSlots (operandKinds c) = (c.type.params.map FieldType.slots).sum + 1 := by
  have hwidth : ValueKind.width ∘ ValueKind.ofType = FieldType.slots :=
    funext ValueKind.width_ofType
  unfold kindSlots operandKinds
  rw [if_neg (by rw [h]; decide), List.map_append, List.map_reverse, List.map_map, hwidth,
    List.sum_append, List.sum_reverse]
  rfl

theorem paramSlots_add_one {c : Callee} (h : c.kind = .interface) :
    c.type.paramSlots + 1 = UInt16.ofNat (kindSlots (operandKinds c)) := by
  rw [kindSlots_operandKinds h, UInt16.ofNat_add, List.sum_eq_foldr, List.foldr_map]
  rfl

theorem meets_invoke {c : Callee} (hc : c.WellFormed)
    (ha : a.Ready layout (operandKinds c ++ before)) :
    Meets (invoke c.kind c.owner c.name c.type c.onInterface) a fun _ b => ∃ i slots,
      Emits a b (.invoke c.kind i slots) layout
        ((c.type.ret.map ValueKind.ofType).toList ++ before) ∧
        b.pool.callee? c.kind i = some c := by
  -- a method that is called as one of an interface is referred to as one
  have hform : (c.onInterface || decide (c.kind = .interface)) = c.onInterface := by
    by_cases hkind : c.kind = .interface
    · rw [hc.ofInterface hkind, Bool.true_or]
    · simp [hkind]
  unfold invoke
  rw [hform]
  refine .bind ((meets_intern (Interning.meets_methodRef c.owner c.name c.type.descriptor
    c.onInterface ha.valid.pool)).mono ?_)
  rintro i b ⟨⟨hle, hq, hget, href⟩, hb⟩
  have hcallee : b.pool.callee? c.kind i = some c :=
    ConstantPool.callee?_eq_some_iff.mpr
      ⟨rfl, hget, ⟨hc.ofInterface, hc.ofClass⟩, _, href, rfl, rfl, hc.readable⟩
  extract_lets slots answer send
  have hop : Operation.Straight (.invoke c.kind i slots.toUInt8) := ⟨rfl, fun _ h => by cases h⟩
  -- an interface call with too many slots is refused
  by_cases hmany : c.kind = .interface ∧ slots > 255
  · rw [if_pos hmany]
    refine .bind (.ofThrow ?_)
    obtain ⟨hkind, hmany⟩ := hmany
    have hslots : slots = UInt16.ofNat (kindSlots (operandKinds c)) := paramSlots_add_one hkind
    have hle : slots.toNat ≤ kindSlots (operandKinds c) := by
      rw [hslots, UInt16.toNat_ofNat']
      exact Nat.mod_le _ _
    show 255 < (c.type.params.map FieldType.slots).sum + 1
    rw [← kindSlots_operandKinds hkind]
    exact Nat.lt_of_lt_of_le (UInt16.lt_iff_toNat_lt.mp hmany) hle
  rw [if_neg hmany]
  have hcounts : Counts c.kind c slots.toUInt8 := by
    intro hkind
    have hsmall : slots.toNat ≤ 255 :=
      UInt16.le_iff_toNat_le.mp (UInt16.not_lt.mp fun h => hmany ⟨hkind, h⟩)
    rw [← paramSlots_add_one hkind]
    apply UInt16.toNat_inj.mp
    rw [UInt8.toNat_toUInt16, UInt16.toNat_toUInt8]
    exact Nat.mod_eq_of_lt (Nat.lt_succ_of_le hsmall)
  have heffect : Operation.effect b.pool (.invoke c.kind i slots.toUInt8)
      (operandKinds c ++ before) = some ((c.type.ret.map ValueKind.ofType).toList ++ before) :=
    Operation.effect_invoke_eq_some_iff.mpr ⟨c, hcallee, hcounts,
      Option.map_eq_some_iff.mpr ⟨before, takeKinds_eq_some_iff.mpr rfl, rfl⟩⟩
  have hsend : Meets (send ()) b fun _ d => ∃ i slots,
      Emits a d (.invoke c.kind i slots) layout
        ((c.type.ret.map ValueKind.ofType).toList ++ before) ∧
          d.pool.callee? c.kind i = some c := by
    -- the types of locals and operands may change where an object is initialized; only their kinds
    -- matter from here on
    have hanswer {locals : Array VerificationType} {stack : List VerificationType}
        (hlocals : kindsOf locals.toList = kindsOf a.locals.toList)
        (hstack : kindsOf stack = before.map some) (hsuffix : kindsOf stack <:+ kindsOf a.stack) :=
      (ha.meets_result (x := answer ()) rfl hop ⟨hle, hq⟩ heffect rfl (hlocals.trans ha.locals)
        hstack hsuffix).mono fun _ d hd => (⟨i, slots.toUInt8, hd.1, hd.2 ▸ hcallee⟩ : ∃ i slots,
          Emits a d (.invoke c.kind i slots) layout
            ((c.type.ret.map ValueKind.ofType).toList ++ before) ∧ d.pool.callee? c.kind i = some c)
    have hkinds := ha.stack
    unfold operandKinds at hkinds
    rw [List.append_assoc] at hkinds
    -- the arguments stand above the receiver
    obtain ⟨args, rest, hargs, hlength, hrest⟩ := kindsOf_eq_append _ hkinds
    have hsuffix : kindsOf rest <:+ kindsOf a.stack := by
      rw [hargs]
      exact ⟨kindsOf args, List.map_append.symm⟩
    have hcount : c.type.params.length = args.length := by simp [hlength]
    rw [hb]
    refine .bind (.ofRun (run_emit ha.reachable) ?_)
    rw [hcount]
    refine .bind (.ofRun (run_popMany hargs ha.valid.slots) ?_)
    by_cases hstatic : c.kind = .static
    · rw [if_neg (by simp [hstatic])]
      rw [if_pos hstatic] at hrest
      exact hanswer rfl hrest hsuffix
    · rw [if_pos hstatic]
      rw [if_neg hstatic] at hrest
      obtain ⟨receiver, rest, rfl, hreceiver, hbefore⟩ := kindsOf_eq_cons hrest
      have hsuffix' : kindsOf rest <:+ kindsOf a.stack := (List.suffix_cons _ _).trans hsuffix
      refine .bind (.ofRun (run_pop rfl rfl) ?_)
      by_cases hinit : c.name = "<init>" ∧ receiver.isUninitialized = true
      · rw [if_pos hinit]
        -- initialized, the object has another type on the stack and in the locals, of the same kind
        -- and width
        refine .bind (.ofModify ?_)
        have hlocals := kindsOf_become c.owner a.locals.toList hinit.2
        have hstack := kindsOf_become c.owner rest hinit.2
        have hmarked := hanswer (by rw [Array.toList_map, hlocals]) (hstack.trans hbefore)
          (hstack ▸ hsuffix')
        rw [stackWidth_become hinit.2] at hmarked
        exact hmarked
      · rw [if_neg hinit]
        exact hanswer rfl hbefore hsuffix'
  exact hsend

end MethodGraft.Code.Assembler
