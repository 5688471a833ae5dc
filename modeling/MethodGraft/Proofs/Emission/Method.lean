import MethodGraft.Proofs.Emission.FieldReads

/-!
# Proofs.Emission.Method — code is generated for every method

Code generation for a well-formed method starts from an empty body, ends where control cannot get,
and has placed every label by then.
-/

namespace MethodGraft

namespace Code.Assembler

open ClassFile Typed

/-! ## 1. The empty body -/

theorem labelState_start (pool : ConstantPool) (receiver : Option String) (params : List FieldType)
    (l : Label) : (start pool receiver params).labelState l = {} := by
  rw [labelState_unmade]
  exact Nat.zero_le _

theorem kindsOf_localSlots (params : List FieldType) :
    kindsOf (VerificationType.localSlots params) = params.flatMap layoutOf := by
  unfold VerificationType.localSlots kindsOf
  rw [List.map_flatMap]
  congr 1
  funext t
  cases t <;> rfl

theorem kindsOf_start (pool : ConstantPool) (receiver : Option String) (params : List FieldType) :
    kindsOf (start pool receiver params).locals.toList =
      receiver.toList.map (fun _ => some ValueKind.reference) ++ params.flatMap layoutOf := by
  have happend : kindsOf (start pool receiver params).locals.toList =
      kindsOf (receiver.toList.map VerificationType.object) ++
        kindsOf (VerificationType.localSlots params) := List.map_append
  rw [happend, kindsOf_localSlots]
  cases receiver <;> rfl

theorem valid_start {pool : ConstantPool} {receiver : Option String} {params : List FieldType}
    (hpool : pool.WellFormed) (hsize : (start pool receiver params).locals.size ≤ 65535) :
    (start pool receiver params).Valid where
  pool := hpool
  offset := rfl
  operations op hop := by cases hop
  labels l := by
    rw [labelState_start]
    exact .fresh 0
  handlers h hh := by cases hh
  dead h := by cases h
  locals_le := by
    have hnat : (UInt16.ofNat (start pool receiver params).locals.size).toNat =
        (start pool receiver params).locals.size := UInt16.toNat_ofNat_of_lt (by
      show _ < 65536
      omega)
    exact Nat.le_of_eq hnat.symm
  stack_le := Nat.le_refl _
  slots := rfl

end Code.Assembler

namespace Typed

open ClassFile Code Assembly Assembler Machine Direct

variable {a b : Assembler} {m : Method}

def Method.start (m : Method) (owner : String) (pool : ConstantPool) : Assembler :=
  .start pool (if m.flags.isStatic then none else some owner) m.type.params

theorem Method.ready_start (hm : m.WellFormed) (owner : String) {pool : ConstantPool}
    (hpool : pool.WellFormed) : (m.start owner pool).Ready m.layout [] := by
  have hkinds : kindsOf (m.start owner pool).locals.toList = m.layout := by
    unfold start Method.layout
    rw [kindsOf_start]
    split <;> rfl
  refine ⟨valid_start hpool ?_, rfl, hkinds, rfl⟩
  have hsize := hm.layout_le
  rw [← hkinds, length_kindsOf, Array.length_toList] at hsize
  exact hsize

/-! ## 2. Arguments -/

def Method.kinds (m : Method) : List ValueKind :=
  (if m.flags.isStatic then [] else [.reference]) ++ m.type.params.map .ofType

theorem Method.layout_eq_flatMap (m : Method) : m.layout = m.kinds.flatMap ValueKind.layout := by
  unfold Method.layout Method.kinds
  rw [List.flatMap_append, List.flatMap_map]
  split <;> rfl

/-- What is passed agrees with the layout that the method begins with. -/
theorem agree_passed {args : List Machine.Value} (hargs : args.map Machine.Value.kind = m.kinds) :
    Agree m.layout (passed args) (passed args) := by
  intro i k hi
  have hlayout : m.layout = (args.flatMap fun v =>
      if v.kind.isWide then [some v, none] else [some v]).map (Option.map Machine.Value.kind) := by
    rw [m.layout_eq_flatMap, ← hargs, List.flatMap_map, List.map_flatMap]
    congr 1
    funext v
    unfold ValueKind.layout
    split <;> rfl
  rw [hlayout, List.getElem?_map] at hi
  obtain ⟨slot, hslot, hk⟩ := Option.map_eq_some_iff.mp hi
  obtain ⟨v, rfl, rfl⟩ := Option.map_eq_some_iff.mp hk
  have hv : passed args i = some v := by
    unfold passed
    rw [hslot]
    rfl
  exact ⟨v, hv, hv, rfl⟩

/-! ## 3. The whole body -/

structure EmitsMethod (m : Method) (a b : Assembler) : Prop where
  quiet : Quiet [] a b
  closed : b.Closed
  dead : b.reachable = false
  runs : ∀ {F P}, b.Extends F → Laid F P → ∀ env args, args.map Machine.Value.kind = m.kinds →
    ∃ outcome past, method env m args = some (outcome, past) ∧
      Reaches env P (.running a.offset [] (passed args) []) (.ended outcome past)

/-- A run that keeps up with the statements of a method, and returns where they end, is a run of the
method. -/
theorem method_of_follows {env : Environment} {P : Program} {args : List Machine.Value} {p q : Nat}
    {layout : Layout} {onward : Prop} (hargs : Agree layout (passed args) (passed args))
    (hbody : ExecutesAll env P layout p q m.body onward)
    (hreturn : onward → ∃ n, P.fetch q = some (.ret none, n)) :
    ∃ outcome past, method env m args = some (outcome, past) ∧
      Reaches env P (.running p [] (passed args) []) (.ended outcome past) := by
  have h := hbody ⟨passed args, []⟩ (passed args) hargs
  unfold Follows at h
  unfold method
  generalize (stmts env m.body).run.run ⟨passed args, []⟩ = out at h ⊢
  obtain ⟨r, memory⟩ := out
  cases r with
  | ok =>
    obtain ⟨d, hd, hon, μ, -, rfl⟩ := h
    obtain ⟨n, hfetch⟩ := hreturn hon
    exact ⟨_, _, rfl, hd.trans (reaches_execute hfetch rfl)⟩
  | error exit =>
    obtain ⟨d, hd, hends⟩ := h
    cases exit with
    | thrown e =>
      cases hends
      exact ⟨_, _, rfl, hd⟩
    | returned v =>
      cases hends
      exact ⟨_, _, rfl, hd⟩
    | stuck => cases hends

theorem meets_emit (hm : m.WellFormed) (ha : a.Ready m.layout []) (hclosed : a.Closed) :
    Meets m.emit a fun _ b => EmitsMethod m a b := by
  refine .bind ((meets_inBlock (stmtsMeet m.body) m.packed_layout hm.body hclosed ha).mono
    fun _ b hb => ?_)
  refine meets_whenReachable (fun hreach => ?_) fun hdead => ?_
  · have hfalls : m.fallsThrough = true := hm.fallsThrough.trans (hb.completes hreach)
    rw [if_neg (by simp [hfalls, hm.missingNoReturn hfalls])]
    refine (meets_return (hb.ready hreach)).mono ?_
    rintro - c ⟨hstep, rfl⟩
    have hquiet := quiet_returned hstep
    refine ⟨hb.quiet.trans hquiet, closed_of_handlers hb.closed hquiet.builds.extends rfl, rfl,
      fun hF hP env args hargs => ?_⟩
    refine method_of_follows (agree_passed hargs)
      (hb.executes ha.reachable (hquiet.builds.extends.trans hF) hP env) fun _ => ?_
    obtain ⟨t, hfetch, -⟩ := hP.fetch_next (hb.ready hreach).valid rfl hF
    exact ⟨_, hfetch⟩
  · refine ⟨hb.quiet, hb.closed, hdead, fun hF hP env args hargs => ?_⟩
    refine method_of_follows (agree_passed hargs) (hb.executes ha.reachable hF hP env) fun h => ?_
    rw [hdead] at h
    cases h

end Typed

end MethodGraft
