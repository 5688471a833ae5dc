import MethodGraft.Proofs.Pool.Codec

/-!
# Proofs.Pool.Requests — pools through whole runs of requests

A request is a call of one of the functions that add constants.  From the empty pool, or from one
that was read, any sequence of requests leads to a sound pool, whether they succeed or fail.  An
index that a request got keeps its meaning from then on, it is what the same request gets again, and
no other request gets it.
-/

namespace MethodGraft.ClassFile

/-! ## 1. Sound pools -/

inductive Demand where
  /-- It is a text or the bytes of none. -/
  | utf8
  | classRef
  | nameAndType
  /-- It is any constant that can be used. -/
  | any
  deriving DecidableEq, Repr

def Demand.Admits : Demand → Constant → Prop
  | .utf8, c => (∃ text, c = .utf8 text) ∨ ∃ raw, c = .utf8Bytes raw
  | .classRef, c => ∃ n, c = .classRef n
  | .nameAndType, c => ∃ n d, c = .nameAndType n d
  | .any, _ => True

def Constant.demands : Constant → List (UInt16 × Demand)
  | .classRef i | .string i | .methodType i | .module i | .package i => [(i, .utf8)]
  | .nameAndType i j => [(i, .utf8), (j, .utf8)]
  | .fieldRef i j | .methodRef i j | .interfaceMethodRef i j => [(i, .classRef), (j, .nameAndType)]
  | .dynamic _ j | .invokeDynamic _ j => [(j, .nameAndType)]
  | .methodHandle _ i => [(i, .any)]
  | _ => []

namespace ConstantPool

variable {p q : ConstantPool}

/-- The index leads to a constant that can be used and is of the kind that is demanded. -/
def Satisfies (p : ConstantPool) (demand : UInt16 × Demand) : Prop :=
  ∃ c, p.get demand.1 = .ok c ∧ demand.2.Admits c

/-- What holds of a pool at any time. -/
structure Sound (p : ConstantPool) : Prop where
  size_le : p.entries.size ≤ 65535
  unusable : ∀ k, p.entries[k]? = some .unusable ↔
    k = 0 ∨ ∃ j c, k = j + 1 ∧ p.entries[j]? = some c ∧ c.isWide = true
  references : ∀ c ∈ p.entries, ∀ demand ∈ Constant.demands c, p.Satisfies demand

theorem checkUtf8_eq_ok_iff {i : UInt16} : p.checkUtf8 i = .ok () ↔ p.Satisfies (i, .utf8) := by
  unfold checkUtf8 Satisfies
  cases h : p.get i with
  | error e => simp [bind, Except.bind]
  | ok c => cases c <;> simp [bind, Except.bind, pure, Except.pure, fail, Demand.Admits]

theorem checkTag_eq_ok_iff {i : UInt16} {tag : UInt8} :
    p.checkTag i tag = .ok () ↔ ∃ c, p.get i = .ok c ∧ c.tag = tag := by
  unfold checkTag
  cases h : p.get i with
  | error e => simp [bind, Except.bind]
  | ok c => simp [bind, Except.bind, pure, Except.pure, fail]

theorem checkTag_classRef {i : UInt16} :
    p.checkTag i (Constant.classRef 0).tag = .ok () ↔ p.Satisfies (i, .classRef) := by
  rw [checkTag_eq_ok_iff]
  refine exists_congr fun c => and_congr_right fun _ => ?_
  cases c <;> simp [Constant.tag, Demand.Admits]

theorem checkTag_nameAndType {i : UInt16} :
    p.checkTag i (Constant.nameAndType 0 0).tag = .ok () ↔ p.Satisfies (i, .nameAndType) := by
  rw [checkTag_eq_ok_iff]
  refine exists_congr fun c => and_congr_right fun _ => ?_
  cases c <;> simp [Constant.tag, Demand.Admits]

/-- A constant is checked by looking at what each of its indices leads to. -/
theorem checkConstant_eq_ok_iff {c : Constant} :
    p.checkConstant c = .ok () ↔ ∀ demand ∈ c.demands, p.Satisfies demand := by
  cases c
  case methodHandle kind i =>
    unfold checkConstant
    cases h : p.get i <;> simp [Constant.demands, Except.map, Satisfies, Demand.Admits, h]
  all_goals
    simp only [checkConstant, checkBoth, checkUtf8_eq_ok_iff, checkTag_classRef,
      checkTag_nameAndType, Constant.demands, List.forall_mem_cons, List.not_mem_nil, false_implies,
      implies_true, and_true]

end ConstantPool

/-- In slots that follow a constant of one slot, unusable are those after the wide constants. -/
theorem Slotted.unusable_iff {cs : List Constant} (h : Slotted cs) (prev : Constant)
    (hprev : prev.isWide = false) (k : Nat) :
    cs[k]? = some .unusable ↔ ∃ c, (prev :: cs)[k]? = some c ∧ c.isWide = true := by
  induction h generalizing prev k with
  | nil => cases k <;> simp [hprev]
  | @single c cs hne hwide h ih =>
    cases k with
    | zero => simp [hprev, hne]
    | succ k => simpa using ih c hwide k
  | @wide c cs hwide h ih =>
    match k with
    | 0 =>
      have hne : c ≠ .unusable := by
        rintro rfl
        cases hwide
      simp [hprev, hne]
    | 1 => simp [hwide]
    | k + 2 => simpa using ih .unusable rfl k

theorem ConstantPool.WellFormed.sound {p : ConstantPool} (hp : p.WellFormed) : p.Sound where
  size_le := hp.size_le
  unusable := by
    intro k
    obtain ⟨cs, hcs, hslotted⟩ := hp.slotted
    simp only [← Array.getElem?_toList, hcs]
    cases k with
    | zero => simp
    | succ k => simpa using hslotted.unusable_iff .unusable rfl k
  references :=
    fun c hc => checkConstant_eq_ok_iff.mp (hp.references c (Array.mem_toList_iff.mpr hc))

/-! ## 2. Requests -/

namespace Interning

open ConstantPool

/-- A call of one of the functions that add constants. -/
inductive Request where
  | utf8 (text : String)
  | classRef (name : String)
  | string (text : String)
  | integer (value : Int32)
  | long (value : Int64)
  | nameAndType (name descriptor : String)
  | fieldRef (owner name descriptor : String)
  | methodRef (owner name descriptor : String) (onInterface : Bool)
  deriving DecidableEq, Repr

namespace Request

def intern : Request → Interning UInt16
  | .utf8 text => Interning.utf8 text
  | .classRef name => Interning.classRef name
  | .string text => Interning.string text
  | .integer value => Interning.integer value
  | .long value => Interning.long value
  | .nameAndType name descriptor => Interning.nameAndType name descriptor
  | .fieldRef owner name descriptor => Interning.fieldRef owner name descriptor
  | .methodRef owner name descriptor onInterface =>
    Interning.methodRef owner name descriptor onInterface

def Means (p : ConstantPool) (i : UInt16) : Request → Prop
  | .utf8 text => p.utf8 i = .ok text
  | .classRef name => p.className i = .ok name
  | .string text => ∃ n, p.get i = .ok (.string n) ∧ p.utf8 n = .ok text
  | .integer value => p.get i = .ok (.integer value)
  | .long value => p.get i = .ok (.long value)
  | .nameAndType name descriptor => p.nameAndType i = .ok (name, descriptor)
  | .fieldRef owner name descriptor =>
    (∃ c n, p.get i = .ok (.fieldRef c n)) ∧ p.memberRef i = .ok ⟨owner, name, descriptor, false⟩
  | .methodRef owner name descriptor onInterface =>
    (∃ c n, p.get i = .ok (methodConstant onInterface c n)) ∧
      p.memberRef i = .ok ⟨owner, name, descriptor, onInterface⟩

def after (r : Request) (p : ConstantPool) : ConstantPool := (r.intern.run.run p).2

def afterAll (rs : List Request) (p : ConstantPool) : ConstantPool :=
  rs.foldl (fun p r => r.after p) p

end Request

/-- The pools from which requests start: the one without constants, and those that were read. -/
inductive Initial : ConstantPool → Prop
  | empty : Initial .empty
  | read {c c' : Cursor} {p : ConstantPool} : ConstantPool.read c = .ok (p, c') → Initial p

theorem Initial.wellFormed {p : ConstantPool} (h : Initial p) : p.WellFormed := by
  cases h with
  | empty => exact wellFormed_empty
  | read hread =>
    obtain ⟨_, -, -, hp, -⟩ := (reads_pool _ _ _).mp hread
    exact hp

variable {p q : ConstantPool} {α β : Type}

theorem Request.meets (r : Request) (hp : p.WellFormed) :
    r.intern.Finds p fun q i => r.Means q i := by
  cases r
  case utf8 text => exact meets_utf8 text hp
  case classRef name => exact meets_classRef name hp
  case string text => exact meets_string text hp
  case integer value => exact meets_integer value hp
  case long value => exact meets_long value hp
  case nameAndType name descriptor => exact meets_nameAndType name descriptor hp
  case fieldRef owner name descriptor => exact meets_fieldRef owner name descriptor hp
  case methodRef owner name descriptor onInterface =>
    exact meets_methodRef owner name descriptor onInterface hp

theorem Request.Means.mono {r : Request} {i : UInt16} (hle : p ≤ q) (h : r.Means p i) :
    r.Means q i := by
  cases r
  case utf8 text => exact utf8_mono hle h
  case classRef name => exact className_mono hle h
  case string text =>
    obtain ⟨n, hget, htext⟩ := h
    exact ⟨n, get_mono hle hget, utf8_mono hle htext⟩
  case integer value => exact get_mono hle h
  case long value => exact get_mono hle h
  case nameAndType name descriptor => exact nameAndType_mono hle h
  case fieldRef owner name descriptor =>
    obtain ⟨⟨c, n, hget⟩, href⟩ := h
    exact ⟨⟨c, n, get_mono hle hget⟩, memberRef_mono hle href⟩
  case methodRef owner name descriptor onInterface =>
    obtain ⟨⟨c, n, hget⟩, href⟩ := h
    exact ⟨⟨c, n, get_mono hle hget⟩, memberRef_mono hle href⟩

def Request.ofIndex? (p : ConstantPool) (i : UInt16) : Option Request :=
  match p.get i with
  | .ok (.utf8 text) => some (.utf8 text)
  | .ok (.classRef n) => (p.utf8 n).toOption.map .classRef
  | .ok (.string n) => (p.utf8 n).toOption.map .string
  | .ok (.integer value) => some (.integer value)
  | .ok (.long value) => some (.long value)
  | .ok (.nameAndType ..) =>
    (p.nameAndType i).toOption.map fun (name, descriptor) => .nameAndType name descriptor
  | .ok (.fieldRef ..) =>
    (p.memberRef i).toOption.map fun m => .fieldRef m.owner m.name m.descriptor
  | .ok (.methodRef ..) | .ok (.interfaceMethodRef ..) =>
    (p.memberRef i).toOption.map fun m => .methodRef m.owner m.name m.descriptor m.onInterface
  | _ => none

theorem Request.Means.ofIndex? {r : Request} {i : UInt16} (h : r.Means p i) :
    Request.ofIndex? p i = some r := by
  unfold Request.ofIndex?
  cases r
  case utf8 text => rw [utf8_eq_ok_iff.mp h]
  case classRef name =>
    obtain ⟨n, hget, hname⟩ := className_eq_ok_iff.mp h
    simp [hget, hname, Except.toOption]
  case string text =>
    obtain ⟨n, hget, htext⟩ := h
    simp [hget, htext, Except.toOption]
  case integer value => rw [show p.get i = _ from h]
  case long value => rw [show p.get i = _ from h]
  case nameAndType name descriptor =>
    obtain ⟨n, d, hget, -⟩ := nameAndType_eq_ok_iff.mp h
    simp [hget, show p.nameAndType i = _ from h, Except.toOption]
  case fieldRef owner name descriptor =>
    obtain ⟨⟨c, n, hget⟩, href⟩ := h
    simp [hget, href, Except.toOption]
  case methodRef owner name descriptor onInterface =>
    obtain ⟨⟨c, n, hget⟩, href⟩ := h
    cases onInterface <;> simp [hget, href, methodConstant, Except.toOption]

/-- No index means two things. -/
theorem Request.Means.unique {r r' : Request} {i : UInt16} (h : r.Means p i) (h' : r'.Means p i) :
    r = r' :=
  Option.some.inj (h.ofIndex?.symm.trans h'.ofIndex?)

/-! ## 3. Repeating what has succeeded -/

/-- The step never takes constants away, and once it has succeeded it gives the same result again
and adds nothing, however the pool has grown since. -/
structure Lasting (x : Interning α) : Prop where
  grows : ∀ p, p ≤ (x.run.run p).2
  repeats : ∀ {p a q}, x.run.run p = (.ok a, q) → ∀ {r}, q ≤ r → x.run.run r = (.ok a, r)

namespace Lasting

theorem pure (a : α) : Lasting (Pure.pure a : Interning α) where
  grows _ := le_rfl
  repeats h _ _ := by
    cases h
    rfl

theorem throw (e : Error) : Lasting (MonadExcept.throw e : Interning α) where
  grows _ := le_rfl
  repeats h := by cases h

theorem bind {x : Interning α} {f : α → Interning β} (hx : Lasting x) (hf : ∀ a, Lasting (f a)) :
    Lasting (x >>= f) where
  grows p := by
    have hle := hx.grows p
    rw [run_bind]
    generalize x.run.run p = out at hle ⊢
    obtain ⟨r, q⟩ := out
    cases r with
    | ok a => exact hle.trans ((hf a).grows q)
    | error e => exact hle
  repeats := by
    intro p b q hrun r hle
    obtain ⟨a, t, ha, hb⟩ := run_bind_eq_ok.mp hrun
    have hgrows := (hf a).grows t
    rw [hb] at hgrows
    rw [run_bind, hx.repeats ha (hgrows.trans hle)]
    exact (hf a).repeats hb hle

end Lasting

theorem find?_eq (c : Constant) :
    p.find? c = (p.entries.toList.findIdx? (· == c)).map UInt16.ofNat := by
  obtain ⟨⟨entries⟩⟩ := p
  simp [find?]

theorem find?_mono {c : Constant} {i : UInt16} (hle : p ≤ q) (h : p.find? c = some i) :
    q.find? c = some i := by
  rw [find?_eq] at h ⊢
  obtain ⟨k, hk, rfl⟩ := Option.map_eq_some_iff.mp h
  obtain ⟨more, hmore⟩ := hle
  rw [← hmore, List.findIdx?_append, hk]
  rfl

theorem find?_push {c : Constant} (h : p.find? c = none) : (p.push c).find? c = some p.count := by
  rw [find?_eq, Option.map_eq_none_iff] at h
  rw [find?_eq, toList_push, List.findIdx?_append, h]
  unfold Constant.slots
  split <;> simp [List.findIdx?_cons, count]

theorem run_constant_of_find? {c : Constant} {i : UInt16} (h : p.find? c = some i) :
    (constant c).run.run p = (.ok i, p) := by
  unfold constant
  rw [run_get_bind, h]
  rfl

/-- A constant is found, or added at the end, or there is no room for it. -/
theorem constant_cases (c : Constant) (p : ConstantPool) :
    (∃ i, p.find? c = some i ∧ (constant c).run.run p = (.ok i, p)) ∨
    (p.find? c = none ∧ p.hasRoom c = true ∧ (constant c).run.run p = (.ok p.count, p.push c)) ∨
    (p.find? c = none ∧ p.hasRoom c = false ∧
      (constant c).run.run p = (.error ⟨.poolFull p.entries.size c.isWide, []⟩, p)) := by
  cases hfind : p.find? c with
  | some i => exact .inl ⟨i, rfl, run_constant_of_find? hfind⟩
  | none =>
    unfold constant
    rw [run_get_bind, hfind]
    dsimp only
    cases hroom : p.hasRoom c with
    | true => exact .inr (.inl ⟨rfl, rfl, rfl⟩)
    | false => exact .inr (.inr ⟨rfl, rfl, rfl⟩)

theorem lasting_constant (c : Constant) : Lasting (constant c) where
  grows p := by
    obtain ⟨i, -, hrun⟩ | ⟨-, -, hrun⟩ | ⟨-, -, hrun⟩ := constant_cases c p <;> rw [hrun]
    exact le_push p c
  repeats := by
    intro p i q h r hle
    obtain ⟨j, hfind, hrun⟩ | ⟨hfind, -, hrun⟩ | ⟨-, -, hrun⟩ := constant_cases c p
    all_goals cases hrun.symm.trans h
    · exact run_constant_of_find? (find?_mono hle hfind)
    · exact run_constant_of_find? (find?_mono hle (find?_push hfind))

theorem lasting_utf8 (text : String) : Lasting (utf8 text) := by
  unfold utf8
  dsimp only
  split
  · exact .bind (.throw _) fun _ => lasting_constant _
  · exact lasting_constant _

theorem lasting_classRef (name : String) : Lasting (classRef name) :=
  .bind (lasting_utf8 name) fun _ => lasting_constant _

theorem lasting_nameAndType (name descriptor : String) : Lasting (nameAndType name descriptor) :=
  .bind (lasting_utf8 name) fun _ => .bind (lasting_utf8 descriptor) fun _ => lasting_constant _

theorem Request.lasting (r : Request) : Lasting r.intern := by
  cases r
  case utf8 text => exact lasting_utf8 text
  case classRef name => exact lasting_classRef name
  case string text => exact .bind (lasting_utf8 text) fun _ => lasting_constant _
  case integer value => exact lasting_constant _
  case long value => exact lasting_constant _
  case nameAndType name descriptor => exact lasting_nameAndType name descriptor
  case fieldRef owner name descriptor =>
    exact .bind (lasting_classRef owner) fun _ =>
      .bind (lasting_nameAndType name descriptor) fun _ =>
      lasting_constant _
  case methodRef owner name descriptor onInterface =>
    exact .bind (lasting_classRef owner) fun _ =>
      .bind (lasting_nameAndType name descriptor) fun _ =>
      lasting_constant _

/-! ## 4. Requests that fail -/

def Preserves (x : Interning α) (p : ConstantPool) : Prop := (x.run.run p).2.WellFormed

namespace Preserves

/-- What is known of the first step if it succeeds is known to the second one. -/
theorem bind {x : Interning α} {f : α → Interning β} {Q : α → ConstantPool → Prop}
    (hx : Preserves x p) (hmeets : Meets x p Q) (hf : ∀ a q, Q a q → Preserves (f a) q) :
    Preserves (x >>= f) p := by
  unfold Preserves at hx ⊢
  rw [run_bind]
  cases hrun : x.run.run p with
  | mk r q =>
    rw [hrun] at hx
    cases r with
    | ok a => exact hf a q (hmeets.of_ok hrun)
    | error e => exact hx

theorem constant {c : Constant} (hp : p.WellFormed) (hc : c ≠ .unusable) (hwrite : c.Writable)
    (href : p.checkConstant c = .ok ()) : Preserves (constant c) p := by
  unfold Preserves
  obtain ⟨i, -, hrun⟩ | ⟨-, hroom, hrun⟩ | ⟨-, -, hrun⟩ := constant_cases c p <;> rw [hrun]
  · exact hp
  · exact hp.push hc hroom hwrite href
  · exact hp

theorem utf8 (text : String) (hp : p.WellFormed) : Preserves (utf8 text) p := by
  unfold Interning.utf8
  dsimp only
  split
  next => exact hp
  next hlength => exact .constant hp nofun (Nat.le_of_not_lt hlength) rfl

theorem classRef (name : String) (hp : p.WellFormed) : Preserves (classRef name) p :=
  bind (.utf8 name hp) (meets_utf8 name hp) fun _ _ ⟨_, hq, hname⟩ =>
    .constant hq nofun trivial (checkUtf8_of_utf8 hname)

theorem string (text : String) (hp : p.WellFormed) : Preserves (string text) p :=
  bind (.utf8 text hp) (meets_utf8 text hp) fun _ _ ⟨_, hq, htext⟩ =>
    .constant hq nofun trivial (checkUtf8_of_utf8 htext)

theorem nameAndType (name descriptor : String) (hp : p.WellFormed) :
    Preserves (nameAndType name descriptor) p :=
  bind (.utf8 name hp) (meets_utf8 name hp) fun _ _ ⟨_, hq, hname⟩ =>
    bind (.utf8 descriptor hq) (meets_utf8 descriptor hq) fun _ _ ⟨hle, hr, hdescriptor⟩ =>
      .constant hr nofun trivial
        (checkBoth.mpr ⟨checkUtf8_of_utf8 (utf8_mono hle hname), checkUtf8_of_utf8 hdescriptor⟩)

theorem member {make : UInt16 → UInt16 → Constant} (owner name descriptor : String)
    (hp : p.WellFormed) (hne : ∀ c n, make c n ≠ .unusable) (hwrite : ∀ c n, (make c n).Writable)
    (hcheck : ∀ (q : ConstantPool) c n, q.checkConstant (make c n) = (do
      q.checkTag c (Constant.classRef 0).tag
      q.checkTag n (Constant.nameAndType 0 0).tag)) :
    Preserves (do
      let c ← Interning.classRef owner
      let n ← Interning.nameAndType name descriptor
      Interning.constant (make c n)) p :=
  bind (.classRef owner hp) (meets_classRef owner hp) fun _ _ ⟨_, hq, howner⟩ =>
    bind (.nameAndType name descriptor hq) (meets_nameAndType name descriptor hq)
      fun _ _ ⟨hle, hr, hnames⟩ =>
      .constant hr (hne _ _) (hwrite _ _)
        ((hcheck _ _ _).trans (checkTags_of_names (className_mono hle howner) hnames))

end Preserves

theorem Request.preserves (r : Request) (hp : p.WellFormed) : Preserves r.intern p := by
  cases r
  case utf8 text => exact .utf8 text hp
  case classRef name => exact .classRef name hp
  case string text => exact .string text hp
  case integer value => exact .constant hp nofun trivial rfl
  case long value => exact .constant hp nofun trivial rfl
  case nameAndType name descriptor => exact .nameAndType name descriptor hp
  case fieldRef owner name descriptor =>
    exact .member owner name descriptor hp nofun (fun _ _ => trivial) fun _ _ _ => rfl
  case methodRef owner name descriptor onInterface =>
    cases onInterface <;> exact .member owner name descriptor hp nofun (fun _ _ => trivial)
      fun _ _ _ => rfl

/-! ## 5. Whole runs -/

theorem Request.le_after (r : Request) (p : ConstantPool) : p ≤ r.after p := r.lasting.grows p

theorem Request.wellFormed_after (r : Request) (hp : p.WellFormed) : (r.after p).WellFormed :=
  r.preserves hp

theorem Request.le_afterAll (rs : List Request) (p : ConstantPool) : p ≤ Request.afterAll rs p := by
  induction rs generalizing p with
  | nil => exact le_rfl
  | cons r rs ih => exact (r.le_after p).trans (ih (r.after p))

theorem Request.wellFormed_afterAll (rs : List Request) (hp : p.WellFormed) :
    (Request.afterAll rs p).WellFormed := by
  induction rs generalizing p with
  | nil => exact hp
  | cons r rs ih => exact ih (r.wellFormed_after hp)

/-- The index that a request got means what was asked for and is got again, and only by this
request, whatever happens to the pool after it. -/
theorem Request.lasts {r : Request} {i : UInt16} (hp : p.WellFormed)
    (hrun : r.intern.run.run p = (.ok i, q)) {s : ConstantPool} (hle : q ≤ s) (hs : s.WellFormed) :
    r.Means s i ∧ r.intern.run.run s = (.ok i, s) ∧
      ∀ (r' : Request) j t, r'.intern.run.run s = (.ok j, t) → (j = i ↔ r' = r) := by
  have hmeans : r.Means s i := ((r.meets hp).of_ok hrun).2.2.mono hle
  have hrepeat := r.lasting.repeats hrun hle
  refine ⟨hmeans, hrepeat, fun r' j t hrun' => ⟨?_, ?_⟩⟩
  · rintro rfl
    obtain ⟨hle', -, hmeans'⟩ := (r'.meets hs).of_ok hrun'
    exact hmeans'.unique (hmeans.mono hle')
  · rintro rfl
    cases hrepeat.symm.trans hrun'
    rfl

/-- Requests on a pool that starts without constants, or was read, keep it sound and only ever add
to it, also those that fail.  An index that one of them gets keeps its meaning through all that
follow; repeating the request gives the same index and adds nothing, and no other request gives
it. -/
theorem requests_last {p : ConstantPool} (h : Initial p) (before : List Request) (r : Request) :
    let q := Request.afterAll before p
    q.Sound ∧ p ≤ q ∧ q ≤ r.after q ∧ ∀ i, (r.intern.run.run q).1 = .ok i → ∀ later : List Request,
      let s := Request.afterAll later (r.after q)
      r.Means s i ∧ r.intern.run.run s = (.ok i, s) ∧
        ∀ (r' : Request) j t, r'.intern.run.run s = (.ok j, t) → (j = i ↔ r' = r) := by
  have hq := Request.wellFormed_afterAll before h.wellFormed
  refine ⟨hq.sound, Request.le_afterAll before p, r.le_after _, fun i hi later => ?_⟩
  exact Request.lasts hq (Prod.ext hi rfl) (Request.le_afterAll later _)
    (Request.wellFormed_afterAll later (r.wellFormed_after hq))

/-- After a `long` constant at index 1 a text gets index 3, and `int` and string constants do not
move it. -/
theorem requests_last_sample :
    let q := Request.afterAll [.long 7] .empty
    let s := Request.afterAll [.integer 1, .string "b"] ((Request.utf8 "a").after q)
    s.utf8 3 = .ok "a" ∧ (utf8 "a").run.run s = (.ok 3, s) := by
  obtain ⟨-, -, -, h⟩ := requests_last .empty [.long 7] (.utf8 "a")
  obtain ⟨hmeans, hrepeat, -⟩ := h 3 (by decide +kernel) [.integer 1, .string "b"]
  exact ⟨hmeans, hrepeat⟩

end Interning

end MethodGraft.ClassFile
