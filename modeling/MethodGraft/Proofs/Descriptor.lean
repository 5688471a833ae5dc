import MethodGraft.ClassFile.Error
import Mathlib.Data.List.TakeWhile
import Mathlib.Data.Set.Function

/-!
# Proofs.Descriptor — descriptors write back what they were read from

A type that was read from a descriptor has that descriptor.  So a descriptor written for such a type
is read as the same type again, which is what a reference in the constant pool relies on.
Conversely a descriptor is read as its type wherever the classes in it are named by characters that
a descriptor can hold.
-/

namespace MethodGraft.ClassFile

namespace FieldType

def Readable (t : FieldType) : Prop := ofDescriptor? t.descriptor = some t

/-- Reading takes exactly the descriptor of the type it returns. -/
theorem eq_descriptor_append_of_read {s : List Char} {t : FieldType} {rest : List Char}
    (h : read s = some (t, rest)) : s = t.descriptor.toList ++ rest := by
  induction s generalizing t rest with
  | nil => simp [read] at h
  | cons c s ih =>
    unfold read at h
    split at h
    case h_9 =>
      split at h
      · rename_i n name after hname hafter
        simp only [Option.some.injEq, Prod.mk.injEq] at h
        obtain ⟨rfl, rfl⟩ := h
        have hs : s = (n :: name) ++ ';' :: after := by
          rw [← hname, ← hafter, List.takeWhile_append_dropWhile]
        simp [descriptor, String.toList_append, hs]
      · simp at h
    case h_10 =>
      obtain ⟨⟨u, r⟩, hread, he⟩ := Option.map_eq_some_iff.mp h
      simp only [Prod.mk.injEq] at he
      obtain ⟨rfl, rfl⟩ := he
      simp [descriptor, String.toList_append, ih hread]
    case h_11 => simp at h
    -- the eight primitive types
    all_goals
      simp only [Option.some.injEq, Prod.mk.injEq] at h
      obtain ⟨rfl, rfl⟩ := h
      simp [descriptor]

theorem descriptor_of_ofDescriptor? {s : String} {t : FieldType}
    (h : ofDescriptor? s = some t) : t.descriptor = s := by
  unfold ofDescriptor? at h
  split at h
  next u hread =>
    cases h
    have hs := eq_descriptor_append_of_read hread
    rw [List.append_nil] at hs
    exact (String.toList_inj.mp hs).symm
  next => simp at h

theorem readable_of_ofDescriptor? {s : String} {t : FieldType} (h : ofDescriptor? s = some t) :
    t.Readable := by
  unfold Readable
  rwa [descriptor_of_ofDescriptor? h]

/-- Every class is named by characters that a descriptor can hold, one at least. -/
def WellNamed : FieldType → Prop
  | .object name => name.toList ≠ [] ∧ ∀ c ∈ name.toList, isNameChar c
  | .array component => component.WellNamed
  | _ => True

variable {t : FieldType}

theorem wellNamed_of_read {s rest : List Char} (h : read s = some (t, rest)) : t.WellNamed := by
  induction s generalizing t rest with
  | nil => simp [read] at h
  | cons c s ih =>
    unfold read at h
    split at h
    case h_9 =>
      split at h
      · rename_i n name after hname _
        cases h
        refine ⟨by simp, fun a ha => ?_⟩
        rw [String.toList_ofList, ← hname] at ha
        exact List.mem_takeWhile_imp ha
      · cases h
    case h_10 =>
      obtain ⟨⟨u, r⟩, hread, he⟩ := Option.map_eq_some_iff.mp h
      cases he
      exact ih (t := u) hread
    case h_11 => cases h
    -- the eight primitive types
    all_goals
      cases h
      trivial

/-- A descriptor is read whole, whatever follows it. -/
theorem read_descriptor_append (h : t.WellNamed) (rest : List Char) :
    read (t.descriptor.toList ++ rest) = some (t, rest) := by
  induction t with
  | object name =>
    obtain ⟨hne, hchars⟩ := h
    obtain ⟨n, more, hname⟩ := List.exists_cons_of_ne_nil hne
    have htake : (name.toList ++ ';' :: rest).takeWhile isNameChar = n :: more := by
      rw [List.takeWhile_append_of_pos hchars, List.takeWhile_cons_of_neg (by decide),
        List.append_nil, hname]
    have hdrop : (name.toList ++ ';' :: rest).dropWhile isNameChar = ';' :: rest := by
      rw [List.dropWhile_append_of_pos hchars, List.dropWhile_cons_of_neg (by decide)]
    have htext : (FieldType.object name).descriptor.toList ++ rest =
        'L' :: (name.toList ++ ';' :: rest) := by
      simp [descriptor]
    rw [htext, read]
    simp only [htake, hdrop]
    rw [← hname, String.ofList_toList]
  | array component ih =>
    have htext : (FieldType.array component).descriptor.toList ++ rest =
        '[' :: (component.descriptor.toList ++ rest) := by
      simp [descriptor]
    rw [htext, read, ih h]
    rfl
  | _ => rfl

/-- A text describes a type if and only if it is the descriptor of the type. -/
theorem ofDescriptor_eq_ok_iff {s : String} :
    ofDescriptor s = .ok t ↔ t.WellNamed ∧ t.descriptor = s := by
  have hread : ofDescriptor s = .ok t ↔ ofDescriptor? s = some t := by
    unfold ofDescriptor
    cases ofDescriptor? s <;> simp [fail]
  rw [hread]
  constructor
  · intro h
    refine ⟨?_, descriptor_of_ofDescriptor? h⟩
    unfold ofDescriptor? at h
    split at h
    next hread =>
      cases h
      exact wellNamed_of_read hread
    next => cases h
  · rintro ⟨hnamed, rfl⟩
    have h := read_descriptor_append hnamed []
    rw [List.append_nil] at h
    rw [ofDescriptor?, h]

/-- The name that a class constant holds for a type leads back to the type. -/
theorem ofClassName_className? {name : String} (hnamed : t.WellNamed)
    (h : t.className? = some name) : ofClassName name = .ok t := by
  cases t with
  | object =>
    cases h
    have hhead : name.toList.head? ≠ some '[' := fun hhead =>
      absurd (hnamed.2 _ (List.mem_of_head? hhead)) (by decide)
    rw [ofClassName, ofClassName?, if_neg hhead]
  | array component =>
    cases h
    have htype := ofDescriptor_eq_ok_iff.mpr ⟨hnamed, rfl⟩
    have hhead : (FieldType.array component).descriptor.toList.head? = some '[' := by
      simp [descriptor]
    rw [ofClassName, ofClassName?, if_pos hhead]
    exact htype
  | _ => cases h

end FieldType

namespace MethodDescriptor

def Readable (m : MethodDescriptor) : Prop := ofDescriptor? m.descriptor = some m

theorem eq_params_append_of_readParams {s : List Char} {ts : List FieldType} {rest : List Char}
    (h : readParams s = some (ts, rest)) :
    s = (String.join (ts.map FieldType.descriptor)).toList ++ ')' :: rest := by
  fun_induction readParams s generalizing ts rest with
  | case1 rest' =>
    simp only [Option.some.injEq, Prod.mk.injEq] at h
    obtain ⟨rfl, rfl⟩ := h
    simp [String.join]
  | case2 => simp at h
  | case3 s hclose t after hread ih =>
    obtain ⟨⟨ts', rest'⟩, hparams, he⟩ := Option.map_eq_some_iff.mp h
    simp only [Prod.mk.injEq] at he
    obtain ⟨rfl, rfl⟩ := he
    rw [FieldType.eq_descriptor_append_of_read hread, ih hparams]
    simp [String.join_cons, String.toList_append]

theorem eq_retDescriptor_of_readRet {s : List Char} {ret : Option FieldType}
    (h : readRet s = some ret) : s = (retDescriptor ret).toList := by
  unfold readRet at h
  split at h
  next =>
    cases h
    rfl
  next =>
    split at h
    next t hread =>
      cases h
      simpa [retDescriptor] using FieldType.eq_descriptor_append_of_read hread
    next => simp at h

theorem descriptor_of_ofDescriptor? {s : String} {m : MethodDescriptor}
    (h : ofDescriptor? s = some m) : m.descriptor = s := by
  unfold ofDescriptor? at h
  split at h
  next rest hs =>
    split at h
    next params after hparams =>
      obtain ⟨ret, hret, rfl⟩ := Option.map_eq_some_iff.mp h
      apply String.toList_inj.mp
      rw [hs, eq_params_append_of_readParams hparams, eq_retDescriptor_of_readRet hret]
      simp [descriptor, String.toList_append]
    next => simp at h
  next => simp at h

theorem readable_of_ofDescriptor? {s : String} {m : MethodDescriptor}
    (h : ofDescriptor? s = some m) : m.Readable := by
  unfold Readable
  rwa [descriptor_of_ofDescriptor? h]

/-- Every class that the method takes or returns is named well. -/
structure WellNamed (m : MethodDescriptor) : Prop where
  params : ∀ t ∈ m.params, t.WellNamed
  ret : ∀ t ∈ m.ret, t.WellNamed

theorem wellNamed_of_readParams {s rest : List Char} {ts : List FieldType}
    (h : readParams s = some (ts, rest)) : ∀ t ∈ ts, t.WellNamed := by
  fun_induction readParams s generalizing ts rest with
  | case1 =>
    cases h
    exact nofun
  | case2 => cases h
  | case3 s hclose t after hread ih =>
    obtain ⟨⟨ts', rest'⟩, hparams, he⟩ := Option.map_eq_some_iff.mp h
    cases he
    exact List.forall_mem_cons.mpr ⟨FieldType.wellNamed_of_read hread, ih hparams⟩

theorem wellNamed_of_readRet {s : List Char} {ret : Option FieldType} (h : readRet s = some ret) :
    ∀ t ∈ ret, t.WellNamed := by
  unfold readRet at h
  split at h
  next =>
    cases h
    exact nofun
  next =>
    split at h
    next t hread =>
      cases h
      rintro u ⟨⟩
      exact FieldType.wellNamed_of_read hread
    next => cases h

/-- A closing parenthesis starts no type, so the parameters end in front of it. -/
theorem readParams_append {ts : List FieldType} (h : ∀ t ∈ ts, t.WellNamed) (rest : List Char) :
    readParams ((String.join (ts.map FieldType.descriptor)).toList ++ ')' :: rest) =
    some (ts, rest) := by
  induction ts with
  | nil => simp [String.join, readParams]
  | cons t ts ih =>
    obtain ⟨ht, hts⟩ := List.forall_mem_cons.mp h
    have hread := FieldType.read_descriptor_append ht
      ((String.join (ts.map FieldType.descriptor)).toList ++ ')' :: rest)
    rw [List.map_cons, String.join_cons, String.toList_append, List.append_assoc]
    unfold readParams
    split
    next hclose =>
      rw [hclose] at hread
      cases hread
    next =>
      split
      next hnone => cases hnone.symm.trans hread
      next u after hsome =>
        cases hsome.symm.trans hread
        rw [ih hts]
        rfl

theorem readRet_retDescriptor {ret : Option FieldType} (h : ∀ t ∈ ret, t.WellNamed) :
    readRet (retDescriptor ret).toList = some ret := by
  cases ret with
  | none => rfl
  | some t =>
    have hread := FieldType.read_descriptor_append (h t rfl) []
    rw [List.append_nil] at hread
    unfold readRet
    split
    next hvoid =>
      change t.descriptor.toList = ['V'] at hvoid
      rw [hvoid] at hread
      cases hread
    next =>
      have hret : FieldType.read (retDescriptor (some t)).toList = some (t, []) := hread
      rw [hret]

/-- A text describes a method type if and only if it is the descriptor of the method type. -/
theorem ofDescriptor_eq_ok_iff {s : String} {m : MethodDescriptor} :
    ofDescriptor s = .ok m ↔ m.WellNamed ∧ m.descriptor = s := by
  have hread : ofDescriptor s = .ok m ↔ ofDescriptor? s = some m := by
    unfold ofDescriptor
    cases ofDescriptor? s <;> simp [fail]
  rw [hread]
  constructor
  · intro h
    refine ⟨?_, descriptor_of_ofDescriptor? h⟩
    unfold ofDescriptor? at h
    split at h
    next rest hs =>
      split at h
      next params after hparams =>
        obtain ⟨ret, hret, rfl⟩ := Option.map_eq_some_iff.mp h
        exact ⟨wellNamed_of_readParams hparams, wellNamed_of_readRet hret⟩
      next => cases h
    next => cases h
  · rintro ⟨hnamed, rfl⟩
    have htext : m.descriptor.toList =
        '(' ::
          ((String.join (m.params.map FieldType.descriptor)).toList ++ ')' ::
            (retDescriptor m.ret).toList) := by
      simp [descriptor]
    rw [ofDescriptor?, htext]
    simp only [readParams_append hnamed.params, readRet_retDescriptor hnamed.ret]
    rfl

end MethodDescriptor

/-- Descriptors are exact.  A text is read as a type, or as a method type, if and only if it is the
descriptor of one whose classes are named well; so different ones have different descriptors.  The
name in the class constant of a class or an array leads back to it. -/
theorem descriptor_roundTrip :
    (∀ s t, FieldType.ofDescriptor s = .ok t ↔ t.WellNamed ∧ t.descriptor = s) ∧
    (∀ s m, MethodDescriptor.ofDescriptor s = .ok m ↔ m.WellNamed ∧ m.descriptor = s) ∧
    Set.InjOn FieldType.descriptor {t | t.WellNamed} ∧
    Set.InjOn MethodDescriptor.descriptor {m | m.WellNamed} ∧
    ∀ t : FieldType, t.WellNamed → t.isReference →
      ∃ name, t.className? = some name ∧ FieldType.ofClassName name = .ok t := by
  refine ⟨fun _ _ => FieldType.ofDescriptor_eq_ok_iff,
    fun _ _ => MethodDescriptor.ofDescriptor_eq_ok_iff, ?_, ?_, ?_⟩
  · intro t ht u hu heq
    have hread := FieldType.ofDescriptor_eq_ok_iff.mpr ⟨ht, heq⟩
    exact Except.ok.inj (hread.symm.trans (FieldType.ofDescriptor_eq_ok_iff.mpr ⟨hu, rfl⟩))
  · intro m hm n hn heq
    have hread := MethodDescriptor.ofDescriptor_eq_ok_iff.mpr ⟨hm, heq⟩
    exact Except.ok.inj (hread.symm.trans (MethodDescriptor.ofDescriptor_eq_ok_iff.mpr ⟨hn, rfl⟩))
  · intro t ht href
    cases hname : t.className? with
    | none => cases t <;> simp [FieldType.className?, FieldType.isReference] at hname href
    | some name => exact ⟨name, rfl, FieldType.ofClassName_className? ht hname⟩

/-- A method that takes and returns arrays, and the class constant of one of them. -/
theorem descriptor_roundTrip_nested :
    MethodDescriptor.ofDescriptor "([[La/B$C;JLD;)[I" =
      .ok ⟨[.array (.array (.object "a/B$C")), .long, .object "D"], some (.array .int)⟩ ∧
    FieldType.ofClassName "[[La/B$C;" = .ok (.array (.array (.object "a/B$C"))) := by
  have hnested : FieldType.WellNamed (.array (.array (.object "a/B$C"))) :=
    ⟨by decide, List.all_eq_true.mp (by decide +kernel)⟩
  have hplain : FieldType.WellNamed (.object "D") :=
    ⟨by decide, List.all_eq_true.mp (by decide +kernel)⟩
  obtain ⟨-, hmethod, -, -, hclass⟩ := descriptor_roundTrip
  constructor
  · refine (hmethod _ _).mpr ⟨⟨?_, ?_⟩, by decide +kernel⟩
    · exact List.forall_mem_cons.mpr
        ⟨hnested, List.forall_mem_cons.mpr ⟨trivial, List.forall_mem_singleton.mpr hplain⟩⟩
    · rintro t ⟨⟩
      trivial
  · obtain ⟨name, hname, hread⟩ := hclass _ hnested rfl
    cases hname
    exact hread

end MethodGraft.ClassFile
