import MethodGraft.Proofs.Classpath.Assignment
import MethodGraft.Proofs.Typed.Values
import MethodGraft.Typed.Call

/-!
# Proofs.Typed.Overloads — which of several methods a call means

Where the classes of arguments and parameters are sound, the choice between methods is told without
any order of tests: a call means the one method that applies and whose parameters can be passed to
those of all others that apply.
-/

namespace MethodGraft.Typed

open ClassFile Classpath

variable {m : Dictionary} {methods : List Declared} {args : List Value} {className name : String}
    {line : Nat}
  {out : Except Error Candidate}

/-! ## 1. Methods that apply -/

/-- The parameter takes the argument: `null` if it is a reference, any other value if that can be
passed to it. -/
inductive Takes (m : Dictionary) : ValueType → FieldType → Prop
  | null {param : FieldType} (h : param.isReference = true) : Takes m .null param
  | value {t param : FieldType} (h : m.Assigns t param) : Takes m (.of t) param

namespace Candidate

/-- The method is one of these, and for each argument it has a parameter that takes it. -/
structure Applies (m : Dictionary) (methods : List Declared) (args : List Value) (c : Candidate) :
    Prop where
  mem : c.method ∈ methods
  type : MethodDescriptor.ofDescriptor c.method.member.descriptor = .ok c.type
  takes : List.Forall₂ (fun arg param => Takes m arg.type param) args c.type.params

/-- The method applies, and its parameters can be passed to those of every method that does. -/
structure MostSpecific (m : Dictionary) (methods : List Declared) (args : List Value)
    (c : Candidate) : Prop where
  applies : c.Applies m methods args
  passes :
    ∀ d : Candidate, d.Applies m methods args → List.Forall₂ m.Assigns c.type.params d.type.params

end Candidate

def Readable (methods : List Declared) : Prop :=
  ∀ d ∈ methods, ∃ type, MethodDescriptor.ofDescriptor d.member.descriptor = .ok type

inductive Selects (m : Dictionary) (methods : List Declared) (args : List Value) (name : String)
    (line : Nat) : Except Error Candidate → Prop
  | unreadable {d : Declared} {e : ClassFile.Error} (hd : d ∈ methods)
      (he : MethodDescriptor.ofDescriptor d.member.descriptor = .error e) :
      Selects m methods args name line (.error (.classFile e))
  | noSuitable (hreadable : Readable methods) (hnone : ∀ c : Candidate, ¬c.Applies m methods args) :
      Selects m methods args name line
      (.error (.fault line (.noSuitableMethod name (args.map (·.type)))))
  | ambiguous (hreadable : Readable methods) {c : Candidate} (hc : c.Applies m methods args)
      (hnot : ¬∃! d : Candidate, d.MostSpecific m methods args) :
      Selects m methods args name line (.error (.fault line (.ambiguous name)))
  | chosen (hreadable : Readable methods) {c : Candidate} (hc : c.MostSpecific m methods args)
      (hunique : ∀ d : Candidate, d.MostSpecific m methods args → d = c) :
      Selects m methods args name line (.ok c)

/-! ## 2. Tests and look-ups of the binder -/

theorem yields_ofDescriptor {α : Type} {x : Except ClassFile.Error α} :
    Yields m (ofDescriptor x) (x.mapError .classFile) := fun r _ => ⟨r, rfl, .refl r⟩

theorem decides_look {x : Resolve Bool} {p : Prop} (h : Decides m x p) : Decides m (look x) p := by
  obtain ⟨b, hb, hp⟩ := h
  exact ⟨b, yields_look hb, hp⟩

/-- Tests on pairs tell whether they all hold, if there are as many on both sides. -/
theorem decides_allM_zip {α β : Type} (f : α → β → Binding Bool) {R : α → β → Prop} {as : List α}
    {bs : List β} (hlength : as.length = bs.length) (h : ∀ a ∈ as, ∀ b, Decides m (f a b) (R a b)) :
    Decides m ((as.zip bs).allM fun (a, b) => f a b) (List.Forall₂ R as bs) := by
  have hall := Decides.allM (f := fun (a, b) => f a b) (P := fun p => R p.1 p.2)
    fun p (hp : p ∈ as.zip bs) => h p.1 (List.of_mem_zip hp).1 p.2
  refine hall.congr ?_
  rw [List.forall₂_iff_zip]
  exact ⟨fun hzip => ⟨hlength, fun hmem => hzip _ hmem⟩, fun hzip p hp => hzip.2 hp⟩

def SoundArguments (m : Dictionary) (args : List Value) : Prop :=
  ∀ arg ∈ args, ∀ t, arg.type = .of t → m.SoundType t

def SoundParameters (m : Dictionary) (methods : List Declared) : Prop :=
  ∀ d ∈ methods, ∀ type, MethodDescriptor.ofDescriptor d.member.descriptor = .ok type →
    ∀ param ∈ type.params, m.SoundType param

theorem mem_cons_if {α : Type} {a b : α} {as : List α} {keep : Bool} :
    a ∈ (if keep then b :: as else as) ↔ (a = b ∧ keep = true) ∨ a ∈ as := by
  cases keep <;> simp

/-- One method more applies, or does not. -/
theorem applies_cons {d : Declared} {type : MethodDescriptor} {cs : List Candidate} {fits : Bool}
    (htype : MethodDescriptor.ofDescriptor d.member.descriptor = .ok type)
    (hfits : fits = true ↔ List.Forall₂ (fun arg param => Takes m arg.type param) args type.params)
    (hcs : ∀ c, c ∈ cs ↔ c.Applies m methods args) (c : Candidate) :
    c ∈ (if fits then ⟨d, type⟩ :: cs else cs) ↔ c.Applies m (d :: methods) args := by
  have hself : c.method = d → c.Applies m (d :: methods) args → c = ⟨d, type⟩ ∧ fits = true := by
    rintro rfl h
    obtain rfl := Except.ok.inj (h.type.symm.trans htype)
    exact ⟨rfl, hfits.mpr h.takes⟩
  rw [mem_cons_if, hcs]
  constructor
  · rintro (⟨rfl, hb⟩ | h)
    · exact ⟨List.mem_cons_self, htype, hfits.mp hb⟩
    · exact ⟨List.mem_cons_of_mem d h.mem, h.type, h.takes⟩
  · intro h
    rcases List.mem_cons.mp h.mem with hd | hmem
    · exact .inl (hself hd h)
    · exact .inr ⟨hmem, h.type, h.takes⟩

section

variable (hm : m.Keyed) (hbounded : m.Bounded)
include hm hbounded

theorem decides_accepts {arg : ValueType} {param : FieldType}
    (h : ∀ t, arg = .of t → m.SoundType t) : Decides m (accepts arg param) (Takes m arg param) := by
  unfold accepts
  cases arg with
  | void => exact ⟨false, .pure, iff_of_false Bool.false_ne_true fun h => by cases h⟩
  | null =>
    refine Decides.ofBool.congr ⟨.null, fun h => ?_⟩
    cases h with
    | null h => exact h
  | of t =>
    refine (decides_look (decides_isAssignable hm hbounded (h t rfl))).congr ⟨.value, fun h => ?_⟩
    cases h with
    | value h => exact h

theorem decides_isMoreSpecific {a b : MethodDescriptor}
    (hlength : a.params.length = b.params.length) (h : ∀ param ∈ a.params, m.SoundType param) :
    Decides m (isMoreSpecific a b) (List.Forall₂ m.Assigns a.params b.params) := by
  unfold isMoreSpecific
  exact decides_allM_zip (fun p q => look (isAssignable p q)) hlength fun param hparam _ =>
    decides_look (decides_isAssignable hm hbounded (h param hparam))

/-! ## 3. The methods in sequence -/

/-- Whether a method applies is found out, and then the others are looked at. -/
theorem yields_applicable_cons {d : Declared} {type : MethodDescriptor}
    {result : Except Error (List Candidate)}
    (hargs : SoundArguments m args)
    (htype : MethodDescriptor.ofDescriptor d.member.descriptor = .ok type)
    (hrest : Yields m (applicable args methods) result) :
    ∃ fits,
    (fits = true ↔ List.Forall₂ (fun arg param => Takes m arg.type param) args type.params) ∧
      Yields m (applicable args (d :: methods))
        (result >>= fun cs => .ok (if fits then ⟨d, type⟩ :: cs else cs)) := by
  unfold applicable
  rw [htype]
  by_cases hlength : type.params.length = args.length
  · obtain ⟨fits, hyields, hfits⟩ :=
      decides_allM_zip (fun arg param => accepts arg.type param) hlength.symm
      fun arg harg _ => decides_accepts hm hbounded (hargs arg harg)
    refine ⟨fits, hfits, yields_ofDescriptor.bind_ok ?_⟩
    rw [if_pos hlength]
    exact hyields.bind_ok (hrest.bind fun _ _ => .pure)
  -- with another number of parameters the method is not tried at all
  · have hfits : ¬List.Forall₂ (fun (arg : Value) param => Takes m arg.type param) args
        type.params :=
      fun h => hlength h.length_eq.symm
    refine ⟨false, iff_of_false Bool.false_ne_true hfits, yields_ofDescriptor.bind_ok ?_⟩
    rw [if_neg hlength]
    exact hrest.bind fun _ _ => .pure

/-- Either a descriptor cannot be read, or the methods that apply are listed in their order. -/
theorem yields_applicable (methods : List Declared) (hargs : SoundArguments m args) :
    ∃ result, Yields m (applicable args methods) result ∧
      match result with
      | .ok cs =>
        Readable methods ∧ (cs.map (·.method)).Sublist methods ∧
          ∀ c, c ∈ cs ↔ c.Applies m methods args
      | .error e =>
        ∃ d ∈ methods, ∃ e', MethodDescriptor.ofDescriptor d.member.descriptor = .error e' ∧
          e = .classFile e' := by
  induction methods with
  | nil =>
    exact ⟨.ok [], .pure, by simp [Readable], List.Sublist.slnil,
      fun c => ⟨nofun, fun h => nomatch h.mem⟩⟩
  | cons d methods ih =>
    cases htype : MethodDescriptor.ofDescriptor d.member.descriptor with
    | error e =>
      unfold applicable
      rw [htype]
      exact ⟨_, yields_ofDescriptor.bind_error, d, List.mem_cons_self, e, htype, rfl⟩
    | ok type =>
      obtain ⟨result, hrest, hresult⟩ := ih
      obtain ⟨fits, hfits, hyields⟩ := yields_applicable_cons hm hbounded hargs htype hrest
      refine ⟨_, hyields, ?_⟩
      cases result with
      | error e =>
        obtain ⟨d', hd', e', he', rfl⟩ := hresult
        exact ⟨d', List.mem_cons_of_mem d hd', e', he', rfl⟩
      | ok cs =>
        obtain ⟨hreadable, hsublist, hcs⟩ := hresult
        refine ⟨List.forall_mem_cons.mpr ⟨⟨type, htype⟩, hreadable⟩, ?_,
          applies_cons htype hfits hcs⟩
        -- the method stands first among those that apply, or is left out
        cases fits with
        | true => exact hsublist.cons_cons d
        | false => exact hsublist.cons d

/-- Of the last candidates those are kept whose parameters can be passed to the ones of all
candidates. -/
theorem yields_mostSpecific {all before candidates : List Candidate}
    (hall : all = before ++ candidates)
    (hlength : ∀ c ∈ all, ∀ d ∈ all, c.type.params.length = d.type.params.length)
    (hsound : ∀ c ∈ all, ∀ param ∈ c.type.params, m.SoundType param) :
    ∃ most, Yields m (mostSpecific all before.length candidates) (.ok most) ∧
    most.Sublist candidates ∧
      ∀ c ∈ candidates, c ∈ most ↔
        ∀ d ∈ all, List.Forall₂ m.Assigns c.type.params d.type.params := by
  induction candidates generalizing before with
  | nil => exact ⟨[], .pure, List.Sublist.slnil, nofun⟩
  | cons c candidates ih =>
    have hc : c ∈ all := hall ▸ List.mem_append_right before List.mem_cons_self
    have hnext : all = (before ++ [c]) ++ candidates := by simpa using hall
    obtain ⟨most, hrest, hsublist, hmost⟩ := ih hnext
    rw [List.length_append, List.length_singleton] at hrest
    -- the candidate is compared with all but itself
    have hothers : all.eraseIdx before.length = before ++ candidates := by
      rw [hall, List.eraseIdx_append_of_length_le (Nat.le_refl _), Nat.sub_self]
      rfl
    have htests :
        Decides m ((all.eraseIdx before.length).allM fun other => isMoreSpecific c.type other.type)
        (∀ d ∈ all, List.Forall₂ m.Assigns c.type.params d.type.params) := by
      rw [hothers]
      refine (Decides.allM fun d hd =>
        decides_isMoreSpecific hm hbounded (hlength c hc d ?_) (hsound c hc)).congr ?_
      · rw [hall]
        simp only [List.mem_append, List.mem_cons] at hd ⊢
        tauto
      · -- Its own parameters can be passed to the candidate itself.
        have hself : List.Forall₂ m.Assigns c.type.params c.type.params :=
          List.forall₂_same.mpr fun t _ => .same t
        rw [hall]
        simp only [List.mem_append, List.mem_cons]
        grind
    obtain ⟨isMost, hyields, hisMost⟩ := htests
    refine ⟨if isMost then c :: most else most, ?_, ?_, ?_⟩
    · unfold mostSpecific
      exact hyields.bind_ok (hrest.bind_ok .pure)
    · cases isMost with
      | true => exact hsublist.cons_cons c
      | false => exact hsublist.cons c
    · intro c' hc'
      rw [mem_cons_if]
      -- the same candidate may stand in the list twice
      rcases List.mem_cons.mp hc' with rfl | hlater
      · rw [hisMost]
        refine ⟨fun h => h.elim And.right fun hagain => ?_, fun h => .inl ⟨rfl, h⟩⟩
        exact (hmost c' (hsublist.subset hagain)).mp hagain
      · rw [← hmost c' hlater]
        refine ⟨fun h => h.elim ?_ id, .inr⟩
        rintro ⟨rfl, hb⟩
        exact (hmost c' hlater).mpr (hisMost.mp hb)

/-- The choice has an outcome, which is the one that the methods that apply call for. -/
theorem selects_selectOverload (hnodup : (methods.map (·.member.descriptor)).Nodup)
    (hargs : SoundArguments m args) (hparams : SoundParameters m methods) :
    ∃ out, Yields m (selectOverload methods args name line) out ∧
    Selects m methods args name line out := by
  unfold selectOverload
  obtain ⟨result, happlicable, hresult⟩ := yields_applicable hm hbounded methods hargs
  cases result with
  | error e =>
    obtain ⟨d, hd, e', he', rfl⟩ := hresult
    exact ⟨_, happlicable.bind_error, .unreadable hd he'⟩
  | ok all =>
    obtain ⟨hreadable, hsublist, hall⟩ := hresult
    -- all candidates take as many arguments as there are
    have hlength : ∀ c ∈ all, ∀ d ∈ all, c.type.params.length = d.type.params.length :=
      fun c hc d hd =>
      ((hall c).mp hc).takes.length_eq.symm.trans ((hall d).mp hd).takes.length_eq
    have hsound : ∀ c ∈ all, ∀ param ∈ c.type.params, m.SoundType param := fun c hc =>
      hparams c.method ((hall c).mp hc).mem c.type ((hall c).mp hc).type
    have hwhole : all = [] ++ all := (List.nil_append all).symm
    obtain ⟨most, hmost, hmostSublist, hmem⟩ :=
      yields_mostSpecific hm hbounded hwhole hlength hsound
    have hspecific (c : Candidate) : c ∈ most ↔ c.MostSpecific m methods args := by
      constructor
      · intro hc
        have hcall := hmostSublist.subset hc
        exact ⟨(hall c).mp hcall, fun d hd => (hmem c hcall).mp hc d ((hall d).mpr hd)⟩
      · intro hc
        exact (hmem c ((hall c).mpr hc.applies)).mpr fun d hd => hc.passes d ((hall d).mp hd)
    -- descriptors differ, so two entries are two candidates
    have hdistinct : most.Nodup :=
      ((hnodup.of_map.sublist hsublist).of_map).sublist hmostSublist
    match most with
    | [c] =>
      have hc := (hspecific c).mp List.mem_cons_self
      refine ⟨.ok c, happlicable.bind_ok (hmost.bind_ok .pure), .chosen hreadable hc fun d hd => ?_⟩
      exact List.mem_singleton.mp ((hspecific d).mpr hd)
    -- none is most specific: either none applies at all, or those that apply are no match for each
    -- other
    | [] =>
      have hnone (c : Candidate) : ¬c.MostSpecific m methods args :=
        fun hc => nomatch (hspecific c).mpr hc
      cases all with
      | nil =>
        refine ⟨_, happlicable.bind_ok (hmost.bind_ok Yields.throw.bind_error),
          .noSuitable hreadable fun c hc => ?_⟩
        exact nomatch (hall c).mpr hc
      | cons c rest =>
        have hc := (hall c).mp List.mem_cons_self
        refine ⟨_, happlicable.bind_ok (hmost.bind_ok .throw), .ambiguous hreadable hc fun h => ?_⟩
        exact hnone h.choose h.choose_spec.1
    | c :: d :: rest =>
      have hc := (hspecific c).mp List.mem_cons_self
      have hd := (hspecific d).mp (List.mem_cons_of_mem c List.mem_cons_self)
      refine ⟨_, happlicable.bind_ok (hmost.bind_ok .throw),
        .ambiguous hreadable hc.applies fun h => ?_⟩
      have hne : c ≠ d := fun heq => (List.nodup_cons.mp hdistinct).1 (heq ▸ List.mem_cons_self)
      exact hne (h.unique hc hd)

end

/-! ## 4. Choices between the same methods -/

/-- The same comes of two choices: methods with the same descriptor, the same fault, or a descriptor
that cannot be read. -/
inductive SameChoice : Except Error Candidate → Except Error Candidate → Prop
  | chosen {c c' : Candidate}
      (hdescriptor : c'.method.member.descriptor = c.method.member.descriptor)
      (htype : c'.type = c.type) : SameChoice (.ok c) (.ok c')
  | ambiguous (line : Nat) (name : String) :
      SameChoice (.error (.fault line (.ambiguous name))) (.error (.fault line (.ambiguous name)))
  | noSuitable (line : Nat) (name : String) (types : List ValueType) :
      SameChoice (.error (.fault line (.noSuitableMethod name types)))
        (.error (.fault line (.noSuitableMethod name types)))
  | unreadable (e e' : ClassFile.Error) :
      SameChoice (.error (.classFile e)) (.error (.classFile e'))

structure SameMethods (m : Dictionary) (methods : List Declared) (m' : Dictionary)
    (methods' : List Declared) : Prop where
  nodup : (methods'.map (·.member.descriptor)).Nodup
  descriptors : methods.map (·.member.descriptor) ⊆ methods'.map (·.member.descriptor)
  assigns : ∀ {a b : FieldType}, m.Assigns a b ↔ m'.Assigns a b

variable {m' : Dictionary} {methods' : List Declared} {c d : Candidate}

theorem Takes.congr (hassigns : ∀ {a b : FieldType}, m.Assigns a b ↔ m'.Assigns a b)
    {arg : ValueType} {param : FieldType} (h : Takes m arg param) : Takes m' arg param := by
  cases h with
  | null h => exact .null h
  | value h => exact .value (hassigns.mp h)

/-- Among methods with distinct descriptors the descriptor tells which one it is. -/
theorem Candidate.Applies.eq_of_descriptor (hnodup : (methods.map (·.member.descriptor)).Nodup)
    (hc : c.Applies m methods args) (hd : d.Applies m methods args)
    (h : d.method.member.descriptor = c.method.member.descriptor) : d = c := by
  have hmethod : d.method = c.method := List.inj_on_of_nodup_map hnodup hd.mem hc.mem h
  have htype : d.type = c.type := Except.ok.inj (hd.type.symm.trans (h ▸ hc.type))
  obtain ⟨method, type⟩ := c
  obtain ⟨method', type'⟩ := d
  cases hmethod
  cases htype
  rfl

namespace SameMethods

theorem refl (h : (methods.map (·.member.descriptor)).Nodup) : SameMethods m methods m methods :=
  ⟨h, List.Subset.refl _, .rfl⟩

theorem readable (h : SameMethods m methods m' methods') (hreadable : Readable methods') :
    Readable methods := by
  intro d hd
  obtain ⟨d', hd', hdescriptor⟩ := List.mem_map.mp (h.descriptors (List.mem_map_of_mem hd))
  rw [← hdescriptor]
  exact hreadable d' hd'

/-- For a method that applies there is one with its descriptor on the other side, and that applies
too. -/
theorem applies (h : SameMethods m methods m' methods') (hc : c.Applies m methods args) :
    ∃ c' : Candidate, c'.Applies m' methods' args ∧
    c'.method.member.descriptor = c.method.member.descriptor ∧ c'.type = c.type := by
  obtain ⟨d', hd', hdescriptor⟩ := List.mem_map.mp (h.descriptors (List.mem_map_of_mem hc.mem))
  refine ⟨⟨d', c.type⟩, ⟨hd', ?_, hc.takes.imp fun _ _ => Takes.congr h.assigns⟩, hdescriptor, rfl⟩
  exact hdescriptor ▸ hc.type

theorem mostSpecific (h : SameMethods m methods m' methods')
    (h' : SameMethods m' methods' m methods) (hc : c.MostSpecific m methods args) :
    ∃ c' : Candidate, c'.MostSpecific m' methods' args ∧
    c'.method.member.descriptor = c.method.member.descriptor ∧ c'.type = c.type := by
  obtain ⟨c', hc', hdescriptor, htype⟩ := h.applies hc.applies
  refine ⟨c', ⟨hc', fun d' hd' => ?_⟩, hdescriptor, htype⟩
  obtain ⟨d, hd, -, hdtype⟩ := h'.applies hd'
  rw [htype, ← hdtype]
  exact (hc.passes d hd).imp fun _ _ => h.assigns.mp

/-- If one method is the most specific on one side, so is the one with its descriptor on the other
side. -/
theorem existsUnique (h : SameMethods m methods m' methods')
    (h' : SameMethods m' methods' m methods)
    (hone : ∃! c : Candidate, c.MostSpecific m methods args) :
    ∃! c : Candidate, c.MostSpecific m' methods' args := by
  obtain ⟨c, hc, hunique⟩ := hone
  obtain ⟨c', hc', hdescriptor, -⟩ := h.mostSpecific h' hc
  refine ⟨c', hc', fun d' hd' => ?_⟩
  obtain ⟨d, hd, hddescriptor, -⟩ := h'.mostSpecific h hd'
  obtain rfl := hunique d hd
  exact hc'.applies.eq_of_descriptor h.nodup hd'.applies (hddescriptor.symm.trans hdescriptor.symm)

end SameMethods

/-- The same comes of choices between the same methods. -/
theorem Selects.agree (h : SameMethods m methods m' methods')
    (h' : SameMethods m' methods' m methods)
    {out' : Except Error Candidate} (hout : Selects m methods args name line out)
    (hout' : Selects m' methods' args name line out') : SameChoice out out' := by
  cases hout with
  | unreadable hd he =>
    -- a descriptor that cannot be read is among the methods of either choice
    have hnot : ¬Readable methods' := fun hreadable => by
      obtain ⟨type, htype⟩ := h.readable hreadable _ hd
      cases he.symm.trans htype
    cases hout' with
    | unreadable => exact .unreadable _ _
    | noSuitable hreadable | ambiguous hreadable | chosen hreadable => exact absurd hreadable hnot
  | noSuitable hreadable hnone =>
    have hnone' (c : Candidate) : ¬c.Applies m' methods' args := fun hc => by
      obtain ⟨c', hc', -⟩ := h'.applies hc
      exact hnone c' hc'
    cases hout' with
    | unreadable hd he =>
      obtain ⟨type, htype⟩ := h'.readable hreadable _ hd
      cases he.symm.trans htype
    | noSuitable => exact .noSuitable _ _ _
    | ambiguous _ hc => exact absurd hc (hnone' _)
    | chosen _ hc => exact absurd hc.applies (hnone' _)
  | ambiguous hreadable hc hnot =>
    obtain ⟨c', hc', -⟩ := h.applies hc
    cases hout' with
    | unreadable hd he =>
      obtain ⟨type, htype⟩ := h'.readable hreadable _ hd
      cases he.symm.trans htype
    | noSuitable _ hnone => exact absurd hc' (hnone c')
    | ambiguous => exact .ambiguous _ _
    | chosen _ hone hunique => exact absurd (h'.existsUnique h ⟨_, hone, hunique⟩) hnot
  | chosen hreadable hc hunique =>
    obtain ⟨c', hc', hdescriptor, htype⟩ := h.mostSpecific h' hc
    cases hout' with
    | unreadable hd he =>
      obtain ⟨type, htype⟩ := h'.readable hreadable _ hd
      cases he.symm.trans htype
    | noSuitable _ hnone => exact absurd hc'.applies (hnone c')
    | ambiguous _ _ hnot => exact absurd (h.existsUnique h' ⟨_, hc, hunique⟩) hnot
    | chosen _ _ hunique' =>
      obtain rfl := hunique' c' hc'
      exact .chosen hdescriptor htype

namespace Selects

variable (hnodup : (methods.map (·.member.descriptor)).Nodup) (hreadable : Readable methods)
  (h : Selects m methods args name line out)
include hnodup hreadable h

theorem eq_ok_iff : out = .ok c ↔
    c.MostSpecific m methods args ∧ ∀ d : Candidate, d.MostSpecific m methods args → d = c := by
  constructor
  · rintro rfl
    cases h with
    | chosen _ hc hunique => exact ⟨hc, hunique⟩
  · rintro ⟨hc, hunique⟩
    have hagree := (Selects.chosen hreadable hc hunique).agree (.refl hnodup) (.refl hnodup) h
    cases hagree with
    | chosen =>
      cases h with
      | chosen _ hc' => rw [hunique _ hc']

theorem eq_ambiguous_iff : out = .error (.fault line (.ambiguous name)) ↔
    (∃ c : Candidate, c.Applies m methods args) ∧
    ¬∃! c : Candidate, c.MostSpecific m methods args := by
  constructor
  · rintro rfl
    cases h with
    | ambiguous _ hc hnot => exact ⟨⟨_, hc⟩, hnot⟩
  · rintro ⟨⟨c, hc⟩, hnot⟩
    have hother : Selects m methods args name line (.error (.fault line (.ambiguous name))) :=
      .ambiguous hreadable hc hnot
    have hagree := hother.agree (.refl hnodup) (.refl hnodup) h
    cases hagree
    rfl

theorem eq_noSuitable_iff :
    out = .error (.fault line (.noSuitableMethod name (args.map (·.type)))) ↔
    ∀ c : Candidate, ¬c.Applies m methods args := by
  constructor
  · rintro rfl
    cases h with
    | noSuitable _ hnone => exact hnone
  · intro hnone
    have hother : Selects m methods args name line
        (.error (.fault line (.noSuitableMethod name (args.map (·.type))))) :=
      .noSuitable hreadable hnone
    have hagree := hother.agree (.refl hnodup) (.refl hnodup) h
    cases hagree
    rfl

end Selects

end MethodGraft.Typed
