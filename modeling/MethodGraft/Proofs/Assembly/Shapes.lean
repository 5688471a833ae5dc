import MethodGraft.Proofs.Assembly.Valid
import MethodGraft.Proofs.Finish.StackMap
import MethodGraft.Proofs.Verify.Body

/-!
# Proofs.Assembly.Shapes — frames that a stack map can hold

Every frame that a body in the making comes to has a value in each stack entry, and room for each
value in its locals.  So it is read back from a stack map as it is.  The frame of a handler keeps
the locals of the range.
-/

namespace MethodGraft.Code

open ClassFile Verify

/-! ## 1. Layouts -/

variable {n n' : Nat} {locals listed layout layout' : Layout}

theorem Layout.covers_iff : locals.Covers listed ↔
    ∀ i k, listed.slots i = some k → locals.slots i = some k := by
  constructor
  · intro h i k hi
    have hlt := (List.getElem?_eq_some_iff.mp (slots_eq_some_iff.mp hi)).1
    rw [h i hlt (by rw [hi]; rfl), hi]
  · intro h i _ hsome
    obtain ⟨k, hk⟩ := Option.isSome_iff_exists.mp hsome
    rw [h i k hk, hk]

theorem Layout.slots_of_ge {i : Nat} (h : layout.length ≤ i) : layout.slots i = none := by
  unfold slots
  rw [List.getElem?_eq_none h]
  rfl

theorem Layout.slots_store (slot : Nat) (k : ValueKind) :
    (locals.store slot k).slots = Slots.store ValueKind.isWide locals.slots slot k := by
  funext i
  by_cases hi : i < max locals.length (slot + k.width)
  · unfold store
    conv => lhs; unfold slots
    rw [List.getElem?_map, List.getElem?_range hi]
    rfl
  · have hwidth : 0 < k.width := by cases k <;> decide
    have hlength : (locals.store slot k).length ≤ i := by
      unfold store
      rw [List.length_map, List.length_range]
      exact Nat.le_of_not_lt hi
    rw [slots_of_ge hlength]
    unfold Slots.store
    rw [if_neg (by omega), slots_of_ge (by omega)]
    split
    next => rfl
    next => exact (ite_self none).symm

theorem Layout.slots_mono (h : layout <+: layout') {i : Nat} {k : ValueKind}
    (hi : layout.slots i = some k) : layout'.slots i = some k :=
  slots_eq_some_iff.mpr (Typed.getElem?_mono h (slots_eq_some_iff.mp hi))

/-- Wide values have two slots of their own, and all values are in the first `n` slots. -/
structure Layout.Sound (n : Nat) (layout : Layout) : Prop where
  apart : ∀ i k, layout.slots i = some k → k.isWide = true → layout.slots (i + 1) = none
  within : ∀ i k, layout.slots i = some k → i + k.width ≤ n

namespace Layout.Sound

theorem mono (h : layout.Sound n) (hn : n ≤ n') : layout.Sound n' where
  apart := h.apart
  within i k hi := Nat.le_trans (h.within i k hi) hn

theorem of_prefix (h : layout'.Sound n) (hle : layout <+: layout') : layout.Sound n where
  apart i k hi hwide := by
    cases hnext : layout.slots (i + 1) with
    | none => rfl
    | some k' =>
      have hnone := h.apart i k (slots_mono hle hi) hwide
      rw [slots_mono hle hnext] at hnone
      cases hnone
  within i k hi := h.within i k (slots_mono hle hi)

theorem of_packed (h : Packed layout) : layout.Sound layout.length where
  apart i k hi hwide := by
    unfold slots
    rw [h i k (slots_eq_some_iff.mp hi) hwide]
    rfl
  within i k hi := h.width_le (slots_eq_some_iff.mp hi)

theorem store {slot : Nat} {k : ValueKind} (h : layout.Sound n) (hn : n ≤ n')
    (hslots : layout'.slots = Slots.store ValueKind.isWide layout.slots slot k)
    (hslot : slot + k.width ≤ n') : layout'.Sound n' where
  apart i k' hi hwide := by
    rw [hslots] at hi ⊢
    by_cases heq : i = slot
    · subst heq
      rw [Slots.store_self] at hi
      cases hi
      unfold Slots.store
      rw [if_neg (Nat.succ_ne_self i), if_pos ⟨rfl, hwide⟩]
    · obtain ⟨hold, -, hnext⟩ := (Slots.store_eq_some heq).mp hi
      have hne : i + 1 ≠ slot := fun he => hnext ⟨he, hwide⟩
      cases hafter : Slots.store ValueKind.isWide layout.slots slot k (i + 1) with
      | none => rfl
      | some k'' =>
        have hnone := h.apart i k' hold hwide
        rw [((Slots.store_eq_some hne).mp hafter).1] at hnone
        cases hnone
  within i k' hi := by
    rw [hslots] at hi
    by_cases heq : i = slot
    · subst heq
      rw [Slots.store_self] at hi
      cases hi
      exact hslot
    · exact Nat.le_trans (h.within i k' ((Slots.store_eq_some heq).mp hi).1) hn

end Layout.Sound

/-- What an operation does to sound locals. -/
theorem Operation.LocalsFit.sound {op : Operation} (h : op.LocalsFit layout layout')
    (hsound : layout.Sound n) (hn : n ≤ n') (hlength : layout'.length ≤ n') : layout'.Sound n' := by
  cases op with
  | load =>
    obtain ⟨-, -, rfl⟩ := h
    exact hsound.mono hn
  | store k slot => exact hsound.store hn h.2 (Nat.le_trans h.1 hlength)
  | _ =>
    obtain rfl := h
    exact hsound.mono hn

/-! ## 2. Frames as they are read -/

theorem VerificationType.kind?_of_isWide {t : VerificationType} (h : t.isWide = true) :
    ∃ k, t.kind? = some k ∧ k.isWide = true := by
  cases t with
  | long | double => exact ⟨_, rfl, rfl⟩
  | _ => cases h

theorem VerificationType.layout_of_not_isWide {t : VerificationType} (h : ¬t.isWide = true) :
    slotsOf [t.kind?] = [t.kind?] := by
  cases t with
  | long | double => exact absurd rfl h
  | _ => rfl

theorem slotsOf_cons (o : Option ValueKind) (layout : Layout) :
    slotsOf (o :: layout) = slotsOf [o] ++ slotsOf layout := by
  unfold slotsOf
  rw [List.flatMap_cons, List.flatMap_cons, List.flatMap_nil, List.append_nil]

theorem Layout.Sound.tail {o : Option ValueKind} (h : Layout.Sound n (o :: layout)) :
    layout.Sound (n - 1) where
  apart i k hi := h.apart (i + 1) k hi
  within i k hi := by
    have := h.within (i + 1) k hi
    omega

theorem kindsOf_cons (t : VerificationType) (ts : List VerificationType) :
    kindsOf (t :: ts) = t.kind? :: kindsOf ts := rfl

/-- The slot after a wide value is left out when a frame is written, and comes back when it is
read. -/
theorem kindsOf_wide {t u : VerificationType} {ts : List VerificationType} (ht : t.isWide = true)
    (h : (kindsOf (t :: u :: ts)).Sound n) :
    kindsOf (t :: u :: ts) = slotsOf [t.kind?] ++ kindsOf ts ∧ 2 ≤ n := by
  obtain ⟨k, hk, hwide⟩ := VerificationType.kind?_of_isWide ht
  have hfirst : (kindsOf (t :: u :: ts)).slots 0 = some k := by
    rw [Layout.slots_eq_some_iff, kindsOf_cons, hk]
    rfl
  have hnext : u.kind? = none := h.apart 0 k hfirst hwide
  have hwidth : k.width = 2 := if_pos hwide
  have hlayout : slotsOf [some k] = [some k, none] := by
    unfold slotsOf ValueKind.layout
    rw [List.flatMap_cons, List.flatMap_nil]
    dsimp only
    rw [if_pos hwide]
    rfl
  refine ⟨?_, ?_⟩
  · rw [kindsOf_cons, kindsOf_cons, hnext, hk, hlayout]
    rfl
  · have := h.within 0 k hfirst
    omega

theorem slots_append_congr (front : Layout) (h : layout.slots = layout'.slots) :
    Layout.slots (front ++ layout) = Layout.slots (front ++ layout') := by
  funext i
  unfold Layout.slots
  by_cases hi : i < front.length
  · rw [List.getElem?_append_left hi, List.getElem?_append_left hi]
  · rw [List.getElem?_append_right (Nat.le_of_not_lt hi),
      List.getElem?_append_right (Nat.le_of_not_lt hi)]
    exact congrFun h (i - front.length)

/-- The locals of a frame are read as they are. -/
theorem slots_slotsOf : ∀ {n : Nat} (ts : List VerificationType), (kindsOf ts).Sound n →
    (slotsOf (kindsOf (localEntries ts))).slots = (kindsOf ts).slots
  | _, [], _ => rfl
  | _, [t], _ => by
    funext i
    rcases i with _ | _ | i <;> cases t <;> rfl
  | n, t :: u :: ts, h => by
    unfold localEntries
    -- a wide type stands for the slot after it as well, so the induction skips that slot
    by_cases ht : t.isWide = true
    · rw [if_pos ht, kindsOf_cons, slotsOf_cons, (kindsOf_wide ht h).1]
      exact slots_append_congr _ (slots_slotsOf ts h.tail.tail)
    · rw [if_neg ht, kindsOf_cons t, slotsOf_cons, VerificationType.layout_of_not_isWide ht]
      exact slots_append_congr [t.kind?] (slots_slotsOf (u :: ts) h.tail)

theorem length_slotsOf_le : ∀ {n : Nat} (ts : List VerificationType), (kindsOf ts).Sound n →
    ts.length ≤ n → (slotsOf (kindsOf (localEntries ts))).length ≤ n
  | _, [], _, _ => Nat.zero_le _
  | n, [t], h, hlength => by
    -- the slot after a last wide type is not listed, but is below `n` all the same
    by_cases ht : t.isWide = true
    · obtain ⟨k, hk, hwide⟩ := VerificationType.kind?_of_isWide ht
      have hwithin := h.within 0 k (Layout.slots_eq_some_iff.mpr (congrArg some hk))
      have hlayout : (slotsOf (kindsOf (localEntries [t]))).length = k.width := by
        show (slotsOf [t.kind?]).length = _
        rw [hk]
        cases k <;> rfl
      omega
    · show (slotsOf [t.kind?]).length ≤ n
      rw [VerificationType.layout_of_not_isWide ht]
      exact hlength
  | n, t :: u :: ts, h, hlength => by
    rw [List.length_cons, List.length_cons] at hlength
    unfold localEntries
    by_cases ht : t.isWide = true
    · have hrest := length_slotsOf_le ts h.tail.tail (by omega)
      have hkinds := congrArg List.length (kindsOf_wide ht h).1
      have htwo := (kindsOf_wide ht h).2
      rw [if_pos ht, kindsOf_cons, slotsOf_cons, List.length_append]
      rw [List.length_append, length_kindsOf, length_kindsOf, List.length_cons, List.length_cons]
        at hkinds
      omega
    · have hrest := length_slotsOf_le (u :: ts) h.tail (by rw [List.length_cons]; omega)
      rw [if_neg ht, kindsOf_cons t, slotsOf_cons, VerificationType.layout_of_not_isWide ht,
        List.length_append, List.length_singleton]
      omega

/-! ## 3. Frames -/

/-- The frame can be written and read back: every stack entry holds a value, and the locals have
room. -/
structure Frame.Sound (n : Nat) (f : Frame) : Prop where
  filled : f.Filled
  locals : (kindsOf f.locals.toList).Sound n

namespace Frame.Sound

variable {f : Frame}

theorem mono (h : f.Sound n) (hn : n ≤ n') : f.Sound n' where
  filled := h.filled
  locals := h.locals.mono hn

theorem slots_kinds (h : f.Sound n) : f.kinds.locals.slots = (kindsOf f.locals.toList).slots :=
  slots_slotsOf f.locals.toList h.locals

theorem map_some_kinds (h : f.Sound n) : f.kinds.stack.map some = kindsOf f.stack := by
  obtain ⟨ks, hks⟩ := h.filled
  unfold Frame.kinds
  rw [hks, List.filterMap_map]
  simp

theorem length_kinds_le (h : f.Sound n) (hsize : f.locals.size ≤ n) : f.kinds.locals.length ≤ n :=
  length_slotsOf_le f.locals.toList h.locals (by rwa [Array.length_toList])

end Frame.Sound

theorem Operation.Carries.filled {op : Operation} {pool : ConstantPool}
    {before after : List VerificationType}
    (h : op.Carries pool before after) {locals : Array VerificationType} :
    Frame.Filled ⟨locals, after⟩ := by
  obtain ⟨_, left, -, hafter, -⟩ := h
  exact ⟨left, hafter⟩

namespace Assembler

variable {a b : Assembler}

/-- A frame of a label was there before, or is what the locals and the stack are now, or is that of
a handler. -/
theorem Step.frame_cases (h : Step a b) {l : Label} {f : Frame}
    (hf : (b.labelState l).frame = some f) :
    (a.labelState l).frame = some f ∨ f = b.frame ∧ (a.reachable = true ∨ b.reachable = true) ∨
      1 ≤ a.maxStack ∧ ∃ name, f = ⟨a.locals, [.object name]⟩ := by
  cases h.label l with
  | kept state => exact .inl (state ▸ hf)
  | made _ state =>
    rw [state] at hf
    cases hf
  | aimed _ state frame =>
    rw [state] at hf
    rcases LabelState.frame_target hf with hold | ⟨-, rfl⟩
    · exact .inl hold
    · exact .inr (frame.imp_left fun hnow => ⟨hnow.1, .inl hnow.2⟩)
  | placed state arrives =>
    rw [state] at hf
    cases hf
    exact .inr (.inl ⟨arrives.frame.symm, .inr arrives.onward⟩)
  | passed _ _ _ _ state =>
    rw [state] at hf
    cases hf

/-! ## 4. Bodies -/

/-- What the handler of a range finds.  While the range is open, the locals stay as the handler
expects them. -/
structure Catches (a : Assembler) (r : HandlerRange) (f : Frame) : Prop where
  frame : (a.labelState r.handler).frame = some f
  stack : kindsOf f.stack = [some .reference]
  locals : (a.labelState r.stop).position = none → kindsOf f.locals.toList = kindsOf a.locals.toList

structure Shaped (a : Assembler) : Prop where
  here : a.frame.Sound a.maxLocals.toNat
  labels : ∀ l f, (a.labelState l).frame = some f → f.Sound a.maxLocals.toNat
  handlers : ∀ r ∈ a.handlers.toList, ∃ f, a.Catches r f

/-- The range stays open only while the locals stay as they are. -/
theorem Catches.step {r : HandlerRange} {f : Frame} (hc : a.Catches r f) (h : Step a b)
    (hlocals : (a.labelState r.stop).position = none → (b.labelState r.stop).position = none →
      kindsOf b.locals.toList = kindsOf a.locals.toList) : b.Catches r f where
  frame := h.extends.frame _ f hc.frame
  stack := hc.stack
  locals hopen := by
    have hbefore : (a.labelState r.stop).position = none := by
      cases hp : (a.labelState r.stop).position with
      | none => rfl
      | some p =>
        rw [h.extends.placed _ p hp, hp] at hopen
        cases hopen
    rw [hc.locals hbefore, hlocals hbefore hopen]

theorem Shaped.step_handlers (ha : a.Shaped) (h : Step a b) :
    ∀ r ∈ b.handlers.toList, ∃ f, b.Catches r f := by
  have hstep := h
  have hkeep {r : HandlerRange} (hr : r ∈ a.handlers.toList)
      (hlocals : (a.labelState r.stop).position = none → (b.labelState r.stop).position = none →
        kindsOf b.locals.toList = kindsOf a.locals.toList) : ∃ f, b.Catches r f := by
    obtain ⟨f, hf⟩ := ha.handlers r hr
    exact ⟨f, hf.step hstep hlocals⟩
  have hclosed {P : Prop} (hc : a.Closed) {r : HandlerRange} (hr : r ∈ a.handlers.toList)
      (hopen : (a.labelState r.stop).position = none) : P := by
    have := hc r hr
    rw [hopen] at this
    cases this
  cases h with
  | pass h =>
    -- locals change only where no range is open
    intro r hr
    rw [h.handlers] at hr
    exact hkeep hr fun hopen _ => h.guarded.elim (hclosed · hr hopen) id
  | jump | ret | newLabel | passBy => exact fun r hr => hkeep hr fun _ _ => rfl
  | @place l f made _ _ _ _ _ _ closes =>
    intro r hr
    refine hkeep hr fun hopen hopen' => ?_
    -- the label closes the one range that may be open
    rcases closes r hr with heq | hplaced
    · rw [heq, labelState_placed made,
        if_pos rfl] at hopen'
      cases hopen'
    · rw [hopen] at hplaced
      cases hplaced
  | truncate closed => exact fun r hr => hkeep hr fun hopen _ => hclosed closed hr hopen
  | @guard g name pool _ _ _ awaits unknown _ _ _ _ closed =>
    intro r hr
    have hr' : r ∈ a.handlers.toList ∨ r = g := by simpa [guarding] using hr
    rcases hr' with hold | rfl
    · exact hkeep hold fun hopen _ => hclosed closed hold hopen
    · -- the handler is new and takes the locals of this moment
      refine ⟨⟨a.locals, [.object name]⟩, ?_, rfl, fun _ => rfl⟩
      rw [labelState_guarding awaits.made, if_pos rfl,
        LabelState.target, unknown]
      rfl

theorem Shaped.step_here (ha : a.Shaped) (hb : b.locals.size ≤ b.maxLocals.toNat) (h : Step a b) :
    b.frame.Sound b.maxLocals.toNat := by
  have hmax : a.maxLocals.toNat ≤ b.maxLocals.toNat := UInt16.le_iff_toNat_le.mp h.extends.maxLocals
  cases h with
  | pass h =>
    refine ⟨h.carries.filled, h.locals.sound ha.here.locals hmax ?_⟩
    rwa [length_kindsOf, Array.length_toList]
  | jump _ _ carries => exact ⟨carries.filled, ha.here.locals⟩
  | ret => exact ⟨⟨[], rfl⟩, ha.here.locals⟩
  | newLabel | passBy | guard => exact ha.here
  | @place l f _ _ _ known _ live =>
    cases hframe : (a.labelState l).frame with
    | none =>
      show f.Sound _
      rw [(live hframe).2]
      exact ha.here
    | some g =>
      show f.Sound _
      rw [← known g hframe]
      exact ha.labels l g hframe
  | @truncate length =>
    exact ⟨ha.here.filled, ha.here.locals.of_prefix (kindsOf_take a.locals length)⟩

theorem Shaped.step (ha : a.Shaped) (hb : b.Valid) (h : Step a b) : b.Shaped where
  here := ha.step_here hb.locals_le h
  labels l f hf := by
    have hmax : a.maxLocals.toNat ≤ b.maxLocals.toNat :=
      UInt16.le_iff_toNat_le.mp h.extends.maxLocals
    rcases h.frame_cases hf with hold | ⟨rfl, -⟩ | ⟨-, name, rfl⟩
    · exact (ha.labels l f hold).mono hmax
    · exact ha.step_here hb.locals_le h
    · exact ⟨⟨[.reference], rfl⟩, ha.here.locals.mono hmax⟩
  handlers := ha.step_handlers h

theorem Shaped.builds (ha : a.Shaped) (hvalid : a.Valid) (h : Builds a b) : b.Shaped := by
  induction h with
  | refl => exact ha
  | tail hab hstep ih => exact ih.step ((hvalid.builds hab).step hstep) hstep

end Assembler

end MethodGraft.Code
