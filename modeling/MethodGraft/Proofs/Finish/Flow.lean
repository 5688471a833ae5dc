import MethodGraft.Proofs.Assembly.Depth
import MethodGraft.Proofs.Finish.Table
import MethodGraft.Proofs.Machine.Slots

/-!
# Proofs.Finish.Flow — complete bodies type-check

The verifier goes through a complete body as the body was made, instruction by instruction.  What it
knows of the locals and the stack is always at least what was known when the instruction was added.
-/

namespace MethodGraft

open ClassFile Code Verify Machine

/-! ## 1. Runs of the verifier -/

namespace Verify.Body

variable {body : Body} {entry : KindFrame} {frames : List (Nat × KindFrame)} {p n : Nat}
  {current : Option KindFrame}

inductive Checks (body : Body) (entry : KindFrame) :
    List (Nat × KindFrame) → Nat → Option KindFrame → Prop
  | start : Checks body entry [] 0 (some entry)
  | next {frames : List (Nat × KindFrame)} {p q : Nat} {current after : Option KindFrame}
      {f : KindFrame} (before : Checks body entry frames p current)
      (pass : body.pass? p current = some (f, q, after)) :
      Checks body entry (frames ++ [(p, f)]) q after

theorem Checks.framesFrom? (h : body.Checks entry frames p current) {rest : List (Nat × KindFrame)}
    (hrest : body.framesFrom? n p current = some rest) :
    body.framesFrom? (frames.length + n) 0 (some entry) = some (frames ++ rest) := by
  induction h generalizing n rest with
  | start =>
    rw [List.length_nil, Nat.zero_add]
    exact hrest
  | @next frames p q current after f before pass ih =>
    have hnext : body.framesFrom? (n + 1) p current = some ((p, f) :: rest) := by
      unfold Body.framesFrom?
      rw [pass]
      show (body.framesFrom? n q after).bind _ = _
      rw [hrest]
      rfl
    rw [List.length_append, List.length_singleton, Nat.add_assoc, Nat.add_comm 1, ih hnext,
      List.append_assoc]
    rfl

/-- The run is complete where the code ends, if control does not get there. -/
theorem Checks.complete (h : body.Checks entry frames body.code.length none) :
    body.framesFrom? frames.length 0 (some entry) = some frames := by
  have hend : body.framesFrom? 0 body.code.length none = some [] := if_pos ⟨rfl, rfl⟩
  have hrun := h.framesFrom? hend
  rwa [Nat.add_zero, List.append_nil] at hrun

end Verify.Body

namespace Code

variable {op : Operation} {k : KindFrame}

/-! ## 2. Instructions with positions in place of labels -/

theorem Operation.effect_resolve (op : Operation) (t : Nat) (pool : ConstantPool)
    (stack : List ValueKind) : (op.resolve t).effect pool stack = op.effect pool stack := by
  cases op with
  | invoke kind => cases kind <;> rfl
  | _ => rfl

theorem Operation.locals_of_target {before after : Layout} {l : Label}
    (h : op.LocalsFit before after) (htarget : op.target? = some l) : after = before := by
  cases op with
  | goto | branch => exact h
  | _ => cases htarget

/-- What is known of the locals after an instruction is enough for what they are then. -/
theorem Operation.LocalsFit.after? {before after locals : Layout} (h : op.LocalsFit before after)
    (body : Body) (t : Nat) (hbrings : ∀ i x, before.slots i = some x → locals.slots i = some x)
    (hbefore : before.length ≤ body.maxLocals) (hafter : after.length ≤ body.maxLocals) :
    ∃ locals', body.localsAfter? (op.resolve t) locals = some locals' ∧
      ∀ i x, after.slots i = some x → locals'.slots i = some x := by
  cases op with
  | load k slot =>
    obtain ⟨hslot, hle, rfl⟩ := h
    have hheld := hbrings slot.toNat k (Layout.slots_eq_some_iff.mpr hslot)
    exact ⟨locals, if_pos ⟨hheld, Nat.le_trans hle hbefore⟩, hbrings⟩
  | store k slot =>
    refine ⟨locals.store slot.toNat k, if_pos (Nat.le_trans h.1 hafter), fun i x hi => ?_⟩
    rw [h.2] at hi
    rw [Layout.slots_store]
    by_cases heq : i = slot.toNat
    · subst heq
      rw [Slots.store_self] at hi ⊢
      exact hi
    · rw [Slots.store_eq_some heq] at hi ⊢
      exact ⟨hbrings i x hi.1, hi.2⟩
  | invoke kind =>
    obtain rfl := h
    cases kind <;> exact ⟨locals, rfl, hbrings⟩
  | _ =>
    obtain rfl := h
    exact ⟨locals, rfl, hbrings⟩

namespace Assembler

variable {a b F : Assembler} {body : Body} {l : Label} {p : Nat} {f : Frame}
    {current : Option KindFrame}

/-! ## 3. The finished body -/

structure Written (F : Assembler) (body : Body) : Prop where
  valid : F.Valid
  shaped : F.Shaped
  aligned : F.Aligned
  laid : F.Laid ⟨body.pool, decodeAt body.code, body.handlers⟩
  table : ∃ fs, F.FramesOf fs ∧ body.table = tableOf fs
  maxLocals : body.maxLocals = F.maxLocals.toNat

/-- Control may go where a jump or a handler leads. -/
theorem Written.accepts (hF : Written F body) (hs : F.Settles l p f) (hk : k.Gives f) :
    body.accepts p k = true := by
  obtain ⟨fs, hfs, htable⟩ := hF.table
  obtain ⟨l', g, hg, hnarrows, hat⟩ := hfs.at?_of_settles hF.aligned hs
  unfold Body.accepts
  rw [htable, hat]
  exact decide_eq_true ((hk.narrows hnarrows).agrees (hF.shaped.labels l' g hg.frame))

/-- No label is placed later before an instruction that is there. -/
theorem Grows.settles (h : Grows op a b) (hstep : Step a b) (hF : b.Extends F)
    (hs : F.Settles l a.offset f) : a.Settles l a.offset f := by
  have hb : b.Settles l a.offset f := by
    cases hposition : (b.labelState l).position with
    | some q =>
      have hsame := hF.placed l q hposition
      exact ⟨hsame ▸ hs.targeted, hsame ▸ hs.position, hsame ▸ hs.frame⟩
    | none =>
      exact absurd (hF.later l a.offset hposition hs.position) (Nat.not_le_of_lt h.offset_lt)
  rcases hstep.settles hb with hold | ⟨-, -, hnew⟩
  · exact hold
  · exact absurd hnew.offset (Nat.ne_of_gt h.offset_lt)

/-- Every handler of a range that the instruction is in has the locals that it expects. -/
theorem Written.catches (hF : Written F body) (ha : a.Valid) (hshaped : a.Shaped)
    (hgrows : Grows op a b) (hab : b.Extends F) (haF : a.Extends F) (hk : k.Gives a.frame) :
    body.catches a.offset k.locals = true := by
  refine List.all_eq_true.mpr fun h hh => ?_
  obtain ⟨r, hr, hlocated⟩ := hF.laid.handlers h hh
  by_cases hin : h.startPc.toNat ≤ a.offset ∧ a.offset < h.endPc.toNat
  · -- ranges that are opened after the instruction start behind it
    have hopened : r ∈ a.handlers.toList := by
      obtain ⟨more, hmore, hlater⟩ := hab.handlers
      rw [hmore, hgrows.handlers] at hr
      refine (List.mem_append.mp hr).resolve_right fun hnew => ?_
      obtain ⟨q, hq, hle⟩ := hlater r hnew
      rw [hlocated.start] at hq
      cases hq
      exact absurd (Nat.le_trans hle hin.1) (Nat.not_le_of_lt hgrows.offset_lt)
    -- ranges that were closed before the instruction end at or before it
    have hopen : (a.labelState r.stop).position = none := by
      cases hq : (a.labelState r.stop).position with
      | none => rfl
      | some q =>
        have hstop := hlocated.stop
        rw [haF.placed _ q hq, hq] at hstop
        cases hstop
        exact absurd ((ha.labels _).position_le _ hq) (Nat.not_le_of_lt hin.2)
    -- so the range is open, and the locals are still those of the handler
    obtain ⟨f, hf⟩ := hshaped.handlers r hopened
    have htargeted := haF.targeted _ (ha.handlers r hopened).targeted
    have haccepts := hF.accepts (k := ⟨k.locals, [.reference]⟩)
      ⟨htargeted, hlocated.handler, haF.frame _ f hf.frame⟩ ⟨hf.stack, ?_⟩
    · rw [haccepts, Bool.or_true]
    · rw [hf.locals hopen]
      exact hk.locals
  · rw [Bool.or_eq_true, Bool.not_eq_true']
    left
    rw [Bool.and_eq_false_iff, decide_eq_false_iff_not, decide_eq_false_iff_not]
    exact Decidable.not_and_iff_not_or_not.mp hin

/-! ## 4. One step -/

/-- What the verifier knows where the code of `a` ends.  If nothing comes from the instruction
before, control can come from elsewhere only. -/
structure Tracks (current : Option KindFrame) (a : Assembler) : Prop where
  brings : ∀ k, current = some k → a.reachable = true ∧ k.Gives a.frame
  meets : ∀ k, current = some k → ∀ l f, a.Settles l a.offset f → k.Gives f
  alone : current = none → a.reachable = true → ∃ l f, a.Settles l a.offset f

theorem Tracks.stays (h : Tracks current a) (hstep : Step a b) (hstays : Stays a b) :
    Tracks current b where
  brings k hk := by
    obtain ⟨hreach, hgives⟩ := h.brings k hk
    obtain ⟨hreach', hnarrows⟩ := hstays.onward hreach
    exact ⟨hreach', hgives.narrows hnarrows⟩
  meets k hk l f hs := by
    rcases hstep.settles hs with hold | ⟨-, -, hnew⟩
    · rw [hstays.offset] at hold
      exact h.meets k hk l f hold
    · obtain ⟨hreach, hgives⟩ := h.brings k hk
      exact hgives.narrows (.ofSameKinds (hnew.here hreach))
  alone hnone hreach := by
    cases ha : a.reachable with
    | false => exact hstays.revived ha hreach
    | true =>
      obtain ⟨l, f, hs⟩ := h.alone hnone ha
      refine ⟨l, f, ?_⟩
      rw [hstays.offset]
      exact hs.later hstep.extends

/-- The frame that an instruction begins with brings what was known when it was added. -/
theorem Tracks.enter (h : Tracks current a) (hF : Written F body) (haligned : a.Aligned)
    (hgrows : Grows op a b) (hstep : Step a b) (hab : b.Extends F) :
    ∃ k, body.enter? a.offset current = some k ∧ k.Gives a.frame := by
  obtain ⟨fs, hfs, htable⟩ := hF.table
  unfold Body.enter?
  rw [htable]
  cases hat : (tableOf fs).at? a.offset with
  | none =>
    cases hcurrent : current with
    | some k => exact ⟨k, rfl, (h.brings k hcurrent).2⟩
    | none =>
      -- a label that control comes to has its frame in the stack map
      obtain ⟨l, f, hs⟩ := h.alone hcurrent hgrows.reachable
      obtain ⟨_, _, _, _, hsome⟩ :=
        hfs.at?_of_settles hF.aligned (hs.later (hstep.extends.trans hab))
      rw [hat] at hsome
      cases hsome
  | some g =>
    -- the frame is that of a label which was there when the instruction was added
    obtain ⟨l, f, hs, rfl⟩ := hfs.settles_of_at? hat
    have hsound := hF.shaped.labels l f hs.frame
    have hhere := hgrows.settles hstep hab hs
    have hagrees : current.all (fun k => f.kinds.stack = k.stack ∧ k.locals.Covers f.kinds.locals) =
        true := by
      cases hcurrent : current with
      | none => rfl
      | some k => exact decide_eq_true ((h.meets k hcurrent l f hhere).agrees hsound)
    exact ⟨f.kinds, if_pos hagrees, (gives_kinds hsound).narrows (haligned.met l f hhere).2⟩

/-- The verifier accepts an instruction, and knows enough after it. -/
theorem Written.after (hF : Written F body) (ha : a.Valid) (hshaped : a.Shaped)
    (hgrows : Grows op a b) (hstep : Step a b) (hab : b.Extends F) {t : Nat}
    (hposition : ∀ l, op.target? = some l → (F.labelState l).position = some t)
    (hk : k.Gives a.frame) :
    ∃ after, body.after? a.offset (op.resolve t) k = some after ∧
    (b.reachable = true → after.Gives b.frame) := by
  have haF := hstep.extends.trans hab
  have hb := ha.step hstep
  obtain ⟨taken, left, htaken, heffect, hleft, htarget⟩ := hgrows.effect
  have hslots {c : Assembler} (hc : c.Valid) (hcF : c.Extends F) :
      (kindsOf c.locals.toList).length ≤ body.maxLocals := by
    rw [length_kindsOf, Array.length_toList, hF.maxLocals]
    exact Nat.le_trans hc.locals_le (UInt16.le_iff_toNat_le.mp hcF.maxLocals)
  obtain ⟨locals, hlocals, hgives⟩ :=
    hgrows.locals.after? body t hk.locals (hslots ha haF) (hslots hb hab)
  have hstack : k.stack = taken :=
    (List.map_inj_right fun _ _ => Option.some.inj).mp (hk.stack.symm.trans htaken)
  have hjumps : (op.resolve t).target?.all (body.accepts ·.index ⟨locals, left⟩) = true := by
    rw [op.target?_resolve]
    cases hop : op.target? with
    | none => rfl
    | some l =>
      -- the label has had a frame since the jump, and keeps it until the end
      obtain ⟨f, htargeted, hframe, hholds⟩ := htarget l hop
      refine hF.accepts (l := l) ⟨hab.targeted l htargeted, hposition l hop, hab.frame l f hframe⟩
        ⟨hholds.2, ?_⟩
      rw [hholds.1, ← Operation.locals_of_target hgrows.locals hop]
      exact hgives
  refine ⟨⟨locals, left⟩, ?_, fun hreach => ⟨hleft hreach, hgives⟩⟩
  unfold Body.after?
  rw [op.effect_resolve, hstack, Operation.effect_mono (le_trans hab.pool hF.laid.pool) heffect]
  show (body.localsAfter? (op.resolve t) k.locals).bind _ = _
  rw [hlocals]
  show (if body.catches a.offset k.locals && _ then _ else _) = _
  rw [hF.catches ha hshaped hgrows hab haF hk, hjumps]
  rfl

/-- What the verifier knows after an instruction. -/
theorem Grows.tracks (h : Grows op a b) (ha : a.Valid) (hstep : Step a b)
    (hk : b.reachable = true → k.Gives b.frame) :
    Tracks (if Body.goesOn op then some k else none) b := by
  rw [← h.onward]
  cases hreach : b.reachable with
  | false =>
    refine ⟨fun _ hsome => (by cases hsome), fun _ hsome => (by cases hsome), fun _ hlive => ?_⟩
    rw [hreach] at hlive
    cases hlive
  | true =>
    refine ⟨fun k hsome => ?_, fun _ _ l f hs => absurd hs (h.not_settles ha hstep),
      fun hnone => (by cases hnone)⟩
    cases hsome
    exact ⟨hreach, hk hreach⟩

/-- The verifier passes an instruction of the body. -/
theorem Tracks.passes (h : Tracks current a) (hF : Written F body) (ha : a.Valid)
    (hshaped : a.Shaped) (haligned : a.Aligned) (hgrows : Grows op a b) (hstep : Step a b)
    (hab : b.Extends F) :
    ∃ k after, body.pass? a.offset current = some (k, b.offset, after) ∧ k.Gives a.frame ∧
    Tracks after b := by
  obtain ⟨k, henter, hk⟩ := h.enter hF haligned hgrows hstep hab
  obtain ⟨t, hfetch, hposition⟩ := hF.laid.fetch_next ha hgrows.operations hab
  have hdecode : decodeAt body.code a.offset = some (op.resolve t, op.size) := hfetch
  obtain ⟨after, hafter, hgives⟩ := hF.after ha hshaped hgrows hstep hab hposition hk
  refine ⟨k, if Body.goesOn op then some after else none, ?_, hk, hgrows.tracks ha hstep hgives⟩
  unfold Body.pass?
  rw [henter]
  show (decodeAt body.code a.offset).bind _ = _
  rw [hdecode]
  show (body.after? a.offset (op.resolve t) k).bind _ = _
  rw [hafter, hgrows.offset]
  show some (k, a.offset + op.size, if Body.goesOn (op.resolve t) then _ else _) = _
  rw [op.goesOn_resolve]

/-! ## 5. The whole body -/

structure Followed (body : Body) (entry : KindFrame) (a : Assembler)
    (frames : List (Nat × KindFrame)) (current : Option KindFrame) : Prop where
  checks : body.Checks entry frames a.offset current
  tracks : Tracks current a
  positions : ∀ l p, (a.labelState l).position = some p → p = a.offset ∨ p ∈ frames.map Prod.fst
  /-- The stack is within what has been counted, unless the count has wrapped. -/
  bounded : (∀ e ∈ frames, e.2.depth ≤ 65535) → (∀ e ∈ frames, e.2.depth ≤ a.maxStack.toNat) ∧
    ((a.reachable = true → a.frame.kinds.depth ≤ 65535) → a.Bounded)

variable {entry : KindFrame} {frames : List (Nat × KindFrame)}

theorem Followed.stays (h : Followed body entry a frames current) (hstep : Step a b)
    (hstays : Stays a b) (hfilled : b.frame.Filled) : Followed body entry b frames current where
  checks := hstays.offset ▸ h.checks
  tracks := h.tracks.stays hstep hstays
  positions l p hp := by
    rw [hstays.offset]
    rcases (hstep.label l).position_cases hp with hold | ⟨rfl, -⟩
    · exact h.positions l p hold
    · exact .inl rfl
  bounded hdepths := by
    obtain ⟨hframes, hhere⟩ := h.bounded hdepths
    have hmax := UInt16.le_iff_toNat_le.mp hstep.extends.maxStack
    refine ⟨fun e he => Nat.le_trans (hframes e he) hmax,
      fun hfits => (hhere fun hreach => ?_).step hstep hfilled hfits⟩
    -- the stack stays as it is, so it had the same depth before
    obtain ⟨hreach', hnarrows⟩ := hstays.onward hreach
    rw [← Frame.depth_congr hnarrows.stack]
    exact hfits hreach'

theorem Followed.grows (h : Followed body entry a frames current) (hF : Written F body)
    (ha : a.Valid) (hshaped : a.Shaped) (haligned : a.Aligned) (hgrows : Grows op a b)
    (hstep : Step a b) (hab : b.Extends F) (hfilled : b.frame.Filled) :
    ∃ k after, Followed body entry b (frames ++ [(a.offset, k)]) after := by
  obtain ⟨k, after, hpass, hk, htracks⟩ := h.tracks.passes hF ha hshaped haligned hgrows hstep hab
  have hmax := UInt16.le_iff_toNat_le.mp hstep.extends.maxStack
  refine ⟨k, after, h.checks.next hpass, htracks, fun l p hp => ?_, fun hdepths => ?_⟩
  · rw [List.map_append, List.mem_append]
    rcases (hstep.label l).position_cases hp with hold | ⟨-, hoffset⟩
    · rcases h.positions l p hold with rfl | hmem
      · exact .inr (.inr (List.mem_singleton.mpr rfl))
      · exact .inr (.inl hmem)
    · exact absurd hoffset (Nat.ne_of_gt hgrows.offset_lt)
  · obtain ⟨hframes, hhere⟩ := h.bounded fun e he => hdepths e (List.mem_append_left _ he)
    -- the stack that `a` ends with is the one that the instruction finds
    have hfits := hdepths (a.offset, k) (List.mem_append_right _ (List.mem_singleton.mpr rfl))
    rw [← hk.depth] at hfits
    have hbounded := hhere fun _ => hfits
    refine ⟨fun e he => ?_, fun hfits' => hbounded.step hstep hfilled hfits'⟩
    rcases List.mem_append.mp he with hold | hnew
    · exact Nat.le_trans (hframes e hold) hmax
    · rw [List.mem_singleton.mp hnew]
      show k.depth ≤ _
      rw [← hk.depth]
      exact Nat.le_trans (hbounded.here hgrows.reachable) hmax

/-- The verifier follows every way in which a body is made. -/
theorem Followed.builds {s : Assembler} (h : Followed body entry s frames current)
    (hF : Written F body) (hs : s.Valid) (hshaped : s.Shaped) (haligned : s.Aligned)
    (hsa : Builds s a) (haF : a.Extends F) :
    ∃ frames' current', Followed body entry a frames' current' := by
  -- all that is made is part of `F`, so the claim for the longer code gives that for the shorter
  -- one
  induction hsa with
  | refl => exact ⟨frames, current, h⟩
  | @tail b c hsb hstep ih =>
    have hb := hs.builds hsb
    have hshapedB := hshaped.builds hs hsb
    have hfilled := (hshapedB.step (hb.step hstep) hstep).here.filled
    obtain ⟨frames', current', hfollowed⟩ := ih (hstep.extends.trans haF)
    rcases hstep.grows_or_stays hb with ⟨op, hgrows⟩ | hstays
    · obtain ⟨k, after, hnext⟩ :=
        hfollowed.grows hF hb hshapedB (haligned.builds hs hsb) hgrows hstep haF hfilled
      exact ⟨_, after, hnext⟩
    · exact ⟨frames', current', hfollowed.stays hstep hstays hfilled⟩

/-- A complete body that the verifier has gone through type-checks. -/
theorem Followed.verifies (h : Followed body entry F frames current) (hF : Written F body)
    (hdead : F.reachable = false) (hlength : body.code.length = F.offset)
    (hentry : entry.locals.length ≤ body.maxLocals) : body.Verifies entry frames where
  passes := by
    have hnone : current = none := by
      cases hcurrent : current with
      | none => rfl
      | some k =>
        have hlive := (h.tracks.brings k hcurrent).1
        rw [hdead] at hlive
        cases hlive
    have hchecks := h.checks
    rw [hnone, ← hlength] at hchecks
    exact hchecks.complete
  table e he := by
    obtain ⟨fs, hfs, htable⟩ := hF.table
    rw [htable] at he
    obtain ⟨⟨p, f⟩, hmem, rfl⟩ := List.mem_map.mp he
    obtain ⟨l, -, hposition, hframe⟩ := mem_entries (hfs.mem _ hmem)
    refine ⟨(h.positions l p hposition).resolve_left (Nat.ne_of_lt (hfs.inside _ hmem)), ?_⟩
    rw [hF.maxLocals]
    exact (hF.shaped.labels l f hframe).length_kinds_le ((hF.valid.labels l).small f hframe).1
  entry := hentry

end Assembler

end Code

end MethodGraft
