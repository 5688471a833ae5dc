import MethodGraft.Proofs.Emission.Laid
import MethodGraft.Proofs.Finish.StackMap
import MethodGraft.Proofs.Finish.Walk

/-!
# Proofs.Finish.Layout — the Code attribute of a complete body

A complete body becomes a Code attribute unless a capacity is exceeded, and the attribute is the
body as a program.
-/

namespace MethodGraft.Code.Assembler

open ClassFile Verify Machine Interning

structure Finished (a : Assembler) (majorVersion : UInt16) (c : CodeAttribute) (q : ConstantPool) :
    Prop where
  pool : a.pool ≤ q
  pool_wf : q.WellFormed
  name : q.utf8 c.nameIndex = .ok "Code"
  size : 0 < a.offset ∧ a.offset ≤ 65535
  maxStack : c.maxStack = a.maxStack
  maxLocals : c.maxLocals = a.maxLocals
  code : a.Encoded 0 a.operations.toList c.code
  handlers : List.Forall₂ a.Located a.handlers.toList c.handlers
  attributes : ∀ x ∈ c.attributes, ∃ n info, x = .raw n info ∧ q.utf8 n = .ok "StackMapTable"
  stackMap : stackMapVersion ≤ majorVersion → ∃ fs, a.FramesOf fs ∧
    ∀ r, q ≤ r → (∀ e ∈ fs, e.2.Filled) → stackMap? r c.attributes = some (tableOf fs)

variable {a : Assembler}

/-! ## 1. Handlers -/

/-- A position in a body that is not too long. -/
theorem toNat_position (ha : a.Valid) (hsize : a.offset ≤ 65535) {l : Label} {p : Nat}
    (hp : (a.labelState l).position = some p) : (UInt16.ofNat p).toNat = p :=
  toNat_ofNat (Nat.le_trans ((ha.labels l).position_le p hp) hsize)

theorem fits_handlerEntry (ha : a.Valid) (hclosed : a.Closed) (hsettled : a.Settled)
    (hsize : a.offset ≤ 65535) {r : HandlerRange} (hr : r ∈ a.handlers.toList) :
    Fits (a.handlerEntry r) (a.Located r) := by
  have hcovers := ha.handlers r hr
  obtain ⟨p, hp, hlt⟩ := hcovers.start
  obtain ⟨q, hq⟩ := Option.isSome_iff_exists.mp (hclosed r hr)
  obtain ⟨t, ht⟩ := Option.isSome_iff_exists.mp (hsettled _ hcovers.targeted)
  have hstart := toNat_position ha hsize hp
  have hstop := toNat_position ha hsize hq
  have hhandler := toNat_position ha hsize ht
  have hnonempty : ¬UInt16.ofNat q ≤ UInt16.ofNat p := by
    rw [UInt16.le_iff_toNat_le, hstart, hstop]
    exact Nat.not_le_of_lt (hlt q hq)
  unfold handlerEntry position
  rw [hp, hq, ht]
  show Fits (if UInt16.ofNat q ≤ UInt16.ofNat p then _ else _) _
  rw [if_neg hnonempty]
  exact ⟨by rw [hp, hstart], by rw [hq, hstop], by rw [ht, hhandler], rfl⟩

/-! ## 2. The attribute -/

theorem FramesOf.writable {fs : List (Nat × Frame)} (ha : a.Valid) (hsize : a.offset ≤ 65535)
    (h : a.FramesOf fs) : Writable fs where
  sorted := h.sorted
  small e he := by
    obtain ⟨p, f⟩ := e
    obtain ⟨l, -, -, hf⟩ := mem_entries (h.mem _ he)
    obtain ⟨hlocals, hstack⟩ := (ha.labels l).small f hf
    -- a frame stands inside the code, and lists at most one entry for each local
    have hinside := h.inside _ he
    have hmax := a.maxLocals.toNat_lt
    refine ⟨Nat.le_of_lt (Nat.lt_of_lt_of_le hinside hsize), ?_, Nat.le_trans hstack hsize⟩
    have hentries : (localEntries f.locals.toList).length ≤ f.locals.size :=
      length_localEntries_le f.locals.toList
    show (localEntries f.locals.toList).length ≤ 65535
    omega

theorem meets_layout (ha : a.Valid) (hclosed : a.Closed) (hdead : a.reachable = false)
    (hsettled : a.Settled) (majorVersion : UInt16) :
    Meets (a.layout majorVersion) a.pool (a.Finished majorVersion) := by
  have hpos := (ha.dead hdead).1
  unfold layout
  rw [if_neg (by simp [hdead])]
  by_cases hlong : a.offset > 65535
  · rw [if_pos (.inr hlong)]
    exact .bind (.ofThrow hlong)
  rw [if_neg (by omega)]
  have hsize : a.offset ≤ 65535 := Nat.le_of_not_lt hlong
  refine .bind
    (.ofExcept (((fits_codeFrom hsettled ha.operations []).withOk fun _ => codeFrom_eq_ok).mono ?_))
  rintro code ⟨bytes, hbytes, hcode⟩
  obtain rfl : code = bytes := hbytes
  refine .bind (.ofExcept ((Fits.mapM a.handlers.toList fun r hr =>
    fits_handlerEntry ha hclosed hsettled hsize hr).mono fun handlers hhandlers => ?_))
  obtain ⟨fs, hframes, hfs⟩ := frames_eq_ok ha hdead
  have hfits : Fits a.frames fun found => found = fs := by
    rw [hframes]
    rfl
  refine .bind (.ofExcept (hfits.mono ?_))
  rintro fs rfl
  have hlength : fs.length ≤ 65535 := Nat.le_trans hfs.length_le hsize
  -- the table is written from some version on; for older classes there is nothing to show of it
  have hmaps : Meets (if majorVersion ≥ stackMapVersion then stackMap fs else pure []) a.pool
      fun attributes q => Lasting a.pool (fun r =>
        (∀ x ∈ attributes, ∃ n info, x = .raw n info ∧ r.utf8 n = .ok "StackMapTable") ∧
          (stackMapVersion ≤ majorVersion → (∀ e ∈ fs, e.2.Filled) →
            stackMap? r attributes = some (tableOf fs))) q := by
    split
    next =>
      refine (meets_stackMap ha.pool (hfs.writable ha hsize) hlength).mono ?_
      rintro attributes q ⟨hle, hq, h⟩
      exact ⟨hle, hq, fun r hr => ⟨(h r hr).1, fun _ => (h r hr).2⟩⟩
    next hold => exact .ofPure ⟨le_rfl, ha.pool, fun _ _ => ⟨by simp, fun hnew => absurd hnew hold⟩⟩
  -- the name of the attribute is the last thing interned, so what the table refers to is still
  -- there
  have hlast {attributes : List Attribute} {q : ConstantPool} (h : Lasting a.pool (fun r =>
        (∀ x ∈ attributes, ∃ n info, x = .raw n info ∧ r.utf8 n = .ok "StackMapTable") ∧
          (stackMapVersion ≤ majorVersion → (∀ e ∈ fs, e.2.Filled) →
            stackMap? r attributes = some (tableOf fs))) q) :
      Meets (do
        let nameIndex ← Interning.utf8 "Code"
        return (⟨nameIndex, a.maxStack, a.maxLocals, code, handlers, attributes⟩ :
          CodeAttribute)) q (a.Finished majorVersion) := by
    obtain ⟨hle, hq, hmap⟩ := h
    refine .bind ((meets_utf8 "Code" hq).mono ?_)
    rintro n r ⟨hle', hr, hname⟩
    exact .ofPure
      ⟨hle.trans hle', hr, hname, ⟨hpos, hsize⟩, rfl, rfl, hcode, hhandlers, (hmap r hle').1,
      fun hnew => ⟨fs, hfs, fun s hs => (hmap s (hle'.trans hs)).2 hnew⟩⟩
  by_cases hnew : majorVersion ≥ stackMapVersion
  · rw [if_pos hnew] at hmaps ⊢
    exact .bind (hmaps.mono fun _ _ h => hlast h)
  · rw [if_neg hnew] at hmaps ⊢
    exact .bind (hmaps.mono fun _ _ h => hlast h)

/-! ## 3. The attribute as a program -/

theorem Finished.laid {majorVersion : UInt16} {c : CodeAttribute} {q r : ConstantPool}
    (ha : a.Valid) (h : a.Finished majorVersion c q) (hr : q ≤ r) :
    a.Laid (Program.ofCode r c) where
  pool := h.pool.trans hr
  fetch before op after hops := by
    obtain ⟨taken, left, heffect⟩ := (ha.operations op (by rw [hops]; simp)).effect
    have hcode := h.code
    rw [hops] at hcode
    obtain ⟨t, ht, hl⟩ := hcode.decode (Operation.inRange_of_effect heffect)
    rw [Nat.zero_add] at ht
    exact ⟨t, ht, hl⟩
  handlers e he := forall₂_mem_left h.handlers.flip e he
  ranges e he := forall₂_mem_left h.handlers e he

end MethodGraft.Code.Assembler
