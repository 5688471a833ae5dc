import MethodGraft.Code.Layout
import MethodGraft.Proofs.Assembly.Valid
import MethodGraft.Proofs.Capacity
import MethodGraft.Proofs.Machine.Decode

/-!
# Proofs.Finish.Code — the code array of a complete body

Once every label that is jumped to has a position, the operations can be written, unless a jump is
too long for its sixteen bits.  Each of them is read back at its offset.
-/

namespace MethodGraft.Code.Assembler

open ClassFile Typed

/-! ## 1. Writing -/

def Settled (a : Assembler) : Prop :=
  ∀ l, (a.labelState l).targeted = true → (a.labelState l).position.isSome

def Covered (a : Assembler) (offset : Nat) (op : Operation) (d : Int16) : Prop :=
  ∀ l, op.target? = some l → ∃ p, (a.labelState l).position = some p ∧ (offset : Int) + d.toInt = p

inductive Encoded (a : Assembler) : Nat → List Operation → List UInt8 → Prop
  | nil (offset : Nat) : Encoded a offset [] []
  | cons {offset : Nat} {op : Operation} {ops : List Operation} {bytes : List UInt8} (d : Int16)
      (covered : a.Covered offset op d) (rest : Encoded a (offset + op.size) ops bytes) :
      Encoded a offset (op :: ops) (op.encode d ++ bytes)

variable {a : Assembler} {offset : Nat} {op : Operation} {ops : List Operation}

theorem position_eq_ok_iff {l : Label} {p : Nat} :
    a.position l = .ok p ↔ (a.labelState l).position = some p := by
  unfold position
  cases (a.labelState l).position with
  | none => simp [fail]
  | some q => simp

theorem fits_distance (origin target : Nat) :
    Fits (distance origin target) fun d => (origin : Int) + d.toInt = target := by
  unfold distance
  dsimp only
  split
  next h =>
    have hd : (Int16.ofInt ((target : Int) - origin)).toInt = target - origin :=
      Int16.toInt_ofInt_of_le h.1 (Int.lt_add_one_of_le h.2)
    show (origin : Int) + (Int16.ofInt ((target : Int) - origin)).toInt = target
    omega
  next h =>
    show _ ∨ _
    omega

theorem operationBytes_eq_ok {bytes : List UInt8} (h : a.operationBytes offset op = .ok bytes) :
    ∃ d, bytes = op.encode d ∧ a.Covered offset op d := by
  unfold operationBytes at h
  cases htarget : op.target? with
  | none =>
    rw [htarget] at h
    cases h
    refine ⟨0, rfl, fun l hl => ?_⟩
    rw [htarget] at hl
    cases hl
  | some l =>
    rw [htarget] at h
    obtain ⟨p, hp, h⟩ := bind_eq_ok_iff.mp h
    obtain ⟨d, hd, h⟩ := bind_eq_ok_iff.mp h
    cases h
    refine ⟨d, rfl, fun l' hl' => ⟨p, ?_, (fits_distance offset p).of_ok hd⟩⟩
    rw [htarget] at hl'
    cases hl'
    exact position_eq_ok_iff.mp hp

/-- Operations that are written are written one after the other. -/
theorem codeFrom_eq_ok {written : List (List UInt8)} {code : List UInt8}
    (h : a.codeFrom offset written ops = .ok code) :
    ∃ bytes, code = written.reverse.flatten ++ bytes ∧ a.Encoded offset ops bytes := by
  induction ops generalizing offset written with
  | nil =>
    cases h
    exact ⟨[], (List.append_nil _).symm, .nil offset⟩
  | cons op ops ih =>
    obtain ⟨_, hbytes, h⟩ := bind_eq_ok_iff.mp h
    obtain ⟨d, rfl, hd⟩ := operationBytes_eq_ok hbytes
    obtain ⟨bytes, rfl, hrest⟩ := ih h
    exact ⟨op.encode d ++ bytes, by simp, .cons d hd hrest⟩

theorem fits_operationBytes (hsettled : a.Settled) (hop : a.Accepts op) :
    Fits (a.operationBytes offset op) fun _ => True := by
  unfold operationBytes
  cases htarget : op.target? with
  | none => trivial
  | some l =>
    obtain ⟨p, hp⟩ := Option.isSome_iff_exists.mp (hsettled l (hop.target l htarget).2)
    dsimp only
    rw [position_eq_ok_iff.mpr hp]
    show Fits (do return op.encode (← distance offset p)) fun _ => True
    exact .bind ((fits_distance offset p).mono fun _ _ => trivial)

theorem fits_codeFrom (hsettled : a.Settled) (hops : ∀ op ∈ ops, a.Accepts op)
    (written : List (List UInt8)) : Fits (a.codeFrom offset written ops) fun _ => True := by
  induction ops generalizing offset written with
  | nil => trivial
  | cons op ops ih =>
    refine .bind
      ((fits_operationBytes hsettled (hops op List.mem_cons_self)).mono fun bytes _ => ?_)
    exact ih (fun op' hop' => hops op' (List.mem_cons_of_mem op hop')) (bytes :: written)

/-! ## 2. Reading back -/

/-- Each operation is read back where it stands, with the position of its label in place of the
label. -/
theorem Encoded.decode {bytes : List UInt8} {before after : List Operation}
    (h : a.Encoded offset (before ++ op :: after) bytes) (hrange : op.InRange) :
    ∃ t, decodeOperation? (offset + (before.map Operation.size).sum)
        (bytes.drop (before.map Operation.size).sum) = some (op.resolve t, op.size) ∧
      ∀ l, op.target? = some l → (a.labelState l).position = some t := by
  induction before generalizing offset bytes with
  | nil =>
    cases h with
    | cons d covered rest =>
      cases htarget : op.target? with
      | none =>
        exact ⟨0, decodeOperation?_encode hrange (by simp [htarget]) _, fun _ h => by cases h⟩
      | some l =>
        obtain ⟨p, hp, hd⟩ := covered l htarget
        refine ⟨p, decodeOperation?_encode hrange (fun _ => hd) _, fun l' hl' => ?_⟩
        cases hl'
        exact hp
  | cons op' before ih =>
    cases h with
    | cons d covered rest =>
      obtain ⟨t, ht, hl⟩ := ih rest
      refine ⟨t, ?_, hl⟩
      rw [List.map_cons, List.sum_cons, ← Nat.add_assoc, ← op'.length_encode d,
        List.drop_length_add_append, op'.length_encode]
      exact ht

end MethodGraft.Code.Assembler
