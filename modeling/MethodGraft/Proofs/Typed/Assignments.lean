import MethodGraft.Typed.Tree

/-!
# Proofs.Typed.Assignments — conditions under assignments

The atoms of a condition are the tests in it that are no constants, counted from left to right.  An
assignment says how each of them comes out, whatever the others do.  It then says how the condition
comes out, and which atoms are asked for that: an operand of `and` or `or` that has decided leaves
those behind it out.
-/

namespace MethodGraft.Typed.Cond

/-! ## 1. Atoms -/

def IsAtom : Cond → Prop
  | .const _ | .not _ | .and _ _ | .or _ _ => False
  | _ => True

/-- A condition is a constant, a test, or made of other conditions. -/
@[elab_as_elim]
theorem shapes {motive : Cond → Prop} (const : ∀ b, motive (.const b))
    (atom : ∀ c : Cond, c.IsAtom → motive c)
    (not : ∀ c : Cond, motive c → motive (.not c))
    (and : ∀ a b : Cond, motive a → motive b → motive (.and a b))
    (or : ∀ a b : Cond, motive a → motive b → motive (.or a b)) : ∀ c, motive c
  | .const b => const b
  | .not c => not c (shapes const atom not and or c)
  | .and a b => and a b (shapes const atom not and or a) (shapes const atom not and or b)
  | .or a b => or a b (shapes const atom not and or a) (shapes const atom not and or b)
  | .value _ | .ints .. | .longs .. | .refs .. | .nullity .. => atom _ trivial

def atoms : Cond → List Cond
  | .const _ => []
  | .not c => c.atoms
  | .and a b | .or a b => a.atoms ++ b.atoms
  | c => [c]

/-- How the condition comes out where its atoms, the first of which has the number `n`, come out as
`σ` says. -/
def holds (σ : Nat → Bool) : Cond → Nat → Bool
  | .const b, _ => b
  | .not c, n => !holds σ c n
  | .and a b, n => holds σ a n && holds σ b (n + a.atoms.length)
  | .or a b, n => holds σ a n || holds σ b (n + a.atoms.length)
  | _, n => σ n

def asked (σ : Nat → Bool) : Cond → Nat → List Nat
  | .const _, _ => []
  | .not c, n => asked σ c n
  | .and a b, n => asked σ a n ++ if a.holds σ n then asked σ b (n + a.atoms.length) else []
  | .or a b, n => asked σ a n ++ if a.holds σ n then [] else asked σ b (n + a.atoms.length)
  | _, n => [n]

variable {σ τ : Nat → Bool} {n : Nat}

theorem IsAtom.atoms_eq {c : Cond} (h : c.IsAtom) : c.atoms = [c] := by
  cases c <;> first | rfl | cases h

theorem IsAtom.holds_eq {c : Cond} (h : c.IsAtom) (σ : Nat → Bool) (n : Nat) :
    c.holds σ n = σ n := by
  cases c <;> first | rfl | cases h

theorem IsAtom.asked_eq {c : Cond} (h : c.IsAtom) (σ : Nat → Bool) (n : Nat) :
    c.asked σ n = [n] := by
  cases c <;> first | rfl | cases h

/-! ## 2. Two operands -/

/-- The condition is decided by `a` if that comes out as `first`, and otherwise by `b`. -/
structure Joins (c a b : Cond) (first : Bool) : Prop where
  atoms : c.atoms = a.atoms ++ b.atoms
  holds : ∀ σ n, c.holds σ n = if a.holds σ n = first then first else b.holds σ (n + a.atoms.length)
  asked : ∀ σ n, c.asked σ n =
    a.asked σ n ++ if a.holds σ n = first then [] else b.asked σ (n + a.atoms.length)

theorem joins_and (a b : Cond) : Joins (.and a b) a b false where
  atoms := rfl
  holds σ n := by cases h : a.holds σ n <;> simp [Cond.holds, h]
  asked σ n := by cases h : a.holds σ n <;> simp [Cond.asked, h]

theorem joins_or (a b : Cond) : Joins (.or a b) a b true where
  atoms := rfl
  holds σ n := by cases h : a.holds σ n <;> simp [Cond.holds, h]
  asked σ n := by cases h : a.holds σ n <;> simp [Cond.asked, h]

/-- Every condition that has operands is decided by one of the two outcomes of the first. -/
theorem cases_joins {motive : Cond → Prop} (const : ∀ b, motive (.const b))
    (atom : ∀ c : Cond, c.IsAtom → motive c) (not : ∀ c : Cond, motive c → motive (.not c))
    (joins : ∀ {c a b : Cond} {first : Bool}, Joins c a b first → motive a → motive b → motive c) :
    ∀ c, motive c :=
  shapes const atom not (fun a b => joins (joins_and a b)) fun a b => joins (joins_or a b)

/-! ## 3. What an outcome depends on -/

/-- The atoms that are asked are atoms of the condition, each asked once and in their order. -/
theorem asked_sublist (c : Cond) (σ : Nat → Bool) (n : Nat) :
    (c.asked σ n).Sublist (List.range' n c.atoms.length) := by
  induction c using cases_joins generalizing n with
  | const b => exact .slnil
  | atom c hc =>
    rw [hc.asked_eq, hc.atoms_eq]
    exact .refl _
  | not c ih => exact ih n
  | @joins c a b first h iha ihb =>
    rw [h.asked, h.atoms, List.length_append, ← List.range'_append_1]
    refine (iha n).append ?_
    split
    · exact List.nil_sublist _
    · exact ihb _

theorem mem_asked {c : Cond} {i : Nat} (h : i ∈ c.asked σ n) : n ≤ i ∧ i < n + c.atoms.length :=
  List.mem_range'_1.mp ((c.asked_sublist σ n).subset h)

/-- Two assignments that agree on the atoms of the condition cannot be told apart by it. -/
theorem holds_congr (c : Cond) (h : ∀ i, n ≤ i → i < n + c.atoms.length → σ i = τ i) :
    c.holds σ n = c.holds τ n ∧ c.asked σ n = c.asked τ n := by
  induction c using cases_joins generalizing n with
  | const b => exact ⟨rfl, rfl⟩
  | atom c hc =>
    rw [hc.holds_eq, hc.holds_eq, hc.asked_eq, hc.asked_eq]
    exact ⟨h n (Nat.le_refl n) (by simp [hc.atoms_eq]), rfl⟩
  | not c ih =>
    obtain ⟨hholds, hasked⟩ := ih h
    exact ⟨congrArg Bool.not hholds, hasked⟩
  | @joins c a b first hc iha ihb =>
    rw [hc.atoms, List.length_append] at h
    obtain ⟨haholds, haasked⟩ := iha fun i hle hlt => h i hle (by omega)
    obtain ⟨hbholds, hbasked⟩ :=
      ihb (n := n + a.atoms.length) fun i hle hlt => h i (by omega) (by omega)
    rw [hc.holds, hc.holds, hc.asked, hc.asked, haholds, haasked, hbholds, hbasked]
    exact ⟨rfl, rfl⟩

def switch (k : Nat) (σ τ : Nat → Bool) : Nat → Bool := fun i => if i < k then σ i else τ i

theorem switch_before (c : Cond) (σ τ : Nat → Bool) (n : Nat) :
    c.holds (switch (n + c.atoms.length) σ τ) n = c.holds σ n ∧
      c.asked (switch (n + c.atoms.length) σ τ) n = c.asked σ n :=
  holds_congr c fun _ _ hlt => if_pos hlt

theorem switch_behind (c : Cond) (σ τ : Nat → Bool) (n : Nat) :
    c.holds (switch n σ τ) n = c.holds τ n ∧ c.asked (switch n σ τ) n = c.asked τ n :=
  holds_congr c fun _ hle _ => if_neg (Nat.not_lt.mpr hle)

/-! ## 4. Possible outcomes -/

def CanBe (c : Cond) (n : Nat) (b : Bool) : Prop := ∃ σ, c.holds σ n = b

theorem canBe_const {b v : Bool} : (Cond.const b).CanBe n v ↔ b = v :=
  ⟨fun ⟨_, h⟩ => h, fun h => ⟨fun _ => false, h⟩⟩

theorem IsAtom.canBe {c : Cond} (h : c.IsAtom) (n : Nat) (b : Bool) : c.CanBe n b :=
  ⟨fun _ => b, h.holds_eq _ n⟩

theorem canBe_not {c : Cond} {b : Bool} : (Cond.not c).CanBe n b ↔ c.CanBe n (!b) :=
  exists_congr fun _ => Bool.not_eq_eq_eq_not

/-- The operands come out independently of each other. -/
theorem Joins.canBe {c a b : Cond} {first v : Bool} (h : Joins c a b first) : c.CanBe n v ↔
    (a.CanBe n first ∧ first = v) ∨ (a.CanBe n (!first) ∧ b.CanBe (n + a.atoms.length) v) := by
  constructor
  · rintro ⟨σ, hσ⟩
    rw [h.holds] at hσ
    split at hσ
    next hfirst => exact .inl ⟨⟨σ, hfirst⟩, hσ⟩
    next hother => exact .inr ⟨⟨σ, Bool.eq_not.mpr hother⟩, σ, hσ⟩
  · rintro (⟨⟨σ, hσ⟩, rfl⟩ | ⟨⟨σ, hσ⟩, τ, hτ⟩)
    · exact ⟨σ, by rw [h.holds, if_pos hσ]⟩
    · refine ⟨switch (n + a.atoms.length) σ τ, ?_⟩
      rw [h.holds, (switch_before a σ τ n).1, hσ, if_neg (by simp), (switch_behind b σ τ _).1, hτ]

end MethodGraft.Typed.Cond
