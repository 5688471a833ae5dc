import MethodGraft.Proofs.Machine.Effect
import MethodGraft.Proofs.Typed.WellFormed

/-!
# Proofs.Typed.Layout — layouts as they grow

Locals are declared in the order of their slots, so a layout only ever grows at its end, and no slot
is shared by two values.
-/

namespace MethodGraft

namespace Code

open ClassFile

/-- The slot after one with a wide value holds nothing. -/
def Packed (layout : Layout) : Prop :=
  ∀ i k, layout[i]? = some (some k) → k.isWide = true → layout[i + 1]? = some none

theorem ValueKind.length_layout (k : ValueKind) : k.layout.length = k.width := by
  cases k <;> rfl

/-- The value of a kind is in the first of its slots. -/
theorem ValueKind.getElem?_layout {k k' : ValueKind} {i : Nat} :
    k.layout[i]? = some (some k') ↔ i = 0 ∧ k' = k := by
  rcases i with _ | _ | i <;> cases k <;> simp [layout, isWide, eq_comm]

theorem packed_nil : Packed [] := by
  intro i k hi
  cases hi

theorem Packed.append {layout : Layout} (h : Packed layout) (k : ValueKind) :
    Packed (layout ++ k.layout) := by
  intro i k' hi hwide
  by_cases hlt : i < layout.length
  · rw [List.getElem?_append_left hlt] at hi
    have hnext := h i k' hi hwide
    rw [List.getElem?_append_left (List.getElem?_eq_some_iff.mp hnext).1]
    exact hnext
  · rw [List.getElem?_append_right (Nat.le_of_not_lt hlt)] at hi
    obtain ⟨h0, rfl⟩ := ValueKind.getElem?_layout.mp hi
    rw [List.getElem?_append_right (by omega), show i + 1 - layout.length = 1 by omega]
    unfold ValueKind.layout
    rw [if_pos hwide]
    rfl

/-- A value has room for both of its slots. -/
theorem Packed.width_le {layout : Layout} (h : Packed layout) {i : Nat} {k : ValueKind}
    (hi : layout[i]? = some (some k)) : i + k.width ≤ layout.length := by
  have hlt := (List.getElem?_eq_some_iff.mp hi).1
  unfold ValueKind.width
  split
  next hwide =>
    have hnext := (List.getElem?_eq_some_iff.mp (h i k hi hwide)).1
    omega
  next => omega

/-! ## 1. Slots -/

theorem Layout.slots_eq_some_iff {layout : Layout} {i : Nat} {k : ValueKind} :
    layout.slots i = some k ↔ layout[i]? = some (some k) := by
  unfold Layout.slots
  cases layout[i]? with
  | none => simp
  | some o => simp

/-- A value stored in the next free slots. -/
theorem Packed.slots_append {layout : Layout} (h : Packed layout) (k : ValueKind) :
    Layout.slots (layout ++ k.layout) =
      Slots.store ValueKind.isWide layout.slots layout.length k := by
  funext i
  apply Option.ext
  intro k'
  rw [Layout.slots_eq_some_iff]
  by_cases heq : i = layout.length
  · rw [heq, Slots.store_self, List.getElem?_append_right (Nat.le_refl _), Nat.sub_self,
      ValueKind.getElem?_layout]
    simp [eq_comm]
  · rw [Slots.store_eq_some heq, Layout.slots_eq_some_iff]
    by_cases hlt : i < layout.length
    · rw [List.getElem?_append_left hlt]
      refine ⟨fun hi => ⟨hi, fun hnext => by omega, fun hlast => ?_⟩, fun hi => hi.1⟩
      have hnext := h i k' hi hlast.2
      rw [hlast.1, List.getElem?_eq_none (Nat.le_refl _)] at hnext
      cases hnext
    · rw [List.getElem?_append_right (Nat.le_of_not_lt hlt), ValueKind.getElem?_layout,
        List.getElem?_eq_none (Nat.le_of_not_lt hlt)]
      simp
      omega

/-- Another reference stored where there is one. -/
theorem Packed.slots_replace {layout : Layout} (h : Packed layout) {slot : Nat}
    (hslot : layout[slot]? = some (some .reference)) :
    layout.slots = Slots.store ValueKind.isWide layout.slots slot .reference := by
  funext i
  apply Option.ext
  intro k
  by_cases heq : i = slot
  · rw [heq, Slots.store_self, Layout.slots_eq_some_iff, hslot]
    simp
  · rw [Slots.store_eq_some heq, Layout.slots_eq_some_iff]
    refine ⟨fun hi => ⟨hi, by simp [ValueKind.isWide], fun hlast => ?_⟩, fun hi => hi.1⟩
    have hnext := h i k hi hlast.2
    rw [hlast.1, hslot] at hnext
    cases hnext

end Code

namespace Typed

open ClassFile Code

theorem length_layoutOf (t : FieldType) : (layoutOf t).length = t.slots := by
  cases t <;> rfl

theorem packed_flatMap_layoutOf {layout : Layout} (h : Packed layout) (params : List FieldType) :
    Packed (layout ++ params.flatMap layoutOf) := by
  induction params generalizing layout with
  | nil => simpa using h
  | cons t params ih =>
    rw [List.flatMap_cons, ← List.append_assoc]
    exact ih (h.append _)

theorem Method.packed_layout (m : Method) : Packed m.layout := by
  refine packed_flatMap_layoutOf ?_ m.type.params
  split
  next => exact packed_nil
  next => exact packed_nil.append .reference

/-! ## 2. Trees over a longer layout -/

variable {layout layout' : Layout}

theorem getElem?_mono {α : Type} {l l' : List α} (h : l <+: l') {i : Nat} {x : α}
    (hi : l[i]? = some x) : l'[i]? = some x := by
  obtain ⟨more, rfl⟩ := h
  rw [List.getElem?_append_left (List.getElem?_eq_some_iff.mp hi).1]
  exact hi

mutual

theorem Expr.WellFormed.mono (hle : layout <+: layout') :
    ∀ e : Expr, e.WellFormed layout → e.WellFormed layout'
  | .int _, _ | .long _, _ | .str _, _ | .null, _ => trivial
  | .local _ _, h => getElem?_mono hle h
  | .getField receiver _ _ _, h => ⟨Expr.WellFormed.mono hle receiver h.1, h.2⟩
  | .getStatic _ _ _, h => h
  | .call _ args, h => ⟨h.1, h.2.1, Expr.AllWellFormed.mono hle args h.2.2.1, h.2.2.2⟩
  | .callOn receiver _ args, h =>
    ⟨h.1, Expr.WellFormed.mono hle receiver h.2.1, h.2.2.1,
      Expr.AllWellFormed.mono hle args h.2.2.2.1, h.2.2.2.2⟩
  | .checkcast _ e, h => ⟨Expr.WellFormed.mono hle e h.1, h.2⟩
  | .widen _ _ e, h => ⟨Expr.WellFormed.mono hle e h.1, h.2⟩
  | .add _ l r, h =>
    ⟨Expr.WellFormed.mono hle l h.1, h.2.1, Expr.WellFormed.mono hle r h.2.2.1, h.2.2.2⟩
  | .concat parts, h => Expr.PartsWellFormed.mono hle parts h
  | .condition c, h => Cond.WellFormed.mono hle c h

theorem Expr.AllWellFormed.mono (hle : layout <+: layout') :
    ∀ es : List Expr, Expr.AllWellFormed layout es → Expr.AllWellFormed layout' es
  | [], _ => trivial
  | e :: es, h => ⟨Expr.WellFormed.mono hle e h.1, Expr.AllWellFormed.mono hle es h.2⟩

theorem Expr.PartsWellFormed.mono (hle : layout <+: layout') :
    ∀ parts : List (Expr × FieldType), Expr.PartsWellFormed layout parts →
      Expr.PartsWellFormed layout' parts
  | [], _ => trivial
  | (e, _) :: parts, h =>
    ⟨⟨Expr.WellFormed.mono hle e h.1.1, h.1.2⟩, Expr.PartsWellFormed.mono hle parts h.2⟩

theorem Cond.WellFormed.mono (hle : layout <+: layout') :
    ∀ c : Cond, c.WellFormed layout → c.WellFormed layout'
  | .const _, _ => trivial
  | .value e, h => ⟨Expr.WellFormed.mono hle e h.1, h.2⟩
  | .not c, h => Cond.WellFormed.mono hle c h
  | .and a b, h => ⟨Cond.WellFormed.mono hle a h.1, Cond.WellFormed.mono hle b h.2⟩
  | .or a b, h => ⟨Cond.WellFormed.mono hle a h.1, Cond.WellFormed.mono hle b h.2⟩
  | .ints _ l r, h =>
    ⟨Expr.WellFormed.mono hle l h.1, h.2.1, Expr.WellFormed.mono hle r h.2.2.1, h.2.2.2⟩
  | .longs _ l r, h =>
    ⟨Expr.WellFormed.mono hle l h.1, h.2.1, Expr.WellFormed.mono hle r h.2.2.1, h.2.2.2⟩
  | .refs _ l r, h =>
    ⟨Expr.WellFormed.mono hle l h.1, h.2.1, Expr.WellFormed.mono hle r h.2.2.1, h.2.2.2⟩
  | .nullity _ e, h => ⟨Expr.WellFormed.mono hle e h.1, h.2⟩

end

end Typed

end MethodGraft
