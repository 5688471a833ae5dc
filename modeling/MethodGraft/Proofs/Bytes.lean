import MethodGraft.ClassFile.Reader

/-!
# Proofs.Bytes — numbers and their bytes

The writers of big-endian numbers and the readers undo each other.
-/

namespace MethodGraft.ClassFile

/-! ## 1. Two bytes -/

theorem ofBe16_toNat (hi lo : UInt8) : (ofBe16 hi lo).toNat = hi.toNat * 256 + lo.toNat := by
  have hhi := hi.toNat_lt
  have hlo := lo.toNat_lt
  have h8 : (8 : UInt16).toNat % 16 = 8 := rfl
  unfold ofBe16
  rw [UInt16.toNat_or, UInt16.toNat_shiftLeft, UInt8.toNat_toUInt16, UInt8.toNat_toUInt16, h8,
    Nat.mod_eq_of_lt (by rw [Nat.shiftLeft_eq]; omega),
    ← Nat.shiftLeft_add_eq_or_of_lt (by omega), Nat.shiftLeft_eq]

theorem ofBe16_be16 (n : UInt16) : ofBe16 (n >>> 8).toUInt8 n.toUInt8 = n := by
  have hn := n.toNat_lt
  have h8 : (8 : UInt16).toNat % 16 = 8 := rfl
  apply UInt16.toNat_inj.mp
  rw [ofBe16_toNat, UInt16.toNat_toUInt8, UInt16.toNat_toUInt8, UInt16.toNat_shiftRight, h8,
    Nat.shiftRight_eq_div_pow]
  omega

theorem be16_ofBe16 (hi lo : UInt8) : be16 (ofBe16 hi lo) = [hi, lo] := by
  have hhi := hi.toNat_lt
  have hlo := lo.toNat_lt
  have h8 : (8 : UInt16).toNat % 16 = 8 := rfl
  simp only [be16, List.cons.injEq, and_true, ← UInt8.toNat_inj, UInt16.toNat_toUInt8,
    UInt16.toNat_shiftRight, ofBe16_toNat, h8, Nat.shiftRight_eq_div_pow]
  omega

/-! ## 2. Four bytes and more -/

theorem ofBe32_toNat (a b c d : UInt8) : (ofBe32 a b c d).toNat =
    ((a.toNat * 256 + b.toNat) * 256 + c.toNat) * 256 + d.toNat := by
  have ha := a.toNat_lt
  have hb := b.toNat_lt
  have hc := c.toNat_lt
  have hd := d.toNat_lt
  have h8 : (8 : UInt32).toNat % 32 = 8 := rfl
  have h16 : (16 : UInt32).toNat % 32 = 16 := rfl
  have h24 : (24 : UInt32).toNat % 32 = 24 := rfl
  have habc : a.toNat <<< 24 + b.toNat <<< 16 = (a.toNat * 256 + b.toNat) <<< 16 := by
    simp only [Nat.shiftLeft_eq]
    omega
  have habcd : (a.toNat * 256 + b.toNat) <<< 16 + c.toNat <<< 8 =
      ((a.toNat * 256 + b.toNat) * 256 + c.toNat) <<< 8 := by
    simp only [Nat.shiftLeft_eq]
    omega
  have hmod (x i : Nat) (h : x * 2 ^ i < 2 ^ 32) : x <<< i % 2 ^ 32 = x <<< i :=
    Nat.mod_eq_of_lt (by rwa [Nat.shiftLeft_eq])
  unfold ofBe32
  simp only [UInt32.toNat_or, UInt32.toNat_shiftLeft, UInt8.toNat_toUInt32, h8, h16, h24]
  rw [hmod _ 24 (by omega), hmod _ 16 (by omega), hmod _ 8 (by omega)]
  rw [← Nat.shiftLeft_add_eq_or_of_lt (by rw [Nat.shiftLeft_eq]; omega), habc,
    ← Nat.shiftLeft_add_eq_or_of_lt (by rw [Nat.shiftLeft_eq]; omega), habcd,
    ← Nat.shiftLeft_add_eq_or_of_lt (by omega), Nat.shiftLeft_eq]

theorem ofBe32_be32 (n : UInt32) :
    ofBe32 (n >>> 24).toUInt8 (n >>> 16).toUInt8 (n >>> 8).toUInt8 n.toUInt8 = n := by
  have hn := n.toNat_lt
  have h8 : (8 : UInt32).toNat % 32 = 8 := rfl
  have h16 : (16 : UInt32).toNat % 32 = 16 := rfl
  have h24 : (24 : UInt32).toNat % 32 = 24 := rfl
  apply UInt32.toNat_inj.mp
  simp only [ofBe32_toNat, UInt32.toNat_toUInt8, UInt32.toNat_shiftRight, h8, h16, h24,
    Nat.shiftRight_eq_div_pow]
  omega

theorem be32_ofBe32 (a b c d : UInt8) : be32 (ofBe32 a b c d) = [a, b, c, d] := by
  have ha := a.toNat_lt
  have hb := b.toNat_lt
  have hc := c.toNat_lt
  have hd := d.toNat_lt
  have h8 : (8 : UInt32).toNat % 32 = 8 := rfl
  have h16 : (16 : UInt32).toNat % 32 = 16 := rfl
  have h24 : (24 : UInt32).toNat % 32 = 24 := rfl
  simp only [be32, List.cons.injEq, and_true, ← UInt8.toNat_inj, UInt32.toNat_toUInt8,
    UInt32.toNat_shiftRight, ofBe32_toNat, h8, h16, h24, Nat.shiftRight_eq_div_pow]
  omega

theorem ofBe64_toNat (high low : UInt32) :
    (ofBe64 high low).toNat = high.toNat * 4294967296 + low.toNat := by
  have hhigh := high.toNat_lt
  have hlow := low.toNat_lt
  have h32 : (32 : UInt64).toNat % 64 = 32 := rfl
  simp only [ofBe64, UInt64.toNat_or, UInt64.toNat_shiftLeft, UInt32.toNat_toUInt64, h32]
  rw [Nat.mod_eq_of_lt (by rw [Nat.shiftLeft_eq]; omega),
    ← Nat.shiftLeft_add_eq_or_of_lt (by omega), Nat.shiftLeft_eq]

theorem ofBe64_high (high low : UInt32) : (ofBe64 high low >>> 32).toUInt32 = high := by
  have hlow := low.toNat_lt
  have hhigh := high.toNat_lt
  have h32 : (32 : UInt64).toNat % 64 = 32 := rfl
  rw [← UInt32.toNat_inj, UInt64.toNat_toUInt32, UInt64.toNat_shiftRight, ofBe64_toNat, h32,
    Nat.shiftRight_eq_div_pow]
  omega

theorem ofBe64_low (high low : UInt32) : (ofBe64 high low).toUInt32 = low := by
  have hlow := low.toNat_lt
  rw [← UInt32.toNat_inj, UInt64.toNat_toUInt32, ofBe64_toNat]
  omega

theorem ofBe64_halves (n : UInt64) : ofBe64 (n >>> 32).toUInt32 n.toUInt32 = n := by
  have hn := n.toNat_lt
  have h32 : (32 : UInt64).toNat % 64 = 32 := rfl
  rw [← UInt64.toNat_inj, ofBe64_toNat, UInt64.toNat_toUInt32, UInt64.toNat_toUInt32,
    UInt64.toNat_shiftRight, h32, Nat.shiftRight_eq_div_pow]
  omega

end MethodGraft.ClassFile
