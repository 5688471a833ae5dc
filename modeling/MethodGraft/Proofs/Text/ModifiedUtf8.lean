import MethodGraft.Text.ModifiedUtf8
import Mathlib.Data.List.Basic

/-!
# Proofs.Text.ModifiedUtf8 — one byte string for each text

Decoding accepts exactly the bytes that encoding produces, so a text and its bytes determine each
other, and a byte string without a text has to be kept as it is.
-/

namespace MethodGraft.ModifiedUtf8

/-! ## 1. Units -/

theorem toNat_continuation (n : Nat) : (continuation n).toNat = 0x80 + n % 64 := by
  unfold continuation
  rw [UInt8.toNat_ofNat']
  omega

theorem payload?_continuation (n : Nat) : payload? (continuation n) = some (n % 64) := by
  have h := toNat_continuation n
  have hmod := Nat.mod_lt n (by decide : 0 < 64)
  have hlow : 0x80 ≤ continuation n := UInt8.le_iff_toNat_le.mpr (h ▸ Nat.le_add_right _ _)
  have hhigh : continuation n < 0xC0 :=
    UInt8.lt_iff_toNat_lt.mpr (h ▸ Nat.add_lt_add_left hmod 0x80)
  unfold payload?
  rw [if_pos ⟨hlow, hhigh⟩, h, Nat.add_sub_cancel_left]

theorem eq_continuation_of_payload? {b : UInt8} {p n : Nat} (h : payload? b = some p)
    (hn : n % 64 = p) : b = continuation n := by
  unfold payload? at h
  split at h
  next hb =>
    have hle := UInt8.le_iff_toNat_le.mp hb.1
    have hp := Option.some.inj h
    apply UInt8.toNat_inj.mp
    rw [toNat_continuation, hn, ← hp]
    exact (Nat.add_sub_cancel' hle).symm
  next => cases h

theorem payload?_lt {b : UInt8} {p : Nat} (h : payload? b = some p) : p < 64 := by
  unfold payload? at h
  split at h
  next hb =>
    have hlt := UInt8.lt_iff_toNat_lt.mp hb.2
    have hp := Option.some.inj h
    have : (0xC0 : UInt8).toNat = 192 := rfl
    omega
  next => cases h

theorem toNat_lead {base n : Nat} (h : base + n < 256) :
    (UInt8.ofNat (base + n)).toNat = base + n := by
  rw [UInt8.toNat_ofNat']
  exact Nat.mod_eq_of_lt h

/-- The three bytes of a unit are read back. -/
theorem unit?_encodeUnit {n : Nat} (hlow : 0x800 ≤ n) (hhigh : n < 0x10000) :
    unit? (UInt8.ofNat (0xE0 + n / 4096)) (continuation (n / 64)) (continuation n) = some n := by
  have hlead : (UInt8.ofNat (0xE0 + n / 4096)).toNat = 0xE0 + n / 4096 := toNat_lead (by omega)
  have hfirst : 0xE0 ≤ UInt8.ofNat (0xE0 + n / 4096) := by
    rw [UInt8.le_iff_toNat_le, hlead]
    exact Nat.le_add_right _ _
  have hlast : UInt8.ofNat (0xE0 + n / 4096) < 0xF0 := by
    rw [UInt8.lt_iff_toNat_lt, hlead]
    show 0xE0 + n / 4096 < 0xF0
    omega
  have hvalue : (0xE0 + n / 4096 - 0xE0) * 4096 + n / 64 % 64 * 64 + n % 64 = n := by omega
  unfold unit?
  rw [payload?_continuation, payload?_continuation]
  simp only [hlead, hvalue]
  exact if_pos ⟨hfirst, hlast, hlow⟩

/-- What reads as a unit is how that unit is written. -/
theorem encodeUnit_of_unit? {b₀ b₁ b₂ : UInt8} {n : Nat} (h : unit? b₀ b₁ b₂ = some n) :
    encodeUnit n = [b₀, b₁, b₂] ∧ 0x800 ≤ n ∧ n < 0x10000 := by
  unfold unit? at h
  split at h
  next p q hp hq =>
    dsimp only at h
    split at h
    next hb =>
      have hn := Option.some.inj h
      have hlow : 0xE0 ≤ b₀.toNat := UInt8.le_iff_toNat_le.mp hb.1
      have hhigh : b₀.toNat < 0xF0 := UInt8.lt_iff_toNat_lt.mp hb.2.1
      have hp64 := payload?_lt hp
      have hq64 := payload?_lt hq
      have hlead : UInt8.ofNat (0xE0 + n / 4096) = b₀ := by
        apply UInt8.toNat_inj.mp
        rw [toNat_lead (by omega)]
        omega
      have h₁ : b₁ = continuation (n / 64) := eq_continuation_of_payload? hp (by omega)
      have h₂ : b₂ = continuation n := eq_continuation_of_payload? hq (by omega)
      refine ⟨?_, by omega, by omega⟩
      rw [encodeUnit, hlead, h₁, h₂]
    next => cases h
  next => cases h

/-! ## 2. Characters -/

theorem toNat_ofNat {n : Nat} (h : n < 0xD800 ∨ 0xDFFF < n ∧ n < 0x110000) :
    (Char.ofNat n).toNat = n := by
  have hvalid : n.isValidChar := h
  rw [Char.ofNat, dif_pos hvalid]
  rfl

/-- The bytes of a pair are those of its character. -/
theorem encodeChar_of_pair? {b₀ b₁ : UInt8} {c : Char} (h : pair? b₀ b₁ = some c) :
    encodeChar c = [b₀, b₁] := by
  unfold pair? at h
  split at h
  next p hp =>
    dsimp only at h
    split at h
    next hb =>
      obtain ⟨hlow, hhigh, hn⟩ := hb
      have hlow : 0xC0 ≤ b₀.toNat := UInt8.le_iff_toNat_le.mp hlow
      have hhigh : b₀.toNat < 0xE0 := UInt8.lt_iff_toNat_lt.mp hhigh
      have hp64 := payload?_lt hp
      generalize hvalue : (b₀.toNat - 0xC0) * 64 + p = n at h hn
      have hnat : c.toNat = n := by rw [← Option.some.inj h, toNat_ofNat (by omega)]
      have h₁ : b₁ = continuation n := eq_continuation_of_payload? hp (by omega)
      have h₀ : b₀ = UInt8.ofNat (0xC0 + n / 64) := by
        apply UInt8.toNat_inj.mp
        rw [toNat_lead (by omega)]
        omega
      unfold encodeChar
      rw [hnat]
      dsimp only
      -- two bytes stand for 0 or for what does not fit into seven bits
      rcases hn with rfl | hn
      · rw [if_pos rfl, h₀, h₁]
        rfl
      · rw [if_neg (by omega), if_neg (by omega), if_pos (by omega), h₀, h₁]
    next => cases h
  next => cases h

theorem pair?_of_lead {b₀ b₁ : UInt8} (h : 0xE0 ≤ b₀.toNat) : pair? b₀ b₁ = none := by
  unfold pair?
  split
  next =>
    dsimp only
    rw [if_neg]
    rintro ⟨-, hlt, -⟩
    exact absurd (UInt8.lt_iff_toNat_lt.mp hlt) (Nat.not_lt.mpr h)
  next => rfl

theorem encodeChar_ascii {b : UInt8} (hb : b < 0x80) (hne : b ≠ 0) :
    encodeChar (Char.ofNat b.toNat) = [b] := by
  have hlt : b.toNat < 0x80 := UInt8.lt_iff_toNat_lt.mp hb
  have hpos : b.toNat ≠ 0 := fun h => hne (UInt8.toNat_inj.mp h)
  unfold encodeChar
  rw [toNat_ofNat (by omega)]
  dsimp only
  rw [if_neg hpos, if_pos hlt, UInt8.ofNat_toNat]

theorem encodeChar_unit {n : Nat} (hlow : 0x800 ≤ n) (hhigh : n < 0x10000)
    (hn : n < 0xD800 ∨ 0xE000 ≤ n) : encodeChar (Char.ofNat n) = encodeUnit n := by
  unfold encodeChar
  rw [toNat_ofNat (by omega)]
  dsimp only
  rw [if_neg (by omega), if_neg (by omega), if_neg (by omega), if_pos hhigh]

theorem encodeChar_joinSurrogates {n m : Nat} (hn : 0xD800 ≤ n) (hn' : n < 0xDC00) (hm : 0xDC00 ≤ m)
    (hm' : m < 0xE000) : encodeChar (joinSurrogates n m) = encodeUnit n ++ encodeUnit m := by
  have hhigh : 0xD800 + (0x10000 + (n - 0xD800) * 1024 + (m - 0xDC00) - 0x10000) / 1024 = n := by
    omega
  have hlow : 0xDC00 + (0x10000 + (n - 0xD800) * 1024 + (m - 0xDC00) - 0x10000) % 1024 = m := by
    omega
  unfold encodeChar joinSurrogates
  rw [toNat_ofNat (by omega)]
  dsimp only
  rw [if_neg (by omega), if_neg (by omega), if_neg (by omega), if_neg (by omega), hhigh, hlow]

/-! ## 3. Texts -/

theorem length_encodeChar_pos (c : Char) : 0 < (encodeChar c).length := by
  unfold encodeChar encodeUnit
  dsimp only
  split_ifs <;> simp

/-- Decoding begins with the bytes of one character. -/
theorem eq_encodeChar_append_of_decodeFrom {read : List Char} {b₀ : UInt8} {rest₀ : List UInt8}
    {cs : List Char} (h : decodeFrom read (b₀ :: rest₀) = some cs) :
    ∃ c rest, b₀ :: rest₀ = encodeChar c ++ rest ∧ decodeFrom (c :: read) rest = some cs := by
  rw [decodeFrom.eq_def] at h
  by_cases hascii : b₀ < 0x80
  · simp only [if_pos hascii] at h
    by_cases hzero : b₀ = 0
    · rw [if_pos hzero] at h
      cases h
    · rw [if_neg hzero] at h
      exact ⟨_, rest₀, by rw [encodeChar_ascii hascii hzero]; rfl, h⟩
  simp only [if_neg hascii] at h
  obtain _ | ⟨b₁, rest₁⟩ := rest₀
  · cases h
  dsimp only at h
  rcases hpair : pair? b₀ b₁ with _ | c
  on_goal 2 =>
    rw [hpair] at h
    exact ⟨c, rest₁, by rw [encodeChar_of_pair? hpair]; rfl, h⟩
  rw [hpair] at h
  obtain _ | ⟨b₂, rest₂⟩ := rest₁
  · cases h
  dsimp only at h
  rcases hunit : unit? b₀ b₁ b₂ with _ | n
  · rw [hunit] at h
    cases h
  rw [hunit] at h
  dsimp only at h
  obtain ⟨hbytes, hlow, hhigh⟩ := encodeUnit_of_unit? hunit
  by_cases hn : n < 0xD800 ∨ 0xE000 ≤ n
  · rw [if_pos hn] at h
    exact ⟨_, rest₂, by rw [encodeChar_unit hlow hhigh hn, hbytes]; rfl, h⟩
  rw [if_neg hn] at h
  -- the number is a surrogate, and it must be a high one with a low one after it
  split at h
  next => cases h
  next hhigh =>
    split at h
    next b₃ b₄ b₅ rest₅ =>
      split at h
      next m hunit' =>
        split at h
        next hm =>
          have hchar : encodeChar (joinSurrogates n m) = [b₀, b₁, b₂] ++ [b₃, b₄, b₅] := by
            rw [encodeChar_joinSurrogates (by omega) (by omega) hm.1 hm.2, hbytes,
              (encodeUnit_of_unit? hunit').1]
          exact ⟨_, rest₅, by rw [hchar]; rfl, h⟩
        next => cases h
      next => cases h
    next => cases h

/-- What is decoded are the characters of `read`, whose last one stands first, and those that the
bytes write. -/
theorem flatMap_of_decodeFrom {read : List Char} {bytes : List UInt8} {cs : List Char}
    (h : decodeFrom read bytes = some cs) :
    ∃ more, cs = read.reverse ++ more ∧ more.flatMap encodeChar = bytes := by
  induction hlength : bytes.length using Nat.strongRecOn generalizing read bytes with
  | ind n ih =>
    cases bytes with
    | nil => exact ⟨[], by rw [List.append_nil, Option.some.inj h], rfl⟩
    | cons b₀ rest₀ =>
      obtain ⟨c, rest, hbytes, hrest⟩ := eq_encodeChar_append_of_decodeFrom h
      have hlt : rest.length < n := by
        have hpos := length_encodeChar_pos c
        rw [← hlength, hbytes, List.length_append]
        omega
      obtain ⟨more, rfl, rfl⟩ := ih _ hlt hrest rfl
      exact ⟨c :: more, by rw [List.reverse_cons, List.append_assoc, List.singleton_append],
        hbytes.symm⟩

theorem decodeFrom_pair {b₀ b₁ : UInt8} {c : Char} (read : List Char) (rest : List UInt8)
    (hlead : ¬b₀ < 0x80) (hpair : pair? b₀ b₁ = some c) :
    decodeFrom read (b₀ :: b₁ :: rest) = decodeFrom (c :: read) rest := by
  rw [decodeFrom.eq_def]
  dsimp only
  rw [if_neg hlead, hpair]

/-- A lead byte of two stands for the numbers from `C0` on. -/
theorem pair?_encode {n : Nat} (hlow : 0x80 ≤ n) (hhigh : n < 0x800) :
    pair? (UInt8.ofNat (0xC0 + n / 64)) (continuation n) = some (Char.ofNat n) := by
  have hlead : (UInt8.ofNat (0xC0 + n / 64)).toNat = 0xC0 + n / 64 := toNat_lead (by omega)
  have hfirst : 0xC0 ≤ UInt8.ofNat (0xC0 + n / 64) := by
    rw [UInt8.le_iff_toNat_le, hlead]
    exact Nat.le_add_right _ _
  have hlast : UInt8.ofNat (0xC0 + n / 64) < 0xE0 := by
    rw [UInt8.lt_iff_toNat_lt, hlead]
    show 0xC0 + n / 64 < 0xE0
    omega
  have hvalue : (0xC0 + n / 64 - 0xC0) * 64 + n % 64 = n := by omega
  unfold pair?
  rw [payload?_continuation]
  simp only [hlead, hvalue]
  exact if_pos ⟨hfirst, hlast, .inr hlow⟩

/-- A unit that is no surrogate is a character of its own; a high surrogate goes on with a low
one. -/
theorem decodeFrom_encodeUnit {n : Nat} (hlow : 0x800 ≤ n) (hhigh : n < 0x10000) (read : List Char)
    (rest : List UInt8) : decodeFrom read (encodeUnit n ++ rest) =
      if n < 0xD800 ∨ 0xE000 ≤ n then decodeFrom (Char.ofNat n :: read) rest
      else if 0xDC00 ≤ n then none
      else match rest with
        | b₃ :: b₄ :: b₅ :: rest =>
          match unit? b₃ b₄ b₅ with
          | some m =>
            if 0xDC00 ≤ m ∧ m < 0xE000 then decodeFrom (joinSurrogates n m :: read) rest else none
          | none => none
        | _ => none := by
  have hlead : (UInt8.ofNat (0xE0 + n / 4096)).toNat = 0xE0 + n / 4096 := toNat_lead (by omega)
  have hfirst : 0xE0 ≤ (UInt8.ofNat (0xE0 + n / 4096)).toNat := by
    rw [hlead]
    exact Nat.le_add_right _ _
  have hascii : ¬UInt8.ofNat (0xE0 + n / 4096) < 0x80 := by
    rw [UInt8.lt_iff_toNat_lt]
    exact Nat.not_lt.mpr (Nat.le_trans (by decide) hfirst)
  show decodeFrom read (_ :: _ :: _ :: rest) = _
  rw [decodeFrom.eq_def]
  dsimp only
  rewrite [if_neg hascii, pair?_of_lead hfirst, unit?_encodeUnit hlow hhigh]
  rfl

theorem decodeFrom_surrogates {n m : Nat} (hn : 0xD800 ≤ n) (hn' : n < 0xDC00) (hm : 0xDC00 ≤ m)
    (hm' : m < 0xE000) (read : List Char) (rest : List UInt8) :
    decodeFrom read (encodeUnit n ++ (encodeUnit m ++ rest)) =
    decodeFrom (joinSurrogates n m :: read) rest := by
  rw [decodeFrom_encodeUnit (by omega) (by omega), if_neg (by omega), if_neg (by omega), encodeUnit,
    List.cons_append, List.cons_append, List.cons_append, List.nil_append]
  dsimp only
  rw [unit?_encodeUnit (by omega) (by omega)]
  exact if_pos ⟨hm, hm'⟩

/-- The bytes of a character are read as that character. -/
theorem decodeFrom_encodeChar (read : List Char) (c : Char) (rest : List UInt8) :
    decodeFrom read (encodeChar c ++ rest) = decodeFrom (c :: read) rest := by
  have hvalid : c.toNat < 0xD800 ∨ 0xDFFF < c.toNat ∧ c.toNat < 0x110000 := c.valid
  have hof : Char.ofNat c.toNat = c := Char.ofNat_toNat c
  generalize hn : c.toNat = n at hvalid hof
  unfold encodeChar
  rw [hn, ← hof]
  dsimp only
  -- the encodings are gone through by length: zero, one byte, two, three, and a pair of surrogates
  by_cases hzero : n = 0
  · rw [if_pos hzero, hzero]
    exact decodeFrom_pair read rest (by decide) rfl
  rw [if_neg hzero]
  by_cases hascii : n < 0x80
  · have hnat : (UInt8.ofNat n).toNat = n := Nat.mod_eq_of_lt (by omega)
    have hlt : UInt8.ofNat n < 0x80 := by
      rw [UInt8.lt_iff_toNat_lt, hnat]
      exact hascii
    have hne : UInt8.ofNat n ≠ 0 := by
      rw [Ne, ← UInt8.toNat_inj, hnat]
      exact hzero
    rw [if_pos hascii, List.singleton_append, decodeFrom.eq_def]
    dsimp only
    rw [if_pos hlt, if_neg hne, hnat]
  rw [if_neg hascii]
  by_cases hpair : n < 0x800
  · rw [if_pos hpair]
    have hlead : ¬UInt8.ofNat (0xC0 + n / 64) < 0x80 := by
      rw [UInt8.lt_iff_toNat_lt, toNat_lead (by omega)]
      exact Nat.not_lt.mpr (Nat.le_trans (by decide) (Nat.le_add_right _ _))
    exact decodeFrom_pair read rest hlead (pair?_encode (by omega) hpair)
  rw [if_neg hpair]
  by_cases hunit : n < 0x10000
  · rw [if_pos hunit, decodeFrom_encodeUnit (by omega) hunit, if_pos (by omega)]
  rw [if_neg hunit]
  have hchar : joinSurrogates (0xD800 + (n - 0x10000) / 1024) (0xDC00 + (n - 0x10000) % 1024) =
      Char.ofNat n := by
    unfold joinSurrogates
    exact congrArg Char.ofNat (by omega)
  rw [List.append_assoc, decodeFrom_surrogates (by omega) (by omega) (by omega) (by omega), hchar]

/-- A text is read from its bytes, and from no others. -/
theorem decode_eq_some_iff {bytes : List UInt8} {text : String} :
    decode bytes = some text ↔ encode text = bytes := by
  have hforward (cs read : List Char) :
      decodeFrom read (cs.flatMap encodeChar) = some (read.reverse ++ cs) := by
    induction cs generalizing read with
    | nil =>
      rw [List.append_nil]
      rfl
    | cons c cs ih =>
      rw [List.flatMap_cons, decodeFrom_encodeChar, ih, List.reverse_cons, List.append_assoc,
        List.singleton_append]
  unfold decode encode
  constructor
  · intro h
    obtain ⟨cs, hcs, rfl⟩ := Option.map_eq_some_iff.mp h
    obtain ⟨more, rfl, hbytes⟩ := flatMap_of_decodeFrom hcs
    rw [← hbytes, String.toList_ofList]
  · rintro rfl
    rw [hforward, Option.map_some, List.reverse_nil, List.nil_append, String.ofList_toList]

end MethodGraft.ModifiedUtf8
