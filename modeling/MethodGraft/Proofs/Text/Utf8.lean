import MethodGraft.Text.CodePage437
import MethodGraft.Text.Utf8

/-!
# Proofs.Text.Utf8 — texts survive their bytes

Reading is total and so may lose what was no UTF-8, but the bytes of a text are read as that text.
Bytes in the ASCII range have the same reading in the older character set, so that a text in it
needs no mark.
-/

namespace MethodGraft.Utf8

/-! ## 1. Single bytes -/

theorem toNat_ofNat_lt {n : Nat} (h : n < 256) : (UInt8.ofNat n).toNat = n := by
  rw [UInt8.toNat_ofNat']
  exact Nat.mod_eq_of_lt h

theorem next_ascii {b : UInt8} (h : b.toNat < 0x80) :
    next .between b = ([Char.ofNat b.toNat], .between) :=
  if_pos (UInt8.lt_iff_toNat_lt.mpr h)

theorem next_lead {b : UInt8} {low high : UInt8} {more value : Nat} (hb : 0x80 ≤ b.toNat)
    (h : leadOf? b = some (low, high, more, value)) :
    next .between b = ([], .inside low high more value) := by
  have hb : ¬b < 0x80 := by rw [UInt8.lt_iff_toNat_lt]; exact Nat.not_lt.mpr hb
  show first b = _
  unfold first
  rw [if_neg hb, h]

/-- A byte within the bounds adds its six bits. -/
theorem next_inside {low high : UInt8} {n : Nat} (more value : Nat) (hn : n < 64)
    (hlow : low.toNat ≤ 128 + n) (hhigh : 128 + n ≤ high.toNat) :
    next (.inside low high more value) (UInt8.ofNat (n + 128)) =
      if more = 0 then ([Char.ofNat (value * 64 + n)], .between)
      else ([], .inside 0x80 0xBF (more - 1) (value * 64 + n)) := by
  have hb : (UInt8.ofNat (n + 128)).toNat = n + 128 := toNat_ofNat_lt (by omega)
  have hle : low ≤ UInt8.ofNat (n + 128) ∧ UInt8.ofNat (n + 128) ≤ high := by
    rw [UInt8.le_iff_toNat_le, UInt8.le_iff_toNat_le, hb]
    omega
  unfold next
  dsimp only
  rw [if_pos hle, hb, Nat.add_sub_cancel]

theorem next_tail {n : Nat} (more value : Nat) (hn : n < 64) :
    next (.inside 0x80 0xBF more value) (UInt8.ofNat (n + 128)) =
      if more = 0 then ([Char.ofNat (value * 64 + n)], .between)
      else ([], .inside 0x80 0xBF (more - 1) (value * 64 + n)) :=
  next_inside more value hn (Nat.le_add_right 128 n)
    (by have : (0xBF : UInt8).toNat = 191 := rfl; omega)

/-! ## 2. First bytes -/

theorem next_first_two {v : Nat} (hlow : 0x80 ≤ v) (hhigh : v < 0x800) :
    next .between (UInt8.ofNat (v / 64 + 192)) = ([], .inside 0x80 0xBF 0 (v / 64)) := by
  have hb : (UInt8.ofNat (v / 64 + 192)).toNat = v / 64 + 192 := toNat_ofNat_lt (by omega)
  refine next_lead (by omega) ?_
  unfold leadOf?
  dsimp only
  rw [hb, if_pos (by omega), Nat.add_sub_cancel]

/-- The second byte of three is kept from forms that are too long and from surrogates. -/
theorem next_first_three {v : Nat} (hlow : 0x800 ≤ v) (hhigh : v < 0x10000)
    (hv : v < 0xD800 ∨ 0xDFFF < v) :
    ∃ low high, next .between (UInt8.ofNat (v / 4096 + 224)) = ([], .inside low high 1 (v / 4096)) ∧
      low.toNat ≤ 128 + v / 64 % 64 ∧ 128 + v / 64 % 64 ≤ high.toNat := by
  have hb : (UInt8.ofNat (v / 4096 + 224)).toNat = v / 4096 + 224 := toNat_ofNat_lt (by omega)
  have hlead : ∃ low high, leadOf? (UInt8.ofNat (v / 4096 + 224)) = some (low, high, 1, v / 4096) ∧
      low.toNat ≤ 128 + v / 64 % 64 ∧ 128 + v / 64 % 64 ≤ high.toNat := by
    unfold leadOf?
    dsimp only
    rw [hb, if_neg (by omega)]
    by_cases h0 : v / 4096 = 0
    · rw [if_pos (by omega), h0]
      exact ⟨_, _, rfl, show 160 ≤ _ by omega, show _ ≤ 191 by omega⟩
    rw [if_neg (by omega)]
    by_cases h13 : v / 4096 = 13
    · rw [if_pos (by omega), h13]
      exact ⟨_, _, rfl, show 128 ≤ _ by omega, show _ ≤ 159 by omega⟩
    rw [if_neg (by omega), if_pos (by omega), Nat.add_sub_cancel]
    exact ⟨_, _, rfl, show 128 ≤ _ by omega, show _ ≤ 191 by omega⟩
  obtain ⟨low, high, h, hbounds⟩ := hlead
  exact ⟨low, high, next_lead (by omega) h, hbounds⟩

/-- The second byte of four is kept from forms that are too long and from values that are too
large. -/
theorem next_first_four {v : Nat} (hlow : 0x10000 ≤ v) (hhigh : v < 0x110000) :
    ∃ low high,
      next .between (UInt8.ofNat (v / 262144 + 240)) = ([], .inside low high 2 (v / 262144)) ∧
      low.toNat ≤ 128 + v / 4096 % 64 ∧ 128 + v / 4096 % 64 ≤ high.toNat := by
  have hb : (UInt8.ofNat (v / 262144 + 240)).toNat = v / 262144 + 240 := toNat_ofNat_lt (by omega)
  have hlead :
      ∃ low high, leadOf? (UInt8.ofNat (v / 262144 + 240)) = some (low, high, 2, v / 262144) ∧
      low.toNat ≤ 128 + v / 4096 % 64 ∧ 128 + v / 4096 % 64 ≤ high.toNat := by
    unfold leadOf?
    dsimp only
    rw [hb, if_neg (by omega), if_neg (by omega), if_neg (by omega), if_neg (by omega)]
    by_cases h0 : v / 262144 = 0
    · rw [if_pos (by omega), h0]
      exact ⟨_, _, rfl, show 144 ≤ _ by omega, show _ ≤ 191 by omega⟩
    rw [if_neg (by omega)]
    by_cases h4 : v / 262144 = 4
    · rw [if_neg (by omega), if_pos (by omega), h4]
      exact ⟨_, _, rfl, show 128 ≤ _ by omega, show _ ≤ 143 by omega⟩
    rw [if_pos (by omega), Nat.add_sub_cancel]
    exact ⟨_, _, rfl, show 128 ≤ _ by omega, show _ ≤ 191 by omega⟩
  obtain ⟨low, high, h, hbounds⟩ := hlead
  exact ⟨low, high, next_lead (by omega) h, hbounds⟩

/-! ## 3. Texts -/

theorem decodeFrom_cons {p q : Progress} {cs : List Char} {b : UInt8} (h : next p b = (cs, q))
    (read : List Char) (rest : List UInt8) :
    decodeFrom p read (b :: rest) = decodeFrom q (cs.reverse ++ read) rest := by
  rw [decodeFrom.eq_3, h]

section

variable {v : Nat} (read : List Char) (rest : List UInt8)

theorem decodeFrom_one (h : v < 0x80) :
    decodeFrom .between read (UInt8.ofNat v :: rest) =
    decodeFrom .between (Char.ofNat v :: read) rest := by
  have hb : (UInt8.ofNat v).toNat = v := toNat_ofNat_lt (by omega)
  have hnext := next_ascii (b := UInt8.ofNat v) (by omega)
  rw [hb] at hnext
  exact decodeFrom_cons hnext read rest

theorem decodeFrom_two (hlow : 0x80 ≤ v) (hhigh : v < 0x800) :
    decodeFrom .between read (UInt8.ofNat (v / 64 + 192) :: UInt8.ofNat (v % 64 + 128) :: rest) =
      decodeFrom .between (Char.ofNat v :: read) rest := by
  have hvalue : v / 64 * 64 + v % 64 = v := by omega
  have hlast := next_tail 0 (v / 64) (Nat.mod_lt v (by decide : 0 < 64))
  rw [if_pos rfl, hvalue] at hlast
  refine (decodeFrom_cons (next_first_two hlow hhigh) read _).trans ?_
  exact decodeFrom_cons hlast read rest

theorem decodeFrom_three (hlow : 0x800 ≤ v) (hhigh : v < 0x10000) (hv : v < 0xD800 ∨ 0xDFFF < v) :
    decodeFrom .between read (UInt8.ofNat (v / 4096 + 224) :: UInt8.ofNat (v / 64 % 64 + 128) ::
      UInt8.ofNat (v % 64 + 128) :: rest) = decodeFrom .between (Char.ofNat v :: read) rest := by
  have hvalue : (v / 4096 * 64 + v / 64 % 64) * 64 + v % 64 = v := by omega
  obtain ⟨low, high, hfirst, hleast, hgreatest⟩ := next_first_three hlow hhigh hv
  have hsecond := next_inside 1 (v / 4096) (Nat.mod_lt (v / 64) (by decide : 0 < 64))
    hleast hgreatest
  have hlast := next_tail 0 (v / 4096 * 64 + v / 64 % 64)
    (Nat.mod_lt v (by decide : 0 < 64))
  rw [if_neg (by decide)] at hsecond
  rw [if_pos rfl, hvalue] at hlast
  refine (decodeFrom_cons hfirst read _).trans ?_
  refine (decodeFrom_cons hsecond read _).trans ?_
  exact decodeFrom_cons hlast read rest

theorem decodeFrom_four (hlow : 0x10000 ≤ v) (hhigh : v < 0x110000) :
    decodeFrom .between read (UInt8.ofNat (v / 262144 + 240) :: UInt8.ofNat (v / 4096 % 64 + 128) ::
      UInt8.ofNat (v / 64 % 64 + 128) :: UInt8.ofNat (v % 64 + 128) :: rest) =
      decodeFrom .between (Char.ofNat v :: read) rest := by
  have hvalue : ((v / 262144 * 64 + v / 4096 % 64) * 64 + v / 64 % 64) * 64 + v % 64 = v := by omega
  obtain ⟨low, high, hfirst, hleast, hgreatest⟩ := next_first_four hlow hhigh
  have hsecond := next_inside 2 (v / 262144) (Nat.mod_lt (v / 4096) (by decide : 0 < 64))
    hleast hgreatest
  have hthird := next_tail 1 (v / 262144 * 64 + v / 4096 % 64)
    (Nat.mod_lt (v / 64) (by decide : 0 < 64))
  have hlast := next_tail 0 ((v / 262144 * 64 + v / 4096 % 64) * 64 + v / 64 % 64)
    (Nat.mod_lt v (by decide : 0 < 64))
  rw [if_neg (by decide)] at hsecond hthird
  rw [if_pos rfl, hvalue] at hlast
  refine (decodeFrom_cons hfirst read _).trans ?_
  refine (decodeFrom_cons hsecond read _).trans ?_
  refine (decodeFrom_cons hthird read _).trans ?_
  exact decodeFrom_cons hlast read rest

end

/-- The bytes of a character are read as that character. -/
theorem decodeFrom_encodeChar (c : Char) (read : List Char) (rest : List UInt8) :
    decodeFrom .between read (String.utf8EncodeChar c ++ rest) =
    decodeFrom .between (c :: read) rest := by
  have hc : Char.ofNat c.val.toNat = c := Char.ofNat_toNat c
  have hvalid : c.val.toNat < 0xD800 ∨ 0xDFFF < c.val.toNat ∧ c.val.toNat < 0x110000 := c.valid
  -- The masks on first bytes do nothing within the range of each form.
  have h32 (h : c.val.toNat ≤ 2047) : c.val.toNat / 64 % 32 = c.val.toNat / 64 :=
    Nat.mod_eq_of_lt (by omega)
  have h16 (h : c.val.toNat ≤ 65535) : c.val.toNat / 4096 % 16 = c.val.toNat / 4096 :=
    Nat.mod_eq_of_lt (by omega)
  have h8 : c.val.toNat / 262144 % 8 = c.val.toNat / 262144 := Nat.mod_eq_of_lt (by omega)
  have hread : decodeFrom .between (c :: read) rest =
      decodeFrom .between (Char.ofNat c.val.toNat :: read) rest := by
    rw [hc]
  unfold String.utf8EncodeChar
  dsimp only
  rw [hread]
  split
  next => exact decodeFrom_one read rest (by omega)
  next =>
    split
    next h =>
      rw [h32 h]
      exact decodeFrom_two read rest (by omega) (by omega)
    next =>
      split
      next h =>
        rw [h16 h]
        exact decodeFrom_three read rest (by omega) (by omega) (by omega)
      next =>
        rw [h8]
        exact decodeFrom_four read rest (by omega) (by omega)

theorem decodeFrom_flatMap (cs read : List Char) :
    decodeFrom .between read (cs.flatMap String.utf8EncodeChar) = read.reverse ++ cs := by
  induction cs generalizing read with
  | nil => exact (List.append_nil _).symm
  | cons c cs ih =>
    rw [List.flatMap_cons, decodeFrom_encodeChar, ih, List.reverse_cons, List.append_assoc]
    rfl

theorem encode_eq_flatMap (s : String) : encode s = s.toList.flatMap String.utf8EncodeChar := by
  have h : s.toUTF8 = (s.toList.flatMap String.utf8EncodeChar).toByteArray :=
    (String.utf8Encode_toList (b := s)).symm
  unfold encode
  rw [h]
  exact List.toList_data_toByteArray

/-- A text is read back from its bytes. -/
theorem decodeLossy_encode (s : String) : decodeLossy (encode s) = s := by
  unfold decodeLossy
  rw [encode_eq_flatMap, decodeFrom_flatMap, List.reverse_nil, List.nil_append,
    String.ofList_toList]

/-! ## 4. ASCII -/

theorem decodeFrom_ascii {bytes : List UInt8} (h : ∀ b ∈ bytes, b < 0x80) (read : List Char) :
    decodeFrom .between read bytes = read.reverse ++ bytes.map CodePage437.decodeByte := by
  induction bytes generalizing read with
  | nil => exact (List.append_nil _).symm
  | cons b bytes ih =>
    obtain ⟨hb, hbytes⟩ := List.forall_mem_cons.mp h
    have hbyte : CodePage437.decodeByte b = Char.ofNat b.toNat := if_pos hb
    rw [decodeFrom_cons (next_ascii (UInt8.lt_iff_toNat_lt.mp hb)), ih hbytes, List.map_cons, hbyte]
    simp only [List.reverse_cons, List.reverse_nil, List.nil_append, List.cons_append,
      List.append_assoc]

/-- Bytes in the ASCII range have one reading in both character sets. -/
theorem decodeLossy_ascii {bytes : List UInt8} (h : ∀ b ∈ bytes, b < 0x80) :
    decodeLossy bytes = CodePage437.decode bytes := by
  unfold decodeLossy CodePage437.decode
  rw [decodeFrom_ascii h, List.reverse_nil, List.nil_append]

end MethodGraft.Utf8
