import MethodGraft.Archive.Deflate

/-!
# Proofs.Archive.Deflate — stored blocks are read back

The writer makes stored blocks only, so the reader takes each block's header bits, goes on to the
next byte and copies as many bytes as the length says.
-/

namespace MethodGraft.Archive.Deflate

/-! ## 1. Headers -/

/-- The first three bits of the byte that starts a block. -/
theorem number?_header (isLast : Bool) (bytes : List UInt8) : ∃ bits,
    Bits.number? 3 ⟨[], (if isLast then 1 else 0) :: bytes⟩ = some
    (isLast.toNat, ⟨bits, bytes⟩) := by
  cases isLast
  · exact ⟨_, rfl⟩
  · exact ⟨_, rfl⟩

/-- The two bytes of a number, the low one first. -/
theorem toNat_bytes (n : UInt16) : n.toUInt8.toNat + 256 * (n >>> 8).toUInt8.toNat = n.toNat := by
  have hn := n.toNat_lt
  have h8 : (8 : UInt16).toNat % 16 = 8 := rfl
  rw [UInt16.toNat_toUInt8, UInt16.toNat_toUInt8, UInt16.toNat_shiftRight, h8,
    Nat.shiftRight_eq_div_pow]
  omega

theorem toNat_inverse (n : UInt16) : (n ^^^ 0xFFFF).toNat = 65535 - n.toNat := by
  have h : n ^^^ 0xFFFF = ~~~n := by
    apply UInt16.toBitVec_inj.mp
    exact BitVec.xor_allOnes
  rw [h, UInt16.toNat_not]
  rfl

/-! ## 2. Blocks -/

/-- A stored block is read up to its end, and its bytes go to the output. -/
theorem readStored?_block {data : List UInt8} (h : data.length ≤ 65535) (bits : List Bool)
    (rest : List UInt8) (out : Array UInt8) :
    let length := UInt16.ofNat data.length
    let inverse := length ^^^ 0xFFFF
    readStored? ⟨bits, length.toUInt8 :: (length >>> 8).toUInt8 :: inverse.toUInt8 ::
      (inverse >>> 8).toUInt8 :: (data ++ rest)⟩ out = some (out ++ data.toArray, ⟨[], rest⟩) := by
  intro length inverse
  have hlength : length.toNat = data.length := by
    rw [UInt16.toNat_ofNat']
    exact Nat.mod_eq_of_lt (by omega)
  unfold readStored?
  dsimp only
  rw [toNat_bytes, toNat_bytes, toNat_inverse, hlength, List.take_left, List.drop_left]
  exact if_pos ⟨rfl, by rw [List.length_append]; omega⟩

theorem readBlocks?_block {data : List UInt8} (h : data.length ≤ 65535) (isLast : Bool)
    (bits fuel : Nat) (rest : List UInt8) (out : Array UInt8) :
    readBlocks? bits (fuel + 1) ⟨[], storedBlock isLast data ++ rest⟩ out =
      if isLast then some (out ++ data.toArray)
        else readBlocks? bits fuel ⟨[], rest⟩ (out ++ data.toArray) := by
  obtain ⟨header, hheader⟩ := number?_header isLast (((storedBlock isLast data).tail) ++ rest)
  have hblock := readStored?_block h header rest out
  -- the type of a stored block is 0, whether it is the last or not
  have hkind : isLast.toNat / 2 = 0 := by cases isLast <;> rfl
  have hstored : readBlock? bits (isLast.toNat / 2) ⟨header, (storedBlock isLast data).tail ++ rest⟩
      out = some (out ++ data.toArray, ⟨[], rest⟩) := by
    unfold readBlock?
    rw [if_pos hkind]
    exact hblock
  have hstart : storedBlock isLast data ++ rest =
      (if isLast then 1 else 0) :: ((storedBlock isLast data).tail ++ rest) := rfl
  rw [hstart]
  rw [readBlocks?.eq_2, hheader]
  dsimp only [Option.bind_eq_bind, Option.bind_some]
  rw [hstored]
  cases isLast <;> rfl

/-! ## 3. Streams -/

/-- A block is longer than its data, so that the length of a stream bounds the number of its
blocks. -/
theorem length_storedBlock (isLast : Bool) (data : List UInt8) :
    (storedBlock isLast data).length = data.length + 5 := by
  unfold storedBlock
  rw [List.length_append, Nat.add_comm]
  rfl

theorem storedBlocks_last {data : List UInt8} (h : data.length ≤ 65535) (fuel : Nat) :
    storedBlocks fuel data = storedBlock true data := by
  cases fuel with
  | zero => rfl
  | succ fuel =>
    unfold storedBlocks
    rw [List.drop_eq_nil_of_le h]

theorem storedBlocks_more {data : List UInt8} (h : 65535 < data.length) (fuel : Nat) :
    storedBlocks (fuel + 1) data = storedBlock false (data.take 65535) ++
    storedBlocks fuel (data.drop 65535) := by
  conv => lhs; unfold storedBlocks
  split
  next hrest => exact absurd (List.drop_eq_nil_iff.mp hrest) (Nat.not_le.mpr h)
  next => rfl

theorem readBlocks?_storedBlocks (bits fuel steps : Nat) {data : List UInt8}
    (hdata : data.length ≤ fuel) (hsteps : (storedBlocks fuel data).length ≤ steps)
    (out : Array UInt8) :
    readBlocks? bits steps ⟨[], storedBlocks fuel data⟩ out = some (out ++ data.toArray) := by
  -- On the number of bytes that may be left: a block that is not the last one takes some of them.
  induction fuel using Nat.strongRecOn generalizing data steps out with
  | ind fuel ih =>
    by_cases hlast : data.length ≤ 65535
    · rw [storedBlocks_last hlast] at hsteps ⊢
      rw [length_storedBlock] at hsteps
      obtain ⟨n, rfl⟩ : ∃ n, steps = n + 1 := ⟨steps - 1, by omega⟩
      have hblock := readBlocks?_block hlast true bits n [] out
      rwa [List.append_nil] at hblock
    · obtain ⟨fuel, rfl⟩ : ∃ n, fuel = n + 1 := ⟨fuel - 1, by omega⟩
      have htake : (data.take 65535).length ≤ 65535 := by
        rw [List.length_take]
        exact Nat.min_le_left _ _
      have hdrop : (data.drop 65535).length ≤ fuel := by
        rw [List.length_drop]
        omega
      rw [storedBlocks_more (by omega)] at hsteps ⊢
      rw [List.length_append, length_storedBlock] at hsteps
      obtain ⟨n, rfl⟩ : ∃ n, steps = n + 1 := ⟨steps - 1, by omega⟩
      have hwhole : (data.take 65535).toArray ++ (data.drop 65535).toArray = data.toArray := by
        rw [List.append_toArray, List.take_append_drop]
      rw [readBlocks?_block htake, if_neg (by decide),
        ih fuel (Nat.lt_succ_self _) n hdrop (by omega), Array.append_assoc, hwhole]

/-- What was put into stored blocks is what a reader of the stream gets. -/
theorem inflate?_deflate (data : List UInt8) : inflate? (deflate data) = some data := by
  have hread :=
    readBlocks?_storedBlocks (8 * (deflate data).length) data.length (8 * (deflate data).length)
    (Nat.le_refl _) (by unfold deflate; omega) #[]
  unfold inflate?
  dsimp only
  split
  next hempty =>
    -- A stream has at least one block; with no bytes the reader would have found none.
    rw [List.isEmpty_iff.mp hempty] at hread
    cases hread
  next =>
    unfold deflate at hread ⊢
    rw [hread]
    simp only [Option.map_some, Array.empty_append]

end MethodGraft.Archive.Deflate
