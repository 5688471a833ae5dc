import MethodGraft.Proofs.Archive.Laws

/-!
# Proofs.Archive.Restoring — what restoring changes

Restoring writes eight bytes into each central record of the new archive.  As the records do not
overlap, each of them ends up with the eight bytes of its own entry, and no other byte changes.
-/

namespace MethodGraft.Archive

/-! ## 1. One record -/

section

variable {b new : List UInt8} {i k : Nat}

theorem length_overwrite (h : i + new.length ≤ b.length) :
    (overwrite b i new).length = b.length := by
  unfold overwrite
  simp only [List.length_append, List.length_take, List.length_drop]
  omega

/-- Bytes that were written are read back, and all others are as before. -/
theorem getElem?_overwrite (h : i + new.length ≤ b.length) : (overwrite b i new)[k]? =
    if i ≤ k ∧ k < i + new.length then new[k - i]? else b[k]? := by
  have htake : (b.take i).length = i := List.length_take_of_le (by omega)
  unfold overwrite
  split
  next hk =>
    rw [List.append_assoc, List.getElem?_append_right (by omega),
      List.getElem?_append_left (by omega), htake]
  next hk =>
    obtain hlow | hhigh : k < i ∨ i + new.length ≤ k := by omega
    · rw [List.append_assoc, List.getElem?_append_left (by omega), List.getElem?_take_of_lt hlow]
    · rw [List.getElem?_append_right (by rw [List.length_append]; omega), List.getElem?_drop,
        List.length_append, htake]
      congr 1
      omega

end

section

variable {bytes : List UInt8} {start : Nat}

theorem length_record (h : start + centralLength ≤ bytes.length) :
    ((bytes.drop start).take centralLength).length = centralLength := by
  rw [List.length_take, List.length_drop]
  omega

theorem recordAt?_eq_some (h : start + centralLength ≤ bytes.length) :
    recordAt? bytes start = some ((bytes.drop start).take centralLength) :=
  if_pos (length_record h)

end

section

variable {record output : List UInt8} {s : Nat}

theorem length_field (hrecord : record.length = centralLength) {i n : Nat}
    (hn : i + n ≤ centralLength) : ((record.drop i).take n).length = n := by
  rw [List.length_take, List.length_drop]
  omega

theorem getElem?_field {i n k : Nat} (hk : k < n) :
    ((record.drop i).take n)[k]? = record[i + k]? := by
  rw [List.getElem?_take_of_lt hk, List.getElem?_drop]

/-- The attributes become those of the record, and all other bytes stay. -/
theorem restoreRecord_bytes (hrecord : record.length = centralLength)
    (hs : s + centralLength ≤ output.length) :
    SameOff (AttributeByte s) output (restoreRecord record s output) ∧
      ∀ k, AttributeByte s k → (restoreRecord record s output)[k]? = record[k - s]? := by
  have hlength : centralLength = 46 := rfl
  have hmade := length_field hrecord (i := 4) (n := 2) (by decide)
  have hattributes := length_field hrecord (i := 36) (n := 6) (by decide)
  have hfirst : (overwrite output (s + 4) ((record.drop 4).take 2)).length = output.length :=
    length_overwrite (by omega)
  have hread (k : Nat) : (restoreRecord record s output)[k]? =
      if s + 36 ≤ k ∧ k < s + 36 + 6 then ((record.drop 36).take 6)[k - (s + 36)]?
      else if s + 4 ≤ k ∧ k < s + 4 + 2 then ((record.drop 4).take 2)[k - (s + 4)]?
      else output[k]? := by
    unfold restoreRecord
    rw [getElem?_overwrite (by omega), getElem?_overwrite (by omega), hmade, hattributes]
  unfold AttributeByte
  refine ⟨⟨?_, fun k hk => ?_⟩, fun k hk => ?_⟩
  · unfold restoreRecord
    rw [length_overwrite (by omega), hfirst]
  · rw [hread, if_neg (by omega), if_neg (by omega)]
  · rw [hread]
    split
    next =>
      rw [getElem?_field (by omega)]
      congr 1
      omega
    next =>
      rw [if_pos (by omega), getElem?_field (by omega)]
      congr 1
      omega

end

/-! ## 2. All records -/

/-- Where a record stands and the entry whose bytes it gets: both records are within the bytes, and
the entry can be found. -/
structure Restorable (lib : Library) (input : List UInt8) (a : Archive) (length start : Nat)
    (e : Entry) : Prop where
  found : ∃ raw, lib.raw a e = .ok raw
  source : e.centralStart + centralLength ≤ input.length
  target : start + centralLength ≤ length

def HasAttributes (input bytes : List UInt8) (start : Nat) (e : Entry) : Prop :=
  ∀ j, AttributeByte 0 j → bytes[start + j]? = input[e.centralStart + j]?

theorem exists_restored {lib : Library} {input : List UInt8} {a : Archive} {length : Nat}
    {starts : List Nat} {entries : List Entry}
    (h : List.Forall₂ (Restorable lib input a length) starts entries)
    (hapart : starts.Pairwise fun s t => s + centralLength ≤ t) (index : Nat) {output : List UInt8}
    (houtput : output.length = length) :
    ∃ bytes, lib.restoreRecords input a index starts entries output = .ok bytes ∧
      SameOff (attributePlaces starts) output bytes ∧
        List.Forall₂ (HasAttributes input bytes) starts entries := by
  induction h generalizing index output with
  | nil => exact ⟨output, rfl, ⟨rfl, fun _ _ => rfl⟩, .nil⟩
  | @cons s e starts entries he hrest ih =>
    obtain ⟨hbehind, hapart⟩ := List.pairwise_cons.mp hapart
    obtain ⟨raw, hraw⟩ := he.found
    have htarget : s + centralLength ≤ output.length := houtput ▸ he.target
    obtain ⟨hfirst, hattributes⟩ := restoreRecord_bytes (length_record he.source) htarget
    obtain ⟨bytes, hrun, hlater, hall⟩ := ih hapart (index + 1) (hfirst.1.trans houtput)
    refine ⟨bytes, ?_, ⟨hlater.1.trans hfirst.1, fun i hi => ?_⟩, .cons (fun j hj => ?_) hall⟩
    · unfold Library.restoreRecords
      rw [hraw, recordAt?_eq_some he.source, recordAt?_eq_some htarget]
      exact hrun
    · rw [hlater.2 i fun ⟨t, ht, hplace⟩ => hi ⟨t, List.mem_cons_of_mem _ ht, hplace⟩]
      exact hfirst.2 i fun hplace => hi ⟨s, List.mem_cons_self, hplace⟩
    -- the records that are restored later stand behind this one
    · have hlength : centralLength = 46 := rfl
      have hnot : ¬attributePlaces starts (s + j) := by
        rintro ⟨t, ht, hplace⟩
        have hst := hbehind t ht
        unfold AttributeByte at hj hplace
        omega
      have hj' : j < centralLength := by
        unfold AttributeByte at hj
        omega
      rw [hlater.2 _ hnot, hattributes _ (attributeByte_add.mpr hj), Nat.add_sub_cancel_left,
        getElem?_field hj']

/-! ## 3. Numbers -/

theorem u16At_eq (b : List UInt8) (i : Nat) : u16At b i =
    match b[i]?, b[i + 1]? with
    | some low, some high => low.toUInt16 ||| high.toUInt16 <<< 8
    | _, _ => 0 := by
  have hlow : b[i]? = (b.drop i)[0]? := by rw [List.getElem?_drop, Nat.add_zero]
  have hhigh : b[i + 1]? = (b.drop i)[1]? := by rw [List.getElem?_drop]
  unfold u16At
  rw [hlow, hhigh]
  obtain _ | ⟨x, _ | ⟨y, rest⟩⟩ := b.drop i <;> rfl

theorem u16At_congr {b b' : List UInt8} {i k : Nat} (hlow : b[i]? = b'[k]?)
    (hhigh : b[i + 1]? = b'[k + 1]?) : u16At b i = u16At b' k := by
  rw [u16At_eq, u16At_eq, hlow, hhigh]

theorem u32At_congr {b b' : List UInt8} {i k : Nat} (h : ∀ j < 4, b[i + j]? = b'[k + j]?) :
    u32At b i = u32At b' k := by
  have hlow : u16At b i = u16At b' k := u16At_congr (h 0 (by decide)) (h 1 (by decide))
  unfold u32At
  rw [hlow, u16At_congr (h 2 (by decide)) (h 3 (by decide))]

variable {input bytes : List UInt8} {e e' : Entry}

theorem HasAttributes.madeBy (h : HasAttributes input bytes e'.centralStart e)
    (he : DescribedAt input e) (he' : DescribedAt bytes e') : e'.madeBy = e.madeBy := by
  rw [he.madeBy, he'.madeBy]
  exact u16At_congr (h 4 (.inl (by decide))) (h 5 (.inl (by decide)))

theorem HasAttributes.internalAttributes (h : HasAttributes input bytes e'.centralStart e)
    (he : DescribedAt input e) (he' : DescribedAt bytes e') :
    e'.internalAttributes = e.internalAttributes := by
  rw [he.internalAttributes, he'.internalAttributes]
  exact u16At_congr (h 36 (.inr (by decide))) (h 37 (.inr (by decide)))

theorem HasAttributes.externalAttributes (h : HasAttributes input bytes e'.centralStart e)
    (he : DescribedAt input e) (he' : DescribedAt bytes e') :
    e'.externalAttributes = e.externalAttributes := by
  rw [he.externalAttributes, he'.externalAttributes]
  refine u32At_congr fun j hj => ?_
  rw [Nat.add_assoc, Nat.add_assoc]
  exact h (38 + j) (.inr (by omega))

end MethodGraft.Archive
