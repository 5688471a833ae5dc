import MethodGraft.Proofs.Bytes
import Mathlib.Data.List.Forall2

/-!
# Proofs.ClassFile.Reading — what a reader accepts

`Reads r G` says that the reader `r` accepts exactly the byte strings of the format `G`: it returns
`a` if and only if the input begins with bytes that `G` relates to `a`, and it leaves what follows
them.  One statement for each reader so gives both directions of a round trip.
-/

namespace MethodGraft.ClassFile

abbrev Format (α : Type) := α → List UInt8 → Prop

namespace Reader

variable {α β : Type}

/-- The reader accepts exactly the byte strings of the format and leaves what follows them. -/
def Reads (r : Reader α) (G : Format α) : Prop :=
  ∀ c a c', r c = .ok (a, c') ↔
    ∃ bytes, c.rest = bytes ++ c'.rest ∧ c'.offset = c.offset + bytes.length ∧ G a bytes

/-! ## 1. Composition -/

theorem bind_eq_ok {r : Reader α} {f : α → Reader β} {c c' : Cursor} {b : β} :
    (r >>= f) c = .ok (b, c') ↔ ∃ a d, r c = .ok (a, d) ∧ f a d = .ok (b, c') := by
  show (r c >>= fun p => f p.1 p.2) = _ ↔ _
  cases r c with
  | error e => simp [bind, Except.bind]
  | ok p =>
    obtain ⟨a, d⟩ := p
    simp [bind, Except.bind]

def Format.Then (G : Format α) (H : α → Format β) : Format β :=
  fun b bytes => ∃ a x y, bytes = x ++ y ∧ G a x ∧ H a b y

theorem Reads.congr {r : Reader α} {G H : Format α} (h : Reads r G)
    (hGH : ∀ a bytes, G a bytes ↔ H a bytes) : Reads r H := by
  intro c a c'
  rw [h c a c']
  simp only [hGH]

theorem Reads.bind {r : Reader α} {f : α → Reader β} {G : Format α} {H : α → Format β}
    (hr : Reads r G) (hf : ∀ a, Reads (f a) (H a)) : Reads (r >>= f) (Format.Then G H) := by
  intro c b c'
  rw [bind_eq_ok]
  constructor
  · rintro ⟨a, d, had, hbd⟩
    obtain ⟨x, hx, hoffset, hG⟩ := (hr c a d).mp had
    obtain ⟨y, hy, hoffset', hH⟩ := (hf a d b c').mp hbd
    refine ⟨x ++ y, by rw [hx, hy, List.append_assoc], ?_, a, x, y, rfl, hG, hH⟩
    rw [hoffset', hoffset, List.length_append, Nat.add_assoc]
  · rintro ⟨_, hrest, hoffset, a, x, y, rfl, hG, hH⟩
    rw [List.append_assoc] at hrest
    rw [List.length_append, ← Nat.add_assoc] at hoffset
    exact ⟨a, ⟨y ++ c'.rest, c.offset + x.length⟩, (hr _ _ _).mpr ⟨x, hrest, rfl, hG⟩,
      (hf a _ _ _).mpr ⟨y, rfl, hoffset, hH⟩⟩

theorem Reads.pure (a : α) : Reads (pure a) fun b bytes => b = a ∧ bytes = [] := by
  intro c b c'
  constructor
  · intro h
    cases h
    exact ⟨[], rfl, rfl, rfl, rfl⟩
  · rintro ⟨_, hrest, hoffset, rfl, rfl⟩
    obtain ⟨rest, offset⟩ := c
    obtain ⟨rest', offset'⟩ := c'
    cases hrest
    cases hoffset
    rfl

/-- What is read and then only looked at in another way. -/
theorem Reads.map {r : Reader α} {G : Format α} (hr : Reads r G) (g : α → β) :
    Reads (do return g (← r)) fun b bytes => ∃ a, b = g a ∧ G a bytes := by
  refine (hr.bind fun a => .pure (g a)).congr fun b bytes => ⟨?_, ?_⟩
  · rintro ⟨a, x, _, rfl, hG, rfl, rfl⟩
    exact ⟨a, rfl, by rwa [List.append_nil]⟩
  · rintro ⟨a, rfl, hG⟩
    exact ⟨a, bytes, [], (List.append_nil _).symm, hG, rfl, rfl⟩

theorem Reads.check (x : Except Error α) :
    Reads (check x) fun a bytes => x = .ok a ∧ bytes = [] := by
  intro c a c'
  cases x with
  | error e =>
    constructor
    · intro h
      cases h
    · rintro ⟨_, -, -, h, -⟩
      cases h
  | ok a' =>
    refine (Reads.pure a' c a c').trans ?_
    simp only [Except.ok.injEq, eq_comm]

theorem Reads.fail {α : Type} (cause : Cause) :
    Reads (Reader.check (fail cause) : Reader α) fun _ _ => False := by
  refine (Reads.check _).congr fun a bytes => ⟨?_, False.elim⟩
  rintro ⟨h, -⟩
  cases h

/-- After a failure nothing is read. -/
theorem Reads.afterFail {cause : Cause} {f : α → Reader β} :
    Reads (Reader.check (ClassFile.fail cause) >>= f) fun _ _ => False := by
  intro c b c'
  rw [bind_eq_ok]
  constructor
  · rintro ⟨a, d, h, -⟩
    cases h
  · rintro ⟨_, -, -, h⟩
    exact h.elim

/-- A reader that is given up if `c` holds. -/
theorem Reads.unless {c : Prop} [Decidable c] {cause : Cause} {f : α → Reader β} {r : Reader β}
    {G : Format β} (hr : ¬c → Reads r G) :
    Reads (if c then Reader.check (ClassFile.fail cause) >>= f else r)
    fun b bytes => ¬c ∧ G b bytes := by
  split
  next hc => exact Reads.afterFail.congr fun b bytes => ⟨False.elim, fun h => h.1 hc⟩
  next hc => exact (hr hc).congr fun b bytes => (and_iff_right hc).symm

/-- A check whose outcome is of no further use. -/
theorem Reads.checked {x : Except Error α} {r : Reader β} {G : Format β} (hr : Reads r G) :
    Reads (do let _ ← Reader.check x; r) fun b bytes => (∃ a, x = .ok a) ∧ G b bytes := by
  refine ((Reads.check x).bind fun _ => hr).congr fun b bytes => ⟨?_, ?_⟩
  · rintro ⟨a, _, y, rfl, ⟨hx, rfl⟩, hG⟩
    exact ⟨⟨a, hx⟩, hG⟩
  · rintro ⟨⟨a, hx⟩, hG⟩
    exact ⟨a, [], bytes, rfl, ⟨hx, rfl⟩, hG⟩

/-- Where something goes wrong is nothing to what is accepted. -/
theorem Reads.within {r : Reader α} {G : Format α} (hr : Reads r G) (p : Place) :
    Reads (within p r) G := by
  intro c a c'
  rw [← hr c a c']
  unfold Reader.within ClassFile.within Except.mapError
  cases r c <;> simp

/-! ## 2. Numbers and bytes -/

/-- A reader that accepts one byte string for each value. -/
theorem reads_of_code {r : Reader α} {code : α → List UInt8}
    (htakes : ∀ c a c', r c = .ok (a, c') → c = ⟨code a ++ c'.rest, c.offset⟩)
    (hgives : ∀ a rest offset, r ⟨code a ++ rest, offset⟩ =
      .ok (a, ⟨rest, offset + (code a).length⟩)) :
    Reads r fun a bytes => bytes = code a := by
  intro c a c'
  constructor
  · intro h
    have hc := htakes c a c' h
    rw [hc, hgives, Except.ok.injEq, Prod.mk.injEq] at h
    exact ⟨code a, congrArg Cursor.rest hc, (congrArg Cursor.offset h.2).symm, rfl⟩
  · rintro ⟨_, hrest, hoffset, rfl⟩
    obtain ⟨rest, offset⟩ := c
    obtain ⟨rest', offset'⟩ := c'
    dsimp only at hrest hoffset
    rw [hrest, hoffset]
    exact hgives a rest' offset

theorem reads_u8 : Reads u8 fun n bytes => bytes = [n] := by
  refine reads_of_code ?_ fun n rest offset => rfl
  rintro ⟨_ | ⟨a, rest⟩, offset⟩ n c' h <;> cases h
  rfl

theorem reads_u16 : Reads u16 fun n bytes => bytes = be16 n := by
  refine reads_of_code ?_ fun n rest offset => ?_
  · rintro ⟨_ | ⟨a, _ | ⟨b, rest⟩⟩, offset⟩ n c' h <;> cases h
    rw [be16_ofBe16]
    rfl
  · show Except.ok (ofBe16 _ _, _) = _
    rw [ofBe16_be16]
    rfl

theorem reads_u32 : Reads u32 fun n bytes => bytes = be32 n := by
  refine reads_of_code ?_ fun n rest offset => ?_
  · rintro ⟨_ | ⟨a, _ | ⟨b, _ | ⟨d, _ | ⟨e, rest⟩⟩⟩⟩, offset⟩ n c' h <;> cases h
    rw [be32_ofBe32]
    rfl
  · show Except.ok (ofBe32 _ _ _ _, _) = _
    rw [ofBe32_be32]
    rfl

theorem reads_u64 : Reads u64 fun n bytes => bytes = be64 n := by
  refine (reads_u32.bind fun high => reads_u32.map fun low => ofBe64 high low).congr
    fun n bytes => ⟨?_, ?_⟩
  · rintro ⟨high, _, _, rfl, rfl, low, rfl, rfl⟩
    rw [be64, ofBe64_high, ofBe64_low]
  · rintro rfl
    exact ⟨(n >>> 32).toUInt32, _, _, rfl, rfl, n.toUInt32, (ofBe64_halves n).symm, rfl⟩

theorem splitExactly_eq_some_iff {n : Nat} {taken items xs ys : List α} :
    splitExactly n taken items = some (xs, ys) ↔
      ∃ zs, zs.length = n ∧ xs = taken.reverse ++ zs ∧ items = zs ++ ys := by
  induction n generalizing taken items with
  | zero =>
    simp only [splitExactly, Option.some.injEq, Prod.mk.injEq, List.length_eq_zero_iff]
    constructor
    · rintro ⟨rfl, rfl⟩
      exact ⟨[], rfl, (List.append_nil _).symm, rfl⟩
    · rintro ⟨_, rfl, rfl, rfl⟩
      exact ⟨(List.append_nil _).symm, rfl⟩
  | succ n ih =>
    cases items with
    | nil =>
      simp only [splitExactly, reduceCtorEq, false_iff]
      rintro ⟨zs, hlength, -, hnil⟩
      rw [List.nil_eq, List.append_eq_nil_iff] at hnil
      rw [hnil.1] at hlength
      cases hlength
    | cons a items =>
      rw [splitExactly, ih]
      constructor
      · rintro ⟨zs, rfl, rfl, rfl⟩
        exact ⟨a :: zs, rfl, by simp, rfl⟩
      · rintro ⟨_ | ⟨z, zs⟩, hlength, rfl, hitems⟩ <;> cases hlength
        cases hitems
        exact ⟨zs, rfl, by simp, rfl⟩

theorem reads_bytes (n : Nat) : Reads (bytes n) fun xs bytes => bytes = xs ∧ xs.length = n := by
  rintro ⟨rest, offset⟩ xs ⟨rest', offset'⟩
  unfold bytes
  cases hsplit : splitExactly n [] rest with
  | none =>
    simp only [truncated, fail, reduceCtorEq, false_iff]
    rintro ⟨zs, hrest, -, rfl, hlength⟩
    have h : splitExactly n [] rest = some (zs, rest') :=
      splitExactly_eq_some_iff.mpr ⟨zs, hlength, rfl, hrest⟩
    rw [hsplit] at h
    cases h
  | some p =>
    obtain ⟨xs', ys⟩ := p
    obtain ⟨zs, hlength, hzs, hrest⟩ := splitExactly_eq_some_iff.mp hsplit
    rw [List.reverse_nil, List.nil_append] at hzs
    subst hzs
    simp only [Except.ok.injEq, Prod.mk.injEq, Cursor.mk.injEq]
    constructor
    · rintro ⟨rfl, rfl, rfl⟩
      exact ⟨xs', hrest, by rw [hlength], rfl, hlength⟩
    · rintro ⟨_, hrest', hoffset, rfl, hlength'⟩
      obtain ⟨hxs, hys⟩ := List.append_inj (hrest.symm.trans hrest') (hlength.trans hlength'.symm)
      exact ⟨hxs, hys, by rw [hoffset, hlength']⟩

/-! ## 3. Several items -/

def Format.Each (G : Format α) : Format (List α) :=
  fun items bytes => ∃ parts, List.Forall₂ G items parts ∧ bytes = parts.flatten

/-- One item is read, and then the others. -/
theorem timesFrom_succ (item : Nat → Reader α) (i n : Nat) (items : List α) :
    timesFrom item i (n + 1) items = (do
      let a ← item i
      timesFrom item (i + 1) n (a :: items)) := by
  funext c
  show _ = (item i c >>= fun p => timesFrom item (i + 1) n (p.1 :: items) p.2)
  rw [timesFrom]
  cases item i c <;> rfl

theorem reads_timesFrom {item : Nat → Reader α} {G : Format α} (h : ∀ i, Reads (item i) G)
    (i n : Nat) (items : List α) : Reads (timesFrom item i n items) fun as bytes =>
      ∃ more, as = items.reverse ++ more ∧ more.length = n ∧ Format.Each G more bytes := by
  induction n generalizing i items with
  | zero =>
    refine (Reads.pure items.reverse).congr fun as bytes => ⟨?_, ?_⟩
    · rintro ⟨rfl, rfl⟩
      exact ⟨[], (List.append_nil _).symm, rfl, [], .nil, rfl⟩
    · rintro ⟨more, rfl, hlength, parts, hparts, rfl⟩
      cases List.length_eq_zero_iff.mp hlength
      cases hparts
      exact ⟨List.append_nil _, rfl⟩
  | succ n ih =>
    rw [timesFrom_succ]
    refine ((h i).bind fun a => ih (i + 1) (a :: items)).congr fun as bytes => ⟨?_, ?_⟩
    · rintro ⟨a, x, _, rfl, hG, more, rfl, rfl, parts, hparts, rfl⟩
      exact ⟨a :: more, by simp, rfl, x :: parts, .cons hG hparts, rfl⟩
    · rintro ⟨_ | ⟨a, more⟩, rfl, hlength, parts, hparts, rfl⟩ <;> cases hlength
      cases hparts with
      | cons hG hparts => exact ⟨a, _, _, rfl, hG, more, by simp, rfl, _, hparts, rfl⟩

def Format.Counted (G : Format α) : Format (List α) :=
  fun items bytes => items.length ≤ 65535 ∧
    ∃ rest, bytes = be16 (UInt16.ofNat items.length) ++ rest ∧ Format.Each G items rest

theorem reads_counted {item : Nat → Reader α} {G : Format α} (h : ∀ i, Reads (item i) G) :
    Reads (counted item) (Format.Counted G) := by
  refine (reads_u16.bind fun n => reads_timesFrom h 0 n.toNat []).congr fun items bytes => ⟨?_, ?_⟩
  · rintro ⟨n, _, rest, rfl, rfl, more, rfl, hlength, heach⟩
    refine ⟨?_, rest, ?_, heach⟩
    · rw [hlength]
      exact Nat.le_of_lt_succ n.toNat_lt
    · rw [hlength, UInt16.ofNat_toNat]
  · rintro ⟨hlength, rest, rfl, heach⟩
    exact ⟨UInt16.ofNat items.length, _, rest, rfl, rfl, items, rfl,
      (UInt16.toNat_ofNat_of_lt (Nat.lt_succ_of_le hlength)).symm, heach⟩

end Reader

end MethodGraft.ClassFile
