import Mathlib.Data.Nat.Digits.Lemmas
import MethodGraft.Proofs.Source.Numerals
import MethodGraft.Proofs.Source.Separation

/-!
# Proofs.Source.Spellings.Numbers — how numbers are spelled

A spelling is given in front of the text that comes after it, because digits go on as far as they
can, a suffix is there if it can be, and of several forms that fit the first one wins.  The readers
of numbers read just what is spelled.  No number holds a line feed.
-/

namespace MethodGraft.Source

variable {p : Char → Bool} {s w after rest digits mark : List Char} {t : Token} {base value n : Nat}
    {long : Bool}

/-! ## 1. Readers and what they read -/

/-- A way to spell tokens: the token, its spelling, and the text that comes after it. -/
abbrev Spelling := Token → List Char → List Char → Prop

def Absent (P : Spelling) (s : List Char) : Prop := ∀ t w after, s = w ++ after → ¬ P t w after

def First (P Q : Spelling) : Spelling :=
  fun t w after => P t w after ∨ Absent P (w ++ after) ∧ Q t w after

/-- The reader reads just what is spelled like this. -/
def Reads (read : List Char → Option (Token × List Char)) (P : Spelling) : Prop :=
  ∀ {s t after}, read s = some (t, after) ↔ ∃ w, s = w ++ after ∧ P t w after

section

variable {P Q : Spelling} {read next : List Char → Option (Token × List Char)}

theorem Reads.eq_none_iff (h : Reads read P) : read s = none ↔ Absent P s := by
  constructor
  · intro hnone t w after hs hw
    rw [h.mpr ⟨w, hs, hw⟩] at hnone
    cases hnone
  · intro habsent
    refine Option.eq_none_iff_forall_ne_some.mpr fun ⟨t, after⟩ hread => ?_
    obtain ⟨w, hs, hw⟩ := h.mp hread
    exact habsent t w after hs hw

/-- The second reader has its turn where the first one reads nothing. -/
theorem Reads.orElse (h : Reads read P) (hnext : Reads next Q) :
    Reads (fun s => read s <|> next s) (First P Q) := by
  intro s t after
  rw [Option.orElse_eq_some, h, h.eq_none_iff, hnext]
  constructor
  · rintro (⟨w, hs, hw⟩ | ⟨habsent, w, rfl, hw⟩)
    · exact ⟨w, hs, .inl hw⟩
    · exact ⟨w, rfl, .inr ⟨habsent, hw⟩⟩
  · rintro ⟨w, rfl, hw | ⟨habsent, hw⟩⟩
    · exact .inl ⟨w, rfl, hw⟩
    · exact .inr ⟨habsent, w, rfl, hw⟩

end

def Optional (P : List Char → List Char → Prop) (w after : List Char) : Prop :=
  P w after ∨ w = [] ∧ ∀ x rest, after = x ++ rest → ¬ P x rest

theorem getD_eq_iff {P : List Char → List Char → Prop} (drop : List Char → Option (List Char))
    (h : ∀ s after, drop s = some after ↔ ∃ w, s = w ++ after ∧ P w after) :
    (drop s).getD s = after ↔ ∃ w, s = w ++ after ∧ Optional P w after := by
  have hnone : drop s = none ↔ ∀ x rest, s = x ++ rest → ¬ P x rest := by
    simp only [Option.eq_none_iff_forall_ne_some, ne_eq, h, not_exists, not_and]
    exact ⟨fun hall x rest => hall rest x, fun hall rest x => hall x rest⟩
  constructor
  · rintro rfl
    cases hdrop : drop s with
    | none => exact ⟨[], rfl, .inr ⟨rfl, hnone.mp hdrop⟩⟩
    | some rest =>
      obtain ⟨w, hs, hw⟩ := (h s rest).mp hdrop
      exact ⟨w, hs, .inl hw⟩
  · rintro ⟨w, rfl, hw | ⟨rfl, hw⟩⟩
    · rw [(h _ after).mpr ⟨w, rfl, hw⟩, Option.getD_some]
    · rw [List.nil_append] at hnone ⊢
      rw [hnone.mpr hw, Option.getD_none]

/-! ## 2. Runs of characters -/

/-- All of `w` has the property, and what comes after it does not go on with it. -/
structure Run (p : Char → Bool) (w after : List Char) : Prop where
  all : ∀ a ∈ w, p a = true
  ends : ∀ b ∈ after.head?, p b = false

theorem takeWhile_eq_nil_iff_head? : after.takeWhile p = [] ↔ ∀ b ∈ after.head?, p b = false := by
  cases after with
  | nil => simp
  | cons b after => cases hb : p b <;> simp [hb]

/-- Characters are taken off the front as far as they have the property. -/
theorem run_iff : s = w ++ after ∧ Run p w after ↔ s.takeWhile p = w ∧ s.dropWhile p = after := by
  constructor
  · rintro ⟨rfl, hall, hends⟩
    have hstop := takeWhile_eq_nil_iff_head?.mpr hends
    exact ⟨takeWhile_append_eq hall hstop, dropWhile_append_eq hall hstop⟩
  · rintro ⟨rfl, rfl⟩
    refine ⟨List.takeWhile_append_dropWhile.symm, fun a ha => List.mem_takeWhile_imp ha, ?_⟩
    intro b hb
    have hhead := List.head?_dropWhile_not p s
    rw [hb] at hhead
    simpa using hhead

theorem run_takeWhile (p : Char → Bool) (s : List Char) :
    s = s.takeWhile p ++ s.dropWhile p ∧ Run p (s.takeWhile p) (s.dropWhile p) :=
    run_iff.mpr ⟨rfl, rfl⟩

theorem Run.takeWhile (h : Run p w after) : (w ++ after).takeWhile p = w := (run_iff.mp ⟨rfl, h⟩).1

theorem Run.dropWhile (h : Run p w after) : (w ++ after).dropWhile p = after :=
  (run_iff.mp ⟨rfl, h⟩).2

def DigitRun (w after : List Char) : Prop :=
  ∃ c more, w = c :: more ∧ isDecimal c = true ∧ Run continuesDigits more after

theorem readDigits_eq_some_iff : readDigits s = some (w, after) ↔
    s = w ++ after ∧ DigitRun w after := by
  cases s with
  | nil =>
    simp only [readDigits, reduceCtorEq, false_iff]
    rintro ⟨hnil, c, more, rfl, -⟩
    cases hnil
  | cons c s =>
    simp only [readDigits]
    constructor
    · intro h
      split at h
      next hc =>
        cases h
        obtain ⟨hs, hrun⟩ := run_iff.mpr ⟨rfl, rfl⟩
        exact ⟨congrArg (c :: ·) hs, c, _, rfl, hc, hrun⟩
      next => cases h
    · rintro ⟨hs, c', more, rfl, hc, hrun⟩
      obtain ⟨rfl, rfl⟩ : c = c' ∧ s = more ++ after := List.cons.inj hs
      rw [if_pos hc, hrun.takeWhile, hrun.dropWhile]

/-! ## 3. Numbers -/

/-- The value of digits, the highest first.  Underscores count for nothing. -/
def HasValue (base : Nat) (s : List Char) (n : Nat) : Prop :=
  ∃ ds : List Nat, (s.filter (· != '_')).map (digitValue? base) = ds.map some ∧
    Nat.ofDigits base ds.reverse = n

theorem valueOnto_eq_some_iff : valueOnto base value s = some n ↔
    ∃ ds : List Nat, (s.filter (· != '_')).map (digitValue? base) = ds.map some ∧
      ds.foldl (fun v d => v * base + d) value = n := by
  fun_induction valueOnto base value s with
  | case1 value =>
    constructor
    · intro h
      exact ⟨[], rfl, Option.some.inj h⟩
    · rintro ⟨ds, hds, rfl⟩
      cases ds with
      | nil => rfl
      | cons d ds => cases hds
  | case2 value s ih => simpa using ih
  | case3 value c s hunderscore d hd ih =>
    rw [ih, List.filter_cons_of_pos (by simpa using hunderscore), List.map_cons, hd]
    constructor
    · rintro ⟨ds, hds, rfl⟩
      exact ⟨d :: ds, by rw [List.map_cons, hds], rfl⟩
    · rintro ⟨_ | ⟨e, ds⟩, hds, rfl⟩
      · cases hds
      · obtain ⟨hhead, htail⟩ := List.cons.inj hds
        cases hhead
        exact ⟨ds, htail, rfl⟩
  -- a character that is no digit has no value
  | case4 value c s hunderscore hnone =>
    rw [List.filter_cons_of_pos (by simpa using hunderscore), List.map_cons, hnone]
    simp only [reduceCtorEq, false_iff]
    rintro ⟨_ | ⟨e, ds⟩, hds, -⟩ <;> cases hds

theorem valueOnto_iff_hasValue : valueOnto base 0 s = some n ↔ HasValue base s n := by
  rw [valueOnto_eq_some_iff, HasValue]
  simp only [Nat.ofDigits_eq_foldr, List.foldr_reverse, Nat.add_comm, Nat.mul_comm, Nat.cast_id]

inductive DecimalToken (n : Nat) : (long : Bool) → Token → Prop
  | int : n ≤ 2 ^ 31 → DecimalToken n false (.int n)
  | long : n ≤ 2 ^ 63 → DecimalToken n true (.long (Int64.ofNat n))

inductive BitsToken : (n : Nat) → (long : Bool) → Token → Prop
  | int (v : Int32) : BitsToken v.toUInt32.toNat false (.int v.toInt)
  | long (v : Int64) : BitsToken v.toUInt64.toNat true (.long v)

theorem ofDecimal?_eq_some_iff : ofDecimal? n long = some t ↔ DecimalToken n long t := by
  unfold ofDecimal?
  constructor
  · intro h
    cases long with
    | false =>
      rw [if_neg (by decide)] at h
      split at h
      next hle =>
        cases h
        exact .int hle
      next => cases h
    | true =>
      rw [if_pos rfl] at h
      split at h
      next hle =>
        cases h
        exact .long hle
      next => cases h
  · intro h
    cases h with
    | int hle => exact if_pos hle
    | long hle => exact if_pos hle

theorem ofBits?_eq_some_iff : ofBits? n long = some t ↔ BitsToken n long t := by
  constructor
  · intro h
    unfold ofBits? at h
    cases long with
    | false =>
      rw [if_neg (by decide)] at h
      split at h
      next hlt =>
        cases h
        have htoken := BitsToken.int (UInt32.ofNat n).toInt32
        rwa [UInt32.toUInt32_toInt32, UInt32.toNat_ofNat', Nat.mod_eq_of_lt hlt] at htoken
      next => cases h
    | true =>
      rw [if_pos rfl] at h
      split at h
      next hlt =>
        cases h
        have htoken := BitsToken.long (UInt64.ofNat n).toInt64
        rwa [UInt64.toUInt64_toInt64, UInt64.toNat_ofNat', Nat.mod_eq_of_lt hlt] at htoken
      next => cases h
  · intro h
    cases h with
    | int v => exact ofBits?_int v
    | long v => exact ofBits?_long v

def Mark (long : Bool) (mark after : List Char) : Prop :=
  WidthMark long mark ∧ (long = false → ∀ b ∈ after.head?, b ≠ 'l' ∧ b ≠ 'L')

theorem dropLongSuffix_eq_iff :
    dropLongSuffix s = (long, after) ↔ ∃ mark, s = mark ++ after ∧ Mark long mark after := by
  constructor
  · intro h
    unfold dropLongSuffix at h
    split at h
    next =>
      cases h
      exact ⟨['l'], rfl, .lower, nofun⟩
    next =>
      cases h
      exact ⟨['L'], rfl, .upper, nofun⟩
    next hlower hupper =>
      cases h
      refine ⟨[], rfl, .int, fun _ b hb => ?_⟩
      obtain ⟨rest, rfl⟩ := List.head?_eq_some_iff.mp hb
      exact ⟨fun h => hlower rest (h ▸ rfl), fun h => hupper rest (h ▸ rfl)⟩
  · rintro ⟨mark, rfl, hmark, hends⟩
    cases hmark with
    | int =>
      rw [List.nil_append]
      unfold dropLongSuffix
      split
      next => exact absurd rfl (hends rfl 'l' rfl).1
      next => exact absurd rfl (hends rfl 'L' rfl).2
      next => rfl
    | lower => rfl
    | upper => rfl

def Exponent (w after : List Char) : Prop :=
  ∃ e digits, w = e :: digits ∧ (e = 'e' ∨ e = 'E') ∧ DigitRun digits after

def FloatSuffix (w _after : List Char) : Prop := ∃ c, w = [c] ∧ isFloatSuffix c = true

inductive FloatTail : (w after : List Char) → Prop
  | point {digits exponent suffix after : List Char} :
    Optional DigitRun digits (exponent ++ (suffix ++ after)) →
    Optional Exponent exponent (suffix ++ after) → Optional FloatSuffix suffix after →
    FloatTail ('.' :: (digits ++ (exponent ++ suffix))) after
  | exponent {exponent suffix after : List Char} : Exponent exponent (suffix ++ after) →
    Optional FloatSuffix suffix after → FloatTail (exponent ++ suffix) after
  | suffix {w after : List Char} : FloatSuffix w after → FloatTail w after

inductive SpellsFloat : Spelling
  | float {digits tail after : List Char} : DigitRun digits (tail ++ after) → FloatTail tail after →
    SpellsFloat (.float (String.ofList (digits ++ tail))) (digits ++ tail) after

inductive SpellsHex : Spelling
  | hex {x : Char} {digits mark after : List Char} {n : Nat} {long : Bool} {t : Token} :
    x = 'x' ∨ x = 'X' →
    digits ≠ [] → Run (isDigitOf 16) digits (mark ++ after) → HasValue 16 digits n →
      Mark long mark after →
    BitsToken n long t → SpellsHex t ('0' :: x :: (digits ++ mark)) after

inductive SpellsOctal : Spelling
  | octal {digits mark after : List Char} {n : Nat} {long : Bool} {t : Token} : digits ≠ [] →
    Run continuesDigits digits (mark ++ after) → HasValue 8 digits n → Mark long mark after →
      BitsToken n long t →
    SpellsOctal t ('0' :: (digits ++ mark)) after

/-- The spellings of decimal literals, which start with no zero unless it is their only digit. -/
inductive SpellsInteger : Spelling
  | decimal {digits mark after : List Char} {n : Nat} {long : Bool} {t : Token} :
    DigitRun digits (mark ++ after) →
    (digits.head? = some '0' → digits = ['0']) → HasValue 10 digits n → Mark long mark after →
    DecimalToken n long t → SpellsInteger t (digits ++ mark) after

def SpellsNumber : Spelling := First SpellsFloat (First SpellsHex (First SpellsOctal SpellsInteger))

theorem dropExponent?_eq_some_iff : dropExponent? s = some after ↔
    ∃ w, s = w ++ after ∧ Exponent w after := by
  cases s with
  | nil =>
    simp only [dropExponent?, reduceCtorEq, false_iff]
    rintro ⟨w, hnil, e, digits, rfl, -⟩
    cases hnil
  | cons c s =>
    simp only [dropExponent?]
    constructor
    · intro h
      split at h
      next hc =>
        obtain ⟨⟨digits, after⟩, hdigits, rfl⟩ := Option.map_eq_some_iff.mp h
        obtain ⟨rfl, hrun⟩ := readDigits_eq_some_iff.mp hdigits
        exact ⟨c :: digits, rfl, c, digits, rfl, hc, hrun⟩
      next => cases h
    · rintro ⟨w, hs, e, digits, rfl, he, hrun⟩
      obtain ⟨rfl, rfl⟩ : c = e ∧ s = digits ++ after := List.cons.inj hs
      rw [if_pos he, readDigits_eq_some_iff.mpr ⟨rfl, hrun⟩]
      rfl

theorem dropDigits_eq_iff : dropDigits s = after ↔
    ∃ w, s = w ++ after ∧ Optional DigitRun w after := by
  have hdrop : dropDigits s = ((readDigits s).map Prod.snd).getD s := by
    unfold dropDigits
    cases readDigits s <;> rfl
  rw [hdrop]
  refine getD_eq_iff (fun s => (readDigits s).map Prod.snd) fun s after => ?_
  simp only [Option.map_eq_some_iff, Prod.exists, exists_eq_right, readDigits_eq_some_iff]

theorem dropFloatSuffix_eq_iff : dropFloatSuffix s = after ↔
    ∃ w, s = w ++ after ∧ Optional FloatSuffix w after := by
  constructor
  · rintro rfl
    cases s with
    | nil =>
      refine ⟨[], rfl, .inr ⟨rfl, ?_⟩⟩
      rintro x rest hx ⟨c, rfl, -⟩
      cases hx
    | cons c s =>
      simp only [dropFloatSuffix]
      split
      next hc => exact ⟨[c], rfl, .inl ⟨c, rfl, hc⟩⟩
      next hc =>
        refine ⟨[], rfl, .inr ⟨rfl, ?_⟩⟩
        rintro x rest hx ⟨d, rfl, hd⟩
        cases hx
        exact hc hd
  · rintro ⟨w, rfl, ⟨c, rfl, hc⟩ | ⟨rfl, habsent⟩⟩
    · exact if_pos hc
    · cases after with
      | nil => rfl
      | cons c after => exact if_neg fun hc => habsent [c] after rfl ⟨c, rfl, hc⟩

theorem dropExponent?_getD_eq_iff :
    (dropExponent? s).getD s = after ↔ ∃ w, s = w ++ after ∧ Optional Exponent w after :=
  getD_eq_iff dropExponent? fun _ _ => dropExponent?_eq_some_iff

theorem FloatTail.of_dropFloatTail? (h : dropFloatTail? s = some after) :
    ∃ w, s = w ++ after ∧ FloatTail w after := by
  unfold dropFloatTail? at h
  split at h
  next s =>
    cases h
    -- behind the point everything may be missing
    obtain ⟨digits, hs, hdigits⟩ := dropDigits_eq_iff.mp (rfl : dropDigits s = _)
    generalize dropDigits s = rest at hs hdigits
    subst hs
    obtain ⟨exponent, hrest, hexponent⟩ :=
      dropExponent?_getD_eq_iff.mp (rfl : (dropExponent? rest).getD rest = _)
    generalize (dropExponent? rest).getD rest = rest' at hrest hexponent
    subst hrest
    obtain ⟨suffix, hrest', hsuffix⟩ := dropFloatSuffix_eq_iff.mp (rfl : dropFloatSuffix rest' = _)
    generalize dropFloatSuffix rest' = after at hrest' hsuffix
    subst hrest'
    exact ⟨'.' :: (digits ++ (exponent ++ suffix)), by simp, .point hdigits hexponent hsuffix⟩
  next =>
    split at h
    next rest hrest =>
      cases h
      obtain ⟨exponent, rfl, hexponent⟩ := dropExponent?_eq_some_iff.mp hrest
      obtain ⟨suffix, hrest, hsuffix⟩ := dropFloatSuffix_eq_iff.mp (rfl : dropFloatSuffix rest = _)
      generalize dropFloatSuffix rest = after at hrest hsuffix
      subst hrest
      exact ⟨exponent ++ suffix, (List.append_assoc _ _ _).symm, .exponent hexponent hsuffix⟩
    next =>
      split at h
      next c s _ _ =>
        split at h
        next hc =>
          cases h
          exact ⟨[c], rfl, .suffix ⟨c, rfl, hc⟩⟩
        next => cases h
      next => cases h

/-- A digit that an exponent or a suffix starts with is no point. -/
theorem FloatTail.dropFloatTail? (h : FloatTail w after) :
    dropFloatTail? (w ++ after) = some after := by
  cases h with
  | @point digits exponent suffix _ hdigits hexponent hsuffix =>
    have hpoint := dropDigits_eq_iff.mpr ⟨digits, rfl, hdigits⟩
    have hpower := dropExponent?_getD_eq_iff.mpr ⟨exponent, rfl, hexponent⟩
    have hletter := dropFloatSuffix_eq_iff.mpr ⟨suffix, rfl, hsuffix⟩
    simp only [List.cons_append, List.append_assoc, Source.dropFloatTail?, hpoint, hpower, hletter]
  | @exponent exponent suffix _ hexponent hsuffix =>
    have hdrop : dropExponent? (exponent ++ (suffix ++ after)) = some (suffix ++ after) :=
      dropExponent?_eq_some_iff.mpr ⟨exponent, rfl, hexponent⟩
    obtain ⟨e, digits, rfl, he, -⟩ := hexponent
    have hpoint : e ≠ '.' := by
      rintro rfl
      simp at he
    rw [List.append_assoc, List.cons_append, dropFloatTail?_of_ne hpoint, ← List.cons_append, hdrop]
    exact congrArg some (dropFloatSuffix_eq_iff.mpr ⟨suffix, rfl, hsuffix⟩)
  | suffix hsuffix =>
    obtain ⟨c, rfl, hc⟩ := hsuffix
    have hpoint : c ≠ '.' := by
      rintro rfl
      exact absurd hc (by decide)
    have hexponent : ¬ (c = 'e' ∨ c = 'E') := by
      rintro (rfl | rfl) <;> exact absurd hc (by decide)
    rw [List.singleton_append, dropFloatTail?_of_ne hpoint, Source.dropExponent?, if_neg hexponent]
    exact if_pos hc

theorem spanBefore_append_right (w after : List Char) : spanBefore (w ++ after) after = w := by
  rw [spanBefore, List.length_append, Nat.add_sub_cancel, List.take_left]

theorem reads_float : Reads readFloat SpellsFloat := by
  intro s t after
  constructor
  · intro h
    simp only [readFloat, Option.bind_eq_bind, Option.bind_eq_some_iff, Option.pure_def,
      Option.some.injEq, Prod.mk.injEq] at h
    obtain ⟨⟨digits, rest⟩, hdigits, _, htail, rfl, rfl⟩ := h
    obtain ⟨rfl, hrun⟩ := readDigits_eq_some_iff.mp hdigits
    obtain ⟨tail, rfl, hfloat⟩ := FloatTail.of_dropFloatTail? htail
    rw [← List.append_assoc, spanBefore_append_right]
    exact ⟨_, rfl, .float hrun hfloat⟩
  · rintro ⟨w, rfl, @⟨digits, tail, _, hrun, htail⟩⟩
    have hdigits := readDigits_eq_some_iff.mpr ⟨rfl, hrun⟩
    rw [readFloat, List.append_assoc, hdigits]
    simp only [Option.bind_eq_bind, Option.bind_some, htail.dropFloatTail?, Option.pure_def,
      ← List.append_assoc, spanBefore_append_right]

theorem reads_hex : Reads readHex SpellsHex := by
  intro s t after
  constructor
  · intro h
    unfold readHex at h
    split at h
    next x s =>
      obtain ⟨hs, hrun⟩ := run_takeWhile (isDigitOf 16) s
      generalize s.takeWhile (isDigitOf 16) = digits, s.dropWhile (isDigitOf 16) = rest at h hs hrun
      obtain ⟨⟨long, rest'⟩, hdrop⟩ : ∃ r, dropLongSuffix rest = r := ⟨_, rfl⟩
      obtain ⟨mark, rfl, hmark⟩ := dropLongSuffix_eq_iff.mp hdrop
      simp only [hdrop, Option.bind_eq_bind, Option.pure_def, Option.ite_none_right_eq_some,
        Option.ite_none_left_eq_some, Option.bind_eq_some_iff, Option.some.injEq, Prod.mk.injEq]
        at h
      obtain ⟨hx, hne, n, hn, u, hu, rfl, rfl⟩ := h
      exact ⟨_, by simp [hs], .hex hx (by simpa using hne) hrun (valueOnto_iff_hasValue.mp hn) hmark
        (ofBits?_eq_some_iff.mp hu)⟩
    next => cases h
  · rintro ⟨w, rfl, @⟨x, digits, mark, _, n, long, _, hx, hne, hrun, hvalue, hmark, htoken⟩⟩
    have hdrop := dropLongSuffix_eq_iff.mpr ⟨mark, rfl, hmark⟩
    simp only [List.cons_append, List.append_assoc, readHex, if_pos hx, hrun.takeWhile,
      hrun.dropWhile, valueOnto_iff_hasValue.mpr hvalue, Option.bind_eq_bind, Option.bind_some,
      hdrop]
    rw [if_neg (by simpa using hne), ofBits?_eq_some_iff.mpr htoken]
    rfl

theorem reads_octal : Reads readOctal SpellsOctal := by
  intro s t after
  constructor
  · intro h
    unfold readOctal at h
    split at h
    next s =>
      obtain ⟨hs, hrun⟩ := run_takeWhile continuesDigits s
      generalize s.takeWhile continuesDigits = digits, s.dropWhile continuesDigits = rest
        at h hs hrun
      obtain ⟨⟨long, rest'⟩, hdrop⟩ : ∃ r, dropLongSuffix rest = r := ⟨_, rfl⟩
      obtain ⟨mark, rfl, hmark⟩ := dropLongSuffix_eq_iff.mp hdrop
      simp only [hdrop, Option.bind_eq_bind, Option.pure_def, Option.ite_none_left_eq_some,
        Option.bind_eq_some_iff, Option.some.injEq, Prod.mk.injEq] at h
      obtain ⟨hne, n, hn, u, hu, rfl, rfl⟩ := h
      exact ⟨_, by simp [hs], .octal (by simpa using hne) hrun (valueOnto_iff_hasValue.mp hn) hmark
        (ofBits?_eq_some_iff.mp hu)⟩
    next => cases h
  · rintro ⟨w, rfl, @⟨digits, mark, _, n, long, _, hne, hrun, hvalue, hmark, htoken⟩⟩
    have hdrop := dropLongSuffix_eq_iff.mpr ⟨mark, rfl, hmark⟩
    simp only [List.cons_append, List.append_assoc, readOctal, hrun.takeWhile, hrun.dropWhile,
      valueOnto_iff_hasValue.mpr hvalue, Option.bind_eq_bind, Option.bind_some, hdrop]
    rw [if_neg (by simpa using hne), ofBits?_eq_some_iff.mpr htoken]
    rfl

theorem reads_integer : Reads readDecimal SpellsInteger := by
  intro s t after
  constructor
  · intro h
    simp only [readDecimal, Option.bind_eq_bind, Option.bind_eq_some_iff] at h
    obtain ⟨⟨digits, rest⟩, hdigits, h⟩ := h
    obtain ⟨rfl, hrun⟩ := readDigits_eq_some_iff.mp hdigits
    split at h
    next => cases h
    next hzero =>
      obtain ⟨⟨long, rest'⟩, hdrop⟩ : ∃ r, dropLongSuffix rest = r := ⟨_, rfl⟩
      obtain ⟨mark, rfl, hmark⟩ := dropLongSuffix_eq_iff.mp hdrop
      simp only [hdrop, Option.bind_eq_some_iff, Option.pure_def, Option.some.injEq, Prod.mk.injEq]
        at h
      obtain ⟨n, hn, u, hu, rfl, rfl⟩ := h
      refine ⟨digits ++ mark, (List.append_assoc _ _ _).symm, .decimal hrun (fun hhead => ?_)
        (valueOnto_iff_hasValue.mp hn) hmark (ofDecimal?_eq_some_iff.mp hu)⟩
      -- a zero at the front is the only digit
      obtain _ | ⟨c, _ | ⟨d, more⟩⟩ := digits
      · cases hhead
      · cases hhead
        rfl
      · cases hhead
        exact absurd rfl (hzero d more)
  · rintro ⟨w, rfl, @⟨digits, mark, _, n, long, _, hrun, hzero, hvalue, hmark, htoken⟩⟩
    have hdigits := readDigits_eq_some_iff.mpr ⟨rfl, hrun⟩
    have hdrop := dropLongSuffix_eq_iff.mpr ⟨mark, rfl, hmark⟩
    rw [readDecimal, List.append_assoc, hdigits]
    simp only [Option.bind_eq_bind, Option.bind_some]
    split
    next => cases hzero rfl
    next =>
      simp only [valueOnto_iff_hasValue.mpr hvalue, Option.bind_some, hdrop]
      rw [ofDecimal?_eq_some_iff.mpr htoken]
      rfl

theorem reads_number : Reads readNumber SpellsNumber :=
  reads_float.orElse (reads_hex.orElse (reads_octal.orElse reads_integer))

/-! ## 4. Line feeds -/

theorem Run.notMem {b : Char} (h : Run p w after) (hb : p b = false) : b ∉ w := by
  intro hmem
  rw [h.all b hmem] at hb
  cases hb

theorem DigitRun.lineFeed_notMem (h : DigitRun w after) : '\n' ∉ w := by
  obtain ⟨c, more, rfl, hc, hrun⟩ := h
  have hne : c ≠ '\n' := by
    rintro rfl
    exact absurd hc (by decide)
  simp [hne.symm, hrun.notMem (b := '\n') (by decide)]

theorem WidthMark.lineFeed_notMem (h : WidthMark long mark) : '\n' ∉ mark := by
  cases h <;> decide

theorem Exponent.lineFeed_notMem (h : Exponent w after) : '\n' ∉ w := by
  obtain ⟨e, digits, rfl, he, hrun⟩ := h
  have hne : e ≠ '\n' := by
    rintro rfl
    simp at he
  simp [hne.symm, hrun.lineFeed_notMem]

theorem FloatSuffix.lineFeed_notMem (h : FloatSuffix w after) : '\n' ∉ w := by
  obtain ⟨c, rfl, hc⟩ := h
  rw [List.mem_singleton]
  rintro rfl
  exact absurd hc (by decide)

theorem Optional.notMem {P : List Char → List Char → Prop} {b : Char} (h : Optional P w after)
    (hP : P w after → b ∉ w) : b ∉ w := by
  obtain h | ⟨rfl, -⟩ := h
  · exact hP h
  · exact List.not_mem_nil

theorem FloatTail.lineFeed_notMem (h : FloatTail w after) : '\n' ∉ w := by
  cases h with
  | point hdigits hexponent hsuffix =>
    simp [hdigits.notMem DigitRun.lineFeed_notMem, hexponent.notMem Exponent.lineFeed_notMem,
      hsuffix.notMem FloatSuffix.lineFeed_notMem]
  | exponent hexponent hsuffix =>
    simp [hexponent.lineFeed_notMem, hsuffix.notMem FloatSuffix.lineFeed_notMem]
  | suffix hsuffix => exact hsuffix.lineFeed_notMem

theorem SpellsNumber.lineFeed_notMem (h : SpellsNumber t w after) : '\n' ∉ w := by
  obtain h | ⟨-, h | ⟨-, h | ⟨-, h⟩⟩⟩ := h
  · obtain ⟨hdigits, htail⟩ := h
    simp [hdigits.lineFeed_notMem, htail.lineFeed_notMem]
  · obtain @⟨x, _, _, _, _, _, _, hx, -, hrun, -, hmark, -⟩ := h
    have hx' : x ≠ '\n' := by
      rintro rfl
      simp at hx
    simp [hx'.symm, hrun.notMem (b := '\n') (by decide), hmark.1.lineFeed_notMem]
  · obtain ⟨-, hrun, -, hmark, -⟩ := h
    simp [hrun.notMem (b := '\n') (by decide), hmark.1.lineFeed_notMem]
  · obtain ⟨hdigits, -, -, hmark, -⟩ := h
    simp [hdigits.lineFeed_notMem, hmark.1.lineFeed_notMem]

end MethodGraft.Source
