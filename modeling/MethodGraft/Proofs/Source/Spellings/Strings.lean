import MethodGraft.Proofs.Source.Spellings.Numbers

/-!
# Proofs.Source.Spellings.Strings — how strings and characters are spelled

The text of a literal is spelled by characters that stand for themselves and by escapes.  An octal
escape takes all the digits that it has room for.  The readers of literals read just what is
spelled, and no literal holds a line feed.
-/

namespace MethodGraft.Source

variable {s w after rest digits v : List Char} {t : Token} {c e : Char} {n fuel : Nat}

/-! ## 1. Escapes and what they are part of -/

def escapeLetters : List (Char × Char) :=
  [('n', '\n'), ('t', '\t'), ('r', '\r'), ('b', Char.ofNat 8), ('f', Char.ofNat 12), ('\\', '\\'),
    ('\'', '\''), ('"', '"')]

/-- How many octal digits there may be after the first one, so that the value takes no more than
eight bits. -/
def octalRoom (c : Char) : Nat := if c ≤ '3' then 2 else 1

inductive SpellsEscape (e : Char) : (w after : List Char) → Prop
  | letter {c : Char} {after : List Char} : (c, e) ∈ escapeLetters → SpellsEscape e [c] after
  | unit {us : Nat} {digits after : List Char} :
    digits.length = 4 → (∀ a ∈ digits, isDigitOf 16 a = true) →
    HasValue 16 digits e.toNat → SpellsEscape e ('u' :: (List.replicate us 'u' ++ digits)) after
  | octal {a : Char} {more after : List Char} :
    (∀ b ∈ a :: more, isDigitOf 8 b = true) → more.length ≤ octalRoom a →
    (more.length = octalRoom a ∨ ∀ b ∈ after.head?, isDigitOf 8 b = false) →
      HasValue 8 (a :: more) e.toNat →
    SpellsEscape e (a :: more) after

inductive SpellsText : (v w : List Char) → Prop
  | nil : SpellsText [] []
  | plain {c : Char} {v w : List Char} : c ≠ '"' → c ≠ '\\' → c ≠ '\n' → SpellsText v w →
      SpellsText (c :: v) (c :: w)
  | escape {e : Char} {v x w : List Char} : SpellsEscape e x (w ++ ['"']) → SpellsText v w →
    SpellsText (e :: v) ('\\' :: (x ++ w))

inductive SpellsCharacter (c : Char) : List Char → Prop
  | plain : c ≠ '\'' → c ≠ '\\' → c ≠ '\n' → SpellsCharacter c [c]
  | escape {w : List Char} : SpellsEscape c w ['\''] → SpellsCharacter c ('\\' :: w)

inductive SpellsString : Spelling
  | str {v w after : List Char} : SpellsText v w →
      SpellsString (.str (String.ofList v)) ('"' :: (w ++ ['"'])) after

inductive SpellsChar : Spelling
  | char {c : Char} {w after : List Char} : SpellsCharacter c w → c.toNat < 0x10000 →
    SpellsChar (.char (UInt16.ofNat c.toNat)) ('\'' :: (w ++ ['\''])) after

theorem charOf?_eq_some_iff : charOf? n = some e ↔ e.toNat = n := by
  unfold charOf?
  constructor
  · intro h
    split at h
    next hvalid =>
      cases h
      rw [Char.toNat, Char.ofNat, dif_pos hvalid]
      rfl
    next => cases h
  · rintro rfl
    have hvalid : e.toNat.isValidChar := e.valid
    rw [if_pos hvalid, Char.ofNat_toNat]

theorem readUnitEscape_eq_some_iff : readUnitEscape s = some (e, after) ↔ ∃ us digits,
    s = List.replicate us 'u' ++ (digits ++ after) ∧ digits.length = 4 ∧
    (∀ a ∈ digits, isDigitOf 16 a = true) ∧ HasValue 16 digits e.toNat := by
  constructor
  · intro h
    fun_induction readUnitEscape s with
    | case1 rest ih =>
      obtain ⟨us, digits, rfl, hdigits⟩ := ih h
      exact ⟨us + 1, digits, rfl, hdigits⟩
    | case2 a b c d rest _ hall =>
      simp only [Option.bind_eq_bind, Option.pure_def, Option.bind_eq_some_iff, Option.some.injEq,
        Prod.mk.injEq, charOf?_eq_some_iff] at h
      obtain ⟨n, hn, _, rfl, rfl, rfl⟩ := h
      exact ⟨0, [a, b, c, d], rfl, rfl, List.all_eq_true.mp hall, valueOnto_iff_hasValue.mp hn⟩
    | case3 => cases h
    | case4 => cases h
  · rintro ⟨us, digits, rfl, hlength, hall, hvalue⟩
    induction us with
    | zero =>
      obtain ⟨a, b, c, d, rfl⟩ := List.length_eq_four.mp hlength
      -- the four digits begin where there is no further `u`
      have ha : a ≠ 'u' := by
        rintro rfl
        exact absurd (hall 'u' List.mem_cons_self) (by decide)
      simp only [List.replicate_zero, List.nil_append, List.cons_append]
      rw [readUnitEscape, if_pos (List.all_eq_true.mpr hall), valueOnto_iff_hasValue.mpr hvalue]
      · simp only [Option.bind_eq_bind, Option.bind_some, charOf?_eq_some_iff.mpr rfl,
          Option.pure_def]
      · exact ha
    | succ us ih => exact ih

/-- Of the octal digits that stand there an escape takes those that it has room for. -/
theorem readOctalEscape_append {a : Char} (hrun : Run (isDigitOf 8) (a :: digits) after) :
    readOctalEscape (a :: digits ++ after) = (valueOnto 8 0 (a :: digits.take (octalRoom a))).bind
    fun n =>
      (charOf? n).map fun e => (e, digits.drop (octalRoom a) ++ after) := by
  unfold readOctalEscape octalRoom
  rw [hrun.takeWhile]
  by_cases ha : a ≤ '3' <;> rcases digits with _ | ⟨b, _ | ⟨c, digits⟩⟩ <;>
    simp [ha, Option.map_eq_bind]

theorem exists_octalEscape (h : readOctalEscape s = some (e, after)) :
    ∃ w, s = w ++ after ∧ SpellsEscape e w after := by
  obtain ⟨hs, hrun⟩ := run_takeWhile (isDigitOf 8) s
  generalize s.takeWhile (isDigitOf 8) = digits, s.dropWhile (isDigitOf 8) = rest at hs hrun
  subst hs
  cases digits with
  | nil =>
    rw [readOctalEscape, hrun.takeWhile] at h
    cases h
  | cons a digits =>
    rw [readOctalEscape_append hrun] at h
    simp only [Option.bind_eq_some_iff, Option.map_eq_some_iff, charOf?_eq_some_iff, Prod.mk.injEq]
      at h
    obtain ⟨n, hn, _, rfl, rfl, rfl⟩ := h
    refine ⟨a :: digits.take (octalRoom a), ?_,
      .octal ?_ (List.length_take_le _ _) ?_ (valueOnto_iff_hasValue.mp hn)⟩
    · rw [List.cons_append, List.cons_append, ← List.append_assoc, List.take_append_drop]
    · intro b hb
      obtain rfl | hb := List.mem_cons.mp hb
      · exact hrun.all b List.mem_cons_self
      · exact hrun.all b (List.mem_cons_of_mem a (List.mem_of_mem_take hb))
    · obtain hlt | hle := Nat.lt_or_ge digits.length (octalRoom a)
      · rw [List.drop_of_length_le hlt.le, List.nil_append]
        exact .inr hrun.ends
      · exact .inl (List.length_take_of_le hle)

theorem readOctalEscape_of_room {a : Char} {more : List Char}
    (hall : ∀ b ∈ a :: more, isDigitOf 8 b = true) (hroom : more.length ≤ octalRoom a)
    (hends : more.length = octalRoom a ∨ ∀ b ∈ after.head?, isDigitOf 8 b = false)
    (hvalue : HasValue 8 (a :: more) e.toNat) :
    readOctalEscape (a :: more ++ after) = some (e, after) := by
  -- more digits may stand there than there is room for
  obtain ⟨hafter, hrun⟩ := run_takeWhile (isDigitOf 8) after
  have hdigits : Run (isDigitOf 8) (a :: (more ++ after.takeWhile (isDigitOf 8)))
      (after.dropWhile (isDigitOf 8)) :=
    ⟨List.forall_mem_append.mpr ⟨hall, hrun.all⟩, hrun.ends⟩
  have htake : (more ++ after.takeWhile (isDigitOf 8)).take (octalRoom a) = more ∧
      (more ++ after.takeWhile (isDigitOf 8)).drop (octalRoom a) =
        after.takeWhile (isDigitOf 8) := by
    obtain hfull | hstop := hends
    · exact ⟨List.take_left' hfull, List.drop_left' hfull⟩
    · rw [takeWhile_eq_nil_iff_head?.mpr hstop, List.append_nil]
      exact ⟨List.take_of_length_le hroom, List.drop_of_length_le hroom⟩
  have hread := readOctalEscape_append hdigits
  rw [htake.1, htake.2, valueOnto_iff_hasValue.mpr hvalue, Option.bind_some,
    charOf?_eq_some_iff.mpr rfl, List.cons_append, List.append_assoc, ← hafter] at hread
  exact hread

/-- An escape at the front is spelled, and a spelled one is read. -/
theorem readEscape_eq_some_iff : readEscape s = some (e, after) ↔
    ∃ w, s = w ++ after ∧ SpellsEscape e w after := by
  constructor
  · intro h
    cases s with
    | nil => cases h
    | cons c s =>
      simp only [readEscape] at h
      split at h
      case h_9 =>
        obtain ⟨us, digits, rfl, hlength, hall, hvalue⟩ := readUnitEscape_eq_some_iff.mp h
        exact ⟨'u' :: (List.replicate us 'u' ++ digits), by simp, .unit hlength hall hvalue⟩
      case h_10 => exact exists_octalEscape h
      all_goals
        cases h
        exact ⟨[_], rfl, .letter (by decide)⟩
  · rintro ⟨w, rfl, h⟩
    cases h with
    | letter hmem =>
      simp only [escapeLetters, List.mem_cons, Prod.mk.injEq, List.not_mem_nil, or_false] at hmem
      rcases hmem with ⟨rfl, rfl⟩ | ⟨rfl, rfl⟩ | ⟨rfl, rfl⟩ | ⟨rfl, rfl⟩ | ⟨rfl, rfl⟩ | ⟨rfl, rfl⟩
        | ⟨rfl, rfl⟩ | ⟨rfl, rfl⟩ <;> rfl
    | @unit us digits _ hlength hall hvalue =>
      exact readUnitEscape_eq_some_iff.mpr
        ⟨us, digits, List.append_assoc _ _ _, hlength, hall, hvalue⟩
    | @octal a more _ hall hroom hends hvalue =>
      -- a digit is none of the letters
      have ha := hall a List.mem_cons_self
      have hread := readOctalEscape_of_room hall hroom hends hvalue
      rw [List.cons_append] at hread ⊢
      simp only [readEscape]
      split
      case h_10 => exact hread
      all_goals exact absurd ha (by decide)

/-- What comes after an escape matters only by its first character. -/
theorem SpellsEscape.of_head? (h : SpellsEscape e w after) (hhead : rest.head? = after.head?) :
    SpellsEscape e w rest := by
  cases h with
  | letter hmem => exact .letter hmem
  | unit hlength hall hvalue => exact .unit hlength hall hvalue
  | octal hall hroom hends hvalue => exact .octal hall hroom (hhead ▸ hends) hvalue

theorem spells_of_readStringRest {read : List Char}
    (h : readStringRest fuel read s = some (v, after)) :
    ∃ u w, v = read.reverse ++ u ∧ s = w ++ '"' :: after ∧ SpellsText u w := by
  induction fuel generalizing read s with
  | zero => cases h
  | succ fuel ih =>
    cases s with
    | nil => cases h
    | cons c s =>
      simp only [readStringRest] at h
      split at h
      next hquote =>
        cases h
        exact ⟨[], [], (List.append_nil _).symm, by rw [hquote, List.nil_append], .nil⟩
      next hquote =>
        split at h
        next => cases h
        next hline =>
          split at h
          next hslash =>
            split at h
            next e rest he =>
              obtain ⟨u, w, rfl, rfl, hw⟩ := ih h
              -- how many digits an octal escape takes depends on the character behind it, which is
              -- the same in both texts
              obtain ⟨x, rfl, hx⟩ := readEscape_eq_some_iff.mp he
              refine ⟨e :: u, '\\' :: (x ++ w), by simp, by simp [hslash],
                .escape (hx.of_head? ?_) hw⟩
              cases w <;> rfl
            next => cases h
          next hslash =>
            obtain ⟨u, w, rfl, rfl, hw⟩ := ih h
            exact ⟨c :: u, c :: w, by simp, rfl, .plain hquote hslash hline hw⟩

theorem SpellsText.readStringRest (h : SpellsText v w) (read after : List Char)
    (hfuel : (w ++ '"' :: after).length ≤ fuel) :
    readStringRest fuel read (w ++ '"' :: after) = some (read.reverse ++ v, after) := by
  induction h generalizing fuel read with
  | nil =>
    cases fuel with
    | zero => simp at hfuel
    | succ fuel => simp [Source.readStringRest]
  | @plain c v w hquote hslash hline _ ih =>
    cases fuel with
    | zero => simp at hfuel
    | succ fuel =>
      rw [List.cons_append, Source.readStringRest, if_neg hquote, if_neg hline, if_neg hslash,
        ih _ (Nat.le_of_succ_le_succ hfuel)]
      simp
  | @escape e v x w hx _ ih =>
    cases fuel with
    | zero => simp at hfuel
    | succ fuel =>
      have hread : readEscape (x ++ (w ++ '"' :: after)) = some (e, w ++ '"' :: after) := by
        refine readEscape_eq_some_iff.mpr ⟨x, rfl, hx.of_head? ?_⟩
        cases w <;> rfl
      have hrest : (w ++ '"' :: after).length ≤ fuel := by
        simp only [List.cons_append, List.append_assoc, List.length_cons, List.length_append]
          at hfuel ⊢
        omega
      rw [List.cons_append, Source.readStringRest, if_neg (by decide), if_neg (by decide),
        if_pos rfl, List.append_assoc, hread]
      simp only [ih _ hrest, List.reverse_cons, List.append_assoc, List.singleton_append]

theorem reads_string : Reads (fun s => readString s.length s) SpellsString := by
  intro s t after
  simp only
  constructor
  · intro h
    unfold readString at h
    split at h
    next s =>
      obtain ⟨⟨v, rest⟩, hread, heq⟩ := Option.map_eq_some_iff.mp h
      cases heq
      obtain ⟨v, w, rfl, rfl, hw⟩ := spells_of_readStringRest hread
      exact ⟨_, by simp, .str hw⟩
    next => cases h
  · rintro ⟨w, rfl, @⟨v, w, _, hw⟩⟩
    have hread : readStringRest ('"' :: (w ++ '"' :: after)).length [] (w ++ '"' :: after) =
        some (v, after) :=
      hw.readStringRest [] after (Nat.le_succ _)
    rw [List.cons_append, List.append_assoc, List.singleton_append, readString, hread]
    rfl

theorem readCharBody_eq_some_iff : readCharBody s = some (c, '\'' :: after) ↔
    ∃ w, s = w ++ '\'' :: after ∧ SpellsCharacter c w := by
  constructor
  · intro h
    cases s with
    | nil => cases h
    | cons a s =>
      simp only [readCharBody] at h
      split at h
      next hslash =>
        obtain ⟨w, rfl, hw⟩ := readEscape_eq_some_iff.mp h
        exact ⟨'\\' :: w, by rw [hslash, List.cons_append], .escape (hw.of_head? rfl)⟩
      next hslash =>
        split at h
        next => cases h
        next hquote =>
          cases h
          rw [not_or] at hquote
          exact ⟨[c], rfl, .plain hquote.1 hslash hquote.2⟩
  · rintro ⟨w, rfl, h⟩
    cases h with
    | plain hquote hslash hline =>
      rw [List.singleton_append, readCharBody, if_neg hslash, if_neg (not_or.mpr ⟨hquote, hline⟩)]
    | @escape w hw => exact readEscape_eq_some_iff.mpr ⟨w, rfl, hw.of_head? rfl⟩

theorem reads_char : Reads readChar SpellsChar := by
  intro s t after
  constructor
  · intro h
    unfold readChar at h
    split at h
    next s =>
      split at h
      next c rest hbody =>
        split at h
        next hunit =>
          cases h
          obtain ⟨w, rfl, hw⟩ := readCharBody_eq_some_iff.mp hbody
          exact ⟨_, by simp, .char hw hunit⟩
        next => cases h
      next => cases h
    next => cases h
  · rintro ⟨w, rfl, @⟨c, w, _, hw, hunit⟩⟩
    rw [List.cons_append, List.append_assoc, List.singleton_append, readChar,
      readCharBody_eq_some_iff.mpr ⟨w, rfl, hw⟩]
    exact if_pos hunit

/-! ## 2. Line feeds -/

theorem SpellsEscape.lineFeed_notMem (h : SpellsEscape e w after) : '\n' ∉ w := by
  cases h with
  | @letter c _ hmem =>
    have hletters : ∀ r ∈ escapeLetters, r.1 ≠ '\n' := by decide
    rw [List.mem_singleton]
    exact (hletters _ hmem).symm
  | @unit us digits _ _ hall _ =>
    have hdigits : '\n' ∉ digits := fun hmem => absurd (hall _ hmem) (by decide)
    simp [hdigits]
  | octal hall => exact fun hmem => absurd (hall _ hmem) (by decide)

theorem SpellsText.lineFeed_notMem (h : SpellsText v w) : '\n' ∉ w := by
  induction h with
  | nil => exact List.not_mem_nil
  | plain _ _ hline _ ih => simp [hline.symm, ih]
  | escape hx _ ih => simp [hx.lineFeed_notMem, ih]

theorem SpellsCharacter.lineFeed_notMem (h : SpellsCharacter c w) : '\n' ∉ w := by
  cases h with
  | plain _ _ hline => simp [hline.symm]
  | escape hw => simp [hw.lineFeed_notMem]

end MethodGraft.Source
