import MethodGraft.Proofs.Source.Spellings.Strings

/-!
# Proofs.Source.Spellings.Tokens — how tokens are spelled

`Spells t w after` says that `w` spells the token `t` in front of the text `after`.  A word goes on
as far as it can, and a symbol is the longest one that stands there.  The tokens read are the
spelled ones, and none of them holds a line feed.
-/

namespace MethodGraft.Source

variable {s w after : List Char} {t : Token}

/-! ## 1. Words and symbols -/

def Word (w after : List Char) : Prop :=
  ∃ c more, w = c :: more ∧ startsName c = true ∧ Run continuesName more after

/-- The spellings of words.  The reserved ones are no names. -/
inductive SpellsWord : Spelling
  | keyword {k : Keyword} {after : List Char} : Word k.text.toList after →
    SpellsWord (.keyword k) k.text.toList after
  | ident {w after : List Char} : Word w after → (∀ k : Keyword, k.text.toList ≠ w) →
    SpellsWord (.ident (String.ofList w)) w after

inductive SpellsSymbol : Spelling
  | symbol {x : Symbol} {after : List Char} :
    (∀ y : Symbol, y.text.toList <+: x.text.toList ++ after → y.text.length ≤ x.text.length) →
    SpellsSymbol (.symbol x) x.text.toList after

theorem Keyword.ofText?_text (k : Keyword) : Keyword.ofText? k.text = some k := by
  cases k <;> decide

theorem Keyword.ofText?_eq_some_iff {word : String} {k : Keyword} :
    Keyword.ofText? word = some k ↔ k.text = word := by
  constructor
  · exact fun h => eq_of_beq (List.find?_some (p := fun k : Keyword => k.text == word) h)
  · rintro rfl
    exact k.ofText?_text

/-- The token of a word. -/
theorem spellsWord_iff (hw : Word w after) : SpellsWord t w after ↔
    t = match Keyword.ofText? (String.ofList w) with
      | some k => .keyword k
      | none => .ident (String.ofList w) := by
  constructor
  · rintro (_ | ⟨-, hnone⟩)
    · rw [String.ofList_toList, Keyword.ofText?_text]
    · split
      next k hk =>
        exact absurd (by rw [Keyword.ofText?_eq_some_iff.mp hk, String.toList_ofList]) (hnone k)
      next => rfl
  · rintro rfl
    split
    next k hk =>
      have htext : k.text.toList = w := by
        rw [Keyword.ofText?_eq_some_iff.mp hk, String.toList_ofList]
      rw [← htext] at hw ⊢
      exact .keyword hw
    next hnone =>
      refine .ident hw fun k hk => ?_
      rw [← hk, String.ofList_toList, Keyword.ofText?_text] at hnone
      cases hnone

theorem reads_word : Reads readWord SpellsWord := by
  intro s t after
  constructor
  · intro h
    cases s with
    | nil => cases h
    | cons c s =>
      simp only [readWord] at h
      split at h
      next hc =>
        obtain ⟨hs, hrun⟩ := run_takeWhile continuesName s
        generalize s.takeWhile continuesName = more, s.dropWhile continuesName = rest at h hs hrun
        cases h
        exact ⟨c :: more, congrArg (c :: ·) hs, (spellsWord_iff ⟨c, more, rfl, hc, hrun⟩).mpr rfl⟩
      next => cases h
  · rintro ⟨w, rfl, hw⟩
    have hword : Word w after := by
      cases hw with
      | keyword hword => exact hword
      | ident hword => exact hword
    rw [(spellsWord_iff hword).mp hw]
    obtain ⟨c, more, rfl, hc, hrun⟩ := hword
    cases hk : Keyword.ofText? (String.ofList (c :: more)) <;>
      simp only [List.cons_append, readWord, if_pos hc, hk, hrun.takeWhile, hrun.dropWhile]

theorem Symbol.mem_all (x : Symbol) : x ∈ Symbol.all := by
  cases x <;> decide

theorem Symbol.pairwise_all : Symbol.all.Pairwise fun x y => y.text.length ≤ x.text.length := by
  decide

theorem Symbol.text_injective : Function.Injective Symbol.text := by
  have hnodup : (Symbol.all.map Symbol.text).Nodup := by decide
  exact fun x y h => List.inj_on_of_nodup_map hnodup x.mem_all y.mem_all h

theorem append_of_readSymbol {x : Symbol} (h : Symbol.read s = some (x, after)) :
    s = x.text.toList ++ after := by
  obtain ⟨x, -, hx⟩ := List.exists_of_findSome?_eq_some h
  obtain ⟨rest, hdrop, heq⟩ := Option.map_eq_some_iff.mp hx
  cases heq
  exact dropWord?_eq_some_iff.mp hdrop

/-- The symbol read is the longest one. -/
theorem length_le_of_readSymbol {x y : Symbol} (h : Symbol.read s = some (x, after))
    (hy : y.text.toList <+: s) : y.text.length ≤ x.text.length := by
  obtain ⟨longer, x, others, hall, hx, hlonger⟩ := List.findSome?_eq_some_iff.mp h
  obtain ⟨rest, -, heq⟩ := Option.map_eq_some_iff.mp hx
  cases heq
  -- the symbols are in the order of their lengths, and none before this one stands there
  have hmem := y.mem_all
  have hpairwise := Symbol.pairwise_all
  rw [hall] at hmem hpairwise
  obtain hy' | hy' := List.mem_append.mp hmem
  · obtain ⟨rest', hrest'⟩ := hy
    have hnone := hlonger y hy'
    rw [dropWord?_eq_some_iff.mpr hrest'.symm] at hnone
    cases hnone
  · obtain rfl | hy' := List.mem_cons.mp hy'
    · exact Nat.le_refl _
    · exact List.rel_of_pairwise_cons (List.pairwise_append.mp hpairwise).2.1 hy'

theorem exists_readSymbol {x : Symbol} (h : x.text.toList <+: s) :
    ∃ y rest, Symbol.read s = some (y, rest) := by
  obtain ⟨after, rfl⟩ := h
  have hdrop : Symbol.dropWord? x.text.toList (x.text.toList ++ after) = some after :=
    dropWord?_eq_some_iff.mpr rfl
  have hsome : (Symbol.read (x.text.toList ++ after)).isSome := by
    rw [Symbol.read, List.findSome?_isSome_iff]
    exact ⟨x, x.mem_all, by rw [hdrop]; rfl⟩
  obtain ⟨⟨y, rest⟩, hread⟩ := Option.isSome_iff_exists.mp hsome
  exact ⟨y, rest, hread⟩

theorem reads_symbol : Reads readSymbol SpellsSymbol := by
  intro s t after
  constructor
  · intro h
    obtain ⟨⟨x, rest⟩, hread, heq⟩ := Option.map_eq_some_iff.mp h
    cases heq
    have hs := append_of_readSymbol hread
    exact ⟨x.text.toList, hs, .symbol fun y hy => length_le_of_readSymbol hread (hs ▸ hy)⟩
  · rintro ⟨w, rfl, @⟨x, _, hlongest⟩⟩
    -- what is read there is as long, so it is the same
    obtain ⟨y, rest, hread⟩ := exists_readSymbol (x := x) (List.prefix_append _ after)
    have hs := append_of_readSymbol hread
    have hle : x.text.length ≤ y.text.length :=
      length_le_of_readSymbol hread (List.prefix_append _ after)
    have hge : y.text.length ≤ x.text.length := hlongest y (hs ▸ List.prefix_append _ rest)
    have hlength : x.text.toList.length = y.text.toList.length := Nat.le_antisymm hle hge
    obtain ⟨htext, rfl⟩ := List.append_inj hs hlength
    cases Symbol.text_injective (String.toList_inj.mp htext)
    rw [readSymbol, hread]
    rfl

/-! ## 2. Tokens -/

def Spells : Spelling :=
  First SpellsNumber (First SpellsString (First SpellsChar (First SpellsWord SpellsSymbol)))

/-- The tokens read are the spelled ones. -/
theorem reads_token : Reads (fun s => readToken s.length s) Spells :=
  reads_number.orElse (reads_string.orElse (reads_char.orElse (reads_word.orElse reads_symbol)))

/-! ## 3. Line feeds -/

theorem Word.lineFeed_notMem (h : Word w after) : '\n' ∉ w := by
  obtain ⟨c, more, rfl, hc, hrun⟩ := h
  have hne : c ≠ '\n' := by
    rintro rfl
    exact absurd hc (by decide +kernel)
  simp [hne.symm, hrun.notMem (b := '\n') (by decide +kernel)]

theorem SpellsWord.lineFeed_notMem (h : SpellsWord t w after) : '\n' ∉ w := by
  cases h with
  | keyword hword => exact hword.lineFeed_notMem
  | ident hword => exact hword.lineFeed_notMem

/-- No spelling holds a line feed. -/
theorem Spells.lineFeed_notMem (h : Spells t w after) : '\n' ∉ w := by
  obtain h | ⟨-, h | ⟨-, h | ⟨-, h | ⟨-, h⟩⟩⟩⟩ := h
  · exact h.lineFeed_notMem
  · obtain ⟨hw⟩ := h
    simp [hw.lineFeed_notMem]
  · obtain ⟨hw, -⟩ := h
    simp [hw.lineFeed_notMem]
  · exact h.lineFeed_notMem
  · obtain @⟨x, -, -⟩ := h
    cases x <;> decide

end MethodGraft.Source
