import MethodGraft.Proofs.Source.Separation

/-!
# Proofs.Source.LineComments — what a line comment hides

A line comment hides all its characters, whatever stands around it, if it is one.  It is one unless
it holds a carriage return that its line does not end with.  Then its slashes are two symbols, and
the text after them is read as tokens.
-/

namespace MethodGraft.Source

variable {q s : List Char} {line : Nat}

/-! ## 1. Comments and slashes -/

/-- The characters are all on one line, which may end in a carriage return in front of its line
feed. -/
def FitsLine (s : List Char) : Prop := '\n' ∉ s ∧ '\r' ∉ s.dropLast

theorem withinLine_iff {x : List Char} : WithinLine x ↔ '\n' ∉ x ∧ '\r' ∉ x := by
  simp only [WithinLine, endsLine, Bool.or_eq_false_iff, beq_eq_false_iff_ne]
  grind

theorem tokensFrom_space (s : List Char) : tokensFrom line (' ' :: s) = tokensFrom line s :=
  tokensFrom_gap (show readGap (' ' :: s) = some (0, s) from rfl)

theorem tokensFrom_return (s : List Char) : tokensFrom line ('\r' :: s) = tokensFrom line s :=
  tokensFrom_gap (show readGap ('\r' :: s) = some (0, s) from rfl)

theorem tokensFrom_lineFeed (s : List Char) :
    tokensFrom line ('\n' :: s) = tokensFrom (line + 1) s :=
  tokensFrom_gap rfl

/-- A line comment is a gap up to its line feed. -/
theorem tokensFrom_lineComment (hs : FitsLine s) (q : List Char) :
    tokensFrom line ('/' :: '/' :: (s ++ '\n' :: q)) = tokensFrom (line + 1) q := by
  obtain ⟨hline, hreturn⟩ := hs
  have hcomment {rest : List Char} (hclose : closeLine (s ++ '\n' :: q) = some rest) :
      tokensFrom line ('/' :: '/' :: (s ++ '\n' :: q)) = tokensFrom line rest := by
    refine tokensFrom_gap (show readGap _ = some (0, rest) from ?_)
    show (closeLine (s ++ '\n' :: q)).map _ = _
    rw [hclose]
    rfl
  -- a comment goes up to the first line end, so the cases are those of the first one in `s`
  obtain ⟨x, hx, rfl | ⟨rest, rfl⟩ | ⟨rest, rfl⟩⟩ := line_cases s
  · rw [hcomment (closeLine_lineFeed hx q), tokensFrom_lineFeed]
  · exact absurd (by simp) hline
  · cases rest with
    | nil =>
      have hclose : closeLine (x ++ ['\r'] ++ '\n' :: q) = some ('\r' :: '\n' :: q) := by
        rw [List.append_assoc, List.singleton_append, closeLine_return hx]
        rfl
      rw [hcomment hclose, tokensFrom_return, tokensFrom_lineFeed]
    | cons c rest => exact absurd (by simp) hreturn

/-- With a carriage return before the end of its line, a comment is none, and its first slash is a
symbol. -/
theorem tokensFrom_slash (hline : '\n' ∉ s) (hreturn : '\r' ∈ s.dropLast) (q : List Char) :
    tokensFrom line ('/' :: '/' :: (s ++ '\n' :: q)) =
      (tokensFrom line ('/' :: (s ++ '\n' :: q))).map (⟨.symbol .slash, line⟩ :: ·) := by
  obtain ⟨x, hx, rfl | ⟨rest, rfl⟩ | ⟨rest, rfl⟩⟩ := line_cases s
  · exact absurd (List.dropLast_subset _ hreturn) (withinLine_iff.mp hx).2
  · exact absurd (by simp) hline
  · have hrest : rest ≠ [] := by
      rintro rfl
      rw [List.dropLast_concat] at hreturn
      exact (withinLine_iff.mp hx).2 hreturn
    obtain ⟨c, rest, rfl⟩ := List.exists_cons_of_ne_nil hrest
    have hc : c ≠ '\n' := by
      rintro rfl
      exact hline (by simp)
    have hgap : readGap ('/' :: '/' :: (x ++ '\r' :: c :: rest ++ '\n' :: q)) = none := by
      show (closeLine (x ++ '\r' :: c :: rest ++ '\n' :: q)).map _ = none
      rw [List.append_assoc, List.cons_append, closeLine_return hx, if_neg (by simpa using hc)]
      rfl
    refine tokensFrom_token hgap (by simp) ?_
    rw [readToken_of_ne (by decide) (by decide), readNumber_eq_none (by decide), readWord,
      if_neg (by decide +kernel)]
    rfl

/-! ## 2. Comments between two texts -/

/-- A space after a line that may end in a comment, and the end of the line, are nothing but the end
of the line. -/
theorem Unfinished.lineFeed {o : List Char} (ho : Unfinished o) (q : List Char) :
    tokensFrom line (o ++ ' ' :: '\n' :: q) = tokensFrom (line + 1) q := by
  cases ho with
  | nothing => rw [List.nil_append, tokensFrom_space, tokensFrom_lineFeed]
  | @comment x hx =>
    have hfits : FitsLine (x ++ [' ']) := by
      obtain ⟨hline, hreturn⟩ := withinLine_iff.mp hx
      exact ⟨by simpa using hline, by simpa using hreturn⟩
    have h : tokensFrom line _ = _ := tokensFrom_lineComment hfits q
    rwa [List.append_assoc] at h

/-- A comment after a line that may end in one itself is like a comment by itself. -/
theorem Unfinished.slashes {o c : List Char} (ho : Unfinished o) (hc : '\n' ∉ c) (line : Nat) :
    ∃ s, '\n' ∉ s ∧ ('\r' ∈ s.dropLast ↔ '\r' ∈ c.dropLast) ∧
      ∀ q, tokensFrom line (o ++ ' ' :: '/' :: '/' :: (c ++ '\n' :: q)) =
        tokensFrom line ('/' :: '/' :: (s ++ '\n' :: q)) := by
  cases ho with
  | nothing => exact ⟨c, hc, Iff.rfl, fun q => tokensFrom_space _⟩
  | @comment x hx =>
    -- the slashes are two of its characters
    obtain ⟨hline, hreturn⟩ := withinLine_iff.mp hx
    refine ⟨x ++ ' ' :: '/' :: '/' :: c, by simp [hline, hc], ?_, fun q => by simp⟩
    cases c with
    | nil => simp [hreturn]
    | cons a c => simp [hreturn]

/-- A line comment between two texts is insignificant, whatever it holds, if no carriage return
stands in it before its last character: tokens, lines and errors are those of the texts with a line
feed between them.  With such a carriage return it never is, as its slashes are tokens: where the
texts have tokens at all, they have others. -/
theorem tokenize_lineComment {p c : String} {ts : List Lexeme} (hp : tokenize p = .ok ts)
    (hc : '\n' ∉ c.toList) (q : String) :
    ('\r' ∉ c.toList.dropLast → tokenize (p ++ " //" ++ c ++ "\n" ++ q) =
      tokenize (p ++ " \n" ++ q)) ∧
    ('\r' ∈ c.toList.dropLast → ∀ us, tokenize (p ++ " //" ++ c ++ "\n" ++ q) = .ok us →
      tokenize (p ++ " \n" ++ q) ≠ .ok us) := by
  rw [tokenize_eq] at hp
  obtain ⟨last, o, ho, hspace⟩ := (lexes_of_tokensFrom hp).space
  obtain ⟨s, hline, hreturn, hslashes⟩ := ho.slashes hc last
  have hplain : tokenize (p ++ " \n" ++ q) = (tokensFrom (last + 1) q.toList).map (ts ++ ·) := by
    rw [← ho.lineFeed, ← hspace, tokenize_eq]
    simp
  have hcommented : tokenize (p ++ " //" ++ c ++ "\n" ++ q) =
      (tokensFrom last ('/' :: '/' :: (s ++ '\n' :: q.toList))).map (ts ++ ·) := by
    rw [← hslashes, ← hspace, tokenize_eq]
    simp
  rw [hplain, hcommented]
  constructor
  · intro hfits
    rw [tokensFrom_lineComment ⟨hline, fun h => hfits (hreturn.mp h)⟩]
  · intro hr us hus hother
    rw [tokensFrom_slash hline (hreturn.mpr hr)] at hus
    -- one text goes on with a slash on the line that the other one has left
    obtain ⟨vs, hvs, rfl⟩ := exists_of_map_eq_ok hus
    obtain ⟨ws, -, rfl⟩ := exists_of_map_eq_ok hvs
    obtain ⟨xs, hxs, heq⟩ := exists_of_map_eq_ok hother
    cases List.append_cancel_left heq
    exact absurd ((lexes_of_tokensFrom hxs).le_line _ List.mem_cons_self)
      (Nat.not_succ_le_self last)

/-- The text in front ends in a comment itself, and the comment holds an open string and an open
comment. -/
theorem tokenize_lineComment_nested :
    tokenize ("a // b" ++ " //" ++ " \"x /* ++\r" ++ "\n" ++ "y") =
    tokenize ("a // b" ++ " \n" ++ "y") := by
  have hp : tokenize "a // b" = .ok [⟨.ident "a", 1⟩] := by decide +kernel
  exact (tokenize_lineComment hp (by decide) "y").1 (by decide)

/-- A carriage return within a line comment makes tokens of what the comment holds. -/
theorem tokenize_lineComment_return :
    tokenize ("a" ++ " //" ++ " x\ry" ++ "\n" ++ "b") = .ok [⟨.ident "a", 1⟩, ⟨.symbol .slash, 1⟩,
      ⟨.symbol .slash, 1⟩, ⟨.ident "x", 1⟩, ⟨.ident "y", 1⟩, ⟨.ident "b", 2⟩] ∧
    tokenize ("a" ++ " \n" ++ "b") = .ok [⟨.ident "a", 1⟩, ⟨.ident "b", 2⟩] := by
  decide +kernel

end MethodGraft.Source
