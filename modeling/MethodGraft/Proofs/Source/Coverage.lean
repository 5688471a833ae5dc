import MethodGraft.Proofs.Source.LineComments
import MethodGraft.Proofs.Source.Spellings.Tokens

/-!
# Proofs.Source.Coverage — what the tokens of a text leave out

A source is covered from its front by gaps and by spellings of tokens.  Its tokens are those of the
cover that goes up to its end, and where no cover does it is refused at the first character that the
cover reaches but does not cover.
-/

namespace MethodGraft.Source

variable {s g w after rest p x : List Char} {t : Token} {ts us : List Lexeme}
    {n lineFeeds line : Nat}

/-! ## 1. Gaps -/

def EndsLine (s : List Char) : Prop := s = [] ∨ ['\n'] <+: s ∨ ['\r', '\n'] <+: s

inductive Gap : (g after : List Char) → Prop
  | blank {c : Char} {after : List Char} : c ∈ [' ', '\t', '\r', '\n'] → Gap [c] after
  | lineComment {x after : List Char} : '\n' ∉ x → '\r' ∉ x → EndsLine after →
      Gap ('/' :: '/' :: x) after
  | blockComment {x after : List Char} : ¬ ['*', '/'] <:+: x →
      Gap ('/' :: '*' :: (x ++ ['*', '/'])) after

theorem closeLine_eq_some_iff : closeLine s = some rest ↔
    ∃ x, s = x ++ rest ∧ WithinLine x ∧ EndsLine rest := by
  constructor
  · intro h
    obtain ⟨x, hx, rfl | ⟨q, rfl⟩ | ⟨q, rfl⟩⟩ := line_cases s
    · rw [closeLine_end hx] at h
      cases h
      exact ⟨s, (List.append_nil s).symm, hx, .inl rfl⟩
    · rw [closeLine_lineFeed hx] at h
      cases h
      exact ⟨x, rfl, hx, .inr (.inl ⟨q, rfl⟩)⟩
    · rw [closeLine_return hx] at h
      split at h
      next hhead =>
        cases h
        obtain ⟨q, rfl⟩ := List.head?_eq_some_iff.mp hhead
        exact ⟨x, rfl, hx, .inr (.inr ⟨q, rfl⟩)⟩
      next => cases h
  · rintro ⟨x, rfl, hx, rfl | ⟨q, rfl⟩ | ⟨q, rfl⟩⟩
    · rw [List.append_nil, closeLine_end hx]
    · exact closeLine_lineFeed hx q
    · exact (closeLine_return hx _).trans (if_pos rfl)

theorem closeComment_eq_some_iff : closeComment lineFeeds s = some (n, rest) ↔
    ∃ x, s = x ++ '*' :: '/' :: rest ∧ ¬ ['*', '/'] <:+: x ∧ n = lineFeeds + x.count '\n' := by
  constructor
  · intro h
    fun_induction closeComment lineFeeds s with
    | case1 => cases h
    | case2 lineFeeds s =>
      cases h
      exact ⟨[], rfl, by simp, rfl⟩
    | case3 lineFeeds c s hopen ih =>
      obtain ⟨x, rfl, hx, rfl⟩ := ih h
      refine ⟨c :: x, rfl, ?_, ?_⟩
      · rw [List.infix_cons_iff, not_or]
        refine ⟨?_, hx⟩
        rintro ⟨q, hq⟩
        cases hq
        exact hopen _ rfl rfl
      · rw [List.count_cons]
        simp only [beq_iff_eq]
        split <;> omega
  · rintro ⟨x, rfl, hx, rfl⟩
    induction x generalizing lineFeeds with
    | nil => rfl
    | cons c x ih =>
      rw [List.infix_cons_iff, not_or] at hx
      -- the comment ends neither here nor half in `x`
      have hopen : ∀ q, c = '*' → x ++ '*' :: '/' :: rest = '/' :: q → False := by
        rintro q rfl hq
        cases x with
        | nil => cases hq
        | cons a x =>
          cases hq
          exact hx.1 ⟨x, rfl⟩
      rw [List.cons_append, closeComment]
      · rw [ih hx.2, List.count_cons]
        simp only [beq_iff_eq, Option.some.injEq, Prod.mk.injEq, and_true]
        split <;> omega
      · exact hopen

/-- A gap at the front of a text, and the line feeds in it. -/
theorem readGap_eq_some_iff : readGap s = some (n, rest) ↔
    ∃ g, s = g ++ rest ∧ Gap g rest ∧ n = g.count '\n' := by
  constructor
  · intro h
    cases s with
    | nil => cases h
    | cons c s =>
      simp only [readGap] at h
      split at h
      next hblank =>
        cases h
        refine ⟨[c], rfl, .blank (by simpa [isBlank, or_assoc] using hblank), ?_⟩
        rw [List.count_singleton]
        simp only [beq_iff_eq]
      next =>
        split at h
        next s =>
          obtain ⟨rest, hclose, heq⟩ := Option.map_eq_some_iff.mp h
          cases heq
          obtain ⟨x, rfl, hx, hends⟩ := closeLine_eq_some_iff.mp hclose
          obtain ⟨hline, hreturn⟩ := withinLine_iff.mp hx
          -- the line feed that ends the comment is not part of it
          exact ⟨'/' :: '/' :: x, rfl, .lineComment hline hreturn hends, by
            simp [List.count_eq_zero.mpr hline]⟩
        next s =>
          obtain ⟨x, rfl, hx, rfl⟩ := closeComment_eq_some_iff.mp h
          exact ⟨'/' :: '*' :: (x ++ ['*', '/']), by simp, .blockComment hx, by simp⟩
        next => cases h
  · rintro ⟨g, rfl, hg, rfl⟩
    cases hg with
    | @blank c _ hc =>
      have hblank : isBlank c = true := by simpa [isBlank, or_assoc] using hc
      -- a slash is no blank, so no comment begins here
      have hslash : c ≠ '/' := by
        rintro rfl
        simp at hc
      rw [List.singleton_append, readGap_of_ne hslash, if_pos hblank, List.count_singleton]
      simp only [beq_iff_eq]
    | @lineComment x _ hline hreturn hends =>
      have hclose := closeLine_eq_some_iff.mpr ⟨x, rfl, withinLine_iff.mpr ⟨hline, hreturn⟩, hends⟩
      have hcount : ('/' :: '/' :: x).count '\n' = 0 := by simp [List.count_eq_zero.mpr hline]
      show (closeLine (x ++ rest)).map _ = _
      rw [hclose, hcount]
      rfl
    | @blockComment x _ hx =>
      have hclose : closeComment 0 (x ++ '*' :: '/' :: rest) = some (0 + x.count '\n', rest) :=
        closeComment_eq_some_iff.mpr ⟨x, rfl, hx, rfl⟩
      show closeComment 0 (x ++ ['*', '/'] ++ rest) = _
      rw [List.append_assoc]
      refine hclose.trans ?_
      simp

theorem readGap_eq_none_iff : readGap s = none ↔ ∀ g rest, s = g ++ rest → ¬ Gap g rest := by
  constructor
  · intro h g rest hs hg
    rw [readGap_eq_some_iff.mpr ⟨g, hs, hg, rfl⟩] at h
    cases h
  · intro h
    refine Option.eq_none_iff_forall_ne_some.mpr fun ⟨n, rest⟩ hread => ?_
    obtain ⟨g, hs, hg, -⟩ := readGap_eq_some_iff.mp hread
    exact h g rest hs hg

/-! ## 2. Covers -/

structure NoGap (s : List Char) : Prop where
  gap : ∀ g rest, s = g ++ rest → ¬ Gap g rest
  comment : ¬ ['/', '*'] <+: s

/-- Gaps and the spellings of the tokens `ts` make up `p`, in front of the text `rest`.  The line of
a token is one more than the line feeds before it. -/
inductive Covers : (p : List Char) → (ts : List Lexeme) → (rest : List Char) → Prop
  | start {rest : List Char} : Covers [] [] rest
  | gap {p g rest : List Char} {ts : List Lexeme} :
      Covers p ts (g ++ rest) → Gap g rest → Covers (p ++ g) ts rest
  | token {p w rest : List Char} {t : Token} {ts : List Lexeme} :
    Covers p ts (w ++ rest) → NoGap (w ++ rest) →
    Spells t w rest → Covers (p ++ w) (ts ++ [⟨t, 1 + p.count '\n'⟩]) rest

/-- There is text, and neither a gap nor a token starts it. -/
structure Stuck (s : List Char) : Prop where
  ne_nil : s ≠ []
  gap : ∀ g rest, s = g ++ rest → ¬ Gap g rest
  token : NoGap s → Absent Spells s

def stuckFault (s : List Char) : SyntaxFault :=
  if ['/', '*'] <+: s then .unclosedComment else tokenFault s

/-- The tokens of a cover are the first ones of the text. -/
theorem Covers.tokensFrom (h : Covers p ts rest) :
    tokensFrom 1 (p ++ rest) = (tokensFrom (1 + p.count '\n') rest).map (ts ++ ·) := by
  induction h with
  | start => exact (map_append_nil _).symm
  | gap _ hg ih =>
    rw [List.append_assoc, ih, tokensFrom_gap (readGap_eq_some_iff.mpr ⟨_, rfl, hg, rfl⟩),
      List.count_append, Nat.add_assoc]
  | @token p w rest t ts _ hgap hw ih =>
    have hread := reads_token.mpr ⟨w, rfl, hw⟩
    rw [List.append_assoc, ih,
      tokensFrom_token (readGap_eq_none_iff.mpr hgap.gap) hgap.comment hread,
      List.count_append, List.count_eq_zero.mpr hw.lineFeed_notMem, Nat.add_zero]
    cases Source.tokensFrom (1 + p.count '\n') rest <;> simp [Except.map]

theorem Stuck.tokensFrom (h : Stuck s) :
    tokensFrom line s = .error (.syntaxFault line (stuckFault s)) := by
  have hgap := readGap_eq_none_iff.mpr h.gap
  obtain ⟨c, s, rfl⟩ := List.exists_cons_of_ne_nil h.ne_nil
  unfold stuckFault
  split
  next hopen => exact tokensFrom_unclosed hgap hopen
  next hopen =>
    exact tokensFrom_illegal hgap hopen (reads_token.eq_none_iff.mpr (h.token ⟨h.gap, hopen⟩))

/-- A cover goes on to the end of the text or to where it is stuck. -/
theorem Covers.exists_end (h : Covers p ts rest) :
    ∃ q us after, q ++ after = p ++ rest ∧ Covers q us after ∧ (after = [] ∨ Stuck after) := by
  -- each gap and each token leave less text
  induction hn : rest.length using Nat.strong_induction_on generalizing p ts rest with
  | _ n ih =>
    subst hn
    by_cases hnil : rest = []
    · exact ⟨p, ts, rest, rfl, h, .inl hnil⟩
    cases hgap : readGap rest with
    | some found =>
      obtain ⟨lineFeeds, after⟩ := found
      obtain ⟨g, rfl, hg, -⟩ := readGap_eq_some_iff.mp hgap
      obtain ⟨q, us, after', hsplit, hq⟩ :=
        ih after.length (leavesLess_of_readGap hgap).2 (h.gap hg) rfl
      exact ⟨q, us, after', by rw [hsplit, List.append_assoc], hq⟩
    | none =>
      have hnoGap := readGap_eq_none_iff.mp hgap
      cases hread : readToken rest.length rest with
      | none =>
        exact ⟨p, ts, rest, rfl, h, .inr ⟨hnil, hnoGap, fun _ => reads_token.eq_none_iff.mp hread⟩⟩
      | some found =>
        by_cases hopen : ['/', '*'] <+: rest
        · exact ⟨p, ts, rest, rfl, h, .inr ⟨hnil, hnoGap, fun hno => absurd hopen hno.comment⟩⟩
        obtain ⟨t, after⟩ := found
        obtain ⟨w, rfl, hw⟩ := reads_token.mp hread
        obtain ⟨q, us, after', hsplit, hq⟩ :=
          ih after.length (leavesLess_of_readToken hread).2 (h.token ⟨hnoGap, hopen⟩ hw) rfl
        exact ⟨q, us, after', by rw [hsplit, List.append_assoc], hq⟩

/-! ## 3. Sources -/

/-- A source has the tokens of the cover that goes up to its end, each on the line where its
spelling stands.  It is refused exactly where a cover of it is stuck: on the line of the first
character that no gap and no token covers. -/
theorem tokenize_covers (source : String) :
    (∀ ts, tokenize source = .ok ts ↔ Covers source.toList ts []) ∧
    (∀ e, tokenize source = .error e ↔
      ∃ p ts rest, source.toList = p ++ rest ∧ Covers p ts rest ∧ Stuck rest ∧
      e = .syntaxFault (1 + p.count '\n') (stuckFault rest)) := by
  have hok {ts : List Lexeme} (h : Covers source.toList ts []) : tokenize source = .ok ts := by
    have htokens := h.tokensFrom
    rw [List.append_nil, tokensFrom_nil] at htokens
    rw [tokenize_eq, htokens]
    simp [Except.map]
  have herror {p rest : List Char} {ts : List Lexeme} (hsplit : source.toList = p ++ rest)
      (h : Covers p ts rest) (hstuck : Stuck rest) :
      tokenize source = .error (.syntaxFault (1 + p.count '\n') (stuckFault rest)) := by
    rw [tokenize_eq, hsplit, h.tokensFrom, hstuck.tokensFrom]
    rfl
  -- every source has a cover that goes to its end or gets stuck, so the two cases decide both
  -- statements
  have hstart : Covers [] [] source.toList := .start
  obtain ⟨p, ts, rest, hsplit, h, hend⟩ := hstart.exists_end
  rw [List.nil_append] at hsplit
  refine ⟨fun us => ⟨fun hus => ?_, hok⟩, fun e => ⟨fun he => ?_, ?_⟩⟩
  · obtain rfl | hstuck := hend
    · rw [List.append_nil] at hsplit
      rw [hsplit] at h
      rw [hok h] at hus
      cases hus
      exact h
    · rw [herror hsplit.symm h hstuck] at hus
      cases hus
  · obtain rfl | hstuck := hend
    · rw [List.append_nil] at hsplit
      rw [hsplit] at h
      rw [hok h] at he
      cases he
    · rw [herror hsplit.symm h hstuck] at he
      cases he
      exact ⟨p, ts, rest, hsplit.symm, h, hstuck, rfl⟩
  · rintro ⟨p, ts, rest, hsplit, h, hstuck, rfl⟩
    exact herror hsplit h hstuck

example : tokenize "a /* b\n */ + \"\\12\" // c\n0x1f" =
    .ok [⟨.ident "a", 1⟩, ⟨.symbol .plus, 2⟩, ⟨.str "\n", 2⟩, ⟨.int 31, 3⟩] := by
  decide +kernel

end MethodGraft.Source
