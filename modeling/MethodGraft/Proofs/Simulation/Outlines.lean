import MethodGraft.Proofs.Simulation.Conditions
import MethodGraft.Proofs.Typed.Assignments

/-!
# Proofs.Simulation.Outlines — which atoms a run evaluates

The code of a condition is outlined by its pieces: plain jumps, and tests, each of which evaluates
one atom and goes to one of two places.  Where an assignment says how the atoms come out, there is
one way through the pieces, and it tells which atoms are evaluated in which order.  The machine
takes that way whenever the atoms come out so.
-/

namespace MethodGraft.Direct

open ClassFile Code Typed Machine

variable {env : Environment} {P : Program} {layout : Layout} {atoms : List Cond} {σ τ : Nat → Bool}
  {m m₁ m' : Memory} {is js : List Nat} {n : Nat}

/-! ## 1. Atoms evaluated in order -/

inductive Evaluates (env : Environment) (atoms : List Cond) (σ : Nat → Bool) :
    Memory → List Nat → Memory → Prop
  | nil (m : Memory) : Evaluates env atoms σ m [] m
  | cons {m m₁ m' : Memory} {i : Nat} {is : List Nat} {atom : Cond} (found : atoms[i]? = some atom)
      (outcome : (cond env atom).run.run m = (.ok (σ i), m₁))
      (rest : Evaluates env atoms σ m₁ is m') : Evaluates env atoms σ m (i :: is) m'

namespace Evaluates

theorem append (h : Evaluates env atoms σ m is m₁) (h' : Evaluates env atoms σ m₁ js m') :
    Evaluates env atoms σ m (is ++ js) m' := by
  induction h with
  | nil => exact h'
  | cons found outcome _ ih => exact .cons found outcome (ih h')

theorem of_append (h : Evaluates env atoms σ m (is ++ js) m') :
    ∃ m₁, Evaluates env atoms σ m is m₁ ∧ Evaluates env atoms σ m₁ js m' := by
  induction is generalizing m with
  | nil => exact ⟨m, .nil m, h⟩
  | cons i is ih =>
    cases h with
    | cons found outcome rest =>
      obtain ⟨m₁, his, hjs⟩ := ih rest
      exact ⟨m₁, .cons found outcome his, hjs⟩

theorem congr (h : Evaluates env atoms σ m is m') (hsame : ∀ i ∈ is, σ i = τ i) :
    Evaluates env atoms τ m is m' := by
  induction h with
  | nil m => exact .nil m
  | cons found outcome _ ih =>
    obtain ⟨hi, his⟩ := List.forall_mem_cons.mp hsame
    exact .cons found (hi ▸ outcome) (ih his)

end Evaluates

/-- The atoms of the second operand stand behind those of the first. -/
theorem drop_of_append {as bs : List Cond} (h : as ++ bs <+: atoms.drop n) :
    as <+: atoms.drop n ∧ bs <+: atoms.drop (n + as.length) := by
  refine ⟨(List.prefix_append as bs).trans h, ?_⟩
  obtain ⟨rest, hrest⟩ := h
  rw [← List.drop_drop, ← hrest, List.append_assoc, List.drop_left]
  exact List.prefix_append bs rest

theorem getElem?_of_drop {c : Cond} (h : [c] <+: atoms.drop n) : atoms[n]? = some c := by
  obtain ⟨rest, hrest⟩ := h
  rw [← Nat.add_zero n, ← List.getElem?_drop, ← hrest]
  rfl

/-- Evaluating the condition is evaluating those of its atoms that are asked where they come out
so. -/
def AsksAtoms (env : Environment) (c : Cond) : Prop :=
  ∀ {atoms : List Cond} {n : Nat}, c.atoms <+: atoms.drop n → ∀ {m m' : Memory} {b : Bool},
    (cond env c).run.run m = (.ok b, m') ↔
      ∃ σ, c.holds σ n = b ∧ Evaluates env atoms σ m (c.asked σ n) m'

theorem asksAtoms_joins {c a b : Cond} {first : Bool} (h : c.Joins a b first)
    (heval : cond env c = do
      let x ← cond env a
      if x = first then return first else cond env b)
    (iha : AsksAtoms env a) (ihb : AsksAtoms env b) : AsksAtoms env c := by
  intro atoms n hatoms m m' v
  rw [h.atoms] at hatoms
  obtain ⟨ha, hb⟩ := drop_of_append hatoms
  rw [heval, run_bind_eq_ok]
  constructor
  · rintro ⟨x, m₁, hx, hrest⟩
    obtain ⟨σ, rfl, hσ⟩ := (iha ha).mp hx
    split at hrest
    next hfirst =>
      cases hrest
      exact ⟨σ, by rw [h.holds, if_pos hfirst], by rwa [h.asked, if_pos hfirst, List.append_nil]⟩
    next hother =>
      -- one assignment that is `σ` for the atoms of the first operand and `τ` for those of the
      -- second
      obtain ⟨τ, rfl, hτ⟩ := (ihb hb).mp hrest
      obtain ⟨haholds, haasked⟩ := Cond.switch_before a σ τ n
      obtain ⟨hbholds, hbasked⟩ := Cond.switch_behind b σ τ (n + a.atoms.length)
      refine ⟨Cond.switch (n + a.atoms.length) σ τ, ?_, ?_⟩
      · rw [h.holds, haholds, if_neg hother, hbholds]
      · rw [h.asked, haholds, haasked, if_neg hother, hbasked]
        refine (hσ.congr fun i hi => ?_).append (hτ.congr fun i hi => ?_)
        · exact (if_pos (Cond.mem_asked hi).2).symm
        · exact (if_neg (Nat.not_lt.mpr (Cond.mem_asked hi).1)).symm
  · rintro ⟨σ, rfl, hσ⟩
    rw [h.asked] at hσ
    obtain ⟨m₁, hσa, hσb⟩ := hσ.of_append
    refine ⟨_, m₁, (iha ha).mpr ⟨σ, rfl, hσa⟩, ?_⟩
    rw [h.holds]
    split at hσb
    next hfirst =>
      cases hσb
      rw [if_pos hfirst, if_pos hfirst]
      rfl
    next hother =>
      rw [if_neg hother, if_neg hother]
      exact (ihb hb).mpr ⟨σ, rfl, hσb⟩

theorem asksAtoms (env : Environment) (c : Cond) : AsksAtoms env c := by
  induction c using Cond.shapes with
  | const b =>
    intro atoms n _ m m' v
    constructor
    · rintro ⟨⟩
      exact ⟨fun _ => false, rfl, .nil m⟩
    · rintro ⟨_, rfl, ⟨⟩⟩
      rfl
  -- the assignment says for the atom what its evaluation gives
  | atom c hc =>
    intro atoms n hatoms m m' v
    rw [hc.atoms_eq] at hatoms
    have hfound := getElem?_of_drop hatoms
    constructor
    · intro hrun
      refine ⟨fun _ => v, hc.holds_eq _ n, ?_⟩
      rw [hc.asked_eq]
      exact .cons hfound hrun (.nil m')
    · rintro ⟨σ, rfl, hσ⟩
      rw [hc.asked_eq] at hσ
      rw [hc.holds_eq]
      cases hσ with
      | cons found outcome rest =>
        cases rest
        rw [hfound] at found
        cases found
        exact outcome
  | not c ih =>
    intro atoms n hatoms m m' v
    show (do return !(← cond env c) : Evaluation Bool).run.run m = _ ↔ _
    rw [run_bind_eq_ok]
    constructor
    · rintro ⟨x, m₁, hx, hrest⟩
      cases hrest
      obtain ⟨σ, rfl, hσ⟩ := (ih hatoms).mp hx
      exact ⟨σ, rfl, hσ⟩
    · rintro ⟨σ, rfl, hσ⟩
      exact ⟨_, m', (ih hatoms).mpr ⟨σ, rfl, hσ⟩, rfl⟩
  | and a b iha ihb => exact asksAtoms_joins (Cond.joins_and a b) (cond_and a b) iha ihb
  | or a b iha ihb => exact asksAtoms_joins (Cond.joins_or a b) (cond_or a b) iha ihb

/-- Direct evaluation of a condition gives an outcome if and only if it is that of some assignment,
and the atoms that are asked under this assignment have been evaluated in order and have come out as
it says. -/
theorem cond_eq_ok_iff {c : Cond} {b : Bool} : (cond env c).run.run m = (.ok b, m') ↔
    ∃ σ, c.holds σ 0 = b ∧ Evaluates env c.atoms σ m (c.asked σ 0) m' :=
  asksAtoms env c (List.prefix_refl _)

/-! ## 2. Pieces of code -/

inductive Piece where
  | jump (start next target : Nat)
  /-- Code that evaluates the atom with this number, and goes to `target` if it comes out as
  `when`. -/
  | test (start next : Nat) (atom : Cond) (number : Nat) (when : Bool) (target : Nat)

namespace Piece

def start : Piece → Nat
  | .jump start _ _ | .test start _ _ _ _ _ => start

def next : Piece → Nat
  | .jump _ next _ | .test _ next _ _ _ _ => next

def atom? : Piece → Option (Cond × Nat)
  | .jump .. => none
  | .test _ _ atom number _ _ => some (atom, number)

def asks : Piece → List Nat
  | .jump .. => []
  | .test _ _ _ number _ _ => [number]

def leads (σ : Nat → Bool) : Piece → Nat
  | .jump _ _ target => target
  | .test _ next _ number when target => if σ number = when then target else next

def Stands (P : Program) (layout : Layout) : Piece → Prop
  | .jump start next target => P.fetch start = some (.goto ⟨target⟩, next - start)
  | .test start next atom _ when target =>
    ∀ env, Jumps env P layout start next atom when target True True

end Piece

def tested (pieces : List Piece) : List (Cond × Nat) := pieces.filterMap Piece.atom?

theorem tested_append (ps qs : List Piece) : tested (ps ++ qs) = tested ps ++ tested qs :=
  List.filterMap_append

/-- From `p` to `q` the pieces stand in the program, one behind the other and with nothing between
them. -/
inductive Outline (P : Program) (layout : Layout) : Nat → List Piece → Nat → Prop
  | nil (p : Nat) : Outline P layout p [] p
  | cons {s : Piece} {ps : List Piece} {q : Nat} (stands : s.Stands P layout)
      (lt : s.start < s.next) (rest : Outline P layout s.next ps q) :
      Outline P layout s.start (s :: ps) q

variable {p q r x y : Nat} {ps qs : List Piece} {s s' : Piece}

namespace Outline

theorem single (stands : s.Stands P layout) (lt : s.start < s.next) :
    Outline P layout s.start [s] s.next :=
  .cons stands lt (.nil _)

theorem append (h : Outline P layout p ps q) (h' : Outline P layout q qs r) :
    Outline P layout p (ps ++ qs) r := by
  induction h with
  | nil => exact h'
  | cons stands lt _ ih => exact .cons stands lt (ih h')

theorem stands (h : Outline P layout p ps q) (hs : s ∈ ps) : s.Stands P layout := by
  induction h with
  | nil => cases hs
  | cons stands _ _ ih =>
    rcases List.mem_cons.mp hs with rfl | hs
    · exact stands
    · exact ih hs

theorem within (h : Outline P layout p ps q) : p ≤ q ∧ ∀ s ∈ ps, p ≤ s.start ∧ s.start < q := by
  induction h with
  | nil p => exact ⟨Nat.le_refl p, nofun⟩
  | @cons s rest q _ lt _ ih =>
    obtain ⟨hle, hrest⟩ := ih
    refine ⟨by omega, List.forall_mem_cons.mpr ⟨by omega, fun s' hs' => ?_⟩⟩
    have := hrest s' hs'
    omega

/-- No two pieces begin at the same place. -/
theorem start_inj (h : Outline P layout p ps q) (hs : s ∈ ps) (hs' : s' ∈ ps)
    (hstart : s.start = s'.start) : s = s' := by
  induction h with
  | nil => cases hs
  | @cons t rest q _ lt hrest ih =>
    have hbehind := hrest.within.2
    rcases List.mem_cons.mp hs with rfl | hin <;> rcases List.mem_cons.mp hs' with rfl | hin'
    · rfl
    · have := hbehind s' hin'
      omega
    · have := hbehind s hin
      omega
    · exact ih hin hin'

end Outline

/-! ## 3. Ways through the pieces -/

/-- A way through the pieces from one place to another, on which these atoms are asked. -/
inductive Walks (ps : List Piece) (σ : Nat → Bool) : Nat → List Nat → Nat → Prop
  | stay (p : Nat) : Walks ps σ p [] p
  | through {s : Piece} {is : List Nat} {q : Nat} (mem : s ∈ ps)
      (rest : Walks ps σ (s.leads σ) is q) : Walks ps σ s.start (s.asks ++ is) q

namespace Walks

theorem trans (h : Walks ps σ p is q) (h' : Walks ps σ q js r) : Walks ps σ p (is ++ js) r := by
  induction h with
  | stay => exact h'
  | through mem _ ih =>
    rw [List.append_assoc]
    exact .through mem (ih h')

theorem mono (h : Walks ps σ p is q) (hsub : ps ⊆ qs) : Walks qs σ p is q := by
  induction h with
  | stay p => exact .stay p
  | through mem _ ih => exact .through (hsub mem) ih

/-- One piece. -/
theorem single (s : Piece) (σ : Nat → Bool) : Walks [s] σ s.start s.asks (s.leads σ) := by
  have h : Walks [s] σ s.start (s.asks ++ []) (s.leads σ) :=
    .through (List.mem_singleton.mpr rfl) (.stay _)
  rwa [List.append_nil] at h

/-- There is one way only that leaves the pieces behind. -/
theorem unique (houtline : Outline P layout r ps q) (h : Walks ps σ p is x) (h' : Walks ps σ p js y)
    (hx : q ≤ x) (hy : q ≤ y) : is = js ∧ x = y := by
  have hbelow {s : Piece} (hs : s ∈ ps) : s.start < q := (houtline.within.2 s hs).2
  induction h generalizing js y with
  | stay p =>
    cases h' with
    | stay => exact ⟨rfl, rfl⟩
    | through mem _ => exact absurd (hbelow mem) (Nat.not_lt.mpr hx)
  | @through s is x mem _ ih =>
    generalize hp : s.start = p at h'
    cases h' with
    | stay => exact absurd (hbelow mem) (by omega)
    | @through s' js y mem' rest' =>
      -- no other piece begins where the first way goes on
      obtain rfl := houtline.start_inj mem mem' hp
      obtain ⟨rfl, rfl⟩ := ih rest' hx hy
      exact ⟨rfl, rfl⟩

/-- The machine takes the way on which the atoms come out as the assignment says.  It finds the
operand stack of its end as it was at the beginning. -/
theorem reaches (h : Walks ps σ p is q) (hstands : ∀ s ∈ ps, s.Stands P layout)
    (hatoms : ∀ e ∈ tested ps, atoms[e.2]? = some e.1) {μ : Slots Machine.Value}
    (hagree : Agree layout m.locals μ)
    (heval : Evaluates env atoms σ m is m') (stack : List Machine.Value) :
    Reaches env P (.running p stack μ m.past) (.running q stack μ m'.past) := by
  induction h generalizing m with
  | stay p =>
    cases heval
    exact .refl _
  | @through s is q mem _ ih =>
    have hs := hstands s mem
    cases s with
    | jump start next target =>
      exact (reaches_execute hs rfl).trans (ih hagree heval)
    | test start next atom number when target =>
      -- the test has the outcome that its atom is evaluated to, which is that of the assignment
      cases heval with
      | @cons _ m₁ _ _ _ atom' found outcome rest =>
        have hmem : (atom, number) ∈ tested ps := List.mem_filterMap.mpr ⟨_, mem, rfl⟩
        obtain rfl : atom' = atom := Option.some.inj (found.symm.trans (hatoms _ hmem))
        have hfollows := hs env m μ stack hagree
        unfold Follows at hfollows
        rw [outcome] at hfollows
        obtain ⟨d, hd, hlocals, hconfig⟩ := hfollows
        have hd' : d = .running (if σ number = when then target else next) stack μ m₁.past := by
          rcases hconfig with ⟨hwhen, -, rfl⟩ | ⟨hother, -, rfl⟩
          · rw [if_pos (show σ number = when from hwhen)]
          · rw [if_neg (show ¬σ number = when from hother)]
        exact hd.trans (hd' ▸ ih (hlocals ▸ hagree) rest)

end Walks

/-! ## 4. Code for conditions -/

/-- From `p` to `q` the pieces are code for the condition, the first atom of which has the number
`n`.  If control gets there, it goes on to `t` if the condition comes out as `when`, and otherwise
to `q`. -/
structure Outlined (P : Program) (layout : Layout) (c : Cond) (n : Nat) (when : Bool) (t : Nat)
    (live : Prop) (p : Nat) (ps : List Piece) (q : Nat) : Prop where
  outline : Outline P layout p ps q
  tested : (tested ps).Sublist (c.atoms.zipIdx n)
  walks : live → ∀ σ, Walks ps σ p (c.asked σ n) (if c.holds σ n = when then t else q)

/-- Code for two operands.  Where the first one decides, control does not get to the code for the
second. -/
theorem Outlined.joins {c a b : Cond} {first when : Bool} {t t' : Nat} {live live' : Prop}
    (hc : c.Joins a b first) (ha : Outlined P layout a n first t' live p ps q)
    (hb : Outlined P layout b (n + a.atoms.length) when t live' q qs r)
    (hlive : live → a.CanBe n (!first) → live') (ht : t' = if first = when then t else r) :
    Outlined P layout c n when t live p (ps ++ qs) r where
  outline := ha.outline.append hb.outline
  tested := by
    rw [tested_append, hc.atoms, List.zipIdx_append]
    exact ha.tested.append hb.tested
  walks h σ := by
    have hwalk := (ha.walks h σ).mono (List.subset_append_left ps qs)
    rw [hc.asked, hc.holds]
    by_cases hfirst : a.holds σ n = first
    · rw [if_pos hfirst, ht] at hwalk
      rw [if_pos hfirst, if_pos hfirst, List.append_nil]
      exact hwalk
    · have hwalk' := hb.walks (hlive h ⟨σ, Bool.eq_not.mpr hfirst⟩) σ
      rw [if_neg hfirst] at hwalk
      rw [if_neg hfirst, if_neg hfirst]
      exact hwalk.trans (hwalk'.mono (List.subset_append_right ps qs))

end MethodGraft.Direct
