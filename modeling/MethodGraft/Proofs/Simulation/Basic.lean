import MethodGraft.Proofs.Machine.Direct
import MethodGraft.Proofs.Runs

/-!
# Proofs.Simulation.Basic — code that follows an evaluation

`Follows env P x m c E Q` says that a run of the program `P` from the configuration `c` keeps up
with the evaluation of `x` from the memory `m`: where `x` has a result the run gets to a
configuration that `Q` relates to it, and where `x` ends early the run gets to one that `E` relates
to that.  Evaluations that follow one another are followed by code that follows one another.
-/

namespace MethodGraft.Direct

open ClassFile Code Typed Machine

variable {env : Environment} {P : Program} {α β : Type}

def Follows (env : Environment) (P : Program) (x : Evaluation α) (m : Memory) (c : Config)
    (E : Exit → Memory → Config → Prop) (Q : α → Memory → Config → Prop) : Prop :=
  match x.run.run m with
  | (.ok a, m') => ∃ d, Reaches env P c d ∧ Q a m' d
  | (.error e, m') => ∃ d, Reaches env P c d ∧ E e m' d

def Ends : Exit → Memory → Config → Prop
  | .thrown e, m, c => c = .ended (.thrown e) m.past
  | .returned v, m, c => c = .ended (.returned v) m.past
  | .stuck, _, _ => False

namespace Follows

variable {x : Evaluation α} {m : Memory} {c d : Config} {E : Exit → Memory → Config → Prop}
  {Q : α → Memory → Config → Prop}

/-! ## 1. Composition -/

theorem ofPure {a : α} (h : Q a m c) : Follows env P (pure a) m c E Q := ⟨c, .refl c, h⟩

theorem ofThrow {e : Exit} (h : E e m c) : Follows env P (throw e : Evaluation α) m c E Q :=
  ⟨c, .refl c, h⟩

theorem ofGet {Q : Memory → Memory → Config → Prop} (h : Q m m c) :
    Follows env P (get : Evaluation Memory) m c E Q := ⟨c, .refl c, h⟩

theorem ofSet {Q : PUnit → Memory → Config → Prop} {m' : Memory} (h : Q ⟨⟩ m' c) :
    Follows env P (set m' : Evaluation PUnit) m c E Q := ⟨c, .refl c, h⟩

theorem ofRun {a : α} {m' : Memory} (hrun : x.run.run m = (.ok a, m')) (hd : Reaches env P c d)
    (h : Q a m' d) : Follows env P x m c E Q := by
  unfold Follows
  rw [hrun]
  exact ⟨d, hd, h⟩

/-- Steps of the machine before the evaluation begins. -/
theorem after (hcd : Reaches env P c d) (h : Follows env P x m d E Q) :
    Follows env P x m c E Q := by
  unfold Follows at h ⊢
  generalize x.run.run m = out at h ⊢
  obtain ⟨r, m'⟩ := out
  cases r with
  | ok a =>
    obtain ⟨d', hd', hQ⟩ := h
    exact ⟨d', hcd.trans hd', hQ⟩
  | error e =>
    obtain ⟨d', hd', hE⟩ := h
    exact ⟨d', hcd.trans hd', hE⟩

theorem bind {f : α → Evaluation β} {R : β → Memory → Config → Prop} (h : Follows env P x m c E Q)
    (hf : ∀ a m' d, Q a m' d → Follows env P (f a) m' d E R) :
    Follows env P (x >>= f) m c E R := by
  unfold Follows at h ⊢
  rw [run_bind]
  generalize x.run.run m = out at h ⊢
  obtain ⟨r, m'⟩ := out
  cases r with
  | ok a =>
    obtain ⟨d, hd, hQ⟩ := h
    exact (hf a m' d hQ).after hd
  | error e => exact h

/-- A weaker end, perhaps after more steps. -/
theorem andThen {R : α → Memory → Config → Prop} (h : Follows env P x m c E Q)
    (hQR : ∀ a m' d, Q a m' d → ∃ d', Reaches env P d d' ∧ R a m' d') :
    Follows env P x m c E R := by
  unfold Follows at h ⊢
  generalize x.run.run m = out at h ⊢
  obtain ⟨r, m'⟩ := out
  cases r with
  | ok a =>
    obtain ⟨d, hd, hQ⟩ := h
    obtain ⟨d', hd', hR⟩ := hQR a m' d hQ
    exact ⟨d', hd.trans hd', hR⟩
  | error e => exact h

theorem mono {R : α → Memory → Config → Prop} (h : Follows env P x m c E Q)
    (hQR : ∀ a m' d, Q a m' d → R a m' d) : Follows env P x m c E R :=
  h.andThen fun a m' d hQ => ⟨d, .refl d, hQR a m' d hQ⟩

/-- A weaker early end, perhaps after more steps. -/
theorem exits {E' : Exit → Memory → Config → Prop} (h : Follows env P x m c E Q)
    (hEE' : ∀ e m' d, E e m' d → ∃ d', Reaches env P d d' ∧ E' e m' d') :
    Follows env P x m c E' Q := by
  unfold Follows at h ⊢
  generalize x.run.run m = out at h ⊢
  obtain ⟨r, m'⟩ := out
  cases r with
  | ok a => exact h
  | error e =>
    obtain ⟨d, hd, hE⟩ := h
    obtain ⟨d', hd', hE'⟩ := hEE' e m' d hE
    exact ⟨d', hd.trans hd', hE'⟩

end Follows

/-! ## 2. Single instructions -/

variable {m : Memory} {p n : Nat} {op : Operation} {stack rest : List Machine.Value}
  {locals : Slots Machine.Value}

/-- One instruction. -/
theorem reaches_execute {past : List Action} {d : Config} (hfetch : P.fetch p = some (op, n))
    (h : execute env P.pool op p (p + n) stack locals past = some d) :
    Reaches env P (.running p stack locals past) d := by
  apply Reaches.single
  show (P.fetch p).bind _ = some d
  rw [hfetch]
  exact h

theorem execute_action {past : List Action} {next pc : Nat} {a : Action}
    (ha : action? P.pool op stack = some (a, rest)) :
    execute env P.pool op pc next stack locals past =
      some (respond env a pc next rest locals past) := by
  cases op with
  | branch | goto => simp [action?] at ha
  | ret k => cases k <;> simp [action?] at ha
  | _ =>
    unfold execute
    simp only [ha]

def Raises (p q : Nat) (locals : Slots Machine.Value) (before : Slots Machine.Value) :
    Exit → Memory → Config → Prop
  | .thrown e, m, c => m.locals = before ∧ ∃ pc, p ≤ pc ∧ pc < q ∧ c = .raising pc e locals m.past
  | _, _, _ => False

/-- A value was pushed, unless there is none of this kind, and the locals are as they were. -/
structure Pushed (kind : Option ValueKind) (m : Memory) (next : Nat) (rest : List Machine.Value)
    (locals : Slots Machine.Value) (v : Machine.Value) (m' : Memory) (d : Config) : Prop where
  locals_eq : m'.locals = m.locals
  kind_eq : ∀ k, kind = some k → v.kind = k
  config : d = .running next (if kind.isSome then v :: rest else rest) locals m'.past

/-- An instruction that leaves the answer to everything to the environment. -/
theorem follows_perform {a : Action} (hfetch : P.fetch p = some (op, n)) (hn : 0 < n)
    (ha : action? P.pool op stack = some (a, rest)) :
    Follows env P (perform env a) m (.running p stack locals m.past)
      (Raises p (p + n) locals m.locals) (Pushed a.kind m (p + n) rest locals) := by
  have hstep : Reaches env P (.running p stack locals m.past)
      (respond env a p (p + n) rest locals m.past) := reaches_execute hfetch (execute_action ha)
  have hget : Follows env P (get : Evaluation Memory) m (respond env a p (p + n) rest locals m.past)
      (Raises p (p + n) locals m.locals)
      fun now m' d => now = m ∧ m' = m ∧ d = respond env a p (p + n) rest locals m.past :=
    .ofGet ⟨rfl, rfl, rfl⟩
  refine .after hstep (hget.bind ?_)
  rintro now m' d ⟨rfl, rfl, rfl⟩
  have hset : Follows env P (set { m' with past := a :: m'.past } : Evaluation PUnit) m'
      (respond env a p (p + n) rest locals m'.past) (Raises p (p + n) locals m'.locals)
      fun _ m'' d => m'' = { m' with past := a :: m'.past } ∧
        d = respond env a p (p + n) rest locals m'.past := .ofSet ⟨rfl, rfl⟩
  refine hset.bind ?_
  rintro - m'' d ⟨rfl, rfl⟩
  unfold respond
  cases hans : env.answer m'.past a with
  | ok v => exact .ofPure ⟨rfl, env.answer_kind _ _ _ hans, rfl⟩
  | error e => exact .ofThrow ⟨rfl, p, Nat.le_refl p, by omega, rfl⟩

def Uncovered (P : Program) (p q : Nat) : Prop :=
  ∀ h ∈ P.handlers, h.endPc.toNat ≤ p ∨ q ≤ h.startPc.toNat

theorem Uncovered.sub {p q p' q' : Nat} (h : Uncovered P p q) (hp : p ≤ p') (hq : q' ≤ q) :
    Uncovered P p' q' := by
  intro e he
  rcases h e he with h | h
  · exact .inl (Nat.le_trans h hp)
  · exact .inr (Nat.le_trans hq h)

/-- Where no handler covers the code, an exception ends the method. -/
theorem Uncovered.ends {p q : Nat} (hun : Uncovered P p q) {locals before : Slots Machine.Value} :
    ∀ e m d, Raises p q locals before e m d → ∃ d', Reaches env P d d' ∧ Ends e m d' := by
  rintro (e | v | _) m d hraise
  · obtain ⟨-, pc, hle, hlt, rfl⟩ := hraise
    refine ⟨.ended (.thrown e) m.past, .single ?_, rfl⟩
    have hnone : P.handlers.find? (handles env P.pool pc e) = none := by
      rw [List.find?_eq_none]
      intro h hh
      rcases hun h hh with hend | hstart
      · simp [handles]
        omega
      · simp [handles]
        omega
    simp only [step, hnone]
  · cases hraise
  · cases hraise

end MethodGraft.Direct
