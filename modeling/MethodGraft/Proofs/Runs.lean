import Mathlib.Data.List.Forall2

/-!
# Proofs.Runs — runs of steps that may fail

All steps of the library that change something are of the form `ExceptT ε (StateM σ)`: what they
changed before they failed stays.  `Ensures x Q` says that a result of `x`, if there is one, has the
property `Q`, whatever the state was.
-/

namespace MethodGraft

variable {ε σ α β : Type}

/-- A sequence of results has a result if both its steps do. -/
theorem bind_eq_ok_iff {x : Except ε α} {f : α → Except ε β} {b : β} :
    (x >>= f) = .ok b ↔ ∃ a, x = .ok a ∧ f a = .ok b := by
  cases x <;> simp [bind, Except.bind]

/-- A sequence of results fails where one of its steps does. -/
theorem bind_eq_error {x : Except ε α} {f : α → Except ε β} {e : ε} (h : x >>= f = .error e) :
    x = .error e ∨ ∃ a, x = .ok a ∧ f a = .error e := by
  cases x with
  | error e' =>
    cases h
    exact .inl rfl
  | ok a => exact .inr ⟨a, rfl, h⟩

theorem mapError_eq_ok_iff {ε' : Type} {x : Except ε α} {f : ε → ε'} {a : α} :
    x.mapError f = .ok a ↔ x = .ok a := by
  cases x with
  | error e => exact ⟨(by cases ·), (by cases ·)⟩
  | ok b =>
    exact ⟨fun h => congrArg Except.ok (Except.ok.inj h),
      fun h => congrArg Except.ok (Except.ok.inj h)⟩

theorem mapError_eq_error {ε' : Type} {x : Except ε α} {f : ε → ε'} {e' : ε'}
    (h : x.mapError f = .error e') : ∃ e, e' = f e := by
  cases x with
  | error e =>
    cases h
    exact ⟨e, rfl⟩
  | ok a => cases h

theorem toOption_eq_some {x : Except ε α} {a : α} (h : x.toOption = some a) : x = .ok a := by
  cases x with
  | error e => cases h
  | ok b => exact congrArg Except.ok (Option.some.inj h)

theorem exists_of_isOk {x : Except ε α} (h : x.isOk = true) : ∃ a, x = .ok a := by
  cases x with
  | error e => cases h
  | ok a => exact ⟨a, rfl⟩

theorem eq_error_of_map {x : Except ε α} {f : α → β} {e : ε} (h : x.map f = .error e) :
    x = .error e := by
  cases x with
  | error e' => exact congrArg Except.error (Except.error.inj h)
  | ok a => cases h

/-- A list of results is one result for each. -/
theorem mapM_eq_ok_iff {f : α → Except ε β} {as : List α} {bs : List β} :
    as.mapM f = .ok bs ↔ List.Forall₂ (fun a b => f a = .ok b) as bs := by
  induction as generalizing bs with
  | nil =>
    rw [List.mapM_nil, List.forall₂_nil_left_iff]
    exact ⟨fun h => (Except.ok.inj h).symm, fun h => h ▸ rfl⟩
  | cons a as ih =>
    rw [List.mapM_cons, bind_eq_ok_iff, List.forall₂_cons_left_iff]
    constructor
    · rintro ⟨b, hb, h⟩
      obtain ⟨bs, hbs, h⟩ := bind_eq_ok_iff.mp h
      cases h
      exact ⟨b, bs, hb, ih.mp hbs, rfl⟩
    · rintro ⟨b, bs, hb, hbs, rfl⟩
      exact ⟨b, hb, bind_eq_ok_iff.mpr ⟨bs, ih.mpr hbs, rfl⟩⟩

theorem forall₂_mem_left {R : α → β → Prop} {as : List α} {bs : List β}
    (h : List.Forall₂ R as bs) : ∀ a ∈ as, ∃ b ∈ bs, R a b := by
  induction h with
  | nil => simp
  | cons hab _ ih =>
    simp only [List.mem_cons, forall_eq_or_imp]
    refine ⟨⟨_, .inl rfl, hab⟩, fun a ha => ?_⟩
    obtain ⟨b, hb, hR⟩ := ih a ha
    exact ⟨b, .inr hb, hR⟩

/-- A sequence runs its second step from where the first one ended, if that did not fail. -/
theorem run_bind (x : ExceptT ε (StateM σ) α) (f : α → ExceptT ε (StateM σ) β) (s : σ) :
    (x >>= f).run.run s =
      match x.run.run s with
      | (.ok a, s') => (f a).run.run s'
      | (.error e, s') => (.error e, s') := by
  unfold ExceptT.run StateT.run
  simp only [bind, ExceptT.bind, ExceptT.mk, StateT.bind, ExceptT.bindCont]
  cases x s with
  | mk r s' => cases r <;> rfl

theorem run_get_bind (f : σ → ExceptT ε (StateM σ) β) (s : σ) :
    (get >>= f).run.run s = (f s).run.run s := rfl

theorem run_bind_eq_ok {x : ExceptT ε (StateM σ) α} {f : α → ExceptT ε (StateM σ) β} {s s' : σ}
    {b : β} : (x >>= f).run.run s = (.ok b, s') ↔
      ∃ a t, x.run.run s = (.ok a, t) ∧ (f a).run.run t = (.ok b, s') := by
  rw [run_bind]
  cases x.run.run s with
  | mk r t =>
    constructor
    · intro h
      cases r with
      | ok a => exact ⟨a, t, rfl, h⟩
      | error e => cases h
    · rintro ⟨a, t', hx, hf⟩
      cases hx
      exact hf

/-- A fault that is reported if `c` holds is not reported where the step succeeds. -/
theorem run_refusing_eq_ok {c : Prop} [Decidable c] {e : ε} {f : α → ExceptT ε (StateM σ) β}
    {x : ExceptT ε (StateM σ) β} {s s' : σ} {b : β}
    (h : (if c then throw e >>= f else x).run.run s = (.ok b, s')) :
    ¬c ∧ x.run.run s = (.ok b, s') := by
  split at h
  next => cases h
  next hc => exact ⟨hc, h⟩

/-- What handles a failure goes on from where the step failed. -/
theorem run_tryCatch (x : ExceptT ε (StateM σ) α) (handle : ε → ExceptT ε (StateM σ) α) (s : σ) :
    (tryCatch x handle).run.run s =
      match x.run.run s with
      | (.ok a, s') => (.ok a, s')
      | (.error e, s') => (handle e).run.run s' := by
  unfold ExceptT.run StateT.run
  show ExceptT.tryCatch x handle s = _
  simp only [ExceptT.tryCatch, bind, ExceptT.mk, StateT.bind]
  cases x s with
  | mk r s' => cases r <;> rfl

def Ensures (x : ExceptT ε (StateM σ) α) (Q : α → Prop) : Prop :=
  ∀ s a s', x.run.run s = (.ok a, s') → Q a

namespace Ensures

variable {x : ExceptT ε (StateM σ) α} {P Q : α → Prop}

theorem ofPure {a : α} (h : Q a) : Ensures (pure a : ExceptT ε (StateM σ) α) Q := by
  intro s b s' hrun
  cases hrun
  exact h

theorem ofThrow {e : ε} : Ensures (throw e : ExceptT ε (StateM σ) α) Q := by
  intro s b s' hrun
  cases hrun

/-- An outcome that changes nothing. -/
theorem ofMk {r : Except ε α} (h : ∀ a, r = .ok a → Q a) :
    Ensures (ExceptT.mk (pure r) : ExceptT ε (StateM σ) α) Q := by
  intro s b s' hrun
  cases hrun
  exact h b rfl

theorem any : Ensures x fun _ => True := fun _ _ _ _ => trivial

theorem mono (h : Ensures x P) (hPQ : ∀ a, P a → Q a) : Ensures x Q :=
  fun s a s' hrun => hPQ a (h s a s' hrun)

theorem bind {f : α → ExceptT ε (StateM σ) β} {R : β → Prop} (h : Ensures x P)
    (hf : ∀ a, P a → Ensures (f a) R) : Ensures (x >>= f) R := by
  intro s b s' hrun
  obtain ⟨a, t, hx, hfa⟩ := run_bind_eq_ok.mp hrun
  exact hf a (h s a t hx) t b s' hfa

/-- A first step of whose result nothing is known. -/
theorem after {f : α → ExceptT ε (StateM σ) β} {R : β → Prop} (hf : ∀ a, Ensures (f a) R) :
    Ensures (x >>= f) R := any.bind fun a _ => hf a

/-- A fault that is reported if `c` holds. -/
theorem refusing {c : Prop} [Decidable c] {e : ε} {f : α → ExceptT ε (StateM σ) β}
    {y : ExceptT ε (StateM σ) β} {R : β → Prop} (h : ¬c → Ensures y R) :
    Ensures (if c then throw e >>= f else y) R := by
  split
  next =>
    have hfail : Ensures (throw e : ExceptT ε (StateM σ) α) fun _ => False := ofThrow
    exact hfail.bind fun _ => False.elim
  next hc => exact h hc

/-- A sequence of tests comes out true only if each of them does. -/
theorem allM {test : α → ExceptT ε (StateM σ) Bool} {holds : α → Prop} {as : List α}
    (h : ∀ a ∈ as, Ensures (test a) fun b => b = true → holds a) :
    Ensures (as.allM test) fun b => b = true → ∀ a ∈ as, holds a := by
  induction as with
  | nil => exact .ofPure (by simp)
  | cons a as ih =>
    refine (h a List.mem_cons_self).bind fun b hb => ?_
    cases b with
    | false => exact .ofPure (by simp)
    | true =>
      refine (ih fun c hc => h c (List.mem_cons_of_mem a hc)).mono fun b hrest hb' => ?_
      simp only [List.forall_mem_cons]
      exact ⟨hb rfl, hrest hb'⟩

end Ensures

end MethodGraft
