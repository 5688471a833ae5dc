import Mathlib.Data.Fin.VecNotation
import Mathlib.Data.List.FinRange
import MethodGraft.Proofs.Patch.Sight
import MethodGraft.Proofs.Patch.Turns
import MethodGraft.Proofs.Typed.Choice

/-!
# Proofs.Patch.Interleaving — jobs side by side

Several jobs take their turns in any order.  If none of them writes where another reads or writes,
the tree is at every moment what the jobs by themselves have made of it, put together, and so it
does not matter who was first.
-/

namespace MethodGraft

/-! ## 1. Batches -/

namespace Classpath

def Entry.path : Entry → Files.Path
  | .archive path | .directory path => path

end Classpath

namespace Patch

open Classpath Files

/-- Jobs that are done side by side, and the tree that they start from. -/
structure Batch (n : Nat) extends Setting where
  jobs : Fin n → Job
  tree : Tree

structure Moment (n : Nat) where
  tree : Tree
  phases : Fin n → Phase

/-- The entry of a classpath is the same archive in both trees, or a directory that serves the same
classes under all names that stay inside it. -/
def SameInside (t u : Tree) : Entry → Prop
  | .archive path => u.read path = t.read path
  | .directory path =>
    ∀ name, Inward name → u.read? (path.ofClass name) = t.read? (path.ofClass name)

/-- What becomes of the archive does not hinge on what a directory serves under a name that leads
out of it. -/
def LooksInward (t : Tree) (classpath : List Entry) (spec : Spec) (name : String)
    (bytes : List UInt8) : Prop :=
  ∀ u, (∀ e ∈ classpath, SameInside t u e) → outcome u classpath spec name bytes =
    outcome t classpath spec name bytes

variable {n : Nat}

namespace Batch

def start (b : Batch n) : Moment n := ⟨b.tree, fun _ => .waiting⟩

def advance (b : Batch n) (m : Moment n) (i : Fin n) : Moment n :=
  let next := b.turn (b.jobs i) (m.phases i) m.tree
  ⟨next.2, Function.update m.phases i next.1⟩

def play (b : Batch n) (m : Moment n) (schedule : List (Fin n)) : Moment n :=
  schedule.foldl b.advance m

def prepared (b : Batch n) : Tree :=
  b.tree.withDirectories ((List.finRange n).flatMap fun i => b.tree.made (b.jobs i).dest)

/-- The paths that are read: the inputs of the jobs and the roots of the classpath. -/
def IsRead (b : Batch n) (p : Path) : Prop :=
  (∃ i, p = (b.jobs i).input) ∨ ∃ e ∈ b.classpath, p = e.path

abbrev target? (b : Batch n) (i : Fin n) : Option Location := (b.jobs i).target? b.tree

/-- The jobs do not write where they or others read, or where others write: the places of
destinations and of temporary files are not on the ways of paths that are read, nor on those to
other destinations, and no destination is in a directory of classes. -/
structure Apart (b : Batch n) : Prop where
  targets :
    ∀ i, ∀ l ∈ b.target? i, (∀ j ≠ i, l ∉ b.tree.way (b.jobs j).dest) ∧
    ∀ p, b.IsRead p → l ∉ b.tree.way p
  outside : ∀ i, ∀ l ∈ b.target? i, ∀ p, .directory p ∈ b.classpath → ¬b.tree.goal p <+: l
  temporaries : ∀ i, ∀ l ∈ b.temporary? (b.jobs i) b.tree,
    (∀ j, l ∉ b.tree.way (b.jobs j).dest) ∧ ∀ p, b.IsRead p → l ∉ b.tree.way p

/-- Nor does it make a difference to what is read that directories are made for the destinations. -/
structure Independent (b : Batch n) : Prop extends b.Apart where
  sound : b.tree.Sound
  steady : ∀ p, b.IsRead p → b.prepared.read p = b.tree.read p
  inward : ∀ i bytes, b.tree.read (b.jobs i).input = .ok bytes →
    LooksInward b.tree b.classpath b.spec (b.jobs i).name bytes

abbrev lone (b : Batch n) (i : Fin n) (turns : Nat) : Phase × Tree :=
  b.alone (b.jobs i) b.tree turns

abbrev Owned (b : Batch n) (i : Fin n) (l : Location) : Prop := Owns b.toSetting (b.jobs i) b.tree l

end Batch

/-! ## 2. What belongs to one job -/

section

variable {b : Batch n} {i j : Fin n} {l : Location}

theorem Batch.trace (h : b.Independent) (i : Fin n) (turns : Nat) :
    Trace b.toSetting (b.jobs i) b.tree (b.lone i turns).1 (b.lone i turns).2 :=
  trace_alone (fun l hl => (h.temporaries i l hl).1 i) turns

theorem target?_mem_way (hl : l ∈ b.target? i) : l ∈ b.tree.way (b.jobs i).dest := by
  obtain ⟨name, hname, rfl⟩ := Option.map_eq_some_iff.mp hl
  exact (Tree.mem_way_iff hname).mpr (.inr rfl)

theorem Batch.Owned.notMem_way (h : b.Independent) (hl : b.Owned i l) (hij : j ≠ i) :
    l ∉ b.tree.way (b.jobs j).dest :=
  hl.elim (fun hl => (h.targets i l hl).1 j hij) fun hl => (h.temporaries i l hl).1 j

/-- Two jobs with the same temporary file would have the same destination. -/
theorem Batch.Owned.notMem_temporary? (h : b.Independent) (hl : b.Owned i l) (hij : j ≠ i) :
    l ∉ b.temporary? (b.jobs j) b.tree := by
  intro hj
  obtain hi | hi := hl
  · exact (h.temporaries j l hj).1 i (target?_mem_way hi)
  · have hsame := target?_of_temporary? hi hj
    obtain ⟨name, hname, -⟩ := Option.map_eq_some_iff.mp hi
    have htarget : _ ∈ b.target? i := target?_eq (t := b.tree) hname
    have htarget' : _ ∈ b.target? j := hsame.trans htarget
    exact (h.targets i _ htarget).1 j hij (target?_mem_way htarget')

/-- What belongs to one job is not touched by another. -/
theorem Batch.Owned.apart (h : b.Independent) (hl : b.Owned i l) (hij : j ≠ i) (turns : Nat) :
    (b.lone j turns).2.get? l = b.tree.get? l := by
  have hway := hl.notMem_way h hij
  obtain hsame | ⟨hmade, -⟩ | ⟨htarget, -⟩ :=
    (Batch.trace h j turns).frame l (hl.notMem_temporary? h hij)
  · exact hsame
  · exact (hway (Tree.parentWay_subset _ _ (b.tree.made_subset _ hmade))).elim
  · exact (hway (target?_mem_way htarget)).elim

end

/-! ## 3. Moments -/

/-- Every job has come as far as it would have come by itself, and the tree is what they make of it
by themselves, put together. -/
structure Batch.Consistent (b : Batch n) (turns : Fin n → Nat) (m : Moment n) : Prop where
  start : m.tree.workingDirectory = b.tree.workingDirectory
  phases : ∀ i, m.phases i = (b.lone i (turns i)).1
  /-- At a place there is what one of the jobs has made of it, or what was there, if none has
  changed it. -/
  merged : ∀ l,
    (∃ i, (b.lone i (turns i)).2.get? l ≠ b.tree.get? l ∧
      m.tree.get? l = (b.lone i (turns i)).2.get? l) ∨
      (∀ i, (b.lone i (turns i)).2.get? l = b.tree.get? l) ∧ m.tree.get? l = b.tree.get? l

section

variable {b : Batch n} {turns : Fin n → Nat} {m : Moment n} {i : Fin n} {l : Location} {p : Path}

/-- What belongs to a job is as it would be if the job had been by itself. -/
theorem Batch.Consistent.own (hm : b.Consistent turns m) (h : b.Independent) (hl : b.Owned i l) :
    m.tree.get? l = (b.lone i (turns i)).2.get? l := by
  obtain ⟨j, hchanged, heq⟩ | ⟨hsame, heq⟩ := hm.merged l
  · by_cases hij : j = i
    · rw [heq, hij]
    · exact (hchanged (hl.apart h hij _)).elim
  · rw [heq, hsame i]

/-- Directories only are made at places that belong to no job. -/
theorem lone_free (h : b.Independent) (hl : ¬b.Owned i l) (turns : Nat) :
    (b.lone i turns).2.get? l = b.tree.get? l ∨
      l ∈ b.tree.made (b.jobs i).dest ∧ b.tree.get? l = none ∧
        (b.lone i turns).2.get? l = some .directory := by
  obtain ⟨htarget, htemporary⟩ := not_or.mp hl
  obtain hsame | hmade | ⟨hmem, -⟩ := (Batch.trace h i turns).frame l htemporary
  · exact .inl hsame
  · exact .inr hmade
  · exact (htarget hmem).elim

theorem Batch.get?_prepared (b : Batch n) (l : Location) : b.prepared.get? l =
    if (∃ i, l ∈ b.tree.made (b.jobs i).dest) ∧ b.tree.get? l = none then some .directory
    else b.tree.get? l := by
  unfold Batch.prepared
  rw [Tree.get?_withDirectories]
  simp

/-- At a place that belongs to no job the tree has grown at most, and what has grown there is part
of what was to be prepared. -/
theorem Batch.Consistent.grown (hm : b.Consistent turns m) (h : b.Independent)
    (hl : ∀ i, ¬b.Owned i l) : b.tree.Grown m.tree l ∧ m.tree.Grown b.prepared l := by
  have hprepared := b.get?_prepared l
  obtain ⟨j, hchanged, heq⟩ | ⟨-, heq⟩ := hm.merged l
  · obtain hsame | ⟨hmade, hnone, hnew⟩ := lone_free h (hl j) (turns j)
    · exact (hchanged hsame).elim
    · rw [if_pos ⟨⟨j, hmade⟩, hnone⟩] at hprepared
      rw [hnew] at heq
      exact ⟨.inr ⟨hnone, heq⟩, .inl (hprepared.trans heq.symm)⟩
  · refine ⟨.inl heq, ?_⟩
    split at hprepared
    next hmade => exact .inr ⟨heq.trans hmade.2, hprepared⟩
    next => exact .inl (hprepared.trans heq.symm)

theorem free_of_isRead (h : b.Independent) (hp : b.IsRead p) (hl : l ∈ b.tree.way p) (i : Fin n) :
    ¬b.Owned i l := by
  rintro (htarget | htemporary)
  · exact (h.targets i l htarget).2 p hp hl
  · exact (h.temporaries i l htemporary).2 p hp hl

/-- Paths are read at every moment as at the start. -/
theorem Batch.Consistent.read (hm : b.Consistent turns m) (h : b.Independent) (hp : b.IsRead p) :
    b.tree.Grows m.tree (b.tree.way p) ∧ m.tree.read p = b.tree.read p := by
  have hgrown (l : Location) (hl : l ∈ b.tree.way p) := hm.grown h (free_of_isRead h hp hl)
  have hstart : b.prepared.workingDirectory = m.tree.workingDirectory :=
    (b.tree.workingDirectory_withDirectories _).trans hm.start.symm
  have hgrows : b.tree.Grows m.tree (b.tree.way p) := ⟨hm.start, fun l hl => (hgrown l hl).1⟩
  exact ⟨hgrows, Tree.read_between hgrows ⟨hstart, fun l hl => (hgrown l hl).2⟩ (h.steady p hp)⟩

/-- The classpath serves at every moment what it served at the start. -/
theorem Batch.Consistent.sameInside (hm : b.Consistent turns m) (h : b.Independent) {e : Entry}
    (he : e ∈ b.classpath) : SameInside b.tree m.tree e := by
  have hread := hm.read h (p := e.path) (.inr ⟨e, he, rfl⟩)
  cases e with
  | archive p => exact hread.2
  | directory p =>
    intro name hname
    refine Tree.read?_ofClass h.sound hread.1 hread.2 (fun l hl => ?_) hname
    refine (hm.grown h ?_).1
    rintro i (htarget | htemporary)
    · exact h.outside i l htarget p he hl
    · obtain ⟨name, hname, rfl⟩ := Option.map_eq_some_iff.mp htemporary
      obtain heq | hplace := List.prefix_concat_iff.mp hl
      · exact (h.temporaries i _ htemporary).2 p (.inr ⟨_, he, rfl⟩) (heq ▸ b.tree.goal_mem_way p)
      · have hdirectory := hplace.trans (List.prefix_append _ [name])
        exact h.outside i _ (target?_eq hname) p he hdirectory

/-- What a job has changed by itself it has changed among others. -/
theorem Batch.Consistent.changed (hm : b.Consistent turns m) (h : b.Independent)
    (hl : (b.lone i (turns i)).2.get? l ≠ b.tree.get? l) :
    m.tree.get? l = (b.lone i (turns i)).2.get? l := by
  by_cases hown : b.Owned i l
  · exact hm.own h hown
  · obtain hsame | ⟨-, -, hnew⟩ := lone_free h hown (turns i)
    · exact (hl hsame).elim
    · obtain ⟨j, hchanged, heq⟩ | ⟨hsame, -⟩ := hm.merged l
      · have hown' : ¬b.Owned j l := by
          intro hj
          by_cases hij : i = j
          · exact hown (hij ▸ hj)
          · exact hl (hj.apart h hij _)
        obtain hsame | ⟨-, -, hnew'⟩ := lone_free h hown' (turns j)
        · exact (hchanged hsame).elim
        · rw [heq, hnew', hnew]
      · exact (hl (hsame i)).elim

/-- To every job the tree is as good as the one it would have by itself. -/
theorem Batch.Consistent.shadows (hm : b.Consistent turns m) (h : b.Independent) (i : Fin n) :
    Shadows b.toSetting (b.jobs i) b.tree (b.lone i (turns i)).2 m.tree := by
  refine ⟨hm.start, fun l hl => hm.own h hl, fun l hl => ?_, (hm.read h (.inl ⟨i, rfl⟩)).2,
    fun bytes hread => ?_⟩
  · by_cases hchanged : (b.lone i (turns i)).2.get? l = b.tree.get? l
    · by_cases hown : b.Owned i l
      · exact .inl (hm.own h hown)
      · have hfree : ∀ j, ¬b.Owned j l := by
          intro j hj
          by_cases hij : i = j
          · exact hown (hij ▸ hj)
          · exact hj.notMem_way h hij (b.tree.parentWay_subset _ hl)
        unfold Tree.Grown
        rw [hchanged]
        exact (hm.grown h hfree).1
    · exact .inl (hm.changed h hchanged)
  · exact h.inward i bytes hread m.tree fun e he => hm.sameInside h he

/-! ## 4. Turns in any order -/

theorem Batch.consistent_start (b : Batch n) : b.Consistent (fun _ => 0) b.start :=
  ⟨rfl, fun _ => rfl, fun _ => .inr ⟨fun _ => rfl, rfl⟩⟩

/-- A turn of one job leaves the others as far as they are, and the tree is put together still. -/
theorem Batch.Consistent.advance (hm : b.Consistent turns m) (h : b.Independent) (i : Fin n) :
    b.Consistent (Function.update turns i (turns i + 1)) (b.advance m i) := by
  obtain ⟨hphase, hstart, halike⟩ := turn_shadows (Batch.trace h i (turns i)) (hm.shadows h i)
  have hphases : (b.advance m i).phases = Function.update m.phases i
      (b.lone i (turns i + 1)).1 := by
    unfold Batch.advance
    rw [hm.phases i]
    exact congrArg (Function.update m.phases i) hphase
  have htree : (b.advance m i).tree = (b.turn (b.jobs i) (b.lone i (turns i)).1 m.tree).2 := by
    unfold Batch.advance
    rw [hm.phases i]
  -- only the turns of `i` count one more
  have hsame (j : Fin n) (hij : j ≠ i) :
      b.lone j (Function.update turns i (turns i + 1) j) = b.lone j (turns j) := by
    rw [Function.update_of_ne hij]
  have hnext : b.lone i (Function.update turns i (turns i + 1) i) = b.lone i (turns i + 1) := by
    rw [Function.update_self]
  refine ⟨htree ▸ hstart, fun j => ?_, fun l => ?_⟩
  · rw [hphases]
    by_cases hij : j = i
    · rw [hij, Function.update_self, hnext]
    · rw [Function.update_of_ne hij, hsame j hij, hm.phases j]
  · rw [htree]
    obtain ⟨ha, hb⟩ | ⟨heq, howner⟩ := halike l
    · have hkept (j : Fin n) : (b.lone j (Function.update turns i (turns i + 1) j)).2.get? l =
          (b.lone j (turns j)).2.get? l := by
        by_cases hij : j = i
        · rw [hij, hnext]
          exact ha
        · rw [hsame j hij]
      simp only [hkept, hb]
      exact hm.merged l
    -- what `i` has changed at `l` is there from now on; if it has changed nothing, `l` is its own
    -- and none of the others has either
    · by_cases hchanged : (b.lone i (turns i + 1)).2.get? l = b.tree.get? l
      · have hown : b.Owned i l := howner.resolve_right (not_not.mpr hchanged)
        refine .inr ⟨fun j => ?_, heq.trans hchanged⟩
        by_cases hij : j = i
        · rw [hij, hnext, hchanged]
        · exact hown.apart h hij _
      · refine .inl ⟨i, ?_, ?_⟩
        · rw [hnext]
          exact hchanged
        · rw [hnext]
          exact heq

/-- However the jobs take turns, each of them comes as far as it would come by itself. -/
theorem Batch.consistent_play (h : b.Independent) (schedule : List (Fin n)) :
    b.Consistent (fun i => schedule.count i) (b.play b.start schedule) := by
  induction schedule using List.reverseRecOn with
  | nil => exact b.consistent_start
  | append_singleton schedule i ih =>
    have hcount : (fun j => (schedule ++ [i]).count j) =
        Function.update (fun j => schedule.count j) i (schedule.count i + 1) := by
      funext j
      by_cases hij : j = i
      · rw [hij, Function.update_self]
        simp
      · rw [Function.update_of_ne hij]
        simp [Ne.symm hij]
    rw [hcount]
    unfold Batch.play
    rw [List.foldl_append]
    exact ih.advance h i

/-! ## 5. One job after another -/

theorem Batch.play_append (b : Batch n) (m : Moment n) (schedule more : List (Fin n)) :
    b.play m (schedule ++ more) = b.play (b.play m schedule) more := List.foldl_append

/-- A job that has not begun and takes several turns in a row does so as it would by itself. -/
theorem play_replicate (hi : m.phases i = .waiting) (turns : Nat) :
    b.play m (List.replicate turns i) =
    ⟨(b.alone (b.jobs i) m.tree turns).2,
      Function.update m.phases i (b.alone (b.jobs i) m.tree turns).1⟩ := by
  induction turns with
  | zero =>
    rw [Setting.alone, ← hi, Function.update_eq_self]
    rfl
  | succ turns ih =>
    rw [List.replicate_succ', b.play_append, ih]
    show b.advance _ i = _
    unfold Batch.advance
    simp only [Function.update_self, Function.update_idem]
    rfl

def inTurn (order : List (Fin n)) : List (Fin n) := order.flatMap (List.replicate turnLimit)

theorem count_inTurn (order : List (Fin n)) (i : Fin n) :
    (inTurn order).count i = turnLimit * order.count i := by
  induction order with
  | nil => rfl
  | cons j order ih =>
    rw [inTurn, List.flatMap_cons, List.count_append, List.count_replicate, List.count_cons,
      Nat.mul_add]
    refine (congrArg _ ih).trans ?_
    split <;> simp [Nat.add_comm]

theorem play_phases {schedule : List (Fin n)} (hi : i ∉ schedule) (m : Moment n) :
    (b.play m schedule).phases i = m.phases i := by
  induction schedule generalizing m with
  | nil => rfl
  | cons j schedule ih =>
    obtain ⟨hij, hi⟩ := not_or.mp (mt List.mem_cons.mpr hi)
    exact (ih hi (b.advance m j)).trans (Function.update_of_ne hij _ _)

theorem run_transformAll_cons {process : Nat} {classpath : List Entry} {spec : Spec} {job : Job}
    {jobs : List Job} (t : Tree) : (transformAll process classpath spec (job :: jobs)).run t =
      let first := (transformFile process classpath spec job).run.run t
      let others := (transformAll process classpath spec jobs).run first.2
      (first.1 :: others.1, others.2) := rfl

/-- Jobs that are done one after another are jobs that take their turns one after another. -/
theorem transformAll_eq_play {order : List (Fin n)} (hnodup : order.Nodup) (m : Moment n)
    (hwaiting : ∀ i ∈ order, m.phases i = .waiting) :
    ((transformAll b.process b.classpath b.spec (order.map b.jobs)).run m.tree).2 =
    (b.play m (inTurn order)).tree ∧
      List.Forall₂ (fun i result => (b.play m (inTurn order)).phases i = .finished result) order
        ((transformAll b.process b.classpath b.spec (order.map b.jobs)).run m.tree).1 := by
  induction order generalizing m with
  | nil => exact ⟨rfl, .nil⟩
  | cons i order ih =>
    obtain ⟨hi, hnodup⟩ := List.nodup_cons.mp hnodup
    obtain ⟨hfirst, hwaiting⟩ := List.forall_mem_cons.mp hwaiting
    obtain ⟨result, hresult⟩ :
        ∃ result, (b.alone (b.jobs i) m.tree turnLimit).1 = .finished result :=
      finished_alone (Nat.le_refl _)
    have hrun : (transformFile b.process b.classpath b.spec (b.jobs i)).run.run m.tree = _ :=
      alone_finished hresult
    have hplay : b.play m (inTurn (i :: order)) =
        b.play (b.play m (List.replicate turnLimit i)) (inTurn order) :=
      b.play_append m _ _
    have hothers : i ∉ inTurn order := by simp [inTurn, hi]
    rw [hplay, play_replicate hfirst, List.map_cons, run_transformAll_cons, hrun, hresult]
    have hstill : ∀ j ∈ order, Function.update m.phases i (.finished result) j = .waiting := by
      intro j hj
      have hne : j ≠ i := fun heq => hi (heq ▸ hj)
      rw [Function.update_of_ne hne, hwaiting j hj]
    obtain ⟨htree, hresults⟩ := ih hnodup ⟨(b.alone (b.jobs i) m.tree turnLimit).2,
      Function.update m.phases i (.finished result)⟩ hstill
    refine ⟨htree, .cons ?_ hresults⟩
    rw [play_phases hothers]
    exact Function.update_self ..

/-! ## 6. Jobs do not disturb each other -/

theorem alone_eq {s : Setting} {job : Job} {t : Tree} {turns more : Nat}
    {result : Except Error Transformed}
    (h : (s.alone job t turns).1 = .finished result) :
    s.alone job t (turns + more) = s.alone job t turns := by
  induction more with
  | zero => rfl
  | succ more ih =>
    rw [← Nat.add_assoc, Setting.alone, ih]
    exact Prod.ext (by rw [h]; rfl) (by rw [h]; rfl)

/-- Jobs by themselves that have come to their end. -/
theorem lone_eq {turns' : Nat} {result result' : Except Error Transformed} {turns : Nat}
    (h : (b.lone i turns).1 = .finished result) (h' : (b.lone i turns').1 = .finished result') :
    b.lone i turns = b.lone i turns' := by
  obtain hle | hle := Nat.le_total turns turns'
  · obtain ⟨more, rfl⟩ := Nat.exists_eq_add_of_le hle
    exact (alone_eq h).symm
  · obtain ⟨more, rfl⟩ := Nat.exists_eq_add_of_le hle
    exact alone_eq h'

/-- Moments to which the jobs have come equally far are alike. -/
theorem Batch.Consistent.unique {m' : Moment n} {turns' : Fin n → Nat} (hm : b.Consistent turns m)
    (hm' : b.Consistent turns' m') (h : b.Independent)
    (hturns : ∀ i, b.lone i (turns i) = b.lone i (turns' i)) :
    (∀ i, m'.phases i = m.phases i) ∧ ∀ l, m'.tree.get? l = m.tree.get? l := by
  refine ⟨fun i => by rw [hm.phases, hm'.phases, hturns], fun l => ?_⟩
  obtain ⟨i, hchanged, heq⟩ | ⟨hsame, heq⟩ := hm.merged l
  · rw [heq, hturns]
    exact hm'.changed h (by rwa [← hturns])
  · obtain ⟨j, hchanged, -⟩ | ⟨-, heq'⟩ := hm'.merged l
    · exact (hchanged (by rw [← hturns, hsame])).elim
    · rw [heq, heq']

theorem Batch.Consistent.finished (hm : b.Consistent turns m) {result : Except Error Transformed}
    (hi : m.phases i = .finished result) :
    ((transformFile b.process b.classpath b.spec (b.jobs i)).run.run b.tree).1 = result := by
  have hrun := alone_finished ((hm.phases i).symm.trans hi)
  exact congrArg Prod.fst hrun

/-- Until a job has published its file, a file that was at its destination is there. -/
theorem Batch.Consistent.target (hm : b.Consistent turns m) (h : b.Independent)
    (hl : l ∈ b.target? i) : m.tree.contentAt l = b.tree.contentAt l ∨
      ∃ result, m.phases i = .finished (.ok result) ∧ m.tree.contentAt l = some result.bytes := by
  have htemporary : l ∉ b.temporary? (b.jobs i) b.tree := fun hmem =>
    (h.temporaries i l hmem).1 i (target?_mem_way hl)
  unfold Tree.contentAt
  rw [hm.own h (.inl hl), hm.phases i]
  obtain hsame | ⟨-, hnone, hnew⟩ | ⟨-, result, hphase, hnode⟩ :=
    (Batch.trace h i (turns i)).frame l htemporary
  · exact .inl (by rw [hsame])
  · exact .inl (by rw [hnone, hnew])
  · exact .inr ⟨result, hphase, by rw [hnode]⟩

/-- A job that has succeeded has published its file. -/
theorem Batch.Consistent.published (hm : b.Consistent turns m) (h : b.Independent)
    {result : Transformed} (hi : m.phases i = .finished (.ok result)) :
    ∃ l ∈ b.target? i, m.tree.contentAt l = some result.bytes := by
  have hstage := (Batch.trace h i (turns i)).stage
  rw [← hm.phases i, hi] at hstage
  obtain ⟨l, hl, hnode⟩ := hstage
  refine ⟨l, hl, ?_⟩
  unfold Tree.contentAt
  rw [hm.own h (.inl hl), hnode]

end

/-- What it means that the jobs of a batch, taking turns as in the schedule, do not disturb each
other. -/
structure Batch.Undisturbed (b : Batch n) (schedule : List (Fin n)) : Prop where
  /-- Each destination has its old contents, or all that its own job makes of its input. -/
  destinations :
    ∀ i, ∀ l ∈ b.target? i, (b.play b.start schedule).tree.contentAt l = b.tree.contentAt l ∨
    ∃ result, (b.play b.start schedule).phases i = .finished (.ok result) ∧
      (b.play b.start schedule).tree.contentAt l = some result.bytes
  /-- A job that has come to its end has the result that it has by itself. -/
  results : ∀ i result, (b.play b.start schedule).phases i = .finished result →
    ((transformFile b.process b.classpath b.spec (b.jobs i)).run.run b.tree).1 = result
  /-- A job that has succeeded has published its file. -/
  published : ∀ i result, (b.play b.start schedule).phases i = .finished (.ok result) →
    ∃ l ∈ b.target? i, (b.play b.start schedule).tree.contentAt l = some result.bytes
  /-- A job that has failed has left its destination as it was. -/
  failed : ∀ i e, (b.play b.start schedule).phases i = .finished (.error e) →
    ∀ l ∈ b.target? i, (b.play b.start schedule).tree.contentAt l = b.tree.contentAt l
  /-- A job that has been given enough turns has come to its end. -/
  ends :
    ∀ i, turnLimit ≤ schedule.count i →
    ∃ result, (b.play b.start schedule).phases i = .finished result
  /-- When all jobs have come to their end, the results and the whole tree are those of doing one
  after another. -/
  orders : (∀ i, ∃ result, (b.play b.start schedule).phases i = .finished result) →
    ∀ order : List (Fin n), order.Perm (List.finRange n) →
      let sequential := (transformAll b.process b.classpath b.spec (order.map b.jobs)).run b.tree
      List.Forall₂ (fun i result => (b.play b.start schedule).phases i = .finished result) order
        sequential.1 ∧ ∀ l, (b.play b.start schedule).tree.get? l = sequential.2.get? l

/-- Jobs that write nowhere where others read or write do not disturb each other, however they take
their turns. -/
theorem Batch.Independent.undisturbed {b : Batch n} (h : b.Independent) (schedule : List (Fin n)) :
    b.Undisturbed schedule := by
  have hm := Batch.consistent_play h schedule
  constructor
  case destinations => exact fun i l hl => hm.target h hl
  case results => exact fun i result hi => hm.finished hi
  case published => exact fun i result hi => hm.published h hi
  case failed =>
    intro i e hi l hl
    refine (hm.target h hl).resolve_right ?_
    rintro ⟨out, hout, -⟩
    cases hi.symm.trans hout
  case ends =>
    intro i hi
    rw [hm.phases i]
    exact finished_alone hi
  case orders =>
    intro hall order horder
    -- one after the other is an order of turns as well, in which each job has all of its turns at
    -- once
    have hsequential := Batch.consistent_play h (inTurn order)
    have hnodup := horder.nodup_iff.mpr (List.nodup_finRange n)
    have hcount (i : Fin n) : (inTurn order).count i = turnLimit := by
      rw [count_inTurn, List.count_eq_one_of_mem hnodup (horder.mem_iff.mpr (List.mem_finRange i)),
        Nat.mul_one]
    obtain ⟨htree, hresults⟩ := transformAll_eq_play (b := b) hnodup b.start fun _ _ => rfl
    -- a job that is finished stays as it is, whatever turns are left
    obtain ⟨hphases, hnodes⟩ := hm.unique hsequential h fun i => by
      obtain ⟨result, hresult⟩ := hall i
      obtain ⟨result', hresult'⟩ :
          ∃ result', (b.lone i ((inTurn order).count i)).1 = .finished result' :=
        finished_alone (hcount i).ge
      exact lone_eq ((hm.phases i).symm.trans hresult) hresult'
    refine ⟨hresults.imp fun i result hi => (hphases i).symm.trans hi, fun l => ?_⟩
    exact (hnodes l).symm.trans (congrArg (fun u => u.get? l) htree.symm)

theorem same_of_sameInside {t u : Tree} {e : Entry} (h : SameInside t u e) : e.Same Inward t u := by
  cases e with
  | archive path => exact Entry.same_archive h
  | directory path => exact Entry.same_directory h

/-- A patch looks inward if all its classes are in archives. -/
theorem looksInward_of_archives {t : Tree} {classpath : List Entry}
    (h : ∀ e ∈ classpath, ∃ path, e = .archive path)
    (spec : Spec) (name : String) (bytes : List UInt8) :
    LooksInward t classpath spec name bytes := by
  intro u hu
  refine (transformArchive_same (N := fun _ => True) (fun e he => ?_) spec name bytes
    (.inl fun _ => trivial)).symm
  obtain ⟨path, rfl⟩ := h e he
  exact Entry.same_archive (hu _ he)

/-- A patch looks inward if it succeeds and the names that it has looked up stay inside
directories. -/
theorem looksInward_of_names {t : Tree} {classpath : List Entry} {spec : Spec} {name : String}
    {bytes : List UInt8} (hok : (outcome t classpath spec name bytes).isOk = true)
    (hnames :
      ∀ known ∈ ((transformArchive t classpath spec name bytes).run.run {}).2.resolver.cache,
      Inward known.1) :
    LooksInward t classpath spec name bytes := by
  intro u hu
  refine (transformArchive_same (fun e he => same_of_sameInside (hu e he)) spec name bytes
    (.inr ⟨hok, ?_⟩)).symm
  intro looked hlooked
  obtain ⟨found, hfound⟩ := Option.isSome_iff_exists.mp hlooked
  exact hnames (looked, found) (mem_of_lookup hfound)

theorem Batch.forall_isRead {b : Batch n} {P : Path → Prop} :
    (∀ p, b.IsRead p → P p) ↔ (∀ i, P (b.jobs i).input) ∧ ∀ e ∈ b.classpath, P e.path := by
  unfold Batch.IsRead
  constructor
  · exact fun h => ⟨fun i => h _ (.inl ⟨i, rfl⟩), fun e he => h _ (.inr ⟨e, he, rfl⟩)⟩
  · rintro ⟨hinputs, hroots⟩ p (⟨i, rfl⟩ | ⟨e, he, rfl⟩)
    · exact hinputs i
    · exact hroots e he

/-! Batches for examples. -/

def testSpec : Spec := ⟨"flutter", "demo/T", "foo", "()V", "_old", [], "void foo() { bar(); }"⟩

def testArchive (superName : String) : List UInt8 :=
  let file := Typed.fileOf (Typed.classOf "demo/T" (some superName) [] [("foo", "()V")])
  Archive.assemble
    [.ofFile "demo/T.class" ⟨.stored, 0, 33, none, false⟩ (file.encode.toOption.getD [])] []

/-- The first job patches a class whose superclass is in a directory.  The second one fails after
its temporary file is written, since its destination asks for a directory. -/
def testBatch : Batch 2 where
  process := 7
  classpath := [.directory (.ofText "classes")]
  spec := testSpec
  jobs := ![⟨"flutter.jar", .ofText "in.jar", .ofText "out/a.jar"⟩,
    ⟨"plain.jar", .ofText "in.jar", .ofText "out/b.jar/"⟩]
  tree := { nodes := [(["in.jar"], .file (testArchive "S")), (["classes"], .directory),
    (["classes", "S.class"], .file
      ((Typed.fileOf (Typed.classOf "S" none [] [("bar", "()V")])).encode.toOption.getD []))] }

/-- Both jobs look inward: one has looked up the class and its superclass, the other one nothing. -/
theorem looksInward_testBatch (i : Fin 2) :
    LooksInward testBatch.tree testBatch.classpath testBatch.spec
    (testBatch.jobs i).name (testArchive "S") := by
  apply looksInward_of_names
  · revert i
    decide +kernel
  · revert i
    decide +kernel

theorem independent_testBatch : testBatch.Independent where
  targets := by
    simp only [Batch.forall_isRead]
    decide +kernel
  outside := by
    intro i l hl p hp
    obtain rfl : p = .ofText "classes" := by simpa [testBatch] using hp
    revert i l
    decide
  temporaries := by
    simp only [Batch.forall_isRead]
    decide +kernel
  sound := Tree.sound_of_nodes (by decide +kernel)
  steady := by
    simp only [Batch.forall_isRead]
    decide +kernel
  inward i bytes hbytes := by
    have hinput : ∀ i, testBatch.tree.read (testBatch.jobs i).input = .ok (testArchive "S") := by
      decide +kernel
    obtain rfl := Except.ok.inj (hbytes.symm.trans (hinput i))
    exact looksInward_testBatch i

theorem undisturbed_testBatch :
    testBatch.Independent ∧ testBatch.Undisturbed [0, 1, 1, 0, 0, 1, 1, 0, 0, 1, 1] :=
  ⟨independent_testBatch, independent_testBatch.undisturbed _⟩

def outputs (b : Batch n) (order : List (Fin n)) : List (Except Error (List UInt8)) :=
  ((transformAll b.process b.classpath b.spec (order.map b.jobs)).run b.tree).1.map
    fun r => r.map Transformed.bytes

/-- Two jobs that do not disturb each other publish the same in both orders. -/
theorem Batch.Undisturbed.outputs_reverse {b : Batch 2} (h : b.Undisturbed (inTurn [0, 1])) :
    outputs b [1, 0] = (outputs b [0, 1]).reverse := by
  have hends : ∀ i, turnLimit ≤ (inTurn [(0 : Fin 2), 1]).count i := by decide
  have hnodup : [(0 : Fin 2), 1].Nodup := by decide
  obtain ⟨-, hforward⟩ := transformAll_eq_play (b := b) hnodup b.start fun _ _ => rfl
  obtain ⟨hbackward, -⟩ := h.orders (fun i => h.ends i (hends i)) [1, 0] (by decide)
  obtain ⟨first, rest, hfirst, hrest, hresults⟩ := List.forall₂_cons_left_iff.mp hforward
  obtain ⟨second, none, hsecond, hnone, rfl⟩ := List.forall₂_cons_left_iff.mp hrest
  obtain ⟨second', rest', hsecond', hrest', hresults'⟩ := List.forall₂_cons_left_iff.mp hbackward
  obtain ⟨first', none', hfirst', hnone', rfl⟩ := List.forall₂_cons_left_iff.mp hrest'
  cases hnone
  cases hnone'
  cases hfirst.symm.trans hfirst'
  cases hsecond.symm.trans hsecond'
  calc outputs b [1, 0]
    _ = [second, first].map fun r => r.map Transformed.bytes := by rw [outputs, hresults']
    _ = ([first, second].map fun r => r.map Transformed.bytes).reverse := rfl
    _ = (outputs b [0, 1]).reverse := by rw [outputs, ← hresults]; rfl

/-- The input of the second job leads through the directory that is made for the first one. -/
def detourBatch : Batch 2 where
  process := 7
  classpath := []
  spec := testSpec
  jobs := ![⟨"plain.jar", .ofText "in.jar", .ofText "out/a.jar"⟩,
    ⟨"plain.jar", .ofText "out/../in.jar", .ofText "b.jar"⟩]
  tree := { nodes := [(["in.jar"], .file [0])] }

/-- The superclass is looked for outside the directory of classes, through the directory that is
made for the first job. -/
def outwardBatch : Batch 2 where
  process := 7
  classpath := [.directory (.ofText "classes")]
  spec := testSpec
  jobs := ![⟨"plain.jar", .ofText "in.jar", .ofText "out/a.jar"⟩,
    ⟨"flutter.jar", .ofText "in.jar", .ofText "b.jar"⟩]
  tree := { nodes := [(["in.jar"], .file (testArchive "../out/../classes/S")),
    (["classes"], .directory), (["classes", "S.class"], .file [0])] }

theorem apart_detourBatch : detourBatch.Apart where
  targets := by
    simp only [Batch.forall_isRead]
    decide
  outside := by simp [detourBatch]
  temporaries := by
    simp only [Batch.forall_isRead]
    decide

theorem apart_outwardBatch : outwardBatch.Apart where
  targets := by
    simp only [Batch.forall_isRead]
    decide
  outside := by
    intro i l hl p hp
    obtain rfl : p = .ofText "classes" := by simpa [outwardBatch] using hp
    revert i l
    decide
  temporaries := by
    simp only [Batch.forall_isRead]
    decide

set_option maxRecDepth 100000 in
/-- It is not enough that the jobs write nowhere where others read or write.  A job can fail if it
is done before another, and succeed or fail in a different way if it is done after it: if its input
is reached through a directory that the other makes, or if everything is read alike with that
directory and without it, but a class is reached through it. -/
theorem apart_disturbed :
    (detourBatch.Apart ∧ detourBatch.tree.Sound ∧ ¬detourBatch.Undisturbed (inTurn [0, 1])) ∧
    outwardBatch.Apart ∧ outwardBatch.tree.Sound ∧
      (∀ p, outwardBatch.IsRead p → outwardBatch.prepared.read p = outwardBatch.tree.read p) ∧
      ¬outwardBatch.Undisturbed (inTurn [0, 1]) := by
  refine ⟨⟨apart_detourBatch, Tree.sound_of_nodes (by decide), fun h => ?_⟩, apart_outwardBatch,
    Tree.sound_of_nodes (by decide +kernel), ?_, fun h => ?_⟩
  · have hne : outputs detourBatch [1, 0] ≠ (outputs detourBatch [0, 1]).reverse := by
      decide +kernel
    exact hne h.outputs_reverse
  · simp only [Batch.forall_isRead]
    decide +kernel
  · have hne : outputs outwardBatch [1, 0] ≠ (outputs outwardBatch [0, 1]).reverse := by
      decide +kernel
    exact hne h.outputs_reverse

end Patch

end MethodGraft
