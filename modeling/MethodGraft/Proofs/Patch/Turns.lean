import MethodGraft.Patch.Transform
import MethodGraft.Proofs.Files.Publish

/-!
# Proofs.Patch.Turns — the steps of a job

A job reads its input, reads the classpath, makes directories, writes a temporary file and moves
that into its place, or takes it away.  Each of these is one turn, and between two turns the tree
may change.
-/

namespace MethodGraft.Patch

open Classpath Files

/-! ## 1. Turns -/

inductive Phase where
  | waiting
  | loaded (bytes : List UInt8)
  | transformed (result : Transformed)
  /-- The directory for the file `name` is there. -/
  | placed (result : Transformed) (name : String) (directory : Location)
  /-- The temporary file for `name` is written. -/
  | written (result : Transformed) (name : String) (directory : Location)
  /-- The temporary file could not be moved into its place. -/
  | refused (fault : Fault) (temporary : Location)
  | finished (result : Except Error Transformed)

def Phase.failed (f : Fault) : Phase := .finished (.error (.archive (.io f)))

def outcome (tree : Tree) (classpath : List Entry) (spec : Spec) (name : String)
    (bytes : List UInt8) :
    Except Error Transformed := ((transformArchive tree classpath spec name bytes).run.run {}).1

/-- What the jobs of a batch have in common: the number of the process, the classpath and the
patch. -/
structure Setting where
  process : Nat
  classpath : List Entry
  spec : Spec

namespace Setting

def turn (s : Setting) (job : Job) : Phase → Tree → Phase × Tree
  | .waiting, t =>
    match t.read job.input with
    | .ok bytes => (.loaded bytes, t)
    | .error f => (.failed f, t)
  | .loaded bytes, t =>
    match outcome t s.classpath s.spec job.name bytes with
    | .ok result => (.transformed result, t)
    | .error e => (.finished (.error e), t)
  | .transformed result, t =>
    match job.dest.fileName? with
    | none => (.finished (.error (.notAFilePath job.dest.text)), t)
    | some name =>
      match (createParent job.dest).run.run t with
      | (.ok directory, u) => (.placed result name directory, u)
      | (.error f, u) => (.failed f, u)
  | .placed result name directory, t =>
    match (writeFile directory (temporaryName s.process name) result.bytes).run.run t with
    | (.ok _, u) => (.written result name directory, u)
    | (.error f, u) => (.failed f, u)
  | .written result name directory, t =>
    let temporary := directory ++ [temporaryName s.process name]
    match (replaceFile job.dest temporary (directory ++ [name])).run.run t with
    | (.ok _, u) => (.finished (.ok result), u)
    | (.error f, u) => (.refused f temporary, u)
  | .refused f temporary, t => (.failed f, ((discardFile temporary).run.run t).2)
  | .finished result, t => (.finished result, t)

def alone (s : Setting) (job : Job) (t : Tree) : (turns : Nat) → Phase × Tree
  | 0 => (.waiting, t)
  | turns + 1 => s.turn job (s.alone job t turns).1 (s.alone job t turns).2

def transform (s : Setting) (job : Job) : Action Error Transformed :=
  transformFile s.process s.classpath s.spec job

end Setting

variable {s : Setting} {job : Job} {t : Tree} {ph : Phase}

/-! ## 2. Turns and runs -/

def Phase.left : Phase → Nat
  | .waiting => 6
  | .loaded _ => 5
  | .transformed _ => 4
  | .placed .. => 3
  | .written .. => 2
  | .refused .. => 1
  | .finished _ => 0

def turnLimit : Nat := Phase.waiting.left

theorem Phase.left_eq_zero (h : ph.left = 0) : ∃ result, ph = .finished result := by
  cases ph with
  | finished result => exact ⟨result, rfl⟩
  | _ => cases h

/-- Every turn brings a job nearer to its end. -/
theorem left_turn (ph : Phase) (t : Tree) : (s.turn job ph t).1.left ≤ ph.left - 1 := by
  cases ph with
  | waiting =>
    rw [Setting.turn]
    cases t.read job.input <;> simp [Phase.left, Phase.failed]
  | loaded bytes =>
    rw [Setting.turn]
    cases outcome t s.classpath s.spec job.name bytes <;> simp [Phase.left]
  | transformed result =>
    rw [Setting.turn]
    cases job.dest.fileName? with
    | none => simp [Phase.left]
    | some name =>
      obtain ⟨r, u⟩ := (createParent job.dest).run.run t
      cases r <;> simp [Phase.left, Phase.failed]
  | placed result name directory =>
    rw [Setting.turn]
    obtain ⟨r, u⟩ := (writeFile directory (temporaryName s.process name) result.bytes).run.run t
    cases r <;> simp [Phase.left, Phase.failed]
  | written result name directory =>
    rw [Setting.turn]
    obtain ⟨r, u⟩ := (replaceFile job.dest (directory ++ [temporaryName s.process name])
      (directory ++ [name])).run.run t
    cases r <;> simp [Phase.left]
  | refused f temporary => exact Nat.le_refl 0
  | finished result => exact Nat.le_refl 0

theorem left_alone (turns : Nat) : (s.alone job t turns).1.left ≤ turnLimit - turns := by
  induction turns with
  | zero => exact Nat.le_refl _
  | succ turns ih =>
    have hturn : (s.alone job t (turns + 1)).1.left ≤ (s.alone job t turns).1.left - 1 :=
      left_turn _ _
    exact hturn.trans (by omega)

/-- A job that is given enough turns comes to its end. -/
theorem finished_alone {turns : Nat} (h : turnLimit ≤ turns) :
    ∃ result, (s.alone job t turns).1 = .finished result := by
  have hleft : (s.alone job t turns).1.left ≤ turnLimit - turns := left_alone turns
  exact Phase.left_eq_zero (by omega)

def publishing (result : Transformed) (x : Action PublishError Unit) :
    Action Error Transformed := do
  x.adapt ofPublishing
  return result

def Setting.rest (s : Setting) (job : Job) : Phase → Action Error Transformed
  | .waiting => s.transform job
  | .loaded bytes => do
    let tree ← get
    let result ← ExceptT.mk (pure (outcome tree s.classpath s.spec job.name bytes))
    publishing result (publish s.process job.dest result.bytes)
  | .transformed result => publishing result (publish s.process job.dest result.bytes)
  | .placed result name directory =>
    publishing result do
      let temporary := temporaryName s.process name
      faultOf (writeFile directory temporary result.bytes)
      faultOf (moveIntoPlace job.dest (directory ++ [temporary]) (directory ++ [name]))
  | .written result name directory =>
    publishing result
      (faultOf
        (moveIntoPlace job.dest (directory ++ [temporaryName s.process name])
          (directory ++ [name])))
  | .refused f temporary =>
    publishing (.copied []) (faultOf (discardFile temporary >>= fun _ => throw f))
  | .finished result => ExceptT.mk (pure result)

theorem run_adapt {ε ε' σ α : Type} (x : ExceptT ε (StateM σ) α) (f : ε → ε') (a : σ) :
    (x.adapt f).run.run a = ((x.run.run a).1.mapError f, (x.run.run a).2) := rfl

theorem run_mk {ε σ α : Type} (r : Except ε α) (a : σ) :
    (ExceptT.mk (pure r) : ExceptT ε (StateM σ) α).run.run a = (r, a) := rfl

theorem run_publishing (result : Transformed) (x : Action PublishError Unit) (t : Tree) :
    (publishing result x).run.run t =
      (((x.run.run t).1.map fun _ => result).mapError ofPublishing, (x.run.run t).2) := by
  unfold publishing
  rw [run_bind, run_adapt]
  obtain ⟨r, u⟩ := x.run.run t
  cases r <;> rfl

theorem run_faultOf_bind {α β : Type} (x : Action Fault α) (f : α → Action PublishError β)
    (t : Tree) : (faultOf x >>= f).run.run t =
      match x.run.run t with
      | (.ok a, u) => (f a).run.run u
      | (.error e, u) => (.error (.fault e), u) := by
  unfold faultOf
  rw [run_bind, run_adapt]
  obtain ⟨r, u⟩ := x.run.run t
  cases r <;> rfl

/-- A turn does the first part of what is left. -/
theorem run_rest_turn (ph : Phase) (t : Tree) :
    (s.rest job (s.turn job ph t).1).run.run (s.turn job ph t).2 = (s.rest job ph).run.run t := by
  -- in every phase the turn is the first step of the program, and what is left begins with the next
  -- one
  cases ph with
  | waiting =>
    rw [Setting.turn]
    conv_rhs => unfold Setting.rest Setting.transform transformFile
    rw [run_get_bind, run_bind, run_mk]
    cases t.read job.input with
    | error f => rfl
    | ok bytes =>
      dsimp only [Except.mapError]
      rw [Setting.rest, run_get_bind]
      unfold outcome publishing
      rfl
  | loaded bytes =>
    rw [Setting.turn]
    conv_rhs => unfold Setting.rest
    rw [run_get_bind]
    cases outcome t s.classpath s.spec job.name bytes <;> rfl
  | transformed result =>
    rw [Setting.turn]
    conv_rhs => rw [Setting.rest, run_publishing, publish]
    cases job.dest.fileName? with
    | none => rfl
    | some name =>
      dsimp only
      rw [run_faultOf_bind]
      obtain ⟨r, u⟩ := (createParent job.dest).run.run t
      cases r with
      | error f => rfl
      | ok directory => exact run_publishing ..
  | placed result name directory =>
    rw [Setting.turn]
    conv_rhs => rw [Setting.rest, run_publishing, run_faultOf_bind]
    obtain ⟨r, u⟩ := (writeFile directory (temporaryName s.process name) result.bytes).run.run t
    cases r with
    | error f => rfl
    | ok _ => exact run_publishing ..
  | written result name directory =>
    rw [Setting.turn]
    conv_rhs => rw [Setting.rest, run_publishing]
    unfold faultOf
    rw [run_adapt, run_moveIntoPlace]
    obtain ⟨r, u⟩ := (replaceFile job.dest (directory ++ [temporaryName s.process name])
      (directory ++ [name])).run.run t
    cases r <;> rfl
  -- the last turns do what is left, or nothing
  | refused f temporary => rfl
  | finished result => rfl

theorem run_rest_alone (turns : Nat) :
    (s.rest job (s.alone job t turns).1).run.run (s.alone job t turns).2 =
    (s.transform job).run.run t := by
  induction turns with
  | zero => rfl
  | succ turns ih => exact (run_rest_turn _ _).trans ih

/-- The turns of a job by itself do what it does without a break. -/
theorem alone_finished {turns : Nat} {result : Except Error Transformed}
    (h : (s.alone job t turns).1 = .finished result) :
    (s.transform job).run.run t = (result, (s.alone job t turns).2) := by
  rw [← run_rest_alone turns, h]
  rfl

/-! ## 3. What a job changes -/

def Job.target? (job : Job) (t : Tree) : Option Location :=
  job.dest.fileName?.map fun name => t.place job.dest ++ [name]

def Setting.temporary? (s : Setting) (job : Job) (t : Tree) : Option Location :=
  job.dest.fileName?.map fun name => t.place job.dest ++ [temporaryName s.process name]

/-- The places that belong to a job: those of its file and of its temporary file. -/
def Owns (s : Setting) (job : Job) (t : Tree) (l : Location) : Prop :=
  l ∈ job.target? t ∨ l ∈ s.temporary? job t

theorem Owns.ne_nil {l : Location} (h : Owns s job t l) : l ≠ [] := by
  unfold Owns Job.target? Setting.temporary? at h
  rintro rfl
  simp at h

theorem target?_eq {name : String} (h : job.dest.fileName? = some name) :
    job.target? t = some (t.place job.dest ++ [name]) := by
  rw [Job.target?, h]
  rfl

theorem temporary?_eq {name : String} (h : job.dest.fileName? = some name) :
    s.temporary? job t = some (t.place job.dest ++ [temporaryName s.process name]) := by
  rw [Setting.temporary?, h]
  rfl

/-- Jobs with the same temporary file write the same file. -/
theorem target?_of_temporary? {job' : Job} {l : Location} (h : l ∈ s.temporary? job t)
    (h' : l ∈ s.temporary? job' t) : job'.target? t = job.target? t := by
  obtain ⟨name, hname, rfl⟩ := Option.map_eq_some_iff.mp h
  obtain ⟨name', hname', heq⟩ := Option.map_eq_some_iff.mp h'
  obtain ⟨hplace, htemporary⟩ := List.append_inj' heq rfl
  rw [target?_eq hname, target?_eq hname', hplace,
    temporaryName_inj.mp (List.singleton_inj.mp htemporary)]

/-- What a job knows when it has come to a phase from the tree `t`, the tree now being `a`. -/
def Stage (s : Setting) (job : Job) (t : Tree) : Phase → Tree → Prop
  | .waiting, a | .transformed _, a => a = t
  | .loaded bytes, a => a = t ∧ t.read job.input = .ok bytes
  | .placed _ name directory, a =>
    job.dest.fileName? = some name ∧ directory = t.place job.dest ∧
      ∀ l ∈ t.parentWay job.dest, a.get? l = some .directory
  | .written result name directory, a =>
    job.dest.fileName? = some name ∧ directory = t.place job.dest ∧
      (∀ l ∈ t.parentWay job.dest, a.get? l = some .directory) ∧
      a.get? (directory ++ [temporaryName s.process name]) = some (.file result.bytes)
  | .refused _ temporary, _ => temporary ∈ s.temporary? job t
  | .finished (.ok result), a => ∃ l ∈ job.target? t, a.get? l = some (.file result.bytes)
  | .finished (.error _), _ => True

structure Trace (s : Setting) (job : Job) (t : Tree) (ph : Phase) (a : Tree) : Prop where
  start : a.workingDirectory = t.workingDirectory
  /-- Places other than that of the temporary file change in two ways only. -/
  frame : ∀ l ∉ s.temporary? job t, a.get? l = t.get? l ∨
    (l ∈ t.made job.dest ∧ t.get? l = none ∧ a.get? l = some .directory) ∨
    (l ∈ job.target? t ∧ ∃ result, ph = .finished (.ok result) ∧
      a.get? l = some (.file result.bytes))
  stage : Stage s job t ph a

variable {a : Tree}

/-- A turn that changes the temporary file at most. -/
theorem Trace.next (h : Trace s job t ph a) (hph : ∀ result, ph ≠ .finished result) {ph' : Phase}
    {u : Tree} (hstart : u.workingDirectory = a.workingDirectory)
    (hsame : ∀ l ∉ s.temporary? job t, u.get? l = a.get? l)
    (hstage : Stage s job t ph' u) : Trace s job t ph' u := by
  refine ⟨hstart.trans h.start, fun l hl => ?_, hstage⟩
  rw [hsame l hl]
  obtain hkept | hmade | ⟨-, result, rfl, -⟩ := h.frame l hl
  · exact .inl hkept
  · exact .inr (.inl hmade)
  · exact (hph _ rfl).elim

/-- A turn that leaves the tree as it is. -/
theorem Trace.stay (h : Trace s job t ph a) (hph : ∀ result, ph ≠ .finished result) {ph' : Phase}
    (hstage : Stage s job t ph' a) : Trace s job t ph' a := h.next hph rfl (fun _ _ => rfl) hstage

variable {result : Transformed} {name : String} {directory : Location}

/-- The directory for the file is made. -/
theorem trace_transformed (h : Trace s job t (.transformed result) a) :
    Trace s job t (s.turn job (.transformed result) a).1
    (s.turn job (.transformed result) a).2 := by
  have hstage : a = t := h.stage
  rw [Setting.turn]
  cases hname : job.dest.fileName? with
  | none => exact h.stay (by simp) trivial
  | some name =>
    dsimp only
    rw [run_createParent, hstage]
    have hframe (l : Location) : (t.withDirectories (t.made job.dest)).get? l = t.get? l ∨
        l ∈ t.made job.dest ∧ t.get? l = none ∧
          (t.withDirectories (t.made job.dest)).get? l = some .directory := by
      rw [Tree.get?_withDirectories]
      split
      next hl => exact .inr ⟨hl.1, hl.2, rfl⟩
      next => exact .inl rfl
    have hstart := t.workingDirectory_withDirectories (t.made job.dest)
    cases hadmits : t.admits job.dest with
    | true =>
      refine ⟨hstart, fun l _ => (hframe l).imp_right .inl, hname, rfl, ?_⟩
      exact fun l hl => Tree.get?_made hadmits hl
    -- the directories above the obstacle have been made all the same
    | false => exact ⟨hstart, fun l _ => (hframe l).imp_right .inl, trivial⟩

/-- The temporary file is written. -/
theorem trace_placed (hapart : ∀ l ∈ s.temporary? job t, l ∉ t.way job.dest)
    (h : Trace s job t (.placed result name directory) a) :
    Trace s job t (s.turn job (.placed result name directory) a).1
      (s.turn job (.placed result name directory) a).2 := by
  obtain ⟨hname, rfl, hway⟩ := h.stage
  rw [Setting.turn]
  have htemporary := temporary?_eq (s := s) (t := t) hname
  have hconfined :=
    confined_writeFile a (t.place job.dest) (temporaryName s.process name) result.bytes
  have hstart := hconfined.start a
  have hkept := hconfined.frame a
  have hrun := run_writeFile (t.place job.dest) (temporaryName s.process name) result.bytes a
  generalize (writeFile (t.place job.dest) (temporaryName s.process name) result.bytes).run.run a =
    out at hstart hkept hrun
  obtain ⟨r, u⟩ := out
  -- writing changes nothing but the temporary file, whether it succeeds or not
  have hsame : ∀ l ∉ s.temporary? job t, u.get? l = a.get? l := by
    intro l hl
    exact hkept l (by simpa [htemporary, eq_comm] using hl)
  cases r with
  | error f => exact h.next (by simp) hstart hsame trivial
  | ok _ =>
    -- the directories on the way are no temporary file, so they are as they were before
    refine h.next (by simp) hstart hsame ⟨hname, rfl, fun l hl => ?_, ?_⟩
    · rw [hsame l fun hmem => hapart l hmem ((Tree.mem_way_iff hname).mpr (.inl hl))]
      exact hway l hl
    · split at hrun
      next =>
        cases hrun
        rw [Tree.get?_put (by simp), if_pos rfl]
      next => cases hrun

/-- The temporary file is moved into its place. -/
theorem trace_written (h : Trace s job t (.written result name directory) a) :
    Trace s job t (s.turn job (.written result name directory) a).1
      (s.turn job (.written result name directory) a).2 := by
  obtain ⟨hname, rfl, hway, hnode⟩ := h.stage
  rw [Setting.turn]
  have htemporary := temporary?_eq (s := s) (t := t) hname
  have htarget := target?_eq (t := t) hname
  generalize hsource : t.place job.dest ++ [temporaryName s.process name] = source
    at hnode htemporary
  generalize hplace : t.place job.dest ++ [name] = target at htarget
  have hsource_ne : source ≠ [] := by simp [← hsource]
  have htarget_ne : target ≠ [] := by simp [← hplace]
  have hstart := (confined_replaceFile a job.dest hsource_ne htarget_ne).start a
  cases hrun : (replaceFile job.dest source target).run.run a with
  | mk r u =>
    rw [hrun] at hstart
    cases r with
    | error f =>
      -- a replacement that fails leaves the tree as it was
      obtain rfl := replaceFile_error hrun
      exact h.next (by simp) rfl (fun _ _ => rfl) htemporary
    | ok _ =>
      -- the temporary file is gone, and what it held is at the destination
      have hmoved := get?_replaceFile hsource_ne htarget_ne hrun
      refine ⟨hstart.trans h.start, fun l hl => ?_, target, htarget, ?_⟩
      · have hne : l ≠ source := by simpa [htemporary, eq_comm] using hl
        rw [hmoved l, if_neg hne]
        split
        next heq => exact .inr (.inr ⟨heq ▸ htarget, result, rfl, hnode⟩)
        next =>
          obtain hkept | hmade | ⟨-, _, hph, -⟩ := h.frame l hl
          · exact .inl hkept
          · exact .inr (.inl hmade)
          · cases hph
      · rw [hmoved, if_pos rfl, hnode]

theorem trace_turn (hapart : ∀ l ∈ s.temporary? job t, l ∉ t.way job.dest)
    (h : Trace s job t ph a) : Trace s job t (s.turn job ph a).1 (s.turn job ph a).2 := by
  cases ph with
  | waiting =>
    have hstage : a = t := h.stage
    rw [Setting.turn, hstage]
    cases hread : t.read job.input with
    | ok bytes => exact (hstage ▸ h).stay (by simp) ⟨rfl, hread⟩
    | error f => exact (hstage ▸ h).stay (by simp) trivial
  | loaded bytes =>
    have hstage : a = t := h.stage.1
    rw [Setting.turn]
    cases outcome a s.classpath s.spec job.name bytes with
    | ok result => exact h.stay (by simp) hstage
    | error e => exact h.stay (by simp) trivial
  | transformed result => exact trace_transformed h
  | placed result name directory => exact trace_placed hapart h
  | written result name directory => exact trace_written h
  | refused f temporary =>
    have htemporary : temporary ∈ s.temporary? job t := h.stage
    have hne : temporary ≠ [] := Owns.ne_nil (.inr htemporary)
    have hconfined := confined_discardFile a hne
    refine h.next (by simp) (hconfined.start a) (fun l hl => hconfined.frame a l ?_) trivial
    simp only [List.mem_singleton]
    rintro rfl
    exact hl htemporary
  | finished result => exact h

/-- What a job by itself makes of a tree, at every moment. -/
theorem trace_alone (hapart : ∀ l ∈ s.temporary? job t, l ∉ t.way job.dest) (turns : Nat) :
    Trace s job t (s.alone job t turns).1 (s.alone job t turns).2 := by
  induction turns with
  | zero => exact ⟨rfl, fun _ _ => .inl rfl, rfl⟩
  | succ turns ih => exact trace_turn hapart ih

/-! ## 4. Jobs among others -/

/-- To the job the tree `b` is as good as `a`, which it would have by itself: its own places are the
same, others have made directories at most, and what it reads is what it reads in `t`. -/
structure Shadows (s : Setting) (job : Job) (t a b : Tree) : Prop where
  start : b.workingDirectory = t.workingDirectory
  own : ∀ l, Owns s job t l → b.get? l = a.get? l
  way : ∀ l ∈ t.parentWay job.dest, a.Grown b l
  input : b.read job.input = t.read job.input
  sight : ∀ bytes, t.read job.input = .ok bytes →
    outcome b s.classpath s.spec job.name bytes = outcome t s.classpath s.spec job.name bytes

/-- At a place nothing has changed in `a` and `b`, or the same has come of it, which is the job's
doing. -/
def Alike (s : Setting) (job : Job) (t a a' b b' : Tree) (l : Location) : Prop :=
  (a'.get? l = a.get? l ∧ b'.get? l = b.get? l) ∨
    (b'.get? l = a'.get? l ∧ (Owns s job t l ∨ a'.get? l ≠ t.get? l))

variable {b : Tree}

theorem alike_of_confined (s : Setting) (job : Job) {α : Type} {sees changes : List Location}
    {x : Action Fault α} (hx : Confined t sees changes x)
    (ha : a.workingDirectory = t.workingDirectory)
    (hb : b.workingDirectory = t.workingDirectory) (hsees : ∀ l ∈ sees, b.get? l = a.get? l)
    (hchanges : ∀ l ∈ changes, Owns s job t l) :
    (x.run.run b).1 = (x.run.run a).1 ∧
    ∀ l, Alike s job t a (x.run.run a).2 b (x.run.run b).2 l := by
  obtain ⟨hresult, hsame⟩ := hx.alike a b ha hb hsees
  refine ⟨hresult, fun l => ?_⟩
  by_cases hl : l ∈ changes
  · exact .inr ⟨hsame l hl, .inl (hchanges l hl)⟩
  · exact .inl ⟨hx.frame a l hl, hx.frame b l hl⟩

/-- From `b` the job comes to the same phase as from `a`, and makes the same of its places. -/
def TakesAlike (s : Setting) (job : Job) (t : Tree) (ph : Phase) (a b : Tree) : Prop :=
  (s.turn job ph b).1 = (s.turn job ph a).1 ∧
    (s.turn job ph b).2.workingDirectory = t.workingDirectory ∧
    ∀ l, Alike s job t a (s.turn job ph a).2 b (s.turn job ph b).2 l

/-- The same directories are made, but for those that others have made in the meantime. -/
theorem shadows_transformed (h : Trace s job t (.transformed result) a) (hb : Shadows s job t a b) :
    TakesAlike s job t (.transformed result) a b := by
  have hstage : a = t := h.stage
  subst hstage
  rw [TakesAlike, Setting.turn, Setting.turn]
  cases hname : job.dest.fileName? with
  | none => exact ⟨rfl, hb.start, fun l => .inl ⟨rfl, rfl⟩⟩
  | some name =>
    have hfiles : ∀ l ∈ a.parentWay job.dest, b.isFile l = a.isFile l :=
      fun l hl => (hb.way l hl).isFile
    dsimp only
    rw [run_createParent, run_createParent, Tree.admits_congr hb.start hfiles,
      Tree.made_congr hb.start hfiles, Tree.place_congr hb.start]
    -- a directory that is made here is there, or it has been made by another job in the same way
    have halike (l : Location) :
        Alike s job a a (a.withDirectories (a.made job.dest)) b
          (b.withDirectories (a.made job.dest)) l := by
      unfold Alike
      rw [Tree.get?_withDirectories, Tree.get?_withDirectories]
      by_cases hl : l ∈ a.made job.dest
      · have hgrown := hb.way l (a.made_subset job.dest hl)
        cases hnode : a.get? l with
        | none =>
          obtain hsame | ⟨-, hnew⟩ := hgrown
          · simp [hl, hsame, hnode]
          · simp [hl, hnew]
        | some n => simp [hgrown.keeps hnode]
      · simp [hl]
    have hstart := (b.workingDirectory_withDirectories (a.made job.dest)).trans hb.start
    cases a.admits job.dest with
    | true => exact ⟨rfl, hstart, halike⟩
    | false => exact ⟨rfl, hstart, halike⟩

theorem shadows_placed (h : Trace s job t (.placed result name directory) a)
    (hb : Shadows s job t a b) : TakesAlike s job t (.placed result name directory) a b := by
  obtain ⟨hname, rfl, hway⟩ := h.stage
  have htemporary : Owns s job t (t.place job.dest ++ [temporaryName s.process name]) :=
    .inr (temporary?_eq hname)
  have hconfined :=
    confined_writeFile t (t.place job.dest) (temporaryName s.process name) result.bytes
  have hstart := (hconfined.start b).trans hb.start
  obtain ⟨hresult, halike⟩ := alike_of_confined s job hconfined h.start hb.start
    (by simpa using hb.own _ htemporary) (by simpa using htemporary)
  rw [TakesAlike, Setting.turn, Setting.turn]
  generalize (writeFile (t.place job.dest) (temporaryName s.process name) result.bytes).run.run a =
    out, (writeFile (t.place job.dest) (temporaryName s.process name) result.bytes).run.run b = out'
    at hresult halike hstart
  obtain ⟨r, u⟩ := out
  obtain ⟨r', u'⟩ := out'
  cases hresult
  cases r <;> exact ⟨rfl, hstart, halike⟩

theorem shadows_written (h : Trace s job t (.written result name directory) a)
    (hb : Shadows s job t a b) : TakesAlike s job t (.written result name directory) a b := by
  obtain ⟨hname, rfl, hway, -⟩ := h.stage
  have htemporary : Owns s job t (t.place job.dest ++ [temporaryName s.process name]) :=
    .inr (temporary?_eq hname)
  have htarget : Owns s job t (t.place job.dest ++ [name]) := .inl (target?_eq hname)
  rw [TakesAlike, Setting.turn, Setting.turn]
  -- whether the file can take its place depends on the way to it, which leads through the job's own
  -- directories
  have hsees : ∀ l ∈ t.way job.dest, b.get? l = a.get? l := by
    intro l hl
    obtain hl | rfl := (Tree.mem_way_iff hname).mp hl
    · rw [hway l hl, (hb.way l hl).keeps (hway l hl)]
    · exact hb.own _ htarget
  generalize t.place job.dest ++ [temporaryName s.process name] = source at htemporary
  generalize t.place job.dest ++ [name] = target at htarget
  have hconfined := confined_replaceFile t job.dest htemporary.ne_nil htarget.ne_nil
  have hstart := (hconfined.start b).trans hb.start
  obtain ⟨hresult, halike⟩ := alike_of_confined s job hconfined h.start hb.start
    (by simpa [or_imp, forall_and, hb.own _ htemporary, hb.own _ htarget] using hsees)
    (by simp [htemporary, htarget])
  generalize (replaceFile job.dest source target).run.run a = out,
    (replaceFile job.dest source target).run.run b = out' at hresult halike hstart
  obtain ⟨r, u⟩ := out
  obtain ⟨r', u'⟩ := out'
  cases hresult
  cases r <;> exact ⟨rfl, hstart, halike⟩

/-- A job takes the same turn among others as by itself. -/
theorem turn_shadows (h : Trace s job t ph a) (hb : Shadows s job t a b) :
    TakesAlike s job t ph a b := by
  have hstay (l : Location) : Alike s job t a a b b l := .inl ⟨rfl, rfl⟩
  cases ph with
  | waiting =>
    have hstage : a = t := h.stage
    rw [TakesAlike, Setting.turn, Setting.turn, hb.input, hstage]
    cases t.read job.input with
    | ok bytes => exact ⟨rfl, hb.start, hstage ▸ hstay⟩
    | error f => exact ⟨rfl, hb.start, hstage ▸ hstay⟩
  | loaded bytes =>
    obtain ⟨hstage, hread⟩ := h.stage
    rw [TakesAlike, Setting.turn, Setting.turn, hb.sight bytes hread, hstage]
    cases outcome t s.classpath s.spec job.name bytes with
    | ok result => exact ⟨rfl, hb.start, hstage ▸ hstay⟩
    | error e => exact ⟨rfl, hb.start, hstage ▸ hstay⟩
  | transformed result => exact shadows_transformed h hb
  | placed result name directory => exact shadows_placed h hb
  | written result name directory => exact shadows_written h hb
  | refused f temporary =>
    have htemporary : Owns s job t temporary := .inr h.stage
    have hconfined := confined_discardFile t htemporary.ne_nil
    obtain ⟨-, halike⟩ := alike_of_confined s job hconfined h.start hb.start (by simp)
      (by simpa using htemporary)
    exact ⟨rfl, (hconfined.start b).trans hb.start, halike⟩
  | finished result => exact ⟨rfl, hb.start, hstay⟩

end MethodGraft.Patch
