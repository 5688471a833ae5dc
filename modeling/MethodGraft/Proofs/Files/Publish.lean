import MethodGraft.Files.Publish
import MethodGraft.Proofs.Files.Ways

/-!
# Proofs.Files.Publish — what publishing a file does to a tree

Making the directories of a path adds directories on its way.  The other steps see and change the
temporary file and the destination, and the last of them follows the path of the destination.
-/

namespace MethodGraft.Files

variable {t u : Tree} {l m : Location} {steps : List Step} {p : Path} {name : String}

/-! ## 1. The parts of a path -/

theorem Path.steps_eq (h : p.fileName? = some name) :
    ∃ n, p.steps = p.parentSteps ++ ([.into name] ++ List.replicate n .here) := by
  unfold fileName? at h
  split at h
  next last before hback =>
    cases h
    -- what stands behind the name are steps to the same place only
    have hhere : p.steps.reverse.takeWhile (· == .here) =
        List.replicate (p.steps.reverse.takeWhile (· == .here)).length .here :=
      List.eq_replicate_of_mem fun s hs => by simpa using List.mem_takeWhile_imp hs
    refine ⟨(p.steps.reverse.takeWhile (· == .here)).length, ?_⟩
    calc p.steps = (p.steps.reverse.takeWhile (· == .here) ++ p.backward).reverse := by
          unfold backward
          rw [List.takeWhile_append_dropWhile, List.reverse_reverse]
      _ = p.parentSteps ++ ([.into name] ++ (p.steps.reverse.takeWhile (· == .here)).reverse) := by
          rw [parentSteps, hback]
          simp
      _ = _ := by
          conv_lhs => rw [hhere, List.reverse_replicate]
  next => cases h

namespace Tree

def place (t : Tree) (p : Path) : Location := goalFrom (t.startOf p) p.parentSteps

def parentWay (t : Tree) (p : Path) : List Location := wayFrom (t.startOf p) p.parentSteps

theorem place_mem_parentWay (t : Tree) (p : Path) : t.place p ∈ t.parentWay p :=
  goalFrom_mem_wayFrom _ _

theorem place_congr (h : u.workingDirectory = t.workingDirectory) (p : Path) :
    u.place p = t.place p := by
  unfold place
  rw [startOf_congr h]

theorem parentWay_subset (t : Tree) (p : Path) : t.parentWay p ⊆ t.way p := by
  have hprefix : p.parentSteps <+: p.steps := by
    unfold Path.parentSteps Path.backward
    have hsuffix :=
      (List.tail_suffix (p.steps.reverse.dropWhile (· == .here))).trans (List.dropWhile_suffix _)
    simpa using List.reverse_prefix.mpr hsuffix
  obtain ⟨more, hsteps⟩ := hprefix
  intro l hl
  unfold way
  rw [← hsteps, mem_wayFrom_append]
  exact .inl hl

theorem mem_wayFrom_replicate_here {n : Nat} : m ∈ wayFrom l (List.replicate n .here) ↔ m = l := by
  induction n with
  | zero => simp [wayFrom]
  | succ n ih => simp [List.replicate_succ, wayFrom, move, ih]

/-- The way of a path that names a file leads to the directory of the file and then to the file. -/
theorem mem_way_iff (h : p.fileName? = some name) :
    l ∈ t.way p ↔ l ∈ t.parentWay p ∨ l = t.place p ++ [name] := by
  obtain ⟨n, hsteps⟩ := Path.steps_eq h
  have hplace := t.place_mem_parentWay p
  unfold way
  rw [hsteps, mem_wayFrom_append, mem_wayFrom_append]
  show l ∈ t.parentWay p ∨ l ∈ [t.place p, t.place p ++ [name]] ∨
    l ∈ wayFrom (t.place p ++ [name]) (List.replicate n .here) ↔ _
  -- the steps behind the name stay at the file
  rw [mem_wayFrom_replicate_here]
  constructor
  · rintro (hl | hl | hl)
    · exact .inl hl
    · simp only [List.mem_cons, List.not_mem_nil, or_false] at hl
      obtain rfl | rfl := hl
      · exact .inl hplace
      · exact .inr rfl
    · exact .inr hl
  · rintro (hl | hl)
    · exact .inl hl
    · exact .inr (.inr hl)

end Tree

theorem temporaryName_inj {process : Nat} {other : String} :
    temporaryName process name = temporaryName process other ↔ name = other := by
  unfold temporaryName
  constructor
  · intro h
    have hchars := congrArg String.toList h
    simp only [String.toList_append, List.append_assoc, List.append_cancel_left_eq,
      List.append_cancel_right_eq] at hchars
    exact String.toList_inj.mp hchars
  · rintro rfl
    rfl

/-! ## 2. Making directories -/

namespace Tree

def withDirectories (t : Tree) (ls : List Location) : Tree :=
  ls.foldl (fun t l => if (t.get? l).isNone then t.put l .directory else t) t

theorem withDirectories_append (t : Tree) (ls ms : List Location) :
    t.withDirectories (ls ++ ms) = (t.withDirectories ls).withDirectories ms := List.foldl_append

theorem get?_withDirectories (t : Tree) (ls : List Location) (l : Location) :
    (t.withDirectories ls).get? l = if l ∈ ls ∧ t.get? l = none then some .directory
    else t.get? l := by
  induction ls generalizing t with
  | nil => simp [withDirectories]
  | cons m ls ih =>
    rw [withDirectories, List.foldl_cons]
    -- the first place is made a directory if nothing is there, and then the others are looked at in
    -- the new tree
    refine (ih _).trans ?_
    split
    next hm =>
      have hm := Option.isNone_iff_eq_none.mp hm
      have hne : m ≠ [] := by
        rintro rfl
        cases hm
      rw [get?_put hne]
      by_cases hl : l = m
      · simp [hl, hm]
      · simp [hl]
    next hm =>
      have hm : t.get? m ≠ none := fun heq => hm (Option.isNone_iff_eq_none.mpr heq)
      by_cases hl : l = m
      · simp [hl, hm]
      · simp [hl]

theorem workingDirectory_withDirectories (t : Tree) (ls : List Location) :
    (t.withDirectories ls).workingDirectory = t.workingDirectory := by
  induction ls generalizing t with
  | nil => rfl
  | cons m ls ih =>
    rw [withDirectories, List.foldl_cons]
    refine (ih _).trans ?_
    split <;> rfl

def isFile (t : Tree) (l : Location) : Bool :=
  match t.get? l with
  | some (.file _) => true
  | _ => false

theorem Grown.isFile (h : t.Grown u l) : u.isFile l = t.isFile l := by
  unfold Tree.isFile
  obtain hsame | ⟨hnone, hnew⟩ := h
  · rw [hsame]
  · rw [hnone, hnew]

theorem grown_withDirectories (t : Tree) (ls : List Location) (l : Location) :
    t.Grown (t.withDirectories ls) l := by
  unfold Grown
  rw [get?_withDirectories]
  split
  next h => exact .inr ⟨h.2, rfl⟩
  next => exact .inl rfl

def reach (t : Tree) : Location → List Step → List Location
  | l, [] => [l]
  | l, s :: steps => if !t.isFile l && fits s then l :: t.reach (move l s) steps else [l]

def passable (t : Tree) : Location → List Step → Bool
  | l, [] => !t.isFile l
  | l, s :: steps => !t.isFile l && fits s && t.passable (move l s) steps

theorem reach_subset : t.reach l steps ⊆ wayFrom l steps := by
  induction steps generalizing l with
  | nil => exact List.Subset.refl _
  | cons s steps ih =>
    unfold reach wayFrom
    split
    next => exact List.cons_subset_cons l ih
    next => simp

theorem reach_congr (h : ∀ m ∈ wayFrom l steps, u.isFile m = t.isFile m) :
    u.reach l steps = t.reach l steps := by
  induction steps generalizing l with
  | nil => rfl
  | cons s steps ih =>
    unfold reach
    rw [h l List.mem_cons_self, ih fun m hm => h m (List.mem_cons_of_mem l hm)]

theorem passable_congr (h : ∀ m ∈ wayFrom l steps, u.isFile m = t.isFile m) :
    u.passable l steps = t.passable l steps := by
  induction steps generalizing l with
  | nil =>
    unfold passable
    rw [h l List.mem_cons_self]
  | cons s steps ih =>
    unfold passable
    rw [h l List.mem_cons_self, ih fun m hm => h m (List.mem_cons_of_mem l hm)]

/-- Where a way is passable and all its places have become directories, it leads to its end. -/
theorem follow_withDirectories (hpass : t.passable l steps = true)
    (hu : ∀ m ∈ wayFrom l steps, u.get? m = some .directory) :
    u.follow l steps = .ok (goalFrom l steps) := by
  induction steps generalizing l with
  | nil => rfl
  | cons s steps ih =>
    unfold passable at hpass
    simp only [Bool.and_eq_true] at hpass
    rw [follow_cons_eq_ok]
    exact ⟨hu l List.mem_cons_self, hpass.1.2,
      ih hpass.2 fun m hm => hu m (List.mem_cons_of_mem l hm)⟩

theorem get?_reach (hpass : t.passable l steps = true) (hm : m ∈ wayFrom l steps) :
    (t.withDirectories (t.reach l steps)).get? m = some .directory := by
  -- a passable way is reached to its end, and no file stands on it
  have hway : ∀ {l steps}, t.passable l steps = true → t.reach l steps = wayFrom l steps ∧
      ∀ m ∈ wayFrom l steps, t.isFile m = false := by
    intro l steps hpass
    induction steps generalizing l with
    | nil => exact ⟨rfl, by simpa [passable, wayFrom] using hpass⟩
    | cons s steps ih =>
      unfold passable at hpass
      simp only [Bool.and_eq_true, Bool.not_eq_true'] at hpass
      obtain ⟨hreach, hfiles⟩ := ih hpass.2
      unfold reach wayFrom
      rw [hreach, hpass.1.1, hpass.1.2]
      exact ⟨rfl, List.forall_mem_cons.mpr ⟨hpass.1.1, hfiles⟩⟩
  obtain ⟨hreach, hfiles⟩ := hway hpass
  have hfile := hfiles m hm
  rw [hreach, get?_withDirectories]
  unfold isFile at hfile
  cases hnode : t.get? m with
  | none => simp [hm]
  | some n =>
    cases n with
    | directory => simp
    | file content => simp [hnode] at hfile

end Tree

theorem run_ensureDirectory (l : Location) (t : Tree) : (ensureDirectory l).run.run t =
    (if t.isFile l then .error .other else .ok (), t.withDirectories [l]) := by
  unfold ensureDirectory
  rw [run_get_bind]
  unfold Tree.isFile Tree.withDirectories
  rw [List.foldl_cons, List.foldl_nil]
  cases t.get? l with
  | none => rfl
  | some n => cases n <;> rfl

/-- Directories are made as far as that can be done, and it fails if that is not the whole way. -/
theorem run_createDirectories (l : Location) (steps : List Step) (t : Tree) :
    (createDirectories l steps).run.run t =
      (if t.passable l steps then .ok () else .error .other,
        t.withDirectories (t.reach l steps)) := by
  induction steps generalizing l t with
  | nil =>
    unfold createDirectories Tree.passable Tree.reach
    rw [run_ensureDirectory]
    cases t.isFile l <;> rfl
  | cons s steps ih =>
    unfold createDirectories Tree.passable Tree.reach
    rw [run_bind, run_ensureDirectory]
    cases hfile : t.isFile l with
    | true => rfl
    | false =>
      cases hfits : Tree.fits s with
      | false => rfl
      | true =>
        -- a directory that has just been made is no file, so the rest of the way is the same in the
        -- new tree
        have hfiles : ∀ m ∈ Tree.wayFrom (Tree.move l s) steps,
            (t.withDirectories [l]).isFile m = t.isFile m :=
          fun m _ => (t.grown_withDirectories [l] m).isFile
        have hrest := ih (Tree.move l s) (t.withDirectories [l])
        rw [Tree.passable_congr hfiles, Tree.reach_congr hfiles, ← Tree.withDirectories_append]
          at hrest
        simpa [hfits] using hrest

namespace Tree

/-- The places that are made directories for the file at a path, as far as that can be done. -/
def made (t : Tree) (p : Path) : List Location :=
  if p.parentSteps.all canStep then t.reach (t.startOf p) p.parentSteps else []

def admits (t : Tree) (p : Path) : Bool :=
  p.parentSteps.all canStep && t.passable (t.startOf p) p.parentSteps

theorem made_subset (t : Tree) (p : Path) : t.made p ⊆ t.parentWay p := by
  unfold made
  split
  next => exact reach_subset
  next => exact List.nil_subset _

theorem made_congr (hstart : u.workingDirectory = t.workingDirectory)
    (h : ∀ m ∈ t.parentWay p, u.isFile m = t.isFile m) : u.made p = t.made p := by
  unfold made
  rw [startOf_congr hstart, reach_congr h]

theorem admits_congr (hstart : u.workingDirectory = t.workingDirectory)
    (h : ∀ m ∈ t.parentWay p, u.isFile m = t.isFile m) : u.admits p = t.admits p := by
  unfold admits
  rw [startOf_congr hstart, passable_congr h]

theorem get?_made (h : t.admits p = true) (hm : m ∈ t.parentWay p) :
    (t.withDirectories (t.made p)).get? m = some .directory := by
  unfold admits at h
  simp only [Bool.and_eq_true] at h
  unfold made
  rw [if_pos h.1]
  exact get?_reach h.2 hm

end Tree

theorem run_createParent (p : Path) (t : Tree) : (createParent p).run.run t =
    (if t.admits p then .ok (t.place p) else .error .other, t.withDirectories (t.made p)) := by
  -- if the whole way has been made, following it afterwards leads to the place
  have hmade (hadmits : t.admits p = true) :
      (t.withDirectories (t.made p)).follow (t.startOf p) p.parentSteps = .ok (t.place p) := by
    refine Tree.follow_withDirectories (t := t) ?_ fun m hm => Tree.get?_made hadmits hm
    unfold Tree.admits at hadmits
    exact (Bool.and_eq_true _ _ ▸ hadmits).2
  unfold createParent
  unfold Tree.admits Tree.made at hmade ⊢
  cases hsteps : p.parentSteps.all Tree.canStep with
  | false => rfl
  | true =>
    rw [hsteps] at hmade
    show (get >>= fun s => createDirectories (s.startOf p) p.parentSteps >>= _).run.run t = _
    rw [run_get_bind, run_bind, run_createDirectories]
    cases hpass : t.passable (t.startOf p) p.parentSteps with
    | false => rfl
    | true =>
      rw [hpass] at hmade
      have hfollow := hmade rfl
      simp only [if_true] at hfollow ⊢
      show (ExceptT.mk (pure (Tree.follow _ (t.startOf p) p.parentSteps)) :
        Action Fault Location).run.run _ = _
      rw [hfollow]
      rfl

/-! ## 3. Steps that stay in their places -/

section

variable {ε α β : Type} {base : Tree} {sees changes more also : List Location}

/-- In trees with the working directory of `base` the action depends on the places `sees` only, and
it changes no others than `changes`. -/
structure Confined (base : Tree) (sees changes : List Location) (x : Action ε α) : Prop where
  alike : ∀ t u : Tree, t.workingDirectory = base.workingDirectory →
    u.workingDirectory = base.workingDirectory →
    (∀ l ∈ sees, u.get? l = t.get? l) → (x.run.run u).1 = (x.run.run t).1 ∧
      ∀ l ∈ changes, (x.run.run u).2.get? l = (x.run.run t).2.get? l
  start : ∀ t, (x.run.run t).2.workingDirectory = t.workingDirectory
  frame : ∀ t, ∀ l ∉ changes, (x.run.run t).2.get? l = t.get? l

theorem Confined.bind {x : Action ε α} {f : α → Action ε β} (hx : Confined base sees changes x)
    (hf : ∀ a, Confined base more also (f a)) (hsub : also ⊆ more) :
    Confined base (sees ++ more) (changes ++ also) (x >>= f) := by
  constructor
  · intro t u ht hu hsame
    obtain ⟨hresult, hchange⟩ :=
      hx.alike t u ht hu fun l hl => hsame l (List.mem_append_left more hl)
    -- what the second step sees is what the first one changed alike, or what was alike before
    have hafter :
        ∀ l, (l ∈ changes ∨ l ∈ more) → (x.run.run u).2.get? l = (x.run.run t).2.get? l := by
      intro l hl
      by_cases hin : l ∈ changes
      · exact hchange l hin
      · rw [hx.frame u l hin, hx.frame t l hin]
        exact hsame l (List.mem_append_right sees (hl.resolve_left hin))
    have hstart := (hx.start t).trans ht
    have hstart' := (hx.start u).trans hu
    rw [run_bind, run_bind]
    generalize x.run.run t = out, x.run.run u = out' at hresult hafter hstart hstart'
    obtain ⟨r, t'⟩ := out
    obtain ⟨r', u'⟩ := out'
    cases hresult
    cases r with
    -- after a fault nothing more is done, so `also` has to be alike already: it is part of `more`
    | error e =>
      refine ⟨rfl, fun l hl => hafter l ?_⟩
      obtain hl | hl := List.mem_append.mp hl
      · exact .inl hl
      · exact .inr (hsub hl)
    | ok a =>
      obtain ⟨hresult, hchange⟩ := (hf a).alike t' u' hstart hstart' fun l hl => hafter l (.inr hl)
      refine ⟨hresult, fun l hl => ?_⟩
      by_cases hin : l ∈ also
      · exact hchange l hin
      · refine ((hf a).frame u' l hin).trans (.trans ?_ ((hf a).frame t' l hin).symm)
        exact hafter l (.inl ((List.mem_append.mp hl).resolve_right hin))
  · intro t
    rw [run_bind]
    have hstart := hx.start t
    generalize x.run.run t = out at hstart
    obtain ⟨r, t'⟩ := out
    cases r with
    | error e => exact hstart
    | ok a => exact ((hf a).start t').trans hstart
  · intro t l hl
    obtain ⟨hl, hl'⟩ := not_or.mp (mt List.mem_append.mpr hl)
    rw [run_bind]
    have hframe := hx.frame t l hl
    generalize x.run.run t = out at hframe
    obtain ⟨r, t'⟩ := out
    cases r with
    | error e => exact hframe
    | ok a => exact ((hf a).frame t' l hl').trans hframe

end

variable (base : Tree) {source target : Location}

theorem run_writeFile (l : Location) (name : String) (content : List UInt8) (t : Tree) :
    (writeFile l name content).run.run t =
      if Tree.canStep (.into name) && Tree.fits (.into name) &&
        !(t.get? (l ++ [name]) == some .directory) then
        (.ok (), t.put (l ++ [name]) (.file content))
      else (.error .other, t) := by
  unfold writeFile
  cases Tree.canStep (.into name) with
  | false => rfl
  | true =>
    cases Tree.fits (.into name) with
    | false => rfl
    | true =>
      simp only [Bool.not_true, Bool.or_self, Bool.false_eq_true, if_false, run_get_bind]
      cases t.get? (l ++ [name]) with
      | none => rfl
      | some n => cases n <;> rfl

theorem confined_writeFile (l : Location) (name : String) (content : List UInt8) :
    Confined base [l ++ [name]] [l ++ [name]] (writeFile l name content) := by
  have hput (t : Tree) := t.get?_put (l := l ++ [name]) (by simp) (.file content)
  constructor
  · intro t u _ _ hsame
    have hsame := hsame _ (List.mem_singleton_self _)
    rw [run_writeFile, run_writeFile, hsame]
    split
    next => simp [hput]
    next => simpa using hsame
  · intro t
    rw [run_writeFile]
    split <;> rfl
  · intro t m hm
    rw [run_writeFile]
    split
    next => simp_all
    next => rfl

theorem run_renameFile (source target : Location) (t : Tree) :
    (renameFile source target).run.run t =
      if t.get? target = some .directory then (.error .other, t)
      else match t.get? source with
        | some n => (.ok (), (t.remove source).put target n)
        | none => (.error .notFound, t) := by
  unfold renameFile
  rw [run_get_bind]
  cases t.get? target with
  | none => cases t.get? source <;> rfl
  | some n => cases n <;> cases t.get? source <;> rfl

theorem get?_renamed (hsource : source ≠ []) (htarget : target ≠ []) (n : Node) (l : Location) :
    ((t.remove source).put target n).get? l =
      if l = target then some n else if l = source then none else t.get? l := by
  rw [Tree.get?_put htarget, Tree.get?_remove hsource]

theorem confined_renameFile (hsource : source ≠ []) (htarget : target ≠ []) :
    Confined base [source, target] [source, target] (renameFile source target) := by
  have hrenamed (t : Tree) (n : Node) := get?_renamed (t := t) hsource htarget n
  constructor
  · intro t u _ _ hsame
    have hs := hsame source (by simp)
    have ht := hsame target (by simp)
    -- both runs take the same branch, since they see the same nodes at both places
    rw [run_renameFile, run_renameFile, hs, ht]
    split
    next => exact ⟨rfl, hsame⟩
    next =>
      cases t.get? source with
      | none => exact ⟨rfl, hsame⟩
      | some n => simp [hrenamed]
  · intro t
    rw [run_renameFile]
    split
    next => rfl
    next => split <;> rfl
  · intro t l hl
    rw [run_renameFile]
    simp only [List.mem_cons, List.not_mem_nil, or_false, not_or] at hl
    split
    next => rfl
    next =>
      split
      next => rw [hrenamed, if_neg hl.2, if_neg hl.1]
      next => rfl

theorem run_expectFilePath (p : Path) (t : Tree) : (expectFilePath p).run.run t =
    ((if p.endsInDot then discard (t.locate p) else .ok ()) >>= fun _ =>
      if p.endsInDirectory then .error .other else .ok (), t) := by
  unfold expectFilePath
  cases p.endsInDot with
  | false => cases p.endsInDirectory <;> rfl
  | true =>
    simp only [if_true]
    rw [run_get_bind, run_bind]
    cases t.locate p with
    | error f => rfl
    | ok l => cases p.endsInDirectory <;> rfl

/-- Whether a path can be that of a file is found out by following it. -/
theorem confined_expectFilePath (p : Path) : Confined base (base.way p) [] (expectFilePath p) := by
  constructor
  · intro t u ht hu hsame
    have hlocate : u.locate p = t.locate p := by
      refine Tree.locate_congr (hu.trans ht.symm) ?_
      rwa [Tree.way_congr ht]
    rw [run_expectFilePath, run_expectFilePath, hlocate]
    exact ⟨rfl, by simp⟩
  · intro t
    rw [run_expectFilePath]
  · intro t l _
    rw [run_expectFilePath]

def discardFile (l : Location) : Action Fault Unit := modify fun t => t.remove l

theorem confined_discardFile (hsource : source ≠ []) :
    Confined base [] [source] (discardFile source) := by
  have hremove (t : Tree) := t.get?_remove hsource
  constructor
  · intro t u _ _ _
    refine ⟨rfl, fun l hl => ?_⟩
    show (u.remove source).get? l = (t.remove source).get? l
    rw [List.mem_singleton.mp hl, hremove, hremove, if_pos rfl, if_pos rfl]
  · intro t
    rfl
  · intro t l hl
    exact (hremove t l).trans (if_neg (by simpa using hl))

def replaceFile (dest : Path) (source target : Location) : Action Fault Unit := do
  expectFilePath dest
  renameFile source target

theorem confined_replaceFile (dest : Path) (hsource : source ≠ []) (htarget : target ≠ []) :
    Confined base (base.way dest ++ [source, target]) ([] ++ [source, target])
    (replaceFile dest source target) :=
  (confined_expectFilePath base dest).bind (fun _ => confined_renameFile base hsource htarget)
    (List.Subset.refl _)

theorem run_replaceFile (dest : Path) (source target : Location) (t : Tree) :
    (replaceFile dest source target).run.run t =
      match ((expectFilePath dest).run.run t).1 with
      | .ok _ => (renameFile source target).run.run t
      | .error e => (.error e, t) := by
  have hkeeps : ((expectFilePath dest).run.run t).2 = t := by rw [run_expectFilePath]
  unfold replaceFile
  rw [run_bind]
  generalize (expectFilePath dest).run.run t = out at hkeeps
  obtain ⟨r, u⟩ := out
  cases hkeeps
  cases r <;> rfl

/-- A file that is moved leaves its place and takes that of another. -/
theorem get?_replaceFile {dest : Path} (hsource : source ≠ []) (htarget : target ≠ []) {a : Unit}
    (h : (replaceFile dest source target).run.run t = (.ok a, u)) (l : Location) : u.get? l =
      if l = target then t.get? source else if l = source then none else t.get? l := by
  rw [run_replaceFile, run_renameFile] at h
  split at h
  next =>
    split at h
    next => cases h
    next =>
      cases hnode : t.get? source with
      | none =>
        rw [hnode] at h
        cases h
      | some n =>
        rw [hnode] at h
        cases h
        -- only here has something been moved: in the other cases the result is a fault
        exact get?_renamed hsource htarget n l
  next => cases h

theorem replaceFile_error {dest : Path} {f : Fault}
    (h : (replaceFile dest source target).run.run t = (.error f, u)) : u = t := by
  rw [run_replaceFile, run_renameFile] at h
  repeat' split at h
  all_goals cases h
  all_goals rfl

/-- What cannot be moved into its place is taken away. -/
theorem run_moveIntoPlace (dest : Path) (source target : Location) (t : Tree) :
    (moveIntoPlace dest source target).run.run t =
      match (replaceFile dest source target).run.run t with
      | (.ok a, u) => (.ok a, u)
      | (.error e, u) => (.error e, ((discardFile source).run.run u).2) := by
  refine (run_tryCatch (replaceFile dest source target)
    (fun e => discardFile source >>= fun _ => throw e) t).trans ?_
  cases (replaceFile dest source target).run.run t with
  | mk r u => cases r <;> rfl

end MethodGraft.Files
