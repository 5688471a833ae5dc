import Mathlib.Data.List.Induction
import Mathlib.Data.List.TakeWhile
import MethodGraft.Files.Tree
import MethodGraft.Proofs.Runs

/-!
# Proofs.Files.Ways — what a path sees of a tree

Following a path looks at the places on its way and at nothing else.  Where directories only are
added, a path that leads anywhere leads there still.
-/

namespace MethodGraft.Files

namespace Tree

variable {t u v : Tree} {l m : Location} {steps : List Step} {p : Path}

/-! ## 1. The table -/

@[simp] theorem get?_nil (t : Tree) : t.get? [] = some .directory := rfl

theorem lookup_filter_ne (nodes : List (Location × Node)) (l m : Location) :
    (nodes.filter fun (k, _) => k != l).lookup m = if m = l then none else nodes.lookup m := by
  induction nodes with
  | nil => simp
  | cons entry nodes ih =>
    by_cases hkey : entry.1 = l
    · rw [List.filter_cons_of_neg (by simpa using hkey), ih, List.lookup_cons]
      split
      next => rfl
      next hm =>
        have hother : (m == entry.1) = false := by simpa [hkey] using hm
        rw [hother]
    · rw [List.filter_cons_of_pos (by simpa using hkey), List.lookup_cons, List.lookup_cons, ih]
      by_cases hm : m = entry.1
      · rw [hm, beq_self_eq_true, if_neg hkey, if_neg hkey]
      · rw [beq_false_of_ne hm]

theorem get?_put (hl : l ≠ []) (n : Node) (m : Location) :
    (t.put l n).get? m = if m = l then some n else t.get? m := by
  unfold get? put
  by_cases hm : m = l
  · simp [hm, hl]
  · simp only [if_neg hm, List.lookup_cons, beq_false_of_ne hm, lookup_filter_ne]

theorem get?_remove (hl : l ≠ []) (m : Location) :
    (t.remove l).get? m = if m = l then none else t.get? m := by
  unfold get? remove
  by_cases hm : m = l
  · simp [hm, hl, lookup_filter_ne]
  · simp only [if_neg hm, lookup_filter_ne]

/-! ## 2. Ways -/

def wayFrom (l : Location) : List Step → List Location
  | [] => [l]
  | s :: steps => l :: wayFrom (move l s) steps

def goalFrom (l : Location) (steps : List Step) : Location := steps.foldl move l

def way (t : Tree) (p : Path) : List Location := wayFrom (t.startOf p) p.steps

def goal (t : Tree) (p : Path) : Location := goalFrom (t.startOf p) p.steps

theorem goalFrom_append (l : Location) (steps more : List Step) :
    goalFrom l (steps ++ more) = goalFrom (goalFrom l steps) more := List.foldl_append

theorem goalFrom_mem_wayFrom (l : Location) (steps : List Step) :
    goalFrom l steps ∈ wayFrom l steps := by
  induction steps generalizing l with
  | nil => exact List.mem_singleton_self l
  | cons s steps ih => exact List.mem_cons_of_mem l (ih (move l s))

theorem mem_wayFrom_append {more : List Step} :
    m ∈ wayFrom l (steps ++ more) ↔ m ∈ wayFrom l steps ∨ m ∈ wayFrom (goalFrom l steps) more := by
  induction steps generalizing l with
  | nil =>
    have hstart : l ∈ wayFrom l more := by cases more <;> exact List.mem_cons_self
    constructor
    · exact .inr
    · rintro (h | h)
      · rwa [List.mem_singleton.mp h]
      · exact h
  | cons s steps ih =>
    simp only [List.cons_append, wayFrom, List.mem_cons, ih, or_assoc, goalFrom, List.foldl_cons]

theorem follow_append (l : Location) (steps more : List Step) :
    t.follow l (steps ++ more) = t.follow l steps >>= fun m => t.follow m more := by
  induction steps generalizing l with
  | nil => rfl
  | cons s steps ih =>
    rw [List.cons_append, follow, follow, ih]
    repeat' split
    all_goals rfl

theorem follow_eq_ok (h : t.follow l steps = .ok m) : m = goalFrom l steps := by
  induction steps generalizing l with
  | nil => exact (Except.ok.inj h).symm
  | cons s steps ih =>
    unfold follow at h
    repeat' split at h
    · exact ih h
    all_goals cases h

theorem locate_eq_ok (h : t.locate p = .ok m) : m = t.goal p := by
  unfold locate at h
  split at h
  · exact follow_eq_ok h
  · cases h

theorem follow_congr (h : ∀ m ∈ wayFrom l steps, u.get? m = t.get? m) :
    u.follow l steps = t.follow l steps := by
  induction steps generalizing l with
  | nil => rfl
  | cons s steps ih =>
    unfold follow
    rw [h l List.mem_cons_self, ih fun m hm => h m (List.mem_cons_of_mem l hm)]

theorem startOf_congr (h : u.workingDirectory = t.workingDirectory) (p : Path) :
    u.startOf p = t.startOf p := by
  unfold startOf
  rw [h]

theorem locate_congr (hstart : u.workingDirectory = t.workingDirectory)
    (h : ∀ m ∈ t.way p, u.get? m = t.get? m) : u.locate p = t.locate p := by
  unfold locate
  rw [startOf_congr hstart, follow_congr h]

def contentAt (t : Tree) (l : Location) : Option (List UInt8) :=
  match t.get? l with
  | some (.file content) => some content
  | _ => none

/-! ## 3. Trees that grow -/

def Grown (t u : Tree) (l : Location) : Prop :=
  u.get? l = t.get? l ∨ t.get? l = none ∧ u.get? l = some .directory

theorem Grown.keeps {n : Node} (h : t.Grown u l) (hn : t.get? l = some n) : u.get? l = some n := by
  obtain hsame | ⟨hnone, -⟩ := h
  · rw [hsame, hn]
  · rw [hn] at hnone
    cases hnone

/-- At these places the tree has grown at most, and relative paths start from where they did. -/
structure Grows (t u : Tree) (places : List Location) : Prop where
  start : u.workingDirectory = t.workingDirectory
  node : ∀ l ∈ places, t.Grown u l

theorem follow_keeps (h : ∀ m ∈ wayFrom l steps, t.Grown u m)
    (hleads : t.follow l steps ≠ .error .notFound) : u.follow l steps = t.follow l steps := by
  induction steps generalizing l with
  | nil => rfl
  | cons s steps ih =>
    unfold follow at hleads ⊢
    cases hnode : t.get? l with
    | none =>
      rw [hnode] at hleads
      -- a place that is missing is where the tree may have grown, but then nothing was found before
      exact (hleads rfl).elim
    | some n =>
      rw [hnode] at hleads
      rw [(h l List.mem_cons_self).keeps hnode]
      cases n with
      | file content => rfl
      | directory =>
        dsimp only at hleads ⊢
        split
        next hfits =>
          rw [if_pos hfits] at hleads
          exact ih (fun m hm => h m (List.mem_cons_of_mem l hm)) hleads
        next => rfl

/-- A path that leads somewhere leads there still when the tree has grown. -/
theorem locate_keeps (h : t.Grows u (t.way p)) (hleads : t.locate p ≠ .error .notFound) :
    u.locate p = t.locate p := by
  unfold locate at hleads ⊢
  rw [startOf_congr h.start]
  split
  next hsteps =>
    rw [if_pos hsteps] at hleads
    exact follow_keeps h.node hleads
  next => rfl

theorem goal_mem_way (t : Tree) (p : Path) : t.goal p ∈ t.way p := goalFrom_mem_wayFrom _ _

def contents : Option Node → Except Fault (List UInt8)
  | some (.file content) => .ok content
  | some .directory => .error .other
  | none => .error .notFound

theorem read_eq (t : Tree) (p : Path) : t.read p = t.locate p >>= fun l => contents (t.get? l) := by
  unfold read
  cases t.locate p with
  | error f => rfl
  | ok l =>
    dsimp only [bind, Except.bind]
    cases t.get? l with
    | none => rfl
    | some n => cases n <;> rfl

/-- Only a file that is missing can be read otherwise when the tree has grown. -/
theorem read_keeps (h : t.Grows u (t.way p)) (hread : t.read p ≠ .error .notFound) :
    u.read p = t.read p := by
  rw [read_eq] at hread ⊢
  have hleads : t.locate p ≠ .error .notFound := by
    intro hlocate
    rw [hlocate] at hread
    exact hread rfl
  rw [read_eq, locate_keeps h hleads]
  cases hlocate : t.locate p with
  | error f => rfl
  | ok m =>
    rw [hlocate] at hread
    show contents (u.get? m) = contents (t.get? m)
    cases hnode : t.get? m with
    | none =>
      refine (hread ?_).elim
      show contents (t.get? m) = _
      rw [hnode]
      rfl
    | some n => rw [(h.node m (locate_eq_ok hlocate ▸ goal_mem_way t p)).keeps hnode]

theorem way_congr (h : u.workingDirectory = t.workingDirectory) (p : Path) : u.way p = t.way p := by
  unfold way
  rw [startOf_congr h]

theorem goal_congr (h : u.workingDirectory = t.workingDirectory) (p : Path) :
    u.goal p = t.goal p := by
  unfold goal
  rw [startOf_congr h]

/-- What is read before and after a tree has grown is read meanwhile. -/
theorem read_between (h : t.Grows u (t.way p)) (h' : u.Grows v (t.way p))
    (hread : v.read p = t.read p) : u.read p = t.read p := by
  by_cases hmissing : t.read p = .error .notFound
  -- what was missing before and after cannot have been there meanwhile, since a tree only grows
  · by_contra hne
    have hu : u.read p ≠ .error .notFound := fun hu => hne (hu.trans hmissing.symm)
    rw [← way_congr h.start] at h'
    exact hne ((read_keeps h' hu).symm.trans hread)
  · exact read_keeps h hmissing

theorem isDirectory_iff :
    t.isDirectory p = true ↔ t.locate p = .ok (t.goal p) ∧ t.get? (t.goal p) = some .directory := by
  unfold isDirectory find?
  cases hlocate : t.locate p with
  | error f => simp
  | ok m => simp [locate_eq_ok hlocate]

theorem isDirectory_of_read (h : t.Grows u (t.way p)) (hread : u.read p = t.read p)
    (hu : u.isDirectory p = true) : t.isDirectory p = true := by
  obtain ⟨hlocate, hnode⟩ := isDirectory_iff.mp hu
  rw [read_eq, hlocate] at hread
  -- reading a directory fails in a way of its own, and the same fault came from the smaller tree
  have ht : t.read p = .error .other := hread.symm.trans (congrArg contents hnode)
  rw [read_eq] at ht
  have hleads : t.locate p ≠ .error .notFound := by
    intro hmissing
    rw [hmissing] at ht
    cases ht
  rw [locate_keeps h hleads, goal_congr h.start] at hlocate
  rw [hlocate] at ht
  refine isDirectory_iff.mpr ⟨hlocate, ?_⟩
  cases hn : t.get? (t.goal p) with
  | none => cases (congrArg contents hn).symm.trans ht
  | some n =>
    cases n with
    | directory => rfl
    | file content => cases (congrArg contents hn).symm.trans ht

/-! ## 4. Ways down -/

/-- Every node lies in a directory. -/
def Sound (t : Tree) : Prop := ∀ l name, t.get? (l ++ [name]) ≠ none → t.get? l = some .directory

theorem sound_of_nodes (h : ∀ entry ∈ t.nodes, t.get? entry.1.dropLast = some .directory) :
    t.Sound := by
  intro l name hl
  unfold get? at hl
  rw [if_neg (by simp)] at hl
  obtain ⟨n, hn⟩ := Option.ne_none_iff_exists'.mp hl
  obtain ⟨before, after, hnodes, -⟩ := List.lookup_eq_some_iff.mp hn
  have hparent := h (l ++ [name], n) (by simp [hnodes])
  rwa [List.dropLast_concat] at hparent

theorem Sound.above (h : t.Sound) (hl : l <+: m) (hne : l ≠ m) (hm : t.get? m ≠ none) :
    t.get? l = some .directory := by
  induction m using List.reverseRecOn with
  | nil => exact (hne (List.prefix_nil.mp hl)).elim
  | append_singleton m name ih =>
    have hdirectory := h m name hm
    -- each node lies in a directory, which is a node itself: so it goes on up to `l`
    obtain rfl | hl := List.prefix_concat_iff.mp hl
    · exact (hne rfl).elim
    · by_cases heq : l = m
      · rwa [heq]
      · exact ih hl heq (by simp [hdirectory])

theorem follow_cons_eq_ok {s : Step} : t.follow l (s :: steps) = .ok m ↔
    t.get? l = some .directory ∧ fits s = true ∧ t.follow (move l s) steps = .ok m := by
  rw [follow]
  cases t.get? l with
  | none => simp
  | some n =>
    cases n with
    | file content => simp
    | directory => by_cases hfits : fits s = true <;> simp [hfits]

theorem prefix_of_wayFrom (hdown : ∀ s ∈ steps, s ≠ .up) (hm : m ∈ wayFrom l steps) : l <+: m := by
  induction steps generalizing l with
  | nil => exact List.mem_singleton.mp hm ▸ List.prefix_rfl
  | cons s steps ih =>
    obtain rfl | hm := List.mem_cons.mp hm
    · exact List.prefix_rfl
    · obtain ⟨hs, hsteps⟩ := List.forall_mem_cons.mp hdown
      have hmove : l <+: move l s := by
        cases s with
        | here => exact List.prefix_rfl
        | up => exact (hs rfl).elim
        | into name => exact List.prefix_append l [name]
      exact hmove.trans (ih hsteps hm)

/-- Steps that lead down to a file can be made wherever the places above the file are
directories. -/
theorem follow_down (hdown : ∀ s ∈ steps, s ≠ .up) (hu : u.follow l steps = .ok m)
    (hm : u.get? m ≠ some .directory)
    (habove : ∀ k, l <+: k → k <+: m → k ≠ m → t.get? k = some .directory) :
    t.follow l steps = .ok m := by
  induction steps generalizing l with
  | nil => exact hu
  | cons s steps ih =>
    obtain ⟨hl, hfits, hrest⟩ := follow_cons_eq_ok.mp hu
    have hway : ∀ k ∈ wayFrom l (s :: steps), l <+: k := fun k hk => prefix_of_wayFrom hdown hk
    have hnext : l <+: move l s := by
      refine hway _ (List.mem_cons_of_mem l ?_)
      cases steps <;> exact List.mem_cons_self
    have hlm : l <+: m := follow_eq_ok hu ▸ hway _ (goalFrom_mem_wayFrom _ _)
    -- a directory is at `l`, and none at `m`
    have hne : l ≠ m := fun heq => hm (heq ▸ hl)
    refine follow_cons_eq_ok.mpr ⟨habove l List.prefix_rfl hlm hne, hfits, ?_⟩
    exact ih (List.forall_mem_cons.mp hdown).2 hrest fun k hk => habove k (hnext.trans hk)

/-! ## 5. Classes in a directory -/

theorem read?_eq_some_iff {content : List UInt8} : t.read? p = some content ↔
    t.locate p = .ok (t.goal p) ∧ t.get? (t.goal p) = some (.file content) := by
  unfold read?
  rw [read_eq]
  cases hlocate : t.locate p with
  | error f => simp [bind, Except.bind, Except.toOption]
  | ok m =>
    obtain rfl := locate_eq_ok hlocate
    show (contents (t.get? (t.goal p))).toOption = some content ↔ _
    cases hnode : t.get? (t.goal p) with
    | none => simp [contents, Except.toOption]
    | some n => cases n <;> simp [contents, Except.toOption]

end Tree

/-- The name of a class stays inside the directory that it is looked for in: it has a part, and none
leads up. -/
structure Inward (name : String) : Prop where
  down : .up ∉ stepsOf name.toList
  part : ∃ part, .into part ∈ stepsOf name.toList

theorem inward_iff {name : String} :
    Inward name ↔ .up ∉ stepsOf name.toList ∧ ∃ s ∈ stepsOf name.toList, s ≠ .here := by
  constructor
  · rintro ⟨hdown, part, hpart⟩
    exact ⟨hdown, .into part, hpart, by simp⟩
  · rintro ⟨hdown, s, hs, hhere⟩
    cases s with
    | here => exact (hhere rfl).elim
    | up => exact (hdown hs).elim
    | into part => exact ⟨hdown, part, hs⟩

instance (name : String) : Decidable (Inward name) := decidable_of_iff' _ inward_iff

theorem Path.ofClass_inward {name : String} (h : Inward name) (p : Path) : ∃ steps last,
    (∀ s ∈ steps, s ≠ .up) ∧ p.ofClass name =
    { p with steps := p.steps ++ (steps ++ [.into last]) } := by
  obtain ⟨part, hpart⟩ := h.part
  cases hback : (stepsOf name.toList).reverse.dropWhile (· == .here) with
  | nil =>
    -- the name has a part, so its steps are not all to the same place
    have hhere := List.dropWhile_eq_nil_iff.mp hback (.into part) (List.mem_reverse.mpr hpart)
    simp at hhere
  | cons s before =>
    have hsub : ∀ k ∈ s :: before, k ∈ stepsOf name.toList := fun k hk =>
      List.mem_reverse.mp ((List.dropWhile_sublist _).subset (hback ▸ hk))
    have hs : s ≠ .here := by
      intro heq
      have hhead := List.head?_dropWhile_not (· == Step.here) (stepsOf name.toList).reverse
      simp [hback, heq] at hhead
    obtain ⟨last, rfl⟩ : ∃ last, s = .into last := by
      cases s with
      | here => exact (hs rfl).elim
      | up => exact (h.down (hsub _ List.mem_cons_self)).elim
      | into last => exact ⟨last, rfl⟩
    refine ⟨before.reverse, stem last ++ ".class", fun k hk heq => ?_, ?_⟩
    · exact h.down (hsub _ (List.mem_cons_of_mem _ (heq ▸ List.mem_reverse.mp hk)))
    -- the last step of the name is the last of the path: dots behind it are left out
    · have hall : (p.steps ++ stepsOf name.toList).reverse.dropWhile (· == .here) =
          .into last :: (before ++ p.steps.reverse) := by
        rw [List.reverse_append, List.dropWhile_append, hback]
        rfl
      unfold ofClass
      simp only [hall]
      simp

namespace Tree

variable {t u : Tree} {p : Path}

theorem locate_extend_eq_ok {more : List Step} {m : Location} :
    t.locate { p with steps := p.steps ++ more } = .ok m ↔
      more.all canStep = true ∧ t.locate p = .ok (t.goal p) ∧ t.follow (t.goal p) more = .ok m := by
  have hstart : t.startOf { p with steps := p.steps ++ more } = t.startOf p := rfl
  unfold locate
  rw [hstart, List.all_append]
  by_cases hp : p.steps.all canStep = true
  · by_cases hm : more.all canStep = true
    · simp only [hp, hm, Bool.and_self, if_true, follow_append, bind_eq_ok_iff, true_and]
      constructor
      · rintro ⟨k, hk, hfollow⟩
        obtain rfl := follow_eq_ok hk
        exact ⟨hk, hfollow⟩
      · rintro ⟨hk, hfollow⟩
        exact ⟨_, hk, hfollow⟩
    · simp [hp, hm]
  · simp [hp]

/-- A class is found in a directory as before, if directories only have been added to the tree, at
the places on the way to the directory and below it. -/
theorem read?_ofClass (hsound : t.Sound) (h : t.Grows u (t.way p)) (hread : u.read p = t.read p)
    (hbelow : ∀ l, t.goal p <+: l → t.Grown u l) {name : String} (hname : Inward name) :
    u.read? (p.ofClass name) = t.read? (p.ofClass name) := by
  obtain ⟨steps, last, hdown, hclass⟩ := p.ofClass_inward hname
  rw [hclass]
  have hall : ∀ s ∈ steps ++ [Step.into last], s ≠ .up := by
    simpa [or_imp, forall_and] using hdown
  have hmore : steps ++ [Step.into last] ≠ [] := by simp
  generalize steps ++ [Step.into last] = more at hall hmore ⊢
  have hend : goal t p <+: goalFrom (goal t p) more :=
    prefix_of_wayFrom hall (goalFrom_mem_wayFrom _ _)
  have hgoal {x : Tree} (hx : x.workingDirectory = t.workingDirectory) :
      x.goal { p with steps := p.steps ++ more } = goalFrom (t.goal p) more := by
    rw [goal_congr hx]
    exact goalFrom_append _ _ _
  ext content
  rw [read?_eq_some_iff, read?_eq_some_iff, locate_extend_eq_ok, locate_extend_eq_ok, hgoal h.start,
    hgoal rfl]
  constructor
  · rintro ⟨⟨hsteps, hp, hfollow⟩, hnode⟩
    -- The steps below the directory are made from it, so it is one in `u`, and was one in `t`.
    have hu : u.isDirectory p = true := by
      cases more with
      | nil => exact (hmore rfl).elim
      | cons s more => exact isDirectory_iff.mpr ⟨hp, (follow_cons_eq_ok.mp hfollow).1⟩
    have ht := isDirectory_of_read h hread hu
    have hfile : t.get? (goalFrom (t.goal p) more) = some (.file content) := by
      obtain hsame | ⟨-, hnew⟩ := hbelow _ hend
      · rw [← hsame, hnode]
      · rw [hnode] at hnew
        cases hnew
    rw [goal_congr h.start] at hfollow
    refine ⟨⟨hsteps, (isDirectory_iff.mp ht).1, ?_⟩, hfile⟩
    refine follow_down hall hfollow (by simp [hnode]) fun k _ hk hne => ?_
    exact hsound.above hk hne (by simp [hfile])
  · rintro ⟨⟨hsteps, hp, hfollow⟩, hnode⟩
    have hp' : u.locate p = .ok (u.goal p) := by
      rw [locate_keeps h (by simp [hp]), hp, goal_congr h.start]
    have hfollow' : u.follow (t.goal p) more = t.follow (t.goal p) more :=
      follow_keeps (fun k hk => hbelow k (prefix_of_wayFrom hall hk)) (by simp [hfollow])
    refine ⟨⟨hsteps, hp', ?_⟩, (hbelow _ hend).keeps hnode⟩
    rw [goal_congr h.start, hfollow', hfollow]

end Tree

end MethodGraft.Files
