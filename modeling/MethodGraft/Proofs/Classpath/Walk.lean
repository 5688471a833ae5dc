import Mathlib.Data.List.Perm.Subperm
import MethodGraft.Proofs.Classpath.Order
import MethodGraft.Proofs.ClassFile.Codec

/-!
# Proofs.Classpath.Walk — the walk over the supertypes depends on meanings only

The walk is given a bound on the names that can turn up, and the bound is computed from what is
known and from the sizes of the roots.  It is never reached: the names listed are distinct, and all
of them stand in the tables that were counted.  So the walk lists the same types whatever else has
been looked up before.
-/

namespace MethodGraft.Classpath

open ClassFile

open Relation (ReflTransGen)

variable {m : Dictionary} {names pending chain : List String} {listed l : List Summary}
    {s : Summary}
  {start name i : String} {next : Option String} {n c : Nat}

/-! ## 1. The walk without its state -/

def Dictionary.visit (m : Dictionary) (unlisted : Nat) (listed : List Summary)
    (pending : List String) : Except Error (List Summary) :=
  match pending with
  | [] => .ok listed
  | i :: pending =>
    if listed.any (·.name == i) then m.visit unlisted listed pending
    else
      match unlisted with
      | 0 => .ok listed
      | unlisted + 1 => do
        let s ← m.required i
        m.visit unlisted (listed ++ [s]) (s.interfaces ++ pending)
  termination_by (unlisted, pending.length)

def Dictionary.climb (m : Dictionary) (start : String) (unlisted : Nat) : (unchained : Nat) →
    (chain : List String) → (listed : List Summary) → (next : Option String) →
    Except Error (List Summary)
  | _, _, listed, none => .ok listed
  | unchained, chain, listed, some name =>
    if chain.contains name then .error (.malformed start (.cyclic name))
    else
      match unchained with
      | 0 => .error (.malformed start (.cyclic name))
      | unchained + 1 => do
        let s ← m.required name
        let listed ← m.visit unlisted (withClass listed s) s.interfaces
        m.climb start unlisted unchained (name :: chain) listed s.superName?

def Dictionary.hierarchy (m : Dictionary) (bound : Nat) (name : String) :
    Except Error (List Summary) :=
  m.climb name bound bound [] [] (some name)

theorem Dictionary.visit_nil : m.visit n listed [] = .ok listed := by
  unfold Dictionary.visit
  rfl

theorem Dictionary.visit_listed (h : listed.any (·.name == name) = true) :
    m.visit n listed (name :: pending) = m.visit n listed pending := by
  conv_lhs => unfold Dictionary.visit
  exact if_pos h

theorem Dictionary.visit_new (h : ¬listed.any (·.name == name) = true) :
    m.visit (n + 1) listed (name :: pending) = m.required name >>= fun s =>
      m.visit n (listed ++ [s]) (s.interfaces ++ pending) := by
  conv_lhs => unfold Dictionary.visit
  exact if_neg h

/-- Names in front that are listed already make no difference. -/
theorem Dictionary.visit_dropWhile :
    m.visit n listed (pending.dropWhile fun i => listed.any (·.name == i)) =
    m.visit n listed pending := by
  induction pending with
  | nil => rfl
  | cons i pending ih =>
    by_cases hlisted : listed.any (·.name == i) = true
    · rw [List.dropWhile_cons, if_pos hlisted, ih, Dictionary.visit_listed hlisted]
    · rw [List.dropWhile_cons, if_neg hlisted]

theorem Dictionary.visit_zero : m.visit 0 listed pending = .ok listed := by
  induction pending with
  | nil => exact Dictionary.visit_nil
  | cons i pending ih =>
    by_cases hlisted : listed.any (·.name == i) = true
    · rw [Dictionary.visit_listed hlisted, ih]
    · unfold Dictionary.visit
      exact if_neg hlisted

theorem yields_visit : Yields m (visitInterfaces n listed pending) (m.visit n listed pending) := by
  induction n generalizing listed pending with
  | zero =>
    rw [Dictionary.visit_zero]
    exact .pure
  | succ n ih =>
    rw [← Dictionary.visit_dropWhile]
    unfold visitInterfaces
    cases hpending : pending.dropWhile fun i => listed.any (·.name == i) with
    | nil =>
      rw [Dictionary.visit_nil]
      exact .pure
    | cons i rest =>
      -- what is listed has been dropped from the front, so the next interface is new
      have hnew : ¬listed.any (·.name == i) = true := by
        have hne : (pending.dropWhile fun i => listed.any (·.name == i)) ≠ [] := by
          rw [hpending]
          exact List.cons_ne_nil i rest
        have hhead := List.head_dropWhile_not (fun i => listed.any (·.name == i)) hne
        simpa [hpending] using hhead
      rw [Dictionary.visit_new hnew]
      exact yields_resolve.bind fun s _ => ih

theorem Dictionary.climb_none : m.climb start n c chain listed none = .ok listed := by
  cases c <;> rfl

theorem Dictionary.climb_again (h : name ∈ chain) :
    m.climb start n c chain listed (some name) = .error (.malformed start (.cyclic name)) := by
  unfold Dictionary.climb
  exact if_pos (List.contains_iff_mem.mpr h)

theorem Dictionary.climb_new (h : name ∉ chain) :
    m.climb start n (c + 1) chain listed (some name) = m.required name >>= fun s =>
      m.visit n (withClass listed s) s.interfaces >>= fun l =>
        m.climb start n c (name :: chain) l s.superName? := by
  conv_lhs => unfold Dictionary.climb
  exact if_neg fun hcontains => h (List.contains_iff_mem.mp hcontains)

theorem yields_climb :
    Yields m (Classpath.climb start n c chain listed next)
    (m.climb start n c chain listed next) := by
  induction c generalizing chain listed next with
  | zero =>
    cases next with
    | none => exact .pure
    | some name =>
      unfold Classpath.climb Dictionary.climb
      dsimp only
      by_cases hchain : chain.contains name = true
      · rw [if_pos hchain, if_pos hchain]
        exact Yields.throw
      · rw [if_neg hchain, if_neg hchain]
        exact .throw
  | succ c ih =>
    cases next with
    | none => exact .pure
    | some name =>
      unfold Classpath.climb Dictionary.climb
      dsimp only
      by_cases hchain : chain.contains name = true
      · rw [if_pos hchain, if_pos hchain]
        exact Yields.throw
      · rw [if_neg hchain, if_neg hchain]
        exact yields_resolve.bind fun s _ => yields_visit.bind fun l _ => ih

/-! ## 2. The bound is never reached -/

def Dictionary.Within (m : Dictionary) (names : List String) : Prop :=
  ∀ name s, m name = .ok (some s) → s.supertypes ⊆ names

/-- Links between interfaces do not leave the names. -/
theorem Dictionary.Within.links (h : m.Within names) (hi : i ∈ names)
    (hlinks : ReflTransGen m.Implements i name) : name ∈ names := by
  induction hlinks with
  | refl => exact hi
  | tail _ hlink ih =>
    obtain ⟨s, hs, hmem⟩ := hlink
    exact h _ s hs (List.mem_append_right _ hmem)

theorem Dictionary.DepthFirst.within {is : List String} (hm : m.Keyed)
    (h : m.DepthFirst listed is l) (hnames : m.Within names) (hlisted : listed.map (·.name) ⊆ names)
    (his : is ⊆ names) : l.map (·.name) ⊆ names := by
  rintro name hname
  obtain ⟨t, ht, rfl⟩ := List.mem_map.mp hname
  rcases h.reached hm ht with hold | ⟨i, hi, hlinks⟩
  · exact hlisted (List.mem_map_of_mem hold)
  · exact hnames.links (his hi) hlinks

theorem within_withClass (hlisted : listed.map (·.name) ⊆ names) (hs : s.name ∈ names) :
    (withClass listed s).map (·.name) ⊆ names := by
  rintro name hname
  obtain ⟨t, ht, rfl⟩ := List.mem_map.mp hname
  rcases mem_withClass ht with hold | rfl
  · exact hlisted (List.mem_map_of_mem hold)
  · exact hs

/-- Where a name is missing, there are fewer than all. -/
theorem length_lt_of_new {found : List String} (hnodup : found.Nodup) (hwithin : found ⊆ names)
    (hname : name ∈ names) (hnew : name ∉ found) : found.length < names.length := by
  have hcons : (name :: found).Nodup := List.nodup_cons.mpr ⟨hnew, hnodup⟩
  exact (List.subperm_of_subset hcons (List.cons_subset.mpr ⟨hname, hwithin⟩)).length_le

theorem Lists.length_lt (h : Lists m listed) (hlisted : listed.map (·.name) ⊆ names)
    (hname : name ∈ names) (hnew : name ∉ listed.map (·.name)) : listed.length < names.length := by
  have hlt := length_lt_of_new h.nodup hlisted hname hnew
  rwa [List.length_map] at hlt

/-- Within a bound for all names the interfaces are listed as without one. -/
theorem visits_visit (hm : m.Keyed) (hnames : m.Within names) (hl : Lists m listed)
    (hlisted : listed.map (·.name) ⊆ names) (hpending : pending ⊆ names)
    (hn : names.length ≤ listed.length + n) :
    m.Visits listed pending (m.visit n listed pending) := by
  fun_induction Dictionary.visit m n listed pending with
  | case1 n listed => exact .done
  | case2 n listed i pending hold ih =>
    exact .skip (any_name_iff.mp hold) (ih hl hlisted (List.cons_subset.mp hpending).2 hn)
  | case3 listed i pending hnew =>
    have hlt := hl.length_lt hlisted (List.cons_subset.mp hpending).1 (any_name_iff.not.mp hnew)
    omega
  | case4 listed i pending hnew n ih =>
    rw [any_name_iff] at hnew
    obtain ⟨hi, hpending⟩ := List.cons_subset.mp hpending
    cases hs : m.required i with
    | error e => exact .fail hnew hs
    | ok s =>
      have hmeans := Dictionary.required_eq_ok_iff.mp hs
      have habove : s.interfaces ⊆ names :=
        fun t ht => hnames i s hmeans (List.mem_append_right _ ht)
      refine .visit hnew hs
        (ih s (hl.add hm hnew hmeans) ?_ (List.append_subset.mpr ⟨habove, hpending⟩) ?_)
      · rw [map_name_concat, hm i s hmeans]
        exact List.append_subset.mpr ⟨hlisted, by simpa using hi⟩
      · rw [List.length_append, List.length_singleton]
        omega

/-- Within bounds for all names the classes and interfaces are listed as without them. -/
theorem climbs_climb (hm : m.Keyed) (hnames : m.Within names) (hl : Lists m listed)
    (hlisted : listed.map (·.name) ⊆ names) (hchain : chain.Nodup) (hwithin : chain ⊆ names)
    (hnext : next.toList ⊆ names) (hn : names.length ≤ n) (hc : names.length ≤ chain.length + c) :
    m.Climbs start chain listed next (m.climb start n c chain listed next) := by
  induction c generalizing chain listed next with
  | zero =>
    cases next with
    | none => exact Dictionary.climb_none (m := m) ▸ .top
    | some name =>
      by_cases hagain : name ∈ chain
      · exact Dictionary.climb_again (m := m) hagain ▸ .cyclic hagain
      -- the chain has all names already, so this one cannot be new
      · have hlt := length_lt_of_new hchain hwithin (by simpa using hnext) hagain
        omega
  | succ c ih =>
    cases next with
    | none => exact Dictionary.climb_none (m := m) ▸ .top
    | some name =>
      have hname : name ∈ names := by simpa using hnext
      by_cases hagain : name ∈ chain
      · exact Dictionary.climb_again (m := m) hagain ▸ .cyclic hagain
      · rw [Dictionary.climb_new hagain]
        cases hs : m.required name with
        | error e => exact .fail hagain hs
        | ok s =>
          have hmeans := Dictionary.required_eq_ok_iff.mp hs
          have hnext : s.superName?.toList ⊆ names :=
            fun t ht => hnames name s hmeans (List.mem_append_left _ ht)
          have habove : s.interfaces ⊆ names :=
            fun t ht => hnames name s hmeans (List.mem_append_right _ ht)
          have hclass := hl.withClass hm hmeans
          -- no name that the class brings in is outside of the bound
          have hlisted := within_withClass hlisted (hm name s hmeans ▸ hname)
          have hvisits := visits_visit hm hnames hclass hlisted habove (Nat.le_add_left_of_le hn)
          show m.Climbs start chain listed (some name)
            (m.visit n (withClass listed s) s.interfaces >>= _)
          cases hl' : m.visit n (withClass listed s) s.interfaces with
          | error e => exact .failAbove hagain hs (hl' ▸ hvisits)
          | ok l =>
            rw [hl'] at hvisits
            have hdepth := hvisits.depthFirst rfl
            refine .climb hagain hs hvisits
              (ih (hdepth.lists hm hclass) (hdepth.within hm hnames hlisted habove)
              (List.nodup_cons.mpr ⟨hagain, hchain⟩) (List.cons_subset.mpr ⟨hname, hwithin⟩) hnext
              ?_)
            rw [List.length_cons]
            omega

def Dictionary.Suffices (m : Dictionary) (bound : Nat) (name : String) : Prop :=
  ∃ names : List String, name ∈ names ∧ m.Within names ∧ names.length ≤ bound

theorem climbs_hierarchy (hm : m.Keyed) {bound : Nat} (h : m.Suffices bound name) :
    m.Climbs name [] [] (some name) (m.hierarchy bound name) := by
  obtain ⟨names, hname, hwithin, hle⟩ := h
  exact climbs_climb hm hwithin lists_nil (List.nil_subset _) List.nodup_nil (List.nil_subset _)
    (by simpa using hname) hle (Nat.le_add_left_of_le hle)

/-! ## 3. The names that can turn up -/

def Root.contents : Root → List (List UInt8)
  | .classes served => served.map (·.2)
  | .archive a => a.entries.filterMap fun e => (a.content e).toOption
  | .directory tree _ => tree.nodes.filterMap fun (_, node) =>
    match node with
    | .file content => some content
    | .directory => none

theorem Root.length_contents_le (root : Root) : root.contents.length ≤ root.size := by
  cases root with
  | classes served => exact Nat.le_of_eq (List.length_map _)
  | archive a => exact List.length_filterMap_le _ _
  | directory tree path => exact List.length_filterMap_le _ _

/-- What is remembered under a key stands in the table. -/
theorem mem_of_lookup {κ α : Type} [BEq κ] [LawfulBEq κ] {table : List (κ × α)} {key : κ} {a : α}
    (h : table.lookup key = some a) : (key, a) ∈ table := by
  obtain ⟨before, after, rfl, -⟩ := List.lookup_eq_some_iff.mp h
  simp

theorem Root.mem_contents {root : Root} {bytes : List UInt8}
    (h : root.classBytes name = .ok (some bytes)) : bytes ∈ root.contents := by
  cases root with
  | classes served => exact List.mem_map_of_mem (mem_of_lookup (Except.ok.inj h))
  | archive a =>
    have hcontent := mapError_eq_ok_iff.mp h
    unfold Archive.contentOf? at hcontent
    split at hcontent
    next e hfind =>
      -- the last entry with the name is the one that is read
      have hmem : e ∈ a.entries := List.mem_reverse.mp (List.mem_of_find?_eq_some hfind)
      cases hdata : a.content e with
      | error err =>
        rw [hdata] at hcontent
        cases hcontent
      | ok data =>
        rw [hdata] at hcontent
        cases hcontent
        exact List.mem_filterMap.mpr ⟨e, hmem, by rw [hdata]; rfl⟩
    next => cases hcontent
  | directory tree path =>
    have hread := Except.ok.inj h
    unfold Files.Tree.read? at hread
    cases hfile : tree.read (path.ofClass name) with
    | error e =>
      rw [hfile] at hread
      cases hread
    | ok content =>
      rw [hfile] at hread
      cases hread
      -- the path leads to a place in the tree, where a file must stand
      obtain ⟨l, -, hget⟩ := bind_eq_ok_iff.mp hfile
      split at hget
      next content hnode =>
        cases hget
        unfold Files.Tree.get? at hnode
        split at hnode
        next => cases hnode
        next => exact List.mem_filterMap.mpr ⟨(l, .file bytes), mem_of_lookup hnode, rfl⟩
      next => cases hget
      next => cases hget

def supertypesOf (bytes : List UInt8) : List String :=
  match decode bytes >>= Summary.ofClass with
  | .ok s => s.supertypes
  | .error _ => []

theorem supertypesOf_eq {bytes : List UInt8} {file : ClassFile} (hdecode : decode bytes = .ok file)
    (hclass : Summary.ofClass file = .ok s) : supertypesOf bytes = s.supertypes := by
  have hs : (decode bytes >>= Summary.ofClass) = .ok s := bind_eq_ok_iff.mpr ⟨file, hdecode, hclass⟩
  unfold supertypesOf
  rw [hs]

/-- A class file names at most one superclass and 65535 interfaces. -/
theorem length_supertypesOf_le (bytes : List UInt8) : (supertypesOf bytes).length ≤ 65536 := by
  unfold supertypesOf
  split
  next s hs =>
    obtain ⟨c, hdecode, hclass⟩ := bind_eq_ok_iff.mp hs
    obtain ⟨interfaceCount, hcount, -⟩ := bind_eq_ok_iff.mp (decode_eq_ok_iff.mp hdecode).2
    have hsuper : s.superName?.toList.length ≤ 1 := by
      cases s.superName? <;> simp
    have hinterfaces : s.interfaces.length = c.interfaces.length := by
      obtain ⟨fields, -, hclass⟩ := bind_eq_ok_iff.mp hclass
      obtain ⟨methods, -, hclass⟩ := bind_eq_ok_iff.mp hclass
      obtain ⟨name, -, hclass⟩ := bind_eq_ok_iff.mp hclass
      obtain ⟨superName?, -, hclass⟩ := bind_eq_ok_iff.mp hclass
      obtain ⟨interfaces, hnames, hclass⟩ := bind_eq_ok_iff.mp hclass
      cases hclass
      exact (mapM_eq_ok_iff.mp hnames).length_eq.symm
    -- the number of interfaces is written in two bytes
    have hle := (encodeCount_eq_ok_iff.mp hcount).1
    unfold Summary.supertypes
    rw [List.length_append]
    omega
  next => exact Nat.zero_le _

def Root.supertypes (root : Root) : List String := root.contents.flatMap supertypesOf

theorem Root.length_supertypes_le (root : Root) : root.supertypes.length ≤ root.size * 65536 := by
  have hflat (contents : List (List UInt8)) :
      (contents.flatMap supertypesOf).length ≤ contents.length * 65536 := by
    induction contents with
    | nil => exact Nat.zero_le _
    | cons bytes contents ih =>
      have hbytes := length_supertypesOf_le bytes
      rw [List.flatMap_cons, List.length_append, List.length_cons]
      omega
  exact Nat.le_trans (hflat root.contents) (Nat.mul_le_mul_right 65536 root.length_contents_le)

def supertypesKnown (entry : String × Option Summary) : List String :=
  (entry.2.map Summary.supertypes).getD []

def Resolver.supertypes (r : Resolver) : List String :=
  r.roots.flatMap Root.supertypes ++ r.cache.flatMap supertypesKnown ++ FieldType.rootClass ::
    Summary.arrayInterfaces

theorem length_flatMap_le_foldr {α : Type} {f : α → List String} {g : α → Nat → Nat}
    (hg : ∀ a n, (f a).length + n ≤ g a n) (as : List α) (n : Nat) :
    (as.flatMap f).length + n ≤ as.foldr g n := by
  induction as with
  | nil => exact Nat.le_of_eq (Nat.zero_add n)
  | cons a as ih =>
    have ha := hg a (as.foldr g n)
    rw [List.flatMap_cons, List.length_append, List.foldr_cons]
    omega

/-- The bound counts all of them, and one more. -/
theorem Resolver.length_supertypes_lt (r : Resolver) : r.supertypes.length < r.nameBound := by
  have hroot (root : Root) (n : Nat) : root.supertypes.length + n ≤ root.size * 65536 + n :=
    Nat.add_le_add_right root.length_supertypes_le n
  unfold Resolver.nameBound
  refine Nat.lt_of_lt_of_le ?_ (length_flatMap_le_foldr hroot r.roots _)
  refine Nat.lt_of_lt_of_le ?_ (Nat.add_le_add_left (Nat.add_le_add_right
    (length_flatMap_le_foldr (f := supertypesKnown) ?_ r.cache 0) 4) _)
  · have hthree : (FieldType.rootClass :: Summary.arrayInterfaces).length = 3 := rfl
    unfold Resolver.supertypes
    rw [List.length_append, List.length_append]
    omega
  · rintro ⟨name, found⟩ n
    cases found with
    | none => exact Nat.le_of_eq (Nat.zero_add n)
    | some s =>
      have hsuper : s.superName?.toList.length ≤ 1 := by
        cases s.superName? <;> simp
      show (s.superName?.toList ++ s.interfaces).length + n ≤ s.interfaces.length + 1 + n
      rw [List.length_append]
      omega

/-- No walk leaves them. -/
theorem Resolver.within_supertypes (r : Resolver) : r.meaning.Within r.supertypes := by
  intro name s hs t ht
  unfold Resolver.supertypes
  cases hknown : r.cache.lookup name with
  | some known =>
    rw [Resolver.meaning_known hknown] at hs
    cases hs
    apply List.mem_append_left
    apply List.mem_append_right
    exact List.mem_flatMap.mpr ⟨(name, some s), mem_of_lookup hknown, ht⟩
  | none =>
    rw [Resolver.meaning_unknown hknown] at hs
    split at hs
    next =>
      cases hs
      exact List.mem_append_right _ ht
    next =>
      obtain ⟨root, hroot, bytes, hbytes, hsummary⟩ := root_of_served hs
      obtain ⟨-, c, hdecode, hclass⟩ := class_of_summarize hsummary
      apply List.mem_append_left
      apply List.mem_append_left
      refine List.mem_flatMap.mpr
        ⟨root, hroot, List.mem_flatMap.mpr ⟨bytes, Root.mem_contents hbytes, ?_⟩⟩
      -- what is served is one of the contents of the root
      rw [supertypesOf_eq hdecode hclass]
      exact ht

theorem Resolver.suffices_nameBound (r : Resolver) (name : String) :
    r.meaning.Suffices r.nameBound name := by
  refine ⟨name :: r.supertypes, List.mem_cons_self, fun other s hs => ?_, r.length_supertypes_lt⟩
  exact List.subset_cons_of_subset name (r.within_supertypes other s hs)

/-- The walk is the same for all bounds that suffice. -/
theorem Dictionary.hierarchy_bound (hm : m.Keyed) {bound bound' : Nat} (h : m.Suffices bound name)
    (h' : m.Suffices bound' name) : m.hierarchy bound name = m.hierarchy bound' name :=
  (climbs_hierarchy hm h).unique (climbs_hierarchy hm h')

/-- Where names mean the same, the walk lists the same. -/
theorem yields_hierarchy (hm : m.Keyed) {bound : Nat} (h : m.Suffices bound name) :
    Yields m (hierarchy name) (m.hierarchy bound name) := by
  rintro r rfl
  rw [Dictionary.hierarchy_bound hm h (r.suffices_nameBound name)]
  exact yields_climb r rfl

end MethodGraft.Classpath
