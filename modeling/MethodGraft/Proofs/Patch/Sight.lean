import MethodGraft.Patch.Transform
import MethodGraft.Proofs.Compilation
import MethodGraft.Proofs.Typed.Determinacy

/-!
# Proofs.Patch.Sight — what a patch sees of the tree

A patch looks classes up, and that is all it sees of the tree that the classpath lies in.  From two
trees in which the entries of the classpath serve the same classes come the same bytes, or the same
fault.  If the patch succeeds, it is enough that they serve the same under the names that it has
looked up.
-/

namespace MethodGraft

namespace Classpath

/-! ## 1. Names that are looked up -/

/-- On the way from `r` to `r'` no answer is forgotten, and classes go by their own names as
before. -/
def Resolver.Grows (r r' : Resolver) : Prop :=
  r.meaning.Keyed → r'.meaning.Keyed ∧ ∀ name, r.Remembers name → r'.Remembers name

theorem Resolver.Grows.refl (r : Resolver) : r.Grows r := fun hr => ⟨hr, fun _ => id⟩

theorem Resolver.Grows.trans {r r' r'' : Resolver} (h : r.Grows r') (h' : r'.Grows r'') :
    r.Grows r'' := by
  intro hr
  obtain ⟨hr', hkept⟩ := h hr
  obtain ⟨hr'', hkept'⟩ := h' hr'
  exact ⟨hr'', fun name hname => hkept' name (hkept name hname)⟩

/-- `N` has all names, or a run has succeeded and `N` has those whose answers it has left in the
resolver. -/
def Resolver.Covered (N : String → Prop) (succeeded : Bool) (r : Resolver) : Prop :=
  (∀ name, N name) ∨ succeeded = true ∧ ∀ name, r.Remembers name → N name

/-- What covers a run covers each part that it begins with. -/
theorem Resolver.Grows.covered {N : String → Prop} {succeeded : Bool} {r r' : Resolver}
    (h : r.Grows r') (hr : r.meaning.Keyed) (hcovered : r'.Covered N succeeded) :
    r.Covered N true :=
  hcovered.imp_right fun hnames => ⟨rfl, fun name hname => hnames.2 name ((h hr).2 name hname)⟩

end Classpath

open Classpath

/-! ## 2. Steps that do the same -/

section

variable {ε σ α β : Type} {N : String → Prop} {view : σ → Resolver} {x y : ExceptT ε (StateM σ) α}
  {R S T : σ → σ → Prop}

/-- From states that `R` relates the two steps have the same result, and end in states that `S`
relates, provided that `N` covers the run of the first one. -/
structure Matches (N : String → Prop) (view : σ → Resolver) (R : σ → σ → Prop)
    (x y : ExceptT ε (StateM σ) α) (S : σ → σ → Prop) : Prop where
  grows : ∀ s, (view s).Grows (view (x.run.run s).2)
  same : ∀ s s', R s s' → (view s).meaning.Keyed →
    (view (x.run.run s).2).Covered N (x.run.run s).1.isOk →
    (x.run.run s).1 = (y.run.run s').1 ∧ S (x.run.run s).2 (y.run.run s').2

abbrev Respects (N : String → Prop) (view : σ → Resolver) (R : σ → σ → Prop)
    (x : ExceptT ε (StateM σ) α) : Prop :=
  Matches N view R x x R

theorem Matches.bind {f g : α → ExceptT ε (StateM σ) β} (h : Matches N view R x y S)
    (hfg : ∀ a, Matches N view S (f a) (g a) T) (hST : ∀ s s', S s s' → T s s') :
    Matches N view R (x >>= f) (y >>= g) T := by
  constructor
  · intro s
    have hgrows := h.grows s
    rw [run_bind]
    generalize x.run.run s = out at hgrows
    obtain ⟨result, t⟩ := out
    cases result with
    | error e => exact hgrows
    | ok a => exact hgrows.trans ((hfg a).grows t)
  · intro s s' hs hkeyed
    have hgrows := h.grows s
    have hsame := h.same s s' hs hkeyed
    rw [run_bind, run_bind]
    generalize x.run.run s = out, y.run.run s' = out' at hgrows hsame
    obtain ⟨result, t⟩ := out
    obtain ⟨result', t'⟩ := out'
    intro hcovered
    cases result with
    | error e =>
      obtain ⟨hresult, hstate⟩ := hsame hcovered
      cases hresult
      exact ⟨rfl, hST t t' hstate⟩
    | ok a =>
      -- what the second step leaves in the resolver includes what the first one has left there
      have ht := (hgrows hkeyed).1
      obtain ⟨hresult, hstate⟩ := hsame (((hfg a).grows t).covered ht hcovered)
      cases hresult
      exact (hfg a).same t t' hstate ht hcovered

theorem Matches.mono {R' S' : σ → σ → Prop} (h : Matches N view R x y S)
    (hR : ∀ s s', R' s s' → R s s') (hS : ∀ s s', S s s' → S' s s') : Matches N view R' x y S' := by
  refine ⟨h.grows, fun s s' hs hkeyed hcovered => ?_⟩
  obtain ⟨hresult, hstate⟩ := h.same s s' (hR s s' hs) hkeyed hcovered
  exact ⟨hresult, hS _ _ hstate⟩

/-- Both steps fail alike and change nothing. -/
theorem Matches.ofError {e : ε} (hx : ∀ s, x.run.run s = (.error e, s))
    (hy : ∀ s, y.run.run s = (.error e, s)) : Matches N view R x y R := by
  refine ⟨fun s => ?_, fun s s' hs _ _ => ?_⟩
  · rw [hx]
    exact .refl _
  · rw [hx, hy]
    exact ⟨rfl, hs⟩

namespace Respects

/-- An outcome that changes nothing. -/
theorem ofMk (r : Except ε α) : Respects N view R (ExceptT.mk (pure r) : ExceptT ε (StateM σ) α) :=
  ⟨fun _ => .refl _, fun _ _ hs _ _ => ⟨rfl, hs⟩⟩

theorem pure (a : α) : Respects N view R (pure a : ExceptT ε (StateM σ) α) := ofMk (.ok a)

theorem throw (e : ε) : Respects N view R (throw e : ExceptT ε (StateM σ) α) := ofMk (.error e)

theorem bind {f : α → ExceptT ε (StateM σ) β} (h : Respects N view R x)
    (hf : ∀ a, Respects N view R (f a)) :
    Respects N view R (x >>= f) := Matches.bind h hf fun _ _ => id

/-- A fault that is reported if `c` holds. -/
theorem refusing {c : Prop} [Decidable c] {e : ε} {f : α → ExceptT ε (StateM σ) β}
    {y : ExceptT ε (StateM σ) β} (h : Respects N view R y) :
    Respects N view R (if c then MonadExcept.throw e >>= f else y) := by
  split
  next => exact Matches.ofError (fun _ => rfl) fun _ => rfl
  next => exact h

/-- A step that reads of the state what the relation does not tell apart. -/
theorem get_bind {f : σ → ExceptT ε (StateM σ) α} (hsame : ∀ s s', R s s' → f s = f s')
    (hf : ∀ s, Respects N view R (f s)) : Respects N view R (get >>= f) := by
  refine ⟨fun s => (hf s).grows s, fun s s' hs => ?_⟩
  rw [run_get_bind, run_get_bind, ← hsame s s' hs]
  exact (hf s).same s s' hs

end Respects

end

/-! ## 3. Resolvers to which names mean the same -/

namespace Classpath

open ClassFile

variable {N : String → Prop}

structure Resolver.Alike (N : String → Prop) (r r' : Resolver) : Prop where
  meaning : ∀ name, N name → r'.meaning name = r.meaning name
  keyed : r'.meaning.Keyed

theorem respects_of_determined {ε α : Type} {x : ExceptT ε (StateM Resolver) α}
    (h : ∀ m : Dictionary, m.Keyed → m.Bounded → Determined m x) :
    Respects N id (Resolver.Alike N) x := by
  refine ⟨fun r hkeyed => ?_, fun r r' halike hkeyed hcovered => ?_⟩
  · have hlearns := (h r.meaning hkeyed r.bounded).learns
    exact ⟨hlearns.meaning ▸ hkeyed, hlearns.kept⟩
  · have hdetermined := h r.meaning hkeyed r.bounded
    have hyields : Yields r'.meaning x (x.run.run r).1 := by
      obtain hall | ⟨hok, hnames⟩ := hcovered
      · have hmeaning : r'.meaning = r.meaning := funext fun name => halike.meaning name (hall name)
        obtain ⟨result, hresult⟩ := hdetermined.result
        rw [hmeaning, hresult.result rfl]
        exact hresult
      -- a run that succeeds has the same result where the names mean the same that it leaves in the
      -- resolver
      · cases hrun : x.run.run r with
        | mk result t =>
          rw [hrun] at hok hnames
          cases result with
          | error e => cases hok
          | ok a =>
            exact hdetermined.elsewhere r a t rfl hrun r'.meaning halike.keyed r'.bounded
              fun name hname => halike.meaning name (hnames name hname)
    obtain ⟨t', hrun', hlearns'⟩ := hyields r' rfl
    rw [hrun']
    refine ⟨rfl, fun name hname => ?_, hlearns'.meaning ▸ halike.keyed⟩
    rw [hlearns'.meaning, hdetermined.learns.meaning]
    exact halike.meaning name hname

/-- A class goes by its own name after it has been defined. -/
theorem keyed_remember {r : Resolver} (h : r.meaning.Keyed) (s : Summary) :
    (r.remember s.name (some s)).meaning.Keyed := by
  intro name found hname
  rw [meaning_remember_apply] at hname
  split at hname
  next heq =>
    cases hname
    exact heq.symm
  next => exact h name found hname

theorem respects_define (c : ClassFile) : Respects N id (Resolver.Alike N) (define c) := by
  cases hs : Summary.ofClass c with
  | error e => exact Matches.ofError (run_define_error hs) (run_define_error hs)
  | ok s =>
    refine ⟨fun r hkeyed => ?_, fun r r' halike _ _ => ?_⟩
    · rw [run_define_ok hs]
      exact ⟨keyed_remember hkeyed s, fun name hname => hname.remember _ _⟩
    · rw [run_define_ok hs, run_define_ok hs]
      refine ⟨rfl, fun name hname => ?_, keyed_remember halike.keyed s⟩
      rw [meaning_remember_apply, meaning_remember_apply, halike.meaning name hname]

def Root.Same (N : String → Prop) (r r' : Root) : Prop :=
  ∀ name, N name → r'.classBytes name = r.classBytes name

theorem served_same {roots roots' : List Root} (h : List.Forall₂ (Root.Same N) roots roots')
    {name : String} (hname : N name) : served name roots' = served name roots := by
  induction h with
  | nil => rfl
  | cons hroot _ ih => rw [served, served, hroot name hname, ih]

structure Resolver.Opened (N : String → Prop) (r r' : Resolver) : Prop where
  roots : List.Forall₂ (Root.Same N) r.roots r'.roots
  fresh : r.cache = [] ∧ r'.cache = []

theorem keyed_of_fresh {r : Resolver} (h : r.cache = []) : r.meaning.Keyed := by
  refine keyed_iff.mpr fun name s hknown => ?_
  rw [h] at hknown
  cases hknown

theorem Resolver.Opened.alike {r r' : Resolver} (h : r.Opened N r') : r.Alike N r' := by
  obtain ⟨hcache, hcache'⟩ := h.fresh
  refine ⟨fun name hname => ?_, keyed_of_fresh hcache'⟩
  rw [Resolver.meaning_unknown (by rw [hcache']; rfl),
    Resolver.meaning_unknown (by rw [hcache]; rfl), served_same h.roots hname]

theorem matches_pushRoot {root root' : Root} (h : root.Same N root') :
    Matches N id (Resolver.Opened N) (pushRoot root) (pushRoot root') (Resolver.Opened N) := by
  refine ⟨fun r hkeyed => ⟨?_, fun _ => id⟩, fun _ _ hr _ _ => ?_⟩
  -- what is remembered stays, so no class can go by another name
  · exact keyed_iff.mpr ((@keyed_iff r).mp hkeyed)
  · exact ⟨rfl, List.rel_append hr.roots (.cons h .nil), hr.fresh⟩

/-- The entry of a classpath is opened alike in both trees: the same fault is found, or the same
classes are served under the names that `N` has. -/
def Entry.Same (N : String → Prop) (t t' : Files.Tree) (e : Entry) : Prop :=
  match e.openRoot t, e.openRoot t' with
  | .ok root, .ok root' => root.Same N root'
  | .error f, .error f' => f = f'
  | _, _ => False

/-- An archive that is read alike serves the same classes. -/
theorem Entry.same_archive {t t' : Files.Tree} {path : Files.Path}
    (h : t'.read path = t.read path) : Entry.Same N t t' (.archive path) := by
  have hopen : (Entry.archive path).openRoot t' = (Entry.archive path).openRoot t := by
    unfold Entry.openRoot
    simp only [h]
  unfold Entry.Same
  rw [hopen]
  cases (Entry.archive path).openRoot t with
  | error f => rfl
  | ok root => exact fun _ _ => rfl

/-- A directory serves the same classes if the files are read alike that stand for them. -/
theorem Entry.same_directory {t t' : Files.Tree} {path : Files.Path}
    (h : ∀ name, N name → t'.read? (path.ofClass name) = t.read? (path.ofClass name)) :
    Entry.Same N t t' (.directory path) := fun name hname => congrArg Except.ok (h name hname)

end Classpath

theorem isOk_mapError {ε ε' α : Type} (f : ε → ε') (result : Except ε α) :
    (result.mapError f).isOk = result.isOk := by
  cases result <;> rfl

theorem isOk_map {ε α β : Type} (f : α → β) (result : Except ε α) :
    (result.map f).isOk = result.isOk := by
  cases result <;> rfl

/-! ## 4. Compiling -/

namespace Typed

open ClassFile Classpath

variable {α : Type} {N : String → Prop}

structure Session.Alike (N : String → Prop) (s s' : Session) : Prop where
  file : s.file = s'.file
  resolver : s.resolver.Alike N s'.resolver

theorem respects_look {x : Resolve α} (h : Respects N id (Resolver.Alike N) x) :
    Respects N id (Resolver.Alike N) (look x) := by
  refine ⟨fun r => ?_, fun r r' halike hkeyed hcovered => ?_⟩
  · rw [run_look]
    exact h.grows r
  · rw [run_look, isOk_mapError] at hcovered
    obtain ⟨hresult, hstate⟩ := h.same r r' halike hkeyed hcovered
    rw [run_look, run_look, hresult]
    exact ⟨rfl, hstate⟩

theorem respects_bind {x : Binding α} (h : Respects N id (Resolver.Alike N) x) :
    Respects N Session.resolver (Session.Alike N) (Compilation.bind x) := by
  refine ⟨fun s => h.grows s.resolver, fun s s' halike hkeyed hcovered => ?_⟩
  obtain ⟨hresult, hstate⟩ := h.same _ _ halike.resolver hkeyed hcovered
  exact ⟨hresult, halike.file, hstate⟩

theorem respects_edit (x : Edit α) :
    Respects N Session.resolver (Session.Alike N) (Compilation.edit x) := by
  have hrun (s : Session) : (Compilation.edit x).run.run s =
      ((x.run.run s.file).1.mapError .classFile, { s with file := (x.run.run s.file).2 }) := rfl
  refine ⟨fun s => .refl _, fun s s' halike _ _ => ?_⟩
  rw [hrun, hrun, halike.file]
  exact ⟨rfl, rfl, halike.resolver⟩

theorem respects_compile (imports : List String) (source : String) :
    Respects N Session.resolver (Session.Alike N) (compile imports source) := by
  unfold compile
  refine (Respects.ofMk _).bind fun d => ?_
  refine Respects.get_bind (fun s s' halike => by rw [halike.file]) fun s => ?_
  refine (respects_bind (respects_look (respects_define s.file))).bind fun self => ?_
  refine (respects_bind ?_).bind fun m => respects_edit _
  exact respects_of_determined fun m hkeyed hbounded =>
    determined_bindMethod hkeyed hbounded imports self d

end Typed

/-! ## 5. Patching -/

namespace Patch

open ClassFile Classpath

variable {α : Type} {N : String → Prop} {R S : Resolver → Resolver → Prop} {t t' : Files.Tree}

structure Run.With (R : Resolver → Resolver → Prop) (r r' : Run) : Prop where
  resolver : R r.resolver r'.resolver
  notices : r.notices = r'.notices

theorem matches_look {x y : Resolve α} (h : Matches N id R x y S) :
    Matches N Run.resolver (Run.With R) (Patching.look x) (Patching.look y) (Run.With S) := by
  have hrun (x : Resolve α) (r : Run) :
      (Patching.look x).run.run r = ((x.run.run r.resolver).1.mapError Error.ofLookup,
      { r with resolver := (x.run.run r.resolver).2 }) := rfl
  refine ⟨fun r => h.grows r.resolver, fun r r' hr hkeyed hcovered => ?_⟩
  rw [hrun, isOk_mapError] at hcovered
  obtain ⟨hresult, hstate⟩ := h.same _ _ hr.resolver hkeyed hcovered
  rw [hrun, hrun, hresult]
  exact ⟨rfl, hstate, hr.notices⟩

theorem respects_tell (n : Notice) : Respects N Run.resolver (Run.With R) (Patching.tell n) :=
  ⟨fun _ => .refl _, fun _ _ hr _ _ => ⟨rfl, hr.resolver, congrArg (n :: ·) hr.notices⟩⟩

theorem respects_edit (file : ClassFile) (x : Edit α) :
    Respects N Run.resolver (Run.With R) (Patching.edit file x) :=
  .ofMk _

theorem respects_compile (file : ClassFile) (imports : List String) (source : String) :
    Respects N Run.resolver (Run.With (Resolver.Alike N))
    (Patching.compile file (Typed.compile imports source)) := by
  have hcompile : Respects N Typed.Session.resolver (Typed.Session.Alike N)
      (Typed.compile imports source) :=
    Typed.respects_compile imports source
  have hrun (r : Run) : (Patching.compile file (Typed.compile imports source)).run.run r =
      let out := (Typed.compile imports source).run.run ⟨file, r.resolver⟩
      ((out.1.map fun a => (a, out.2.file)).mapError Error.ofTyped,
        { r with resolver := out.2.resolver }) := rfl
  refine ⟨fun r => hcompile.grows ⟨file, r.resolver⟩, fun r r' hr hkeyed hcovered => ?_⟩
  rw [hrun, isOk_mapError, isOk_map] at hcovered
  obtain ⟨hresult, hstate⟩ :=
    hcompile.same ⟨file, r.resolver⟩ ⟨file, r'.resolver⟩ ⟨rfl, hr.resolver⟩ hkeyed hcovered
  rw [hrun, hrun]
  dsimp only
  rw [hresult, hstate.file]
  exact ⟨rfl, hstate.resolver, hr.notices⟩

theorem respects_findTarget (bytes : List UInt8) (spec : Spec) :
    Respects N Run.resolver (Run.With R) (findTarget bytes spec) := by
  unfold findTarget
  refine (Respects.ofMk _).bind fun file => (Respects.ofMk _).bind fun owner => .refusing ?_
  refine (Respects.ofMk _).bind fun found => ?_
  split
  next => exact (Respects.ofMk _).bind fun other => .refusing (.pure _)
  next => exact .throw _

theorem respects_checkReplacement (file : ClassFile) (m : Member) (spec : Spec) :
    Respects N Run.resolver (Run.With R) (checkReplacement file m spec) := by
  unfold checkReplacement
  refine (Respects.ofMk _).bind fun name => (Respects.ofMk _).bind fun descriptor => .refusing ?_
  refine (Respects.ofMk _).bind fun found => .refusing ?_
  split
  next => exact .pure _
  next =>
    refine (Respects.ofMk _).bind fun _ => (Respects.ofMk _).bind fun calls => ?_
    split
    next => exact respects_tell _
    next => exact .pure _

/-- What a patch makes of a class depends on what names mean only. -/
theorem respects_patchClass (bytes : List UInt8) (spec : Spec) :
    Respects N Run.resolver (Run.With (Resolver.Alike N)) (patchClass bytes spec) := by
  unfold patchClass
  refine (respects_findTarget bytes spec).bind fun target => (respects_tell _).bind fun _ => ?_
  refine (respects_edit _ _).bind fun renamed =>
    (matches_look (respects_define _)).bind (fun _ => ?_) fun _ _ => id
  refine (respects_compile _ _ _).bind fun compiled =>
    (respects_checkReplacement _ _ _).bind fun _ => ?_
  exact (respects_edit _ _).bind fun added => (respects_tell _).bind fun _ => .ofMk _

section

variable {lib : Archive.Library} {wrap : Archive.AmendError → Error}
    {wanted : String → StateM Run Bool}
  {change : String → List UInt8 → Patching (List UInt8)} {Q : Run → Run → Prop}

theorem respects_amendEntry
    (hwanted : ∀ name, Respects N Run.resolver Q (ExceptT.lift (wanted name) : Patching Bool))
    (hchange : ∀ name data, Respects N Run.resolver Q (change name data)) (a : Archive)
    (e : Archive.Entry) (writer : lib.Writer) :
    Respects N Run.resolver Q (lib.amendEntry wrap wanted change a e writer) := by
  unfold Archive.Library.amendEntry
  refine (Respects.ofMk _).bind fun raw => ?_
  extract_lets finish
  have hfinish (chosen : Bool) : Respects N Run.resolver Q (finish chosen) := by
    cases chosen with
    | true =>
      exact (Respects.ofMk _).bind fun data =>
        (hchange _ data).bind fun _ => (Respects.ofMk _).bind fun _ => .pure _
    | false => exact (Respects.ofMk _).bind fun _ => .pure _
  split
  next => exact (Respects.pure false).bind hfinish
  next => exact (hwanted e.name).bind hfinish

theorem respects_amend
    (hwanted : ∀ name, Respects N Run.resolver Q (ExceptT.lift (wanted name) : Patching Bool))
    (hchange : ∀ name data, Respects N Run.resolver Q (change name data)) (input : List UInt8) :
    Respects N Run.resolver Q (lib.amend wrap wanted change input) := by
  have hentries (a : Archive) (entries : List Archive.Entry) (writer : lib.Writer) :
      Respects N Run.resolver Q (lib.amendEntries wrap wanted change a entries writer) := by
    induction entries generalizing writer with
    | nil => exact .pure _
    | cons e entries ih =>
      exact (respects_amendEntry hwanted hchange a e writer).bind
        fun _ => (ih _).bind fun _ => .pure _
  unfold Archive.Library.amend
  refine (Respects.ofMk _).bind fun a => (hentries a _ _).bind fun _ => ?_
  exact (Respects.ofMk _).bind fun _ => (Respects.ofMk _).bind fun _ => .pure _

end

theorem matches_openRoots {classpath : List Entry} (h : ∀ e ∈ classpath, e.Same N t t') :
    Matches N Run.resolver (Run.With (Resolver.Opened N)) (openRoots t classpath)
    (openRoots t' classpath) (Run.With (Resolver.Opened N)) := by
  induction classpath with
  | nil => exact Respects.pure _
  | cons e classpath ih =>
    have hopen := h e List.mem_cons_self
    unfold openRoots
    unfold Entry.Same at hopen
    split at hopen
    next root root' heq heq' =>
      rw [heq, heq']
      change Matches N _ _ (Patching.look (pushRoot root) >>= fun _ => openRoots t classpath)
        (Patching.look (pushRoot root') >>= fun _ => openRoots t' classpath) _
      refine (matches_look (matches_pushRoot hopen)).bind (fun _ => ?_) fun _ _ => id
      exact ih fun e he => h e (List.mem_cons_of_mem _ he)
    next f f' heq heq' =>
      rw [heq, heq', hopen]
      exact Matches.ofError (fun _ => rfl) fun _ => rfl
    next => exact hopen.elim

/-- The tree is seen through the classes only that the classpath serves, and, if the patch succeeds,
only through those whose answers it has left in the resolver. -/
theorem transformArchive_same {classpath : List Entry} (h : ∀ e ∈ classpath, e.Same N t t')
    (spec : Spec) (name : String) (bytes : List UInt8)
    (hcovered : ((transformArchive t classpath spec name bytes).run.run {}).2.resolver.Covered N
      ((transformArchive t classpath spec name bytes).run.run {}).1.isOk) :
    ((transformArchive t classpath spec name bytes).run.run {}).1 =
      ((transformArchive t' classpath spec name bytes).run.run {}).1 := by
  have halike : ∀ r r', Run.With (Resolver.Opened N) r r' → Run.With (Resolver.Alike N) r r' :=
    fun _ _ hr => ⟨hr.resolver.alike, hr.notices⟩
  have hmatches : Matches N Run.resolver (Run.With (Resolver.Opened N))
      (transformArchive t classpath spec name bytes) (transformArchive t' classpath spec name bytes)
      (Run.With (Resolver.Alike N)) := by
    unfold transformArchive
    split
    next =>
      exact Matches.bind (respects_tell _) (fun _ => (Respects.pure _).mono halike fun _ _ => id)
        halike
    next =>
      have hopen : Respects N Run.resolver (Run.With (Resolver.Opened N)) (openOwn bytes) :=
        (Respects.ofMk _).bind fun own => matches_look (matches_pushRoot fun _ _ => rfl)
      have hamend : Respects N Run.resolver (Run.With (Resolver.Alike N))
          (Archive.amend .archive (fun entry => return entry == spec.entryName)
            (patchEntry spec) bytes) := by
        refine respects_amend (fun name => ?_) (fun name data => ?_) bytes
        · exact Respects.pure _
        · exact (respects_tell _).bind fun _ => respects_patchClass data spec
      have hfinish : Respects N Run.resolver (Run.With (Resolver.Alike N)) (do
          let out ← Archive.amend .archive (fun entry => return entry == spec.entryName)
            (patchEntry spec) bytes
          if out.changed.isEmpty then throw (.entryNotFound spec.entryName)
          return Transformed.patched out.bytes) :=
        hamend.bind fun out => .refusing (.pure _)
      refine Matches.bind (respects_tell _) (fun _ => Matches.bind hopen (fun _ => ?_) halike)
        halike
      exact (matches_openRoots h).bind (fun _ => hfinish.mono halike fun _ _ => id) halike
  exact (hmatches.same {} {} ⟨⟨.nil, rfl, rfl⟩, rfl⟩ (keyed_of_fresh rfl) hcovered).1

end Patch

end MethodGraft
