import MethodGraft.Proofs.Archive.Restoring
import MethodGraft.Proofs.Archive.Standard

/-!
# Proofs.Archive.Amend — what an amended archive keeps

Entries go over one by one, either as they are or with new contents, so that the new directory has
one record for each record of the old one.  The library reads these records back, and then the
attributes are restored record by record: every entry has kept its name, place, method, time and
attributes, and either its compressed bytes or exactly the new contents.
-/

namespace MethodGraft.Archive

/-! ## 1. Items -/

section

variable {ε : Type} (lib : Library) (wanted : String → Bool)
    (change : String → List UInt8 → Except ε (List UInt8))

/-- True if the contents of an entry go through the change: it is wanted, and no directory. -/
def chosen (e : Entry) : Bool := !e.isDirectory && wanted e.name

/-- What is written for an entry of an archive. -/
inductive ItemOf (a : Archive) (e : Entry) : Item → Prop where
  | copied {raw : List UInt8} (skipped : chosen wanted e = false) (held : lib.raw a e = .ok raw) :
      ItemOf a e (.copied e raw)
  | changed {data new : List UInt8} (taken : chosen wanted e = true)
      (held : lib.content a e = .ok data)
      (made : change e.name data = .ok new) : ItemOf a e (.added e.name (e.options new) new)

variable {lib wanted change} {m : Type → Type} [Monad m] [LawfulMonad m] {wrap : AmendError → ε}

theorem liftError_ok_bind {α β : Type} (x : α) (f : α → ExceptT ε m β) :
    (liftError wrap (.ok x) >>= f) = f x :=
  pure_bind x f

theorem answer_ok_bind {α β : Type} {r : Except Error α} {x : α} (h : r = .ok x)
    (f : α → ExceptT ε m β) : (answer wrap r >>= f) = f x := by
  rw [h]
  exact liftError_ok_bind x f

theorem lift_pure_bind {α β : Type} (x : α) (f : α → ExceptT ε m β) :
    (ExceptT.lift (pure x) >>= f) = f x := by
  rw [show ExceptT.lift (pure x) = (pure x : ExceptT ε m α) from
    ExceptT.ext (map_pure _ x), pure_bind]

/-- Whether an entry is taken apart is asked for its name only if it is no directory. -/
theorem chosen_bind {α : Type} (e : Entry) (f : Bool → ExceptT ε m α) :
    (if e.isDirectory then pure false >>= f else ExceptT.lift (pure (wanted e.name)) >>= f) =
    f (chosen wanted e) := by
  unfold chosen
  cases e.isDirectory
  · exact lift_pure_bind _ f
  · exact pure_bind _ f

theorem ItemOf.found {a : Archive} {e : Entry} {item : Item} (hlawful : lib.Lawful)
    (h : ItemOf lib wanted change a e item) : ∃ raw, lib.raw a e = .ok raw := by
  cases h with
  | copied _ held => exact ⟨_, held⟩
  | changed _ held => exact hlawful.found held

theorem amendEntry_eq (hlawful : lib.Lawful) {a : Archive} {e : Entry} {item : Item}
    (h : ItemOf lib wanted change a e item) {writer writer' : lib.Writer}
    (hput : lib.put writer item = .ok writer') :
    lib.amendEntry wrap (fun name => pure (wanted name))
    (fun name data => ExceptT.mk (pure (change name data))) a e
      writer = (pure (writer', chosen wanted e) : ExceptT ε m (lib.Writer × Bool)) := by
  obtain ⟨raw, hraw⟩ := h.found hlawful
  unfold Library.amendEntry
  rw [answer_ok_bind hraw]
  dsimp only
  rw [chosen_bind]
  cases h with
  | copied skipped held =>
    cases hraw.symm.trans held
    rw [skipped]
    exact answer_ok_bind hput _
  | changed taken held made =>
    rw [taken, if_pos rfl, answer_ok_bind held, made]
    exact (pure_bind _ _).trans (answer_ok_bind hput _)

/-- Entries are written in order, and the names that are reported are those of the entries whose
contents went through the change. -/
theorem amendEntries_eq (hlawful : lib.Lawful) {a : Archive} {entries : List Entry}
    {items : List Item} (h : List.Forall₂ (ItemOf lib wanted change a) entries items)
    {writer writer' : lib.Writer} (hput : items.foldlM lib.put writer = .ok writer') :
    lib.amendEntries wrap (fun name => pure (wanted name))
    (fun name data => ExceptT.mk (pure (change name data))) a entries writer =
        (pure (writer', (entries.filter (chosen wanted)).map Entry.name) :
          ExceptT ε m (lib.Writer × List String)) := by
  induction h generalizing writer with
  | nil =>
    cases hput
    rfl
  | @cons e item entries items hitem _ ih =>
    rw [List.foldlM_cons] at hput
    obtain ⟨next, hnext, hput⟩ := bind_eq_ok_iff.mp hput
    unfold Library.amendEntries
    rw [amendEntry_eq hlawful hitem hnext, pure_bind]
    dsimp only
    rw [ih hput, pure_bind]
    cases hchosen : chosen wanted e with
    | false => rw [List.filter_cons_of_neg (by rw [hchosen]; decide), if_neg (by decide)]
    | true => rw [List.filter_cons_of_pos hchosen, if_pos rfl, List.map_cons]

/-- Amending succeeds where every entry has its item, the library writes the items and the
attributes can be restored. -/
theorem amend_eq (hlawful : lib.Lawful) {input bytes restored : List UInt8} {a : Archive}
    {items : List Item} (ha : lib.read input = .ok a)
    (h : List.Forall₂ (ItemOf lib wanted change a) a.entries items)
    (hwrite : lib.write items a.comment = .ok bytes)
    (hrestore : lib.restoreAttributes input a bytes = .ok restored) :
    lib.amend wrap (fun name => pure (wanted name))
    (fun name data => ExceptT.mk (pure (change name data))) input =
      (pure ⟨restored, (a.entries.filter (chosen wanted)).map Entry.name⟩ :
        ExceptT ε m Amended) := by
  obtain ⟨writer, hput, hfinish⟩ := bind_eq_ok_iff.mp hwrite
  unfold Library.amend
  rw [answer_ok_bind ha, amendEntries_eq hlawful h hput, pure_bind]
  dsimp only
  rw [answer_ok_bind hfinish, hrestore]
  exact liftError_ok_bind _ _

end

/-! ## 2. Restored archives -/

section

variable {lib : Library} {input bytes : List UInt8} {a b : Archive}

/-- If the archives have as many entries, the new one ends up with the host systems and attributes
of the old one, and keeps all other bytes. -/
theorem exists_restoreAttributes (hlawful : lib.Lawful) (ha : lib.read input = .ok a)
    (hb : lib.read bytes = .ok b) (hfound : ∀ e ∈ a.entries, ∃ raw, lib.raw a e = .ok raw)
    (hfound' : ∀ e ∈ b.entries, ∃ raw, lib.raw b e = .ok raw)
    (hlength : b.entries.length = a.entries.length) :
    ∃ restored, lib.restoreAttributes input a bytes = .ok restored ∧
      SameOff (attributePlaces (b.entries.map Entry.centralStart)) bytes restored ∧
      List.Forall₂ (HasAttributes input restored) (b.entries.map Entry.centralStart) a.entries := by
  have hforM {entries : List Entry} (h : ∀ e ∈ entries, ∃ raw, lib.raw b e = .ok raw) :
      entries.forM (fun e => ((lib.raw b e).mapError AmendError.archive).map fun _ => ()) =
        .ok () := by
    induction entries with
    | nil => rfl
    | cons e entries ih =>
      obtain ⟨⟨raw, hraw⟩, h⟩ := List.forall_mem_cons.mp h
      unfold List.forM
      rw [hraw]
      exact ih h
  have hrestorable : List.Forall₂ (Restorable lib input a bytes.length)
      (b.entries.map Entry.centralStart) a.entries := by
    refine List.forall₂_map_left_iff.mpr (List.forall₂_iff_get.mpr ⟨hlength, fun i hi hi' => ?_⟩)
    have he := List.get_mem a.entries ⟨i, hi'⟩
    exact ⟨hfound _ he, (hlawful.described ha _ he).within,
      (hlawful.described hb _ (List.get_mem _ _)).within⟩
  obtain ⟨restored, hrun, hsame, hall⟩ :=
    exists_restored hrestorable (List.pairwise_map.mpr (hlawful.apart hb)) 0 rfl
  refine ⟨restored, ?_, hsame, hall⟩
  unfold Library.restoreAttributes
  rw [hb]
  refine bind_eq_ok_iff.mpr ⟨b, rfl, bind_eq_ok_iff.mpr ⟨(), hforM hfound', ?_⟩⟩
  rw [if_neg (not_not_intro hlength)]
  exact hrun

end

/-! ## 3. What is kept -/

structure Kept (e e' : Entry) : Prop where
  name : e'.name = e.name
  madeBy : e'.madeBy = e.madeBy
  method : e'.method = e.method
  time : e'.time = e.time
  date : e'.date = e.date
  internalAttributes : e'.internalAttributes = e.internalAttributes
  externalAttributes : e'.externalAttributes = e.externalAttributes

section

variable {ε : Type} (lib : Library) (wanted : String → Bool)
    (change : String → List UInt8 → Except ε (List UInt8))

structure Copied (a b : Archive) (e e' : Entry) : Prop where
  raw : ∃ raw, lib.raw a e = .ok raw ∧ lib.raw b e' = .ok raw
  crc : e'.crc = e.crc
  compressedSize : e'.compressedSize = e.compressedSize
  size : e'.size = e.size

/-- The contents of an entry of one archive are in another one after they went through the
change. -/
def Changed (a b : Archive) (e e' : Entry) : Prop :=
  ∃ data new, lib.content a e = .ok data ∧ change e.name data = .ok new ∧ lib.content b e' = .ok new

/-- What became of an entry. -/
structure Carried (a b : Archive) (e e' : Entry) : Prop where
  kept : Kept e e'
  copied : chosen wanted e = false → Copied lib a b e e'
  changed : chosen wanted e = true → Changed lib change a b e e'

/-- What is copied has its local header and as many bytes as its record counts. -/
def Whole (a : Archive) : Prop :=
  ∀ e ∈ a.entries, chosen wanted e = false →
    ∃ raw, lib.raw a e = .ok raw ∧ raw.length = e.compressedSize.toNat

/-- What is to be changed can be taken out, and the change succeeds on it. -/
def Changeable (a : Archive) : Prop :=
  ∀ e ∈ a.entries, chosen wanted e = true →
    ∃ data new, lib.content a e = .ok data ∧ change e.name data = .ok new

variable {lib wanted change} {a b : Archive}

theorem carried_of_item {input bytes : List UInt8} {e e' : Entry} {item : Item}
    (hitem : ItemOf lib wanted change a e item) (hholds : lib.Holds b item e')
    (he : DescribedAt input e) (he' : DescribedAt bytes e')
    (hattributes : HasAttributes input bytes e'.centralStart e) :
    Carried lib wanted change a b e e' := by
  have hmadeBy := hattributes.madeBy he he'
  have hinternal := hattributes.internalAttributes he he'
  have hexternal := hattributes.externalAttributes he he'
  cases hitem with
  | copied skipped held =>
    cases hholds with
    | copied name method time date crc compressedSize size held' =>
      exact {
        kept := ⟨name, hmadeBy, method, time, date, hinternal, hexternal⟩
        copied := fun _ => ⟨⟨_, held, held'⟩, crc, compressedSize, size⟩
        changed := fun taken => absurd (skipped.symm.trans taken) Bool.false_ne_true }
  | changed taken held made =>
    generalize hname : e.name = name at hholds
    cases hholds with
    | added method time date _ held' =>
      exact {
        kept := ⟨hname.symm, hmadeBy, method, time, date, hinternal, hexternal⟩
        copied := fun skipped => absurd (skipped.symm.trans taken) Bool.false_ne_true
        changed := fun _ => ⟨_, _, held, made, held'⟩ }

/-- For an entry there is one item only. -/
theorem rightUnique_itemOf : Relator.RightUnique (ItemOf lib wanted change a) := by
  intro e item item' h h'
  cases h with
  | copied skipped held =>
    cases h' with
    | copied skipped' held' =>
      cases held.symm.trans held'
      rfl
    | changed taken => cases skipped.symm.trans taken
  | changed taken held made =>
    cases h' with
    | copied skipped => cases skipped.symm.trans taken
    | changed taken' held' made' =>
      cases held.symm.trans held'
      cases made.symm.trans made'
      rfl

theorem exists_items (hwhole : Whole lib wanted a) (hchange : Changeable lib wanted change a)
    (hmethods : ∀ e ∈ a.entries, e.method.IsKnown) :
    ∃ items, List.Forall₂ (ItemOf lib wanted change a) a.entries items ∧
    ∀ item ∈ items, item.Proper := by
  have hitem (e : Entry) (he : e ∈ a.entries) :
      ∃ item, ItemOf lib wanted change a e item ∧ item.Proper := by
    cases htaken : chosen wanted e with
    | false =>
      obtain ⟨raw, hraw, hlength⟩ := hwhole e he htaken
      exact ⟨_, .copied htaken hraw, hmethods e he, hlength⟩
    | true =>
      obtain ⟨data, new, hdata, hnew⟩ := hchange e he htaken
      exact ⟨_, .changed htaken hdata hnew, hmethods e he⟩
  -- the entries are gone through one by one; that they are those of `a` does not matter
  generalize a.entries = entries at hitem ⊢
  induction entries with
  | nil => exact ⟨[], .nil, List.forall_mem_nil _⟩
  | cons e entries ih =>
    obtain ⟨item, hitem', hproper⟩ := hitem e List.mem_cons_self
    obtain ⟨items, hitems, hpropers⟩ := ih fun e he => hitem e (List.mem_cons_of_mem _ he)
    exact ⟨item :: items, .cons hitem' hitems, List.forall_mem_cons.mpr ⟨hproper, hpropers⟩⟩

end

/-! ## 4. Amended archives -/

/-- A directory that was made on another system, a compressed file and a file as it is. -/
def sampleEntry : Entry where
  name := "lib/"
  madeBy := 20
  encrypted := false
  method := .stored
  time := 0
  date := 33
  crc := 0
  compressedSize := 0
  size := 0
  internalAttributes := 0
  externalAttributes := 16
  comment := []
  headerStart := 0
  centralStart := 0

def sampleParts : List Part :=
  [⟨sampleEntry, []⟩, .ofFile "lib/a" ⟨.deflated, 0, 33, none, false⟩ [1, 2],
    (Part.ofFile "b" ⟨.stored, 0, 33, none, false⟩ [3]).withAttributes 20 1 32]

def sample : Archive :=
  ⟨assemble sampleParts [7], entriesAt 0 (sampleParts.flatMap Part.localRecord).length sampleParts,
    [7]⟩

/-- A file that has compressed contents of two hundred bytes, if one believes its record. -/
def longPart : Part := ⟨{ sampleEntry with name := "f", compressedSize := 200 }, []⟩

def headless : List UInt8 :=
  let central := Part.centralRecord ⟨{ sampleEntry with name := "f" }, []⟩ 0
  central ++ endSignature ++ le16 0 ++ le16 0 ++ le16 1 ++ le16 1 ++
    le32 (UInt32.ofNat central.length) ++ le32 0 ++ le16 0

end MethodGraft.Archive
