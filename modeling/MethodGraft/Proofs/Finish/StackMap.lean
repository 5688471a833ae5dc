import MethodGraft.Proofs.Finish.Frames
import MethodGraft.Proofs.Verify.StackMap

/-!
# Proofs.Finish.StackMap — stack maps as they are written

The stack map of a complete body can be written, unless the constant pool has no room for the
classes in it, and is read back with the kinds that its frames have.
-/

namespace MethodGraft.Code

open ClassFile Verify Interning

variable {p : ConstantPool}

/-! ## 1. Types -/

abbrev Lasting (p : ConstantPool) (P : ConstantPool → Prop) (q : ConstantPool) : Prop :=
  p ≤ q ∧ q.WellFormed ∧ ∀ r, q ≤ r → P r

theorem meets_encode (t : VerificationType) (hp : p.WellFormed) :
    Meets t.encode p fun bytes q => Lasting p (fun r => ∀ rest,
      readKind r (bytes ++ rest) = some (t.kind?, rest)) q := by
  cases t with
  | object name =>
    refine .bind ((meets_classRef name hp).mono ?_)
    rintro i q ⟨hle, hq, hname⟩
    refine .ofPure ⟨hle, hq, fun r hr rest => ?_⟩
    show (r.class? (ofBe16 (i >>> 8).toUInt8 i.toUInt8)).map _ = _
    rw [ofBe16_be16, ConstantPool.class?_eq_some_iff.mpr (ConstantPool.className_mono hr hname)]
    rfl
  | _ => exact .ofPure ⟨le_rfl, hp, fun _ _ _ => rfl⟩

theorem meets_mapM_encode (ts : List VerificationType) (hp : p.WellFormed) :
    Meets (ts.mapM VerificationType.encode) p fun entries q => Lasting p (fun r => ∀ rest,
      readKinds r ts.length (entries.flatten ++ rest) = some (kindsOf ts, rest)) q := by
  induction ts generalizing p with
  | nil =>
    rw [List.mapM_nil]
    exact .ofPure ⟨le_rfl, hp, fun _ _ _ => rfl⟩
  | cons t ts ih =>
    rw [List.mapM_cons]
    refine .bind ((meets_encode t hp).mono ?_)
    rintro bytes q ⟨hle, hq, ht⟩
    refine .bind ((ih hq).mono ?_)
    rintro entries r ⟨hle', hr, hts⟩
    refine .ofPure ⟨hle.trans hle', hr, fun s hs rest => ?_⟩
    rw [List.flatten_cons, List.append_assoc, List.length_cons, readKinds, ht s (hle'.trans hs)]
    show (readKinds s ts.length (entries.flatten ++ rest)).bind _ = _
    rw [hts s hs]
    rfl

theorem toNat_ofNat {n : Nat} (h : n ≤ 65535) : (UInt16.ofNat n).toNat = n :=
  UInt16.toNat_ofNat_of_lt (Nat.lt_succ_of_le h)

theorem fits_encodeCount {table : ClassFile.Table} {n : Nat} (h : n ≤ 65535) :
    Fits (encodeCount table n) fun bytes => bytes = be16 (UInt16.ofNat n) := by
  unfold encodeCount
  rw [if_pos h]
  rfl

theorem meets_encodeTypes {ts : List VerificationType} (hp : p.WellFormed)
    (hts : ts.length ≤ 65535) : Meets (encodeTypes ts) p fun bytes q => Lasting p (fun r => ∀ rest,
      readCounted r (bytes ++ rest) = some (kindsOf ts, rest)) q := by
  refine .bind (.ofExcept ((fits_encodeCount hts).mono ?_))
  rintro _ rfl
  refine .bind ((meets_mapM_encode ts hp).mono ?_)
  rintro entries q ⟨hle, hq, hentries⟩
  refine .ofPure ⟨hle, hq, fun r hr rest => ?_⟩
  rw [List.append_assoc]
  show readKinds r (ofBe16 _ _).toNat (entries.flatten ++ rest) = _
  rw [ofBe16_be16, toNat_ofNat hts]
  exact hentries r hr rest

/-! ## 2. Frames -/

def Frame.kinds (f : Frame) : KindFrame where
  locals := slotsOf (kindsOf (localEntries f.locals.toList))
  stack := (kindsOf f.stack).filterMap id

def Frame.Filled (f : Frame) : Prop := ∃ ks : List ValueKind, kindsOf f.stack = ks.map some

theorem length_localEntries_le : ∀ ts : List VerificationType, (localEntries ts).length ≤ ts.length
  | [] => Nat.le_refl _
  | [_] => Nat.le_refl _
  | t :: u :: rest => by
    have h := length_localEntries_le (u :: rest)
    have h' := length_localEntries_le rest
    rw [localEntries]
    split <;> simp only [List.length_cons] at h h' ⊢ <;> omega

theorem mapM_id_map_some (ks : List ValueKind) : (ks.map some).mapM id = some ks := by
  induction ks with
  | nil => rfl
  | cons k ks ih =>
    rw [List.map_cons, List.mapM_cons, ih]
    rfl

def Precedes (previous : Option Nat) (position : Nat) : Prop :=
  ∀ p, previous = some p → p < position

theorem meets_encodeFrame {previous : Option Nat} {position : Nat} {f : Frame} (hp : p.WellFormed)
    (hfollows : Precedes previous position) (hposition : position ≤ 65535)
    (hlocals : (localEntries f.locals.toList).length ≤ 65535) (hstack : f.stack.length ≤ 65535) :
    Meets (encodeFrame previous position f) p fun bytes q => Lasting p (fun r => f.Filled → ∀ rest,
      ∃ delta, readFrame r (bytes ++ rest) = some ((delta, f.kinds), rest) ∧
        Verify.position previous delta = position) q := by
  unfold encodeFrame
  extract_lets delta
  refine .bind ((meets_encodeTypes hp hlocals).mono ?_)
  rintro locals q ⟨hle, hq, hreadLocals⟩
  refine .bind ((meets_encodeTypes hq (by rwa [List.length_reverse])).mono ?_)
  rintro stack q' ⟨hle', hq', hreadStack⟩
  refine .ofPure ⟨hle.trans hle', hq', fun r hr hfilled rest => ⟨delta, ?_, ?_⟩⟩
  · obtain ⟨ks, hks⟩ := hfilled
    have hdelta : delta ≤ 65535 := by
      simp only [delta]
      split <;> omega
    -- the stack is written from its bottom, and read from there
    have hkinds : (kindsOf f.stack.reverse).reverse.mapM id = some ks := by
      rw [kindsOf, List.map_reverse, List.reverse_reverse]
      show (kindsOf f.stack).mapM id = some ks
      rw [hks, mapM_id_map_some]
    have hframe : f.kinds = ⟨slotsOf (kindsOf (localEntries f.locals.toList)), ks⟩ := by
      rw [Frame.kinds, hks, List.filterMap_map]
      simp
    rw [List.cons_append, List.append_assoc, List.append_assoc]
    show (readCounted r (locals ++ (stack ++ rest))).bind _ = _
    rw [hreadLocals r (hle'.trans hr)]
    show (readCounted r (stack ++ rest)).bind _ = _
    rw [hreadStack r hr]
    show ((kindsOf f.stack.reverse).reverse.mapM id).bind _ = _
    rw [hkinds, hframe]
    show some
      (((ofBe16 (UInt16.ofNat delta >>> 8).toUInt8 (UInt16.ofNat delta).toUInt8).toNat, _), rest) =
      _
    rw [ofBe16_be16, toNat_ofNat hdelta]
  · simp only [delta]
    cases previous with
    | none => rfl
    | some p =>
      -- the distance is counted from behind the frame before
      have := hfollows p rfl
      show p + (position - p - 1) + 1 = position
      omega

structure Writable (fs : List (Nat × Frame)) : Prop where
  sorted : fs.Pairwise fun f g => f.1 < g.1
  small : ∀ e ∈ fs, e.1 ≤ 65535 ∧ (localEntries e.2.locals.toList).length ≤ 65535 ∧
    e.2.stack.length ≤ 65535

def tableOf (fs : List (Nat × Frame)) : Verify.Table := fs.map fun e => (e.1, e.2.kinds)

theorem meets_encodeFrames {fs : List (Nat × Frame)} {previous : Option Nat} (hp : p.WellFormed)
    (hfs : Writable fs) (hfollows : ∀ e ∈ fs, Precedes previous e.1) :
    Meets (encodeFrames previous fs) p fun bytes q => Lasting p (fun r => (∀ e ∈ fs, e.2.Filled) →
      readFrames r fs.length previous bytes = some (tableOf fs)) q := by
  induction fs generalizing p previous with
  | nil => exact .ofPure ⟨le_rfl, hp, fun _ _ _ => rfl⟩
  | cons e fs ih =>
    obtain ⟨position, f⟩ := e
    obtain ⟨hlater, hsorted⟩ := List.pairwise_cons.mp hfs.sorted
    obtain ⟨hposition, hlocals, hstack⟩ := hfs.small (position, f) List.mem_cons_self
    refine .bind
      ((meets_encodeFrame hp (hfollows _ List.mem_cons_self) hposition hlocals hstack).mono ?_)
    rintro bytes q ⟨hle, hq, hframe⟩
    have hfollowing : ∀ e ∈ fs, Precedes (some position) e.1 := by
      rintro e he _ ⟨⟩
      exact hlater e he
    refine .bind ((ih hq ⟨hsorted, fun e he => hfs.small e (List.mem_cons_of_mem _ he)⟩
      hfollowing).mono ?_)
    rintro more q' ⟨hle', hq', hframes⟩
    refine .ofPure ⟨hle.trans hle', hq', fun r hr hfilled => ?_⟩
    obtain ⟨delta, hread, hdelta⟩ := hframe r (hle'.trans hr) (hfilled _ List.mem_cons_self) more
    have hrest := hframes r hr fun e he => hfilled e (List.mem_cons_of_mem _ he)
    rw [List.length_cons, readFrames, hread]
    show (readFrames r fs.length (some (Verify.position previous delta)) more).bind _ = _
    rw [hdelta, hrest]
    rfl

/-! ## 3. The attribute -/

theorem meets_stackMap {fs : List (Nat × Frame)} (hp : p.WellFormed) (hfs : Writable fs)
    (hlength : fs.length ≤ 65535) :
    Meets (stackMap fs) p fun attributes q => Lasting p (fun r =>
      (∀ x ∈ attributes, ∃ n info, x = .raw n info ∧ r.utf8 n = .ok "StackMapTable") ∧
        ((∀ e ∈ fs, e.2.Filled) → stackMap? r attributes = some (tableOf fs))) q := by
  unfold stackMap
  cases fs with
  | nil => exact .ofPure ⟨le_rfl, hp, fun _ _ => ⟨by simp, fun _ => rfl⟩⟩
  | cons e fs =>
    refine .bind (.ofExcept ((fits_encodeCount hlength).mono ?_))
    rintro _ rfl
    refine .bind ((meets_encodeFrames hp hfs fun _ _ _ h => by cases h).mono ?_)
    rintro bytes q ⟨hle, hq, hframes⟩
    refine .bind ((meets_utf8 "StackMapTable" hq).mono ?_)
    rintro n q' ⟨hle', hq', hname⟩
    refine .ofPure ⟨hle.trans hle', hq', fun r hr => ⟨fun x hx => ?_, fun hfilled => ?_⟩⟩
    · exact ⟨n, _, List.mem_singleton.mp hx, ConstantPool.utf8_mono hr hname⟩
    · have hmaps (info : List UInt8) : stackMaps r [.raw n info] = [info] := by
        simp only [stackMaps, List.filterMap_cons, ConstantPool.utf8_mono hr hname,
          List.filterMap_nil]
      unfold stackMap?
      rw [hmaps]
      show readFrames r (ofBe16 _ _).toNat none bytes = _
      rw [ofBe16_be16, toNat_ofNat hlength]
      exact hframes r (hle'.trans hr) hfilled

end MethodGraft.Code
