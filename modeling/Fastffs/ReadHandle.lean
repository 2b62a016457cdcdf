import Fastffs.FreeWindow
import Fastffs.Roots
import Fastffs.Lib.Links

/-!
# Read handles

`fffs_read` and `fffs_seek` change nothing but their handle.  A handle stands at an
extent of its file; the record of an extent says which sector is next.  This module says
what each step of the two calls does to the handle, on any device, and follows the
links of a file.

A call that seeks always returns.  `fffs_read` counts bytes, not extents: it
returns exactly when no ring of empty extents comes before the bytes it has to deliver
(`read_returns`).
-/

namespace Fastffs

open Prog
open Nor (Mem Byte blank)

/-! ## Programs that return -/

/-- The program comes to an end. -/
class Returns {α : Type} (x : M α) : Prop where
  returns : ∀ w, (x.run w).1 ≠ .error .diverges

section Rules

variable {α β : Type} {x y : M α} {f : α → M β}

instance (a : α) : Returns (pure a : M α) := ⟨fun _ => nofun⟩

instance : Returns getFs := ⟨fun _ => nofun⟩

instance (h : Nat) : Returns (getFile h) := ⟨fun _ => nofun⟩

instance : Returns (Prog.get : M World) := ⟨fun _ => nofun⟩

instance (h : Nat) (g : File → File) : Returns (modifyFile h g) := ⟨fun _ => nofun⟩

theorem returns_throw {e : Status} (he : e ≠ .diverges) : Returns (throw e : M α) :=
  ⟨fun _ heq => he (Except.error.inj heq)⟩

instance : Returns (throw .corrupt : M α) := returns_throw nofun

instance : Returns (throw .invalid : M α) := returns_throw nofun

instance : Returns (throw .notFound : M α) := returns_throw nofun

instance : Returns (throw .range : M α) := returns_throw nofun

instance (m : MdSlotMatch) : Returns (throw m.missing : M α) := by
  cases m
  · exact returns_throw nofun
  · exact returns_throw nofun

/-- The rule for a sequence. -/
instance Returns.bind [hx : Returns x] [k : ∀ a, Returns (f a)] : Returns (x >>= f) where
  returns w h := by
    have hrun : (x >>= f).run w = (.error .diverges, ((x >>= f).run w).2) := Prod.ext h rfl
    rcases bind_error hrun with hfirst | ⟨a, w1, -, hrest⟩
    · exact hx.returns w (congrArg Prod.fst hfirst)
    · exact (k a).returns w1 (congrArg Prod.fst hrest)

instance {c : Prop} [Decidable c] [hx : Returns x] [hy : Returns y] : Returns (if c then x else y) := by
  split
  · exact hx
  · exact hy

end Rules

instance (off n : Nat) : Returns (flashRead off n) where
  returns w h := by
    simp only [flashRead] at h
    split at h
    · cases h
    · cases h

instance (reader : SectorReader) (sector off n : Nat) :
    Returns (sectorReaderView reader sector off n) := by
  unfold sectorReaderView; infer_instance

instance (reader : SectorReader) (sector : Nat) : Returns (readSectorFooter reader sector) := by
  unfold readSectorFooter; infer_instance

instance (reader : SectorReader) (sector cursor : Nat) :
    Returns (decodeFileMdRecord reader sector cursor) := by
  unfold decodeFileMdRecord; infer_instance

instance (reader : SectorReader) (sector : Nat) : Returns (mdWalkInit reader sector) := by
  unfold mdWalkInit; infer_instance

instance (reader : SectorReader) (walk : MdWalk) : Returns (mdWalkNext reader walk) := by
  unfold mdWalkNext; infer_instance

instance (slot : Nat) (m : MdSlotMatch) (fuel : Nat) (reader : SectorReader) (walk : MdWalk) :
    Returns (readMdForSlotLoop slot m fuel reader walk) := by
  induction fuel generalizing reader walk with
  | zero => unfold readMdForSlotLoop; infer_instance
  | succ fuel ih => unfold readMdForSlotLoop; infer_instance

instance (sector slot : Nat) (m : MdSlotMatch) : Returns (readMdForSlotBy sector slot m) := by
  unfold readMdForSlotBy; infer_instance

instance (sector slot : Nat) : Returns (readMdForSlot sector slot) := by
  unfold readMdForSlot; infer_instance

instance (sector slot : Nat) : Returns (readFileRootMd sector slot) := by
  unfold readFileRootMd; infer_instance

instance (sector : Nat) (r : MdRecord) (useCache : Bool) : Returns (readRootPrefix sector r useCache) := by
  unfold readRootPrefix; infer_instance

instance (sector slot : Nat) (useCache : Bool) : Returns (readFileRootMdPrefix sector slot useCache) := by
  unfold readFileRootMdPrefix; infer_instance

/-! ## Programs on a device that works -/

/-- No call of the plan fails. -/
def noFault (plan : List Fault) : Prop := ∀ x ∈ plan, x = .pass

theorem noFault_nil : noFault [] := nofun

theorem noFault_nextPlan {plan : List Fault} (h : noFault plan) : noFault (Device.nextPlan plan) := by
  cases plan with
  | nil => exact noFault_nil
  | cons x rest =>
    cases h x List.mem_cons_self
    exact fun y hy => h y (List.mem_cons_of_mem _ hy)

/-- Where no call fails the program does what it does without a plan. -/
class Steady {α : Type} (x : M α) : Prop where
  steady : ∀ w, noFault w.dev.plan → ∃ plan, noFault plan ∧
    x.run w = ((x.run (w.withPlan [])).1, (x.run (w.withPlan [])).2.withPlan plan)
  quiet : ∀ w, w.dev.plan = [] → (x.run w).2.dev.plan = []

section SteadyRules

variable {α β : Type} {x y : M α} {f : α → M β}

instance (a : α) : Steady (pure a : M α) := ⟨fun w h0 => ⟨w.dev.plan, h0, rfl⟩, fun _ h0 => h0⟩

instance (e : Status) : Steady (throw e : M α) := ⟨fun w h0 => ⟨w.dev.plan, h0, rfl⟩, fun _ h0 => h0⟩

instance : Steady getFs := ⟨fun w h0 => ⟨w.dev.plan, h0, rfl⟩, fun _ h0 => h0⟩

/-- The rule for a sequence. -/
instance Steady.bind [hx : Steady x] [k : ∀ a, Steady (f a)] : Steady (x >>= f) where
  steady w h0 := by
    obtain ⟨plan, hplan, hrun⟩ := hx.steady w h0
    have hempty := hx.quiet (w.withPlan []) rfl
    rcases hquiet : x.run (w.withPlan []) with ⟨res, v⟩
    rw [hquiet] at hrun hempty
    cases res with
    | error e =>
      refine ⟨plan, hplan, ?_⟩
      rw [bind_of_error hrun, bind_of_error hquiet]
    | ok a =>
      obtain ⟨plan', hplan', hrest⟩ := (k a).steady (v.withPlan plan) hplan
      refine ⟨plan', hplan', ?_⟩
      rw [bind_of_ok hrun, bind_of_ok hquiet, hrest, World.withPlan_withPlan, World.withPlan_nil hempty]
  quiet w h0 := by
    have hempty := hx.quiet w h0
    rcases hrun : x.run w with ⟨res, v⟩
    rw [hrun] at hempty
    cases res with
    | error e =>
      rw [bind_of_error hrun]
      exact hempty
    | ok a =>
      rw [bind_of_ok hrun]
      exact (k a).quiet v hempty

instance {c : Prop} [Decidable c] [hx : Steady x] [hy : Steady y] : Steady (if c then x else y) := by
  split
  · exact hx
  · exact hy

end SteadyRules

/-- A read that no fault meets. -/
theorem flashRead_noFault {w : World} (h : noFault w.dev.plan) (off n : Nat) :
    (flashRead off n).run w =
      (if off + n ≤ w.dev.size then .ok (Nor.read w.dev.mem off n) else .error .io,
        w.withPlan (Device.nextPlan w.dev.plan)) := by
  obtain ⟨⟨m, g, plan⟩, fs, files, trace⟩ := w
  by_cases hle : off + n ≤ m.size
  · cases plan with
    | nil =>
      simp only [flashRead, Device.read, if_pos hle]
      exact Prod.ext (if_pos hle).symm rfl
    | cons x rest =>
      cases h x List.mem_cons_self
      simp only [flashRead, Device.read, if_pos hle]
      exact Prod.ext (if_pos hle).symm rfl
  · cases plan with
    | nil =>
      simp only [flashRead, Device.read, if_neg hle]
      exact Prod.ext (if_neg hle).symm rfl
    | cons x rest =>
      cases h x List.mem_cons_self
      simp only [flashRead, Device.read, if_neg hle]
      exact Prod.ext (if_neg hle).symm rfl

instance (off n : Nat) : Steady (flashRead off n) where
  steady w h0 := by
    refine ⟨_, noFault_nextPlan h0, ?_⟩
    rw [flashRead_noFault h0, flashRead_noFault noFault_nil]
    rfl
  quiet w h0 := by
    rw [flashRead_noFault (h0 ▸ noFault_nil), h0]
    rfl

instance (reader : SectorReader) (sector off n : Nat) :
    Steady (sectorReaderView reader sector off n) := by
  unfold sectorReaderView; infer_instance

instance (reader : SectorReader) (sector : Nat) : Steady (readSectorFooter reader sector) := by
  unfold readSectorFooter; infer_instance

instance (reader : SectorReader) (sector cursor : Nat) :
    Steady (decodeFileMdRecord reader sector cursor) := by
  unfold decodeFileMdRecord; infer_instance

instance (reader : SectorReader) (sector : Nat) : Steady (mdWalkInit reader sector) := by
  unfold mdWalkInit; infer_instance

instance (reader : SectorReader) (walk : MdWalk) : Steady (mdWalkNext reader walk) := by
  unfold mdWalkNext; infer_instance

instance (slot : Nat) (m : MdSlotMatch) (fuel : Nat) (reader : SectorReader) (walk : MdWalk) :
    Steady (readMdForSlotLoop slot m fuel reader walk) := by
  induction fuel generalizing reader walk with
  | zero => unfold readMdForSlotLoop; infer_instance
  | succ fuel ih => unfold readMdForSlotLoop; infer_instance

instance (sector slot : Nat) (m : MdSlotMatch) : Steady (readMdForSlotBy sector slot m) := by
  unfold readMdForSlotBy; infer_instance

instance (sector slot : Nat) : Steady (readMdForSlot sector slot) := by
  unfold readMdForSlot; infer_instance

instance (sector slot : Nat) : Steady (readFileRootMd sector slot) := by
  unfold readFileRootMd; infer_instance

instance (sector : Nat) (r : MdRecord) (useCache : Bool) : Steady (readRootPrefix sector r useCache) := by
  unfold readRootPrefix; infer_instance

instance (sector slot : Nat) (useCache : Bool) : Steady (readFileRootMdPrefix sector slot useCache) := by
  unfold readFileRootMdPrefix; infer_instance

/-! ## Walks end -/

/-- The walk that looks for a slot ends by itself: more rounds than its cursor has bytes change nothing. -/
theorem readMdForSlotLoop_fuel {slot fuel more : Nat} {m : MdSlotMatch} {reader : SectorReader}
    {walk : MdWalk} (hfuel : walk.cursor < fuel) (hmore : fuel ≤ more) (w : World) :
    (readMdForSlotLoop slot m more reader walk).run w =
      (readMdForSlotLoop slot m fuel reader walk).run w := by
  induction fuel generalizing reader walk more w with
  | zero => exact absurd hfuel (Nat.not_lt_zero _)
  | succ fuel ih =>
    cases more with
    | zero => exact absurd hmore (Nat.not_succ_le_zero _)
    | succ more =>
    rw [readMdForSlotLoop, readMdForSlotLoop]
    split
    · rfl
    rw [run_bind, run_bind]
    rcases hnext : (mdWalkNext reader walk).run w with ⟨res, w1⟩
    cases res with
    | error e => rfl
    | ok a =>
      obtain ⟨⟨walk', r, result⟩, reader'⟩ := a
      dsimp only
      split
      · rfl
      next hrecord =>
      rw [not_not] at hrecord
      split
      · rfl
      subst hrecord
      obtain ⟨rfl, hplace, -, -⟩ := mdWalkNext_record hnext
      refine ih ?_ (Nat.le_of_succ_le_succ hmore) w1
      change r.recordStart < fuel
      simp only [mdFileRecordSize] at hplace
      omega

/-! ## The extents of a file -/

/-- The world with another handle and another plan of the device. -/
def World.withFile (w : World) (h : Nat) (f : File) (plan : List Fault) : World :=
  { w with dev := { w.dev with plan := plan }, files := fun k => if k = h then f else w.files k }

/-- The record that a read handle of the slot finds in a sector. -/
def extentAt (w : World) (slot sector : Nat) : Option MdRecord :=
  match ((readMdForSlot sector slot).run (w.withPlan [])).1 with
  | .ok r => some r
  | .error _ => none

section Files

variable {w : World} {h slot sector : Nat} {f g : File} {plan plan' : List Fault}

@[simp] theorem withFile_files : (w.withFile h f plan).files h = f := if_pos rfl

@[simp] theorem withFile_fs : (w.withFile h f plan).fs = w.fs := rfl

@[simp] theorem withFile_mem : (w.withFile h f plan).dev.mem = w.dev.mem := rfl

@[simp] theorem withFile_size : (w.withFile h f plan).dev.size = w.dev.size := rfl

@[simp] theorem withFile_plan : (w.withFile h f plan).dev.plan = plan := rfl

@[simp] theorem withFile_withFile :
    (w.withFile h f plan).withFile h g plan' = w.withFile h g plan' := by
  simp only [World.withFile, World.mk.injEq, true_and, and_true]
  funext k
  split <;> rfl

theorem withPlan_eq_withFile : w.withPlan plan = w.withFile h (w.files h) plan := by
  simp only [World.withPlan, World.withFile, World.mk.injEq, true_and, and_true]
  funext k
  split
  · next hk => rw [hk]
  · rfl

theorem run_modifyFile_withFile (g : File → File) :
    (modifyFile h g).run w = (.ok (), w.withFile h (g (w.files h)) w.dev.plan) := by
  simp only [run_modifyFile, World.withFile, Prod.mk.injEq, World.mk.injEq, true_and, and_true]
  funext k
  split
  · next hk => rw [hk]
  · rfl

@[simp] theorem extentAt_withFile :
    extentAt (w.withFile h f plan) slot sector = extentAt w slot sector := by
  have hsame : SameData (w.withPlan []) ((w.withFile h f plan).withPlan []) :=
    ⟨rfl, rfl, rfl, rfl, rfl, rfl, fun _ _ => rfl⟩
  rw [extentAt, readMdForSlot, (readMdForSlotBy_alike hsame).result]
  rfl

/-- A program that only reads, on any device: it does what it does on a device that never fails, or it
fails. -/
theorem reads_cases {α : Type} (x : M α) (w : World) [hkeeps : Keeps (OnlyPlan w) x]
    [Honest x] [hreturns : Returns x] [hsteady : Steady x] :
    ∃ plan, (noFault w.dev.plan → noFault plan) ∧
      ((∃ a, (x.run (w.withPlan [])).1 = .ok a ∧ x.run w = (.ok a, w.withPlan plan)) ∨
        ∃ e, e ≠ .diverges ∧ (noFault w.dev.plan → (x.run (w.withPlan [])).1 = .error e) ∧
          x.run w = (.error e, w.withPlan plan)) := by
  have honly := hkeeps.keeps w ⟨w.dev.plan, rfl⟩
  have hquiet := hsteady.steady w
  have hends := hreturns.returns w
  rcases hrun : x.run w with ⟨res, w1⟩
  rw [hrun] at honly hquiet hends
  obtain ⟨plan, hw1⟩ := honly
  dsimp only at hw1
  subst hw1
  refine ⟨plan, fun h0 => ?_, ?_⟩
  · obtain ⟨plan', hfault, heq⟩ := hquiet h0
    have hsame := congrArg (fun v => v.2.dev.plan) heq
    change plan = plan' at hsame
    rw [hsame]
    exact hfault
  cases res with
  | ok a => exact .inl ⟨a, congrArg Prod.fst (Honest.honest hrun), rfl⟩
  | error e =>
    refine .inr ⟨e, fun he => hends (congrArg Except.error he), fun h0 => ?_, rfl⟩
    obtain ⟨plan', -, heq⟩ := hquiet h0
    exact (congrArg Prod.fst heq).symm

/-- The lookup of a record, on any device. -/
theorem readMdForSlot_cases (w : World) (slot sector : Nat) :
    ∃ plan, (noFault w.dev.plan → noFault plan) ∧
      ((∃ r, extentAt w slot sector = some r ∧
          (readMdForSlot sector slot).run w = (.ok r, w.withPlan plan)) ∨
        ∃ e, e ≠ .diverges ∧ (noFault w.dev.plan → extentAt w slot sector = none) ∧
          (readMdForSlot sector slot).run w = (.error e, w.withPlan plan)) := by
  obtain ⟨plan, hplan, ⟨r, hr, hrun⟩ | ⟨e, he, hnone, hrun⟩⟩ := reads_cases (readMdForSlot sector slot) w
  · exact ⟨plan, hplan, .inl ⟨r, by rw [extentAt, hr], hrun⟩⟩
  · exact ⟨plan, hplan, .inr ⟨e, he, fun h0 => by rw [extentAt, hnone h0], hrun⟩⟩

/-- A record that a lookup finds claims data of its sector, and its fields have sixteen bits. -/
theorem readMdForSlotLoop_bounds {w w' : World} {slot fuel size : Nat} {m : MdSlotMatch}
    {reader : SectorReader} {walk : MdWalk} {r : MdRecord} (hcursor : walk.cursor ≤ size)
    (h : (readMdForSlotLoop slot m fuel reader walk).run w = (.ok r, w')) :
    r.dataLen < 65536 ∧ r.spanLen < 65536 ∧ r.dataEnd + mdFileRecordSize ≤ size := by
  induction fuel generalizing reader walk w with
  | zero => cases h
  | succ fuel ih =>
    rw [readMdForSlotLoop] at h
    split at h
    · cases h
    obtain ⟨⟨⟨walk', r', result⟩, reader'⟩, w1, hnext, h⟩ := bind_ok h
    dsimp only at h
    split at h
    · cases h
    next hrecord =>
    rw [not_not] at hrecord
    subst hrecord
    obtain ⟨rfl, hplace, -, hdata⟩ := mdWalkNext_record hnext
    split at h
    · cases h
      obtain ⟨buf, hbuf⟩ := mdWalkNext_fields hnext
      refine ⟨?_, ?_, by omega⟩
      · rw [hbuf]
        exact loadLe16_lt _ _
      · rw [hbuf]
        exact loadLe16_lt _ _
    · have hpassed : (walk.pass r').cursor ≤ size := by
        change r'.recordStart ≤ size
        omega
      exact ih hpassed h

/-- Where an extent lies. -/
theorem extentAt_bounds {r : MdRecord} (h : extentAt w slot sector = some r) :
    sector < w.fs.sectorCount ∧ r.dataLen < 65536 ∧ r.spanLen < 65536 ∧
      r.dataEnd + mdFileRecordSize ≤ w.fs.sectorSize := by
  rw [extentAt] at h
  rcases hrun : (readMdForSlot sector slot).run (w.withPlan []) with ⟨res, w1⟩
  rw [hrun] at h
  cases res with
  | error e => cases h
  | ok r' =>
    cases h
    rw [readMdForSlot, readMdForSlotBy, bind_of_ok (run_getFs _)] at hrun
    split at hrun
    · cases hrun
    next hvalid =>
    obtain ⟨⟨footer, reader⟩, w2, hfooter, hrun⟩ := bind_ok hrun
    have hw2 : w2 = w.withPlan [] := by
      have hsame : ((readSectorFooter {} sector).run (w.withPlan [])).2 = w.withPlan [] := run_of_reads rfl
      rwa [hfooter] at hsame
    dsimp only at hrun
    split at hrun
    · cases hrun
    obtain ⟨⟨walk, reader'⟩, w3, hinit, hrun⟩ := bind_ok hrun
    have hcursor : walk.cursor ≤ w.fs.sectorSize := by
      rw [(mdWalkInit_ok hinit).2.1, hw2]
      exact Nat.sub_le _ _
    refine ⟨?_, readMdForSlotLoop_bounds hcursor hrun⟩
    simp only [validDataSector, Bool.not_eq_false, Bool.and_eq_true, decide_eq_true_eq] at hvalid
    exact hvalid.2

theorem flashRead_cases (w : World) (off n : Nat) :
    ∃ plan, (noFault w.dev.plan → noFault plan) ∧
      ((flashRead off n).run w = (.ok (Nor.read w.dev.mem off n), w.withPlan plan) ∨
        (noFault w.dev.plan → w.dev.size < off + n) ∧
          (flashRead off n).run w = (.error .io, w.withPlan plan)) := by
  obtain ⟨plan, hplan, ⟨bs, hbs, hrun⟩ | ⟨e, -, herror, hrun⟩⟩ := reads_cases (flashRead off n) w
  · refine ⟨plan, hplan, .inl ?_⟩
    rw [hrun, flashRead_quiet rfl (Prod.ext hbs rfl)]
    rfl
  · have hio : e = .io := by
      simp only [flashRead] at hrun
      split at hrun
      · cases hrun
      · cases hrun
        rfl
    subst hio
    refine ⟨plan, hplan, .inr ⟨fun h0 => ?_, hrun⟩⟩
    have hquiet := herror h0
    rw [flashRead_noFault noFault_nil] at hquiet
    by_contra hle
    rw [if_pos (show off + n ≤ (w.withPlan []).dev.size from Nat.le_of_not_lt hle)] at hquiet
    cases hquiet

end Files

/-! ## One round of a read -/

/-- The handle without its cache: where it stands. -/
def File.place (f : File) : File := { f with cache := [], cacheDataPos := 0 }

/-- The cached bytes are those of the flash they stand for. -/
def CacheRight (w : World) (f : File) : Prop :=
  f.cache = Nor.read w.dev.mem (f.current * w.fs.sectorSize + f.dataOffset + f.cacheDataPos) f.cache.length

section Round

variable {w : World} {h want n : Nat}

/-- `fffs_read` at the end of an extent. -/
theorem readNextExtent_cases (w : World) (h : Nat) :
    ∃ plan, (noFault w.dev.plan → noFault plan) ∧
      (((w.files h).currentDataPos < (w.files h).currentDataLen ∧
          (readNextExtent h).run w = (.ok (), w)) ∨
        ((w.files h).currentDataLen ≤ (w.files h).currentDataPos ∧ (w.files h).nextSector ≠ 0 ∧
          ∃ r, extentAt w (w.files h).slot (w.files h).nextSector = some r ∧
            (readNextExtent h).run w = (.ok (), w.withFile h ((w.files h).enter (w.files h).nextSector r
              (u32 ((w.files h).currentFileOffset + (w.files h).currentDataLen)) 0) plan)) ∨
        ((w.files h).currentDataLen ≤ (w.files h).currentDataPos ∧ ∃ e, e ≠ .diverges ∧
          (noFault w.dev.plan → (w.files h).nextSector = 0 ∨
            extentAt w (w.files h).slot (w.files h).nextSector = none) ∧
          (readNextExtent h).run w = (.error e, w.withPlan plan))) := by
  rw [readNextExtent, bind_of_ok (run_getFile h w)]
  by_cases hend : (w.files h).currentDataPos ≥ (w.files h).currentDataLen
  · rw [if_pos hend]
    by_cases hzero : (w.files h).nextSector = 0
    · rw [if_pos hzero]
      exact ⟨w.dev.plan, id, .inr (.inr ⟨hend, .corrupt, nofun, fun _ => .inl hzero, rfl⟩)⟩
    · rw [if_neg hzero]
      obtain ⟨plan, hplan, ⟨r, hr, hrun⟩ | ⟨e, he, hnone, hrun⟩⟩ :=
        readMdForSlot_cases w (w.files h).slot (w.files h).nextSector
      · refine ⟨plan, hplan, .inr (.inl ⟨hend, hzero, r, hr, ?_⟩)⟩
        rw [bind_of_ok hrun, run_modifyFile_withFile]
        rw [withPlan_eq_withFile, withFile_withFile, withFile_files]
        rfl
      · refine ⟨plan, hplan, .inr (.inr ⟨hend, e, he, fun h0 => .inr (hnone h0), ?_⟩)⟩
        rw [bind_of_error hrun]
  · rw [if_neg hend]
    exact ⟨w.dev.plan, id, .inl ⟨Nat.lt_of_not_le hend, rfl⟩⟩

theorem take_drop_read (m : Mem) (off n a b : Nat) :
    ((Nor.read m off n).drop a).take b = Nor.read m (off + a) (min b (n - a)) := by
  refine List.ext_getElem (by simp) fun i hi hi' => ?_
  rw [List.getElem_take, List.getElem_drop, Nor.getElem_read, Nor.getElem_read, Nat.add_assoc]

/-- The bytes one round takes: no more than it may, at least one where there is one, and the right ones
where the cache is right. -/
structure Takes (w : World) (f : File) (want : Nat) (bs : List Byte) : Prop where
  le : bs.length ≤ min want (f.currentDataLen - f.currentDataPos)
  pos : 0 < want → f.currentDataPos < f.currentDataLen → 0 < bs.length
  right : CacheRight w f → bs = Nor.read w.dev.mem (f.dataAddress w.fs) bs.length

/-- The bytes of the extent from the place of the handle on reach past the flash. -/
def pastFlash (w : World) (f : File) : Prop :=
  w.dev.size < f.dataAddress w.fs + (f.currentDataLen - f.currentDataPos)

/-- A round that is served from the cache. -/
theorem takes_cached {f : File} (hcached : readCacheHasRemaining f = true) :
    Takes w f want ((f.cache.drop (f.currentDataPos - f.cacheDataPos)).take
      (min want (f.currentDataLen - f.currentDataPos))) := by
  simp only [readCacheHasRemaining, Bool.and_eq_true, bne_iff_ne, decide_eq_true_eq] at hcached
  refine ⟨?_, fun hwant hdata => ?_, fun hright => ?_⟩
  · simp only [List.length_take, List.length_drop]
    omega
  · simp only [List.length_take, List.length_drop]
    omega
  · rw [CacheRight] at hright
    rw [hright, take_drop_read, Nor.length_read, File.dataAddress]
    congr 1
    omega

theorem takes_read {f : File} (hwant : 0 < n ∨ want = 0 ∨ f.currentDataLen ≤ f.currentDataPos)
    (hn : n ≤ min want (f.currentDataLen - f.currentDataPos)) :
    Takes w f want (Nor.read w.dev.mem (f.dataAddress w.fs) n) := by
  refine ⟨by rwa [Nor.length_read], fun hpos hdata => ?_, fun _ => by rw [Nor.length_read]⟩
  rw [Nor.length_read]
  omega

/-- The handle with its cache filled from the flash. -/
def File.filled (f : File) (w : World) : File :=
  { f with cacheDataPos := f.currentDataPos
           cache := Nor.read w.dev.mem (f.dataAddress w.fs)
             (min (f.currentDataLen - f.currentDataPos) fileCacheSize) }

theorem cacheRight_filled (w : World) (f : File) : CacheRight w (f.filled w) := by
  rw [CacheRight, File.filled, Nor.length_read]
  rfl

/-- The handle after the backend has failed to fill its cache. -/
def File.spoiled (f : File) (plan : List Fault) : File :=
  { f with cache := spoil plan (min (f.currentDataLen - f.currentDataPos) fileCacheSize) f.cache }

/-- `fill_read_cache`, on any device. -/
theorem fillReadCache_cases (w : World) (h : Nat) :
    ∃ plan, (noFault w.dev.plan → noFault plan) ∧
      ((fillReadCache h).run w = (.ok (), w.withFile h ((w.files h).filled w) plan) ∨
        (noFault w.dev.plan → pastFlash w (w.files h)) ∧
          (fillReadCache h).run w = (.error .io, w.withFile h ((w.files h).spoiled w.dev.plan) plan)) := by
  rw [fillReadCache, bind_of_ok (run_get w)]
  obtain ⟨plan, hplan, hrun | ⟨hout, hrun⟩⟩ := flashRead_cases w ((w.files h).dataAddress w.fs)
    (min ((w.files h).currentDataLen - (w.files h).currentDataPos) fileCacheSize)
  · refine ⟨plan, hplan, .inl ?_⟩
    rw [bind_of_ok (run_attempt _ _), hrun]
    change (modifyFile h _).run (w.withPlan plan) = _
    rw [run_modifyFile_withFile, withPlan_eq_withFile, withFile_withFile, withFile_files]
    rfl
  · refine ⟨plan, hplan, .inr ⟨fun h0 => ?_, ?_⟩⟩
    · have hpast := hout h0
      rw [pastFlash]
      omega
    · rw [bind_of_ok (run_attempt _ _), hrun]
      change (modifyFile h _ >>= fun _ => throw Status.io).run (w.withPlan plan) = _
      rw [bind_of_ok (run_modifyFile_withFile _), withPlan_eq_withFile, withFile_withFile, withFile_files]
      rfl

/-- The handle `n` bytes on. -/
def File.advance (f : File) (n : Nat) : File :=
  { f with currentDataPos := u32 (f.currentDataPos + n), pos := u32 (f.pos + n) }

theorem place_advance (f : File) (n : Nat) : (f.advance n).place = f.place.advance n := rfl

/-- The bytes that the cache holds from the place of the handle on. -/
def File.cached (f : File) : Nat :=
  if readCacheHasRemaining f then f.cacheDataPos + f.cache.length - f.currentDataPos else 0

/-- A read of `want` bytes fills the cache anew. -/
def refills (f : File) (want : Nat) : Prop :=
  f.cached < min want (f.currentDataLen - f.currentDataPos) ∧
    min want (f.currentDataLen - f.currentDataPos) - f.cached < fileCacheSize

/-- A read of `want` bytes that cannot fill the cache anew leaves the cached bytes as they were. -/
def cacheKept (f : File) (want : Nat) (plan : List Fault) : Prop :=
  refills f want →
    spoil plan (min (f.currentDataLen - f.currentDataPos - f.cached) fileCacheSize) f.cache = f.cache

theorem spoil_nil (plan : List Fault) (n : Nat) : spoil plan n [] = [] := by
  cases plan with
  | nil => rfl
  | cons x rest => cases x with
    | pass => rfl
    | fail keep done => rfl
    | cut keep done => rfl
    | off => rfl

theorem spoil_zero (plan : List Fault) (bs : List Byte) : spoil plan 0 bs = bs := by
  have hsame : ∀ keep : Nat → Byte, (bs.mapIdx fun i b => if i < 0 then keep i else b) = bs :=
    fun keep => List.ext_getElem (by simp) fun i hi hi' => by simp
  cases plan with
  | nil => rfl
  | cons x rest => cases x with
    | pass => rfl
    | fail keep done => exact hsame keep
    | cut keep done => exact hsame keep
    | off => rfl

theorem cacheKept_nil {f : File} {plan : List Fault} (h : f.cache = []) : cacheKept f want plan := by
  intro _
  rw [h, spoil_nil]

/-- A read that takes all it may from the cache, or the rest of the extent, does not fill the cache. -/
theorem cacheKept_done {f : File} {plan : List Fault}
    (h : want = 0 ∨ f.currentDataLen ≤ f.currentDataPos) : cacheKept f want plan := by
  intro hrefills
  have hlt := hrefills.1
  omega

section Advance

variable {f : File} {plan plan' : List Fault}

theorem advance_currentDataPos (hlen : f.currentDataLen < 65536)
    (hn : f.currentDataPos + n ≤ f.currentDataLen) :
    (f.advance n).currentDataPos = f.currentDataPos + n :=
  u32_of_lt (by omega)

/-- A round that is served from the cache: what is left to read is as safe as before. -/
theorem cacheKept_cached (hlen : f.currentDataLen < 65536) (hpos : f.currentDataPos ≤ f.currentDataLen)
    (hcached : readCacheHasRemaining f = true)
    (hn : n = min (min want (f.currentDataLen - f.currentDataPos)) f.cached)
    (h : cacheKept f want plan) : cacheKept (f.advance n) (want - n) plan := by
  have hnew := advance_currentDataPos (f := f) (n := n) hlen (by omega)
  have hlen' : (f.advance n).currentDataLen = f.currentDataLen := rfl
  by_cases hall : min want (f.currentDataLen - f.currentDataPos) ≤ f.cached
  · refine cacheKept_done ?_
    rw [hnew, hlen']
    omega
  have hspent : (f.advance n).cached = 0 := by
    have hval : f.cached = f.cacheDataPos + f.cache.length - f.currentDataPos := if_pos hcached
    simp only [readCacheHasRemaining, Bool.and_eq_true, bne_iff_ne, decide_eq_true_eq] at hcached
    refine if_neg ?_
    simp only [readCacheHasRemaining, hnew, Bool.and_eq_true, decide_eq_true_eq, not_and, Nat.not_lt]
    intro _
    change f.cacheDataPos + f.cache.length ≤ _
    omega
  intro hrefills
  rw [refills, hspent, hnew, hlen'] at hrefills
  rw [hspent, hnew, hlen']
  have hwindow : f.currentDataLen - (f.currentDataPos + n) - 0 =
      f.currentDataLen - f.currentDataPos - f.cached := by omega
  rw [hwindow]
  refine h ⟨?_, ?_⟩
  · omega
  · omega

/-- A round that fills the cache leaves nothing to fill in this extent. -/
theorem cacheKept_filled (hlen : f.currentDataLen < 65536) (hpos : f.currentDataPos ≤ f.currentDataLen)
    (hshort : min want (f.currentDataLen - f.currentDataPos) < fileCacheSize)
    (hn : n = min want (min (f.currentDataLen - f.currentDataPos) fileCacheSize)) :
    cacheKept ((f.filled w).advance n) (want - n) plan := by
  have hnew := advance_currentDataPos (f := f.filled w) (n := n) hlen
    (by change f.currentDataPos + n ≤ f.currentDataLen; omega)
  refine cacheKept_done ?_
  rw [hnew]
  change _ ∨ f.currentDataLen ≤ f.currentDataPos + n
  omega

end Advance

/-- One round of `fffs_read` at an extent, on any device. -/
theorem readRound_cases (w : World) (h : Nat) (hwant : 0 < want) :
    ∃ plan f, (noFault w.dev.plan → noFault plan) ∧ f.place = (w.files h).place ∧
      ((∃ bs, (readRound h want).run w = (.ok bs, w.withFile h f plan) ∧ Takes w (w.files h) want bs ∧
          (CacheRight w (w.files h) → CacheRight w f) ∧
          ((w.files h).currentDataLen < 65536 → (w.files h).currentDataPos ≤ (w.files h).currentDataLen →
            cacheKept (w.files h) want w.dev.plan → cacheKept (f.advance bs.length) (want - bs.length) plan)) ∨
        (noFault w.dev.plan → pastFlash w (w.files h)) ∧
          (readRound h want).run w = (.error .io, w.withFile h f plan) ∧
          (cacheKept (w.files h) want w.dev.plan → CacheRight w (w.files h) → CacheRight w f)) := by
  rw [readRound, bind_of_ok (run_get w)]
  dsimp only
  by_cases hcached : readCacheHasRemaining (w.files h) = true
  · rw [if_pos hcached]
    refine ⟨w.dev.plan, w.files h, id, rfl, .inl ⟨_, ?_, takes_cached hcached, id, fun hlen hpos hkept => ?_⟩⟩
    · rw [← withPlan_eq_withFile]
      rfl
    · refine cacheKept_cached hlen hpos hcached ?_ hkept
      have hval : (w.files h).cached = _ := if_pos hcached
      simp only [readCacheHasRemaining, Bool.and_eq_true, bne_iff_ne, decide_eq_true_eq] at hcached
      rw [List.length_take, List.length_drop, hval]
      omega
  rw [if_neg hcached]
  have hnone : (w.files h).cached = 0 := if_neg hcached
  by_cases hshort : min want ((w.files h).currentDataLen - (w.files h).currentDataPos) < fileCacheSize
  · rw [if_pos hshort]
    obtain ⟨plan, hplan, hrun | ⟨hout, hrun⟩⟩ := fillReadCache_cases w h
    · have htake := take_drop_read w.dev.mem ((w.files h).dataAddress w.fs)
        (min ((w.files h).currentDataLen - (w.files h).currentDataPos) fileCacheSize) 0 want
      rw [List.drop_zero, Nat.add_zero, Nat.sub_zero] at htake
      refine ⟨plan, (w.files h).filled w, hplan, rfl, .inl ⟨_, ?_, takes_read (n := min want
        (min ((w.files h).currentDataLen - (w.files h).currentDataPos) fileCacheSize)) ?_ ?_,
        fun _ => cacheRight_filled w _, fun hlen hpos _ => ?_⟩⟩
      · rw [bind_of_ok hrun, bind_of_ok (run_getFile h _), withFile_files, run_pure, File.filled, htake]
      · simp only [fileCacheSize]
        omega
      · omega
      · exact cacheKept_filled hlen hpos hshort (Nor.length_read _ _ _)
    · refine ⟨plan, (w.files h).spoiled w.dev.plan, hplan, rfl, .inr ⟨hout, ?_, fun hkept hright => ?_⟩⟩
      · rw [bind_of_error hrun]
      · have hsame : (w.files h).spoiled w.dev.plan = w.files h := by
          rw [File.spoiled]
          rcases Nat.eq_zero_or_pos ((w.files h).currentDataLen - (w.files h).currentDataPos) with hend | hdata
          · rw [hend, Nat.zero_min, spoil_zero]
          · have hrefills : refills (w.files h) want := by
              rw [refills, hnone]
              omega
            have hspoil := hkept hrefills
            rw [hnone, Nat.sub_zero] at hspoil
            rw [hspoil]
        rw [hsame]
        exact hright
  · rw [if_neg hshort, bind_of_ok (run_modifyFile_withFile _)]
    obtain ⟨plan, hplan, hrun | ⟨hout, hrun⟩⟩ := flashRead_cases
      (w.withFile h { w.files h with cache := [] } w.dev.plan) ((w.files h).dataAddress w.fs)
      (min want ((w.files h).currentDataLen - (w.files h).currentDataPos))
    · refine ⟨plan, { w.files h with cache := [] }, hplan, rfl, .inl ⟨_, ?_,
        takes_read ?_ (Nat.le_refl _), fun _ => rfl, fun _ _ _ => cacheKept_nil rfl⟩⟩
      · rw [hrun]
        rfl
      · omega
    · refine ⟨plan, { w.files h with cache := [] }, hplan, rfl, .inr ⟨fun h0 => ?_, ?_, fun _ _ => rfl⟩⟩
      · have hpast := hout h0
        rw [withFile_size] at hpast
        rw [pastFlash]
        omega
      · rw [hrun]
        rfl

/-- The handle `g` is where a round of `fffs_read` finds data: at the place of `f`, or at the start of
the next extent. -/
def Arrives (w : World) (f g : File) : Prop :=
  (f.currentDataPos < f.currentDataLen ∧ g = f) ∨
    (f.currentDataLen ≤ f.currentDataPos ∧ f.nextSector ≠ 0 ∧ ∃ r,
      extentAt w f.slot f.nextSector = some r ∧
        g = f.enter f.nextSector r (u32 (f.currentFileOffset + f.currentDataLen)) 0)

/-- The chain of a handle at the end of its extent goes no further. -/
def chainEnds (w : World) (f : File) : Prop :=
  f.currentDataLen ≤ f.currentDataPos ∧
    (f.nextSector = 0 ∨ extentAt w f.slot f.nextSector = none)

/-- The rest of a round, once the handle is where it finds data. -/
theorem readLoop_arrived (w : World) (h fuel : Nat) (g : File) (plan : List Fault) (hwant : 0 < want) :
    ∃ plan' f, (noFault plan → noFault plan') ∧
      ((∃ bs, Takes w g want bs ∧ f.place = (g.advance bs.length).place ∧
          (CacheRight w g → CacheRight w f) ∧
          (g.currentDataLen < 65536 → g.currentDataPos ≤ g.currentDataLen → cacheKept g want plan →
            cacheKept f (want - bs.length) plan') ∧
          (readRound h want >>= fun bs =>
            modifyFile h (fun f => { f with currentDataPos := u32 (f.currentDataPos + bs.length)
                                            pos := u32 (f.pos + bs.length) }) >>= fun _ =>
              readLoop h fuel (want - bs.length) >>= fun rest => pure (bs ++ rest)).run
              (w.withFile h g plan) =
            (readLoop h fuel (want - bs.length) >>= fun rest => pure (bs ++ rest)).run
              (w.withFile h f plan')) ∨
        f.place = g.place ∧ (noFault plan → pastFlash w g) ∧
          (cacheKept g want plan → CacheRight w g → CacheRight w f) ∧
          (readRound h want >>= fun bs =>
            modifyFile h (fun f => { f with currentDataPos := u32 (f.currentDataPos + bs.length)
                                            pos := u32 (f.pos + bs.length) }) >>= fun _ =>
              readLoop h fuel (want - bs.length) >>= fun rest => pure (bs ++ rest)).run
              (w.withFile h g plan) = (.error .io, w.withFile h f plan')) := by
  obtain ⟨plan', f, hplan, hplace, hcases⟩ := readRound_cases (w.withFile h g plan) h hwant
  rw [withFile_files] at hplace hcases
  rcases hcases with ⟨bs, hrun, htakes, hright, hkept⟩ | ⟨hpast, hrun, hright⟩
  · refine ⟨plan', f.advance bs.length, hplan, .inl ⟨bs, { htakes with }, ?_, hright, hkept, ?_⟩⟩
    · rw [place_advance, place_advance, hplace]
    · rw [bind_of_ok hrun, bind_of_ok (run_modifyFile_withFile _), withFile_withFile, withFile_files,
        withFile_withFile]
      rfl
  · refine ⟨plan', f, hplan, .inr ⟨hplace, hpast, hright, ?_⟩⟩
    rw [bind_of_error hrun, withFile_withFile]

/-- A round for the handle `f` that delivers `bs` and leaves the handle `f'`. -/
structure Delivers (w : World) (f : File) (want : Nat) (plan : List Fault) (bs : List Byte) (f' : File)
    (plan' : List Fault) : Prop where
  round : ∃ g, Arrives w f g ∧ Takes w g want bs ∧ f'.place = (g.advance bs.length).place ∧
    (CacheRight w g → CacheRight w f')
  kept : f.currentDataLen < 65536 → cacheKept f want plan → cacheKept f' (want - bs.length) plan'

/-- A round for the handle `f` that fails and leaves the handle `f'`: there is no next extent, or the extent
cannot be read. -/
def Fails (w : World) (f : File) (want : Nat) (plan : List Fault) (f' : File) : Prop :=
  (f' = f ∧ (noFault plan → chainEnds w f)) ∨
    ∃ g, Arrives w f g ∧ f'.place = g.place ∧ (noFault plan → pastFlash w g) ∧
      (cacheKept f want plan → CacheRight w g → CacheRight w f')

/-- One round of the loop of `fffs_read`, on any device. -/
theorem readLoop_round_self (w : World) (h fuel : Nat) (hwant : 0 < want) :
    ∃ plan f, (noFault w.dev.plan → noFault plan) ∧
      ((∃ bs, Delivers w (w.files h) want w.dev.plan bs f plan ∧
          (readLoop h (fuel + 1) want).run w =
            (readLoop h fuel (want - bs.length) >>= fun rest => pure (bs ++ rest)).run
              (w.withFile h f plan)) ∨
        ∃ e, e ≠ .diverges ∧ (readLoop h (fuel + 1) want).run w = (.error e, w.withFile h f plan) ∧
          Fails w (w.files h) want w.dev.plan f) := by
  rw [readLoop, if_neg (Nat.pos_iff_ne_zero.mp hwant)]
  obtain ⟨plan, hplan, ⟨hdata, hnext⟩ | ⟨hend, hzero, r, hr, hnext⟩ | ⟨hend, e, he, hstop, hnext⟩⟩ :=
    readNextExtent_cases w h
  · have harrives : Arrives w (w.files h) (w.files h) := .inl ⟨hdata, rfl⟩
    have hsame : w.withFile h (w.files h) w.dev.plan = w := withPlan_eq_withFile.symm
    obtain ⟨plan', f, hplan', ⟨bs, htakes, hplace, hright, hkept, hrun⟩ | ⟨hplace, hpast, hright, hrun⟩⟩ :=
      readLoop_arrived w h fuel (w.files h) w.dev.plan hwant
    · refine ⟨plan', f, hplan', .inl ⟨bs, ⟨⟨_, harrives, htakes, hplace, hright⟩,
        fun hlen => hkept hlen (Nat.le_of_lt hdata)⟩, ?_⟩⟩
      rw [bind_of_ok hnext, ← hrun, hsame]
    · refine ⟨plan', f, hplan', .inr ⟨.io, (fun hno => by cases hno), ?_, .inr ⟨_, harrives, hplace, hpast, hright⟩⟩⟩
      rw [bind_of_ok hnext, ← hrun, hsame]
  · have harrives : Arrives w (w.files h) _ := .inr ⟨hend, hzero, r, hr, rfl⟩
    obtain ⟨plan', f, hplan', ⟨bs, htakes, hplace, hright, hkept, hrun⟩ | ⟨hplace, hpast, hright, hrun⟩⟩ :=
      readLoop_arrived w h fuel ((w.files h).enter (w.files h).nextSector r
        (u32 ((w.files h).currentFileOffset + (w.files h).currentDataLen)) 0) plan hwant
    · refine ⟨plan', f, fun h0 => hplan' (hplan h0), .inl ⟨bs, ⟨⟨_, harrives, htakes, hplace, hright⟩,
        fun _ _ => hkept (extentAt_bounds hr).2.1 (Nat.zero_le _) (cacheKept_nil rfl)⟩, ?_⟩⟩
      rw [bind_of_ok hnext, ← hrun]
    · refine ⟨plan', f, fun h0 => hplan' (hplan h0), .inr ⟨.io, (fun hno => by cases hno), ?_, .inr ⟨_, harrives, hplace,
        fun h0 => hpast (hplan h0), fun _ => hright (cacheKept_nil rfl)⟩⟩⟩
      rw [bind_of_ok hnext, ← hrun]
  · refine ⟨plan, w.files h, hplan, .inr ⟨e, he, ?_, .inl ⟨rfl, fun h0 => ⟨hend, hstop h0⟩⟩⟩⟩
    rw [bind_of_error hnext, ← withPlan_eq_withFile]

theorem arrives_withFile {f g k : File} {plan : List Fault} :
    Arrives (w.withFile h k plan) f g ↔ Arrives w f g := by
  simp only [Arrives, extentAt_withFile]

theorem chainEnds_withFile {f k : File} {plan : List Fault} :
    chainEnds (w.withFile h k plan) f ↔ chainEnds w f := by
  simp only [chainEnds, extentAt_withFile]

/-- One round of the loop for the handle `f`, on any device. -/
theorem readLoop_round (w : World) (h fuel : Nat) (f : File) (plan : List Fault) (hwant : 0 < want) :
    ∃ plan' f', (noFault plan → noFault plan') ∧
      ((∃ bs, Delivers w f want plan bs f' plan' ∧
          (readLoop h (fuel + 1) want).run (w.withFile h f plan) =
            (readLoop h fuel (want - bs.length) >>= fun rest => pure (bs ++ rest)).run
              (w.withFile h f' plan')) ∨
        ∃ e, e ≠ .diverges ∧
          (readLoop h (fuel + 1) want).run (w.withFile h f plan) = (.error e, w.withFile h f' plan') ∧
          Fails w f want plan f') := by
  obtain ⟨plan', f', hplan, hround⟩ := readLoop_round_self (w.withFile h f plan) h fuel hwant
  rw [withFile_files] at hround
  refine ⟨plan', f', hplan, ?_⟩
  rcases hround with ⟨bs, ⟨⟨g, ha, htakes, hplace, hright⟩, hkept⟩, hrun⟩ | ⟨e, he, hrun, hwhy⟩
  · rw [withFile_withFile] at hrun
    rw [arrives_withFile] at ha
    exact .inl ⟨bs, ⟨⟨g, ha, { htakes with }, hplace, hright⟩, hkept⟩, hrun⟩
  · rw [withFile_withFile] at hrun
    simp only [Fails, arrives_withFile, chainEnds_withFile] at hwhy
    exact .inr ⟨e, he, hrun, hwhy⟩

end Round

/-! ## Seeking -/

/-- The offset in the file at which the extent of a record starts. -/
def MdRecord.fileOffset (r : MdRecord) : Nat := if r.type = mdTypeFileRootV1 then 0 else r.sizeOrOffset

section Seeking

variable {w : World} {f : File} {h target : Nat} {plan : List Fault}

/-- The handle at the extent of the record `r` in a sector, where the target is. -/
def File.seekTo (f : File) (sector : Nat) (r : MdRecord) (target : Nat) : File :=
  { f.enter sector r r.fileOffset (target - r.fileOffset) with pos := target }

/-- What `hunt_current_span` comes to: it leaves the handle alone, or it finds the extent of the target in
a sector of the span. -/
inductive Hunted (w : World) (h : Nat) (f : File) (target low high : Nat) (plan : List Fault) :
    Except Status Bool × World → Prop where
  | missed {plan' : List Fault} : (noFault plan → noFault plan') →
      Hunted w h f target low high plan (.ok false, w.withFile h f plan')
  | found {plan' : List Fault} {guess : Nat} {r : MdRecord} : (noFault plan → noFault plan') → low ≤ guess →
      guess ≤ high → extentAt w f.slot (u16 (f.current + guess)) = some r → r.fileOffset ≤ target →
      target ≤ u32 (r.fileOffset + r.dataLen) →
      Hunted w h f target low high plan
        (.ok true, w.withFile h (f.seekTo (u16 (f.current + guess)) r target) plan')
  | failed {plan' : List Fault} {e : Status} : (noFault plan → noFault plan') → e ≠ .diverges →
      (noFault plan → ∃ guess, low ≤ guess ∧ guess ≤ high ∧
        extentAt w f.slot (u16 (f.current + guess)) = none) →
      Hunted w h f target low high plan (.error e, w.withFile h f plan')

theorem Hunted.widen {low' high' low high : Nat} {plan1 : List Fault} {out : Except Status Bool × World}
    (hout : Hunted w h f target low' high' plan1 out) (hlow : low ≤ low') (hhigh : high' ≤ high)
    (hplan : noFault plan → noFault plan1) : Hunted w h f target low high plan out := by
  cases hout with
  | missed hplan' => exact .missed fun h0 => hplan' (hplan h0)
  | found hplan' hg hg' hr hle hlt =>
    exact .found (fun h0 => hplan' (hplan h0)) (hlow.trans hg) (hg'.trans hhigh) hr hle hlt
  | failed hplan' he hnone =>
    refine .failed (fun h0 => hplan' (hplan h0)) he fun h0 => ?_
    obtain ⟨guess, hg, hg', hr⟩ := hnone (hplan h0)
    exact ⟨guess, hlow.trans hg, hg'.trans hhigh, hr⟩

/-- The search of `hunt_current_span` ends, on any device. -/
theorem huntLoop_hunted {rel estimate fuel low high : Nat} (hpos : 0 < fuel) (hfuel : high + 1 < low + fuel)
    (hhigh : high < 65535) :
    Hunted w h f target low high plan
      ((huntLoop h target rel estimate fuel low high).run (w.withFile h f plan)) := by
  induction fuel generalizing low high plan with
  | zero => exact absurd hpos (Nat.lt_irrefl 0)
  | succ fuel ih =>
    rw [huntLoop]
    by_cases hrange : low ≤ high
    · rw [if_pos hrange, bind_of_ok (run_getFile h _), withFile_files]
      dsimp only
      generalize hguess : min (max (u16 (rel / estimate)) low) high = guess
      have hlow : low ≤ guess := by omega
      have hle : guess ≤ high := by omega
      obtain ⟨plan1, hplan1, ⟨r, hr, hrun⟩ | ⟨e, he, hnone, hrun⟩⟩ :=
        readMdForSlot_cases (w.withFile h f plan) f.slot (u16 (f.current + guess))
      · have hworld : (w.withFile h f plan).withPlan plan1 = w.withFile h f plan1 := rfl
        rw [extentAt_withFile] at hr
        rw [bind_of_ok hrun, hworld]
        change Hunted w h f target low high plan ((if target < r.fileOffset then _ else _ : M Bool).run _)
        by_cases hbelow : target < r.fileOffset
        · rw [if_pos hbelow]
          split
          · exact .missed hplan1
          · exact (ih (by omega) (by omega) (by omega)).widen (Nat.le_refl _) (by omega) hplan1
        · rw [if_neg hbelow]
          change Hunted w h f target low high plan
            ((if target ≤ u32 (r.fileOffset + r.dataLen) then _ else _ : M Bool).run _)
          by_cases hin : target ≤ u32 (r.fileOffset + r.dataLen)
          · rw [if_pos hin, bind_of_ok (run_modifyFile_withFile _), withFile_withFile, withFile_files]
            exact .found hplan1 hlow hle hr (Nat.le_of_not_lt hbelow) hin
          · have hnext : u16 (guess + 1) = guess + 1 := u16_of_lt (by omega)
            rw [if_neg hin, hnext]
            exact (ih (by omega) (by omega) hhigh).widen (by omega) (Nat.le_refl _) hplan1
      · rw [extentAt_withFile] at hnone
        rw [bind_of_error hrun]
        exact .failed hplan1 he fun h0 => ⟨guess, hlow, hle, hnone h0⟩
    · rw [if_neg hrange]
      exact .missed id

/-- `hunt_current_span`, on any device. -/
theorem huntCurrentSpan_hunted (hspan : f.spanLen < 65536) :
    Hunted w h f target 1 (f.spanLen - 1) plan ((huntCurrentSpan h target).run (w.withFile h f plan)) := by
  rw [huntCurrentSpan, bind_of_ok (run_get _), withFile_files]
  dsimp only
  split
  · exact .missed id
  · exact huntLoop_hunted (Nat.succ_pos _) (by omega) (by omega)

end Seeking

/-! ## The root of a file -/

/-- The bytes before the payload of the root in a sector: the name and the metadata, each after its length. -/
def payloadOffset (w : World) (sector : Nat) (r : MdRecord) : Nat :=
  let a := sector * w.fs.sectorSize + r.dataOff
  let nameLen := (Nor.get w.dev.mem a).toNat
  1 + nameLen + 1 + (Nor.get w.dev.mem (a + (1 + nameLen))).toNat

/-- What the lookup of a root tells of its payload. -/
structure RootRead (w : World) (slot head : Nat) (useCache : Bool) (r : MdRecord) (root : RootMd) : Prop where
  extent : extentAt w slot head = some r
  type : r.type = mdTypeFileRootV1
  payload_le : payloadOffset w head r ≤ r.dataLen
  dataOff : root.payloadDataOff = u16 (r.dataOff + payloadOffset w head r)
  dataLen : root.payloadDataLen = u16 (r.dataLen - payloadOffset w head r)
  next : root.next = r.next
  spanLen : root.spanLen = r.spanLen
  size : root.size = r.sizeOrOffset
  cached : root.cached = if useCache then Nor.read w.dev.mem
      (head * w.fs.sectorSize + r.dataOff + payloadOffset w head r)
      (min r.dataLen fileCacheSize - payloadOffset w head r)
    else []

section Root

variable {w : World} {slot head : Nat} {useCache : Bool} {root : RootMd}

theorem readFileRootMdPrefix_ok
  (h : ((readFileRootMdPrefix head slot useCache).run (w.withPlan [])).1 = .ok root) :
    ∃ r, RootRead w slot head useCache r root := by
  rcases hrun : (readFileRootMdPrefix head slot useCache).run (w.withPlan []) with ⟨res, w1⟩
  rw [hrun] at h
  cases h
  rw [readFileRootMdPrefix] at hrun
  obtain ⟨r, w2, hroot, hrun⟩ := bind_ok hrun
  rw [readFileRootMd] at hroot
  obtain ⟨r', w3, hmd, hroot⟩ := bind_ok hroot
  split at hroot
  · cases hroot
  next htype =>
  cases hroot
  have hw3 : w2 = w.withPlan [] := by
    have hsame : ((readMdForSlot head slot).run (w.withPlan [])).2 = w.withPlan [] := run_of_reads rfl
    rwa [hmd] at hsame
  subst hw3
  rw [readRootPrefix, bind_of_ok (run_getFs _)] at hrun
  split at hrun
  · cases hrun
  next hlen =>
  have hcap : 2 ≤ (if useCache = true then fileCacheSize else maxName + 2) := by
    split
    · decide
    · decide
  have hcache : useCache = true → (if useCache = true then fileCacheSize else maxName + 2) = fileCacheSize :=
    fun huse => if_pos huse
  generalize (if useCache = true then fileCacheSize else maxName + 2) = cap at hrun hcap hcache
  obtain ⟨buf, w4, hbuf, hrun⟩ := bind_ok hrun
  have hread := flashRead_quiet rfl hbuf
  by_cases hname : (byteAt buf 0).toNat = 0 ∨ (byteAt buf 0).toNat > maxName ∨
      1 + (byteAt buf 0).toNat ≥ r.dataLen ∨ 1 + (byteAt buf 0).toNat ≥ min r.dataLen cap
  · rw [if_pos hname] at hrun
    cases hrun
  rw [if_neg hname] at hrun
  have hname0 : byteAt buf 0 = Nor.get w.dev.mem (head * w.fs.sectorSize + r.dataOff) := by
    rw [hread, byteAt, Nor.getD_read _ _ _ _ _ (by omega)]
    rfl
  have hvmeta : byteAt buf (1 + (byteAt buf 0).toNat) =
      Nor.get w.dev.mem (head * w.fs.sectorSize + r.dataOff + (1 + (byteAt buf 0).toNat)) := by
    have hin : 1 + (byteAt buf 0).toNat < min r.dataLen cap := by omega
    generalize 1 + (byteAt buf 0).toNat = i at hin
    rw [hread, byteAt, Nor.getD_read _ _ _ _ _ hin]
    rfl
  have hpayload : 1 + (byteAt buf 0).toNat + 1 + (byteAt buf (1 + (byteAt buf 0).toNat)).toNat =
      payloadOffset w head r := by
    rw [hvmeta, hname0]
    rfl
  rw [hpayload] at hrun
  by_cases hle : payloadOffset w head r > r.dataLen
  · rw [if_pos hle] at hrun
    cases hrun
  rw [if_neg hle] at hrun
  cases hrun
  refine ⟨r, by rw [extentAt, hmd], not_not.mp htype, Nat.le_of_not_lt hle, rfl, rfl, rfl, rfl, rfl, ?_⟩
  cases useCache with
  | false => rfl
  | true =>
    have hdrop := take_drop_read w.dev.mem (head * w.fs.sectorSize + r.dataOff) (min r.dataLen fileCacheSize)
      (payloadOffset w head r) (min r.dataLen fileCacheSize)
    rw [List.take_of_length_le (by rw [List.length_drop, Nor.length_read]; omega)] at hdrop
    rw [hread, hcache rfl]
    refine hdrop.trans (congrArg _ ?_)
    omega

/-- The root that a rewind of the slot finds in a sector. -/
def headRootAt (w : World) (slot head : Nat) : Option RootMd :=
  match ((readFileRootMdPrefix head slot false).run (w.withPlan [])).1 with
  | .ok root => some root
  | .error _ => none

@[simp] theorem headRootAt_withFile {h : Nat} {f : File} {plan : List Fault} :
    headRootAt (w.withFile h f plan) slot head = headRootAt w slot head := by
  have hsame : SameData (w.withPlan []) ((w.withFile h f plan).withPlan []) :=
    ⟨rfl, rfl, rfl, rfl, rfl, rfl, fun _ _ => rfl⟩
  rw [headRootAt, (readFileRootMdPrefix_alike hsame).result]
  rfl

theorem headRootAt_ok (h : headRootAt w slot head = some root) : ∃ r, RootRead w slot head false r root := by
  rw [headRootAt] at h
  split at h
  · next hrun =>
    cases h
    exact readFileRootMdPrefix_ok hrun
  · cases h

/-- The handle at the payload of the root. -/
def File.atRoot (f : File) (root : RootMd) : File :=
  { f with dataOffset := root.payloadDataOff, current := f.head
           currentDataLen := root.payloadDataLen, spanLen := root.spanLen
           currentNext := root.next, currentDataPos := 0, currentFileOffset := 0
           cache := [], cacheDataPos := 0 }

/-- `reset_read_position_to_root`, on any device. -/
theorem resetReadPositionToRoot_cases (w : World) (h : Nat) (f : File) (plan : List Fault) :
    ∃ plan', (noFault plan → noFault plan') ∧
      ((∃ root, headRootAt w f.slot f.head = some root ∧
          (resetReadPositionToRoot h).run (w.withFile h f plan) = (.ok (), w.withFile h (f.atRoot root) plan')) ∨
        ∃ e, e ≠ .diverges ∧ (noFault plan → headRootAt w f.slot f.head = none) ∧
          (resetReadPositionToRoot h).run (w.withFile h f plan) = (.error e, w.withFile h f plan')) := by
  rw [resetReadPositionToRoot, bind_of_ok (run_getFile h _), withFile_files]
  obtain ⟨plan', hplan, ⟨root, hroot, hrun⟩ | ⟨e, he, hnone, hrun⟩⟩ :=
    reads_cases (readFileRootMdPrefix f.head f.slot false) (w.withFile h f plan)
  · refine ⟨plan', hplan, .inl ⟨root, ?_, ?_⟩⟩
    · rw [← headRootAt_withFile (w := w) (h := h) (f := f), headRootAt, hroot]
    · have hworld : (w.withFile h f plan).withPlan plan' = w.withFile h f plan' := rfl
      rw [bind_of_ok hrun, hworld, run_modifyFile_withFile, withFile_withFile, withFile_files]
      rfl
  · refine ⟨plan', hplan, .inr ⟨e, he, fun h0 => ?_, ?_⟩⟩
    · rw [← headRootAt_withFile (w := w) (h := h) (f := f), headRootAt, hnone h0]
    · rw [bind_of_error hrun]
      rfl

end Root

/-! ## Opening a file to read -/

section Opening

variable [Opts] {w0 : World} {name : List Byte} {useCache : Bool}

/-- The root that `fffs_index_resolve` returns has been read. -/
def ResolvedRoot (w0 : World) (useCache : Bool) (resolved : Resolved) : Prop :=
  ∀ head root, resolved.root = some (head, root) → ∃ r, RootRead w0 resolved.slot head useCache r root

omit [Opts] in
theorem readFileRootMdPrefix_yields {head slot : Nat} :
    Yields (OnlyPlan w0) (readFileRootMdPrefix head slot useCache)
      fun root => ∃ r, RootRead w0 slot head useCache r root := by
  refine ⟨(inferInstance : Keeps (OnlyPlan w0) _).keeps, fun w root hw hok => ?_⟩
  obtain ⟨plan, rfl⟩ := hw
  refine readFileRootMdPrefix_ok ?_
  have hrun : (readFileRootMdPrefix head slot useCache).run (w0.withPlan plan) = (.ok root, _) :=
    Prod.ext hok rfl
  exact congrArg Prod.fst (Honest.honest hrun)

theorem resolveProbe_root {fuel candidate : Nat} {free : Option Nat} :
    Yields (OnlyPlan w0) (resolveProbe name useCache fuel candidate free) (ResolvedRoot w0 useCache) := by
  induction fuel generalizing candidate free with
  | zero =>
    unfold resolveProbe
    split
    · exact .pure (by intro _ _ hno; cases hno)
    · exact .throw _
  | succ fuel ih =>
    rw [resolveProbe]
    refine Yields.ofKeeps.bind fun head _ => ?_
    split
    · exact Yields.ofKeeps.bind fun w _ => ih
    · refine readFileRootMdPrefix_yields.bind fun root hroot => Yields.ite (fun _ => .pure ?_) fun _ => ih
      intro head' root' heq
      cases heq
      exact hroot

omit [Opts] in
theorem resolveInSector_root {base begin_ fuel off : Nat} {sets : ProbeSets} :
    Yields (OnlyPlan w0) (resolveInSector name useCache base begin_ fuel off sets)
      fun a => ∀ resolved, a.2 = some resolved → ResolvedRoot w0 useCache resolved := by
  induction fuel generalizing off sets with
  | zero => exact .pure nofun
  | succ fuel ih =>
    rw [resolveInSector]
    refine Yields.ite (fun _ => ?_) fun _ => .pure nofun
    refine Yields.ofKeeps.bind fun fs _ => Yields.ofKeeps.bind fun r _ => Yields.ite (fun _ => ih) fun _ => ?_
    split
    · exact ih
    · refine Yields.ite (fun _ => ih) fun _ => Yields.ite (fun _ => ih) fun _ => ?_
      refine Yields.ite (fun _ => .throw _) fun _ => readFileRootMdPrefix_yields.bind fun root hroot => ?_
      refine Yields.ite (fun _ => .pure ?_) fun _ => ih
      intro resolved heq head' root' heq'
      cases heq
      cases heq'
      exact hroot

omit [Opts] in
theorem resolveScan_root {base n : Nat} {sets : ProbeSets} :
    Yields (OnlyPlan w0) (resolveScan name useCache base n sets) (ResolvedRoot w0 useCache) := by
  induction n generalizing sets with
  | zero =>
    rw [resolveScan]
    exact Yields.ofKeeps.bind fun slot _ => .pure (by intro _ _ hno; cases hno)
  | succ n ih =>
    rw [resolveScan]
    refine Yields.ofKeeps.bind fun fs _ => resolveInSector_root.bind fun a ha => ?_
    rcases a with ⟨sets', _ | resolved⟩
    · exact ih
    · exact .pure (ha resolved rfl)

/-- `fffs_index_resolve` returns a root that it has read. -/
theorem indexResolve_root : Yields (OnlyPlan w0) (indexResolve name useCache) (ResolvedRoot w0 useCache) := by
  rw [indexResolve]
  refine Yields.ite (fun _ => .throw _) fun _ => Yields.ite (fun _ => .throw _) fun _ => ?_
  split
  · exact Yields.ofKeeps.bind fun fs _ => resolveScan_root
  · exact resolveProbe_root

omit [Opts] in
theorem RootRead.of_withFile {w : World} {h slot head : Nat} {f : File} {plan : List Fault} {r : MdRecord}
    {root : RootMd} (hroot : RootRead (w.withFile h f plan) slot head useCache r root) :
    RootRead w slot head useCache r root :=
  { hroot with extent := by rw [← hroot.extent, extentAt_withFile] }

/-- The world with a handle on the list of the open files. -/
def World.enlist (h : Nat) (w : World) : World :=
  { w with fs := { w.fs with openFiles := h :: w.fs.openFiles } }

/-- A file that `fffs_open` opens to read: its handle stands at the payload of a root. -/
theorem openFile_rdonly {w w' : World} {h : Nat} {flags : OpenFlags} (hflags : flags.rdonly = true)
    (hopen : (openFile h name flags).run w = (.ok (), w')) :
    ∃ slot head r root plan, RootRead w slot head true r root ∧
      w' = (w.withFile h (File.ofRoot slot head root r.spanLen) plan).enlist h := by
  rw [openFile, bind_of_ok (run_modifyFile_withFile _)] at hopen
  split at hopen
  · cases hopen
  obtain ⟨resolved, w1, hresolve, hopen⟩ := bind_ok hopen
  have hyields : Yields (OnlyPlan (w.withFile h { closed := false } w.dev.plan)) (indexResolve name flags.rdonly)
      (ResolvedRoot (w.withFile h { closed := false } w.dev.plan) flags.rdonly) := indexResolve_root
  have hkept := hyields.keeps (w.withFile h { closed := false } w.dev.plan) ⟨w.dev.plan, rfl⟩
  have hvalue := hyields.value _ resolved ⟨w.dev.plan, rfl⟩ (congrArg Prod.fst hresolve)
  rw [hresolve] at hkept
  obtain ⟨plan1, hw1⟩ := hkept
  dsimp only at hw1
  subst hw1
  cases hroot : resolved.root with
  | none =>
    rw [hroot] at hopen
    cases hopen
  | some a =>
    obtain ⟨head, root⟩ := a
    obtain ⟨r, hread⟩ := hvalue head root hroot
    rw [hroot] at hopen
    dsimp only at hopen
    split at hopen
    · cases hopen
    rw [openRead] at hopen
    obtain ⟨r', w2, hmd, hopen⟩ := bind_ok hopen
    obtain ⟨plan2, -, ⟨r2, hr2, hrun2⟩ | ⟨e, -, -, hrun2⟩⟩ := readMdForSlot_cases
      ((w.withFile h { closed := false } w.dev.plan).withPlan plan1) resolved.slot head
    · rw [hmd] at hrun2
      cases hrun2
      have hsame : r' = r := by
        have hr : extentAt (w.withFile h { closed := false } w.dev.plan) resolved.slot head = some r' := hr2
        rw [hread.extent] at hr
        exact (Option.some.inj hr).symm
      subst hsame
      rw [bind_of_ok (run_modifyFile_withFile _), registerOpenFile, run_modifyFs] at hopen
      cases hopen
      rw [hflags] at hread
      refine ⟨resolved.slot, head, r', root, plan2, hread.of_withFile, ?_⟩
      have hworld : (((w.withFile h { closed := false } w.dev.plan).withPlan plan1).withPlan plan2).withFile h
          (File.ofRoot resolved.slot head root r'.spanLen) plan2 =
          w.withFile h (File.ofRoot resolved.slot head root r'.spanLen) plan2 := by
        change (w.withFile h { closed := false } plan2).withFile h _ plan2 = _
        rw [withFile_withFile]
      exact congrArg (World.enlist h) hworld
    · rw [hmd] at hrun2
      cases hrun2

end Opening

end Fastffs
