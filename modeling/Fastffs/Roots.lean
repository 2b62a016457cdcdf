import Fastffs.SectorWindow

/-!
# Reading the root of a file

The programs that read the records of a data sector see nothing of the flash but
the data sectors, and nothing of the mounted file system but its geometry.  Two
worlds that agree on these (`SameData`) give such a program the same result.

`rootIsLive` is what the replay of the index asks about the head of a record.
-/

namespace Fastffs

open Prog
open Nor (Byte)

/-- Two worlds on devices that never fail, with the same geometry and the same bytes
in the data sectors. -/
structure SameData (w w' : World) : Prop where
  plan : w.dev.plan = []
  plan' : w'.dev.plan = []
  size : w'.dev.mem.size = w.dev.mem.size
  sectorSize : w'.fs.sectorSize = w.fs.sectorSize
  sectorCount : w'.fs.sectorCount = w.fs.sectorCount
  indexSectors : w'.fs.indexSectors = w.fs.indexSectors
  data : ∀ a, w.fs.indexSectors * w.fs.sectorSize ≤ a →
    Nor.get w'.dev.mem a = Nor.get w.dev.mem a

theorem SameData.refl {w : World} (hplan : w.dev.plan = []) : SameData w w :=
  ⟨hplan, hplan, rfl, rfl, rfl, rfl, fun _ _ => rfl⟩

theorem SameData.symm {w w' : World} (h : SameData w w') : SameData w' w where
  plan := h.plan'
  plan' := h.plan
  size := h.size.symm
  sectorSize := h.sectorSize.symm
  sectorCount := h.sectorCount.symm
  indexSectors := h.indexSectors.symm
  data := fun a ha => (h.data a (by rwa [h.indexSectors, h.sectorSize] at ha)).symm

theorem SameData.trans {w w' w'' : World} (h : SameData w w') (h' : SameData w' w'') :
    SameData w w'' where
  plan := h.plan
  plan' := h'.plan'
  size := h'.size.trans h.size
  sectorSize := h'.sectorSize.trans h.sectorSize
  sectorCount := h'.sectorCount.trans h.sectorCount
  indexSectors := h'.indexSectors.trans h.indexSectors
  data := fun a ha =>
    (h'.data a (by rwa [h.indexSectors, h.sectorSize])).trans (h.data a ha)

/-- The two programs return the same and change nothing. -/
def Alike {α : Type} (w w' : World) (x y : M α) : Prop :=
  ∃ r, x.run w = (r, w) ∧ y.run w' = (r, w')

section Rules

variable {α β : Type} {w w' : World} {x y : M α} {f g : α → M β}

theorem Alike.pure (a : α) : Alike w w' (Pure.pure a) (Pure.pure a) := ⟨.ok a, rfl, rfl⟩

theorem Alike.throw (e : Status) : Alike (α := α) w w' (Prog.throw e) (Prog.throw e) :=
  ⟨.error e, rfl, rfl⟩

theorem Alike.bind (hx : Alike w w' x y)
    (hf : ∀ a, x.run w = (.ok a, w) → Alike w w' (f a) (g a)) :
    Alike w w' (x >>= f) (y >>= g) := by
  obtain ⟨r, h1, h2⟩ := hx
  cases r with
  | error e => exact ⟨.error e, bind_of_error h1, bind_of_error h2⟩
  | ok a =>
    obtain ⟨r, h3, h4⟩ := hf a h1
    exact ⟨r, (bind_of_ok h1).trans h3, (bind_of_ok h2).trans h4⟩

theorem Alike.getFs {f g : Fs → M β} (h : Alike w w' (f w.fs) (g w'.fs)) :
    Alike w w' (Fastffs.getFs >>= f) (Fastffs.getFs >>= g) := by
  obtain ⟨r, h1, h2⟩ := h
  exact ⟨r, (bind_of_ok (run_getFs w)).trans h1, (bind_of_ok (run_getFs w')).trans h2⟩

theorem Alike.ite {c : Prop} [Decidable c] {x' y' : M α} (h : Alike w w' x y)
    (h' : Alike w w' x' y') : Alike w w' (if c then x else x') (if c then y else y') := by
  split
  · exact h
  · exact h'

theorem Alike.result (h : Alike w w' x y) : (y.run w').1 = (x.run w).1 := by
  obtain ⟨r, h1, h2⟩ := h
  rw [h1, h2]

end Rules

variable {w w' : World}

/-! ## One sector -/

theorem flashRead_alike {off n : Nat} (h : SameData w w')
    (hoff : w.fs.indexSectors * w.fs.sectorSize ≤ off) :
    Alike w w' (flashRead off n) (flashRead off n) := by
  by_cases hle : off + n ≤ w.dev.mem.size
  · refine ⟨_, flashRead_run h.plan hle, ?_⟩
    have hle' : off + n ≤ w'.dev.size := hle.trans_eq h.size.symm
    rw [flashRead_run h.plan' hle', Nor.read_congr fun a ha _ => h.data a (hoff.trans ha)]
  · exact ⟨_, flashRead_outside h.plan hle, flashRead_outside h.plan' (by rwa [h.size])⟩

variable {sector : Nat} {reader : SectorReader}

theorem sectorReaderView_alike {off size : Nat} (h : SameData w w')
    (hs : w.fs.indexSectors ≤ sector) :
    Alike w w' (sectorReaderView reader sector off size) (sectorReaderView reader sector off size) := by
  refine Alike.getFs ?_
  rw [h.sectorCount, h.sectorSize]
  split
  · exact Alike.throw _
  · refine Alike.ite (Alike.pure _) ((flashRead_alike h ?_).bind fun data _ => Alike.pure _)
    exact (Nat.mul_le_mul_right _ hs).trans (Nat.le_add_right ..)

theorem readSectorFooter_alike (h : SameData w w') (hs : w.fs.indexSectors ≤ sector) :
    Alike w w' (readSectorFooter reader sector) (readSectorFooter reader sector) := by
  refine Alike.getFs ?_
  rw [h.sectorSize]
  exact (sectorReaderView_alike h hs).bind fun _ _ => Alike.pure _

theorem decodeFileMdRecord_alike {cursor : Nat} (h : SameData w w')
    (hs : w.fs.indexSectors ≤ sector) :
    Alike w w' (decodeFileMdRecord reader sector cursor) (decodeFileMdRecord reader sector cursor) := by
  have hok : ∀ r, mdRecordOk w'.fs sector r = mdRecordOk w.fs sector r := by
    intro r
    unfold mdRecordOk
    rw [h.sectorCount, h.indexSectors]
  refine Alike.getFs ((sectorReaderView_alike h hs).bind fun t _ => ?_)
  dsimp only
  split
  · exact Alike.pure _
  · split
    · exact Alike.throw _
    · split
      · exact Alike.pure _
      · refine (sectorReaderView_alike h hs).bind fun buf _ => ?_
        rw [hok]
        split
        · exact Alike.pure _
        · exact Alike.pure _

theorem mdWalkInit_alike (h : SameData w w') :
    Alike w w' (mdWalkInit reader sector) (mdWalkInit reader sector) := by
  have hv : validDataSector w'.fs sector = validDataSector w.fs sector := by
    unfold validDataSector
    rw [h.sectorCount, h.indexSectors]
  have hbegin : MdWalk.begin w'.fs sector = .begin w.fs sector := by
    unfold MdWalk.begin
    rw [h.sectorSize]
  refine Alike.getFs ?_
  rw [hv, hbegin]
  exact Alike.ite (Alike.throw _) (Alike.pure _)

theorem mdWalkNext_alike {walk : MdWalk} (h : SameData w w') (hs : w.fs.indexSectors ≤ walk.sector) :
    Alike w w' (mdWalkNext reader walk) (mdWalkNext reader walk) := by
  unfold mdWalkNext
  split
  · exact Alike.throw _
  · split
    · exact Alike.pure _
    · refine (decodeFileMdRecord_alike h hs).bind fun r _ => ?_
      dsimp only
      split
      · exact Alike.pure _
      · exact Alike.pure _

/-! ## One record -/

theorem readMdForSlotLoop_alike {slot fuel : Nat} {m : MdSlotMatch} {walk : MdWalk}
    (h : SameData w w') (hs : w.fs.indexSectors ≤ walk.sector) :
    Alike w w' (readMdForSlotLoop slot m fuel reader walk) (readMdForSlotLoop slot m fuel reader walk) := by
  induction fuel generalizing reader walk with
  | zero => exact Alike.throw _
  | succ fuel ih =>
    unfold readMdForSlotLoop
    split
    · exact Alike.throw _
    · refine (mdWalkNext_alike h hs).bind fun a ha => ?_
      have hsector := (mdWalkNext_place ha).1
      dsimp only
      split
      · exact Alike.throw _
      · split
        · exact Alike.pure _
        · exact ih (hsector ▸ hs)

theorem readMdForSlotBy_alike {slot : Nat} {m : MdSlotMatch} (h : SameData w w') :
    Alike w w' (readMdForSlotBy sector slot m) (readMdForSlotBy sector slot m) := by
  have hv : validDataSector w'.fs sector = validDataSector w.fs sector := by
    unfold validDataSector
    rw [h.sectorCount, h.indexSectors]
  refine Alike.getFs ?_
  rw [hv, h.sectorSize]
  split
  · exact Alike.throw _
  · next hvalid =>
    have hs : w.fs.indexSectors ≤ sector := by
      simp only [validDataSector, Bool.not_eq_false, Bool.and_eq_true, decide_eq_true_eq] at hvalid
      exact hvalid.1
    refine (readSectorFooter_alike h hs).bind fun footer _ => ?_
    dsimp only
    split
    · exact Alike.throw _
    · refine (mdWalkInit_alike h).bind fun a ha => ?_
      exact readMdForSlotLoop_alike h ((mdWalkInit_ok ha).2.1.symm ▸ hs)

theorem readFileRootMd_alike {slot : Nat} (h : SameData w w') :
    Alike w w' (readFileRootMd sector slot) (readFileRootMd sector slot) := by
  refine (readMdForSlotBy_alike h).bind fun r _ => ?_
  split
  · exact Alike.throw _
  · exact Alike.pure _

theorem readRootPrefix_alike {r : MdRecord} {useCache : Bool} (h : SameData w w')
    (hs : w.fs.indexSectors ≤ sector) :
    Alike w w' (readRootPrefix sector r useCache) (readRootPrefix sector r useCache) := by
  refine Alike.getFs ?_
  rw [h.sectorSize]
  split
  · exact Alike.throw _
  · refine (flashRead_alike h ?_).bind fun buf _ => ?_
    · exact (Nat.mul_le_mul_right _ hs).trans (Nat.le_add_right ..)
    · exact Alike.ite (Alike.throw _) (Alike.ite (Alike.throw _) (Alike.pure _))

/-- A root that can be read is in a data sector. -/
theorem readFileRootMd_sector {slot : Nat} {r : MdRecord}
    (hrun : (readFileRootMd sector slot).run w = (.ok r, w')) :
    w.fs.indexSectors ≤ sector ∧ sector < w.fs.sectorCount := by
  obtain ⟨r', w1, hread, -⟩ := bind_ok hrun
  rw [readMdForSlot, readMdForSlotBy, bind_of_ok (run_getFs w)] at hread
  split at hread
  · simp at hread
  · next hvalid =>
    simpa only [validDataSector, Bool.not_eq_false, Bool.and_eq_true, decide_eq_true_eq] using hvalid

theorem readFileRootMdPrefix_alike {slot : Nat} {useCache : Bool} (h : SameData w w') :
    Alike w w' (readFileRootMdPrefix sector slot useCache)
      (readFileRootMdPrefix sector slot useCache) :=
  (readFileRootMd_alike h).bind fun _ hr => readRootPrefix_alike h (readFileRootMd_sector hr).1

/-! ## Live roots -/

/-- The sector `head` holds a live root of the slot. -/
def rootIsLive (w : World) (slot head : Nat) : Bool := ((readFileRootMd head slot).run w).1.isOk

theorem rootIsLive_congr (h : SameData w w') (slot head : Nat) :
    rootIsLive w' slot head = rootIsLive w slot head := by
  rw [rootIsLive, rootIsLive, (readFileRootMd_alike h).result]

/-- The check the replay makes on a record. -/
theorem replayRootIsLive_run (hplan : w.dev.plan = []) (r : IndexRecord) :
    (replayRootIsLive r).run w = (.ok (rootIsLive w r.slot r.head), w) := by
  have hread := run_of_reads (x := readFileRootMd r.head r.slot) hplan
  have hattempt : (Prog.attempt (readFileRootMd r.head r.slot)).run w =
      (.ok ((readFileRootMd r.head r.slot).run w).1, w) := by
    rw [run_attempt, hread]
  rw [replayRootIsLive, bind_of_ok hattempt, run_pure, rootIsLive]

/-- A live root is in a data sector. -/
theorem rootIsLive_sector {slot head : Nat} (h : rootIsLive w slot head = true) :
    w.fs.indexSectors ≤ head ∧ head < w.fs.sectorCount := by
  rw [rootIsLive] at h
  rcases hrun : (readFileRootMd head slot).run w with ⟨r, w1⟩
  rw [hrun] at h
  cases r with
  | error e => simp [Except.isOk, Except.toBool] at h
  | ok r => exact readFileRootMd_sector hrun

end Fastffs
