import Fastffs.Power

/-!
# Programs that stop at the first error

A program that hands every error of the device to its caller has met no error when it
returns.  So it has done what it does on a device that never fails, whatever the plan
was (`Honest`).
-/

namespace Fastffs

open Prog
open Nor (Mem Byte blank)

/-- The world is `v`, up to the calls that are left. -/
def OnlyPlan (v w : World) : Prop := ∃ plan, w = v.withPlan plan

instance (v : World) : ReadInv (OnlyPlan v) where
  ofRead := by
    rintro w ⟨plan, rfl⟩
    exact ⟨(v.withPlan plan).dev.advance.plan, rfl⟩

/-- A run that returns is a run on a device that never fails. -/
class Honest {α : Type} (x : M α) : Prop where
  honest : ∀ {w w' a}, x.run w = (.ok a, w') → x.run (w.withPlan []) = (.ok a, w'.withPlan [])

section Rules

variable {α β : Type} {x y : M α} {f : α → M β}

instance (a : α) : Honest (pure a : M α) := ⟨fun h => by cases h; rfl⟩

instance (e : Status) : Honest (throw e : M α) := ⟨fun h => by cases h⟩

instance : Honest getFs := ⟨fun h => by cases h; rfl⟩

instance (g : Fs → Fs) : Honest (modifyFs g) := ⟨fun h => by cases h; rfl⟩

instance (act : Act) : Honest (note act) := ⟨fun h => by cases h; rfl⟩

/-- The rule for a sequence. -/
instance Honest.bind [hx : Honest x] [k : ∀ a, Honest (f a)] : Honest (x >>= f) where
  honest h := by
    obtain ⟨a, w1, h1, h2⟩ := bind_ok h
    rw [bind_of_ok (hx.honest h1)]
    exact (k a).honest h2

/-- The rule for a program that looks at the world, but not at the plan. -/
theorem Honest.get {g : World → M β} (hg : ∀ w plan, g (w.withPlan plan) = g w)
    (h : ∀ w, Honest (g w)) : Honest (Prog.get >>= g) where
  honest {w w' b} hrun := by
    rw [bind_of_ok (run_get w)] at hrun
    rw [bind_of_ok (run_get _), hg]
    exact (h w).honest hrun

instance {c : Prop} [Decidable c] [hx : Honest x] [hy : Honest y] : Honest (if c then x else y) := by
  split
  · exact hx
  · exact hy

instance {c : Prop} [Decidable c] {z : M Unit} [hz : Honest z] : Honest (when c z) := by
  unfold Prog.when
  infer_instance

end Rules

/-! ## Calls of the device -/

instance (off n : Nat) : Honest (flashRead off n) where
  honest {w w' a} h := by
    obtain ⟨⟨m, g, plan⟩, fs, files, trace⟩ := w
    by_cases hle : off + n ≤ m.size
    · rcases plan with _ | ⟨fault, rest⟩
      · simp only [flashRead, Device.read, World.withPlan, if_pos hle] at h ⊢
        cases h
        rfl
      · cases fault with
        | pass =>
          simp only [flashRead, Device.read, World.withPlan, if_pos hle] at h ⊢
          cases h
          rfl
        | fail keep done => cases h
        | cut keep done => cases h
        | off => cases h
    · rcases plan with _ | ⟨fault, rest⟩
      · simp [flashRead, Device.read, hle] at h
      · cases fault <;> simp [flashRead, Device.read, hle] at h

instance (off : Nat) (bs : List Byte) : Honest (backendProgram off bs) where
  honest {w w' a} h := by
    simp only [backendProgram] at h
    split at h
    · next d hd =>
      obtain ⟨rfl, hle⟩ := Device.program_ok hd
      cases h
      exact backendProgram_run rfl hle
    · simp at h

instance (off n : Nat) : Honest (backendErase off n) where
  honest {w w' a} h := by
    simp only [backendErase] at h
    split at h
    · next d hd =>
      obtain ⟨rfl, hle⟩ := Device.erase_ok hd
      cases h
      have herase : (w.withPlan []).dev.erase off n =
          (true, { w.dev with mem := Nor.erase w.dev.mem off n, plan := [] }) := if_pos hle
      simp only [backendErase, herase]
      rfl
    · simp at h

/-! ## The records of a sector -/

instance (reader : SectorReader) (sector off n : Nat) :
    Honest (sectorReaderView reader sector off n) := by
  unfold sectorReaderView; infer_instance

instance (reader : SectorReader) (sector : Nat) : Honest (readSectorFooter reader sector) := by
  unfold readSectorFooter; infer_instance

instance (reader : SectorReader) (sector cursor : Nat) :
    Honest (decodeFileMdRecord reader sector cursor) := by
  unfold decodeFileMdRecord; infer_instance

instance (reader : SectorReader) (sector : Nat) : Honest (mdWalkInit reader sector) := by
  unfold mdWalkInit; infer_instance

instance (reader : SectorReader) (walk : MdWalk) : Honest (mdWalkNext reader walk) := by
  unfold mdWalkNext; infer_instance

instance (slot : Nat) (m : MdSlotMatch) (fuel : Nat) (reader : SectorReader) (walk : MdWalk) :
    Honest (readMdForSlotLoop slot m fuel reader walk) := by
  induction fuel generalizing reader walk with
  | zero => unfold readMdForSlotLoop; infer_instance
  | succ fuel ih => unfold readMdForSlotLoop; infer_instance

instance (sector slot : Nat) (m : MdSlotMatch) : Honest (readMdForSlotBy sector slot m) := by
  unfold readMdForSlotBy; infer_instance

instance (sector slot : Nat) : Honest (readMdForSlot sector slot) := by
  unfold readMdForSlot; infer_instance

instance (sector slot : Nat) : Honest (readFileRootMd sector slot) := by
  unfold readFileRootMd; infer_instance

instance (sector : Nat) (r : MdRecord) (useCache : Bool) : Honest (readRootPrefix sector r useCache) := by
  unfold readRootPrefix; infer_instance

instance (sector slot : Nat) (useCache : Bool) : Honest (readFileRootMdPrefix sector slot useCache) := by
  unfold readFileRootMdPrefix; infer_instance

/-! ## The programs of the log -/

instance (granule fuel pos : Nat) (src : List Byte) : Honest (programChunks granule fuel pos src) := by
  induction fuel generalizing pos src with
  | zero => unfold programChunks; infer_instance
  | succ fuel ih => unfold programChunks; infer_instance

instance (off : Nat) (bs : List Byte) : Honest (programAligned off bs) := by
  unfold programAligned
  refine Honest.get (fun _ _ => rfl) fun w => ?_
  infer_instance

instance (off : Nat) : Honest (readIndexRecord off) := by
  unfold readIndexRecord; infer_instance

instance (reader : IndexRecordReader) (off : Nat) : Honest (indexRecordReaderLoad reader off) := by
  unfold indexRecordReaderLoad; infer_instance

instance (reader : IndexRecordReader) (off : Nat) : Honest (readCompactSourceRecord reader off) := by
  unfold readCompactSourceRecord; infer_instance

instance (slot endOff fuel off : Nat) : Honest (newerInSector slot endOff fuel off) := by
  induction fuel generalizing off with
  | zero => unfold newerInSector; infer_instance
  | succ fuel ih => unfold newerInSector; infer_instance

instance (slot n seqPos off : Nat) : Honest (newerRecordLoop slot n seqPos off) := by
  induction n generalizing seqPos off with
  | zero => unfold newerRecordLoop; infer_instance
  | succ n ih => unfold newerRecordLoop; infer_instance

instance (seqPos off slot : Nat) : Honest (newerRecordForSlot seqPos off slot) := by
  unfold newerRecordForSlot; infer_instance

instance (slot begin_ fuel off : Nat) : Honest (lastInSector slot begin_ fuel off) := by
  induction fuel generalizing off with
  | zero => unfold lastInSector; infer_instance
  | succ fuel ih => unfold lastInSector; infer_instance

instance (slot n : Nat) : Honest (headForSlotScan slot n) := by
  induction n with
  | zero => unfold headForSlotScan; infer_instance
  | succ n ih =>
    unfold headForSlotScan
    refine Honest.bind (k := fun fs => Honest.bind (k := fun last => ?_))
    split <;> infer_instance

instance : Honest rotateIndexBegin := by
  unfold rotateIndexBegin; infer_instance

instance (off indexSectors shift serial : Nat) :
    Honest (programIndexHeader off indexSectors shift serial) := by
  unfold programIndexHeader; infer_instance

instance : Honest rotateIndexCommit := by
  unfold rotateIndexCommit; infer_instance

instance (slot head : Nat) : Honest (appendIndexAtEnd slot head) := by
  unfold appendIndexAtEnd programIndexRecordAt; infer_instance

instance (pending : Bool) : Honest (indexRecordWriterRoom pending) := by
  unfold indexRecordWriterRoom; infer_instance

instance (pending : Bool) (slot head : Nat) : Honest (indexRecordWriterAppend pending slot head) := by
  unfold indexRecordWriterAppend; infer_instance

instance (sector : Nat) : Honest (indexCompactOldestFinish sector) := by
  unfold indexCompactOldestFinish tombstoneIndexSector; infer_instance

variable [Opts]

instance (slot : Nat) : Honest (indexHeadForSlot slot) := by
  unfold indexHeadForSlot
  refine Honest.bind (k := fun fs => ?_)
  split
  · infer_instance
  · infer_instance
  · split
    · infer_instance
    · split <;> infer_instance

instance (seqPos off slot head : Nat) : Honest (indexRecordIsCurrent seqPos off slot head) := by
  unfold indexRecordIsCurrent
  split <;> infer_instance

instance (reader : IndexRecordReader) (sourceEnd fuel off : Nat) (pending : Bool) :
    Honest (compactCopyLoop sourceEnd fuel reader off pending) := by
  induction fuel generalizing reader off pending with
  | zero => unfold compactCopyLoop; infer_instance
  | succ fuel ih => unfold compactCopyLoop; infer_instance

instance : Honest indexCompactOldestCopy := by
  unfold indexCompactOldestCopy; infer_instance

instance : Honest rotateIndex := by
  unfold rotateIndex; infer_instance

end Fastffs
