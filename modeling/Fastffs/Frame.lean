import Fastffs.Reads

/-!
# What the lower layers leave alone

Reading the flash, programming it, walking records and keeping the index never
touch the handles, the registered files, the reservations or the allocation map.
`FrameInv I` says that `I` speaks about these only, and that it allows the erase
of an index sector, which a rotation of the log does.  Every program below keeps
every such invariant, if it also allows a conversion to sixteen bits (`NarrowInv`)
where the program makes one.
-/

namespace Fastffs

open Prog

/-- The part of the world that the lower layers leave alone. -/
structure RamView where
  files : Nat → File
  openFiles : List Nat
  compactionReserve : List Nat
  indexSectors : Nat
  sectorSize : Nat
  sectorCount : Nat
  allocMap : Nat → Bool
  compactionCandidates : List CompactionCandidate
  avgSectorsPerFileQ8 : Nat
  chipSize : Nat
  programGranule : Nat
  trace : List Event

/-- The part of a world that the lower layers leave alone. -/
def ramView (w : World) : RamView where
  files := w.files
  openFiles := w.fs.openFiles
  compactionReserve := w.fs.compactionReserve
  indexSectors := w.fs.indexSectors
  sectorSize := w.fs.sectorSize
  sectorCount := w.fs.sectorCount
  allocMap := w.fs.allocMap
  compactionCandidates := w.fs.compactionCandidates
  avgSectorsPerFileQ8 := w.fs.avgSectorsPerFileQ8
  chipSize := w.dev.size
  programGranule := w.dev.programGranule
  trace := w.trace

/-- An invariant of the part that the lower layers leave alone. -/
class FrameInv (I : World → Prop) : Prop where
  indexSectors_pos : ∀ {w}, I w → 0 < w.fs.indexSectors
  ofView : ∀ {w w'}, ramView w = ramView w' → I w → I w'
  noteErase : ∀ {w s}, s < w.fs.indexSectors → I w →
    I { w with trace := ⟨.erase s, w.fs, w.files⟩ :: w.trace }

/-- An invariant that allows every conversion to sixteen bits. -/
class NarrowInv (I : World → Prop) : Prop where
  narrow : ∀ {w vs}, I w → I { w with trace := ⟨.narrow vs, w.fs, w.files⟩ :: w.trace }

instance {I : World → Prop} [NarrowInv I] (vs : List Nat) : Keeps I (note (.narrow vs)) :=
  ⟨fun _ hw => NarrowInv.narrow hw⟩

instance {I : World → Prop} [FrameInv I] : CacheInv I where
  ofRead := fun {w} hw => FrameInv.ofView (w := w) rfl hw
  ofCache := fun {w} _ _ hw => FrameInv.ofView (w := w) rfl hw

variable {I : World → Prop} [FrameInv I]

/-- A change of the file system that the view does not see. -/
theorem keeps_modifyFs {f : Fs → Fs} (h : ∀ w : World, ramView { w with fs := f w.fs } = ramView w) :
    Keeps I (modifyFs f) :=
  ⟨fun w hw => FrameInv.ofView (h w).symm hw⟩

/-! ## Flash -/

/-- A program and an erase leave the size of the chip, its granule and the empty plan. -/
theorem Device.program_shape (d : Device) (off : Nat) (bs : List Nor.Byte) :
    (d.program off bs).2.size = d.size ∧ (d.program off bs).2.programGranule = d.programGranule ∧
      (d.plan = [] → (d.program off bs).2.plan = []) := by
  rw [Device.program]
  dsimp only
  split
  · split
    · next hplan => exact ⟨Nor.size_program _ _ _, rfl, fun _ => by rw [hplan]; rfl⟩
    · next hplan => exact ⟨Nor.size_program _ _ _, rfl, fun h0 => by rw [hplan] at h0; cases h0⟩
    · next hplan => exact ⟨Nor.size_program _ _ _, rfl, fun h0 => by rw [hplan] at h0; cases h0⟩
    · next hplan => exact ⟨Nor.size_program _ _ _, rfl, fun h0 => by rw [hplan] at h0; cases h0⟩
    · exact ⟨rfl, rfl, fun h0 => by rw [h0]; rfl⟩
  · exact ⟨rfl, rfl, fun h0 => by rw [h0]; rfl⟩

theorem Device.erase_shape (d : Device) (off len : Nat) :
    (d.erase off len).2.size = d.size ∧ (d.erase off len).2.programGranule = d.programGranule ∧
      (d.plan = [] → (d.erase off len).2.plan = []) := by
  rw [Device.erase]
  dsimp only
  split
  · split
    · next hplan => exact ⟨Nor.size_erase _ _ _, rfl, fun _ => by rw [hplan]; rfl⟩
    · next hplan => exact ⟨Nor.size_erase _ _ _, rfl, fun h0 => by rw [hplan] at h0; cases h0⟩
    · next done _ hplan =>
      cases done
      · exact ⟨rfl, rfl, fun h0 => by rw [hplan] at h0; cases h0⟩
      · exact ⟨Nor.size_erase _ _ _, rfl, fun h0 => by rw [hplan] at h0; cases h0⟩
    · next done _ hplan =>
      cases done
      · exact ⟨rfl, rfl, fun h0 => by rw [hplan] at h0; cases h0⟩
      · exact ⟨Nor.size_erase _ _ _, rfl, fun h0 => by rw [hplan] at h0; cases h0⟩
    · exact ⟨rfl, rfl, fun h0 => by rw [h0]; rfl⟩
  · exact ⟨rfl, rfl, fun h0 => by rw [h0]; rfl⟩

/-- A change of the device that the view does not see. -/
theorem FrameInv.withDev {w : World} {d : Device} (hw : I w)
    (hd : d.size = w.dev.size ∧ d.programGranule = w.dev.programGranule ∧ (w.dev.plan = [] → d.plan = [])) :
    I { w with dev := d } := by
  refine FrameInv.ofView (w := w) ?_ hw
  simp only [ramView, hd.1, hd.2.1]

instance (off : Nat) (bs : List Nor.Byte) :
    Keeps I (backendProgram off bs) := by
  constructor
  intro w hw
  have hshape := w.dev.program_shape off bs
  simp only [backendProgram]
  split
  · next hd => exact FrameInv.withDev hw (by rw [hd] at hshape; exact hshape)
  · next hd => exact FrameInv.withDev hw (by rw [hd] at hshape; exact hshape)

instance (off n : Nat) : Keeps I (backendErase off n) := by
  constructor
  intro w hw
  have hshape := w.dev.erase_shape off n
  simp only [backendErase]
  split
  · next hd => exact FrameInv.withDev hw (by rw [hd] at hshape; exact hshape)
  · next hd => exact FrameInv.withDev hw (by rw [hd] at hshape; exact hshape)

instance (granule fuel pos : Nat) (src : List Nor.Byte) :
    Keeps I (programChunks granule fuel pos src) := by
  induction fuel generalizing pos src with
  | zero => unfold programChunks; infer_instance
  | succ fuel ih => unfold programChunks; infer_instance

instance (off : Nat) (bs : List Nor.Byte) : Keeps I (programAligned off bs) := by
  unfold programAligned; infer_instance

/-! ## Sectors and records -/

instance (sector : Nat) : Keeps I (tombstoneSector sector) := by
  unfold tombstoneSector; infer_instance

instance (sector : Nat) : Keeps I (markSectorFull sector) := by
  unfold markSectorFull; infer_instance

instance (size : Nat) : Keeps I (modifyFs (fsinfoNoteCommittedAdd size)) := by
  apply keeps_modifyFs
  intro w
  unfold fsinfoNoteCommittedAdd
  split <;> rfl

instance (size : Nat) : Keeps I (modifyFs (fsinfoNoteCommittedDelete size)) := by
  apply keeps_modifyFs
  intro w
  unfold fsinfoNoteCommittedDelete
  split
  · rfl
  · split <;> rfl

instance : Keeps I (modifyFs fsinfoInvalidateCommitted) := keeps_modifyFs fun _ => rfl

instance (sector slot : Nat) (d : Bool) (fuel : Nat) (reader : SectorReader) (walk : MdWalk) :
    Keeps I (tombstoneMetadataLoop sector slot d fuel reader walk) := by
  induction fuel generalizing reader walk with
  | zero => unfold tombstoneMetadataLoop; infer_instance
  | succ fuel ih => unfold tombstoneMetadataLoop; infer_instance

instance (sector slot : Nat) (d : Bool) : Keeps I (tombstoneMetadataForSlot sector slot d) := by
  unfold tombstoneMetadataForSlot; infer_instance

instance (sector slot : Nat) (normal : Bool) (fuel : Nat) (reader : SectorReader) (walk : MdWalk)
    (scan : WindowScan) : Keeps I (freeWindowLoop sector slot normal fuel reader walk scan) := by
  induction fuel generalizing reader walk scan with
  | zero => unfold freeWindowLoop; infer_instance
  | succ fuel ih =>
    unfold freeWindowLoop
    split
    · infer_instance
    · refine Keeps.bind (k := fun r => ?_)
      dsimp only
      split <;> infer_instance

instance [NarrowInv I] (sector minFree slot : Nat) (normal : Bool) :
    Keeps I (findSectorFreeWindow sector minFree slot normal) := by
  unfold findSectorFreeWindow
  refine Keeps.bind (k := fun fs => ?_)
  split
  · infer_instance
  · refine Keeps.bind (k := fun view => ?_)
    dsimp only
    split <;> infer_instance

instance : Keeps I claimSectorSerial := by
  have h : ∀ f : Fs → Nat, Keeps I (modifyFs fun fs => { fs with nextSectorSerial := f fs }) :=
    fun _ => keeps_modifyFs fun _ => rfl
  unfold claimSectorSerial
  exact Keeps.bind (k := fun fs => Keeps.bind (j := h _))

/-! ## The index in RAM -/

variable [Opts]

/-! ## The index log -/

instance (off slot head : Nat) : Keeps I (programIndexRecordAt off slot head) := by
  unfold programIndexRecordAt; infer_instance

instance (off n shift serial : Nat) : Keeps I (programIndexHeader off n shift serial) := by
  unfold programIndexHeader; infer_instance

instance (sector : Nat) : Keeps I (tombstoneIndexSector sector) := by
  unfold tombstoneIndexSector; infer_instance

instance : Keeps I rotateIndexBegin := by
  constructor
  intro w hw
  have hpos := FrameInv.indexSectors_pos hw
  have hlt : (if w.fs.activeIndexSector + 1 ≥ w.fs.indexSectors then 0
      else w.fs.activeIndexSector + 1) < w.fs.indexSectors := by
    split <;> omega
  have hrest : ∀ f : Fs → Fs, (∀ w : World, ramView { w with fs := f w.fs } = ramView w) →
      ∀ off n, Keeps I (do backendErase off n; modifyFs f) :=
    fun f hf off n => Keeps.bind (k := fun _ => keeps_modifyFs hf)
  exact (hrest _ (fun _ => rfl) _ _).keeps _ (FrameInv.noteErase hlt hw)

instance : Keeps I rotateIndexCommit := by
  unfold rotateIndexCommit; infer_instance

/-- Moving the end of the log. -/
instance (f : Fs → Nat) : Keeps I (modifyFs fun fs => { fs with nextIndexOffset := f fs }) :=
  keeps_modifyFs fun _ => rfl

instance (slot head : Nat) : Keeps I (appendIndexAtEnd slot head) := by
  unfold appendIndexAtEnd; infer_instance

instance (pending : Bool) : Keeps I (indexRecordWriterRoom pending) := by
  unfold indexRecordWriterRoom; infer_instance

instance (pending : Bool) (slot head : Nat) :
    Keeps I (indexRecordWriterAppend pending slot head) := by
  unfold indexRecordWriterAppend; infer_instance

instance (reader : IndexRecordReader) (sourceEnd fuel off : Nat) (pending : Bool) :
    Keeps I (compactCopyLoop sourceEnd fuel reader off pending) := by
  induction fuel generalizing reader off pending with
  | zero => unfold compactCopyLoop; infer_instance
  | succ fuel ih => unfold compactCopyLoop; infer_instance

instance : Keeps I indexCompactOldestCopy := by
  unfold indexCompactOldestCopy; infer_instance

instance (source : Nat) : Keeps I (indexCompactOldestFinish source) := by
  unfold indexCompactOldestFinish
  exact Keeps.bind (k := fun _ => keeps_modifyFs fun _ => rfl)

instance : Keeps I indexCompactOldest := by
  unfold indexCompactOldest; infer_instance

instance : Keeps I rotateIndex := by
  unfold rotateIndex; infer_instance

instance : Keeps I appendIndexRoom := by
  unfold appendIndexRoom; infer_instance

instance (slot head : Nat) : Keeps I (appendIndexRecord slot head) := by
  unfold appendIndexRecord; infer_instance

/-! ## Counts and chains -/

instance : Keeps I fsinfoRefresh := by
  unfold fsinfoRefresh
  refine Keeps.bind (k := fun counts => ?_)
  split
  · infer_instance
  · exact keeps_modifyFs fun _ => rfl

instance (refresh refreshIfNeeded estimate : Bool) :
    Keeps I (fsinfo refresh refreshIfNeeded estimate) := by
  unfold fsinfo; infer_instance

instance (sector : Nat) (r : MdRecord) : Keeps I (gcClassifyRecord sector r) := by
  unfold gcClassifyRecord
  split
  · infer_instance
  · refine Keeps.bind (k := fun w => ?_)
    split
    · infer_instance
    · refine Keeps.bind (k := fun head => ?_)
      split <;> infer_instance

instance (chunk fuel src dst remaining : Nat) :
    Keeps I (copyRootDataLoop chunk fuel src dst remaining) := by
  induction fuel generalizing src dst remaining with
  | zero => unfold copyRootDataLoop; infer_instance
  | succ fuel ih => unfold copyRootDataLoop; infer_instance

instance (source : Nat) (r : MdRecord) (dest off : Nat) :
    Keeps I (gcCopyRootData source r dest off) := by
  unfold gcCopyRootData; infer_instance

instance (c : CompactionCandidate) : Keeps I (gcFsinfoAllowsCompaction c) := by
  unfold gcFsinfoAllowsCompaction; infer_instance

instance (slot n s : Nat) (first accounted : Bool) :
    Keeps I (tombstoneSpan slot n s first accounted) := by
  induction n generalizing s first accounted with
  | zero => unfold tombstoneSpan; infer_instance
  | succ n ih =>
    unfold tombstoneSpan
    refine Keeps.bind (k := fun r => ?_)
    split <;> infer_instance

/-! ## Replay -/

instance : Keeps I indexFinishInterruptedCompaction := by
  unfold indexFinishInterruptedCompaction; infer_instance

instance (recOff : Nat) (terminal : Bool) : Keeps I (clobberOrRejectActiveTail recOff terminal) := by
  unfold clobberOrRejectActiveTail; infer_instance

instance (active : Bool) (off nread endOff : Nat) (chunk : List Nor.Byte) (fuel pos tail : Nat) :
    Keeps I (replayChunk active off nread endOff chunk fuel pos tail) := by
  induction fuel generalizing pos tail with
  | zero => unfold replayChunk; infer_instance
  | succ fuel ih => unfold replayChunk; infer_instance

instance (active : Bool) (endOff chunkSize fuel off tail : Nat) :
    Keeps I (replaySector active endOff chunkSize fuel off tail) := by
  induction fuel generalizing off tail with
  | zero => unfold replaySector; infer_instance
  | succ fuel ih => unfold replaySector; infer_instance

instance (n sector tail : Nat) : Keeps I (replaySectors n sector tail) := by
  induction n generalizing sector tail with
  | zero => unfold replaySectors; infer_instance
  | succ n ih => unfold replaySectors; infer_instance

instance (sector : Nat) : Keeps I (recoverSectorSerial sector) := by
  unfold recoverSectorSerial
  refine Keeps.bind (k := fun fs => Keeps.bind (k := fun r => ?_))
  have hset : ∀ f : Fs → Nat, Keeps I (modifyFs fun fs => { fs with nextSectorSerial := f fs }) :=
    fun _ => keeps_modifyFs fun _ => rfl
  split <;> infer_instance

instance (n sector : Nat) : Keeps I (recoverAllocatorLoop n sector) := by
  induction n generalizing sector with
  | zero => unfold recoverAllocatorLoop; infer_instance
  | succ n ih => unfold recoverAllocatorLoop; infer_instance

instance (head : Nat) : Keeps I (recoverAllocatorHint head) := by
  unfold recoverAllocatorHint
  exact Keeps.bind (j := keeps_modifyFs fun _ => rfl)

instance : Keeps I replayIndex := by
  unfold replayIndex; infer_instance

end Fastffs
