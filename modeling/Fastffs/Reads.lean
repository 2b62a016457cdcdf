import Fastffs.Api

/-!
# Programs that only read

A read of the flash uses up one answer of the device's plan and changes nothing
else.  `ReadInv I` says that `I` does not mind.  Every program here keeps every
such invariant.  On a device that never fails, such a program does not change the
world at all (`run_of_reads`).
-/

namespace Fastffs

open Prog

/-- The device after a call that changes no byte. -/
def Device.advance (d : Device) : Device := { d with plan := nextPlan d.plan }

theorem Device.read_snd (d : Device) (off n : Nat) : (d.read off n).2 = d.advance := by
  unfold Device.read Device.advance
  dsimp only
  split
  · split <;> rfl
  · split <;> rfl
  · rfl

theorem Device.advance_of_plan {d : Device} (h : d.plan = []) : d.advance = d := by
  unfold Device.advance
  rw [h]
  cases d
  simp_all [nextPlan]

/-- An invariant that a read of the flash keeps. -/
class ReadInv (I : World → Prop) : Prop where
  ofRead : ∀ {w}, I w → I { w with dev := w.dev.advance }

/-- An invariant that also does not see the index cache. -/
class CacheInv (I : World → Prop) : Prop extends ReadInv I where
  ofCache : ∀ {w buckets heads}, I w →
    I { w with fs := { w.fs with buckets := buckets, indexHeads := heads } }

instance {I : World → Prop} : Keeps I getFs := ⟨fun _ hw => hw⟩

instance {I : World → Prop} (h : Nat) : Keeps I (getFile h) := ⟨fun _ hw => hw⟩

/-- The world stays as it is. -/
def Unchanged (w0 w : World) : Prop := w0.dev.plan = [] → w = w0

instance (w0 : World) : ReadInv (Unchanged w0) where
  ofRead := by
    intro w hw hplan
    have hw0 := hw hplan
    subst hw0
    rw [Device.advance_of_plan hplan]

/-- On a device that never fails a program that only reads leaves the world alone. -/
theorem run_of_reads {α : Type} {x : M α} {w : World} (hplan : w.dev.plan = [])
    [hx : Keeps (Unchanged w) x] : (x.run w).2 = w :=
  hx.keeps w (fun _ => rfl) hplan

variable {I : World → Prop} [ReadInv I]

/-! ## Flash -/

instance (off n : Nat) : Keeps I (flashRead off n) := by
  constructor
  intro w hw
  have hdev := Device.read_snd w.dev off n
  have hw' := ReadInv.ofRead hw
  simp only [flashRead]
  split
  · next bs d hr =>
    rw [hr] at hdev
    exact (show d = _ from hdev) ▸ hw'
  · next d hr =>
    rw [hr] at hdev
    exact (show d = _ from hdev) ▸ hw'

instance (chunk fuel off size : Nat) : Keeps I (spanIsErasedLoop chunk fuel off size) := by
  induction fuel generalizing off size with
  | zero => unfold spanIsErasedLoop; infer_instance
  | succ fuel ih => unfold spanIsErasedLoop; infer_instance

instance (off size : Nat) : Keeps I (flashSpanIsErased off size) := by
  unfold flashSpanIsErased; infer_instance

/-! ## Sectors and records -/

instance (reader : SectorReader) (sector off size : Nat) :
    Keeps I (sectorReaderView reader sector off size) := by
  unfold sectorReaderView; infer_instance

instance (reader : SectorReader) (sector : Nat) : Keeps I (readSectorFooter reader sector) := by
  unfold readSectorFooter; infer_instance

instance (sector : Nat) : Keeps I (readSectorSerial sector) := by
  unfold readSectorSerial; infer_instance

instance (reader : SectorReader) (sector cursor : Nat) :
    Keeps I (decodeFileMdRecord reader sector cursor) := by
  unfold decodeFileMdRecord; infer_instance

instance (reader : SectorReader) (sector : Nat) : Keeps I (mdWalkInit reader sector) := by
  unfold mdWalkInit; infer_instance

instance (reader : SectorReader) (walk : MdWalk) : Keeps I (mdWalkNext reader walk) := by
  unfold mdWalkNext; infer_instance

instance (slot : Nat) (m : MdSlotMatch) (fuel : Nat) (reader : SectorReader) (walk : MdWalk) :
    Keeps I (readMdForSlotLoop slot m fuel reader walk) := by
  induction fuel generalizing reader walk with
  | zero => unfold readMdForSlotLoop; infer_instance
  | succ fuel ih => unfold readMdForSlotLoop; infer_instance

instance (sector slot : Nat) (m : MdSlotMatch) : Keeps I (readMdForSlotBy sector slot m) := by
  unfold readMdForSlotBy; infer_instance

instance (sector slot : Nat) : Keeps I (readMdForSlot sector slot) := by
  unfold readMdForSlot; infer_instance

instance (sector slot : Nat) : Keeps I (readUncommittedMetadataForSlot sector slot) := by
  unfold readUncommittedMetadataForSlot; infer_instance

instance (sector slot : Nat) : Keeps I (readFileRootMd sector slot) := by
  unfold readFileRootMd; infer_instance

instance (sector : Nat) (r : MdRecord) (useCache : Bool) :
    Keeps I (readRootPrefix sector r useCache) := by
  unfold readRootPrefix; infer_instance

instance (sector slot : Nat) (useCache : Bool) :
    Keeps I (readFileRootMdPrefix sector slot useCache) := by
  unfold readFileRootMdPrefix; infer_instance

/-! ## The index in RAM -/

instance (off : Nat) : Keeps I (readIndexRecord off) := by
  unfold readIndexRecord; infer_instance

instance (reader : IndexRecordReader) (off : Nat) : Keeps I (indexRecordReaderLoad reader off) := by
  unfold indexRecordReaderLoad; infer_instance

instance (reader : IndexRecordReader) (off : Nat) : Keeps I (readCompactSourceRecord reader off) := by
  unfold readCompactSourceRecord; infer_instance

instance (slot endOff fuel off : Nat) : Keeps I (newerInSector slot endOff fuel off) := by
  induction fuel generalizing off with
  | zero => unfold newerInSector; infer_instance
  | succ fuel ih => unfold newerInSector; infer_instance

instance (slot n seqPos off : Nat) : Keeps I (newerRecordLoop slot n seqPos off) := by
  induction n generalizing seqPos off with
  | zero => unfold newerRecordLoop; infer_instance
  | succ n ih => unfold newerRecordLoop; infer_instance

instance (seqPos off slot : Nat) : Keeps I (newerRecordForSlot seqPos off slot) := by
  unfold newerRecordForSlot; infer_instance

instance (slot begin_ fuel off : Nat) : Keeps I (lastInSector slot begin_ fuel off) := by
  induction fuel generalizing off with
  | zero => unfold lastInSector; infer_instance
  | succ fuel ih => unfold lastInSector; infer_instance

instance (slot n : Nat) : Keeps I (headForSlotScan slot n) := by
  induction n with
  | zero => unfold headForSlotScan; infer_instance
  | succ n ih =>
    unfold headForSlotScan
    refine Keeps.bind (k := fun fs => Keeps.bind (k := fun last => ?_))
    split <;> infer_instance

instance (seqPos endOff fuel off : Nat) (it : IndexIter) :
    Keeps I (currentEntryInSector seqPos endOff fuel off it) := by
  induction fuel generalizing off it with
  | zero => unfold currentEntryInSector; infer_instance
  | succ fuel ih => unfold currentEntryInSector; infer_instance

instance (n seqPos off : Nat) (it : IndexIter) : Keeps I (currentEntryLoop n seqPos off it) := by
  induction n generalizing seqPos off it with
  | zero => unfold currentEntryLoop; infer_instance
  | succ n ih =>
    unfold currentEntryLoop
    refine Keeps.bind (k := fun fs => Keeps.bind (k := fun r => ?_))
    dsimp only
    split <;> infer_instance

instance (it : IndexIter) : Keeps I (currentIndexEntryRead it) := by
  unfold currentIndexEntryRead; infer_instance

variable [Opts]

instance (slot : Nat) : Keeps I (indexHeadForSlot slot) := by
  unfold indexHeadForSlot
  refine Keeps.bind (k := fun fs => ?_)
  split
  · infer_instance
  · infer_instance
  · split
    · infer_instance
    · split <;> infer_instance

instance (seqPos off slot head : Nat) : Keeps I (indexRecordIsCurrent seqPos off slot head) := by
  unfold indexRecordIsCurrent
  split <;> infer_instance

instance (it : IndexIter) : Keeps I (indexIterRead it) := by
  unfold indexIterRead
  refine Keeps.bind (k := fun fs => ?_)
  split <;> infer_instance

instance (name : List Nor.Byte) (useCache : Bool) (n candidate : Nat) (free : Option Nat) :
    Keeps I (resolveProbe name useCache n candidate free) := by
  induction n generalizing candidate free with
  | zero =>
    unfold resolveProbe
    split <;> infer_instance
  | succ n ih =>
    unfold resolveProbe
    refine Keeps.bind (k := fun head => ?_)
    split <;> infer_instance

instance (base : Nat) (occupied : List Nat) (n d : Nat) :
    Keeps I (resolveReachedSlot base occupied n d) := by
  induction n generalizing d with
  | zero => unfold resolveReachedSlot; infer_instance
  | succ n ih => unfold resolveReachedSlot; infer_instance

instance (name : List Nor.Byte) (useCache : Bool) (base begin_ fuel off : Nat) (sets : ProbeSets) :
    Keeps I (resolveInSector name useCache base begin_ fuel off sets) := by
  induction fuel generalizing off sets with
  | zero => unfold resolveInSector; infer_instance
  | succ fuel ih =>
    unfold resolveInSector
    split
    · refine Keeps.bind (k := fun fs => Keeps.bind (k := fun r => ?_))
      split
      · infer_instance
      · split <;> infer_instance
    · infer_instance

instance (name : List Nor.Byte) (useCache : Bool) (base n : Nat) (sets : ProbeSets) :
    Keeps I (resolveScan name useCache base n sets) := by
  induction n generalizing sets with
  | zero => unfold resolveScan; infer_instance
  | succ n ih =>
    unfold resolveScan
    refine Keeps.bind (k := fun fs => Keeps.bind (k := fun r => ?_))
    dsimp only
    split <;> infer_instance

instance (name : List Nor.Byte) (useCache : Bool) : Keeps I (indexResolve name useCache) := by
  unfold indexResolve
  dsimp only
  split
  · infer_instance
  · split
    · infer_instance
    · split <;> infer_instance

/-! ## Counts and chains -/

instance (fuel : Nat) (it : IndexIter) (files bytes : Nat) :
    Keeps I (fsinfoCountLoop fuel it files bytes) := by
  induction fuel generalizing it files bytes with
  | zero => unfold fsinfoCountLoop; infer_instance
  | succ fuel ih =>
    unfold fsinfoCountLoop
    refine Keeps.bind (k := fun r => ?_)
    dsimp only
    split <;> infer_instance

instance (slot sector depth current : Nat) : Keeps I (reachableLoop slot sector depth current) := by
  induction depth generalizing current with
  | zero => unfold reachableLoop; infer_instance
  | succ depth ih => unfold reachableLoop; infer_instance

instance (slot head sector : Nat) : Keeps I (sectorIsReachableFromChain slot head sector) := by
  unfold sectorIsReachableFromChain; infer_instance

instance (sector fuel : Nat) (it : IndexIter) : Keeps I (paranoidLoop sector fuel it) := by
  induction fuel generalizing it with
  | zero => unfold paranoidLoop; infer_instance
  | succ fuel ih =>
    unfold paranoidLoop
    refine Keeps.bind (k := fun r => ?_)
    dsimp only
    split <;> infer_instance

instance (sector : Nat) : Keeps I (gcParanoidReachable sector) := by
  unfold gcParanoidReachable; infer_instance

/-! ## Replay -/

instance (fuel off size : Nat) : Keeps I (indexFlashSpanErased fuel off size) := by
  induction fuel generalizing off size with
  | zero => unfold indexFlashSpanErased; infer_instance
  | succ fuel ih => unfold indexFlashSpanErased; infer_instance

instance (recOff : Nat) (chunk : List Nor.Byte) (pos nread endOff : Nat) :
    Keeps I (activeIndexRecordIsTerminal recOff chunk pos nread endOff) := by
  unfold activeIndexRecordIsTerminal; infer_instance

instance (r : IndexRecord) : Keeps I (replayRootIsLive r) := by
  unfold replayRootIsLive; infer_instance

instance (t : Nat) (footer : SectorFooter) :
    Keeps I (gcFooterVerdict t footer) := by
  unfold gcFooterVerdict
  refine Keeps.bind (k := fun fs => ?_)
  split
  · refine Keeps.bind (k := fun r => ?_)
    split <;> infer_instance
  · infer_instance

instance (t : Nat) (result : MdWalkResult) (wanted : Bool) :
    Keeps I (gcImmediateFree t result wanted) := by
  unfold gcImmediateFree
  refine Keeps.bind (k := fun fs => ?_)
  dsimp only
  split
  · refine Keeps.bind (k := fun r => ?_)
    split <;> infer_instance
  · infer_instance

instance (t : Nat) (result : MdWalkResult) :
    Keeps I (gcCheckEndInvalid t result) := by
  unfold gcCheckEndInvalid; infer_instance

/-! ## Names -/

variable {h : Nat}

instance : Keeps I (fstat h) := by
  unfold fstat
  refine Keeps.bind (k := fun file => ?_)
  split
  · infer_instance
  · split <;> infer_instance

instance (name : List Nor.Byte) : Keeps I (stat name) := by
  unfold stat
  refine Keeps.bind (k := fun resolved => ?_)
  split <;> infer_instance

instance (fuel : Nat) (dir : Dir) : Keeps I (dirReadLoop fuel dir) := by
  induction fuel generalizing dir with
  | zero => unfold dirReadLoop; infer_instance
  | succ fuel ih =>
    unfold dirReadLoop
    refine Keeps.bind (k := fun r => ?_)
    dsimp only
    split <;> infer_instance

instance (dir : Dir) : Keeps I (dirRead dir) := by
  unfold dirRead; infer_instance

instance (fuel : Nat) (dir : Dir) : Keeps I (listLoop fuel dir) := by
  induction fuel generalizing dir with
  | zero => unfold listLoop; infer_instance
  | succ fuel ih =>
    unfold listLoop
    refine Keeps.bind (k := fun r => ?_)
    dsimp only
    split <;> infer_instance

instance : Keeps I list := by
  unfold list dirOpen; infer_instance

/-! ## Discovery -/

instance (locked : IndexHeader) (off : Nat) (hdr : List Nor.Byte) (n i : Nat) (scan : HeaderScan) :
    Keeps I (scanIndexHeaders locked off hdr n i scan) := by
  induction n generalizing i scan with
  | zero => unfold scanIndexHeaders; infer_instance
  | succ n ih =>
    unfold scanIndexHeaders
    refine Keeps.bind (k := fun hdr => ?_)
    split <;> infer_instance

instance (shift off : Nat) : Keeps I (discoverAt shift off) := by
  unfold discoverAt
  refine Keeps.bind (k := fun w => ?_)
  split
  · infer_instance
  · refine Keeps.bind (k := fun hdr => ?_)
    split
    · infer_instance
    · split
      · infer_instance
      · refine Keeps.bind (k := fun scan => ?_)
        split <;> infer_instance

instance (fuel probe : Nat) : Keeps I (discoverLoop fuel probe) := by
  induction fuel generalizing probe with
  | zero => unfold discoverLoop; infer_instance
  | succ fuel ih =>
    unfold discoverLoop
    split
    · infer_instance
    · refine Keeps.bind (k := fun w => ?_)
      split
      · infer_instance
      · refine Keeps.bind (k := fun r => ?_)
        split
        · infer_instance
        · refine Keeps.bind (k := fun r => ?_)
          split <;> infer_instance

instance : Keeps I findIndexSequence := by
  unfold findIndexSequence; infer_instance

/-! ## The index cache -/

section Cache

variable {J : World → Prop} [CacheInv J]

instance (slot head : Nat) : Keeps J (indexInsert slot head) := by
  unfold indexInsert
  refine Keeps.bind (k := fun fs => ?_)
  split
  · infer_instance
  · exact ⟨fun _ hw => CacheInv.ofCache hw⟩
  · split
    · infer_instance
    · split
      · exact ⟨fun _ hw => CacheInv.ofCache hw⟩
      · infer_instance

instance (slot : Nat) : Keeps J (indexRemove slot) := by
  unfold indexRemove
  refine Keeps.bind (k := fun fs => ?_)
  split
  · infer_instance
  · exact ⟨fun _ hw => CacheInv.ofCache hw⟩
  · split
    · infer_instance
    · split
      · split
        · exact ⟨fun _ hw => CacheInv.ofCache hw⟩
        · infer_instance
      · infer_instance

instance (slot head : Nat) : Keeps J (indexSet slot head) := by
  unfold indexSet; infer_instance

end Cache

/-! ## Reading through a handle -/

/-- A change of a handle that keeps its access and its reservation. -/
def Moves (g : File → File) : Prop :=
  ∀ f, (g f).access = f.access ∧ (g f).reserveFirst = f.reserveFirst ∧ (g f).reserveCount = f.reserveCount

/-- An invariant that the moves of a reader keep. -/
class ReaderInv (h : Nat) (I : World → Prop) : Prop extends ReadInv I where
  ofMove : ∀ {g}, Moves g → Keeps I (modifyFile h g)

section Reader

variable {h : Nat} {J : World → Prop} [ReaderInv h J]

omit [Opts] in
theorem keeps_move {g : File → File} (hg : Moves g) : Keeps J (modifyFile h g) := ReaderInv.ofMove hg

instance : Keeps J (resetReadPositionToRoot h) := by
  unfold resetReadPositionToRoot
  exact Keeps.bind (k := fun _ => Keeps.bind (k := fun _ => keeps_move fun _ => ⟨rfl, rfl, rfl⟩))

instance (target rel estimate fuel low high : Nat) :
    Keeps J (huntLoop h target rel estimate fuel low high) := by
  have henter : ∀ sector (r : MdRecord) off, Keeps J (modifyFile h fun f =>
      { f.enter sector r off (target - off) with pos := target }) :=
    fun _ _ _ => keeps_move fun _ => ⟨rfl, rfl, rfl⟩
  induction fuel generalizing low high with
  | zero => unfold huntLoop; infer_instance
  | succ fuel ih => unfold huntLoop; infer_instance

instance (target : Nat) : Keeps J (huntCurrentSpan h target) := by
  unfold huntCurrentSpan; infer_instance

instance (target depth : Nat) : Keeps J (seekLoop h target depth) := by
  have hset : Keeps J (modifyFile h fun f =>
      { f with currentDataPos := target - f.currentFileOffset, pos := target }) :=
    keeps_move fun _ => ⟨rfl, rfl, rfl⟩
  have henter : ∀ sector (r : MdRecord), Keeps J (modifyFile h fun f =>
      f.enter sector r (u32 (f.currentFileOffset + f.currentDataLen)) 0) :=
    fun _ _ => keeps_move fun _ => ⟨rfl, rfl, rfl⟩
  induction depth with
  | zero => unfold seekLoop; infer_instance
  | succ depth ih => unfold seekLoop; infer_instance

instance (target : Nat) : Keeps J (seekReadPosition h target) := by
  unfold seekReadPosition; infer_instance

instance (offset : Int) (whence : Whence) : Keeps J (seek h offset whence) := by
  unfold seek; infer_instance

instance : Keeps J (fillReadCache h) := by
  have hset : ∀ bs, Keeps J (modifyFile h fun f => { f with cacheDataPos := f.currentDataPos, cache := bs }) :=
    fun _ => keeps_move fun _ => ⟨rfl, rfl, rfl⟩
  have hspoil : ∀ (w : World) n, Keeps J (modifyFile h fun f => { f with cache := spoil w.dev.plan n f.cache }) :=
    fun _ _ => keeps_move fun _ => ⟨rfl, rfl, rfl⟩
  refine Keeps.bind (k := fun w => Keeps.bind (k := fun r => ?_))
  cases r with
  | ok bs => exact hset bs
  | error e => exact Keeps.bind (j := hspoil w _)

instance : Keeps J (readNextExtent h) := by
  have hset : ∀ r : MdRecord, Keeps J (modifyFile h fun f =>
      f.enter f.nextSector r (u32 (f.currentFileOffset + f.currentDataLen)) 0) :=
    fun _ => keeps_move fun _ => ⟨rfl, rfl, rfl⟩
  unfold readNextExtent; infer_instance

instance (want : Nat) : Keeps J (readRound h want) := by
  have hset : Keeps J (modifyFile h fun f => { f with cache := [] }) :=
    keeps_move fun _ => ⟨rfl, rfl, rfl⟩
  unfold readRound; infer_instance

instance (fuel want : Nat) : Keeps J (readLoop h fuel want) := by
  have hset : ∀ n : Nat, Keeps J (modifyFile h fun f =>
      { f with currentDataPos := u32 (f.currentDataPos + n), pos := u32 (f.pos + n) }) :=
    fun _ => keeps_move fun _ => ⟨rfl, rfl, rfl⟩
  induction fuel generalizing want with
  | zero => unfold readLoop; infer_instance
  | succ fuel ih => unfold readLoop; infer_instance

instance (size : Nat) : Keeps J (read h size) := by
  unfold read; infer_instance

end Reader

end Fastffs
