import Fastffs.Counted
import Fastffs.Frame
import Fastffs.Run

/-!
# The index area

The programs above the index write to data sectors, and they change the log only by
`fffs_append_index_record`.  `LogInv I` says that `I` speaks about the index sectors and
the index in RAM only, and that it allows an append.  Every call of the API but a mount
keeps every such invariant, as long as the writers stay in data sectors (`Placed`).
-/

namespace Fastffs

open Prog
open Nor (Mem Byte blank)

/-! ## The index in a world -/

/-- The file system without what the index does not use. -/
def indexFs (fs : Fs) : Fs :=
  { fs with
    openFiles := [], allocMap := fun _ => false, allocCursor := 0, gcCursor := 0, compactionReserve := []
    gcMd := {}, compactionCandidates := [], nextSectorSerial := 0, committedFilesValid := false
    committedBytesValid := false, committedFileCount := 0, committedDataBytes := 0, avgSectorsPerFileQ8 := 0 }

/-- The two worlds have the same index: the bytes below `limit`, and the index in RAM. -/
structure SameArea (limit : Nat) (w w' : World) : Prop where
  plan : w.dev.plan = [] → w'.dev.plan = []
  size : w'.dev.mem.size = w.dev.mem.size
  granule : w'.dev.programGranule = w.dev.programGranule
  area : ∀ a < limit, Nor.get w'.dev.mem a = Nor.get w.dev.mem a
  index : indexFs w'.fs = indexFs w.fs

/-- A data sector. -/
def InData (n c s : Nat) : Prop := n ≤ s ∧ s < c

/-- A slot that a name can have. -/
def NameSlot (slot : Nat) : Prop := slot ≠ 0 ∧ slot < uint16Max

/-- A record that a call may append: a delete, or a head in a data sector. -/
def Written (n c slot head : Nat) : Prop :=
  slot < 65536 ∧ (head = 0 ∧ NameSlot slot ∨ InData n c head)

variable [Opts]

/-- An invariant of the index that an append keeps, for `n` index sectors of `size` bytes
and `c` sectors. -/
class LogInv (n size c : Nat) (I : World → Prop) : Prop where
  ofArea : ∀ {w w'}, SameArea (n * size) w w' → I w → I w'
  append : ∀ {w slot head}, Written n c slot head → I w → I ((appendIndexRecord slot head).run w).2

/-- The open handles, the handles a call is about to open, and the access each has. -/
structure Opened where
  handles : List Nat
  starting : List Nat := []
  access : Nat → Access

/-- The sectors of a writer are data sectors. -/
def File.placed (n c : Nat) (file : File) : Prop := InData n c file.current ∧ InData n c file.head

/-- The reservation of a handle is in data sectors. -/
def File.reservedIn (n c : Nat) (file : File) : Prop :=
  file.reserveCount ≠ 0 → n ≤ file.reserveFirst ∧ file.reserveFirst + file.reserveCount ≤ c

/-- The invariant holds and the handles of `L` are open.  The writers and their
reservations are in data sectors. -/
structure Placed (n size c : Nat) (L : Opened) (I : World → Prop) (w : World) : Prop where
  inv : I w
  indexSectors : w.fs.indexSectors = n
  sectorSize : w.fs.sectorSize = size
  sectorCount : w.fs.sectorCount = c
  size_ge : 256 ≤ size
  count_le : c ≤ uint16Max
  opened : w.fs.openFiles = L.handles
  access : ∀ h ∈ L.starting ++ L.handles, (w.files h).access = L.access h
  slots : ∀ h ∈ L.starting ++ L.handles, L.access h = .wronly → NameSlot (w.files h).slot
  writers : ∀ h ∈ L.handles, L.access h = .wronly → (w.files h).placed n c
  reserved : ∀ h, (w.files h).reservedIn n c

variable {n size c : Nat} {L : Opened} {I : World → Prop} [LogInv n size c I] {w w' : World}

/-- A change that the index does not see. -/
theorem Placed.ofArea (hw : Placed n size c L I w) (h : SameArea (n * size) w w')
    (hopen : w'.fs.openFiles = w.fs.openFiles) (hfiles : w'.files = w.files) : Placed n size c L I w' where
  inv := LogInv.ofArea c h hw.inv
  indexSectors := (congrArg Fs.indexSectors h.index).trans hw.indexSectors
  sectorSize := (congrArg Fs.sectorSize h.index).trans hw.sectorSize
  sectorCount := (congrArg Fs.sectorCount h.index).trans hw.sectorCount
  size_ge := hw.size_ge
  count_le := hw.count_le
  opened := hopen.trans hw.opened
  access := by
    rw [hfiles]
    exact hw.access
  slots := by
    rw [hfiles]
    exact hw.slots
  writers := by
    rw [hfiles]
    exact hw.writers
  reserved := by
    rw [hfiles]
    exact hw.reserved

omit [Opts] [LogInv n size c I] in
theorem SameArea.ofFs {limit : Nat} {fs : Fs} (h : indexFs fs = indexFs w.fs) :
    SameArea limit w { w with fs := fs } := ⟨id, rfl, rfl, fun _ _ => rfl, h⟩

instance : ReadInv (Placed n size c L I) where
  ofRead {w} hw := by
    refine hw.ofArea ⟨fun hplan => ?_, rfl, rfl, fun _ _ => rfl, rfl⟩ rfl rfl
    change Device.nextPlan w.dev.plan = []
    rw [hplan]
    rfl

/-- A change of a part of the file system that is not the index. -/
theorem keeps_indexFs {f : Fs → Fs} (h : ∀ fs, indexFs (f fs) = indexFs fs)
    (hopen : ∀ fs, (f fs).openFiles = fs.openFiles) : Keeps (Placed n size c L I) (modifyFs f) :=
  ⟨fun w hw => hw.ofArea (.ofFs (h w.fs)) (hopen w.fs) rfl⟩

instance (act : Act) : Keeps (Placed n size c L I) (note act) :=
  ⟨fun _ hw => hw.ofArea ⟨id, rfl, rfl, fun _ _ => rfl, rfl⟩ rfl rfl⟩

omit [Opts] [LogInv n size c I] in
theorem yields_getFs : Yields (Placed n size c L I) getFs fun fs =>
    fs.indexSectors = n ∧ fs.sectorSize = size ∧ fs.sectorCount = c ∧ 256 ≤ size :=
  ⟨fun _ hw => hw, fun w a hw ha => by
    cases ha
    exact ⟨hw.indexSectors, hw.sectorSize, hw.sectorCount, hw.size_ge⟩⟩

/-! ## The log -/

/-- What a change of the log leaves alone. -/
structure SameCaller (v w : World) : Prop where
  files : w.files = v.files
  openFiles : w.fs.openFiles = v.fs.openFiles
  indexSectors : w.fs.indexSectors = v.fs.indexSectors
  sectorSize : w.fs.sectorSize = v.fs.sectorSize
  sectorCount : w.fs.sectorCount = v.fs.sectorCount
  scratchSize : w.fs.scratchSize = v.fs.scratchSize
  tableSize : w.fs.indexHashTableSize = v.fs.indexHashTableSize
  strict : w.fs.strict = v.fs.strict
  size : w.dev.size = v.dev.size
  granule : w.dev.programGranule = v.dev.programGranule
  plan : v.dev.plan = [] → w.dev.plan = []

section Caller

variable {v : World}

omit [Opts] in
theorem SameCaller.refl (v : World) : SameCaller v v :=
  ⟨rfl, rfl, rfl, rfl, rfl, rfl, rfl, rfl, rfl, rfl, id⟩

instance : CacheInv (SameCaller v) where
  ofRead h := { h with plan := fun h0 => congrArg Device.nextPlan (h.plan h0) }
  ofCache h := { h with }

omit [Opts] in
theorem SameCaller.withDev {d : Device} (h : SameCaller v w)
    (hd : d.size = w.dev.size ∧ d.programGranule = w.dev.programGranule ∧ (w.dev.plan = [] → d.plan = [])) :
    SameCaller v { w with dev := d } :=
  { h with size := hd.1.trans h.size, granule := hd.2.1.trans h.granule, plan := fun h0 => hd.2.2 (h.plan h0) }

instance (act : Act) : Keeps (SameCaller v) (note act) :=
  ⟨fun _ h => { h with }⟩

instance (off : Nat) (bs : List Byte) : Keeps (SameCaller v) (backendProgram off bs) := by
  constructor
  intro w hw
  have hshape := w.dev.program_shape off bs
  simp only [backendProgram]
  split
  · next hd => exact hw.withDev (by rw [hd] at hshape; exact hshape)
  · next hd => exact hw.withDev (by rw [hd] at hshape; exact hshape)

instance (off len : Nat) : Keeps (SameCaller v) (backendErase off len) := by
  constructor
  intro w hw
  have hshape := w.dev.erase_shape off len
  simp only [backendErase]
  split
  · next hd => exact hw.withDev (by rw [hd] at hshape; exact hshape)
  · next hd => exact hw.withDev (by rw [hd] at hshape; exact hshape)

instance (granule fuel pos : Nat) (src : List Byte) :
    Keeps (SameCaller v) (programChunks granule fuel pos src) := by
  induction fuel generalizing pos src with
  | zero => unfold programChunks; infer_instance
  | succ fuel ih => unfold programChunks; infer_instance

instance (off : Nat) (bs : List Byte) : Keeps (SameCaller v) (programAligned off bs) := by
  unfold programAligned; infer_instance

instance : Keeps (SameCaller v) rotateIndexBegin := by
  have hrotated : ∀ s, Keeps (SameCaller v) (modifyFs (rotatedFs s)) :=
    fun _ => ⟨fun _ h => { h with }⟩
  unfold rotateIndexBegin
  infer_instance

instance : Keeps (SameCaller v) rotateIndexCommit := by
  unfold rotateIndexCommit programIndexHeader; infer_instance

instance (slot head : Nat) : Keeps (SameCaller v) (appendIndexAtEnd slot head) := by
  have hnext : Keeps (SameCaller v) (modifyFs fun fs => { fs with nextIndexOffset := fs.nextIndexOffset + 4 }) :=
    ⟨fun _ h => { h with }⟩
  unfold appendIndexAtEnd programIndexRecordAt
  infer_instance

instance (pending : Bool) (slot head : Nat) :
    Keeps (SameCaller v) (indexRecordWriterAppend pending slot head) := by
  unfold indexRecordWriterAppend indexRecordWriterRoom; infer_instance

instance (reader : IndexRecordReader) (sourceEnd fuel off : Nat) (pending : Bool) :
    Keeps (SameCaller v) (compactCopyLoop sourceEnd fuel reader off pending) := by
  induction fuel generalizing reader off pending with
  | zero => unfold compactCopyLoop; infer_instance
  | succ fuel ih => unfold compactCopyLoop; infer_instance

instance (source : Nat) : Keeps (SameCaller v) (indexCompactOldestFinish source) := by
  have hdrop : Keeps (SameCaller v) (modifyFs fun fs => { fs with
      oldestIndexSector := logicalIndexSector fs 1, indexSequenceCount := fs.indexSequenceCount - 1 }) :=
    ⟨fun _ h => { h with }⟩
  unfold indexCompactOldestFinish tombstoneIndexSector
  infer_instance

instance : Keeps (SameCaller v) indexCompactOldestCopy := by
  unfold indexCompactOldestCopy; infer_instance

instance : Keeps (SameCaller v) rotateIndex := by
  unfold rotateIndex; infer_instance

instance (slot head : Nat) : Keeps (SameCaller v) (appendIndexRecord slot head) := by
  unfold appendIndexRecord appendIndexRoom; infer_instance

end Caller

/-- An append keeps what the callers rely on. -/
theorem appendIndexRecord_area {slot head : Nat} (h : Written n c slot head) :
    Keeps (Placed n size c L I) (appendIndexRecord slot head) := by
  constructor
  intro w hw
  have hsame := (inferInstance : Keeps (SameCaller w) (appendIndexRecord slot head)).keeps w (.refl w)
  exact {
    inv := LogInv.append size h hw.inv
    indexSectors := hsame.indexSectors.trans hw.indexSectors
    sectorSize := hsame.sectorSize.trans hw.sectorSize
    sectorCount := hsame.sectorCount.trans hw.sectorCount
    size_ge := hw.size_ge
    count_le := hw.count_le
    opened := hsame.openFiles.trans hw.opened
    access := by
      rw [hsame.files]
      exact hw.access
    slots := by
      rw [hsame.files]
      exact hw.slots
    writers := by
      rw [hsame.files]
      exact hw.writers
    reserved := by
      rw [hsame.files]
      exact hw.reserved }

/-! ## Flash -/

/-- A program above the index sectors. -/
theorem programAligned_area {off : Nat} {bs : List Byte} (h : n * size ≤ off) :
    Keeps (Placed n size c L I) (programAligned off bs) := by
  constructor
  intro w hw
  obtain ⟨m, plan, hm, htorn⟩ := programAligned_tears w off bs
  have hplan : w.dev.plan = [] → ((programAligned off bs).run w).2.dev.plan = [] := by
    intro hw0
    obtain ⟨k, hk⟩ := (inferInstance : Counted (programAligned off bs)).counted w hw0
    exact hk.plan hw0
  rw [hm] at hplan ⊢
  refine hw.ofArea ⟨hplan, htorn.outside.size, rfl, fun a ha => ?_, rfl⟩ rfl rfl
  exact htorn.outside.get a (.inl (by omega))

theorem backendErase_area {off len : Nat} (h : n * size ≤ off) :
    Keeps (Placed n size c L I) (backendErase off len) := by
  constructor
  intro w hw
  have hsame : ∀ m, m = w.dev.mem ∨ m = Nor.erase w.dev.mem off len →
      Placed n size c L I (w.withMem m (Device.nextPlan w.dev.plan)) := by
    intro m hm
    refine hw.ofArea ⟨fun hplan => ?_, ?_, rfl, fun a ha => ?_, rfl⟩ rfl rfl
    · change Device.nextPlan w.dev.plan = []
      rw [hplan]
      rfl
    · rcases hm with rfl | rfl
      · rfl
      · exact Nor.size_erase _ _ _
    · rcases hm with rfl | rfl
      · rfl
      · change Nor.get (Nor.erase w.dev.mem off len) a = _
        rw [Nor.get_erase, if_neg (by omega)]
  have hrun : ((backendErase off len).run w).2 = w.withMem (w.dev.erase off len).2.mem
      (Device.nextPlan w.dev.plan) := by
    obtain ⟨⟨m, g, plan⟩, fs, files, trace⟩ := w
    by_cases hle : off + len ≤ m.size
    · rcases plan with _ | ⟨fault, rest⟩
      · simp only [backendErase, Device.erase, if_pos hle]
        rfl
      · cases fault with
        | pass => simp only [backendErase, Device.erase, if_pos hle]; rfl
        | fail keep done => cases done <;> simp only [backendErase, Device.erase, if_pos hle] <;> rfl
        | cut keep done => cases done <;> simp only [backendErase, Device.erase, if_pos hle] <;> rfl
        | off => simp only [backendErase, Device.erase, if_pos hle]; rfl
    · simp only [backendErase, Device.erase, if_neg hle]
      rfl
  have hmem : (w.dev.erase off len).2.mem = w.dev.mem ∨
      (w.dev.erase off len).2.mem = Nor.erase w.dev.mem off len := by
    unfold Device.erase
    dsimp only
    split
    · split
      · exact .inr rfl
      · exact .inr rfl
      · split
        · exact .inr rfl
        · exact .inl rfl
      · split
        · exact .inr rfl
        · exact .inl rfl
      · exact .inl rfl
    · exact .inl rfl
  rw [hrun]
  exact hsame _ hmem

/-! ## Sectors and records -/

section Sectors

variable {sector : Nat}

omit [Opts] [LogInv n size c I] in
theorem InData.le (h : InData n c sector) (x : Nat) : n * size ≤ sector * size + x :=
  (Nat.mul_le_mul_right size h.1).trans (Nat.le_add_right _ _)

theorem markSectorFull_area (h : InData n c sector) : Keeps (Placed n size c L I) (markSectorFull sector) := by
  refine yields_getFs.bindKeeps fun fs hfs => programAligned_area ?_
  have hle := @InData.le _ size _ _ h 0
  rw [sectorFooterOffset, hfs.2.1, sectorFooterSize]
  omega

theorem tombstoneSector_area (h : InData n c sector) : Keeps (Placed n size c L I) (tombstoneSector sector) := by
  refine yields_getFs.bindKeeps fun fs hfs => programAligned_area ?_
  have hle := @InData.le _ size _ _ h 0
  rw [sectorFooterOffset, hfs.2.1, sectorFooterSize]
  omega

instance (used : Bool) : Keeps (Placed n size c L I) (modifyFs (allocMapMark sector used)) := by
  refine keeps_indexFs (fun fs => ?_) fun fs => ?_
  · unfold allocMapMark
    split
    · split <;> rfl
    · rfl
  · unfold allocMapMark
    split
    · split <;> rfl
    · rfl

instance : Keeps (Placed n size c L I) (allocMapMarkUsed sector) := by
  unfold allocMapMarkUsed; infer_instance

instance : Keeps (Placed n size c L I) (allocMapMarkUnknown sector) := by
  unfold allocMapMarkUnknown; infer_instance

instance (count first : Nat) : Keeps (Placed n size c L I) (allocMapMarkRangeUnknown first count) := by
  induction count generalizing first with
  | zero => unfold allocMapMarkRangeUnknown; infer_instance
  | succ count ih => unfold allocMapMarkRangeUnknown; infer_instance

omit [Opts] [LogInv n size c I] in
theorem inData_of_valid {fs : Fs}
  (hfs : fs.indexSectors = n ∧ fs.sectorSize = size ∧ fs.sectorCount = c ∧ 256 ≤ size)
    (h : validDataSector fs sector = true) : InData n c sector := by
  rw [validDataSector, Bool.and_eq_true, decide_eq_true_eq, decide_eq_true_eq, hfs.1, hfs.2.2.1] at h
  exact h

omit [Opts] [LogInv n size c I] in
/-- A walk starts in a data sector only. -/
theorem mdWalkInit_yields {reader : SectorReader} :
    Yields (Placed n size c L I) (mdWalkInit reader sector) fun _ => InData n c sector := by
  rw [mdWalkInit]
  refine yields_getFs.bind fun fs hfs => Yields.ite (fun _ => .throw _) fun h => .pure ?_
  rw [not_or, Bool.not_eq_false] at h
  exact inData_of_valid hfs h.2

instance (size' : Nat) : Keeps (Placed n size c L I) (modifyFs (fsinfoNoteCommittedDelete size')) := by
  refine keeps_indexFs (fun fs => ?_) fun fs => ?_
  · unfold fsinfoNoteCommittedDelete
    split
    · rfl
    · split <;> rfl
  · unfold fsinfoNoteCommittedDelete
    split
    · rfl
    · split <;> rfl

theorem tombstoneMetadataLoop_area {slot fuel : Nat} {d : Bool} {reader : SectorReader} {walk : MdWalk}
    (h : InData n c sector) :
    Keeps (Placed n size c L I) (tombstoneMetadataLoop sector slot d fuel reader walk) := by
  have hprog : ∀ fs : Fs, fs.sectorSize = size → ∀ x bs,
      Keeps (Placed n size c L I) (programAligned (sector * fs.sectorSize + x) bs) := by
    intro fs hfs x bs
    rw [hfs]
    exact programAligned_area (h.le x)
  induction fuel generalizing reader walk with
  | zero => unfold tombstoneMetadataLoop; infer_instance
  | succ fuel ih =>
    unfold tombstoneMetadataLoop
    split
    · infer_instance
    · refine Keeps.bind (k := fun r => ?_)
      dsimp only
      split
      · infer_instance
      · split
        · infer_instance
        · split
          · infer_instance
          · refine yields_getFs.bindKeeps fun fs hfs => ?_
            have hk := hprog fs hfs.2.1
            infer_instance

instance (slot : Nat) (d : Bool) : Keeps (Placed n size c L I) (tombstoneMetadataForSlot sector slot d) := by
  unfold tombstoneMetadataForSlot
  refine yields_getFs.bindKeeps fun fs hfs => ?_
  split
  · infer_instance
  · next hvalid =>
    have hloop : ∀ reader walk,
        Keeps (Placed n size c L I) (tombstoneMetadataLoop sector slot d fs.sectorSize reader walk) :=
      fun _ _ => tombstoneMetadataLoop_area (inData_of_valid hfs (Bool.not_eq_false _ ▸ hvalid))
    infer_instance

theorem freeWindowLoop_area {slot fuel : Nat} {normal : Bool} {reader : SectorReader} {walk : MdWalk}
    {scan : WindowScan} (h : InData n c sector) :
    Keeps (Placed n size c L I) (freeWindowLoop sector slot normal fuel reader walk scan) := by
  have hfull : Keeps (Placed n size c L I) (markSectorFull sector) := markSectorFull_area h
  induction fuel generalizing reader walk scan with
  | zero => unfold freeWindowLoop; infer_instance
  | succ fuel ih =>
    unfold freeWindowLoop
    split
    · infer_instance
    · refine Keeps.bind (k := fun r => ?_)
      dsimp only
      split <;> infer_instance

/-- A window is found in a data sector only. -/
theorem findSectorFreeWindow_yields {minFree slot : Nat} {normal : Bool} :
    Yields (Placed n size c L I) (findSectorFreeWindow sector minFree slot normal) fun _ => InData
      n c sector := by
  rw [findSectorFreeWindow]
  refine yields_getFs.bind fun fs hfs => Yields.ite (fun _ => .throw _) fun hvalid => ?_
  have hdata := inData_of_valid hfs (Bool.not_eq_false _ ▸ hvalid)
  have hfull : Keeps (Placed n size c L I) (markSectorFull sector) := markSectorFull_area hdata
  have hloop : ∀ reader walk scan,
      Keeps (Placed n size c L I) (freeWindowLoop sector slot normal fs.sectorSize reader walk scan) :=
    fun _ _ _ => freeWindowLoop_area hdata
  refine @Yields.ofConst _ _ _ _ _ ?_ _ hdata
  refine Keeps.bind (k := fun view => ?_)
  dsimp only
  split <;> infer_instance

instance : Keeps (Placed n size c L I) claimSectorSerial := by
  unfold claimSectorSerial
  exact Keeps.bind (k := fun fs => Keeps.bind (j := keeps_indexFs (fun _ => rfl) fun _ => rfl))

theorem markSectorUsed_area (h : InData n c sector) : Keeps (Placed n size c L I) (markSectorUsed sector) := by
  have hfull : Keeps (Placed n size c L I) (markSectorFull sector) := markSectorFull_area h
  unfold markSectorUsed
  infer_instance

theorem programExtentMetadata_area {slot dataOff recordOff dataLen spanLen size' next : Nat} {type : Byte}
    {footer live : Bool} (h : InData n c sector) :
    Keeps (Placed n size c L I) (programExtentMetadata sector slot type dataOff recordOff footer dataLen
      spanLen size' next live) := by
  have hused : Keeps (Placed n size c L I) (markSectorUsed sector) := markSectorUsed_area h
  unfold programExtentMetadata
  split
  · infer_instance
  · refine yields_getFs.bindKeeps fun fs hfs => ?_
    have hprog : ∀ bs, Keeps (Placed n size c L I) (programAligned (sector * fs.sectorSize + recordOff) bs) := by
      intro bs
      rw [hfs.2.1]
      exact programAligned_area (h.le recordOff)
    infer_instance

end Sectors

/-! ## Counts and compaction windows -/

instance : Keeps (Placed n size c L I) (modifyFs fsinfoInvalidateCommitted) :=
  keeps_indexFs (fun _ => rfl) fun _ => rfl

instance : Keeps (Placed n size c L I) fsinfoRefresh := by
  unfold fsinfoRefresh
  refine Keeps.bind (k := fun counts => ?_)
  split
  · infer_instance
  · exact keeps_indexFs (fun _ => rfl) fun _ => rfl

instance (refresh refreshIfNeeded estimate : Bool) :
    Keeps (Placed n size c L I) (fsinfo refresh refreshIfNeeded estimate) := by
  unfold fsinfo; infer_instance

/-- The reserve gives a window in a data sector. -/
theorem compactionReserveLoop_yields {slot dataLen : Nat} {list : List Nat} {best : Option (Nat × FreeWindow)}
    (h : ∀ b, best = some b → InData n c b.1) :
    Yields (Placed n size c L I) (compactionReserveLoop slot dataLen list best) fun found =>
      ∀ b, found = some b → InData n c b.1 := by
  induction list generalizing best with
  | nil => exact .pure h
  | cons reserved rest ih =>
    rw [compactionReserveLoop]
    refine findSectorFreeWindow_yields.attempt.bind fun r hr => ?_
    split
    · exact ih h
    · exact .throw _
    · next win =>
      have hdata := hr win rfl
      have hbest : ∀ b, some (reserved, win) = some b → InData n c b.1 := by
        intro b hb
        cases hb
        exact hdata
      have heither : ∀ better : Bool, ∀ b, (if better then some (reserved, win) else best) = some b →
          InData n c b.1 := by
        intro better
        cases better with
        | false => exact h
        | true => exact hbest
      exact Yields.ite (fun _ => ih (heither _)) fun _ => .pure hbest

/-- The scan of the data sectors gives a window in a data sector. -/
theorem compactionWindowLoop_yields {source slot dataLen fuel s : Nat} {normal : Bool} :
    Yields (Placed n size c L I) (compactionWindowLoop source slot dataLen normal fuel s) fun found =>
      ∀ b, found = some b → InData n c b.1 := by
  induction fuel generalizing s with
  | zero => exact .pure nofun
  | succ fuel ih =>
    rw [compactionWindowLoop]
    refine (Yields.ofKeeps (x := Prog.get)).bind fun w _ => ?_
    refine Yields.ite (fun _ => ih) fun _ => findSectorFreeWindow_yields.attempt.bind fun r hr => ?_
    split
    · next win =>
      have hcursor : Keeps (Placed n size c L I) (modifyFs fun fs =>
          { fs with allocCursor := if win.mdRecords ≥ allocTargetDensity then nextDataSector w.fs s else s }) :=
        keeps_indexFs (fun _ => rfl) fun _ => rfl
      refine Yields.ofKeeps.bind fun _ _ => .pure ?_
      intro b hb
      cases hb
      exact hr win rfl
    · exact ih
    · exact .throw _

instance (s : Nat) : Keeps (Placed n size c L I) (allocCompactionReserveRemove s) :=
  keeps_indexFs (fun _ => rfl) fun _ => rfl

/-- `fffs_alloc_find_compaction_root_window` gives a data sector. -/
theorem allocFindCompactionRootWindow_yields {source slot dataLen : Nat} {relaxed : Bool} :
    Yields (Placed n size c L I) (allocFindCompactionRootWindow source slot dataLen relaxed) fun d =>
      InData n c d.1 := by
  have hfind : Yields (Placed n size c L I) (findCompactionRootWindow source slot dataLen relaxed) fun d =>
      InData n c d.1 := by
    have hscan : ∀ normal k s, Yields (Placed n size c L I)
        (compactionWindowLoop source slot dataLen normal k s) fun found =>
          ∀ b, found = some b → InData n c b.1 := fun _ _ _ => compactionWindowLoop_yields
    rw [findCompactionRootWindow]
    refine Yields.ofKeeps.bind fun fs _ =>
      (compactionReserveLoop_yields fun _ hb => by cases hb).bind fun found hfound => ?_
    split
    · exact Yields.ofKeeps.bind fun _ _ => Yields.ofKeeps.bind fun _ _ => .pure (hfound _ rfl)
    · refine Yields.ofKeeps.bind fun fs _ => (hscan _ _ _).bind fun found hfound => ?_
      split
      · exact .pure (hfound _ rfl)
      · refine Yields.ite (fun _ => Yields.ofKeeps.bind fun fs _ => (hscan _ _ _).bind fun found hfound => ?_)
          fun _ => .throw _
        split
        · exact .pure (hfound _ rfl)
        · exact .throw _
  rw [allocFindCompactionRootWindow]
  exact hfind.bind fun d hd => Yields.ofKeeps.bind fun _ _ => .pure hd

/-! ## Garbage collection -/

section Collect

variable {s : Nat} {r : MdRecord}

instance (sector : Nat) (r : MdRecord) : Keeps (Placed n size c L I) (gcClassifyRecord sector r) := by
  unfold gcClassifyRecord
  split
  · infer_instance
  · refine Keeps.bind (k := fun w => ?_)
    split
    · infer_instance
    · refine Keeps.bind (k := fun head => ?_)
      split <;> infer_instance

theorem copyRootDataLoop_area {chunk fuel src dst remaining : Nat} (h : n * size ≤ dst) :
    Keeps (Placed n size c L I) (copyRootDataLoop chunk fuel src dst remaining) := by
  induction fuel generalizing src dst remaining with
  | zero => unfold copyRootDataLoop; infer_instance
  | succ fuel ih =>
    have hprog : ∀ bs, Keeps (Placed n size c L I) (programAligned dst bs) := fun _ => programAligned_area h
    have hrest : ∀ src' remaining', Keeps (Placed n size c L I)
        (copyRootDataLoop chunk fuel src' (dst + min remaining chunk) remaining') :=
      fun _ _ => ih (h.trans (Nat.le_add_right _ _))
    unfold copyRootDataLoop
    infer_instance

/-- A record that a walk returns has a slot of sixteen bits. -/
theorem mdWalkNext_yields {reader : SectorReader} {walk : MdWalk} :
    Yields (Placed n size c L I) (mdWalkNext reader walk) fun a => a.1.2.1.slot < 65536 := by
  have hdecode : ∀ sector cursor, Yields (Placed n size c L I) (decodeFileMdRecord reader sector cursor)
      fun a => a.1.1.slot < 65536 := by
    intro sector cursor
    have hzero : (0 : Nat) < 65536 := by decide
    rw [decodeFileMdRecord]
    refine Yields.ofKeeps.bind fun fs _ => Yields.ofKeeps.bind fun t _ => ?_
    refine Yields.ite (fun _ => .pure hzero) fun _ => Yields.ite (fun _ => .throw _) fun _ => ?_
    refine Yields.ite (fun _ => .pure hzero) fun _ => Yields.ofKeeps.bind fun buf _ => ?_
    exact Yields.ite (fun _ => .pure hzero) fun _ => .pure (loadLe16_lt _ _)
  rw [mdWalkNext]
  refine Yields.ite (fun _ => .throw _) fun _ => Yields.ite
    (fun _ => .pure (show 0 < 65536 by decide)) fun _ => ?_
  refine (hdecode _ _).bind fun a ha => ?_
  exact Yields.ite (fun _ => .pure ha) fun _ => .pure ha

/-- A copied root is appended with its new place. -/
theorem gcCopyRootRecord_area {relaxed : Bool} (h : r.slot < 65536) :
    Keeps (Placed n size c L I) (gcCopyRootRecord s r relaxed) := by
  unfold gcCopyRootRecord
  refine allocFindCompactionRootWindow_yields.bindKeeps fun d hd => ?_
  have hdata : Keeps (Placed n size c L I) (gcCopyRootData s r d.1 d.2.dataOff) := by
    unfold gcCopyRootData
    refine yields_getFs.bindKeeps fun fs hfs => copyRootDataLoop_area ?_
    rw [hfs.2.1]
    exact hd.le d.2.dataOff
  have hprog : ∀ next, Keeps (Placed n size c L I) (programExtentMetadata d.1 r.slot mdTypeFileRootV1
      d.2.dataOff d.2.recordOff d.2.needsFooter r.dataLen 1 r.sizeOrOffset next true) :=
    fun _ => programExtentMetadata_area hd
  have happend : Keeps (Placed n size c L I) (appendIndexRecord r.slot d.1) :=
    appendIndexRecord_area ⟨h, .inr hd⟩
  infer_instance

instance (sector copied fuel entry : Nat) (reader : SectorReader) (walk : MdWalk) :
    Keeps (Placed n size c L I) (tombstoneCopiedLoop sector copied fuel reader walk entry) := by
  induction fuel generalizing reader walk entry with
  | zero => unfold tombstoneCopiedLoop; infer_instance
  | succ fuel ih => unfold tombstoneCopiedLoop; infer_instance

instance (sector copied : Nat) : Keeps (Placed n size c L I) (gcTombstoneCopiedRoots sector copied) := by
  unfold gcTombstoneCopiedRoots; infer_instance

instance (source fuel entry copied : Nat) (relaxed : Bool) (reader : SectorReader) (walk : MdWalk) :
    Keeps (Placed n size c L I) (compactRootLoop source relaxed fuel reader walk entry copied) := by
  induction fuel generalizing reader walk entry copied with
  | zero => unfold compactRootLoop; infer_instance
  | succ fuel ih =>
    unfold compactRootLoop
    split
    · infer_instance
    · refine mdWalkNext_yields.attempt.bindKeeps fun res hres => ?_
      split
      · infer_instance
      · next walk' r result reader' =>
        have hcopy : Keeps (Placed n size c L I) (gcCopyRootRecord source r relaxed) :=
          gcCopyRootRecord_area (hres _ rfl)
        split
        · infer_instance
        · split
          · infer_instance
          · split
            · refine Keeps.bind (k := fun w => ?_)
              split
              · infer_instance
              · refine Keeps.bind (k := fun res' => ?_)
                split <;> infer_instance
            · infer_instance

theorem eraseDataSector_area (h : InData n c s) : Keeps (Placed n size c L I) (eraseDataSector s) := by
  unfold eraseDataSector
  refine yields_getFs.bindKeeps fun fs hfs => ?_
  have herase : Keeps (Placed n size c L I) (backendErase (s * fs.sectorSize) fs.sectorSize) := by
    rw [hfs.2.1]
    exact backendErase_area (h.le 0)
  infer_instance

/-- Compaction erases a data sector. -/
theorem gcCompactRootOnlySector_yields {relaxed : Bool} :
    Yields (Placed n size c L I) (gcCompactRootOnlySector s relaxed) (InData n c) := by
  unfold gcCompactRootOnlySector
  refine Yields.ofKeeps.bind fun fs _ => mdWalkInit_yields.bind fun walk hdata => ?_
  have herase : Keeps (Placed n size c L I) (eraseDataSector s) := eraseDataSector_area hdata
  have hcompact : ∀ status, Keeps (Placed n size c L I) (compactErase s status) := by
    intro status
    unfold compactErase
    infer_instance
  refine Yields.ofKeeps.bind fun a _ => Yields.ofKeeps.bind fun res _ => ?_
  split
  · exact Yields.ofKeeps.bind fun _ _ => .pure hdata
  · exact Yields.ofKeeps.bind fun _ _ => .throw _

theorem compactCandidatesLoop_yields {relaxed : Bool} {cs : List CompactionCandidate} :
    Yields (Placed n size c L I) (compactCandidatesLoop relaxed cs) (InData n c) := by
  have hallows : ∀ x, Keeps (Placed n size c L I) (gcFsinfoAllowsCompaction x) := by
    intro x
    unfold gcFsinfoAllowsCompaction
    infer_instance
  induction cs with
  | nil => exact .throw _
  | cons x rest ih =>
    rw [compactCandidatesLoop]
    refine Yields.ite (fun _ => .throw _) fun _ => Yields.ofKeeps.bind fun allowed _ => ?_
    refine Yields.ite (fun _ => gcCompactRootOnlySector_yields.attempt.bind fun res hres => ?_) fun _ => ih
    split
    · exact .pure (hres _ rfl)
    · exact ih
    · exact .throw _

theorem gcCompactUntilErased_yields {relaxed : Bool} :
    Yields (Placed n size c L I) (gcCompactUntilErased relaxed) (InData n c) := by
  rw [gcCompactUntilErased]
  exact Yields.ofKeeps.bind fun fs _ => compactCandidatesLoop_yields

/-! ## One step of the collector -/

instance (liveSeen : Bool) : Keeps (Placed n size c L I) (gcLeave s liveSeen) :=
  keeps_indexFs (fun _ => rfl) fun _ => rfl

instance : Keeps (Placed n size c L I) gcEndWalk := keeps_indexFs (fun _ => rfl) fun _ => rfl

instance (f : Fs → MdWalk) : Keeps (Placed n size c L I) (modifyFs fun fs => { fs with gcMd := f fs }) :=
  keeps_indexFs (fun _ => rfl) fun _ => rfl

theorem gcTombstone_area (h : InData n c s) : Keeps (Placed n size c L I) (gcTombstone s) := by
  have htomb : Keeps (Placed n size c L I) (tombstoneSector s) := tombstoneSector_area h
  unfold gcTombstone
  infer_instance

instance (immediateFree : Nat) : Keeps (Placed n size c L I)
    (modifyFs (gcUpdateCompactionCandidate s immediateFree)) := by
  refine keeps_indexFs (fun fs => ?_) fun fs => ?_
  · unfold gcUpdateCompactionCandidate
    dsimp only
    split <;> rfl
  · unfold gcUpdateCompactionCandidate
    dsimp only
    split <;> rfl

instance (result : MdWalkResult) : Keeps (Placed n size c L I) (gcFinishLive s result) := by
  have hend : Keeps (Placed n size c L I) (modifyFs fun fs =>
      { fs with gcCursor := nextDataSector fs s, gcMd := { fs.gcMd with active := false } }) :=
    keeps_indexFs (fun _ => rfl) fun _ => rfl
  unfold gcFinishLive
  infer_instance

theorem gcFinish_area {result : MdWalkResult} (h : InData n c s) :
    Keeps (Placed n size c L I) (gcFinish s result) := by
  have htomb : Keeps (Placed n size c L I) (gcTombstone s) := gcTombstone_area h
  unfold gcFinish
  infer_instance

theorem gcWalkSector_area {reader : SectorReader} (h : InData n c s) :
    Keeps (Placed n size c L I) (gcWalkSector reader s) := by
  have htomb : Keeps (Placed n size c L I) (gcTombstone s) := gcTombstone_area h
  have hfinish : ∀ result, Keeps (Placed n size c L I) (gcFinish s result) := fun _ => gcFinish_area h
  have hbegin : Keeps (Placed n size c L I) (gcWalkBegin reader s) := by
    unfold gcWalkBegin
    refine Keeps.bind (k := fun fs => ?_)
    split <;> infer_instance
  have hnote : ∀ r live, Keeps (Placed n size c L I) (gcNoteRecord r live) := by
    intro r live
    unfold gcNoteRecord
    infer_instance
  unfold gcWalkSector
  refine Keeps.bind (k := fun _ => Keeps.bind (k := fun fs => Keeps.bind (k := fun res => ?_)))
  split
  · infer_instance
  · infer_instance
  · refine Keeps.bind (k := fun _ => Keeps.bind (k := fun _ => ?_))
    split
    · refine Keeps.bind (k := fun res => ?_)
      split <;> infer_instance
    · infer_instance

omit [Opts] [LogInv n size c I] in
/-- The cursor of the collector is in a data sector. -/
theorem inData_cursor {fs : Fs}
  (hfs : fs.indexSectors = n ∧ fs.sectorSize = size ∧ fs.sectorCount = c ∧ 256 ≤ size)
    (h : n < c) : InData n c (normalizedDataCursor fs s) := by
  rw [normalizedDataCursor]
  split
  · next hvalid => exact inData_of_valid hfs hvalid
  · rw [hfs.1]
    exact ⟨le_rfl, h⟩

instance (useMap : Bool) : Keeps (Placed n size c L I) (gcStep useMap) := by
  unfold gcStep
  refine yields_getFs.bindKeeps fun fs hfs => ?_
  split
  · infer_instance
  · next hlt =>
    rw [hfs.1, hfs.2.2.1, not_le] at hlt
    have hdata := inData_cursor (s := fs.gcCursor) hfs hlt
    generalize normalizedDataCursor fs fs.gcCursor = s at hdata ⊢
    have herase : Keeps (Placed n size c L I) (eraseDataSector s) := eraseDataSector_area hdata
    have hwalk : ∀ reader, Keeps (Placed n size c L I) (gcWalkSector reader s) :=
      fun _ => gcWalkSector_area hdata
    refine Keeps.bind (k := fun _ => Keeps.bind (k := fun w => ?_))
    split
    · infer_instance
    · split
      · infer_instance
      · refine Keeps.bind (k := fun footer => Keeps.bind (k := fun verdict => ?_))
        split <;> infer_instance

instance (k : Nat) : Keeps (Placed n size c L I) (gcStepLoop k) := by
  induction k with
  | zero => unfold gcStepLoop; infer_instance
  | succ k ih => unfold gcStepLoop; infer_instance

instance : Keeps (Placed n size c L I) gcStepPublic := by
  unfold gcStepPublic; infer_instance

instance (k erased : Nat) : Keeps (Placed n size c L I) (gc k erased) := by
  induction k generalizing erased with
  | zero => unfold gc; infer_instance
  | succ k ih => unfold gc; infer_instance

/-- A pass that erases a sector erases a data sector. -/
theorem gcPassLoop_yields {useMap : Bool} {dataSectors fuel advanced : Nat} (h : n < c) :
    Yields (Placed n size c L I) (gcPassLoop useMap dataSectors fuel advanced) fun found =>
      ∀ s, found = some s → InData n c s := by
  induction fuel generalizing advanced with
  | zero => exact .throw _
  | succ fuel ih =>
    rw [gcPassLoop]
    refine Yields.ite (fun _ => yields_getFs.bind fun fs hfs => Yields.ofKeeps.bind fun a _ => ?_)
      fun _ => .pure fun _ hs => by cases hs
    refine Yields.ite (fun _ => .pure ?_) fun _ => Yields.ofKeeps.bind fun fs' _ => ?_
    · intro s hs
      cases hs
      exact inData_cursor hfs h
    · refine Yields.ite (fun _ => ih) fun _ => Yields.ite (fun _ => .pure fun _ hs => by cases hs) fun _ => ih

theorem gcPass_yields {useMap : Bool} (h : n < c) :
    Yields (Placed n size c L I) (gcPass useMap) fun found => ∀ s, found = some s → InData n c s := by
  have hclear : Keeps (Placed n size c L I)
    (modifyFs fun fs => { fs with compactionCandidates := noCandidates }) :=
    keeps_indexFs (fun _ => rfl) fun _ => rfl
  rw [gcPass]
  exact Yields.ofKeeps.bind fun fs _ => Yields.ofKeeps.bind fun _ _ => gcPassLoop_yields h

/-- `fffs_gc_until_erased` gives a data sector. -/
theorem gcUntilErased_yields : Yields (Placed n size c L I) gcUntilErased (InData n c) := by
  rw [gcUntilErased]
  refine yields_getFs.bind fun fs hfs => Yields.ite (fun _ => .throw _) fun hlt => ?_
  rw [hfs.1, hfs.2.2.1, not_le] at hlt
  refine (gcPass_yields hlt).bind fun found hfound => ?_
  split
  · exact .pure (hfound _ rfl)
  · split
    · exact gcCompactUntilErased_yields
    · refine (gcPass_yields hlt).bind fun found hfound => ?_
      split
      · exact .pure (hfound _ rfl)
      · exact gcCompactUntilErased_yields

end Collect

end Fastffs
