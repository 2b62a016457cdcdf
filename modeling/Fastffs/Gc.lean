import Fastffs.IndexLog

/-!
# Space estimates, compaction windows and garbage collection

`fffs_fsinfo` of `fastffs.c`, the compaction part of `fffs_alloc.c` and all of
`fffs_gc.c`.

A collection step looks at the sector under `gc_cursor`, one metadata record at
a time.  Its state between two calls is `gc_md`.  A sector without a live record
is tombstoned and then erased.  A sector whose live records are all roots can be
compacted: the roots are copied away and the sector is erased.
-/

namespace Fastffs

open Nor (Byte blank)

variable [Opts]

/-! ## fsinfo -/

/-- `struct fffs_fsinfo`.  The flags say which counts are valid. -/
structure Fsinfo where
  totalBytes : Nat
  pendingFileCount : Nat
  pendingDataBytes : Nat
  committedValid : Bool := false
  committedFileCount : Nat := 0
  committedDataBytes : Nat := 0
  metadataEstimateValid : Bool := false
  estimatedMetadataBytes : Nat := 0
deriving DecidableEq, Repr

/-- The counting loop of `fffs_fsinfo`. -/
def fsinfoCountLoop : Nat → IndexIter → Nat → Nat → M (Nat × Nat)
  | 0, _, _, _ => Prog.throw .diverges
  | fuel + 1, it, files, bytes => do
      let (entry, it) ← indexIterRead it
      match entry with
      | none => pure (files, bytes)
      | some e =>
          let root ← readFileRootMd e.head e.slot
          fsinfoCountLoop fuel it (u32 (files + 1)) (u32 (bytes + root.sizeOrOffset))

/-- The refresh of the committed counts in `fffs_fsinfo`. -/
def fsinfoRefresh : M Unit := do
  let counts ← Prog.attempt (fsinfoCountLoop (slotCount + 1) {} 0 0)
  match counts with
  | .error e =>
      modifyFs fsinfoInvalidateCommitted
      Prog.throw e
  | .ok (files, bytes) =>
      modifyFs fun fs =>
        { fs with committedFileCount := files, committedDataBytes := bytes
                  committedFilesValid := true, committedBytesValid := true }

/-- `fffs_fsinfo`, with the flags `REFRESH_COMMITTED`, `REFRESH_IF_NEEDED` and
`ESTIMATE_METADATA`. -/
def fsinfo (refresh refreshIfNeeded estimate : Bool) : M Fsinfo := do
  let fs ← getFs
  Prog.when (refresh || (refreshIfNeeded && !fsinfoCommittedValid fs)) fsinfoRefresh
  let w ← Prog.get
  let fs := w.fs
  let writers := fs.openFiles.filter fun h => (w.files h).access == .wronly
  let info : Fsinfo :=
    { totalBytes := u32 ((fs.sectorCount - fs.indexSectors) * (fs.sectorSize - sectorFooterSize))
      pendingFileCount := u32 writers.length
      pendingDataBytes := u32 (writers.map fun h => (w.files h).size).sum }
  if fsinfoCommittedValid fs then
    let info := { info with
      committedValid := true
      committedFileCount := fs.committedFileCount
      committedDataBytes := fs.committedDataBytes }
    if estimate then
      pure { info with
        metadataEstimateValid := true
        estimatedMetadataBytes :=
          u32 (fs.committedFileCount * mdFileRecordSize * fs.avgSectorsPerFileQ8) /
            sectorsPerFileQ8One }
    else pure info
  else pure info

/-! ## Windows for compacted roots -/

/-- `fffs_alloc_compaction_reserved`. -/
def allocCompactionReserved (fs : Fs) (sector : Nat) : Bool := fs.compactionReserve.contains sector

/-- `fffs_alloc_compaction_reserve_remove`. -/
def allocCompactionReserveRemove (sector : Nat) : M Unit :=
  modifyFs fun fs => { fs with compactionReserve := fs.compactionReserve.erase sector }

/-- The loop of `fffs_alloc_find_compaction_root_window` over the compaction
reserve.  `best` is the best fit so far, kept only by a best-fit build. -/
def compactionReserveLoop (slot dataLen : Nat) :
    List Nat → Option (Nat × FreeWindow) → M (Option (Nat × FreeWindow))
  | [], best => pure best
  | reserved :: rest, best => do
      let r ← Prog.attempt (findSectorFreeWindow reserved dataLen slot true)
      match r with
      | .error .noSpace => compactionReserveLoop slot dataLen rest best
      | .error e => Prog.throw e
      | .ok win =>
          if Opts.compactionReserveBestFit then
            let better := match best with
              | none => true
              | some (_, b) => decide (win.recordOff - win.dataOff < b.recordOff - b.dataOff)
            compactionReserveLoop slot dataLen rest (if better then some (reserved, win) else best)
          else pure (some (reserved, win))

/-- One pass of `fffs_alloc_find_compaction_root_window` over the data sectors. -/
def compactionWindowLoop (sourceSector slot dataLen : Nat) (normalAllocation : Bool) :
    Nat → Nat → M (Option (Nat × FreeWindow))
  | 0, _ => pure none
  | n + 1, s => do
      let w ← Prog.get
      let next := nextDataSector w.fs s
      if (normalAllocation && allocMapMaybeUsed w.fs s) || s == sourceSector ||
          sectorIsOpenForWriting w s then
        compactionWindowLoop sourceSector slot dataLen normalAllocation n next
      else
        let r ← Prog.attempt (findSectorFreeWindow s dataLen slot normalAllocation)
        match r with
        | .ok win =>
            modifyFs fun fs =>
              { fs with allocCursor := if win.mdRecords ≥ allocTargetDensity then next else s }
            pure (some (s, win))
        | .error .noSpace =>
            compactionWindowLoop sourceSector slot dataLen normalAllocation n next
        | .error e => Prog.throw e

/-- The first sector an allocation scan looks at. -/
def allocScanStart (fs : Fs) : Nat :=
  if validDataSector fs fs.allocCursor then fs.allocCursor else fs.indexSectors

/-- The search of `fffs_alloc_find_compaction_root_window`. -/
def findCompactionRootWindow (sourceSector slot dataLen : Nat) (allowRelaxed : Bool) :
    M (Nat × FreeWindow) := do
  let fs ← getFs
  match ← compactionReserveLoop slot dataLen fs.compactionReserve none with
  | some (sector, win) =>
      allocCompactionReserveRemove sector
      allocMapMarkUnknown sector
      pure (sector, win)
  | none =>
      let fs ← getFs
      let dataSectors := fs.sectorCount - fs.indexSectors
      match ← compactionWindowLoop sourceSector slot dataLen true dataSectors
          (allocScanStart fs) with
      | some found => pure found
      | none =>
          if allowRelaxed then
            let fs ← getFs
            match ← compactionWindowLoop sourceSector slot dataLen false dataSectors
                (allocScanStart fs) with
            | some found => pure found
            | none => Prog.throw .noSpace
          else Prog.throw .noSpace

/-- `fffs_alloc_find_compaction_root_window`. -/
def allocFindCompactionRootWindow (sourceSector slot dataLen : Nat) (allowRelaxed : Bool) :
    M (Nat × FreeWindow) := do
  let (dest, win) ← findCompactionRootWindow sourceSector slot dataLen allowRelaxed
  note (.copyTo dest)
  pure (dest, win)

/-! ## Reachability -/

/-- `normalized_data_cursor`. -/
def normalizedDataCursor (fs : Fs) (sector : Nat) : Nat :=
  if validDataSector fs sector then sector else fs.indexSectors

/-- The loop of `sector_is_reachable_from_chain`, `depth` records to go. -/
def reachableLoop (slot sector : Nat) : Nat → Nat → M Bool
  | 0, current => if current ≠ 0 then Prog.throw .corrupt else pure false
  | depth + 1, current =>
      if current = 0 then pure false else do
        let fs ← getFs
        let r ← readMdForSlot current slot
        if current + r.spanLen > fs.sectorCount then Prog.throw .corrupt
        else if current ≤ sector ∧ sector < current + r.spanLen then pure true
        else reachableLoop slot sector depth r.next

/-- `sector_is_reachable_from_chain`. -/
def sectorIsReachableFromChain (slot head sector : Nat) : M Bool := do
  let fs ← getFs
  reachableLoop slot sector fs.sectorCount head

/-- The loop of `gc_paranoid_sector_is_reachable_from_any_chain`. -/
def paranoidLoop (sector : Nat) : Nat → IndexIter → M Bool
  | 0, _ => Prog.throw .diverges
  | fuel + 1, it => do
      let (entry, it) ← indexIterRead it
      match entry with
      | none => pure false
      | some e =>
          let reachable ← sectorIsReachableFromChain e.slot e.head sector
          if reachable then pure true else paranoidLoop sector fuel it

/-- `gc_paranoid_sector_is_reachable_from_any_chain`. -/
def gcParanoidReachable (sector : Nat) : M Bool := paranoidLoop sector (slotCount + 1) {}

/-- `gc_classify_record`: whether the record keeps its sector alive. -/
def gcClassifyRecord (sector : Nat) (r : MdRecord) : M Bool := do
  if r.live = false then pure false
  else
    let w ← Prog.get
    if slotIsPinned w r.slot then pure true
    else
      match ← indexHeadForSlot r.slot with
      | none => pure false
      | some head =>
          let reachable ← sectorIsReachableFromChain r.slot head sector
          if reachable then pure true
          else
            let _ ← tombstoneMetadataForSlot sector r.slot false
            pure false

/-! ## Compaction -/

/-- `compaction_candidate_better`. -/
def compactionCandidateBetter (c other : CompactionCandidate) : Bool :=
  if c.sector = 0 then false
  else if other.sector = 0 then true
  else if c.trappedReclaimable ≠ other.trappedReclaimable then
    decide (c.trappedReclaimable > other.trappedReclaimable)
  else decide (c.liveRootCount > other.liveRootCount)

/-- The swaps of `gc_update_compaction_candidate`, from entry `pos` down. -/
def candidateSwaps : Nat → List CompactionCandidate → List CompactionCandidate
  | 0, cs => cs
  | pos + 1, cs =>
      let c := cs.getD (pos + 1) {}
      let o := cs.getD pos {}
      if compactionCandidateBetter c o then candidateSwaps pos ((cs.set pos c).set (pos + 1) o)
      else cs

/-- `gc_update_compaction_candidate`. -/
def gcUpdateCompactionCandidate (sector immediateFree : Nat) (fs : Fs) : Fs :=
  let accounted := fs.gcMd.liveBytes + immediateFree
  let trapped := min (fs.sectorSize - accounted) uint16Max
  let c : CompactionCandidate := ⟨sector, trapped, fs.gcMd.liveRootCount⟩
  let pos := compactionCandidateCount - 1
  if compactionCandidateBetter c (fs.compactionCandidates.getD pos {}) then
    { fs with compactionCandidates := candidateSwaps pos (fs.compactionCandidates.set pos c) }
  else fs

/-- The cleared candidates. -/
def noCandidates : List CompactionCandidate := List.replicate compactionCandidateCount {}

/-- `gc_fsinfo_allows_compaction`. -/
def gcFsinfoAllowsCompaction (c : CompactionCandidate) : M Bool := do
  let info ← fsinfo false true true
  let fs ← getFs
  let required := if fs.sectorSize > c.trappedReclaimable then
    u32 (fs.sectorSize - c.trappedReclaimable) else allocMinUsableFree
  if info.committedValid && info.metadataEstimateValid then
    let used := u32 (info.committedDataBytes + info.pendingDataBytes + info.estimatedMetadataBytes)
    if info.totalBytes ≤ used then pure false
    else pure (decide (info.totalBytes - used ≥ required))
  else pure false

/-- The loop of `gc_copy_root_data`, by chunks of the scratch buffer. -/
def copyRootDataLoop (chunkSize : Nat) : Nat → Nat → Nat → Nat → M Unit
  | 0, _, _, _ => pure ()
  | fuel + 1, src, dst, remaining =>
      if remaining = 0 then pure () else do
        let n := min remaining chunkSize
        let bs ← flashRead src n
        programAligned dst bs
        copyRootDataLoop chunkSize fuel (src + n) (dst + n) (remaining - n)

/-- `gc_copy_root_data`. -/
def gcCopyRootData (sourceSector : Nat) (r : MdRecord) (destSector destDataOff : Nat) :
    M Unit := do
  let fs ← getFs
  copyRootDataLoop fs.scratchSize r.dataLen (sourceSector * fs.sectorSize + r.dataOff)
    (destSector * fs.sectorSize + destDataOff) r.dataLen

/-- `gc_copy_root_record`. -/
def gcCopyRootRecord (sourceSector : Nat) (r : MdRecord) (allowRelaxed : Bool) : M Unit := do
  let (dest, win) ← allocFindCompactionRootWindow sourceSector r.slot r.dataLen allowRelaxed
  gcCopyRootData sourceSector r dest win.dataOff
  let next := if r.spanLen > 1 then u16 (sourceSector + 1) else r.next
  programExtentMetadata dest r.slot mdTypeFileRootV1 win.dataOff win.recordOff win.needsFooter
    r.dataLen 1 r.sizeOrOffset next true
  appendIndexRecord r.slot dest

/-- The loop of `gc_tombstone_copied_roots`. -/
def tombstoneCopiedLoop (sector copiedThrough : Nat) : Nat → SectorReader → MdWalk → Nat → M Unit
  | 0, _, _, _ => pure ()
  | fuel + 1, reader, walk, entry =>
      if walk.active = false ∨ entry ≥ copiedThrough then pure () else do
        let ((walk, r, result), reader) ← mdWalkNext reader walk
        if result ≠ .record then pure ()
        else
          Prog.when (r.live ∧ r.type = mdTypeFileRootV1) do
            let _ ← tombstoneMetadataForSlot sector r.slot false
            allocMapMarkUnknown sector
          tombstoneCopiedLoop sector copiedThrough fuel reader walk (entry + 1)

/-- `gc_tombstone_copied_roots`. -/
def gcTombstoneCopiedRoots (sector copiedThrough : Nat) : M Unit := do
  let fs ← getFs
  let (walk, reader) ← mdWalkInit { sector := sector } sector
  tombstoneCopiedLoop sector copiedThrough fs.sectorSize reader walk 0

/-- The copy loop of `gc_compact_root_only_sector`: its status and
`copied_through_entry`. -/
def compactRootLoop (sourceSector : Nat) (allowRelaxed : Bool) :
    Nat → SectorReader → MdWalk → Nat → Nat → M (Except Status Unit × Nat)
  | 0, _, _, _, copied => pure (.ok (), copied)
  | fuel + 1, reader, walk, entry, copied =>
      if walk.active = false then pure (.ok (), copied) else do
        match ← Prog.attempt (mdWalkNext reader walk) with
        | .error e => pure (.error e, copied)
        | .ok ((walk, r, result), reader) =>
            if result = .endInvalid then pure (.error .noSpace, copied)
            else if result ≠ .record then pure (.ok (), copied)
            else if r.live then
              let w ← Prog.get
              if r.type ≠ mdTypeFileRootV1 ∨ slotIsPinned w r.slot then
                pure (.error .noSpace, copied)
              else
                match ← Prog.attempt (gcCopyRootRecord sourceSector r allowRelaxed) with
                | .error e => pure (.error e, copied)
                | .ok () =>
                    compactRootLoop sourceSector allowRelaxed fuel reader walk (entry + 1)
                      (entry + 1)
            else compactRootLoop sourceSector allowRelaxed fuel reader walk (entry + 1) copied

/-- The erase of a data sector. -/
def eraseDataSector (sector : Nat) : M Unit := do
  let fs ← getFs
  note (.erase sector)
  backendErase (sector * fs.sectorSize) fs.sectorSize

/-- Erase the source of a compaction that has copied every root. -/
def compactErase (sourceSector : Nat) (status : Except Status Unit) : M Unit := do
  Prog.ofExcept status
  eraseDataSector sourceSector

/-- `gc_compact_root_only_sector`.  Returns the erased sector. -/
def gcCompactRootOnlySector (sourceSector : Nat) (allowRelaxed : Bool) : M Nat := do
  let fs ← getFs
  let (walk, reader) ← mdWalkInit { sector := sourceSector } sourceSector
  let (status, copied) ← compactRootLoop sourceSector allowRelaxed fs.sectorSize reader walk 0 0
  match ← Prog.attempt (compactErase sourceSector status) with
  | .ok () =>
      allocMapMarkUnknown sourceSector
      pure sourceSector
  | .error e =>
      Prog.when (copied ≠ 0) (gcTombstoneCopiedRoots sourceSector copied)
      Prog.throw e

/-- The loop of `fffs_gc_compact_until_erased` over the candidates. -/
def compactCandidatesLoop (allowRelaxed : Bool) : List CompactionCandidate → M Nat
  | [] => Prog.throw .noSpace
  | c :: rest =>
      if c.sector = 0 then Prog.throw .noSpace else do
        let allowed ← gcFsinfoAllowsCompaction c
        if allowed then
          match ← Prog.attempt (gcCompactRootOnlySector c.sector allowRelaxed) with
          | .ok sector => pure sector
          | .error .noSpace => compactCandidatesLoop allowRelaxed rest
          | .error e => Prog.throw e
        else compactCandidatesLoop allowRelaxed rest

/-- `fffs_gc_compact_until_erased`. -/
def gcCompactUntilErased (allowRelaxed : Bool) : M Nat := do
  let fs ← getFs
  compactCandidatesLoop allowRelaxed fs.compactionCandidates

/-! ## One step -/

/-- `enum fffs_gc_action`. -/
inductive GcAction where
  | idle
  | scanned
  | tombstoned
  | erased
deriving DecidableEq, Repr

/-- Leave sector `s`: advance the cursor and end the walk. -/
def gcLeave (s : Nat) (liveSeen : Bool) : M Unit :=
  modifyFs fun fs =>
    { fs with gcCursor := nextDataSector fs s
              gcMd := { fs.gcMd with liveSeen := liveSeen, active := false } }

/-- End the walk and stay on the sector. -/
def gcEndWalk : M Unit := modifyFs fun fs => { fs with gcMd := { fs.gcMd with active := false } }

/-- Whether `gc_step` erases the sector at once.  `none`: it is already blank. -/
def gcFooterVerdict (s : Nat) (footer : SectorFooter) : M (Option Bool) := do
  let fs ← getFs
  if footer.erased then
    match ← Prog.attempt (flashSpanIsErased (s * fs.sectorSize) fs.sectorSize) with
    | .ok () => pure none
    | .error .noSpace => pure (some true)
    | .error e => Prog.throw e
  else if footer.type ≠ sectorTypeFile ∨ footer.magicValid = false ∨ footer.validBits = .mixed ∨
      footer.tombstoneBits = .mixed ∨ footer.state = blank ∨ footer.tombstoneBits = .cleared then
    pure (some true)
  else if footer.isLive = false then Prog.throw .corrupt
  else pure (some false)

/-- Tombstone the footer of a sector that holds nothing live. -/
def gcTombstone (s : Nat) : M GcAction := do
  tombstoneSector s
  allocMapMarkUnknown s
  gcEndWalk
  pure .tombstoned

/-- Note a live record in `gc_md`. -/
def gcNoteLive (r : MdRecord) (w : World) (md : MdWalk) : MdWalk :=
  { md with
    liveSeen := true
    liveBytes := u32 (md.liveBytes + r.dataLen + mdFileRecordSize)
    liveRootSeen := md.liveRootSeen || r.type == mdTypeFileRootV1
    liveRootCount := if r.type = mdTypeFileRootV1 then u16 (md.liveRootCount + 1)
      else md.liveRootCount
    liveContinuationSeen := md.liveContinuationSeen || r.type == mdTypeFileContV1
    openSeen := md.openSeen || slotIsPinned w r.slot }

/-- The free space `gc_step` finds at the end of the walk of a live sector. -/
def gcImmediateFree (s : Nat) (result : MdWalkResult) (wanted : Bool) : M Nat := do
  let fs ← getFs
  let freeLen := fs.gcMd.cursor - fs.gcMd.claimedDataEnd
  if wanted ∧ result = .endErased ∧ fs.gcMd.cursor > fs.gcMd.claimedDataEnd ∧
      freeLen ≥ allocMinUsableFree then
    match ← Prog.attempt (flashSpanIsErased (s * fs.sectorSize + fs.gcMd.claimedDataEnd) freeLen)
      with
    | .ok () => pure freeLen
    | .error .noSpace => pure 0
    | .error e => Prog.throw e
  else pure 0

/-- The end of `gc_step` on a sector that holds a live record. -/
def gcFinishLive (s : Nat) (result : MdWalkResult) : M GcAction := do
  let fs ← getFs
  let rootOnly := fs.gcMd.liveRootSeen && !fs.gcMd.liveContinuationSeen && !fs.gcMd.openSeen
  let full := fs.gcMd.liveContinuationSeen ||
    decide (fs.gcMd.liveRootCount ≥ allocMaxMdRecordsPerSector)
  let immediateFree ← gcImmediateFree s result (rootOnly || !full)
  Prog.when rootOnly (modifyFs (gcUpdateCompactionCandidate s immediateFree))
  let full := full || decide (immediateFree < allocMinUsableFree + mdFileRecordSize)
  Prog.when full (allocMapMarkUsed s)
  modifyFs fun fs =>
    { fs with gcCursor := nextDataSector fs s, gcMd := { fs.gcMd with active := false } }
  pure .scanned

/-- The end of the walk of `gc_step`. -/
def gcFinish (s : Nat) (result : MdWalkResult) : M GcAction := do
  let fs ← getFs
  Prog.when (Opts.gcParanoidReachability && !fs.gcMd.liveSeen) do
    let reachable ← gcParanoidReachable s
    modifyFs fun fs => { fs with gcMd := { fs.gcMd with liveSeen := reachable } }
  let fs ← getFs
  if fs.gcMd.liveSeen then gcFinishLive s result else gcTombstone s

/-- Start the walk of a sector, unless it is under way. -/
def gcWalkBegin (reader : SectorReader) (s : Nat) : M SectorReader := do
  let fs ← getFs
  if fs.gcMd.active = false ∨ fs.gcMd.sector ≠ s then
    let (walk, reader) ← mdWalkInit reader s
    modifyFs fun fs => { fs with gcMd := walk }
    pure reader
  else pure reader

/-- A paranoid build refuses to end the walk of a sector that some chain reaches
at an invalid record. -/
def gcCheckEndInvalid (s : Nat) (result : MdWalkResult) : M Unit :=
  Prog.when (result = .endInvalid ∧ Opts.gcParanoidReachability) do
    let reachable ← gcParanoidReachable s
    Prog.when reachable (Prog.throw .corrupt)

/-- Note in `gc_md` that a record keeps its sector alive. -/
def gcNoteRecord (r : MdRecord) (live : Bool) : M Unit :=
  Prog.when live do
    let w ← Prog.get
    modifyFs fun fs => { fs with gcMd := gcNoteLive r w fs.gcMd }

/-- `gc_step` on a live file sector: look at one more record. -/
def gcWalkSector (reader : SectorReader) (s : Nat) : M GcAction := do
  let reader ← gcWalkBegin reader s
  let fs ← getFs
  match ← Prog.attempt (mdWalkNext reader fs.gcMd) with
  | .error .corrupt =>
      gcEndWalk
      gcTombstone s
  | .error e =>
      gcEndWalk
      Prog.throw e
  | .ok ((walk, r, result), _) =>
      modifyFs fun fs => { fs with gcMd := walk }
      gcCheckEndInvalid s result
      if result = .record then
        match ← Prog.attempt (gcClassifyRecord s r) with
        | .error e =>
            gcEndWalk
            Prog.throw e
        | .ok live =>
            gcNoteRecord r live
            if walk.active then
              let fs ← getFs
              pure (if r.live && !fs.gcMd.liveSeen then .tombstoned else .scanned)
            else gcFinish s result
      else gcFinish s result

/-- `gc_step`.  The flag is `out_cheap_skip`. -/
def gcStep (useMap : Bool) : M (GcAction × Bool) := do
  let fs ← getFs
  if fs.sectorCount ≤ fs.indexSectors then pure (.idle, true)
  else
    let s := normalizedDataCursor fs fs.gcCursor
    Prog.when (s ≠ fs.gcCursor)
      (modifyFs fun fs => { fs with gcMd := { fs.gcMd with liveSeen := false, active := false } })
    let w ← Prog.get
    if (useMap && allocMapMaybeUsed w.fs s) || allocCompactionReserved w.fs s then
      gcLeave s false
      pure (.scanned, true)
    else if sectorIsOpenForWriting w s then
      gcLeave s true
      pure (.scanned, true)
    else
      let (footer, reader) ← readSectorFooter { sector := s } s
      match ← gcFooterVerdict s footer with
      | none =>
          allocMapMarkUnknown s
          gcLeave s false
          pure (.erased, false)
      | some true =>
          eraseDataSector s
          allocMapMarkUnknown s
          gcLeave s false
          pure (.erased, false)
      | some false =>
          let action ← gcWalkSector reader s
          pure (action, false)

/-- The loop of `fffs_gc_step` past the cheap skips. -/
def gcStepLoop : Nat → M GcAction
  | 0 => do
      let (action, _) ← gcStep true
      pure action
  | n + 1 => do
      let (action, cheapSkip) ← gcStep true
      if cheapSkip then gcStepLoop n else pure action

/-- `fffs_gc_step`. -/
def gcStepPublic : M GcAction := do
  let fs ← getFs
  gcStepLoop (fs.sectorCount - fs.indexSectors - 1)

/-- One pass of `fffs_gc_until_erased`. -/
def gcPassLoop (useMap : Bool) (dataSectors : Nat) : Nat → Nat → M (Option Nat)
  | 0, _ => Prog.throw .diverges
  | fuel + 1, advanced =>
      if advanced < dataSectors then do
        let fs ← getFs
        let before := normalizedDataCursor fs fs.gcCursor
        let (action, _) ← gcStep useMap
        if action = .erased then pure (some before)
        else
          let fs ← getFs
          let after := normalizedDataCursor fs fs.gcCursor
          if after ≠ before then gcPassLoop useMap dataSectors fuel (advanced + 1)
          else if action = .idle then pure none
          else gcPassLoop useMap dataSectors fuel advanced
      else pure none

/-- One pass of `fffs_gc_until_erased`, with fresh candidates. -/
def gcPass (useMap : Bool) : M (Option Nat) := do
  let fs ← getFs
  let dataSectors := fs.sectorCount - fs.indexSectors
  modifyFs fun fs => { fs with compactionCandidates := noCandidates }
  gcPassLoop useMap dataSectors (dataSectors * (fs.sectorSize + 2) + 1) 0

/-- `fffs_gc_until_erased`. -/
def gcUntilErased : M Nat := do
  let fs ← getFs
  if fs.sectorCount ≤ fs.indexSectors then Prog.throw .noSpace
  else
    match ← gcPass true with
    | some s => pure s
    | none =>
        match Opts.allocMapMode with
        | .none => gcCompactUntilErased false
        | .fullBitmap =>
            match ← gcPass false with
            | some s => pure s
            | none => gcCompactUntilErased false

/-- `fffs_gc`: the number of erased sectors. -/
def gc : Nat → Nat → M Nat
  | 0, erased => pure erased
  | n + 1, erased => do
      let action ← gcStepPublic
      gc n (if action = .erased then erased + 1 else erased)

end Fastffs
