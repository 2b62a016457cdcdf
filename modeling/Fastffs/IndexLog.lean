import Fastffs.IndexCache

/-!
# The circular namespace journal

`fffs_index_log.c`: index sector headers, discovery of the running sequence,
appending, rotating and compacting the log, and replaying it at mount.

The index sectors form a ring.  Records are appended to the active sector.  When
it is full the log rotates to the next sector of the ring, and a rotation that
leaves no spare sector first copies what is still current out of the oldest one.
-/

namespace Fastffs

open Nor (Byte blank)

/-! ## Headers -/

/-- The fields of a valid index sector header. -/
structure IndexHeader where
  indexSectors : Nat
  sectorShift : Nat
  serial : Nat
deriving DecidableEq, Repr

/-- `fffs_valid_index_header`. -/
def validIndexHeader (hdr : List Byte) : Option IndexHeader :=
  if hdr.take 4 ≠ indexMagic ∨ byteAt hdr 4 ≠ indexVersion then none
  else if byteAt hdr 7 &&& 0x80#8 ≠ 0#8 ∨ byteAt hdr 7 &&& 0x40#8 = 0#8 ∨
      byteAt hdr 7 &&& 0x20#8 = 0#8 ∨ byteAt hdr 7 &&& 0x1f#8 ≠ 0x1f#8 then none
  else
    let count := (byteAt hdr 5).toNat / 16
    if count < 2 ∨ count > 15 then none
    else
      let shift := (byteAt hdr 6).toNat
      if shift > maxSectorShift then none
      else some ⟨count, shift, (byteAt hdr 5).toNat % 16⟩

/-- The header bytes before the lifecycle byte is programmed. -/
def encodeIndexHeader (indexSectors sectorShift serial : Nat) : List Byte :=
  indexMagic ++ [indexVersion, byte (indexSectors * 16 + serial % 16), byte sectorShift, blank]

/-- `fffs_program_index_header`. -/
def programIndexHeader (off indexSectors sectorShift serial : Nat) : M Unit := do
  programAligned off (encodeIndexHeader indexSectors sectorShift serial)
  programAligned (off + 7) [indexFlagsValid]

/-! ## Discovery -/

/-- `index_serial_newer`. -/
def indexSerialNewer (serial best : Nat) : Bool :=
  decide (serial ≠ best) && decide ((serial + 16 - best) % 16 < 8)

/-- `prev_index_sector`. -/
def prevIndexSector (sector indexSectors : Nat) : Nat :=
  if sector = 0 then indexSectors - 1 else sector - 1

/-- The headers one pass over the index sectors has seen: the serial of each
sector with a valid header, and the newest sector so far with its serial. -/
structure HeaderScan where
  serials : List (Option Nat) := []
  best : Option (Nat × Nat) := none

/-- `consider_index_header` for the header of sector `i`. -/
def considerIndexHeader (i serial : Nat) : Option (Nat × Nat) → Option (Nat × Nat)
  | none => some (i, serial)
  | some (active, best) =>
      if indexSerialNewer serial best then some (i, serial) else some (active, best)

/-- The loop of `find_oldest_index_sector`: `n` sectors are in the sequence so far. -/
def findOldestLoop (serials : List (Option Nat)) (indexSectors : Nat) :
    Nat → Nat → Nat → Nat → Nat × Nat
  | 0, current, _, n => (current, n)
  | fuel + 1, current, serial, n =>
      let prev := prevIndexSector current indexSectors
      if serials.getD prev none = some ((serial + 15) % 16) then
        findOldestLoop serials indexSectors fuel prev ((serial + 15) % 16) (n + 1)
      else (current, n)

/-- `find_oldest_index_sector`: the oldest sector and the number of sectors. -/
def findOldestIndexSector (serials : List (Option Nat)) (indexSectors active serial : Nat) :
    Nat × Nat :=
  findOldestLoop serials indexSectors (indexSectors - 1) active serial 1

/-- `discovery_probe_shift`. -/
def discoveryProbeShift (probe : Nat) : Option Nat :=
  if probe = 0 then some defaultSectorShift
  else if probe ≤ defaultSectorShift - minSectorShift then some (defaultSectorShift - probe)
  else
    let larger := u8 (defaultSectorShift + (probe - (defaultSectorShift - minSectorShift)))
    if larger > maxSectorShift then none else some larger

/-- `struct fffs_index_sequence`. -/
structure IndexSequence where
  indexSectors : Nat
  sectorShift : Nat
  activeSerial : Nat
  activeSector : Nat
  oldestSector : Nat
  count : Nat
deriving DecidableEq, Repr

/-- The sector size of a shift. -/
def sectorSizeOf (shift : Nat) : Nat := 256 * 2 ^ shift

/-- The header loop of `fffs_find_index_sequence`, from sector `i` on.  `none` is
a conflict with the locked geometry. -/
def scanIndexHeaders (locked : IndexHeader) (discoveredOff : Nat) (discoveredHdr : List Byte) :
    Nat → Nat → HeaderScan → M (Option HeaderScan)
  | 0, _, scan => pure (some scan)
  | n + 1, i, scan => do
      let off := i * sectorSizeOf locked.sectorShift
      let hdr ← (if off = discoveredOff then pure discoveredHdr else flashRead off headerSize)
      match validIndexHeader hdr with
      | none =>
          scanIndexHeaders locked discoveredOff discoveredHdr n (i + 1)
            { scan with serials := scan.serials ++ [none] }
      | some h =>
          if h.indexSectors ≠ locked.indexSectors ∨ h.sectorShift ≠ locked.sectorShift then
            pure none
          else
            scanIndexHeaders locked discoveredOff discoveredHdr n (i + 1)
              { serials := scan.serials ++ [some h.serial]
                best := considerIndexHeader i h.serial scan.best }

/-- One header location of `fffs_find_index_sequence`. -/
def discoverAt (probeShift discoveredOff : Nat) : M (Option IndexSequence) := do
  let w ← Prog.get
  if discoveredOff + headerSize > w.dev.size then pure none
  else
    let hdr ← flashRead discoveredOff headerSize
    match validIndexHeader hdr with
    | none => pure none
    | some locked =>
        if locked.sectorShift ≠ probeShift ∨
            w.dev.size / sectorSizeOf probeShift < locked.indexSectors then pure none
        else
          let scan ← scanIndexHeaders locked discoveredOff hdr locked.indexSectors 0 {}
          match scan with
          | some { serials := serials, best := some (active, serial) } =>
              let (oldest, count) :=
                findOldestIndexSector serials locked.indexSectors active serial
              pure (some ⟨locked.indexSectors, locked.sectorShift, serial, active, oldest, count⟩)
          | _ => pure none

/-- The probe loop of `fffs_find_index_sequence`. -/
def discoverLoop : Nat → Nat → M IndexSequence
  | 0, _ => Prog.throw .corrupt
  | fuel + 1, probe =>
      match discoveryProbeShift probe with
      | none => Prog.throw .corrupt
      | some shift => do
          let w ← Prog.get
          if w.dev.size % sectorSizeOf shift ≠ 0 then discoverLoop fuel (probe + 1)
          else
            match ← discoverAt shift 0 with
            | some s => pure s
            | none =>
                match ← discoverAt shift (sectorSizeOf shift) with
                | some s => pure s
                | none => discoverLoop fuel (probe + 1)

/-- `fffs_find_index_sequence`. -/
def findIndexSequence : M IndexSequence := discoverLoop (maxSectorShift + 2) 0

/-! ## Appending -/

/-- `program_index_record_at`. -/
def programIndexRecordAt (off slot head : Nat) : M Unit := do
  programAligned off (storeLe16 slot)
  programAligned (off + 2) (storeLe16 head)

/-- `tombstone_index_sector`. -/
def tombstoneIndexSector (sector : Nat) : M Unit := do
  let fs ← getFs
  programAligned (sector * fs.sectorSize + 7) [indexFlagsValid &&& ~~~0x40#8]

/-- The file system after a rotation to `newActive`. -/
def rotatedFs (newActive : Nat) (fs : Fs) : Fs :=
  { fs with
    activeIndexSector := newActive
    activeIndexSerial := (fs.activeIndexSerial + 1) % 16
    nextIndexOffset := newActive * fs.sectorSize + headerSize
    indexSequenceCount := if fs.indexSequenceCount < fs.indexSectors
      then fs.indexSequenceCount + 1 else fs.indexSequenceCount }

/-- `rotate_index_begin`. -/
def rotateIndexBegin : M Unit := do
  let fs ← getFs
  let newActive := if fs.activeIndexSector + 1 ≥ fs.indexSectors then 0
    else fs.activeIndexSector + 1
  note (.erase newActive)
  backendErase (newActive * fs.sectorSize) fs.sectorSize
  modifyFs (rotatedFs newActive)

/-- `rotate_index_commit`. -/
def rotateIndexCommit : M Unit := do
  let fs ← getFs
  programIndexHeader (fs.activeIndexSector * fs.sectorSize) fs.indexSectors fs.sectorShift
    fs.activeIndexSerial

/-- The active index sector has no room for another record. -/
def indexSectorIsFull (fs : Fs) : Bool :=
  decide (fs.nextIndexOffset + 4 > (fs.activeIndexSector + 1) * fs.sectorSize)

/-- Program a record at the end of the log. -/
def appendIndexAtEnd (slot head : Nat) : M Unit := do
  let fs ← getFs
  programIndexRecordAt fs.nextIndexOffset slot head
  modifyFs fun fs => { fs with nextIndexOffset := fs.nextIndexOffset + 4 }

/-- The rotation of `index_record_writer_append`, when the active sector is full. -/
def indexRecordWriterRoom (pendingRotation : Bool) : M Bool := do
  let fs ← getFs
  if indexSectorIsFull fs then
    if pendingRotation ∨ fs.indexSequenceCount ≥ fs.indexSectors then Prog.throw .noSpace
    else
      rotateIndexBegin
      pure true
  else pure pendingRotation

/-- `index_record_writer_append`.  The flag is `pending_rotation`.  The buffer of
the writer is always empty, so a flush does nothing. -/
def indexRecordWriterAppend (pendingRotation : Bool) (slot head : Nat) : M Bool := do
  let pending ← indexRecordWriterRoom pendingRotation
  appendIndexAtEnd slot head
  pure pending

/-- `struct index_record_reader`. -/
structure IndexRecordReader where
  window : List Byte := []
  windowStart : Nat := 0

/-- `FFFS_INDEX_COMPACT_OUTER_SCAN_SIZE`. -/
def indexCompactOuterScanSize : Nat := 64

/-- `index_record_reader_load`. -/
def indexRecordReaderLoad (reader : IndexRecordReader) (offset : Nat) : M IndexRecordReader := do
  if reader.windowStart ≤ offset ∧ offset + 4 ≤ reader.windowStart + reader.window.length then pure reader
  else
    let fs ← getFs
    let sector := offset / fs.sectorSize
    let begin_ := sector * fs.sectorSize + headerSize
    let rel := offset - begin_
    let base := begin_ + rel - rel % indexCompactOuterScanSize
    let nread := min (indexSectorEnd fs sector - base) indexCompactOuterScanSize
    let nread := nread - nread % 4
    if nread < 4 then Prog.throw .corrupt
    else
      let window ← flashRead base nread
      pure ⟨window, base⟩

/-- `read_compact_source_record`. -/
def readCompactSourceRecord (reader : IndexRecordReader) (offset : Nat) :
    M (IndexRecordReader × IndexRecord) := do
  let reader ← indexRecordReaderLoad reader offset
  pure (reader, indexRecordAt reader.window (offset - reader.windowStart))

variable [Opts]

/-- The loop of `index_compact_oldest_copy`. -/
def compactCopyLoop (sourceEnd : Nat) : Nat → IndexRecordReader → Nat → Bool → M Bool
  | 0, _, _, pending => pure pending
  | fuel + 1, reader, off, pending =>
      if off + 4 ≤ sourceEnd then do
        let r ← readCompactSourceRecord reader off
        if r.2.erased then pure pending
        else if r.2.head = 0 then compactCopyLoop sourceEnd fuel r.1 (off + 4) pending
        else
          let current ← indexRecordIsCurrent 0 off r.2.slot r.2.head
          if current then
            let pending ← indexRecordWriterAppend pending r.2.slot r.2.head
            compactCopyLoop sourceEnd fuel r.1 (off + 4) pending
          else compactCopyLoop sourceEnd fuel r.1 (off + 4) pending
      else pure pending

/-- `index_compact_oldest_copy`.  Returns the source sector. -/
def indexCompactOldestCopy : M Nat := do
  let fs ← getFs
  let source := fs.oldestIndexSector
  if fs.indexSequenceCount ≤ 1 then pure source
  else
    let pending ← compactCopyLoop (indexSectorEnd fs source) fs.sectorSize {}
      (indexSectorBegin fs source) false
    Prog.when pending rotateIndexCommit
    pure source

/-- `index_compact_oldest_finish`. -/
def indexCompactOldestFinish (sourceSector : Nat) : M Unit := do
  tombstoneIndexSector sourceSector
  modifyFs fun fs =>
    { fs with oldestIndexSector := logicalIndexSector fs 1
              indexSequenceCount := fs.indexSequenceCount - 1 }

/-- `fffs_index_compact_oldest`. -/
def indexCompactOldest : M Unit := do
  let source ← indexCompactOldestCopy
  let fs ← getFs
  if fs.indexSequenceCount ≤ 1 then pure () else indexCompactOldestFinish source

/-- `fffs_index_finish_interrupted_compaction`. -/
def indexFinishInterruptedCompaction : M Unit := do
  let fs ← getFs
  if fs.indexSequenceCount < fs.indexSectors then pure ()
  else indexCompactOldestFinish fs.oldestIndexSector

/-- `fffs_rotate_index`. -/
def rotateIndex : M Unit := do
  rotateIndexBegin
  let fs ← getFs
  if fs.indexSequenceCount = fs.indexSectors then
    let source ← indexCompactOldestCopy
    rotateIndexCommit
    indexCompactOldestFinish source
  else rotateIndexCommit

/-- The rotation of `fffs_append_index_record`, when the active sector is full. -/
def appendIndexRoom : M Unit := do
  let fs ← getFs
  if indexSectorIsFull fs then
    rotateIndex
    let fs ← getFs
    if indexSectorIsFull fs then Prog.throw .noSpace else pure ()
  else pure ()

/-- `fffs_append_index_record`. -/
def appendIndexRecord (slot head : Nat) : M Unit := do
  appendIndexRoom
  appendIndexAtEnd slot head
  indexSet slot head

/-! ## Replay -/

/-- `clobber_or_reject_active_tail`, with `clobber_active_tail`. -/
def clobberOrRejectActiveTail (recOff : Nat) (terminal : Bool) : M Unit := do
  let fs ← getFs
  if fs.strict ∨ terminal = false then Prog.throw .corrupt
  else
    programAligned recOff [0#8, 0#8, 0#8, 0#8]
    modifyFs fun fs => { fs with nextIndexOffset := recOff + 4 }

/-- `index_flash_span_erased`, by reads of at most 32 bytes. -/
def indexFlashSpanErased : Nat → Nat → Nat → M Bool
  | 0, _, _ => pure true
  | fuel + 1, off, size =>
      if size = 0 then pure true else do
        let n := min size 32
        let buf ← flashRead off n
        if flashBytesErased buf then indexFlashSpanErased fuel (off + n) (size - n)
        else pure false

/-- `active_index_record_is_terminal`. -/
def activeIndexRecordIsTerminal (recOff : Nat) (chunk : List Byte) (pos nread endOff : Nat) :
    M Bool := do
  if recOff + 4 = endOff then pure true
  else
    let nextRec ← (if pos + 8 ≤ nread then pure ((chunk.drop (pos + 4)).take 4)
      else flashRead (recOff + 4) 4)
    if flashBytesErased nextRec = false then pure false
    else
      let restOff := recOff + 8
      let chunkEnd := recOff + (nread - pos)
      if restOff < chunkEnd ∧
          flashBytesErased ((chunk.drop (pos + 8)).take (chunkEnd - restOff)) = false then
        pure false
      else
        let restOff := if restOff < chunkEnd then chunkEnd else restOff
        if restOff ≥ endOff then pure true
        else indexFlashSpanErased (endOff - restOff) restOff (endOff - restOff)

/-- The head of a record holds a live root of its slot. -/
def replayRootIsLive (r : IndexRecord) : M Bool := do
  let root ← Prog.attempt (readFileRootMd r.head r.slot)
  pure root.isOk

/-- The record loop of `fffs_replay_index` over one chunk.  Returns whether the
sector is done, and the last head that was inserted. -/
def replayChunk (active : Bool) (off nread endOff : Nat) (chunk : List Byte) :
    Nat → Nat → Nat → M (Bool × Nat)
  | 0, _, tailHead => pure (false, tailHead)
  | fuel + 1, pos, tailHead =>
      if pos < nread then do
        let r := indexRecordAt chunk pos
        let recOff := off + pos
        if r.erased then
          Prog.when active (modifyFs fun fs => { fs with nextIndexOffset := recOff })
          pure (true, tailHead)
        else if r.clobbered then
          Prog.when active (modifyFs fun fs => { fs with nextIndexOffset := recOff + 4 })
          replayChunk active off nread endOff chunk fuel (pos + 4) tailHead
        else
          let terminal ← (if active then activeIndexRecordIsTerminal recOff chunk pos nread endOff
            else pure false)
          let fs ← getFs
          if r.slot = 0 ∨ r.slot = uint16Max ∨ r.head = uint16Max then
            clobberOrRejectActiveTail recOff terminal
            pure (true, tailHead)
          else if r.head = 0 then
            indexRemove r.slot
            replayChunk active off nread endOff chunk fuel (pos + 4) tailHead
          else if r.head < fs.indexSectors ∨ r.head ≥ fs.sectorCount then
            clobberOrRejectActiveTail recOff terminal
            pure (true, tailHead)
          else
            let rootOk ← (if terminal then replayRootIsLive r else pure true)
            if rootOk then
              indexInsert r.slot r.head
              replayChunk active off nread endOff chunk fuel (pos + 4) r.head
            else
              clobberOrRejectActiveTail recOff terminal
              pure (true, tailHead)
      else pure (false, tailHead)

/-- The chunk loop of `fffs_replay_index` over one sector. -/
def replaySector (active : Bool) (endOff chunkSize : Nat) : Nat → Nat → Nat → M Nat
  | 0, _, tailHead => pure tailHead
  | fuel + 1, off, tailHead =>
      if off + 4 ≤ endOff then do
        let nread0 := min (endOff - off) chunkSize
        let nread := nread0 - nread0 % 4
        let chunk ← flashRead off nread
        let (done, tailHead) ← replayChunk active off nread endOff chunk nread 0 tailHead
        if done then pure tailHead
        else
          Prog.when active (modifyFs fun fs => { fs with nextIndexOffset := off + nread })
          replaySector active endOff chunkSize fuel (off + nread) tailHead
      else pure tailHead

/-- The sector loop of `fffs_replay_index`. -/
def replaySectors : Nat → Nat → Nat → M Nat
  | 0, _, tailHead => pure tailHead
  | n + 1, sector, tailHead => do
      let fs ← getFs
      let tailHead ← replaySector (sector == fs.activeIndexSector)
        ((sector + 1) * fs.sectorSize) fs.scratchSize fs.sectorSize
        (indexSectorBegin fs sector) tailHead
      replaySectors n (if sector + 1 ≥ fs.indexSectors then 0 else sector + 1) tailHead

/-- The serial a sector of `recover_allocator_hint` gives to the allocator. -/
def recoverSectorSerial (sector : Nat) : M Unit := do
  let fs ← getFs
  match ← Prog.attempt (readSectorSerial sector) with
  | .ok serial =>
      let next := u32 (serial + 1)
      Prog.when (serial ≥ fs.nextSectorSerial)
        (modifyFs fun fs => { fs with nextSectorSerial := if next = 0 then 1 else next })
  | .error _ => pure ()

/-- The loop of `recover_allocator_hint`. -/
def recoverAllocatorLoop : Nat → Nat → M Unit
  | 0, _ => pure ()
  | n + 1, sector => do
      let fs ← getFs
      if validDataSector fs sector = false then pure ()
      else
        recoverSectorSerial sector
        let next := nextDataSector fs sector
        if next ≤ sector then pure () else recoverAllocatorLoop n next

/-- `recover_allocator_hint`. -/
def recoverAllocatorHint (head : Nat) : M Unit := do
  modifyFs fun fs => { fs with allocCursor := nextDataSector fs head }
  recoverAllocatorLoop (allocRecoveryLookahead + 1) head

/-- `fffs_replay_index`. -/
def replayIndex : M Unit := do
  modifyFs fun fs => { fs with nextIndexOffset := indexSectorBegin fs fs.activeIndexSector }
  let fs ← getFs
  let tailHead ← replaySectors fs.indexSequenceCount fs.oldestIndexSector 0
  if tailHead ≠ 0 then recoverAllocatorHint tailHead else pure ()

end Fastffs
