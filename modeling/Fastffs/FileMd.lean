import Fastffs.Sector

/-!
# File metadata records

The part of `fffs_file_md.c` below the index: decoding a record, walking the
records of a sector from its footer backward, looking one up by its slot,
tombstoning it, finding the free window of a sector and programming a record.

A record is sixteen bytes, its type last.  A walk stops at an erased type byte,
at an invalid record, or where the records meet the data they claim.
-/

namespace Fastffs

open Nor (Byte blank)

/-! ## Records and the walk -/

/-- `struct fffs_md_record`, less the constant `record_len`. -/
structure MdRecord where
  type : Byte := 0#8
  state : Byte := 0#8
  live : Bool := false
  slot : Nat := 0
  next : Nat := 0
  spanLen : Nat := 0
  dataOff : Nat := 0
  dataLen : Nat := 0
  sizeOrOffset : Nat := 0
  recordStart : Nat := 0
deriving DecidableEq, Repr

/-- `enum fffs_md_walk_result`. -/
inductive MdWalkResult where
  | record
  | endErased
  | endClaimedData
  | endInvalid
deriving DecidableEq, Repr

/-- The lifecycle byte of a record says that it is live. -/
def stateIsLive (state : Byte) : Bool :=
  lifecycleIsLive (lifecycleValidPair state) (lifecycleTombstonePair state)

/-- The fields of the sixteen bytes of a record. -/
def mdRecordOf (recordStart : Nat) (buf : List Byte) : MdRecord where
  type := byteAt buf 15
  state := byteAt buf 0
  live := stateIsLive (byteAt buf 0)
  slot := loadLe16 buf 1
  next := loadLe16 buf 3
  spanLen := loadLe16 buf 5
  dataOff := loadLe16 buf 7
  dataLen := loadLe16 buf 9
  sizeOrOffset := loadLe32 buf 11
  recordStart := recordStart

/-- The checks `decode_file_md_record` makes on a record it has read. -/
def mdRecordOk (fs : Fs) (sector : Nat) (r : MdRecord) : Bool :=
  let uncommitted := r.state == blank
  (uncommitted || r.live || lifecycleValidPair r.state == .cleared) &&
    decide (r.dataOff + r.dataLen ≤ r.recordStart) &&
    (uncommitted ||
      (decide (r.spanLen ≠ 0) && decide (sector + r.spanLen ≤ fs.sectorCount) &&
        (decide (r.next = 0) ||
          (decide (fs.indexSectors ≤ r.next) && decide (r.next < fs.sectorCount)))))

/-- `decode_file_md_record`. -/
def decodeFileMdRecord (reader : SectorReader) (sector cursor : Nat) :
    M ((MdRecord × MdWalkResult) × SectorReader) := do
  let fs ← getFs
  let (t, reader) ← sectorReaderView reader sector (cursor - 1) 1
  let type := byteAt t 0
  if type = blank then pure (({}, .endErased), reader)
  else if cursor < sectorFooterSize + mdFileRecordSize then Prog.throw .corrupt
  else
    let recordStart := cursor - mdFileRecordSize
    if type ≠ mdTypeFileRootV1 ∧ type ≠ mdTypeFileContV1 then
      pure (({ type := type, recordStart := recordStart }, .endInvalid), reader)
    else
      let (buf, reader) ← sectorReaderView reader sector recordStart mdFileRecordSize
      if flashBytesErased buf then pure (({}, .endErased), reader)
      else
        let r := mdRecordOf recordStart buf
        pure ((r, if mdRecordOk fs sector r then .record else .endInvalid), reader)

/-- `valid_data_sector`. -/
def validDataSector (fs : Fs) (sector : Nat) : Bool :=
  decide (fs.indexSectors ≤ sector) && decide (sector < fs.sectorCount)

/-- A walk before the first record of a sector. -/
def MdWalk.begin (fs : Fs) (sector : Nat) : MdWalk where
  sector := sector
  cursor := fs.sectorSize - sectorFooterSize
  liveBytes := sectorFooterSize
  active := true

/-- `fffs_md_walk_init`. -/
def mdWalkInit (reader : SectorReader) (sector : Nat) : M (MdWalk × SectorReader) := do
  let fs ← getFs
  if reader.capacity < mdFileRecordSize + sectorFooterSize ∨ validDataSector fs sector = false then
    Prog.throw .invalid
  else pure (.begin fs sector, reader.enter sector)

/-- The walk after it has passed a record. -/
def MdWalk.pass (walk : MdWalk) (r : MdRecord) : MdWalk :=
  let claimed := max walk.claimedDataEnd (r.dataOff + r.dataLen)
  { walk with cursor := r.recordStart, claimedDataEnd := claimed,
              active := decide (claimed < r.recordStart) }

/-- `fffs_md_walk_next`. -/
def mdWalkNext (reader : SectorReader) (walk : MdWalk) :
    M ((MdWalk × MdRecord × MdWalkResult) × SectorReader) := do
  if walk.active = false ∨ walk.sector ≠ reader.sector then Prog.throw .invalid
  else if walk.cursor ≤ sectorFooterSize then
    pure (({ walk with active := false }, {}, .endClaimedData), reader)
  else
    let ((r, result), reader) ← decodeFileMdRecord reader walk.sector walk.cursor
    if result = .record then pure ((walk.pass r, r, .record), reader)
    else pure (({ walk with active := false }, r, result), reader)

/-! ## Lookup by slot -/

/-- `enum fffs_md_slot_match`. -/
inductive MdSlotMatch where
  | live
  | uncommitted
deriving DecidableEq

/-- `md_record_matches_slot`. -/
def mdRecordMatchesSlot (r : MdRecord) (wantSlot : Nat) : MdSlotMatch → Bool
  | .uncommitted => r.slot == wantSlot && r.state == blank
  | .live => r.slot == wantSlot && r.live

/-- The status of `read_md_for_slot` when no record matches. -/
def MdSlotMatch.missing : MdSlotMatch → Status
  | .uncommitted => .notFound
  | .live => .corrupt

/-- The loop of `read_md_for_slot`. -/
def readMdForSlotLoop (wantSlot : Nat) (m : MdSlotMatch) :
    Nat → SectorReader → MdWalk → M MdRecord
  | 0, _, _ => Prog.throw m.missing
  | fuel + 1, reader, walk =>
      if walk.active = false then Prog.throw m.missing else do
        let ((walk, r, result), reader) ← mdWalkNext reader walk
        if result ≠ .record then Prog.throw .corrupt
        else if mdRecordMatchesSlot r wantSlot m then pure r
        else readMdForSlotLoop wantSlot m fuel reader walk

/-- `read_md_for_slot`. -/
def readMdForSlotBy (sector wantSlot : Nat) (m : MdSlotMatch) : M MdRecord := do
  let fs ← getFs
  if validDataSector fs sector = false then Prog.throw .corrupt else
  let (footer, reader) ← readSectorFooter {} sector
  if footer.erased ∨ footer.type ≠ sectorTypeFile ∨ footer.magicValid = false ∨
      footer.isLive = false then
    Prog.throw m.missing
  else
    let (walk, reader) ← mdWalkInit reader sector
    readMdForSlotLoop wantSlot m fs.sectorSize reader walk

/-- `fffs_read_md_for_slot`. -/
def readMdForSlot (sector wantSlot : Nat) : M MdRecord := readMdForSlotBy sector wantSlot .live

/-- `read_uncommitted_metadata_for_slot`. -/
def readUncommittedMetadataForSlot (sector wantSlot : Nat) : M MdRecord :=
  readMdForSlotBy sector wantSlot .uncommitted

/-- `fffs_read_file_root_md` when the caller asks for no part of the data. -/
def readFileRootMd (sector wantSlot : Nat) : M MdRecord := do
  let r ← readMdForSlot sector wantSlot
  if r.type ≠ mdTypeFileRootV1 then Prog.throw .corrupt else pure r

/-- What `fffs_read_file_root_md` reads of a root and of the prefix of its data. -/
structure RootMd where
  name : List Byte
  size : Nat
  payloadDataOff : Nat
  payloadDataLen : Nat
  next : Nat
  spanLen : Nat
  /-- The payload bytes left in the caller's cache view. -/
  cached : List Byte
deriving DecidableEq

/-- `read_root_prefix`.  A read cache takes the place of the local buffer. -/
def readRootPrefix (sector : Nat) (r : MdRecord) (useCache : Bool) : M RootMd := do
  let fs ← getFs
  if r.dataLen < 2 then Prog.throw .corrupt else
  let nread := min r.dataLen (if useCache then fileCacheSize else maxName + 2)
  let buf ← flashRead (sector * fs.sectorSize + r.dataOff) nread
  let nameLen := (byteAt buf 0).toNat
  let vmetaLenOff := 1 + nameLen
  if nameLen = 0 ∨ nameLen > maxName ∨ vmetaLenOff ≥ r.dataLen ∨ vmetaLenOff ≥ nread then
    Prog.throw .corrupt
  else
    let payloadOff := 1 + nameLen + 1 + (byteAt buf vmetaLenOff).toNat
    if payloadOff > r.dataLen then Prog.throw .corrupt else
    pure { name := (buf.drop 1).take nameLen
           size := r.sizeOrOffset
           payloadDataOff := u16 (r.dataOff + payloadOff)
           payloadDataLen := u16 (r.dataLen - payloadOff)
           next := r.next
           spanLen := r.spanLen
           cached := if useCache then buf.drop payloadOff else [] }

/-- `fffs_read_file_root_md` with the name and the place of the payload. -/
def readFileRootMdPrefix (sector wantSlot : Nat) (useCache : Bool) : M RootMd := do
  let r ← readFileRootMd sector wantSlot
  readRootPrefix sector r useCache

/-! ## Committed counts -/

/-- `fffs_fsinfo_committed_valid`. -/
def fsinfoCommittedValid (fs : Fs) : Bool := fs.committedFilesValid && fs.committedBytesValid

/-- `fffs_fsinfo_invalidate_committed`. -/
def fsinfoInvalidateCommitted (fs : Fs) : Fs :=
  { fs with committedFilesValid := false, committedBytesValid := false }

/-- `fffs_fsinfo_note_committed_add`. -/
def fsinfoNoteCommittedAdd (size : Nat) (fs : Fs) : Fs :=
  if fsinfoCommittedValid fs then
    { fs with committedFileCount := u32 (fs.committedFileCount + 1)
              committedDataBytes := u32 (fs.committedDataBytes + size) }
  else fs

/-- `fffs_fsinfo_note_committed_delete`. -/
def fsinfoNoteCommittedDelete (size : Nat) (fs : Fs) : Fs :=
  if fsinfoCommittedValid fs = false then fs
  else if fs.committedFileCount = 0 ∨ fs.committedDataBytes < size then
    fsinfoInvalidateCommitted fs
  else
    { fs with committedFileCount := fs.committedFileCount - 1
              committedDataBytes := fs.committedDataBytes - size }

/-! ## Tombstones -/

/-- The loop of `fffs_tombstone_metadata_for_slot`.  Returns `accounted`. -/
def tombstoneMetadataLoop (sector wantSlot : Nat) (committedDelete : Bool) :
    Nat → SectorReader → MdWalk → M Bool
  | 0, _, _ => pure false
  | fuel + 1, reader, walk =>
      if walk.active = false then pure false else do
        let ((walk, r, result), reader) ← mdWalkNext reader walk
        if result = .endInvalid then Prog.throw .corrupt
        else if result ≠ .record then pure false
        else if r.live = false ∨ r.slot ≠ wantSlot then
          tombstoneMetadataLoop sector wantSlot committedDelete fuel reader walk
        else
          let fs ← getFs
          programAligned (sector * fs.sectorSize + r.recordStart) [lifecycleTombstoned]
          if committedDelete ∧ r.type = mdTypeFileRootV1 then
            modifyFs (fsinfoNoteCommittedDelete r.sizeOrOffset)
            pure true
          else pure false

/-- `fffs_tombstone_metadata_for_slot`.  `committedDelete` is the accounting
`FFFS_TOMBSTONE_COMMITTED_DELETE`. -/
def tombstoneMetadataForSlot (sector wantSlot : Nat) (committedDelete : Bool) : M Bool := do
  let fs ← getFs
  if validDataSector fs sector = false then Prog.throw .corrupt else
  let (footer, reader) ← readSectorFooter {} sector
  if footer.erased then pure false
  else if footer.type ≠ sectorTypeFile ∨ footer.magicValid = false then Prog.throw .corrupt
  else if footer.validBits ≠ .mixed ∧ footer.tombstoneBits = .cleared then pure false
  else if footer.isLive = false then Prog.throw .corrupt
  else
    let (walk, reader) ← mdWalkInit reader sector
    tombstoneMetadataLoop sector wantSlot committedDelete fs.sectorSize reader walk

/-! ## Free windows -/

/-- The window `fffs_find_sector_free_window` returns. -/
structure FreeWindow where
  dataOff : Nat
  recordOff : Nat
  needsFooter : Bool
  mdRecords : Nat
deriving DecidableEq, Repr

/-- What the walk of `fffs_find_sector_free_window` collects. -/
structure WindowScan where
  maxDataEnd : Nat := 0
  metadataStart : Nat
  recordCount : Nat := 0

/-- The walk of `fffs_find_sector_free_window`. -/
def freeWindowLoop (sector rejectSlot : Nat) (normalAllocation : Bool) :
    Nat → SectorReader → MdWalk → WindowScan → M WindowScan
  | 0, _, _, scan => pure scan
  | fuel + 1, reader, walk, scan =>
      if walk.active = false then pure scan else do
        let ((walk, r, result), reader) ← mdWalkNext reader walk
        match result with
        | .endErased => pure scan
        | .endInvalid => Prog.throw .noSpace
        | .endClaimedData => pure scan
        | .record =>
            if normalAllocation ∧ r.type = mdTypeFileContV1 then
              let _ ← Prog.attempt (markSectorFull sector)
              Prog.throw .noSpace
            else if r.live ∧ r.slot = rejectSlot then Prog.throw .noSpace
            else
              freeWindowLoop sector rejectSlot normalAllocation fuel reader walk
                { maxDataEnd := max scan.maxDataEnd (r.dataOff + r.dataLen)
                  metadataStart := r.recordStart
                  recordCount := scan.recordCount + 1 }

/-- `fffs_find_sector_free_window`. -/
def findSectorFreeWindow (sector minFree rejectSlot : Nat) (normalAllocation : Bool) :
    M FreeWindow := do
  let fs ← getFs
  if validDataSector fs sector = false then Prog.throw .invalid else
  let (view, reader) ← readSectorFooter {} sector
  let footerOff := fs.sectorSize - sectorFooterSize
  if view.erased then
    flashSpanIsErased (sector * fs.sectorSize) fs.sectorSize
    if footerOff < mdFileRecordSize ∨ footerOff - mdFileRecordSize < minFree then
      Prog.throw .noSpace
    else
      note (.narrow [footerOff - mdFileRecordSize])
      pure { dataOff := 0, recordOff := u16 (footerOff - mdFileRecordSize)
             needsFooter := true, mdRecords := 0 }
  else if view.type ≠ sectorTypeFile ∨ view.magicValid = false ∨ view.isLive = false then
    Prog.throw .noSpace
  else if normalAllocation ∧ view.fullBits = .cleared then Prog.throw .noSpace
  else
    let (walk, reader) ← mdWalkInit reader sector
    let scan ← freeWindowLoop sector rejectSlot normalAllocation fs.sectorSize reader walk
      { metadataStart := footerOff }
    if scan.recordCount ≥ allocMaxMdRecordsPerSector then
      let _ ← Prog.attempt (markSectorFull sector)
      Prog.throw .noSpace
    else
      let newRecordOff := scan.metadataStart - mdFileRecordSize
      if newRecordOff < scan.maxDataEnd ∨ newRecordOff - scan.maxDataEnd < minFree then
        if normalAllocation then
          let _ ← Prog.attempt (markSectorFull sector)
          Prog.throw .noSpace
        else Prog.throw .noSpace
      else
        flashSpanIsErased (sector * fs.sectorSize + scan.maxDataEnd)
          (newRecordOff - scan.maxDataEnd)
        note (.narrow [scan.maxDataEnd, newRecordOff, scan.recordCount])
        pure { dataOff := u16 scan.maxDataEnd, recordOff := u16 newRecordOff
               needsFooter := false, mdRecords := u16 scan.recordCount }

/-! ## Programming a record -/

/-- `claim_sector_serial`. -/
def claimSectorSerial : M Nat := do
  let fs ← getFs
  let next := u32 (fs.nextSectorSerial + 1)
  modifyFs fun fs => { fs with nextSectorSerial := if next = 0 then 1 else next }
  pure fs.nextSectorSerial

/-- The sixteen bytes `fffs_program_extent_metadata` programs. -/
def encodeExtentMetadata (slot : Nat) (type : Byte) (dataOff dataLen spanLen sizeOrOffset next : Nat)
    (live : Bool) : List Byte :=
  [if live then lifecycleValid else blank] ++ storeLe16 slot ++
    (if live then storeLe16 next ++ storeLe16 spanLen else List.replicate 4 blank) ++
    storeLe16 dataOff ++ storeLe16 dataLen ++
    (if type = mdTypeFileRootV1 ∧ live = false then List.replicate 4 blank
      else storeLe32 sizeOrOffset) ++ [type]

variable [Opts]

/-- Set the full hint of a sector, and its bit of the allocation map. -/
def markSectorUsed (sector : Nat) : M Unit := do
  markSectorFull sector
  allocMapMarkUsed sector

/-- `fffs_program_extent_metadata`. -/
def programExtentMetadata (sector slot : Nat) (type : Byte) (dataOff recordOff : Nat)
    (writeFooter : Bool) (dataLen spanLen sizeOrOffset next : Nat) (live : Bool) : M Unit := do
  if type ≠ mdTypeFileRootV1 ∧ type ≠ mdTypeFileContV1 then Prog.throw .invalid else
  let fs ← getFs
  let md := encodeExtentMetadata slot type dataOff dataLen spanLen sizeOrOffset next live
  let off := sector * fs.sectorSize + recordOff
  let footer ← (if writeFooter then do
      let serial ← claimSectorSerial
      pure (encodeSectorFooter serial true)
    else pure [])
  programAligned off (md ++ footer)
  let dataEnd := dataOff + dataLen
  let lowFree := decide (dataEnd ≥ recordOff) || decide (recordOff - dataEnd < allocMinUsableFree)
  Prog.when (type = mdTypeFileContV1 ∨ lowFree) (markSectorUsed sector)

end Fastffs
