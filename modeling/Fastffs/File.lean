import Fastffs.Alloc

/-!
# File handles

`fffs_file.c`, with the record writers of `fffs_file_md.c` that it drives.

A writer fills one extent after the other.  Contiguous sectors form a span.  The
record of the first sector of a span is begun uncommitted, and finished with the
link and the length of the span once the span ends.  The root of a file that
leaves its first span is finished last, by `fffs_close`, and then the index
record is appended.
-/

namespace Fastffs

open Nor (Byte blank)

variable [Opts]

/-! ## Extent metadata -/

/-- The record type of a sector of the file. -/
def File.mdType (file : File) (sector : Nat) : Byte :=
  if sector = file.head then mdTypeFileRootV1 else mdTypeFileContV1

/-- The data length a record of the file has, with the prefix of a root. -/
def File.logicalDataLen (file : File) (sector dataLen : Nat) : Nat :=
  if sector = file.head then u16 (file.rootPayloadOffset + dataLen) else dataLen

/-- The sum that `logicalDataLen` cuts to sixteen bits. -/
def noteDataLen (file : File) (sector dataLen : Nat) : M Unit :=
  Prog.when (sector = file.head) (note (.narrow [file.rootPayloadOffset + dataLen]))

/-- `fffs_begin_extent_metadata`. -/
def beginExtentMetadata (h sector dataOff recordOff : Nat) (writeFooter : Bool)
    (dataLen fileOffset : Nat) : M Unit := do
  let file ← getFile h
  noteDataLen file sector dataLen
  programExtentMetadata sector file.slot (file.mdType sector) dataOff recordOff writeFooter
    (file.logicalDataLen sector dataLen) 0 (if sector = file.head then 0 else fileOffset) 0 false

/-- `fffs_finish_extent_metadata`.  `totalSize` is written when it is given. -/
def finishExtentMetadata (h sector next spanLen : Nat) (totalSize : Option Nat)
    (makeLive commitIndex : Bool) : M Unit := do
  let file ← getFile h
  let fs ← getFs
  let r ← readUncommittedMetadataForSlot sector file.slot
  let off := sector * fs.sectorSize + r.recordStart
  programAligned (off + 3) (storeLe16 next ++ storeLe16 spanLen)
  totalSize.elim (pure ()) fun size => programAligned (off + 11) (storeLe32 size)
  Prog.when makeLive (programAligned off [lifecycleValid])
  Prog.when commitIndex (appendIndexRecord file.slot file.head)
  Prog.when (sector = file.head ∧ (next ≠ 0 ∨ spanLen > 1)) (markSectorUsed sector)

/-- `fffs_finish_deferred_root_metadata`. -/
def finishDeferredRootMetadata (h : Nat) : M Unit := do
  let file ← getFile h
  let root ← readUncommittedMetadataForSlot file.head file.slot
  finishExtentMetadata h file.head root.next root.spanLen (some file.size) true true

/-- `fffs_write_extent_metadata`, which its callers use without an index commit. -/
def writeExtentMetadata (h sector dataOff recordOff : Nat) (writeFooter : Bool)
    (dataLen spanLen totalSize next fileOffset : Nat) : M Unit := do
  let file ← getFile h
  noteDataLen file sector dataLen
  programExtentMetadata sector file.slot (file.mdType sector) dataOff recordOff writeFooter
    (file.logicalDataLen sector dataLen) spanLen
    (if sector = file.head then totalSize else fileOffset) next true

/-! ## Old chains -/

/-- The tombstones of one span in `fffs_invalidate_old_chain`, from sector `s`
on.  `first` asks for the accounting of the root.  Returns whether all went well,
and `root_accounted`. -/
def tombstoneSpan (slot : Nat) : Nat → Nat → Bool → Bool → M (Bool × Bool)
  | 0, _, _, accounted => pure (true, accounted)
  | n + 1, s, first, accounted => do
      match ← Prog.attempt (tombstoneMetadataForSlot (u16 s) slot first) with
      | .ok a => tombstoneSpan slot n (s + 1) false (if first then a else accounted)
      | .error _ => pure (false, accounted)

/-- The chain loop of `fffs_invalidate_old_chain`.  `next` is the link of the
first record as the caller knows it.  Returns the number of sectors visited, or
`none` for a `false` of the source, and `root_accounted`. -/
def invalidateChainLoop (slot : Nat) : Nat → Nat → Option Nat → Nat → Bool → Bool →
    M (Option Nat × Bool)
  | 0, current, _, visited, _, accounted =>
      pure (if current ≠ 0 then none else some visited, accounted)
  | depth + 1, current, next, visited, first, accounted =>
      if current = 0 then pure (some visited, accounted) else do
        let fs ← getFs
        match ← Prog.attempt (readMdForSlot current slot) with
        | .error _ => pure (none, accounted)
        | .ok r =>
            if current + r.spanLen > fs.sectorCount then pure (none, accounted)
            else
              allocMapMarkRangeUnknown current r.spanLen
              let (ok, accounted) ← (if Opts.lazyDeleteTombstones then pure (true, accounted)
                else tombstoneSpan slot r.spanLen current first accounted)
              if ok then
                invalidateChainLoop slot depth (next.getD r.next) none (visited + r.spanLen) false
                  accounted
              else pure (none, accounted)

/-- The average of `fffs_invalidate_old_chain` after a chain of `visited` sectors. -/
def fsinfoSampleChain (visited : Nat) (fs : Fs) : Fs :=
  let sample := u32 (visited * sectorsPerFileQ8One)
  { fs with avgSectorsPerFileQ8 := u16 (u32 (fs.avgSectorsPerFileQ8 * 7 + sample) / 8) }

/-- `fffs_invalidate_old_chain`.  Its callers use only `root_accounted`. -/
def invalidateOldChain (slot head next : Nat) : M Bool := do
  let fs ← getFs
  let (visited, accounted) ←
    invalidateChainLoop slot fs.sectorCount head (some next) 0 true false
  Prog.when (visited.getD 0 > 0) do
    note (.sample (visited.getD 0))
    modifyFs (fsinfoSampleChain (visited.getD 0))
  pure accounted

/-- Invalidate the chain of a version that is no longer current, with the
accounting both callers do. -/
def invalidateCommitted (slot head next : Nat) : M Unit := do
  let accounted ← invalidateOldChain slot head next
  let fs ← getFs
  Prog.when (fsinfoCommittedValid fs && !accounted) (modifyFs fsinfoInvalidateCommitted)

/-! ## Open -/

/-- The flags of `fffs_open`.  `unknown` is any other bit. -/
structure OpenFlags where
  rdonly : Bool := false
  wronly : Bool := false
  create : Bool := false
  trunc : Bool := false
  excl : Bool := false
  unknown : Bool := false
deriving DecidableEq, Repr

/-- `register_open_file`. -/
def registerOpenFile (h : Nat) : M Unit :=
  modifyFs fun fs => { fs with openFiles := h :: fs.openFiles }

/-- `unregister_open_file`. -/
def unregisterOpenFile (h : Nat) : M Unit :=
  modifyFs fun fs => { fs with openFiles := fs.openFiles.erase h }

/-- The bytes `stage_root_prefix` puts into the cache. -/
def rootPrefix (name : List Byte) : List Byte :=
  [byte (cstr name).length] ++ cstr name ++ [0#8]

/-- `stage_root_prefix`. -/
def stageRootPrefix (name : List Byte) (file : File) : File :=
  { file with rootPayloadOffset := u16 (1 + (cstr name).length + 1), cache := rootPrefix name }

/-- The handle `fffs_open` fills with the version it has found. -/
def File.ofRoot (slot head : Nat) (root : RootMd) (spanLen : Nat) : File :=
  { access := .rdonly, slot := slot, head := head, current := head
    dataOffset := root.payloadDataOff, currentDataLen := root.payloadDataLen
    currentNext := root.next, spanLen := spanLen, size := root.size
    name := cstr root.name, cache := root.cached, closed := false }

/-- The read branch of `fffs_open`. -/
def openRead (h slot head : Nat) (root : RootMd) : M Unit := do
  let r ← readMdForSlot head slot
  modifyFile h fun _ => File.ofRoot slot head root r.spanLen
  registerOpenFile h

/-- The version a writer replaces, as `fffs_open` finds it. -/
def File.setOld (file : File) : Option (Nat × RootMd) → File
  | some (head, root) => { file with oldHead := head, oldNext := root.next }
  | none => file

/-- The handle at the start of the root in `sector`. -/
def File.startRoot (file : File) (name : List Byte) (sector : Nat) : File :=
  stageRootPrefix name
    { file with head := sector, current := sector, name := cstr name, spanHead := sector
                spanLen := 0 }

/-- The write branch of `fffs_open`. -/
def openWrite (h : Nat) (name : List Byte) (resolved : Resolved) : M Unit := do
  modifyFile h fun f => f.setOld resolved.root
  let sector ← allocNextSector h
  note (.narrow [1 + (cstr name).length + 1])
  modifyFile h fun f => f.startRoot name sector
  registerOpenFile h

/-- `fffs_open`. -/
def openFile (h : Nat) (name : List Byte) (flags : OpenFlags) : M Unit := do
  modifyFile h fun _ => { closed := false }
  if flags.rdonly = flags.wronly ∨ flags.unknown then Prog.throw .invalid
  else
    let resolved ← indexResolve name flags.rdonly
    match resolved.root with
    | none =>
        if flags.rdonly then Prog.throw .notFound
        else if flags.create = false then Prog.throw .notFound
        else
          modifyFile h fun f => { f with access := .wronly, slot := resolved.slot }
          openWrite h name resolved
    | some (head, root) =>
        if flags.wronly ∧ (flags.excl ∨ flags.trunc = false) then Prog.throw .exists
        else if flags.rdonly then openRead h resolved.slot head root
        else
          modifyFile h fun f =>
            { f with access := .wronly, slot := resolved.slot, head := head }
          openWrite h name resolved

/-! ## Read and seek -/

/-- The next sector of a read handle. -/
def File.nextSector (file : File) : Nat :=
  if file.spanLen > 1 then u16 (file.current + 1) else file.currentNext

/-- Move a read handle to the extent of the record `r` in a sector. -/
def File.enter (file : File) (sector : Nat) (r : MdRecord) (fileOffset dataPos : Nat) : File :=
  { file with dataOffset := r.dataOff, current := sector, currentDataLen := r.dataLen
              spanLen := r.spanLen, currentNext := r.next, currentFileOffset := fileOffset
              currentDataPos := dataPos, cache := [] }

/-- `reset_read_position_to_root`. -/
def resetReadPositionToRoot (h : Nat) : M Unit := do
  let file ← getFile h
  let root ← readFileRootMdPrefix file.head file.slot false
  modifyFile h fun f =>
    { f with dataOffset := root.payloadDataOff, current := f.head
             currentDataLen := root.payloadDataLen, spanLen := root.spanLen
             currentNext := root.next, currentDataPos := 0, currentFileOffset := 0
             cache := [], cacheDataPos := 0 }

/-- The search loop of `hunt_current_span`. -/
def huntLoop (h target rel estimate : Nat) : Nat → Nat → Nat → M Bool
  | 0, _, _ => Prog.throw .diverges
  | fuel + 1, low, high =>
      if low ≤ high then do
        let file ← getFile h
        let guess := min (max (u16 (rel / estimate)) low) high
        let sector := u16 (file.current + guess)
        let r ← readMdForSlot sector file.slot
        let fileOffset := if r.type = mdTypeFileRootV1 then 0 else r.sizeOrOffset
        if target < fileOffset then
          if guess = 0 then pure false
          else huntLoop h target rel estimate fuel low (guess - 1)
        else if target ≤ u32 (fileOffset + r.dataLen) then
          modifyFile h fun f =>
            { f.enter sector r fileOffset (target - fileOffset) with pos := target }
          pure true
        else huntLoop h target rel estimate fuel (u16 (guess + 1)) high
      else pure false

/-- `hunt_current_span`. -/
def huntCurrentSpan (h target : Nat) : M Bool := do
  let w ← Prog.get
  let file := w.files h
  if file.spanLen ≤ 1 ∨ target ≤ u32 (file.currentFileOffset + file.currentDataLen) then
    pure false
  else
    let size := maxFileDataSize w.dev w.fs
    huntLoop h target (target - file.currentFileOffset) (if size = 0 then 1 else size)
      (file.spanLen + 1) 1 (file.spanLen - 1)

/-- The loop of `seek_from_current_position`, `depth` extents to go. -/
def seekLoop (h target : Nat) : Nat → M Unit
  | 0 => Prog.throw .corrupt
  | depth + 1 => do
      let file ← getFile h
      if target > u32 (file.currentFileOffset + file.currentDataLen) then
        let found ← huntCurrentSpan h target
        if found then pure ()
        else if file.nextSector = 0 ∨ depth = 0 then Prog.throw .corrupt
        else
          let r ← readMdForSlot file.nextSector file.slot
          modifyFile h fun f =>
            f.enter file.nextSector r (u32 (f.currentFileOffset + f.currentDataLen)) 0
          seekLoop h target depth
      else
        modifyFile h fun f =>
          { f with currentDataPos := target - f.currentFileOffset, pos := target }

/-- `seek_read_position`. -/
def seekReadPosition (h target : Nat) : M Unit := do
  let w ← Prog.get
  Prog.when (target < (w.files h).currentFileOffset) (resetReadPositionToRoot h)
  seekLoop h target w.fs.sectorCount

/-- `enum fffs_seek_whence`. -/
inductive Whence where
  | set
  | cur
  | end
deriving DecidableEq, Repr

/-- `fffs_seek`. -/
def seek (h : Nat) (offset : Int) (whence : Whence) : M Nat := do
  let file ← getFile h
  if file.closed ∨ file.access ≠ .rdonly then Prog.throw .invalid
  else
    let base := match whence with
      | .set => 0
      | .cur => file.pos
      | .end => file.size
    let target : Int := base + offset
    if target < 0 ∨ target > file.size then Prog.throw .range
    else
      seekReadPosition h target.toNat
      let file ← getFile h
      pure file.pos

/-- `read_cache_has_remaining`. -/
def readCacheHasRemaining (file : File) : Bool :=
  file.cache.length != 0 && decide (file.cacheDataPos ≤ file.currentDataPos) &&
    decide (file.currentDataPos < file.cacheDataPos + file.cache.length)

/-- The flash address of the position of a read handle. -/
def File.dataAddress (file : File) (fs : Fs) : Nat :=
  file.current * fs.sectorSize + file.dataOffset + file.currentDataPos

/-- `fill_read_cache`. -/
def fillReadCache (h : Nat) : M Unit := do
  let w ← Prog.get
  let file := w.files h
  let n := min (file.currentDataLen - file.currentDataPos) fileCacheSize
  match ← Prog.attempt (flashRead (file.dataAddress w.fs) n) with
  | .ok bs => modifyFile h fun f => { f with cacheDataPos := f.currentDataPos, cache := bs }
  | .error e =>
      -- the backend has read into the cache, whose length and place are still the old ones
      modifyFile h fun f => { f with cache := spoil w.dev.plan n f.cache }
      Prog.throw e

/-- Step to the next extent when the current one is read to its end. -/
def readNextExtent (h : Nat) : M Unit := do
  let file ← getFile h
  if file.currentDataPos ≥ file.currentDataLen then
    if file.nextSector = 0 then Prog.throw .corrupt
    else
      let r ← readMdForSlot file.nextSector file.slot
      modifyFile h fun f =>
        f.enter f.nextSector r (u32 (f.currentFileOffset + f.currentDataLen)) 0
  else pure ()

/-- The bytes one round of `fffs_read` takes, at most `want`. -/
def readRound (h want : Nat) : M (List Byte) := do
  let w ← Prog.get
  let file := w.files h
  let n := min want (file.currentDataLen - file.currentDataPos)
  if readCacheHasRemaining file then
    pure ((file.cache.drop (file.currentDataPos - file.cacheDataPos)).take n)
  else if n < fileCacheSize then
    fillReadCache h
    let file ← getFile h
    pure (file.cache.take want)
  else
    modifyFile h fun f => { f with cache := [] }
    flashRead (file.dataAddress w.fs) n

/-- The loop of `fffs_read`. -/
def readLoop (h : Nat) : Nat → Nat → M (List Byte)
  | 0, want => if want = 0 then pure [] else Prog.throw .diverges
  | fuel + 1, want =>
      if want = 0 then pure [] else do
        readNextExtent h
        let bs ← readRound h want
        modifyFile h fun f =>
          { f with currentDataPos := u32 (f.currentDataPos + bs.length)
                   pos := u32 (f.pos + bs.length) }
        let rest ← readLoop h fuel (want - bs.length)
        pure (bs ++ rest)

/-- `fffs_read`.  Between two bytes a chain that ends visits each sector at most
once, so the fuel is enough for every call that returns. -/
def read (h size : Nat) : M (List Byte) := do
  let w ← Prog.get
  let file := w.files h
  if file.closed ∨ file.access ≠ .rdonly then Prog.throw .invalid
  else
    let want := min size (file.size - file.pos)
    readLoop h ((want + 1) * (w.fs.sectorCount + 2)) want

/-! ## Write -/

/-- `current_extent_capacity`. -/
def currentExtentCapacity (file : File) : Nat :=
  file.currentMetadataOffset - file.dataOffset -
    (if file.current = file.head then file.rootPayloadOffset else 0)

/-- The sum that `pending_span_len` cuts to sixteen bits. -/
def pendingSpan (file : File) : Nat := u32 (file.current + 4294967296 - file.spanHead + 1)

/-- `pending_span_len`. -/
def pendingSpanLen (file : File) : Nat := u16 (file.current + 65536 - file.spanHead + 1)

/-- The bytes `flush_write_cache` programs. -/
def flushBytes (granule : Nat) (final : Bool) (cache : List Byte) : List Byte :=
  if final then cache ++ List.replicate ((granule - cache.length % granule) % granule) blank
  else cache.take (cache.length - cache.length % granule)

/-- `flush_write_cache`. -/
def flushWriteCache (h : Nat) (final : Bool) : M Unit := do
  let w ← Prog.get
  let file := w.files h
  let bs := flushBytes w.dev.programGranule final file.cache
  if bs.isEmpty then pure ()
  else
    note (.flush h final)
    programAligned (file.current * w.fs.sectorSize + file.currentWriteOffset) bs
    modifyFile h fun f =>
      { f with currentWriteOffset := u16 (f.currentWriteOffset + bs.length)
               cache := f.cache.drop bs.length }

/-- `flush_pending_span_head`. -/
def flushPendingSpanHead (h nextSector : Nat) (final : Bool) : M Unit := do
  let file ← getFile h
  if file.spanHead = 0 then pure ()
  else
    note (.narrow [pendingSpan file])
    let isRoot := file.spanHead == file.head
    if isRoot && !final then
      finishExtentMetadata h file.spanHead nextSector (pendingSpanLen file) none false false
      modifyFile h fun f => { f with spanHead := 0 }
    else
      finishExtentMetadata h file.spanHead nextSector (pendingSpanLen file)
        (if isRoot then some file.size else none) true isRoot
      modifyFile h fun f => { f with spanHead := 0 }

/-- Program the record of the extent a writer leaves: begun when it is the first
of its span, live otherwise.  `old` is the handle as it was at the extent. -/
def recordExtent (h : Nat) (old : File) (next : Nat) : M Unit :=
  if old.current = old.spanHead then
    beginExtentMetadata h old.current old.dataOffset old.currentMetadataOffset
      old.currentNeedsFooter old.currentDataLen old.currentFileOffset
  else
    writeExtentMetadata h old.current old.dataOffset old.currentMetadataOffset
      old.currentNeedsFooter old.currentDataLen 1 0 next old.currentFileOffset

/-- The handle at the start of the extent in `next`.  `old` is the handle as it was
at the extent before. -/
def File.startExtent (file old : File) (next : Nat) (canExtendSpan : Bool) : File :=
  { file with current := next, currentDataLen := 0, currentNext := 0
              currentFileOffset := u32 (old.currentFileOffset + old.currentDataLen), cache := []
              spanHead := if canExtendSpan then file.spanHead else next
              spanLen := if canExtendSpan then file.spanLen else 0 }

/-- `start_next_extent`. -/
def startNextExtent (h : Nat) : M Unit := do
  flushWriteCache h true
  let old ← getFile h
  let nextSector ← allocNextSector h
  let file ← getFile h
  Prog.when (nextSector = old.current + 1) (note (.narrow [pendingSpan file]))
  let canExtendSpan := decide (nextSector = old.current + 1) &&
    decide (pendingSpanLen file < uint16Max)
  recordExtent h old nextSector
  Prog.when (canExtendSpan = false) (flushPendingSpanHead h nextSector false)
  modifyFile h fun f => f.startExtent old nextSector canExtendSpan

/-- Take `n` bytes into the cache of a writer. -/
def File.take (file : File) (bs : List Byte) : File :=
  { file with cache := file.cache ++ bs, currentDataLen := u16 (file.currentDataLen + bs.length)
              size := u32 (file.size + bs.length) }

/-- The loop of `fffs_write`. -/
def writeLoop (h : Nat) : Nat → List Byte → M Unit
  | 0, src => if src.isEmpty then pure () else Prog.throw .diverges
  | fuel + 1, src =>
      if src.isEmpty then pure () else do
        let file ← getFile h
        Prog.when (file.currentDataLen ≥ currentExtentCapacity file) (startNextExtent h)
        let file ← getFile h
        let space := min (currentExtentCapacity file - file.currentDataLen)
          (fileCacheSize - file.cache.length)
        let bs := src.take space
        note (.narrow [file.currentDataLen + bs.length])
        modifyFile h fun f => f.take bs
        let file ← getFile h
        Prog.when (file.cache.length = fileCacheSize) (flushWriteCache h false)
        writeLoop h fuel (src.drop bs.length)

/-- `fffs_write`.  A round takes at least one byte, but for a first round that finds the cache
full, as a flush that has failed leaves it. -/
def write (h : Nat) (src : List Byte) : M Unit := do
  let file ← getFile h
  if file.closed ∨ file.access ≠ .wronly then Prog.throw .invalid
  else writeLoop h (src.length + 1) src

/-! ## Close -/

/-- The refresh of the old chain in `fffs_close`, for an old head that the new
root has taken over.  An error of the source is kept and then overwritten. -/
def refreshOldHead (h : Nat) : M Unit := do
  let file ← getFile h
  if file.oldHead = file.head then
    match ← Prog.attempt (indexHeadForSlot file.slot) with
    | .ok (some head) =>
        match ← Prog.attempt (readFileRootMd head file.slot) with
        | .ok r => modifyFile h fun f => { f with oldHead := head, oldNext := r.next }
        | .error _ => pure ()
    | .ok none => modifyFile h fun f => { f with oldHead := 0 }
    | .error _ => pure ()
  else pure ()

/-- The commit of `fffs_close`. -/
def closeWriter (h : Nat) : M Unit := do
  flushWriteCache h true
  let file ← getFile h
  recordExtent h file 0
  let rootDeferred := decide (file.current ≠ file.head) && decide (file.spanHead ≠ file.head)
  refreshOldHead h
  flushPendingSpanHead h 0 true
  Prog.when rootDeferred (finishDeferredRootMetadata h)
  let file ← getFile h
  modifyFs (fsinfoNoteCommittedAdd file.size)
  Prog.when (file.oldHead ≠ 0) (invalidateCommitted file.slot file.oldHead file.oldNext)

/-- The part of `fffs_close` for a writer: its status. -/
def closeCommit (h : Nat) : M (Except Status Unit) := do
  let status ← Prog.attempt (closeWriter h)
  allocReleaseReservation h
  pure status

/-- `fffs_close`. -/
def close (h : Nat) : M Unit := do
  let file ← getFile h
  if file.closed then Prog.throw .invalid
  else
    let status ← (if file.access = .wronly then closeCommit h else pure (.ok ()))
    unregisterOpenFile h
    modifyFile h fun f => { f with closed := true }
    Prog.ofExcept status

/-- `struct fffs_stat`. -/
structure Stat where
  name : List Byte
  size : Nat
deriving DecidableEq, Repr

/-- `fffs_fstat`. -/
def fstat (h : Nat) : M Stat := do
  let file ← getFile h
  if file.closed then Prog.throw .invalid
  else match file.access with
    | .wronly => pure ⟨file.name, file.size⟩
    | .rdonly => do
        let root ← readFileRootMdPrefix file.head file.slot false
        pure ⟨cstr root.name, root.size⟩

end Fastffs
