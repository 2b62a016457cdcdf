import Fastffs.File

/-!
# The file system API

`fastffs.c`: formatting, mounting, lookup by name, deleting and listing.
-/

namespace Fastffs

open Nor (Byte blank)

/-! ## Format -/

/-- `format_sector_shift`.  `0` is `FFFS_SECTOR_DEFAULT`. -/
def formatSectorShift (sectorSize : Nat) : Option Nat :=
  let size := if sectorSize = 0 then sectorSizeOf defaultSectorShift else sectorSize
  (List.range (maxSectorShift + 1)).find? fun shift => sectorSizeOf shift == size

/-- `struct fffs_format_options`.  `0` asks for the default. -/
structure FormatOptions where
  sectorSize : Nat := 0
  indexSectors : Nat := 0
deriving DecidableEq, Repr

/-- `fffs_format`. -/
def format (options : FormatOptions) : M Unit := do
  let w ← Prog.get
  let size := w.dev.size
  let indexSectors := if options.indexSectors ≠ 0 then options.indexSectors
    else defaultIndexSectors
  match formatSectorShift options.sectorSize with
  | none => Prog.throw .invalid
  | some shift =>
      let sectorSize := sectorSizeOf shift
      if validBackend w.dev = false ∨ indexSectors < 2 ∨ indexSectors > 15 ∨
          size % sectorSize ≠ 0 ∨ size / sectorSize < indexSectors ∨
          size / sectorSize > uint16Max then
        Prog.throw .invalid
      else
        backendErase 0 (min (max (max sectorSize 8192) (sectorSize * indexSectors)) size)
        programIndexHeader 0 indexSectors shift 0

variable [Opts]

/-! ## Mount -/

/-- `struct fffs_mount_options`, less the buffers and their sizes in the modes
that need none. -/
structure MountOptions where
  indexHashTableSize : Nat
  scratchSize : Nat
  strict : Bool := false
deriving DecidableEq, Repr

/-- The `struct fffs` of `fffs_mount` for the sequence it has found. -/
def mountedFs (size : Nat) (options : MountOptions) (seq : IndexSequence) : Fs :=
  let sectorSize := sectorSizeOf seq.sectorShift
  indexCacheClear
    { indexHashTableSize := options.indexHashTableSize
      scratchSize := options.scratchSize
      strict := options.strict
      sectorSize := sectorSize
      sectorCount := size / sectorSize
      sectorShift := seq.sectorShift
      indexSectors := seq.indexSectors
      oldestIndexSector := seq.oldestSector
      indexSequenceCount := seq.count
      activeIndexSector := seq.activeSector
      activeIndexSerial := seq.activeSerial
      nextIndexOffset := seq.activeSector * sectorSize + headerSize
      allocCursor := seq.indexSectors
      gcCursor := seq.indexSectors
      nextSectorSerial := 1
      compactionCandidates := noCandidates
      avgSectorsPerFileQ8 := sectorsPerFileQ8One }

/-- `fffs_unmount`. -/
def unmount : M Unit := modifyFs fun _ => {}

/-- The part of `fffs_mount` that a failure undoes with `fffs_unmount`. -/
def mountReplay : M Unit := do
  indexFinishInterruptedCompaction
  modifyFs allocMapInit
  replayIndex

/-- `fffs_mount`, with buffers large enough for the flash. -/
def mount (options : MountOptions) : M Unit := do
  let w ← Prog.get
  if validBackend w.dev = false ∨ indexCacheConfigValid options.indexHashTableSize = false ∨
      options.scratchSize < minScratchSize then
    Prog.throw .invalid
  else
    unmount
    let seq ← findIndexSequence
    let sectorSize := sectorSizeOf seq.sectorShift
    if w.dev.size % sectorSize ≠ 0 ∨ w.dev.size / sectorSize > uint16Max then
      Prog.throw .corrupt
    else
      modifyFs fun _ => mountedFs w.dev.size options seq
      match ← Prog.attempt mountReplay with
      | .ok () => pure ()
      | .error e =>
          unmount
          Prog.throw e

/-! ## Names -/

/-- `fffs_stat`. -/
def stat (name : List Byte) : M Stat := do
  let resolved ← indexResolve name false
  match resolved.root with
  | none => Prog.throw .notFound
  | some (_, root) => pure ⟨cstr root.name, root.size⟩

/-- `fffs_exists`. -/
def exists_ (name : List Byte) : M Bool := do
  match ← Prog.attempt (stat name) with
  | .ok _ => pure true
  | .error .notFound => pure false
  | .error e => Prog.throw e

/-- `fffs_delete_file`. -/
def deleteFile (name : List Byte) : M Unit := do
  let resolved ← indexResolve name false
  match resolved.root with
  | none => Prog.throw .notFound
  | some (head, root) =>
      appendIndexRecord resolved.slot 0
      invalidateCommitted resolved.slot head root.next

/-! ## Directories -/

/-- `struct fffs_dir`. -/
structure Dir where
  pfx : List Byte := []
  iter : IndexIter := {}
  closed : Bool := false
deriving DecidableEq, Repr

/-- `fffs_dir_open`.  `none` is a null prefix. -/
def dirOpen (pfx : Option (List Byte)) : M Dir :=
  match pfx with
  | none => pure {}
  | some p => if (cstr p).length > maxName then Prog.throw .nameTooLong else pure { pfx := cstr p }

/-- The loop of `fffs_index_dir_read`.  The three backends walk the entries of
`fffs_index_iter_read`. -/
def dirReadLoop : Nat → Dir → M (Option Stat × Dir)
  | 0, _ => Prog.throw .diverges
  | fuel + 1, dir => do
      let (entry, it) ← indexIterRead dir.iter
      let dir := { dir with iter := it }
      match entry with
      | none => pure (none, dir)
      | some e =>
          let root ← readFileRootMdPrefix e.head e.slot false
          if dir.pfx.isPrefixOf (cstr root.name) then pure (some ⟨cstr root.name, root.size⟩, dir)
          else dirReadLoop fuel dir

/-- `fffs_dir_read`.  An error is what `fffs_dir_status` reports.  Each call reads the
index anew: the window of the scratch buffer that a build without a cache keeps in the
`fffs_dir` from one call to the next is left out. -/
def dirRead (dir : Dir) : M (Option Stat × Dir) :=
  if dir.closed then Prog.throw .invalid else dirReadLoop (slotCount + 1) dir

/-- The loop of `fffs_list`. -/
def listLoop : Nat → Dir → M (List Stat)
  | 0, _ => Prog.throw .diverges
  | fuel + 1, dir => do
      let (entry, dir) ← dirRead dir
      match entry with
      | none => pure []
      | some st => do
          let rest ← listLoop fuel dir
          pure (st :: rest)

/-- `fffs_list`, with room for every entry. -/
def list : M (List Stat) := do
  let dir ← dirOpen none
  listLoop (slotCount + 1) dir

end Fastffs
