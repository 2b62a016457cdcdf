import Fastffs.Flash

/-!
# Data sectors

`fffs_sector.c` and `fffs_sector_reader.c`.  A data sector ends in a footer of ten
bytes: a serial, a type, a lifecycle byte and a magic.

A sector is read through a window.  The programs here take the reader as the source's
caller holds it and hand back the reader it has afterwards.  After an error no caller
looks at its reader again.
-/

namespace Fastffs

open Nor (Byte blank)

/-- `struct fffs_sector_reader`.  `data` holds the bytes loaded from `start` on. -/
structure SectorReader where
  data : List Byte := []
  capacity : Nat := mdPreloadMax
  sector : Nat := 0
  start : Nat := 0
  reverse : Bool := true
deriving DecidableEq

/-- Point the reader at a sector.  A window of another sector is dropped. -/
def SectorReader.enter (reader : SectorReader) (sector : Nat) : SectorReader :=
  if reader.sector = sector then reader
  else { reader with sector := sector, start := 0, data := [] }

/-- The window holds `size` bytes from `off` on. -/
def SectorReader.holds (reader : SectorReader) (off size : Nat) : Bool :=
  decide (reader.data.length ≠ 0) && decide (reader.start ≤ off) &&
    decide (size ≤ reader.data.length) &&
    decide (off - reader.start ≤ reader.data.length - size)

/-- `size` bytes of the window from `off` on. -/
def SectorReader.bytes (reader : SectorReader) (off size : Nat) : List Byte :=
  (reader.data.drop (off - reader.start)).take size

/-- Where a window that is to show `size` bytes from `off` on starts, and its length. -/
def SectorReader.span (reader : SectorReader) (sectorSize off size : Nat) : Nat × Nat :=
  if reader.reverse then (off + size - min reader.capacity (off + size), min reader.capacity (off + size))
  else (off, min reader.capacity (sectorSize - off))

/-- `fffs_sector_reader_view`. -/
def sectorReaderView (reader : SectorReader) (sector off size : Nat) :
    M (List Byte × SectorReader) := do
  let fs ← getFs
  if sector ≥ fs.sectorCount ∨ off > fs.sectorSize ∨ size > fs.sectorSize - off ∨
      size > reader.capacity then
    Prog.throw .invalid
  else
    let reader := reader.enter sector
    if reader.holds off size then pure (reader.bytes off size, reader)
    else
      let (start, len) := reader.span fs.sectorSize off size
      let data ← flashRead (sector * fs.sectorSize + start) len
      let reader := { reader with start := start, data := data }
      pure (reader.bytes off size, reader)

/-- `fffs_max_file_data_size`. -/
def maxFileDataSize (d : Device) (fs : Fs) : Nat :=
  let raw := min (fs.sectorSize - sectorFooterSize - mdFileRecordSize) uint16Max
  raw - raw % d.programGranule

/-- `fffs_sector_footer_offset`. -/
def sectorFooterOffset (fs : Fs) (sector : Nat) : Nat :=
  sector * fs.sectorSize + fs.sectorSize - sectorFooterSize

/-- `struct fffs_sector_footer`. -/
structure SectorFooter where
  serial : Nat
  type : Byte
  state : Byte
  erased : Bool
  magicValid : Bool
  validBits : Bitmirror
  tombstoneBits : Bitmirror
  fullBits : Bitmirror
deriving DecidableEq

/-- `fffs_decode_sector_footer`. -/
def decodeSectorFooter (footer : List Byte) : SectorFooter where
  serial := loadLe32 footer 0
  type := byteAt footer 4
  state := byteAt footer 5
  erased := flashBytesErased footer
  magicValid := (footer.drop 6).take 4 == sectorMagic
  validBits := lifecycleValidPair (byteAt footer 5)
  tombstoneBits := lifecycleTombstonePair (byteAt footer 5)
  fullBits := lifecycleHintPair (byteAt footer 5)

/-- The footer is that of a live file sector. -/
def SectorFooter.isLive (f : SectorFooter) : Bool := lifecycleIsLive f.validBits f.tombstoneBits

/-- View and decode the footer of a sector. -/
def readSectorFooter (reader : SectorReader) (sector : Nat) : M (SectorFooter × SectorReader) := do
  let fs ← getFs
  let (bs, reader) ← sectorReaderView reader sector (fs.sectorSize - sectorFooterSize)
    sectorFooterSize
  pure (decodeSectorFooter bs, reader)

/-- `fffs_read_sector_serial`. -/
def readSectorSerial (sector : Nat) : M Nat := do
  let fs ← getFs
  if sector < fs.indexSectors ∨ sector ≥ fs.sectorCount then Prog.throw .corrupt else
  let (view, _) ← readSectorFooter { capacity := sectorFooterSize } sector
  if view.type ≠ sectorTypeFile ∨ view.magicValid = false then Prog.throw .corrupt else
  let tombstoned := view.validBits != .mixed && view.tombstoneBits == .cleared
  if !view.isLive && !tombstoned then Prog.throw .corrupt else
  pure view.serial

/-- `fffs_encode_sector_footer`. -/
def encodeSectorFooter (serial : Nat) (valid : Bool) : List Byte :=
  storeLe32 serial ++ [sectorTypeFile, if valid then lifecycleValid else blank] ++ sectorMagic

/-- `fffs_tombstone_sector`. -/
def tombstoneSector (sector : Nat) : M Unit := do
  let fs ← getFs
  programAligned (sectorFooterOffset fs sector + 4)
    [sectorTypeFile, lifecycleTombstoned, blank, blank]

/-- `fffs_mark_sector_full`. -/
def markSectorFull (sector : Nat) : M Unit := do
  let fs ← getFs
  programAligned (sectorFooterOffset fs sector + 5) [lifecycleFull]

/-- `fffs_next_data_sector`. -/
def nextDataSector (fs : Fs) (sector : Nat) : Nat :=
  if sector + 1 < fs.indexSectors ∨ sector + 1 ≥ fs.sectorCount then fs.indexSectors
  else sector + 1

/-! ## The allocation map -/

variable [Opts]

/-- `fffs_alloc_map_maybe_used`. -/
def allocMapMaybeUsed (fs : Fs) (sector : Nat) : Bool :=
  match Opts.allocMapMode with
  | .fullBitmap => if sector ≥ fs.sectorCount then false else fs.allocMap sector
  | .none => false

/-- Write one bit of `alloc_map`. -/
def allocMapMark (sector : Nat) (used : Bool) (fs : Fs) : Fs :=
  match Opts.allocMapMode with
  | .fullBitmap =>
      if sector ≥ fs.sectorCount then fs
      else { fs with allocMap := fun s => if s = sector then used else fs.allocMap s }
  | .none => fs

/-- `fffs_alloc_map_mark_used`. -/
def allocMapMarkUsed (sector : Nat) : M Unit := modifyFs (allocMapMark sector true)

/-- `fffs_alloc_map_mark_unknown`. -/
def allocMapMarkUnknown (sector : Nat) : M Unit := modifyFs (allocMapMark sector false)

/-- `fffs_alloc_map_mark_range_unknown`. -/
def allocMapMarkRangeUnknown (first : Nat) : Nat → M Unit
  | 0 => pure ()
  | count + 1 => do
      allocMapMarkUnknown (u16 first)
      allocMapMarkRangeUnknown (first + 1) count

/-- The part of `fffs_alloc_map_mount_init` that fills the map. -/
def allocMapInit (fs : Fs) : Fs :=
  match Opts.allocMapMode with
  | .fullBitmap => { fs with allocMap := fun s => decide (s < fs.indexSectors) }
  | .none => fs

end Fastffs
