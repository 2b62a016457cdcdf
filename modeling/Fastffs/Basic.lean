import Fastffs.Lib.Nor
import Fastffs.Lib.Prog

/-!
# On-flash constants and encodings

The constants of `fffs_internal.h`, `fffs_opts.h` and `fastffs.h`, the
little-endian loads and stores, and the mirrored-bit lifecycle bytes of
`fffs_bitmirror.h`.

Numbers are natural numbers.  Where the source stores one in a `uint8_t`, a
`uint16_t` or a `uint32_t`, the model cuts it with `u8`, `u16` or `u32`.
-/

namespace Fastffs

open Nor (Byte blank)

/-! ## Constants -/

def headerSize : Nat := 8
def mdFileRecordSize : Nat := 16
def sectorFooterSize : Nat := 10
def lifecycleValid : Byte := 0x7e#8
def lifecycleTombstoned : Byte := 0x3c#8
def lifecycleFull : Byte := 0x5a#8
def mdTypeFileRootV1 : Byte := 0x11#8
def mdTypeFileContV1 : Byte := 0x12#8
def sectorTypeFile : Byte := 0x01#8
def indexVersion : Byte := 1#8
def indexFlagsValid : Byte := 0x7f#8
/-- The magic `"FFFS"` of an index sector. -/
def indexMagic : List Byte := [0x46#8, 0x46#8, 0x46#8, 0x53#8]
/-- The magic `"FFSD"` of a data sector. -/
def sectorMagic : List Byte := [0x46#8, 0x46#8, 0x53#8, 0x44#8]
def sectorsPerFileQ8One : Nat := 256
def defaultSectorShift : Nat := 4
def minSectorShift : Nat := 0
def maxSectorShift : Nat := 15
def defaultIndexSectors : Nat := 2
def maxName : Nat := 32
def maxProbeDistance : Nat := 50
def slotCount : Nat := 65536
def uint16Max : Nat := 65535

/-! ## The numeric options of the default build -/

def indexHashTableSizeMax : Nat := 16384
def allocRecoveryLookahead : Nat := 4
def allocReserveSectors : Nat := 4
def allocMinUsableFree : Nat := 128
def allocMaxMdRecordsPerSector : Nat := 32
def allocTargetDensity : Nat := 6
def compactionCandidateCount : Nat := 4
def compactionReserveSectors : Nat := 5
def mdPreloadMax : Nat := 128
def minScratchSize : Nat := 64
def fileCacheSize : Nat := 256

/-! ## Fixed-width numbers -/

/-- Conversion to `uint8_t`. -/
def u8 (n : Nat) : Nat := n % 256

/-- Conversion to `uint16_t`. -/
def u16 (n : Nat) : Nat := n % 65536

/-- Conversion to `uint32_t`. -/
def u32 (n : Nat) : Nat := n % 4294967296

theorem u16_of_lt {n : Nat} (h : n < 65536) : u16 n = n := Nat.mod_eq_of_lt h

theorem u32_of_lt {n : Nat} (h : n < 4294967296) : u32 n = n := Nat.mod_eq_of_lt h

theorem u16_lt (n : Nat) : u16 n < 65536 := Nat.mod_lt _ (by decide)

/-- The low byte of a number. -/
def byte (n : Nat) : Byte := BitVec.ofNat 8 n

/-- Byte `i` of a buffer, as the source reads `p[i]`. -/
def byteAt (bs : List Byte) (i : Nat) : Byte := bs.getD i blank

/-- `fffs_load_le16`. -/
def loadLe16 (bs : List Byte) (i : Nat) : Nat :=
  (byteAt bs i).toNat + 256 * (byteAt bs (i + 1)).toNat

theorem loadLe16_lt (bs : List Byte) (i : Nat) : loadLe16 bs i < 65536 := by
  have h1 := (byteAt bs i).isLt
  have h2 := (byteAt bs (i + 1)).isLt
  rw [loadLe16]
  omega

/-- `fffs_load_le32`. -/
def loadLe32 (bs : List Byte) (i : Nat) : Nat :=
  (byteAt bs i).toNat + 256 * (byteAt bs (i + 1)).toNat + 65536 * (byteAt bs (i + 2)).toNat +
    16777216 * (byteAt bs (i + 3)).toNat

/-- `fffs_store_le16`. -/
def storeLe16 (v : Nat) : List Byte := [byte v, byte (v / 256)]

/-- `fffs_store_le32`. -/
def storeLe32 (v : Nat) : List Byte :=
  [byte v, byte (v / 256), byte (v / 65536), byte (v / 16777216)]

/-- `fffs_flash_bytes_erased`. -/
def flashBytesErased (bs : List Byte) : Bool := bs.all (· == blank)

/-! ## Mirrored bits -/

/-- `enum fffs_bitmirror_state`. -/
inductive Bitmirror where
  | set
  | cleared
  | mixed
deriving DecidableEq, Repr

/-- `fffs_bitmirror_state`, for a mask that is not zero. -/
def bitmirrorState (value mask : Byte) : Bitmirror :=
  if value &&& mask = mask then .set else if value &&& mask = 0#8 then .cleared else .mixed

/-- `fffs_lifecycle_valid_pair`. -/
def lifecycleValidPair (state : Byte) : Bitmirror := bitmirrorState state 0x81#8

/-- `fffs_lifecycle_tombstone_pair`. -/
def lifecycleTombstonePair (state : Byte) : Bitmirror := bitmirrorState state 0x42#8

/-- `fffs_lifecycle_hint_pair`. -/
def lifecycleHintPair (state : Byte) : Bitmirror := bitmirrorState state 0x24#8

/-- `fffs_lifecycle_is_live`. -/
def lifecycleIsLive (validBits tombstoneBits : Bitmirror) : Bool :=
  validBits == .cleared && tombstoneBits == .set

/-! ## Names -/

/-- The bytes of a C string, up to its terminator. -/
def cstr (bs : List Byte) : List Byte := bs.takeWhile (· != 0#8)

/-- `fffs_hash16`: FNV-1a folded to 16 bits. -/
def hash16 (name : List Byte) : Nat :=
  let h := (cstr name).foldl (fun h c => u32 ((h ^^^ c.toNat) * 16777619)) 2166136261
  u16 ((h >>> 16) ^^^ h)

/-- `fffs_normalize_slot_base`. -/
def normalizeSlotBase (slot : Nat) : Nat :=
  if slot = 0 then 1 else if slot = uint16Max then 0x7fff else slot

/-- `fffs_next_slot`. -/
def nextSlot (slot : Nat) : Nat :=
  let s := u16 (slot + 1)
  if s = 0 ∨ s = uint16Max then 1 else s

end Fastffs
