import Fastffs.FreeWindow

/-!
# The bytes of records and footers

A record of a sector is sixteen bytes, and its fields are read back from them
(`mdRecordOf_bytes`).  A record that is begun leaves its link blank, and a root its size: the
second step programs them over blank bytes.  A tombstone clears bits of the first byte.
-/

namespace Fastffs

open Prog
open Nor (Mem Byte blank)

/-! ## Fields -/

theorem byte_toNat (n : Nat) : (byte n).toNat = n % 256 := BitVec.toNat_ofNat n 8

/-- Two bytes give back a number of sixteen bits. -/
theorem le16_bytes {n : Nat} (h : n < 65536) : (byte n).toNat + 256 * (byte (n / 256)).toNat = n := by
  rw [byte_toNat, byte_toNat]
  omega

/-- Four bytes give back a number of thirty-two bits. -/
theorem le32_bytes {n : Nat} (h : n < 4294967296) :
    (byte n).toNat + 256 * (byte (n / 256)).toNat + 65536 * (byte (n / 65536)).toNat +
      16777216 * (byte (n / 16777216)).toNat = n := by
  simp only [byte_toNat]
  omega

/-! ## Records -/

/-- The bytes of a record. -/
def MdRecord.bytes (r : MdRecord) : List Byte :=
  [r.state] ++ storeLe16 r.slot ++ (storeLe16 r.next ++ storeLe16 r.spanLen) ++
    (storeLe16 r.dataOff ++ storeLe16 r.dataLen) ++ storeLe32 r.sizeOrOffset ++ [r.type]

/-- The fields fit in their bytes, and the record is live when its state says so. -/
structure MdRecord.Encodable (r : MdRecord) : Prop where
  slot : r.slot < 65536
  next : r.next < 65536
  spanLen : r.spanLen < 65536
  dataOff : r.dataOff < 65536
  dataLen : r.dataLen < 65536
  sizeOrOffset : r.sizeOrOffset < 4294967296
  live : r.live = stateIsLive r.state

section Records

variable {r : MdRecord}

theorem MdRecord.length_bytes (r : MdRecord) : r.bytes.length = mdFileRecordSize := rfl

/-- The fields are read back from the bytes. -/
theorem mdRecordOf_bytes (h : r.Encodable) : mdRecordOf r.recordStart r.bytes = r := by
  have hslot : loadLe16 r.bytes 1 = r.slot := le16_bytes h.slot
  have hnext : loadLe16 r.bytes 3 = r.next := le16_bytes h.next
  have hspan : loadLe16 r.bytes 5 = r.spanLen := le16_bytes h.spanLen
  have hoff : loadLe16 r.bytes 7 = r.dataOff := le16_bytes h.dataOff
  have hlen : loadLe16 r.bytes 9 = r.dataLen := le16_bytes h.dataLen
  have hsize : loadLe32 r.bytes 11 = r.sizeOrOffset := le32_bytes h.sizeOrOffset
  rw [mdRecordOf, hslot, hnext, hspan, hoff, hlen, hsize]
  have hlive : stateIsLive (byteAt r.bytes 0) = r.live := h.live.symm
  rw [hlive]
  rfl

/-- The record `fffs_program_extent_metadata` writes.  Fields that it leaves blank read as ones. -/
def extentRecord (slot : Nat) (type : Byte) (dataOff recordOff dataLen spanLen sizeOrOffset next : Nat)
    (live : Bool) : MdRecord where
  type := type
  state := if live then lifecycleValid else blank
  live := live
  slot := slot
  next := if live then next else uint16Max
  spanLen := if live then spanLen else uint16Max
  dataOff := dataOff
  dataLen := dataLen
  sizeOrOffset := if type = mdTypeFileRootV1 ∧ live = false then 4294967295 else sizeOrOffset
  recordStart := recordOff

theorem encodeExtentMetadata_eq (slot : Nat) (type : Byte)
    (dataOff recordOff dataLen spanLen sizeOrOffset next : Nat) (live : Bool) :
    encodeExtentMetadata slot type dataOff dataLen spanLen sizeOrOffset next live =
      (extentRecord slot type dataOff recordOff dataLen spanLen sizeOrOffset next live).bytes := by
  have hlink : storeLe16 uint16Max ++ storeLe16 uint16Max = List.replicate 4 blank := by decide
  cases live with
  | true => simp [encodeExtentMetadata, extentRecord, MdRecord.bytes]
  | false =>
    by_cases htype : type = mdTypeFileRootV1
    · simp [encodeExtentMetadata, extentRecord, MdRecord.bytes, htype, ← hlink]
      rfl
    · simp [encodeExtentMetadata, extentRecord, MdRecord.bytes, htype, ← hlink]

/-! ## The second step -/

/-- The record with the link and, when it is given, the size of `fffs_finish_extent_metadata`. -/
def MdRecord.finish (next spanLen : Nat) (totalSize : Option Nat) (makeLive : Bool) (r : MdRecord) : MdRecord :=
  { r with next := next, spanLen := spanLen, sizeOrOffset := totalSize.getD r.sizeOrOffset
           state := if makeLive then lifecycleValid else r.state
           live := if makeLive then true else r.live }

/-- The record after its tombstone. -/
def MdRecord.kill (r : MdRecord) : MdRecord := { r with state := lifecycleTombstoned, live := false }

/-- What is programmed over `old`: a field that is blank, or the same value again. -/
def overwrites (old new : List Byte) : Prop := old = List.replicate new.length blank ∨ old = new

theorem zipWith_overwrites {old new : List Byte} (h : overwrites old new) :
    List.zipWith (· &&& ·) old new = new := by
  rcases h with rfl | rfl
  · induction new with
    | nil => rfl
    | cons b bs ih =>
      rw [List.length_cons, List.replicate_succ, List.zipWith_cons_cons, ih]
      exact congrArg (· :: bs) BitVec.allOnes_and
  · induction old with
    | nil => rfl
    | cons b bs ih => rw [List.zipWith_cons_cons, ih, BitVec.and_self]

/-! ## On the flash -/

variable {m : Mem} {off : Nat}

/-- The link of a record, over a blank link or over the same. -/
theorem read_link {next spanLen : Nat} (h : Nor.read m off mdFileRecordSize = r.bytes)
    (hover : overwrites (storeLe16 r.next ++ storeLe16 r.spanLen) (storeLe16 next ++ storeLe16 spanLen)) :
    Nor.read (Nor.program m (off + 3) (storeLe16 next ++ storeLe16 spanLen)) off mdFileRecordSize =
      { r with next := next, spanLen := spanLen }.bytes := by
  have hparts : r.bytes = ([r.state] ++ storeLe16 r.slot) ++ (storeLe16 r.next ++ storeLe16 r.spanLen) ++
      (storeLe16 r.dataOff ++ storeLe16 r.dataLen ++ storeLe32 r.sizeOrOffset ++ [r.type]) := by
    simp [MdRecord.bytes]
  have hread := Nor.read_program_part (x := storeLe16 next ++ storeLe16 spanLen) (h.trans hparts) rfl rfl
  rw [zipWith_overwrites hover] at hread
  exact hread.trans (by simp [MdRecord.bytes])

/-- The size of a record, over a blank size or over the same. -/
theorem read_size {size : Nat} (h : Nor.read m off mdFileRecordSize = r.bytes)
    (hover : overwrites (storeLe32 r.sizeOrOffset) (storeLe32 size)) :
    Nor.read (Nor.program m (off + 11) (storeLe32 size)) off mdFileRecordSize =
      { r with sizeOrOffset := size }.bytes := by
  have hparts : r.bytes = ([r.state] ++ storeLe16 r.slot ++ (storeLe16 r.next ++ storeLe16 r.spanLen) ++
      (storeLe16 r.dataOff ++ storeLe16 r.dataLen)) ++ storeLe32 r.sizeOrOffset ++ [r.type] := rfl
  have hread := Nor.read_program_part (x := storeLe32 size) (h.trans hparts) rfl rfl
  rw [zipWith_overwrites hover] at hread
  exact hread

/-- The state of a record loses bits. -/
theorem read_state {b : Byte} (h : Nor.read m off mdFileRecordSize = r.bytes) :
    Nor.read (Nor.program m off [b]) off mdFileRecordSize = { r with state := r.state &&& b }.bytes := by
  have hparts : r.bytes = [] ++ [r.state] ++ r.bytes.tail := rfl
  have hread := Nor.read_program_part (x := [b]) (h.trans hparts) rfl rfl
  rw [List.length_nil, Nat.add_zero] at hread
  exact hread

end Records

/-! ## Footers -/

/-- The bytes of the footer of a live file sector. -/
def footerBytes (serial : Nat) (full : Bool) : List Byte :=
  storeLe32 serial ++ [sectorTypeFile, if full then lifecycleValid &&& lifecycleFull else
    lifecycleValid] ++ sectorMagic

theorem encodeSectorFooter_eq (serial : Nat) : encodeSectorFooter serial true = footerBytes serial false := rfl

theorem footerBytes_isLive (serial : Nat) (full : Bool) :
    (decodeSectorFooter (footerBytes serial full)).isLive = true := by
  have hstate : (decodeSectorFooter (footerBytes serial full)).isLive =
      stateIsLive (byteAt (footerBytes serial full) 5) := rfl
  have hbyte : byteAt (footerBytes serial full) 5 =
      if full then lifecycleValid &&& lifecycleFull else lifecycleValid := rfl
  rw [hstate, hbyte]
  cases full <;> decide

/-- The footer of a file sector decodes as one. -/
theorem decodeSectorFooter_bytes (serial : Nat) (full : Bool) :
    (decodeSectorFooter (footerBytes serial full)).erased = false ∧
      (decodeSectorFooter (footerBytes serial full)).type = sectorTypeFile ∧
      (decodeSectorFooter (footerBytes serial full)).magicValid = true ∧
      (decodeSectorFooter (footerBytes serial full)).isLive = true := by
  have hmagic : ∀ bs cs : List Byte, (bs ++ cs ++ sectorMagic).all (· == blank) = false := by
    intro bs cs
    rw [List.all_append, show sectorMagic.all (· == blank) = false by decide, Bool.and_false]
  exact ⟨hmagic _ _, rfl, (by decide : (sectorMagic.take 4 == sectorMagic) = true),
    footerBytes_isLive serial full⟩

end Fastffs
