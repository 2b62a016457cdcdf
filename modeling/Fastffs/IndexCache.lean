import Fastffs.FileMd

/-!
# The namespace index in RAM

The three backends of the namespace index: the open-addressed hash table of
`fffs_hashtable_index.c`, the array of heads of `fffs_ram_index.c`, and the
scans of the log on flash of `fffs_nocache_index.c`.  `Opts.indexCacheMode`
picks one.

The scans of the log read each record from the flash.  The source reads it
through a window of the scratch buffer that it reloads when a record lies
outside.
-/

namespace Fastffs

open Nor (Byte blank)

/-! ## Slots in use -/

/-- `fffs_slot_is_pinned`. -/
def slotIsPinned (w : World) (slot : Nat) : Bool :=
  w.fs.openFiles.any fun h => !(w.files h).closed && (w.files h).slot == slot

/-- `fffs_sector_is_open_for_writing`. -/
def sectorIsOpenForWriting (w : World) (sector : Nat) : Bool :=
  w.fs.openFiles.any fun h =>
    let file := w.files h
    !file.closed && file.access == .wronly &&
      (file.head == sector || file.current == sector ||
        (file.spanHead != 0 && decide (file.spanHead ≤ sector) && decide (sector ≤ file.current)))

/-! ## The hash table -/

/-- `bucket_for`. -/
def bucketFor (size slot : Nat) : Nat := slot &&& (size - 1)

/-- `probe_distance`, of two positions below the table size. -/
def probeDistance (size a b : Nat) : Nat := (b + size - a) &&& (size - 1)

/-- The probe loop of `find_slot_bucket`: the bucket it stops at and whether it
holds the slot.  `none` is `FFFS_ERR_NO_SPACE`. -/
def findSlotBucketLoop (table : List IndexBucket) (size slot : Nat) :
    Nat → Nat → Option (Nat × Bool)
  | 0, _ => none
  | n + 1, pos =>
      let b := table.getD pos {}
      if b.slot = 0 then some (pos, false)
      else if b.slot = slot then some (pos, true)
      else findSlotBucketLoop table size slot n ((pos + 1) &&& (size - 1))

/-- `find_slot_bucket`, for a slot other than `0`. -/
def findSlotBucket (fs : Fs) (slot : Nat) : Option (Nat × Bool) :=
  findSlotBucketLoop fs.buckets fs.indexHashTableSize slot fs.indexHashTableSize
    (bucketFor fs.indexHashTableSize slot)

/-- The loop of `remove_bucket_at`.  It ends only at an empty bucket, so `none`
is a loop that does not end: the table has no empty bucket in `n` positions. -/
def removeBucketLoop (size : Nat) : Nat → List IndexBucket → Nat → Nat →
    Option (List IndexBucket)
  | 0, _, _, _ => none
  | n + 1, table, hole, idx =>
      let b := table.getD idx {}
      if b.slot = 0 then some (table.set hole {})
      else
        let home := bucketFor size b.slot
        let next := (idx + 1) &&& (size - 1)
        if probeDistance size home hole < probeDistance size home idx then
          removeBucketLoop size n (table.set hole b) idx next
        else removeBucketLoop size n table hole next

/-- `remove_bucket_at`. -/
def removeBucketAt (size : Nat) (table : List IndexBucket) (removeIdx : Nat) :
    Option (List IndexBucket) :=
  removeBucketLoop size (size + 1) table removeIdx ((removeIdx + 1) &&& (size - 1))

/-- `is_power_of_two`. -/
def isPowerOfTwo (n : Nat) : Bool := n != 0 && n &&& (n - 1) == 0

/-! ## Reading the log -/

/-- `logical_index_sector`, and `logical_sector` of the no-cache backend. -/
def logicalIndexSector (fs : Fs) (seqPos : Nat) : Nat :=
  (fs.oldestIndexSector + seqPos) % fs.indexSectors

/-- `index_sector_begin`. -/
def indexSectorBegin (fs : Fs) (sector : Nat) : Nat := sector * fs.sectorSize + headerSize

/-- `index_sector_end`. -/
def indexSectorEnd (fs : Fs) (sector : Nat) : Nat :=
  if sector = fs.activeIndexSector then fs.nextIndexOffset else (sector + 1) * fs.sectorSize

/-- A record of the index: a slot and its head sector. -/
structure IndexRecord where
  slot : Nat
  head : Nat
deriving DecidableEq, Repr

/-- The record is free space. -/
def IndexRecord.erased (r : IndexRecord) : Bool := r.slot == uint16Max && r.head == uint16Max

/-- The record was clobbered by recovery. -/
def IndexRecord.clobbered (r : IndexRecord) : Bool := r.slot == 0 && r.head == 0

/-- The record in four bytes of a buffer. -/
def indexRecordAt (bs : List Byte) (pos : Nat) : IndexRecord :=
  ⟨loadLe16 bs pos, loadLe16 bs (pos + 2)⟩

/-- `fffs_read_index_record`. -/
def readIndexRecord (off : Nat) : M IndexRecord := do
  let rec_ ← flashRead off 4
  pure (indexRecordAt rec_ 0)

/-! ## The scans of the no-cache backend -/

/-- The inner loop of `newer_record_for_slot`. -/
def newerInSector (slot endOff : Nat) : Nat → Nat → M Bool
  | 0, _ => pure false
  | fuel + 1, off =>
      if off + 4 ≤ endOff then do
        let r ← readIndexRecord off
        if r.erased then pure false
        else if r.clobbered then newerInSector slot endOff fuel (off + 4)
        else if r.slot = slot then pure true
        else newerInSector slot endOff fuel (off + 4)
      else pure false

/-- The outer loop of `newer_record_for_slot`, over `n` sectors of the sequence. -/
def newerRecordLoop (slot : Nat) : Nat → Nat → Nat → M Bool
  | 0, _, _ => pure false
  | n + 1, seqPos, off => do
      let fs ← getFs
      let newer ← newerInSector slot (indexSectorEnd fs (logicalIndexSector fs seqPos))
        fs.sectorSize off
      let begin_ := indexSectorBegin fs (logicalIndexSector fs (seqPos + 1))
      if newer then pure true else newerRecordLoop slot n (seqPos + 1) begin_

/-- `newer_record_for_slot`: a record of the slot after the one at `off`. -/
def newerRecordForSlot (seqPos off slot : Nat) : M Bool := do
  let fs ← getFs
  newerRecordLoop slot (fs.indexSequenceCount - seqPos) seqPos (off + 4)

/-- The last record of the slot in a sector, scanning backward from `off`. -/
def lastInSector (slot begin_ : Nat) : Nat → Nat → M (Option IndexRecord)
  | 0, _ => pure none
  | fuel + 1, off =>
      if begin_ + 4 ≤ off then do
        let r ← readIndexRecord (off - 4)
        if r.erased ∨ r.slot ≠ slot then lastInSector slot begin_ fuel (off - 4)
        else pure (some r)
      else pure none

/-- The sector loop of the no-cache `fffs_index_head_for_slot`. -/
def headForSlotScan (slot : Nat) : Nat → M (Option Nat)
  | 0 => pure none
  | seqCount + 1 => do
      let fs ← getFs
      let sector := logicalIndexSector fs seqCount
      let last ← lastInSector slot (indexSectorBegin fs sector) fs.sectorSize
        (indexSectorEnd fs sector)
      match last with
      | some r => pure (if r.head = 0 then none else some r.head)
      | none => headForSlotScan slot seqCount

/-- `candidate_offset`: the distance of a slot in the probe window of `base`. -/
def candidateOffset (slot : Nat) : Nat → Nat → Nat → Option Nat
  | 0, _, _ => none
  | n + 1, d, candidate =>
      if candidate = slot then some d else candidateOffset slot n (d + 1) (nextSlot candidate)

/-- `candidate_slot`. -/
def candidateSlot (base : Nat) : Nat → Nat
  | 0 => base
  | d + 1 => nextSlot (candidateSlot base d)

/-- The cursor of `fffs_index_iter` and of a directory. -/
structure IndexIter where
  pos : Nat := 0
  cursorSeqPos : Nat := 0
  cursorOffset : Nat := 0
deriving DecidableEq, Repr

/-- The inner loop of `current_index_entry_read`: the next current record of the
sector and the cursor after it, or the cursor the loop leaves. -/
def currentEntryInSector (seqPos endOff : Nat) : Nat → Nat → IndexIter →
    M (Option IndexRecord × IndexIter)
  | 0, _, it => pure (none, it)
  | fuel + 1, off, it =>
      if off + 4 ≤ endOff then do
        let it := { it with cursorSeqPos := seqPos, cursorOffset := off + 4 }
        let r ← readIndexRecord off
        if r.erased then pure (none, it)
        else if r.clobbered ∨ r.head = 0 then currentEntryInSector seqPos endOff fuel (off + 4) it
        else
          let newer ← newerRecordForSlot seqPos off r.slot
          if newer then currentEntryInSector seqPos endOff fuel (off + 4) it
          else pure (some r, it)
      else pure (none, it)

/-- The outer loop of `current_index_entry_read`. -/
def currentEntryLoop : Nat → Nat → Nat → IndexIter → M (Option IndexRecord × IndexIter)
  | 0, _, _, it => pure (none, it)
  | n + 1, seqPos, off, it => do
      let fs ← getFs
      let (entry, it) ← currentEntryInSector seqPos
        (indexSectorEnd fs (logicalIndexSector fs seqPos)) fs.sectorSize off it
      match entry with
      | some r => pure (some r, it)
      | none =>
          if seqPos + 1 < fs.indexSequenceCount then
            let off := indexSectorBegin fs (logicalIndexSector fs (seqPos + 1))
            currentEntryLoop n (seqPos + 1) off
              { it with cursorSeqPos := seqPos + 1, cursorOffset := off }
          else pure (none, it)

/-- `current_index_entry_read`. -/
def currentIndexEntryRead (it : IndexIter) : M (Option IndexRecord × IndexIter) := do
  let fs ← getFs
  let off := if it.cursorSeqPos = 0 ∧ it.cursorOffset = 0 then
    indexSectorBegin fs (logicalIndexSector fs 0) else it.cursorOffset
  currentEntryLoop (fs.indexSequenceCount - it.cursorSeqPos) it.cursorSeqPos off it

/-! ## The backend API -/

variable [Opts]

/-- `fffs_index_cache_config_valid`. -/
def indexCacheConfigValid (count : Nat) : Bool :=
  match Opts.indexCacheMode with
  | .none => true
  | .hashHeads => isPowerOfTwo count && decide (count ≤ indexHashTableSizeMax)
  | .fullSlotHeads => decide (slotCount ≤ count)

/-- The empty cache of `fffs_mount`. -/
def indexCacheClear (fs : Fs) : Fs :=
  { fs with buckets := List.replicate fs.indexHashTableSize {}, indexHeads := fun _ => 0 }

/-- `fffs_index_head_for_slot`.  `none` is `found == false`. -/
def indexHeadForSlot (slot : Nat) : M (Option Nat) := do
  let fs ← getFs
  match Opts.indexCacheMode with
  | .none => headForSlotScan slot fs.indexSequenceCount
  | .fullSlotHeads => pure (if fs.indexHeads slot = 0 then none else some (fs.indexHeads slot))
  | .hashHeads =>
      if slot = 0 then Prog.throw .invalid
      else match findSlotBucket fs slot with
        | some (idx, true) => pure (some (fs.buckets.getD idx {}).head)
        | _ => pure none

/-- `fffs_index_insert`. -/
def indexInsert (slot head : Nat) : M Unit := do
  let fs ← getFs
  match Opts.indexCacheMode with
  | .none => pure ()
  | .fullSlotHeads =>
      modifyFs fun fs => { fs with indexHeads := fun s => if s = slot then head else fs.indexHeads s }
  | .hashHeads =>
      if slot = 0 then Prog.throw .invalid
      else match findSlotBucket fs slot with
        | some (idx, _) => modifyFs fun fs => { fs with buckets := fs.buckets.set idx ⟨slot, head⟩ }
        | none => Prog.throw .noSpace

/-- `fffs_index_remove`. -/
def indexRemove (slot : Nat) : M Unit := do
  let fs ← getFs
  match Opts.indexCacheMode with
  | .none => pure ()
  | .fullSlotHeads =>
      modifyFs fun fs => { fs with indexHeads := fun s => if s = slot then 0 else fs.indexHeads s }
  | .hashHeads =>
      if slot = 0 then Prog.throw .invalid
      else match findSlotBucket fs slot with
        | some (idx, true) =>
            match removeBucketAt fs.indexHashTableSize fs.buckets idx with
            | some table => modifyFs fun fs => { fs with buckets := table }
            | none => Prog.throw .diverges
        | _ => pure ()

/-- `fffs_index_set`. -/
def indexSet (slot head : Nat) : M Unit :=
  if head = 0 then indexRemove slot else indexInsert slot head

/-- `fffs_index_record_is_current`. -/
def indexRecordIsCurrent (seqPos off slot head : Nat) : M Bool :=
  match Opts.indexCacheMode with
  | .none => do
      let newer ← newerRecordForSlot seqPos off slot
      pure !newer
  | _ => do
      let current ← indexHeadForSlot slot
      pure (current == some head)

/-- What `fffs_index_resolve` returns: the slot, and for a found name its head
and root. -/
structure Resolved where
  slot : Nat
  root : Option (Nat × RootMd)

/-- The probe loop of `fffs_index_resolve` over a cached index.  `firstFree` is
the first free slot met so far. -/
def resolveProbe (name : List Byte) (useCache : Bool) : Nat → Nat → Option Nat → M Resolved
  | 0, _, firstFree =>
      match firstFree with
      | some slot => pure ⟨slot, none⟩
      | none => Prog.throw .noSpace
  | n + 1, candidate, firstFree => do
      match ← indexHeadForSlot candidate with
      | none =>
          let w ← Prog.get
          let free := if firstFree = none ∧ slotIsPinned w candidate = false then some candidate
            else firstFree
          resolveProbe name useCache n (nextSlot candidate) free
      | some head =>
          let root ← readFileRootMdPrefix head candidate useCache
          if cstr root.name = cstr name then pure ⟨candidate, some (head, root)⟩
          else resolveProbe name useCache n (nextSlot candidate) firstFree

/-- `resolve_reached_slot`. -/
def resolveReachedSlot (base : Nat) (occupied : List Nat) : Nat → Nat → M Nat
  | 0, _ => Prog.throw .noSpace
  | n + 1, d => do
      let w ← Prog.get
      let candidate := candidateSlot base d
      if d ∉ occupied ∧ slotIsPinned w candidate = false then pure candidate
      else resolveReachedSlot base occupied n (d + 1)

/-- The bitsets of the no-cache `fffs_index_resolve`, as lists of distances. -/
structure ProbeSets where
  occupied : List Nat := []
  deleted : List Nat := []

/-- The record loop of the no-cache `fffs_index_resolve`, backward from `off`. -/
def resolveInSector (name : List Byte) (useCache : Bool) (base begin_ : Nat) :
    Nat → Nat → ProbeSets → M (ProbeSets × Option Resolved)
  | 0, _, sets => pure (sets, none)
  | fuel + 1, off, sets =>
      if begin_ + 4 ≤ off then do
        let off := off - 4
        let fs ← getFs
        let r ← readIndexRecord off
        if r.erased ∨ r.clobbered then resolveInSector name useCache base begin_ fuel off sets
        else match candidateOffset r.slot (maxProbeDistance + 1) 0 base with
          | none => resolveInSector name useCache base begin_ fuel off sets
          | some d =>
              if d ∈ sets.occupied ∨ d ∈ sets.deleted then
                resolveInSector name useCache base begin_ fuel off sets
              else if r.head = 0 then
                resolveInSector name useCache base begin_ fuel off
                  { sets with deleted := d :: sets.deleted }
              else if r.head < fs.indexSectors ∨ r.head ≥ fs.sectorCount then Prog.throw .corrupt
              else
                let root ← readFileRootMdPrefix r.head r.slot useCache
                let sets := { sets with occupied := d :: sets.occupied }
                if cstr root.name = cstr name then
                  pure (sets, some ⟨r.slot, some (r.head, root)⟩)
                else resolveInSector name useCache base begin_ fuel off sets
      else pure (sets, none)

/-- The sector loop of the no-cache `fffs_index_resolve`. -/
def resolveScan (name : List Byte) (useCache : Bool) (base : Nat) :
    Nat → ProbeSets → M Resolved
  | 0, sets => do
      let slot ← resolveReachedSlot base sets.occupied (maxProbeDistance + 1) 0
      pure ⟨slot, none⟩
  | seqCount + 1, sets => do
      let fs ← getFs
      let sector := logicalIndexSector fs seqCount
      let (sets, found) ← resolveInSector name useCache base (indexSectorBegin fs sector)
        fs.sectorSize (indexSectorEnd fs sector) sets
      match found with
      | some r => pure r
      | none => resolveScan name useCache base seqCount sets

/-- `fffs_index_resolve`. -/
def indexResolve (name : List Byte) (useCache : Bool) : M Resolved := do
  let nameLen := (cstr name).length
  if nameLen = 0 then Prog.throw .invalid
  else if nameLen > maxName then Prog.throw .nameTooLong
  else
    let base := normalizeSlotBase (hash16 name)
    match Opts.indexCacheMode with
    | .none => do
        let fs ← getFs
        resolveScan name useCache base fs.indexSequenceCount {}
    | _ => resolveProbe name useCache (maxProbeDistance + 1) base none

/-- The first bucket in use from `pos` on. -/
def iterBuckets (table : List IndexBucket) : Nat → Nat → Option IndexRecord × Nat
  | 0, pos => (none, pos)
  | n + 1, pos =>
      let b := table.getD pos {}
      if b.slot = 0 then iterBuckets table n (pos + 1) else (some ⟨b.slot, b.head⟩, pos + 1)

/-- The first slot with a head from `pos` on. -/
def iterHeads (heads : Nat → Nat) : Nat → Nat → Option IndexRecord × Nat
  | 0, pos => (none, pos)
  | n + 1, pos =>
      if heads pos = 0 then iterHeads heads n (pos + 1) else (some ⟨pos, heads pos⟩, pos + 1)

/-- `fffs_index_iter_read`. -/
def indexIterRead (it : IndexIter) : M (Option IndexRecord × IndexIter) := do
  let fs ← getFs
  match Opts.indexCacheMode with
  | .none => currentIndexEntryRead it
  | .hashHeads =>
      let (entry, pos) := iterBuckets fs.buckets (fs.indexHashTableSize - it.pos) it.pos
      pure (entry, { it with pos := pos })
  | .fullSlotHeads =>
      let (entry, pos) := iterHeads fs.indexHeads (slotCount - it.pos) it.pos
      pure (entry, { it with pos := pos })

end Fastffs
