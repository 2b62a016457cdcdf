import Fastffs.Basic

/-!
# The state of a mounted file system

`World` is everything the source reads and writes: the flash device behind the
backend callbacks, `struct fffs`, and the caller's `struct fffs_file` handles.
A program of the model is a `Prog` over it that stops with a status other than
`FFFS_OK`.

The device answers each call from its plan.  An empty plan is a backend that
never fails.  A plan can make a call report an error, or cut the power during
it: the bits of `keep` stay as they were, and from then on no call changes the
flash.

The modes of `fffs_opts.h` are a class, so that a statement holds for every
build.  The numeric options are those of the default build (`Basic`).
-/

namespace Fastffs

open Nor (Byte Mem)

/-! ## Options -/

/-- `FFFS_INDEX_CACHE_MODE`. -/
inductive IndexCacheMode where
  | none
  | hashHeads
  | fullSlotHeads
deriving DecidableEq, Repr

/-- `FFFS_ALLOC_MAP_MODE`. -/
inductive AllocMapMode where
  | none
  | fullBitmap
deriving DecidableEq, Repr

/-- The compile-time modes of `fffs_opts.h`. -/
class Opts where
  indexCacheMode : IndexCacheMode
  allocMapMode : AllocMapMode
  lazyDeleteTombstones : Bool
  gcOnAllocFailure : Bool
  gcParanoidReachability : Bool
  compactionReserveBestFit : Bool

/-- The modes of the default build. -/
@[reducible] def defaultOpts : Opts where
  indexCacheMode := .hashHeads
  allocMapMode := .fullBitmap
  lazyDeleteTombstones := false
  gcOnAllocFailure := true
  gcParanoidReachability := false
  compactionReserveBestFit := false

/-- The failing values of `enum fffs_status`, and `diverges` for a call that
does not return. -/
inductive Status where
  | invalid
  | nomem
  | range
  | noSpace
  | notFound
  | exists
  | nameTooLong
  | corrupt
  | io
  | diverges
deriving DecidableEq, Repr

/-! ## The flash device -/

/-- What happens at one backend call. -/
inductive Fault where
  /-- The call works. -/
  | pass
  /-- The call reports an error.  A program leaves the bits of `keep` alone, an
  erase happens when `done` is set, a read leaves the bytes of `keep` in its buffer. -/
  | fail (keep : Nat → Byte) (done : Bool)
  /-- Power is lost during the call, with the effect of `fail`. -/
  | cut (keep : Nat → Byte) (done : Bool)
  /-- Power is off. -/
  | off

/-- The flash chip behind `struct fffs_backend`. -/
structure Device where
  mem : Mem
  programGranule : Nat
  /-- The answers to the coming calls.  The empty plan never fails. -/
  plan : List Fault

/-- `backend->size`. -/
def Device.size (d : Device) : Nat := d.mem.size

/-- The plan after one call. -/
def Device.nextPlan : List Fault → List Fault
  | [] => []
  | .off :: _ => [.off]
  | .cut _ _ :: _ => [.off]
  | _ :: rest => rest

/-- The bytes a torn program still programs. -/
def tear (bs : List Byte) (keep : Nat → Byte) : List Byte :=
  bs.mapIdx fun i b => b ||| keep i

/-- `backend->read`. -/
def Device.read (d : Device) (off n : Nat) : Option (List Byte) × Device :=
  let d' := { d with plan := nextPlan d.plan }
  match d.plan with
  | [] | .pass :: _ =>
      if off + n ≤ d.mem.size then (some (Nor.read d.mem off n), d') else (none, d')
  | _ => (none, d')

/-- A buffer after `backend->read` has failed to read `n` bytes into it. -/
def spoil (plan : List Fault) (n : Nat) (buf : List Byte) : List Byte :=
  match plan with
  | .fail keep _ :: _ | .cut keep _ :: _ => buf.mapIdx fun i b => if i < n then keep i else b
  | _ => buf

/-- `backend->program`.  `true` is the success code `0`. -/
def Device.program (d : Device) (off : Nat) (bs : List Byte) : Bool × Device :=
  let d' := { d with plan := nextPlan d.plan }
  if off + bs.length ≤ d.mem.size then
    match d.plan with
    | [] | .pass :: _ => (true, { d' with mem := Nor.program d.mem off bs })
    | .fail keep _ :: _ | .cut keep _ :: _ =>
        (false, { d' with mem := Nor.program d.mem off (tear bs keep) })
    | .off :: _ => (false, d')
  else (false, d')

/-- `backend->erase`. -/
def Device.erase (d : Device) (off n : Nat) : Bool × Device :=
  let d' := { d with plan := nextPlan d.plan }
  if off + n ≤ d.mem.size then
    match d.plan with
    | [] | .pass :: _ => (true, { d' with mem := Nor.erase d.mem off n })
    | .fail _ done :: _ | .cut _ done :: _ =>
        (false, if done then { d' with mem := Nor.erase d.mem off n } else d')
    | .off :: _ => (false, d')
  else (false, d')

/-! ## Records of the source -/

/-- `struct fffs_md_walk`. -/
structure MdWalk where
  cursor : Nat := 0
  claimedDataEnd : Nat := 0
  liveBytes : Nat := 0
  sector : Nat := 0
  liveRootCount : Nat := 0
  liveSeen : Bool := false
  liveRootSeen : Bool := false
  liveContinuationSeen : Bool := false
  openSeen : Bool := false
  active : Bool := false
deriving DecidableEq, Repr

/-- `struct fffs_compaction_candidate`.  Sector `0` marks an unused entry. -/
structure CompactionCandidate where
  sector : Nat := 0
  trappedReclaimable : Nat := 0
  liveRootCount : Nat := 0
deriving DecidableEq, Repr

/-- `struct fffs_index_bucket`.  Slot `0` marks an empty bucket. -/
structure IndexBucket where
  slot : Nat := 0
  head : Nat := 0
deriving DecidableEq, Repr

/-- `struct fffs`, less the callbacks (`Device`) and the scratch buffer with its
serial.  Only an open `fffs_dir` of a build without a cache looks at what an earlier
call has left in the buffer. -/
structure Fs where
  openFiles : List Nat := []
  /-- The buckets of the hash cache. -/
  buckets : List IndexBucket := []
  /-- `index_heads`, the cache with one head for each slot. -/
  indexHeads : Nat → Nat := fun _ => 0
  indexHashTableSize : Nat := 0
  scratchSize : Nat := 0
  /-- The bits of `alloc_map`. -/
  allocMap : Nat → Bool := fun _ => false
  sectorSize : Nat := 0
  sectorCount : Nat := 0
  sectorShift : Nat := 0
  indexSectors : Nat := 0
  oldestIndexSector : Nat := 0
  indexSequenceCount : Nat := 0
  activeIndexSector : Nat := 0
  nextIndexOffset : Nat := 0
  activeIndexSerial : Nat := 0
  allocCursor : Nat := 0
  gcCursor : Nat := 0
  /-- `compaction_reserve_sectors`, the first `compaction_reserve_count` entries. -/
  compactionReserve : List Nat := []
  gcMd : MdWalk := {}
  compactionCandidates : List CompactionCandidate := []
  strict : Bool := false
  nextSectorSerial : Nat := 0
  committedFilesValid : Bool := false
  committedBytesValid : Bool := false
  committedFileCount : Nat := 0
  committedDataBytes : Nat := 0
  avgSectorsPerFileQ8 : Nat := 0

/-- The access mode of a handle. -/
inductive Access where
  | rdonly
  | wronly
deriving DecidableEq, Repr

/-- `struct fffs_file`.  `cache` holds the first `cache_len` bytes of the
source's cache, and `access` is the one access bit `fffs_open` lets through. -/
structure File where
  access : Access := .rdonly
  slot : Nat := 0
  head : Nat := 0
  current : Nat := 0
  dataOffset : Nat := 0
  currentDataLen : Nat := 0
  currentNext : Nat := 0
  currentWriteOffset : Nat := 0
  currentMetadataOffset : Nat := 0
  rootPayloadOffset : Nat := 0
  spanHead : Nat := 0
  spanLen : Nat := 0
  oldHead : Nat := 0
  oldNext : Nat := 0
  reserveFirst : Nat := 0
  reserveCount : Nat := 0
  size : Nat := 0
  pos : Nat := 0
  currentDataPos : Nat := 0
  cacheDataPos : Nat := 0
  currentFileOffset : Nat := 0
  name : List Byte := []
  cache : List Byte := []
  currentNeedsFooter : Bool := false
  closed : Bool := true
deriving DecidableEq, Repr

/-- The acts that statements speak about. -/
inductive Act where
  /-- `fffs_alloc_next_sector` returns a sector to a handle. -/
  | alloc (h sector : Nat)
  /-- `reserve_after` is about to ask whether it may reserve a sector. -/
  | reserve (sector : Nat)
  /-- `fffs_alloc_find_compaction_root_window` picks a sector to copy to. -/
  | copyTo (sector : Nat)
  /-- A sector is about to be erased. -/
  | erase (sector : Nat)
  /-- `flush_write_cache` is about to program the bytes it takes from the cache of a handle. -/
  | flush (h : Nat) (final : Bool)
  /-- The numbers are about to be cut to sixteen bits. -/
  | narrow (values : List Nat)
  /-- `fffs_invalidate_old_chain` is about to add the sectors of a chain to its average. -/
  | sample (visited : Nat)
deriving DecidableEq, Repr

/-- An act, with the file system and the handles at that moment. -/
structure Event where
  act : Act
  fs : Fs
  files : Nat → File

/-- The device, the mounted file system and the handles of the caller.  The
trace lists the acts so far, the last one first.  No program reads it. -/
structure World where
  dev : Device
  fs : Fs
  files : Nat → File
  trace : List Event := []

/-- A function of the source over the world. -/
abbrev M := Prog World Status

/-! ## Access to the state -/

/-- The mounted file system. -/
def getFs : M Fs := ⟨fun w => (.ok w.fs, w)⟩

/-- Change the mounted file system. -/
def modifyFs (f : Fs → Fs) : M Unit := ⟨fun w => (.ok (), { w with fs := f w.fs })⟩

/-- A handle of the caller. -/
def getFile (h : Nat) : M File := ⟨fun w => (.ok (w.files h), w)⟩

/-- Change a handle. -/
def modifyFile (h : Nat) (f : File → File) : M Unit := ⟨fun w =>
  (.ok (), { w with files := fun k => if k = h then f (w.files k) else w.files k })⟩

/-- Add an act to the trace. -/
def note (act : Act) : M Unit := ⟨fun w =>
  (.ok (), { w with trace := ⟨act, w.fs, w.files⟩ :: w.trace })⟩

@[simp] theorem run_getFs (w : World) : getFs.run w = (.ok w.fs, w) := rfl

@[simp] theorem run_modifyFs (f : Fs → Fs) (w : World) :
    (modifyFs f).run w = (.ok (), { w with fs := f w.fs }) := rfl

@[simp] theorem run_getFile (h : Nat) (w : World) :
    (getFile h).run w = (.ok (w.files h), w) := rfl

@[simp] theorem run_modifyFile (h : Nat) (f : File → File) (w : World) :
    (modifyFile h f).run w =
      (.ok (), { w with files := fun k => if k = h then f (w.files k) else w.files k }) := rfl

@[simp] theorem run_note (act : Act) (w : World) :
    (note act).run w = (.ok (), { w with trace := ⟨act, w.fs, w.files⟩ :: w.trace }) := rfl

end Fastffs
