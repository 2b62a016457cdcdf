import Fastffs.Gc

/-!
# The allocator

The reservations and the allocation of `fffs_alloc.c`.  A writer that starts a
blank sector reserves the sectors after it.  An allocation tries, in this order,
its own reservation, the sectors from the cursor on, the same after every
reservation has been halved, garbage collection, the compaction reserve, and
compaction without the rules of a normal allocation.
-/

namespace Fastffs

variable [Opts]

/-! ## Reservations -/

/-- `sector_in_reservation`. -/
def sectorInReservation (file : File) (sector : Nat) : Bool :=
  file.reserveCount != 0 && decide (file.reserveFirst ≤ sector) &&
    decide (sector < u16 (file.reserveFirst + file.reserveCount))

/-- `sector_reserved_by_other`. -/
def sectorReservedByOther (w : World) (h sector : Nat) : Bool :=
  w.fs.openFiles.any fun k =>
    k != h && !(w.files k).closed && (w.files k).access == .wronly &&
      sectorInReservation (w.files k) sector

/-- `fffs_alloc_release_reservation`. -/
def allocReleaseReservation (h : Nat) : M Unit := do
  let file ← getFile h
  if file.reserveCount = 0 then pure ()
  else
    allocMapMarkRangeUnknown file.reserveFirst file.reserveCount
    modifyFile h fun f => { f with reserveFirst := 0, reserveCount := 0 }

/-- `sector_can_be_reserved`. -/
def sectorCanBeReserved (w : World) (h sector : Nat) : Bool :=
  validDataSector w.fs sector && !allocMapMaybeUsed w.fs sector &&
    !sectorIsOpenForWriting w sector && !sectorReservedByOther w h sector

/-- The loop of `halve_reservations` over the open files. -/
def halveLoop : List Nat → Bool → M Bool
  | [], releasedAny => pure releasedAny
  | h :: rest, releasedAny => do
      let file ← getFile h
      if file.closed ∨ file.access ≠ .wronly ∨ file.reserveCount = 0 then
        halveLoop rest releasedAny
      else
        let keepCount := file.reserveCount / 2
        allocMapMarkRangeUnknown (u16 (file.reserveFirst + keepCount))
          (file.reserveCount - keepCount)
        modifyFile h fun f =>
          { f with reserveCount := keepCount
                   reserveFirst := if keepCount = 0 then 0 else f.reserveFirst }
        halveLoop rest true

/-- `halve_reservations`. -/
def halveReservations : M Bool := do
  let fs ← getFs
  halveLoop fs.openFiles false

/-- The loop of `reserve_after`, from the sector `next` on. -/
def reserveAfterLoop (h : Nat) : Nat → Nat → M Unit
  | 0, _ => pure ()
  | n + 1, next => do
      let w ← Prog.get
      if (w.files h).reserveCount < allocReserveSectors ∧ next < w.fs.sectorCount then
        note (.reserve next)
        if sectorCanBeReserved w h next then
          modifyFile h fun f =>
            { f with reserveFirst := if f.reserveCount = 0 then next else f.reserveFirst
                     reserveCount := f.reserveCount + 1 }
          allocMapMarkUsed next
          reserveAfterLoop h n (u16 (next + 1))
        else pure ()
      else pure ()

/-- `reserve_after`. -/
def reserveAfter (h sector : Nat) : M Unit := do
  let file ← getFile h
  reserveAfterLoop h allocReserveSectors
    (if file.reserveCount ≠ 0 then u16 (file.reserveFirst + file.reserveCount)
      else u16 (sector + 1))

/-! ## Allocation -/

/-- `use_alloc_window`. -/
def useAllocWindow (h sector dataOff recordOff : Nat) (needsFooter : Bool) : M Unit := do
  modifyFile h fun f =>
    { f with dataOffset := dataOff, currentWriteOffset := dataOff
             currentMetadataOffset := recordOff, currentNeedsFooter := needsFooter }
  Prog.when needsFooter (reserveAfter h sector)

/-- `use_alloc_window` for a sector that is blank. -/
def useBlankSector (h sector : Nat) : M Nat := do
  let fs ← getFs
  note (.narrow [fs.sectorSize - sectorFooterSize - mdFileRecordSize])
  useAllocWindow h sector 0 (u16 (fs.sectorSize - sectorFooterSize - mdFileRecordSize)) true
  pure sector

/-- `try_reserved_sector`: the sector, or for `FFFS_ERR_NO_SPACE` the sector to
skip. -/
def tryReservedSector (h : Nat) : M (Option Nat × Option Nat) := do
  let w ← Prog.get
  let file := w.files h
  let candidate := file.reserveFirst
  if file.reserveCount = 0 then pure (none, none)
  else if sectorIsOpenForWriting w candidate ∨ sectorReservedByOther w h candidate then
    allocReleaseReservation h
    pure (none, some candidate)
  else
    match ← Prog.attempt (flashSpanIsErased (candidate * w.fs.sectorSize) w.fs.sectorSize) with
    | .ok () =>
        allocMapMarkUnknown candidate
        modifyFile h fun f =>
          { f with reserveFirst := if f.reserveCount - 1 = 0 then 0 else u16 (f.reserveFirst + 1)
                   reserveCount := f.reserveCount - 1 }
        let sector ← useBlankSector h candidate
        pure (some sector, none)
    | .error e =>
        allocReleaseReservation h
        if e ≠ .noSpace then Prog.throw e else pure (none, some candidate)

/-- The loop of `alloc_sector_once`, from sector `s` on. -/
def allocSectorLoop (h : Nat) (skip : Option Nat) : Nat → Nat → M Nat
  | 0, _ => Prog.throw .noSpace
  | n + 1, s => do
      let w ← Prog.get
      let next := nextDataSector w.fs s
      let continuation := (w.files h).current != 0
      if skip = some s ∨ sectorIsOpenForWriting w s ∨ sectorReservedByOther w h s ∨
          allocCompactionReserved w.fs s ∨ allocMapMaybeUsed w.fs s then
        allocSectorLoop h skip n next
      else
        match ← Prog.attempt (findSectorFreeWindow s allocMinUsableFree (w.files h).slot true) with
        | .error .noSpace => allocSectorLoop h skip n next
        | .error e => Prog.throw e
        | .ok win =>
            if continuation && !win.needsFooter then allocSectorLoop h skip n next
            else if !continuation &&
                decide (w.fs.compactionReserve.length < compactionReserveSectors) then
              modifyFs fun fs => { fs with compactionReserve := fs.compactionReserve ++ [s] }
              allocMapMarkUsed s
              allocSectorLoop h skip n next
            else
              useAllocWindow h s win.dataOff win.recordOff win.needsFooter
              Prog.when (win.mdRecords ≥ allocTargetDensity)
                (modifyFs fun fs => { fs with allocCursor := next })
              pure s

/-- `alloc_sector_once`. -/
def allocSectorOnce (h : Nat) (skip : Option Nat) : M Nat := do
  let fs ← getFs
  if fs.sectorCount ≤ fs.indexSectors then Prog.throw .noSpace
  else allocSectorLoop h skip (fs.sectorCount - fs.indexSectors) (allocScanStart fs)

/-- `allocate_erased_gc_sector`. -/
def allocateErasedGcSector (h : Nat) : M Nat := do
  let erased ← gcUntilErased
  useBlankSector h erased

/-- The loop of `try_compaction_reserve_for_alloc`. -/
def tryCompactionReserveLoop (h : Nat) : List Nat → M Nat
  | [] => Prog.throw .noSpace
  | reserved :: rest => do
      let file ← getFile h
      match ← Prog.attempt (findSectorFreeWindow reserved allocMinUsableFree file.slot true) with
      | .error .noSpace => tryCompactionReserveLoop h rest
      | .error e => Prog.throw e
      | .ok win =>
          if file.current != 0 && !win.needsFooter then tryCompactionReserveLoop h rest
          else
            allocCompactionReserveRemove reserved
            allocMapMarkUnknown reserved
            useAllocWindow h reserved win.dataOff win.recordOff win.needsFooter
            modifyFs fun fs => { fs with allocCursor := reserved }
            pure reserved

/-- `try_compaction_reserve_for_alloc`. -/
def tryCompactionReserveForAlloc (h : Nat) : M Nat := do
  let fs ← getFs
  tryCompactionReserveLoop h fs.compactionReserve

/-- The last resort of `fffs_alloc_next_sector`. -/
def allocRelaxedCompaction (h : Nat) : M Nat := do
  let erased ← gcCompactUntilErased true
  useBlankSector h erased

/-- Go on with `y` when `x` stops with `FFFS_ERR_NO_SPACE`. -/
def ifNoSpace (x y : M Nat) : M Nat := do
  match ← Prog.attempt x with
  | .ok s => pure s
  | .error .noSpace => y
  | .error e => Prog.throw e

/-- Halve the reservations and scan once more. -/
def allocAfterHalving (h : Nat) (skip : Option Nat) : M Nat := do
  let released ← halveReservations
  if released then allocSectorOnce h skip else Prog.throw .noSpace

/-- The ways of `fffs_alloc_next_sector` past the writer's own reservation. -/
def allocUnreserved (h : Nat) (skip : Option Nat) : M Nat :=
  let scan := ifNoSpace (allocSectorOnce h skip) (allocAfterHalving h skip)
  if Opts.gcOnAllocFailure then
    ifNoSpace (ifNoSpace (ifNoSpace scan (allocateErasedGcSector h))
      (tryCompactionReserveForAlloc h)) (allocRelaxedCompaction h)
  else scan

/-- `fffs_alloc_next_sector`. -/
def allocNextSector (h : Nat) : M Nat := do
  let (reserved, skip) ← tryReservedSector h
  let sector ← reserved.elim (allocUnreserved h skip) pure
  note (.alloc h sector)
  pure sector

end Fastffs
