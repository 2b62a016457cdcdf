import Fastffs.State

/-!
# The flash boundary

`fffs_flash.c` and the blank check of `fffs_alloc.c`.  Every access of the
source to the flash goes through these programs.
-/

namespace Fastffs

open Nor (Byte blank)

/-- `fffs_flash_read`. -/
def flashRead (off n : Nat) : M (List Byte) := ⟨fun w =>
  match w.dev.read off n with
  | (some bs, d) => (.ok bs, { w with dev := d })
  | (none, d) => (.error .io, { w with dev := d })⟩

/-- `fffs_flash_program`, one call of `backend->program`. -/
def backendProgram (off : Nat) (bs : List Byte) : M Unit := ⟨fun w =>
  match w.dev.program off bs with
  | (true, d) => (.ok (), { w with dev := d })
  | (false, d) => (.error .io, { w with dev := d })⟩

/-- One call of `backend->erase`. -/
def backendErase (off n : Nat) : M Unit := ⟨fun w =>
  match w.dev.erase off n with
  | (true, d) => (.ok (), { w with dev := d })
  | (false, d) => (.error .io, { w with dev := d })⟩

/-- The padded loop of `fffs_backend_program_aligned`.  `fuel` bounds the
remaining bytes, each round programs at least one. -/
def programChunks (granule : Nat) : Nat → Nat → List Byte → M Unit
  | 0, _, _ => pure ()
  | fuel + 1, pos, src =>
      if src.isEmpty then pure () else do
        let base := pos - pos % granule
        let inChunk := pos - base
        let n := min (granule - inChunk) src.length
        let chunk := List.replicate inChunk blank ++ src.take n ++
          List.replicate (granule - inChunk - n) blank
        backendProgram base chunk
        programChunks granule fuel (pos + n) (src.drop n)

/-- `fffs_backend_program_aligned`, and so `fffs_flash_program_aligned`. -/
def programAligned (off : Nat) (bs : List Byte) : M Unit := do
  let w ← Prog.get
  let granule := w.dev.programGranule
  if bs.isEmpty then pure ()
  else if off % granule = 0 ∧ bs.length % granule = 0 then backendProgram off bs
  else programChunks granule bs.length off bs

/-- `fffs_valid_backend`, for a backend with all its callbacks. -/
def validBackend (d : Device) : Bool :=
  d.size != 0 && d.programGranule != 0 && decide (d.programGranule ≤ fileCacheSize) &&
    decide (d.size % d.programGranule = 0)

/-- The loop of `fffs_flash_span_is_erased`, by chunks of the scratch buffer. -/
def spanIsErasedLoop (chunkSize : Nat) : Nat → Nat → Nat → M Unit
  | 0, _, _ => pure ()
  | fuel + 1, off, size =>
      if size = 0 then pure () else do
        let n := min size chunkSize
        let chunk ← flashRead off n
        if flashBytesErased chunk then spanIsErasedLoop chunkSize fuel (off + n) (size - n)
        else Prog.throw .noSpace

/-- `fffs_flash_span_is_erased`. -/
def flashSpanIsErased (off size : Nat) : M Unit := do
  let fs ← getFs
  spanIsErasedLoop fs.scratchSize size off size

end Fastffs
