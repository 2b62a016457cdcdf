import Fastffs.Api
import Fastffs.Lib.Steps

/-!
# Runs of the file system

An operation is one call of the API.  A caller opens a handle that is not in use
and uses only handles that are open (`legalOp`).  A remount drops every handle.
-/

namespace Fastffs

open Nor (Byte)

variable [Opts]

/-- One call of the API. -/
inductive Op where
  | openFile (h : Nat) (name : List Byte) (flags : OpenFlags)
  | read (h size : Nat)
  | seek (h : Nat) (offset : Int) (whence : Whence)
  | write (h : Nat) (src : List Byte)
  | close (h : Nat)
  | fstat (h : Nat)
  | stat (name : List Byte)
  | deleteFile (name : List Byte)
  | list
  | fsinfo (refresh refreshIfNeeded estimate : Bool)
  | gcStep
  | gc (maxSteps : Nat)
  | remount (options : MountOptions)

/-- The handles of the caller are gone. -/
def dropHandles : M Unit := ⟨fun w => (.ok (), { w with files := fun _ => {} })⟩

/-- `fffs_unmount` and `fffs_mount`. -/
def remount (options : MountOptions) : M Unit := do
  dropHandles
  unmount
  mount options

/-- The program of a call, without its result. -/
def execOp : Op → M Unit
  | .openFile h name flags => openFile h name flags
  | .read h size => do let _ ← read h size
  | .seek h offset whence => do let _ ← seek h offset whence
  | .write h src => write h src
  | .close h => close h
  | .fstat h => do let _ ← fstat h
  | .stat name => do let _ ← stat name
  | .deleteFile name => deleteFile name
  | .list => do let _ ← list
  | .fsinfo refresh refreshIfNeeded estimate => do
      let _ ← fsinfo refresh refreshIfNeeded estimate
  | .gcStep => do let _ ← gcStepPublic
  | .gc maxSteps => do let _ ← gc maxSteps 0
  | .remount options => remount options

/-- The world after a call. -/
def stepOp (w : World) (op : Op) : World := ((execOp op).run w).2

/-- The caller may make this call: it opens an unused handle, it uses an open
one, and it goes on after a remount only if the mount has succeeded. -/
def legalOp (w : World) : Op → Prop
  | .openFile h _ _ => h ∉ w.fs.openFiles
  | .read h _ | .seek h _ _ | .write h _ | .close h | .fstat h => h ∈ w.fs.openFiles
  | .remount options => ((remount options).run w).1 = .ok ()
  | _ => True

/-- A call of type `Unit` has returned `FFFS_OK`. -/
def isOk (r : Except Status Unit) : Bool := r.isOk

omit [Opts] in
theorem isOk_iff {r : Except Status Unit} : isOk r = true ↔ r = .ok () := by
  rcases r with e | ⟨⟩ <;> simp [isOk, Except.isOk, Except.toBool]

omit [Opts] in
theorem run_eq_of_isOk {x : M Unit} {w : World} (h : isOk (x.run w).1 = true) :
    x.run w = (.ok (), (x.run w).2) :=
  Prod.ext (isOk_iff.mp h) rfl

instance (w : World) : (op : Op) → Decidable (legalOp w op)
  | .openFile h _ _ => inferInstanceAs (Decidable (h ∉ w.fs.openFiles))
  | .read h _ | .seek h _ _ | .write h _ | .close h | .fstat h =>
      inferInstanceAs (Decidable (h ∈ w.fs.openFiles))
  | .remount options => decidable_of_iff (isOk ((remount options).run w).1 = true) isOk_iff
  | .stat _ | .deleteFile _ | .list | .fsinfo _ _ _ | .gcStep | .gc _ =>
      inferInstanceAs (Decidable True)

/-! ## Small chips -/

/-- A chip of `n` blank sectors of 256 bytes. -/
def blankChip (n : Nat) : World where
  dev := { mem := Nor.erased (n * 256), programGranule := 1, plan := [] }
  fs := {}
  files := fun _ => {}

/-- Mount options for a small chip. -/
def smallMount : MountOptions := { indexHashTableSize := 16, scratchSize := 64 }

/-- A chip of `n` sectors of 256 bytes, formatted with `indexSectors` of them for
the index. -/
def formattedChip (n indexSectors : Nat) : World :=
  ((format { sectorSize := 256, indexSectors := indexSectors }).run (blankChip n)).2

/-- The flags of a writer that creates or replaces a file. -/
def writeFlags : OpenFlags := { wronly := true, create := true, trunc := true }

end Fastffs
