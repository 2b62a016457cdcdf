import Fastffs.AbsentNames
import Fastffs.RamIndex

/-!
# A format over old contents

`fffs_format` erases at least the index sectors of the new geometry and the first
8192 bytes.  Every place where discovery looks for a header before it comes to
the new sector size lies in that range, so nothing that an older format has left
on the flash decides the geometry.  The mount that follows finds the fresh index
and replays no record.
-/

namespace Fastffs

open Prog
open Nor (Mem Byte blank)

section Mount

variable [Opts] {w w' : World} {n shift : Nat} {o : MountOptions}

/-- `fffs_mount` of a fresh flash. -/
theorem Formatted.mount_run (hf : Formatted w.dev n shift) (hplan : w.dev.plan = [])
    (hok : mountOptionsOk w o) (hsmall : w.dev.size / sectorSizeOf shift ≤ uint16Max) :
    (mount o).run w =
      (.ok (), { w with fs := allocMapInit (mountedFs w.dev.size o (freshSequence n shift)) }) := by
  have hguard : ¬ (validBackend w.dev = false ∨ indexCacheConfigValid o.indexHashTableSize = false ∨
      o.scratchSize < minScratchSize) := by
    obtain ⟨h1, h2, h3⟩ := hok
    rw [h1, h2]
    exact fun h => h.elim (fun h => nomatch h) fun h => h.elim (fun h => nomatch h) (Nat.not_lt.mpr h3)
  have hseq := @Formatted.findIndexSequence { w with fs := {} } n shift hf hplan
  have hattempt : (Prog.attempt mountReplay).run
      { w with fs := mountedFs w.dev.size o (freshSequence n shift) } =
      (.ok (.ok ()), { w with fs := allocMapInit (mountedFs w.dev.size o (freshSequence n shift)) }) := by
    rw [run_attempt, mountReplay_formatted hf hplan hok.2.2]
  rw [mount, bind_of_ok (run_get w), if_neg hguard, unmount, bind_of_ok (run_modifyFs _ w),
    bind_of_ok hseq]
  dsimp only
  have hfits : ¬ (w.dev.size % sectorSizeOf (freshSequence n shift).sectorShift ≠ 0 ∨
      w.dev.size / sectorSizeOf (freshSequence n shift).sectorShift > uint16Max) :=
    not_or.mpr ⟨not_not.mpr hf.aligned, Nat.not_lt.mpr hsmall⟩
  rw [if_neg hfits, bind_of_ok (run_modifyFs _ _), bind_of_ok hattempt]
  rfl

/-- The fresh file system is a running one with an empty log. -/
theorem Formatted.runState (hf : Formatted w.dev n shift) (hplan : w.dev.plan = [])
    (hok : mountOptionsOk w o) (hsmall : w.dev.size / sectorSizeOf shift ≤ uint16Max) :
    RunState { w with fs := allocMapInit (mountedFs w.dev.size o (freshSequence n shift)) } [[]] := by
  let v : World := { w with fs := mountedFs w.dev.size o (freshSequence n shift) }
  have hv : FlashLog v [[]] := @Formatted.flashLog _ v o n shift hf hplan rfl hok hsmall
  have hcache : CacheIs v.fs fun _ => 0 := mountedFs_cache _ hok.2.1
  obtain ⟨map, hmap⟩ := allocMapInit_eq (mountedFs w.dev.size o (freshSequence n shift))
  rw [hmap]
  refine ⟨⟨{ hv.ring with }, { hv.works with }, hv.located, hv.sectorCount, hv.sectorCount_le,
    { hv.log with }⟩, hcache.congr rfl rfl rfl, fun _ => Journal.fits_nil _⟩

/-- No slot has a head, and no legal name a file. -/
structure EmptyNamespace (w : World) : Prop where
  slots : ∀ slot, slot ≠ 0 → (indexHeadForSlot slot).run w = (.ok none, w)
  names : ∀ name, cstr name ≠ [] → (cstr name).length ≤ maxName →
    ((stat name).run w).1 = .error .notFound
  listed : (list.run w).1 = .ok []

/-- The first read of an enumeration. -/
theorem indexIterRead_window {logs : List (List IndexRecord)} (h : LogOn w logs) (hp : LogPlaced w) :
    (Windowed.indexIterRead {}).run w = (indexIterRead {}).run w := by
  have hpos : 0 < logs.length := h.count ▸ hp.count_pos
  rw [Windowed.indexIterRead]
  cases hm : Opts.indexCacheMode with
  | none =>
    have hstart := (@currentIndexEntryRead_windows _ _ h hp 0 0 {} hpos rfl (if_pos ⟨rfl, rfl⟩)).start
    dsimp only
    rw [hstart, indexIterRead, bind_of_ok (run_getFs w), hm]
  | hashHeads => rfl
  | fullSlotHeads => rfl

/-- The enumeration of an empty log. -/
theorem RunState.iter_empty (h : RunState w [[]]) :
    ∃ it, (indexIterRead {}).run w = (.ok (none, it), w) := by
  obtain ⟨rs, hreads, hlists⟩ := indexIter_lists h.log h.placed h.cache
  cases rs with
  | nil =>
    obtain ⟨it, hrun⟩ := hreads
    exact ⟨it, (indexIterRead_window h.log h.placed).symm.trans hrun⟩
  | cons r rs =>
    obtain ⟨heq, h0⟩ := hlists.sound r List.mem_cons_self
    exact absurd heq.symm h0

/-- A running file system with an empty log and no open handle has no files. -/
theorem RunState.empty_namespace (h : RunState w [[]]) (hopen : w.fs.openFiles = []) : EmptyNamespace w := by
  refine ⟨fun slot hslot => ?_, fun name h0 hlen => ?_, ?_⟩
  · exact indexHeadForSlot_run h.log h.placed h.cache hslot
  · have habsent : NameAbsent w [[]] (fun _ _ => noRoot) name :=
      ⟨⟨h.log, h.placed, h.cache⟩, fun _ _ hne => absurd rfl hne, h0, hlen, fun _ _ hne => absurd rfl hne⟩
    rcases habsent.stat_run with ⟨hstat, -⟩ | ⟨-, hfull⟩
    · exact hstat
    · refine absurd ⟨normalizeSlotBase (hash16 name), mem_probeWindow.mpr ⟨0, by decide, rfl⟩, rfl, ?_⟩ hfull
      rw [slotIsPinned, hopen]
      rfl
  · obtain ⟨it, hread⟩ := h.iter_empty
    have hdir : (dirReadLoop (slotCount + 1) {}).run w = (.ok (none, { iter := it }), w) := by
      rw [dirReadLoop, bind_of_ok hread]
      rfl
    have hloop : (listLoop (slotCount + 1) {}).run w = (.ok [], w) := by
      rw [listLoop, dirRead, if_neg (by decide), bind_of_ok hdir]
      rfl
    rw [list, dirOpen, bind_of_ok (run_pure _ _), hloop]

/-- A mount after a format finds the geometry that was asked for and no files, whatever the
flash held before. -/
theorem format_then_mount {options : FormatOptions} (hplan : w.dev.plan = [])
    (hformat : (format options).run w = (.ok (), w'))
    (hconfig : indexCacheConfigValid o.indexHashTableSize = true)
    (hscratch : minScratchSize ≤ o.scratchSize) :
    ∃ w2, (mount o).run w' = (.ok (), w2) ∧ w2.fs.sectorSize = options.size ∧
      w2.fs.indexSectors = options.sectors ∧ w2.fs.activeIndexSector = 0 ∧
      w2.fs.activeIndexSerial = 0 ∧ EmptyNamespace w2 := by
  obtain ⟨shift, hshift, hf, hplan'⟩ := format_formatted hformat
  obtain ⟨hvalid, hsmall⟩ := format_accepts hformat hshift
  have hok : mountOptionsOk w' o := ⟨hvalid, hconfig, hscratch⟩
  have hrun := hf.mount_run (hplan' hplan) hok hsmall
  have hstate := hf.runState (hplan' hplan) hok hsmall
  obtain ⟨map, hmap⟩ := allocMapInit_eq (mountedFs w'.dev.size o (freshSequence options.sectors shift))
  rw [hmap] at hrun hstate
  exact ⟨_, hrun, formatSectorShift_size hshift, rfl, rfl, rfl, hstate.empty_namespace rfl⟩

end Mount

/-- A chip with an index of three sectors of 512 bytes. -/
def oldGeometry : World := ((format { sectorSize := 512, indexSectors := 3 }).run (blankChip 40)).2

/-- A format with smaller sectors over an older one. -/
theorem format_then_mount_smaller :
    ∃ w2, (@mount defaultOpts smallMount).run
        ((format { sectorSize := 256, indexSectors := 2 }).run oldGeometry).2 = (.ok (), w2) ∧
      w2.fs.sectorSize = 256 ∧ w2.fs.indexSectors = 2 ∧ w2.fs.activeIndexSector = 0 ∧
      w2.fs.activeIndexSerial = 0 ∧ @EmptyNamespace defaultOpts w2 := by
  have hplan : oldGeometry.dev.plan = [] := List.isEmpty_iff.mp (by decide +kernel)
  have hformat : (format { sectorSize := 256, indexSectors := 2 }).run oldGeometry =
      (.ok (), ((format { sectorSize := 256, indexSectors := 2 }).run oldGeometry).2) :=
    run_eq_of_isOk (by decide +kernel)
  generalize ((format { sectorSize := 256, indexSectors := 2 }).run oldGeometry).2 = w1 at hformat ⊢
  exact @format_then_mount defaultOpts oldGeometry w1 smallMount _ hplan hformat (by decide) (by decide)

end Fastffs
