import Fastffs.StoreRead

/-!
# Mounting a store again

`fffs_mount` reads the index and fills the RAM of the file system from it.  The last record of a
log that a store stands on has a live root, so the mount drops none, and no data sector is
touched: the same files are there after it.
-/

namespace Fastffs

open Prog
open Nor (Byte)

/-! ## What a mount leaves to the collector -/

section Work

variable [Opts] {v : World}

instance : Keeps (SameWork v) indexFinishInterruptedCompaction := by
  unfold indexFinishInterruptedCompaction; infer_instance

instance : Keeps (SameWork v) (modifyFs allocMapInit) := by
  refine keeps_dataFs fun fs => ?_
  rw [allocMapInit]
  split <;> rfl

instance (f : Fs → Nat) : Keeps (SameWork v) (modifyFs fun fs => { fs with nextIndexOffset := f fs }) :=
  ⟨fun _ h => { h with }⟩

instance (recOff : Nat) (terminal : Bool) : Keeps (SameWork v) (clobberOrRejectActiveTail recOff terminal) := by
  unfold clobberOrRejectActiveTail; infer_instance

instance (active : Bool) (off nread endOff : Nat) (chunk : List Byte) (fuel pos tail : Nat) :
    Keeps (SameWork v) (replayChunk active off nread endOff chunk fuel pos tail) := by
  induction fuel generalizing pos tail with
  | zero => unfold replayChunk; infer_instance
  | succ fuel ih => unfold replayChunk; infer_instance

instance (active : Bool) (endOff chunkSize fuel off tail : Nat) :
    Keeps (SameWork v) (replaySector active endOff chunkSize fuel off tail) := by
  induction fuel generalizing off tail with
  | zero => unfold replaySector; infer_instance
  | succ fuel ih => unfold replaySector; infer_instance

instance (n sector tail : Nat) : Keeps (SameWork v) (replaySectors n sector tail) := by
  induction n generalizing sector tail with
  | zero => unfold replaySectors; infer_instance
  | succ n ih => unfold replaySectors; infer_instance

instance (sector : Nat) : Keeps (SameWork v) (recoverSectorSerial sector) := by
  have hset : ∀ f : Fs → Nat, Keeps (SameWork v) (modifyFs fun fs => { fs with nextSectorSerial := f fs }) :=
    fun _ => ⟨fun _ h => { h with }⟩
  unfold recoverSectorSerial
  refine Keeps.bind (k := fun fs => Keeps.bind (k := fun r => ?_))
  split <;> infer_instance

instance (n sector : Nat) : Keeps (SameWork v) (recoverAllocatorLoop n sector) := by
  induction n generalizing sector with
  | zero => unfold recoverAllocatorLoop; infer_instance
  | succ n ih => unfold recoverAllocatorLoop; infer_instance

instance (head : Nat) : Keeps (SameWork v) (recoverAllocatorHint head) := by
  unfold recoverAllocatorHint
  exact Keeps.bind (j := ⟨fun _ h => { h with }⟩)

instance : Keeps (SameWork v) mountReplay := by
  unfold mountReplay replayIndex; infer_instance

/-- The collector starts anew after a mount. -/
theorem mount_walk {o : MountOptions} {w w' : World} (h : (mount o).run w = (.ok (), w')) :
    w'.fs.gcMd.active = false := by
  rw [mount, bind_of_ok (run_get w)] at h
  split at h
  · cases h
  · rw [unmount, bind_of_ok (run_modifyFs _ w)] at h
    obtain ⟨seq, w1, -, h⟩ := bind_ok h
    dsimp only at h
    split at h
    · cases h
    · rw [bind_of_ok (run_modifyFs _ w1)] at h
      obtain ⟨r, w2, hreplay, h⟩ := bind_ok h
      rw [run_attempt] at hreplay
      cases r with
      | error e => cases h
      | ok u =>
        obtain rfl : w2 = w' := congrArg Prod.snd h
        have hwork := (inferInstance : Keeps (SameWork { w1 with fs := mountedFs w.dev.size o seq })
          mountReplay).keeps _ .refl
        rw [congrArg Prod.snd hreplay] at hwork
        rw [hwork.gcMd]
        rfl

end Work

/-! ## The store after a mount -/

section Store

variable [Opts] {S c n k p : Nat} {x : Prop} {F : Nat → Option SmallFile} {st : Shelves Nat Nat Entry}
  {bad : Nat → Prop} {logs : List (List IndexRecord)} {w w' : World} {o : MountOptions}

/-- The head of a slot has a live root. -/
theorem Shelved.rootIsLive (h : Shelved S c n st bad w) (ht : st.Tidy) (hk : st.head k = some p) :
    rootIsLive w k p = true := by
  obtain ⟨e, -, -, -, hroot⟩ := h.readRootMd ht hk
  rw [Fastffs.rootIsLive, hroot]
  rfl

/-- The last record of the log is one that a mount keeps. -/
theorem Shelved.tailLive (h : Shelved S c n st bad w) (ht : st.Tidy)
    (hhead : ∀ k, st.head k = headOf (logMap logs.flatten k)) (hlog : FlashLog w logs) :
    tailLive w (logs.getLast?.getD []) := by
  obtain ⟨ls, rs, rfl⟩ := hlog.logs_split
  rw [getLast_append]
  intro r hr
  obtain ⟨rs', rfl⟩ := List.getLast?_eq_some_iff.mp hr
  refine or_iff_not_imp_left.mpr fun hne => h.rootIsLive ht ?_
  rw [hhead, logMap_append_last, Function.update_self, headOf, if_neg hne]

/-- Only the index and the RAM have changed. -/
theorem Shelved.ofIndex (h : Shelved S c n st bad w) (hdata : SameData w w')
    (hgranule : w'.dev.programGranule = w.dev.programGranule) (hscratch : w'.fs.scratchSize = w.fs.scratchSize)
    (hstate : RunState w' logs) (hhead : ∀ k, st.head k = headOf (logMap logs.flatten k)) :
    Shelved S c n st bad w' := by
  have ht : ∀ s, InData n c s → Touches S s 0 0 w w' := fun s hs => {
    sectorSize := hdata.sectorSize
    sectorCount := hdata.sectorCount
    indexSectors := hdata.indexSectors
    scratchSize := hscratch
    granule := hgranule
    plan := by rw [hdata.plan, hdata.plan']
    size := hdata.size
    bytes := fun a _ _ => hdata.data _ <| by
      rw [h.indexSectors, h.sectorSize]
      exact Nat.le_add_right_of_le (Nat.mul_le_mul_right _ hs.1) }
  refine ⟨h.small, hgranule ▸ h.granule, hdata.indexSectors.trans h.indexSectors,
    hdata.sectorSize.trans h.sectorSize, hdata.sectorCount.trans h.sectorCount, ⟨logs, hstate, hhead⟩,
    fun s hs hgood => (h.filed s hs hgood).elsewhere (ht s hs), fun s hs hbad => ?_, h.outside⟩
  obtain ⟨hnil, hcond⟩ := h.condemned s hs hbad
  exact ⟨hnil, hcond.elsewhere (ht s hs)⟩

/-- A mount with the options of the one before finds the same files. -/
theorem Kept.remount_run (hk : Kept S c n x F w) (hord : w.fs.ring.Ordered)
    (hno : noEarlierSequence w.dev.mem w.fs.sectorShift) (hrun : (remount w.fs.options).run w = (.ok (), w')) :
    Kept S c n x F w' := by
  obtain ⟨st, bad, hh⟩ := hk
  obtain ⟨logs, hstate, hhead⟩ := hh.stored.index
  have htail := hh.stored.tailLive hh.tidy hhead hstate.toFlashLog
  rw [Fastffs.remount_run] at hrun
  obtain ⟨hset, hok, -⟩ := mount_settled hrun
  obtain ⟨seq, w1, -, hread, -, hsame⟩ := mount_same hrun
  have hm := hstate.restores hord hstate.ring.keepsIndex hno
  have hfits := hstate.mount_fits (y := { w with fs := {}, files := fun _ => {} }) htail hstate.works.plan rfl hm hok (by rw [hrun])
  obtain ⟨u, hu, hstate', hdata⟩ :=
    hstate.mount_run (y := { w with fs := {}, files := fun _ => {} }) htail hstate.works.plan rfl hm hok hfits
  rw [hrun] at hu
  obtain rfl : w' = u := congrArg Prod.snd hu
  have hshelved := hh.stored.ofIndex hdata (hsame.granule.trans hread.granule) hset.scratchSize hstate' hhead
  refine ⟨st, bad, hset.openFiles, ⟨hshelved, fun hactive => ?_⟩, hh.tidy, hh.exact, hh.get⟩
  rw [mount_walk hrun] at hactive
  cases hactive

end Store

end Fastffs
