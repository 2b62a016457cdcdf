import Fastffs.Headers
import Fastffs.Replay

/-!
# Mounting any flash

`fffs_mount` on a device that never fails, for every content of the flash.  It finds
a sequence of index sectors, drops the oldest one if the sequence leaves no sector of
the ring free, and replays the log.
-/

namespace Fastffs

open Prog
open Nor (Mem Byte blank)

/-! ## The sequence a mount replays -/

/-- The sequence leaves no sector of the ring free: a compaction was interrupted
before the oldest sector was dropped. -/
def IndexSequence.full (seq : IndexSequence) : Bool := decide (seq.indexSectors ≤ seq.count)

/-- The sequence after `fffs_index_finish_interrupted_compaction`. -/
def IndexSequence.finish (seq : IndexSequence) : IndexSequence :=
  if seq.full then { seq with oldestSector := (seq.oldestSector + 1) % seq.indexSectors
                              count := seq.count - 1 }
  else seq

/-- The flash after `fffs_index_finish_interrupted_compaction`. -/
def IndexSequence.finishMem (seq : IndexSequence) (m : Mem) : Mem :=
  if seq.full then
    Nor.program m (seq.oldestSector * sectorSizeOf seq.sectorShift + 7)
      [indexFlagsValid &&& ~~~0x40#8]
  else m

theorem IndexSequence.full_iff {seq : IndexSequence} :
    seq.full = true ↔ seq.indexSectors ≤ seq.count := decide_eq_true_iff

theorem IndexSequence.size_finishMem (seq : IndexSequence) (m : Mem) :
    (seq.finishMem m).size = m.size := by
  unfold finishMem
  split <;> rfl

/-- The ring of a sequence that a mount has finished. -/
theorem Found.finish {m : Mem} {seq : IndexSequence} (h : Found m seq) :
    seq.finish.ring.Wf ∧ seq.finish.activeSector = seq.finish.ring.active := by
  unfold IndexSequence.finish
  split
  · next hfull =>
    have hge : 2 ≤ seq.ring.count := by
      have h2 : 2 ≤ seq.indexSectors := h.wf.sectors_ge
      have hc : seq.indexSectors ≤ seq.count := IndexSequence.full_iff.mp hfull
      change 2 ≤ seq.count
      omega
    have hold : seq.oldestSector < seq.indexSectors := h.wf.oldest_lt
    have hdrop : IndexSequence.ring { seq with oldestSector := (seq.oldestSector + 1) % seq.indexSectors
                                               count := seq.count - 1 } = seq.ring.drop := by
      have hmod : (seq.oldestSector + 1) % seq.indexSectors =
          if seq.oldestSector + 1 = seq.indexSectors then 0 else seq.oldestSector + 1 := by
        split
        · next heq => rw [heq, Nat.mod_self]
        · exact Nat.mod_eq_of_lt (by omega)
      exact congrArg (fun o => IndexRing.mk _ o _ _) hmod
    rw [hdrop]
    exact ⟨h.wf.drop hge, h.active_eq.trans (h.wf.active_drop hge).symm⟩
  · exact ⟨h.wf, h.active_eq⟩

/-- The last sector of a ring is the active one. -/
theorem activeLast_of_ring {fs : Fs} {r : IndexRing} (hr : r.Wf) (hsectors : fs.indexSectors = r.sectors)
    (hactive : fs.activeIndexSector = r.active) {k sector : Nat} (hs : sector < r.sectors)
    (hk : r.place sector + k + 1 = r.count) : activeLast fs k sector := by
  induction k generalizing sector with
  | zero =>
    refine (hr.place_inj hs hr.active_lt ?_).trans hactive.symm
    rw [hr.place_active]
    omega
  | succ k ih =>
    refine ⟨?_, ?_⟩
    · rintro rfl
      rw [hactive, hr.place_active] at hk
      omega
    · have hnext : nextIndexSector fs sector < r.sectors ∧
          r.place (nextIndexSector fs sector) = r.place sector + 1 := by
        have hcount := hr.count_le
        have hold := hr.oldest_lt
        unfold nextIndexSector
        rw [hsectors]
        unfold IndexRing.place at *
        split_ifs at * <;> omega
      exact ih hnext.1 (by omega)

/-! ## The parts of a mount -/

variable [Opts]

/-- The world in which a mount replays the log. -/
def replayWorld (w : World) (o : MountOptions) (seq : IndexSequence) : World :=
  { w with dev := { w.dev with mem := seq.finishMem w.dev.mem }
           fs := allocMapInit (mountedFs w.dev.size o seq.finish) }

variable {w : World} {o : MountOptions} {seq : IndexSequence}

/-- The options of a mount are accepted. -/
def mountOptionsOk (w : World) (o : MountOptions) : Prop :=
  validBackend w.dev = true ∧ indexCacheConfigValid o.indexHashTableSize = true ∧
    minScratchSize ≤ o.scratchSize

instance : Decidable (mountOptionsOk w o) := by
  unfold mountOptionsOk; infer_instance

/-- `fffs_index_finish_interrupted_compaction` in a mount. -/
theorem indexFinishInterruptedCompaction_run (hplan : w.dev.plan = []) (hok : mountOptionsOk w o)
    (hf : Found w.dev.mem seq) :
    indexFinishInterruptedCompaction.run { w with fs := mountedFs w.dev.size o seq } =
      (.ok (), { w with dev := { w.dev with mem := seq.finishMem w.dev.mem }
                        fs := mountedFs w.dev.size o seq.finish }) := by
  have hvalid := hok.1
  simp only [validBackend, Bool.and_eq_true, bne_iff_ne, decide_eq_true_eq] at hvalid
  obtain ⟨⟨⟨hsize0, hg0⟩, -⟩, hgmod⟩ := hvalid
  rw [indexFinishInterruptedCompaction, bind_of_ok (run_getFs _)]
  by_cases hfull : seq.full = true
  · have hge := IndexSequence.full_iff.mp hfull
    rw [IndexSequence.finishMem, IndexSequence.finish, if_pos hfull, if_pos hfull]
    refine (congrArg (Prog.run · _) (if_neg (not_lt.mpr hge))).trans ?_
    have hold : seq.oldestSector < seq.indexSectors := hf.wf.oldest_lt
    have hS : 256 ≤ sectorSizeOf seq.sectorShift := Nat.le_mul_of_pos_right 256 (Nat.two_pow_pos _)
    have hle : seq.oldestSector * sectorSizeOf seq.sectorShift + 7 +
        [indexFlagsValid &&& ~~~0x40#8].length ≤ w.dev.size := by
      have hmul : (seq.oldestSector + 1) * sectorSizeOf seq.sectorShift ≤
          seq.indexSectors * sectorSizeOf seq.sectorShift := Nat.mul_le_mul_right _ hold
      have hfits : seq.indexSectors * sectorSizeOf seq.sectorShift ≤ w.dev.size := hf.fits
      rw [Nat.add_mul, Nat.one_mul] at hmul
      rw [List.length_singleton]
      omega
    have hprog := programAligned_run (w := { w with fs := mountedFs w.dev.size o seq }) hplan
      (Nat.pos_of_ne_zero hg0) hgmod hle
    have htomb : (tombstoneIndexSector seq.oldestSector).run
        { w with fs := mountedFs w.dev.size o seq } = _ :=
      (bind_of_ok (run_getFs _)).trans hprog
    change (indexCompactOldestFinish seq.oldestSector).run _ = _
    rw [indexCompactOldestFinish, bind_of_ok htomb, run_modifyFs, ← hplan]
    rfl
  · have hlt : seq.count < seq.indexSectors :=
      not_le.mp fun hge => hfull (IndexSequence.full_iff.mpr hge)
    rw [IndexSequence.finishMem, IndexSequence.finish, if_neg hfull, if_neg hfull]
    exact congrArg (Prog.run · _) (if_pos hlt)

theorem mountReplay_run (hplan : w.dev.plan = []) (hok : mountOptionsOk w o)
    (hf : Found w.dev.mem seq) :
    mountReplay.run { w with fs := mountedFs w.dev.size o seq } =
      replayIndex.run (replayWorld w o seq) := by
  rw [mountReplay, bind_of_ok (indexFinishInterruptedCompaction_run hplan hok hf),
    bind_of_ok (run_modifyFs _ _)]
  rfl

/-- The sequence of a flash of at most 65535 sectors. -/
def mountable (m : Mem) : Option IndexSequence :=
  (findSequence m).filter fun seq => decide (m.size / sectorSizeOf seq.sectorShift ≤ uint16Max)

/-- What is left of a mount when its replay has ended. -/
def afterReplay : Except Status Unit × World → Except Status Unit × World
  | (.ok (), w) => (.ok (), w)
  | (.error e, w) => (.error e, { w with fs := {} })

/-- `fffs_mount`. -/
theorem mount_run (hplan : w.dev.plan = []) (hok : mountOptionsOk w o) :
    (mount o).run w =
      match mountable w.dev.mem with
      | none => (.error .corrupt, { w with fs := {} })
      | some seq => afterReplay (replayIndex.run (replayWorld w o seq)) := by
  have hguard : ¬ (validBackend w.dev = false ∨ indexCacheConfigValid o.indexHashTableSize = false ∨
      o.scratchSize < minScratchSize) := by
    obtain ⟨h1, h2, h3⟩ := hok
    simp [h1, h2, h3]
  have hseq := findIndexSequence_findSequence (v := { w with fs := {} }) hplan
  rw [mount, bind_of_ok (run_get w), if_neg hguard, unmount, bind_of_ok (run_modifyFs _ w), mountable]
  rcases hfound : findSequence w.dev.mem with _ | seq
  · rw [hfound] at hseq
    rw [bind_of_error hseq]
    rfl
  · rw [hfound] at hseq
    rw [bind_of_ok hseq]
    obtain ⟨hf, hmod⟩ := findSequence_found hfound
    dsimp only
    by_cases hcount : w.dev.mem.size / sectorSizeOf seq.sectorShift ≤ uint16Max
    · rw [Option.filter_some, if_pos (decide_eq_true hcount)]
      have hgeo : ¬ (w.dev.size % sectorSizeOf seq.sectorShift ≠ 0 ∨
          w.dev.size / sectorSizeOf seq.sectorShift > uint16Max) := by
        rw [not_or, not_not]
        exact ⟨hmod, not_lt.mpr hcount⟩
      rw [if_neg hgeo, bind_of_ok (run_modifyFs _ _)]
      have hattempt := run_attempt (mountReplay : M Unit)
        { w with fs := mountedFs w.dev.size o seq }
      rw [mountReplay_run hplan hok hf] at hattempt
      change (Prog.attempt mountReplay >>= _).run { w with fs := mountedFs w.dev.size o seq } = _
      rw [bind_of_ok hattempt]
      dsimp only
      rcases replayIndex.run (replayWorld w o seq) with ⟨r, w'⟩
      cases r <;> rfl
    · have hgeo : w.dev.size % sectorSizeOf seq.sectorShift ≠ 0 ∨
          w.dev.size / sectorSizeOf seq.sectorShift > uint16Max := .inr (not_le.mp hcount)
      rw [if_pos hgeo, Option.filter_some, if_neg (by simpa using hcount)]
      rfl

omit [Opts] in
theorem mountable_some {m : Mem} (h : mountable m = some seq) :
    Found m seq ∧ m.size % sectorSizeOf seq.sectorShift = 0 ∧
      m.size / sectorSizeOf seq.sectorShift ≤ uint16Max := by
  rw [mountable, Option.filter_eq_some_iff, decide_eq_true_eq] at h
  obtain ⟨hf, hmod⟩ := findSequence_found h.1
  exact ⟨hf, hmod, h.2⟩

theorem allocMapInit_eq (fs : Fs) : ∃ map, allocMapInit fs = { fs with allocMap := map } := by
  unfold allocMapInit
  split
  · exact ⟨_, rfl⟩
  · exact ⟨fs.allocMap, rfl⟩

/-- The log a mount replays is in place. -/
theorem replayWorld_placed (hplan : w.dev.plan = []) (hok : mountOptionsOk w o)
    (hf : Found w.dev.mem seq) : LogPlaced (replayWorld w o seq) := by
  have hvalid := hok.1
  simp only [validBackend, Bool.and_eq_true, bne_iff_ne, decide_eq_true_eq] at hvalid
  obtain ⟨⟨⟨hsize0, hg0⟩, -⟩, hgmod⟩ := hvalid
  obtain ⟨hwf, hactive⟩ := hf.finish
  obtain ⟨map, hmap⟩ := allocMapInit_eq (mountedFs w.dev.size o seq.finish)
  have hshift : seq.finish.sectorShift = seq.sectorShift ∧
      seq.finish.indexSectors = seq.indexSectors := by
    unfold IndexSequence.finish
    split <;> exact ⟨rfl, rfl⟩
  have hscratch := hok.2.2
  rw [minScratchSize] at hscratch
  have hsize : (replayWorld w o seq).dev.size = w.dev.size := seq.size_finishMem w.dev.mem
  have hcount : 0 < seq.finish.count := hwf.count_pos
  refine ⟨⟨hplan, ?_, ?_, ?_, ?_⟩, Nat.pos_of_ne_zero hg0, by rw [hsize]; exact hgmod, ?_, ?_, ?_⟩
  · change 4 ≤ (allocMapInit _).scratchSize
    rw [hmap]
    change 4 ≤ o.scratchSize
    omega
  · change 256 ≤ (allocMapInit _).sectorSize
    rw [hmap]
    exact Nat.le_mul_of_pos_right 256 (Nat.two_pow_pos _)
  · change (allocMapInit _).sectorSize % 4 = 0
    rw [hmap]
    change 256 * _ % 4 = 0
    omega
  · rw [hsize]
    change (allocMapInit _).indexSectors * (allocMapInit _).sectorSize ≤ _
    rw [hmap]
    change seq.finish.indexSectors * sectorSizeOf seq.finish.sectorShift ≤ w.dev.size
    rw [hshift.1, hshift.2]
    exact hf.fits
  · change (allocMapInit _).oldestIndexSector < (allocMapInit _).indexSectors
    rw [hmap]
    exact hwf.oldest_lt
  · change 0 < (allocMapInit _).indexSequenceCount
    rw [hmap]
    exact hcount
  · change activeLast (allocMapInit _) ((allocMapInit _).indexSequenceCount - 1)
      (allocMapInit _).oldestIndexSector
    rw [hmap]
    refine activeLast_of_ring hwf rfl hactive hwf.oldest_lt ?_
    have hp : seq.finish.ring.place seq.finish.ring.oldest = 0 := by
      rw [IndexRing.place, if_pos le_rfl, Nat.sub_self]
    change seq.finish.ring.place seq.finish.ring.oldest + (seq.finish.count - 1) + 1 = seq.finish.count
    omega

end Fastffs
