import Fastffs.KeptRecords

/-!
# The capacity of the index

`fffs_append_index_record` rotates at most once.  It finds no room when the rotation
needs the last free sector of the ring and every place of the new sector is taken by a
copy.  That depends on how the live records are spread over the sectors, not on their
number (`append_finds_room`).
-/

namespace Fastffs

open Prog
open Nor (Mem Byte blank)

variable [Opts] {w : World} {logs : List (List IndexRecord)} {slot head : Nat}

/-- The log of a file system between two calls: the cache holds its map, and a sector of
the ring is free. -/
structure LogState (w : World) (logs : List (List IndexRecord)) : Prop where
  log : LogOn w logs
  placed : LogPlaced w
  cache : CacheIs w.fs (logMap logs.flatten)
  count_lt : w.fs.indexSequenceCount < w.fs.indexSectors

theorem IndexState.logState (h : IndexState w logs) : LogState w logs :=
  ⟨h.log, h.placed, h.cache, h.ring.count_lt⟩

/-! ## A rotation -/

omit [Opts] in
/-- The log after `index_compact_oldest_finish` is in place. -/
theorem LogPlaced.dropped {v : World} (hp : LogPlaced v) (hcount : 2 ≤ v.fs.indexSequenceCount) :
    LogPlaced (droppedWorld v) := by
  have hlast := hp.last
  rw [← logicalIndexSector_zero hp.oldest_lt] at hlast
  obtain ⟨h1, h2⟩ := activeLast_logical hp.sectors_pos hlast
  rw [Nat.zero_add] at h1
  have hold : (droppedWorld v).fs.oldestIndexSector = logicalIndexSector (droppedWorld v).fs 0 :=
    (@logicalIndexSector_zero (droppedWorld v).fs (logicalIndexSector_lt hp.sectors_pos 1)).symm
  refine ⟨⟨rfl, hp.scratch, hp.size, hp.aligned, hp.fits⟩, hp.granule_pos, hp.granule_mod,
    logicalIndexSector_lt hp.sectors_pos 1, show 0 < v.fs.indexSequenceCount - 1 by omega, ?_⟩
  rw [hold]
  refine @activeLast_of_logical (droppedWorld v).fs hp.sectors_pos _ 0 ?_ fun j hj => ?_
  · refine (logicalIndexSector_dropped _).trans ((congrArg _ ?_).trans h1)
    change 0 + (v.fs.indexSequenceCount - 1 - 1) + 1 = v.fs.indexSequenceCount - 1
    omega
  · have hne := h2 (j + 1) (by
      change j < v.fs.indexSequenceCount - 1 - 1 at hj
      omega)
    rw [Nat.zero_add] at hne
    rw [Nat.zero_add]
    exact fun heq => hne ((logicalIndexSector_dropped j).symm.trans heq)

omit [Opts] in
theorem LogPlaced.headed {v : World} (hp : LogPlaced v) : LogPlaced (headedWorld v) :=
  hp.withLog (headed_outside _ _ _ _ _).size v.fs.nextIndexOffset

omit [Opts] in
theorem LogOn.headed {v : World} (h : LogOn v logs) (hp : LogPlaced v) : LogOn (headedWorld v) logs :=
  h.offRecords hp fun i hi =>
    (headed_outside _ _ _ _ _).offHeader (by rw [headerSize]; have := hp.size; omega) hi

/-- The cache is the one of another world. -/
structure SameTable (w w' : World) : Prop where
  tableSize : w'.fs.indexHashTableSize = w.fs.indexHashTableSize
  buckets : w'.fs.buckets = w.fs.buckets
  heads : w'.fs.indexHeads = w.fs.indexHeads

/-- The records at the end of the log that a rotation leaves: the copies out of the
oldest sector, if the rotation drops it. -/
def rotationCopies (w : World) (logs : List (List IndexRecord)) : List IndexRecord :=
  if w.fs.indexSequenceCount + 1 = w.fs.indexSectors then
    keptRecords (logMap logs.flatten) logs.tail.flatten (logs.headD [])
  else []

/-- `fffs_rotate_index`. -/
theorem LogState.rotateIndex_run (h : LogState w logs) :
    ∃ w' ls, rotateIndex.run w = (.ok (), w') ∧ LogState w' (ls ++ [rotationCopies w logs]) ∧
      logMap (ls ++ [rotationCopies w logs]).flatten = logMap logs.flatten ∧
      recordPlaces w'.fs = recordPlaces w.fs ∧ SameTable w w' := by
  have hp := h.placed
  have hp1 := hp.rotated h.count_lt
  have hlog1 := h.log.rotated hp h.count_lt
  have hcount := rotatedWorld_count h.count_lt
  have hbegin := rotateIndexBegin_run hp.plan (hp.next_in.trans hp.fits)
  have hin : ∀ v : World, LogPlaced v → (v.fs.activeIndexSector + 1) * v.fs.sectorSize ≤ v.dev.size :=
    fun v hv => (Nat.mul_le_mul_right _ (Nat.succ_le_of_lt hv.active_lt)).trans hv.fits
  rw [rotationCopies]
  by_cases hfull : w.fs.indexSequenceCount + 1 = w.fs.indexSectors
  · rw [if_pos hfull]
    obtain ⟨rs0, mid, rfl⟩ : ∃ rs0 mid, logs = rs0 :: mid := by
      cases logs with
      | nil =>
        have hpos := hp.count_pos
        rw [← h.log.count] at hpos
        exact absurd hpos (lt_irrefl 0)
      | cons rs0 mid => exact ⟨rs0, mid, rfl⟩
    have hc : CacheIs (rotatedWorld w).fs (logMap (rs0 ++ mid.flatten)) := h.cache.congr rfl rfl rfl
    obtain ⟨m, hcopy, hsame, hlog2⟩ := indexCompactOldestCopy_run hlog1 hp1 hc
    change ∃ w' ls, _ ∧ LogState w' (ls ++ [keptRecords (logMap (rs0 ++ mid.flatten)) mid.flatten rs0]) ∧
      logMap (ls ++ [keptRecords (logMap (rs0 ++ mid.flatten)) mid.flatten rs0]).flatten =
        logMap (rs0 ++ mid.flatten) ∧ _
    have hcopies : Copies (logMap (rs0 ++ mid.flatten)) mid rs0
        (keptRecords (logMap (rs0 ++ mid.flatten)) mid.flatten rs0) := @keptRecords_copies _ _ [] _ mid rfl
    generalize keptRecords (logMap (rs0 ++ mid.flatten)) mid.flatten rs0 = cp at hcopy hlog2 hcopies ⊢
    generalize hv : ((rotatedWorld w).withMem m []).withNext
      ((rotatedWorld w).fs.nextIndexOffset + 4 * cp.length) = v at hcopy hlog2
    have hp2 : LogPlaced v := hv ▸ hp1.withLog hsame.size _
    have hold : v.fs.oldestIndexSector = w.fs.oldestIndexSector := by rw [← hv]; rfl
    have hcount2 : v.fs.indexSequenceCount = w.fs.indexSequenceCount + 1 := by rw [← hv]; exact hcount
    have hsectors : v.fs.indexSectors = w.fs.indexSectors := by rw [← hv]; rfl
    have hpos := hp.count_pos
    have hfinish := indexCompactOldestFinish_run hp2.headed
    have hdrop : LogPlaced (droppedWorld (headedWorld v)) := hp2.headed.dropped (by
      change 2 ≤ v.fs.indexSequenceCount
      omega)
    have hmap := hcopies.logMap_eq
    refine ⟨droppedWorld (headedWorld v), mid, ?_, ⟨(hlog2.headed hp2).dropped hp2.headed (by simp), hdrop,
      ?_, ?_⟩, hmap, by rw [← hv]; rfl, ⟨by rw [← hv]; rfl, by rw [← hv]; rfl, by rw [← hv]; rfl⟩⟩
    · have heq : (rotatedWorld w).fs.indexSequenceCount = (rotatedWorld w).fs.indexSectors :=
        hcount.trans hfull
      rw [rotateIndex, bind_of_ok hbegin, bind_of_ok (run_getFs _), if_pos heq, bind_of_ok hcopy,
        bind_of_ok (rotateIndexCommit_run hp2 (hin v hp2))]
      have hold' : (rotatedWorld w).fs.oldestIndexSector = (headedWorld v).fs.oldestIndexSector :=
        hold.symm
      rw [hold']
      exact hfinish
    · rw [hmap]
      exact h.cache.congr (by rw [← hv]; rfl) (by rw [← hv]; rfl) (by rw [← hv]; rfl)
    · change v.fs.indexSequenceCount - 1 < v.fs.indexSectors
      omega
  · rw [if_neg hfull]
    have hlt := h.count_lt
    have hmap : (logs ++ [[]]).flatten = logs.flatten := by
      rw [List.flatten_append, List.flatten_singleton, List.append_nil]
    refine ⟨headedWorld (rotatedWorld w), logs, ?_, ⟨hlog1.headed hp1, hp1.headed, ?_, ?_⟩, by rw [hmap], rfl,
      ⟨rfl, rfl, rfl⟩⟩
    · have hne : ¬ (rotatedWorld w).fs.indexSequenceCount = (rotatedWorld w).fs.indexSectors := by
        rw [hcount]
        exact hfull
      rw [rotateIndex, bind_of_ok hbegin, bind_of_ok (run_getFs _), if_neg hne]
      exact rotateIndexCommit_run hp1 (hin _ hp1)
    · rw [hmap]
      exact h.cache.congr rfl rfl rfl
    · change (rotatedWorld w).fs.indexSequenceCount < w.fs.indexSectors
      rw [hcount]
      omega

/-! ## An append -/

/-- The log takes no other record: its last sector is full, and a rotation fills the next
one with copies. -/
def logStuck (w : World) (logs : List (List IndexRecord)) : Prop :=
  indexSectorIsFull w.fs = true ∧ (rotationCopies w logs).length = recordPlaces w.fs

instance : Decidable (logStuck w logs) := by
  unfold logStuck; infer_instance

/-- The number of live slots after a record has been appended. -/
def liveAfter (logs : List (List IndexRecord)) (slot head : Nat) : Nat :=
  (Journal.live (entries (logs.flatten ++ [⟨slot, head⟩]))).card

/-- The cache takes the record when its table has room for it. -/
theorem indexSet_takes {f : Nat → Nat} (hc : CacheIs w.fs f) (hroom : cacheRoom w.fs f slot head) :
    ((indexSet slot head).run w).1 ≠ .error .noSpace := by
  by_cases hslot : slot = 0
  · rw [indexSet]
    split
    · rw [indexRemove, bind_of_ok (run_getFs w)]
      cases Opts.indexCacheMode with
      | none => simp
      | fullSlotHeads => simp
      | hashHeads =>
        dsimp only
        rw [if_pos hslot]
        simp
    · rw [indexInsert, bind_of_ok (run_getFs w)]
      cases Opts.indexCacheMode with
      | none => simp
      | fullSlotHeads => simp
      | hashHeads =>
        dsimp only
        rw [if_pos hslot]
        simp
  · obtain ⟨b, heads, hrun, -⟩ := indexSet_run hc hslot hroom
    rw [hrun]
    simp

/-- An append to an active sector with a free place. -/
theorem LogState.append_free (h : LogState w logs) (hroom : cacheRoom w.fs (logMap logs.flatten) slot head)
    (hfree : ¬ indexSectorIsFull w.fs = true) :
    ((appendIndexRecord slot head).run w).1 ≠ .error .noSpace := by
  have hp := h.placed
  have hin := (Nat.mul_le_mul_right w.fs.sectorSize (Nat.succ_le_of_lt hp.active_lt)).trans hp.fits
  have hend := next_le_of_free hfree
  have happend := appendIndexAtEnd_works (r := ⟨slot, head⟩) hp (hend.trans hin)
  have hr : appendIndexRoom.run w = (.ok (), w) := by
    rw [appendIndexRoom, bind_of_ok (run_getFs w), if_neg hfree]
    rfl
  rw [appendIndexRecord, bind_of_ok hr, bind_of_ok happend]
  exact indexSet_takes (h.cache.congr rfl rfl rfl) hroom

/-- `fffs_append_index_record` finds no room exactly when the log is stuck. -/
theorem LogState.append_noSpace (h : LogState w logs)
    (hroom : cacheRoom w.fs (logMap logs.flatten) slot head) :
    ((appendIndexRecord slot head).run w).1 = .error .noSpace ↔ logStuck w logs := by
  by_cases hfull : indexSectorIsFull w.fs = true
  · obtain ⟨w1, ls, hrotate, h1, hmap, hplaces, htable⟩ := h.rotateIndex_run
    have hiff : logStuck w logs ↔ indexSectorIsFull w1.fs = true := by
      rw [h1.log.full_iff h1.placed, hplaces]
      exact ⟨And.right, fun hlen => ⟨hfull, hlen⟩⟩
    rw [hiff]
    by_cases hfull1 : indexSectorIsFull w1.fs = true
    · have hthrow : appendIndexRoom.run w = (.error .noSpace, w1) := by
        rw [appendIndexRoom, bind_of_ok (run_getFs w), if_pos hfull, bind_of_ok hrotate,
          bind_of_ok (run_getFs w1), if_pos hfull1]
        rfl
      rw [appendIndexRecord, bind_of_error hthrow]
      exact ⟨fun _ => hfull1, fun _ => rfl⟩
    · have hroom1 : cacheRoom w1.fs (logMap (ls ++ [rotationCopies w logs]).flatten) slot head := by
        intro hmode
        rw [hmap, hashRoom, htable.tableSize, htable.buckets]
        exact hroom hmode
      rw [appendIndexRecord_rotated hfull hrotate hfull1]
      exact ⟨fun hno => absurd hno (h1.append_free hroom1 hfull1), fun h1 => absurd h1 hfull1⟩
  · exact ⟨fun hno => absurd hno (h.append_free hroom hfull), fun hs => absurd hs.1 hfull⟩

/-- An append that would leave fewer live slots than the sectors but one have places finds
room exactly when the log is not stuck. -/
theorem append_finds_room (h : LogState w logs)
    (hroom : cacheRoom w.fs (logMap logs.flatten) slot head) :
    (liveAfter logs slot head < (w.fs.indexSectors - 1) * recordPlaces w.fs →
        ((appendIndexRecord slot head).run w).1 ≠ .error .noSpace) ↔
      (w.fs.indexSectors - 1) * recordPlaces w.fs ≤ liveAfter logs slot head ∨ ¬ logStuck w logs := by
  rw [Ne, h.append_noSpace hroom, imp_iff_not_or, not_lt]

omit [Opts] in
theorem logChip_logState {rs rs' : List IndexRecord} (hlog : LogOn (logChip rs rs') [rs, rs']) :
    @LogState fullHeadsOpts (logChip rs rs') [rs, rs'] := by
  refine @LogState.mk fullHeadsOpts _ _ hlog (logChip_placed rs rs') ?_ (show 2 < 3 by decide)
  change logMap (rs ++ rs') = logMap [rs, rs'].flatten
  rw [List.flatten_cons, List.flatten_singleton]

/-- The records of sixty-two new files. -/
def newFiles : List IndexRecord := (List.range 62).map fun i => ⟨i + 1, i + 3⟩

/-- The records of sixty-two versions of another file. -/
def newVersions : List IndexRecord := (List.range 62).map fun i => ⟨63, 65 + i % 10⟩

omit [Opts] in
/-- A log whose oldest sector holds a delete. -/
theorem append_finds_room_delete :
    liveAfter [⟨64, 0⟩ :: newFiles.tail, newVersions] 63 66 < (3 - 1) * 62 ∧
      ((@appendIndexRecord fullHeadsOpts 63 66).run (logChip (⟨64, 0⟩ :: newFiles.tail) newVersions)).1 ≠
        .error .noSpace := by
  have hlog : LogOn (logChip (⟨64, 0⟩ :: newFiles.tail) newVersions)
      [⟨64, 0⟩ :: newFiles.tail, newVersions] := by decide +kernel
  have hfew : liveAfter [⟨64, 0⟩ :: newFiles.tail, newVersions] 63 66 < 2 * 62 := by decide +kernel
  exact ⟨hfew, (@append_finds_room fullHeadsOpts _ _ 63 66 (logChip_logState hlog)
    (fun hhash => nomatch hhash)).mpr (.inr (by decide +kernel)) hfew⟩

omit [Opts] in
/-- Sixty-two files in the oldest sector, and sixty-two versions of one more file. -/
theorem append_misses_room :
    ¬ ∀ [Opts] (w : World) (logs : List (List IndexRecord)) (slot head : Nat), LogState w logs →
      cacheRoom w.fs (logMap logs.flatten) slot head →
      liveAfter logs slot head < (w.fs.indexSectors - 1) * recordPlaces w.fs →
      ((appendIndexRecord slot head).run w).1 ≠ .error .noSpace := by
  intro hall
  have hlog : LogOn (logChip newFiles newVersions) [newFiles, newVersions] := by decide +kernel
  have hstate := logChip_logState hlog
  have hfew : liveAfter [newFiles, newVersions] 63 66 < 2 * 62 := by decide +kernel
  have hstuck : @logStuck fullHeadsOpts (logChip newFiles newVersions) [newFiles, newVersions] := by
    decide +kernel
  exact @hall fullHeadsOpts _ _ 63 66 hstate (fun hhash => nomatch hhash) hfew
    ((@LogState.append_noSpace fullHeadsOpts _ _ _ _ hstate fun hhash => nomatch hhash).mpr hstuck)

end Fastffs
