import Fastffs.Rotation

/-!
# Appending a record

`fffs_append_index_record` on a device that never fails.  The record is added to the log
and its slot is set in the cache, or the log has no room and the map stays as it was
(`RunState.append_run`).
-/

namespace Fastffs

open Prog
open Nor (Mem Byte blank)

variable [Opts] {w : World} {logs : List (List IndexRecord)} {r : IndexRecord}

/-- The record names a slot that a file can have, and its head is `0` or has a live root of
the slot. -/
structure Appendable (w : World) (r : IndexRecord) : Prop where
  slot_ne : r.slot ≠ 0
  slot_lt : r.slot < uint16Max
  head : r.head = 0 ∨ rootIsLive w r.slot r.head = true

/-- The cache can take the record: a hash table needs an empty bucket to take a new slot,
and to give one up. -/
def tableRoom (w : World) (r : IndexRecord) : Prop :=
  Opts.indexCacheMode = .hashHeads →
    (slotHead w r.slot = .ok none ↔ r.head = 0) ∨ hashRoom w.fs

omit [Opts] in
/-- Two worlds with the same data, the same granule and the same size of the hash table. -/
structure SameSetup (w w' : World) : Prop extends SameData w w' where
  granule : w'.dev.programGranule = w.dev.programGranule
  tableSize : w'.fs.indexHashTableSize = w.fs.indexHashTableSize

omit [Opts] in
theorem SameCache.setup {w' : World} (h : SameCache w w') : SameSetup w w' :=
  ⟨h.toSameData, h.granule, h.tableSize⟩

omit [Opts] in
theorem SameSetup.trans {w' w'' : World} (h : SameSetup w w') (h' : SameSetup w' w'') : SameSetup w w'' :=
  ⟨h.toSameData.trans h'.toSameData, h'.granule.trans h.granule, h'.tableSize.trans h.tableSize⟩

/-- The room of a table in terms of the log. -/
theorem RunState.takes (h : RunState w logs) (hslot : r.slot ≠ 0) (hroom : tableRoom w r) :
    cacheRoom w.fs (logMap logs.flatten) r.slot r.head ∧
      (Opts.indexCacheMode = .hashHeads →
        Journal.Takes w.fs.indexHashTableSize (entries logs.flatten) r.entry) := by
  have hiff : slotHead w r.slot = .ok none ↔ logMap logs.flatten r.slot = 0 := by
    rw [h.slotHead_of_ne hslot, Except.ok.injEq, headOf_eq_none]
  have hroom' : cacheRoom w.fs (logMap logs.flatten) r.slot r.head := by
    intro hmode
    rw [← hiff]
    exact hroom hmode
  refine ⟨hroom', fun hmode => (hroom' hmode).imp id fun hfree => ?_⟩
  have hc := h.cache
  unfold CacheIs at hc
  rw [hmode] at hc
  exact live_lt_of_hashRoom hc hfree

/-- The record names a slot that a file can have, and its head is `0` or a data sector. -/
structure Writable (fs : Fs) (r : IndexRecord) : Prop where
  slot_ne : r.slot ≠ 0
  slot_lt : r.slot < uint16Max
  head : r.head = 0 ∨ fs.indexSectors ≤ r.head ∧ r.head < fs.sectorCount

omit [Opts] in
theorem Appendable.writable (ha : Appendable w r) : Writable w.fs r :=
  ⟨ha.slot_ne, ha.slot_lt, ha.head.imp id rootIsLive_sector⟩

omit [Opts] in
theorem Writable.congr {fs fs' : Fs} (ha : Writable fs r) (hsectors : fs'.indexSectors = fs.indexSectors)
    (hcount : fs'.sectorCount = fs.sectorCount) : Writable fs' r :=
  ⟨ha.slot_ne, ha.slot_lt, by rw [hsectors, hcount]; exact ha.head⟩

omit [Opts] in
theorem Writable.clean {fs : Fs} (ha : Writable fs r) (hcount : fs.sectorCount ≤ uint16Max) :
    r.clean fs = true ∧ r.erased = false ∧ r.slot < 65536 ∧ r.head < 65536 := by
  have hhead := ha.head
  have hs := ha.slot_ne
  have hlt := ha.slot_lt
  rw [uint16Max] at hlt hcount
  refine ⟨?_, ?_, by omega, by omega⟩
  · rw [IndexRecord.clean, Bool.or_eq_true, Bool.not_eq_true', ← Bool.not_eq_true,
      IndexRecord.malformed_iff, uint16Max]
    right
    omega
  · rw [IndexRecord.erased, Bool.and_eq_false_iff, uint16Max]
    left
    exact beq_false_of_ne (by omega)

omit [Opts] in
/-- The map of a log with one record more. -/
theorem logMap_append_last (ls : List (List IndexRecord)) (rs : List IndexRecord) (r : IndexRecord) :
    logMap (ls ++ [rs ++ [r]]).flatten =
      Function.update (logMap (ls ++ [rs]).flatten) r.slot r.head := by
  have hflat : (ls ++ [rs ++ [r]]).flatten = (ls ++ [rs]).flatten ++ [r] := by simp
  rw [hflat, logMap, List.map_append, Journal.replay_append]
  rfl

omit [Opts] in
theorem FlashLog.logs_split (h : FlashLog w logs) : ∃ ls rs, logs = ls ++ [rs] := by
  have hpos := h.placed.count_pos
  have hcount := h.log.count
  rcases List.eq_nil_or_concat logs with rfl | ⟨ls, rs, rfl⟩
  · rw [List.length_nil] at hcount
    omega
  · exact ⟨ls, rs, List.concat_eq_append⟩

omit [Opts] in
theorem next_le_of_free (hfree : ¬ indexSectorIsFull w.fs = true) :
    w.fs.nextIndexOffset + 4 ≤ (w.fs.activeIndexSector + 1) * w.fs.sectorSize := by
  rw [indexSectorIsFull, decide_eq_true_eq] at hfree
  omega

omit [Opts] in
/-- The end of the log is blank. -/
theorem FlashLog.blank_next (h : FlashLog w logs) {i : Nat} (h1 : w.fs.nextIndexOffset ≤ i)
    (h2 : i < (w.fs.activeIndexSector + 1) * w.fs.sectorSize) : Nor.get w.dev.mem i = blank := by
  obtain ⟨ls, rs, rfl⟩ := h.logs_split
  obtain ⟨hbegin, hend⟩ := h.log.logBegin_last h.placed
  have hfree := h.log.free ls.length (by rw [length_append_last]; omega)
  rw [getD_last, hbegin, hend, ← h.log.next_eq] at hfree
  exact freeFrom_iff.mp hfree i h1 h2

/-- The world with the record `r` at the end of its log. -/
def appendedWorld (w : World) (r : IndexRecord) : World :=
  (w.withMem (Nor.program w.dev.mem w.fs.nextIndexOffset (recordBytes r)) []).withNext
    (w.fs.nextIndexOffset + 4)

omit [Opts] in
theorem FlashLog.withCache (h : FlashLog w logs) (b : List IndexBucket) (heads : Nat → Nat) :
    FlashLog (w.withCache b heads) logs := by
  have hp := h.placed
  refine ⟨{ h.ring with }, { h.works with }, h.located, h.sectorCount, h.sectorCount_le, ?_⟩
  exact h.log.congr rfl (fun _ _ _ _ _ => rfl) fun k => (logEnd_eq hp.size hp.aligned k).ge

omit [Opts] in
/-- The record is programmed at the end of the log, whatever the cache holds. -/
theorem FlashLog.append_end (h : FlashLog w logs) (ha : Writable w.fs r)
    (hfree : ¬ indexSectorIsFull w.fs = true) :
    ∃ ls rs, logs = ls ++ [rs] ∧
      (appendIndexAtEnd r.slot r.head).run w = (.ok (), appendedWorld w r) ∧
      FlashLog (appendedWorld w r) (ls ++ [rs ++ [r]]) ∧ SameCache w (appendedWorld w r) := by
  have hp := h.placed
  obtain ⟨hclean, herased, hslot, hhead⟩ := ha.clean h.sectorCount_le
  obtain ⟨ls, rs, rfl⟩ := h.logs_split
  have hlen : rs.length < recordPlaces w.fs := by
    have hle := h.log.room ls.length (by rw [length_append_last]; omega)
    rw [getD_last] at hle
    rw [h.log.full_iff hp] at hfree
    omega
  obtain ⟨happend, hsame, hlog⟩ := appendIndexAtEnd_run h.log hp hlen hslot hhead herased hclean
  have hring : RingFree (appendedWorld w r) := by
    obtain ⟨hr, -⟩ := appendIndexAtEnd_ring h.ring.toRing (Bool.not_eq_true _ ▸ hfree) happend
    exact { hr with count_lt := h.ring.count_lt }
  have hend := logEnd_eq hp.size hp.aligned ls.length
  rw [(h.log.logBegin_last hp).1, (h.log.logBegin_last hp).2] at hend
  have hnext := h.log.next_eq
  have hcache : SameCache w (appendedWorld w r) := by
    refine ⟨⟨h.works.plan, rfl, hsame.size, rfl, rfl, rfl, fun i hi => ?_⟩, rfl, rfl, rfl, rfl, rfl⟩
    exact hsame.data h.ring.active_lt (by omega) hi
  exact ⟨ls, rs, rfl, happend, h.ofLog hring hcache h.located hlog, hcache⟩

/-- The end of an append, to an active sector with a free place. -/
theorem RunState.append_end (h : RunState w logs) (ha : Writable w.fs r) (hroom : tableRoom w r)
    (hfree : ¬ indexSectorIsFull w.fs = true) :
    ∃ b heads logs', (appendIndexAtEnd r.slot r.head).run w = (.ok (), appendedWorld w r) ∧
      (indexSet r.slot r.head).run (appendedWorld w r) =
        (.ok (), (appendedWorld w r).withCache b heads) ∧
      RunState ((appendedWorld w r).withCache b heads) logs' ∧
      logMap logs'.flatten = Function.update (logMap logs.flatten) r.slot r.head ∧
      SameSetup w ((appendedWorld w r).withCache b heads) := by
  obtain ⟨hcroom, htakes⟩ := h.takes ha.slot_ne hroom
  obtain ⟨ls, rs, rfl, happend, hflash, hsame⟩ := h.toFlashLog.append_end ha hfree
  have hc1 : CacheIs (appendedWorld w r).fs (logMap (ls ++ [rs]).flatten) := h.cache.congr rfl rfl rfl
  obtain ⟨b, heads, hset, hc2⟩ := indexSet_run hc1 ha.slot_ne
    (show cacheRoom (appendedWorld w r).fs _ _ _ from hcroom)
  have hmap := logMap_append_last ls rs r
  refine ⟨b, heads, ls ++ [rs ++ [r]], happend, hset, ⟨hflash.withCache b heads, ?_, ?_⟩, hmap,
    ⟨{ hsame.toSameData with }, rfl, rfl⟩⟩
  · rw [hmap]
    exact hc2
  · intro hmode
    have hflat : (ls ++ [rs ++ [r]]).flatten = (ls ++ [rs]).flatten ++ [r] := by simp
    rw [hflat, List.map_append, List.map_singleton]
    exact Journal.fits_append_singleton.mpr ⟨h.fits hmode, htakes hmode⟩

/-- An append to an active sector with a free place. -/
theorem RunState.append_free (h : RunState w logs) (ha : Writable w.fs r) (hroom : tableRoom w r)
    (hfree : ¬ indexSectorIsFull w.fs = true) :
    ∃ w' logs', (appendIndexRecord r.slot r.head).run w = (.ok (), w') ∧ RunState w' logs' ∧
      logMap logs'.flatten = Function.update (logMap logs.flatten) r.slot r.head ∧ SameSetup w w' := by
  obtain ⟨b, heads, logs', happend, hset, hstate, hmap, hsetup⟩ := h.append_end ha hroom hfree
  refine ⟨_, logs', ?_, hstate, hmap, hsetup⟩
  have hr : appendIndexRoom.run w = (.ok (), w) := by
    rw [appendIndexRoom, bind_of_ok (run_getFs w), if_neg hfree]
    rfl
  rw [appendIndexRecord, bind_of_ok hr, bind_of_ok happend]
  exact hset

omit [Opts] in
theorem Appendable.congr {w' : World} (ha : Appendable w r) (h : SameData w w') : Appendable w' r :=
  ⟨ha.slot_ne, ha.slot_lt, ha.head.imp id fun hl => by rw [rootIsLive_congr h]; exact hl⟩

/-- An append that rotates first is a rotation and an append. -/
theorem appendIndexRecord_rotated {w1 : World} {slot head : Nat} (hfull : indexSectorIsFull w.fs = true)
    (hrotate : rotateIndex.run w = (.ok (), w1)) (hfree : ¬ indexSectorIsFull w1.fs = true) :
    (appendIndexRecord slot head).run w = (appendIndexRecord slot head).run w1 := by
  have hroom : appendIndexRoom.run w = (.ok (), w1) := by
    rw [appendIndexRoom, bind_of_ok (run_getFs w), if_pos hfull, bind_of_ok hrotate,
      bind_of_ok (run_getFs w1), if_neg hfree]
    rfl
  have hroom1 : appendIndexRoom.run w1 = (.ok (), w1) := by
    rw [appendIndexRoom, bind_of_ok (run_getFs w1), if_neg hfree]
    rfl
  rw [appendIndexRecord, bind_of_ok hroom, bind_of_ok hroom1]

/-- `fffs_append_index_record` on a device that never fails. -/
theorem RunState.append_run (h : RunState w logs) (ha : Writable w.fs r) (hroom : tableRoom w r) :
    ∃ w' logs', RunState w' logs' ∧ SameSetup w w' ∧
      ((appendIndexRecord r.slot r.head).run w = (.ok (), w') ∧
          logMap logs'.flatten = Function.update (logMap logs.flatten) r.slot r.head ∨
        (appendIndexRecord r.slot r.head).run w = (.error .noSpace, w') ∧
          logMap logs'.flatten = logMap logs.flatten) := by
  by_cases hfull : indexSectorIsFull w.fs = true
  · obtain ⟨w1, logs1, hrotate, h1, hmap1, hsame⟩ := h.rotateIndex_run
    have hroom1 : tableRoom w1 r := by
      intro hmode
      have hfree := hroom hmode
      rw [hashRoom, ← hsame.tableSize, ← hsame.buckets, ← h.slotHead_eq h1 hmap1] at hfree
      exact hfree
    by_cases hfull1 : indexSectorIsFull w1.fs = true
    · refine ⟨w1, logs1, h1, hsame.setup, .inr ⟨?_, hmap1⟩⟩
      have hthrow : appendIndexRoom.run w = (.error .noSpace, w1) := by
        rw [appendIndexRoom, bind_of_ok (run_getFs w), if_pos hfull, bind_of_ok hrotate,
          bind_of_ok (run_getFs w1), if_pos hfull1]
        rfl
      rw [appendIndexRecord, bind_of_error hthrow]
    · obtain ⟨w', logs', hrun, h', hmap, hdata⟩ :=
        h1.append_free (ha.congr hsame.indexSectors hsame.sectorCount) hroom1 hfull1
      refine ⟨w', logs', h', hsame.setup.trans hdata, .inl ⟨?_, ?_⟩⟩
      · rw [appendIndexRecord_rotated hfull hrotate hfull1]
        exact hrun
      · rw [hmap, hmap1]
  · obtain ⟨w', logs', hrun, h', hmap, hdata⟩ := h.append_free ha hroom hfull
    exact ⟨w', logs', h', hdata, .inl ⟨hrun, hmap⟩⟩

/-- An append to a log, whatever map the cache holds and whether or not it can take the
record. -/
theorem FlashLog.append_run {f : Nat → Nat} (h : FlashLog w logs) (hc : CacheIs w.fs f)
    (ha : Writable w.fs r) :
    ∃ res w' logs' g, (appendIndexRecord r.slot r.head).run w = (res, w') ∧ FlashLog w' logs' ∧
      CacheIs w'.fs g ∧ SameSetup w w' := by
  have hfree : ∀ {u : World} {ls : List (List IndexRecord)}, FlashLog u ls → CacheIs u.fs f →
      Writable u.fs r → ¬ indexSectorIsFull u.fs = true → ∃ res w' logs' g,
        (appendIndexRecord r.slot r.head).run u = (res, w') ∧ FlashLog w' logs' ∧ CacheIs w'.fs g ∧
        SameSetup u w' := by
    intro u ls hu hcu hau hfree
    obtain ⟨ls', rs, rfl, happend, hflash, hsame⟩ := hu.append_end hau hfree
    have hcu' : CacheIs (appendedWorld u r).fs f := hcu.congr hsame.tableSize hsame.buckets hsame.heads
    obtain ⟨res, b, heads, g, hset, hg⟩ := @indexSet_cases _ _ _ _ r.head hcu' hau.slot_ne
    have hroom : appendIndexRoom.run u = (.ok (), u) := by
      rw [appendIndexRoom, bind_of_ok (run_getFs u), if_neg hfree]
      rfl
    refine ⟨res, _, _, g, ?_, hflash.withCache b heads, hg, ⟨{ hsame.toSameData with }, hsame.granule,
      hsame.tableSize⟩⟩
    rw [appendIndexRecord, bind_of_ok hroom, bind_of_ok happend]
    exact hset
  by_cases hfull : indexSectorIsFull w.fs = true
  · obtain ⟨w1, logs1, hrotate, h1, hsame⟩ := h.rotateIndex_run hc
    have hc1 : CacheIs w1.fs f := hc.congr hsame.tableSize hsame.buckets hsame.heads
    by_cases hfull1 : indexSectorIsFull w1.fs = true
    · refine ⟨.error .noSpace, w1, logs1, f, ?_, h1, hc1, hsame.setup⟩
      have hthrow : appendIndexRoom.run w = (.error .noSpace, w1) := by
        rw [appendIndexRoom, bind_of_ok (run_getFs w), if_pos hfull, bind_of_ok hrotate,
          bind_of_ok (run_getFs w1), if_pos hfull1]
        rfl
      rw [appendIndexRecord, bind_of_error hthrow]
    · obtain ⟨res, w', logs', g, hrun, h', hc', hset⟩ :=
        hfree h1 hc1 (ha.congr hsame.indexSectors hsame.sectorCount) hfull1
      refine ⟨res, w', logs', g, ?_, h', hc', hsame.setup.trans hset⟩
      rw [appendIndexRecord_rotated hfull hrotate hfull1]
      exact hrun
  · exact hfree h hc ha hfull

/-! ## Live roots -/

theorem IndexState.logs_split (h : IndexState w logs) : ∃ ls rs, logs = ls ++ [rs] := h.running.logs_split

theorem IndexState.takes (h : IndexState w logs) (hslot : r.slot ≠ 0) (hroom : tableRoom w r) :
    cacheRoom w.fs (logMap logs.flatten) r.slot r.head ∧
      (Opts.indexCacheMode = .hashHeads →
        Journal.Takes w.fs.indexHashTableSize (entries logs.flatten) r.entry) := h.running.takes hslot hroom

theorem IndexState.blank_next (h : IndexState w logs) {i : Nat} (h1 : w.fs.nextIndexOffset ≤ i)
    (h2 : i < (w.fs.activeIndexSector + 1) * w.fs.sectorSize) : Nor.get w.dev.mem i = blank :=
  h.running.blank_next h1 h2

/-- A record with a live root keeps the roots of the map live. -/
theorem IndexState.ofAppend {w' : World} {logs' : List (List IndexRecord)} (h : IndexState w logs)
    (ha : Appendable w r) (h' : RunState w' logs') (hdata : SameData w w')
    (hmap : logMap logs'.flatten = Function.update (logMap logs.flatten) r.slot r.head) :
    IndexState w' logs' := by
  refine h.ofRunning h' hdata fun slot => ?_
  rw [hmap, Function.update_apply]
  split
  · next heq =>
    intro hne
    rw [heq]
    exact ha.head.resolve_left hne
  · exact h.live slot

theorem IndexState.append_end (h : IndexState w logs) (ha : Appendable w r) (hroom : tableRoom w r)
    (hfree : ¬ indexSectorIsFull w.fs = true) :
    ∃ b heads logs', (appendIndexAtEnd r.slot r.head).run w = (.ok (), appendedWorld w r) ∧
      (indexSet r.slot r.head).run (appendedWorld w r) =
        (.ok (), (appendedWorld w r).withCache b heads) ∧
      IndexState ((appendedWorld w r).withCache b heads) logs' ∧
      logMap logs'.flatten = Function.update (logMap logs.flatten) r.slot r.head ∧
      SameSetup w ((appendedWorld w r).withCache b heads) := by
  obtain ⟨b, heads, logs', happend, hset, hstate, hmap, hsetup⟩ := h.running.append_end ha.writable hroom hfree
  exact ⟨b, heads, logs', happend, hset, h.ofAppend ha hstate hsetup.toSameData hmap, hmap, hsetup⟩

/-- An append to a log whose heads have live roots. -/
theorem IndexState.append_run (h : IndexState w logs) (ha : Appendable w r) (hroom : tableRoom w r) :
    ∃ w' logs', IndexState w' logs' ∧ SameSetup w w' ∧
      ((appendIndexRecord r.slot r.head).run w = (.ok (), w') ∧
          logMap logs'.flatten = Function.update (logMap logs.flatten) r.slot r.head ∨
        (appendIndexRecord r.slot r.head).run w = (.error .noSpace, w') ∧
          logMap logs'.flatten = logMap logs.flatten) := by
  obtain ⟨w', logs', hstate, hsetup, hcases⟩ := h.running.append_run ha.writable hroom
  refine ⟨w', logs', ?_, hsetup, hcases⟩
  rcases hcases with ⟨-, hmap⟩ | ⟨-, hmap⟩
  · exact h.ofAppend ha hstate hsetup.toSameData hmap
  · exact h.ofMap hstate hsetup.toSameData hmap

end Fastffs
