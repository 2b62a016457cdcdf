import Fastffs.Compaction
import Fastffs.Sequences

/-!
# Rotation

What `fffs_rotate_index` and `fffs_append_index_record` do on a device that never fails.
A rotation leaves the map of the log as it was, and an append sets one slot of it.
-/

namespace Fastffs

open Prog
open Nor (Mem Byte blank)

/-! ## The header of the new sector -/

section Commit

variable {v : World} {logs : List (List IndexRecord)}

/-- The flash after `fffs_program_index_header`. -/
def headed (m : Mem) (off n shift serial : Nat) : Mem :=
  Nor.program (Nor.program m off (encodeIndexHeader n shift serial)) (off + 7) [indexFlagsValid]

theorem length_encodeIndexHeader (n shift serial : Nat) :
    (encodeIndexHeader n shift serial).length = headerSize := rfl

theorem headed_outside (m : Mem) (off n shift serial : Nat) :
    SameOutside off (off + headerSize) m (headed m off n shift serial) :=
  (SameOutside.program m off (encodeIndexHeader n shift serial)).trans
    ((SameOutside.program _ (off + 7) [indexFlagsValid]).mono (Nat.le_add_right _ _) le_rfl)

theorem rotateIndexCommit_run (hp : LogPlaced v)
    (hin : (v.fs.activeIndexSector + 1) * v.fs.sectorSize ≤ v.dev.size) :
    rotateIndexCommit.run v =
      (.ok (), v.withMem (headed v.dev.mem (v.fs.activeIndexSector * v.fs.sectorSize) v.fs.indexSectors
        v.fs.sectorShift v.fs.activeIndexSerial) []) := by
  have hsize := hp.size
  rw [Nat.add_mul, Nat.one_mul] at hin
  rw [rotateIndexCommit, bind_of_ok (run_getFs v), programIndexHeader,
    bind_of_ok (programAligned_run hp.plan hp.granule_pos hp.granule_mod (by
      rw [length_encodeIndexHeader, headerSize]
      omega))]
  have hflags : (programAligned (v.fs.activeIndexSector * v.fs.sectorSize + 7) [indexFlagsValid]).run
      (v.withMem (Nor.program v.dev.mem (v.fs.activeIndexSector * v.fs.sectorSize)
        (encodeIndexHeader v.fs.indexSectors v.fs.sectorShift v.fs.activeIndexSerial)) []) = _ :=
    programAligned_run rfl hp.granule_pos hp.granule_mod (by
      rw [List.length_singleton]
      exact (show v.fs.activeIndexSector * v.fs.sectorSize + 7 + 1 ≤ v.dev.size by omega))
  exact hflags

/-- A change of the headers leaves the records. -/
theorem LogOn.offRecords {m : Mem} (h : LogOn v logs) (hp : LogPlaced v)
    (hget : ∀ i, headerSize ≤ i % v.fs.sectorSize → Nor.get m i = Nor.get v.dev.mem i) :
    LogOn (v.withMem m []) logs := by
  refine h.congr rfl (fun k _ i h1 h2 => hget i ?_) fun k => (logEnd_eq hp.size hp.aligned k).ge
  rw [logBegin, indexSectorBegin] at h1
  rw [logEnd, Nat.add_mul, Nat.one_mul] at h2
  obtain ⟨j, rfl⟩ : ∃ j, i = logicalIndexSector v.fs k * v.fs.sectorSize + j :=
    ⟨i - logicalIndexSector v.fs k * v.fs.sectorSize, by omega⟩
  rw [Nat.mul_add_mod_of_lt (by omega)]
  omega

/-- A byte of the records lies outside the header of a sector. -/
theorem SameOutside.offHeader {m m' : Mem} {s size : Nat} (hsize : headerSize ≤ size)
    (h : SameOutside (s * size) (s * size + headerSize) m m') {i : Nat} (hi : headerSize ≤ i % size) :
    Nor.get m' i = Nor.get m i := by
  refine h.get i ?_
  by_contra hin
  rw [not_or, not_lt, not_le] at hin
  obtain ⟨j, rfl⟩ : ∃ j, i = s * size + j := ⟨i - s * size, by omega⟩
  rw [Nat.mul_add_mod_of_lt (by omega)] at hi
  omega

end Commit

/-! ## Dropping the oldest sector -/

section Drop

variable {v : World} {rs : List IndexRecord} {ls : List (List IndexRecord)}

/-- The flash after `tombstone_index_sector`. -/
def tombstoned (m : Mem) (off : Nat) : Mem := Nor.program m (off + 7) [indexFlagsValid &&& ~~~0x40#8]

theorem tombstoned_outside (m : Mem) (off : Nat) :
    SameOutside off (off + headerSize) m (tombstoned m off) :=
  (SameOutside.program _ _ _).mono (Nat.le_add_right _ _) le_rfl

/-- The file system after `index_compact_oldest_finish`. -/
def droppedFs (fs : Fs) : Fs :=
  { fs with oldestIndexSector := logicalIndexSector fs 1
            indexSequenceCount := fs.indexSequenceCount - 1 }

/-- The world after `index_compact_oldest_finish`. -/
def droppedWorld (v : World) : World :=
  { v.withMem (tombstoned v.dev.mem (v.fs.oldestIndexSector * v.fs.sectorSize)) [] with
    fs := droppedFs v.fs }

theorem indexCompactOldestFinish_run (hp : LogPlaced v) :
    (indexCompactOldestFinish v.fs.oldestIndexSector).run v = (.ok (), droppedWorld v) := by
  have hsize := hp.size
  have hin := (Nat.mul_le_mul_right v.fs.sectorSize hp.oldest_lt).trans hp.fits
  rw [Nat.succ_mul] at hin
  have htomb : (tombstoneIndexSector v.fs.oldestIndexSector).run v =
      (.ok (), v.withMem (tombstoned v.dev.mem (v.fs.oldestIndexSector * v.fs.sectorSize)) []) := by
    rw [tombstoneIndexSector, bind_of_ok (run_getFs v)]
    exact programAligned_run hp.plan hp.granule_pos hp.granule_mod (by rw [List.length_singleton]; omega)
  rw [indexCompactOldestFinish, bind_of_ok htomb, run_modifyFs]
  rfl

theorem logicalIndexSector_dropped {fs : Fs} (k : Nat) :
    logicalIndexSector (droppedFs fs) k = logicalIndexSector fs (k + 1) := by
  change ((fs.oldestIndexSector + 1) % fs.indexSectors + k) % fs.indexSectors =
    (fs.oldestIndexSector + (k + 1)) % fs.indexSectors
  rw [Nat.mod_add_mod]
  congr 1
  omega

/-- The log without its oldest sector. -/
theorem LogOn.dropped (h : LogOn v (rs :: ls)) (hp : LogPlaced v) (hls : ls ≠ []) :
    LogOn (droppedWorld v) ls := by
  have hsize := hp.size
  have hmem := (h.offRecords hp fun i hi =>
    (tombstoned_outside v.dev.mem (v.fs.oldestIndexSector * v.fs.sectorSize)).offHeader
      (by rw [headerSize]; omega) hi)
  have hcount := h.count
  rw [List.length_cons] at hcount
  have hbegin : ∀ k, logBegin (droppedWorld v).fs k = logBegin v.fs (k + 1) := by
    intro k
    rw [logBegin, logBegin]
    change indexSectorBegin v.fs (logicalIndexSector (droppedFs v.fs) k) = _
    rw [logicalIndexSector_dropped]
  have hend : ∀ k, logEnd (droppedWorld v).fs k = logEnd v.fs (k + 1) := by
    intro k
    rw [logEnd, logEnd]
    change (logicalIndexSector (droppedFs v.fs) k + 1) * v.fs.sectorSize = _
    rw [logicalIndexSector_dropped]
  refine ⟨?_, fun k hk => ?_, fun k hk => ?_, fun k hk => ?_, fun l hl r hr => ?_, ?_⟩
  · change ls.length = v.fs.indexSequenceCount - 1
    omega
  · rw [hbegin]
    exact hmem.records (k + 1) (Nat.succ_lt_succ hk)
  · exact hmem.room (k + 1) (Nat.succ_lt_succ hk)
  · rw [hbegin, hend]
    exact hmem.free (k + 1) (Nat.succ_lt_succ hk)
  · exact hmem.clean l (List.mem_cons_of_mem _ hl) r hr
  · have hnext := hmem.next
    rw [List.getLast?_cons_of_ne_nil hls] at hnext
    exact hnext

end Drop

variable [Opts]

/-! ## Copying the oldest sector -/

section Copy

variable {v : World} {mid : List (List IndexRecord)} {rs0 cp : List IndexRecord}

omit [Opts] in
theorem LogPlaced.sourceBegin (hp : LogPlaced v) :
    indexSectorBegin v.fs v.fs.oldestIndexSector = logBegin v.fs 0 := by
  rw [logBegin, logicalIndexSector_zero hp.oldest_lt]

omit [Opts] in
theorem LogPlaced.copyFuel (hp : LogPlaced v) :
    recordPlaces v.fs - ([] : List IndexRecord).length < v.fs.sectorSize := by
  have hsize := hp.size
  rw [recordPlaces, headerSize]
  omega

omit [Opts] in
theorem Copies.compacts (h : Copies (logMap (rs0 ++ mid.flatten)) mid rs0 cp) :
    Journal.Compacts (entries rs0) (entries mid.flatten) (entries cp) := by
  constructor
  · intro e he
    obtain ⟨r, hr, rfl⟩ := List.mem_map.mp he
    have hcur := h.current r hr
    rw [← entries_append]
    exact hcur
  · intro k hk hne
    rw [Journal.replay_eq_latest] at hne
    rw [entries, List.map_map] at hk ⊢
    exact h.covers k hk hne

omit [Opts] in
theorem Copies.logMap_eq (h : Copies (logMap (rs0 ++ mid.flatten)) mid rs0 cp) :
    logMap (mid ++ [cp]).flatten = logMap (rs0 :: mid).flatten := by
  have heq := h.compacts.replay_eq
  rw [← entries_append, ← entries_append] at heq
  rw [List.flatten_append, List.flatten_singleton, List.flatten_cons]
  exact heq

theorem Copies.cacheFits (h : Copies (logMap (rs0 ++ mid.flatten)) mid rs0 cp) {size : Nat}
    (hfits : cacheFits size (rs0 :: mid).flatten) : cacheFits size (mid ++ [cp]).flatten := by
  intro hmode
  have hb := hfits hmode
  rw [List.flatten_cons, List.map_append] at hb
  rw [List.flatten_append, List.flatten_singleton, List.map_append]
  refine h.compacts.fits (fun e he => ?_) hb
  obtain ⟨r, hr, rfl⟩ := List.mem_map.mp he
  exact (h.slots r hr).2

/-- `index_compact_oldest_copy` in a rotation. -/
theorem indexCompactOldestCopy_run {f : Nat → Nat} (h : LogOn v (rs0 :: mid ++ [[]])) (hp : LogPlaced v)
    (hc : CacheIs v.fs f) :
    let cp := keptRecords f mid.flatten rs0
    ∃ m, indexCompactOldestCopy.run v = (.ok v.fs.oldestIndexSector,
        (v.withMem m []).withNext (v.fs.nextIndexOffset + 4 * cp.length)) ∧
      SameOutside (indexSectorBegin v.fs v.fs.activeIndexSector)
        ((v.fs.activeIndexSector + 1) * v.fs.sectorSize) v.dev.mem m ∧
      LogOn ((v.withMem m []).withNext (v.fs.nextIndexOffset + 4 * cp.length)) (rs0 :: mid ++ [cp]) := by
  intro cp
  have hcount := h.count
  rw [length_append_last, List.length_cons] at hcount
  have hroom : cp.length ≤ recordPlaces v.fs :=
    keptRecords_length_le.trans (h.room 0 (Nat.succ_pos _))
  have hstate : CopyState v f rs0 mid [] mid.flatten [] [] rs0 :=
    ⟨h, hp, hc, rfl, rfl, fun _ _ _ => by simp⟩
  obtain ⟨m, hrun, hsame, hlog⟩ := @compactCopyLoop_run _ _ _ _ _ _ _ _ _ _ false _ v.fs.sectorSize
    hstate (IndexRecordReader.shows_nil _) (by rw [List.length_nil, Nat.zero_add]; exact hroom) hp.copyFuel
  refine ⟨m, ?_, hsame, hlog⟩
  rw [indexCompactOldestCopy, bind_of_ok (run_getFs v)]
  dsimp only
  rw [if_neg (by omega), h.sourceEnd hp (by simp), hp.sourceBegin]
  exact bind_of_ok hrun

end Copy

/-! ## The index of a mounted file system -/

/-- A mounted file system on a device that never fails.  The flash holds the log `logs`
in a ring that a mount can find, the cache holds the map of the log, and every head of
the map has a live root. -/
structure IndexState (w : World) (logs : List (List IndexRecord)) : Prop where
  ring : RingFree w
  works : Works w
  sectors_le : w.fs.indexSectors ≤ 9
  located : located w.fs
  sectorCount : w.fs.sectorCount = w.dev.size / w.fs.sectorSize
  sectorCount_le : w.fs.sectorCount ≤ uint16Max
  log : LogOn w logs
  cache : CacheIs w.fs (logMap logs.flatten)
  fits : cacheFits w.fs.indexHashTableSize logs.flatten
  live : ∀ slot, logMap logs.flatten slot ≠ 0 →
    rootIsLive w slot (logMap logs.flatten slot) = true

/-- The flash of a device that never fails holds the log `logs`, in a ring that a mount
can find. -/
structure FlashLog (w : World) (logs : List (List IndexRecord)) : Prop where
  ring : RingFree w
  works : Works w
  located : located w.fs
  sectorCount : w.fs.sectorCount = w.dev.size / w.fs.sectorSize
  sectorCount_le : w.fs.sectorCount ≤ uint16Max
  log : LogOn w logs

/-- A mounted file system on a device that never fails, as a run of calls keeps it: the
log of the flash and the map of the cache, without what the heads of the map point to. -/
structure RunState (w : World) (logs : List (List IndexRecord)) : Prop extends FlashLog w logs where
  cache : CacheIs w.fs (logMap logs.flatten)
  fits : cacheFits w.fs.indexHashTableSize logs.flatten

section State

variable {w w' : World} {logs logs' : List (List IndexRecord)}

theorem IndexState.running (h : IndexState w logs) : RunState w logs :=
  ⟨⟨h.ring, h.works, h.located, h.sectorCount, h.sectorCount_le, h.log⟩, h.cache, h.fits⟩

omit [Opts] in
theorem FlashLog.placed (h : FlashLog w logs) : LogPlaced w := h.ring.placed h.works

theorem IndexState.placed (h : IndexState w logs) : LogPlaced w := h.running.placed

/-- `fffs_index_head_for_slot` of a mounted file system. -/
def slotHead (w : World) (slot : Nat) : Except Status (Option Nat) := ((indexHeadForSlot slot).run w).1

theorem RunState.slotHead_of_ne (h : RunState w logs) {slot : Nat} (hslot : slot ≠ 0) :
    slotHead w slot = .ok (headOf (logMap logs.flatten slot)) := by
  rw [slotHead, indexHeadForSlot_run h.log h.placed h.cache hslot]

theorem IndexState.slotHead_of_ne (h : IndexState w logs) {slot : Nat} (hslot : slot ≠ 0) :
    slotHead w slot = .ok (headOf (logMap logs.flatten slot)) := h.running.slotHead_of_ne hslot

omit [Opts] in
theorem FlashLog.clean_slot (h : FlashLog w logs) :
    ∀ r ∈ logs.flatten, r.clobbered = true ∨ r.slot ≠ 0 := by
  intro r hr
  obtain ⟨rs, hrs, hr⟩ := List.mem_flatten.mp hr
  exact IndexRecord.clean_slot (h.log.clean rs hrs r hr)

theorem IndexState.clean_slot (h : IndexState w logs) :
    ∀ r ∈ logs.flatten, r.clobbered = true ∨ r.slot ≠ 0 := h.running.clean_slot

/-- The lookup of slot `0`, which a build with a hash table rejects. -/
theorem RunState.slotHead_zero (h : RunState w logs) :
    slotHead w 0 = if Opts.indexCacheMode = .hashHeads then .error .invalid else .ok none := by
  have hzero := logMap_zero h.clean_slot
  have hc := h.cache
  unfold CacheIs at hc
  rw [slotHead, indexHeadForSlot, bind_of_ok (run_getFs w)]
  cases hm : Opts.indexCacheMode with
  | hashHeads => rfl
  | fullSlotHeads =>
    rw [hm] at hc
    dsimp only at hc ⊢
    rw [hc, hzero]
    rfl
  | none =>
    have hscan : (headForSlotScan 0 w.fs.indexSequenceCount).run w = _ :=
      headForSlotScan_run h.log h.placed h.log.count.ge
    dsimp only
    rw [hscan, List.take_of_length_le h.log.count.le, if_neg (by simp)]
    rw [logMap, Journal.replay_eq_latest] at hzero
    change Except.ok ((Journal.latest 0 (entries logs.flatten)).bind _) = _
    change ((Journal.latest 0 (entries logs.flatten)).getD 0) = 0 at hzero
    cases hlast : Journal.latest 0 (entries logs.flatten) with
    | none => rfl
    | some head =>
      rw [hlast, Option.getD_some] at hzero
      rw [hzero]
      rfl

theorem IndexState.slotHead_zero (h : IndexState w logs) :
    slotHead w 0 = if Opts.indexCacheMode = .hashHeads then .error .invalid else .ok none :=
  h.running.slotHead_zero

/-- Two mounted file systems with the same map of the log. -/
theorem RunState.slotHead_eq (h : RunState w logs) (h' : RunState w' logs')
    (hmap : logMap logs'.flatten = logMap logs.flatten) : slotHead w' = slotHead w := by
  funext slot
  by_cases hslot : slot = 0
  · rw [hslot, h.slotHead_zero, h'.slotHead_zero]
  · rw [h.slotHead_of_ne hslot, h'.slotHead_of_ne hslot, hmap]

theorem IndexState.slotHead_eq (h : IndexState w logs) (h' : IndexState w' logs')
    (hmap : logMap logs'.flatten = logMap logs.flatten) : slotHead w' = slotHead w :=
  h.running.slotHead_eq h'.running hmap

omit [Opts] in
/-- Another log on the same data. -/
theorem FlashLog.ofData (h : FlashLog w logs)
    (hring : RingFree w') (hdata : SameData w w') (hscratch : w'.fs.scratchSize = w.fs.scratchSize)
    (hgranule : w'.dev.programGranule = w.dev.programGranule) (hloc : Fastffs.located w'.fs)
    (hlog : LogOn w' logs') : FlashLog w' logs' := by
  have hdev : w'.dev.size = w.dev.size := hdata.size
  refine ⟨hring, ⟨hdata.plan', ?_, ?_⟩, hloc, ?_, ?_, hlog⟩
  · rw [hscratch]
    exact h.works.scratch
  · rw [hdev, hgranule]
    exact h.works.granule_mod
  · rw [hdata.sectorCount, hdev, hdata.sectorSize]
    exact h.sectorCount
  · rw [hdata.sectorCount]
    exact h.sectorCount_le

/-- The heads of another map still have live roots. -/
theorem IndexState.ofRunning (h : IndexState w logs) (h' : RunState w' logs') (hdata : SameData w w')
    (hlive : ∀ slot, logMap logs'.flatten slot ≠ 0 →
      rootIsLive w slot (logMap logs'.flatten slot) = true) : IndexState w' logs' := by
  refine ⟨h'.ring, h'.works, ?_, h'.located, h'.sectorCount, h'.sectorCount_le, h'.log, h'.cache, h'.fits,
    fun slot hne => ?_⟩
  · rw [hdata.indexSectors]
    exact h.sectors_le
  · rw [rootIsLive_congr hdata]
    exact hlive slot hne

/-- Another state on the same data. -/
theorem IndexState.ofData (h : IndexState w logs)
    (hring : RingFree w') (hdata : SameData w w') (hscratch : w'.fs.scratchSize = w.fs.scratchSize)
    (hgranule : w'.dev.programGranule = w.dev.programGranule) (hloc : Fastffs.located w'.fs)
    (hlog : LogOn w' logs') (hcache : CacheIs w'.fs (logMap logs'.flatten))
    (hfits : cacheFits w'.fs.indexHashTableSize logs'.flatten)
    (hlive : ∀ slot, logMap logs'.flatten slot ≠ 0 →
      rootIsLive w slot (logMap logs'.flatten slot) = true) : IndexState w' logs' :=
  h.ofRunning ⟨h.running.ofData hring hdata hscratch hgranule hloc hlog, hcache, hfits⟩ hdata hlive

/-- Two worlds that agree on the data and on the cache. -/
structure SameCache (w w' : World) : Prop extends SameData w w' where
  scratch : w'.fs.scratchSize = w.fs.scratchSize
  granule : w'.dev.programGranule = w.dev.programGranule
  tableSize : w'.fs.indexHashTableSize = w.fs.indexHashTableSize
  buckets : w'.fs.buckets = w.fs.buckets
  heads : w'.fs.indexHeads = w.fs.indexHeads

/-- Another state with the same map. -/
theorem RunState.ofLog (h : RunState w logs)
    (hring : RingFree w') (hsame : SameCache w w') (hloc : Fastffs.located w'.fs)
    (hlog : LogOn w' logs') (hmap : logMap logs'.flatten = logMap logs.flatten)
    (hfits : cacheFits w.fs.indexHashTableSize logs'.flatten) : RunState w' logs' := by
  refine ⟨h.ofData hring hsame.toSameData hsame.scratch hsame.granule hloc hlog, ?_, ?_⟩
  · rw [hmap]
    exact h.cache.congr hsame.tableSize hsame.buckets hsame.heads
  · rw [hsame.tableSize]
    exact hfits

/-- The same map keeps its live roots. -/
theorem IndexState.ofMap (h : IndexState w logs) (h' : RunState w' logs') (hdata : SameData w w')
    (hmap : logMap logs'.flatten = logMap logs.flatten) : IndexState w' logs' := by
  refine h.ofRunning h' hdata ?_
  rw [hmap]
  exact h.live

/-- Another state with the same map. -/
theorem IndexState.ofLog (h : IndexState w logs)
    (hring : RingFree w') (hsame : SameCache w w') (hloc : Fastffs.located w'.fs)
    (hlog : LogOn w' logs') (hmap : logMap logs'.flatten = logMap logs.flatten)
    (hfits : cacheFits w.fs.indexHashTableSize logs'.flatten) : IndexState w' logs' :=
  h.ofMap (h.running.ofLog hring hsame hloc hlog hmap hfits) hsame.toSameData hmap

end State

/-! ## Checking a state -/

section Check

variable {w : World} {logs : List (List IndexRecord)}

omit [Opts] in
theorem IndexRing.wf_iff (r : IndexRing) : r.Wf ↔ 2 ≤ r.sectors ∧ r.sectors ≤ 15 ∧
    r.oldest < r.sectors ∧ 0 < r.count ∧ r.count ≤ r.sectors ∧ r.serial < 16 :=
  ⟨fun ⟨h1, h2, h3, h4, h5, h6⟩ => ⟨h1, h2, h3, h4, h5, h6⟩,
    fun ⟨h1, h2, h3, h4, h5, h6⟩ => ⟨h1, h2, h3, h4, h5, h6⟩⟩

instance (r : IndexRing) : Decidable r.Wf := decidable_of_iff _ r.wf_iff.symm

omit [Opts] in
theorem ringFree_iff (w : World) : RingFree w ↔ w.fs.ring.Wf ∧
    w.fs.activeIndexSector = w.fs.ring.active ∧ w.fs.sectorShift ≤ maxSectorShift ∧
    w.fs.sectorSize = sectorSizeOf w.fs.sectorShift ∧
    w.fs.indexSectors * w.fs.sectorSize ≤ w.dev.size ∧ w.dev.size % w.fs.sectorSize = 0 ∧
    0 < w.dev.programGranule ∧
    w.fs.activeIndexSector * w.fs.sectorSize + headerSize ≤ w.fs.nextIndexOffset ∧
    (∀ i < w.fs.indexSectors, validIndexHeader (Nor.read w.dev.mem (i * w.fs.sectorSize) headerSize) =
      (w.fs.ring.serialAt i).map fun serial => ⟨w.fs.indexSectors, w.fs.sectorShift, serial⟩) ∧
    w.fs.indexSequenceCount < w.fs.indexSectors := by
  constructor
  · rintro ⟨⟨h1, h2, h3, h4, h5, h6, h7, h8, -, h10⟩, h11⟩
    exact ⟨h1, h2, h3, h4, h5, h6, h7, h8, fun i hi => h10 i hi False.elim, h11⟩
  · rintro ⟨h1, h2, h3, h4, h5, h6, h7, h8, h9, h10⟩
    exact ⟨⟨h1, h2, h3, h4, h5, h6, h7, h8, False.elim, fun i hi _ => h9 i hi⟩, h10⟩

instance (w : World) : Decidable (RingFree w) := decidable_of_iff _ (ringFree_iff w).symm

omit [Opts] in
theorem works_iff (w : World) : Works w ↔ w.dev.plan.isEmpty = true ∧ 4 ≤ w.fs.scratchSize ∧
    w.dev.size % w.dev.programGranule = 0 := by
  rw [List.isEmpty_iff]
  exact ⟨fun ⟨h1, h2, h3⟩ => ⟨h1, h2, h3⟩, fun ⟨h1, h2, h3⟩ => ⟨h1, h2, h3⟩⟩

instance (w : World) : Decidable (Works w) := decidable_of_iff _ (works_iff w).symm

instance Records.decidable (m : Mem) : ∀ (off : Nat) (rs : List IndexRecord), Decidable (Records m off rs)
  | _, [] => isTrue trivial
  | off, r :: rs =>
    have := Records.decidable m (off + 4) rs
    inferInstanceAs (Decidable (recordAt m off = r ∧ r.erased = false ∧ Records m (off + 4) rs))

omit [Opts] in
theorem logOn_iff (w : World) (logs : List (List IndexRecord)) : LogOn w logs ↔
    logs.length = w.fs.indexSequenceCount ∧
    (∀ k < logs.length, Records w.dev.mem (logBegin w.fs k) (logs.getD k []) ∧
      (logs.getD k []).length ≤ recordPlaces w.fs ∧
      freeFrom w.dev.mem (logBegin w.fs k + 4 * (logs.getD k []).length) (logEnd w.fs k) = true) ∧
    (∀ rs ∈ logs, ∀ r ∈ rs, r.clean w.fs = true) ∧
    w.fs.nextIndexOffset =
      indexSectorBegin w.fs w.fs.activeIndexSector + 4 * (logs.getLast?.getD []).length := by
  constructor
  · rintro ⟨h1, h2, h3, h4, h5, h6⟩
    exact ⟨h1, fun k hk => ⟨h2 k hk, h3 k hk, h4 k hk⟩, h5, h6⟩
  · rintro ⟨h1, h2, h3, h4⟩
    exact ⟨h1, fun k hk => (h2 k hk).1, fun k hk => (h2 k hk).2.1, fun k hk => (h2 k hk).2.2, h3, h4⟩

instance (w : World) (logs : List (List IndexRecord)) : Decidable (LogOn w logs) :=
  decidable_of_iff _ (logOn_iff w logs).symm

/-- The state of a build without a cache, in a form that can be evaluated. -/
theorem indexState_iff (hmode : Opts.indexCacheMode = .none) : IndexState w logs ↔
    RingFree w ∧ Works w ∧ w.fs.indexSectors ≤ 9 ∧ located w.fs ∧
      w.fs.sectorCount = w.dev.size / w.fs.sectorSize ∧ w.fs.sectorCount ≤ uint16Max ∧ LogOn w logs ∧
      ∀ r ∈ logs.flatten, logMap logs.flatten r.slot ≠ 0 →
        rootIsLive w r.slot (logMap logs.flatten r.slot) = true := by
  constructor
  · rintro ⟨h1, h2, h3, h4, h5, h6, h7, -, -, h10⟩
    exact ⟨h1, h2, h3, h4, h5, h6, h7, fun r _ => h10 r.slot⟩
  · rintro ⟨h1, h2, h3, h4, h5, h6, h7, h8⟩
    refine ⟨h1, h2, h3, h4, h5, h6, h7, ?_, ?_, fun slot hne => ?_⟩
    · unfold CacheIs
      rw [hmode]
      trivial
    · intro hhash
      rw [hmode] at hhash
      cases hhash
    · obtain ⟨r, hr, rfl⟩ := logMap_record hne
      exact h8 r hr hne

end Check

/-! ## A rotation -/

section Rotate

variable {w : World} {logs : List (List IndexRecord)}

omit [Opts] in
/-- The sector a rotation goes to lies inside the index. -/
theorem LogPlaced.next_in (hp : LogPlaced w) :
    (nextIndexSector w.fs w.fs.activeIndexSector + 1) * w.fs.sectorSize ≤
      w.fs.indexSectors * w.fs.sectorSize := by
  rw [hp.next_logical]
  exact Nat.mul_le_mul_right _ (logicalIndexSector_lt hp.sectors_pos _)

omit [Opts] in
/-- A rotation has begun. -/
theorem FlashLog.begun (h : FlashLog w logs) :
    rotateIndexBegin.run w = (.ok (), rotatedWorld w) ∧ Ring True (rotatedWorld w) ∧
      (rotatedWorld w).fs.ring = w.fs.ring.grow ∧ LogPlaced (rotatedWorld w) ∧
      LogOn (rotatedWorld w) (logs ++ [[]]) := by
  have hp := h.placed
  have hrun := rotateIndexBegin_run h.works.plan (hp.next_in.trans hp.fits)
  obtain ⟨hr, hring, -⟩ := rotateIndexBegin_ring h.ring.toRing h.ring.count_lt hrun
  exact ⟨hrun, hr, hring, hr.placed ⟨h.works.plan, h.works.scratch, h.works.granule_mod⟩,
    h.log.rotated hp h.ring.count_lt⟩

theorem IndexState.begun (h : IndexState w logs) :
    rotateIndexBegin.run w = (.ok (), rotatedWorld w) ∧ Ring True (rotatedWorld w) ∧
      (rotatedWorld w).fs.ring = w.fs.ring.grow ∧ LogPlaced (rotatedWorld w) ∧
      LogOn (rotatedWorld w) (logs ++ [[]]) := h.running.begun

omit [Opts] in
/-- The world after `rotate_index_commit`. -/
def headedWorld (v : World) : World :=
  v.withMem (headed v.dev.mem (v.fs.activeIndexSector * v.fs.sectorSize) v.fs.indexSectors
    v.fs.sectorShift v.fs.activeIndexSerial) []

omit [Opts] in
theorem headedWorld_outside {v : World} (hsize : 256 ≤ v.fs.sectorSize) :
    SameOutside (v.fs.activeIndexSector * v.fs.sectorSize)
      ((v.fs.activeIndexSector + 1) * v.fs.sectorSize) v.dev.mem (headedWorld v).dev.mem := by
  refine (headed_outside _ _ _ _ _).mono le_rfl ?_
  rw [Nat.add_mul, Nat.one_mul, headerSize]
  omega

omit [Opts] in
/-- The header of the new sector is in place. -/
theorem Ring.committed {v : World} (hr : Ring True v) (hp : LogPlaced v) (hlog : LogOn v logs) :
    rotateIndexCommit.run v = (.ok (), headedWorld v) ∧ Ring False (headedWorld v) ∧
      LogPlaced (headedWorld v) ∧ LogOn (headedWorld v) logs := by
  have hin := (Nat.mul_le_mul_right v.fs.sectorSize (Nat.succ_le_of_lt hr.active_lt)).trans hp.fits
  have hrun : rotateIndexCommit.run v = (.ok (), headedWorld v) := rotateIndexCommit_run hp hin
  have hsize := hp.size
  refine ⟨hrun, (rotateIndexCommit_ring hr hrun).1, ?_, ?_⟩
  · exact hp.withLog (headed_outside _ _ _ _ _).size v.fs.nextIndexOffset
  · exact hlog.offRecords hp fun i hi =>
      (headed_outside _ _ _ _ _).offHeader (by rw [headerSize]; omega) hi

omit [Opts] in
/-- A change inside one index sector leaves the data. -/
theorem SameOutside.data {m m' : Mem} {s a e n size : Nat} (h : SameOutside a e m m') (hs : s < n)
    (he : e ≤ (s + 1) * size) {i : Nat} (hi : n * size ≤ i) : Nor.get m' i = Nor.get m i := by
  have hle := Nat.mul_le_mul_right size (Nat.succ_le_of_lt hs)
  rw [Nat.succ_eq_add_one] at hle
  exact h.get i (.inr (by omega))

omit [Opts] in
theorem located_grow {fs fs' : Fs} (hring : fs'.ring = fs.ring.grow) (h : located fs) : located fs' := by
  have hplace : ∀ i, fs'.ring.place i = fs.ring.place i := by
    intro i
    rw [hring, IndexRing.grow_place]
  have hcount : fs'.ring.count = fs.ring.count + 1 := by rw [hring, IndexRing.grow_count]
  change fs'.ring.place 0 < fs'.ring.count ∨ fs'.ring.place 1 < fs'.ring.count
  rw [hplace, hplace, hcount]
  exact h.imp Nat.lt_succ_of_lt Nat.lt_succ_of_lt

omit [Opts] in
/-- A ring that leaves one sector free has sector `0` or sector `1` in use. -/
theorem located_of_count {fs : Fs} (hwf : fs.ring.Wf) (h : fs.ring.count + 1 = fs.ring.sectors) :
    located fs := by
  have hge := hwf.sectors_ge
  have hold := hwf.oldest_lt
  change fs.ring.place 0 < fs.ring.count ∨ fs.ring.place 1 < fs.ring.count
  rcases fs.ring.place_cases 0 with h0 | h0 <;> rcases fs.ring.place_cases 1 with h1 | h1 <;> omega

omit [Opts] in
theorem rotatedWorld_count (hlt : w.fs.indexSequenceCount < w.fs.indexSectors) :
    (rotatedWorld w).fs.indexSequenceCount = w.fs.indexSequenceCount + 1 := if_pos hlt

omit [Opts] in
/-- The bytes a rotation has erased. -/
theorem rotatedWorld_outside : SameOutside
    ((rotatedWorld w).fs.activeIndexSector * w.fs.sectorSize)
    (((rotatedWorld w).fs.activeIndexSector + 1) * w.fs.sectorSize) w.dev.mem (rotatedWorld w).dev.mem := by
  refine ⟨rfl, fun i hi => (Nor.get_erase _ _ _ _).trans (if_neg ?_)⟩
  change i < nextIndexSector w.fs w.fs.activeIndexSector * w.fs.sectorSize ∨
    (nextIndexSector w.fs w.fs.activeIndexSector + 1) * w.fs.sectorSize ≤ i at hi
  rw [Nat.add_mul, Nat.one_mul] at hi
  omega

omit [Opts] in
/-- Another log on a flash whose cache has not changed. -/
theorem FlashLog.ofLog {w' : World} {logs' : List (List IndexRecord)} (h : FlashLog w logs)
    (hring : RingFree w') (hsame : SameCache w w') (hloc : Fastffs.located w'.fs)
    (hlog : LogOn w' logs') : FlashLog w' logs' :=
  h.ofData hring hsame.toSameData hsame.scratch hsame.granule hloc hlog

/-- A rotation that leaves a spare sector. -/
theorem FlashLog.rotate_spare (h : FlashLog w logs)
    (hspare : w.fs.indexSequenceCount + 1 < w.fs.indexSectors) :
    rotateIndex.run w = (.ok (), headedWorld (rotatedWorld w)) ∧
      FlashLog (headedWorld (rotatedWorld w)) (logs ++ [[]]) ∧
      SameCache w (headedWorld (rotatedWorld w)) := by
  obtain ⟨hbegin, hr, hring, hp, hlog⟩ := h.begun
  obtain ⟨hcommit, hr', -, hlog'⟩ := hr.committed hp hlog
  have hcount := rotatedWorld_count h.ring.count_lt
  have hrun : rotateIndex.run w = (.ok (), headedWorld (rotatedWorld w)) := by
    rw [rotateIndex, bind_of_ok hbegin, bind_of_ok (run_getFs _), if_neg]
    · exact hcommit
    · rw [hcount]
      change ¬ w.fs.indexSequenceCount + 1 = w.fs.indexSectors
      omega
  have hsame : SameCache w (headedWorld (rotatedWorld w)) := by
    refine ⟨⟨h.works.plan, rfl, rfl, rfl, rfl, rfl, fun i hi => ?_⟩, rfl, rfl, rfl, rfl, rfl⟩
    exact ((headedWorld_outside hp.size).data hr.active_lt le_rfl hi).trans
      (rotatedWorld_outside.data hr.active_lt le_rfl hi)
  exact ⟨hrun, h.ofLog (rotateIndex_ring h.ring hrun) hsame (located_grow hring h.located) hlog', hsame⟩

theorem RunState.rotate_spare (h : RunState w logs)
    (hspare : w.fs.indexSequenceCount + 1 < w.fs.indexSectors) :
    rotateIndex.run w = (.ok (), headedWorld (rotatedWorld w)) ∧
      RunState (headedWorld (rotatedWorld w)) (logs ++ [[]]) ∧
      SameCache w (headedWorld (rotatedWorld w)) := by
  obtain ⟨hrun, hflash, hsame⟩ := h.toFlashLog.rotate_spare hspare
  have hflat : (logs ++ [[]]).flatten = logs.flatten := by
    rw [List.flatten_append, List.flatten_singleton, List.append_nil]
  refine ⟨hrun, h.ofLog hflash.ring hsame hflash.located hflash.log (by rw [hflat]) ?_, hsame⟩
  rw [hflat]
  exact h.fits

theorem IndexState.rotate_spare (h : IndexState w logs)
    (hspare : w.fs.indexSequenceCount + 1 < w.fs.indexSectors) :
    rotateIndex.run w = (.ok (), headedWorld (rotatedWorld w)) ∧
      IndexState (headedWorld (rotatedWorld w)) (logs ++ [[]]) ∧
      SameCache w (headedWorld (rotatedWorld w)) := by
  obtain ⟨hrun, hstate, hsame⟩ := h.running.rotate_spare hspare
  refine ⟨hrun, h.ofMap hstate hsame.toSameData ?_, hsame⟩
  rw [List.flatten_append, List.flatten_singleton, List.append_nil]

/-- What is known of the world `v` in which a rotation has copied the records `cp` out of
the oldest sector `rs0`, before the header of the new sector is programmed. -/
structure CopyDone (w v : World) (rs0 : List IndexRecord) (mid : List (List IndexRecord))
    (cp : List IndexRecord) : Prop where
  run : indexCompactOldestCopy.run (rotatedWorld w) = (.ok w.fs.oldestIndexSector, v)
  fs : v.fs = { (rotatedWorld w).fs with
    nextIndexOffset := (rotatedWorld w).fs.nextIndexOffset + 4 * cp.length }
  granule : v.dev.programGranule = w.dev.programGranule
  plan : v.dev.plan = []
  outside : SameOutside (indexSectorBegin v.fs v.fs.activeIndexSector)
    ((v.fs.activeIndexSector + 1) * v.fs.sectorSize) (rotatedWorld w).dev.mem v.dev.mem
  ring : Ring True v
  ring_eq : v.fs.ring = w.fs.ring.grow
  placed : LogPlaced v
  log : LogOn v (rs0 :: mid ++ [cp])

/-- The copy of a rotation whose cache holds the map of the log. -/
structure CopiedWorld (w v : World) (rs0 : List IndexRecord) (mid : List (List IndexRecord))
    (cp : List IndexRecord) : Prop extends CopyDone w v rs0 mid cp where
  kept : cp = keptRecords (logMap (rs0 ++ mid.flatten)) mid.flatten rs0

theorem CopiedWorld.copies {v : World} {rs0 cp : List IndexRecord} {mid : List (List IndexRecord)}
    (hv : CopiedWorld w v rs0 mid cp) : Copies (logMap (rs0 ++ mid.flatten)) mid rs0 cp := by
  rw [hv.kept]
  exact @keptRecords_copies _ _ [] _ _ rfl

/-- The copy of a rotation that needs one.  It goes by the cache, whatever map that holds. -/
theorem FlashLog.copied {f : Nat → Nat} (h : FlashLog w logs) (hc : CacheIs w.fs f)
    (hfull : w.fs.indexSequenceCount + 1 = w.fs.indexSectors) :
    ∃ v rs0 mid, logs = rs0 :: mid ∧ CopyDone w v rs0 mid (keptRecords f mid.flatten rs0) := by
  obtain ⟨hbegin, hr, hring, hp, hlog⟩ := h.begun
  have hcount := h.log.count
  obtain ⟨rs0, mid, rfl⟩ : ∃ rs0 mid, logs = rs0 :: mid := by
    cases logs with
    | nil =>
      have hpos := h.placed.count_pos
      rw [List.length_nil] at hcount
      omega
    | cons rs0 mid => exact ⟨rs0, mid, rfl⟩
  have hc' : CacheIs (rotatedWorld w).fs f := hc.congr rfl rfl rfl
  obtain ⟨m, hrun, hsame, hlog'⟩ := indexCompactOldestCopy_run hlog hp hc'
  have hrot : (rotatedWorld w).fs.ring.sectors ≤ (rotatedWorld w).fs.ring.count := by
    rw [hring, IndexRing.grow_count, IndexRing.grow_sectors]
    exact hfull.ge
  obtain ⟨-, hcases⟩ := indexCompactOldestCopy_ring True ⟨hr, rfl⟩ (fun _ => hrot) hrun
  have hr' := hcases.resolve_right fun hlt => absurd hlt.2.1 (not_lt.mpr hrot)
  exact ⟨_, rs0, mid, rfl, hrun, rfl, rfl, rfl, hsame, hr'.1, hr'.2.trans hring,
    hp.withLog hsame.size _, hlog'⟩

theorem RunState.copied (h : RunState w logs)
    (hfull : w.fs.indexSequenceCount + 1 = w.fs.indexSectors) :
    ∃ v rs0 mid cp, logs = rs0 :: mid ∧ CopiedWorld w v rs0 mid cp := by
  obtain ⟨v, rs0, mid, rfl, hv⟩ := h.toFlashLog.copied h.cache hfull
  exact ⟨v, rs0, mid, _, rfl, hv, by rw [← List.flatten_cons]⟩

theorem IndexState.copied (h : IndexState w logs)
    (hfull : w.fs.indexSequenceCount + 1 = w.fs.indexSectors) :
    ∃ v rs0 mid cp, logs = rs0 :: mid ∧ CopiedWorld w v rs0 mid cp := h.running.copied hfull

/-- A rotation that copies the oldest sector and drops it. -/
theorem CopyDone.rotateFlash {v : World} {rs0 cp : List IndexRecord} {mid : List (List IndexRecord)}
    (hv : CopyDone w v rs0 mid cp) (h : FlashLog w (rs0 :: mid))
    (hfull : w.fs.indexSequenceCount + 1 = w.fs.indexSectors) :
    rotateIndex.run w = (.ok (), droppedWorld (headedWorld v)) ∧
      FlashLog (droppedWorld (headedWorld v)) (mid ++ [cp]) ∧
      SameCache w (droppedWorld (headedWorld v)) := by
  obtain ⟨hbegin, -⟩ := h.begun
  obtain ⟨hcommit, hr', hp', hlog'⟩ := hv.ring.committed hv.placed hv.log
  have hcount := rotatedWorld_count h.ring.count_lt
  have hold : (headedWorld v).fs.oldestIndexSector = w.fs.oldestIndexSector := by
    change v.fs.oldestIndexSector = _
    rw [hv.fs]
    rfl
  have hfinish := indexCompactOldestFinish_run hp'
  rw [hold] at hfinish
  have hrun : rotateIndex.run w = (.ok (), droppedWorld (headedWorld v)) := by
    rw [rotateIndex, bind_of_ok hbegin, bind_of_ok (run_getFs _), if_pos, bind_of_ok hv.run,
      bind_of_ok hcommit]
    · exact hfinish
    · rw [hcount]
      exact hfull
  have hr := rotateIndex_ring h.ring hrun
  have hfs : (droppedWorld (headedWorld v)).fs = droppedFs { (rotatedWorld w).fs with
      nextIndexOffset := (rotatedWorld w).fs.nextIndexOffset + 4 * cp.length } := by
    rw [← hv.fs]
    rfl
  have hdata : SameData w (droppedWorld (headedWorld v)) := by
    refine ⟨h.works.plan, rfl, hv.outside.size, ?_, ?_, ?_, fun i hi => ?_⟩
    · rw [hfs]
      rfl
    · rw [hfs]
      rfl
    · rw [hfs]
      rfl
    · have hS : v.fs.sectorSize = w.fs.sectorSize := by rw [hv.fs]; rfl
      have hN : v.fs.indexSectors = w.fs.indexSectors := by rw [hv.fs]; rfl
      have hA : v.fs.activeIndexSector = (rotatedWorld w).fs.activeIndexSector := by rw [hv.fs]
      have hsize := hp'.size
      have hi' : v.fs.indexSectors * v.fs.sectorSize ≤ i := by rwa [hS, hN]
      have hdrop := ((tombstoned_outside (headedWorld v).dev.mem
        (v.fs.oldestIndexSector * v.fs.sectorSize)).mono le_rfl (by
          rw [Nat.add_mul, Nat.one_mul, headerSize]
          change 256 ≤ v.fs.sectorSize at hsize
          omega)).data hv.placed.oldest_lt le_rfl hi'
      have hhead := (headedWorld_outside hv.placed.size).data hv.ring.active_lt le_rfl hi'
      have hcopy := hv.outside.data hv.ring.active_lt le_rfl hi'
      have hbegin' := (@rotatedWorld_outside w).data (hA ▸ hN ▸ hv.ring.active_lt) le_rfl hi
      exact hdrop.trans (hhead.trans (hcopy.trans hbegin'))
  have hloc : located (droppedWorld (headedWorld v)).fs := by
    refine located_of_count hr.wf ?_
    rw [hfs]
    change (rotatedWorld w).fs.indexSequenceCount - 1 + 1 = w.fs.indexSectors
    omega
  have hsame : SameCache w (droppedWorld (headedWorld v)) := by
    refine ⟨hdata, ?_, hv.granule, ?_, ?_, ?_⟩
    · rw [hfs]
      rfl
    · rw [hfs]
      rfl
    · rw [hfs]
      rfl
    · rw [hfs]
      rfl
  exact ⟨hrun, h.ofLog hr hsame hloc (hlog'.dropped hp' (by simp)), hsame⟩

theorem CopiedWorld.rotateRunning {v : World} {rs0 cp : List IndexRecord} {mid : List (List IndexRecord)}
    (hv : CopiedWorld w v rs0 mid cp) (h : RunState w (rs0 :: mid))
    (hfull : w.fs.indexSequenceCount + 1 = w.fs.indexSectors) :
    rotateIndex.run w = (.ok (), droppedWorld (headedWorld v)) ∧
      RunState (droppedWorld (headedWorld v)) (mid ++ [cp]) ∧
      SameCache w (droppedWorld (headedWorld v)) := by
  obtain ⟨hrun, hflash, hsame⟩ := hv.toCopyDone.rotateFlash h.toFlashLog hfull
  exact ⟨hrun, h.ofLog hflash.ring hsame hflash.located hflash.log hv.copies.logMap_eq
    (hv.copies.cacheFits h.fits), hsame⟩

theorem CopiedWorld.rotate {v : World} {rs0 cp : List IndexRecord} {mid : List (List IndexRecord)}
    (hv : CopiedWorld w v rs0 mid cp) (h : IndexState w (rs0 :: mid))
    (hfull : w.fs.indexSequenceCount + 1 = w.fs.indexSectors) :
    rotateIndex.run w = (.ok (), droppedWorld (headedWorld v)) ∧
      IndexState (droppedWorld (headedWorld v)) (mid ++ [cp]) ∧
      SameCache w (droppedWorld (headedWorld v)) := by
  obtain ⟨hrun, hstate, hsame⟩ := hv.rotateRunning h.running hfull
  exact ⟨hrun, h.ofMap hstate hsame.toSameData hv.copies.logMap_eq, hsame⟩

/-- `fffs_rotate_index` on a device that never fails, whatever map the cache holds. -/
theorem FlashLog.rotateIndex_run {f : Nat → Nat} (h : FlashLog w logs) (hc : CacheIs w.fs f) :
    ∃ w' logs', rotateIndex.run w = (.ok (), w') ∧ FlashLog w' logs' ∧ SameCache w w' := by
  have hlt := h.ring.count_lt
  by_cases hspare : w.fs.indexSequenceCount + 1 < w.fs.indexSectors
  · obtain ⟨hrun, hflash, hsame⟩ := h.rotate_spare hspare
    exact ⟨_, _, hrun, hflash, hsame⟩
  · have hfull : w.fs.indexSequenceCount + 1 = w.fs.indexSectors := by omega
    obtain ⟨v, rs0, mid, rfl, hv⟩ := h.copied hc hfull
    obtain ⟨hrun, hflash, hsame⟩ := hv.rotateFlash h hfull
    exact ⟨_, _, hrun, hflash, hsame⟩

/-- `fffs_rotate_index` on a device that never fails. -/
theorem RunState.rotateIndex_run (h : RunState w logs) :
    ∃ w' logs', rotateIndex.run w = (.ok (), w') ∧ RunState w' logs' ∧
      logMap logs'.flatten = logMap logs.flatten ∧ SameCache w w' := by
  have hlt := h.ring.count_lt
  by_cases hspare : w.fs.indexSequenceCount + 1 < w.fs.indexSectors
  · obtain ⟨hrun, hstate, hsame⟩ := h.rotate_spare hspare
    refine ⟨_, _, hrun, hstate, ?_, hsame⟩
    rw [List.flatten_append, List.flatten_singleton, List.append_nil]
  · have hfull : w.fs.indexSequenceCount + 1 = w.fs.indexSectors := by omega
    obtain ⟨v, rs0, mid, cp, rfl, hv⟩ := h.copied hfull
    obtain ⟨hrun, hstate, hsame⟩ := hv.rotateRunning h hfull
    exact ⟨_, _, hrun, hstate, hv.copies.logMap_eq, hsame⟩

theorem IndexState.rotateIndex_run (h : IndexState w logs) :
    ∃ w' logs', rotateIndex.run w = (.ok (), w') ∧ IndexState w' logs' ∧
      logMap logs'.flatten = logMap logs.flatten ∧ SameCache w w' := by
  obtain ⟨w', logs', hrun, hstate, hmap, hsame⟩ := h.running.rotateIndex_run
  exact ⟨w', logs', hrun, h.ofMap hstate hsame.toSameData hmap, hmap, hsame⟩

end Rotate

end Fastffs
