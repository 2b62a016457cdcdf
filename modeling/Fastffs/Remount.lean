import Fastffs.Rotation

/-!
# Mounting the flash of a file system

A mount of the flash of a mounted file system restores its log, when the headers of the
ring are in place and no other size leads to a sequence (`IndexState.mount`).  The flash
need not be the one of the file system: `Restores m seq v` says that a mount of `m`,
which first drops the oldest sector of a full ring, finds what `v` has.
-/

namespace Fastffs

open Prog
open Nor (Mem Byte blank)

/-! ## The sequence of a ring -/

section Sequence

variable {m : Mem} {r : IndexRing} {shift : Nat}

/-- What discovery makes of a ring. -/
def IndexRing.sequence (r : IndexRing) (shift : Nat) : IndexSequence :=
  ⟨r.sectors, shift, r.serial, r.active, r.oldest, r.count⟩

theorem mountable_of_headers (h : HeadersOf m r shift) (hwf : r.Wf) (hord : r.Ordered)
    (hloc : r.place 0 < r.count ∨ r.place 1 < r.count)
    (hfits : r.sectors * sectorSizeOf shift ≤ m.size) (hshift : shift ≤ maxSectorShift)
    (hmod : m.size % sectorSizeOf shift = 0) (hsmall : m.size / sectorSizeOf shift ≤ uint16Max)
    (hno : noEarlierSequence m shift) : mountable m = some (r.sequence shift) := by
  have hprobed : probed m shift = some (r.sequence shift) := by
    rw [h.probed_eq hwf hfits hloc, hwf.found_ordered hord]
    rfl
  have hfind : findSequence m = some (r.sequence shift) :=
    findSequence_iff.mpr ⟨hshift, hmod, hno, hprobed⟩
  rw [mountable, hfind, Option.filter_some, if_pos]
  exact decide_eq_true hsmall

/-- A ring that leaves a sector free needs no repair. -/
theorem IndexRing.sequence_finish (h : r.count < r.sectors) :
    (r.sequence shift).finish = r.sequence shift ∧ (r.sequence shift).finishMem m = m := by
  have hnot : ¬ (r.sequence shift).full = true := by
    rw [IndexSequence.full_iff]
    exact not_le.mpr h
  exact ⟨if_neg hnot, if_neg hnot⟩

end Sequence

/-! ## Restoring a log -/

/-- A mount of the flash `m` finds the ring, the log and the data of `v`. -/
structure Restores (m : Mem) (seq : IndexSequence) (v : World) : Prop where
  size : m.size = v.dev.mem.size
  mountable : mountable m = some seq
  finish : seq.finish = v.fs.ring.sequence v.fs.sectorShift
  headers : HeadersOf (seq.finishMem m) v.fs.ring v.fs.sectorShift
  log : ∀ k < v.fs.indexSequenceCount, ∀ i, logBegin v.fs k ≤ i → i < logEnd v.fs k →
    Nor.get (seq.finishMem m) i = Nor.get v.dev.mem i
  data : ∀ i, v.fs.indexSectors * v.fs.sectorSize ≤ i →
    Nor.get (seq.finishMem m) i = Nor.get v.dev.mem i

/-- The flash `m` keeps the headers, the log and the data of `v`. -/
structure KeepsIndex (v : World) (m : Mem) : Prop where
  size : m.size = v.dev.mem.size
  headers : HeadersOf m v.fs.ring v.fs.sectorShift
  log : ∀ k < v.fs.indexSequenceCount, ∀ i, logBegin v.fs k ≤ i → i < logEnd v.fs k →
    Nor.get m i = Nor.get v.dev.mem i
  data : ∀ i, v.fs.indexSectors * v.fs.sectorSize ≤ i → Nor.get m i = Nor.get v.dev.mem i

theorem Ring.keepsIndex {v : World} (hr : Ring False v) : KeepsIndex v v.dev.mem :=
  ⟨rfl, hr.headersOf, fun _ _ _ _ _ => rfl, fun _ _ => rfl⟩

variable [Opts]

section Mount

variable {v : World} {logs : List (List IndexRecord)} {m : Mem} {seq : IndexSequence}
  {o : MountOptions}

/-- The last record of the log has a live root. -/
theorem IndexState.tailLive (h : IndexState v logs) : tailLive v (logs.getLast?.getD []) := by
  intro r hr
  by_cases hhead : r.head = 0
  · exact .inl hhead
  · right
    -- the last record of the log gives its slot its value
    obtain ⟨pre, hpre⟩ : ∃ pre, logs.flatten = pre ++ [r] := by
      cases hlast : logs.getLast? with
      | none =>
        rw [hlast] at hr
        simp at hr
      | some rs =>
        rw [hlast, Option.getD_some] at hr
        obtain ⟨ls, rfl⟩ := List.getLast?_eq_some_iff.mp hlast
        obtain ⟨rs', rfl⟩ := List.getLast?_eq_some_iff.mp hr
        exact ⟨ls.flatten ++ rs', by simp⟩
    have hmap : logMap logs.flatten r.slot = r.head := by
      rw [hpre]
      exact logMap_middle (by simp)
    have hlive := h.live r.slot (by rw [hmap]; exact hhead)
    rwa [hmap] at hlive

/-- The file system in which a mount replays the log. -/
theorem Restores.fs_eq {y : World} (hm : Restores y.dev.mem seq v) : ∃ map, (replayWorld y o seq).fs =
    { mountedFs v.dev.size o (v.fs.ring.sequence v.fs.sectorShift) with allocMap := map } := by
  have hsize : y.dev.size = v.dev.size := hm.size
  obtain ⟨map, hmap⟩ := allocMapInit_eq (mountedFs v.dev.size o (v.fs.ring.sequence v.fs.sectorShift))
  refine ⟨map, ?_⟩
  change allocMapInit (mountedFs y.dev.size o seq.finish) = _
  rw [hsize, hm.finish, hmap]

omit [Opts] in
/-- The log of a world that has just been mounted is in place. -/
theorem FlashLog.mounted_placed {x : World} {map : Nat → Bool} (h : FlashLog v logs)
    (hsize : x.dev.size = v.dev.size) (hplan : x.dev.plan = [])
    (hgranule : x.dev.programGranule = v.dev.programGranule)
    (hfs : x.fs = { mountedFs v.dev.size o (v.fs.ring.sequence v.fs.sectorShift) with allocMap := map })
    (hscratch : minScratchSize ≤ o.scratchSize) : LogPlaced x := by
  have hp := h.placed
  have hS : x.fs.sectorSize = v.fs.sectorSize := by
    rw [hfs, h.ring.sectorSize_eq]
    rfl
  have hN : x.fs.indexSectors = v.fs.indexSectors := by rw [hfs]; rfl
  have hO : x.fs.oldestIndexSector = v.fs.oldestIndexSector := by rw [hfs]; rfl
  have hC : x.fs.indexSequenceCount = v.fs.indexSequenceCount := by rw [hfs]; rfl
  have hA : x.fs.activeIndexSector = v.fs.activeIndexSector := by rw [hfs, h.ring.active_eq]; rfl
  have hscratch' : x.fs.scratchSize = o.scratchSize := by rw [hfs]; rfl
  rw [minScratchSize] at hscratch
  refine ⟨⟨hplan, ?_, ?_, ?_, ?_⟩, ?_, ?_, ?_, ?_, ?_⟩
  · rw [hscratch']
    omega
  · rw [hS]
    exact hp.size
  · rw [hS]
    exact hp.aligned
  · rw [hN, hS, hsize]
    exact hp.fits
  · rw [hgranule]
    exact hp.granule_pos
  · rw [hgranule, hsize]
    exact hp.granule_mod
  · rw [hO, hN]
    exact hp.oldest_lt
  · rw [hC]
    exact hp.count_pos
  · rw [hO, hC]
    exact activeLast_congr hA hN hp.last

omit [Opts] in
/-- The log of a world that has just been mounted. -/
theorem FlashLog.mounted_log {x : World} {map : Nat → Bool} (h : FlashLog v logs)
    (hk : KeepsIndex v x.dev.mem) (hplan : x.dev.plan = [])
    (hfs : x.fs = { mountedFs v.dev.size o (v.fs.ring.sequence v.fs.sectorShift) with allocMap := map }) :
    SameData v x ∧ LogOn (x.withNext v.fs.nextIndexOffset) logs := by
  have hr := h.ring
  have hS : x.fs.sectorSize = v.fs.sectorSize := by
    rw [hfs, hr.sectorSize_eq]
    rfl
  have hcount : x.fs.sectorCount = v.fs.sectorCount := by
    rw [hfs, h.sectorCount, hr.sectorSize_eq]
    rfl
  have hring : x.fs.ring = v.fs.ring := by rw [hfs]; rfl
  have hactive : x.fs.activeIndexSector = v.fs.activeIndexSector := by rw [hfs, hr.active_eq]; rfl
  have hN : x.fs.indexSectors = v.fs.indexSectors := congrArg IndexRing.sectors hring
  have hview : logView (x.withNext v.fs.nextIndexOffset).fs = logView v.fs := by
    have hO : x.fs.oldestIndexSector = v.fs.oldestIndexSector := congrArg IndexRing.oldest hring
    have hC : x.fs.indexSequenceCount = v.fs.indexSequenceCount := congrArg IndexRing.count hring
    change { logView x.fs with nextIndexOffset := v.fs.nextIndexOffset } = logView v.fs
    rw [logView, hS, hcount, hN, hO, hC, hactive]
    rfl
  refine ⟨⟨h.works.plan, hplan, hk.size, hS, hcount, hN, hk.data⟩, ?_⟩
  refine h.log.congr hview (fun k hk' i h1 h2 => ?_) fun k =>
    (logEnd_eq h.placed.size h.placed.aligned k).ge
  exact hk.log k (by rw [← h.log.count]; exact hk') i h1 h2

/-- The replay of the log of a file system, in a world that has just been mounted. -/
theorem FlashLog.replay_run {x : World} {map : Nat → Bool} (h : FlashLog v logs)
    (htail : Fastffs.tailLive v (logs.getLast?.getD [])) (hk : KeepsIndex v x.dev.mem) (hplan : x.dev.plan = [])
    (hgranule : x.dev.programGranule = v.dev.programGranule)
    (hfs : x.fs = { mountedFs v.dev.size o (v.fs.ring.sequence v.fs.sectorShift) with allocMap := map })
    (hvalid : indexCacheConfigValid o.indexHashTableSize = true) (hscratch : minScratchSize ≤ o.scratchSize)
    (hfits : cacheFits o.indexHashTableSize logs.flatten) :
    ∃ w', replayIndex.run x = (.ok (), w') ∧ RunState w' logs ∧ SameData v w' := by
  have hr := h.ring
  obtain ⟨hdata, hlog⟩ := h.mounted_log hk hplan hfs
  have hS := hdata.sectorSize
  have hcount := hdata.sectorCount
  have hN := hdata.indexSectors
  have hring : x.fs.ring = v.fs.ring := by rw [hfs]; rfl
  have hshift : x.fs.sectorShift = v.fs.sectorShift := by rw [hfs]; rfl
  have hactive : x.fs.activeIndexSector = v.fs.activeIndexSector := by rw [hfs, hr.active_eq]; rfl
  have hlive : Fastffs.tailLive x (logs.getLast?.getD []) := by
    intro r hr
    rw [rootIsLive_congr hdata]
    exact htail r hr
  have hscratch' : x.fs.scratchSize = o.scratchSize := by rw [hfs]; rfl
  have htable : x.fs.indexHashTableSize = o.indexHashTableSize := by rw [hfs]; rfl
  have hdev : x.dev.size = v.dev.size := hk.size
  have hSx : x.fs.sectorSize = sectorSizeOf x.fs.sectorShift := by rw [hS, hshift, hr.sectorSize_eq]
  have hheaders : HeadersOf x.dev.mem x.fs.ring x.fs.sectorShift := by
    rw [hring, hshift]
    exact hk.headers
  have hcache : CacheIs x.fs (fun _ => 0) := by
    rw [hfs]
    exact (mountedFs_cache _ hvalid).congr rfl rfl rfl
  -- the ring of the world, wherever its log ends
  have hfree : ∀ b heads cursor serial,
      RingFree (((x.withCache b heads).withNext v.fs.nextIndexOffset).withHint cursor serial) :=
    fun b heads cursor serial => {
      wf := by
        change x.fs.ring.Wf
        rw [hring]
        exact hr.wf
      active_eq := by
        change x.fs.activeIndexSector = x.fs.ring.active
        rw [hactive, hring]
        exact hr.active_eq
      shift_le := hshift.trans_le hr.shift_le
      sectorSize_eq := hSx
      fits := by
        change x.fs.indexSectors * x.fs.sectorSize ≤ x.dev.size
        rw [hN, hS, hdev]
        exact hr.fits
      aligned := by
        change x.dev.size % x.fs.sectorSize = 0
        rw [hdev, hS]
        exact hr.aligned
      granule_pos := hgranule ▸ hr.granule_pos
      next_ge := by
        change x.fs.activeIndexSector * x.fs.sectorSize + headerSize ≤ v.fs.nextIndexOffset
        rw [hactive, hS]
        exact hr.next_ge
      blank_of_pending := False.elim
      headers := fun i hi _ => by
        change validIndexHeader (Nor.read x.dev.mem (i * x.fs.sectorSize) headerSize) = _
        rw [hSx]
        exact hheaders i hi
      count_lt := by
        change x.fs.ring.count < x.fs.ring.sectors
        rw [hring]
        exact hr.count_lt }
  have hworks : ∀ b heads cursor serial,
      Works (((x.withCache b heads).withNext v.fs.nextIndexOffset).withHint cursor serial) := by
    intro b heads cursor serial
    rw [minScratchSize] at hscratch
    refine ⟨hplan, ?_, ?_⟩
    · change 4 ≤ x.fs.scratchSize
      omega
    · change x.dev.size % x.dev.programGranule = 0
      rw [hdev, hgranule]
      exact h.works.granule_mod
  have hplaced : LogPlaced x := h.mounted_placed hdev hplan hgranule hfs hscratch
  rw [← htable] at hfits
  obtain ⟨b, heads, cursor, serial, hrun, hc⟩ := replayIndex_log hplaced hcache hlog hlive hfits
  refine ⟨_, hrun, ⟨⟨hfree b heads cursor serial, hworks b heads cursor serial, ?_, ?_, ?_, ?_⟩, ?_, ?_⟩, ?_⟩
  · change x.fs.ring.place 0 < x.fs.ring.count ∨ x.fs.ring.place 1 < x.fs.ring.count
    rw [hring]
    exact h.located
  · change x.fs.sectorCount = x.dev.size / x.fs.sectorSize
    rw [hcount, hdev, hS]
    exact h.sectorCount
  · exact hcount.trans_le h.sectorCount_le
  · have hend : ∀ k, logEnd (x.withNext v.fs.nextIndexOffset).fs k = _ :=
      fun k => logEnd_eq (hS ▸ h.placed.size) (hS ▸ h.placed.aligned) k
    exact hlog.congr rfl (fun _ _ _ _ _ => rfl) fun k => (hend k).ge
  · exact hc.congr rfl rfl rfl
  · exact hfits
  · exact ⟨hdata.plan, hdata.plan', hdata.size, hdata.sectorSize, hdata.sectorCount, hdata.indexSectors,
      hdata.data⟩

/-- A replay that succeeds has a table that the log fits. -/
theorem FlashLog.replay_fits {x : World} {map : Nat → Bool} (h : FlashLog v logs)
    (htail : Fastffs.tailLive v (logs.getLast?.getD [])) (hk : KeepsIndex v x.dev.mem) (hplan : x.dev.plan = [])
    (hgranule : x.dev.programGranule = v.dev.programGranule)
    (hfs : x.fs = { mountedFs v.dev.size o (v.fs.ring.sequence v.fs.sectorShift) with allocMap := map })
    (hvalid : indexCacheConfigValid o.indexHashTableSize = true) (hscratch : minScratchSize ≤ o.scratchSize)
    (hrun : (replayIndex.run x).1 = .ok ()) : cacheFits o.indexHashTableSize logs.flatten := by
  obtain ⟨hdata, hlog⟩ := h.mounted_log hk hplan hfs
  have hplaced : LogPlaced x := h.mounted_placed hk.size hplan hgranule hfs hscratch
  have hlive : Fastffs.tailLive x (logs.getLast?.getD []) := by
    intro r hr
    rw [rootIsLive_congr hdata]
    exact htail r hr
  have hcache : CacheIs x.fs (fun _ => 0) := by
    rw [hfs]
    exact (mountedFs_cache _ hvalid).congr rfl rfl rfl
  have htable : x.fs.indexHashTableSize = o.indexHashTableSize := by rw [hfs]; rfl
  rw [← htable]
  exact replayIndex_fits hplaced hcache (hlog.scanLog_eq hplaced hlive).1 hlog.clean_slots hrun

/-- A mount restores the log of a file system. -/
theorem FlashLog.mount_run {y : World} (h : FlashLog v logs)
    (htail : Fastffs.tailLive v (logs.getLast?.getD [])) (hplan : y.dev.plan = [])
    (hgran : y.dev.programGranule = v.dev.programGranule) (hm : Restores y.dev.mem seq v)
    (hok : mountOptionsOk y o) (hfits : cacheFits o.indexHashTableSize logs.flatten) :
    ∃ w', (mount o).run y = (.ok (), w') ∧ RunState w' logs ∧ SameData v w' := by
  obtain ⟨map, hfs⟩ : ∃ map, (replayWorld y o seq).fs = _ := hm.fs_eq
  have hk : KeepsIndex v (replayWorld y o seq).dev.mem := by
    change KeepsIndex v (seq.finishMem y.dev.mem)
    exact ⟨(seq.size_finishMem _).trans hm.size, hm.headers, hm.log, hm.data⟩
  obtain ⟨w', hrun, hw'⟩ := h.replay_run htail hk hplan hgran hfs hok.2.1 hok.2.2 hfits
  refine ⟨w', ?_, hw'⟩
  rw [Fastffs.mount_run hplan hok, hm.mountable]
  dsimp only
  rw [hrun]
  rfl

omit [Opts] in
theorem afterReplay_ok {res : Except Status Unit × World} (h : (afterReplay res).1 = .ok ()) :
  res.1 = .ok () := by
  rcases res with ⟨e | ⟨⟩, u⟩
  · cases h
  · rfl

/-- A mount that succeeds has a table that the log fits. -/
theorem FlashLog.mount_fits {y : World} (h : FlashLog v logs)
    (htail : Fastffs.tailLive v (logs.getLast?.getD [])) (hplan : y.dev.plan = [])
    (hgran : y.dev.programGranule = v.dev.programGranule) (hm : Restores y.dev.mem seq v)
    (hok : mountOptionsOk y o) (hrun : ((mount o).run y).1 = .ok ()) :
    cacheFits o.indexHashTableSize logs.flatten := by
  obtain ⟨map, hfs⟩ : ∃ map, (replayWorld y o seq).fs = _ := hm.fs_eq
  have hk : KeepsIndex v (replayWorld y o seq).dev.mem := by
    change KeepsIndex v (seq.finishMem y.dev.mem)
    exact ⟨(seq.size_finishMem _).trans hm.size, hm.headers, hm.log, hm.data⟩
  rw [Fastffs.mount_run hplan hok, hm.mountable] at hrun
  exact h.replay_fits htail hk hplan hgran hfs hok.2.1 hok.2.2 (afterReplay_ok hrun)

/-- A mount restores the log and the map of a file system. -/
theorem IndexState.mount_run {y : World} (h : IndexState v logs) (hplan : y.dev.plan = [])
    (hgran : y.dev.programGranule = v.dev.programGranule) (hm : Restores y.dev.mem seq v)
    (hok : mountOptionsOk y o) (hfits : cacheFits o.indexHashTableSize logs.flatten) :
    ∃ w', (mount o).run y = (.ok (), w') ∧ IndexState w' logs := by
  obtain ⟨w', hrun, hw', hdata⟩ := h.running.mount_run h.tailLive hplan hgran hm hok hfits
  exact ⟨w', hrun, h.ofMap hw' hdata rfl⟩

omit [Opts] in
/-- A mount of a flash that keeps the index. -/
theorem FlashLog.restores (h : FlashLog v logs) (hord : v.fs.ring.Ordered) (hk : KeepsIndex v m)
    (hno : noEarlierSequence m v.fs.sectorShift) :
    Restores m (v.fs.ring.sequence v.fs.sectorShift) v := by
  obtain ⟨hsize, hheaders, hlog, hdata⟩ := hk
  have hr := h.ring
  have hlt : v.fs.ring.count < v.fs.ring.sectors := hr.count_lt
  obtain ⟨hfinish, hmem⟩ := @IndexRing.sequence_finish m _ v.fs.sectorShift hlt
  refine ⟨hsize, ?_, hfinish, ?_, ?_, ?_⟩
  · refine mountable_of_headers hheaders hr.wf hord h.located ?_ hr.shift_le ?_ ?_ hno
    · rw [hsize, ← hr.sectorSize_eq]
      exact hr.fits
    · rw [hsize, ← hr.sectorSize_eq]
      exact hr.aligned
    · rw [hsize, ← hr.sectorSize_eq]
      exact h.sectorCount.symm.trans_le h.sectorCount_le
  · rw [hmem]
    exact hheaders
  · rw [hmem]
    exact hlog
  · rw [hmem]
    exact hdata

/-- A run in a ring of nine sectors never has more sectors than serials can order. -/
theorem IndexState.ordered (h : IndexState v logs) : v.fs.ring.Ordered := by
  have h9 : v.fs.ring.sectors ≤ 9 := h.sectors_le
  have hlt : v.fs.ring.count < v.fs.ring.sectors := h.ring.count_lt
  exact .inr (by omega)

theorem IndexState.restores (h : IndexState v logs) (hk : KeepsIndex v m)
    (hno : noEarlierSequence m v.fs.sectorShift) :
    Restores m (v.fs.ring.sequence v.fs.sectorShift) v := h.running.restores h.ordered hk hno

/-- A file system on a flash that keeps its index. -/
theorem IndexState.kept {u : World} (h : IndexState v logs) (hk : KeepsIndex v u.dev.mem)
    (hfs : u.fs = v.fs) (hplan : u.dev.plan = [])
    (hgranule : u.dev.programGranule = v.dev.programGranule) : IndexState u logs ∧ SameCache v u := by
  have hr := h.ring
  have hsize : u.dev.size = v.dev.size := hk.size
  have hsame : SameCache v u := by
    refine ⟨⟨h.works.plan, hplan, hk.size, ?_, ?_, ?_, hk.data⟩, ?_, hgranule, ?_, ?_, ?_⟩ <;> rw [hfs]
  have hring : RingFree u := by
    refine ⟨⟨?_, ?_, ?_, ?_, ?_, ?_, ?_, ?_, False.elim, fun i hi _ => ?_⟩, ?_⟩
    · rw [hfs]
      exact hr.wf
    · rw [hfs]
      exact hr.active_eq
    · rw [hfs]
      exact hr.shift_le
    · rw [hfs]
      exact hr.sectorSize_eq
    · rw [hfs, hsize]
      exact hr.fits
    · rw [hfs, hsize]
      exact hr.aligned
    · rw [hgranule]
      exact hr.granule_pos
    · rw [hfs]
      exact hr.next_ge
    · rw [hfs] at hi ⊢
      have hhdr := hk.headers i hi
      rw [← hr.sectorSize_eq] at hhdr
      exact hhdr
    · rw [hfs]
      exact hr.count_lt
  refine ⟨h.ofLog hring hsame (hfs ▸ h.located) ?_ rfl h.fits, hsame⟩
  refine h.log.congr (by rw [hfs]) (fun k hk' i h1 h2 => ?_) fun k =>
    (logEnd_eq h.placed.size h.placed.aligned k).ge
  exact hk.log k (h.log.count ▸ hk') i h1 h2

/-- A mount of a full ring drops its oldest sector. -/
theorem IndexState.restores_full {u : World} (h : IndexState (droppedWorld u) logs) (hr : Ring False u)
    (hfull : u.fs.indexSequenceCount = u.fs.indexSectors)
    (hno : noEarlierSequence u.dev.mem u.fs.sectorShift) :
    Restores u.dev.mem (u.fs.ring.sequence u.fs.sectorShift) (droppedWorld u) := by
  have hwf := hr.wf
  have hold := hwf.oldest_lt
  have hge := hwf.sectors_ge
  have hcount : u.fs.ring.count = u.fs.ring.sectors := hfull
  have h9 : u.fs.ring.sectors ≤ 9 := h.sectors_le
  have hseq : (u.fs.ring.sequence u.fs.sectorShift).full = true := IndexSequence.full_iff.mpr hfull.ge
  have hmem : (u.fs.ring.sequence u.fs.sectorShift).finishMem u.dev.mem = (droppedWorld u).dev.mem := by
    rw [IndexSequence.finishMem, if_pos hseq]
    change Nor.program u.dev.mem (u.fs.oldestIndexSector * sectorSizeOf u.fs.sectorShift + 7) _ =
      Nor.program u.dev.mem (u.fs.oldestIndexSector * u.fs.sectorSize + 7) _
    rw [hr.sectorSize_eq]
  have hactive : u.fs.ring.active = (droppedWorld u).fs.ring.active :=
    hr.active_eq.symm.trans h.ring.active_eq
  refine ⟨rfl, ?_, ?_, ?_, ?_, ?_⟩
  · refine mountable_of_headers hr.headersOf hwf (.inr (by omega)) ?_ ?_ hr.shift_le ?_ ?_ hno
    · left
      rcases u.fs.ring.place_cases 0 with h' | h' <;> omega
    · rw [← hr.sectorSize_eq]
      exact hr.fits
    · rw [← hr.sectorSize_eq]
      exact hr.aligned
    · rw [← hr.sectorSize_eq]
      exact h.sectorCount.symm.trans_le h.sectorCount_le
  · rw [IndexSequence.finish, if_pos hseq, IndexRing.sequence, IndexRing.sequence, ← hactive]
    rfl
  · rw [hmem]
    exact h.ring.headersOf
  · rw [hmem]
    exact fun _ _ _ _ _ => rfl
  · rw [hmem]
    exact fun _ _ => rfl

end Mount

end Fastffs
