import Fastffs.Append
import Fastffs.Recovery
import Fastffs.Remount

/-!
# Mounting a log with a torn record

The flash of a mounted file system may hold other bytes at the end of its log, where an
append has stopped.  A mount that is not strict overwrites a record there that says
nothing, and it comes to the log as it was (`IndexState.mount_torn`).
-/

namespace Fastffs

open Prog
open Nor (Mem Byte blank)

/-! ## Scanning up to the torn record -/

section Scan

variable {w : World} {active : Bool} {endOff off n : Nat} {rs : List IndexRecord}

/-- The scan of clean records with one after them that is not taken. -/
theorem scanRecords_torn (h : Records w.dev.mem off rs) (hclean : ∀ r ∈ rs, r.clean w.fs = true)
    (hlen : rs.length < n) (hend : endOff = off + 4 * n)
    (hne : (recordAt w.dev.mem (off + 4 * rs.length)).erased = false)
    (hnot : taken w active endOff (off + 4 * rs.length) = false) :
    scanRecords w active endOff n off = ⟨rs, .bad⟩ := by
  induction rs generalizing off n with
  | nil =>
    rw [List.length_nil, Nat.mul_zero, Nat.add_zero] at hne hnot
    obtain ⟨n, rfl⟩ : ∃ k, n = k + 1 := ⟨n - 1, by rw [List.length_nil] at hlen; omega⟩
    rw [scanRecords, if_neg (by rw [hne]; decide), if_neg (by rw [hnot]; decide)]
  | cons r rs ih =>
    obtain ⟨hr, herased, hrest⟩ := h
    rw [List.length_cons] at hlen hne hnot
    obtain ⟨n, rfl⟩ : ∃ k, n = k + 1 := ⟨n - 1, by omega⟩
    -- the record is not the last one
    obtain ⟨i, hi1, hi2, hi⟩ := recordAt_not_erased hne
    have hfree : freeFrom w.dev.mem (off + 4) endOff = false :=
      freeFrom_eq_false (i := i) (by omega) (by omega) hi
    have htaken : taken w active endOff off = true := by
      have hc := hclean r List.mem_cons_self
      rw [IndexRecord.clean, Bool.or_eq_true] at hc
      rw [taken, hr, hfree, Bool.and_false, Bool.not_false, Bool.or_true, Bool.true_or, Bool.and_true,
        Bool.or_eq_true]
      exact hc
    have hoff : off + 4 * (rs.length + 1) = off + 4 + 4 * rs.length := by omega
    rw [hoff] at hne hnot
    have hscan := @ih (off + 4) n hrest (fun r' hr' => hclean r' (List.mem_cons_of_mem _ hr'))
      (by omega) (by omega) hne hnot
    rw [scanRecords, hr, if_neg (by rw [herased]; decide), if_pos htaken]
    dsimp only
    rw [hscan]

end Scan

section Log

variable [Opts] {v : World} {logs : List (List IndexRecord)} {m : Mem}

omit [Opts] in
/-- The scan of a log with other bytes at its end, that are not taken. -/
theorem LogOn.scanLog_torn (h : LogOn v logs) (hp : LogPlaced v)
    (hs : SameData v (v.withMem m []))
    (hend : v.fs.nextIndexOffset + 4 ≤ (v.fs.activeIndexSector + 1) * v.fs.sectorSize)
    (hsame : SameOutside v.fs.nextIndexOffset (v.fs.nextIndexOffset + 4) v.dev.mem m)
    (hne : (recordAt m v.fs.nextIndexOffset).erased = false)
    (hnot : taken (v.withMem m []) true ((v.fs.activeIndexSector + 1) * v.fs.sectorSize)
      v.fs.nextIndexOffset = false) {n k : Nat} (hk : k + n + 1 = logs.length)
    (hlast : activeLast v.fs n (logicalIndexSector v.fs k)) :
    scanLog (v.withMem m []) (n + 1) (logicalIndexSector v.fs k) =
      ⟨⟨(logs.drop k).flatten, .bad⟩, v.fs.activeIndexSector, v.fs.nextIndexOffset⟩ := by
  have hsectors : 0 < v.fs.indexSectors := Nat.lt_of_le_of_lt (Nat.zero_le _) hp.oldest_lt
  have hnext := h.next
  rw [indexSectorBegin, headerSize] at hnext
  induction n generalizing k with
  | zero =>
    have hklt : k < logs.length := by omega
    have hactive : logicalIndexSector v.fs k = v.fs.activeIndexSector := hlast
    have hlastget := @getLast_logs logs k (by omega)
    have hplaces := logEnd_eq hp.size hp.aligned k
    rw [logEnd, logBegin, hactive] at hplaces
    have hbegin : v.fs.nextIndexOffset = indexSectorBegin v.fs v.fs.activeIndexSector +
        4 * (logs.getD k []).length := by
      rw [h.next, hlastget]
    have hrecords : Records (v.withMem m []).dev.mem (indexSectorBegin v.fs v.fs.activeIndexSector)
        (logs.getD k []) := by
      have hrec := h.records k hklt
      rw [logBegin, hactive] at hrec
      exact hrec.congr fun i _ hi => hsame.get i (.inl (by omega))
    have hscan : scanSector (v.withMem m []) v.fs.activeIndexSector = ⟨logs.getD k [], .bad⟩ := by
      have hself : (v.fs.activeIndexSector == (v.withMem m []).fs.activeIndexSector) = true :=
        beq_self_eq_true _
      rw [scanSector, hself]
      refine scanRecords_torn hrecords (h.clean _ (getD_mem_logs hklt)) ?_ hplaces ?_ ?_
      · change _ < recordPlaces v.fs
        omega
      · change (recordAt m (indexSectorBegin v.fs v.fs.activeIndexSector + _)).erased = false
        rw [← hbegin]
        exact hne
      · change taken (v.withMem m []) true _ (indexSectorBegin v.fs v.fs.activeIndexSector + _) = false
        rw [← hbegin]
        exact hnot
    have hnil : logs.drop (k + 1) = [] := List.drop_eq_nil_of_le (by omega)
    rw [hactive, scanLog_one, hscan, drop_logs hklt, hnil, List.flatten_cons, List.flatten_nil,
      List.append_nil]
    dsimp only
    rw [hbegin]
    rfl
  | succ n ih =>
    have hklt : k < logs.length := by omega
    have hscan := h.scanSector_eq hp.size hp.aligned hklt fun hactive => absurd hactive hlast.1
    have hother := scanSector_other hs hp.size hlast.1 (by omega) hend hsame.get
    have hnextsec := logicalIndexSector_succ hsectors k
    have hrest := ih (k := k + 1) (by omega) (hnextsec ▸ hlast.2)
    have hbad : (scanSector (v.withMem m []) (logicalIndexSector v.fs k)).stop ≠ .bad := by
      rw [hother, hscan]
      dsimp only
      split <;> simp
    have hnextsec' : nextIndexSector (v.withMem m []).fs (logicalIndexSector v.fs k) =
        logicalIndexSector v.fs (k + 1) := hnextsec
    rw [scanLog_next hbad, hother, hscan, hnextsec', hrest, drop_logs hklt, List.flatten_cons]

end Log

/-! ## Mounting -/

section Mount

variable [Opts] {v : World} {logs : List (List IndexRecord)} {o : MountOptions}

/-- The record that recovery leaves. -/
def overwritten : IndexRecord := ⟨0, 0⟩

/-- A log with a record at its end that recovery has overwritten. -/
theorem FlashLog.clobbered (h : FlashLog v logs) (hfree : ¬ indexSectorIsFull v.fs = true) :
    ∃ logs', FlashLog (appendedWorld v overwritten) logs' ∧ logMap logs'.flatten = logMap logs.flatten ∧
      (∀ u, tailLive u (logs'.getLast?.getD [])) ∧ SameData v (appendedWorld v overwritten) ∧
      ∀ size, cacheFits size logs.flatten → cacheFits size logs'.flatten := by
  have hp := h.placed
  obtain ⟨ls, rs, rfl⟩ := h.logs_split
  have hlen : rs.length < recordPlaces v.fs := by
    have hle := h.log.room ls.length (by rw [length_append_last]; omega)
    rw [getD_last] at hle
    rw [h.log.full_iff hp] at hfree
    omega
  obtain ⟨hrun, hsame, hlog⟩ := appendIndexAtEnd_run (r := overwritten) h.log hp hlen (by decide)
    (by decide) rfl rfl
  have hring := appendIndexAtEnd_ring h.ring.toRing (Bool.eq_false_of_not_eq_true hfree) hrun
  have hfreering : RingFree (appendedWorld v overwritten) := { hring.1 with count_lt := h.ring.count_lt }
  have hend := logEnd_eq hp.size hp.aligned ls.length
  rw [(h.log.logBegin_last hp).1, (h.log.logBegin_last hp).2] at hend
  have hnext := h.log.next_eq
  have hzero := logMap_zero h.clean_slot
  have hmap : logMap (ls ++ [rs ++ [overwritten]]).flatten = logMap (ls ++ [rs]).flatten := by
    rw [logMap_append_last ls rs overwritten, Function.update_eq_self_iff.mpr hzero.symm]
  have hflat : (ls ++ [rs ++ [overwritten]]).flatten = (ls ++ [rs]).flatten ++ [overwritten] := by simp
  have hfits : ∀ size, cacheFits size (ls ++ [rs]).flatten →
      cacheFits size (ls ++ [rs ++ [overwritten]]).flatten := by
    intro size hf hmode
    rw [hflat, List.map_append, List.map_singleton]
    refine Journal.fits_append_singleton.mpr ⟨hf hmode, .inl ?_⟩
    exact iff_of_true hzero rfl
  have hdata : SameData v (appendedWorld v overwritten) := by
    refine ⟨h.works.plan, rfl, hsame.size, rfl, rfl, rfl, fun i hi => ?_⟩
    exact hsame.data h.ring.active_lt (by omega) hi
  refine ⟨_, h.ofData hfreering hdata rfl rfl h.located hlog, hmap, fun u r hr => ?_, hdata, hfits⟩
  rw [getLast_append, List.getLast?_append] at hr
  cases hr
  exact .inl rfl

omit [Opts] in
/-- The headers of the index do not see the end of the log. -/
theorem HeadersOf.atEnd {m m' : Mem} {r : IndexRing} {shift a p : Nat} (h : HeadersOf m r shift)
    (hp1 : a * sectorSizeOf shift + headerSize ≤ p) (hp2 : p + 4 ≤ (a + 1) * sectorSizeOf shift)
    (hsame : SameOutside p (p + 4) m m') : HeadersOf m' r shift := by
  intro i hi
  rw [← h i hi, headerAt, headerAt, Nor.read_congr]
  intro j h1 h2
  refine hsame.get j ?_
  rw [headerSize] at hp1 h2
  rw [Nat.add_mul, Nat.one_mul] at hp2
  have hS := sectorSizeOf_ge shift
  rcases Nat.lt_trichotomy i a with hlt | rfl | hgt
  · have hmul := sector_mul_le (sectorSizeOf shift) hlt
    omega
  · omega
  · have hmul := sector_mul_le (sectorSizeOf shift) hgt
    omega

omit [Opts] in
/-- The scan of a log that ends with a torn record, which says nothing. -/
theorem FlashLog.scan_torn {x : World} {map : Nat → Bool} (h : FlashLog v logs)
    (hfree : ¬ indexSectorIsFull v.fs = true)
    (hsame : SameOutside v.fs.nextIndexOffset (v.fs.nextIndexOffset + 4) v.dev.mem x.dev.mem)
    (hne : (recordAt x.dev.mem v.fs.nextIndexOffset).erased = false)
    (hmean : (recordAt x.dev.mem v.fs.nextIndexOffset).meaningless v = true)
    (hclob : ¬ (recordAt x.dev.mem v.fs.nextIndexOffset).clobbered = true) (hplan : x.dev.plan = [])
    (hfs : x.fs = { mountedFs v.dev.size o (v.fs.ring.sequence v.fs.sectorShift) with allocMap := map }) :
    scanLog x x.fs.indexSequenceCount x.fs.oldestIndexSector =
        ⟨⟨logs.flatten, .bad⟩, v.fs.activeIndexSector, v.fs.nextIndexOffset⟩ ∧
      freeFrom x.dev.mem (v.fs.nextIndexOffset + 4)
        ((v.fs.activeIndexSector + 1) * v.fs.sectorSize) = true := by
  have hp := h.placed
  have hget := hsame.get
  have hend := next_le_of_free hfree
  have hS : x.fs.sectorSize = v.fs.sectorSize := by
    rw [hfs, h.ring.sectorSize_eq]
    rfl
  have hN : x.fs.indexSectors = v.fs.indexSectors := by rw [hfs]; rfl
  have hO : x.fs.oldestIndexSector = v.fs.oldestIndexSector := by rw [hfs]; rfl
  have hC : x.fs.indexSequenceCount = v.fs.indexSequenceCount := by rw [hfs]; rfl
  have hA : x.fs.activeIndexSector = v.fs.activeIndexSector := by rw [hfs, h.ring.active_eq]; rfl
  have hcount : x.fs.sectorCount = v.fs.sectorCount := by
    rw [hfs, h.sectorCount, h.ring.sectorSize_eq]
    rfl
  have hdata : SameData v x := ⟨h.works.plan, hplan, hsame.size, hS, hcount, hN, fun a ha =>
    hsame.data h.ring.active_lt hend ha⟩
  have hdata' : SameData v (v.withMem x.dev.mem []) := ⟨h.works.plan, rfl, hsame.size, rfl, rfl, rfl, hdata.data⟩
  have hfree' : freeFrom (v.withMem x.dev.mem []).dev.mem (v.fs.nextIndexOffset + 4)
      ((v.fs.activeIndexSector + 1) * v.fs.sectorSize) = true := by
    rw [freeFrom_iff]
    intro i h1 h2
    exact (hget i (.inr h1)).trans (h.blank_next (by omega) h2)
  have hnot : taken (v.withMem x.dev.mem []) true ((v.fs.activeIndexSector + 1) * v.fs.sectorSize)
      v.fs.nextIndexOffset = false := by
    rw [taken_meaningless hfree' ((IndexRecord.meaningless_congr hdata' _).trans hmean)]
    exact Bool.eq_false_of_not_eq_true hclob
  -- the scan stops at the torn record
  obtain ⟨n, hn⟩ : ∃ n, v.fs.indexSequenceCount = n + 1 :=
    ⟨v.fs.indexSequenceCount - 1, by have := hp.count_pos; omega⟩
  have hlast := hp.last
  have hzero := logicalIndexSector_zero hp.oldest_lt
  rw [hn, Nat.add_sub_cancel, ← hzero] at hlast
  have hscan := h.log.scanLog_torn hp hdata' hend hsame hne hnot
    (show 0 + n + 1 = logs.length by rw [h.log.count]; omega) hlast
  have hworld : SameData (v.withMem x.dev.mem []) x :=
    ⟨rfl, hplan, rfl, hS, hcount, hN, fun _ _ => rfl⟩
  rw [hzero, ← hn, List.drop_zero, ← scanLog_congr hworld rfl hA, ← hC, ← hO] at hscan
  exact ⟨hscan, hfree'⟩

/-- The replay of a log with a torn record that says nothing. -/
theorem FlashLog.replay_torn {x : World} {map : Nat → Bool} (h : FlashLog v logs)
    (hfree : ¬ indexSectorIsFull v.fs = true)
    (hsame : SameOutside v.fs.nextIndexOffset (v.fs.nextIndexOffset + 4) v.dev.mem x.dev.mem)
    (hne : (recordAt x.dev.mem v.fs.nextIndexOffset).erased = false)
    (hmean : (recordAt x.dev.mem v.fs.nextIndexOffset).meaningless v = true)
    (hplan : x.dev.plan = []) (hgranule : x.dev.programGranule = v.dev.programGranule)
    (hfs : x.fs = { mountedFs v.dev.size o (v.fs.ring.sequence v.fs.sectorShift) with allocMap := map })
    (hstrict : o.strict = false)
    (hvalid : indexCacheConfigValid o.indexHashTableSize = true) (hscratch : minScratchSize ≤ o.scratchSize)
    (hfits : cacheFits o.indexHashTableSize logs.flatten) :
    ∃ w' logs', replayIndex.run x = (.ok (), w') ∧ RunState w' logs' ∧ SameData v w' ∧
      logMap logs'.flatten = logMap logs.flatten := by
  obtain ⟨logs', h0, hmap, htail0, hdata0, hfits0⟩ := h.clobbered hfree
  have hget := hsame.get
  have hmem : (appendedWorld v overwritten).dev.mem = Nor.program x.dev.mem v.fs.nextIndexOffset
      [0#8, 0#8, 0#8, 0#8] := (program_overwritten hsame.size hget).symm
  -- the replay of the overwritten record
  have hrun0 : ∃ w', replayIndex.run (x.withMem (appendedWorld v overwritten).dev.mem []) = (.ok (), w') ∧
      RunState w' logs' ∧ SameData (appendedWorld v overwritten) w' := by
    refine @FlashLog.replay_run _ _ _ _ _ map h0 (htail0 _) h0.ring.keepsIndex rfl hgranule ?_ hvalid hscratch
      (hfits0 _ hfits)
    rw [show (x.withMem (appendedWorld v overwritten).dev.mem []).fs = x.fs from rfl, hfs]
    rfl
  suffices hagain : replayIndex.run (x.withMem (appendedWorld v overwritten).dev.mem []) = replayIndex.run x by
    obtain ⟨w', hrun, hw', hdata⟩ := hrun0
    exact ⟨w', logs', hagain.symm.trans hrun, hw', hdata0.trans hdata, hmap⟩
  by_cases hclob : (recordAt x.dev.mem v.fs.nextIndexOffset).clobbered = true
  · have heq : x.dev.mem = (appendedWorld v overwritten).dev.mem := eq_program_of_clobbered hsame.size hget hclob
    rw [← heq, World.withMem, ← hplan]
  have hpx : LogPlaced x := h.mounted_placed hsame.size hplan hgranule hfs hscratch
  have hend := next_le_of_free hfree
  have hS : x.fs.sectorSize = v.fs.sectorSize := by
    rw [hfs, h.ring.sectorSize_eq]
    rfl
  have hA : x.fs.activeIndexSector = v.fs.activeIndexSector := by rw [hfs, h.ring.active_eq]; rfl
  obtain ⟨hscan, hfree'⟩ := h.scan_torn hfree hsame hne hmean hclob hplan hfs
  obtain ⟨b, heads, happly, -⟩ := @applyRecords_run _ x [] logs.flatten (by
      rw [hfs]
      exact (mountedFs_cache _ hvalid).congr rfl rfl rfl) h.clean_slot (by
      rw [hfs]
      exact hfits)
  have hrec : recordAt (appendedWorld v overwritten).dev.mem v.fs.nextIndexOffset = overwritten := by
    change recordAt (Nor.program v.dev.mem v.fs.nextIndexOffset (recordBytes overwritten)) _ = _
    rw [recordBytes, ← Nor.program_append, length_storeLe16]
    exact recordAt_programmed (by decide) (by decide) fun i h1 h2 => h.blank_next h1 (by omega)
  refine replayIndex_again hpx (by rw [hfs]; exact hstrict) hscan.symm ⟨rfl, ?_, ?_⟩ ?_ ?_ ?_ ?_
  · rw [LogScan.terminal, hA, hS, Bool.and_eq_true]
    exact ⟨beq_self_eq_true _, hfree'⟩
  · dsimp only
    rw [happly]
  · exact hsame.size.symm
  · intro i hi
    rw [hmem]
    exact (get_overwritten _ _ _).trans (if_neg (by dsimp only at hi; omega))
  · dsimp only
    rw [hrec]
    rfl
  · dsimp only
    rw [hrec]
    rfl

/-- A mount finds the ring of a log with a torn record. -/
theorem FlashLog.torn_mounted {y : World} (h : FlashLog v logs) (hord : v.fs.ring.Ordered)
    (hfree : ¬ indexSectorIsFull v.fs = true)
    (hsame : SameOutside v.fs.nextIndexOffset (v.fs.nextIndexOffset + 4) v.dev.mem y.dev.mem)
    (hno : noEarlierSequence y.dev.mem v.fs.sectorShift) (o : MountOptions) :
    let seq := v.fs.ring.sequence v.fs.sectorShift
    mountable y.dev.mem = some seq ∧ (replayWorld y o seq).dev.mem = y.dev.mem ∧
      ∃ map, (replayWorld y o seq).fs = { mountedFs v.dev.size o seq with allocMap := map } := by
  have hr := h.ring
  have hlt : v.fs.ring.count < v.fs.ring.sectors := hr.count_lt
  have hend := next_le_of_free hfree
  have hbegin := hr.next_ge
  rw [hr.sectorSize_eq] at hend hbegin
  have hheaders : HeadersOf y.dev.mem v.fs.ring v.fs.sectorShift := hr.headersOf.atEnd hbegin hend hsame
  have hsize := hsame.size
  obtain ⟨hfinish, hmem⟩ : (v.fs.ring.sequence v.fs.sectorShift).finish = _ ∧
    (v.fs.ring.sequence v.fs.sectorShift).finishMem y.dev.mem = _ := IndexRing.sequence_finish hlt
  obtain ⟨map, hmap⟩ := allocMapInit_eq (mountedFs v.dev.size o (v.fs.ring.sequence v.fs.sectorShift))
  refine ⟨?_, hmem, map, ?_⟩
  · refine mountable_of_headers hheaders hr.wf hord h.located ?_ hr.shift_le ?_ ?_ hno
    · rw [hsize, ← hr.sectorSize_eq]
      exact hr.fits
    · rw [hsize, ← hr.sectorSize_eq]
      exact hr.aligned
    · rw [hsize, ← hr.sectorSize_eq]
      exact h.sectorCount.symm.trans_le h.sectorCount_le
  · have hdev : y.dev.size = v.dev.size := hsize
    change allocMapInit (mountedFs y.dev.size o _) = _
    rw [hfinish, hdev, hmap]

/-- A mount of a log with a torn record that says nothing. -/
theorem FlashLog.mount_torn {y : World} (h : FlashLog v logs) (hord : v.fs.ring.Ordered)
    (hfree : ¬ indexSectorIsFull v.fs = true)
    (hsame : SameOutside v.fs.nextIndexOffset (v.fs.nextIndexOffset + 4) v.dev.mem y.dev.mem)
    (hne : (recordAt y.dev.mem v.fs.nextIndexOffset).erased = false)
    (hmean : (recordAt y.dev.mem v.fs.nextIndexOffset).meaningless v = true)
    (hplan : y.dev.plan = []) (hgranule : y.dev.programGranule = v.dev.programGranule)
    (hno : noEarlierSequence y.dev.mem v.fs.sectorShift) (hok : mountOptionsOk y o)
    (hstrict : o.strict = false) (hfits : cacheFits o.indexHashTableSize logs.flatten) :
    ∃ w' logs', (mount o).run y = (.ok (), w') ∧ RunState w' logs' ∧ SameData v w' ∧
      logMap logs'.flatten = logMap logs.flatten := by
  obtain ⟨hmountable, hxmem, map, hfs⟩ := h.torn_mounted hord hfree hsame hno o
  rw [← hxmem] at hsame hne hmean
  obtain ⟨w', logs', hrun, hw', hmap'⟩ := h.replay_torn hfree hsame hne hmean hplan hgranule hfs hstrict
    hok.2.1 hok.2.2 hfits
  refine ⟨w', logs', ?_, hw', hmap'⟩
  rw [Fastffs.mount_run hplan hok, hmountable]
  dsimp only
  rw [hrun]
  rfl

/-- A mount of such a log that succeeds is not strict, and its table fits the log. -/
theorem FlashLog.torn_fits {y : World} (h : FlashLog v logs) (hord : v.fs.ring.Ordered)
    (hfree : ¬ indexSectorIsFull v.fs = true)
    (hsame : SameOutside v.fs.nextIndexOffset (v.fs.nextIndexOffset + 4) v.dev.mem y.dev.mem)
    (hne : (recordAt y.dev.mem v.fs.nextIndexOffset).erased = false)
    (hmean : (recordAt y.dev.mem v.fs.nextIndexOffset).meaningless v = true)
    (hclob : ¬ (recordAt y.dev.mem v.fs.nextIndexOffset).clobbered = true)
    (hplan : y.dev.plan = []) (hgranule : y.dev.programGranule = v.dev.programGranule)
    (hno : noEarlierSequence y.dev.mem v.fs.sectorShift) (hok : mountOptionsOk y o)
    (hrun : ((mount o).run y).1 = .ok ()) :
    o.strict = false ∧ cacheFits o.indexHashTableSize logs.flatten := by
  obtain ⟨hmountable, hxmem, map, hfs⟩ := h.torn_mounted hord hfree hsame hno o
  rw [Fastffs.mount_run hplan hok, hmountable] at hrun
  have hreplay := afterReplay_ok hrun
  rw [← hxmem] at hsame hne hmean hclob
  obtain ⟨hscan, -⟩ := h.scan_torn hfree hsame hne hmean hclob hplan hfs
  have hplaced := h.mounted_placed hsame.size hplan hgranule hfs hok.2.2
  constructor
  · by_contra hstrict
    refine replayIndex_strict hplaced ?_ hreplay (by rw [hscan])
    rw [hfs]
    exact Bool.eq_true_of_not_eq_false hstrict
  · have hcache : CacheIs (replayWorld y o (v.fs.ring.sequence v.fs.sectorShift)).fs (fun _ => 0) := by
      rw [hfs]
      exact (mountedFs_cache _ hok.2.1).congr rfl rfl rfl
    have hfits := replayIndex_fits hplaced hcache (by rw [hscan]) h.clean_slot hreplay
    rw [hfs] at hfits
    exact hfits

theorem IndexState.mount_torn {y : World} (h : IndexState v logs)
    (hfree : ¬ indexSectorIsFull v.fs = true)
    (hsame : SameOutside v.fs.nextIndexOffset (v.fs.nextIndexOffset + 4) v.dev.mem y.dev.mem)
    (hne : (recordAt y.dev.mem v.fs.nextIndexOffset).erased = false)
    (hmean : (recordAt y.dev.mem v.fs.nextIndexOffset).meaningless v = true)
    (hplan : y.dev.plan = []) (hgranule : y.dev.programGranule = v.dev.programGranule)
    (hno : noEarlierSequence y.dev.mem v.fs.sectorShift) (hok : mountOptionsOk y o)
    (hstrict : o.strict = false) (hfits : cacheFits o.indexHashTableSize logs.flatten) :
    ∃ w' logs', (mount o).run y = (.ok (), w') ∧ IndexState w' logs' ∧
      logMap logs'.flatten = logMap logs.flatten := by
  obtain ⟨w', logs', hrun, hw', hdata, hmap⟩ := h.running.mount_torn h.ordered hfree hsame hne hmean hplan
    hgranule hno hok hstrict hfits
  exact ⟨w', logs', hrun, h.ofMap hw' hdata hmap, hmap⟩

end Mount

end Fastffs
