import Fastffs.LogWrite

/-!
# Compaction

`index_compact_oldest_copy` goes through the oldest sector of the log and copies every
record that is still current to the end of the log.  A cached build asks the cache
whether a record is current, and can copy two equal records of one slot.  A build
without a cache looks for a newer record of the slot, and its copies become part of
the log it looks through.  Both copy enough to drop the oldest sector
(`Journal.Compacts`).
-/

namespace Fastffs

open Prog
open Nor (Mem Byte blank)

variable [Opts]

/-! ## Looking up a slot -/

section Lookup

variable {w : World} {logs : List (List IndexRecord)} {slot : Nat}

/-- `fffs_index_head_for_slot` in the three builds. -/
theorem indexHeadForSlot_run (h : LogOn w logs) (hp : LogPlaced w)
    (hc : CacheIs w.fs (logMap logs.flatten)) (hslot : slot ≠ 0) :
    (indexHeadForSlot slot).run w = (.ok (headOf (logMap logs.flatten slot)), w) := by
  by_cases hmode : Opts.indexCacheMode = .none
  · have hscan : (headForSlotScan slot w.fs.indexSequenceCount).run w = _ :=
      headForSlotScan_run h hp h.count.ge
    rw [indexHeadForSlot, bind_of_ok (run_getFs w), hmode]
    dsimp only
    rw [hscan, List.take_of_length_le h.count.le, logMap, Journal.replay_eq_latest]
    change (Except.ok ((Journal.latest slot (entries logs.flatten)).bind _), w) =
      (Except.ok (headOf ((Journal.latest slot (entries logs.flatten)).getD 0)), w)
    cases Journal.latest slot (entries logs.flatten) <;> rfl
  · exact indexHeadForSlot_cached hc hmode hslot

end Lookup

/-! ## One record -/

omit [Opts] in
theorem recordAt_lt (m : Mem) (off : Nat) :
    (recordAt m off).slot < 65536 ∧ (recordAt m off).head < 65536 := by
  have hload : ∀ bs i, loadLe16 bs i < 65536 := by
    intro bs i
    have h1 := (byteAt bs i).isLt
    have h2 := (byteAt bs (i + 1)).isLt
    rw [loadLe16]
    omega
  exact ⟨hload _ _, hload _ _⟩

omit [Opts] in
theorem Records.lt {m : Mem} {off : Nat} {rs : List IndexRecord} (h : Records m off rs) :
    ∀ r ∈ rs, r.slot < 65536 ∧ r.head < 65536 := by
  induction rs generalizing off with
  | nil => simp
  | cons r rs ih =>
    intro x hx
    rcases List.mem_cons.mp hx with rfl | hx
    · rw [← h.1]
      exact recordAt_lt m off
    · exact ih h.2.2 x hx

omit [Opts] in
/-- The value of a slot whose last record is in the middle of a log. -/
theorem logMap_middle {pre post : List IndexRecord} {r : IndexRecord}
    (h : r.slot ∉ post.map IndexRecord.slot) : logMap (pre ++ r :: post) r.slot = r.head := by
  have hnone : Journal.latest r.slot (entries post) = none := by
    rw [Journal.latest_eq_none_iff, entries, List.map_map]
    exact h
  have hentries : (pre ++ r :: post).map IndexRecord.entry = entries pre ++ (r.entry :: entries post) := by
    rw [List.map_append, List.map_cons]
    rfl
  rw [logMap, Journal.replay_eq_latest, hentries, Journal.latest_append, Journal.latest, hnone]
  change (((none : Option Nat).or (if r.slot = r.slot then some r.head else none)).or _).getD _ = _
  rw [if_pos rfl]
  rfl

/-! ## What is copied -/

/-- A compaction copies the record, when `f` is the map of the log and `later` are the
records after it.  A build with a cache compares the head with that of the map, one
without a cache looks for a newer record of the slot. -/
def copiesRecord (f : Nat → Nat) (later : List IndexRecord) (r : IndexRecord) : Bool :=
  r.head != 0 &&
    match Opts.indexCacheMode with
    | .none => !later.any (·.slot == r.slot)
    | .hashHeads | .fullSlotHeads => f r.slot == r.head

/-- The records that a compaction copies out of a sector, when `later` follow it. -/
def keptRecords (f : Nat → Nat) (later : List IndexRecord) : List IndexRecord → List IndexRecord
  | [] => []
  | r :: rs =>
      if copiesRecord f (rs ++ later) r then r :: keptRecords f later rs else keptRecords f later rs

section Kept

variable {f : Nat → Nat} {later rs0 done rem : List IndexRecord} {mid : List (List IndexRecord)}
  {r : IndexRecord}

theorem keptRecords_sublist : (keptRecords f later rem).Sublist rem := by
  induction rem with
  | nil => exact List.Sublist.slnil
  | cons r rem ih =>
    rw [keptRecords]
    split
    · exact ih.cons_cons r
    · exact ih.cons r

theorem keptRecords_length_le : (keptRecords f later rem).length ≤ rem.length :=
  keptRecords_sublist.length_le

/-- The value of a record that is copied. -/
theorem copiesRecord_current (hmap : f = logMap (done ++ r :: (rem ++ later)))
    (h : copiesRecord f (rem ++ later) r = true) : f r.slot = r.head ∧ r.head ≠ 0 := by
  rw [copiesRecord, Bool.and_eq_true, bne_iff_ne] at h
  refine ⟨?_, h.1⟩
  have hcur := h.2
  cases hm : Opts.indexCacheMode with
  | none =>
    rw [hm] at hcur
    rw [hmap]
    refine logMap_middle fun hmem => ?_
    obtain ⟨x, hx, heq⟩ := List.mem_map.mp hmem
    simp only [Bool.not_eq_true', List.any_eq_false, beq_iff_eq] at hcur
    exact hcur x hx heq
  | hashHeads =>
    rw [hm] at hcur
    exact beq_iff_eq.mp hcur
  | fullSlotHeads =>
    rw [hm] at hcur
    exact beq_iff_eq.mp hcur

/-- The newest record of a slot is copied. -/
theorem copiesRecord_newest (hmap : f = logMap (done ++ r :: (rem ++ later))) (hhead : r.head ≠ 0)
    (h : r.slot ∉ (rem ++ later).map IndexRecord.slot) : copiesRecord f (rem ++ later) r = true := by
  have hcur : f r.slot = r.head := by
    rw [hmap]
    exact logMap_middle h
  have hany : (rem ++ later).any (·.slot == r.slot) = false := by
    rw [List.any_eq_false]
    intro x hx heq
    exact h (beq_iff_eq.mp heq ▸ List.mem_map_of_mem hx)
  rw [copiesRecord, Bool.and_eq_true, bne_iff_ne]
  refine ⟨hhead, ?_⟩
  cases Opts.indexCacheMode with
  | none =>
    dsimp only
    rw [hany]
    rfl
  | hashHeads => exact beq_iff_eq.mpr hcur
  | fullSlotHeads => exact beq_iff_eq.mpr hcur

/-- What a loop that goes through the records `rem` of the oldest sector copies. -/
structure Copies (f : Nat → Nat) (mid : List (List IndexRecord)) (rem cp : List IndexRecord) :
    Prop where
  length : cp.length ≤ rem.length
  current : ∀ r ∈ cp, f r.slot = r.head
  slots : ∀ r ∈ cp, r ∈ rem ∧ r.head ≠ 0
  covers : ∀ slot ∉ mid.flatten.map IndexRecord.slot,
    (Journal.latest slot (entries rem)).getD 0 ≠ 0 → slot ∈ cp.map IndexRecord.slot

omit [Opts] in
theorem Copies.skip {cp : List IndexRecord} (h : Copies f mid rem cp)
    (hskip : r.slot ∉ rem.map IndexRecord.slot → r.slot ∉ mid.flatten.map IndexRecord.slot →
      r.head = 0) : Copies f mid (r :: rem) cp := by
  refine ⟨h.length.trans (Nat.le_succ _), h.current, fun x hx => ?_, fun slot hmid hlast => ?_⟩
  · exact ⟨List.mem_cons_of_mem _ (h.slots x hx).1, (h.slots x hx).2⟩
  · refine h.covers slot hmid ?_
    change ((Journal.latest slot (entries rem)).or (if r.slot = slot then some r.head else none)).getD 0 ≠ 0
      at hlast
    cases hrem : Journal.latest slot (entries rem) with
    | some head =>
      rw [hrem] at hlast
      exact hlast
    | none =>
      rw [hrem, Option.none_or] at hlast
      by_cases hr : r.slot = slot
      · rw [Journal.latest_eq_none_iff, entries, List.map_map] at hrem
        rw [if_pos hr, hskip (hr ▸ hrem) (hr ▸ hmid)] at hlast
        exact absurd rfl hlast
      · rw [if_neg hr] at hlast
        exact absurd rfl hlast

omit [Opts] in
theorem Copies.copy {cp : List IndexRecord} (h : Copies f mid rem cp)
    (hcur : f r.slot = r.head) (hhead : r.head ≠ 0) : Copies f mid (r :: rem) (r :: cp) := by
  refine ⟨Nat.succ_le_succ h.length, ?_, ?_, fun slot hmid hlast => ?_⟩
  · intro x hx
    rcases List.mem_cons.mp hx with rfl | hx
    · exact hcur
    · exact h.current x hx
  · intro x hx
    rcases List.mem_cons.mp hx with rfl | hx
    · exact ⟨List.mem_cons_self, hhead⟩
    · exact ⟨List.mem_cons_of_mem _ (h.slots x hx).1, (h.slots x hx).2⟩
  · change ((Journal.latest slot (entries rem)).or (if r.slot = slot then some r.head else none)).getD 0 ≠ 0
      at hlast
    rw [List.map_cons, List.mem_cons]
    by_cases hr : r.slot = slot
    · exact .inl hr.symm
    · rw [if_neg hr, Option.or_none] at hlast
      exact .inr (h.covers slot hmid hlast)

/-- What is copied is current and covers the sector. -/
theorem keptRecords_copies (hmap : f = logMap (done ++ (rem ++ mid.flatten))) :
    Copies f mid rem (keptRecords f mid.flatten rem) := by
  induction rem generalizing done with
  | nil => exact ⟨le_rfl, by simp [keptRecords], by simp [keptRecords], fun slot _ hlast => absurd rfl hlast⟩
  | cons r rem ih =>
    have hrest := @ih (done ++ [r]) (by rw [hmap]; simp)
    rw [keptRecords]
    split
    · next hcopy =>
      obtain ⟨hcur, hhead⟩ := copiesRecord_current hmap hcopy
      exact hrest.copy hcur hhead
    · next hcopy =>
      refine hrest.skip fun h1 h2 => ?_
      by_contra hhead
      refine hcopy (copiesRecord_newest hmap hhead ?_)
      rw [List.map_append, List.mem_append, not_or]
      exact ⟨h1, h2⟩

end Kept

section Current

variable {v : World} {mid : List (List IndexRecord)} {rs0 cp pre post later copied : List IndexRecord}
  {r : IndexRecord} {f : Nat → Nat}

/-- What `fffs_index_record_is_current` says about a record of the oldest sector. -/
theorem indexRecordIsCurrent_run (h : LogOn v (rs0 :: mid ++ [cp])) (hp : LogPlaced v)
    (hc : CacheIs v.fs f) (hrs0 : rs0 = pre ++ r :: post) (hlater : mid.flatten ++ cp = later ++ copied)
    (hslot : r.slot ≠ 0) (hhead : r.head ≠ 0)
    (hcp : Opts.indexCacheMode = .none → r.slot ∉ copied.map IndexRecord.slot) :
    (indexRecordIsCurrent 0 (logBegin v.fs 0 + 4 * pre.length) r.slot r.head).run v =
      (.ok (copiesRecord f (post ++ later) r), v) := by
  have hbne : (r.head != 0) = true := bne_iff_ne.mpr hhead
  rw [copiesRecord, hbne, Bool.true_and]
  by_cases hmode : Opts.indexCacheMode = .none
  · have hlen : pre.length < ((rs0 :: mid ++ [cp]).getD 0 []).length := by
      change pre.length < rs0.length
      rw [hrs0, List.length_append, List.length_cons]
      omega
    have hnewer := newerRecordForSlot_run h hp hslot (k := 0) (Nat.succ_pos _) hlen
    have hdrop : ((rs0 :: mid ++ [cp]).getD 0 []).drop (pre.length + 1) = post := by
      change rs0.drop (pre.length + 1) = post
      rw [hrs0, List.drop_append, List.drop_of_length_le (by omega), Nat.add_sub_cancel_left,
        List.drop_succ_cons, List.drop_zero, List.nil_append]
    have htail : ((rs0 :: mid ++ [cp]).drop 1).flatten = later ++ copied := by
      rw [List.cons_append, List.drop_one, List.tail_cons, List.flatten_append, List.flatten_singleton,
        hlater]
    have hnone : copied.any (·.slot == r.slot) = false := by
      rw [List.any_eq_false]
      intro x hx heq
      exact hcp hmode (beq_iff_eq.mp heq ▸ List.mem_map_of_mem hx)
    rw [hdrop, htail, ← List.append_assoc, List.any_append, hnone, Bool.or_false] at hnewer
    rw [indexRecordIsCurrent, hmode]
    dsimp only
    rw [bind_of_ok hnewer]
    rfl
  · have hlookup := indexHeadForSlot_cached hc hmode hslot
    have hbeq : (headOf (f r.slot) == some r.head) = (f r.slot == r.head) := by
      rw [Bool.eq_iff_iff, beq_iff_eq, beq_iff_eq, headOf]
      split
      · next h0 =>
        rw [h0]
        exact ⟨fun h => by simp at h, fun h => absurd h.symm hhead⟩
      · exact ⟨Option.some.inj, fun h => congrArg some h⟩
    rw [indexRecordIsCurrent]
    cases hm : Opts.indexCacheMode with
    | none => exact absurd hm hmode
    | hashHeads =>
      dsimp only
      rw [bind_of_ok hlookup, ← hbeq]
      rfl
    | fullSlotHeads =>
      dsimp only
      rw [bind_of_ok hlookup, ← hbeq]
      rfl

end Current

/-! ## The window of the source -/

section Source

variable {v : World} {rs0 : List IndexRecord} {ls : List (List IndexRecord)} {reader : IndexRecordReader}

omit [Opts] in
/-- The places of the oldest sector, as the copying loop counts them. -/
theorem LogOn.sourceEnd {ls : List (List IndexRecord)} (h : LogOn v (rs0 :: ls)) (hp : LogPlaced v)
    (hls : ls ≠ []) : indexSectorEnd v.fs v.fs.oldestIndexSector = logEnd v.fs 0 := by
  have hcount := h.count
  have hpos := List.length_pos_of_ne_nil hls
  rw [List.length_cons] at hcount
  have heq := h.indexSectorEnd_eq hp (Nat.succ_pos _)
  rw [logicalIndexSector_zero hp.oldest_lt, searched, if_neg (by omega)] at heq
  rw [heq, logEnd_eq hp.size hp.aligned]

/-- The window shows records of the oldest sector, which holds `rs`. -/
def IndexRecordReader.Shows (reader : IndexRecordReader) (fs : Fs) (rs : List IndexRecord) : Prop :=
  ∀ j < recordPlaces fs, reader.windowStart ≤ logBegin fs 0 + 4 * j →
    logBegin fs 0 + 4 * j + 4 ≤ reader.windowStart + reader.window.length →
    PlaceHolds rs j (indexRecordAt reader.window (logBegin fs 0 + 4 * j - reader.windowStart))

omit [Opts] in
/-- A reader begins without a window. -/
theorem IndexRecordReader.shows_nil (fs : Fs) : IndexRecordReader.Shows {} fs rs0 := by
  intro j _ _ hin
  have hnil : ({} : IndexRecordReader).windowStart + ({} : IndexRecordReader).window.length = 0 := rfl
  omega

omit [Opts] in
/-- `index_record_reader_load` of a place of the oldest sector. -/
theorem indexRecordReaderLoad_run (h : LogOn v (rs0 :: ls)) (hp : LogPlaced v) (hls : ls ≠ []) {j : Nat}
    (hj : j < recordPlaces v.fs) (hs : reader.Shows v.fs rs0) :
    ∃ reader', (indexRecordReaderLoad reader (logBegin v.fs 0 + 4 * j)).run v = (.ok reader', v) ∧
      reader'.Shows v.fs rs0 ∧ reader'.windowStart ≤ logBegin v.fs 0 + 4 * j ∧
      logBegin v.fs 0 + 4 * j + 4 ≤ reader'.windowStart + reader'.window.length := by
  rw [indexRecordReaderLoad]
  by_cases hin : reader.windowStart ≤ logBegin v.fs 0 + 4 * j ∧
      logBegin v.fs 0 + 4 * j + 4 ≤ reader.windowStart + reader.window.length
  · rw [if_pos hin]
    exact ⟨reader, rfl, hs, hin⟩
  rw [if_neg hin, bind_of_ok (run_getFs v)]
  have hend := logEnd_eq hp.size hp.aligned 0
  have hsize := hp.size
  have hle := logEnd_le hp 0
  -- the sector of the place, and its end
  have hbegin : logBegin v.fs 0 = logicalIndexSector v.fs 0 * v.fs.sectorSize + headerSize := rfl
  have hsector : (logBegin v.fs 0 + 4 * j) / v.fs.sectorSize = logicalIndexSector v.fs 0 := by
    rw [recordPlaces, headerSize] at hj
    rw [hbegin, headerSize, Nat.add_assoc, Nat.mul_comm, Nat.mul_add_div (by omega),
      Nat.div_eq_of_lt (by omega), Nat.add_zero]
  have hsource : indexSectorEnd v.fs (logicalIndexSector v.fs 0) = logEnd v.fs 0 := by
    rw [logicalIndexSector_zero hp.oldest_lt]
    exact h.sourceEnd hp hls
  dsimp only
  rw [hsector, ← hbegin, hsource, Nat.add_sub_cancel_left, indexCompactOuterScanSize]
  generalize hn : min (logEnd v.fs 0 - (logBegin v.fs 0 + 4 * j - 4 * j % 64)) 64 = n
  rw [if_neg (by omega), bind_of_ok (flashRead_run hp.plan (by omega)), run_pure]
  refine ⟨_, rfl, ?_, ?_, ?_⟩
  · intro i hi h1 h2
    dsimp only at h1 h2 ⊢
    rw [Nor.length_read] at h2
    rw [indexRecordAt_read (by omega), Nat.add_sub_cancel' h1]
    exact h.placeHolds hp (Nat.succ_pos _) hi
  · dsimp only
    omega
  · dsimp only
    rw [Nor.length_read]
    omega

omit [Opts] in
/-- `read_compact_source_record` of a place of the oldest sector. -/
theorem readCompactSourceRecord_run (h : LogOn v (rs0 :: ls)) (hp : LogPlaced v) (hls : ls ≠ []) {j : Nat}
    (hj : j < recordPlaces v.fs) (hs : reader.Shows v.fs rs0) :
    ∃ reader' r, (readCompactSourceRecord reader (logBegin v.fs 0 + 4 * j)).run v = (.ok (reader', r), v) ∧
      PlaceHolds rs0 j r ∧ reader'.Shows v.fs rs0 := by
  obtain ⟨reader', hload, hs', h1, h2⟩ := indexRecordReaderLoad_run h hp hls hj hs
  refine ⟨reader', _, ?_, hs' j hj h1 h2, hs'⟩
  rw [readCompactSourceRecord, bind_of_ok hload, run_pure]

end Source

/-! ## The copying loop -/

section Copy

variable {v : World} {mid : List (List IndexRecord)} {rs0 cp done rem later copied : List IndexRecord}
  {f : Nat → Nat} {pending : Bool} {reader : IndexRecordReader}

omit [Opts] in
theorem LogPlaced.withLog {m : Mem} (hp : LogPlaced v) (hm : m.size = v.dev.mem.size) (next : Nat) :
    LogPlaced ((v.withMem m []).withNext next) := by
  refine ⟨⟨rfl, hp.scratch, hp.size, hp.aligned, ?_⟩, hp.granule_pos, ?_, hp.oldest_lt, hp.count_pos, ?_⟩
  · exact hp.fits.trans_eq hm.symm
  · exact (congrArg (· % v.dev.programGranule) hm).trans hp.granule_mod
  · exact @activeLast_congr v.fs _ _ _ rfl rfl hp.last

omit [Opts] in
/-- `index_record_writer_append` on a log with a free place. -/
theorem indexRecordWriterAppend_run {ls : List (List IndexRecord)} {r : IndexRecord}
    (h : LogOn v (ls ++ [cp])) (hp : LogPlaced v) (hroom : cp.length < recordPlaces v.fs)
    (hslot : r.slot < 65536) (hhead : r.head < 65536)
    (hr : r.erased = false) (hclean : r.clean v.fs = true) :
    ∃ m, (indexRecordWriterAppend pending r.slot r.head).run v =
        (.ok pending, (v.withMem m []).withNext (v.fs.nextIndexOffset + 4)) ∧
      SameOutside v.fs.nextIndexOffset (v.fs.nextIndexOffset + 4) v.dev.mem m ∧
      LogOn ((v.withMem m []).withNext (v.fs.nextIndexOffset + 4)) (ls ++ [cp ++ [r]]) := by
  obtain ⟨hrun, hsame, hlog⟩ := appendIndexAtEnd_run h hp hroom hslot hhead hr hclean
  refine ⟨_, ?_, hsame, hlog⟩
  have hfull : ¬ indexSectorIsFull v.fs = true := by
    rw [h.full_iff hp]
    omega
  have hpending : (indexRecordWriterRoom pending).run v = (.ok pending, v) := by
    rw [indexRecordWriterRoom, bind_of_ok (run_getFs v), if_neg hfull]
    rfl
  rw [indexRecordWriterAppend, bind_of_ok hpending, bind_of_ok hrun]
  rfl

/-- The records `kept` have been added to the last sector of the log. -/
def CopyRun (v : World) (rs0 : List IndexRecord) (mid : List (List IndexRecord))
    (cp kept : List IndexRecord) (pending : Bool) (res : Except Status Bool × World) : Prop :=
  ∃ m, res = (.ok pending, (v.withMem m []).withNext (v.fs.nextIndexOffset + 4 * kept.length)) ∧
    SameOutside (indexSectorBegin v.fs v.fs.activeIndexSector)
      ((v.fs.activeIndexSector + 1) * v.fs.sectorSize) v.dev.mem m ∧
    LogOn ((v.withMem m []).withNext (v.fs.nextIndexOffset + 4 * kept.length))
      (rs0 :: mid ++ [cp ++ kept])

omit [Opts] in
theorem CopyRun.stop (h : LogOn v (rs0 :: mid ++ [cp])) (hplan : v.dev.plan = []) :
    CopyRun v rs0 mid cp [] pending (.ok pending, v) := by
  have hv : (v.withMem v.dev.mem []).withNext v.fs.nextIndexOffset = v := by
    rw [← hplan]
    rfl
  refine ⟨v.dev.mem, ?_, SameOutside.refl _ _ _, ?_⟩
  · rw [List.length_nil, Nat.mul_zero, Nat.add_zero, hv]
  · rw [List.length_nil, Nat.mul_zero, Nat.add_zero, hv, List.append_nil]
    exact h

/-- The state of the loop before the records `rem` of the oldest sector, when `copied`
has been copied and `later` was in the log before. -/
structure CopyState (v : World) (f : Nat → Nat) (rs0 : List IndexRecord) (mid : List (List IndexRecord))
    (cp later copied done rem : List IndexRecord) : Prop where
  log : LogOn v (rs0 :: mid ++ [cp])
  placed : LogPlaced v
  cache : CacheIs v.fs f
  split : rs0 = done ++ rem
  later_eq : mid.flatten ++ cp = later ++ copied
  fresh : Opts.indexCacheMode = .none → ∀ r ∈ rem, r.slot ∉ copied.map IndexRecord.slot

/-- `read_compact_source_record` before the records `rem`. -/
theorem CopyState.read (h : CopyState v f rs0 mid cp later copied done rem) (hs : reader.Shows v.fs rs0)
    (hj : done.length < recordPlaces v.fs) :
    ∃ reader' r, (readCompactSourceRecord reader (logBegin v.fs 0 + 4 * done.length)).run v =
        (.ok (reader', r), v) ∧ PlaceHolds rs0 done.length r ∧ reader'.Shows v.fs rs0 := by
  have hlog : LogOn v (rs0 :: (mid ++ [cp])) := h.log
  exact readCompactSourceRecord_run hlog h.placed (by simp) hj hs

/-- The loop at its end. -/
theorem CopyState.stop {fuel : Nat} (h : CopyState v f rs0 mid cp later copied done [])
    (hs : reader.Shows v.fs rs0) (hfuel : recordPlaces v.fs - done.length < fuel) :
    (compactCopyLoop (logEnd v.fs 0) fuel reader (logBegin v.fs 0 + 4 * done.length) pending).run v =
      (.ok pending, v) := by
  obtain ⟨fuel, rfl⟩ : ∃ n, fuel = n + 1 := ⟨fuel - 1, by omega⟩
  have hend := logEnd_eq h.placed.size h.placed.aligned 0
  have hdone : rs0.length = done.length := by
    have hsplit := h.split
    rw [List.append_nil] at hsplit
    rw [hsplit]
  rw [compactCopyLoop]
  split
  · next hin =>
    -- the place after the last record is free
    obtain ⟨reader', r, hrun, hr, -⟩ := h.read hs (by omega)
    rw [PlaceHolds, if_neg (by omega)] at hr
    rw [bind_of_ok hrun, if_pos hr, run_pure]
  · rw [run_pure]

/-- The loop at a record: it goes on to the next one, or copies this one before. -/
theorem CopyState.step {fuel : Nat} {r : IndexRecord}
    (h : CopyState v f rs0 mid cp later copied done (r :: rem)) (hs : reader.Shows v.fs rs0)
    (hfuel : recordPlaces v.fs - done.length < fuel + 1) (pending : Bool) :
    ∃ reader', reader'.Shows v.fs rs0 ∧
      (compactCopyLoop (logEnd v.fs 0) (fuel + 1) reader (logBegin v.fs 0 + 4 * done.length) pending).run v =
        (if copiesRecord f (rem ++ later) r then do
          let pending ← indexRecordWriterAppend pending r.slot r.head
          compactCopyLoop (logEnd v.fs 0) fuel reader' (logBegin v.fs 0 + 4 * (done ++ [r]).length) pending
        else compactCopyLoop (logEnd v.fs 0) fuel reader' (logBegin v.fs 0 + 4 * (done ++ [r]).length)
          pending).run v ∧
      r.erased = false ∧ r.clean v.fs = true ∧ recordPlaces v.fs - (done ++ [r]).length < fuel := by
  have hend := logEnd_eq h.placed.size h.placed.aligned 0
  have hroom0 : rs0.length ≤ recordPlaces v.fs := h.log.room 0 (Nat.succ_pos _)
  have hsplit : rs0.length = done.length + (rem.length + 1) := by
    rw [h.split, List.length_append, List.length_cons]
  have hnext : logBegin v.fs 0 + 4 * done.length + 4 = logBegin v.fs 0 + 4 * (done ++ [r]).length := by
    rw [List.length_append, List.length_singleton]
    omega
  obtain ⟨reader', x, hread, hx, hs'⟩ := h.read hs (by omega)
  have hget : rs0.getD done.length ⟨0, 0⟩ = r := by
    rw [h.split, List.getD_eq_getElem?_getD, List.getElem?_append_right le_rfl, Nat.sub_self]
    rfl
  rw [PlaceHolds, if_pos (by omega), hget] at hx
  obtain ⟨rfl, herased⟩ := hx
  have hmem : x ∈ rs0 := by rw [h.split]; simp
  have hclean := h.log.clean rs0 (by simp) x hmem
  refine ⟨reader', hs', ?_, herased, hclean, by rw [List.length_append, List.length_singleton]; omega⟩
  rw [compactCopyLoop, if_pos (by omega), bind_of_ok hread, herased, if_neg (by simp), hnext]
  by_cases hhead : x.head = 0
  · have hskip : copiesRecord f (rem ++ later) x = false := by
      rw [copiesRecord, hhead]
      rfl
    rw [if_pos hhead, hskip, if_neg (by simp)]
  · have hslot : x.slot ≠ 0 := by
      refine (IndexRecord.clean_slot hclean).resolve_left fun hclob => ?_
      exact hhead (IndexRecord.clobbered_iff.mp hclob).2
    have hcur := indexRecordIsCurrent_run h.log h.placed h.cache h.split h.later_eq hslot hhead
      fun hm => h.fresh hm x List.mem_cons_self
    rw [if_neg hhead, bind_of_ok hcur]

omit [Opts] in
theorem notMem_copied {r : IndexRecord} (hnewer : r.slot ∉ rem.map IndexRecord.slot)
    (hcopied : ∀ x ∈ rem, x.slot ∉ copied.map IndexRecord.slot) :
    ∀ x ∈ rem, x.slot ∉ (copied ++ [r]).map IndexRecord.slot := by
  intro x hx hin
  rw [List.map_append, List.mem_append] at hin
  rcases hin with hin | hin
  · exact hcopied x hx hin
  · rw [List.map_singleton, List.mem_singleton] at hin
    exact hnewer (hin ▸ List.mem_map_of_mem hx)

theorem CopyState.skipped {r : IndexRecord} (h : CopyState v f rs0 mid cp later copied done (r :: rem)) :
    CopyState v f rs0 mid cp later copied (done ++ [r]) rem :=
  ⟨h.log, h.placed, h.cache, by rw [h.split]; simp, h.later_eq,
    fun hm x hx => h.fresh hm x (List.mem_cons_of_mem _ hx)⟩

/-- The state after a record has been copied. -/
theorem CopyState.appended {r : IndexRecord} {m : Mem}
    (h : CopyState v f rs0 mid cp later copied done (r :: rem))
    (hcopy : copiesRecord f (rem ++ later) r = true) (hsize : m.size = v.dev.mem.size)
    (hlog : LogOn ((v.withMem m []).withNext (v.fs.nextIndexOffset + 4)) (rs0 :: mid ++ [cp ++ [r]])) :
    CopyState ((v.withMem m []).withNext (v.fs.nextIndexOffset + 4)) f rs0 mid (cp ++ [r]) later
      (copied ++ [r]) (done ++ [r]) rem := by
  refine ⟨hlog, h.placed.withLog hsize _, h.cache.congr rfl rfl rfl, h.skipped.split, ?_, fun hm => ?_⟩
  · rw [← List.append_assoc, h.later_eq, List.append_assoc]
  · refine notMem_copied ?_ fun x hx => h.fresh hm x (List.mem_cons_of_mem _ hx)
    rw [copiesRecord, hm, Bool.and_eq_true, Bool.not_eq_true', List.any_append, Bool.or_eq_false_iff,
      List.any_eq_false] at hcopy
    intro hmem
    obtain ⟨x, hx, heq⟩ := List.mem_map.mp hmem
    exact hcopy.2.1 x hx (beq_iff_eq.mpr heq)

/-- A record is copied, and then `k` copies the rest. -/
theorem CopyState.copy {r : IndexRecord} {k : Bool → M Bool}
    (h : CopyState v f rs0 mid cp later copied done (r :: rem))
    (hcopy : copiesRecord f (rem ++ later) r = true) (hroom : cp.length < recordPlaces v.fs)
    (herased : r.erased = false) (hclean : r.clean v.fs = true)
    (hrest : ∀ m, CopyState ((v.withMem m []).withNext (v.fs.nextIndexOffset + 4)) f rs0 mid (cp ++ [r])
        later (copied ++ [r]) (done ++ [r]) rem →
      CopyRun ((v.withMem m []).withNext (v.fs.nextIndexOffset + 4)) rs0 mid (cp ++ [r])
        (keptRecords f later rem) pending
        ((k pending).run ((v.withMem m []).withNext (v.fs.nextIndexOffset + 4)))) :
    CopyRun v rs0 mid cp (r :: keptRecords f later rem) pending
      ((indexRecordWriterAppend pending r.slot r.head >>= k).run v) := by
  have hlt := (h.log.records 0 (Nat.succ_pos _)).lt r (by
    change r ∈ rs0
    rw [h.split]
    simp)
  obtain ⟨m, happend, hsame, hlog⟩ := @indexRecordWriterAppend_run _ _ pending _ _ h.log
    h.placed hroom hlt.1 hlt.2 herased hclean
  obtain ⟨m', hrun, hsame', hlog'⟩ := hrest m (h.appended hcopy hsame.size hlog)
  have hadd : v.fs.nextIndexOffset + 4 + 4 * (keptRecords f later rem).length =
      v.fs.nextIndexOffset + 4 * (r :: keptRecords f later rem).length := by
    rw [List.length_cons]
    omega
  have hworld : (((v.withMem m []).withNext (v.fs.nextIndexOffset + 4)).withMem m' []).withNext
      (v.fs.nextIndexOffset + 4 + 4 * (keptRecords f later rem).length) =
        (v.withMem m' []).withNext
          (v.fs.nextIndexOffset + 4 * (r :: keptRecords f later rem).length) := by
    rw [hadd]
    rfl
  have hat := h.log.next_eq
  have hlast := logEnd_eq h.placed.size h.placed.aligned (rs0 :: mid).length
  rw [(h.log.logBegin_last h.placed).1, (h.log.logBegin_last h.placed).2] at hlast
  refine ⟨m', ?_, ?_, ?_⟩
  · rw [bind_of_ok happend, ← hworld]
    exact hrun
  · exact (hsame.mono (by omega) (by omega)).trans hsame'
  · have hassoc : cp ++ r :: keptRecords f later rem = cp ++ [r] ++ keptRecords f later rem := by
      simp
    rw [← hworld, hassoc]
    exact hlog'

/-- The loop of `index_compact_oldest_copy`, from the record after `done` on, when the
active sector takes what it copies. -/
theorem compactCopyLoop_run {fuel : Nat} (h : CopyState v f rs0 mid cp later copied done rem)
    (hs : reader.Shows v.fs rs0) (hroom : cp.length + (keptRecords f later rem).length ≤ recordPlaces v.fs)
    (hfuel : recordPlaces v.fs - done.length < fuel) :
    CopyRun v rs0 mid cp (keptRecords f later rem) pending
      ((compactCopyLoop (logEnd v.fs 0) fuel reader (logBegin v.fs 0 + 4 * done.length) pending).run v) := by
  induction rem generalizing v done cp copied fuel reader with
  | nil =>
    rw [h.stop hs hfuel]
    exact CopyRun.stop h.log h.placed.plan
  | cons r rem ih =>
    obtain ⟨fuel, rfl⟩ : ∃ n, fuel = n + 1 := ⟨fuel - 1, by omega⟩
    obtain ⟨reader', hs', hstep, herased, hclean, hfuel'⟩ := h.step hs hfuel pending
    rw [keptRecords] at hroom ⊢
    rw [hstep]
    by_cases hcopy : copiesRecord f (rem ++ later) r = true
    · rw [if_pos hcopy, List.length_cons] at hroom
      rw [if_pos hcopy, if_pos hcopy]
      refine h.copy hcopy (by omega) herased hclean fun m hstate => ?_
      refine ih hstate hs' ?_ hfuel'
      rw [List.length_append, List.length_singleton]
      exact (show cp.length + 1 + (keptRecords f later rem).length ≤ recordPlaces v.fs by omega)
    · rw [if_neg hcopy] at hroom
      rw [if_neg hcopy, if_neg hcopy]
      exact ih h.skipped hs' hroom hfuel'

end Copy

end Fastffs
