import Fastffs.FailedAppends
import Fastffs.IndexHistory

/-!
# The index in RAM and the log on the flash

`flashMap` is the fold of the records that the flash holds, from the oldest index sector
to the active one.  It is the map in RAM in every state of a run whose appends find room
in the index cache and whose mounts find the sequence that the run has written
(`ram_index_is_log`).
-/

namespace Fastffs

open Prog
open Nor (Mem Byte blank)

/-! ## The log on the flash -/

/-- The records of a sector, from the place `off` on up to the first free one of `n`. -/
def sectorRecords (m : Mem) : Nat → Nat → List IndexRecord
  | 0, _ => []
  | n + 1, off =>
      if (recordAt m off).erased then [] else recordAt m off :: sectorRecords m n (off + 4)

/-- The records on the flash, from the oldest index sector to the active one. -/
def flashLog (w : World) : List IndexRecord :=
  ((List.range w.fs.indexSequenceCount).map fun k =>
    sectorRecords w.dev.mem (recordPlaces w.fs) (logBegin w.fs k)).flatten

/-- The records in the active index sector. -/
def activeRecords (w : World) : List IndexRecord :=
  sectorRecords w.dev.mem (recordPlaces w.fs) (indexSectorBegin w.fs w.fs.activeIndexSector)

/-- The head that the records on the flash give each slot. -/
def flashMap (w : World) : Nat → Nat := logMap (flashLog w)

section Fold

variable {w w' : World} {logs : List (List IndexRecord)} {m : Mem}

theorem recordAt_blank {off : Nat} (h : ∀ i, off ≤ i → i < off + 4 → Nor.get m i = blank) :
    (recordAt m off).erased = true := by
  have hread : Nor.read m off 4 = List.replicate 4 blank := Nor.read_eq_blanks h
  rw [recordAt, hread]
  rfl

theorem sectorRecords_eq {rs : List IndexRecord} {n off : Nat} (h : Records m off rs) (hlen : rs.length ≤ n)
    (hfree : freeFrom m (off + 4 * rs.length) (off + 4 * n) = true) : sectorRecords m n off = rs := by
  induction rs generalizing n off with
  | nil =>
    cases n with
    | zero => rfl
    | succ n =>
      rw [freeFrom_iff] at hfree
      rw [sectorRecords, if_pos]
      exact recordAt_blank fun i h1 h2 => hfree i (by rw [List.length_nil]; omega) (by omega)
  | cons r rs ih =>
    rw [List.length_cons] at hlen hfree
    obtain ⟨n, rfl⟩ : ∃ k, n = k + 1 := ⟨n - 1, by omega⟩
    obtain ⟨hr, hne, hrest⟩ := h
    rw [sectorRecords, hr, if_neg (by rw [hne]; exact Bool.false_ne_true)]
    rw [ih hrest (by omega)]
    rw [show off + 4 + 4 * rs.length = off + 4 * (rs.length + 1) by omega,
      show off + 4 + 4 * n = off + 4 * (n + 1) by omega]
    exact hfree

/-- The records on the flash are those of the log. -/
theorem LogOn.flashLog_eq (h : LogOn w logs) (hp : LogPlaced w) : flashLog w = logs.flatten := by
  rw [flashLog]
  congr 1
  refine List.ext_getElem (by simp [h.count]) fun k hk hk' => ?_
  rw [List.getElem_map, List.getElem_range]
  have hget : logs.getD k [] = logs[k] := by
    rw [List.getD_eq_getElem?_getD, List.getElem?_eq_getElem hk', Option.getD_some]
  rw [← hget]
  refine sectorRecords_eq (h.records k hk') (h.room k hk') ?_
  rw [← logEnd_eq hp.size hp.aligned k]
  exact h.free k hk'

theorem LogOn.activeRecords_eq {ls : List (List IndexRecord)} {rs : List IndexRecord}
    (h : LogOn w (ls ++ [rs])) (hp : LogPlaced w) : activeRecords w = rs := by
  obtain ⟨hbegin, -⟩ := h.logBegin_last hp
  have hlast : ls.length < (ls ++ [rs]).length := by rw [length_append_last]; omega
  have hrecords := h.records ls.length hlast
  have hroom := h.room ls.length hlast
  have hfree := h.free ls.length hlast
  rw [getD_last] at hrecords hroom hfree
  rw [logEnd_eq hp.size hp.aligned] at hfree
  rw [activeRecords, ← hbegin]
  exact sectorRecords_eq hrecords hroom hfree

theorem FlashLog.flashMap_eq (h : FlashLog w logs) : flashMap w = logMap logs.flatten := by
  rw [flashMap, h.log.flashLog_eq h.placed]

end Fold

/-! ## Data writes -/

section Area

variable {w w' : World} {logs : List (List IndexRecord)}

/-- A step of the data area leaves the log. -/
theorem FlashLog.ofArea (h : FlashLog w logs)
    (hs : SameArea (w.fs.indexSectors * w.fs.sectorSize) w w') : FlashLog w' logs := by
  have hview := fun {α : Type} (view : Fs → α) (hv : ∀ fs, view (indexFs fs) = view fs) =>
    indexFs_view hs.index view hv
  have hring := hview Fs.ring fun _ => rfl
  have hS := hview Fs.sectorSize fun _ => rfl
  have hN := hview Fs.indexSectors fun _ => rfl
  have hA := hview Fs.activeIndexSector fun _ => rfl
  have hshift := hview Fs.sectorShift fun _ => rfl
  have hC := hview Fs.indexSequenceCount fun _ => rfl
  have hsize : w'.dev.size = w.dev.size := hs.size
  have hr := h.ring
  have hp := h.placed
  refine ⟨{
      wf := hring ▸ hr.wf
      active_eq := by
        rw [hA, hring]
        exact hr.active_eq
      shift_le := hshift ▸ hr.shift_le
      sectorSize_eq := by
        rw [hS, hshift]
        exact hr.sectorSize_eq
      fits := by
        rw [hN, hS, hsize]
        exact hr.fits
      aligned := by
        rw [hS, hsize]
        exact hr.aligned
      granule_pos := hs.granule ▸ hr.granule_pos
      next_ge := by
        rw [hA, hS, hview Fs.nextIndexOffset fun _ => rfl]
        exact hr.next_ge
      blank_of_pending := False.elim
      headers := fun i hi hpend => ?_
      count_lt := by
        rw [hC, hN]
        exact hr.count_lt }, ⟨hs.plan h.works.plan, ?_, ?_⟩, ?_, ?_, ?_, ?_⟩
  · rw [hN] at hi
    rw [hS, hring, hN, hshift, ← hr.headers i hi False.elim, Nor.read_congr]
    intro j h1 h2
    have hle := Nat.mul_le_mul_right w.fs.sectorSize (Nat.succ_le_of_lt hi)
    rw [Nat.succ_eq_add_one, Nat.add_mul, Nat.one_mul] at hle
    have hge := hp.size
    rw [headerSize] at h2
    exact hs.area j (by omega)
  · rw [hview Fs.scratchSize fun _ => rfl]
    exact h.works.scratch
  · rw [hsize, hs.granule]
    exact h.works.granule_mod
  · change w'.fs.ring.place 0 < w'.fs.indexSequenceCount ∨ w'.fs.ring.place 1 < w'.fs.indexSequenceCount
    rw [hring, hC]
    exact h.located
  · rw [hview Fs.sectorCount fun _ => rfl, hsize, hS]
    exact h.sectorCount
  · rw [hview Fs.sectorCount fun _ => rfl]
    exact h.sectorCount_le
  · refine h.log.congr (hview logView fun _ => rfl) (fun k hk i _ h2 => hs.area i ?_) fun k =>
      (logEnd_eq hp.size hp.aligned k).ge
    have hlt := logicalIndexSector_lt hp.sectors_pos k
    have hle := Nat.mul_le_mul_right w.fs.sectorSize (Nat.succ_le_of_lt hlt)
    rw [logEnd] at h2
    exact Nat.lt_of_lt_of_le h2 hle

variable [Opts]

omit [Opts] in
theorem SameArea.tableSize {limit : Nat} (hs : SameArea limit w w') :
    w'.fs.indexHashTableSize = w.fs.indexHashTableSize :=
  indexFs_view hs.index Fs.indexHashTableSize fun _ => rfl

/-- A step of the data area leaves the cache. -/
theorem CacheIs.ofArea {f : Nat → Nat} {limit : Nat} (h : CacheIs w.fs f) (hs : SameArea limit w w') :
    CacheIs w'.fs f :=
  h.congr hs.tableSize (indexFs_view hs.index Fs.buckets fun _ => rfl)
    (indexFs_view hs.index Fs.indexHeads fun _ => rfl)

theorem RunState.ofArea (h : RunState w logs)
    (hs : SameArea (w.fs.indexSectors * w.fs.sectorSize) w w') : RunState w' logs := by
  refine ⟨h.toFlashLog.ofArea hs, h.cache.ofArea hs, ?_⟩
  rw [hs.tableSize]
  exact h.fits

end Area

/-! ## Mounting again -/

section Again

variable {w : World} {logs ls : List (List IndexRecord)} {rs : List IndexRecord} {r : IndexRecord}

/-- The world without the last record of its log. -/
def shortenedWorld (w : World) : World :=
  (w.withMem (Nor.erase w.dev.mem (w.fs.nextIndexOffset - 4) 4) []).withNext (w.fs.nextIndexOffset - 4)

theorem FlashLog.shortened (h : FlashLog w (ls ++ [rs ++ [r]])) :
    FlashLog (shortenedWorld w) (ls ++ [rs]) ∧ SameData w (shortenedWorld w) ∧
      SameOutside (w.fs.nextIndexOffset - 4) (w.fs.nextIndexOffset - 4 + 4) (shortenedWorld w).dev.mem
        w.dev.mem ∧
      recordAt w.dev.mem (w.fs.nextIndexOffset - 4) = r ∧ r.erased = false ∧
      w.fs.nextIndexOffset ≤ (w.fs.activeIndexSector + 1) * w.fs.sectorSize ∧
      r.clean w.fs = true := by
  have hp := h.placed
  have hr := h.ring
  have hlast : ls.length < (ls ++ [rs ++ [r]]).length := by rw [length_append_last]; omega
  obtain ⟨hbegin, hend⟩ := h.log.logBegin_last hp
  have hnext := h.log.next_eq
  rw [List.length_append, List.length_singleton] at hnext
  have hplaces := logEnd_eq hp.size hp.aligned ls.length
  rw [hbegin, hend] at hplaces
  have hroom := h.log.room ls.length hlast
  have hrecords := h.log.records ls.length hlast
  have hfree := h.log.free ls.length hlast
  rw [getD_last, List.length_append, List.length_singleton] at hroom
  rw [getD_last, hbegin] at hrecords
  rw [getD_last, hbegin, hend, List.length_append, List.length_singleton] at hfree
  obtain ⟨hrs, hrec, hne, -⟩ := Records.append_iff.mp hrecords
  have hclean := h.log.clean _ (List.mem_append_right _ List.mem_cons_self)
  generalize hq : w.fs.nextIndexOffset - 4 = q at *
  have hq' : q = indexSectorBegin w.fs w.fs.activeIndexSector + 4 * rs.length := by omega
  have hout : SameOutside q (q + 4) w.dev.mem (Nor.erase w.dev.mem q 4) :=
    ⟨Nor.size_erase _ _ _, fun i hi => by rw [Nor.get_erase, if_neg (by omega)]⟩
  have hworld : shortenedWorld w = (w.withMem (Nor.erase w.dev.mem q 4) []).withNext q := by
    rw [shortenedWorld, hq]
  have hdata : SameData w (shortenedWorld w) := by
    rw [hworld]
    exact ⟨h.works.plan, rfl, hout.size, rfl, rfl, rfl, fun i hi => hout.data hr.active_lt (by omega) hi⟩
  have hlog : LogOn (shortenedWorld w) (ls ++ [rs]) := by
    rw [hworld]
    refine h.log.replaceLast hp ?_ (hout.mono (by omega) (by omega)) ?_ (by omega) ?_ ?_
    · rw [← hq']
      rfl
    · exact hrs.congr fun i _ h2 => hout.get i (.inl (by omega))
    · rw [freeFrom_iff] at hfree ⊢
      intro i h1 h2
      change Nor.get (Nor.erase w.dev.mem q 4) i = blank
      rw [Nor.get_erase]
      split
      · rfl
      · exact hfree i (by omega) h2
    · exact fun x hx => hclean x (List.mem_append_left _ hx)
  have hring : RingFree (shortenedWorld w) := by
    rw [hworld]
    have hq1 : w.fs.activeIndexSector * sectorSizeOf w.fs.sectorShift + headerSize ≤ q := by
      rw [← hr.sectorSize_eq, hq', indexSectorBegin]
      omega
    have hq2 : q + 4 ≤ (w.fs.activeIndexSector + 1) * sectorSizeOf w.fs.sectorShift := by
      rw [← hr.sectorSize_eq]
      omega
    have hheaders : HeadersOf (Nor.erase w.dev.mem q 4) w.fs.ring w.fs.sectorShift :=
      HeadersOf.atEnd hr.headersOf hq1 hq2 hout
    exact { hr with
      fits := by
        change _ ≤ (Nor.erase w.dev.mem q 4).size
        rw [hout.size]
        exact hr.fits
      aligned := by
        change (Nor.erase w.dev.mem q 4).size % _ = 0
        rw [hout.size]
        exact hr.aligned
      next_ge := by
        change w.fs.activeIndexSector * w.fs.sectorSize + headerSize ≤ q
        rw [hr.sectorSize_eq]
        exact hq1
      blank_of_pending := False.elim
      headers := fun i hi _ => by
        change validIndexHeader (Nor.read (Nor.erase w.dev.mem q 4) (i * w.fs.sectorSize) headerSize) = _
        rw [hr.sectorSize_eq]
        exact hheaders i hi }
  refine ⟨h.ofData hring hdata rfl rfl h.located hlog, hdata, ?_, ?_, hne, by omega,
    hclean r (List.mem_append_right _ List.mem_cons_self)⟩
  · rw [hworld]
    exact ⟨hout.size.symm, fun i hi => (hout.get i hi).symm⟩
  · rw [hq']
    exact hrec

variable [Opts] {w' y : World} {o : MountOptions}

omit [Opts] in
/-- The last record of a log that has no live root. -/
theorem FlashLog.dead_tail (h : FlashLog w logs) (hdead : ¬ tailLive w (logs.getLast?.getD [])) :
    ∃ ls rs r, logs = ls ++ [rs ++ [r]] ∧ r.meaningless w = true ∧ ¬ r.clobbered = true := by
  obtain ⟨ls, rs, rfl⟩ := h.logs_split
  rw [getLast_append, tailLive, not_forall] at hdead
  obtain ⟨r, hdead⟩ := hdead
  rw [Classical.not_imp, not_or] at hdead
  obtain ⟨hlast, hne, hroot⟩ := hdead
  obtain ⟨rs', rfl⟩ := List.getLast?_eq_some_iff.mp hlast
  refine ⟨ls, rs', r, rfl, ?_, ?_⟩
  · rw [IndexRecord.meaningless, Bool.or_eq_true, Bool.and_eq_true, Bool.not_eq_true', bne_iff_ne]
    exact .inr ⟨hne, Bool.eq_false_of_not_eq_true hroot⟩
  · rw [IndexRecord.clobbered_iff]
    exact fun hclob => hne hclob.2

omit [Opts] in
theorem FlashLog.shortened_free (h : FlashLog w (ls ++ [rs ++ [r]])) :
    ¬ indexSectorIsFull (shortenedWorld w).fs = true := by
  obtain ⟨-, -, -, -, -, hle, -⟩ := h.shortened
  have hnext := h.log.next_eq
  rw [List.length_append, List.length_singleton] at hnext
  rw [indexSectorIsFull, decide_eq_true_eq]
  change ¬ w.fs.nextIndexOffset - 4 + 4 > (w.fs.activeIndexSector + 1) * w.fs.sectorSize
  omega

/-- A mount that succeeds on the flash of a run restores a log and its map. -/
theorem FlashLog.mounted_again (h : FlashLog w logs) (hord : w.fs.ring.Ordered)
    (hno : noEarlierSequence w.dev.mem w.fs.sectorShift) (hy : y.dev = w.dev)
    (hrun : (mount o).run y = (.ok (), w')) : ∃ logs', RunState w' logs' ∧ SameData w w' := by
  obtain ⟨-, hok, -⟩ := mount_settled hrun
  have hplan : y.dev.plan = [] := by
    rw [hy]
    exact h.works.plan
  have hrun1 : ((mount o).run y).1 = .ok () := by rw [hrun]
  by_cases htail : tailLive w (logs.getLast?.getD [])
  · have hm : Restores y.dev.mem (w.fs.ring.sequence w.fs.sectorShift) w := by
      rw [hy]
      exact h.restores hord h.ring.keepsIndex hno
    have hfits := h.mount_fits htail hplan (by rw [hy]) hm hok hrun1
    obtain ⟨u, hu, hstate, hsame⟩ := h.mount_run htail hplan (by rw [hy]) hm hok hfits
    rw [hrun] at hu
    cases hu
    exact ⟨logs, hstate, hsame⟩
  · obtain ⟨ls, rs, r, rfl, hmean, hclob⟩ := h.dead_tail htail
    obtain ⟨hv, hdata, hout, hrec, hne, -⟩ := h.shortened
    rw [← IndexRecord.meaningless_congr hdata, ← hrec] at hmean
    rw [← hrec] at hne hclob
    rw [← hy] at hout hne hclob hmean hno
    have hgran : y.dev.programGranule = (shortenedWorld w).dev.programGranule := by
      rw [hy]
      rfl
    obtain ⟨hstrict, hfits⟩ := hv.torn_fits hord h.shortened_free hout hne hmean hclob hplan hgran hno hok hrun1
    obtain ⟨u, logs', hu, hstate, hsame, -⟩ := hv.mount_torn hord h.shortened_free hout hne hmean hplan hgran
      hno hok hstrict hfits
    rw [hrun] at hu
    cases hu
    exact ⟨logs', hstate, hdata.trans hsame⟩

/-- A mount of the flash of a run succeeds, if the log fits its table.  A strict one needs
a live root for the last record. -/
theorem FlashLog.mounts_again (h : FlashLog w logs) (hord : w.fs.ring.Ordered)
    (hno : noEarlierSequence w.dev.mem w.fs.sectorShift) (hok : mountOptionsOk w o)
    (hfits : cacheFits o.indexHashTableSize logs.flatten)
    (hstrict : o.strict = true → tailLive w (logs.getLast?.getD [])) :
    ((mount o).run w).1 = .ok () := by
  by_cases htail : tailLive w (logs.getLast?.getD [])
  · obtain ⟨u, hu, -⟩ := h.mount_run htail h.works.plan rfl (h.restores hord h.ring.keepsIndex hno) hok hfits
    rw [hu]
  · obtain ⟨ls, rs, r, rfl, hmean, hclob⟩ := h.dead_tail htail
    obtain ⟨hv, hdata, hout, hrec, hne, -⟩ := h.shortened
    rw [← IndexRecord.meaningless_congr hdata, ← hrec] at hmean
    rw [← hrec] at hne hclob
    have hfits' : cacheFits o.indexHashTableSize (ls ++ [rs]).flatten := by
      intro hmode
      refine (hfits hmode).initial ⟨[r.entry], ?_⟩
      rw [← List.map_singleton, ← List.map_append]
      congr 1
      simp
    obtain ⟨u, logs', hu, -⟩ := hv.mount_torn hord h.shortened_free hout hne hmean h.works.plan rfl hno hok
      (Bool.eq_false_of_not_eq_true fun hs => htail (hstrict hs)) hfits'
    rw [hu]

end Again

/-! ## The start of a run -/

section Start

variable [Opts] {v w' y : World} {o : MountOptions} {n shift : Nat}

/-- A formatted flash holds the empty log. -/
theorem Formatted.flashLog (hf : Formatted v.dev n shift) (hplan : v.dev.plan = [])
    (hfs : v.fs = mountedFs v.dev.size o (freshSequence n shift)) (hok : mountOptionsOk v o)
    (hsmall : v.dev.size / sectorSizeOf shift ≤ uint16Max) : FlashLog v [[]] := by
  have hring := hf.ringFree hfs
  have hS : v.fs.sectorSize = sectorSizeOf shift := by rw [hfs]; rfl
  have hcount : v.fs.sectorCount = v.dev.size / sectorSizeOf shift := by rw [hfs]; rfl
  have hscratch := hok.2.2
  have hbackend := hok.1
  rw [minScratchSize] at hscratch
  rw [validBackend, Bool.and_eq_true, decide_eq_true_eq] at hbackend
  have hbegin : indexSectorBegin v.fs v.fs.activeIndexSector = headerSize := by
    rw [hfs, indexSectorBegin]
    exact (congrArg (· + headerSize) (Nat.zero_mul _)).trans (Nat.zero_add _)
  have hlogical : ∀ k < 1, logicalIndexSector v.fs k = 0 := by
    intro k hk
    obtain rfl : k = 0 := by omega
    rw [hfs]
    exact Nat.zero_mod _
  refine ⟨hring, ⟨hplan, ?_, hbackend.2⟩, ?_, ?_, ?_, ?_⟩
  · rw [hfs]
    exact (show 4 ≤ o.scratchSize by omega)
  · rw [hfs]
    exact .inl Nat.zero_lt_one
  · rw [hcount, hS]
  · rw [hcount]
    exact hsmall
  · refine ⟨by rw [hfs]; rfl, fun k hk => ?_, fun k hk => ?_, fun k hk => ?_, ?_, ?_⟩
    · rw [List.length_singleton] at hk
      obtain rfl : k = 0 := by omega
      trivial
    · rw [List.length_singleton] at hk
      obtain rfl : k = 0 := by omega
      exact Nat.zero_le _
    · rw [List.length_singleton] at hk
      rw [freeFrom_iff, logBegin, logEnd, hlogical k hk, hS]
      intro i h1 h2
      rw [indexSectorBegin, Nat.zero_mul] at h1
      rw [Nat.zero_add, Nat.one_mul] at h2
      have hge := hf.sectors_ge
      have hle := (Nat.le_mul_of_pos_left (sectorSizeOf shift) (show 0 < n by omega)).trans hf.fits
      exact hf.blank_after i (by omega) (by omega)
    · intro rs hrs r hr
      rw [List.mem_singleton.mp hrs] at hr
      cases hr
    · rw [hbegin, hfs]
      exact (congrArg (· + headerSize) (Nat.zero_mul _)).trans (Nat.zero_add _)

/-- The first mount of a formatted flash. -/
theorem format_mounted {options : FormatOptions} {w0 w1 : World} (hplan : w0.dev.plan = [])
    (hformat : (format options).run w0 = (.ok (), w1)) (hy : y.dev = w1.dev)
    (hmount : (mount o).run y = (.ok (), w')) :
    ∃ logs shift, RunState w' logs ∧ formatSectorShift options.sectorSize = some shift ∧
      w'.fs.sectorSize = sectorSizeOf shift ∧ w'.fs.indexSectors = options.sectors := by
  obtain ⟨shift, hshift, hf, hplan1⟩ := format_formatted hformat
  generalize options.sectors = n at hf ⊢
  obtain ⟨-, hok, -⟩ := mount_settled hmount
  rw [← hy] at hf
  have hplany : y.dev.plan = [] := by
    rw [hy]
    exact hplan1 hplan
  -- the mount finds the sequence that the format has written
  have hfound : findSequence y.dev.mem = some (freshSequence n shift) := by
    have hrun := hf.findIndexSequence hplany
    rw [findIndexSequence_findSequence hplany] at hrun
    cases hseq : findSequence y.dev.mem with
    | none =>
      rw [hseq] at hrun
      cases hrun
    | some seq =>
      rw [hseq] at hrun
      exact congrArg some (Except.ok.inj (congrArg Prod.fst hrun))
  have hsmall : y.dev.size / sectorSizeOf shift ≤ uint16Max := by
    have hrun : ((mount o).run y).1 = .ok () := by rw [hmount]
    rw [mount_run hplany hok] at hrun
    cases hseq : mountable y.dev.mem with
    | none =>
      rw [hseq] at hrun
      cases hrun
    | some seq =>
      rw [mountable, hfound, Option.filter_eq_some_iff, decide_eq_true_eq] at hseq
      obtain ⟨hseq, hle⟩ := hseq
      rw [← Option.some.inj hseq] at hle
      exact hle
  obtain ⟨-, -, hno, -⟩ := findSequence_iff.mp hfound
  let v : World := { y with fs := mountedFs y.dev.size o (freshSequence n shift) }
  have hv : FlashLog v [[]] := @Formatted.flashLog _ v o n shift hf hplany rfl hok hsmall
  obtain ⟨logs, hstate, hsame⟩ :=
    @FlashLog.mounted_again v [[]] _ w' y o hv (.inr (show 1 ≤ 9 by decide)) hno rfl hmount
  exact ⟨logs, shift, hstate, hshift, hsame.sectorSize, hsame.indexSectors⟩

end Start

/-! ## Runs -/

section Runs

variable [Opts] {v w : World} {es : List IndexEvent}

/-- The options that a file system was mounted with. -/
def Fs.options (fs : Fs) : MountOptions := ⟨fs.indexHashTableSize, fs.scratchSize, fs.strict⟩

/-- An append of a slot that a name can have, which the index cache can take, or a mount
of a flash on which the sequence of the run is the one that is found. -/
def IndexEvent.regular : IndexEvent → Prop
  | .append w slot head => NameSlot slot ∧ tableRoom w ⟨slot, head⟩
  | .mount w _ => noEarlierSequence w.dev.mem w.fs.sectorShift ∧ w.fs.ring.Ordered

/-- An append that returns an error leaves the fold of the records. -/
def IndexEvent.foldKept : IndexEvent → Prop
  | .append w slot head => ((appendIndexRecord slot head).run w).1 ≠ .ok () →
      flashMap ((appendIndexRecord slot head).run w).2 = flashMap w
  | .mount _ _ => True

theorem mountOptionsOk_congr {w w' : World} {o : MountOptions} (h : mountOptionsOk w o)
    (hsize : w'.dev.size = w.dev.size) (hgranule : w'.dev.programGranule = w.dev.programGranule) :
    mountOptionsOk w' o :=
  ⟨(validBackend_congr hsize hgranule).trans h.1, h.2⟩

/-- One append that the cache can take. -/
theorem RunState.appended {logs : List (List IndexRecord)} {slot head : Nat} (h : RunState w logs)
    (hwritten : Written w.fs.indexSectors w.fs.sectorCount slot head)
    (hreg : (IndexEvent.append w slot head).regular) :
    (∃ logs', RunState ((appendIndexRecord slot head).run w).2 logs') ∧
      (IndexEvent.append w slot head).foldKept := by
  obtain ⟨hslot, hroom⟩ := hreg
  have ha : Writable w.fs ⟨slot, head⟩ := ⟨hslot.1, hslot.2, hwritten.2.imp (fun hw => hw.1) id⟩
  obtain ⟨w', logs', hstate, -, ⟨hrun, -⟩ | ⟨hrun, hmap⟩⟩ := h.append_run ha hroom
  · rw [IndexEvent.foldKept, hrun]
    exact ⟨⟨logs', hstate⟩, fun hne => absurd rfl hne⟩
  · rw [IndexEvent.foldKept, hrun]
    refine ⟨⟨logs', hstate⟩, fun _ => ?_⟩
    rw [hstate.flashMap_eq, h.flashMap_eq, hmap]

/-- What a history of regular calls keeps. -/
theorem History.runState (h : History v es w) (hv : ∃ logs, RunState v logs)
    (hok : mountOptionsOk v v.fs.options) (hreg : ∀ e ∈ es, e.regular) :
    (∃ logs, RunState w logs) ∧ mountOptionsOk w w.fs.options ∧ ∀ e ∈ es, e.foldKept := by
  induction h with
  | start => exact ⟨hv, hok, nofun⟩
  | data hes hsame ih =>
    obtain ⟨⟨logs, hstate⟩, hopt, hkept⟩ := ih hreg
    refine ⟨⟨logs, hstate.ofArea hsame⟩, ?_, hkept⟩
    rw [show Fs.options _ = _ from indexFs_view hsame.index Fs.options fun _ => rfl]
    exact mountOptionsOk_congr hopt hsame.size hsame.granule
  | @append es u slot head hes hwritten ih =>
    obtain ⟨⟨logs, hstate⟩, hopt, hkept⟩ := ih fun e he => hreg e (List.mem_append_left _ he)
    obtain ⟨hstate', hfold⟩ := hstate.appended hwritten
      (hreg _ (List.mem_append_right _ (List.mem_singleton.mpr rfl)))
    have hsame := (inferInstance : Keeps (SameCaller u) (appendIndexRecord slot head)).keeps u (.refl u)
    refine ⟨hstate', ?_, fun e he => ?_⟩
    · rw [Fs.options, hsame.tableSize, hsame.scratchSize, hsame.strict]
      exact mountOptionsOk_congr hopt hsame.size hsame.granule
    · rcases List.mem_append.mp he with he | he
      · exact hkept e he
      · rw [List.mem_singleton.mp he]
        exact hfold
  | @mount es u w' options hes hrun ih =>
    obtain ⟨⟨logs, hstate⟩, -, hkept⟩ := ih fun e he => hreg e (List.mem_append_left _ he)
    obtain ⟨hno, hord⟩ := hreg _ (List.mem_append_right _ (List.mem_singleton.mpr rfl))
    rw [remount_run] at hrun
    obtain ⟨hset, -, -⟩ := mount_settled hrun
    have hopt : w'.fs.options = options := by
      rw [Fs.options, hset.tableSize, hset.scratchSize, hset.strict]
    obtain ⟨logs', hstate', -⟩ :=
      hstate.mounted_again (y := { u with fs := {}, files := fun _ => {} }) hord hno rfl hrun
    refine ⟨⟨logs', hstate'⟩, ?_, fun e he => ?_⟩
    · rw [hopt]
      exact hset.options
    · rcases List.mem_append.mp he with he | he
      · exact hkept e he
      · rw [List.mem_singleton.mp he]
        trivial

/-- The file system that a mount makes of a formatted chip. -/
theorem remount_started {format_ : FormatOptions} {mount_ : MountOptions} {w0 w1 w2 : World}
    (hplan : w0.dev.plan = []) (hformat : (format format_).run w0 = (.ok (), w1))
    (hmount : (remount mount_).run w1 = (.ok (), w2)) :
    (∃ logs shift, RunState w2 logs ∧ formatSectorShift format_.sectorSize = some shift ∧
      w2.fs.sectorSize = sectorSizeOf shift ∧ w2.fs.indexSectors = format_.sectors) ∧
      mountOptionsOk w2 w2.fs.options := by
  rw [remount_run] at hmount
  obtain ⟨logs, shift, hstart, hshift, hS, hN⟩ :=
    format_mounted (y := { w1 with fs := {}, files := fun _ => {} }) hplan hformat rfl hmount
  obtain ⟨hset, -, -⟩ := mount_settled hmount
  have hopt : w2.fs.options = mount_ := by
    rw [Fs.options, hset.tableSize, hset.scratchSize, hset.strict]
  exact ⟨⟨logs, shift, hstart, hshift, hS, hN⟩, hopt ▸ hset.options⟩

/-- A mount finds the sequence of the run, and a strict one finds a live root for the last
record of the active sector. -/
def remountable (w : World) : Prop :=
  noEarlierSequence w.dev.mem w.fs.sectorShift ∧ w.fs.ring.Ordered ∧
    (w.fs.strict = true → tailLive w (activeRecords w))

/-- In a run on a device that never fails, whose appends are taken by the index cache and
whose mounts find the sequence of the run, the map in RAM is the fold of the records on
the flash, an append that returns an error leaves that fold, and a mount with the same
options succeeds. -/
theorem ram_index_is_log {format_ : FormatOptions} {mount_ : MountOptions} {w0 w1 w2 : World}
    (hplan : w0.dev.plan = []) (hformat : (format format_).run w0 = (.ok (), w1))
    (hmount : (remount mount_).run w1 = (.ok (), w2)) (hrun : Steps stepOp legalOp w2 w) :
    (∃ es, History w2 es w) ∧ ∀ es, History w2 es w → (∀ e ∈ es, e.regular) →
      slotMap w = flashMap w ∧ (∀ e ∈ es, e.foldKept) ∧
        (remountable w → ((mount w.fs.options).run w).1 = .ok ()) := by
  refine ⟨run_history hmount hrun, fun es hes hreg => ?_⟩
  obtain ⟨⟨logs2, -, hstart, -⟩, hopt⟩ := remount_started hplan hformat hmount
  obtain ⟨⟨logs, hstate⟩, hok, hkept⟩ := hes.runState ⟨logs2, hstart⟩ hopt hreg
  refine ⟨?_, hkept, fun ⟨hno, hord, hstrict⟩ => ?_⟩
  · rw [hstate.slotMap_eq, hstate.flashMap_eq]
  · refine hstate.mounts_again hord hno hok hstate.fits fun hs => ?_
    obtain ⟨ls, rs, rfl⟩ := hstate.logs_split
    rw [getLast_append, ← hstate.log.activeRecords_eq hstate.placed]
    exact hstrict hs

omit [Opts] in
instance (w : World) : Decidable (remountable w) := by
  have (rs : List IndexRecord) : Decidable (tailLive w rs) :=
    decidable_of_iff (∀ r ∈ rs.getLast?, r.head = 0 ∨ rootIsLive w r.slot r.head = true) Iff.rfl
  unfold remountable; infer_instance

instance (slot : Nat) : Decidable (NameSlot slot) := inferInstanceAs (Decidable (_ ∧ _))

instance (n c slot head : Nat) : Decidable (Written n c slot head) := by
  unfold Written InData; infer_instance

instance (w : World) (r : IndexRecord) : Decidable (tableRoom w r) := by
  unfold tableRoom hashRoom; infer_instance

instance (e : IndexEvent) : Decidable e.regular := by
  cases e with
  | append w slot head => exact inferInstanceAs (Decidable (NameSlot slot ∧ tableRoom w ⟨slot, head⟩))
  | mount w options =>
    exact inferInstanceAs (Decidable (noEarlierSequence w.dev.mem w.fs.sectorShift ∧ w.fs.ring.Ordered))

/-- The bytes of a file whose second sector starts with the header of an index sector of the size
`256 * 2 ^ shift`. -/
def headerFile (shift : Nat) : List Byte :=
  List.replicate 227 blank ++ ((encodeIndexHeader 2 shift 0).take 7 ++ [indexFlagsValid])

/-- A file with a header of 2048 bytes, and another one that is created and deleted until the index has
no place for the last delete. -/
def fillRun : List Op :=
  [.openFile 0 [97#8] writeFlags, .write 0 (headerFile 3), .close 0] ++
    (List.replicate 30 [.openFile 0 [98#8] writeFlags, .close 0, .deleteFile [98#8]]).flatten ++
    [.openFile 0 [98#8] writeFlags, .close 0]

/-- The first file is deleted and collected.  A new one has a header of 1024 bytes at the same offset
2048, and one more is written and replaced. -/
def mendRun : List Op :=
  [.deleteFile [97#8], .gc 5, .openFile 0 [99#8] writeFlags, .write 0 (headerFile 2), .close 0,
    .openFile 0 [100#8] writeFlags, .close 0, .openFile 0 [100#8] writeFlags, .write 0 [1#8], .close 0]

/-- A formatted chip of sixteen sectors, mounted. -/
def wornStart : World := ((@remount defaultOpts smallMount).run (formattedChip 16 2)).2

/-- The index is full. -/
def wornFull : World := fillRun.foldl (@stepOp defaultOpts) wornStart

/-- The index has rotated, and its sector `0` is the spare one. -/
def decoyOut : World := @stepOp defaultOpts wornFull (.deleteFile [98#8])

def wornOut : World := mendRun.foldl (@stepOp defaultOpts) decoyOut

/-- A mount after that. -/
def wornMounted : World := @stepOp defaultOpts wornOut (.remount smallMount)

/-- The records that the run appends.  Those of the active sector start with the two that the rotation
has copied. -/
def wornRecords : List IndexRecord := activeRecords wornFull ++ (activeRecords wornOut).drop 2

/-- The index after these appends. -/
def wornLog : World := @appendAll defaultOpts wornRecords wornStart

omit [Opts] in
-- one evaluation of the run for everything that is said about it
theorem wornRun_checked :
    (Steps.Allowed (@stepOp defaultOpts) (@legalOp defaultOpts) fillRun wornStart ∧
      Steps.Allowed (@stepOp defaultOpts) (@legalOp defaultOpts) mendRun decoyOut ∧
      isOk ((@remount defaultOpts smallMount).run wornOut).1 = true ∧ remountable wornMounted) ∧
    ((findIndexSequence.run decoyOut).1.toOption.map IndexSequence.sectorShift = some 3 ∧
      Nor.read wornOut.dev.mem 2048 8 = (headerFile 2).drop 227) ∧
    (wornRecords.length = 67 ∧
      ∀ r ∈ wornRecords, Written wornStart.fs.indexSectors wornStart.fs.sectorCount r.slot r.head) ∧
    (wornOut.dev.plan.isEmpty = true ∧ wornOut.dev.mem.size = wornLog.dev.mem.size ∧
      wornOut.dev.programGranule = wornLog.dev.programGranule ∧
      Nor.read wornOut.dev.mem 0 (wornLog.fs.indexSectors * wornLog.fs.sectorSize) =
        Nor.read wornLog.dev.mem 0 (wornLog.fs.indexSectors * wornLog.fs.sectorSize)) ∧
    ∀ e ∈ @appendEvents defaultOpts wornRecords wornStart ++ [.mount (wornLog.onFlash wornOut) smallMount],
      @IndexEvent.regular defaultOpts e := by
  decide +kernel

omit [Opts] in
theorem decoyOut_steps : Steps (@stepOp defaultOpts) (@legalOp defaultOpts) wornStart decoyOut := by
  have hfull : Steps (@stepOp defaultOpts) (@legalOp defaultOpts) wornStart wornFull :=
    Steps.ofAllowed _ _ wornRun_checked.1.1
  have hlegal : @legalOp defaultOpts wornFull (.deleteFile [98#8]) := trivial
  have hend := Steps.tail (.deleteFile [98#8]) hfull hlegal
  rw [← decoyOut] at hend
  exact hend

theorem remount_step {u : World} {o : MountOptions} (hok : isOk ((remount o).run u).1 = true) :
    legalOp u (.remount o) ∧ (remount o).run u = (.ok (), stepOp u (.remount o)) :=
  ⟨isOk_iff.mp hok, run_eq_of_isOk hok⟩

omit [Opts] in
theorem wornMounted_steps : Steps (@stepOp defaultOpts) (@legalOp defaultOpts) wornStart wornMounted := by
  obtain ⟨⟨-, hallowed, hok, -⟩, -⟩ := wornRun_checked
  have hrun : Steps (@stepOp defaultOpts) (@legalOp defaultOpts) wornStart wornOut :=
    decoyOut_steps.trans (Steps.ofAllowed _ _ hallowed)
  have hend := Steps.tail (.remount smallMount) hrun (@remount_step defaultOpts _ _ hok).1
  rw [← wornMounted] at hend
  exact hend

omit [Opts] in
/-- The history of the run: 67 appends, a rotation among them, and a mount. -/
theorem wornMounted_history : ∃ es, es.length = 68 ∧ @History defaultOpts wornStart es wornMounted ∧
    ∀ e ∈ es, @IndexEvent.regular defaultOpts e := by
  obtain ⟨⟨-, -, hok, -⟩, -, ⟨hlen, hwritten⟩, ⟨hplan, hsize, hgranule, harea⟩, hregular⟩ := wornRun_checked
  have hrun : (@remount defaultOpts smallMount).run wornOut = (.ok (), wornMounted) :=
    (@remount_step defaultOpts _ _ hok).2
  have happends := @History.appends defaultOpts wornStart wornStart [] wornRecords
    (@History.start defaultOpts wornStart) hwritten
  rw [List.nil_append, ← wornLog] at happends
  have hevents := @length_appendEvents defaultOpts wornRecords wornStart
  -- no run of the worlds themselves is needed
  generalize wornLog = u at *
  generalize wornOut = out at *
  refine ⟨_, ?_, @History.remounted defaultOpts _ _ _ _ _ _ happends (List.isEmpty_iff.mp hplan) hsize hgranule
    harea hrun, hregular⟩
  rw [List.length_append, hevents, hlen]
  rfl

omit [Opts] in
/-- A file that comes and goes until the index rotates, a file that is collected, one that is
replaced, and a mount. -/
theorem ram_index_is_log_worn :
    @slotMap defaultOpts wornMounted = flashMap wornMounted ∧
      ((@mount defaultOpts wornMounted.fs.options).run wornMounted).1 = .ok () ∧
      ∃ es, es.length = 68 ∧ @History defaultOpts wornStart es wornMounted ∧
        ∀ e ∈ es, @IndexEvent.foldKept defaultOpts e := by
  have hformat : (format { sectorSize := 256, indexSectors := 2 }).run (blankChip 16) =
      (.ok (), formattedChip 16 2) := run_eq_of_isOk (by decide +kernel)
  have hmount : (@remount defaultOpts smallMount).run (formattedChip 16 2) = (.ok (), wornStart) :=
    run_eq_of_isOk (by decide +kernel)
  obtain ⟨es, hlen, hes, hregular⟩ := wornMounted_history
  obtain ⟨hmap, hkept, hmounts⟩ := (@ram_index_is_log defaultOpts wornMounted _ smallMount (blankChip 16) _ wornStart
    rfl hformat hmount wornMounted_steps).2 es hes hregular
  exact ⟨hmap, hmounts wornRun_checked.1.2.2.2, es, hlen, hes, hkept⟩

/-- A mount with a hash table of one bucket. -/
def oneBucket : MountOptions := { indexHashTableSize := 1, scratchSize := 64 }

/-- Two files, one after the other. -/
def twoFiles : List Op :=
  [.openFile 0 [0x61#8] writeFlags, .write 0 [1#8], .close 0,
    .openFile 0 [0x62#8] writeFlags, .write 0 [2#8], .close 0]

omit [Opts] in
/-- The record of the second file is programmed and has no place in the table: its close
returns an error, the fold has changed, and the next mount fails. -/
theorem ram_index_misses_record :
    ¬ ∀ (o : Opts) (format_ : FormatOptions) (mount_ : MountOptions) (w0 w1 w2 w : World),
      w0.dev.plan = [] → (format format_).run w0 = (.ok (), w1) →
      (@remount o mount_).run w1 = (.ok (), w2) → Steps (@stepOp o) (@legalOp o) w2 w →
      @slotMap o w = flashMap w ∧ ((@mount o w.fs.options).run w).1 = .ok () := by
  intro hall
  let w2 := ((@remount defaultOpts oneBucket).run (formattedChip 14 2)).2
  have hformat : (format { sectorSize := 256, indexSectors := 2 }).run (blankChip 14) =
      (.ok (), formattedChip 14 2) := run_eq_of_isOk (by decide +kernel)
  have hmount : (@remount defaultOpts oneBucket).run (formattedChip 14 2) = (.ok (), w2) :=
    run_eq_of_isOk (by decide +kernel)
  have hallowed : Steps.Allowed (@stepOp defaultOpts) (@legalOp defaultOpts) twoFiles w2 := by
    decide +kernel
  have hslot : @slotMap defaultOpts (twoFiles.foldl (@stepOp defaultOpts) w2) 51945 ≠
      flashMap (twoFiles.foldl (@stepOp defaultOpts) w2) 51945 := by
    decide +kernel
  obtain ⟨hmap, -⟩ := hall defaultOpts _ oneBucket _ _ w2 _ rfl hformat hmount (Steps.ofAllowed _ _ hallowed)
  exact hslot (congrFun hmap 51945)

end Runs

end Fastffs
