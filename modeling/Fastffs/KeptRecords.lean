import Fastffs.Append

/-!
# What a compaction keeps

`index_compact_oldest_copy` is meant to copy one record for each live slot whose newest
record lies in the oldest sector.  A build without a cache does so.  A cached build
compares heads only, so it copies too much when a slot has come back to a head that it
had before (`compaction_keeps_current`).
-/

namespace Fastffs

open Prog
open Nor (Mem Byte blank)

/-! ## The records on the flash -/

section Unique

variable {m : Mem} {w : World}

/-- A record does not lie at a free place. -/
theorem Records.not_free {off endOff : Nat} {r : IndexRecord} {rs : List IndexRecord}
    (h : Records m off (r :: rs)) (hend : off + 4 * (r :: rs).length ≤ endOff)
    (hfree : freeFrom m off endOff = true) : False := by
  rw [List.length_cons] at hend
  have herased : (recordAt m off).erased = true := by
    rw [recordAt_erased_iff, freeFrom_iff]
    exact fun i h1 h2 => freeFrom_iff.mp hfree i h1 (by omega)
  rw [h.1, h.2.1] at herased
  simp at herased

/-- The records up to a free place are determined by the flash. -/
theorem Records.unique {off endOff : Nat} {rs rs' : List IndexRecord} (h : Records m off rs)
    (h' : Records m off rs') (hend : off + 4 * rs.length ≤ endOff) (hend' : off + 4 * rs'.length ≤ endOff)
    (hfree : freeFrom m (off + 4 * rs.length) endOff = true)
    (hfree' : freeFrom m (off + 4 * rs'.length) endOff = true) : rs = rs' := by
  induction rs generalizing off rs' with
  | nil =>
    cases rs' with
    | nil => rfl
    | cons r' rs' => exact (h'.not_free hend' (by simpa using hfree)).elim
  | cons r rs ih =>
    cases rs' with
    | nil => exact (h.not_free hend (by simpa using hfree')).elim
    | cons r' rs' =>
      have hlen : ∀ (q : IndexRecord) (qs : List IndexRecord),
          off + 4 * (q :: qs).length = off + 4 + 4 * qs.length := by
        intro q qs
        rw [List.length_cons]
        omega
      rw [hlen] at hend hend' hfree hfree'
      rw [← h.1, ← h'.1, ih h.2.2 h'.2.2 hend hend' hfree hfree']

/-- The log is determined by the flash. -/
theorem LogOn.unique {logs logs' : List (List IndexRecord)} (h : LogOn w logs) (h' : LogOn w logs')
    (hp : LogPlaced w) : logs = logs' := by
  have hlen : logs.length = logs'.length := h.count.trans h'.count.symm
  refine List.ext_getElem hlen fun k hk hk' => ?_
  have hend := logEnd_eq hp.size hp.aligned k
  have hroom := h.room k hk
  have hroom' := h'.room k hk'
  have heq := (h.records k hk).unique (h'.records k hk') (by omega) (by omega) (h.free k hk) (h'.free k hk')
  rw [List.getD_eq_getElem _ _ hk, List.getD_eq_getElem _ _ hk'] at heq
  exact heq

end Unique

/-! ## Exact copies -/

/-- The list `cp` holds one record for each live slot whose newest record lies in the
sector `rs`, with the head of the slot, and no other record.  The records `later` follow
the sector. -/
def CopiesCurrent (rs later cp : List IndexRecord) : Prop :=
  ∀ slot, cp.filter (·.slot == slot) =
    if slot ∉ later.map IndexRecord.slot ∧ logMap (rs ++ later) slot ≠ 0 then
      [⟨slot, logMap (rs ++ later) slot⟩]
    else []

/-- A record of the sector has the head that its slot has now, and is not the newest one
of the slot. -/
def repeatsHead (f : Nat → Nat) (later : List IndexRecord) : List IndexRecord → Bool
  | [] => false
  | r :: rs => (r.head != 0 && f r.slot == r.head && (rs ++ later).any (·.slot == r.slot)) ||
      repeatsHead f later rs

theorem any_slot_iff {rs : List IndexRecord} {slot : Nat} :
    rs.any (·.slot == slot) = true ↔ slot ∈ rs.map IndexRecord.slot := by
  rw [List.any_eq_true, List.mem_map]
  constructor
  · rintro ⟨r, hr, heq⟩
    exact ⟨r, hr, beq_iff_eq.mp heq⟩
  · rintro ⟨r, hr, heq⟩
    exact ⟨r, hr, beq_iff_eq.mpr heq⟩

theorem repeatsHead_iff {f : Nat → Nat} {later rs : List IndexRecord} :
    repeatsHead f later rs = true ↔ ∃ pre r post, rs = pre ++ r :: post ∧ r.head ≠ 0 ∧
      f r.slot = r.head ∧ r.slot ∈ (post ++ later).map IndexRecord.slot := by
  induction rs with
  | nil =>
    constructor
    · intro h
      simp [repeatsHead] at h
    · rintro ⟨pre, r, post, heq, -⟩
      simp at heq
  | cons r rs ih =>
    rw [repeatsHead, Bool.or_eq_true, Bool.and_eq_true, Bool.and_eq_true, bne_iff_ne, beq_iff_eq,
      any_slot_iff, ih]
    constructor
    · rintro (⟨⟨h1, h2⟩, h3⟩ | ⟨pre, x, post, rfl, hx⟩)
      · exact ⟨[], r, rs, rfl, h1, h2, h3⟩
      · exact ⟨r :: pre, x, post, rfl, hx⟩
    · rintro ⟨pre, x, post, heq, h1, h2, h3⟩
      cases pre with
      | nil =>
        obtain ⟨rfl, rfl⟩ := List.cons.inj heq
        exact .inl ⟨⟨h1, h2⟩, h3⟩
      | cons y pre =>
        obtain ⟨-, rfl⟩ := List.cons.inj heq
        exact .inr ⟨pre, x, post, rfl, h1, h2, h3⟩

/-- The newest record of a slot. -/
theorem newest_split {rs : List IndexRecord} {slot : Nat} (h : slot ∈ rs.map IndexRecord.slot) :
    ∃ pre r post, rs = pre ++ r :: post ∧ r.slot = slot ∧ slot ∉ post.map IndexRecord.slot := by
  induction rs with
  | nil => simp at h
  | cons r rs ih =>
    by_cases hin : slot ∈ rs.map IndexRecord.slot
    · obtain ⟨pre, x, post, rfl, hx⟩ := ih hin
      exact ⟨r :: pre, x, post, rfl, hx⟩
    · rw [List.map_cons, List.mem_cons] at h
      exact ⟨[], r, rs, rfl, (h.resolve_right hin).symm, hin⟩

variable [Opts]

section Kept

variable {f : Nat → Nat} {later rem rs done : List IndexRecord} {r : IndexRecord} {slot : Nat}

/-- A record with a newer one of its slot is not copied, if no head is repeated. -/
theorem not_copied_of_newer
    (hexact : Opts.indexCacheMode = .none ∨ repeatsHead f later (r :: rem) = false)
    (hnewer : r.slot ∈ (rem ++ later).map IndexRecord.slot) :
    copiesRecord f (rem ++ later) r = false := by
  rw [← any_slot_iff] at hnewer
  rw [copiesRecord]
  rcases hexact with hmode | hrep
  · rw [hmode]
    dsimp only
    rw [hnewer]
    exact Bool.and_false _
  · rw [repeatsHead, hnewer, Bool.and_true, Bool.or_eq_false_iff] at hrep
    cases hm : Opts.indexCacheMode with
    | none =>
      dsimp only
      rw [hnewer]
      exact Bool.and_false _
    | hashHeads => exact hrep.1
    | fullSlotHeads => exact hrep.1

/-- What is copied for a slot out of the rest of a sector without repeated heads. -/
theorem keptRecords_filter (hmap : f = logMap (done ++ (rem ++ later)))
    (hexact : Opts.indexCacheMode = .none ∨ repeatsHead f later rem = false) :
    (keptRecords f later rem).filter (·.slot == slot) =
      if slot ∉ later.map IndexRecord.slot ∧ (Journal.latest slot (entries rem)).getD 0 ≠ 0 then
        [⟨slot, f slot⟩]
      else [] := by
  induction rem generalizing done with
  | nil =>
    rw [if_neg fun h => h.2 rfl]
    rfl
  | cons r rem ih =>
    have hlatest : Journal.latest slot (entries (r :: rem)) =
        (Journal.latest slot (entries rem)).or (if r.slot = slot then some r.head else none) := rfl
    have hrest := @ih (done ++ [r]) (by rw [hmap]; simp) (hexact.imp id fun h => by
      rw [repeatsHead, Bool.or_eq_false_iff] at h
      exact h.2)
    rw [hlatest]
    by_cases hslot : r.slot = slot
    · subst hslot
      rw [if_pos rfl]
      by_cases hin : r.slot ∈ rem.map IndexRecord.slot
      · -- a newer record of the slot in the sector
        have hskip := not_copied_of_newer hexact (by
          rw [List.map_append]
          exact List.mem_append_left _ hin)
        rw [keptRecords, hskip, if_neg (by simp), hrest]
        cases hl : Journal.latest r.slot (entries rem) with
        | some head => rfl
        | none =>
          rw [Journal.latest_eq_none_iff, entries, List.map_map] at hl
          exact absurd hin hl
      · have hnone : Journal.latest r.slot (entries rem) = none := by
          rw [Journal.latest_eq_none_iff, entries, List.map_map]
          exact hin
        rw [hnone] at hrest
        rw [if_neg fun h => h.2 rfl] at hrest
        rw [hnone, Option.none_or, Option.getD_some, keptRecords]
        by_cases hlater : r.slot ∈ later.map IndexRecord.slot
        · -- a newer record in a later sector
          have hskip := not_copied_of_newer hexact (by
            rw [List.map_append]
            exact List.mem_append_right _ hlater)
          rw [hskip, if_neg (by simp), hrest, if_neg fun h => h.1 hlater]
        · by_cases hhead : r.head = 0
          · have hskip : copiesRecord f (rem ++ later) r = false := by
              rw [copiesRecord, hhead]
              rfl
            rw [hskip, if_neg (by simp), hrest, if_neg fun h => h.2 hhead]
          · have hnew : r.slot ∉ (rem ++ later).map IndexRecord.slot := by
              rw [List.map_append, List.mem_append, not_or]
              exact ⟨hin, hlater⟩
            have hcopy := copiesRecord_newest hmap hhead hnew
            have hcur := (copiesRecord_current hmap hcopy).1
            rw [hcopy, if_pos rfl, List.filter_cons_of_pos (by simp), hrest, if_pos ⟨hlater, hhead⟩, hcur]
    · rw [if_neg hslot, Option.or_none, ← hrest, keptRecords]
      split
      · rw [List.filter_cons_of_neg (by simpa using hslot)]
      · rfl

/-- A cached build copies the records with the head of their slot. -/
theorem keptRecords_cached (hmode : Opts.indexCacheMode ≠ .none) :
    keptRecords f later rem = rem.filter fun r => r.head != 0 && f r.slot == r.head := by
  induction rem with
  | nil => rfl
  | cons r rem ih =>
    have hcopy : copiesRecord f (rem ++ later) r = (r.head != 0 && f r.slot == r.head) := by
      rw [copiesRecord]
      cases hm : Opts.indexCacheMode with
      | none => exact absurd hm hmode
      | hashHeads => rfl
      | fullSlotHeads => rfl
    rw [keptRecords, hcopy, ih, List.filter_cons]

/-- What is copied is exact when there is no cache to ask, or no head is repeated. -/
theorem keptRecords_exact (hmap : f = logMap (rs ++ later)) :
    CopiesCurrent rs later (keptRecords f later rs) ↔
      Opts.indexCacheMode = .none ∨ repeatsHead f later rs = false := by
  constructor
  · intro h
    by_contra hno
    rw [not_or, Bool.not_eq_false] at hno
    obtain ⟨hmode, hrep⟩ := hno
    obtain ⟨pre, r, post, heq, hhead, hcur, hmem⟩ := repeatsHead_iff.mp hrep
    have hkeep : (r.head != 0 && f r.slot == r.head) = true := by
      rw [Bool.and_eq_true, bne_iff_ne, beq_iff_eq]
      exact ⟨hhead, hcur⟩
    have hslot := h r.slot
    rw [keptRecords_cached hmode, List.filter_filter] at hslot
    by_cases hlater : r.slot ∈ later.map IndexRecord.slot
    · rw [if_neg fun hc => hc.1 hlater] at hslot
      have hin : r ∈ rs.filter fun x => (x.slot == r.slot) && (x.head != 0 && f x.slot == x.head) := by
        rw [List.mem_filter, heq]
        exact ⟨by simp, by rw [beq_self_eq_true, Bool.true_and]; exact hkeep⟩
      rw [hslot] at hin
      simp at hin
    · -- the record and the newest one of its slot
      rw [List.map_append, List.mem_append] at hmem
      obtain ⟨a, x, b, rfl, hx, hb⟩ := newest_split (hmem.resolve_right hlater)
      have hxcur : f x.slot = x.head := by
        have hassoc : rs ++ later = (pre ++ r :: a) ++ x :: (b ++ later) := by
          rw [heq]
          simp
        rw [hmap, hassoc]
        refine logMap_middle ?_
        rw [hx, List.map_append, List.mem_append, not_or]
        exact ⟨hb, hlater⟩
      have hxhead : x.head ≠ 0 := by
        rw [← hxcur, hx, hcur]
        exact hhead
      have hxkeep : (x.head != 0 && f x.slot == x.head) = true := by
        rw [Bool.and_eq_true, bne_iff_ne, beq_iff_eq]
        exact ⟨hxhead, hxcur⟩
      have hlen := congrArg List.length hslot
      rw [heq, List.filter_append, List.filter_cons_of_pos (by rw [beq_self_eq_true, Bool.true_and]; exact hkeep),
        List.filter_append, List.filter_cons_of_pos
          (by rw [hx, beq_self_eq_true, Bool.true_and]; exact hx ▸ hxkeep),
        List.length_append, List.length_cons, List.length_append, List.length_cons] at hlen
      split at hlen
      · rw [List.length_singleton] at hlen
        omega
      · rw [List.length_nil] at hlen
        omega
  · intro hexact slot
    have hfilter := @keptRecords_filter _ _ _ _ [] slot hmap hexact
    rw [hfilter, hmap]
    have hvalue : slot ∉ later.map IndexRecord.slot →
        (Journal.latest slot (entries rs)).getD 0 = logMap (rs ++ later) slot := by
      intro hlater
      have hnone : Journal.latest slot (entries later) = none := by
        rw [Journal.latest_eq_none_iff, entries, List.map_map]
        exact hlater
      rw [logMap, Journal.replay_eq_latest]
      change _ = (Journal.latest slot (entries (rs ++ later))).getD 0
      rw [entries_append, Journal.latest_append, hnone, Option.none_or]
    by_cases hlater : slot ∈ later.map IndexRecord.slot
    · rw [if_neg fun h => h.1 hlater, if_neg fun h => h.1 hlater]
    · rw [hvalue hlater]

end Kept

/-! ## A copy that goes on in another sector -/

section Spill

variable {v : World} {f : Nat → Nat} {rs0 cp done rem later copied : List IndexRecord}
  {mid rest : List (List IndexRecord)} {logs : List (List IndexRecord)}

omit [Opts] in
/-- The last sector of a log, by its place. -/
theorem activeLast_of_logical {fs : Fs} (hsectors : 0 < fs.indexSectors) {n k : Nat}
    (hlast : logicalIndexSector fs (k + n) = fs.activeIndexSector)
    (hne : ∀ j < n, logicalIndexSector fs (k + j) ≠ fs.activeIndexSector) :
    activeLast fs n (logicalIndexSector fs k) := by
  induction n generalizing k with
  | zero => exact hlast
  | succ n ih =>
    refine ⟨hne 0 (Nat.succ_pos n), ?_⟩
    rw [logicalIndexSector_succ hsectors]
    refine ih ?_ fun j hj => ?_
    · rw [← hlast]
      congr 1
      omega
    · have hj' := hne (j + 1) (by omega)
      rwa [show k + (j + 1) = k + 1 + j by omega] at hj'

omit [Opts] in
theorem LogPlaced.active_lt (hp : LogPlaced v) : v.fs.activeIndexSector < v.fs.indexSectors := by
  have hpos := hp.count_pos
  rw [← (hp.active_iff (show v.fs.indexSequenceCount - 1 < v.fs.indexSequenceCount by omega)).mpr (by omega)]
  exact logicalIndexSector_lt hp.sectors_pos _

omit [Opts] in
/-- The log after `rotate_index_begin` is in place. -/
theorem LogPlaced.rotated (hp : LogPlaced v) (hlt : v.fs.indexSequenceCount < v.fs.indexSectors) :
    LogPlaced (rotatedWorld v) := by
  have hcount := rotatedWorld_count hlt
  refine ⟨⟨hp.plan, hp.scratch, hp.size, hp.aligned, hp.fits⟩, hp.granule_pos, hp.granule_mod,
    hp.oldest_lt, by rw [hcount]; exact Nat.succ_pos _, ?_⟩
  rw [hcount, Nat.add_sub_cancel]
  have hold : (rotatedWorld v).fs.oldestIndexSector = logicalIndexSector v.fs 0 :=
    (logicalIndexSector_zero hp.oldest_lt).symm
  rw [hold]
  have hnext := hp.next_logical
  refine @activeLast_of_logical ((rotatedWorld v).fs) hp.sectors_pos _ 0 ?_ fun j hj heq => ?_
  · rw [Nat.zero_add]
    exact hnext.symm
  · rw [Nat.zero_add] at heq
    have hinj := @logicalIndexSector_inj v.fs _ _ (hj.trans hlt) hlt (heq.trans hnext)
    omega

/-- The next sector takes the record when the active one is full. -/
theorem CopyState.spill {r : IndexRecord} (h : CopyState v f rs0 mid cp later copied done rem)
    (hlt : v.fs.indexSequenceCount < v.fs.indexSectors) (hfull : cp.length = recordPlaces v.fs)
    (hpos : 0 < recordPlaces v.fs) :
    CopyState (rotatedWorld v) f rs0 (mid ++ [cp]) [] later copied done rem ∧
      (indexRecordWriterAppend false r.slot r.head).run v =
        (indexRecordWriterAppend true r.slot r.head).run (rotatedWorld v) := by
  have hlog : LogOn (rotatedWorld v) (rs0 :: (mid ++ [cp]) ++ [[]]) := by
    have hrot := h.log.rotated h.placed hlt
    rwa [List.cons_append] at hrot
  have hp := h.placed.rotated hlt
  refine ⟨⟨hlog, hp, h.cache.congr rfl rfl rfl, h.split, ?_, h.fresh⟩, ?_⟩
  · rw [List.flatten_append, List.flatten_singleton, List.append_nil]
    exact h.later_eq
  · have hbegin := rotateIndexBegin_run h.placed.plan (h.placed.next_in.trans h.placed.fits)
    have hroom : (indexRecordWriterRoom false).run v = (.ok true, rotatedWorld v) := by
      rw [indexRecordWriterRoom, bind_of_ok (run_getFs v), if_pos ((h.log.full_iff h.placed).mpr hfull),
        if_neg (by simpa using hlt), bind_of_ok hbegin, run_pure]
    have hroom' : (indexRecordWriterRoom true).run (rotatedWorld v) = (.ok true, rotatedWorld v) := by
      have hfree : ¬ indexSectorIsFull (rotatedWorld v).fs = true := by
        rw [hlog.full_iff hp]
        exact hpos.ne
      rw [indexRecordWriterRoom, bind_of_ok (run_getFs _), if_neg hfree, run_pure]
    rw [indexRecordWriterAppend, indexRecordWriterAppend, bind_of_ok hroom, bind_of_ok hroom']

/-- The loop of `index_compact_oldest_copy` when a sector of the ring is free. -/
theorem compactCopyLoop_spills {fuel : Nat} {reader : IndexRecordReader}
    (h : CopyState v f rs0 mid cp later copied done rem) (hs : reader.Shows v.fs rs0)
    (hlt : v.fs.indexSequenceCount < v.fs.indexSectors)
    (hfuel : recordPlaces v.fs - done.length < fuel) :
    ∃ pending v' mid' cp', (compactCopyLoop (logEnd v.fs 0) fuel reader (logBegin v.fs 0 + 4 * done.length)
        false).run v = (.ok pending, v') ∧ LogPlaced v' ∧ LogOn v' (rs0 :: mid' ++ [cp']) ∧
      mid'.flatten ++ cp' = mid.flatten ++ cp ++ keptRecords f later rem := by
  induction rem generalizing v done cp copied fuel reader with
  | nil =>
    refine ⟨false, v, mid, cp, h.stop hs hfuel, h.placed, h.log, ?_⟩
    rw [keptRecords, List.append_nil]
  | cons r rem ih =>
    obtain ⟨fuel, rfl⟩ : ∃ n, fuel = n + 1 := ⟨fuel - 1, by omega⟩
    obtain ⟨reader', hs', hstep, herased, hclean, hfuel'⟩ := h.step hs hfuel false
    by_cases hcopy : copiesRecord f (rem ++ later) r = true
    · have hroom0 : rs0.length ≤ recordPlaces v.fs := h.log.room 0 (Nat.succ_pos _)
      have hkept : done.length + (keptRecords f later (r :: rem)).length ≤ rs0.length := by
        rw [h.split, List.length_append]
        exact Nat.add_le_add_left keptRecords_length_le _
      have hlast := h.log.room (rs0 :: mid).length (by rw [length_append_last]; omega)
      rw [getD_last] at hlast
      have hkeeps : keptRecords f later (r :: rem) = r :: keptRecords f later rem := by
        rw [keptRecords, if_pos hcopy]
      by_cases hfull : cp.length = recordPlaces v.fs
      · -- the rest goes to the next sector
        rw [hkeeps, List.length_cons] at hkept
        have hpos : 0 < recordPlaces v.fs := by omega
        obtain ⟨hstate, happend⟩ := h.spill (r := r) hlt hfull hpos
        obtain ⟨m, hrun, hsame, hlog⟩ := @CopyState.copy _ _ _ _ _ _ _ _ _ _ true _
          (compactCopyLoop (logEnd v.fs 0) fuel reader' (logBegin v.fs 0 + 4 * (done ++ [r]).length))
          hstate hcopy hpos herased hclean fun m hnext => compactCopyLoop_run hnext hs'
            (show 0 + 1 + (keptRecords f later rem).length ≤ recordPlaces v.fs by omega) hfuel'
        refine ⟨true, _, mid ++ [cp], _, ?_, hstate.placed.withLog hsame.size _, hlog, ?_⟩
        · rw [hstep, if_pos hcopy, ← hrun, run_bind, run_bind, happend]
        · rw [List.flatten_append, List.flatten_singleton, List.nil_append, hkeeps]
      · obtain ⟨hslot, hhead⟩ := (h.log.records 0 (Nat.succ_pos _)).lt r (by
          change r ∈ rs0
          rw [h.split]
          simp)
        obtain ⟨m, happend, hsame, hlog⟩ := @indexRecordWriterAppend_run _ _ false _ _ h.log
          h.placed (by omega) hslot hhead herased hclean
        obtain ⟨pending, v', mid', cp', hrest, hp', hlog', hflat⟩ := @ih _ (cp ++ [r]) (done ++ [r])
          (copied ++ [r]) fuel reader' (h.appended hcopy hsame.size hlog) hs' hlt hfuel'
        refine ⟨pending, v', mid', cp', ?_, hp', hlog', ?_⟩
        · rw [hstep, if_pos hcopy, bind_of_ok happend]
          exact hrest
        · rw [hflat, hkeeps]
          simp
    · obtain ⟨pending, v', mid', cp', hrest, hp', hlog', hflat⟩ := ih h.skipped hs' hlt hfuel'
      refine ⟨pending, v', mid', cp', ?_, hp', hlog', ?_⟩
      · rw [hstep, if_neg hcopy]
        exact hrest
      · rw [hflat, keptRecords, if_neg hcopy]

/-! ## `index_compact_oldest_copy` -/

/-- A log whose oldest sector `rs0` can be compacted: there are other sectors `rest`, and
either a sector of the ring is free, or a rotation has just begun with an empty one. -/
structure Compactable (v : World) (rs0 : List IndexRecord) (rest : List (List IndexRecord)) : Prop where
  log : LogOn v (rs0 :: rest)
  placed : LogPlaced v
  cache : CacheIs v.fs (logMap (rs0 ++ rest.flatten))
  rest_ne : rest ≠ []
  room : v.fs.indexSequenceCount < v.fs.indexSectors ∨ rest.getLast? = some []

/-- `index_compact_oldest_copy` copies the kept records to the end of the log. -/
theorem Compactable.copy_run (h : Compactable v rs0 rest) :
    ∃ v' rest', indexCompactOldestCopy.run v = (.ok v.fs.oldestIndexSector, v') ∧ LogPlaced v' ∧
      LogOn v' (rs0 :: rest') ∧ rest'.flatten = rest.flatten ++
        keptRecords (logMap (rs0 ++ rest.flatten)) rest.flatten rs0 := by
  obtain ⟨mid, cp, rfl⟩ : ∃ mid cp, rest = mid ++ [cp] :=
    ⟨rest.dropLast, rest.getLast h.rest_ne, (List.dropLast_append_getLast h.rest_ne).symm⟩
  have hp := h.placed
  have hlog : LogOn v (rs0 :: mid ++ [cp]) := h.log
  have hcount := hlog.count
  rw [length_append_last, List.length_cons] at hcount
  have hend := h.log.sourceEnd hp h.rest_ne
  have hflat : (mid ++ [cp]).flatten = mid.flatten ++ cp := by
    rw [List.flatten_append, List.flatten_singleton]
  have hstate : CopyState v (logMap (rs0 ++ (mid ++ [cp]).flatten)) rs0 mid cp (mid ++ [cp]).flatten []
      [] rs0 :=
    ⟨hlog, hp, h.cache, rfl, by rw [hflat, List.append_nil], fun _ _ _ => by simp⟩
  have hfuel := hp.copyFuel
  -- what the loop does, the rest of the copy does not undo
  obtain ⟨pending, v', mid', cp', hrun, hp', hlog', hflat'⟩ : ∃ pending v' mid' cp',
      (compactCopyLoop (logEnd v.fs 0) v.fs.sectorSize {} (logBegin v.fs 0) false).run v =
        (.ok pending, v') ∧ LogPlaced v' ∧ LogOn v' (rs0 :: mid' ++ [cp']) ∧
      mid'.flatten ++ cp' = mid.flatten ++ cp ++
        keptRecords (logMap (rs0 ++ (mid ++ [cp]).flatten)) (mid ++ [cp]).flatten rs0 := by
    rcases h.room with hlt | hempty
    · exact compactCopyLoop_spills hstate (IndexRecordReader.shows_nil _) hlt hfuel
    · obtain rfl : cp = [] := by
        rw [List.getLast?_append_of_ne_nil _ (by simp), List.getLast?_singleton, Option.some.injEq] at hempty
        exact hempty
      have hroom0 : rs0.length ≤ recordPlaces v.fs := hlog.room 0 (Nat.succ_pos _)
      obtain ⟨m, hrun, hsame, hlog'⟩ := @compactCopyLoop_run _ _ _ _ _ _ _ _ _ _ false _
        v.fs.sectorSize hstate (IndexRecordReader.shows_nil _)
        (by rw [List.length_nil, Nat.zero_add]; exact keptRecords_length_le.trans hroom0) hfuel
      refine ⟨false, _, mid, _, hrun, hp.withLog hsame.size _, hlog', ?_⟩
      rw [List.append_nil, List.nil_append]
  have hin := (Nat.mul_le_mul_right v'.fs.sectorSize (Nat.succ_le_of_lt hp'.active_lt)).trans hp'.fits
  obtain ⟨v'', hcommit, hp'', hlog''⟩ : ∃ v'', (Prog.when (pending = true) rotateIndexCommit).run v' =
      (.ok (), v'') ∧ LogPlaced v'' ∧ LogOn v'' (rs0 :: mid' ++ [cp']) := by
    cases pending with
    | false => exact ⟨v', by rw [when_neg (by simp), run_pure], hp', hlog'⟩
    | true =>
      refine ⟨headedWorld v', by rw [when_pos rfl]; exact rotateIndexCommit_run hp' hin, ?_, ?_⟩
      · exact hp'.withLog (headed_outside _ _ _ _ _).size v'.fs.nextIndexOffset
      · exact hlog'.offRecords hp' fun i hi =>
          (headed_outside _ _ _ _ _).offHeader (by rw [headerSize]; have := hp'.size; omega) hi
  refine ⟨v'', mid' ++ [cp'], ?_, hp'', hlog'', ?_⟩
  · rw [indexCompactOldestCopy, bind_of_ok (run_getFs v)]
    dsimp only
    rw [if_neg (by omega), hend, hp.sourceBegin, bind_of_ok hrun, bind_of_ok hcommit, run_pure]
  · rw [List.flatten_append, List.flatten_singleton, hflat', hflat]

/-- `index_compact_oldest_copy` appends one record for each live slot whose newest record
lies in the oldest sector, with the head of the slot, and no other record. -/
def copiesExactly (v : World) (rs0 : List IndexRecord) (rest : List (List IndexRecord)) : Prop :=
  ∃ v' rest' cp, indexCompactOldestCopy.run v = (.ok v.fs.oldestIndexSector, v') ∧
    LogOn v' (rs0 :: rest') ∧ rest'.flatten = rest.flatten ++ cp ∧ CopiesCurrent rs0 rest.flatten cp

theorem Compactable.copiesExactly_iff (h : Compactable v rs0 rest) :
    copiesExactly v rs0 rest ↔ CopiesCurrent rs0 rest.flatten
      (keptRecords (logMap (rs0 ++ rest.flatten)) rest.flatten rs0) := by
  obtain ⟨v', rest', hrun, hp', hlog', hflat⟩ := h.copy_run
  constructor
  · rintro ⟨v1, rest1, cp, hrun1, hlog1, hflat1, hcp⟩
    rw [hrun] at hrun1
    obtain rfl : v' = v1 := congrArg Prod.snd hrun1
    obtain rfl : rest1 = rest' := (List.cons.inj (hlog1.unique hlog' hp')).2
    rw [hflat] at hflat1
    rwa [List.append_cancel_left hflat1]
  · exact fun hcp => ⟨v', rest', _, hrun, hlog', hflat, hcp⟩

/-- A compaction keeps exactly the current records when there is no cache to ask, or when
no record of the oldest sector repeats the head of its slot. -/
theorem compaction_keeps_current (h : Compactable v rs0 rest) :
    copiesExactly v rs0 rest ↔ Opts.indexCacheMode = .none ∨
      repeatsHead (logMap (rs0 ++ rest.flatten)) rest.flatten rs0 = false := by
  rw [h.copiesExactly_iff]
  exact keptRecords_exact rfl

end Spill

/-- The modes of a build with a head for each slot. -/
@[reducible] def fullHeadsOpts : Opts := { defaultOpts with indexCacheMode := .fullSlotHeads }

/-- A chip of eighty sectors with three index sectors.  The first one holds the records
`rs`, the second one is active and holds the records `rs'`. -/
def logChip (rs rs' : List IndexRecord) : World :=
  let headers := headed (headed (Nor.erased (80 * 256)) 0 3 0 0) 256 3 0 1
  { blankChip 80 with
    dev := { mem := Nor.program (Nor.program headers 8 (rs.flatMap recordBytes)) 264
               (rs'.flatMap recordBytes)
             programGranule := 1, plan := [] }
    fs := { sectorSize := 256, sectorCount := 80, indexSectors := 3, oldestIndexSector := 0
            indexSequenceCount := 2, activeIndexSector := 1, activeIndexSerial := 1
            nextIndexOffset := 264 + 4 * rs'.length, scratchSize := 64
            indexHeads := logMap (rs ++ rs') } }

omit [Opts] in
theorem logChip_placed (rs rs' : List IndexRecord) : LogPlaced (logChip rs rs') :=
  ⟨⟨rfl, show 4 ≤ 64 by decide, show 256 ≤ 256 by decide, show 256 % 4 = 0 by decide,
      show 3 * 256 ≤ 80 * 256 by decide⟩,
    Nat.one_pos, Nat.mod_one _, show 0 < 3 by decide, show 0 < 2 by decide, show 0 ≠ 1 by decide, rfl⟩

omit [Opts] in
theorem logChip_compactable {rs rs' : List IndexRecord} (hlog : LogOn (logChip rs rs') [rs, rs']) :
    @Compactable fullHeadsOpts (logChip rs rs') rs [rs'] := by
  refine @Compactable.mk fullHeadsOpts _ _ _ hlog (logChip_placed rs rs') ?_ (by simp)
    (.inl (show 2 < 3 by decide))
  change logMap (rs ++ rs') = logMap (rs ++ [rs'].flatten)
  rw [List.flatten_singleton]

omit [Opts] in
/-- A slot that has moved once. -/
theorem compaction_keeps_current_moved :
    @copiesExactly fullHeadsOpts (logChip [⟨1, 3⟩, ⟨1, 4⟩] []) [⟨1, 3⟩, ⟨1, 4⟩] [[]] :=
  (@compaction_keeps_current fullHeadsOpts _ _ _ (logChip_compactable (by decide +kernel))).mpr
    (.inr (by decide +kernel))

omit [Opts] in
/-- A slot that has moved and come back is copied twice. -/
theorem compaction_copies_twice :
    ¬ ∀ [Opts] (v : World) (rs0 : List IndexRecord) (rest : List (List IndexRecord)),
      Compactable v rs0 rest → copiesExactly v rs0 rest := by
  intro hall
  have hlog : LogOn (logChip [⟨1, 3⟩, ⟨1, 4⟩, ⟨1, 3⟩] []) [[⟨1, 3⟩, ⟨1, 4⟩, ⟨1, 3⟩], []] := by
    decide +kernel
  have hstate := logChip_compactable hlog
  have hexact := (@Compactable.copiesExactly_iff fullHeadsOpts _ _ _ hstate).mp
    (@hall fullHeadsOpts _ _ _ hstate) 1
  revert hexact
  decide +kernel

end Fastffs
