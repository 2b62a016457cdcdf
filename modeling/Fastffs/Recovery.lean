import Fastffs.MountLog
import Fastffs.Power
import Fastffs.ReplayFold
import Fastffs.Sequences

/-!
# A mount that loses power

A mount programs the flash at two places, and it can lose power at each of them.
The tombstone of a header clears one bit, so it is there or it is not.  The four
bytes of a torn record can keep any of their bits.  If what is left of the record
still says nothing (`IndexRecord.meaningless`), the next mount ends where the first
one would have ended.
-/

namespace Fastffs

open Prog
open Nor (Mem Byte blank Below)

/-! ## Scanning again -/

section Again

variable {v : World} {m' : Mem} {active : Bool} {endOff off n p : Nat} {rs : List IndexRecord}

theorem freeFrom_eq_false {m : Mem} {a e i : Nat} (ha : a ≤ i) (he : i < e) (h : Nor.get m i ≠ blank) :
    freeFrom m a e = false :=
  Bool.eq_false_of_not_eq_true fun hfree => h (freeFrom_iff.mp hfree i ha he)

theorem recordAt_not_erased {m : Mem} (h : (recordAt m off).erased = false) :
    ∃ i, off ≤ i ∧ i < off + 4 ∧ Nor.get m i ≠ blank := by
  by_contra hno
  simp only [not_exists, not_and, not_not] at hno
  have herased := recordAt_erased_iff.mpr (freeFrom_iff.mpr hno)
  rw [h] at herased
  simp at herased

/-- The record at one place is taken again. -/
theorem taken_again (hs : SameData v (v.withMem m' []))
    (hget : ∀ i, off ≤ i → i < off + 4 → Nor.get m' i = Nor.get v.dev.mem i)
    (hfree : freeFrom m' (off + 4) endOff = freeFrom v.dev.mem (off + 4) endOff) :
    taken (v.withMem m' []) active endOff off = taken v active endOff off := by
  have hrec : recordAt (v.withMem m' []).dev.mem off = recordAt v.dev.mem off := recordAt_congr hget
  have hmal : ∀ r : IndexRecord, r.malformed (v.withMem m' []).fs = r.malformed v.fs := fun _ => rfl
  unfold taken
  dsimp only
  rw [hrec, hmal, rootIsLive_congr hs]
  exact congrArg (fun b => _ || (_ && (_ || !(active && b) || _))) hfree

/-- The records of a sector are the same when its bytes are. -/
theorem scanRecords_same (hs : SameData v (v.withMem m' []))
    (hget : ∀ i, off ≤ i → i < endOff → Nor.get m' i = Nor.get v.dev.mem i)
    (hend : off + 4 * n ≤ endOff) :
    scanRecords (v.withMem m' []) active endOff n off = scanRecords v active endOff n off := by
  induction n generalizing off with
  | zero => rfl
  | succ n ih =>
    have hrec : recordAt (v.withMem m' []).dev.mem off = recordAt v.dev.mem off :=
      recordAt_congr fun i h1 h2 => hget i h1 (by omega)
    have htaken : taken (v.withMem m' []) active endOff off = taken v active endOff off :=
      taken_again hs (fun i h1 h2 => hget i h1 (by omega))
        (freeFrom_congr fun i h1 h2 => hget i (by omega) h2)
    rw [scanRecords, scanRecords, hrec, htaken, ih (fun i h1 h2 => hget i (by omega) h2) (by omega)]

/-- The records before a place that is not blank are taken again. -/
theorem scanRecords_before {j : Nat} (hs : SameData v (v.withMem m' []))
    (hscan : scanRecords v active endOff j off = ⟨rs, .full⟩)
    (hget : ∀ i, off ≤ i → i < off + 4 * j → Nor.get m' i = Nor.get v.dev.mem i)
    (hmark : ∃ i, off + 4 * j ≤ i ∧ i < endOff ∧ Nor.get v.dev.mem i ≠ blank)
    (hmark' : ∃ i, off + 4 * j ≤ i ∧ i < endOff ∧ Nor.get m' i ≠ blank) :
    scanRecords (v.withMem m' []) active endOff j off = ⟨rs, .full⟩ := by
  induction j generalizing off rs with
  | zero => exact hscan
  | succ j ih =>
    obtain ⟨a, ha1, ha2, ha⟩ := hmark
    obtain ⟨b, hb1, hb2, hb⟩ := hmark'
    have hrec : recordAt (v.withMem m' []).dev.mem off = recordAt v.dev.mem off :=
      recordAt_congr fun i h1 h2 => hget i h1 (by omega)
    have htaken : taken (v.withMem m' []) active endOff off = taken v active endOff off :=
      taken_again hs (fun i h1 h2 => hget i h1 (by omega))
        ((freeFrom_eq_false (by omega) hb2 hb).trans (freeFrom_eq_false (by omega) ha2 ha).symm)
    rw [scanRecords] at hscan ⊢
    rw [hrec, htaken]
    by_cases herased : (recordAt v.dev.mem off).erased = true
    · rw [if_pos herased] at hscan
      simp at hscan
    · rw [if_neg herased] at hscan ⊢
      by_cases ht : taken v active endOff off = true
      · rw [if_pos ht] at hscan ⊢
        simp only [Scan.mk.injEq] at hscan
        obtain ⟨rfl, hstop⟩ := hscan
        have hrest : scanRecords (v.withMem m' []) active endOff j (off + 4) =
            ⟨(scanRecords v active endOff j (off + 4)).records, .full⟩ :=
          ih (by rw [← hstop]) (fun i h1 h2 => hget i (by omega) (by omega))
            ⟨a, by omega, ha2, ha⟩ ⟨b, by omega, hb2, hb⟩
        rw [hrest]
      · rw [if_neg ht] at hscan
        simp at hscan

/-- A scan that ends at a record it does not take. -/
theorem scanRecords_bad (hbad : (scanRecords v active endOff n off).stop = .bad) :
    ∃ j k, n = j + (k + 1) ∧ (scanRecords v active endOff n off).records.length = j ∧
      scanRecords v active endOff j off = ⟨(scanRecords v active endOff n off).records, .full⟩ ∧
      (recordAt v.dev.mem (off + 4 * j)).erased = false ∧
      taken v active endOff (off + 4 * j) = false := by
  induction n generalizing off with
  | zero => simp [scanRecords] at hbad
  | succ n ih =>
    rw [scanRecords] at hbad ⊢
    by_cases herased : (recordAt v.dev.mem off).erased = true
    · rw [if_pos herased] at hbad
      simp at hbad
    · rw [if_neg herased] at hbad ⊢
      by_cases ht : taken v active endOff off = true
      · rw [if_pos ht] at hbad ⊢
        obtain ⟨j, k, hn, hlen, hscan, hne, hnt⟩ := ih hbad
        have hoff : off + 4 + 4 * j = off + 4 * (j + 1) := by omega
        rw [hoff] at hne hnt
        refine ⟨j + 1, k, by omega, by rw [List.length_cons, hlen], ?_, hne, hnt⟩
        rw [scanRecords, if_neg herased, if_pos ht, hscan]
      · rw [if_neg ht]
        exact ⟨0, n, by omega, rfl, rfl, Bool.eq_false_of_not_eq_true herased,
          Bool.eq_false_of_not_eq_true ht⟩

/-- The blank places at the end of a sector. -/
theorem scanRecords_free (hend : endOff = off + 4 * n) (hfree : freeFrom v.dev.mem off endOff = true) :
    scanRecords v active endOff n off = ⟨[], if off = endOff then .full else .free⟩ := by
  cases n with
  | zero => rw [scanRecords, if_pos (by omega)]
  | succ n =>
    have herased : (recordAt v.dev.mem off).erased = true := by
      rw [recordAt_erased_iff, freeFrom_iff]
      intro i h1 h2
      exact freeFrom_iff.mp hfree i h1 (by omega)
    rw [scanRecords, if_pos herased, if_neg (by omega)]

/-- What the scan of a sector makes of other bytes at the last place of it. -/
theorem scanRecords_again (hs : SameData v (v.withMem m' []))
    (hbad : (scanRecords v active endOff n off).stop = .bad)
    (hp : p = off + 4 * (scanRecords v active endOff n off).records.length)
    (hend : endOff = off + 4 * n) (hfree : freeFrom v.dev.mem (p + 4) endOff = true)
    (hget : ∀ i, i < p ∨ p + 4 ≤ i → Nor.get m' i = Nor.get v.dev.mem i)
    (hne : (recordAt m' p).erased = false) :
    scanRecords (v.withMem m' []) active endOff n off =
      if taken (v.withMem m' []) active endOff p then
        ⟨(scanRecords v active endOff n off).records ++ [recordAt m' p],
          if p + 4 = endOff then .full else .free⟩
      else scanRecords v active endOff n off := by
  obtain ⟨j, k, hn, hlen, hscan, hne0, -⟩ := scanRecords_bad hbad
  rw [hlen] at hp
  obtain ⟨a, ha1, ha2, ha⟩ := recordAt_not_erased hne0
  obtain ⟨b, hb1, hb2, hb⟩ := recordAt_not_erased hne
  have hbefore := scanRecords_before hs hscan (fun i _ h2 => hget i (by omega))
    ⟨a, by omega, by omega, ha⟩ ⟨b, by omega, by omega, hb⟩
  have hrest : scanRecords (v.withMem m' []) active endOff k (p + 4) =
      ⟨[], if p + 4 = endOff then .full else .free⟩ := by
    refine scanRecords_free (by omega) ?_
    rw [← hfree]
    exact freeFrom_congr fun i h1 _ => hget i (.inr h1)
  have hat : scanRecords (v.withMem m' []) active endOff (k + 1) p =
      if taken (v.withMem m' []) active endOff p then
        ⟨[recordAt m' p], if p + 4 = endOff then .full else .free⟩ else ⟨[], .bad⟩ := by
    have hne' : ¬ (recordAt (v.withMem m' []).dev.mem p).erased = true := by
      change ¬ (recordAt m' p).erased = true
      rw [hne]
      simp
    rw [scanRecords, if_neg hne', hrest]
    rfl
  have hwhole : scanRecords v active endOff n off =
      ⟨(scanRecords v active endOff n off).records, .bad⟩ := by
    rw [← hbad]
  have hadd : scanRecords (v.withMem m' []) active endOff (j + (k + 1)) off = _ := scanRecords_add
  rw [hbefore, ← hp, hat, ← hn] at hadd
  dsimp only at hadd
  rw [hadd]
  by_cases ht : taken (v.withMem m' []) active endOff p = true
  · rw [if_pos ht, if_pos ht]
  · rw [if_neg ht, if_neg ht, hwhole, List.append_nil]

end Again

/-! ## Scanning the log again -/

section Log

variable {v : World} {m' : Mem} {n sector p : Nat}

/-- The index sectors other than the active one are the same. -/
theorem scanSector_other (hs : SameData v (v.withMem m' [])) (hsize : 256 ≤ v.fs.sectorSize)
    (hne : sector ≠ v.fs.activeIndexSector)
    (hp1 : v.fs.activeIndexSector * v.fs.sectorSize ≤ p)
    (hp2 : p + 4 ≤ (v.fs.activeIndexSector + 1) * v.fs.sectorSize)
    (hget : ∀ i, i < p ∨ p + 4 ≤ i → Nor.get m' i = Nor.get v.dev.mem i) :
    scanSector (v.withMem m' []) sector = scanSector v sector := by
  rw [Nat.add_mul, Nat.one_mul] at hp2
  have hend : indexSectorBegin v.fs sector + 4 * recordPlaces v.fs ≤ (sector + 1) * v.fs.sectorSize := by
    rw [indexSectorBegin, recordPlaces, headerSize, Nat.add_mul, Nat.one_mul]
    omega
  refine scanRecords_same hs (fun i h1 h2 => hget i ?_) hend
  change indexSectorBegin v.fs sector ≤ i at h1
  change i < (sector + 1) * v.fs.sectorSize at h2
  rw [indexSectorBegin, headerSize] at h1
  rw [Nat.add_mul, Nat.one_mul] at h2
  rcases Nat.lt_or_gt_of_ne hne with hlt | hgt
  · have hmul := sector_mul_le v.fs.sectorSize hlt
    omega
  · have hmul := sector_mul_le v.fs.sectorSize hgt
    omega

/-- What the scan of the active sector makes of other bytes in the last record. -/
theorem scanSector_again (hs : SameData v (v.withMem m' [])) (hsize : 256 ≤ v.fs.sectorSize)
    (haligned : v.fs.sectorSize % 4 = 0)
    (hbad : (scanSector v v.fs.activeIndexSector).stop = .bad)
    (hp : p = indexSectorBegin v.fs v.fs.activeIndexSector +
      4 * (scanSector v v.fs.activeIndexSector).records.length)
    (hfree : freeFrom v.dev.mem (p + 4) ((v.fs.activeIndexSector + 1) * v.fs.sectorSize) = true)
    (hget : ∀ i, i < p ∨ p + 4 ≤ i → Nor.get m' i = Nor.get v.dev.mem i)
    (hne : (recordAt m' p).erased = false) :
    scanSector (v.withMem m' []) v.fs.activeIndexSector =
      if taken (v.withMem m' []) true ((v.fs.activeIndexSector + 1) * v.fs.sectorSize) p then
        ⟨(scanSector v v.fs.activeIndexSector).records ++ [recordAt m' p],
          if p + 4 = (v.fs.activeIndexSector + 1) * v.fs.sectorSize then .full else .free⟩
      else scanSector v v.fs.activeIndexSector := by
  have hself : (v.fs.activeIndexSector == v.fs.activeIndexSector) = true := beq_self_eq_true _
  rw [scanSector, hself] at hbad hp
  change scanRecords (v.withMem m' []) (v.fs.activeIndexSector == v.fs.activeIndexSector)
    ((v.fs.activeIndexSector + 1) * v.fs.sectorSize) (recordPlaces v.fs)
    (indexSectorBegin v.fs v.fs.activeIndexSector) = _
  rw [scanSector, hself]
  refine scanRecords_again hs hbad hp ?_ hfree hget hne
  rw [indexSectorBegin, recordPlaces, headerSize, Nat.add_mul, Nat.one_mul]
  omega

/-- What the scan of the log makes of other bytes in the last record. -/
theorem scanLog_again (hs : SameData v (v.withMem m' [])) (hsize : 256 ≤ v.fs.sectorSize)
    (haligned : v.fs.sectorSize % 4 = 0) (hlast : activeLast v.fs n sector)
    (hbad : (scanLog v (n + 1) sector).stop = .bad)
    (hterm : (scanLog v (n + 1) sector).terminal v = true)
    (hp : p = (scanLog v (n + 1) sector).offset)
    (hget : ∀ i, i < p ∨ p + 4 ≤ i → Nor.get m' i = Nor.get v.dev.mem i)
    (hne : (recordAt m' p).erased = false) :
    scanLog (v.withMem m' []) (n + 1) sector =
      if taken (v.withMem m' []) true ((v.fs.activeIndexSector + 1) * v.fs.sectorSize) p then
        ⟨⟨(scanLog v (n + 1) sector).records ++ [recordAt m' p],
          if p + 4 = (v.fs.activeIndexSector + 1) * v.fs.sectorSize then .full else .free⟩,
          v.fs.activeIndexSector, p + 4⟩
      else scanLog v (n + 1) sector := by
  have hoffset := scanLog_offset (by omega) (show (scanLog v (n + 1) sector).stop ≠ .full by
    rw [hbad]; decide)
  rw [LogScan.terminal, Bool.and_eq_true, beq_iff_eq] at hterm
  obtain ⟨hsec, hfree⟩ := hterm
  rw [hsec, ← hp] at hoffset hfree
  induction n generalizing sector with
  | zero =>
    obtain rfl : sector = v.fs.activeIndexSector := hlast
    rw [scanLog_one] at hbad hp ⊢
    rw [scanLog_one]
    dsimp only at hp
    have hscan := scanSector_again hs hsize haligned hbad hp hfree hget hne
    rw [hscan]
    by_cases ht : taken (v.withMem m' []) true ((v.fs.activeIndexSector + 1) * v.fs.sectorSize) p = true
    · rw [if_pos ht, if_pos ht]
      have hnext : indexSectorBegin (v.withMem m' []).fs v.fs.activeIndexSector +
          4 * ((scanSector v v.fs.activeIndexSector).records ++ [recordAt m' p]).length = p + 4 := by
        change indexSectorBegin v.fs v.fs.activeIndexSector + _ = _
        rw [List.length_append, List.length_singleton, hp]
        omega
      rw [hnext]
    · rw [if_neg ht, if_neg ht]
      rfl
  | succ n ih =>
    have hbad' : (scanSector v sector).stop ≠ .bad := by
      intro h
      rw [scanLog, if_pos (.inl h)] at hsec
      exact hlast.1 hsec
    have hge := hoffset.1
    rw [indexSectorBegin, headerSize] at hge
    have hother := scanSector_other hs hsize hlast.1 (by omega) hoffset.2 hget
    rw [scanLog_next hbad'] at hbad hp hsec
    have hrest := ih hlast.2 hbad hp hsec
    have hnext : nextIndexSector (v.withMem m' []).fs sector = nextIndexSector v.fs sector := rfl
    rw [scanLog_next hbad', scanLog_next (by rw [hother]; exact hbad'), hother, hnext, hrest]
    by_cases ht : taken (v.withMem m' []) true ((v.fs.activeIndexSector + 1) * v.fs.sectorSize) p = true
    · rw [if_pos ht, if_pos ht]
      dsimp only
      rw [List.append_assoc]
    · rw [if_neg ht, if_neg ht]

end Log

/-! ## Replaying again -/

section Bytes

variable {m m' : Mem} {p : Nat}

/-- The bytes after a record is overwritten. -/
theorem get_overwritten (m : Mem) (p i : Nat) :
    Nor.get (Nor.program m p [0#8, 0#8, 0#8, 0#8]) i =
      if p ≤ i ∧ i < p + 4 then 0#8 else Nor.get m i := by
  by_cases h : p ≤ i ∧ i < p + 4
  · rw [if_pos h, Nor.get_program, if_pos h.1]
    obtain hk | hk | hk | hk : i - p = 0 ∨ i - p = 1 ∨ i - p = 2 ∨ i - p = 3 := by omega
    all_goals
      rw [hk]
      exact BitVec.and_zero
  · rw [if_neg h, Nor.get_program_of_notMem]
    change i < p ∨ p + 4 ≤ i
    omega

/-- An overwritten record has no bit left. -/
theorem get_of_clobbered (h : (recordAt m p).clobbered = true) {i : Nat} (h1 : p ≤ i)
    (h2 : i < p + 4) : Nor.get m i = 0#8 := by
  rw [IndexRecord.clobbered_iff] at h
  obtain ⟨hslot, hhead⟩ := h
  change (Nor.get m p).toNat + 256 * (Nor.get m (p + 1)).toNat = 0 at hslot
  change (Nor.get m (p + 1 + 1)).toNat + 256 * (Nor.get m (p + 1 + 1 + 1)).toNat = 0 at hhead
  have hzero : ∀ b : Byte, b.toNat = 0 → b = 0#8 := fun b hb => BitVec.eq_of_toNat_eq hb
  obtain rfl | rfl | rfl | rfl : i = p ∨ i = p + 1 ∨ i = p + 1 + 1 ∨ i = p + 1 + 1 + 1 := by omega
  · exact hzero _ (by omega)
  · exact hzero _ (by omega)
  · exact hzero _ (by omega)
  · exact hzero _ (by omega)

/-- Overwriting a record hides what was there. -/
theorem program_overwritten (hsize : m'.size = m.size)
    (hget : ∀ i, i < p ∨ p + 4 ≤ i → Nor.get m' i = Nor.get m i) :
    Nor.program m' p [0#8, 0#8, 0#8, 0#8] = Nor.program m p [0#8, 0#8, 0#8, 0#8] := by
  refine Nor.ext_get hsize fun i => ?_
  rw [get_overwritten, get_overwritten]
  split
  · rfl
  · exact hget i (by omega)

theorem eq_program_of_clobbered (hsize : m'.size = m.size)
    (hget : ∀ i, i < p ∨ p + 4 ≤ i → Nor.get m' i = Nor.get m i)
    (h : (recordAt m' p).clobbered = true) : m' = Nor.program m p [0#8, 0#8, 0#8, 0#8] := by
  refine Nor.ext_get hsize fun i => ?_
  rw [get_overwritten]
  split
  · next hin => exact get_of_clobbered h hin.1 hin.2
  · exact hget i (by omega)

end Bytes

/-- The record says nothing: it is none that an append writes, or its head holds no
live root of its slot. -/
def IndexRecord.meaningless (w : World) (r : IndexRecord) : Bool :=
  r.malformed w.fs || (r.head != 0 && !rootIsLive w r.slot r.head)

theorem IndexRecord.meaningless_congr {w w' : World} (h : SameData w w') (r : IndexRecord) :
    r.meaningless w' = r.meaningless w := by
  rw [meaningless, meaningless, malformed, malformed, h.indexSectors, h.sectorCount, rootIsLive_congr h]

/-- A last record that says nothing is taken only if no bit of it is left. -/
theorem taken_meaningless {w : World} {endOff off : Nat}
    (hfree : freeFrom w.dev.mem (off + 4) endOff = true)
    (hmean : (recordAt w.dev.mem off).meaningless w = true) :
    taken w true endOff off = (recordAt w.dev.mem off).clobbered := by
  rw [IndexRecord.meaningless, bne] at hmean
  unfold taken
  dsimp only
  rw [hfree]
  revert hmean
  cases (recordAt w.dev.mem off).malformed w.fs with
  | true => simp
  | false =>
    cases (recordAt w.dev.mem off).head == 0 with
    | true => simp
    | false =>
      intro hmean
      simp only [Bool.not_false, Bool.false_or, Bool.true_and, Bool.not_eq_true'] at hmean
      simp [hmean]

/-- The record deletes a slot to which the records before it give no head. -/
def IndexRecord.idle (fs : Fs) (rs : List IndexRecord) (r : IndexRecord) : Bool :=
  !r.malformed fs && (r.head == 0 && logMap rs r.slot == 0)

theorem IndexRecord.idle_iff {fs : Fs} {rs : List IndexRecord} {r : IndexRecord} :
    r.idle fs rs = true ↔ r.malformed fs = false ∧ r.head = 0 ∧ logMap rs r.slot = 0 := by
  rw [idle, Bool.and_eq_true, Bool.and_eq_true, Bool.not_eq_true', beq_iff_eq, beq_iff_eq]

/-- Such a record leaves the map of the log as it is. -/
theorem IndexRecord.logMap_idle {fs : Fs} {rs : List IndexRecord} {r : IndexRecord}
    (h : r.idle fs rs = true) : logMap (rs ++ [r]) = logMap rs := by
  obtain ⟨-, hhead, hmap⟩ := idle_iff.mp h
  rw [logMap, List.map_append]
  refine (Journal.replay_append _ _ _).trans (Function.update_eq_self_iff.mpr ?_)
  exact hhead.trans hmap.symm

theorem taken_idle {w : World} {active : Bool} {endOff off : Nat} {rs : List IndexRecord}
    (h : (recordAt w.dev.mem off).idle w.fs rs = true) : taken w active endOff off = true := by
  obtain ⟨hmal, hhead, -⟩ := IndexRecord.idle_iff.mp h
  unfold taken
  dsimp only
  rw [hmal, hhead]
  simp

/-- The slots of the records that a scan takes. -/
theorem scanRecords_slot {w : World} {active : Bool} {endOff n off : Nat} :
    ∀ r ∈ (scanRecords w active endOff n off).records, r.clobbered = true ∨ r.slot ≠ 0 := by
  induction n generalizing off with
  | zero => simp [scanRecords]
  | succ n ih =>
    rw [scanRecords]
    by_cases herased : (recordAt w.dev.mem off).erased = true
    · simp [herased]
    · rw [if_neg herased]
      by_cases ht : taken w active endOff off = true
      · rw [if_pos ht]
        intro r hr
        rcases List.mem_cons.mp hr with rfl | hr
        · have hclean : (recordAt w.dev.mem off).clean w.fs = true := by
            rw [taken, Bool.or_eq_true, Bool.and_eq_true] at ht
            rw [IndexRecord.clean, Bool.or_eq_true]
            exact ht.imp_right And.left
          exact IndexRecord.clean_slot hclean
        · exact ih r hr
      · simp [ht]

theorem scanLog_slot {w : World} {n sector : Nat} :
    ∀ r ∈ (scanLog w n sector).records, r.clobbered = true ∨ r.slot ≠ 0 := by
  induction n generalizing sector with
  | zero => simp [scanLog]
  | succ n ih =>
    rw [scanLog]
    split
    · exact scanRecords_slot
    · intro r hr
      rcases List.mem_append.mp hr with hr | hr
      · exact scanRecords_slot r hr
      · exact ih r hr

variable [Opts]

section Replay

variable {v v1 : World} {m' : Mem} {sc : LogScan}

/-- The last record of the log is not taken, and the mount overwrites it. -/
structure Repairs (v : World) (sc : LogScan) : Prop where
  stop : sc.stop = .bad
  terminal : sc.terminal v = true
  applies : ((applyRecords sc.records).run v).1 = .ok ()

omit [Opts] in
theorem LogPlaced.withMem (hv : LogPlaced v) (hsize : m'.size = v.dev.mem.size) :
    LogPlaced (v.withMem m' []) := by
  have hsize' : (v.withMem m' []).dev.size = v.dev.size := hsize
  exact ⟨⟨rfl, hv.scratch, hv.size, hv.aligned, by rw [hsize']; exact hv.fits⟩, hv.granule_pos,
    by rw [hsize']; exact hv.granule_mod, hv.oldest_lt, hv.count_pos, hv.last⟩

namespace Repairs

variable (hr : Repairs v sc) (hv : LogPlaced v)
  (hsc : sc = scanLog v v.fs.indexSequenceCount v.fs.oldestIndexSector)
  (hget : ∀ i, i < sc.offset ∨ sc.offset + 4 ≤ i → Nor.get m' i = Nor.get v.dev.mem i)

include hr hv hsc hget

/-- The torn record lies in the index sectors. -/
theorem sameData (hsize : m'.size = v.dev.mem.size) : SameData v (v.withMem m' []) := by
  have hsector : sc.sector < v.fs.indexSectors := hsc ▸ scanLog_sector_lt hv.oldest_lt
  have hoffset := scanLog_offset (by have := hv.size; omega)
    (show (scanLog v v.fs.indexSequenceCount v.fs.oldestIndexSector).stop ≠ .full by
      rw [← hsc, hr.stop]; decide)
  rw [← hsc] at hoffset
  have hin : sc.offset + 4 ≤ v.fs.indexSectors * v.fs.sectorSize :=
    hoffset.2.trans (Nat.mul_le_mul_right _ hsector)
  exact ⟨hv.plan, rfl, hsize, rfl, rfl, rfl, fun a ha => hget a (by omega)⟩

omit hv hsc in
theorem free_again : freeFrom m' (sc.offset + 4) ((v.fs.activeIndexSector + 1) * v.fs.sectorSize) = true := by
  have hterm := hr.terminal
  rw [LogScan.terminal, Bool.and_eq_true, beq_iff_eq] at hterm
  obtain ⟨hsec, hfree⟩ := hterm
  rw [← hfree, hsec]
  exact freeFrom_congr fun i h1 _ => hget i (.inr h1)

/-- The scan of the log with other bytes in the torn record. -/
theorem scan_again (hsize : m'.size = v.dev.mem.size) (hne : (recordAt m' sc.offset).erased = false) :
    scanLog (v.withMem m' []) v.fs.indexSequenceCount v.fs.oldestIndexSector =
      if taken (v.withMem m' []) true ((v.fs.activeIndexSector + 1) * v.fs.sectorSize) sc.offset then
        ⟨⟨sc.records ++ [recordAt m' sc.offset],
          if sc.offset + 4 = (v.fs.activeIndexSector + 1) * v.fs.sectorSize then .full else .free⟩,
          v.fs.activeIndexSector, sc.offset + 4⟩
      else sc := by
  obtain ⟨n, hn⟩ : ∃ n, v.fs.indexSequenceCount = n + 1 :=
    ⟨v.fs.indexSequenceCount - 1, by have := hv.count_pos; omega⟩
  have hlast := hv.last
  have hs := hr.sameData hv hsc hget hsize
  rw [hn, Nat.add_sub_cancel] at hlast
  rw [hn] at hsc ⊢
  have hagain := scanLog_again hs hv.size hv.aligned hlast (hsc ▸ hr.stop) (hsc ▸ hr.terminal)
    (congrArg LogScan.offset hsc) hget hne
  rwa [← hsc] at hagain

omit hget in
/-- The replay overwrites the torn record. -/
theorem replay (hstrict : v.fs.strict = false) (hrun : (applyRecords sc.records).run v = (.ok (), v1)) :
    replayIndex.run v = (allocatorHint (lastHead 0 sc.records)).run
      ((v1.withMem (Nor.program v.dev.mem sc.offset [0#8, 0#8, 0#8, 0#8]) []).withNext (sc.offset + 4)) := by
  have hout := replayIndex_outcome hv
  rw [← hsc, ReplayOutcome, hrun] at hout
  dsimp only at hout
  rwa [if_neg (not_not.mpr hr.stop), if_pos ⟨hstrict, hr.terminal⟩] at hout

/-- The replay enters what is left of the torn record when that is taken and has no head. -/
theorem replay_taken (hsize : m'.size = v.dev.mem.size) (hne : (recordAt m' sc.offset).erased = false)
    (htaken : taken (v.withMem m' []) true ((v.fs.activeIndexSector + 1) * v.fs.sectorSize) sc.offset = true)
    (hhead : (recordAt m' sc.offset).head = 0) (hrun : (applyRecords sc.records).run v = (.ok (), v1))
    (henter : (applyRecord (recordAt m' sc.offset)).run (v1.withMem m' []) = (.ok (), v1.withMem m' [])) :
    replayIndex.run (v.withMem m' []) =
      (allocatorHint (lastHead 0 sc.records)).run ((v1.withMem m' []).withNext (sc.offset + 4)) := by
  have hout := replayIndex_outcome (hv.withMem hsize)
  have hscan := hr.scan_again hv hsc hget hsize hne
  rw [if_pos htaken] at hscan
  change ReplayOutcome (v.withMem m' [])
    (scanLog (v.withMem m' []) v.fs.indexSequenceCount v.fs.oldestIndexSector) _ at hout
  have happly := @applyRecords_aside _ v sc.records _ (aside_withMem m' [])
  rw [hrun] at happly
  have happlyAll : (applyRecords (sc.records ++ [recordAt m' sc.offset])).run (v.withMem m' []) =
      (.ok (), v1.withMem m' []) := by
    rw [applyRecords_append, bind_of_ok happly, applyRecords, bind_of_ok henter]
    rfl
  have hlasthead : lastHead 0 (sc.records ++ [recordAt m' sc.offset]) = lastHead 0 sc.records := by
    rw [lastHead, lastHead, List.foldl_append, List.foldl_cons, List.foldl_nil, if_pos hhead]
  rw [hscan, ReplayOutcome] at hout
  dsimp only at hout
  rw [happlyAll] at hout
  dsimp only at hout
  rwa [if_pos (by split <;> decide), hlasthead] at hout

end Repairs

/-- The replay ends in the same world when the torn record has lost more bits and
still says nothing. -/
theorem replayIndex_again (hv : LogPlaced v) (hstrict : v.fs.strict = false)
    (hsc : sc = scanLog v v.fs.indexSequenceCount v.fs.oldestIndexSector) (hr : Repairs v sc)
    (hsize : m'.size = v.dev.mem.size)
    (hget : ∀ i, i < sc.offset ∨ sc.offset + 4 ≤ i → Nor.get m' i = Nor.get v.dev.mem i)
    (hne : (recordAt m' sc.offset).erased = false)
    (hmean : (recordAt m' sc.offset).meaningless v = true) :
    replayIndex.run (v.withMem m' []) = replayIndex.run v := by
  have hs := hr.sameData hv hsc hget hsize
  have hfree : freeFrom (v.withMem m' []).dev.mem (sc.offset + 4)
      ((v.fs.activeIndexSector + 1) * v.fs.sectorSize) = true := hr.free_again hget
  have htaken := taken_meaningless hfree ((IndexRecord.meaningless_congr hs _).trans hmean)
  obtain ⟨v1, hrun⟩ : ∃ v1, (applyRecords sc.records).run v = (.ok (), v1) := ⟨_, Prod.ext hr.applies rfl⟩
  rw [hr.replay hv hsc hstrict hrun]
  by_cases hclob : (recordAt m' sc.offset).clobbered = true
  · rw [hr.replay_taken hv hsc hget hsize hne (htaken.trans hclob) (IndexRecord.clobbered_iff.mp hclob).2 hrun,
      ← eq_program_of_clobbered hsize hget hclob]
    rw [applyRecord, if_pos hclob]
    rfl
  · -- it is overwritten again
    have hscan := hr.scan_again hv hsc hget hsize hne
    rw [if_neg (fun h => hclob (htaken.symm.trans h))] at hscan
    have hterm : sc.terminal (v.withMem m' []) = true := by
      have hterm := hr.terminal
      rw [LogScan.terminal, Bool.and_eq_true, beq_iff_eq] at hterm ⊢
      refine ⟨hterm.1, ?_⟩
      rw [hterm.1]
      exact hfree
    have happly := @applyRecords_aside _ v sc.records _ (aside_withMem m' [])
    rw [hrun] at happly
    have hr' : Repairs (v.withMem m' []) sc := ⟨hr.stop, hterm, by rw [happly]⟩
    have hprog : Nor.program (v.withMem m' []).dev.mem sc.offset [0#8, 0#8, 0#8, 0#8] =
        Nor.program v.dev.mem sc.offset [0#8, 0#8, 0#8, 0#8] := program_overwritten hsize hget
    rw [hr'.replay (hv.withMem hsize) hscan.symm hstrict happly, hprog]
    rfl

/-- The replay leaves what the torn record says when that is a delete of a slot without a file. -/
theorem replayIndex_idle (hv : LogPlaced v) (hstrict : v.fs.strict = false) (hc : CacheIs v.fs fun _ => 0)
    (hsc : sc = scanLog v v.fs.indexSequenceCount v.fs.oldestIndexSector) (hr : Repairs v sc)
    (hsize : m'.size = v.dev.mem.size)
    (hget : ∀ i, i < sc.offset ∨ sc.offset + 4 ≤ i → Nor.get m' i = Nor.get v.dev.mem i)
    (hidle : (recordAt m' sc.offset).idle v.fs sc.records = true) :
    replayIndex.run (v.withMem m' []) = ((replayIndex.run v).1, (replayIndex.run v).2.withMem m' []) := by
  obtain ⟨hmal, hhead, hmap⟩ := IndexRecord.idle_iff.mp hidle
  obtain ⟨v1, hrun⟩ : ∃ v1, (applyRecords sc.records).run v = (.ok (), v1) := ⟨_, Prod.ext hr.applies rfl⟩
  obtain ⟨b, heads, hv1⟩ := applyRecords_recached hv.plan hrun
  have hslot : (recordAt m' sc.offset).slot ≠ 0 := by
    intro h0
    rw [← Bool.not_eq_true, IndexRecord.malformed_iff] at hmal
    exact hmal (.inl (.inl h0))
  have hne : (recordAt m' sc.offset).erased = false := by
    apply Bool.eq_false_of_not_eq_true
    intro herased
    rw [IndexRecord.erased, Bool.and_eq_true, hhead] at herased
    exact absurd herased.2 (by decide)
  -- the cache has no head for the slot
  have hslots : ∀ r ∈ sc.records, r.clobbered = true ∨ r.slot ≠ 0 := hsc ▸ scanLog_slot
  have hfits := @applyRecords_fits _ v v1 [] sc.records hc hslots (fun _ => Journal.fits_nil _) hrun
  obtain ⟨b', heads', hrun', hc'⟩ := @applyRecords_run _ v [] sc.records hc hslots hfits
  obtain rfl : v1 = v.withCache b' heads' := by
    rw [hrun] at hrun'
    exact congrArg Prod.snd hrun'
  have henter : (applyRecord (recordAt m' sc.offset)).run ((v.withCache b' heads').withMem m' []) =
      (.ok (), (v.withCache b' heads').withMem m' []) := by
    have hnot : ¬ (recordAt m' sc.offset).clobbered = true :=
      fun h => hslot (IndexRecord.clobbered_iff.mp h).1
    rw [applyRecord, if_neg hnot, indexSet, if_pos hhead]
    exact indexRemove_absent (hc'.congr rfl rfl rfl) hslot hmap
  rw [hr.replay_taken hv hsc hget hsize hne (taken_idle hidle) hhead hrun henter, hr.replay hv hsc hstrict hrun]
  refine allocatorHint_aside (f := (World.withMem · m' [])) (v := ((v.withCache b' heads').withMem
    (Nor.program v.dev.mem sc.offset [0#8, 0#8, 0#8, 0#8]) []).withNext (sc.offset + 4)) ?_ _
  refine ⟨fun c s => ?_, fun _ => rfl, fun _ => rfl, fun _ _ _ => rfl⟩
  have hdata := hr.sameData hv hsc hget hsize
  refine ⟨rfl, rfl, hsize, rfl, rfl, rfl, fun a ha => (hdata.data a ha).trans ?_⟩
  have hprog : ∀ i, i < sc.offset ∨ sc.offset + 4 ≤ i →
      Nor.get (Nor.program v.dev.mem sc.offset [0#8, 0#8, 0#8, 0#8]) i = Nor.get v.dev.mem i := by
    intro i hi
    rw [get_overwritten, if_neg (by omega)]
  exact ((hr.sameData hv hsc hprog rfl).data a ha).symm

/-- The flash after a replay. -/
theorem replayIndex_mem (hv : LogPlaced v) (hstrict : v.fs.strict = false) {sc : LogScan}
    (hsc : sc = scanLog v v.fs.indexSequenceCount v.fs.oldestIndexSector) :
    (Repairs v sc ∧
      (replayIndex.run v).2.dev.mem = Nor.program v.dev.mem sc.offset [0#8, 0#8, 0#8, 0#8]) ∨
    (replayIndex.run v).2.dev.mem = v.dev.mem := by
  have hout := replayIndex_outcome hv
  rw [← hsc, ReplayOutcome] at hout
  have hhint : ∀ (a : World) (tail : Nat), a.dev.plan = [] →
      ((allocatorHint tail).run a).2.dev.mem = a.dev.mem := by
    intro a tail ha
    obtain ⟨c, serial, hrun⟩ := allocatorHint_run ha tail
    rw [hrun]
    rfl
  rcases hrun : (applyRecords sc.records).run v with ⟨r1, v1⟩
  rw [hrun] at hout
  obtain ⟨b, heads, hv1⟩ := applyRecords_recached hv.plan hrun
  cases r1 with
  | error e =>
    right
    obtain ⟨x, hx⟩ := hout
    rw [hx, hv1]
    rfl
  | ok a =>
    dsimp only at hout
    by_cases hstop : sc.stop = .bad
    · rw [if_neg (not_not.mpr hstop)] at hout
      by_cases hterm : sc.terminal v = true
      · left
        rw [if_pos ⟨hstrict, hterm⟩] at hout
        refine ⟨⟨hstop, hterm, by rw [hrun]⟩, ?_⟩
        rw [hout, hhint _ _ rfl]
        rfl
      · right
        rw [if_neg (fun h => hterm h.2)] at hout
        obtain ⟨x, hx⟩ := hout
        rw [hx, hv1]
        rfl
    · right
      rw [if_pos hstop] at hout
      rw [hout, hhint _ _ (by rw [hv1]; exact hv.plan), hv1]
      rfl

end Replay

/-! ## Mounting again -/

section Mount

omit [Opts] in
/-- The lifecycle byte of a valid header. -/
theorem headerAt_flags {m : Mem} {off : Nat} {h : IndexHeader} (hv : headerAt m off = some h) :
    Nor.get m (off + 7) = indexFlagsValid := by
  have hbyte : ∀ b : Fin 256, ¬ (BitVec.ofFin b &&& 0x80#8 ≠ 0#8 ∨ BitVec.ofFin b &&& 0x40#8 = 0#8 ∨
      BitVec.ofFin b &&& 0x20#8 = 0#8 ∨ BitVec.ofFin b &&& 0x1f#8 ≠ 0x1f#8) →
      BitVec.ofFin b = indexFlagsValid := by
    decide +kernel
  have h7 : byteAt (Nor.read m off headerSize) 7 = Nor.get m (off + 7) := by
    rw [byteAt, Nor.getD_read _ _ _ _ _ (by decide)]
  rw [headerAt, validIndexHeader] at hv
  split at hv
  · simp at hv
  · split at hv
    · simp at hv
    · next hflags =>
      rw [h7] at hflags
      exact hbyte (Nor.get m (off + 7)).toFin hflags

omit [Opts] in
/-- A byte between a valid lifecycle byte and a tombstoned one is one of them. -/
theorem flags_between {b : Byte} (h1 : b &&& indexFlagsValid = b)
    (h2 : (indexFlagsValid &&& ~~~0x40#8) &&& b = indexFlagsValid &&& ~~~0x40#8) :
    b = indexFlagsValid ∨ b = indexFlagsValid &&& ~~~0x40#8 := by
  have hall : ∀ b : Fin 256, BitVec.ofFin b &&& indexFlagsValid = BitVec.ofFin b →
      (indexFlagsValid &&& ~~~0x40#8) &&& BitVec.ofFin b = indexFlagsValid &&& ~~~0x40#8 →
      BitVec.ofFin b = indexFlagsValid ∨ BitVec.ofFin b = indexFlagsValid &&& ~~~0x40#8 := by
    decide +kernel
  exact hall b.toFin h1 h2

omit [Opts] in
theorem IndexSequence.finish_full {seq : IndexSequence} (hwf : seq.ring.Wf) :
    seq.finish.full = false := by
  have hge : 2 ≤ seq.indexSectors := hwf.sectors_ge
  have hle : seq.count ≤ seq.indexSectors := hwf.count_le
  apply Bool.eq_false_of_not_eq_true
  rw [IndexSequence.full_iff]
  unfold finish
  split
  · dsimp only
    omega
  · next hfull => exact fun h => hfull (IndexSequence.full_iff.mpr h)

omit [Opts] in
/-- The bytes after the oldest sector of a full ring is dropped. -/
theorem Found.get_finishMem {m : Mem} {seq : IndexSequence} (hf : Found m seq) (i : Nat) :
    Nor.get (seq.finishMem m) i =
      if seq.full = true ∧ i = seq.oldestSector * sectorSizeOf seq.sectorShift + 7 then
        indexFlagsValid &&& ~~~0x40#8
      else Nor.get m i := by
  unfold IndexSequence.finishMem
  by_cases hfull : seq.full = true
  · have hlt : seq.ring.place seq.oldestSector < seq.count := by
      have h0 : seq.ring.place seq.oldestSector = 0 := by
        change seq.ring.place seq.ring.oldest = 0
        rw [IndexRing.place, if_pos le_rfl, Nat.sub_self]
      rw [h0]
      exact hf.wf.count_pos
    have hflags := headerAt_flags (hf.headers seq.oldestSector hf.wf.oldest_lt hlt)
    rw [if_pos hfull]
    by_cases hi : i = seq.oldestSector * sectorSizeOf seq.sectorShift + 7
    · rw [if_pos ⟨hfull, hi⟩, hi, Nor.get_program, if_pos le_rfl, Nat.sub_self, hflags]
      decide
    · rw [if_neg fun h => hi h.2, Nor.get_program_of_notMem]
      rw [List.length_singleton]
      omega
  · rw [if_neg hfull, if_neg fun h => hfull h.1]

omit [Opts] in
/-- The sequence that a mount finds after another one has lost power: the bytes of `P`
may be anything, and the oldest sector of a full ring may be dropped or not. -/
theorem mountable_again {m m' : Mem} {seq : IndexSequence} {P : Nat → Prop}
    (hm : mountable m = some seq) (hsize : m'.size = m.size)
    (hno : noEarlierSequence m' seq.sectorShift)
    (hP : ∀ i, P i → headerSize ≤ i % sectorSizeOf seq.sectorShift)
    (hflags : seq.full = true →
      Nor.get m' (seq.oldestSector * sectorSizeOf seq.sectorShift + 7) = indexFlagsValid ∨
      Nor.get m' (seq.oldestSector * sectorSizeOf seq.sectorShift + 7) =
        indexFlagsValid &&& ~~~0x40#8)
    (hget : ∀ i, ¬ (seq.full = true ∧ i = seq.oldestSector * sectorSizeOf seq.sectorShift + 7) → ¬ P i →
      Nor.get m' i = Nor.get m i) :
    ∃ seq', mountable m' = some seq' ∧ seq'.finish = seq.finish ∧
      (∀ i, ¬ P i → Nor.get (seq'.finishMem m') i = Nor.get (seq.finishMem m) i) ∧
      ∀ i, P i → Nor.get (seq'.finishMem m') i = Nor.get m' i := by
  have hfilter := hm
  rw [mountable, Option.filter_eq_some_iff, decide_eq_true_eq] at hfilter
  obtain ⟨hfind, hcount⟩ := hfilter
  obtain ⟨hshift, hmod, -, hprobed⟩ := findSequence_iff.mp hfind
  have hf := (mountable_some hm).1
  have hS := sectorSizeOf_ge seq.sectorShift
  have hmount : ∀ seq' : IndexSequence, seq'.sectorShift = seq.sectorShift →
      probed m' seq.sectorShift = some seq' → mountable m' = some seq' := by
    intro seq' hs' hp'
    rw [mountable, Option.filter_eq_some_iff, decide_eq_true_eq, findSequence_iff, hs', hsize]
    exact ⟨⟨hshift, hmod, hno, hp'⟩, hcount⟩
  have hT : (seq.oldestSector * sectorSizeOf seq.sectorShift + 7) % sectorSizeOf seq.sectorShift = 7 := by
    exact Nat.mul_add_mod_of_lt (by omega)
  have hPT : ¬ P (seq.oldestSector * sectorSizeOf seq.sectorShift + 7) := by
    intro h
    have hge := hP _ h
    rw [hT, headerSize] at hge
    omega
  by_cases htomb : seq.full = true ∧
      Nor.get m' (seq.oldestSector * sectorSizeOf seq.sectorShift + 7) = indexFlagsValid &&& ~~~0x40#8
  · -- the oldest sector is dropped already
    obtain ⟨hfull, htomb⟩ := htomb
    have hnone : headerAt m' (seq.oldestSector * sectorSizeOf seq.sectorShift) = none := by
      apply validIndexHeader_tombstoned
      rw [byteAt, Nor.getD_read _ _ _ _ _ (by decide), htomb]
      decide
    have hsame : ∀ i < seq.indexSectors, i ≠ seq.oldestSector →
        headerAt m' (i * sectorSizeOf seq.sectorShift) = headerAt m (i * sectorSizeOf seq.sectorShift) := by
      intro i hi hne
      rw [headerAt, headerAt, Nor.read_congr]
      intro a ha1 ha2
      rw [headerSize] at ha2
      refine hget a ?_ fun h => ?_
      · rintro ⟨-, rfl⟩
        rcases Nat.lt_or_gt_of_ne hne with hlt | hgt
        · have hmul := sector_mul_le (sectorSizeOf seq.sectorShift) hlt
          omega
        · have hmul := sector_mul_le (sectorSizeOf seq.sectorShift) hgt
          omega
      · have hge := hP a h
        have ha : a = i * sectorSizeOf seq.sectorShift + (a - i * sectorSizeOf seq.sectorShift) := by
          omega
        rw [ha, Nat.mul_add_mod_of_lt (by omega), headerSize] at hge
        omega
    have hshift' : seq.finish.sectorShift = seq.sectorShift := by
      rw [IndexSequence.finish, if_pos hfull]
    have hnot := IndexSequence.finish_full hf.wf
    have hid : seq.finish.finishMem m' = m' := by
      rw [IndexSequence.finishMem, hnot]
      rfl
    refine ⟨seq.finish, hmount _ hshift' (probed_finish hprobed hfull hsize hnone hsame), ?_, ?_, ?_⟩
    · conv_lhs => rw [IndexSequence.finish, hnot]
      rfl
    · intro i hi
      rw [hid, hf.get_finishMem]
      split
      · next h => rw [h.2, htomb]
      · next h => exact hget i h hi
    · intro i _
      rw [hid]
  · -- the headers are what they were
    have hflags' : seq.full = true →
        Nor.get m' (seq.oldestSector * sectorSizeOf seq.sectorShift + 7) =
          Nor.get m (seq.oldestSector * sectorSizeOf seq.sectorShift + 7) := by
      intro hfull
      have hvalid := (hflags hfull).resolve_right fun h => htomb ⟨hfull, h⟩
      have hlt : seq.ring.place seq.oldestSector < seq.count :=
        Nat.lt_of_lt_of_eq ((hf.headersOf_place hfull) _ hf.wf.oldest_lt) rfl
      rw [hvalid, headerAt_flags (hf.headers seq.oldestSector hf.wf.oldest_lt hlt)]
    have hheaders : SameHeaders m m' seq.sectorShift := by
      refine .ofGet hsize fun i hi => ?_
      by_cases hiT : seq.full = true ∧ i = seq.oldestSector * sectorSizeOf seq.sectorShift + 7
      · rw [hiT.2]
        exact hflags' hiT.1
      · exact hget i hiT fun h => by have := hP i h; omega
    have hprobed' := (probed_congr hheaders).trans hprobed
    have hf' := (probed_found hprobed').1
    refine ⟨seq, hmount _ rfl hprobed', rfl, fun i hi => ?_, fun i hi => ?_⟩
    · rw [hf.get_finishMem, hf'.get_finishMem]
      split
      · rfl
      · next h => exact hget i h hi
    · rw [hf'.get_finishMem, if_neg]
      rintro ⟨-, rfl⟩
      exact hPT hi

omit [Opts] in
/-- The place at which a scan stops for a record is not blank. -/
theorem scanLog_bad {w : World} {n sector : Nat} (hbad : (scanLog w (n + 1) sector).stop = .bad) :
    (recordAt w.dev.mem (scanLog w (n + 1) sector).offset).erased = false := by
  induction n generalizing sector with
  | zero =>
    rw [scanLog_one] at hbad ⊢
    obtain ⟨j, k, -, hlen, -, hne, -⟩ := scanRecords_bad hbad
    dsimp only
    rw [scanSector, hlen]
    exact hne
  | succ n ih =>
    by_cases hs : (scanSector w sector).stop = .bad
    · rw [scanLog, if_pos (.inl hs)]
      obtain ⟨j, k, -, hlen, -, hne, -⟩ := scanRecords_bad hs
      dsimp only
      rw [scanSector, hlen]
      exact hne
    · rw [scanLog_next hs] at hbad ⊢
      exact ih hbad

/-- The scan of the log that a mount replays. -/
def mountScan (w : World) (o : MountOptions) (seq : IndexSequence) : LogScan :=
  let v := replayWorld w o seq
  scanLog v v.fs.indexSequenceCount v.fs.oldestIndexSector

/-- What a loss of power must leave alone: no size that is probed earlier leads to a
sequence, and a torn last record still says nothing or deletes a slot that has no file. -/
def Undisturbed (o : MountOptions) (w w' : World) : Prop :=
  ∀ seq, mountable w.dev.mem = some seq →
    noEarlierSequence w'.dev.mem seq.sectorShift ∧
    (let v := replayWorld w o seq
     let sc := mountScan w o seq
     sc.stop = .bad → sc.terminal v = true →
       (recordAt w'.dev.mem sc.offset).meaningless v = true ∨
         (recordAt w'.dev.mem sc.offset).idle v.fs sc.records = true)

/-- The flash `m` is the one after a mount of `w`, but for the torn record.  That is the one of
`m'`, which deletes a slot without a file and leaves the map of the log as it is. -/
structure LeftDelete (o : MountOptions) (w : World) (seq : IndexSequence) (m' m : Mem) : Prop where
  mountable : mountable w.dev.mem = some seq
  repairs : Repairs (replayWorld w o seq) (mountScan w o seq)
  idle : (recordAt m' (mountScan w o seq).offset).idle (replayWorld w o seq).fs
    (mountScan w o seq).records = true
  map : logMap ((mountScan w o seq).records ++ [recordAt m (mountScan w o seq).offset]) =
    logMap (mountScan w o seq).records
  size : m.size = ((mount o).run w).2.dev.mem.size
  torn : ∀ i, (mountScan w o seq).offset ≤ i → i < (mountScan w o seq).offset + 4 →
    Nor.get m i = Nor.get m' i
  rest : ∀ i, i < (mountScan w o seq).offset ∨ (mountScan w o seq).offset + 4 ≤ i →
    Nor.get m i = Nor.get ((mount o).run w).2.dev.mem i

/-- A mount of `w'` ends as the mount of `w` does.  Only a torn record that deletes a slot without a
file may be left on the flash. -/
def Resumes (o : MountOptions) (w w' : World) : Prop :=
  (mount o).run w' = (mount o).run w ∨
    ∃ seq m, LeftDelete o w seq w'.dev.mem m ∧
      (mount o).run w' = (((mount o).run w).1, ((mount o).run w).2.withMem m [])

theorem replayWorld_geometry (w : World) (o : MountOptions) (seq : IndexSequence) :
    (replayWorld w o seq).fs.sectorSize = sectorSizeOf seq.sectorShift ∧
      (replayWorld w o seq).fs.strict = o.strict := by
  obtain ⟨map, hmap⟩ := allocMapInit_eq (mountedFs w.dev.size o seq.finish)
  have hshift : seq.finish.sectorShift = seq.sectorShift := by
    unfold IndexSequence.finish
    split <;> rfl
  constructor
  · change (allocMapInit _).sectorSize = _
    rw [hmap]
    change sectorSizeOf seq.finish.sectorShift = _
    rw [hshift]
  · change (allocMapInit _).strict = _
    rw [hmap]
    rfl

theorem replayWorld_cache {w : World} {o : MountOptions} {seq : IndexSequence} (hok : mountOptionsOk w o) :
    CacheIs (replayWorld w o seq).fs fun _ => 0 := by
  obtain ⟨map, hmap⟩ := allocMapInit_eq (mountedFs w.dev.size o seq.finish)
  change CacheIs (allocMapInit (mountedFs w.dev.size o seq.finish)) _
  rw [hmap]
  exact (mountedFs_cache _ hok.2.1).congr rfl rfl rfl

theorem mount_mem {w : World} {o : MountOptions} {seq : IndexSequence} (hplan : w.dev.plan = [])
    (hok : mountOptionsOk w o) (hm : mountable w.dev.mem = some seq) :
    ((mount o).run w).2.dev.mem = (replayIndex.run (replayWorld w o seq)).2.dev.mem := by
  rw [mount_run hplan hok, hm]
  dsimp only
  rcases replayIndex.run (replayWorld w o seq) with ⟨r, w'⟩
  cases r <;> rfl

section Between

variable {v w : World} {o : MountOptions} {seq : IndexSequence} {sc : LogScan} {m m' : Mem} {i : Nat}

/-- A byte of the last record, which the replay overwrites. -/
def InTorn (v : World) (sc : LogScan) (i : Nat) : Prop :=
  Repairs v sc ∧ sc.offset ≤ i ∧ i < sc.offset + 4

/-- The torn record lies behind the header of its sector. -/
theorem InTorn.behind (h : InTorn v sc i) (hv : LogPlaced v)
    (hsc : sc = scanLog v v.fs.indexSequenceCount v.fs.oldestIndexSector) :
    headerSize ≤ i % v.fs.sectorSize := by
  obtain ⟨hr, h1, h2⟩ := h
  have hsize := hv.size
  have hoff := scanLog_offset (by omega)
    (show (scanLog v v.fs.indexSequenceCount v.fs.oldestIndexSector).stop ≠ .full by
      rw [← hsc, hr.stop]; decide)
  rw [← hsc, indexSectorBegin, headerSize, Nat.add_mul, Nat.one_mul] at hoff
  have hi : i = sc.sector * v.fs.sectorSize + (i - sc.sector * v.fs.sectorSize) := by omega
  rw [hi, Nat.mul_add_mod_of_lt (by omega), headerSize]
  omega

/-- A lifecycle byte of a sector is none of it. -/
theorem not_inTorn_flags (hv : LogPlaced v)
    (hsc : sc = scanLog v v.fs.indexSequenceCount v.fs.oldestIndexSector) (sector : Nat) :
    ¬ InTorn v sc (sector * v.fs.sectorSize + 7) := by
  intro h
  have hge := h.behind hv hsc
  have hsize := hv.size
  rw [Nat.mul_add_mod_of_lt (by omega), headerSize] at hge
  omega

/-- A replay changes the torn record at most. -/
theorem replayIndex_get (hv : LogPlaced v) (hstrict : v.fs.strict = false)
    (hsc : sc = scanLog v v.fs.indexSequenceCount v.fs.oldestIndexSector) (hi : ¬ InTorn v sc i) :
    Nor.get (replayIndex.run v).2.dev.mem i = Nor.get v.dev.mem i := by
  rcases replayIndex_mem hv hstrict hsc with ⟨hr, hmem⟩ | hmem
  · rw [hmem, get_overwritten, if_neg fun h => hi ⟨hr, h⟩]
  · rw [hmem]

/-- The torn record is not blank in a flash whose blank bytes of it were blank before. -/
theorem Repairs.not_erased (hr : Repairs v sc) (hv : LogPlaced v)
    (hsc : sc = scanLog v v.fs.indexSequenceCount v.fs.oldestIndexSector)
    (hblank : ∀ i, InTorn v sc i → Nor.get m i = blank → Nor.get v.dev.mem i = blank) :
    (recordAt m sc.offset).erased = false := by
  obtain ⟨n, hn⟩ : ∃ n, v.fs.indexSequenceCount = n + 1 :=
    ⟨v.fs.indexSequenceCount - 1, by have := hv.count_pos; omega⟩
  have hne : (recordAt v.dev.mem sc.offset).erased = false := by
    have hstop := hr.stop
    rw [hn] at hsc
    rw [hsc] at hstop ⊢
    exact scanLog_bad hstop
  apply Bool.eq_false_of_not_eq_true
  intro herased
  obtain ⟨a, ha1, ha2, ha⟩ := recordAt_not_erased hne
  rw [recordAt_erased_iff, freeFrom_iff] at herased
  exact ha (hblank a ⟨hr, ha1, ha2⟩ (herased a ha1 ha2))

/-- A replay of a flash that differs in the torn record ends as the replay of `v` does, if what is
left of the record says nothing. -/
theorem replayIndex_between (hv : LogPlaced v) (hstrict : v.fs.strict = false)
    (hsc : sc = scanLog v v.fs.indexSequenceCount v.fs.oldestIndexSector)
    (hsize : m.size = v.dev.mem.size) (hsame : ∀ i, ¬ InTorn v sc i → Nor.get m i = Nor.get v.dev.mem i)
    (hblank : ∀ i, InTorn v sc i → Nor.get m i = blank → Nor.get v.dev.mem i = blank)
    (hmean : Repairs v sc → (recordAt m sc.offset).meaningless v = true) :
    replayIndex.run (v.withMem m []) = replayIndex.run v := by
  by_cases hr : Repairs v sc
  · exact replayIndex_again hv hstrict hsc hr hsize (fun i hi => hsame i fun h => by have := h.2; omega)
      (hr.not_erased hv hsc hblank) (hmean hr)
  · have heq : m = v.dev.mem := Nor.ext_get hsize fun i => hsame i fun h => hr h.1
    rw [heq, World.withMem, ← hv.plan]

/-- The sequence of a flash between the flash before a mount and the flash after it. -/
theorem mountable_between (hplan : w.dev.plan = []) (hok : mountOptionsOk w o) (hstrict : o.strict = false)
    (hm : mountable w.dev.mem = some seq) (hhigh : Below m' w.dev.mem)
    (hlow : Below ((mount o).run w).2.dev.mem m') (hno : noEarlierSequence m' seq.sectorShift)
    (hsc : sc = scanLog (replayWorld w o seq) (replayWorld w o seq).fs.indexSequenceCount
      (replayWorld w o seq).fs.oldestIndexSector) :
    ∃ seq', mountable m' = some seq' ∧ seq'.finish = seq.finish ∧
      (∀ i, ¬ InTorn (replayWorld w o seq) sc i →
        Nor.get (seq'.finishMem m') i = Nor.get (seq.finishMem w.dev.mem) i) ∧
      ∀ i, InTorn (replayWorld w o seq) sc i → Nor.get (seq'.finishMem m') i = Nor.get m' i := by
  have hf := (mountable_some hm).1
  have hv := replayWorld_placed hplan hok hf
  obtain ⟨hvsize, hvstrict⟩ := replayWorld_geometry w o seq
  rw [hstrict] at hvstrict
  rw [mount_mem hplan hok hm] at hlow
  have hmf : ∀ i, ¬ InTorn (replayWorld w o seq) sc i →
      Nor.get (replayIndex.run (replayWorld w o seq)).2.dev.mem i = Nor.get (seq.finishMem w.dev.mem) i :=
    fun i hi => replayIndex_get hv hvstrict hsc hi
  have hflags : seq.full = true →
      Nor.get m' (seq.oldestSector * sectorSizeOf seq.sectorShift + 7) = indexFlagsValid ∨
      Nor.get m' (seq.oldestSector * sectorSizeOf seq.sectorShift + 7) = indexFlagsValid &&& ~~~0x40#8 := by
    intro hfull
    have hlt := hf.headersOf_place hfull seq.oldestSector hf.wf.oldest_lt
    have hvalid := headerAt_flags (hf.headers seq.oldestSector hf.wf.oldest_lt hlt)
    have h1 := hhigh.get (seq.oldestSector * sectorSizeOf seq.sectorShift + 7)
    have h2 := hlow.get (seq.oldestSector * sectorSizeOf seq.sectorShift + 7)
    rw [hmf _ (hvsize ▸ not_inTorn_flags hv hsc _), hf.get_finishMem, if_pos ⟨hfull, rfl⟩] at h2
    rw [hvalid] at h1
    exact flags_between h1 h2
  refine mountable_again hm hhigh.size hno (fun i h => hvsize ▸ h.behind hv hsc) hflags ?_
  intro i hiT hiP
  refine hlow.between hhigh ?_
  rw [hmf i hiP, hf.get_finishMem, if_neg hiT]

/-- A mount of a flash between the flash before another mount and the flash after it is the replay of
the log of that mount. -/
theorem mount_between_run (hok : mountOptionsOk w o) (hhigh : Below m' w.dev.mem)
    {seq' : IndexSequence} (hm' : mountable m' = some seq') (hfin : seq'.finish = seq.finish) :
    (mount o).run (w.withMem m' []) =
      afterReplay (replayIndex.run ((replayWorld w o seq).withMem (seq'.finishMem m') [])) := by
  have hsize : (w.withMem m' []).dev.size = w.dev.size := hhigh.size
  have hok' : mountOptionsOk (w.withMem m' []) o := by
    refine ⟨?_, hok.2⟩
    rw [validBackend, hsize]
    exact hok.1
  have hworld : replayWorld (w.withMem m' []) o seq' =
      (replayWorld w o seq).withMem (seq'.finishMem m') [] := by
    rw [replayWorld, replayWorld, hfin, hsize]
    rfl
  rw [mount_run rfl hok', show mountable (w.withMem m' []).dev.mem = some seq' from hm']
  dsimp only
  rw [hworld]

/-- A mount of a flash between the flash before another mount and the flash after it
ends as that mount does. -/
theorem mount_between (hplan : w.dev.plan = [])
    (hok : mountOptionsOk w o) (hstrict : o.strict = false) (hhigh : Below m' w.dev.mem)
    (hlow : Below ((mount o).run w).2.dev.mem m') (hund : Undisturbed o w (w.withMem m' [])) :
    Resumes o w (w.withMem m' []) := by
  rcases hm : mountable w.dev.mem with _ | seq
  · -- nothing is mounted, and nothing is changed
    rw [mount_run hplan hok, hm] at hlow
    left
    rw [Nor.ext_get hhigh.size fun i => hlow.between hhigh rfl, World.withMem, ← hplan]
  · obtain ⟨hno, hleft⟩ := hund seq hm
    have hf := (mountable_some hm).1
    have hv := replayWorld_placed hplan hok hf
    obtain ⟨hvsize, hvstrict⟩ := replayWorld_geometry w o seq
    rw [hstrict] at hvstrict
    obtain ⟨seq', hm', hfin, hsame, hother⟩ := mountable_between hplan hok hstrict hm hhigh hlow hno rfl
    have hsize : (seq'.finishMem m').size = (seq.finishMem w.dev.mem).size := by
      rw [seq'.size_finishMem, seq.size_finishMem, hhigh.size]
    have hrun' := mount_between_run hok hhigh hm' hfin
    have hrun : (mount o).run w = afterReplay (replayIndex.run (replayWorld w o seq)) := by
      rw [mount_run hplan hok, hm]
    change ∀ i, ¬ InTorn (replayWorld w o seq) (mountScan w o seq) i → _ at hsame
    change ∀ i, InTorn (replayWorld w o seq) (mountScan w o seq) i → _ at hother
    by_cases hidle : Repairs (replayWorld w o seq) (mountScan w o seq) ∧
        (recordAt m' (mountScan w o seq).offset).idle (replayWorld w o seq).fs (mountScan w o seq).records = true
    · -- the torn record has become a delete of a slot without a file, and it stays
      obtain ⟨hr, hidle⟩ := hidle
      right
      have hrec : recordAt (seq'.finishMem m') (mountScan w o seq).offset =
          recordAt m' (mountScan w o seq).offset :=
        recordAt_congr fun i h1 h2 => hother i ⟨hr, h1, h2⟩
      have hout : ∀ i, i < (mountScan w o seq).offset ∨ (mountScan w o seq).offset + 4 ≤ i →
          ¬ InTorn (replayWorld w o seq) (mountScan w o seq) i := fun i hi h => by have := h.2; omega
      have hreplay := replayIndex_idle hv hvstrict (replayWorld_cache hok) rfl hr hsize
        (fun i hi => hsame i (hout i hi)) (hrec.symm ▸ hidle)
      refine ⟨seq, seq'.finishMem m', ⟨hm, hr, hidle, ?_, ?_, fun i h1 h2 => hother i ⟨hr, h1, h2⟩, ?_⟩, ?_⟩
      · rw [hrec]
        exact IndexRecord.logMap_idle hidle
      · rw [hsize, seq.size_finishMem]
        exact ((inferInstance : Clears (mount o)).below w hplan).size.symm
      · intro i hi
        rw [mount_mem hplan hok hm, replayIndex_get hv hvstrict rfl (hout i hi)]
        exact hsame i (hout i hi)
      · rw [hrun', hreplay, hrun]
        rcases replayIndex.run (replayWorld w o seq) with ⟨⟨e⟩ | ⟨⟩, u⟩ <;> rfl
    · left
      rw [hrun', hrun, replayIndex_between hv hvstrict rfl hsize hsame]
      · intro i hi hblank
        -- a blank byte of the flash between was blank before
        change Nor.get (seq.finishMem w.dev.mem) i = blank
        rw [hf.get_finishMem, if_neg]
        · exact hhigh.blank (hother i hi ▸ hblank)
        · rintro ⟨-, rfl⟩
          exact not_inTorn_flags hv rfl _ (hvsize ▸ hi)
      · intro hr
        change (recordAt (seq'.finishMem m') (mountScan w o seq).offset).meaningless _ = true
        rw [recordAt_congr fun i h1 h2 => hother i ⟨hr, h1, h2⟩]
        exact (hleft hr.stop hr.terminal).resolve_right fun h => hidle ⟨hr, h⟩

/-- The flash after a mount that resumes another one keeps the bits that are left after that one. -/
theorem Resumes.below {w' : World} (h : Resumes o w w') (hplan : w.dev.plan = []) (hok : mountOptionsOk w o)
    (hstrict : o.strict = false) : Below ((mount o).run w).2.dev.mem ((mount o).run w').2.dev.mem := by
  rcases h with h | ⟨seq, m, hleft, h⟩
  · rw [h]
    exact .refl _
  · rw [h]
    refine ⟨hleft.size.symm, fun i => ?_⟩
    change _ &&& Nor.get m i = _
    by_cases hi : i < (mountScan w o seq).offset ∨ (mountScan w o seq).offset + 4 ≤ i
    · rw [hleft.rest i hi]
      exact BitVec.and_self
    · -- the whole mount leaves no bit of the torn record
      have hv := replayWorld_placed hplan hok (mountable_some hleft.mountable).1
      have hvstrict := (replayWorld_geometry w o seq).2
      rw [hstrict] at hvstrict
      obtain ⟨v1, hrun⟩ : ∃ v1, (applyRecords (mountScan w o seq).records).run (replayWorld w o seq) =
          (.ok (), v1) := ⟨_, Prod.ext hleft.repairs.applies rfl⟩
      have hreplay := hleft.repairs.replay hv rfl hvstrict hrun
      obtain ⟨c, serial, hhint⟩ := @allocatorHint_run ((v1.withMem (Nor.program (replayWorld w o seq).dev.mem
        (mountScan w o seq).offset [0#8, 0#8, 0#8, 0#8]) []).withNext ((mountScan w o seq).offset + 4)) rfl
        (lastHead 0 (mountScan w o seq).records)
      have hzero : Nor.get ((mount o).run w).2.dev.mem i = 0#8 := by
        rw [mount_mem hplan hok hleft.mountable, hreplay, hhint]
        change Nor.get (Nor.program (replayWorld w o seq).dev.mem _ _) i = _
        rw [get_overwritten, if_pos (by omega)]
      rw [hzero]
      exact BitVec.zero_and

end Between

end Mount

/-! ## Losing power again and again -/

/-- A loss of power: the device works for `calls` calls, and the next one leaves the
bits of `keep` alone. -/
structure PowerCut where
  calls : Nat
  keep : Nat → Byte
  done : Bool

/-- The flash after a mount that loses power, in a world that starts anew. -/
def cutMount (o : MountOptions) (w : World) (c : PowerCut) : World :=
  w.withMem ((mount o).run (w.withPlan (cutAfter c.calls c.keep c.done))).2.dev.mem []

/-- The flash of a mount that loses power lies between the flash before it and the
flash after a whole mount. -/
theorem cutMount_between {w : World} (o : MountOptions) (c : PowerCut) (hplan : w.dev.plan = []) :
    Below (cutMount o w c).dev.mem w.dev.mem ∧
      Below ((mount o).run w).2.dev.mem (cutMount o w c).dev.mem := by
  have hbelow := (inferInstance : Clears (mount o)).below w hplan
  rcases (inferInstance : Clears (mount o)).cut w hplan c.calls c.keep c.done with ⟨k, hk⟩ | ⟨-, h1, h2⟩
  · have hmem : (cutMount o w c).dev.mem = ((mount o).run w).2.dev.mem := by
      change ((mount o).run (w.withPlan (cutAfter c.calls c.keep c.done))).2.dev.mem = _
      rw [hk]
      rfl
    rw [hmem]
    exact ⟨hbelow, .refl _⟩
  · exact ⟨h1, h2⟩

/-- A mount that has lost power any number of times ends where it would have ended
without that, if each loss has left alone what `Undisturbed` says. -/
theorem interrupted_mount_resumes {w : World} {o : MountOptions} (hplan : w.dev.plan = [])
    (hok : mountOptionsOk w o) (hstrict : o.strict = false) (cuts : List PowerCut)
    (hund : ∀ done, done <+: cuts → Undisturbed o w (done.foldl (cutMount o) w)) :
    Resumes o w (cuts.foldl (cutMount o) w) := by
  -- the flash stays between the first one and the last one
  have hbetween : ∃ m', cuts.foldl (cutMount o) w = w.withMem m' [] ∧ Below m' w.dev.mem ∧
      Below ((mount o).run w).2.dev.mem m' := by
    induction cuts using List.reverseRecOn with
    | nil =>
      refine ⟨w.dev.mem, ?_, .refl _, (inferInstance : Clears (mount o)).below w hplan⟩
      rw [World.withMem, ← hplan]
      rfl
    | append_singleton cuts c ih =>
      obtain ⟨m', hm', hhigh, hlow⟩ := ih fun done h => hund done (h.trans (List.prefix_append _ _))
      have hsame := mount_between hplan hok hstrict hhigh hlow
        (hm' ▸ hund cuts (List.prefix_append _ _))
      obtain ⟨h1, h2⟩ := cutMount_between (w := w.withMem m' []) o c rfl
      refine ⟨(cutMount o (w.withMem m' []) c).dev.mem, ?_, h1.trans hhigh,
        (hsame.below hplan hok hstrict).trans h2⟩
      rw [List.foldl_append, hm']
      rfl
  obtain ⟨m', hm', hhigh, hlow⟩ := hbetween
  rw [hm']
  exact mount_between hplan hok hstrict hhigh hlow (hm' ▸ hund cuts (List.prefix_rfl))

omit [Opts] in
/-- A torn record of slot 5 loses one byte of its head, and then the other one.  What is left is the
delete of a slot that has no file. -/
theorem interrupted_mount_resumes_torn :
    let w := twoIndexSectors false 8 [5, 0, 255, 255]
    let c1 : PowerCut := ⟨14, fun i => if i < 3 then blank else 0, false⟩
    let c2 : PowerCut := ⟨14, fun i => if i < 2 then blank else 0, false⟩
    let w' := [c1, c2].foldl (@cutMount defaultOpts smallMount) w
    recordAt w'.dev.mem 8 = ⟨5, 0⟩ ∧ @Resumes defaultOpts smallMount w w' := by
  intro w c1 c2 w'
  refine ⟨by decide +kernel, ?_⟩
  refine @interrupted_mount_resumes defaultOpts w smallMount rfl (by decide) rfl [c1, c2] ?_
  have hseq : mountable w.dev.mem = some ⟨2, 0, 0, 0, 0, 1⟩ := by decide +kernel
  intro done hdone seq hm
  rw [hseq, Option.some.injEq] at hm
  subst hm
  rcases done with _ | ⟨c, done⟩
  · exact ⟨by decide +kernel, fun _ _ => .inl (by decide +kernel)⟩
  · obtain ⟨rfl, hrest⟩ := List.cons_prefix_cons.mp hdone
    rcases done with _ | ⟨c, done⟩
    · exact ⟨by decide +kernel, fun _ _ => .inl (by decide +kernel)⟩
    · obtain ⟨rfl, hnil⟩ := List.cons_prefix_cons.mp hrest
      obtain rfl := List.prefix_nil.mp hnil
      exact ⟨by decide +kernel, fun _ _ => .inr (by decide +kernel)⟩

/-- The flash after a call of the API that loses power, in a world that starts anew. -/
def cutOp (w : World) (op : Op) (c : PowerCut) : World :=
  w.withMem ((execOp op).run (w.withPlan (cutAfter c.calls c.keep c.done))).2.dev.mem []

/-- A file is written and closed, and opened again to be replaced. -/
def replaceRun : List Op :=
  [.openFile 0 [97#8] writeFlags, .write 0 [1#8], .close 0, .openFile 0 [97#8] writeFlags]

omit [Opts] in
/-- A close loses power between the two halves of the index record.  The mount after
that loses power while it overwrites the half record, and what is left deletes the
file. -/
theorem interrupted_mount_loses_file :
    ¬ ∀ [Opts] (o : MountOptions) (w : World) (ops : List Op) (op : Op) (c : PowerCut)
      (cuts : List PowerCut) (name : List Byte), w.dev.plan = [] → o.strict = false →
      Steps.Allowed stepOp legalOp ops w → legalOp (ops.foldl stepOp w) op →
      let w' := cutOp (ops.foldl stepOp w) op c
      ((do mount o; stat name : M Stat).run (cuts.foldl (cutMount o) w')).1.isOk =
        ((do mount o; stat name : M Stat).run w').1.isOk := by
  intro hall
  have h := @hall defaultOpts smallMount ((@mount defaultOpts smallMount).run (formattedChip 16 2)).2
    replaceRun (.close 0) ⟨7, fun _ => blank, false⟩
    [⟨16, fun i => if i < 2 then blank else 0, false⟩] [97#8] (by decide +kernel) rfl
    (by decide +kernel) (by decide +kernel)
  revert h
  decide +kernel

end Fastffs
