import Fastffs.IndexScan

/-!
# The replay of the log

`fffs_replay_index` reads the log by chunks of the scratch buffer.  On a device that
never fails it does what `scanRecords` and `applyRecords` say: it enters the records
of each sector into the index cache, up to the first free place.  At a record that
it does not take it stops with an error, or overwrites it with zeros if it is the
last one of the active sector.
-/

namespace Fastffs

open Prog
open Nor (Mem Byte blank)

variable {v w w' : World}

/-! ## The last record -/

/-- `index_flash_span_erased`. -/
theorem indexFlashSpanErased_run (hplan : w.dev.plan = []) {fuel off size : Nat} (hfuel : size ≤ fuel)
    (hle : off + size ≤ w.dev.size) :
    (indexFlashSpanErased fuel off size).run w = (.ok (freeFrom w.dev.mem off (off + size)), w) := by
  induction fuel generalizing off size with
  | zero =>
    rw [indexFlashSpanErased, run_pure, freeFrom_of_ge (by omega)]
  | succ fuel ih =>
    rw [indexFlashSpanErased]
    split
    · next h0 => rw [run_pure, freeFrom_of_ge (by omega)]
    · next hpos =>
      dsimp only
      rw [bind_of_ok (flashRead_run hplan (by omega))]
      have hfree : flashBytesErased (Nor.read w.dev.mem off (min size 32)) =
          freeFrom w.dev.mem off (off + min size 32) := by
        rw [freeFrom, Nat.add_sub_cancel_left]
      rw [freeFrom_split (show off ≤ off + min size 32 by omega)
        (show off + min size 32 ≤ off + size by omega), hfree]
      split
      · next h =>
        rw [ih (by omega) (by omega), h, Bool.true_and]
        congr 3
        omega
      · next h =>
        rw [Bool.not_eq_true] at h
        rw [run_pure, h, Bool.false_and]

/-- `active_index_record_is_terminal`: every byte after the record is blank. -/
theorem activeIndexRecordIsTerminal_run (hplan : w.dev.plan = []) {off pos nread endOff : Nat}
    (hpos : pos + 4 ≤ nread) (hend : off + nread ≤ endOff) (hle : endOff ≤ w.dev.size)
    (hmod : (endOff - (off + pos)) % 4 = 0) :
    (activeIndexRecordIsTerminal (off + pos) (Nor.read w.dev.mem off nread) pos nread endOff).run w =
      (.ok (freeFrom w.dev.mem (off + pos + 4) endOff), w) := by
  have hpart : ∀ a n, a + n ≤ nread →
      ((Nor.read w.dev.mem off nread).drop a).take n = Nor.read w.dev.mem (off + a) n := by
    intro a n han
    obtain ⟨k, rfl⟩ : ∃ k, nread = a + (n + k) := ⟨nread - a - n, by omega⟩
    rw [Nor.read_append, List.drop_left' (Nor.length_read ..), Nor.read_append,
      List.take_left' (Nor.length_read ..)]
  have herased : ∀ a n, flashBytesErased (Nor.read w.dev.mem a n) = freeFrom w.dev.mem a (a + n) := by
    intro a n
    rw [freeFrom, Nat.add_sub_cancel_left]
  rw [activeIndexRecordIsTerminal]
  split
  · next h => rw [run_pure, freeFrom_of_ge (by omega)]
  · next hne =>
    have hnext : (if pos + 8 ≤ nread then
        pure (((Nor.read w.dev.mem off nread).drop (pos + 4)).take 4)
        else flashRead (off + pos + 4) 4 : M (List Byte)).run w =
        (.ok (Nor.read w.dev.mem (off + pos + 4) 4), w) := by
      split
      · rw [run_pure, hpart _ _ (by omega), Nat.add_assoc]
      · exact flashRead_run hplan (by omega)
    rw [bind_of_ok hnext, herased, freeFrom_split (show off + pos + 4 ≤ off + pos + 4 + 4 by omega)
      (show off + pos + 4 + 4 ≤ endOff by omega)]
    split
    · next h => rw [run_pure, h, Bool.false_and]
    · next hfree =>
      rw [Bool.not_eq_false] at hfree
      rw [hfree, Bool.true_and]
      dsimp only
      have hchunk : off + pos + (nread - pos) = off + nread := by omega
      have h8 : off + pos + 4 + 4 = off + pos + 8 := by omega
      rw [hchunk, h8]
      by_cases hin : off + pos + 8 < off + nread
      · have hsplit := freeFrom_split (m := w.dev.mem) hin.le hend
        have hrest : flashBytesErased (((Nor.read w.dev.mem off nread).drop (pos + 8)).take
            (off + nread - (off + pos + 8))) = freeFrom w.dev.mem (off + pos + 8) (off + nread) := by
          rw [hpart _ _ (by omega), herased]
          congr 1
          omega
        rw [hsplit, hrest, if_pos hin]
        split
        · next h => rw [run_pure, h.2, Bool.false_and]
        · next h =>
          simp only [hin, true_and, Bool.not_eq_false] at h
          rw [h, Bool.true_and]
          split
          · rw [run_pure, freeFrom_of_ge (by omega)]
          · rw [indexFlashSpanErased_run hplan le_rfl (by omega)]
            congr 3
            omega
      · rw [if_neg hin, if_neg (fun h => hin h.1)]
        split
        · rw [run_pure, freeFrom_of_ge (by omega)]
        · rw [indexFlashSpanErased_run hplan le_rfl (by omega)]
          congr 3
          omega

/-! ## One chunk -/

variable [Opts]

section Outcome

variable {α : Type} {active : Bool} {endOff off tail x : Nat} {sc : Scan} {r : IndexRecord}
  {ret : Bool → Nat → α} {res : Except Status α × World}

/-- How the replay of the places from `off` on ends, when `sc` is what the scan of
them finds.  The end of the log in RAM is right where the active sector ends. -/
def Outcome (v : World) (active : Bool) (endOff off tail : Nat) (sc : Scan) (ret : Bool → Nat → α)
    (res : Except Status α × World) : Prop :=
  match (applyRecords sc.records).run v with
  | (.error e, v1) => ∃ x, res = (.error e, v1.withNext x)
  | (.ok (), v1) =>
      let stop := off + 4 * sc.records.length
      match sc.stop with
      | .full => ∃ x, res = (.ok (ret false (lastHead tail sc.records)), v1.withNext x)
      | .free => ∃ x, (active = true → x = stop) ∧
          res = (.ok (ret true (lastHead tail sc.records)), v1.withNext x)
      | .bad => ∃ x, res = (do
          clobberOrRejectActiveTail stop (active && freeFrom v.dev.mem (stop + 4) endOff)
          pure (ret true (lastHead tail sc.records)) : M α).run (v1.withNext x)

theorem Outcome.error {e : Status} {rs : List IndexRecord} {stop : Stop}
    (happly : (applyRecord r).run v = (.error e, w)) :
    Outcome v active endOff off tail ⟨r :: rs, stop⟩ ret (.error e, w) := by
  rw [Outcome, applyRecords, bind_of_error happly]
  exact ⟨w.fs.nextIndexOffset, rfl⟩

theorem Outcome.cons (hplan : v.dev.plan = []) (happly : (applyRecord r).run v = (.ok (), w))
    (h : Outcome (w.withNext x) active endOff (off + 4) (if r.head = 0 then tail else r.head) sc ret
      res) :
    Outcome v active endOff off tail ⟨r :: sc.records, sc.stop⟩ ret res := by
  obtain ⟨b, heads, hw⟩ := applyRecord_recached hplan happly
  have hmem : (w.withNext x).dev.mem = v.dev.mem := by rw [hw]; rfl
  have hstop : off + 4 * (sc.records.length + 1) = off + 4 + 4 * sc.records.length := by omega
  rw [Outcome, applyRecords_withNext, hmem] at h
  rw [Outcome, applyRecords, bind_of_ok happly]
  rcases hrun : (applyRecords sc.records).run w with ⟨r1, v1⟩
  rw [hrun] at h
  cases r1 with
  | error e => exact h
  | ok a =>
    cases hs : sc.stop with
    | full =>
      rw [hs] at h
      exact h
    | free =>
      rw [hs] at h
      dsimp only at h ⊢
      rw [List.length_cons, hstop]
      exact h
    | bad =>
      rw [hs] at h
      dsimp only at h ⊢
      rw [List.length_cons, hstop]
      exact h

end Outcome

omit [Opts] in
/-- Without a change of the log the end in RAM may be set. -/
theorem run_when_withNext (active : Bool) (x : Nat) :
    ∃ y, (Prog.when (active = true) (modifyFs fun fs => { fs with nextIndexOffset := x })
      : M Unit).run v = (.ok (), v.withNext y) ∧ (active = true → y = x) := by
  cases active with
  | false => exact ⟨v.fs.nextIndexOffset, by rw [when_neg (by simp), run_pure]; rfl, by simp⟩
  | true => exact ⟨x, by rw [when_pos rfl, run_modifyFs]; rfl, fun _ => rfl⟩

omit [Opts] in
theorem SameData.withNext (hplan : v.dev.plan = []) (x : Nat) : SameData v (v.withNext x) :=
  ⟨hplan, hplan, rfl, rfl, rfl, rfl, fun _ _ => rfl⟩

/-- A record that is neither free nor clobbered is entered into the cache if the scan takes it,
and else the sector ends at it. -/
theorem replayRecord_run {α : Type} (hplan : v.dev.plan = []) {r : IndexRecord} (hclob : r.clobbered = false)
    (terminal : Bool) (tail : Nat) (next : Nat → M α) (reject : M α) :
    (if r.slot = 0 ∨ r.slot = uint16Max ∨ r.head = uint16Max then reject
      else if r.head = 0 then do indexRemove r.slot; next tail
      else if r.head < v.fs.indexSectors ∨ r.head ≥ v.fs.sectorCount then reject
      else do
        let rootOk ← (if terminal then replayRootIsLive r else pure true)
        if rootOk then do indexInsert r.slot r.head; next r.head else reject).run v =
    (if (!r.malformed v.fs && (r.head == 0 || !terminal || rootIsLive v r.slot r.head)) = true then do
        applyRecord r; next (if r.head = 0 then tail else r.head)
      else reject).run v := by
  have happly : applyRecord r = indexSet r.slot r.head := if_neg (by simp [hclob])
  by_cases hfields : r.slot = 0 ∨ r.slot = uint16Max ∨ r.head = uint16Max
  · rw [if_pos hfields, IndexRecord.malformed_iff.mpr (.inl hfields), Bool.not_true, Bool.false_and,
      if_neg Bool.false_ne_true]
  · rw [if_neg hfields]
    by_cases hhead : r.head = 0
    · have hmal : r.malformed v.fs = false := by
        apply Bool.eq_false_of_not_eq_true
        rw [IndexRecord.malformed_iff]
        exact not_or.mpr ⟨hfields, fun h => h.1 hhead⟩
      rw [if_pos hhead, hmal, beq_iff_eq.mpr hhead, if_pos hhead, happly, indexSet, if_pos hhead]
      rfl
    · rw [if_neg hhead, if_neg hhead]
      by_cases hrange : r.head < v.fs.indexSectors ∨ r.head ≥ v.fs.sectorCount
      · rw [if_pos hrange, IndexRecord.malformed_iff.mpr (.inr ⟨hhead, hrange⟩), Bool.not_true,
          Bool.false_and, if_neg Bool.false_ne_true]
      · have hmal : r.malformed v.fs = false := by
          apply Bool.eq_false_of_not_eq_true
          rw [IndexRecord.malformed_iff]
          exact not_or.mpr ⟨hfields, fun h => hrange h.2⟩
        have hroot : (if terminal = true then replayRootIsLive r else pure true : M Bool).run v =
            (.ok (!terminal || rootIsLive v r.slot r.head), v) := by
          cases terminal with
          | false => rfl
          | true => rw [if_pos rfl, replayRootIsLive_run hplan, Bool.not_true, Bool.false_or]
        rw [if_neg hrange, bind_of_ok hroot, hmal, beq_false_of_ne hhead, Bool.not_false, Bool.true_and,
          Bool.false_or, happly, indexSet, if_neg hhead]

omit [Opts] in
/-- The check of a record whether the log ends behind it. -/
theorem recordIsTerminal_run (hplan : v.dev.plan = []) {active : Bool} {off nread endOff pos : Nat}
    (hpos : pos + 4 ≤ nread) (hend : off + nread ≤ endOff) (hle : endOff ≤ v.dev.size)
    (hmod : (endOff - (off + pos)) % 4 = 0) :
    (if active = true then
      activeIndexRecordIsTerminal (off + pos) (Nor.read v.dev.mem off nread) pos nread endOff
      else pure false : M Bool).run v = (.ok (active && freeFrom v.dev.mem (off + pos + 4) endOff), v) := by
  cases active with
  | false => rfl
  | true => rw [if_pos rfl, activeIndexRecordIsTerminal_run hplan hpos hend hle hmod, Bool.true_and]

section Rest

variable {active : Bool} {endOff off n : Nat} {x : World → Nat → Except Status (Bool × Nat) × World}

/-- The replay `x` of the places after `off` ends as the scan of them says, from every world
with the same data. -/
def RestOutcome (v : World) (active : Bool) (endOff off n : Nat)
    (x : World → Nat → Except Status (Bool × Nat) × World) : Prop :=
  ∀ u tail, SameData v u → u.dev.mem = v.dev.mem →
    Outcome u active endOff (off + 4) tail (scanRecords v active endOff n (off + 4)) Prod.mk (x u tail)

/-- A record that recovery has overwritten is passed over. -/
theorem RestOutcome.clobbered (hrest : RestOutcome v active endOff off n x) (hplan : v.dev.plan = []) {y tail : Nat}
    {r : IndexRecord} (hclob : r.clobbered = true) :
    Outcome v active endOff off tail
      ⟨r :: (scanRecords v active endOff n (off + 4)).records, (scanRecords v active endOff n (off + 4)).stop⟩
      Prod.mk (x (v.withNext y) tail) := by
  have happly : (applyRecord r).run v = (.ok (), v) := by rw [applyRecord, if_pos hclob, run_pure]
  have hhead : r.head = 0 := (IndexRecord.clobbered_iff.mp hclob).2
  have hnext := hrest (v.withNext y) tail (SameData.withNext hplan y) rfl
  exact Outcome.cons hplan happly (by rw [if_pos hhead]; exact hnext)

/-- A record that is taken is entered into the cache. -/
theorem RestOutcome.entered (hrest : RestOutcome v active endOff off n x) (hplan : v.dev.plan = []) {tail : Nat}
    {r : IndexRecord} {next : Nat → M (Bool × Nat)} (hx : ∀ u t, (next t).run u = x u t) :
    Outcome v active endOff off tail
      ⟨r :: (scanRecords v active endOff n (off + 4)).records, (scanRecords v active endOff n (off + 4)).stop⟩
      Prod.mk ((do applyRecord r; next (if r.head = 0 then tail else r.head)).run v) := by
  rcases happly : (applyRecord r).run v with ⟨r1, v1⟩
  cases r1 with
  | error e =>
    rw [bind_of_error happly]
    exact Outcome.error happly
  | ok a =>
    rw [bind_of_ok happly, hx]
    obtain ⟨b, heads, rfl⟩ := applyRecord_recached hplan happly
    have hnext := hrest (v.withCache b heads) (if r.head = 0 then tail else r.head) (Recached.sameData hplan) rfl
    exact Outcome.cons (x := (v.withCache b heads).fs.nextIndexOffset) hplan happly hnext

end Rest

/-- The record loop over one chunk. -/
theorem replayChunk_outcome (hplan : v.dev.plan = []) {active : Bool}
    {off nread endOff fuel pos tail n : Nat} (hn : pos + 4 * n = nread) (hfuel : n ≤ fuel)
    (hend : off + nread ≤ endOff) (hle : endOff ≤ v.dev.size) (hmod : (endOff - (off + pos)) % 4 = 0) :
    Outcome v active endOff (off + pos) tail (scanRecords v active endOff n (off + pos)) Prod.mk
      ((replayChunk active off nread endOff (Nor.read v.dev.mem off nread) fuel pos tail).run v) := by
  induction fuel generalizing v pos tail n with
  | zero =>
    obtain rfl : n = 0 := by omega
    exact ⟨v.fs.nextIndexOffset, rfl⟩
  | succ fuel ih =>
    rw [replayChunk]
    cases n with
    | zero =>
      rw [if_neg (by omega)]
      exact ⟨v.fs.nextIndexOffset, rfl⟩
    | succ n =>
      have hrest : RestOutcome v active endOff (off + pos) n fun u t =>
          (replayChunk active off nread endOff (Nor.read v.dev.mem off nread) fuel (pos + 4) t).run u := by
        intro u t hsame hmem
        have hsize : u.dev.size = v.dev.size := congrArg Mem.size hmem
        have hnext := @ih u hsame.plan' (pos + 4) t n (by omega) (by omega) (hsize ▸ hle) (by omega)
        rwa [hmem, ← Nat.add_assoc, scanRecords_congr hsame hmem] at hnext
      rw [if_pos (by omega), scanRecords, indexRecordAt_read (by omega)]
      dsimp only
      by_cases herased : (recordAt v.dev.mem (off + pos)).erased = true
      · -- a free place ends the sector
        rw [if_pos herased, if_pos herased]
        obtain ⟨y, hy, hya⟩ := run_when_withNext (v := v) active (off + pos)
        rw [bind_of_ok hy, run_pure]
        exact ⟨y, hya, rfl⟩
      rw [if_neg herased, if_neg herased]
      by_cases hclob : (recordAt v.dev.mem (off + pos)).clobbered = true
      · have htaken : taken v active endOff (off + pos) = true := by rw [taken, hclob, Bool.true_or]
        obtain ⟨y, hy, -⟩ := run_when_withNext (v := v) active (off + pos + 4)
        rw [if_pos htaken, if_pos hclob, bind_of_ok hy]
        exact hrest.clobbered hplan hclob
      rw [if_neg hclob, bind_of_ok (recordIsTerminal_run hplan (by omega) hend hle hmod),
        bind_of_ok (run_getFs v)]
      have hclob' := Bool.eq_false_of_not_eq_true hclob
      have htaken : taken v active endOff (off + pos) = (!(recordAt v.dev.mem (off + pos)).malformed v.fs &&
          ((recordAt v.dev.mem (off + pos)).head == 0 ||
            !(active && freeFrom v.dev.mem (off + pos + 4) endOff) ||
            rootIsLive v (recordAt v.dev.mem (off + pos)).slot (recordAt v.dev.mem (off + pos)).head)) := by
        rw [taken, hclob', Bool.false_or]
      rw [replayRecord_run hplan hclob', ← htaken]
      by_cases hok : taken v active endOff (off + pos) = true
      · rw [if_pos hok, if_pos hok]
        exact hrest.entered hplan fun _ _ => rfl
      · -- a record that is not taken ends the sector
        rw [if_neg hok, if_neg hok]
        exact ⟨v.fs.nextIndexOffset, rfl⟩

/-! ## One sector -/

/-- How the replay of the places from `off` to the end of their sector ends. -/
def SectorOutcome (v : World) (active : Bool) (endOff off tail : Nat) (sc : Scan)
    (res : Except Status Nat × World) : Prop :=
  match (applyRecords sc.records).run v with
  | (.error e, v1) => ∃ x, res = (.error e, v1.withNext x)
  | (.ok (), v1) =>
      let stop := off + 4 * sc.records.length
      match sc.stop with
      | .bad => ∃ x, res = (do
          clobberOrRejectActiveTail stop (active && freeFrom v.dev.mem (stop + 4) endOff)
          pure (lastHead tail sc.records) : M Nat).run (v1.withNext x)
      | _ => ∃ x, (active = true → x = stop) ∧
          res = (.ok (lastHead tail sc.records), v1.withNext x)

/-- A chunk without an end, and the rest of the sector. -/
theorem SectorOutcome.append {v1 : World} {active : Bool} {endOff off tail x : Nat}
    {rs : List IndexRecord} {sc : Scan} {res : Except Status Nat × World} (hplan : v.dev.plan = [])
    (happly : (applyRecords rs).run v = (.ok (), v1))
    (h : SectorOutcome (v1.withNext x) active endOff (off + 4 * rs.length) (lastHead tail rs) sc res) :
    SectorOutcome v active endOff off tail ⟨rs ++ sc.records, sc.stop⟩ res := by
  obtain ⟨b, heads, hv1⟩ := applyRecords_recached hplan happly
  have hmem : (v1.withNext x).dev.mem = v.dev.mem := by rw [hv1]; rfl
  have hlast : lastHead (lastHead tail rs) sc.records = lastHead tail (rs ++ sc.records) := by
    rw [lastHead, lastHead, lastHead, List.foldl_append]
  have hstop : off + 4 * rs.length + 4 * sc.records.length = off + 4 * (rs ++ sc.records).length := by
    rw [List.length_append]
    omega
  rw [SectorOutcome, applyRecords_withNext, hmem, hlast, hstop] at h
  rw [SectorOutcome, applyRecords_append, bind_of_ok happly]
  rcases hrun : (applyRecords sc.records).run v1 with ⟨r1, v2⟩
  rw [hrun] at h
  cases r1 with
  | error e => exact h
  | ok a => cases hs : sc.stop <;> rw [hs] at h <;> exact h

/-- The chunk loop over one sector. -/
theorem replaySector_outcome (hplan : v.dev.plan = []) {active : Bool}
    {endOff chunkSize fuel off tail n : Nat} (hchunk : 4 ≤ chunkSize) (hn : off + 4 * n = endOff)
    (hfuel : n ≤ fuel) (hle : endOff ≤ v.dev.size)
    (hnext : n = 0 → active = true → v.fs.nextIndexOffset = off) :
    SectorOutcome v active endOff off tail (scanRecords v active endOff n off)
      ((replaySector active endOff chunkSize fuel off tail).run v) := by
  induction fuel generalizing v off tail n with
  | zero =>
    obtain rfl : n = 0 := by omega
    exact ⟨v.fs.nextIndexOffset, fun ha => (hnext rfl ha).trans (Nat.add_zero off).symm, rfl⟩
  | succ fuel ih =>
    rw [replaySector]
    cases Nat.eq_zero_or_pos n with
    | inl h0 =>
      subst h0
      rw [if_neg (by omega)]
      exact ⟨v.fs.nextIndexOffset, fun ha => (hnext rfl ha).trans (Nat.add_zero off).symm, rfl⟩
    | inr hpos =>
      rw [if_pos (by omega)]
      dsimp only
      generalize hread : min (endOff - off) chunkSize - min (endOff - off) chunkSize % 4 = nread
      obtain ⟨k, j, rfl, hk, rfl⟩ : ∃ k j, nread = 4 * k ∧ 0 < k ∧ n = k + j :=
        ⟨nread / 4, n - nread / 4, by omega, by omega, by omega⟩
      rw [bind_of_ok (flashRead_run hplan (by omega))]
      have hout := @replayChunk_outcome _ _ hplan active off (4 * k) endOff (4 * k) 0 tail k
        (by omega) (by omega) (by omega) hle (by omega)
      rw [Nat.add_zero] at hout
      rw [scanRecords_add]
      rw [Outcome] at hout
      rcases hrun : (applyRecords (scanRecords v active endOff k off).records).run v with ⟨r1, v1⟩
      rw [hrun] at hout
      cases r1 with
      | error e =>
        obtain ⟨x, hx⟩ := hout
        rw [bind_of_error hx]
        cases hs : (scanRecords v active endOff k off).stop with
        | full =>
          rw [SectorOutcome, applyRecords_append, bind_of_error hrun]
          exact ⟨x, rfl⟩
        | free =>
          rw [SectorOutcome, hrun]
          exact ⟨x, rfl⟩
        | bad =>
          rw [SectorOutcome, hrun]
          exact ⟨x, rfl⟩
      | ok a =>
        cases hs : (scanRecords v active endOff k off).stop with
        | full =>
          rw [hs] at hout
          obtain ⟨x, hx⟩ := hout
          obtain ⟨y, hy, hya⟩ := run_when_withNext (v := v1.withNext x) active (off + 4 * k)
          rw [bind_of_ok hx]
          dsimp only
          rw [if_neg (by simp), bind_of_ok hy]
          obtain ⟨b, heads, hv1⟩ := applyRecords_recached hplan hrun
          have hlen := scanRecords_length hs
          have hsame : scanRecords (v1.withNext y) active endOff j (off + 4 * k) =
              scanRecords v active endOff j (off + 4 * k) := by
            refine scanRecords_congr ?_ (by rw [hv1]; rfl)
            rw [hv1]
            exact (Recached.sameData hplan).trans (SameData.withNext (v := v.withCache b heads) hplan y)
          have hrest := @ih (v1.withNext y) (by rw [hv1]; exact hplan) (off + 4 * k)
            (lastHead tail (scanRecords v active endOff k off).records) j (by omega) (by omega)
              (by rw [hv1]; exact hle)
            (fun _ ha => hya ha)
          rw [hsame] at hrest
          exact SectorOutcome.append (x := y) hplan hrun (by rw [hlen]; exact hrest)
        | free =>
          rw [hs] at hout
          obtain ⟨x, hxa, hx⟩ := hout
          rw [bind_of_ok hx, SectorOutcome, hrun, hs]
          exact ⟨x, hxa, rfl⟩
        | bad =>
          rw [hs] at hout
          obtain ⟨x, hx⟩ := hout
          rw [SectorOutcome, hrun, hs]
          refine ⟨x, ?_⟩
          rw [run_bind, hx, run_bind, run_bind]
          dsimp only
          rcases (clobberOrRejectActiveTail _ _).run (v1.withNext x) with ⟨r2, v2⟩
          cases r2 <;> rfl

/-! ## The log -/

/-- How the replay of some sectors ends, when `sc` is what the scan of them finds. -/
def LogOutcome (v : World) (tail : Nat) (sc : LogScan) (res : Except Status Nat × World) : Prop :=
  match (applyRecords sc.records).run v with
  | (.error e, v1) => ∃ x, res = (.error e, v1.withNext x)
  | (.ok (), v1) =>
      match sc.stop with
      | .bad => ∃ x, res = (do
          clobberOrRejectActiveTail sc.offset (sc.terminal v)
          pure (lastHead tail sc.records) : M Nat).run (v1.withNext x)
      | _ => res = (.ok (lastHead tail sc.records), v1.withNext sc.offset)

omit [Opts] in
/-- The active sector is the last one of `n + 1` sectors from `sector` on. -/
def activeLast (fs : Fs) : Nat → Nat → Prop
  | 0, sector => sector = fs.activeIndexSector
  | n + 1, sector => sector ≠ fs.activeIndexSector ∧ activeLast fs n (nextIndexSector fs sector)

/-- The sectors of the log lie inside the chip. -/
structure LogFits (w : World) : Prop where
  plan : w.dev.plan = []
  scratch : 4 ≤ w.fs.scratchSize
  size : 256 ≤ w.fs.sectorSize
  aligned : w.fs.sectorSize % 4 = 0
  fits : w.fs.indexSectors * w.fs.sectorSize ≤ w.dev.size

/-- The replay of one sector. -/
theorem replaySector_run (h : LogFits v) {sector tail : Nat} (hs : sector < v.fs.indexSectors) :
    SectorOutcome v (sector == v.fs.activeIndexSector) ((sector + 1) * v.fs.sectorSize)
      (indexSectorBegin v.fs sector) tail (scanSector v sector)
      ((replaySector (sector == v.fs.activeIndexSector) ((sector + 1) * v.fs.sectorSize)
        v.fs.scratchSize v.fs.sectorSize (indexSectorBegin v.fs sector) tail).run v) := by
  have hmul : (sector + 1) * v.fs.sectorSize ≤ v.fs.indexSectors * v.fs.sectorSize :=
    Nat.mul_le_mul_right _ hs
  have hsize := h.size
  have haligned := h.aligned
  have hfits := h.fits
  have hexp : (sector + 1) * v.fs.sectorSize = sector * v.fs.sectorSize + v.fs.sectorSize := by
    rw [Nat.add_mul, Nat.one_mul]
  refine replaySector_outcome h.plan h.scratch ?_ ?_ (by omega) ?_
  · rw [indexSectorBegin, recordPlaces, headerSize]
    omega
  · rw [recordPlaces, headerSize]
    omega
  · rw [recordPlaces, headerSize]
    omega

omit [Opts] in
theorem LogFits.recached {b : List IndexBucket} {heads : Nat → Nat} (h : LogFits v) (x : Nat) :
    LogFits ((v.withCache b heads).withNext x) :=
  ⟨h.plan, h.scratch, h.size, h.aligned, h.fits⟩

omit [Opts] in
theorem nextIndexSector_lt {fs : Fs} {sector : Nat} (h : sector < fs.indexSectors) :
    nextIndexSector fs sector < fs.indexSectors := by
  unfold nextIndexSector
  split <;> omega

omit [Opts] in
theorem activeLast_congr {fs fs' : Fs} {n sector : Nat}
    (hactive : fs'.activeIndexSector = fs.activeIndexSector)
    (hsectors : fs'.indexSectors = fs.indexSectors) (h : activeLast fs n sector) :
    activeLast fs' n sector := by
  induction n generalizing sector with
  | zero => exact h.trans hactive.symm
  | succ n ih =>
    refine ⟨hactive ▸ h.1, ?_⟩
    rw [nextIndexSector, hsectors]
    exact ih h.2

/-- A sector without an end, and the rest of the log. -/
theorem LogOutcome.append {v1 : World} {tail x : Nat} {rs : List IndexRecord} {sc : LogScan}
    {res : Except Status Nat × World} (hplan : v.dev.plan = [])
    (happly : (applyRecords rs).run v = (.ok (), v1))
    (h : LogOutcome (v1.withNext x) (lastHead tail rs) sc res) :
    LogOutcome v tail { sc with records := rs ++ sc.records } res := by
  obtain ⟨b, heads, hv1⟩ := applyRecords_recached hplan happly
  have hterm : ∀ records, LogScan.terminal { sc with records := records } v =
      sc.terminal (v1.withNext x) := by
    intro records
    rw [hv1]
    rfl
  have hlast : lastHead (lastHead tail rs) sc.records = lastHead tail (rs ++ sc.records) := by
    rw [lastHead, lastHead, lastHead, List.foldl_append]
  rw [LogOutcome, applyRecords_withNext, hlast] at h
  rw [LogOutcome, applyRecords_append, bind_of_ok happly, hterm]
  rcases hrun : (applyRecords sc.records).run v1 with ⟨r1, v2⟩
  rw [hrun] at h
  cases r1 with
  | error e => exact h
  | ok a => cases hs : sc.stop <;> rw [hs] at h <;> exact h

/-- The replay of the active sector alone. -/
theorem replaySectors_active (h : LogFits v) {sector tail : Nat} (hs : sector < v.fs.indexSectors)
    (hactive : sector = v.fs.activeIndexSector) :
    LogOutcome v tail (scanLog v 1 sector) ((replaySectors 1 sector tail).run v) := by
  have hout := @replaySector_run _ _ h _ tail hs
  have hbeq : (sector == v.fs.activeIndexSector) = true := beq_iff_eq.mpr hactive
  have hrun1 : ∀ res : Except Status Nat × World,
      (replaySector (sector == v.fs.activeIndexSector) ((sector + 1) * v.fs.sectorSize)
        v.fs.scratchSize v.fs.sectorSize (indexSectorBegin v.fs sector) tail).run v = res →
      (replaySectors 1 sector tail).run v = res := by
    rintro ⟨r, v1⟩ hres
    rw [replaySectors, bind_of_ok (run_getFs v), run_bind, hres]
    cases r <;> rfl
  rw [SectorOutcome] at hout
  rw [LogOutcome, scanLog, if_pos (.inr rfl)]
  dsimp only
  rcases hrun : (applyRecords (scanSector v sector).records).run v with ⟨r1, v1⟩
  rw [hrun] at hout
  cases r1 with
  | error e =>
    obtain ⟨x, hx⟩ := hout
    exact ⟨x, hrun1 _ hx⟩
  | ok a =>
    cases hstop : (scanSector v sector).stop with
    | bad =>
      rw [hstop] at hout
      obtain ⟨x, hx⟩ := hout
      refine ⟨x, hrun1 _ (hx.trans ?_)⟩
      rfl
    | full =>
      rw [hstop] at hout
      obtain ⟨x, hxa, hx⟩ := hout
      rw [hxa hbeq] at hx
      exact hrun1 _ hx
    | free =>
      rw [hstop] at hout
      obtain ⟨x, hxa, hx⟩ := hout
      rw [hxa hbeq] at hx
      exact hrun1 _ hx

/-- The sector loop. -/
theorem replaySectors_outcome (h : LogFits v) {n sector tail : Nat} (hs : sector < v.fs.indexSectors)
    (hlast : activeLast v.fs n sector) :
    LogOutcome v tail (scanLog v (n + 1) sector) ((replaySectors (n + 1) sector tail).run v) := by
  induction n generalizing v sector tail with
  | zero => exact replaySectors_active h hs hlast
  | succ n ih =>
    have hout := @replaySector_run _ _ h _ tail hs
    have hbeq : (sector == v.fs.activeIndexSector) = false := beq_false_of_ne hlast.1
    rw [replaySectors, bind_of_ok (run_getFs v)]
    rw [SectorOutcome] at hout
    rw [LogOutcome, scanLog]
    rcases hrun : (applyRecords (scanSector v sector).records).run v with ⟨r1, v1⟩
    rw [hrun] at hout
    by_cases hbad : (scanSector v sector).stop = .bad
    · -- only the active sector can be repaired
      rw [if_pos (.inl hbad)]
      dsimp only
      rw [hrun]
      cases r1 with
      | error e =>
        obtain ⟨x, hx⟩ := hout
        exact ⟨x, bind_of_error hx⟩
      | ok a =>
        rw [hbad] at hout ⊢
        obtain ⟨x, hx⟩ := hout
        refine ⟨x, ?_⟩
        rw [LogScan.terminal, hbeq, Bool.false_and]
        rw [hbeq, Bool.false_and] at hx
        have hreject : ∀ a : World, (clobberOrRejectActiveTail (indexSectorBegin v.fs sector +
            4 * (scanSector v sector).records.length) false).run a = (.error .corrupt, a) := by
          intro a
          rw [clobberOrRejectActiveTail, bind_of_ok (run_getFs a), if_pos (.inr rfl), run_throw]
        rw [bind_of_error (hreject _)] at hx ⊢
        exact bind_of_error hx
    · rw [if_neg (not_or.mpr ⟨hbad, by omega⟩)]
      dsimp only
      cases r1 with
      | error e =>
        obtain ⟨x, hx⟩ := hout
        rw [applyRecords_append, bind_of_error hrun]
        exact ⟨x, bind_of_error hx⟩
      | ok a =>
        obtain ⟨x, hx⟩ : ∃ x, (replaySector (sector == v.fs.activeIndexSector)
            ((sector + 1) * v.fs.sectorSize) v.fs.scratchSize v.fs.sectorSize
            (indexSectorBegin v.fs sector) tail).run v =
            (.ok (lastHead tail (scanSector v sector).records), v1.withNext x) := by
          cases hstop : (scanSector v sector).stop with
          | bad => exact absurd hstop hbad
          | full =>
            rw [hstop] at hout
            obtain ⟨x, -, hx⟩ := hout
            exact ⟨x, hx⟩
          | free =>
            rw [hstop] at hout
            obtain ⟨x, -, hx⟩ := hout
            exact ⟨x, hx⟩
        obtain ⟨b, heads, hv1⟩ := applyRecords_recached h.plan hrun
        have hfits : LogFits (v1.withNext x) := by
          rw [hv1]
          exact h.recached x
        have hsame : scanLog (v1.withNext x) (n + 1) (nextIndexSector v.fs sector) =
            scanLog v (n + 1) (nextIndexSector v.fs sector) := by
          rw [hv1]
          exact scanLog_congr ((Recached.sameData h.plan).trans
            (SameData.withNext (v := v.withCache b heads) h.plan x)) rfl rfl
        have hsector : nextIndexSector v.fs sector < (v1.withNext x).fs.indexSectors := by
          rw [hv1]
          exact nextIndexSector_lt hs
        have hrest := @ih _ hfits _ (lastHead tail (scanSector v sector).records) hsector
          (activeLast_congr (by rw [hv1]; rfl) (by rw [hv1]; rfl) hlast.2)
        rw [hsame] at hrest
        rw [bind_of_ok hx]
        exact LogOutcome.append h.plan hrun hrest

/-! ## The allocator hint -/

/-- The world with other hints of the allocator. -/
def World.withHint (w : World) (cursor serial : Nat) : World :=
  { w with fs := { w.fs with allocCursor := cursor, nextSectorSerial := serial } }

/-- The end of `fffs_replay_index`. -/
def allocatorHint (tail : Nat) : M Unit :=
  if tail ≠ 0 then recoverAllocatorHint tail else pure ()

omit [Opts] in
theorem recoverSectorSerial_run (hplan : v.dev.plan = []) (sector : Nat) :
    ∃ serial, (recoverSectorSerial sector).run v = (.ok (), v.withHint v.fs.allocCursor serial) := by
  have hattempt : (Prog.attempt (readSectorSerial sector)).run v =
      (.ok ((readSectorSerial sector).run v).1, v) := by
    rw [run_attempt, run_of_reads (x := readSectorSerial sector) hplan]
  rw [recoverSectorSerial, bind_of_ok (run_getFs v), bind_of_ok hattempt]
  rcases ((readSectorSerial sector).run v).1 with e | serial
  · exact ⟨v.fs.nextSectorSerial, rfl⟩
  · dsimp only
    by_cases hge : serial ≥ v.fs.nextSectorSerial
    · rw [when_pos hge]
      exact ⟨_, rfl⟩
    · rw [when_neg hge]
      exact ⟨v.fs.nextSectorSerial, rfl⟩

omit [Opts] in
theorem recoverAllocatorLoop_run (hplan : v.dev.plan = []) {n sector : Nat} :
    ∃ serial, (recoverAllocatorLoop n sector).run v =
      (.ok (), v.withHint v.fs.allocCursor serial) := by
  induction n generalizing v sector with
  | zero => exact ⟨v.fs.nextSectorSerial, rfl⟩
  | succ n ih =>
    rw [recoverAllocatorLoop, bind_of_ok (run_getFs v)]
    split
    · exact ⟨v.fs.nextSectorSerial, rfl⟩
    · obtain ⟨serial, hrun⟩ := recoverSectorSerial_run hplan sector
      rw [bind_of_ok hrun]
      dsimp only
      split
      · exact ⟨serial, rfl⟩
      · obtain ⟨serial', hrest⟩ := ih (v := v.withHint v.fs.allocCursor serial) hplan
        exact ⟨serial', hrest⟩

omit [Opts] in
/-- The hint is never an error, and it changes nothing else. -/
theorem allocatorHint_run (hplan : v.dev.plan = []) (tail : Nat) :
    ∃ cursor serial, (allocatorHint tail).run v = (.ok (), v.withHint cursor serial) := by
  unfold allocatorHint
  split
  · rw [recoverAllocatorHint, bind_of_ok (run_modifyFs _ v)]
    obtain ⟨serial, hrun⟩ := recoverAllocatorLoop_run
      (v := { v with fs := { v.fs with allocCursor := nextDataSector v.fs tail } }) hplan
    exact ⟨_, serial, hrun⟩
  · exact ⟨v.fs.allocCursor, v.fs.nextSectorSerial, rfl⟩

/-! ## `fffs_replay_index` -/

/-- How a replay of the whole log ends, when `sc` is what the scan of it finds. -/
def ReplayOutcome (v : World) (sc : LogScan) (res : Except Status Unit × World) : Prop :=
  match (applyRecords sc.records).run v with
  | (.error e, v1) => ∃ x, res = (.error e, v1.withNext x)
  | (.ok (), v1) =>
      if sc.stop ≠ .bad then
        res = (allocatorHint (lastHead 0 sc.records)).run (v1.withNext sc.offset)
      else if v.fs.strict = false ∧ sc.terminal v = true then
        res = (allocatorHint (lastHead 0 sc.records)).run
          ((v1.withMem (Nor.program v.dev.mem sc.offset [0#8, 0#8, 0#8, 0#8]) []).withNext
            (sc.offset + 4))
      else ∃ x, res = (.error .corrupt, v1.withNext x)

/-- The log of the mounted file system lies inside the chip, its sectors follow each
other, and the active one is the last. -/
structure LogPlaced (w : World) : Prop extends LogFits w where
  granule_pos : 0 < w.dev.programGranule
  granule_mod : w.dev.size % w.dev.programGranule = 0
  oldest_lt : w.fs.oldestIndexSector < w.fs.indexSectors
  count_pos : 0 < w.fs.indexSequenceCount
  last : activeLast w.fs (w.fs.indexSequenceCount - 1) w.fs.oldestIndexSector

/-- `fffs_replay_index`. -/
theorem replayIndex_outcome (h : LogPlaced v) :
    ReplayOutcome v (scanLog v v.fs.indexSequenceCount v.fs.oldestIndexSector) (replayIndex.run v) := by
  have hcount := h.count_pos
  obtain ⟨n, hn⟩ : ∃ n, v.fs.indexSequenceCount = n + 1 := ⟨v.fs.indexSequenceCount - 1, by omega⟩
  have hlast := h.last
  rw [hn, Nat.add_sub_cancel] at hlast
  generalize hx : indexSectorBegin v.fs v.fs.activeIndexSector = x
  have hset : (modifyFs fun fs =>
      { fs with nextIndexOffset := indexSectorBegin fs fs.activeIndexSector }).run v =
      (.ok (), v.withNext x) := by
    rw [run_modifyFs, hx]
    rfl
  have hfits : LogFits (v.withNext x) := ⟨h.plan, h.scratch, h.size, h.aligned, h.fits⟩
  have hout := @replaySectors_outcome _ _ hfits n _ 0 h.oldest_lt (@activeLast_congr v.fs _ _ _ rfl rfl hlast)
  rw [scanLog_congr (SameData.withNext h.plan x) rfl rfl] at hout
  rw [replayIndex, bind_of_ok hset, bind_of_ok (run_getFs _)]
  change ReplayOutcome v _ ((do
    let tailHead ← replaySectors v.fs.indexSequenceCount v.fs.oldestIndexSector 0
    allocatorHint tailHead : M Unit).run (v.withNext x))
  rw [hn]
  have hoffset := @scanLog_offset v (n + 1) v.fs.oldestIndexSector (by have := h.size; omega)
  have hsector := scanLog_sector_lt (w := v) (n := n + 1) h.oldest_lt
  generalize scanLog v (n + 1) v.fs.oldestIndexSector = sc at hout hoffset hsector ⊢
  rw [LogOutcome, applyRecords_withNext] at hout
  rw [ReplayOutcome]
  rcases hrun : (applyRecords sc.records).run v with ⟨r1, v1⟩
  rw [hrun] at hout
  obtain ⟨b, heads, hv1⟩ := applyRecords_recached h.plan hrun
  cases r1 with
  | error e =>
    obtain ⟨y, hy⟩ := hout
    exact ⟨y, bind_of_error hy⟩
  | ok a =>
    by_cases hstop : sc.stop = .bad
    · rw [hstop] at hout
      obtain ⟨y, hy⟩ := hout
      dsimp only
      rw [if_neg (not_not.mpr hstop)]
      have hterm : sc.terminal (v.withNext x) = sc.terminal v := rfl
      rw [hterm] at hy
      have hstrict : ((v1.withNext x).withNext y).fs.strict = v.fs.strict := by
        rw [hv1]
        rfl
      rw [run_bind] at hy
      by_cases hrepair : v.fs.strict = false ∧ sc.terminal v = true
      · rw [if_pos hrepair]
        have hle : sc.offset + [0#8, 0#8, 0#8, 0#8].length ≤ v.dev.size := by
          have hmul : (sc.sector + 1) * v.fs.sectorSize ≤ v.fs.indexSectors * v.fs.sectorSize :=
            Nat.mul_le_mul_right _ hsector
          have hin := (hoffset (by rw [hstop]; decide)).2
          exact hin.trans (hmul.trans h.fits)
        have hprog : (clobberOrRejectActiveTail sc.offset (sc.terminal v)).run
            ((v1.withNext x).withNext y) = (.ok (), (v1.withMem (Nor.program v.dev.mem sc.offset
              [0#8, 0#8, 0#8, 0#8]) []).withNext (sc.offset + 4)) := by
          rw [clobberOrRejectActiveTail, bind_of_ok (run_getFs _), hstrict, if_neg (by simp [hrepair]),
            bind_of_ok (programAligned_run (by rw [hv1]; exact h.plan) (by rw [hv1]; exact h.granule_pos)
              (by rw [hv1]; exact h.granule_mod) (by rw [hv1]; exact hle)), run_modifyFs, hv1]
          rfl
        rw [hprog] at hy
        exact bind_of_ok hy
      · rw [if_neg hrepair]
        have hprog : (clobberOrRejectActiveTail sc.offset (sc.terminal v)).run
            ((v1.withNext x).withNext y) = (.error .corrupt, v1.withNext y) := by
          rw [clobberOrRejectActiveTail, bind_of_ok (run_getFs _), hstrict, if_pos]
          · rfl
          · by_contra hno
            simp only [not_or, Bool.not_eq_true, Bool.not_eq_false] at hno
            exact hrepair hno
        rw [hprog] at hy
        exact ⟨y, bind_of_error hy⟩
    · dsimp only
      rw [if_pos hstop]
      have hok : (replaySectors (n + 1) v.fs.oldestIndexSector 0).run (v.withNext x) =
          (.ok (lastHead 0 sc.records), v1.withNext sc.offset) := by
        cases hs : sc.stop with
        | bad => exact absurd hs hstop
        | full =>
          rw [hs] at hout
          exact hout
        | free =>
          rw [hs] at hout
          exact hout
      exact bind_of_ok hok

end Fastffs
