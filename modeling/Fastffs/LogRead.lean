import Fastffs.LogState

/-!
# Reading the log without a cache

A build without an index cache reads the log on each lookup, from the last record
back.  On a log `logs` the lookup finds what a replay of the log would have put into
the cache (`headForSlotScan_run`), and the search for a newer record looks through
the rest of the log (`newerRecordForSlot_run`).
-/

namespace Fastffs

open Prog
open Nor (Mem Byte blank)

variable {w : World} {logs : List (List IndexRecord)} {slot : Nat}

/-! ## The places of a sector -/

/-- The sectors of the log before the last one are not the active one. -/
theorem activeLast_logical {fs : Fs} (hsectors : 0 < fs.indexSectors) {n k : Nat}
    (h : activeLast fs n (logicalIndexSector fs k)) :
    logicalIndexSector fs (k + n) = fs.activeIndexSector ∧
      ∀ j < n, logicalIndexSector fs (k + j) ≠ fs.activeIndexSector := by
  induction n generalizing k with
  | zero => exact ⟨h, by omega⟩
  | succ n ih =>
    obtain ⟨hne, hrest⟩ := h
    rw [logicalIndexSector_succ hsectors] at hrest
    obtain ⟨h1, h2⟩ := ih hrest
    refine ⟨by rw [← h1]; congr 1; omega, fun j hj => ?_⟩
    cases j with
    | zero => exact hne
    | succ j =>
      have hj' := h2 j (by omega)
      rwa [show k + 1 + j = k + (j + 1) by omega] at hj'

theorem LogPlaced.sectors_pos (hp : LogPlaced w) : 0 < w.fs.indexSectors :=
  Nat.lt_of_le_of_lt (Nat.zero_le _) hp.oldest_lt

/-- The active sector is the last one of the log. -/
theorem LogPlaced.active_iff (hp : LogPlaced w) {k : Nat} (hk : k < w.fs.indexSequenceCount) :
    logicalIndexSector w.fs k = w.fs.activeIndexSector ↔ k + 1 = w.fs.indexSequenceCount := by
  have hlast := hp.last
  rw [← logicalIndexSector_zero hp.oldest_lt] at hlast
  obtain ⟨h1, h2⟩ := activeLast_logical hp.sectors_pos hlast
  rw [Nat.zero_add] at h1
  constructor
  · intro heq
    by_contra hne
    exact h2 k (by omega) (by rw [Nat.zero_add]; exact heq)
  · intro heq
    rw [← h1]
    congr 1
    omega

/-- The number of places of a sector that a search goes through. -/
def searched (w : World) (logs : List (List IndexRecord)) (k : Nat) : Nat :=
  if k + 1 = w.fs.indexSequenceCount then (logs.getD k []).length else recordPlaces w.fs

theorem LogOn.le_searched (h : LogOn w logs) {k : Nat} (hk : k < logs.length) :
    (logs.getD k []).length ≤ searched w logs k ∧ searched w logs k ≤ recordPlaces w.fs := by
  have hroom := h.room k hk
  unfold searched
  split <;> omega

/-- The end of a sector that a search goes through. -/
theorem LogOn.indexSectorEnd_eq (h : LogOn w logs) (hp : LogPlaced w) {k : Nat} (hk : k < logs.length) :
    indexSectorEnd w.fs (logicalIndexSector w.fs k) = logBegin w.fs k + 4 * searched w logs k := by
  have hcount := h.count
  rw [indexSectorEnd, searched]
  by_cases hlast : k + 1 = w.fs.indexSequenceCount
  · have hactive := (hp.active_iff (by omega)).mpr hlast
    rw [if_pos hactive, if_pos hlast, h.next, getLast_logs (show k + 1 = logs.length by omega), logBegin,
      hactive]
  · rw [if_neg fun heq => hlast ((hp.active_iff (by omega)).mp heq), if_neg hlast,
      ← logEnd_eq hp.size hp.aligned, logEnd]

theorem logEnd_le (hp : LogPlaced w) (k : Nat) : logEnd w.fs k ≤ w.dev.size := by
  have hlt := logicalIndexSector_lt hp.sectors_pos k
  exact (Nat.mul_le_mul_right _ hlt).trans hp.fits

theorem Records.getD {m : Mem} {off j : Nat} {rs : List IndexRecord} (h : Records m off rs)
    (hj : j < rs.length) : recordAt m (off + 4 * j) = rs.getD j ⟨0, 0⟩ ∧
      (rs.getD j ⟨0, 0⟩).erased = false := by
  induction rs generalizing off j with
  | nil => simp at hj
  | cons r rs ih =>
    cases j with
    | zero => exact ⟨h.1, h.2.1⟩
    | succ j =>
      rw [List.length_cons] at hj
      have hj' := ih h.2.2 (show j < rs.length by omega)
      rwa [show off + 4 + 4 * j = off + 4 * (j + 1) by omega] at hj'

/-- The record at a place of a sector with the records `rs`. -/
def PlaceHolds (rs : List IndexRecord) (j : Nat) (r : IndexRecord) : Prop :=
  if j < rs.length then r = rs.getD j ⟨0, 0⟩ ∧ r.erased = false else r.erased = true

theorem LogOn.placeHolds (h : LogOn w logs) (hp : LogPlaced w) {k j : Nat} (hk : k < logs.length)
    (hj : j < recordPlaces w.fs) :
    PlaceHolds (logs.getD k []) j (recordAt w.dev.mem (logBegin w.fs k + 4 * j)) := by
  have hend := logEnd_eq hp.size hp.aligned k
  rw [PlaceHolds]
  split
  · next hlt =>
    obtain ⟨h1, h2⟩ := (h.records k hk).getD hlt
    rw [h1]
    exact ⟨rfl, h2⟩
  · next hge =>
    rw [recordAt_erased_iff, freeFrom_iff]
    intro i h1 h2
    exact freeFrom_iff.mp (h.free k hk) i (by omega) (by omega)

/-- The record at a place of the log. -/
theorem LogOn.readIndexRecord_at (h : LogOn w logs) (hp : LogPlaced w) {k j : Nat} (hk : k < logs.length)
    (hj : j < recordPlaces w.fs) :
    ∃ r, (readIndexRecord (logBegin w.fs k + 4 * j)).run w = (.ok r, w) ∧
      if j < (logs.getD k []).length then r = (logs.getD k []).getD j ⟨0, 0⟩ ∧ r.erased = false
      else r.erased = true := by
  have hend := logEnd_eq hp.size hp.aligned k
  have hle := logEnd_le hp k
  exact ⟨_, readIndexRecord_run hp.plan (by omega), h.placeHolds hp hk hj⟩

/-! ## Searching back -/

/-- The entries of a log. -/
def entries (rs : List IndexRecord) : List (Nat × Nat) := rs.map IndexRecord.entry

theorem entries_append (rs rs' : List IndexRecord) : entries (rs ++ rs') = entries rs ++ entries rs' :=
  List.map_append

/-- The last record of a slot in one sector. -/
theorem lastInSector_run (h : LogOn w logs) (hp : LogPlaced w) {k j fuel : Nat} (hk : k < logs.length)
    (hj : j ≤ recordPlaces w.fs) (hfuel : j ≤ fuel) :
    (lastInSector slot (logBegin w.fs k) fuel (logBegin w.fs k + 4 * j)).run w =
      (.ok ((Journal.latest slot (entries ((logs.getD k []).take j))).map (⟨slot, ·⟩)), w) := by
  induction j generalizing fuel with
  | zero =>
    cases fuel with
    | zero => rfl
    | succ fuel =>
      rw [lastInSector, if_neg (by omega)]
      rfl
  | succ j ih =>
    obtain ⟨fuel, rfl⟩ : ∃ n, fuel = n + 1 := ⟨fuel - 1, by omega⟩
    obtain ⟨r, hrun, hr⟩ := h.readIndexRecord_at hp hk (show j < recordPlaces w.fs by omega)
    have hoff : logBegin w.fs k + 4 * (j + 1) - 4 = logBegin w.fs k + 4 * j := by omega
    rw [lastInSector, if_pos (by omega), hoff, bind_of_ok hrun]
    split at hr
    · next hlt =>
      obtain ⟨hreq, herased⟩ := hr
      have htake : (logs.getD k []).take (j + 1) = (logs.getD k []).take j ++ [r] := by
        rw [hreq, List.getD_eq_getElem _ _ hlt, List.take_append_getElem hlt]
      have hone : Journal.latest slot (entries [r]) = if r.slot = slot then some r.head else none := rfl
      rw [htake, entries_append, Journal.latest_append, hone]
      by_cases hslot : r.slot = slot
      · rw [if_neg (by simp [herased, hslot]), if_pos hslot, run_pure, ← hslot]
        rfl
      · rw [if_pos (.inr hslot), if_neg hslot, ih (by omega) (by omega)]
        rfl
    · next hge =>
      have htake : (logs.getD k []).take (j + 1) = (logs.getD k []).take j := by
        rw [List.take_of_length_le (by omega), List.take_of_length_le (by omega)]
      rw [if_pos (.inl hr), ih (by omega) (by omega), htake]

theorem take_succ_flatten {k : Nat} (hk : k < logs.length) :
    (logs.take (k + 1)).flatten = (logs.take k).flatten ++ logs.getD k [] := by
  rw [List.getD_eq_getElem _ _ hk, ← List.take_append_getElem hk, List.flatten_append,
    List.flatten_singleton]

/-- The lookup of a build without a cache. -/
theorem headForSlotScan_run (h : LogOn w logs) (hp : LogPlaced w) {n : Nat} (hn : n ≤ logs.length) :
    (headForSlotScan slot n).run w =
      (.ok ((Journal.latest slot (entries (logs.take n).flatten)).bind
        fun head => if head = 0 then none else some head), w) := by
  induction n with
  | zero => rfl
  | succ n ih =>
    obtain ⟨hlen, hplaces⟩ := h.le_searched (show n < logs.length by omega)
    have hlast : (lastInSector slot (logBegin w.fs n) w.fs.sectorSize
        (logBegin w.fs n + 4 * searched w logs n)).run w = _ :=
      lastInSector_run h hp (show n < logs.length by omega) hplaces
        (by rw [recordPlaces, headerSize] at hplaces; omega)
    rw [List.take_of_length_le hlen] at hlast
    rw [headForSlotScan, bind_of_ok (run_getFs w)]
    dsimp only
    rw [h.indexSectorEnd_eq hp (show n < logs.length by omega)]
    change (lastInSector slot (logBegin w.fs n) w.fs.sectorSize _ >>= _).run w = _
    rw [bind_of_ok hlast, take_succ_flatten (by omega), entries_append, Journal.latest_append]
    rcases Journal.latest slot (entries (logs.getD n [])) with _ | head
    · exact ih (by omega)
    · rfl

/-! ## Searching on -/

/-- A record of the slot among the places of a sector from `j` on. -/
theorem newerInSector_run (h : LogOn w logs) (hp : LogPlaced w) (hslot : slot ≠ 0) {k j fuel : Nat}
    (hk : k < logs.length) (hj : j ≤ searched w logs k) (hfuel : searched w logs k ≤ j + fuel) :
    (newerInSector slot (logBegin w.fs k + 4 * searched w logs k) fuel (logBegin w.fs k + 4 * j)).run w =
      (.ok (((logs.getD k []).drop j).any (·.slot == slot)), w) := by
  obtain ⟨hlen, hplaces⟩ := h.le_searched hk
  induction fuel generalizing j with
  | zero =>
    rw [List.drop_eq_nil_of_le (by omega)]
    rfl
  | succ fuel ih =>
    rw [newerInSector]
    by_cases hlt : j < searched w logs k
    · obtain ⟨r, hrun, hr⟩ := h.readIndexRecord_at hp hk (show j < recordPlaces w.fs by omega)
      rw [if_pos (by omega), bind_of_ok hrun]
      split at hr
      · next hlt' =>
        obtain ⟨hreq, herased⟩ := hr
        have hdrop : (logs.getD k []).drop j = r :: (logs.getD k []).drop (j + 1) := by
          rw [hreq, List.getD_eq_getElem _ _ hlt', List.drop_eq_getElem_cons hlt']
        have hoff : logBegin w.fs k + 4 * j + 4 = logBegin w.fs k + 4 * (j + 1) := by omega
        rw [hdrop, List.any_cons, if_neg (by simp [herased]), hoff]
        by_cases hclob : r.clobbered = true
        · have hne : (r.slot == slot) = false := by
            rw [(IndexRecord.clobbered_iff.mp hclob).1]
            exact beq_false_of_ne (Ne.symm hslot)
          rw [if_pos hclob, hne, Bool.false_or]
          exact ih (by omega) (by omega)
        · rw [if_neg hclob]
          by_cases heq : r.slot = slot
          · rw [if_pos heq, heq, beq_self_eq_true, Bool.true_or]
            rfl
          · rw [if_neg heq, beq_false_of_ne heq, Bool.false_or]
            exact ih (by omega) (by omega)
      · next hge =>
        rw [if_pos hr, List.drop_eq_nil_of_le (by omega)]
        rfl
    · rw [if_neg (by omega), List.drop_eq_nil_of_le (by omega)]
      rfl

/-- A record of the slot in the log from a place on. -/
theorem newerRecordLoop_run (h : LogOn w logs) (hp : LogPlaced w) (hslot : slot ≠ 0) {n k j : Nat}
    (hn : k + n = logs.length) (hj : 0 < n → j ≤ searched w logs k) :
    (newerRecordLoop slot n k (logBegin w.fs k + 4 * j)).run w =
      (.ok (0 < n && (((logs.getD k []).drop j).any (·.slot == slot) ||
        (logs.drop (k + 1)).flatten.any (·.slot == slot))), w) := by
  induction n generalizing k j with
  | zero => rfl
  | succ n ih =>
    have hk : k < logs.length := by omega
    obtain ⟨-, hplaces⟩ := h.le_searched hk
    have hfuel : searched w logs k ≤ j + w.fs.sectorSize := by
      rw [recordPlaces, headerSize] at hplaces
      omega
    rw [newerRecordLoop, bind_of_ok (run_getFs w), h.indexSectorEnd_eq hp hk,
      bind_of_ok (newerInSector_run h hp hslot hk (hj (by omega)) hfuel)]
    dsimp only
    change (if _ then pure true else newerRecordLoop slot n (k + 1) (logBegin w.fs (k + 1))).run w = _
    have hrest : (newerRecordLoop slot n (k + 1) (logBegin w.fs (k + 1))).run w = _ :=
      ih (k := k + 1) (j := 0) (by omega) fun _ => Nat.zero_le _
    rw [List.drop_zero] at hrest
    have hpos : decide (0 < n + 1) = true := decide_eq_true (Nat.succ_pos n)
    rw [hpos, Bool.true_and]
    cases hany : ((logs.getD k []).drop j).any (·.slot == slot) with
    | true => rfl
    | false =>
      rw [if_neg (by simp), hrest, Bool.false_or]
      cases n with
      | zero =>
        have hnil : logs.drop (k + 1) = [] := List.drop_eq_nil_of_le (by omega)
        rw [hnil]
        rfl
      | succ n =>
        rw [decide_eq_true (Nat.succ_pos n), Bool.true_and, drop_logs (show k + 1 < logs.length by omega),
          List.flatten_cons, List.any_append]

/-- `newer_record_for_slot`, after the record at place `j` of sector `k`. -/
theorem newerRecordForSlot_run (h : LogOn w logs) (hp : LogPlaced w) (hslot : slot ≠ 0) {k j : Nat}
    (hk : k < logs.length) (hj : j < (logs.getD k []).length) :
    (newerRecordForSlot k (logBegin w.fs k + 4 * j) slot).run w =
      (.ok (((logs.getD k []).drop (j + 1) ++ (logs.drop (k + 1)).flatten).any (·.slot == slot)), w) := by
  have hlen := (h.le_searched hk).1
  have hoff : logBegin w.fs k + 4 * j + 4 = logBegin w.fs k + 4 * (j + 1) := by omega
  have hpos : 0 < w.fs.indexSequenceCount - k := by
    rw [← h.count]
    omega
  rw [newerRecordForSlot, bind_of_ok (run_getFs w), hoff,
    newerRecordLoop_run h hp hslot (by rw [← h.count]; omega) (fun _ => by omega),
    decide_eq_true hpos, Bool.true_and, List.any_append]

end Fastffs
