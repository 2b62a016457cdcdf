import Fastffs.LogRead

/-!
# The window of a scan

A build without an index cache reads the log through a window of the scratch buffer,
and loads the window again when a record lies outside of it.  `ScanM` are the programs
that pass such a window along.  The scans of `fffs_nocache_index.c` are given here with
their window, and each of them is shown to return what the scan of `IndexCache` returns,
which reads each record from the flash (`Windows`).
-/

namespace Fastffs

open Prog
open Nor (Mem Byte blank)

/-! ## Scans with a window -/

/-- The window of `struct index_scan`, as `index_scan_init` leaves it when no directory
hands a window on. -/
structure IndexScan where
  window : List Byte := []
  windowStart : Nat := 0
  windowLen : Nat := 0

/-- A program that scans the log through a window. -/
abbrev ScanM := Prog (World × IndexScan) Status

/-- A program that does not use the window. -/
def onWorld {α : Type} (x : M α) : ScanM α := ⟨fun s =>
  match x.run s.1 with
  | (r, w) => (r, (w, s.2))⟩

/-- A scan that begins with an empty window. -/
def startScan {α : Type} (x : ScanM α) : M α := ⟨fun w =>
  match x.run (w, {}) with
  | (r, s) => (r, s.1)⟩

/-- `window_size` of a scan over the scratch buffer. -/
def windowSize (fs : Fs) : Nat := fs.scratchSize - fs.scratchSize % 4

/-- `index_scan_load`. -/
def indexScanLoad (offset : Nat) : ScanM Unit := do
  let (w, scan) ← Prog.get
  if scan.windowStart ≤ offset ∧ offset + 4 ≤ scan.windowStart + scan.windowLen then pure ()
  else
    let fs := w.fs
    let sector := offset / fs.sectorSize
    let begin_ := sector * fs.sectorSize + headerSize
    let rel := offset - begin_
    let base := begin_ + rel - rel % windowSize fs
    let nread := min ((sector + 1) * fs.sectorSize - base) (windowSize fs)
    let nread := nread - nread % 4
    if nread < 4 then Prog.throw .corrupt
    else
      let bytes ← onWorld (flashRead base nread)
      ⟨fun s => (.ok (), (s.1, ⟨bytes, base, nread⟩))⟩

/-- `read_index_at`. -/
def readIndexAt (offset : Nat) : ScanM IndexRecord := do
  indexScanLoad offset
  let (_, scan) ← Prog.get
  pure (indexRecordAt scan.window (offset - scan.windowStart))

namespace Windowed

/-- The inner loop of `newer_record_for_slot`. -/
def newerInSector (slot endOff : Nat) : Nat → Nat → ScanM Bool
  | 0, _ => pure false
  | fuel + 1, off =>
      if off + 4 ≤ endOff then do
        let r ← readIndexAt off
        if r.erased then pure false
        else if r.clobbered then newerInSector slot endOff fuel (off + 4)
        else if r.slot = slot then pure true
        else newerInSector slot endOff fuel (off + 4)
      else pure false

/-- The outer loop of `newer_record_for_slot`. -/
def newerRecordLoop (slot : Nat) : Nat → Nat → Nat → ScanM Bool
  | 0, _, _ => pure false
  | n + 1, seqPos, off => do
      let fs ← onWorld getFs
      let newer ← newerInSector slot (indexSectorEnd fs (logicalIndexSector fs seqPos))
        fs.sectorSize off
      let begin_ := indexSectorBegin fs (logicalIndexSector fs (seqPos + 1))
      if newer then pure true else newerRecordLoop slot n (seqPos + 1) begin_

/-- `newer_record_for_slot`. -/
def newerRecordForSlot (seqPos off slot : Nat) : ScanM Bool := do
  let fs ← onWorld getFs
  newerRecordLoop slot (fs.indexSequenceCount - seqPos) seqPos (off + 4)

/-- The record loop of `fffs_index_head_for_slot`. -/
def lastInSector (slot begin_ : Nat) : Nat → Nat → ScanM (Option IndexRecord)
  | 0, _ => pure none
  | fuel + 1, off =>
      if begin_ + 4 ≤ off then do
        let r ← readIndexAt (off - 4)
        if r.erased ∨ r.slot ≠ slot then lastInSector slot begin_ fuel (off - 4)
        else pure (some r)
      else pure none

/-- The sector loop of `fffs_index_head_for_slot`. -/
def headForSlotScan (slot : Nat) : Nat → ScanM (Option Nat)
  | 0 => pure none
  | seqCount + 1 => do
      let fs ← onWorld getFs
      let sector := logicalIndexSector fs seqCount
      let last ← lastInSector slot (indexSectorBegin fs sector) fs.sectorSize
        (indexSectorEnd fs sector)
      match last with
      | some r => pure (if r.head = 0 then none else some r.head)
      | none => headForSlotScan slot seqCount

/-- The inner loop of `current_index_entry_read`. -/
def currentEntryInSector (seqPos endOff : Nat) : Nat → Nat → IndexIter →
    ScanM (Option IndexRecord × IndexIter)
  | 0, _, it => pure (none, it)
  | fuel + 1, off, it =>
      if off + 4 ≤ endOff then do
        let it := { it with cursorSeqPos := seqPos, cursorOffset := off + 4 }
        let r ← readIndexAt off
        if r.erased then pure (none, it)
        else if r.clobbered ∨ r.head = 0 then currentEntryInSector seqPos endOff fuel (off + 4) it
        else
          let newer ← newerRecordForSlot seqPos off r.slot
          if newer then currentEntryInSector seqPos endOff fuel (off + 4) it
          else pure (some r, it)
      else pure (none, it)

/-- The outer loop of `current_index_entry_read`. -/
def currentEntryLoop : Nat → Nat → Nat → IndexIter → ScanM (Option IndexRecord × IndexIter)
  | 0, _, _, it => pure (none, it)
  | n + 1, seqPos, off, it => do
      let fs ← onWorld getFs
      let (entry, it) ← currentEntryInSector seqPos
        (indexSectorEnd fs (logicalIndexSector fs seqPos)) fs.sectorSize off it
      match entry with
      | some r => pure (some r, it)
      | none =>
          if seqPos + 1 < fs.indexSequenceCount then
            let off := indexSectorBegin fs (logicalIndexSector fs (seqPos + 1))
            currentEntryLoop n (seqPos + 1) off
              { it with cursorSeqPos := seqPos + 1, cursorOffset := off }
          else pure (none, it)

/-- `current_index_entry_read`. -/
def currentIndexEntryRead (it : IndexIter) : ScanM (Option IndexRecord × IndexIter) := do
  let fs ← onWorld getFs
  let off := if it.cursorSeqPos = 0 ∧ it.cursorOffset = 0 then
    indexSectorBegin fs (logicalIndexSector fs 0) else it.cursorOffset
  currentEntryLoop (fs.indexSequenceCount - it.cursorSeqPos) it.cursorSeqPos off it

/-- The record loop of `fffs_index_resolve`. -/
def resolveInSector (name : List Byte) (useCache : Bool) (base begin_ : Nat) :
    Nat → Nat → ProbeSets → ScanM (ProbeSets × Option Resolved)
  | 0, _, sets => pure (sets, none)
  | fuel + 1, off, sets =>
      if begin_ + 4 ≤ off then do
        let off := off - 4
        let fs ← onWorld getFs
        let r ← readIndexAt off
        if r.erased ∨ r.clobbered then resolveInSector name useCache base begin_ fuel off sets
        else match candidateOffset r.slot (maxProbeDistance + 1) 0 base with
          | none => resolveInSector name useCache base begin_ fuel off sets
          | some d =>
              if d ∈ sets.occupied ∨ d ∈ sets.deleted then
                resolveInSector name useCache base begin_ fuel off sets
              else if r.head = 0 then
                resolveInSector name useCache base begin_ fuel off
                  { sets with deleted := d :: sets.deleted }
              else if r.head < fs.indexSectors ∨ r.head ≥ fs.sectorCount then Prog.throw .corrupt
              else
                let root ← onWorld (readFileRootMdPrefix r.head r.slot useCache)
                let sets := { sets with occupied := d :: sets.occupied }
                if cstr root.name = cstr name then
                  pure (sets, some ⟨r.slot, some (r.head, root)⟩)
                else resolveInSector name useCache base begin_ fuel off sets
      else pure (sets, none)

/-- The sector loop of `fffs_index_resolve`. -/
def resolveScan (name : List Byte) (useCache : Bool) (base : Nat) : Nat → ProbeSets → ScanM Resolved
  | 0, sets => do
      let slot ← onWorld (resolveReachedSlot base sets.occupied (maxProbeDistance + 1) 0)
      pure ⟨slot, none⟩
  | seqCount + 1, sets => do
      let fs ← onWorld getFs
      let sector := logicalIndexSector fs seqCount
      let (sets, found) ← resolveInSector name useCache base (indexSectorBegin fs sector)
        fs.sectorSize (indexSectorEnd fs sector) sets
      match found with
      | some r => pure r
      | none => resolveScan name useCache base seqCount sets

end Windowed

/-! ## The window shows the flash -/

/-- The bytes of the window are those of the flash. -/
def IndexScan.Shows (w : World) (scan : IndexScan) : Prop :=
  ∀ i < scan.windowLen, byteAt scan.window i = Nor.get w.dev.mem (scan.windowStart + i)

/-- The scan through a window returns what `y` returns, and changes nothing. -/
def Windows {α : Type} (w : World) (x : ScanM α) (y : M α) : Prop :=
  ∀ scan : IndexScan, scan.Shows w → ∃ r scan', y.run w = (r, w) ∧ x.run (w, scan) = (r, (w, scan')) ∧
    scan'.Shows w

section Rules

variable {α β : Type} {w : World} {x : ScanM α} {y : M α} {f : α → ScanM β} {g : α → M β}

theorem onWorld_run {w' : World} {r : Except Status α} (scan : IndexScan) (h : y.run w = (r, w')) :
    (onWorld y).run (w, scan) = (r, (w', scan)) := by
  change (match y.run w with | (r, w) => (r, (w, scan))) = (r, (w', scan))
  rw [h]

theorem Windows.pure (a : α) : Windows w (Pure.pure a) (Pure.pure a) :=
  fun scan h => ⟨.ok a, scan, rfl, rfl, h⟩

theorem Windows.throw (e : Status) : Windows (α := α) w (Prog.throw e) (Prog.throw e) :=
  fun scan h => ⟨.error e, scan, rfl, rfl, h⟩

theorem Windows.onWorld (hy : (y.run w).2 = w) : Windows w (onWorld y) y := by
  intro scan h
  have hrun : y.run w = ((y.run w).1, w) := Prod.ext rfl hy
  exact ⟨_, scan, hrun, onWorld_run scan hrun, h⟩

theorem Windows.getFs {f : Fs → ScanM β} {g : Fs → M β} (h : Windows w (f w.fs) (g w.fs)) :
    Windows w (Fastffs.onWorld Fastffs.getFs >>= f) (Fastffs.getFs >>= g) := by
  intro scan hscan
  obtain ⟨r, scan', h1, h2, h3⟩ := h scan hscan
  have hget : (Fastffs.onWorld Fastffs.getFs).run (w, scan) = (.ok w.fs, (w, scan)) := rfl
  exact ⟨r, scan', (bind_of_ok (run_getFs w)).trans h1, (bind_of_ok hget).trans h2, h3⟩

theorem Windows.bind (hx : Windows w x y) (hf : ∀ a, y.run w = (.ok a, w) → Windows w (f a) (g a)) :
    Windows w (x >>= f) (y >>= g) := by
  intro scan hscan
  obtain ⟨r, scan', h1, h2, h3⟩ := hx scan hscan
  cases r with
  | error e => exact ⟨.error e, scan', bind_of_error h1, bind_of_error h2, h3⟩
  | ok a =>
    obtain ⟨r, scan'', h4, h5, h6⟩ := hf a h1 scan' h3
    exact ⟨r, scan'', (bind_of_ok h1).trans h4, (bind_of_ok h2).trans h5, h6⟩

theorem Windows.ite {c : Prop} [Decidable c] {x' : ScanM α} {y' : M α} (h : Windows w x y)
    (h' : Windows w x' y') : Windows w (if c then x else x') (if c then y else y') := by
  split
  · exact h
  · exact h'

/-- A scan that begins with an empty window. -/
theorem Windows.start (h : Windows w x y) : (startScan x).run w = y.run w := by
  obtain ⟨r, scan', h1, h2, -⟩ := h {} fun i hi => absurd hi (Nat.not_lt_zero i)
  rw [h1]
  change (match x.run (w, {}) with | (r, s) => (r, s.1)) = (r, w)
  rw [h2]

end Rules

section Load

variable {w : World}

/-- A record inside the window. -/
theorem IndexScan.Shows.recordAt {scan : IndexScan} (h : scan.Shows w) {off : Nat}
    (h1 : scan.windowStart ≤ off) (h2 : off + 4 ≤ scan.windowStart + scan.windowLen) :
    indexRecordAt scan.window (off - scan.windowStart) = recordAt w.dev.mem off := by
  have hbyte : ∀ i < 4, byteAt scan.window (off - scan.windowStart + i) =
      byteAt (Nor.read w.dev.mem off 4) i := by
    intro i hi
    rw [h _ (by omega), byteAt, Nor.getD_read _ _ _ _ _ hi]
    congr 1
    omega
  have h0 := hbyte 0 (by omega)
  have h1 := hbyte 1 (by omega)
  have h2 := hbyte 2 (by omega)
  have h3 := hbyte 3 (by omega)
  rw [Nat.add_zero] at h0
  rw [Fastffs.recordAt, indexRecordAt, indexRecordAt, loadLe16, loadLe16, loadLe16, loadLe16, h0, h1, h2,
    show off - scan.windowStart + 2 + 1 = off - scan.windowStart + 3 by omega, h3]

/-- `index_scan_load` of a place for a record. -/
theorem indexScanLoad_run (h : LogFits w) {sector j : Nat} (hs : sector < w.fs.indexSectors)
    (hj : j < recordPlaces w.fs) {scan : IndexScan} (hscan : scan.Shows w) :
    ∃ scan', (indexScanLoad (indexSectorBegin w.fs sector + 4 * j)).run (w, scan) = (.ok (), (w, scan')) ∧
      scan'.Shows w ∧ scan'.windowStart ≤ indexSectorBegin w.fs sector + 4 * j ∧
      indexSectorBegin w.fs sector + 4 * j + 4 ≤ scan'.windowStart + scan'.windowLen := by
  have hsize := h.size
  have haligned := h.aligned
  have hfits := h.fits
  have hscratch := h.scratch
  have hmul : (sector + 1) * w.fs.sectorSize ≤ w.fs.indexSectors * w.fs.sectorSize :=
    Nat.mul_le_mul_right _ hs
  rw [recordPlaces, headerSize] at hj
  rw [Nat.add_mul, Nat.one_mul] at hmul
  rw [indexScanLoad]
  have hget : (Prog.get : ScanM _).run (w, scan) = (.ok (w, scan), (w, scan)) := rfl
  rw [bind_of_ok hget]
  dsimp only
  by_cases hin : scan.windowStart ≤ indexSectorBegin w.fs sector + 4 * j ∧
      indexSectorBegin w.fs sector + 4 * j + 4 ≤ scan.windowStart + scan.windowLen
  · rw [if_pos hin]
    exact ⟨scan, rfl, hscan, hin⟩
  rw [if_neg hin]
  -- the sector of the place, and the places before it in the window
  have hsector : (indexSectorBegin w.fs sector + 4 * j) / w.fs.sectorSize = sector := by
    rw [indexSectorBegin, headerSize, Nat.add_assoc, Nat.mul_comm, Nat.mul_add_div (by omega),
      Nat.div_eq_of_lt (by omega), Nat.add_zero]
  have hbegin : indexSectorBegin w.fs sector + 4 * j - (sector * w.fs.sectorSize + headerSize) = 4 * j := by
    rw [indexSectorBegin, Nat.add_sub_cancel_left]
  have hwindow : 4 ≤ windowSize w.fs ∧ windowSize w.fs % 4 = 0 := by
    rw [windowSize]
    omega
  rw [hsector, hbegin]
  generalize windowSize w.fs = size at hwindow ⊢
  have hrel : 4 * j % size % 4 = 0 := by
    obtain ⟨c, hc⟩ : ∃ c, size = 4 * c := ⟨size / 4, by omega⟩
    rw [hc, Nat.mul_mod_mul_left]
    omega
  have hlt : 4 * j % size < size := Nat.mod_lt _ (by omega)
  have hle : 4 * j % size ≤ 4 * j := Nat.mod_le _ _
  generalize 4 * j % size = skip at hrel hlt hle ⊢
  rw [headerSize]
  obtain ⟨n, hn⟩ : ∃ n, n = min ((sector + 1) * w.fs.sectorSize -
      (sector * w.fs.sectorSize + 8 + 4 * j - skip)) size := ⟨_, rfl⟩
  have hn4 : n % 4 = 0 ∧ skip + 4 ≤ n ∧ n ≤ w.fs.sectorSize - 8 - (4 * j - skip) := by
    rw [Nat.add_mul, Nat.one_mul] at hn
    omega
  rw [← hn, hn4.1, Nat.sub_zero, if_neg (by omega)]
  rw [bind_of_ok (onWorld_run scan (flashRead_run h.plan (by omega)))]
  refine ⟨_, rfl, ?_, ?_, ?_⟩
  · intro i hi
    rw [byteAt, Nor.getD_read _ _ _ _ _ hi]
  · dsimp only
    rw [indexSectorBegin, headerSize]
    omega
  · dsimp only
    rw [indexSectorBegin, headerSize]
    omega

/-- `read_index_at` of a place for a record. -/
theorem readIndexAt_windows (h : LogFits w) {sector j : Nat} (hs : sector < w.fs.indexSectors)
    (hj : j < recordPlaces w.fs) :
    Windows w (readIndexAt (indexSectorBegin w.fs sector + 4 * j))
      (readIndexRecord (indexSectorBegin w.fs sector + 4 * j)) := by
  intro scan hscan
  have hmul : (sector + 1) * w.fs.sectorSize ≤ w.fs.indexSectors * w.fs.sectorSize :=
    Nat.mul_le_mul_right _ hs
  have hfits := h.fits
  have hin : indexSectorBegin w.fs sector + 4 * j + 4 ≤ w.dev.size := by
    rw [recordPlaces, headerSize] at hj
    rw [Nat.add_mul, Nat.one_mul] at hmul
    rw [indexSectorBegin, headerSize]
    omega
  obtain ⟨scan', hload, hscan', h1, h2⟩ := indexScanLoad_run h hs hj hscan
  refine ⟨_, scan', readIndexRecord_run h.plan hin, ?_, hscan'⟩
  rw [readIndexAt, bind_of_ok hload]
  change (Except.ok (indexRecordAt scan'.window _), (w, scan')) = _
  rw [hscan'.recordAt h1 h2]

end Load

/-! ## The scans -/

section Scans

variable {w : World} {logs : List (List IndexRecord)} {slot : Nat}

/-- A record of the log, through the window. -/
theorem LogPlaced.readIndexAt (hp : LogPlaced w) {k j : Nat} (hj : j < recordPlaces w.fs) :
    Windows w (readIndexAt (logBegin w.fs k + 4 * j)) (readIndexRecord (logBegin w.fs k + 4 * j)) :=
  readIndexAt_windows hp.toLogFits (logicalIndexSector_lt hp.sectors_pos k) hj

theorem lastInSector_windows (hp : LogPlaced w) {k j fuel : Nat} (hj : j ≤ recordPlaces w.fs) :
    Windows w (Windowed.lastInSector slot (logBegin w.fs k) fuel (logBegin w.fs k + 4 * j))
      (lastInSector slot (logBegin w.fs k) fuel (logBegin w.fs k + 4 * j)) := by
  induction fuel generalizing j with
  | zero => exact Windows.pure none
  | succ fuel ih =>
    rw [Windowed.lastInSector, lastInSector]
    cases j with
    | zero =>
      rw [if_neg (by omega), if_neg (by omega)]
      exact Windows.pure none
    | succ j =>
      have hoff : logBegin w.fs k + 4 * (j + 1) - 4 = logBegin w.fs k + 4 * j := by omega
      rw [if_pos (by omega), if_pos (by omega), hoff]
      exact (hp.readIndexAt (by omega)).bind fun r _ => (ih (by omega)).ite (Windows.pure _)

theorem headForSlotScan_windows (h : LogOn w logs) (hp : LogPlaced w) {n : Nat} (hn : n ≤ logs.length) :
    Windows w (Windowed.headForSlotScan slot n) (headForSlotScan slot n) := by
  induction n with
  | zero => exact Windows.pure none
  | succ n ih =>
    rw [Windowed.headForSlotScan, headForSlotScan]
    refine Windows.getFs ?_
    dsimp only
    rw [h.indexSectorEnd_eq hp (by omega)]
    refine (lastInSector_windows hp (h.le_searched (by omega)).2).bind fun last _ => ?_
    cases last with
    | some r => exact Windows.pure _
    | none => exact ih (by omega)

theorem newerInSector_windows (hp : LogPlaced w) {k n j fuel : Nat} (hn : n ≤ recordPlaces w.fs) :
    Windows w (Windowed.newerInSector slot (logBegin w.fs k + 4 * n) fuel (logBegin w.fs k + 4 * j))
      (newerInSector slot (logBegin w.fs k + 4 * n) fuel (logBegin w.fs k + 4 * j)) := by
  induction fuel generalizing j with
  | zero => exact Windows.pure false
  | succ fuel ih =>
    rw [Windowed.newerInSector, newerInSector]
    by_cases hlt : j < n
    · have hoff : logBegin w.fs k + 4 * j + 4 = logBegin w.fs k + 4 * (j + 1) := by omega
      rw [if_pos (by omega), if_pos (by omega), hoff]
      exact (hp.readIndexAt (by omega)).bind fun r _ =>
        (Windows.pure _).ite (ih.ite ((Windows.pure _).ite ih))
    · rw [if_neg (by omega), if_neg (by omega)]
      exact Windows.pure false

theorem newerRecordLoop_windows (h : LogOn w logs) (hp : LogPlaced w) {n k j : Nat}
    (hn : k + n = logs.length) :
    Windows w (Windowed.newerRecordLoop slot n k (logBegin w.fs k + 4 * j))
      (newerRecordLoop slot n k (logBegin w.fs k + 4 * j)) := by
  induction n generalizing k j with
  | zero => exact Windows.pure false
  | succ n ih =>
    rw [Windowed.newerRecordLoop, newerRecordLoop]
    refine Windows.getFs ?_
    rw [h.indexSectorEnd_eq hp (by omega)]
    refine (newerInSector_windows hp (h.le_searched (by omega)).2).bind fun newer _ => ?_
    exact (Windows.pure _).ite (ih (k := k + 1) (j := 0) (by omega))

theorem newerRecordForSlot_windows (h : LogOn w logs) (hp : LogPlaced w) {k j : Nat} (hk : k < logs.length) :
    Windows w (Windowed.newerRecordForSlot k (logBegin w.fs k + 4 * j) slot)
      (newerRecordForSlot k (logBegin w.fs k + 4 * j) slot) := by
  have hoff : logBegin w.fs k + 4 * j + 4 = logBegin w.fs k + 4 * (j + 1) := by omega
  rw [Windowed.newerRecordForSlot, newerRecordForSlot, hoff]
  refine Windows.getFs (newerRecordLoop_windows h hp ?_)
  rw [← h.count]
  omega

theorem currentEntryInSector_windows (h : LogOn w logs) (hp : LogPlaced w) {k n j fuel : Nat}
    {it : IndexIter} (hk : k < logs.length) (hn : n ≤ recordPlaces w.fs) :
    Windows w (Windowed.currentEntryInSector k (logBegin w.fs k + 4 * n) fuel (logBegin w.fs k + 4 * j) it)
      (currentEntryInSector k (logBegin w.fs k + 4 * n) fuel (logBegin w.fs k + 4 * j) it) := by
  induction fuel generalizing j it with
  | zero => exact Windows.pure _
  | succ fuel ih =>
    rw [Windowed.currentEntryInSector, currentEntryInSector]
    by_cases hlt : j < n
    · have hoff : logBegin w.fs k + 4 * j + 4 = logBegin w.fs k + 4 * (j + 1) := by omega
      rw [if_pos (by omega), if_pos (by omega)]
      dsimp only
      rw [hoff]
      refine (hp.readIndexAt (by omega)).bind fun r _ => (Windows.pure _).ite (ih.ite ?_)
      exact (newerRecordForSlot_windows h hp hk).bind fun newer _ => ih.ite (Windows.pure _)
    · rw [if_neg (by omega), if_neg (by omega)]
      exact Windows.pure _

theorem currentEntryLoop_windows (h : LogOn w logs) (hp : LogPlaced w) {n k j : Nat} {it : IndexIter}
    (hn : k + n = logs.length) :
    Windows w (Windowed.currentEntryLoop n k (logBegin w.fs k + 4 * j) it)
      (currentEntryLoop n k (logBegin w.fs k + 4 * j) it) := by
  induction n generalizing k j it with
  | zero => exact Windows.pure _
  | succ n ih =>
    rw [Windowed.currentEntryLoop, currentEntryLoop]
    refine Windows.getFs ?_
    rw [h.indexSectorEnd_eq hp (by omega)]
    refine (currentEntryInSector_windows h hp (by omega) (h.le_searched (by omega)).2).bind fun a _ => ?_
    obtain ⟨entry, it'⟩ := a
    cases entry with
    | some r => exact Windows.pure _
    | none => exact (ih (k := k + 1) (j := 0) (by omega)).ite (Windows.pure _)

/-- `current_index_entry_read`, for a cursor that is at a place for a record. -/
theorem currentIndexEntryRead_windows (h : LogOn w logs) (hp : LogPlaced w) {k j : Nat} {it : IndexIter}
    (hk : k < logs.length) (hseq : it.cursorSeqPos = k)
    (hoff : (if it.cursorSeqPos = 0 ∧ it.cursorOffset = 0 then
      indexSectorBegin w.fs (logicalIndexSector w.fs 0) else it.cursorOffset) = logBegin w.fs k + 4 * j) :
    Windows w (Windowed.currentIndexEntryRead it) (currentIndexEntryRead it) := by
  rw [Windowed.currentIndexEntryRead, currentIndexEntryRead]
  refine Windows.getFs ?_
  dsimp only
  rw [hoff, hseq]
  refine currentEntryLoop_windows h hp ?_
  rw [← h.count]
  omega

theorem resolveInSector_windows (hp : LogPlaced w) {name : List Byte} {useCache : Bool}
    {base k j fuel : Nat} {sets : ProbeSets} (hj : j ≤ recordPlaces w.fs) :
    Windows w
      (Windowed.resolveInSector name useCache base (logBegin w.fs k) fuel (logBegin w.fs k + 4 * j) sets)
      (resolveInSector name useCache base (logBegin w.fs k) fuel (logBegin w.fs k + 4 * j) sets) := by
  induction fuel generalizing j sets with
  | zero => exact Windows.pure _
  | succ fuel ih =>
    rw [Windowed.resolveInSector, resolveInSector]
    cases j with
    | zero =>
      rw [if_neg (by omega), if_neg (by omega)]
      exact Windows.pure _
    | succ j =>
      have hoff : logBegin w.fs k + 4 * (j + 1) - 4 = logBegin w.fs k + 4 * j := by omega
      have hnext := fun sets => @ih j sets (by omega)
      rw [if_pos (by omega), if_pos (by omega)]
      dsimp only
      rw [hoff]
      refine Windows.getFs ((hp.readIndexAt (by omega)).bind fun r _ => (hnext sets).ite ?_)
      cases candidateOffset r.slot (maxProbeDistance + 1) 0 base with
      | none => exact hnext sets
      | some d =>
        refine (hnext sets).ite ((hnext _).ite ((Windows.throw _).ite ?_))
        refine (Windows.onWorld (run_of_reads hp.plan)).bind fun root _ => ?_
        exact (Windows.pure _).ite (hnext _)

theorem resolveScan_windows (h : LogOn w logs) (hp : LogPlaced w) {name : List Byte} {useCache : Bool}
    {base n : Nat} {sets : ProbeSets} (hn : n ≤ logs.length) :
    Windows w (Windowed.resolveScan name useCache base n sets) (resolveScan name useCache base n sets) := by
  induction n generalizing sets with
  | zero =>
    rw [Windowed.resolveScan, resolveScan]
    exact (Windows.onWorld (run_of_reads hp.plan)).bind fun slot _ => Windows.pure _
  | succ n ih =>
    rw [Windowed.resolveScan, resolveScan]
    refine Windows.getFs ?_
    dsimp only
    rw [h.indexSectorEnd_eq hp (by omega)]
    refine (resolveInSector_windows hp (h.le_searched (by omega)).2).bind fun a _ => ?_
    obtain ⟨sets', found⟩ := a
    cases found with
    | some r => exact Windows.pure _
    | none => exact ih (by omega)

end Scans

/-! ## The backend API -/

section Api

variable [Opts] {w : World} {logs : List (List IndexRecord)}

namespace Windowed

/-- `fffs_index_head_for_slot`. -/
def indexHeadForSlot (slot : Nat) : M (Option Nat) := do
  let fs ← getFs
  match Opts.indexCacheMode with
  | .none => startScan (headForSlotScan slot fs.indexSequenceCount)
  | _ => Fastffs.indexHeadForSlot slot

/-- `fffs_index_resolve`. -/
def indexResolve (name : List Byte) (useCache : Bool) : M Resolved := do
  let nameLen := (cstr name).length
  if nameLen = 0 then Prog.throw .invalid
  else if nameLen > maxName then Prog.throw .nameTooLong
  else
    let base := normalizeSlotBase (hash16 name)
    match Opts.indexCacheMode with
    | .none => do
        let fs ← getFs
        startScan (resolveScan name useCache base fs.indexSequenceCount {})
    | _ => resolveProbe name useCache (maxProbeDistance + 1) base none

/-- `fffs_index_iter_read`. -/
def indexIterRead (it : IndexIter) : M (Option IndexRecord × IndexIter) :=
  match Opts.indexCacheMode with
  | .none => startScan (currentIndexEntryRead it)
  | _ => Fastffs.indexIterRead it

end Windowed

theorem indexHeadForSlot_window (h : LogOn w logs) (hp : LogPlaced w) (slot : Nat) :
    (Windowed.indexHeadForSlot slot).run w = (indexHeadForSlot slot).run w := by
  rw [Windowed.indexHeadForSlot, bind_of_ok (run_getFs w)]
  cases hm : Opts.indexCacheMode with
  | none =>
    dsimp only
    rw [(headForSlotScan_windows h hp h.count.ge).start, indexHeadForSlot, bind_of_ok (run_getFs w), hm]
  | hashHeads => rfl
  | fullSlotHeads => rfl

theorem indexResolve_window (h : LogOn w logs) (hp : LogPlaced w) (name : List Byte) (useCache : Bool) :
    (Windowed.indexResolve name useCache).run w = (indexResolve name useCache).run w := by
  rw [Windowed.indexResolve, indexResolve]
  cases hm : Opts.indexCacheMode with
  | none =>
    dsimp only
    split
    · rfl
    · split
      · rfl
      · rw [bind_of_ok (run_getFs w), bind_of_ok (run_getFs w), (resolveScan_windows h hp h.count.ge).start]
  | hashHeads => rfl
  | fullSlotHeads => rfl

end Api

end Fastffs
