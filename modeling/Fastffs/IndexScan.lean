import Fastffs.IndexMap
import Fastffs.Roots
import Fastffs.Lib.Journal

/-!
# The log on the flash

The records of the index as they lie on the flash, without the loops that read
them.  `scanRecords` is what the replay of one sector takes for records: it stops
at the first free place, or at a record that it does not take.  `applyRecords`
enters the records into the index cache, and `logMap` is the map they stand for.
-/

namespace Fastffs

open Prog
open Nor (Mem Byte blank)

/-! ## Records -/

/-- The index record at an offset of the flash. -/
def recordAt (m : Mem) (off : Nat) : IndexRecord := indexRecordAt (Nor.read m off 4) 0

/-- The flash is blank from `a` on up to `e`. -/
def freeFrom (m : Mem) (a e : Nat) : Bool := flashBytesErased (Nor.read m a (e - a))

/-- The fields of the record are none that a commit or a delete writes. -/
def IndexRecord.malformed (fs : Fs) (r : IndexRecord) : Bool :=
  r.slot == 0 || r.slot == uint16Max || r.head == uint16Max ||
    (r.head != 0 && (decide (r.head < fs.indexSectors) || decide (fs.sectorCount ≤ r.head)))

/-- The record as an entry of a journal. -/
def IndexRecord.entry (r : IndexRecord) : Nat × Nat := (r.slot, r.head)

/-- The map from slots to heads that a log stands for.  A free slot has the head `0`. -/
def logMap (rs : List IndexRecord) : Nat → Nat :=
  Journal.replay 0 (rs.map IndexRecord.entry)

/-- A slot with a head is the slot of a record. -/
theorem logMap_record {rs : List IndexRecord} {slot : Nat} (h : logMap rs slot ≠ 0) : ∃ r ∈ rs, r.slot = slot := by
  obtain ⟨e, he, rfl⟩ := List.mem_map.mp (Journal.mem_of_replay_ne h)
  obtain ⟨r, hr, rfl⟩ := List.mem_map.mp he
  exact ⟨r, hr, rfl⟩

theorem IndexRecord.malformed_iff {fs : Fs} {r : IndexRecord} :
    r.malformed fs = true ↔ (r.slot = 0 ∨ r.slot = uint16Max ∨ r.head = uint16Max) ∨
      r.head ≠ 0 ∧ (r.head < fs.indexSectors ∨ fs.sectorCount ≤ r.head) := by
  simp [malformed, or_assoc]

theorem IndexRecord.clobbered_iff {r : IndexRecord} :
    r.clobbered = true ↔ r.slot = 0 ∧ r.head = 0 := by
  simp [clobbered]

theorem indexRecordAt_read {m : Mem} {off n pos : Nat} (h : pos + 4 ≤ n) :
    indexRecordAt (Nor.read m off n) pos = recordAt m (off + pos) := by
  have hget : ∀ i < 4, byteAt (Nor.read m off n) (pos + i) = byteAt (Nor.read m (off + pos) 4) i := by
    intro i hi
    rw [byteAt, byteAt, Nor.getD_read _ _ _ _ _ (by omega), Nor.getD_read _ _ _ _ _ hi, Nat.add_assoc]
  have h0 := hget 0 (by decide)
  have h1 := hget 1 (by decide)
  have h2 := hget 2 (by decide)
  have h3 := hget 3 (by decide)
  rw [Nat.add_zero] at h0
  simp only [recordAt, indexRecordAt, loadLe16, h0, h1, h2, h3, Nat.add_assoc, Nat.reduceAdd,
    Nat.zero_add]

theorem recordAt_congr {m m' : Mem} {off : Nat}
    (h : ∀ i, off ≤ i → i < off + 4 → Nor.get m' i = Nor.get m i) :
    recordAt m' off = recordAt m off := by
  rw [recordAt, recordAt, Nor.read_congr h]

theorem freeFrom_iff {m : Mem} {a e : Nat} :
    freeFrom m a e = true ↔ ∀ i, a ≤ i → i < e → Nor.get m i = blank := by
  rw [freeFrom, flashBytesErased, List.all_eq_true]
  constructor
  · intro h i h1 h2
    have hlt : i - a < (Nor.read m a (e - a)).length := by
      rw [Nor.length_read]
      omega
    have hi := h _ (List.getElem_mem hlt)
    rw [Nor.getElem_read, Nat.add_sub_cancel' h1] at hi
    exact beq_iff_eq.mp hi
  · intro h b hb
    obtain ⟨k, hk, rfl⟩ := List.getElem_of_mem hb
    rw [Nor.length_read] at hk
    rw [Nor.getElem_read, h (a + k) (by omega) (by omega)]
    rfl

theorem freeFrom_congr {m m' : Mem} {a e : Nat}
    (h : ∀ i, a ≤ i → i < e → Nor.get m' i = Nor.get m i) : freeFrom m' a e = freeFrom m a e := by
  rw [freeFrom, freeFrom, Nor.read_congr fun i h1 h2 => h i h1 (by omega)]

theorem freeFrom_split {m : Mem} {a b e : Nat} (h1 : a ≤ b) (h2 : b ≤ e) :
    freeFrom m a e = (freeFrom m a b && freeFrom m b e) := by
  rw [Bool.eq_iff_iff, Bool.and_eq_true, freeFrom_iff, freeFrom_iff, freeFrom_iff]
  constructor
  · intro h
    exact ⟨fun i hi1 hi2 => h i hi1 (by omega), fun i hi1 hi2 => h i (by omega) hi2⟩
  · rintro ⟨h, h'⟩ i hi1 hi2
    by_cases hib : i < b
    · exact h i hi1 hib
    · exact h' i (by omega) hi2

theorem freeFrom_of_ge {m : Mem} {a e : Nat} (h : e ≤ a) : freeFrom m a e = true :=
  freeFrom_iff.mpr fun i h1 h2 => by omega

/-- A free place holds an erased record. -/
theorem recordAt_erased_iff {m : Mem} {off : Nat} :
    (recordAt m off).erased = true ↔ freeFrom m off (off + 4) = true := by
  have hbyte : ∀ a b : Byte, a.toNat + 256 * b.toNat = 65535 ↔ a = blank ∧ b = blank := by
    intro a b
    have ha := a.isLt
    have hb := b.isLt
    constructor
    · intro h
      exact ⟨BitVec.eq_of_toNat_eq (by change a.toNat = 255; omega),
        BitVec.eq_of_toNat_eq (by change b.toNat = 255; omega)⟩
    · rintro ⟨rfl, rfl⟩
      rfl
  have hslot : (recordAt m off).slot =
      (Nor.get m off).toNat + 256 * (Nor.get m (off + 1)).toNat := rfl
  have hhead : (recordAt m off).head =
      (Nor.get m (off + 1 + 1)).toNat + 256 * (Nor.get m (off + 1 + 1 + 1)).toNat := rfl
  rw [IndexRecord.erased, Bool.and_eq_true, beq_iff_eq, beq_iff_eq, hslot, hhead, uint16Max, hbyte,
    hbyte, freeFrom_iff]
  constructor
  · rintro ⟨⟨h0, h1⟩, h2, h3⟩ i hi1 hi2
    obtain rfl | rfl | rfl | rfl : i = off ∨ i = off + 1 ∨ i = off + 1 + 1 ∨ i = off + 1 + 1 + 1 := by
      omega
    · exact h0
    · exact h1
    · exact h2
    · exact h3
  · intro h
    exact ⟨⟨h _ (by omega) (by omega), h _ (by omega) (by omega)⟩,
      h _ (by omega) (by omega), h _ (by omega) (by omega)⟩

theorem readIndexRecord_run {w : World} {off : Nat} (hplan : w.dev.plan = [])
    (hle : off + 4 ≤ w.dev.size) :
    (readIndexRecord off).run w = (.ok (recordAt w.dev.mem off), w) := by
  rw [readIndexRecord, bind_of_ok (flashRead_run hplan hle), run_pure, recordAt]

/-! ## Scanning a sector -/

/-- Why a scan has stopped: at the end of the sector, at a free place, or at a record
that is not taken. -/
inductive Stop where
  | full
  | free
  | bad
deriving DecidableEq, Repr

/-- What a scan has found. -/
structure Scan where
  records : List IndexRecord
  stop : Stop
deriving DecidableEq, Repr

/-- The replay takes the record at `off`, of a sector that ends at `endOff`.  The
last record of the active sector must have a live root. -/
def taken (w : World) (active : Bool) (endOff off : Nat) : Bool :=
  let r := recordAt w.dev.mem off
  r.clobbered || (!r.malformed w.fs &&
    (r.head == 0 || !(active && freeFrom w.dev.mem (off + 4) endOff) || rootIsLive w r.slot r.head))

/-- The records of the next `n` places from `off` on. -/
def scanRecords (w : World) (active : Bool) (endOff : Nat) : Nat → Nat → Scan
  | 0, _ => ⟨[], .full⟩
  | n + 1, off =>
      if (recordAt w.dev.mem off).erased then ⟨[], .free⟩
      else if taken w active endOff off then
        let rest := scanRecords w active endOff n (off + 4)
        ⟨recordAt w.dev.mem off :: rest.records, rest.stop⟩
      else ⟨[], .bad⟩

section Scan

variable {w w' : World} {active : Bool} {endOff n off : Nat}

theorem taken_congr (h : SameData w w') (hmem : w'.dev.mem = w.dev.mem) :
    taken w' active endOff off = taken w active endOff off := by
  unfold taken IndexRecord.malformed
  simp only [hmem, h.indexSectors, h.sectorCount, rootIsLive_congr h]

theorem scanRecords_congr (h : SameData w w') (hmem : w'.dev.mem = w.dev.mem) :
    scanRecords w' active endOff n off = scanRecords w active endOff n off := by
  induction n generalizing off with
  | zero => rfl
  | succ n ih => rw [scanRecords, scanRecords, taken_congr h hmem, hmem, ih]

/-- A scan that runs to the end has taken every place. -/
theorem scanRecords_length (h : (scanRecords w active endOff n off).stop = .full) :
    (scanRecords w active endOff n off).records.length = n := by
  induction n generalizing off with
  | zero => rfl
  | succ n ih =>
    rw [scanRecords] at h ⊢
    split at h
    · simp at h
    · next herased =>
      split at h
      · next htaken =>
        rw [if_neg herased, if_pos htaken, List.length_cons, ih h]
      · simp at h

/-- A scan that stops earlier has not taken every place. -/
theorem scanRecords_length_lt (h : (scanRecords w active endOff n off).stop ≠ .full) :
    (scanRecords w active endOff n off).records.length < n := by
  induction n generalizing off with
  | zero => exact absurd rfl h
  | succ n ih =>
    rw [scanRecords] at h ⊢
    split
    · exact Nat.succ_pos n
    · next herased =>
      rw [if_neg herased] at h
      split
      · next htaken =>
        rw [if_pos htaken] at h
        exact Nat.succ_lt_succ (ih h)
      · exact Nat.succ_pos n

/-- A scan in two parts. -/
theorem scanRecords_add {k : Nat} :
    scanRecords w active endOff (n + k) off =
      match (scanRecords w active endOff n off).stop with
      | .full => ⟨(scanRecords w active endOff n off).records ++
          (scanRecords w active endOff k (off + 4 * n)).records,
          (scanRecords w active endOff k (off + 4 * n)).stop⟩
      | _ => scanRecords w active endOff n off := by
  induction n generalizing off with
  | zero => simp [scanRecords]
  | succ n ih =>
    have hn : n + 1 + k = (n + k) + 1 := by omega
    have hoff : off + 4 + 4 * n = off + 4 * (n + 1) := by omega
    rw [hn, scanRecords, scanRecords]
    split
    · rfl
    · split
      · rw [ih, hoff]
        cases (scanRecords w active endOff n (off + 4)).stop <;> rfl
      · rfl

end Scan

/-! ## Scanning the log -/

/-- The number of places for records in an index sector. -/
def recordPlaces (fs : Fs) : Nat := (fs.sectorSize - headerSize) / 4

/-- The scan of one index sector. -/
def scanSector (w : World) (sector : Nat) : Scan :=
  scanRecords w (sector == w.fs.activeIndexSector) ((sector + 1) * w.fs.sectorSize)
    (recordPlaces w.fs) (indexSectorBegin w.fs sector)

/-- What the scan of the log finds, and the sector and the place it stops at. -/
structure LogScan extends Scan where
  sector : Nat
  offset : Nat
deriving DecidableEq, Repr

/-- The sector after another one on the ring, as the replay counts. -/
def nextIndexSector (fs : Fs) (sector : Nat) : Nat :=
  if sector + 1 ≥ fs.indexSectors then 0 else sector + 1

/-- The scan of `n` index sectors from `sector` on.  A record that is not taken ends
it. -/
def scanLog (w : World) : Nat → Nat → LogScan
  | 0, sector => ⟨⟨[], .full⟩, sector, indexSectorBegin w.fs sector⟩
  | n + 1, sector =>
      let sc := scanSector w sector
      if sc.stop = .bad ∨ n = 0 then
        ⟨sc, sector, indexSectorBegin w.fs sector + 4 * sc.records.length⟩
      else
        let rest := scanLog w n (nextIndexSector w.fs sector)
        { rest with records := sc.records ++ rest.records }

theorem scanLog_one (w : World) (sector : Nat) :
    scanLog w 1 sector = ⟨scanSector w sector, sector,
      indexSectorBegin w.fs sector + 4 * (scanSector w sector).records.length⟩ := if_pos (.inr rfl)

theorem scanLog_next {w : World} {n sector : Nat} (h : (scanSector w sector).stop ≠ .bad) :
    scanLog w (n + 2) sector =
      { scanLog w (n + 1) (nextIndexSector w.fs sector) with
        records := (scanSector w sector).records ++
          (scanLog w (n + 1) (nextIndexSector w.fs sector)).records } :=
  if_neg (not_or.mpr ⟨h, by omega⟩)

/-- The scan has stopped at the last record of the active sector. -/
def LogScan.terminal (sc : LogScan) (w : World) : Bool :=
  sc.sector == w.fs.activeIndexSector &&
    freeFrom w.dev.mem (sc.offset + 4) ((sc.sector + 1) * w.fs.sectorSize)

theorem scanSector_congr {w w' : World} {sector : Nat} (h : SameData w w')
    (hmem : w'.dev.mem = w.dev.mem) (hactive : w'.fs.activeIndexSector = w.fs.activeIndexSector) :
    scanSector w' sector = scanSector w sector := by
  rw [scanSector, scanSector, scanRecords_congr h hmem, recordPlaces, recordPlaces, indexSectorBegin,
    indexSectorBegin, h.sectorSize, hactive]

theorem scanLog_congr {w w' : World} {n sector : Nat} (h : SameData w w')
    (hmem : w'.dev.mem = w.dev.mem) (hactive : w'.fs.activeIndexSector = w.fs.activeIndexSector) :
    scanLog w' n sector = scanLog w n sector := by
  induction n generalizing sector with
  | zero => rw [scanLog, scanLog, indexSectorBegin, indexSectorBegin, h.sectorSize]
  | succ n ih =>
    rw [scanLog, scanLog, scanSector_congr h hmem hactive, ih, indexSectorBegin, indexSectorBegin,
      h.sectorSize, nextIndexSector, nextIndexSector, h.indexSectors]

theorem scanLog_sector_lt {w : World} {n sector : Nat} (hs : sector < w.fs.indexSectors) :
    (scanLog w n sector).sector < w.fs.indexSectors := by
  induction n generalizing sector with
  | zero => exact hs
  | succ n ih =>
    rw [scanLog]
    split
    · exact hs
    · refine ih ?_
      unfold nextIndexSector
      split <;> omega

/-- The place a scan stops at is inside its sector. -/
theorem scanLog_offset {w : World} {n sector : Nat} (hsize : 8 ≤ w.fs.sectorSize)
    (h : (scanLog w n sector).stop ≠ .full) :
    indexSectorBegin w.fs (scanLog w n sector).sector ≤ (scanLog w n sector).offset ∧
      (scanLog w n sector).offset + 4 ≤ ((scanLog w n sector).sector + 1) * w.fs.sectorSize := by
  induction n generalizing sector with
  | zero => exact absurd rfl h
  | succ n ih =>
    rw [scanLog] at h ⊢
    split
    · next hstop =>
      rw [if_pos hstop] at h
      have hlen : (scanSector w sector).records.length < recordPlaces w.fs := scanRecords_length_lt h
      dsimp only
      rw [recordPlaces, headerSize] at hlen
      rw [indexSectorBegin, headerSize, Nat.add_mul, Nat.one_mul]
      omega
    · next hstop =>
      rw [if_neg hstop] at h
      exact ih h

/-! ## Entering records into the cache -/

/-- The world with another end of the log. -/
def World.withNext (w : World) (next : Nat) : World :=
  { w with fs := { w.fs with nextIndexOffset := next } }

/-- The last head of a log that is not `0`. -/
def lastHead (tail : Nat) (rs : List IndexRecord) : Nat :=
  rs.foldl (fun t r => if r.head = 0 then t else r.head) tail

variable [Opts]

/-- Enter a record into the index cache. -/
def applyRecord (r : IndexRecord) : M Unit :=
  if r.clobbered then pure () else indexSet r.slot r.head

/-- Enter the records of a log into the index cache. -/
def applyRecords : List IndexRecord → M Unit
  | [] => pure ()
  | r :: rs => do
      applyRecord r
      applyRecords rs

section Apply

variable {v v1 : World} {slot head : Nat} {r : IndexRecord} {rs : List IndexRecord}
  {res : Except Status Unit}

/-- A change of the world that the index cache has no part in. -/
structure Aside (f : World → World) : Prop where
  buckets : ∀ w, (f w).fs.buckets = w.fs.buckets
  indexHeads : ∀ w, (f w).fs.indexHeads = w.fs.indexHeads
  indexHashTableSize : ∀ w, (f w).fs.indexHashTableSize = w.fs.indexHashTableSize
  withCache : ∀ w b heads, f (w.withCache b heads) = (f w).withCache b heads

omit [Opts] in
theorem aside_withNext (x : Nat) : Aside (World.withNext · x) :=
  ⟨fun _ => rfl, fun _ => rfl, fun _ => rfl, fun _ _ _ => rfl⟩

omit [Opts] in
theorem aside_withMem (m : Mem) (plan : List Fault) : Aside (World.withMem · m plan) :=
  ⟨fun _ => rfl, fun _ => rfl, fun _ => rfl, fun _ _ _ => rfl⟩

omit [Opts] in
theorem Aside.findSlotBucket {f : World → World} (hf : Aside f) :
    findSlotBucket (f v).fs slot = findSlotBucket v.fs slot := by
  rw [Fastffs.findSlotBucket, Fastffs.findSlotBucket, hf.buckets, hf.indexHashTableSize]

theorem indexInsert_aside {f : World → World} (hf : Aside f) :
    (indexInsert slot head).run (f v) =
      (((indexInsert slot head).run v).1, f ((indexInsert slot head).run v).2) := by
  rw [indexInsert, bind_of_ok (run_getFs _), bind_of_ok (run_getFs _)]
  cases Opts.indexCacheMode with
  | none => rfl
  | fullSlotHeads =>
    dsimp only
    rw [run_modifyFs, run_modifyFs, hf.indexHeads]
    refine Prod.ext rfl ?_
    refine Eq.trans ?_ (hf.withCache v v.fs.buckets _).symm
    rw [World.withCache, hf.buckets]
  | hashHeads =>
    dsimp only
    rw [hf.findSlotBucket]
    split
    · rfl
    · rcases findSlotBucket v.fs slot with _ | ⟨idx, b⟩
      · rfl
      · dsimp only
        rw [run_modifyFs, run_modifyFs, hf.buckets]
        refine Prod.ext rfl ?_
        refine Eq.trans ?_ (hf.withCache v _ v.fs.indexHeads).symm
        rw [World.withCache, hf.indexHeads]

theorem indexRemove_aside {f : World → World} (hf : Aside f) :
    (indexRemove slot).run (f v) =
      (((indexRemove slot).run v).1, f ((indexRemove slot).run v).2) := by
  rw [indexRemove, bind_of_ok (run_getFs _), bind_of_ok (run_getFs _)]
  cases Opts.indexCacheMode with
  | none => rfl
  | fullSlotHeads =>
    dsimp only
    rw [run_modifyFs, run_modifyFs, hf.indexHeads]
    refine Prod.ext rfl ?_
    refine Eq.trans ?_ (hf.withCache v v.fs.buckets _).symm
    rw [World.withCache, hf.buckets]
  | hashHeads =>
    dsimp only
    rw [hf.findSlotBucket]
    split
    · rfl
    · rcases findSlotBucket v.fs slot with _ | ⟨idx, _ | _⟩
      · rfl
      · rfl
      · dsimp only
        rw [hf.buckets, hf.indexHashTableSize]
        rcases removeBucketAt v.fs.indexHashTableSize v.fs.buckets idx with _ | table
        · rfl
        · dsimp only
          rw [run_modifyFs, run_modifyFs]
          refine Prod.ext rfl ?_
          refine Eq.trans ?_ (hf.withCache v _ v.fs.indexHeads).symm
          rw [World.withCache, hf.indexHeads]

theorem applyRecord_aside {f : World → World} (hf : Aside f) :
    (applyRecord r).run (f v) = (((applyRecord r).run v).1, f ((applyRecord r).run v).2) := by
  unfold applyRecord indexSet
  split
  · rfl
  · split
    · exact indexRemove_aside hf
    · exact indexInsert_aside hf

theorem applyRecords_append (rs' : List IndexRecord) :
    (applyRecords (rs ++ rs')).run v = (applyRecords rs >>= fun _ => applyRecords rs').run v := by
  induction rs generalizing v with
  | nil => rfl
  | cons r rs ih =>
    rw [List.cons_append, applyRecords, applyRecords, run_bind, run_bind, run_bind]
    rcases (applyRecord r).run v with ⟨r1, v1⟩
    cases r1 with
    | error e => rfl
    | ok a => exact ih

/-- Entering records sees nothing but the cache. -/
theorem applyRecords_aside {f : World → World} (hf : Aside f) :
    (applyRecords rs).run (f v) = (((applyRecords rs).run v).1, f ((applyRecords rs).run v).2) := by
  induction rs generalizing v with
  | nil => rfl
  | cons r rs ih =>
    rw [applyRecords, run_bind, run_bind, applyRecord_aside hf]
    rcases (applyRecord r).run v with ⟨r1, v1⟩
    cases r1 with
    | error e => rfl
    | ok a => exact ih

theorem applyRecords_withNext (x : Nat) :
    (applyRecords rs).run (v.withNext x) =
      (((applyRecords rs).run v).1, ((applyRecords rs).run v).2.withNext x) :=
  applyRecords_aside (aside_withNext x)

/-- The world is `v0` with another cache, on a device that never fails. -/
def Recached (v0 v : World) : Prop :=
  v0.dev.plan = [] → ∃ buckets heads, v = v0.withCache buckets heads

omit [Opts] in
instance (v0 : World) : CacheInv (Recached v0) where
  ofRead := by
    intro v hv hplan
    obtain ⟨b, heads, rfl⟩ := hv hplan
    refine ⟨b, heads, ?_⟩
    have hdev : (v0.withCache b heads).dev.advance = v0.dev := Device.advance_of_plan hplan
    rw [hdev]
    rfl
  ofCache := by
    intro v b heads hv hplan
    obtain ⟨_, _, rfl⟩ := hv hplan
    exact ⟨b, heads, rfl⟩

instance {I : World → Prop} [CacheInv I] : Keeps I (applyRecord r) := by
  unfold applyRecord; infer_instance

instance {I : World → Prop} [CacheInv I] : Keeps I (applyRecords rs) := by
  induction rs with
  | nil => unfold applyRecords; infer_instance
  | cons r rs ih => unfold applyRecords; infer_instance

omit [Opts] in
theorem Recached.sameData {b : List IndexBucket} {heads : Nat → Nat} (hplan : v.dev.plan = []) :
    SameData v (v.withCache b heads) :=
  ⟨hplan, hplan, rfl, rfl, rfl, rfl, fun _ _ => rfl⟩

/-- Entering records changes the cache and nothing else. -/
theorem applyRecords_recached (hplan : v.dev.plan = []) (h : (applyRecords rs).run v = (res, v1)) :
    ∃ b heads, v1 = v.withCache b heads := by
  have hk := (inferInstance : Keeps (Recached v) (applyRecords rs)).keeps v
    (fun _ => ⟨v.fs.buckets, v.fs.indexHeads, rfl⟩)
  rw [h] at hk
  exact hk hplan

theorem applyRecord_recached (hplan : v.dev.plan = []) (h : (applyRecord r).run v = (res, v1)) :
    ∃ b heads, v1 = v.withCache b heads := by
  have hk := (inferInstance : Keeps (Recached v) (applyRecord r)).keeps v
    (fun _ => ⟨v.fs.buckets, v.fs.indexHeads, rfl⟩)
  rw [h] at hk
  exact hk hplan

end Apply

end Fastffs
