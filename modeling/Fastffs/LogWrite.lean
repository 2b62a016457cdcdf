import Fastffs.IndexRing
import Fastffs.LogRead
import Fastffs.MountLog

/-!
# Writing the log

What an append and a rotation do to the records of the log, on a device that never
fails.  An append adds one record to the last sector.  A rotation adds an empty
sector, and when the ring is full it first copies what is still current out of the
oldest sector into the new one.
-/

namespace Fastffs

open Prog
open Nor (Mem Byte blank)

/-! ## The geometry -/

section Geometry

variable {w w' : World} {pending : Prop}

/-- A device that never fails, under a mounted file system. -/
structure Works (w : World) : Prop where
  plan : w.dev.plan = []
  scratch : 4 ≤ w.fs.scratchSize
  granule_mod : w.dev.size % w.dev.programGranule = 0

/-- The log of a ring is in place. -/
theorem Ring.placed (hr : Ring pending w) (hw : Works w) : LogPlaced w := by
  have hwf := hr.wf
  have hcount : 0 < w.fs.indexSequenceCount := hwf.count_pos
  refine ⟨⟨hw.plan, hw.scratch, hr.sectorSize_ge, ?_, hr.fits⟩, hr.granule_pos, hw.granule_mod,
    hwf.oldest_lt, hcount, ?_⟩
  · rw [hr.sectorSize_eq, sectorSizeOf]
    omega
  · refine activeLast_of_ring hwf rfl hr.active_eq hwf.oldest_lt ?_
    have hp : w.fs.ring.place w.fs.ring.oldest = 0 := by
      rw [IndexRing.place, if_pos le_rfl, Nat.sub_self]
    change w.fs.ring.place w.fs.ring.oldest + (w.fs.indexSequenceCount - 1) + 1 = w.fs.indexSequenceCount
    omega

/-- The bytes of one memory, except from `a` on up to `e`. -/
structure SameOutside (a e : Nat) (m m' : Mem) : Prop where
  size : m'.size = m.size
  get : ∀ i, i < a ∨ e ≤ i → Nor.get m' i = Nor.get m i

theorem SameOutside.refl (a e : Nat) (m : Mem) : SameOutside a e m m := ⟨rfl, fun _ _ => rfl⟩

theorem SameOutside.trans {a e : Nat} {m m' m'' : Mem} (h : SameOutside a e m m')
    (h' : SameOutside a e m' m'') : SameOutside a e m m'' :=
  ⟨h'.size.trans h.size, fun i hi => (h'.get i hi).trans (h.get i hi)⟩

theorem SameOutside.mono {a e a' e' : Nat} {m m' : Mem} (h : SameOutside a e m m') (ha : a' ≤ a)
    (he : e ≤ e') : SameOutside a' e' m m' :=
  ⟨h.size, fun i hi => h.get i (by omega)⟩

theorem SameOutside.program (m : Mem) (off : Nat) (bs : List Byte) :
    SameOutside off (off + bs.length) m (Nor.program m off bs) :=
  ⟨rfl, fun _ hi => Nor.get_program_of_notMem hi⟩

end Geometry

/-! ## One record -/

/-- What `program_index_record_at` programs. -/
def recordBytes (r : IndexRecord) : List Byte := storeLe16 r.slot ++ storeLe16 r.head

theorem length_recordBytes (r : IndexRecord) : (recordBytes r).length = 4 := rfl

/-- The record that is programmed into blank bytes. -/
theorem recordAt_programmed {m : Mem} {off : Nat} {r : IndexRecord} (hslot : r.slot < 65536)
    (hhead : r.head < 65536) (hblank : ∀ i, off ≤ i → i < off + 4 → Nor.get m i = blank) :
    recordAt (Nor.program (Nor.program m off (storeLe16 r.slot)) (off + 2) (storeLe16 r.head)) off = r := by
  have hbyte : ∀ n < 65536, (byte n).toNat + 256 * (byte (n / 256)).toNat = n := by
    intro n hn
    rw [byte, byte, BitVec.toNat_ofNat, BitVec.toNat_ofNat]
    omega
  have hget : ∀ i < 2, Nor.get (Nor.program (Nor.program m off (storeLe16 r.slot)) (off + 2)
      (storeLe16 r.head)) (off + i) = (storeLe16 r.slot).getD i blank := by
    intro i hi
    rw [Nor.get_program_of_notMem (.inl (by omega)),
      Nor.get_program_blank (by omega) (hblank _ (by omega) (by omega)), Nat.add_sub_cancel_left]
  have hget' : ∀ i < 2, Nor.get (Nor.program (Nor.program m off (storeLe16 r.slot)) (off + 2)
      (storeLe16 r.head)) (off + 2 + i) = (storeLe16 r.head).getD i blank := by
    intro i hi
    have hb : Nor.get (Nor.program m off (storeLe16 r.slot)) (off + 2 + i) = blank := by
      rw [Nor.get_program_of_notMem (.inr (by rw [length_storeLe16]; omega))]
      exact hblank _ (by omega) (by omega)
    rw [Nor.get_program_blank (by omega) hb, Nat.add_sub_cancel_left]
  have hs : ∀ m' : Mem, recordAt m' off =
      ⟨(Nor.get m' (off + 0)).toNat + 256 * (Nor.get m' (off + 1)).toNat,
        (Nor.get m' (off + 2 + 0)).toNat + 256 * (Nor.get m' (off + 2 + 1)).toNat⟩ := fun _ => rfl
  rw [hs, hget 0 (by decide), hget 1 (by decide), hget' 0 (by decide), hget' 1 (by decide)]
  change IndexRecord.mk ((byte r.slot).toNat + 256 * (byte (r.slot / 256)).toNat)
    ((byte r.head).toNat + 256 * (byte (r.head / 256)).toNat) = r
  rw [hbyte _ hslot, hbyte _ hhead]

/-! ## The last sector -/

section Last

variable {w w' : World} {ls : List (List IndexRecord)} {rs rs' : List IndexRecord} {r : IndexRecord}

theorem getD_append_last (k : Nat) (hk : k < ls.length) :
    (ls ++ [rs]).getD k [] = ls.getD k [] := by
  rw [List.getD_eq_getElem?_getD, List.getElem?_append_left hk, ← List.getD_eq_getElem?_getD]

theorem getD_last : (ls ++ [rs]).getD ls.length [] = rs := by
  rw [List.getD_eq_getElem?_getD, List.getElem?_append_right le_rfl, Nat.sub_self]
  rfl

theorem getLast_append : (ls ++ [rs]).getLast?.getD [] = rs := by
  rw [List.getLast?_append]
  rfl

theorem length_append_last : (ls ++ [rs]).length = ls.length + 1 := by
  rw [List.length_append, List.length_singleton]

/-- The active sector begins where the last sector of the log does. -/
theorem LogOn.logBegin_last (h : LogOn w (ls ++ [rs])) (hp : LogPlaced w) :
    logBegin w.fs ls.length = indexSectorBegin w.fs w.fs.activeIndexSector ∧
      logEnd w.fs ls.length = (w.fs.activeIndexSector + 1) * w.fs.sectorSize := by
  have hcount := h.count
  rw [length_append_last] at hcount
  have hactive := (hp.active_iff (show ls.length < w.fs.indexSequenceCount by omega)).mpr hcount
  rw [logBegin, logEnd, hactive]
  exact ⟨rfl, rfl⟩

/-- The sectors of the log before the last one lie outside the active sector. -/
theorem LogOn.outside (h : LogOn w (ls ++ [rs])) (hp : LogPlaced w) {k : Nat} (hk : k < ls.length)
    {i : Nat} (h1 : logBegin w.fs k ≤ i) (h2 : i < logEnd w.fs k) :
    i < w.fs.activeIndexSector * w.fs.sectorSize ∨
      (w.fs.activeIndexSector + 1) * w.fs.sectorSize ≤ i := by
  have hcount := h.count
  rw [length_append_last] at hcount
  have hne : logicalIndexSector w.fs k ≠ w.fs.activeIndexSector := by
    rw [Ne, hp.active_iff (by omega)]
    omega
  rw [logBegin, indexSectorBegin, headerSize] at h1
  rw [logEnd, Nat.add_mul, Nat.one_mul] at h2
  rw [Nat.add_mul, Nat.one_mul]
  rcases Nat.lt_or_gt_of_ne hne with hlt | hgt
  · have hmul := sector_mul_le w.fs.sectorSize hlt
    omega
  · have hmul := sector_mul_le w.fs.sectorSize hgt
    omega

/-- Other records in the last sector. -/
theorem LogOn.replaceLast (h : LogOn w (ls ++ [rs])) (hp : LogPlaced w)
    (hview : logView w'.fs = { logView w.fs with
      nextIndexOffset := indexSectorBegin w.fs w.fs.activeIndexSector + 4 * rs'.length })
    (hmem : SameOutside (indexSectorBegin w.fs w.fs.activeIndexSector)
      ((w.fs.activeIndexSector + 1) * w.fs.sectorSize) w.dev.mem w'.dev.mem)
    (hrecords : Records w'.dev.mem (indexSectorBegin w.fs w.fs.activeIndexSector) rs')
    (hroom : rs'.length ≤ recordPlaces w.fs)
    (hfree : freeFrom w'.dev.mem (indexSectorBegin w.fs w.fs.activeIndexSector + 4 * rs'.length)
      ((w.fs.activeIndexSector + 1) * w.fs.sectorSize) = true)
    (hclean : ∀ r ∈ rs', r.clean w.fs = true) : LogOn w' (ls ++ [rs']) := by
  obtain ⟨hbegin, hend⟩ := h.logBegin_last hp
  simp only [logView, LogView.mk.injEq] at hview
  obtain ⟨v1, v2, v3, v4, v5, v6, v7⟩ := hview
  have hb : ∀ k, logBegin w'.fs k = logBegin w.fs k := by
    intro k
    rw [logBegin, logBegin, indexSectorBegin, indexSectorBegin, logicalIndexSector, logicalIndexSector,
      v1, v3, v4]
  have he : ∀ k, logEnd w'.fs k = logEnd w.fs k := by
    intro k
    rw [logEnd, logEnd, logicalIndexSector, logicalIndexSector, v1, v3, v4]
  have hplaces : recordPlaces w'.fs = recordPlaces w.fs := by rw [recordPlaces, recordPlaces, v1]
  have hother : ∀ k < ls.length, ∀ i, logBegin w.fs k ≤ i → i < logEnd w.fs k →
      Nor.get w'.dev.mem i = Nor.get w.dev.mem i := by
    intro k hk i h1 h2
    refine hmem.get i ((h.outside hp hk h1 h2).imp (fun hlt => ?_) id)
    rw [indexSectorBegin]
    omega
  have hroomEnd : ∀ k, logBegin w.fs k + 4 * recordPlaces w.fs = logEnd w.fs k :=
    fun k => (logEnd_eq hp.size hp.aligned k).symm
  -- a sector is one of the old ones or the last one
  have hcases : ∀ k < (ls ++ [rs']).length, k < ls.length ∨ k = ls.length := by
    intro k hk
    rw [length_append_last] at hk
    omega
  have hlen : ∀ k < ls.length, k < (ls ++ [rs]).length := by
    intro k hk
    rw [length_append_last]
    omega
  refine ⟨?_, fun k hk => ?_, fun k hk => ?_, fun k hk => ?_, fun l hl r hr => ?_, ?_⟩
  · rw [length_append_last, v5, ← h.count, length_append_last]
  · rw [hb]
    rcases hcases k hk with hlt | rfl
    · have hrec := h.records k (hlen k hlt)
      have hle := h.room k (hlen k hlt)
      rw [getD_append_last k hlt] at hrec hle ⊢
      have hend' := hroomEnd k
      exact hrec.congr fun i h1 h2 => hother k hlt i h1 (by omega)
    · rw [getD_last, hbegin]
      exact hrecords
  · rw [hplaces]
    rcases hcases k hk with hlt | rfl
    · have hle := h.room k (hlen k hlt)
      rwa [getD_append_last k hlt] at hle ⊢
    · rw [getD_last]
      exact hroom
  · rw [hb, he]
    rcases hcases k hk with hlt | rfl
    · have hf := h.free k (hlen k hlt)
      rw [getD_append_last k hlt] at hf ⊢
      rw [freeFrom_congr fun i h1 h2 => hother k hlt i (by omega) h2]
      exact hf
    · rw [getD_last, hbegin, hend]
      exact hfree
  · have hsame : ∀ x : IndexRecord, x.clean w'.fs = x.clean w.fs := by
      intro x
      rw [IndexRecord.clean, IndexRecord.clean, IndexRecord.malformed, IndexRecord.malformed, v2, v3]
    rw [hsame]
    rcases List.mem_append.mp hl with hl | hl
    · exact h.clean l (List.mem_append_left _ hl) r hr
    · exact hclean r (List.mem_singleton.mp hl ▸ hr)
  · rw [getLast_append, v7, indexSectorBegin, indexSectorBegin, v1, v6]

/-- The end of the log. -/
theorem LogOn.next_eq (h : LogOn w (ls ++ [rs])) :
    w.fs.nextIndexOffset = indexSectorBegin w.fs w.fs.activeIndexSector + 4 * rs.length := by
  rw [h.next, getLast_append]

/-- The active sector is full when it has a record at every place. -/
theorem LogOn.full_iff (h : LogOn w (ls ++ [rs])) (hp : LogPlaced w) :
    indexSectorIsFull w.fs = true ↔ rs.length = recordPlaces w.fs := by
  have hlen := h.room ls.length (by rw [length_append_last]; omega)
  have hsize := hp.size
  have haligned := hp.aligned
  rw [getD_last] at hlen
  rw [indexSectorIsFull, decide_eq_true_iff, h.next_eq, indexSectorBegin, Nat.add_mul, Nat.one_mul,
    headerSize]
  rw [recordPlaces, headerSize] at hlen ⊢
  omega

/-- `program_index_record_at` and the new end of the log, on a device that works. -/
theorem appendIndexAtEnd_works (hp : LogPlaced w) (hle : w.fs.nextIndexOffset + 4 ≤ w.dev.size) :
    (appendIndexAtEnd r.slot r.head).run w =
      (.ok (), (w.withMem (Nor.program w.dev.mem w.fs.nextIndexOffset (recordBytes r)) []).withNext
        (w.fs.nextIndexOffset + 4)) := by
  have h1 : (programAligned w.fs.nextIndexOffset (storeLe16 r.slot)).run w = _ :=
    programAligned_run hp.plan hp.granule_pos hp.granule_mod (by rw [length_storeLe16]; omega)
  have h2 : (programAligned (w.fs.nextIndexOffset + 2) (storeLe16 r.head)).run
      (w.withMem (Nor.program w.dev.mem w.fs.nextIndexOffset (storeLe16 r.slot)) []) = _ :=
    programAligned_run rfl hp.granule_pos hp.granule_mod (by
      rw [length_storeLe16]
      exact (show w.fs.nextIndexOffset + 2 + 2 ≤ w.dev.size by omega))
  rw [appendIndexAtEnd, bind_of_ok (run_getFs w), programIndexRecordAt,
    bind_of_ok (show (do
      programAligned w.fs.nextIndexOffset (storeLe16 r.slot)
      programAligned (w.fs.nextIndexOffset + 2) (storeLe16 r.head) : M Unit).run w = _ from
        (bind_of_ok h1).trans h2), run_modifyFs, recordBytes, ← Nor.program_append, length_storeLe16]
  rfl

/-- An append to a log with a free place. -/
theorem appendIndexAtEnd_run (h : LogOn w (ls ++ [rs])) (hp : LogPlaced w)
    (hroom : rs.length < recordPlaces w.fs) (hslot : r.slot < 65536) (hhead : r.head < 65536)
    (hr : r.erased = false) (hclean : r.clean w.fs = true) :
    let m := Nor.program w.dev.mem w.fs.nextIndexOffset (recordBytes r)
    (appendIndexAtEnd r.slot r.head).run w =
        (.ok (), (w.withMem m []).withNext (w.fs.nextIndexOffset + 4)) ∧
      SameOutside w.fs.nextIndexOffset (w.fs.nextIndexOffset + 4) w.dev.mem m ∧
      LogOn ((w.withMem m []).withNext (w.fs.nextIndexOffset + 4)) (ls ++ [rs ++ [r]]) := by
  intro m
  obtain ⟨hbegin, hend⟩ := h.logBegin_last hp
  have hnext := h.next_eq
  have hplaces := logEnd_eq hp.size hp.aligned ls.length
  have hsize := logEnd_le hp ls.length
  rw [hbegin, hend] at hplaces
  rw [hend] at hsize
  have hlast : ls.length < (ls ++ [rs]).length := by rw [length_append_last]; omega
  have hfree := h.free ls.length hlast
  have hrecords := h.records ls.length hlast
  rw [getD_last, hbegin, hend] at hfree
  rw [getD_last, hbegin] at hrecords
  have hblank : ∀ i, w.fs.nextIndexOffset ≤ i → i < (w.fs.activeIndexSector + 1) * w.fs.sectorSize →
      Nor.get w.dev.mem i = blank := by
    intro i h1 h2
    exact freeFrom_iff.mp hfree i (by omega) h2
  have hm : m = Nor.program (Nor.program w.dev.mem w.fs.nextIndexOffset (storeLe16 r.slot))
      (w.fs.nextIndexOffset + 2) (storeLe16 r.head) := by
    rw [← length_storeLe16 r.slot, Nor.program_append]
    rfl
  have hsame : SameOutside w.fs.nextIndexOffset (w.fs.nextIndexOffset + 4) w.dev.mem m :=
    SameOutside.program w.dev.mem w.fs.nextIndexOffset (recordBytes r)
  refine ⟨appendIndexAtEnd_works hp (by omega), hsame, ?_⟩
  · refine h.replaceLast hp ?_ (hsame.mono (by omega) (by omega)) ?_ ?_ ?_ ?_
    · rw [List.length_append, List.length_singleton]
      change { logView w.fs with nextIndexOffset := w.fs.nextIndexOffset + 4 } = _
      rw [hnext]
      congr 1
    · refine Records.append_iff.mpr ⟨hrecords.congr fun i _ hi => hsame.get i (.inl (by omega)), ?_⟩
      rw [← hnext]
      refine ⟨?_, hr, trivial⟩
      change recordAt m w.fs.nextIndexOffset = r
      rw [hm]
      exact recordAt_programmed hslot hhead fun i hi1 hi2 => hblank i hi1 (by omega)
    · rw [List.length_append, List.length_singleton]
      exact hroom
    · rw [freeFrom_iff]
      intro i hi1 hi2
      rw [List.length_append, List.length_singleton] at hi1
      exact (hsame.get i (.inr (by omega))).trans (hblank i (by omega) hi2)
    · intro x hx
      rcases List.mem_append.mp hx with hx | hx
      · exact h.clean rs (List.mem_append_right _ List.mem_cons_self) x hx
      · rw [List.mem_singleton.mp hx]
        exact hclean

end Last

/-! ## A new sector -/

section Begin

variable {w : World} {logs : List (List IndexRecord)}

theorem logicalIndexSector_inj {fs : Fs} {a b : Nat} (ha : a < fs.indexSectors) (hb : b < fs.indexSectors)
    (h : logicalIndexSector fs a = logicalIndexSector fs b) : a = b := by
  rw [logicalIndexSector, logicalIndexSector] at h
  have hmod : a % fs.indexSectors = b % fs.indexSectors := Nat.ModEq.add_left_cancel' _ h
  rwa [Nat.mod_eq_of_lt ha, Nat.mod_eq_of_lt hb] at hmod

/-- The world after `rotate_index_begin`. -/
def rotatedWorld (w : World) : World :=
  let new := nextIndexSector w.fs w.fs.activeIndexSector
  { w with dev := { w.dev with mem := Nor.erase w.dev.mem (new * w.fs.sectorSize) w.fs.sectorSize }
           fs := rotatedFs new w.fs
           trace := ⟨.erase new, w.fs, w.files⟩ :: w.trace }

theorem rotateIndexBegin_run (hplan : w.dev.plan = [])
    (hin : (nextIndexSector w.fs w.fs.activeIndexSector + 1) * w.fs.sectorSize ≤ w.dev.size) :
    rotateIndexBegin.run w = (.ok (), rotatedWorld w) := by
  rw [Nat.add_mul, Nat.one_mul] at hin
  have herase : w.dev.erase (nextIndexSector w.fs w.fs.activeIndexSector * w.fs.sectorSize)
      w.fs.sectorSize = (true, { w.dev with
        mem := Nor.erase w.dev.mem (nextIndexSector w.fs w.fs.activeIndexSector * w.fs.sectorSize)
          w.fs.sectorSize }) := by
    rw [Device.erase]
    dsimp only
    rw [if_pos (show _ + _ ≤ w.dev.mem.size from hin), hplan]
    rfl
  have hrun : (backendErase (nextIndexSector w.fs w.fs.activeIndexSector * w.fs.sectorSize)
      w.fs.sectorSize).run { w with trace :=
        ⟨.erase (nextIndexSector w.fs w.fs.activeIndexSector), w.fs, w.files⟩ :: w.trace } =
      (.ok (), { w with
        dev := { w.dev with
          mem := Nor.erase w.dev.mem (nextIndexSector w.fs w.fs.activeIndexSector * w.fs.sectorSize)
            w.fs.sectorSize }
        trace := ⟨.erase (nextIndexSector w.fs w.fs.activeIndexSector), w.fs, w.files⟩ :: w.trace }) := by
    simp only [backendErase, herase]
  rw [rotateIndexBegin, bind_of_ok (run_getFs w), bind_of_ok (run_note _ w)]
  exact bind_of_ok hrun

/-- The next sector of a log that leaves one free is not in the log. -/
theorem LogPlaced.next_logical (hp : LogPlaced w) :
    nextIndexSector w.fs w.fs.activeIndexSector =
      logicalIndexSector w.fs w.fs.indexSequenceCount := by
  have hpos := hp.count_pos
  have hactive := (hp.active_iff (show w.fs.indexSequenceCount - 1 < w.fs.indexSequenceCount by omega)).mpr
    (by omega)
  rw [← hactive, logicalIndexSector_succ hp.sectors_pos, Nat.sub_add_cancel hpos]

/-- The log after `rotate_index_begin` has an empty sector more. -/
theorem LogOn.rotated (h : LogOn w logs) (hp : LogPlaced w)
    (hcount : w.fs.indexSequenceCount < w.fs.indexSectors) : LogOn (rotatedWorld w) (logs ++ [[]]) := by
  have hnew := hp.next_logical
  have hS := hp.size
  have hlen : ∀ k < (logs ++ [[]]).length, k < logs.length ∨ k = logs.length := by
    intro k hk
    rw [length_append_last] at hk
    omega
  have hlogs := h.count
  -- the erased sector is another one than those of the log
  have hother : ∀ k < logs.length, ∀ i, logBegin w.fs k ≤ i → i < logEnd w.fs k →
      Nor.get (rotatedWorld w).dev.mem i = Nor.get w.dev.mem i := by
    intro k hk i h1 h2
    have hne : logicalIndexSector w.fs k ≠ nextIndexSector w.fs w.fs.activeIndexSector := by
      rw [hnew]
      intro heq
      have := logicalIndexSector_inj (by omega) (by omega) heq
      omega
    rw [logBegin, indexSectorBegin, headerSize] at h1
    rw [logEnd, Nat.add_mul, Nat.one_mul] at h2
    refine (Nor.get_erase _ _ _ _).trans (if_neg ?_)
    rcases Nat.lt_or_gt_of_ne hne with hlt | hgt
    · have hmul := sector_mul_le w.fs.sectorSize hlt
      omega
    · have hmul := sector_mul_le w.fs.sectorSize hgt
      omega
  have hroomEnd : ∀ k, logBegin w.fs k + 4 * recordPlaces w.fs = logEnd w.fs k :=
    fun k => (logEnd_eq hp.size hp.aligned k).symm
  refine ⟨?_, fun k hk => ?_, fun k hk => ?_, fun k hk => ?_, fun l hl r hr => ?_, ?_⟩
  · rw [length_append_last, hlogs]
    exact (if_pos hcount).symm
  · change Records _ (logBegin w.fs k) _
    rcases hlen k hk with hlt | rfl
    · rw [getD_append_last k hlt]
      have hle := h.room k hlt
      have hend := hroomEnd k
      exact (h.records k hlt).congr fun i h1 h2 => hother k hlt i h1 (by omega)
    · rw [getD_last]
      trivial
  · change _ ≤ recordPlaces w.fs
    rcases hlen k hk with hlt | rfl
    · rw [getD_append_last k hlt]
      exact h.room k hlt
    · rw [getD_last]
      exact Nat.zero_le _
  · change freeFrom _ (logBegin w.fs k + _) (logEnd w.fs k) = true
    rcases hlen k hk with hlt | rfl
    · rw [getD_append_last k hlt, freeFrom_congr fun i h1 h2 => hother k hlt i (by omega) h2]
      exact h.free k hlt
    · rw [getD_last, freeFrom_iff]
      intro i h1 h2
      rw [logBegin, indexSectorBegin, headerSize, hlogs, ← hnew] at h1
      rw [logEnd, hlogs, ← hnew, Nat.add_mul, Nat.one_mul] at h2
      exact (Nor.get_erase _ _ _ _).trans (if_pos (by omega))
  · change r.clean w.fs = true
    rcases List.mem_append.mp hl with hl | hl
    · exact h.clean l hl r hr
    · rw [List.mem_singleton.mp hl] at hr
      simp at hr
  · rw [getLast_append]
    rfl

end Begin

end Fastffs
