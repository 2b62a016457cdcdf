import Fastffs.FailedRotation
import Fastffs.TornLog

/-!
# Appends that fail

An append that fails leaves some bits of its record at the end of the log, and the end
does not move.  The next record is programmed over them.  `Residue v u` says that `u` is
the file system `v` with such bits at the end of its log.  A record goes through if it has
all these bits (`overlays`), and a mount overwrites what is left at the end, unless it is
a record that says something.
-/

namespace Fastffs

open Prog
open Nor (Mem Byte blank Below)

/-! ## The bytes of a record -/

section Bytes

variable {m m' : Mem} {off : Nat} {r : IndexRecord}

/-- The bytes of a record are those of its slot and its head. -/
theorem recordAt_inj (h : recordAt m' off = recordAt m off) {i : Nat} (h1 : off ≤ i) (h2 : i < off + 4) :
    Nor.get m' i = Nor.get m i := by
  have hbytes : ∀ m : Mem, recordAt m off =
      ⟨(Nor.get m off).toNat + 256 * (Nor.get m (off + 1)).toNat,
        (Nor.get m (off + 2)).toNat + 256 * (Nor.get m (off + 3)).toNat⟩ := fun _ => rfl
  rw [hbytes, hbytes, IndexRecord.mk.injEq] at h
  have hlt : ∀ (m : Mem) j, (Nor.get m j).toNat < 256 := fun m j => (Nor.get m j).isLt
  have h0 := hlt m off
  have h0' := hlt m' off
  have h2' := hlt m (off + 2)
  have h2'' := hlt m' (off + 2)
  apply BitVec.eq_of_toNat_eq
  obtain rfl | rfl | rfl | rfl : i = off ∨ i = off + 1 ∨ i = off + 2 ∨ i = off + 3 := by omega
  · omega
  · omega
  · omega
  · omega

/-- A record that can be programmed over other bytes ends up as on blank ones. -/
theorem program_overlay (hslot : r.slot < 65536) (hhead : r.head < 65536)
    (hblank : ∀ i, off ≤ i → i < off + 4 → Nor.get m i = blank) (hsame : SameOutside off (off + 4) m m')
    (h : recordAt (Nor.program m' off (recordBytes r)) off = r) :
    Nor.program m' off (recordBytes r) = Nor.program m off (recordBytes r) := by
  have hplain : recordAt (Nor.program m off (recordBytes r)) off = r := by
    rw [recordBytes, ← Nor.program_append, length_storeLe16]
    exact recordAt_programmed hslot hhead hblank
  refine Nor.ext_get hsame.size fun i => ?_
  by_cases hin : off ≤ i ∧ i < off + 4
  · exact recordAt_inj (h.trans hplain.symm) hin.1 hin.2
  · have hout : i < off ∨ off + (recordBytes r).length ≤ i := by
      rw [length_recordBytes]
      omega
    rw [Nor.get_program_of_notMem hout, Nor.get_program_of_notMem hout]
    exact hsame.get i hout

/-- A record that is programmed over itself changes nothing. -/
theorem program_recordAt : Nor.program m off (recordBytes (recordAt m off)) = m := by
  have hbyte : ∀ a b : Byte, byte (a.toNat + 256 * b.toNat) = a ∧
      byte ((a.toNat + 256 * b.toNat) / 256) = b := by
    intro a b
    have ha := a.isLt
    have hb := b.isLt
    constructor <;> apply BitVec.eq_of_toNat_eq <;> rw [byte, BitVec.toNat_ofNat] <;> omega
  have hbytes : recordBytes (recordAt m off) = Nor.read m off 4 := by
    change [byte ((Nor.get m (off + 0)).toNat + 256 * (Nor.get m (off + 1)).toNat),
      byte (((Nor.get m (off + 0)).toNat + 256 * (Nor.get m (off + 1)).toNat) / 256),
      byte ((Nor.get m (off + 2)).toNat + 256 * (Nor.get m (off + 3)).toNat),
      byte (((Nor.get m (off + 2)).toNat + 256 * (Nor.get m (off + 3)).toNat) / 256)] =
      [Nor.get m (off + 0), Nor.get m (off + 1), Nor.get m (off + 2), Nor.get m (off + 3)]
    rw [(hbyte _ _).1, (hbyte _ _).2, (hbyte _ _).1, (hbyte _ _).2]
  refine Nor.ext_get rfl fun i => ?_
  rw [hbytes, Nor.get_program]
  split
  · next hle =>
    by_cases hlt : i - off < 4
    · rw [Nor.getD_read _ _ _ _ _ hlt, Nat.add_sub_cancel' hle, BitVec.and_self]
    · rw [List.getD_eq_getElem?_getD, List.getElem?_eq_none (by rw [Nor.length_read]; omega)]
      exact BitVec.and_allOnes
  · rfl

/-- `program_index_record_at` on any device. -/
theorem programIndexRecordAt_tears (x : World) (hg : 0 < x.dev.programGranule) :
    Tears x off (recordBytes r) ((programIndexRecordAt off r.slot r.head).run x).2 := by
  have hfirst := programAligned_tears x off (storeLe16 r.slot)
  rw [programIndexRecordAt, run_bind]
  rcases hrun : (programAligned off (storeLe16 r.slot)).run x with ⟨res, x1⟩
  rw [hrun] at hfirst
  cases res with
  | error e =>
    obtain ⟨m1, plan1, rfl, htorn⟩ := hfirst
    exact ⟨m1, plan1, rfl, htorn.left⟩
  | ok a =>
    obtain ⟨plan1, rfl, -⟩ := programAligned_ok hg hrun
    obtain ⟨m2, plan2, h2, htorn⟩ := programAligned_tears
      (x.withMem (Nor.program x.dev.mem off (storeLe16 r.slot)) plan1) (off + 2) (storeLe16 r.head)
    exact ⟨m2, plan2, h2, Torn.append htorn⟩

/-- `program_index_record_at` and the new end of the log, on any device. -/
theorem appendIndexAtEnd_cases (y : World) (hg : 0 < y.dev.programGranule) (r : IndexRecord) :
    (∃ plan, (appendIndexAtEnd r.slot r.head).run y = (.ok (),
      (y.withMem (Nor.program y.dev.mem y.fs.nextIndexOffset (recordBytes r)) plan).withNext
        (y.fs.nextIndexOffset + 4))) ∨
    ∃ e m plan, (appendIndexAtEnd r.slot r.head).run y = (.error e, y.withMem m plan) ∧
      SameOutside y.fs.nextIndexOffset (y.fs.nextIndexOffset + 4) y.dev.mem m := by
  have htears := @programIndexRecordAt_tears y.fs.nextIndexOffset r y hg
  rw [appendIndexAtEnd, bind_of_ok (run_getFs y), run_bind]
  rcases hrun : (programIndexRecordAt y.fs.nextIndexOffset r.slot r.head).run y with ⟨res, y1⟩
  rw [hrun] at htears
  cases res with
  | error e =>
    obtain ⟨m, plan, rfl, htorn⟩ := htears
    exact .inr ⟨e, m, plan, rfl, htorn.outside⟩
  | ok a =>
    rw [programIndexRecordAt] at hrun
    obtain ⟨_, y2, hrun2, hrun1⟩ := bind_ok hrun
    obtain ⟨plan2, rfl, -⟩ := programAligned_ok hg hrun2
    obtain ⟨plan1, rfl, -⟩ := programAligned_ok (w := y.withMem _ plan2) hg hrun1
    refine .inl ⟨plan1, ?_⟩
    rw [recordBytes, ← Nor.program_append, length_storeLe16]
    rfl

end Bytes

/-! ## The granule of the device -/

section Granule

variable {g : Nat}

/-- The device programs `g` bytes at a time. -/
def GranuleIs (g : Nat) (w : World) : Prop := w.dev.programGranule = g

instance : ReadInv (GranuleIs g) where
  ofRead := fun h => h

instance (f : Fs → Fs) : Keeps (GranuleIs g) (modifyFs f) := ⟨fun _ h => h⟩

instance (off n : Nat) : Keeps (GranuleIs g) (backendErase off n) := by
  constructor
  intro w hw
  rcases hrun : (backendErase off n).run w with ⟨r, w'⟩
  cases r with
  | error e => exact (backendErase_stops hrun).2.2.trans hw
  | ok a =>
    obtain ⟨plan, rfl, -⟩ := (backendErase_ok hrun).1
    exact hw

instance (off : Nat) (bs : List Byte) : Keeps (GranuleIs g) (programAligned off bs) := by
  constructor
  intro w hw
  obtain ⟨m, plan, hm, -⟩ := programAligned_tears w off bs
  rw [hm]
  exact hw

instance : Keeps (GranuleIs g) rotateIndexBegin := by
  have hnote : ∀ e, Keeps (GranuleIs g) (note e) := fun e => ⟨fun _ h => h⟩
  rw [rotateIndexBegin]
  infer_instance

instance : Keeps (GranuleIs g) rotateIndexCommit := by
  rw [rotateIndexCommit]
  have hheader : ∀ off n shift serial, Keeps (GranuleIs g) (programIndexHeader off n shift serial) := by
    intro off n shift serial
    rw [programIndexHeader]
    infer_instance
  infer_instance

instance (slot head : Nat) : Keeps (GranuleIs g) (appendIndexAtEnd slot head) := by
  have hrecord : ∀ off, Keeps (GranuleIs g) (programIndexRecordAt off slot head) := by
    intro off
    rw [programIndexRecordAt]
    infer_instance
  rw [appendIndexAtEnd]
  infer_instance

instance (p : Bool) (slot head : Nat) : Keeps (GranuleIs g) (indexRecordWriterAppend p slot head) := by
  have hroom : Keeps (GranuleIs g) (indexRecordWriterRoom p) := by
    rw [indexRecordWriterRoom]
    infer_instance
  rw [indexRecordWriterAppend]
  infer_instance

variable [Opts]

instance (reader : IndexRecordReader) (sourceEnd fuel off : Nat) (p : Bool) :
    Keeps (GranuleIs g) (compactCopyLoop sourceEnd fuel reader off p) := by
  induction fuel generalizing reader off p with
  | zero =>
    rw [compactCopyLoop]
    infer_instance
  | succ fuel ih =>
    rw [compactCopyLoop]
    infer_instance

instance : Keeps (GranuleIs g) rotateIndex := by
  have hcopy : Keeps (GranuleIs g) indexCompactOldestCopy := by
    rw [indexCompactOldestCopy]
    infer_instance
  have hfinish : ∀ source, Keeps (GranuleIs g) (indexCompactOldestFinish source) := by
    intro source
    rw [indexCompactOldestFinish, tombstoneIndexSector]
    infer_instance
  rw [rotateIndex]
  infer_instance

end Granule

/-! ## Bits at the end of the log -/

/-- The file system `v`, with other bytes at the end of its log. -/
structure Residue (v u : World) : Prop where
  eq : u = v.withMem u.dev.mem []
  outside : SameOutside v.fs.nextIndexOffset (v.fs.nextIndexOffset + 4) v.dev.mem u.dev.mem
  full : indexSectorIsFull v.fs = true → u.dev.mem = v.dev.mem

/-- The record can be programmed at the end of the log. -/
def overlays (w : World) (r : IndexRecord) : Prop :=
  recordAt (Nor.program w.dev.mem w.fs.nextIndexOffset (recordBytes r)) w.fs.nextIndexOffset = r

instance (w : World) (r : IndexRecord) : Decidable (overlays w r) := by
  rw [overlays]
  infer_instance

variable [Opts] {v u : World} {logs : List (List IndexRecord)} {r : IndexRecord} {plan : List Fault}

omit [Opts] in
theorem Residue.fs (hu : Residue v u) : u.fs = v.fs := by
  rw [hu.eq]
  rfl

omit [Opts] in
theorem Residue.refl (hplan : v.dev.plan = []) : Residue v v := by
  refine ⟨?_, SameOutside.refl _ _ _, fun _ => rfl⟩
  rw [World.withMem, ← hplan]

theorem Residue.sameSetup (hu : Residue v u) (h : IndexState v logs) : SameSetup v u := by
  have hsame : ∀ a, v.fs.indexSectors * v.fs.sectorSize ≤ a → Nor.get u.dev.mem a = Nor.get v.dev.mem a := by
    intro a ha
    by_cases hfull : indexSectorIsFull v.fs = true
    · rw [hu.full hfull]
    · exact hu.outside.data h.ring.active_lt (next_le_of_free hfull) ha
  refine ⟨⟨h.works.plan, ?_, hu.outside.size, ?_, ?_, ?_, hsame⟩, ?_, ?_⟩ <;> rw [hu.eq] <;> rfl

theorem tableRoom_congr (hfs : u.fs = v.fs) (hroom : tableRoom u r) : tableRoom v r := by
  intro hmode
  have hroom' := hroom hmode
  have hhead : slotHead u r.slot = slotHead v r.slot := by
    rw [slotHead, slotHead, indexHeadForSlot, bind_of_ok (run_getFs u), bind_of_ok (run_getFs v), hmode, hfs]
    dsimp only
    split
    · rfl
    · split <;> rfl
  rw [hhead, hfs] at hroom'
  exact hroom'

theorem indexSet_aside {f : World → World} (hf : Aside f) {slot head : Nat} :
    (indexSet slot head).run (f v) = (((indexSet slot head).run v).1, f ((indexSet slot head).run v).2) := by
  rw [indexSet]
  split
  · exact indexRemove_aside hf
  · exact indexInsert_aside hf

/-- The end of an append over the bits that failures have left, on any device. -/
theorem IndexState.append_over (h : IndexState v logs) (hu : Residue v u) (ha : Appendable v r)
    (hroom : tableRoom v r) (hfree : ¬ indexSectorIsFull v.fs = true) (hover : overlays u r)
    {x : World} {res : Except Status Unit}
    (hrun : (do appendIndexAtEnd r.slot r.head; indexSet r.slot r.head : M Unit).run (u.withPlan plan) =
      (res, x)) :
    (res = .ok () ∧ x.dev.mem = Nor.program u.dev.mem u.fs.nextIndexOffset (recordBytes r) ∧
      ∃ logs', IndexState (x.withPlan []) logs' ∧ SameSetup v (x.withPlan []) ∧
        logMap logs'.flatten = Function.update (logMap logs.flatten) r.slot r.head) ∨
    (∃ e, res = .error e) ∧ plan ≠ [] ∧ Residue v (x.withPlan []) := by
  obtain ⟨-, -, hslot, hhead⟩ := ha.writable.clean h.sectorCount_le
  have hle := next_le_of_free hfree
  have hprogram : Nor.program u.dev.mem v.fs.nextIndexOffset (recordBytes r) =
      Nor.program v.dev.mem v.fs.nextIndexOffset (recordBytes r) := by
    rw [overlays, hu.fs] at hover
    exact program_overlay hslot hhead (fun i h1 h2 => h.blank_next h1 (by omega)) hu.outside hover
  obtain ⟨b, heads, logs', happend, hset, hstate, hmap, hsetup⟩ := h.append_end ha hroom hfree
  have hg : 0 < (u.withPlan plan).dev.programGranule := by
    have hgranule := (hu.sameSetup h).granule
    exact hgranule ▸ h.placed.granule_pos
  rw [run_bind] at hrun
  rcases appendIndexAtEnd_cases (u.withPlan plan) hg r with ⟨plan', happ⟩ | ⟨e, m, plan', happ, hsame⟩
  · -- the record is in place, and the cache takes it
    left
    have hworld : ((u.withPlan plan).withMem (Nor.program (u.withPlan plan).dev.mem
        (u.withPlan plan).fs.nextIndexOffset (recordBytes r)) plan').withNext
        ((u.withPlan plan).fs.nextIndexOffset + 4) = (appendedWorld v r).withPlan plan' := by
      change (u.withMem (Nor.program u.dev.mem u.fs.nextIndexOffset (recordBytes r)) plan').withNext
        (u.fs.nextIndexOffset + 4) = _
      rw [hu.fs, hprogram, hu.eq]
      rfl
    have haside : (indexSet r.slot r.head).run ((appendedWorld v r).withPlan plan') =
        (.ok (), ((appendedWorld v r).withCache b heads).withPlan plan') := by
      have hf := @indexSet_aside _ (appendedWorld v r) _
        (aside_withMem (appendedWorld v r).dev.mem plan') r.slot r.head
      rw [hset] at hf
      exact hf
    rw [happ, hworld] at hrun
    dsimp only at hrun
    rw [haside] at hrun
    cases hrun
    refine ⟨rfl, ?_, logs', hstate, hsetup, hmap⟩
    rw [hu.fs, hprogram]
    rfl
  · -- the record is torn
    right
    have hplan : plan ≠ [] := by
      rintro rfl
      have hu' : (v.withMem u.dev.mem []).withNext v.fs.nextIndexOffset = u := hu.eq.symm
      have hpu : LogPlaced u := hu' ▸ h.placed.withLog hu.outside.size v.fs.nextIndexOffset
      have hsize : u.dev.size = v.dev.size := hu.outside.size
      have hin := (Nat.mul_le_mul_right v.fs.sectorSize (Nat.succ_le_of_lt h.ring.active_lt)).trans h.placed.fits
      rw [Nat.succ_eq_add_one] at hin
      have hworks := appendIndexAtEnd_works (r := r) hpu (by rw [hu.fs]; omega)
      rw [World.withPlan_nil hpu.plan] at happ
      rw [happ] at hworks
      cases hworks
    rw [happ] at hrun
    cases hrun
    have hfs := hu.fs
    change SameOutside u.fs.nextIndexOffset (u.fs.nextIndexOffset + 4) u.dev.mem m at hsame
    rw [hfs] at hsame
    refine ⟨⟨e, rfl⟩, hplan, ⟨?_, hu.outside.trans hsame, fun hfull => absurd hfull hfree⟩⟩
    change u.withMem m [] = v.withMem m []
    rw [hu.eq]
    rfl

/-! ## Appends that rotate -/

/-- What is left when an append stops before its record. -/
def Stopped (v : World) (logs : List (List IndexRecord)) (x : World) : Prop :=
  (∃ logs', IndexState (x.withPlan []) logs' ∧ SameCache v (x.withPlan []) ∧
    logMap logs'.flatten = logMap logs.flatten) ∨
  ¬ settled x ∧ x.dev.programGranule = v.dev.programGranule ∧
    (noEarlierSequence x.dev.mem v.fs.sectorShift → Recovers v logs x.dev.mem)

/-- The rotation of an append, on any device. -/
theorem IndexState.room_cases (h : IndexState v logs) (hfull : indexSectorIsFull v.fs = true)
    {x : World} {res : Except Status Unit} (hrun : appendIndexRoom.run (v.withPlan plan) = (res, x)) :
    (res = .ok () ∧ ∃ v1 logs1 plan1, x = v1.withPlan plan1 ∧ IndexState v1 logs1 ∧ SameCache v v1 ∧
      logMap logs1.flatten = logMap logs.flatten ∧ ¬ indexSectorIsFull v1.fs = true) ∨
    (∃ e, res = .error e) ∧ Stopped v logs x := by
  rw [appendIndexRoom, bind_of_ok (run_getFs _),
    if_pos (show indexSectorIsFull (v.withPlan plan).fs = true from hfull), run_bind] at hrun
  rcases hrotate : rotateIndex.run (v.withPlan plan) with ⟨r, x1⟩
  rw [hrotate] at hrun
  cases r with
  | error e =>
    cases hrun
    refine .inr ⟨⟨e, rfl⟩, ?_⟩
    by_cases hs : settled x
    · obtain ⟨logs', hstate, hmap, hsame⟩ := h.rotateIndex_fails hrotate hs
      exact .inl ⟨logs', hstate, hsame, hmap⟩
    · refine .inr ⟨hs, ?_, fun hno => ?_⟩
      · have hg := (inferInstance : Keeps (GranuleIs v.dev.programGranule) rotateIndex).keeps
          (v.withPlan plan) rfl
        rw [hrotate] at hg
        exact hg
      · have hrec := h.rotateIndex_recovers plan (by rw [hrotate]; exact hno)
        rw [hrotate] at hrec
        exact hrec
  | ok a =>
    obtain ⟨v1, logs1, hplain, h1, hmap, hsame⟩ := h.rotateIndex_run
    obtain ⟨-, hx1⟩ := Honest.run_eq h.works.plan hplain hrotate
    dsimp only at hrun
    rw [hx1, bind_of_ok (run_getFs _)] at hrun
    have hback : (v1.withPlan x1.dev.plan).withPlan [] = v1 := World.withPlan_nil h1.works.plan
    by_cases hfull1 : indexSectorIsFull v1.fs = true
    · rw [if_pos (show indexSectorIsFull (v1.withPlan x1.dev.plan).fs = true from hfull1)] at hrun
      cases hrun
      refine .inr ⟨⟨_, rfl⟩, .inl ⟨logs1, ?_, ?_, hmap⟩⟩
      · rw [hback]
        exact h1
      · rw [hback]
        exact hsame
    · rw [if_neg (show ¬ indexSectorIsFull (v1.withPlan x1.dev.plan).fs = true from hfull1)] at hrun
      cases hrun
      exact .inl ⟨rfl, v1, logs1, x1.dev.plan, rfl, h1, hsame, hmap, hfull1⟩

/-! ## Sessions -/

/-- Each append is made in a settled file system, of a record that the cache can take and
that can be programmed at the end of the log. -/
def appendAllowed (s : Session) (c : AppendCall) : Prop :=
  settled s.world ∧ Appendable s.world c.record ∧ tableRoom s.world c.record ∧
    (indexSectorIsFull s.world.fs = true ∨ overlays s.world c.record)

/-- The log is what has been acknowledged, but for the bits that the last failures have
left. -/
def Session.Durable (w : World) (s : Session) : Prop :=
  ∃ v logs, IndexState v logs ∧ SameSetup w v ∧ logMap logs.flatten = s.acked ∧
    (Residue v s.world ∨ s.world.dev.plan = [] ∧ Stopped v logs s.world)

/-- A blank end of the log takes every record. -/
theorem IndexState.overlays (h : IndexState v logs) (ha : Appendable v r)
    (hfree : ¬ indexSectorIsFull v.fs = true) : Fastffs.overlays v r := by
  obtain ⟨-, -, hslot, hhead⟩ := ha.writable.clean h.sectorCount_le
  have hle := next_le_of_free hfree
  rw [Fastffs.overlays, recordBytes, ← Nor.program_append, length_storeLe16]
  exact recordAt_programmed hslot hhead fun i h1 h2 => h.blank_next h1 (by omega)

omit [Opts] in
theorem SameSetup.symm {w : World} (h : SameSetup v w) : SameSetup w v :=
  ⟨h.toSameData.symm, h.granule.symm, h.tableSize.symm⟩

/-- One append keeps what has been acknowledged. -/
theorem Session.Durable.step {w : World} {s : Session} {c : AppendCall} (h : s.Durable w)
    (hc : appendAllowed s c) : (appendStep s c).Durable w := by
  obtain ⟨v, logs, hv, hsetup, hmap, hworld⟩ := h
  obtain ⟨hs, happ, hroom, hover⟩ := hc
  -- the world before the call is settled, so it is a state with some bits at its end
  obtain ⟨v, logs, hv, hsetup, hmap, hu⟩ : ∃ v logs, IndexState v logs ∧ SameSetup w v ∧
      logMap logs.flatten = s.acked ∧ Residue v s.world := by
    rcases hworld with hu | ⟨hplan, ⟨logs', hstate, hsame, hmap'⟩ | ⟨hns, -⟩⟩
    · exact ⟨v, logs, hv, hsetup, hmap, hu⟩
    · rw [World.withPlan_nil hplan] at hstate hsame
      exact ⟨_, logs', hstate, hsetup.trans hsame.setup, hmap'.trans hmap, .refl hplan⟩
    · exact absurd hs hns
  have happ' : Appendable v c.record := happ.congr (hu.sameSetup hv).symm.toSameData
  have hroom' : tableRoom v c.record := tableRoom_congr hu.fs hroom
  rw [hu.fs] at hover
  -- the end of an append in a state `v1` with the same map
  have hend : ∀ {v1 u1 : World} {logs1 : List (List IndexRecord)} {plan : List Fault} {x : World}
      {res : Except Status Unit}, IndexState v1 logs1 → SameSetup v v1 →
      logMap logs1.flatten = logMap logs.flatten → Residue v1 u1 → tableRoom v1 c.record →
      ¬ indexSectorIsFull v1.fs = true → Fastffs.overlays u1 c.record →
      (do appendIndexAtEnd c.record.slot c.record.head
          indexSet c.record.slot c.record.head : M Unit).run (u1.withPlan plan) = (res, x) →
      (appendIndexRecord c.record.slot c.record.head).run (s.world.withPlan c.plan) = (res, x) →
      (appendStep s c).Durable w := by
    intro v1 u1 logs1 plan x res hv1 hsame1 hmap1 hu1 hroom1 hfree1 hover1 htail hrun
    rw [appendStep, hrun]
    rcases hv1.append_over hu1 (happ'.congr hsame1.toSameData) hroom1 hfree1 hover1 htail with
      ⟨rfl, -, logs', hstate, hsame, hmap'⟩ | ⟨⟨e, rfl⟩, -, hres⟩
    · refine ⟨_, logs', hstate, hsetup.trans (hsame1.trans hsame), ?_, .inl (.refl rfl)⟩
      rw [hmap', hmap1, hmap]
    · exact ⟨v1, logs1, hv1, hsetup.trans hsame1, hmap1.trans hmap, .inl hres⟩
  rcases hrun : (appendIndexRecord c.record.slot c.record.head).run (s.world.withPlan c.plan) with ⟨res, x⟩
  have hsplit := hrun
  rw [appendIndexRecord, run_bind] at hsplit
  by_cases hfull : indexSectorIsFull v.fs = true
  · -- no bits are left at the end of a full sector
    have hsv : s.world = v := by
      rw [hu.eq, hu.full hfull, World.withMem, ← hv.works.plan]
    rw [hsv] at hsplit
    rcases hr : appendIndexRoom.run (v.withPlan c.plan) with ⟨r1, x1⟩
    rw [hr] at hsplit
    rcases hv.room_cases hfull hr with ⟨rfl, v1, logs1, plan1, rfl, hv1, hsame1, hmap1, hfree1⟩ |
      ⟨⟨e, rfl⟩, hstop⟩
    · have hroom1 : tableRoom v1 c.record := by
        intro hmode
        have hfree := hroom' hmode
        rw [hashRoom, ← hsame1.tableSize, ← hsame1.buckets, ← hv.slotHead_eq hv1 hmap1] at hfree
        exact hfree
      exact hend hv1 hsame1.setup hmap1 (.refl hv1.works.plan) hroom1 hfree1
        (hv1.overlays (happ'.congr hsame1.toSameData) hfree1) hsplit hrun
    · cases hsplit
      rw [appendStep, hrun]
      refine ⟨v, logs, hv, hsetup, hmap, .inr ⟨rfl, ?_⟩⟩
      exact hstop
  · have hr : appendIndexRoom.run (s.world.withPlan c.plan) = (.ok (), s.world.withPlan c.plan) := by
      rw [appendIndexRoom, bind_of_ok (run_getFs _), if_neg]
      · rfl
      · change ¬ indexSectorIsFull s.world.fs = true
        rw [hu.fs]
        exact hfull
    rw [hr] at hsplit
    have hsame : SameSetup v v := ⟨SameData.refl hv.works.plan, rfl, rfl⟩
    exact hend hv hsame rfl hu hroom' hfull (hover.resolve_left hfull) hsplit hrun

/-! ## The next mount -/

/-- The record at the end of the log. -/
def endRecord (w : World) : IndexRecord := recordAt w.dev.mem w.fs.nextIndexOffset

/-- The record at the end of the log says nothing, or it agrees with what has been
acknowledged, or it is the record of a failed append, which the table can take. -/
def Session.tailOk (s : Session) : Prop :=
  indexSectorIsFull s.world.fs = true ∨ (endRecord s.world).erased = true ∨
    (endRecord s.world).meaningless s.world = true ∨
    (endRecord s.world ∈ s.failed ∨ s.acked (endRecord s.world).slot = (endRecord s.world).head) ∧
      tableRoom s.world (endRecord s.world)

/-- The heads that a mount may find: those acknowledged, or those of appends of the slot
that have failed since. -/
def Session.allows (s : Session) (f : Nat → Nat) : Prop :=
  ∀ slot, f slot = s.acked slot ∨ ∃ r ∈ s.failed, r.slot = slot ∧ r.head = f slot

omit [Opts] in
/-- A record that says something can be appended. -/
theorem appendable_of_meaning (h : (endRecord v).meaningless v = false) : Appendable v (endRecord v) := by
  rw [IndexRecord.meaningless, Bool.or_eq_false_iff, Bool.and_eq_false_iff, bne_eq_false_iff_eq,
    Bool.not_eq_false', ← Bool.not_eq_true, IndexRecord.malformed_iff] at h
  obtain ⟨hwell, hhead⟩ := h
  have hslot : (endRecord v).slot < 65536 := by
    have hbyte : ∀ m : Mem, ∀ off, (recordAt m off).slot =
      (Nor.get m off).toNat + 256 * (Nor.get m (off + 1)).toNat := fun _ _ => rfl
    have h0 := (Nor.get v.dev.mem v.fs.nextIndexOffset).isLt
    have h1 := (Nor.get v.dev.mem (v.fs.nextIndexOffset + 1)).isLt
    rw [endRecord, hbyte]
    omega
  refine ⟨fun h0 => hwell (.inl (.inl h0)), ?_, hhead⟩
  have hne : (endRecord v).slot ≠ uint16Max := fun h1 => hwell (.inl (.inr (.inl h1)))
  rw [uint16Max] at hne ⊢
  omega

omit [Opts] in
theorem sectorSizeOf_inj {a b : Nat} (h : sectorSizeOf a = sectorSizeOf b) : a = b := by
  rw [sectorSizeOf, sectorSizeOf] at h
  exact Nat.pow_right_injective le_rfl (Nat.eq_of_mul_eq_mul_left (by decide) h)

/-- The mount of a state with bits at the end of its log. -/
theorem Residue.mount {s : Session} {o : MountOptions} (hu : Residue v s.world) (h : IndexState v logs)
    (hmap : logMap logs.flatten = s.acked) (htail : s.tailOk) (hok : mountOptionsOk v o)
    (hstrict : o.strict = false) (htable : o.indexHashTableSize = v.fs.indexHashTableSize)
    (hno : noEarlierSequence s.world.dev.mem v.fs.sectorShift) :
    ∃ w', (Fastffs.mount o).run s.world = (.ok (), w') ∧ s.allows (slotMap w') := by
  have hsetup := hu.sameSetup h
  have hplan := hsetup.plan'
  have hfits : cacheFits o.indexHashTableSize logs.flatten := htable ▸ h.fits
  have hok' : mountOptionsOk s.world o := hsetup.mountOptionsOk hok
  -- without such bits the mount restores the log
  have hclean : s.world.dev.mem = v.dev.mem → ∃ w', (Fastffs.mount o).run s.world = (.ok (), w') ∧
      s.allows (slotMap w') := by
    intro hmem
    rw [hmem] at hno
    obtain ⟨w', hrun, hw'⟩ := h.mount_run hplan hsetup.granule
      (by rw [hmem]; exact h.restores h.ring.keepsIndex hno) hok' hfits
    exact ⟨w', hrun, fun slot => .inl (by rw [hw'.slotMap_eq, hmap])⟩
  rw [Session.tailOk, endRecord, hu.fs] at htail
  by_cases hfull : indexSectorIsFull v.fs = true
  · exact hclean (hu.full hfull)
  have hend := next_le_of_free hfull
  by_cases herased : (recordAt s.world.dev.mem v.fs.nextIndexOffset).erased = true
  · refine hclean (Nor.ext_get hu.outside.size fun i => ?_)
    by_cases hin : v.fs.nextIndexOffset ≤ i ∧ i < v.fs.nextIndexOffset + 4
    · rw [recordAt_erased_iff, freeFrom_iff] at herased
      rw [herased i hin.1 hin.2, h.blank_next hin.1 (by omega)]
    · exact hu.outside.get i (by omega)
  by_cases hmean : (recordAt s.world.dev.mem v.fs.nextIndexOffset).meaningless s.world = true
  · rw [IndexRecord.meaningless_congr hsetup.toSameData] at hmean
    obtain ⟨w', logs', hrun, hw', hmap'⟩ := h.mount_torn hfull hu.outside
      (Bool.eq_false_of_not_eq_true herased) hmean hplan hsetup.granule hno hok' hstrict hfits
    exact ⟨w', hrun, fun slot => .inl (by rw [hw'.slotMap_eq, hmap', hmap])⟩
  -- the record takes effect, as an append of it would
  obtain ⟨hagrees, hroom⟩ := ((htail.resolve_left hfull).resolve_left herased).resolve_left hmean
  have hrec : endRecord s.world = recordAt s.world.dev.mem v.fs.nextIndexOffset := by rw [endRecord, hu.fs]
  rw [← hrec] at hagrees hroom hmean
  have happ := (appendable_of_meaning (Bool.eq_false_of_not_eq_true hmean)).congr hsetup.symm.toSameData
  have hself : Nor.program s.world.dev.mem s.world.fs.nextIndexOffset (recordBytes (endRecord s.world)) =
      s.world.dev.mem := program_recordAt
  have hover : overlays s.world (endRecord s.world) := by
    rw [overlays, hself]
    rfl
  rcases hrun : (do appendIndexAtEnd (endRecord s.world).slot (endRecord s.world).head
                    indexSet (endRecord s.world).slot (endRecord s.world).head : M Unit).run
      (s.world.withPlan []) with ⟨res, x⟩
  rcases h.append_over hu happ (tableRoom_congr hu.fs hroom) hfull hover hrun with
    ⟨-, hmem, logs', hx, hsame, hmap'⟩ | ⟨-, hplan', -⟩
  · rw [hself] at hmem
    have hshift : (x.withPlan []).fs.sectorShift = v.fs.sectorShift := by
      have hsize := hsame.sectorSize
      rw [hx.ring.sectorSize_eq, h.ring.sectorSize_eq] at hsize
      exact sectorSizeOf_inj hsize
    have hno' : noEarlierSequence x.dev.mem (x.withPlan []).fs.sectorShift := by
      rw [hmem, hshift]
      exact hno
    have hrestores := hx.restores hx.ring.keepsIndex hno'
    have hfits' : cacheFits o.indexHashTableSize logs'.flatten := by
      rw [htable, ← hsame.tableSize]
      exact hx.fits
    obtain ⟨w', hrun', hw'⟩ := hx.mount_run hplan (hsetup.granule.trans hsame.granule.symm)
      (hmem ▸ hrestores) hok' hfits'
    refine ⟨w', hrun', fun slot => ?_⟩
    rw [hw'.slotMap_eq, hmap', hmap, Function.update_apply]
    split
    · next hslot =>
      subst hslot
      rcases hagrees with hfailed | hacked
      · exact .inr ⟨_, hfailed, rfl, rfl⟩
      · exact .inl hacked.symm
    · exact .inl rfl
  · exact absurd rfl hplan'

end Fastffs
