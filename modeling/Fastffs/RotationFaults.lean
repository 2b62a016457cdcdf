import Fastffs.Recovery
import Fastffs.Remount
import Fastffs.Torn

/-!
# Rotations that stop on the way

A rotation can stop at any call of the device.  Whatever the plan of the device is, the
flash it leaves is one of three: the header of the new sector is not valid and everything
else is as before, or the header is in place and the ring is full, or the rotation has
come to its end.  A mount of each of them restores the log before the rotation, or the
compacted one, and both have the same map.
-/

namespace Fastffs

open Prog
open Nor (Mem Byte blank Below)

/-! ## The header of the new sector -/

section Header

variable {v : World} {m : Mem} {off : Nat}

/-- A header with a blank lifecycle byte is not valid. -/
theorem headerAt_blank (h : Nor.get m (off + 7) = blank) : headerAt m off = none := by
  have h7 : byteAt (Nor.read m off headerSize) 7 = blank := by
    rw [byteAt, Nor.getD_read _ _ _ _ _ (by decide), h]
  rw [headerAt, validIndexHeader]
  split
  · rfl
  · rw [if_pos]
    rw [h7]
    decide

theorem blank_between {c : Byte} (h : indexFlagsValid &&& c = indexFlagsValid) :
    c = blank ∨ c = indexFlagsValid := by
  have hall : ∀ c : Fin 256, indexFlagsValid &&& BitVec.ofFin c = indexFlagsValid →
      BitVec.ofFin c = blank ∨ BitVec.ofFin c = indexFlagsValid := by
    decide +kernel
  exact hall c.toFin h

/-- `rotate_index_commit` on any device: the header is in place, or its lifecycle byte is
still blank. -/
theorem rotateIndexCommit_tears (hg : 0 < v.dev.programGranule)
    (hblank : ∀ i, v.fs.activeIndexSector * v.fs.sectorSize ≤ i →
      i < v.fs.activeIndexSector * v.fs.sectorSize + headerSize → Nor.get v.dev.mem i = blank) :
    ∃ m plan, (rotateIndexCommit.run v).2 = v.withMem m plan ∧
      (m = headed v.dev.mem (v.fs.activeIndexSector * v.fs.sectorSize) v.fs.indexSectors
          v.fs.sectorShift v.fs.activeIndexSerial ∨
        (rotateIndexCommit.run v).1.isOk = false ∧
        SameOutside (v.fs.activeIndexSector * v.fs.sectorSize)
          (v.fs.activeIndexSector * v.fs.sectorSize + headerSize) v.dev.mem m ∧
        Nor.get m (v.fs.activeIndexSector * v.fs.sectorSize + 7) = blank) := by
  generalize hoff : v.fs.activeIndexSector * v.fs.sectorSize = off at hblank
  generalize hhdr : encodeIndexHeader v.fs.indexSectors v.fs.sectorShift v.fs.activeIndexSerial = hdr
  have hlen : hdr.length = headerSize := by rw [← hhdr]; rfl
  have h7 : hdr.getD 7 blank = blank := by rw [← hhdr]; rfl
  have hbody := programAligned_tears v off hdr
  rw [rotateIndexCommit, bind_of_ok (run_getFs v), programIndexHeader, hoff, hhdr, run_bind]
  rcases hrun : (programAligned off hdr).run v with ⟨r, v1⟩
  rw [hrun] at hbody
  obtain ⟨m1, plan1, hm1, htorn1⟩ := hbody
  have hlast : ∀ {m'}, Torn off hdr v.dev.mem m' → Nor.get m' (off + 7) = blank := by
    intro m' htorn
    rw [htorn.get_of_blank fun _ => by rw [Nat.add_sub_cancel_left, h7]]
    exact hblank _ (Nat.le_add_right _ _) (by rw [headerSize]; omega)
  cases r with
  | error e =>
    refine ⟨m1, plan1, hm1, .inr ⟨rfl, ?_, hlast htorn1⟩⟩
    rw [← hlen]
    exact htorn1.outside
  | ok a =>
    obtain ⟨plan', rfl, -⟩ := programAligned_ok hg hrun
    have hsame : SameOutside off (off + headerSize) v.dev.mem (Nor.program v.dev.mem off hdr) :=
      hlen ▸ Torn.all.outside
    have hflag := hlast Torn.all
    obtain ⟨m2, plan2, hm2, htorn2⟩ := programAligned_tears
      (v.withMem (Nor.program v.dev.mem off hdr) plan') (off + 7) [indexFlagsValid]
    have hbit : m2 = Nor.program v.dev.mem off hdr ∨
        m2 = headed v.dev.mem off v.fs.indexSectors v.fs.sectorShift v.fs.activeIndexSerial := by
      rw [headed, hhdr]
      refine htorn2.bit fun c _ hlow => ?_
      change Nor.get (Nor.program v.dev.mem off hdr) (off + 7) &&& indexFlagsValid &&& c =
        Nor.get (Nor.program v.dev.mem off hdr) (off + 7) &&& indexFlagsValid at hlow
      change c = Nor.get (Nor.program v.dev.mem off hdr) (off + 7) ∨
        c = Nor.get (Nor.program v.dev.mem off hdr) (off + 7) &&& indexFlagsValid
      rw [hflag] at hlow ⊢
      exact blank_between hlow
    refine ⟨m2, plan2, hm2, ?_⟩
    dsimp only
    rcases hrun2 : (programAligned (off + 7) [indexFlagsValid]).run
      (v.withMem (Nor.program v.dev.mem off hdr) plan') with ⟨r2, v2⟩
    cases r2 with
    | error e =>
      rcases hbit with rfl | rfl
      · exact .inr ⟨rfl, hsame, hflag⟩
      · exact .inl rfl
    | ok b =>
      have hg' : 0 < (v.withMem (Nor.program v.dev.mem off hdr) plan').dev.programGranule := hg
      have hprog := (programAligned_ok hg' hrun2).mem
      rw [hrun2] at hm2
      subst hm2
      rw [headed, hhdr]
      exact .inl hprog

/-- `index_compact_oldest_finish` on any device: the header is tombstoned, or nothing has
changed. -/
theorem indexCompactOldestFinish_tears {sector : Nat}
    (hflag : Nor.get v.dev.mem (sector * v.fs.sectorSize + 7) = indexFlagsValid) :
    ((indexCompactOldestFinish sector).run v).2.dev.mem = v.dev.mem ∨
      ((indexCompactOldestFinish sector).run v).2.dev.mem =
        tombstoned v.dev.mem (sector * v.fs.sectorSize) := by
  obtain ⟨m, plan, hm, htorn⟩ := programAligned_tears v (sector * v.fs.sectorSize + 7)
    [indexFlagsValid &&& ~~~0x40#8]
  have hmem : ((indexCompactOldestFinish sector).run v).2.dev.mem = m := by
    rw [indexCompactOldestFinish, tombstoneIndexSector, run_bind, bind_of_ok (run_getFs v)]
    rcases hrun : (programAligned (sector * v.fs.sectorSize + 7) [indexFlagsValid &&& ~~~0x40#8]).run v
      with ⟨r, v1⟩
    rw [hrun] at hm
    subst hm
    cases r <;> rfl
  rw [hmem]
  refine htorn.bit fun c hhigh hlow => ?_
  rw [hflag] at hhigh hlow ⊢
  exact flags_between hhigh hlow

end Header

/-! ## The copies in the new sector -/

section Copy

variable {v0 v : World}

/-- A change of the records of the active sector, and of the end of the log. -/
structure Appending (v0 v : World) : Prop where
  fs : v.fs = { v0.fs with nextIndexOffset := v.fs.nextIndexOffset }
  next : indexSectorBegin v0.fs v0.fs.activeIndexSector ≤ v.fs.nextIndexOffset
  outside : SameOutside (indexSectorBegin v0.fs v0.fs.activeIndexSector)
    ((v0.fs.activeIndexSector + 1) * v0.fs.sectorSize) v0.dev.mem v.dev.mem

instance : ReadInv (Appending v0) where
  ofRead := fun h => ⟨h.fs, h.next, h.outside⟩

/-- An append inside the active sector, on any device. -/
theorem appendIndexAtEnd_keeps {slot head : Nat} (h : Appending v0 v)
    (hroom : indexSectorIsFull v.fs = false) :
    Appending v0 ((appendIndexAtEnd slot head).run v).2 := by
  have hA : v.fs.activeIndexSector = v0.fs.activeIndexSector := by rw [h.fs]
  have hS : v.fs.sectorSize = v0.fs.sectorSize := by rw [h.fs]
  simp only [indexSectorIsFull, decide_eq_false_iff_not, not_lt] at hroom
  rw [hA, hS] at hroom
  have hnext := h.next
  -- a torn half of the record lies inside the sector
  have hhalf : ∀ {u u' : World} {off : Nat} {bs : List Byte}, Appending v0 u → Tears u off bs u' →
      u.fs.nextIndexOffset = v.fs.nextIndexOffset → v.fs.nextIndexOffset ≤ off →
      off + bs.length ≤ v.fs.nextIndexOffset + 4 → Appending v0 u' ∧ u'.fs = u.fs := by
    rintro u u' off bs hu ⟨m, plan, rfl, htorn⟩ hn hlo hhi
    refine ⟨⟨hu.fs, hu.next, hu.outside.trans (htorn.outside.mono (by omega) (by omega))⟩, rfl⟩
  have h1 := hhalf h (programAligned_tears v v.fs.nextIndexOffset (storeLe16 slot)) rfl le_rfl
    (by rw [length_storeLe16]; omega)
  rw [appendIndexAtEnd, bind_of_ok (run_getFs v), programIndexRecordAt, run_bind, run_bind]
  rcases hrun1 : (programAligned v.fs.nextIndexOffset (storeLe16 slot)).run v with ⟨r1, v1⟩
  rw [hrun1] at h1
  cases r1 with
  | error e => exact h1.1
  | ok a =>
    have h2 := hhalf h1.1 (programAligned_tears v1 (v.fs.nextIndexOffset + 2) (storeLe16 head))
      (by rw [h1.2]) (by omega) (by rw [length_storeLe16])
    dsimp only
    rcases hrun2 : (programAligned (v.fs.nextIndexOffset + 2) (storeLe16 head)).run v1 with ⟨r2, v2⟩
    rw [hrun2] at h2
    cases r2 with
    | error e => exact h2.1
    | ok b =>
      have hfs := h2.1.fs
      refine ⟨?_, ?_, h2.1.outside⟩
      · change { v2.fs with nextIndexOffset := v2.fs.nextIndexOffset + 4 } =
          { v0.fs with nextIndexOffset := v2.fs.nextIndexOffset + 4 }
        rw [hfs]
      · exact h2.1.next.trans (Nat.le_add_right _ _)

/-- A writer that finds no free sector in the ring stays in the active sector. -/
theorem indexRecordWriterAppend_keeps {p : Bool} {slot head : Nat}
    (hfull : v0.fs.indexSectors ≤ v0.fs.indexSequenceCount) :
    Keeps (Appending v0) (indexRecordWriterAppend p slot head) := by
  constructor
  intro v h
  have hcount : v.fs.indexSequenceCount ≥ v.fs.indexSectors := by
    rw [h.fs]
    exact hfull
  rw [indexRecordWriterAppend, indexRecordWriterRoom, run_bind, bind_of_ok (run_getFs v)]
  by_cases hroom : indexSectorIsFull v.fs = true
  · rw [if_pos hroom, if_pos (.inr hcount)]
    exact h
  · have hkeeps := @appendIndexAtEnd_keeps _ _ slot head h (Bool.eq_false_of_not_eq_true hroom)
    rw [if_neg hroom]
    dsimp only [run_pure]
    rw [run_bind]
    rcases hrun : (appendIndexAtEnd slot head).run v with ⟨r, v1⟩
    rw [hrun] at hkeeps
    cases r <;> exact hkeeps

variable [Opts]

theorem compactCopyLoop_keeps {sourceEnd fuel off : Nat} {reader : IndexRecordReader} {p : Bool}
    (hfull : v0.fs.indexSectors ≤ v0.fs.indexSequenceCount) :
    Keeps (Appending v0) (compactCopyLoop sourceEnd fuel reader off p) := by
  induction fuel generalizing reader off p with
  | zero =>
    rw [compactCopyLoop]
    infer_instance
  | succ fuel ih =>
    have happend : ∀ p slot head, Keeps (Appending v0) (indexRecordWriterAppend p slot head) :=
      fun p slot head => indexRecordWriterAppend_keeps hfull
    have hloop : ∀ reader off p, Keeps (Appending v0) (compactCopyLoop sourceEnd fuel reader off p) :=
      fun reader off p => ih
    rw [compactCopyLoop]
    infer_instance

/-- `index_compact_oldest_copy` in a rotation, when it stops on the way. -/
theorem indexCompactOldestCopy_stops {e : Status} {v' : World} (hr : Ring True v)
    (hfull : v.fs.indexSequenceCount = v.fs.indexSectors)
    (h : indexCompactOldestCopy.run v = (.error e, v')) : Appending v v' := by
  have hself : Appending v v := ⟨rfl, hr.next_ge, SameOutside.refl _ _ _⟩
  have hge : 2 ≤ v.fs.indexSectors := hr.wf.sectors_ge
  have hkeeps : Appending v ((compactCopyLoop (indexSectorEnd v.fs v.fs.oldestIndexSector) v.fs.sectorSize {}
      (indexSectorBegin v.fs v.fs.oldestIndexSector) false).run v).2 :=
    (compactCopyLoop_keeps hfull.ge).keeps v hself
  rw [indexCompactOldestCopy, bind_of_ok (run_getFs v)] at h
  dsimp only at h
  rw [if_neg (by omega), run_bind] at h
  rcases hloop : (compactCopyLoop (indexSectorEnd v.fs v.fs.oldestIndexSector) v.fs.sectorSize {}
    (indexSectorBegin v.fs v.fs.oldestIndexSector) false).run v with ⟨r, v1⟩
  rw [hloop] at h hkeeps
  cases r with
  | error e' =>
    cases h
    exact hkeeps
  | ok pending =>
    -- the writer has begun no rotation of its own
    have hpending : pending = false := by
      rcases compactCopyLoop_ring True (r := v.fs.ring) ⟨by simpa using hr, rfl⟩ (fun _ => hfull.ge) hloop with
        ⟨hp, -⟩ | ⟨-, -, hlt, -⟩
      · exact hp
      · exact absurd hfull (Nat.ne_of_lt hlt)
    subst hpending
    cases h

end Copy

/-! ## The flash of a rotation -/

section Image

variable [Opts] {w : World} {logs : List (List IndexRecord)} {m : Mem}

omit [Opts] in
/-- The sector that a rotation goes to comes after the run. -/
theorem RingFree.next_serialAt (hr : RingFree w) :
    w.fs.ring.serialAt (nextIndexSector w.fs w.fs.activeIndexSector) = none := by
  have hgrow : nextIndexSector w.fs w.fs.activeIndexSector = w.fs.ring.grow.active := by
    rw [nextIndexSector, hr.active_eq]
    exact (hr.wf.active_grow hr.count_lt).symm
  have hlast := (hr.wf.grow hr.count_lt).place_active
  rw [IndexRing.grow_place, IndexRing.grow_count, Nat.add_sub_cancel, ← hgrow] at hlast
  exact IndexRing.serialAt_of_ge hlast.ge

omit [Opts] in
theorem RingFree.next_none (hr : RingFree w) (hlt : nextIndexSector w.fs w.fs.activeIndexSector <
    w.fs.indexSectors) :
    headerAt w.dev.mem (nextIndexSector w.fs w.fs.activeIndexSector * w.fs.sectorSize) = none := by
  have hhdr := hr.headersOf _ hlt
  rw [hr.next_serialAt, ← hr.sectorSize_eq] at hhdr
  exact hhdr

/-- What is left when a rotation stops before the header of its new sector is in place. -/
structure Uncommitted (w : World) (m : Mem) : Prop where
  outside : SameOutside (nextIndexSector w.fs w.fs.activeIndexSector * w.fs.sectorSize)
    ((nextIndexSector w.fs w.fs.activeIndexSector + 1) * w.fs.sectorSize) w.dev.mem m
  header : headerAt m (nextIndexSector w.fs w.fs.activeIndexSector * w.fs.sectorSize) = none

theorem Uncommitted.keepsIndex (hm : Uncommitted w m) (h : IndexState w logs) : KeepsIndex w m := by
  obtain ⟨hsame, hnone⟩ := hm
  have hr := h.ring
  have hp := h.placed
  have hS := hp.size
  have hnew := hp.next_logical
  have hlt : w.fs.indexSequenceCount < w.fs.indexSectors := hr.count_lt
  have hserial := hr.next_serialAt
  generalize nextIndexSector w.fs w.fs.activeIndexSector = new at hsame hnone hnew hserial
  have hnewlt : new < w.fs.indexSectors := hnew ▸ logicalIndexSector_lt hp.sectors_pos _
  -- the bytes of another sector
  have hother : ∀ s, s ≠ new → ∀ i, s * w.fs.sectorSize ≤ i → i < (s + 1) * w.fs.sectorSize →
      Nor.get m i = Nor.get w.dev.mem i := by
    intro s hs i h1 h2
    refine hsame.get i ?_
    rw [Nat.add_mul, Nat.one_mul] at h2 ⊢
    rcases Nat.lt_or_gt_of_ne hs with hlt | hgt
    · have hmul := sector_mul_le w.fs.sectorSize hlt
      omega
    · have hmul := sector_mul_le w.fs.sectorSize hgt
      omega
  refine ⟨hsame.size, fun i hi => ?_, fun k hk i h1 h2 => ?_,
    fun i hi => hsame.data hnewlt le_rfl hi⟩
  · by_cases hin : i = new
    · rw [hin, hserial, ← hr.sectorSize_eq, hnone]
      rfl
    · have hread : headerAt m (i * sectorSizeOf w.fs.sectorShift) =
          headerAt w.dev.mem (i * sectorSizeOf w.fs.sectorShift) := by
        rw [headerAt, headerAt, ← hr.sectorSize_eq, Nor.read_congr]
        intro a h1 h2
        refine hother i hin a h1 ?_
        rw [Nat.add_mul, Nat.one_mul]
        rw [headerSize] at h2
        omega
      rw [hread]
      exact hr.headersOf i hi
  · refine hother (logicalIndexSector w.fs k) ?_ i ?_ h2
    · rw [hnew]
      intro heq
      have := logicalIndexSector_inj (hk.trans hlt) hlt heq
      omega
    · rw [logBegin, indexSectorBegin] at h1
      omega

omit [Opts] in
/-- The lifecycle byte of the oldest sector. -/
theorem Ring.oldest_flag {v : World} (hr : Ring False v) :
    Nor.get v.dev.mem (v.fs.oldestIndexSector * v.fs.sectorSize + 7) = indexFlagsValid := by
  have hplace : v.fs.ring.place v.fs.ring.oldest = 0 := by
    rw [IndexRing.place, if_pos le_rfl, Nat.sub_self]
  have hhdr := hr.headersOf v.fs.ring.oldest hr.wf.oldest_lt
  rw [IndexRing.serialAt_of_lt (hplace ▸ hr.wf.count_pos), ← hr.sectorSize_eq] at hhdr
  exact headerAt_flags hhdr

/-- A mount of the flash `m` restores a log with the map of `logs`. -/
def Recovers (w : World) (logs : List (List IndexRecord)) (m : Mem) : Prop :=
  ∃ v logs' seq, IndexState v logs' ∧ Restores m seq v ∧
    logMap logs'.flatten = logMap logs.flatten ∧
    v.dev.programGranule = w.dev.programGranule ∧ v.dev.size = w.dev.size ∧
    ∀ size, cacheFits size logs.flatten → cacheFits size logs'.flatten

omit [Opts] in
/-- The result of a run that returns, on any device. -/
theorem Honest.run_eq {α : Type} {x : M α} [hx : Honest x] {v v' : World} {a : α} {plan : List Fault}
    {r : Except Status α} {u : World} (hplan : v.dev.plan = []) (hrun : x.run v = (r, u))
    (h : x.run (v.withPlan plan) = (.ok a, v')) : r = .ok a ∧ v' = u.withPlan v'.dev.plan := by
  have hh := hx.honest h
  rw [World.withPlan_withPlan, World.withPlan_nil hplan, hrun] at hh
  obtain ⟨hr, hu⟩ := Prod.mk.inj hh
  refine ⟨hr, ?_⟩
  rw [hu]
  rfl

omit [Opts] in
/-- An erase that fails has happened, or it has not. -/
theorem backendErase_stops {e : Status} {off n : Nat} {v v' : World}
    (h : (backendErase off n).run v = (.error e, v')) :
    (v'.dev.mem = v.dev.mem ∨ v'.dev.mem = Nor.erase v.dev.mem off n) ∧ v'.fs = v.fs ∧
      v'.dev.programGranule = v.dev.programGranule := by
  obtain ⟨⟨m, g, plan⟩, fs, files, trace⟩ := v
  by_cases hle : off + n ≤ m.size
  · rcases plan with _ | ⟨fault, rest⟩
    · simp [backendErase, Device.erase, hle] at h
    · have hdone : ∀ done : Bool, (if done = true then
          ({ mem := Nor.erase m off n, programGranule := g, plan := Device.nextPlan (fault :: rest) } : Device)
          else { mem := m, programGranule := g, plan := Device.nextPlan (fault :: rest) }).mem = m ∨
          (if done = true then
          ({ mem := Nor.erase m off n, programGranule := g, plan := Device.nextPlan (fault :: rest) } : Device)
          else { mem := m, programGranule := g, plan := Device.nextPlan (fault :: rest) }).mem =
            Nor.erase m off n := by
        intro done
        cases done
        · exact .inl rfl
        · exact .inr rfl
      have hgranule : ∀ done : Bool, (if done = true then
          ({ mem := Nor.erase m off n, programGranule := g, plan := Device.nextPlan (fault :: rest) } : Device)
          else { mem := m, programGranule := g, plan := Device.nextPlan (fault :: rest) }).programGranule =
            g := by
        intro done
        cases done <;> rfl
      cases fault with
      | pass => simp [backendErase, Device.erase, hle] at h
      | fail keep done =>
        simp only [backendErase, Device.erase, if_pos hle] at h
        cases h
        exact ⟨hdone done, rfl, hgranule done⟩
      | cut keep done =>
        simp only [backendErase, Device.erase, if_pos hle] at h
        cases h
        exact ⟨hdone done, rfl, hgranule done⟩
      | off =>
        simp only [backendErase, Device.erase, if_pos hle] at h
        cases h
        exact ⟨.inl rfl, rfl, rfl⟩
  · simp only [backendErase, Device.erase, if_neg hle] at h
    cases h
    exact ⟨.inl rfl, rfl, rfl⟩

omit [Opts] in
/-- The erase at the beginning of a rotation, on any device. -/
theorem rotateIndexBegin_stops {e : Status} {v v' : World} {plan : List Fault}
    (h : rotateIndexBegin.run (v.withPlan plan) = (.error e, v')) :
    (v'.dev.mem = v.dev.mem ∨ v'.dev.mem = Nor.erase v.dev.mem
      (nextIndexSector v.fs v.fs.activeIndexSector * v.fs.sectorSize) v.fs.sectorSize) ∧
      v'.fs = v.fs ∧ v'.dev.programGranule = v.dev.programGranule := by
  rw [rotateIndexBegin, bind_of_ok (run_getFs _), bind_of_ok (run_note _ _)] at h
  rcases bind_error h with herase | ⟨_, v1, -, hmod⟩
  · have hstop := backendErase_stops herase
    exact hstop
  · cases hmod

omit [Opts] in
theorem get_of_read_blank {m : Mem} {off n : Nat} (h : Nor.read m off n = List.replicate n blank) {i : Nat}
    (h1 : off ≤ i) (h2 : i < off + n) : Nor.get m i = blank := by
  have hget := Nor.getD_read m off n (i - off) blank (by omega)
  rw [h, Nat.add_sub_cancel' h1, List.getD_eq_getElem?_getD,
    List.getElem?_replicate_of_lt (by omega), Option.getD_some] at hget
  exact hget.symm

theorem Uncommitted.recovers (hm : Uncommitted w m) (h : IndexState w logs)
    (hno : noEarlierSequence m w.fs.sectorShift) : Recovers w logs m :=
  ⟨w, logs, _, h, h.restores (hm.keepsIndex h) hno, rfl, rfl, rfl, fun _ hf => hf⟩

omit [Opts] in
/-- The commit of a rotation, on any device, from a world `v` in which the header of the
new sector is blank. -/
theorem rotateIndexCommit_recovers {v : World} {plan : List Fault} (hr : Ring True v)
    (hA : v.fs.activeIndexSector = nextIndexSector w.fs w.fs.activeIndexSector)
    (hS : v.fs.sectorSize = w.fs.sectorSize)
    (hsame : SameOutside (nextIndexSector w.fs w.fs.activeIndexSector * w.fs.sectorSize)
      ((nextIndexSector w.fs w.fs.activeIndexSector + 1) * w.fs.sectorSize) w.dev.mem v.dev.mem) :
    ∃ u plan', (rotateIndexCommit.run (v.withPlan plan)).2 = u.withPlan plan' ∧ u.fs = v.fs ∧
      (u = headedWorld v ∨ (rotateIndexCommit.run (v.withPlan plan)).1.isOk = false ∧
        Uncommitted w u.dev.mem) := by
  have hsize := hr.sectorSize_ge
  obtain ⟨m, plan', hrun, hm⟩ := rotateIndexCommit_tears (v := v.withPlan plan) hr.granule_pos
    fun i h1 h2 => get_of_read_blank (hr.blank_of_pending trivial) h1 h2
  refine ⟨v.withMem m [], plan', hrun, rfl, ?_⟩
  rcases hm with rfl | ⟨herr, hout, hflag⟩
  · exact .inl rfl
  · right
    change SameOutside (v.fs.activeIndexSector * v.fs.sectorSize)
      (v.fs.activeIndexSector * v.fs.sectorSize + headerSize) v.dev.mem m at hout
    change Nor.get m (v.fs.activeIndexSector * v.fs.sectorSize + 7) = blank at hflag
    rw [hA, hS] at hout hflag
    refine ⟨herr, ?_, headerAt_blank hflag⟩
    refine hsame.trans (hout.mono le_rfl ?_)
    rw [Nat.add_mul, Nat.one_mul, headerSize]
    omega

/-- A rotation that stops at its erase. -/
theorem IndexState.begin_uncommitted (h : IndexState w logs) {v' : World} {e : Status} {plan : List Fault}
    (hrun : rotateIndexBegin.run (w.withPlan plan) = (.error e, v')) : Uncommitted w v'.dev.mem := by
  have hp := h.placed
  have hS := hp.size
  have hlt : nextIndexSector w.fs w.fs.activeIndexSector < w.fs.indexSectors := by
    rw [hp.next_logical]
    exact logicalIndexSector_lt hp.sectors_pos _
  obtain ⟨hmem | hmem, -⟩ := rotateIndexBegin_stops hrun
  · rw [hmem]
    exact ⟨SameOutside.refl _ _ _, h.ring.next_none hlt⟩
  · rw [hmem]
    refine ⟨rotatedWorld_outside, headerAt_blank ?_⟩
    rw [Nor.get_erase, if_pos (by omega)]

/-- A state of which the flash has come to its end. -/
theorem IndexState.recovers {v : World} {logs' : List (List IndexRecord)}
    (h' : IndexState v logs') (hmap : logMap logs'.flatten = logMap logs.flatten)
    (hgranule : v.dev.programGranule = w.dev.programGranule) (hsize : v.dev.size = w.dev.size)
    (hfits : ∀ size, cacheFits size logs.flatten → cacheFits size logs'.flatten)
    (hno : noEarlierSequence v.dev.mem v.fs.sectorShift) : Recovers w logs v.dev.mem :=
  ⟨v, logs', _, h', h'.restores h'.ring.keepsIndex hno, hmap, hgranule, hsize, hfits⟩

/-- The end of a rotation that leaves a spare sector. -/
theorem IndexState.commit_recovers (h : IndexState w logs)
    (hspare : w.fs.indexSequenceCount + 1 < w.fs.indexSectors) {plan : List Fault}
    (hno : noEarlierSequence (rotateIndexCommit.run ((rotatedWorld w).withPlan plan)).2.dev.mem
      w.fs.sectorShift) :
    Recovers w logs (rotateIndexCommit.run ((rotatedWorld w).withPlan plan)).2.dev.mem := by
  obtain ⟨-, hr, -⟩ := h.begun
  obtain ⟨-, hstate, -⟩ := h.rotate_spare hspare
  obtain ⟨u, plan', hrun, -, hu⟩ := rotateIndexCommit_recovers hr rfl rfl rotatedWorld_outside
  rw [hrun] at hno ⊢
  rcases hu with rfl | ⟨-, hu⟩
  · change Recovers w logs (headedWorld (rotatedWorld w)).dev.mem
    refine hstate.recovers ?_ rfl rfl (fun size hf => ?_) hno
    · rw [List.flatten_append, List.flatten_singleton, List.append_nil]
    · rw [List.flatten_append, List.flatten_singleton, List.append_nil]
      exact hf
  · exact hu.recovers h hno

/-- The end of a compaction, after the copies. -/
theorem CopiedWorld.commit_recovers {v : World} {rs0 cp : List IndexRecord}
    {mid : List (List IndexRecord)} (hv : CopiedWorld w v rs0 mid cp) (h : IndexState w (rs0 :: mid))
    (hfull : w.fs.indexSequenceCount + 1 = w.fs.indexSectors) {plan : List Fault}
    (hno : noEarlierSequence ((do
      rotateIndexCommit
      indexCompactOldestFinish w.fs.oldestIndexSector : M Unit).run (v.withPlan plan)).2.dev.mem
      w.fs.sectorShift) :
    Recovers w (rs0 :: mid) ((do
      rotateIndexCommit
      indexCompactOldestFinish w.fs.oldestIndexSector : M Unit).run (v.withPlan plan)).2.dev.mem := by
  have hA : v.fs.activeIndexSector = nextIndexSector w.fs w.fs.activeIndexSector := by rw [hv.fs]; rfl
  have hS : v.fs.sectorSize = w.fs.sectorSize := by rw [hv.fs]; rfl
  have hshift : v.fs.sectorShift = w.fs.sectorShift := by rw [hv.fs]; rfl
  have hO : v.fs.oldestIndexSector = w.fs.oldestIndexSector := by rw [hv.fs]; rfl
  have hsame : SameOutside (nextIndexSector w.fs w.fs.activeIndexSector * w.fs.sectorSize)
      ((nextIndexSector w.fs w.fs.activeIndexSector + 1) * w.fs.sectorSize) w.dev.mem v.dev.mem := by
    have hout := hv.outside
    rw [indexSectorBegin, hA, hS] at hout
    exact rotatedWorld_outside.trans (hout.mono (Nat.le_add_right _ _) le_rfl)
  obtain ⟨-, hr', hp', hlog'⟩ := hv.ring.committed hv.placed hv.log
  obtain ⟨-, hstate, -⟩ := hv.rotate h hfull
  have hringfull : (headedWorld v).fs.indexSequenceCount = (headedWorld v).fs.indexSectors := by
    change v.fs.indexSequenceCount = v.fs.indexSectors
    rw [hv.fs]
    exact (rotatedWorld_count h.ring.count_lt).trans hfull
  -- the ring is full, or the oldest sector is gone
  have hfullring : noEarlierSequence (headedWorld v).dev.mem w.fs.sectorShift →
      Recovers w (rs0 :: mid) (headedWorld v).dev.mem := fun hno =>
    ⟨droppedWorld (headedWorld v), _, _, hstate, hstate.restores_full hr' hringfull (hshift ▸ hno),
      hv.copies.logMap_eq, hv.granule, hv.outside.size, fun _ hf => hv.copies.cacheFits hf⟩
  have hdropped : noEarlierSequence (droppedWorld (headedWorld v)).dev.mem w.fs.sectorShift →
      Recovers w (rs0 :: mid) (droppedWorld (headedWorld v)).dev.mem := fun hno =>
    hstate.recovers hv.copies.logMap_eq hv.granule hv.outside.size
      (fun _ hf => hv.copies.cacheFits hf) (hshift ▸ hno)
  obtain ⟨u, plan', hu, -, hcases⟩ := @rotateIndexCommit_recovers _ _ plan hv.ring hA hS hsame
  rw [run_bind] at hno ⊢
  rcases hcommit : rotateIndexCommit.run (v.withPlan plan) with ⟨r, v2⟩
  rw [hcommit] at hno hu hcases
  cases r with
  | error e =>
    dsimp only at hno hu hcases ⊢
    rw [hu] at hno ⊢
    rcases hcases with rfl | ⟨-, hun⟩
    · exact hfullring hno
    · exact hun.recovers h hno
  | ok a =>
    rcases hcases with rfl | ⟨hok, -⟩
    · have hflag := hr'.oldest_flag
      change Nor.get (headedWorld v).dev.mem (v.fs.oldestIndexSector * v.fs.sectorSize + 7) = _ at hflag
      dsimp only at hno hu ⊢
      rw [hu] at hno ⊢
      rw [← hO] at hno ⊢
      rcases indexCompactOldestFinish_tears (v := (headedWorld v).withPlan plan') hflag with hmem | hmem
      · rw [hmem] at hno ⊢
        exact hfullring hno
      · rw [hmem] at hno ⊢
        exact hdropped hno
    · cases hok

/-- The end of a rotation that compacts the log. -/
theorem IndexState.compact_recovers (h : IndexState w logs)
    (hfull : w.fs.indexSequenceCount + 1 = w.fs.indexSectors) {plan : List Fault} :
    let x : M Unit := do
      let source ← indexCompactOldestCopy
      rotateIndexCommit
      indexCompactOldestFinish source
    noEarlierSequence (x.run ((rotatedWorld w).withPlan plan)).2.dev.mem w.fs.sectorShift →
      Recovers w logs (x.run ((rotatedWorld w).withPlan plan)).2.dev.mem := by
  intro x hno
  obtain ⟨-, hr, -⟩ := h.begun
  have hcount := rotatedWorld_count h.ring.count_lt
  obtain ⟨v, rs0, mid, cp, rfl, hv⟩ := h.copied hfull
  have hA : v.fs.activeIndexSector = nextIndexSector w.fs w.fs.activeIndexSector := by rw [hv.fs]; rfl
  have hS : v.fs.sectorSize = w.fs.sectorSize := by rw [hv.fs]; rfl
  -- the copies are in the new sector
  have hinside : ∀ {m'}, SameOutside (indexSectorBegin (rotatedWorld w).fs
      (rotatedWorld w).fs.activeIndexSector) (((rotatedWorld w).fs.activeIndexSector + 1) *
        (rotatedWorld w).fs.sectorSize) (rotatedWorld w).dev.mem m' →
      SameOutside (nextIndexSector w.fs w.fs.activeIndexSector * w.fs.sectorSize)
        ((nextIndexSector w.fs w.fs.activeIndexSector + 1) * w.fs.sectorSize) w.dev.mem m' :=
    fun hsame => rotatedWorld_outside.trans (hsame.mono (Nat.le_add_right _ _) le_rfl)
  change noEarlierSequence ((indexCompactOldestCopy >>= fun source => do
    rotateIndexCommit
    indexCompactOldestFinish source : M Unit).run ((rotatedWorld w).withPlan plan)).2.dev.mem _ at hno
  change Recovers w (rs0 :: mid) ((indexCompactOldestCopy >>= fun source => do
    rotateIndexCommit
    indexCompactOldestFinish source : M Unit).run ((rotatedWorld w).withPlan plan)).2.dev.mem
  rw [run_bind] at hno ⊢
  rcases hcopy : indexCompactOldestCopy.run ((rotatedWorld w).withPlan plan) with ⟨r1, v1⟩
  rw [hcopy] at hno
  cases r1 with
  | error e =>
    have hstop := indexCompactOldestCopy_stops (v := (rotatedWorld w).withPlan plan) { hr with }
      (hcount.trans hfull) hcopy
    refine Uncommitted.recovers ⟨hinside hstop.outside, headerAt_blank ?_⟩ h hno
    dsimp only
    have hget := hstop.outside.get
      (nextIndexSector w.fs w.fs.activeIndexSector * w.fs.sectorSize + 7) (.inl (Nat.lt_succ_self _))
    exact hget.trans (get_of_read_blank (hr.blank_of_pending trivial) (Nat.le_add_right _ _)
      (Nat.lt_succ_self _))
  | ok source =>
    have hplan : (rotatedWorld w).dev.plan = [] := h.works.plan
    obtain ⟨hsource, hv1⟩ := Honest.run_eq hplan hv.run hcopy
    cases hsource
    dsimp only at hno ⊢
    rw [hv1] at hno ⊢
    exact hv.commit_recovers h hfull hno

/-- Whatever happens in a rotation, the log can be restored. -/
theorem IndexState.rotateIndex_recovers (h : IndexState w logs) (plan : List Fault)
    (hno : noEarlierSequence (rotateIndex.run (w.withPlan plan)).2.dev.mem w.fs.sectorShift) :
    Recovers w logs (rotateIndex.run (w.withPlan plan)).2.dev.mem := by
  obtain ⟨hbegin, -⟩ := h.begun
  have hcount := rotatedWorld_count h.ring.count_lt
  have hlt := h.ring.count_lt
  rw [rotateIndex, run_bind] at hno ⊢
  rcases hrun0 : rotateIndexBegin.run (w.withPlan plan) with ⟨r0, v0⟩
  rw [hrun0] at hno
  cases r0 with
  | error e => exact (h.begin_uncommitted hrun0).recovers h hno
  | ok a =>
    obtain ⟨-, hv0⟩ := Honest.run_eq h.works.plan hbegin hrun0
    dsimp only at hno ⊢
    rw [hv0, bind_of_ok (run_getFs _)] at hno ⊢
    by_cases hfull : w.fs.indexSequenceCount + 1 = w.fs.indexSectors
    · rw [if_pos (show ((rotatedWorld w).withPlan v0.dev.plan).fs.indexSequenceCount =
        ((rotatedWorld w).withPlan v0.dev.plan).fs.indexSectors from hcount.trans hfull)] at hno ⊢
      exact h.compact_recovers hfull hno
    · rw [if_neg (show ¬ ((rotatedWorld w).withPlan v0.dev.plan).fs.indexSequenceCount =
        ((rotatedWorld w).withPlan v0.dev.plan).fs.indexSectors from
          fun heq => hfull (hcount.symm.trans heq))] at hno ⊢
      exact h.commit_recovers (by omega) hno

/-- The log that a mount restores. -/
theorem Recovers.mount {x : World} {o : MountOptions} (hm : Recovers w logs x.dev.mem)
    (hplan : x.dev.plan = []) (hgranule : x.dev.programGranule = w.dev.programGranule)
    (hok : mountOptionsOk w o) (hfits : cacheFits o.indexHashTableSize logs.flatten) :
    ∃ w' logs', (mount o).run x = (.ok (), w') ∧ IndexState w' logs' ∧
      logMap logs'.flatten = logMap logs.flatten := by
  obtain ⟨v, logs', seq, hv, hrestores, hmap, hg, hsize, hsub⟩ := hm
  have hx : x.dev.size = w.dev.size := hrestores.size.trans hsize
  have hok' : mountOptionsOk x o := by
    obtain ⟨h1, h2, h3⟩ := hok
    refine ⟨?_, h2, h3⟩
    rw [validBackend] at h1 ⊢
    rw [hx, hgranule]
    exact h1
  obtain ⟨w', hrun, hw'⟩ := hv.mount_run hplan (hgranule.trans hg.symm) hrestores hok' (hsub _ hfits)
  exact ⟨w', logs', hrun, hw', hmap⟩

/-- The flash after a rotation on a device with the plan `plan`, in a world that starts
anew. -/
def afterRotation (w : World) (plan : List Fault) : World :=
  w.withMem (rotateIndex.run (w.withPlan plan)).2.dev.mem []

/-- A rotation leaves the map of the log as it was, in the cache and for a mount.  It may
stop at any call of the device, and the mount restores the map if no other sector size
leads to a sequence. -/
theorem rotation_keeps_map {o : MountOptions} (h : IndexState w logs) (hok : mountOptionsOk w o)
    (hfits : cacheFits o.indexHashTableSize logs.flatten) :
    (∃ w', rotateIndex.run w = (.ok (), w') ∧ slotHead w' = slotHead w) ∧
      ∀ plan, noEarlierSequence (afterRotation w plan).dev.mem w.fs.sectorShift →
        ∃ w', (mount o).run (afterRotation w plan) = (.ok (), w') ∧ slotHead w' = slotHead w := by
  constructor
  · obtain ⟨w', logs', hrun, hw', hmap, -⟩ := h.rotateIndex_run
    exact ⟨w', hrun, h.slotHead_eq hw' hmap⟩
  · intro plan hno
    have hrecovers : Recovers w logs (afterRotation w plan).dev.mem := h.rotateIndex_recovers plan hno
    obtain ⟨w', logs', hrun, hw', hmap⟩ := hrecovers.mount rfl rfl hok hfits
    exact ⟨w', hrun, h.slotHead_eq hw' hmap⟩

/-- The modes of a build without an index cache. -/
@[reducible] def noCacheOpts : Opts := { defaultOpts with indexCacheMode := .none }

/-- A chip of eight sectors with one file. -/
def storedFile (data : List Byte) : World :=
  [.openFile 0 [97#8] writeFlags, .write 0 data, .close 0].foldl (@stepOp noCacheOpts)
    ((@mount noCacheOpts smallMount).run (formattedChip 8 2)).2

omit [Opts] in
/-- A rotation that loses power between the copy of the record and the header of the new
sector. -/
theorem rotation_keeps_map_cut :
    let w := storedFile [1#8]
    let plan := cutAfter 6 (fun _ => blank) false
    (@afterRotation noCacheOpts w plan).dev.mem ≠ w.dev.mem ∧
      ∃ w', (@mount noCacheOpts smallMount).run (@afterRotation noCacheOpts w plan) = (.ok (), w') ∧
        @slotHead noCacheOpts w' = @slotHead noCacheOpts w := by
  intro w plan
  have hstate : @IndexState noCacheOpts w [[⟨52512, 7⟩]] :=
    (@indexState_iff noCacheOpts w _ rfl).mpr (by decide +kernel)
  refine ⟨by decide +kernel, ?_⟩
  exact (@rotation_keeps_map noCacheOpts w _ smallMount hstate (by decide +kernel)
    fun hhash => nomatch hhash).2 plan (by decide +kernel)

/-- The bytes of a file that put an index sector header of 512-byte sectors at the
beginning of the first data sector. -/
def decoyData : List Byte :=
  List.replicate 227 blank ++ ((encodeIndexHeader 2 1 0).take 7 ++ [indexFlagsValid])

omit [Opts] in
/-- A rotation frees sector `0`, and the mount after it takes the bytes of a file for an
index sector. -/
theorem rotation_loses_map :
    ¬ ∀ [Opts] (w : World) (logs : List (List IndexRecord)) (o : MountOptions) (plan : List Fault),
      IndexState w logs → mountOptionsOk w o → o.strict = false →
      cacheFits o.indexHashTableSize logs.flatten →
      ∃ w', (mount o).run (afterRotation w plan) = (.ok (), w') ∧ slotHead w' = slotHead w := by
  intro hall
  have hstate : @IndexState noCacheOpts (storedFile decoyData) [[⟨52512, 7⟩]] :=
    (@indexState_iff noCacheOpts _ _ rfl).mpr (by decide +kernel)
  obtain ⟨w', hrun, hsame⟩ := @hall noCacheOpts _ _ smallMount [] hstate (by decide +kernel) rfl
    fun hhash => nomatch hhash
  have hlost : (@slotHead noCacheOpts ((@mount noCacheOpts smallMount).run
      (@afterRotation noCacheOpts (storedFile decoyData) [])).2 52512).toOption ≠
        (@slotHead noCacheOpts (storedFile decoyData) 52512).toOption := by
    decide +kernel
  rw [hrun] at hlost
  exact hlost (congrArg Except.toOption (congrFun hsame 52512))

end Image

end Fastffs
