import Fastffs.FlashSpec
import Fastffs.SerialRing

/-!
# The index sectors on the flash

Every sector of the running sequence carries a header with its serial number, and
no other index sector carries one.  Appending, rotating and compacting keep it so,
whatever the plan of the device does to the calls that fail.

During a rotation the new active sector is blank until its header is programmed.
The first argument of `Ring` says that a rotation is pending in this way.
-/

namespace Fastffs

open Prog
open Nor (Mem Byte blank)

/-- The ring of a mounted file system. -/
def Fs.ring (fs : Fs) : IndexRing where
  sectors := fs.indexSectors
  oldest := fs.oldestIndexSector
  count := fs.indexSequenceCount
  serial := fs.activeIndexSerial

/-! ## The invariant -/

/-- The flash holds the ring of the mounted file system. -/
structure Ring (pending : Prop) (w : World) : Prop where
  wf : w.fs.ring.Wf
  active_eq : w.fs.activeIndexSector = w.fs.ring.active
  shift_le : w.fs.sectorShift ≤ maxSectorShift
  sectorSize_eq : w.fs.sectorSize = sectorSizeOf w.fs.sectorShift
  fits : w.fs.indexSectors * w.fs.sectorSize ≤ w.dev.size
  aligned : w.dev.size % w.fs.sectorSize = 0
  granule_pos : 0 < w.dev.programGranule
  next_ge : w.fs.activeIndexSector * w.fs.sectorSize + headerSize ≤ w.fs.nextIndexOffset
  blank_of_pending : pending →
    Nor.read w.dev.mem (w.fs.activeIndexSector * w.fs.sectorSize) headerSize =
      List.replicate headerSize blank
  headers : ∀ i < w.fs.indexSectors, (pending → i ≠ w.fs.activeIndexSector) →
    validIndexHeader (Nor.read w.dev.mem (i * w.fs.sectorSize) headerSize) =
      (w.fs.ring.serialAt i).map fun serial => ⟨w.fs.indexSectors, w.fs.sectorShift, serial⟩

variable {w w' : World} {pending : Prop}

instance : CacheInv (Ring pending) where
  ofRead := fun hr => { hr with }
  ofCache := fun hr => { hr with }

theorem sectorSizeOf_ge (shift : Nat) : 256 ≤ sectorSizeOf shift :=
  Nat.le_mul_of_pos_right 256 (Nat.two_pow_pos shift)

theorem Ring.sectorSize_ge (hr : Ring pending w) : 256 ≤ w.fs.sectorSize :=
  hr.sectorSize_eq ▸ sectorSizeOf_ge _

theorem Ring.active_lt (hr : Ring pending w) : w.fs.activeIndexSector < w.fs.indexSectors :=
  hr.active_eq ▸ hr.wf.active_lt

/-- Two sectors do not meet. -/
theorem sector_mul_le {i j : Nat} (size : Nat) (h : i < j) : i * size + size ≤ j * size := by
  have hmul := Nat.mul_le_mul_right size (Nat.succ_le_of_lt h)
  rwa [Nat.succ_mul] at hmul

/-- A change of the flash outside the headers. -/
theorem Ring.ofBecomes {m : Mem} (hr : Ring pending w) (hb : w.Becomes m w')
    (hsize : m.size = w.dev.mem.size)
    (hget : ∀ i < w.fs.indexSectors, ∀ a, i * w.fs.sectorSize ≤ a →
      a < i * w.fs.sectorSize + headerSize → Nor.get m a = Nor.get w.dev.mem a) :
    Ring pending w' := by
  obtain ⟨plan, rfl, -⟩ := hb
  have hread : ∀ i < w.fs.indexSectors, Nor.read m (i * w.fs.sectorSize) headerSize =
      Nor.read w.dev.mem (i * w.fs.sectorSize) headerSize :=
    fun i hi => Nor.read_congr fun a h1 h2 => hget i hi a h1 h2
  exact { hr with
    fits := hr.fits.trans_eq hsize.symm
    aligned := (congrArg (· % w.fs.sectorSize) hsize).trans hr.aligned
    blank_of_pending := fun hp => (hread _ (hr.active_lt)).trans (hr.blank_of_pending hp)
    headers := fun i hi hne => (congrArg _ (hread i hi)).trans (hr.headers i hi hne) }

/-- Programming inside the record area of the active sector. -/
theorem Ring.programRecords {off : Nat} {bs : List Byte} (hr : Ring pending w)
    (hle : w.fs.activeIndexSector * w.fs.sectorSize + headerSize ≤ off)
    (hend : off + bs.length ≤ (w.fs.activeIndexSector + 1) * w.fs.sectorSize)
    (h : (programAligned off bs).run w = (.ok (), w')) :
    Ring pending w' ∧ w'.fs = w.fs := by
  have hb := programAligned_ok hr.granule_pos h
  refine ⟨hr.ofBecomes hb rfl ?_, hb.fs⟩
  intro i hi a h1 h2
  apply Nor.get_program_of_notMem
  have hS := hr.sectorSize_ge
  simp only [headerSize] at hle h2
  rw [Nat.add_mul, Nat.one_mul] at hend
  rcases Nat.lt_trichotomy i w.fs.activeIndexSector with hlt | rfl | hgt
  · have := sector_mul_le w.fs.sectorSize hlt
    omega
  · omega
  · have := sector_mul_le w.fs.sectorSize hgt
    omega

/-! ## Appending -/

theorem length_storeLe16 (n : Nat) : (storeLe16 n).length = 2 := rfl

/-- A record at the end of the log. -/
theorem appendIndexAtEnd_ring {slot head : Nat} (hr : Ring pending w)
    (hroom : indexSectorIsFull w.fs = false)
    (h : (appendIndexAtEnd slot head).run w = (.ok (), w')) :
    Ring pending w' ∧ w'.fs.ring = w.fs.ring := by
  simp only [indexSectorIsFull, decide_eq_false_iff_not, not_lt] at hroom
  rw [appendIndexAtEnd, bind_of_ok (run_getFs w)] at h
  obtain ⟨_, w2, hrec, h⟩ := bind_ok h
  obtain ⟨_, w1, hslot, hhead⟩ := bind_ok hrec
  have hnext := hr.next_ge
  obtain ⟨hr1, hfs1⟩ := hr.programRecords hnext (by rw [length_storeLe16]; omega) hslot
  obtain ⟨hr2, hfs2⟩ := hr1.programRecords (by rw [hfs1]; omega)
    (by rw [length_storeLe16, hfs1]; omega) hhead
  have hfs : w2.fs = w.fs := hfs2.trans hfs1
  simp only [run_modifyFs, Prod.mk.injEq, true_and] at h
  subst h
  refine ⟨{ hr2 with next_ge := ?_ }, ?_⟩
  · have hge := hr2.next_ge
    dsimp only
    omega
  · exact (show _ = w2.fs.ring from rfl).trans (congrArg Fs.ring hfs)

/-! ## Rotating -/

/-- Erasing a sector leaves the headers of the others. -/
theorem read_header_erase {m : Mem} {i j size : Nat} (hsize : headerSize ≤ size) (hne : i ≠ j) :
    Nor.read (Nor.erase m (j * size) size) (i * size) headerSize =
      Nor.read m (i * size) headerSize := by
  apply Nor.read_congr
  intro a h1 h2
  rw [Nor.get_erase, if_neg]
  rcases Nat.lt_or_gt_of_ne hne with hlt | hgt
  · have := sector_mul_le size hlt
    omega
  · have := sector_mul_le size hgt
    omega

/-- An erased sector has a blank header. -/
theorem read_header_erased {m : Mem} {i size : Nat} (hsize : headerSize ≤ size) :
    Nor.read (Nor.erase m (i * size) size) (i * size) headerSize =
      List.replicate headerSize blank := by
  apply Nor.read_eq_blanks
  intro a h1 h2
  rw [Nor.get_erase, if_pos (by omega)]

/-- The new sector of a rotation is erased, and it is the last one of the run. -/
theorem rotateIndexBegin_ring (hr : Ring False w) (hcount : w.fs.indexSequenceCount < w.fs.indexSectors)
    (h : rotateIndexBegin.run w = (.ok (), w')) :
    Ring True w' ∧ w'.fs.ring = w.fs.ring.grow ∧ indexSectorIsFull w'.fs = false := by
  rw [rotateIndexBegin, bind_of_ok (run_getFs w), bind_of_ok (run_note _ w)] at h
  obtain ⟨_, w1, herase, h⟩ := bind_ok h
  have hnew : (if w.fs.activeIndexSector + 1 ≥ w.fs.indexSectors then 0
      else w.fs.activeIndexSector + 1) = w.fs.ring.grow.active := by
    rw [hr.active_eq]
    exact (hr.wf.active_grow hcount).symm
  rw [hnew] at herase h
  obtain ⟨⟨plan, rfl, -⟩, -⟩ := backendErase_ok herase
  simp only [run_modifyFs, Prod.mk.injEq, true_and] at h
  have hS := hr.sectorSize_ge
  have hlt := (hr.wf.grow hcount).active_lt
  have hring : w'.fs.ring = w.fs.ring.grow := by
    rw [← h]
    exact congrArg (fun c => IndexRing.mk _ _ c _) (if_pos hcount)
  have hfull : indexSectorIsFull w'.fs = false := by
    rw [← h]
    simp only [indexSectorIsFull, rotatedFs, World.withMem, decide_eq_false_iff_not, not_lt, headerSize,
      Nat.add_mul]
    omega
  refine ⟨?_, hring, hfull⟩
  have hwf : w'.fs.ring.Wf := hring ▸ hr.wf.grow hcount
  subst h
  exact {
    wf := hwf
    active_eq := (congrArg IndexRing.active hring).symm
    shift_le := hr.shift_le
    sectorSize_eq := hr.sectorSize_eq
    fits := hr.fits
    aligned := hr.aligned
    granule_pos := hr.granule_pos
    next_ge := le_rfl
    blank_of_pending := fun _ => read_header_erased (by rw [headerSize]; omega)
    headers := by
      intro i hi hne
      have hine : i ≠ w.fs.ring.grow.active := hne trivial
      rw [hring, hr.wf.serialAt_grow hcount hi hine]
      exact (congrArg _ (read_header_erase (by rw [headerSize]; omega) hine)).trans
        (hr.headers i hi fun hf => hf.elim) }

/-- A header that has been programmed is valid. -/
theorem validIndexHeader_encode {n shift serial : Nat} (hn : 2 ≤ n) (hn' : n ≤ 15)
    (hshift : shift ≤ maxSectorShift) (hserial : serial < 16) :
    validIndexHeader ((encodeIndexHeader n shift serial).take 7 ++ [indexFlagsValid]) =
      some ⟨n, shift, serial⟩ := by
  have h5 : (byte (n * 16 + serial % 16)).toNat = n * 16 + serial := by
    rw [byte, BitVec.toNat_ofNat]
    omega
  have h6 : (byte shift).toNat = shift := by
    rw [maxSectorShift] at hshift
    rw [byte, BitVec.toNat_ofNat]
    omega
  simp only [validIndexHeader, encodeIndexHeader, indexMagic, List.cons_append, List.nil_append,
    List.take_succ_cons, List.take_zero, byteAt, List.getD_cons_succ, List.getD_cons_zero, h5, h6]
  rw [if_neg (by decide), if_neg (by decide), if_neg (by omega), if_neg (by omega)]
  simp only [Option.some.injEq, IndexHeader.mk.injEq, true_and]
  omega

/-- Programming a header over a blank one. -/
theorem read_programIndexHeader {m : Mem} {off : Nat} (n shift serial : Nat)
    (hblank : Nor.read m off headerSize = List.replicate headerSize blank) :
    Nor.read (Nor.program (Nor.program m off (encodeIndexHeader n shift serial)) (off + 7)
      [indexFlagsValid]) off headerSize =
      (encodeIndexHeader n shift serial).take 7 ++ [indexFlagsValid] := by
  have hbody := Nor.read_program_blank hblank (encodeIndexHeader n shift serial) rfl
  have hsplit : ∀ m' : Mem, Nor.read m' off headerSize = Nor.read m' off 7 ++ [Nor.get m' (off + 7)] :=
    fun m' => Nor.read_append m' off 7 1
  rw [hsplit] at hbody ⊢
  have hlast : Nor.get (Nor.program m off (encodeIndexHeader n shift serial)) (off + 7) = blank := by
    have h7 := congrArg List.getLast? hbody
    simpa [encodeIndexHeader, indexMagic] using h7
  have htake := congrArg (List.take 7) hbody
  rw [List.take_left' (Nor.length_read ..)] at htake
  rw [Nor.read_program_of_disjoint (by omega), htake, Nor.get_program_blank le_rfl hlast]
  simp

/-- The header of the new sector. -/
theorem rotateIndexCommit_ring (hr : Ring True w) (h : rotateIndexCommit.run w = (.ok (), w')) :
    Ring False w' ∧ w'.fs = w.fs := by
  rw [rotateIndexCommit, bind_of_ok (run_getFs w), programIndexHeader] at h
  obtain ⟨_, w1, hbody, hflags⟩ := bind_ok h
  have hb1 := programAligned_ok hr.granule_pos hbody
  have hb2 := programAligned_ok (by obtain ⟨plan, rfl, -⟩ := hb1; exact hr.granule_pos) hflags
  have hb := hb1.trans hb2
  rw [hb1.mem] at hb
  generalize hoff : w.fs.activeIndexSector * w.fs.sectorSize = off at hb
  have hS := hr.sectorSize_ge
  have hread := read_programIndexHeader w.fs.indexSectors w.fs.sectorShift
    w.fs.activeIndexSerial (hoff ▸ hr.blank_of_pending trivial)
  have hother : ∀ i, i ≠ w.fs.activeIndexSector →
      Nor.read (Nor.program (Nor.program w.dev.mem off (encodeIndexHeader w.fs.indexSectors
        w.fs.sectorShift w.fs.activeIndexSerial)) (off + 7) [indexFlagsValid])
        (i * w.fs.sectorSize) headerSize = Nor.read w.dev.mem (i * w.fs.sectorSize) headerSize := by
    intro i hne
    have hdis : i * w.fs.sectorSize + headerSize ≤ off ∨ off + headerSize ≤ i * w.fs.sectorSize := by
      rw [← hoff, headerSize]
      rcases Nat.lt_or_gt_of_ne hne with hlt | hgt
      · have := sector_mul_le w.fs.sectorSize hlt
        omega
      · have := sector_mul_le w.fs.sectorSize hgt
        omega
    simp only [headerSize] at hdis
    rw [Nor.read_program_of_disjoint, Nor.read_program_of_disjoint]
    · simp only [encodeIndexHeader, indexMagic, headerSize, List.length_append, List.length_cons,
        List.length_nil]
      omega
    · simp only [headerSize, List.length_cons, List.length_nil]
      omega
  refine ⟨?_, hb.fs⟩
  obtain ⟨plan, rfl, -⟩ := hb
  exact { hr with
    blank_of_pending := fun hf => hf.elim
    headers := by
      intro i hi _
      change validIndexHeader (Nor.read _ (i * w.fs.sectorSize) headerSize) = _
      by_cases hne : i = w.fs.activeIndexSector
      · have hat : w.fs.ring.serialAt i = some w.fs.activeIndexSerial := by
          have hplace : w.fs.ring.place i = w.fs.ring.count - 1 := by
            rw [hne, hr.active_eq]
            exact hr.wf.place_active
          have hpos := hr.wf.count_pos
          rw [IndexRing.serialAt_of_lt (by omega), hplace, hr.wf.serialOf_last]
          rfl
        rw [hne, hoff]
        rw [hne] at hat
        exact (congrArg validIndexHeader hread).trans ((validIndexHeader_encode hr.wf.sectors_ge
          hr.wf.sectors_le hr.shift_le hr.wf.serial_lt).trans (congrArg (Option.map _) hat).symm)
      · exact (congrArg validIndexHeader (hother i hne)).trans (hr.headers i hi fun _ => hne) }

/-! ## Compacting -/

/-- A header with the tombstone bit clear is not valid. -/
theorem validIndexHeader_tombstoned {hdr : List Byte} (h : byteAt hdr 7 &&& 0x40#8 = 0#8) :
    validIndexHeader hdr = none := by
  unfold validIndexHeader
  split
  · rfl
  · rw [if_pos (.inr (.inl h))]

/-- The header of the oldest sector is tombstoned, and the run starts after it. -/
theorem indexCompactOldestFinish_ring (hr : Ring False w) (hge : 2 ≤ w.fs.indexSequenceCount)
    (h : (indexCompactOldestFinish w.fs.oldestIndexSector).run w = (.ok (), w')) :
    Ring False w' ∧ w'.fs.ring = w.fs.ring.drop := by
  obtain ⟨_, w1, htomb, h⟩ := bind_ok h
  rw [tombstoneIndexSector, bind_of_ok (run_getFs w)] at htomb
  have hb := programAligned_ok hr.granule_pos htomb
  generalize hoff : w.fs.oldestIndexSector * w.fs.sectorSize = off at hb
  have hS := hr.sectorSize_ge
  have hring : w'.fs.ring = w.fs.ring.drop := by
    simp only [run_modifyFs, Prod.mk.injEq, true_and] at h
    rw [← h, ← hb.fs]
    have hold := hr.wf.oldest_lt
    have hmod : (w1.fs.oldestIndexSector + 1) % w1.fs.indexSectors =
        if w1.fs.oldestIndexSector + 1 = w1.fs.indexSectors then 0
        else w1.fs.oldestIndexSector + 1 := by
      rw [hb.fs]
      change w.fs.oldestIndexSector < w.fs.indexSectors at hold
      split
      · next heq => rw [heq, Nat.mod_self]
      · exact Nat.mod_eq_of_lt (by omega)
    exact congrArg (fun o => IndexRing.mk _ o _ _) hmod
  refine ⟨?_, hring⟩
  have hwf : w'.fs.ring.Wf := hring ▸ hr.wf.drop hge
  have hact : w'.fs.ring.active = w.fs.ring.active := hring ▸ hr.wf.active_drop hge
  have hold : Nor.read (Nor.program w.dev.mem (off + 7) [indexFlagsValid &&& ~~~0x40#8]) off
      headerSize = Nor.read w.dev.mem off 7 ++
        [Nor.get w.dev.mem (off + 7) &&& (indexFlagsValid &&& ~~~0x40#8)] := by
    refine (Nor.read_append _ off 7 1).trans ?_
    rw [Nor.read_program_of_disjoint (by omega)]
    simp [Nor.read, Nor.get_program]
  have hother : ∀ i, i ≠ w.fs.oldestIndexSector →
      Nor.read (Nor.program w.dev.mem (off + 7) [indexFlagsValid &&& ~~~0x40#8])
        (i * w.fs.sectorSize) headerSize = Nor.read w.dev.mem (i * w.fs.sectorSize) headerSize := by
    intro i hne
    apply Nor.read_program_of_disjoint
    rw [← hoff, headerSize, List.length_singleton]
    rcases Nat.lt_or_gt_of_ne hne with hlt | hgt
    · have := sector_mul_le w.fs.sectorSize hlt
      omega
    · have := sector_mul_le w.fs.sectorSize hgt
      omega
  obtain ⟨plan, rfl, -⟩ := hb
  simp only [run_modifyFs, Prod.mk.injEq, true_and] at h
  subst h
  exact { hr with
    wf := hwf
    active_eq := hr.active_eq.trans hact.symm
    blank_of_pending := fun hf => hf.elim
    headers := by
      intro i hi _
      rw [hring, hr.wf.serialAt_drop hge hi]
      change validIndexHeader (Nor.read _ (i * w.fs.sectorSize) headerSize) = _
      by_cases hne : i = w.fs.oldestIndexSector
      · have hnone : validIndexHeader (Nor.read w.dev.mem off 7 ++
            [Nor.get w.dev.mem (off + 7) &&& (indexFlagsValid &&& ~~~0x40#8)]) = none := by
          apply validIndexHeader_tombstoned
          have h7 : byteAt (Nor.read w.dev.mem off 7 ++
              [Nor.get w.dev.mem (off + 7) &&& (indexFlagsValid &&& ~~~0x40#8)]) 7 =
              Nor.get w.dev.mem (off + 7) &&& (indexFlagsValid &&& ~~~0x40#8) := by
            rw [byteAt, List.getD_eq_getElem?_getD, List.getElem?_append_right (by simp)]
            simp
          rw [h7, BitVec.and_assoc]
          have hz : indexFlagsValid &&& ~~~0x40#8 &&& 0x40#8 = 0#8 := by decide
          rw [hz, BitVec.and_zero]
        rw [if_pos (show i = w.fs.ring.oldest from hne), hne, hoff]
        exact (congrArg validIndexHeader hold).trans hnone
      · rw [if_neg (show i ≠ w.fs.ring.oldest from hne)]
        exact (congrArg validIndexHeader (hother i hne)).trans (hr.headers i hi fun hf => hf.elim) }

/-- The flash holds the ring `r`. -/
def RingIs (pending : Prop) (r : IndexRing) (w : World) : Prop := Ring pending w ∧ w.fs.ring = r

instance {r : IndexRing} : CacheInv (RingIs pending r) where
  ofRead := fun h => ⟨ReadInv.ofRead h.1, h.2⟩
  ofCache := fun h => ⟨CacheInv.ofCache h.1, h.2⟩

/-- A program that only reads keeps the ring. -/
theorem RingIs.ofRun {α : Type} {x : M α} {a : α} {r : IndexRing} (hr : RingIs pending r w)
    [hx : Keeps (RingIs pending r) x] (h : x.run w = (.ok a, w')) : RingIs pending r w' := by
  have h1 := hx.keeps w hr
  rwa [h] at h1

/-- What a writer of index records has done to the run: nothing, or it has begun a
rotation.  `rotating` is a rotation begun by the caller, who has left no sector of
the ring free. -/
def Copied (rotating : Prop) (p p' : Bool) (r : IndexRing) (w : World) : Prop :=
  p' = p ∧ RingIs (p = true ∨ rotating) r w ∨
    p = false ∧ p' = true ∧ r.count < r.sectors ∧ RingIs True r.grow w

theorem indexRecordWriterAppend_ring {rotating : Prop} {p p' : Bool} {slot head : Nat}
    {r : IndexRing} (hr : RingIs (p = true ∨ rotating) r w) (hrot : rotating → r.sectors ≤ r.count)
    (h : (indexRecordWriterAppend p slot head).run w = (.ok p', w')) : Copied rotating p p' r w' := by
  obtain ⟨hr, rfl⟩ := hr
  obtain ⟨p1, w1, hroom, hrest⟩ := bind_ok h
  obtain ⟨_, w2, happend, hret⟩ := bind_ok hrest
  simp only [run_pure, Prod.mk.injEq, Except.ok.injEq] at hret
  obtain ⟨rfl, rfl⟩ := hret
  rw [indexRecordWriterRoom, bind_of_ok (run_getFs w)] at hroom
  split at hroom
  · split at hroom
    · simp at hroom
    · next hguard =>
      simp only [not_or, Bool.not_eq_true, not_le] at hguard
      obtain ⟨_, w3, hbegin, hret⟩ := bind_ok hroom
      simp only [run_pure, Prod.mk.injEq, Except.ok.injEq] at hret
      obtain ⟨rfl, rfl⟩ := hret
      have hnot : ¬ rotating := fun hr => absurd hguard.2 (not_lt.mpr (hrot hr))
      have hr0 : Ring False w := by simpa [hguard.1, hnot] using hr
      obtain ⟨hr1, hring1, hfull⟩ := rotateIndexBegin_ring hr0 hguard.2 hbegin
      obtain ⟨hr2, hring2⟩ := appendIndexAtEnd_ring hr1 hfull happend
      exact .inr ⟨hguard.1, rfl, hguard.2, hr2, hring2.trans hring1⟩
  · next hfull =>
    simp only [run_pure, Prod.mk.injEq, Except.ok.injEq] at hroom
    obtain ⟨rfl, rfl⟩ := hroom
    exact .inl ⟨rfl, appendIndexAtEnd_ring hr (Bool.not_eq_true _ ▸ hfull) happend⟩

variable [Opts]

theorem compactCopyLoop_ring (rotating : Prop) {sourceEnd fuel off : Nat} {reader : IndexRecordReader} {p p' : Bool}
    {r : IndexRing} (hr : RingIs (p = true ∨ rotating) r w) (hrot : rotating → r.sectors ≤ r.count)
    (h : (compactCopyLoop sourceEnd fuel reader off p).run w = (.ok p', w')) :
    Copied rotating p p' r w' := by
  induction fuel generalizing reader off p r w with
  | zero =>
    simp only [compactCopyLoop, run_pure, Prod.mk.injEq, Except.ok.injEq] at h
    obtain ⟨rfl, rfl⟩ := h
    exact .inl ⟨rfl, hr⟩
  | succ fuel ih =>
    unfold compactCopyLoop at h
    split at h
    · obtain ⟨rec, w1, hrec, h1⟩ := bind_ok h
      have hr1 := hr.ofRun hrec
      split at h1
      · simp only [run_pure, Prod.mk.injEq, Except.ok.injEq] at h1
        obtain ⟨rfl, rfl⟩ := h1
        exact .inl ⟨rfl, hr1⟩
      · split at h1
        · exact ih hr1 hrot h1
        · obtain ⟨current, w2, hcur, h2⟩ := bind_ok h1
          have hr2 := hr1.ofRun hcur
          split at h2
          · obtain ⟨p1, w3, happend, h3⟩ := bind_ok h2
            rcases indexRecordWriterAppend_ring hr2 hrot happend with ⟨hp, hr3⟩ | ⟨hp, hp1, hlt, hr3⟩
            · rw [hp] at h3
              exact ih hr3 hrot h3
            · rw [hp1] at h3
              have hnot : ¬ rotating := fun hr => absurd hlt (not_lt.mpr (hrot hr))
              rcases ih (p := true) (by simpa using hr3) (fun hr => absurd hr hnot) h3 with
                ⟨rfl, hr4⟩ | ⟨hf, -⟩
              · exact .inr ⟨hp, rfl, hlt, by simpa using hr4⟩
              · simp at hf
          · exact ih hr2 hrot h2
    · simp only [run_pure, Prod.mk.injEq, Except.ok.injEq] at h
      obtain ⟨rfl, rfl⟩ := h
      exact .inl ⟨rfl, hr⟩

/-- Copying the current records of the oldest sector. -/
theorem indexCompactOldestCopy_ring (rotating : Prop) {r : IndexRing} {source : Nat}
    (hr : RingIs rotating r w) (hrot : rotating → r.sectors ≤ r.count)
    (h : indexCompactOldestCopy.run w = (.ok source, w')) :
    source = r.oldest ∧ (RingIs rotating r w' ∨
      1 < r.count ∧ r.count < r.sectors ∧ RingIs False r.grow w') := by
  have hsource : w.fs.oldestIndexSector = r.oldest := congrArg IndexRing.oldest hr.2
  have hcount : w.fs.indexSequenceCount = r.count := congrArg IndexRing.count hr.2
  rw [indexCompactOldestCopy, bind_of_ok (run_getFs w)] at h
  dsimp only at h
  split at h
  · simp only [run_pure, Prod.mk.injEq, Except.ok.injEq] at h
    obtain ⟨rfl, rfl⟩ := h
    exact ⟨hsource, .inl hr⟩
  · obtain ⟨p, w1, hloop, h1⟩ := bind_ok h
    obtain ⟨_, w2, hcommit, h2⟩ := bind_ok h1
    simp only [run_pure, Prod.mk.injEq, Except.ok.injEq] at h2
    obtain ⟨rfl, rfl⟩ := h2
    refine ⟨hsource, ?_⟩
    rcases compactCopyLoop_ring rotating (by simpa using hr) hrot hloop with
      ⟨rfl, hr1⟩ | ⟨-, rfl, hlt, hr1⟩
    · rw [when_neg (by simp), run_pure] at hcommit
      simp only [Prod.mk.injEq, true_and] at hcommit
      exact .inl (by simpa [hcommit] using hr1)
    · rw [when_pos rfl] at hcommit
      obtain ⟨hr2, hfs⟩ := rotateIndexCommit_ring hr1.1 hcommit
      exact .inr ⟨by omega, hlt, hr2, (congrArg Fs.ring hfs).trans hr1.2⟩

/-! ## The calls -/

/-- The flash holds the ring, and one index sector is free. -/
structure RingFree (w : World) : Prop extends Ring False w where
  count_lt : w.fs.indexSequenceCount < w.fs.indexSectors

omit [Opts] in
/-- Dropping the oldest sector of a run. -/
theorem finish_ring {r : IndexRing} {source : Nat} (hr : RingIs False r w) (hge : 2 ≤ r.count)
    (hsource : source = r.oldest) (h : (indexCompactOldestFinish source).run w = (.ok (), w')) :
    RingIs False r.drop w' := by
  obtain ⟨hr, rfl⟩ := hr
  subst hsource
  exact indexCompactOldestFinish_ring hr hge h

/-- `fffs_index_compact_oldest`. -/
theorem indexCompactOldest_ring (hr : RingFree w) (h : indexCompactOldest.run w = (.ok (), w')) :
    RingFree w' := by
  obtain ⟨source, w1, hcopy, h1⟩ := bind_ok h
  rw [bind_of_ok (run_getFs w1)] at h1
  have hlt : w.fs.ring.count < w.fs.ring.sectors := hr.count_lt
  obtain ⟨hsource, hcases⟩ := indexCompactOldestCopy_ring False ⟨hr.toRing, rfl⟩
    False.elim hcopy
  have hfinish : ∀ {r : IndexRing}, RingIs False r w1 → source = r.oldest → r.count ≤ r.sectors →
      (r.count ≤ 1 → r.count < r.sectors) → RingFree w' := by
    rintro r ⟨hr1, rfl⟩ hsrc hle hle1
    split at h1
    · next hsmall =>
      simp only [run_pure, Prod.mk.injEq, true_and] at h1
      subst h1
      exact { hr1 with count_lt := hle1 hsmall }
    · next hbig =>
      obtain ⟨hr2, hring2⟩ := finish_ring ⟨hr1, rfl⟩ (not_le.mp hbig) hsrc h1
      refine { hr2 with count_lt := ?_ }
      have hcount := congrArg IndexRing.count hring2
      have hsectors := congrArg IndexRing.sectors hring2
      rw [IndexRing.drop_count] at hcount
      rw [IndexRing.drop_sectors] at hsectors
      have hpos := hr1.wf.count_pos
      change w'.fs.ring.count < w'.fs.ring.sectors
      omega
  rcases hcases with hr1 | ⟨-, -, hr1⟩
  · exact hfinish hr1 hsource hlt.le fun _ => hlt
  · refine hfinish hr1 hsource hlt ?_
    have hpos := hr.wf.count_pos
    intro hle
    rw [IndexRing.grow_count] at hle
    omega

/-- `fffs_rotate_index`. -/
theorem rotateIndex_ring (hr : RingFree w) (h : rotateIndex.run w = (.ok (), w')) :
    RingFree w' := by
  obtain ⟨_, w1, hbegin, h1⟩ := bind_ok h
  rw [bind_of_ok (run_getFs w1)] at h1
  obtain ⟨hr1, hring1, -⟩ := rotateIndexBegin_ring hr.toRing hr.count_lt hbegin
  split at h1
  · next hall =>
    obtain ⟨source, w2, hcopy, h2⟩ := bind_ok h1
    obtain ⟨_, w3, hcommit, h3⟩ := bind_ok h2
    obtain ⟨hsource, hcases⟩ := indexCompactOldestCopy_ring True ⟨hr1, rfl⟩
      (fun _ => hall.ge) hcopy
    have hall' : w1.fs.ring.count = w1.fs.ring.sectors := hall
    rcases hcases with hr2 | ⟨-, hlt, -⟩
    · obtain ⟨hr3, hfs⟩ := rotateIndexCommit_ring hr2.1 hcommit
      have hge := hr1.wf.sectors_ge
      have hring3 : w3.fs.ring = w1.fs.ring := (congrArg Fs.ring hfs).trans hr2.2
      obtain ⟨hr4, hring4⟩ := finish_ring ⟨hr3, hring3⟩ (by omega) hsource h3
      refine { hr4 with count_lt := ?_ }
      have hcount := congrArg IndexRing.count hring4
      have hsectors := congrArg IndexRing.sectors hring4
      rw [IndexRing.drop_count] at hcount
      rw [IndexRing.drop_sectors] at hsectors
      change w'.fs.ring.count < w'.fs.ring.sectors
      omega
    · omega
  · next hnot =>
    obtain ⟨hr2, hfs⟩ := rotateIndexCommit_ring hr1 h1
    refine { hr2 with count_lt := ?_ }
    rw [hfs]
    exact lt_of_le_of_ne hr1.wf.count_le hnot

/-- `fffs_append_index_record`. -/
theorem appendIndexRecord_ring {slot head : Nat} (hr : RingFree w)
    (h : (appendIndexRecord slot head).run w = (.ok (), w')) : RingFree w' := by
  obtain ⟨_, w1, hroom, h1⟩ := bind_ok h
  obtain ⟨_, w2, happend, hset⟩ := bind_ok h1
  have hr1 : RingFree w1 ∧ indexSectorIsFull w1.fs = false := by
    rw [appendIndexRoom, bind_of_ok (run_getFs w)] at hroom
    split at hroom
    · obtain ⟨_, w3, hrotate, h3⟩ := bind_ok hroom
      rw [bind_of_ok (run_getFs w3)] at h3
      split at h3
      · simp at h3
      · next hfull =>
        simp only [run_pure, Prod.mk.injEq, true_and] at h3
        subst h3
        exact ⟨rotateIndex_ring hr hrotate, Bool.not_eq_true _ ▸ hfull⟩
    · next hfull =>
      simp only [run_pure, Prod.mk.injEq, true_and] at hroom
      subst hroom
      exact ⟨hr, Bool.not_eq_true _ ▸ hfull⟩
  obtain ⟨hr2, hring2⟩ := appendIndexAtEnd_ring hr1.1.toRing hr1.2 happend
  obtain ⟨hr3, hring3⟩ := RingIs.ofRun (r := w1.fs.ring) ⟨hr2, hring2⟩ hset
  refine { hr3 with count_lt := ?_ }
  change w'.fs.ring.count < w'.fs.ring.sectors
  rw [hring3]
  exact hr1.1.count_lt

end Fastffs
