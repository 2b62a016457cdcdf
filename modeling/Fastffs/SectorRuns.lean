import Fastffs.File
import Fastffs.SectorRecords

/-!
# Runs of a sector

Starting from an erased sector, allocations, second steps and tombstones follow each other in
any order.  The walk returns the records that have been written (`sector_records`): an
allocation adds one at the end of the list, a second step and a tombstone change the first one
they are meant for.
-/

namespace Fastffs

open Prog
open Nor (Byte blank)

/-! ## The second step -/

section Finish

variable [Opts] {S c n s next spanLen h : Nat} {totalSize : Option Nat} {makeLive commitIndex : Bool}
  {rs : List MdRecord} {w w' : World}

/-- `fffs_finish_extent_metadata`. -/
theorem Recorded.finishExtent (hr : Recorded S c n s rs (claimedEnd 0 rs) w)
    (hfits : ∀ r, rs.find? (begunFor (w.files h).slot) = some r → r.Finishes c n s next spanLen
      totalSize makeLive)
    (hindex : commitIndex = true → indexPlaced w.fs)
    (hrun : (finishExtentMetadata h s next spanLen totalSize makeLive commitIndex).run w = (.ok (), w')) :
    Recorded S c n s
      (updateFirst (begunFor (w.files h).slot) (MdRecord.finish next spanLen totalSize makeLive) rs)
      (claimedEnd 0 rs) w' := by
  rw [finishExtentMetadata, bind_of_ok (run_getFile h w), bind_of_ok (run_getFs w)] at hrun
  obtain ⟨r, w0, hread, hrun⟩ := bind_ok hrun
  obtain ⟨rfl, hfind⟩ : w0 = w ∧ rs.find? (begunFor (w.files h).slot) = some r :=
    readMdForSlotBy_recorded hr hread
  have hbegun : begunFor (w0.files h).slot r = true := List.find?_some hfind
  obtain ⟨front, back, hsplit, hupdate⟩ :=
    updateFirst_of_find (f := MdRecord.finish next spanLen totalSize makeLive) hfind
  have hstate : r.state = blank := by
    simp only [begunFor, mdRecordMatchesSlot, Bool.and_eq_true, beq_iff_eq] at hbegun
    exact hbegun.2
  rw [hupdate]
  generalize claimedEnd 0 rs = free at hr ⊢
  rw [hsplit] at hr
  dsimp only at hrun
  rw [hr.place.sectorSize] at hrun
  obtain ⟨_, w1, hlink, hrun⟩ := bind_ok hrun
  obtain ⟨_, w2, hsize, hrun⟩ := bind_ok hrun
  obtain ⟨_, w3, hlive, hrun⟩ := bind_ok hrun
  have hprograms : (do
      programAligned (s * S + r.recordStart + 3) (storeLe16 next ++ storeLe16 spanLen)
      totalSize.elim (pure ()) fun size => programAligned (s * S + r.recordStart + 11) (storeLe32 size)
      Prog.when makeLive (programAligned (s * S + r.recordStart) [lifecycleValid]) : M Unit).run
        w0 = (.ok (), w3) := by
    rw [bind_of_ok hlink, bind_of_ok hsize]
    exact hlive
  obtain ⟨h3, hfs⟩ := hr.finish hstate (hfits r hfind) hprograms
  obtain ⟨_, w4, hcommit, hused⟩ := bind_ok hrun
  have h4 : Recorded S c n s (front ++ r.finish next spanLen totalSize makeLive :: back) free w4 := by
    cases commitIndex with
    | false =>
      cases hcommit
      exact h3
    | true =>
      rw [when_pos rfl] at hcommit
      have happend : Keeps (Indexed S c n s (front ++ r.finish next spanLen totalSize makeLive :: back) free)
          (appendIndexRecord (w0.files h).slot (w0.files h).head) := inferInstance
      have hkept := happend.keeps w3 ⟨h3, hfs ▸ hindex rfl⟩
      rw [hcommit] at hkept
      exact hkept.1
  have hmark : Keeps (Recorded S c n s (front ++ r.finish next spanLen totalSize makeLive :: back) free)
      (markSectorUsed s) := keeps_markUsed (by simp)
  have hwhen : Keeps (Recorded S c n s (front ++ r.finish next spanLen totalSize makeLive :: back) free)
      (Prog.when (s = (w0.files h).head ∧ (next ≠ 0 ∨ spanLen > 1)) (markSectorUsed s)) := inferInstance
  have hkept := hwhen.keeps w4 h4
  rw [hused] at hkept
  exact hkept

end Finish

/-! ## Allocations -/

/-- The arguments of `fffs_program_extent_metadata` besides the window. -/
structure ExtentArgs where
  slot : Nat
  type : Byte
  dataLen : Nat
  spanLen : Nat
  sizeOrOffset : Nat
  next : Nat
  live : Bool
deriving DecidableEq

/-- They have the widths of the source, and a live record has a link into the device. -/
structure ExtentArgs.Legal (c n s : Nat) (x : ExtentArgs) : Prop where
  slot : x.slot < 65536
  dataLen : x.dataLen < 65536
  spanLen : x.spanLen < 65536
  sizeOrOffset : x.sizeOrOffset < 4294967296
  next : x.next < 65536
  linked : x.live = true → x.spanLen ≠ 0 ∧ s + x.spanLen ≤ c ∧ (x.next = 0 ∨ n ≤ x.next ∧ x.next < c)

/-- The record of the extent in a window. -/
def ExtentArgs.record (x : ExtentArgs) (win : FreeWindow) : MdRecord :=
  extentRecord x.slot x.type win.dataOff win.recordOff x.dataLen x.spanLen x.sizeOrOffset x.next x.live

/-- Program the record of the extent. -/
def ExtentArgs.program [Opts] (x : ExtentArgs) (s : Nat) (win : FreeWindow) : M Unit :=
  programExtentMetadata s x.slot x.type win.dataOff win.recordOff win.needsFooter x.dataLen
    x.spanLen x.sizeOrOffset
    x.next x.live

section Allocate

variable {S c n s free minFree slot : Nat} {normal : Bool} {rs : List MdRecord} {win : FreeWindow}
  {x : ExtentArgs}
  {w w1 w2 w3 : World}

theorem ExtentArgs.Legal.encodable (hx : x.Legal c n s) (hoff : win.dataOff < 65536) :
  (x.record win).Encodable where
  slot := hx.slot
  next := by
    rw [ExtentArgs.record, extentRecord]
    cases x.live with
    | true => exact hx.next
    | false => exact (by decide : uint16Max < 65536)
  spanLen := by
    rw [ExtentArgs.record, extentRecord]
    cases x.live with
    | true => exact hx.spanLen
    | false => exact (by decide : uint16Max < 65536)
  dataOff := hoff
  dataLen := hx.dataLen
  sizeOrOffset := by
    rw [ExtentArgs.record, extentRecord]
    dsimp only
    split
    · decide
    · exact hx.sizeOrOffset
  live := by
    rw [ExtentArgs.record, extentRecord]
    cases x.live with
    | true => exact (by decide : true = stateIsLive lifecycleValid)
    | false => exact (by decide : false = stateIsLive blank)

theorem ExtentArgs.Legal.record_linked (hx : x.Legal c n s) : (x.record win).Linked c n s := by
  rw [MdRecord.Linked, ExtentArgs.record, extentRecord]
  cases hlive : x.live with
  | true => exact .inr (hx.linked hlive)
  | false => exact .inl rfl

/-- The search keeps the records. -/
theorem Recorded.find (h : Recorded S c n s rs free w)
    (hrun : (findSectorFreeWindow s minFree slot normal).run w = (res, w1)) : Recorded S c n s rs free w1 := by
  have hkept : Recorded S c n s rs free ((findSectorFreeWindow s minFree slot normal).run w).2 := by
    by_cases hne : rs = []
    · subst hne
      exact h.find_blank.1
    · exact (keeps_find hne).keeps w h
  rw [hrun] at hkept
  exact hkept

/-- The record of a sector of 64 KiB at most has a place above the first bytes, which a footer
would take. -/
def recordFits (S : Nat) (rs : List MdRecord) : Prop :=
  S ≤ 65536 ∧ mdFileRecordSize * (rs.length + 1) + 2 * sectorFooterSize ≤ S

/-- An allocation adds its record. -/
theorem Recorded.allocate [Opts] (h : Recorded S c n s rs (claimedEnd 0 rs) w) (hfits : recordFits S rs)
    (hx : x.Legal c n s) (hfind : (findSectorFreeWindow s minFree slot normal).run w = (.ok win, w1))
    (hin : win.dataOff + x.dataLen ≤ win.recordOff)
    (hdata : Touches S s win.dataOff (win.dataOff + x.dataLen) w1 w2)
    (hrun : (x.program s win).run w2 = (.ok (), w3)) :
    Recorded S c n s (rs ++ [x.record win]) (claimedEnd 0 (rs ++ [x.record win])) w3 := by
  obtain ⟨hoff, hplace, -, hfooter⟩ := h.find_ok hfits.1 hfits.2 hfind
  have heq := h.stacked.lowest_eq
  have hge := h.place.size_ge
  obtain ⟨hS, hroom⟩ := hfits
  simp only [mdFileRecordSize, sectorFooterSize] at hplace heq hroom
  have h2 : Recorded S c n s rs (win.dataOff + x.dataLen) w2 :=
    (h.find hfind).outside hdata (by omega) (by rw [sectorFooterSize]; omega)
  have hend : claimedEnd 0 (rs ++ [x.record win]) = win.dataOff + x.dataLen := by
    rw [claimedEnd_append, ← hoff]
    exact Nat.max_eq_right (Nat.le_add_right _ _)
  rw [hend]
  exact h2.program hoff (by rw [mdFileRecordSize, sectorFooterSize]; omega) (by rw [sectorFooterSize]; omega) hin
    hfooter (hx.encodable (by omega)) hx.record_linked hrun

end Allocate

/-! ## Runs -/

/-- The data ends stay when no record's data change. -/
theorem claimedEnd_updateFirst {p : MdRecord → Bool} {f : MdRecord → MdRecord}
    (hf : ∀ r, (f r).dataEnd = r.dataEnd) (rs : List MdRecord) :
    claimedEnd 0 (updateFirst p f rs) = claimedEnd 0 rs := by
  cases hfind : rs.find? p with
  | none => rw [updateFirst_of_find_none hfind]
  | some r =>
    obtain ⟨front, back, rfl, hupdate⟩ := updateFirst_of_find (f := f) hfind
    rw [hupdate, claimedEnd_replace (hf r)]

/-- What is done to sector `s` from `w0` on, and the records this should leave.  An allocation is
made of the search, the data and the record, which is live or begun; `fits` is the condition it
meets. -/
inductive SectorRun [Opts] (fits : List MdRecord → Prop) (S c n s : Nat) (w0 : World) : List
  MdRecord → World → Prop
  | start : SectorRun fits S c n s w0 [] w0
  | allocate {rs w w1 w2 w3 minFree rejectSlot normal win} {x : ExtentArgs}
    (before : SectorRun fits S c n s w0 rs w)
      (room : fits rs) (legal : x.Legal c n s)
      (find : (findSectorFreeWindow s minFree rejectSlot normal).run w = (.ok win, w1))
      (inside : win.dataOff + x.dataLen ≤ win.recordOff)
      (data : Touches S s win.dataOff (win.dataOff + x.dataLen) w1 w2)
      (program : (x.program s win).run w2 = (.ok (), w3)) :
      SectorRun fits S c n s w0 (rs ++ [x.record win]) w3
  | refuse {rs w w1 minFree rejectSlot normal e} (before : SectorRun fits S c n s w0 rs w)
      (find : (findSectorFreeWindow s minFree rejectSlot normal).run w = (.error e, w1)) :
      SectorRun fits S c n s w0 rs w1
  | finish {rs w w1 h next spanLen totalSize makeLive commitIndex} (before : SectorRun fits S c n s w0 rs w)
      (unset : ∀ r, rs.find? (begunFor (w.files h).slot) = some r → r.Finishes c n s next spanLen
        totalSize makeLive)
      (index : commitIndex = true → indexPlaced w.fs)
      (run : (finishExtentMetadata h s next spanLen totalSize makeLive commitIndex).run w = (.ok (), w1)) :
      SectorRun fits S c n s w0
        (updateFirst (begunFor (w.files h).slot) (MdRecord.finish next spanLen totalSize makeLive) rs) w1
  | tombstone {rs w w1 slot committedDelete accounted} (before : SectorRun fits S c n s w0 rs w)
      (run : (tombstoneMetadataForSlot s slot committedDelete).run w = (.ok accounted, w1)) :
      SectorRun fits S c n s w0 (updateFirst (liveFor slot) MdRecord.kill rs) w1
  | elsewhere {rs w w1} (before : SectorRun fits S c n s w0 rs w) (touches : Touches S s 0 0 w w1) :
      SectorRun fits S c n s w0 rs w1

/-- The walk returns the records, their data are disjoint and below all of them, and the footer is
that of a live file sector. -/
structure HoldsRecords (s : Nat) (rs : List MdRecord) (w : World) : Prop where
  walk : (walkSector s).run w = (.ok rs, w)
  disjoint : rs.Pairwise fun r r' => r.dataEnd ≤ r'.dataOff
  below : ∀ r ∈ rs, ∀ r' ∈ rs, r.dataEnd ≤ r'.recordStart
  footer : rs ≠ [] → ∃ footer reader, (readSectorFooter {} s).run w = (.ok (footer, reader), w) ∧
    footer.erased = false ∧ footer.type = sectorTypeFile ∧ footer.magicValid = true ∧ footer.isLive = true

theorem Touches.refl {S s lo hi : Nat} {w : World} : Touches S s lo hi w w :=
  ⟨rfl, rfl, rfl, rfl, rfl, rfl, rfl, fun _ _ _ => rfl⟩

section Runs

variable {S c n s : Nat} {rs : List MdRecord} {w w0 : World}

/-- A blank sector holds no records. -/
theorem recorded_blank (hp : SectorAt S c n s w) (hblank : ∀ a, a < S → Nor.get w.dev.mem (s * S + a) = blank) :
    Recorded S c n s [] 0 w where
  place := hp
  stacked := trivial
  written := nofun
  bytes := nofun
  claimed := Nat.le_refl 0
  free_le := Nat.zero_le _
  gap a _ hlt := hblank a (Nat.lt_of_lt_of_le hlt (Nat.sub_le _ _))
  apart := .nil
  footer := .inl ⟨rfl, fun a _ hlt => hblank a hlt⟩

theorem SectorRun.recorded [Opts] (hp : SectorAt S c n s w0)
    (hblank : ∀ a, a < S → Nor.get w0.dev.mem (s * S + a) = blank)
    (hrun : SectorRun (recordFits S) S c n s w0 rs w) : Recorded S c n s rs (claimedEnd 0 rs) w := by
  induction hrun with
  | start => exact recorded_blank hp hblank
  | allocate _ room legal find inside data program ih => exact ih.allocate room legal find inside data program
  | refuse _ find ih => exact ih.find find
  | finish _ unset index run ih =>
    rw [claimedEnd_updateFirst (f := MdRecord.finish _ _ _ _) fun _ => rfl]
    exact ih.finishExtent unset index run
  | tombstone _ run ih =>
    rw [claimedEnd_updateFirst (f := MdRecord.kill) fun _ => rfl]
    exact ih.tombstone run
  | elsewhere _ touches ih => exact ih.elsewhere touches

theorem Recorded.holds (h : Recorded S c n s rs (claimedEnd 0 rs) w) : HoldsRecords s rs w where
  walk := walkSector_recorded h
  disjoint := h.apart
  below r hr r' hr' := by
    have hend := dataEnd_le_claimedEnd (n := 0) hr
    have hstart := h.stacked.lowest_le_start hr'
    exact hend.trans (h.free_le.trans hstart)
  footer hne := by
    obtain ⟨serial, full, hread⟩ := (h.footer.resolve_left fun hnil => hne hnil.1).2
    obtain ⟨reader, hseen, -⟩ := h.place.readFooter SectorReader.enter_new
    refine ⟨_, reader, hseen, ?_⟩
    rw [hread]
    exact decodeSectorFooter_bytes serial full

/-- An allocation whose data are programmed in its window. -/
theorem SectorRun.write [Opts] {minFree rejectSlot : Nat} {normal : Bool} {win : FreeWindow} {w1 w3 : World}
    {x : ExtentArgs} {bs : List Byte} (hp : SectorAt S c n s w0)
    (hblank : ∀ a, a < S → Nor.get w0.dev.mem (s * S + a) = blank)
    (before : SectorRun (recordFits S) S c n s w0 rs w) (room : recordFits S rs) (legal : x.Legal c n s)
    (find : (findSectorFreeWindow s minFree rejectSlot normal).run w = (.ok win, w1))
    (inside : win.dataOff + x.dataLen ≤ win.recordOff) (hlen : bs.length = x.dataLen)
    (program : (x.program s win).run
      (w1.withMem (Nor.program w1.dev.mem (s * S + win.dataOff) bs) []) = (.ok (), w3)) :
    SectorRun (recordFits S) S c n s w0 (rs ++ [x.record win]) w3 := by
  have hplan : w1.dev.plan = [] := ((before.recorded hp hblank).find find).place.plan
  have hbecomes : w1.Becomes (Nor.program w1.dev.mem (s * S + win.dataOff) bs)
      (w1.withMem (Nor.program w1.dev.mem (s * S + win.dataOff) bs) []) := ⟨[], rfl, fun _ => rfl⟩
  have hdata := Touches.program hbecomes hplan
  rw [hlen] at hdata
  exact .allocate before room legal find inside hdata program

/-- Whatever is done to an erased sector, the walk returns what has been written. -/
theorem sector_records [Opts] (hp : SectorAt S c n s w0)
    (hblank : ∀ a, a < S → Nor.get w0.dev.mem (s * S + a) = blank)
    (hrun : SectorRun (recordFits S) S c n s w0 rs w) : HoldsRecords s rs w :=
  (hrun.recorded hp hblank).holds

end Runs

theorem run_eq_of_fst {α : Type} {x : M α} {w : World} {r : Except Status α} (h : (x.run w).1 = r) :
    x.run w = (r, (x.run w).2) :=
  Prod.ext h rfl

/-- A blank flash of four sectors of 256 bytes, two of them for the index. -/
def narrowSectors : World where
  dev := { mem := Nor.erased (4 * 256), programGranule := 1, plan := [] }
  fs := { sectorSize := 256, sectorCount := 4, indexSectors := 2, scratchSize := 256 }
  files _ := { slot := 1, head := 2 }

/-- A root of three bytes that is begun. -/
def begunRoot : ExtentArgs where
  slot := 1
  type := mdTypeFileRootV1
  dataLen := 3
  spanLen := 0
  sizeOrOffset := 0
  next := 0
  live := false

/-- A live root of a slot with `len` bytes. -/
def liveRoot (slot len : Nat) : ExtentArgs where
  slot := slot
  type := mdTypeFileRootV1
  dataLen := len
  spanLen := 1
  sizeOrOffset := 0
  next := 0
  live := true

/-- Bytes in a window of sector 2. -/
def withData (w : World) (off : Nat) (bs : List Byte) : World :=
  w.withMem (Nor.program w.dev.mem (2 * 256 + off) bs) []

/-- A root of slot 1 is begun, gets its bytes and is finished.  One of slot 2 follows, the first is
deleted and written anew, and a search for slot 2 is refused. -/
theorem sector_records_narrowSectors :
    let w1 := ((findSectorFreeWindow 2 128 0 true).run narrowSectors).2
    let w2 := ((@ExtentArgs.program defaultOpts begunRoot 2 ⟨0, 230, true, 0⟩).run
      (withData w1 0 [1#8, 2#8, 3#8])).2
    let w3 := ((@finishExtentMetadata defaultOpts 0 2 0 1 (some 0) true false).run w2).2
    let w4 := ((findSectorFreeWindow 2 4 2 true).run w3).2
    let w5 := ((@ExtentArgs.program defaultOpts (liveRoot 2 4) 2 ⟨3, 214, false, 1⟩).run
      (withData w4 3 [4#8, 5#8, 6#8, 7#8])).2
    let w6 := ((tombstoneMetadataForSlot 2 1 false).run w5).2
    let w7 := ((findSectorFreeWindow 2 2 1 true).run w6).2
    let w8 := ((@ExtentArgs.program defaultOpts (liveRoot 1 2) 2 ⟨7, 198, false, 2⟩).run
      (withData w7 7 [8#8, 9#8])).2
    let w9 := ((findSectorFreeWindow 2 2 2 true).run w8).2
    HoldsRecords 2 [((begunRoot.record ⟨0, 230, true, 0⟩).finish 0 1 (some 0) true).kill,
      (liveRoot 2 4).record ⟨3, 214, false, 1⟩, (liveRoot 1 2).record ⟨7, 198, false, 2⟩] w9 := by
  intro w1 w2 w3 w4 w5 w6 w7 w8 w9
  have hp : SectorAt 256 4 2 2 narrowSectors :=
    ⟨rfl, rfl, rfl, by decide, by decide, by decide, rfl, by decide, by decide, by decide, by decide⟩
  have hblank : ∀ a, a < 256 → Nor.get narrowSectors.dev.mem (2 * 256 + a) = blank := fun a _ => Nor.get_erased _ _
  -- the steps of the run
  have hfind : (findSectorFreeWindow 2 128 0 true).run narrowSectors = (.ok ⟨0, 230, true, 0⟩, w1) :=
    run_eq_of_fst (by decide +kernel)
  have hbegin : (@ExtentArgs.program defaultOpts begunRoot 2 ⟨0, 230, true, 0⟩).run
      (withData w1 0 [1#8, 2#8, 3#8]) = (.ok (), w2) := run_eq_of_isOk (by decide +kernel)
  have hfinish : (@finishExtentMetadata defaultOpts 0 2 0 1 (some 0) true false).run w2 = (.ok (), w3) :=
    run_eq_of_isOk (by decide +kernel)
  have hfind2 : (findSectorFreeWindow 2 4 2 true).run w3 = (.ok ⟨3, 214, false, 1⟩, w4) :=
    run_eq_of_fst (by decide +kernel)
  have hwrite2 : (@ExtentArgs.program defaultOpts (liveRoot 2 4) 2 ⟨3, 214, false, 1⟩).run
      (withData w4 3 [4#8, 5#8, 6#8, 7#8]) = (.ok (), w5) := run_eq_of_isOk (by decide +kernel)
  have htombstone : (tombstoneMetadataForSlot 2 1 false).run w5 = (.ok false, w6) :=
    run_eq_of_fst (by decide +kernel)
  have hfind3 : (findSectorFreeWindow 2 2 1 true).run w6 = (.ok ⟨7, 198, false, 2⟩, w7) :=
    run_eq_of_fst (by decide +kernel)
  have hwrite3 : (@ExtentArgs.program defaultOpts (liveRoot 1 2) 2 ⟨7, 198, false, 2⟩).run
      (withData w7 7 [8#8, 9#8]) = (.ok (), w8) := run_eq_of_isOk (by decide +kernel)
  have hrefuse : (findSectorFreeWindow 2 2 2 true).run w8 = (.error .noSpace, w9) :=
    run_eq_of_fst (by decide +kernel)
  have hslot : (w2.files 0).slot = 1 := by decide +kernel
  clear_value w1 w2 w3 w4 w5 w6 w7 w8 w9
  have hlive : ∀ slot len, slot < 65536 → len < 65536 → (liveRoot slot len).Legal 4 2 2 := fun slot len hs hlen =>
    ⟨hs, hlen, (by decide : 1 < 65536), (by decide : 0 < 4294967296), (by decide : 0 < 65536),
      fun _ => ⟨Nat.one_ne_zero, (by decide : 2 + 1 ≤ 4), .inl rfl⟩⟩
  have hbegun := @SectorRun.write 256 4 2 2 _ _ narrowSectors defaultOpts _ _ _ _ _ _ begunRoot [1#8, 2#8, 3#8] hp hblank
    (@SectorRun.start defaultOpts (recordFits 256) _ _ _ _ _) ⟨by decide, by decide⟩
    ⟨by decide, by decide, by decide, by decide, by decide, nofun⟩ hfind (by decide) rfl hbegin
  have hunset : ∀ r, [begunRoot.record ⟨0, 230, true, 0⟩].find? (begunFor (w2.files 0).slot) = some r →
      r.Finishes 4 2 2 0 1 (some 0) true := by
    rw [hslot]
    intro r hr
    cases hr
    exact {
      link := .inl ⟨rfl, rfl⟩
      size := fun _ _ => .inl rfl
      next_lt := by decide
      span_lt := by decide
      size_lt := by simp
      linked := fun _ => ⟨by decide, by decide, .inl rfl⟩ }
  have hfinished := @SectorRun.finish defaultOpts _ _ _ _ _ _ _ _ _ _ _ _ _ _ false hbegun hunset
    (fun h => nomatch h) hfinish
  rw [hslot] at hfinished
  have hsecond := @SectorRun.write 256 4 2 2 _ _ narrowSectors defaultOpts _ _ _ _ _ _ (liveRoot 2 4) [4#8, 5#8, 6#8, 7#8] hp
    hblank hfinished ⟨by decide, by decide⟩ (hlive 2 4 (by decide) (by decide)) hfind2 (by decide) rfl hwrite2
  have hdeleted := @SectorRun.tombstone defaultOpts _ _ _ _ _ _ _ _ _ _ _ _ hsecond htombstone
  have hthird := @SectorRun.write 256 4 2 2 _ _ narrowSectors defaultOpts _ _ _ _ _ _ (liveRoot 1 2) [8#8, 9#8] hp hblank
    hdeleted ⟨by decide, by decide⟩ (hlive 1 2 (by decide) (by decide)) hfind3 (by decide) rfl hwrite3
  have hrefused := @SectorRun.refuse defaultOpts _ _ _ _ _ _ _ _ _ _ _ _ _ hthird hrefuse
  exact @sector_records 256 4 2 2 _ _ narrowSectors defaultOpts hp hblank hrefused

/-! ## Larger sectors -/

section Large

theorem Touches.trans {S s lo hi : Nat} {w w1 w2 : World} (h : Touches S s lo hi w w1)
  (h' : Touches S s lo hi w1 w2) :
    Touches S s lo hi w w2 where
  sectorSize := h'.sectorSize.trans h.sectorSize
  sectorCount := h'.sectorCount.trans h.sectorCount
  indexSectors := h'.indexSectors.trans h.indexSectors
  scratchSize := h'.scratchSize.trans h.scratchSize
  granule := h'.granule.trans h.granule
  plan := h'.plan.trans h.plan
  size := h'.size.trans h.size
  bytes a ha hout := (h'.bytes a ha hout).trans (h.bytes a ha hout)

variable {S c n s off k : Nat} {w : World}

theorem spanIsErasedLoop_blank {chunk fuel : Nat} (hplan : w.dev.plan = []) (hle : off + k ≤ w.dev.size)
    (hblank : ∀ a, off ≤ a → a < off + k → Nor.get w.dev.mem a = blank) :
    (spanIsErasedLoop chunk fuel off k).run w = (.ok (), w) := by
  induction fuel generalizing off k with
  | zero => rfl
  | succ fuel ih =>
    rw [spanIsErasedLoop]
    split
    · rfl
    · have hread : (flashRead off (min k chunk)).run w = _ := flashRead_run hplan (by omega)
      rw [bind_of_ok hread, flashBytesErased_of_blank fun a hlo hhi => hblank a hlo (by omega), if_pos rfl]
      exact ih (by omega) fun a hlo hhi => hblank a (by omega) (by omega)

/-- A span of blank bytes is erased. -/
theorem flashSpanIsErased_blank (hplan : w.dev.plan = []) (hle : off + k ≤ w.dev.size)
    (hblank : ∀ a, off ≤ a → a < off + k → Nor.get w.dev.mem a = blank) :
    (flashSpanIsErased off k).run w = (.ok (), w) := by
  rw [flashSpanIsErased, bind_of_ok (run_getFs w)]
  exact spanIsErasedLoop_blank hplan hle hblank

/-- The walk stops at once in front of a blank type byte. -/
theorem SectorAt.walk_blank (hp : SectorAt S c n s w)
    (hblank : Nor.get w.dev.mem (s * S + (S - sectorFooterSize - 1)) = blank) :
    (walkSector s).run w = (.ok [], w) := by
  have hge := hp.size_ge
  obtain ⟨fuel, hfuel⟩ : ∃ fuel, S = fuel + 1 := ⟨S - 1, by omega⟩
  have htype : (Direct.sectorReaderView s (S - sectorFooterSize - 1) 1).run w = _ :=
    hp.view (by rw [sectorFooterSize]; omega) (by decide)
  have hbyte : byteAt (Nor.read w.dev.mem (s * S + (S - sectorFooterSize - 1)) 1) 0 = blank := by
    rw [byteAt, Nor.getD_read _ _ _ _ _ Nat.one_pos]
    exact hblank
  have hdecode : (Direct.decodeFileMdRecord s (S - sectorFooterSize)).run w = (.ok ({}, .endErased), w) := by
    rw [Direct.decodeFileMdRecord, bind_of_ok (run_getFs w), bind_of_ok htype]
    dsimp only
    rw [hbyte, if_pos rfl]
    rfl
  have hbegin : MdWalk.begin w.fs s =
      { sector := s, cursor := S - sectorFooterSize, liveBytes := sectorFooterSize, active := true } := by
    rw [MdWalk.begin, hp.sectorSize]
  have hinit : (Direct.mdWalkInit s).run w = (.ok (.begin w.fs s), w) := by
    rw [Direct.mdWalkInit, bind_of_ok (run_getFs w), if_pos hp.valid]
    rfl
  have hnext : (Direct.mdWalkNext (.begin w.fs s)).run w =
      (.ok ({ MdWalk.begin w.fs s with active := false }, {}, .endErased), w) := by
    rw [hbegin, Direct.mdWalkNext, if_neg (by simp), if_neg (by simp only [sectorFooterSize]; omega),
      bind_of_ok hdecode]
    rfl
  rw [walkSector_direct hp.plan, Direct.walkSector, bind_of_ok (run_getFs w), bind_of_ok hinit,
    hp.sectorSize, hfuel, Direct.walkRecords, if_neg Bool.noConfusion, bind_of_ok hnext]
  rfl

/-- The window of an erased sector. -/
def erasedWindow (S : Nat) : FreeWindow where
  dataOff := 0
  recordOff := u16 (S - sectorFooterSize - mdFileRecordSize)
  needsFooter := true
  mdRecords := 0

theorem SectorAt.find_erased {minFree slot : Nat} {normal : Bool} (hp : SectorAt S c n s w)
    (hblank : ∀ a, a < S → Nor.get w.dev.mem (s * S + a) = blank)
    (hmin : minFree ≤ S - sectorFooterSize - mdFileRecordSize) : ∃ trace,
    (findSectorFreeWindow s minFree slot normal).run w = (.ok (erasedWindow S), { w with trace := trace }) := by
  have hge := hp.size_ge
  have hin := hp.inside
  rw [Nat.succ_mul] at hin
  have hspan : ∀ a, s * S ≤ a → a < s * S + S → Nor.get w.dev.mem a = blank := by
    intro a hlo hhi
    rw [← Nat.add_sub_cancel' hlo]
    exact hblank _ (by omega)
  have herased : (decodeSectorFooter
      (Nor.read w.dev.mem (s * S + (S - sectorFooterSize)) sectorFooterSize)).erased = true :=
    flashBytesErased_of_blank fun i hlo hhi => hspan i (by omega) (by rw [sectorFooterSize] at *; omega)
  refine ⟨⟨.narrow [S - sectorFooterSize - mdFileRecordSize], w.fs, w.files⟩ :: w.trace, ?_⟩
  obtain ⟨reader, hseen, -⟩ := hp.readFooter SectorReader.enter_new
  rw [findSectorFreeWindow, bind_of_ok (run_getFs w), hp.valid, if_neg (by decide), bind_of_ok hseen]
  dsimp only
  rw [herased, if_pos rfl, hp.sectorSize, bind_of_ok (flashSpanIsErased_blank hp.plan (by omega) hspan), if_neg]
  · rfl
  · rw [sectorFooterSize, mdFileRecordSize] at *
    omega

/-- A root of three bytes that is written in one step. -/
def emptyRoot : ExtentArgs where
  slot := 1
  type := mdTypeFileRootV1
  dataLen := 3
  spanLen := 1
  sizeOrOffset := 0
  next := 0
  live := true

/-- The record and the footer of the root. -/
theorem SectorAt.program_root [Opts] {win : FreeWindow} (hp : SectorAt S c n s w)
  (hfooter : win.needsFooter = true)
    (hlow : win.dataOff + 3 + allocMinUsableFree ≤ win.recordOff) (hle : win.recordOff + 26 ≤ S) :
    ∃ w', (emptyRoot.program s win).run w = (.ok (), w') ∧ Touches S s win.recordOff
      (win.recordOff + 26) w w' := by
  obtain ⟨serial, w1, hclaim, hp1, hdev, hfs⟩ : ∃ serial w1, claimSectorSerial.run w = (.ok serial, w1) ∧
      SectorAt S c n s w1 ∧ w1.dev = w.dev ∧ Touches S s win.recordOff (win.recordOff + 26) w w1 :=
    ⟨_, _, rfl, { hp with }, rfl, ⟨rfl, rfl, rfl, rfl, rfl, rfl, rfl, fun _ _ _ => rfl⟩⟩
  have hprogram : (programAligned (s * S + win.recordOff)
      (encodeExtentMetadata 1 mdTypeFileRootV1 win.dataOff 3 1 0 0 true ++ encodeSectorFooter
        serial true)).run w1 = _ :=
    hp1.program hle
  have hbs : (do
      let serial ← claimSectorSerial
      pure (encodeSectorFooter serial true) : M (List Byte)).run w =
        (.ok (encodeSectorFooter serial true), w1) := by
    rw [bind_of_ok hclaim]
    rfl
  have hbecomes : w1.Becomes _ (w1.withMem (Nor.program w1.dev.mem (s * S + win.recordOff)
      (encodeExtentMetadata 1 mdTypeFileRootV1 win.dataOff 3 1 0 0 true ++ encodeSectorFooter serial true)) []) :=
    ⟨[], rfl, fun _ => rfl⟩
  have hprogrammed : Touches S s win.recordOff (win.recordOff + 26) w1 _ := Touches.program hbecomes hp1.plan
  refine ⟨_, ?_, hfs.trans hprogrammed⟩
  rw [ExtentArgs.program, programExtentMetadata, hfooter, if_neg (by simp [emptyRoot]), bind_of_ok (run_getFs w)]
  dsimp only
  rw [if_pos rfl, bind_of_ok hbs, hp.sectorSize, emptyRoot, bind_of_ok hprogram, when_neg]
  · rfl
  · rw [allocMinUsableFree] at hlow
    have hcont : mdTypeFileRootV1 ≠ mdTypeFileContV1 := by decide
    simp only [Bool.or_eq_true, decide_eq_true_eq, not_or]
    exact ⟨hcont, show ¬ win.dataOff + 3 ≥ win.recordOff by omega,
      show ¬ win.recordOff - (win.dataOff + 3) < 128 by omega⟩

/-- In a sector of more than 64 KiB the first record goes to offset 65510, where no walk finds it. -/
theorem large_sector_loses [Opts] (hp : SectorAt S c n s w)
    (hblank : ∀ a, a < S → Nor.get w.dev.mem (s * S + a) = blank) (hS : 65536 < S) (hdvd : 65536 ∣ S) :
    ∃ w', SectorRun (fun _ => True) S c n s w [emptyRoot.record (erasedWindow S)] w' ∧
      (walkSector s).run w' = (.ok [], w') := by
  obtain ⟨k, rfl⟩ := hdvd
  have hoff : (erasedWindow (65536 * k)).recordOff = 65510 := by
    simp only [erasedWindow, sectorFooterSize, mdFileRecordSize, u16]
    omega
  obtain ⟨trace, hfind⟩ : ∃ trace, (findSectorFreeWindow s 0 0 false).run w = _ :=
    hp.find_erased hblank (Nat.zero_le _)
  have hp1 : SectorAt (65536 * k) c n s { w with trace := trace } := { hp with }
  have hlow : (erasedWindow (65536 * k)).dataOff + 3 + allocMinUsableFree ≤
    (erasedWindow (65536 * k)).recordOff := by
    rw [hoff]
    exact (by decide : 0 + 3 + allocMinUsableFree ≤ 65510)
  obtain ⟨w2, hrun, ht⟩ := hp1.program_root rfl hlow (by rw [hoff]; omega)
  refine ⟨w2, .allocate .start trivial ?_ hfind ?_ .refl hrun, ?_⟩
  · exact ⟨by decide, by decide, by decide, by decide, by decide, fun _ => ⟨by decide, hp.lt, .inl rfl⟩⟩
  · rw [hoff]
    exact (by decide : 0 + 3 ≤ 65510)
  · refine (hp1.touch ht).walk_blank ?_
    rw [ht.bytes _ (by rw [sectorFooterSize]; omega) (by rw [hoff, sectorFooterSize]; omega)]
    exact hblank _ (by rw [sectorFooterSize]; omega)

end Large

/-- A blank flash of four sectors of 128 KiB, two of them for the index. -/
def wideSectors : World where
  dev := { mem := Nor.erased (4 * 131072), programGranule := 1, plan := [] }
  fs := { sectorSize := 131072, sectorCount := 4, indexSectors := 2, scratchSize := 256 }
  files _ := {}

/-- In sectors of 128 KiB the walk misses the first record. -/
theorem sector_records_lost :
    ¬ ∀ (o : Opts) (S c n s : Nat) (rs : List MdRecord) (w0 w : World), SectorAt S c n s w0 →
      (∀ a, a < S → Nor.get w0.dev.mem (s * S + a) = blank) →
      @SectorRun o (fun _ => True) S c n s w0 rs w → HoldsRecords s rs w := by
  intro hall
  have hp : SectorAt 131072 4 2 2 wideSectors :=
    ⟨rfl, rfl, rfl, by decide, by decide, by decide, rfl, by decide, by decide, by decide, by decide⟩
  have hblank : ∀ a, a < 131072 → Nor.get wideSectors.dev.mem (2 * 131072 + a) = blank :=
    fun a _ => Nor.get_erased _ _
  obtain ⟨w, hrun, hwalk⟩ := @large_sector_loses 131072 4 2 2 wideSectors defaultOpts hp hblank
    (by decide) (by decide)
  have hholds := (hall defaultOpts _ _ _ _ _ _ _ hp hblank hrun).walk
  rw [hwalk] at hholds
  simp at hholds

end Fastffs
