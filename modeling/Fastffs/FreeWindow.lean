import Fastffs.Honest
import Fastffs.SectorWindow

/-!
# The free window of a sector

`fffs_find_sector_free_window` walks the records of a sector and returns the bytes
between the data they claim and the place under the last of them.  It reads the data part of this
window and finds it blank.  The place of the record itself it does not read: the
window is what its caller takes it for exactly when this place is blank (`free_window_sound`).
-/

namespace Fastffs

open Prog
open Nor (Mem Byte blank)

/-! ## The records a walk visits -/

/-- The records a walk passes before it stops. -/
def walkRecords : Nat → SectorReader → MdWalk → M (List MdRecord)
  | 0, _, _ => pure []
  | fuel + 1, reader, walk =>
      if walk.active = false then pure [] else do
        let ((walk, r, result), reader) ← mdWalkNext reader walk
        if result = .record then do
          let rs ← walkRecords fuel reader walk
          pure (r :: rs)
        else pure []

/-- The records that a fresh walk of a sector passes. -/
def walkSector (sector : Nat) : M (List MdRecord) := do
  let fs ← getFs
  let (walk, reader) ← mdWalkInit {} sector
  walkRecords fs.sectorSize reader walk

/-- The records the walk of a sector visits, from the footer down. -/
def visited (w : World) (sector : Nat) : List MdRecord :=
  match ((walkSector sector).run (w.withPlan [])).1 with
  | .ok rs => rs
  | .error _ => []

namespace Direct

/-- The records a walk that reads the flash passes before it stops. -/
def walkRecords : Nat → MdWalk → M (List MdRecord)
  | 0, _ => pure []
  | fuel + 1, walk =>
      if walk.active = false then pure [] else do
        let (walk, r, result) ← mdWalkNext walk
        if result = .record then do
          let rs ← walkRecords fuel walk
          pure (r :: rs)
        else pure []

/-- The records that a fresh walk that reads the flash passes. -/
def walkSector (sector : Nat) : M (List MdRecord) := do
  let fs ← getFs
  let walk ← mdWalkInit sector
  walkRecords fs.sectorSize walk

end Direct

/-- The records lie one under the other, the first of them under `cursor`. -/
def Stacked : Nat → List MdRecord → Prop
  | _, [] => True
  | cursor, r :: rs =>
      r.recordStart + mdFileRecordSize = cursor ∧ sectorFooterSize ≤ r.recordStart ∧
        r.dataEnd ≤ r.recordStart ∧ Stacked r.recordStart rs

/-- The start of the last record. -/
def lowest : Nat → List MdRecord → Nat
  | cursor, [] => cursor
  | _, r :: rs => lowest r.recordStart rs

/-- The end of the data the records claim. -/
def claimedEnd : Nat → List MdRecord → Nat
  | n, [] => n
  | n, r :: rs => claimedEnd (max n r.dataEnd) rs

section Stack

variable {cursor n : Nat} {rs : List MdRecord} {r : MdRecord}

theorem Stacked.lowest_le (h : Stacked cursor rs) : lowest cursor rs ≤ cursor := by
  induction rs generalizing cursor with
  | nil => exact Nat.le_refl _
  | cons r rs ih =>
    have hrest := ih h.2.2.2
    have hplace := h.1
    simp only [lowest]
    omega

/-- No record starts under the last one. -/
theorem Stacked.lowest_le_start (h : Stacked cursor rs) (hr : r ∈ rs) :
    lowest cursor rs ≤ r.recordStart := by
  induction rs generalizing cursor with
  | nil => cases hr
  | cons r' rs ih =>
    cases hr with
    | head => exact h.2.2.2.lowest_le
    | tail _ hr => exact ih h.2.2.2 hr

/-- Under a sector of whole records there is room for one more. -/
theorem Stacked.room (h : Stacked cursor rs) (hmod : cursor % mdFileRecordSize = 6)
    (hcursor : mdFileRecordSize ≤ cursor) : mdFileRecordSize ≤ lowest cursor rs := by
  induction rs generalizing cursor with
  | nil => exact hcursor
  | cons r rs ih =>
    obtain ⟨hplace, hfooter, -, hrest⟩ := h
    simp only [mdFileRecordSize, sectorFooterSize] at *
    exact ih hrest (by omega) (by omega)

theorem le_claimedEnd : n ≤ claimedEnd n rs := by
  induction rs generalizing n with
  | nil => exact Nat.le_refl _
  | cons r rs ih => exact (Nat.le_max_left _ _).trans ih

/-- No record claims data past the end. -/
theorem dataEnd_le_claimedEnd (hr : r ∈ rs) : r.dataEnd ≤ claimedEnd n rs := by
  induction rs generalizing n with
  | nil => cases hr
  | cons r' rs ih =>
    cases hr with
    | head => exact (Nat.le_max_right _ _).trans le_claimedEnd
    | tail _ hr => exact ih hr

end Stack

/-! ## The walk on a device that never fails -/

section Quiet

variable {w w' : World} {sector off n : Nat} {bs : List Byte}

theorem walkRecords_direct {fuel : Nat} {reader : SectorReader} {walk : MdWalk} (hplan : w.dev.plan = [])
    (hreader : reader.Shows walk.sector walk.cursor w) :
    (walkRecords fuel reader walk).run w = (Direct.walkRecords fuel walk).run w := by
  induction fuel generalizing reader walk with
  | zero => rfl
  | succ fuel ih =>
    rw [walkRecords, Direct.walkRecords]
    split
    · rfl
    refine (mdWalkNext_views hplan hreader (Nat.le_refl _)).into fun a reader' hrun _ => ?_
    obtain ⟨-, -, hreader'⟩ := mdWalkNext_back hplan hreader hrun
    dsimp only
    split
    · rw [run_bind, run_bind, ih hreader']
    · rfl

/-- A fresh walk of a sector passes the records on the flash. -/
theorem walkSector_direct (hplan : w.dev.plan = []) :
    (walkSector sector).run w = (Direct.walkSector sector).run w := by
  rw [walkSector, Direct.walkSector, bind_of_ok (run_getFs w), bind_of_ok (run_getFs w)]
  have hnew := SectorReader.shows_new sector w.fs.sectorSize w
  rw [← SectorReader.enter_new] at hnew
  refine (mdWalkInit_views hnew).into fun walk reader hrun hreader => ?_
  obtain ⟨-, rfl, -⟩ := mdWalkInit_ok hrun
  exact walkRecords_direct hplan (hreader.mono (Nat.sub_le _ _))

theorem flashRead_quiet (hplan : w.dev.plan = []) (h : (flashRead off n).run w = (.ok bs, w')) :
    bs = Nor.read w.dev.mem off n := by
  by_cases hle : off + n ≤ w.dev.size
  · rw [flashRead_run hplan hle] at h
    cases h
    rfl
  · have hread : w.dev.read off n = (none, { w.dev with plan := Device.nextPlan w.dev.plan }) := by
      rw [Device.read, hplan]
      exact if_neg hle
    simp only [flashRead, hread] at h
    cases h

theorem sectorReaderView_quiet (hplan : w.dev.plan = [])
    (h : (Direct.sectorReaderView sector off n).run w = (.ok bs, w')) :
    bs = Nor.read w.dev.mem (sector * w.fs.sectorSize + off) n := by
  rw [Direct.sectorReaderView, bind_of_ok (run_getFs w)] at h
  split at h
  · cases h
  · exact flashRead_quiet hplan h

/-- The type of a record the walk passes is programmed. -/
theorem mdWalkNext_type {walk walk' : MdWalk} {r : MdRecord} (hplan : w.dev.plan = [])
    (h : (Direct.mdWalkNext walk).run w = (.ok (walk', r, .record), w')) :
    Nor.get w.dev.mem (walk.sector * w.fs.sectorSize + (walk.cursor - 1)) ≠ blank := by
  rw [Direct.mdWalkNext] at h
  split at h
  · cases h
  split at h
  · cases h
  obtain ⟨⟨r', result⟩, w1, hdecode, h⟩ := bind_ok h
  rw [Direct.decodeFileMdRecord, bind_of_ok (run_getFs w)] at hdecode
  obtain ⟨t, w2, hread, hdecode⟩ := bind_ok hdecode
  have ht := sectorReaderView_quiet hplan hread
  dsimp only at hdecode h
  split at hdecode
  · cases hdecode
    cases h
  · next htype =>
    rw [ht] at htype
    exact htype

/-- The scan of a sector is the scan of the records its walk visits. -/
theorem freeWindowLoop_ok {slot fuel : Nat} {normal : Bool} {reader : SectorReader} {walk : MdWalk}
    {scan scan' : WindowScan} (hplan : w.dev.plan = []) (hreader : reader.Shows walk.sector walk.cursor w)
    (hcursor : scan.metadataStart = walk.cursor)
    (h : (freeWindowLoop sector slot normal fuel reader walk scan).run w = (.ok scan', w')) :
    w' = w ∧ ∃ rs, (Direct.walkRecords fuel walk).run w = (.ok rs, w) ∧ Stacked walk.cursor rs ∧
      scan'.maxDataEnd = claimedEnd scan.maxDataEnd rs ∧
      scan'.metadataStart = lowest walk.cursor rs := by
  induction fuel generalizing reader walk scan with
  | zero =>
    cases h
    exact ⟨rfl, [], rfl, trivial, rfl, hcursor⟩
  | succ fuel ih =>
    rw [freeWindowLoop] at h
    rw [Direct.walkRecords]
    split at h
    · next hstop =>
      cases h
      rw [if_pos hstop]
      exact ⟨rfl, [], rfl, trivial, rfl, hcursor⟩
    next hgo =>
    rw [if_neg hgo]
    obtain ⟨⟨⟨walk', r, result⟩, reader'⟩, w1, hnext, h⟩ := bind_ok h
    obtain ⟨hdirect, rfl, hreader'⟩ := mdWalkNext_back hplan hreader hnext
    rw [bind_of_ok hdirect]
    dsimp only at h ⊢
    cases result with
    | endErased =>
      cases h
      exact ⟨rfl, [], rfl, trivial, rfl, hcursor⟩
    | endInvalid => cases h
    | endClaimedData =>
      cases h
      exact ⟨rfl, [], rfl, trivial, rfl, hcursor⟩
    | record =>
      obtain ⟨rfl, hplace, hfooter, hdata⟩ := mdWalkNext_record hnext
      dsimp only at h
      split at h
      · cases h
      split at h
      · cases h
      obtain ⟨hw, rs, hrs, hstack, hend, hstart⟩ := ih hreader' (by rfl) h
      refine ⟨hw, r :: rs, ?_, ⟨hplace, hfooter, hdata, hstack⟩, hend, hstart⟩
      rw [if_pos rfl, bind_of_ok hrs]
      rfl

theorem blank_of_flashBytesErased {m : Mem} (h : flashBytesErased (Nor.read m off n) = true) {a : Nat}
    (hle : off ≤ a) (hlt : a < off + n) : Nor.get m a = blank := by
  have hall : ∀ b ∈ Nor.read m off n, b = blank := by
    simpa [flashBytesErased] using h
  have hlen : a - off < (Nor.read m off n).length := by
    rw [Nor.length_read]
    omega
  have hbyte := hall _ (List.getElem_mem hlen)
  rwa [Nor.getElem_read, Nat.add_sub_cancel' hle] at hbyte

theorem flashBytesErased_of_blank {m : Mem} (h : ∀ a, off ≤ a → a < off + n → Nor.get m a = blank) :
    flashBytesErased (Nor.read m off n) = true := by
  rw [Nor.read_eq_blanks h]
  simp [flashBytesErased]

theorem spanIsErasedLoop_ok {chunk fuel : Nat} (hplan : w.dev.plan = []) (hchunk : 0 < chunk)
    (hfuel : n ≤ fuel) (h : (spanIsErasedLoop chunk fuel off n).run w = (.ok (), w')) :
    w' = w ∧ ∀ a, off ≤ a → a < off + n → Nor.get w.dev.mem a = blank := by
  induction fuel generalizing off n with
  | zero =>
    cases h
    exact ⟨rfl, fun a hle hlt => by omega⟩
  | succ fuel ih =>
    rw [spanIsErasedLoop] at h
    split at h
    · cases h
      exact ⟨rfl, fun a hle hlt => by omega⟩
    next hn =>
    obtain ⟨bs, w1, hread, h⟩ := bind_ok h
    have hw1 : w1 = w := by
      have hsame : ((flashRead off (min n chunk)).run w).2 = w := run_of_reads hplan
      rwa [hread] at hsame
    cases hw1
    have hbs := flashRead_quiet hplan hread
    split at h
    · next herased =>
      obtain ⟨hw, hrest⟩ := ih (by omega) h
      refine ⟨hw, fun a hle hlt => ?_⟩
      by_cases hfirst : a < off + min n chunk
      · rw [hbs] at herased
        exact blank_of_flashBytesErased herased hle hfirst
      · exact hrest a (by omega) (by omega)
    · cases h

/-- A span that `fffs_flash_span_is_erased` accepts is blank. -/
theorem flashSpanIsErased_ok (hplan : w.dev.plan = []) (hscratch : 0 < w.fs.scratchSize)
    (h : (flashSpanIsErased off n).run w = (.ok (), w')) :
    w' = w ∧ ∀ a, off ≤ a → a < off + n → Nor.get w.dev.mem a = blank := by
  rw [flashSpanIsErased, bind_of_ok (run_getFs w)] at h
  exact spanIsErasedLoop_ok hplan hscratch (Nat.le_refl n) h

end Quiet

/-! ## The programs of the search -/

instance (chunk fuel off n : Nat) : Honest (spanIsErasedLoop chunk fuel off n) := by
  induction fuel generalizing off n with
  | zero => unfold spanIsErasedLoop; infer_instance
  | succ fuel ih => unfold spanIsErasedLoop; infer_instance

instance (off n : Nat) : Honest (flashSpanIsErased off n) := by
  unfold flashSpanIsErased; infer_instance

/-- A program that ends in an error has nothing to be honest about. -/
instance {α β : Type} (x : M α) (e : Status) : Honest (x >>= fun _ => (throw e : M β)) where
  honest h := by
    obtain ⟨a, w1, -, h⟩ := bind_ok h
    cases h

instance (sector slot : Nat) (normal : Bool) (fuel : Nat) (reader : SectorReader) (walk : MdWalk)
    (scan : WindowScan) : Honest (freeWindowLoop sector slot normal fuel reader walk scan) := by
  induction fuel generalizing reader walk scan with
  | zero => unfold freeWindowLoop; infer_instance
  | succ fuel ih =>
    unfold freeWindowLoop
    have hnext : ∀ a : (MdWalk × MdRecord × MdWalkResult) × SectorReader, Honest (match a with
        | ((walk, r, result), reader) => match result with
          | .endErased => (pure scan : M WindowScan)
          | .endInvalid => throw .noSpace
          | .endClaimedData => pure scan
          | .record =>
              if normal ∧ r.type = mdTypeFileContV1 then
                attempt (markSectorFull sector) >>= fun _ => throw .noSpace
              else if r.live ∧ r.slot = slot then throw .noSpace
              else
                freeWindowLoop sector slot normal fuel reader walk
                  { maxDataEnd := max scan.maxDataEnd (r.dataOff + r.dataLen)
                    metadataStart := r.recordStart
                    recordCount := scan.recordCount + 1 }) := by
      rintro ⟨⟨walk, r, result⟩, reader⟩
      cases result <;> infer_instance
    infer_instance

instance (sector minFree slot : Nat) (normal : Bool) :
    Honest (findSectorFreeWindow sector minFree slot normal) := by
  have hgive : ∀ vs win, Honest (do note (.narrow vs); pure win : M FreeWindow) := fun _ _ => inferInstance
  have hfull : Honest (do let _ ← attempt (markSectorFull sector); throw .noSpace : M FreeWindow) :=
    inferInstance
  unfold findSectorFreeWindow
  refine Honest.bind (k := fun fs => ?_)
  split
  · infer_instance
  · refine Honest.bind (k := fun view => ?_)
    dsimp only
    split
    · infer_instance
    · split
      · infer_instance
      · split <;> infer_instance

/-! ## The window -/

/-- What a caller takes a window for: its bytes are blank, there are enough of them, and they
belong to no record that the walk visits. -/
structure WindowSound (w : World) (sector minFree : Nat) (win : FreeWindow) : Prop where
  blank : ∀ a, win.dataOff ≤ a → a < win.recordOff + mdFileRecordSize →
    Nor.get w.dev.mem (sector * w.fs.sectorSize + a) = blank
  footer : win.needsFooter = true → ∀ a, w.fs.sectorSize - sectorFooterSize ≤ a → a < w.fs.sectorSize →
    Nor.get w.dev.mem (sector * w.fs.sectorSize + a) = Nor.blank
  room : win.dataOff + minFree ≤ win.recordOff
  apart : ∀ r ∈ visited w sector, ∀ a, win.dataOff ≤ a → a < win.recordOff + mdFileRecordSize →
    (a < r.recordStart ∨ r.recordStart + mdFileRecordSize ≤ a) ∧ (a < r.dataOff ∨ r.dataEnd ≤ a)

/-- The place for a record under the last one that the walk of a sector visits. -/
def recordPlace (w : World) (sector : Nat) : Nat :=
  lowest (w.fs.sectorSize - sectorFooterSize) (visited w sector) - mdFileRecordSize

/-- The place for a record is blank. -/
def recordPlaceErased (w : World) (sector : Nat) : Bool :=
  flashBytesErased (Nor.read w.dev.mem (sector * w.fs.sectorSize + recordPlace w sector) mdFileRecordSize)

section Sound

variable {w w' : World} {sector minFree slot : Nat} {normal : Bool} {win : FreeWindow}

theorem visited_eq {walk : MdWalk} {rs : List MdRecord} (hplan : w.dev.plan = [])
    (hinit : (Direct.mdWalkInit sector).run w = (.ok walk, w))
    (hrs : (Direct.walkRecords w.fs.sectorSize walk).run w = (.ok rs, w)) : visited w sector = rs := by
  rw [visited, World.withPlan_nil hplan, walkSector_direct hplan, Direct.walkSector,
    bind_of_ok (run_getFs w), bind_of_ok hinit, hrs]

/-- The walk of a blank sector visits nothing. -/
theorem visited_of_blank (hplan : w.dev.plan = [])
    (hblank : ∀ a, a < w.fs.sectorSize → Nor.get w.dev.mem (sector * w.fs.sectorSize + a) = blank) :
    visited w sector = [] := by
  rw [visited, World.withPlan_nil hplan, walkSector_direct hplan, Direct.walkSector,
    bind_of_ok (run_getFs w)]
  cases hrun : (Direct.mdWalkInit sector >>= Direct.walkRecords w.fs.sectorSize).run w with | mk res w1 =>
  cases res with
  | error e => rfl
  | ok rs =>
    obtain ⟨walk, w2, hinit, hwalk⟩ := bind_ok hrun
    rw [Direct.mdWalkInit, bind_of_ok (run_getFs w)] at hinit
    split at hinit
    rotate_left
    · cases hinit
    cases hinit
    generalize hsize : w.fs.sectorSize = size at hwalk
    cases size with
    | zero =>
      cases hwalk
      rfl
    | succ size =>
      rw [Direct.walkRecords] at hwalk
      split at hwalk
      · cases hwalk
        rfl
      obtain ⟨⟨walk', r, result⟩, w3, hnext, hwalk⟩ := bind_ok hwalk
      dsimp only at hwalk
      split at hwalk
      · next hresult =>
        cases hresult
        obtain ⟨reader, hnext', -⟩ := mdWalkNext_shows hplan (SectorReader.shows_new _ _ _) hnext
        obtain ⟨-, hplace, hfooter, -⟩ := mdWalkNext_record hnext'
        refine absurd (hblank _ ?_) (mdWalkNext_type hplan hnext)
        simp only [MdWalk.begin, mdFileRecordSize, sectorFooterSize] at hplace hfooter ⊢
        omega
      · cases hwalk
        rfl

/-- A window that `fffs_find_sector_free_window` returns is a blank sector, or the place under
the records of a live one. -/
theorem findSectorFreeWindow_ok (hplan : w.dev.plan = []) (hscratch : 0 < w.fs.scratchSize)
    (h : (findSectorFreeWindow sector minFree slot normal).run w = (.ok win, w')) :
    (win = ⟨0, u16 (w.fs.sectorSize - sectorFooterSize - mdFileRecordSize), true, 0⟩ ∧
      mdFileRecordSize + minFree ≤ w.fs.sectorSize - sectorFooterSize ∧
      ∀ a, a < w.fs.sectorSize → Nor.get w.dev.mem (sector * w.fs.sectorSize + a) = blank) ∨
    ∃ rs count, visited w sector = rs ∧ Stacked (w.fs.sectorSize - sectorFooterSize) rs ∧
      win = ⟨u16 (claimedEnd 0 rs),
        u16 (lowest (w.fs.sectorSize - sectorFooterSize) rs - mdFileRecordSize), false, count⟩ ∧
      claimedEnd 0 rs + minFree ≤ lowest (w.fs.sectorSize - sectorFooterSize) rs - mdFileRecordSize ∧
      ∀ a, claimedEnd 0 rs ≤ a →
        a < lowest (w.fs.sectorSize - sectorFooterSize) rs - mdFileRecordSize →
        Nor.get w.dev.mem (sector * w.fs.sectorSize + a) = blank := by
  rw [findSectorFreeWindow, bind_of_ok (run_getFs w)] at h
  split at h
  · cases h
  obtain ⟨⟨view, reader⟩, w1, hfooter, h⟩ := bind_ok h
  obtain ⟨-, rfl, hreader⟩ := (readSectorFooter_views hplan SectorReader.enter_new).back hfooter
  dsimp only at h
  split at h
  · obtain ⟨_, w2, hspan, h⟩ := bind_ok h
    obtain ⟨rfl, hblank⟩ := flashSpanIsErased_ok hplan hscratch hspan
    split at h
    · cases h
    next hroom =>
    obtain ⟨_, w3, -, hwin⟩ := bind_ok h
    cases hwin
    refine .inl ⟨rfl, by omega, fun a ha => hblank _ (by omega) (by omega)⟩
  split at h
  · cases h
  split at h
  · cases h
  obtain ⟨⟨walk, reader'⟩, w2, hinit, h⟩ := bind_ok h
  obtain ⟨hdirect, rfl, rfl, hreader'⟩ := mdWalkInit_back hreader hinit
  obtain ⟨scan, w3, hloop, h⟩ := bind_ok h
  obtain ⟨rfl, rs, hrs, hstack, hend, hstart⟩ := freeWindowLoop_ok hplan hreader' rfl hloop
  change scan.maxDataEnd = claimedEnd 0 rs at hend
  change Stacked (w3.fs.sectorSize - sectorFooterSize) rs at hstack
  change scan.metadataStart = lowest (w3.fs.sectorSize - sectorFooterSize) rs at hstart
  split at h
  · obtain ⟨_, w4, -, h⟩ := bind_ok h
    cases h
  split at h
  · split at h
    · obtain ⟨_, w4, -, h⟩ := bind_ok h
      cases h
    · cases h
  next hroom =>
  obtain ⟨_, w4, hspan, hnote⟩ := bind_ok h
  obtain ⟨rfl, hblank⟩ := flashSpanIsErased_ok hplan hscratch hspan
  obtain ⟨_, w5, -, hwin⟩ := bind_ok hnote
  cases hwin
  rw [hend, hstart] at hroom
  refine .inr ⟨rs, u16 scan.recordCount, visited_eq hplan hdirect hrs, hstack, ?_, by omega, fun a hle hlt => ?_⟩
  · rw [hend, hstart]
  · rw [hend, hstart] at hblank
    exact hblank _ (by omega) (by omega)

theorem recordPlaceErased_iff : recordPlaceErased w sector = true ↔
    ∀ a, recordPlace w sector ≤ a → a < recordPlace w sector + mdFileRecordSize →
      Nor.get w.dev.mem (sector * w.fs.sectorSize + a) = blank := by
  refine ⟨fun h a hle hlt => ?_, fun h => flashBytesErased_of_blank fun a hle hlt => ?_⟩
  · exact blank_of_flashBytesErased h (by omega) (by omega)
  · have haddr : sector * w.fs.sectorSize + (a - sector * w.fs.sectorSize) = a :=
      Nat.add_sub_cancel' (by omega)
    rw [← haddr]
    exact h _ (by omega) (by omega)

/-- The window on a device that never fails. -/
theorem WindowSound.iff_quiet {shift : Nat} (hplan : w.dev.plan = [])
    (hsize : w.fs.sectorSize = sectorSizeOf shift) (hscratch : minScratchSize ≤ w.fs.scratchSize)
    (hfits : recordPlace w sector < 65536)
    (h : (findSectorFreeWindow sector minFree slot normal).run w = (.ok win, w')) :
    WindowSound w sector minFree win ↔ recordPlaceErased w sector = true := by
  have hmod : w.fs.sectorSize % 256 = 0 := by rw [hsize, sectorSizeOf]; exact Nat.mul_mod_right _ _
  have hge : 256 ≤ w.fs.sectorSize := by
    rw [hsize, sectorSizeOf]
    exact Nat.le_mul_of_pos_right _ (Nat.two_pow_pos _)
  have hpos : 0 < w.fs.scratchSize := by
    simp only [minScratchSize] at hscratch
    omega
  rw [recordPlaceErased_iff]
  rcases findSectorFreeWindow_ok hplan hpos h with
    ⟨rfl, hroom, hblank⟩ | ⟨rs, count, hrs, hstack, rfl, hroom, hblank⟩
  · have hnone := visited_of_blank hplan hblank
    have hplace : recordPlace w sector = w.fs.sectorSize - sectorFooterSize - mdFileRecordSize := by
      rw [recordPlace, hnone]
      rfl
    rw [hplace] at hfits ⊢
    have hin : w.fs.sectorSize - sectorFooterSize - mdFileRecordSize + mdFileRecordSize ≤ w.fs.sectorSize := by
      simp only [sectorFooterSize, mdFileRecordSize]
      omega
    refine iff_of_true ⟨fun a _ hlt => hblank a ?_, fun _ a _ hlt => hblank a hlt, ?_, ?_⟩
      fun a _ hlt => hblank a (by omega)
    · change a < u16 _ + mdFileRecordSize at hlt
      rw [u16_of_lt hfits] at hlt
      omega
    · change 0 + minFree ≤ u16 _
      rw [u16_of_lt hfits]
      omega
    · rw [hnone]
      simp
  · have hunder : mdFileRecordSize ≤ lowest (w.fs.sectorSize - sectorFooterSize) rs :=
      hstack.room (by simp only [sectorFooterSize, mdFileRecordSize]; omega)
        (by simp only [sectorFooterSize, mdFileRecordSize]; omega)
    have hplace : recordPlace w sector =
        lowest (w.fs.sectorSize - sectorFooterSize) rs - mdFileRecordSize := by
      rw [recordPlace, hrs]
    rw [← hplace] at hroom hblank ⊢
    have hrec := u16_of_lt hfits
    have hend : u16 (claimedEnd 0 rs) = claimedEnd 0 rs := u16_of_lt (by omega)
    constructor
    · intro hsound a hlo hhi
      have hbyte := hsound.blank a
      simp only [hrec, hend] at hbyte
      exact hbyte (by omega) hhi
    · intro herased
      refine ⟨fun a hlo hhi => ?_, fun h => absurd h Bool.false_ne_true, ?_, fun r hr a hlo hhi => ?_⟩
      · simp only [hrec, hend] at hlo hhi
        rcases Nat.lt_or_ge a (recordPlace w sector) with hlt | hge
        · exact hblank a hlo hlt
        · exact herased a hge hhi
      · simp only [hrec, hend]
        exact hroom
      · rw [hrs] at hr
        have habove := hstack.lowest_le_start hr
        have hdata : r.dataEnd ≤ claimedEnd 0 rs := dataEnd_le_claimedEnd hr
        simp only [hrec, hend] at hlo hhi
        omega

/-- A window of `fffs_find_sector_free_window` is what its caller takes it for exactly when the place
of its record is blank.  A mount has settled the sector size and the least scratch buffer; an offset
of more than sixteen bits, which takes a sector over 64 KiB, is cut off. -/
theorem free_window_sound {shift : Nat} (hsize : w.fs.sectorSize = sectorSizeOf shift)
    (hscratch : minScratchSize ≤ w.fs.scratchSize) (hfits : recordPlace w sector < 65536)
    (h : (findSectorFreeWindow sector minFree slot normal).run w = (.ok win, w')) :
    WindowSound w sector minFree win ↔ recordPlaceErased w sector = true := by
  have hquiet := Honest.honest h
  have hiff := WindowSound.iff_quiet (w := w.withPlan []) rfl hsize hscratch hfits hquiet
  exact ⟨fun hs => hiff.mp { hs with }, fun hplace => { hiff.mpr hplace with }⟩

/-- Four sectors of 256 bytes, two of them for the index.  Sector 2 holds one root with eight bytes of
data, and `under` in the place under its record. -/
def oneRoot (under : List Byte) : World where
  dev :=
    { mem := Nor.program (Nor.program (Nor.erased 1024) 726 under) 742
        (encodeExtentMetadata 5 mdTypeFileRootV1 0 8 1 8 0 true ++ encodeSectorFooter 1 true)
      programGranule := 1
      plan := [] }
  fs := { sectorSize := 256, sectorCount := 4, indexSectors := 2, scratchSize := 64 }
  files := fun _ => {}

def isWindow (r : Except Status FreeWindow) (win : FreeWindow) : Bool :=
  match r with
  | .ok win' => win' == win
  | .error _ => false

theorem run_eq_of_isWindow {x : M FreeWindow} (h : isWindow (x.run w).1 win = true) :
    x.run w = (.ok win, (x.run w).2) := by
  rcases hx : x.run w with ⟨r, w'⟩
  rw [hx] at h
  cases r with
  | error e => cases h
  | ok win' => rw [eq_of_beq h]

/-- The sector with one root has room for another. -/
theorem free_window_sound_oneRoot :
    (findSectorFreeWindow 2 128 9 true).run (oneRoot []) =
      (.ok ⟨8, 214, false, 1⟩, ((findSectorFreeWindow 2 128 9 true).run (oneRoot [])).2) ∧
      WindowSound (oneRoot []) 2 128 ⟨8, 214, false, 1⟩ := by
  have hok : (findSectorFreeWindow 2 128 9 true).run (oneRoot []) =
      (.ok ⟨8, 214, false, 1⟩, ((findSectorFreeWindow 2 128 9 true).run (oneRoot [])).2) :=
    run_eq_of_isWindow (by decide +kernel)
  have hplace : recordPlaceErased (oneRoot []) 2 = true := by decide +kernel
  have hsize : (oneRoot []).fs.sectorSize = sectorSizeOf 0 := rfl
  exact ⟨hok, (free_window_sound hsize (by decide) (by decide +kernel) hok).mpr hplace⟩

/-- A torn record: its slot is programmed, its type is not.  The walk takes its place for blank, and the
search returns it. -/
theorem free_window_torn :
    (findSectorFreeWindow 2 128 9 true).run (oneRoot [blank, 7#8, 0#8]) =
      (.ok ⟨8, 214, false, 1⟩, ((findSectorFreeWindow 2 128 9 true).run (oneRoot [blank, 7#8, 0#8])).2) ∧
      ¬ WindowSound (oneRoot [blank, 7#8, 0#8]) 2 128 ⟨8, 214, false, 1⟩ := by
  have hok : (findSectorFreeWindow 2 128 9 true).run (oneRoot [blank, 7#8, 0#8]) =
      (.ok ⟨8, 214, false, 1⟩, ((findSectorFreeWindow 2 128 9 true).run (oneRoot [blank, 7#8, 0#8])).2) :=
    run_eq_of_isWindow (by decide +kernel)
  have hbyte : Nor.get (oneRoot [blank, 7#8, 0#8]).dev.mem (2 * 256 + 215) ≠ blank := by decide +kernel
  exact ⟨hok, fun hsound => hbyte (hsound.blank 215 (by decide) (by decide))⟩

end Sound

end Fastffs
